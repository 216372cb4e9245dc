/-
# `Py.Dict` — insertion-ordered dictionaries

A Python `dict` keeps its keys in the order they were first inserted, and an
assignment to a key that is already there keeps the key's place.  The list of
pairs below is that order; `set` overwrites in place and appends a new key at
the end, so `json.dumps` of the list writes the text Python writes.

The lookup laws (`get?_set_self`, `get?_set_ne`, `get?_erase_self`,
`get?_erase_ne`) hold of every list, a repeated key included: the first pair of
a key is the one that counts, and `set` overwrites exactly that one.
-/
import Mathlib.Data.List.Basic
import Mathlib.Data.List.Induction

namespace Py

/-- A map from keys to values, in insertion order. -/
abbrev Map (κ α : Type) := List (κ × α)

/-- A dictionary with string keys. -/
abbrev Dict (α : Type) := Map String α

namespace Dict

variable {κ α : Type} [DecidableEq κ]

/-- `d.get(k)`. -/
def get? : Map κ α → κ → Option α
  | [], _ => none
  | (k', v) :: d, k => if k' = k then some v else get? d k

/-- `d[k] = v`. -/
def set : Map κ α → κ → α → Map κ α
  | [], k, v => [(k, v)]
  | (k', v') :: d, k, v => if k' = k then (k, v) :: d else (k', v') :: set d k v

/-- `d.pop(k, None)`, the dictionary it leaves. -/
def erase (d : Map κ α) (k : κ) : Map κ α := d.filter (fun p => p.1 ≠ k)

/-- `list(d)`. -/
def keys (d : Map κ α) : List κ := d.map Prod.fst

/-- `k in d`. -/
def contains (d : Map κ α) (k : κ) : Bool := (get? d k).isSome

/-- `{**d, **e}`. -/
def merge (d e : Map κ α) : Map κ α := e.foldl (fun acc p => set acc p.1 p.2) d

@[simp] theorem get?_nil (k : κ) : get? ([] : Map κ α) k = none := rfl

@[simp] theorem get?_cons (k k' : κ) (v : α) (d : Map κ α) :
    get? ((k', v) :: d) k = if k' = k then some v else get? d k := rfl

@[simp] theorem set_nil (k : κ) (v : α) : set ([] : Map κ α) k v = [(k, v)] := rfl

@[simp] theorem set_cons (k k' : κ) (v v' : α) (d : Map κ α) :
    set ((k', v') :: d) k v = if k' = k then (k, v) :: d else (k', v') :: set d k v := rfl

theorem get?_set_self (d : Map κ α) (k : κ) (v : α) : get? (set d k v) k = some v := by
  induction d with
  | nil => simp
  | cons p d ih =>
      obtain ⟨k', v'⟩ := p
      by_cases h : k' = k
      · simp [h]
      · simp [h, ih]

theorem get?_set_ne {k k' : κ} (d : Map κ α) (v : α) (h : k' ≠ k) :
    get? (set d k v) k' = get? d k' := by
  induction d with
  | nil => simp [Ne.symm h]
  | cons p d ih =>
      obtain ⟨k'', v''⟩ := p
      by_cases hk : k'' = k
      · subst hk; simp [Ne.symm h]
      · simp [hk, ih]

theorem get?_set (d : Map κ α) (k k' : κ) (v : α) :
    get? (set d k v) k' = if k' = k then some v else get? d k' := by
  by_cases h : k' = k
  · subst h; rw [get?_set_self, if_pos rfl]
  · rw [get?_set_ne d v h, if_neg h]

theorem get?_erase_self (d : Map κ α) (k : κ) : get? (erase d k) k = none := by
  induction d with
  | nil => rfl
  | cons p d ih =>
      obtain ⟨k', v'⟩ := p
      by_cases h : k' = k
      · simpa [erase, h] using ih
      · simpa [erase, h] using ih

theorem get?_erase_ne {k k' : κ} (d : Map κ α) (h : k' ≠ k) :
    get? (erase d k) k' = get? d k' := by
  induction d with
  | nil => rfl
  | cons p d ih =>
      obtain ⟨k'', v''⟩ := p
      by_cases hk : k'' = k
      · subst hk; simpa [erase, Ne.symm h] using ih
      · have ih' : get? (List.filter (fun p => !decide (p.1 = k)) d) k' = get? d k' := by
          simpa [erase] using ih
        simp [erase, hk, ih']

theorem contains_iff (d : Map κ α) (k : κ) : contains d k = true ↔ ∃ v, get? d k = some v := by
  simp [contains, Option.isSome_iff_exists]

/-- A key that `get?` finds is the key of one of the pairs. -/
theorem mem_of_get? {d : Map κ α} {k : κ} {v : α} (h : get? d k = some v) : (k, v) ∈ d := by
  induction d with
  | nil => simp at h
  | cons p d ih =>
      obtain ⟨k', v'⟩ := p
      by_cases hk : k' = k
      · subst hk
        simp only [get?_cons, if_true, Option.some.injEq] at h
        simp [h]
      · simp only [get?_cons, if_neg hk] at h
        exact List.mem_cons_of_mem _ (ih h)

/-- A pair after an assignment is the new one, or was there. -/
theorem mem_set {d : Map κ α} {k : κ} {v : α} {p : κ × α} (h : p ∈ set d k v) :
    p = (k, v) ∨ p ∈ d := by
  induction d with
  | nil => exact .inl (List.mem_singleton.mp h)
  | cons q d ih =>
      rw [set_cons] at h
      split at h
      · rcases List.mem_cons.mp h with rfl | h
        · exact .inl rfl
        · exact .inr (List.mem_cons_of_mem _ h)
      · rcases List.mem_cons.mp h with rfl | h
        · exact .inr List.mem_cons_self
        · exact (ih h).imp_right (List.mem_cons_of_mem _)

/-- Where the keys are distinct, every entry is the one of its key. -/
theorem get?_of_mem {d : Map κ α} (hd : (keys d).Nodup) {k : κ} {v : α} (h : (k, v) ∈ d) :
    get? d k = some v := by
  induction d with
  | nil => exact (List.not_mem_nil h).elim
  | cons p d ih =>
      obtain ⟨k', v'⟩ := p
      obtain ⟨hfresh, hrest⟩ := List.nodup_cons.mp hd
      rw [get?_cons]
      rcases List.mem_cons.mp h with heq | h
      · cases heq
        rw [if_pos rfl]
      · have hne : k' ≠ k := by
          rintro rfl
          exact hfresh (List.mem_map.mpr ⟨_, h, rfl⟩)
        rw [if_neg hne]
        exact ih hrest h

/-! ## Assigning again -/

/-- Assigning what is there changes nothing. -/
theorem set_of_get? {d : Map κ α} {k : κ} {v : α} (h : get? d k = some v) : set d k v = d := by
  induction d with
  | nil => cases h
  | cons p d ih =>
      obtain ⟨k', v'⟩ := p
      rw [get?_cons] at h
      by_cases hk : k' = k
      · rw [if_pos hk] at h
        cases h
        rw [set_cons, if_pos hk, hk]
      · rw [if_neg hk] at h
        rw [set_cons, if_neg hk, ih h]

/-- The last assignment to a key counts. -/
theorem set_set (d : Map κ α) (k : κ) (v w : α) : set (set d k v) k w = set d k w := by
  induction d with
  | nil => simp
  | cons p d ih =>
      obtain ⟨k', v'⟩ := p
      by_cases hk : k' = k
      · simp [hk]
      · simp [hk, ih]

/-- Assignments to two keys may be swapped when the one moved before is there
already. -/
theorem set_comm (k k' : κ) {d : Map κ α} {v w : α} (hne : k ≠ k')
    (h : (get? d k).isSome = true) : set (set d k' w) k v = set (set d k v) k' w := by
  induction d with
  | nil => cases h
  | cons p d ih =>
      obtain ⟨k'', v''⟩ := p
      rw [get?_cons] at h
      by_cases hk : k'' = k
      · subst hk
        simp [hne]
      · rw [if_neg hk] at h
        by_cases hk' : k'' = k'
        · subst hk'
          simp [hk]
        · simp [hk, hk', ih h]

/-- Taking out a key undoes an assignment to it. -/
theorem erase_set (d : Map κ α) (k : κ) (v : α) : erase (set d k v) k = erase d k := by
  induction d with
  | nil => simp [set, erase]
  | cons e d ih =>
      obtain ⟨k', v'⟩ := e
      rw [set_cons]
      by_cases hk : k' = k
      · rw [if_pos hk, hk, erase, erase, List.filter_cons_of_neg (by simp),
          List.filter_cons_of_neg (by simp)]
      · have hcons : ∀ es : Map κ α, erase ((k', v') :: es) k = (k', v') :: erase es k :=
          fun es => List.filter_cons_of_pos (decide_eq_true hk)
        rw [if_neg hk, hcons, hcons, ih]

theorem erase_of_get?_none {d : Map κ α} {k : κ} (h : get? d k = none) : erase d k = d := by
  induction d with
  | nil => rfl
  | cons p d ih =>
      obtain ⟨k', v'⟩ := p
      rw [get?_cons] at h
      by_cases hk : k' = k
      · rw [if_pos hk] at h
        cases h
      · rw [if_neg hk] at h
        unfold erase at ih ⊢
        rw [List.filter_cons_of_pos (by simpa using hk), ih h]

/-! ## Parts of a map -/

theorem get?_append (d e : Map κ α) (k : κ) :
    get? (d ++ e) k = (get? d k).or (get? e k) := by
  induction d with
  | nil => rfl
  | cons p d ih =>
      obtain ⟨k', v'⟩ := p
      rw [List.cons_append, get?_cons, get?_cons, ih]
      by_cases h : k' = k
      · rw [if_pos h, if_pos h]
        rfl
      · rw [if_neg h, if_neg h]

/-- The part of a map on the keys that satisfy `P`. -/
theorem get?_filter (P : κ → Bool) (d : Map κ α) (k : κ) :
    get? (d.filter fun p => P p.1) k = if P k then get? d k else none := by
  induction d with
  | nil => simp
  | cons p d ih =>
      obtain ⟨k', v'⟩ := p
      by_cases hk : k' = k
      · subst hk
        by_cases hP : P k' = true
        · simp [hP]
        · rw [List.filter_cons_of_neg (by simpa using hP), ih, if_neg hP, if_neg hP]
      · by_cases hP : P k' = true
        · rw [List.filter_cons_of_pos (by simpa using hP), get?_cons, if_neg hk, ih, get?_cons,
            if_neg hk]
        · rw [List.filter_cons_of_neg (by simpa using hP), ih, get?_cons, if_neg hk]

/-- Many assignments: the last one to a key counts. -/
theorem get?_foldl_set {ι : Type} (key : ι → κ) (val : ι → α) (xs : List ι) (d : Map κ α) (k : κ) :
    get? (xs.foldl (fun acc x => set acc (key x) (val x)) d) k =
      ((xs.reverse.find? fun x => key x = k).map val).or (get? d k) := by
  induction xs using List.reverseRecOn with
  | nil => rfl
  | append_singleton xs x ih =>
      rw [List.foldl_append, List.foldl_cons, List.foldl_nil, get?_set, ih, List.reverse_append,
        List.reverse_singleton, List.singleton_append, List.find?_cons]
      by_cases h : key x = k
      · simp [h]
      · simp [h, Ne.symm h]

/-! ## Keys -/

theorem contains_iff_mem_keys (d : Map κ α) (k : κ) : contains d k = true ↔ k ∈ keys d := by
  induction d with
  | nil => simp [contains, keys]
  | cons p d ih =>
      obtain ⟨k', v'⟩ := p
      by_cases h : k' = k
      · simp [contains, keys, h]
      · have ih' : (get? d k).isSome = true ↔ k ∈ keys d := ih
        simp only [contains, get?_cons, if_neg h, ih', keys, List.map_cons, List.mem_cons]
        constructor
        · intro hk
          exact .inr hk
        · rintro (hk | hk)
          · exact absurd hk.symm h
          · exact hk

/-- An assignment adds its key at the end, unless it is there. -/
theorem keys_set (d : Map κ α) (k : κ) (v : α) :
    keys (set d k v) = if k ∈ keys d then keys d else keys d ++ [k] := by
  induction d with
  | nil => simp [keys]
  | cons p d ih =>
      obtain ⟨k', v'⟩ := p
      by_cases h : k' = k
      · simp [keys, h]
      · have hset : keys (set ((k', v') :: d) k v) = k' :: keys (set d k v) := by
          rw [set_cons, if_neg h]
          rfl
        have hcons : keys ((k', v') :: d) = k' :: keys d := rfl
        have hmem : k ∈ k' :: keys d ↔ k ∈ keys d := by simp [Ne.symm h]
        rw [hset, ih, hcons]
        by_cases hk : k ∈ keys d
        · rw [if_pos hk, if_pos (hmem.mpr hk)]
        · rw [if_neg hk, if_neg (mt hmem.mp hk)]
          rfl

/-- Assignments keep the keys distinct. -/
theorem keys_set_nodup {d : Map κ α} (h : (keys d).Nodup) (k : κ) (v : α) :
    (keys (set d k v)).Nodup := by
  rw [keys_set]
  by_cases hk : k ∈ keys d
  · rw [if_pos hk]
    exact h
  · rw [if_neg hk]
    exact List.nodup_append.mpr ⟨h, by simp, by
      intro a ha b hb
      rw [List.mem_singleton] at hb
      rintro rfl
      exact hk (hb ▸ ha)⟩

/-- A key that is not there has no value. -/
theorem get?_eq_none_iff (d : Map κ α) (k : κ) : get? d k = none ↔ k ∉ keys d := by
  rw [← contains_iff_mem_keys, contains, Bool.not_eq_true, Option.isSome_eq_false_iff,
    Option.isNone_iff_eq_none]

/-- A union takes the value of the second map, where it has one. -/
theorem get?_merge (d : Map κ α) {e : Map κ α} (he : (keys e).Nodup) (k : κ) :
    get? (merge d e) k = (get? e k).or (get? d k) := by
  induction e using List.reverseRecOn with
  | nil => rfl
  | append_singleton e p ih =>
      have hkeys : keys (e ++ [p]) = keys e ++ [p.1] := List.map_append
      rw [hkeys, List.nodup_append] at he
      have hstep : merge d (e ++ [p]) = set (merge d e) p.1 p.2 := by
        rw [merge, List.foldl_append]
        rfl
      have hlast : get? [p] k = if p.1 = k then some p.2 else none := rfl
      rw [hstep, get?_set, ih he.1, get?_append, hlast]
      by_cases hk : k = p.1
      · have hfresh : get? e k = none :=
          (get?_eq_none_iff e k).mpr fun hmem => he.2.2 k hmem p.1 List.mem_cons_self hk
        rw [if_pos hk, if_pos hk.symm, hfresh]
        rfl
      · rw [if_neg hk, if_neg (Ne.symm hk), Option.or_none]

theorem mem_keys_set {d : Map κ α} {k k' : κ} {v : α} : k' ∈ keys (set d k v) ↔ k' = k ∨ k' ∈ keys d := by
  rw [← contains_iff_mem_keys, contains, get?_set]
  by_cases h : k' = k
  · simp [h]
  · rw [if_neg h, or_iff_right h, ← contains_iff_mem_keys, contains]

end Dict

/-- `list(dict.fromkeys(xs))` repeats nothing. -/
theorem nodup_eraseDups {α : Type} [DecidableEq α] (xs : List α) : xs.eraseDups.Nodup := by
  -- each element is taken out of what follows it, which is therefore no longer
  induction hn : xs.length using Nat.strongRecOn generalizing xs with
  | _ n ih =>
      cases xs with
      | nil => exact List.nodup_nil
      | cons x xs =>
          have hshort : (xs.filter fun y => !y == x).length < n := by
            rw [← hn, List.length_cons]
            exact Nat.lt_succ_of_le (List.length_filter_le _ xs)
          rw [List.eraseDups_cons, List.nodup_cons, List.mem_eraseDups]
          exact ⟨fun hx => by simp at hx, ih _ hshort _ rfl⟩

end Py
