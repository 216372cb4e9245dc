/-
# `Py.Group` — lists by key

The loop `d.setdefault(f(x), []).append(x)`.  Under each key are the elements with that
key, in order (`get?_groupBy`), and a key is there when some element has it.  The elements
under the keys that satisfy `P` are as many as those whose key does (`sum_groupBy`).
-/
import Mathlib.Algebra.BigOperators.Group.List.Basic
import Mathlib.Algebra.GroupWithZero.Nat
import KdevopsNg.Py.Dict

namespace Py.Dict

variable {κ α : Type} [DecidableEq κ]

/-- `d.get(k, [])`. -/
def bucket (d : Map κ (List α)) (k : κ) : List α := (get? d k).getD []

/-- `d.setdefault(k, []).append(x)`. -/
def push (d : Map κ (List α)) (k : κ) (x : α) : Map κ (List α) := set d k (bucket d k ++ [x])

/-- The elements of a list by their keys. -/
def groupBy (f : α → κ) (xs : List α) : Map κ (List α) :=
  xs.foldl (fun d x => push d (f x) x) []

/-- The number of elements under the keys that satisfy `P`. -/
def countAt (P : κ → Bool) (d : Map κ (List α)) : ℕ :=
  ((d.filter fun e => P e.1).map fun e => e.2.length).sum

section
variable (f : α → κ) (xs : List α)

theorem groupBy_concat (x : α) : groupBy f (xs ++ [x]) = push (groupBy f xs) (f x) x := by
  rw [groupBy, List.foldl_append]
  rfl

/-- Under a key are the elements that have it. -/
theorem bucket_groupBy (k : κ) : bucket (groupBy f xs) k = xs.filter fun x => f x = k := by
  induction xs using List.reverseRecOn with
  | nil => rfl
  | append_singleton xs x ih =>
      rw [groupBy_concat, bucket, push, get?_set, List.filter_append]
      by_cases hk : k = f x
      · subst hk
        rw [if_pos rfl, Option.getD_some, ih, List.filter_singleton, decide_eq_true rfl]
        rfl
      · rw [if_neg hk, List.filter_singleton, decide_eq_false (Ne.symm hk), cond_false,
          ← ih, List.append_nil]
        rfl

theorem mem_keys_groupBy (k : κ) : k ∈ keys (groupBy f xs) ↔ ∃ x ∈ xs, f x = k := by
  induction xs using List.reverseRecOn with
  | nil => simp [groupBy, keys]
  | append_singleton xs x ih =>
      rw [groupBy_concat, push, mem_keys_set, ih]
      simp only [List.mem_append, List.mem_singleton]
      constructor
      · rintro (rfl | ⟨y, hy, hkey⟩)
        · exact ⟨x, .inr rfl, rfl⟩
        · exact ⟨y, .inl hy, hkey⟩
      · rintro ⟨y, hy | rfl, hkey⟩
        · exact .inr ⟨y, hy, hkey⟩
        · exact .inl hkey.symm

end

omit [DecidableEq κ] in
theorem countAt_cons (P : κ → Bool) (k : κ) (v : List α) (d : Map κ (List α)) :
    countAt P ((k, v) :: d) = (if P k then v.length else 0) + countAt P d := by
  rw [countAt, countAt, List.filter_cons]
  cases P k with
  | true => rfl
  | false => simp

/-- One more element under a key counts where the key does. -/
theorem countAt_push (P : κ → Bool) (d : Map κ (List α)) (k : κ) (x : α) :
    countAt P (push d k x) = countAt P d + if P k then 1 else 0 := by
  rw [push]
  induction d with
  | nil =>
      rw [set_nil, countAt_cons, Nat.add_comm]
      rfl
  | cons e d ih =>
      obtain ⟨k', v⟩ := e
      by_cases hk : k' = k
      · subst hk
        have hhead : bucket ((k', v) :: d) k' = v := by rw [bucket, get?_cons, if_pos rfl]; rfl
        rw [hhead, set_cons, if_pos rfl, countAt_cons, countAt_cons, List.length_append,
          List.length_singleton]
        cases P k' with
        | true => exact Nat.add_right_comm _ _ _
        | false => rfl
      · have hrest : bucket ((k', v) :: d) k = bucket d k := by
          rw [bucket, get?_cons, if_neg hk]
          rfl
        rw [hrest, set_cons, if_neg hk, countAt_cons, countAt_cons, ih, Nat.add_assoc]

/-- The elements under some keys are those that have one of them. -/
theorem countAt_groupBy (P : κ → Bool) (f : α → κ) (xs : List α) :
    countAt P (groupBy f xs) = (xs.filter fun x => P (f x)).length := by
  induction xs using List.reverseRecOn with
  | nil => rfl
  | append_singleton xs x ih =>
      rw [groupBy_concat, countAt_push, ih, List.filter_append, List.length_append,
        List.filter_singleton]
      cases P (f x) with
      | true => rfl
      | false => rfl

/-! ## Taking keys out -/

/-- `for k in ks: d.pop(k)`. -/
def eraseAll (d : Map κ (List α)) (ks : List κ) : Map κ (List α) := ks.foldl erase d

theorem eraseAll_eq (d : Map κ (List α)) {ks : List κ} {P : κ → Bool}
    (hP : ∀ k, P k = true ↔ k ∉ ks) : eraseAll d ks = d.filter fun e => P e.1 := by
  induction ks generalizing d P with
  | nil =>
      have hall : ∀ e ∈ d, P e.1 = true := fun e _ => (hP e.1).mpr List.not_mem_nil
      exact (List.filter_eq_self.mpr hall).symm
  | cons k ks ih =>
      have hstep : eraseAll d (k :: ks) = eraseAll (erase d k) ks := rfl
      have hrest : ∀ k', decide (k' ∉ ks) = true ↔ k' ∉ ks := fun k' => decide_eq_true_iff
      rw [hstep, ih (erase d k) hrest, erase, List.filter_filter]
      refine List.filter_congr fun e _ => ?_
      rw [Bool.eq_iff_iff, hP, Bool.and_eq_true, decide_eq_true_iff, decide_eq_true_iff,
        List.mem_cons, not_or, and_comm]

theorem bucket_filter (P : κ → Bool) (d : Map κ (List α)) (k : κ) :
    bucket (d.filter fun e => P e.1) k = if P k then bucket d k else [] := by
  rw [bucket, get?_filter]
  by_cases hP : P k = true
  · rw [if_pos hP, if_pos hP]
    rfl
  · rw [if_neg hP, if_neg hP]
    rfl

omit [DecidableEq κ] in
theorem countAt_filter (P Q : κ → Bool) (d : Map κ (List α)) :
    countAt P (d.filter fun e => Q e.1) = countAt (fun k => P k && Q k) d := by
  rw [countAt, countAt, List.filter_filter]

end Py.Dict
