/-
# `Py.Lines` — keeping one kind of line at one value

A program that owns one setting of a line-based file rewrites every line of that
kind, and appends one where there is none (`replaceLines`), and writes the lines
back (`writeLines`).  Doing so twice is doing it the last time; two kinds that no
line is both of do not disturb each other; and what is written is read back.
-/
import KdevopsNg.Py.Text

namespace Py

namespace Text

/-! ## Replacing lines -/

section
variable {α : Type*} (p q : α → Bool) (new old : α) (ls : List α)

/-- Put `new` for every line that `p` picks, and at the end where it picks none. -/
def replaceLines : List α := if ls.any p then ls.map fun l => if p l then new else l else ls ++ [new]

variable {p q new old ls}

theorem replaceLines_of_mem {l : α} (hl : l ∈ ls) (hp : p l = true) :
    replaceLines p new ls = ls.map fun l => if p l then new else l := by
  rw [replaceLines, if_pos (List.any_eq_true.mpr ⟨l, hl, hp⟩)]

theorem replaceLines_of_not (h : ∀ l ∈ ls, p l = false) :
    replaceLines p new ls = ls ++ [new] := by
  rw [replaceLines, if_neg]
  rw [List.any_eq_true]
  rintro ⟨l, hl, hp⟩
  rw [h l hl] at hp
  cases hp

/-- Either some line is picked, or none is. -/
theorem picked_or_not (p : α → Bool) (ls : List α) :
    (∃ l ∈ ls, p l = true) ∨ ∀ l ∈ ls, p l = false := by
  by_cases h : ∃ l ∈ ls, p l = true
  · exact .inl h
  · exact .inr fun l hl => Bool.not_eq_true _ ▸ fun hp => h ⟨l, hl, hp⟩

theorem mem_replaceLines {l : α} (h : l ∈ replaceLines p new ls) : l = new ∨ l ∈ ls := by
  rcases picked_or_not p ls with ⟨k, hk, hp⟩ | hno
  · rw [replaceLines_of_mem hk hp] at h
    obtain ⟨m, hm, rfl⟩ := List.mem_map.mp h
    by_cases hpm : p m = true
    · exact .inl (if_pos hpm)
    · rw [if_neg hpm]
      exact .inr hm
  · rw [replaceLines_of_not hno] at h
    rcases List.mem_append.mp h with h | h
    · exact .inr h
    · exact .inl (List.mem_singleton.mp h)

theorem new_mem_replaceLines : new ∈ replaceLines p new ls := by
  rcases picked_or_not p ls with ⟨k, hk, hp⟩ | hno
  · rw [replaceLines_of_mem hk hp]
    exact List.mem_map.mpr ⟨k, hk, if_pos hp⟩
  · rw [replaceLines_of_not hno]
    exact List.mem_append_right _ (List.mem_singleton_self new)

/-- Replacing twice is replacing the last time. -/
theorem replaceLines_replaceLines (hold : p old = true) :
    replaceLines p new (replaceLines p old ls) = replaceLines p new ls := by
  rw [replaceLines_of_mem (new_mem_replaceLines (p := p)) hold]
  rcases picked_or_not p ls with ⟨k, hk, hp⟩ | hno
  · rw [replaceLines_of_mem hk hp, replaceLines_of_mem hk hp, List.map_map]
    refine List.map_congr_left fun l _ => ?_
    by_cases hl : p l = true
    · simp [hl, hold]
    · simp [hl]
  · rw [replaceLines_of_not hno, replaceLines_of_not hno, List.map_append, List.map_singleton,
      if_pos hold]
    congr 1
    refine (List.map_congr_left fun l hl => ?_).trans (List.map_id ls)
    rw [hno l hl]
    rfl

/-- Lines are as they were exactly when one is picked and each picked one is `new`. -/
theorem replaceLines_eq_self_iff :
    replaceLines p new ls = ls ↔ (∃ l ∈ ls, p l = true) ∧ ∀ l ∈ ls, p l = true → l = new := by
  rcases picked_or_not p ls with ⟨k, hk, hp⟩ | hno
  · rw [replaceLines_of_mem hk hp]
    have hself : (ls.map fun l => if p l then new else l) = ls ↔
        ∀ l ∈ ls, p l = true → l = new := by
      conv_lhs => rhs; rw [← List.map_id ls]
      rw [List.map_inj_left]
      refine forall₂_congr fun l _ => ?_
      by_cases hl : p l = true
      · simp [hl, eq_comm]
      · simp [hl]
    exact hself.trans (iff_and_self.mpr fun _ => ⟨k, hk, hp⟩)
  · rw [replaceLines_of_not hno]
    refine ⟨fun h => ?_, fun ⟨⟨l, hl, hp⟩, _⟩ => ?_⟩
    · exact absurd (congrArg List.length h) (by simp)
    · rw [hno l hl] at hp
      cases hp

/-- The lines that are not picked do not change. -/
theorem filter_replaceLines_self (hnew : p new = true) :
    (replaceLines p new ls).filter (fun l => !p l) = ls.filter fun l => !p l := by
  have hmap : (ls.map fun l => if p l then new else l).filter (fun l => !p l) =
      ls.filter fun l => !p l := by
    induction ls with
    | nil => rfl
    | cons l ls ih =>
        rw [List.map_cons, List.filter_cons, List.filter_cons, ih]
        by_cases hl : p l = true
        · simp [hl, hnew]
        · simp [hl]
  rcases picked_or_not p ls with ⟨k, hk, hp⟩ | hno
  · rw [replaceLines_of_mem hk hp, hmap]
  · rw [replaceLines_of_not hno, List.filter_append, List.filter_singleton, hnew]
    simp

/-- Replacing lines that a filter keeps, before it and after it. -/
theorem filter_replaceLines (hnew : q new = true) (hpq : ∀ l, p l = true → q l = true) :
    (replaceLines p new ls).filter q = replaceLines p new (ls.filter q) := by
  have hmap : (ls.map fun l => if p l then new else l).filter q =
      (ls.filter q).map fun l => if p l then new else l := by
    induction ls with
    | nil => rfl
    | cons l ls ih =>
        rw [List.map_cons, List.filter_cons, List.filter_cons, ih]
        by_cases hl : p l = true
        · simp [hl, hnew, hpq l hl]
        · by_cases hq : q l = true
          · simp [hl, hq]
          · simp [hl, hq]
  rcases picked_or_not p ls with ⟨k, hk, hp⟩ | hno
  · rw [replaceLines_of_mem hk hp, hmap,
      replaceLines_of_mem (List.mem_filter.mpr ⟨hk, hpq k hp⟩) hp]
  · rw [replaceLines_of_not hno, List.filter_append, List.filter_singleton, hnew,
      replaceLines_of_not fun l hl => hno l (List.mem_filter.mp hl).1]
    rfl

/-- The first line of the kind is the new one. -/
theorem find?_replaceLines_self (hnew : p new = true) :
    (replaceLines p new ls).find? p = some new := by
  have hmap : (∃ l ∈ ls, p l = true) →
      (ls.map fun l => if p l then new else l).find? p = some new := by
    rintro ⟨k, hk, hp⟩
    induction ls with
    | nil => cases hk
    | cons l ls ih =>
        rw [List.map_cons, List.find?_cons]
        by_cases hl : p l = true
        · simp [hl, hnew]
        · have hk' : k ∈ ls := by
            rcases List.mem_cons.mp hk with rfl | hk
            · exact absurd hp hl
            · exact hk
          simp [hl, ih hk']
  rcases picked_or_not p ls with ⟨k, hk, hp⟩ | hno
  · rw [replaceLines_of_mem hk hp, hmap ⟨k, hk, hp⟩]
  · rw [replaceLines_of_not hno, List.find?_append, List.find?_eq_none.mpr
      fun l hl => Bool.eq_false_iff.mp (hno l hl)]
    simp [hnew]

/-- The first line of another kind stays. -/
theorem find?_replaceLines (hnew : q new = false) (hpq : ∀ l, p l = true → q l = false) :
    (replaceLines p new ls).find? q = ls.find? q := by
  have hmap : (ls.map fun l => if p l then new else l).find? q = ls.find? q := by
    induction ls with
    | nil => rfl
    | cons l ls ih =>
        rw [List.map_cons, List.find?_cons, List.find?_cons, ih]
        by_cases hl : p l = true
        · simp [hl, hnew, hpq l hl]
        · simp [hl]
  rcases picked_or_not p ls with ⟨k, hk, hp⟩ | hno
  · rw [replaceLines_of_mem hk hp, hmap]
  · rw [replaceLines_of_not hno, List.find?_append]
    simp [hnew]

/-- A map that keeps each line's kind, and the new line, passes under a replacement. -/
theorem map_replaceLines {g : α → α} (hnew : g new = new) (hg : ∀ l, p (g l) = p l) :
    (replaceLines p new ls).map g = replaceLines p new (ls.map g) := by
  rcases picked_or_not p ls with ⟨k, hk, hp⟩ | hno
  · rw [replaceLines_of_mem hk hp,
      replaceLines_of_mem (List.mem_map_of_mem hk) ((hg k).trans hp), List.map_map, List.map_map]
    refine List.map_congr_left fun l _ => ?_
    by_cases hl : p l = true
    · simp [hl, hg, hnew]
    · simp [hl, hg]
  · rw [replaceLines_of_not hno, replaceLines_of_not, List.map_append, List.map_singleton, hnew]
    intro l hl
    obtain ⟨m, hm, rfl⟩ := List.mem_map.mp hl
    exact (hg m).trans (hno m hm)

/-- Two kinds that no line is both of: setting both, again, sets the one that changed. -/
theorem replaceLines_again {a : α} (ha : p a = true) (hold : q old = true) (hnew : q new = true)
    (hpq : ∀ l, p l = true → q l = false) :
    replaceLines p a (replaceLines q new (replaceLines p a (replaceLines q old ls))) =
      replaceLines p a (replaceLines q new ls) := by
  have hnot : ∀ l, q l = true → p l = false := fun l hl => Bool.eq_false_iff.mpr fun hp => by
    rw [hpq l hp] at hl
    cases hl
  have hold' : old ∈ replaceLines p a (replaceLines q old ls) := by
    refine List.mem_of_find?_eq_some (p := q) ?_
    rw [find?_replaceLines (hpq a ha) hpq, find?_replaceLines_self hold]
  rw [replaceLines_of_mem hold' hold, map_replaceLines,
    ← replaceLines_of_mem (new_mem_replaceLines (p := q)) hold, replaceLines_replaceLines hold,
    replaceLines_replaceLines ha]
  · rw [hpq a ha]
    rfl
  · intro l
    by_cases hl : q l = true
    · rw [if_pos hl, hnot new hnew, hnot l hl]
    · rw [if_neg hl]

end

/-! ## Writing lines -/

/-- `"\n".join(lines) + "\n"`. -/
def writeLines (ls : List (List Char)) : List Char := ['\n'].intercalate ls ++ ['\n']

/-- A text of one line. -/
def OneLine (s : List Char) : Prop := ∀ c ∈ s, isLineBreak c = false

instance (s : List Char) : Decidable (OneLine s) :=
  List.decidableBAll (fun c => isLineBreak c = false) s

theorem OneLine.append {s t : List Char} (hs : OneLine s) (ht : OneLine t) : OneLine (s ++ t) :=
  fun c hc => (List.mem_append.mp hc).elim (hs c) (ht c)

theorem OneLine.cons {c : Char} {s : List Char} (hc : isLineBreak c = false) (hs : OneLine s) :
    OneLine (c :: s) := List.forall_mem_cons.mpr ⟨hc, hs⟩

theorem OneLine.subset {s t : List Char} (hs : OneLine s) (h : t ⊆ s) : OneLine t :=
  fun c hc => hs c (h hc)

/-- No printing ASCII character breaks a line. -/
theorem isLineBreak_of_ascii {c : Char} (hlow : 0x20 ≤ c.toNat) (hhigh : c.toNat ≤ 0x7e) :
    isLineBreak c = false := by
  rw [isLineBreak, decide_eq_false_iff_not]
  simp only [List.mem_cons, List.not_mem_nil, or_false]
  omega

/-- Lines written are read back. -/
theorem splitlines_writeLines {ls : List (List Char)} (hne : ls ≠ [])
    (h : ∀ l ∈ ls, OneLine l) : splitlines (writeLines ls) = ls := by
  obtain ⟨init, last, rfl⟩ := (List.eq_nil_or_concat ls).resolve_left hne
  rw [List.concat_eq_append] at h ⊢
  rw [writeLines, intercalate_snoc, List.append_assoc,
    splitlines_lines fun l hl => h l (List.mem_append_left _ hl),
    splitlines_line (h last (List.mem_append_right _ (List.mem_singleton_self last)))]
  rfl

/-- Lines are told by the text they join to. -/
theorem intercalate_inj {ls ls' : List (List Char)} (hne : ls ≠ []) (hne' : ls' ≠ [])
    (h : ∀ l ∈ ls, OneLine l) (h' : ∀ l ∈ ls', OneLine l)
    (heq : ['\n'].intercalate ls = ['\n'].intercalate ls') : ls = ls' := by
  rw [← splitlines_writeLines hne h, ← splitlines_writeLines hne' h', writeLines, writeLines, heq]

end Text

end Py
