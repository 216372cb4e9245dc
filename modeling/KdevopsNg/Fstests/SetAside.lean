/-
# `Fstests.SetAside` — the names a rotation gives

A rotation gives `result.xml`, `check.log` and the artefacts of a test an index.
The name it gives says which index it is and what the file was
(`rotatedName_inj`).  Where the suffix is one the pattern of rotated names
lists (`Marked`), the name is taken for a current one neither by the next
rotation (`current_rotated`) nor by the report of the failed tests
(`outBad_rotated`).

The suffixes a rotation takes are more: everything of a failed test, and
everything after `core.`.
-/
import KdevopsNg.Fstests.Rotate
import KdevopsNg.Fstests.Xunit
import KdevopsNg.Sys.Shelf

namespace KdevopsNg.Fstests

open Py Sys

/-- `\d` of `re`: the ten digits are, the dot is not. -/
structure Decimal (u : Unicode) : Prop where
  digit : ∀ c : Char, c.isDigit = true → (u.digit? c).isSome = true
  dot : u.digit? '.' = none

/-- A suffix that `_ROTATED_RE` finds after an index, and `_ROTATED_OUT_BAD`
where it ends in `.out.bad`. -/
def Marked (u : Unicode) (rest : List Char) : Prop :=
  (wordRest ["out.bad", "dmesg", "hints", "full", "fsxgood", "fsxlog"] rest ||
    coreRest rest) = true ∧
    (".out.bad".toList <:+ rest → rotatedOutBad u (String.ofList rest) = true)

/-! ## The index in a name -/

theorem pad4_digits {n : ℕ} {c : Char} (h : c ∈ pad4 n) : c.isDigit = true := by
  rcases List.mem_append.mp h with h | h
  · rw [List.eq_of_mem_replicate h]
    rfl
  · exact Nat.isDigit_of_mem_toDigits (by decide) (by decide) h

theorem pad4_ne_nil (n : ℕ) : pad4 n ≠ [] := by
  intro h
  exact Nat.toDigits_ne_nil (List.append_eq_nil_iff.mp h).2

theorem dot_not_mem_pad4 (n : ℕ) : '.' ∉ pad4 n := fun h => by
  have hdigit := pad4_digits h
  revert hdigit
  decide

/-- The digits read as a number are the index again. -/
theorem ofDigitChars_pad4 (n : ℕ) : Nat.ofDigitChars 10 (pad4 n) 0 = n := by
  rw [pad4, Nat.ofDigitChars_append, Nat.ofDigitChars_replicate_zero, Nat.mul_zero,
    Nat.ofDigitChars_ten_toDigits]

theorem pad4_inj {m n : ℕ} (h : pad4 m = pad4 n) : m = n := by
  rw [← ofDigitChars_pad4 m, h, ofDigitChars_pad4]

/-- What stands before the first separator, and what after it. -/
theorem append_sep_inj {c : Char} {xs ys xs' ys' : List Char} (h : c ∉ xs) (h' : c ∉ xs')
    (heq : xs ++ c :: ys = xs' ++ c :: ys') : xs = xs' ∧ ys = ys' := by
  have hbefore : ∀ {zs : List Char}, c ∉ zs → ∀ a ∈ zs, (decide (a ≠ c)) = true := by
    intro zs hzs a ha
    rw [decide_eq_true_eq]
    rintro rfl
    exact hzs ha
  have htake := congrArg (List.takeWhile fun a => decide (a ≠ c)) heq
  rw [List.takeWhile_append_of_pos (hbefore h), List.takeWhile_append_of_pos (hbefore h'),
    List.takeWhile_cons_of_neg (by simp), List.takeWhile_cons_of_neg (by simp),
    List.append_nil, List.append_nil] at htake
  subst htake
  exact ⟨rfl, (List.cons.inj (List.append_cancel_left heq)).2⟩

theorem rotatedName_toList (base : List Char) (n : ℕ) (rest : List Char) :
    (rotatedName base n rest).toList = base ++ '.' :: (pad4 n ++ '.' :: rest) := by
  rw [rotatedName, String.toList_ofList, List.append_assoc, List.cons_append]

theorem rotatedName_inj {base base' rest rest' : List Char} {m n : ℕ} (h : '.' ∉ base)
    (h' : '.' ∉ base') (heq : rotatedName base m rest = rotatedName base' n rest') :
    base = base' ∧ m = n ∧ rest = rest' := by
  have hlist := congrArg String.toList heq
  rw [rotatedName_toList, rotatedName_toList] at hlist
  obtain ⟨hbase, hrest⟩ := append_sep_inj h h' hlist
  obtain ⟨hpad, hrest⟩ := append_sep_inj (dot_not_mem_pad4 m) (dot_not_mem_pad4 n) hrest
  exact ⟨hbase, pad4_inj hpad, hrest⟩

/-! ## Current names -/

/-- The first dot of a name parts its base from its suffix. -/
theorem current_iff {u : Unicode} {name : String} {base rest : List Char} :
    current u name = some (base, rest) ↔
      name.toList = base ++ '.' :: rest ∧ '.' ∉ base ∧ rotatedRest u rest = false := by
  have hpart : ∀ {xs ys : List Char}, '.' ∉ xs →
      (xs ++ '.' :: ys).takeWhile (fun c => decide (c ≠ '.')) = xs ∧
        ((xs ++ '.' :: ys).dropWhile fun c => decide (c ≠ '.')) = '.' :: ys := by
    intro xs ys hxs
    have hall : ∀ a ∈ xs, decide (a ≠ '.') = true := fun a ha => by
      rw [decide_eq_true_eq]
      rintro rfl
      exact hxs ha
    rw [List.takeWhile_append_of_pos hall, List.dropWhile_append_of_pos hall]
    simp
  rw [current]
  constructor
  · intro h
    split at h
    · next hcurrent =>
        obtain ⟨hbase, hrest⟩ := Prod.mk.inj (Option.some.inj h)
        obtain ⟨xs, ys, hname, hxs⟩ := List.eq_append_cons_of_mem hcurrent.1
        rw [hname] at hbase hrest hcurrent
        rw [(hpart hxs).1] at hbase
        rw [(hpart hxs).2, List.tail_cons] at hrest hcurrent
        subst hbase
        subst hrest
        exact ⟨hname, hxs, hcurrent.2⟩
    · cases h
  · rintro ⟨hname, hbase, hrest⟩
    rw [hname, (hpart hbase).1, (hpart hbase).2, List.tail_cons,
      if_pos ⟨List.mem_append_right _ List.mem_cons_self, hrest⟩]

section Decimal

variable {u : Unicode} (hu : Decimal u)

include hu

/-- The digits at the head of an indexed suffix. -/
theorem digits_pad4 (n : ℕ) (rest : List Char) :
    (pad4 n ++ '.' :: rest).takeWhile (fun c => (u.digit? c).isSome) = pad4 n ∧
      (pad4 n ++ '.' :: rest).dropWhile (fun c => (u.digit? c).isSome) = '.' :: rest := by
  have hall : ∀ c ∈ pad4 n, (u.digit? c).isSome = true := fun c hc => hu.digit c (pad4_digits hc)
  have hdot : (u.digit? '.').isSome = false := by rw [hu.dot]; rfl
  rw [List.takeWhile_append_of_pos hall, List.dropWhile_append_of_pos hall, List.takeWhile_cons,
    List.dropWhile_cons, hdot]
  exact ⟨List.append_nil _, rfl⟩

theorem rotatedRest_pad4 (n : ℕ) (rest : List Char) : rotatedRest u (pad4 n ++ '.' :: rest) =
    (wordRest ["out.bad", "dmesg", "hints", "full", "fsxgood", "fsxlog"] rest ||
      coreRest rest) := by
  obtain ⟨htake, hdrop⟩ := digits_pad4 hu n rest
  rw [rotatedRest, Text.leadingDigits, htake, hdrop, decide_eq_true (pad4_ne_nil n)]
  simp

/-- A marked suffix is not current once it has an index. -/
theorem current_rotated {base rest : List Char} (hbase : '.' ∉ base) (n : ℕ)
    (h : Marked u rest) : current u (rotatedName base n rest) = none := by
  rw [Option.eq_none_iff_forall_ne_some]
  rintro ⟨base', rest'⟩ hcurrent
  obtain ⟨hname, hbase', hrest⟩ := current_iff.mp hcurrent
  rw [rotatedName_toList] at hname
  obtain ⟨-, rfl⟩ := append_sep_inj hbase hbase' hname
  rw [rotatedRest_pad4 hu, h.1] at hrest
  cases hrest

/-! ## The failed tests of a report -/

omit hu in
/-- What the pattern finds at the end of a text, it finds at the end of a longer one. -/
theorem rotatedOutBad_append {rest : List Char}
    (h : rotatedOutBad u (String.ofList rest) = true) (front : List Char) :
    rotatedOutBad u (String.ofList (front ++ '.' :: rest)) = true := by
  rw [rotatedOutBad, String.toList_ofList] at h
  rw [rotatedOutBad, String.toList_ofList, Text.split_sep, List.reverse_append]
  split at h
  · next bad out digits x xs hrev =>
      rw [hrev]
      exact h
  · cases h

/-- `<base>.<index>.out.bad` is a rotated one. -/
theorem rotatedOutBad_rotated (base : List Char) (n : ℕ) :
    rotatedOutBad u (rotatedName base n "out.bad".toList) = true := by
  have hsplit : Text.split '.' (rotatedName base n "out.bad".toList).toList =
      Text.split '.' base ++ [pad4 n, "out".toList, "bad".toList] := by
    rw [rotatedName_toList, Text.split_sep, Text.split_sep, Text.split_of_not_mem (dot_not_mem_pad4 n)]
    rfl
  obtain ⟨x, xs, hrev⟩ := List.exists_cons_of_ne_nil
    (List.reverse_ne_nil_iff.mpr (Text.split_ne_nil '.' base))
  have hdigits : (pad4 n).all (fun c => (u.digit? c).isSome) = true :=
    List.all_eq_true.mpr fun c hc => hu.digit c (pad4_digits hc)
  have hne : (pad4 n).isEmpty = false := by
    rw [List.isEmpty_eq_false_iff]
    exact pad4_ne_nil n
  rw [rotatedOutBad, hsplit, List.reverse_append, hrev]
  show (decide ("bad".toList = "bad".toList) && decide ("out".toList = "out".toList) &&
    !(pad4 n).isEmpty && (pad4 n).all fun c => (u.digit? c).isSome) = true
  rw [hdigits, hne]
  rfl

omit hu in
theorem wordRest_iff {words : List String} {rest : List Char} : wordRest words rest = true ↔
    ∃ w ∈ words, rest = w.toList ∨ rest = w.toList ++ ['\n'] := by
  have hend : ∀ w : String, (w.toList.isPrefixOf rest && atEnd (rest.drop w.length)) = true ↔
      rest = w.toList ∨ rest = w.toList ++ ['\n'] := by
    intro w
    rw [Bool.and_eq_true, List.isPrefixOf_iff_prefix, atEnd, decide_eq_true_eq,
      ← String.length_toList]
    constructor
    · rintro ⟨⟨after, rfl⟩, hafter⟩
      rw [List.drop_left] at hafter
      rcases hafter with rfl | rfl
      · exact .inl (List.append_nil _)
      · exact .inr rfl
    · rintro (h | h)
      · rw [h]
        exact ⟨List.prefix_refl _, .inl List.drop_length⟩
      · rw [h, List.drop_left]
        exact ⟨List.prefix_append _ _, .inr rfl⟩
  rw [wordRest, List.any_eq_true]
  exact exists_congr fun w => and_congr_right fun _ => hend w

/-- No marked file is reported as a failed test once it has an index. -/
theorem rotatedOutBad_of_marked (base : List Char) (n : ℕ) {rest : List Char} (h : Marked u rest)
    (hbad : ".out.bad".toList <:+ (rotatedName base n rest).toList) :
    rotatedOutBad u (rotatedName base n rest) = true := by
  have hname : (rotatedName base n rest).toList = (base ++ '.' :: pad4 n) ++ '.' :: rest := by
    rw [rotatedName_toList, List.append_assoc, List.cons_append]
  have hrest : ('.' :: rest) <:+ (rotatedName base n rest).toList := hname ▸ List.suffix_append _ _
  rcases (Bool.or_eq_true _ _).mp h.1 with hword | hcore
  · obtain ⟨w, hw, rfl | rfl⟩ := wordRest_iff.mp hword
    · have hshort : ∀ w ∈ ["out.bad", "dmesg", "hints", "full", "fsxgood", "fsxlog"],
          ('.' :: w.toList).length ≤ ".out.bad".toList.length := by decide
      have hother : ∀ w ∈ ["out.bad", "dmesg", "hints", "full", "fsxgood", "fsxlog"],
          '.' :: w.toList <:+ ".out.bad".toList → w = "out.bad" := by decide
      rw [hother w hw (List.suffix_of_suffix_length_le hrest hbad (hshort w hw))]
      exact rotatedOutBad_rotated hu base n
    · have hnl : ['\n'] <:+ (rotatedName base n (w.toList ++ ['\n'])).toList :=
        ((List.suffix_append _ _).trans (List.suffix_cons _ _)).trans hrest
      have hnot : ¬ ['\n'] <:+ ".out.bad".toList := by decide
      exact absurd (List.suffix_of_suffix_length_le hnl hbad (by decide)) hnot
  · rw [coreRest, Bool.and_eq_true, Bool.and_eq_true, List.isPrefixOf_iff_prefix] at hcore
    have hc : ['.', 'c'] <:+: '.' :: rest := by
      obtain ⟨after, hafter⟩ := hcore.1.1
      exact ⟨[], "ore.".toList ++ after, by rw [← hafter]; rfl⟩
    have hnot : ¬ ['.', 'c'] <:+: ".out.bad".toList := by decide
    have hlong : ".out.bad".toList <:+ '.' :: rest := by
      rcases Nat.le_total ".out.bad".toList.length ('.' :: rest).length with hle | hle
      · exact List.suffix_of_suffix_length_le hbad hrest hle
      · exact absurd (hc.trans (List.suffix_of_suffix_length_le hrest hbad hle).isInfix) hnot
    rcases List.suffix_cons_iff.mp hlong with heq | hin
    · exact absurd (heq ▸ hc) hnot
    · have happ := rotatedOutBad_append (h.2 hin) (base ++ '.' :: pad4 n)
      rwa [← hname, String.ofList_toList] at happ

theorem outBad_rotated (dir : Path) (base : List Char) (n : ℕ) {rest : List Char}
    (h : Marked u rest) (files : List Path) : dir ++ [rotatedName base n rest] ∉ outBad u files := by
  intro hmem
  rw [outBad, List.mem_mergeSort, List.mem_filter] at hmem
  have hlisted := hmem.2
  simp only [List.getLastD_concat, Bool.and_eq_true, Bool.not_eq_true',
    List.isSuffixOf_iff_suffix] at hlisted
  rw [rotatedOutBad_of_marked hu base n h hlisted.1] at hlisted
  cases hlisted.2

end Decimal

end KdevopsNg.Fstests
