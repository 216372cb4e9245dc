/-
# `Scripts.ReflowSegments` — the regions of a file, found again in what is written

The scan of `process` cuts lines into segments (`parsed_segments`): a region is a key and the lines
inside it, up to the last that is not blank, and the line that follows is no deeper than the key.
What is written for a region again begins with a key at the same indent and stays inside it
(`Heads`), so the segments of the lines written are those of the segments one by one
(`segments_written`): a region ends where its own lines end, since what comes behind it is as deep
as it was before (`firstIndent`).  Blank lines that a rewritten region ends in are no longer a part
of it.
-/
import KdevopsNg.Scripts.Reflow

namespace KdevopsNg.Scripts.Reflow

open Py Text

section
variable {α : Type} (text : α → List Char)

theorem segmentsFrom_eq (n : ℕ) (ls : List α) :
    segmentsFrom text n ls = segments text (ls.drop n) := by
  induction n generalizing ls with
  | zero => rfl
  | succ n ih =>
      cases ls with
      | nil => rfl
      | cons l ls =>
          rw [segmentsFrom, ih]
          rfl

theorem segments_plain {l : α} (h : descRe (text l) = none) (ls : List α) :
    segments text (l :: ls) = .plain l :: segments text ls := by
  rw [segments, segmentsFrom, h]
  rfl

theorem segments_region {l : α} {k : ℕ} (h : descRe (text l) = some k) (ls : List α) :
    segments text (l :: ls) = .region k (l :: ls.take (blockRegion k (ls.map text))) ::
      segments text (ls.drop (blockRegion k (ls.map text))) := by
  rw [segments, segmentsFrom, h]
  exact congrArg (_ :: ·) (segmentsFrom_eq text _ ls)

/-- Induction along the scan: a line, or a key and the lines of its region. -/
theorem segments_induction {motive : List α → Prop} (nil : motive [])
    (plain : ∀ l ls, descRe (text l) = none → motive ls → motive (l :: ls))
    (region : ∀ l ls k, descRe (text l) = some k →
      motive (ls.drop (blockRegion k (ls.map text))) → motive (l :: ls)) (ls : List α) :
    motive ls := by
  induction hn : ls.length using Nat.strong_induction_on generalizing ls with
  | _ n ih =>
    cases ls with
    | nil => exact nil
    | cons l ls =>
        have hlt : ∀ m, (ls.drop m).length < n := fun m => by
          rw [← hn, List.length_drop, List.length_cons]
          omega
        cases h : descRe (text l) with
        | none => exact plain l ls h (ih _ (hlt 0) ls rfl)
        | some k => exact region l ls k h (ih _ (hlt _) _ rfl)

/-- The scan reads the texts of the lines only. -/
theorem segments_map (ls : List α) :
    (segments text ls).map (Segment.map text) = segments id (ls.map text) := by
  induction ls using segments_induction text with
  | nil => rfl
  | plain l ls h ih =>
      rw [segments_plain text h, List.map_cons, List.map_cons, segments_plain id h, ih]
      rfl
  | region l ls k h ih =>
      rw [segments_region text h, List.map_cons, List.map_cons, segments_region id h, ih,
        List.map_id, ← List.map_drop, ← List.map_take]
      rfl

/-- The scan loses no line. -/
theorem segments_lines (ls : List α) : (segments text ls).flatMap Segment.lines = ls := by
  induction ls using segments_induction text with
  | nil => rfl
  | plain l ls h ih =>
      rw [segments_plain text h, List.flatMap_cons, ih]
      rfl
  | region l ls k h ih =>
      rw [segments_region text h, List.flatMap_cons, ih]
      exact congrArg (l :: ·) (List.take_append_drop _ ls)

end

/-! ## The lines of a region -/

/-- A line that may stand in the region of a key. -/
def Inside (k : ℕ) (line : List Char) : Prop := blank line = true ∨ k < indentOf line

theorem Inside.deeper {k : ℕ} {line : List Char} (h : Inside k line) (hblank : blank line = false) :
    k < indentOf line := h.resolve_left (by rw [hblank]; exact Bool.false_ne_true)

theorem blockRegion_blank {k : ℕ} {l : List Char} (hl : blank l = true) (ls : List (List Char)) :
    blockRegion k (l :: ls) = if blockRegion k ls = 0 then 0 else blockRegion k ls + 1 := by
  rw [blockRegion, if_pos hl]

theorem blockRegion_deeper {k : ℕ} {l : List Char} (hblank : blank l = false)
    (hl : k < indentOf l) (ls : List (List Char)) :
    blockRegion k (l :: ls) = blockRegion k ls + 1 := by
  rw [blockRegion, hblank, if_neg Bool.false_ne_true, if_pos hl]

theorem blockRegion_stop {k : ℕ} {l : List Char} (hblank : blank l = false)
    (hl : ¬ k < indentOf l) (ls : List (List Char)) : blockRegion k (l :: ls) = 0 := by
  rw [blockRegion, hblank, if_neg Bool.false_ne_true, if_neg hl]

theorem blockRegion_le (k : ℕ) (ls : List (List Char)) : blockRegion k ls ≤ ls.length := by
  induction ls with
  | nil => exact Nat.le_refl 0
  | cons l ls ih =>
      rw [blockRegion, List.length_cons]
      split_ifs
      · exact Nat.zero_le _
      · exact Nat.succ_le_succ ih
      · exact Nat.succ_le_succ ih
      · exact Nat.zero_le _

/-- The lines counted are inside and counted again by themselves, and the rest counts none. -/
theorem blockRegion_parts (k : ℕ) (ls : List (List Char)) :
    (∀ l ∈ ls.take (blockRegion k ls), Inside k l) ∧
      blockRegion k (ls.take (blockRegion k ls)) = (ls.take (blockRegion k ls)).length ∧
      blockRegion k (ls.drop (blockRegion k ls)) = 0 := by
  induction ls with
  | nil => exact ⟨nofun, rfl, rfl⟩
  | cons l ls ih =>
      obtain ⟨hinside, hcount, hrest⟩ := ih
      cases hblank : blank l with
      | true =>
          by_cases hnone : blockRegion k ls = 0
          · have hzero : blockRegion k (l :: ls) = 0 := by
              rw [blockRegion_blank hblank, if_pos hnone]
            rw [hzero]
            exact ⟨nofun, rfl, hzero⟩
          · have hn : blockRegion k (l :: ls) = blockRegion k ls + 1 := by
              rw [blockRegion_blank hblank, if_neg hnone]
            rw [hn, List.take_succ_cons, List.drop_succ_cons]
            refine ⟨List.forall_mem_cons.mpr ⟨.inl hblank, hinside⟩, ?_, hrest⟩
            have hlen : blockRegion k (ls.take (blockRegion k ls)) ≠ 0 := by
              intro hzero
              rw [hcount, List.length_eq_zero_iff] at hzero
              rw [hzero] at hcount
              have hle : blockRegion k (ls.drop (blockRegion k ls)) = blockRegion k ls := by
                conv_rhs => rw [← List.take_append_drop (blockRegion k ls) ls, hzero]
                rfl
              exact hnone (hle ▸ hrest)
            rw [blockRegion_blank hblank, if_neg hlen, hcount, List.length_cons]
      | false =>
          by_cases hdeep : k < indentOf l
          · rw [blockRegion_deeper hblank hdeep, List.take_succ_cons, List.drop_succ_cons]
            refine ⟨List.forall_mem_cons.mpr ⟨.inr hdeep, hinside⟩, ?_, hrest⟩
            rw [blockRegion_deeper hblank hdeep, hcount, List.length_cons]
          · have hzero := blockRegion_stop hblank hdeep ls
            rw [hzero]
            exact ⟨nofun, rfl, hzero⟩

/-- Lines inside a region, in front of lines that it stops before. -/
theorem blockRegion_append {k : ℕ} {ls rest : List (List Char)} (hin : ∀ l ∈ ls, Inside k l)
    (hrest : blockRegion k rest = 0) : blockRegion k (ls ++ rest) = blockRegion k ls := by
  induction ls with
  | nil => exact hrest
  | cons l ls ih =>
      have ih' := ih fun x hx => hin x (List.mem_cons_of_mem l hx)
      rw [List.cons_append]
      cases hblank : blank l with
      | true => rw [blockRegion_blank hblank, blockRegion_blank hblank, ih']
      | false =>
          have hdeep := (hin l List.mem_cons_self).deeper hblank
          rw [blockRegion_deeper hblank hdeep, blockRegion_deeper hblank hdeep, ih']

/-- Of lines inside a region none counts only when all are blank. -/
theorem blank_of_blockRegion {k : ℕ} {ls : List (List Char)} (hin : ∀ l ∈ ls, Inside k l)
    (hzero : blockRegion k ls = 0) : ∀ l ∈ ls, blank l = true := by
  induction ls with
  | nil => exact nofun
  | cons l ls ih =>
      cases hblank : blank l with
      | true =>
          refine List.forall_mem_cons.mpr ⟨hblank, ih (fun x hx => hin x (List.mem_cons_of_mem l hx)) ?_⟩
          rw [blockRegion_blank hblank] at hzero
          by_contra hne
          rw [if_neg hne] at hzero
          cases hzero
      | false =>
          have hdeep := (hin l List.mem_cons_self).deeper hblank
          rw [blockRegion_deeper hblank hdeep] at hzero
          cases hzero

/-- Lines inside a region that do not end blank are all counted. -/
theorem blockRegion_full {k : ℕ} {ls : List (List Char)} (hin : ∀ l ∈ ls, Inside k l)
    (hlast : ∀ l ∈ ls.getLast?, blank l = false) : blockRegion k ls = ls.length := by
  induction ls with
  | nil => rfl
  | cons l ls ih =>
      have hin' : ∀ x ∈ ls, Inside k x := fun x hx => hin x (List.mem_cons_of_mem l hx)
      cases ls with
      | nil =>
          have hblank := hlast l rfl
          have hdeep := (hin l List.mem_cons_self).deeper hblank
          exact blockRegion_deeper hblank hdeep []
      | cons l' ls =>
          rw [List.getLast?_cons_cons] at hlast
          have ih' := ih hin' hlast
          cases hblank : blank l with
          | true =>
              have hne : blockRegion k (l' :: ls) ≠ 0 := ih' ▸ Nat.succ_ne_zero ls.length
              rw [blockRegion_blank hblank, if_neg hne, ih', List.length_cons (a := l)]
          | false =>
              have hdeep := (hin l List.mem_cons_self).deeper hblank
              rw [blockRegion_deeper hblank hdeep, ih', List.length_cons (a := l)]

/-- The indent of the first line that is not blank. -/
def firstIndent (ls : List (List Char)) : Option ℕ :=
  (ls.find? fun l => !blank l).map indentOf

theorem firstIndent_blank {l : List Char} (hl : blank l = true) (ls : List (List Char)) :
    firstIndent (l :: ls) = firstIndent ls := by
  rw [firstIndent, List.find?_cons_of_neg (by simp [hl]), firstIndent]

theorem firstIndent_line {l : List Char} (hl : blank l = false) (ls : List (List Char)) :
    firstIndent (l :: ls) = some (indentOf l) := by
  rw [firstIndent, List.find?_cons_of_pos (by simp [hl]), Option.map_some]

/-- A region stops before lines the first of which is no deeper than the key. -/
theorem blockRegion_eq_zero_iff (k : ℕ) (ls : List (List Char)) :
    blockRegion k ls = 0 ↔ ∀ i ∈ firstIndent ls, i ≤ k := by
  induction ls with
  | nil => exact ⟨fun _ => nofun, fun _ => rfl⟩
  | cons l ls ih =>
      cases hblank : blank l with
      | true =>
          rw [firstIndent_blank hblank, ← ih, blockRegion_blank hblank]
          constructor
          · intro h
            by_contra hne
            rw [if_neg hne] at h
            cases h
          · intro h
            rw [if_pos h]
      | false =>
          rw [firstIndent_line hblank]
          by_cases hdeep : k < indentOf l
          · rw [blockRegion_deeper hblank hdeep]
            exact ⟨nofun, fun h => absurd (h _ rfl) (Nat.not_le.mpr hdeep)⟩
          · rw [blockRegion_stop hblank hdeep]
            exact ⟨fun _ i hi => Option.some.inj hi ▸ Nat.not_lt.mp hdeep, fun _ => rfl⟩

/-! ## Segments of what is written -/

/-- The lines of a region: a key at the indent, and lines inside. -/
def Heads (k : ℕ) (ls : List (List Char)) : Prop :=
  ∃ first tail, ls = first :: tail ∧ descRe first = some k ∧ ∀ l ∈ tail, Inside k l

/-- Segments as the scan leaves them. -/
def Parsed : List (Segment (List Char)) → Prop
  | [] => True
  | .plain l :: ss => descRe l = none ∧ Parsed ss
  | .region k ls :: ss => Heads k ls ∧ blockRegion k ls.tail = ls.tail.length ∧
      blockRegion k (ss.flatMap Segment.lines) = 0 ∧ Parsed ss

theorem parsed_segments (ls : List (List Char)) : Parsed (segments id ls) := by
  induction ls using segments_induction id with
  | nil => exact trivial
  | plain l ls h ih =>
      rw [segments_plain id h]
      exact ⟨h, ih⟩
  | region l ls k h ih =>
      obtain ⟨hinside, hcount, hrest⟩ := blockRegion_parts k ls
      rw [List.map_id] at ih
      rw [segments_region id h, List.map_id]
      refine ⟨⟨l, _, rfl, h, hinside⟩, hcount, ?_, ih⟩
      rwa [segments_lines]

theorem Parsed.region {ss : List (Segment (List Char))} (h : Parsed ss) {k : ℕ}
    {ls : List (List Char)} (hs : .region k ls ∈ ss) :
    Heads k ls ∧ blockRegion k ls.tail = ls.tail.length := by
  induction ss with
  | nil => exact absurd hs List.not_mem_nil
  | cons t ss ih =>
      cases t with
      | plain l => exact ih h.2 ((List.mem_cons.mp hs).resolve_left nofun)
      | region k' ls' =>
          rcases List.mem_cons.mp hs with heq | hs
          · cases heq
            exact ⟨h.1, h.2.1⟩
          · exact ih h.2.2.2 hs

theorem descRe_indent {l : List Char} {k : ℕ} (h : descRe l = some k) :
    blank l = false ∧ indentOf l = k := by
  rw [descRe] at h
  split_ifs at h with hkey
  refine ⟨?_, Option.some.inj h⟩
  have hmem : 'd' ∈ l.dropWhile (· = ' ') := by
    rcases hkey with hkey | hkey
    · rw [hkey]
      decide
    · exact (List.isPrefixOf_iff_prefix.mp hkey).subset (by decide)
  exact List.all_eq_false.mpr ⟨'d', (List.dropWhile_suffix _).subset hmem, by decide⟩

/-- A blank line begins no region. -/
theorem descRe_blank {l : List Char} (h : blank l = true) : descRe l = none := by
  cases hkey : descRe l with
  | none => rfl
  | some k =>
      rw [(descRe_indent hkey).1] at h
      cases h

/-- Blank lines are passed on one by one. -/
theorem segments_blank {bs : List (List Char)} (h : ∀ b ∈ bs, blank b = true)
    (ls : List (List Char)) :
    segments id (bs ++ ls) = bs.map Segment.plain ++ segments id ls := by
  induction bs with
  | nil => rfl
  | cons b bs ih =>
      rw [List.cons_append, segments_plain id (descRe_blank (h b List.mem_cons_self)),
        ih fun x hx => h x (List.mem_cons_of_mem b hx)]
      rfl

/-- What lines written for a segment are cut into. -/
def reread : Segment (List Char) → List (List Char) → List (Segment (List Char))
  | .plain l, _ => [.plain l]
  | .region _ _, [] => []
  | .region k _, first :: tail =>
      .region k (first :: tail.take (blockRegion k tail)) ::
        (tail.drop (blockRegion k tail)).map .plain

/-- A region that is kept is found again. -/
theorem reread_self {k : ℕ} {ls : List (List Char)} (h : Heads k ls)
    (hfull : blockRegion k ls.tail = ls.tail.length) :
    reread (.region k ls) ls = [.region k ls] := by
  obtain ⟨first, tail, rfl, -, -⟩ := h
  rw [List.tail_cons] at hfull
  rw [reread, hfull, List.take_length, List.drop_length]
  rfl

/-- The segments of what is written, where a key is kept with its indent. -/
theorem segments_written {g : Segment (List Char) → List (List Char)}
    (hplain : ∀ l, g (.plain l) = [l]) {ss : List (Segment (List Char))}
    (hregion : ∀ k ls, .region k ls ∈ ss → Heads k (g (.region k ls))) (h : Parsed ss) :
    segments id (ss.flatMap g) = ss.flatMap (fun s => reread s (g s)) ∧
      firstIndent (ss.flatMap g) = firstIndent (ss.flatMap Segment.lines) := by
  induction ss with
  | nil => exact ⟨rfl, rfl⟩
  | cons s ss ih =>
      have hregion' : ∀ k ls, .region k ls ∈ ss → Heads k (g (.region k ls)) :=
        fun k ls hs => hregion k ls (List.mem_cons_of_mem s hs)
      rw [List.flatMap_cons, List.flatMap_cons, List.flatMap_cons]
      cases s with
      | plain l =>
          obtain ⟨hsegs, hindent⟩ := ih hregion' h.2
          rw [hplain, List.singleton_append, segments_plain id h.1, hsegs]
          refine ⟨rfl, ?_⟩
          show _ = firstIndent (l :: ss.flatMap Segment.lines)
          cases hblank : blank l with
          | true => rw [firstIndent_blank hblank, firstIndent_blank hblank, hindent]
          | false => rw [firstIndent_line hblank, firstIndent_line hblank]
      | region k ls =>
          obtain ⟨⟨first, tail, rfl, hfirst, -⟩, -, hstop, hparsed⟩ := h
          obtain ⟨hsegs, hindent⟩ := ih hregion' hparsed
          obtain ⟨first', tail', hg, hfirst', hinside⟩ :=
            hregion k (first :: tail) List.mem_cons_self
          -- what is behind the region is as deep as it was
          have hrest : blockRegion k (ss.flatMap g) = 0 := by
            rw [blockRegion_eq_zero_iff, hindent, ← blockRegion_eq_zero_iff]
            exact hstop
          have hcount := blockRegion_append hinside hrest
          obtain ⟨-, -, hzero⟩ := blockRegion_parts k tail'
          have hle := blockRegion_le k tail'
          have hblank := blank_of_blockRegion
            (fun l hl => hinside l (List.mem_of_mem_drop hl)) hzero
          rw [hg, List.cons_append, segments_region id hfirst', List.map_id, hcount,
            List.take_append_of_le_length hle, List.drop_append_of_le_length hle,
            segments_blank hblank, hsegs, reread, List.cons_append]
          refine ⟨rfl, ?_⟩
          show _ = firstIndent (first :: (tail ++ ss.flatMap Segment.lines))
          rw [firstIndent_line (descRe_indent hfirst').1, firstIndent_line (descRe_indent hfirst).1,
            (descRe_indent hfirst').2, (descRe_indent hfirst).2]

/-! ## A rewritten region -/

theorem descRe_header (k : ℕ) : descRe (header k) = some k := by
  have hrest : (header k).dropWhile (· = ' ') = key ++ " |-".toList := by
    rw [header, spaces, List.append_assoc, List.dropWhile_append_of_pos fun c hc => by
      rw [List.eq_of_mem_replicate hc]
      rfl]
    decide
  have hindent : indentOf (header k) = k := by
    rw [indentOf, header, spaces, List.append_assoc, List.takeWhile_append_of_pos fun c hc => by
      rw [List.eq_of_mem_replicate hc]
      rfl]
    have hkey : (key ++ " |-".toList).takeWhile (· = ' ') = [] := by decide
    rw [hkey, List.append_nil, List.length_replicate]
  rw [descRe, hrest, if_pos (.inr (by decide)), hindent]

/-- A line of the content is blank when it is empty, else as deep as the content. -/
theorem inside_deeper {value : List Char} {k : ℕ} {l : List Char} (h : l ∈ content value k) :
    Inside k (deeper k l) := by
  by_cases hl : l = []
  · rw [hl]
    exact .inl rfl
  · right
    rw [(deeper_ne_nil h hl).1, indentOf, spaces, List.takeWhile_append_of_pos fun c hc => by
      rw [List.eq_of_mem_replicate hc]
      rfl, List.length_append, List.length_replicate]
    omega

theorem heads_literalBlock (value : List Char) (k : ℕ) : Heads k (literalBlock value k) := by
  refine ⟨header k, _, literalBlock_eq value k, descRe_header k, fun l hl => ?_⟩
  obtain ⟨l', hl', rfl⟩ := List.mem_map.mp hl
  exact inside_deeper hl'

/-- Of a rewritten region the empty lines at the end are passed on. -/
theorem reread_literalBlock (value : List Char) (k : ℕ) (ls : List (List Char)) :
    ∃ bs : List (List Char), reread (.region k ls) (literalBlock value k) =
      .region k (header k :: (trimmed value k).map (deeper k)) :: bs.map .plain := by
  have hsplit : (content value k).map (deeper k) = (trimmed value k).map (deeper k) ++
      ((content value k).rtakeWhile (· = [])).map (deeper k) := by
    rw [← List.map_append, trimmed, List.rdropWhile_append_rtakeWhile]
  have hin : ∀ l ∈ (trimmed value k).map (deeper k), Inside k l := by
    intro l hl
    obtain ⟨l', hl', rfl⟩ := List.mem_map.mp hl
    exact inside_deeper (trimmed_subset value k hl')
  have hlast : ∀ l ∈ ((trimmed value k).map (deeper k)).getLast?, blank l = false := by
    intro l hl
    rw [List.getLast?_map] at hl
    obtain ⟨l', hl', rfl⟩ := Option.map_eq_some_iff.mp hl
    exact (deeper_ne_nil (trimmed_subset value k (List.mem_of_getLast? hl'))
      (trimmed_last hl')).2
  have hback : blockRegion k (((content value k).rtakeWhile (· = [])).map (deeper k)) = 0 := by
    rw [blockRegion_eq_zero_iff, firstIndent, List.find?_eq_none.mpr]
    · intro i hi
      cases hi
    · intro l hl
      obtain ⟨l', hl', rfl⟩ := List.mem_map.mp hl
      have hempty : l' = [] := by simpa using List.mem_rtakeWhile_imp hl'
      rw [hempty, deeper, if_pos rfl]
      decide
  have hcount := (blockRegion_append hin hback).trans (blockRegion_full hin hlast)
  refine ⟨((content value k).rtakeWhile (· = [])).map (deeper k), ?_⟩
  rw [literalBlock_eq, hsplit, reread, hcount, List.take_left, List.drop_left]

end KdevopsNg.Scripts.Reflow
