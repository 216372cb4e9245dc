/-
# `Scripts.ReflowSettles` — when the write pass leaves nothing to report

A file settles (`Settled`) when the write pass returns, the check after it reports nothing and a
second write changes nothing, while each description keeps its paragraphs and what lies outside the
regions is kept to the byte.  It does exactly when (`settles_iff`)

    every region is read by itself as a text, and
    of those with a line to report        the value has a line break or does not fit its line,
                                          the header fits (an indent of 65 at most), and
                                          every character but white space is printable
    no line outside ends in a return      when there is a region with a line to report

The first of the three is where the passes part: quotes, escapes and a comment count for the check
and not for the write, so a quoted line of 81 columns is reported for ever
(`quoted_never_settles`).  The last is of the file and not of the text: `read_text` turns each end
of line into a newline, and all of them are written so.
-/
import KdevopsNg.Scripts.ReflowSegments

namespace KdevopsNg.Scripts.Reflow

open Py Text
open Common (universalNewlines universalNewlines_of_not_mem not_mem_universalNewlines)

/-! ## Bytes outside the regions -/

/-- The lines of a file with their ends. -/
def rawLines : List Char → List (List Char)
  | [] => [[]]
  | '\r' :: '\n' :: s => ['\r', '\n'] :: rawLines s
  | c :: s =>
      if c = '\r' ∨ c = '\n' then [c] :: rawLines s
      else (rawLines s).modifyHead (c :: ·)

/-- A line without its end. -/
def body (line : List Char) : List Char := line.filter fun c => decide (c ≠ '\r' ∧ c ≠ '\n')

/-- A text that is a file with a text of its own in place of each region. -/
def KeepsOutside : List (Segment (List Char)) → List Char → Prop
  | [], s => s = []
  | .plain line :: rest, s => ∃ t, s = line ++ t ∧ KeepsOutside rest t
  | .region _ _ :: rest, s => ∃ new t, s = new ++ t ∧ KeepsOutside rest t

theorem rawLines_ne_nil (s : List Char) : rawLines s ≠ [] := by
  induction s using rawLines.induct with
  | case1 => exact List.cons_ne_nil _ _
  | case2 s ih => exact List.cons_ne_nil _ _
  | case3 c s hcrlf hc ih =>
      rw [rawLines, if_pos hc]
      · exact List.cons_ne_nil _ _
      · exact hcrlf
  | case4 c s hcrlf hc ih =>
      rw [rawLines, if_neg hc]
      · exact mt List.modifyHead_eq_nil_iff.mp ih
      · exact hcrlf

theorem rawLines_flatten (s : List Char) : (rawLines s).flatten = s := by
  induction s using rawLines.induct with
  | case1 => rfl
  | case2 s ih => rw [rawLines, List.flatten_cons, ih]; rfl
  | case3 c s hcrlf hc ih =>
      rw [rawLines, if_pos hc]
      · rw [List.flatten_cons, ih]
        rfl
      · exact hcrlf
  | case4 c s hcrlf hc ih =>
      rw [rawLines, if_neg hc]
      · obtain ⟨l, ls, hl⟩ := List.exists_cons_of_ne_nil (rawLines_ne_nil s)
        rw [hl] at ih ⊢
        exact congrArg (c :: ·) ih
      · exact hcrlf

theorem body_cons {c : Char} (hc : ¬ (c = '\r' ∨ c = '\n')) (l : List Char) :
    body (c :: l) = c :: body l :=
  List.filter_cons_of_pos (decide_eq_true (not_or.mp hc))

/-- The lines of what is read are those of the file without their ends. -/
theorem split_universalNewlines (s : List Char) :
    split '\n' (universalNewlines s) = (rawLines s).map body := by
  induction s using rawLines.induct with
  | case1 => rfl
  | case2 s ih =>
      rw [rawLines, universalNewlines, split, if_pos rfl, ih]
      rfl
  | case3 c s hcrlf hc ih =>
      rw [rawLines, if_pos hc, universalNewlines]
      · have hnl : (if c = '\r' then '\n' else c) = '\n' := by
          rcases hc with rfl | rfl
          · rfl
          · rfl
        have hbody : body [c] = [] := by
          rcases hc with rfl | rfl
          · rfl
          · rfl
        rw [hnl, split, if_pos rfl, ih, List.map_cons, hbody]
      · exact hcrlf
      · exact hcrlf
  | case4 c s hcrlf hc ih =>
      obtain ⟨hreturn, hnl⟩ := not_or.mp hc
      rw [rawLines, if_neg hc, universalNewlines]
      · obtain ⟨l, ls, hl⟩ := List.exists_cons_of_ne_nil (rawLines_ne_nil s)
        rw [if_neg hreturn, split, if_neg hnl, ih, hl, List.map_cons, List.modifyHead_cons,
          List.map_cons, body_cons hc]
      · exact hcrlf
      · exact hcrlf

/-- Lines that end in a newline unless in a return, but for the last. -/
def Ended : List (List Char) → Prop
  | [] => True
  | l :: ls => ('\r' ∉ l → l = body l ++ if ls = [] then [] else ['\n']) ∧ Ended ls

theorem ended_rawLines (s : List Char) : Ended (rawLines s) := by
  induction s using rawLines.induct with
  | case1 => exact ⟨fun _ => rfl, trivial⟩
  | case2 s ih =>
      rw [rawLines]
      exact ⟨fun h => absurd List.mem_cons_self h, ih⟩
  | case3 c s hcrlf hc ih =>
      rw [rawLines, if_pos hc]
      · refine ⟨fun h => ?_, ih⟩
        have hnl : c = '\n' := hc.resolve_left fun heq => h (heq ▸ List.mem_cons_self)
        rw [if_neg (rawLines_ne_nil s), hnl]
        rfl
      · exact hcrlf
  | case4 c s hcrlf hc ih =>
      rw [rawLines, if_neg hc]
      · obtain ⟨l, ls, hl⟩ := List.exists_cons_of_ne_nil (rawLines_ne_nil s)
        rw [hl] at ih ⊢
        obtain ⟨hline, hrest⟩ := ih
        refine ⟨fun h => ?_, hrest⟩
        rw [body_cons hc, List.cons_append]
        exact congrArg (c :: ·) (hline fun hmem => h (List.mem_cons_of_mem c hmem))
      · exact hcrlf

theorem Ended.behind {ls rest : List (List Char)} (h : Ended (ls ++ rest)) : Ended rest := by
  induction ls with
  | nil => exact h
  | cons l ls ih => exact ih h.2

theorem keepsOutside_self (ss : List (Segment (List Char))) :
    KeepsOutside ss (ss.flatMap Segment.lines).flatten := by
  induction ss with
  | nil => rfl
  | cons s ss ih =>
      rw [List.flatMap_cons, List.flatten_append]
      cases s with
      | plain l =>
          refine ⟨_, ?_, ih⟩
          show [l].flatten ++ _ = _
          rw [List.flatten_singleton]
      | region k ls => exact ⟨_, _, rfl, ih⟩

/-- A line outside the regions stands in what keeps them. -/
theorem KeepsOutside.within {ss : List (Segment (List Char))} {s : List Char}
    (h : KeepsOutside ss s) {l : List Char} (hl : .plain l ∈ ss) : l <:+: s := by
  induction ss generalizing s with
  | nil => exact absurd hl List.not_mem_nil
  | cons t ss ih =>
      cases t with
      | plain l' =>
          obtain ⟨rest, rfl, hrest⟩ := h
          rcases List.mem_cons.mp hl with heq | hl
          · obtain rfl : l = l' := Segment.plain.inj heq
            exact (List.prefix_append l rest).isInfix
          · exact (ih hrest hl).trans (List.suffix_append l' rest).isInfix
      | region k ls =>
          obtain ⟨new, rest, rfl, hrest⟩ := h
          rcases List.mem_cons.mp hl with heq | hl
          · cases heq
          · exact (ih hrest hl).trans (List.suffix_append new rest).isInfix

/-- Lines written for the regions and joined by newlines keep the rest, where it ends in them. -/
theorem keepsOutside_join {g : Segment (List Char) → List (List Char)}
    (hplain : ∀ l, g (.plain l) = [body l]) {ss : List (Segment (List Char))}
    (hg : ∀ s ∈ ss, s.lines ≠ [] ∧ g s ≠ []) (hended : Ended (ss.flatMap Segment.lines))
    (hreturn : ∀ l, .plain l ∈ ss → '\r' ∉ l) :
    KeepsOutside ss (['\n'].intercalate (ss.flatMap g)) := by
  induction ss with
  | nil => rfl
  | cons s ss ih =>
      rw [List.flatMap_cons] at hended
      have hg' : ∀ t ∈ ss, t.lines ≠ [] ∧ g t ≠ [] := fun t ht => hg t (List.mem_cons_of_mem s ht)
      have ih' := ih hg' hended.behind fun l hl => hreturn l (List.mem_cons_of_mem s hl)
      -- a newline follows the segment unless it is the last
      have hjoin : ['\n'].intercalate ((s :: ss).flatMap g) = ['\n'].intercalate (g s) ++
          ((if ss = [] then [] else ['\n']) ++ ['\n'].intercalate (ss.flatMap g)) := by
        cases ss with
        | nil => rw [List.flatMap_singleton, List.flatMap_nil, if_pos rfl]; simp
        | cons t ts =>
            rw [List.flatMap_cons, if_neg (List.cons_ne_nil t ts)]
            refine join_append (hg s List.mem_cons_self).2 fun hnil => ?_
            rw [List.flatMap_cons] at hnil
            exact (hg' t List.mem_cons_self).2 (List.append_eq_nil_iff.mp hnil).1
      rw [hjoin]
      cases s with
      | plain l =>
          have hl : l = body l ++ if ss.flatMap Segment.lines = [] then [] else ['\n'] :=
            hended.1 (hreturn l List.mem_cons_self)
          refine ⟨_, ?_, ih'⟩
          rw [hplain, List.intercalate_singleton, ← List.append_assoc]
          refine congrArg (· ++ _) ?_
          cases ss with
          | nil => exact hl.symm
          | cons t ts =>
              have hne : (t :: ts).flatMap Segment.lines ≠ [] := fun hnil => by
                rw [List.flatMap_cons] at hnil
                exact (hg' t List.mem_cons_self).1 (List.append_eq_nil_iff.mp hnil).1
              rw [if_neg hne] at hl
              rw [if_neg (List.cons_ne_nil t ts)]
              exact hl.symm
      | region k ls => exact ⟨_, _, (List.append_assoc _ _ _).symm, ih'⟩

/-! ## The statement -/

/-- What a description says: the words of its paragraphs, when it is read as a text. -/
def said (y : Yaml) : Segment (List Char) → Option (Option (List (List (List Char))))
  | .plain _ => none
  | .region k ls =>
      match valueOf y k ls with
      | .ok (.str value) => some (some (paragraphs value))
      | _ => some none

/-- What the descriptions of a file say, in order. -/
def descriptions (y : Yaml) (file : List Char) : List (Option (List (List (List Char)))) :=
  (fileSegments file).filterMap (said y)

/-- A write pass that settles the file. -/
structure Settled (y : Yaml) (file : List Char) (o : Outcome) : Prop where
  first : process y file true = .ok o
  clean : process y o.file false = .ok ⟨o.file, false, []⟩
  again : process y o.file true = .ok ⟨o.file, false, []⟩
  descriptions : descriptions y o.file = descriptions y file
  outside : KeepsOutside (segments body (rawLines file)) o.file

/-- A segment with a line that the check reports. -/
def overflows : Segment (List Char) → Bool
  | .plain _ => false
  | .region _ ls => ls.any overlong

/-- A region that is read as a text, and one that the write makes fit when it has to. -/
def agrees (y : Yaml) : Segment (List Char) → Bool
  | .plain _ => true
  | .region k ls =>
      match valueOf y k ls with
      | .ok (.str value) => !ls.any overlong || (needsBlock value k && decide (k + 15 ≤ limit) &&
          value.all fun c => isSpace c || y.printable c)
      | _ => false

/-! ## The passes, segment by segment -/

theorem overlongLines_eq_nil_iff (start : ℕ) (ls : List (List Char)) :
    overlongLines start ls = [] ↔ ls.any overlong = false := by
  induction ls generalizing start with
  | nil => exact ⟨fun _ => rfl, fun _ => rfl⟩
  | cons l ls ih =>
      rw [overlongLines, List.zipIdx_cons, List.filterMap_cons, List.any_cons]
      cases hl : overlong l with
      | true => exact ⟨nofun, nofun⟩
      | false => exact ih (start + 1)

theorem problemsFrom_eq_nil_iff (i : ℕ) (ss : List (Segment (List Char))) :
    problemsFrom i ss = [] ↔ ∀ s ∈ ss, overflows s = false := by
  induction ss generalizing i with
  | nil => exact ⟨fun _ => nofun, fun _ => rfl⟩
  | cons s ss ih =>
      cases s with
      | plain l =>
          rw [problemsFrom, ih, List.forall_mem_cons]
          exact (and_iff_right rfl).symm
      | region k ls =>
          rw [problemsFrom, List.append_eq_nil_iff, overlongLines_eq_nil_iff, ih,
            List.forall_mem_cons]
          exact Iff.rfl

/-- What the write pass leaves of a segment. -/
def written (y : Yaml) (s : Segment (List Char)) : List (List Char) :=
  match rewrite y s with
  | .ok ls => ls
  | .error _ => s.lines

theorem rewrite_ok {y : Yaml} {s : Segment (List Char)} {ls : List (List Char)}
    (h : rewrite y s = .ok ls) : rewrite y s = .ok (written y s) := by rw [written, h]

/-- A region that is written was read as a text. -/
theorem rewrite_region {y : Yaml} {k : ℕ} {ls new : List (List Char)}
    (h : rewrite y (.region k ls) = .ok new) : ∃ value, valueOf y k ls = .ok (.str value) ∧
      new = if needsBlock value k = true ∧ ls.any overlong = true then literalBlock value k else ls := by
  rw [rewrite] at h
  match hvalue : valueOf y k ls with
  | .error e =>
      rw [hvalue] at h
      cases h
  | .ok .other =>
      rw [hvalue] at h
      cases h
  | .ok (.str value) =>
      rw [hvalue] at h
      refine ⟨value, rfl, ?_⟩
      rw [← Except.ok.inj h]
      have hlong : overlongLines 0 ls ≠ [] ↔ ls.any overlong = true := by
        rw [Ne, overlongLines_eq_nil_iff, Bool.not_eq_false]
      simp only [hlong]

theorem rewrite_value {y : Yaml} {k : ℕ} {ls : List (List Char)} {value : List Char}
    (h : valueOf y k ls = .ok (.str value)) : ∃ new, rewrite y (.region k ls) = .ok new := by
  rw [rewrite, h]
  exact ⟨_, rfl⟩

section
variable {y : Yaml} {file : List Char}

/-- The write pass returns when each region is read as a text. -/
theorem process_write (h : ∀ s ∈ fileSegments file, ∃ ls, rewrite y s = .ok ls) :
    process y file true = .ok (if (fileSegments file).map (written y) =
        (fileSegments file).map Segment.lines then ⟨file, false, []⟩
      else ⟨['\n'].intercalate ((fileSegments file).flatMap (written y)), true, []⟩) := by
  have hout : ∀ ss : List (Segment (List Char)), (∀ s ∈ ss, ∃ ls, rewrite y s = .ok ls) →
      ss.mapM (rewrite y) = .ok (ss.map (written y)) := by
    intro ss
    induction ss with
    | nil => exact fun _ => rfl
    | cons s ss ih =>
        intro hss
        obtain ⟨ls, hs⟩ := hss s List.mem_cons_self
        rw [List.mapM_cons, rewrite_ok hs, ih fun t ht => hss t (List.mem_cons_of_mem s ht)]
        rfl
  rw [process, if_pos rfl, hout _ h, List.flatMap]
  rfl

theorem of_process_write {o : Outcome} (h : process y file true = .ok o) :
    ∀ s ∈ fileSegments file, ∃ ls, rewrite y s = .ok ls := by
  rw [process, if_pos rfl] at h
  obtain ⟨out, hout, -⟩ := except_map_ok.mp h
  intro s hs
  obtain ⟨ls, -, hls⟩ := except_mapM_of_mem hout hs
  exact ⟨ls, hls⟩

/-! ## The file after the write pass -/

theorem parsed_file (file : List Char) : Parsed (fileSegments file) := parsed_segments _

theorem file_lines (file : List Char) :
    (fileSegments file).flatMap Segment.lines = split '\n' (universalNewlines file) :=
  segments_lines id _

theorem written_plain (l : List Char) : written y (.plain l) = [l] := rfl

/-- What is written for a region: its lines, or a literal block when one of them is too long. -/
theorem written_region {k : ℕ} {ls : List (List Char)}
    (h : ∃ new, rewrite y (.region k ls) = .ok new) :
    ∃ value, valueOf y k ls = .ok (.str value) ∧ written y (.region k ls) =
      if needsBlock value k = true ∧ ls.any overlong = true then literalBlock value k else ls := by
  obtain ⟨new, hnew⟩ := h
  exact rewrite_region (rewrite_ok hnew)

/-- A region without a line that is too long is passed on. -/
theorem written_fits {s : Segment (List Char)} (h : ∃ new, rewrite y s = .ok new)
    (hfits : overflows s = false) : written y s = s.lines := by
  cases s with
  | plain l => rfl
  | region k ls =>
      obtain ⟨value, -, hwritten⟩ := written_region h
      rw [hwritten, if_neg fun hlong => ?_]
      · rfl
      · rw [overflows, hlong.2] at hfits
        cases hfits

theorem heads_written {k : ℕ} {ls : List (List Char)} (hheads : Heads k ls)
    (h : ∃ new, rewrite y (.region k ls) = .ok new) : Heads k (written y (.region k ls)) := by
  obtain ⟨value, -, hwritten⟩ := written_region h
  rw [hwritten]
  split_ifs
  · exact heads_literalBlock value k
  · exact hheads

/-- No line that is written holds an end of line. -/
theorem body_written {s : Segment (List Char)} (h : ∃ new, rewrite y s = .ok new)
    (hlines : ∀ l ∈ s.lines, '\r' ∉ l ∧ '\n' ∉ l) : ∀ l ∈ written y s, '\r' ∉ l ∧ '\n' ∉ l := by
  cases s with
  | plain l => exact hlines
  | region k ls =>
      obtain ⟨value, -, hwritten⟩ := written_region h
      rw [hwritten]
      split_ifs
      · have hline : ∀ l ∈ literalBlock value k, ∀ c ∈ l, c = ' ' ∨ isSpace c = false := by
          rw [literalBlock_eq]
          refine List.forall_mem_cons.mpr ⟨fun c hc => ?_, fun l hl => ?_⟩
          · rw [header, List.append_assoc] at hc
            rcases List.mem_append.mp hc with hc | hc
            · exact .inl (List.eq_of_mem_replicate hc)
            · have hkey : ∀ c ∈ key ++ " |-".toList, c = ' ' ∨ isSpace c = false := by decide
              exact hkey c hc
          · obtain ⟨l', hl', rfl⟩ := List.mem_map.mp hl
            intro c hc
            rcases content_line hl' with rfl | ⟨g, rfl, ⟨hne, -⟩, hwords⟩
            · exact absurd hc List.not_mem_nil
            · rw [deeper, if_neg (join_ne_nil hne fun w hw => (hwords w hw).1.1)] at hc
              rcases List.mem_append.mp hc with hc | hc
              · exact .inl (List.eq_of_mem_replicate hc)
              · rcases of_mem_join hc with rfl | ⟨w, hw, hcw⟩
                · exact .inl rfl
                · exact .inr ((hwords w hw).1.2 c hcw)
        intro l hl
        refine ⟨fun hc => ?_, fun hc => ?_⟩
        · exact absurd (hline l hl _ hc) (by decide)
        · exact absurd (hline l hl _ hc) (by decide)
      · exact hlines

theorem body_file {s : Segment (List Char)} (hs : s ∈ fileSegments file) :
    ∀ l ∈ s.lines, '\r' ∉ l ∧ '\n' ∉ l := by
  intro l hl
  have hmem : l ∈ split '\n' (universalNewlines file) :=
    file_lines file ▸ List.mem_flatMap.mpr ⟨s, hs, hl⟩
  exact ⟨fun hc => not_mem_universalNewlines file (subset_of_mem_split hmem hc),
    not_mem_of_mem_split hmem⟩

theorem lines_ne_nil {s : Segment (List Char)} (hs : s ∈ fileSegments file)
    (h : ∃ new, rewrite y s = .ok new) : s.lines ≠ [] ∧ written y s ≠ [] := by
  cases s with
  | plain l => exact ⟨List.cons_ne_nil l [], List.cons_ne_nil l []⟩
  | region k ls =>
      have hheads := ((parsed_file file).region hs).1
      obtain ⟨first', tail', hwritten, -, -⟩ := heads_written hheads h
      obtain ⟨first, tail, rfl, -, -⟩ := hheads
      rw [hwritten]
      exact ⟨List.cons_ne_nil first tail, List.cons_ne_nil first' tail'⟩

theorem body_flatMap (h : ∀ s ∈ fileSegments file, ∃ ls, rewrite y s = .ok ls) :
    ∀ l ∈ (fileSegments file).flatMap (written y), '\r' ∉ l ∧ '\n' ∉ l := by
  intro l hl
  obtain ⟨s, hs, hl⟩ := List.mem_flatMap.mp hl
  exact body_written (h s hs) (body_file hs) l hl

theorem return_not_mem (h : ∀ s ∈ fileSegments file, ∃ ls, rewrite y s = .ok ls) :
    '\r' ∉ ['\n'].intercalate ((fileSegments file).flatMap (written y)) := by
  intro hc
  rcases of_mem_join hc with hc | ⟨l, hl, hc⟩
  · exact absurd hc (by decide)
  · exact (body_flatMap h l hl).1 hc

/-- What the write pass leaves when it returns. -/
def wrote (y : Yaml) (file : List Char) : Outcome :=
  if (fileSegments file).map (written y) = (fileSegments file).map Segment.lines then
    ⟨file, false, []⟩
  else ⟨['\n'].intercalate ((fileSegments file).flatMap (written y)), true, []⟩

/-- The segments of the file after the write pass are those of what is written for each. -/
theorem fileSegments_wrote (h : ∀ s ∈ fileSegments file, ∃ ls, rewrite y s = .ok ls) :
    fileSegments (wrote y file).file =
      (fileSegments file).flatMap fun s => reread s (written y s) := by
  have hread : split '\n' (universalNewlines (wrote y file).file) =
      (fileSegments file).flatMap (written y) := by
    rw [wrote]
    split_ifs with hsame
    · rw [List.flatMap_def, hsame, ← List.flatMap_def, file_lines]
    · rw [universalNewlines_of_not_mem (return_not_mem h)]
      refine split_joined (fun hnil => ?_) fun l hl => (body_flatMap h l hl).2
      obtain ⟨s, ss, hsegs⟩ : ∃ s ss, fileSegments file = s :: ss := by
        refine List.exists_cons_of_ne_nil fun hempty => ?_
        exact split_ne_nil _ _ (hempty ▸ file_lines file).symm
      have hs : s ∈ fileSegments file := hsegs ▸ List.mem_cons_self
      rw [hsegs, List.flatMap_cons] at hnil
      exact (lines_ne_nil hs (h s hs)).2 (List.append_eq_nil_iff.mp hnil).1
  rw [fileSegments, hread]
  exact (segments_written written_plain
    (fun k ls hs => heads_written ((parsed_file file).region hs).1 (h _ hs)) (parsed_file file)).1

/-- The region that is found where a region was written. -/
def newRegion (value : List Char) (k : ℕ) (ls : List (List Char)) : Segment (List Char) :=
  .region k (if needsBlock value k = true ∧ ls.any overlong = true
    then header k :: (trimmed value k).map (deeper k) else ls)

theorem reread_written {k : ℕ} {ls : List (List Char)} (hs : .region k ls ∈ fileSegments file)
    (h : ∃ new, rewrite y (.region k ls) = .ok new) : ∃ (value : List Char) (bs : List (List Char)),
      valueOf y k ls = .ok (.str value) ∧ reread (.region k ls) (written y (.region k ls)) =
        newRegion value k ls :: bs.map .plain := by
  obtain ⟨value, hvalue, hwritten⟩ := written_region h
  refine ⟨value, ?_⟩
  rw [hwritten]
  by_cases hlong : needsBlock value k = true ∧ ls.any overlong = true
  · obtain ⟨bs, hbs⟩ := reread_literalBlock value k ls
    rw [if_pos hlong, hbs, newRegion, if_pos hlong]
    exact ⟨bs, hvalue, rfl⟩
  · obtain ⟨hheads, hfull⟩ := (parsed_file file).region hs
    rw [if_neg hlong, reread_self hheads hfull, newRegion, if_neg hlong]
    exact ⟨[], hvalue, rfl⟩

/-- A region is found again. -/
theorem newRegion_mem (h : ∀ s ∈ fileSegments file, ∃ ls, rewrite y s = .ok ls) {k : ℕ}
    {ls : List (List Char)} (hs : .region k ls ∈ fileSegments file) {value : List Char}
    (hvalue : valueOf y k ls = .ok (.str value)) :
    newRegion value k ls ∈ fileSegments (wrote y file).file := by
  obtain ⟨value', bs, hvalue', hreread⟩ := reread_written hs (h _ hs)
  obtain rfl : value = value' := by
    rw [hvalue] at hvalue'
    exact Scalar.str.inj (Except.ok.inj hvalue')
  rw [fileSegments_wrote h]
  exact List.mem_flatMap.mpr ⟨_, hs, hreread ▸ List.mem_cons_self⟩

/-- Each region that is found was one before. -/
theorem of_mem_wrote (h : ∀ s ∈ fileSegments file, ∃ ls, rewrite y s = .ok ls)
    {s' : Segment (List Char)} (hs' : s' ∈ fileSegments (wrote y file).file) :
    (∃ l, s' = .plain l) ∨ ∃ k ls value, .region k ls ∈ fileSegments file ∧
      valueOf y k ls = .ok (.str value) ∧ s' = newRegion value k ls := by
  rw [fileSegments_wrote h] at hs'
  obtain ⟨s, hs, hmem⟩ := List.mem_flatMap.mp hs'
  cases s with
  | plain l => exact .inl ⟨l, List.mem_singleton.mp hmem⟩
  | region k ls =>
      obtain ⟨value, bs, hvalue, hreread⟩ := reread_written hs (h _ hs)
      rw [hreread] at hmem
      rcases List.mem_cons.mp hmem with heq | hmem
      · exact .inr ⟨k, ls, value, hs, hvalue, heq⟩
      · obtain ⟨l, -, rfl⟩ := List.mem_map.mp hmem
        exact .inl ⟨l, rfl⟩

/-- What the descriptions say is told region by region. -/
theorem descriptions_wrote (h : ∀ s ∈ fileSegments file, ∃ ls, rewrite y s = .ok ls)
    (hsaid : ∀ k ls value, .region k ls ∈ fileSegments file → valueOf y k ls = .ok (.str value) →
      said y (newRegion value k ls) = some (some (paragraphs value))) :
    descriptions y (wrote y file).file = descriptions y file := by
  have hsegment : ∀ s ∈ fileSegments file,
      (reread s (written y s)).filterMap (said y) = [s].filterMap (said y) := by
    intro s hs
    cases s with
    | plain l => rfl
    | region k ls =>
        obtain ⟨value, bs, hvalue, hreread⟩ := reread_written hs (h _ hs)
        have hplain : (bs.map Segment.plain).filterMap (said y) = [] := by
          rw [List.filterMap_eq_nil_iff]
          intro t ht
          obtain ⟨l, -, rfl⟩ := List.mem_map.mp ht
          rfl
        have hold : said y (.region k ls) = some (some (paragraphs value)) := by rw [said, hvalue]
        rw [hreread, List.filterMap_cons, hsaid k ls value hs hvalue, hplain, List.filterMap_cons,
          hold]
        rfl
  rw [descriptions, descriptions, fileSegments_wrote h, List.filterMap_flatMap]
  refine (List.flatMap_congr hsegment).trans ?_
  rw [← List.filterMap_flatMap, List.flatMap_singleton']

/-! ## When a file settles -/

/-- A region on which the passes agree is one that the check lets pass and the reader reads. -/
theorem newRegion_agrees (hy : ReadsBlocks y) {k : ℕ} {ls : List (List Char)} {value : List Char}
    (hvalue : valueOf y k ls = .ok (.str value)) (hagrees : agrees y (.region k ls) = true) :
    overflows (newRegion value k ls) = false ∧
      said y (newRegion value k ls) = some (some (paragraphs value)) ∧
      ∃ new, rewrite y (newRegion value k ls) = .ok new := by
  simp only [agrees, hvalue, Bool.or_eq_true, Bool.not_eq_true', Bool.and_eq_true,
    decide_eq_true_eq, List.all_eq_true] at hagrees
  cases hlong : ls.any overlong with
  | false =>
      have hnew : newRegion value k ls = .region k ls := by
        rw [newRegion, if_neg fun h => ?_]
        rw [hlong] at h
        exact Bool.false_ne_true h.2
      rw [hnew, overflows, said, hvalue]
      exact ⟨hlong, rfl, rewrite_value hvalue⟩
  | true =>
      rw [hlong] at hagrees
      obtain ⟨⟨hneeds, hindent⟩, hprint⟩ := hagrees.resolve_left nofun
      have hprint' : ∀ c ∈ value, isSpace c = false → y.printable c = true := fun c hc hspace =>
        (hprint c hc).resolve_left (by rw [hspace]; exact Bool.false_ne_true)
      have hread := valueOf_block hy (k := k) hprint'
      rw [newRegion, if_pos ⟨hneeds, hlong⟩, overflows, said, hread]
      refine ⟨?_, congrArg (fun p => some (some p)) (paragraphs_trimmed value k),
        rewrite_value hread⟩
      rw [List.any_cons, Bool.or_eq_false_iff, List.any_eq_false]
      refine ⟨?_, fun l hl => ?_⟩
      · rw [Bool.eq_false_iff, Ne, overlong_header]
        omega
      · obtain ⟨l', hl', rfl⟩ := List.mem_map.mp hl
        rw [overlong_deeper (trimmed_subset value k hl')]
        exact Bool.false_ne_true

/-- A region that the check lets pass after the write, and the reader reads, is one on which the
passes agree. -/
theorem agrees_of_newRegion (hy : ReadsBlocks y) {k : ℕ} {ls : List (List Char)}
    {value : List Char} (hvalue : valueOf y k ls = .ok (.str value))
    (hfits : overflows (newRegion value k ls) = false)
    (hread : ∃ new, rewrite y (newRegion value k ls) = .ok new) :
    agrees y (.region k ls) = true := by
  simp only [agrees, hvalue, Bool.or_eq_true, Bool.not_eq_true', Bool.and_eq_true,
    decide_eq_true_eq, List.all_eq_true]
  cases hlong : ls.any overlong with
  | false => exact .inl rfl
  | true =>
      right
      cases hneeds : needsBlock value k with
      | false =>
          rw [newRegion, if_neg fun h => ?_, overflows, hlong] at hfits
          · cases hfits
          · rw [hneeds] at h
            exact Bool.false_ne_true h.1
      | true =>
          rw [newRegion, if_pos ⟨hneeds, hlong⟩] at hfits hread
          obtain ⟨new, hnew⟩ := hread
          obtain ⟨value', hvalue', -⟩ := rewrite_region hnew
          rw [overflows, List.any_cons, Bool.or_eq_false_iff] at hfits
          refine ⟨⟨rfl, ?_⟩, fun c hc => ?_⟩
          · have hheader := mt (overlong_header k).mpr (Bool.eq_false_iff.mp hfits.1)
            omega
          · cases hspace : isSpace c with
            | true => exact .inl rfl
            | false => exact .inr (printable_of_valueOf hy hvalue' c hc hspace)

theorem value_of_agrees {k : ℕ} {ls : List (List Char)} (h : agrees y (.region k ls) = true) :
    ∃ value, valueOf y k ls = .ok (.str value) := by
  rw [agrees] at h
  match hvalue : valueOf y k ls with
  | .ok (.str value) => exact ⟨value, rfl⟩
  | .ok .other =>
      rw [hvalue] at h
      cases h
  | .error e =>
      rw [hvalue] at h
      cases h

/-- The lines of the file with their ends are cut as those that are read. -/
theorem fileSegments_raw (file : List Char) :
    (segments body (rawLines file)).map (Segment.map body) = fileSegments file := by
  rw [segments_map, ← split_universalNewlines]
  rfl

theorem outside_wrote (h : ∀ s ∈ fileSegments file, ∃ ls, rewrite y s = .ok ls)
    (hends : (∃ s ∈ fileSegments file, overflows s = true) →
      ∀ l, .plain l ∈ segments body (rawLines file) → '\r' ∉ l) :
    KeepsOutside (segments body (rawLines file)) (wrote y file).file := by
  rw [wrote]
  split_ifs with hsame
  · have hself := keepsOutside_self (segments body (rawLines file))
    rwa [segments_lines, rawLines_flatten] at hself
  · have hover : ∃ s ∈ fileSegments file, overflows s = true := by
      by_contra hnone
      refine hsame (List.map_congr_left fun s hs => written_fits (h s hs) ?_)
      exact Bool.eq_false_iff.mpr fun ho => hnone ⟨s, hs, ho⟩
    have hmem : ∀ s ∈ segments body (rawLines file), s.map body ∈ fileSegments file := by
      intro s hs
      rw [← fileSegments_raw]
      exact List.mem_map.mpr ⟨s, hs, rfl⟩
    have hended : Ended ((segments body (rawLines file)).flatMap Segment.lines) := by
      rw [segments_lines]
      exact ended_rawLines file
    have hjoin := keepsOutside_join (g := fun s => written y (s.map body)) (fun l => rfl)
      (fun s hs => ?_) hended (hends hover)
    · rw [← List.flatMap_map, fileSegments_raw] at hjoin
      exact hjoin
    · obtain ⟨hlines, hwritten⟩ := lines_ne_nil (hmem s hs) (h _ (hmem s hs))
      refine ⟨?_, hwritten⟩
      rintro hnil
      cases s with
      | plain l => cases hnil
      | region k ls =>
          refine hlines ?_
          show ls.map body = []
          rw [show ls = [] from hnil]
          rfl

/-- A file settles exactly when the passes agree on each region, and the ends of the lines outside
are newlines when a region is rewritten. -/
theorem settles_iff (y : Yaml) (hy : ReadsBlocks y) (file : List Char) :
    (∃ o, Settled y file o) ↔ (∀ s ∈ fileSegments file, agrees y s = true) ∧
      ((∃ s ∈ fileSegments file, overflows s = true) →
        ∀ l, .plain l ∈ segments body (rawLines file) → '\r' ∉ l) := by
  constructor
  · rintro ⟨o, hfirst, hclean, hagain, -, houtside⟩
    have h := of_process_write hfirst
    obtain rfl : o = wrote y file := Except.ok.inj (hfirst.symm.trans (process_write h))
    have hfits : ∀ s' ∈ fileSegments (wrote y file).file, overflows s' = false := by
      rw [process, if_neg Bool.false_ne_true] at hclean
      exact (problemsFrom_eq_nil_iff 0 _).mp (Outcome.mk.inj (Except.ok.inj hclean)).2.2
    refine ⟨fun s hs => ?_, fun ⟨s, hs, hover⟩ l hl hreturn => ?_⟩
    · cases s with
      | plain l => rfl
      | region k ls =>
          obtain ⟨value, hvalue, -⟩ := written_region (h _ hs)
          have hmem := newRegion_mem h hs hvalue
          exact agrees_of_newRegion hy hvalue (hfits _ hmem) (of_process_write hagain _ hmem)
    · -- the file was written, so its ends are newlines
      have hmem := (houtside.within hl).subset hreturn
      rw [wrote] at hmem hfits
      split_ifs at hmem hfits with hsame
      · rw [hfits s hs] at hover
        cases hover
      · exact return_not_mem h hmem
  · rintro ⟨hagrees, hends⟩
    have h : ∀ s ∈ fileSegments file, ∃ ls, rewrite y s = .ok ls := by
      intro s hs
      cases s with
      | plain l => exact ⟨[l], rfl⟩
      | region k ls =>
          obtain ⟨value, hvalue⟩ := value_of_agrees (hagrees _ hs)
          exact rewrite_value hvalue
    have hnew : ∀ s' ∈ fileSegments (wrote y file).file, overflows s' = false ∧
        ∃ new, rewrite y s' = .ok new := by
      intro s' hs'
      rcases of_mem_wrote h hs' with ⟨l, rfl⟩ | ⟨k, ls, value, hs, hvalue, rfl⟩
      · exact ⟨rfl, [l], rfl⟩
      · obtain ⟨hfits, -, hread⟩ := newRegion_agrees hy hvalue (hagrees _ hs)
        exact ⟨hfits, hread⟩
    refine ⟨wrote y file, process_write h, ?_, ?_, ?_, outside_wrote h hends⟩
    · rw [process, if_neg Bool.false_ne_true,
        (problemsFrom_eq_nil_iff 0 _).mpr fun s' hs' => (hnew s' hs').1]
    · rw [process_write fun s' hs' => (hnew s' hs').2, if_pos]
      exact List.map_congr_left fun s' hs' => written_fits (hnew s' hs').2 (hnew s' hs').1
    · exact descriptions_wrote h fun k ls value hs hvalue =>
        (newRegion_agrees hy hvalue (hagrees _ hs)).2.1

end

/-- A description on one line of 136 columns. -/
def longFile : List Char :=
  ("summary: Drives\ndescription: 'Queue depth of the emulated drive: zero keeps the default of " ++
    "QEMU, and any other number is handed to the device as it is.'\nkind: script\n").toList

/-- It is set in a literal block. -/
theorem longFile_settles : ∃ o, Settled reader longFile o := by
  have hagrees : ∀ s ∈ fileSegments longFile, agrees reader s = true := by decide +kernel
  have hends : ∀ s ∈ segments body (rawLines longFile), ∀ l ∈ s.lines, '\r' ∉ l := by
    decide +kernel
  exact (settles_iff reader readsBlocks_reader longFile).mpr
    ⟨hagrees, fun _ l hl => hends _ hl l List.mem_cons_self⟩

/-- A description on one line of 81 columns, two of them the quotes. -/
def quotedFile : List Char :=
  ("description: 'Queue depth of the emulated drive: zero keeps the default of QEMU.'\n" ++
    "kind: script\n").toList

theorem quotedFile_kept : process reader quotedFile true = .ok ⟨quotedFile, false, []⟩ := by
  decide +kernel

theorem quotedFile_reported : process reader quotedFile false = .ok ⟨quotedFile, false, [(1, 81)]⟩ := by
  decide +kernel

/-- The value fits behind its key, so the write leaves the line that the check reports. -/
theorem quoted_never_settles : ReadsBlocks reader ∧ ¬ ∃ o, Settled reader quotedFile o := by
  refine ⟨readsBlocks_reader, ?_⟩
  rintro ⟨o, hfirst, hclean, -, -, -⟩
  obtain rfl : o = ⟨quotedFile, false, []⟩ := Except.ok.inj (hfirst.symm.trans quotedFile_kept)
  have hproblems := (Outcome.mk.inj (Except.ok.inj (hclean.symm.trans quotedFile_reported))).2.2
  cases hproblems

end KdevopsNg.Scripts.Reflow
