/-
# `Common.ExcludeFile` — the exclude file of the Bare

`_exclude_dirs` of `f/common/worktree.py` looks for `/<dir>/` among the lines of `info/exclude`
and appends what is missing to the text of the file.  `excludes_iff` says of which files and
which calls that is right, after every one of the calls: each directory has a line, the lines
there were are the first lines still, and a call made again writes nothing.  It takes

    no line break in a directory          else it has no line, and is written each time
    a file that ends where a line does    else the first line written goes on the last one
    the same lines for both readers       where a line for Python is none for git

and the second only if something is written.  The lines are those of Python, which looks for
them, or those of git, which they are for (`Reader`).
-/
import KdevopsNg.Common.Releases
import KdevopsNg.Common.Worktree
import KdevopsNg.Py.LinesAt

namespace KdevopsNg.Common

open Py Text

/-! ## The file -/

/-- Who reads the lines of the file. -/
inductive Reader where
  | python
  | git
  deriving DecidableEq

/-- A line of git is without the return in front of its end. -/
def dropReturn (line : List Char) : List Char :=
  if line.getLast? = some '\r' then line.dropLast else line

/-- What ends a line. -/
def Reader.ends : Reader → Char → Bool
  | .python => isLineBreak
  | .git => fun c => c = '\n'

/-- The lines of a text. -/
def Reader.lines : Reader → List Char → List (List Char)
  | .python, text => splitlines (universalNewlines text)
  | .git, text => (linesAt Reader.git.ends text).map dropReturn

/-- The text of the file, where there is one. -/
abbrev ExcludeFile := Option (List Char)

def ExcludeFile.text (file : ExcludeFile) : List Char := file.getD []

/-- `/<dir>/`. -/
def dirLine (d : String) : List Char := '/' :: (d.toList ++ ['/'])

/-- The lines that are not there yet. -/
def ExcludeFile.missing (file : ExcludeFile) (dirs : List String) : List (List Char) :=
  (dirs.map dirLine).filter fun line => line ∉ Reader.python.lines file.text

/-- `_exclude_dirs`, on the file. -/
def ExcludeFile.exclude (file : ExcludeFile) (dirs : List String) : ExcludeFile :=
  if file.missing dirs = [] then file
  else some (file.text ++ (file.missing dirs).flatMap (· ++ ['\n']))

/-- One call after the other. -/
def ExcludeFile.run (file : ExcludeFile) (calls : List (List String)) : ExcludeFile :=
  calls.foldl ExcludeFile.exclude file

/-- What the calls are to make of a file: a line for each directory, behind the lines there were,
and no more to write. -/
structure Excluded (r : Reader) (calls : List (List String)) (file file' : ExcludeFile) : Prop where
  own : ∀ d ∈ calls.flatten, dirLine d ∈ r.lines file'.text
  prior : r.lines file.text <+: r.lines file'.text
  again : ∀ dirs ∈ calls, file'.exclude dirs = file'

/-! ## Lines behind a text -/

theorem universalNewlines_append {s t : List Char} (h : t.head? ≠ some '\n') :
    universalNewlines (s ++ t) = universalNewlines s ++ universalNewlines t := by
  induction s using universalNewlines.induct with
  | case1 => rfl
  | case2 s ih =>
      rw [List.cons_append, List.cons_append, universalNewlines, universalNewlines, ih]
      rfl
  | case3 c s hcrlf ih =>
      rw [List.cons_append, universalNewlines, universalNewlines, ih]
      · rfl
      · exact hcrlf
      · intro s' hc hs
        cases s with
        | nil =>
            rw [List.nil_append] at hs
            exact h (by rw [hs]; rfl)
        | cons d s =>
            obtain ⟨rfl, -⟩ := List.cons.inj hs
            exact hcrlf s hc rfl

theorem getLast?_universalNewlines (s : List Char) : (universalNewlines s).getLast? =
    s.getLast?.map fun c => if c = '\r' then '\n' else c := by
  induction s using universalNewlines.induct with
  | case1 => rfl
  | case2 s ih =>
      rw [universalNewlines, List.getLast?_cons, ih, List.getLast?_cons, List.getLast?_cons]
      cases s.getLast? with
      | none => rfl
      | some c => rfl
  | case3 c s hcrlf ih =>
      rw [universalNewlines, List.getLast?_cons, ih, List.getLast?_cons]
      · cases s.getLast? with
        | none => rfl
        | some c => rfl
      · exact hcrlf

theorem endsLine_universalNewlines (s : List Char) :
    EndsLine isLineBreak (universalNewlines s) ↔ EndsLine isLineBreak s := by
  have hbreak : ∀ c, isLineBreak (if c = '\r' then '\n' else c) = isLineBreak c := by
    intro c
    split_ifs with hc
    · rw [hc]
      rfl
    · rfl
  rw [EndsLine, EndsLine, getLast?_universalNewlines]
  simp only [Option.mem_def, Option.map_eq_some_iff, forall_exists_index, and_imp,
    forall_apply_eq_imp_iff₂, hbreak]

/-- A line that is there for both readers. -/
def Solid (line : List Char) : Prop := line ≠ [] ∧ OneLine line

theorem return_not_mem {line : List Char} (h : OneLine line) : '\r' ∉ line :=
  fun hr => absurd (h '\r' hr) (by decide)

/-- The text of lines that are written. -/
theorem python_lines_append {s : List Char} {ls : List (List Char)} (hls : ∀ l ∈ ls, Solid l) :
    Reader.python.lines (s ++ ls.flatMap (· ++ ['\n'])) =
      linesAt isLineBreak (universalNewlines s ++ ls.flatMap (· ++ ['\n'])) := by
  have hreturn : '\r' ∉ ls.flatMap (· ++ ['\n']) := by
    intro hr
    obtain ⟨l, hl, hr⟩ := List.mem_flatMap.mp hr
    rcases List.mem_append.mp hr with hr | hr
    · exact return_not_mem (hls l hl).2 hr
    · exact absurd hr (by decide)
  have hhead : (ls.flatMap (· ++ ['\n'])).head? ≠ some '\n' := by
    cases ls with
    | nil => exact nofun
    | cons l ls =>
        obtain ⟨hne, hone⟩ := hls l List.mem_cons_self
        cases l with
        | nil => exact absurd rfl hne
        | cons c l =>
            intro h
            have hc := hone c List.mem_cons_self
            rw [Option.some.inj h] at hc
            exact absurd hc (by decide)
  rw [Reader.lines, universalNewlines_append hhead, universalNewlines_of_not_mem hreturn,
    splitlines_eq_linesAt]
  intro hr
  rcases List.mem_append.mp hr with hr | hr
  · exact not_mem_universalNewlines s hr
  · exact hreturn hr

theorem python_lines_eq (s : List Char) :
    Reader.python.lines s = linesAt isLineBreak (universalNewlines s) :=
  splitlines_eq_linesAt (not_mem_universalNewlines s)

theorem dropReturn_append {line : List Char} (h : Solid line) (s : List Char) :
    dropReturn (s ++ line) = s ++ line := by
  refine if_neg fun hlast => ?_
  rw [List.getLast?_append_of_ne_nil _ h.1] at hlast
  exact return_not_mem h.2 (List.mem_of_getLast? hlast)

/-- No line of git is broken for Python. -/
theorem Reader.isLineBreak_of_ends {r : Reader} {c : Char} (h : r.ends c = true) :
    isLineBreak c = true := by
  cases r with
  | python => exact h
  | git =>
      rw [of_decide_eq_true h]
      rfl

theorem Reader.ends_of_oneLine {r : Reader} {line : List Char} (h : OneLine line) :
    ∀ c ∈ line, r.ends c = false := fun c hc => Bool.eq_false_iff.mpr fun hends => by
  have hno := h c hc
  rw [isLineBreak_of_ends hends] at hno
  cases hno

/-- Lines written behind a text that ends where a line does. -/
theorem Reader.lines_append {r : Reader} {s : List Char} (hs : EndsLine r.ends s)
    {ls : List (List Char)} (hls : ∀ l ∈ ls, Solid l) :
    r.lines (s ++ ls.flatMap (· ++ ['\n'])) = r.lines s ++ ls := by
  have hread : linesAt r.ends (ls.flatMap (· ++ ['\n'])) = ls :=
    linesAt_lines (by cases r <;> rfl) fun l hl => ends_of_oneLine (hls l hl).2
  cases r with
  | python =>
      rw [python_lines_append hls, python_lines_eq,
        linesAt_append ((endsLine_universalNewlines s).mpr hs)]
      exact congrArg (_ ++ ·) hread
  | git =>
      rw [Reader.lines, linesAt_append hs, hread, List.map_append, Reader.lines]
      refine congrArg (_ ++ ·) ((List.map_congr_left fun l hl => ?_).trans (List.map_id ls))
      exact dropReturn_append (hls l hl) []

/-- Lines written behind a text that does not: its last line is none any more. -/
theorem Reader.not_kept {r : Reader} {s : List Char} (hs : ¬ EndsLine r.ends s)
    {ls : List (List Char)} (hne : ls ≠ []) (hls : ∀ l ∈ ls, Solid l) :
    ¬ r.lines s <+: r.lines (s ++ ls.flatMap (· ++ ['\n'])) := by
  have hread : linesAt r.ends (ls.flatMap (· ++ ['\n'])) = ls :=
    linesAt_lines (by cases r <;> rfl) fun l hl => ends_of_oneLine (hls l hl).2
  obtain ⟨l, ls, rfl⟩ := List.exists_cons_of_ne_nil hne
  have hl := hls l List.mem_cons_self
  have hsame : ∀ {front rest : List (List Char)} {a b : List Char},
      front ++ [a] <+: front ++ b :: rest → a = b := fun h =>
    (List.cons_prefix_cons.mp ((List.prefix_append_right_inj _).mp h)).1
  cases r with
  | python =>
      obtain ⟨front, last, hlines, happend⟩ :=
        linesAt_open (mt (endsLine_universalNewlines s).mp hs)
      have hread' : linesAt isLineBreak ((l :: ls).flatMap (· ++ ['\n'])) = l :: ls := hread
      rw [python_lines_append hls, python_lines_eq, happend, hlines, hread', glue]
      exact fun h => hl.1 (List.self_eq_append_right.mp (hsame h))
  | git =>
      obtain ⟨front, last, hlines, happend⟩ := linesAt_open hs
      rw [Reader.lines, Reader.lines, happend, hlines, hread, glue, List.map_append, List.map_append,
        List.map_singleton, List.map_cons, dropReturn_append hl]
      intro h
      have hlen := congrArg List.length (hsame h)
      have hpos := List.length_pos_of_ne_nil hl.1
      have hdrop : (dropReturn last).length ≤ last.length := by
        rw [dropReturn]
        split_ifs
        · rw [List.length_dropLast]
          omega
        · rfl
      rw [List.length_append] at hlen
      omega

/-! ## One call -/

theorem solid_dirLine {d : String} (h : OneLine d.toList) : Solid (dirLine d) := by
  refine ⟨List.cons_ne_nil _ _, OneLine.cons (by decide) (h.append (by decide))⟩

theorem oneLine_of_dirLine {d : String} (h : OneLine (dirLine d)) : OneLine d.toList :=
  h.subset fun _ hc => List.mem_cons_of_mem _ (List.mem_append_left _ hc)

variable {file : ExcludeFile} {dirs : List String}

theorem mem_missing {line : List Char} :
    line ∈ file.missing dirs ↔
      (∃ d ∈ dirs, dirLine d = line) ∧ line ∉ Reader.python.lines file.text := by
  rw [ExcludeFile.missing, List.mem_filter, List.mem_map, decide_eq_true_eq]

theorem missing_eq_nil :
    file.missing dirs = [] ↔ ∀ d ∈ dirs, dirLine d ∈ Reader.python.lines file.text := by
  rw [List.eq_nil_iff_forall_not_mem]
  constructor
  · intro h d hd
    by_contra hno
    exact h _ (mem_missing.mpr ⟨⟨d, hd, rfl⟩, hno⟩)
  · intro h line hline
    obtain ⟨⟨d, hd, rfl⟩, hno⟩ := mem_missing.mp hline
    exact hno (h d hd)

theorem text_exclude : (file.exclude dirs).text =
    file.text ++ (file.missing dirs).flatMap (· ++ ['\n']) := by
  rw [ExcludeFile.exclude]
  split_ifs with h
  · rw [h, List.flatMap_nil, List.append_nil]
  · rfl

/-- A call leaves the file as it is exactly when each directory has its line. -/
theorem exclude_eq_self :
    file.exclude dirs = file ↔ ∀ d ∈ dirs, dirLine d ∈ Reader.python.lines file.text := by
  rw [← missing_eq_nil]
  constructor
  · intro h
    have htext := congrArg ExcludeFile.text h
    rw [text_exclude, List.append_right_eq_self] at htext
    cases hm : file.missing dirs with
    | nil => rfl
    | cons l ls =>
        rw [hm] at htext
        exact absurd htext (by simp)
  · exact fun h => if_pos h

theorem solid_missing (h : ∀ d ∈ dirs, OneLine d.toList) : ∀ l ∈ file.missing dirs, Solid l := by
  intro l hl
  obtain ⟨⟨d, hd, rfl⟩, -⟩ := mem_missing.mp hl
  exact solid_dirLine (h d hd)

/-- What a call does to the lines of a file that ends where one does. -/
theorem lines_exclude {r : Reader} (hends : EndsLine r.ends file.text)
    (h : ∀ d ∈ dirs, OneLine d.toList) :
    r.lines (file.exclude dirs).text = r.lines file.text ++ file.missing dirs := by
  rw [text_exclude]
  exact Reader.lines_append hends (solid_missing h)

theorem endsLine_exclude {r : Reader} (hends : EndsLine r.ends file.text) :
    EndsLine r.ends (file.exclude dirs).text := by
  rw [text_exclude]
  rcases List.eq_nil_or_concat (file.missing dirs) with hm | ⟨ls, l, hm⟩
  · rwa [hm, List.flatMap_nil, List.append_nil]
  · intro c hc
    rw [hm, List.concat_eq_append, List.flatMap_append, List.flatMap_singleton,
      ← List.append_assoc, ← List.append_assoc, List.getLast?_concat] at hc
    cases hc
    cases r with
    | python => rfl
    | git => rfl

/-- On a file that ends where a line does, a call does to its lines what `excludeDirs` does. -/
theorem excludeDirs_lines {s : St} (hends : EndsLine Reader.python.ends file.text)
    (h : ∀ d ∈ dirs, OneLine d.toList)
    (hs : s.exclude = (Reader.python.lines file.text).map String.ofList) :
    (excludeDirs dirs s).exclude =
      (Reader.python.lines (file.exclude dirs).text).map String.ofList := by
  have hline : (dirs.map fun d => "/" ++ d ++ "/") = (dirs.map dirLine).map String.ofList := by
    rw [List.map_map]
    refine List.map_congr_left fun d _ => String.toList_inj.mp ?_
    rw [Function.comp_apply, String.toList_ofList, String.toList_append, String.toList_append]
    rfl
  have hmem : ∀ l : List Char,
      String.ofList l ∈ (Reader.python.lines file.text).map String.ofList ↔
        l ∈ Reader.python.lines file.text := by
    intro l
    rw [List.mem_map]
    refine ⟨fun ⟨l', hl', heq⟩ => ?_, fun hl => ⟨l, hl, rfl⟩⟩
    rwa [← String.toList_ofList (l := l), ← heq, String.toList_ofList]
  rw [lines_exclude hends h, List.map_append, ← hs, excludeDirs, ExcludeFile.missing, hline,
    List.filter_map]
  refine congrArg (fun ls => s.exclude ++ ls.map String.ofList) (List.filter_congr fun l _ => ?_)
  rw [Function.comp_apply, decide_eq_decide, hs, hmem]

/-! ## A run of calls -/

variable {calls : List (List String)}

theorem run_cons : file.run (dirs :: calls) = (file.exclude dirs).run calls := rfl

/-- Nothing is written where nothing is missing. -/
theorem run_eq_self (h : ∀ d ∈ calls.flatten, dirLine d ∈ Reader.python.lines file.text) :
    file.run calls = file := by
  induction calls with
  | nil => rfl
  | cons dirs calls ih =>
      rw [List.flatten_cons, List.forall_mem_append] at h
      rw [run_cons, exclude_eq_self.mpr h.1, ih h.2]

/-- The lines of a run, from a file that ends where one does: those that were there, and behind
them only others. -/
theorem run_lines {r : Reader} (hends : EndsLine r.ends file.text)
    (h : ∀ d ∈ calls.flatten, OneLine d.toList) : ∃ added,
      r.lines (file.run calls).text = r.lines file.text ++ added ∧
      Reader.python.lines (file.run calls).text = Reader.python.lines file.text ++ added ∧
      (∀ l ∈ added, l ∉ Reader.python.lines file.text) ∧
      ∀ d ∈ calls.flatten, dirLine d ∈ Reader.python.lines file.text ++ added := by
  induction calls generalizing file with
  | nil => exact ⟨[], (List.append_nil _).symm, (List.append_nil _).symm, nofun, nofun⟩
  | cons dirs calls ih =>
      rw [List.flatten_cons, List.forall_mem_append] at h
      have hpython : EndsLine Reader.python.ends file.text := fun c hc =>
        Reader.isLineBreak_of_ends (hends c hc)
      obtain ⟨added, hlines, hread, hnew, hall⟩ :=
        ih (endsLine_exclude hends) h.2
      rw [lines_exclude hpython h.1, List.append_assoc] at hread
      rw [lines_exclude hpython h.1] at hnew hall
      rw [lines_exclude hends h.1, List.append_assoc] at hlines
      refine ⟨file.missing dirs ++ added, hlines, hread, ?_, ?_⟩
      · intro l hl
        rcases List.mem_append.mp hl with hl | hl
        · exact (mem_missing.mp hl).2
        · exact fun hold => hnew l hl (List.mem_append_left _ hold)
      · rw [List.flatten_cons, List.forall_mem_append, ← List.append_assoc]
        refine ⟨fun d hd => ?_, hall⟩
        by_cases hold : dirLine d ∈ Reader.python.lines file.text
        · exact List.mem_append_left _ (List.mem_append_left _ hold)
        · exact List.mem_append_left _
            (List.mem_append_right _ (mem_missing.mpr ⟨⟨d, hd, rfl⟩, hold⟩))

/-- Where something is missing, some call is the first to write. -/
theorem first_write (h : ∃ d ∈ calls.flatten, dirLine d ∉ Reader.python.lines file.text) :
    ∃ before dirs, before ++ [dirs] <+: calls ∧ file.run (before ++ [dirs]) = file.exclude dirs ∧
      file.missing dirs ≠ [] := by
  induction calls with
  | nil =>
      obtain ⟨d, hd, -⟩ := h
      exact absurd hd List.not_mem_nil
  | cons dirs calls ih =>
      by_cases hm : file.missing dirs = []
      · obtain ⟨d, hd, hno⟩ := h
        rw [List.flatten_cons, List.mem_append] at hd
        obtain ⟨before, dirs', hprefix, hrun, hwrite⟩ :=
          ih ⟨d, hd.resolve_left fun hd => hno (missing_eq_nil.mp hm d hd), hno⟩
        refine ⟨dirs :: before, dirs', List.cons_prefix_cons.mpr ⟨rfl, hprefix⟩, ?_, hwrite⟩
        rw [List.cons_append, run_cons, exclude_eq_self.mpr (missing_eq_nil.mp hm), hrun]
      · exact ⟨[], dirs, List.cons_prefix_cons.mpr ⟨rfl, List.nil_prefix⟩, rfl, hm⟩

/-- After every one of the calls the file is as they are to make it, exactly when no directory
has a line break, every line found was one for the reader, and the file ended where a line does
unless nothing was missing. -/
theorem excludes_iff (r : Reader) (file : ExcludeFile) (calls : List (List String)) :
    (∀ before, before <+: calls → Excluded r before file (file.run before)) ↔
      (∀ d ∈ calls.flatten, OneLine d.toList) ∧
      (∀ d ∈ calls.flatten,
        dirLine d ∈ Reader.python.lines file.text → dirLine d ∈ r.lines file.text) ∧
      (EndsLine r.ends file.text ∨
        ∀ d ∈ calls.flatten, dirLine d ∈ Reader.python.lines file.text) := by
  constructor
  · intro h
    have hall := h calls (List.prefix_refl calls)
    have hone : ∀ d ∈ calls.flatten, OneLine d.toList := by
      intro d hd
      obtain ⟨dirs, hdirs, hd⟩ := List.mem_flatten.mp hd
      have hline := exclude_eq_self.mp (hall.again dirs hdirs) d hd
      rw [python_lines_eq] at hline
      exact oneLine_of_dirLine (of_mem_linesAt hline)
    have hends : EndsLine r.ends file.text ∨
        ∀ d ∈ calls.flatten, dirLine d ∈ Reader.python.lines file.text := by
      by_contra hno
      obtain ⟨hopen, hmissing⟩ := not_or.mp hno
      obtain ⟨d, hd, hnoline⟩ := not_forall₂.mp hmissing
      obtain ⟨before, dirs, hprefix, hrun, hwrite⟩ := first_write ⟨d, hd, hnoline⟩
      have hdirs : dirs ∈ calls :=
        hprefix.subset (List.mem_append_right before (List.mem_singleton_self dirs))
      have hprior := (h _ hprefix).prior
      rw [hrun, text_exclude] at hprior
      exact Reader.not_kept hopen hwrite
        (solid_missing fun d hd => hone d (List.mem_flatten.mpr ⟨dirs, hdirs, hd⟩)) hprior
    refine ⟨hone, fun d hd hline => ?_, hends⟩
    have hown := hall.own d hd
    rcases hends with hends | hpresent
    · obtain ⟨added, hlines, -, hnew, -⟩ := run_lines hends hone
      rw [hlines] at hown
      exact (List.mem_append.mp hown).resolve_right fun hadded => hnew _ hadded hline
    · rwa [run_eq_self hpresent] at hown
  · rintro ⟨hone, hread, hends⟩ before hprefix
    have hsub : before.flatten ⊆ calls.flatten := fun d hd => by
      obtain ⟨dirs, hdirs, hd⟩ := List.mem_flatten.mp hd
      exact List.mem_flatten.mpr ⟨dirs, hprefix.subset hdirs, hd⟩
    rcases hends with hends | hpresent
    · obtain ⟨added, hlines, hpython, -, hall⟩ :=
        run_lines hends fun d hd => hone d (hsub hd)
      refine ⟨fun d hd => ?_, ?_, fun dirs hdirs => exclude_eq_self.mpr fun d hd => ?_⟩
      · rw [hlines]
        rcases List.mem_append.mp (hall d hd) with hold | hadded
        · exact List.mem_append_left _ (hread d (hsub hd) hold)
        · exact List.mem_append_right _ hadded
      · rw [hlines]
        exact List.prefix_append _ _
      · rw [hpython]
        exact hall d (List.mem_flatten.mpr ⟨dirs, hdirs, hd⟩)
    · have hsame : file.run before = file := run_eq_self fun d hd => hpresent d (hsub hd)
      rw [hsame]
      refine ⟨fun d hd => hread d (hsub hd) (hpresent d (hsub hd)), List.prefix_refl _,
        fun dirs hdirs => exclude_eq_self.mpr fun d hd => ?_⟩
      exact hpresent d (hsub (List.mem_flatten.mpr ⟨dirs, hdirs, hd⟩))

/-- A file without a newline at its end: the first directory has no line, and the line in front
of it is gone. -/
theorem glued_line :
    ExcludeFile.run (some "*.swp".toList) [["build"]] = some "*.swp/build/\n".toList ∧
      ∀ r : Reader, dirLine "build" ∉ r.lines "*.swp/build/\n".toList ∧
        "*.swp".toList ∈ r.lines "*.swp".toList ∧
        "*.swp".toList ∉ r.lines "*.swp/build/\n".toList := by
  refine ⟨by decide +kernel, fun r => ?_⟩
  cases r with
  | python => decide +kernel
  | git => decide +kernel

end KdevopsNg.Common
