/-
# `Common.CommandLog` — the command a step logs

`_log` of `f/common/devshell.py`.  A short command is logged on one line; a long one is
wrapped, one item a line:

    a flag and its value                  one item, at the level it stands on
    a flag, or an assignment              one item, at the level it stands on
    a bare word                           one item, and what follows stands deeper

Whichever of the two it is, a shell reads the arguments of the command in it, behind the
`+ ` it begins with (`log_read`): an item is read as its words, and from one item to the
next there are only blanks and the end of a line that a backslash joins (`read_continued`).
-/
import KdevopsNg.Sys.Shell

namespace KdevopsNg.Common.CommandLog

open Py.Shlex (Word quote join)
open Sys

/-- `tok.startswith("-")`. -/
def isFlag (tok : Word) : Bool := tok.head? = some '-'

/-- A flag takes the word behind it: neither is an assignment, and that is no flag. -/
def takes (tok next : Word) : Bool :=
  isFlag tok && decide ('=' ∉ tok) && !isFlag next && decide ('=' ∉ next)

/-- A line of a wrapped command: its level and its text. -/
structure Item where
  level : ℕ
  text : List Char

/-- The items of the arguments, from a level on. -/
def items (level : ℕ) : List Word → List Item
  | [] => []
  | [tok] => [⟨level, quote tok⟩]
  | tok :: next :: rest =>
      if takes tok next then ⟨level, quote tok ++ ' ' :: quote next⟩ :: items level rest
      else if isFlag tok ∨ '=' ∈ tok then ⟨level, quote tok⟩ :: items level (next :: rest)
      else ⟨level, quote tok⟩ :: items (level + 1) (next :: rest)

/-- What a line begins with. -/
def lead (indent : ℕ) (item : Item) (idx : ℕ) : List Char :=
  if idx = 0 then ['+', ' '] else [' ', ' '] ++ List.replicate (indent * item.level) ' '

/-- A line, of which `last` is the last one's place. -/
def line (indent last : ℕ) (item : Item) (idx : ℕ) : List Char :=
  lead indent item idx ++ item.text ++ if idx < last then [' ', '\\'] else []

/-- `_log`: the text it prints. -/
def log (indent width : ℕ) (argv : List Word) : List Char :=
  let flat := join argv
  if flat.length + 2 ≤ width then ['+', ' '] ++ flat
  else
    let lines := items 0 argv
    ['\n'].intercalate (lines.zipIdx.map fun x => line indent (lines.length - 1) x.1 x.2)

/-! ## The lines of an item on -/

/-- What stands behind an item: the lines of those after it. -/
def continued (indent : ℕ) : List Item → List Char
  | [] => []
  | item :: rest =>
      [' ', '\\', '\n', ' ', ' '] ++ List.replicate (indent * item.level) ' ' ++
        (item.text ++ continued indent rest)

/-- The lines from an item on are its own lead and text, and what stands behind it. -/
theorem lines_eq (indent : ℕ) (item : Item) (rest : List Item) (idx : ℕ) :
    ['\n'].intercalate (((item :: rest).zipIdx idx).map fun x =>
      line indent (idx + rest.length) x.1 x.2) =
      lead indent item idx ++ (item.text ++ continued indent rest) := by
  induction rest generalizing item idx with
  | nil =>
      rw [List.zipIdx_cons, List.zipIdx_nil, List.map_singleton, List.intercalate_singleton, line,
        if_neg (by simp), List.append_nil, continued, List.append_nil]
  | cons next rest ih =>
      have hrest := ih next (idx + 1)
      have hlen : idx + 1 + rest.length = idx + (next :: rest).length := by
        rw [List.length_cons]
        omega
      rw [hlen, List.zipIdx_cons, List.map_cons] at hrest
      have hlead : lead indent next (idx + 1) =
          [' ', ' '] ++ List.replicate (indent * next.level) ' ' := if_neg (Nat.succ_ne_zero idx)
      have hmore : idx < idx + (next :: rest).length := by
        rw [List.length_cons]
        omega
      rw [List.zipIdx_cons, List.map_cons, List.zipIdx_cons, List.map_cons,
        List.intercalate_cons_cons, hrest, hlead, line, if_pos hmore, continued]
      simp only [List.append_assoc, List.cons_append, List.nil_append]

/-! ## What a shell reads -/

/-- What a shell reads of the items, behind what the first line begins with. -/
def readItems (indent : ℕ) : List Item → Option (List Word)
  | [] => some []
  | item :: rest => Shell.scan (.at none) (item.text ++ continued indent rest)

/-- Between a word and the items behind it there is what ends the word. -/
theorem read_continued (indent : ℕ) (w : Word) (rest : List Item) :
    Shell.scan (.at (some w)) (continued indent rest) =
      (readItems indent rest).map (w :: ·) := by
  cases rest with
  | nil => rfl
  | cons item rest =>
      have hblanks : ∀ tail, Shell.scan (.at none) (' ' :: ' ' :: tail) =
          Shell.scan (.at none) tail := Shell.scan_blanks 2
      have hspread : continued indent (item :: rest) = ' ' :: '\\' :: '\n' :: ' ' :: ' ' ::
          (List.replicate (indent * item.level) ' ' ++ (item.text ++ continued indent rest)) := by
        rw [continued, List.append_assoc]
        rfl
      rw [hspread, Shell.scan_blank, Shell.scan_continued, hblanks, Shell.scan_blanks, readItems]
      rfl

/-- The items are read as the arguments they were made of. -/
theorem read_items (indent level : ℕ) (argv : List Word) :
    readItems indent (items level argv) = some argv := by
  fun_induction items level argv with
  | case1 => rfl
  | case2 level tok =>
      rw [readItems, Shell.scan_quote, read_continued, readItems]
      rfl
  | case3 level tok next rest htakes ih =>
      rw [readItems, List.append_assoc, Shell.scan_quote, List.cons_append, Shell.scan_blank,
        Shell.scan_quote, read_continued, ih]
      rfl
  | case4 level tok next rest htakes hflag ih =>
      rw [readItems, Shell.scan_quote, read_continued, ih]
      rfl
  | case5 level tok next rest htakes hword ih =>
      rw [readItems, Shell.scan_quote, read_continued, ih]
      rfl

/-- So is a joined line. -/
theorem read_join (argv : List Word) : Shell.words (join argv) = some argv := by
  rw [Shell.words, join]
  induction argv with
  | nil => rfl
  | cons w ws ih =>
      cases ws with
      | nil =>
          rw [List.map_singleton, List.intercalate_singleton, ← List.append_nil (quote w),
            Shell.scan_quote]
          rfl
      | cons v ws =>
          rw [List.map_cons, List.map_cons, List.intercalate_cons_cons, List.append_assoc,
            Shell.scan_quote, List.singleton_append, Shell.scan_blank, ← List.map_cons, ih]
          rfl

theorem items_ne_nil {argv : List Word} (h : argv ≠ []) (level : ℕ) : items level argv ≠ [] := by
  cases argv with
  | nil => exact absurd rfl h
  | cons tok rest =>
      cases rest with
      | nil => simp [items]
      | cons next rest =>
          rw [items]
          split_ifs <;> simp

/-- A shell reads the arguments of a command in what is logged of it. -/
theorem log_read (indent width : ℕ) (argv : List Word) (h : argv ≠ []) :
    ∃ text, log indent width argv = ['+', ' '] ++ text ∧ Shell.words text = some argv := by
  rw [log]
  by_cases hshort : (join argv).length + 2 ≤ width
  · rw [if_pos hshort]
    exact ⟨join argv, rfl, read_join argv⟩
  · rw [if_neg hshort]
    have hread := read_items indent 0 argv
    obtain ⟨item, rest, hitems⟩ := List.exists_cons_of_ne_nil (items_ne_nil h 0)
    rw [hitems] at hread
    refine ⟨item.text ++ continued indent rest, ?_, hread⟩
    have hlines := lines_eq indent item rest 0
    rw [Nat.zero_add] at hlines
    rw [hitems]
    exact hlines

theorem log_read_make : ∃ text, log 4 96 ["make".toList, "-C".toList, "it's".toList] =
    ['+', ' '] ++ text ∧
      Shell.words text = some ["make".toList, "-C".toList, "it's".toList] :=
  log_read 4 96 ["make".toList, "-C".toList, "it's".toList] (by simp)

end KdevopsNg.Common.CommandLog
