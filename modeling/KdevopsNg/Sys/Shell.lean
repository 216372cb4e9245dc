/-
# `Sys.Shell` — the words of a simple command

How a POSIX shell cuts a command line into words: the quoting rules, and nothing that
the shell would do beyond them.

    blanks                   end a word
    'text'                   as it is
    "text"                   `\` keeps its meaning in front of `$`, a backquote, `"` and `\`
    \c                       the character `c`
    \ and the end of a line  nothing at all: the lines are joined

A character that makes the line more than words, an operator, an expansion, a pattern, a
comment or the end of the command, is refused where it is not quoted.

A word between `shlex.quote`'s quotes is read as that word (`scan_quote`).
-/
import KdevopsNg.Py.Shlex

namespace Sys.Shell

open Py.Shlex (Word quote quoteChar isSafe)

/-- Where the reader stands: between words or in one, between quotes, or behind a backslash
outside of quotes or between double ones. -/
inductive State
  | at (w : Option Word)
  | single (w : Word)
  | double (w : Word)
  | escaped (w : Option Word)
  | escapedIn (w : Word)

/-- The blanks. -/
def isBlank (c : Char) : Bool := c ∈ [' ', '\t']

/-- What is no part of a word where it stands for itself. -/
def isSpecial (c : Char) : Bool :=
  c ∈ ['|', '&', ';', '<', '>', '(', ')', '$', '`', '*', '?', '[', '#', '~', '\n']

/-- The words from a state on; none where the line is no list of words. -/
def scan : State → List Char → Option (List Word)
  | .at w, [] => some w.toList
  | .at w, c :: cs =>
      if isBlank c then (scan (.at none) cs).map (w.toList ++ ·)
      else if c = '\'' then scan (.single (w.getD [])) cs
      else if c = '"' then scan (.double (w.getD [])) cs
      else if c = '\\' then scan (.escaped w) cs
      else if isSpecial c then none
      else scan (.at (some (w.getD [] ++ [c]))) cs
  | .single _, [] => none
  | .single w, c :: cs => if c = '\'' then scan (.at (some w)) cs else scan (.single (w ++ [c])) cs
  | .double _, [] => none
  | .double w, c :: cs =>
      if c = '"' then scan (.at (some w)) cs
      else if c = '\\' then scan (.escapedIn w) cs
      else if c ∈ ['$', '`'] then none
      else scan (.double (w ++ [c])) cs
  | .escaped _, [] => none
  | .escaped w, c :: cs =>
      if c = '\n' then scan (.at w) cs else scan (.at (some (w.getD [] ++ [c]))) cs
  | .escapedIn _, [] => none
  | .escapedIn w, c :: cs =>
      if c = '\n' then scan (.double w) cs
      else if c ∈ ['$', '`', '"', '\\'] then scan (.double (w ++ [c])) cs
      else scan (.double (w ++ ['\\', c])) cs

/-- The words of a line. -/
def words (line : List Char) : Option (List Word) := scan (.at none) line

/-! ## Quoted words -/

/-- A safe character is the next one of the word. -/
theorem scan_safe {c : Char} (h : isSafe c = true) (w : Option Word) (rest : List Char) :
    scan (.at w) (c :: rest) = scan (.at (some (w.getD [] ++ [c]))) rest := by
  have hne : ∀ d : Char, isSafe d = false → c ≠ d := by
    rintro d hd rfl
    exact Bool.false_ne_true (hd.symm.trans h)
  have hblank : isBlank c = false := by
    simp [isBlank, hne ' ' (by decide), hne '\t' (by decide)]
  have hspecial : isSpecial c = false := by
    rw [isSpecial, decide_eq_false_iff_not]
    intro hmem
    have hsafe : ∀ d ∈ ['|', '&', ';', '<', '>', '(', ')', '$', '`', '*', '?', '[', '#', '~', '\n'],
        isSafe d = false := by decide
    exact hne c (hsafe c hmem) rfl
  rw [scan, hblank, if_neg Bool.false_ne_true, if_neg (hne _ (by decide)),
    if_neg (hne _ (by decide)), if_neg (hne _ (by decide)), hspecial, if_neg Bool.false_ne_true]

theorem scan_safes {s : List Char} (h : ∀ c ∈ s, isSafe c = true) (w : Word) (rest : List Char) :
    scan (.at (some w)) (s ++ rest) = scan (.at (some (w ++ s))) rest := by
  induction s generalizing w with
  | nil => rw [List.nil_append, List.append_nil]
  | cons c s ih =>
      rw [List.cons_append, scan_safe (h c List.mem_cons_self), Option.getD_some,
        ih fun d hd => h d (List.mem_cons_of_mem c hd), List.append_assoc, List.singleton_append]

/-- A single quote is read between double ones, everything else between single ones. -/
theorem scan_quoteChar (c : Char) (w : Word) (rest : List Char) :
    scan (.single w) (quoteChar c ++ rest) = scan (.single (w ++ [c])) rest := by
  by_cases hc : c = '\''
  · subst hc
    rfl
  · rw [quoteChar, if_neg hc, List.singleton_append, scan, if_neg hc]

theorem scan_quoteChars (s : List Char) (w : Word) (rest : List Char) :
    scan (.single w) (s.flatMap quoteChar ++ rest) = scan (.single (w ++ s)) rest := by
  induction s generalizing w with
  | nil => rw [List.flatMap_nil, List.nil_append, List.append_nil]
  | cons c s ih =>
      rw [List.flatMap_cons, List.append_assoc, scan_quoteChar, ih, List.append_assoc,
        List.singleton_append]

/-- A quoted word is read as the word it was. -/
theorem scan_quote (w : Word) (rest : List Char) :
    scan (.at none) (quote w ++ rest) = scan (.at (some w)) rest := by
  rw [quote]
  split
  · next hnil => rw [hnil]; rfl
  · next hne =>
      split
      · next hsafe =>
          obtain ⟨c, w, rfl⟩ := List.exists_cons_of_ne_nil hne
          have hmem := List.all_eq_true.mp hsafe
          rw [List.cons_append, scan_safe (hmem c List.mem_cons_self),
            scan_safes fun d hd => hmem d (List.mem_cons_of_mem c hd)]
          rfl
      · have hopen : scan (.at none) ('\'' :: (w.flatMap quoteChar ++ '\'' :: rest)) =
            scan (.single []) (w.flatMap quoteChar ++ '\'' :: rest) := rfl
        rw [List.cons_append, List.cons_append, List.append_assoc, List.singleton_append, hopen,
          scan_quoteChars, scan, if_pos rfl, List.nil_append]

/-! ## Between words -/

/-- A blank ends the word before it. -/
theorem scan_blank (w : Option Word) (rest : List Char) :
    scan (.at w) (' ' :: rest) = (scan (.at none) rest).map (w.toList ++ ·) := rfl

theorem scan_blanks (n : ℕ) (rest : List Char) :
    scan (.at none) (List.replicate n ' ' ++ rest) = scan (.at none) rest := by
  induction n with
  | zero => rfl
  | succ n ih =>
      have hid : (fun ws : List Word => Option.toList none ++ ws) = id := rfl
      rw [List.replicate_succ, List.cons_append, scan_blank, ih, hid, Option.map_id, id]

/-- The end of a line behind a backslash is not there. -/
theorem scan_continued (w : Option Word) (rest : List Char) :
    scan (.at w) ('\\' :: '\n' :: rest) = scan (.at w) rest := rfl

end Sys.Shell
