/-
# `Py.Shlex` — the words of a command line

`shlex.split` reads a command line with a machine that takes one character at a
time.  A state says where it stands and what it has of the word there:

    blank         between words
    word w        in a word
    quoted q w    between the quotes `q`
    escaped w     behind a backslash
    escapedIn w   behind a backslash between double quotes

`shlex.join` puts a word between single quotes unless all its characters are safe
ones.  What is joined is split into the same words (`split_join`), whatever is in
them: `scan_quote` is the step, one word from `blank` on.
-/
import KdevopsNg.Py.Exec
import KdevopsNg.Py.Text

namespace Py

namespace Shlex

/-- A word of a command line. -/
abbrev Word := List Char

/-- Where the splitter stands, with what it has of the word there. -/
inductive State
  | blank
  | word (w : Word)
  | quoted (q : Char) (w : Word)
  | escaped (w : Word)
  | escapedIn (w : Word)

/-- `shlex.whitespace`. -/
def isWhitespace (c : Char) : Bool := c ∈ [' ', '\t', '\r', '\n']

/-- `shlex.quotes`. -/
def isQuote (c : Char) : Bool := c ∈ ['\'', '"']

/-- A character that is none of white space, quotes and backslash. -/
def isPlain (c : Char) : Bool := !isWhitespace c && !isQuote c && c ≠ '\\'

/-- The state behind a character inside a word, for a character that is no white space. -/
def into (w : Word) (c : Char) : State :=
  if isQuote c then .quoted c w
  else if c = '\\' then .escaped w
  else .word (w ++ [c])

/-- The words from a state on. -/
def scan : State → List Char → Except PyError (List Word)
  | .blank, [] => .ok []
  | .blank, c :: cs => if isWhitespace c then scan .blank cs else scan (into [] c) cs
  | .word w, [] => .ok [w]
  | .word w, c :: cs =>
      if isWhitespace c then (scan .blank cs).map (w :: ·) else scan (into w c) cs
  | .quoted _ _, [] => .error (.valueError "No closing quotation")
  | .quoted q w, c :: cs =>
      if c = q then scan (.word w) cs
      -- only double quotes know the backslash
      else if c = '\\' ∧ q = '"' then scan (.escapedIn w) cs
      else scan (.quoted q (w ++ [c])) cs
  | .escaped _, [] => .error (.valueError "No escaped character")
  | .escaped w, c :: cs => scan (.word (w ++ [c])) cs
  | .escapedIn _, [] => .error (.valueError "No escaped character")
  | .escapedIn w, c :: cs =>
      -- the backslash stays in front of what needs none
      if c ≠ '\\' ∧ c ≠ '"' then scan (.quoted '"' (w ++ ['\\', c])) cs
      else scan (.quoted '"' (w ++ [c])) cs

/-- `shlex.split(s)`. -/
def split (s : List Char) : Except PyError (List Word) := scan .blank s

/-- A character a word may have without quotes: the letters, the digits and ten more of ASCII. -/
def isSafe (c : Char) : Bool :=
  c.isAlphanum || c ∈ ['_', '@', '%', '+', '=', ':', ',', '.', '/', '-']

/-- A character between single quotes; a single quote leaves them for double ones. -/
def quoteChar (c : Char) : List Char := if c = '\'' then ['\'', '"', '\'', '"', '\''] else [c]

/-- `shlex.quote(w)`. -/
def quote (w : Word) : List Char :=
  if w = [] then ['\'', '\'']
  else if w.all isSafe then w
  else '\'' :: w.flatMap quoteChar ++ ['\'']

/-- `shlex.join(ws)`. -/
def join (ws : List Word) : List Char := [' '].intercalate (ws.map quote)

/-! ## What is joined is split again -/

theorem isPlain_of_isSafe {c : Char} (h : isSafe c = true) : isPlain c = true := by
  have hunsafe : ∀ d : Char, isSafe d = false → c ≠ d := by
    rintro d hd rfl
    exact Bool.false_ne_true (hd.symm.trans h)
  have hspace : isWhitespace c = false := by
    simp [isWhitespace, hunsafe ' ' (by decide), hunsafe '\t' (by decide), hunsafe '\r' (by decide),
      hunsafe '\n' (by decide)]
  have hquote : isQuote c = false := by
    simp [isQuote, hunsafe '\'' (by decide), hunsafe '"' (by decide)]
  simp [isPlain, hspace, hquote, hunsafe '\\' (by decide)]

/-- A plain character is the next one of the word. -/
theorem into_plain {c : Char} (h : isPlain c = true) (w : Word) : into w c = .word (w ++ [c]) := by
  simp only [isPlain, Bool.and_eq_true, Bool.not_eq_true', decide_eq_true_eq] at h
  rw [into, h.1.2, if_neg Bool.false_ne_true, if_neg h.2]

theorem isWhitespace_plain {c : Char} (h : isPlain c = true) : isWhitespace c = false := by
  simp only [isPlain, Bool.and_eq_true, Bool.not_eq_true'] at h
  exact h.1.1

/-- Safe characters go to the word they stand in. -/
theorem scan_word_safe {s : List Char} (h : ∀ c ∈ s, isSafe c = true) (w : Word)
    (rest : List Char) : scan (.word w) (s ++ rest) = scan (.word (w ++ s)) rest := by
  induction s generalizing w with
  | nil => rw [List.nil_append, List.append_nil]
  | cons c s ih =>
      have hc := isPlain_of_isSafe (h c List.mem_cons_self)
      rw [List.cons_append, scan, isWhitespace_plain hc, if_neg Bool.false_ne_true, into_plain hc,
        ih fun d hd => h d (List.mem_cons_of_mem c hd), List.append_assoc, List.singleton_append]

/-- So does everything between single quotes, a single quote through double ones. -/
theorem scan_quoteChar (c : Char) (w : Word) (rest : List Char) :
    scan (.quoted '\'' w) (quoteChar c ++ rest) = scan (.quoted '\'' (w ++ [c])) rest := by
  by_cases hc : c = '\''
  · subst hc
    rfl
  · have hescape : ¬ (c = '\\' ∧ '\'' = '"') := fun h => absurd h.2 (by decide)
    rw [quoteChar, if_neg hc, List.singleton_append, scan, if_neg hc, if_neg hescape]

theorem scan_quoted (s : List Char) (w : Word) (rest : List Char) :
    scan (.quoted '\'' w) (s.flatMap quoteChar ++ rest) = scan (.quoted '\'' (w ++ s)) rest := by
  induction s generalizing w with
  | nil => rw [List.flatMap_nil, List.nil_append, List.append_nil]
  | cons c s ih =>
      rw [List.flatMap_cons, List.append_assoc, scan_quoteChar, ih, List.append_assoc,
        List.singleton_append]

/-- A quoted word is read as the word it was. -/
theorem scan_quote (w : Word) (rest : List Char) :
    scan .blank (quote w ++ rest) = scan (.word w) rest := by
  rw [quote]
  split
  · next hnil => rw [hnil]; rfl
  · next hne =>
      split
      · next hsafe =>
          obtain ⟨c, w, rfl⟩ := List.exists_cons_of_ne_nil hne
          have hmem := List.all_eq_true.mp hsafe
          have hc := isPlain_of_isSafe (hmem c List.mem_cons_self)
          rw [List.cons_append, scan, isWhitespace_plain hc, if_neg Bool.false_ne_true, into_plain hc,
            scan_word_safe fun d hd => hmem d (List.mem_cons_of_mem c hd)]
          rfl
      · have hopen : scan .blank ('\'' :: (w.flatMap quoteChar ++ '\'' :: rest)) =
            scan (.quoted '\'' []) (w.flatMap quoteChar ++ '\'' :: rest) := rfl
        rw [List.cons_append, List.cons_append, List.append_assoc, List.singleton_append, hopen,
          scan_quoted, scan, if_pos rfl, List.nil_append]

/-- The words of a joined line are those that were joined. -/
theorem split_join (ws : List Word) : split (join ws) = .ok ws := by
  rw [split, join]
  induction ws with
  | nil => rfl
  | cons w ws ih =>
      cases ws with
      | nil =>
          rw [List.map_singleton, List.intercalate_singleton, ← List.append_nil (quote w), scan_quote,
            scan]
      | cons v ws =>
          have hspace : isWhitespace ' ' = true := by decide
          rw [List.map_cons, List.map_cons, List.intercalate_cons_cons, List.append_assoc, scan_quote,
            List.singleton_append, scan, if_pos hspace, ← List.map_cons, ih]
          rfl

/-! ## What stands between quotes -/

/-- A character begins its quoted form, so that is of one character only. -/
theorem quoteChar_cons (c : Char) : ∃ more, quoteChar c = c :: more := by
  by_cases hc : c = '\''
  · rw [hc]
    exact ⟨_, rfl⟩
  · rw [quoteChar, if_neg hc]
    exact ⟨[], rfl⟩

/-- Of two texts that are quoted and go on alike, one begins with the other. -/
theorem quoted_cases {s t a b : List Char}
    (h : s.flatMap quoteChar ++ a = t.flatMap quoteChar ++ b) :
    (∃ d, t = s ++ d ∧ a = d.flatMap quoteChar ++ b) ∨
      ∃ d, s = t ++ d ∧ b = d.flatMap quoteChar ++ a := by
  induction s generalizing t with
  | nil => exact .inl ⟨t, rfl, h⟩
  | cons c s ih =>
      cases t with
      | nil => exact .inr ⟨c :: s, rfl, h.symm⟩
      | cons d t =>
          rw [List.flatMap_cons, List.flatMap_cons, List.append_assoc, List.append_assoc] at h
          have hcd : c = d := by
            obtain ⟨more, hc⟩ := quoteChar_cons c
            obtain ⟨more', hd⟩ := quoteChar_cons d
            rw [hc, hd] at h
            exact (List.cons.inj h).1
          subst hcd
          rcases ih (List.append_cancel_left h) with ⟨d, rfl, ha⟩ | ⟨d, rfl, hb⟩
          · exact .inl ⟨d, rfl, ha⟩
          · exact .inr ⟨d, rfl, hb⟩

/-- A text that goes on behind a quote begins with no quoted quote. -/
theorem quote_ne_quoted {d r x : List Char} (hd : d ≠ []) (hr : r.head? ≠ some '"') :
    '\'' :: r ≠ d.flatMap quoteChar ++ x := by
  obtain ⟨c, d, rfl⟩ := List.exists_cons_of_ne_nil hd
  intro h
  by_cases hc : c = '\''
  · subst hc
    exact hr (congrArg List.head? (List.cons.inj h).2)
  · rw [List.flatMap_cons, quoteChar, if_neg hc] at h
    exact hc (List.cons.inj h).1.symm

/-- What is quoted begins with a text without quotes only where the word does. -/
theorem prefix_quoted {p w : List Char} (hp : '\'' ∉ p) (h : p <+: w.flatMap quoteChar) : p <+: w := by
  induction p generalizing w with
  | nil => exact List.nil_prefix
  | cons d p ih =>
      cases w with
      | nil => exact absurd (List.prefix_nil.mp h) (List.cons_ne_nil d p)
      | cons c w =>
          obtain ⟨more, hc⟩ := quoteChar_cons c
          have hdc : d = c := by
            rw [List.flatMap_cons, hc] at h
            exact (List.cons_prefix_cons.mp h).1
          have hne : c ≠ '\'' := fun heq => hp (heq ▸ hdc ▸ List.mem_cons_self)
          rw [List.flatMap_cons, quoteChar, if_neg hne, List.singleton_append] at h
          exact List.cons_prefix_cons.mpr ⟨hdc, ih (fun hmem => hp (List.mem_cons_of_mem d hmem))
            (List.cons_prefix_cons.mp h).2⟩

/-- What is quoted holds a text without quotes only where the word does. -/
theorem infix_quoted {p w : List Char} (hne : p ≠ []) (hp : '\'' ∉ p) (hp' : '"' ∉ p)
    (h : p <:+: w.flatMap quoteChar) : p <:+: w := by
  -- it does not begin at a quote
  have hskip : ∀ {q : Char} {s : List Char}, q ∉ p → p <:+: q :: s → p <:+: s := by
    intro q s hq hs
    rcases List.infix_cons_iff.mp hs with hs | hs
    · obtain ⟨d, p, rfl⟩ := List.exists_cons_of_ne_nil hne
      exact absurd ((List.cons_prefix_cons.mp hs).1 ▸ List.mem_cons_self) hq
    · exact hs
  induction w with
  | nil => exact absurd (List.infix_nil.mp h) hne
  | cons c w ih =>
      by_cases hc : c = '\''
      · subst hc
        have hrest := hskip hp (hskip hp' (hskip hp (hskip hp' (hskip hp h))))
        exact (ih hrest).trans (List.suffix_cons _ w).isInfix
      · have hcons : (c :: w).flatMap quoteChar = c :: w.flatMap quoteChar := by
          rw [List.flatMap_cons, quoteChar, if_neg hc, List.singleton_append]
        rw [hcons] at h
        rcases List.infix_cons_iff.mp h with h | h
        · rw [← hcons] at h
          exact (prefix_quoted hp h).isInfix
        · exact (ih h).trans (List.suffix_cons _ w).isInfix

example : split "CC='ccache gcc' W=1 X=\\ y".toList =
    .ok ["CC=ccache gcc".toList, "W=1".toList, "X= y".toList] := by decide

end Shlex

end Py
