/-
# `Py.Text` — the string methods, over lists of characters

Python's `str` methods as functions on `List Char`, with `String` wrappers where
a model needs one.  All of them are structural recursions or list functions, so
they evaluate in the kernel.

`isSpace` is the set `str.isspace` accepts and `str.strip` strips (every
character of bidirectional type WS, B or S, or of category Zs); `isLineBreak`
is the set `str.splitlines` breaks at.  What else counts as a digit or a letter
for `re` is Python's Unicode table, a parameter (`Unicode`).
-/
import Mathlib.Data.List.DropRight
import Mathlib.Data.List.Infix

namespace Py

/-- A resolved absolute path, as its components. -/
abbrev Path := List String

/-- The character classes of `re`: the value of a `\d`, and `\w`. -/
structure Unicode where
  digit? : Char → Option ℕ
  isWord : Char → Bool

/-- The digits and letters of ASCII, and the underscore. -/
def Unicode.ascii : Unicode :=
  ⟨fun c => if c.isDigit then some (c.toNat - 48) else none, fun c => c.isAlphanum || c = '_'⟩

/-- Below 128 the classes are those of ASCII. -/
def Unicode.Ascii (u : Unicode) : Prop :=
  ∀ c : Char, c.toNat < 128 → u.digit? c = Unicode.ascii.digit? c ∧
    u.isWord c = Unicode.ascii.isWord c

/-- Named, so that every definition that looks for a text in a list has the same one. -/
instance lawfulBEqListChar : LawfulBEq (List Char) := inferInstance

instance lawfulBEqPath : LawfulBEq (List String) := inferInstance

/-- What holds of the characters of a text is tested on these, not on all characters. -/
instance (priority := high) decidableCharsOf (p : Char → Prop) [DecidablePred p] (s : List Char) :
    Decidable (∀ c ∈ s, p c) := List.decidableBAll p s

namespace Text

/-- `c.isspace()`. -/
def isSpace (c : Char) : Bool :=
  c.toNat ∈ [0x09, 0x0a, 0x0b, 0x0c, 0x0d, 0x1c, 0x1d, 0x1e, 0x1f, 0x20, 0x85, 0xa0,
    0x1680, 0x2000, 0x2001, 0x2002, 0x2003, 0x2004, 0x2005, 0x2006, 0x2007, 0x2008,
    0x2009, 0x200a, 0x2028, 0x2029, 0x202f, 0x205f, 0x3000]

/-- A character `splitlines` ends a line at. -/
def isLineBreak (c : Char) : Bool :=
  c.toNat ∈ [0x0a, 0x0b, 0x0c, 0x0d, 0x1c, 0x1d, 0x1e, 0x85, 0x2028, 0x2029]

/-- `s.strip(chars)`, the characters given by their predicate. -/
def stripBy (p : Char → Bool) (s : List Char) : List Char :=
  ((s.dropWhile p).reverse.dropWhile p).reverse

/-- `s.strip()`. -/
def strip (s : List Char) : List Char := stripBy isSpace s

/-- `s.rstrip(chars)`. -/
def rstripBy (p : Char → Bool) (s : List Char) : List Char := (s.reverse.dropWhile p).reverse

/-- `s.split(c)`. -/
def split (c : Char) : List Char → List (List Char)
  | [] => [[]]
  | x :: xs =>
      if x = c then [] :: split c xs
      else match split c xs with
        | [] => [[x]]
        | w :: ws => (x :: w) :: ws

/-- `s.split()`: the words between white space. -/
def words (s : List Char) : List (List Char) :=
  (split ' ' (s.map fun c => if isSpace c then ' ' else c)).filter (· ≠ [])

/-- `s.splitlines()`: `\r\n` is one break, and a final break starts no line. -/
def splitlines : List Char → List (List Char)
  | [] => []
  | ['\r', '\n'] => [[]]
  | '\r' :: '\n' :: xs => [] :: splitlines xs
  | x :: xs =>
      if isLineBreak x then [] :: splitlines xs
      else match splitlines xs with
        | [] => [[x]]
        | w :: ws => (x :: w) :: ws

/-- `needle in s`. -/
def isInfix (needle : List Char) : List Char → Bool
  | [] => needle.isEmpty
  | x :: xs => needle.isPrefixOf (x :: xs) || isInfix needle xs

/-- `s.split()[0]`, when `s` has a word. -/
def firstWord (s : List Char) : List Char :=
  (s.dropWhile isSpace).takeWhile (fun c => !isSpace c)

/-- `s.rsplit(c, 1)[-1]`: what follows the last `c`. -/
def afterLast (c : Char) (s : List Char) : List Char := (s.reverse.takeWhile (· ≠ c)).reverse

/-- The digits a text begins with. -/
def leadingDigits (u : Unicode) (cs : List Char) : List Char :=
  cs.takeWhile fun c => (u.digit? c).isSome

/-- `int(s)` of a text of digits. -/
def digitsToNat (u : Unicode) (cs : List Char) : ℕ :=
  (cs.filterMap u.digit?).foldl (fun n d => 10 * n + d) 0

/-- The number a text begins with. -/
def leadingNat (u : Unicode) (cs : List Char) : Option ℕ :=
  match leadingDigits u cs with
  | [] => none
  | ds => some (digitsToNat u ds)

/-- `repr(s)`: double quotes only around a text that has a single quote and no
double one. -/
def repr (s : String) : String :=
  let q := if '\'' ∈ s.toList ∧ '"' ∉ s.toList then '"' else '\''
  String.ofList (q :: (s.toList.flatMap fun c =>
    if c = q ∨ c = '\\' then ['\\', c]
    else if c = '\n' then ['\\', 'n']
    else if c = '\t' then ['\\', 't']
    else if c = '\r' then ['\\', 'r']
    else [c]) ++ [q])

/-- `sep.join(xs)`. -/
def join (sep : String) (xs : List String) : String := sep.intercalate xs

theorem isInfix_iff (needle s : List Char) : isInfix needle s = true ↔ needle <:+: s := by
  induction s with
  | nil => simp [isInfix, List.infix_nil]
  | cons x xs ih => simp [isInfix, List.infix_cons_iff, ih]

/-- A text that holds a character the needle lacks holds the needle on one side of it. -/
theorem infix_split {p a b : List Char} {c : Char} (hc : c ∉ p) (h : p <:+: a ++ c :: b) :
    p <:+: a ∨ p <:+: b := by
  obtain ⟨s, t, h⟩ := h
  rcases List.append_eq_append_iff.mp h with ⟨m, ha, -⟩ | ⟨m, hs, hb⟩
  · exact .inl ⟨s, m, ha.symm⟩
  · cases m with
    | nil => exact .inl ⟨s, [], by rw [hs, List.append_nil, List.append_nil]⟩
    | cons x m =>
        obtain ⟨rfl, rfl⟩ := List.cons.inj hb
        rcases List.append_eq_append_iff.mp hs with ⟨n, -, hp⟩ | ⟨n, hs', hp⟩
        · exact absurd (hp ▸ List.mem_append_right _ List.mem_cons_self) hc
        · cases n with
          | nil =>
              have hp' : c :: m = p := hp
              exact absurd (hp' ▸ List.mem_cons_self) hc
          | cons y n =>
              have hm : m = n ++ p := (List.cons.inj hp).2
              rw [hm]
              exact .inr ⟨n, t, rfl⟩

/-- What stands in front of a text and shares no character with a needle holds none of it. -/
theorem infix_of_front {P : Char → Bool} {p ws b : List Char} (hp : p ≠ [])
    (hclean : ∀ c ∈ p, P c = false) (hws : ∀ c ∈ ws, P c = true) : p <:+: ws ++ b ↔ p <:+: b := by
  induction ws with
  | nil => rfl
  | cons c ws ih =>
      have hc : c ∉ p := fun hmem => by
        have hb := hws c List.mem_cons_self
        rw [hclean c hmem] at hb
        cases hb
      rw [← ih fun x hx => hws x (List.mem_cons_of_mem _ hx)]
      constructor
      · intro h
        rcases infix_split (a := []) hc h with h | h
        · exact absurd (List.infix_nil.mp h) hp
        · exact h
      · intro h
        exact h.trans (List.suffix_cons c _).isInfix

/-- Nor does what stands behind it. -/
theorem infix_of_back {P : Char → Bool} {p ws b : List Char} (hp : p ≠ [])
    (hclean : ∀ c ∈ p, P c = false) (hws : ∀ c ∈ ws, P c = true) : p <:+: b ++ ws ↔ p <:+: b := by
  rw [← List.reverse_infix, List.reverse_append, infix_of_front (mt List.reverse_eq_nil_iff.mp hp)
    (fun c hc => hclean c (List.mem_reverse.mp hc)) fun c hc => hws c (List.mem_reverse.mp hc),
    List.reverse_infix]

/-- What follows the last `c` is behind a `c`. -/
theorem afterLast_append {c : Char} {ys : List Char} (h : c ∉ ys) (xs : List Char) :
    afterLast c (xs ++ c :: ys) = ys := by
  have hys : ∀ x ∈ ys.reverse, decide (x ≠ c) = true := by
    intro x hx
    rw [decide_eq_true_eq]
    rintro rfl
    exact h (List.mem_reverse.mp hx)
  rw [afterLast, List.reverse_append, List.reverse_cons, List.append_assoc,
    List.takeWhile_append_of_pos hys, List.singleton_append,
    List.takeWhile_cons_of_neg (by simp), List.append_nil, List.reverse_reverse]

theorem not_mem_afterLast (c : Char) (s : List Char) : c ∉ afterLast c s := by
  intro hmem
  have htake := List.mem_takeWhile_imp (List.mem_reverse.mp hmem)
  exact of_decide_eq_true htake rfl

theorem afterLast_of_not_mem {c : Char} {s : List Char} (h : c ∉ s) : afterLast c s = s := by
  have hall : ∀ x ∈ s.reverse, decide (x ≠ c) = true := by
    intro x hx
    rw [decide_eq_true_eq]
    rintro rfl
    exact h (List.mem_reverse.mp hx)
  rw [afterLast, List.takeWhile_eq_self_iff.mpr hall, List.reverse_reverse]

/-- A text that has a `c` is what is in front of the last one, that one and what follows. -/
theorem afterLast_split {c : Char} {s : List Char} (h : c ∈ s) :
    ∃ front, s = front ++ c :: afterLast c s := by
  induction s using List.reverseRecOn with
  | nil => exact absurd h List.not_mem_nil
  | append_singleton s x ih =>
      by_cases hx : x = c
      · refine ⟨s, ?_⟩
        rw [← hx, afterLast_append List.not_mem_nil]
      · have hmem : c ∈ s :=
          (List.mem_append.mp h).resolve_right fun hc => hx (List.mem_singleton.mp hc).symm
        obtain ⟨front, hs⟩ := ih hmem
        have hlast : afterLast c (s ++ [x]) = afterLast c s ++ [x] := by
          rw [afterLast, List.reverse_append, List.reverse_singleton, List.singleton_append,
            List.takeWhile_cons_of_pos (by simpa using hx), List.reverse_cons, afterLast]
        refine ⟨front, ?_⟩
        rw [hlast, ← List.cons_append, ← List.append_assoc, ← hs]

/-- Splitting never gives the empty list: `"".split(c)` is `[""]`. -/
theorem split_ne_nil (c : Char) (s : List Char) : split c s ≠ [] := by
  cases s with
  | nil => simp [split]
  | cons x xs =>
      unfold split
      by_cases h : x = c
      · simp [h]
      · rw [if_neg h]
        cases split c xs <;> simp

/-- A separator splits on both of its sides. -/
theorem split_sep (c : Char) (xs ys : List Char) :
    split c (xs ++ c :: ys) = split c xs ++ split c ys := by
  induction xs with
  | nil =>
      show split c (c :: ys) = [] :: split c ys
      rw [split, if_pos rfl]
  | cons x xs ih =>
      rw [List.cons_append, split, split, ih]
      split
      · rfl
      · obtain ⟨w, ws, hw⟩ := List.exists_cons_of_ne_nil (split_ne_nil c xs)
        rw [hw]
        rfl

/-- A line, its break and the rest. -/
theorem splitlines_line {line : List Char} (h : ∀ ch ∈ line, isLineBreak ch = false)
    (rest : List Char) : splitlines (line ++ '\n' :: rest) = line :: splitlines rest := by
  induction line with
  | nil =>
      rw [List.nil_append, splitlines]
      · rfl
      · simp
      · simp
  | cons x xs ih =>
      have hx := h x List.mem_cons_self
      have hne : x ≠ '\r' := by
        rintro rfl
        revert hx
        decide
      rw [List.cons_append, splitlines, ih (fun ch hc => h ch (List.mem_cons_of_mem _ hc)), hx]
      · rfl
      · simp [hne]
      · simp [hne]

/-- No line holds a break. -/
theorem splitlines_noBreak (s : List Char) :
    ∀ line ∈ splitlines s, ∀ c ∈ line, isLineBreak c = false := by
  induction s using splitlines.induct with
  | case1 => simp [splitlines]
  | case2 => simp [splitlines]
  | case3 xs hxs ih =>
      rw [splitlines]
      · intro line hline
        rcases List.mem_cons.mp hline with rfl | hline
        · simp
        · exact ih line hline
      · exact hxs
  | case4 x xs h₁ h₂ hbreak ih =>
      rw [splitlines, if_pos hbreak]
      · intro line hline
        rcases List.mem_cons.mp hline with rfl | hline
        · simp
        · exact ih line hline
      · exact h₁
      · exact h₂
  | case5 x xs h₁ h₂ hbreak hnil ih =>
      rw [splitlines, if_neg hbreak, hnil]
      · intro line hline c hc
        rw [List.mem_singleton.mp hline, List.mem_singleton] at hc
        rw [hc]
        exact Bool.eq_false_iff.mpr hbreak
      · exact h₁
      · exact h₂
  | case6 x xs h₁ h₂ hbreak w ws hcons ih =>
      rw [splitlines, if_neg hbreak, hcons]
      · rw [hcons] at ih
        intro line hline c hc
        rcases List.mem_cons.mp hline with rfl | hline
        · rcases List.mem_cons.mp hc with rfl | hc
          · exact Bool.eq_false_iff.mpr hbreak
          · exact ih w List.mem_cons_self c hc
        · exact ih line (List.mem_cons_of_mem w hline) c hc
      · exact h₁
      · exact h₂

/-- Stripping adds nothing. -/
theorem strip_subset (s : List Char) : strip s ⊆ s := by
  intro c hc
  rw [strip, stripBy, List.mem_reverse] at hc
  have h := (List.dropWhile_suffix (l := ((s.dropWhile isSpace).reverse)) isSpace).subset hc
  exact (List.dropWhile_suffix isSpace).subset (List.mem_reverse.mp h)

/-- One more text changes a joined text, unless it is the first and empty. -/
theorem join_snoc_eq_iff (xs : List String) (x : String) :
    join "\n" (xs ++ [x]) = join "\n" xs ↔ xs = [] ∧ x = "" := by
  cases xs with
  | nil => simp [join]
  | cons y ys =>
      refine ⟨fun h => ?_, fun h => by cases h.1⟩
      have hlen := congrArg String.length h
      unfold join at hlen
      rw [String.intercalate_append_of_ne_nil (by simp) (by simp), String.length_append,
        String.length_append] at hlen
      have hsep : "\n".length = 1 := by decide
      omega

/-! ## Stripping the end of a text -/

theorem rstripBy_append (p : Char → Bool) (s t : List Char) :
    rstripBy p (s ++ t) = if rstripBy p t = [] then rstripBy p s else s ++ rstripBy p t := by
  unfold rstripBy
  rw [List.reverse_append, List.dropWhile_append]
  by_cases h : t.reverse.dropWhile p = []
  · simp [h]
  · simp [h]

theorem rstripBy_cons (p : Char → Bool) (c : Char) (s : List Char) :
    rstripBy p (c :: s) =
      if rstripBy p s = [] then (if p c then [] else [c]) else c :: rstripBy p s := by
  rw [← List.singleton_append, rstripBy_append]
  unfold rstripBy
  by_cases hc : p c = true
  · simp [hc]
  · simp [hc]

theorem rstripBy_idem (p : Char → Bool) (s : List Char) :
    rstripBy p (rstripBy p s) = rstripBy p s :=
  List.rdropWhile_idempotent p s

/-- The blanks at the end of a line are gone after `strip` in any case. -/
theorem strip_rstrip (s : List Char) : strip (rstripBy isSpace s) = strip s := by
  have hstrip : ∀ t, strip t = rstripBy isSpace (t.dropWhile isSpace) := fun _ => rfl
  induction s with
  | nil => rfl
  | cons c s ih =>
      rw [hstrip (c :: s)]
      by_cases hc : isSpace c = true
      · -- a blank at the front goes either way
        rw [List.dropWhile_cons_of_pos hc, ← hstrip, ← ih, rstripBy_cons, if_pos hc]
        by_cases hs : rstripBy isSpace s = []
        · rw [if_pos hs, hs]
        · rw [if_neg hs, hstrip, hstrip, List.dropWhile_cons_of_pos hc]
      · -- from the first other character on, only the end matters
        rw [List.dropWhile_cons_of_neg hc, hstrip]
        have hfirst : (rstripBy isSpace (c :: s)).dropWhile isSpace =
            rstripBy isSpace (c :: s) := by
          rw [rstripBy_cons, if_neg hc]
          by_cases hs : rstripBy isSpace s = []
          · rw [if_pos hs, List.dropWhile_cons_of_neg hc]
          · rw [if_neg hs, List.dropWhile_cons_of_neg hc]
        rw [hfirst, rstripBy_idem]

theorem strip_idem (s : List Char) : strip (strip s) = strip s := by
  have hstrip : ∀ t, strip t = rstripBy isSpace (t.dropWhile isSpace) := fun _ => rfl
  rw [hstrip s, strip_rstrip, hstrip, List.dropWhile_idempotent]

/-! ## Stripping both ends -/

theorem dropWhile_of_head {p : Char → Bool} {s : List Char}
    (h : ∀ c, s.head? = some c → p c = false) : s.dropWhile p = s := by
  cases s with
  | nil => rfl
  | cons c s => rw [List.dropWhile_cons_of_neg (Bool.eq_false_iff.mp (h c rfl))]

theorem stripBy_subset (p : Char → Bool) (s : List Char) : stripBy p s ⊆ s :=
  fun _ hc => (List.dropWhile_suffix p).subset ((List.rdropWhile_prefix p _).subset hc)

/-- A stripped text begins with nothing to strip. -/
theorem head_stripBy {p : Char → Bool} {s : List Char} {c : Char}
    (h : (stripBy p s).head? = some c) : p c = false := by
  obtain ⟨t, ht⟩ : stripBy p s <+: s.dropWhile p := List.rdropWhile_prefix p _
  have hhead : (s.dropWhile p).head? = some c := by
    rw [← ht, List.head?_append, h]
    rfl
  have hnot := List.head?_dropWhile_not p s
  rw [hhead] at hnot
  exact hnot

/-- A text with nothing to strip at its ends. -/
theorem stripBy_of_ends {p : Char → Bool} {s : List Char}
    (hfirst : ∀ c, s.head? = some c → p c = false)
    (hlast : ∀ c, s.getLast? = some c → p c = false) : stripBy p s = s := by
  have hback : ∀ c, s.reverse.head? = some c → p c = false := fun c hc =>
    hlast c (by rw [← List.head?_reverse]; exact hc)
  rw [stripBy, dropWhile_of_head hfirst, dropWhile_of_head hback, List.reverse_reverse]

/-- A text put between two characters to strip. -/
theorem stripBy_between {p : Char → Bool} {a b : Char} {s : List Char} (ha : p a = true)
    (hb : p b = true) (hfirst : ∀ c, s.head? = some c → p c = false)
    (hlast : ∀ c, s.getLast? = some c → p c = false) : stripBy p (a :: s ++ [b]) = s := by
  have hback : ∀ c, s.reverse.head? = some c → p c = false := fun c hc =>
    hlast c (by rw [← List.head?_reverse]; exact hc)
  have hone : (b :: s.reverse).dropWhile p = s.reverse := by
    rw [List.dropWhile_cons_of_pos hb, dropWhile_of_head hback]
  rw [stripBy, List.cons_append, List.dropWhile_cons_of_pos ha]
  cases s with
  | nil => simp [hb]
  | cons c s =>
      have hc : p c = false := hfirst c rfl
      rw [List.cons_append, List.dropWhile_cons_of_neg (Bool.eq_false_iff.mp hc),
        ← List.cons_append, List.reverse_append, List.reverse_singleton, List.singleton_append, hone,
        List.reverse_reverse]

/-! ## Lines joined and split again -/

theorem toList_join (xs : List (List Char)) :
    (join "\n" (xs.map String.ofList)).toList = ['\n'].intercalate xs := by
  unfold join
  rw [String.toList_intercalate, List.map_map]
  have hid : String.toList ∘ String.ofList = id := by
    funext cs
    exact String.toList_ofList
  rw [hid, List.map_id]
  rfl

/-- Lines that each end in a break, and a last piece. -/
theorem splitlines_lines {ls : List (List Char)}
    (h : ∀ line ∈ ls, ∀ c ∈ line, isLineBreak c = false) (rest : List Char) :
    splitlines (ls.flatMap (· ++ ['\n']) ++ rest) = ls ++ splitlines rest := by
  induction ls with
  | nil => rfl
  | cons l ls ih =>
      obtain ⟨hl, hls⟩ := List.forall_mem_cons.mp h
      rw [List.flatMap_cons, List.append_assoc, List.append_assoc, List.singleton_append,
        splitlines_line hl, ih hls, List.cons_append]

theorem mem_join {sep : List Char} {ls : List (List Char)} {l : List Char} {c : Char} (hl : l ∈ ls)
    (hc : c ∈ l) : c ∈ sep.intercalate ls := by
  induction ls with
  | nil => exact absurd hl List.not_mem_nil
  | cons x ls ih =>
      cases ls with
      | nil => rwa [List.intercalate_singleton, ← List.mem_singleton.mp hl]
      | cons y ls =>
          rw [List.intercalate_cons_cons, List.mem_append, List.mem_append]
          rcases List.mem_cons.mp hl with rfl | hl
          · exact .inl (.inl hc)
          · exact .inr (ih hl)

/-- Joined pieces have no character but theirs and the separator. -/
theorem of_mem_join {sep c : Char} {ls : List (List Char)} (h : c ∈ [sep].intercalate ls) :
    c = sep ∨ ∃ l ∈ ls, c ∈ l := by
  induction ls with
  | nil => exact absurd h List.not_mem_nil
  | cons x ls ih =>
      cases ls with
      | nil =>
          rw [List.intercalate_singleton] at h
          exact .inr ⟨x, List.mem_cons_self, h⟩
      | cons y ls =>
          rw [List.intercalate_cons_cons, List.mem_append, List.mem_append,
            List.mem_singleton] at h
          rcases h with (h | h) | h
          · exact .inr ⟨x, List.mem_cons_self, h⟩
          · exact .inl h
          · exact (ih h).imp_right fun ⟨l, hl, hc⟩ => ⟨l, List.mem_cons_of_mem x hl, hc⟩

theorem intercalate_snoc (ls : List (List Char)) (x : List Char) :
    ['\n'].intercalate (ls ++ [x]) = ls.flatMap (· ++ ['\n']) ++ x := by
  induction ls with
  | nil => simp [List.intercalate]
  | cons l ls ih =>
      rw [List.cons_append, List.intercalate_cons_of_ne_nil (by simp), ih, List.flatMap_cons,
        List.append_assoc, List.append_assoc, List.append_assoc]

/-- A scan that reads only the stripped line and passes over blank ones. -/
structure ReadsStripped {β : Type*} (f : β → List Char → β) : Prop where
  strip : ∀ acc line, f acc (Text.strip line) = f acc line
  blank : ∀ acc, f acc [] = acc

/-- Joining lines, dropping the blanks at the end of the text and splitting it
again gives such a scan the same lines. -/
theorem foldl_reflow {β : Type*} {f : β → List Char → β} (hf : ReadsStripped f)
    {ls : List (List Char)} (h : ∀ line ∈ ls, ∀ c ∈ line, isLineBreak c = false) (acc : β) :
    (splitlines (rstripBy isSpace (['\n'].intercalate ls) ++ ['\n'])).foldl f acc =
      ls.foldl f acc := by
  have hblank : ∀ b line, Text.strip line = [] → f b line = b := by
    intro b line hline
    rw [← hf.strip, hline, hf.blank]
  induction ls using List.reverseRecOn with
  | nil => exact hf.blank acc
  | append_singleton ls x ih =>
      have hls := fun line hm => h line (List.mem_append_left _ hm)
      have hx := h x (List.mem_append_right _ List.mem_cons_self)
      rw [intercalate_snoc, rstripBy_append, List.foldl_append, List.foldl_cons, List.foldl_nil]
      by_cases hblankLine : rstripBy isSpace x = []
      · -- a blank last line goes, and with it the break before it
        rw [if_pos hblankLine, hblank _ x (by rw [← strip_rstrip, hblankLine]; rfl), ← ih hls]
        congr 3
        cases ls using List.reverseRecOn with
        | nil => rfl
        | append_singleton ls y =>
            rw [intercalate_snoc, List.flatMap_append, List.flatMap_singleton, ← List.append_assoc,
              rstripBy_append]
            rfl
      · have hclean : ∀ c ∈ rstripBy isSpace x, isLineBreak c = false :=
          fun c hc => hx c ((List.rdropWhile_prefix isSpace x).subset hc)
        rw [if_neg hblankLine, List.append_assoc, splitlines_lines hls, splitlines_line hclean,
          List.foldl_append]
        have hlast : f (ls.foldl f acc) (rstripBy isSpace x) = f (ls.foldl f acc) x := by
          rw [← hf.strip, strip_rstrip, hf.strip]
        exact hlast

/-! ## Paths -/

/-- The components of a path text; empty ones and `.` name nothing. -/
def components (s : String) : List String :=
  ((split '/' s.toList).map String.ofList).filter (fun c => c ≠ "" ∧ c ≠ ".")

/-- Follow the components of a path from the directory `base`. -/
def walk (base : Path) (cs : List String) : Path :=
  cs.foldl (fun acc c => if c = ".." then acc.dropLast else acc ++ [c]) base

/-- `(root / name).resolve()` where no directory on the way is a symbolic link:
an absolute name replaces the root. -/
def resolve (root : Path) (name : String) : Path :=
  if name.toList.head? = some '/' then walk [] (components name)
  else walk root (components name)

/-- `root in path.parents`. -/
def below (root path : Path) : Bool := root.isPrefixOf path && root.length < path.length

end Text

end Py
