/-
# `Py.Contents` — the lines of a text that say something

Many readers of line-based text strip each line and pass over the blank ones.
To such a reader (`ReadsStripped`) a text is its `contents`: the stripped lines
less the blank ones.  Contents split at a line break (`contents_append`), and
blanks at either end of a text or a line do not count, so an edit of a text can
be followed line by line with no account of where its white space lies.  Words
joined by a space are read back (`words_join`).
-/
import KdevopsNg.Py.Lines
import KdevopsNg.Py.Path

namespace Py

namespace Text

/-- The lines of a text, stripped, less the blank ones. -/
def contents (s : List Char) : List (List Char) := ((splitlines s).map strip).filter (· ≠ [])

/-- A scan that reads stripped lines reads the contents. -/
theorem foldl_contents {β : Type*} {f : β → List Char → β} (hf : ReadsStripped f)
    (s : List Char) (acc : β) : (splitlines s).foldl f acc = (contents s).foldl f acc := by
  rw [contents]
  induction splitlines s generalizing acc with
  | nil => rfl
  | cons l ls ih =>
      rw [List.foldl_cons, List.map_cons, ih]
      by_cases hl : strip l = []
      · rw [List.filter_cons_of_neg (by simpa using hl), ← hf.strip, hl, hf.blank]
      · rw [List.filter_cons_of_pos (by simpa using hl), List.foldl_cons, hf.strip]

/-! ## Line breaks -/

theorem isSpace_of_isLineBreak {c : Char} (h : isLineBreak c = true) : isSpace c = true := by
  rw [isLineBreak, decide_eq_true_eq] at h
  rw [isSpace, decide_eq_true_eq]
  simp only [List.mem_cons, List.not_mem_nil, or_false] at h ⊢
  omega

/-- `\r\n` is one break. -/
theorem splitlines_crlf (s : List Char) : splitlines ('\r' :: '\n' :: s) = [] :: splitlines s := by
  cases s with
  | nil => rfl
  | cons c s => rw [splitlines]; simp

/-- Any other break is one by itself. -/
theorem splitlines_break {c : Char} (hc : isLineBreak c = true) {s : List Char}
    (hno : c = '\r' → s.head? ≠ some '\n') : splitlines (c :: s) = [] :: splitlines s := by
  rw [splitlines, if_pos hc]
  · rintro rfl rfl
    exact hno rfl rfl
  · rintro t rfl rfl
    exact hno rfl rfl

/-- Another character belongs to the first line. -/
theorem splitlines_cons {c : Char} (hc : isLineBreak c = false) (s : List Char) :
    splitlines (c :: s) = (c :: (splitlines s).headD []) :: (splitlines s).tail := by
  have hne : c ≠ '\r' := by
    rintro rfl
    revert hc
    decide
  rw [splitlines, if_neg (by rw [hc]; decide)]
  · cases splitlines s <;> rfl
  · exact fun h => absurd h hne
  · exact fun _ h => absurd h hne

/-- A text of one line, and nothing. -/
theorem splitlines_oneLine {s : List Char} (h : OneLine s) :
    splitlines s = if s = [] then [] else [s] := by
  induction s with
  | nil => rfl
  | cons c s ih =>
      rw [splitlines_cons (h c List.mem_cons_self), ih fun x hx => h x (List.mem_cons_of_mem c hx),
        if_neg (List.cons_ne_nil c s)]
      cases s <;> rfl

/-- A text is of one line, or a break follows its first line. -/
theorem exists_first_line (s : List Char) :
    OneLine s ∨ ∃ l c x, s = l ++ c :: x ∧ isLineBreak c = true ∧ OneLine l := by
  induction s with
  | nil => exact .inl nofun
  | cons c s ih =>
      by_cases hc : isLineBreak c = true
      · exact .inr ⟨[], c, s, rfl, hc, nofun⟩
      · rcases ih with hone | ⟨l, b, x, rfl, hb, hl⟩
        · exact .inl (hone.cons (Bool.eq_false_iff.mpr hc))
        · exact .inr ⟨c :: l, b, x, rfl, hb, hl.cons (Bool.eq_false_iff.mpr hc)⟩

/-- A text is of one line, or its last line follows a break. -/
theorem exists_last_line (s : List Char) :
    OneLine s ∨ ∃ x c l, s = x ++ c :: l ∧ isLineBreak c = true ∧ OneLine l := by
  induction s with
  | nil => exact .inl nofun
  | cons c s ih =>
      rcases ih with hone | ⟨x, b, l, rfl, hb, hl⟩
      · by_cases hc : isLineBreak c = true
        · exact .inr ⟨[], c, s, rfl, hc, hone⟩
        · exact .inl (hone.cons (Bool.eq_false_iff.mpr hc))
      · exact .inr ⟨c :: x, b, l, rfl, hb, hl⟩

/-! ## White space -/

theorem strip_cons_space {c : Char} (hc : isSpace c = true) (s : List Char) :
    strip (c :: s) = strip s := by
  rw [strip, stripBy, List.dropWhile_cons_of_pos hc, strip, stripBy]

theorem strip_append_space {c : Char} (hc : isSpace c = true) (s : List Char) :
    strip (s ++ [c]) = strip s := by
  rw [← strip_rstrip, rstripBy_append, if_pos (by simp [rstripBy, hc]), strip_rstrip]

/-- A text is its stripped text between white space. -/
theorem strip_parts (s : List Char) : ∃ ws ws', s = ws ++ (strip s ++ ws') ∧
    (∀ c ∈ ws, isSpace c = true) ∧ ∀ c ∈ ws', isSpace c = true := by
  refine ⟨s.takeWhile isSpace, (List.takeWhile isSpace (s.dropWhile isSpace).reverse).reverse, ?_,
    fun c hc => List.mem_takeWhile_imp hc,
    fun c hc => List.mem_takeWhile_imp (List.mem_reverse.mp hc)⟩
  rw [strip, stripBy, ← List.reverse_append, List.takeWhile_append_dropWhile, List.reverse_reverse,
    List.takeWhile_append_dropWhile]

/-- What a list of lines says. -/
theorem contents_eq {s : List Char} {ls : List (List Char)} (h : splitlines s = ls) :
    contents s = (ls.map strip).filter (· ≠ []) := by rw [contents, h]

@[simp] theorem contents_nil : contents [] = [] := rfl

/-- White space at the front is no part of the contents. -/
theorem contents_cons_space {c : Char} (hc : isSpace c = true) (s : List Char) :
    contents (c :: s) = contents s := by
  by_cases hbreak : isLineBreak c = true
  · by_cases hcrlf : c = '\r' ∧ s.head? = some '\n'
    · obtain ⟨rfl, hs⟩ := hcrlf
      obtain ⟨t, rfl⟩ := List.head?_eq_some_iff.mp hs
      rw [contents_eq (splitlines_crlf t), contents_eq (splitlines_break (by decide) fun h => absurd h (by decide))]
    · rw [contents_eq (splitlines_break hbreak fun h hs => hcrlf ⟨h, hs⟩)]
      rfl
  · rw [contents_eq (splitlines_cons (Bool.eq_false_iff.mpr hbreak) s), List.map_cons,
      strip_cons_space hc, contents]
    cases splitlines s <;> rfl

theorem contents_space_append {ws : List Char} (h : ∀ c ∈ ws, isSpace c = true) (s : List Char) :
    contents (ws ++ s) = contents s := by
  induction ws with
  | nil => rfl
  | cons c ws ih =>
      rw [List.cons_append, contents_cons_space (h c List.mem_cons_self),
        ih fun x hx => h x (List.mem_cons_of_mem c hx)]

/-- A text of one line says that line, if anything. -/
theorem contents_oneLine {s : List Char} (h : OneLine s) :
    contents s = if strip s = [] then [] else [strip s] := by
  rw [contents_eq (splitlines_oneLine h)]
  by_cases hs : s = []
  · subst hs
    rfl
  · rw [if_neg hs]
    by_cases hstrip : strip s = []
    · simp [hstrip]
    · simp [hstrip]

/-- The line before a break, and then what the rest says. -/
theorem splitlines_line_break {l : List Char} (hl : OneLine l) {c : Char}
    (hc : isLineBreak c = true) (s : List Char) :
    ∃ ls, splitlines (l ++ c :: s) = l :: ls ∧ (ls.map strip).filter (· ≠ []) = contents s := by
  induction l with
  | nil =>
      by_cases hcrlf : c = '\r' ∧ s.head? = some '\n'
      · obtain ⟨rfl, hs⟩ := hcrlf
        obtain ⟨t, rfl⟩ := List.head?_eq_some_iff.mp hs
        exact ⟨_, splitlines_crlf t, (contents_cons_space (by decide) t).symm⟩
      · exact ⟨_, splitlines_break hc fun h hs => hcrlf ⟨h, hs⟩, rfl⟩
  | cons x l ih =>
      obtain ⟨ls, hls, hrest⟩ := ih fun y hy => hl y (List.mem_cons_of_mem x hy)
      exact ⟨ls, by rw [List.cons_append, splitlines_cons (hl x List.mem_cons_self), hls]; rfl, hrest⟩

theorem contents_line_break {l : List Char} (hl : OneLine l) {c : Char}
    (hc : isLineBreak c = true) (s : List Char) :
    contents (l ++ c :: s) = contents l ++ contents s := by
  obtain ⟨ls, hls, hrest⟩ := splitlines_line_break hl hc s
  rw [contents_eq hls, contents_oneLine hl, List.map_cons, List.filter_cons, hrest]
  by_cases hstrip : strip l = []
  · simp [hstrip]
  · simp [hstrip]

/-- Contents split at a line break. -/
theorem contents_append (x : List Char) {c : Char} (hc : isLineBreak c = true) (s : List Char) :
    contents (x ++ c :: s) = contents x ++ contents s := by
  induction hn : x.length using Nat.strong_induction_on generalizing x s with
  | _ n ih =>
    rcases exists_first_line x with hone | ⟨l, b, y, rfl, hb, hl⟩
    · exact contents_line_break hone hc s
    · have hy : y.length < n := by
        rw [← hn]
        simp
        omega
      rw [List.append_assoc, List.cons_append, contents_line_break hl hb, ih y.length hy y s rfl,
        contents_line_break hl hb, List.append_assoc]

/-- A break that a text begins with splits it from what is before. -/
theorem contents_append_of_break (x : List Char) {s : List Char}
    (hs : s = [] ∨ ∃ c t, s = c :: t ∧ isLineBreak c = true) :
    contents (x ++ s) = contents x ++ contents s := by
  rcases hs with rfl | ⟨c, t, rfl, hc⟩
  · simp
  · rw [contents_append x hc, contents_cons_space (isSpace_of_isLineBreak hc)]

/-- White space at the end is no part of the contents. -/
theorem contents_append_space {ws : List Char} (h : ∀ c ∈ ws, isSpace c = true) (s : List Char) :
    contents (s ++ ws) = contents s := by
  induction ws using List.reverseRecOn with
  | nil => rw [List.append_nil]
  | append_singleton ws c ih =>
      have hc := h c (List.mem_append_right _ (List.mem_singleton_self c))
      rw [← List.append_assoc, ← ih fun x hx => h x (List.mem_append_left _ hx)]
      by_cases hbreak : isLineBreak c = true
      · rw [contents_append _ hbreak, contents_nil, List.append_nil]
      · have hc' : OneLine [c] := OneLine.cons (Bool.eq_false_iff.mpr hbreak) nofun
        have hline : ∀ l, OneLine l → contents (l ++ [c]) = contents l := fun l hl => by
          rw [contents_oneLine hl, contents_oneLine (hl.append hc'), strip_append_space hc]
        rcases exists_last_line (s ++ ws) with hone | ⟨x, b, l, heq, hb, hl⟩
        · exact hline _ hone
        · rw [heq, List.append_assoc, List.cons_append, contents_append x hb, contents_append x hb,
            hline l hl]

/-- A text is what is left when its end is stripped, and what was stripped. -/
theorem rstrip_parts (p : Char → Bool) (s : List Char) :
    ∃ ws, s = rstripBy p s ++ ws ∧ ∀ c ∈ ws, p c = true := by
  refine ⟨(s.reverse.takeWhile p).reverse, ?_,
    fun c hc => List.mem_takeWhile_imp (List.mem_reverse.mp hc)⟩
  rw [rstripBy, ← List.reverse_append, List.takeWhile_append_dropWhile, List.reverse_reverse]

theorem contents_rstripBy {p : Char → Bool} (hp : ∀ c, p c = true → isSpace c = true)
    (s : List Char) : contents (rstripBy p s) = contents s := by
  obtain ⟨ws, hs, hws⟩ := rstrip_parts p s
  conv_rhs => rw [hs, contents_append_space fun c hc => hp c (hws c hc)]

/-- Lines that each end in a break, and what follows them. -/
theorem contents_lines {ls : List (List Char)} (h : ∀ l ∈ ls, OneLine l) (s : List Char) :
    contents (ls.flatMap (· ++ ['\n']) ++ s) = (ls.map strip).filter (· ≠ []) ++ contents s := by
  rw [contents_eq (splitlines_lines h s), List.map_append, List.filter_append, contents]

/-- Lines joined say what each of them says. -/
theorem contents_intercalate {ls : List (List Char)} (h : ∀ l ∈ ls, OneLine l) :
    contents (['\n'].intercalate ls) = (ls.map strip).filter (· ≠ []) := by
  rcases List.eq_nil_or_concat ls with rfl | ⟨init, l, rfl⟩
  · rfl
  · rw [List.concat_eq_append] at h ⊢
    have hl := h l (List.mem_append_right _ (List.mem_singleton_self l))
    rw [intercalate_snoc, contents_lines fun x hx => h x (List.mem_append_left _ hx),
      contents_oneLine hl, List.map_append, List.filter_append, List.map_singleton]
    by_cases hstrip : strip l = []
    · simp [hstrip]
    · simp [hstrip]

/-- The contents are stripped, and none is blank. -/
theorem strip_of_mem_contents {s l : List Char} (h : l ∈ contents s) : strip l = l ∧ l ≠ [] := by
  obtain ⟨hl, hne⟩ := List.mem_filter.mp h
  obtain ⟨m, -, rfl⟩ := List.mem_map.mp hl
  exact ⟨strip_idem m, of_decide_eq_true hne⟩

theorem strip_infix (s : List Char) : strip s <:+: s := by
  obtain ⟨ws, ws', hs, -, -⟩ := strip_parts s
  exact ⟨ws, ws', by rw [List.append_assoc]; exact hs.symm⟩

/-- The contents are in the text. -/
theorem infix_of_mem_contents {s l : List Char} (h : l ∈ contents s) : l <:+: s := by
  have hone : ∀ x : List Char, OneLine x → l ∈ contents x → l <:+: x := fun x hx hl => by
    rw [contents_oneLine hx] at hl
    split_ifs at hl
    · cases hl
    · exact List.mem_singleton.mp hl ▸ strip_infix x
  induction hn : s.length using Nat.strong_induction_on generalizing s with
  | _ n ih =>
    rcases exists_first_line s with hs | ⟨x, c, t, rfl, hc, hx⟩
    · exact hone s hs h
    · have ht : t.length < n := by
        rw [← hn]
        simp
        omega
      rw [contents_append x hc] at h
      rcases List.mem_append.mp h with hl | hl
      · exact (hone x hx hl).trans (List.prefix_append x _).isInfix
      · exact (ih t.length ht hl rfl).trans
          ((List.suffix_cons c t).isInfix.trans (List.suffix_append x _).isInfix)

/-! ## Words -/

/-- A piece without the separator, the separator and the rest. -/
theorem split_piece {c : Char} {w : List Char} (h : c ∉ w) (s : List Char) :
    split c (w ++ c :: s) = w :: split c s := by
  rw [split_sep, split_of_not_mem h, List.singleton_append]

/-- A blank parts the words in front of it from those behind. -/
theorem words_sep {b : Char} (hb : isSpace b = true) (s t : List Char) :
    words (s ++ b :: t) = words s ++ words t := by
  rw [words, List.map_append, List.map_cons, if_pos hb, split_sep, List.filter_append, words, words]

theorem words_nil : words [] = [] := rfl

/-- White space around a text is in none of its words. -/
theorem words_strip (s : List Char) : words (strip s) = words s := by
  have hfront : words (s.dropWhile isSpace) = words s := by
    induction s with
    | nil => rfl
    | cons c s ih =>
        rw [List.dropWhile_cons]
        split
        · next hc => rw [ih, ← List.nil_append (c :: s), words_sep hc, words_nil, List.nil_append]
        · rfl
  have hback : ∀ t : List Char, words (rstripBy isSpace t) = words t := by
    intro t
    induction t using List.reverseRecOn with
    | nil => rfl
    | append_singleton t c ih =>
        by_cases hc : isSpace c = true
        · rw [words_sep hc, words_nil, List.append_nil, ← ih]
          exact congrArg words (List.rdropWhile_concat_pos isSpace t c hc)
        · exact congrArg words (List.rdropWhile_concat_neg isSpace t c hc)
  exact (hback _).trans hfront

/-- The words of texts joined by spaces are those of each. -/
theorem words_intercalate (ts : List (List Char)) :
    words ([' '].intercalate ts) = ts.flatMap words := by
  induction ts with
  | nil => rfl
  | cons t ts ih =>
      cases ts with
      | nil => simp
      | cons u ts =>
          rw [List.intercalate_cons_cons, List.append_assoc, List.singleton_append,
            words_sep (by decide), ih]
          rfl

/-- A text with a character that is no blank has a word. -/
theorem words_ne_nil {c : Char} (hc : isSpace c = false) (s : List Char) : words (c :: s) ≠ [] := by
  have hblank : c ≠ ' ' := by
    rintro rfl
    exact absurd hc (by decide)
  rw [words, List.map_cons, if_neg (by rw [hc]; exact Bool.false_ne_true), split, if_neg hblank]
  split
  · simp
  · simp

/-- A text without white space. -/
def Solid (w : List Char) : Prop := w ≠ [] ∧ ∀ c ∈ w, isSpace c = false

theorem Solid.map {w : List Char} (hw : Solid w) :
    w.map (fun c => if isSpace c then ' ' else c) = w :=
  (List.map_congr_left fun c hc => by rw [hw.2 c hc]; rfl).trans (List.map_id w)

theorem Solid.noBlank {w : List Char} (hw : Solid w) : ' ' ∉ w := fun hc =>
  absurd (hw.2 _ hc) (by decide)

theorem words_solid {w : List Char} (hw : Solid w) : words w = [w] := by
  rw [words, hw.map, split_of_not_mem hw.noBlank]
  simp [hw.1]

theorem words_cons {w : List Char} (hw : Solid w) (s : List Char) :
    words (w ++ ' ' :: s) = w :: words s := by
  rw [words_sep (by decide), words_solid hw, List.singleton_append]

/-- Words joined by spaces are read back. -/
theorem words_join {ws : List String} (h : ∀ w ∈ ws, Solid w.toList) :
    (words (join " " ws).toList).map String.ofList = ws := by
  induction ws with
  | nil => rfl
  | cons w ws ih =>
      have hw := h w List.mem_cons_self
      cases ws with
      | nil =>
          rw [show join " " [w] = w from rfl, words_solid hw, List.map_singleton, String.ofList_toList]
      | cons v ws =>
          have hjoin : join " " (w :: v :: ws) = w ++ " " ++ join " " (v :: ws) :=
            String.intercalate_cons_cons
          have hlist : (w ++ " " ++ join " " (v :: ws)).toList =
              w.toList ++ ' ' :: (join " " (v :: ws)).toList := by
            rw [String.toList_append, String.toList_append, List.append_assoc]
            rfl
          rw [hjoin, hlist, words_cons hw, List.map_cons, String.ofList_toList,
            ih fun x hx => h x (List.mem_cons_of_mem w hx)]

end Text

end Py
