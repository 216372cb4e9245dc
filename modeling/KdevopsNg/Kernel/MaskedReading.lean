/-
# `Kernel.MaskedReading` — make flags read back from what the digest takes

Where no word has the flag but in front of its map, and no path white space, what the digest
takes of a word has one of three shapes (`Shape`):

    W=1                                      no quotes
    'X=a b'                                  quotes
    'KCFLAGS=-g -fdebug-prefix-map=          quotes, of which the map swallowed one

A text begins with one of them in one way only (`shape_inj`), so the words can be read
back, but for the maps (`masked_inj`).
-/
import KdevopsNg.Kernel.MaskedFlags
import Mathlib.Data.List.Forall2

namespace KdevopsNg.Kernel

open Py Py.Text Py.Shlex

/-! ## One word -/

/-- A text without the flag. -/
def Clean (s : List Char) : Prop := ¬ prefixMapFlag <:+: s

/-- What the digest takes of a word. -/
inductive Shape : Word → List Char → Prop
  | bare {e : Word} : e ≠ [] → e.all isSafe = true → Shape e e
  | closed {e : Word} : Clean e → Shape e ('\'' :: (e.flatMap quoteChar ++ ['\'']))
  | cut {w : Word} : Clean w → Shape (w ++ prefixMapFlag) ('\'' :: (w ++ prefixMapFlag).flatMap quoteChar)

/-- What follows a word: nothing, or a blank. -/
def Ends (r : List Char) : Prop := ∀ c, r.head? = some c → c = ' '

theorem clean_quoted {s : List Char} (h : Clean s) : Clean (s.flatMap quoteChar) :=
  fun hq => h (infix_quoted (by decide) (by decide) (by decide) hq)

theorem clean_nil : Clean [] := fun h => absurd (List.infix_nil.mp h) (by decide)

/-- The flag ends in the one character it has once. -/
theorem flag_end {w w' d : List Char} (hw' : Clean w')
    (h : w ++ prefixMapFlag ++ d = w' ++ prefixMapFlag) : d = [] := by
  have hborder : ∀ y, y <+: prefixMapFlag → y <:+ prefixMapFlag → y ≠ [] →
      y.length = prefixMapFlag.length := by
    intro y hpre hsuf hne
    by_contra hlen
    have hlt : y.length < prefixMapFlag.length := lt_of_le_of_ne hpre.length_le hlen
    have hlast : '=' ∈ y := by
      obtain ⟨x, hx⟩ := hsuf
      have hget : (x ++ y).getLast? = some '=' := by
        rw [hx]
        rfl
      rw [List.getLast?_append_of_ne_nil _ hne] at hget
      exact List.mem_of_getLast? hget
    have hinit : y <+: prefixMapFlag.dropLast := by
      refine List.prefix_of_prefix_length_le hpre (List.dropLast_prefix _) ?_
      rw [List.length_dropLast]
      omega
    exact absurd (hinit.subset hlast) (by decide)
  rw [List.append_assoc] at h
  rcases List.append_eq_append_iff.mp h with ⟨m, rfl, hm⟩ | ⟨m, -, hm⟩
  · have hbig : m <+: prefixMapFlag ++ d := hm ▸ List.prefix_append m _
    by_cases hle : prefixMapFlag.length ≤ m.length
    · have hpre : prefixMapFlag <+: m :=
        List.prefix_of_prefix_length_le (List.prefix_append _ d) hbig hle
      exact absurd (hpre.isInfix.trans (List.suffix_append w m).isInfix) hw'
    · -- the second flag begins inside the first one
      obtain ⟨y, hy⟩ := List.prefix_of_prefix_length_le hbig (List.prefix_append _ d) (by omega)
      have hyd : y ++ d = prefixMapFlag := by
        have hsame : m ++ (y ++ d) = m ++ prefixMapFlag := by
          rw [← List.append_assoc, hy, hm]
        exact List.append_cancel_left hsame
      have hlen := congrArg List.length hy
      have hlend := congrArg List.length hyd
      rw [List.length_append] at hlen hlend
      have hne : y ≠ [] := by
        rintro rfl
        rw [List.length_nil] at hlen
        omega
      have hfull := hborder y ⟨d, hyd⟩ ⟨m, hy⟩ hne
      exact List.eq_nil_of_length_eq_zero (by omega)
  · have hlen := congrArg List.length hm
    rw [List.length_append, List.length_append] at hlen
    exact List.eq_nil_of_length_eq_zero (by omega)

theorem ends_quote {r : List Char} (h : Ends r) : r.head? ≠ some '"' :=
  fun hq => absurd (h _ hq) (by decide)

/-- Words without a blank that go on alike are the same. -/
theorem safe_inj {e e' r r' : List Char} (he : e.all isSafe = true) (he' : e'.all isSafe = true)
    (hr : Ends r) (hr' : Ends r') (h : e ++ r = e' ++ r') : e = e' ∧ r = r' := by
  have hlong : ∀ {e m r r' : List Char}, (e ++ m).all isSafe = true → Ends r → r = m ++ r' →
      m = [] := by
    intro e m r r' hsafe hr hrm
    cases m with
    | nil => rfl
    | cons c m =>
        have hc : c = ' ' := hr c (by rw [hrm]; rfl)
        have hmem : c ∈ e ++ c :: m := List.mem_append_right e List.mem_cons_self
        have hbad := List.all_eq_true.mp hsafe c hmem
        rw [hc] at hbad
        exact absurd hbad (by decide)
  rcases List.append_eq_append_iff.mp h with ⟨m, rfl, hm⟩ | ⟨m, rfl, hm⟩
  · obtain rfl := hlong he' hr hm
    exact ⟨(List.append_nil e).symm, hm⟩
  · obtain rfl := hlong he hr' hm
    exact ⟨List.append_nil e', hm.symm⟩

/-- A word between quotes goes on otherwise than one that a quote closes. -/
theorem closed_inj {e e' r r' : List Char} (hr : Ends r) (hr' : Ends r')
    (h : e.flatMap quoteChar ++ '\'' :: r = e'.flatMap quoteChar ++ '\'' :: r') :
    e = e' ∧ r = r' := by
  rcases quoted_cases h with ⟨d, rfl, hd⟩ | ⟨d, rfl, hd⟩
  · by_cases hne : d = []
    · rw [hne, List.append_nil]
      rw [hne] at hd
      exact ⟨rfl, (List.cons.inj hd).2⟩
    · exact absurd hd (quote_ne_quoted hne (ends_quote hr))
  · by_cases hne : d = []
    · rw [hne, List.append_nil]
      rw [hne] at hd
      exact ⟨rfl, (List.cons.inj hd).2.symm⟩
    · exact absurd hd (quote_ne_quoted hne (ends_quote hr'))

/-- A word that a quote closes is none that the map cut. -/
theorem closed_ne_cut {e w r r' : List Char} (he : Clean e) (hr : Ends r) (hr' : Ends r') :
    e.flatMap quoteChar ++ '\'' :: r ≠ (w ++ prefixMapFlag).flatMap quoteChar ++ r' := by
  intro h
  rcases quoted_cases h with ⟨d, hd, hrest⟩ | ⟨d, hd, -⟩
  · by_cases hne : d = []
    · rw [hne] at hrest
      have hquote : r'.head? = some '\'' := by
        rw [show r' = '\'' :: r from hrest.symm]
        rfl
      exact absurd (hr' _ hquote) (by decide)
    · exact quote_ne_quoted hne (ends_quote hr) hrest
  · exact he (hd ▸ ((List.suffix_append w prefixMapFlag).isInfix.trans
      (List.prefix_append _ d).isInfix))

theorem cut_inj {w w' r r' : List Char} (hw : Clean w) (hw' : Clean w')
    (h : (w ++ prefixMapFlag).flatMap quoteChar ++ r =
      (w' ++ prefixMapFlag).flatMap quoteChar ++ r') :
    w ++ prefixMapFlag = w' ++ prefixMapFlag ∧ r = r' := by
  rcases quoted_cases h with ⟨d, hd, hrest⟩ | ⟨d, hd, hrest⟩
  · obtain rfl := flag_end hw' hd.symm
    exact ⟨(hd.trans (List.append_nil _)).symm, hrest⟩
  · obtain rfl := flag_end hw hd.symm
    exact ⟨hd.trans (List.append_nil _), hrest.symm⟩

/-- A text begins with one word only. -/
theorem shape_inj {e e' : Word} {x x' r r' : List Char} (hx : Shape e x) (hx' : Shape e' x')
    (hr : Ends r) (hr' : Ends r') (h : x ++ r = x' ++ r') : e = e' ∧ r = r' := by
  -- a word without quotes does not begin with one
  have hbare : ∀ {e : Word} {s y : List Char}, e ≠ [] → e.all isSafe = true →
      e ++ s ≠ '\'' :: y := by
    intro e s y hne hsafe heq
    obtain ⟨c, e, rfl⟩ := List.exists_cons_of_ne_nil hne
    have hc := List.all_eq_true.mp hsafe c List.mem_cons_self
    rw [(List.cons.inj heq).1] at hc
    exact absurd hc (by decide)
  cases hx with
  | bare hne hsafe =>
      cases hx' with
      | bare hne' hsafe' => exact safe_inj hsafe hsafe' hr hr' h
      | closed hclean => exact absurd h (hbare hne hsafe)
      | cut hclean => exact absurd h (hbare hne hsafe)
  | closed hclean =>
      rw [List.cons_append, List.append_assoc, List.singleton_append] at h
      cases hx' with
      | bare hne' hsafe' => exact absurd h.symm (hbare hne' hsafe')
      | closed hclean' =>
          rw [List.cons_append, List.append_assoc, List.singleton_append] at h
          exact closed_inj hr hr' (List.cons.inj h).2
      | cut hclean' => exact absurd (List.cons.inj h).2 (closed_ne_cut hclean hr hr')
  | cut hclean =>
      rw [List.cons_append] at h
      cases hx' with
      | bare hne' hsafe' => exact absurd h.symm (hbare hne' hsafe')
      | closed hclean' =>
          rw [List.cons_append, List.append_assoc, List.singleton_append] at h
          exact absurd (List.cons.inj h).2.symm (closed_ne_cut hclean' hr' hr)
      | cut hclean' => exact cut_inj hclean hclean' (List.cons.inj h).2

/-! ## All the words -/

theorem shape_ne_nil {e : Word} {x : List Char} (h : Shape e x) : x ≠ [] := by
  cases h with
  | bare hne _ => exact hne
  | closed _ => exact List.cons_ne_nil _ _
  | cut _ => exact List.cons_ne_nil _ _

/-- What is behind the first of joined texts. -/
def behind (xs : List (List Char)) : List Char :=
  if xs = [] then [] else ' ' :: [' '].intercalate xs

theorem intercalate_cons (x : List Char) (xs : List (List Char)) :
    [' '].intercalate (x :: xs) = x ++ behind xs := by
  rw [behind]
  split
  · next h => rw [h, List.intercalate_singleton, List.append_nil]
  · next h => rw [List.intercalate_cons_of_ne_nil h, List.append_assoc, List.singleton_append]

theorem ends_behind (xs : List (List Char)) : Ends (behind xs) := by
  intro c hc
  rw [behind] at hc
  split at hc
  · cases hc
  · exact (Option.some.inj hc).symm

theorem behind_inj {xs ys : List (List Char)} (h : behind xs = behind ys) :
    (xs = [] ↔ ys = []) ∧ [' '].intercalate xs = [' '].intercalate ys := by
  rw [behind, behind] at h
  by_cases hx : xs = []
  · by_cases hy : ys = []
    · rw [hx, hy]
      exact ⟨Iff.rfl, rfl⟩
    · rw [if_pos hx, if_neg hy] at h
      cases h
  · by_cases hy : ys = []
    · rw [if_neg hx, if_pos hy] at h
      cases h
    · rw [if_neg hx, if_neg hy] at h
      exact ⟨iff_of_false hx hy, (List.cons.inj h).2⟩

/-- Joined words are read back. -/
theorem shapes_inj {es es' : List Word} {xs xs' : List (List Char)}
    (hx : List.Forall₂ Shape es xs) (hx' : List.Forall₂ Shape es' xs')
    (h : [' '].intercalate xs = [' '].intercalate xs') : es = es' := by
  have hnil : ∀ {e : Word} {x : List Char} {ys : List (List Char)}, Shape e x →
      [' '].intercalate (x :: ys) ≠ [] := by
    intro e x ys hshape heq
    rw [intercalate_cons] at heq
    exact shape_ne_nil hshape (List.append_eq_nil_iff.mp heq).1
  induction hx generalizing es' xs' with
  | nil =>
      cases hx' with
      | nil => rfl
      | cons hone _ => exact absurd h.symm (hnil hone)
  | @cons e x es xs hone hrest ih =>
      cases hx' with
      | nil => exact absurd h (hnil hone)
      | @cons e' x' es' xs' hone' hrest' =>
          rw [intercalate_cons, intercalate_cons] at h
          obtain ⟨rfl, htail⟩ := shape_inj hone hone' (ends_behind xs) (ends_behind xs') h
          rw [ih hrest' (behind_inj htail).2]

namespace Piece

/-- It has no flag but in front of its map. -/
def Clean : Piece → Prop
  | word w => Kernel.Clean w
  | flags v front => Kernel.Clean (v.set front)

/-- What the digest takes of a piece. -/
theorem masked_shape {p : Piece} (hp : p.Clean) (hf : p.Fronted) {s : List Char}
    (hs : ∀ c ∈ s, isSpace c = false) : Shape (p.fill prefixMapFlag) (p.masked s) := by
  -- between quotes nothing is masked
  have hquoted : ∀ {w x : List Char}, Kernel.Clean w → (x = [] ∨ x = ['\'']) →
      maskPrefixMap 0 false ('\'' :: (w.flatMap quoteChar ++ x)) =
        '\'' :: (w.flatMap quoteChar ++ x) := by
    intro w x hw hx
    have hquote : '\'' ∉ prefixMapFlag := by decide
    refine mask_of_clean fun h => ?_
    rcases infix_split (a := []) hquote h with h | h
    · exact clean_nil h
    · rcases hx with rfl | rfl
      · rw [List.append_nil] at h
        exact clean_quoted hw h
      · rcases infix_split hquote h with h | h
        · exact clean_quoted hw h
        · exact clean_nil h
  cases p with
  | word w =>
      have hclean : Kernel.Clean w := hp
      show Shape w (maskPrefixMap 0 false (quote w))
      rw [quote]
      by_cases hnil : w = []
      · rw [if_pos hnil, hnil]
        exact .closed clean_nil
      · rw [if_neg hnil]
        by_cases hsafe : w.all isSafe = true
        · rw [if_pos hsafe, mask_of_clean hclean]
          exact .bare hnil hsafe
        · rw [if_neg hsafe, List.cons_append, hquoted hclean (.inr rfl)]
          exact .closed hclean
  | flags v front =>
      have hclean : Kernel.Clean (v.set front) := hp
      show Shape (v.set (front ++ prefixMapFlag)) _
      rw [masked_flags hf, leftover_nil hs, List.append_nil]
      by_cases hsafe : front = [] ∧ s.all isSafe = true
      · rw [if_pos hsafe, hsafe.1]
        refine .bare ?_ ?_
        · cases v <;> exact List.cons_ne_nil _ _
        · cases v <;> decide
      · rw [if_neg hsafe, set_append]
        have hfront : quotedFront v front = '\'' :: (v.set front).flatMap quoteChar := by
          have hmask := hquoted hclean (.inl rfl)
          rwa [List.append_nil] at hmask
        have hcut := Shape.cut hclean
        rwa [List.flatMap_append, quoted_flag, ← List.cons_append, ← hfront] at hcut

end Piece

/-- What the digest takes of clean words tells them apart, but for their maps. -/
theorem masked_inj {ps ps' : List Piece} (hp : ∀ p ∈ ps, p.Clean ∧ p.Fronted)
    (hp' : ∀ p ∈ ps', p.Clean ∧ p.Fronted) {s s' : List Char} (hs : ∀ c ∈ s, isSpace c = false)
    (hs' : ∀ c ∈ s', isSpace c = false)
    (h : [' '].intercalate (ps.map (Piece.masked s)) =
      [' '].intercalate (ps'.map (Piece.masked s'))) :
    ps.map (Piece.fill prefixMapFlag) = ps'.map (Piece.fill prefixMapFlag) := by
  have hshapes : ∀ {ps : List Piece} {s : List Char}, (∀ p ∈ ps, p.Clean ∧ p.Fronted) →
      (∀ c ∈ s, isSpace c = false) →
        List.Forall₂ Shape (ps.map (Piece.fill prefixMapFlag)) (ps.map (Piece.masked s)) := by
    intro ps s hp hs
    rw [List.forall₂_map_left_iff, List.forall₂_map_right_iff, List.forall₂_same]
    exact fun p hmem => Piece.masked_shape (hp p hmem).1 (hp p hmem).2 hs
  exact shapes_inj (hshapes hp hs) (hshapes hp' hs') h

end KdevopsNg.Kernel
