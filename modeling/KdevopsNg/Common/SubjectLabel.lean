/-
# `Common.SubjectLabel` — the revision of a series in its label

The subject of a series gives its title and its revision in one of two ways
(`Titled`), and `_subject_label` makes `<slug of the title>-v<N>` of both:

    [PATCH net-next v3 0/4] title       a token of the leading bracket
    title v3                            the last token

`_subject_label` does not look at tokens.  It takes the first `\bv(\d+)\b` that the text of the
bracket has, and a word may begin and end inside a token: `v6.1.y` gives 6.  So the label is the
one of the revision exactly when the tokens in front of it have no such word, or one
with its number (`Clear`, `labels_iff`).
-/
import KdevopsNg.Kernel.Identity

namespace KdevopsNg.Common

open Py Kernel

variable {u : Unicode}

/-! ## Subjects -/

/-- `v<N>`. -/
def versionToken (n : ℕ) : List Char := 'v' :: (toString n).toList

/-- A token `v<number>`, in the digits of any script. -/
def IsVersion (u : Unicode) (t : List Char) : Prop :=
  ∃ ds, t = 'v' :: ds ∧ ds ≠ [] ∧ ∀ d ∈ ds, (u.digit? d).isSome = true

instance (u : Unicode) (t : List Char) : Decidable (IsVersion u t) :=
  decidable_of_iff
    (t.head? = some 'v' ∧ t.tail ≠ [] ∧ ∀ d ∈ t.tail, (u.digit? d).isSome = true)
    ⟨fun ⟨hv, hne, hds⟩ => ⟨t.tail, List.eq_cons_of_mem_head? hv, hne, hds⟩,
      by rintro ⟨ds, rfl, hne, hds⟩; exact ⟨rfl, hne, hds⟩⟩

/-- A text whose last token is a `v<number>`. -/
def EndsInVersion (u : Unicode) (s : List Char) : Prop :=
  ∃ front t tail, s = front ++ t ++ tail ∧ IsVersion u t ∧
    (∀ c ∈ front.getLast?, Text.isSpace c = true) ∧ ∀ c ∈ tail, Text.isSpace c = true

/-- What stands between spaces, in brackets. -/
def IsToken (t : List Char) : Prop := ' ' ∉ t ∧ '[' ∉ t ∧ ']' ∉ t

instance (t : List Char) : Decidable (IsToken t) :=
  inferInstanceAs (Decidable (' ' ∉ t ∧ '[' ∉ t ∧ ']' ∉ t))

/-- A leading bracket, but for the revision: the tokens in front of it and behind it. -/
structure Bracket (u : Unicode) where
  lead : List Char
  front : List (List Char)
  back : List (List Char)
  blank : ∀ c ∈ lead, Text.isSpace c = true
  tokens : ∀ t ∈ front ++ back, IsToken t ∧ ¬ IsVersion u t

/-- White space on both sides of a last token. -/
structure Gap where
  before : Char
  after : List Char
  blank : ∀ c ∈ before :: after, Text.isSpace c = true

/-- A subject but for its revision: the summary, and where the revision stands. -/
structure Titled (u : Unicode) where
  summary : List Char
  place : Bracket u ⊕ Gap
  brackets : '[' ∉ summary ∧ ']' ∉ summary
  noVersion : ¬ EndsInVersion u summary
  slugged : slug (String.ofList summary) ≠ ""

/-- The text between the brackets. -/
def Bracket.inner (b : Bracket u) (n : ℕ) : List Char :=
  [' '].intercalate (b.front ++ versionToken n :: b.back)

/-- The subject at a revision. -/
def Titled.text (s : Titled u) (n : ℕ) : List Char :=
  match s.place with
  | .inl b => b.lead ++ '[' :: (b.inner n ++ ']' :: s.summary)
  | .inr g => s.summary ++ g.before :: (versionToken n ++ g.after)

/-- The label of the subject at a revision. -/
def Titled.label (s : Titled u) (n : ℕ) : String := subjectLabel u (String.ofList (s.text n))

/-- The label is the slug of the summary with the revision behind it, and is taken apart there. -/
def Titled.Right (s : Titled u) (n : ℕ) : Prop :=
  s.label n = slug (String.ofList s.summary) ++ "-v" ++ toString n ∧
    splitTrailingVersion u (s.label n).toList =
      ((slug (String.ofList s.summary)).toList, ("-v" ++ toString n).toList)

/-- No token of a bracket breaks its line, and the first word `v<number>` that a token in front
of the revision has is the revision itself. -/
def Titled.Clear (s : Titled u) (n : ℕ) : Prop :=
  match s.place with
  | .inl b => (∀ t ∈ b.front ++ b.back, '\n' ∉ t) ∧
      ∀ v ∈ b.front.findSome? (versionWord u false), v = n
  | .inr _ => True

/-! ## The first word of a bracket -/

/-- The version a text begins with, by its digits and what follows them. -/
theorem versionHere_digits {ds rest : List Char} (hds : ∀ c ∈ ds, (u.digit? c).isSome = true)
    (hstop : ∀ c, rest.head? = some c → u.digit? c = none) :
    versionHere u ('v' :: (ds ++ rest)) =
      if (rest.head?.map u.isWord).getD false = true then none else Text.leadingNat u ds := by
  have hlead := Text.leadingDigits_append hds hstop
  rw [versionHere, hlead, List.drop_left, Text.leadingNat, Text.leadingNat, hlead,
    Text.leadingDigits_self hds]

theorem versionHere_of_ne {c : Char} (hc : c ≠ 'v') (cs : List Char) :
    versionHere u (c :: cs) = none := by
  rw [versionHere]
  rintro cs' h
  exact hc (List.cons.inj h).1

/-- A space ends a word. -/
theorem versionHere_space (hu : u.Ascii) (xs ys : List Char) :
    versionHere u (xs ++ ' ' :: ys) = versionHere u xs := by
  cases xs with
  | nil => rfl
  | cons c cs =>
      by_cases hc : c = 'v'
      · subst hc
        obtain ⟨ds, rest, rfl, hds, hstop⟩ := Text.digits_cases u cs
        have hspace : ∀ c, (rest ++ ' ' :: ys).head? = some c → u.digit? c = none := by
          intro c hc
          cases rest with
          | nil =>
              cases hc
              exact (hu ' ' (by decide)).1
          | cons d rest => exact hstop c hc
        rw [List.cons_append, List.append_assoc, versionHere_digits hds hspace,
          versionHere_digits hds hstop]
        cases rest with
        | nil =>
            have hword : u.isWord ' ' = false := (hu ' ' (by decide)).2
            rw [List.nil_append, List.head?_cons, Option.map_some, Option.getD_some, hword]
            rfl
        | cons d rest => rfl
      · rw [List.cons_append, versionHere_of_ne hc, versionHere_of_ne hc]

/-- The search goes on behind a space as at the beginning. -/
theorem versionWord_space (hu : u.Ascii) (afterWord : Bool) (xs ys : List Char) :
    versionWord u afterWord (xs ++ ' ' :: ys) =
      (versionWord u afterWord xs).or (versionWord u false ys) := by
  induction xs generalizing afterWord with
  | nil =>
      have hword : u.isWord ' ' = false := (hu ' ' (by decide)).2
      have hhere : versionHere u (' ' :: ys) = none := versionHere_of_ne (by decide) ys
      rw [List.nil_append, versionWord, versionWord, hhere, ite_self, Option.none_or, hword,
        Option.none_or]
  | cons c xs ih =>
      have hhere : versionHere u (c :: (xs ++ ' ' :: ys)) = versionHere u (c :: xs) :=
        versionHere_space hu (c :: xs) ys
      rw [List.cons_append, versionWord, versionWord, ih, hhere, Option.or_assoc]

/-- The first word of a bracket is that of the first token that has one. -/
theorem versionWord_intercalate (hu : u.Ascii) (ts : List (List Char)) :
    versionWord u false ([' '].intercalate ts) = ts.findSome? (versionWord u false) := by
  induction ts with
  | nil => rfl
  | cons t ts ih =>
      have hor : (t :: ts).findSome? (versionWord u false) =
          (versionWord u false t).or (ts.findSome? (versionWord u false)) := by
        rw [List.findSome?_cons]
        cases versionWord u false t with
        | none => rfl
        | some v => rfl
      rw [hor]
      cases ts with
      | nil =>
          rw [List.intercalate_singleton, List.findSome?_nil, Option.or_none]
      | cons t' ts =>
          rw [List.intercalate_cons_cons, List.append_assoc, List.singleton_append,
            versionWord_space hu, ih]

theorem versionWord_versionToken (hu : u.Ascii) (n : ℕ) :
    versionWord u false (versionToken n) = some n := by
  have hds := Text.isSome_digit? hu (Text.isDigit_toString n)
  have hhere : versionHere u ('v' :: ((toString n).toList ++ [])) =
      if (([] : List Char).head?.map u.isWord).getD false = true then none
      else Text.leadingNat u (toString n).toList := versionHere_digits hds nofun
  rw [List.append_nil, List.head?_nil, Option.map_none, Option.getD_none,
    if_neg Bool.false_ne_true, Text.leadingNat_toString hu] at hhere
  rw [versionToken, versionWord, if_neg Bool.false_ne_true, hhere, Option.some_or]

/-- The first word of the text between the brackets. -/
theorem Bracket.versionWord_inner (hu : u.Ascii) (b : Bracket u) (n : ℕ) :
    versionWord u false (b.inner n) = (b.front.findSome? (versionWord u false)).or (some n) := by
  rw [Bracket.inner, versionWord_intercalate hu, List.findSome?_append, List.findSome?_cons,
    versionWord_versionToken hu]

/-! ## The leading bracket -/

theorem not_mem_versionToken {c : Char} (hv : c ≠ 'v') (hc : c.isDigit = false) (n : ℕ) :
    c ∉ versionToken n := by
  intro h
  rcases List.mem_cons.mp h with rfl | h
  · exact hv rfl
  · rw [Text.isDigit_toString n c h] at hc
    cases hc

theorem Bracket.mem_inner {b : Bracket u} {n : ℕ} {c : Char} (hspace : c ≠ ' ') (hv : c ≠ 'v')
    (hc : c.isDigit = false) : c ∈ b.inner n ↔ ∃ t ∈ b.front ++ b.back, c ∈ t := by
  constructor
  · intro h
    obtain ⟨t, ht, hct⟩ := (Text.of_mem_join h).resolve_left hspace
    rcases List.mem_append.mp ht with ht | ht
    · exact ⟨t, List.mem_append_left _ ht, hct⟩
    · rcases List.mem_cons.mp ht with rfl | ht
      · exact absurd hct (not_mem_versionToken hv hc n)
      · exact ⟨t, List.mem_append_right _ ht, hct⟩
  · rintro ⟨t, ht, hct⟩
    refine Text.mem_join (l := t) ?_ hct
    rcases List.mem_append.mp ht with ht | ht
    · exact List.mem_append_left _ ht
    · exact List.mem_append_right _ (List.mem_cons_of_mem _ ht)

theorem Bracket.leadingBracket_eq (b : Bracket u) (n : ℕ) (summary : List Char) :
    leadingBracket (b.lead ++ '[' :: (b.inner n ++ ']' :: summary)) =
      if '\n' ∈ b.inner n then none else some (b.inner n) := by
  have hopen : (b.lead ++ '[' :: (b.inner n ++ ']' :: summary)).dropWhile Text.isSpace =
      '[' :: (b.inner n ++ ']' :: summary) := by
    rw [List.dropWhile_append_of_pos b.blank, List.dropWhile_cons_of_neg (by decide)]
  have hclose : ']' ∉ b.inner n := by
    rw [Bracket.mem_inner (by decide) (by decide) (by decide)]
    rintro ⟨t, ht, hct⟩
    exact (b.tokens t ht).1.2.2 hct
  have hinner : (b.inner n ++ ']' :: summary).takeWhile (· ≠ ']') = b.inner n := by
    rw [List.takeWhile_append_of_pos, List.takeWhile_cons_of_neg (by simp), List.append_nil]
    intro c hc
    rw [decide_eq_true_eq]
    rintro rfl
    exact hclose hc
  have hmem : ']' ∈ b.inner n ++ ']' :: summary :=
    List.mem_append_right _ List.mem_cons_self
  rw [leadingBracket, hopen]
  change (if ']' ∈ b.inner n ++ ']' :: summary ∧
      '\n' ∉ (b.inner n ++ ']' :: summary).takeWhile (· ≠ ']') then
    some ((b.inner n ++ ']' :: summary).takeWhile (· ≠ ']')) else none) = _
  rw [hinner]
  by_cases hline : '\n' ∈ b.inner n
  · rw [if_pos hline, if_neg fun h => h.2 hline]
  · rw [if_neg hline, if_pos ⟨hmem, hline⟩]

/-- A text without an opening bracket has no leading one. -/
theorem leadingBracket_of_not_mem {s : List Char} (h : '[' ∉ s) : leadingBracket s = none := by
  rw [leadingBracket]
  split
  · rename_i cs hcs
    have hmem : '[' ∈ s.dropWhile Text.isSpace := hcs ▸ List.mem_cons_self
    exact absurd ((List.dropWhile_suffix _).subset hmem) h
  · rfl

/-! ## The last token -/

/-- The trailing search finds nothing but a last token `v<number>`. -/
theorem trailingVersion_none {s : List Char} (h : ¬ EndsInVersion u s) :
    trailingVersion u s = none := by
  have htail : s = (s.reverse.dropWhile Text.isSpace).reverse ++
      (s.reverse.takeWhile Text.isSpace).reverse := by
    rw [← List.reverse_append, List.takeWhile_append_dropWhile, List.reverse_reverse]
  have hblank : ∀ c ∈ (s.reverse.takeWhile Text.isSpace).reverse, Text.isSpace c = true :=
    fun c hc => List.mem_takeWhile_imp (List.mem_reverse.mp hc)
  generalize (s.reverse.takeWhile Text.isSpace).reverse = tail at htail hblank
  rw [trailingVersion]
  generalize s.reverse.dropWhile Text.isSpace = text at htail ⊢
  obtain ⟨ds, rest, rfl, hds, hstop⟩ := Text.digits_cases u text
  rw [Text.leadingDigits_append hds hstop, List.drop_left]
  have hversion : ∀ before, rest = 'v' :: before → ds ≠ [] →
      (∀ c ∈ before.head?, Text.isSpace c = true) → EndsInVersion u s := by
    rintro before rfl hne hspace
    refine ⟨before.reverse, 'v' :: ds.reverse, tail, ?_, ⟨ds.reverse, rfl, ?_, ?_⟩, ?_, hblank⟩
    · rw [htail]
      simp
    · simpa using hne
    · exact fun d hd => hds d (List.mem_reverse.mp hd)
    · rwa [List.getLast?_reverse]
  split
  · rfl
  · rename_i hne
    split
    · exact absurd (hversion [] rfl hne nofun) h
    · rename_i c cs
      rw [if_neg]
      intro hc
      refine h (hversion (c :: cs) rfl hne ?_)
      intro d hd
      cases hd
      exact hc
  · rfl

/-- A last token behind white space is found, and the summary in front of it. -/
theorem trailingVersion_eq (hu : u.Ascii) (summary : List Char) (g : Gap) (n : ℕ) :
    trailingVersion u (summary ++ g.before :: (versionToken n ++ g.after)) = some (n, summary) := by
  have hdigits := Text.isDigit_toString n
  have hds : ∀ c ∈ (toString n).toList.reverse, (u.digit? c).isSome = true := fun c hc =>
    Text.isSome_digit? hu hdigits c (List.mem_reverse.mp hc)
  have hstop : ∀ c, ('v' :: g.before :: summary.reverse).head? = some c → u.digit? c = none := by
    intro c hc
    cases hc
    exact (hu 'v' (by decide)).1
  have hback : (summary ++ g.before :: (versionToken n ++ g.after)).reverse.dropWhile Text.isSpace =
      (toString n).toList.reverse ++ 'v' :: g.before :: summary.reverse := by
    have hreverse : (summary ++ g.before :: (versionToken n ++ g.after)).reverse =
        g.after.reverse ++ ((toString n).toList.reverse ++ 'v' :: g.before :: summary.reverse) := by
      simp [versionToken]
    rw [hreverse, List.dropWhile_append_of_pos fun c hc =>
      g.blank c (List.mem_cons_of_mem _ (List.mem_reverse.mp hc))]
    refine Text.dropWhile_of_head fun c hc => Text.isSpace_of_isDigit (hdigits c ?_)
    rw [List.head?_append_of_ne_nil _ (mt List.reverse_eq_nil_iff.mp (Text.toString_ne_nil n))] at hc
    exact List.mem_reverse.mp (List.mem_of_mem_head? hc)
  have hne : (toString n).toList.reverse ≠ [] :=
    mt List.reverse_eq_nil_iff.mp (Text.toString_ne_nil n)
  have hnum : Text.digitsToNat u (toString n).toList.reverse.reverse = n := by
    rw [List.reverse_reverse, Text.digitsToNat_toString hu]
  rw [trailingVersion, hback, Text.leadingDigits_append hds hstop, List.drop_left]
  generalize (toString n).toList.reverse = ds at hne hnum
  cases ds with
  | nil => exact absurd rfl hne
  | cons d ds =>
      change (if Text.isSpace g.before = true then
        some (Text.digitsToNat u (d :: ds).reverse, summary.reverse.reverse) else none) = _
      rw [if_pos (g.blank _ List.mem_cons_self), hnum, List.reverse_reverse]

/-! ## The label -/

/-- The label of a slug with a revision. -/
def labelOf (label : String) (v : ℕ) : String :=
  if 2 ≤ v then (if label = "" then "v" ++ toString v else label ++ "-v" ++ toString v) else label

theorem subjectLabel_bracket {text : List Char} {v : ℕ}
    (h : (leadingBracket text).bind (versionWord u false) = some v) (hclose : ']' ∈ text) :
    subjectLabel u (String.ofList text) =
      labelOf (slug (String.ofList (Text.afterLast ']' text))) v := by
  rw [subjectLabel, String.toList_ofList, h, if_pos hclose, labelOf]

theorem subjectLabel_trailing {text summary before : List Char} {v : ℕ}
    (h : (leadingBracket text).bind (versionWord u false) = none)
    (hsummary : (if ']' ∈ text then Text.afterLast ']' text else text) = summary)
    (hv : trailingVersion u summary = some (v, before)) :
    subjectLabel u (String.ofList text) = labelOf (slug (String.ofList before)) v := by
  rw [subjectLabel, String.toList_ofList, h, hsummary, labelOf]
  dsimp only
  rw [hv]

theorem subjectLabel_none {text summary : List Char}
    (h : (leadingBracket text).bind (versionWord u false) = none)
    (hsummary : (if ']' ∈ text then Text.afterLast ']' text else text) = summary)
    (hv : trailingVersion u summary = none) :
    subjectLabel u (String.ofList text) = slug (String.ofList summary) := by
  rw [subjectLabel, String.toList_ofList, h, hsummary]
  dsimp only
  rw [hv]

/-! ## Where the label is right -/

theorem slug_strip (s : List Char) :
    slug (String.ofList s) = slug (String.ofList (Text.strip s)) := by
  rw [slug, slug, String.toList_ofList, String.toList_ofList, Text.strip_idem]

theorem labelOf_inj {label : String} {n v : ℕ} (hn : 2 ≤ n) (hlabel : label ≠ "") :
    labelOf label v = label ++ "-v" ++ toString n ↔ v = n := by
  constructor
  · intro h
    rw [labelOf] at h
    split_ifs at h with hv
    · rw [String.append_assoc, String.append_assoc] at h
      have hlists := congrArg String.toList h
      rw [String.toList_append, String.toList_append, String.toList_append,
        String.toList_append] at hlists
      exact Text.toString_inj (List.append_cancel_left (List.append_cancel_left hlists))
    · have hlen := congrArg String.length h
      rw [String.length_append, String.length_append] at hlen
      have htwo : "-v".length = 2 := rfl
      omega
  · rintro rfl
    rw [labelOf, if_pos hn, if_neg hlabel]

/-- The revision is taken off the end of a label again. -/
theorem splitTrailingVersion_version (hu : u.Ascii) (label : String) (n : ℕ) :
    splitTrailingVersion u (label ++ "-v" ++ toString n).toList =
      (label.toList, ("-v" ++ toString n).toList) := by
  have hdigits := Text.isDigit_toString n
  have hne := Text.toString_ne_nil n
  have htext : (label ++ "-v" ++ toString n).toList =
      label.toList ++ '-' :: 'v' :: (toString n).toList := by
    rw [String.toList_append, String.toList_append, List.append_assoc]
    rfl
  have hsuffix : ("-v" ++ toString n).toList = '-' :: 'v' :: (toString n).toList :=
    String.toList_append
  rw [htext, hsuffix]
  generalize (toString n).toList = ds at hdigits hne
  have hline : (label.toList ++ '-' :: 'v' :: ds).getLast? ≠ some '\n' := by
    rw [List.getLast?_append_of_ne_nil _ (List.cons_ne_nil _ _), List.getLast?_cons_cons,
      List.getLast?_cons_of_ne_nil hne]
    intro h
    exact absurd (hdigits '\n' (List.mem_of_getLast? h)) (by decide)
  have hback : (label.toList ++ '-' :: 'v' :: ds).reverse =
      ds.reverse ++ 'v' :: '-' :: label.toList.reverse := by
    simp
  have hds : ∀ c ∈ ds.reverse, (u.digit? c).isSome = true := fun c hc =>
    Text.isSome_digit? hu hdigits c (List.mem_reverse.mp hc)
  have hstop : ∀ c, ('v' :: '-' :: label.toList.reverse).head? = some c → u.digit? c = none := by
    intro c hc
    cases hc
    exact (hu 'v' (by decide)).1
  rw [splitTrailingVersion, if_neg hline, hback, Text.leadingDigits_append hds hstop,
    List.drop_left]
  have hself : ds.reverse.reverse = ds := List.reverse_reverse ds
  have hne' : ds.reverse ≠ [] := mt List.reverse_eq_nil_iff.mp hne
  generalize ds.reverse = rs at hself hne'
  cases rs with
  | nil => exact absurd rfl hne'
  | cons d rs =>
      change (label.toList.reverse.reverse, '-' :: 'v' :: (d :: rs).reverse) = _
      rw [List.reverse_reverse, hself]

theorem version_ne (label : String) (n : ℕ) : label ≠ label ++ "-v" ++ toString n := by
  intro h
  have hlen := congrArg String.length h
  rw [String.length_append, String.length_append] at hlen
  have htwo : "-v".length = 2 := rfl
  omega

theorem Bracket.label_iff (hu : u.Ascii) (b : Bracket u) {summary : List Char}
    (hclose : ']' ∉ summary) (hversion : ¬ EndsInVersion u summary)
    (hslug : slug (String.ofList summary) ≠ "") {n : ℕ} (hn : 2 ≤ n) :
    subjectLabel u (String.ofList (b.lead ++ '[' :: (b.inner n ++ ']' :: summary))) =
        slug (String.ofList summary) ++ "-v" ++ toString n ↔
      (∀ t ∈ b.front ++ b.back, '\n' ∉ t) ∧
        ∀ v ∈ b.front.findSome? (versionWord u false), v = n := by
  have hafter : Text.afterLast ']' (b.lead ++ '[' :: (b.inner n ++ ']' :: summary)) = summary := by
    rw [← List.cons_append, ← List.append_assoc, Text.afterLast_append hclose]
  have hmem : ']' ∈ b.lead ++ '[' :: (b.inner n ++ ']' :: summary) :=
    List.mem_append_right _ (List.mem_cons_of_mem _ (List.mem_append_right _ List.mem_cons_self))
  have hline : '\n' ∈ b.inner n ↔ ∃ t ∈ b.front ++ b.back, '\n' ∈ t :=
    Bracket.mem_inner (by decide) (by decide) (by decide)
  by_cases hbroken : '\n' ∈ b.inner n
  · -- no bracket is read, and the summary has no version of its own
    have hnone : (leadingBracket (b.lead ++ '[' :: (b.inner n ++ ']' :: summary))).bind
        (versionWord u false) = none := by
      rw [b.leadingBracket_eq, if_pos hbroken]
      rfl
    rw [subjectLabel_none hnone ((if_pos hmem).trans hafter) (trailingVersion_none hversion)]
    obtain ⟨t, ht, hct⟩ := hline.mp hbroken
    exact iff_of_false (version_ne _ n) fun h => h.1 t ht hct
  · have hnoline : ∀ t ∈ b.front ++ b.back, '\n' ∉ t := fun t ht hct =>
      hbroken (hline.mpr ⟨t, ht, hct⟩)
    have hfound : (leadingBracket (b.lead ++ '[' :: (b.inner n ++ ']' :: summary))).bind
        (versionWord u false) = (b.front.findSome? (versionWord u false)).or (some n) := by
      rw [b.leadingBracket_eq, if_neg hbroken]
      exact b.versionWord_inner hu n
    rw [and_iff_right hnoline]
    cases hfront : b.front.findSome? (versionWord u false) with
    | none =>
        rw [hfront, Option.none_or] at hfound
        rw [subjectLabel_bracket hfound hmem, hafter, labelOf_inj hn hslug]
        exact iff_of_true rfl nofun
    | some v =>
        rw [hfront, Option.some_or] at hfound
        rw [subjectLabel_bracket hfound hmem, hafter, labelOf_inj hn hslug]
        exact ⟨fun h w hw => Option.some.inj hw ▸ h, fun h => h v rfl⟩

theorem Gap.label_eq (hu : u.Ascii) (g : Gap) {summary : List Char} (hopen : '[' ∉ summary)
    (hclose : ']' ∉ summary) (hslug : slug (String.ofList summary) ≠ "") {n : ℕ} (hn : 2 ≤ n) :
    subjectLabel u (String.ofList (summary ++ g.before :: (versionToken n ++ g.after))) =
      slug (String.ofList summary) ++ "-v" ++ toString n := by
  -- no bracket comes with the gap and the token
  have hno : ∀ c : Char, Text.isSpace c = false → c ≠ 'v' → c.isDigit = false → c ∉ summary →
      c ∉ summary ++ g.before :: (versionToken n ++ g.after) := by
    intro c hspace hv hdigit hsummary hc
    have hgap : c ∉ g.before :: g.after := by
      intro h
      rw [g.blank c h] at hspace
      cases hspace
    rcases List.mem_append.mp hc with hc | hc
    · exact hsummary hc
    · rcases List.mem_cons.mp hc with rfl | hc
      · exact hgap List.mem_cons_self
      · rcases List.mem_append.mp hc with hc | hc
        · exact not_mem_versionToken hv hdigit n hc
        · exact hgap (List.mem_cons_of_mem _ hc)
  have hnone := leadingBracket_of_not_mem (hno '[' (by decide) (by decide) (by decide) hopen)
  have hclose' := hno ']' (by decide) (by decide) (by decide) hclose
  rw [subjectLabel_trailing (by rw [hnone]; rfl) (if_neg hclose')
    (trailingVersion_eq hu summary g n), labelOf_inj hn hslug]

/-- The label of a subject is right exactly where the subject is clear. -/
theorem Titled.right_iff (hu : u.Ascii) (s : Titled u) {n : ℕ} (hn : 2 ≤ n) :
    s.Right n ↔ s.Clear n := by
  have hright : s.Right n ↔
      s.label n = slug (String.ofList s.summary) ++ "-v" ++ toString n := by
    refine and_iff_left_of_imp fun h => ?_
    rw [h, splitTrailingVersion_version hu]
  rw [hright, Titled.label, Titled.Clear, Titled.text]
  obtain ⟨summary, place, ⟨hopen, hclose⟩, hversion, hslug⟩ := s
  cases place with
  | inl b => exact b.label_iff hu hclose hversion hslug hn
  | inr g => exact iff_of_true (g.label_eq hu hopen hclose hslug hn) trivial

/-- Two subjects of one title have their right labels, the same one exactly for one revision,
exactly when both are clear. -/
theorem labels_iff (hu : u.Ascii) (s s' : Titled u)
    (htitle : Text.strip s.summary = Text.strip s'.summary) {n m : ℕ} (hn : 2 ≤ n) (hm : 2 ≤ m) :
    (s.Right n ∧ s'.Right m ∧ (s.label n = s'.label m ↔ n = m)) ↔ s.Clear n ∧ s'.Clear m := by
  rw [s.right_iff hu hn, s'.right_iff hu hm, ← and_assoc]
  refine and_iff_left_of_imp fun ⟨hs, hs'⟩ => ?_
  have hslug : slug (String.ofList s.summary) = slug (String.ofList s'.summary) := by
    rw [slug_strip, htitle, ← slug_strip]
  have hlabel := labelOf_inj (v := m) hn s.slugged
  rw [((s.right_iff hu hn).mpr hs).1, ((s'.right_iff hu hm).mpr hs').1, ← hslug, eq_comm]
  rw [labelOf, if_pos hm, if_neg s.slugged] at hlabel
  rw [hlabel, eq_comm]

/-- A text that ends in neither white space nor a digit ends in no `v<number>`. -/
theorem not_endsInVersion {s : List Char} {c : Char} (hc : s.getLast? = some c)
    (hspace : Text.isSpace c = false) (hdigit : u.digit? c = none) : ¬ EndsInVersion u s := by
  rintro ⟨front, _, tail, rfl, ⟨ds, rfl, hne, hds⟩, -, hblank⟩
  cases htail : tail.getLast? with
  | none =>
      have hnil := List.getLast?_eq_none_iff.mp htail
      obtain ⟨d, hd⟩ := Option.ne_none_iff_exists'.mp (mt List.getLast?_eq_none_iff.mp hne)
      have hlast : (front ++ 'v' :: ds ++ tail).getLast? = some d := by
        rw [hnil, List.append_nil, List.getLast?_append_of_ne_nil _ (List.cons_ne_nil _ _),
          List.getLast?_cons_of_ne_nil hne, hd]
      have hsome := hds d (List.mem_of_getLast? hd)
      rw [Option.some.inj (hlast.symm.trans hc), hdigit] at hsome
      cases hsome
  | some d =>
      have hlast : (front ++ 'v' :: ds ++ tail).getLast? = some d := by
        rw [List.getLast?_append, htail, Option.some_or]
      have hend := hblank d (List.mem_of_getLast? htail)
      rw [Option.some.inj (hlast.symm.trans hc), hspace] at hend
      cases hend

/-- `mm: fix a leak v<N>`. -/
def coverTitle : Titled Unicode.ascii where
  summary := "mm: fix a leak".toList
  place := .inr ⟨' ', [], by decide⟩
  brackets := by decide
  noVersion := not_endsInVersion (c := 'k') (by decide) (by decide) rfl
  slugged := by decide +kernel

/-- `[PATCH net-next v<N> 0/4] mm: fix a leak`. -/
def netNextTitle : Titled Unicode.ascii where
  summary := " mm: fix a leak".toList
  place := .inl ⟨[], ["PATCH".toList, "net-next".toList], ["0/4".toList],
    List.forall_mem_nil _, by decide⟩
  brackets := by decide
  noVersion := not_endsInVersion (c := 'k') (by decide) (by decide) rfl
  slugged := by decide +kernel

theorem netNext_cover_labels :
    (netNextTitle.Right 2 ∧ coverTitle.Right 3 ∧
      (netNextTitle.label 2 = coverTitle.label 3 ↔ 2 = 3)) ↔
      netNextTitle.Clear 2 ∧ coverTitle.Clear 3 :=
  labels_iff (fun c _ => ⟨rfl, rfl⟩) netNextTitle coverTitle (by decide) (by decide) (by decide)

/-- `[PATCH v6.1.y v<N>] mm: fix a leak`. -/
def stableTitle : Titled Unicode.ascii where
  summary := " mm: fix a leak".toList
  place := .inl ⟨[], ["PATCH".toList, "v6.1.y".toList], [], List.forall_mem_nil _, by decide⟩
  brackets := by decide
  noVersion := not_endsInVersion (c := 'k') (by decide) (by decide) rfl
  slugged := by decide +kernel

/-- The branch a patch is for is taken for its revision. -/
theorem stable_label : stableTitle.label 2 = "mm-fix-a-leak-v6" ∧ ¬ stableTitle.Right 2 := by
  have hlabel : stableTitle.label 2 = "mm-fix-a-leak-v6" := by decide +kernel
  refine ⟨hlabel, fun h => ?_⟩
  have hright := hlabel.symm.trans h.1
  revert hright
  decide +kernel

end KdevopsNg.Common
