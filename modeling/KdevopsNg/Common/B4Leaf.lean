/-
# `Common.B4Leaf` — the branch of a series as the name of a ref

`_b4_slug` of `f/common/worktree.py` makes the leaf of `refs/heads/b4/<leaf>` from a message-id
or a URL: the last piece of the path up to its `@` (`b4Component`) is slugged and cut at 48
characters.  The slug keeps dots, and the cut comes after the ends were trimmed, so three things
are left that git refuses (`b4_leaf_iff`), where `b4Part` is what of the component the leaf
stands for:

    ..          two dots in a row
    .           at the end, where the cut falls behind a dot
    .lock       at the end

Everything else holds of every series: the leaf is there, is no longer than 48, begins with a
letter or a digit, and has no character that git refuses.
-/
import KdevopsNg.Common.Slug
import KdevopsNg.Py.Contents
import KdevopsNg.Git.Refname

namespace KdevopsNg.Common

open Py Git

/-- The piece of a series that its branch is named after. -/
def b4Component (b4Series : String) : List Char :=
  let value := Text.stripBy (· = '/') (Text.strip b4Series.toList)
  let value := if '/' ∈ value then Text.afterLast '/' value else value
  value.takeWhile (· ≠ '@')

/-- The part of a text that the first `n` characters of its slug stand for: a run of characters
that a slug has none of stands for one dash. -/
def covered : ℕ → Bool → List Char → List Char
  | _, _, [] => []
  | n, inRun, c :: cs =>
      if isSlugChar c = true then (if n = 0 then [] else c :: covered (n - 1) false cs)
      else if inRun = true then c :: covered n true cs
      else if n = 0 then [] else c :: covered (n - 1) true cs

/-- The part of the component that the leaf stands for, in lower case. -/
def b4Part (b4Series : String) : List Char :=
  (covered 48 false (Text.stripBy (fun c => !c.isAlphanum) (b4Component b4Series))).map Char.toLower

/-! ## Runs of other characters -/

/-- The collapse is inside a run behind a text. -/
def runAfter (inRun : Bool) (s : List Char) : Bool :=
  (s.getLast?.map fun c => !isSlugChar c).getD inRun

theorem runAfter_cons (inRun : Bool) (c : Char) (s : List Char) :
    runAfter inRun (c :: s) = runAfter (!isSlugChar c) s := by
  rw [runAfter, runAfter, List.getLast?_cons]
  cases s.getLast? with
  | none => rfl
  | some d => rfl

theorem collapse_append (inRun : Bool) (s t : List Char) :
    collapse inRun (s ++ t) = collapse inRun s ++ collapse (runAfter inRun s) t := by
  induction s generalizing inRun with
  | nil => rfl
  | cons c s ih =>
      rw [List.cons_append, collapse, collapse, runAfter_cons]
      cases hc : isSlugChar c with
      | true =>
          rw [if_pos rfl, if_pos rfl, ih]
          rfl
      | false =>
          rw [if_neg Bool.false_ne_true, if_neg Bool.false_ne_true]
          cases inRun with
          | true => exact ih true
          | false => exact congrArg ('-' :: ·) (ih true)

/-- One more character: itself, or the dash of its run. -/
theorem collapse_snoc (inRun : Bool) (s : List Char) (c : Char) :
    collapse inRun (s ++ [c]) = collapse inRun s ++
      if isSlugChar c = true then [c] else if runAfter inRun s = true then [] else ['-'] := by
  rw [collapse_append, collapse]
  split_ifs
  · rfl
  · rfl
  · rfl

/-- Inside a run a text has ended with a dash, if it has begun. -/
theorem collapse_last {inRun : Bool} {s : List Char} (h : runAfter inRun s = true) :
    ∀ c ∈ (collapse inRun s).getLast?, c = '-' := by
  induction s using List.reverseRecOn with
  | nil => exact nofun
  | append_singleton s d ih =>
      rw [runAfter, List.getLast?_concat] at h
      have hd : isSlugChar d = false := by simpa using h
      rw [collapse_snoc, hd, if_neg Bool.false_ne_true]
      split_ifs with hrun
      · rw [List.append_nil]
        exact ih hrun
      · intro c hc
        rw [List.getLast?_concat] at hc
        exact (Option.some.inj hc).symm

theorem collapse_covered (n : ℕ) (inRun : Bool) (s : List Char) :
    collapse inRun (covered n inRun s) = (collapse inRun s).take n := by
  induction s generalizing n inRun with
  | nil => exact List.take_nil.symm
  | cons c s ih =>
      rw [covered, collapse]
      cases hc : isSlugChar c with
      | true =>
          rw [if_pos rfl, if_pos rfl]
          cases n with
          | zero => rfl
          | succ n => rw [if_neg n.succ_ne_zero, collapse, if_pos hc, ih]; rfl
      | false =>
          rw [if_neg Bool.false_ne_true, if_neg Bool.false_ne_true]
          cases inRun with
          | true => rw [if_pos rfl, collapse, if_neg (by rw [hc]; decide), ih]; rfl
          | false =>
              cases n with
              | zero => rfl
              | succ n =>
                  rw [if_neg Bool.false_ne_true, if_neg n.succ_ne_zero, collapse,
                    if_neg (by rw [hc]; decide), if_neg Bool.false_ne_true, ih]
                  rfl

theorem prefix_covered (n : ℕ) (inRun : Bool) (s : List Char) : covered n inRun s <+: s := by
  induction s generalizing n inRun with
  | nil => exact List.prefix_refl []
  | cons c s ih =>
      rw [covered]
      split_ifs
      · exact List.nil_prefix
      · exact List.cons_prefix_cons.mpr ⟨rfl, ih _ _⟩
      · exact List.cons_prefix_cons.mpr ⟨rfl, ih _ _⟩
      · exact List.nil_prefix
      · exact List.cons_prefix_cons.mpr ⟨rfl, ih _ _⟩

theorem concat_suffix {p s : List Char} {c d : Char} : p ++ [c] <:+ s ++ [d] ↔ c = d ∧ p <:+ s := by
  rw [← List.reverse_prefix, List.reverse_append, List.reverse_append, List.reverse_singleton,
    List.reverse_singleton, List.singleton_append, List.singleton_append, List.cons_prefix_cons,
    List.reverse_prefix]

section
variable {p : List Char} (hp : ∀ c ∈ p, isSlugChar c = true ∧ c ≠ '-')
include hp

/-- A text of characters that a slug keeps ends a slug when it ends what is slugged. -/
theorem suffix_collapse (inRun : Bool) (s : List Char) : p <:+ collapse inRun s ↔ p <:+ s := by
  induction p using List.reverseRecOn generalizing s with
  | nil => exact iff_of_true (List.nil_suffix) (List.nil_suffix)
  | append_singleton p c ih =>
      obtain ⟨hc, hdash⟩ := hp c (List.mem_append_right _ (List.mem_singleton_self c))
      have ih' := ih fun d hd => hp d (List.mem_append_left _ hd)
      rcases List.eq_nil_or_concat s with rfl | ⟨s, d, rfl⟩
      · exact Iff.rfl
      · rw [List.concat_eq_append, concat_suffix, collapse_snoc]
        cases hd : isSlugChar d with
        | true => rw [if_pos rfl, concat_suffix, ih']
        | false =>
            -- neither the text nor its slug ends in a character that is kept
            have hne : c ≠ d := by
              rintro rfl
              rw [hc] at hd
              cases hd
            refine iff_of_false ?_ fun h => hne h.1
            rw [if_neg Bool.false_ne_true]
            split_ifs with hrun
            · rw [List.append_nil]
              rintro ⟨t, ht⟩
              have hlast : (collapse inRun s).getLast? = some c := by
                rw [← ht, ← List.append_assoc, List.getLast?_concat]
              exact hdash (collapse_last hrun c hlast)
            · rw [concat_suffix]
              exact fun h => hdash h.1

/-- It stands in a slug when it stands in what is slugged. -/
theorem infix_collapse (inRun : Bool) (s : List Char) : p <:+: collapse inRun s ↔ p <:+: s := by
  constructor
  · rintro ⟨a, b, hab⟩
    have htake : p <:+ (collapse inRun s).take (a ++ p).length := by
      rw [← hab, List.take_left]
      exact List.suffix_append a p
    rw [← collapse_covered, suffix_collapse hp] at htake
    exact htake.isInfix.trans (prefix_covered _ _ _).isInfix
  · rintro ⟨a, b, rfl⟩
    rw [collapse_append]
    exact ((suffix_collapse hp _ _).mpr (List.suffix_append a p)).isInfix.trans
      (List.prefix_append _ _).isInfix

end

/-! ## The ends of a slug -/

/-- What is trimmed from the ends of a slug. -/
def isSeparator (c : Char) : Bool := decide (c = '-' ∨ c = '.' ∨ c = '_')

theorem isAlphanum_of_slugChar {c : Char} (h : isSlugChar c = true) :
    (!c.isAlphanum) = isSeparator c :=
  of_isSlugChar (P := fun c => (!c.isAlphanum) = isSeparator c) (by decide) h

theorem not_alphanum_of_not_slugChar {c : Char} (h : isSlugChar c = false) :
    (!c.isAlphanum) = true := by
  rw [isSlugChar] at h
  rw [Char.isAlphanum]
  simp only [Bool.or_eq_false_iff] at h
  rw [h.1.1.1.1, h.1.1.1.2]
  rfl

theorem dropWhile_collapse (inRun inRun' : Bool) (s : List Char) :
    (collapse inRun s).dropWhile isSeparator =
      collapse inRun' (s.dropWhile fun c => !c.isAlphanum) := by
  induction s generalizing inRun with
  | nil => rfl
  | cons c s ih =>
      rw [collapse, List.dropWhile_cons]
      cases hc : isSlugChar c with
      | true =>
          rw [if_pos rfl, List.dropWhile_cons, isAlphanum_of_slugChar hc]
          split_ifs with hsep
          · exact ih false
          · rw [collapse, if_pos hc]
      | false =>
          rw [if_neg Bool.false_ne_true, if_pos (not_alphanum_of_not_slugChar hc)]
          cases inRun with
          | true => exact ih true
          | false => exact ih true

theorem rdropWhile_collapse (inRun : Bool) (s : List Char) :
    (collapse inRun s).rdropWhile isSeparator =
      collapse inRun (s.rdropWhile fun c => !c.isAlphanum) := by
  induction s using List.reverseRecOn with
  | nil => rfl
  | append_singleton s c ih =>
      rw [collapse_snoc, List.rdropWhile_concat]
      cases hc : isSlugChar c with
      | true =>
          rw [if_pos rfl, List.rdropWhile_concat, isAlphanum_of_slugChar hc]
          split_ifs with hsep
          · exact ih
          · rw [collapse_snoc, if_pos hc]
      | false =>
          rw [if_neg Bool.false_ne_true, if_pos (not_alphanum_of_not_slugChar hc), ← ih]
          split_ifs
          · rw [List.append_nil]
          · exact List.rdropWhile_concat_pos _ _ _ rfl

/-- White space at the ends is trimmed with the rest. -/
theorem stripBy_strip {q : Char → Bool} (hq : ∀ c, Text.isSpace c = true → q c = true)
    (s : List Char) : Text.stripBy q (Text.strip s) = Text.stripBy q s := by
  obtain ⟨ws, ws', hs, hfront, hback⟩ := Text.strip_parts s
  have hend : ∀ t : List Char, Text.stripBy q (t ++ ws') = Text.stripBy q t := by
    intro t
    rw [Text.stripBy, Text.stripBy, List.dropWhile_append]
    have hnil : ws'.dropWhile q = [] :=
      List.dropWhile_eq_nil_iff.mpr fun c hc => hq c (hback c hc)
    split_ifs with ht
    · rw [hnil, List.isEmpty_iff.mp ht]
    · rw [List.reverse_append, List.dropWhile_append_of_pos fun c hc =>
        hq c (hback c (List.mem_reverse.mp hc))]
  conv_rhs => rw [hs]
  rw [Text.stripBy.eq_1 q (ws ++ _), List.dropWhile_append_of_pos fun c hc => hq c (hfront c hc)]
  exact (hend _).symm

theorem slug_toList (v : List Char) : (slug (String.ofList v)).toList =
    (collapse false (Text.stripBy (fun c => !c.isAlphanum) v)).map Char.toLower := by
  have hspace : ∀ c, Text.isSpace c = true → (!c.isAlphanum) = true := by
    intro c hc
    refine not_alphanum_of_not_slugChar (Bool.eq_false_iff.mpr fun hslug => ?_)
    exact of_isSlugChar (P := fun c => Text.isSpace c ≠ true) (by decide) hslug hc
  have hcollapse : ∀ t : List Char, Text.stripBy isSeparator (collapse false t) =
      collapse false (Text.stripBy (fun c => !c.isAlphanum) t) := fun t =>
    (congrArg (List.rdropWhile isSeparator) (dropWhile_collapse false false t)).trans
      (rdropWhile_collapse false _)
  rw [slug, String.toList_ofList, String.toList_ofList]
  refine congrArg (List.map Char.toLower) ?_
  exact (hcollapse _).trans (congrArg (collapse false) (stripBy_strip hspace v))

/-! ## The leaf -/

theorem isSlugChar_toLower (c : Char) : isSlugChar c.toLower = isSlugChar c := by
  by_cases hc : c.toNat < 0x7b
  · have hall : ∀ n : Fin 0x7b,
        isSlugChar (Char.ofNat n).toLower = isSlugChar (Char.ofNat n) := by decide
    have hone := hall ⟨c.toNat, hc⟩
    rwa [Char.ofNat_toNat] at hone
  · have hself : c.toLower = c := by
      refine dif_neg fun h => ?_
      have hz : c.toNat ≤ 0x5a := UInt32.le_iff_toNat_le.mp h.2
      omega
    rw [hself]

theorem collapse_toLower (inRun : Bool) (s : List Char) :
    collapse inRun (s.map Char.toLower) = (collapse inRun s).map Char.toLower := by
  induction s generalizing inRun with
  | nil => rfl
  | cons c s ih =>
      rw [List.map_cons, collapse, collapse, isSlugChar_toLower]
      cases isSlugChar c with
      | true => exact congrArg (c.toLower :: ·) (ih false)
      | false =>
          cases inRun with
          | true => exact ih true
          | false => exact congrArg ('-' :: ·) (ih true)

/-- The leaf is the slug of the part it stands for. -/
theorem leaf_part (b4Series : String) :
    (slug (String.ofList (b4Component b4Series))).toList.take 48 =
      collapse false (b4Part b4Series) := by
  rw [slug_toList, ← List.map_take, ← collapse_covered, b4Part, collapse_toLower]

theorem b4Slug_toList (b4Series : String) : (b4Slug b4Series).toList =
    if collapse false (b4Part b4Series) = [] then "series".toList
    else collapse false (b4Part b4Series) := by
  have hleaf : b4Slug b4Series =
      (let leaf := String.ofList ((slug (String.ofList (b4Component b4Series))).toList.take 48)
      if leaf = "" then "series" else leaf) := by
    rw [b4Slug, b4Component]
  rw [hleaf, leaf_part]
  dsimp only
  generalize collapse false (b4Part b4Series) = leaf
  cases leaf with
  | nil => rfl
  | cons c leaf =>
      have hne : String.ofList (c :: leaf) ≠ "" := by
        intro h
        have hnil := congrArg String.toList h
        rw [String.toList_ofList] at hnil
        cases hnil
      rw [if_neg hne, if_neg (List.cons_ne_nil c leaf), String.toList_ofList]

theorem length_b4Slug (b4Series : String) : (b4Slug b4Series).length ≤ 48 := by
  rw [← String.length_toList, b4Slug_toList]
  split_ifs
  · decide
  · rw [← leaf_part]
    exact List.length_take_le _ _

/-- A character of the leaf is one of a ref, and no slash. -/
theorem isRefChar_of_slugChar {c : Char} (h : isSlugChar c = true) :
    isRefChar c = true ∧ c ≠ '/' :=
  of_isSlugChar (P := fun c => isRefChar c = true ∧ c ≠ '/') (by decide) h

/-- The leaf begins with a letter or a digit. -/
theorem head_leaf (b4Series : String) : (collapse false (b4Part b4Series)).head? ≠ some '.' := by
  rw [b4Part]
  generalize ht : Text.stripBy (fun c => !c.isAlphanum) (b4Component b4Series) = t
  cases t with
  | nil => exact nofun
  | cons c t =>
      have hhead : (Text.stripBy (fun c => !c.isAlphanum) (b4Component b4Series)).head? =
        some c := congrArg List.head? ht
      have hc : (!c.isAlphanum) = false := Text.head_stripBy hhead
      have hslug : isSlugChar c = true := by
        rw [isSlugChar, ← Char.isAlphanum, Bool.not_eq_eq_eq_not.mp hc]
        rfl
      have hdot : (!c.isAlphanum) = false → c.toLower ≠ '.' :=
        of_isSlugChar (P := fun c => (!c.isAlphanum) = false → c.toLower ≠ '.') (by decide) hslug
      rw [covered, if_pos hslug, if_neg (by decide), List.map_cons, collapse, isSlugChar_toLower,
        if_pos hslug]
      exact fun h => hdot hc (Option.some.inj h)

theorem refname_b4 : Refname "refs/heads/b4".toList := by
  refine ⟨?_, ?_, ?_, ?_, ?_, ?_, ?_⟩
  · decide
  · decide
  · decide
  · decide
  · decide
  · decide
  · decide

/-- The branch of a series is a name git takes exactly when the part its leaf stands for has no
two dots in a row and ends neither in a dot nor in `.lock`. -/
theorem b4_leaf_iff (b4Series : String) :
    (Refname ("refs/heads/".toList ++ (b4Branch b4Series).toList) ∧
      (b4Slug b4Series).length ≤ 48 ∧ b4Slug b4Series ≠ "") ↔
      ¬ "..".toList <:+: b4Part b4Series ∧ (b4Part b4Series).getLast? ≠ some '.' ∧
        ¬ ".lock".toList <:+ b4Part b4Series := by
  have hdots := infix_collapse (p := "..".toList) (by decide) false (b4Part b4Series)
  have hlock := suffix_collapse (p := ".lock".toList) (by decide) false (b4Part b4Series)
  have hlast : (collapse false (b4Part b4Series)).getLast? ≠ some '.' ↔
      (b4Part b4Series).getLast? ≠ some '.' := by
    rw [ne_eq, ne_eq, ← List.singleton_suffix_iff_getLast?_eq_some,
      ← List.singleton_suffix_iff_getLast?_eq_some]
    exact (suffix_collapse (p := ['.']) (by decide) false (b4Part b4Series)).not
  have hchars : ∀ c ∈ collapse false (b4Part b4Series), isRefChar c = true ∧ c ≠ '/' :=
    fun c hc => isRefChar_of_slugChar (mem_collapse hc)
  have hname : "refs/heads/".toList ++ (b4Branch b4Series).toList =
      "refs/heads/b4".toList ++ '/' :: (b4Slug b4Series).toList := by
    rw [b4Branch, String.toList_append, ← List.append_assoc]
    rfl
  have hleaf : '/' ∉ (b4Slug b4Series).toList := by
    rw [b4Slug_toList]
    split_ifs
    · decide
    · exact fun hmem => (hchars '/' hmem).2 rfl
  rw [hname, refname_iff refname_b4 hleaf, and_iff_left ⟨length_b4Slug b4Series,
    b4Slug_ne_empty b4Series⟩, b4Slug_toList, ← hdots, ← hlast, ← hlock]
  split_ifs with hnil
  · rw [hnil]
    exact iff_of_true (by decide) (by decide)
  · constructor
    · rintro ⟨-, -, hl, hk, hd, -, -⟩
      exact ⟨hd, hl, hk⟩
    · rintro ⟨hd, hl, hk⟩
      refine ⟨hnil, head_leaf b4Series, hl, hk, hd, ?_, fun c hc => (hchars c hc).1⟩
      -- a slug has no `@`
      rintro ⟨a, b, hab⟩
      have hat : '@' ∈ collapse false (b4Part b4Series) := by
        rw [← hab]
        exact List.mem_append_left _ (List.mem_append_right _ List.mem_cons_self)
      exact absurd (mem_collapse hat) (by decide)

/-- The cut at 48 characters falls behind a dot: the name ends in it, and git refuses it. -/
theorem cut_leaf_refused :
    ¬ Refname ("refs/heads/".toList ++
      (b4Branch "cover.1758450000.git.alessandro-maria-benedetti.rossi@example.org").toList) :=
  fun h => h.last (by decide +kernel)

end KdevopsNg.Common
