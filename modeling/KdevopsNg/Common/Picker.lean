/-
# `Common.Picker` — what a ref form lists, and in which order

The options of `list_refs` are the kernel.org releases that pass the filter, in
their upstream order, then the refs of the database: branches, mirror branches,
remotes and tags.  A name is one entry whatever namespaces use it, and the last
ref read under it says which kind it is (`readRefs_get?`).  Tags go by
`_tag_key`: the newest release first, a final release before its candidates, a
later candidate before an earlier one (`tagKey_lt_iff`); two spellings of one
version keep the order of their names.
-/
import KdevopsNg.Common.Refs

namespace KdevopsNg.Common

open Py

/-! ## The order of versions -/

/-- A final release comes before its candidates, a later candidate before an
earlier one. -/
def RcNewer : Option ℕ → Option ℕ → Prop
  | none, some _ => True
  | some n, some m => m < n
  | _, none => False

namespace Version

/-- The two tags name one release. -/
structure Same (a b : Version) : Prop where
  major : a.major = b.major
  minor : a.minor = b.minor
  patch : a.patch.getD 0 = b.patch.getD 0
  rc : a.rc = b.rc

/-- `a` is released after `b`; a missing patch number counts as zero. -/
inductive Newer (a b : Version) : Prop where
  | major (h : b.major < a.major)
  | minor (h₁ : a.major = b.major) (h : b.minor < a.minor)
  | patch (h₁ : a.major = b.major) (h₂ : a.minor = b.minor) (h : b.patch.getD 0 < a.patch.getD 0)
  | rc (h₁ : a.major = b.major) (h₂ : a.minor = b.minor) (h₃ : a.patch.getD 0 = b.patch.getD 0)
      (h : RcNewer a.rc b.rc)

end Version

/-- The order of the tags in a form: the versions, newest first, then the other
tags by name. -/
inductive TagBefore (u : Unicode) (a b : List Char) : Prop where
  | newer {m n : Version} (ha : versionMatch u a = some m) (hb : versionMatch u b = some n)
      (h : m.Newer n)
  | spelling {m n : Version} (ha : versionMatch u a = some m) (hb : versionMatch u b = some n)
      (h : m.Same n) (hname : a < b)
  | version {m : Version} (ha : versionMatch u a = some m) (hb : versionMatch u b = none)
  | name (ha : versionMatch u a = none) (hb : versionMatch u b = none) (hname : a < b)

theorem TagKey.mk_lt_mk {a b c d e f a' b' c' d' e' f' : ℤ} {x y : List Char} :
    TagKey.mk a b c d e f x < TagKey.mk a' b' c' d' e' f' y ↔
      a < a' ∨ a = a' ∧ (b < b' ∨ b = b' ∧ (c < c' ∨ c = c' ∧ (d < d' ∨ d = d' ∧
        (e < e' ∨ e = e' ∧ (f < f' ∨ f = f' ∧ x < y))))) := by
  unfold TagKey.mk
  simp only [Prod.Lex.toLex_lt_toLex]

/-- The last two numbers of the key order the candidates. -/
theorem rcKey_lt_iff (r s : Option ℕ) (P : Prop) :
    ((if r.isNone then (0 : ℤ) else 1) < (if s.isNone then 0 else 1) ∨
        (if r.isNone then (0 : ℤ) else 1) = (if s.isNone then 0 else 1) ∧
          (-((r.getD 0 : ℕ) : ℤ) < -((s.getD 0 : ℕ) : ℤ) ∨
            -((r.getD 0 : ℕ) : ℤ) = -((s.getD 0 : ℕ) : ℤ) ∧ P)) ↔
      RcNewer r s ∨ r = s ∧ P := by
  cases r with
  | none =>
      cases s with
      | none => simp [RcNewer]
      | some m => simp [RcNewer]
  | some n =>
      cases s with
      | none => simp [RcNewer]
      | some m => simp [RcNewer, Int.natCast_inj]

/-- The order of the keys is the order of the tags. -/
theorem tagKey_lt_iff (u : Unicode) (a b : List Char) :
    tagKey u a < tagKey u b ↔ TagBefore u a b := by
  unfold tagKey
  cases ha : versionMatch u a with
  | none =>
      cases hb : versionMatch u b with
      | none =>
          dsimp only
          rw [TagKey.mk_lt_mk]
          constructor
          · intro h
            exact .name ha hb (by simpa using h)
          · rintro (⟨ha', -, -⟩ | ⟨ha', -, -, -⟩ | ⟨ha', -⟩ | ⟨-, -, h⟩)
            · rw [ha] at ha'; cases ha'
            · rw [ha] at ha'; cases ha'
            · rw [ha] at ha'; cases ha'
            · simpa using h
      | some n =>
          dsimp only
          rw [TagKey.mk_lt_mk]
          constructor
          · intro h
            simp at h
          · rintro (⟨ha', -, -⟩ | ⟨ha', -, -, -⟩ | ⟨ha', -⟩ | ⟨-, hb', -⟩)
            · rw [ha] at ha'; cases ha'
            · rw [ha] at ha'; cases ha'
            · rw [ha] at ha'; cases ha'
            · rw [hb] at hb'; cases hb'
  | some m =>
      cases hb : versionMatch u b with
      | none =>
          dsimp only
          rw [TagKey.mk_lt_mk]
          exact ⟨fun _ => .version ha hb, fun _ => .inl (by decide)⟩
      | some n =>
          dsimp only
          rw [TagKey.mk_lt_mk]
          have hrc := rcKey_lt_iff m.rc n.rc (a < b)
          constructor
          · rintro (h | ⟨-, h | ⟨h₁, h | ⟨h₂, h | ⟨h₃, h⟩⟩⟩⟩)
            · exact absurd h (lt_irrefl 0)
            · exact .newer ha hb (.major (by omega))
            · exact .newer ha hb (.minor (by omega) (by omega))
            · exact .newer ha hb (.patch (by omega) (by omega) (by omega))
            · rcases hrc.mp h with h | ⟨h₄, h⟩
              · exact .newer ha hb (.rc (by omega) (by omega) (by omega) h)
              · exact .spelling ha hb ⟨by omega, by omega, by omega, h₄⟩ h
          · rintro (⟨ha', hb', h⟩ | ⟨ha', hb', h, hname⟩ | ⟨-, hb'⟩ | ⟨ha', -, -⟩)
            · rw [ha] at ha'
              rw [hb] at hb'
              cases ha'
              cases hb'
              refine .inr ⟨rfl, ?_⟩
              cases h with
              | major h => exact .inl (by omega)
              | minor h₁ h => exact .inr ⟨by omega, .inl (by omega)⟩
              | patch h₁ h₂ h => exact .inr ⟨by omega, .inr ⟨by omega, .inl (by omega)⟩⟩
              | rc h₁ h₂ h₃ h =>
                  exact .inr ⟨by omega, .inr ⟨by omega, .inr ⟨by omega, hrc.mpr (.inl h)⟩⟩⟩
            · rw [ha] at ha'
              rw [hb] at hb'
              cases ha'
              cases hb'
              obtain ⟨h₁, h₂, h₃, h₄⟩ := h
              exact .inr ⟨rfl, .inr ⟨by omega, .inr ⟨by omega,
                .inr ⟨by omega, hrc.mpr (.inr ⟨h₄, hname⟩)⟩⟩⟩⟩
            · rw [hb] at hb'; cases hb'
            · rw [ha] at ha'; cases ha'

/-- The key ends with the name. -/
theorem tagKey_injective (u : Unicode) {a b : List Char} (h : tagKey u a = tagKey u b) :
    a = b := by
  have hname : ∀ c : List Char, (ofLex (ofLex (ofLex (ofLex (ofLex (ofLex
      (tagKey u c)).2).2).2).2).2).2 = c := by
    intro c
    unfold tagKey
    cases versionMatch u c with
    | none => rfl
    | some m => rfl
  rw [← hname a, h, hname b]

/-! ## The order of the options -/

/-- The place of a kind in a form. -/
def RefKind.rank : RefKind → ℕ
  | .head => 0
  | .mirror => 1
  | .remote => 2
  | .tag => 3

/-- The order of the refs in a form. -/
inductive Before (u : Unicode) : RefKind × List Char → RefKind × List Char → Prop where
  | kind {k k' : RefKind} {v v' : List Char} (h : k.rank < k'.rank) : Before u (k, v) (k', v')
  | name {k : RefKind} {v v' : List Char} (hk : k ≠ .tag) (h : v < v') : Before u (k, v) (k, v')
  | tag {v v' : List Char} (h : TagBefore u v v') : Before u (.tag, v) (.tag, v')

theorem not_before_self (u : Unicode) (p : RefKind × List Char) : ¬ Before u p p := by
  rintro (⟨h⟩ | ⟨-, h⟩ | ⟨h⟩)
  · exact lt_irrefl _ h
  · exact lt_irrefl _ h
  · exact lt_irrefl _ ((tagKey_lt_iff u _ _).mpr h)

/-- Sorting distinct names by a key that tells them apart puts them in strict
order. -/
theorem pairwise_sorted {κ : Type} [LinearOrder κ] (f : List Char → κ)
    (hf : ∀ a b, f a = f b → a = b) {names : List (List Char)} (hnames : names.Nodup) :
    (names.insertionSort fun a b => f a ≤ f b).Pairwise fun a b => f a < f b := by
  have htotal : Std.Total fun a b : List Char => f a ≤ f b := ⟨fun a b => le_total (f a) (f b)⟩
  have htrans : IsTrans (List Char) fun a b => f a ≤ f b := ⟨fun _ _ _ => le_trans⟩
  have hnodup : (names.insertionSort fun a b => f a ≤ f b).Nodup :=
    (List.perm_insertionSort _ names).nodup_iff.mpr hnames
  refine ((List.pairwise_insertionSort _ names).and hnodup).imp ?_
  rintro a b ⟨hle, hne⟩
  exact lt_of_le_of_ne hle fun h => hne (hf a b h)

section Listing

variable (u : Unicode) (lower : List Char → List Char) (bare : Bare) (releases : List Release)
  (repo : String) (filterText : List Char) (remotes : Bool)

/-- The refs a form would show were there room for all of them. -/
def matching : List (RefKind × List Char) :=
  [RefKind.head, .mirror, .remote, .tag].flatMap fun k =>
    (shownNames u lower (readRefs bare)
      ((shownReleases lower (readRefs bare) releases repo filterText).map Release.tag)
      filterText remotes k).map (k, ·)

theorem offered_eq :
    offered u lower bare releases repo filterText remotes =
      (matching u lower bare releases repo filterText remotes).take
        (maxOptions - (shownReleases lower (readRefs bare) releases repo filterText).length) := rfl

theorem namesOfKind_nodup (kind : RefKind) :
    (namesOfKind lower (readRefs bare) filterText kind).Nodup :=
  (readRefs_nodup bare).sublist (List.filter_sublist.map Prod.fst)

theorem mem_namesOfKind {kind : RefKind} {v : List Char} :
    v ∈ namesOfKind lower (readRefs bare) filterText kind ↔
      Dict.get? (readRefs bare) v = some kind ∧ fits lower filterText v = true := by
  unfold namesOfKind
  rw [List.mem_map]
  constructor
  · rintro ⟨⟨v', k⟩, hmem, rfl⟩
    obtain ⟨hentry, hk⟩ := List.mem_filter.mp hmem
    rw [decide_eq_true_eq] at hk
    obtain ⟨rfl, hfits⟩ := hk
    exact ⟨Dict.get?_of_mem (readRefs_nodup bare) hentry, hfits⟩
  · rintro ⟨hget, hfits⟩
    refine ⟨(v, kind), List.mem_filter.mpr ⟨Dict.mem_of_get? hget, ?_⟩, rfl⟩
    exact decide_eq_true ⟨rfl, hfits⟩

/-- A ref is listed when its name passes the filter and its kind is shown, and
a tag when no release shown has its name. -/
theorem mem_matching {k : RefKind} {v : List Char} :
    (k, v) ∈ matching u lower bare releases repo filterText remotes ↔
      Dict.get? (readRefs bare) v = some k ∧ fits lower filterText v = true ∧
        (k = .remote → remotes = true) ∧
        (k = .tag → v ∉ (shownReleases lower (readRefs bare) releases repo filterText).map
          Release.tag) := by
  have hkind : (k, v) ∈ matching u lower bare releases repo filterText remotes ↔
      v ∈ shownNames u lower (readRefs bare)
        ((shownReleases lower (readRefs bare) releases repo filterText).map Release.tag)
        filterText remotes k := by
    unfold matching
    rw [List.mem_flatMap]
    constructor
    · rintro ⟨k', -, hmem⟩
      obtain ⟨v', hv', heq⟩ := List.mem_map.mp hmem
      cases heq
      exact hv'
    · intro h
      exact ⟨k, by cases k <;> decide, List.mem_map.mpr ⟨v, h, rfl⟩⟩
  rw [hkind]
  cases k with
  | head =>
      rw [shownNames, List.mem_insertionSort, mem_namesOfKind]
      simp
  | mirror =>
      rw [shownNames, List.mem_insertionSort, mem_namesOfKind]
      simp
  | remote =>
      rw [shownNames]
      cases remotes with
      | true =>
          rw [if_pos rfl, List.mem_insertionSort, mem_namesOfKind]
          simp
      | false => simp
  | tag =>
      rw [shownNames, List.mem_insertionSort, List.mem_filter, mem_namesOfKind]
      simp [and_assoc]

/-- The refs stand in the order of a form. -/
theorem matching_ordered :
    (matching u lower bare releases repo filterText remotes).Pairwise (Before u) := by
  unfold matching
  rw [List.pairwise_flatMap]
  constructor
  · intro k _
    rw [List.pairwise_map]
    have hnames : ∀ kind, kind ≠ RefKind.tag →
        ((namesOfKind lower (readRefs bare) filterText kind).insertionSort (· ≤ ·)).Pairwise
          fun a b => Before u (kind, a) (kind, b) := fun kind hkind =>
      (pairwise_sorted id (fun _ _ h => h) (namesOfKind_nodup lower bare filterText kind)).imp
        fun h => .name hkind h
    cases k with
    | head => exact hnames .head (by decide)
    | mirror => exact hnames .mirror (by decide)
    | remote =>
        rw [shownNames]
        cases remotes with
        | true => exact hnames .remote (by decide)
        | false => exact List.Pairwise.nil
    | tag =>
        rw [shownNames]
        exact (pairwise_sorted (tagKey u) (fun _ _ => tagKey_injective u)
          ((namesOfKind_nodup lower bare filterText .tag).filter _)).imp
          fun h => .tag ((tagKey_lt_iff u _ _).mp h)
  · have hrank : [RefKind.head, .mirror, .remote, .tag].Pairwise
        fun k k' => k.rank < k'.rank := by decide
    refine hrank.imp fun hlt x hx y hy => ?_
    obtain ⟨v, -, rfl⟩ := List.mem_map.mp hx
    obtain ⟨w, -, rfl⟩ := List.mem_map.mp hy
    exact .kind hlt

/-- No name is listed twice. -/
theorem matching_nodup :
    ((matching u lower bare releases repo filterText remotes).map Prod.snd).Nodup := by
  unfold List.Nodup
  rw [List.pairwise_map]
  refine (matching_ordered u lower bare releases repo filterText remotes).imp_of_mem ?_
  rintro ⟨k, v⟩ ⟨k', v'⟩ hmem hmem' hbefore hname
  -- one name has one kind, and nothing stands before itself
  cases (hname : v = v')
  have hk := (mem_matching u lower bare releases repo filterText remotes).mp hmem
  have hk' := (mem_matching u lower bare releases repo filterText remotes).mp hmem'
  rw [hk.1] at hk'
  cases hk'.1
  exact not_before_self u _ hbefore

end Listing

end KdevopsNg.Common
