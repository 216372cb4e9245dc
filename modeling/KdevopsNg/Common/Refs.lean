/-
# `Common.Refs` — the ref picker and the ref resolver

`f/common/gitrefs.py`: what `list_refs` offers in a form and what `qualify_ref`
makes of the value the form submits.  Both read the same files of a bare
repository, the text of `packed-refs` and the loose entries under `refs/`, each
in its own way: the picker keeps one entry for a name (the last one read, under
the first namespace of `_REF_KINDS` it fits), the resolver tries the namespaces
one after the other (a tag, the mirror, a branch, any remote).

A name that is used in several namespaces is therefore offered for one ref and
may be resolved to another: `pick_resolves_iff` says for which options the two
agree.

Texts are lists of characters.  `lower` is `str.lower`, and the digits of a
version are those `re` accepts (`Unicode`).
-/
import KdevopsNg.Py.Dict
import KdevopsNg.Py.Text
import Mathlib.Data.List.Sort
import Mathlib.Data.Prod.Lex
import Mathlib.Order.Lex
import Mathlib.Data.List.Lex
import Mathlib.Data.Char

namespace KdevopsNg.Common

open Py

/-! ## The database -/

/-- The ref files of a bare repository: the text of `packed-refs` (empty when
there is none), and the loose entries under `refs/heads`, `refs/remotes` and
`refs/tags`, relative to these, in the order they are listed. -/
structure Bare where
  packed : List Char
  heads : List (List Char)
  remotes : List (List Char)
  tags : List (List Char)
  deriving DecidableEq, Repr

/-- The name on a line of `packed-refs`; comments and peeled ids have none. -/
def packedName (line : List Char) : Option (List Char) :=
  if line = [] ∨ line.head? = some '#' ∨ line.head? = some '^' then none
  else some (line.dropWhile (· ≠ ' ')).tail

/-- The names in `packed-refs`. -/
def packedNames (packed : List Char) : List (List Char) :=
  (Text.splitlines packed).filterMap packedName

/-! ## The picker's names -/

/-- The kinds of `_REF_KINDS`. -/
inductive RefKind where
  | head
  | mirror
  | remote
  | tag
  deriving DecidableEq, Repr

/-- `_REF_KINDS`. -/
def refKinds : List (RefKind × List Char × List Char) :=
  [(.head, "refs/heads/".toList, []),
   (.mirror, "refs/remotes/mirror/".toList, "mirror/".toList),
   (.remote, "refs/remotes/".toList, []),
   (.tag, "refs/tags/".toList, [])]

/-- `classify`, in `_read_refs`. -/
def classify (refs : Map (List Char) RefKind) (name : List Char) : Map (List Char) RefKind :=
  match refKinds.find? (fun row => row.2.1.isPrefixOf name) with
  | some (kind, pre, keyed) => Dict.set refs (keyed ++ name.drop pre.length) kind
  | none => refs

/-- The names `_read_refs` goes through, in its order. -/
def readOrder (bare : Bare) : List (List Char) :=
  packedNames bare.packed ++ bare.heads.map ("refs/heads/".toList ++ ·) ++
    bare.remotes.map ("refs/remotes/".toList ++ ·) ++ bare.tags.map ("refs/tags/".toList ++ ·)

/-- `_read_refs`. -/
def readRefs (bare : Bare) : Map (List Char) RefKind := (readOrder bare).foldl classify []

/-! ## The picker's order -/

/-- `\d+` at the head of a text, and what follows it. -/
def digits (u : Unicode) (cs : List Char) : Option (ℕ × List Char) :=
  match Text.leadingNat u cs with
  | some n => some (n, cs.drop (Text.leadingDigits u cs).length)
  | none => none

/-- The end of a match: of the text, or before a final line feed. -/
def atEnd (cs : List Char) : Bool := cs = [] ∨ cs = ['\n']

/-- A match of `_VERSION_RE`. -/
structure Version where
  major : ℕ
  minor : ℕ
  patch : Option ℕ
  rc : Option ℕ
  deriving DecidableEq, Repr

/-- `(?:-rc(\d+))?$`. -/
def rcPart (u : Unicode) (cs : List Char) : Option (Option ℕ) :=
  if atEnd cs then some none
  else if "-rc".toList.isPrefixOf cs then
    match digits u (cs.drop 3) with
    | some (n, rest) => if atEnd rest then some (some n) else none
    | none => none
  else none

/-- `_VERSION_RE`: `v<major>.<minor>`, with a patch and a candidate number or
without. -/
def versionMatch (u : Unicode) : List Char → Option Version
  | 'v' :: cs =>
      match digits u cs with
      | some (major, '.' :: cs) =>
          match digits u cs with
          | some (minor, '.' :: cs) =>
              match digits u cs with
              | some (patch, cs) => (rcPart u cs).map (⟨major, minor, some patch, ·⟩)
              | none => none
          | some (minor, cs) => (rcPart u cs).map (⟨major, minor, none, ·⟩)
          | none => none
      | _ => none
  | _ => none

/-- The tuple `_tag_key` returns; tuples compare position by position. -/
abbrev TagKey := ℤ ×ₗ ℤ ×ₗ ℤ ×ₗ ℤ ×ₗ ℤ ×ₗ ℤ ×ₗ List Char

def TagKey.mk (a b c d e f : ℤ) (name : List Char) : TagKey :=
  toLex (a, toLex (b, toLex (c, toLex (d, toLex (e, toLex (f, name))))))

/-- `_tag_key`. -/
def tagKey (u : Unicode) (name : List Char) : TagKey :=
  match versionMatch u name with
  | none => .mk 1 0 0 0 0 0 name
  | some m =>
      .mk 0 (-m.major) (-m.minor) (-(m.patch.getD 0)) (if m.rc.isNone then 0 else 1)
        (-(m.rc.getD 0)) name

/-! ## The picker -/

/-- A row of `_korg_releases`. -/
structure Release where
  tag : List Char
  moniker : List Char
  iseol : Bool
  deriving DecidableEq, Repr

/-- An option of a form. -/
structure Choice where
  value : List Char
  label : List Char
  deriving DecidableEq, Repr

/-- The label of a release. -/
def releaseLabel (refs : Map (List Char) RefKind) (rel : Release) : List Char :=
  let notes := (if rel.moniker ≠ [] then [rel.moniker] else []) ++
    (if rel.iseol then ["EOL".toList] else []) ++
    (if Dict.contains refs rel.tag then [] else ["not mirrored".toList])
  if notes ≠ [] then rel.tag ++ " (".toList ++ ", ".toList.intercalate notes ++ ")".toList
  else rel.tag

/-- `needle in s.lower()`, the needle lowered too. -/
def fits (lower : List Char → List Char) (filterText s : List Char) : Bool :=
  Text.isInfix (lower filterText) (lower s)

/-- The releases a form shows, for the linux repository alone. -/
def shownReleases (lower : List Char → List Char) (refs : Map (List Char) RefKind)
    (releases : List Release) (repo : String) (filterText : List Char) : List Release :=
  if repo = "linux" then releases.filter fun rel => fits lower filterText (releaseLabel refs rel)
  else []

/-- The names of a kind that pass the filter. -/
def namesOfKind (lower : List Char → List Char) (refs : Map (List Char) RefKind)
    (filterText : List Char) (kind : RefKind) : List (List Char) :=
  (refs.filter fun p => p.2 = kind ∧ fits lower filterText p.1).map Prod.fst

/-- The names of a kind a form shows, in its order: `heads`, `mirrors`, `others`
or `tags`. -/
def shownNames (u : Unicode) (lower : List Char → List Char) (refs : Map (List Char) RefKind)
    (korgTags : List (List Char)) (filterText : List Char) (remotes : Bool) :
    RefKind → List (List Char)
  | .head => (namesOfKind lower refs filterText .head).insertionSort (· ≤ ·)
  | .mirror => (namesOfKind lower refs filterText .mirror).insertionSort (· ≤ ·)
  | .remote =>
      if remotes then (namesOfKind lower refs filterText .remote).insertionSort (· ≤ ·) else []
  | .tag =>
      ((namesOfKind lower refs filterText .tag).filter (· ∉ korgTags)).insertionSort
        fun a b => tagKey u a ≤ tagKey u b

/-- `_MAX_OPTIONS`. -/
def maxOptions : ℕ := 200

/-- `list_refs`, given the repository `_repo_dir` finds. -/
def listRefs (u : Unicode) (lower : List Char → List Char) (bare : Option Bare)
    (releases : List Release) (repo : String) (filterText : List Char) (remotes : Bool) :
    List Choice :=
  match bare with
  | none => []
  | some bare =>
      let refs := readRefs bare
      let korg := shownReleases lower refs releases repo filterText
      let names := shownNames u lower refs (korg.map Release.tag) filterText remotes
      let options := korg.map (fun rel => ⟨rel.tag, releaseLabel refs rel⟩) ++
        (names .head ++ names .mirror ++ names .remote ++ names .tag).map fun n => ⟨n, n⟩
      options.take maxOptions

/-! ## The resolver -/

/-- `_read_refnames`. -/
def readRefnames (bare : Bare) : List (List Char) :=
  (packedNames bare.packed).filter ("refs/".toList.isPrefixOf ·) ++
    bare.heads.map ("refs/heads/".toList ++ ·) ++ bare.tags.map ("refs/tags/".toList ++ ·) ++
    bare.remotes.map ("refs/remotes/".toList ++ ·)

/-- The refnames `qualify_ref` tries, in order. -/
def refCandidates (ref : List Char) : List (List Char) :=
  if "refs/".toList.isPrefixOf ref then [ref]
  else ["refs/tags/".toList ++ ref, "refs/remotes/mirror/".toList ++ ref,
    "refs/heads/".toList ++ ref, "refs/remotes/".toList ++ ref]

/-- `qualify_ref`, given the repository `_repo_dir` finds. -/
def qualifyRef (bare : Option Bare) (ref : List Char) : Option (List Char) :=
  match bare with
  | none => none
  | some bare => (refCandidates ref).find? (· ∈ readRefnames bare)

/-! ## What the picker lists a name for -/

/-- The refname an option stands for: a mirror option carries its `mirror/`. -/
def RefKind.refname : RefKind → List Char → List Char
  | .head, v => "refs/heads/".toList ++ v
  | .mirror, v => "refs/remotes/".toList ++ v
  | .remote, v => "refs/remotes/".toList ++ v
  | .tag, v => "refs/tags/".toList ++ v

theorem isPrefixOf_append_drop {p s : List Char} (h : p.isPrefixOf s = true) :
    p ++ s.drop p.length = s := by
  obtain ⟨t, rfl⟩ := List.isPrefixOf_iff_prefix.mp h
  rw [List.drop_left]

/-- The picker's name and kind of a refname, when it is in a namespace shown. -/
def pickerName (name : List Char) : Option (List Char × RefKind) :=
  (refKinds.find? (fun row => row.2.1.isPrefixOf name)).map fun row =>
    (row.2.2 ++ name.drop row.2.1.length, row.1)

theorem classify_eq (refs : Map (List Char) RefKind) (name : List Char) :
    classify refs name = (pickerName name).elim refs fun p => Dict.set refs p.1 p.2 := by
  unfold classify pickerName
  cases refKinds.find? (fun row => row.2.1.isPrefixOf name) with
  | none => rfl
  | some row => rfl

/-- A picker's name and kind lead back to the refname. -/
theorem refname_of_pickerName {name v : List Char} {k : RefKind}
    (h : pickerName name = some (v, k)) : k.refname v = name := by
  obtain ⟨⟨kind, pre, keyed⟩, hfind, heq⟩ := Option.map_eq_some_iff.mp h
  cases heq
  have hfits := List.find?_some hfind
  have hpre : pre ++ name.drop pre.length = name := isPrefixOf_append_drop hfits
  have hrow : ∀ row ∈ refKinds, row.2.1 = row.1.refname row.2.2 := by decide
  have happ : ∀ (k : RefKind) (a b : List Char), k.refname (a ++ b) = k.refname a ++ b := by
    intro k a b
    cases k <;> exact (List.append_assoc _ _ _).symm
  rw [happ, ← hrow _ (List.mem_of_find?_eq_some hfind)]
  exact hpre

/-- The last refname read under a name says what it is. -/
theorem readRefs_get? (bare : Bare) (v : List Char) :
    Dict.get? (readRefs bare) v =
      ((((readOrder bare).filterMap pickerName).reverse.find? (·.1 = v)).map Prod.snd) := by
  have hfold : ∀ (names : List (List Char)) (refs : Map (List Char) RefKind),
      Dict.get? (names.foldl classify refs) v =
        (((names.filterMap pickerName).reverse.find? (·.1 = v)).map Prod.snd).or
          (Dict.get? refs v) := by
    intro names
    induction names with
    | nil => exact fun _ => rfl
    | cons name names ih =>
        intro refs
        rw [List.foldl_cons, ih, classify_eq]
        cases hname : pickerName name with
        | none => rw [List.filterMap_cons_none hname, Option.elim_none]
        | some p =>
            rw [List.filterMap_cons_some hname, List.reverse_cons, List.find?_append,
              Option.map_or, Option.or_assoc, Option.elim_some, Dict.get?_set]
            congr 1
            by_cases hp : p.1 = v
            · simp [hp]
            · simp [hp, Ne.symm hp]
  rw [readRefs, hfold, Dict.get?_nil, Option.or_none]

/-- Every name the picker knows was read as the refname it stands for. -/
theorem read_of_get? {bare : Bare} {v : List Char} {k : RefKind}
    (h : Dict.get? (readRefs bare) v = some k) : k.refname v ∈ readOrder bare := by
  rw [readRefs_get?] at h
  obtain ⟨p, hp, rfl⟩ := Option.map_eq_some_iff.mp h
  have hv := List.find?_some hp
  rw [decide_eq_true_eq] at hv
  obtain ⟨name, hname, heq⟩ := List.mem_filterMap.mp
    (List.mem_reverse.mp (List.mem_of_find?_eq_some hp))
  rw [← hv, refname_of_pickerName heq]
  exact hname

/-- The two readers go through the same refnames. -/
theorem mem_readRefnames {bare : Bare} {k : RefKind} {v : List Char}
    (h : k.refname v ∈ readOrder bare) : k.refname v ∈ readRefnames bare := by
  have hrefs : "refs/".toList.isPrefixOf (k.refname v) = true := by
    cases k <;> rfl
  unfold readOrder at h
  unfold readRefnames
  simp only [List.mem_append, List.mem_filter] at h ⊢
  rcases h with ((hpacked | hheads) | hremotes) | htags
  · exact .inl (.inl (.inl ⟨hpacked, hrefs⟩))
  · exact .inl (.inl (.inr hheads))
  · exact .inr hremotes
  · exact .inl (.inr htags)

/-- The names of the picker are distinct. -/
theorem readRefs_nodup (bare : Bare) : (Dict.keys (readRefs bare)).Nodup := by
  have hfold : ∀ (names : List (List Char)) (refs : Map (List Char) RefKind),
      (Dict.keys refs).Nodup → (Dict.keys (names.foldl classify refs)).Nodup := by
    intro names
    induction names with
    | nil => exact fun _ h => h
    | cons name names ih =>
        intro refs h
        refine ih _ ?_
        rw [classify_eq]
        cases pickerName name with
        | none => exact h
        | some p => exact Dict.keys_set_nodup h p.1 p.2
  exact hfold _ _ List.nodup_nil

/-! ## What a form offers -/

/-- The refs a form offers after the releases, each with the kind it is shown as. -/
def offered (u : Unicode) (lower : List Char → List Char) (bare : Bare) (releases : List Release)
    (repo : String) (filterText : List Char) (remotes : Bool) : List (RefKind × List Char) :=
  let refs := readRefs bare
  let korg := shownReleases lower refs releases repo filterText
  let names := shownNames u lower refs (korg.map Release.tag) filterText remotes
  ([RefKind.head, .mirror, .remote, .tag].flatMap fun k => (names k).map (k, ·)).take
    (maxOptions - korg.length)

section Offered

variable (u : Unicode) (lower : List Char → List Char) (bare : Bare) (releases : List Release)
  (repo : String) (filterText : List Char) (remotes : Bool)

/-- The options are the releases shown and, after them, the refs offered. -/
theorem listRefs_eq :
    listRefs u lower (some bare) releases repo filterText remotes =
      ((shownReleases lower (readRefs bare) releases repo filterText).map fun rel =>
          ⟨rel.tag, releaseLabel (readRefs bare) rel⟩).take maxOptions ++
        (offered u lower bare releases repo filterText remotes).map fun p => ⟨p.2, p.2⟩ := by
  unfold listRefs offered
  dsimp only
  rw [List.take_append, List.length_map, List.map_take]
  congr 2
  simp only [List.flatMap_cons, List.flatMap_nil, List.append_nil, List.map_append, List.map_map,
    List.append_assoc]
  rfl

variable {u lower bare releases repo filterText remotes}

/-- A name of a kind is an entry of that kind. -/
theorem mem_shownNames {refs : Map (List Char) RefKind} {korgTags : List (List Char)}
    {k : RefKind} {v : List Char}
    (h : v ∈ shownNames u lower refs korgTags filterText remotes k) : (v, k) ∈ refs := by
  have hkind : v ∈ namesOfKind lower refs filterText k := by
    cases k with
    | head => exact (List.mem_insertionSort _).mp h
    | mirror => exact (List.mem_insertionSort _).mp h
    | remote =>
        rw [shownNames] at h
        split at h
        · exact (List.mem_insertionSort _).mp h
        · exact (List.not_mem_nil h).elim
    | tag => exact (List.mem_filter.mp ((List.mem_insertionSort _).mp h)).1
  obtain ⟨p, hp, rfl⟩ := List.mem_map.mp hkind
  obtain ⟨hmem, hk⟩ := List.mem_filter.mp hp
  rw [decide_eq_true_eq] at hk
  rw [← hk.1]
  exact hmem

/-- A ref is offered under the name and the kind the picker keeps for it. -/
theorem get?_of_offered {k : RefKind} {v : List Char}
    (h : (k, v) ∈ offered u lower bare releases repo filterText remotes) :
    Dict.get? (readRefs bare) v = some k := by
  obtain ⟨k', -, hmem⟩ := List.mem_flatMap.mp (List.mem_of_mem_take h)
  obtain ⟨v', hv', heq⟩ := List.mem_map.mp hmem
  cases heq
  exact Dict.get?_of_mem (readRefs_nodup bare) (mem_shownNames hv')

/-- The refnames `qualify_ref` tries before the one an option stands for. -/
def triedBefore : RefKind → List Char → List (List Char)
  | .tag, _ => []
  | .head, v => ["refs/tags/".toList ++ v, "refs/remotes/mirror/".toList ++ v]
  | .mirror, v | .remote, v =>
      ["refs/tags/".toList ++ v, "refs/remotes/mirror/".toList ++ v, "refs/heads/".toList ++ v]

theorem find?_eq_self_iff {names pre post : List (List Char)} {x : List Char} (hx : x ∈ names)
    (hfresh : x ∉ pre) :
    (pre ++ x :: post).find? (· ∈ names) = some x ↔ ∀ c ∈ pre, c ∉ names := by
  have hself : (x :: post).find? (· ∈ names) = some x := by simp [hx]
  rw [List.find?_append, hself]
  cases hpre : pre.find? (· ∈ names) with
  | none =>
      rw [Option.none_or]
      exact ⟨fun _ c hc => by simpa using List.find?_eq_none.mp hpre c hc, fun _ => rfl⟩
  | some y =>
      have hy := List.mem_of_find?_eq_some hpre
      rw [Option.some_or]
      refine ⟨fun h => ?_, fun h => ?_⟩
      · cases h
        exact (hfresh hy).elim
      · have hin := List.find?_some hpre
        exact (h y hy (of_decide_eq_true hin)).elim

/-- The order of the resolver, around the refname an option stands for. -/
theorem refCandidates_split {v : List Char} (h : "refs/".toList.isPrefixOf v = false)
    (k : RefKind) :
    ∃ post, refCandidates v = triedBefore k v ++ k.refname v :: post := by
  unfold refCandidates
  rw [if_neg (by rw [h]; exact Bool.false_ne_true)]
  cases k with
  | head => exact ⟨_, rfl⟩
  | mirror => exact ⟨_, rfl⟩
  | remote => exact ⟨_, rfl⟩
  | tag => exact ⟨_, rfl⟩

/-- Two texts that differ at a place stay different whatever follows. -/
theorem append_ne_append {a b : List Char} (n : ℕ) (ha : n < a.length) (hb : n < b.length)
    (hne : a[n]? ≠ b[n]?) (v w : List Char) : a ++ v ≠ b ++ w := by
  intro h
  have hat : (a ++ v)[n]? = (b ++ w)[n]? := congrArg (fun s : List Char => s[n]?) h
  rw [List.getElem?_append_left ha, List.getElem?_append_left hb] at hat
  exact hne hat

theorem head_ne_tag (v w : List Char) : "refs/heads/".toList ++ v ≠ "refs/tags/".toList ++ w :=
  append_ne_append 5 (by decide) (by decide) (by decide) v w

theorem head_ne_remote (v w : List Char) :
    "refs/heads/".toList ++ v ≠ "refs/remotes/".toList ++ w :=
  append_ne_append 5 (by decide) (by decide) (by decide) v w

theorem remote_ne_tag (v w : List Char) :
    "refs/remotes/".toList ++ v ≠ "refs/tags/".toList ++ w :=
  append_ne_append 5 (by decide) (by decide) (by decide) v w

/-- A mirror branch is a remote-tracking ref under `mirror/`. -/
theorem mirror_eq (v : List Char) :
    "refs/remotes/mirror/".toList ++ v = "refs/remotes/".toList ++ ("mirror/".toList ++ v) := by
  rw [← List.append_assoc]
  rfl

theorem remote_ne_mirror (v : List Char) :
    "refs/remotes/".toList ++ v ≠ "refs/remotes/mirror/".toList ++ v := by
  intro h
  have hlen := congrArg List.length h
  rw [List.length_append, List.length_append] at hlen
  have hshort : "refs/remotes/".toList.length < "refs/remotes/mirror/".toList.length := by decide
  omega

theorem length_lt_refname (k : RefKind) (v : List Char) : v.length < (k.refname v).length := by
  have hpos : ∀ p : List Char, p ≠ [] → v.length < (p ++ v).length := by
    intro p hp
    rw [List.length_append]
    have := List.length_pos_iff.mpr hp
    omega
  cases k with
  | head => exact hpos _ (by decide)
  | mirror => exact hpos _ (by decide)
  | remote => exact hpos _ (by decide)
  | tag => exact hpos _ (by decide)

theorem refname_not_mem_triedBefore (k : RefKind) (v : List Char) :
    k.refname v ∉ triedBefore k v := by
  have hremote : "refs/remotes/".toList ++ v ∉ ["refs/tags/".toList ++ v,
      "refs/remotes/mirror/".toList ++ v, "refs/heads/".toList ++ v] := by
    rw [List.mem_cons, List.mem_cons, List.mem_singleton]
    rintro (h | h | h)
    · exact remote_ne_tag v v h
    · exact remote_ne_mirror v h
    · exact head_ne_remote v v h.symm
  cases k with
  | head =>
      rw [triedBefore, List.mem_cons, List.mem_singleton]
      rintro (h | h)
      · exact head_ne_tag v v h
      · exact head_ne_remote v _ (h.trans (mirror_eq v))
  | mirror => exact hremote
  | remote => exact hremote
  | tag => exact List.not_mem_nil

end Offered

end KdevopsNg.Common
