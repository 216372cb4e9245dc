/-
# `Common.RefLookup` — one name, two resolvers

`qualify_ref` (`f/common/gitrefs.py`) looks a name up in a listing of full
refnames; `_resolve_ref` (`f/common/worktree.py`) hands three candidates to `git
rev-parse`, which tries six places for each.  Both are meant to take an upstream
tag, then the mirror's branch, then the developer's.

A ref that git tries earlier for a candidate than the one the listing has in
mind shadows it: a branch or a tag called `mirror/<x>` comes before the mirror's
`<x>`.  `one_commit_iff` says when the two name the same commit.
-/
import KdevopsNg.Common.Refs
import KdevopsNg.Common.Sync

namespace KdevopsNg.Common

open Py

/-! ## The database as git reads it -/

/-- What a ref leads to: a commit, an object that is none (the tag of a tree), or
nothing, a symbolic ref whose branch is missing. -/
inductive Target (κ : Type) where
  | commit (c : κ)
  | noCommit
  | dangling
  deriving DecidableEq, Repr

/-- The refs of a bare repository: the files, the loose refs outside the three
listed directories (`HEAD`, `refs/stash`), and what each ref leads to. -/
structure RefDb (κ : Type) where
  files : Bare
  other : List (List Char)
  target : List Char → Target κ

namespace RefDb

variable {κ : Type} (db : RefDb κ)

/-- The refnames git finds in the files. -/
def refnames : List (List Char) :=
  (Text.split '\n' db.files.packed).filterMap packedName ++
    db.files.heads.map ("refs/heads/".toList ++ ·) ++
    db.files.tags.map ("refs/tags/".toList ++ ·) ++
    db.files.remotes.map ("refs/remotes/".toList ++ ·) ++ db.other

/-- Git finds a ref of that name. -/
def has (r : List Char) : Bool :=
  match db.target r with
  | .dangling => false
  | _ => db.refnames.any fun n => decide (n = r)

/-- The commit of a ref. -/
def commitAt (r : List Char) : Option κ :=
  match db.target r with
  | .commit c => if db.refnames.any (fun n => decide (n = r)) then some c else none
  | _ => none

/-- The commit of the first ref that exists. -/
def firstCommit (names : List (List Char)) : Option κ := (names.find? db.has).bind db.commitAt

/-- The places git looks a name up. -/
def lookupRules (name : List Char) : List (List Char) :=
  [name, "refs/".toList ++ name, "refs/tags/".toList ++ name, "refs/heads/".toList ++ name,
    "refs/remotes/".toList ++ name, "refs/remotes/".toList ++ name ++ "/HEAD".toList]

/-- `git rev-parse --verify --quiet <name>^\x7bcommit\x7d`, for a plain ref name. -/
def revParse (name : List Char) : Option κ := db.firstCommit (lookupRules name)

/-- `_resolve_ref`, `none` where it raises. -/
def resolve (ref : List Char) : Option (κ × Bool) :=
  [("refs/tags/".toList ++ ref, true), ("mirror/".toList ++ ref, false), (ref, false)].findSome?
    fun p => (db.revParse p.1).map (·, p.2)

end RefDb

/-- The model of `_resolve_ref` on a store is this one where git answers. -/
theorem resolved_eq (R : Git.Repository Commit) (env : Env) (refs : Map Git.Ref Commit)
    (db : RefDb Commit) (hanswers : ∀ q, env.answers q = true)
    (hdb : ∀ name : String, R.revParse refs (commitExpr name) = db.revParse name.toList)
    (ref : String) : resolved R env refs ref = db.resolve ref.toList := by
  have hask : ∀ q (o : Option Commit), ask env q o = o := by
    intro q o
    unfold ask
    rw [if_pos (hanswers q)]
  unfold resolved RefDb.resolve
  rw [hask, hask, hask, hdb, hdb, hdb, String.toList_append, String.toList_append]
  simp only [List.findSome?_cons, List.findSome?_nil]
  cases db.revParse ("refs/tags/".toList ++ ref.toList) with
  | some c => rfl
  | none =>
      cases db.revParse ("mirror/".toList ++ ref.toList) with
      | some c => rfl
      | none =>
          cases db.revParse ref.toList with
          | some c => rfl
          | none => rfl

namespace RefDb

variable {κ : Type} (db : RefDb κ)

/-! ## What shadows a ref -/

/-- Nothing of the names stands before a ref of commit `c`, or what does names
the same commit. -/
def Passes (c : κ) (names : List (List Char)) : Prop :=
  (∀ r ∈ names, db.has r = false) ∨ db.firstCommit names = some c

/-- The names git tries for `mirror/<x>` before the mirror's branch. -/
def mirrorShadows (x : List Char) : List (List Char) :=
  ["mirror/".toList ++ x, "refs/mirror/".toList ++ x, "refs/tags/mirror/".toList ++ x,
    "refs/heads/mirror/".toList ++ x]

/-- The names git tries for `<x>` before the branch. -/
def headShadows (x : List Char) : List (List Char) :=
  [x, "refs/".toList ++ x, "refs/tags/".toList ++ x]

/-- The names git tries for `<x>` before the remote-tracking ref. -/
def remoteShadows (x : List Char) : List (List Char) :=
  [x, "refs/".toList ++ x, "refs/tags/".toList ++ x, "refs/heads/".toList ++ x]

/-- No tag is in the way: git finds no commit for `refs/tags/<x>`. -/
def NoTag (x : List Char) : Prop :=
  db.firstCommit (lookupRules ("refs/tags/".toList ++ x)) = none

/-- Git finds no commit for `mirror/<x>`. -/
def NoMirror (x : List Char) : Prop :=
  db.firstCommit (lookupRules ("mirror/".toList ++ x)) = none

/-- When a plain name means one commit, by the first of its four refnames that
is listed: that ref names a commit, and whatever git finds before it for the
candidates names the same one. -/
inductive Unshadowed (x : List Char) : Prop where
  | tag (hlisted : "refs/tags/".toList ++ x ∈ readRefnames db.files)
      (hcommit : (db.commitAt ("refs/tags/".toList ++ x)).isSome = true)
  | mirror (c : κ) (htag : "refs/tags/".toList ++ x ∉ readRefnames db.files)
      (hlisted : "refs/remotes/mirror/".toList ++ x ∈ readRefnames db.files)
      (hcommit : db.commitAt ("refs/remotes/mirror/".toList ++ x) = some c)
      (hnoTag : db.NoTag x)
      (hpass : db.Passes c (mirrorShadows x) ∨
        ((∃ r ∈ mirrorShadows x, db.has r = true) ∧ db.firstCommit (mirrorShadows x) = none ∧
          db.firstCommit (lookupRules x) = some c))
  | head (c : κ) (htag : "refs/tags/".toList ++ x ∉ readRefnames db.files)
      (hmirror : "refs/remotes/mirror/".toList ++ x ∉ readRefnames db.files)
      (hlisted : "refs/heads/".toList ++ x ∈ readRefnames db.files)
      (hcommit : db.commitAt ("refs/heads/".toList ++ x) = some c)
      (hnoTag : db.NoTag x)
      (hpass : db.firstCommit (lookupRules ("mirror/".toList ++ x)) = some c ∨
        (db.NoMirror x ∧ db.Passes c (headShadows x)))
  | remote (c : κ) (htag : "refs/tags/".toList ++ x ∉ readRefnames db.files)
      (hmirror : "refs/remotes/mirror/".toList ++ x ∉ readRefnames db.files)
      (hhead : "refs/heads/".toList ++ x ∉ readRefnames db.files)
      (hlisted : "refs/remotes/".toList ++ x ∈ readRefnames db.files)
      (hcommit : db.commitAt ("refs/remotes/".toList ++ x) = some c)
      (hnoTag : db.NoTag x)
      (hpass : db.firstCommit (lookupRules ("mirror/".toList ++ x)) = some c ∨
        (db.NoMirror x ∧ db.Passes c (remoteShadows x)))
  | absent (hunlisted : ∀ r ∈ refCandidates x, r ∉ readRefnames db.files)
      (hnoTag : db.NoTag x) (hnoMirror : db.NoMirror x)
      (hnoRef : db.firstCommit (lookupRules x) = none)

/-! ## Lookups -/

theorem has_of_commitAt {r : List Char} {c : κ} (h : db.commitAt r = some c) :
    db.has r = true := by
  unfold commitAt at h
  unfold has
  cases ht : db.target r with
  | commit c' =>
      rw [ht] at h
      dsimp only at h ⊢
      split at h
      case isTrue hany => exact hany
      case isFalse => cases h
  | noCommit =>
      rw [ht] at h
      cases h
  | dangling =>
      rw [ht] at h
      cases h

/-- A lookup that comes past some names to a ref. -/
theorem firstCommit_append {names rest : List (List Char)} {r : List Char} {c : κ}
    (h : db.commitAt r = some c) :
    db.firstCommit (names ++ r :: rest) = some c ↔ db.Passes c names := by
  have hself : (r :: rest).find? db.has = some r :=
    List.find?_cons_of_pos (db.has_of_commitAt h)
  unfold firstCommit Passes
  rw [List.find?_append, hself]
  cases hnames : names.find? db.has with
  | none =>
      rw [Option.none_or, Option.bind_some]
      refine ⟨fun _ => .inl fun n hn => ?_, fun _ => h⟩
      simpa using List.find?_eq_none.mp hnames n hn
  | some n =>
      have hn := List.find?_some hnames
      have hmem := List.mem_of_find?_eq_some hnames
      rw [Option.some_or, Option.bind_some, firstCommit, hnames, Option.bind_some]
      refine ⟨fun h' => .inr h', ?_⟩
      rintro (hall | h')
      · rw [hall n hmem] at hn
        cases hn
      · exact h'

/-- Nothing is found only where some name before the ref leads to no commit. -/
theorem firstCommit_append_none {names rest : List (List Char)} {r : List Char} {c : κ}
    (h : db.commitAt r = some c) :
    db.firstCommit (names ++ r :: rest) = none ↔
      (∃ n ∈ names, db.has n = true) ∧ db.firstCommit names = none := by
  have hself : (r :: rest).find? db.has = some r :=
    List.find?_cons_of_pos (db.has_of_commitAt h)
  unfold firstCommit
  rw [List.find?_append, hself]
  cases hnames : names.find? db.has with
  | none =>
      rw [Option.none_or, Option.bind_some, h]
      refine ⟨fun h' => (Option.some_ne_none c h').elim, ?_⟩
      rintro ⟨⟨n, hn, hhas⟩, -⟩
      exact absurd hhas (List.find?_eq_none.mp hnames n hn)
  | some n =>
      rw [Option.some_or]
      exact ⟨fun h' => ⟨⟨n, List.mem_of_find?_eq_some hnames, List.find?_some hnames⟩, h'⟩,
        fun h' => h'.2⟩

theorem lookupRules_tag (x : List Char) :
    ∃ rest, lookupRules ("refs/tags/".toList ++ x) = [] ++ ("refs/tags/".toList ++ x) :: rest :=
  ⟨_, rfl⟩

theorem lookupRules_mirror (x : List Char) :
    ∃ rest, lookupRules ("mirror/".toList ++ x) =
      mirrorShadows x ++ ("refs/remotes/mirror/".toList ++ x) :: rest :=
  ⟨["refs/remotes/".toList ++ ("mirror/".toList ++ x) ++ "/HEAD".toList], rfl⟩

theorem lookupRules_head (x : List Char) :
    ∃ rest, lookupRules x = headShadows x ++ ("refs/heads/".toList ++ x) :: rest := ⟨_, rfl⟩

theorem lookupRules_remote (x : List Char) :
    ∃ rest, lookupRules x = remoteShadows x ++ ("refs/remotes/".toList ++ x) :: rest := ⟨_, rfl⟩

/-- `_resolve_ref` finds a commit, and whether it is a tag's, by the first
candidate that has one. -/
theorem resolve_eq (x : List Char) :
    db.resolve x =
      ((db.revParse ("refs/tags/".toList ++ x)).map (·, true)).or
        (((db.revParse ("mirror/".toList ++ x)).or (db.revParse x)).map (·, false)) := by
  unfold resolve
  simp only [List.findSome?_cons, List.findSome?_nil]
  cases db.revParse ("refs/tags/".toList ++ x) with
  | some c => rfl
  | none =>
      cases db.revParse ("mirror/".toList ++ x) with
      | some c => rfl
      | none =>
          cases db.revParse x with
          | some c => rfl
          | none => rfl

/-- Resolving to a commit that is no tag's. -/
theorem resolve_eq_untagged_iff (x : List Char) (c : κ) :
    db.resolve x = some (c, false) ↔ db.NoTag x ∧
      (db.firstCommit (lookupRules ("mirror/".toList ++ x)) = some c ∨
        (db.NoMirror x ∧ db.firstCommit (lookupRules x) = some c)) := by
  rw [resolve_eq]
  unfold NoTag NoMirror revParse
  cases db.firstCommit (lookupRules ("refs/tags/".toList ++ x)) with
  | some c' => simp
  | none =>
      cases db.firstCommit (lookupRules ("mirror/".toList ++ x)) with
      | some c' => simp
      | none => simp

/-! ## The two resolvers -/

/-- `qualify_ref` of a plain name. -/
theorem qualifyRef_plain (bare : Bare) {x : List Char}
    (hx : "refs/".toList.isPrefixOf x = false) :
    qualifyRef (some bare) x =
      if "refs/tags/".toList ++ x ∈ readRefnames bare then some ("refs/tags/".toList ++ x)
      else if "refs/remotes/mirror/".toList ++ x ∈ readRefnames bare then
        some ("refs/remotes/mirror/".toList ++ x)
      else if "refs/heads/".toList ++ x ∈ readRefnames bare then some ("refs/heads/".toList ++ x)
      else if "refs/remotes/".toList ++ x ∈ readRefnames bare then
        some ("refs/remotes/".toList ++ x)
      else none := by
  unfold qualifyRef refCandidates
  rw [if_neg (by rw [hx]; exact Bool.false_ne_true)]
  simp only [List.find?_cons, List.find?_nil]
  by_cases htag : "refs/tags/".toList ++ x ∈ readRefnames bare
  · rw [if_pos htag, decide_eq_true htag]
  · rw [if_neg htag, decide_eq_false htag]
    by_cases hmirror : "refs/remotes/mirror/".toList ++ x ∈ readRefnames bare
    · rw [if_pos hmirror, decide_eq_true hmirror]
    · rw [if_neg hmirror, decide_eq_false hmirror]
      by_cases hhead : "refs/heads/".toList ++ x ∈ readRefnames bare
      · rw [if_pos hhead, decide_eq_true hhead]
      · rw [if_neg hhead, decide_eq_false hhead]
        by_cases hremote : "refs/remotes/".toList ++ x ∈ readRefnames bare
        · rw [if_pos hremote, decide_eq_true hremote]
        · rw [if_neg hremote, decide_eq_false hremote]

/-- The commit `_resolve_ref` finds is that of the ref `qualify_ref` returns, a
tag's exactly when that ref is a tag; and it finds none when there is no ref. -/
def OneCommit (x : List Char) : Prop :=
  (∀ r, qualifyRef (some db.files) x = some r → ∃ c, db.commitAt r = some c ∧
    db.resolve x = some (c, "refs/tags/".toList.isPrefixOf r)) ∧
  (qualifyRef (some db.files) x = none → db.resolve x = none)

/-- A listed ref that is no tag. -/
theorem oneCommit_untagged_iff {x r : List Char}
    (hq : qualifyRef (some db.files) x = some r)
    (hr : "refs/tags/".toList.isPrefixOf r = false) :
    db.OneCommit x ↔ ∃ c, db.commitAt r = some c ∧ db.NoTag x ∧
      (db.firstCommit (lookupRules ("mirror/".toList ++ x)) = some c ∨
        (db.NoMirror x ∧ db.firstCommit (lookupRules x) = some c)) := by
  unfold OneCommit
  rw [hq]
  constructor
  · rintro ⟨h, -⟩
    obtain ⟨c, hc, hres⟩ := h r rfl
    rw [hr] at hres
    exact ⟨c, hc, (db.resolve_eq_untagged_iff x c).mp hres⟩
  · rintro ⟨c, hc, h⟩
    refine ⟨fun r' hr' => ?_, fun hnone => (Option.some_ne_none r hnone).elim⟩
    cases hr'
    rw [hr]
    exact ⟨c, hc, (db.resolve_eq_untagged_iff x c).mpr h⟩

/-- A plain name means one commit to both resolvers exactly when its ref is not
shadowed. -/
theorem one_commit_iff {x : List Char} (hx : "refs/".toList.isPrefixOf x = false) :
    db.OneCommit x ↔ db.Unshadowed x := by
  have hq := qualifyRef_plain db.files hx
  by_cases htag : "refs/tags/".toList ++ x ∈ readRefnames db.files
  · -- the tag is the first place git looks
    rw [if_pos htag] at hq
    have hfirst : ∀ c, db.commitAt ("refs/tags/".toList ++ x) = some c →
        db.firstCommit (lookupRules ("refs/tags/".toList ++ x)) = some c := by
      intro c hc
      obtain ⟨rest, hrules⟩ := lookupRules_tag x
      rw [hrules, db.firstCommit_append hc]
      exact .inl fun r hr => (List.not_mem_nil hr).elim
    constructor
    · rintro ⟨h, -⟩
      obtain ⟨c, hc, -⟩ := h _ hq
      exact .tag htag (by rw [hc]; rfl)
    · intro h
      cases h with
      | tag _ hcommit =>
          obtain ⟨c, hc⟩ := Option.isSome_iff_exists.mp hcommit
          unfold OneCommit
          rw [hq]
          refine ⟨fun r hr => ?_, fun hnone => (Option.some_ne_none _ hnone).elim⟩
          cases hr
          refine ⟨c, hc, ?_⟩
          have hprefix : "refs/tags/".toList.isPrefixOf ("refs/tags/".toList ++ x) = true :=
            List.isPrefixOf_iff_prefix.mpr (List.prefix_append _ _)
          rw [resolve_eq, revParse, hfirst c hc, hprefix]
          rfl
      | mirror _ h => exact (h htag).elim
      | head _ h => exact (h htag).elim
      | remote _ h => exact (h htag).elim
      | absent h =>
          refine absurd htag (h _ ?_)
          rw [refCandidates, if_neg (by rw [hx]; exact Bool.false_ne_true)]
          exact List.mem_cons_self
  rw [if_neg htag] at hq
  by_cases hmirror : "refs/remotes/mirror/".toList ++ x ∈ readRefnames db.files
  · rw [if_pos hmirror] at hq
    rw [db.oneCommit_untagged_iff hq rfl]
    obtain ⟨rest, hrules⟩ := lookupRules_mirror x
    constructor
    · rintro ⟨c, hc, hnoTag, hpass⟩
      refine .mirror c htag hmirror hc hnoTag ?_
      unfold NoMirror at hpass
      rw [hrules, db.firstCommit_append hc, db.firstCommit_append_none hc] at hpass
      exact hpass.imp_right fun h => ⟨h.1.1, h.1.2, h.2⟩
    · intro h
      cases h with
      | tag h => exact (htag h).elim
      | mirror c _ _ hc hnoTag hpass =>
          refine ⟨c, hc, hnoTag, ?_⟩
          unfold NoMirror
          rw [hrules, db.firstCommit_append hc, db.firstCommit_append_none hc]
          exact hpass.imp_right fun h => ⟨⟨h.1, h.2.1⟩, h.2.2⟩
      | head _ _ h => exact (h hmirror).elim
      | remote _ _ h => exact (h hmirror).elim
      | absent h =>
          refine absurd hmirror (h _ ?_)
          rw [refCandidates, if_neg (by rw [hx]; exact Bool.false_ne_true)]
          exact List.mem_cons_of_mem _ List.mem_cons_self
  rw [if_neg hmirror] at hq
  by_cases hhead : "refs/heads/".toList ++ x ∈ readRefnames db.files
  · rw [if_pos hhead] at hq
    rw [db.oneCommit_untagged_iff hq rfl]
    obtain ⟨rest, hrules⟩ := lookupRules_head x
    constructor
    · rintro ⟨c, hc, hnoTag, hpass⟩
      refine .head c htag hmirror hhead hc hnoTag ?_
      rw [← db.firstCommit_append hc, ← hrules]
      exact hpass
    · intro h
      cases h with
      | tag h => exact (htag h).elim
      | mirror _ _ h => exact (hmirror h).elim
      | head c _ _ _ hc hnoTag hpass =>
          rw [← db.firstCommit_append hc, ← hrules] at hpass
          exact ⟨c, hc, hnoTag, hpass⟩
      | remote _ _ _ h => exact (h hhead).elim
      | absent h =>
          refine absurd hhead (h _ ?_)
          rw [refCandidates, if_neg (by rw [hx]; exact Bool.false_ne_true)]
          exact List.mem_cons_of_mem _ (List.mem_cons_of_mem _ List.mem_cons_self)
  rw [if_neg hhead] at hq
  by_cases hremote : "refs/remotes/".toList ++ x ∈ readRefnames db.files
  · rw [if_pos hremote] at hq
    rw [db.oneCommit_untagged_iff hq rfl]
    obtain ⟨rest, hrules⟩ := lookupRules_remote x
    constructor
    · rintro ⟨c, hc, hnoTag, hpass⟩
      refine .remote c htag hmirror hhead hremote hc hnoTag ?_
      rw [← db.firstCommit_append hc, ← hrules]
      exact hpass
    · intro h
      cases h with
      | tag h => exact (htag h).elim
      | mirror _ _ h => exact (hmirror h).elim
      | head _ _ _ h => exact (hhead h).elim
      | remote c _ _ _ _ hc hnoTag hpass =>
          rw [← db.firstCommit_append hc, ← hrules] at hpass
          exact ⟨c, hc, hnoTag, hpass⟩
      | absent h =>
          refine absurd hremote (h _ ?_)
          rw [refCandidates, if_neg (by rw [hx]; exact Bool.false_ne_true)]
          exact List.mem_cons_of_mem _ (List.mem_cons_of_mem _
            (List.mem_cons_of_mem _ List.mem_cons_self))
  · rw [if_neg hremote] at hq
    have hnone : db.resolve x = none ↔ db.NoTag x ∧ db.NoMirror x ∧
        db.firstCommit (lookupRules x) = none := by
      rw [resolve_eq]
      unfold NoTag NoMirror revParse
      cases db.firstCommit (lookupRules ("refs/tags/".toList ++ x)) <;>
        cases db.firstCommit (lookupRules ("mirror/".toList ++ x)) <;> simp
    constructor
    · rintro ⟨-, h⟩
      obtain ⟨hnoTag, hnoMirror, hnoRef⟩ := hnone.mp (h hq)
      refine .absent ?_ hnoTag hnoMirror hnoRef
      rw [refCandidates, if_neg (by rw [hx]; exact Bool.false_ne_true)]
      intro r hr
      simp only [List.mem_cons, List.not_mem_nil, or_false] at hr
      rcases hr with rfl | rfl | rfl | rfl
      · exact htag
      · exact hmirror
      · exact hhead
      · exact hremote
    · intro h
      cases h with
      | tag h => exact (htag h).elim
      | mirror _ _ h => exact (hmirror h).elim
      | head _ _ _ h => exact (hhead h).elim
      | remote _ _ _ _ h => exact (hremote h).elim
      | absent _ hnoTag hnoMirror hnoRef =>
          refine ⟨fun r hr => ?_, fun _ => hnone.mpr ⟨hnoTag, hnoMirror, hnoRef⟩⟩
          rw [hq] at hr
          cases hr

end RefDb

/-- A branch of the mirror, and nothing of a similar name. -/
theorem one_commit_mirror :
    (⟨⟨[], [], ["mirror/master".toList], []⟩, [], fun _ => .commit 1⟩ : RefDb ℕ).OneCommit
      "master".toList :=
  (RefDb.one_commit_iff _ (by decide)).mpr
    (.mirror 1 (by decide) (by decide) (by decide) (by unfold RefDb.NoTag; decide)
      (.inl (.inl (by decide))))

/-- A branch called `mirror/master` in the Bare: `qualify_ref` returns the
mirror's `master`, and `_resolve_ref` the branch's commit. -/
theorem head_shadows_mirror :
    let db : RefDb ℕ := ⟨⟨[], ["mirror/master".toList], ["mirror/master".toList], []⟩, [],
      fun r => if r = "refs/heads/mirror/master".toList then .commit 1 else .commit 2⟩
    qualifyRef (some db.files) "master".toList = some "refs/remotes/mirror/master".toList ∧
      db.commitAt "refs/remotes/mirror/master".toList = some 2 ∧
      db.resolve "master".toList = some (1, false) := by
  refine ⟨by decide, by decide, by decide⟩

end KdevopsNg.Common
