/-
# `Git.Store` — a bare repository and its worktrees

What git commands read and change: the refs, the worktrees checked out at the
places of a file system, and the registrations of those whose directory is gone.
The commits themselves, their trees, the ignore rules and the revision syntax do
not change and make up a `Repository`.

    Root s c      a ref names `c`, or a worktree is detached at it
    Rooted s x    some root reaches `x`
    Clean         index, file and HEAD agree at a path: nothing to lose there
-/
import KdevopsNg.Git.History
import KdevopsNg.Git.Tree

namespace Git

open Py

/-! ## The state -/

/-- A ref: a branch, a tag, a remote-tracking ref, or one of another space. -/
inductive Ref where
  | heads (name : String)
  | tags (name : String)
  | remotes (name : String)
  | other (space name : String)
  deriving DecidableEq, Repr

/-- The HEAD of a worktree. -/
inductive Head (κ : Type) where
  | attached (branch : String)
  | detached (c : κ)
  | unreadable
  deriving DecidableEq, Repr

/-- What a `rebase-apply` directory belongs to, and where it began: a `git am`, or
a rebase with the branch it goes back to. -/
inductive Applying (κ : Type) where
  | am (orig : κ)
  | rebase (home : Option String) (orig : κ)
  deriving DecidableEq, Repr

/-- The operations in progress in a worktree, with the commit each began at. -/
structure Ongoing (κ : Type) where
  apply : Option (Applying κ)
  rebaseMerge : Option (Option String × κ)
  cherryPick : Option κ
  revert : Option κ
  merge : Bool
  bisect : Bool
  deriving DecidableEq, Repr

/-- A checked-out worktree.  `nested` are the untracked files that lie in a
repository of their own. -/
structure Worktree (κ : Type) where
  head : Head κ
  index : Tree
  files : Tree
  nested : List String
  ongoing : Ongoing κ
  locked : Bool
  deriving DecidableEq, Repr

/-- What sits at a place: an empty directory, a file, a directory of someone else
(with its own HEAD when it is a repository), or a worktree. -/
inductive Occupant (κ : Type) where
  | empty
  | file
  | foreign (repo : Option (Option κ))
  | linked (w : Worktree κ)
  deriving DecidableEq, Repr

/-- The registration of a worktree whose directory is gone. -/
structure Registration (κ : Type) where
  head : Head κ
  locked : Bool
  deriving DecidableEq, Repr

/-- The repository as commands change it. -/
structure Store (κ ℓ : Type) where
  refs : Map Ref κ
  places : Map ℓ (Occupant κ)
  missing : Map ℓ (Registration κ)
  exclude : List String
  deriving DecidableEq, Repr

/-- What does not change: the commits, their trees, which paths a set of files and
the shared exclude lines ignore, and what an expression names among the refs. -/
structure Repository (κ : Type) extends History κ where
  tree : κ → Tree
  ignored : Tree → List String → String → Bool
  revParse : Map Ref κ → String → Option κ

/-! ## Reading it -/

section
variable {κ ℓ : Type} [DecidableEq ℓ]

/-- No operation in progress. -/
def Ongoing.none : Ongoing κ := ⟨.none, .none, .none, .none, false, false⟩

/-- HEAD is attached to the branch. -/
def Head.isOn : Head κ → String → Bool
  | .attached b', b => decide (b' = b)
  | _, _ => false

/-- The commit HEAD names, none on an unborn branch. -/
def headCommit (refs : Map Ref κ) : Head κ → Option κ
  | .attached b => Dict.get? refs (.heads b)
  | .detached c => some c
  | .unreadable => none

/-- The tree HEAD names. -/
def headTree (R : Repository κ) (refs : Map Ref κ) (h : Head κ) : Tree :=
  match headCommit refs h with
  | some c => R.tree c
  | none => []

namespace Store

/-- The worktree at a place. -/
def worktree? (s : Store κ ℓ) (l : ℓ) : Option (Worktree κ) :=
  match Dict.get? s.places l with
  | some (.linked w) => some w
  | _ => none

/-- The commit a place carries: HEAD of a worktree, or of a foreign repository. -/
def headAt (s : Store κ ℓ) (l : ℓ) : Option κ :=
  match Dict.get? s.places l with
  | some (.linked w) => headCommit s.refs w.head
  | some (.foreign (some c)) => c
  | _ => none

/-- The branch the worktree at a place is attached to. -/
def branchAt (s : Store κ ℓ) (l : ℓ) : Option String :=
  match Dict.get? s.places l with
  | some (.linked w) =>
      match w.head with
      | .attached b => if (Dict.get? s.refs (.heads b)).isSome then some b else none
      | _ => none
  | _ => none

/-- Something sits at the place: an empty directory does not count. -/
def occupied (s : Store κ ℓ) (l : ℓ) : Bool :=
  match Dict.get? s.places l with
  | none | some .empty => false
  | _ => true

/-- A git command run at the place finds a repository. -/
def isRepository (s : Store κ ℓ) (l : ℓ) : Bool :=
  match Dict.get? s.places l with
  | some (.linked _) | some (.foreign (some _)) => true
  | _ => false

/-- A worktree at one of the places, its directory there or gone, has the branch
checked out. -/
def heldAt (s : Store κ ℓ) (at? : ℓ → Bool) (b : String) : Bool :=
  ((Dict.keys s.places).any fun l => at? l && match Dict.get? s.places l with
    | some (.linked w) => w.head.isOn b
    | _ => false) ||
  (Dict.keys s.missing).any fun l => at? l && match Dict.get? s.missing l with
    | some r => r.head.isOn b
    | none => false

/-- Some worktree has the branch checked out. -/
def held (s : Store κ ℓ) (b : String) : Bool := s.heldAt (fun _ => true) b

/-- A worktree other than the one at `l` has the branch checked out. -/
def heldElsewhere (s : Store κ ℓ) (l : ℓ) (b : String) : Bool :=
  s.heldAt (fun l' => decide (l' ≠ l)) b

/-- Put a worktree at a place. -/
def setWorktree (s : Store κ ℓ) (l : ℓ) (w : Worktree κ) : Store κ ℓ :=
  { s with places := Dict.set s.places l (.linked w) }

/-- Move the commit of the worktree at a place: its branch when it is attached, its
HEAD otherwise. -/
def advance (s : Store κ ℓ) (l : ℓ) (w : Worktree κ) (c : κ) : Store κ ℓ :=
  match w.head with
  | .attached b => { s.setWorktree l w with refs := Dict.set s.refs (.heads b) c }
  | _ => s.setWorktree l { w with head := .detached c }

end Store

/-! ## What there is to lose -/

/-- A ref names the commit, or a worktree is detached at it (the HEAD of an attached
one is its branch's). -/
def Root (s : Store κ ℓ) (c : κ) : Prop :=
  (∃ r, Dict.get? s.refs r = some c) ∨
    ∃ l w, Dict.get? s.places l = some (.linked w) ∧ w.head = .detached c

/-- Some root reaches the commit. -/
def Rooted (H : History κ) (s : Store κ ℓ) (x : κ) : Prop := ∃ c, Root s c ∧ H.Reaches c x

/-- The commits refs and detached worktrees name. -/
def Store.roots (s : Store κ ℓ) : List κ :=
  (Dict.keys s.refs).filterMap (Dict.get? s.refs) ++
    (Dict.keys s.places).filterMap fun l => match Dict.get? s.places l with
      | some (.linked w) => match w.head with
        | .detached c => some c
        | _ => none
      | _ => none

theorem Store.mem_roots {s : Store κ ℓ} {c : κ} : c ∈ s.roots ↔ Root s c := by
  rw [Store.roots, List.mem_append, List.mem_filterMap, List.mem_filterMap]
  refine or_congr ⟨fun ⟨r, _, hr⟩ => ⟨r, hr⟩, fun ⟨r, hr⟩ => ⟨r, ?_, hr⟩⟩ ⟨?_, ?_⟩
  · exact (Dict.contains_iff_mem_keys _ r).mp ((Dict.contains_iff _ r).mpr ⟨c, hr⟩)
  · rintro ⟨l, -, hl⟩
    cases ho : Dict.get? s.places l with
    | none =>
        rw [ho] at hl
        cases hl
    | some o =>
        rw [ho] at hl
        cases o with
        | linked w =>
            refine ⟨l, w, ho, ?_⟩
            cases hh : w.head with
            | detached d =>
                simp only [hh] at hl
                cases hl
                rfl
            | attached b => simp only [hh] at hl; cases hl
            | unreadable => simp only [hh] at hl; cases hl
        | empty => cases hl
        | file => cases hl
        | foreign repo => cases hl
  · rintro ⟨l, w, hw, hdet⟩
    refine ⟨l, (Dict.contains_iff_mem_keys _ l).mp ((Dict.contains_iff _ l).mpr ⟨_, hw⟩), ?_⟩
    simp only [hw, hdet]

instance [DecidableEq κ] (H : History κ) (s : Store κ ℓ) (x : κ) : Decidable (Rooted H s x) :=
  decidable_of_iff (∃ c ∈ s.roots, H.Reaches c x)
    (exists_congr fun _ => and_congr_left fun _ => Store.mem_roots)

/-- Index, file and HEAD agree at a path. -/
def Clean (R : Repository κ) (refs : Map Ref κ) (w : Worktree κ) (p : String) : Prop :=
  Dict.get? w.index p = Dict.get? (headTree R refs w.head) p ∧
    Dict.get? w.files p = Dict.get? w.index p

instance (R : Repository κ) (refs : Map Ref κ) (w : Worktree κ) (p : String) :
    Decidable (Clean R refs w p) :=
  inferInstanceAs (Decidable (_ ∧ _))

/-- A file that is not in the index. -/
def Untracked (w : Worktree κ) (p : String) : Prop :=
  Dict.get? w.index p = none ∧ Dict.get? w.files p ≠ none

instance (w : Worktree κ) (p : String) : Decidable (Untracked w p) :=
  inferInstanceAs (Decidable (_ ∧ _))

/-- A file the ignore rules give up: untracked, and matched by them. -/
def Ignored (R : Repository κ) (exclude : List String) (w : Worktree κ) (p : String) : Prop :=
  Untracked w p ∧ R.ignored w.files exclude p = true

instance (R : Repository κ) (exclude : List String) (w : Worktree κ) (p : String) :
    Decidable (Ignored R exclude w p) :=
  inferInstanceAs (Decidable (_ ∧ _))

/-- A path a user edited: modified, staged, or untracked and not ignored. -/
def Edited (R : Repository κ) (s : Store κ ℓ) (w : Worktree κ) (p : String) : Prop :=
  ¬ Clean R s.refs w p ∧ ¬ Ignored R s.exclude w p

/-- A path has the same file and the same index entry in both worktrees. -/
def SameAt (w w' : Worktree κ) (p : String) : Prop :=
  Dict.get? w'.files p = Dict.get? w.files p ∧ Dict.get? w'.index p = Dict.get? w.index p

omit [DecidableEq ℓ] in
theorem SameAt.trans {w₁ w₂ w₃ : Worktree κ} {p : String} (h₁ : SameAt w₁ w₂ p)
    (h₂ : SameAt w₂ w₃ p) : SameAt w₁ w₃ p :=
  ⟨h₂.1.trans h₁.1, h₂.2.trans h₁.2⟩

theorem Rooted.of_root {H : History κ} {s : Store κ ℓ} {c : κ} (h : Root s c) :
    Rooted H s c := ⟨c, h, History.Reaches.refl c⟩

/-- Roots that stay reachable keep everything they reach reachable. -/
theorem Rooted.mono {H : History κ} {s s' : Store κ ℓ} (h : ∀ c, Root s c → Rooted H s' c)
    {x : κ} (hx : Rooted H s x) : Rooted H s' x := by
  obtain ⟨c, hc, hr⟩ := hx
  obtain ⟨d, hd, hdc⟩ := h c hc
  exact ⟨d, hd, hdc.trans hr⟩

namespace Store

theorem worktree?_eq_some {s : Store κ ℓ} {l : ℓ} {w : Worktree κ} :
    s.worktree? l = some w ↔ Dict.get? s.places l = some (.linked w) := by
  rw [worktree?]
  cases h : Dict.get? s.places l with
  | none => simp
  | some o => cases o <;> simp

/-- A place with nothing there has no HEAD. -/
theorem headAt_of_not_occupied {s : Store κ ℓ} {l : ℓ} (h : s.occupied l = false) :
    s.headAt l = none := by
  rw [occupied] at h
  rw [headAt]
  cases ho : Dict.get? s.places l with
  | none => rfl
  | some o =>
      cases o with
      | empty => rfl
      | file => rfl
      | foreign repo => rw [ho] at h; cases h
      | linked w => rw [ho] at h; cases h

/-- A branch is held where a worktree, or the registration of one, is attached to it. -/
theorem heldAt_iff {s : Store κ ℓ} {at? : ℓ → Bool} {b : String} :
    s.heldAt at? b = true ↔ ∃ l, at? l = true ∧
      ((∃ w, Dict.get? s.places l = some (.linked w) ∧ w.head.isOn b = true) ∨
        ∃ r, Dict.get? s.missing l = some r ∧ r.head.isOn b = true) := by
  have hkey : ∀ {α : Type} {d : Map ℓ α} {l : ℓ} {x : α}, Dict.get? d l = some x →
      l ∈ Dict.keys d := fun h =>
    (Dict.contains_iff_mem_keys _ _).mp ((Dict.contains_iff _ _).mpr ⟨_, h⟩)
  rw [heldAt, Bool.or_eq_true, List.any_eq_true, List.any_eq_true]
  constructor
  · rintro (⟨l, -, hl⟩ | ⟨l, -, hl⟩)
    · obtain ⟨hat, hon⟩ := Bool.and_eq_true_iff.mp hl
      refine ⟨l, hat, .inl ?_⟩
      cases ho : Dict.get? s.places l with
      | none => rw [ho] at hon; cases hon
      | some o =>
          rw [ho] at hon
          cases o with
          | linked w => exact ⟨w, rfl, hon⟩
          | empty => cases hon
          | file => cases hon
          | foreign repo => cases hon
    · obtain ⟨hat, hon⟩ := Bool.and_eq_true_iff.mp hl
      refine ⟨l, hat, .inr ?_⟩
      cases hr : Dict.get? s.missing l with
      | none => rw [hr] at hon; cases hon
      | some r =>
          rw [hr] at hon
          exact ⟨r, rfl, hon⟩
  · rintro ⟨l, hat, ⟨w, hw, hon⟩ | ⟨r, hr, hon⟩⟩
    · refine .inl ⟨l, hkey hw, ?_⟩
      rw [hat, hw]
      exact hon
    · refine .inr ⟨l, hkey hr, ?_⟩
      rw [hat, hr]
      exact hon

@[simp] theorem setWorktree_refs (s : Store κ ℓ) (l : ℓ) (w : Worktree κ) :
    (s.setWorktree l w).refs = s.refs := rfl

@[simp] theorem setWorktree_missing (s : Store κ ℓ) (l : ℓ) (w : Worktree κ) :
    (s.setWorktree l w).missing = s.missing := rfl

@[simp] theorem setWorktree_exclude (s : Store κ ℓ) (l : ℓ) (w : Worktree κ) :
    (s.setWorktree l w).exclude = s.exclude := rfl

@[simp] theorem setWorktree_place_self (s : Store κ ℓ) (l : ℓ) (w : Worktree κ) :
    Dict.get? (s.setWorktree l w).places l = some (.linked w) := Dict.get?_set_self _ _ _

theorem setWorktree_place_ne {s : Store κ ℓ} {l l' : ℓ} (w : Worktree κ) (h : l' ≠ l) :
    Dict.get? (s.setWorktree l w).places l' = Dict.get? s.places l' := Dict.get?_set_ne _ _ h

end Store

end

end Git
