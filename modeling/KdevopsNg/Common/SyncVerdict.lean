/-
# `Common.SyncVerdict` — what the verdict of a sync is worth

`_sync` answers with a reason and a commit, and the manifest of a build records
both.  `sync_settles` says what they stand for, in every state and whatever git
refuses:

    no reason        the tree sits on the target
    a reason         the tree is elsewhere, or the sync was refused before it
                     looked (`Refused`), or git did not say where HEAD is
    the commit       HEAD, or nothing where git did not say

HEAD is attached to no branch it was not on but the ref's, and only where that is
free at the target.  What HEAD reached stays reachable as long as git said where
HEAD was before a removal.
-/
import KdevopsNg.Common.NoLoss

namespace KdevopsNg.Common

open Py Git

/-- The worktree at a place is attached to the branch. -/
def OnBranch (s : St) (l : Path) (b : String) : Prop :=
  ∃ w, Dict.get? s.places l = some (.linked w) ∧ w.head = .attached b

/-- A ref, or HEAD at a place, reaches the commit. -/
def ReachedFrom (R : Repository Commit) (l : Path) (s : St) (x : Commit) : Prop :=
  (∃ r d, Dict.get? s.refs r = some d ∧ R.Reaches d x) ∨
    ∃ d, s.headAt l = some d ∧ R.Reaches d x

/-- HEAD is attached to a branch it was on, or to the ref's: one at the target, that no
other worktree holds. -/
def AttachesTo (ref : String) (target : Commit) (l : Path) (s s' : St) : Prop :=
  ∀ b, OnBranch s' l b → OnBranch s l b ∨
    b = ref ∧ Dict.get? s'.refs (.heads ref) = some target ∧ s'.heldElsewhere l ref = false

/-- What HEAD reached is still reached. -/
def KeepsHistory (R : Repository Commit) (l : Path) (s s' : St) : Prop :=
  ∀ h x, s.headAt l = some h → R.Reaches h x → ReachedFrom R l s' x

theorem AttachesTo.refl (ref : String) (target : Commit) (l : Path) (s : St) :
    AttachesTo ref target l s s := fun _ h => .inl h

theorem KeepsHistory.refl (R : Repository Commit) (l : Path) (s : St) : KeepsHistory R l s s :=
  fun h _ hh hx => .inr ⟨h, hh, hx⟩

section
variable (R : Repository Commit) (env : Env)

section
variable (l : Path) (ref : String) (target : Commit) (recreate : Bool)

/-- The sync refuses what sits at the place: it is no worktree of the Bare, an operation
holds it, or it cannot be recreated. -/
def Refused (s : St) : Prop :=
  s.occupied l = true ∧
    (declines env l s = true ∨ recreate = true ∧ removeStore R env l s = none)

/-- Nothing sits at the place any more: nothing did, or a recreate removed it. -/
def Cleared (s s₁ : St) : Prop :=
  s.occupied l = false ∧ s₁ = s ∨
    s.occupied l = true ∧ declines env l s = false ∧ recreate = true ∧
      removeStore R env l s = some s₁

/-! ## The ways a sync goes -/

/-- Refuse, lay the worktree, or bring the one there onto the target. -/
inductive SyncStep (s : St) : Bool × St → Prop where
  | refused (h : Refused R env l recreate s) : SyncStep s (false, s)
  | laid {s₁ : St} (h : Cleared R env l recreate s s₁) : SyncStep s (addStore R env l ref target s₁)
  | present (hocc : s.occupied l = true) (hgo : declines env l s = false)
      (hrec : recreate = false) : SyncStep s (presentStore R env l ref target s)

theorem sync_step (s : St) :
    SyncStep R env l ref target recreate s (syncStore R env l ref target recreate s) := by
  rw [syncStore]
  cases hocc : s.occupied l with
  | false => exact .laid (.inl ⟨hocc, rfl⟩)
  | true =>
      simp only [Bool.not_true, Bool.false_eq_true, if_false]
      cases hdecl : declines env l s with
      | true => exact .refused ⟨hocc, .inl hdecl⟩
      | false =>
          simp only [Bool.false_eq_true, if_false]
          cases recreate with
          | false => exact .present hocc hdecl rfl
          | true =>
              simp only [if_true]
              cases hrem : removeStore R env l s with
              | none => exact .refused ⟨hocc, .inr ⟨rfl, hrem⟩⟩
              | some s₁ => exact .laid (.inr ⟨hocc, hdecl, rfl, hrem⟩)

/-- A tree that was there: it is on the target and stays, or is attached there, or its
branch keeps it, or it was asked to fast-forward. -/
inductive PresentStep (s : St) : Bool × St → Prop where
  | settled (hat : s.headAt l = some target) : PresentStep s (true, s)
  | attached {s' : St} (hat : s.headAt l = some target)
      (hb : attachable env ref target s = some ref) (hco : checkout R l ref s = some s') :
      PresentStep s (true, s')
  | branched (hne : env.answers (.head .before) = true → s.headAt l ≠ some target) :
      PresentStep s (false, s)
  | forwarded {s' : St} (hff : s' = s ∨ ffMerge R l target s = some s')
      (hne : env.answers (.head .before) = true → s.headAt l ≠ some target)
      (hon : ask env .attached (s.branchAt l) = none) :
      PresentStep s (decide (ask env (.head .merged) (s'.headAt l) = some target), s')

theorem present_step (s : St) :
    PresentStep R env l ref target s (presentStore R env l ref target s) := by
  rw [presentStore]
  by_cases hhead : ask env (.head .before) (s.headAt l) = some target
  · have hat : s.headAt l = some target := ask_eq_some hhead
    rw [if_pos hhead]
    cases ask env .attached (s.branchAt l) with
    | some b => exact .settled hat
    | none =>
        cases hb : attachable env ref target s with
        | none => exact .settled hat
        | some b =>
            obtain ⟨rfl, -⟩ := attachable_spec hb
            simp only
            cases hco : tried env .checkout (checkout R l b) s with
            | none => exact .settled hat
            | some s' => exact .attached hat hb (tried_eq_some hco).2
  · have hne : env.answers (.head .before) = true → s.headAt l ≠ some target := by
      intro hans hat
      exact hhead ((ask_of_answers hans _).trans hat)
    rw [if_neg hhead]
    cases hon : ask env .attached (s.branchAt l) with
    | some b => exact .branched hne
    | none =>
        simp only
        refine .forwarded ?_ hne hon
        cases hm : tried env .merge (ffMerge R l target) s with
        | none => exact .inl rfl
        | some s' => exact .inr (tried_eq_some hm).2

end

/-! ## Laying a worktree -/

section
variable {R env} {l : Path} {ref : String} {target : Commit} {recreate : Bool}

/-- A worktree laid is on the ref's branch where that is free at the target, and detached
at the target otherwise. -/
theorem add_laid {s s' : St} (h : tried env .add
    (worktreeAdd R false l (checkoutOf (attachable env ref target s) target)) s = some s') :
    ∃ head, s' = lay R l head target s ∧ headCommit s.refs head = some target ∧
      (head = .detached target ∧ attachable env ref target s = none ∨
        head = .attached ref ∧ Dict.get? s.refs (.heads ref) = some target ∧
          s.held ref = false) := by
  cases hb : attachable env ref target s with
  | none =>
      rw [hb] at h
      obtain ⟨-, head, c, hc, rfl, hdet, rfl⟩ := worktreeAdd_eq_some (tried_eq_some h).2
      exact ⟨head, rfl, hc, .inl ⟨hdet, rfl⟩⟩
  | some b =>
      rw [hb] at h
      obtain ⟨-, head, c, hc, rfl, hon⟩ := worktreeAdd_eq_some (tried_eq_some h).2
      obtain ⟨rfl, htip, hfree⟩ := attachable_spec hb
      have hcommit : headCommit s.refs head = Dict.get? s.refs (.heads b) := by
        rw [show head = .attached b from hon]
        rfl
      cases hc.symm.trans (hcommit.trans htip)
      exact ⟨head, rfl, hc, .inr ⟨hon, htip, hfree⟩⟩

theorem headAt_lay (R : Repository Commit) (l : Path) (head : Head Commit) (c : Commit) (s : St) :
    (lay R l head c s).headAt l = headCommit s.refs head := by
  have hplace : Dict.get? (lay R l head c s).places l =
      some (.linked (freshWorktree R head c)) := Store.setWorktree_place_self s l _
  rw [Store.headAt, hplace]
  rfl

/-- What no worktree held before is held by none elsewhere, when only this place
changed. -/
theorem not_heldElsewhere {s s' : St} {b : String} (hfree : s.held b = false)
    (hplaces : ∀ l', l' ≠ l → Dict.get? s'.places l' = Dict.get? s.places l')
    (hmissing : ∀ l', l' ≠ l → Dict.get? s'.missing l' = Dict.get? s.missing l') :
    s'.heldElsewhere l b = false := by
  rw [← Bool.not_eq_true]
  intro hheld
  obtain ⟨l', hl, hon⟩ := Store.heldAt_iff.mp hheld
  have hne : l' ≠ l := of_decide_eq_true hl
  rw [hplaces l' hne, hmissing l' hne] at hon
  have hbefore : s.held b = true := Store.heldAt_iff.mpr ⟨l', rfl, hon⟩
  rw [hfree] at hbefore
  cases hbefore

theorem Cleared.free {s s₁ : St} (h : Cleared R env l recreate s s₁) :
    s₁.occupied l = false := by
  rcases h with ⟨hocc, rfl⟩ | ⟨-, -, -, hrem⟩
  · exact hocc
  · exact occupied_of_worktreeRemove R l (removeStore_eq_some hrem).2

theorem Cleared.not_refused {s s₁ : St} (h : Cleared R env l recreate s s₁) :
    ¬ Refused R env l recreate s := by
  rintro ⟨hocc, hwhy⟩
  rcases h with ⟨hfree, -⟩ | ⟨-, hgo, -, hrem⟩
  · rw [hocc] at hfree
    cases hfree
  · rcases hwhy with hdecl | ⟨-, hno⟩
    · rw [hgo] at hdecl
      cases hdecl
    · rw [hrem] at hno
      cases hno

/-- Clearing the place leaves a ref to everything HEAD reached, when git said where HEAD
was before a removal. -/
theorem Cleared.reached {s s₁ : St} (h : Cleared R env l recreate s s₁)
    (hread : recreate = true → env.answers (.head .removal) = true) {c x : Commit}
    (hc : s.headAt l = some c) (hx : R.Reaches c x) :
    ∃ r d, Dict.get? s₁.refs r = some d ∧ R.Reaches d x := by
  rcases h with ⟨hocc, rfl⟩ | ⟨-, -, hrec, hrem⟩
  · rw [Store.headAt_of_not_occupied hocc] at hc
    cases hc
  · obtain ⟨hprobed, hremove⟩ := removeStore_eq_some hrem
    obtain ⟨r, d, hr, hd⟩ := reached_of_probed (hread hrec) hprobed hc
    obtain ⟨w, -, -, rfl⟩ := worktreeRemove_eq_some hremove
    exact ⟨r, d, hr, hd.trans hx⟩

end

/-! ## What the verdict stands for -/

section
variable (l : Path) (ref : String) (target : Commit) (recreate : Bool)

/-- What a sync says is so, to the letter: it says that it synced exactly where the tree
sits on the target, and the commit is HEAD. -/
structure Truthful (s s' : St) (synced : Bool) (commit : Option Commit) : Prop where
  verdict : synced = true ↔ s'.headAt l = some target
  commit : commit = s'.headAt l
  attached : AttachesTo ref target l s s'
  kept : KeepsHistory R l s s'

/-- What a sync says, by design: a tree on the target is still declined where the sync
refuses it, and a query for HEAD that fails tells nothing. -/
structure Settled (s s' : St) (synced : Bool) (commit : Option Commit) : Prop where
  reached : synced = true → s'.headAt l = some target ∧ ¬ Refused R env l recreate s
  declined : synced = false → s'.headAt l ≠ some target ∨ Refused R env l recreate s ∨
    env.answers (.head .before) = false ∨ env.answers (.head .merged) = false
  commit : Reported env l s' commit
  attached : AttachesTo ref target l s s'
  kept : (recreate = true → env.answers (.head .removal) = true) → KeepsHistory R l s s'

variable {R env l ref target recreate}

theorem settled_refused {s : St} {commit : Option Commit} (h : Refused R env l recreate s)
    (hcommit : Reported env l s commit) :
    Settled R env l ref target recreate s s false commit where
  reached := fun hno => by cases hno
  declined := fun _ => .inr (.inl h)
  commit := hcommit
  attached := AttachesTo.refl ref target l s
  kept := fun _ => KeepsHistory.refl R l s

theorem settled_laid {s s₁ : St} {commit : Option Commit} (h : Cleared R env l recreate s s₁)
    (hcommit : Reported env l (addStore R env l ref target s₁).2 commit) :
    Settled R env l ref target recreate s (addStore R env l ref target s₁).2
      (addStore R env l ref target s₁).1 commit := by
  rw [addStore] at hcommit ⊢
  cases hadd : tried env .add
      (worktreeAdd R false l (checkoutOf (attachable env ref target s₁) target)) s₁ with
  | none =>
      rw [hadd] at hcommit
      refine ⟨fun hno => (by cases hno), fun _ => .inl ?_, hcommit, fun b hb => ?_,
        fun hread c x hc hx => .inl (h.reached hread hc hx)⟩
      · rw [Store.headAt_of_not_occupied h.free]
        exact fun hno => by cases hno
      · obtain ⟨w, hw, -⟩ := hb
        exact absurd hw (not_linked_of_not_occupied h.free w)
  | some s' =>
      rw [hadd] at hcommit
      obtain ⟨head, rfl, hhead, honly⟩ := add_laid hadd
      refine ⟨fun _ => ⟨(headAt_lay R l head target s₁).trans hhead, h.not_refused⟩,
        fun hno => (by cases hno), hcommit, fun b hb => .inr ?_,
        fun hread c x hc hx => .inl (h.reached hread hc hx)⟩
      obtain ⟨w, hw, hon⟩ := hb
      have hplace : Dict.get? (lay R l head target s₁).places l =
          some (.linked (freshWorktree R head target)) := Store.setWorktree_place_self s₁ l _
      cases hplace.symm.trans hw
      rcases honly with ⟨hdet, -⟩ | ⟨hatt, htip, hfree⟩
      · cases hdet.symm.trans hon
      cases hatt.symm.trans hon
      exact ⟨rfl, htip, not_heldElsewhere hfree (fun l' hl => Store.setWorktree_place_ne _ hl)
        fun l' hl => Dict.get?_erase_ne _ hl⟩

theorem settled_present {s : St} {commit : Option Commit} (hgo : ¬ Refused R env l recreate s)
    (hcommit : Reported env l (presentStore R env l ref target s).2 commit) :
    Settled R env l ref target recreate s (presentStore R env l ref target s).2
      (presentStore R env l ref target s).1 commit := by
  have hstep := present_step R env l ref target s
  generalize presentStore R env l ref target s = out at hstep hcommit ⊢
  cases hstep with
  | settled hat =>
      exact ⟨fun _ => ⟨hat, hgo⟩, fun hno => (by cases hno), hcommit, AttachesTo.refl ref target l s,
        fun _ => KeepsHistory.refl R l s⟩
  | @attached s' hat hb hco =>
      obtain ⟨-, htip, hfree⟩ := attachable_spec hb
      have hat' : s'.headAt l = some target := (checkout_headAt hco).trans htip
      refine ⟨fun _ => ⟨hat', hgo⟩, fun hno => (by cases hno), hcommit, fun b hon => .inr ?_,
        fun _ c x hc hx => ?_⟩
      · obtain ⟨w, c, -, -, -, rfl⟩ := checkout_eq_some hco
        obtain ⟨v, hv, hatt⟩ := hon
        rw [Store.setWorktree_place_self] at hv
        cases hv
        cases hatt
        exact ⟨rfl, htip, not_heldElsewhere hfree (fun l' hl => Store.setWorktree_place_ne _ hl)
          fun _ _ => rfl⟩
      · cases hat.symm.trans hc
        exact .inr ⟨target, hat', hx⟩
  | branched hne =>
      refine ⟨fun hno => (by cases hno), fun _ => ?_, hcommit, AttachesTo.refl ref target l s,
        fun _ => KeepsHistory.refl R l s⟩
      cases hans : env.answers (.head .before) with
      | true => exact .inl (hne hans)
      | false => exact .inr (.inr (.inl rfl))
  | @forwarded s' hff hne hon =>
      refine ⟨fun hyes => ⟨ask_eq_some (of_decide_eq_true hyes), hgo⟩, fun hno => ?_, hcommit,
        ?_, ?_⟩
      · cases hans : env.answers (.head .merged) with
        | true =>
            refine .inl fun hat => of_decide_eq_false hno ?_
            exact (ask_of_answers hans _).trans hat
        | false => exact .inr (.inr (.inr rfl))
      · rcases hff with rfl | hff
        · exact AttachesTo.refl ref target l _
        · obtain ⟨w, hw, -, ⟨rfl, -⟩ | ⟨-, -, rfl⟩⟩ := ffMerge_eq_some hff
          · exact AttachesTo.refl ref target l _
          · intro b hb
            obtain ⟨head, hplace, -, honly⟩ := advance_place_self s l
              (rewrite (headTree R s.refs w.head) (R.tree target) w) target
            obtain ⟨v, hv, hatt⟩ := hb
            cases hplace.symm.trans hv
            exact .inl ⟨w, hw, honly b hatt⟩
      · intro _ c x hc hx
        rcases hff with rfl | hff
        · exact .inr ⟨c, hc, hx⟩
        · obtain ⟨w, hw, -, ⟨rfl, -⟩ | ⟨hfwd, -, rfl⟩⟩ := ffMerge_eq_some hff
          · exact .inr ⟨c, hc, hx⟩
          · have hold : headCommit s.refs w.head = some c := by
              rw [Store.headAt, hw] at hc
              exact hc
            obtain ⟨head, hplace, hcommit', -⟩ := advance_place_self s l
              (rewrite (headTree R s.refs w.head) (R.tree target) w) target
            refine .inr ⟨target, ?_, (hfwd c hold).1.trans hx⟩
            rw [Store.headAt, hplace]
            exact hcommit'

variable (R env l ref target recreate)

/-- A sync that left a commit to report is settled. -/
theorem settled_syncStore {s : St} {commit : Option Commit}
    (hcommit : Reported env l (syncStore R env l ref target recreate s).2 commit) :
    Settled R env l ref target recreate s (syncStore R env l ref target recreate s).2
      (syncStore R env l ref target recreate s).1 commit := by
  have hstep := sync_step R env l ref target recreate s
  generalize syncStore R env l ref target recreate s = out at hstep hcommit ⊢
  cases hstep with
  | refused h => exact settled_refused h hcommit
  | laid h => exact settled_laid h hcommit
  | present hocc hgo hrec =>
      refine settled_present (fun hno => ?_) hcommit
      rcases hno.2 with hdecl | ⟨hyes, -⟩
      · rw [hgo] at hdecl
        cases hdecl
      · rw [hrec] at hyes
        cases hyes

end

end

/-- A worktree that a bisect holds, detached at `b`. -/
def bisectedTree : St :=
  { developerAt "b" with
    places := [(["work", "vanilla", "linux"], .linked { freshWorktree sample (.detached "b") "b" with
      ongoing := { Ongoing.none with bisect := true } })] }

end KdevopsNg.Common
