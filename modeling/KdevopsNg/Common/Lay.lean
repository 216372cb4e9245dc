/-
# `Common.Lay` — what laying the build worktree does

`prepare` aborts what an earlier run left in progress, cleans, and forces the
worktree onto the target; or it lays one anew.  The only refs any of this moves
are the branches an abort puts back (`Rewinds`), so where those are already there
(`Settled`) no branch moves: `Steady` says that of the refs one cares about, and
every step of `prepare` up to its series keeps it.

    aborts      `abortCommand_eq_some`, then `sanitizeStore` as a whole
    laying      `layWorktree_ok`: forced, or anew
    refs        `steady_layWorktree`
-/
import KdevopsNg.Common.Sync

namespace KdevopsNg.Common

open Py Git

/-! ## What an abort puts back -/

/-- Aborting an operation of the worktree puts a branch at a commit. -/
inductive Rewinds (w : Worktree Commit) : Abort → String → Commit → Prop where
  | am {b : String} {orig : Commit} (ho : w.ongoing.apply = some (.am orig))
      (hb : w.head = .attached b) : Rewinds w .am b orig
  | rebase {b : String} {orig : Commit} (ho : w.ongoing.apply = some (.rebase (some b) orig)) :
      Rewinds w .rebase b orig
  | rebaseMerge {b : String} {orig : Commit} (ho : w.ongoing.rebaseMerge = some (some b, orig)) :
      Rewinds w .rebase b orig
  | cherryPick {b : String} {orig : Commit} (ho : w.ongoing.cherryPick = some orig)
      (hb : w.head = .attached b) : Rewinds w .cherryPick b orig
  | revert {b : String} {orig : Commit} (ho : w.ongoing.revert = some orig)
      (hb : w.head = .attached b) : Rewinds w .revert b orig

/-- No `git am` or rebase in progress. -/
def Unwedged (w : Worktree Commit) : Prop :=
  w.ongoing.apply = none ∧ w.ongoing.rebaseMerge = none

/-- The operations in progress are among those of another worktree. -/
structure Fewer (o' o : Ongoing Commit) : Prop where
  apply : o'.apply = none ∨ o'.apply = o.apply
  rebaseMerge : o'.rebaseMerge = none ∨ o'.rebaseMerge = o.rebaseMerge
  cherryPick : o'.cherryPick = none ∨ o'.cherryPick = o.cherryPick
  revert : o'.revert = none ∨ o'.revert = o.revert

theorem Rewinds.of_fewer {w w' : Worktree Commit} {op : Abort} {b : String} {orig : Commit}
    (h : Rewinds w' op b orig) (hless : Fewer w'.ongoing w.ongoing)
    (hhead : ∀ b, w'.head = .attached b → w.head = .attached b) : Rewinds w op b orig := by
  have hsame : ∀ {α : Type} {x y : Option α} {a : α}, (x = none ∨ x = y) → x = some a →
      y = some a := by
    intro α x y a hxy hx
    rcases hxy with hn | he
    · rw [hn] at hx
      cases hx
    · exact he.symm.trans hx
  cases h with
  | am ho hb => exact .am (hsame hless.apply ho) (hhead _ hb)
  | rebase ho => exact .rebase (hsame hless.apply ho)
  | rebaseMerge ho => exact .rebaseMerge (hsame hless.rebaseMerge ho)
  | cherryPick ho hb => exact .cherryPick (hsame hless.cherryPick ho) (hhead _ hb)
  | revert ho hb => exact .revert (hsame hless.revert ho) (hhead _ hb)

theorem Unwedged.of_fewer {w w' : Worktree Commit} (hless : Fewer w'.ongoing w.ongoing)
    (h : Unwedged w) : Unwedged w' := by
  refine ⟨?_, ?_⟩
  · rcases hless.apply with hn | he
    · exact hn
    · exact he.trans h.1
  · rcases hless.rebaseMerge with hn | he
    · exact hn
    · exact he.trans h.2

/-- What an abort of `op` does to the worktree at `l` and to the refs. -/
structure Aborted (op : Abort) (l : Path) (s s' : St) (w w' : Worktree Commit) : Prop where
  place : Dict.get? s'.places l = some (.linked w')
  exclude : s'.exclude = s.exclude
  refs : ∀ r, Dict.get? s'.refs r = Dict.get? s.refs r ∨
    ∃ b orig, Rewinds w op b orig ∧ r = .heads b ∧ Dict.get? s'.refs r = some orig
  rewinds : ∀ op' b orig, Rewinds w' op' b orig → Rewinds w op' b orig
  fewer : Fewer w'.ongoing w.ongoing
  cleared : op = .am ∨ op = .rebase → w.ongoing.apply = none ∨ w.ongoing.rebaseMerge = none →
    Unwedged w'

section
variable {R : Repository Commit} {l : Path}

/-- An abort that moves HEAD back, and the branch it is attached to with it. -/
theorem aborted_advance {op : Abort} {s : St} {w : Worktree Commit} {t : Tree}
    (o' : Ongoing Commit) {orig : Commit}
    (hputs : ∀ b, w.head = .attached b → Rewinds w op b orig) (hless : Fewer o' w.ongoing)
    (hclear : op = .am ∨ op = .rebase → w.ongoing.apply = none ∨ w.ongoing.rebaseMerge = none →
      o'.apply = none ∧ o'.rebaseMerge = none) :
    ∃ w', Aborted op l s (s.advance l { resetMerge t w with ongoing := o' } orig) w w' := by
  obtain ⟨head, hplace, hcommit, hatt⟩ :=
    advance_place_self s l { resetMerge t w with ongoing := o' } orig
  refine ⟨_, hplace, advance_exclude _ _ _ _, fun r => ?_, fun op' b orig' hr => ?_, hless, hclear⟩
  · by_cases hr : ∃ b, w.head = .attached b ∧ r = .heads b
    · obtain ⟨b, hb, rfl⟩ := hr
      exact .inr ⟨b, orig, hputs b hb, rfl, advance_ref_attached orig hb⟩
    · exact .inl (advance_ref orig fun b hb hrb => hr ⟨b, hb, hrb⟩)
  · exact hr.of_fewer hless hatt

/-- A rebase goes back to the branch it began on. -/
theorem aborted_backTo (s : St) (home : Option String) (orig : Commit) {w : Worktree Commit}
    (o' : Ongoing Commit) (hputs : ∀ b, home = some b → Rewinds w .rebase b orig)
    (happly : o'.apply = none)
    (hmerge : o'.rebaseMerge = none ∨ o'.rebaseMerge = w.ongoing.rebaseMerge)
    (hclear : w.ongoing.apply = none ∨ w.ongoing.rebaseMerge = none → o'.rebaseMerge = none) :
    ∃ w', Aborted .rebase l s (backTo R l w home orig o' s) w w' := by
  have hless : Fewer o'.switched w.ongoing := ⟨.inl happly, hmerge, .inl rfl, .inl rfl⟩
  -- with nothing but a `rebase-merge` left, only that can put a branch back
  have hleft : ∀ (w' : Worktree Commit), w'.ongoing = o'.switched → ∀ op' b orig',
      Rewinds w' op' b orig' → Rewinds w op' b orig' := by
    intro w' hw' op' b orig' hr
    have happly' : w'.ongoing.apply = none := by rw [hw']; exact happly
    cases hr with
    | am ho hb => rw [happly'] at ho; cases ho
    | rebase ho => rw [happly'] at ho; cases ho
    | rebaseMerge ho =>
        rw [hw'] at ho
        rcases hmerge with hn | he
        · exact absurd (hn.symm.trans ho) (by simp)
        · exact .rebaseMerge (he.symm.trans ho)
    | cherryPick ho hb => rw [hw'] at ho; cases ho
    | revert ho hb => rw [hw'] at ho; cases ho
  cases home with
  | none =>
      exact ⟨_, Store.setWorktree_place_self _ _ _, rfl, fun r => .inl rfl, hleft _ rfl, hless,
        fun _ h => ⟨happly, hclear h⟩⟩
  | some b =>
      refine ⟨_, Store.setWorktree_place_self s l _, rfl, fun r => ?_, hleft _ rfl, hless,
        fun _ h => ⟨happly, hclear h⟩⟩
      by_cases hr : r = .heads b
      · subst hr
        exact .inr ⟨b, orig, hputs b rfl, rfl, Dict.get?_set_self _ _ _⟩
      · exact .inl (Dict.get?_set_ne _ _ hr)

theorem abortCommand_eq_some {op : Abort} {s s' : St} (h : abortCommand R op l s = some s') :
    ∃ w w', Dict.get? s.places l = some (.linked w) ∧ Aborted op l s s' w w' := by
  have hplace : ∀ {w}, s.worktree? l = some w → Dict.get? s.places l = some (.linked w) :=
    fun hw => Store.worktree?_eq_some.mp hw
  cases op with
  | am =>
      rw [abortCommand, abortAm] at h
      cases hw : s.worktree? l with
      | none => rw [hw] at h; cases h
      | some w =>
          simp only [hw] at h
          cases ho : w.ongoing.apply with
          | none => rw [ho] at h; cases h
          | some a =>
              cases a with
              | rebase home orig => rw [ho] at h; cases h
              | am orig =>
                  rw [ho] at h
                  cases h
                  obtain ⟨w', hw'⟩ := aborted_advance (l := l) (s := s) (t := R.tree orig)
                    { w.ongoing with apply := none } (fun b hb => .am ho hb) ⟨.inl rfl, .inr rfl, .inr rfl, .inr rfl⟩
                    fun _ hone => ⟨rfl, hone.resolve_left (by rw [ho]; simp)⟩
                  exact ⟨w, w', hplace hw, hw'⟩
  | rebase =>
      rw [abortCommand, abortRebase] at h
      cases hw : s.worktree? l with
      | none => rw [hw] at h; cases h
      | some w =>
          simp only [hw] at h
          cases ho : w.ongoing.apply with
          | some a =>
              cases a with
              | am orig => rw [ho] at h; cases h
              | rebase home orig =>
                  rw [ho] at h
                  cases h
                  obtain ⟨w', hw'⟩ := aborted_backTo (R := R) (l := l) s home orig
                    { w.ongoing with apply := none }
                    (fun b hb => .rebase (hb ▸ ho)) rfl (.inr rfl)
                    fun hone => hone.resolve_left (by rw [ho]; simp)
                  exact ⟨w, w', hplace hw, hw'⟩
          | none =>
              cases hm : w.ongoing.rebaseMerge with
              | none => rw [ho, hm] at h; cases h
              | some m =>
                  obtain ⟨home, orig⟩ := m
                  rw [ho, hm] at h
                  cases h
                  obtain ⟨w', hw'⟩ := aborted_backTo (R := R) (l := l) s home orig
                    { w.ongoing with apply := none, rebaseMerge := none }
                    (fun b hb => .rebaseMerge (hb ▸ hm)) rfl (.inl rfl) fun _ => rfl
                  exact ⟨w, w', hplace hw, hw'⟩
  | cherryPick =>
      rw [abortCommand, abortCherryPick] at h
      cases hw : s.worktree? l with
      | none => rw [hw] at h; cases h
      | some w =>
          simp only [hw] at h
          cases ho : w.ongoing.cherryPick with
          | none => rw [ho] at h; cases h
          | some orig =>
              rw [ho] at h
              cases h
              obtain ⟨w', hw'⟩ := aborted_advance (l := l) (s := s) (t := R.tree orig)
                { w.ongoing with cherryPick := none } (fun b hb => .cherryPick ho hb)
                ⟨.inr rfl, .inr rfl, .inl rfl, .inr rfl⟩ fun hop => by rcases hop with h | h <;> cases h
              exact ⟨w, w', hplace hw, hw'⟩
  | revert =>
      rw [abortCommand, abortRevert] at h
      cases hw : s.worktree? l with
      | none => rw [hw] at h; cases h
      | some w =>
          simp only [hw] at h
          cases ho : w.ongoing.revert with
          | none => rw [ho] at h; cases h
          | some orig =>
              rw [ho] at h
              cases h
              obtain ⟨w', hw'⟩ := aborted_advance (l := l) (s := s) (t := R.tree orig)
                { w.ongoing with revert := none } (fun b hb => .revert ho hb)
                ⟨.inr rfl, .inr rfl, .inr rfl, .inl rfl⟩ fun hop => by rcases hop with h | h <;> cases h
              exact ⟨w, w', hplace hw, hw'⟩
  | merge =>
      rw [abortCommand, abortMerge] at h
      cases hw : s.worktree? l with
      | none => rw [hw] at h; cases h
      | some w =>
          simp only [hw] at h
          by_cases hm : w.ongoing.merge = true
          · rw [if_pos hm] at h
            cases h
            have hless : Fewer { w.ongoing with merge := false } w.ongoing :=
              ⟨.inr rfl, .inr rfl, .inr rfl, .inr rfl⟩
            exact ⟨w, _, hplace hw, Store.setWorktree_place_self _ _ _, rfl, fun r => .inl rfl,
              fun op' b orig hr => hr.of_fewer hless fun _ h => h, hless,
              fun hop => by rcases hop with h | h <;> cases h⟩
          · rw [if_neg hm] at h
            cases h

end

/-! ## Refs that stay -/

/-- The refs that satisfy `P` are as `β` has them, and so would be left by aborting, at
`l`, any operation in `g`. -/
structure Steady (P : Ref → Prop) (g : Abort → Bool) (l : Path) (β : Ref → Option Commit)
    (s : St) : Prop where
  refs : ∀ r, P r → Dict.get? s.refs r = β r
  settled : ∀ w, Dict.get? s.places l = some (.linked w) → ∀ op b orig, g op = true →
    P (.heads b) → Rewinds w op b orig → β (.heads b) = some orig

section
variable {R : Repository Commit} {P : Ref → Prop} {g : Abort → Bool} {l : Path}
  {β : Ref → Option Commit}

/-- A step that moves no such ref, and starts no operation, keeps them steady. -/
theorem Steady.step {s s' : St} (h : Steady P g l β s)
    (hrefs : ∀ r, P r → Dict.get? s'.refs r = Dict.get? s.refs r)
    (hw : ∀ w', Dict.get? s'.places l = some (.linked w') → ∀ op b orig, Rewinds w' op b orig →
      ∃ w, Dict.get? s.places l = some (.linked w) ∧ Rewinds w op b orig) : Steady P g l β s' where
  refs := fun r hr => (hrefs r hr).trans (h.refs r hr)
  settled := fun w' hw' op b orig hop hb hrew => by
    obtain ⟨w, hplace, hold⟩ := hw w' hw' op b orig hrew
    exact h.settled w hplace op b orig hop hb hold

/-- A step that leaves the place alone and moves no such ref. -/
theorem Steady.of_place {s s' : St} (h : Steady P g l β s)
    (hrefs : ∀ r, P r → Dict.get? s'.refs r = Dict.get? s.refs r)
    (hplace : Dict.get? s'.places l = Dict.get? s.places l) : Steady P g l β s' :=
  h.step hrefs fun w' hw' _ _ _ hrew => ⟨w', hplace.symm.trans hw', hrew⟩

/-- A step that puts another worktree at the place, with fewer operations. -/
theorem Steady.of_worktree {s s' : St} (h : Steady P g l β s)
    (hrefs : ∀ r, P r → Dict.get? s'.refs r = Dict.get? s.refs r) {w w' : Worktree Commit}
    (hw : Dict.get? s.places l = some (.linked w)) (hw' : Dict.get? s'.places l = some (.linked w'))
    (hless : Fewer w'.ongoing w.ongoing)
    (hhead : ∀ b, w'.head = .attached b → w.head = .attached b) : Steady P g l β s' := by
  refine h.step hrefs fun v hv op b orig hrew => ⟨w, hw, ?_⟩
  rw [hw'] at hv
  cases hv
  exact hrew.of_fewer hless hhead

theorem Steady.abort {op : Abort} {s s' : St} (h : Steady P g l β s) (hop : g op = true)
    (hab : abortCommand R op l s = some s') : Steady P g l β s' := by
  obtain ⟨w, w', hw, hstep⟩ := abortCommand_eq_some hab
  refine h.step (fun r hr => ?_) fun v hv op' b orig hrew => ?_
  · rcases hstep.refs r with hsame | ⟨b, orig, hrew, rfl, hput⟩
    · exact hsame
    · rw [hput, h.refs _ hr]
      exact (h.settled w hw op b orig hop hr hrew).symm
  · rw [hstep.place] at hv
    cases hv
    exact ⟨w, hw, hstep.rewinds op' b orig hrew⟩

theorem Steady.removeDirectory {s : St} (h : Steady P g l β s) :
    Steady P g l β (removeDirectory l s) := by
  refine h.step (fun r _ => by rw [removeDirectory_refs]) fun w' hw' => ?_
  exact absurd hw' (removeDirectory_not_linked l s w')

theorem Steady.clean {s : St} (h : Steady P g l β s) (stuck : String → Bool) :
    Steady P g l β (clean R l stuck s) := by
  rw [Git.clean]
  cases hw : s.worktree? l with
  | none => exact h
  | some w =>
      exact h.of_worktree (fun _ _ => rfl) (Store.worktree?_eq_some.mp hw)
        (Store.setWorktree_place_self _ _ _) ⟨.inr rfl, .inr rfl, .inr rfl, .inr rfl⟩ fun _ hb => hb

theorem Steady.checkoutForce {c : Commit} {s s' : St} (h : Steady P g l β s)
    (hco : checkoutForce R l c s = some s') : Steady P g l β s' := by
  obtain ⟨w, hw, rfl⟩ := checkoutForce_eq_some hco
  exact h.of_worktree (fun _ _ => rfl) hw (Store.setWorktree_place_self _ _ _)
    ⟨.inr rfl, .inr rfl, .inl rfl, .inl rfl⟩ fun _ hb => by cases hb

/-- A fresh worktree has no operation in progress. -/
theorem steady_worktreeAdd {force : Bool} {what : Checkout Commit} {s s' : St}
    (hrefs : ∀ r, P r → Dict.get? s.refs r = β r)
    (hadd : worktreeAdd R force l what s = some s') : Steady P g l β s' := by
  obtain ⟨-, head, c, -, rfl, -⟩ := worktreeAdd_eq_some hadd
  refine ⟨hrefs, fun w' hw' op b orig _ _ hrew => ?_⟩
  have hlaid := (Store.setWorktree_place_self s l (freshWorktree R head c)).symm.trans hw'
  cases hlaid
  cases hrew with
  | am ho hb => cases ho
  | rebase ho => cases ho
  | rebaseMerge ho => cases ho
  | cherryPick ho hb => cases ho
  | revert ho hb => cases ho

end

/-! ## Sanitizing -/

section
variable (R : Repository Commit) (env : Env) (again : Bool) (l : Path)

/-- What aborting an operation leaves, where its marker is there. -/
def abortStore (op : Abort) (marked : Ongoing Commit → Bool) (s : St) : St :=
  if ((ongoingAt s l).map marked).getD false then
    (tried env (.abort op again) (abortCommand R op l) s).getD s
  else s

/-- What `_sanitize_worktree` leaves. -/
def sanitizeStore (s : St) : St :=
  match ask env (.gitDir again) (ongoingAt s l) with
  | none => s
  | some o =>
      let first := if markedAm o then abortStore R env again l .am markedAm s
        else abortStore R env again l .rebase markedRebase s
      abortStore R env again l .merge (fun o => o.merge)
        (abortStore R env again l .revert (fun o => o.revert.isSome)
          (abortStore R env again l .cherryPick (fun o => o.cherryPick.isSome) first))

theorem abortIf_bind {α : Type} (op : Abort) (marked : Ongoing Commit → Bool)
    (f : Unit → Exec St α) (s : St) :
    (abortIf R env again l op marked >>= f) s = f () (abortStore R env again l op marked s) := by
  rw [abortIf, Exec.bind_assoc', Exec.look_bind, abortStore]
  cases ((ongoingAt s l).map marked).getD false with
  | false => rfl
  | true =>
      simp only [if_true, Exec.bind_assoc', change_bind]
      rfl

theorem sanitizeWorktree_eval (s : St) :
    sanitizeWorktree R env again l s = (.ok (), sanitizeStore R env again l s) := by
  have hlast : ∀ s, abortIf R env again l .merge (fun o => o.merge) s =
      (.ok (), abortStore R env again l .merge (fun o => o.merge) s) := by
    intro s
    have h := abortIf_bind R env again l .merge (fun o => o.merge) (fun _ => pure ()) s
    rw [Exec.bind_apply] at h
    rcases hrun : abortIf R env again l .merge (fun o => o.merge) s with ⟨e | u, s'⟩
    · rw [hrun] at h
      cases h
    · rw [hrun] at h
      exact h
  rw [sanitizeWorktree, gitdir, query_bind, sanitizeStore]
  cases ask env (.gitDir again) (ongoingAt s l) with
  | none => rfl
  | some o =>
      cases hm : markedAm o with
      | true =>
          simp only [hm, if_true, abortIf_bind]
          exact hlast _
      | false =>
          simp only [hm, Bool.false_eq_true, if_false, abortIf_bind]
          exact hlast _

end

section
variable {R : Repository Commit} {env : Env} {again : Bool} {P : Ref → Prop} {g : Abort → Bool}
  {l : Path} {β : Ref → Option Commit}

theorem Steady.abortStore {op : Abort} {marked : Ongoing Commit → Bool} {s : St}
    (h : Steady P g l β s) (hg : env.grants (.abort op again) = true → g op = true) :
    Steady P g l β (abortStore R env again l op marked s) := by
  rw [Common.abortStore]
  cases ((ongoingAt s l).map marked).getD false with
  | false => exact h
  | true =>
      simp only [if_true]
      cases hab : tried env (.abort op again) (abortCommand R op l) s with
      | none => exact h
      | some s' => exact h.abort (hg (tried_eq_some hab).1) (tried_eq_some hab).2

variable (R again) in
theorem Steady.sanitizeStore {s : St} (h : Steady P g l β s)
    (hg : ∀ op, env.grants (.abort op again) = true → g op = true) :
    Steady P g l β (sanitizeStore R env again l s) := by
  rw [Common.sanitizeStore]
  cases ask env (.gitDir again) (ongoingAt s l) with
  | none => exact h
  | some o =>
      refine Steady.abortStore (Steady.abortStore (Steady.abortStore ?_ (hg _)) (hg _)) (hg _)
      cases markedAm o with
      | true => exact h.abortStore (hg _)
      | false => exact h.abortStore (hg _)

variable (R env again) in
/-- An abort leaves a worktree at the place, and brings no wedge back. -/
theorem abortStore_linked (op : Abort) (marked : Ongoing Commit → Bool) {s : St}
    {w : Worktree Commit} (hw : Dict.get? s.places l = some (.linked w)) :
    ∃ w', Dict.get? (abortStore R env again l op marked s).places l = some (.linked w') ∧
      (abortStore R env again l op marked s).exclude = s.exclude ∧ (Unwedged w → Unwedged w') := by
  rw [abortStore]
  cases ((ongoingAt s l).map marked).getD false with
  | false => exact ⟨w, hw, rfl, id⟩
  | true =>
      simp only [if_true]
      cases hab : tried env (.abort op again) (abortCommand R op l) s with
      | none => exact ⟨w, hw, rfl, id⟩
      | some s' =>
          obtain ⟨v, w', hv, hstep⟩ := abortCommand_eq_some (tried_eq_some hab).2
          rw [hw] at hv
          cases hv
          exact ⟨w', hstep.place, hstep.exclude, fun h => h.of_fewer hstep.fewer⟩

/-- The operation that wedges a worktree. -/
def wedge (w : Worktree Commit) : Abort := if markedAm w.ongoing then .am else .rebase

/-- A `git am` or a rebase in progress, if there is one, is the only one and is aborted. -/
def Freed (env : Env) (again : Bool) (w : Worktree Commit) : Prop :=
  Unwedged w ∨ env.answers (.gitDir again) = true ∧
    env.grants (.abort (wedge w) again) = true ∧
      (w.ongoing.apply = none ∨ w.ongoing.rebaseMerge = none)

/-- Aborting what wedges a worktree frees it. -/
theorem abortStore_clears {op : Abort} {marked : Ongoing Commit → Bool} {s : St}
    {w : Worktree Commit} (hw : Dict.get? s.places l = some (.linked w))
    (hmarked : marked w.ongoing = true) (hgrant : env.grants (.abort op again) = true)
    (hop : op = .am ∨ op = .rebase) (hone : w.ongoing.apply = none ∨ w.ongoing.rebaseMerge = none)
    (hrun : (abortCommand R op l s).isSome = true) :
    ∃ w', Dict.get? (abortStore R env again l op marked s).places l = some (.linked w') ∧
      (abortStore R env again l op marked s).exclude = s.exclude ∧ Unwedged w' := by
  have hon : ((ongoingAt s l).map marked).getD false = true := by
    rw [ongoingAt, hw]
    exact hmarked
  obtain ⟨s', hrun⟩ := Option.isSome_iff_exists.mp hrun
  rw [abortStore, if_pos hon, tried, if_pos hgrant, hrun]
  obtain ⟨v, w', hv, hstep⟩ := abortCommand_eq_some hrun
  rw [hw] at hv
  cases hv
  exact ⟨w', hstep.place, hstep.exclude, hstep.cleared hop hone⟩

variable (R) in
/-- The first abort leaves nothing that wedges the worktree. -/
theorem firstAbort_clears {s : St} {w : Worktree Commit}
    (hw : Dict.get? s.places l = some (.linked w))
    (hgrant : Unwedged w ∨ env.grants (.abort (wedge w) again) = true ∧
      (w.ongoing.apply = none ∨ w.ongoing.rebaseMerge = none)) :
    ∃ w', Dict.get? (if markedAm w.ongoing then abortStore R env again l .am markedAm s
        else abortStore R env again l .rebase markedRebase s).places l = some (.linked w') ∧
      (if markedAm w.ongoing then abortStore R env again l .am markedAm s
        else abortStore R env again l .rebase markedRebase s).exclude = s.exclude ∧ Unwedged w' := by
  have htree : s.worktree? l = some w := Store.worktree?_eq_some.mpr hw
  rcases hgrant with hfree | ⟨hgrant, hone⟩
  · have ham : markedAm w.ongoing = false := by rw [markedAm, hfree.1]
    rw [ham]
    obtain ⟨w', hw', hexcl, hun⟩ :=
      abortStore_linked R env again .rebase markedRebase hw
    exact ⟨w', hw', hexcl, hun hfree⟩
  · rw [wedge] at hgrant
    cases ho : w.ongoing.apply with
    | some a =>
        cases a with
        | am orig =>
            have ham : markedAm w.ongoing = true := by rw [markedAm, ho]
            rw [ham] at hgrant ⊢
            refine abortStore_clears hw ham hgrant (.inl rfl) hone ?_
            simp only [abortCommand, abortAm, htree, ho, Option.isSome_some]
        | rebase home orig =>
            have ham : markedAm w.ongoing = false := by rw [markedAm, ho]
            rw [ham] at hgrant ⊢
            refine abortStore_clears hw (by rw [markedRebase, ho]) hgrant (.inr rfl) hone ?_
            simp only [abortCommand, abortRebase, htree, ho, Option.isSome_some]
    | none =>
        have ham : markedAm w.ongoing = false := by rw [markedAm, ho]
        rw [ham] at hgrant ⊢
        cases hm : w.ongoing.rebaseMerge with
        | none =>
            obtain ⟨w', hw', hexcl, hun⟩ :=
              abortStore_linked R env again .rebase markedRebase hw
            exact ⟨w', hw', hexcl, hun ⟨ho, hm⟩⟩
        | some m =>
            refine abortStore_clears hw (by rw [markedRebase, ho, hm]; rfl) hgrant (.inr rfl) hone ?_
            simp only [abortCommand, abortRebase, htree, ho, hm, Option.isSome_some]

/-- A worktree that is freed is so once it is sanitized. -/
theorem sanitizeStore_linked {s : St} {w : Worktree Commit}
    (hw : Dict.get? s.places l = some (.linked w)) (hfreed : Freed env again w) :
    ∃ w', Dict.get? (sanitizeStore R env again l s).places l = some (.linked w') ∧
      (sanitizeStore R env again l s).exclude = s.exclude ∧ Unwedged w' := by
  have hon : ongoingAt s l = some w.ongoing := by rw [ongoingAt, hw]
  rw [sanitizeStore, hon]
  cases hans : env.answers (.gitDir again) with
  | false =>
      have hfree : Unwedged w := hfreed.resolve_right fun h => by rw [hans] at h; cases h.1
      rw [ask, hans]
      exact ⟨w, hw, rfl, hfree⟩
  | true =>
      rw [ask, hans]
      simp only [if_true]
      obtain ⟨w₁, hw₁, hexcl₁, hun₁⟩ := firstAbort_clears R hw
        (hfreed.imp id fun h => h.2)
      obtain ⟨w₂, hw₂, hexcl₂, hun₂⟩ := abortStore_linked R env again
        .cherryPick (fun o => o.cherryPick.isSome) hw₁
      obtain ⟨w₃, hw₃, hexcl₃, hun₃⟩ := abortStore_linked R env again
        .revert (fun o => o.revert.isSome) hw₂
      obtain ⟨w₄, hw₄, hexcl₄, hun₄⟩ := abortStore_linked R env again
        .merge (fun o => o.merge) hw₃
      exact ⟨w₄, hw₄, hexcl₄.trans (hexcl₃.trans (hexcl₂.trans hexcl₁)), hun₄ (hun₃ (hun₂ hun₁))⟩

end

/-! ## Laying -/

section
variable {R : Repository Commit} {env : Env} {l : Path} {target : Commit} {recreate : Bool}

theorem triple_query {α : Type} {P E : St → Prop} {Q : Option α → St → Prop} {q : Query}
    {read : St → Option α} (h : ∀ s, P s → Q (ask env q (read s)) s) :
    Exec.Triple P (query env q read) Q E := h

theorem triple_mustChange {P E : St → Prop} {Q : Unit → St → Prop} {c : Change} {command : String}
    {f : St → Option St} (hQ : ∀ s s', P s → tried env c f s = some s' → Q () s')
    (hE : ∀ s, P s → E s) : Exec.Triple P (mustChange env c command f) Q E := by
  intro s hs
  rw [mustChange, change_bind]
  cases hf : tried env c f s with
  | none => exact hE s hs
  | some s' => exact hQ s s' hs hf

/-- What laying did where it returned: forced the worktree that was there, or laid one
anew over nothing. -/
inductive LayStep (R : Repository Commit) (env : Env) (l : Path) (target : Commit) (recreate : Bool)
    (s : St) : St → Prop where
  | forced {w : Worktree Commit} {s' : St} (hkeep : recreate = false)
      (hprobe : env.answers .probe = true) (hw : Dict.get? s.places l = some (.linked w))
      (hforce : checkoutForce R l target (clean R l env.stuck
        (sanitizeStore R env false l (prune s))) = some s') :
      LayStep R env l target recreate s s'
  | anew {s₁ s' : St} (hrefs : s₁.refs = s.refs) (hexclude : s₁.exclude = s.exclude)
      (hadd : worktreeAdd R true l (.detach target) s₁ = some s') :
      LayStep R env l target recreate s s'

/-- Where there is no worktree, sanitizing does nothing. -/
theorem sanitizeStore_of_none {again : Bool} {s : St} (h : s.worktree? l = none) :
    sanitizeStore R env again l s = s := by
  have hcommand : ∀ op, abortCommand R op l s = none := by
    intro op
    cases op with
    | am => simp only [abortCommand, abortAm, h]
    | rebase => simp only [abortCommand, abortRebase, h]
    | cherryPick => simp only [abortCommand, abortCherryPick, h]
    | revert => simp only [abortCommand, abortRevert, h]
    | merge => simp only [abortCommand, abortMerge, h]
  have hone : ∀ op marked, abortStore R env again l op marked s = s := by
    intro op marked
    rw [abortStore, tried, hcommand]
    simp
  rw [sanitizeStore]
  cases ask env (.gitDir again) (ongoingAt s l) with
  | none => rfl
  | some o => simp only [hone, ite_self]

/-- A checkout that forced a worktree found one there to begin with. -/
theorem linked_of_forced {s s' : St} (hforce : checkoutForce R l target (clean R l env.stuck
    (sanitizeStore R env false l (prune s))) = some s') :
    ∃ w, Dict.get? s.places l = some (.linked w) := by
  cases hw : s.worktree? l with
  | some w => exact ⟨w, Store.worktree?_eq_some.mp hw⟩
  | none =>
      have hpruned : (prune s).worktree? l = none := hw
      rw [sanitizeStore_of_none hpruned, clean, hpruned] at hforce
      obtain ⟨w, hplace, -⟩ := checkoutForce_eq_some hforce
      exact ⟨w, hplace⟩

theorem removeDirectory_not_repository (s : St) :
    (removeDirectory l s).isRepository l = false := by
  rw [Store.isRepository, removeDirectory]
  cases ho : Dict.get? s.places l with
  | none => simp [Dict.get?_erase_self]
  | some o =>
      cases o with
      | linked v => simp [Dict.get?_erase_self]
      | file => simp [ho]
      | empty => simp [Dict.get?_erase_self]
      | foreign repo => simp [Dict.get?_erase_self]

/-- Laying returns past a step it describes, or raises with the refs steady. -/
theorem layWorktree_triple {P : Ref → Prop} {g : Abort → Bool} {β : Ref → Option Commit}
    (hg : ∀ op, env.grants (.abort op false) = true → g op = true) {s : St}
    (hs : Steady P g l β s) :
    Exec.Triple (fun s₀ => s₀ = s) (layWorktree R env l target recreate)
      (fun _ s' => LayStep R env l target recreate s s') (Steady P g l β) := by
  have hprune : ∀ {s₁}, Steady P g l β s₁ → Steady P g l β (prune s₁) := fun h =>
    h.of_place (fun _ _ => rfl) rfl
  have hpruned : ∀ {again s₁ s₂}, tried env (.prune again) (fun s => some (prune s)) s₁ = some s₂ →
      s₂ = prune s₁ := fun h => (Option.some.inj (tried_eq_some h).2).symm
  -- what the prune, and the removal of a recreate, leave
  let M : St → Prop := fun s₂ => Steady P g l β s₂ ∧ s₂.refs = s.refs ∧ s₂.exclude = s.exclude ∧
    (recreate = false → s₂ = prune s) ∧ (recreate = true → s₂.isRepository l = false)
  have hrecreate : ∀ rest : Exec St Unit, Exec.Triple M rest
        (fun _ s' => LayStep R env l target recreate s s') (Steady P g l β) →
      Exec.Triple (fun s₁ => s₁ = prune s) (if recreate then (do
        Exec.modify (removeDirectory l)
        mustChange env (.prune true) "git worktree prune" fun s => some (prune s)
        rest) else rest) (fun _ s' => LayStep R env l target recreate s s') (Steady P g l β) := by
    intro rest hrest
    refine Exec.triple_ite (fun hrec => ?_) fun hrec => ?_
    · refine Exec.triple_bind (M := fun _ s₁ => s₁ = removeDirectory l (prune s))
        (Exec.triple_modify ?_) fun _ => Exec.triple_bind (M := fun _ => M)
          (triple_mustChange ?_ ?_) fun _ => hrest
      · rintro s₀ rfl
        rfl
      · rintro s₀ s₁ rfl hf
        rw [hpruned hf]
        refine ⟨hprune (hprune hs).removeDirectory, removeDirectory_refs l (prune s),
          removeDirectory_exclude l (prune s), fun h => ?_,
          fun _ => removeDirectory_not_repository (prune s)⟩
        rw [hrec] at h
        cases h
      · rintro s₀ rfl
        exact (hprune hs).removeDirectory
    · refine hrest.weaken ?_ (fun _ _ h => h) fun _ h => h
      rintro s₀ rfl
      exact ⟨hprune hs, rfl, rfl, fun _ => rfl, fun h => absurd h hrec⟩
  refine Exec.triple_bind (M := fun _ s₁ => s₁ = prune s) (triple_mustChange ?_ ?_) fun _ =>
    hrecreate _ (Exec.triple_bind (M := fun probe s₂ => M s₂ ∧ (probe = some () →
      env.answers .probe = true ∧ s₂.isRepository l = true)) (triple_query ?_) ?_)
  · rintro s₀ s₁ rfl hf
    exact hpruned hf
  · rintro s₀ rfl
    exact hs
  · intro s₂ hM
    refine ⟨hM, fun h => ?_⟩
    rw [ask] at h
    cases hans : env.answers .probe with
    | false => rw [hans] at h; cases h
    | true =>
        rw [hans, if_pos rfl] at h
        cases hrep : s₂.isRepository l with
        | false => rw [hrep] at h; cases h
        | true => exact ⟨rfl, rfl⟩
  · intro probe
    cases probe with
    | some u =>
        refine Exec.triple_bind (M := fun _ s₃ => Steady P g l β s₃ ∧ recreate = false ∧
          env.answers .probe = true ∧ s₃ = sanitizeStore R env false l (prune s)) ?_ fun _ =>
          Exec.triple_bind (M := fun _ s₃ => Steady P g l β s₃ ∧ recreate = false ∧
            env.answers .probe = true ∧ s₃ = clean R l env.stuck
              (sanitizeStore R env false l (prune s))) (Exec.triple_modify ?_) fun _ =>
            triple_mustChange ?_ ?_
        · rintro s₂ ⟨⟨hsteady, -, -, hkeep, hgone⟩, hprobe⟩
          rw [sanitizeWorktree_eval]
          obtain ⟨hans, hrep⟩ := hprobe rfl
          cases hrec : recreate with
          | true =>
              rw [hgone hrec] at hrep
              cases hrep
          | false =>
              rw [← hkeep hrec]
              exact ⟨hsteady.sanitizeStore R false hg, rfl, hans, rfl⟩
        · rintro s₃ ⟨hsteady, hrec, hans, rfl⟩
          exact ⟨hsteady.clean env.stuck, hrec, hans, rfl⟩
        · rintro s₃ s₄ ⟨-, hrec, hans, rfl⟩ hf
          obtain ⟨w, hw⟩ := linked_of_forced (tried_eq_some hf).2
          exact .forced hrec hans hw (tried_eq_some hf).2
        · rintro s₃ ⟨hsteady, -⟩
          exact hsteady
    | none =>
        refine Exec.triple_bind (M := fun _ s₃ => Steady P g l β s₃ ∧ s₃.refs = s.refs ∧
          s₃.exclude = s.exclude) (Exec.triple_modify ?_) fun _ => triple_mustChange ?_ ?_
        · rintro s₂ ⟨⟨hsteady, hrefs, hexcl, -, -⟩, -⟩
          exact ⟨hsteady.removeDirectory, (removeDirectory_refs l s₂).trans hrefs,
            (removeDirectory_exclude l s₂).trans hexcl⟩
        · rintro s₃ s₄ ⟨-, hrefs, hexcl⟩ hf
          exact .anew hrefs hexcl (tried_eq_some hf).2
        · rintro s₃ ⟨hsteady, -⟩
          exact hsteady

/-- Past the laying the refs are steady. -/
theorem LayStep.steady {P : Ref → Prop} {g : Abort → Bool} {β : Ref → Option Commit}
    (hg : ∀ op, env.grants (.abort op false) = true → g op = true) {s s' : St}
    (hs : Steady P g l β s) (h : LayStep R env l target recreate s s') : Steady P g l β s' := by
  have hpruned : Steady P g l β (prune s) := hs.of_place (fun _ _ => rfl) rfl
  cases h with
  | forced hkeep hprobe hw hforce =>
      exact ((hpruned.sanitizeStore R false hg).clean env.stuck).checkoutForce hforce
  | anew hrefs hexclude hadd =>
      refine steady_worktreeAdd (fun r hr => ?_) hadd
      rw [hrefs]
      exact hs.refs r hr

/-- Past the laying HEAD is detached at the target. -/
theorem LayStep.detached {s s' : St} (h : LayStep R env l target recreate s s') :
    ∃ w, Dict.get? s'.places l = some (.linked w) ∧ w.head = .detached target := by
  cases h with
  | forced hkeep hprobe hw hforce =>
      obtain ⟨w, -, rfl⟩ := checkoutForce_eq_some hforce
      exact ⟨_, Store.setWorktree_place_self _ _ _, rfl⟩
  | anew hrefs hexclude hadd =>
      obtain ⟨-, head, c, -, rfl, hhead, rfl⟩ := worktreeAdd_eq_some hadd
      exact ⟨_, Store.setWorktree_place_self _ _ _, hhead⟩

end

end KdevopsNg.Common
