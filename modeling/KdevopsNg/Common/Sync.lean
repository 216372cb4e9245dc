/-
# `Common.Sync` — what a developer sync does to the Bare and its worktrees

`prepare_developer` only queries between its changes, so its effect is a function
of the store: `syncStore` is the whole of `_sync` as whether it reached the
target and the store it left, and `seriesStore` the application of a series.
`sync_eval` and `prepareDeveloper_eval` tie the source's functions to them; the
results about the developer path start from there.

    absent      add a worktree, attached where a branch fits
    declined    nothing issued
    recreated   remove, then add
    settled     at the target: attach a detached one where a branch fits
    forwarded   detached elsewhere: fast-forward, then read HEAD again
-/
import KdevopsNg.Common.Worktree

namespace KdevopsNg.Common

open Py Git

section
variable (R : Repository Commit) (env : Env)

/-- What a query prints. -/
def ask {α : Type} (q : Query) (x : Option α) : Option α := if env.answers q then x else none

/-- A query that printed something read it. -/
theorem ask_eq_some {env : Env} {α : Type} {q : Query} {x : Option α} {a : α}
    (h : ask env q x = some a) : x = some a := by
  rw [ask] at h
  by_cases hq : env.answers q = true
  · rw [if_pos hq] at h
    exact h
  · rw [if_neg hq] at h
    cases h

/-- What a change leaves, none when git refused it. -/
def tried (c : Change) (f : St → Option St) (s : St) : Option St :=
  if env.grants c then f s else none

theorem tried_eq_some {env : Env} {c : Change} {f : St → Option St} {s s' : St}
    (h : tried env c f s = some s') : env.grants c = true ∧ f s = some s' := by
  rw [tried] at h
  by_cases hg : env.grants c = true
  · rw [if_pos hg] at h
    exact ⟨hg, h⟩
  · rw [if_neg hg] at h
    cases h

theorem query_bind {α β : Type} (q : Query) (read : St → Option α) (f : Option α → Exec St β)
    (s : St) : (query env q read >>= f) s = f (ask env q (read s)) s := rfl

theorem change_bind {β : Type} (c : Change) (g : St → Option St) (f : Bool → Exec St β)
    (s : St) : (change env c g >>= f) s =
      f (tried env c g s).isSome ((tried env c g s).getD s) := by
  rw [Exec.bind_apply, change, tried]
  cases (if env.grants c then g s else none : Option St) <;> rfl

/-- The commit and the tag flag a ref resolves to. -/
def resolved (refs : Map Ref Commit) (ref : String) : Option (Commit × Bool) :=
  match ask env .resolveTag (R.revParse refs (commitExpr ("refs/tags/" ++ ref))) with
  | some sha => some (sha, true)
  | none =>
      match ask env .resolveMirror (R.revParse refs (commitExpr ("mirror/" ++ ref))) with
      | some sha => some (sha, false)
      | none =>
          match ask env .resolveLiteral (R.revParse refs (commitExpr ref)) with
          | some sha => some (sha, false)
          | none => none

/-- Resolving a ref changes nothing, and raises only when nothing resolves. -/
theorem resolveRef_eval (bare : Path) (ref : String) (s : St) :
    (∃ t, resolved R env s.refs ref = some t ∧ resolveRef R env bare ref s = (.ok t, s)) ∨
      (resolved R env s.refs ref = none ∧ ∃ e, resolveRef R env bare ref s = (.error e, s)) := by
  rw [resolved, resolveRef, query_bind]
  cases ask env .resolveTag (R.revParse s.refs (commitExpr ("refs/tags/" ++ ref))) with
  | some sha => exact .inl ⟨_, rfl, rfl⟩
  | none =>
      simp only [query_bind]
      cases ask env .resolveMirror (R.revParse s.refs (commitExpr ("mirror/" ++ ref))) with
      | some sha => exact .inl ⟨_, rfl, rfl⟩
      | none =>
          simp only [query_bind]
          cases ask env .resolveLiteral (R.revParse s.refs (commitExpr ref)) with
          | some sha => exact .inl ⟨_, rfl, rfl⟩
          | none => exact .inr ⟨rfl, _, rfl⟩

/-! ## The sync -/

section
variable (l : Path) (ref : String) (target : Commit) (recreate : Bool)

/-- The branch a sync attaches to. -/
def attachable (s : St) : Option String :=
  ask env .branches (if Dict.get? s.refs (.heads ref) = some target ∧ s.held ref = false
    then some ref else none)

/-- Add a worktree. -/
def addStore (s : St) : Bool × St :=
  match tried env .add (worktreeAdd R false l (checkoutOf (attachable env ref target s) target)) s with
  | some s' => (true, s')
  | none => (false, s)

/-- What the probe before a removal says: whether a commit would be orphaned. -/
def probed (s : St) : Option Bool :=
  match ask env (.head .removal) (s.headAt l) with
  | none => some false
  | some c => ask env .orphans (some (orphaned R s c))

/-- Remove a worktree: not one whose HEAD is the last to reach a commit. -/
def removeStore (s : St) : Option St :=
  if probed R env l s = some false then tried env .remove (worktreeRemove R l) s else none

/-- Attach, or fast-forward. -/
def presentStore (s : St) : Bool × St :=
  if ask env (.head .before) (s.headAt l) = some target then
    match ask env .attached (s.branchAt l), attachable env ref target s with
    | none, some b => (true, (tried env .checkout (checkout R l b) s).getD s)
    | _, _ => (true, s)
  else
    match ask env .attached (s.branchAt l) with
    | some _ => (false, s)
    | none =>
        let s' := (tried env .merge (ffMerge R l target) s).getD s
        (decide (ask env (.head .merged) (s'.headAt l) = some target), s')

/-- The sync declines before it issues anything. -/
def declines (s : St) : Bool :=
  (ask env .commonDir (s.worktree? l)).isNone ||
    (inProgress (ask env (.gitDir false) (ongoingAt s l))).isSome

/-- Whether `_sync` reached the target, and the store it left. -/
def syncStore (s : St) : Bool × St :=
  if !s.occupied l then addStore R env l ref target s
  else if declines env l s then (false, s)
  else if recreate then
    match removeStore R env l s with
    | none => (false, s)
    | some s' => addStore R env l ref target s'
  else presentStore R env l ref target s

/-- A computation returned, with this verdict and store. -/
def Ends (r : Except PyError Synced × St) (out : Bool × St) : Prop :=
  ∃ reason commit, r = (.ok (reason, commit), out.2) ∧ reason.isNone = out.1

/-- A commit read off the tree at a place: its HEAD, or nothing where a query for it
failed. -/
def Reported (s : St) (commit : Option Commit) : Prop :=
  commit = s.headAt l ∨ commit = none ∧ ∃ site, env.answers (.head site) = false

/-- A computation returned, with this verdict and store and the commit of the tree. -/
def Reports (r : Except PyError Synced × St) (out : Bool × St) : Prop :=
  ∃ reason commit, r = (.ok (reason, commit), out.2) ∧ reason.isNone = out.1 ∧
    Reported env l out.2 commit

theorem reported_ask (site : HeadSite) (s : St) :
    Reported env l s (ask env (.head site) (s.headAt l)) := by
  rw [ask]
  cases hsite : env.answers (.head site) with
  | true => exact .inl rfl
  | false => exact .inr ⟨rfl, site, hsite⟩

/-- The branch a sync attaches to is the ref's, at the target, and no worktree holds
it. -/
theorem attachable_spec {env : Env} {ref : String} {target : Commit} {s : St} {b : String}
    (h : attachable env ref target s = some b) :
    b = ref ∧ Dict.get? s.refs (.heads ref) = some target ∧ s.held ref = false := by
  have hq := ask_eq_some h
  by_cases hc : Dict.get? s.refs (.heads ref) = some target ∧ s.held ref = false
  · rw [if_pos hc] at hq
    cases hq
    exact ⟨rfl, hc⟩
  · rw [if_neg hc] at hq
    cases hq

theorem attachable_eq_some {env : Env} {ref : String} {target : Commit} {s : St} {b : String}
    (h : attachable env ref target s = some b) : Dict.get? s.refs (.heads b) = some target := by
  obtain ⟨rfl, htip, -⟩ := attachable_spec h
  exact htip

/-- A branch checked out is where HEAD is. -/
theorem checkout_headAt {R : Repository Commit} {l : Path} {b : String} {s s' : St}
    (h : checkout R l b s = some s') : s'.headAt l = Dict.get? s.refs (.heads b) := by
  obtain ⟨w, c, -, -, -, rfl⟩ := checkout_eq_some h
  rw [Store.headAt, Store.setWorktree_place_self]
  rfl

/-- Attaching a tree at the target leaves it there. -/
theorem attach_headAt {s : St} {b : String} (hat : s.headAt l = some target)
    (hb : attachable env ref target s = some b) :
    ((tried env .checkout (checkout R l b) s).getD s).headAt l = some target := by
  cases hco : tried env .checkout (checkout R l b) s with
  | none => exact hat
  | some s' => exact (checkout_headAt (tried_eq_some hco).2).trans (attachable_eq_some hb)

theorem syncAbsent_reports {s : St} (hfree : s.occupied l = false) :
    Reports env l (syncAbsent R env l ref target s) (addStore R env l ref target s) := by
  rw [syncAbsent, attachableBranch, query_bind, addStore, change_bind]
  cases htried : tried env .add
      (worktreeAdd R false l (checkoutOf (attachable env ref target s) target)) s with
  | some s' =>
      rw [attachable] at htried
      rw [htried]
      exact ⟨none, _, rfl, rfl, reported_ask env l .added s'⟩
  | none =>
      rw [attachable] at htried
      rw [htried]
      exact ⟨some _, none, rfl, rfl, .inl (Store.headAt_of_not_occupied hfree).symm⟩

theorem syncPresent_reports (s : St) :
    Reports env l (syncPresent R env l ref target s) (presentStore R env l ref target s) := by
  rw [syncPresent, headOf, query_bind, presentStore]
  rw [attachedBranch, query_bind]
  by_cases hhead : ask env (.head .before) (s.headAt l) = some target
  · have hat : Reported env l s (ask env (.head .before) (s.headAt l)) := reported_ask env l .before s
    rw [if_pos hhead, if_neg (not_not.mpr hhead)]
    cases ask env .attached (s.branchAt l) with
    | some b => exact ⟨none, _, rfl, rfl, hat⟩
    | none =>
        simp only [attachableBranch, query_bind]
        cases hb : attachable env ref target s with
        | none =>
            rw [attachable] at hb
            rw [hb]
            exact ⟨none, _, rfl, rfl, hat⟩
        | some b =>
            have hkept := attach_headAt R env l ref target (ask_eq_some hhead) hb
            rw [attachable] at hb
            rw [hb]
            simp only [change_bind]
            exact ⟨none, _, rfl, rfl, .inl (hhead.trans hkept.symm)⟩
  · rw [if_neg hhead, if_pos hhead]
    cases ask env .attached (s.branchAt l) with
    | some b => exact ⟨some _, _, rfl, rfl, reported_ask env l .before s⟩
    | none =>
        simp only [change_bind, headOf, query_bind]
        have hread := reported_ask env l .merged ((tried env .merge (ffMerge R l target) s).getD s)
        by_cases hmoved : ask env (.head .merged)
            (((tried env .merge (ffMerge R l target) s).getD s).headAt l) = some target
        · rw [if_neg (not_not.mpr hmoved), decide_eq_true hmoved]
          exact ⟨none, _, rfl, rfl, hread⟩
        · rw [if_pos hmoved, decide_eq_false hmoved]
          exact ⟨some _, _, rfl, rfl, hread⟩

/-- A removal returned: with no reason and the store it left, or with one and the
store as it was. -/
def RemovalEnds (s : St) (r : Except PyError (Option String) × St) : Option St → Prop
  | some s' => r = (.ok none, s')
  | none => ∃ reason, r = (.ok (some reason), s)

theorem removeWorktree_eval (s : St) :
    RemovalEnds s (removeWorktree R env l s) (removeStore R env l s) := by
  have hprobed : removeWorktree R env l s = removeProbed R env l (probed R env l s) s := by
    rw [removeWorktree, headOf, query_bind, probed]
    cases ask env (.head .removal) (s.headAt l) <;> rfl
  rw [hprobed, removeStore]
  cases probed R env l s with
  | none => exact ⟨_, rfl⟩
  | some o =>
      cases o with
      | true => exact ⟨_, rfl⟩
      | false =>
          rw [if_pos rfl, removeProbed, change_bind]
          cases tried env .remove (worktreeRemove R l) s with
          | some s' => exact rfl
          | none => exact ⟨_, rfl⟩

/-- A removal that went through passed the probe. -/
theorem removeStore_eq_some {R : Repository Commit} {env : Env} {l : Path} {s s' : St}
    (h : removeStore R env l s = some s') :
    probed R env l s = some false ∧ worktreeRemove R l s = some s' := by
  rw [removeStore] at h
  by_cases hs : probed R env l s = some false
  · rw [if_pos hs] at h
    exact ⟨hs, (tried_eq_some h).2⟩
  · rw [if_neg hs] at h
    cases h

theorem occupied_of_worktreeRemove {s s' : St} (h : worktreeRemove R l s = some s') :
    s'.occupied l = false := by
  obtain ⟨w, -, -, rfl⟩ := worktreeRemove_eq_some h
  rw [Store.occupied, Dict.get?_erase_self]

theorem syncRest_reports (s : St) :
    Reports env l (syncRest R env l ref target s) (if s.occupied l then
      presentStore R env l ref target s else addStore R env l ref target s) := by
  rw [syncRest, Exec.look_bind]
  cases hocc : s.occupied l with
  | true => exact syncPresent_reports R env l ref target s
  | false => exact syncAbsent_reports R env l ref target hocc

/-- `_sync` returns, with the verdict and the store of `syncStore` and the commit of
the tree it left. -/
theorem sync_reports (bare : Path) (s : St) :
    Reports env l (sync R env bare l ref target recreate s)
      (syncStore R env l ref target recreate s) := by
  have hrest := syncRest_reports R env l ref target s
  rw [sync, Exec.look_bind, syncStore]
  cases hocc : s.occupied l with
  | false =>
      rw [hocc] at hrest
      exact hrest
  | true =>
      rw [hocc, if_pos rfl] at hrest
      simp only [Bool.not_true, Bool.false_eq_true, if_false]
      rw [isWorktreeOf, query_bind]
      have hmine : (ask env .commonDir ((s.worktree? l).map fun _ => ())).isNone =
          (ask env .commonDir (s.worktree? l)).isNone := by
        rw [ask, ask]
        cases env.answers .commonDir <;> cases s.worktree? l <;> rfl
      cases hcommon : ask env .commonDir ((s.worktree? l).map fun _ => ()) with
      | none =>
          rw [hcommon] at hmine
          have hdecl : declines env l s = true := by rw [declines, ← hmine]; rfl
          rw [hdecl, if_pos rfl]
          exact ⟨some _, _, rfl, rfl, reported_ask env l .foreign s⟩
      | some u =>
          rw [hcommon] at hmine
          rw [gitdir]
          simp only [query_bind]
          cases hop : inProgress (ask env (.gitDir false) (ongoingAt s l)) with
          | some operation =>
              have hdecl : declines env l s = true := by rw [declines, hop]; simp
              rw [hdecl, if_pos rfl]
              exact ⟨some _, _, rfl, rfl, reported_ask env l .ongoing s⟩
          | none =>
              have hdecl : declines env l s = false := by
                rw [declines, hop, ← hmine]
                rfl
              rw [hdecl, if_neg Bool.false_ne_true]
              cases recreate with
              | false => exact hrest
              | true =>
                  simp only [if_true]
                  have hrun := removeWorktree_eval R env l s
                  cases hs' : removeStore R env l s with
                  | some s' =>
                    rw [hs'] at hrun
                    rw [Exec.bind_ok _ hrun]
                    have hfree := occupied_of_worktreeRemove R l (removeStore_eq_some hs').2
                    have hadd := syncRest_reports R env l ref target s'
                    rw [hfree, if_neg Bool.false_ne_true] at hadd
                    exact hadd
                  | none =>
                    rw [hs'] at hrun
                    obtain ⟨reason, hrun⟩ := hrun
                    rw [Exec.bind_ok _ hrun]
                    exact ⟨some _, _, rfl, rfl, reported_ask env l .refused s⟩

/-- `_sync` returns, with the verdict and the store of `syncStore`. -/
theorem sync_eval (bare : Path) (s : St) :
    Ends (sync R env bare l ref target recreate s) (syncStore R env l ref target recreate s) := by
  obtain ⟨reason, commit, hrun, hreason, -⟩ := sync_reports R env l ref target recreate bare s
  exact ⟨reason, commit, hrun, hreason⟩

end

/-! ## The series -/

section
variable (l : Path) (b4Series : String)

/-- Whether `_apply_b4_series` applied the series, and the store it left. -/
def applyStore (s : St) : Bool × St :=
  if env.series.downloaded && !env.series.mboxes.isEmpty then am R l env.series.am s else (false, s)

/-- The branch `_publish_b4_branch` names, and the store it left. -/
def publishStore (s : St) : Option String × St :=
  match ask env .existing (Dict.get? s.refs (.heads (b4Branch b4Series))) with
  | some tip =>
      if ask env (.head .published) (s.headAt l) = some tip then (some (b4Branch b4Series), s)
      else (none, (tried env .anchor (updateRef false (.other "kdevops" (b4Branch b4Series)) l)
        s).getD s)
  | none =>
      match tried env .publish (updateRef true (.heads (b4Branch b4Series)) l) s with
      | some s' => (some (b4Branch b4Series), s')
      | none => (none, s)

/-- A body returned and left the store, or raised and left it. -/
def Leaves {α : Type} (r : Except PyError α × St) : Bool × St → Prop
  | (true, s') => ∃ a, r = (.ok a, s')
  | (false, s') => ∃ e, r = (.error e, s')

theorem gitAm_bind {β : Type} (f : Bool → Exec St β) (s : St) :
    (gitAm R env l >>= f) s = f (am R l env.series.am s).1 (am R l env.series.am s).2 := rfl

theorem applyB4Series_eval (u : Unicode) (s : St) :
    Leaves (applyB4Series R env u l s) (applyStore R env l s) := by
  rw [applyB4Series, applyStore]
  cases env.series.downloaded with
  | false => exact ⟨_, rfl⟩
  | true =>
      cases env.series.mboxes with
      | nil => exact ⟨_, rfl⟩
      | cons mbox rest =>
          simp only [Bool.not_true, Bool.false_eq_true, if_false, List.isEmpty_cons, Bool.not_false,
            Bool.and_self, if_true, gitAm_bind]
          cases am R l env.series.am s with
          | mk ok s' =>
              cases ok with
              | true => exact ⟨_, rfl⟩
              | false => exact ⟨_, rfl⟩

theorem publishB4Branch_eval (s : St) :
    publishB4Branch env l b4Series s =
      (.ok (publishStore env l b4Series s).1, (publishStore env l b4Series s).2) := by
  rw [publishB4Branch, headOf, query_bind, query_bind, publishStore]
  cases ask env .existing (Dict.get? s.refs (.heads (b4Branch b4Series))) with
  | some tip =>
      by_cases h : ask env (.head .published) (s.headAt l) = some tip
      · simp only [h, if_true]
        rfl
      · simp only [h, if_false, change_bind]
        rfl
  | none =>
      simp only [change_bind]
      cases tried env .publish (updateRef true (.heads (b4Branch b4Series)) l) s <;> rfl

end

/-! ## The whole call -/

section
variable (host : BuildHost) (a : DeveloperArgs)

/-- The arguments pass their checks, and the Bare and the flake are there. -/
def Accepted : Prop :=
  validateRef a.ref = .ok () ∧ validateGroup a.worktreeGroup = .ok () ∧
    requireBuildArea host (bareOf host a.project) = .ok ()

/-- The store a sync starts from: fetched, and its registrations pruned. -/
def refreshed (s : St) : St :=
  (tried env (.prune false) (fun s => some (prune s)) (fetch false env.served s)).getD
    (fetch false env.served s)

/-- The sync of a call whose ref resolved to `target`. -/
def callSync (target : Commit) (s : St) : Bool × St :=
  syncStore R env (developerPath host a) a.ref target a.recreateWorktree (refreshed env s)

/-- What a call does: raise before it changed anything but what it fetched, return
what the sync left, raise in the series, or return past it. -/
inductive CallEnds (s : St) : Except PyError DeveloperResult × St → Prop where
  | rejected (e : PyError) (h : ¬ Accepted host a) : CallEnds s (.error e, s)
  | unresolved (e : PyError) (h : Accepted host a)
      (hr : resolved R env (fetch false env.served s).refs a.ref = none) :
      CallEnds s (.error e, fetch false env.served s)
  | synced (r : DeveloperResult) (t : Commit × Bool) (h : Accepted host a)
      (hr : resolved R env (fetch false env.served s).refs a.ref = some t)
      (hb4 : a.b4Series = "" ∨ (callSync R env host a t.1 s).1 = false)
      (hsynced : r.synced = (callSync R env host a t.1 s).1) (hbranch : r.b4Branch = none) :
      CallEnds s (.ok r, (callSync R env host a t.1 s).2)
  | failed (e : PyError) (t : Commit × Bool) (h : Accepted host a)
      (hr : resolved R env (fetch false env.served s).refs a.ref = some t)
      (hb4 : a.b4Series ≠ "" ∧ (callSync R env host a t.1 s).1 = true) {s' : St}
      (happly : applyStore R env (developerPath host a) (callSync R env host a t.1 s).2 =
        (false, s')) :
      CallEnds s (.error e, s')
  | applied (r : DeveloperResult) (t : Commit × Bool) (h : Accepted host a)
      (hr : resolved R env (fetch false env.served s).refs a.ref = some t)
      (hb4 : a.b4Series ≠ "" ∧ (callSync R env host a t.1 s).1 = true) {s' : St}
      (happly : applyStore R env (developerPath host a) (callSync R env host a t.1 s).2 =
        (true, s'))
      (hsynced : r.synced = true)
      (hbranch : r.b4Branch = (publishStore env (developerPath host a) a.b4Series s').1)
      (hcommit : r.commit = ask env (.head .final)
        ((publishStore env (developerPath host a) a.b4Series s').2.headAt (developerPath host a))) :
      CallEnds s (.ok r, (publishStore env (developerPath host a) a.b4Series s').2)

theorem prepareDeveloper_eval (u : Unicode) (s : St) :
    CallEnds R env host a s (prepareDeveloper R env u host a s) := by
  rw [prepareDeveloper]
  cases href : validateRef a.ref with
  | error e => exact .rejected e fun h => by cases href.symm.trans h.1
  | ok _ =>
    cases hgroup : validateGroup a.worktreeGroup with
    | error e => exact .rejected e fun h => by cases hgroup.symm.trans h.2.1
    | ok _ =>
      cases harea : requireBuildArea host (bareOf host a.project) with
      | error e =>
          simp only [Exec.lift_ok_bind, harea]
          exact .rejected e fun h => by cases harea.symm.trans h.2.2
      | ok _ =>
        have hacc : Accepted host a := ⟨href, hgroup, harea⟩
        simp only [Exec.lift_ok_bind, harea, Exec.modify_bind]
        rcases resolveRef_eval R env (bareOf host a.project) a.ref (fetch false env.served s) with
          ⟨t, ht, hrun⟩ | ⟨ht, e, hrun⟩
        · rw [Exec.bind_ok _ hrun, change_bind]
          obtain ⟨reason, commit, hsync, hreason⟩ := sync_eval R env (developerPath host a) a.ref
            t.1 a.recreateWorktree (bareOf host a.project) (refreshed env s)
          rw [refreshed] at hsync
          rw [Exec.bind_ok _ hsync]
          by_cases hskip : a.b4Series = "" ∨ reason.isSome = true
          · have hseries : developerSeries R env u (developerPath host a) a.b4Series
                (reason, commit) = pure (none, "", commit) := if_pos hskip
            rw [hseries]
            refine .synced _ t hacc ht (hskip.imp id fun h => ?_) hreason rfl
            exact hreason.symm.trans (by cases reason <;> simp_all)
          · have hseries : developerSeries R env u (developerPath host a) a.b4Series
                (reason, commit) = (do
                  let label ← applyB4Series R env u (developerPath host a)
                  let branch ← publishB4Branch env (developerPath host a) a.b4Series
                  let commit ← headOf env .final (developerPath host a)
                  return (branch, label, commit)) := if_neg hskip
            have hb4 : a.b4Series ≠ "" ∧ (callSync R env host a t.1 s).1 = true := by
              refine ⟨fun h => hskip (.inl h), hreason.symm.trans ?_⟩
              cases reason with
              | none => rfl
              | some reason => exact absurd (.inr rfl) hskip
            rw [hseries]
            have happly := applyB4Series_eval R env (developerPath host a) u
              (callSync R env host a t.1 s).2
            cases hstore : applyStore R env (developerPath host a)
                (callSync R env host a t.1 s).2 with
            | mk ok s' =>
                rw [hstore] at happly
                rw [Exec.bind_assoc']
                cases ok with
                | true =>
                    obtain ⟨label, hlabel⟩ := happly
                    rw [callSync, refreshed] at hlabel
                    rw [Exec.bind_ok _ hlabel, Exec.bind_assoc',
                      Exec.bind_ok _ (publishB4Branch_eval env (developerPath host a) a.b4Series s')]
                    exact .applied _ t hacc ht hb4 hstore (by
                      cases reason with
                      | none => rfl
                      | some reason => exact absurd (.inr rfl) hskip) rfl rfl
                | false =>
                    obtain ⟨e, he⟩ := happly
                    rw [callSync, refreshed] at he
                    rw [Exec.bind_error _ he]
                    exact .failed e t hacc ht hb4 hstore
        · rw [Exec.bind_error _ hrun]
          exact .unresolved e hacc ht

end

end

end KdevopsNg.Common
