/-
# `Common.NoLoss` — developer worktrees lose no work

Over any run of developer syncs, whatever others do between them, each call keeps
(`KeepsWork`)

    branches    every branch at the commit it named
    commits     every commit that a branch, a tag, another ref, or the HEAD of a
                worktree reached
    edits       every edited file of every worktree, and its index entry

A sync keeps all of it, since every command it issues refuses where it would not
(`syncStore_keeps`).  What is left out is what a fetch and a prune are for (a
remote-tracking ref, the HEAD of a worktree that is gone), and what a series does
past the sync: it commits on the branch the worktree is attached to, and moves its
own anchor.
-/
import KdevopsNg.Common.Decline
import KdevopsNg.Git.Keep
import KdevopsNg.Sys.Run

namespace KdevopsNg.Common

open Py Git

/-- Reading HEAD, and the branch it is attached to, gets an answer. -/
structure Reads (env : Env) : Prop where
  head : ∀ site, env.answers (.head site) = true
  attached : env.answers .attached = true

theorem ask_of_answers {env : Env} {α : Type} {q : Query} (h : env.answers q = true)
    (x : Option α) : ask env q x = x := if_pos h

section
variable {R : Repository Commit} {env : Env}

/-! ## The sync -/

section
variable {l : Path} {ref : String} {target : Commit}

theorem addStore_keeps (s : St) : Keeps R l s (addStore R env l ref target s).2 := by
  rw [addStore]
  cases h : tried env .add (worktreeAdd R false l (checkoutOf (attachable env ref target s) target))
      s with
  | none => exact Keeps.refl R l s
  | some s' => exact worktreeAdd_keeps (tried_eq_some h).2

/-- The probe let the removal through, so some ref reaches HEAD. -/
theorem reached_of_probed (hread : env.answers (.head .removal) = true) {s : St}
    (h : probed R env l s = some false) {c : Commit} (hc : s.headAt l = some c) :
    ∃ r d, Dict.get? s.refs r = some d ∧ R.Reaches d c := by
  rw [probed, ask_of_answers hread, hc] at h
  have horphan : orphaned R s c = false := Option.some.inj (ask_eq_some h)
  rw [orphaned, Bool.not_eq_false', List.any_eq_true] at horphan
  obtain ⟨r, -, hr⟩ := horphan
  have hreach := (Bool.and_eq_true_iff.mp hr).2
  cases hd : Dict.get? s.refs r with
  | none =>
      rw [hd] at hreach
      cases hreach
  | some d =>
      rw [hd] at hreach
      exact ⟨r, d, hd, of_decide_eq_true hreach⟩

theorem removeStore_keeps (hR : Reads env) {s s' : St} (h : removeStore R env l s = some s') :
    Keeps R l s s' ∧ ∀ w, Dict.get? s'.places l ≠ some (.linked w) := by
  obtain ⟨hprobed, hremove⟩ := removeStore_eq_some h
  exact worktreeRemove_keeps hremove fun c hc =>
    reached_of_probed (hR.head .removal) hprobed hc

/-- A worktree on no branch is attached to none that is born. -/
theorem unborn_of_branchAt {s : St} (h : s.branchAt l = none) {w : Worktree Commit} {b : String}
    (hw : Dict.get? s.places l = some (.linked w)) (hb : w.head = .attached b) :
    Dict.get? s.refs (.heads b) = none := by
  rw [Store.branchAt, hw] at h
  simp only [hb] at h
  cases hc : Dict.get? s.refs (.heads b) with
  | none => rfl
  | some c =>
      rw [hc] at h
      cases h

theorem presentStore_keeps (hR : Reads env) (s : St) :
    Keeps R l s (presentStore R env l ref target s).2 := by
  rw [presentStore, ask_of_answers hR.attached]
  by_cases hhead : ask env (.head .before) (s.headAt l) = some target
  · rw [if_pos hhead]
    cases hatt : s.branchAt l with
    | some b => exact Keeps.refl R l s
    | none =>
        cases hb : attachable env ref target s with
        | none => exact Keeps.refl R l s
        | some b =>
            simp only
            cases hco : tried env .checkout (checkout R l b) s with
            | none => exact Keeps.refl R l s
            | some s' =>
                refine checkout_keeps (tried_eq_some hco).2 fun w hw => ?_
                have hat : s.headAt l = some target := ask_eq_some hhead
                rw [Store.headAt, hw] at hat
                exact hat.trans (attachable_eq_some hb).symm
  · rw [if_neg hhead]
    cases hatt : s.branchAt l with
    | some b => exact Keeps.refl R l s
    | none =>
        simp only
        cases hff : tried env .merge (ffMerge R l target) s with
        | none => exact Keeps.refl R l s
        | some s' =>
            exact ffMerge_keeps (tried_eq_some hff).2 fun w b hw hb => unborn_of_branchAt hatt hw hb

/-- A sync loses nothing. -/
theorem syncStore_keeps (hR : Reads env) (recreate : Bool) (s : St) :
    Keeps R l s (syncStore R env l ref target recreate s).2 := by
  rw [syncStore]
  cases hocc : s.occupied l with
  | false => exact addStore_keeps s
  | true =>
      simp only [Bool.not_true, Bool.false_eq_true, if_false]
      cases declines env l s with
      | true => exact Keeps.refl R l s
      | false =>
          simp only [Bool.false_eq_true, if_false]
          cases recreate with
          | false => exact presentStore_keeps hR s
          | true =>
              simp only [if_true]
              cases hrem : removeStore R env l s with
              | none => exact Keeps.refl R l s
              | some s' =>
                  obtain ⟨hkeep, hgone⟩ := removeStore_keeps hR hrem
                  exact hkeep.trans (addStore_keeps s') hgone

/-! ## The series -/

variable (R env l) in
theorem applyStore_keeps (s : St) : SeriesKeeps R l s (applyStore R env l s).2 := by
  rw [applyStore]
  cases env.series.downloaded && !env.series.mboxes.isEmpty with
  | false => exact SeriesKeeps.refl R l s
  | true => exact am_keeps R l env.series.am s

end

/-- The ref a series is anchored under. -/
def anchorRef (b4Series : String) : Ref := .other "kdevops" (b4Branch b4Series)

/-- What a publication leaves: the store as it was, a new branch at HEAD, or the
anchor moved there. -/
inductive PublishStep (l : Path) (b4Series : String) (s : St) : St → Prop where
  | same : PublishStep l b4Series s s
  | created {c : Commit} (hc : s.headAt l = some c)
      (hfree : Dict.get? s.refs (.heads (b4Branch b4Series)) = none) :
      PublishStep l b4Series s { s with refs := Dict.set s.refs (.heads (b4Branch b4Series)) c }
  | anchored {c : Commit} (hc : s.headAt l = some c) :
      PublishStep l b4Series s { s with refs := Dict.set s.refs (anchorRef b4Series) c }

theorem publish_step (env : Env) (l : Path) (b4Series : String) (s : St) :
    PublishStep l b4Series s (publishStore env l b4Series s).2 := by
  rw [publishStore]
  cases ask env .existing (Dict.get? s.refs (.heads (b4Branch b4Series))) with
  | some tip =>
      by_cases htip : ask env (.head .published) (s.headAt l) = some tip
      · simp only [htip, if_true]
        exact .same
      · simp only [htip, if_false]
        cases hup : tried env .anchor
            (updateRef false (.other "kdevops" (b4Branch b4Series)) l) s with
        | none => exact .same
        | some s' =>
            obtain ⟨c, hc, rfl, -⟩ := updateRef_eq_some (tried_eq_some hup).2
            exact .anchored hc
  | none =>
      cases hup : tried env .publish (updateRef true (.heads (b4Branch b4Series)) l) s with
      | none => exact .same
      | some s' =>
          obtain ⟨c, hc, rfl, hfree⟩ := updateRef_eq_some (tried_eq_some hup).2
          exact .created hc (hfree rfl)

/-- A publication moves no ref that is there but the anchor. -/
theorem PublishStep.get? {l : Path} {b4Series : String} {s s' : St}
    (h : PublishStep l b4Series s s') {r : Ref} {c : Commit} (hr : Dict.get? s.refs r = some c)
    (hne : r ≠ anchorRef b4Series) : Dict.get? s'.refs r = some c := by
  cases h with
  | same => exact hr
  | created hc hfree =>
      refine (Dict.get?_set_ne _ _ fun h => ?_).trans hr
      rw [h, hfree] at hr
      cases hr
  | anchored hc => exact (Dict.get?_set_ne _ _ hne).trans hr

theorem PublishStep.places {l : Path} {b4Series : String} {s s' : St}
    (h : PublishStep l b4Series s s') : s'.places = s.places := by
  cases h <;> rfl

/-! ## The call -/

/-- A ref that is not a remote-tracking one, or the HEAD of a worktree, reaches the
commit. -/
def Kept (R : Repository Commit) (s : St) (x : Commit) : Prop :=
  (∃ r c, (∀ n, r ≠ .remotes n) ∧ Dict.get? s.refs r = some c ∧ R.Reaches c x) ∨
    ∃ l w c, Dict.get? s.places l = some (.linked w) ∧ headCommit s.refs w.head = some c ∧
      R.Reaches c x

/-- A call at `l`, with this series, keeps work: but for the branch a series was applied
on, and what the anchor of the series reached before it moved. -/
structure KeepsWork (R : Repository Commit) (l : Path) (b4Series : String) (s s' : St) : Prop where
  branches : ∀ b c, Dict.get? s.refs (.heads b) = some c →
    Dict.get? s'.refs (.heads b) = some c ∨
      b4Series ≠ "" ∧ ∃ w, Dict.get? s'.places l = some (.linked w) ∧ w.head = .attached b
  commits : ∀ x, Kept R s x → Rooted R.toHistory s' x ∨
    ∃ d, Dict.get? s.refs (anchorRef b4Series) = some d ∧ R.Reaches d x ∧
      Dict.get? s'.refs (anchorRef b4Series) ≠ some d
  edits : ∀ l' w p, Dict.get? s.places l' = some (.linked w) → Edited R s w p →
    ∃ w', Dict.get? s'.places l' = some (.linked w') ∧ SameAt w w' p

/-- What the refs and the worktrees keep up to the publication of a series. -/
structure Carried (R : Repository Commit) (l : Path) (s s' : St) : Prop where
  branches : ∀ b c, Dict.get? s.refs (.heads b) = some c →
    Dict.get? s'.refs (.heads b) = some c ∨
      ∃ w, Dict.get? s'.places l = some (.linked w) ∧ w.head = .attached b
  others : ∀ space n, Dict.get? s'.refs (.other space n) = Dict.get? s.refs (.other space n)
  commits : ∀ x, Kept R s x → Rooted R.toHistory s' x
  edits : ∀ l' w p, Dict.get? s.places l' = some (.linked w) → Edited R s w p →
    ∃ w', Dict.get? s'.places l' = some (.linked w') ∧ SameAt w w' p

theorem rooted_of_kept {s : St} {x : Commit} (h : Kept R s x) : Rooted R.toHistory s x := by
  rcases h with ⟨r, c, -, hr, hx⟩ | ⟨l, w, c, hw, hc, hx⟩
  · exact ⟨c, .inl ⟨r, hr⟩, hx⟩
  · cases hh : w.head with
    | attached b =>
        rw [hh] at hc
        exact ⟨c, .inl ⟨.heads b, hc⟩, hx⟩
    | detached d =>
        rw [hh] at hc
        cases hc
        exact ⟨c, .inr ⟨l, w, hw, hh⟩, hx⟩
    | unreadable =>
        rw [hh] at hc
        cases hc

/-- Refs that are not remote-tracking, and worktrees, that stay keep what they reach. -/
theorem Kept.of_refs {s s' : St} {x : Commit} (h : Kept R s x) (hplaces : s'.places = s.places)
    (hrefs : ∀ r c, (∀ n, r ≠ .remotes n) → Dict.get? s.refs r = some c →
      Dict.get? s'.refs r = some c) : Kept R s' x := by
  rcases h with ⟨r, c, hr, hc, hx⟩ | ⟨l, w, c, hw, hc, hx⟩
  · exact .inl ⟨r, c, hr, hrefs r c hr hc, hx⟩
  · refine .inr ⟨l, w, c, by rw [hplaces]; exact hw, ?_, hx⟩
    cases hh : w.head with
    | attached b =>
        rw [hh] at hc
        exact hrefs _ c (fun n h => by cases h) hc
    | detached d =>
        rw [hh] at hc
        exact hc
    | unreadable =>
        rw [hh] at hc
        cases hc

theorem kept_fetch (served : Served Commit) {s : St} {x : Commit} (h : Kept R s x) :
    Kept R (fetch false served s) x :=
  h.of_refs rfl fun _ _ hr hc => fetch_get?_of_some served s hr hc

/-- A refresh keeps every ref that is not remote-tracking. -/
theorem kept_refreshed {s : St} {x : Commit} (h : Kept R s x) : Kept R (refreshed env s) x := by
  refine h.of_refs (refreshed_places env s) fun r c hr hc => ?_
  rw [refreshed_refs]
  exact fetch_get?_of_some env.served s hr hc

theorem edited_refreshed {s : St} {w : Worktree Commit} {p : String} (h : Edited R s w p) :
    Edited R (refreshed env s) w p := by
  have hcommit : headCommit (refreshed env s).refs w.head = headCommit s.refs w.head := by
    cases w.head with
    | attached b => exact refreshed_heads env s b
    | detached c => rfl
    | unreadable => rfl
  rw [Edited, Clean, headTree, hcommit, refreshed_exclude]
  exact h

/-- A refresh, then a sync, then a series. -/
theorem carried_of {l : Path} {s s₁ s₂ : St} (hsync : Keeps R l (refreshed env s) s₁)
    (hseries : SeriesKeeps R l s₁ s₂) : Carried R l s s₂ where
  branches := fun b c hb => by
    have hkept := hsync.heads b c ((refreshed_heads env s b).trans hb)
    rcases hseries.own b with hsame | hatt
    · exact .inl (hsame.trans hkept)
    · exact .inr hatt
  others := fun space n => by
    have hfetch := fetch_get? false env.served s (r := .other space n)
      (fun n h => by cases h) (fun n h => by cases h)
    have hsame := hsync.others (.other space n) fun b h => by cases h
    rw [refreshed_refs] at hsame
    exact (hseries.others (.other space n) fun b h => by cases h).trans (hsame.trans hfetch)
  commits := fun x hx =>
    Rooted.mono hseries.roots (Rooted.mono hsync.roots (rooted_of_kept (kept_refreshed hx)))
  edits := fun l' w p hw he => by
    rw [← refreshed_places env s] at hw
    by_cases hl : l' = l
    · subst hl
      -- the sync leaves an edited path dirty, and a series applies to no dirty path
      obtain ⟨w₁, hw₁, hsame₁, hdirty⟩ := hsync.edits w p hw (edited_refreshed he)
      obtain ⟨w₂, hw₂, hsame₂⟩ := hseries.edits w₁ p hw₁ hdirty
      exact ⟨w₂, hw₂, hsame₁.trans hsame₂⟩
    · exact ⟨w, (hseries.places l' hl).trans ((hsync.places l' hl).trans hw), rfl, rfl⟩

/-- A publication takes only what the anchor reached. -/
theorem Carried.publish {l : Path} {b4Series : String} {s s₁ s₂ : St} (h : Carried R l s s₁)
    (hb4 : b4Series ≠ "") (hpub : PublishStep l b4Series s₁ s₂) :
    KeepsWork R l b4Series s s₂ where
  branches := fun b c hb => by
    rcases h.branches b c hb with hsame | ⟨w, hw, hatt⟩
    · exact .inl (hpub.get? hsame fun h => by cases h)
    · exact .inr ⟨hb4, w, by rw [hpub.places]; exact hw, hatt⟩
  commits := fun x hx => by
    obtain ⟨d, hroot, hreach⟩ := h.commits x hx
    rcases hroot with ⟨r, hr⟩ | ⟨l', w, hw, hdet⟩
    · by_cases hanchor : r = anchorRef b4Series
      · subst hanchor
        by_cases hstill : Dict.get? s₂.refs (anchorRef b4Series) = some d
        · exact .inl ⟨d, .inl ⟨_, hstill⟩, hreach⟩
        · exact .inr ⟨d, (h.others _ _).symm.trans hr, hreach, hstill⟩
      · exact .inl ⟨d, .inl ⟨r, hpub.get? hr hanchor⟩, hreach⟩
    · exact .inl ⟨d, .inr ⟨l', w, by rw [hpub.places]; exact hw, hdet⟩, hreach⟩
  edits := fun l' w p hw he => by
    rw [hpub.places]
    exact h.edits l' w p hw he

theorem KeepsWork.refl (R : Repository Commit) (l : Path) (b4Series : String) (s : St) :
    KeepsWork R l b4Series s s :=
  ⟨fun _ _ h => .inl h, fun _ hx => .inl (rooted_of_kept hx), fun _ w _ hw _ => ⟨w, hw, rfl, rfl⟩⟩

/-- Fetching alone keeps work. -/
theorem keepsWork_fetch (served : Served Commit) (l : Path) (b4Series : String) (s : St) :
    KeepsWork R l b4Series s (fetch false served s) where
  branches := fun b c hb => .inl (fetch_get?_of_some served s (fun n h => by cases h) hb)
  commits := fun x hx => .inl (rooted_of_kept (kept_fetch served hx))
  edits := fun _ w _ hw _ => ⟨w, hw, rfl, rfl⟩

/-- A call keeps work, however it ends. -/
theorem prepareDeveloper_keepsWork (hR : Reads env) (u : Unicode) (host : BuildHost)
    (a : DeveloperArgs) (s : St) :
    KeepsWork R (developerPath host a) a.b4Series s (prepareDeveloper R env u host a s).2 := by
  have hsync : ∀ target, Keeps R (developerPath host a) (refreshed env s)
      (callSync R env host a target s).2 := fun target =>
    syncStore_keeps hR a.recreateWorktree (refreshed env s)
  have hends := prepareDeveloper_eval R env host a u s
  generalize prepareDeveloper R env u host a s = out at hends
  cases hends with
  | rejected e h => exact KeepsWork.refl R _ _ s
  | unresolved e h hr => exact keepsWork_fetch env.served _ _ s
  | synced r t h hr hb4 hsynced hbranch =>
      have hcarried := carried_of (hsync t.1) (SeriesKeeps.refl R _ _)
      refine ⟨fun b c hb => .inl ?_, fun x hx => .inl (hcarried.commits x hx), hcarried.edits⟩
      exact (hsync t.1).heads b c ((refreshed_heads env s b).trans hb)
  | @failed e t h hr hb4 s' happly =>
      have hseries := applyStore_keeps R env (developerPath host a)
        (callSync R env host a t.1 s).2
      rw [happly] at hseries
      exact (carried_of (hsync t.1) hseries).publish hb4.1 .same
  | @applied r t h hr hb4 s' happly hsynced hbranch hcommit =>
      have hseries := applyStore_keeps R env (developerPath host a)
        (callSync R env host a t.1 s).2
      rw [happly] at hseries
      exact (carried_of (hsync t.1) hseries).publish hb4.1 (publish_step env _ _ s')

end

/-- The commits the worktrees that are gone were detached at. -/
def goneHeads (s : St) : List Commit :=
  s.missing.filterMap fun e => match e.2.head with
    | .detached c => some c
    | _ => none

/-- Some ref, or the HEAD of a worktree there or gone, reaches the commit. -/
def Reachable (R : Repository Commit) (s : St) (x : Commit) : Prop :=
  Rooted R.toHistory s x ∨ ∃ c ∈ goneHeads s, R.Reaches c x

instance (R : Repository Commit) (s : St) (x : Commit) : Decidable (Reachable R s x) :=
  inferInstanceAs (Decidable (_ ∨ _))

/-- Nothing is lost, remote-tracking refs and registrations included. -/
structure LosesNothing (R : Repository Commit) (s s' : St) : Prop where
  branches : ∀ b c, Dict.get? s.refs (.heads b) = some c → Dict.get? s'.refs (.heads b) = some c
  commits : ∀ x, Reachable R s x → Reachable R s' x
  edits : ∀ l w p, Dict.get? s.places l = some (.linked w) → Edited R s w p →
    ∃ w', Dict.get? s'.places l = some (.linked w') ∧ SameAt w w' p

/-- A world where b4 downloads a patch, and the series ends as given. -/
def withSeries (am : AmAnswer Commit) : Env :=
  { calm with series := ⟨"/tmp/b4", true, ["Subject: [PATCH] fix"], none, am⟩ }

/-- A sync of `wip` with a series. -/
def fixArgs : DeveloperArgs := { wipArgs with b4Series := "20240101-fix@host" }

/-- The store a sync of the sample leaves. -/
def synced (env : Env) (a : DeveloperArgs) (s : St) : St :=
  (prepareDeveloper sample env plainUnicode sampleHost a s).2

end KdevopsNg.Common
