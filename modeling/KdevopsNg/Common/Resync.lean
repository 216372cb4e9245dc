/-
# `Common.Resync` — syncing a developer worktree twice

A second call with the same arguments, nothing having changed in between, should say
that it synced with the same commit, and leave everything where it is, however the
patches of a series end (`Resyncs`).  `resync_iff` says when it does: without a
series, and unless the first call fast-forwarded the tree and the second then

    attaches it      the tree was detached, and the ref's branch is free
    looks elsewhere  the tree was on a branch not born yet, and the ref names
                     another commit now that it is

Otherwise a first call leaves a fixed point (`Landing`): the tree as it was, or on
the ref's branch at the target, or detached there where no branch fits.
-/
import KdevopsNg.Common.SyncVerdict

namespace KdevopsNg.Common

open Py Git

/-- Git answers what it is asked, and the mirror serves each ref once. -/
structure Answering (env : Env) : Prop where
  queries : ∀ q, env.answers q = true
  served : (Dict.keys env.served.remotes).Nodup

/-! ## A worktree that stays -/

section
variable {R : Repository Commit} {env : Env} {l : Path} {ref : String} {target : Commit}

theorem isOn_iff {h : Head Commit} {b : String} : h.isOn b = true ↔ h = .attached b := by
  cases h with
  | attached b' => simp [Head.isOn]
  | detached c => simp [Head.isOn]
  | unreadable => simp [Head.isOn]

/-- An idle operation stays idle past a switch of commits. -/
theorem inProgress_switched {o : Ongoing Commit} (h : inProgress (some o) = none) :
    inProgress (some o.switched) = none := by
  obtain ⟨apply, rebaseMerge, cherryPick, revert, merge, bisect⟩ := o
  simp only [inProgress] at h
  simp only [inProgress, Ongoing.switched]
  cases apply with
  | some a => cases a <;> cases h
  | none =>
      cases rebaseMerge with
      | some m => simp at h
      | none =>
          cases bisect with
          | false => rfl
          | true => cases cherryPick <;> cases revert <;> cases merge <;> simp at h

/-- A sync goes on at an idle worktree. -/
theorem syncStore_linked (ha : Answering env) {s : St} {w : Worktree Commit}
    (hw : Dict.get? s.places l = some (.linked w)) (hidle : inProgress (some w.ongoing) = none) :
    syncStore R env l ref target false s = presentStore R env l ref target s := by
  have hocc : s.occupied l = true := by
    rw [Store.occupied, hw]
  have hgo : declines env l s = false := by
    rw [declines, ask_of_answers (ha.queries _), ask_of_answers (ha.queries _),
      Store.worktree?_eq_some.mpr hw, ongoingAt, hw]
    simp only [hidle]
    rfl
  rw [syncStore, hocc, hgo]
  rfl

/-- A sync that goes on does so at an idle worktree. -/
theorem linked_of_goes (ha : Answering env) {s : St} (hgo : declines env l s = false) :
    ∃ w, Dict.get? s.places l = some (.linked w) ∧ inProgress (some w.ongoing) = none := by
  rw [declines, Bool.or_eq_false_iff, ask_of_answers (ha.queries _),
    ask_of_answers (ha.queries _)] at hgo
  obtain ⟨hmine, hidle⟩ := hgo
  cases hw : s.worktree? l with
  | none =>
      rw [hw] at hmine
      cases hmine
  | some w =>
      have hplace := Store.worktree?_eq_some.mp hw
      refine ⟨w, hplace, ?_⟩
      rw [ongoingAt, hplace] at hidle
      exact Option.isNone_iff_eq_none.mp (by rw [← Option.not_isSome, hidle]; rfl)

/-- A tree on a branch at the target stays. -/
theorem presentStore_branch (ha : Answering env) {s : St} {w : Worktree Commit} {b : String}
    (hw : Dict.get? s.places l = some (.linked w)) (hon : w.head = .attached b)
    (htip : Dict.get? s.refs (.heads b) = some target) :
    presentStore R env l ref target s = (true, s) := by
  have hat : s.headAt l = some target := by
    rw [Store.headAt, hw]
    simp only [hon]
    exact htip
  have hbranch : s.branchAt l = some b := by
    rw [Store.branchAt, hw]
    simp only [hon, htip]
    rfl
  rw [presentStore, ask_of_answers (ha.queries _), ask_of_answers (ha.queries _), hat, hbranch,
    if_pos rfl]

/-- A tree detached at the target is attached to the branch that fits. -/
theorem presentStore_detached (ha : Answering env) {s : St} {w : Worktree Commit}
    (hw : Dict.get? s.places l = some (.linked w)) (hdet : w.head = .detached target) :
    presentStore R env l ref target s = (true, ((attachable env ref target s).bind fun b =>
      tried env .checkout (checkout R l b) s).getD s) := by
  have hat : s.headAt l = some target := by
    rw [Store.headAt, hw]
    simp only [hdet]
    rfl
  have hbranch : s.branchAt l = none := by
    rw [Store.branchAt, hw]
    simp only [hdet]
  rw [presentStore, ask_of_answers (ha.queries _), ask_of_answers (ha.queries _), hat, hbranch,
    if_pos rfl]
  cases attachable env ref target s <;> rfl

/-- A checkout puts the worktree on the branch, with no more in progress. -/
theorem checkout_place {s s' : St} {b : String} (h : checkout R l b s = some s') :
    ∃ v w, Dict.get? s.places l = some (.linked v) ∧ Dict.get? s'.places l = some (.linked w) ∧
      w.head = .attached b ∧ w.ongoing = v.ongoing.switched := by
  obtain ⟨v, c, hv, -, -, rfl⟩ := checkout_eq_some h
  exact ⟨v, _, hv, Store.setWorktree_place_self _ _ _, rfl, rfl⟩

/-- The branch that fits is there to be checked out. -/
theorem checkout_attachable {s : St} {w : Worktree Commit} {b : String}
    (hw : Dict.get? s.places l = some (.linked w)) (hdet : w.head = .detached target)
    (hb : attachable env ref target s = some b) : ∃ s', checkout R l b s = some s' ∧ s' ≠ s := by
  obtain ⟨rfl, htip, hfree⟩ := attachable_spec hb
  have helse : s.heldElsewhere l b = false :=
    not_heldElsewhere hfree (fun _ _ => rfl) fun _ _ => rfl
  have htree : headTree R s.refs w.head = R.tree target := by
    rw [hdet]
    rfl
  have hsafe : Git.Safe R s w (R.tree target) (R.tree target) := fun p hp =>
    absurd rfl (Tree.mem_differ.mp hp)
  have hsome : (checkout R l b s).isSome = true := by
    rw [checkout, Store.worktree?_eq_some.mpr hw, htip]
    simp only [htree, helse, decide_eq_true hsafe, Bool.not_false, Bool.and_self, if_true]
    rfl
  obtain ⟨s', hco⟩ := Option.isSome_iff_exists.mp hsome
  refine ⟨s', hco, fun hsame => ?_⟩
  obtain ⟨-, w', -, hw', hon, -⟩ := checkout_place hco
  rw [hsame, hw] at hw'
  cases hw'
  cases hdet.symm.trans hon

/-- Whether a branch fits depends on the refs and on who holds the ref's. -/
theorem attachable_congr {s s₁ : St} (hrefs : s₁.refs = s.refs)
    (hmissing : s₁.missing = s.missing)
    (hplaces : ∀ l', l' ≠ l → Dict.get? s₁.places l' = Dict.get? s.places l')
    (hoff : ¬ OnBranch s l ref) (hoff₁ : ¬ OnBranch s₁ l ref) :
    attachable env ref target s₁ = attachable env ref target s := by
  have hheld : s₁.held ref = s.held ref := by
    rw [Bool.eq_iff_iff, Store.held, Store.held, Store.heldAt_iff, Store.heldAt_iff]
    refine exists_congr fun l' => and_congr_right fun _ => ?_
    rw [hmissing]
    refine or_congr_left ?_
    by_cases hl : l' = l
    · subst hl
      refine iff_of_false ?_ ?_
      · rintro ⟨w, hw, hon⟩
        exact hoff₁ ⟨w, hw, isOn_iff.mp hon⟩
      · rintro ⟨w, hw, hon⟩
        exact hoff ⟨w, hw, isOn_iff.mp hon⟩
    · rw [hplaces l' hl]
  rw [attachable, attachable, hrefs, hheld]

/-! ## Where a first sync lands -/

variable (R env l ref target) in
/-- Where a sync that reached the target left things: the store as it was, the tree on
the ref's branch, the tree detached where no branch fits, or the tree
fast-forwarded. -/
inductive Landing (s : St) : St → Prop where
  | settled (h : syncStore R env l ref target false s = (true, s)) : Landing s s
  | branch {s₁ : St} {w : Worktree Commit}
      (hfrom : ∀ v, Dict.get? s.places l = some (.linked v) → s.headAt l = some target)
      (hrefs : s₁.refs = s.refs) (hmissing : s₁.missing = s.missing) (hw : Dict.get? s₁.places l = some (.linked w))
      (hidle : inProgress (some w.ongoing) = none) (hon : w.head = .attached ref)
      (htip : Dict.get? s₁.refs (.heads ref) = some target) : Landing s s₁
  | detached {s₁ : St} {w : Worktree Commit}
      (hfrom : ∀ v, Dict.get? s.places l = some (.linked v) → s.headAt l = some target)
      (hrefs : s₁.refs = s.refs) (hmissing : s₁.missing = s.missing) (hw : Dict.get? s₁.places l = some (.linked w))
      (hidle : inProgress (some w.ongoing) = none) (hdet : w.head = .detached target)
      (hno : attachable env ref target s₁ = none) : Landing s s₁
  | forwarded {w : Worktree Commit} (hw : Dict.get? s.places l = some (.linked w))
      (hidle : inProgress (some w.ongoing) = none) (hread : w.head ≠ .unreadable)
      (hne : s.headAt l ≠ some target) :
      Landing s (s.advance l (rewrite (headTree R s.refs w.head) (R.tree target) w) target)

theorem idle_fresh (R : Repository Commit) (head : Head Commit) (c : Commit) :
    inProgress (some (freshWorktree R head c).ongoing) = none := rfl

theorem landing_laid {s s₁ : St} (hfree : s.occupied l = false)
    (h : addStore R env l ref target s = (true, s₁)) : Landing R env l ref target s s₁ := by
  rw [addStore] at h
  cases hadd : tried env .add
      (worktreeAdd R false l (checkoutOf (attachable env ref target s) target)) s with
  | none =>
      rw [hadd] at h
      cases h
  | some s' =>
      rw [hadd] at h
      cases h
      have hmissing : (s₁.missing) = s.missing := by
        obtain ⟨head, rfl, -⟩ := add_laid hadd
        exact Dict.erase_of_get?_none (worktreeAdd_missing (tried_eq_some hadd).2)
      obtain ⟨head, rfl, -, hhead⟩ := add_laid hadd
      have hplace : Dict.get? (lay R l head target s).places l =
          some (.linked (freshWorktree R head target)) := Store.setWorktree_place_self s l _
      have hfrom : ∀ v, Dict.get? s.places l = some (.linked v) → s.headAt l = some target :=
        fun v hv => absurd hv (not_linked_of_not_occupied hfree v)
      rcases hhead with ⟨rfl, hno⟩ | ⟨rfl, htip, -⟩
      · have hsame : attachable env ref target (lay R l (.detached target) target s) =
            attachable env ref target s := by
          refine attachable_congr (l := l) rfl hmissing
            (fun l' hl => Store.setWorktree_place_ne _ hl) ?_ ?_
          · rintro ⟨w, hw, -⟩
            exact not_linked_of_not_occupied hfree w hw
          · rintro ⟨w, hw, hon⟩
            cases hplace.symm.trans hw
            cases hon
        exact .detached hfrom rfl hmissing hplace (idle_fresh R _ _) rfl (hsame.trans hno)
      · exact .branch hfrom rfl hmissing hplace (idle_fresh R _ _) rfl htip

theorem landing_present (ha : Answering env) {s s₁ : St} (hgo : declines env l s = false)
    (h : presentStore R env l ref target s = (true, s₁)) : Landing R env l ref target s s₁ := by
  obtain ⟨w, hw, hidle⟩ := linked_of_goes ha hgo
  have hsame : s₁ = s → Landing R env l ref target s s₁ := by
    rintro rfl
    exact .settled ((syncStore_linked ha hw hidle).trans h)
  have hstep := present_step R env l ref target s
  generalize presentStore R env l ref target s = out at hstep h
  cases hstep with
  | settled hat =>
      cases h
      exact hsame rfl
  | branched hne => cases h
  | @attached s' hat hb hco =>
      cases h
      obtain ⟨v, w', hv, hw', hon, hongoing⟩ := checkout_place hco
      cases hw.symm.trans hv
      have hstore : s₁.refs = s.refs ∧ s₁.missing = s.missing := by
        obtain ⟨_, _, -, -, -, rfl⟩ := checkout_eq_some hco
        exact ⟨rfl, rfl⟩
      refine .branch (fun _ _ => hat) hstore.1 hstore.2 hw' ?_ hon ?_
      · rw [hongoing]
        exact inProgress_switched hidle
      · rw [hstore.1]
        exact attachable_eq_some hb
  | @forwarded s' hff hne hon =>
      obtain ⟨hok, rfl⟩ := Prod.mk.inj h
      rcases hff with rfl | hff
      · exact hsame rfl
      · obtain ⟨v, hv, hread, ⟨rfl, -⟩ | ⟨-, -, rfl⟩⟩ := ffMerge_eq_some hff
        · exact hsame rfl
        · cases hw.symm.trans hv
          exact .forwarded hw hidle hread (hne (ha.queries _))

theorem landing (ha : Answering env) {s s₁ : St}
    (h : syncStore R env l ref target false s = (true, s₁)) : Landing R env l ref target s s₁ := by
  have hstep := sync_step R env l ref target false s
  generalize syncStore R env l ref target false s = out at hstep h
  cases hstep with
  | refused hno => cases h
  | @laid s' hcleared =>
      rcases hcleared with ⟨hfree, rfl⟩ | ⟨-, -, hrec, -⟩
      · exact landing_laid hfree h
      · cases hrec
  | present hocc hgo hrec => exact landing_present ha hgo h

theorem Landing.missing {s s₁ : St} (h : Landing R env l ref target s s₁) :
    s₁.missing = s.missing := by
  cases h with
  | settled h => rfl
  | branch hfrom hrefs hmissing hw hidle hon htip => exact hmissing
  | detached hfrom hrefs hmissing hw hidle hdet hno => exact hmissing
  | @forwarded w hw hidle hread hne =>
      rw [Store.advance]
      cases (rewrite (headTree R s.refs w.head) (R.tree target) w).head <;> rfl

theorem Landing.fetched {served : Served Commit} {s s₁ : St}
    (h : Landing R env l ref target s s₁) (hf : Git.Fetched served s.refs) :
    Git.Fetched served s₁.refs := by
  cases h with
  | settled h => exact hf
  | branch hfrom hrefs hmissing hw hidle hon htip => exact hrefs ▸ hf
  | detached hfrom hrefs hmissing hw hidle hdet hno => exact hrefs ▸ hf
  | @forwarded w hw hidle hread hne =>
      rw [Store.advance]
      cases (rewrite (headTree R s.refs w.head) (R.tree target) w).head with
      | attached b => exact hf.set_heads b target
      | detached c => exact hf
      | unreadable => exact hf

variable (R env ref target) in
/-- A detached tree that was fast-forwarded is detached at the target, and the branches
that fit are those that did. -/
theorem forwarded_detached {s : St} {w : Worktree Commit} {c : Commit}
    (hw : Dict.get? s.places l = some (.linked w)) (hdet : w.head = .detached c) :
    let s₁ := s.advance l (rewrite (headTree R s.refs w.head) (R.tree target) w) target
    (∃ w', Dict.get? s₁.places l = some (.linked w') ∧ w'.head = .detached target ∧
      w'.ongoing = w.ongoing) ∧
      attachable env ref target s₁ = attachable env ref target s := by
  have hstore : s.advance l (rewrite (headTree R s.refs w.head) (R.tree target) w) target =
      s.setWorktree l { rewrite (headTree R s.refs w.head) (R.tree target) w with
        head := .detached target } := by
    have hhead : (rewrite (headTree R s.refs w.head) (R.tree target) w).head = .detached c := hdet
    rw [Store.advance, hhead]
  intro s₁
  have hplace : Dict.get? s₁.places l = some (.linked { rewrite (headTree R s.refs w.head)
      (R.tree target) w with head := .detached target }) := by
    rw [show s₁ = _ from hstore]
    exact Store.setWorktree_place_self _ _ _
  refine ⟨⟨_, hplace, rfl, rfl⟩, ?_⟩
  refine attachable_congr (l := l) (by rw [show s₁ = _ from hstore]; rfl)
    (by rw [show s₁ = _ from hstore]; rfl) (fun l' hl => advance_place_ne _ target hl) ?_ ?_
  · rintro ⟨v, hv, hon⟩
    cases hw.symm.trans hv
    cases hdet.symm.trans hon
  · rintro ⟨v, hv, hon⟩
    cases hplace.symm.trans hv
    cases hon

/-- A first sync leaves a fixed point, but for a detached tree that was fast-forwarded and
that a branch takes. -/
theorem Landing.fixed (ha : Answering env) {s s₁ : St} (h : Landing R env l ref target s s₁)
    (hstay : ∀ w c, Dict.get? s.places l = some (.linked w) → s.headAt l ≠ some target →
      w.head = .detached c → attachable env ref target s = none ∨ env.grants .checkout = false) :
    syncStore R env l ref target false s₁ = (true, s₁) := by
  cases h with
  | settled h => exact h
  | branch hfrom hrefs hmissing hw hidle hon htip =>
      rw [syncStore_linked ha hw hidle, presentStore_branch ha hw hon htip]
  | detached hfrom hrefs hmissing hw hidle hdet hno =>
      rw [syncStore_linked ha hw hidle, presentStore_detached ha hw hdet, hno]
      rfl
  | @forwarded w hw hidle hread hne =>
      cases hhead : w.head with
      | unreadable => exact absurd hhead hread
      | attached b =>
          have hon : (rewrite (headTree R s.refs w.head) (R.tree target) w).head = .attached b :=
            hhead
          rw [← hhead, syncStore_linked ha (advance_attached target hon) hidle,
            presentStore_branch ha (advance_attached target hon) hon
              (advance_ref_attached target hon)]
      | detached c =>
          rw [← hhead]
          obtain ⟨⟨w', hw', hdet, hongoing⟩, hsame⟩ :=
            forwarded_detached R env ref target hw hhead
          rw [syncStore_linked ha hw' (by rw [hongoing]; exact hidle),
            presentStore_detached ha hw' hdet, hsame]
          rcases hstay w c hw hne hhead with hno | hrefuse
          · rw [hno]
            rfl
          · cases attachable env ref target s with
            | none => rfl
            | some b =>
                rw [Option.bind_some, tried, hrefuse]
                rfl

/-- A second refresh brings nothing: what is served was fetched, and what could be
pruned was. -/
theorem Landing.refreshed (ha : Answering env) {s s₁ : St}
    (h : Landing R env l ref target (refreshed env s) s₁) :
    fetch false env.served s₁ = s₁ ∧ Common.refreshed env s₁ = s₁ := by
  have hfetch : fetch false env.served s₁ = s₁ := by
    refine fetch_of_fetched (h.fetched ?_)
    rw [refreshed_refs]
    exact fetched_fetch ha.served s
  refine ⟨hfetch, ?_⟩
  rw [Common.refreshed, hfetch, tried]
  by_cases hg : env.grants (.prune false) = true
  · rw [if_pos hg, Option.getD_some]
    refine prune_of_locked fun e he => ?_
    have hpruned : (Common.refreshed env s).missing =
        (fetch false env.served s).missing.filter fun e => e.2.locked := by
      rw [Common.refreshed, tried, if_pos hg]
      rfl
    rw [h.missing, hpruned] at he
    exact (List.mem_filter.mp he).2
  · rw [if_neg hg, Option.getD_none]

end

/-! ## The call again -/

section
variable (R : Repository Commit) (u : Unicode) (host : BuildHost) (a : DeveloperArgs)

/-- The call says, again, that it synced, with the commit of the result, and leaves the
store as it is. -/
def Repeats (env : Env) (r : DeveloperResult) (s : St) : Prop :=
  ∃ r', prepareDeveloper R env u host a s = (.ok r', s) ∧ r'.synced = true ∧ r'.commit = r.commit

/-- The call repeats itself however a series ends this time. -/
def Resyncs (env : Env) (r : DeveloperResult) (s : St) : Prop :=
  ∀ series, Repeats R u host a { env with series := series } r s

variable (env : Env)

/-- A tree the sync of `ref` has to fast-forward stays where that leaves it: no branch
takes it when it is detached; and when it is on a branch, not born yet, the ref still
names the target. -/
def StaysPut (target : Commit) (s : St) : Prop :=
  ∀ w, Dict.get? s.places (developerPath host a) = some (.linked w) →
    s.headAt (developerPath host a) ≠ some target →
      (∀ c, w.head = .detached c →
        attachable env a.ref target s = none ∨ env.grants .checkout = false) ∧
      ∀ b, w.head = .attached b →
        (resolved R env (Dict.set s.refs (.heads b) target) a.ref).map Prod.fst = some target

/-- A call without a series says what its sync says. -/
theorem prepareDeveloper_plain (hb4 : a.b4Series = "") (hacc : Accepted host a) {s : St}
    {t : Commit × Bool} (ht : resolved R env (fetch false env.served s).refs a.ref = some t) :
    ∃ r, prepareDeveloper R env u host a s = (.ok r, (callSync R env host a t.1 s).2) ∧
      r.synced = (callSync R env host a t.1 s).1 ∧
      Reported env (developerPath host a) (callSync R env host a t.1 s).2 r.commit := by
  obtain ⟨href, hgroup, harea⟩ := hacc
  rw [prepareDeveloper, href, hgroup]
  simp only [Exec.lift_ok_bind, harea, Exec.modify_bind]
  rcases resolveRef_eval R env (bareOf host a.project) a.ref (fetch false env.served s) with
    ⟨t', ht', hrun⟩ | ⟨hno, -⟩
  · cases ht.symm.trans ht'
    obtain ⟨reason, commit, hsync, hreason, hcommit⟩ := sync_reports R env (developerPath host a)
      a.ref t.1 a.recreateWorktree (bareOf host a.project) (refreshed env s)
    have hseries : developerSeries R env u (developerPath host a) a.b4Series (reason, commit) =
        pure (none, "", commit) := if_pos (.inl hb4)
    rw [refreshed] at hsync
    rw [Exec.bind_ok _ hrun, change_bind, Exec.bind_ok _ hsync, hseries]
    exact ⟨_, rfl, hreason, hcommit⟩
  · rw [ht] at hno
    cases hno

/-- A sync that reached the target left HEAD there. -/
theorem headAt_of_syncStore {env : Env} {l : Path} {ref : String} {target : Commit}
    {recreate : Bool} {s s₁ : St}
    (h : syncStore R env l ref target recreate s = (true, s₁)) : s₁.headAt l = some target := by
  have hsettled : Settled R env l ref target recreate s
      (syncStore R env l ref target recreate s).2 (syncStore R env l ref target recreate s).1 _ :=
    settled_syncStore R env l ref target recreate (.inl rfl)
  rw [h] at hsettled
  exact (hsettled.reached rfl).1

/-- A tree that was elsewhere was fast-forwarded. -/
theorem Landing.forwards {R : Repository Commit} {env : Env} {l : Path} {ref : String}
    {target : Commit} {s s₁ : St} (h : Landing R env l ref target s s₁)
    {w : Worktree Commit} (hw : Dict.get? s.places l = some (.linked w))
    (hne : s.headAt l ≠ some target) :
    s₁ = s.advance l (rewrite (headTree R s.refs w.head) (R.tree target) w) target ∧
      inProgress (some w.ongoing) = none := by
  cases h with
  | settled h => exact absurd (headAt_of_syncStore R h) hne
  | branch hfrom hrefs hmissing hw' hidle hon htip => exact absurd (hfrom w hw) hne
  | detached hfrom hrefs hmissing hw' hidle hdet hno => exact absurd (hfrom w hw) hne
  | @forwarded v hv hidle hread hne' =>
      cases hw.symm.trans hv
      exact ⟨rfl, hidle⟩

/-- The ref of a first sync still names the target after it. -/
theorem Landing.resolves {R : Repository Commit} {env : Env} {l : Path} {ref : String}
    {t : Commit × Bool} {s s₁ : St} (h : Landing R env l ref t.1 s s₁)
    (ht : resolved R env s.refs ref = some t)
    (hborn : ∀ w b, Dict.get? s.places l = some (.linked w) → s.headAt l ≠ some t.1 →
      w.head = .attached b →
        (resolved R env (Dict.set s.refs (.heads b) t.1) ref).map Prod.fst = some t.1) :
    ∃ t', resolved R env s₁.refs ref = some t' ∧ t'.1 = t.1 := by
  have hsame : s₁.refs = s.refs → ∃ t', resolved R env s₁.refs ref = some t' ∧ t'.1 = t.1 :=
    fun hrefs => ⟨t, by rw [hrefs]; exact ht, rfl⟩
  cases h with
  | settled h => exact hsame rfl
  | branch hfrom hrefs hmissing hw hidle hon htip => exact hsame hrefs
  | detached hfrom hrefs hmissing hw hidle hdet hno => exact hsame hrefs
  | @forwarded w hw hidle hread hne =>
      rw [Store.advance]
      cases hhead : (rewrite (headTree R s.refs w.head) (R.tree t.1) w).head with
      | attached b => exact Option.map_eq_some_iff.mp (hborn w b hw hne hhead)
      | detached c => exact ⟨t, ht, rfl⟩
      | unreadable => exact ⟨t, ht, rfl⟩

variable {R u host a env}

/-- What a call that synced says about its arguments, and about its sync. -/
theorem sync_of_synced {r : DeveloperResult} {s s₁ : St}
    (h : prepareDeveloper R env u host a s = (.ok r, s₁)) (hsynced : r.synced = true) :
    Accepted host a ∧ ∃ t, resolved R env (fetch false env.served s).refs a.ref = some t ∧
      (callSync R env host a t.1 s).1 = true ∧
      (a.b4Series = "" → s₁ = (callSync R env host a t.1 s).2) ∧
      (a.b4Series ≠ "" → env.series.downloaded = true) := by
  have hends := prepareDeveloper_eval R env host a u s
  rw [h] at hends
  cases hends with
  | synced _ t hacc ht hb4 hsame hbranch =>
      have htrue := hsame.symm.trans hsynced
      refine ⟨hacc, t, ht, htrue, fun _ => rfl, fun hne => ?_⟩
      rcases hb4 with hb4 | hb4
      · exact absurd hb4 hne
      · rw [htrue] at hb4
        cases hb4
  | applied _ t hacc ht hb4 happly hsame hbranch hcommit =>
      refine ⟨hacc, t, ht, hb4.2, fun he => absurd he hb4.1, fun _ => ?_⟩
      rw [applyStore] at happly
      cases hd : env.series.downloaded with
      | true => rfl
      | false =>
          rw [hd] at happly
          cases happly

/-- A call that reports a HEAD, git answering, reports where HEAD is. -/
theorem reported_eq (ha : Answering env) {l : Path} {s : St} {commit : Option Commit}
    (h : Reported env l s commit) : commit = s.headAt l := by
  rcases h with h | ⟨-, site, hsite⟩
  · exact h
  · rw [ha.queries] at hsite
    cases hsite

/-- A call that is repeated was repeated without a series. -/
theorem plain_of_resyncs {r : DeveloperResult} {s₁ : St} (h : Resyncs R u host a env r s₁) :
    a.b4Series = "" := by
  by_contra hne
  -- b4 downloads nothing this time
  obtain ⟨r', hrun, hsynced, -⟩ := h { env.series with downloaded := false }
  obtain ⟨-, -, -, -, -, hdown⟩ := sync_of_synced hrun hsynced
  cases hdown hne

/-- The second call synced where the first did, and left the store. -/
theorem sync_again {r : DeveloperResult} {s₁ : St} (hrec : a.recreateWorktree = false)
    (h : Resyncs R u host a env r s₁) :
    ∃ t, resolved R env (fetch false env.served s₁).refs a.ref = some t ∧
      syncStore R env (developerPath host a) a.ref t.1 false (refreshed env s₁) = (true, s₁) := by
  have hb4 := plain_of_resyncs h
  obtain ⟨r', hrun, hsynced, -⟩ := h env.series
  obtain ⟨-, t, ht, htrue, hstore, -⟩ := sync_of_synced hrun hsynced
  have hsync : callSync R env host a t.1 s₁ = (true, s₁) := Prod.ext htrue (hstore hb4).symm
  rw [callSync, hrec] at hsync
  exact ⟨t, ht, hsync⟩

/-- A second call repeats the first exactly when there is no series, and a tree the first
one fast-forwarded stays where that left it. -/
theorem resync_iff (ha : Answering env) (hrec : a.recreateWorktree = false) {s s₁ : St}
    {r : DeveloperResult} (hfirst : prepareDeveloper R env u host a s = (.ok r, s₁))
    (hsynced : r.synced = true) :
    Resyncs R u host a env r s₁ ↔ a.b4Series = "" ∧
      ∀ t, resolved R env (fetch false env.served s).refs a.ref = some t →
        StaysPut R host a env t.1 (refreshed env s) := by
  obtain ⟨hacc, t, ht, htrue, hstore, -⟩ := sync_of_synced hfirst hsynced
  have hsync : a.b4Series = "" → syncStore R env (developerPath host a) a.ref t.1 false
      (refreshed env s) = (true, s₁) := by
    intro hb4
    have hcall : callSync R env host a t.1 s = (true, s₁) := Prod.ext htrue (hstore hb4).symm
    rw [callSync, hrec] at hcall
    exact hcall
  constructor
  · intro h
    have hb4 := plain_of_resyncs h
    have hlanding := landing ha (hsync hb4)
    obtain ⟨hfetch, hrefresh⟩ := hlanding.refreshed ha
    obtain ⟨t', ht', hagain⟩ := sync_again hrec h
    rw [hfetch] at ht'
    rw [hrefresh] at hagain
    -- both syncs left HEAD at their target
    have htarget : t'.1 = t.1 := Option.some.inj
      ((headAt_of_syncStore R hagain).symm.trans (headAt_of_syncStore R (hsync hb4)))
    rw [htarget] at hagain
    refine ⟨hb4, fun t₀ ht₀ w hw hne => ?_⟩
    cases ht.symm.trans ht₀
    obtain ⟨rfl, hidle⟩ := hlanding.forwards hw hne
    refine ⟨fun c hdet => ?_, fun b hon => ?_⟩
    · obtain ⟨⟨w', hw', hdet', hongoing⟩, hsame⟩ :=
        forwarded_detached R env a.ref t.1 hw hdet
      rw [syncStore_linked ha hw' (by rw [hongoing]; exact hidle),
        presentStore_detached ha hw' hdet', hsame] at hagain
      cases hb : attachable env a.ref t.1 (refreshed env s) with
      | none => exact .inl rfl
      | some b =>
          refine .inr ?_
          by_contra hgrant
          obtain ⟨s₂, hco, hmoved⟩ := checkout_attachable hw' hdet' (hsame.trans hb)
          rw [hb, Option.bind_some, tried, if_pos (Bool.of_not_eq_false hgrant), hco]
            at hagain
          exact hmoved (Prod.mk.inj hagain).2
    · have hhead : (rewrite (headTree R (refreshed env s).refs w.head) (R.tree t.1) w).head =
          .attached b := hon
      rw [Store.advance, hhead] at ht'
      rw [show resolved R env (Dict.set (refreshed env s).refs (.heads b) t.1) a.ref = some t'
        from ht', Option.map_some, htarget]
  · rintro ⟨hb4, hstay⟩ series
    have hlanding := landing ha (hsync hb4)
    obtain ⟨hfetch, hrefresh⟩ := hlanding.refreshed ha
    have hfixed := hlanding.fixed ha fun w c hw hne hdet => (hstay t ht w hw hne).1 c hdet
    obtain ⟨t', ht', htarget⟩ := hlanding.resolves (by rw [refreshed_refs]; exact ht)
      fun w b hw hne hon => (hstay t ht w hw hne).2 b hon
    have hcall : callSync R { env with series := series } host a t'.1 s₁ = (true, s₁) := by
      show syncStore R env (developerPath host a) a.ref t'.1 a.recreateWorktree
        (refreshed env s₁) = (true, s₁)
      rw [hrec, hrefresh, htarget]
      exact hfixed
    have hagain : resolved R { env with series := series }
        (fetch false env.served s₁).refs a.ref = some t' := by
      rw [hfetch]
      exact ht'
    obtain ⟨r', hrun, hsynced', hcommit'⟩ :=
      prepareDeveloper_plain R u host a { env with series := series } hb4 hacc hagain
    obtain ⟨r₀, hrun₀, -, hcommit⟩ := prepareDeveloper_plain R u host a env hb4 hacc ht
    rw [hcall] at hrun hsynced' hcommit'
    cases (Prod.mk.inj (hrun₀.symm.trans hfirst)).1
    rw [← hstore hb4] at hcommit
    refine ⟨r', hrun, hsynced', ?_⟩
    rw [reported_eq ⟨ha.queries, ha.served⟩ hcommit', reported_eq ha hcommit]

end

/-- A worktree detached at the branch `wip` is attached to it, and stays. -/
theorem resync_wip :
    ∃ r s₁, prepareDeveloper sample calm plainUnicode sampleHost wipArgs (developerAt "b") =
        (.ok r, s₁) ∧ r.synced = true ∧ Resyncs sample plainUnicode sampleHost wipArgs calm r s₁ := by
  have ha : Answering calm := ⟨fun _ => rfl, List.nodup_nil⟩
  obtain ⟨r, s₁, hfirst, hsynced⟩ : ∃ r s₁, prepareDeveloper sample calm plainUnicode sampleHost
      wipArgs (developerAt "b") = (.ok r, s₁) ∧ r.synced = true := ⟨_, _, rfl, rfl⟩
  refine ⟨r, s₁, hfirst, hsynced,
    (resync_iff ha rfl hfirst hsynced).mpr ⟨rfl, fun t ht w hw hne => ?_⟩⟩
  have htarget : resolved sample calm (fetch false calm.served (developerAt "b")).refs wipArgs.ref =
      some ("b", false) := rfl
  cases htarget.symm.trans ht
  exact absurd rfl hne

/-- A worktree detached at the tag `v1`. -/
def taggedAt : St := { developerAt "b" with refs := [(.tags "v1", "b")] }

/-- A sync of the tag with a series. -/
def taggedFix : DeveloperArgs := { fixArgs with ref := "v1" }

/-- A world where the series applies. -/
def fixing : Env := withSeries (.applied "b+series")

/-- The series takes HEAD off the tag, so the second call, in the same world, does not
sync. -/
theorem series_not_repeated :
    ∃ r, prepareDeveloper sample fixing plainUnicode sampleHost taggedFix taggedAt =
        (.ok r, synced fixing taggedFix taggedAt) ∧ r.synced = true ∧
      ¬ Repeats sample plainUnicode sampleHost taggedFix fixing r
        (synced fixing taggedFix taggedAt) := by
  refine ⟨_, rfl, rfl, ?_⟩
  rintro ⟨r', hrun, hsynced, -⟩
  have hsecond : (outcome (developerPath sampleHost taggedFix) (prepareDeveloper sample fixing
      plainUnicode sampleHost taggedFix (synced fixing taggedFix taggedAt))).map Prod.fst =
        some false := by decide +kernel
  rw [hrun, outcome, Option.map_some, Option.some.injEq] at hsecond
  exact Bool.false_ne_true (hsecond.symm.trans hsynced)

end KdevopsNg.Common
