/-
# `Common.Series` — applied series stay reachable

A closure or a manifest names the commit a preparation returned with a series
applied, long after the worktree went on.  What keeps that commit is the branch
`b4/<slug>`, or the anchor of the same name under `refs/kdevops`.  A `Log` is the
store with the commits returned so far, and the invariant is that each is reached
from such a ref (`Filed`).

A step may break it in one way: a series that differs from its branch moves the
anchor, and the commit the anchor named is on no other (`anchors_drop`).  The rest of
`Safe` is what the source takes for granted: that git carries out an `update-ref`,
and that an abort takes no such branch back.
-/
import KdevopsNg.Common.NoLoss
import KdevopsNg.Common.BuildTree

namespace KdevopsNg.Common

open Py Git

/-! ## The refs that file a series -/

/-- A ref under `refs/heads/b4` or `refs/kdevops/b4`. -/
def B4Ref (r : Ref) : Prop :=
  ∃ slug, r = .heads ("b4/" ++ slug) ∨ r = .other "kdevops" ("b4/" ++ slug)

/-- Such a ref reaches the commit. -/
def Filed (R : Repository Commit) (s : St) (x : Commit) : Prop :=
  ∃ r c, B4Ref r ∧ Dict.get? s.refs r = some c ∧ R.Reaches c x

theorem b4Ref_branch (b4Series : String) : B4Ref (.heads (b4Branch b4Series)) :=
  ⟨b4Slug b4Series, .inl rfl⟩

theorem b4Ref_anchor (b4Series : String) : B4Ref (anchorRef b4Series) :=
  ⟨b4Slug b4Series, .inr rfl⟩

theorem B4Ref.not_fetched {r : Ref} (h : B4Ref r) : (∀ n, r ≠ .remotes n) ∧ ∀ n, r ≠ .tags n := by
  obtain ⟨slug, rfl | rfl⟩ := h
  · exact ⟨(fun n h => by cases h), (fun n h => by cases h)⟩
  · exact ⟨(fun n h => by cases h), (fun n h => by cases h)⟩

/-- Refs that go forward keep what they file. -/
theorem Filed.forward {R : Repository Commit} {s s' : St} {x : Commit} (h : Filed R s x)
    (hfwd : ∀ r c, B4Ref r → Dict.get? s.refs r = some c →
      ∃ d, Dict.get? s'.refs r = some d ∧ R.Reaches d c) : Filed R s' x := by
  obtain ⟨r, c, hr, hc, hx⟩ := h
  obtain ⟨d, hd, hdc⟩ := hfwd r c hr hc
  exact ⟨r, d, hr, hd, hdc.trans hx⟩

theorem Filed.of_refs {R : Repository Commit} {s s' : St} {x : Commit} (h : Filed R s x)
    (hrefs : ∀ r c, B4Ref r → Dict.get? s.refs r = some c → Dict.get? s'.refs r = some c) :
    Filed R s' x :=
  h.forward fun r c hr hc => ⟨c, hrefs r c hr hc, History.Reaches.refl c⟩

/-! ## A publication -/

section
variable {R : Repository Commit} {env : Env} {l : Path} {b4Series : String}

/-- The anchor does not leave a commit behind: where the series applies at a commit other
than its branch's, what the anchor names is reached from there, or from another ref. -/
def AnchorMoves (R : Repository Commit) (env : Env) (b4Series : String) (s : St) : Prop :=
  ∀ c d tip, env.series.am = .applied c →
    Dict.get? s.refs (.heads (b4Branch b4Series)) = some tip → tip ≠ c →
    Dict.get? s.refs (anchorRef b4Series) = some d →
    R.Reaches c d ∨ ∃ r e, B4Ref r ∧ r ≠ anchorRef b4Series ∧ Dict.get? s.refs r = some e ∧
      R.Reaches e d

/-- What a series applied at `c` left of the refs of a store, before it is published. -/
structure Presented (R : Repository Commit) (env : Env) (l : Path) (b4Series : String) (c : Commit)
    (s s₁ : St) : Prop where
  applied : env.series.am = .applied c
  head : s₁.headAt l = some c
  same : ∀ r, B4Ref r → Dict.get? s₁.refs r = Dict.get? s.refs r ∨ Dict.get? s₁.refs r = some c
  forward : ∀ r d, B4Ref r → Dict.get? s.refs r = some d →
    ∃ e, Dict.get? s₁.refs r = some e ∧ R.Reaches e d
  anchor : Dict.get? s₁.refs (anchorRef b4Series) = Dict.get? s.refs (anchorRef b4Series)

/-- A publication that git carries out files the new commit and keeps what was filed, and
the branch it names is at the new commit. -/
theorem publish_files (hexisting : env.answers .existing = true)
    (hhead : env.answers (.head .published) = true) (hpublish : env.grants .publish = true)
    (hanchor : env.grants .anchor = true) {c : Commit} {s s₁ : St}
    (hmoves : AnchorMoves R env b4Series s) (h : Presented R env l b4Series c s s₁) :
    Filed R (publishStore env l b4Series s₁).2 c ∧
      (∀ x, Filed R s x → Filed R (publishStore env l b4Series s₁).2 x) ∧
      ∀ b, (publishStore env l b4Series s₁).1 = some b →
        Dict.get? (publishStore env l b4Series s₁).2.refs (.heads b) = some c := by
  have hfwd : ∀ x, Filed R s x → Filed R s₁ x := fun x hx => hx.forward h.forward
  rw [publishStore, ask_of_answers hexisting, ask_of_answers hhead, h.head]
  cases htip : Dict.get? s₁.refs (.heads (b4Branch b4Series)) with
  | none =>
      have hup : updateRef true (.heads (b4Branch b4Series)) l s₁ =
          some { s₁ with refs := Dict.set s₁.refs (.heads (b4Branch b4Series)) c } := by
        rw [updateRef, h.head, Dict.contains, htip]
        rfl
      simp only [tried, hpublish, if_true, hup]
      refine ⟨⟨_, c, b4Ref_branch b4Series, Dict.get?_set_self _ _ _, History.Reaches.refl c⟩,
        fun x hx => ?_, fun b hb => ?_⟩
      · refine (hfwd x hx).of_refs fun r d _ hr => (Dict.get?_set_ne _ _ fun hbr => ?_).trans hr
        rw [hbr, htip] at hr
        cases hr
      · cases hb
        exact Dict.get?_set_self _ _ _
  | some tip =>
      by_cases hc : some c = some tip
      · cases hc
        simp only [if_true]
        refine ⟨⟨_, c, b4Ref_branch b4Series, htip, History.Reaches.refl c⟩, hfwd, fun b hb => ?_⟩
        cases hb
        exact htip
      · have hup : updateRef false (.other "kdevops" (b4Branch b4Series)) l s₁ =
            some { s₁ with refs := Dict.set s₁.refs (anchorRef b4Series) c } := by
          rw [updateRef, h.head]
          rfl
        simp only [hc, if_false, tried, hanchor, if_true, hup, Option.getD_some]
        have hnew : Dict.get? (Dict.set s₁.refs (anchorRef b4Series) c) (anchorRef b4Series) =
          some c := Dict.get?_set_self _ _ _
        refine ⟨⟨_, c, b4Ref_anchor b4Series, hnew, History.Reaches.refl c⟩, fun x hx => ?_,
          fun b hb => by cases hb⟩
        -- only what the anchor reached can be lost, and the branch did not move
        have hother : ∀ r e y, B4Ref r → r ≠ anchorRef b4Series → Dict.get? s.refs r = some e →
            R.Reaches e y → Filed R { s₁ with refs := Dict.set s₁.refs (anchorRef b4Series) c } y := by
          intro r e y hr hne he hy
          obtain ⟨e', he', hreach⟩ := h.forward r e hr he
          exact ⟨r, e', hr, (Dict.get?_set_ne _ _ hne).trans he', hreach.trans hy⟩
        obtain ⟨r, d, hr, hd, hx⟩ := hx
        by_cases hra : r = anchorRef b4Series
        · subst hra
          have hold : Dict.get? s.refs (.heads (b4Branch b4Series)) = some tip := by
            rcases h.same _ (b4Ref_branch b4Series) with hsame | hmoved
            · exact hsame.symm.trans htip
            · exact absurd (hmoved.symm.trans htip) hc
          have hne : tip ≠ c := fun htc => hc (by rw [htc])
          rcases hmoves c d tip h.applied hold hne hd with hcd | ⟨r, e, hr, hne, he, hed⟩
          · exact ⟨_, c, b4Ref_anchor b4Series, hnew, hcd.trans hx⟩
          · exact hother r e x hr hne he (hed.trans hx)
        · exact hother r d x hr hra hd hx

theorem PublishStep.headAt {s s' : St} (h : PublishStep l b4Series s s') {c : Commit}
    (hc : s.headAt l = some c) : s'.headAt l = some c := by
  rw [Store.headAt] at hc ⊢
  rw [h.places]
  cases ho : Dict.get? s.places l with
  | none => rw [ho] at hc; cases hc
  | some o =>
      rw [ho] at hc
      cases o with
      | linked w =>
          cases hh : w.head with
          | attached b =>
              simp only [hh] at hc ⊢
              exact h.get? hc fun h => by cases h
          | detached d => simp only [hh] at hc ⊢; exact hc
          | unreadable => simp only [hh] at hc; cases hc
      | foreign repo =>
          cases repo with
          | none => cases hc
          | some d => exact hc
      | empty => cases hc
      | file => cases hc

theorem headAt_of_attached {s : St} {w : Worktree Commit} {b : String}
    (hw : Dict.get? s.places l = some (.linked w)) (hb : w.head = .attached b) :
    s.headAt l = Dict.get? s.refs (.heads b) := by
  rw [Store.headAt, hw]
  simp only [hb]
  rfl

/-- A sync and a series on a developer worktree change a branch only to the commit the
series applied at. -/
theorem presented_developer {s s₁ s₂ : St} {c : Commit} (happlied : env.series.am = .applied c)
    (hsync : Keeps R l (refreshed env s) s₁) (hseries : SeriesKeeps R l s₁ s₂)
    (hhead : s₂.headAt l = some c) : Presented R env l b4Series c s s₂ := by
  have hfetch : ∀ r, B4Ref r → Dict.get? (refreshed env s).refs r = Dict.get? s.refs r := by
    intro r hr
    rw [refreshed_refs]
    exact fetch_get? false env.served s hr.not_fetched.1 hr.not_fetched.2
  have hothers : ∀ n, Dict.get? s₂.refs (.other "kdevops" n) = Dict.get? s.refs (.other "kdevops" n) ∨
      ¬ B4Ref (.other "kdevops" n) := by
    intro n
    by_cases hr : B4Ref (.other "kdevops" n)
    · have hnot : ∀ b, Ref.other "kdevops" n ≠ .heads b := fun b h => by cases h
      exact .inl ((hseries.others _ hnot).trans ((hsync.others _ hnot).trans (hfetch _ hr)))
    · exact .inr hr
  refine ⟨happlied, hhead, fun r hr => ?_, fun r d hr hd => ?_,
    (hothers _).resolve_right fun h => h (b4Ref_anchor b4Series)⟩
  · obtain ⟨slug, rfl | rfl⟩ := hr
    · have hon : ∀ w, Dict.get? s₂.places l = some (.linked w) → w.head = .attached ("b4/" ++ slug) →
          Dict.get? s₂.refs (.heads ("b4/" ++ slug)) = some c := fun w hw hb =>
        (headAt_of_attached hw hb).symm.trans hhead
      rcases hseries.own ("b4/" ++ slug) with hsame | ⟨w, hw, hb⟩
      · rcases hsync.own ("b4/" ++ slug) with hsame₁ | ⟨w, hw, hb⟩
        · exact .inl (hsame.trans (hsame₁.trans (hfetch _ ⟨slug, .inl rfl⟩)))
        · obtain ⟨w', hw', hb'⟩ := hseries.attached w _ hw hb
          exact .inr (hon w' hw' hb')
      · exact .inr (hon w hw hb)
    · exact .inl ((hothers _).resolve_right fun h => h ⟨slug, .inr rfl⟩)
  · rw [← hfetch r hr] at hd
    obtain ⟨slug, rfl | rfl⟩ := hr
    · exact hseries.forward _ _ (hsync.heads _ _ hd)
    · refine ⟨d, ?_, History.Reaches.refl d⟩
      rw [hfetch _ ⟨slug, .inr rfl⟩] at hd
      exact ((hothers _).resolve_right fun h => h ⟨slug, .inr rfl⟩).trans hd

/-- The series of a worker's call moves no such ref. -/
theorem presented_worker {g : Abort → Bool} {s s₂ : St} {c : Commit}
    (happlied : env.series.am = .applied c)
    (hsteady : Steady B4Ref g l (Dict.get? s.refs) s₂) (hhead : s₂.headAt l = some c) :
    Presented R env l b4Series c s s₂ where
  applied := happlied
  head := hhead
  same := fun r hr => .inl (hsteady.refs r hr)
  forward := fun r d hr hd => ⟨d, (hsteady.refs r hr).trans hd, History.Reaches.refl d⟩
  anchor := hsteady.refs _ (b4Ref_anchor b4Series)

end

/-! ## A preparation -/

/-- A call of one of the two functions. -/
inductive Preparation where
  | worker (a : PrepareArgs)
  | developer (a : DeveloperArgs)
  deriving DecidableEq, Repr

/-- The series a preparation is asked for. -/
def Preparation.b4Series : Preparation → String
  | .worker a => a.b4Series
  | .developer a => a.b4Series

/-- What a preparation leaves: the store, the commit it returned with a series applied,
and the branch it returned. -/
structure Outcome where
  store : St
  applied : Option Commit
  branch : Option String
  deriving DecidableEq, Repr

/-- The outcome of a worker's call. -/
def workerOutcome (a : PrepareArgs) : Except PyError PrepareResult × St → Outcome
  | (.ok r, s') => ⟨s', if a.b4Series = "" then none else some r.commit, r.b4Branch⟩
  | (.error _, s') => ⟨s', none, none⟩

/-- The outcome of a developer sync, which applies a series only where it synced. -/
def developerOutcome (a : DeveloperArgs) : Except PyError DeveloperResult × St → Outcome
  | (.ok r, s') =>
      ⟨s', if a.b4Series = "" ∨ r.synced = false then none else r.commit, r.b4Branch⟩
  | (.error _, s') => ⟨s', none, none⟩

/-- A preparation from a store. -/
def preparation (R : Repository Commit) (u : Unicode) (t : Turn Preparation) (s : St) : Outcome :=
  match t.args with
  | .worker a => workerOutcome a (prepare R t.env u t.host a s)
  | .developer a => developerOutcome a (prepareDeveloper R t.env u t.host a s)

/-- A preparation keeps what was filed, files what it applied, and returns a branch at
the commit it returned. -/
structure Files (R : Repository Commit) (s : St) (o : Outcome) : Prop where
  kept : ∀ x, Filed R s x → Filed R o.store x
  applied : ∀ c, o.applied = some c → Filed R o.store c
  branch : ∀ b, o.branch = some b → ∃ c, o.applied = some c ∧
    Dict.get? o.store.refs (.heads b) = some c

/-- Git carries out an abort, before the series or after it failed. -/
def aborts (env : Env) (op : Abort) : Bool :=
  env.grants (.abort op false) || env.grants (.abort op true)

/-- What a preparation with a series takes for granted, and what it must not do. -/
structure Safe (R : Repository Commit) (s : St) (t : Turn Preparation) : Prop where
  reads : Reads t.env
  existing : t.env.answers .existing = true
  publish : t.env.grants .publish = true
  anchor : t.env.grants .anchor = true
  settled : ∀ a, t.args = .worker a → ∀ w, Dict.get? s.places (buildPath t.host a) =
    some (.linked w) → ∀ op b orig, aborts t.env op = true → B4Ref (.heads b) →
      Rewinds w op b orig → Dict.get? s.refs (.heads b) = some orig
  moves : t.args.b4Series ≠ "" → AnchorMoves R t.env t.args.b4Series s

section
variable {R : Repository Commit} {u : Unicode} {env : Env} {host : BuildHost}

theorem worker_files {a : PrepareArgs} {s : St} (hR : Reads env)
    (hexisting : env.answers .existing = true) (hpublish : env.grants .publish = true)
    (hanchor : env.grants .anchor = true)
    (hsettled : ∀ w, Dict.get? s.places (buildPath host a) = some (.linked w) →
      ∀ op b orig, aborts env op = true → B4Ref (.heads b) → Rewinds w op b orig →
        Dict.get? s.refs (.heads b) = some orig)
    (hmoves : a.b4Series ≠ "" → AnchorMoves R env a.b4Series s) :
    Files R s (workerOutcome a (prepare R env u host a s)) := by
  have hsteady : Steady B4Ref (aborts env) (buildPath host a) (Dict.get? s.refs) s :=
    ⟨fun _ _ => rfl, fun w hw op b orig hop hb hrew => hsettled w hw op b orig hop hb hrew⟩
  have hg : ∀ op again, env.grants (.abort op again) = true → aborts env op = true := by
    intro op again h
    cases again with
    | false => rw [aborts, h, Bool.true_or]
    | true => rw [aborts, h, Bool.or_true]
  -- a published series, from the store the laying left
  have hpub : ∀ {t : Commit × Bool} {s₁ s₂ : St}, a.b4Series ≠ "" →
      LayStep R env (buildPath host a) t.1 a.recreateWorktree (fetch true env.served s) s₁ →
      applyStore R env (buildPath host a) s₁ = (true, s₂) → ∃ c w,
        Dict.get? s₂.places (buildPath host a) = some (.linked w) ∧
        s₂.headAt (buildPath host a) = some c ∧
        Presented R env (buildPath host a) a.b4Series c s s₂ := by
    intro t s₁ s₂ hb4 hlay happly
    have hfetch : Steady B4Ref (aborts env) (buildPath host a) (Dict.get? s.refs)
        (fetch true env.served s) := hsteady.of_place (fun r hr =>
      fetch_get? true env.served s hr.not_fetched.1 hr.not_fetched.2) rfl
    obtain ⟨v, hv, hdet⟩ := hlay.detached
    have hsteady₂ := (hlay.steady (fun op => hg op false) hfetch).applyStore R env hv hdet
    rw [happly] at hsteady₂
    obtain ⟨c, w, happlied, hw, hhead⟩ := applyStore_headAt happly
    exact ⟨c, w, hw, hhead, presented_worker happlied hsteady₂ hhead⟩
  have hfiles : ∀ {c : Commit} {s₂ : St}, a.b4Series ≠ "" →
      Presented R env (buildPath host a) a.b4Series c s s₂ → _ :=
    fun hb4 hpres => publish_files (l := buildPath host a) hexisting (hR.head .published) hpublish
      hanchor (hmoves hb4) hpres
  have hrefs : ∀ {s₁ s₂ : St} {x : Commit}, s₂.refs = s₁.refs → Filed R s₁ x → Filed R s₂ x :=
    fun heq hx => hx.of_refs fun r c _ hr => by rw [heq]; exact hr
  have htriple := prepare_triple R env host a (g := aborts env)
    (fun r hr => hr.not_fetched) hg u hsteady
  rcases hrun : prepare R env u host a s with ⟨e | r, s'⟩
  · refine ⟨fun x hx => ?_, fun c hc => (by cases hc), fun b hb => (by cases hb)⟩
    rcases htriple.of_error rfl hrun with hsame | ⟨s₁, s₂, t, hb4, hlay, happly, hpubrefs⟩
    · exact hx.of_refs fun r c hr hc => (hsame r hr).trans hc
    · obtain ⟨c, w, -, -, hpres⟩ := hpub hb4 hlay happly
      exact hrefs hpubrefs ((hfiles hb4 hpres).2.1 x hx)
  · have hprep := prepare_returned hrun
    cases hprep with
    | @plain t s₁ s₂ hb4 hr hlay hdirs hcommit hbranch =>
        have hfetch : Steady B4Ref (aborts env) (buildPath host a) (Dict.get? s.refs)
            (fetch true env.served s) := hsteady.of_place (fun r hr =>
          fetch_get? true env.served s hr.not_fetched.1 hr.not_fetched.2) rfl
        have hlaid := hlay.steady (fun op => hg op false) hfetch
        refine ⟨fun x hx => hrefs hdirs.refs
          (hx.of_refs fun r c hr hc => (hlaid.refs r hr).trans hc), fun c hc => ?_, fun b hb => ?_⟩
        · rw [workerOutcome, if_pos hb4] at hc
          cases hc
        · cases hbranch.symm.trans hb
    | @applied t s₁ s₂ s₃ hb4 hr hlay happly hdirs hcommit hbranch =>
        obtain ⟨c, w, hw, hhead, hpres⟩ := hpub hb4 hlay happly
        obtain ⟨hnew, hold, hat⟩ := hfiles hb4 hpres
        have hstep := publish_step env (buildPath host a) a.b4Series s₂
        have hplace : Dict.get? (publishStore env (buildPath host a) a.b4Series s₂).2.places
            (buildPath host a) = some (.linked w) := by rw [hstep.places]; exact hw
        have hc : c = r.commit := by
          have hfinal := hdirs.headAt hplace
          rw [hstep.headAt hhead] at hfinal
          exact Option.some.inj (hfinal.symm.trans hcommit)
        subst hc
        have happlied : (workerOutcome a (.ok r, excludeDirs a.extraDirs s₃)).applied =
            some r.commit := if_neg hb4
        refine ⟨fun x hx => hrefs hdirs.refs (hold x hx), fun c hc => ?_, fun b hb => ?_⟩
        · cases happlied.symm.trans hc
          exact hrefs hdirs.refs hnew
        · refine ⟨r.commit, happlied, ?_⟩
          have hmoved := hat b (hbranch.symm.trans hb)
          show Dict.get? s₃.refs (.heads b) = some r.commit
          rw [hdirs.refs]
          exact hmoved

theorem developer_files {a : DeveloperArgs} {s : St} (hR : Reads env)
    (hexisting : env.answers .existing = true) (hpublish : env.grants .publish = true)
    (hanchor : env.grants .anchor = true)
    (hmoves : a.b4Series ≠ "" → AnchorMoves R env a.b4Series s) :
    Files R s (developerOutcome a (prepareDeveloper R env u host a s)) := by
  have hfetch : ∀ r c, B4Ref r → Dict.get? s.refs r = some c →
      Dict.get? (fetch false env.served s).refs r = some c := fun r c hr hc =>
    (fetch_get? false env.served s hr.not_fetched.1 hr.not_fetched.2).trans hc
  have hsync : ∀ target, Keeps R (developerPath host a) (refreshed env s)
      (callSync R env host a target s).2 := fun target =>
    syncStore_keeps hR a.recreateWorktree (refreshed env s)
  have hsynced : ∀ target x, Filed R s x → Filed R (callSync R env host a target s).2 x := by
    intro target x hx
    refine hx.of_refs fun r c hr hc => ?_
    have hc' : Dict.get? (refreshed env s).refs r = some c := by
      rw [refreshed_refs]
      exact hfetch r c hr hc
    obtain ⟨slug, rfl | rfl⟩ := hr
    · exact (hsync target).heads _ _ hc'
    · exact ((hsync target).others _ fun b h => by cases h).trans hc'
  have hends := prepareDeveloper_eval R env host a u s
  generalize prepareDeveloper R env u host a s = out at hends
  cases hends with
  | rejected e h => exact ⟨fun _ hx => hx, fun c hc => (by cases hc), fun b hb => (by cases hb)⟩
  | unresolved e h hr =>
      exact ⟨fun _ hx => hx.of_refs hfetch, fun c hc => (by cases hc), fun b hb => (by cases hb)⟩
  | synced r t h hr hb4 hs hbranch =>
      refine ⟨hsynced t.1, fun c hc => ?_, fun b hb => ?_⟩
      · have hnone : (developerOutcome a (.ok r, (callSync R env host a t.1 s).2)).applied =
            none := if_pos (hb4.imp id fun h => hs.trans h)
        cases hnone.symm.trans hc
      · cases hbranch.symm.trans hb
  | @failed e t h hr hb4 s' happly =>
      have hseries := applyStore_keeps R env (developerPath host a)
        (callSync R env host a t.1 s).2
      rw [happly] at hseries
      refine ⟨fun x hx => (hsynced t.1 x hx).forward fun r c hr hc => ?_,
        fun c hc => (by cases hc), fun b hb => (by cases hb)⟩
      obtain ⟨slug, rfl | rfl⟩ := hr
      · exact hseries.forward _ _ hc
      · exact ⟨c, (hseries.others _ fun b h => by cases h).trans hc, History.Reaches.refl c⟩
  | @applied r t h hr hb4 s' happly hs hbranch hcommit =>
      have hseries := applyStore_keeps R env (developerPath host a)
        (callSync R env host a t.1 s).2
      rw [happly] at hseries
      obtain ⟨c, w, happlied, hw, hhead⟩ := applyStore_headAt happly
      have hpres : Presented R env (developerPath host a) a.b4Series c s s' :=
        presented_developer happlied (hsync t.1) hseries hhead
      obtain ⟨hnew, hold, hat⟩ := publish_files hexisting (hR.head .published) hpublish hanchor
        (hmoves hb4.1) hpres
      have hc : r.commit = some c := by
        rw [hcommit, ask_of_answers (hR.head .final)]
        exact (publish_step env _ _ s').headAt hhead
      have hret : (developerOutcome a (.ok r, (publishStore env (developerPath host a) a.b4Series
          s').2)).applied = some c := by
        have hif : ¬ (a.b4Series = "" ∨ r.synced = false) := by
          rintro (h | h)
          · exact hb4.1 h
          · rw [hs] at h
            cases h
        exact (if_neg hif).trans hc
      refine ⟨hold, fun d hd => ?_, fun b hb => ⟨c, hret, hat b (hbranch.symm.trans hb)⟩⟩
      cases hret.symm.trans hd
      exact hnew

theorem preparation_files {t : Turn Preparation} {s : St} (h : Safe R s t) :
    Files R s (preparation R u t s) := by
  obtain ⟨others, env, host, args⟩ := t
  cases args with
  | worker a =>
      exact worker_files h.reads h.existing h.publish h.anchor (h.settled a rfl) h.moves
  | developer a => exact developer_files h.reads h.existing h.publish h.anchor h.moves

end

/-! ## Runs -/

/-- The store, and the commits the preparations returned with a series applied. -/
structure Log where
  store : St
  applied : List Commit

/-- A preparation, after what others did. -/
def preparationTurn (R : Repository Commit) (u : Unicode) (σ : Log) (t : Turn Preparation) : Log :=
  let o := preparation R u t (t.others σ.store)
  ⟨o.store, o.applied.toList ++ σ.applied⟩

/-- Others delete and move none of the refs that file a series, and the preparation is
safe. -/
def SafeTurn (R : Repository Commit) (σ : Log) (t : Turn Preparation) : Prop :=
  (∀ r c, B4Ref r → Dict.get? σ.store.refs r = some c →
    Dict.get? (t.others σ.store).refs r = some c) ∧ Safe R (t.others σ.store) t

/-- After the turn every commit returned so far is filed, and the branch the turn returned
is at the commit returned with it. -/
def StaysFiled (R : Repository Commit) (u : Unicode) (σ : Log) (t : Turn Preparation) : Prop :=
  (∀ x ∈ (preparationTurn R u σ t).applied, Filed R (preparationTurn R u σ t).store x) ∧
    ∀ b, (preparation R u t (t.others σ.store)).branch = some b →
      ∃ c, (preparation R u t (t.others σ.store)).applied = some c ∧
        Dict.get? (preparationTurn R u σ t).store.refs (.heads b) = some c

theorem staysFiled {R : Repository Commit} {u : Unicode} {σ : Log} {t : Turn Preparation}
    (hfiled : ∀ x ∈ σ.applied, Filed R σ.store x) (h : SafeTurn R σ t) : StaysFiled R u σ t := by
  have hfiles : Files R (t.others σ.store) (preparation R u t (t.others σ.store)) :=
    preparation_files h.2
  refine ⟨fun x hx => ?_, hfiles.branch⟩
  rcases List.mem_append.mp hx with hnew | hold
  · exact hfiles.applied x (Option.mem_toList.mp hnew)
  · exact hfiles.kept x ((hfiled x hold).of_refs h.1)

/-- The store before: three tags, and no worktree. -/
def threeTags : St where
  refs := [(.tags "v1", "b"), (.tags "v2", "c"), (.tags "v3", "d")]
  places := []
  missing := []
  exclude := []

/-- A build of a tag with the series, which applies at a commit. -/
def seriesTurn (tag : String) (c : Commit) : Turn Preparation :=
  ⟨id, withSeries (.applied c), sampleHost,
    .worker { wipBuild with ref := tag, b4Series := "20240101-fix@host" }⟩

theorem safeTurn_first : SafeTurn sample ⟨threeTags, []⟩ (seriesTurn "v1" "b+series") := by
  refine ⟨fun _ _ _ h => h, ⟨⟨fun _ => rfl, rfl⟩, rfl, rfl, rfl, fun a _ w hw => (by cases hw), ?_⟩⟩
  intro _ c d tip _ htip
  cases htip

end KdevopsNg.Common
