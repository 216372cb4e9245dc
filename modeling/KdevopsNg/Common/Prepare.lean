/-
# `Common.Prepare` — what a worker's call leaves

`prepare` as one triple: where it returned, the worktree was laid, a series applied
and published, and the extra directories made (`Prepared`); where it raised, no
steady ref has moved, unless the series was already published (`Interrupted`).
-/
import KdevopsNg.Common.Lay

namespace KdevopsNg.Common

open Py Git

section
variable {R : Repository Commit} {env : Env} {l : Path} {P : Ref → Prop} {g : Abort → Bool}
  {β : Ref → Option Commit}

/-! ## The series -/

/-- With HEAD detached only a rebase can put a branch back, and `git am` begins none. -/
theorem Rewinds.of_detached {v w : Worktree Commit} {op : Abort} {b : String} {orig d e : Commit}
    (h : Rewinds v op b orig) (hdet : v.head = .detached d)
    (hongoing : v.ongoing = w.ongoing ∨ v.ongoing = (stalled e w).ongoing) :
    Rewinds w op b orig := by
  cases h with
  | am ho hb => rw [hdet] at hb; cases hb
  | cherryPick ho hb => rw [hdet] at hb; cases hb
  | revert ho hb => rw [hdet] at hb; cases hb
  | rebase ho =>
      rcases hongoing with hsame | hstall
      · exact .rebase (hsame ▸ ho)
      · rw [hstall] at ho
        cases ho
  | rebaseMerge ho =>
      rcases hongoing with hsame | hstall
      · exact .rebaseMerge (hsame ▸ ho)
      · rw [hstall] at ho
        exact .rebaseMerge ho

/-- Patches applied to a detached HEAD move no ref, and leave it detached. -/
theorem Steady.am {s : St} (h : Steady P g l β s) {c : Commit} {w : Worktree Commit}
    (hw : Dict.get? s.places l = some (.linked w)) (hdet : w.head = .detached c)
    (answer : AmAnswer Commit) : Steady P g l β (am R l answer s).2 := by
  have hstep := am_step R l answer s
  generalize (Git.am R l answer s).1 = ok at hstep
  generalize (Git.am R l answer s).2 = s' at hstep ⊢
  cases hstep with
  | refused => exact h
  | @stalled v o hv ho =>
      rw [hw] at hv
      cases hv
      refine h.step (fun _ _ => rfl) fun w' hw' op b orig hrew => ⟨w, hw, ?_⟩
      cases (Store.setWorktree_place_self s l (stalled o w)).symm.trans hw'
      exact hrew.of_detached hdet (.inr rfl)
  | @moved v w' o d ok hv ho hc hclean hhead hindex hfiles hongoing =>
      rw [hw] at hv
      cases hv
      have hadvance : s.advance l w' d = s.setWorktree l { w' with head := .detached d } := by
        rw [Store.advance, hhead, hdet]
      rw [hadvance]
      refine h.step (fun _ _ => rfl) fun v hv op b orig hrew => ⟨w, hw, ?_⟩
      cases (Store.setWorktree_place_self s l { w' with head := .detached d }).symm.trans hv
      exact hrew.of_detached rfl hongoing

/-- A series that applied is at the commit it applied up to. -/
theorem am_headAt {s s' : St} {answer : AmAnswer Commit} (h : am R l answer s = (true, s')) :
    ∃ c w, answer = .applied c ∧ Dict.get? s'.places l = some (.linked w) ∧
      s'.headAt l = some c := by
  rw [am] at h
  cases hw : s.worktree? l with
  | none => rw [hw] at h; cases h
  | some w =>
      simp only [hw] at h
      cases ha : w.ongoing.apply with
      | some a => simp only [ha] at h; cases h
      | none =>
          cases hh : headCommit s.refs w.head with
          | none => simp only [ha, hh] at h; cases h
          | some o =>
              simp only [ha, hh] at h
              cases answer with
              | refused => cases h
              | applied c =>
                  by_cases hok : R.Reaches c o ∧ Applies R s w (R.tree o) (R.tree c)
                  · simp only [decide_eq_true hok, if_true] at h
                    cases h
                    obtain ⟨head, hplace, hcommit, -⟩ :=
                      advance_place_self s l (rewrite (R.tree o) (R.tree c) w) c
                    refine ⟨c, _, rfl, hplace, ?_⟩
                    rw [Store.headAt, hplace]
                    exact hcommit
                  · simp only [decide_eq_false hok, Bool.false_eq_true, if_false] at h
                    cases h
              | stopped c =>
                  by_cases hok : R.Reaches c o ∧ Applies R s w (R.tree o) (R.tree c)
                  · simp only [decide_eq_true hok, if_true] at h
                    cases h
                  · simp only [decide_eq_false hok, Bool.false_eq_true, if_false] at h
                    cases h

theorem applyStore_headAt {s s' : St} (h : applyStore R env l s = (true, s')) :
    ∃ c w, env.series.am = .applied c ∧ Dict.get? s'.places l = some (.linked w) ∧
      s'.headAt l = some c := by
  rw [applyStore] at h
  cases hd : env.series.downloaded && !env.series.mboxes.isEmpty with
  | false => rw [hd] at h; cases h
  | true =>
      rw [hd, if_pos rfl] at h
      exact am_headAt h

variable (R env) in
theorem Steady.applyStore {s : St} (h : Steady P g l β s) {c : Commit} {w : Worktree Commit}
    (hw : Dict.get? s.places l = some (.linked w)) (hdet : w.head = .detached c) :
    Steady P g l β (applyStore R env l s).2 := by
  rw [Common.applyStore]
  cases env.series.downloaded && !env.series.mboxes.isEmpty with
  | false => exact h
  | true => exact h.am hw hdet env.series.am

/-- The series of a worker's call: none asked for, failed and cleaned up, or applied and
published. -/
theorem workerSeries_triple (hg : ∀ op again, env.grants (.abort op again) = true → g op = true)
    (u : Unicode) (b4Series : String) {s : St} (hs : Steady P g l β s) {c : Commit}
    {w : Worktree Commit} (hw : Dict.get? s.places l = some (.linked w))
    (hdet : w.head = .detached c) :
    Exec.Triple (fun s₀ => s₀ = s) (workerSeries R env u l b4Series)
      (fun out s' => b4Series = "" ∧ out.1 = none ∧ s' = s ∨
        b4Series ≠ "" ∧ ∃ s₂, applyStore R env l s = (true, s₂) ∧
          out.1 = (publishStore env l b4Series s₂).1 ∧ s' = (publishStore env l b4Series s₂).2)
      (Steady P g l β) := by
  rintro s₀ rfl
  rw [workerSeries]
  by_cases hb4 : b4Series = ""
  · rw [if_pos hb4]
    exact .inl ⟨hb4, rfl, rfl⟩
  · rw [if_neg hb4]
    have happly := applyB4Series_eval R env l u s₀
    have hsteady := hs.applyStore R env hw hdet
    cases hrun : applyStore R env l s₀ with
    | mk ok s₂ =>
        rw [hrun] at happly hsteady
        cases ok with
        | true =>
            obtain ⟨label, hlabel⟩ := happly
            have hon : onError (applyB4Series R env u l) (sanitizeWorktree R env true l) s₀ =
                (.ok label, s₂) := by rw [onError, hlabel]
            rw [Exec.bind_ok _ hon, Exec.bind_ok _ (publishB4Branch_eval env l b4Series s₂)]
            exact .inr ⟨hb4, s₂, rfl, rfl, rfl⟩
        | false =>
            obtain ⟨e, he⟩ := happly
            have hon : onError (applyB4Series R env u l) (sanitizeWorktree R env true l) s₀ =
                (.error e, sanitizeStore R env true l s₂) := by
              rw [onError, he]
              simp only [sanitizeWorktree_eval]
            rw [Exec.bind_error _ hon]
            exact hsteady.sanitizeStore R true fun op => hg op true

/-! ## The extra directories -/

/-- What making the extra directories leaves: files may be gone under those that were
wiped. -/
structure Furnished (l : Path) (wiped : String → Prop) (s s' : St) : Prop where
  refs : s'.refs = s.refs
  exclude : s'.exclude = s.exclude
  place : ∀ w, Dict.get? s.places l = some (.linked w) → ∃ files,
    Dict.get? s'.places l = some (.linked { w with files := files }) ∧
      ∀ p, Dict.get? files p = Dict.get? w.files p ∨
        Dict.get? files p = none ∧ ∃ d, wiped d ∧ under d p = true

theorem Furnished.refl (l : Path) (wiped : String → Prop) (s : St) : Furnished l wiped s s :=
  ⟨rfl, rfl, fun w hw => ⟨w.files, hw, fun _ => .inl rfl⟩⟩

theorem Furnished.trans {wiped : String → Prop} {s s₁ s₂ : St} (h₁ : Furnished l wiped s s₁)
    (h₂ : Furnished l wiped s₁ s₂) : Furnished l wiped s s₂ where
  refs := h₂.refs.trans h₁.refs
  exclude := h₂.exclude.trans h₁.exclude
  place := fun w hw => by
    obtain ⟨f₁, hf₁, hsame₁⟩ := h₁.place w hw
    obtain ⟨f₂, hf₂, hsame₂⟩ := h₂.place _ hf₁
    refine ⟨f₂, hf₂, fun p => ?_⟩
    rcases hsame₂ p with hkeep | hgone
    · rcases hsame₁ p with hkeep₁ | ⟨hnone, hd⟩
      · exact .inl (hkeep.trans hkeep₁)
      · exact .inr ⟨hkeep.trans hnone, hd⟩
    · exact .inr hgone

theorem Furnished.headAt {wiped : String → Prop} {s s' : St} (h : Furnished l wiped s s')
    {w : Worktree Commit} (hw : Dict.get? s.places l = some (.linked w)) :
    s'.headAt l = s.headAt l := by
  obtain ⟨files, hplace, -⟩ := h.place w hw
  rw [Store.headAt, Store.headAt, hplace, hw]
  show headCommit s'.refs w.head = headCommit s.refs w.head
  rw [h.refs]

/-- An extra directory that is wiped before it is made. -/
def wipeDir (l : Path) (d : String) (s : St) : St :=
  match s.worktree? l with
  | some w => s.setWorktree l { w with files := Tree.restrict w.files fun p => !under d p }
  | none => s

theorem extraDir_triple {wiped : String → Prop} {wipeDirs : List String} {d : String}
    (hd : d ∈ wipeDirs → wiped d) (s : St) :
    Exec.Triple (Furnished l wiped s) (extraDir l wipeDirs d) (fun _ => Furnished l wiped s)
      (Furnished l wiped s) := by
  have hmake : Exec.Triple (Furnished l wiped s) (do
      let files ← Exec.look fun s => ((s.worktree? l).map (·.files)).getD []
      if Dict.contains files d then Exec.raise .fileExistsError
      else if (Dict.keys files).any fun p => under p d then Exec.raise .notADirectoryError
      else pure ()) (fun _ => Furnished l wiped s) (Furnished l wiped s) := by
    refine Exec.triple_bind (M := fun _ => Furnished l wiped s) (Exec.triple_look fun _ h => h)
      fun files => Exec.triple_ite (fun _ => Exec.triple_raise fun _ h => h) fun _ =>
        Exec.triple_ite (fun _ => Exec.triple_raise fun _ h => h) fun _ =>
          Exec.triple_pure fun _ h => h
  have hwipe : d ∈ wipeDirs → ∀ s₁, Furnished l wiped s s₁ → Furnished l wiped s (wipeDir l d s₁) := by
    intro hwiped s₁ h₁
    refine h₁.trans ?_
    rw [wipeDir]
    cases hw : s₁.worktree? l with
    | none => exact Furnished.refl l wiped s₁
    | some w =>
        refine ⟨rfl, rfl, fun v hv => ?_⟩
        rw [Store.worktree?_eq_some.mp hw] at hv
        cases hv
        refine ⟨_, Store.setWorktree_place_self _ _ _, fun p => ?_⟩
        rw [Tree.get?_restrict]
        cases hp : under d p with
        | true => exact .inr ⟨rfl, d, hd hwiped, hp⟩
        | false => exact .inl rfl
  by_cases hdir : d ∈ wipeDirs
  · have hbody : extraDir l wipeDirs d = (do
        Exec.modify (wipeDir l d)
        let files ← Exec.look fun s => ((s.worktree? l).map (·.files)).getD []
        if Dict.contains files d then Exec.raise .fileExistsError
        else if (Dict.keys files).any fun p => under p d then Exec.raise .notADirectoryError
        else pure ()) := if_pos hdir
    rw [hbody]
    exact Exec.triple_bind (M := fun _ => Furnished l wiped s)
      (Exec.triple_modify (hwipe hdir)) fun _ => hmake
  · have hbody : extraDir l wipeDirs d = (do
        let files ← Exec.look fun s => ((s.worktree? l).map (·.files)).getD []
        if Dict.contains files d then Exec.raise .fileExistsError
        else if (Dict.keys files).any fun p => under p d then Exec.raise .notADirectoryError
        else pure ()) := if_neg hdir
    rw [hbody]
    exact hmake

theorem makeExtraDirs_triple {wiped : String → Prop} {wipeDirs extraDirs : List String}
    (hd : ∀ d ∈ extraDirs, d ∈ wipeDirs → wiped d) (s : St) :
    Exec.Triple (Furnished l wiped s) (makeExtraDirs l wipeDirs extraDirs)
      (fun _ => Furnished l wiped s) (Furnished l wiped s) := by
  induction extraDirs with
  | nil => exact Exec.triple_pure fun _ h => h
  | cons d ds ih =>
      exact Exec.triple_bind (M := fun _ => Furnished l wiped s)
        (extraDir_triple (hd d List.mem_cons_self) s)
        fun _ => ih fun e he => hd e (List.mem_cons_of_mem d he)

end

/-! ## The whole call -/

section
variable (R : Repository Commit) (env : Env) (host : BuildHost) (a : PrepareArgs)

/-- An extra directory that is wiped. -/
def Wiped (d : String) : Prop := d ∈ a.extraDirs ∧ d ∈ a.wipeDirs

/-- A worker's call returned `r`: its ref resolved, the worktree was laid, the series
applied and published when there is one, and the extra directories made. -/
inductive Prepared (s : St) (r : PrepareResult) : St → Prop where
  | plain {t : Commit × Bool} {s₁ s₂ : St} (hb4 : a.b4Series = "")
      (hr : resolved R env (fetch true env.served s).refs a.ref = some t)
      (hlay : LayStep R env (buildPath host a) t.1 a.recreateWorktree
        (fetch true env.served s) s₁)
      (hdirs : Furnished (buildPath host a) (Wiped a) s₁ s₂)
      (hcommit : (excludeDirs a.extraDirs s₂).headAt (buildPath host a) = some r.commit)
      (hbranch : r.b4Branch = none) : Prepared s r (excludeDirs a.extraDirs s₂)
  | applied {t : Commit × Bool} {s₁ s₂ s₃ : St} (hb4 : a.b4Series ≠ "")
      (hr : resolved R env (fetch true env.served s).refs a.ref = some t)
      (hlay : LayStep R env (buildPath host a) t.1 a.recreateWorktree
        (fetch true env.served s) s₁)
      (happly : applyStore R env (buildPath host a) s₁ = (true, s₂))
      (hdirs : Furnished (buildPath host a) (Wiped a)
        (publishStore env (buildPath host a) a.b4Series s₂).2 s₃)
      (hcommit : (excludeDirs a.extraDirs s₃).headAt (buildPath host a) = some r.commit)
      (hbranch : r.b4Branch = (publishStore env (buildPath host a) a.b4Series s₂).1) :
      Prepared s r (excludeDirs a.extraDirs s₃)

/-- A worker's call published its series. -/
structure Published (s s' : St) (s₁ s₂ : St) (t : Commit × Bool) : Prop where
  series : a.b4Series ≠ ""
  lay : LayStep R env (buildPath host a) t.1 a.recreateWorktree (fetch true env.served s) s₁
  apply : applyStore R env (buildPath host a) s₁ = (true, s₂)
  refs : s'.refs = (publishStore env (buildPath host a) a.b4Series s₂).2.refs

end

section
variable {R : Repository Commit} {env : Env} {host : BuildHost} {a : PrepareArgs}
  {P : Ref → Prop} {g : Abort → Bool} {β : Ref → Option Commit}

/-- Where a worker's call raised, the steady refs are as they were, or its series was
published. -/
def Interrupted (R : Repository Commit) (env : Env) (host : BuildHost) (a : PrepareArgs)
    (P : Ref → Prop) (β : Ref → Option Commit) (s s' : St) : Prop :=
  (∀ r, P r → Dict.get? s'.refs r = β r) ∨ ∃ s₁ s₂ t, Published R env host a s s' s₁ s₂ t

theorem readVersion_eval (l : Path) (versionFile : String) (s : St) :
    ∃ version, readVersion l versionFile s = (.ok version, s) := by
  rw [readVersion, Exec.look_bind]
  cases (s.worktree? l).bind fun w => Dict.get? w.files versionFile with
  | none => exact ⟨_, rfl⟩
  | some text => exact ⟨_, rfl⟩

/-- Past its series a call makes the extra directories, then reads HEAD. -/
theorem finish_triple {E : St → Prop} (label : String) (isTag : Bool) (branch : Option String)
    {s : St}
    (hE : ∀ s', s'.refs = s.refs → E s') :
    Exec.Triple (fun s₀ => s₀ = s) (do
      makeExtraDirs (buildPath host a) a.wipeDirs a.extraDirs
      Exec.modify (excludeDirs a.extraDirs)
      let head ← headOf env .final (buildPath host a)
      match head with
      | none => Exec.raise (.calledProcessError "git rev-parse HEAD")
      | some commit =>
          let version ← if a.versionFile = "" then pure none
            else do
              let version ← readVersion (buildPath host a) a.versionFile
              pure (some version)
          return ({
            project := a.project, worktreeGroup := "main", worker := host.workerIndex, ref := a.ref
            commit := commit, worktree := buildPath host a
            label := computeLabel a.label a.b4Series label isTag a.ref
            b4Series := if a.b4Series = "" then none else some a.b4Series
            b4Branch := branch
            buildDir := if "build" ∈ a.extraDirs then some (buildPath host a ++ ["build"]) else none
            destdir := if "destdir" ∈ a.extraDirs then some (buildPath host a ++ ["destdir"])
              else none
            version := version } : PrepareResult))
      (fun r s' => r.b4Branch = branch ∧ s'.headAt (buildPath host a) = some r.commit ∧
        ∃ s₁, Furnished (buildPath host a) (Wiped a) s s₁ ∧ s' = excludeDirs a.extraDirs s₁) E := by
  refine Exec.triple_bind (M := fun _ => Furnished (buildPath host a) (Wiped a) s)
    ((makeExtraDirs_triple (fun d hd hw => ⟨hd, hw⟩) s).weaken ?_ (fun _ _ h => h)
      fun s' h => hE s' h.refs) fun _ =>
    Exec.triple_bind (M := fun _ s' => ∃ s₁, Furnished (buildPath host a) (Wiped a) s s₁ ∧
      s' = excludeDirs a.extraDirs s₁) (Exec.triple_modify fun s₁ h => ⟨s₁, h, rfl⟩) fun _ =>
      Exec.triple_bind (M := fun head s' => (head = ask env (.head .final)
        (s'.headAt (buildPath host a))) ∧ ∃ s₁, Furnished (buildPath host a) (Wiped a) s s₁ ∧
        s' = excludeDirs a.extraDirs s₁) (triple_query fun s' h => ⟨rfl, h⟩) fun head => ?_
  · rintro s₀ rfl
    exact Furnished.refl _ _ _
  · cases head with
    | none =>
        refine Exec.triple_raise ?_
        rintro s' ⟨-, s₁, hs₁, rfl⟩
        exact hE _ hs₁.refs
    | some commit =>
        rintro s' ⟨hhead, s₁, hs₁, rfl⟩
        have hcommit := ask_eq_some hhead.symm
        by_cases hv : a.versionFile = ""
        · simp only [hv, if_true]
          exact ⟨rfl, hcommit, s₁, hs₁, rfl⟩
        · simp only [hv, if_false]
          obtain ⟨version, hversion⟩ := readVersion_eval (buildPath host a) a.versionFile
            (excludeDirs a.extraDirs s₁)
          rw [Exec.bind_ok _ hversion]
          exact ⟨rfl, hcommit, s₁, hs₁, rfl⟩

variable (R env host a) in
/-- A worker's call returns past a `Prepared`, or raises past an `Interrupted`. -/
theorem prepare_triple (hP : ∀ r, P r → (∀ n, r ≠ .remotes n) ∧ ∀ n, r ≠ .tags n)
    (hg : ∀ op again, env.grants (.abort op again) = true → g op = true) (u : Unicode) {s : St}
    (hs : Steady P g (buildPath host a) β s) :
    Exec.Triple (fun s₀ => s₀ = s) (prepare R env u host a) (fun r => Prepared R env host a s r)
      (Interrupted R env host a P β s) := by
  have hfetch : Steady P g (buildPath host a) β (fetch true env.served s) :=
    hs.of_place (fun r hr => fetch_get? true env.served s (hP r hr).1 (hP r hr).2) rfl
  have hlift : ∀ (x : Except PyError Unit) {α : Type} (f : Exec St α) (Q : α → St → Prop),
      Exec.Triple (fun s₀ => s₀ = s) f Q (Interrupted R env host a P β s) →
      Exec.Triple (fun s₀ => s₀ = s) (Exec.lift x >>= fun _ => f) Q
        (Interrupted R env host a P β s) := by
    intro x α f Q hf
    refine Exec.triple_bind (M := fun _ s₀ => s₀ = s) (Exec.triple_lift (fun _ _ h => h) ?_) fun _ => hf
    rintro s₀ rfl
    exact .inl hs.refs
  refine hlift _ _ _ (hlift _ _ _ (hlift _ _ _ ?_))
  refine Exec.triple_bind (M := fun _ s₁ => s₁ = fetch true env.served s) (Exec.triple_modify ?_)
    fun _ => Exec.triple_bind (M := fun t s₁ => s₁ = fetch true env.served s ∧
      resolved R env s₁.refs a.ref = some t) ?_ ?_
  · rintro s₀ rfl
    rfl
  · rintro s₁ rfl
    rcases resolveRef_eval R env (bareOf host a.project) a.ref (fetch true env.served s) with
      ⟨t, ht, hrun⟩ | ⟨-, e, hrun⟩
    · rw [hrun]
      exact ⟨rfl, ht⟩
    · rw [hrun]
      exact .inl hfetch.refs
  · rintro ⟨target, isTag⟩ s₁ ⟨rfl, ht⟩
    have hlay : Exec.Triple (fun s₁ => s₁ = fetch true env.served s)
        (layWorktree R env (buildPath host a) target a.recreateWorktree) _ _ :=
      layWorktree_triple (fun op => hg op false) hfetch
    refine Exec.triple_bind (hlay.weaken (fun _ h => h) (fun _ _ h => h) fun _ h => .inl h.refs)
      (fun _ s₂ hs₂ => ?_) _ rfl
    have hsteady := hs₂.steady (fun op => hg op false) hfetch
    obtain ⟨w, hw, hdet⟩ := hs₂.detached
    refine Exec.triple_bind ((workerSeries_triple hg u a.b4Series hsteady hw hdet).weaken
      (fun _ h => h) (fun _ _ h => h) fun _ h => .inl h.refs) ?_ s₂ rfl
    rintro ⟨branch, label⟩ s₃ hs₃
    rcases hs₃ with ⟨hb4, hbranch, rfl⟩ | ⟨hb4, s₄, happly, hbranch, rfl⟩
    · refine ((finish_triple label isTag branch fun s' hs' => ?_).weaken (fun _ h => h)
        (fun r s' h => ?_) fun _ h => h) s₃ rfl
      · exact .inl fun r hr => by rw [hs']; exact hsteady.refs r hr
      · obtain ⟨hr, hcommit, s₅, hs₅, rfl⟩ := h
        exact .plain hb4 ht hs₂ hs₅ hcommit (hr.trans hbranch)
    · refine ((finish_triple label isTag branch fun s' hs' => ?_).weaken (fun _ h => h)
        (fun r s' h => ?_) fun _ h => h) _ rfl
      · exact .inr ⟨s₂, s₄, (target, isTag), hb4, hs₂, happly, hs'⟩
      · obtain ⟨hr, hcommit, s₅, hs₅, rfl⟩ := h
        exact .applied hb4 ht hs₂ happly hs₅ hcommit (hr.trans hbranch)

theorem prepare_returned {u : Unicode} {s s' : St} {r : PrepareResult}
    (h : prepare R env u host a s = (.ok r, s')) : Prepared R env host a s r s' := by
  have hsteady : Steady (fun _ => False) (fun _ => true) (buildPath host a) (fun _ => none) s :=
    ⟨fun _ h => h.elim, fun _ _ _ _ _ _ h => h.elim⟩
  exact (prepare_triple R env host a (fun _ h => h.elim) (fun _ _ _ => rfl) u hsteady).of_ok rfl h

end

end KdevopsNg.Common
