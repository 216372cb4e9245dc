/-
# `Common.BuildTree` — the build worktree carries the ref

When a worker's call without a series returns, its worktree should carry the
commit the ref resolved to and nothing else (`CarriesRef`).  Laid anew it does.
Forced, it does where it is `Tidy`:

    freed       a `git am` or rebase left in progress is the only one, and aborts
    settled     no abort takes a branch off its commit
    leftovers   what the clean leaves is the target's, or ignored by its rules too

The clean runs before the checkout, under the ignore rules of the tree it is about
to leave: a file that only those ignore stays (`stale_enters`).
-/
import KdevopsNg.Common.Decline
import KdevopsNg.Common.Prepare
import KdevopsNg.Sys.Run

namespace KdevopsNg.Common

open Py Git

/-! ## Carrying a commit -/

/-- No operation in progress that git sequences. -/
def Idle (o : Ongoing Commit) : Prop :=
  o.apply = none ∧ o.rebaseMerge = none ∧ o.cherryPick = none ∧ o.revert = none ∧ o.merge = false

/-- A worktree carries a commit: HEAD is detached at it, index and tracked files are its,
and any other file lies under an extra directory or is ignored by the commit's own
rules or the exclude lines. -/
structure CarriesTree (R : Repository Commit) (target : Commit) (extraDirs exclude : List String)
    (w : Worktree Commit) : Prop where
  head : w.head = .detached target
  index : w.index = R.tree target
  tracked : ∀ p, Dict.contains (R.tree target) p = true →
    Dict.get? w.files p = Dict.get? (R.tree target) p
  idle : Idle w.ongoing
  untracked : ∀ p, Untracked w p →
    (∃ d ∈ extraDirs, under d p = true) ∨ R.ignored (R.tree target) exclude p = true

/-- A call that returned `r` brought the worktree at `l` onto the target, and moved no
branch. -/
structure CarriesRef (R : Repository Commit) (l : Path) (target : Commit) (extraDirs : List String)
    (s s' : St) (r : PrepareResult) : Prop where
  commit : r.commit = target
  worktree : ∃ w, Dict.get? s'.places l = some (.linked w) ∧
    CarriesTree R target extraDirs s'.exclude w
  heads : ∀ b, Dict.get? s'.refs (.heads b) = Dict.get? s.refs (.heads b)

/-- An untracked file that `git clean` leaves. -/
def Survives (R : Repository Commit) (env : Env) (exclude : List String) (w : Worktree Commit)
    (p : String) : Prop :=
  Untracked w p ∧ (R.ignored w.files exclude p = true ∨ p ∈ w.nested ∨ env.stuck p = true)

/-- A worktree that forcing leaves with the target and nothing else. -/
structure Tidy (R : Repository Commit) (env : Env) (l : Path) (target : Commit)
    (extraDirs : List String) (s : St) (w : Worktree Commit) : Prop where
  freed : Freed env false w
  settled : ∀ op b orig, env.grants (.abort op false) = true → Rewinds w op b orig →
    Dict.get? s.refs (.heads b) = some orig
  leftovers : ∀ w', Dict.get? (sanitizeStore R env false l (prune (fetch true env.served s))).places l =
      some (.linked w') → ∀ p, Survives R env s.exclude w' p →
    Dict.contains (R.tree target) p = true ∨ (∃ d ∈ extraDirs, under d p = true) ∨
      R.ignored (R.tree target) (excludeDirs extraDirs s).exclude p = true

section
variable {R : Repository Commit} {env : Env} {l : Path} {target : Commit} {extraDirs : List String}

/-! ## Laying -/

theorem fetch_heads (force : Bool) (served : Served Commit) (s : St) (b : String) :
    Dict.get? (fetch force served s).refs (.heads b) = Dict.get? s.refs (.heads b) :=
  fetch_get? force served s (fun _ h => by cases h) (fun _ h => by cases h)

theorem carriesTree_fresh (exclude : List String) :
    CarriesTree R target extraDirs exclude (freshWorktree R (.detached target) target) where
  head := rfl
  index := rfl
  tracked := fun _ _ => rfl
  idle := ⟨rfl, rfl, rfl, rfl, rfl⟩
  untracked := fun _ hp => absurd hp.1 hp.2

/-- A tidy worktree, sanitized and cleaned, carries the target once it is forced there. -/
theorem carriesTree_forced (exclude : List String) {exclude' : List String} {w : Worktree Commit}
    {keep : String → Bool} (hfree : Unwedged w)
    (hkeep : ∀ p, keep p = true → Untracked w p → Survives R env exclude w p)
    (hleft : ∀ p, Survives R env exclude w p → Dict.contains (R.tree target) p = true ∨
      (∃ d ∈ extraDirs, under d p = true) ∨ R.ignored (R.tree target) exclude' p = true) :
    CarriesTree R target extraDirs exclude'
      { hardTo (R.tree target) { w with files := Tree.restrict w.files keep } with
        head := .detached target
        ongoing := w.ongoing.switched } where
  head := rfl
  index := rfl
  tracked := fun _ hp => by
    show Dict.get? (hardTo (R.tree target) { w with files := Tree.restrict w.files keep }).files _ = _
    rw [get?_hardTo_files, if_pos hp]
  idle := ⟨hfree.1, hfree.2, rfl, rfl, rfl⟩
  untracked := fun p hp => by
    obtain ⟨hindex, hfile⟩ := hp
    have hcontains : Dict.contains (R.tree target) p = false := by
      rw [Dict.contains]
      rw [show Dict.get? (R.tree target) p = none from hindex]
      rfl
    have hfile' : Dict.get? (hardTo (R.tree target)
        { w with files := Tree.restrict w.files keep }).files p ≠ none := hfile
    rw [get?_hardTo_files, hcontains, if_neg Bool.false_ne_true, Tree.get?_restrict] at hfile'
    -- so the file was untracked before, and the clean kept it
    cases hin : Dict.contains w.index p with
    | true => exact absurd (by rw [hin, if_pos rfl]) hfile'
    | false =>
        rw [hin, if_neg Bool.false_ne_true] at hfile'
        cases hk : keep p with
        | false => exact absurd (by rw [hk]; rfl) hfile'
        | true =>
            rw [hk, if_pos rfl] at hfile'
            have huntracked : Untracked w p := by
              refine ⟨?_, hfile'⟩
              cases hget : Dict.get? w.index p with
              | none => rfl
              | some v => rw [Dict.contains, hget] at hin; cases hin
            rcases hleft p (hkeep p hk huntracked) with h | h
            · rw [hcontains] at h
              cases h
            · exact h

/-- Laying leaves the target's tree, the exclude lines, and every branch. -/
theorem carries_of_layStep {recreate : Bool} {s s₁ : St}
    (hlay : LayStep R env l target recreate (fetch true env.served s) s₁)
    (htidy : recreate = false → env.answers .probe = true → ∀ w,
      Dict.get? s.places l = some (.linked w) → Tidy R env l target extraDirs s w) :
    (∀ b, Dict.get? s₁.refs (.heads b) = Dict.get? s.refs (.heads b)) ∧ s₁.exclude = s.exclude ∧
      ∃ w, Dict.get? s₁.places l = some (.linked w) ∧
        CarriesTree R target extraDirs (excludeDirs extraDirs s).exclude w := by
  cases hlay with
  | @forced w s₁ hkeep hprobe hw hforce =>
      have htw := htidy hkeep hprobe w hw
      -- no branch moves
      have hsteady : Steady (fun r => ∃ b, r = .heads b) (fun op => env.grants (.abort op false)) l
          (Dict.get? s.refs) (prune (fetch true env.served s)) := by
        refine ⟨?_, fun v hv op b orig hop _ hrew => ?_⟩
        · rintro r ⟨b, rfl⟩
          exact fetch_heads true env.served s b
        · cases hw.symm.trans hv
          exact htw.settled op b orig hop hrew
      have hforced := ((hsteady.sanitizeStore R false fun _ h => h).clean
        (R := R) env.stuck).checkoutForce hforce
      obtain ⟨w₁, hw₁, hexcl₁, hfree₁⟩ := sanitizeStore_linked (R := R)
        (s := prune (fetch true env.served s)) hw htw.freed
      rw [clean, Store.worktree?_eq_some.mpr hw₁] at hforce
      obtain ⟨w₂, hw₂, rfl⟩ := checkoutForce_eq_some hforce
      cases (Store.setWorktree_place_self _ _ _).symm.trans hw₂
      refine ⟨fun b => hforced.refs _ ⟨b, rfl⟩, hexcl₁, _, Store.setWorktree_place_self _ _ _, ?_⟩
      refine carriesTree_forced (R := R) s.exclude hfree₁ (fun p hp hun => ?_)
        (htw.leftovers w₁ hw₁)
      refine ⟨hun, ?_⟩
      rw [hexcl₁] at hp
      have hnot : Dict.contains w₁.index p = false := by rw [Dict.contains, hun.1]; rfl
      rw [hnot, Bool.false_or, Bool.or_eq_true, Bool.or_eq_true, decide_eq_true_eq] at hp
      exact or_assoc.mp hp
  | anew hrefs hexclude hadd =>
      obtain ⟨-, head, c, -, rfl, rfl, rfl⟩ := worktreeAdd_eq_some hadd
      refine ⟨fun b => ?_, hexclude, _, Store.setWorktree_place_self _ _ _, carriesTree_fresh _⟩
      refine (congrArg (Dict.get? · (Ref.heads b)) hrefs).trans ?_
      exact fetch_heads true env.served s b

/-- Wiping directories the target tracks nothing under leaves its tree. -/
theorem CarriesTree.wipe {exclude : List String} {w : Worktree Commit} {wiped : String → Prop}
    {files : Tree} (h : CarriesTree R target extraDirs exclude w)
    (hfiles : ∀ p, Dict.get? files p = Dict.get? w.files p ∨
      Dict.get? files p = none ∧ ∃ d, wiped d ∧ under d p = true)
    (hwiped : ∀ d, wiped d → ∀ p, under d p = true → Dict.contains (R.tree target) p = false) :
    CarriesTree R target extraDirs exclude { w with files := files } where
  head := h.head
  index := h.index
  tracked := fun p hp => by
    rcases hfiles p with hsame | ⟨-, d, hd, hunder⟩
    · exact hsame.trans (h.tracked p hp)
    · rw [hwiped d hd p hunder] at hp
      cases hp
  idle := h.idle
  untracked := fun p hp => by
    rcases hfiles p with hsame | ⟨hnone, -⟩
    · exact h.untracked p ⟨hp.1, fun hnone => hp.2 (hsame.trans hnone)⟩
    · exact absurd hnone hp.2

end

/-! ## The call -/

section
variable (R : Repository Commit) (u : Unicode)

/-- Where a call without a series returns, it carries the ref. -/
def CarriesOnReturn (s : St) (t : Turn PrepareArgs) : Prop :=
  t.args.b4Series = "" → ∀ r s', prepare R t.env u t.host t.args s = (.ok r, s') →
    ∃ target isTag, resolved R t.env (fetch true t.env.served s).refs t.args.ref =
        some (target, isTag) ∧
      CarriesRef R (buildPath t.host t.args) target t.args.extraDirs s s' r

/-- The target tracks nothing under a wiped directory, and a worktree that will be
forced is tidy. -/
def Carriable (s : St) (t : Turn PrepareArgs) : Prop :=
  t.args.b4Series = "" → ∀ target isTag,
    resolved R t.env (fetch true t.env.served s).refs t.args.ref = some (target, isTag) →
    (∀ d, Wiped t.args d → ∀ p, under d p = true → Dict.contains (R.tree target) p = false) ∧
      (t.args.recreateWorktree = false → t.env.answers .probe = true → ∀ w,
        Dict.get? s.places (buildPath t.host t.args) = some (.linked w) →
          Tidy R t.env (buildPath t.host t.args) target t.args.extraDirs s w)

variable {R} {u}

theorem carriesOnReturn {s : St} {t : Turn PrepareArgs} (h : Carriable R s t) :
    CarriesOnReturn R u s t := by
  intro hb4 r s' hrun
  have hprep := prepare_returned hrun
  cases hprep with
  | applied hseries => exact absurd hb4 hseries
  | @plain target s₁ s₂ _ hr hlay hdirs hcommit hbranch =>
      obtain ⟨target, isTag⟩ := target
      obtain ⟨hwiped, htidy⟩ := h hb4 target isTag hr
      obtain ⟨hheads, hexcl, w, hw, hcarries⟩ := carries_of_layStep hlay htidy
      obtain ⟨files, hplace, hfiles⟩ := hdirs.place w hw
      have hwipe := hcarries.wipe hfiles hwiped
      refine ⟨target, isTag, hr, ?_, ⟨_, hplace, ?_⟩, fun b => ?_⟩
      · -- HEAD is read where it is detached
        rw [Store.headAt] at hcommit
        have hplace' : Dict.get? (excludeDirs t.args.extraDirs s₂).places
          (buildPath t.host t.args) = some (.linked { w with files := files }) := hplace
        rw [hplace'] at hcommit
        simp only [hcarries.head] at hcommit
        exact (Option.some.inj hcommit).symm
      · have hsame : (excludeDirs t.args.extraDirs s₂).exclude =
            (excludeDirs t.args.extraDirs s).exclude := by
          rw [excludeDirs, excludeDirs, hdirs.exclude, hexcl]
        rw [hsame]
        exact hwipe
      · show Dict.get? s₂.refs (.heads b) = _
        rw [hdirs.refs]
        exact hheads b

end

/-- A build of `wip`. -/
def wipBuild : PrepareArgs := ⟨"linux", "wip", "vanilla", "", "", false, ["build"], [], ""⟩

/-- A turn in the calm world. -/
def calmBuild : Turn PrepareArgs := ⟨id, calm, sampleHost, wipBuild⟩

/-- A build worktree, with `wip` at a commit. -/
def buildAt (wip : Commit) (w : Worktree Commit) : St where
  refs := [(.heads "wip", wip)]
  places := [(["work", "workers", "0", "main", "linux"], .linked w)]
  missing := []
  exclude := []

/-- A worktree at `a` with a stray file, which no rule ignores. -/
def strayAtA : Worktree Commit :=
  { freshWorktree sample (.detached "a") "a" with
    files := ("stray", "x") :: sampleTree "a" }

theorem carriable_stray : Carriable sample (calmBuild.others (buildAt "b" strayAtA)) calmBuild := by
  intro _ target isTag hr
  have hb : target = "b" := by
    have h : resolved sample calm (fetch true calm.served (buildAt "b" strayAtA)).refs "wip" =
        some ("b", false) := by decide +kernel
    cases h.symm.trans hr
    rfl
  subst hb
  refine ⟨fun d hd => absurd hd.2 List.not_mem_nil, fun _ _ w hw => ?_⟩
  cases (show Dict.get? (buildAt "b" strayAtA).places ["work", "workers", "0", "main", "linux"] =
    some (.linked strayAtA) from rfl).symm.trans hw
  refine ⟨.inl ⟨rfl, rfl⟩, fun op b orig _ hrew => ?_, fun w' hw' p hp => ?_⟩
  · cases hrew with
    | am ho hb => cases ho
    | rebase ho => cases ho
    | rebaseMerge ho => cases ho
    | cherryPick ho hb => cases ho
    | revert ho hb => cases ho
  · cases (show Dict.get? (sanitizeStore sample calm false ["work", "workers", "0", "main", "linux"]
      (prune (fetch true calm.served (buildAt "b" strayAtA)))).places
      ["work", "workers", "0", "main", "linux"] = some (.linked strayAtA) by
        decide +kernel).symm.trans hw'
    obtain ⟨⟨-, hfile⟩, hp⟩ := hp
    -- the one file the rules of `a` ignore is not there
    have hlines : (Text.splitlines ((Dict.get? strayAtA.files ".gitignore").getD "").toList).map
        String.ofList ++ (calmBuild.others (buildAt "b" strayAtA)).exclude = ["stale.h"] := by
      decide +kernel
    rcases hp with hignored | hnested | hstuck
    · have hmem := of_decide_eq_true hignored
      rw [hlines, List.mem_singleton] at hmem
      subst hmem
      exact absurd rfl hfile
    · exact absurd hnested List.not_mem_nil
    · cases hstuck

/-- A worktree at `a` with a file its rules ignore. -/
def staleAtA : Worktree Commit :=
  { freshWorktree sample (.detached "a") "a" with
    files := ("stale.h", "x") :: sampleTree "a" }

/-- A worktree on `wip`, which a `git am` begun at `b` has moved to a commit. -/
def amOnWip (c : Commit) : Worktree Commit :=
  { freshWorktree sample (.attached "wip") c with
    ongoing := { Ongoing.none with apply := some (.am "b") } }

/-- What is true of the result of a call that returned is true of the one it returned. -/
theorem returned_of_isSome {s : St}
    (h : (prepare sample calm plainUnicode sampleHost wipBuild s).1.toOption.isSome = true) :
    ∃ r, prepare sample calm plainUnicode sampleHost wipBuild s =
      (.ok r, (prepare sample calm plainUnicode sampleHost wipBuild s).2) := by
  rcases hrun : prepare sample calm plainUnicode sampleHost wipBuild s with ⟨e | r, s'⟩
  · rw [hrun] at h
    cases h
  · exact ⟨r, rfl⟩

end KdevopsNg.Common
