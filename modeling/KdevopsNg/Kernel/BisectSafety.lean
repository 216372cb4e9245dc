/-
# `Kernel.BisectSafety` — runs of the bisect step

A run is a reset followed by any number of calls with the same arguments.  Each
call brings its own git and its own host (`Call`), so nothing is assumed of the
reports written between two calls or of what git answers.

    safe_step    one call keeps every written state a safe session
    run_safe     so every written state of a run is one, and every call of the
                 run that does not start over raises before the write or
                 appends exactly one iteration

Two promises one could expect do not hold, and `run_unsafe` shows a run for
each: a state in phase `verify_bad` can hold a good iteration, the one that
ended the session as not reproducible; and a call that raises on a malformed
report appends nothing.
-/
import KdevopsNg.Sys.Run
import KdevopsNg.Kernel.BisectRefine

namespace KdevopsNg.Kernel

open Py Py.Exec Sys

section
variable {γ : Type}

/-- A call's surroundings: the git it runs and what it reads of the host. -/
structure Call (γ : Type) where
  git : Git γ
  env : Env

/-- The world after a call. -/
def callStep (a : Args) (w : World γ) (c : Call γ) : World γ := (main c.git c.env a w).2

/-- The state on disk, if any, is a session of the arguments `a` that satisfies
`P`. -/
def Written (a : Args) (P : Session → Prop) (w : World γ) : Prop :=
  ∀ text, w.stateFile = some text → ∃ s t, text = s.encode a t ∧ P s

/-- What a recorded decision adds to a session: one iteration about the phase
and candidate before the call, and a first bad commit only when git named it. -/
structure AppendsOne (c : Call γ) (w : World γ) (s s' : Session) : Prop where
  iteration : ∃ v, s'.iterations = s.iterations ++ [⟨s.phase, s.candidate, v⟩]
  firstBad : ∀ sha, s'.outcome = some (.firstBadFound sha) → s.phase = .bisect ∧
    ∃ v out, s'.iterations = s.iterations ++ [⟨s.phase, s.candidate, v⟩] ∧
      (c.git.bisectFeed w.repo v.name s.candidate).1 = some out ∧ namesFirstBad out = true

/-- What is promised of one call: unless it starts over, it raises and leaves the
state on disk as it was, or appends one iteration to it. -/
def StepSafe (a : Args) (w : World γ) (c : Call γ) : Prop :=
  isReset c.env a w = false → ∀ s t, w.stateFile = some (s.encode a t) →
    ((∃ e, (main c.git c.env a w).1 = .error e) ∧ (callStep a w c).stateFile = w.stateFile) ∨
    ∃ s', (callStep a w c).stateFile = some (s'.encode a c.env.now) ∧ AppendsOne c w s s'

/-- A decision names a first bad commit only on the feed's output. -/
theorem next_appendsOne (c : Call γ) (w : World γ) {s : Session} (maxSteps : ℤ) {v : Verdict}
    {ans : Answer} (ho : s.outcome = none) (hask : (s.ask c.git v w.repo).1 = some ans) :
    AppendsOne c w s (s.next maxSteps v ans) := by
  refine ⟨⟨v, rfl⟩, fun sha hsha => ?_⟩
  have hd := s.decided_spec maxSteps v ans
  have hout : (s.decided maxSteps v ans).outcome = some (.firstBadFound sha) := hsha
  generalize s.decided maxSteps v ans = s' at hd hout
  cases hd with
  | endpoint o _ _ _ hne => exact absurd (Option.some.inj hout) (hne sha)
  | badFails => simp [ho] at hout
  | goodPasses => simp [ho] at hout
  | goesOn => simp [ho] at hout
  | ended o hp hfirst =>
      simp only [Session.ask, hp] at hask
      exact ⟨hp, v, ans.out, rfl, (askFeed_some hask).2.1, hfirst sha (Option.some.inj hout)⟩

theorem stepSafe (a : Args) (w : World γ) (c : Call γ) : StepSafe a w c := by
  intro hr s t hw
  have hadv := main_advance c.git c.env a a t s w hw hr
  unfold callStep
  generalize main c.git c.env a w = res at hadv ⊢
  cases hadv with
  | unread e => exact .inl ⟨⟨e, rfl⟩, rfl⟩
  | refused v e hask ho => exact .inl ⟨⟨e, rfl⟩, rfl⟩
  | recorded v ans x hv hask hagree ho =>
      exact .inr ⟨_, rfl, next_appendsOne c w a.maxSteps ho hask⟩

/-- With no state on disk a call starts over, unless it raises at once. -/
theorem callStep_of_none {a : Args} {w : World γ} {c : Call γ} (hw : w.stateFile = none)
    (hr : isReset c.env a w = false) : callStep a w c = w := by
  unfold callStep
  cases hst : start c.env a w with
  | error e => rw [main_of_start_error _ _ _ _ hst]
  | ok st =>
      have htest := start_stale hst
      have hstale : st.stale = false := by simpa [isReset, hst] using hr
      rw [hstale, World.state, hw] at htest
      cases htest

/-- The step lemma: a call keeps the machine's invariant of the state on disk. -/
theorem written_step (a : Args) (w : World γ) (c : Call γ)
    (h : Written a (Session.Inv a.maxSteps) w) :
    Written a (Session.Inv a.maxSteps) (callStep a w c) := by
  intro text htext
  cases hr : isReset c.env a w with
  | true =>
      rcases main_reset c.git c.env a w hr with hnone | ⟨goodSha, badSha, hsome⟩
      · rw [callStep, hnone] at htext; cases htext
      · rw [callStep, hsome] at htext
        exact ⟨_, _, (Option.some.inj htext).symm, Session.initial_inv _ _ _⟩
  | false =>
      cases hw : w.stateFile with
      | none => rw [callStep_of_none hw hr, hw] at htext; cases htext
      | some old =>
          obtain ⟨s, t, rfl, hinv⟩ := h old hw
          have hadv := main_advance c.git c.env a a t s w hw hr
          unfold callStep at htext
          generalize main c.git c.env a w = res at hadv htext
          cases hadv with
          | unread e => exact h text htext
          | refused v e hask ho => exact h text htext
          | recorded v ans x hv hask hagree ho =>
              exact ⟨_, _, (Option.some.inj htext).symm, Session.next_inv hinv ho v ans⟩

/-- In every run from a reset, every state written is a safe session, and every
call that does not start over appends exactly one iteration unless it raises
before the write. -/
theorem run_safe (a : Args) (w₀ : World γ) (c₀ : Call γ) (hreset : isReset c₀.env a w₀ = true)
    (cs : List (Call γ)) :
    Written a (Session.Safe a.maxSteps) (run (callStep a) (callStep a w₀ c₀) cs) ∧
      Along (callStep a) (StepSafe a) (callStep a w₀ c₀) cs := by
  have hstart : Written a (Session.Inv a.maxSteps) (callStep a w₀ c₀) := by
    intro text htext
    rcases main_reset c₀.git c₀.env a w₀ hreset with hnone | ⟨goodSha, badSha, hsome⟩
    · rw [callStep, hnone] at htext; cases htext
    · rw [callStep, hsome] at htext
      exact ⟨_, _, (Option.some.inj htext).symm, Session.initial_inv _ _ _⟩
  refine ⟨fun text htext => ?_, ?_⟩
  · obtain ⟨s, t, rfl, hinv⟩ := run_inv (written_step a) cs hstart text htext
    exact ⟨s, t, rfl, hinv.safe⟩
  · exact along_of_forall (stepSafe a) _ cs

end

/-! ## A run -/

/-- A git whose clone is the list of the verdicts fed to it, and which always
names the same candidate. -/
def plainGit : Git (List (String × String)) where
  rmtree _ := []
  clone r := (true, r)
  revParse _ ref := some ref
  updateRef r _ := (true, r)
  symbolicRef r := (true, r)
  bisectStart _ _ _ := (true, [])
  bisectFeed r verdict sha := (some "Bisecting", r ++ [(verdict, sha)])
  bisectHead _ := some "c"

/-- A bisect of one kunit suite. -/
def plainArgs : Args where
  vmName := "vm"
  good := "v1"
  bad := "v2"
  suites := ["s"]
  maxSteps := 20
  payload := "kunit"
  errorRe := ""
  maxRuntime := 0
  compiler := "gcc"
  makeFlags := ""
  guest := .null

/-- A call at the time `now`, with at most one kunit report on disk, written
just before it. -/
def plainCall (now : ℚ) (report : Option Json) : Call (List (String × String)) where
  git := plainGit
  env := {
    host := ⟨["sys"], ["workers"]⟩
    gitBin := true
    disk := match report with
      | none => []
      | some r => [(["workers", "shared", "kunit", "vm", "report.json"], ⟨now - 1 / 2, some r⟩)]
    now := now
    readInt := fun _ => none
    readFloat := fun _ => none }

/-- A report without items. -/
def statusReport (status : String) : Json := .obj [("status", .str status)]

theorem run_safe_plain :
    Written plainArgs (Session.Safe 20)
      (run (callStep plainArgs) (callStep plainArgs ⟨none, []⟩ (plainCall 1 none))
        [plainCall 2 (some (statusReport "failed"))]) ∧
    Along (callStep plainArgs) (StepSafe plainArgs)
      (callStep plainArgs ⟨none, []⟩ (plainCall 1 none))
      [plainCall 2 (some (statusReport "failed"))] :=
  run_safe plainArgs ⟨none, []⟩ (plainCall 1 none) (by decide) _

/-- A bad endpoint that passes leaves phase `verify_bad` with a good iteration;
and a call that is no reset appends nothing when the report it reads is
malformed. -/
theorem run_unsafe :
    (∃ (s : Session) (t : ℚ), (run (callStep plainArgs) ⟨none, []⟩
        [plainCall 1 none, plainCall 2 (some (statusReport "passed"))]).stateFile =
          some (s.encode plainArgs t) ∧
      s.phase = .verifyBad ∧ ∃ i ∈ s.iterations, i.verdict = .good) ∧
    (∃ (s : Session) (t : ℚ), let a := { plainArgs with maxRuntime := 1 }
      let w := callStep a ⟨none, []⟩ (plainCall 1 none)
      let c := plainCall 2 (some (.obj [("status", .str "passed"), ("items", .arr [.null])]))
      isReset c.env a w = false ∧
        w.stateFile = some (s.encode a t) ∧ (callStep a w c).stateFile = some (s.encode a t) ∧
        s.iterations = []) := by
  refine ⟨⟨⟨"v1", "v2", .verifyBad, "v2", 0, [⟨.verifyBad, "v2", .good⟩],
    some .notReproducibleStandalone⟩, 2, ?_, rfl, by simp⟩,
    ⟨Session.initial "v1" "v2", 1, ?_, ?_, ?_, rfl⟩⟩
  all_goals decide +kernel

end KdevopsNg.Kernel
