/-
# `Kernel.BisectMachine` — the bisect as a state machine

What the bisect step is for, without files, JSON or git: a session tests the bad
endpoint, then the good one, then whatever candidate git names, and every
decision is a verdict together with git's answer to it (`Answer`).

    verifyBad    good → ends   bad → verifyGood      skip → ends
    verifyGood   good → bisect, or ends when git names no candidate
                 bad → ends    skip → ends
    bisect       git names the first bad commit → ends
                 git names no candidate, or the steps are used up → ends
                 otherwise the named candidate is next

`Session.Safe` is what holds in every state of a session: the phase fixes how the
recorded iterations begin, the counter counts the bisect iterations, and a
session that has not ended has decisions left.  `Session.next_safe` is its step
lemma.  That `main` runs this machine is proved in `Kernel.BisectRefine`.
-/
import Mathlib.Tactic.Linarith
import KdevopsNg.Kernel.BisectStep

namespace KdevopsNg.Kernel

open Py

/-- The phase of a session. -/
inductive Phase where
  | verifyBad
  | verifyGood
  | bisect
  deriving DecidableEq, Repr

/-- How `state.json` spells the phase. -/
def Phase.name : Phase → String
  | .verifyBad => "verify_bad"
  | .verifyGood => "verify_good"
  | .bisect => "bisect"

/-- How a session ends. -/
inductive Outcome where
  | notReproducibleStandalone
  | endpointUntestable
  | goodEndpointFailed
  | inconclusive
  | maxStepsExceeded
  | firstBadFound (sha : String)
  deriving DecidableEq, Repr

/-- How `state.json` spells the outcome. -/
def Outcome.name : Outcome → String
  | .notReproducibleStandalone => "not_reproducible_standalone"
  | .endpointUntestable => "endpoint_untestable"
  | .goodEndpointFailed => "good_endpoint_failed"
  | .inconclusive => "inconclusive"
  | .maxStepsExceeded => "max_steps_exceeded"
  | .firstBadFound _ => "first_bad_found"

/-- A recorded decision: the phase and candidate it was about, and the verdict. -/
structure Iteration where
  phase : Phase
  candidate : String
  verdict : Verdict
  deriving DecidableEq, Repr

/-- The state of a bisect between two calls. -/
structure Session where
  goodSha : String
  badSha : String
  phase : Phase
  candidate : String
  steps : ℕ
  iterations : List Iteration
  outcome : Option Outcome
  deriving DecidableEq, Repr

/-- Git's answer to a decision: what `git bisect` printed, and the commit
`BISECT_HEAD` then names, the empty text for none. -/
structure Answer where
  out : String
  head : String

namespace Session

/-- The session of two endpoints, at its start. -/
def initial (goodSha badSha : String) : Session :=
  ⟨goodSha, badSha, .verifyBad, badSha, 0, [], none⟩

/-- The decision a verdict brings, given git's answer to it. -/
def decided (maxSteps : ℤ) (v : Verdict) (ans : Answer) (s : Session) : Session :=
  match s.phase, v with
  | .verifyBad, .good => { s with outcome := some .notReproducibleStandalone }
  | .verifyBad, .bad => { s with phase := .verifyGood, candidate := s.goodSha }
  | .verifyBad, .skip => { s with outcome := some .endpointUntestable }
  | .verifyGood, .good =>
      if ans.head ≠ "" then { s with phase := .bisect, candidate := ans.head }
      else { s with outcome := some .inconclusive }
  | .verifyGood, .bad => { s with outcome := some .goodEndpointFailed }
  | .verifyGood, .skip => { s with outcome := some .endpointUntestable }
  | .bisect, _ =>
      let s := { s with steps := s.steps + 1 }
      if namesFirstBad ans.out then
        let sha := String.ofList (Text.firstWord ans.out.toList)
        { s with outcome := some (.firstBadFound sha) }
      else if ans.head = "" then { s with outcome := some .inconclusive }
      else if maxSteps ≤ s.steps then { s with outcome := some .maxStepsExceeded }
      else { s with candidate := ans.head }

/-- The step of the machine: the decision, and the record of it. -/
def next (maxSteps : ℤ) (v : Verdict) (ans : Answer) (s : Session) : Session :=
  { s.decided maxSteps v ans with
    iterations := s.iterations ++ [⟨s.phase, s.candidate, v⟩] }

/-- The iterations of the `bisect` phase. -/
def bisected (s : Session) : List Iteration := s.iterations.filter (fun i => i.phase = .bisect)

@[simp] theorem next_iterations (maxSteps : ℤ) (v : Verdict) (ans : Answer) (s : Session) :
    (s.next maxSteps v ans).iterations = s.iterations ++ [⟨s.phase, s.candidate, v⟩] := rfl

@[simp] theorem next_bisected (maxSteps : ℤ) (v : Verdict) (ans : Answer) (s : Session) :
    (s.next maxSteps v ans).bisected =
      s.bisected ++ if s.phase = .bisect then [⟨s.phase, s.candidate, v⟩] else [] := by
  by_cases h : s.phase = .bisect
  · simp [bisected, h]
  · simp [bisected, h]

/-- The first decision of a session that goes on: the bad endpoint failed. -/
def badRecord (s : Session) : Iteration := ⟨.verifyBad, s.badSha, .bad⟩

/-- The second: the good endpoint passed. -/
def goodRecord (s : Session) : Iteration := ⟨.verifyGood, s.goodSha, .good⟩

/-- What holds in every state of a session with the given step budget. -/
structure Safe (maxSteps : ℤ) (s : Session) : Prop where
  verifyBad : s.phase = .verifyBad → s.candidate = s.badSha ∧
    (s.outcome ≠ some .notReproducibleStandalone →
      ∀ i ∈ s.iterations, i.verdict ≠ .good ∧ i.verdict ≠ .bad)
  verifyGood : s.phase = .verifyGood → s.outcome = none →
    s.candidate = s.goodSha ∧ s.iterations = [s.badRecord]
  bisect : s.phase = .bisect → [s.badRecord, s.goodRecord] <+: s.iterations
  steps : s.steps = s.bisected.length
  unfinished : s.outcome = none → (s.iterations.length : ℤ) < max 1 maxSteps + 2

/-- The machine's own invariant: `Safe`, with the lengths that make the budget
hold.  Before the bisect phase a session without outcome has as many iterations
as the phases it left behind; in it, two more than its steps. -/
structure Inv (maxSteps : ℤ) (s : Session) : Prop where
  verifyBad : s.phase = .verifyBad → s.candidate = s.badSha ∧ s.steps = 0 ∧
    (s.outcome = none → s.iterations = []) ∧ s.bisected = [] ∧
    (s.outcome ≠ some .notReproducibleStandalone →
      ∀ i ∈ s.iterations, i.verdict ≠ .good ∧ i.verdict ≠ .bad)
  verifyGood : s.phase = .verifyGood → s.steps = 0 ∧ s.bisected = [] ∧
    (s.outcome = none → s.candidate = s.goodSha ∧ s.iterations = [s.badRecord])
  bisect : s.phase = .bisect → ∃ rest,
    s.iterations = s.badRecord :: s.goodRecord :: rest ∧
    (∀ i ∈ rest, i.phase = .bisect) ∧ s.steps = rest.length ∧
    (s.outcome = none → s.steps = 0 ∨ (s.steps : ℤ) < maxSteps)

theorem Inv.safe {maxSteps : ℤ} {s : Session} (h : Inv maxSteps s) : Safe maxSteps s where
  verifyBad hp := ⟨(h.verifyBad hp).1, (h.verifyBad hp).2.2.2.2⟩
  verifyGood hp := (h.verifyGood hp).2.2
  bisect hp := by
    obtain ⟨rest, hrest, -⟩ := h.bisect hp
    exact ⟨rest, by simp [hrest]⟩
  steps := by
    cases hp : s.phase with
    | verifyBad => obtain ⟨-, h0, -, hb, -⟩ := h.verifyBad hp; simp [h0, hb]
    | verifyGood => obtain ⟨h0, hb, -⟩ := h.verifyGood hp; simp [h0, hb]
    | bisect =>
        obtain ⟨rest, hrest, hall, hlen, -⟩ := h.bisect hp
        have hfilter : rest.filter (fun i => i.phase = .bisect) = rest :=
          List.filter_eq_self.mpr fun i hi => by simp [hall i hi]
        simp [bisected, hrest, badRecord, goodRecord, hfilter, hlen]
  unfinished ho := by
    cases hp : s.phase with
    | verifyBad =>
        obtain ⟨-, -, hi, -⟩ := h.verifyBad hp
        simp [hi ho]; omega
    | verifyGood =>
        obtain ⟨-, -, hi⟩ := h.verifyGood hp
        simp [(hi ho).2]; omega
    | bisect =>
        obtain ⟨rest, hrest, -, hlen, hsteps⟩ := h.bisect hp
        simp only [hrest, List.length_cons]
        rcases hsteps ho with h0 | hlt <;> omega

theorem initial_inv (maxSteps : ℤ) (goodSha badSha : String) :
    Inv maxSteps (initial goodSha badSha) where
  verifyBad _ := ⟨rfl, rfl, fun _ => rfl, rfl, by simp [initial]⟩
  verifyGood h := by cases h
  bisect h := by cases h

/-- Everything the decision of a session can do: end it at an endpoint, leave its
phase for the next one, end it in the bisect phase, or go on to the commit git
names. -/
inductive Decision (maxSteps : ℤ) (v : Verdict) (ans : Answer) (s : Session) : Session → Prop where
  | endpoint (o : Outcome) (hp : s.phase ≠ .bisect) (hbad : s.phase = .verifyBad → v ≠ .bad)
      (hgood : s.phase = .verifyBad → v = .good → o = .notReproducibleStandalone)
      (hsha : ∀ sha, o ≠ .firstBadFound sha) :
      Decision maxSteps v ans s { s with outcome := some o }
  | badFails (hp : s.phase = .verifyBad) (hv : v = .bad) :
      Decision maxSteps v ans s { s with phase := .verifyGood, candidate := s.goodSha }
  | goodPasses (hp : s.phase = .verifyGood) (hv : v = .good) (hh : ans.head ≠ "") :
      Decision maxSteps v ans s { s with phase := .bisect, candidate := ans.head }
  | ended (o : Outcome) (hp : s.phase = .bisect)
      (hsha : ∀ sha, o = .firstBadFound sha → namesFirstBad ans.out = true) :
      Decision maxSteps v ans s { s with steps := s.steps + 1, outcome := some o }
  | goesOn (hp : s.phase = .bisect) (hlt : (s.steps : ℤ) + 1 < maxSteps) (hh : ans.head ≠ "")
      (hout : namesFirstBad ans.out = false) :
      Decision maxSteps v ans s { s with steps := s.steps + 1, candidate := ans.head }

theorem decided_spec (maxSteps : ℤ) (v : Verdict) (ans : Answer) (s : Session) :
    Decision maxSteps v ans s (s.decided maxSteps v ans) := by
  obtain ⟨goodSha, badSha, phase, candidate, steps, iterations, outcome⟩ := s
  cases phase with
  | verifyBad =>
      cases v with
      | good =>
          exact .endpoint .notReproducibleStandalone (by simp) (fun _ => by simp)
            (fun _ _ => rfl) (by simp)
      | bad => exact .badFails rfl rfl
      | skip =>
          exact .endpoint .endpointUntestable (by simp) (fun _ => by simp)
            (fun _ h => by cases h) (by simp)
  | verifyGood =>
      have ends (v : Verdict) (o : Outcome) (hsha : ∀ sha, o ≠ .firstBadFound sha) :
          Decision maxSteps v ans ⟨goodSha, badSha, .verifyGood, candidate, steps, iterations,
            outcome⟩ ⟨goodSha, badSha, .verifyGood, candidate, steps, iterations, some o⟩ :=
        .endpoint o (by simp) (fun h => by cases h) (fun h => by cases h) hsha
      cases v with
      | good =>
          by_cases hh : ans.head = ""
          · simpa only [decided, hh, ne_eq, not_true_eq_false, if_false] using
              ends .good .inconclusive (by simp)
          · simpa only [decided, hh, ne_eq, not_false_eq_true, if_true] using
              Decision.goodPasses rfl rfl hh
      | bad => exact ends .bad .goodEndpointFailed (by simp)
      | skip => exact ends .skip .endpointUntestable (by simp)
  | bisect =>
      unfold decided
      by_cases hf : namesFirstBad ans.out = true
      · rw [if_pos hf]
        exact .ended _ rfl (fun _ _ => hf)
      · rw [if_neg hf]
        by_cases hh : ans.head = ""
        · rw [if_pos hh]
          exact .ended .inconclusive rfl (by simp)
        · rw [if_neg hh]
          by_cases hm : maxSteps ≤ ((steps + 1 : ℕ) : ℤ)
          · rw [if_pos hm]
            exact .ended .maxStepsExceeded rfl (by simp)
          · rw [if_neg hm]
            exact .goesOn rfl (by push_cast at hm; simpa using hm) hh (by simpa using hf)

/-- A decision of the bisect phase extends the recorded bisect iterations. -/
theorem Inv.record_bisect {maxSteps : ℤ} {s : Session} (h : Inv maxSteps s)
    (hp : s.phase = .bisect) (v : Verdict) :
    ∃ rest, s.iterations ++ [⟨s.phase, s.candidate, v⟩] = s.badRecord :: s.goodRecord :: rest ∧
      (∀ i ∈ rest, i.phase = .bisect) ∧ s.steps + 1 = rest.length := by
  obtain ⟨rest, hrest, hall, hlen, -⟩ := h.bisect hp
  refine ⟨rest ++ [⟨s.phase, s.candidate, v⟩], by simp [hrest], fun i hi => ?_, by simp [hlen]⟩
  rcases List.mem_append.mp hi with hi | hi
  · exact hall i hi
  · simp only [List.mem_singleton] at hi
    simp [hi, hp]

/-- The step lemma: a session that has not ended keeps the invariant. -/
theorem next_inv {maxSteps : ℤ} {s : Session} (h : Inv maxSteps s) (ho : s.outcome = none)
    (v : Verdict) (ans : Answer) : Inv maxSteps (s.next maxSteps v ans) := by
  have hb := next_bisected maxSteps v ans s
  unfold next at hb ⊢
  have hd := decided_spec maxSteps v ans s
  generalize s.decided maxSteps v ans = s' at hb hd ⊢
  cases hd with
  | endpoint o hp hbad hgood hsha =>
      refine ⟨fun hv => ?_, fun hg => ?_, fun hbi => absurd hbi hp⟩
      · obtain ⟨hc, h0, hi, hbis, -⟩ := h.verifyBad hv
        refine ⟨hc, h0, by simp, by rw [hb, hbis, if_neg hp]; rfl, fun hne i hmem => ?_⟩
        have hskip : v = .skip := by
          cases v with
          | good => exact absurd (congrArg some (hgood hv rfl)) hne
          | bad => exact absurd rfl (hbad hv)
          | skip => rfl
        simp only [hi ho, List.nil_append, List.mem_singleton] at hmem
        simp [hmem, hskip]
      · obtain ⟨h0, hbis, -⟩ := h.verifyGood hg
        exact ⟨h0, by rw [hb, hbis, if_neg hp]; rfl, by simp⟩
  | badFails hp hv =>
      obtain ⟨hc, h0, hi, hbis, -⟩ := h.verifyBad hp
      refine ⟨(fun hx => by cases hx), fun _ => ⟨h0, ?_, fun _ => ⟨rfl, ?_⟩⟩,
        (fun hx => by cases hx)⟩
      · rw [hb, hbis, hp]; rfl
      · simp [hi ho, hp, hc, hv, badRecord]
  | goodPasses hp hv hh =>
      obtain ⟨h0, hbis, hi⟩ := h.verifyGood hp
      refine ⟨(fun hx => by cases hx), (fun hx => by cases hx), fun _ => ⟨[], ?_⟩⟩
      simp [(hi ho).1, (hi ho).2, hp, hv, h0, badRecord, goodRecord]
  | ended o hp hsha =>
      obtain ⟨rest, hrest, hall, hlen⟩ := h.record_bisect hp v
      exact ⟨fun hx => by simp [hp] at hx, fun hx => by simp [hp] at hx, fun _ =>
        ⟨rest, hrest, hall, hlen, by simp⟩⟩
  | goesOn hp hlt hh hout =>
      obtain ⟨rest, hrest, hall, hlen⟩ := h.record_bisect hp v
      exact ⟨fun hx => by simp [hp] at hx, fun hx => by simp [hp] at hx, fun _ =>
        ⟨rest, hrest, hall, hlen, fun _ => .inr (by push_cast; exact hlt)⟩⟩

end Session

end KdevopsNg.Kernel
