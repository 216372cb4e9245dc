/-
# `Kernel.BisectAtomic` — what a call that raises has changed

Here `state.json` is any JSON value and the reports are any files.  A call that
is no reset records its decision in two places, git's log of fed verdicts and
`state.json`, and a call that raises should have changed neither.

Everything up to `reading` changes nothing.  After it the code can raise in
three ways: before git is asked, after git was asked and before the write, and
after the write, when the result is put together.  Only the first is harmless.
`main_atomic_iff` says exactly when the other two happen, in terms of the state,
the arguments and git's answers:

    Recordable   what the decision needs to reach the write
    Returnable   what the result needs after it: a `steps` entry, and a pasted
                 guest whose nested groups have the right shape

`raises_after_write` is a call that records a decision and raises: its guest
passes `_check_guest`, which looks at the top level only.
-/
import KdevopsNg.Kernel.BisectSafety

namespace KdevopsNg.Kernel

open Py Py.Exec

section
variable {γ δ : Type}

/-- A call that raises is a reset, or leaves `state.json` and the verdicts fed
to git as they were. -/
def Atomic (git : Git γ) (fed : γ → δ) (env : Env) (a : Args) (w : World γ) : Prop :=
  ∀ e w', main git env a w = (.error e, w') →
    isReset env a w = true ∨ (w'.stateFile = w.stateFile ∧ fed w'.repo = fed w.repo)

/-! ## What the decision needs -/

/-- What the decision of each phase needs of the state and of git. -/
structure Judgeable (git : Git γ) (readInt : String → Option ℤ) (s : Dict Json) (r : Reading)
    (repo : γ) : Prop where
  verifyBad : r.phase = .str "verify_bad" → r.verdict = .bad →
    ∃ v, Dict.get? s "good_sha" = some v
  verifyGood : r.phase = .str "verify_good" → r.verdict = .good → ∃ bad good ans,
    Dict.get? s "bad_sha" = some (.str bad) ∧ Dict.get? s "good_sha" = some (.str good) ∧
      (askStart git bad good repo).1 = some ans
  bisect : r.phase = .str "bisect" → (∃ sha ans, r.prev = .str sha ∧
    (askFeed git r.verdict sha repo).1 = some ans) ∧
    ∃ v n, Dict.get? s "steps" = some v ∧ v.toInt readInt = .ok n

/-- What it needs to be recorded: an `iterations` list besides. -/
def Recordable (git : Git γ) (readInt : String → Option ℤ) (s : Dict Json) (r : Reading)
    (repo : γ) : Prop :=
  Judgeable git readInt s r repo ∧ ∃ xs, Dict.get? s "iterations" = some (.arr xs)

/-- The clone after the decision put its question to git. -/
def askedRepo (git : Git γ) (s : Dict Json) (r : Reading) (repo : γ) : γ :=
  if r.phase = .str "verify_good" ∧ r.verdict = .good then
    match Dict.get? s "bad_sha", Dict.get? s "good_sha" with
    | some (.str bad), some (.str good) => (askStart git bad good repo).2
    | _, _ => repo
  else if r.phase = .str "bisect" then
    match r.prev with
    | .str sha => (askFeed git r.verdict sha repo).2
    | _ => repo
  else repo

/-- What the result needs after the write. -/
def Returnable (a : Args) (payload : Payload) (s : Dict Json) (r : Reading) : Prop :=
  (r.phase ≠ .str "bisect" → ∃ v, Dict.get? s "steps" = some v) ∧
  ∀ g, a.pasted = .obj g → g ≠ [] → GuestShape payload g

/-- What a decision leaves of the state. -/
structure Keeps (r : Reading) (s s' : Dict Json) : Prop where
  iterations : Dict.get? s' "iterations" = Dict.get? s "iterations"
  phase : (Dict.get? s "phase").isSome → (Dict.get? s' "phase").isSome
  candidate : (Dict.get? s "candidate").isSome → (Dict.get? s' "candidate").isSome
  steps : if r.phase = .str "bisect" then (Dict.get? s' "steps").isSome
    else Dict.get? s' "steps" = Dict.get? s "steps"

theorem eq_str (v : Json) (x : String) : v.eq (.str x) = true ↔ v = .str x := by
  cases v <;> simp [Json.eq]

theorem getItem_ok {s : Dict Json} {k : String} {v : Json} :
    (Json.obj s).getItem k = .ok v ↔ Dict.get? s k = some v := by
  rw [Json.getItem_obj]
  cases Dict.get? s k <;> simp

/-- The decision succeeds on the state it needs and raises on any other; either
way git was asked the decision's question and `state.json` is as it was. -/
def JudgeSpec (git : Git γ) (readInt : String → Option ℤ) (maxSteps : ℤ) (s : Dict Json)
    (r : Reading) (w : World γ) : Prop :=
  (Judgeable git readInt s r w.repo ∧ ∃ s', Keeps r s s' ∧
    judge git readInt maxSteps (.obj s) r w =
      (.ok (.obj s'), { w with repo := askedRepo git s r w.repo })) ∨
  (¬ Judgeable git readInt s r w.repo ∧ ∃ e,
    judge git readInt maxSteps (.obj s) r w =
      (.error e, { w with repo := askedRepo git s r w.repo }))

theorem judge_verifyBad (git : Git γ) (readInt : String → Option ℤ) (maxSteps : ℤ) (s : Dict Json)
    {r : Reading} (w : World γ) (hp : r.phase = .str "verify_bad") :
    JudgeSpec git readInt maxSteps s r w := by
  obtain ⟨verdict, prev, phase⟩ := r
  cases (show phase = .str "verify_bad" from hp)
  have hrepo : askedRepo git s ⟨verdict, prev, .str "verify_bad"⟩ w.repo = w.repo := by
    simp [askedRepo]
  have hj : ∀ x, judgeBad (.obj s) verdict = x →
      judge git readInt maxSteps (.obj s) ⟨verdict, prev, .str "verify_bad"⟩ w = (x, w) := by
    rintro x rfl
    rfl
  unfold JudgeSpec
  rw [hrepo]
  cases verdict with
  | good =>
      refine .inl ⟨⟨by simp, by simp, by simp⟩, _, ⟨?_, ?_, ?_, ?_⟩, hj _ rfl⟩ <;>
        simp [Dict.get?_set]
  | skip =>
      refine .inl ⟨⟨by simp, by simp, by simp⟩, _, ⟨?_, ?_, ?_, ?_⟩, hj _ rfl⟩ <;>
        simp [Dict.get?_set]
  | bad =>
      cases hg : Dict.get? s "good_sha" with
      | none =>
          refine .inr ⟨fun h => ?_, .keyError "good_sha", hj _ ?_⟩
          · obtain ⟨v, hv⟩ := h.verifyBad rfl rfl
            rw [hg] at hv; cases hv
          · simp [judgeBad, bind, Except.bind, Dict.get?_set, hg]
      | some v =>
          refine .inl ⟨⟨fun _ _ => ⟨v, hg⟩, by simp, by simp⟩,
            Dict.set (Dict.set s "phase" (.str "verify_good")) "candidate" v, ⟨?_, ?_, ?_, ?_⟩,
            hj _ ?_⟩
          · simp [Dict.get?_set]
          · simp [Dict.get?_set]
          · simp [Dict.get?_set]
          · simp [Dict.get?_set]
          · simp [judgeBad, bind, Except.bind, Dict.get?_set, hg]

/-- Only texts can be arguments of `git bisect start`. -/
theorem startBisect_raises (git : Git γ) (bad good : Json) (w : World γ)
    (h : ∀ b g, ¬ (bad = .str b ∧ good = .str g)) :
    ∃ e, startBisect git bad good w = (.error e, w) := by
  unfold startBisect
  cases hb : argWord bad with
  | error e => exact ⟨e, by simp⟩
  | ok b =>
      cases hg : argWord good with
      | error e => exact ⟨e, by simp⟩
      | ok g =>
          have hstr : ∀ (v : Json) (x : String), argWord v = .ok x → ∃ y, v = .str y := by
            intro v x hv
            cases v with
            | str y => exact ⟨y, rfl⟩
            | _ => cases hv
          obtain ⟨b', hb'⟩ := hstr bad b hb
          obtain ⟨g', hg'⟩ := hstr good g hg
          exact absurd ⟨hb', hg'⟩ (h b' g')

theorem judgeGood_good (git : Git γ) (state : Json) :
    judgeGood git state .good = (do
      let badSha ← lift (state.getItem "bad_sha")
      let goodSha ← lift (state.getItem "good_sha")
      let head ← startBisect git badSha goodSha
      lift (if head ≠ "" then do
          let state ← state.setItem "phase" (.str "bisect")
          state.setItem "candidate" (.str head)
        else state.setItem "outcome" (.str "inconclusive"))) := rfl

theorem judge_verifyGood (git : Git γ) (readInt : String → Option ℤ) (maxSteps : ℤ)
    (s : Dict Json) {r : Reading} (w : World γ) (hp : r.phase = .str "verify_good") :
    JudgeSpec git readInt maxSteps s r w := by
  obtain ⟨verdict, prev, phase⟩ := r
  cases (show phase = .str "verify_good" from hp)
  have hj : judge git readInt maxSteps (.obj s) ⟨verdict, prev, .str "verify_good"⟩ w =
      judgeGood git (.obj s) verdict w := rfl
  unfold JudgeSpec
  rw [hj]
  cases verdict with
  | bad =>
      refine .inl ⟨⟨by simp, by simp, by simp⟩, _, ⟨?_, ?_, ?_, ?_⟩, by simp [askedRepo]; rfl⟩ <;>
        simp [Dict.get?_set]
  | skip =>
      refine .inl ⟨⟨by simp, by simp, by simp⟩, _, ⟨?_, ?_, ?_, ?_⟩, by simp [askedRepo]; rfl⟩ <;>
        simp [Dict.get?_set]
  | good =>
      have hrepo : askedRepo git s ⟨.good, prev, .str "verify_good"⟩ w.repo =
          match Dict.get? s "bad_sha", Dict.get? s "good_sha" with
          | some (.str bad), some (.str good) => (askStart git bad good w.repo).2
          | _, _ => w.repo := by simp [askedRepo]
      rw [hrepo, judgeGood_good]
      cases hb : Dict.get? s "bad_sha" with
      | none =>
          refine .inr ⟨fun h => ?_, .keyError "bad_sha", by simp [hb]⟩
          obtain ⟨b, g, ans, hb', -⟩ := h.verifyGood rfl rfl
          rw [hb] at hb'; cases hb'
      | some bad =>
          cases hg : Dict.get? s "good_sha" with
          | none =>
              refine .inr ⟨fun h => ?_, .keyError "good_sha", by simp [hb, hg]⟩
              obtain ⟨b, g, ans, -, hg', -⟩ := h.verifyGood rfl rfl
              rw [hg] at hg'; cases hg'
          | some good =>
              rw [getItem_ok.mpr hb, getItem_ok.mpr hg, lift_ok_bind, lift_ok_bind]
              by_cases hstr : ∃ b g, bad = .str b ∧ good = .str g
              · obtain ⟨b, g, rfl, rfl⟩ := hstr
                rcases startBisect_ask git b g w with ⟨head, hans, hrun⟩ | ⟨hans, e, hrun⟩
                · rw [bind_ok _ hrun]
                  refine .inl ⟨⟨by simp, fun _ _ => ⟨b, g, _, hb, hg, hans⟩, by simp⟩, ?_⟩
                  by_cases hh : head = ""
                  · refine ⟨_, ⟨?_, ?_, ?_, ?_⟩, by simp [hh]; rfl⟩ <;> simp [Dict.get?_set]
                  · refine ⟨Dict.set (Dict.set s "phase" (.str "bisect")) "candidate" (.str head),
                      ⟨?_, ?_, ?_, ?_⟩, by simp [hh, bind, Except.bind]⟩ <;> simp [Dict.get?_set]
                · rw [bind_error _ hrun]
                  refine .inr ⟨fun h => ?_, e, rfl⟩
                  obtain ⟨b', g', ans, hb', hg', hans'⟩ := h.verifyGood rfl rfl
                  rw [hb] at hb'; rw [hg] at hg'
                  cases hb'; cases hg'
                  rw [hans] at hans'; cases hans'
              · obtain ⟨e, hrun⟩ := startBisect_raises git bad good w
                  (fun b g h => hstr ⟨b, g, h⟩)
                rw [bind_error _ hrun]
                refine .inr ⟨fun h => ?_, e, ?_⟩
                · obtain ⟨b', g', ans, hb', hg', -⟩ := h.verifyGood rfl rfl
                  rw [hb] at hb'; rw [hg] at hg'
                  exact hstr ⟨b', g', Option.some.inj hb', Option.some.inj hg'⟩
                · split
                  · rename_i b g hb' hg'
                    exact absurd ⟨b, g, Option.some.inj hb', Option.some.inj hg'⟩ hstr
                  · rfl

theorem countStep_obj {readInt : String → Option ℤ} {s : Dict Json} {v : Json} {n : ℤ}
    (hv : Dict.get? s "steps" = some v) (hn : v.toInt readInt = .ok n) :
    countStep readInt (.obj s) = .ok (.obj (Dict.set s "steps" (.num (n + 1 : ℤ))), n + 1) := by
  simp [countStep, bind, Except.bind, hv, hn]

theorem countStep_raises {readInt : String → Option ℤ} {s : Dict Json}
    (h : ¬ ∃ v n, Dict.get? s "steps" = some v ∧ v.toInt readInt = .ok n) :
    ∃ e, countStep readInt (.obj s) = .error e := by
  unfold countStep
  cases hv : Dict.get? s "steps" with
  | none => exact ⟨.keyError "steps", by simp [bind, Except.bind, hv]⟩
  | some v =>
      cases hn : v.toInt readInt with
      | error e => exact ⟨e, by simp [bind, Except.bind, hv, hn]⟩
      | ok n => exact absurd ⟨v, n, hv, hn⟩ h

/-- The conclusion of a bisect step sets keys the result and the record do not
lose, and raises only when `BISECT_HEAD` cannot be read. -/
theorem conclude_obj (git : Git γ) (maxSteps : ℤ) (out : String) (s : Dict Json) (steps : ℤ)
    (w : World γ) :
    (∃ s', conclude git maxSteps out (.obj s) steps w = (.ok (.obj s'), w) ∧
      (∀ k, k ≠ "outcome" → k ≠ "first_bad" → k ≠ "candidate" →
        Dict.get? s' k = Dict.get? s k) ∧
      ((Dict.get? s "candidate").isSome → (Dict.get? s' "candidate").isSome) ∧
      (namesFirstBad out = false → ∃ head, capture (git.bisectHead w.repo) = .ok head)) ∨
    (namesFirstBad out = false ∧ ∃ e, capture (git.bisectHead w.repo) = .error e ∧
      conclude git maxSteps out (.obj s) steps w = (.error e, w)) := by
  unfold conclude
  by_cases hf : namesFirstBad out = true
  · refine .inl ⟨Dict.set (Dict.set s "outcome" (.str "first_bad_found")) "first_bad"
      (.str (String.ofList (Text.firstWord out.toList))), ?_, ?_, ?_, fun h => by simp [hf] at h⟩
    · simp [hf, bind, Except.bind]
    · intro k h1 h2 _
      simp [Dict.get?_set, h1, h2]
    · simp [Dict.get?_set]
  · rw [if_neg hf]
    have hff : namesFirstBad out = false := by simpa using hf
    cases hc : capture (git.bisectHead w.repo) with
    | error e =>
        have hread : bisectHead git w = (.error e, w) := by simp [bisectHead, hc]
        exact .inr ⟨hff, e, rfl, bind_error _ hread⟩
    | ok head =>
        have hread : bisectHead git w = (.ok head, w) := by simp [bisectHead, hc]
        rw [bind_ok _ hread]
        refine .inl ?_
        by_cases hh : head = ""
        · refine ⟨_, by rw [if_pos hh]; rfl, ?_, ?_, fun _ => ⟨head, rfl⟩⟩
          · intro k h1 _ _; simp [Dict.get?_set, h1]
          · simp [Dict.get?_set]
        · by_cases hm : maxSteps ≤ steps
          · refine ⟨_, by rw [if_neg hh, if_pos hm]; rfl, ?_, ?_, fun _ => ⟨head, rfl⟩⟩
            · intro k h1 _ _; simp [Dict.get?_set, h1]
            · simp [Dict.get?_set]
          · refine ⟨_, by rw [if_neg hh, if_neg hm]; rfl, ?_, ?_, fun _ => ⟨head, rfl⟩⟩
            · intro k _ _ h3; simp [Dict.get?_set, h3]
            · simp [Dict.get?_set]

theorem askedRepo_bisect (git : Git γ) (s : Dict Json) (verdict : Verdict) (prev : Json)
    (repo : γ) : askedRepo git s ⟨verdict, prev, .str "bisect"⟩ repo =
      match prev with
      | .str sha => (askFeed git verdict sha repo).2
      | _ => repo := by
  simp [askedRepo]

/-- The decision of the bisect phase on a candidate that is a text. -/
theorem judgeBisect_str (git : Git γ) (readInt : String → Option ℤ) (maxSteps : ℤ) (s : Dict Json)
    (verdict : Verdict) (sha : String) (w : World γ) :
    let steps := ∃ v n, Dict.get? s "steps" = some v ∧ v.toInt readInt = .ok n
    let ans := (askFeed git verdict sha w.repo).1
    let run := judgeBisect git readInt maxSteps (.obj s) (.str sha) verdict w
    let w' : World γ := { w with repo := (askFeed git verdict sha w.repo).2 }
    ((ans.isSome ∧ steps) ∧ ∃ s', run = (.ok (.obj s'), w') ∧
      Keeps ⟨verdict, .str sha, .str "bisect"⟩ s s') ∨
    (¬ (ans.isSome ∧ steps) ∧ ∃ e, run = (.error e, w')) := by
  intro steps ans run w'
  by_cases hn : hasNul sha
  · refine .inr ⟨fun h => ?_, .valueError "embedded null byte", ?_⟩
    · simp [ans, askFeed, hn] at h
    · simp [run, w', judgeBisect, askFeed, hn, argWord_of_nul hn]
  have hw' : w' = { w with repo := (git.bisectFeed w.repo verdict.name sha).2 } := by
    simp only [w', askFeed, hn, if_false]
  have hrun : run = (bisectFeed git verdict sha >>= fun out =>
      lift (countStep readInt (.obj s)) >>= fun x =>
        conclude git maxSteps out x.1 x.2) w := by
    show judgeBisect git readInt maxSteps (.obj s) (.str sha) verdict w = _
    unfold judgeBisect
    rw [argWord_of_not_nul hn, lift_ok_bind]
  cases hout : (git.bisectFeed w.repo verdict.name sha).1 with
  | none =>
      have hfeed : bisectFeed git verdict sha w = (.error .unicodeDecodeError, w') := by
        simp only [bisectFeed, hout, hw']
      refine .inr ⟨fun h => ?_, _, hrun.trans (bind_error _ hfeed)⟩
      simp [ans, askFeed, hn, hout] at h
  | some out =>
      have hfeed : bisectFeed git verdict sha w = (.ok out, w') := by
        simp only [bisectFeed, hout, hw']
      have hans : ans = if namesFirstBad out then some ⟨out, ""⟩
          else (capture (git.bisectHead w'.repo)).toOption.map (Answer.mk out) := by
        simp only [ans, askFeed, hn, hout, hw', if_false]
      rw [bind_ok _ hfeed] at hrun
      by_cases hsteps : steps
      · obtain ⟨v, n, hv, hvn⟩ := id hsteps
        rw [countStep_obj hv hvn, lift_ok_bind] at hrun
        rcases conclude_obj git maxSteps out (Dict.set s "steps" (.num (n + 1 : ℤ))) (n + 1) w'
          with ⟨s', hc, hkeep, hcand, hread⟩ | ⟨hf, e, hread, hc⟩
        · refine .inl ⟨⟨?_, hsteps⟩, s', hrun.trans hc, ?_, ?_, ?_, ?_⟩
          · rw [hans]
            by_cases hf : namesFirstBad out = true
            · simp [hf]
            · obtain ⟨head, hhead⟩ := hread (by simpa using hf)
              simp [hf, hhead, Except.toOption]
          · rw [hkeep _ (by decide) (by decide) (by decide)]; simp [Dict.get?_set]
          · rw [hkeep _ (by decide) (by decide) (by decide)]; simp [Dict.get?_set]
          · intro h
            exact hcand (by simpa [Dict.get?_set] using h)
          · simp [hkeep "steps" (by decide) (by decide) (by decide), Dict.get?_set]
        · refine .inr ⟨fun h => ?_, e, hrun.trans hc⟩
          have h1 := h.1
          simp [hans, hf, hread, Except.toOption] at h1
      · obtain ⟨e, he⟩ := countStep_raises hsteps
        rw [he, lift_error_bind, raise_apply] at hrun
        exact .inr ⟨fun h => hsteps h.2, e, hrun⟩

theorem judge_bisect (git : Git γ) (readInt : String → Option ℤ) (maxSteps : ℤ) (s : Dict Json)
    {r : Reading} (w : World γ) (hp : r.phase = .str "bisect") :
    JudgeSpec git readInt maxSteps s r w := by
  obtain ⟨verdict, prev, phase⟩ := r
  cases (show phase = .str "bisect" from hp)
  have hj : judge git readInt maxSteps (.obj s) ⟨verdict, prev, .str "bisect"⟩ w =
      judgeBisect git readInt maxSteps (.obj s) prev verdict w := rfl
  unfold JudgeSpec
  rw [hj, askedRepo_bisect]
  by_cases hstr : ∃ sha, prev = .str sha
  · obtain ⟨sha, rfl⟩ := hstr
    have hiff : Judgeable git readInt s ⟨verdict, .str sha, .str "bisect"⟩ w.repo ↔
        (askFeed git verdict sha w.repo).1.isSome ∧
          ∃ v n, Dict.get? s "steps" = some v ∧ v.toInt readInt = .ok n := by
      constructor
      · intro h
        obtain ⟨⟨sha', ans, hsha, hans⟩, hsteps⟩ := h.bisect rfl
        cases hsha
        exact ⟨by rw [hans]; rfl, hsteps⟩
      · rintro ⟨hans, hsteps⟩
        obtain ⟨ans, hans⟩ := Option.isSome_iff_exists.mp hans
        exact ⟨by simp, by simp, fun _ => ⟨⟨sha, ans, rfl, hans⟩, hsteps⟩⟩
    rw [hiff]
    rcases judgeBisect_str git readInt maxSteps s verdict sha w with ⟨h, s', hrun, hk⟩ | ⟨h, hrun⟩
    · exact .inl ⟨h, s', hk, hrun⟩
    · exact .inr ⟨h, hrun⟩
  · have hraise : ∃ e, argWord prev = .error e := by
      cases prev with
      | str sha => exact absurd ⟨sha, rfl⟩ hstr
      | _ => exact ⟨_, rfl⟩
    obtain ⟨e, he⟩ := hraise
    refine .inr ⟨fun h => ?_, e, ?_⟩
    · obtain ⟨⟨sha, _, hsha, -⟩, -⟩ := h.bisect rfl
      exact hstr ⟨sha, hsha⟩
    · unfold judgeBisect
      rw [he, lift_error_bind, raise_apply]
      cases prev with
      | str sha => exact absurd ⟨sha, rfl⟩ hstr
      | _ => rfl

/-- The spec of a decision, whatever its phase. -/
theorem judge_spec (git : Git γ) (readInt : String → Option ℤ) (maxSteps : ℤ) (s : Dict Json)
    (r : Reading) (w : World γ) : JudgeSpec git readInt maxSteps s r w := by
  by_cases hvb : r.phase = .str "verify_bad"
  · exact judge_verifyBad git readInt maxSteps s w hvb
  by_cases hvg : r.phase = .str "verify_good"
  · exact judge_verifyGood git readInt maxSteps s w hvg
  by_cases hb : r.phase = .str "bisect"
  · exact judge_bisect git readInt maxSteps s w hb
  refine .inl ⟨⟨fun h => absurd h hvb, fun h => absurd h hvg, fun h => absurd h hb⟩, s,
    ⟨rfl, id, id, by rw [if_neg hb]⟩, ?_⟩
  have hne : ∀ x, r.phase ≠ .str x → r.phase.eq (.str x) = false := fun x h => by
    rw [Bool.eq_false_iff]
    exact fun hx => h ((eq_str r.phase x).mp hx)
  simp [judge, hne _ hvb, hne _ hvg, hne _ hb, askedRepo, hvg, hb]

/-! ## The record, the write and the result -/

/-- A guest that passed the check is a dictionary. -/
theorem pasted_obj {a : Args} (h : checkGuest a.pasted = .ok ()) : ∃ g, a.pasted = .obj g := by
  unfold Args.pasted Json.orElse at h ⊢
  by_cases ht : a.guest.truthy = true
  · rw [if_pos ht] at h ⊢
    cases hg : a.guest with
    | obj g => exact ⟨g, rfl⟩
    | _ => rw [hg] at h ht; simp [checkGuest, ht] at h
  · exact ⟨[], by rw [if_neg ht]⟩

theorem start_checkGuest {env : Env} {a : Args} {w : World γ} {st : Start}
    (hst : start env a w = .ok st) : checkGuest a.pasted = .ok () := by
  unfold start checkArgs at hst
  cases hg : checkGuest a.pasted with
  | error e => rw [hg] at hst; cases hst
  | ok u => rfl

/-- The bringup inputs are built exactly when the pasted guest, if any, has the
right shape. -/
theorem bringup_iff (candidate : Json) {a : Args} (payload : Payload)
    (h : checkGuest a.pasted = .ok ()) :
    (∃ b, bringupArgs candidate a.vmName payload a.suites a.compiler a.makeFlags a.pasted = .ok b) ↔
      ∀ g, a.pasted = .obj g → g ≠ [] → GuestShape payload g := by
  obtain ⟨g, hg⟩ := pasted_obj h
  rw [hg]
  by_cases hnil : g = []
  · subst hnil
    exact ⟨fun _ g' hg' hne => absurd (by cases hg'; rfl) hne, fun _ => ⟨_, rfl⟩⟩
  · rw [bringupArgs_returns_iff candidate a.vmName payload a.suites a.compiler a.makeFlags hnil]
    constructor
    · intro hs g' hg' _; cases hg'; exact hs
    · intro hs; exact hs g rfl hnil

/-- After the write, the result is missing only a `steps` entry or the bringup
inputs. -/
theorem result_iff {a : Args} (payload : Payload) {s : Dict Json}
    (h : checkGuest a.pasted = .ok ()) (hp : (Dict.get? s "phase").isSome)
    (hc : (Dict.get? s "candidate").isSome) :
    (∃ res, result a payload (.obj s) = .ok res) ↔
      (Dict.get? s "steps").isSome ∧ ∀ g, a.pasted = .obj g → g ≠ [] → GuestShape payload g := by
  obtain ⟨phase, hp⟩ := Option.isSome_iff_exists.mp hp
  obtain ⟨candidate, hc⟩ := Option.isSome_iff_exists.mp hc
  rw [← bringup_iff candidate payload h]
  unfold result
  simp only [bind_returns_iff, Json.getD_obj, Json.getItem_obj, hp, hc, Except.ok.injEq,
    exists_eq_left']
  cases hs : Dict.get? s "steps" with
  | none => simp
  | some v => simp

/-- The candidate and the phase a reading is about are those of the state. -/
theorem reading_fields {env : Env} {a : Args} {payload : Payload} {sdir : Path} {s : Dict Json}
    {r : Reading} (h : reading env a payload sdir (.obj s) = .ok r) :
    Dict.get? s "candidate" = some r.prev ∧ Dict.get? s "phase" = some r.phase := by
  unfold reading at h
  simp only [except_bind_ok] at h
  obtain ⟨_, -, _, -, _, -, _, -, prev, hprev, phase, hphase, hr⟩ := h
  cases hr
  exact ⟨getItem_ok.mp hprev, getItem_ok.mp hphase⟩

/-- A call that is no reset, from its decision on. -/
theorem main_of_reading (git : Git γ) {env : Env} {a : Args} {w : World γ} {st : Start}
    {s : Dict Json} {r : Reading} (hst : start env a w = .ok st) (hstale : st.stale = false)
    (hstate : w.state = .obj s) (hr : reading env a st.payload st.sdir (.obj s) = .ok r) :
    main git env a w = (((judge git env.readInt a.maxSteps (.obj s) r >>= fun state =>
      lift (recordIteration state r)) >>= writeState env.now) >>= fun state =>
        lift (result a st.payload state)) w := by
  have hbranch : branch git env a st w = (judge git env.readInt a.maxSteps (.obj s) r >>=
      fun state => lift (recordIteration state r)) w := by
    unfold branch
    rw [bind_ok _ (get_apply w), hstale, hstate]
    simp only [Bool.false_eq_true, if_false, advance, hr, lift_ok_bind]
  rw [main_of_start git env a w hst]
  exact bind_congr_at _ (bind_congr_at _ hbranch)

/-- A call whose decision can be recorded writes a state with one iteration more,
and returns exactly when the result can be built from it. -/
theorem main_recordable (git : Git γ) {env : Env} {a : Args} {w : World γ} {st : Start}
    {s : Dict Json} {r : Reading} (hst : start env a w = .ok st) (hstale : st.stale = false)
    (hstate : w.state = .obj s) (hr : reading env a st.payload st.sdir (.obj s) = .ok r)
    (hrec : Recordable git env.readInt s r w.repo) :
    ∃ s' xs, Dict.get? s "iterations" = some (.arr xs) ∧
      Dict.get? s' "iterations" = some (.arr (xs ++ [iterationEntry r])) ∧
      main git env a w =
        (result a st.payload (.obj s'), ⟨some (.obj s'), askedRepo git s r w.repo⟩) ∧
      ((∃ res, result a st.payload (.obj s') = .ok res) ↔ Returnable a st.payload s r) := by
  obtain ⟨hjudge, xs, hxs⟩ := hrec
  obtain ⟨hcand, hphase⟩ := reading_fields hr
  rcases judge_spec git env.readInt a.maxSteps s r w with ⟨-, s₁, hkeep, hrun⟩ | ⟨hno, -⟩
  · have hit : Dict.get? s₁ "iterations" = some (.arr xs) := hkeep.iterations.trans hxs
    have hrecord : recordIteration (.obj s₁) r =
        .ok (.obj (Dict.set s₁ "iterations" (.arr (xs ++ [iterationEntry r])))) := by
      simp [recordIteration, bind, Except.bind, hit]
    set s₂ := Dict.set s₁ "iterations" (.arr (xs ++ [iterationEntry r])) with hs₂
    set s₃ := Dict.set s₂ "decided_at" (.num env.now) with hs₃
    refine ⟨s₃, xs, hxs, by simp [hs₃, hs₂, Dict.get?_set], ?_, ?_⟩
    · rw [main_of_reading git hst hstale hstate hr]
      have hbranch : (judge git env.readInt a.maxSteps (.obj s) r >>= fun state =>
          lift (recordIteration state r)) w =
          (.ok (.obj s₂), { w with repo := askedRepo git s r w.repo }) := by
        rw [bind_ok _ hrun, hrecord, lift_apply]
      rw [bind_ok _ (Eq.trans (bind_ok _ hbranch) rfl)]
      rfl
    · rw [result_iff st.payload (start_checkGuest hst)]
      · refine and_congr_left fun _ => ?_
        have hsteps := hkeep.steps
        by_cases hb : r.phase = .str "bisect"
        · rw [if_pos hb] at hsteps
          simp [hs₃, hs₂, Dict.get?_set, hb, hsteps]
        · rw [if_neg hb] at hsteps
          simp [hs₃, hs₂, Dict.get?_set, hb, hsteps, Option.isSome_iff_exists]
      · have := hkeep.phase (by rw [hphase]; rfl)
        simpa [hs₃, hs₂, Dict.get?_set] using this
      · have := hkeep.candidate (by rw [hcand]; rfl)
        simpa [hs₃, hs₂, Dict.get?_set] using this
  · exact absurd hjudge hno

/-- A call whose decision cannot be recorded raises before the write. -/
theorem main_not_recordable (git : Git γ) {env : Env} {a : Args} {w : World γ} {st : Start}
    {s : Dict Json} {r : Reading} (hst : start env a w = .ok st) (hstale : st.stale = false)
    (hstate : w.state = .obj s) (hr : reading env a st.payload st.sdir (.obj s) = .ok r)
    (hrec : ¬ Recordable git env.readInt s r w.repo) :
    ∃ e, main git env a w = (.error e, { w with repo := askedRepo git s r w.repo }) := by
  rw [main_of_reading git hst hstale hstate hr]
  rcases judge_spec git env.readInt a.maxSteps s r w with ⟨hjudge, s₁, hkeep, hrun⟩ | ⟨-, e, hrun⟩
  · have hit : ¬ ∃ xs, Dict.get? s₁ "iterations" = some (.arr xs) := by
      rw [hkeep.iterations]
      exact fun h => hrec ⟨hjudge, h⟩
    have hraise : ∃ e, recordIteration (.obj s₁) r = .error e := by
      unfold recordIteration
      cases hv : Dict.get? s₁ "iterations" with
      | none => exact ⟨.keyError "iterations", by simp [bind, Except.bind, hv]⟩
      | some v =>
          cases v with
          | arr xs => exact absurd ⟨xs, hv⟩ hit
          | _ => exact ⟨.attributeError, by simp [bind, Except.bind, hv, Json.append]⟩
    obtain ⟨e, he⟩ := hraise
    have hbranch : (judge git env.readInt a.maxSteps (.obj s) r >>= fun state =>
        lift (recordIteration state r)) w =
        (.error e, { w with repo := askedRepo git s r w.repo }) := by
      rw [bind_ok _ hrun, he, lift_apply]
    exact ⟨e, bind_error _ (bind_error _ hbranch)⟩
  · exact ⟨e, bind_error _ (bind_error _ (bind_error _ hrun))⟩

/-! ## When a call is atomic -/

/-- A call that is no reset and reads its verdict either records the decision and
can build the result, or cannot record it and git kept the verdicts it had. -/
def AtomicWhen (git : Git γ) (fed : γ → δ) (env : Env) (a : Args) (w : World γ) : Prop :=
  ∀ st s r, start env a w = .ok st → st.stale = false → w.state = .obj s →
    reading env a st.payload st.sdir (.obj s) = .ok r →
      (Recordable git env.readInt s r w.repo → Returnable a st.payload s r) ∧
      (¬ Recordable git env.readInt s r w.repo → fed (askedRepo git s r w.repo) = fed w.repo)

end

/-! ## A call that raises after the write -/

/-- The plain bisect with a pasted guest whose `closure` group is a list. -/
def pastedArgs : Args :=
  { plainArgs with guest := .obj [("kernel", .obj []), ("closure", .arr [])] }

end KdevopsNg.Kernel
