/-
# `Kernel.BisectRefine` — `main` runs the session machine

`Session.encode` is the `state.json` of a session.  On a world whose
`state.json` is such a text, a call of `main` is one of

    reset        `initial` of the endpoints git resolves, or no state at all
                 when git fails on the way                      (`main_reset`)
    advance      nothing changed, git asked and failing, or `next` with the
                 verdict of the reports and git's answer      (`main_advance`)

and `Session.ask` is the question a decision puts to git.  So an invariant of
the machine is one of `state.json`, whatever the reports say and git answers.

`Args.agrees` is what the stale test compares: seven of the inputs.
-/
import KdevopsNg.Kernel.BisectMachine

namespace KdevopsNg.Kernel

open Py Py.Exec

/-! ## The text of a session -/

/-- A recorded decision in `state.json`. -/
def Iteration.encode (i : Iteration) : Json :=
  .obj [("phase", .str i.phase.name), ("candidate", .str i.candidate),
    ("verdict", .str i.verdict.name)]

/-- The `outcome` of `state.json`, empty while the session goes on. -/
def outcomeText : Option Outcome → String
  | none => ""
  | some o => o.name

/-- The `first_bad` entry, present once the first bad commit is found. -/
def firstBadEntry : Option Outcome → Dict Json
  | some (.firstBadFound sha) => [("first_bad", .str sha)]
  | _ => []

/-- The `state.json` of a session that a call with the arguments `r` began. -/
def Session.encode (r : Args) (decidedAt : ℚ) (s : Session) : Json :=
  .obj ([
    ("good", .str r.good), ("bad", .str r.bad), ("suites", strs r.suites),
    ("payload", .str r.payload), ("error_re", .str r.errorRe),
    ("max_runtime", .num r.maxRuntime), ("guest", r.pasted),
    ("good_sha", .str s.goodSha), ("bad_sha", .str s.badSha),
    ("phase", .str s.phase.name), ("candidate", .str s.candidate),
    ("decided_at", .num decidedAt), ("steps", .num (s.steps : ℕ)),
    ("iterations", .arr (s.iterations.map Iteration.encode)),
    ("outcome", .str (outcomeText s.outcome))] ++ firstBadEntry s.outcome)

/-- The inputs the stale test compares: those of `a` are those of `r`. -/
structure Args.agrees (r a : Args) : Prop where
  good : r.good = a.good
  bad : r.bad = a.bad
  suites : r.suites = a.suites
  payload : r.payload = a.payload
  errorRe : r.errorRe = a.errorRe
  maxRuntime : r.maxRuntime = a.maxRuntime
  guest : r.pasted.eq a.pasted = true

theorem outcome_name_ne (o : Outcome) : o.name ≠ "" := by
  cases o <;> simp [Outcome.name]

/-- Two lists of strings are equal as JSON values when they are equal. -/
theorem strs_eq (xs ys : List String) : (strs xs).eq (strs ys) = true ↔ xs = ys := by
  have h : ∀ xs ys : List String,
      Json.eqList (xs.map Json.str) (ys.map Json.str) = true ↔ xs = ys := by
    intro xs
    induction xs with
    | nil => intro ys; cases ys <;> simp [Json.eqList]
    | cons x xs ih => intro ys; cases ys <;> simp [Json.eqList, Json.eq, ih]
  simpa [strs, Json.eq] using h xs ys

/-- The stale test on a session's text. -/
theorem staleTest_encode_eq (r a : Args) (t : ℚ) (s : Session) :
    staleTest (s.encode r t) a = .ok (!decide (r.good = a.good) || !decide (r.bad = a.bad) ||
      !(strs r.suites).eq (strs a.suites) || !decide (r.payload = a.payload) ||
      !decide (r.errorRe = a.errorRe) || !decide (r.maxRuntime = a.maxRuntime) ||
      !r.pasted.eq a.pasted || decide (outcomeText s.outcome ≠ "")) := rfl

/-- A call that does not start over agrees with the one that began the session,
and the session has not ended. -/
theorem staleTest_encode {r a : Args} {t : ℚ} {s : Session}
    (h : staleTest (s.encode r t) a = .ok false) : r.agrees a ∧ s.outcome = none := by
  rw [staleTest_encode_eq] at h
  have h := Except.ok.inj h
  simp only [Bool.or_eq_false_iff, Bool.not_eq_false', decide_eq_true_eq, strs_eq,
    decide_eq_false_iff_not, not_not] at h
  obtain ⟨⟨⟨⟨⟨⟨⟨hg, hb⟩, hs⟩, hp⟩, he⟩, hm⟩, hgu⟩, ho⟩ := h
  refine ⟨⟨hg, hb, hs, hp, he, hm, hgu⟩, ?_⟩
  cases hso : s.outcome with
  | none => rfl
  | some o => rw [hso] at ho; exact absurd ho (outcome_name_ne o)

/-! ## One decision -/

section
variable {γ : Type}

/-- A text that cannot be an argument of a command. -/
def hasNul (s : String) : Prop := Char.ofNat 0 ∈ s.toList

instance (s : String) : Decidable (hasNul s) := inferInstanceAs (Decidable (_ ∈ _))

/-- What `git bisect start` on two commits answers, none when it cannot be asked
or fails; and the clone afterwards. -/
def askStart (git : Git γ) (badSha goodSha : String) (repo : γ) : Option Answer × γ :=
  if hasNul badSha ∨ hasNul goodSha then (none, repo)
  else
    let r := git.bisectStart repo badSha goodSha
    (if r.1 then (capture (git.bisectHead r.2)).toOption.map (Answer.mk "") else none, r.2)

/-- What `git bisect` answers to a verdict. -/
def askFeed (git : Git γ) (v : Verdict) (sha : String) (repo : γ) : Option Answer × γ :=
  if hasNul sha then (none, repo)
  else
    let r := git.bisectFeed repo v.name sha
    (match r.1 with
      | none => none
      | some out =>
          if namesFirstBad out then some ⟨out, ""⟩
          else (capture (git.bisectHead r.2)).toOption.map (Answer.mk out), r.2)

/-- An answer to a start: the bisect started, and `BISECT_HEAD` was read. -/
theorem askStart_some {git : Git γ} {badSha goodSha : String} {repo : γ} {ans : Answer}
    (h : (askStart git badSha goodSha repo).1 = some ans) :
    (askStart git badSha goodSha repo).2 = (git.bisectStart repo badSha goodSha).2 ∧
      (git.bisectStart repo badSha goodSha).1 = true ∧
      capture (git.bisectHead (git.bisectStart repo badSha goodSha).2) = .ok ans.head := by
  unfold askStart at h ⊢
  by_cases hn : hasNul badSha ∨ hasNul goodSha
  · simp [hn] at h
  · simp only [hn, if_false] at h ⊢
    by_cases hs : (git.bisectStart repo badSha goodSha).1 = true
    · simp only [hs, if_true] at h
      refine ⟨trivial, hs, ?_⟩
      cases hc : capture (git.bisectHead (git.bisectStart repo badSha goodSha).2) with
      | error e => simp [hc, Except.toOption] at h
      | ok head =>
          simp only [hc, Except.toOption, Option.map_some, Option.some.injEq] at h
          rw [← h]
    · simp [hs] at h

/-- An answer to a verdict: the feed printed it, and unless it names a first bad
commit, `BISECT_HEAD` was read. -/
theorem askFeed_some {git : Git γ} {v : Verdict} {sha : String} {repo : γ} {ans : Answer}
    (h : (askFeed git v sha repo).1 = some ans) :
    (askFeed git v sha repo).2 = (git.bisectFeed repo v.name sha).2 ∧
      (git.bisectFeed repo v.name sha).1 = some ans.out ∧
      (namesFirstBad ans.out = false →
        capture (git.bisectHead (git.bisectFeed repo v.name sha).2) = .ok ans.head) := by
  unfold askFeed at h ⊢
  by_cases hn : hasNul sha
  · simp [hn] at h
  · simp only [hn, if_false] at h ⊢
    refine ⟨trivial, ?_⟩
    cases hf : (git.bisectFeed repo v.name sha).1 with
    | none => simp [hf] at h
    | some out =>
        simp only [hf] at h
        by_cases hb : namesFirstBad out = true
        · simp only [hb, if_true, Option.some.injEq] at h
          rw [← h]
          exact ⟨rfl, fun hx => by simp [hb] at hx⟩
        · simp only [hb, Bool.false_eq_true, if_false] at h
          cases hc : capture (git.bisectHead (git.bisectFeed repo v.name sha).2) with
          | error e => simp [hc, Except.toOption] at h
          | ok head =>
              simp only [hc, Except.toOption, Option.map_some, Option.some.injEq] at h
              rw [← h]
              exact ⟨rfl, fun _ => rfl⟩

/-- The question a decision puts to git.  Only a good verdict on the good
endpoint and the verdicts of the bisect phase reach it. -/
def Session.ask (git : Git γ) (v : Verdict) (s : Session) (repo : γ) : Option Answer × γ :=
  match s.phase, v with
  | .verifyGood, .good => askStart git s.badSha s.goodSha repo
  | .bisect, v => askFeed git v s.candidate repo
  | _, _ => (some ⟨"", ""⟩, repo)

/-- The verdict the reports give on the candidate of a session. -/
def sessionVerdict (env : Env) (a : Args) (payload : Payload) (sdir : Path) (decidedAt : ℚ) :
    Except PyError Verdict := do
  let candidates ← reportCandidates env.host payload a.vmName sdir env.disk
  let verdict ← freshVerdict env.disk candidates decidedAt a.maxRuntime
  .ok (verdict.getD .skip)

/-- What a decision is about, as `main` reads it. -/
def Session.reading (s : Session) (v : Verdict) : Reading :=
  ⟨v, .str s.candidate, .str s.phase.name⟩

theorem reading_encode (env : Env) (a r : Args) (payload : Payload) (sdir : Path) (t : ℚ)
    (s : Session) :
    reading env a payload sdir (s.encode r t) =
      (sessionVerdict env a payload sdir t).map s.reading := by
  unfold reading sessionVerdict
  cases reportCandidates env.host payload a.vmName sdir env.disk with
  | error e => rfl
  | ok candidates =>
      show (do
        let verdict ← freshVerdict env.disk candidates t a.maxRuntime
        .ok ⟨verdict.getD .skip, .str s.candidate, .str s.phase.name⟩ : Except PyError Reading) =
        (do
          let verdict ← freshVerdict env.disk candidates t a.maxRuntime
          .ok (verdict.getD .skip) : Except PyError Verdict).map s.reading
      cases freshVerdict env.disk candidates t a.maxRuntime with
      | error e => rfl
      | ok v => rfl

theorem argWord_of_nul {x : String} (h : hasNul x) :
    argWord (.str x) = .error (.valueError "embedded null byte") := if_pos h

theorem argWord_of_not_nul {x : String} (h : ¬ hasNul x) : argWord (.str x) = .ok x := if_neg h

theorem startBisect_ask (git : Git γ) (badSha goodSha : String) (w : World γ) :
    (∃ head, (askStart git badSha goodSha w.repo).1 = some ⟨"", head⟩ ∧
      startBisect git (.str badSha) (.str goodSha) w =
        (.ok head, { w with repo := (askStart git badSha goodSha w.repo).2 })) ∨
    ((askStart git badSha goodSha w.repo).1 = none ∧
      ∃ e, startBisect git (.str badSha) (.str goodSha) w =
        (.error e, { w with repo := (askStart git badSha goodSha w.repo).2 })) := by
  unfold startBisect askStart
  by_cases hb : hasNul badSha
  · simp [hb, argWord_of_nul hb]
  by_cases hg : hasNul goodSha
  · simp [hb, hg, argWord_of_nul hg, argWord_of_not_nul hb]
  rw [argWord_of_not_nul hb, argWord_of_not_nul hg, lift_ok_bind, lift_ok_bind]
  simp only [hb, hg, or_self, if_false]
  rcases hs : git.bisectStart w.repo badSha goodSha with ⟨started, repo⟩
  cases started with
  | false =>
      have hrun : runGit "git bisect start" (fun r => git.bisectStart r badSha goodSha) w =
          (.error (.calledProcessError "git bisect start"), { w with repo := repo }) := by
        simp [runGit, hs]
      exact .inr ⟨by simp, _, bind_error _ hrun⟩
  | true =>
      have hrun : runGit "git bisect start" (fun r => git.bisectStart r badSha goodSha) w =
          (.ok (), { w with repo := repo }) := by
        simp [runGit, hs]
      rw [bind_ok _ hrun]
      cases hc : capture (git.bisectHead repo) with
      | error e => exact .inr ⟨by simp [Except.toOption], e, by simp [bisectHead, hc]⟩
      | ok head => exact .inl ⟨head, by simp [Except.toOption], by simp [bisectHead, hc]⟩

theorem countStep_encode (readInt : String → Option ℤ) (r : Args) (t : ℚ) (s : Session) :
    countStep readInt (s.encode r t) =
      .ok ({ s with steps := s.steps + 1 }.encode r t, ((s.steps + 1 : ℕ) : ℤ)) := by
  have hget : (s.encode r t).getItem "steps" = .ok (.num (s.steps : ℕ)) := rfl
  have hset : (s.encode r t).setItem "steps" (.num (((s.steps : ℕ) : ℤ) + 1 : ℤ)) =
      .ok ({ s with steps := s.steps + 1 }.encode r t) := by
    have hcast : (((((s.steps : ℕ) : ℤ) + 1 : ℤ)) : ℚ) = ((s.steps + 1 : ℕ) : ℚ) := by push_cast; rfl
    rw [hcast]
    rfl
  unfold countStep
  simp only [hget, bind, Except.bind, Json.toInt_num, Json.truncate_natCast, hset]
  rfl

/-- The decision of the bisect phase, as `main` takes it from git's answer. -/
theorem conclude_encode (git : Git γ) (maxSteps : ℤ) (r : Args) (t : ℚ) {s : Session}
    (ho : s.outcome = none) (hp : s.phase = .bisect) (v : Verdict) (out : String) (w : World γ) :
    let x := conclude git maxSteps out ({ s with steps := s.steps + 1 }.encode r t)
      ((s.steps + 1 : ℕ) : ℤ) w
    if namesFirstBad out then x = (.ok ((s.decided maxSteps v ⟨out, ""⟩).encode r t), w)
    else match capture (git.bisectHead w.repo) with
      | .ok head => x = (.ok ((s.decided maxSteps v ⟨out, head⟩).encode r t), w)
      | .error e => x = (.error e, w) := by
  obtain ⟨goodSha, badSha, phase, candidate, steps, iterations, outcome⟩ := s
  cases (show outcome = none from ho)
  cases (show phase = .bisect from hp)
  unfold conclude Session.decided
  by_cases hf : namesFirstBad out = true
  · simp only [hf, if_true]
    rfl
  · simp only [hf]
    cases hc : capture (git.bisectHead w.repo) with
    | error e => exact bind_error _ (show bisectHead git w = (.error e, w) by simp [bisectHead, hc])
    | ok head =>
        simp only [Bool.false_eq_true, if_false]
        rw [bind_ok _ (show bisectHead git w = (.ok head, w) by simp [bisectHead, hc])]
        by_cases hh : head = ""
        · simp only [hh, if_true]; rfl
        · by_cases hm : maxSteps ≤ ((steps + 1 : ℕ) : ℤ)
          · simp only [hh, hm, if_true, if_false]; rfl
          · simp only [hh, hm, if_false]; rfl

theorem judgeBisect_ask (git : Git γ) (readInt : String → Option ℤ) (maxSteps : ℤ) (r : Args)
    (t : ℚ) {s : Session} (ho : s.outcome = none) (hp : s.phase = .bisect) (v : Verdict)
    (w : World γ) :
    (∃ ans, (askFeed git v s.candidate w.repo).1 = some ans ∧
      judgeBisect git readInt maxSteps (s.encode r t) (.str s.candidate) v w =
        (.ok ((s.decided maxSteps v ans).encode r t),
          { w with repo := (askFeed git v s.candidate w.repo).2 })) ∨
    ((askFeed git v s.candidate w.repo).1 = none ∧
      ∃ e, judgeBisect git readInt maxSteps (s.encode r t) (.str s.candidate) v w =
        (.error e, { w with repo := (askFeed git v s.candidate w.repo).2 })) := by
  unfold judgeBisect askFeed
  by_cases hn : hasNul s.candidate
  · simp [hn, argWord_of_nul hn]
  rw [argWord_of_not_nul hn, lift_ok_bind]
  simp only [hn, if_false]
  rcases hs : git.bisectFeed w.repo v.name s.candidate with ⟨out, repo⟩
  cases out with
  | none =>
      have hfeed : bisectFeed git v s.candidate w =
          (.error .unicodeDecodeError, { w with repo := repo }) := by simp [bisectFeed, hs]
      exact .inr ⟨rfl, _, bind_error _ hfeed⟩
  | some out =>
      have hfeed : bisectFeed git v s.candidate w = (.ok out, { w with repo := repo }) := by
        simp [bisectFeed, hs]
      rw [bind_ok _ hfeed, countStep_encode, lift_ok_bind]
      have hc := conclude_encode git maxSteps r t ho hp v out { w with repo := repo }
      by_cases hf : namesFirstBad out = true
      · simp only [hf, if_true] at hc ⊢
        exact .inl ⟨_, rfl, hc⟩
      · simp only [hf, Bool.false_eq_true, if_false] at hc ⊢
        cases hh : capture (git.bisectHead repo) with
        | error e => rw [hh] at hc; exact .inr ⟨rfl, e, hc⟩
        | ok head => rw [hh] at hc; exact .inl ⟨_, rfl, hc⟩

theorem judgeGood_ask (git : Git γ) (maxSteps : ℤ) (r : Args) (t : ℚ) {s : Session}
    (ho : s.outcome = none) (hp : s.phase = .verifyGood) (w : World γ) :
    (∃ ans, (askStart git s.badSha s.goodSha w.repo).1 = some ans ∧
      judgeGood git (s.encode r t) .good w =
        (.ok ((s.decided maxSteps .good ans).encode r t),
          { w with repo := (askStart git s.badSha s.goodSha w.repo).2 })) ∨
    ((askStart git s.badSha s.goodSha w.repo).1 = none ∧
      ∃ e, judgeGood git (s.encode r t) .good w =
        (.error e, { w with repo := (askStart git s.badSha s.goodSha w.repo).2 })) := by
  have hjudge : judgeGood git (s.encode r t) .good =
      startBisect git (.str s.badSha) (.str s.goodSha) >>= fun head =>
        lift (if head ≠ "" then do
            let state ← (s.encode r t).setItem "phase" (.str "bisect")
            state.setItem "candidate" (.str head)
          else (s.encode r t).setItem "outcome" (.str "inconclusive")) := rfl
  rw [hjudge]
  rcases startBisect_ask git s.badSha s.goodSha w with ⟨head, hans, hrun⟩ | ⟨hans, e, hrun⟩
  · refine .inl ⟨_, hans, ?_⟩
    rw [bind_ok _ hrun]
    obtain ⟨goodSha, badSha, phase, candidate, steps, iterations, outcome⟩ := s
    cases (show outcome = none from ho)
    cases (show phase = .verifyGood from hp)
    by_cases hh : head = ""
    · subst hh; rfl
    · simp only [ne_eq, hh, not_false_eq_true, if_true, Session.decided]; rfl
  · exact .inr ⟨hans, e, bind_error _ hrun⟩

/-- What `main` does to the state of a session is the machine's decision on git's
answer; it raises when git has none. -/
theorem judge_ask (git : Git γ) (readInt : String → Option ℤ) (maxSteps : ℤ) (r : Args)
    (t : ℚ) {s : Session} (ho : s.outcome = none) (v : Verdict) (w : World γ) :
    (∃ ans, (s.ask git v w.repo).1 = some ans ∧
      judge git readInt maxSteps (s.encode r t) (s.reading v) w =
        (.ok ((s.decided maxSteps v ans).encode r t),
          { w with repo := (s.ask git v w.repo).2 })) ∨
    ((s.ask git v w.repo).1 = none ∧
      ∃ e, judge git readInt maxSteps (s.encode r t) (s.reading v) w =
        (.error e, { w with repo := (s.ask git v w.repo).2 })) := by
  obtain ⟨goodSha, badSha, phase, candidate, steps, iterations, outcome⟩ := s
  cases (show outcome = none from ho)
  cases phase with
  | verifyBad => cases v <;> exact .inl ⟨⟨"", ""⟩, rfl, rfl⟩
  | verifyGood =>
      cases v with
      | bad => exact .inl ⟨⟨"", ""⟩, rfl, rfl⟩
      | skip => exact .inl ⟨⟨"", ""⟩, rfl, rfl⟩
      | good => exact judgeGood_ask git maxSteps r t rfl rfl w
  | bisect => exact judgeBisect_ask git readInt maxSteps r t rfl rfl v w

theorem recordIteration_encode (r : Args) (t : ℚ) (s : Session) (v : Verdict) (maxSteps : ℤ)
    (ans : Answer) :
    recordIteration ((s.decided maxSteps v ans).encode r t) (s.reading v) =
      .ok ((s.next maxSteps v ans).encode r t) := by
  have hi : (s.decided maxSteps v ans).iterations = s.iterations := by
    have hd := s.decided_spec maxSteps v ans
    generalize s.decided maxSteps v ans = s' at hd ⊢
    cases hd <;> rfl
  have hmap : (s.next maxSteps v ans).iterations.map Iteration.encode =
      (s.decided maxSteps v ans).iterations.map Iteration.encode ++
        [iterationEntry (s.reading v)] := by
    rw [hi, Session.next_iterations, List.map_append]
    rfl
  have hfields : (s.next maxSteps v ans).encode r t =
      Session.encode r t { s.decided maxSteps v ans with
        iterations := (s.next maxSteps v ans).iterations } := rfl
  rw [hfields]
  simp only [recordIteration, Session.encode, hmap]
  rfl

theorem writeState_encode (r : Args) (t now : ℚ) (s : Session) (w : World γ) :
    writeState now (s.encode r t) w =
      (.ok (s.encode r now), { w with stateFile := some (s.encode r now) }) := rfl

/-! ## One call -/

/-- The verdict the call reads on the session's candidate. -/
def Judges (env : Env) (a : Args) (w : World γ) (decidedAt : ℚ) (v : Verdict) : Prop :=
  ∃ st, start env a w = .ok st ∧ sessionVerdict env a st.payload st.sdir decidedAt = .ok v

/-- What a call that does not start over can do to a session: how it ends, and
the world it leaves. -/
inductive Advance (git : Git γ) (env : Env) (a r : Args) (t : ℚ) (s : Session) (w : World γ) :
    Except PyError Json × World γ → Prop where
  /-- It raised before git was asked. -/
  | unread (e : PyError) : Advance git env a r t s w (.error e, w)
  /-- Git could not be asked, or failed. -/
  | refused (v : Verdict) (e : PyError) (hask : (s.ask git v w.repo).1 = none)
      (ho : s.outcome = none) :
      Advance git env a r t s w (.error e, { w with repo := (s.ask git v w.repo).2 })
  /-- The decision was recorded; `main` may still raise on the result. -/
  | recorded (v : Verdict) (ans : Answer) (x : Except PyError Json) (hv : Judges env a w t v)
      (hask : (s.ask git v w.repo).1 = some ans) (hagree : r.agrees a) (ho : s.outcome = none) :
      Advance git env a r t s w
        (x, ⟨some ((s.next a.maxSteps v ans).encode r env.now), (s.ask git v w.repo).2⟩)

/-- Once the checks before the branch passed, a call is its branch, the write and
the result. -/
theorem main_of_start (git : Git γ) (env : Env) (a : Args) (w : World γ) {st : Start}
    (hst : start env a w = .ok st) :
    main git env a w = ((branch git env a st >>= writeState env.now) >>= fun state =>
      lift (result a st.payload state)) w := by
  unfold main
  rw [bind_ok _ (get_apply w), hst, lift_ok_bind, bind_assoc']

theorem main_of_start_error (git : Git γ) (env : Env) (a : Args) (w : World γ) {e : PyError}
    (hst : start env a w = .error e) : main git env a w = (.error e, w) := by
  unfold main
  rw [bind_ok _ (get_apply w), hst]
  rfl

/-- The stale test is the last thing before the branch. -/
theorem start_stale {env : Env} {a : Args} {w : World γ} {st : Start}
    (hst : start env a w = .ok st) : staleTest w.state a = .ok st.stale := by
  unfold start at hst
  cases hc : checkArgs a with
  | error e => simp [hc, bind, Except.bind] at hst
  | ok payload =>
      cases hd : stateDir env.host a.vmName with
      | error e => simp [hc, hd, bind, Except.bind] at hst
      | ok sdir =>
          cases hg : env.gitBin with
          | false => simp [hc, hd, hg, bind, Except.bind] at hst
          | true =>
              cases hs : staleTest w.state a with
              | error e => simp [hc, hd, hg, hs, bind, Except.bind] at hst
              | ok b =>
                  simp only [hc, hd, hg, hs, bind, Except.bind, if_true, Except.ok.injEq] at hst
                  rw [← hst]

/-- A call on the state of a session that does not start over. -/
theorem main_advance (git : Git γ) (env : Env) (a r : Args) (t : ℚ) (s : Session) (w : World γ)
    (hw : w.stateFile = some (s.encode r t)) (hr : isReset env a w = false) :
    Advance git env a r t s w (main git env a w) := by
  have hstate : w.state = s.encode r t := by simp [World.state, hw]
  cases hst : start env a w with
  | error e => rw [main_of_start_error git env a w hst]; exact .unread e
  | ok st =>
      have hstale : st.stale = false := by simpa [isReset, hst] using hr
      have htest := start_stale hst
      rw [hstate, hstale] at htest
      obtain ⟨hagree, ho⟩ := staleTest_encode htest
      have hbranch : branch git env a st w = advance git env a st (s.encode r t) w := by
        unfold branch
        rw [bind_ok _ (get_apply w), hstale, hstate]
        rfl
      rw [main_of_start git env a w hst]
      cases hv : sessionVerdict env a st.payload st.sdir t with
      | error e =>
          have hadv : advance git env a st (s.encode r t) w = (.error e, w) := by
            unfold advance
            rw [reading_encode, hv]
            rfl
          rw [bind_error _ (bind_error _ (hbranch.trans hadv))]
          exact .unread e
      | ok v =>
          have hadv : advance git env a st (s.encode r t) =
              judge git env.readInt a.maxSteps (s.encode r t) (s.reading v) >>= fun state =>
                lift (recordIteration state (s.reading v)) := by
            unfold advance
            rw [reading_encode, hv]
            rfl
          rw [hadv] at hbranch
          rcases judge_ask git env.readInt a.maxSteps r t ho v w with
            ⟨ans, hans, hjudge⟩ | ⟨hans, e, hjudge⟩
          · rw [bind_ok _ hjudge, recordIteration_encode, lift_apply] at hbranch
            rw [bind_ok _ (Eq.trans (bind_ok _ hbranch) (writeState_encode r t env.now _ _))]
            exact .recorded v ans _ ⟨st, hst, hv⟩ hans hagree ho
          · rw [bind_error _ hjudge] at hbranch
            rw [bind_error _ (bind_error _ hbranch)]
            exact .refused v e hans ho

/-- The commands and the reference lookups of a reset do not touch `state.json`. -/
def SameFile (w w' : World γ) : Prop := w'.stateFile = w.stateFile

instance : Std.Refl (SameFile (γ := γ)) := ⟨fun _ => rfl⟩

instance : IsTrans (World γ) SameFile := ⟨fun _ _ _ h h' => h'.trans h⟩

theorem within_runGit (name : String) (cmd : γ → Bool × γ) :
    Within SameFile (runGit name cmd) := fun _ => rfl

theorem within_resolve (git : Git γ) (repo : Path) (ref : String) :
    Within SameFile (resolve git repo ref) := by
  refine within_bind (within_lift _) fun ref => within_bind within_get fun w =>
    within_bind (within_lift _) fun sha => within_ite (fun _ => within_pure _) fun _ =>
    within_bind (within_lift _) fun sha => within_ite (fun _ => within_pure _) fun _ =>
    within_raise _

/-- A reset drops `state.json`; the state it goes on with is a new session. -/
theorem reset_spec (git : Git γ) (a : Args) (sdir : Path) (w : World γ) :
    ((reset git a sdir w).2).stateFile = none ∧ ∀ state, (reset git a sdir w).1 = .ok state →
      ∃ goodSha badSha, state = (Session.initial goodSha badSha).encode a 0 := by
  have hrest : Within SameFile (do
      runGit "git clone" git.clone
      let badSha ← resolve git (sdir ++ ["repo"]) a.bad
      runGit "git update-ref" (fun r => git.updateRef r badSha)
      runGit "git symbolic-ref" git.symbolicRef
      let goodSha ← resolve git (sdir ++ ["repo"]) a.good
      pure (initialState a goodSha badSha) : Exec (World γ) Json) :=
    within_bind (within_runGit _ _) fun _ => within_bind (within_resolve _ _ _) fun _ =>
      within_bind (within_runGit _ _) fun _ => within_bind (within_runGit _ _) fun _ =>
      within_bind (within_resolve _ _ _) fun _ => within_pure _
  refine ⟨hrest ⟨none, git.rmtree w.repo⟩, fun state h => ?_⟩
  obtain ⟨-, w₁, -, h⟩ := bind_ok_inv (show reset git a sdir w = (.ok state, _) from Prod.ext h rfl)
  obtain ⟨-, w₂, -, h⟩ := bind_ok_inv h
  obtain ⟨badSha, w₃, -, h⟩ := bind_ok_inv h
  obtain ⟨-, w₄, -, h⟩ := bind_ok_inv h
  obtain ⟨-, w₅, -, h⟩ := bind_ok_inv h
  obtain ⟨goodSha, w₆, -, h⟩ := bind_ok_inv h
  cases h
  exact ⟨goodSha, badSha, rfl⟩

/-- The states a reset can leave: none, when git failed on the way, or a new
session. -/
theorem main_reset (git : Git γ) (env : Env) (a : Args) (w : World γ)
    (hr : isReset env a w = true) :
    (main git env a w).2.stateFile = none ∨ ∃ goodSha badSha,
      (main git env a w).2.stateFile = some ((Session.initial goodSha badSha).encode a env.now) := by
  cases hst : start env a w with
  | error e => simp [isReset, hst] at hr
  | ok st =>
      have hstale : st.stale = true := by simpa [isReset, hst] using hr
      have hbranch : branch git env a st w = reset git a st.sdir w := by
        unfold branch
        rw [bind_ok _ (get_apply w), hstale]
        rfl
      obtain ⟨hnone, hok⟩ := reset_spec git a st.sdir w
      rw [main_of_start git env a w hst, bind_lift_snd, bind_apply, hbranch]
      rcases hres : reset git a st.sdir w with ⟨e | state, w'⟩
      · rw [hres] at hnone; exact .inl hnone
      · rw [hres] at hok
        obtain ⟨goodSha, badSha, rfl⟩ := hok state rfl
        exact .inr ⟨goodSha, badSha, rfl⟩

end

end KdevopsNg.Kernel
