/-
# `Kernel.BisectFresh` — no candidate is handed out twice

Here git is not arbitrary: `Documented` states what `git bisect` promises of the
commits it names.  A feed marks the commit; afterwards `BISECT_HEAD` is a commit
that is not marked, unless git names the first bad commit, or only skipped
commits remain, in which case it says so and leaves `BISECT_HEAD` where it was.

The step reads that last answer as a next candidate, so it hands the skipped
commit out again (`handed_out_again`).  A run without such an answer, or whose
step budget is used up when it comes, only hands out commits it has not decided
(`run_fresh`).

`linearGit` is a git with this documentation whose history is a chain.
-/
import KdevopsNg.Kernel.BisectSafety

namespace KdevopsNg.Kernel

open Py Py.Exec Sys

section
variable {γ : Type} {git : Git γ} {marked : γ → List String} {onlySkipped : γ → Prop}

/-- What `git bisect` promises: `marked` are the commits given a verdict since
the bisect started, and `onlySkipped` says that each commit left to test was
skipped. -/
structure Documented (git : Git γ) (marked : γ → List String) (onlySkipped : γ → Prop) :
    Prop where
  /-- `BISECT_HEAD` is a commit id, or there is none. -/
  head : ∀ repo, ∃ c, capture (git.bisectHead repo) = .ok c ∧ ¬ hasNul c
  /-- A started bisect names a commit without a verdict, if any. -/
  start : ∀ repo bad good c, (git.bisectStart repo bad good).1 = true →
    capture (git.bisectHead (git.bisectStart repo bad good).2) = .ok c → c ≠ "" →
      c ∉ marked (git.bisectStart repo bad good).2
  /-- A verdict on the commit `BISECT_HEAD` names is taken. -/
  feed : ∀ repo (v : Verdict) c, capture (git.bisectHead repo) = .ok c → c ≠ "" →
    ∃ out, (git.bisectFeed repo v.name c).1 = some out ∧
      c ∈ marked (git.bisectFeed repo v.name c).2 ∧
      marked repo ⊆ marked (git.bisectFeed repo v.name c).2
  /-- While a commit without a verdict remains, `BISECT_HEAD` moves to one. -/
  moves : ∀ repo (v : Verdict) c c' out, capture (git.bisectHead repo) = .ok c → c ≠ "" →
    (git.bisectFeed repo v.name c).1 = some out → namesFirstBad out = false →
    ¬ onlySkipped (git.bisectFeed repo v.name c).2 →
    capture (git.bisectHead (git.bisectFeed repo v.name c).2) = .ok c' → c' ≠ "" →
      c' ∉ marked (git.bisectFeed repo v.name c).2
  /-- When only skipped commits remain, no first bad commit is named and
  `BISECT_HEAD` stays. -/
  stays : ∀ repo (v : Verdict) c out, capture (git.bisectHead repo) = .ok c → c ≠ "" →
    onlySkipped (git.bisectFeed repo v.name c).2 → (git.bisectFeed repo v.name c).1 = some out →
      namesFirstBad out = false ∧
      git.bisectHead (git.bisectFeed repo v.name c).2 = git.bisectHead repo

/-- A call on the host; the git is the same for the whole run. -/
structure HostCall where
  env : Env
  args : Args

/-- The world after a call. -/
def hostStep (git : Git γ) (w : World γ) (c : HostCall) : World γ := (main git c.env c.args w).2

/-- Every candidate of a bisect that has not ended is a commit git has no verdict
for, and differs from every commit decided so far. -/
def Fresh (marked : γ → List String) (w : World γ) : Prop :=
  ∀ text, w.stateFile = some text → ∃ r s t, text = Session.encode r t s ∧
    (s.outcome = none → s.phase = .bisect →
      s.candidate ∉ marked w.repo ∧ ∀ i ∈ s.bisected, i.candidate ≠ s.candidate)

/-- The condition on one call: when the verdict it feeds leaves only skipped
commits, the step budget is used up. -/
def Continues (git : Git γ) (onlySkipped : γ → Prop) (w : World γ) (c : HostCall) : Prop :=
  isReset c.env c.args w = false → ∀ r s t v, w.stateFile = some (Session.encode r t s) →
    s.phase = .bisect → Judges c.env c.args w t v →
    onlySkipped (git.bisectFeed w.repo v.name s.candidate).2 →
    c.args.maxSteps ≤ (s.steps : ℤ) + 1

/-- What carries `Fresh` through a run: the candidate is what `BISECT_HEAD`
names, and git has a verdict for every commit decided. -/
structure InStep (git : Git γ) (marked : γ → List String) (repo : γ) (s : Session) : Prop where
  early : s.phase ≠ .bisect → s.bisected = []
  head : s.outcome = none → s.phase = .bisect → capture (git.bisectHead repo) = .ok s.candidate ∧
    s.candidate ≠ "" ∧ s.candidate ∉ marked repo
  decided : s.outcome = none → s.phase = .bisect → ∀ i ∈ s.bisected, i.candidate ∈ marked repo

/-- The state on disk is in step with git. -/
def AllInStep (git : Git γ) (marked : γ → List String) (w : World γ) : Prop :=
  ∀ text, w.stateFile = some text → ∃ r s t, text = Session.encode r t s ∧
    InStep git marked w.repo s

theorem AllInStep.fresh {w : World γ} (h : AllInStep git marked w) : Fresh marked w := by
  intro text htext
  obtain ⟨r, s, t, rfl, hs⟩ := h text htext
  refine ⟨r, s, t, rfl, fun ho hp => ⟨(hs.head ho hp).2.2, fun i hi heq => ?_⟩⟩
  exact (hs.head ho hp).2.2 (heq ▸ hs.decided ho hp i hi)

/-- A decision keeps the session in step with git, when git's last answer is not
that only skipped commits remain, or ends the session. -/
theorem InStep.next (hdoc : Documented git marked onlySkipped) {repo : γ} {s : Session}
    (h : InStep git marked repo s) (ho : s.outcome = none) (maxSteps : ℤ) {v : Verdict}
    {ans : Answer} (hask : (s.ask git v repo).1 = some ans)
    (hskip : s.phase = .bisect → onlySkipped (git.bisectFeed repo v.name s.candidate).2 →
      maxSteps ≤ (s.steps : ℤ) + 1) :
    InStep git marked (s.ask git v repo).2 (s.next maxSteps v ans) := by
  have hb := s.next_bisected maxSteps v ans
  have hd := s.decided_spec maxSteps v ans
  unfold Session.next at hb ⊢
  generalize s.decided maxSteps v ans = s' at hb hd ⊢
  cases hd with
  | endpoint o hp _ _ _ =>
      refine ⟨fun _ => ?_, fun hx => by simp at hx, fun hx => by simp at hx⟩
      rw [hb, h.early hp, if_neg hp]; rfl
  | badFails hp hv =>
      have hne : s.phase ≠ .bisect := by simp [hp]
      refine ⟨fun _ => ?_, fun _ hx => by simp at hx, fun _ hx => by simp at hx⟩
      rw [hb, h.early hne, if_neg hne]; rfl
  | ended o hp _ =>
      exact ⟨fun hx => absurd hp hx, fun hx => by simp at hx, fun hx => by simp at hx⟩
  | goodPasses hp hv hh =>
      have hne : s.phase ≠ .bisect := by simp [hp]
      have hstart : s.ask git v repo = askStart git s.badSha s.goodSha repo := by
        simp only [Session.ask, hp, hv]
      rw [hstart] at hask ⊢
      obtain ⟨hrepo, hstarted, hhead⟩ := askStart_some hask
      refine ⟨fun hx => absurd rfl hx, fun _ _ => ?_, fun _ _ i hi => ?_⟩
      · rw [hrepo]
        exact ⟨hhead, hh, hdoc.start repo s.badSha s.goodSha ans.head hstarted hhead hh⟩
      · rw [hb, h.early hne, if_neg hne] at hi
        cases hi
  | goesOn hp hlt hh hout =>
      have hfeed : s.ask git v repo = askFeed git v s.candidate repo := by
        simp only [Session.ask, hp]
      rw [hfeed] at hask ⊢
      obtain ⟨hrepo, hfed, hhead⟩ := askFeed_some hask
      obtain ⟨hcand, hne, -⟩ := h.head ho hp
      obtain ⟨out, hout', hmark, hsub⟩ := hdoc.feed repo v s.candidate hcand hne
      have hleft : ¬ onlySkipped (git.bisectFeed repo v.name s.candidate).2 := by
        intro hos
        have hle := hskip hp hos
        omega
      refine ⟨fun hx => absurd hp hx, fun _ _ => ?_, fun _ _ i hi => ?_⟩
      · rw [hrepo]
        exact ⟨hhead hout, hh, hdoc.moves repo v s.candidate ans.head ans.out hcand hne hfed hout
          hleft (hhead hout) hh⟩
      · rw [hb, if_pos hp] at hi
        rw [hrepo]
        rcases List.mem_append.mp hi with hi | hi
        · exact hsub (h.decided ho hp i hi)
        · rw [List.mem_singleton.mp hi]; exact hmark

/-- A git command that gave no answer left the session in step all the same:
either the bisect has not started, or git was not asked. -/
theorem InStep.refused (hdoc : Documented git marked onlySkipped) {repo : γ} {s : Session}
    (h : InStep git marked repo s) (ho : s.outcome = none) {v : Verdict}
    (hask : (s.ask git v repo).1 = none) : InStep git marked (s.ask git v repo).2 s := by
  cases hp : s.phase with
  | bisect =>
      obtain ⟨hcand, hne, -⟩ := h.head ho hp
      obtain ⟨out, hout, -⟩ := hdoc.feed repo v s.candidate hcand hne
      obtain ⟨c, hc, hnul⟩ := hdoc.head repo
      obtain rfl : c = s.candidate := Except.ok.inj (hc.symm.trans hcand)
      obtain ⟨c', hc', -⟩ := hdoc.head (git.bisectFeed repo v.name s.candidate).2
      simp only [Session.ask, hp, askFeed, hnul, if_false, hout] at hask
      by_cases hf : namesFirstBad out = true
      · simp [hf] at hask
      · simp [hf, hc', Except.toOption] at hask
  | _ =>
      refine ⟨fun _ => h.early (by simp [hp]), fun _ hx => ?_, fun _ hx => ?_⟩
      · simp [hp] at hx
      · simp [hp] at hx

/-- The step lemma. -/
theorem hostStep_inStep (hdoc : Documented git marked onlySkipped) (w : World γ) (c : HostCall)
    (h : AllInStep git marked w) (hc : Continues git onlySkipped w c) :
    AllInStep git marked (hostStep git w c) := by
  intro text htext
  cases hr : isReset c.env c.args w with
  | true =>
      rcases main_reset git c.env c.args w hr with hnone | ⟨g, b, hsome⟩
      · rw [hostStep, hnone] at htext; cases htext
      · rw [hostStep, hsome] at htext
        refine ⟨c.args, _, _, (Option.some.inj htext).symm, fun _ => rfl, ?_, ?_⟩
        · intro _ hx; cases hx
        · intro _ hx; cases hx
  | false =>
      cases hw : w.stateFile with
      | none =>
          have hsame : hostStep git w c = w :=
            callStep_of_none (a := c.args) (c := ⟨git, c.env⟩) hw hr
          rw [hsame, hw] at htext; cases htext
      | some old =>
          obtain ⟨r, s, t, rfl, hs⟩ := h old hw
          have hadv := main_advance git c.env c.args r t s w hw hr
          unfold hostStep at htext ⊢
          generalize main git c.env c.args w = res at hadv htext ⊢
          cases hadv with
          | unread e => exact h text htext
          | refused v e hask ho =>
              rw [hw] at htext
              exact ⟨r, s, t, (Option.some.inj htext).symm, hs.refused hdoc ho hask⟩
          | recorded v ans x hv hask hagree ho =>
              refine ⟨r, _, _, (Option.some.inj htext).symm,
                hs.next hdoc ho c.args.maxSteps hask fun hp hos => ?_⟩
              exact hc hr r s t v hw hp hv hos

/-- In every run from a state without a bisect, with git as documented, whose
calls only leave skipped commits when the step budget is used up, the candidate
of a bisect that has not ended is a commit without a verdict, and no commit
decided before. -/
theorem run_fresh (hdoc : Documented git marked onlySkipped) {w₀ : World γ}
    (h₀ : w₀.stateFile = none) (cs : List HostCall)
    (hcs : Along (hostStep git) (Continues git onlySkipped) w₀ cs) :
    Fresh marked (run (hostStep git) w₀ cs) := by
  have hstart : AllInStep git marked w₀ := fun text htext => by simp [h₀] at htext
  exact (run_inv_of (hostStep_inStep hdoc) hstart hcs).fresh

end

/-! ## A git on a chain of commits -/

/-- A bisect over a chain: the commits a fault can still be in, oldest first,
between the last good and the first known bad one; the ids with a verdict; and
the commit `BISECT_HEAD` names. -/
structure Chain where
  suspects : List ℕ
  bad : String
  marked : List String
  head : Option ℕ
  deriving DecidableEq

/-- The id of a commit. -/
def commitId (k : ℕ) : String := String.ofList (List.replicate (k + 1) 'a')

/-- The suspects without a verdict. -/
def Chain.left (r : Chain) : List ℕ := r.suspects.filter (fun k => commitId k ∉ r.marked)

/-- Name the next commit, or say why there is none. -/
def Chain.settle (r : Chain) : String × Chain :=
  match r.left[r.left.length / 2]? with
  | some k => ("Bisecting", { r with head := some k })
  | none =>
      if r.suspects = [] then (r.bad ++ " is the first bad commit", r)
      else ("There are only 'skip'ped commits left to test.", r)

/-- What a verdict on a commit leaves to suspect. -/
def Chain.judge (r : Chain) (verdict sha : String) : Chain :=
  { r with
    suspects :=
      if verdict = "good" then (r.suspects.dropWhile (commitId · ≠ sha)).drop 1
      else if verdict = "bad" then r.suspects.takeWhile (commitId · ≠ sha)
      else r.suspects
    bad := if verdict = "bad" then sha else r.bad
    marked := sha :: r.marked }

/-- `git bisect` over a chain of `n` commits between the endpoints. -/
def linearGit (n : ℕ) : Git Chain where
  rmtree r := r
  clone r := (true, r)
  revParse _ ref := some ref
  updateRef r _ := (true, r)
  symbolicRef r := (true, r)
  bisectStart _ bad _ := (true, (Chain.settle ⟨List.range n, bad, [], none⟩).2)
  bisectFeed r verdict sha :=
    (some (r.judge verdict sha).settle.1, (r.judge verdict sha).settle.2)
  bisectHead r := some (match r.head with
    | some k => commitId k
    | none => "")

/-- Each commit left to test was skipped. -/
def Chain.onlySkipped (r : Chain) : Prop := r.left = [] ∧ r.suspects ≠ []

instance (r : Chain) : Decidable r.onlySkipped := inferInstanceAs (Decidable (_ ∧ _))

theorem capture_commitId (k : ℕ) : capture (some (commitId k)) = .ok (commitId k) := by
  have hdrop (n : ℕ) : (List.replicate (n + 1) 'a').dropWhile Text.isSpace =
      List.replicate (n + 1) 'a' := by
    rw [List.replicate_succ, List.dropWhile_cons_of_neg (by decide)]
  simp [capture, commitId, Text.strip, Text.stripBy, hdrop]

theorem Chain.settle_marked (r : Chain) : r.settle.2.marked = r.marked := by
  unfold settle
  split
  · rfl
  · split <;> rfl

/-- The commit a settled chain names has no verdict, unless there is none to
name. -/
theorem Chain.settle_cases (r : Chain) :
    (∃ k, r.settle.2 = { r with head := some k } ∧ commitId k ∉ r.marked ∧ r.left ≠ []) ∨
    (r.settle.2 = r ∧ r.left = [] ∧ r.suspects = [] ∧ namesFirstBad r.settle.1 = true) ∨
    (r.settle.2 = r ∧ r.onlySkipped ∧ namesFirstBad r.settle.1 = false) := by
  unfold settle
  cases hk : r.left[r.left.length / 2]? with
  | some k =>
      have hmem : k ∈ r.left := List.mem_of_getElem? hk
      have hmarked : commitId k ∉ r.marked := by simpa [left] using (List.mem_filter.mp hmem).2
      exact .inl ⟨k, rfl, hmarked, List.ne_nil_of_mem hmem⟩
  | none =>
      have hnil : r.left = [] := by
        rw [List.getElem?_eq_none_iff] at hk
        exact List.length_eq_zero_iff.mp (by omega)
      by_cases hs : r.suspects = []
      · refine .inr (.inl ⟨by simp [hs], hnil, hs, ?_⟩)
        simp only [hs, if_true, namesFirstBad, Text.isInfix_iff, String.toList_append]
        exact ⟨r.bad.toList ++ [' '], [], by simp [firstBad]⟩
      · refine .inr (.inr ⟨by simp [hs], ⟨hnil, hs⟩, ?_⟩)
        simp only [hs, if_false]
        decide

theorem linearGit_documented (n : ℕ) :
    Documented (linearGit n) Chain.marked Chain.onlySkipped where
  head r := by
    cases hh : r.head with
    | none => exact ⟨"", by simp only [linearGit, hh]; rfl, by decide⟩
    | some k =>
        refine ⟨commitId k, by simp only [linearGit, hh, capture_commitId], ?_⟩
        simp [hasNul, commitId]
  start r bad good c _ _ _ := by simp [linearGit, Chain.settle_marked]
  feed r v c _ _ := by
    refine ⟨_, rfl, ?_, ?_⟩
    · simp [linearGit, Chain.settle_marked, Chain.judge]
    · intro x hx
      simp [linearGit, Chain.settle_marked, Chain.judge, hx]
  moves r v c c' out _ _ hout hfirst hleft hc' _ := by
    simp only [linearGit, Option.some.injEq] at hout hleft hc' ⊢
    rcases (r.judge v.name c).settle_cases with ⟨k, hset, hk, -⟩ | ⟨-, -, -, hf⟩ | ⟨hset, hos, -⟩
    · rw [hset] at hc' ⊢
      simp only [capture_commitId, Except.ok.injEq] at hc'
      rw [← hc']
      exact hk
    · rw [hout, hfirst] at hf; cases hf
    · rw [hset] at hleft; exact absurd hos hleft
  stays r v c out _ _ hos hout := by
    simp only [linearGit, Option.some.injEq] at hos hout ⊢
    rcases (r.judge v.name c).settle_cases with ⟨k, hset, -, hne⟩ | ⟨hset, -, hs, -⟩ | ⟨hset, -, hf⟩
    · rw [hset] at hos
      exact absurd hos.1 hne
    · rw [hset] at hos; exact absurd hs hos.2
    · exact ⟨hout ▸ hf, by rw [hset]; rfl⟩

/-- A call of the plain bisect with at most one report on disk. -/
def plainHostCall (now : ℚ) (report : Option Json) : HostCall :=
  ⟨(plainCall now report).env, plainArgs⟩

/-- With a budget of one step the run ends when only skipped commits are left. -/
theorem run_fresh_one_step :
    let call (now : ℚ) (report : Option Json) : HostCall :=
      ⟨(plainCall now report).env, { plainArgs with maxSteps := 1 }⟩
    Fresh Chain.marked (run (hostStep (linearGit 1)) ⟨none, ⟨[], "", [], none⟩⟩
      [call 1 none, call 2 (some (statusReport "failed")), call 3 (some (statusReport "passed")),
        call 4 (some (statusReport "untestable"))]) := by
  have hbudget (steps : ℕ) : (1 : ℤ) ≤ (steps : ℤ) + 1 := by omega
  exact run_fresh (linearGit_documented 1) rfl _
    ⟨fun _ _ s _ _ _ _ _ _ => hbudget s.steps, fun _ _ s _ _ _ _ _ _ => hbudget s.steps,
      fun _ _ s _ _ _ _ _ _ => hbudget s.steps, fun _ _ s _ _ _ _ _ _ => hbudget s.steps, trivial⟩

/-- Between two commits git tests one, finds it untestable, and has only skipped
commits left; the step hands the same commit out again. -/
theorem handed_out_again :
    Documented (linearGit 1) Chain.marked Chain.onlySkipped ∧
    ∃ (s : Session) (t : ℚ),
      (run (hostStep (linearGit 1)) ⟨none, ⟨[], "", [], none⟩⟩
        [plainHostCall 1 none, plainHostCall 2 (some (statusReport "failed")),
          plainHostCall 3 (some (statusReport "passed")),
          plainHostCall 4 (some (statusReport "untestable"))]).stateFile =
        some (s.encode plainArgs t) ∧
      s.outcome = none ∧ s.phase = .bisect ∧ s.candidate = "a" ∧
      s.bisected = [⟨.bisect, "a", .skip⟩] := by
  refine ⟨linearGit_documented 1, ⟨"v1", "v2", .bisect, "a", 1,
    [⟨.verifyBad, "v2", .bad⟩, ⟨.verifyGood, "v1", .good⟩, ⟨.bisect, "a", .skip⟩], none⟩, 4,
    ?_, rfl, rfl, rfl, rfl⟩
  decide +kernel

end KdevopsNg.Kernel
