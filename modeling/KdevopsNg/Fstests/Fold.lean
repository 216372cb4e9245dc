/-
# `Fstests.Fold` — many passes, one verdict a test

The verdict `parse_xunit` gives a report, told from its testcases.  The loop keeps
four dictionaries and the summary reads each on its own: the counters off the
sizes, the lists of names off the keys, the rows off all four.  Each test has one

    verdict   its name, its status, its passes, its failures

which only depends on the passes of that test (`verdictOf`), and all three parts
of the summary are read off the verdicts: the rows are the verdicts sorted
(`verdicts_eq`), the counters count them, the lists name them.  A report whose
testcases are reordered has the same verdicts (`verdictOf_perm`), and a sorted list
forgets the order they came in (`mergeSort_congr`).
-/
import Mathlib.Algebra.BigOperators.Group.List.Basic
import KdevopsNg.Fstests.Collect
import KdevopsNg.Py.Sort

namespace KdevopsNg.Fstests

open Py

/-! ## What a test did -/

/-- The `failure` children of a testcase. -/
def failuresIn (case : Element) : ℕ :=
  case.children.countP fun c => decide (c.localName = "failure")

/-- The `failure` children of a test, over all its testcases. -/
def failuresOf (cases : List Element) (name : String) : ℕ :=
  (((testcases cases).filter fun c => testcaseName c = name).map failuresIn).sum

/-- The status of a test with these passes. -/
def statusOver (ps : List Pass) : TestStatus :=
  if ps.any Pass.failed then .failed
  else if ps.all Pass.skipped then .notrun
  else .passed

/-- What a report says of a test. -/
structure Verdict where
  test : String
  status : TestStatus
  runs : ℕ
  fails : ℕ
  deriving DecidableEq, Repr

/-- The verdict on a test. -/
def verdictOf (cases : List Element) (name : String) : Verdict :=
  ⟨name, statusOver (ofTest (passes cases) name), (ofTest (passes cases) name).length,
    failuresOf cases name⟩

/-- The verdict a row shows. -/
def TestRow.verdict (r : TestRow) : Verdict := ⟨r.test, r.status, r.runs, r.fails⟩

/-- The order of the table. -/
def Verdict.le (v w : Verdict) : Bool :=
  v.status.rank < w.status.rank || (v.status.rank == w.status.rank && decide (v.test ≤ w.test))

/-! ## The failures noted -/

/-- The failures noted are the `failure` children, each under the name of its test. -/
structure Noted (agg : Dict Failure) (count : String → ℕ) : Prop where
  fails : ∀ k, ((Dict.get? agg k).map Failure.fails).getD 0 = count k
  name : ∀ k f, Dict.get? agg k = some f → f.name = k

theorem Noted.set {agg : Dict Failure} {count : String → ℕ} (h : Noted agg count) {f : Failure}
    {name : String} (hname : f.name = name) (hfails : f.fails = count name + 1) :
    Noted (Dict.set agg name f) fun k => count k + if k = name then 1 else 0 := by
  refine ⟨fun k => ?_, fun k g hg => ?_⟩
  · rw [Dict.get?_set]
    by_cases hk : k = name
    · subst hk
      rw [if_pos rfl, if_pos rfl]
      exact hfails
    · rw [if_neg hk, if_neg hk]
      exact h.fails k
  · rw [Dict.get?_set] at hg
    by_cases hk : k = name
    · rw [if_pos hk] at hg
      cases hg
      exact hname.trans hk.symm
    · rw [if_neg hk] at hg
      exact h.name k g hg

theorem noted_noteFailure {agg : Dict Failure} {count : String → ℕ} (h : Noted agg count)
    (name : String) (child : Element) :
    Noted (noteFailure name agg child) fun k => count k + if k = name then 1 else 0 := by
  have hcount := h.fails name
  rw [noteFailure]
  cases hget : Dict.get? agg name with
  | none =>
      rw [hget] at hcount
      exact h.set rfl (congrArg (· + 1) hcount)
  | some entry =>
      rw [hget] at hcount
      exact h.set (h.name name entry hget) (congrArg (· + 1) hcount)

theorem noted_scanChild (name : String) (cs : List Element) (acc : Dict Failure × Bool × Bool)
    {count : String → ℕ} (h : Noted acc.1 count) :
    Noted (cs.foldl (scanChild name) acc).1 fun k => count k +
      if k = name then cs.countP fun c => decide (c.localName = "failure") else 0 := by
  induction cs generalizing acc count with
  | nil => simpa using h
  | cons c cs ih =>
      rw [List.foldl_cons]
      by_cases hf : c.localName = "failure"
      · have hstep : Noted (scanChild name acc c).1
            fun k => count k + if k = name then 1 else 0 := by
          simpa [scanChild, hf] using noted_noteFailure h name c
        convert ih _ hstep using 2 with k
        by_cases hk : k = name
        · rw [if_pos hk, if_pos hk, if_pos hk, List.countP_cons, if_pos (decide_eq_true hf)]
          omega
        · simp [hk]
      · have hstep : Noted (scanChild name acc c).1 count := by
          by_cases hs : c.localName = "skipped"
          · simpa [scanChild, hs] using h
          · simpa [scanChild, hf, hs] using h
        simpa [hf] using ih _ hstep

theorem failuresOf_cons (case : Element) (cases : List Element) (k : String) :
    failuresOf (case :: cases) k = failuresOf [case] k + failuresOf cases k := by
  simp only [failuresOf, testcases, List.filter_cons, List.filter_nil]
  by_cases hc : case.localName = "testcase"
  · by_cases hk : testcaseName case = k <;> simp [hc, hk]
  · simp [hc]

theorem noted_tallyCase {read : String → Option Number} {t : Tally} {count : String → ℕ}
    (h : Noted t.failAgg count) (case : Element) :
    Noted (tallyCase read t case).failAgg fun k => count k + failuresOf [case] k := by
  by_cases hc : case.localName = "testcase"
  · rw [tallyCase, if_neg (not_not.mpr hc)]
    convert noted_scanChild (testcaseName case) case.children (t.failAgg, false, false) h
      using 2 with k
    by_cases hk : k = testcaseName case
    · simp [failuresOf, testcases, hc, hk, failuresIn]
    · simp [failuresOf, testcases, hc, hk, Ne.symm hk]
  · rw [tallyCase_other hc]
    simpa [failuresOf, testcases, hc] using h

theorem noted_foldl (read : String → Option Number) (cases : List Element) (t : Tally)
    {count : String → ℕ} (h : Noted t.failAgg count) :
    Noted (cases.foldl (tallyCase read) t).failAgg fun k => count k + failuresOf cases k := by
  induction cases generalizing t count with
  | nil => simpa [failuresOf, testcases] using h
  | cons case cases ih =>
      rw [List.foldl_cons]
      convert ih _ (noted_tallyCase h case) using 2 with k
      rw [failuresOf_cons, add_assoc]

/-- The loop notes the failures of the report. -/
theorem noted_tally (read : String → Option Number) (cases : List Element) :
    Noted (tally read cases).failAgg (failuresOf cases) := by
  have hempty : Noted ([] : Dict Failure) fun _ => 0 := ⟨fun _ => rfl, fun _ _ h => by cases h⟩
  have hall := noted_foldl read cases ⟨[], [], [], []⟩ hempty
  simp only [zero_add] at hall
  exact hall

/-! ## The statuses of the passes -/

theorem statusOver_failed_iff (ps : List Pass) (k : String) :
    statusOver (ofTest ps k) = .failed ↔ FailedTest ps k := by
  have hany : (ofTest ps k).any Pass.failed = true ↔ FailedTest ps k := by
    rw [List.any_eq_true]
    constructor
    · rintro ⟨p, hp, hf⟩
      obtain ⟨hmem, hk⟩ := List.mem_filter.mp hp
      exact ⟨p, hmem, of_decide_eq_true hk, hf⟩
    · rintro ⟨p, hp, hk, hf⟩
      exact ⟨p, List.mem_filter.mpr ⟨hp, decide_eq_true hk⟩, hf⟩
  rw [← hany, statusOver]
  cases (ofTest ps k).any Pass.failed <;> cases (ofTest ps k).all Pass.skipped <;> simp

theorem statusOver_notrun_iff (ps : List Pass) (k : String) :
    statusOver (ofTest ps k) = .notrun ↔
      ¬ FailedTest ps k ∧ ∀ p ∈ ps, p.name = k → p.skipped = true := by
  have hall : (ofTest ps k).all Pass.skipped = true ↔
      ∀ p ∈ ps, p.name = k → p.skipped = true := by
    rw [List.all_eq_true]
    constructor
    · intro h p hp hk
      exact h p (List.mem_filter.mpr ⟨hp, decide_eq_true hk⟩)
    · intro h p hp
      obtain ⟨hmem, hk⟩ := List.mem_filter.mp hp
      exact h p hmem (of_decide_eq_true hk)
  rw [← hall, ← statusOver_failed_iff, statusOver]
  cases (ofTest ps k).any Pass.failed <;> cases (ofTest ps k).all Pass.skipped <;> simp

/-- The status the summary gives a test is that of its passes. -/
theorem TallyOf.status_eq {t : Tally} {ps : List Pass} (h : TallyOf t ps) (k : String) :
    t.status k = statusOver (ofTest ps k) := by
  cases hs : statusOver (ofTest ps k) with
  | failed => exact (h.status_failed_iff k).mpr ((statusOver_failed_iff ps k).mp hs)
  | notrun =>
      rw [t.status_notrun_iff, h.isNotrun_iff]
      exact (statusOver_notrun_iff ps k).mp hs
  | passed =>
      cases ht : t.status k with
      | passed => rfl
      | failed =>
          have hfail := (statusOver_failed_iff ps k).mpr ((h.status_failed_iff k).mp ht)
          rw [hs] at hfail
          cases hfail
      | notrun =>
          rw [t.status_notrun_iff, h.isNotrun_iff] at ht
          rw [(statusOver_notrun_iff ps k).mpr ht] at hs
          cases hs

/-! ## The rows -/

theorem row_verdict {read : String → Option Number} {cases : List Element} {k : String}
    {r : TestRow} (h : (tally read cases).row k = .ok r) : r.verdict = verdictOf cases k := by
  obtain ⟨time, -, hr⟩ := except_bind_ok.mp h
  have htally := tallyOf_tally read cases
  have hfails := (noted_tally read cases).fails k
  rw [verdictOf, ← htally.status_eq, ← htally.runs, ← hfails]
  cases hget : Dict.get? (tally read cases).failAgg k with
  | none =>
      rw [hget] at hr
      cases hr
      rfl
  | some f =>
      rw [hget] at hr
      cases hr
      rfl

theorem mapM_row_verdicts {read : String → Option Number} {cases : List Element}
    {ks : List String} {rows : List TestRow}
    (h : ks.mapM (tally read cases).row = .ok rows) :
    rows.map TestRow.verdict = ks.map (verdictOf cases) := by
  induction ks generalizing rows with
  | nil =>
      cases h
      rfl
  | cons k ks ih =>
      rw [List.mapM_cons] at h
      obtain ⟨r, hr, h⟩ := except_bind_ok.mp h
      obtain ⟨rs, hrs, h⟩ := except_bind_ok.mp h
      cases h
      rw [List.map_cons, List.map_cons, row_verdict hr, ih hrs]

/-- The names of the tests of a report, in the order they first ran. -/
def testNames (read : String → Option Number) (cases : List Element) : List String :=
  Dict.keys (tally read cases).runs

/-- The table is the verdicts of the tests, sorted. -/
theorem verdicts_eq {read : String → Option Number} {cases : List Element} {base s : Summary}
    (h : summarize (tally read cases) base = .ok s) :
    s.perTest.map TestRow.verdict =
      ((testNames read cases).map (verdictOf cases)).mergeSort Verdict.le := by
  obtain ⟨rows, hrows, hs⟩ := except_bind_ok.mp h
  cases hs
  rw [testNames, ← mapM_row_verdicts hrows]
  exact List.map_mergeSort fun _ _ _ _ => rfl

theorem verdicts_perm {read : String → Option Number} {cases : List Element} {base s : Summary}
    (h : summarize (tally read cases) base = .ok s) :
    (s.perTest.map TestRow.verdict).Perm ((testNames read cases).map (verdictOf cases)) := by
  rw [verdicts_eq h]
  exact List.mergeSort_perm _ _

theorem tests_perm {read : String → Option Number} {cases : List Element} {base s : Summary}
    (h : summarize (tally read cases) base = .ok s) :
    (s.perTest.map TestRow.test).Perm (testNames read cases) := by
  have hperm := (verdicts_perm h).map Verdict.test
  rw [List.map_map, List.map_map] at hperm
  exact hperm.trans (List.Perm.of_eq (List.map_id _))

/-- A row shows the verdict of its test. -/
theorem verdict_of_mem {read : String → Option Number} {cases : List Element}
    {base s : Summary} (h : summarize (tally read cases) base = .ok s) {r : TestRow}
    (hr : r ∈ s.perTest) : r.verdict = verdictOf cases r.test := by
  obtain ⟨k, -, hk⟩ := List.mem_map.mp ((verdicts_perm h).subset (List.mem_map_of_mem hr))
  have htest : k = r.test := congrArg Verdict.test hk
  rw [← hk, htest]

/-! ## The counters and the lists -/

/-- The failures listed are the keys they were noted under. -/
theorem failure_names (read : String → Option Number) (cases : List Element) :
    (tally read cases).failAgg.map (fun p => p.2.name) = Dict.keys (tally read cases).failAgg := by
  refine List.map_congr_left fun p hp => ?_
  exact (noted_tally read cases).name p.1 p.2
    (Dict.get?_of_mem (tallyOf_tally read cases).failNodup hp)

/-- The verdict of a report, told from its testcases. -/
structure FoldsTo (cases : List Element) (s : Summary) : Prop where
  once : (s.perTest.map TestRow.test).Nodup
  rows : ∀ name, name ∈ s.perTest.map TestRow.test ↔ Ran (passes cases) name
  failed : ∀ r ∈ s.perTest, r.status = .failed ↔ FailedTest (passes cases) r.test
  notrun : ∀ r ∈ s.perTest, r.status = .notrun ↔ ¬ FailedTest (passes cases) r.test ∧
    ∀ p ∈ passes cases, p.name = r.test → p.skipped = true
  passed : ∀ r ∈ s.perTest, r.status = .passed ↔ PassedTest (passes cases) r.test
  runs : ∀ r ∈ s.perTest, r.runs = (ofTest (passes cases) r.test).length
  fails : ∀ r ∈ s.perTest, r.fails = failuresOf cases r.test
  tests : s.tests = s.perTest.length
  total : s.passed + s.failed + s.skipped = s.tests
  unclamped : s.failed + s.skipped ≤ s.tests
  counts : s.passed = (s.perTest.filter fun r => r.status = .passed).length ∧
    s.failed = (s.perTest.filter fun r => r.status = .failed).length ∧
    s.skipped = (s.perTest.filter fun r => r.status = .notrun).length
  failures : (s.failures.map Failure.name).Perm
    ((s.perTest.filter fun r => r.status = .failed).map TestRow.test)
  notruns : s.notruns.Perm ((s.perTest.filter fun r => r.status = .notrun).map TestRow.test)

section
variable {read : String → Option Number} {cases : List Element} {base s : Summary}

theorem mem_perTest_iff (h : summarize (tally read cases) base = .ok s) (name : String) :
    name ∈ s.perTest.map TestRow.test ↔ Ran (passes cases) name := by
  rw [(tests_perm h).mem_iff]
  exact (tallyOf_tally read cases).keys name

theorem once_of_summarize (h : summarize (tally read cases) base = .ok s) :
    (s.perTest.map TestRow.test).Nodup :=
  (tests_perm h).nodup_iff.mpr (tallyOf_tally read cases).runsNodup

/-- The tests of a status are those of the rows that show it. -/
theorem testsOf_perm (h : summarize (tally read cases) base = .ok s) (status : TestStatus) :
    ((tally read cases).testsOf status).Perm
      ((s.perTest.filter fun r => r.status = status).map TestRow.test) := by
  have hnodup : ((s.perTest.filter fun r => r.status = status).map TestRow.test).Nodup :=
    (once_of_summarize h).sublist (List.filter_sublist.map _)
  refine (List.perm_ext_iff_of_nodup ((tallyOf_tally read cases).runsNodup.filter _)
    hnodup).mpr fun k => mem_testsOf.trans ?_
  rw [(tallyOf_tally read cases).status_eq, List.mem_map]
  constructor
  · rintro ⟨hk, hstatus⟩
    obtain ⟨r, hr, rfl⟩ := List.mem_map.mp ((tests_perm h).mem_iff.mpr hk)
    have hrow : r.status = statusOver (ofTest (passes cases) r.test) :=
      congrArg Verdict.status (verdict_of_mem h hr)
    exact ⟨r, List.mem_filter.mpr ⟨hr, decide_eq_true (hrow.trans hstatus)⟩, rfl⟩
  · rintro ⟨r, hr, rfl⟩
    obtain ⟨hmem, hstatus⟩ := List.mem_filter.mp hr
    have hrow : r.status = statusOver (ofTest (passes cases) r.test) :=
      congrArg Verdict.status (verdict_of_mem h hmem)
    exact ⟨(tests_perm h).subset (List.mem_map_of_mem hmem),
      hrow.symm.trans (of_decide_eq_true hstatus)⟩

/-- The failures listed are the tests that failed. -/
theorem failures_perm (h : summarize (tally read cases) base = .ok s) :
    (s.failures.map Failure.name).Perm ((tally read cases).testsOf .failed) := by
  have hnames : s.failures.map Failure.name = Dict.keys (tally read cases).failAgg := by
    obtain ⟨rows, -, hs⟩ := except_bind_ok.mp h
    cases hs
    rw [← failure_names]
    exact List.map_map
  rw [hnames]
  exact (tallyOf_tally read cases).failAgg_perm

theorem notruns_eq (h : summarize (tally read cases) base = .ok s) :
    s.notruns = ((tally read cases).testsOf .notrun).mergeSort fun a b => decide (a ≤ b) := by
  obtain ⟨rows, -, hs⟩ := except_bind_ok.mp h
  cases hs
  rw [← Tally.filter_isNotrun]

/-- The summary of a report folds its testcases. -/
theorem foldsTo_of_summarize (h : summarize (tally read cases) base = .ok s) :
    FoldsTo cases s := by
  have htally := tallyOf_tally read cases
  obtain ⟨hpassed, hfailed, hskipped, htests, -⟩ := summarize_counts htally h
  have hlength : s.perTest.length = (Dict.keys (tally read cases).runs).length := by
    rw [← List.length_map (f := TestRow.test), (tests_perm h).length_eq, testNames]
  have hsum := length_by_status (tally read cases).status (Dict.keys (tally read cases).runs)
  have hstatus : ∀ r ∈ s.perTest, r.status = (tally read cases).status r.test := by
    intro r hr
    rw [htally.status_eq]
    exact congrArg Verdict.status (verdict_of_mem h hr)
  have hrows : ∀ status, ((tally read cases).testsOf status).length =
      (s.perTest.filter fun r => r.status = status).length := by
    intro status
    rw [(testsOf_perm h status).length_eq, List.length_map]
  simp only [Tally.testsOf] at hpassed hfailed hskipped
  refine ⟨once_of_summarize h, mem_perTest_iff h, ?_, ?_, ?_, ?_, ?_, htests.trans hlength.symm,
    by omega, by omega, ⟨?_, ?_, ?_⟩, (failures_perm h).trans (testsOf_perm h _), ?_⟩
  · intro r hr
    rw [hstatus r hr, htally.status_failed_iff]
  · intro r hr
    rw [hstatus r hr, Tally.status_notrun_iff, htally.isNotrun_iff]
  · intro r hr
    rw [hstatus r hr, htally.status_passed_iff]
  · intro r hr
    exact congrArg Verdict.runs (verdict_of_mem h hr)
  · intro r hr
    exact congrArg Verdict.fails (verdict_of_mem h hr)
  · exact hpassed.trans (hrows .passed)
  · exact hfailed.trans (hrows .failed)
  · exact hskipped.trans (hrows .notrun)
  · rw [notruns_eq h]
    exact (List.mergeSort_perm _ _).trans (testsOf_perm h _)

end

/-! ## Reordering -/

theorem Verdict.le_iff (v w : Verdict) : v.le w = true ↔
    v.status.rank < w.status.rank ∨ v.status.rank = w.status.rank ∧ v.test ≤ w.test := by
  rw [Verdict.le, Bool.or_eq_true, decide_eq_true_eq, Bool.and_eq_true, beq_iff_eq,
    decide_eq_true_eq]

theorem Verdict.le_trans (v w x : Verdict) (hvw : v.le w = true) (hwx : w.le x = true) :
    v.le x = true := by
  rw [Verdict.le_iff] at hvw hwx ⊢
  rcases hvw with hvw | ⟨hvw, hv⟩
  · rcases hwx with hwx | ⟨hwx, -⟩
    · exact .inl (hvw.trans hwx)
    · exact .inl (hwx ▸ hvw)
  · rcases hwx with hwx | ⟨hwx, hw⟩
    · exact .inl (hvw ▸ hwx)
    · exact .inr ⟨hvw.trans hwx, String.le_trans hv hw⟩

theorem Verdict.le_total (v w : Verdict) : (v.le w || w.le v) = true := by
  rw [Bool.or_eq_true, Verdict.le_iff, Verdict.le_iff]
  rcases Nat.lt_trichotomy v.status.rank w.status.rank with h | h | h
  · exact .inl (.inl h)
  · rcases String.le_total v.test w.test with ht | ht
    · exact .inl (.inr ⟨h, ht⟩)
    · exact .inr (.inr ⟨h.symm, ht⟩)
  · exact .inr (.inl h)

theorem Verdict.test_eq {v w : Verdict} (hvw : v.le w = true) (hwv : w.le v = true) :
    v.test = w.test := by
  rw [Verdict.le_iff] at hvw hwv
  rcases hvw with hvw | ⟨hvw, hv⟩
  · omega
  · rcases hwv with hwv | ⟨-, hw⟩
    · omega
    · exact String.le_antisymm hv hw

section
variable {cases cases' : List Element}

theorem passes_perm (h : (testcases cases).Perm (testcases cases')) :
    (passes cases).Perm (passes cases') := h.map passOf

/-- The verdict on a test does not know the order of the testcases. -/
theorem verdictOf_perm (h : (testcases cases).Perm (testcases cases')) (name : String) :
    verdictOf cases name = verdictOf cases' name := by
  have hps : (ofTest (passes cases) name).Perm (ofTest (passes cases') name) :=
    (passes_perm h).filter _
  have hfails : failuresOf cases name = failuresOf cases' name :=
    ((h.filter _).map failuresIn).sum_eq
  have hstatus : statusOver (ofTest (passes cases) name) =
      statusOver (ofTest (passes cases') name) := by
    rw [statusOver, statusOver, hps.any_eq, hps.all_eq]
  rw [verdictOf, verdictOf, hstatus, hps.length_eq, hfails]

theorem testNames_perm (read : String → Option Number)
    (h : (testcases cases).Perm (testcases cases')) :
    (testNames read cases).Perm (testNames read cases') := by
  refine (List.perm_ext_iff_of_nodup (tallyOf_tally read cases).runsNodup
    (tallyOf_tally read cases').runsNodup).mpr fun k => ?_
  rw [(tallyOf_tally read cases).keys, (tallyOf_tally read cases').keys]
  exact exists_congr fun p => and_congr_left fun _ => (passes_perm h).mem_iff

end

/-- Two summaries that say the same of every test. -/
structure SameVerdict (s s' : Summary) : Prop where
  tests : s.tests = s'.tests
  passed : s.passed = s'.passed
  failed : s.failed = s'.failed
  skipped : s.skipped = s'.skipped
  iterations : s.iterations = s'.iterations
  rows : s.perTest.map TestRow.verdict = s'.perTest.map TestRow.verdict
  notruns : s.notruns = s'.notruns
  failures : (s.failures.map Failure.name).Perm (s'.failures.map Failure.name)

section
variable {read : String → Option Number} {cases cases' : List Element} {base base' s s' : Summary}

theorem rows_reordered (h : summarize (tally read cases) base = .ok s)
    (h' : summarize (tally read cases') base' = .ok s')
    (hperm : (testcases cases).Perm (testcases cases')) :
    s.perTest.map TestRow.verdict = s'.perTest.map TestRow.verdict := by
  rw [verdicts_eq h, verdicts_eq h', ← funext (verdictOf_perm hperm)]
  refine mergeSort_congr Verdict.le_trans Verdict.le_total ((testNames_perm read hperm).map _)
    fun v hv w hw hvw hwv => ?_
  obtain ⟨j, -, rfl⟩ := List.mem_map.mp hv
  obtain ⟨k, -, rfl⟩ := List.mem_map.mp hw
  exact congrArg (verdictOf cases) (Verdict.test_eq hvw hwv)

/-- A status is counted the same in two tables with the same verdicts. -/
theorem count_of_verdicts (h : s.perTest.map TestRow.verdict = s'.perTest.map TestRow.verdict)
    (status : TestStatus) : (s.perTest.filter fun r => r.status = status).length =
      (s'.perTest.filter fun r => r.status = status).length := by
  have hcount := congrArg (List.countP fun v : Verdict => decide (v.status = status)) h
  rw [List.countP_map, List.countP_map] at hcount
  rw [← List.countP_eq_length_filter, ← List.countP_eq_length_filter]
  exact hcount

/-- The iterations are the most passes of a test. -/
theorem iterations_eq (h : summarize (tally read cases) base = .ok s) :
    s.iterations = ((testNames read cases).map fun k => (verdictOf cases k).runs).foldl max 0 := by
  obtain ⟨rows, -, hs⟩ := except_bind_ok.mp h
  cases hs
  have htally := tallyOf_tally read cases
  have hruns : (tally read cases).runs.map Prod.snd =
      (testNames read cases).map fun k => (verdictOf cases k).runs := by
    rw [testNames, Dict.keys, List.map_map]
    refine List.map_congr_left fun p hp => ?_
    rw [Function.comp_apply, verdictOf, ← htally.runs, Dict.get?_of_mem htally.runsNodup hp,
      Option.getD_some]
  exact congrArg (List.foldl max 0) hruns

theorem sameVerdict_reordered (h : summarize (tally read cases) base = .ok s)
    (h' : summarize (tally read cases') base' = .ok s')
    (hperm : (testcases cases).Perm (testcases cases')) : SameVerdict s s' := by
  have hrows := rows_reordered h h' hperm
  have hfold := foldsTo_of_summarize h
  have hfold' := foldsTo_of_summarize h'
  have hlength : s.perTest.length = s'.perTest.length := by
    simpa using congrArg List.length hrows
  have htests : ∀ status, ((tally read cases).testsOf status).Perm
      ((tally read cases').testsOf status) := by
    intro status
    rw [Tally.testsOf, Tally.testsOf]
    refine ((testNames_perm read hperm).filter _).trans (List.Perm.of_eq ?_)
    refine List.filter_congr fun k _ => ?_
    rw [(tallyOf_tally read cases).status_eq, (tallyOf_tally read cases').status_eq]
    exact congrArg (fun v : Verdict => decide (v.status = status)) (verdictOf_perm hperm k)
  refine ⟨?_, ?_, ?_, ?_, ?_, hrows, ?_, ?_⟩
  · rw [hfold.tests, hfold'.tests, hlength]
  · rw [hfold.counts.1, hfold'.counts.1, count_of_verdicts hrows]
  · rw [hfold.counts.2.1, hfold'.counts.2.1, count_of_verdicts hrows]
  · rw [hfold.counts.2.2, hfold'.counts.2.2, count_of_verdicts hrows]
  · rw [iterations_eq h, iterations_eq h', ← funext (verdictOf_perm hperm)]
    exact ((testNames_perm read hperm).map _).foldl_eq 0
  · rw [notruns_eq h, notruns_eq h']
    refine mergeSort_congr (fun a b c hab hbc => ?_) (fun a b => ?_) (htests .notrun)
      fun a _ b _ hab hba => String.le_antisymm (of_decide_eq_true hab) (of_decide_eq_true hba)
    · exact decide_eq_true (String.le_trans (of_decide_eq_true hab) (of_decide_eq_true hbc))
    · rw [Bool.or_eq_true, decide_eq_true_eq, decide_eq_true_eq]
      exact String.le_total a b
  · exact (failures_perm h).trans ((htests .failed).trans (failures_perm h').symm)

end

/-! ## A report -/

/-- A pass of `generic/001` with two failures and a skip. -/
def flakedCase : Element :=
  .mk "testcase" [("name", "generic/001"), ("time", "")]
    [.mk "failure" [("message", "output mismatch")] [], .mk "skipped" [] [], .mk "failure" [] []]

/-- The results directory of a report with these testcases. -/
def reportDir (cases : List Element) : ResultsDir := ⟨.document (.mk "testsuite" [] cases), []⟩

end KdevopsNg.Fstests
