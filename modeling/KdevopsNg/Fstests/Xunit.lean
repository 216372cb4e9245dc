/-
# `Fstests.Xunit` — the xunit report of a section

`parse_xunit` of `f/fstests/common.py`.  xfstests appends one `<testcase>` for
each test and pass, and the summary counts distinct tests over all passes:

    failed   in some pass
    notrun   skipped in every pass
    passed   otherwise

A report that is missing or not XML keeps the zero counts it started with.

`Pass` is what one `<testcase>` says, and `Tally` what the loop keeps.  The
counts of the loop are tied to the passes by one lemma for each dictionary
(`failAgg_contains`, `runs_get`, `skips_get`, `times_finite`), and those to the
counters of the summary (`summarize_failed`, `summarize_passed`).
-/
import Mathlib.Data.List.Sort
import KdevopsNg.Py.Number
import KdevopsNg.Py.Xml
import KdevopsNg.Fstests.Config

namespace KdevopsNg.Fstests

open Py

/-! ## The loop over the testcases -/

/-- `_testcase_name`. -/
def testcaseName (case : Element) : String :=
  match case.get? "name" with
  | some n => if n ≠ "" then n else classname
  | none => classname
where
  classname : String :=
    match case.get? "classname" with
    | some n => if n ≠ "" then n else "?"
    | none => "?"

/-- The failing passes of one test, collapsed: the first message and type. -/
structure Failure where
  name : String
  message : String
  type : String
  fails : ℕ
  deriving DecidableEq, Repr

/-- What the loop has counted so far. -/
structure Tally where
  failAgg : Dict Failure
  runs : Dict ℕ
  skips : Dict ℕ
  times : Dict Number

/-- `d[k] = d.get(k, 0) + 1`. -/
def bump (d : Dict ℕ) (k : String) : Dict ℕ := Dict.set d k ((Dict.get? d k).getD 0 + 1)

/-- A `<failure>` child of a testcase. -/
def noteFailure (name : String) (agg : Dict Failure) (child : Element) : Dict Failure :=
  match Dict.get? agg name with
  | some entry => Dict.set agg name { entry with fails := entry.fails + 1 }
  | none => Dict.set agg name
      ⟨name, (child.get? "message").getD "", (child.get? "type").getD "", 1⟩

/-- The children of a testcase: the failures so far, whether the case failed, and
whether it was skipped. -/
def scanChild (name : String) (acc : Dict Failure × Bool × Bool) (child : Element) :
    Dict Failure × Bool × Bool :=
  let ctag := child.localName
  if ctag = "failure" then (noteFailure name acc.1 child, true, acc.2.2)
  else if ctag = "skipped" then (acc.1, acc.2.1, true)
  else acc

/-- `float(case.get("time") or 0)` where it reads, added to the test's time. -/
def noteTime (read : String → Option Number) (times : Dict Number) (name : String)
    (case : Element) : Dict Number :=
  let text := (case.get? "time").getD ""
  match if text = "" then some (.finite 0) else read text with
  | some x => Dict.set times name (((Dict.get? times name).getD (.finite 0)).add x)
  | none => times

/-- One round of the loop over `root.iter()`. -/
def tallyCase (read : String → Option Number) (t : Tally) (case : Element) : Tally :=
  if case.localName ≠ "testcase" then t
  else
    let name := testcaseName case
    let (failAgg, caseFailed, caseSkipped) :=
      case.children.foldl (scanChild name) (t.failAgg, false, false)
    { failAgg := failAgg
      runs := bump t.runs name
      skips := if caseSkipped && !caseFailed then bump t.skips name else t.skips
      times := noteTime read t.times name case }

/-- The loop. -/
def tally (read : String → Option Number) (cases : List Element) : Tally :=
  cases.foldl (tallyCase read) ⟨[], [], [], []⟩

/-! ## The summary -/

/-- The status of a test over all its passes. -/
inductive TestStatus where
  | failed
  | notrun
  | passed
  deriving DecidableEq, Repr

/-- `_rank`. -/
def TestStatus.rank : TestStatus → ℕ
  | .failed => 0
  | .notrun => 1
  | .passed => 2

/-- A row of the per-test table. -/
structure TestRow where
  test : String
  status : TestStatus
  runs : ℕ
  fails : ℕ
  time : ℤ
  message : String
  deriving DecidableEq, Repr

/-- The order of the table: failed, notrun, passed, and by name within. -/
def TestRow.le (r s : TestRow) : Bool :=
  r.status.rank < s.status.rank || (r.status.rank == s.status.rank && decide (r.test ≤ s.test))

/-- The counters and per-test evidence of a report. -/
structure Summary where
  reportPath : Path
  reportPresent : Bool
  passed : ℕ
  failed : ℕ
  skipped : ℕ
  tests : ℕ
  iterations : ℕ
  failures : List Failure
  notruns : List String
  perTest : List TestRow
  outBad : List Path
  checkLog : Option Path
  error : Option String
  deriving DecidableEq

/-- A test that every pass skipped and none failed. -/
def Tally.isNotrun (t : Tally) (name : String) : Bool :=
  !Dict.contains t.failAgg name &&
    decide ((Dict.get? t.skips name).getD 0 = (Dict.get? t.runs name).getD 0)

/-- The status of a test. -/
def Tally.status (t : Tally) (name : String) : TestStatus :=
  if Dict.contains t.failAgg name then .failed
  else if t.isNotrun name then .notrun
  else .passed

/-- The row of a test; a time that is no number does not round. -/
def Tally.row (t : Tally) (name : String) : Except PyError TestRow := do
  let time ← ((Dict.get? t.times name).getD (.finite 0)).round
  let (fails, message) := match Dict.get? t.failAgg name with
    | some f => (f.fails, f.message)
    | none => (0, "")
  return ⟨name, t.status name, (Dict.get? t.runs name).getD 0, fails, time, message⟩

/-- The part of `parse_xunit` after the loop. -/
def summarize (t : Tally) (base : Summary) : Except PyError Summary := do
  let notruns := ((Dict.keys t.runs).filter t.isNotrun).mergeSort (fun a b => decide (a ≤ b))
  let tests := t.runs.length
  let failed := t.failAgg.length
  let skipped := notruns.length
  let rows ← (Dict.keys t.runs).mapM t.row
  return { base with
    passed := tests - failed - skipped
    failed := failed
    skipped := skipped
    tests := tests
    iterations := (t.runs.map Prod.snd).foldl max 0
    failures := t.failAgg.map Prod.snd
    notruns := notruns
    perTest := rows.mergeSort TestRow.le }

/-- A section's `result.xml`: absent, one that reading raises on, not well-formed
(with the parser's message), or its root element. -/
inductive Report where
  | absent
  | unreadable (e : PyError)
  | malformed (message : String)
  | document (root : Element)

/-- The files a section's results directory holds. -/
structure ResultsDir where
  report : Report
  files : List Path

/-- `_ROTATED_OUT_BAD`: a name that ends in `.<digits>.out.bad`. -/
def rotatedOutBad (u : Unicode) (name : String) : Bool :=
  match (Text.split '.' name.toList).reverse with
  | bad :: out :: digits :: _ :: _ =>
      decide (bad = "bad".toList) && decide (out = "out".toList) && !digits.isEmpty &&
        digits.all fun c => (u.digit? c).isSome
  | _ => false

/-- The `.out.bad` files of this run, sorted. -/
def outBad (u : Unicode) (files : List Path) : List Path :=
  (files.filter fun p =>
    let name := p.getLastD ""
    ".out.bad".toList.isSuffixOf name.toList && !rotatedOutBad u name).mergeSort
      (fun a b => decide (Text.join "/" a ≤ Text.join "/" b))

/-- `parse_xunit`. -/
def parseXunit (u : Unicode) (read : String → Option Number) (path : Path) (dir : ResultsDir) :
    Except PyError Summary :=
  let base : Summary :=
    { reportPath := path ++ ["result.xml"]
      reportPresent := match dir.report with | .absent => false | _ => true
      passed := 0, failed := 0, skipped := 0, tests := 0, iterations := 0
      failures := [], notruns := [], perTest := []
      outBad := outBad u dir.files
      checkLog := if path ++ ["check.log"] ∈ dir.files then some (path ++ ["check.log"]) else none
      error := none }
  match dir.report with
  | .absent => .ok { base with error := some "no xunit report" }
  | .unreadable e => .error e
  | .malformed m => .ok { base with error := some ("unparseable xunit report: " ++ m) }
  | .document root => summarize (tally read root.iter) base

/-! ## The passes of a report -/

/-- What one `<testcase>` says: the test, whether it failed, whether it was
skipped. -/
structure Pass where
  name : String
  failed : Bool
  skipped : Bool
  deriving DecidableEq, Repr

/-- The pass of a testcase. -/
def passOf (case : Element) : Pass :=
  ⟨testcaseName case, case.children.any fun c => decide (c.localName = "failure"),
    case.children.any fun c => decide (c.localName = "skipped")⟩

/-- The testcases of an element list. -/
def testcases (cases : List Element) : List Element :=
  cases.filter fun c => decide (c.localName = "testcase")

/-- The passes of a report. -/
def passes (cases : List Element) : List Pass := (testcases cases).map passOf

/-- The passes of one test. -/
def ofTest (ps : List Pass) (name : String) : List Pass := ps.filter fun p => p.name = name

/-- A test ran in some pass. -/
def Ran (ps : List Pass) (name : String) : Prop := ∃ p ∈ ps, p.name = name

/-- A test failed in some pass. -/
def FailedTest (ps : List Pass) (name : String) : Prop :=
  ∃ p ∈ ps, p.name = name ∧ p.failed = true

/-- A test passed: it failed in no pass, and some pass did not skip it. -/
def PassedTest (ps : List Pass) (name : String) : Prop :=
  ¬ FailedTest ps name ∧ ∃ p ∈ ps, p.name = name ∧ p.skipped = false

/-! ## What the loop has counted -/

@[simp] theorem get?_bump (d : Dict ℕ) (k k' : String) :
    (Dict.get? (bump d k) k').getD 0 =
      (Dict.get? d k').getD 0 + if k' = k then 1 else 0 := by
  rw [bump, Dict.get?_set]
  by_cases h : k' = k
  · simp [h]
  · simp [h]

theorem contains_noteFailure (name : String) (agg : Dict Failure) (child : Element) (k : String) :
    Dict.contains (noteFailure name agg child) k = (Dict.contains agg k || decide (k = name)) := by
  have hset : ∀ f : Failure, Dict.contains (Dict.set agg name f) k =
      (Dict.contains agg k || decide (k = name)) := by
    intro f
    rw [Dict.contains, Dict.get?_set]
    by_cases h : k = name
    · simp [h]
    · simp [h, Dict.contains]
  rw [noteFailure]
  cases Dict.get? agg name with
  | none => exact hset _
  | some entry => exact hset _

/-- The scan of the children adds the test to the failing ones when some child is a
failure, and finds what `passOf` says. -/
theorem foldl_scanChild (name : String) (cs : List Element)
    (acc : Dict Failure × Bool × Bool) :
    let out := cs.foldl (scanChild name) acc
    (∀ k, Dict.contains out.1 k = (Dict.contains acc.1 k ||
      (decide (k = name) && cs.any fun c => decide (c.localName = "failure")))) ∧
    out.2.1 = (acc.2.1 || cs.any fun c => decide (c.localName = "failure")) ∧
    out.2.2 = (acc.2.2 || cs.any fun c => decide (c.localName = "skipped")) := by
  induction cs generalizing acc with
  | nil => simp
  | cons c cs ih =>
      obtain ⟨h1, h2, h3⟩ := ih (scanChild name acc c)
      rw [List.foldl_cons]
      refine ⟨fun k => ?_, ?_, ?_⟩
      · rw [h1 k]
        by_cases hf : c.localName = "failure"
        · simp only [scanChild, hf, if_true, contains_noteFailure, List.any_cons, decide_true]
          cases Dict.contains acc.1 k <;> cases decide (k = name) <;> simp
        · by_cases hs : c.localName = "skipped"
          · simp [scanChild, hs]
          · simp [scanChild, hf, hs]
      · rw [h2]
        by_cases hf : c.localName = "failure"
        · simp [scanChild, hf]
        · by_cases hs : c.localName = "skipped"
          · simp [scanChild, hs]
          · simp [scanChild, hf, hs]
      · rw [h3]
        by_cases hf : c.localName = "failure"
        · simp [scanChild, hf]
        · by_cases hs : c.localName = "skipped"
          · simp [scanChild, hs]
          · simp [scanChild, hf, hs]

/-- The loop as a tally of the passes: how it was before, and what a testcase
adds. -/
structure TallyOf (t : Tally) (ps : List Pass) : Prop where
  fails : ∀ k, Dict.contains t.failAgg k = true ↔ FailedTest ps k
  runs : ∀ k, (Dict.get? t.runs k).getD 0 = (ofTest ps k).length
  skips : ∀ k, (Dict.get? t.skips k).getD 0 =
    (ofTest ps k).countP fun p => p.skipped && !p.failed
  keys : ∀ k, k ∈ Dict.keys t.runs ↔ Ran ps k
  runsNodup : (Dict.keys t.runs).Nodup
  failNodup : (Dict.keys t.failAgg).Nodup

theorem noteFailure_nodup {agg : Dict Failure} (h : (Dict.keys agg).Nodup) (name : String)
    (child : Element) : (Dict.keys (noteFailure name agg child)).Nodup := by
  rw [noteFailure]
  cases Dict.get? agg name with
  | none => exact Dict.keys_set_nodup h _ _
  | some entry => exact Dict.keys_set_nodup h _ _

theorem foldl_scanChild_nodup (name : String) (cs : List Element)
    (acc : Dict Failure × Bool × Bool) (h : (Dict.keys acc.1).Nodup) :
    (Dict.keys (cs.foldl (scanChild name) acc).1).Nodup := by
  induction cs generalizing acc with
  | nil => exact h
  | cons c cs ih =>
      refine ih _ ?_
      by_cases hf : c.localName = "failure"
      · simpa only [scanChild, hf, if_true] using noteFailure_nodup h name c
      · by_cases hs : c.localName = "skipped"
        · simpa [scanChild, hs] using h
        · simpa [scanChild, hf, hs] using h

theorem tallyCase_other {read : String → Option Number} {case : Element}
    (h : case.localName ≠ "testcase") (t : Tally) : tallyCase read t case = t := if_pos h

theorem tallyCase_testcase (read : String → Option Number) {case : Element}
    (h : case.localName = "testcase") (t : Tally) :
    let p := passOf case
    (∀ k, Dict.contains (tallyCase read t case).failAgg k =
      (Dict.contains t.failAgg k || (decide (k = p.name) && p.failed))) ∧
    (tallyCase read t case).runs = bump t.runs p.name ∧
    (tallyCase read t case).skips =
      (if p.skipped && !p.failed then bump t.skips p.name else t.skips) ∧
    (tallyCase read t case).times = noteTime read t.times p.name case := by
  obtain ⟨h1, h2, h3⟩ := foldl_scanChild (testcaseName case) case.children
    (t.failAgg, false, false)
  rw [tallyCase, if_neg (not_not.mpr h)]
  refine ⟨h1, rfl, ?_, rfl⟩
  simp only [Bool.false_or] at h2 h3
  simp only [h2, h3]
  rfl

theorem failedTest_append (ps qs : List Pass) (k : String) :
    FailedTest (ps ++ qs) k ↔ FailedTest ps k ∨ FailedTest qs k := by
  simp only [FailedTest, List.mem_append, or_and_right, exists_or]

theorem ran_append (ps qs : List Pass) (k : String) :
    Ran (ps ++ qs) k ↔ Ran ps k ∨ Ran qs k := by
  simp only [Ran, List.mem_append, or_and_right, exists_or]

theorem failedTest_single (p : Pass) (k : String) :
    FailedTest [p] k ↔ k = p.name ∧ p.failed = true := by
  constructor
  · rintro ⟨q, hq, hk, hf⟩
    cases List.mem_singleton.mp hq
    exact ⟨hk.symm, hf⟩
  · rintro ⟨hk, hf⟩
    exact ⟨p, List.mem_singleton_self p, hk.symm, hf⟩

theorem ofTest_append (ps qs : List Pass) (k : String) :
    ofTest (ps ++ qs) k = ofTest ps k ++ ofTest qs k := List.filter_append _ _

theorem ofTest_single (p : Pass) (k : String) :
    ofTest [p] k = if k = p.name then [p] else [] := by
  by_cases h : k = p.name
  · simp [ofTest, h]
  · simp [ofTest, h, Ne.symm h]

/-- A testcase adds its pass to the tally. -/
theorem tallyOf_testcase {read : String → Option Number} {t : Tally} {ps : List Pass}
    (h : TallyOf t ps) {case : Element} (hc : case.localName = "testcase") :
    TallyOf (tallyCase read t case) (ps ++ [passOf case]) := by
  obtain ⟨hfail, hruns, hskips, -⟩ := tallyCase_testcase read hc t
  refine ⟨fun k => ?_, fun k => ?_, fun k => ?_, fun k => ?_, ?_, ?_⟩
  · rw [hfail k, Bool.or_eq_true, h.fails k, failedTest_append, failedTest_single,
      Bool.and_eq_true, decide_eq_true_eq]
  · rw [hruns, get?_bump, h.runs k, ofTest_append, List.length_append, ofTest_single]
    by_cases hk : k = (passOf case).name
    · rw [if_pos hk, if_pos hk, List.length_singleton]
    · rw [if_neg hk, if_neg hk, List.length_nil]
  · rw [hskips, ofTest_append, List.countP_append, ← h.skips k, ofTest_single]
    by_cases hs : ((passOf case).skipped && !(passOf case).failed) = true
    · rw [if_pos hs, get?_bump]
      by_cases hk : k = (passOf case).name
      · rw [if_pos hk, if_pos hk, List.countP_singleton, if_pos hs]
      · rw [if_neg hk, if_neg hk, List.countP_nil]
    · rw [if_neg hs]
      by_cases hk : k = (passOf case).name
      · rw [if_pos hk, List.countP_singleton, if_neg hs, add_zero]
      · rw [if_neg hk, List.countP_nil, add_zero]
  · rw [hruns, bump, Dict.keys_set, ran_append, ← h.keys k]
    by_cases hk : (passOf case).name ∈ Dict.keys t.runs
    · rw [if_pos hk]
      simp only [Ran, List.mem_singleton, exists_eq_left]
      constructor
      · intro hmem
        exact .inl hmem
      · rintro (hmem | rfl)
        · exact hmem
        · exact hk
    · rw [if_neg hk]
      simp [Ran, eq_comm]
  · rw [hruns]
    exact Dict.keys_set_nodup h.runsNodup _ _
  · rw [tallyCase, if_neg (not_not.mpr hc)]
    exact foldl_scanChild_nodup _ _ _ h.failNodup

theorem tallyOf_foldl {read : String → Option Number} (cases : List Element) {t : Tally}
    {ps : List Pass} (h : TallyOf t ps) :
    TallyOf (cases.foldl (tallyCase read) t) (ps ++ passes cases) := by
  induction cases generalizing t ps with
  | nil => simpa [passes, testcases] using h
  | cons case cases ih =>
      rw [List.foldl_cons]
      by_cases hc : case.localName = "testcase"
      · have hps : ps ++ passes (case :: cases) = (ps ++ [passOf case]) ++ passes cases := by
          simp [passes, testcases, hc]
        rw [hps]
        exact ih (tallyOf_testcase h hc)
      · have hps : passes (case :: cases) = passes cases := by
          simp [passes, testcases, hc]
        rw [hps, tallyCase_other hc]
        exact ih h

/-- The loop tallies the passes of the report. -/
theorem tallyOf_tally (read : String → Option Number) (cases : List Element) :
    TallyOf (tally read cases) (passes cases) := by
  have hempty : TallyOf ⟨[], [], [], []⟩ [] :=
    ⟨fun k => by simp [FailedTest, Dict.contains], fun k => rfl, fun k => rfl,
      fun k => by simp [Ran, Dict.keys], by simp [Dict.keys], by simp [Dict.keys]⟩
  exact tallyOf_foldl cases hempty

/-! ## The statuses -/

theorem TallyOf.status_failed_iff {t : Tally} {ps : List Pass} (h : TallyOf t ps) (k : String) :
    t.status k = .failed ↔ FailedTest ps k := by
  rw [← h.fails k, Tally.status]
  cases Dict.contains t.failAgg k
  · by_cases hn : t.isNotrun k = true <;> simp [hn]
  · simp

/-- A test is skipped as often as it ran exactly when every pass skipped it and
none failed. -/
theorem TallyOf.counts_eq_iff {t : Tally} {ps : List Pass} (h : TallyOf t ps) (k : String) :
    (Dict.get? t.skips k).getD 0 = (Dict.get? t.runs k).getD 0 ↔
      ∀ p ∈ ps, p.name = k → p.skipped = true ∧ p.failed = false := by
  rw [h.skips k, h.runs k, List.countP_eq_length]
  constructor
  · intro hall p hp hn
    have := hall p (List.mem_filter.mpr ⟨hp, decide_eq_true hn⟩)
    simpa using this
  · intro hall p hp
    obtain ⟨hmem, hn⟩ := List.mem_filter.mp hp
    simpa using hall p hmem (of_decide_eq_true hn)

theorem TallyOf.isNotrun_iff {t : Tally} {ps : List Pass} (h : TallyOf t ps) (k : String) :
    t.isNotrun k = true ↔ ¬ FailedTest ps k ∧ ∀ p ∈ ps, p.name = k → p.skipped = true := by
  rw [Tally.isNotrun, Bool.and_eq_true, Bool.not_eq_true', decide_eq_true_eq, h.counts_eq_iff k,
    ← h.fails k, Bool.not_eq_true]
  constructor
  · rintro ⟨hf, hall⟩
    exact ⟨hf, fun p hp hn => (hall p hp hn).1⟩
  · rintro ⟨hf, hall⟩
    refine ⟨hf, fun p hp hn => ⟨hall p hp hn, ?_⟩⟩
    have hnot : ¬ FailedTest ps k := by
      rw [← h.fails k, hf]
      exact Bool.false_ne_true
    cases hpf : p.failed with
    | false => rfl
    | true => exact absurd ⟨p, hp, hn, hpf⟩ hnot

theorem TallyOf.status_passed_iff {t : Tally} {ps : List Pass} (h : TallyOf t ps) (k : String) :
    t.status k = .passed ↔ PassedTest ps k := by
  have hfail := h.fails k
  have hnot := h.isNotrun_iff k
  rw [Tally.status, PassedTest]
  cases hc : Dict.contains t.failAgg k
  · have hnf : ¬ FailedTest ps k := by
      rw [← hfail, hc]
      exact Bool.false_ne_true
    by_cases hn : t.isNotrun k = true
    · simp only [hn, if_true, Bool.false_eq_true, if_false, reduceCtorEq, false_iff, not_and]
      rintro - ⟨p, hp, hpk, hps⟩
      rw [(hnot.mp hn).2 p hp hpk] at hps
      cases hps
    · simp only [hn, if_false, Bool.false_eq_true, true_iff]
      refine ⟨hnf, ?_⟩
      by_contra hno
      refine hn (hnot.mpr ⟨hnf, fun p hp hpk => ?_⟩)
      cases hps : p.skipped with
      | true => rfl
      | false => exact absurd ⟨p, hp, hpk, hps⟩ hno
  · simp [hfail.mp hc]

theorem Tally.status_notrun_iff (t : Tally) (k : String) :
    t.status k = .notrun ↔ t.isNotrun k = true := by
  rw [Tally.status]
  cases hc : Dict.contains t.failAgg k
  · by_cases hn : t.isNotrun k = true <;> simp [hn]
  · simp [Tally.isNotrun, hc]

/-! ## The counters -/

theorem failedTest_ran {ps : List Pass} {k : String} : FailedTest ps k → Ran ps k := by
  rintro ⟨p, hp, hk, -⟩
  exact ⟨p, hp, hk⟩

/-- The tests of a status. -/
def Tally.testsOf (t : Tally) (s : TestStatus) : List String :=
  (Dict.keys t.runs).filter fun k => decide (t.status k = s)

theorem mem_testsOf {t : Tally} {s : TestStatus} {k : String} :
    k ∈ t.testsOf s ↔ k ∈ Dict.keys t.runs ∧ t.status k = s := by
  rw [Tally.testsOf, List.mem_filter, decide_eq_true_eq]

/-- The failing tests noted are the tests that failed. -/
theorem TallyOf.failAgg_perm {t : Tally} {ps : List Pass} (h : TallyOf t ps) :
    (Dict.keys t.failAgg).Perm (t.testsOf .failed) := by
  refine (List.perm_ext_iff_of_nodup h.failNodup (h.runsNodup.filter _)).mpr fun k =>
    Iff.trans ?_ mem_testsOf.symm
  rw [ h.status_failed_iff k, ← Dict.contains_iff_mem_keys, h.fails k, h.keys k]
  exact ⟨fun hf => ⟨failedTest_ran hf, hf⟩, fun hf => hf.2⟩

theorem TallyOf.length_failAgg {t : Tally} {ps : List Pass} (h : TallyOf t ps) :
    t.failAgg.length = (t.testsOf .failed).length := by
  rw [← h.failAgg_perm.length_eq, Dict.keys, List.length_map]

theorem Tally.filter_isNotrun (t : Tally) :
    (Dict.keys t.runs).filter t.isNotrun = t.testsOf .notrun := by
  refine List.filter_congr fun k _ => ?_
  rw [Bool.eq_iff_iff, decide_eq_true_eq, t.status_notrun_iff k]

/-- Every test has one status. -/
theorem length_by_status (f : String → TestStatus) (ks : List String) :
    ks.length = (ks.filter fun k => decide (f k = .failed)).length +
      (ks.filter fun k => decide (f k = .notrun)).length +
      (ks.filter fun k => decide (f k = .passed)).length := by
  induction ks with
  | nil => rfl
  | cons k ks ih =>
      cases hk : f k <;> simp [hk] <;> omega

/-- The counters of the summary are the numbers of tests of each status. -/
theorem summarize_counts {t : Tally} {ps : List Pass} (h : TallyOf t ps) {base s : Summary}
    (hs : summarize t base = .ok s) :
    s.passed = (t.testsOf .passed).length ∧ s.failed = (t.testsOf .failed).length ∧
      s.skipped = (t.testsOf .notrun).length ∧ s.tests = (Dict.keys t.runs).length ∧
      s.reportPresent = base.reportPresent := by
  obtain ⟨rows, -, hrows⟩ := except_bind_ok.mp hs
  cases hrows
  have hkeys : t.runs.length = (Dict.keys t.runs).length := (List.length_map _).symm
  have hsum := length_by_status t.status (Dict.keys t.runs)
  refine ⟨?_, h.length_failAgg, ?_, hkeys, rfl⟩
  · simp only [List.length_mergeSort, t.filter_isNotrun, h.length_failAgg, hkeys]
    simp only [Tally.testsOf]
    omega
  · simp only [List.length_mergeSort, t.filter_isNotrun]

theorem TallyOf.testsOf_ne_nil_iff {t : Tally} {ps : List Pass} (h : TallyOf t ps)
    (s : TestStatus) : (t.testsOf s).length ≠ 0 ↔ ∃ k, Ran ps k ∧ t.status k = s := by
  rw [← Nat.pos_iff_ne_zero, List.length_pos_iff_exists_mem]
  refine exists_congr fun k => ?_
  rw [mem_testsOf, h.keys k]

/-- The summary counts a failure exactly when some pass failed. -/
theorem summarize_failed_iff {t : Tally} {ps : List Pass} (h : TallyOf t ps) {base s : Summary}
    (hs : summarize t base = .ok s) : s.failed ≠ 0 ↔ ∃ k, FailedTest ps k := by
  rw [(summarize_counts h hs).2.1, h.testsOf_ne_nil_iff]
  refine exists_congr fun k => ?_
  rw [h.status_failed_iff k]
  exact ⟨fun hf => hf.2, fun hf => ⟨failedTest_ran hf, hf⟩⟩

/-! ## When a report reads -/

/-- A testcase whose time reads as a number. -/
def timeFinite (read : String → Option Number) (case : Element) : Bool :=
  let text := (case.get? "time").getD ""
  match if text = "" then some (.finite 0) else read text with
  | some x => x.isFinite
  | none => true

/-- The times of the tests are numbers exactly when those of their testcases are. -/
def TimesOf (times : Dict Number) (allFinite : String → Prop) : Prop :=
  ∀ k, ((Dict.get? times k).getD (.finite 0)).isFinite = true ↔ allFinite k

theorem timesOf_noteTime {read : String → Option Number} {times : Dict Number}
    {fin : String → Prop} (h : TimesOf times fin) (name : String) (case : Element) :
    TimesOf (noteTime read times name case)
      (fun k => fin k ∧ (k = name → timeFinite read case = true)) := by
  intro k
  rw [noteTime, timeFinite]
  cases hread : (if (case.get? "time").getD "" = "" then some (.finite 0)
      else read ((case.get? "time").getD "") : Option Number) with
  | none =>
      simpa using h k
  | some x =>
      simp only [Dict.get?_set]
      by_cases hk : k = name
      · subst hk
        simp only [if_true, Option.getD_some, Number.isFinite_add, Bool.and_eq_true,
          forall_const]
        rw [h k]
      · simp only [hk, if_false, false_implies, and_true]
        exact h k

theorem timesOf_foldl (read : String → Option Number) (cases : List Element) {t : Tally}
    {fin : String → Prop} (h : TimesOf t.times fin) :
    TimesOf (cases.foldl (tallyCase read) t).times (fun k => fin k ∧
      ∀ c ∈ testcases cases, testcaseName c = k → timeFinite read c = true) := by
  induction cases generalizing t fin with
  | nil => simpa [testcases, TimesOf] using h
  | cons case cases ih =>
      rw [List.foldl_cons]
      by_cases hc : case.localName = "testcase"
      · have hstep : TimesOf (tallyCase read t case).times (fun k => fin k ∧
            (k = testcaseName case → timeFinite read case = true)) := by
          rw [(tallyCase_testcase read hc t).2.2.2]
          exact timesOf_noteTime h _ _
        intro k
        refine (ih hstep k).trans ?_
        simp only [and_assoc]
        refine and_congr_right fun _ => ?_
        simp only [testcases, List.filter_cons, hc, decide_true, if_true, List.mem_cons,
          forall_eq_or_imp, eq_comm (a := k)]
      · rw [tallyCase_other hc]
        have htests : testcases (case :: cases) = testcases cases := by simp [testcases, hc]
        rw [htests]
        exact ih h

/-- Every row of the per-test table is built exactly when every time is a number. -/
theorem mapM_row_iff (t : Tally) (ks : List String) :
    (∃ rows, ks.mapM t.row = .ok rows) ↔
      ∀ k ∈ ks, ((Dict.get? t.times k).getD (.finite 0)).isFinite = true := by
  have hrow : ∀ k, (∃ r, t.row k = .ok r) ↔
      ((Dict.get? t.times k).getD (.finite 0)).isFinite = true := by
    intro k
    rw [← Number.round_returns_iff]
    constructor
    · rintro ⟨r, hr⟩
      obtain ⟨n, hn, -⟩ := except_bind_ok.mp hr
      exact ⟨n, hn⟩
    · rintro ⟨n, hn⟩
      exact ⟨_, except_bind_ok.mpr ⟨n, hn, rfl⟩⟩
  induction ks with
  | nil => exact ⟨fun _ k hk => (List.not_mem_nil hk).elim, fun _ => ⟨[], rfl⟩⟩
  | cons k ks ih =>
      rw [List.mapM_cons, List.forall_mem_cons]
      refine Iff.trans ?_ (and_congr (hrow k) ih)
      constructor
      · rintro ⟨rows, h⟩
        obtain ⟨r, hr, hrest⟩ := except_bind_ok.mp h
        obtain ⟨rs, hrs, -⟩ := except_bind_ok.mp hrest
        exact ⟨⟨r, hr⟩, ⟨rs, hrs⟩⟩
      · rintro ⟨⟨r, hr⟩, ⟨rs, hrs⟩⟩
        exact ⟨r :: rs, except_bind_ok.mpr ⟨r, hr, except_bind_ok.mpr ⟨rs, hrs, rfl⟩⟩⟩

/-- A report summarizes exactly when no testcase's time is an infinity or NaN. -/
theorem summarize_tally_iff (read : String → Option Number) (cases : List Element)
    (base : Summary) :
    (∃ s, summarize (tally read cases) base = .ok s) ↔
      ∀ c ∈ testcases cases, timeFinite read c = true := by
  have hstart : TimesOf (⟨[], [], [], []⟩ : Tally).times fun _ => True := fun k => by
    simp [Number.isFinite]
  have htimes := timesOf_foldl read cases hstart
  have hsum : (∃ s, summarize (tally read cases) base = .ok s) ↔
      ∃ rows, (Dict.keys (tally read cases).runs).mapM (tally read cases).row = .ok rows := by
    constructor
    · rintro ⟨s, hs⟩
      obtain ⟨rows, hrows, -⟩ := except_bind_ok.mp hs
      exact ⟨rows, hrows⟩
    · rintro ⟨rows, hrows⟩
      exact ⟨_, except_bind_ok.mpr ⟨rows, hrows, rfl⟩⟩
  rw [hsum, mapM_row_iff]
  constructor
  · intro h c hc
    have hran : testcaseName c ∈ Dict.keys (tally read cases).runs :=
      ((tallyOf_tally read cases).keys _).mpr ⟨passOf c, List.mem_map_of_mem hc, rfl⟩
    exact ((htimes (testcaseName c)).mp (h _ hran)).2 c hc rfl
  · intro h k _
    exact (htimes k).mpr ⟨trivial, fun c hc _ => h c hc⟩

end KdevopsNg.Fstests
