/-
# `Suites.Counted` — a pass is counted

Where the catalog of the userspace harnesses or of the runtime tests has a summary
line for an item, the item passes only on the counts of the last one (`Counted`): at
least one test, and no failure.  Both collect steps also ask that the number passed is
the total, but for the summary of vma, which has a count of failures of its own; that
one is asked to be zero, and the number passed is not looked at.
-/
import KdevopsNg.RuntimeTests.Collect

namespace KdevopsNg.Suites

open Py

/-- The counts a verdict returns are those of a summary line, whose group `total` has the number
of tests; there are tests, and none failed. -/
structure Counted (u : Unicode) (m : Found) (total : String) (tests passed failed : ℤ) : Prop where
  tests_eq : ∀ t, m.group total = some t → (Text.digitsToNat u t : ℤ) = tests
  passed_eq : ∀ t, m.group "passed" = some t → (Text.digitsToNat u t : ℤ) = passed
  one_le : 1 ≤ tests
  failed_eq : failed = 0

/-- What a passed harness with a summary line proved. -/
def HarnessCounted (u : Unicode) (p : Regex) (r : Usertests.HarnessRun) : Prop :=
  let v := Usertests.collect u r
  ∃ m, (p.finditer false r.output.toList).getLast? = some m ∧
    if "failed" ∈ p.re.names then
      Counted u m "run" v.tests v.passed v.failed ∧
        ∀ t, m.group "failed" = some t → Text.digitsToNat u t = 0
    else Counted u m "total" v.tests v.passed v.failed ∧ v.passed = v.tests

/-- What a passed module with a summary line proved. -/
def ModuleCounted (u : Unicode) (p : Regex) (r : RuntimeTests.ModuleRun) : Prop :=
  let v := RuntimeTests.collect u r
  ∃ m, (p.finditer false r.kmsg.toList).getLast? = some m ∧
    Counted u m "total" v.tests v.passed v.failed ∧ v.passed = v.tests

section
variable {u : Unicode}

theorem groupInt_of_group {m : Found} {name : String} {t : List Char}
    (h : m.group name = some t) : Usertests.groupInt u m name = Text.digitsToNat u t := by
  rw [Usertests.groupInt, h]
  rfl

/-- A passed harness has nothing found in its evidence. -/
theorem evidence_of_passed {r : Usertests.HarnessRun}
    (h : (Usertests.collect u r).status = .passed) :
    (Usertests.evidence u (Usertests.catalogEntry u r.item) r.output.toList
      (Text.splitlines r.output.toList)).findings = [] := by
  have hnil : Usertests.findings u (Usertests.catalogEntry u r.item) r = [] := by
    by_contra hne
    have hfailed : (Usertests.collect u r).status = .failed := if_neg hne
    rw [hfailed] at h
    cases h
  rw [Usertests.findings] at hnil
  exact (List.append_eq_nil_iff.mp hnil).2

/-- No finding about the summary of vma: none failed, and there are tests. -/
theorem summaryEvidence_run {p : Regex} {m : Found} (hnames : "failed" ∈ p.re.names)
    (h : (Usertests.summaryEvidence u p m).findings = []) :
    Counted u m "run" (Usertests.summaryEvidence u p m).tests
        (Usertests.summaryEvidence u p m).passed (Usertests.summaryEvidence u p m).failed ∧
      ∀ t, m.group "failed" = some t → Text.digitsToNat u t = 0 := by
  simp only [Usertests.summaryEvidence, if_pos hnames, List.append_eq_nil_iff] at h ⊢
  obtain ⟨hfailed, htests⟩ := h
  have hzero : Usertests.groupInt u m "failed" = 0 := by
    by_contra hne
    rw [if_pos hne] at hfailed
    cases hfailed
  have hsome : ¬ Usertests.groupInt u m "run" ≤ 0 := by
    intro hle
    rw [if_pos hle] at htests
    cases htests
  refine ⟨⟨fun t ht => (groupInt_of_group ht).symm, fun t ht => (groupInt_of_group ht).symm,
    by omega, hzero⟩, fun t ht => ?_⟩
  rw [groupInt_of_group ht] at hzero
  exact_mod_cast hzero

/-- No finding about another summary: all passed, and there are tests. -/
theorem summaryEvidence_total {p : Regex} {m : Found} (hnames : "failed" ∉ p.re.names)
    (h : (Usertests.summaryEvidence u p m).findings = []) :
    Counted u m "total" (Usertests.summaryEvidence u p m).tests
        (Usertests.summaryEvidence u p m).passed (Usertests.summaryEvidence u p m).failed ∧
      (Usertests.summaryEvidence u p m).passed = (Usertests.summaryEvidence u p m).tests := by
  simp only [Usertests.summaryEvidence, if_neg hnames] at h ⊢
  split_ifs at h with hle hne
  have heq : Usertests.groupInt u m "passed" = Usertests.groupInt u m "total" := not_not.mp hne
  exact ⟨⟨fun t ht => (groupInt_of_group ht).symm, fun t ht => (groupInt_of_group ht).symm,
    by omega, sub_eq_zero.mpr heq.symm⟩, heq⟩

theorem harnessCounted {p : Regex} {r : Usertests.HarnessRun}
    (hp : (Usertests.catalogEntry u r.item).summary = some p)
    (h : (Usertests.collect u r).status = .passed) : HarnessCounted u p r := by
  have hfindings := evidence_of_passed h
  let ev := Usertests.evidence u (Usertests.catalogEntry u r.item) r.output.toList
    (Text.splitlines r.output.toList)
  have hlast : ∃ m, (p.finditer false r.output.toList).getLast? = some m ∧
      ev = Usertests.summaryEvidence u p m := by
    simp only [ev, Usertests.evidence, hp] at hfindings ⊢
    split at hfindings
    · cases hfindings
    · next m hm => exact ⟨m, hm, rfl⟩
  obtain ⟨m, hm, hev⟩ := hlast
  have hnil : (Usertests.summaryEvidence u p m).findings = [] := hev ▸ hfindings
  refine ⟨m, hm, ?_⟩
  split
  · next hnames =>
      show Counted u m "run" ev.tests ev.passed ev.failed ∧ _
      rw [hev]
      exact summaryEvidence_run hnames hnil
  · next hnames =>
      show Counted u m "total" ev.tests ev.passed ev.failed ∧ ev.passed = ev.tests
      rw [hev]
      exact summaryEvidence_total hnames hnil

/-- A passed module has its evidence, and no reason against it there. -/
theorem moduleEvidence_of_passed {r : RuntimeTests.ModuleRun}
    (h : (RuntimeTests.collect u r).status = .passed) :
    let ev := RuntimeTests.evidence u (RuntimeTests.catalogEntry u r.module) r.kmsg.toList
    ev.reasons = [] ∧ ev.missing = false := by
  intro ev
  have hstatus : (if RuntimeTests.reasons u (RuntimeTests.catalogEntry u r.module) r ≠ [] then
      Status.failed else if ev.missing then .notrun else .passed) = .passed := h
  split_ifs at hstatus with hreasons hmissing
  refine ⟨?_, eq_false_of_ne_true hmissing⟩
  have hnil := not_not.mp hreasons
  rw [RuntimeTests.reasons] at hnil
  exact (List.append_eq_nil_iff.mp (List.append_eq_nil_iff.mp hnil).1).2

/-- Where a summary has the number of tests, that is their number; else it is the number passed. -/
theorem summaryCounts_some {p : Regex} {kmsg : List Char} {passed tests : ℤ}
    (h : RuntimeTests.summaryCounts u p kmsg = some (passed, tests)) :
    ∃ m, (p.finditer false kmsg).getLast? = some m ∧
      (∀ t, m.group "total" = some t → (Text.digitsToNat u t : ℤ) = tests) ∧
      ∀ t, m.group "passed" = some t → (Text.digitsToNat u t : ℤ) = passed := by
  obtain ⟨m, hm, heq⟩ := Option.map_eq_some_iff.mp h
  obtain ⟨hpassed, htests⟩ := Prod.mk.inj heq
  refine ⟨m, hm, fun t ht => ?_, fun t ht => ?_⟩
  · rw [← htests, ht]
  · rw [← hpassed, ht]

theorem moduleCounted {p : Regex} {r : RuntimeTests.ModuleRun}
    (hp : (RuntimeTests.catalogEntry u r.module).summary = some p)
    (h : (RuntimeTests.collect u r).status = .passed) : ModuleCounted u p r := by
  let ev := RuntimeTests.evidence u (RuntimeTests.catalogEntry u r.module) r.kmsg.toList
  obtain ⟨hreasons, hmissing⟩ := moduleEvidence_of_passed h
  have hread : ∃ passed tests, RuntimeTests.summaryCounts u p r.kmsg.toList = some (passed, tests) ∧
      ev.tests = tests ∧ ev.passed = passed ∧ 1 ≤ tests ∧ passed = tests := by
    simp only [ev, RuntimeTests.evidence, hp] at hreasons hmissing ⊢
    split at hmissing
    · cases hmissing
    · next passed tests hcounts =>
        simp only [hcounts] at hreasons ⊢
        split_ifs at hreasons with hle hne
        exact ⟨passed, tests, rfl, rfl, rfl, by omega, not_not.mp hne⟩
  obtain ⟨passed, tests, hcounts, htests, hpassed, hone, heq⟩ := hread
  obtain ⟨m, hm, hm_total, hm_passed⟩ := summaryCounts_some hcounts
  refine ⟨m, hm, ?_⟩
  show Counted u m "total" ev.tests ev.passed (ev.tests - ev.passed) ∧ ev.passed = ev.tests
  rw [htests, hpassed]
  exact ⟨⟨hm_total, hm_passed, hone, sub_eq_zero.mpr heq.symm⟩, heq⟩

/-- A pass of an item with a summary line is counted, in both suites. -/
theorem passed_counted (u : Unicode) :
    (∀ p r, (Usertests.catalogEntry u r.item).summary = some p →
      (Usertests.collect u r).status = .passed → HarnessCounted u p r) ∧
    ∀ p r, (RuntimeTests.catalogEntry u r.module).summary = some p →
      (RuntimeTests.collect u r).status = .passed → ModuleCounted u p r :=
  ⟨fun _ _ hp h => harnessCounted hp h, fun _ _ hp h => moduleCounted hp h⟩

end

/-- A clean run of a harness with an output. -/
def cleanRun (item output : String) : Usertests.HarnessRun where
  vmName := "vm0"
  item := item
  kernelVersion := "7.2.0"
  output := output
  result := "done"
  execStatus := ""
  crashed := false
  timedOut := false
  runtime := none
  startedMs := none
  endedMs := none

/-- A clean load of a module with a log. -/
def cleanLoad (module kmsg : String) : RuntimeTests.ModuleRun where
  vmName := "vm0"
  module := module
  kernelVersion := "7.2.0"
  kmsg := kmsg
  result := "done"
  loaded := true
  execStatus := ""
  crashed := false
  timedOut := false
  runtime := none
  startedMs := none
  endedMs := none

/-- A harness and a module that pass on their counts. -/
theorem passed_counted_sample :
    HarnessCounted .ascii (Usertests.passedOf .ascii "XArray")
        (cleanRun "radix-tree/xarray" "XArray: 7 of 7 tests passed\n") ∧
      ModuleCounted .ascii (RuntimeTests.hexdumpSummary .ascii)
        (cleanLoad "test_hexdump" "test_hexdump: all 9 tests passed\n") :=
  ⟨(passed_counted .ascii).1 _ _ rfl (by decide +kernel),
    (passed_counted .ascii).2 _ _ rfl (by decide +kernel)⟩

/-- The summary of vma passes with tests that did not. -/
theorem vma_uncounted : ¬ ∀ u p r, (Usertests.catalogEntry u r.item).summary = some p →
    (Usertests.collect u r).status = .passed →
      (Usertests.collect u r).passed = (Usertests.collect u r).tests := by
  intro h
  have heq := h .ascii _ (cleanRun "vma/vma" "5 tests run, 3 passed, 0 failed.\n") rfl
    (by decide +kernel)
  exact absurd heq (by decide +kernel)

end KdevopsNg.Suites
