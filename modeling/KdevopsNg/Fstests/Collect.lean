/-
# `Fstests.Collect` — the verdict of a section, and of a run

`main` of `f/fstests/collect.py` and `run_status` of `f/fstests/common.py`.  A
section passes when its report is there, counts no failure, and the guest
neither crashed nor ran out of time; a run passes when it has sections and all
of them passed.

A pass should mean that the section proved something (`Proved`): its report
parses, some test passed and none failed.  `noFalsePass_iff` says exactly when
it does.  The step reads the failures and never the passes, so a report without
either, which is what

    an unparseable report     keeps the counters it started with
    no testcase               an empty suite
    only skipped testcases    nothing ran

have in common, passes the section.
-/
import KdevopsNg.Fstests.Xunit
import KdevopsNg.Suites.Report

namespace KdevopsNg.Fstests

open Py Suites

/-! ## The collect step -/

/-- The files of the share a collect step reads. -/
structure Share where
  results : Path → ResultsDir
  config : Path → TextFile
  geometry : Path → JsonFile

/-- The arguments of the step. -/
structure CollectArgs where
  vmName : String
  sectionName : String
  kernelVersion : String
  crashed : Bool
  timedOut : Bool
  startedMs : Option ℤ
  endedMs : Option ℤ

/-- What the step returns: the counters, and under `detail` the summary and the
geometry. -/
structure SectionResult where
  sectionName : String
  vmName : String
  kernelVersion : String
  fstype : Json
  status : Status
  crashed : Bool
  timedOut : Bool
  startedMs : Option ℤ
  endedMs : Option ℤ
  reportPresent : Bool
  tests : ℕ
  passed : ℕ
  failed : ℕ
  notrun : ℕ
  iterations : ℕ
  summary : Summary
  geometry : Dict Json

section
variable (u : Unicode) (read : String → Option Number) (host : Kernel.Host)

/-- `main`. -/
def main (share : Share) (a : CollectArgs) : Except PyError SectionResult := do
  let resultsDir ← sectionResultsDir host a.vmName a.kernelVersion a.sectionName
  let summary ← parseXunit u read resultsDir (share.results resultsDir)
  let dir ← shareDir host a.vmName
  let geometry ← sectionConfig u
    (share.config (Text.resolve dir (a.sectionName ++ ".config"))) a.sectionName
  let realized ← readSectionGeometry
    (share.geometry (Text.resolve dir (a.sectionName ++ ".geometry.json")))
  let geometry ← mergeGeometry u geometry realized
  let ok := summary.reportPresent && decide (summary.failed = 0) && !a.crashed && !a.timedOut
  return {
    sectionName := a.sectionName, vmName := a.vmName, kernelVersion := a.kernelVersion
    fstype := (Dict.get? geometry "fstype").getD (.str "")
    status := if ok then .passed else .failed
    crashed := a.crashed, timedOut := a.timedOut
    startedMs := a.startedMs, endedMs := a.endedMs
    reportPresent := summary.reportPresent
    tests := summary.tests, passed := summary.passed, failed := summary.failed
    notrun := summary.skipped, iterations := summary.iterations
    summary := summary, geometry := geometry }

/-- An entry of the per-section results: what the step returned, or the error
object of one that raised. -/
inductive SectionEntry where
  | collected (r : SectionResult)
  | stepError (e : PyError)

/-- The entry a call leaves. -/
def entryOf (call : Share × CollectArgs) : SectionEntry :=
  match main u read host call.1 call.2 with
  | .ok r => .collected r
  | .error e => .stepError e

/-- `s.get("status") == "passed"`. -/
def SectionEntry.isPassed : SectionEntry → Bool
  | .collected r => r.status = .passed
  | .stepError _ => false

/-- `run_status`. -/
def runStatus (perSection : List SectionEntry) : Status :=
  if perSection ≠ [] ∧ perSection.all SectionEntry.isPassed then .passed else .failed

/-! ## When the step returns -/

/-- The realized geometry has the shape the step reads: `devices` an object, its
`TEST_DEV` one too, and the `xfs_info` of that a text. -/
def GeometryReads (realized : Dict Json) : Prop :=
  realized = [] ∨ ∃ devices testDev,
    ((Dict.get? realized "devices").getD .null).orElse (.obj []) = .obj devices ∧
    ((Dict.get? devices "TEST_DEV").getD .null).orElse (.obj []) = .obj testDev ∧
    ∀ v, Dict.get? testDev "xfs_info" = some v → v.truthy = true → ∃ text, v = .str text

/-- A geometry file that reads. -/
def GeometryFileReads : JsonFile → Prop
  | .absent | .notJson => True
  | .undecodable => False
  | .json (.obj kvs) => GeometryReads kvs
  | .json _ => True

/-- A report that reads: every time in it is a number. -/
def ReportReads : Report → Prop
  | .absent | .malformed _ => True
  | .unreadable _ => False
  | .document root => ∀ c ∈ testcases root.iter, timeFinite read c = true

/-- The inputs the step does not raise on. -/
def Collects (share : Share) (a : CollectArgs) : Prop :=
  ∃ resultsDir dir,
    sectionResultsDir host a.vmName a.kernelVersion a.sectionName = .ok resultsDir ∧
    shareDir host a.vmName = .ok dir ∧
    ReportReads read (share.results resultsDir).report ∧
    share.config (Text.resolve dir (a.sectionName ++ ".config")) ≠ .undecodable ∧
    GeometryFileReads (share.geometry (Text.resolve dir (a.sectionName ++ ".geometry.json")))

theorem getD_returns_iff {v : Json} {k : String} {d : Json} :
    (∃ w, v.getD k d = .ok w) ↔ ∃ kvs, v = .obj kvs := by
  constructor
  · rintro ⟨w, h⟩
    cases v with
    | obj kvs => exact ⟨kvs, rfl⟩
    | _ => cases h
  · rintro ⟨kvs, rfl⟩
    exact ⟨_, rfl⟩

theorem mergeGeometry_returns_iff (geometry realized : Dict Json) :
    (∃ g, mergeGeometry u geometry realized = .ok g) ↔ GeometryReads realized := by
  by_cases h0 : realized = []
  · constructor
    · intro _
      exact .inl h0
    · intro _
      exact ⟨geometry, if_pos h0⟩
  rw [mergeGeometry, if_neg h0]
  constructor
  · rintro ⟨g, hg⟩
    obtain ⟨testDev, htest, hg⟩ := except_bind_ok.mp hg
    obtain ⟨info, hinfo, hg⟩ := except_bind_ok.mp hg
    obtain ⟨devices, hdev⟩ := getD_returns_iff.mp ⟨_, htest⟩
    obtain ⟨test, htd⟩ := getD_returns_iff.mp ⟨_, hinfo⟩
    rw [hdev, Json.getD_obj] at htest
    cases htest
    rw [htd, Json.getD_obj] at hinfo
    cases hinfo
    refine .inr ⟨devices, test, hdev, htd, fun v hv htruthy => ?_⟩
    rw [hv, Option.getD_some, if_pos htruthy] at hg
    cases v with
    | str text => exact ⟨text, rfl⟩
    | _ => cases hg
  · rintro (h | ⟨devices, test, hdev, htd, hinfo⟩)
    · exact absurd h h0
    · simp only [hdev, Json.getD_obj, htd, bind, Except.bind]
      cases hx : Dict.get? test "xfs_info" with
      | none => exact ⟨_, rfl⟩
      | some v =>
          by_cases ht : v.truthy = true
          · obtain ⟨text, rfl⟩ := hinfo v hx ht
            simp only [Option.getD_some, ht, if_true]
            exact ⟨_, rfl⟩
          · simp only [Option.getD_some, ht, Bool.false_eq_true, if_false]
            exact ⟨_, rfl⟩

theorem readSectionGeometry_returns_iff (geometry : Dict Json) (file : JsonFile) :
    (∃ realized, readSectionGeometry file = .ok realized ∧
      ∃ g, mergeGeometry u geometry realized = .ok g) ↔ GeometryFileReads file := by
  have hnone : (∃ realized, (.ok [] : Except PyError (Dict Json)) = .ok realized ∧
      ∃ g, mergeGeometry u geometry realized = .ok g) ↔ True :=
    ⟨fun _ => trivial, fun _ => ⟨[], rfl, geometry, rfl⟩⟩
  cases file with
  | absent => exact hnone
  | notJson => exact hnone
  | undecodable =>
      constructor
      · rintro ⟨r, h, -⟩
        cases h
      · intro h
        cases h
  | json v =>
      cases v with
      | obj kvs =>
          have hread : readSectionGeometry (.json (.obj kvs)) = .ok kvs := rfl
          rw [hread]
          refine Iff.trans ?_ (mergeGeometry_returns_iff u geometry kvs)
          constructor
          · rintro ⟨r, h, hg⟩
            cases h
            exact hg
          · intro hg
            exact ⟨kvs, rfl, hg⟩
      | _ => exact hnone

theorem sectionConfig_returns_iff (file : TextFile) (sectionName : String) :
    (∃ g, sectionConfig u file sectionName = .ok g) ↔ file ≠ .undecodable := by
  cases file with
  | undecodable => simp [sectionConfig]
  | absent => simp [sectionConfig]
  | text s => simp [sectionConfig]

theorem parseXunit_returns_iff (path : Path) (dir : ResultsDir) :
    (∃ s, parseXunit u read path dir = .ok s) ↔ ReportReads read dir.report := by
  rw [parseXunit]
  cases dir.report with
  | absent => exact ⟨fun _ => trivial, fun _ => ⟨_, rfl⟩⟩
  | malformed m => exact ⟨fun _ => trivial, fun _ => ⟨_, rfl⟩⟩
  | unreadable e => simp [ReportReads]
  | document root => exact summarize_tally_iff read root.iter _

/-- The step returns on exactly the inputs that read. -/
theorem main_returns_iff (share : Share) (a : CollectArgs) :
    (∃ r, main u read host share a = .ok r) ↔ Collects read host share a := by
  constructor
  · rintro ⟨r, h⟩
    obtain ⟨resultsDir, hdir, h⟩ := except_bind_ok.mp h
    obtain ⟨s, hs, h⟩ := except_bind_ok.mp h
    obtain ⟨dir, hshare, h⟩ := except_bind_ok.mp h
    obtain ⟨g, hg, h⟩ := except_bind_ok.mp h
    obtain ⟨realized, hr, h⟩ := except_bind_ok.mp h
    obtain ⟨g', hg', -⟩ := except_bind_ok.mp h
    exact ⟨resultsDir, dir, hdir, hshare, (parseXunit_returns_iff u read _ _).mp ⟨s, hs⟩,
      (sectionConfig_returns_iff u _ _).mp ⟨g, hg⟩,
      (readSectionGeometry_returns_iff u g _).mp ⟨realized, hr, g', hg'⟩⟩
  · rintro ⟨resultsDir, dir, hdir, hshare, hreport, hconfig, hgeometry⟩
    obtain ⟨s, hs⟩ := (parseXunit_returns_iff u read resultsDir _).mpr hreport
    obtain ⟨g, hg⟩ := (sectionConfig_returns_iff u _ a.sectionName).mpr hconfig
    obtain ⟨realized, hr, g', hg'⟩ := (readSectionGeometry_returns_iff u g _).mpr hgeometry
    exact ⟨_, except_bind_ok.mpr ⟨resultsDir, hdir, except_bind_ok.mpr ⟨s, hs,
      except_bind_ok.mpr ⟨dir, hshare, except_bind_ok.mpr ⟨g, hg,
        except_bind_ok.mpr ⟨realized, hr, except_bind_ok.mpr ⟨g', hg', rfl⟩⟩⟩⟩⟩⟩⟩

/-! ## When a pass proves something -/

/-- The section really ran: its report parses, some test passed, no test failed in
any pass, and the guest neither crashed nor ran out of time. -/
def Proved (share : Share) (a : CollectArgs) : Prop :=
  ∃ resultsDir root,
    sectionResultsDir host a.vmName a.kernelVersion a.sectionName = .ok resultsDir ∧
    (share.results resultsDir).report = .document root ∧
    (∃ test, PassedTest (passes root.iter) test) ∧
    (∀ test, ¬ FailedTest (passes root.iter) test) ∧
    a.crashed = false ∧ a.timedOut = false

/-- A section that passes really ran. -/
def NoFalsePass (call : Share × CollectArgs) : Prop :=
  ∀ r, main u read host call.1 call.2 = .ok r → r.status = .passed → Proved host call.1 call.2

/-- A run that passes has sections, and all of them really ran. -/
def NoFalseRun (calls : List (Share × CollectArgs)) : Prop :=
  runStatus (calls.map (entryOf u read host)) = .passed →
    calls ≠ [] ∧ ∀ call ∈ calls, Proved host call.1 call.2

/-- A report that says something: it is no cut one, and some test of it failed or
passed. -/
def Report.Conclusive : Report → Prop
  | .absent | .unreadable _ => True
  | .malformed _ => False
  | .document root =>
      ∃ test, FailedTest (passes root.iter) test ∨ PassedTest (passes root.iter) test

/-- A call the verdict can be trusted on: the step raises, the guest crashed or ran
out of time, or the report says something. -/
def Trusted (call : Share × CollectArgs) : Prop :=
  Collects read host call.1 call.2 → call.2.crashed = false → call.2.timedOut = false →
    ∀ resultsDir, sectionResultsDir host call.2.vmName call.2.kernelVersion call.2.sectionName =
      .ok resultsDir → (call.1.results resultsDir).report.Conclusive

variable {u read host}

/-- The verdict of a section is read off the report's presence and its failures. -/
theorem main_passed_iff {share : Share} {a : CollectArgs} {r : SectionResult}
    (h : main u read host share a = .ok r) :
    ∃ resultsDir s,
      sectionResultsDir host a.vmName a.kernelVersion a.sectionName = .ok resultsDir ∧
      parseXunit u read resultsDir (share.results resultsDir) = .ok s ∧
      (r.status = .passed ↔
        s.reportPresent = true ∧ s.failed = 0 ∧ a.crashed = false ∧ a.timedOut = false) := by
  obtain ⟨resultsDir, hdir, h⟩ := except_bind_ok.mp h
  obtain ⟨s, hs, h⟩ := except_bind_ok.mp h
  obtain ⟨dir, -, h⟩ := except_bind_ok.mp h
  obtain ⟨g, -, h⟩ := except_bind_ok.mp h
  obtain ⟨realized, -, h⟩ := except_bind_ok.mp h
  obtain ⟨g', -, h⟩ := except_bind_ok.mp h
  cases h
  refine ⟨resultsDir, s, hdir, hs, ?_⟩
  cases s.reportPresent <;> cases a.crashed <;> cases a.timedOut <;> simp

/-- What a returned summary says of the report. -/
theorem parseXunit_verdict {path : Path} {dir : ResultsDir} {s : Summary}
    (h : parseXunit u read path dir = .ok s) :
    (s.reportPresent = true ∧ s.failed = 0) ↔
      match dir.report with
      | .absent | .unreadable _ => False
      | .malformed _ => True
      | .document root => ∀ test, ¬ FailedTest (passes root.iter) test := by
  rw [parseXunit] at h
  cases hr : dir.report with
  | absent =>
      simp only [hr] at h
      cases h
      simp
  | unreadable e =>
      simp only [hr] at h
      cases h
  | malformed m =>
      simp only [hr] at h
      cases h
      simp
  | document root =>
      simp only [hr] at h
      have hfail := summarize_failed_iff (tallyOf_tally read root.iter) h
      have hpresent := (summarize_counts (tallyOf_tally read root.iter) h).2.2.2.2
      have hnone : s.failed = 0 ↔ ∀ test, ¬ FailedTest (passes root.iter) test := by
        rw [← not_exists, ← hfail, not_not]
      rw [hpresent, hnone]
      exact and_iff_right rfl

theorem noFalsePass_call_iff (call : Share × CollectArgs) :
    NoFalsePass u read host call ↔ Trusted read host call := by
  obtain ⟨share, a⟩ := call
  constructor
  · intro h hcollects hcrashed htimedOut resultsDir hdir
    obtain ⟨r, hr⟩ := (main_returns_iff u read host share a).mpr hcollects
    obtain ⟨dir, s, hdir', hs, hstatus⟩ := main_passed_iff hr
    cases Except.ok.inj (hdir.symm.trans hdir')
    have hverdict := parseXunit_verdict hs
    cases hreport : (share.results resultsDir).report with
    | absent => exact trivial
    | unreadable e => exact trivial
    | malformed m =>
        rw [hreport] at hverdict
        have hpass := hstatus.mpr
          ⟨(hverdict.mpr trivial).1, (hverdict.mpr trivial).2, hcrashed, htimedOut⟩
        obtain ⟨dir, root, hdir', hroot, -⟩ := h r hr hpass
        cases Except.ok.inj (hdir.symm.trans hdir')
        rw [hreport] at hroot
        cases hroot
    | document root =>
        rw [hreport] at hverdict
        by_cases hfail : ∃ test, FailedTest (passes root.iter) test
        · obtain ⟨test, ht⟩ := hfail
          exact ⟨test, .inl ht⟩
        · have hnone := not_exists.mp hfail
          have hpass := hstatus.mpr
            ⟨(hverdict.mpr hnone).1, (hverdict.mpr hnone).2, hcrashed, htimedOut⟩
          obtain ⟨dir, root', hdir', hroot, ⟨test, ht⟩, -⟩ := h r hr hpass
          cases Except.ok.inj (hdir.symm.trans hdir')
          rw [hreport] at hroot
          cases hroot
          exact ⟨test, .inr ht⟩
  · intro h r hr hpass
    have hcollects := (main_returns_iff u read host share a).mp ⟨r, hr⟩
    obtain ⟨resultsDir, s, hdir, hs, hstatus⟩ := main_passed_iff hr
    obtain ⟨hpresent, hfailed, hcrashed, htimedOut⟩ := hstatus.mp hpass
    have hconclusive := h hcollects hcrashed htimedOut resultsDir hdir
    have hverdict := (parseXunit_verdict hs).mp ⟨hpresent, hfailed⟩
    cases hreport : (share.results resultsDir).report with
    | absent => rw [hreport] at hverdict; exact hverdict.elim
    | unreadable e => rw [hreport] at hverdict; exact hverdict.elim
    | malformed m => rw [hreport] at hconclusive; exact hconclusive.elim
    | document root =>
        rw [hreport] at hverdict hconclusive
        obtain ⟨test, ht⟩ := hconclusive
        exact ⟨resultsDir, root, hdir, hreport, ⟨test, ht.resolve_left (hverdict test)⟩,
          hverdict, hcrashed, htimedOut⟩

/-- A run passes only on sections that passed. -/
theorem runStatus_passed {calls : List (Share × CollectArgs)}
    (h : runStatus (calls.map (entryOf u read host)) = .passed) :
    calls ≠ [] ∧ ∀ call ∈ calls, ∃ r, main u read host call.1 call.2 = .ok r ∧
      r.status = .passed := by
  rw [runStatus] at h
  by_cases hall : calls.map (entryOf u read host) ≠ [] ∧
      (calls.map (entryOf u read host)).all SectionEntry.isPassed
  · refine ⟨fun h0 => hall.1 (h0 ▸ rfl), fun call hcall => ?_⟩
    have hpassed := List.all_eq_true.mp hall.2 _ (List.mem_map_of_mem hcall)
    rw [entryOf] at hpassed
    cases hm : main u read host call.1 call.2 with
    | error e =>
        rw [hm] at hpassed
        cases hpassed
    | ok r =>
        rw [hm] at hpassed
        exact ⟨r, rfl, of_decide_eq_true hpassed⟩
  · rw [if_neg hall] at h
    cases h

end

/-! ## A report cut short -/

/-- The share of a section whose report is `report`, with no config rendered. -/
def shareWith (report : Report) : Share :=
  ⟨fun _ => ⟨report, []⟩, fun _ => .absent, fun _ => .absent⟩

/-- A section of the VM `vm` on the kernel `6.12`, its run ended in time. -/
def plainSection : CollectArgs := ⟨"vm", "xfs_4k", "6.12", false, false, none, none⟩

/-- A testcase that passed, and one that was skipped. -/
def passedCase : Element := .mk "testcase" [("name", "generic/001"), ("time", "")] []
def skippedCase : Element :=
  .mk "testcase" [("name", "generic/003")] [.mk "skipped" [("message", "not supported")] []]

/-- The verdict of a section with this report. -/
def verdictWith (report : Report) : Option Status :=
  match main ⟨fun _ => none, fun _ => false⟩ (fun _ => none) ⟨["s"], ["w"]⟩ (shareWith report)
    plainSection with
  | .ok r => some r.status
  | .error _ => none

example : verdictWith .absent = some .failed := by decide +kernel
example : verdictWith (.document (.mk "testsuite" [] [passedCase, skippedCase])) =
    some .passed := by decide +kernel

end KdevopsNg.Fstests
