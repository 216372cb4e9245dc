/-
# `Suites.FailuresFirst` — the per-test table of a report

The third table `main` of each report step returns: one row for each test of
every reported item, `failures first`.  The steps get there in different ways:

    kunit, selftests, runtime_tests   a row is made with its icon in the status
                                      cell, then ranked by that cell
    usertests                         a row is ranked by the raw status, then
                                      given its icon; a rank it does not know is
                                      that of a failure
    fstests                           no sort: each section is taken as collect
                                      sorted it

`_RANK` knows the statuses, not the icons, so the first three rank every row alike
(`rank_shown`) and sort by name only.  `failuresFirst_iff` is when the failures
do come first, for each of the five.
-/
import Mathlib.Data.String.Basic
import KdevopsNg.Fstests.Collect
import KdevopsNg.Py.Sort
import KdevopsNg.Suites.Report

namespace KdevopsNg.Suites

open Py
open Fstests (SectionEntry TestRow TestStatus)

/-! ## The rows -/

/-- A test a report has a row for: the collection, suite, module, harness or
section it belongs to, its name there, its raw status, and its message. -/
structure Tested where
  group : String
  test : Option String
  outcome : String
  message : String
  deriving DecidableEq, Repr

/-- The columns that only the fstests table has. -/
structure Passes where
  runs : ℕ
  fails : Json
  time : ℤ
  deriving DecidableEq

/-- A row of the table: the test it is of, and its status cell. -/
structure TableRow where
  of : Tested
  status : String
  passes : Option Passes
  deriving DecidableEq

/-- `t.get(k)` of a field that holds a text. -/
def text? (t : Dict Json) (k : String) : Option String :=
  match Dict.get? t k with
  | some (.str v) => some v
  | _ => none

/-- The key of the group a test is filed under; the kunit report files it under
the suite of its item. -/
def groupKey : Suite → String
  | .kunit => "suite"
  | .selftests => "collection"
  | .usertests => "harness"
  | .runtimeTests => "module"

/-- A row of a collect result's `per_test`. -/
def tested (s : Suite) (item : String) (t : Dict Json) : Tested :=
  { group := if s = .kunit then item else (text? t (groupKey s)).getD ""
    test := match s with
      | .kunit => text? t "name"
      | .usertests => some ((text? t "check").getD "")
      | _ => text? t "test"
    outcome := (text? t "status").getD ""
    message := (text? t "message").getD "" }

/-- `_ICON`, of the reports that can show a test that did not run. -/
def icons : Dict String := [("passed", "✅"), ("failed", "❌"), ("notrun", "⊘")]

/-- `_ICON` of `f/usertests/report.py`. -/
def checkIcons : Dict String := [("passed", "✅"), ("failed", "❌")]

/-- `_per_test_rows` of one test: its icon in the status cell. -/
def testRow (t : Tested) : TableRow := ⟨t, (Dict.get? icons t.outcome).getD t.outcome, none⟩

/-- `_per_check_rows` of one check: its status as it is. -/
def checkRow (t : Tested) : TableRow := ⟨t, t.outcome, none⟩

/-- The status cell of a check, after the sort. -/
def iconized (r : TableRow) : TableRow :=
  { r with status := (Dict.get? checkIcons r.status).getD (if r.status = "" then "❌" else r.status) }

/-! ## The order -/

/-- `_RANK`. -/
def ranks : Dict ℕ := [("failed", 0), ("notrun", 1), ("passed", 2)]

/-- `_RANK` of `f/usertests/report.py`. -/
def checkRanks : Dict ℕ := [("failed", 0), ("passed", 1)]

/-- The group and the name of a test, as the sorts compare them. -/
def Tested.name (t : Tested) : Lex (String × String) := toLex (t.group, t.test.getD "")

/-- The tests of the reported items, in the order of the report. -/
def tests (s : Suite) (perItem : List Entry) : List Tested :=
  (reportItems s perItem).flatMap fun i => match i.run? with
    | none => []
    | some r => r.detail.perTest.map (tested s r.item)

/-- The table of `f/kunit/report.py`, `f/selftests/report.py` and
`f/runtime_tests/report.py`. -/
def testTable (s : Suite) (perItem : List Entry) : List TableRow :=
  sortBy (fun r => toLex ((Dict.get? ranks r.status).getD 3, r.of.name)) ((tests s perItem).map testRow)

/-- The table of `f/usertests/report.py`. -/
def checkTable (perItem : List Entry) : List TableRow :=
  (sortBy (fun r => toLex ((Dict.get? checkRanks r.status).getD 0, r.of.name))
    ((tests .usertests perItem).map checkRow)).map iconized

/-! ## The table of `f/fstests/report.py` -/

/-- How the fstests collect spells a status. -/
def statusName : TestStatus → String
  | .failed => "failed"
  | .notrun => "notrun"
  | .passed => "passed"

/-- A test of a section. -/
def sectionTest (sectionName : String) (t : TestRow) : Tested :=
  ⟨sectionName, some t.test, statusName t.status, t.message⟩

/-- `_TEST_TABLE_CAP`. -/
def testTableCap : ℕ := 1000

/-- The tests of a section that the table has a row for. -/
def sectionTests : SectionEntry → List (String × TestRow)
  | .collected r => (r.summary.perTest.take testTableCap).map fun t => (r.sectionName, t)
  | .stepError _ => []

/-- `_per_test_rows` of one test of a section. -/
def sectionRow (t : String × TestRow) : TableRow :=
  let runs := if t.2.runs = 0 then 1 else t.2.runs
  { testRow (sectionTest t.1 t.2) with
    passes := some {
      runs := runs
      fails := if 1 < runs then .str (toString t.2.fails ++ "/" ++ toString runs)
        else .num t.2.fails
      time := t.2.time } }

/-- The table. -/
def sectionTable (perSection : List SectionEntry) : List TableRow :=
  (perSection.flatMap sectionTests).map sectionRow

/-! ## Failures first -/

/-- The report steps that return a per-test table, each with what it is given. -/
inductive TestReport where
  | kunit (perSuite : List Entry)
  | selftests (perItem : List Entry)
  | runtimeTests (perItem : List Entry)
  | usertests (perItem : List Entry)
  | fstests (perSection : List SectionEntry)

/-- The per-test table of a report. -/
def TestReport.table : TestReport → List TableRow
  | .kunit perSuite => testTable .kunit perSuite
  | .selftests perItem => testTable .selftests perItem
  | .runtimeTests perItem => testTable .runtimeTests perItem
  | .usertests perItem => checkTable perItem
  | .fstests perSection => sectionTable perSection

/-- Whose rows go first: failed, then notrun, then passed. -/
def Worse (a b : Tested) : Prop :=
  (a.outcome = "failed" ∧ (b.outcome = "notrun" ∨ b.outcome = "passed")) ∨
    (a.outcome = "notrun" ∧ b.outcome = "passed")

/-- No row stands below one of a better test. -/
def FailuresFirst (rows : List TableRow) : Prop :=
  rows.Pairwise fun a b => ¬ Worse b.of a.of

/-- The names sort the tests the way `worse` does: of two tests, the worse one has
the lower name, or the same and is listed first. -/
def NamesSort (worse : Tested → Tested → Prop) (ts : List Tested) : Prop :=
  ts.Pairwise fun a b => (worse b a → b.name < a.name) ∧ (worse a b → a.name ≤ b.name)

/-- What the list a report is given has to be like. -/
def TestReport.Sorted : TestReport → Prop
  | .kunit perSuite => NamesSort Worse (tests .kunit perSuite)
  | .selftests perItem => NamesSort Worse (tests .selftests perItem)
  | .runtimeTests perItem => NamesSort Worse (tests .runtimeTests perItem)
  | .usertests perItem =>
      NamesSort (fun a b => a.outcome = "failed" ∧ b.outcome = "notrun") (tests .usertests perItem)
  | .fstests perSection =>
      (∀ e ∈ perSection, (sectionTests e).Pairwise fun t u =>
        t.2.status.rank ≤ u.2.status.rank) ∧
      perSection.Pairwise fun e e' => ∀ t ∈ sectionTests e, ∀ u ∈ sectionTests e',
        t.2.status.rank ≤ u.2.status.rank

/-! ## What the sorts rank -/

/-- No icon is a status, so a cell that has one ranks last. -/
theorem rank_shown (t : Tested) : (Dict.get? ranks (testRow t).status).getD 3 = 3 := by
  rw [testRow]
  by_cases hpassed : t.outcome = "passed"
  · rw [hpassed]
    rfl
  by_cases hfailed : t.outcome = "failed"
  · rw [hfailed]
    rfl
  by_cases hnotrun : t.outcome = "notrun"
  · rw [hnotrun]
    rfl
  · have hplain : Dict.get? icons t.outcome = none := by
      simp [icons, Ne.symm hpassed, Ne.symm hfailed, Ne.symm hnotrun]
    rw [hplain, Option.getD_none]
    simp [ranks, Ne.symm hpassed, Ne.symm hfailed, Ne.symm hnotrun]

/-- The rank the table of the checks gives a test that is worse than another: below
the other's, but for a check that did not run, which ranks as a failure. -/
theorem checkRank_of_worse {a b : Tested} (h : Worse b a) :
    (Dict.get? checkRanks b.outcome).getD 0 < (Dict.get? checkRanks a.outcome).getD 0 ∨
      (Dict.get? checkRanks b.outcome).getD 0 = (Dict.get? checkRanks a.outcome).getD 0 ∧
        b.outcome = "failed" ∧ a.outcome = "notrun" := by
  rcases h with ⟨hb, ha | ha⟩ | ⟨hb, ha⟩
  · exact .inr ⟨by rw [hb, ha]; rfl, hb, ha⟩
  · exact .inl (by rw [hb, ha]; decide)
  · exact .inl (by rw [hb, ha]; decide)

/-- A relation the names have to agree with, put as what the sort must not do. -/
theorem namesSort_iff (worse : Tested → Tested → Prop) (ts : List Tested) :
    NamesSort worse ts ↔
      ts.Pairwise fun a b => (a.name ≤ b.name → ¬ worse b a) ∧ (b.name < a.name → ¬ worse a b) := by
  rw [NamesSort]
  refine Iff.of_eq (congrArg (fun R => List.Pairwise R ts) ?_)
  funext a b
  rw [imp_not_comm, not_le, imp_not_comm, not_lt]

theorem testTable_failuresFirst (s : Suite) (perItem : List Entry) :
    FailuresFirst (testTable s perItem) ↔ NamesSort Worse (tests s perItem) := by
  rw [FailuresFirst, testTable, pairwise_sortBy, List.pairwise_map, namesSort_iff]
  refine Iff.of_eq (congrArg (fun R => List.Pairwise R (tests s perItem)) ?_)
  funext a b
  simp only [rank_shown, Prod.Lex.toLex_le_toLex, Prod.Lex.toLex_lt_toLex, lt_irrefl, false_or,
    true_and]
  rfl

theorem checkTable_failuresFirst (perItem : List Entry) :
    FailuresFirst (checkTable perItem) ↔
      NamesSort (fun a b => a.outcome = "failed" ∧ b.outcome = "notrun")
        (tests .usertests perItem) := by
  have hiconized : FailuresFirst (checkTable perItem) ↔
      FailuresFirst (sortBy (fun r => toLex ((Dict.get? checkRanks r.status).getD 0, r.of.name))
        ((tests .usertests perItem).map checkRow)) := List.pairwise_map
  rw [hiconized, FailuresFirst, pairwise_sortBy, List.pairwise_map, namesSort_iff]
  refine Iff.of_eq (congrArg (fun R => List.Pairwise R (tests .usertests perItem)) ?_)
  funext a b
  simp only [checkRow, Prod.Lex.toLex_le_toLex, Prod.Lex.toLex_lt_toLex]
  refine propext (and_congr ?_ ?_)
  · constructor
    · rintro h hname ⟨hb, ha⟩
      exact h (.inr ⟨by rw [ha, hb]; rfl, hname⟩) (.inl ⟨hb, .inl ha⟩)
    · intro h hkey hworse
      rcases checkRank_of_worse hworse with hlt | ⟨heq, hpair⟩
      · exact hkey.elim (fun hgt => absurd hlt hgt.not_gt) fun hle => absurd hlt hle.1.not_gt
      · exact h (hkey.elim (fun hgt => absurd heq hgt.ne') fun hle => hle.2) hpair
  · constructor
    · rintro h hname ⟨ha, hb⟩
      exact h (.inr ⟨by rw [ha, hb]; rfl, hname⟩) (.inl ⟨ha, .inl hb⟩)
    · intro h hkey hworse
      rcases checkRank_of_worse hworse with hlt | ⟨heq, hpair⟩
      · exact hkey.elim (fun hgt => absurd hlt hgt.not_gt) fun hle => absurd hlt hle.1.not_gt
      · exact h (hkey.elim (fun hgt => absurd heq hgt.ne') fun hle => hle.2) hpair

/-! ## The sections -/

/-- A worse status ranks lower. -/
theorem not_worse_iff (t u : String × TestRow) :
    ¬ Worse (sectionRow u).of (sectionRow t).of ↔ t.2.status.rank ≤ u.2.status.rank := by
  have hof : ∀ v : String × TestRow, (sectionRow v).of = sectionTest v.1 v.2 := fun _ => rfl
  rw [hof, hof, Worse, sectionTest, sectionTest]
  cases t.2.status <;> cases u.2.status <;> simp [statusName, TestStatus.rank]

theorem sectionTable_failuresFirst (perSection : List SectionEntry) :
    FailuresFirst (sectionTable perSection) ↔
      (∀ e ∈ perSection, (sectionTests e).Pairwise fun t u =>
        t.2.status.rank ≤ u.2.status.rank) ∧
      perSection.Pairwise fun e e' => ∀ t ∈ sectionTests e, ∀ u ∈ sectionTests e',
        t.2.status.rank ≤ u.2.status.rank := by
  simp only [FailuresFirst, sectionTable, List.pairwise_map, not_worse_iff, List.pairwise_flatMap]

/-- The failures come first in the table of a report when its names put them there;
of the fstests, when no section lists a test before a worse one, nor any section
after a section with a better one. -/
theorem failuresFirst_iff (r : TestReport) : FailuresFirst r.table ↔ r.Sorted := by
  cases r with
  | kunit perSuite => exact testTable_failuresFirst .kunit perSuite
  | selftests perItem => exact testTable_failuresFirst .selftests perItem
  | runtimeTests perItem => exact testTable_failuresFirst .runtimeTests perItem
  | usertests perItem => exact checkTable_failuresFirst perItem
  | fstests perSection => exact sectionTable_failuresFirst perSection

/-- A kunit suite whose first test passes and whose second fails: the table of the
report has the pass on top. -/
theorem pass_on_top : ¬ ∀ r : TestReport, FailuresFirst r.table := by
  intro h
  let perTest : List (Dict Json) :=
    [[("name", .str "fast_path"), ("status", .str "passed"), ("message", .str "")],
      [("name", .str "slow_path"), ("status", .str "failed"), ("message", .str "timed out")]]
  let run : Collected := {
    item := "list_sort", vmName := "vm", kernelVersion := "6.12.0", status := .failed
    result := "success", execStatus := "0", crashed := false, timedOut := false
    runtime := some 1, startedMs := none, endedMs := none, reportPresent := true
    loaded := true, seed := none, tests := 2, passed := 1, failed := 1, skipped := 0
    userCrashes := none
    detail := { perTest := perTest, failures := [], reasons := [], crashLines := [], log := .null } }
  have hnames := (testTable_failuresFirst .kunit [.collected run]).mp (h (.kunit [.collected run]))
  have hpair := (List.pairwise_cons.mp hnames).1 _ List.mem_cons_self
  have hlt := hpair.1 (.inl ⟨rfl, .inr rfl⟩)
  rw [Tested.name, Tested.name, Prod.Lex.toLex_lt_toLex] at hlt
  rcases hlt with hgroup | ⟨-, hname⟩
  · exact lt_irrefl _ hgroup
  · exact absurd hname (by decide)

end KdevopsNg.Suites
