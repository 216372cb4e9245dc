/-
# `RuntimeTests.Collect` — the verdict of a module load

`main` of `f/runtime_tests/collect.py`, with the catalog of
`f/runtime_tests/common.py`.  A module is judged by

    the outcome     the guest is up, the start job is done
    the load state  what its catalog entry says of a passing run
    the log         no splat of the kernel, no failure line
    the evidence    the last summary counts, or a sentinel

A reason against it fails it.  Without evidence a test fails, and a stress run or a
benchmark is not run.
-/
import KdevopsNg.Usertests.Collect

namespace KdevopsNg.RuntimeTests

open Py Suites
open Usertests (Line isDigit count passedOf stripped)

/-! ## The catalog -/

inductive Kind
  | test
  | stress
  | benchmark
  deriving DecidableEq, Repr

/-- An entry of `CATALOG`, with the defaults filled in. -/
structure Module where
  label : String
  loadedOnPass : Bool
  kind : Kind
  summary : Option Regex
  sentinel : Option Regex
  scanKmsg : Bool
  failRe : Option Regex

section
variable (u : Unicode)

/-- The summary of test_rhashtable. -/
def rhashtableSummary : Regex :=
  ⟨"Started (?P<total>[1-9]\\d*) threads, 0 failed, rhltable test returns 0",
    .seqs [.lit "Started ".toList,
      .group "total" (.seq (.char fun c => '1' ≤ c ∧ c ≤ '9') (.star true (isDigit u))),
      .lit " threads, 0 failed, rhltable test returns 0".toList]⟩

/-- The summary of test_hexdump. -/
def hexdumpSummary : Regex :=
  ⟨"test_hexdump: all (?P<passed>\\d+) tests passed",
    .seqs [.lit "test_hexdump: all ".toList, count u "passed", .lit " tests passed".toList]⟩

/-- The summary of test_bpf. -/
def bpfSummary : Regex :=
  ⟨"test_bpf: Summary: (?P<passed>\\d+) PASSED, 0 FAILED",
    .seqs [.lit "test_bpf: Summary: ".toList, count u "passed", .lit " PASSED, 0 FAILED".toList]⟩

/-- `\S`. -/
def isSolid (c : Char) : Bool := !Text.isSpace c

/-- A worker of test_vmalloc up to its failures. -/
def vmallocFront : List Re :=
  [.lit "Summary: ".toList, .plus isSolid, .lit " passed: ".toList, .plus (isDigit u),
    .lit " failed: ".toList]

/-- A sentinel that is a text. -/
def textPattern (s : String) : Regex := ⟨s, .lit s.toList⟩

/-- `CATALOG`. -/
def catalog : Dict Module :=
  [("test_xarray",
      ⟨"XArray (test_xarray)", true, .test, some (passedOf u "XArray"), none, true, none⟩),
    ("test_maple_tree",
      ⟨"Maple tree (test_maple_tree)", true, .test, some (passedOf u "maple_tree"), none, true,
        none⟩),
    ("test_rhashtable",
      ⟨"Resizable hashtable (test_rhashtable)", true, .test, some (rhashtableSummary u), none,
        true, none⟩),
    ("test_hexdump",
      ⟨"Hexdump (test_hexdump)", true, .test, some (hexdumpSummary u), none, true, none⟩),
    ("test_bpf",
      ⟨"BPF interpreter and JIT (test_bpf)", true, .test, some (bpfSummary u), none, true, none⟩),
    ("test_ida",
      ⟨"IDA allocator (test_ida)", false, .test, some (passedOf u "IDA"), none, false, none⟩),
    ("rbtree_test",
      ⟨"Red-black tree (rbtree_test)", false, .test, none, some (textPattern "rbtree testing"),
        true, none⟩),
    ("interval_tree_test",
      ⟨"Interval tree (interval_tree_test)", false, .test, none,
        some (textPattern "interval tree insert/remove"), true, none⟩),
    ("percpu_test",
      ⟨"Per-CPU operations (percpu_test)", false, .test, none,
        some (textPattern "percpu test done"), true, none⟩),
    ("atomic64_test",
      ⟨"atomic64_t self-test (atomic64_test)", true, .test, none,
        some (textPattern "atomic64_test: passed"), true, none⟩),
    ("test_vmalloc",
      ⟨"vmalloc stress (test_vmalloc)", false, .stress, none,
        some ⟨"Summary: \\S+ passed: \\d+ failed: \\d+",
          .seqs (vmallocFront u ++ [.plus (isDigit u)])⟩, true,
        some ⟨"Summary: \\S+ passed: \\d+ failed: [1-9]",
          .seqs (vmallocFront u ++ [.char fun c => '1' ≤ c ∧ c ≤ '9'])⟩⟩),
    ("test_workqueue",
      ⟨"Workqueue stress (test_workqueue)", false, .stress, none,
        some ⟨"test_workqueue:\\s+\\S+\\s+\\d+ items/sec",
          .seqs [.lit "test_workqueue:".toList, .plus Text.isSpace, .plus isSolid,
            .plus Text.isSpace, .plus (isDigit u), .lit " items/sec".toList]⟩, true, none⟩),
    ("find_bit_benchmark",
      ⟨"find_bit() benchmark (find_bit_benchmark)", false, .benchmark, none,
        some ⟨"find_next_bit:\\s+\\d+ ns,\\s+\\d+ iterations",
          .seqs [.lit "find_next_bit:".toList, .plus Text.isSpace, .plus (isDigit u),
            .lit " ns,".toList, .plus Text.isSpace, .plus (isDigit u),
            .lit " iterations".toList]⟩, true, none⟩)]

/-- `catalog_entry`. -/
def catalogEntry (name : String) : Module :=
  (Dict.get? (catalog u) name).getD ⟨name, true, .test, none, none, true, none⟩

end

/-! ## The reasons -/

/-- What `main` is told of a run. -/
structure ModuleRun where
  vmName : String
  module : String
  kernelVersion : String
  kmsg : String
  result : String
  loaded : Bool
  execStatus : String
  crashed : Bool
  timedOut : Bool
  runtime : Option ℚ
  startedMs : Option ℤ
  endedMs : Option ℤ

/-- `_SPLAT_MARKERS`. -/
def splatMarkers : List Line := ["WARNING:".toList, "BUG:".toList, "Call Trace:".toList]

/-- What the outcome of the unit says. -/
def outcomeReasons (r : ModuleRun) : List String :=
  (if r.crashed then ["guest went down during the run"] else []) ++
  (if r.timedOut then ["run timed out (unit stopped by wait)"] else []) ++
  if r.result = "skipped" then
    ["start job skipped: module already loaded (ConditionKernelModuleLoaded), nothing ran"]
  else if r.result ≠ "done" then ["start job ended " ++ Text.repr r.result ++ ", not done"]
  else []

/-- What the load state says. -/
def loadReasons (e : Module) (r : ModuleRun) : List String :=
  (if e.loadedOnPass ∧ ¬ r.loaded then
    ["module not loaded after the run: its init failed (the errno itself is unobservable " ++
      "through modprobe@'s ignored ExecStart)"] else []) ++
  if ¬ e.loadedOnPass ∧ r.loaded then
    ["module still loaded: init returned 0 where it must not (for test_ida that IS the test " ++
      "failure; for the auto-unload class it means the tests did not run)"] else []

/-- What the log says. -/
def logReasons (e : Module) (lines : List Line) : List String :=
  (match lines.filter fun ln => splatMarkers.any fun m => Text.isInfix m ln with
    | splat :: _ => if e.scanKmsg then ["kernel splat in kmsg: " ++ stripped splat] else []
    | [] => []) ++
  match e.failRe with
  | none => []
  | some p =>
      match lines.filter fun ln => p.isIn false ln with
      | hit :: _ => ["failure line in kmsg: " ++ stripped hit]
      | [] => []

section
variable (u : Unicode)

/-! ## The evidence -/

/-- `_summary_counts`: how many passed, and of how many. -/
def summaryCounts (p : Regex) (kmsg : Line) : Option (ℤ × ℤ) :=
  (p.finditer false kmsg).getLast?.map fun m =>
    let passed : ℤ := match m.group "passed", m.group "total" with
      | some s, _ => Text.digitsToNat u s
      | none, some t => if t = [] then 0 else Text.digitsToNat u t
      | none, none => 0
    (passed, match m.group "total" with
      | some t => Text.digitsToNat u t
      | none => passed)

/-- The counts an entry reads, whether its evidence is missing, and the reasons. -/
structure Evidence where
  tests : ℤ
  passed : ℤ
  missing : Bool
  reasons : List String

/-- The evidence an entry asks for. -/
def evidence (e : Module) (kmsg : Line) : Evidence :=
  match e.summary, e.sentinel with
  | some p, _ =>
      match summaryCounts u p kmsg with
      | none => ⟨0, 0, true, []⟩
      | some (passed, tests) =>
          ⟨tests, passed, false,
            if tests ≤ 0 then ["summary line counts zero tests"]
            else if passed ≠ tests then
              ["summary counts " ++ toString passed ++ " of " ++ toString tests ++ " tests passed"]
            else []⟩
  | none, some sentinel => ⟨0, 0, !sentinel.isIn false kmsg, []⟩
  | none, none => ⟨0, 0, false, []⟩

/-! ## The verdict -/

/-- What `main` returns.  The row of the module has its label, the status and the reasons. -/
structure ModuleVerdict where
  run : ModuleRun
  status : Status
  tests : ℤ
  passed : ℤ
  failed : ℤ
  skipped : ℤ
  label : String
  reasons : List String
  kmsgTail : List Line

/-- All that speaks against a module. -/
def reasons (e : Module) (r : ModuleRun) : List String :=
  let ev := evidence u e r.kmsg.toList
  outcomeReasons r ++ loadReasons e r ++ logReasons e (Text.splitlines r.kmsg.toList) ++ ev.reasons ++
    if ev.missing ∧ e.kind = .test then
      ["no run evidence in kmsg (summary counts or sentinel line); the suite cannot be proven to " ++
        "have run"]
    else []

/-- `main`, for an entry of the catalog. -/
def judge (e : Module) (r : ModuleRun) : ModuleVerdict :=
  let ev := evidence u e r.kmsg.toList
  let lines := Text.splitlines r.kmsg.toList
  { run := r
    status := if reasons u e r ≠ [] then .failed else if ev.missing then .notrun else .passed
    tests := ev.tests, passed := ev.passed, failed := ev.tests - ev.passed, skipped := 0
    label := e.label, reasons := reasons u e r
    kmsgTail := lines.drop (lines.length - 40) }

/-- `main`. -/
def collect (r : ModuleRun) : ModuleVerdict := judge u (catalogEntry u r.module) r

end

end KdevopsNg.RuntimeTests
