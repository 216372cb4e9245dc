/-
# `Usertests.Collect` — the verdict of a userspace harness

`main` of `f/usertests/collect.py`, with the catalog of `f/usertests/common.py`.  A
harness passes when nothing is found against it (`findings`):

    plumbing     a crash, a timeout, a start job that is not done, an exit code
    sanitizer    a line a sanitizer wrote
    assertion    a line of a failed assertion
    vma test     a line of a failed vma test
    evidence     what its catalog entry asks for: a summary, a sentinel, counted lines

The lines of sanitizers and assertions are looked for in what is left of the output
without its expected noise (`scanned`).
-/
import KdevopsNg.Py.Number
import KdevopsNg.Py.Regex
import KdevopsNg.Suites.Report

namespace KdevopsNg.Usertests

open Py Suites

/-! ## The catalog -/

/-- An entry of `CATALOG`, with the defaults filled in. -/
structure Harness where
  label : String
  summary : Option Regex
  sentinel : Option Regex
  countLines : Bool
  failLine : Option Regex
  expectedAssert : Option Regex

section
variable (u : Unicode)

/-- `\d`. -/
def isDigit (c : Char) : Bool := (u.digit? c).isSome

/-- `(?P<name>\d+)`. -/
def count (name : String) : Re := .group name (.plus (isDigit u))

/-- The summary of vma. -/
def vmaSummary : Regex :=
  ⟨"(?P<run>\\d+) tests run, (?P<passed>\\d+) passed, (?P<failed>\\d+) failed\\.",
    .seqs [count u "run", .lit " tests run, ".toList, count u "passed", .lit " passed, ".toList,
      count u "failed", .lit " failed.".toList]⟩

/-- The summary that says how many of the tests of a suite passed. -/
def passedOf (suite : String) : Regex :=
  ⟨suite ++ ": (?P<passed>\\d+) of (?P<total>\\d+) tests passed",
    .seqs [.lit (suite ++ ": ").toList, count u "passed", .lit " of ".toList, count u "total",
      .lit " tests passed".toList]⟩

/-- The assertions `lib/idr.c` means to fail. -/
def idrNoise : Regex :=
  ⟨"assertion failed at .*idr\\.c:\\d+",
    .seqs [.lit "assertion failed at ".toList, .star true (· ≠ '\n'), .lit "idr.c:".toList,
      .plus (isDigit u)]⟩

/-- `CATALOG`. -/
def catalog : Dict Harness :=
  [("vma/vma", ⟨"VMA userland tests (vma/vma)", some (vmaSummary u), none, false, none, none⟩),
    ("radix-tree/xarray",
      ⟨"XArray (radix-tree/xarray)", some (passedOf u "XArray"), none, false, none, none⟩),
    ("radix-tree/maple",
      ⟨"Maple tree (radix-tree/maple)", some (passedOf u "maple_tree"), none, false, none, none⟩),
    ("radix-tree/idr-test",
      ⟨"IDR + IDA (radix-tree/idr-test)", some (passedOf u "IDA"), none, false, none,
        some (idrNoise u)⟩),
    ("radix-tree/multiorder",
      ⟨"Multi-order radix tree (radix-tree/multiorder)", none, none, false, none, none⟩),
    ("radix-tree/main",
      ⟨"Radix tree omnibus (radix-tree/main)", none,
        some ⟨"^tests completed$", .seqs [.start, .lit "tests completed".toList, .stop]⟩, false,
        none, some (idrNoise u)⟩),
    ("memblock/main",
      ⟨"Memblock simulator (memblock/main)", none,
        some ⟨": passed$", .seqs [.lit ": passed".toList, .stop]⟩, true,
        some ⟨": failed$", .seqs [.lit ": failed".toList, .stop]⟩, none⟩),
    ("scatterlist/main",
      ⟨"Scatterlist chaining (scatterlist/main)", none, none, false, none, none⟩)]

/-- `catalog_entry`. -/
def catalogEntry (item : String) : Harness :=
  (Dict.get? (catalog u) item).getD ⟨item, none, none, false, none, none⟩

end

/-! ## The scans -/

/-- What `main` is told of a run. -/
structure HarnessRun where
  vmName : String
  item : String
  kernelVersion : String
  output : String
  result : String
  execStatus : String
  crashed : Bool
  timedOut : Bool
  runtime : Option ℚ
  startedMs : Option ℤ
  endedMs : Option ℤ

/-- Something found against the harness. -/
structure Finding where
  check : String
  message : String
  deriving DecidableEq

/-- A line of the output. -/
abbrev Line := List Char

/-- `_SANITIZER_MARKERS`. -/
def sanitizerMarkers : List Line :=
  ["ERROR: AddressSanitizer".toList, "ERROR: LeakSanitizer".toList, "runtime error:".toList]

/-- `_ASSERT_MARKER`. -/
def assertMarker : Line := "assertion failed at".toList

/-- `_NOISE_OPEN in ln`. -/
def opensNoise (ln : Line) : Bool := Text.isInfix "vvv Ignore \"not allocated\" warnings".toList ln

/-- `_NOISE_CLOSE in ln`. -/
def closesNoise (ln : Line) : Bool :=
  Text.isInfix "^^^ \"not allocated\" warnings over".toList ln

/-- The lines left of an output, from a place inside or outside a block on. -/
def stripFrom : Bool → List Line → List Line
  | _, [] => []
  | inBlock, ln :: lines =>
      if opensNoise ln then stripFrom true lines
      else if closesNoise ln then stripFrom false lines
      else if inBlock then stripFrom true lines
      else ln :: stripFrom false lines

/-- `_strip_expected_noise`. -/
def stripExpectedNoise (lines : List Line) : List Line := stripFrom false lines

/-- A line the entry expects. -/
def expects (entry : Harness) (ln : Line) : Bool :=
  (entry.expectedAssert.map fun p => p.isIn false ln).getD false

/-- The lines that are scanned. -/
def scanned (entry : Harness) (lines : List Line) : List Line :=
  (stripExpectedNoise lines).filter fun ln => !expects entry ln

/-- `ln.strip()`. -/
def stripped (ln : Line) : String := String.ofList (Text.strip ln)

/-- A line of each sanitizer that wrote one. -/
def sanitizerFindings (lines : List Line) : List Finding :=
  sanitizerMarkers.filterMap fun marker =>
    (lines.filter (Text.isInfix marker)).head?.map fun ln => ⟨"sanitizer", stripped ln⟩

/-- The failed assertions, as one finding. -/
def assertionFindings (lines : List Line) : List Finding :=
  match lines.filter (Text.isInfix assertMarker) with
  | [] => []
  | ln :: rest =>
      [⟨"assertion", toString (rest.length + 1) ++ " assertion line(s), first: " ++ stripped ln⟩]

/-! ## The outcome of the unit, and the tests of vma -/

/-- What the outcome says. -/
def plumbing (r : HarnessRun) : List Finding :=
  (if r.crashed then [⟨"plumbing", "guest went down during the run"⟩] else []) ++
  (if r.timedOut then [⟨"plumbing", "run timed out (unit stopped by wait)"⟩] else []) ++
  if r.result ≠ "done" then
    [⟨"plumbing", "start job ended " ++ Text.repr r.result ++ ", not done (exec_status=" ++
      Text.repr r.execStatus ++ ": the harness's real exit; an assert or sanitizer abort lands " ++
      "here as its signal)"⟩]
  else if r.execStatus ≠ "" ∧ r.execStatus ≠ "0" then
    [⟨"plumbing", "harness exited nonzero (exec_status=" ++ Text.repr r.execStatus ++ ")"⟩]
  else []

/-- `_VMA_FAILED_RE`. -/
def vmaFailed (u : Unicode) : Regex :=
  ⟨"Test \\w+ FAILED", .seqs [.lit "Test ".toList, .plus u.isWord, .lit " FAILED".toList]⟩

/-- The lines of failed vma tests. -/
def vmaFindings (u : Unicode) (item : String) (lines : List Line) : List Finding :=
  if item = "vma/vma" then
    (lines.filter fun ln => (vmaFailed u).isIn false ln).map fun ln => ⟨"vma test", stripped ln⟩
  else []

/-! ## The evidence -/

/-- What the evidence of an entry comes to. -/
structure Evidence where
  tests : ℤ
  passed : ℤ
  failed : ℤ
  findings : List Finding
  text : String

section
variable (u : Unicode)

/-- `int(groups[name])`; every group of a summary takes part in its matches. -/
def groupInt (m : Found) (name : String) : ℤ := Text.digitsToNat u ((m.group name).getD [])

/-- The counts of a summary line. -/
def summaryEvidence (p : Regex) (m : Found) : Evidence :=
  if "failed" ∈ p.re.names then
    let tests := groupInt u m "run"
    let failed := groupInt u m "failed"
    ⟨tests, groupInt u m "passed", failed,
      (if failed ≠ 0 then
        [⟨"summary", "summary counts " ++ toString failed ++ " failed test(s)"⟩] else []) ++
      (if tests ≤ 0 then [⟨"summary", "summary counts zero tests"⟩] else []),
      String.ofList m.text⟩
  else
    let passed := groupInt u m "passed"
    let tests := groupInt u m "total"
    ⟨tests, passed, tests - passed,
      if tests ≤ 0 then [⟨"summary", "summary counts zero tests"⟩]
      else if passed ≠ tests then
        [⟨"summary", "summary counts " ++ toString passed ++ " of " ++ toString tests ++ " passed"⟩]
      else [],
      String.ofList m.text⟩

/-- The evidence of counted lines. -/
def countedEvidence (sentinel fail : Regex) (lines : List Line) : Evidence :=
  let passed := (lines.filter fun ln => sentinel.isIn false ln).length
  let failed := (lines.filter fun ln => fail.isIn false ln).length
  ⟨passed + failed, passed, failed,
    (if failed ≠ 0 then [⟨"verbose counts", toString failed ++ " ': failed' line(s)"⟩] else []) ++
    (if passed < 1 then
      [⟨"verbose counts", "no ': passed' lines; the --verbose per-test output is missing, " ++
        "so the run cannot be proven"⟩]
      else []),
    toString passed ++ " per-test ': passed' line(s)"⟩

/-- The evidence an entry asks for. -/
def evidence (entry : Harness) (output : Line) (lines : List Line) : Evidence :=
  match entry.summary, entry.sentinel with
  | some p, _ =>
      match (p.finditer false output).getLast? with
      | none => ⟨0, 0, 0, [⟨"summary", "no summary line in the run's output; a truncated capture " ++
          "can never pass"⟩], ""⟩
      | some m => summaryEvidence u p m
  | none, some sentinel =>
      match entry.countLines, entry.failLine with
      | true, some fail => countedEvidence sentinel fail lines
      | _, _ =>
          if sentinel.isIn true output then ⟨0, 0, 0, [], "sentinel line present"⟩
          else ⟨0, 0, 0, [⟨"sentinel", "sentinel " ++ Text.repr sentinel.source ++
            " missing from the run's output; the suite cannot be proven to have run"⟩], ""⟩
  | none, none => ⟨0, 0, 0, [], "clean exit (silent on pass)"⟩

/-- `_SEED_RE`. -/
def seedRe : Regex :=
  ⟨"random seed (\\d+)", .seqs [.lit "random seed ".toList, .group "1" (.plus (isDigit u))]⟩

/-- The seed the harness logged last. -/
def seed (output : Line) : Option ℤ :=
  ((seedRe u).finditer false output).getLast?.map fun m => groupInt u m "1"

/-! ## The verdict -/

/-- What `main` returns.  A row is a check and whether it passed. -/
structure HarnessVerdict where
  run : HarnessRun
  status : Status
  seed : Option ℤ
  tests : ℤ
  passed : ℤ
  failed : ℤ
  skipped : ℤ
  perTest : List (Finding × Status)
  reasons : List String
  outputTail : List Line

/-- All that is found against a harness. -/
def findings (entry : Harness) (r : HarnessRun) : List Finding :=
  let lines := Text.splitlines r.output.toList
  plumbing r ++ sanitizerFindings (scanned entry lines) ++ assertionFindings (scanned entry lines) ++
    vmaFindings u r.item lines ++ (evidence u entry r.output.toList lines).findings

/-- The text of the evidence, with the seed. -/
def evidenceText (text : String) : Option ℤ → String
  | none => text
  | some n => if text = "" then toString n else text ++ "; random seed " ++ toString n

/-- `main`, for an entry of the catalog. -/
def judge (entry : Harness) (r : HarnessRun) : HarnessVerdict :=
  let lines := Text.splitlines r.output.toList
  let found := findings u entry r
  let ev := evidence u entry r.output.toList lines
  let seed := seed u r.output.toList
  { run := r
    status := if found = [] then .passed else .failed
    seed, tests := ev.tests, passed := ev.passed, failed := ev.failed, skipped := 0
    perTest :=
      if found = [] then [(⟨entry.label, evidenceText ev.text seed⟩, .passed)]
      else found.map fun f => (f, .failed)
    reasons := found.map fun f => f.check ++ ": " ++ f.message
    outputTail := lines.drop (lines.length - 40) }

/-- `main`. -/
def collect (r : HarnessRun) : HarnessVerdict := judge u (catalogEntry u r.item) r

end

end KdevopsNg.Usertests
