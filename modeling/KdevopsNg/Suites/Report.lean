/-
# `Suites.Report` — the reports the suite runs write

`main` of `f/kunit/report.py`, `f/selftests/report.py`, `f/usertests/report.py`
and `f/runtime_tests/report.py`, up to the `report.json` they write.  Each takes
the list of its collect results, one for each run of each item, with the step
errors of runs that failed hard mixed in, and writes

    status            `run_status`: passed when every result passed
    kernel_version    the first one known
    suites / items    the entries, the repeats of one item folded into one entry
                      by `_aggregate`, except by the kunit report
    failures          the failing tests

The kunit report files its entries under `suites`, the other three theirs under
`items`.  The tables the step also returns for display are left out: the file
does not hold them.
-/
import KdevopsNg.Py.Json
import KdevopsNg.Py.Number
import KdevopsNg.Py.Text

namespace KdevopsNg.Suites

open Py

/-- The suites that run on a guest. -/
inductive Suite where
  | kunit
  | selftests
  | usertests
  | runtimeTests
  deriving DecidableEq, Repr

/-! ## What collect returns -/

/-- A collect verdict. -/
inductive Status where
  | passed
  | failed
  | notrun
  deriving DecidableEq, Repr

/-- How a report spells it. -/
def Status.name : Status → String
  | .passed => "passed"
  | .failed => "failed"
  | .notrun => "notrun"

/-- The evidence of a run: one row for each test, the failing ones, the reasons
of the verdict, the crash lines, and the log. -/
structure Detail where
  perTest : List (Dict Json)
  failures : List (Dict Json)
  reasons : List String
  crashLines : List String
  log : Json
  deriving DecidableEq

/-- A collect result.  A field its suite does not have is ignored. -/
structure Collected where
  item : String
  vmName : String
  kernelVersion : String
  status : Status
  result : String
  execStatus : String
  crashed : Bool
  timedOut : Bool
  runtime : Option ℚ
  startedMs : Option ℤ
  endedMs : Option ℤ
  reportPresent : Bool
  loaded : Bool
  seed : Option ℤ
  tests : ℕ
  passed : ℕ
  failed : ℕ
  skipped : ℕ
  userCrashes : Option ℕ
  detail : Detail
  deriving DecidableEq

/-- An entry of the list a report step is given: a collect result, or the error
object of a run whose step failed hard. -/
inductive Entry where
  | collected (c : Collected)
  | stepError (error : Json)
  deriving DecidableEq

/-- `None`, or a number. -/
def optNum : Option ℚ → Json
  | none => .null
  | some q => .num q

/-- A list of strings. -/
def strings (xs : List String) : Json := .arr (xs.map .str)

/-- `detail`, with the keys of its suite. -/
def Detail.encode (s : Suite) (d : Detail) : Json :=
  let perTest := ("per_test", Json.arr (d.perTest.map .obj))
  let failures := ("failures", Json.arr (d.failures.map .obj))
  let reasons := ("reasons", strings d.reasons)
  .obj (match s with
    | .kunit => [perTest, failures, ("ktap", d.log)]
    | .selftests => [perTest, failures, ("user_crashes", strings d.crashLines), ("ktap", d.log)]
    | .usertests => [perTest, reasons, ("output_tail", d.log)]
    | .runtimeTests => [perTest, reasons, ("kmsg_tail", d.log)])

/-- A collect result, with the keys of its suite. -/
def Collected.encode (s : Suite) (c : Collected) : Dict Json :=
  [(if s = .kunit then "suite" else "item", .str c.item),
    ("vm_name", .str c.vmName), ("kernel_version", .str c.kernelVersion),
    ("status", .str c.status.name), ("result", .str c.result)] ++
  (if s = .runtimeTests then [("loaded", .bool c.loaded)] else []) ++
  [("exec_status", .str c.execStatus), ("crashed", .bool c.crashed),
    ("timed_out", .bool c.timedOut), ("runtime", optNum c.runtime),
    ("started_realtime_ms", optNum (c.startedMs.map (↑))),
    ("ended_realtime_ms", optNum (c.endedMs.map (↑)))] ++
  (match s with
    | .kunit | .selftests => [("report_present", .bool c.reportPresent)]
    | .usertests => [("seed", optNum (c.seed.map (↑)))]
    | .runtimeTests => []) ++
  [("tests", .num c.tests), ("passed", .num c.passed), ("failed", .num c.failed),
    (if s = .kunit then "notrun" else "skipped", .num c.skipped)] ++
  (if s = .selftests then [("user_crashes", optNum (c.userCrashes.map (↑)))] else []) ++
  [("detail", c.detail.encode s)]

/-- The error object of a step. -/
def encodeStepError (error : Json) : Dict Json := [("error", error)]

/-! ## The verdict -/

/-- `s.get("status") == "passed"`. -/
def Entry.isPassed : Entry → Bool
  | .collected c => c.status = .passed
  | .stepError _ => false

/-- `run_status`: the rule the report and the judge of a suite share. -/
def runStatus (entries : List Entry) : Status :=
  if entries ≠ [] ∧ entries.all Entry.isPassed then .passed else .failed

/-! ## Folding the repeats -/

/-- An entry of the rollup: one given to the step as it was, or the fold of an
item's runs. -/
structure Folded where
  run : Collected
  spread : Option (ℚ × ℚ)
  samples : ℕ
  countVariance : Bool
  throughput : ℚ
  runs : List Collected
  deriving DecidableEq

inductive Item where
  | raw (e : Entry)
  | folded (f : Folded)
  deriving DecidableEq

/-- The status of an item: the worst of its runs. -/
def worst (statuses : List Status) : Status :=
  if .failed ∈ statuses then .failed
  else if .notrun ∈ statuses then .notrun
  else statuses.getLast?.getD .failed

/-- The fold of the runs of one item, the first run and the others: counts from
the last passing run, evidence from the last failing one (for the selftests,
else from the last that logged a userspace crash), the median of the known
runtimes, to the hundredth. -/
def foldRuns (s : Suite) (first : Collected) (others : List Collected) : Folded :=
  let runs := first :: others
  let passing := runs.filter fun r => r.status = .passed
  let failing := runs.filter fun r => r.status = .failed
  let crashing := runs.filter fun r => r.userCrashes.getD 0 ≠ 0
  let base := passing.getLastD (runs.getLastD first)
  let evidence :=
    if failing ≠ [] then failing.getLast?
    else if s = .selftests then crashing.getLast? else none
  let counts := runs.filterMap (·.userCrashes)
  let times := runs.filterMap (·.runtime)
  let runtime := if times = [] then base.runtime else some (roundTo 2 (median times))
  { run := { base with
      status := worst (runs.map (·.status))
      runtime := runtime
      detail := (evidence.map (·.detail)).getD base.detail
      execStatus := (evidence.map (·.execStatus)).getD base.execStatus
      userCrashes := if counts = [] then none else some counts.sum }
    spread := if times = [] then none
      else some (roundTo 2 (times.min?.getD 0), roundTo 2 (times.max?.getD 0))
    samples := runs.length
    countVariance := decide (1 < (runs.map (·.tests)).eraseDups.length)
    throughput := match runtime with
      | some q => if times ≠ [] ∧ q ≠ 0 then roundTo 1 (base.passed / q) else 0
      | none => 0
    runs := runs }

/-- A run in the `runs` list of its item. -/
def encodeRun (s : Suite) (r : Collected) : Json :=
  .obj ([("status", .str r.status.name), ("runtime", optNum r.runtime), ("tests", .num r.tests),
    ("passed", .num r.passed), ("failed", .num r.failed)] ++
    if s = .selftests then [("user_crashes", optNum (r.userCrashes.map (↑)))] else [])

/-- The fold of an item in the report. -/
def Folded.encode (s : Suite) (f : Folded) : Dict Json :=
  f.run.encode s ++
  (match f.spread with
    | some (lo, hi) => [("runtime_min", .num lo), ("runtime_max", .num hi)]
    | none => []) ++
  [("samples", .num f.samples), ("count_variance", .bool f.countVariance)] ++
  (if s = .selftests then [] else [("throughput", .num f.throughput)]) ++
  [("runs", .arr (f.runs.map (encodeRun s)))]

/-- An entry of the report. -/
def Item.encode (s : Suite) : Item → Dict Json
  | .raw (.collected c) => c.encode s
  | .raw (.stepError e) => encodeStepError e
  | .folded f => f.encode s

/-- The runs of one item. -/
def runsOf (name : String) (entries : List Entry) : List Collected :=
  entries.filterMap fun
    | .collected c => if c.item = name then some c else none
    | .stepError _ => none

/-- `_aggregate` over the entries still to place, `seen` the items placed so far:
an item is placed at its first run, folding that run with its later ones. -/
def aggregateFrom (s : Suite) (seen : List String) : List Entry → List Item
  | [] => []
  | .stepError e :: rest => .raw (.stepError e) :: aggregateFrom s seen rest
  | .collected c :: rest =>
      if c.item = "" then .raw (.collected c) :: aggregateFrom s seen rest
      else if c.item ∈ seen then aggregateFrom s seen rest
      else .folded (foldRuns s c (runsOf c.item rest)) :: aggregateFrom s (c.item :: seen) rest

/-- The entries of the report: the kunit report keeps them as they are, the
others fold the repeats. -/
def reportItems (s : Suite) (entries : List Entry) : List Item :=
  match s with
  | .kunit => entries.map .raw
  | _ => aggregateFrom s [] entries

/-! ## The rollup -/

/-- The run an entry of the report is about, none for a step error. -/
def Item.run? : Item → Option Collected
  | .raw (.collected c) => some c
  | .raw (.stepError _) => none
  | .folded f => some f.run

/-- The first kernel version known. -/
def kernelVersion (items : List Item) : String :=
  ((items.filterMap fun i => i.run?.map (·.kernelVersion)).find? (· ≠ "")).getD ""

/-- `f.get(k, d)`. -/
def field (f : Dict Json) (k : String) (d : Json) : Json := (Dict.get? f k).getD d

/-- The `failures` of a report. -/
def failures (s : Suite) (items : List Item) : List Json :=
  items.flatMap fun i => match i.run? with
    | none => []
    | some r => match s with
      | .kunit => r.detail.failures.map fun f => .obj [("suite", .str r.item),
          ("test", field f "name" .null), ("message", field f "message" (.str ""))]
      | .selftests => r.detail.failures.map fun f => .obj [
          ("collection", field f "collection" (.str "")), ("test", field f "test" .null),
          ("message", field f "message" (.str ""))]
      | .usertests => (r.detail.perTest.filter fun f =>
          (field f "status" .null).eq (.str "failed")).map fun f => .obj [
            ("harness", field f "harness" (.str "")), ("check", field f "check" (.str "")),
            ("message", field f "message" (.str ""))]
      | .runtimeTests => if r.status = .failed then
          [.obj [("module", .str r.item), ("reasons", strings r.detail.reasons)]] else []

/-- The key the entries are filed under. -/
def itemsKey : Suite → String
  | .kunit => "suites"
  | _ => "items"

/-- The `report.json` a report step writes. -/
def rollup (s : Suite) (entries : List Entry) : Dict Json :=
  let items := reportItems s entries
  [("status", .str (runStatus entries).name), ("kernel_version", .str (kernelVersion items)),
    (itemsKey s, .arr (items.map fun i => .obj (i.encode s))),
    ("failures", .arr (failures s items))]

/-- Where it is written: under the VM's directory, in the kernel's when the
kernel version is known. -/
def reportPath (root : Path) (s : Suite) (entries : List Entry) : Path :=
  let kver := kernelVersion (reportItems s entries)
  if kver = "" then root ++ ["report.json"] else root ++ [kver, "report.json"]

end KdevopsNg.Suites
