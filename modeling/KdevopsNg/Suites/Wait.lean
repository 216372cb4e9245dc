/-
# `Suites.Wait` — waiting for a run's outcome, one journal poll after another

`main` of `f/selftests/wait.py`, `f/kunit/wait.py` and `f/usertests/wait.py`,
and the verdict their collect steps put on what it returns.  The three waits are
one program: only the selftests one also fetches the guest's userspace crash
lines, and the keys of the object they return differ.

The host and the guest are a schedule of polls (`Tick`): the state of the VM's
unit, what the journal fetch gives from a cursor, and whether the deadline has
passed.  `Cutting` says that a schedule delivers a sequence of records whole,
failed fetches in between, before the deadline.

The loop stops at the first chunk that holds an outcome, so what the journal
stored after the outcome is read or not as the chunk happened to end.
`wait_settled` says when that shows.
-/
import KdevopsNg.Suites.Journal
import KdevopsNg.Suites.Report

namespace KdevopsNg.Suites

open Py

/-! ## The wait step -/

/-- The suites whose wait step reads one unit's journal. -/
inductive UnitSuite where
  | selftests
  | kunit
  | usertests
  deriving DecidableEq, Repr

/-- One turn of the poll loop: the text of `systemctl is-active`, the text the
journal fetch gives from a cursor (none when it raises), and whether the
deadline has passed after it. -/
structure Tick where
  hostState : String
  poll : Option String → Option String
  expired : Bool

/-- The guest as a wait step meets it: the turns of the loop, the fetch after a
timeout, and the fetch of the kernel's crash lines. -/
structure Guest where
  ticks : List Tick
  last : Option String → Option String
  kernel : Option String

/-- The step's own arguments. -/
structure WaitArgs where
  vmName : String
  item : String
  unit : String
  cursor : String

/-- What the step returns. -/
structure Waited where
  vm : String
  item : String
  unit : String
  result : String
  execStatus : String
  output : String
  crashed : Bool
  timedOut : Bool
  runtime : Option ℚ
  startedMs : Option ℤ
  endedMs : Option ℤ
  userCrashes : List String
  userCrashCount : Option ℕ
  deriving DecidableEq

/-- The object of a suite. -/
def Waited.encode (s : UnitSuite) (w : Waited) : Dict Json :=
  let number (x : Option ℤ) := optNum (x.map (↑))
  [("vm", .str w.vm), (if s = .kunit then "suite" else "item", .str w.item),
    ("unit", .str w.unit), ("result", .str w.result), ("exec_status", .str w.execStatus),
    (if s = .usertests then "output" else "ktap", .str w.output),
    ("crashed", .bool w.crashed), ("timed_out", .bool w.timedOut),
    ("runtime", optNum w.runtime), ("started_realtime_ms", number w.startedMs),
    ("ended_realtime_ms", number w.endedMs)] ++
  if s = .selftests then
    [("user_crashes", strings w.userCrashes), ("user_crash_count", number (w.userCrashCount.map (↑)))]
  else []

/-- `_ALIVE`. -/
def alive (hostState : String) : Bool :=
  String.ofList (Text.strip hostState.toList) ∈
    ["active", "activating", "reloading", "refreshing"]

/-- Why the loop was left. -/
inductive Ending where
  | crashed
  | timedOut
  | outcome
  deriving DecidableEq, Repr

/-- The poll loop, with the cursor it leaves; `none` while it still polls when
the schedule ends. -/
def pollLoop (c : Codec) (unit : String) :
    List Tick → Option String → Exec Journal (Option (Ending × Option String))
  | [], _ => pure none
  | t :: ts, cursor =>
      if alive t.hostState = false then pure (some (.crashed, cursor))
      else match t.poll cursor with
        | none => if t.expired then pure (some (.timedOut, cursor)) else pollLoop c unit ts cursor
        | some out => do
            let polled := parseJournalJson c out cursor
            scan c unit polled.2
            let result ← Exec.look Journal.result
            if result ≠ "" then pure (some (.outcome, polled.1))
            else if t.expired then pure (some (.timedOut, polled.1))
            else pollLoop c unit ts polled.1

/-- The fetch after a timeout: whatever it raises is dropped. -/
def lastFetch (c : Codec) (unit : String) (last : Option String → Option String)
    (cursor : Option String) : Exec Journal Unit :=
  match last cursor with
  | none => pure ()
  | some out => Exec.modify fun j => (scan c unit (parseJournalJson c out cursor).2 j).2

/-- `remote.journal_kernel` with a `grep`, none when it raises: an empty output
without a cursor line is a failed fetch. -/
def journalKernel (c : Codec) (out : Option String) (cursor : String) : Option (List Record) :=
  out.bind fun text =>
    let records := (parseJournalJson c text (some cursor)).2
    let said := (Text.splitlines text.toList).any fun line =>
      isCursorLine line || "-- No entries --".toList.isPrefixOf line
    if records = [] ∧ said = false then none else some records

/-- `_user_crashes`: the lines, at most twenty of them, and their full count. -/
def userCrashes (c : Codec) (out : Option String) (cursor : String) :
    Except PyError (List String × Option ℕ) :=
  match journalKernel c out cursor with
  | none => .ok ([], none)
  | some records => do
      let lines ← records.mapM (journalMessage c)
      .ok (lines.take 20, some lines.length)

/-- `round((ended_at - started_at) / 1e6, 2)`, when both are known. -/
def runtimeOf : Option ℤ → Option ℤ → Option ℚ
  | some started, some ended => some (roundTo 2 ((ended - started : ℤ) / 1000000))
  | _, _ => none

/-- The object the step returns of what it read. -/
def waited (args : WaitArgs) (ending : Ending) (j : Journal) (crashes : List String × Option ℕ) :
    Waited :=
  { vm := args.vmName
    item := args.item
    unit := args.unit
    result := j.result
    execStatus := j.execStatus
    output := Text.join "\n" j.lines
    crashed := ending = .crashed
    timedOut := ending = .timedOut
    runtime := runtimeOf j.startedAt j.endedAt
    startedMs := j.startedMs
    endedMs := j.endedMs
    userCrashes := crashes.1
    userCrashCount := crashes.2 }

/-- After the loop. -/
def conclude (c : Codec) (s : UnitSuite) (g : Guest) (args : WaitArgs)
    (left : Option (Ending × Option String)) : Exec Journal (Option Waited) :=
  match left with
  | none => pure none
  | some (ending, cursor) => do
      (if ending = .timedOut then lastFetch c args.unit g.last cursor else pure ())
      let j ← Exec.get
      let crashes ← Exec.lift (if s = .selftests ∧ ending ≠ .crashed then
        userCrashes c g.kernel args.cursor else .ok ([], none))
      pure (some (waited args ending j crashes))

/-- The wait of a suite; `none` while it still polls when the schedule ends. -/
def waitMain (s : UnitSuite) (c : Codec) (g : Guest) (args : WaitArgs) :
    Except PyError (Option Waited) :=
  ((pollLoop c args.unit g.ticks (some args.cursor) >>= conclude c s g args) Journal.empty).1

/-- `main` of `f/selftests/wait.py`. -/
def selftestsWait (c : Codec) (g : Guest) (args : WaitArgs) : Except PyError (Option (Dict Json)) :=
  (waitMain .selftests c g args).map (·.map (Waited.encode .selftests))

/-- `main` of `f/kunit/wait.py`. -/
def kunitWait (c : Codec) (g : Guest) (args : WaitArgs) : Except PyError (Option (Dict Json)) :=
  (waitMain .kunit c g args).map (·.map (Waited.encode .kunit))

/-- `main` of `f/usertests/wait.py`. -/
def usertestsWait (c : Codec) (g : Guest) (args : WaitArgs) : Except PyError (Option (Dict Json)) :=
  (waitMain .usertests c g args).map (·.map (Waited.encode .usertests))

/-! ## The verdict of the collect step -/

/-- What `parse_ktap` counts. -/
structure KtapSummary where
  passed : ℕ
  failed : ℕ
  skipped : ℕ
  complete : Bool

/-- How the collect steps read the text of a run: the two `parse_ktap`s, and
what the usertests step finds in an item's output. -/
structure Readers where
  selftestsKtap : String → KtapSummary
  kunitKtap : String → String → KtapSummary
  findings : String → String → List (String × String)

/-- The job finished, cleanly, and was waited for. -/
def plumbingOk (w : Waited) : Bool :=
  decide (w.result = "done" ∧ (w.execStatus = "" ∨ w.execStatus = "0")) &&
    !w.crashed && !w.timedOut

/-- The verdict on a KTAP document. -/
def ktapStatus (w : Waited) (k : KtapSummary) (crashFails : Bool) : Status :=
  if !plumbingOk w || !k.complete || decide (k.failed ≠ 0) || crashFails then .failed
  else if k.passed = 0 then .notrun
  else .passed

/-- The status of the collect step. -/
def collectStatus (r : Readers) (failOnUserCrash : Bool) (s : UnitSuite) (w : Waited) : Status :=
  match s with
  | .selftests =>
      let count := w.userCrashCount.or
        (if w.userCrashes = [] then none else some w.userCrashes.length)
      ktapStatus w (r.selftestsKtap w.output) (failOnUserCrash && decide (count.getD 0 ≠ 0))
  | .kunit => ktapStatus w (r.kunitKtap w.output w.item) false
  | .usertests =>
      if plumbingOk w = true ∧ r.findings w.item w.output = [] then .passed else .failed

end KdevopsNg.Suites
