/-
# `Kernel.BisectStep` — one call of the bisect step

`main` of `f/kernel/bisect_step.py`, statement by statement.  What lives on disk
is the `World`: the `state.json` of one VM and the clone `git bisect` runs in.
The clone is any type `γ` with the commands of `Git`; nothing is assumed of them
here, so a result about `main` holds whatever git answers.

A call is in one of two branches, chosen by `staleTest`:

    stale      reset      a new clone, a new state, the bad endpoint handed out
    not stale  advance    the last candidate's verdict is read and recorded

`start` is everything before that choice and changes nothing.  `reading` is what
`advance` reads before it runs git.  Both branches end with the write of
`state.json`; the result, with its bringup inputs, is put together after it.
-/
import KdevopsNg.Kernel.Verdict

namespace KdevopsNg.Kernel

open Py Py.Exec

/-! ## The world of a call -/

/-- The git commands of the step, over a clone.  A command gives whether it
succeeded and the clone it leaves; one whose output is captured gives the
output, none for bytes that are not text. -/
structure Git (γ : Type) where
  /-- The clone goes with the state directory. -/
  rmtree : γ → γ
  clone : γ → Bool × γ
  /-- `rev-parse --verify REF^{commit}`. -/
  revParse : γ → String → Option String
  /-- `update-ref refs/heads/bisect-base SHA`. -/
  updateRef : γ → String → Bool × γ
  /-- `symbolic-ref HEAD refs/heads/bisect-base`. -/
  symbolicRef : γ → Bool × γ
  /-- `bisect start --no-checkout BAD GOOD`. -/
  bisectStart : γ → String → String → Bool × γ
  /-- `bisect VERDICT SHA`. -/
  bisectFeed : γ → String → String → Option String × γ
  /-- `rev-parse --verify BISECT_HEAD`. -/
  bisectHead : γ → Option String

/-- What a call finds on disk and leaves there: the JSON value of `state.json`,
none when there is no file or no JSON in it, and the clone. -/
structure World (γ : Type) where
  stateFile : Option Json
  repo : γ

/-- The rest of what a call reads: the host's directories, whether its git
binary can be resolved, the report files, the clock, and how `int` and `float`
read a string. -/
structure Env where
  host : Host
  gitBin : Bool
  disk : Disk
  now : ℚ
  readInt : String → Option ℤ
  readFloat : String → Option ℚ

/-- The arguments. -/
structure Args where
  vmName : String
  good : String
  bad : String
  suites : List String
  maxSteps : ℤ
  payload : String
  errorRe : String
  maxRuntime : ℚ
  compiler : String
  makeFlags : String
  guest : Json
  deriving DecidableEq

/-- `guest or {}`. -/
def Args.pasted (a : Args) : Json := a.guest.orElse (.obj [])

/-! ## Before the branch -/

/-- The harnesses `build_usertests.CATALOG` knows. -/
def catalog : List String := ["radix-tree", "vma", "memblock", "scatterlist"]

/-- The checks on the arguments, and the payload they name. -/
def checkArgs (a : Args) : Except PyError Payload := do
  checkGuest a.pasted
  if a.suites = [] then
    .error (.valueError "suites must name at least one suite to bisect on")
  else match Payload.ofName? a.payload with
    | none => .error (.valueError ("unknown payload " ++ Text.repr a.payload))
    | some payload =>
        let unknown :=
          if payload = .usertestsBuild then a.suites.filter (fun s => s ∉ catalog) else []
        if unknown = [] then .ok payload
        else .error (.valueError ("unknown usertests harness(es): " ++ Text.join " " unknown ++
          " (known: " ++ Text.join " " catalog ++ ")"))

/-- A text an argument of a command can be. -/
def argWord : Json → Except PyError String
  | .str s => if Char.ofNat 0 ∈ s.toList then .error (.valueError "embedded null byte") else .ok s
  | _ => .error .typeError

/-- `_state_dir`. -/
def stateDir (host : Host) (vmName : String) : Except PyError Path := do
  let vmName ← argWord (.str vmName)
  let root := host.systemDir ++ ["bisect"]
  let path := Text.resolve root vmName
  if Text.below root path then .ok path
  else .error (.valueError ("vm_name " ++ Text.repr vmName ++ " resolves outside " ++
    "/" ++ Text.join "/" root))

/-- The state the call starts from: `{}` when there is none to read. -/
def World.state {γ : Type} (w : World γ) : Json := w.stateFile.getD (.obj [])

/-- The `stale` test: whether the call starts over. -/
def staleTest (state : Json) (a : Args) : Except PyError Bool :=
  if !state.truthy then .ok true
  else match state with
    | .obj s =>
        let differs (k : String) (d v : Json) : Bool := !((Dict.get? s k).getD d).eq v
        .ok (differs "good" .null (.str a.good)
          || differs "bad" .null (.str a.bad)
          || differs "suites" .null (strs a.suites)
          || differs "payload" (.str "kunit") (.str a.payload)
          || differs "error_re" (.str "") (.str a.errorRe)
          || differs "max_runtime" (.num 0) (.num a.maxRuntime)
          || differs "guest" (.obj []) a.pasted
          || ((Dict.get? s "outcome").getD .null).truthy)
    | _ => .error .attributeError

/-- What a call knows when it has changed nothing yet. -/
structure Start where
  payload : Payload
  sdir : Path
  stale : Bool

/-- Everything before the branch. -/
def start {γ : Type} (env : Env) (a : Args) (w : World γ) : Except PyError Start := do
  let payload ← checkArgs a
  let sdir ← stateDir env.host a.vmName
  if env.gitBin then
    let stale ← staleTest w.state a
    .ok ⟨payload, sdir, stale⟩
  else .error (.calledProcessError "nix build #git")

/-! ## Commands -/

section
variable {γ : Type}

/-- `git.run`: a command that fails raises. -/
def runGit (name : String) (cmd : γ → Bool × γ) : Exec (World γ) Unit := fun w =>
  (if (cmd w.repo).1 then .ok () else .error (.calledProcessError name),
    { w with repo := (cmd w.repo).2 })

/-- `git.capture(…).strip()`. -/
def capture (out : Option String) : Except PyError String :=
  match out with
  | some s => .ok (String.ofList (Text.strip s.toList))
  | none => .error .unicodeDecodeError

/-- `_bisect_feed`: the output, not stripped. -/
def bisectFeed (git : Git γ) (verdict : Verdict) (sha : String) : Exec (World γ) String := fun w =>
  (match (git.bisectFeed w.repo verdict.name sha).1 with
    | some out => .ok out
    | none => .error .unicodeDecodeError,
    { w with repo := (git.bisectFeed w.repo verdict.name sha).2 })

/-- `_bisect_head`. -/
def bisectHead (git : Git γ) : Exec (World γ) String := fun w =>
  (capture (git.bisectHead w.repo), w)

/-- `_resolve`. -/
def resolve (git : Git γ) (repo : Path) (ref : String) : Exec (World γ) String := do
  let ref ← lift (argWord (.str ref))
  let w ← get
  let sha ← lift (capture (git.revParse w.repo ref))
  if sha ≠ "" then pure sha
  else do
    let sha ← lift (capture (git.revParse w.repo ("origin/" ++ ref)))
    if sha ≠ "" then pure sha
    else raise (.valueError ("ref " ++ Text.repr ref ++ " does not resolve in the Bare clone at " ++
      "/" ++ Text.join "/" repo))

/-! ## The reset -/

/-- The state a reset writes, before `decided_at` is set. -/
def initialState (a : Args) (goodSha badSha : String) : Json :=
  .obj [
    ("good", .str a.good), ("bad", .str a.bad), ("suites", strs a.suites),
    ("payload", .str a.payload), ("error_re", .str a.errorRe),
    ("max_runtime", .num a.maxRuntime), ("guest", a.pasted),
    ("good_sha", .str goodSha), ("bad_sha", .str badSha),
    ("phase", .str "verify_bad"), ("candidate", .str badSha),
    ("decided_at", .num 0), ("steps", .num 0), ("iterations", .arr []),
    ("outcome", .str "")]

/-- The stale branch: a new clone and a new state. -/
def reset (git : Git γ) (a : Args) (sdir : Path) : Exec (World γ) Json := do
  modify fun w => { stateFile := none, repo := git.rmtree w.repo }
  runGit "git clone" git.clone
  let badSha ← resolve git (sdir ++ ["repo"]) a.bad
  runGit "git update-ref" (fun r => git.updateRef r badSha)
  runGit "git symbolic-ref" git.symbolicRef
  let goodSha ← resolve git (sdir ++ ["repo"]) a.good
  pure (initialState a goodSha badSha)

/-! ## The decision -/

/-- `_FIRST_BAD`. -/
def firstBad : String := "is the first bad commit"

/-- `_FIRST_BAD in out`. -/
def namesFirstBad (out : String) : Bool := Text.isInfix firstBad.toList out.toList

/-- What `advance` reads before it runs git. -/
structure Reading where
  verdict : Verdict
  prev : Json
  phase : Json

/-- The verdict of the newest report, and the candidate and phase it is about. -/
def reading (env : Env) (a : Args) (payload : Payload) (sdir : Path) (state : Json) :
    Except PyError Reading := do
  let candidates ← reportCandidates env.host payload a.vmName sdir env.disk
  let decidedAt ← state.getItem "decided_at"
  let decidedAt ← decidedAt.toFloat env.readFloat
  let verdict ← freshVerdict env.disk candidates decidedAt a.maxRuntime
  let prev ← state.getItem "candidate"
  let phase ← state.getItem "phase"
  .ok ⟨verdict.getD .skip, prev, phase⟩

/-- The decision in phase `verify_bad`. -/
def judgeBad (state : Json) : Verdict → Except PyError Json
  | .good => state.setItem "outcome" (.str "not_reproducible_standalone")
  | .bad => do
      let state ← state.setItem "phase" (.str "verify_good")
      let goodSha ← state.getItem "good_sha"
      state.setItem "candidate" goodSha
  | .skip => state.setItem "outcome" (.str "endpoint_untestable")

/-- `git bisect start` on two commits of the state, and the `BISECT_HEAD` it
leaves. -/
def startBisect (git : Git γ) (badSha goodSha : Json) : Exec (World γ) String := do
  let badSha ← lift (argWord badSha)
  let goodSha ← lift (argWord goodSha)
  runGit "git bisect start" (fun r => git.bisectStart r badSha goodSha)
  bisectHead git

/-- The decision in phase `verify_good`; a good endpoint starts the bisect. -/
def judgeGood (git : Git γ) (state : Json) : Verdict → Exec (World γ) Json
  | .good => do
      let badSha ← lift (state.getItem "bad_sha")
      let goodSha ← lift (state.getItem "good_sha")
      let head ← startBisect git badSha goodSha
      lift (if head ≠ "" then do
          let state ← state.setItem "phase" (.str "bisect")
          state.setItem "candidate" (.str head)
        else state.setItem "outcome" (.str "inconclusive"))
  | .bad => lift (state.setItem "outcome" (.str "good_endpoint_failed"))
  | .skip => lift (state.setItem "outcome" (.str "endpoint_untestable"))

/-- `state["steps"] = int(state["steps"]) + 1`, and the new count. -/
def countStep (readInt : String → Option ℤ) (state : Json) : Except PyError (Json × ℤ) := do
  let steps ← state.getItem "steps"
  let steps ← steps.toInt readInt
  let state ← state.setItem "steps" (.num (steps + 1 : ℤ))
  .ok (state, steps + 1)

/-- What follows from the feed's output and, when it names no first bad commit,
from `BISECT_HEAD`. -/
def conclude (git : Git γ) (maxSteps : ℤ) (out : String) (state : Json) (steps : ℤ) :
    Exec (World γ) Json :=
  if namesFirstBad out then
    lift (do
      let state ← state.setItem "outcome" (.str "first_bad_found")
      state.setItem "first_bad" (.str (String.ofList (Text.firstWord out.toList))))
  else do
    let head ← bisectHead git
    lift (if head = "" then state.setItem "outcome" (.str "inconclusive")
      else if maxSteps ≤ steps then state.setItem "outcome" (.str "max_steps_exceeded")
      else state.setItem "candidate" (.str head))

/-- The decision in phase `bisect`: git is fed the verdict and asked what is
next. -/
def judgeBisect (git : Git γ) (readInt : String → Option ℤ) (maxSteps : ℤ) (state prev : Json)
    (verdict : Verdict) : Exec (World γ) Json := do
  let sha ← lift (argWord prev)
  let out ← bisectFeed git verdict sha
  let (state, steps) ← lift (countStep readInt state)
  conclude git maxSteps out state steps

/-- The decision of a phase; a phase of another name decides nothing. -/
def judge (git : Git γ) (readInt : String → Option ℤ) (maxSteps : ℤ) (state : Json)
    (r : Reading) : Exec (World γ) Json :=
  if r.phase.eq (.str "verify_bad") then lift (judgeBad state r.verdict)
  else if r.phase.eq (.str "verify_good") then judgeGood git state r.verdict
  else if r.phase.eq (.str "bisect") then
    judgeBisect git readInt maxSteps state r.prev r.verdict
  else pure state

/-- An entry of `iterations`. -/
def iterationEntry (r : Reading) : Json :=
  .obj [("phase", r.phase), ("candidate", r.prev), ("verdict", .str r.verdict.name)]

/-- `state["iterations"].append(…)`. -/
def recordIteration (state : Json) (r : Reading) : Except PyError Json := do
  let iterations ← state.getItem "iterations"
  let iterations ← iterations.append (iterationEntry r)
  state.setItem "iterations" iterations

/-- The other branch: read the verdict, decide, record the iteration. -/
def advance (git : Git γ) (env : Env) (a : Args) (st : Start) (state : Json) :
    Exec (World γ) Json := do
  let r ← lift (reading env a st.payload st.sdir state)
  let state ← judge git env.readInt a.maxSteps state r
  lift (recordIteration state r)

/-! ## The call -/

/-- The write of `state.json`. -/
def writeState (now : ℚ) (state : Json) : Exec (World γ) Json := do
  let state ← lift (state.setItem "decided_at" (.num now))
  modify fun w => { w with stateFile := some state }
  pure state

/-- The result, put together after the write. -/
def result (a : Args) (payload : Payload) (state : Json) : Except PyError Json := do
  let outcome ← state.getD "outcome" .null
  let phase ← state.getItem "phase"
  let candidate ← state.getItem "candidate"
  let outcomeText ← state.getD "outcome" (.str "")
  let steps ← state.getItem "steps"
  let bringup ← bringupArgs candidate a.vmName payload a.suites a.compiler a.makeFlags a.pasted
  .ok (.obj [("done", .bool outcome.truthy), ("phase", phase), ("candidate", candidate),
    ("outcome", outcomeText), ("steps", steps), ("bringup", bringup)])

/-- The branch a call takes, up to the state it is about to write. -/
def branch (git : Git γ) (env : Env) (a : Args) (st : Start) : Exec (World γ) Json := do
  let w ← get
  if st.stale then reset git a st.sdir else advance git env a st w.state

/-- `main`. -/
def main (git : Git γ) (env : Env) (a : Args) : Exec (World γ) Json := do
  let w ← get
  let st ← lift (start env a w)
  let state ← branch git env a st
  let state ← writeState env.now state
  lift (result a st.payload state)

/-- The call is one that starts over. -/
def isReset (env : Env) (a : Args) (w : World γ) : Bool :=
  match start env a w with
  | .ok st => st.stale
  | .error _ => false

end

end KdevopsNg.Kernel
