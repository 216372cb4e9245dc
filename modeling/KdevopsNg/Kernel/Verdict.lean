/-
# `Kernel.Verdict` — what the reports on disk say about a candidate

`_report_candidates` and `_fresh_verdict` of `f/kernel/bisect_step.py`.  A
payload's run leaves a `report.json` on the VM's share; the step reads the
newest one written since its last decision:

    passed        good, or bad when the summed item runtime exceeds max_runtime
    untestable    skip
    anything else bad
    no report     None (the payload never got there)

A report that is not a JSON object counts as no report.  One whose `items` are
not what the sum expects raises.
-/
import KdevopsNg.Kernel.Bringup

namespace KdevopsNg.Kernel

open Py

/-- The directories the worker's environment names. -/
structure Host where
  systemDir : Path
  workersDir : Path

/-- A `report.json`: when it was written, and what `json.loads` makes of it
(none for a text that is not JSON). -/
structure ReportFile where
  mtime : ℚ
  content : Option Json

/-- The report files of the host. -/
abbrev Disk := List (Path × ReportFile)

/-- The report at a path. -/
def Disk.file? (disk : Disk) (p : Path) : Option ReportFile :=
  (disk.find? fun e => e.1 = p).map Prod.snd

/-- `share_dir`/`cache_dir` of a suite: the VM's directory under the suite's
share root, a name that resolves elsewhere refused. -/
def suiteShareDir (host : Host) (suite vmName : String) : Except PyError Path :=
  let root := host.workersDir ++ ["shared", suite]
  let path := Text.resolve root vmName
  if Text.below root path then .ok path
  else .error (.valueError ("vm_name " ++ Text.repr vmName ++ " resolves outside " ++
    "/" ++ Text.join "/" root))

/-- `_report_candidates`. -/
def reportCandidates (host : Host) (payload : Payload) (vmName : String) (sdir : Path)
    (disk : Disk) : Except PyError (List Path) := do
  let sweep (suite : String) : Except PyError (List Path) := do
    let root ← suiteShareDir host suite vmName
    let children := (disk.map Prod.fst).filter fun p =>
      p.length = root.length + 2 ∧ root.isPrefixOf p ∧ p.getLast? = some "report.json"
    return (root ++ ["report.json"]) :: children
  match payload with
  | .usertestsBuild => return [sdir ++ ["report.json"]]
  | .kunit => sweep "kunit"
  | .selftests => sweep "selftests"
  | .runtimeTests => sweep "runtime-tests"
  | .usertests => sweep "usertests"

/-- What a candidate's run proved. -/
inductive Verdict where
  | good
  | bad
  | skip
  deriving DecidableEq, Repr

/-- The word `git bisect` takes. -/
def Verdict.name : Verdict → String
  | .good => "good"
  | .bad => "bad"
  | .skip => "skip"

/-- The newer of the best report so far and a candidate that may not exist; the
first of two equally old ones. -/
def newer : Option ReportFile → Option ReportFile → Option ReportFile
  | best, none => best
  | none, some f => some f
  | some b, some f => if b.mtime < f.mtime then some f else some b

/-- The newest of the candidates that exist. -/
def newest (disk : Disk) (candidates : List Path) : Option ReportFile :=
  candidates.foldl (fun best p => newer best (disk.file? p)) none

/-- A term of a `sum`. -/
def summand : Json → Except PyError ℚ
  | .num q => .ok q
  | .bool b => .ok (if b then 1 else 0)
  | _ => .error .typeError

/-- `i.get("runtime") or 0` as a term of the sum. -/
def itemRuntime (item : Json) : Except PyError ℚ := do
  let r ← item.getD "runtime" .null
  summand (r.orElse (.num 0))

/-- The summed runtime of a report's items. -/
def totalRuntime (report : Json) : Except PyError ℚ := do
  let items ← report.getD "items" .null
  let xs ← (items.orElse (.arr [])).iter
  let rs ← xs.mapM itemRuntime
  return rs.sum

/-- The verdict of one report that is a JSON object. -/
def reportVerdict (report : Json) (status : Json) (maxRuntime : ℚ) : Except PyError Verdict :=
  if status.eq (.str "untestable") then .ok .skip
  else if !status.eq (.str "passed") then .ok .bad
  else if maxRuntime ≠ 0 then do
    let total ← totalRuntime report
    return if maxRuntime < total then .bad else .good
  else .ok .good

/-- `_fresh_verdict`. -/
def freshVerdict (disk : Disk) (candidates : List Path) (decidedAt maxRuntime : ℚ) :
    Except PyError (Option Verdict) :=
  match newest disk candidates with
  | none => .ok none
  | some best =>
      if best.mtime ≤ decidedAt then .ok none
      else match best.content with
        | none => .ok none
        | some report =>
            match report.getD "status" .null with
            | .error _ => .ok none
            | .ok status => do
                let v ← reportVerdict report status maxRuntime
                return some v

/-- The report at `p` is the one that counts: every other candidate on disk is
older. -/
def Latest (disk : Disk) (candidates : List Path) (p : Path) (f : ReportFile) : Prop :=
  p ∈ candidates ∧ disk.file? p = some f ∧
    ∀ q ∈ candidates, q ≠ p → ∀ g, disk.file? q = some g → g.mtime < f.mtime

theorem newer_older {best g? : Option ReportFile} {f : ReportFile}
    (hb : ∀ b, best = some b → b.mtime < f.mtime) (hg : ∀ g, g? = some g → g.mtime < f.mtime) :
    ∀ b, newer best g? = some b → b.mtime < f.mtime := by
  intro b hnew
  cases g? with
  | none => exact hb b hnew
  | some g =>
      cases best with
      | none => exact hg b hnew
      | some b₀ =>
          by_cases hlt : b₀.mtime < g.mtime
          · exact hg b (by rw [newer, if_pos hlt] at hnew; exact hnew)
          · exact hb b (by rw [newer, if_neg hlt] at hnew; exact hnew)

/-- The fold has met the latest report, or will meet it and has only met older
ones. -/
theorem foldl_newer {disk : Disk} {p : Path} {f : ReportFile} (hf : disk.file? p = some f)
    (cs : List Path) (best : Option ReportFile)
    (hcs : ∀ q ∈ cs, q ≠ p → ∀ g, disk.file? q = some g → g.mtime < f.mtime)
    (hbest : best = some f ∨ (p ∈ cs ∧ ∀ b, best = some b → b.mtime < f.mtime)) :
    cs.foldl (fun best q => newer best (disk.file? q)) best = some f := by
  induction cs generalizing best with
  | nil =>
      rcases hbest with h | ⟨h, -⟩
      · exact h
      · cases h
  | cons q cs ih =>
      refine ih _ (fun q' hq' => hcs q' (List.mem_cons_of_mem _ hq')) ?_
      show newer best (disk.file? q) = some f ∨
        (p ∈ cs ∧ ∀ b, newer best (disk.file? q) = some b → b.mtime < f.mtime)
      by_cases hq : q = p
      · rw [hq, hf]
        rcases hbest with rfl | ⟨-, hb⟩
        · exact .inl (by simp [newer])
        · cases best with
          | none => exact .inl rfl
          | some b => exact .inl (if_pos (hb b rfl))
      · have hg : ∀ g, disk.file? q = some g → g.mtime < f.mtime := hcs q (by simp) hq
        rcases hbest with rfl | ⟨hmem, hb⟩
        · refine .inl ?_
          cases hfile : disk.file? q with
          | none => rfl
          | some g => exact if_neg (not_lt.mpr (hg g hfile).le)
        · exact .inr ⟨(List.mem_cons.mp hmem).resolve_left (Ne.symm hq), newer_older hb hg⟩

theorem newest_of_latest {disk : Disk} {candidates : List Path} {p : Path} {f : ReportFile}
    (h : Latest disk candidates p f) : newest disk candidates = some f :=
  foldl_newer h.2.1 candidates none h.2.2 (.inr ⟨h.1, fun b hb => by cases hb⟩)

/-- The newest report decides when it was written after the last decision. -/
theorem freshVerdict_of_latest {disk : Disk} {candidates : List Path} {p : Path} {mtime : ℚ}
    {kvs : Dict Json} (h : Latest disk candidates p ⟨mtime, some (.obj kvs)⟩) {decidedAt : ℚ}
    (hd : decidedAt < mtime) (maxRuntime : ℚ) :
    freshVerdict disk candidates decidedAt maxRuntime =
      (do
        let v ← reportVerdict (.obj kvs) ((Dict.get? kvs "status").getD .null) maxRuntime
        return some v) := by
  simp [freshVerdict, newest_of_latest h, not_le.mpr hd]

/-- Without a runtime limit a report is never summed, so its verdict is only its
status. -/
theorem reportVerdict_unlimited (report status : Json) :
    reportVerdict report status 0 =
      .ok (if status.eq (.str "untestable") then .skip
        else if status.eq (.str "passed") then .good else .bad) := by
  unfold reportVerdict
  by_cases hu : status.eq (.str "untestable") = true
  · simp [hu]
  · by_cases hp : status.eq (.str "passed") = true
    · simp [hu, hp]
    · simp [hu, hp]

end KdevopsNg.Kernel
