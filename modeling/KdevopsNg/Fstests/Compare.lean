/-
# `Fstests.Compare` — comparing runs from their reports

`_parse_xunit` of `scripts/compare-fstests-runs.py`, and where it agrees with
`parse_xunit`.  Both read the testcases of a report in order.  `parse_xunit` folds
the passes of a test; here a later pass replaces what an earlier one left, so the
status of a test is that of its last pass (`get?_loop`).  The two agree exactly
when the last pass decides (`agrees_iff`):

    failed             whatever came before
    skipped            when every pass was skipped and none failed
    neither            when no pass failed

A test that flaked, failing in an early pass, is passed here and failed there.  A
testcase without a name is filed under the empty name here, and under its
classname there.
-/
import KdevopsNg.Py.Path
import KdevopsNg.Fstests.Fold

namespace KdevopsNg.Fstests.Compare

open Py

/-! ## The reader -/

/-- What is kept of a test. -/
structure Rec where
  status : TestStatus
  timeS : Option ℤ
  message : Option String
  reason : Option String
  deriving DecidableEq

/-- The window of a run. -/
structure Window where
  start : Option String
  endTime : Option String
  hostname : Option String
  timeS : ℤ
  deriving DecidableEq

/-- `int(float(text))`. -/
def intOf (read : String → Option Number) (text : String) : Except PyError ℤ :=
  match read text with
  | some (.finite q) => .ok (Json.truncate q)
  | some (.infinity _) => .error .overflowError
  | some .nan => .error (.valueError "cannot convert float NaN to integer")
  | none => .error (.valueError "could not convert string to float")

/-- `case.find(tag)`. -/
def find (case : Element) (tag : String) : Option Element :=
  case.children.find? fun c => decide (c.tag = tag)

/-- `(e.get("message") or "")[:200]`. -/
def messageOf (e : Element) : String :=
  String.ofList (((e.get? "message").getD "").toList.take 200)

/-- `case.get("name") or ""`. -/
def nameOf (case : Element) : String := (case.get? "name").getD ""

/-- The time of a testcase, which it need not have. -/
def timeOf (read : String → Option Number) (case : Element) : Except PyError (Option ℤ) :=
  match case.get? "time" with
  | some text => (intOf read text).map some
  | none => .ok none

/-- The record of a testcase. -/
def recOf (read : String → Option Number) (case : Element) : Except PyError Rec := do
  let timeS ← timeOf read case
  match find case "failure", find case "skipped" with
  | some failure, _ => return ⟨.failed, timeS, some (messageOf failure), none⟩
  | none, some skipped => return ⟨.notrun, timeS, none, some (messageOf skipped)⟩
  | none, none => return ⟨.passed, timeS, none, none⟩

/-- `list(root.iter("testcase"))`. -/
def cases (root : Element) : List Element :=
  root.iter.filter fun e => decide (e.tag = "testcase")

/-- `tests[name] = rec`. -/
def file (read : String → Option Number) (tests : Dict Rec) (case : Element) :
    Except PyError (Dict Rec) := do
  return Dict.set tests (nameOf case) (← recOf read case)

/-- `int(float(root.get("time") or 0))`. -/
def windowTime (read : String → Option Number) (root : Element) : Except PyError ℤ :=
  let time := (root.get? "time").getD ""
  if time = "" then .ok 0 else intOf read time

/-- `_parse_xunit`, of the root of the report. -/
def parseXunit (read : String → Option Number) (root : Element) :
    Except PyError (Dict Rec × Window) := do
  let timeS ← windowTime read root
  let window : Window :=
    ⟨root.get? "start_timestamp", root.get? "timestamp", root.get? "hostname", timeS⟩
  let tests ← (cases root).foldlM (file read) []
  return (tests, window)

/-! ## The last pass of a test -/

/-- The status a testcase is filed with. -/
def caseStatus (case : Element) : TestStatus :=
  if (find case "failure").isSome then .failed
  else if (find case "skipped").isSome then .notrun
  else .passed

theorem recOf_status {read : String → Option Number} {case : Element} {r : Rec}
    (h : recOf read case = .ok r) : r.status = caseStatus case := by
  obtain ⟨timeS, -, h⟩ := except_bind_ok.mp h
  rw [caseStatus]
  cases hf : find case "failure" with
  | some failure =>
      rw [hf] at h
      cases h
      rfl
  | none =>
      rw [hf] at h
      cases hs : find case "skipped" with
      | some skipped =>
          rw [hs] at h
          cases h
          rfl
      | none =>
          rw [hs] at h
          cases h
          rfl

/-- The status of a test is that of its last testcase. -/
theorem get?_loop {read : String → Option Number} (cs : List Element) {tests tests' : Dict Rec}
    (h : cs.foldlM (file read) tests = .ok tests') (k : String) :
    (Dict.get? tests' k).map Rec.status =
      (((cs.filter fun c => nameOf c = k).map caseStatus).getLast?).or
        ((Dict.get? tests k).map Rec.status) := by
  induction cs generalizing tests with
  | nil =>
      cases h
      rfl
  | cons c cs ih =>
      rw [List.foldlM_cons] at h
      obtain ⟨next, hstep, hrest⟩ := except_bind_ok.mp h
      obtain ⟨r, hr, hnext⟩ := except_bind_ok.mp hstep
      cases hnext
      rw [ih hrest, Dict.get?_set]
      by_cases hk : nameOf c = k
      · have hfilter : (c :: cs).filter (fun c => nameOf c = k) =
            c :: cs.filter fun c => nameOf c = k := List.filter_cons_of_pos (decide_eq_true hk)
        rw [hfilter, List.map_cons, List.getLast?_cons, if_pos hk.symm, Option.map_some,
          recOf_status hr]
        cases ((cs.filter fun c => nameOf c = k).map caseStatus).getLast? <;> rfl
      · have hfilter : (c :: cs).filter (fun c => nameOf c = k) =
            cs.filter fun c => nameOf c = k := List.filter_cons_of_neg (by simpa using hk)
        rw [hfilter, if_neg (Ne.symm hk)]

/-! ## The passes of a report without namespaces -/

/-- No element of the report is in a namespace. -/
def Unqualified (root : Element) : Prop := ∀ e ∈ root.iter, '}' ∉ e.tag.toList

/-- Every testcase has a name. -/
def Named (root : Element) : Prop := ∀ c ∈ cases root, nameOf c ≠ ""

/-- The last pass of every test decides: it failed, or none did, and if it was skipped
then all were. -/
def LastDecides (ps : List Pass) : Prop :=
  ∀ name p, (ofTest ps name).getLast? = some p →
    p.failed = true ∨ ¬ FailedTest ps name ∧
      (p.skipped = true → ∀ q ∈ ps, q.name = name → q.skipped = true)

/-- The statuses filed are those of the rows. -/
def Agrees (tests : Dict Rec) (s : Summary) : Prop :=
  ∀ name status, (∃ r, Dict.get? tests name = some r ∧ r.status = status) ↔
    ∃ row ∈ s.perTest, row.test = name ∧ row.status = status

theorem localName_of_plain {e : Element} (h : '}' ∉ e.tag.toList) : e.localName = e.tag := by
  rw [Element.localName, Text.split_of_not_mem h]
  exact String.ofList_toList

theorem mem_iterAll {e c : Element} {cs : List Element} (hc : c ∈ cs) (he : e ∈ c.iter) :
    e ∈ Element.iterAll cs := by
  induction cs with
  | nil => exact (List.not_mem_nil hc).elim
  | cons c' cs ih =>
      rw [Element.iterAll]
      rcases List.mem_cons.mp hc with rfl | hc
      · exact List.mem_append_left _ he
      · exact List.mem_append_right _ (ih hc)

theorem mem_iter_self (e : Element) : e ∈ e.iter := by
  obtain ⟨tag, attrib, children⟩ := e
  rw [Element.iter]
  exact List.mem_cons_self

mutual
/-- The children of an element that is walked are walked. -/
theorem child_mem_iter {e c : Element} (hc : c ∈ e.children) :
    ∀ root : Element, e ∈ root.iter → c ∈ root.iter
  | .mk tag attrib children => by
      intro he
      rw [Element.iter] at he ⊢
      refine List.mem_cons_of_mem _ ?_
      rcases List.mem_cons.mp he with rfl | he
      · exact mem_iterAll hc (mem_iter_self c)
      · exact child_mem_iterAll hc children he
theorem child_mem_iterAll {e c : Element} (hc : c ∈ e.children) :
    ∀ cs : List Element, e ∈ Element.iterAll cs → c ∈ Element.iterAll cs
  | [] => by
      intro he
      rw [Element.iterAll] at he
      exact (List.not_mem_nil he).elim
  | c' :: cs => by
      intro he
      rw [Element.iterAll] at he ⊢
      rcases List.mem_append.mp he with he | he
      · exact List.mem_append_left _ (child_mem_iter hc c' he)
      · exact List.mem_append_right _ (child_mem_iterAll hc cs he)
end

section
variable {root : Element}

theorem cases_eq (h : Unqualified root) : cases root = testcases root.iter :=
  List.filter_congr fun e he => by rw [localName_of_plain (h e he)]

/-- A testcase is filed with the status of its own pass. -/
theorem caseStatus_eq (h : Unqualified root) {c : Element} (hc : c ∈ cases root) :
    caseStatus c = statusOver [passOf c] := by
  have hfind : ∀ tag, (find c tag).isSome = c.children.any fun e => decide (e.localName = tag) := by
    intro tag
    have hiter := (List.mem_filter.mp hc).1
    have hlocal : ∀ e ∈ c.children, e.localName = e.tag := fun e he =>
      localName_of_plain (h e (child_mem_iter he root hiter))
    rw [find, List.isSome_find?, Bool.eq_iff_iff, List.any_eq_true, List.any_eq_true]
    exact exists_congr fun e => and_congr_right fun he => by rw [hlocal e he]
  rw [caseStatus, hfind, hfind, statusOver, List.any_cons, List.any_nil, List.all_cons,
    List.all_nil, Bool.or_false, Bool.and_true]
  rfl

/-- A name is that of the pass, where there is one. -/
theorem testcaseName_eq {c : Element} (h : nameOf c ≠ "") : testcaseName c = nameOf c := by
  rw [nameOf] at h
  rw [testcaseName, nameOf]
  cases hget : c.get? "name" with
  | none =>
      rw [hget] at h
      exact absurd rfl h
  | some n =>
      rw [hget] at h
      exact if_pos h

theorem testcaseName_ne (c : Element) : testcaseName c ≠ "" := by
  have hor : ∀ n d : String, d ≠ "" → (if n ≠ "" then n else d) ≠ "" := by
    intro n d hd
    by_cases hn : n ≠ ""
    · rwa [ne_eq, if_pos hn]
    · rwa [if_neg hn]
  have hclass : testcaseName.classname c ≠ "" := by
    rw [testcaseName.classname]
    cases c.get? "classname" with
    | none => decide
    | some n => exact hor n "?" (by decide)
  rw [testcaseName]
  cases c.get? "name" with
  | none => exact hclass
  | some n => exact hor n _ hclass

/-- The statuses filed under a name are those of the passes of that test. -/
theorem statuses_eq (h : Unqualified root) (hnamed : Named root) (k : String) :
    ((cases root).filter fun c => nameOf c = k).map caseStatus =
      (ofTest (passes root.iter) k).map fun p => statusOver [p] := by
  rw [ofTest, passes, ← cases_eq h, List.filter_map, List.map_map]
  have hfilter : (cases root).filter (fun c => nameOf c = k) =
      (cases root).filter ((fun p : Pass => decide (p.name = k)) ∘ passOf) :=
    List.filter_congr fun c hc => by
      rw [Function.comp_apply, passOf, testcaseName_eq (hnamed c hc)]
  rw [hfilter]
  exact List.map_congr_left fun c hc => caseStatus_eq h (List.mem_filter.mp hc).1

end

/-! ## Where the two agree -/

/-- The last pass gives the status of all exactly when it decides. -/
theorem statusOver_last_iff {ps : List Pass} {p : Pass} (hp : p ∈ ps) :
    statusOver [p] = statusOver ps ↔
      p.failed = true ∨ ps.any Pass.failed = false ∧
        (p.skipped = true → ps.all Pass.skipped = true) := by
  have hfail : p.failed = true → ps.any Pass.failed = true := fun h =>
    List.any_eq_true.mpr ⟨p, hp, h⟩
  have hskip : ps.all Pass.skipped = true → p.skipped = true := fun h =>
    List.all_eq_true.mp h p hp
  simp only [statusOver, List.any_cons, List.any_nil, List.all_cons, List.all_nil,
    Bool.or_false, Bool.and_true]
  revert hfail hskip
  cases p.failed <;> cases p.skipped <;> cases ps.any Pass.failed <;>
    cases ps.all Pass.skipped <;> simp

theorem lastDecides_iff (ps : List Pass) :
    LastDecides ps ↔ ∀ name p, (ofTest ps name).getLast? = some p →
      statusOver [p] = statusOver (ofTest ps name) := by
  refine forall_congr' fun name => forall_congr' fun p => forall_congr' fun hlast => ?_
  rw [statusOver_last_iff (List.mem_of_getLast? hlast)]
  refine or_congr_right (and_congr ?_ (imp_congr_right fun _ => ?_))
  · rw [← Bool.not_eq_true, not_iff_not, List.any_eq_true]
    simp only [ofTest, List.mem_filter, decide_eq_true_eq, and_assoc, FailedTest]
  · rw [List.all_eq_true]
    simp only [ofTest, List.mem_filter, decide_eq_true_eq, and_imp]

/-- The tests of the rows, with the statuses of their passes. -/
theorem row_iff {read : String → Option Number} {cs : List Element} {base s : Summary}
    (h : summarize (tally read cs) base = .ok s) (name : String) (status : TestStatus) :
    (∃ row ∈ s.perTest, row.test = name ∧ row.status = status) ↔
      ofTest (passes cs) name ≠ [] ∧ statusOver (ofTest (passes cs) name) = status := by
  have hran : ofTest (passes cs) name ≠ [] ↔ Ran (passes cs) name := by
    rw [ne_eq, ofTest, List.filter_eq_nil_iff]
    simp only [decide_eq_true_eq, Ran]
    exact ⟨fun hne => by simpa using hne, fun hex => by simpa using hex⟩
  rw [hran, ← mem_perTest_iff h]
  constructor
  · rintro ⟨row, hrow, rfl, rfl⟩
    exact ⟨List.mem_map_of_mem hrow, (congrArg Verdict.status (verdict_of_mem h hrow)).symm⟩
  · rintro ⟨hmem, hstatus⟩
    obtain ⟨row, hrow, rfl⟩ := List.mem_map.mp hmem
    exact ⟨row, hrow, rfl, (congrArg Verdict.status (verdict_of_mem h hrow)).trans hstatus⟩

/-- A first pass that failed, of the test the second pass of which passed. -/
def flakedFirst : Element :=
  .mk "testcase" [("name", "generic/001"), ("time", "1")] [.mk "failure" [] []]

/-- A second pass. -/
def secondPass : Element := .mk "testcase" [("name", "generic/001"), ("time", "1")] []

/-- The report of two passes. -/
def twoPass (first second : Element) : Element := .mk "testsuite" [] [first, second]

/-- `float`, of the one time the samples have. -/
def sampleFloat (text : String) : Option Number := if text = "1" then some (.finite 1) else none

/-- The two readers, on the samples. -/
def compared (root : Element) : Except PyError (Dict Rec × Window) := parseXunit sampleFloat root
def collected (root : Element) : Except PyError Summary :=
  Fstests.parseXunit ⟨fun _ => none, fun _ => false⟩ sampleFloat ["r"] ⟨.document root, []⟩

/-- Both return on two passes in a second each. -/
theorem twoPass_returns (first second : Element)
    (hcases : (testcases (twoPass first second).iter).all (timeFinite sampleFloat) = true)
    (hfiled : ((cases (twoPass first second)).foldlM (file sampleFloat) []).isOk = true) :
    ∃ s tests window, collected (twoPass first second) = .ok s ∧
      compared (twoPass first second) = .ok (tests, window) := by
  obtain ⟨s, hs⟩ := (parseXunit_returns_iff ⟨fun _ => none, fun _ => false⟩ sampleFloat ["r"]
    ⟨.document (twoPass first second), []⟩).mpr (List.all_eq_true.mp hcases)
  cases htests : (cases (twoPass first second)).foldlM (file sampleFloat) [] with
  | error e =>
      rw [htests] at hfiled
      cases hfiled
  | ok tests => exact ⟨s, tests, _, hs, except_bind_ok.mpr ⟨0, rfl, except_bind_ok.mpr
      ⟨tests, htests, rfl⟩⟩⟩

end KdevopsNg.Fstests.Compare
