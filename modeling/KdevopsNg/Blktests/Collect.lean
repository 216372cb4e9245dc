/-
# `Blktests.Collect` — the result files of a group, and its verdict

`main` of `f/blktests/collect.py`, with what it uses of `f/blktests/common.py`:
where the results of a kernel lie on the share (`resultsDir`), the rows of a
group (`collectGroupRows`), one for each file

    results/<devdir>/<group>/<nnn>

whose name is three digits, read as the TSV file `./check` writes
(`parseSeqres`), and the verdict they and the outcome of the unit give
(`groupStatus`).

The rows are told by what is at each path (`mem_collectGroupRows`,
`collectGroupRows_congr`), a row by its device directory and test
(`collectGroupRows_keys`).
-/
import KdevopsNg.Fstests.Config
import KdevopsNg.Py.Sort
import KdevopsNg.Suites.Report
import KdevopsNg.Sys.Trees

namespace KdevopsNg.Blktests

open Py Sys
open Suites (Status)

/-! ## Where the results lie -/

/-- `share_dir`. -/
def shareDir (host : Kernel.Host) (vmName : String) : Except PyError Path :=
  Kernel.suiteShareDir host "blktests" vmName

/-- `_safe_kver`. -/
def safeKver (kernelVersion : String) : Except PyError String := Fstests.safeKver kernelVersion

/-- `_safe_group`. -/
def safeGroup (group : String) : Except PyError String :=
  let g := Text.strip group.toList
  if g = [] ∨ '/' ∈ g ∨ g = ".".toList ∨ g = "..".toList then
    .error (.valueError ("invalid group " ++ Text.repr group ++ "; expected a blktests group name"))
  else .ok (String.ofList g)

/-- `results_dir`. -/
def resultsDir (host : Kernel.Host) (vmName kernelVersion : String) : Except PyError Path := do
  let base ← shareDir host vmName
  let kv ← safeKver kernelVersion
  let path := Text.walk base [kv, "results"]
  if Text.below base path then return path
  else .error (.valueError ("kernel_version " ++ Text.repr kernelVersion ++ " resolves outside " ++
    "/" ++ Text.join "/" base))

/-! ## A result file -/

/-- `line.partition("\t")`, where the line has a tab. -/
def partitionTab (line : List Char) : Option (List Char × List Char) :=
  if '\t' ∈ line then
    some (line.takeWhile (· ≠ '\t'), (line.dropWhile (· ≠ '\t')).tail)
  else none

/-- The key and the value of a line. -/
def seqresLine (line : List Char) : Option (String × String) :=
  match partitionTab line with
  | none => none
  | some (key, value) =>
      if Text.strip key = [] then none
      else some (String.ofList (Text.strip key), String.ofList (Text.strip value))

/-- `parse_seqres`. -/
def parseSeqres (text : String) : Dict String :=
  let out := (Text.splitlines text.toList).foldl (fun out line => match seqresLine line with
    | none => out
    | some (key, value) => Dict.set out key value) []
  if Dict.contains out "status" then out else Dict.set out "status" "missing"

/-- `_RUNTIME_RE`: an integer or a decimal, and an `s` that may be missing. -/
def runtimeNumber (value : List Char) : Option ℚ :=
  let whole := value.takeWhile Char.isDigit
  let number (digits : List Char) : ℚ := Nat.ofDigitChars 10 digits 0
  if whole = [] then none
  else match value.dropWhile Char.isDigit with
    | [] | ['s'] => some (number whole)
    | '.' :: rest =>
        let decimals := rest.takeWhile Char.isDigit
        if decimals ≠ [] ∧ (rest.dropWhile Char.isDigit = [] ∨ rest.dropWhile Char.isDigit = ['s'])
        then some (number whole + number decimals / 10 ^ decimals.length)
        else none
    | _ => none

/-- `runtime_seconds`. -/
def runtimeSeconds (value : String) : Option ℚ := runtimeNumber (Text.strip value.toList)

/-- `_TEST_NUM_RE.match(name)`: three digits, and `$` also before a final newline. -/
def testNum (name : String) : Bool :=
  match name.toList with
  | [a, b, c] | [a, b, c, '\n'] => a.isDigit && b.isDigit && c.isDigit
  | _ => false

/-- A row of a group. -/
structure Row where
  devdir : String
  test : String
  status : String
  reason : String
  runtime : Option ℚ
  deriving DecidableEq, Repr

/-- The device directory and the test a row is keyed by. -/
def Row.key (r : Row) : String × String := (r.devdir, r.test)

/-- The row of a result file, none for one that does not read. -/
def rowOf (devdir g name : String) (text : Option String) : Row :=
  let seqres := match text with
    | some text => parseSeqres text
    | none => [("status", "missing")]
  { devdir := devdir
    test := g ++ "/" ++ name
    status := (Dict.get? seqres "status").getD "missing"
    reason := (Dict.get? seqres "reason").getD ""
    runtime := runtimeSeconds ((Dict.get? seqres "runtime").getD "") }

/-! ## The rows of a group -/

section
variable (denied : Path → Bool) (fs : Files) (root : Path)

/-- `entry.read_text()`, none where it raises. -/
def readText (p : Path) : Option String := if denied p then none else fs.read? p

/-- `sorted(p for p in root.iterdir() if p.is_dir())`. -/
def devdirs : List String := fs.glob root fun name => fs.isDir (root ++ [name])

/-- The result files of a group in a device directory. -/
def resultFiles (dir : Path) : List String :=
  fs.glob dir fun name => fs.isFile (dir ++ [name]) && testNum name

/-- The rows of a group in a device directory. -/
def devdirRows (g devdir : String) : List Row :=
  if fs.isDir (root ++ [devdir, g]) then
    (resultFiles fs (root ++ [devdir, g])).map fun name =>
      rowOf devdir g name (readText denied fs (root ++ [devdir, g, name]))
  else []

/-- `collect_group_rows`. -/
def collectGroupRows (group : String) : Except PyError (List Row) := do
  let g ← safeGroup group
  if !fs.isDir root then return []
  return (devdirs fs root).flatMap (devdirRows denied fs root g)

end

/-! ## The verdict -/

/-- `group_status`. -/
def groupStatus (rows : List Row) (unitOk crashed timedOut : Bool) : Status :=
  if crashed || timedOut || !unitOk then .failed
  else if rows = [] then .notrun
  else if rows.any fun r => r.status ≠ "pass" && r.status ≠ "not run" then .failed
  else if rows.all fun r => r.status = "not run" then .notrun
  else .passed

/-- `_RANK`. -/
def ranks : Dict ℕ := [("fail", 0), ("missing", 1), ("not run", 2), ("pass", 3)]

/-- The counts of a group. -/
structure Stats where
  pass : ℕ
  fail : ℕ
  notrun : ℕ
  deriving DecidableEq, Repr

/-- What the unit of a group ended with. -/
structure Outcome where
  unitOk : Bool
  crashed : Bool
  timedOut : Bool
  startedMs : Option ℤ
  endedMs : Option ℤ

/-- What the step returns. -/
structure GroupResult where
  group : String
  vmName : String
  kernelVersion : String
  status : Status
  outcome : Outcome
  rows : List Row
  stats : Stats

/-- `main`. -/
def collect (host : Kernel.Host) (denied : Path → Bool) (fs : Files)
    (vmName group kernelVersion : String) (o : Outcome) : Except PyError GroupResult := do
  let root ← resultsDir host vmName kernelVersion
  let found ← collectGroupRows denied fs root group
  let rows := sortBy
    (fun r => toLex ((Dict.get? ranks r.status).getD 0, toLex (r.devdir, r.test))) found
  return {
    group := group, vmName := vmName, kernelVersion := kernelVersion
    status := groupStatus rows o.unitOk o.crashed o.timedOut
    outcome := o
    rows := rows
    stats := {
      pass := rows.countP fun r => r.status = "pass"
      fail := rows.countP fun r => r.status ≠ "pass" && r.status ≠ "not run"
      notrun := rows.countP fun r => r.status = "not run" } }

/-! ## What the rows are -/

section
variable {denied : Path → Bool} {fs fs' : Files} {root : Path} {g : String}

/-- Without the directory there is none in it. -/
theorem devdirs_eq_nil (h : fs.isDir root = false) : devdirs fs root = [] := by
  rw [List.eq_nil_iff_forall_not_mem]
  intro devdir hmem
  have hdir := Files.mem_glob_isDir.mp hmem
  have habove : fs.isDir root = true := by
    have hlt : root.length < (root ++ [devdir]).length := by simp
    rw [Files.isDir_iff] at hdir ⊢
    rcases hdir with hdir | ⟨q, hq, hbelow⟩
    · exact .inr ⟨_, List.mem_append_right _ hdir,
        Files.below_iff_prefix.mpr ⟨List.prefix_append _ _, hlt⟩⟩
    · rw [Files.below_iff_prefix] at hbelow
      exact .inr ⟨q, hq, Files.below_iff_prefix.mpr
        ⟨(List.prefix_append _ _).trans hbelow.1, hlt.trans hbelow.2⟩⟩
  rw [h] at habove
  cases habove

theorem collectGroupRows_eq {group : String} (h : safeGroup group = .ok g) :
    collectGroupRows denied fs root group =
      .ok ((devdirs fs root).flatMap (devdirRows denied fs root g)) := by
  rw [collectGroupRows, h]
  cases hroot : fs.isDir root with
  | true => rfl
  | false =>
      rw [devdirs_eq_nil hroot]
      rfl

theorem mem_resultFiles {devdir name : String} :
    name ∈ resultFiles fs (root ++ [devdir, g]) ↔
      fs.isFile (root ++ [devdir, g, name]) = true ∧ testNum name = true := by
  rw [resultFiles, Files.mem_glob_isFile, List.append_assoc]
  rfl

/-- A row for each file of the group whose name is a test number. -/
theorem mem_rows {r : Row} :
    r ∈ (devdirs fs root).flatMap (devdirRows denied fs root g) ↔
      ∃ devdir name, fs.read? (root ++ [devdir, g, name]) ≠ none ∧ testNum name = true ∧
        r = rowOf devdir g name (readText denied fs (root ++ [devdir, g, name])) := by
  have hsnoc : ∀ a b c, root ++ [a, b, c] = root ++ [a] ++ [b] ++ [c] := by simp
  rw [List.mem_flatMap]
  constructor
  · rintro ⟨devdir, -, hr⟩
    rw [devdirRows] at hr
    split_ifs at hr
    · obtain ⟨name, hname, rfl⟩ := List.mem_map.mp hr
      rw [mem_resultFiles, Files.isFile_iff] at hname
      exact ⟨devdir, name, hname.1, hname.2, rfl⟩
    · cases hr
  · rintro ⟨devdir, name, hread, hnum, rfl⟩
    have hbelow : Text.below (root ++ [devdir, g]) (root ++ [devdir, g, name]) = true := by
      rw [Text.below_iff]
      exact ⟨name, [], by simp⟩
    have hbelow' : Text.below (root ++ [devdir]) (root ++ [devdir, g, name]) = true := by
      rw [Text.below_iff]
      exact ⟨g, [name], by simp⟩
    refine ⟨devdir, Files.mem_glob_isDir.mpr (Files.isDir_of_below hread hbelow'), ?_⟩
    rw [devdirRows, if_pos (Files.isDir_of_below hread hbelow)]
    exact List.mem_map_of_mem (mem_resultFiles.mpr ⟨Files.isFile_iff.mpr hread, hnum⟩)

/-- A group's rows are told by the directories and files they are read from. -/
theorem rows_congr (hdev : ∀ devdir, fs'.isDir (root ++ [devdir]) = fs.isDir (root ++ [devdir]))
    (hgroup : ∀ devdir, fs'.isDir (root ++ [devdir, g]) = fs.isDir (root ++ [devdir, g]))
    (hfile : ∀ devdir name, fs'.read? (root ++ [devdir, g, name]) =
      fs.read? (root ++ [devdir, g, name])) :
    (devdirs fs' root).flatMap (devdirRows denied fs' root g) =
      (devdirs fs root).flatMap (devdirRows denied fs root g) := by
  have hdevdirs : devdirs fs' root = devdirs fs root :=
    Files.glob_congr fun name => by rw [Files.mem_glob_isDir, Files.mem_glob_isDir, hdev]
  have hfiles : ∀ devdir, resultFiles fs' (root ++ [devdir, g]) =
      resultFiles fs (root ++ [devdir, g]) := by
    intro devdir
    refine Files.glob_congr fun name => ?_
    have hiff : name ∈ resultFiles fs' (root ++ [devdir, g]) ↔
        fs'.isFile (root ++ [devdir, g, name]) = true ∧ testNum name = true := mem_resultFiles
    rw [Files.isFile, hfile] at hiff
    exact hiff.trans mem_resultFiles.symm
  rw [hdevdirs]
  refine congrArg (fun f => (devdirs fs root).flatMap f) (funext fun devdir => ?_)
  simp only [devdirRows, hgroup, hfiles, readText, hfile]

theorem rowOf_key (devdir g name : String) (text : Option String) :
    (rowOf devdir g name text).key = (devdir, g ++ "/" ++ name) := by
  cases text <;> rfl

/-- No two rows are of one device directory and test. -/
theorem rows_nodup : (((devdirs fs root).flatMap (devdirRows denied fs root g)).map Row.key).Nodup := by
  rw [List.map_flatMap, List.nodup_flatMap]
  have hkeys : ∀ devdir, (devdirRows denied fs root g devdir).map Row.key =
      if fs.isDir (root ++ [devdir, g]) then
        (resultFiles fs (root ++ [devdir, g])).map fun name => (devdir, g ++ "/" ++ name)
      else [] := by
    intro devdir
    rw [devdirRows]
    split_ifs
    · rw [List.map_map]
      exact List.map_congr_left fun name _ => rowOf_key _ _ _ _
    · rfl
  constructor
  · intro devdir _
    rw [hkeys]
    split_ifs
    · refine (Files.glob_nodup _ _ _).map fun name name' heq => ?_
      exact String.append_right_inj (g ++ "/") |>.mp (Prod.mk.inj heq).2
    · exact List.nodup_nil
  · refine (Files.glob_nodup fs root _).imp fun {a b} hne => ?_
    intro key ha hb
    have hdev : ∀ {devdir : String}, key ∈ (devdirRows denied fs root g devdir).map Row.key →
        key.1 = devdir := by
      intro devdir hkey
      rw [hkeys] at hkey
      split_ifs at hkey
      · obtain ⟨name, -, rfl⟩ := List.mem_map.mp hkey
        rfl
      · cases hkey
    exact hne ((hdev ha).symm.trans (hdev hb))

/-! ## What the verdict is -/

/-- A group passed when its unit ended well and its rows prove something. -/
theorem groupStatus_passed_iff (rows : List Row) (unitOk crashed timedOut : Bool) :
    groupStatus rows unitOk crashed timedOut = .passed ↔
      unitOk = true ∧ crashed = false ∧ timedOut = false ∧
        (∀ r ∈ rows, r.status = "pass" ∨ r.status = "not run") ∧ ∃ r ∈ rows, r.status = "pass" := by
  have hclean : (crashed || timedOut || !unitOk) = false ↔
      unitOk = true ∧ crashed = false ∧ timedOut = false := by
    cases unitOk <;> cases crashed <;> cases timedOut <;> decide
  have hbad : (rows.any fun r => r.status ≠ "pass" && r.status ≠ "not run") = false ↔
      ∀ r ∈ rows, r.status = "pass" ∨ r.status = "not run" := by
    simp [List.any_eq_false, or_iff_not_imp_left]
  rw [groupStatus]
  cases hended : crashed || timedOut || !unitOk with
  | true =>
      rw [if_pos rfl]
      refine iff_of_false (by decide) fun ⟨hok, hc, ht, _⟩ => ?_
      rw [hclean.mpr ⟨hok, hc, ht⟩] at hended
      cases hended
  | false =>
      obtain ⟨hok, hc, ht⟩ := hclean.mp hended
      rw [if_neg Bool.false_ne_true]
      by_cases hnil : rows = []
      · rw [if_pos hnil, hnil]
        exact iff_of_false (by decide) fun ⟨_, _, _, _, r, hr, _⟩ => List.not_mem_nil hr
      · rw [if_neg hnil]
        cases hfail : rows.any fun r => r.status ≠ "pass" && r.status ≠ "not run" with
        | true =>
            rw [if_pos rfl]
            refine iff_of_false (by decide) fun ⟨_, _, _, hall, _⟩ => ?_
            rw [hbad.mpr hall] at hfail
            cases hfail
        | false =>
            rw [if_neg Bool.false_ne_true]
            have hall := hbad.mp hfail
            cases hnone : rows.all fun r => r.status = "not run" with
            | true =>
                rw [if_pos rfl]
                refine iff_of_false (by decide) fun ⟨_, _, _, _, r, hr, hpass⟩ => ?_
                have hnotrun := of_decide_eq_true (List.all_eq_true.mp hnone r hr)
                rw [hpass] at hnotrun
                revert hnotrun
                decide
            | false =>
                rw [if_neg Bool.false_ne_true]
                obtain ⟨r, hr, hran⟩ := List.all_eq_false.mp hnone
                have hpass := (hall r hr).resolve_right fun h => hran (decide_eq_true h)
                exact iff_of_true rfl ⟨hok, hc, ht, hall, r, hr, hpass⟩

/-- Each row is counted once. -/
theorem counts_partition (rows : List Row) :
    (rows.countP fun r => r.status = "pass") +
      (rows.countP fun r => r.status ≠ "pass" && r.status ≠ "not run") +
        (rows.countP fun r => r.status = "not run") = rows.length := by
  induction rows with
  | nil => rfl
  | cons r rows ih =>
      rw [List.countP_cons, List.countP_cons, List.countP_cons, List.length_cons, ← ih]
      by_cases hpass : r.status = "pass"
      · simp [hpass]
        omega
      · by_cases hnotrun : r.status = "not run"
        · simp [hnotrun]
          omega
        · simp [hpass, hnotrun]
          omega

end

end KdevopsNg.Blktests
