/-
# `Fstests.Config` — a section's directories, config and geometry

The host end of the `fstests` share, from `f/fstests/common.py`: where a
section's results lie (`section_results_dir`, which refuses a name that leads
out of the kernel's directory), the variables of its rendered config
(`section_vars`), the geometry configured there (`section_config`) and the one
the run realized (`read_section_geometry`, `parse_xfs_info`).

The regular expressions are written out as scans of a character list.
-/
import KdevopsNg.Kernel.Verdict

namespace KdevopsNg.Fstests

open Py

/-! ## Directories -/

/-- `share_dir`: the VM's directory on the `fstests` share. -/
def shareDir (host : Kernel.Host) (vmName : String) : Except PyError Path :=
  Kernel.suiteShareDir host "fstests" vmName

/-- `_safe_kver`. -/
def safeKver (kernelVersion : String) : Except PyError String :=
  let kv := Text.strip kernelVersion.toList
  if kv = [] ∨ '/' ∈ kv ∨ kv = ".".toList ∨ kv = "..".toList then
    .error (.valueError ("invalid kernel_version " ++ Text.repr kernelVersion ++
      "; expected a `uname -r` value (discover returns it as kernel_version)"))
  else .ok (String.ofList kv)

/-- `section_results_dir`. -/
def sectionResultsDir (host : Kernel.Host) (vmName kernelVersion sectionName : String) :
    Except PyError Path := do
  let kv ← safeKver kernelVersion
  let share ← shareDir host vmName
  let base := Text.walk share [kv, "results"]
  let path := Text.resolve base sectionName
  if path ≠ base ∧ ¬ Text.below base path then
    .error (.valueError ("section " ++ Text.repr sectionName ++ " / kver " ++
      Text.repr kernelVersion ++ " resolves outside " ++ "/" ++ Text.join "/" base))
  else return path

/-! ## The config -/

/-- `_SECTION_RE`: the name between a leading `[` and the next `]`. -/
def sectionHeader : List Char → Option (List Char)
  | '[' :: cs =>
      let name := cs.takeWhile (· ≠ ']')
      if name ≠ [] ∧ (cs.dropWhile (· ≠ ']')) ≠ [] then some name else none
  | _ => none

/-- `parse_sections`. -/
def parseSections (text : String) : List (List Char) :=
  (Text.splitlines text.toList).foldl (fun seen line =>
    match sectionHeader (Text.strip line) with
    | some h =>
        let name := Text.strip h
        if name ≠ [] ∧ name ∉ seen then seen ++ [name] else seen
    | none => seen) []

/-- `_strip_quotes`. -/
def stripQuotes (value : List Char) : List Char :=
  let v := Text.strip value
  if 2 ≤ v.length ∧ v.head? = v.getLast? ∧ (v.head? = some '\'' ∨ v.head? = some '"') then
    v.tail.dropLast
  else v

/-- `section_vars`, line by line: the section the line is in, and the variables
so far. -/
def sectionVarsStep (hasSections : Bool) (sectionName : String)
    (acc : Option (List Char) × Dict String) (raw : List Char) :
    Option (List Char) × Dict String :=
  let line := Text.strip raw
  if line = [] ∨ line.head? = some '#' then acc
  else match sectionHeader line with
    | some h => (some (Text.strip h), acc.2)
    | none =>
        if '=' ∉ line then acc
        else
          let key := Text.strip (line.takeWhile (· ≠ '='))
          let value := stripQuotes (line.dropWhile (· ≠ '=')).tail
          if key = [] then acc
          else if (!hasSections && acc.1.isNone) || acc.1 = some sectionName.toList then
            (acc.1, Dict.set acc.2 (String.ofList key) (String.ofList value))
          else acc

/-- `section_vars`. -/
def sectionVars (text sectionName : String) : Dict String :=
  ((Text.splitlines text.toList).foldl
    (sectionVarsStep (!(parseSections text).isEmpty) sectionName) (none, [])).2

/-- `-<flag>\s+size=(\d+)` at the head of a text. -/
def optionSizeHere (u : Unicode) (flag : Char) : List Char → Option ℕ
  | '-' :: f :: c :: cs =>
      let rest := cs.dropWhile Text.isSpace
      if f = flag ∧ Text.isSpace c ∧ "size=".toList.isPrefixOf rest then
        Text.leadingNat u (rest.drop 5)
      else none
  | _ => none

/-- The first match of `-<flag>\s+size=(\d+)` in a text. -/
def optionSize (u : Unicode) (flag : Char) : List Char → Option ℕ
  | [] => none
  | c :: cs => (optionSizeHere u flag (c :: cs)).or (optionSize u flag cs)

/-- The `MKFS_OPTIONS` of a section. -/
def mkfsOptions (text sectionName : String) : String :=
  (Dict.get? (sectionVars text sectionName) "MKFS_OPTIONS").getD ""

/-- `section_block_block_size`. -/
def sectionBlockBlockSize (u : Unicode) (text sectionName : String) : ℕ :=
  (optionSize u 'b' (mkfsOptions text sectionName).toList).getD 4096

/-- `section_sector_size`. -/
def sectionSectorSize (u : Unicode) (text sectionName : String) : Option ℕ :=
  optionSize u 's' (mkfsOptions text sectionName).toList

/-- A text file of the share: absent, not decodable, or its text. -/
inductive TextFile where
  | absent
  | undecodable
  | text (s : String)
  deriving DecidableEq, Repr

/-- `section_config`. -/
def sectionConfig (u : Unicode) (file : TextFile) (sectionName : String) :
    Except PyError (Dict Json) :=
  match file with
  | .absent => .ok []
  | .undecodable => .error .unicodeDecodeError
  | .text text =>
      let v := sectionVars text sectionName
      let var (k : String) : Json := .str ((Dict.get? v k).getD "")
      .ok [("fstype", var "FSTYP"), ("mkfs_options", var "MKFS_OPTIONS"),
        ("mount_options", var "MOUNT_OPTIONS"),
        ("bsize", .num (sectionBlockBlockSize u text sectionName)),
        ("sectsize", match sectionSectorSize u text sectionName with
          | some n => .num n
          | none => .null)]

/-! ## The realized geometry -/

/-- Where a scan for `key=value` tokens stands: in a key, or in a value. -/
inductive TokenState where
  | key (word : List Char)
  | value (key word : List Char)

/-- The matches of `([\w-]+)=([^\s,]+)` in a text, from where the scan stands. -/
def xfsTokens (u : Unicode) : TokenState → List Char → List (String × String)
  | .key _, [] => []
  | .value k v, [] => if v = [] then [] else [(String.ofList k, String.ofList v)]
  | .key w, c :: cs =>
      if u.isWord c ∨ c = '-' then xfsTokens u (.key (w ++ [c])) cs
      else if c = '=' ∧ w ≠ [] then xfsTokens u (.value w []) cs
      else xfsTokens u (.key []) cs
  | .value k v, c :: cs =>
      if Text.isSpace c ∨ c = ',' then
        (if v = [] then [] else [(String.ofList k, String.ofList v)]) ++ xfsTokens u (.key []) cs
      else xfsTokens u (.value k (v ++ [c])) cs

/-- `parse_xfs_info`. -/
def parseXfsInfo (u : Unicode) (text : String) : Dict String :=
  (xfsTokens u (.key []) text.toList).foldl (fun out p => Dict.set out p.1 p.2) []

/-- A section's `geometry.json`: absent, not decodable, not JSON, or its value. -/
inductive JsonFile where
  | absent
  | undecodable
  | notJson
  | json (v : Json)

/-- `read_section_geometry`: a file that is no JSON object counts as none. -/
def readSectionGeometry : JsonFile → Except PyError (Dict Json)
  | .undecodable => .error .unicodeDecodeError
  | .json (.obj kvs) => .ok kvs
  | _ => .ok []

/-- The geometry of a section: what its config says, and under it what the run
realized. -/
def mergeGeometry (u : Unicode) (geometry realized : Dict Json) : Except PyError (Dict Json) :=
  if realized = [] then .ok geometry
  else do
    let devices := ((Dict.get? realized "devices").getD .null).orElse (.obj [])
    let geometry := Dict.set geometry "devices" devices
    let geometry := Dict.set geometry "mkfs" ((Dict.get? realized "mkfs_options").getD (.str ""))
    let geometry := Dict.set geometry "mount" ((Dict.get? realized "mount_options").getD (.str ""))
    let testDev ← devices.getD "TEST_DEV" .null
    let testXfsInfo ← (testDev.orElse (.obj [])).getD "xfs_info" (.str "")
    if testXfsInfo.truthy then
      match testXfsInfo with
      | .str text =>
          let features := Json.obj ((parseXfsInfo u text).map fun p => (p.1, .str p.2))
          return Dict.set (Dict.set geometry "features" features) "xfs_info" testXfsInfo
      | _ => .error .typeError
    else return geometry

end KdevopsNg.Fstests
