/-
# `Fstests.Render` — what a render writes

The texts `f/fstests/render_config.py` lays down, and the choices it makes
before it touches a file (`plan`):

    available   the sections the config declares
    selected    the ones asked for, of those
    armed       the available ones (or only the selected), less the skipped
    run         the armed ones that were selected

A section is skipped when the discovered devices cannot carry it
(`skipReason`).  Each armed one gets its own block of the config, the devices
filled in (`injectDeviceBase`), and an environment file that names that config
(`renderSectionEnv`).
-/
import KdevopsNg.Fstests.Catalog
import KdevopsNg.Fstests.Config
import KdevopsNg.Py.Template

namespace KdevopsNg.Fstests

open Py

/-- A discovered block device. -/
structure Device where
  name : String
  logSec : Option ℤ
  deriving DecidableEq, Repr

/-- The arguments of a render. -/
structure RenderArgs where
  vmName : String
  kernelVersion : String
  localConfig : String
  sections : List String
  cleanResults : Bool
  logwrites : Bool
  devices : List Device
  testSelection : String
  groups : List String
  excludeGroup : String
  exclude : String
  report : String
  randomize : Bool
  tests : String
  iterations : ℤ
  loopOnFail : ℤ
  stopOnFail : Bool
  testTimeout : ℤ
  testTimeouts : Dict ℤ
  recreateTestDev : Bool
  armAllSections : Bool
  deriving DecidableEq, Repr

/-! ## The block of a section -/

/-- The lines of a section, `grabbing` while its block lasts. -/
def grabBlock (name : List Char) : Bool → List (List Char) → List (List Char)
  | _, [] => []
  | grabbing, line :: lines =>
      match sectionHeader (Text.strip line) with
      | some h =>
          if grabbing then []
          else if Text.strip h = name then line :: grabBlock name true lines
          else grabBlock name false lines
      | none =>
          if grabbing then line :: grabBlock name true lines else grabBlock name false lines

/-- `section_block`. -/
def sectionBlock (text sectionName : String) : String :=
  match grabBlock sectionName.toList false (Text.splitlines text.toList) with
  | [] => ""
  | lines =>
      String.ofList (Text.rstripBy Text.isSpace
        (Text.join "\n" (lines.map String.ofList)).toList) ++ "\n"

/-- `section_is_v4`. -/
def sectionIsV4 (block sectionName : String) : Bool :=
  Text.isInfix "crc=0".toList (mkfsOptions block sectionName).toList

/-! ## Devices -/

/-- `device_sector`. -/
def deviceSector (devices : List Device) : ℤ :=
  match devices.filterMap Device.logSec with
  | [] => 512
  | n :: ns => ns.foldl max n

/-- `EXTERNAL_DEV_KEYS`. -/
def externalDevKeys : List String := ["TEST_RTDEV", "SCRATCH_RTDEV", "TEST_LOGDEV", "SCRATCH_LOGDEV"]

/-- `_EMPTY_DEV_RES[key]` at the head of a text: the match and the text after it.
The last `\s*` gives back what follows the last newline it took, unless it
reached the end. -/
def emptyDevHere (key : String) (cs : List Char) : Option (List Char × List Char) :=
  let indent := cs.takeWhile Text.isSpace
  let body := cs.dropWhile Text.isSpace
  let head := key.toList ++ ['=']
  let blank := (body.drop head.length).takeWhile Text.isSpace
  let rest := (body.drop head.length).dropWhile Text.isSpace
  if !head.isPrefixOf body then none
  else if rest = [] then some (indent ++ head ++ blank, [])
  else if '\n' ∈ blank then
    let last := Text.afterLast '\n' blank
    some (indent ++ head ++ blank.take (blank.length - last.length - 1), '\n' :: last ++ rest)
  else none

/-- `_EMPTY_DEV_RES[key]` anywhere in a text: what is before the first match, the
match and what is after; `atStart` where a line begins. -/
def findEmptyDev (key : String) :
    Bool → List Char → Option (List Char × List Char × List Char)
  | _, [] => none
  | atStart, c :: cs =>
      match if atStart then emptyDevHere key (c :: cs) else none with
      | some (m, rest) => some ([], m, rest)
      | none => (findEmptyDev key (decide (c = '\n')) cs).map fun r => (c :: r.1, r.2)

/-- `section_external_devs`. -/
def sectionExternalDevs (block : String) : List String :=
  externalDevKeys.filter fun key => (findEmptyDev key true block.toList).isSome

/-- `_EMPTY_DEV_RES[key].sub(f"{key}={device}", body, count=1)`. -/
def fillEmptyDev (body : String) (fill : String × String) : Except PyError String :=
  match findEmptyDev fill.1 true body.toList with
  | none => .ok body
  | some (before, m, after) =>
      match Text.expandTemplate m (fill.1 ++ "=" ++ fill.2).toList with
      | some text => .ok (String.ofList (before ++ text ++ after))
      | none => .error .reError

/-- A device line, and the key that keeps it out of a block that has it. -/
structure BaseLine where
  key : String
  value : String

/-- `key in block`. -/
def hasKey (block key : String) : Bool := Text.isInfix (key ++ "=").toList block.toList

/-- The body with the base lines it has no key of. -/
def addBase (block body : String) (base : List BaseLine) : String :=
  match base.filter fun l => !hasKey block l.key with
  | [] => body ++ "\n"
  | added => body ++ "\n" ++ Text.join "\n" (added.map fun l => l.key ++ "=" ++ l.value) ++ "\n"

/-- `needs >= n devices …`, the way `inject_device_base` says it. -/
def needDevices (need : ℕ) (extra : String) (got : ℕ) : PyError :=
  .valueError ("inject_device_base: need >= " ++ toString need ++
    " devices for TEST_DEV + SCRATCH_DEV" ++ extra ++ ", got " ++ toString got)

/-- `inject_device_base`. -/
def injectDeviceBase (block : String) (devices : List Device) (logwrites : Bool) :
    Except PyError String := do
  let all := devices.map Device.name
  let externals := sectionExternalDevs block
  let carve := logwrites && !hasKey block "LOGWRITES_DEV"
  let need := 2 + externals.length
  if carve && all.length < need + 1 then
    throw (needDevices (need + 1)
      ((if externals = [] then "" else " + " ++ Text.join " + " externals) ++ " + LOGWRITES_DEV")
      all.length)
  let devs := if carve then all.dropLast else all
  let logwritesLine := if carve then [BaseLine.mk "LOGWRITES_DEV" (all.getLastD "")] else []
  let base := [BaseLine.mk "TEST_DEV" (devs.headD ""), ⟨"TEST_DIR", "/media/test"⟩,
    ⟨"SCRATCH_MNT", "/media/scratch"⟩]
  let bare := !hasKey block "SCRATCH_DEV" && !hasKey block "SCRATCH_DEV_POOL"
  let body := String.ofList (Text.rstripBy (· = '\n') block.toList)
  if externals ≠ [] then
    if devs.length < need then
      throw (needDevices need (" + " ++ Text.join ", " externals) devs.length)
    let body ← (externals.zip (devs.drop 2)).foldlM fillEmptyDev body
    return addBase block body (base ++
      (if bare then [⟨"SCRATCH_DEV", devs.getD 1 ""⟩] else []) ++ logwritesLine)
  else
    if devs.length < 2 then throw (needDevices 2 "" devs.length)
    let scratch :=
      if !bare then []
      else if 2 < devs.length then
        [BaseLine.mk "SCRATCH_DEV_POOL" ("\"" ++ Text.join " " devs.tail ++ "\"")]
      else [⟨"SCRATCH_DEV", devs.getD 1 ""⟩]
    return addBase block body (base ++ scratch ++ logwritesLine)

/-! ## The environment file -/

/-- `build_check_args`. -/
def buildCheckArgs (testSelection : String) (groups : List String)
    (excludeGroup exclude report : String) (randomize : Bool) (tests : String)
    (iterations loopOnFail : ℤ) (stopOnFail : Bool) : String :=
  let inTestsMode := testSelection = "tests"
  let group := if inTestsMode then "" else Text.join "," (groups.filter (· ≠ ""))
  Text.join " " (
    (if group = "" then [] else ["-g", group]) ++
    (if excludeGroup = "" ∨ inTestsMode then [] else ["-x", excludeGroup]) ++
    (if exclude = "" then [] else ["-X", exclude]) ++
    (if report = "" then [] else ["-R", report]) ++
    (if randomize then ["-r"] else []) ++
    (if 1 < iterations then [if stopOnFail then "-I" else "-i", toString iterations] else []) ++
    (if 0 < loopOnFail then ["-L", toString loopOnFail] else []) ++
    (if inTestsMode then (Text.words tests.toList).map String.ofList else []))

/-- `render_section_env`. -/
def renderSectionEnv (hostOptions checkArgs : String) (testTimeout : ℤ) (testTimeouts : Dict ℤ)
    (recreateTestDev : Bool) : String :=
  let pairs := Text.join " " ((testTimeouts.filter fun p => p.1 ≠ "" ∧ p.2 ≠ 0).map fun p =>
    p.1 ++ ":" ++ toString p.2)
  Text.join "\n" (["HOST_OPTIONS=" ++ hostOptions, "XFSTESTS_CHECK_ARGS=" ++ checkArgs,
      "RECREATE_TEST_DEV=" ++ (if recreateTestDev then "true" else "false")] ++
    (if testTimeout = 0 then [] else ["TEST_TIMEOUT=" ++ toString testTimeout]) ++
    (if pairs = "" then [] else ["TEST_TIMEOUTS=" ++ pairs])) ++ "\n"

/-- `GUEST_STATE_DIR`. -/
def guestStateDir : String := "/var/lib/xfstests"

/-! ## The plan -/

/-- A section that was not armed. -/
structure Skip where
  name : String
  reason : String
  deriving DecidableEq, Repr

/-- Why a section is skipped, if it is. -/
def skipReason (u : Unicode) (logwrites : Bool) (devices : List Device) (block sectionName : String) :
    Option String :=
  let sector := deviceSector devices
  let bsize := sectionBlockBlockSize u block sectionName
  let below := (if (bsize : ℤ) < sector then ["block " ++ toString bsize] else []) ++
    match sectionSectorSize u block sectionName with
    | some ssize => if (ssize : ℤ) < sector then ["sector " ++ toString ssize] else []
    | none => []
  let externals := sectionExternalDevs block
  let need := 2 + externals.length
  if below ≠ [] then
    some (Text.join " and " below ++ " < device sector " ++ toString sector ++
      " (needs a >= block/sector-size device)")
  else if sectionIsV4 block sectionName ∧ guestPageSize < bsize then
    some ("V4 (crc=0) block " ++ toString bsize ++ " > page size " ++ toString guestPageSize ++
      "; the kernel cannot mount a V4 filesystem with block size above the page size")
  else if externals ≠ [] ∧ devices.length < need then
    some ("needs " ++ toString need ++ " devices for " ++ Text.join ", " externals ++ ", have " ++
      toString devices.length)
  else if logwrites ∧ devices.length < need + 1 then
    some ("needs " ++ toString (need + 1) ++ " devices for " ++
      (if externals = [] then "" else Text.join ", " externals ++ " + ") ++
      "LOGWRITES_DEV, have " ++ toString devices.length)
  else none

/-- An armed section, with the text of its config. -/
structure Armed where
  name : String
  text : String
  deriving DecidableEq, Repr

/-- One section of the arming loop. -/
def armStep (u : Unicode) (a : RenderArgs) (cfg : String) (acc : List Armed × List Skip)
    (sectionName : String) : Except PyError (List Armed × List Skip) :=
  let block := sectionBlock cfg sectionName
  match skipReason u a.logwrites a.devices block sectionName with
  | some reason => .ok (acc.1, acc.2 ++ [⟨sectionName, reason⟩])
  | none => do
      let text ← injectDeviceBase block a.devices a.logwrites
      return (acc.1 ++ [⟨sectionName, text⟩], acc.2)

/-- `repr(xs)`. -/
def reprList (xs : List String) : String := "[" ++ Text.join ", " (xs.map Text.repr) ++ "]"

/-- What a render has decided when it comes to write. -/
structure Plan where
  share : Path
  checkArgs : String
  defaultArgs : String
  available : List String
  armed : List Armed
  run : List String
  skipped : List Skip

/-- The config a render reads. -/
def configText (a : RenderArgs) : String :=
  let cfg := String.ofList (Text.strip a.localConfig.toList)
  if cfg = "" then xfsCatalogText else cfg

/-- The sections a config declares. -/
def declaredSections (cfg : String) : List String := (parseSections cfg).map String.ofList

/-- The sections asked for, of those the config declares. -/
def runSelection (a : RenderArgs) (available : List String) : List String :=
  (if a.sections = [] then available else a.sections).filter (· ∈ available)

/-- `main` of `render_config.py`, up to the loop that writes. -/
def plan (u : Unicode) (host : Kernel.Host) (a : RenderArgs) : Except PyError Plan := do
  let share ← shareDir host a.vmName
  let checkArgs := buildCheckArgs a.testSelection a.groups a.excludeGroup a.exclude a.report
    a.randomize a.tests a.iterations a.loopOnFail a.stopOnFail
  let cfg := configText a
  let available := declaredSections cfg
  if available = [] then throw (.valueError "local.config declares no [section]s to run")
  let selection := runSelection a available
  if selection = [] then
    throw (.valueError ("none of the requested sections " ++ reprList a.sections ++
      " match a [section] in local.config; pick from the Sections dropdown (it lists what " ++
      "local.config declares)"))
  if a.devices.length < 2 then
    throw (.valueError ("need >= 2 devices for TEST_DEV + SCRATCH_DEV, got " ++
      toString a.devices.length))
  let (armed, skipped) ←
    (if a.armAllSections then available else selection).foldlM (armStep u a cfg) ([], [])
  let run := (armed.map Armed.name).filter (· ∈ selection)
  if run = [] then
    throw (.valueError ("all selected sections skipped: device sector " ++
      toString (deviceSector a.devices) ++ " exceeds the block/sector size of " ++
      Text.join ", " ((skipped.map Skip.name).filter (· ∈ selection)) ++
      "; bring the guest up with `boot_nvme.logical_block_size=512` for a " ++
      "512-byte-sector device that runs the sub-4K block and sector sizes"))
  return { share, checkArgs, available, armed, run, skipped
           defaultArgs := buildCheckArgs "groups" ["auto"] "" "" a.report false "" 1 0 true }

/-! ## The names of a config -/

theorem sectionHeader_subset {line h : List Char} (hh : sectionHeader line = some h) : h ⊆ line := by
  cases line with
  | nil => cases hh
  | cons c cs =>
      by_cases hc : c = '['
      · subst hc
        rw [sectionHeader] at hh
        split at hh
        · cases hh
          intro x hx
          exact List.mem_cons_of_mem _ ((List.takeWhile_prefix _).subset hx)
        · cases hh
      · rw [sectionHeader] at hh
        · cases hh
        · simp [hc]

theorem parseSections_noBreak (text : String) :
    ∀ name ∈ parseSections text, ∀ c ∈ name, Text.isLineBreak c = false := by
  rw [parseSections]
  have hlines := Text.splitlines_noBreak text.toList
  generalize Text.splitlines text.toList = lines at hlines
  induction lines using List.reverseRecOn with
  | nil => simp
  | append_singleton lines line ih =>
      have ih' := ih fun l hl => hlines l (List.mem_append_left _ hl)
      rw [List.foldl_append, List.foldl_cons, List.foldl_nil]
      split
      · next h hh =>
          dsimp only
          split
          · intro name hname c hc
            rcases List.mem_append.mp hname with hname | hname
            · exact ih' name hname c hc
            · rw [List.mem_singleton.mp hname] at hc
              exact hlines line (by simp) c
                (Text.strip_subset line (sectionHeader_subset hh (Text.strip_subset h hc)))
          · exact ih'
      · exact ih'

/-- No section name holds a line break. -/
theorem declared_noBreak {cfg name : String} (h : name ∈ declaredSections cfg) :
    '\n' ∉ name.toList := by
  obtain ⟨cs, hcs, rfl⟩ := List.mem_map.mp h
  rw [String.toList_ofList]
  intro hmem
  exact absurd (parseSections_noBreak cfg cs hcs '\n' hmem) (by decide)

/-! ## What a plan holds -/

/-- The armed sections come from the list, each with its own text. -/
theorem armLoop_mem {u : Unicode} {a : RenderArgs} {cfg : String} {xs : List String}
    {acc out : List Armed × List Skip} (h : xs.foldlM (armStep u a cfg) acc = .ok out) {s : Armed}
    (hs : s ∈ out.1) : s ∈ acc.1 ∨ (s.name ∈ xs ∧
      injectDeviceBase (sectionBlock cfg s.name) a.devices a.logwrites = .ok s.text) := by
  induction xs generalizing acc with
  | nil =>
      cases h
      exact .inl hs
  | cons x xs ih =>
      rw [List.foldlM_cons] at h
      obtain ⟨acc', hstep, h⟩ := except_bind_ok.mp h
      rcases ih h with hacc | ⟨hmem, htext⟩
      · rw [armStep] at hstep
        split at hstep
        · cases hstep
          exact .inl hacc
        · obtain ⟨text, htext, hstep⟩ := except_bind_ok.mp hstep
          cases hstep
          rcases List.mem_append.mp hacc with hacc | hacc
          · exact .inl hacc
          · rw [List.mem_singleton] at hacc
            subst hacc
            exact .inr ⟨List.mem_cons_self, htext⟩
      · exact .inr ⟨List.mem_cons_of_mem x hmem, htext⟩

/-- What a plan that was made says. -/
structure Planned (u : Unicode) (host : Kernel.Host) (a : RenderArgs) (p : Plan) : Prop where
  share : shareDir host a.vmName = .ok p.share
  available : p.available = declaredSections (configText a)
  armed : (if a.armAllSections then p.available else runSelection a p.available).foldlM
    (armStep u a (configText a)) ([], []) = .ok (p.armed, p.skipped)
  run : p.run = (p.armed.map Armed.name).filter (· ∈ runSelection a p.available)
  run_ne_nil : p.run ≠ []

theorem plan_ok {u : Unicode} {host : Kernel.Host} {a : RenderArgs} {p : Plan}
    (h : plan u host a = .ok p) : Planned u host a p := by
  obtain ⟨share, hshare, h⟩ := except_bind_ok.mp h
  simp only [bind, Except.bind, pure, Except.pure, throw, throwThe, MonadExceptOf.throw] at h
  repeat' split at h
  all_goals cases h
  next v hfold hrun =>
    constructor <;> dsimp only
    · exact hshare
    · exact hfold
    · exact hrun

namespace Planned

variable {u : Unicode} {host : Kernel.Host} {a : RenderArgs} {p : Plan}

theorem armed_mem (h : Planned u host a p) {s : Armed} (hs : s ∈ p.armed) :
    s.name ∈ p.available ∧
      injectDeviceBase (sectionBlock (configText a) s.name) a.devices a.logwrites = .ok s.text := by
  rcases armLoop_mem h.armed hs with hnil | ⟨hmem, htext⟩
  · exact absurd hnil List.not_mem_nil
  · refine ⟨?_, htext⟩
    split at hmem
    · exact hmem
    · exact of_decide_eq_true (List.mem_filter.mp hmem).2

/-- An armed section is known by its name. -/
theorem armed_ext (h : Planned u host a p) {s t : Armed} (hs : s ∈ p.armed) (ht : t ∈ p.armed)
    (hname : s.name = t.name) : s = t := by
  have htext := (h.armed_mem hs).2
  rw [hname, (h.armed_mem ht).2] at htext
  obtain ⟨n, x⟩ := s
  obtain ⟨m, y⟩ := t
  cases hname
  cases htext
  rfl

theorem armed_noBreak (h : Planned u host a p) {s : Armed} (hs : s ∈ p.armed) :
    '\n' ∉ s.name.toList := by
  have hmem := (h.armed_mem hs).1
  rw [h.available] at hmem
  exact declared_noBreak hmem

/-- The run sections are armed, and asked for. -/
theorem run_mem (h : Planned u host a p) {name : String} (hname : name ∈ p.run) :
    name ∈ p.armed.map Armed.name ∧ name ∈ runSelection a p.available := by
  rw [h.run, List.mem_filter, decide_eq_true_eq] at hname
  exact hname

end Planned

end KdevopsNg.Fstests
