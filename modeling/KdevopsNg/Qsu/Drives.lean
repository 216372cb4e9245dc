/-
# `Qsu.Drives` — the NVMe drives of a VM

`_nvme_drives` of `f/qsu/common.py`: one drive for each index below the count,
from knobs that are each one value for every drive or a comma-list with a part
for each (`drivePick`).  A drive is put together from five dictionaries

    base        the file and its format, or the null driver and its size; the serial
    backend     knobs of the -drive entry, or of the null driver
    ctrl        knobs of -device nvme, with the memory buffers
    blockconf   knobs of whichever device owns the drive
    ns          atomics of -device nvme-ns

as one flat drive, or, when `ns` has a knob, as a controller with a namespace
(`assemble`).  The five have no key in common (`Parts.Proper`), so no union loses
one.

Where a key of a drive is follows from the part it belongs to: the controller's on
the drive (`get?_ctrl`), the others on the device that owns it (`get?_owner`).
-/
import Mathlib.Data.Int.Bitwise
import KdevopsNg.Py.Json
import KdevopsNg.Py.Text

namespace KdevopsNg.Qsu

open Py

/-! ## The tables -/

/-- `NVME_BACKEND_KNOBS`. -/
def nvmeBackendKnobs : List (String × String) :=
  [("aio", "aio"), ("cache", "cache"), ("aio_max_batch", "file.aio-max-batch"),
    ("discard", "discard"), ("detect_zeroes", "detect-zeroes")]

/-- `NVME_NULL_KNOBS`. -/
def nvmeNullKnobs : List (String × String) :=
  [("read_zeroes", "read-zeroes"), ("latency_ns", "latency-ns")]

/-- `NVME_CTRL_KNOBS`. -/
def nvmeCtrlKnobs : List (String × String) :=
  [("mdts", "mdts"), ("max_ioqpairs", "max_ioqpairs"), ("msix_qsize", "msix_qsize"),
    ("mqes", "mqes"), ("dbcs", "dbcs"), ("atomic_awun", "atomic.awun"),
    ("atomic_awupf", "atomic.awupf")]

/-- `NVME_NULL_DRIVERS`. -/
def nvmeNullDrivers : List String := ["null-co", "null-aio"]

/-- `CACHE_DIRECT`. -/
def cacheDirect : List String := ["none", "directsync"]

/-- `NVME_NS_KNOBS`. -/
def nvmeNsKnobs : List (String × String) :=
  [("atomic_nawun", "atomic.nawun"), ("atomic_nawupf", "atomic.nawupf"),
    ("atomic_nabsn", "atomic.nabsn"), ("atomic_nabspf", "atomic.nabspf"),
    ("atomic_nabo", "atomic.nabo")]

/-- `NVME_BLOCKCONF_KNOBS`. -/
def nvmeBlockconfKnobs : List (String × String) :=
  [("logical_block_size", "logical_block_size"), ("physical_block_size", "physical_block_size"),
    ("min_io_size", "min_io_size"), ("opt_io_size", "opt_io_size"),
    ("discard_granularity", "discard_granularity"), ("write_cache", "write-cache")]

/-! ## A drive's own part of a knob -/

/-- `str.lower`, what `int` makes of a text (none where it raises), and the size of
a page of the host. -/
structure Runtime where
  lower : String → String
  int? : String → Option ℤ
  page : ℕ

/-- What the form says of the drives: the explicit list, the count and the size,
each comma-list knob that is set as a text, and the toggles. -/
structure DriveForm where
  nvmeDrives : List (Dict Json)
  count : ℤ
  sizeGb : ℤ
  knob : String → Option String
  atomicDn : Bool
  atomicMam : Bool
  legacyCmb : Bool
  pmrShare : Bool
  pmrPmem : Bool

/-- `_drive_pick`. -/
def drivePick (raw : Option String) (i : ℕ) : String :=
  let parts := Text.split ',' (raw.getD "").toList
  let value := if parts.length = 1 then parts.headD [] else parts.getD i []
  String.ofList (Text.strip value)

/-- `_drive_pick(fi.get(param), i)`. -/
def DriveForm.pick (fi : DriveForm) (i : ℕ) (param : String) : String :=
  drivePick (fi.knob param) i

/-- `_TRUE`. -/
def trueWords : List String := ["on", "true", "1", "yes"]

/-- `_FALSE`. -/
def falseWords : List String := ["off", "false", "0", "no", "none"]

/-- `_drive_onoff`, of the drive's part. -/
def driveOnoff (rt : Runtime) (part : String) (default : Bool) : Except PyError Bool :=
  let v := rt.lower part
  if v = "" then .ok default
  else if v ∈ trueWords then .ok true
  else if v ∈ falseWords then .ok false
  else .error (.valueError ("expected on or off, got " ++ Text.repr v))

/-- `_bucket`. -/
def bucket (pick : String → String) (knobs : List (String × String)) : Dict Json :=
  knobs.foldl (fun out p => if pick p.1 = "" then out else Dict.set out p.2 (.str (pick p.1))) []

/-! ## The five parts -/

/-- The parts of a drive. -/
structure Parts where
  base : Dict Json
  backend : Dict Json
  ctrl : Dict Json
  blockconf : Dict Json
  ns : Dict Json

/-- `f"kdevops{i}"`. -/
def serial (i : ℕ) : Json := .str ("kdevops" ++ toString i)

/-- `d.setdefault(k, v)`, the dictionary it leaves. -/
def setDefault (d : Dict Json) (k : String) (v : Json) : Dict Json :=
  if Dict.contains d k then d else Dict.set d k v

section
variable (rt : Runtime) (fi : DriveForm) (pick : String → String) (i : ℕ)

/-- The base and the backend of a null drive. -/
def nullBacking (driver : String) : Dict Json × Dict Json :=
  let base := [("driver", .str driver), ("serial", serial i)]
  (if fi.sizeGb = 0 then base else Dict.set base "size" (.num (fi.sizeGb * 1024 ^ 3)),
    setDefault (bucket pick nvmeNullKnobs) "read-zeroes" (.str "on"))

/-- The base of a file drive. -/
def fileBase (fmt : String) : Dict Json :=
  [("file", .str ("nvme" ++ toString i ++ "." ++ fmt)), ("format", .str fmt), ("serial", serial i)]

/-- `backend.get(k)`, as a text. -/
def value? (d : Dict Json) (k : String) : Option String :=
  match Dict.get? d k with
  | some (.str v) => some v
  | _ => none

/-- The format of a file drive. -/
def driveFormat : String := if pick "format" = "" then "qcow2" else pick "format"

/-- The base and the backend of a drive. -/
def backing : Except PyError (Dict Json × Dict Json) :=
  let driver := pick "driver"
  let backend := bucket pick nvmeBackendKnobs
  if driver ≠ "" ∧ driver ∉ nvmeNullDrivers then
    .error (.valueError ("nvme drive " ++ toString i ++ " driver " ++ Text.repr driver ++
      " is not one of " ++ Text.join ", " nvmeNullDrivers ++ "; leave it empty for a file"))
  else if driver ≠ "" then .ok (nullBacking fi pick i driver)
  else if value? backend "detect-zeroes" = some "unmap" ∧
      value? backend "discard" ≠ some "unmap" then
    .error (.valueError ("nvme drive " ++ toString i ++ " detect_zeroes unmap requires discard " ++
      "unmap; QEMU refuses to open the image otherwise"))
  else if value? backend "aio" = some "native" ∧
      ¬ ∃ c ∈ cacheDirect, value? backend "cache" = some c then
    .error (.valueError ("nvme drive " ++ toString i ++ " aio native requires cache " ++
      Text.join " or " cacheDirect ++ " (O_DIRECT); QEMU refuses to open the image otherwise"))
  else .ok (fileBase i (driveFormat pick), backend)

/-- `size & (size - 1) != 0 or size < page`. -/
def badPmrSize (size : ℤ) : Bool :=
  decide (Int.land size (size - 1) ≠ 0) || decide (size < rt.page)

/-- The knobs of a PMR: shared unless the form says otherwise. -/
def regionKnobs (size : ℤ) : Dict Json :=
  let pmr := [("size", Json.num size)]
  let pmr := if fi.pmrShare then pmr else Dict.set pmr "share" (.bool false)
  if fi.pmrPmem then Dict.set pmr "pmem" (.bool true) else pmr

/-- A PMR of a size. -/
def region (size : ℤ) : Except PyError (Dict Json) :=
  if badPmrSize rt size then
    .error (.valueError ("nvme drive " ++ toString i ++ " pmr size " ++ toString size ++
      " must be a power of 2 and at least one host page (" ++ toString rt.page ++
      " bytes); QEMU rejects sub-page or non-pow2 sizes"))
  else if fi.pmrPmem && !fi.pmrShare then
    .error (.valueError ("nvme drive " ++ toString i ++ " pmr_pmem requires pmr_share: " ++
      "QEMU silently ignores pmem on a non-shared (MAP_PRIVATE) PMR backend"))
  else .ok (regionKnobs fi size)

/-- The PMR of a drive: none without a size, or with size 0. -/
def pmrOf : Except PyError (Option (Dict Json)) :=
  let pmrSize := pick "pmr_size"
  if pmrSize = "" then .ok none
  else match rt.int? pmrSize with
    | none => .error (.valueError ("nvme drive " ++ toString i ++ " pmr size " ++
        Text.repr pmrSize ++ " is not an integer (bytes)"))
    | some size => if size = 0 then .ok none else (region rt fi i size).map some

/-- The knobs of a controller, and its toggles. -/
def ctrlToggles (ioeventfd : Bool) : Dict Json :=
  let ctrl := bucket pick nvmeCtrlKnobs
  let ctrl := if fi.atomicDn then Dict.set ctrl "atomic.dn" (.bool true) else ctrl
  if ioeventfd then Dict.set ctrl "ioeventfd" (.bool true) else ctrl

/-- The controller memory buffer of a drive, added to its controller. -/
def withCmb (ctrl : Dict Json) : Dict Json :=
  let cmb := pick "cmb_size_mb"
  if cmb ≠ "" ∧ cmb ≠ "0" then
    let ctrl := Dict.set ctrl "cmb_size_mb" (.str cmb)
    if fi.legacyCmb then Dict.set ctrl "legacy-cmb" (.bool true) else ctrl
  else ctrl

/-- The persistent memory region of a drive, added to its controller. -/
def withPmr (pmr : Option (Dict Json)) (ctrl : Dict Json) : Dict Json :=
  match pmr with
  | some pmr => Dict.set ctrl "pmr" (.obj pmr)
  | none => ctrl

/-- The controller of a drive. -/
def ctrlOf : Except PyError (Dict Json) := do
  let ioeventfd ← driveOnoff rt (pick "ioeventfd") true
  let pmr ← pmrOf rt fi pick i
  return withPmr pmr (withCmb fi pick (ctrlToggles fi pick ioeventfd))

/-- The namespace knobs of a drive. -/
def nsOf : Dict Json :=
  let ns := bucket pick nvmeNsKnobs
  if fi.atomicMam then Dict.set ns "atomic.mam" (.bool true) else ns

/-- The parts of a drive. -/
def partsOf : Except PyError Parts := do
  let (base, backend) ← backing fi pick i
  let ctrl ← ctrlOf rt fi pick i
  return ⟨base, backend, ctrl, bucket pick nvmeBlockconfKnobs, nsOf fi pick⟩

end

/-! ## The drives -/

/-- The namespace of a drive that has one. -/
def namespaceOf (p : Parts) : Dict Json :=
  Dict.merge (Dict.merge (Dict.merge (p.base.filter fun kv => kv.1 ≠ "serial") p.backend)
    p.blockconf) p.ns

/-- A drive, put together. -/
def assemble (p : Parts) : Dict Json :=
  if p.ns ≠ [] then
    Dict.set (Dict.merge [("serial", (Dict.get? p.base "serial").getD .null)] p.ctrl)
      "namespaces" (.arr [.obj (namespaceOf p)])
  else Dict.merge (Dict.merge (Dict.merge p.base p.backend) p.ctrl) p.blockconf

/-- The drive of an index. -/
def driveOf (rt : Runtime) (fi : DriveForm) (i : ℕ) : Except PyError (Dict Json) :=
  (partsOf rt fi (fi.pick i) i).map assemble

/-- `_nvme_drives`. -/
def nvmeDrives (rt : Runtime) (fi : DriveForm) : Except PyError (List (Dict Json)) :=
  if fi.nvmeDrives ≠ [] then .ok fi.nvmeDrives
  else (List.range fi.count.toNat).mapM (driveOf rt fi)

/-! ## Where a drive holds its knobs -/

/-- The device that owns the drive: its namespace, where it has one. -/
def owner (drive : Dict Json) : Dict Json :=
  match Dict.get? drive "namespaces" with
  | some (.arr [.obj ns]) => ns
  | _ => drive

/-- A knob that is set, as a drive holds it. -/
def asKnob (part : String) : Option Json := if part = "" then none else some (.str part)

/-! ## Buckets -/

/-- A dictionary has only some keys, each once. -/
def Only (d : Dict Json) (ks : List String) : Prop :=
  (Dict.keys d).Nodup ∧ ∀ k ∈ Dict.keys d, k ∈ ks

theorem only_of_keys {d : Dict Json} {ks l : List String} (h : Dict.keys d = l) (hnodup : l.Nodup)
    (hsub : l ⊆ ks) : Only d ks := by
  subst h
  exact ⟨hnodup, hsub⟩

theorem Only.set {d : Dict Json} {ks : List String} (h : Only d ks) {k : String} (hk : k ∈ ks)
    (v : Json) : Only (Dict.set d k v) ks := by
  refine ⟨Dict.keys_set_nodup h.1 k v, fun k' hk' => ?_⟩
  rcases Dict.mem_keys_set.mp hk' with rfl | hmem
  · exact hk
  · exact h.2 k' hmem

theorem Only.mono {d : Dict Json} {ks ks' : List String} (h : Only d ks) (hks : ks ⊆ ks') :
    Only d ks' := ⟨h.1, fun k hk => hks (h.2 k hk)⟩

theorem Only.ite {c : Prop} [Decidable c] {d d' : Dict Json} {ks : List String} (h : Only d ks)
    (h' : Only d' ks) : Only (if c then d else d') ks := by
  split_ifs
  · exact h
  · exact h'

section
variable {pick : String → String}

theorem get?_bucketFrom_other {knobs : List (String × String)} {k : String}
    (h : k ∉ knobs.map Prod.snd) (out : Dict Json) :
    Dict.get? (knobs.foldl (fun out p =>
      if pick p.1 = "" then out else Dict.set out p.2 (.str (pick p.1))) out) k =
        Dict.get? out k := by
  induction knobs generalizing out with
  | nil => rfl
  | cons p knobs ih =>
      rw [List.map_cons, List.mem_cons, not_or] at h
      rw [List.foldl_cons, ih h.2]
      split_ifs
      · rfl
      · exact Dict.get?_set_ne _ _ h.1

theorem get?_bucket_other {knobs : List (String × String)} {k : String}
    (h : k ∉ knobs.map Prod.snd) : Dict.get? (bucket pick knobs) k = none :=
  get?_bucketFrom_other h []

/-- Each knob of the table that is set, under its key. -/
theorem get?_bucket {knobs : List (String × String)} (hnodup : (knobs.map Prod.snd).Nodup)
    {p : String × String} (hp : p ∈ knobs) :
    Dict.get? (bucket pick knobs) p.2 = asKnob (pick p.1) := by
  have hfrom : ∀ out : Dict Json, Dict.get? out p.2 = none →
      Dict.get? (knobs.foldl (fun out p =>
        if pick p.1 = "" then out else Dict.set out p.2 (.str (pick p.1))) out) p.2 =
          asKnob (pick p.1) := by
    induction knobs with
    | nil => exact absurd hp List.not_mem_nil
    | cons q knobs ih =>
        rw [List.map_cons, List.nodup_cons] at hnodup
        intro out hout
        rw [List.foldl_cons]
        rcases List.mem_cons.mp hp with rfl | hp'
        · rw [get?_bucketFrom_other hnodup.1, asKnob]
          split_ifs
          · exact hout
          · exact Dict.get?_set_self _ _ _
        · refine ih hnodup.2 hp' _ ?_
          split_ifs
          · exact hout
          · have hne : p.2 ≠ q.2 := fun heq => hnodup.1 (heq ▸ List.mem_map_of_mem hp')
            rw [Dict.get?_set_ne _ _ hne, hout]
  exact hfrom [] rfl

theorem only_bucket (knobs : List (String × String)) :
    Only (bucket pick knobs) (knobs.map Prod.snd) := by
  constructor
  · have hfrom : ∀ out : Dict Json, (Dict.keys out).Nodup →
        (Dict.keys (knobs.foldl (fun out p =>
          if pick p.1 = "" then out else Dict.set out p.2 (.str (pick p.1))) out)).Nodup := by
      induction knobs with
      | nil => exact fun out hout => hout
      | cons p knobs ih =>
          intro out hout
          rw [List.foldl_cons]
          refine ih _ ?_
          split_ifs
          · exact hout
          · exact Dict.keys_set_nodup hout _ _
    exact hfrom [] List.nodup_nil
  · intro k hk
    by_contra hother
    exact (Dict.get?_eq_none_iff _ _).mp (get?_bucket_other hother) hk

theorem bucket_eq_nil_iff {knobs : List (String × String)} (hnodup : (knobs.map Prod.snd).Nodup) :
    bucket pick knobs = [] ↔ ∀ p ∈ knobs, pick p.1 = "" := by
  constructor
  · intro h p hp
    have hget : Dict.get? (bucket pick knobs) p.2 = asKnob (pick p.1) := get?_bucket hnodup hp
    rw [h, Dict.get?_nil, asKnob] at hget
    by_contra hne
    rw [if_neg hne] at hget
    cases hget
  · intro h
    have hnone : ∀ k, k ∉ Dict.keys (bucket pick knobs) := by
      intro k hk
      obtain ⟨p, hp, rfl⟩ := List.mem_map.mp ((only_bucket knobs).2 k hk)
      refine (Dict.get?_eq_none_iff _ _).mp ?_ hk
      rw [get?_bucket hnodup hp, asKnob, if_pos (h p hp)]
    exact List.map_eq_nil_iff.mp (List.eq_nil_iff_forall_not_mem.mpr hnone)

end

/-! ## The parts have no key in common -/

/-- The dictionaries a drive is put together from. -/
inductive Part where
  | base
  | backend
  | ctrl
  | blockconf
  | ns
  deriving DecidableEq

/-- The keys a part can have. -/
def Part.keys : Part → List String
  | .base => ["file", "format", "serial", "driver", "size"]
  | .backend => nvmeBackendKnobs.map Prod.snd ++ nvmeNullKnobs.map Prod.snd
  | .ctrl => nvmeCtrlKnobs.map Prod.snd ++
      ["atomic.dn", "ioeventfd", "cmb_size_mb", "legacy-cmb", "pmr"]
  | .blockconf => nvmeBlockconfKnobs.map Prod.snd
  | .ns => nvmeNsKnobs.map Prod.snd ++ ["atomic.mam"]

/-- A part of a drive. -/
def Parts.get (p : Parts) : Part → Dict Json
  | .base => p.base
  | .backend => p.backend
  | .ctrl => p.ctrl
  | .blockconf => p.blockconf
  | .ns => p.ns

/-- The value of a key in the first of some parts that has one. -/
def Parts.first (p : Parts) (ps : List Part) (k : String) : Option Json :=
  ps.foldr (fun a v => (Dict.get? (p.get a) k).or v) none

/-- Every part has only its own keys, each once. -/
def Parts.Proper (p : Parts) : Prop := ∀ a, Only (p.get a) a.keys

theorem part_unique {a b : Part} {k : String} (ha : k ∈ a.keys) (hb : k ∈ b.keys) : a = b := by
  have hall : ∀ a b : Part, a ≠ b → a.keys.all fun k => decide (k ∉ b.keys) := by
    intro a b
    cases a <;> cases b <;> decide
  by_contra hne
  exact of_decide_eq_true (List.all_eq_true.mp (hall a b hne) k ha) hb

theorem namespaces_not_key (a : Part) : "namespaces" ∉ a.keys := by
  cases a <;> decide

section
variable {p : Parts} (hp : p.Proper)
include hp

theorem get?_otherPart {a b : Part} {k : String} (hk : k ∈ a.keys) (hne : b ≠ a) :
    Dict.get? (p.get b) k = none :=
  (Dict.get?_eq_none_iff _ _).mpr fun hmem => hne (part_unique ((hp b).2 k hmem) hk)

/-- A key is looked up in its own part. -/
theorem first_eq {a : Part} {k : String} (hk : k ∈ a.keys) (ps : List Part) :
    p.first ps k = if a ∈ ps then Dict.get? (p.get a) k else none := by
  induction ps with
  | nil => rfl
  | cons b ps ih =>
      have hcons : p.first (b :: ps) k = (Dict.get? (p.get b) k).or (p.first ps k) := rfl
      rw [hcons, ih]
      by_cases hb : b = a
      · subst hb
        rw [if_pos List.mem_cons_self]
        split_ifs
        · exact Option.or_self
        · exact Option.or_none
      · simp only [get?_otherPart hp hk hb, Option.none_or, List.mem_cons, Ne.symm hb, false_or]

theorem first_namespaces (ps : List Part) : p.first ps "namespaces" = none := by
  induction ps with
  | nil => rfl
  | cons b ps ih =>
      have hnone : Dict.get? (p.get b) "namespaces" = none :=
        (Dict.get?_eq_none_iff _ _).mpr fun hmem => namespaces_not_key b ((hp b).2 _ hmem)
      have hcons : p.first (b :: ps) "namespaces" =
          (Dict.get? (p.get b) "namespaces").or (p.first ps "namespaces") := rfl
      rw [hcons, hnone, ih]
      rfl

/-- A flat drive, key by key. -/
theorem get?_flat (hns : p.ns = []) (k : String) :
    Dict.get? (assemble p) k = p.first [.blockconf, .ctrl, .backend, .base] k := by
  have hblockconf : (Dict.keys p.blockconf).Nodup := (hp .blockconf).1
  have hctrl : (Dict.keys p.ctrl).Nodup := (hp .ctrl).1
  have hbackend : (Dict.keys p.backend).Nodup := (hp .backend).1
  rw [assemble, if_neg (not_not.mpr hns), Dict.get?_merge _ hblockconf, Dict.get?_merge _ hctrl,
    Dict.get?_merge _ hbackend, Parts.first]
  simp only [List.foldr_cons, List.foldr_nil, Option.or_none]
  rfl

/-- A namespace, key by key. -/
theorem get?_namespaceOf {k : String} (hk : k ≠ "serial") :
    Dict.get? (namespaceOf p) k = p.first [.ns, .blockconf, .backend, .base] k := by
  have hns : (Dict.keys p.ns).Nodup := (hp .ns).1
  have hblockconf : (Dict.keys p.blockconf).Nodup := (hp .blockconf).1
  have hbackend : (Dict.keys p.backend).Nodup := (hp .backend).1
  have hbase : Dict.get? (p.base.filter fun kv => decide (kv.1 ≠ "serial")) k =
      Dict.get? p.base k := by
    rw [Dict.get?_filter (fun k => decide (k ≠ "serial")) p.base k, if_pos (decide_eq_true hk)]
  rw [namespaceOf, Dict.get?_merge _ hns, Dict.get?_merge _ hblockconf,
    Dict.get?_merge _ hbackend, hbase, Parts.first]
  simp only [List.foldr_cons, List.foldr_nil, Option.or_none]
  rfl

/-- A controller, key by key. -/
theorem get?_controller {k : String} (hk : k ≠ "namespaces") (hns : p.ns ≠ []) :
    Dict.get? (assemble p) k = (Dict.get? p.ctrl k).or
      (if "serial" = k then some ((Dict.get? p.base "serial").getD .null) else none) := by
  have hctrl : (Dict.keys p.ctrl).Nodup := (hp .ctrl).1
  rw [assemble, if_pos hns, Dict.get?_set_ne _ _ hk, Dict.get?_merge _ hctrl]
  rfl

/-- The namespace of a drive with one, the drive itself without. -/
theorem owner_assemble : owner (assemble p) = if p.ns = [] then assemble p else namespaceOf p := by
  split_ifs with hns
  · rw [owner, get?_flat hp hns, first_namespaces hp]
  · rw [owner, assemble, if_pos hns, Dict.get?_set_self]

/-! ## Where each key of a drive is -/

/-- What the controller holds is what the drive does. -/
theorem get?_ctrl {k : String} (hk : k ∈ Part.ctrl.keys) :
    Dict.get? (assemble p) k = Dict.get? p.ctrl k := by
  by_cases hns : p.ns = []
  · rw [get?_flat hp hns, first_eq hp hk, if_pos (by decide)]
    rfl
  · have hserial : "serial" ≠ k := fun heq => by
      rw [← heq] at hk
      revert hk
      decide
    rw [get?_controller hp (fun heq => namespaces_not_key .ctrl (heq ▸ hk)) hns, if_neg hserial,
      Option.or_none]

/-- The device that owns the drive holds the other parts. -/
theorem get?_owner {a : Part} (ha : a ≠ .ctrl) {k : String} (hk : k ∈ a.keys)
    (hserial : k ≠ "serial") : Dict.get? (owner (assemble p)) k = Dict.get? (p.get a) k := by
  rw [owner_assemble hp]
  split_ifs with hns
  · rw [get?_flat hp hns, first_eq hp hk]
    cases a with
    | ctrl => exact absurd rfl ha
    | ns =>
        rw [if_neg (by decide)]
        show _ = Dict.get? p.ns k
        rw [hns]
        rfl
    | base | backend | blockconf => exact if_pos (by decide)
  · rw [get?_namespaceOf hp hserial, first_eq hp hk]
    cases a with
    | ctrl => exact absurd rfl ha
    | base | backend | blockconf | ns => exact if_pos (by decide)

theorem get?_serial : Dict.get? (assemble p) "serial" =
    if p.ns = [] then Dict.get? p.base "serial"
    else some ((Dict.get? p.base "serial").getD .null) := by
  have hmem : "serial" ∈ Part.base.keys := by decide
  split_ifs with hns
  · rw [get?_flat hp hns, first_eq hp hmem, if_pos (by decide)]
    rfl
  · have hctrl : Dict.get? p.ctrl "serial" = none := get?_otherPart (b := .ctrl) hp hmem (by decide)
    rw [get?_controller hp (by decide) hns, hctrl, if_pos rfl]
    rfl

/-- A drive holds no namespace knob, nor, with a namespace, any of the others' keys. -/
theorem get?_ns {k : String} (hk : k ∈ Part.ns.keys) : Dict.get? (assemble p) k = none := by
  by_cases hns : p.ns = []
  · rw [get?_flat hp hns, first_eq hp hk, if_neg (by decide)]
  · have hserial : "serial" ≠ k := fun heq => by
      rw [← heq] at hk
      revert hk
      decide
    have hctrl : Dict.get? p.ctrl k = none := get?_otherPart (b := .ctrl) hp hk (by decide)
    rw [get?_controller hp (fun heq => namespaces_not_key .ns (heq ▸ hk)) hns, hctrl,
      if_neg hserial]
    rfl

/-- What the owner does not hold, the drive does not. -/
theorem get?_none_of_owner {a : Part} (ha : a ≠ .ctrl) {k : String} (hk : k ∈ a.keys)
    (hserial : k ≠ "serial") (h : Dict.get? (owner (assemble p)) k = none) :
    Dict.get? (assemble p) k = none := by
  by_cases hns : p.ns = []
  · rw [owner_assemble hp, if_pos hns] at h
    exact h
  · have hctrl : Dict.get? p.ctrl k = none := get?_otherPart (b := .ctrl) hp hk (Ne.symm ha)
    rw [get?_controller hp (fun heq => namespaces_not_key a (heq ▸ hk)) hns, hctrl,
      if_neg (Ne.symm hserial)]
    rfl

end

end KdevopsNg.Qsu
