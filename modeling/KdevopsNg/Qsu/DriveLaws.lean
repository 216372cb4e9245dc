/-
# `Qsu.DriveLaws` — what every accepted drive is

`nvmeDrives_wellFormed`: an input that `_nvme_drives` accepts gives as many drives
as counted, no serial twice, and each of them is

    Composed   holds its own part of every knob, on the device that takes it
    Opens      keeps what QEMU enforces when it opens a drive
    Local      is that drive of the input with every comma-list cut to its part

A step of the composition that returns is inverted once (`backing_ok`, `ctrlOf_ok`,
`pmrOf_ok`); whether it returns depends on the parts of the drive alone
(`partsOf_returns`).
-/
import KdevopsNg.Py.Path
import KdevopsNg.Qsu.Drives

namespace KdevopsNg.Qsu

open Py

/-! ## What an accepted drive is -/

/-- A toggle that is on, as a drive holds it. -/
def asToggle (on : Bool) : Option Json := if on then some (.bool true) else none

/-- The file of a drive, and the knobs of its backend. -/
structure FileBacked (fi : DriveForm) (i : ℕ) (drive : Dict Json) : Prop where
  driver : Dict.get? (owner drive) "driver" = none
  file : Dict.get? (owner drive) "file" = some (.str ("nvme" ++ toString i ++ "." ++
    driveFormat (fi.pick i)))
  format : Dict.get? (owner drive) "format" = some (.str (driveFormat (fi.pick i)))
  knobs : ∀ p ∈ nvmeBackendKnobs, Dict.get? (owner drive) p.2 = asKnob (fi.pick i p.1)

/-- The null driver of a drive, its size and its knobs. -/
structure NullBacked (fi : DriveForm) (i : ℕ) (drive : Dict Json) : Prop where
  driver : Dict.get? (owner drive) "driver" = some (.str (fi.pick i "driver"))
  size : Dict.get? (owner drive) "size" =
    if fi.sizeGb = 0 then none else some (.num (fi.sizeGb * 1024 ^ 3))
  readZeroes : Dict.get? (owner drive) "read-zeroes" =
    some (.str (if fi.pick i "read_zeroes" = "" then "on" else fi.pick i "read_zeroes"))
  latency : Dict.get? (owner drive) "latency-ns" = asKnob (fi.pick i "latency_ns")

/-- The drive holds what its own part of each knob says: the controller's on the
controller, the rest on the device that owns the drive, and a namespace exactly when
a namespace knob is set. -/
structure Composed (rt : Runtime) (fi : DriveForm) (i : ℕ) (drive : Dict Json) : Prop where
  serial : Dict.get? drive "serial" = some (serial i)
  ctrl : ∀ p ∈ nvmeCtrlKnobs, Dict.get? drive p.2 = asKnob (fi.pick i p.1)
  atomicDn : Dict.get? drive "atomic.dn" = asToggle fi.atomicDn
  ioeventfd : ∃ b, driveOnoff rt (fi.pick i "ioeventfd") true = .ok b ∧
    Dict.get? drive "ioeventfd" = asToggle b
  cmb : Dict.get? drive "cmb_size_mb" =
    if fi.pick i "cmb_size_mb" = "0" then none else asKnob (fi.pick i "cmb_size_mb")
  legacyCmb : Dict.get? drive "legacy-cmb" =
    asToggle (fi.legacyCmb && (Dict.get? drive "cmb_size_mb").isSome)
  pmr : ∃ m, pmrOf rt fi (fi.pick i) i = .ok m ∧ Dict.get? drive "pmr" = m.map .obj
  backing : if fi.pick i "driver" = "" then FileBacked fi i drive else NullBacked fi i drive
  blockconf : ∀ p ∈ nvmeBlockconfKnobs, Dict.get? (owner drive) p.2 = asKnob (fi.pick i p.1)
  ns : ∀ p ∈ nvmeNsKnobs, Dict.get? (owner drive) p.2 = asKnob (fi.pick i p.1)
  atomicMam : Dict.get? (owner drive) "atomic.mam" = asToggle fi.atomicMam
  explicit : (Dict.get? drive "namespaces").isSome = true ↔
    fi.atomicMam = true ∨ ∃ p ∈ nvmeNsKnobs, fi.pick i p.1 ≠ ""

/-- What QEMU enforces when it opens a drive. -/
structure Opens (rt : Runtime) (drive : Dict Json) : Prop where
  nullDriver : Dict.get? (owner drive) "driver" ≠ none →
    ∀ key ∈ "file" :: "format" :: nvmeBackendKnobs.map Prod.snd,
      Dict.get? drive key = none ∧ Dict.get? (owner drive) key = none
  aioNative : Dict.get? (owner drive) "aio" = some (.str "native") →
    ∃ c ∈ cacheDirect, Dict.get? (owner drive) "cache" = some (.str c)
  detectZeroes : Dict.get? (owner drive) "detect-zeroes" = some (.str "unmap") →
    Dict.get? (owner drive) "discard" = some (.str "unmap")
  pmr : ∀ v, Dict.get? drive "pmr" = some v → ∃ kvs, v = .obj kvs ∧
    (∃ size : ℕ, Dict.get? kvs "size" = some (.num size) ∧ size.isPowerOfTwo ∧ rt.page ≤ size) ∧
    (Dict.get? kvs "pmem" ≠ none → Dict.get? kvs "share" ≠ some (.bool false))
  atomics : ∀ key ∈ nvmeNsKnobs.map Prod.snd ++ ["atomic.mam"], Dict.get? drive key = none

/-- The input with every knob replaced by the part of one drive. -/
def DriveForm.only (fi : DriveForm) (i : ℕ) : DriveForm :=
  { fi with knob := fun param => some (fi.pick i param) }

/-- A drive is that drive of the input with only its own parts. -/
def Local (rt : Runtime) (fi : DriveForm) (i : ℕ) (drive : Dict Json) : Prop :=
  ∃ drives, nvmeDrives rt (fi.only i) = .ok drives ∧ drives[i]? = some drive

/-! ## The parts of an accepted drive -/

section
variable {rt : Runtime} {fi : DriveForm} {pick : String → String} {i : ℕ}

theorem backing_ok {base backend : Dict Json} (h : backing fi pick i = .ok (base, backend)) :
    (pick "driver" ≠ "" ∧ (base, backend) = nullBacking fi pick i (pick "driver")) ∨
      (pick "driver" = "" ∧
        base = fileBase i (driveFormat pick) ∧
        backend = bucket pick nvmeBackendKnobs ∧
        (value? backend "detect-zeroes" = some "unmap" → value? backend "discard" = some "unmap") ∧
        (value? backend "aio" = some "native" →
          ∃ c ∈ cacheDirect, value? backend "cache" = some c)) := by
  rw [backing] at h
  split_ifs at h with hforeign hdriver hzeroes haio
  · exact .inl ⟨hdriver, (Except.ok.inj h).symm⟩
  · cases h
    refine .inr ⟨not_not.mp hdriver, rfl, rfl, fun hunmap => ?_, fun hnative => ?_⟩
    · by_contra hdiscard
      exact hzeroes ⟨hunmap, hdiscard⟩
    · by_contra hcache
      exact haio ⟨hnative, hcache⟩

theorem ctrlOf_ok {ctrl : Dict Json} (h : ctrlOf rt fi pick i = .ok ctrl) :
    ∃ b m, driveOnoff rt (pick "ioeventfd") true = .ok b ∧ pmrOf rt fi pick i = .ok m ∧
      ctrl = withPmr m (withCmb fi pick (ctrlToggles fi pick b)) := by
  obtain ⟨b, hb, h⟩ := except_bind_ok.mp h
  obtain ⟨m, hm, h⟩ := except_bind_ok.mp h
  cases h
  exact ⟨b, m, hb, hm, rfl⟩

theorem partsOf_ok {p : Parts} (h : partsOf rt fi pick i = .ok p) :
    backing fi pick i = .ok (p.base, p.backend) ∧ ctrlOf rt fi pick i = .ok p.ctrl ∧
      p.blockconf = bucket pick nvmeBlockconfKnobs ∧ p.ns = nsOf fi pick := by
  obtain ⟨⟨base, backend⟩, hbacking, h⟩ := except_bind_ok.mp h
  obtain ⟨ctrl, hctrl, h⟩ := except_bind_ok.mp h
  cases h
  exact ⟨hbacking, hctrl, rfl, rfl⟩

/-- A region has a size QEMU takes, and is persistent only when shared. -/
theorem region_ok {size : ℤ} {kvs : Dict Json} (h : region rt fi i size = .ok kvs)
    (hzero : size ≠ 0) :
    (∃ n : ℕ, Dict.get? kvs "size" = some (.num n) ∧ n.isPowerOfTwo ∧ rt.page ≤ n) ∧
      (Dict.get? kvs "pmem" ≠ none → Dict.get? kvs "share" ≠ some (.bool false)) := by
  rw [region] at h
  split_ifs at h with hbad hpmem
  cases h
  rw [badPmrSize, Bool.or_eq_true, not_or, decide_eq_true_eq, decide_eq_true_eq, not_not,
    not_lt] at hbad
  obtain ⟨hpow, hpage⟩ := hbad
  obtain ⟨n, rfl⟩ := Int.eq_ofNat_of_zero_le ((Int.natCast_nonneg rt.page).trans hpage)
  have hn : n ≠ 0 := fun h0 => hzero (by rw [h0]; rfl)
  have hpow' : n.isPowerOfTwo := by
    rw [← Nat.and_sub_one_eq_zero_iff_isPowerOfTwo hn]
    have hcast : ((n : ℤ) - 1) = ((n - 1 : ℕ) : ℤ) := by omega
    rw [hcast] at hpow
    exact Int.ofNat.inj hpow
  refine ⟨⟨n, ?_, hpow', Int.ofNat_le.mp hpage⟩, ?_⟩
  · rw [regionKnobs]
    cases fi.pmrPmem <;> cases fi.pmrShare <;> rfl
  · rw [regionKnobs]
    cases hp : fi.pmrPmem <;> cases hs : fi.pmrShare <;> simp [hp, hs] at hpmem ⊢

/-- The same of a region a drive is given. -/
theorem pmrOf_ok {kvs : Dict Json} (h : pmrOf rt fi pick i = .ok (some kvs)) :
    (∃ n : ℕ, Dict.get? kvs "size" = some (.num n) ∧ n.isPowerOfTwo ∧ rt.page ≤ n) ∧
      (Dict.get? kvs "pmem" ≠ none → Dict.get? kvs "share" ≠ some (.bool false)) := by
  rw [pmrOf] at h
  by_cases hempty : pick "pmr_size" = ""
  · rw [if_pos hempty] at h
    cases h
  · rw [if_neg hempty] at h
    cases hint : rt.int? (pick "pmr_size") with
    | none =>
        rw [hint] at h
        cases h
    | some size =>
        rw [hint] at h
        dsimp only at h
        by_cases hzero : size = 0
        · rw [if_pos hzero] at h
          cases h
        · rw [if_neg hzero] at h
          cases hregion : region rt fi i size with
          | error e =>
              rw [hregion] at h
              cases h
          | ok pmr =>
              rw [hregion] at h
              cases h
              exact region_ok hregion hzero

/-! ## Each part has its own keys -/

theorem only_backing {base backend : Dict Json} (h : backing fi pick i = .ok (base, backend)) :
    Only base Part.base.keys ∧ Only backend Part.backend.keys := by
  rcases backing_ok h with ⟨-, hnull⟩ | ⟨-, rfl, rfl, -⟩
  · rw [nullBacking, Prod.mk.injEq] at hnull
    obtain ⟨rfl, rfl⟩ := hnull
    have hbase : Only [("driver", .str (pick "driver")), ("serial", serial i)] Part.base.keys :=
      only_of_keys (l := ["driver", "serial"]) rfl (by decide) (by decide)
    have hbackend : Only (bucket pick nvmeNullKnobs) Part.backend.keys :=
      (only_bucket _).mono (by decide)
    exact ⟨hbase.ite (hbase.set (by decide) _), hbackend.ite (hbackend.set (by decide) _)⟩
  · exact ⟨only_of_keys (l := ["file", "format", "serial"]) rfl (by decide) (by decide),
      (only_bucket _).mono (by decide)⟩

theorem only_ctrl {ctrl : Dict Json} (h : ctrlOf rt fi pick i = .ok ctrl) :
    Only ctrl Part.ctrl.keys := by
  obtain ⟨b, m, -, -, rfl⟩ := ctrlOf_ok h
  have hbucket : Only (bucket pick nvmeCtrlKnobs) Part.ctrl.keys :=
    (only_bucket _).mono (by decide)
  have htoggles : Only (ctrlToggles fi pick b) Part.ctrl.keys := by
    rw [ctrlToggles]
    have hdn := Only.ite (c := fi.atomicDn = true) (hbucket.set (k := "atomic.dn") (by decide) (.bool true)) hbucket
    exact (hdn.set (by decide) _).ite hdn
  have hcmb : Only (withCmb fi pick (ctrlToggles fi pick b)) Part.ctrl.keys := by
    rw [withCmb]
    have hset := htoggles.set (k := "cmb_size_mb") (by decide) (.str (pick "cmb_size_mb"))
    exact ((hset.set (by decide) _).ite hset).ite htoggles
  cases m with
  | none => exact hcmb
  | some pmr => exact hcmb.set (by decide) _

theorem only_ns : Only (nsOf fi pick) Part.ns.keys := by
  have hbucket : Only (bucket pick nvmeNsKnobs) Part.ns.keys := (only_bucket _).mono (by decide)
  exact (hbucket.set (by decide) _).ite hbucket

/-- The parts of a drive are proper. -/
theorem proper_partsOf {p : Parts} (h : partsOf rt fi pick i = .ok p) : p.Proper := by
  obtain ⟨hbacking, hctrl, hblockconf, hns⟩ := partsOf_ok h
  intro a
  cases a with
  | base => exact (only_backing hbacking).1
  | backend => exact (only_backing hbacking).2
  | ctrl => exact only_ctrl hctrl
  | blockconf =>
      rw [Parts.get, hblockconf]
      exact only_bucket _
  | ns =>
      rw [Parts.get, hns]
      exact only_ns

/-! ## What each part holds -/

theorem get?_withPmr (m : Option (Dict Json)) (ctrl : Dict Json) (k : String) :
    Dict.get? (withPmr m ctrl) k =
      if k = "pmr" then (m.map .obj).or (Dict.get? ctrl k) else Dict.get? ctrl k := by
  cases m with
  | none => simp [withPmr]
  | some pmr => simp [withPmr, Dict.get?_set]

/-- A memory buffer is there for a size other than 0. -/
theorem get?_withCmb (ctrl : Dict Json) (k : String) :
    Dict.get? (withCmb fi pick ctrl) k =
      if pick "cmb_size_mb" ≠ "" ∧ pick "cmb_size_mb" ≠ "0" then
        if k = "legacy-cmb" ∧ fi.legacyCmb = true then some (.bool true)
        else if k = "cmb_size_mb" then some (.str (pick "cmb_size_mb"))
        else Dict.get? ctrl k
      else Dict.get? ctrl k := by
  rw [withCmb]
  dsimp only
  by_cases hcmb : pick "cmb_size_mb" ≠ "" ∧ pick "cmb_size_mb" ≠ "0"
  · rw [if_pos hcmb, if_pos hcmb]
    cases fi.legacyCmb <;> simp [Dict.get?_set]
  · rw [if_neg hcmb, if_neg hcmb]

theorem get?_ctrlToggles (b : Bool) (k : String) :
    Dict.get? (ctrlToggles fi pick b) k =
      if k = "ioeventfd" ∧ b = true then some (.bool true)
      else if k = "atomic.dn" ∧ fi.atomicDn = true then some (.bool true)
      else Dict.get? (bucket pick nvmeCtrlKnobs) k := by
  rw [ctrlToggles]
  cases b <;> cases fi.atomicDn <;> simp [Dict.get?_set]

/-- The knobs of the table reach the controller. -/
theorem get?_ctrlKnob {ctrl : Dict Json} (h : ctrlOf rt fi pick i = .ok ctrl)
    {q : String × String} (hq : q ∈ nvmeCtrlKnobs) : Dict.get? ctrl q.2 = asKnob (pick q.1) := by
  have hother : ∀ q ∈ nvmeCtrlKnobs, q.2 ≠ "pmr" ∧ q.2 ≠ "legacy-cmb" ∧ q.2 ≠ "cmb_size_mb" ∧
      q.2 ≠ "ioeventfd" ∧ q.2 ≠ "atomic.dn" := by decide
  obtain ⟨hpmr, hlegacy, hcmb, hevent, hdn⟩ := hother q hq
  obtain ⟨b, m, -, -, rfl⟩ := ctrlOf_ok h
  rw [get?_withPmr, get?_withCmb, get?_ctrlToggles]
  simp only [hpmr, hlegacy, hcmb, hevent, hdn, false_and, if_false, ite_self]
  exact get?_bucket (by decide) hq

theorem get?_nsKnob {q : String × String} (hq : q ∈ nvmeNsKnobs) :
    Dict.get? (nsOf fi pick) q.2 = asKnob (pick q.1) := by
  have hother : ∀ q ∈ nvmeNsKnobs, q.2 ≠ "atomic.mam" := by decide
  rw [nsOf]
  split_ifs
  · rw [Dict.get?_set_ne _ _ (hother q hq)]
    exact get?_bucket (by decide) hq
  · exact get?_bucket (by decide) hq

theorem get?_mam : Dict.get? (nsOf fi pick) "atomic.mam" = asToggle fi.atomicMam := by
  rw [nsOf, asToggle]
  split_ifs
  · exact Dict.get?_set_self _ _ _
  · exact get?_bucket_other (by decide)

theorem nsOf_ne_nil_iff : nsOf fi pick ≠ [] ↔
    fi.atomicMam = true ∨ ∃ q ∈ nvmeNsKnobs, pick q.1 ≠ "" := by
  have hbucket : bucket pick nvmeNsKnobs ≠ [] ↔ ∃ q ∈ nvmeNsKnobs, pick q.1 ≠ "" := by
    rw [ne_eq, bucket_eq_nil_iff (by decide)]
    push Not
    rfl
  rw [nsOf]
  cases fi.atomicMam with
  | false => simpa using hbucket
  | true =>
      refine iff_of_true (fun hnil => ?_) (.inl rfl)
      have hget := Dict.get?_set_self (bucket pick nvmeNsKnobs) "atomic.mam" (Json.bool true)
      rw [if_pos rfl] at hnil
      rw [hnil] at hget
      cases hget

/-! ## An accepted drive is composed -/

theorem base_serial {base backend : Dict Json} (h : backing fi pick i = .ok (base, backend)) :
    Dict.get? base "serial" = some (serial i) := by
  rcases backing_ok h with ⟨-, hnull⟩ | ⟨-, rfl, -⟩
  · rw [nullBacking, Prod.mk.injEq] at hnull
    rw [hnull.1]
    split_ifs <;> rfl
  · rfl

/-- A file drive, on the device that owns it. -/
theorem fileBacked {p : Parts} (hp : p.Proper) (hbase : p.base = fileBase i (driveFormat (fi.pick i)))
    (hbackend : p.backend = bucket (fi.pick i) nvmeBackendKnobs) :
    FileBacked fi i (assemble p) := by
  refine ⟨?_, ?_, ?_, fun q hq => ?_⟩
  · rw [get?_owner hp (a := .base) (by decide) (by decide) (by decide), Parts.get, hbase]
    rfl
  · rw [get?_owner hp (a := .base) (by decide) (by decide) (by decide), Parts.get, hbase]
    rfl
  · rw [get?_owner hp (a := .base) (by decide) (by decide) (by decide), Parts.get, hbase]
    rfl
  · have hserial : ∀ q ∈ nvmeBackendKnobs, q.2 ≠ "serial" := by decide
    have hkey : q.2 ∈ Part.backend.keys := List.mem_append_left _ (List.mem_map_of_mem hq)
    rw [get?_owner hp (a := .backend) (by decide) hkey (hserial q hq), Parts.get, hbackend]
    exact get?_bucket (by decide) hq

/-- A null drive, on the device that owns it. -/
theorem nullBacked {p : Parts} (hp : p.Proper)
    (h : (p.base, p.backend) = nullBacking fi (fi.pick i) i (fi.pick i "driver")) :
    NullBacked fi i (assemble p) := by
  rw [nullBacking, Prod.mk.injEq] at h
  obtain ⟨hbase, hbackend⟩ := h
  have hzeroes : Dict.get? (bucket (fi.pick i) nvmeNullKnobs) "read-zeroes" =
      asKnob (fi.pick i "read_zeroes") :=
    get?_bucket (p := ("read_zeroes", "read-zeroes")) (by decide) (by decide)
  have hlatency : Dict.get? (bucket (fi.pick i) nvmeNullKnobs) "latency-ns" =
      asKnob (fi.pick i "latency_ns") :=
    get?_bucket (p := ("latency_ns", "latency-ns")) (by decide) (by decide)
  refine ⟨?_, ?_, ?_, ?_⟩
  · rw [get?_owner hp (a := .base) (by decide) (by decide) (by decide), Parts.get, hbase]
    split_ifs <;> rfl
  · rw [get?_owner hp (a := .base) (by decide) (by decide) (by decide), Parts.get, hbase]
    split_ifs <;> rfl
  · rw [get?_owner hp (a := .backend) (by decide) (by decide) (by decide), Parts.get, hbackend,
      setDefault, Dict.contains, hzeroes, asKnob]
    by_cases hempty : fi.pick i "read_zeroes" = ""
    · simp only [hempty, if_true, Option.isSome_none, Bool.false_eq_true, if_false]
      exact Dict.get?_set_self _ _ _
    · simp only [hempty, if_false, Option.isSome_some, if_true]
      rw [hzeroes, asKnob, if_neg hempty]
  · rw [get?_owner hp (a := .backend) (by decide) (by decide) (by decide), Parts.get, hbackend,
      setDefault]
    split_ifs
    · exact hlatency
    · rw [Dict.get?_set_ne _ _ (by decide), hlatency]

/-- Each knob of an accepted drive is on the device that takes it. -/
theorem composed_of {p : Parts} (h : partsOf rt fi (fi.pick i) i = .ok p) :
    Composed rt fi i (assemble p) := by
  have hp := proper_partsOf h
  obtain ⟨hbacking, hctrl, hblockconf, hns⟩ := partsOf_ok h
  have hbase := base_serial hbacking
  obtain ⟨b, m, hb, hm, hctrlEq⟩ := ctrlOf_ok hctrl
  have hget : ∀ k ∈ Part.ctrl.keys, k ∉ nvmeCtrlKnobs.map Prod.snd →
      Dict.get? (assemble p) k = Dict.get? (withPmr m (withCmb fi (fi.pick i)
        (ctrlToggles fi (fi.pick i) b))) k ∧
      Dict.get? (bucket (fi.pick i) nvmeCtrlKnobs) k = none := by
    intro k hk hother
    rw [get?_ctrl hp hk, hctrlEq]
    exact ⟨rfl, get?_bucket_other hother⟩
  have hcmb : Dict.get? (assemble p) "cmb_size_mb" =
      if fi.pick i "cmb_size_mb" = "0" then none else asKnob (fi.pick i "cmb_size_mb") := by
    obtain ⟨hdrive, hnone⟩ := hget "cmb_size_mb" (by decide) (by decide)
    rw [hdrive, get?_withPmr, get?_withCmb, get?_ctrlToggles, hnone, asKnob]
    by_cases hempty : fi.pick i "cmb_size_mb" = "" <;>
      by_cases hzero : fi.pick i "cmb_size_mb" = "0" <;> simp [hempty, hzero]
  refine ⟨?_, fun q hq => ?_, ?_, ⟨b, hb, ?_⟩, hcmb, ?_, ⟨m, hm, ?_⟩, ?_, fun q hq => ?_,
    fun q hq => ?_, ?_, ?_⟩
  · rw [get?_serial hp, hbase]
    split_ifs <;> rfl
  · have hkey : q.2 ∈ Part.ctrl.keys := List.mem_append_left _ (List.mem_map_of_mem hq)
    rw [get?_ctrl hp hkey]
    exact get?_ctrlKnob hctrl hq
  · obtain ⟨hdrive, hnone⟩ := hget "atomic.dn" (by decide) (by decide)
    rw [hdrive, get?_withPmr, get?_withCmb, get?_ctrlToggles, hnone, asToggle]
    simp
  · obtain ⟨hdrive, hnone⟩ := hget "ioeventfd" (by decide) (by decide)
    rw [hdrive, get?_withPmr, get?_withCmb, get?_ctrlToggles, hnone, asToggle]
    simp
  · obtain ⟨hdrive, hnone⟩ := hget "legacy-cmb" (by decide) (by decide)
    rw [hcmb, hdrive, get?_withPmr, get?_withCmb, get?_ctrlToggles, hnone, asToggle, asKnob]
    by_cases hempty : fi.pick i "cmb_size_mb" = "" <;>
      by_cases hzero : fi.pick i "cmb_size_mb" = "0" <;> simp [hempty, hzero]
  · obtain ⟨hdrive, hnone⟩ := hget "pmr" (by decide) (by decide)
    rw [hdrive, get?_withPmr, get?_withCmb, get?_ctrlToggles, hnone]
    simp
  · cases backing_ok hbacking with
    | inl hnull =>
        rw [if_neg hnull.1]
        exact nullBacked hp hnull.2
    | inr hfile =>
        rw [if_pos hfile.1]
        exact fileBacked hp hfile.2.1 hfile.2.2.1
  · have hserial : ∀ q ∈ nvmeBlockconfKnobs, q.2 ≠ "serial" := by decide
    have hkey : q.2 ∈ Part.blockconf.keys := List.mem_map_of_mem hq
    rw [get?_owner hp (a := .blockconf) (by decide) hkey (hserial q hq), Parts.get, hblockconf]
    exact get?_bucket (by decide) hq
  · have hserial : ∀ q ∈ nvmeNsKnobs, q.2 ≠ "serial" := by decide
    have hkey : q.2 ∈ Part.ns.keys := List.mem_append_left _ (List.mem_map_of_mem hq)
    rw [get?_owner hp (a := .ns) (by decide) hkey (hserial q hq), Parts.get, hns]
    exact get?_nsKnob hq
  · rw [get?_owner hp (a := .ns) (by decide) (by decide) (by decide), Parts.get, hns]
    exact get?_mam
  · rw [← nsOf_ne_nil_iff, ← hns]
    by_cases hnil : p.ns = []
    · rw [get?_flat hp hnil, first_namespaces hp]
      simp [hnil]
    · rw [assemble, if_pos hnil, Dict.get?_set_self]
      simp [hnil]

/-! ## QEMU opens an accepted drive -/

theorem value?_eq_some_iff {d : Dict Json} {k v : String} :
    value? d k = some v ↔ Dict.get? d k = some (.str v) := by
  rw [value?]
  split
  · next w hw =>
      rw [hw, Option.some.injEq, Option.some.injEq, Json.str.injEq]
  · next hother =>
      refine iff_of_false (by simp) fun hget => hother v hget

/-- A null drive has no knob of a file backend. -/
theorem nullBackend_none {base backend : Dict Json} {driver : String}
    (h : (base, backend) = nullBacking fi pick i driver) {k : String}
    (hk : k ∈ nvmeBackendKnobs.map Prod.snd) : Dict.get? backend k = none := by
  have hother : ∀ k ∈ nvmeBackendKnobs.map Prod.snd, k ∉ nvmeNullKnobs.map Prod.snd ∧
      k ≠ "read-zeroes" := by decide
  obtain ⟨hnull, hzeroes⟩ := hother k hk
  rw [nullBacking, Prod.mk.injEq] at h
  rw [h.2, setDefault]
  split_ifs
  · exact get?_bucket_other hnull
  · rw [Dict.get?_set_ne _ _ hzeroes, get?_bucket_other hnull]

theorem nullBase_none {base backend : Dict Json} {driver : String}
    (h : (base, backend) = nullBacking fi pick i driver) {k : String}
    (hk : k = "file" ∨ k = "format") : Dict.get? base k = none := by
  rw [nullBacking, Prod.mk.injEq] at h
  rw [h.1]
  rcases hk with rfl | rfl <;> split_ifs <;> rfl

/-- An accepted drive keeps what QEMU enforces. -/
theorem opens_of {p : Parts} (h : partsOf rt fi (fi.pick i) i = .ok p) :
    Opens rt (assemble p) := by
  have hp := proper_partsOf h
  obtain ⟨hbacking, hctrl, -, -⟩ := partsOf_ok h
  have hbackend : ∀ k ∈ nvmeBackendKnobs.map Prod.snd,
      Dict.get? (owner (assemble p)) k = Dict.get? p.backend k := by
    intro k hk
    have hserial : ∀ k ∈ nvmeBackendKnobs.map Prod.snd, k ≠ "serial" := by decide
    exact get?_owner hp (a := .backend) (by decide) (List.mem_append_left _ hk) (hserial k hk)
  refine ⟨fun hdriver key hkey => ?_, fun haio => ?_, fun hzeroes => ?_, fun v hv => ?_,
    fun key hkey => get?_ns hp hkey⟩
  · cases backing_ok hbacking with
    | inr hfile => exact absurd (fileBacked hp hfile.2.1 hfile.2.2.1).driver hdriver
    | inl hnull =>
        have hboth : ∀ {a : Part}, a ≠ .ctrl → key ∈ a.keys → key ≠ "serial" →
            Dict.get? (p.get a) key = none →
            Dict.get? (assemble p) key = none ∧ Dict.get? (owner (assemble p)) key = none := by
          intro a ha hmem hserial hnone
          have howner := (get?_owner hp ha hmem hserial).trans hnone
          exact ⟨get?_none_of_owner hp ha hmem hserial howner, howner⟩
        rcases List.mem_cons.mp hkey with rfl | hkey
        · exact hboth (a := .base) (by decide) (by decide) (by decide)
            (nullBase_none hnull.2 (.inl rfl))
        · rcases List.mem_cons.mp hkey with rfl | hkey
          · exact hboth (a := .base) (by decide) (by decide) (by decide)
              (nullBase_none hnull.2 (.inr rfl))
          · have hserial : ∀ k ∈ nvmeBackendKnobs.map Prod.snd, k ≠ "serial" := by decide
            exact hboth (a := .backend) (by decide) (List.mem_append_left _ hkey) (hserial key hkey)
              (nullBackend_none hnull.2 hkey)
  · rw [hbackend "aio" (by decide)] at haio
    rw [hbackend "cache" (by decide)]
    cases backing_ok hbacking with
    | inl hnull =>
        rw [nullBackend_none hnull.2 (by decide)] at haio
        cases haio
    | inr hfile =>
        obtain ⟨c, hc, hcache⟩ := hfile.2.2.2.2 (value?_eq_some_iff.mpr haio)
        exact ⟨c, hc, value?_eq_some_iff.mp hcache⟩
  · rw [hbackend "detect-zeroes" (by decide)] at hzeroes
    rw [hbackend "discard" (by decide)]
    cases backing_ok hbacking with
    | inl hnull =>
        rw [nullBackend_none hnull.2 (by decide)] at hzeroes
        cases hzeroes
    | inr hfile =>
        exact value?_eq_some_iff.mp (hfile.2.2.2.1 (value?_eq_some_iff.mpr hzeroes))
  · obtain ⟨m, hm, hpmr⟩ := (composed_of h).pmr
    rw [hpmr, Option.map_eq_some_iff] at hv
    obtain ⟨kvs, rfl, rfl⟩ := hv
    exact ⟨kvs, rfl, pmrOf_ok hm⟩

/-! ## A drive is made of its own parts -/

/-- Whether the parts of a drive are accepted does not depend on its index. -/
theorem partsOf_returns (j : ℕ) (h : ∃ p, partsOf rt fi pick i = .ok p) :
    ∃ p, partsOf rt fi pick j = .ok p := by
  obtain ⟨p, hp⟩ := h
  obtain ⟨hbacking, hctrl, -, -⟩ := partsOf_ok hp
  have hbacking' : ∃ b, backing fi pick j = .ok b := by
    rw [backing] at hbacking ⊢
    split_ifs at hbacking ⊢
    · exact ⟨_, rfl⟩
    · exact ⟨_, rfl⟩
  have hpmr' : ∀ {m}, pmrOf rt fi pick i = .ok m → pmrOf rt fi pick j = .ok m := by
    intro m hm
    have hregion : ∀ {size kvs}, region rt fi i size = .ok kvs →
        region rt fi j size = .ok kvs := by
      intro size kvs hkvs
      rw [region] at hkvs ⊢
      split_ifs at hkvs ⊢
      exact hkvs
    rw [pmrOf] at hm ⊢
    by_cases hempty : pick "pmr_size" = ""
    · rw [if_pos hempty] at hm ⊢
      exact hm
    · rw [if_neg hempty] at hm ⊢
      cases hint : rt.int? (pick "pmr_size") with
      | none =>
          rw [hint] at hm
          cases hm
      | some size =>
          rw [hint] at hm
          dsimp only at hm ⊢
          by_cases hzero : size = 0
          · rw [if_pos hzero] at hm ⊢
            exact hm
          · rw [if_neg hzero] at hm ⊢
            cases hkvs : region rt fi i size with
            | error e =>
                rw [hkvs] at hm
                cases hm
            | ok kvs =>
                rw [hkvs] at hm
                rw [hregion hkvs]
                exact hm
  obtain ⟨b, m, hb, hm, -⟩ := ctrlOf_ok hctrl
  obtain ⟨⟨base, backend⟩, hback⟩ := hbacking'
  refine ⟨⟨base, backend, withPmr m (withCmb fi pick (ctrlToggles fi pick b)),
    bucket pick nvmeBlockconfKnobs, nsOf fi pick⟩, ?_⟩
  rw [partsOf, hback, ctrlOf, hb, hpmr' hm]
  rfl

end

/-- A part is a single value, the same for every drive. -/
theorem drivePick_part (raw : Option String) (i j : ℕ) :
    drivePick (some (drivePick raw i)) j = drivePick raw i := by
  have hcomma : ∀ raw i, ',' ∉ (drivePick raw i).toList := by
    intro raw i
    rw [drivePick, String.toList_ofList]
    refine fun hmem => ?_
    have hvalue := Text.strip_subset _ hmem
    split_ifs at hvalue with hone
    · cases hparts : Text.split ',' (raw.getD "").toList with
      | nil => exact Text.split_ne_nil _ _ hparts
      | cons w ws =>
          rw [hparts] at hvalue
          exact Text.not_mem_of_mem_split (hparts ▸ List.mem_cons_self) hvalue
    · by_cases hi : i < (Text.split ',' (raw.getD "").toList).length
      · rw [List.getD_eq_getElem _ _ hi] at hvalue
        exact Text.not_mem_of_mem_split (List.getElem_mem hi) hvalue
      · rw [List.getD_eq_default _ _ (Nat.le_of_not_lt hi)] at hvalue
        exact List.not_mem_nil hvalue
  have hstrip : Text.strip (drivePick raw i).toList = (drivePick raw i).toList := by
    rw [drivePick, String.toList_ofList, Text.strip_idem]
  rw [drivePick, Option.getD_some, Text.split_of_not_mem (hcomma raw i)]
  dsimp only [List.length_cons, List.length_nil]
  rw [if_pos rfl, List.headD_cons, hstrip, String.ofList_toList]

theorem only_pick (fi : DriveForm) (i j : ℕ) : (fi.only i).pick j = fi.pick i :=
  funext fun param => drivePick_part (fi.knob param) i j

/-! ## The drives of an accepted input -/

theorem driveOf_ok {rt : Runtime} {fi : DriveForm} {i : ℕ} {drive : Dict Json}
    (h : driveOf rt fi i = .ok drive) :
    ∃ p, partsOf rt fi (fi.pick i) i = .ok p ∧ drive = assemble p := by
  rw [driveOf] at h
  cases hp : partsOf rt fi (fi.pick i) i with
  | error e =>
      rw [hp] at h
      cases h
  | ok p =>
      rw [hp] at h
      cases h
      exact ⟨p, rfl, rfl⟩

/-- The drives, one for each index below the count. -/
theorem nvmeDrives_ok {rt : Runtime} {fi : DriveForm} {drives : List (Dict Json)}
    (hlist : fi.nvmeDrives = []) (h : nvmeDrives rt fi = .ok drives) :
    drives.length = fi.count.toNat ∧
      ∀ i (hi : i < drives.length), driveOf rt fi i = .ok drives[i] := by
  rw [nvmeDrives, if_neg (not_not.mpr hlist)] at h
  have hall := except_mapM_ok h
  have hlength : drives.length = fi.count.toNat := by
    rw [← hall.length_eq, List.length_range]
  refine ⟨hlength, fun i hi => ?_⟩
  have hat := hall.get (by rw [List.length_range, ← hlength]; exact hi) hi
  simpa using hat

/-- Cutting every knob to the part of a drive keeps that drive. -/
theorem local_of {rt : Runtime} {fi : DriveForm} {i : ℕ} {drive : Dict Json}
    (hlist : fi.nvmeDrives = []) (hi : i < fi.count.toNat) (h : driveOf rt fi i = .ok drive) :
    Local rt fi i drive := by
  have hsame : ∀ j, driveOf rt (fi.only i) j = (partsOf rt fi (fi.pick i) j).map assemble := by
    intro j
    rw [driveOf, only_pick]
    rfl
  have hreturns : ∀ j ∈ List.range fi.count.toNat, ∃ d, driveOf rt (fi.only i) j = .ok d := by
    intro j _
    obtain ⟨p, hp, -⟩ := driveOf_ok h
    obtain ⟨q, hq⟩ := partsOf_returns j ⟨p, hp⟩
    exact ⟨assemble q, by rw [hsame, hq]; rfl⟩
  obtain ⟨drives, hdrives⟩ := except_mapM_returns hreturns
  have honly : (fi.only i).nvmeDrives = [] := hlist
  have hall : nvmeDrives rt (fi.only i) = .ok drives := by
    rw [nvmeDrives, if_neg (not_not.mpr honly)]
    exact hdrives
  obtain ⟨hlength, hat⟩ := nvmeDrives_ok honly hall
  have hi' : i < drives.length := by
    rw [hlength]
    exact hi
  refine ⟨drives, hall, ?_⟩
  rw [List.getElem?_eq_getElem hi', ← Except.ok.inj ((hat i hi').symm.trans ((hsame i).trans h))]

theorem serial_inj {i j : ℕ} (h : serial i = serial j) : i = j := by
  have hlist := congrArg String.toList (Json.str.inj h)
  rw [String.toList_append, String.toList_append] at hlist
  have hdigits := List.append_cancel_left hlist
  have hnum := congrArg (fun ds => Nat.ofDigitChars 10 ds 0) hdigits
  simpa [Nat.toString_eq_ofList_toDigits] using hnum

/-- What an accepted input without a list of its own gives. -/
theorem nvmeDrives_wellFormed {rt : Runtime} {fi : DriveForm} {drives : List (Dict Json)}
    (hlist : fi.nvmeDrives = []) (hcount : 0 ≤ fi.count) (h : nvmeDrives rt fi = .ok drives) :
    (drives.length : ℤ) = fi.count ∧
      (drives.map fun drive => Dict.get? drive "serial").Nodup ∧
        ∀ i (hi : i < drives.length), Composed rt fi i drives[i] ∧ Opens rt drives[i] ∧
          Local rt fi i drives[i] := by
  obtain ⟨hlength, hat⟩ := nvmeDrives_ok hlist h
  have hdrive : ∀ i (hi : i < drives.length), Composed rt fi i drives[i] ∧ Opens rt drives[i] := by
    intro i hi
    obtain ⟨p, hp, heq⟩ := driveOf_ok (hat i hi)
    rw [heq]
    exact ⟨composed_of hp, opens_of hp⟩
  refine ⟨by rw [hlength, Int.toNat_of_nonneg hcount], ?_, fun i hi =>
    ⟨(hdrive i hi).1, (hdrive i hi).2, local_of hlist (hlength ▸ hi) (hat i hi)⟩⟩
  refine List.pairwise_iff_getElem.mpr fun i j hi hj hlt heq => ?_
  rw [List.length_map] at hi hj
  rw [List.getElem_map, List.getElem_map, (hdrive i hi).1.serial, (hdrive j hj).1.serial] at heq
  exact absurd (serial_inj (Option.some.inj heq)) (Nat.ne_of_lt hlt)

/-- A null drive with a namespace beside a file drive with a region. -/
def sampleForm : DriveForm where
  nvmeDrives := []
  count := 2
  sizeGb := 20
  knob := Dict.get? [("driver", "null-co,"), ("atomic_nawun", "7,"), ("aio", "native"),
    ("cache", "none"), ("ioeventfd", "off,"), ("pmr_size", "0,8192")]
  atomicDn := true
  atomicMam := false
  legacyCmb := false
  pmrShare := true
  pmrPmem := true

/-- A host with pages of 4 KiB; `int` as it reads a text of digits. -/
def sampleRuntime : Runtime :=
  ⟨fun s => String.ofList (s.toList.map Char.toLower),
    fun s => some (Nat.ofDigitChars 10 s.toList 0), 4096⟩

theorem nvmeDrives_wellFormed_sample :
    let drives := (nvmeDrives sampleRuntime sampleForm).toOption.getD []
    (drives.length : ℤ) = 2 ∧
      (drives.map fun drive => Dict.get? drive "serial").Nodup ∧
        ∀ i (hi : i < drives.length), Composed sampleRuntime sampleForm i drives[i] ∧
          Opens sampleRuntime drives[i] ∧ Local sampleRuntime sampleForm i drives[i] :=
  @nvmeDrives_wellFormed sampleRuntime sampleForm _ rfl (by decide) (by decide +kernel)

end KdevopsNg.Qsu
