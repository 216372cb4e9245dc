/-
# `Kernel.Bringup` — the bringup inputs of a bisect candidate

`bringup_args` of `f/kernel/bisect_step.py`: the `f/qsu/bringup` inputs that
build and boot one candidate, either the bisect's built-in guest or a pasted
bringup run's inputs with the groups the bisect owns replaced.

The pasted guest is arbitrary JSON.  `_check_guest` looks at its top level only
(a dictionary with a `kernel` and a `closure` key), while `bringup_args` goes
two levels deeper, so it can raise on a guest that was accepted.  Exactly when
it does is `bringupArgs_returns_iff`: the nested groups must have the shape
`GuestShape` spells out.
-/
import KdevopsNg.Py.Json
import KdevopsNg.Py.Text

namespace KdevopsNg.Kernel

open Py

/-- The suites a bisect can run. -/
inductive Payload where
  | kunit
  | selftests
  | runtimeTests
  | usertests
  | usertestsBuild
  deriving DecidableEq, Repr

/-- The name a flow gives the payload. -/
def Payload.name : Payload → String
  | .kunit => "kunit"
  | .selftests => "selftests"
  | .runtimeTests => "runtime_tests"
  | .usertests => "usertests"
  | .usertestsBuild => "usertests_build"

/-- The payload of a name; none for a name the step rejects. -/
def Payload.ofName? (s : String) : Option Payload :=
  if s = "kunit" then some .kunit
  else if s = "selftests" then some .selftests
  else if s = "runtime_tests" then some .runtimeTests
  else if s = "usertests" then some .usertests
  else if s = "usertests_build" then some .usertestsBuild
  else none

theorem Payload.ofName?_name (p : Payload) : Payload.ofName? p.name = some p := by
  cases p <;> decide

/-! ## The lists the payload adds -/

/-- The payload's closure test suite. -/
def closureSuites : Payload → List String
  | .runtimeTests => []
  | .selftests => ["selftests"]
  | .usertests => ["usertests"]
  | .kunit | .usertestsBuild => ["kunit"]

/-- `_union` with a pasted list, which can be any value that iterates. -/
def union (base : Json) (extra : List String) : Except PyError Json := do
  let xs ← base.iter
  let ys ← Json.fromKeys (xs ++ extra.map Json.str)
  return .arr ys

/-- The harness directories of the picked binaries. -/
def harnessDirs (suites : List String) : List String :=
  (suites.map fun s => String.ofList (s.toList.takeWhile (· ≠ '/'))).eraseDups

/-- A list of strings as a JSON value. -/
def strs (xs : List String) : Json := .arr (xs.map Json.str)

/-! ## The guest check -/

/-- `_check_guest`: the top level of a pasted guest. -/
def checkGuest (guest : Json) : Except PyError Unit :=
  let bringup := match guest with
    | .obj kvs => Dict.contains kvs "kernel" && Dict.contains kvs "closure"
    | _ => false
  if guest.truthy && !bringup then
    .error (.valueError ("guest must be an f/qsu/bringup run's inputs, with at least its " ++
      "`kernel` and `closure` groups"))
  else .ok ()

/-! ## The inputs -/

/-- The VM identity every candidate is booted with. -/
def vmGroup (vmName : String) : Json :=
  .obj [("vm_target", .str "new"), ("auto_vm_name", .bool false), ("vm_name", .str vmName)]

/-- The kernel worktree group that pins the candidate. -/
def worktreeGroup (candidate : Json) : Dict Json :=
  [("custom_ref", .bool true), ("git_ref", candidate), ("b4_series", .str ""),
    ("custom_label", .bool false)]

/-- Store reuse, always on. -/
def reuseGroup : Json := .obj [("reuse", .bool true), ("use_peers", .bool true)]

/-- The built-in guest. -/
def builtinGuest (candidate : Json) (vmName : String) (payload : Payload)
    (suites : List String) (compiler makeFlags : String) : Json :=
  let selftests := payload = .selftests
  let usertests := payload = .usertests
  .obj [
    ("boot_orchestration", .obj [
      ("wait_timeout", .num 300), ("emit_vars_yaml_snapshot", .bool false)]),
    ("vm", vmGroup vmName),
    ("qemu", .obj [("mode", .str "nixpkgs")]),
    ("boot_kernel", .obj [("kernel_parameters", .arr [])]),
    ("closure", .obj [
      ("mode", .str "build"),
      ("lock", .obj [("update_lock", .bool true)]),
      ("guest", .obj [
        ("vm_name", .str vmName), ("home", .bool true), ("shares", .obj []),
        ("home_dir", .str ""), ("ssh_keys", .arr []), ("user_name", .str "kdevops")]),
      ("closure", .obj [
        ("profiles", strs ["devel"]), ("overrides", .arr []),
        ("test_suites", strs (closureSuites payload))])]),
    ("boot_nvme", .obj [
      ("customize_drives", .bool false), ("nvme_drive_count", .num 4),
      ("nvme_drive_size_gb", .num 20)]),
    ("kernel", .obj [
      ("mode", .str "build"),
      ("build", .obj [
        ("ccache", .bool true), ("compiler", .str compiler),
        ("make_flags", .str makeFlags), ("reproducible", .bool true)]),
      ("reuse", reuseGroup),
      ("installation", .obj [("install", .bool true), ("modules_install", .bool true)]),
      ("configuration", .obj [
        ("config_method", .str "preset"), ("preset", .str "imageless_defconfig")]),
      ("worktree", .obj (worktreeGroup candidate)),
      ("selftests", .obj [
        ("enable", .bool selftests), ("targets", strs (if selftests then suites else [])),
        ("extra_targets", .str "")]),
      ("usertests", .obj [
        ("enable", .bool usertests),
        ("harnesses", strs (if usertests then harnessDirs suites else []))])]),
    ("boot_qemu", .obj [
      ("cpu", .str "host"), ("ram", .num 4096), ("cpus", .num 4), ("accel", .str "kvm"),
      ("iommu", .str ""), ("machine_type", .str "q35")]),
    ("boot_networking", .obj [
      ("vm_index", .num 0), ("ssh_port_base", .num 10022), ("vsock_cid_base", .num 100),
      ("custom_ssh_port", .bool false), ("custom_vsock_cid", .bool false)]),
    ("boot_sharing", .obj [
      ("home_share", .bool true), ("controller_share", .bool false),
      ("custom_virtiofsd", .bool false), ("home_share_readwrite", .bool true)])]

/-- `v.pop("ref", None)`, as the value of `v` afterwards. -/
def popRef : Json → Except PyError Json
  | .obj kvs => .ok (.obj (Dict.erase kvs "ref"))
  | .arr _ => .error .typeError
  | _ => .error .attributeError

/-- The pasted `closure` group with the VM name and the payload's test suite. -/
def overrideClosure (vmName : String) (payload : Payload) (closure : Json) :
    Except PyError Json := do
  let guest ← closure.getD "guest" (.obj [])
  let guest ← guest.setItem "vm_name" (.str vmName)
  let closure ← closure.setItem "guest" guest
  let body ← closure.getD "closure" (.obj [])
  let suites ← body.getD "test_suites" .null
  let suites ← union (suites.orElse (.arr [])) (closureSuites payload)
  let body ← body.setItem "test_suites" suites
  closure.setItem "closure" body

/-- A pasted suite group (`selftests`, `usertests`) switched on, its list
extended. -/
def overrideSuite (kernel : Json) (group list : String) (extra : List String) :
    Except PyError Json := do
  let pasted := (← kernel.getD group .null).orElse (.obj [])
  let enabled ← pasted.spread [("enable", .bool true)]
  let picked ← pasted.getD list .null
  let picked ← union (picked.orElse (.arr [])) extra
  let enabled ← enabled.setItem list picked
  kernel.setItem group enabled

/-- The pasted `kernel` group with the candidate, the toolchain and the suites. -/
def overrideKernel (candidate : Json) (payload : Payload) (suites : List String)
    (compiler makeFlags : String) (kernel : Json) : Except PyError Json := do
  let kernel ← kernel.setItem "mode" (.str "build")
  let pasted := (← kernel.getD "worktree" .null).orElse (.obj [])
  let pasted ← popRef pasted
  let worktree ← pasted.spread (worktreeGroup candidate)
  let kernel ← kernel.setItem "worktree" worktree
  let build := (← kernel.getD "build" .null).orElse (.obj [])
  let build ← build.spread [("compiler", .str compiler), ("make_flags", .str makeFlags)]
  let kernel ← kernel.setItem "build" build
  let kernel ← kernel.setItem "reuse" reuseGroup
  match payload with
  | .selftests => overrideSuite kernel "selftests" "targets" suites
  | .usertests => overrideSuite kernel "usertests" "harnesses" (harnessDirs suites)
  | _ => return kernel

/-- `bringup_args`: the inputs that build and boot `candidate`. -/
def bringupArgs (candidate : Json) (vmName : String) (payload : Payload)
    (suites : List String) (compiler makeFlags : String) (guest : Json) :
    Except PyError Json :=
  if guest.truthy then do
    checkGuest guest
    let args ← guest.setItem "vm" (vmGroup vmName)
    let args : Json := match args with
      | .obj kvs => .obj (Dict.erase kvs "worktree")
      | v => v
    let closure ← args.getItem "closure"
    let closure ← overrideClosure vmName payload closure
    let args ← args.setItem "closure" closure
    let kernel ← args.getItem "kernel"
    let kernel ← overrideKernel candidate payload suites compiler makeFlags kernel
    args.setItem "kernel" kernel
  else .ok (builtinGuest candidate vmName payload suites compiler makeFlags)

/-! ## When a pasted guest can be overridden -/

/-- A pasted group that is left out, falsy, or a dictionary: `v or {}` is a
dictionary. -/
def GroupShape (v : Option Json) : Prop := ∃ kvs, (v.getD .null).orElse (.obj []) = .obj kvs

/-- A pasted list that is left out, falsy, or iterates over values that can be
dictionary keys. -/
def ListShape (v : Option Json) : Prop :=
  ∃ xs, ((v.getD .null).orElse (.arr [])).iter = .ok xs ∧ xs.all Json.hashable = true

/-- A pasted suite group of the kernel: a group whose list has the list shape. -/
def SuiteShape (kernel : Dict Json) (group list : String) : Prop :=
  ∃ kvs, ((Dict.get? kernel group).getD .null).orElse (.obj []) = .obj kvs ∧
    ListShape (Dict.get? kvs list)

/-- The nested groups of a pasted guest that `bringup_args` writes into. -/
structure GuestShape (payload : Payload) (guest : Dict Json) : Prop where
  closure : ∃ closure, Dict.get? guest "closure" = some (.obj closure) ∧
    (∃ kvs, (Dict.get? closure "guest").getD (.obj []) = .obj kvs) ∧
    ∃ body, (Dict.get? closure "closure").getD (.obj []) = .obj body ∧
      ListShape (Dict.get? body "test_suites")
  kernel : ∃ kernel, Dict.get? guest "kernel" = some (.obj kernel) ∧
    GroupShape (Dict.get? kernel "worktree") ∧ GroupShape (Dict.get? kernel "build") ∧
    (payload = .selftests → SuiteShape kernel "selftests" "targets") ∧
    (payload = .usertests → SuiteShape kernel "usertests" "harnesses")

/-! ## The shape is what the override needs -/

/-- A computation of two steps returns when both do. -/
theorem bind_returns_iff {α β : Type} (x : Except PyError α) (f : α → Except PyError β) :
    (∃ b, (x >>= f) = .ok b) ↔ ∃ a, x = .ok a ∧ ∃ b, f a = .ok b := by
  cases x with
  | error e => simp [bind, Except.bind]
  | ok a => simp [bind, Except.bind]

/-- `_union` raises exactly on a base that does not iterate or holds a value
that cannot be a dictionary key. -/
theorem union_returns_iff (base : Json) (extra : List String) :
    (∃ r, union base extra = .ok r) ↔
      ∃ xs, base.iter = .ok xs ∧ xs.all Json.hashable = true := by
  have hextra : (extra.map Json.str).all Json.hashable = true := by
    simp [List.all_eq_true, Json.hashable]
  simp only [union, bind_returns_iff, Json.fromKeys, List.all_append, hextra, Bool.and_true]
  refine exists_congr fun xs => and_congr_right fun _ => ?_
  by_cases h : xs.all Json.hashable = true
  · simp [h, pure, Except.pure]
  · simp [h]

theorem overrideClosure_returns_iff (vmName : String) (payload : Payload) (closure : Dict Json) :
    (∃ r, overrideClosure vmName payload (.obj closure) = .ok r) ↔
      (∃ kvs, (Dict.get? closure "guest").getD (.obj []) = .obj kvs) ∧
      ∃ body, (Dict.get? closure "closure").getD (.obj []) = .obj body ∧
        ListShape (Dict.get? body "test_suites") := by
  unfold overrideClosure
  simp only [bind_returns_iff, Json.getD_obj, Except.ok.injEq, exists_eq_left']
  cases hg : (Dict.get? closure "guest").getD (.obj []) with
  | obj kvs =>
      simp only [Json.setItem_obj, Except.ok.injEq, exists_eq_left', Json.getD_obj,
        Dict.get?_set_ne closure _ (show "closure" ≠ "guest" by decide)]
      cases hb : (Dict.get? closure "closure").getD (.obj []) with
      | obj body =>
          have hu := union_returns_iff
            (((Dict.get? body "test_suites").getD .null).orElse (.arr [])) (closureSuites payload)
          simp only [Json.getD_obj, Except.ok.injEq, exists_eq_left', Json.setItem_obj,
            exists_eq', and_true, ListShape, Json.obj.injEq, hu, true_and]
      | _ => simp [Json.getD]
  | _ => simp [Json.setItem]

theorem overrideSuite_returns_iff (kernel : Dict Json) (group list : String)
    (extra : List String) :
    (∃ r, overrideSuite (.obj kernel) group list extra = .ok r) ↔
      SuiteShape kernel group list := by
  unfold overrideSuite SuiteShape
  simp only [bind_returns_iff, Json.getD_obj, Except.ok.injEq, exists_eq_left']
  cases hp : ((Dict.get? kernel group).getD .null).orElse (.obj []) with
  | obj kvs =>
      have hu := union_returns_iff (((Dict.get? kvs list).getD .null).orElse (.arr [])) extra
      simp only [Json.spread_obj, Except.ok.injEq, exists_eq_left', Json.getD_obj,
        Json.setItem_obj, exists_eq', and_true, ListShape, Json.obj.injEq, hu]
  | _ => simp [Json.spread]

/-- A suite group is read after keys of other names were written. -/
theorem suiteShape_set {kernel : Dict Json} {k group : String} (list : String) (w : Json)
    (h : group ≠ k) : SuiteShape (Dict.set kernel k w) group list ↔ SuiteShape kernel group list := by
  unfold SuiteShape
  rw [Dict.get?_set_ne kernel w h]

theorem overrideKernel_returns_iff (candidate : Json) (payload : Payload)
    (suites : List String) (compiler makeFlags : String) (kernel : Dict Json) :
    (∃ r, overrideKernel candidate payload suites compiler makeFlags (.obj kernel) = .ok r) ↔
      GroupShape (Dict.get? kernel "worktree") ∧ GroupShape (Dict.get? kernel "build") ∧
      (payload = .selftests → SuiteShape kernel "selftests" "targets") ∧
      (payload = .usertests → SuiteShape kernel "usertests" "harnesses") := by
  have hw : "worktree" ≠ "mode" := by decide
  have hbm : "build" ≠ "mode" := by decide
  have hbw : "build" ≠ "worktree" := by decide
  unfold overrideKernel GroupShape
  simp only [bind_returns_iff, Json.setItem_obj, Except.ok.injEq, exists_eq_left',
    Json.getD_obj, Dict.get?_set_ne kernel _ hw]
  cases hpw : ((Dict.get? kernel "worktree").getD .null).orElse (.obj []) with
  | obj wt =>
      simp only [popRef, Except.ok.injEq, exists_eq_left', Json.spread_obj,
        Dict.get?_set_ne _ _ hbw, Dict.get?_set_ne kernel _ hbm]
      cases hpb : ((Dict.get? kernel "build").getD .null).orElse (.obj []) with
      | obj build =>
          simp only [Json.spread_obj, Except.ok.injEq, exists_eq_left', Json.obj.injEq,
            exists_eq', true_and]
          -- only two payloads go on to write a suite group, past the four keys set so far
          cases payload with
          | selftests => simp [overrideSuite_returns_iff, suiteShape_set]
          | usertests => simp [overrideSuite_returns_iff, suiteShape_set]
          | kunit => simp [pure, Except.pure]
          | runtimeTests => simp [pure, Except.pure]
          | usertestsBuild => simp [pure, Except.pure]
      | _ => simp [Json.spread]
  | arr xs => simp [popRef]
  | _ => simp [popRef]

theorem overrideClosure_obj {vmName : String} {payload : Payload} {v r : Json}
    (h : overrideClosure vmName payload v = .ok r) : ∃ kvs, v = .obj kvs := by
  cases v with
  | obj kvs => exact ⟨kvs, rfl⟩
  | _ => cases h

theorem overrideKernel_obj {candidate : Json} {payload : Payload} {suites : List String}
    {compiler makeFlags : String} {v r : Json}
    (h : overrideKernel candidate payload suites compiler makeFlags v = .ok r) :
    ∃ kvs, v = .obj kvs := by
  cases v with
  | obj kvs => exact ⟨kvs, rfl⟩
  | _ => cases h

/-- A guest of the right shape has the two groups `_check_guest` asks for. -/
theorem GuestShape.check {payload : Payload} {guest : Dict Json} (h : GuestShape payload guest) :
    checkGuest (.obj guest) = .ok () := by
  obtain ⟨closure, hc, -⟩ := h.closure
  obtain ⟨kernel, hk, -⟩ := h.kernel
  simp [checkGuest, Dict.contains, hc, hk]

/-- `bringup_args` returns on a pasted guest exactly when its nested groups have
the shape the override writes into. -/
theorem bringupArgs_returns_iff (candidate : Json) (vmName : String) (payload : Payload)
    (suites : List String) (compiler makeFlags : String) {guest : Dict Json}
    (hg : guest ≠ []) :
    (∃ r, bringupArgs candidate vmName payload suites compiler makeFlags (.obj guest) = .ok r) ↔
      GuestShape payload guest := by
  have htruthy : (Json.obj guest).truthy = true := by
    cases guest with
    | nil => exact absurd rfl hg
    | cons p d => rfl
  have hcv : "closure" ≠ "vm" := by decide
  have hcw : "closure" ≠ "worktree" := by decide
  have hkv : "kernel" ≠ "vm" := by decide
  have hkw : "kernel" ≠ "worktree" := by decide
  have hkc : "kernel" ≠ "closure" := by decide
  unfold bringupArgs
  rw [if_pos htruthy]
  simp only [bind_returns_iff, Json.setItem_obj, Except.ok.injEq, exists_eq_left',
    Json.getItem_obj, Dict.get?_erase_ne _ hcw, Dict.get?_set_ne guest _ hcv]
  constructor
  · rintro ⟨-, -, closure, hclosure, closure', hover, kernel, hkernel, kernel', hover', -⟩
    rw [Dict.get?_set_ne _ _ hkc, Dict.get?_erase_ne _ hkw, Dict.get?_set_ne guest _ hkv]
      at hkernel
    obtain ⟨cs, rfl⟩ := overrideClosure_obj hover
    obtain ⟨ks, rfl⟩ := overrideKernel_obj hover'
    refine ⟨⟨cs, ?_, (overrideClosure_returns_iff vmName payload cs).mp ⟨_, hover⟩⟩,
      ⟨ks, ?_, (overrideKernel_returns_iff candidate payload suites compiler makeFlags ks).mp
        ⟨_, hover'⟩⟩⟩
    · cases hc : Dict.get? guest "closure" with
      | none => rw [hc] at hclosure; cases hclosure
      | some c => rw [hc] at hclosure; cases hclosure; rfl
    · cases hk : Dict.get? guest "kernel" with
      | none => rw [hk] at hkernel; cases hkernel
      | some k => rw [hk] at hkernel; cases hkernel; rfl
  · intro h
    refine ⟨(), h.check, ?_⟩
    obtain ⟨cs, hc, hcs⟩ := h.closure
    obtain ⟨ks, hk, hks⟩ := h.kernel
    obtain ⟨c', hc'⟩ := (overrideClosure_returns_iff vmName payload cs).mpr hcs
    obtain ⟨k', hk'⟩ :=
      (overrideKernel_returns_iff candidate payload suites compiler makeFlags ks).mpr hks
    refine ⟨.obj cs, by rw [hc], c', hc', .obj ks, ?_, k', hk', ⟨_, rfl⟩⟩
    rw [Dict.get?_set_ne _ _ hkc, Dict.get?_erase_ne _ hkw, Dict.get?_set_ne guest _ hkv, hk]

end KdevopsNg.Kernel
