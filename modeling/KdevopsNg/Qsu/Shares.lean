/-
# `Qsu.Shares` — the virtiofs shares of a VM

`main` of `f/qsu/qemu-system/render.py` turns its form into the input that
`_shares` of `f/qsu/common.py` composes the shares from: the store, the modules,
one for each suite, the operator's home, and a free-form controller share.

    predefined   a tag, a mount and a directory of their own, on by a toggle
    home         the operator's home, at the same path in the guest
    controller   a tag, a directory and a mount from the form

`_shares` has defaults for a controller directory and mount the form leaves out.
The render step never leaves one out: it passes an empty field as `None`
(`Form.input`), and the share is composed of that.

`wellFormed_iff` is when every share has a directory and a mount, no tag or mount
is there twice, and every tag is one `CANONICAL_SHARE_TAGS` knows.
-/
import KdevopsNg.Py.Exec
import KdevopsNg.Py.Path

namespace KdevopsNg.Qsu

open Py

/-! ## The input -/

/-- `CANONICAL_SHARE_TAGS`. -/
def canonicalShareTags : List String :=
  ["store", "modules", "data-configs", "data-results", "kdevops-fstests", "fstests", "selftests",
    "usertests", "blktests", "home", "controller-share"]

/-- A share; a directory or a mount that is `None` is none. -/
structure Share where
  tag : String
  dir : Option String
  mount : Option String
  options : List String
  deriving DecidableEq, Repr

/-- What the environment of the step says: `$WORKERS_DIR`, the operator's home, and
the job id of the flow. -/
structure ShareHost where
  workersDir : Path
  home : String
  flowJobId : String

/-- What `_shares` reads of its input.  The outer option of a controller field is
whether the key is there, the inner one whether its value is `None`. -/
structure ShareInput where
  vmName : String
  shares : List Share
  fstests : Bool
  selftests : Bool
  usertests : Bool
  blktests : Bool
  homeShare : Bool
  homeShareReadwrite : Bool
  controllerShare : Bool
  controllerShareTag : Option String
  controllerShareDir : Option (Option String)
  controllerShareGuestMount : Option (Option String)
  controllerShareReadwrite : Bool

/-! ## `_shares` -/

section
variable (host : ShareHost) (fi : ShareInput)

/-- `str(path)`. -/
def pathText (p : Path) : String := "/" ++ Text.join "/" p

/-- The share of a suite: the VM's directory under the suite's root. -/
def suiteShare (on : Bool) (tag mount : String) : Except PyError (List Share) :=
  let root := host.workersDir ++ ["shared", tag]
  let dir := Text.resolve root fi.vmName
  if !on then .ok []
  else if fi.vmName = "" ∨ Text.below root dir = false then
    .error (.valueError (tag ++ " share needs a valid vm_name, got " ++ Text.repr fi.vmName))
  else .ok [⟨tag, some (pathText dir), some mount, []⟩]

/-- The `fstests` share. -/
def fstestsShare : Except PyError (List Share) :=
  suiteShare host fi fi.fstests "fstests" "/var/lib/xfstests"

/-- The `selftests` share. -/
def selftestsShare : Except PyError (List Share) :=
  suiteShare host fi fi.selftests "selftests" "/var/lib/kselftests"

/-- The `usertests` share. -/
def usertestsShare : Except PyError (List Share) :=
  suiteShare host fi fi.usertests "usertests" "/var/lib/usertests"

/-- The `blktests` share. -/
def blktestsShare : Except PyError (List Share) :=
  suiteShare host fi fi.blktests "blktests" "/var/lib/blktests"

/-- The `modules` share. -/
def modulesShare (modulesDir : Option String) : List Share :=
  match modulesDir with
  | some dir => [⟨"modules", some dir, some "/lib/modules", []⟩]
  | none => []

/-- The `home` share. -/
def homeShares : List Share :=
  if fi.homeShare then
    [⟨"home", some host.home, some host.home, if fi.homeShareReadwrite then [] else ["ro"]⟩]
  else []

/-- The controller share. -/
def controllerShares : List Share :=
  if fi.controllerShare then
    let dir := fi.controllerShareDir.getD (some host.home)
    [⟨fi.controllerShareTag.getD "controller-share", dir,
      fi.controllerShareGuestMount.getD dir, if fi.controllerShareReadwrite then [] else ["ro"]⟩]
  else []

/-- `_shares`. -/
def composeShares (modulesDir : Option String) : Except PyError (List Share) :=
  if fi.shares ≠ [] then .ok fi.shares
  else do
    let fstests ← fstestsShare host fi
    let selftests ← selftestsShare host fi
    let usertests ← usertestsShare host fi
    let blktests ← blktestsShare host fi
    return [⟨"store", some "/nix/store", some "/nix/store", []⟩] ++ modulesShare modulesDir ++
      (fstests ++ selftests ++ usertests ++ blktests) ++ homeShares host fi ++
      controllerShares host fi

end

/-! ## The render step -/

/-- The fields of the form the shares depend on, and the kernel image. -/
structure Form where
  autoVmName : Bool
  vmName : String
  kernelImage : String
  modulesDir : String
  shares : List Share
  fstests : Bool
  selftests : Bool
  usertests : Bool
  blktests : Bool
  homeShare : Bool
  homeShareReadwrite : Bool
  controllerShare : Bool
  controllerShareTag : String
  controllerShareDir : String
  controllerShareGuestMount : String
  controllerShareReadwrite : Bool

/-- The kernel manifest of a build, each key that is there. -/
structure Manifest where
  vmlinuz : Option String
  bzImage : Option String
  modulesDir : Option String
  modules : Option String

/-- The rest of the step: the binaries and numbers it resolves first, the drives, and
the files it renders and writes last. -/
structure Rest where
  resolve : Except PyError Unit
  drives : Except PyError Unit
  write : List Share → Except PyError Unit

/-- `s or None`. -/
def orNone (s : String) : Option String := if s = "" then none else some s

/-- `resolve_vm_name`. -/
def resolveVmName (host : ShareHost) (form : Form) : String :=
  if form.autoVmName ∧ host.flowJobId ≠ "" then
    "vm-" ++ String.ofList ((Text.split '-' host.flowJobId.toList).headD [])
  else form.vmName

/-- What the step passes on. -/
def Form.input (host : ShareHost) (form : Form) : ShareInput where
  vmName := resolveVmName host form
  shares := form.shares
  fstests := form.fstests
  selftests := form.selftests
  usertests := form.usertests
  blktests := form.blktests
  homeShare := form.homeShare
  homeShareReadwrite := form.homeShareReadwrite
  controllerShare := form.controllerShare
  controllerShareTag := some form.controllerShareTag
  controllerShareDir := some (orNone form.controllerShareDir)
  controllerShareGuestMount := some (orNone form.controllerShareGuestMount)
  controllerShareReadwrite := form.controllerShareReadwrite

/-- The first value that is there and not empty. -/
def firstText (values : List (Option String)) : Option String :=
  (values.filterMap id).find? (· ≠ "")

/-- The modules of `build_vars`: with an image from the form its own, else those of
the manifest. -/
def Form.modules (kernel : Manifest) (form : Form) : Option String :=
  if form.kernelImage ≠ "" then orNone form.modulesDir
  else firstText [kernel.modulesDir, kernel.modules]

/-- `main`, the shares it returns. -/
def render (host : ShareHost) (rest : Rest) (kernel : Manifest) (form : Form) :
    Except PyError (List Share) :=
  if ¬ (form.kernelImage = "" ↔ form.modulesDir = "") then
    .error (.valueError ("kernel_image and modules_dir must be set together (the kernel and its " ++
      "/lib/modules are a unit): supply both to override the kernel explicitly, or " ++
      "neither to take both from the build/reuse manifest"))
  else do
    rest.resolve
    let shares ← composeShares host (form.input host) (form.modules kernel)
    rest.drives
    match firstText [orNone form.kernelImage, kernel.vmlinuz, kernel.bzImage] with
    | none => .error (.valueError ("no kernel image resolved: a `reuse` component needs a " ++
        "Reuse-from-VM with a sidecar or an explicit kernel_image; a `build` needs the build " ++
        "result. Refusing to render a kernelless VM."))
    | some _ =>
        rest.write shares
        return shares

/-! ## Well-formed shares -/

/-- Every share can be served and mounted, apart from every other. -/
structure WellFormed (shares : List Share) : Prop where
  dirs : ∀ s ∈ shares, ∃ dir, s.dir = some dir ∧ Text.isAbsolute dir = true
  mounts : ∀ s ∈ shares, ∃ mount, s.mount = some mount ∧ mount ≠ ""
  tagsOnce : (shares.map Share.tag).Nodup
  mountsOnce : (shares.map Share.mount).Nodup
  canonical : ∀ s ∈ shares, s.tag ∈ canonicalShareTags

/-- The tags and mounts of the predefined shares, each with whether it is on. -/
def predefinedTable (modulesDir : Option String) (form : Form) : List (Bool × String × String) :=
  [(true, "store", "/nix/store"), (modulesDir.isSome, "modules", "/lib/modules"),
    (form.fstests, "fstests", "/var/lib/xfstests"),
    (form.selftests, "selftests", "/var/lib/kselftests"),
    (form.usertests, "usertests", "/var/lib/usertests"),
    (form.blktests, "blktests", "/var/lib/blktests")]

/-- The tags and mounts of those that are on. -/
def predefined (modulesDir : Option String) (form : Form) : List (String × String) :=
  ((predefinedTable modulesDir form).filter fun p => p.1).map Prod.snd

/-- The free fields of a form keep to themselves: absolute directories, a mount that is
given, a tag that is known, and none of them that of another share. -/
structure Separate (host : ShareHost) (kernel : Manifest) (form : Form) : Prop where
  modules : ∀ dir, form.modules kernel = some dir → Text.isAbsolute dir = true
  home : form.homeShare = true → Text.isAbsolute host.home = true ∧
    host.home ∉ (predefined (form.modules kernel) form).map Prod.snd
  controller : form.controllerShare = true →
    Text.isAbsolute form.controllerShareDir = true ∧ form.controllerShareGuestMount ≠ "" ∧
    form.controllerShareTag ∈ canonicalShareTags ∧
    form.controllerShareTag ∉ (predefined (form.modules kernel) form).map Prod.fst ∧
    form.controllerShareGuestMount ∉ (predefined (form.modules kernel) form).map Prod.snd ∧
    (form.homeShare = true →
      form.controllerShareTag ≠ "home" ∧ form.controllerShareGuestMount ≠ host.home)

/-! ## The predefined shares -/

section
variable {host : ShareHost} {form : Form} {kernel : Manifest}

theorem isAbsolute_pathText (p : Path) : Text.isAbsolute (pathText p) = true := by
  rw [Text.isAbsolute, pathText, String.toList_append]
  rfl

theorem suiteShare_ok {fi : ShareInput} {on : Bool} {tag mount : String} {l : List Share}
    (h : suiteShare host fi on tag mount = .ok l) :
    ∃ dir, Text.isAbsolute dir = true ∧
      l = if on then [⟨tag, some dir, some mount, []⟩] else [] := by
  refine ⟨pathText (Text.resolve (host.workersDir ++ ["shared", tag]) fi.vmName),
    isAbsolute_pathText _, ?_⟩
  rw [suiteShare] at h
  cases on with
  | false =>
      cases h
      rfl
  | true =>
      rw [Bool.not_true, if_neg Bool.false_ne_true] at h
      split_ifs at h
      cases h
      rfl

/-- The shares on by a toggle, in order. -/
def fixedShares (modulesDir : Option String) (form : Form) (dir : String → String) : List Share :=
  [⟨"store", some "/nix/store", some "/nix/store", []⟩] ++ modulesShare modulesDir ++
    ((if form.fstests then [⟨"fstests", some (dir "fstests"), some "/var/lib/xfstests", []⟩] else []) ++
    (if form.selftests then
      [⟨"selftests", some (dir "selftests"), some "/var/lib/kselftests", []⟩] else []) ++
    (if form.usertests then
      [⟨"usertests", some (dir "usertests"), some "/var/lib/usertests", []⟩] else []) ++
    (if form.blktests then [⟨"blktests", some (dir "blktests"), some "/var/lib/blktests", []⟩] else []))

/-- The shares of an accepted form without a list of its own. -/
theorem render_ok {rest : Rest} {shares : List Share} (hlist : form.shares = [])
    (h : render host rest kernel form = .ok shares) :
    ∃ dir : String → String, (∀ tag, Text.isAbsolute (dir tag) = true) ∧
      shares = fixedShares (form.modules kernel) form dir ++ homeShares host (form.input host) ++
        controllerShares host (form.input host) := by
  rw [render] at h
  split_ifs at h
  obtain ⟨_, -, h⟩ := except_bind_ok.mp h
  obtain ⟨composed, hcompose, h⟩ := except_bind_ok.mp h
  obtain ⟨_, -, h⟩ := except_bind_ok.mp h
  have hsame : composed = shares := by
    split at h
    · cases h
    · obtain ⟨_, -, h⟩ := except_bind_ok.mp h
      cases h
      rfl
  have hinput : (form.input host).shares = [] := hlist
  rw [composeShares, if_neg (not_not.mpr hinput)] at hcompose
  obtain ⟨fs, hfs, hcompose⟩ := except_bind_ok.mp hcompose
  obtain ⟨st, hst, hcompose⟩ := except_bind_ok.mp hcompose
  obtain ⟨us, hus, hcompose⟩ := except_bind_ok.mp hcompose
  obtain ⟨bl, hbl, hcompose⟩ := except_bind_ok.mp hcompose
  obtain ⟨dfs, habsfs, rfl⟩ := suiteShare_ok hfs
  obtain ⟨dst, habsst, rfl⟩ := suiteShare_ok hst
  obtain ⟨dus, habsus, rfl⟩ := suiteShare_ok hus
  obtain ⟨dbl, habsbl, rfl⟩ := suiteShare_ok hbl
  refine ⟨fun tag => if tag = "fstests" then dfs else if tag = "selftests" then dst
    else if tag = "usertests" then dus else dbl, fun tag => ?_, ?_⟩
  · dsimp only
    split_ifs
    · exact habsfs
    · exact habsst
    · exact habsus
    · exact habsbl
  · rw [← hsame]
    exact (Except.ok.inj hcompose).symm

theorem fixedShares_keys (modulesDir : Option String) (form : Form) (dir : String → String) :
    (fixedShares modulesDir form dir).map (fun s => (s.tag, s.mount)) =
      (predefined modulesDir form).map fun p => (p.1, some p.2) := by
  rw [fixedShares, predefined, predefinedTable]
  cases modulesDir <;> cases form.fstests <;> cases form.selftests <;> cases form.usertests <;>
    cases form.blktests <;> rfl

/-- The predefined tags and mounts, all different. -/
theorem predefined_nodup (modulesDir : Option String) (form : Form) :
    ((predefined modulesDir form).map Prod.fst).Nodup ∧
      ((predefined modulesDir form).map Prod.snd).Nodup ∧
      (∀ p ∈ predefined modulesDir form, p.1 ∈ canonicalShareTags ∧ p.1 ≠ "home" ∧ p.2 ≠ "") := by
  have htable : (predefinedTable modulesDir form).map Prod.snd =
      [("store", "/nix/store"), ("modules", "/lib/modules"), ("fstests", "/var/lib/xfstests"),
        ("selftests", "/var/lib/kselftests"), ("usertests", "/var/lib/usertests"),
        ("blktests", "/var/lib/blktests")] := rfl
  have hsub : (predefined modulesDir form).Sublist ((predefinedTable modulesDir form).map Prod.snd) :=
    List.filter_sublist.map _
  rw [htable] at hsub
  refine ⟨(hsub.map _).nodup (by decide), (hsub.map _).nodup (by decide), fun p hp => ?_⟩
  have hall : ∀ p ∈ [("store", "/nix/store"), ("modules", "/lib/modules"),
      ("fstests", "/var/lib/xfstests"), ("selftests", "/var/lib/kselftests"),
      ("usertests", "/var/lib/usertests"), ("blktests", "/var/lib/blktests")],
      p.1 ∈ canonicalShareTags ∧ p.1 ≠ "home" ∧ p.2 ≠ "" := by decide
  exact hall p (hsub.subset hp)

/-- The predefined directories are absolute, the modules' when the form's is. -/
theorem fixedShares_dirs {modulesDir : Option String} {dir : String → String}
    (hdir : ∀ tag, Text.isAbsolute (dir tag) = true) :
    (∀ s ∈ fixedShares modulesDir form dir, ∃ d, s.dir = some d ∧ Text.isAbsolute d = true) ↔
      ∀ d, modulesDir = some d → Text.isAbsolute d = true := by
  have hsuite : ∀ (on : Bool) (tag mount : String),
      ∀ s ∈ (if on then [(⟨tag, some (dir tag), some mount, []⟩ : Share)] else []),
        ∃ d, s.dir = some d ∧ Text.isAbsolute d = true := by
    intro on tag mount s hs
    split_ifs at hs
    · rw [List.mem_singleton.mp hs]
      exact ⟨_, rfl, hdir tag⟩
    · cases hs
  constructor
  · intro h d hd
    subst hd
    obtain ⟨d', hd', habs⟩ := h ⟨"modules", some d, some "/lib/modules", []⟩ (by
      rw [fixedShares]
      exact List.mem_append_left _ (List.mem_append_right _ List.mem_cons_self))
    cases hd'
    exact habs
  · intro h s hs
    rw [fixedShares] at hs
    rcases List.mem_append.mp hs with hs | hs
    · rcases List.mem_append.mp hs with hs | hs
      · rw [List.mem_singleton.mp hs]
        exact ⟨_, rfl, by decide⟩
      · cases modulesDir with
        | none => cases hs
        | some d =>
            rw [List.mem_singleton.mp hs]
            exact ⟨_, rfl, h d rfl⟩
    · rcases List.mem_append.mp hs with hs | hs
      · rcases List.mem_append.mp hs with hs | hs
        · rcases List.mem_append.mp hs with hs | hs
          · exact hsuite _ _ _ s hs
          · exact hsuite _ _ _ s hs
        · exact hsuite _ _ _ s hs
      · exact hsuite _ _ _ s hs

/-! ## One share more -/

/-- A share that can be served and mounted. -/
structure Proper (s : Share) : Prop where
  dir : ∃ dir, s.dir = some dir ∧ Text.isAbsolute dir = true
  mount : ∃ mount, s.mount = some mount ∧ mount ≠ ""
  tag : s.tag ∈ canonicalShareTags

theorem wellFormed_snoc (l : List Share) (s : Share) :
    WellFormed (l ++ [s]) ↔
      WellFormed l ∧ Proper s ∧ s.tag ∉ l.map Share.tag ∧ s.mount ∉ l.map Share.mount := by
  have hnodup : ∀ {α : Type} (xs : List α) (x : α), (xs ++ [x]).Nodup ↔ xs.Nodup ∧ x ∉ xs := by
    intro α xs x
    rw [List.nodup_append]
    constructor
    · rintro ⟨hxs, -, hne⟩
      exact ⟨hxs, fun hmem => hne x hmem x List.mem_cons_self rfl⟩
    · rintro ⟨hxs, hmem⟩
      refine ⟨hxs, by simp, fun a ha b hb heq => hmem ?_⟩
      rw [← List.mem_singleton.mp hb, ← heq]
      exact ha
  constructor
  · rintro ⟨hdirs, hmounts, htags, honce, hcanonical⟩
    rw [List.map_append, List.map_singleton, hnodup] at htags honce
    have hleft : ∀ {t : Share}, t ∈ l → t ∈ l ++ [s] := List.mem_append_left _
    have hlast : s ∈ l ++ [s] := List.mem_append_right _ List.mem_cons_self
    exact ⟨⟨fun t ht => hdirs t (hleft ht), fun t ht => hmounts t (hleft ht), htags.1, honce.1,
      fun t ht => hcanonical t (hleft ht)⟩, ⟨hdirs s hlast, hmounts s hlast, hcanonical s hlast⟩,
      htags.2, honce.2⟩
  · rintro ⟨hl, hs, htag, hmount⟩
    refine ⟨fun t ht => ?_, fun t ht => ?_, ?_, ?_, fun t ht => ?_⟩
    · rcases List.mem_append.mp ht with ht | ht
      · exact hl.dirs t ht
      · exact List.mem_singleton.mp ht ▸ hs.dir
    · rcases List.mem_append.mp ht with ht | ht
      · exact hl.mounts t ht
      · exact List.mem_singleton.mp ht ▸ hs.mount
    · rw [List.map_append, List.map_singleton, hnodup]
      exact ⟨hl.tagsOnce, htag⟩
    · rw [List.map_append, List.map_singleton, hnodup]
      exact ⟨hl.mountsOnce, hmount⟩
    · rcases List.mem_append.mp ht with ht | ht
      · exact hl.canonical t ht
      · exact List.mem_singleton.mp ht ▸ hs.tag

section
variable {modulesDir : Option String} {dir : String → String}

theorem fixedShares_tags : (fixedShares modulesDir form dir).map Share.tag =
    (predefined modulesDir form).map Prod.fst := by
  have hkeys := congrArg (List.map Prod.fst) (fixedShares_keys modulesDir form dir)
  rw [List.map_map, List.map_map] at hkeys
  exact hkeys

theorem fixedShares_mounts : (fixedShares modulesDir form dir).map Share.mount =
    (predefined modulesDir form).map fun p => some p.2 := by
  have hkeys := congrArg (List.map Prod.snd) (fixedShares_keys modulesDir form dir)
  rw [List.map_map, List.map_map] at hkeys
  exact hkeys

theorem some_mem_mounts {mount : String} :
    some mount ∈ (fixedShares modulesDir form dir).map Share.mount ↔
      mount ∈ (predefined modulesDir form).map Prod.snd := by
  rw [fixedShares_mounts, List.mem_map, List.mem_map]
  simp only [Option.some.injEq]

/-- The predefined shares are well formed when the modules' directory is absolute. -/
theorem wellFormed_fixed (hdir : ∀ tag, Text.isAbsolute (dir tag) = true) :
    WellFormed (fixedShares modulesDir form dir) ↔
      ∀ d, modulesDir = some d → Text.isAbsolute d = true := by
  have hdirs_iff : (∀ s ∈ fixedShares modulesDir form dir,
      ∃ d, s.dir = some d ∧ Text.isAbsolute d = true) ↔
        ∀ d, modulesDir = some d → Text.isAbsolute d = true := fixedShares_dirs hdir
  rw [← hdirs_iff]
  refine ⟨WellFormed.dirs, fun hdirs => ?_⟩
  obtain ⟨htags, hmounts, hall⟩ := predefined_nodup modulesDir form
  have hkey : ∀ s ∈ fixedShares modulesDir form dir,
      ∃ p ∈ predefined modulesDir form, s.tag = p.1 ∧ s.mount = some p.2 := by
    intro s hs
    have hmem := List.mem_map_of_mem (f := fun s : Share => (s.tag, s.mount)) hs
    rw [fixedShares_keys, List.mem_map] at hmem
    obtain ⟨p, hp, heq⟩ := hmem
    exact ⟨p, hp, (Prod.mk.inj heq).1.symm, (Prod.mk.inj heq).2.symm⟩
  refine ⟨hdirs, fun s hs => ?_, fixedShares_tags ▸ htags, ?_, fun s hs => ?_⟩
  · obtain ⟨p, hp, -, hmount⟩ := hkey s hs
    exact ⟨p.2, hmount, (hall p hp).2.2⟩
  · have hsome : (fixedShares modulesDir form dir).map Share.mount =
        ((predefined modulesDir form).map Prod.snd).map some := by
      rw [fixedShares_mounts, List.map_map]
      rfl
    rw [hsome]
    exact List.Pairwise.map _ (fun _ _ hne heq => hne (Option.some.inj heq)) hmounts
  · obtain ⟨p, hp, htag, -⟩ := hkey s hs
    exact htag ▸ (hall p hp).1

/-- The home beside them. -/
theorem wellFormed_home : WellFormed (fixedShares modulesDir form dir ++ homeShares host (form.input host)) ↔
    WellFormed (fixedShares modulesDir form dir) ∧
      (form.homeShare = true → Text.isAbsolute host.home = true ∧
        host.home ∉ (predefined modulesDir form).map Prod.snd) := by
  have hon : (form.input host).homeShare = form.homeShare := rfl
  rw [homeShares, hon]
  cases form.homeShare with
  | false => simp
  | true =>
      rw [if_pos rfl, wellFormed_snoc, some_mem_mounts]
      refine and_congr_right fun _ => ?_
      constructor
      · rintro ⟨⟨⟨d, hd, habs⟩, -, -⟩, -, hmount⟩ -
        cases hd
        exact ⟨habs, hmount⟩
      · intro h
        obtain ⟨habs, hmount⟩ := h rfl
        refine ⟨⟨⟨_, rfl, habs⟩, ⟨_, rfl, ?_⟩, ?_⟩, ?_, hmount⟩
        · intro hempty
          rw [hempty] at habs
          revert habs
          decide
        · show "home" ∈ canonicalShareTags
          decide
        · rw [fixedShares_tags, List.mem_map]
          rintro ⟨p, hp, htag⟩
          exact ((predefined_nodup modulesDir form).2.2 p hp).2.1 htag

theorem orNone_eq_some {v w : String} : orNone v = some w ↔ v = w ∧ v ≠ "" := by
  rw [orNone]
  split_ifs with h
  · exact iff_of_false (by simp) fun hw => hw.2 h
  · rw [Option.some.injEq, and_iff_left h]

theorem not_mem_homeTags {tag : String} :
    tag ∉ (homeShares host (form.input host)).map Share.tag ↔
      (form.homeShare = true → tag ≠ "home") := by
  have hon : (form.input host).homeShare = form.homeShare := rfl
  rw [homeShares, hon]
  cases form.homeShare <;> simp

theorem not_mem_homeMounts {mount : String} :
    some mount ∉ (homeShares host (form.input host)).map Share.mount ↔
      (form.homeShare = true → mount ≠ host.home) := by
  have hon : (form.input host).homeShare = form.homeShare := rfl
  rw [homeShares, hon]
  cases form.homeShare <;> simp

/-- The controller share beside those. -/
theorem wellFormed_controller : WellFormed (fixedShares modulesDir form dir ++
      homeShares host (form.input host) ++ controllerShares host (form.input host)) ↔
    WellFormed (fixedShares modulesDir form dir ++ homeShares host (form.input host)) ∧
      (form.controllerShare = true →
        Text.isAbsolute form.controllerShareDir = true ∧ form.controllerShareGuestMount ≠ "" ∧
        form.controllerShareTag ∈ canonicalShareTags ∧
        form.controllerShareTag ∉ (predefined modulesDir form).map Prod.fst ∧
        form.controllerShareGuestMount ∉ (predefined modulesDir form).map Prod.snd ∧
        (form.homeShare = true →
          form.controllerShareTag ≠ "home" ∧ form.controllerShareGuestMount ≠ host.home)) := by
  have hon : (form.input host).controllerShare = form.controllerShare := rfl
  rw [controllerShares, hon]
  cases form.controllerShare with
  | false => simp
  | true =>
      have htags : form.controllerShareTag ∉ (fixedShares modulesDir form dir ++
          homeShares host (form.input host)).map Share.tag ↔
            form.controllerShareTag ∉ (predefined modulesDir form).map Prod.fst ∧
              (form.homeShare = true → form.controllerShareTag ≠ "home") := by
        rw [List.map_append, List.mem_append, not_or, fixedShares_tags]
        exact and_congr_right fun _ => not_mem_homeTags
      have hmounts : some form.controllerShareGuestMount ∉ (fixedShares modulesDir form dir ++
          homeShares host (form.input host)).map Share.mount ↔
            form.controllerShareGuestMount ∉ (predefined modulesDir form).map Prod.snd ∧
              (form.homeShare = true → form.controllerShareGuestMount ≠ host.home) := by
        rw [List.map_append, List.mem_append, not_or, some_mem_mounts]
        exact and_congr_right fun _ => not_mem_homeMounts
      rw [if_pos rfl, wellFormed_snoc]
      refine and_congr_right fun _ => ?_
      constructor
      · rintro ⟨⟨⟨d, hd, habs⟩, ⟨m, hm, hne⟩, htag⟩, htagOther, hmountOther⟩ -
        have hdir := orNone_eq_some.mp hd
        have hmount := orNone_eq_some.mp hm
        have hsome : (form.input host).controllerShareGuestMount.getD
            ((form.input host).controllerShareDir.getD (some host.home)) =
              some form.controllerShareGuestMount := by
          rw [hmount.1]
          exact hm
        rw [hsome] at hmountOther
        obtain ⟨htagPre, htagHome⟩ := htags.mp htagOther
        obtain ⟨hmountPre, hmountHome⟩ := hmounts.mp hmountOther
        exact ⟨hdir.1 ▸ habs, hmount.1 ▸ hne, htag, htagPre, hmountPre,
          fun hhome => ⟨htagHome hhome, hmountHome hhome⟩⟩
      · intro h
        obtain ⟨habs, hne, htag, htagPre, hmountPre, hhome⟩ := h rfl
        have hdirNe : form.controllerShareDir ≠ "" := by
          intro hempty
          rw [hempty] at habs
          revert habs
          decide
        have hd : orNone form.controllerShareDir = some form.controllerShareDir := if_neg hdirNe
        have hm : orNone form.controllerShareGuestMount = some form.controllerShareGuestMount :=
          if_neg hne
        refine ⟨⟨⟨_, hd, habs⟩, ⟨_, hm, hne⟩, htag⟩, htags.mpr ⟨htagPre, fun hon => (hhome hon).1⟩, ?_⟩
        have hsome : (form.input host).controllerShareGuestMount.getD
            ((form.input host).controllerShareDir.getD (some host.home)) =
              some form.controllerShareGuestMount := hm
        rw [hsome]
        exact hmounts.mpr ⟨hmountPre, fun hon => (hhome hon).2⟩

end

/-! ## The shares of the step -/

/-- The shares of an accepted form are well formed exactly when its free fields keep to
themselves. -/
theorem wellFormed_iff {rest : Rest} {shares : List Share} (hlist : form.shares = [])
    (h : render host rest kernel form = .ok shares) :
    WellFormed shares ↔ Separate host kernel form := by
  obtain ⟨dir, hdir, rfl⟩ := render_ok hlist h
  rw [wellFormed_controller, wellFormed_home, wellFormed_fixed hdir, and_assoc]
  exact ⟨fun ⟨hmodules, hhome, hcontroller⟩ => ⟨hmodules, hhome, hcontroller⟩,
    fun hsep => ⟨hsep.modules, hsep.home, hsep.controller⟩⟩

end

/-! ## A form with its fields given, and one with them left out -/

/-- An operator's host. -/
def sampleShareHost : ShareHost := ⟨["srv", "workers"], "/home/operator", ""⟩

/-- The manifest of a kernel build. -/
def sampleManifest : Manifest :=
  ⟨some "/srv/build/vmlinuz", none, some "/srv/build/lib/modules", none⟩

/-- The rest of the step, where nothing else fails. -/
def sampleRest : Rest := ⟨.ok (), .ok (), fun _ => .ok ()⟩

/-- A fstests guest with the controller share on, by its directory and its mount. -/
def sampleShareForm (dir mount : String) : Form where
  autoVmName := false
  vmName := "vm0"
  kernelImage := ""
  modulesDir := ""
  shares := []
  fstests := true
  selftests := false
  usertests := false
  blktests := false
  homeShare := true
  homeShareReadwrite := false
  controllerShare := true
  controllerShareTag := "controller-share"
  controllerShareDir := dir
  controllerShareGuestMount := mount
  controllerShareReadwrite := false

/-- The shares of that guest. -/
def sampleShares (dir mount : String) : List Share :=
  [⟨"store", some "/nix/store", some "/nix/store", []⟩,
    ⟨"modules", some "/srv/build/lib/modules", some "/lib/modules", []⟩,
    ⟨"fstests", some "/srv/workers/shared/fstests/vm0", some "/var/lib/xfstests", []⟩,
    ⟨"home", some "/home/operator", some "/home/operator", ["ro"]⟩,
    ⟨"controller-share", orNone dir, orNone mount, ["ro"]⟩]

theorem wellFormed_iff_sample :
    WellFormed (sampleShares "/srv/data" "/mnt/data") ↔
      Separate sampleShareHost sampleManifest (sampleShareForm "/srv/data" "/mnt/data") :=
  @wellFormed_iff sampleShareHost (sampleShareForm "/srv/data" "/mnt/data") sampleManifest
    sampleRest _ rfl (by decide)

/-- With the directory and the mount left out, as the form has them by default, the
controller share has neither. -/
theorem controller_of_none :
    ¬ ∀ host rest kernel form shares, form.shares = [] →
      render host rest kernel form = .ok shares → WellFormed shares := by
  intro h
  have hrender : render sampleShareHost sampleRest sampleManifest (sampleShareForm "" "") =
      .ok (sampleShares "" "") := by decide
  have hwell := h _ _ _ _ _ rfl hrender
  obtain ⟨dir, hdir, -⟩ := hwell.dirs ⟨"controller-share", none, none, ["ro"]⟩ (by decide)
  cases hdir

end KdevopsNg.Qsu
