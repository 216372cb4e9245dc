/-
# `Fstests.Emit` — the render's loop over the armed sections

`main` of `f/fstests/render_config.py`.  After the plan is made, each armed
section in turn:

    in the run    its results directory under this kernel is removed
                  (clean_results) or what is in it is set aside
    always        <section>.config and <section>.env are written on the share

and last the share is pruned: two retired files, two retired suffixes, and with
arm_all_sections each config and environment file whose stem is no armed
section.

A section name is what the config's header says.  It is joined to a path as it
stands, so it can lead anywhere; only the results directory is checked.
-/
import KdevopsNg.Fstests.Render
import KdevopsNg.Fstests.Rotate
import KdevopsNg.Py.Path

namespace KdevopsNg.Fstests

open Py Sys

/-! ## Files of a section -/

/-- `share / f"{section}.config"`. -/
def configPath (share : Path) (sectionName : String) : Path :=
  Text.resolve share (sectionName ++ ".config")

/-- `share / f"{section}.env"`. -/
def envPath (share : Path) (sectionName : String) : Path :=
  Text.resolve share (sectionName ++ ".env")

/-- `path.stem`. -/
def stem (name : String) : String :=
  let ext := Text.afterLast '.' name.toList
  if '.' ∈ name.toList ∧ ext ≠ [] ∧ 1 < name.length - ext.length then
    String.ofList (name.toList.take (name.length - ext.length - 1))
  else name

/-! ## Pruning -/

/-- `_remove`. -/
def removeFile (d : Disk) (path : Path) : Exec Files Unit := do
  let fs ← Exec.get
  if fs.isFile path then unlink d path else return ()

/-- `share.glob(f"*{suffix}")`, sorted. -/
def suffixed (fs : Files) (share : Path) (suffix : String) : List String :=
  fs.glob share fun name => suffix.toList.isSuffixOf name.toList

/-- Remove the files of a suffix, those `spared` left. -/
def pruneSuffix (d : Disk) (share : Path) (spared : String → Bool) (suffix : String) :
    Exec Files Unit := do
  let fs ← Exec.get
  (suffixed fs share suffix).foldlM (fun _ name =>
    if spared name then return () else removeFile d (share ++ [name])) ()

/-- `_prune_share`. -/
def pruneShare (d : Disk) (share : Path) (armedSections : List String) (mirror : Bool) :
    Exec Files Unit := do
  ["check.env", "local.config"].foldlM (fun _ name => removeFile d (share ++ [name])) ()
  [".mkfs", ".xfs_info"].foldlM (fun _ suffix => pruneSuffix d share (fun _ => false) suffix) ()
  if mirror then
    [".config", ".env"].foldlM (fun _ suffix =>
      pruneSuffix d share (fun name => stem name ∈ armedSections) suffix) ()
  else return ()

/-! ## The loop -/

/-- What the loop has done so far. -/
structure Emitted where
  rotated : Dict ℕ := []
  archivedFailures : Dict ℕ := []
  cleaned : List String := []
  sectionConfigs : List Path := []
  sectionEnvs : List Path := []
  deriving DecidableEq, Repr

/-- The results of a section to be run: removed, or set aside. -/
def clearResults (d : Disk) (u : Unicode) (clean : Bool) (dir : Path) (sectionName : String)
    (out : Emitted) : Exec Files Emitted := do
  let fs ← Exec.get
  if clean && fs.isDir dir then
    rmtree d dir
    return { out with cleaned := out.cleaned ++ [sectionName] }
  else match ← rotateResults d dir with
    | none => return out
    | some kept =>
        let archived ← rotateFailureArtifacts d u dir kept
        let rotated := Dict.set out.rotated sectionName kept
        if 0 < archived then
          return { out with
            rotated := rotated
            archivedFailures := Dict.set out.archivedFailures sectionName archived }
        else return { out with rotated := rotated }

/-- The environment file of a section: what the run checks, or the default. -/
def envText (a : RenderArgs) (p : Plan) (sectionName : String) : String :=
  renderSectionEnv (guestStateDir ++ "/" ++ sectionName ++ ".config")
    (if sectionName ∈ p.run then p.checkArgs else p.defaultArgs) a.testTimeout a.testTimeouts
    a.recreateTestDev

/-- The results of a section, where it is run. -/
def prepareSection (d : Disk) (u : Unicode) (host : Kernel.Host) (a : RenderArgs) (p : Plan)
    (s : Armed) (out : Emitted) : Exec Files Emitted :=
  if s.name ∈ p.run then do
    let dir ← Exec.lift (sectionResultsDir host a.vmName a.kernelVersion s.name)
    clearResults d u a.cleanResults dir s.name out
  else return out

/-- One armed section. -/
def emitSection (d : Disk) (u : Unicode) (host : Kernel.Host) (a : RenderArgs) (p : Plan)
    (out : Emitted) (s : Armed) : Exec Files Emitted := do
  let out ← prepareSection d u host a p s out
  write d (configPath p.share s.name) s.text
  write d (envPath p.share s.name) (envText a p s.name)
  return { out with
    sectionConfigs := out.sectionConfigs ++ [configPath p.share s.name]
    sectionEnvs := out.sectionEnvs ++ [envPath p.share s.name] }

/-- What a render returns. -/
structure Rendered where
  vmName : String
  kernelVersion : String
  shareDir : Path
  resultsDir : Path
  sections : List String
  armed : List String
  skipped : List Skip
  emitted : Emitted
  checkArgs : String
  deriving DecidableEq, Repr

/-- The render after the loop. -/
def finish (d : Disk) (host : Kernel.Host) (a : RenderArgs) (p : Plan) (emitted : Emitted) :
    Exec Files Rendered := do
  pruneShare d p.share (p.armed.map Armed.name) a.armAllSections
  let first ← Exec.lift (sectionResultsDir host a.vmName a.kernelVersion (p.run.headD ""))
  return {
    vmName := a.vmName
    kernelVersion := a.kernelVersion
    shareDir := p.share
    resultsDir := first.dropLast
    sections := p.run
    armed := p.armed.map Armed.name
    skipped := p.skipped
    emitted
    checkArgs := p.checkArgs }

/-- The render once its plan is made. -/
def emit (d : Disk) (u : Unicode) (host : Kernel.Host) (a : RenderArgs) (p : Plan) :
    Exec Files Rendered := do
  let emitted ← p.armed.foldlM (emitSection d u host a p) {}
  finish d host a p emitted

/-- `main` of `render_config.py`. -/
def renderMain (d : Disk) (u : Unicode) (host : Kernel.Host) (a : RenderArgs) :
    Exec Files Rendered := do
  let p ← Exec.lift (plan u host a)
  emit d u host a p

/-- What a render decides does not depend on clean_results. -/
theorem renderMain_clean {u : Unicode} {host : Kernel.Host} {a : RenderArgs} {p : Plan}
    (hp : plan u host a = .ok p) (clean : Bool) (d : Disk) :
    renderMain d u host { a with cleanResults := clean } =
      emit d u host { a with cleanResults := clean } p := by
  have hplan : plan u host { a with cleanResults := clean } = .ok p := hp
  rw [renderMain, hplan]
  rfl

/-! ## What a render touches -/

/-- A name on the share that pruning removes. -/
def pruned (armedSections : List String) (mirror : Bool) (name : String) : Bool :=
  name ∈ ["check.env", "local.config"] ||
    [".mkfs", ".xfs_info"].any (fun suffix => suffix.toList.isSuffixOf name.toList) ||
    (mirror && decide (stem name ∉ armedSections) &&
      [".config", ".env"].any fun suffix => suffix.toList.isSuffixOf name.toList)

section Within

variable {d : Disk} {u : Unicode} {r : Path → Option String → Option String → Prop}
  [∀ p, Std.Refl (r p)] [∀ p, IsTrans _ (r p)]

theorem mem_suffixed {fs : Files} {share : Path} {suffix name : String}
    (h : name ∈ suffixed fs share suffix) : suffix.toList.isSuffixOf name.toList = true := by
  rw [suffixed, Files.glob, List.mem_mergeSort, List.mem_filter] at h
  exact h.2

theorem within_removeFile {path : Path} (h : ∀ x, r path x none) :
    Exec.Within (Pointwise r) (removeFile d path) := by
  refine Exec.within_bind Exec.within_get fun fs => ?_
  exact Exec.within_ite (fun _ => within_unlink h) fun _ => Exec.within_pure ()

theorem within_pruneSuffix {share : Path} {spared : String → Bool} {suffix : String}
    (h : ∀ name, suffix.toList.isSuffixOf name.toList = true → spared name = false →
      ∀ x, r (share ++ [name]) x none) :
    Exec.Within (Pointwise r) (pruneSuffix d share spared suffix) := by
  refine Exec.within_bind Exec.within_get fun fs => ?_
  refine Exec.within_foldlM (fun _ name hname => ?_) ()
  refine Exec.within_ite (fun _ => Exec.within_pure ()) fun hspared => ?_
  exact within_removeFile (h name (mem_suffixed hname) (Bool.eq_false_iff.mpr hspared))

theorem within_pruneShare {share : Path} {armedSections : List String} {mirror : Bool}
    (h : ∀ name, pruned armedSections mirror name = true → ∀ x, r (share ++ [name]) x none) :
    Exec.Within (Pointwise r) (pruneShare d share armedSections mirror) := by
  refine Exec.within_bind (Exec.within_foldlM (fun _ name hname => ?_) ()) fun _ =>
    Exec.within_bind (Exec.within_foldlM (fun _ suffix hsuffix => ?_) ()) fun _ =>
      Exec.within_ite (fun hmirror => Exec.within_foldlM (fun _ suffix hsuffix => ?_) ())
        fun _ => Exec.within_pure ()
  · exact within_removeFile (h name (by simp [pruned, hname]))
  · refine within_pruneSuffix fun name hname _ => h name ?_
    have hany : [".mkfs", ".xfs_info"].any (fun s => s.toList.isSuffixOf name.toList) = true :=
      List.any_eq_true.mpr ⟨suffix, hsuffix, hname⟩
    rw [pruned, hany, Bool.or_true, Bool.true_or]
  · refine within_pruneSuffix fun name hname hspared => h name ?_
    have hany : [".config", ".env"].any (fun s => s.toList.isSuffixOf name.toList) = true :=
      List.any_eq_true.mpr ⟨suffix, hsuffix, hname⟩
    have hstem : stem name ∉ armedSections := of_decide_eq_false hspared
    rw [pruned, hany, hmirror, decide_eq_true hstem]
    simp

/-- Below the results directory anything can happen, and nothing elsewhere. -/
theorem within_clearResults {dir : Path} (h : ∀ q, Text.below dir q = true → ∀ x y, r q x y)
    (clean : Bool) (sectionName : String) (out : Emitted) :
    Exec.Within (Pointwise r) (clearResults d u clean dir sectionName out) := by
  have hchild : ∀ name x y, r (dir ++ [name]) x y := fun name =>
    h _ ((Text.below_iff _ _).mpr ⟨name, [], rfl⟩)
  have hgroup : ∀ group name x y, r (dir ++ [group] ++ [name]) x y := fun group name =>
    h _ ((Text.below_iff _ _).mpr ⟨group, [name], by simp⟩)
  refine Exec.within_bind Exec.within_get fun fs => Exec.within_ite (fun _ => ?_) fun _ => ?_
  · exact Exec.within_bind (within_rmtree fun q x hq => h q hq x none) fun _ =>
      Exec.within_pure _
  · refine Exec.within_bind (within_rotateResults hchild) fun kept => ?_
    cases kept with
    | none => exact Exec.within_pure _
    | some n =>
        refine Exec.within_bind (within_rotateFailureArtifacts hgroup n) fun archived => ?_
        exact Exec.within_ite (fun _ => Exec.within_pure _) fun _ => Exec.within_pure _

variable {host : Kernel.Host} {a : RenderArgs} {p : Plan} {s : Armed}

theorem within_prepareSection
    (h : s.name ∈ p.run → ∀ dir, sectionResultsDir host a.vmName a.kernelVersion s.name = .ok dir →
      ∀ q, Text.below dir q = true → ∀ x y, r q x y) (out : Emitted) :
    Exec.Within (Pointwise r) (prepareSection d u host a p s out) := by
  refine Exec.within_ite (fun hrun => ?_) fun _ => Exec.within_pure out
  intro fs
  cases hdir : sectionResultsDir host a.vmName a.kernelVersion s.name with
  | error e => exact Std.Refl.refl (r := Pointwise r) fs
  | ok dir => exact within_clearResults (h hrun dir hdir) a.cleanResults s.name out fs

/-- One section: its results directory, its config and its environment file. -/
theorem within_emitSection
    (hdir : s.name ∈ p.run → ∀ dir,
      sectionResultsDir host a.vmName a.kernelVersion s.name = .ok dir →
      ∀ q, Text.below dir q = true → ∀ x y, r q x y)
    (hconfig : ∀ x, r (configPath p.share s.name) x (some s.text))
    (henv : ∀ x, r (envPath p.share s.name) x (some (envText a p s.name))) (out : Emitted) :
    Exec.Within (Pointwise r) (emitSection d u host a p out s) :=
  Exec.within_bind (within_prepareSection hdir out) fun _ =>
    Exec.within_bind (within_write hconfig) fun _ =>
      Exec.within_bind (within_write henv) fun _ => Exec.within_pure _

theorem within_finish
    (h : ∀ name, pruned (p.armed.map Armed.name) a.armAllSections name = true →
      ∀ x, r (p.share ++ [name]) x none) (out : Emitted) :
    Exec.Within (Pointwise r) (finish d host a p out) :=
  Exec.within_bind (within_pruneShare h) fun _ =>
    Exec.within_bind (Exec.within_lift _) fun _ => Exec.within_pure _

/-- A render whose loop has come to some section. -/
theorem emit_split {l xs : List Armed} (hsplit : p.armed = l ++ xs) {fs fs' : Files}
    {out : Emitted} (hloop : l.foldlM (emitSection d u host a p) {} fs = (.ok out, fs')) :
    emit d u host a p fs =
      (xs.foldlM (emitSection d u host a p) out >>= finish d host a p) fs' := by
  have happ := Exec.foldlM_append' (emitSection d u host a p) l xs {}
  rw [emit, hsplit, happ, Exec.bind_assoc', Exec.bind_ok _ hloop]

end Within

/-! ## Where the files of a section lie -/

theorem configPath_eq (share : Path) (sectionName : String) : configPath share sectionName =
    Text.dirPart share sectionName ++ [Text.leaf sectionName ++ ".config"] :=
  Text.resolve_suffix (by decide) (by decide) share sectionName

theorem envPath_eq (share : Path) (sectionName : String) : envPath share sectionName =
    Text.dirPart share sectionName ++ [Text.leaf sectionName ++ ".env"] :=
  Text.resolve_suffix (by decide) (by decide) share sectionName

theorem safeKver_ok {kernelVersion kv : String} (h : safeKver kernelVersion = .ok kv) :
    Text.strip kernelVersion.toList = kv.toList ∧ kv ≠ ".." := by
  rw [safeKver] at h
  split at h
  · cases h
  · next hkv =>
      cases h
      refine ⟨String.toList_ofList.symm, fun hdots => hkv (.inr (.inr (.inr ?_)))⟩
      rw [← hdots, String.toList_ofList]

/-- A results directory lies in the results of its kernel on the share. -/
theorem sectionResultsDir_ok {host : Kernel.Host} {vmName kernelVersion sectionName : String}
    {dir : Path} (h : sectionResultsDir host vmName kernelVersion sectionName = .ok dir) :
    ∃ kv share, safeKver kernelVersion = .ok kv ∧ shareDir host vmName = .ok share ∧
      dir = Text.resolve (share ++ [kv, "results"]) sectionName ∧
      share ++ [kv, "results"] <+: dir := by
  obtain ⟨kv, hkv, h⟩ := except_bind_ok.mp h
  obtain ⟨share, hshare, h⟩ := except_bind_ok.mp h
  have hbase : Text.walk share [kv, "results"] = share ++ [kv, "results"] := by
    have hresults : ("results" : String) ≠ ".." := by decide
    simp only [Text.walk, List.foldl_cons, List.foldl_nil, if_neg hresults,
      if_neg (safeKver_ok hkv).2, List.append_assoc, List.cons_append, List.nil_append]
  simp only [hbase] at h
  refine ⟨kv, share, hkv, hshare, ?_⟩
  split at h
  · cases h
  · next hin =>
      cases h
      refine ⟨rfl, ?_⟩
      rcases Classical.em (Text.resolve (share ++ [kv, "results"]) sectionName =
        share ++ [kv, "results"]) with heq | hne
      · rw [heq]
      · obtain ⟨x, xs, hx⟩ := (Text.below_iff _ _).mp
          (Classical.not_not.mp fun hnb => hin ⟨hne, hnb⟩)
        rw [hx]
        exact List.prefix_append _ _

end KdevopsNg.Fstests
