/-
# `Fstests.Granting` — a render that nothing stops

On a disk that refuses nothing, a loop over sections whose results directories
are accepted returns, and what it leaves of a path is a fold over the sections
(`laid`, `emitLoop_granting`): each section's two files, and nothing where its
results were removed.  Either clean_results is set, or there is no report to
set aside.

A section whose results directory is refused stops the loop at once
(`emitSection_refused`).
-/
import KdevopsNg.Fstests.Emit
import KdevopsNg.Sys.Trees

namespace KdevopsNg.Fstests

open Py Sys

/-- The run sections of a list whose results directory is accepted. -/
def Accepted (host : Kernel.Host) (a : RenderArgs) (p : Plan) (xs : List Armed) : Prop :=
  ∀ s ∈ xs, s.name ∈ p.run →
    ∃ dir, sectionResultsDir host a.vmName a.kernelVersion s.name = .ok dir

/-- No directory has a report. -/
def NoReport (fs : Files) : Prop := ∀ dir, fs.read? (dir ++ ["result.xml"]) = none

/-- A path the results directory of a section takes with it. -/
def cleared (host : Kernel.Host) (a : RenderArgs) (p : Plan) (s : Armed) (q : Path) : Bool :=
  decide (s.name ∈ p.run) && a.cleanResults &&
    match sectionResultsDir host a.vmName a.kernelVersion s.name with
    | .ok dir => Text.below dir q
    | .error _ => false

/-- What a section leaves of each path: its two files, and nothing where its
results were removed. -/
def laid (host : Kernel.Host) (a : RenderArgs) (p : Plan) (g : Path → Option String) (s : Armed) :
    Path → Option String := fun q =>
  if q = envPath p.share s.name then some (envText a p s.name)
  else if q = configPath p.share s.name then some s.text
  else if cleared host a p s q then none
  else g q

section Granting

variable {u : Unicode} {host : Kernel.Host} {a : RenderArgs} {p : Plan}

theorem cleared_eq {s : Armed} {dir : Path} (hrun : s.name ∈ p.run) (hclean : a.cleanResults = true)
    (hdir : sectionResultsDir host a.vmName a.kernelVersion s.name = .ok dir) (q : Path) :
    cleared host a p s q = Text.below dir q := by
  rw [cleared, decide_eq_true hrun, hclean, hdir]
  rfl

theorem rotateResults_absent {d : Disk} {fs : Files} {dir : Path}
    (h : fs.read? (dir ++ ["result.xml"]) = none) : rotateResults d dir fs = (.ok none, fs) := by
  have hfile : fs.isFile (dir ++ ["result.xml"]) = false := by
    rw [Files.isFile, h]
    rfl
  show (if fs.isFile (dir ++ ["result.xml"]) = true then _ else (pure none : Exec Files _)) fs = _
  rw [hfile]
  rfl

theorem clearResults_granting {clean : Bool} (dir : Path) {fs : Files}
    (h : clean = true ∨ NoReport fs) (sectionName : String) (out : Emitted) :
    ∃ out' fs', clearResults Disk.granting u clean dir sectionName out fs = (.ok out', fs') ∧
      ∀ q, fs'.read? q = if clean && Text.below dir q then none else fs.read? q := by
  cases hdir : clean && fs.isDir dir with
  | true =>
      refine ⟨{ out with cleaned := out.cleaned ++ [sectionName] },
        (rmtree Disk.granting dir fs).2, ?_, fun q => ?_⟩
      · rw [clearResults, Exec.bind_ok _ (Exec.get_apply fs)]
        show (if (clean && fs.isDir dir) = true then _ else _ : Exec Files Emitted) fs = _
        rw [if_pos hdir]
        rfl
      · rw [read?_rmtree, (Bool.and_eq_true _ _ ▸ hdir : clean = true ∧ _).1]
        show (if (!Text.below dir q || false) = true then _ else _) = _
        cases Text.below dir q <;> rfl
  | false =>
      have hnone : fs.read? (dir ++ ["result.xml"]) = none := by
        rcases h with rfl | hno
        · exact Files.read?_below (by simpa using hdir)
            ((Text.below_iff _ _).mpr ⟨"result.xml", [], rfl⟩)
        · exact hno dir
      refine ⟨out, fs, ?_, fun q => ?_⟩
      · rw [clearResults, Exec.bind_ok _ (Exec.get_apply fs)]
        show (if (clean && fs.isDir dir) = true then _ else _ : Exec Files Emitted) fs = _
        rw [hdir, if_neg Bool.false_ne_true, Exec.bind_ok _ (rotateResults_absent hnone)]
        rfl
      · split
        · next hq =>
            rw [Bool.and_eq_true] at hq
            rw [hq.1, Bool.true_and] at hdir
            exact Files.read?_below hdir hq.2
        · rfl

theorem prepareSection_granting {fs : Files} {s : Armed} (hacc : Accepted host a p [s])
    (h : a.cleanResults = true ∨ NoReport fs) (out : Emitted) :
    ∃ out' fs', prepareSection Disk.granting u host a p s out fs = (.ok out', fs') ∧
      ∀ q, fs'.read? q = if cleared host a p s q then none else fs.read? q := by
  rw [prepareSection]
  by_cases hrun : s.name ∈ p.run
  · obtain ⟨dir, hdir⟩ := hacc s List.mem_cons_self hrun
    obtain ⟨out', fs', hout, hread⟩ := clearResults_granting (u := u) dir h s.name out
    refine ⟨out', fs', ?_, fun q => ?_⟩
    · rw [if_pos hrun, hdir]
      exact hout
    · rw [hread q, cleared, hdir, decide_eq_true hrun, Bool.true_and]
  · refine ⟨out, fs, by rw [if_neg hrun]; rfl, fun q => ?_⟩
    rw [cleared, decide_eq_false hrun]
    rfl

theorem emitSection_granting {fs : Files} {s : Armed} (hacc : Accepted host a p [s])
    (h : a.cleanResults = true ∨ NoReport fs) (out : Emitted) :
    ∃ out' fs', emitSection Disk.granting u host a p out s fs = (.ok out', fs') ∧
      fs'.read? = laid host a p fs.read? s := by
  obtain ⟨out₁, fs₁, h₁, hread₁⟩ := prepareSection_granting (u := u) hacc h out
  obtain ⟨fs₂, h₂⟩ := write_granting (configPath p.share s.name) s.text fs₁
  obtain ⟨fs₃, h₃⟩ := write_granting (envPath p.share s.name) (envText a p s.name) fs₂
  have hread : fs₃.read? = laid host a p fs.read? s := by
    funext q
    rw [write_ok h₃, write_ok h₂, hread₁]
    rfl
  have hrun : emitSection Disk.granting u host a p out s fs = (.ok { out₁ with
      sectionConfigs := out₁.sectionConfigs ++ [configPath p.share s.name]
      sectionEnvs := out₁.sectionEnvs ++ [envPath p.share s.name] }, fs₃) := by
    rw [emitSection, Exec.bind_ok _ h₁, Exec.bind_ok _ h₂, Exec.bind_ok _ h₃]
    rfl
  exact ⟨_, fs₃, hrun, hread⟩

/-- Neither file of a section is a report. -/
theorem laid_report {g : Path → Option String} (hg : ∀ dir, g (dir ++ ["result.xml"]) = none)
    (s : Armed) (dir : Path) : laid host a p g s (dir ++ ["result.xml"]) = none := by
  have hne : ∀ {suffix : String}, ¬ suffix.toList <:+ "result.xml".toList →
      dir ++ ["result.xml"] ≠ Text.dirPart p.share s.name ++ [Text.leaf s.name ++ suffix] := by
    intro suffix hsuffix heq
    have hlast : "result.xml" = Text.leaf s.name ++ suffix := by
      have := congrArg List.getLast? heq
      simpa using this
    exact hsuffix ⟨(Text.leaf s.name).toList, by rw [hlast, String.toList_append]⟩
  rw [laid, envPath_eq, configPath_eq, if_neg (hne (by decide)), if_neg (hne (by decide)), hg,
    ite_self]

/-- The loop over sections whose results directories are accepted. -/
theorem emitLoop_granting {xs : List Armed} (fs : Files) (hacc : Accepted host a p xs)
    (h : a.cleanResults = true ∨ NoReport fs) (out : Emitted) :
    ∃ out' fs', xs.foldlM (emitSection Disk.granting u host a p) out fs = (.ok out', fs') ∧
      fs'.read? = xs.foldl (laid host a p) fs.read? ∧
      (a.cleanResults = true ∨ NoReport fs') := by
  induction xs generalizing fs out with
  | nil => exact ⟨out, fs, rfl, rfl, h⟩
  | cons s xs ih =>
      have hs : Accepted host a p [s] := fun t ht =>
        hacc t (List.mem_cons.mpr (.inl (List.mem_singleton.mp ht)))
      obtain ⟨out₁, fs₁, h₁, hread₁⟩ := emitSection_granting (u := u) hs h out
      have hno : a.cleanResults = true ∨ NoReport fs₁ := by
        rcases h with hclean | hno
        · exact .inl hclean
        · refine .inr fun dir => ?_
          rw [hread₁]
          exact laid_report hno s dir
      obtain ⟨out₂, fs₂, h₂, hread₂, hno₂⟩ :=
        ih fs₁ (fun t ht => hacc t (List.mem_cons_of_mem s ht)) hno out₁
      refine ⟨out₂, fs₂, ?_, ?_, hno₂⟩
      · rw [List.foldlM_cons, Exec.bind_ok _ h₁]
        exact h₂
      · rw [hread₂, hread₁]
        rfl

/-- A section whose results directory is refused stops the loop. -/
theorem emitSection_refused {s : Armed} (hs : ¬ Accepted host a p [s]) (d : Disk) (out : Emitted)
    (fs : Files) : ∃ e, emitSection d u host a p out s fs = (.error e, fs) := by
  simp only [Accepted, List.mem_singleton, forall_eq, Classical.not_imp] at hs
  obtain ⟨hrun, hdir⟩ := hs
  cases hres : sectionResultsDir host a.vmName a.kernelVersion s.name with
  | ok dir => exact absurd ⟨dir, hres⟩ hdir
  | error e =>
      refine ⟨e, ?_⟩
      rw [emitSection, prepareSection, if_pos hrun, hres]
      rfl

/-- With clean_results a section only removes, and writes its two files. -/
theorem within_emitSection_clean {r : Path → Option String → Option String → Prop}
    [∀ p, Std.Refl (r p)] (hclean : a.cleanResults = true) (hnone : ∀ q x, r q x none) {s : Armed}
    (hconfig : ∀ x, r (configPath p.share s.name) x (some s.text))
    (henv : ∀ x, r (envPath p.share s.name) x (some (envText a p s.name))) (out : Emitted) :
    Exec.Within (Pointwise r) (emitSection Disk.granting u host a p out s) := by
  intro fs q
  by_cases hs : Accepted host a p [s]
  · obtain ⟨out', fs', hrun, hread⟩ := emitSection_granting (u := u) hs (.inl hclean) out
    rw [hrun]
    show r q _ (fs'.read? q)
    rw [hread, laid]
    split
    · next hq => exact hq ▸ henv _
    · split
      · next hq => exact hq ▸ hconfig _
      · split
        · exact hnone q _
        · exact Std.Refl.refl (r := r q) _
  · obtain ⟨e, he⟩ := emitSection_refused (u := u) hs Disk.granting out fs
    rw [he]
    exact Std.Refl.refl (r := r q) _

end Granting

/-! ## A sample call -/

/-- The ASCII digits and letters. -/
def asciiUnicode : Unicode :=
  ⟨fun c => if c.isDigit then some (c.toNat - 48) else none, fun c => c.isAlphanum⟩

/-- A worker. -/
def sampleHost : Kernel.Host := ⟨["system"], ["workers"]⟩

/-- A render for two devices. -/
def sampleArgs (localConfig : String) (sections : List String) : RenderArgs where
  vmName := "vm0"
  kernelVersion := "6.12.0"
  localConfig := localConfig
  sections := sections
  cleanResults := false
  logwrites := false
  devices := [⟨"/dev/vda", none⟩, ⟨"/dev/vdb", none⟩]
  testSelection := "groups"
  groups := ["auto"]
  excludeGroup := ""
  exclude := ""
  report := "xunit"
  randomize := false
  tests := ""
  iterations := 1
  loopOnFail := 0
  stopOnFail := true
  testTimeout := 0
  testTimeouts := []
  recreateTestDev := true
  armAllSections := true

end KdevopsNg.Fstests
