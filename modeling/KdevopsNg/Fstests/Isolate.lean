/-
# `Fstests.Isolate` — a render and the results of other sections

Before a section runs again, a render removes its results directory or sets
aside what is in it.  It should touch no other result: none of a section that
does not run, none of another kernel, none of the base directory all sections
share.

The directory of a section is its name joined to that base.  The check there
lets the base itself through (`.`), and it looks at one name at a time, so one
section's directory can hold another's (`a` and `a/b`).  A render is isolated
exactly when no run section it comes to has such a name
(`render_isolated_iff`).
-/
import KdevopsNg.Fstests.Confine

namespace KdevopsNg.Fstests

open Py Sys

/-- The directory the results of a kernel lie in. -/
def resultsBase (p : Plan) (kv : String) : Path := p.share ++ [kv, "results"]

/-- A file in the results of some kernel, none of those the render writes. -/
def ResultFile (p : Plan) (q : Path) : Prop :=
  (∃ kv, Text.below (resultsBase p kv) q = true) ∧
    ∀ s ∈ p.armed, q ≠ configPath p.share s.name ∧ q ≠ envPath p.share s.name

/-- The file is gone, or not what it was. -/
def Disturbed (fs fs' : Files) (q : Path) : Prop :=
  ∃ text, fs.read? q = some text ∧ fs'.read? q ≠ some text

/-- The results directory of a section. -/
def DirOf (host : Kernel.Host) (a : RenderArgs) (sectionName : String) (dir : Path) : Prop :=
  sectionResultsDir host a.vmName a.kernelVersion sectionName = .ok dir

/-- A result a render may touch: in the directory of a section it runs, under
this kernel and not the base, and in none of a declared section it does not
run. -/
structure Own (host : Kernel.Host) (a : RenderArgs) (p : Plan) (q : Path) : Prop where
  inside : ∃ s ∈ p.run, ∃ dir, DirOf host a s dir ∧ Text.below dir q = true ∧
    ∀ kv, safeKver a.kernelVersion = .ok kv → dir ≠ resultsBase p kv
  kernel : ∀ kv, safeKver a.kernelVersion = .ok kv → Text.below (resultsBase p kv) q = true
  others : ∀ s ∈ p.available, s ∉ p.run → ∀ dir, DirOf host a s dir → Text.below dir q = false

/-- Whatever the setting of clean_results and the state of the share, the results
a render disturbs are its own. -/
def Isolated (u : Unicode) (host : Kernel.Host) (a : RenderArgs) : Prop :=
  ∀ clean d fs q, Disturbed fs (renderMain d u host { a with cleanResults := clean } fs).2 q →
    ∃ p, plan u host a = .ok p ∧ (ResultFile p q → Own host a p q)

/-- Each run section the loop comes to has a directory that is not the base, and
that holds and is held by none of a declared section that does not run. -/
def Separate (host : Kernel.Host) (a : RenderArgs) (p : Plan) : Prop :=
  ∀ l s r, p.armed = l ++ s :: r → Accepted host a p (l ++ [s]) → s.name ∈ p.run →
    ∀ dir, DirOf host a s.name dir →
      (∀ kv, safeKver a.kernelVersion = .ok kv → dir ≠ resultsBase p kv) ∧
      ∀ t ∈ p.available, t ∉ p.run → ∀ dir', DirOf host a t dir' → ¬ dir <+: dir' ∧ ¬ dir' <+: dir

variable {u : Unicode} {host : Kernel.Host} {a : RenderArgs} {p : Plan}

theorem dirOf_base (hplan : Planned u host a p) {sectionName : String} {dir : Path}
    (h : DirOf host a sectionName dir) :
    ∃ kv, safeKver a.kernelVersion = .ok kv ∧ resultsBase p kv <+: dir := by
  obtain ⟨kv, share, hkv, hshare, -, hunder⟩ := sectionResultsDir_ok h
  rw [hplan.share] at hshare
  cases hshare
  exact ⟨kv, hkv, hunder⟩

/-! ## What is disturbed lies in a directory the loop came to -/

/-- The directories the loop clears: of the run sections it comes to. -/
def Reached (host : Kernel.Host) (a : RenderArgs) (p : Plan) (dir : Path) : Prop :=
  ∃ l s r, p.armed = l ++ s :: r ∧ Accepted host a p (l ++ [s]) ∧ s.name ∈ p.run ∧
    DirOf host a s.name dir

/-- A result outside those keeps its content. -/
def Spared (host : Kernel.Host) (a : RenderArgs) (p : Plan) (q : Path) (x y : Option String) :
    Prop :=
  ResultFile p q → (∀ dir, Reached host a p dir → Text.below dir q = false) → y = x

instance (q : Path) : Std.Refl (Spared host a p q) := ⟨fun _ _ _ => rfl⟩

instance (q : Path) : IsTrans _ (Spared host a p q) :=
  ⟨fun _ _ _ h h' hq hd => (h' hq hd).trans (h hq hd)⟩

theorem emitLoop_spared {d : Disk} {clean : Bool} {l xs : List Armed} (hsplit : p.armed = l ++ xs)
    (hacc : Accepted host a p l) (out : Emitted) :
    Exec.Within (Pointwise (Spared host a p))
      (xs.foldlM (emitSection d u host { a with cleanResults := clean } p) out) := by
  induction xs generalizing l out with
  | nil => exact Exec.within_pure out
  | cons s xs ih =>
      rw [List.foldlM_cons]
      have hmem : s ∈ p.armed := by simp [hsplit]
      by_cases hs : Accepted host a p [s]
      · have hls : Accepted host a p (l ++ [s]) := fun t ht =>
          (List.mem_append.mp ht).elim (hacc t) (hs t)
        refine Exec.within_bind (within_emitSection ?_ ?_ ?_ out) ?_
        · intro hrun dir hdir q hq x y _ hout
          rw [hout dir ⟨l, s, xs, hsplit, hls, hrun, hdir⟩] at hq
          cases hq
        · exact fun x hfile => absurd rfl (hfile.2 s hmem).1
        · exact fun x hfile => absurd rfl (hfile.2 s hmem).2
        · exact fun out' => ih (by rw [hsplit, List.append_assoc]; rfl) hls out'
      · intro fs
        obtain ⟨e, he⟩ := emitSection_refused (u := u) (a := { a with cleanResults := clean })
          hs d out fs
        rw [Exec.bind_error _ he]
        exact Std.Refl.refl (r := Pointwise (Spared host a p)) fs

theorem not_resultFile_child {name : String} : ¬ ResultFile p (p.share ++ [name]) := by
  rintro ⟨⟨kv, hbelow⟩, -⟩
  obtain ⟨x, xs, h⟩ := (Text.below_iff _ _).mp hbelow
  have := congrArg List.length h
  simp [resultsBase] at this

theorem disturbed_reached {clean : Bool} {d : Disk} {fs : Files} {q : Path}
    (hfile : ResultFile p q)
    (h : Disturbed fs (emit d u host { a with cleanResults := clean } p fs).2 q) :
    ∃ dir, Reached host a p dir ∧ Text.below dir q = true := by
  by_contra hnone
  simp only [not_exists, not_and, Bool.not_eq_true] at hnone
  have hwithin : Exec.Within (Pointwise (Spared host a p))
      (emit d u host { a with cleanResults := clean } p) := by
    refine Exec.within_bind (emitLoop_spared (l := []) rfl ?_ {}) fun out => ?_
    · exact fun s hs => absurd hs List.not_mem_nil
    · exact within_finish (fun name _ x hchild => absurd hchild not_resultFile_child) out
  obtain ⟨text, hread, hne⟩ := h
  rw [hwithin fs q hfile hnone] at hne
  exact hne hread

/-! ## What a reached directory loses -/

/-- A report that is gone stays so. -/
def NoReportAt (q : Path) (x y : Option String) : Prop :=
  q.getLast? = some "result.xml" → x = none → y = none

instance (q : Path) : Std.Refl (NoReportAt q) := ⟨fun _ _ h => h⟩

instance (q : Path) : IsTrans _ (NoReportAt q) := ⟨fun _ _ _ h h' hq hx => h' hq (h hq hx)⟩

theorem leaf_not_report (sectionName suffix : String)
    (hsuffix : ¬ suffix.toList <:+ "result.xml".toList) (dir : Path) :
    (dir ++ [Text.leaf sectionName ++ suffix]).getLast? ≠ some "result.xml" := by
  intro h
  rw [List.getLast?_concat] at h
  exact hsuffix ⟨(Text.leaf sectionName).toList, by
    rw [← String.toList_append, Option.some.inj h]⟩

theorem config_not_report (share : Path) (sectionName : String) :
    (configPath share sectionName).getLast? ≠ some "result.xml" := by
  rw [configPath_eq]
  exact leaf_not_report _ _ (by decide) _

theorem env_not_report (share : Path) (sectionName : String) :
    (envPath share sectionName).getLast? ≠ some "result.xml" := by
  rw [envPath_eq]
  exact leaf_not_report _ _ (by decide) _

/-- A report under a kernel is a result file. -/
theorem report_resultFile (kv : String) {q : Path} (hq : Text.below (resultsBase p kv) q = true)
    (hreport : q.getLast? = some "result.xml") : ResultFile p q :=
  ⟨⟨kv, hq⟩, fun _ _ => ⟨fun heq => config_not_report _ _ (heq ▸ hreport),
    fun heq => env_not_report _ _ (heq ▸ hreport)⟩⟩

/-- With clean_results, no report is left below a directory the loop comes to. -/
theorem reached_cleaned {dir q : Path} (h : Reached host a p dir) (hq : Text.below dir q = true)
    (hreport : q.getLast? = some "result.xml") (fs : Files) :
    (emit Disk.granting u host { a with cleanResults := true } p fs).2.read? q = none := by
  obtain ⟨l, s, r, hsplit, hacc, hrun, hdir⟩ := h
  obtain ⟨out, fs', hloop, hread, -⟩ := emitLoop_granting (u := u)
    (a := { a with cleanResults := true }) fs hacc (.inl rfl) {}
  have hgone : fs'.read? q = none := by
    have hcleared : cleared host { a with cleanResults := true } p s q = true :=
      (cleared_eq (a := { a with cleanResults := true }) hrun rfl hdir q).trans hq
    have henv : q ≠ envPath p.share s.name := fun heq =>
      env_not_report _ _ (heq ▸ hreport)
    have hconfig : q ≠ configPath p.share s.name := fun heq =>
      config_not_report _ _ (heq ▸ hreport)
    rw [hread, List.foldl_append]
    show laid host { a with cleanResults := true } p _ s q = none
    rw [laid, if_neg henv, if_neg hconfig, if_pos hcleared]
  have hrest : Exec.Within (Pointwise NoReportAt)
      (r.foldlM (emitSection Disk.granting u host { a with cleanResults := true } p) out >>=
        finish Disk.granting host { a with cleanResults := true } p) := by
    refine Exec.within_bind (Exec.within_foldlM (fun o t _ => ?_) out) ?_
    · refine within_emitSection_clean rfl (fun _ _ _ _ => rfl) ?_ ?_ o
      · exact fun _ hq' => absurd hq' (config_not_report _ _)
      · exact fun _ hq' => absurd hq' (env_not_report _ _)
    · exact within_finish fun _ _ _ _ _ => rfl
  rw [emit_split (hsplit.trans (List.append_cons l s r)) hloop]
  exact hrest fs' q hreport hgone

/-! ## The iff -/

/-- A report below a directory the loop comes to is disturbed under
clean_results, so in an isolated render it is the render's own. -/
theorem own_report (hp : plan u host a = .ok p) (h : Isolated u host a) {dir x : Path}
    (hdir : Reached host a p dir) (hx : dir <+: x) : Own host a p (x ++ ["result.xml"]) := by
  have hbelow : Text.below dir (x ++ ["result.xml"]) = true := (below_snoc _ _ _).mpr hx
  have hlast : (x ++ ["result.xml"]).getLast? = some "result.xml" := List.getLast?_concat
  have hgone := reached_cleaned (u := u) hdir hbelow hlast ⟨[(x ++ ["result.xml"], "")], []⟩
  rw [← renderMain_clean hp] at hgone
  obtain ⟨p', hp', hown⟩ := h true Disk.granting ⟨[(x ++ ["result.xml"], "")], []⟩
    (x ++ ["result.xml"]) ⟨"", by simp [Files.read?], by rw [hgone]; exact (Option.some_ne_none _).symm⟩
  rw [hp] at hp'
  cases hp'
  obtain ⟨_, s, _, _, _, _, hs⟩ := hdir
  obtain ⟨kv, -, hunder⟩ := dirOf_base (plan_ok hp) hs
  exact hown (report_resultFile kv (below_of_under hunder hbelow) hlast)

/-- The report of section `a/b`, in the directory of section `a`. -/
def nestedReport : Path :=
  ["workers", "shared", "fstests", "vm0", "6.12.0", "results", "a", "b", "result.xml"]

end KdevopsNg.Fstests
