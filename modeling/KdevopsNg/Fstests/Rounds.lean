/-
# `Fstests.Rounds` — no results of a run are lost

A round on a section and a kernel is a render without clean_results and, where
it returned, a run of the guest that writes files into the section's results
directory.  The evidence of a round, its report, its log and its failure
artefacts, should be found after every later render, under its own name or an
indexed one; no rename should replace a file; and no indexed file should be
taken for a current one.

The rotation is gated on `result.xml`: a run that ended without one leaves
evidence that the next run overwrites (`unreported_log_lost`).  And it takes
every file of a failed test, also those whose suffix the pattern of rotated
names does not list.  In a run of rounds that meet neither, nothing is lost
(`rounds_lossless`).
-/
import KdevopsNg.Fstests.Isolate
import KdevopsNg.Fstests.Rotation

namespace KdevopsNg.Fstests

open Py Sys

/-! ## Rounds -/

/-- A render, and what the guest writes after it. -/
structure Round where
  disk : Disk
  args : RenderArgs
  writes : List (Path × String)

/-- The files after a run of the guest. -/
def guestRun (writes : List (Path × String)) (fs : Files) : Files :=
  writes.foldl (fun fs w => { fs with files := Dict.set fs.files w.1 w.2 }) fs

variable (u : Unicode) (host : Kernel.Host)

/-- The files after a round: the guest runs when the render returned. -/
def Round.play (r : Round) (fs : Files) : Files :=
  match renderMain r.disk u host r.args fs with
  | (.ok _, fs') => guestRun r.writes fs'
  | (.error _, fs') => fs'

/-- The files after some rounds. -/
def play (rs : List Round) (fs : Files) : Files := rs.foldl (fun fs r => r.play u host fs) fs

/-- `<test>.<suffix>`, the suffix not an index and another one. -/
def Unrotated (name : String) : Prop :=
  ∃ base rest, name.toList = base ++ '.' :: rest ∧ '.' ∉ base ∧
    ¬ ∃ digits after, rest = digits ++ '.' :: after ∧ digits ≠ [] ∧
      ∀ c ∈ digits, (u.digit? c).isSome = true

/-- What a guest may write in a results directory. -/
inductive GuestFile (dir : Path) : Path → Prop
  | report : GuestFile dir (dir ++ ["result.xml"])
  | log : GuestFile dir (dir ++ ["check.log"])
  | artefact {group name : String} (h : Unrotated u name) : GuestFile dir (dir ++ [group, name])

/-- A round on a section of a VM under a kernel, its results in `dir`. -/
structure Round.On (vmName kernelVersion sectionName : String) (dir : Path) (r : Round) :
    Prop where
  vm : r.args.vmName = vmName
  kernel : r.args.kernelVersion = kernelVersion
  keeps : r.args.cleanResults = false
  runs : ∀ p, plan u host r.args = .ok p → sectionName ∈ p.run
  writes : ∀ w ∈ r.writes, GuestFile u dir w.1

/-! ## What should hold -/

/-- Under its own name or an indexed one. -/
def Found (dir : Path) (fs : Files) (q : Path) (text : String) : Prop :=
  ∃ q', (q' = q ∨ ∃ n, SetAside u dir n q q') ∧ fs.read? q' = some text

/-- A render or a report takes the file for one of the last run. -/
def TakenForCurrent (dir q : Path) : Prop :=
  q = dir ++ ["result.xml"] ∨ q = dir ++ ["check.log"] ∨
    (∃ group name, q = dir ++ [group, name] ∧ current u name ≠ none) ∨ ∃ files, q ∈ outBad u files

/-- No results are lost over a run of rounds. -/
structure Lossless (dir : Path) (fs : Files) (rs : List Round) : Prop where
  kept : ∀ l k m j r, rs = l ++ k :: (m ++ j :: r) → ∀ q text, Evidence u dir q →
    (play u host (l ++ [k]) fs).read? q = some text →
      Found u dir (renderMain j.disk u host j.args (play u host (l ++ k :: m) fs)).2 q text
  fresh : ∀ l j r, rs = l ++ j :: r →
    Moves (fun q q' => ∃ n, SetAside u dir n q q') (contents dir (play u host l fs))
      (contents dir (renderMain j.disk u host j.args (play u host l fs)).2)
  told : ∀ l r, rs = l ++ r → ∀ n q, Indexed dir n q → (play u host l fs).read? q ≠ none →
    ¬ TakenForCurrent u dir q

/-- A round from a state where it loses nothing: no file or directory of another
section meets the directory; with no report there the guest leaves the evidence
alone; and the suffixes a rotation takes are marked. -/
structure Orderly (dir : Path) (fs : Files) (r : Round) : Prop where
  apart : ∀ p, plan u host r.args = .ok p → ∀ s ∈ p.armed,
    Text.below dir (configPath p.share s.name) = false ∧
    Text.below dir (envPath p.share s.name) = false ∧
    (s.name ∈ p.run → ∀ dir', DirOf host r.args s.name dir' →
      dir' = dir ∨ ¬ dir <+: dir' ∧ ¬ dir' <+: dir)
  reported : fs.read? (dir ++ ["result.xml"]) = none → ∀ w ∈ r.writes, Evidence u dir w.1 →
    fs.read? w.1 = none
  marked : fs.read? (dir ++ ["result.xml"]) ≠ none → TakenMarked u dir (contents dir fs)

/-! ## One render -/

variable {u host}

/-- What a render has done to the contents: moves under one index, each file of
an index still with its report. -/
def Shifted (u : Unicode) (dir : Path) (g g' : Path → Option String) : Prop :=
  Accounted dir g' ∧ ∃ n, Moves (SetAside u dir n) g g'

/-- Before its section, or after it. -/
def Tidy (u : Unicode) (dir : Path) (g g' : Path → Option String) : Prop :=
  Shifted u dir g g' ∧ (g' = g ∨ Cleared u dir g')

/-- After its section: nothing was done only where there was no report. -/
def Done (u : Unicode) (dir : Path) (g g' : Path → Option String) : Prop :=
  Shifted u dir g g' ∧ (g' = g ∧ g (dir ++ ["result.xml"]) = none ∨ Cleared u dir g')

theorem Done.tidy {dir : Path} {g g' : Path → Option String} (h : Done u dir g g') :
    Tidy u dir g g' := ⟨h.1, h.2.imp_left And.left⟩

/-- A body that keeps what is below the directory keeps what holds of it. -/
theorem triple_same {α : Type} {dir : Path} {x : Exec Files α}
    (h : Exec.Within (Pointwise (Same dir)) x) (P : (Path → Option String) → Prop) :
    Exec.Triple (fun fs => P (contents dir fs)) x (fun _ fs => P (contents dir fs))
      (fun fs => P (contents dir fs)) := by
  intro fs hfs
  have hsame := contents_same (h fs)
  rcases hx : x fs with ⟨e | a, fs'⟩
  · rw [hx] at hsame
    show P (contents dir fs')
    rw [hsame]
    exact hfs
  · rw [hx] at hsame
    show P (contents dir fs')
    rw [hsame]
    exact hfs

section Render

variable {d : Disk} {a : RenderArgs} {p : Plan} {dir : Path} {g : Path → Option String}

theorem clearResults_done (hu : Decimal u)
    (hmarked : g (dir ++ ["result.xml"]) ≠ none → TakenMarked u dir g) (sectionName : String)
    (out : Emitted) : Exec.Triple (fun fs => Tidy u dir g (contents dir fs))
      (clearResults d u false dir sectionName out)
      (fun _ fs => Done u dir g (contents dir fs)) (fun fs => Shifted u dir g (contents dir fs)) := by
  intro fs htidy
  have hreport : contents dir fs (dir ++ ["result.xml"]) = fs.read? (dir ++ ["result.xml"]) :=
    contents_below ((Text.below_iff _ _).mpr ⟨_, [], rfl⟩) fs
  obtain ⟨hshift, hsame | hcleared⟩ := htidy
  · rcases hrun : clearResults d u false dir sectionName out fs with ⟨r, fs'⟩
    have hrotated := clearResults_moves hu hshift.1 ?_ sectionName out hrun
    · obtain ⟨hmoves, hacc, hend⟩ := hrotated
      rw [hsame] at hmoves
      cases r with
      | error e => exact ⟨hacc, hmoves⟩
      | ok out' =>
          refine ⟨⟨hacc, hmoves⟩, ?_⟩
          rcases hend with ⟨hnone, rfl⟩ | hcleared
          · rw [← hreport, hsame] at hnone
            exact .inl ⟨hsame, hnone⟩
          · exact .inr (hcleared out' rfl)
    · rw [← hreport, hsame]
      exact hmarked
  · have hnone := hcleared _ .report
    rw [hreport] at hnone
    rw [clearResults_absent hnone]
    exact ⟨hshift, .inr hcleared⟩

/-- The files of other sections are not below the directory. -/
theorem write_same {path : Path} {text : String} (h : Text.below dir path = false) :
    Exec.Within (Pointwise (Same dir)) (write d path text) :=
  within_write fun _ hbelow => by rw [h] at hbelow; cases hbelow

theorem clearResults_apart {dir' : Path} (h : ¬ dir <+: dir' ∧ ¬ dir' <+: dir) (clean : Bool)
    (sectionName : String) (out : Emitted) :
    Exec.Within (Pointwise (Same dir)) (clearResults d u clean dir' sectionName out) := by
  refine within_clearResults (fun q hq' x y hq => ?_) clean sectionName out
  obtain ⟨z, zs, hz⟩ := (Text.below_iff _ _).mp hq
  obtain ⟨w, ws, hw⟩ := (Text.below_iff _ _).mp hq'
  have hcmp := List.prefix_or_prefix_of_prefix (⟨z :: zs, hz.symm⟩ : dir <+: q)
    (⟨w :: ws, hw.symm⟩ : dir' <+: q)
  exact absurd hcmp (not_or.mpr h)

theorem finish_same {sectionName : String} (hplan : Planned u host a p)
    (hdir : DirOf host a sectionName dir) (out : Emitted) :
    Exec.Within (Pointwise (Same dir)) (finish d host a p out) := by
  obtain ⟨kv, -, hunder⟩ := dirOf_base hplan hdir
  refine within_finish (fun name _ x hbelow => ?_) out
  obtain ⟨y, ys, hy⟩ := (Text.below_iff _ _).mp hbelow
  have hlen := congrArg List.length hy
  have hbase := hunder.length_le
  simp only [resultsBase, List.length_append, List.length_cons, List.length_nil] at hlen hbase
  omega

/-- The section of the directory clears it; any other leaves it alone. -/
theorem prepareSection_own_or_same {s : Armed} (hother : s.name ∈ p.run → ∀ dir',
      DirOf host a s.name dir' → dir' = dir ∨ ¬ dir <+: dir' ∧ ¬ dir' <+: dir) (out : Emitted) :
    s.name ∈ p.run ∧ DirOf host a s.name dir ∨
      Exec.Within (Pointwise (Same dir)) (prepareSection d u host a p s out) := by
  rw [prepareSection]
  by_cases hrun : s.name ∈ p.run
  · rw [if_pos hrun]
    cases hdir : sectionResultsDir host a.vmName a.kernelVersion s.name with
    | error e => exact .inr (Exec.within_raise e)
    | ok dir' =>
        rcases hother hrun dir' hdir with rfl | hapart
        · exact .inl ⟨hrun, hdir⟩
        · exact .inr (clearResults_apart hapart a.cleanResults s.name out)
  · rw [if_neg hrun]
    exact .inr (Exec.within_pure out)

theorem prepareSection_own {s : Armed} (hrun : s.name ∈ p.run) (hdir : DirOf host a s.name dir)
    (out : Emitted) :
    prepareSection d u host a p s out = clearResults d u a.cleanResults dir s.name out := by
  rw [prepareSection, if_pos hrun, show sectionResultsDir host a.vmName a.kernelVersion s.name =
    .ok dir from hdir]
  rfl

/-- What a section keeps before its files are written, it keeps. -/
theorem emitSection_triple {P Q : (Path → Option String) → Prop} {s : Armed} {out : Emitted}
    (hconfig : Text.below dir (configPath p.share s.name) = false)
    (henv : Text.below dir (envPath p.share s.name) = false)
    (hQ : ∀ g', Q g' → Shifted u dir g g')
    (h : Exec.Triple (fun fs => P (contents dir fs)) (prepareSection d u host a p s out)
      (fun _ fs => Q (contents dir fs)) (fun fs => Shifted u dir g (contents dir fs))) :
    Exec.Triple (fun fs => P (contents dir fs)) (emitSection d u host a p out s)
      (fun _ fs => Q (contents dir fs)) (fun fs => Shifted u dir g (contents dir fs)) := by
  have hwrite : ∀ {path text}, Text.below dir path = false →
      Exec.Triple (fun fs => Q (contents dir fs)) (write d path text)
        (fun _ fs => Q (contents dir fs)) (fun fs => Shifted u dir g (contents dir fs)) :=
    fun hpath => (triple_same (write_same hpath) Q).weaken (fun _ hs => hs) (fun _ _ hs => hs)
      fun _ hs => hQ _ hs
  exact Exec.triple_bind h fun _ => Exec.triple_bind (hwrite hconfig) fun _ =>
    Exec.triple_bind (hwrite henv) fun _ => Exec.triple_pure fun _ hs => hs

variable (hu : Decimal u) (hclean : a.cleanResults = false)
  (hmarked : g (dir ++ ["result.xml"]) ≠ none → TakenMarked u dir g)

include hu hclean hmarked

theorem prepareSection_done {s : Armed} (hrun : s.name ∈ p.run) (hdir : DirOf host a s.name dir)
    (out : Emitted) : Exec.Triple (fun fs => Tidy u dir g (contents dir fs))
      (prepareSection d u host a p s out)
      (fun _ fs => Done u dir g (contents dir fs)) (fun fs => Shifted u dir g (contents dir fs)) := by
  rw [prepareSection_own hrun hdir, hclean]
  exact clearResults_done hu hmarked s.name out

/-- Each section keeps what holds before, and what holds after, the section of
the directory. -/
theorem prepareSection_keeps {P : (Path → Option String) → Prop}
    (hP : ∀ g', P g' → Tidy u dir g g') (hD : ∀ g', Done u dir g g' → P g') {s : Armed}
    (hother : s.name ∈ p.run → ∀ dir', DirOf host a s.name dir' →
      dir' = dir ∨ ¬ dir <+: dir' ∧ ¬ dir' <+: dir) (out : Emitted) :
    Exec.Triple (fun fs => P (contents dir fs)) (prepareSection d u host a p s out)
      (fun _ fs => P (contents dir fs)) (fun fs => Shifted u dir g (contents dir fs)) := by
  rcases prepareSection_own_or_same (d := d) (u := u) hother out with ⟨hrun, hdir⟩ | hsame
  · exact (prepareSection_done hu hclean hmarked hrun hdir out).weaken (fun _ hs => hP _ hs)
      (fun _ _ hs => hD _ hs) fun _ hs => hs
  · exact (triple_same hsame P).weaken (fun _ hs => hs) (fun _ _ hs => hs) fun _ hs => (hP _ hs).1

/-- A loop over some sections keeps what holds before, and what holds after. -/
theorem emitLoop_keeps {P : (Path → Option String) → Prop}
    (hP : ∀ g', P g' → Tidy u dir g g') (hD : ∀ g', Done u dir g g' → P g') {xs : List Armed}
    (hapart : ∀ s ∈ xs, Text.below dir (configPath p.share s.name) = false ∧
      Text.below dir (envPath p.share s.name) = false ∧
      (s.name ∈ p.run → ∀ dir', DirOf host a s.name dir' →
        dir' = dir ∨ ¬ dir <+: dir' ∧ ¬ dir' <+: dir)) (out : Emitted) :
    Exec.Triple (fun fs => P (contents dir fs)) (xs.foldlM (emitSection d u host a p) out)
      (fun _ fs => P (contents dir fs)) (fun fs => Shifted u dir g (contents dir fs)) := by
  induction xs generalizing out with
  | nil => exact Exec.triple_pure fun _ hs => hs
  | cons s xs ih =>
      obtain ⟨hconfig, henv, hother⟩ := hapart s List.mem_cons_self
      rw [List.foldlM_cons]
      refine Exec.triple_bind (emitSection_triple hconfig henv (fun g' hg => (hP g' hg).1)
        (prepareSection_keeps hu hclean hmarked hP hD hother out)) fun out' => ?_
      exact ih (fun t ht => hapart t (List.mem_cons_of_mem s ht)) out'

end Render

/-- A render of a round: what is below the directory is as it was, with no report
there, or moved under one index with no evidence left; and where it raised,
moved as far as it came. -/
theorem render_shifted {vmName kernelVersion sectionName : String} {dir : Path}
    (hu : Decimal u) (hdir : sectionResultsDir host vmName kernelVersion sectionName = .ok dir)
    {r : Round} (hon : r.On u host vmName kernelVersion sectionName dir) {fs : Files}
    (hr : Orderly u host dir fs r) (hacc : Accounted dir (contents dir fs)) :
    Exec.Triple (fun s => s = fs) (renderMain r.disk u host r.args)
      (fun _ fs' => Done u dir (contents dir fs) (contents dir fs'))
      (fun fs' => Shifted u dir (contents dir fs) (contents dir fs')) := by
  have hrefl : Shifted u dir (contents dir fs) (contents dir fs) := ⟨hacc, 0, .refl⟩
  have hreport : contents dir fs (dir ++ ["result.xml"]) = fs.read? (dir ++ ["result.xml"]) :=
    contents_below ((Text.below_iff _ _).mpr ⟨_, [], rfl⟩) fs
  have hmarked := hr.marked
  rw [← hreport] at hmarked
  rw [renderMain]
  cases hp : plan u host r.args with
  | error e => exact Exec.triple_raise fun s hs => hs ▸ hrefl
  | ok p =>
      have hplan := plan_ok hp
      have hrun := hon.runs p hp
      obtain ⟨s, hs, hname⟩ : ∃ s ∈ p.armed, s.name = sectionName := by
        rw [hplan.run, List.mem_filter] at hrun
        exact List.mem_map.mp hrun.1
      obtain ⟨l, xs, hsplit⟩ := List.append_of_mem hs
      have hown : DirOf host r.args s.name dir := by
        rw [DirOf, hon.vm, hon.kernel, hname]
        exact hdir
      have hapart := hr.apart p hp
      obtain ⟨hconfig, henv, hother⟩ := hapart s hs
      have hleft : ∀ t ∈ l, t ∈ p.armed := fun t ht => by
        rw [hsplit]
        exact List.mem_append_left _ ht
      have hright : ∀ t ∈ xs, t ∈ p.armed := fun t ht => by
        rw [hsplit]
        exact List.mem_append_right _ (List.mem_cons_of_mem s ht)
      show Exec.Triple _ (emit r.disk u host r.args p) _ _
      rw [emit, hsplit, Exec.foldlM_append', Exec.bind_assoc']
      refine Exec.triple_bind
        ((emitLoop_keeps hu hon.keeps hmarked (fun g' hg => hg) (fun g' hg => hg.tidy)
          (fun t ht => hapart t (hleft t ht)) {}).weaken ?_ (fun _ _ h => h) fun _ h => h)
        fun out => ?_
      · rintro s rfl
        exact ⟨hrefl, .inl rfl⟩
      rw [List.foldlM_cons, Exec.bind_assoc']
      refine Exec.triple_bind (emitSection_triple hconfig henv (fun g' hg => hg.1)
        (prepareSection_done hu hon.keeps hmarked (hname ▸ hrun) hown out)) fun out' => ?_
      refine Exec.triple_bind (emitLoop_keeps hu hon.keeps hmarked (fun g' hg => hg.tidy)
        (fun _ hg => hg) (fun t ht => hapart t (hright t ht)) out') fun out'' => ?_
      exact (triple_same (finish_same hplan hown out'') _).weaken (fun _ h => h)
        (fun _ _ h => h) fun _ h => h.1

/-! ## The guest -/

section Guest

variable {dir q : Path} {n : ℕ}

theorem read?_guestRun {writes : List (Path × String)} (h : ∀ w ∈ writes, w.1 ≠ q) (fs : Files) :
    (guestRun writes fs).read? q = fs.read? q := by
  induction writes generalizing fs with
  | nil => rfl
  | cons w writes ih =>
      show (guestRun writes { fs with files := Dict.set fs.files w.1 w.2 }).read? q = _
      rw [ih (fun w' hw' => h w' (List.mem_cons_of_mem w hw')), Files.read?_set,
        if_neg (h w List.mem_cons_self).symm]

/-- The guest writes no indexed name. -/
theorem GuestFile.not_indexed (hu : Decimal u) (h : GuestFile u dir q) : ¬ Indexed dir n q := by
  intro hindexed
  cases h with
  | report => exact hindexed.ne_file.1 rfl
  | log => exact hindexed.ne_file.2 rfl
  | artefact hunrotated =>
      obtain ⟨base, rest, hname, hbase, hnot⟩ := hunrotated
      obtain ⟨front, base', rest', hbase', hq⟩ := hindexed.name
      rw [List.append_cons] at hq
      obtain ⟨-, hlast⟩ := List.append_inj' hq rfl
      rw [List.singleton_inj.mp hlast, rotatedName_toList] at hname
      obtain ⟨-, hrest⟩ := append_sep_inj hbase' hbase hname
      exact hnot ⟨pad4 n, rest', hrest.symm, pad4_ne_nil n, fun c hc => hu.digit c (pad4_digits hc)⟩

theorem Indexed.below (h : Indexed dir n q) : Text.below dir q = true := by
  cases h with
  | report => exact (Text.below_iff _ _).mpr ⟨_, [], rfl⟩
  | log => exact (Text.below_iff _ _).mpr ⟨_, [], rfl⟩
  | artefact => exact (Text.below_iff _ _).mpr ⟨_, [_], rfl⟩

/-- The guest leaves the indexed names. -/
theorem guestRun_indexed (hu : Decimal u) {writes : List (Path × String)}
    (hwrites : ∀ w ∈ writes, GuestFile u dir w.1) (h : Indexed dir n q) (fs : Files) :
    (guestRun writes fs).read? q = fs.read? q :=
  read?_guestRun (fun w hw heq => (hwrites w hw).not_indexed hu (heq ▸ h)) fs

/-- What was set aside is not taken for a file of the last run. -/
theorem SetAside.not_taken (hu : Decimal u) {p : Path} (h : SetAside u dir n p q) :
    ¬ TakenForCurrent u dir q := by
  have hunlisted : ∀ {name : String} (c : Char), [c] <:+ name.toList →
      ¬ [c] <:+ ".out.bad".toList → ∀ files, dir ++ [name] ∉ outBad u files := by
    intro name c hlast hnot files hmem
    rw [outBad, List.mem_mergeSort, List.mem_filter] at hmem
    have hlisted := hmem.2
    simp only [List.getLastD_concat, Bool.and_eq_true, List.isSuffixOf_iff_suffix] at hlisted
    exact hnot (List.suffix_of_suffix_length_le hlast hlisted.1 (show 1 ≤ 8 by decide))
  rintro (hreport | hlog | ⟨group, name, hq, hcurrent⟩ | ⟨files, hmem⟩)
  · exact h.indexed.ne_file.1 hreport
  · exact h.indexed.ne_file.2 hlog
  · exact hcurrent (h.not_current hu hq)
  · cases h with
    | report =>
        refine hunlisted 'l' ?_ (by decide) files hmem
        rw [rotatedName_toList]
        exact ⟨"result".toList ++ '.' :: (pad4 n ++ ".xm".toList), by simp⟩
    | log =>
        refine hunlisted 'g' ?_ (by decide) files hmem
        rw [rotatedName_toList]
        exact ⟨"check".toList ++ '.' :: (pad4 n ++ ".lo".toList), by simp⟩
    | artefact hcurrent hmarked =>
        rw [List.append_cons] at hmem
        exact outBad_rotated hu _ _ n hmarked files hmem

end Guest

/-! ## A run of rounds -/

/-- What a round leaves true: each index has its report, and no file with one is
taken for current. -/
structure Ledger (u : Unicode) (dir : Path) (fs : Files) : Prop where
  accounted : Accounted dir (contents dir fs)
  told : ∀ n q, Indexed dir n q → fs.read? q ≠ none → ¬ TakenForCurrent u dir q

section Run

variable {dir : Path} {fs fs' : Files}

theorem ledger_shifted (hu : Decimal u) (h : Ledger u dir fs)
    (hshift : Shifted u dir (contents dir fs) (contents dir fs')) : Ledger u dir fs' := by
  obtain ⟨hacc, n, hmoves⟩ := hshift
  refine ⟨hacc, fun m q hq hthere => ?_⟩
  rw [← contents_below hq.below] at hthere
  rcases moves_origin hmoves hthere with hbefore | ⟨p, hp⟩
  · rw [contents_below hq.below] at hbefore
    exact h.told m q hq hbefore
  · exact hp.not_taken hu

theorem ledger_guestRun (hu : Decimal u) (h : Ledger u dir fs) {writes : List (Path × String)}
    (hwrites : ∀ w ∈ writes, GuestFile u dir w.1) : Ledger u dir (guestRun writes fs) := by
  have hsame : ∀ {n q}, Indexed dir n q →
      contents dir (guestRun writes fs) q = contents dir fs q := fun hq => by
    rw [contents_below hq.below, contents_below hq.below, guestRun_indexed hu hwrites hq]
  refine ⟨fun n hn q hq => ?_, fun n q hq hthere => ?_⟩
  · rw [hsame .report] at hn
    rw [hsame hq]
    exact h.accounted n hn q hq
  · rw [guestRun_indexed hu hwrites hq] at hthere
    exact h.told n q hq hthere

/-- Moves under one index keep what is found, under its name or an index. -/
theorem found_shifted (hu : Decimal u)
    (hshift : Shifted u dir (contents dir fs) (contents dir fs')) {q : Path} {text : String}
    (hq : Text.below dir q = true) (h : Found u dir fs q text) : Found u dir fs' q text := by
  obtain ⟨-, n, hmoves⟩ := hshift
  have hread : ∀ {x}, Text.below dir x = true → contents dir fs' x = some text →
      fs'.read? x = some text := fun hx hsome => (contents_below hx fs').symm.trans hsome
  obtain ⟨q', rfl | ⟨m, hside⟩, htext⟩ := h
  · rw [← contents_below hq] at htext
    obtain ⟨x, hway, hx⟩ := moves_kept hmoves htext
    rcases hway.cases_head with rfl | ⟨y, hstep, hway⟩
    · exact ⟨q', .inl rfl, hread hq hx⟩
    · rcases hway.cases_head with rfl | ⟨z, hstep', -⟩
      · exact ⟨y, .inr ⟨n, hstep⟩, hread hstep.below.2 hx⟩
      · exact absurd rfl (hstep.last hu hstep')
  · rw [← contents_below hside.below.2] at htext
    obtain ⟨x, hway, hx⟩ := moves_kept hmoves htext
    rcases hway.cases_head with rfl | ⟨y, hstep, -⟩
    · exact ⟨q', .inr ⟨m, hside⟩, hread hside.below.2 hx⟩
    · exact absurd rfl (hside.last hu hstep)

theorem Evidence.below {q : Path} (h : Evidence u dir q) : Text.below dir q = true := by
  cases h with
  | report => exact (Text.below_iff _ _).mpr ⟨_, [], rfl⟩
  | log => exact (Text.below_iff _ _).mpr ⟨_, [], rfl⟩
  | artefact => exact (Text.below_iff _ _).mpr ⟨_, [_], rfl⟩

variable {vmName kernelVersion sectionName : String} {r : Round}

/-- A round, by whether its render returned. -/
theorem play_cases (hu : Decimal u)
    (hdir : sectionResultsDir host vmName kernelVersion sectionName = .ok dir)
    (hon : r.On u host vmName kernelVersion sectionName dir) (hr : Orderly u host dir fs r)
    (hledger : Ledger u dir fs) :
    ∃ fs', (renderMain r.disk u host r.args fs).2 = fs' ∧
      Shifted u dir (contents dir fs) (contents dir fs') ∧
      (r.play u host fs = fs' ∨ r.play u host fs = guestRun r.writes fs' ∧
        Done u dir (contents dir fs) (contents dir fs')) := by
  have htriple := render_shifted hu hdir hon hr hledger.accounted
  rcases hrun : renderMain r.disk u host r.args fs with ⟨e | res, fs'⟩
  · refine ⟨fs', rfl, htriple.of_error rfl hrun, .inl ?_⟩
    rw [Round.play, hrun]
  · have hdone := htriple.of_ok rfl hrun
    refine ⟨fs', rfl, hdone.1, .inr ⟨?_, hdone⟩⟩
    rw [Round.play, hrun]

theorem ledger_play (hu : Decimal u)
    (hdir : sectionResultsDir host vmName kernelVersion sectionName = .ok dir)
    (hon : r.On u host vmName kernelVersion sectionName dir) (hr : Orderly u host dir fs r)
    (hledger : Ledger u dir fs) : Ledger u dir (r.play u host fs) := by
  obtain ⟨fs', -, hshift, hplay | ⟨hplay, -⟩⟩ := play_cases hu hdir hon hr hledger
  · rw [hplay]
    exact ledger_shifted hu hledger hshift
  · rw [hplay]
    exact ledger_guestRun hu (ledger_shifted hu hledger hshift) hon.writes

/-- A round keeps what is found: with the evidence gone from under its own name
the guest writes over none, and with no report there it leaves it alone. -/
theorem found_play (hu : Decimal u)
    (hdir : sectionResultsDir host vmName kernelVersion sectionName = .ok dir)
    (hon : r.On u host vmName kernelVersion sectionName dir) (hr : Orderly u host dir fs r)
    (hledger : Ledger u dir fs) {q : Path} {text : String} (hq : Evidence u dir q)
    (h : Found u dir fs q text) : Found u dir (r.play u host fs) q text := by
  obtain ⟨fs', -, hshift, hplay | ⟨hplay, hdone⟩⟩ := play_cases hu hdir hon hr hledger
  · rw [hplay]
    exact found_shifted hu hshift hq.below h
  · rw [hplay]
    obtain ⟨q', hq', htext⟩ := found_shifted hu hshift hq.below h
    refine ⟨q', hq', ?_⟩
    rcases hq' with rfl | ⟨n, hside⟩
    · rcases hdone.2 with ⟨hsame, hnone⟩ | hcleared
      · rw [contents_below ((Text.below_iff _ _).mpr ⟨_, [], rfl⟩)] at hnone
        rw [read?_guestRun _ fs', htext]
        rintro w hw rfl
        have habsent := hr.reported hnone w hw hq
        rw [← contents_below hq.below, ← hsame, contents_below hq.below, htext] at habsent
        cases habsent
      · have habsent := hcleared q' hq
        rw [contents_below hq.below, htext] at habsent
        cases habsent
    · rw [guestRun_indexed hu hon.writes hside.indexed, htext]

theorem play_snoc (rs : List Round) (r : Round) (fs : Files) :
    play u host (rs ++ [r]) fs = r.play u host (play u host rs fs) := by
  rw [play, List.foldl_append]
  rfl

/-- Over rounds from an empty results directory, each from a state where it loses
nothing, no results are lost. -/
theorem rounds_lossless (hu : Decimal u)
    (hdir : sectionResultsDir host vmName kernelVersion sectionName = .ok dir)
    (hempty : ∀ q, Text.below dir q = true → fs.read? q = none) (rs : List Round)
    (hon : ∀ r ∈ rs, r.On u host vmName kernelVersion sectionName dir)
    (hrounds : ∀ l r m, rs = l ++ r :: m → Orderly u host dir (play u host l fs) r) :
    Lossless u host dir fs rs := by
  have hround : ∀ {l r m}, rs = l ++ r :: m →
      r.On u host vmName kernelVersion sectionName dir ∧
        Orderly u host dir (play u host l fs) r := fun {l r m} hsplit =>
    ⟨hon r (by rw [hsplit]; exact List.mem_append_right _ List.mem_cons_self),
      hrounds l r m hsplit⟩
  have hledger : ∀ l m, rs = l ++ m → Ledger u dir (play u host l fs) := by
    intro l
    induction l using List.reverseRecOn with
    | nil =>
        refine fun _ _ => ⟨fun n _ q hq => ?_, fun n q hq hthere => ?_⟩
        · rw [contents_below hq.below]
          exact hempty q hq.below
        · exact absurd (hempty q hq.below) hthere
    | append_singleton l r ih =>
        intro m hsplit
        rw [List.append_assoc] at hsplit
        obtain ⟨hr, horder⟩ := hround hsplit
        rw [play_snoc]
        exact ledger_play hu hdir hr horder (ih _ hsplit)
  have hfound : ∀ {q text}, Evidence u dir q → ∀ l m rest, rs = l ++ (m ++ rest) →
      Found u dir (play u host l fs) q text → Found u dir (play u host (l ++ m) fs) q text := by
    intro q text hq l m
    induction m using List.reverseRecOn with
    | nil => exact fun _ _ h => by rwa [List.append_nil]
    | append_singleton m r ih =>
        intro rest hsplit h
        rw [List.append_assoc] at hsplit
        have hhere : rs = (l ++ m) ++ r :: rest := by rw [hsplit, List.append_assoc]; rfl
        obtain ⟨hr, horder⟩ := hround hhere
        rw [← List.append_assoc, play_snoc]
        exact found_play hu hdir hr horder (hledger _ _ hhere) hq (ih _ hsplit h)
  constructor
  · intro l k m j r hsplit q text hq htext
    have hjoin : l ++ k :: m = (l ++ [k]) ++ m := by rw [List.append_assoc]; rfl
    have hsplit' : rs = (l ++ k :: m) ++ j :: r := by rw [hsplit, List.append_assoc]; rfl
    obtain ⟨hj, horder⟩ := hround hsplit'
    obtain ⟨fs', hrender, hshift, -⟩ := play_cases hu hdir hj horder (hledger _ _ hsplit')
    rw [hrender]
    refine found_shifted hu hshift hq.below ?_
    rw [hjoin]
    refine hfound hq (l ++ [k]) m (j :: r) ?_ ⟨q, .inl rfl, htext⟩
    rw [hsplit, List.append_assoc]
    rfl
  · intro l j r hsplit
    obtain ⟨hj, horder⟩ := hround hsplit
    obtain ⟨fs', hrender, ⟨-, n, hmoves⟩, -⟩ := play_cases hu hdir hj horder (hledger _ _ hsplit)
    rw [hrender]
    exact moves_mono (fun q q' h => ⟨n, h⟩) hmoves
  · exact fun l r hsplit n q hq hthere => (hledger l r hsplit).told n q hq hthere

end Run

/-! ## Rounds of a sample section -/

/-- The results of section `a`. -/
def sampleDir : Path := ["workers", "shared", "fstests", "vm0", "6.12.0", "results", "a"]

/-- A round of section `a`. -/
def sampleRound (writes : List (Path × String)) : Round :=
  ⟨Disk.granting, sampleArgs "[a]" ["a"], writes⟩

theorem decimal_ascii : Decimal asciiUnicode where
  digit := fun c hc => by
    show (if c.isDigit then some (c.toNat - 48) else none).isSome = true
    rw [if_pos hc]
    rfl
  dot := by decide

theorem sampleRound_plan {writes : List (Path × String)} {p : Plan}
    (hp : plan asciiUnicode sampleHost (sampleRound writes).args = .ok p) :
    p.run = ["a"] ∧ p.armed.map Armed.name = ["a"] ∧ p.share = sampleDir.take 4 := by
  have hplan : (plan asciiUnicode sampleHost (sampleArgs "[a]" ["a"])).map
      (fun p => (p.run, p.armed.map Armed.name, p.share)) =
        .ok (["a"], ["a"], sampleDir.take 4) := by decide +kernel
  rw [show plan asciiUnicode sampleHost (sampleArgs "[a]" ["a"]) = .ok p from hp] at hplan
  simpa [Except.map] using hplan

theorem sampleRound_on {writes : List (Path × String)}
    (h : ∀ w ∈ writes, GuestFile asciiUnicode sampleDir w.1) :
    (sampleRound writes).On asciiUnicode sampleHost "vm0" "6.12.0" "a" sampleDir where
  vm := rfl
  kernel := rfl
  keeps := rfl
  runs := fun p hp => by
    rw [(sampleRound_plan hp).1]
    exact List.mem_cons_self
  writes := h

theorem sampleDir_ok : sectionResultsDir sampleHost "vm0" "6.12.0" "a" = .ok sampleDir := by
  decide +kernel

/-- A `.notrun` beside a failed test is renamed too, and the next rotation takes
the name it got for a current one. -/
example : current asciiUnicode (rotatedName "001".toList 1 "notrun".toList) =
    some ("001".toList, "0001.notrun".toList) := by decide

/-- What a run with one failed test leaves. -/
def failedTest : List (Path × String) :=
  [(sampleDir ++ ["result.xml"], "<testsuite/>"), (sampleDir ++ ["check.log"], "Failures: 001"),
    (sampleDir ++ ["generic", "001.out.bad"], "+++")]

theorem failedTest_guest : ∀ w ∈ failedTest, GuestFile asciiUnicode sampleDir w.1 := by
  have hname : Unrotated asciiUnicode "001.out.bad" := by
    refine ⟨"001".toList, "out.bad".toList, by decide, by decide, ?_⟩
    rintro ⟨digits, after, hrest, hne, hdigits⟩
    cases digits with
    | nil => exact hne rfl
    | cons c cs =>
        have hc : c = 'o' := (List.cons.inj hrest).1.symm
        exact absurd (hdigits c List.mem_cons_self) (by rw [hc]; decide)
  intro w hw
  simp only [failedTest, List.mem_cons, List.not_mem_nil, or_false] at hw
  rcases hw with rfl | rfl | rfl
  · exact .report
  · exact .log
  · exact .artefact hname

/-- The only section of a sample round meets nothing. -/
theorem sampleRound_apart {writes : List (Path × String)} (p : Plan)
    (hp : plan asciiUnicode sampleHost (sampleRound writes).args = .ok p) (s : Armed)
    (hs : s ∈ p.armed) : Text.below sampleDir (configPath p.share s.name) = false ∧
      Text.below sampleDir (envPath p.share s.name) = false ∧
      (s.name ∈ p.run → ∀ dir', DirOf sampleHost (sampleRound writes).args s.name dir' →
        dir' = sampleDir ∨ ¬ sampleDir <+: dir' ∧ ¬ dir' <+: sampleDir) := by
  obtain ⟨-, harmed, hshare⟩ := sampleRound_plan hp
  have hname : s.name = "a" := by
    have hmem := List.mem_map_of_mem (f := Armed.name) hs
    rw [harmed] at hmem
    exact List.mem_singleton.mp hmem
  rw [hname, hshare]
  refine ⟨by decide +kernel, by decide +kernel, fun _ dir' hdir => .inl ?_⟩
  exact (Except.ok.inj (sampleDir_ok.symm.trans hdir)).symm

/-- The artefact of the failed test has a marked suffix. -/
theorem sampleRound_marked : TakenMarked asciiUnicode sampleDir (contents sampleDir
    (play asciiUnicode sampleHost [sampleRound failedTest] ⟨[], []⟩)) := by
  intro group name base rest hthere hcurrent _
  have hfiles : ((play asciiUnicode sampleHost [sampleRound failedTest] ⟨[], []⟩).files.all
      fun w => decide (w.1.length = 9 → w.1 = sampleDir ++ ["generic", "001.out.bad"])) = true := by
    decide +kernel
  obtain ⟨text, htext⟩ := Option.ne_none_iff_exists'.mp hthere
  rw [contents_below ((Text.below_iff _ _).mpr ⟨group, [name], rfl⟩)] at htext
  have hpath := of_decide_eq_true (List.all_eq_true.mp hfiles _ (Dict.mem_of_get? htext)) rfl
  obtain ⟨-, hname⟩ := List.cons.inj (List.append_cancel_left hpath)
  rw [List.singleton_inj.mp hname,
    show current asciiUnicode "001.out.bad" = some ("001".toList, "out.bad".toList) by decide]
    at hcurrent
  cases hcurrent
  exact ⟨by decide, by decide⟩

theorem rounds_lossless_sample : Lossless asciiUnicode sampleHost sampleDir ⟨[], []⟩
    [sampleRound failedTest, sampleRound failedTest] := by
  refine rounds_lossless decimal_ascii sampleDir_ok (fun _ _ => rfl) _ ?_ ?_
  · intro r hr
    simp only [List.mem_cons, List.not_mem_nil, or_false, or_self] at hr
    exact hr ▸ sampleRound_on failedTest_guest
  · intro l r m hsplit
    cases l with
    | nil =>
        cases hsplit
        exact ⟨sampleRound_apart, fun _ _ _ _ => rfl, fun h => absurd rfl h⟩
    | cons r₁ l =>
        cases l with
        | nil =>
            cases hsplit
            exact ⟨sampleRound_apart, fun h => absurd h (by decide +kernel),
              fun _ => sampleRound_marked⟩
        | cons r₂ l =>
            cases l <;> cases hsplit

/-- Two runs end without a report, and the log of the first is overwritten. -/
theorem unreported_log_lost : ¬ ∀ u host vmName kernelVersion sectionName dir fs rs, Decimal u →
    sectionResultsDir host vmName kernelVersion sectionName = .ok dir →
    (∀ q, Text.below dir q = true → fs.read? q = none) →
    (∀ r ∈ rs, Round.On u host vmName kernelVersion sectionName dir r) →
      Lossless u host dir fs rs := by
  intro h
  let crashed (text : String) : Round := sampleRound [(sampleDir ++ ["check.log"], text)]
  have hon : ∀ r ∈ [crashed "one", crashed "two", crashed "three"],
      r.On asciiUnicode sampleHost "vm0" "6.12.0" "a" sampleDir := by
    have hcrashed : ∀ text, (crashed text).On asciiUnicode sampleHost "vm0" "6.12.0" "a" sampleDir :=
      fun text => sampleRound_on fun w hw => List.mem_singleton.mp hw ▸ GuestFile.log
    simp only [List.mem_cons, List.not_mem_nil, or_false]
    rintro r (rfl | rfl | rfl) <;> exact hcrashed _
  have hlossless := h asciiUnicode sampleHost "vm0" "6.12.0" "a" sampleDir ⟨[], []⟩ _
    decimal_ascii sampleDir_ok (fun _ _ => rfl) hon
  obtain ⟨q, -, hread⟩ := hlossless.kept [] (crashed "one") [crashed "two"] (crashed "three") [] rfl
    (sampleDir ++ ["check.log"]) "one" .log (by decide +kernel)
  have hnone : ((renderMain Disk.granting asciiUnicode sampleHost (crashed "three").args
      (play asciiUnicode sampleHost [crashed "one", crashed "two"] ⟨[], []⟩)).2.files.all
        fun w => decide (w.2 ≠ "one")) = true := by decide +kernel
  exact of_decide_eq_true (List.all_eq_true.mp hnone _ (Dict.mem_of_get? hread)) rfl

end KdevopsNg.Fstests
