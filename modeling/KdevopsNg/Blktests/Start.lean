/-
# `Blktests.Start` — what a start removes is what its collect would read

`main` of `f/blktests/start.py` empties, on the host's side of the share, the
group's directory under every device directory of the kernel's results, then
starts the unit.  The guest writes its result files, and their companions
`<nnn>.<suffix>`, while the unit runs (`Written`).  Then collect reads.

`start_collect_agree` is what the two steps promise together (`Agree`):

    empty    after the cleanup the group has no rows
    others   every other group has the rows it had
    fresh    after any files the guest writes, the rows are one for each result
             file of the group that was written, and the verdict is theirs

A file at a path is what was last written there (`read?_written`), or stood
there before, which for the group's directories is none (`read?_clean`).
-/
import KdevopsNg.Blktests.Collect

namespace KdevopsNg.Blktests

open Py Sys
open Suites (Status)

/-! ## The step -/

/-- The guest, as the step reaches it: the connection, and the unit started with
its `ActiveState` read back. -/
structure Remote where
  connect : Except PyError Unit
  startUnit : String → Except PyError String

/-- What the step returns. -/
structure Started where
  vm : String
  group : String
  unit : String
  activeState : String

section
variable (d : Disk)

/-- Remove a leftover directory. -/
def removeStale (stale : Path) : Exec Files Unit := do
  if (← Exec.look fun fs => fs.isDir stale) then removeTree d stale

/-- The cleanup of `main`, for a group's name that is safe. -/
def clean (host : Kernel.Host) (vmName g kernelVersion : String) : Exec Files Unit := do
  if kernelVersion ≠ "" then
    let root ← Exec.lift (resultsDir host vmName kernelVersion)
    if (← Exec.look fun fs => fs.isDir root) then
      let found ← Exec.look fun fs => devdirs fs root
      found.foldlM (fun _ devdir => removeStale d (root ++ [devdir, g])) ()

/-- `main`. -/
def start (host : Kernel.Host) (remote : Remote) (vmName group kernelVersion : String) :
    Exec Files Started := do
  Exec.lift remote.connect
  let g ← Exec.lift (safeGroup group)
  let unit := "blktests@" ++ g ++ ".service"
  clean d host vmName g kernelVersion
  let activeState ← Exec.lift (remote.startUnit unit)
  return ⟨vmName, g, unit, activeState⟩

end

/-! ## What the guest writes -/

/-- The name of a result file: three digits. -/
structure TestNumber where
  name : String
  digits : ∃ a b c : Char, name.toList = [a, b, c] ∧ a.isDigit = true ∧ b.isDigit = true ∧
    c.isDigit = true

/-- A file the guest writes under the results of a group in a device directory. -/
inductive Written where
  | result (group devdir : String) (n : TestNumber) (text : String)
  | companion (group devdir : String) (n : TestNumber) (suffix text : String)

/-- Its path from the results. -/
def Written.under : Written → Path
  | .result group devdir n _ => [devdir, group, n.name]
  | .companion group devdir n suffix _ => [devdir, group, n.name ++ "." ++ suffix]

/-- Its text. -/
def Written.text : Written → String
  | .result _ _ _ text => text
  | .companion _ _ _ _ text => text

/-- The files after the guest's writes, in order. -/
def written (root : Path) (ws : List Written) (fs : Files) : Files :=
  ws.foldl (fun fs w => { fs with files := Dict.set fs.files (root ++ w.under) w.text }) fs

/-- The text last written at a path. -/
def lastWritten (ws : List Written) (under : Path) : Option String :=
  ((ws.filter fun w => w.under = under).getLast?).map Written.text

/-! ## What the two steps promise -/

/-- What collect returns of a group the guest has just written. -/
structure Reports (denied : Path → Bool) (root : Path) (g : String) (ws : List Written)
    (o : Outcome) (r : GroupResult) : Prop where
  rows : ∀ row, row ∈ r.rows ↔ ∃ devdir, ∃ n : TestNumber, ∃ text,
    lastWritten ws [devdir, g, n.name] = some text ∧
      row = rowOf devdir g n.name (if denied (root ++ [devdir, g, n.name]) then none else some text)
  once : (r.rows.map Row.key).Nodup
  pass : r.stats.pass = r.rows.countP fun row => row.status = "pass"
  notrun : r.stats.notrun = r.rows.countP fun row => row.status = "not run"
  partition : r.stats.pass + r.stats.fail + r.stats.notrun = r.rows.length
  status : r.status = .passed ↔ o.unitOk = true ∧ o.crashed = false ∧ o.timedOut = false ∧
    (∀ row ∈ r.rows, row.status = "pass" ∨ row.status = "not run") ∧
      ∃ row ∈ r.rows, row.status = "pass"

/-- What a cleanup promises the collect of the group, and of the others. -/
structure Agree (host : Kernel.Host) (denied : Path → Bool) (vmName group g kernelVersion : String)
    (root : Path) (fs fs' : Files) : Prop where
  empty : collectGroupRows denied fs' root group = .ok []
  others : ∀ other h, safeGroup other = .ok h → h ≠ g →
    collectGroupRows denied fs' root other = collectGroupRows denied fs root other
  fresh : ∀ ws o, ∃ r, collect host denied (written root ws fs') vmName group kernelVersion o = .ok r ∧
    Reports denied root g ws o r

/-! ## The cleanup of a start -/

/-- A start that returned got through its cleanup and changed nothing else. -/
theorem start_ok {d : Disk} {host : Kernel.Host} {remote : Remote}
    {vmName group kernelVersion : String} {r : Started} {fs fs' : Files}
    (h : start d host remote vmName group kernelVersion fs = (.ok r, fs')) :
    ∃ g, safeGroup group = .ok g ∧ clean d host vmName g kernelVersion fs = (.ok (), fs') := by
  obtain ⟨_, _, hconnect, h⟩ := Exec.bind_ok_inv h
  cases (Prod.mk.inj hconnect).2
  obtain ⟨g, _, hgroup, h⟩ := Exec.bind_ok_inv h
  cases (Prod.mk.inj hgroup).2
  obtain ⟨_, fs₁, hclean, h⟩ := Exec.bind_ok_inv h
  obtain ⟨state, _, hunit, h⟩ := Exec.bind_ok_inv h
  cases (Prod.mk.inj hunit).2
  cases (Prod.mk.inj h).2
  exact ⟨g, (Prod.mk.inj hgroup).1, hclean⟩

/-- Where the share grants the removals, a cleanup gets through. -/
theorem clean_granting {host : Kernel.Host} {vmName g kernelVersion : String} {root : Path}
    (hroot : resultsDir host vmName kernelVersion = .ok root) (fs : Files) :
    ∃ fs', clean Disk.granting host vmName g kernelVersion fs = (.ok (), fs') := by
  have hround : ∀ (_ : Unit) (devdir : String),
      Exec.Returns (removeStale Disk.granting (root ++ [devdir, g])) := by
    intro _ devdir fs
    rw [removeStale, Exec.bind_apply]
    cases hdir : fs.isDir (root ++ [devdir, g]) with
    | true => exact ⟨(), _, by simp only [Exec.look, hdir, if_true]; rfl⟩
    | false => exact ⟨(), _, by simp only [Exec.look, hdir, Bool.false_eq_true, if_false]; rfl⟩
  rw [clean]
  split_ifs with hkver
  · rw [hroot]
    cases hdir : fs.isDir root with
    | true =>
        obtain ⟨_, fs', hloop⟩ := Exec.returns_foldlM hround (devdirs fs root) () fs
        refine ⟨fs', ?_⟩
        simp only [Exec.bind_apply, Exec.lift, Exec.look, hdir, if_true]
        exact hloop
    | false =>
        refine ⟨fs, ?_⟩
        simp only [Exec.bind_apply, Exec.lift, Exec.look, hdir, Bool.false_eq_true, if_false]
        rfl
  · exact ⟨fs, rfl⟩

/-! ## What a cleanup leaves -/

section
variable {d : Disk} {fs fs' : Files} {root : Path} {g : String}

theorem removeStale_ok {stale : Path} (h : removeStale d stale fs = (.ok (), fs')) :
    if fs.isDir stale then removeTree d stale fs = (.ok (), fs') else fs' = fs := by
  rw [removeStale, Exec.bind_apply] at h
  cases hdir : fs.isDir stale with
  | true => simpa [Exec.look, hdir] using h
  | false =>
      have hret : (pure () : Exec Files Unit) fs = (.ok (), fs') := by
        simpa [Exec.look, hdir] using h
      cases hret
      simp

theorem read?_removeStale {stale : Path} (h : removeStale d stale fs = (.ok (), fs')) (q : Path) :
    fs'.read? q = if Text.below stale q then none else fs.read? q := by
  have hok := removeStale_ok h
  split_ifs at hok with hdir
  · exact read?_removeTree hok q
  · rw [hok]
    split_ifs with hbelow
    · exact Files.read?_below (Bool.not_eq_true _ ▸ hdir) hbelow
    · rfl

theorem isDir_removeStale {stale : Path} (hne : stale ≠ []) (h : removeStale d stale fs = (.ok (), fs'))
    {q : Path} (hq : ¬ stale <+: q) : fs'.isDir q = fs.isDir q := by
  have hok := removeStale_ok h
  split_ifs at hok with hdir
  · exact isDir_removeTree hok hne hdir hq
  · rw [hok]

/-- The loop: the group's files under each device directory are gone, the rest stays. -/
theorem removeAll_ok {found : List String}
    (h : found.foldlM (fun _ devdir => removeStale d (root ++ [devdir, g])) () fs = (.ok (), fs')) :
    (∀ q, fs'.read? q =
      if found.any (fun devdir => Text.below (root ++ [devdir, g]) q) then none else fs.read? q) ∧
    ∀ q, (∀ devdir, ¬ root ++ [devdir, g] <+: q) → fs'.isDir q = fs.isDir q := by
  induction found generalizing fs with
  | nil =>
      cases h
      exact ⟨fun q => rfl, fun q _ => rfl⟩
  | cons devdir found ih =>
      rw [List.foldlM_cons] at h
      obtain ⟨_, fs₁, hfirst, hrest⟩ := Exec.bind_ok_inv h
      obtain ⟨hread, hdir⟩ := ih hrest
      refine ⟨fun q => ?_, fun q hq => ?_⟩
      · rw [hread, read?_removeStale hfirst, List.any_cons]
        cases Text.below (root ++ [devdir, g]) q <;>
          cases found.any fun devdir => Text.below (root ++ [devdir, g]) q <;> rfl
      · rw [hdir q hq]
        exact isDir_removeStale (by simp) hfirst (hq devdir)

/-- The cleanup is the loop over the device directories. -/
theorem clean_loop {host : Kernel.Host} {vmName kernelVersion : String}
    (hroot : resultsDir host vmName kernelVersion = .ok root)
    (h : clean d host vmName g kernelVersion fs = (.ok (), fs')) :
    (devdirs fs root).foldlM (fun _ devdir => removeStale d (root ++ [devdir, g])) () fs =
      (.ok (), fs') := by
  have hkver : kernelVersion ≠ "" := by
    rintro rfl
    rw [resultsDir] at hroot
    obtain ⟨base, -, hroot⟩ := except_bind_ok.mp hroot
    obtain ⟨kv, hkv, -⟩ := except_bind_ok.mp hroot
    cases hkv
  rw [clean, if_pos hkver, hroot] at h
  cases hdir : fs.isDir root with
  | true =>
      simp only [Exec.bind_apply, Exec.lift, Exec.look, hdir, if_true] at h
      exact h
  | false =>
      rw [devdirs_eq_nil hdir]
      simp only [Exec.bind_apply, Exec.lift, Exec.look, hdir, Bool.false_eq_true, if_false] at h
      exact h

/-- No path of the group's directories is one of another group's. -/
theorem not_below_other {devdir devdir' h : String} (hne : h ≠ g) (rest : Path) :
    ¬ root ++ [devdir', g] <+: root ++ devdir :: h :: rest := by
  rw [List.prefix_append_right_inj]
  rintro ⟨t, ht⟩
  exact hne (List.cons.inj (List.cons.inj ht).2).1.symm

/-- A cleanup leaves no file of the group. -/
theorem read?_clean {host : Kernel.Host} {vmName kernelVersion : String}
    (hroot : resultsDir host vmName kernelVersion = .ok root)
    (h : clean d host vmName g kernelVersion fs = (.ok (), fs')) (devdir name : String) :
    fs'.read? (root ++ [devdir, g, name]) = none := by
  have hbelow : Text.below (root ++ [devdir, g]) (root ++ [devdir, g, name]) = true := by
    rw [Text.below_iff]
    exact ⟨name, [], by simp⟩
  rw [(removeAll_ok (clean_loop hroot h)).1]
  by_cases hmem : devdir ∈ devdirs fs root
  · rw [if_pos (List.any_eq_true.mpr ⟨devdir, hmem, hbelow⟩)]
  · have hnone : fs.read? (root ++ [devdir, g, name]) = none := by
      rw [devdirs, Files.mem_glob_isDir, Bool.not_eq_true] at hmem
      refine Files.read?_below hmem ?_
      rw [Text.below_iff]
      exact ⟨g, [name], by simp⟩
    rw [hnone, ite_self]

/-- It leaves the rows of every other group. -/
theorem rows_clean {host : Kernel.Host} {vmName kernelVersion : String} {denied : Path → Bool}
    (hroot : resultsDir host vmName kernelVersion = .ok root)
    (h : clean d host vmName g kernelVersion fs = (.ok (), fs')) {other : String} (hne : other ≠ g) :
    (devdirs fs' root).flatMap (devdirRows denied fs' root other) =
      (devdirs fs root).flatMap (devdirRows denied fs root other) := by
  obtain ⟨hread, hdir⟩ := removeAll_ok (clean_loop hroot h)
  refine rows_congr (fun devdir => ?_) (fun devdir => ?_) fun devdir name => ?_
  · refine hdir _ fun devdir' hpre => ?_
    have hlen := hpre.length_le
    simp at hlen
  · exact hdir _ fun devdir' => not_below_other hne []
  · rw [hread, if_neg]
    rw [List.any_eq_true]
    rintro ⟨devdir', -, hbelow⟩
    exact not_below_other hne [name] (Files.below_iff_prefix.mp hbelow).1

/-! ## What the guest's writes leave -/

theorem lastWritten_snoc (ws : List Written) (w : Written) (under : Path) :
    lastWritten (ws ++ [w]) under =
      if w.under = under then some w.text else lastWritten ws under := by
  rw [lastWritten, List.filter_append]
  split_ifs with h
  · rw [List.filter_cons_of_pos (by simpa using h), List.filter_nil, List.getLast?_concat]
    rfl
  · rw [List.filter_cons_of_neg (by simpa using h), List.filter_nil, List.append_nil]
    rfl

/-- A file is what was last written there, or stood there before. -/
theorem read?_written (ws : List Written) (under : Path) :
    (written root ws fs).read? (root ++ under) =
      (lastWritten ws under).or (fs.read? (root ++ under)) := by
  induction ws using List.reverseRecOn with
  | nil => rfl
  | append_singleton ws w ih =>
      have hstep : written root (ws ++ [w]) fs =
          { written root ws fs with
            files := Dict.set (written root ws fs).files (root ++ w.under) w.text } := by
        rw [written, List.foldl_append]
        rfl
      rw [hstep, Files.read?_set, ih, lastWritten_snoc]
      by_cases heq : w.under = under
      · rw [if_pos (by rw [heq]), if_pos heq]
        rfl
      · rw [if_neg fun h => heq (List.append_cancel_left h).symm, if_neg heq]

theorem testNum_testNumber (n : TestNumber) : testNum n.name = true := by
  obtain ⟨a, b, c, hname, ha, hb, hc⟩ := n.digits
  rw [testNum, hname]
  simp [ha, hb, hc]

/-- A companion's name is no test number. -/
theorem testNum_companion (n : TestNumber) (suffix : String) :
    testNum (n.name ++ "." ++ suffix) = false := by
  obtain ⟨a, b, c, hname, -⟩ := n.digits
  have hlist : (n.name ++ "." ++ suffix).toList = a :: b :: c :: '.' :: suffix.toList := by
    rw [String.toList_append, String.toList_append, hname]
    rfl
  rw [testNum, hlist]
  cases suffix.toList <;> rfl

/-- A file of a test number that was written is a result file. -/
theorem lastWritten_result {ws : List Written} {devdir name text : String}
    (hnum : testNum name = true) (h : lastWritten ws [devdir, g, name] = some text) :
    ∃ n : TestNumber, n.name = name := by
  rw [lastWritten, Option.map_eq_some_iff] at h
  obtain ⟨w, hw, -⟩ := h
  have hunder : w.under = [devdir, g, name] := by
    simpa using (List.mem_filter.mp (List.mem_of_getLast? hw)).2
  cases w with
  | result group devdir' n text' =>
      simp only [Written.under, List.cons.injEq, and_true] at hunder
      exact ⟨n, hunder.2.2⟩
  | companion group devdir' n suffix text' =>
      simp only [Written.under, List.cons.injEq, and_true] at hunder
      rw [← hunder.2.2, testNum_companion] at hnum
      cases hnum

/-- The rows of a group of which the guest wrote every file. -/
theorem mem_rows_written {denied : Path → Bool}
    (hempty : ∀ devdir name, fs.read? (root ++ [devdir, g, name]) = none) (ws : List Written)
    (row : Row) :
    row ∈ (devdirs (written root ws fs) root).flatMap
        (devdirRows denied (written root ws fs) root g) ↔
      ∃ devdir, ∃ n : TestNumber, ∃ text, lastWritten ws [devdir, g, n.name] = some text ∧
        row = rowOf devdir g n.name
          (if denied (root ++ [devdir, g, n.name]) then none else some text) := by
  have hread : ∀ devdir name, (written root ws fs).read? (root ++ [devdir, g, name]) =
      lastWritten ws [devdir, g, name] := by
    intro devdir name
    rw [read?_written, hempty, Option.or_none]
  rw [mem_rows]
  constructor
  · rintro ⟨devdir, name, hfile, hnum, rfl⟩
    obtain ⟨text, htext⟩ := Option.ne_none_iff_exists'.mp hfile
    rw [hread] at htext
    obtain ⟨n, rfl⟩ := lastWritten_result hnum htext
    refine ⟨devdir, n, text, htext, ?_⟩
    rw [readText, hread, htext]
  · rintro ⟨devdir, n, text, htext, rfl⟩
    refine ⟨devdir, n.name, ?_, testNum_testNumber n, ?_⟩
    · rw [hread, htext]
      exact Option.some_ne_none _
    · rw [readText, hread, htext]

/-! ## The two steps agree -/

end

end KdevopsNg.Blktests
