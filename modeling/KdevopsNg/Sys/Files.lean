/-
# `Sys.Files` — files under their paths, and bodies that change them

`Files` is what a body over the file system reads and changes: the content of
each file, and the directories that are there besides the ones that hold a
file.  No path is a symbolic link.  What the operating system does is a
parameter (`Disk`): it may refuse a write, a rename or a removal, with any
exception, and leave a file when a tree is removed with errors ignored.

A frame is a relation between the content of one path before and after,
`Pointwise r`: a body is `Within` it when each command is, and a command changes
only the paths it names (`within_write`, `within_unlink`, `within_rename`,
`within_rmtree`).
-/
import Mathlib.Data.List.Dedup
import Mathlib.Data.List.Sort
import KdevopsNg.Py.Dict
import KdevopsNg.Py.Exec
import KdevopsNg.Py.Path

namespace Sys

open Py

/-- The files with their content, and directories. -/
structure Files where
  files : Map Path String
  dirs : List Path
  deriving DecidableEq, Repr

/-- The operating system: what it refuses at a path, and what a removal of a tree
with `ignore_errors` leaves. -/
structure Disk where
  refuses : Files → Path → Option PyError
  stuck : Files → Path → Bool

/-- A disk that grants everything. -/
def Disk.granting : Disk := ⟨fun _ _ => none, fun _ _ => false⟩

namespace Files

/-- The content of a file. -/
def read? (fs : Files) (p : Path) : Option String := Dict.get? fs.files p

/-- `path.is_file()`. -/
def isFile (fs : Files) (p : Path) : Bool := (fs.read? p).isSome

/-- `path.is_dir()`. -/
def isDir (fs : Files) (p : Path) : Bool :=
  fs.dirs.any (fun q => decide (q = p)) || (Dict.keys fs.files ++ fs.dirs).any (Text.below p)

/-- `path.exists()`. -/
def exists? (fs : Files) (p : Path) : Bool := fs.isFile p || fs.isDir p

/-- The names in a directory. -/
def entries (fs : Files) (dir : Path) : List String :=
  ((Dict.keys fs.files ++ fs.dirs).filterMap fun q =>
    if dir.isPrefixOf q then q[dir.length]? else none).dedup

/-- `sorted(dir.glob(pattern))`, the pattern given by what it matches. -/
def glob (fs : Files) (dir : Path) (pattern : String → Bool) : List String :=
  ((fs.entries dir).filter pattern).mergeSort (fun a b => decide (a ≤ b))

/-! ## What a directory holds -/

theorem isFile_iff {fs : Files} {p : Path} : fs.isFile p = true ↔ fs.read? p ≠ none :=
  Option.isSome_iff_ne_none

theorem mem_of_read {fs : Files} {p : Path} (h : fs.read? p ≠ none) : p ∈ Dict.keys fs.files := by
  obtain ⟨text, htext⟩ := Option.ne_none_iff_exists'.mp h
  exact List.mem_map_of_mem (Dict.mem_of_get? htext)

/-- The names in a directory are those of the files and directories in it or
further down. -/
theorem mem_entries {fs : Files} {dir : Path} {name : String} : name ∈ fs.entries dir ↔
    ∃ rest, dir ++ name :: rest ∈ Dict.keys fs.files ++ fs.dirs := by
  rw [entries, List.mem_dedup, List.mem_filterMap]
  constructor
  · rintro ⟨q, hq, hname⟩
    split at hname
    · next hunder =>
        obtain ⟨after, rfl⟩ := List.isPrefixOf_iff_prefix.mp hunder
        rw [List.getElem?_append_right (Nat.le_refl _), Nat.sub_self] at hname
        cases after with
        | nil => cases hname
        | cons x xs =>
            cases hname
            exact ⟨xs, hq⟩
    · cases hname
  · rintro ⟨rest, hq⟩
    refine ⟨_, hq, ?_⟩
    rw [if_pos (List.isPrefixOf_iff_prefix.mpr (List.prefix_append _ _)),
      List.getElem?_append_right (Nat.le_refl _), Nat.sub_self]
    rfl

theorem mem_entries_of_read {fs : Files} {dir : Path} {name : String}
    (h : fs.read? (dir ++ [name]) ≠ none) : name ∈ fs.entries dir :=
  mem_entries.mpr ⟨[], List.mem_append_left _ (mem_of_read h)⟩

/-- What is there is one of the names. -/
theorem mem_entries_of_exists {fs : Files} {dir : Path} {name : String}
    (h : fs.exists? (dir ++ [name]) = true) : name ∈ fs.entries dir := by
  rw [exists?, Bool.or_eq_true, isDir, Bool.or_eq_true] at h
  rcases h with h | h | h
  · exact mem_entries_of_read (isFile_iff.mp h)
  · obtain ⟨q, hq, heq⟩ := List.any_eq_true.mp h
    rw [of_decide_eq_true heq] at hq
    exact mem_entries.mpr ⟨[], List.mem_append_right _ hq⟩
  · obtain ⟨q, hq, hbelow⟩ := List.any_eq_true.mp h
    obtain ⟨x, xs, rfl⟩ := (Text.below_iff _ _).mp hbelow
    rw [List.append_assoc] at hq
    exact mem_entries.mpr ⟨x :: xs, hq⟩

theorem isDir_of_below {fs : Files} {dir q : Path} (h : fs.read? q ≠ none)
    (hq : Text.below dir q = true) : fs.isDir dir = true := by
  rw [isDir, Bool.or_eq_true]
  exact .inr (List.any_eq_true.mpr ⟨q, List.mem_append_left _ (mem_of_read h), hq⟩)

end Files

/-! ## Commands -/

section
variable (d : Disk)

/-- `path.mkdir(parents=True, exist_ok=True)`. -/
def mkdir (dir : Path) : Exec Files Unit := fun fs =>
  match fs.isDir dir, d.refuses fs dir with
  | true, _ => (.ok (), fs)
  | false, some e => (.error e, fs)
  | false, none => (.ok (), { fs with dirs := fs.dirs ++ [dir] })

/-- Put a text at a path, over a file that is there. -/
def put (p : Path) (text : String) : Exec Files Unit := fun fs =>
  match d.refuses fs p with
  | some e => (.error e, fs)
  | none => (.ok (), { fs with files := Dict.set fs.files p text })

/-- Write a file, its directory made first. -/
def write (p : Path) (text : String) : Exec Files Unit := do
  mkdir d p.dropLast
  put d p text

/-- `path.unlink()`. -/
def unlink (p : Path) : Exec Files Unit := fun fs =>
  match d.refuses fs p with
  | some e => (.error e, fs)
  | none => (.ok (), { fs with files := Dict.erase fs.files p })

/-- `path.rename(target)`: a file that is there is replaced. -/
def rename (p target : Path) : Exec Files Unit := fun fs =>
  match fs.read? p, d.refuses fs target with
  | none, _ => (.error (.fileNotFoundError (Text.join "/" p)), fs)
  | some _, some e => (.error e, fs)
  | some text, none => (.ok (), { fs with files := Dict.set (Dict.erase fs.files p) target text })

/-- `shutil.rmtree(dir, ignore_errors=True)`. -/
def rmtree (dir : Path) : Exec Files Unit := fun fs =>
  (.ok (), {
    files := fs.files.filter fun q => !Text.below dir q.1 || d.stuck fs q.1
    dirs := fs.dirs.filter fun q => !dir.isPrefixOf q || d.stuck fs q })

end

/-! ## What a command leaves of a path -/

section
variable {d : Disk}

theorem read?_mkdir (dir q : Path) (fs : Files) : (mkdir d dir fs).2.read? q = fs.read? q := by
  rw [mkdir]
  cases fs.isDir dir with
  | true => rfl
  | false => cases d.refuses fs dir <;> rfl

theorem Files.read?_set (fs : Files) (p q : Path) (text : String) :
    Files.read? { fs with files := Dict.set fs.files p text } q =
      if q = p then some text else fs.read? q := Dict.get?_set fs.files p q text

theorem Files.read?_erase (fs : Files) (p q : Path) :
    Files.read? { fs with files := Dict.erase fs.files p } q =
      if q = p then none else fs.read? q := by
  show Dict.get? (Dict.erase fs.files p) q = _
  by_cases h : q = p
  · subst h
    rw [if_pos rfl, Dict.get?_erase_self]
  · rw [if_neg h, Dict.get?_erase_ne _ h]
    rfl

theorem Files.read?_rename (fs : Files) (p target q : Path) (text : String) :
    Files.read? { fs with files := Dict.set (Dict.erase fs.files p) target text } q =
      if q = target then some text else if q = p then none else fs.read? q := by
  have hset := Files.read?_set { fs with files := Dict.erase fs.files p } target q text
  rw [hset, Files.read?_erase]

theorem read?_rmtree (dir q : Path) (fs : Files) :
    (rmtree d dir fs).2.read? q =
      if !Text.below dir q || d.stuck fs q then fs.read? q else none :=
  Dict.get?_filter (fun x => !Text.below dir x || d.stuck fs x) fs.files q

/-! ## Commands that returned -/

theorem put_ok {p : Path} {text : String} {fs fs' : Files}
    (h : put d p text fs = (.ok (), fs')) (q : Path) :
    fs'.read? q = if q = p then some text else fs.read? q := by
  rw [put] at h
  cases hd : d.refuses fs p with
  | some e =>
      rw [hd] at h
      cases h
  | none =>
      rw [hd] at h
      cases h
      exact Files.read?_set fs p q text

theorem write_ok {p : Path} {text : String} {fs fs' : Files}
    (h : write d p text fs = (.ok (), fs')) (q : Path) :
    fs'.read? q = if q = p then some text else fs.read? q := by
  obtain ⟨_, fs₁, hmk, hput⟩ := Exec.bind_ok_inv h
  have hread := read?_mkdir (d := d) p.dropLast q fs
  rw [hmk] at hread
  rw [put_ok hput, hread]

theorem unlink_ok {p : Path} {fs fs' : Files} (h : unlink d p fs = (.ok (), fs')) (q : Path) :
    fs'.read? q = if q = p then none else fs.read? q := by
  rw [unlink] at h
  cases hd : d.refuses fs p with
  | some e =>
      rw [hd] at h
      cases h
  | none =>
      rw [hd] at h
      cases h
      exact Files.read?_erase fs p q

theorem write_granting (p : Path) (text : String) (fs : Files) :
    ∃ fs', write Disk.granting p text fs = (.ok (), fs') := by
  rw [write, Exec.bind_apply, mkdir]
  cases fs.isDir p.dropLast with
  | true => exact ⟨_, rfl⟩
  | false => exact ⟨_, rfl⟩

/-! ## Frames -/

/-- Each path's content before and after is `r`-related. -/
def Pointwise (r : Path → Option String → Option String → Prop) (fs fs' : Files) : Prop :=
  ∀ p, r p (fs.read? p) (fs'.read? p)

variable {r : Path → Option String → Option String → Prop}

instance [∀ p, Std.Refl (r p)] : Std.Refl (Pointwise r) := ⟨fun _ p => Std.Refl.refl (r := r p) _⟩

instance [∀ p, IsTrans _ (r p)] : IsTrans Files (Pointwise r) :=
  ⟨fun _ _ _ h h' p => IsTrans.trans (r := r p) _ _ _ (h p) (h' p)⟩

variable [∀ p, Std.Refl (r p)]

theorem within_mkdir (dir : Path) : Exec.Within (Pointwise r) (mkdir d dir) := by
  intro fs q
  rw [read?_mkdir]
  exact Std.Refl.refl (r := r q) _

theorem within_put {p : Path} {text : String} (h : ∀ x, r p x (some text)) :
    Exec.Within (Pointwise r) (put d p text) := by
  intro fs q
  rw [put]
  cases d.refuses fs p with
  | some e => exact Std.Refl.refl (r := r q) _
  | none =>
      show r q _ (Files.read? { fs with files := Dict.set fs.files p text } q)
      rw [Files.read?_set]
      split
      · next hq => exact hq ▸ h _
      · exact Std.Refl.refl (r := r q) _

theorem within_unlink {p : Path} (h : ∀ x, r p x none) :
    Exec.Within (Pointwise r) (unlink d p) := by
  intro fs q
  rw [unlink]
  cases d.refuses fs p with
  | some e => exact Std.Refl.refl (r := r q) _
  | none =>
      show r q _ (Files.read? { fs with files := Dict.erase fs.files p } q)
      rw [Files.read?_erase]
      split
      · next hq => exact hq ▸ h _
      · exact Std.Refl.refl (r := r q) _

theorem within_rename {p target : Path} (hp : ∀ x, r p x none)
    (htarget : ∀ x text, r target x (some text)) :
    Exec.Within (Pointwise r) (rename d p target) := by
  intro fs q
  rw [rename]
  cases fs.read? p with
  | none => exact Std.Refl.refl (r := r q) _
  | some text =>
      cases d.refuses fs target with
      | some e => exact Std.Refl.refl (r := r q) _
      | none =>
          show r q _ (Files.read?
            { fs with files := Dict.set (Dict.erase fs.files p) target text } q)
          rw [Files.read?_rename]
          split
          · next hq => exact hq ▸ htarget _ _
          · split
            · next hq => exact hq ▸ hp _
            · exact Std.Refl.refl (r := r q) _

theorem within_rmtree {dir : Path} (h : ∀ q x, Text.below dir q = true → r q x none) :
    Exec.Within (Pointwise r) (rmtree d dir) := by
  intro fs q
  rw [read?_rmtree]
  cases hq : !Text.below dir q || d.stuck fs q with
  | true => exact Std.Refl.refl (r := r q) _
  | false =>
      rw [Bool.or_eq_false_iff, Bool.not_eq_false'] at hq
      exact h q _ hq.1

variable [∀ p, IsTrans _ (r p)]

theorem within_write {p : Path} {text : String} (h : ∀ x, r p x (some text)) :
    Exec.Within (Pointwise r) (write d p text) :=
  Exec.within_bind (within_mkdir _) fun _ => within_put h

end

end Sys
