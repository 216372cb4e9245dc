/-
# `Sys.Trees` — removing a tree, and sorted listings

`removeTree` is `shutil.rmtree` as it raises: it empties the directory or stops
with an exception, the directory above it stays.  What it leaves is told by two
functions of a path, the file there and whether a directory is there
(`read?_removeTree`, `isDir_removeTree`).

A sorted listing is told by its members (`glob_congr`), and those of the files or
the directories in a directory by what is at each path, so a body that only lists
and reads is told by the same two functions.
-/
import Mathlib.Data.String.Basic
import KdevopsNg.Sys.Files
import KdevopsNg.Py.Sort

namespace Sys

open Py

/-! ## Listings -/

namespace Files

theorem mem_glob {fs : Files} {dir : Path} {p : String → Bool} {name : String} :
    name ∈ fs.glob dir p ↔ name ∈ fs.entries dir ∧ p name = true := by
  rw [glob, List.mem_mergeSort, List.mem_filter]

theorem glob_nodup (fs : Files) (dir : Path) (p : String → Bool) : (fs.glob dir p).Nodup :=
  (List.mergeSort_perm _ _).nodup_iff.mpr ((List.nodup_dedup _).filter _)

theorem glob_sorted (fs : Files) (dir : Path) (p : String → Bool) :
    (fs.glob dir p).Pairwise (· ≤ ·) := by
  exact (List.pairwise_mergeSort (keyLe_trans id) (keyLe_total id) _).imp fun h => of_decide_eq_true h

/-- Listings with the same members are the same. -/
theorem glob_congr {fs fs' : Files} {dir dir' : Path} {p p' : String → Bool}
    (h : ∀ name, name ∈ fs.glob dir p ↔ name ∈ fs'.glob dir' p') :
    fs.glob dir p = fs'.glob dir' p' :=
  ((List.perm_ext_iff_of_nodup (glob_nodup fs dir p) (glob_nodup fs' dir' p')).mpr h).eq_of_pairwise
    (fun _ _ _ _ => le_antisymm) (glob_sorted fs dir p) (glob_sorted fs' dir' p')

/-- The directories in a directory. -/
theorem mem_glob_isDir {fs : Files} {dir : Path} {name : String} :
    name ∈ fs.glob dir (fun n => fs.isDir (dir ++ [n])) ↔ fs.isDir (dir ++ [name]) = true := by
  rw [mem_glob]
  refine ⟨And.right, fun h => ⟨mem_entries_of_exists ?_, h⟩⟩
  rw [exists?, h, Bool.or_true]

/-- The files in a directory, those of some names. -/
theorem mem_glob_isFile {fs : Files} {dir : Path} {p : String → Bool} {name : String} :
    name ∈ fs.glob dir (fun n => fs.isFile (dir ++ [n]) && p n) ↔
      fs.isFile (dir ++ [name]) = true ∧ p name = true := by
  rw [mem_glob, Bool.and_eq_true]
  exact ⟨And.right, fun h => ⟨mem_entries_of_read (isFile_iff.mp h.1), h⟩⟩

theorem below_iff_prefix {p q : Path} :
    Text.below p q = true ↔ p <+: q ∧ p.length < q.length := by
  rw [Text.below, Bool.and_eq_true, List.isPrefixOf_iff_prefix, decide_eq_true_eq]

theorem isDir_iff {fs : Files} {p : Path} : fs.isDir p = true ↔
    p ∈ fs.dirs ∨ ∃ q ∈ Dict.keys fs.files ++ fs.dirs, Text.below p q = true := by
  rw [isDir, Bool.or_eq_true, List.any_eq_true, List.any_eq_true]
  refine or_congr_left ⟨?_, fun h => ⟨p, h, decide_eq_true rfl⟩⟩
  rintro ⟨q, hq, heq⟩
  exact of_decide_eq_true heq ▸ hq

/-- No file is below what is not a directory. -/
theorem read?_below {fs : Files} {dir q : Path} (h : fs.isDir dir = false)
    (hq : Text.below dir q = true) : fs.read? q = none := by
  by_contra hread
  rw [isDir_of_below hread hq] at h
  cases h

end Files

/-! ## Removing a tree -/

section
variable (d : Disk)

/-- `shutil.rmtree(dir)`. -/
def removeTree (dir : Path) : Exec Files Unit := fun fs =>
  match d.refuses fs dir with
  | some e => (.error e, (rmtree d dir fs).2)
  | none => (.ok (), {
      files := fs.files.filter fun q => !Text.below dir q.1
      dirs := (fs.dirs.filter fun q => !dir.isPrefixOf q) ++ [dir.dropLast] })

end

section
variable {d : Disk} {dir : Path} {fs fs' : Files}

/-- What a removal that got through leaves. -/
theorem removeTree_ok (h : removeTree d dir fs = (.ok (), fs')) :
    fs' = { files := fs.files.filter fun q => !Text.below dir q.1
            dirs := (fs.dirs.filter fun q => !dir.isPrefixOf q) ++ [dir.dropLast] } := by
  rw [removeTree] at h
  cases hd : d.refuses fs dir with
  | some e =>
      rw [hd] at h
      cases h
  | none =>
      rw [hd] at h
      cases h
      rfl

theorem read?_removeTree (h : removeTree d dir fs = (.ok (), fs')) (q : Path) :
    fs'.read? q = if Text.below dir q then none else fs.read? q := by
  rw [removeTree_ok h, Files.read?]
  refine (Dict.get?_filter (fun x => !Text.below dir x) fs.files q).trans ?_
  cases Text.below dir q <;> rfl

/-- The directories outside the tree stay, the one above it among them. -/
theorem isDir_removeTree (h : removeTree d dir fs = (.ok (), fs')) (hne : dir ≠ [])
    (hdir : fs.isDir dir = true) {q : Path} (hq : ¬ dir <+: q) :
    fs'.isDir q = fs.isDir q := by
  have hlast : dir.dropLast.length < dir.length := by
    rw [List.length_dropLast]
    exact Nat.sub_lt (List.length_pos_iff.mpr hne) Nat.one_pos
  -- a directory above the one removed is a directory
  have habove : ∀ {p : Path}, p <+: dir → p.length < dir.length → fs.isDir p = true := by
    intro p hp hlt
    rw [Files.isDir_iff] at hdir ⊢
    rcases hdir with hmem | ⟨r, hr, hbelow⟩
    · exact .inr ⟨dir, List.mem_append_right _ hmem, Files.below_iff_prefix.mpr ⟨hp, hlt⟩⟩
    · rw [Files.below_iff_prefix] at hbelow
      exact .inr ⟨r, hr, Files.below_iff_prefix.mpr ⟨hp.trans hbelow.1, hlt.trans hbelow.2⟩⟩
  have hkeys : ∀ {r : Path}, r ∈ Dict.keys (fs.files.filter fun x => !Text.below dir x.1) ↔
      r ∈ Dict.keys fs.files ∧ Text.below dir r = false := by
    intro r
    simp only [Dict.keys, List.mem_map, List.mem_filter, Bool.not_eq_true']
    constructor
    · rintro ⟨x, ⟨hx, hout⟩, rfl⟩
      exact ⟨⟨x, hx, rfl⟩, hout⟩
    · rintro ⟨⟨x, hx, rfl⟩, hout⟩
      exact ⟨x, ⟨hx, hout⟩, rfl⟩
  have hdirs : ∀ {r : Path}, r ∈ (fs.dirs.filter fun x => !dir.isPrefixOf x) ++ [dir.dropLast] ↔
      (r ∈ fs.dirs ∧ ¬ dir <+: r) ∨ r = dir.dropLast := by
    intro r
    rw [List.mem_append, List.mem_filter, List.mem_singleton, Bool.not_eq_true',
      ← Bool.not_eq_true, List.isPrefixOf_iff_prefix]
  rw [Bool.eq_iff_iff]
  conv_lhs => rw [removeTree_ok h, Files.isDir_iff, hdirs]
  constructor
  · rintro ((⟨hmem, -⟩ | rfl) | ⟨r, hr, hbelow⟩)
    · exact Files.isDir_iff.mpr (.inl hmem)
    · exact habove (List.dropLast_prefix dir) hlast
    · rw [List.mem_append, hkeys, hdirs] at hr
      rcases hr with ⟨hr, -⟩ | ⟨hr, -⟩ | rfl
      · exact Files.isDir_iff.mpr (.inr ⟨r, List.mem_append_left _ hr, hbelow⟩)
      · exact Files.isDir_iff.mpr (.inr ⟨r, List.mem_append_right _ hr, hbelow⟩)
      · rw [Files.below_iff_prefix] at hbelow
        exact habove (hbelow.1.trans (List.dropLast_prefix dir)) (hbelow.2.trans hlast)
  · intro hbefore
    rcases Files.isDir_iff.mp hbefore with hmem | ⟨r, hr, hbelow⟩
    · exact .inl (.inl ⟨hmem, hq⟩)
    · rw [Files.below_iff_prefix] at hbelow
      by_cases hin : dir <+: r
      · -- below the directory removed: the one above it stands for it
        have hup : q <+: dir := (List.prefix_or_prefix_of_prefix hbelow.1 hin).resolve_right hq
        have hlt : q.length < dir.length := by
          refine lt_of_le_of_ne hup.length_le fun heq => hq ?_
          rw [hup.eq_of_length heq]
        have hupLast : q <+: dir.dropLast := by
          refine List.prefix_of_prefix_length_le hup (List.dropLast_prefix dir) ?_
          rw [List.length_dropLast]
          exact Nat.le_sub_one_of_lt hlt
        by_cases heq : q = dir.dropLast
        · exact .inl (.inr heq)
        · refine .inr ⟨dir.dropLast, List.mem_append_right _ (hdirs.mpr (.inr rfl)),
            Files.below_iff_prefix.mpr ⟨hupLast, ?_⟩⟩
          exact lt_of_le_of_ne hupLast.length_le fun hlen => heq (hupLast.eq_of_length hlen)
      · have hout : Text.below dir r = false := by
          rw [← Bool.not_eq_true, Files.below_iff_prefix]
          exact fun hr' => hin hr'.1
        refine .inr ⟨r, ?_, Files.below_iff_prefix.mpr hbelow⟩
        rcases List.mem_append.mp hr with hr | hr
        · exact List.mem_append_left _ (hkeys.mpr ⟨hr, hout⟩)
        · exact List.mem_append_right _ (hdirs.mpr (.inl ⟨hr, hin⟩))

end

end Sys
