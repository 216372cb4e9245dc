/-
# `Fstests.Rotate` — a prior run's results set aside

A run truncates the `result.xml` and `check.log` of its section and overwrites
the artefacts of the tests it runs.  Before it, `_rotate_results` and
`_rotate_failure_artifacts` of `f/fstests/render_config.py` rename what is
there, under one free index:

    result.xml, check.log         result.0001.xml, check.0001.log
    every <base>.* of a test      <base>.0001.*
    that failed
    every <base>.core.*           <base>.0001.core.*

A name that already carries an index (`rotatedRest`) is left in place.  The
patterns are written out as scans; a `$` also matches before a final newline.
-/
import Mathlib.Data.List.Perm.Subperm
import Mathlib.Data.Nat.Digits.Lemmas
import KdevopsNg.Fstests.Config
import KdevopsNg.Sys.Files

namespace KdevopsNg.Fstests

open Py Sys

/-! ## Names -/

/-- `f"{n:04d}"`. -/
def pad4 (n : ℕ) : List Char :=
  List.replicate (4 - (Nat.toDigits 10 n).length) '0' ++ Nat.toDigits 10 n

/-- `f"{base}.{n:04d}.{rest}"`. -/
def rotatedName (base : List Char) (n : ℕ) (rest : List Char) : String :=
  String.ofList (base ++ '.' :: pad4 n ++ '.' :: rest)

/-- `$` at a point of a name. -/
def atEnd (cs : List Char) : Bool := cs = [] ∨ cs = ['\n']

/-- `core\..+$` at the head of a suffix. -/
def coreRest (rest : List Char) : Bool :=
  "core.".toList.isPrefixOf rest && (rest.drop 5).takeWhile (· ≠ '\n') ≠ [] &&
    atEnd ((rest.drop 5).dropWhile (· ≠ '\n'))

/-- One of some words, and the end. -/
def wordRest (words : List String) (rest : List Char) : Bool :=
  words.any fun w => w.toList.isPrefixOf rest && atEnd (rest.drop w.length)

/-- `_FAILURE_RE`. -/
def failureRest (rest : List Char) : Bool :=
  wordRest ["out.bad", "dmesg", "hints"] rest || coreRest rest

/-- `_ROTATED_RE`. -/
def rotatedRest (u : Unicode) (rest : List Char) : Bool :=
  let after := rest.dropWhile fun c => (u.digit? c).isSome
  Text.leadingDigits u rest ≠ [] && after.head? = some '.' &&
    (wordRest ["out.bad", "dmesg", "hints", "full", "fsxgood", "fsxlog"] after.tail ||
      coreRest after.tail)

/-- The base and the suffix of a name that has a dot and carries no index. -/
def current (u : Unicode) (name : String) : Option (List Char × List Char) :=
  let rest := (name.toList.dropWhile (· ≠ '.')).tail
  if '.' ∈ name.toList ∧ rotatedRest u rest = false then
    some (name.toList.takeWhile (· ≠ '.'), rest)
  else none

/-! ## The run-wide files -/

/-- The first index whose `result.<index>.xml` is free.  More entries than the
directory has are tried, so one of them is. -/
def freeIndex (fs : Files) (dir : Path) : ℕ :=
  ((List.range' 1 ((fs.entries dir).length + 1)).find? fun n =>
    !fs.exists? (dir ++ [rotatedName "result".toList n "xml".toList])).getD 1

/-- Rename a file of the directory that is there. -/
def keepFile (d : Disk) (dir : Path) (n : ℕ) (stem ext : String) : Exec Files Unit := do
  let fs ← Exec.get
  let file := dir ++ [stem ++ "." ++ ext]
  if fs.isFile file then rename d file (dir ++ [rotatedName stem.toList n ext.toList])
  else return ()

/-- `_rotate_results`. -/
def rotateResults (d : Disk) (dir : Path) : Exec Files (Option ℕ) := do
  let fs ← Exec.get
  if fs.isFile (dir ++ ["result.xml"]) then
    let n := freeIndex fs dir
    keepFile d dir n "result" "xml"
    keepFile d dir n "check" "log"
    return some n
  else return none

/-! ## The artefacts of the tests -/

/-- The current files of a directory, by base. -/
def groupBases (u : Unicode) (names : List String) : Map (List Char) (List (String × List Char)) :=
  names.foldl (fun bases name => match current u name with
    | some (base, rest) =>
        Dict.set bases base ((Dict.get? bases base).getD [] ++ [(name, rest)])
    | none => bases) []

/-- The bases that failed. -/
def failingBases (u : Unicode) (names : List String) : List (List Char) :=
  names.filterMap fun name => match current u name with
    | some (base, rest) => if failureRest rest then some base else none
    | none => none

/-- The renames of a directory, each a name and what it becomes. -/
def moves (u : Unicode) (n : ℕ) (names : List String) : List (String × String) :=
  (groupBases u names).flatMap fun b =>
    (b.2.filter fun item =>
      (failingBases u names).any (fun base => decide (base = b.1)) || "core.".toList.isPrefixOf item.2).map fun item =>
        (item.1, rotatedName b.1 n item.2)

/-- The files of a directory. -/
def fileNames (fs : Files) (dir : Path) : List String :=
  (fs.entries dir).filter fun name => fs.isFile (dir ++ [name])

/-- One group directory. -/
def rotateGroup (d : Disk) (u : Unicode) (n : ℕ) (dir : Path) (count : ℕ) : Exec Files ℕ := do
  let fs ← Exec.get
  (moves u n (fileNames fs dir)).foldlM (fun count move => do
    rename d (dir ++ [move.1]) (dir ++ [move.2])
    return count + 1) count

/-- The directories in a directory, in order. -/
def groupDirs (fs : Files) (dir : Path) : List Path :=
  ((((fs.entries dir).filter fun name => fs.isDir (dir ++ [name])).mergeSort
    fun a b => decide (a ≤ b))).map fun name => dir ++ [name]

/-- `_rotate_failure_artifacts`. -/
def rotateFailureArtifacts (d : Disk) (u : Unicode) (dir : Path) (n : ℕ) : Exec Files ℕ := do
  let fs ← Exec.get
  if fs.isDir dir then
    (groupDirs fs dir).foldlM (fun count group => rotateGroup d u n group count) 0
  else return 0

/-! ## What a rotation touches -/

section Within

variable {d : Disk} {u : Unicode} {r : Path → Option String → Option String → Prop}
  [∀ p, Std.Refl (r p)] [∀ p, IsTrans _ (r p)]

theorem within_keepFile {dir : Path} (h : ∀ name x y, r (dir ++ [name]) x y) (n : ℕ)
    (stem ext : String) : Exec.Within (Pointwise r) (keepFile d dir n stem ext) := by
  refine Exec.within_bind Exec.within_get fun fs => ?_
  show Exec.Within _ (if fs.isFile (dir ++ [stem ++ "." ++ ext]) = true then _ else _)
  refine Exec.within_ite (fun _ => ?_) fun _ => Exec.within_pure ()
  exact within_rename (fun x => h _ x none) fun x text => h _ x (some text)

theorem within_rotateResults {dir : Path} (h : ∀ name x y, r (dir ++ [name]) x y) :
    Exec.Within (Pointwise r) (rotateResults d dir) := by
  refine Exec.within_bind Exec.within_get fun fs => ?_
  refine Exec.within_ite (fun _ => ?_) fun _ => Exec.within_pure none
  exact Exec.within_bind (within_keepFile h _ _ _) fun _ =>
    Exec.within_bind (within_keepFile h _ _ _) fun _ => Exec.within_pure _

theorem within_rotateGroup {dir : Path} (h : ∀ name x y, r (dir ++ [name]) x y) (n count : ℕ) :
    Exec.Within (Pointwise r) (rotateGroup d u n dir count) := by
  refine Exec.within_bind Exec.within_get fun fs => ?_
  refine Exec.within_foldlM (fun count move _ => ?_) count
  exact Exec.within_bind (within_rename (fun x => h _ x none) fun x text => h _ x (some text))
    fun _ => Exec.within_pure _

theorem within_rotateFailureArtifacts {dir : Path}
    (h : ∀ group name x y, r (dir ++ [group] ++ [name]) x y) (n : ℕ) :
    Exec.Within (Pointwise r) (rotateFailureArtifacts d u dir n) := by
  refine Exec.within_bind Exec.within_get fun fs => ?_
  refine Exec.within_ite (fun _ => ?_) fun _ => Exec.within_pure 0
  refine Exec.within_foldlM (fun count group hgroup => ?_) 0
  obtain ⟨name, -, rfl⟩ := List.mem_map.mp hgroup
  exact within_rotateGroup (h name) n count

end Within

end KdevopsNg.Fstests
