/-
# `Common.RunLayers` — the run layers in the store index

`list_index`, `list_run_layers` and `latest_run_layer` of `f/common/store.py`.  An entry of
the index is told by its name; the run layers of a project are the live entries whose name
begins with the project and a dash, but not with the project and `-devel-`.  The latest of
them is the one whose link was made last (`latest_newest`).
-/
import Mathlib.Data.String.Basic
import Mathlib.Algebra.Order.Ring.Rat
import KdevopsNg.Py.Sort
import KdevopsNg.Py.Text

namespace KdevopsNg.Common

open Py

/-- An entry of the index directory: its name, whether it is a link, whether the path it
resolves to is there, and the time of the link. -/
structure IndexEntry where
  name : String
  isSymlink : Bool
  resolves : Bool
  mtime : ℚ

/-- The index directory; none when it is not there. -/
abbrev Index := Option (List IndexEntry)

/-- `s.startswith(prefix)`. -/
def startsWith (s start : String) : Bool := start.toList.isPrefixOf s.toList

/-- `list_index`. -/
def listIndex (start : String) (index : Index) : List String :=
  ((Py.sortBy IndexEntry.name (index.getD [])).filter fun e =>
    startsWith e.name start && e.isSymlink && e.resolves).map IndexEntry.name

/-- `list_run_layers`. -/
def listRunLayers (project : String) (index : Index) : List String :=
  (listIndex (project ++ "-") index).filter fun name => !startsWith name (project ++ "-devel-")

/-- `(d / name).lstat().st_mtime`, of a name that is listed. -/
def mtimeOf (index : Index) (name : String) : ℚ :=
  (((index.getD []).find? fun e => e.name = name).map IndexEntry.mtime).getD 0

/-- One round of the loop of `latest_run_layer`. -/
def latestRound (index : Index) (best : Option String × ℚ) (name : String) : Option String × ℚ :=
  if best.2 < mtimeOf index name then (some name, mtimeOf index name) else best

/-- `latest_run_layer`. -/
def latestRunLayer (project : String) (index : Index) : Option String :=
  ((listRunLayers project index).foldl (latestRound index) (none, -1)).1

section
variable {index : Index} {project : String}

theorem mem_listRunLayers {name : String} : name ∈ listRunLayers project index ↔
    startsWith name (project ++ "-devel-") = false ∧
      ∃ e ∈ index.getD [], e.name = name ∧ startsWith name (project ++ "-") = true ∧
        e.isSymlink = true ∧ e.resolves = true := by
  rw [listRunLayers, List.mem_filter, listIndex, List.mem_map, Bool.not_eq_true', and_comm]
  refine and_congr_right fun _ => ⟨?_, ?_⟩
  · rintro ⟨e, he, rfl⟩
    obtain ⟨hmem, hkept⟩ := List.mem_filter.mp he
    rw [Bool.and_eq_true, Bool.and_eq_true] at hkept
    exact ⟨e, Py.mem_sortBy.mp hmem, rfl, hkept.1.1, hkept.1.2, hkept.2⟩
  · rintro ⟨e, hmem, rfl, hstart, hlink, hthere⟩
    refine ⟨e, List.mem_filter.mpr ⟨Py.mem_sortBy.mpr hmem, ?_⟩, rfl⟩
    rw [hstart, hlink, hthere]
    rfl

/-- The loop ends with a name of the latest time, if any is later than the one it began with. -/
theorem foldl_latest (index : Index) (names : List String) (best : Option String × ℚ) :
    (∀ name ∈ names, mtimeOf index name ≤ (names.foldl (latestRound index) best).2) ∧
      best.2 ≤ (names.foldl (latestRound index) best).2 ∧
      (names.foldl (latestRound index) best = best ∨
        ∃ name ∈ names, names.foldl (latestRound index) best = (some name, mtimeOf index name) ∧
          best.2 < mtimeOf index name) := by
  induction names generalizing best with
  | nil => exact ⟨fun name h => absurd h List.not_mem_nil, le_refl _, .inl rfl⟩
  | cons n names ih =>
      rw [List.foldl_cons]
      obtain ⟨hall, hle, hend⟩ := ih (latestRound index best n)
      by_cases hlater : best.2 < mtimeOf index n
      · have hround : latestRound index best n = (some n, mtimeOf index n) := if_pos hlater
        rw [hround] at hall hle hend ⊢
        refine ⟨fun name h => ?_, hlater.le.trans hle, .inr ?_⟩
        · rcases List.mem_cons.mp h with rfl | h
          · exact hle
          · exact hall name h
        · rcases hend with hend | ⟨name, hmem, hend, hlt⟩
          · exact ⟨n, List.mem_cons_self, hend, hlater⟩
          · exact ⟨name, List.mem_cons_of_mem n hmem, hend, hlater.trans hlt⟩
      · have hround : latestRound index best n = best := if_neg hlater
        rw [hround] at hall hle hend ⊢
        refine ⟨fun name h => ?_, hle, ?_⟩
        · rcases List.mem_cons.mp h with rfl | h
          · exact (not_lt.mp hlater).trans hle
          · exact hall name h
        · rcases hend with hend | ⟨name, hmem, hend, hlt⟩
          · exact .inl hend
          · exact .inr ⟨name, List.mem_cons_of_mem n hmem, hend, hlt⟩

/-- The latest run layer is none of them when no link is later than the time the loop begins
with, and one of the latest time otherwise. -/
theorem latest_newest (index : Index) (project : String) :
    (latestRunLayer project index = none ∧
        ∀ name ∈ listRunLayers project index, mtimeOf index name ≤ -1) ∨
      ∃ name ∈ listRunLayers project index, latestRunLayer project index = some name ∧
        -1 < mtimeOf index name ∧
        ∀ name' ∈ listRunLayers project index, mtimeOf index name' ≤ mtimeOf index name := by
  obtain ⟨hall, -, hend⟩ := foldl_latest index (listRunLayers project index) (none, -1)
  rcases hend with hend | ⟨name, hmem, hend, hlt⟩
  · rw [hend] at hall
    exact .inl ⟨by rw [latestRunLayer, hend], hall⟩
  · rw [hend] at hall
    exact .inr ⟨name, hmem, by rw [latestRunLayer, hend], hlt, hall⟩

end

end KdevopsNg.Common
