/-
# `Kernel.ToolchainRoots` — the garbage-collection roots of a Rust index

`_root_toolchain` and `_toolchain_paths` of `f/kernel/fetch_devel.py`.  A generated
`rust-project.json` names files below store paths; each of those paths is rooted by
a link in the toolchain-roots directory, named for the path without its hash.

`nix build <path> --out-link <link>` makes the link point at the path.  The links are
made in the order of the paths, so of two paths without a difference but the hash
the later one has the link (`Survives`), and the earlier is rooted only where an
older link still names it (`rooted_iff`).
-/
import Mathlib.Data.String.Basic
import KdevopsNg.Kernel.Verdict
import KdevopsNg.Py.Path
import KdevopsNg.Py.Sort

namespace KdevopsNg.Kernel

open Py

/-! ## The paths an index names -/

/-- What `_toolchain_paths` reads of `rust-project.json`; an absent or null field is none. -/
structure RustIndex where
  sysroot : Option String
  rootModules : List (Option String)

/-- The store path a path lies in: its first three components, below `/nix/store`. -/
def storeRoot (path : String) : Option String :=
  match Text.split '/' path.toList with
  | root :: nix :: store :: entry :: _ =>
      if root = [] ∧ nix = "nix".toList ∧ store = "store".toList ∧ entry ≠ [] then
        some ("/nix/store/" ++ String.ofList entry)
      else none
  | _ => none

/-- `_toolchain_paths`. -/
def toolchainPaths (index : RustIndex) : List String :=
  sortBy id ((index.sysroot :: index.rootModules).filterMap fun path =>
    storeRoot (path.getD "")).eraseDups

/-! ## The links -/

/-- `Path(sp).name.split("-", 1)[-1]`: the name without the hash. -/
def linkName (path : String) : String :=
  let name := (Text.components path).getLast?.getD ""
  if '-' ∈ name.toList then String.ofList (name.toList.dropWhile (· ≠ '-')).tail else name

/-- `toolchain_roots_dir`. -/
def toolchainRootsDir (host : Host) : Path := host.systemDir ++ ["toolchain-roots"]

/-- The link made for a path. -/
def rootLink (roots : Path) (path : String) : Path := Text.resolve roots (linkName path)

/-- `_root_toolchain`: the links there are, by their place, and what each points at. -/
def rootToolchain (roots : Path) (index : RustIndex) (links : Map Path String) : Map Path String :=
  (toolchainPaths index).foldl (fun links path => Dict.set links (rootLink roots path) path) links

/-- Some link in the directory points at a path. -/
def Rooted (roots : Path) (links : Map Path String) (path : String) : Prop :=
  ∃ name, Dict.get? links (roots ++ [name]) = some path

/-- The last of those that share its link, or the target of an older link that none
of them takes. -/
def Survives (roots : Path) (links : Map Path String) (paths : List String) (path : String) :
    Prop :=
  ∃ name,
    (rootLink roots path = roots ++ [name] ∧
      ∀ other ∈ paths, rootLink roots other = roots ++ [name] → other ≤ path) ∨
    (Dict.get? links (roots ++ [name]) = some path ∧
      ∀ other ∈ paths, rootLink roots other ≠ roots ++ [name])

/-! ## The last link of a name -/

/-- The last element that satisfies `p`, in a rising list. -/
theorem find?_reverse_iff {p : String → Bool} {xs : List String}
    (h : xs.Pairwise fun a b => a ≤ b) (hnodup : xs.Nodup) (x : String) :
    xs.reverse.find? p = some x ↔ x ∈ xs ∧ p x = true ∧ ∀ y ∈ xs, p y = true → y ≤ x := by
  induction xs using List.reverseRecOn with
  | nil => simp
  | append_singleton xs y ih =>
      rw [List.pairwise_append] at h
      rw [List.nodup_append] at hnodup
      have hlast : ∀ z ∈ xs, z ≤ y := fun z hz => h.2.2 z hz y List.mem_cons_self
      rw [List.reverse_append, List.reverse_singleton, List.singleton_append, List.find?_cons]
      cases hy : p y with
      | true =>
          rw [Option.some_inj]
          constructor
          · rintro rfl
            refine ⟨by simp, hy, fun z hz _ => ?_⟩
            rcases List.mem_append.mp hz with hz | hz
            · exact hlast z hz
            · exact (List.mem_singleton.mp hz).le
          · rintro ⟨hx, -, hmax⟩
            have hyx : y ≤ x := hmax y (by simp) hy
            rcases List.mem_append.mp hx with hx | hx
            · exact absurd (le_antisymm (hlast x hx) hyx) (hnodup.2.2 x hx y List.mem_cons_self)
            · exact (List.mem_singleton.mp hx).symm
      | false =>
          rw [ih h.1 hnodup.1]
          have hmem : ∀ z, p z = true → (z ∈ xs ++ [y] ↔ z ∈ xs) := by
            intro z hz
            rw [List.mem_append, List.mem_singleton, or_iff_left]
            rintro rfl
            rw [hy] at hz
            cases hz
          constructor
          · rintro ⟨hx, hpx, hmax⟩
            exact ⟨(hmem x hpx).mpr hx, hpx, fun z hz hpz => hmax z ((hmem z hpz).mp hz) hpz⟩
          · rintro ⟨hx, hpx, hmax⟩
            exact ⟨(hmem x hpx).mp hx, hpx, fun z hz hpz => hmax z ((hmem z hpz).mpr hz) hpz⟩

theorem toolchainPaths_nodup (index : RustIndex) : (toolchainPaths index).Nodup :=
  (sortBy_perm (κ := String) id _).nodup_iff.mpr (nodup_eraseDups _)

theorem toolchainPaths_sorted (index : RustIndex) :
    (toolchainPaths index).Pairwise fun a b => a ≤ b :=
  sortBy_sorted (κ := String) id _

/-- What a link points at afterwards. -/
theorem get?_rootToolchain (roots : Path) (index : RustIndex) (links : Map Path String)
    (link : Path) (path : String) :
    Dict.get? (rootToolchain roots index links) link = some path ↔
      (path ∈ toolchainPaths index ∧ rootLink roots path = link ∧
        ∀ other ∈ toolchainPaths index, rootLink roots other = link → other ≤ path) ∨
      (Dict.get? links link = some path ∧
        ∀ other ∈ toolchainPaths index, rootLink roots other ≠ link) := by
  have hlast := find?_reverse_iff (p := fun e => rootLink roots e = link)
    (toolchainPaths_sorted index) (toolchainPaths_nodup index)
  simp only [decide_eq_true_eq] at hlast
  rw [rootToolchain, Dict.get?_foldl_set]
  cases hfind : (toolchainPaths index).reverse.find? fun e => rootLink roots e = link with
  | some last =>
      obtain ⟨hmem, hlink, hmax⟩ := (hlast last).mp hfind
      rw [Option.map_some, Option.some_or, Option.some_inj]
      constructor
      · rintro rfl
        exact .inl ⟨hmem, hlink, hmax⟩
      · rintro (h | ⟨-, hno⟩)
        · rw [(hlast path).mpr h] at hfind
          cases hfind
          rfl
        · exact absurd hlink (hno last hmem)
  | none =>
      have hno : ∀ other ∈ toolchainPaths index, rootLink roots other ≠ link := by
        intro other hother hlink
        exact List.find?_eq_none.mp hfind other (List.mem_reverse.mpr hother) (decide_eq_true hlink)
      rw [Option.map_none, Option.none_or]
      constructor
      · exact fun h => .inr ⟨h, hno⟩
      · rintro (⟨hmem, hlink, -⟩ | ⟨h, -⟩)
        · exact absurd hlink (hno path hmem)
        · exact h

/-- Every path an index names is rooted exactly when each one survives the links made
after its own. -/
theorem rooted_iff (host : Host) (index : RustIndex) (links : Map Path String) :
    (∀ path ∈ toolchainPaths index, Rooted (toolchainRootsDir host)
        (rootToolchain (toolchainRootsDir host) index links) path) ↔
      ∀ path ∈ toolchainPaths index,
        Survives (toolchainRootsDir host) links (toolchainPaths index) path := by
  refine forall₂_congr fun path hmem => ?_
  rw [Rooted, Survives]
  refine exists_congr fun name => ?_
  rw [get?_rootToolchain]
  exact or_congr (and_iff_right hmem) Iff.rfl

/-- Two store paths without a difference but the hash. -/
theorem rooted_twin : ¬ ∀ (host : Host) (index : RustIndex) (links : Map Path String),
    ∀ path ∈ toolchainPaths index, Rooted (toolchainRootsDir host)
      (rootToolchain (toolchainRootsDir host) index links) path := by
  intro h
  have hmem : ∀ path ∈ ["/nix/store/a-rust", "/nix/store/b-rust"], path ∈ toolchainPaths
      ⟨some "/nix/store/a-rust", [some "/nix/store/b-rust/core/lib.rs"]⟩ := by
    intro path hpath
    rw [toolchainPaths, mem_sortBy]
    revert path
    exact List.forall_iff_forall_mem.mp (by decide +kernel)
  obtain ⟨name, hname⟩ := h ⟨["system"], ["workers"]⟩
    ⟨some "/nix/store/a-rust", [some "/nix/store/b-rust/core/lib.rs"]⟩ []
    "/nix/store/a-rust" (hmem _ (by decide))
  rcases (get?_rootToolchain _ _ _ _ _).mp hname with ⟨-, hlink, hlast⟩ | ⟨hnone, -⟩
  · have hsame : rootLink ["system", "toolchain-roots"] "/nix/store/b-rust" =
        rootLink ["system", "toolchain-roots"] "/nix/store/a-rust" := by decide +kernel
    exact absurd (hlast "/nix/store/b-rust" (hmem _ (by decide)) (hsame.trans hlink))
      (by decide +kernel)
  · cases hnone

end KdevopsNg.Kernel
