/-
# `Suites.Share` — one directory for each VM

`share_dir` of `f/fstests/common.py`, `f/selftests/common.py` and
`f/usertests/common.py`, and `cache_dir` of `f/runtime_tests/common.py`: four
copies of one function (`Kernel.suiteShareDir`), each under its suite's root.
It accepts a name that leads anywhere below the root.

Two VMs are `Apart` when their directories are different, none in the other,
and both directly under the root.  That is so exactly when the names spell two
different children of the root (`shares_apart_iff`); two different plain names
do (`plain_apart`), a name and one with a further component do not
(`shares_nest`).
-/
import KdevopsNg.Kernel.Verdict
import KdevopsNg.Fstests.Config
import KdevopsNg.Py.Path

namespace KdevopsNg.Suites

open Py

/-- `share_dir` of `f/selftests/common.py`. -/
def selftestsShareDir (host : Kernel.Host) (vmName : String) : Except PyError Path :=
  Kernel.suiteShareDir host "selftests" vmName

/-- `share_dir` of `f/usertests/common.py`. -/
def usertestsShareDir (host : Kernel.Host) (vmName : String) : Except PyError Path :=
  Kernel.suiteShareDir host "usertests" vmName

/-- `cache_dir` of `f/runtime_tests/common.py`. -/
def runtimeTestsCacheDir (host : Kernel.Host) (vmName : String) : Except PyError Path :=
  Kernel.suiteShareDir host "runtime-tests" vmName

/-- The four, with their roots. -/
def shareDirs : List (String × (Kernel.Host → String → Except PyError Path)) :=
  [("fstests", Fstests.shareDir), ("selftests", selftestsShareDir),
    ("usertests", usertestsShareDir), ("runtime-tests", runtimeTestsCacheDir)]

/-- `$WORKERS_DIR/shared/<suite>`. -/
def shareRoot (host : Kernel.Host) (suite : String) : Path := host.workersDir ++ ["shared", suite]

/-- Different directories, none in the other, both directly under the root. -/
structure Apart (root p q : Path) : Prop where
  ne : p ≠ q
  first : ¬ p <+: q
  second : ¬ q <+: p
  child : ∃ x, p = root ++ [x]
  child' : ∃ y, q = root ++ [y]

/-- The name, its dots cancelled, is one component below the root: it goes up
some steps and comes down the root's own last names before it, or it spells the
root out. -/
def SpellsChild (root : Path) (name x : String) : Prop :=
  if Text.isAbsolute name then (Text.cancel (Text.components name)).2 = root ++ [x]
  else (Text.cancel (Text.components name)).2 =
    root.drop (root.length - (Text.cancel (Text.components name)).1) ++ [x]

/-- Spelling a child is leading to it. -/
theorem spellsChild_iff (root : Path) (name x : String) :
    SpellsChild root name x ↔ Text.resolve root name = root ++ [x] := by
  rw [SpellsChild, Text.resolve_eq]
  cases Text.isAbsolute name with
  | true => exact Iff.rfl
  | false =>
      generalize Text.cancel (Text.components name) = d
      simp only [Bool.false_eq_true, if_false]
      have hroot : root ++ [x] = root.take (root.length - d.1) ++
          (root.drop (root.length - d.1) ++ [x]) := by
        rw [← List.append_assoc, List.take_append_drop]
      rw [hroot, List.append_cancel_left_eq]

/-- What an accepted name leads to. -/
theorem suiteShareDir_ok {host : Kernel.Host} {suite vmName : String} {p : Path}
    (h : Kernel.suiteShareDir host suite vmName = .ok p) :
    p = Text.resolve (shareRoot host suite) vmName := by
  rw [Kernel.suiteShareDir] at h
  split at h
  · cases h
    rfl
  · cases h

theorem shareDirs_eq {suite : String} {dir : Kernel.Host → String → Except PyError Path}
    (h : (suite, dir) ∈ shareDirs) : dir = fun host => Kernel.suiteShareDir host suite := by
  simp only [shareDirs, List.mem_cons, Prod.mk.injEq, List.not_mem_nil, or_false] at h
  rcases h with ⟨rfl, rfl⟩ | ⟨rfl, rfl⟩ | ⟨rfl, rfl⟩ | ⟨rfl, rfl⟩ <;> rfl

/-- Two children of one directory are apart when they are two. -/
theorem apart_children {root : Path} {x y : String} :
    Apart root (root ++ [x]) (root ++ [y]) ↔ x ≠ y := by
  constructor
  · intro h heq
    exact h.ne (by rw [heq])
  · intro hne
    have hpre : ∀ {a b : String}, root ++ [a] <+: root ++ [b] → a = b := by
      intro a b hab
      have heq := hab.eq_of_length (by simp)
      simpa using heq
    exact ⟨fun h => hne (by simpa using h), fun h => hne (hpre h),
      fun h => hne (hpre h).symm, ⟨x, rfl⟩, ⟨y, rfl⟩⟩

/-- Two names a suite accepts give directories apart exactly when they spell
different children of its root. -/
theorem shares_apart_iff {suite : String} {dir : Kernel.Host → String → Except PyError Path}
    (hsuite : (suite, dir) ∈ shareDirs) (host : Kernel.Host) (v w : String) {p q : Path}
    (hv : dir host v = .ok p) (hw : dir host w = .ok q) :
    Apart (shareRoot host suite) p q ↔
      ∃ x y, x ≠ y ∧ SpellsChild (shareRoot host suite) v x ∧
        SpellsChild (shareRoot host suite) w y := by
  rw [shareDirs_eq hsuite] at hv hw
  rw [suiteShareDir_ok hv, suiteShareDir_ok hw]
  constructor
  · intro h
    obtain ⟨x, hx⟩ := h.child
    obtain ⟨y, hy⟩ := h.child'
    rw [hx, hy] at h
    exact ⟨x, y, apart_children.mp h, (spellsChild_iff _ _ _).mpr hx, (spellsChild_iff _ _ _).mpr hy⟩
  · rintro ⟨x, y, hne, hx, hy⟩
    rw [(spellsChild_iff _ _ _).mp hx, (spellsChild_iff _ _ _).mp hy]
    exact apart_children.mpr hne

theorem shares_apart_iff_two :
    Apart ["workers", "shared", "selftests"] ["workers", "shared", "selftests", "vm0"]
        ["workers", "shared", "selftests", "vm1"] ↔
      ∃ x y, x ≠ y ∧ SpellsChild ["workers", "shared", "selftests"] "vm0" x ∧
        SpellsChild ["workers", "shared", "selftests"] "./vm1/" y := by
  have hsuite : ("selftests", selftestsShareDir) ∈ shareDirs := by simp [shareDirs]
  exact shares_apart_iff hsuite ⟨["system"], ["workers"]⟩ "vm0" "./vm1/" (by decide +kernel)
    (by decide +kernel)

/-- Two accepted names, and one directory in the other. -/
theorem shares_nest : ¬ ∀ suite dir, (suite, dir) ∈ shareDirs → ∀ (host : Kernel.Host) v w p q,
    v ≠ w → dir host v = .ok p → dir host w = .ok q → Apart (shareRoot host suite) p q := by
  intro h
  have hsuite : ("selftests", selftestsShareDir) ∈ shareDirs := by simp [shareDirs]
  have hapart := h _ _ hsuite ⟨["system"], ["workers"]⟩ "vm0" "vm0/results"
    ["workers", "shared", "selftests", "vm0"] ["workers", "shared", "selftests", "vm0", "results"]
    (by decide) (by decide +kernel) (by decide +kernel)
  exact hapart.first (List.prefix_append _ ["results"])

/-- Every suite accepts a plain name, and two of them are apart. -/
theorem plain_apart {suite : String} {dir : Kernel.Host → String → Except PyError Path}
    (hsuite : (suite, dir) ∈ shareDirs) (host : Kernel.Host) {v w : String} (hv : Text.Plain v)
    (hw : Text.Plain w) (hne : v ≠ w) :
    ∃ p q, dir host v = .ok p ∧ dir host w = .ok q ∧ Apart (shareRoot host suite) p q := by
  have hok : ∀ {name : String}, Text.Plain name →
      dir host name = .ok (shareRoot host suite ++ [name]) := by
    intro name hname
    have hbelow : Text.below (shareRoot host suite) (shareRoot host suite ++ [name]) = true :=
      (Text.below_iff _ _).mpr ⟨name, [], rfl⟩
    rw [shareDirs_eq hsuite]
    show Kernel.suiteShareDir host suite name = _
    rw [Kernel.suiteShareDir]
    show (if Text.below (shareRoot host suite) (Text.resolve (shareRoot host suite) name) = true
      then _ else _) = _
    rw [Text.resolve_plain _ hname, if_pos hbelow]
    exact congrArg Except.ok (Text.resolve_plain _ hname)
  exact ⟨_, _, hok hv, hok hw, apart_children.mpr hne⟩

end KdevopsNg.Suites
