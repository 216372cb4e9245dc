/-
# `Kernel.Fragments` — the order config fragments are merged in

`main` of `f/kernel/configure_fragments.py`, up to the command line of
`merge_config.sh`.  The fragments picked are sorted by `_sort_key`, so that the
merge does not depend on the order they were picked in:

    builtin     the `builtin/` overrides last
    category    by rank, the categories without one at 50
    core-sub    within core, the structural fragments first
    name        the last component of the path

Two fragments of one category, or of two categories without a rank, that end in the
same name have the same key: `SamePlace`.  Those stay in the order they were picked
in, and that is the only way the order shows (`canonical_iff`).
-/
import Mathlib.Data.String.Basic
import KdevopsNg.Py.Dict
import KdevopsNg.Py.Exec
import KdevopsNg.Py.Sort
import KdevopsNg.Py.Text

namespace KdevopsNg.Kernel

open Py

/-! ## The key -/

/-- `_CATEGORY_RANK`. -/
def categoryRank : Dict ℕ :=
  [("core", 0), ("arch", 1), ("mem", 2), ("security", 3), ("storage", 4), ("fs", 5), ("net", 6),
    ("virt", 7), ("debug", 8), ("test", 9), ("rust", 10), ("perf", 11)]

/-- `_CORE_SUB_RANK`. -/
def coreSubRank : Dict ℕ :=
  [("64bit.config", 0), ("modules.config", 1), ("core.config", 2), ("systemd.config", 3),
    ("initrd.config", 4), ("localversion.config", 80), ("localversion-noauto.config", 81)]

/-- `frag.startswith("builtin/")`. -/
def isBuiltin (frag : String) : Bool := "builtin/".toList.isPrefixOf frag.toList

/-- A fragment's path in its half of the library. -/
def fragRel (frag : String) : List Char :=
  if isBuiltin frag then frag.toList.drop "builtin/".length else frag.toList

/-- Its first component. -/
def category (frag : String) : String := String.ofList ((fragRel frag).takeWhile (· ≠ '/'))

/-- Its last component. -/
def fragName (frag : String) : String := String.ofList (Text.afterLast '/' (fragRel frag))

/-- `cat_rank`. -/
def catRank (frag : String) : ℕ := (Dict.get? categoryRank (category frag)).getD 50

/-- `sub_rank`. -/
def subRank (frag : String) : ℕ :=
  if category frag = "core" then (Dict.get? coreSubRank (fragName frag)).getD 50 else 50

/-- `_sort_key`: tuples are compared by their first difference. -/
def sortKey (frag : String) : ℕ ×ₗ ℕ ×ₗ ℕ ×ₗ String :=
  toLex (if isBuiltin frag then 1 else 0,
    toLex (catRank frag, toLex (subRank frag, fragName frag)))

/-! ## The merge -/

/-- The entries in the order they are merged in. -/
def ordered (fragments : List String) : List String := sortBy sortKey fragments

/-- The entries handed to `merge_config.sh`, which the library must have. -/
def mergeOrder (isFile : String → Bool) (fragments : List String) :
    Except PyError (List String) :=
  if fragments = [] then .error (.valueError "select at least one fragment")
  else (ordered fragments).mapM fun frag =>
    if isFile frag then .ok frag
    else .error (.fileNotFoundError ("fragment not found: " ++ frag))

/-- One order of merging for every order of picking, and the overrides last. -/
structure Canonical (fragments : List String) : Prop where
  one : ∀ picked, picked.Perm fragments → ordered picked = ordered fragments
  builtinLast : (ordered fragments).Pairwise fun a b => isBuiltin a = true → isBuiltin b = true

/-- No rank for its category. -/
def unranked (frag : String) : Prop := Dict.get? categoryRank (category frag) = none

/-- One half, one category or two without a rank, and one name. -/
structure SamePlace (a b : String) : Prop where
  half : isBuiltin a = isBuiltin b
  category : category a = category b ∨ unranked a ∧ unranked b
  name : fragName a = fragName b

/-! ## Equal keys -/

/-- No two categories share a rank, and none has 50. -/
theorem categoryRank_inj : ∀ p ∈ categoryRank, p.2 ≠ 50 ∧
    ∀ q ∈ categoryRank, p.2 = q.2 → p.1 = q.1 := by
  decide

theorem catRank_of_ranked {frag : String} {n : ℕ}
    (h : Dict.get? categoryRank (category frag) = some n) :
    catRank frag = n ∧ (category frag, n) ∈ categoryRank := by
  rw [catRank, h]
  exact ⟨rfl, Dict.mem_of_get? h⟩

theorem catRank_eq_iff (a b : String) :
    catRank a = catRank b ↔ category a = category b ∨ unranked a ∧ unranked b := by
  constructor
  · intro h
    cases ha : Dict.get? categoryRank (category a) with
    | none =>
        cases hb : Dict.get? categoryRank (category b) with
        | none => exact .inr ⟨ha, hb⟩
        | some n =>
            obtain ⟨hrank, hmem⟩ := catRank_of_ranked hb
            rw [hrank, catRank, ha] at h
            exact absurd h.symm (categoryRank_inj _ hmem).1
    | some m =>
        obtain ⟨hrank, hmem⟩ := catRank_of_ranked ha
        rw [hrank] at h
        cases hb : Dict.get? categoryRank (category b) with
        | none =>
            rw [catRank, hb] at h
            exact absurd h (categoryRank_inj _ hmem).1
        | some n =>
            obtain ⟨hrank', hmem'⟩ := catRank_of_ranked hb
            exact .inl ((categoryRank_inj _ hmem).2 _ hmem' (h.trans hrank'))
  · rintro (h | ⟨ha, hb⟩)
    · rw [catRank, h, catRank]
    · rw [catRank, ha, catRank, hb]

/-- The core rank is told by the category and the name. -/
theorem subRank_eq {a b : String} (hcat : catRank a = catRank b) (hname : fragName a = fragName b) :
    subRank a = subRank b := by
  rcases (catRank_eq_iff a b).mp hcat with h | ⟨ha, hb⟩
  · rw [subRank, subRank, h, hname]
  · have hnot : ∀ {frag}, unranked frag → category frag ≠ "core" := by
      intro frag hfrag hcore
      rw [unranked, hcore] at hfrag
      exact absurd hfrag (by decide)
    rw [subRank, subRank, if_neg (hnot ha), if_neg (hnot hb)]

theorem sortKey_eq_iff (a b : String) : sortKey a = sortKey b ↔ SamePlace a b := by
  have hhalf : ((if isBuiltin a then 1 else 0 : ℕ) = if isBuiltin b then 1 else 0) ↔
      isBuiltin a = isBuiltin b := by
    cases isBuiltin a <;> cases isBuiltin b <;> decide
  have hkey : sortKey a = sortKey b ↔ isBuiltin a = isBuiltin b ∧ catRank a = catRank b ∧
      subRank a = subRank b ∧ fragName a = fragName b := by
    rw [sortKey, sortKey, toLex_inj, Prod.mk.injEq, toLex_inj, Prod.mk.injEq, toLex_inj,
      Prod.mk.injEq, hhalf]
  rw [hkey]
  constructor
  · rintro ⟨hb, hc, -, hn⟩
    exact ⟨hb, (catRank_eq_iff a b).mp hc, hn⟩
  · intro h
    have hc := (catRank_eq_iff a b).mpr h.category
    exact ⟨h.half, hc, subRank_eq hc h.name, h.name⟩

/-! ## The order -/

theorem isBuiltin_of_le {a b : String} (h : sortKey a ≤ sortKey b) (ha : isBuiltin a = true) :
    isBuiltin b = true := by
  rw [sortKey, sortKey, Prod.Lex.toLex_le_toLex, ha] at h
  cases hb : isBuiltin b with
  | true => rfl
  | false =>
      rw [hb] at h
      rcases h with h | ⟨h, -⟩
      · exact absurd h (Nat.not_lt_zero 1)
      · exact absurd h Nat.one_ne_zero

/-- The overrides are merged last, whatever is picked. -/
theorem ordered_builtinLast (fragments : List String) :
    (ordered fragments).Pairwise fun a b => isBuiltin a = true → isBuiltin b = true :=
  (sortBy_sorted sortKey fragments).imp isBuiltin_of_le

/-- The order of picking is lost exactly when no two fragments share a place. -/
theorem canonical_iff {fragments : List String} (hdistinct : fragments.Nodup) :
    Canonical fragments ↔ fragments.Pairwise fun a b => ¬ SamePlace a b := by
  have hperm := sortBy_perm_iff sortKey hdistinct
  simp only [ne_eq, sortKey_eq_iff] at hperm
  rw [← hperm]
  exact ⟨fun h => h.one, fun h => ⟨h, ordered_builtinLast fragments⟩⟩

theorem canonical_three : Canonical ["fs/xfs.config", "builtin/fs/xfs.config", "core/64bit.config"] :=
  (canonical_iff (by decide)).mpr (by
    have hhalf : ∀ a b : String, isBuiltin a ≠ isBuiltin b → ¬ SamePlace a b :=
      fun a b hne h => hne h.half
    have hname : ∀ a b : String, fragName a ≠ fragName b → ¬ SamePlace a b :=
      fun a b hne h => hne h.name
    refine .cons ?_ (.cons ?_ (.cons ?_ .nil))
    · intro b hb
      simp only [List.mem_cons, List.not_mem_nil, or_false] at hb
      rcases hb with rfl | rfl
      · exact hhalf _ _ (by decide +kernel)
      · exact hname _ _ (by decide +kernel)
    · intro b hb
      simp only [List.mem_cons, List.not_mem_nil, or_false] at hb
      rcases hb with rfl
      exact hhalf _ _ (by decide +kernel)
    · exact fun b hb => absurd hb List.not_mem_nil)

/-- Two architectures with a fragment of one name. -/
theorem ordered_keeps_picks : ¬ ∀ fragments : List String, fragments.Nodup → Canonical fragments := by
  intro h
  have hone := (h ["arch/x86/base.config", "arch/arm64/base.config"] (by decide)).one
    ["arch/arm64/base.config", "arch/x86/base.config"] (List.Perm.swap _ _ _)
  have hsorted : ∀ a b : String, sortKey a ≤ sortKey b → ordered [a, b] = [a, b] := by
    intro a b hab
    exact List.mergeSort_of_pairwise (by simpa using hab)
  have hkey : sortKey "arch/x86/base.config" = sortKey "arch/arm64/base.config" := by decide +kernel
  rw [hsorted _ _ hkey.le, hsorted _ _ hkey.ge] at hone
  exact absurd hone (by decide)

/-! ## What is handed over -/

/-- An accepted pick is merged whole, in the one order. -/
theorem mergeOrder_ok {isFile : String → Bool} {fragments merged : List String}
    (h : mergeOrder isFile fragments = .ok merged) : merged = ordered fragments := by
  rw [mergeOrder] at h
  split at h
  · cases h
  · have hall := except_mapM_ok h
    have heq : List.Forall₂ (fun frag m : String => frag = m) (ordered fragments) merged := by
      refine hall.imp fun frag m hm => ?_
      split at hm
      · cases hm
        rfl
      · cases hm
    exact (List.forall₂_eq_eq_eq ▸ heq).symm

end KdevopsNg.Kernel
