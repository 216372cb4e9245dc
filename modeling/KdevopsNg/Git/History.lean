/-
# `Git.History` — commits and what they reach

A commit names its parents for good, so the history is one fixed graph, and a
rank that falls along every parent edge is what says it has no cycle.  Reaching
a commit (`Reaches`) is decided by walking the parents as deep as the rank
allows (`ancestors`); nothing here depends on what a commit is.
-/
import Mathlib.Logic.Relation
import Mathlib.Data.List.Basic

namespace Git

/-- A commit graph: the parents of each commit, and a rank that falls towards
them. -/
structure History (κ : Type) where
  parents : κ → List κ
  rank : κ → ℕ
  rank_lt : ∀ c p, p ∈ parents c → rank p < rank c

namespace History

variable {κ : Type} (H : History κ)

/-- `x` is `c` or an ancestor of it. -/
def Reaches (c x : κ) : Prop := Relation.ReflTransGen (fun a b => b ∈ H.parents a) c x

/-- The commits at most `n` parent edges from `c`. -/
def ancestors : ℕ → κ → List κ
  | 0, c => [c]
  | n + 1, c => c :: (H.parents c).flatMap (ancestors n)

variable {H}

theorem Reaches.refl (c : κ) : H.Reaches c c := Relation.ReflTransGen.refl

theorem Reaches.trans {a b c : κ} (h₁ : H.Reaches a b) (h₂ : H.Reaches b c) : H.Reaches a c :=
  Relation.ReflTransGen.trans h₁ h₂

theorem self_mem_ancestors (n : ℕ) (c : κ) : c ∈ H.ancestors n c := by
  cases n with
  | zero => exact List.mem_singleton_self c
  | succ n => exact List.mem_cons_self

theorem reaches_of_mem_ancestors {n : ℕ} {c x : κ} (h : x ∈ H.ancestors n c) :
    H.Reaches c x := by
  induction n generalizing c with
  | zero =>
      rw [List.mem_singleton.mp h]
      exact Reaches.refl c
  | succ n ih =>
      rcases List.mem_cons.mp h with rfl | h
      · exact Reaches.refl x
      · obtain ⟨p, hp, hx⟩ := List.mem_flatMap.mp h
        exact Relation.ReflTransGen.head hp (ih hx)

/-- Walking as deep as the rank meets every ancestor. -/
theorem mem_ancestors_of_reaches {c x : κ} (h : H.Reaches c x) :
    ∀ {n : ℕ}, H.rank c ≤ n → x ∈ H.ancestors n c := by
  induction h using Relation.ReflTransGen.head_induction_on with
  | refl =>
      intro n _
      exact self_mem_ancestors n x
  | @head c p hp _ ih =>
      intro n hn
      have hlt := H.rank_lt c p hp
      cases n with
      | zero => omega
      | succ n =>
          exact List.mem_cons_of_mem _ (List.mem_flatMap.mpr ⟨p, hp, ih (by omega)⟩)

theorem mem_ancestors_iff {c x : κ} : x ∈ H.ancestors (H.rank c) c ↔ H.Reaches c x :=
  ⟨reaches_of_mem_ancestors, fun h => mem_ancestors_of_reaches h (Nat.le_refl _)⟩

instance [DecidableEq κ] (c x : κ) : Decidable (H.Reaches c x) :=
  decidable_of_iff _ mem_ancestors_iff

end History

end Git
