/-
# `Git.Tree` — trees of files, and what moving between two of them touches

A commit's files, an index and a working tree are each a map from path to
content.  Git moves a working tree from one commit to another by rewriting only
the paths on which the two differ (`differ`), and refuses when one of those
holds something that is in neither (`Safe`).  So what it does not touch stays:
`overlay` is the rewriting, and `get?_overlay` says what it leaves.
-/
import KdevopsNg.Py.Dict

namespace Git

open Py

/-- Files by path. -/
abbrev Tree := Dict String

namespace Tree

/-- The paths on which two trees differ. -/
def differ (a b : Tree) : List String :=
  (Dict.keys a ++ Dict.keys b).filter fun p => Dict.get? a p ≠ Dict.get? b p

/-- `old` with the paths `ps` as `new` has them. -/
def overlay (old new : Tree) (ps : List String) : Tree :=
  (old.filter fun e => decide (e.1 ∉ ps)) ++ new.filter fun e => decide (e.1 ∈ ps)

/-- The files of a tree at the paths that satisfy `P`. -/
def restrict (t : Tree) (P : String → Bool) : Tree := t.filter fun e => P e.1

theorem mem_differ {a b : Tree} {p : String} :
    p ∈ differ a b ↔ Dict.get? a p ≠ Dict.get? b p := by
  rw [differ, List.mem_filter, decide_eq_true_eq, List.mem_append,
    ← Dict.contains_iff_mem_keys, ← Dict.contains_iff_mem_keys]
  constructor
  · intro h
    exact h.2
  · intro h
    refine ⟨?_, h⟩
    cases ha : Dict.get? a p with
    | some v => exact .inl (by rw [Dict.contains, ha]; rfl)
    | none =>
        cases hb : Dict.get? b p with
        | some v => exact .inr (by rw [Dict.contains, hb]; rfl)
        | none => exact absurd (ha.trans hb.symm) h

theorem get?_overlay (old new : Tree) (ps : List String) (p : String) :
    Dict.get? (overlay old new ps) p =
      if p ∈ ps then Dict.get? new p else Dict.get? old p := by
  have hold := Dict.get?_filter (fun q => decide (q ∉ ps)) old p
  have hnew := Dict.get?_filter (fun q => decide (q ∈ ps)) new p
  rw [overlay, Dict.get?_append, hold, hnew]
  by_cases h : p ∈ ps
  · simp [h]
  · simp [h]

theorem get?_restrict (t : Tree) (P : String → Bool) (p : String) :
    Dict.get? (restrict t P) p = if P p then Dict.get? t p else none :=
  Dict.get?_filter P t p

end Tree

end Git
