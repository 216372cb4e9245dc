/-
# `Sys.Shelf` — contents that change their place and are not lost

A store maps places to contents.  A move takes a content to a place that is
free, along a relation that says which places it may take (`Move way`).  However
many moves are made, a content is at the end of some way from where it was
(`moves_kept`), and nothing is there that was not there before
(`moves_origin`).

The files below a directory are such a store (`contents`), and a rename to a
name that is free is a move, or nothing where the disk refuses it
(`rename_moves`).
-/
import Mathlib.Logic.Function.Basic
import Mathlib.Logic.Relation
import KdevopsNg.Sys.Files

namespace Sys

open Py

/-! ## Moves -/

section Moves

variable {κ β : Type} [DecidableEq κ] {way : κ → κ → Prop} {g g' : κ → Option β}

/-- One content goes to a free place. -/
def Move (way : κ → κ → Prop) (g g' : κ → Option β) : Prop :=
  ∃ q q', way q q' ∧ g q ≠ none ∧ g q' = none ∧
    g' = Function.update (Function.update g q none) q' (g q)

/-- Any number of moves. -/
abbrev Moves (way : κ → κ → Prop) : (κ → Option β) → (κ → Option β) → Prop :=
  Relation.ReflTransGen (Move way)

theorem move_mono {way' : κ → κ → Prop} (hsub : ∀ q q', way q q' → way' q q') (h : Move way g g') :
    Move way' g g' := by
  obtain ⟨q, q', hto, hrest⟩ := h
  exact ⟨q, q', hsub q q' hto, hrest⟩

theorem moves_mono {way' : κ → κ → Prop} (hsub : ∀ q q', way q q' → way' q q') (h : Moves way g g') :
    Moves way' g g' := Relation.ReflTransGen.mono (fun _ _ hmove => move_mono hsub hmove) _ _ h

/-- What each move keeps, all of them keep. -/
theorem moves_keep {P : (κ → Option β) → Prop} (hmove : ∀ g g', Move way g g' → P g → P g')
    (h : Moves way g g') (hg : P g) : P g' := by
  induction h with
  | refl => exact hg
  | tail _ hstep ih => exact hmove _ _ hstep ih

/-- A content stays, or goes the way of the move. -/
theorem move_kept (h : Move way g g') {q : κ} {text : β} (hq : g q = some text) :
    ∃ q', Relation.ReflGen way q q' ∧ g' q' = some text := by
  obtain ⟨p, p', hto, hp, hfree, rfl⟩ := h
  by_cases hqp : q = p
  · subst hqp
    exact ⟨p', .single hto, by rw [Function.update_self, hq]⟩
  · have hqp' : q ≠ p' := by
      rintro rfl
      rw [hfree] at hq
      cases hq
    exact ⟨q, .refl, by rw [Function.update_of_ne hqp', Function.update_of_ne hqp, hq]⟩

theorem moves_kept (h : Moves way g g') {q : κ} {text : β} (hq : g q = some text) :
    ∃ q', Relation.ReflTransGen way q q' ∧ g' q' = some text := by
  induction h with
  | refl => exact ⟨q, .refl, hq⟩
  | tail _ hstep ih =>
      obtain ⟨p, hway, hp⟩ := ih
      obtain ⟨q', hlast, hq'⟩ := move_kept hstep hp
      exact ⟨q', hway.trans hlast.to_reflTransGen, hq'⟩

/-- A place with a content had it, or is where a move leads. -/
theorem move_origin (h : Move way g g') {q : κ} (hq : g' q ≠ none) :
    g q ≠ none ∨ ∃ p, way p q := by
  obtain ⟨p, p', hto, hp, hfree, rfl⟩ := h
  by_cases hqp' : q = p'
  · exact .inr ⟨p, hqp' ▸ hto⟩
  · rw [Function.update_of_ne hqp'] at hq
    by_cases hqp : q = p
    · exact .inl (hqp ▸ hp)
    · rw [Function.update_of_ne hqp] at hq
      exact .inl hq

theorem moves_origin (h : Moves way g g') {q : κ} (hq : g' q ≠ none) :
    g q ≠ none ∨ ∃ p, way p q := by
  induction h with
  | refl => exact .inl hq
  | tail _ hstep ih =>
      rcases move_origin hstep hq with hbefore | hto
      · exact ih hbefore
      · exact .inr hto

/-- Where a content may go is free. -/
def Free (way : κ → κ → Prop) (g : κ → Option β) : Prop :=
  ∀ q q', way q q' → g q ≠ none → g q' = none

/-- A move takes nobody's place, where no two contents have one place to go to
and none that went goes on. -/
theorem move_free (hinj : ∀ p q q', way p q' → way q q' → p = q)
    (hlast : ∀ p q q', way p q → ¬ way q q') (h : Move way g g') (hg : Free way g) :
    Free way g' := by
  obtain ⟨p, p', hway, -, -, rfl⟩ := h
  intro q q' hq hthere
  have hqp' : q ≠ p' := by
    rintro rfl
    exact hlast p q q' hway hq
  rw [Function.update_of_ne hqp'] at hthere
  have hqp : q ≠ p := by
    rintro rfl
    rw [Function.update_self] at hthere
    exact hthere rfl
  rw [Function.update_of_ne hqp] at hthere
  have hq'p' : q' ≠ p' := by
    rintro rfl
    exact hqp (hinj q p q' hq hway)
  rw [Function.update_of_ne hq'p', Function.update_apply]
  split
  · rfl
  · exact hg q q' hq hthere

end Moves

/-! ## The files below a directory -/

/-- What the files below a directory hold. -/
def contents (dir : Path) (fs : Files) : Path → Option String := fun q =>
  if Text.below dir q then fs.read? q else none

theorem contents_below {dir q : Path} (h : Text.below dir q = true) (fs : Files) :
    contents dir fs q = fs.read? q := if_pos h

/-- A path below the directory keeps its content. -/
def Same (dir q : Path) (x y : Option String) : Prop := Text.below dir q = true → y = x

instance (dir q : Path) : Std.Refl (Same dir q) := ⟨fun _ _ => rfl⟩

instance (dir q : Path) : IsTrans _ (Same dir q) := ⟨fun _ _ _ h h' hq => (h' hq).trans (h hq)⟩

theorem contents_same {dir : Path} {fs fs' : Files} (h : Pointwise (Same dir) fs fs') :
    contents dir fs' = contents dir fs := by
  funext q
  rw [contents, contents]
  split
  · next hq => exact h q hq
  · rfl

section Rename

variable {d : Disk} {dir p target : Path} {fs : Files}

/-- A rename, refused or not, leaves every path but the two it names. -/
theorem read?_rename_ne {q : Path} (hp : q ≠ p) (htarget : q ≠ target) :
    (rename d p target fs).2.read? q = fs.read? q := by
  rw [rename]
  cases fs.read? p with
  | none => rfl
  | some text =>
      cases d.refuses fs target with
      | some e => rfl
      | none =>
          show Files.read? { fs with files := Dict.set (Dict.erase fs.files p) target text } q = _
          rw [Files.read?_rename, if_neg htarget, if_neg hp]

/-- A rename that returned took a content that was there to its target. -/
theorem rename_ok {fs' : Files} (h : rename d p target fs = (.ok (), fs')) :
    ∃ text, fs.read? p = some text ∧
      ∀ q, fs'.read? q = if q = target then some text else if q = p then none else fs.read? q := by
  rw [rename] at h
  cases hp : fs.read? p with
  | none =>
      rw [hp] at h
      cases h
  | some text =>
      cases hd : d.refuses fs target with
      | some e =>
          rw [hp, hd] at h
          cases h
      | none =>
          rw [hp, hd] at h
          cases h
          exact ⟨text, rfl, fun q => Files.read?_rename fs p target q text⟩

/-- A rename that raised changed nothing. -/
theorem rename_error {e : PyError} {fs' : Files} (h : rename d p target fs = (.error e, fs')) :
    fs' = fs := by
  rw [rename] at h
  cases hp : fs.read? p with
  | none =>
      rw [hp] at h
      cases h
      rfl
  | some text =>
      cases hd : d.refuses fs target with
      | some e' =>
          rw [hp, hd] at h
          cases h
          rfl
      | none =>
          rw [hp, hd] at h
          cases h

/-- A rename brings a file to its target only. -/
theorem rename_absent {q : Path} (htarget : q ≠ target) (h : fs.read? q = none) :
    (rename d p target fs).2.read? q = none := by
  by_cases hp : q = p
  · subst hp
    rw [rename, h]
    exact h
  · rw [read?_rename_ne hp htarget, h]

/-- A rename to a free name is a move, or nothing. -/
theorem rename_moves {way : Path → Path → Prop} (hway : way p target)
    (hp : Text.below dir p = true) (htarget : Text.below dir target = true)
    (hfree : Free way (contents dir fs)) :
    Moves way (contents dir fs) (contents dir (rename d p target fs).2) := by
  rcases hrun : rename d p target fs with ⟨e | ⟨⟩, fs'⟩
  · rw [rename_error hrun]
  · obtain ⟨text, hread, hafter⟩ := rename_ok hrun
    have hthere : contents dir fs p ≠ none := by
      rw [contents_below hp, hread]
      exact Option.some_ne_none text
    refine .single ⟨p, target, hway, hthere, hfree p target hway hthere, ?_⟩
    funext q
    simp only [Function.update_apply, contents, hafter q, hread, hp, if_true]
    by_cases hqt : q = target
    · rw [if_pos hqt, if_pos hqt, hqt, htarget, if_pos rfl]
    · rw [if_neg hqt, if_neg hqt]
      by_cases hqp : q = p
      · rw [if_pos hqp, if_pos hqp, ite_self]
      · rw [if_neg hqp, if_neg hqp]

end Rename

end Sys
