/-
# `Git.Refspec` — what a fetch makes of a remote's refs

A refspec such as `+refs/heads/*:refs/remotes/mirror/*` has a pattern on each
side.  A ref of the first pattern is fetched into the ref of the second with the
same text at its star (`apply_eq_some_iff`).  A remote has several refspecs, and
a ref is fetched by each that it matches (`fetched`): by at most one, where no ref
is of two of the patterns (`fetched_length_le_one`).

Only refspecs with a star on both sides are read here.  A refspec of one ref, one
without a destination and a negative one are not.
-/
import KdevopsNg.Py.Text

namespace Git

open Py

/-! ## Patterns -/

/-- A pattern of refs: what stands before its star, and behind it. -/
structure Pattern where
  before : List Char
  after : List Char
  deriving DecidableEq, Repr

namespace Pattern

/-- The ref of the pattern with a name at the star. -/
def fill (p : Pattern) (name : List Char) : List Char := p.before ++ name ++ p.after

/-- The pattern as it is written. -/
def text (p : Pattern) : List Char := p.before ++ '*' :: p.after

/-- Read a pattern: it has one star. -/
def parse (s : List Char) : Option Pattern :=
  if s.count '*' = 1 then some ⟨s.takeWhile (· ≠ '*'), (s.dropWhile (· ≠ '*')).tail⟩ else none

/-- What stands at the star of a ref of the pattern. -/
def match? (p : Pattern) (ref : List Char) : Option (List Char) :=
  let rest := ref.drop p.before.length
  if p.before.isPrefixOf ref && p.after.isSuffixOf rest then
    some (rest.take (rest.length - p.after.length))
  else none

/-- No ref is of both patterns. -/
def Apart (p q : Pattern) : Prop := ∀ a b, p.fill a ≠ q.fill b

theorem match?_eq_some_iff {p : Pattern} {ref name : List Char} :
    p.match? ref = some name ↔ ref = p.fill name := by
  rw [match?, fill]
  constructor
  · intro h
    split_ifs at h with hboth
    rw [Bool.and_eq_true] at hboth
    obtain ⟨rest, rfl⟩ := List.isPrefixOf_iff_prefix.mp hboth.1
    have hrest := List.isSuffixOf_iff_suffix.mp hboth.2
    rw [List.drop_left] at h hrest
    obtain ⟨mid, rfl⟩ := hrest
    have hmid : (mid ++ p.after).take ((mid ++ p.after).length - p.after.length) = mid := by
      rw [List.length_append, Nat.add_sub_cancel, List.take_left]
    rw [hmid] at h
    rw [Option.some.inj h, List.append_assoc]
  · rintro rfl
    rw [List.append_assoc, List.drop_left, if_pos]
    · rw [List.length_append, Nat.add_sub_cancel, List.take_left]
    · rw [Bool.and_eq_true]
      exact ⟨List.isPrefixOf_iff_prefix.mpr (List.prefix_append _ _),
        List.isSuffixOf_iff_suffix.mpr (List.suffix_append _ _)⟩

theorem parse_text {p : Pattern} (hbefore : '*' ∉ p.before) (hafter : '*' ∉ p.after) :
    parse p.text = some p := by
  have hstop : ∀ c ∈ p.before, decide (c ≠ '*') = true := fun c hc =>
    decide_eq_true fun h => hbefore (h ▸ hc)
  have hcount : p.text.count '*' = 1 := by
    rw [text, List.count_append, List.count_cons_self, List.count_eq_zero_of_not_mem hbefore,
      List.count_eq_zero_of_not_mem hafter]
  rw [parse, if_pos hcount, text, List.takeWhile_append_of_pos hstop,
    List.dropWhile_append_of_pos hstop]
  simp

end Pattern

/-! ## Refspecs -/

/-- A refspec: whether it overwrites what is no ancestor, and its two patterns. -/
structure Refspec where
  force : Bool
  src : Pattern
  dst : Pattern
  deriving DecidableEq, Repr

namespace Refspec

/-- The refspec as it is written. -/
def text (s : Refspec) : List Char :=
  (if s.force then ['+'] else []) ++ (s.src.text ++ ':' :: s.dst.text)

/-- Read the two sides of a refspec, cut at its last colon. -/
def parseSides (force : Bool) (s : List Char) : Option Refspec :=
  let dst := Text.afterLast ':' s
  let src := s.take (s.length - dst.length - 1)
  if ':' ∈ s then do return ⟨force, ← Pattern.parse src, ← Pattern.parse dst⟩ else none

/-- Read a refspec. -/
def parse (s : List Char) : Option Refspec :=
  if s.head? = some '+' then parseSides true s.tail else parseSides false s

/-- The ref that a ref of the remote is fetched into. -/
def apply (s : Refspec) (ref : List Char) : Option (List Char) := (s.src.match? ref).map s.dst.fill

/-- The refs that a ref of the remote is fetched into. -/
def fetched (specs : List Refspec) (ref : List Char) : List (List Char) :=
  specs.filterMap (·.apply ref)

theorem apply_eq_some_iff {s : Refspec} {ref dst : List Char} :
    s.apply ref = some dst ↔ ∃ name, ref = s.src.fill name ∧ dst = s.dst.fill name := by
  rw [apply, Option.map_eq_some_iff]
  constructor
  · rintro ⟨name, hname, rfl⟩
    exact ⟨name, Pattern.match?_eq_some_iff.mp hname, rfl⟩
  · rintro ⟨name, hname, rfl⟩
    exact ⟨name, Pattern.match?_eq_some_iff.mpr hname, rfl⟩

theorem apply_fill (s : Refspec) (name : List Char) :
    s.apply (s.src.fill name) = some (s.dst.fill name) :=
  apply_eq_some_iff.mpr ⟨name, rfl, rfl⟩

theorem apply_of_apart {s t : Refspec} (h : s.src.Apart t.src) (name : List Char) :
    t.apply (s.src.fill name) = none := by
  rw [apply, Option.map_eq_none_iff, Option.eq_none_iff_forall_ne_some]
  intro other hother
  exact h name other (Pattern.match?_eq_some_iff.mp hother)

section
variable {specs : List Refspec}

/-- No ref is fetched twice where no ref is of two source patterns. -/
theorem fetched_length_le_one (h : specs.Pairwise fun s t => s.src.Apart t.src)
    (ref : List Char) : (fetched specs ref).length ≤ 1 := by
  induction specs with
  | nil => exact Nat.zero_le 1
  | cons s specs ih =>
      obtain ⟨hs, hrest⟩ := List.pairwise_cons.mp h
      rw [fetched, List.filterMap_cons]
      cases hone : s.apply ref with
      | none => exact ih hrest
      | some dst =>
          -- the ref is of the first pattern, and so of no other
          obtain ⟨name, rfl, -⟩ := apply_eq_some_iff.mp hone
          have hnone : specs.filterMap (·.apply (s.src.fill name)) = [] :=
            List.filterMap_eq_nil_iff.mpr fun t ht => apply_of_apart (hs t ht) name
          dsimp only
          rw [hnone]
          exact le_refl 1

/-- A ref of one of the source patterns is fetched by that refspec alone. -/
theorem fetched_fill (h : specs.Pairwise fun s t => s.src.Apart t.src) {s : Refspec}
    (hs : s ∈ specs) (name : List Char) :
    fetched specs (s.src.fill name) = [s.dst.fill name] := by
  have hmem : s.dst.fill name ∈ fetched specs (s.src.fill name) :=
    List.mem_filterMap.mpr ⟨s, hs, apply_fill s name⟩
  have hle := fetched_length_le_one h (s.src.fill name)
  obtain ⟨dst, hdst⟩ := List.length_eq_one_iff.mp
    (le_antisymm hle (List.length_pos_of_mem hmem))
  rw [hdst] at hmem ⊢
  rw [List.mem_singleton.mp hmem]

end

/-- A written refspec whose patterns have no star and no colon of their own is read back. -/
theorem parse_text {s : Refspec} (hsrc : '*' ∉ s.src.before ∧ '*' ∉ s.src.after)
    (hdst : '*' ∉ s.dst.before ∧ '*' ∉ s.dst.after) (hcolon : ':' ∉ s.dst.text)
    (hplus : s.src.text.head? ≠ some '+') : parse s.text = some s := by
  have hsides : parseSides s.force (s.src.text ++ ':' :: s.dst.text) = some s := by
    have hafter : Text.afterLast ':' (s.src.text ++ ':' :: s.dst.text) = s.dst.text := by
      have hrev : ∀ c ∈ s.dst.text.reverse, decide (c ≠ ':') = true := fun c hc =>
        decide_eq_true fun h => hcolon (h ▸ List.mem_reverse.mp hc)
      rw [Text.afterLast, List.reverse_append, List.reverse_cons, List.append_assoc,
        List.takeWhile_append_of_pos hrev]
      simp
    have hlen : (s.src.text ++ ':' :: s.dst.text).length - s.dst.text.length - 1 =
        s.src.text.length := by
      rw [List.length_append, List.length_cons]
      omega
    rw [parseSides, hafter, hlen, List.take_left, Pattern.parse_text hsrc.1 hsrc.2,
      Pattern.parse_text hdst.1 hdst.2, if_pos (by simp)]
    rfl
  have hhead : (s.src.text ++ ':' :: s.dst.text).head? ≠ some '+' := by
    rw [List.head?_append_of_ne_nil _ (by simp [Pattern.text])]
    exact hplus
  rw [← hsides, parse, text]
  cases s.force with
  | true => rfl
  | false => exact if_neg hhead

end Refspec

end Git
