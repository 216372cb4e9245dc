/-
# `Py.Path` — where a path text leads

`resolve` follows a path text from a directory, `..` going up.  What a text
does is read off it beforehand: its dots cancel (`cancel`) to some steps up and
some names down, and `resolve_eq` is the path that gives.

A *plain* name is one component: not empty, without a slash, not a dot or two.
It leads one step down, whatever the directory (`resolve_plain`).
-/
import Mathlib.Data.List.Basic
import KdevopsNg.Py.Text

namespace Py.Text

/-! ## Cancelling the dots -/

/-- One component, the steps up and the names down so far known. -/
def cancelStep (acc : ℕ × List String) (c : String) : ℕ × List String :=
  if c = ".." then
    if acc.2 = [] then (acc.1 + 1, []) else (acc.1, acc.2.dropLast)
  else (acc.1, acc.2 ++ [c])

/-- The components of a path, `x/..` cancelled: so many steps up, then names. -/
def cancel (cs : List String) : ℕ × List String := cs.foldl cancelStep (0, [])

/-- A path text begins with a slash. -/
def isAbsolute (name : String) : Bool := name.toList.head? = some '/'

/-- The path an absolute text names is its names down; a relative one goes up
from the directory first. -/
theorem walk_eq (base : Path) (cs : List String) :
    walk base cs = base.take (base.length - (cancel cs).1) ++ (cancel cs).2 := by
  induction cs using List.reverseRecOn with
  | nil => simp [walk, cancel]
  | append_singleton cs c ih =>
      have hstep : cancel (cs ++ [c]) = cancelStep (cancel cs) c := by
        rw [cancel, List.foldl_append]
        rfl
      rw [walk] at ih
      rw [walk, List.foldl_append, ih, hstep, cancelStep]
      show (if c = ".." then _ else _) = _
      by_cases hc : c = ".."
      · rw [if_pos hc, if_pos hc]
        by_cases hnil : (cancel cs).2 = []
        · rw [if_pos hnil, hnil, List.append_nil, List.append_nil, List.dropLast_eq_take,
            List.length_take, List.take_take]
          congr 1
          omega
        · rw [if_neg hnil, List.dropLast_append_of_ne_nil hnil]
      · rw [if_neg hc, if_neg hc, List.append_assoc]

/-- Where a text leads. -/
theorem resolve_eq (root : Path) (name : String) : resolve root name =
    if isAbsolute name then (cancel (components name)).2
    else root.take (root.length - (cancel (components name)).1) ++ (cancel (components name)).2 := by
  rw [resolve, isAbsolute]
  by_cases habs : name.toList.head? = some '/'
  · rw [if_pos habs, if_pos (by simpa using habs), walk_eq]
    simp
  · rw [if_neg habs, if_neg (by simpa using habs), walk_eq]

/-! ## Below a directory -/

theorem below_iff (root path : Path) : below root path = true ↔ ∃ x xs, path = root ++ x :: xs := by
  rw [below, Bool.and_eq_true, List.isPrefixOf_iff_prefix, decide_eq_true_eq]
  constructor
  · rintro ⟨⟨rest, rfl⟩, hlen⟩
    cases rest with
    | nil => simp at hlen
    | cons x xs => exact ⟨x, xs, rfl⟩
  · rintro ⟨x, xs, rfl⟩
    exact ⟨List.prefix_append _ _, by simp⟩

/-! ## Plain names -/

/-- A text that is one component of a path. -/
def Plain (name : String) : Prop :=
  name ≠ "" ∧ '/' ∉ name.toList ∧ name ≠ "." ∧ name ≠ ".."

instance (name : String) : Decidable (Plain name) := by
  unfold Plain
  infer_instance

theorem split_of_not_mem {c : Char} {s : List Char} (h : c ∉ s) : split c s = [s] := by
  induction s with
  | nil => rfl
  | cons x xs ih =>
      have hx : x ≠ c := by
        rintro rfl
        exact h List.mem_cons_self
      rw [split, if_neg hx, ih fun hmem => h (List.mem_cons_of_mem _ hmem)]

/-- No piece has the separator. -/
theorem not_mem_of_mem_split {c : Char} {s l : List Char} (h : l ∈ split c s) : c ∉ l := by
  induction s generalizing l with
  | nil =>
      rw [split, List.mem_singleton] at h
      rw [h]
      exact List.not_mem_nil
  | cons x xs ih =>
      rw [split] at h
      split_ifs at h with hx
      · rcases List.mem_cons.mp h with rfl | hmem
        · exact List.not_mem_nil
        · exact ih hmem
      · obtain ⟨w, ws, hsplit⟩ := List.exists_cons_of_ne_nil (split_ne_nil c xs)
        rw [hsplit] at h ih
        rcases List.mem_cons.mp h with rfl | hmem
        · rw [List.mem_cons, not_or]
          exact ⟨Ne.symm hx, ih List.mem_cons_self⟩
        · exact ih (List.mem_cons_of_mem _ hmem)

theorem components_plain {name : String} (h : Plain name) : components name = [name] := by
  obtain ⟨hne, hslash, hdot, -⟩ := h
  rw [components, split_of_not_mem hslash]
  simp [hne, hdot]

theorem not_isAbsolute_plain {name : String} (h : Plain name) : isAbsolute name = false := by
  obtain ⟨-, hslash, -, -⟩ := h
  rw [isAbsolute, decide_eq_false_iff_not]
  intro hhead
  exact hslash (List.mem_of_mem_head? (by rw [hhead]; rfl))

theorem cancel_plain {name : String} (h : Plain name) : cancel (components name) = (0, [name]) := by
  rw [components_plain h]
  show cancelStep (0, []) name = _
  rw [cancelStep, if_neg h.2.2.2]
  rfl

/-- A plain name leads one step down. -/
theorem resolve_plain (root : Path) {name : String} (h : Plain name) :
    resolve root name = root ++ [name] := by
  rw [resolve_eq, not_isAbsolute_plain h, cancel_plain h]
  simp

/-! ## A suffix on a name -/

/-- What follows the last slash of a name. -/
def leaf (name : String) : String :=
  String.ofList ((split '/' name.toList).getLast (split_ne_nil '/' name.toList))

/-- Where the part of a name before its last slash leads. -/
def dirPart (root : Path) (name : String) : Path :=
  let front := ((split '/' name.toList).dropLast.map String.ofList).filter
    (fun c => c ≠ "" ∧ c ≠ ".")
  if name.toList.head? = some '/' then walk [] front else walk root front

/-- A text without the separator goes to the last piece. -/
theorem split_append {c : Char} {ys : List Char} (h : c ∉ ys) (xs : List Char) :
    split c (xs ++ ys) =
      (split c xs).dropLast ++ [(split c xs).getLast (split_ne_nil c xs) ++ ys] := by
  induction xs with
  | nil =>
      rw [List.nil_append, split_of_not_mem h]
      rfl
  | cons x xs ih =>
      by_cases hx : x = c
      · have hcons : split c (x :: xs) = [] :: split c xs := by
          rw [split, if_pos hx]
        rw [List.cons_append, split, if_pos hx, ih]
        simp only [hcons, List.dropLast_cons_of_ne_nil (split_ne_nil c xs),
          List.getLast_cons (split_ne_nil c xs), List.cons_append]
      · obtain ⟨w, ws, hw⟩ := List.exists_cons_of_ne_nil (split_ne_nil c xs)
        have hcons : split c (x :: xs) = (x :: w) :: ws := by
          rw [split, if_neg hx, hw]
        rw [List.cons_append, split, if_neg hx, ih]
        simp only [hcons, hw]
        cases ws with
        | nil => rfl
        | cons v vs => simp

/-- A suffix of three characters or more leaves no name a dot or two. -/
theorem components_suffix {suffix : String} (hslash : '/' ∉ suffix.toList)
    (hlen : 3 ≤ suffix.length) (name : String) : components (name ++ suffix) =
      ((split '/' name.toList).dropLast.map String.ofList).filter (fun c => c ≠ "" ∧ c ≠ ".") ++
        [leaf name ++ suffix] := by
  have hlong : 3 ≤ (leaf name ++ suffix).length := by
    rw [String.length_append]
    omega
  have hne : leaf name ++ suffix ≠ "" := by
    intro h
    rw [h] at hlong
    exact absurd hlong (by decide)
  have hdot : leaf name ++ suffix ≠ "." := by
    intro h
    rw [h] at hlong
    exact absurd hlong (by decide)
  have hleaf : String.ofList ((split '/' name.toList).getLast (split_ne_nil '/' name.toList) ++
      suffix.toList) = leaf name ++ suffix := by
    rw [String.ofList_append, String.ofList_toList]
    rfl
  rw [components, String.toList_append, split_append hslash, List.map_append, List.filter_append]
  simp only [List.map_cons, List.map_nil, hleaf]
  rw [List.filter_cons_of_pos (by simp [hne, hdot]), List.filter_nil]

/-- With a suffix the last piece of a name stays a name. -/
theorem resolve_suffix {suffix : String} (hslash : '/' ∉ suffix.toList)
    (hlen : 3 ≤ suffix.length) (root : Path) (name : String) :
    resolve root (name ++ suffix) = dirPart root name ++ [leaf name ++ suffix] := by
  have hdots : leaf name ++ suffix ≠ ".." := by
    intro h
    have hlong : 3 ≤ (leaf name ++ suffix).length := by
      rw [String.length_append]
      omega
    rw [h] at hlong
    exact absurd hlong (by decide)
  have hwalk : ∀ base front, walk base (front ++ [leaf name ++ suffix]) =
      walk base front ++ [leaf name ++ suffix] := by
    intro base front
    rw [walk, List.foldl_append]
    show (if leaf name ++ suffix = ".." then _ else _) = _
    rw [if_neg hdots]
    rfl
  have hhead : (name ++ suffix).toList.head? = some '/' ↔ name.toList.head? = some '/' := by
    rw [String.toList_append]
    cases hname : name.toList with
    | nil =>
        refine ⟨fun h => ?_, fun h => ?_⟩
        · exact absurd (List.mem_of_mem_head? (by rw [List.nil_append] at h; rw [h]; rfl)) hslash
        · cases h
    | cons x xs => exact Iff.rfl
  rw [resolve, dirPart, components_suffix hslash hlen, hwalk, hwalk]
  by_cases habs : name.toList.head? = some '/'
  · rw [if_pos (hhead.mpr habs), if_pos habs]
  · rw [if_neg (mt hhead.mp habs), if_neg habs]

/-- A name without a slash is its own leaf. -/
theorem leaf_of_not_mem {name : String} (h : '/' ∉ name.toList) : leaf name = name := by
  simp only [leaf, split_of_not_mem h, List.getLast_singleton, String.ofList_toList]

theorem dirPart_of_not_mem {name : String} (h : '/' ∉ name.toList) (root : Path) :
    dirPart root name = root := by
  have hhead : name.toList.head? ≠ some '/' := fun hh =>
    h (List.mem_of_mem_head? (by rw [hh]; rfl))
  rw [dirPart, split_of_not_mem h, if_neg hhead]
  rfl

end Py.Text
