/-
# `Kernel.MakeVars` — flags merged into a variable of make's command line

A word `VAR=value` of make's command line assigns a variable, and so do
`VAR:=value`, `VAR::=value` and `VAR:::=value`.  The last word that assigns it is
the one make uses (`makeWords`).

A merge puts flags behind the value of the *first* word that begins with `VAR=`, and
adds a word of its own when there is none, as the last (`mergeLast`) or in front of the
others (`mergeFirst`).  What make then reads depends on how the words stand:

    absent      no word assigns the variable
    hidden w    some do, and none of them begins with `VAR=`
    heard w     the first `VAR=` word is the last to assign it
    covered w   the first `VAR=` word has another that assigns behind it

where `w` is what make reads.  `place` computes this from the words, and the merges
are functions of it (`place_mergeLast`, `place_mergeFirst`).
-/
import KdevopsNg.Py.Contents
import KdevopsNg.Py.Shlex

namespace KdevopsNg.Kernel

open Py Py.Text Py.Shlex

/-- The variables that take flags. -/
inductive FlagVar
  | kcflags
  | kaflags
  | krustflags
  deriving DecidableEq, Repr

namespace FlagVar

def name : FlagVar → Word
  | kcflags => "KCFLAGS".toList
  | kaflags => "KAFLAGS".toList
  | krustflags => "KRUSTFLAGS".toList

/-- `f"{var}={value}"`. -/
def set (v : FlagVar) (value : List Char) : Word := v.name ++ '=' :: value

/-- `t.startswith(f"{var}=")`. -/
def starts (v : FlagVar) (t : Word) : Bool := (v.name ++ ['=']).isPrefixOf t

end FlagVar

/-! ## What make reads -/

/-- The white space make skips around a name. -/
def isBlank (c : Char) : Bool := c = ' ' || c = '\t'

/-- The operators that assign. -/
def assignOps : List (List Char) := [['='], [':', '='], [':', ':', '='], [':', ':', ':', '=']]

/-- The value a word assigns to a variable. -/
def assigned (v : FlagVar) (t : Word) : Option (List Char) :=
  let t := t.dropWhile isBlank
  if v.name.isPrefixOf t then
    let rest := (t.drop v.name.length).dropWhile isBlank
    assignOps.findSome? fun op => if op.isPrefixOf rest then some (rest.drop op.length) else none
  else none

/-- What make reads of a variable: the words of the last value assigned. -/
def makeWords (v : FlagVar) (ts : List Word) : List Word :=
  ((ts.filterMap (assigned v)).getLast?.map words).getD []

/-- A word that assigns none of the variables. -/
def isOther (t : Word) : Bool :=
  (assigned .kcflags t).isNone && (assigned .kaflags t).isNone && (assigned .krustflags t).isNone

/-! ## The merges -/

/-- The word with flags behind its value. -/
def mergeInto (v : FlagVar) (flags : List Char) (t : Word) : Word :=
  v.set (strip (t.drop (v.name.length + 1) ++ ' ' :: flags))

/-- Merge flags into the first `VAR=` word, else add one at the end. -/
def mergeLast (v : FlagVar) (flags : List Char) (ts : List Word) : List Word :=
  match ts.findIdx? v.starts with
  | none => ts ++ [v.set flags]
  | some i => ts.modify i (mergeInto v flags)

/-- Merge flags into the first `VAR=` word, else add one to the parts in front. -/
def mergeFirst (v : FlagVar) (flags : List Char) (parts ts : List Word) :
    List Word × List Word :=
  match ts.findIdx? v.starts with
  | none => (parts ++ [v.set flags], ts)
  | some i => (parts, ts.modify i (mergeInto v flags))

/-! ## Words that assign -/

section
variable {v w : FlagVar}

theorem starts_iff {t : Word} : v.starts t = true ↔ ∃ value, t = v.set value := by
  rw [FlagVar.starts, List.isPrefixOf_iff_prefix]
  constructor
  · rintro ⟨value, rfl⟩
    exact ⟨value, by rw [FlagVar.set, List.append_assoc, List.singleton_append]⟩
  · rintro ⟨value, rfl⟩
    exact ⟨value, by rw [FlagVar.set, List.append_assoc, List.singleton_append]⟩

theorem starts_set (v : FlagVar) (value : List Char) : v.starts (v.set value) = true :=
  starts_iff.mpr ⟨value, rfl⟩

theorem assigned_set (v : FlagVar) (value : List Char) : assigned v (v.set value) = some value := by
  cases v <;> rfl

theorem assigned_set_ne (h : w ≠ v) (value : List Char) : assigned w (v.set value) = none := by
  cases v <;> cases w <;> first | exact absurd rfl h | rfl

theorem not_isOther_set (v : FlagVar) (value : List Char) : isOther (v.set value) = false := by
  cases v <;> rfl

theorem mergeInto_set (flags value : List Char) :
    mergeInto v flags (v.set value) = v.set (strip (value ++ ' ' :: flags)) := by
  have hdrop : (v.set value).drop (v.name.length + 1) = value := by
    rw [FlagVar.set, ← List.drop_drop, List.drop_left]
    rfl
  rw [mergeInto, hdrop]

/-- The words of a merged value. -/
theorem words_merged (flags value : List Char) :
    words (strip (value ++ ' ' :: flags)) = words value ++ words flags := by
  rw [words_strip, words_sep (by decide)]

/-- The first element of a kind, and what it is changed to. -/
theorem modify_findIdx {α : Type} {P : α → Bool} {ts : List α} {i : ℕ} (h : ts.findIdx? P = some i) :
    ∃ front t back, ts = front ++ t :: back ∧ (∀ x ∈ front, P x = false) ∧ P t = true ∧
      ∀ f : α → α, ts.modify i f = front ++ f t :: back := by
  induction ts generalizing i with
  | nil => cases h
  | cons t ts ih =>
      rw [List.findIdx?_cons] at h
      by_cases ht : P t = true
      · rw [if_pos ht] at h
        cases h
        exact ⟨[], t, ts, rfl, fun _ hmem => absurd hmem List.not_mem_nil, ht, fun _ => rfl⟩
      · rw [if_neg ht] at h
        obtain ⟨j, hj, rfl⟩ := Option.map_eq_some_iff.mp h
        obtain ⟨front, x, back, rfl, hfront, hx, hmod⟩ := ih hj
        refine ⟨t :: front, x, back, rfl, ?_, hx, fun f => ?_⟩
        · intro y hy
          rcases List.mem_cons.mp hy with rfl | hy
          · exact eq_false_of_ne_true ht
          · exact hfront y hy
        · rw [List.modify_succ_cons, hmod, List.cons_append]

/-- The word a merge changes, and what it is changed to. -/
theorem modify_first {ts : List Word} {i : ℕ} (h : ts.findIdx? v.starts = some i)
    (flags : List Char) : ∃ front value back, ts = front ++ v.set value :: back ∧
      (∀ t ∈ front, v.starts t = false) ∧
      ts.modify i (mergeInto v flags) =
        front ++ v.set (strip (value ++ ' ' :: flags)) :: back := by
  obtain ⟨front, t, back, rfl, hfront, ht, hmod⟩ := modify_findIdx h
  obtain ⟨value, rfl⟩ := starts_iff.mp ht
  refine ⟨front, value, back, rfl, hfront, ?_⟩
  rw [hmod, mergeInto_set]

/-! ## Words of no concern to a merge -/

/-- The words a merge of the variable leaves alone. -/
def apart (v : FlagVar) (ts : List Word) : List Word := ts.filter fun t => !v.starts t

theorem apart_append (v : FlagVar) (xs ys : List Word) :
    apart v (xs ++ ys) = apart v xs ++ apart v ys := List.filter_append ..

theorem apart_cons_set (v : FlagVar) (value : List Char) (ts : List Word) :
    apart v (v.set value :: ts) = apart v ts := by
  rw [apart, List.filter_cons_of_neg, apart]
  rw [starts_set]
  decide

theorem apart_mergeLast (v : FlagVar) (flags : List Char) (ts : List Word) :
    apart v (mergeLast v flags ts) = apart v ts := by
  rw [mergeLast]
  split
  · rw [apart_append, apart_cons_set]
    exact List.append_nil _
  · next i hi =>
      obtain ⟨front, value, back, rfl, -, hmod⟩ := modify_first hi flags
      rw [hmod, apart_append, apart_append, apart_cons_set, apart_cons_set]

theorem apart_mergeFirst (v : FlagVar) (flags : List Char) (parts ts : List Word) :
    apart v ((mergeFirst v flags parts ts).1 ++ (mergeFirst v flags parts ts).2) =
      apart v (parts ++ ts) := by
  rw [mergeFirst]
  split
  · rw [List.append_assoc, apart_append, List.singleton_append, apart_cons_set, ← apart_append]
  · next i hi =>
      obtain ⟨front, value, back, rfl, -, hmod⟩ := modify_first hi flags
      rw [hmod, apart_append, apart_append, apart_append, apart_append, apart_cons_set, apart_cons_set]

/-- The words that assign nothing are among them. -/
theorem filter_isOther_apart (v : FlagVar) (ts : List Word) :
    (apart v ts).filter isOther = ts.filter isOther := by
  rw [apart, List.filter_filter]
  refine List.filter_congr fun t _ => ?_
  by_cases ht : v.starts t = true
  · obtain ⟨value, rfl⟩ := starts_iff.mp ht
    rw [not_isOther_set, Bool.false_and]
  · rw [eq_false_of_ne_true ht, Bool.not_false, Bool.and_true]

end

/-! ## The place of the flags -/

/-- How the words that assign a variable stand. -/
inductive Place
  | absent
  | hidden (w : List Word)
  | heard (w : List Word)
  | covered (w : List Word)
  deriving DecidableEq, Repr

namespace Place

/-- What make reads there. -/
def words : Place → List Word
  | absent => []
  | hidden w => w
  | heard w => w
  | covered w => w

/-- One more word that assigns. -/
def assign (first : Bool) (w : List Word) : Place → Place
  | absent => if first then heard w else hidden w
  | hidden _ => if first then heard w else hidden w
  | heard _ => covered w
  | covered _ => covered w

/-- One more word. -/
def read (v : FlagVar) (p : Place) (t : Word) : Place :=
  match assigned v t with
  | none => p
  | some value => p.assign (v.starts t) (Text.words value)

/-- A merge that adds its word at the end. -/
def addLast (flags : List Word) : Place → Place
  | absent => heard flags
  | hidden _ => heard flags
  | heard w => heard (w ++ flags)
  | covered w => covered w

/-- A merge that adds its word in front. -/
def addFirst (flags : List Word) : Place → Place
  | absent => heard flags
  | hidden w => covered w
  | heard w => heard (w ++ flags)
  | covered w => covered w

end Place

/-- How the words of a command line stand. -/
def place (v : FlagVar) (ts : List Word) : Place := ts.foldl (Place.read v) .absent

section
variable {v w : FlagVar}

theorem place_snoc (v : FlagVar) (ts : List Word) (t : Word) :
    place v (ts ++ [t]) = (place v ts).read v t := by
  rw [place, List.foldl_append, List.foldl_cons, List.foldl_nil, place]

theorem words_assign (p : Place) (first : Bool) (ws : List Word) :
    (p.assign first ws).words = ws := by
  cases p <;> cases first <;> rfl

/-- The place tells what make reads. -/
theorem makeWords_eq (v : FlagVar) (ts : List Word) : makeWords v ts = (place v ts).words := by
  induction ts using List.reverseRecOn with
  | nil => rfl
  | append_singleton ts t ih =>
      rw [place_snoc, Place.read, makeWords, List.filterMap_append]
      cases ht : assigned v t with
      | none =>
          rw [List.filterMap_cons_none ht, List.filterMap_nil, List.append_nil, ← makeWords, ih]
      | some value =>
          rw [List.filterMap_cons_some ht, List.filterMap_nil, List.getLast?_concat, words_assign]
          rfl

/-- Words that assign another variable, or none, do not count. -/
theorem foldl_read_of_none {ts : List Word} (h : ∀ t ∈ ts, assigned v t = none) (p : Place) :
    ts.foldl (Place.read v) p = p := by
  induction ts generalizing p with
  | nil => rfl
  | cons t ts ih =>
      rw [List.foldl_cons, Place.read, h t List.mem_cons_self]
      exact ih (fun x hx => h x (List.mem_cons_of_mem t hx)) p

theorem place_append_of_none {parts : List Word} (h : ∀ t ∈ parts, assigned v t = none)
    (ts : List Word) : place v (parts ++ ts) = place v ts := by
  rw [place, List.foldl_append, foldl_read_of_none h, place]

theorem place_apart (h : w ≠ v) (ts : List Word) : place w (apart v ts) = place w ts := by
  induction ts using List.reverseRecOn with
  | nil => rfl
  | append_singleton ts t ih =>
      rw [apart_append, place_snoc, ← ih]
      by_cases ht : v.starts t = true
      · obtain ⟨value, rfl⟩ := starts_iff.mp ht
        rw [apart_cons_set, Place.read, assigned_set_ne h]
        exact congrArg (place w) (List.append_nil _)
      · rw [← place_snoc, apart, apart, List.filter_cons_of_pos, List.filter_nil]
        rw [eq_false_of_ne_true ht]
        rfl

/-- Without a `VAR=` word the flags have none to go to. -/
theorem place_of_not_starts {ts : List Word} (h : ∀ t ∈ ts, v.starts t = false) :
    place v ts = .absent ∨ ∃ ws, place v ts = .hidden ws := by
  induction ts using List.reverseRecOn with
  | nil => exact .inl rfl
  | append_singleton ts t ih =>
      have ht := h t (List.mem_append_right _ List.mem_cons_self)
      rw [place_snoc, Place.read, ht]
      cases assigned v t with
      | none => exact ih fun x hx => h x (List.mem_append_left _ hx)
      | some value =>
          rcases ih fun x hx => h x (List.mem_append_left _ hx) with hp | ⟨ws, hp⟩
          · rw [hp]
            exact .inr ⟨_, rfl⟩
          · rw [hp]
            exact .inr ⟨_, rfl⟩

/-- From a `VAR=` word on: nothing assigns, or what does covers it whatever it held. -/
theorem foldl_read_heard (v : FlagVar) (back : List Word) :
    (∀ ws, back.foldl (Place.read v) (.heard ws) = .heard ws) ∨
      ∃ cs, ∀ ws, back.foldl (Place.read v) (.heard ws) = .covered cs := by
  induction back using List.reverseRecOn with
  | nil => exact .inl fun _ => rfl
  | append_singleton back t ih =>
      simp only [List.foldl_append, List.foldl_cons, List.foldl_nil, Place.read]
      cases assigned v t with
      | none => exact ih
      | some value =>
          refine .inr ⟨words value, fun ws => ?_⟩
          rcases ih with ih | ⟨cs, ih⟩
          · rw [ih]
            rfl
          · rw [ih]
            rfl

/-- The place of words whose first `VAR=` word is there to see. -/
theorem place_first {front : List Word} (h : ∀ t ∈ front, v.starts t = false)
    (value : List Char) (back : List Word) :
    place v (front ++ v.set value :: back) =
      back.foldl (Place.read v) (.heard (words value)) := by
  rw [place, List.foldl_append, ← place, List.foldl_cons, Place.read, assigned_set, starts_set]
  rcases place_of_not_starts h with hp | ⟨ws, hp⟩
  · rw [hp]
    rfl
  · rw [hp]
    rfl

/-- A merge into the first `VAR=` word. -/
theorem place_merged {front : List Word} (h : ∀ t ∈ front, v.starts t = false)
    (flags value : List Char) (back : List Word) :
    let p := place v (front ++ v.set value :: back)
    let q := place v (front ++ v.set (strip (value ++ ' ' :: flags)) :: back)
    q = p.addLast (words flags) ∧ q = p.addFirst (words flags) := by
  intro p q
  have hp : p = _ := place_first h value back
  have hq : q = _ := place_first h _ back
  rw [hp, hq, words_merged]
  rcases foldl_read_heard v back with hb | ⟨cs, hb⟩
  · rw [hb, hb]
    exact ⟨rfl, rfl⟩
  · rw [hb, hb]
    exact ⟨rfl, rfl⟩

theorem place_mergeLast (v : FlagVar) (flags : List Char) (ts : List Word) :
    place v (mergeLast v flags ts) = (place v ts).addLast (words flags) := by
  rw [mergeLast]
  split
  · next hnone =>
      rw [List.findIdx?_eq_none_iff] at hnone
      rw [place_first hnone, List.foldl_nil]
      rcases place_of_not_starts hnone with hp | ⟨ws, hp⟩
      · rw [hp]
        rfl
      · rw [hp]
        rfl
  · next i hi =>
      obtain ⟨front, value, back, rfl, hfront, hmod⟩ := modify_first hi flags
      rw [hmod]
      exact (place_merged hfront flags value back).1

/-- What is behind a word put in front covers it, or says nothing. -/
theorem foldl_read_front {ts : List Word} (h : ∀ t ∈ ts, v.starts t = false) (flags : List Word) :
    ts.foldl (Place.read v) (.heard flags) = (place v ts).addFirst flags := by
  induction ts using List.reverseRecOn with
  | nil => rfl
  | append_singleton ts t ih =>
      have hts : ∀ x ∈ ts, v.starts x = false := fun x hx => h x (List.mem_append_left _ hx)
      have ht := h t (List.mem_append_right _ List.mem_cons_self)
      rw [List.foldl_append, List.foldl_cons, List.foldl_nil, ih hts, place_snoc, Place.read,
        Place.read, ht]
      cases assigned v t with
      | none => rfl
      | some value =>
          rcases place_of_not_starts hts with hp | ⟨ws, hp⟩
          · rw [hp]
            rfl
          · rw [hp]
            rfl

theorem place_mergeFirst {parts : List Word} (h : ∀ t ∈ parts, assigned v t = none)
    (flags : List Char) (ts : List Word) :
    place v ((mergeFirst v flags parts ts).1 ++ (mergeFirst v flags parts ts).2) =
      (place v ts).addFirst (words flags) := by
  rw [mergeFirst]
  split
  · next hnone =>
      rw [List.findIdx?_eq_none_iff] at hnone
      rw [List.append_assoc, List.singleton_append, place_append_of_none h, ← List.nil_append (_ :: ts),
        place_first (fun _ hmem => absurd hmem List.not_mem_nil), foldl_read_front hnone]
  · next i hi =>
      obtain ⟨front, value, back, rfl, hfront, hmod⟩ := modify_first hi flags
      rw [hmod, place_append_of_none h]
      exact (place_merged hfront flags value back).2

end

end KdevopsNg.Kernel
