/-
# `Fstests.CompareRuns` — the report of a comparison

`_compare` of `scripts/compare-fstests-runs.py`.  The tests of both universes are put by
their pair of statuses, and the pairs are taken out one after the other:

    seven pairs           each listed under a label of its own
    notrun, notrun        kept for the count of the unchanged
    one side unrecorded   the record gaps, but for an unrecorded test that failed, listed
    neither recorded      counted
    what is left          the passed on both sides, and the other transitions

Each test is in exactly one of the groups, when the common failures count with the
unchanged, and the sizes are those of the groups (`compare_conserves`).
-/
import Mathlib.Algebra.BigOperators.Group.Finset.Piecewise
import Mathlib.Data.Finset.Sort
import Mathlib.Data.String.Basic
import KdevopsNg.Fstests.Compare
import KdevopsNg.Py.Group
import KdevopsNg.Py.Regex

namespace KdevopsNg.Fstests.Compare

open Py

/-! ## What is compared -/

/-- What is read of a manifest. -/
structure Manifest where
  tests : Dict Rec
  requested : Option (List String)
  truncated : Bool

/-- The order in which a set is gone through; Python leaves it open. -/
structure SetOrder where
  iter : Finset String → List String
  nodup : ∀ s, (iter s).Nodup
  mem_iter : ∀ s t, t ∈ iter s ↔ t ∈ s

/-- The status of a test in a run, or that the run did not record it. -/
inductive Outcome
  | recorded (status : TestStatus)
  | notrecorded
  deriving DecidableEq

/-- The statuses of a test on both sides. -/
abbrev Pair := Outcome × Outcome

abbrev Buckets := Map Pair (List String)

/-- `_status`. -/
def status (m : Manifest) (test : String) : Outcome :=
  match Dict.get? m.tests test with
  | some rec => .recorded rec.status
  | none => .notrecorded

/-- `a or b`, of texts. -/
def orText (a b : String) : String := if a = "" then b else a

/-- `_why`. -/
def why (m : Manifest) (test : String) : String :=
  match Dict.get? m.tests test with
  | some rec => orText (rec.reason.getD "") (rec.message.getD "")
  | none => ""

/-- The tests a side is compared on: those requested, or those recorded where the requested
set is not known. -/
def universeOf (m : Manifest) : Finset String :=
  match m.requested with
  | some requested => requested.toFinset
  | none => (Dict.keys m.tests).toFinset

/-! ## What is printed -/

/-- The blocks of the report. -/
inductive Block
  | note (label why : String)
  | scope (n : ℕ)
  | group (key : Pair) (label : String) (tests : List (String × String))
  | reasons (tests : List (String × String × String))
  | swings (n : ℕ) (first : List (String × ℤ × ℤ))
  | gaps (counts : List (Pair × ℕ))
  | never (n : ℕ)
  | other (counts : List (Pair × ℕ))
  | unchanged (n common : ℕ)
  | only (label : String) (n : ℕ) (truncated : Bool) (byStatus : Map Outcome ℕ)
      (failed : List (String × String))

/-- A call of `show`. -/
structure Display where
  key : Pair
  label : String
  why : Bool

/-- The calls of `show`, in order. -/
def displays : List Display :=
  [⟨(.recorded .passed, .recorded .failed), "REGRESSION CANDIDATES (pass -> fail)", true⟩,
    ⟨(.recorded .notrun, .recorded .failed), "NEW FAILURES from previously-notrun", true⟩,
    ⟨(.notrecorded, .recorded .failed), "FAILURES among tests the baseline never recorded", true⟩,
    ⟨(.recorded .failed, .recorded .passed), "FIXED (fail -> pass)", false⟩,
    ⟨(.recorded .failed, .recorded .failed), "COMMON FAILURES (fail in both)", false⟩,
    ⟨(.recorded .passed, .recorded .notrun), "COVERAGE LOST (pass -> notrun)", true⟩,
    ⟨(.recorded .notrun, .recorded .passed), "COVERAGE GAINED (notrun -> pass)", false⟩]

/-- A block of a list, where there is something in the list. -/
def blockOf {α : Type} (block : List α → Block) (xs : List α) : List Block :=
  match xs with
  | [] => []
  | x :: xs => [block (x :: xs)]

/-- `_DEV_RE`. -/
def devRe (u : Unicode) : Regex :=
  let digits := Re.plus fun c => (u.digit? c).isSome
  ⟨"(?:/dev/)?nvme\\d+n\\d+(?:p\\d+)?",
    Re.seqs [.opt (Re.lit "/dev/".toList), Re.lit "nvme".toList, digits, Re.lit "n".toList,
      digits, .opt (.seq (Re.lit "p".toList) digits)]⟩

/-- `norm`. -/
def norm (u : Unicode) (reason : String) : List Char :=
  (devRe u).sub false "<dev>".toList reason.toList

section
variable (u : Unicode) (order : SetOrder) (base cand : Manifest)

/-- The pair of a test. -/
def pairOf (t : String) : Pair := (status base t, status cand t)

/-- What both sides are compared on. -/
def scope : Finset String := universeOf base ∩ universeOf cand

/-- `show`: the block of a pair, and the buckets without it. -/
def display (d : Display) (buckets : Buckets) : List Block × Buckets :=
  let detail := fun t => if d.why then orText (why cand t) (why base t) else ""
  (blockOf (.group d.key d.label) ((Dict.bucket buckets d.key).map fun t => (t, detail t)),
    Dict.erase buckets d.key)

/-- The calls of `show`, one after the other. -/
def displayAll : List Display → Buckets → List Block × Buckets
  | [], buckets => ([], buckets)
  | d :: ds, buckets =>
      let shown := display base cand d buckets
      let rest := displayAll ds shown.2
      (shown.1 ++ rest.1, rest.2)

/-- The tests that did not run on either side, for other reasons. -/
def drifted (bothNotrun : List String) : List (String × String × String) :=
  (bothNotrun.filter fun t => norm u (why base t) ≠ norm u (why cand t)).map fun t =>
    (t, why base t, why cand t)

/-- The times of a test that took twice as long on one side as on the other. -/
def swingOf (t : String) : Option (String × ℤ × ℤ) :=
  match (Dict.get? base.tests t).bind Rec.timeS, (Dict.get? cand.tests t).bind Rec.timeS with
  | some b, some c =>
      if max b c < 10 then none
      else if min b c * 2 ≤ max b c then some (t, b, c) else none
  | _, _ => none

/-- `swings`, the largest first. -/
def swings (bothPassed : List String) : List (String × ℤ × ℤ) :=
  Py.sortBy (fun s => -((max s.2.1 s.2.2 : ℤ) / (max (min s.2.1 s.2.2) 1 : ℤ) : ℚ))
    (bothPassed.filterMap (swingOf base cand))

/-- The sizes of the buckets of some pairs. -/
def counts (P : Pair → Bool) (buckets : Buckets) : List (Pair × ℕ) :=
  (buckets.filter fun e => P e.1).map fun e => (e.1, e.2.length)

/-- The pairs of a test that one side alone recorded. -/
def isGap (k : Pair) : Bool :=
  (k.1 = .notrecorded || k.2 = .notrecorded) && k ≠ (.notrecorded, .notrecorded)

/-- `by_status`, of tests in the order they are gone through. -/
def byStatus (m : Manifest) (tests : List String) : Map Outcome ℕ :=
  tests.foldl (fun d t => Dict.set d (status m t) ((Dict.get? d (status m t)).getD 0 + 1)) []

/-- The block of the tests that are in the universe of one side alone. -/
def onlyBlock (label : String) (only : Finset String) (m other : Manifest) : List Block :=
  if only = ∅ then []
  else
    let failed := (only.sort (· ≤ ·)).filter fun t => status m t = .recorded .failed
    [.only label only.card other.truncated (byStatus m (order.iter only))
      (failed.map fun t => (t, why m t))]

/-- What is said of a side whose requested set is not known. -/
def noteBlock (label : String) (m : Manifest) : List Block :=
  match m.requested with
  | some _ => []
  | none => [.note label (if m.truncated then "truncated" else "unknown")]

/-- `_compare`. -/
def compare : List Block :=
  let buckets := Dict.groupBy (pairOf base cand) ((scope base cand).sort (· ≤ ·))
  let common := (Dict.bucket buckets (.recorded .failed, .recorded .failed)).length
  let shown := displayAll base cand displays buckets
  let bothNotrun := Dict.bucket shown.2 (.recorded .notrun, .recorded .notrun)
  let buckets := Dict.erase shown.2 (.recorded .notrun, .recorded .notrun)
  let swung := swings base cand (Dict.bucket buckets (.recorded .passed, .recorded .passed))
  let gaps := counts isGap buckets
  let buckets := Dict.eraseAll buckets (gaps.map Prod.fst)
  let never := Dict.bucket buckets (.notrecorded, .notrecorded)
  let buckets := Dict.erase buckets (.notrecorded, .notrecorded)
  let unchanged := Dict.countAt (fun k => k.1 = k.2) buckets + (bothNotrun.length + common)
  noteBlock "baseline" base ++ noteBlock "candidate" cand ++ [.scope (scope base cand).card] ++
    shown.1 ++ blockOf .reasons (drifted u base cand bothNotrun) ++
    blockOf (fun swung => .swings swung.length (swung.take 20)) swung ++
    blockOf .gaps gaps ++ blockOf (fun never => .never never.length) never ++
    blockOf .other (counts (fun k => k.1 ≠ k.2) buckets) ++ [.unchanged unchanged common] ++
    onlyBlock order "baseline" (universeOf base \ universeOf cand) base cand ++
    onlyBlock order "candidate" (universeOf cand \ universeOf base) cand base

end

/-! ## The groups -/

namespace Block

/-- The tests on both sides failed. -/
def bothFailed : Pair := (.recorded .failed, .recorded .failed)

/-- A test is in the group that a block reports.  The common failures are in the group of the
unchanged. -/
def covers (pair : String → Pair) (t : String) : Block → Bool
  | group key _ tests => t ∈ tests.map Prod.fst && key ≠ bothFailed
  | gaps counts => pair t ∈ counts.map Prod.fst
  | never _ => pair t = (.notrecorded, .notrecorded)
  | other counts => pair t ∈ counts.map Prod.fst
  | unchanged _ _ => (pair t).1 = (pair t).2 && pair t ≠ (.notrecorded, .notrecorded)
  | note _ _ => false
  | scope _ => false
  | reasons _ => false
  | swings _ _ => false
  | only _ _ _ _ _ => false

/-- The size that a block reports of its group. -/
def size : Block → ℕ
  | group key _ tests => if key = bothFailed then 0 else tests.length
  | gaps counts => (counts.map Prod.snd).sum
  | never n => n
  | other counts => (counts.map Prod.snd).sum
  | unchanged n _ => n
  | note _ _ => 0
  | scope _ => 0
  | reasons _ => 0
  | swings _ _ => 0
  | only _ _ _ _ _ => 0

/-- The block of the unchanged. -/
def isUnchanged : Block → Bool
  | unchanged _ _ => true
  | _ => false

/-- The block of the tests in the universe of a side alone. -/
def isOnly (side : String) : Block → Bool
  | only label _ _ _ _ => label = side
  | _ => false

end Block

section
variable (base cand : Manifest)

/-- The tests of a side's universe alone are counted under it, each by its status. -/
def CountedOnce (label : String) (only : Finset String) (m : Manifest) (blocks : List Block) : Prop :=
  if only = ∅ then blocks.filter (Block.isOnly label) = []
  else ∃ truncated byStatus failed,
    blocks.filter (Block.isOnly label) = [.only label only.card truncated byStatus failed] ∧
      ∀ o, (Dict.get? byStatus o).getD 0 = (only.filter fun t => status m t = o).card

/-- What a report of a comparison conserves. -/
structure Conserves (blocks : List Block) : Prop where
  once : ∀ t ∈ scope base cand, blocks.countP (Block.covers (pairOf base cand) t) = 1
  sizes : ∀ block ∈ blocks,
    block.size = ((scope base cand).filter fun t => block.covers (pairOf base cand) t).card
  total : (blocks.map Block.size).sum = (scope base cand).card
  listed : ∀ key label tests, .group key label tests ∈ blocks →
    tests.map Prod.fst = ((scope base cand).sort (· ≤ ·)).filter fun t => pairOf base cand t = key
  common : ∀ t ∈ scope base cand, pairOf base cand t = Block.bothFailed →
    ∃ label tests, .group Block.bothFailed label tests ∈ blocks
  unchanged : ∃ common, blocks.filter Block.isUnchanged =
      [.unchanged ((scope base cand).filter fun t =>
        status base t = status cand t ∧ status base t ≠ .notrecorded).card common] ∧
    common = ((scope base cand).filter fun t => pairOf base cand t = Block.bothFailed).card
  inBase : CountedOnce "baseline" (universeOf base \ universeOf cand) base blocks
  inCand : CountedOnce "candidate" (universeOf cand \ universeOf base) cand blocks

end

/-! ## The buckets, one after the other -/

section
variable (base cand : Manifest)

/-- The tests of the scope with a pair, in order. -/
def withPair (k : Pair) : List String :=
  ((scope base cand).sort (· ≤ ·)).filter fun t => pairOf base cand t = k

/-- The buckets that the report begins with. -/
def bucketsOf : Buckets := Dict.groupBy (pairOf base cand) ((scope base cand).sort (· ≤ ·))

theorem bucket_bucketsOf (k : Pair) : Dict.bucket (bucketsOf base cand) k = withPair base cand k :=
  Dict.bucket_groupBy _ _ k

/-- The tests of the scope that satisfy `p` are as many in order as without. -/
theorem length_sorted (p : String → Bool) :
    (((scope base cand).sort (· ≤ ·)).filter p).length =
      ((scope base cand).filter fun t => p t = true).card := by
  have hnodup := (Finset.sort_nodup (scope base cand) (· ≤ ·)).filter p
  rw [← List.toFinset_card_of_nodup hnodup, List.toFinset_filter, Finset.sort_toFinset]

theorem length_withPair (k : Pair) :
    (withPair base cand k).length = ((scope base cand).filter fun t => pairOf base cand t = k).card := by
  rw [withPair, length_sorted]
  simp only [decide_eq_true_eq]

theorem mem_withPair {k : Pair} {t : String} :
    t ∈ withPair base cand k ↔ t ∈ scope base cand ∧ pairOf base cand t = k := by
  rw [withPair, List.mem_filter, Finset.mem_sort, decide_eq_true_iff]

/-- The sizes of the buckets with a pair that satisfies `P` are those of the tests. -/
theorem sum_counts (P : Pair → Bool) :
    ((counts P (bucketsOf base cand)).map Prod.snd).sum =
      ((scope base cand).filter fun t => P (pairOf base cand t) = true).card := by
  have hcount : ((counts P (bucketsOf base cand)).map Prod.snd).sum =
      Dict.countAt P (bucketsOf base cand) := by
    rw [counts, List.map_map]
    rfl
  rw [hcount, bucketsOf, Dict.countAt_groupBy, length_sorted]

/-- A pair that satisfies `P` has a size when a test has it. -/
theorem mem_counts {P : Pair → Bool} {t : String} (ht : t ∈ scope base cand) :
    pairOf base cand t ∈ (counts P (bucketsOf base cand)).map Prod.fst ↔
      P (pairOf base cand t) = true := by
  have hkey : pairOf base cand t ∈ Dict.keys (bucketsOf base cand) :=
    (Dict.mem_keys_groupBy _ _ _).mpr ⟨t, (Finset.mem_sort (· ≤ ·)).mpr ht, rfl⟩
  rw [counts, List.map_map, List.mem_map]
  constructor
  · rintro ⟨e, he, heq⟩
    rw [← heq]
    exact (List.mem_filter.mp he).2
  · intro hP
    obtain ⟨e, he, heq⟩ := List.mem_map.mp hkey
    exact ⟨e, List.mem_filter.mpr ⟨he, by rwa [heq]⟩, heq⟩

theorem displayAll_snd (ds : List Display) (buckets : Buckets) :
    (displayAll base cand ds buckets).2 = Dict.eraseAll buckets (ds.map Display.key) := by
  induction ds generalizing buckets with
  | nil => rfl
  | cons d ds ih => exact ih (display base cand d buckets).2

/-- A call takes nothing from the calls after it. -/
theorem displayAll_fst (ds : List Display) (hkeys : (ds.map Display.key).Nodup) (buckets : Buckets) :
    (displayAll base cand ds buckets).1 = ds.flatMap fun d => (display base cand d buckets).1 := by
  induction ds generalizing buckets with
  | nil => rfl
  | cons d ds ih =>
      rw [List.map_cons, List.nodup_cons] at hkeys
      rw [List.flatMap_cons, displayAll, ih hkeys.2]
      refine congrArg ((display base cand d buckets).1 ++ ·) (List.flatMap_congr fun d' hd' => ?_)
      have hne : d'.key ≠ d.key := fun heq => hkeys.1 (heq ▸ List.mem_map_of_mem hd')
      simp only [display, Dict.bucket, Dict.get?_erase_ne _ hne]

/-! ## What each call finds -/

/-- The pairs that the calls of `show` take out. -/
def isShown (k : Pair) : Bool := k ∈ displays.map Display.key

/-- The pairs of the record gaps that are not shown. -/
def isLeftGap (k : Pair) : Bool := isGap k && !isShown k

/-- The other transitions: both sides recorded the test, with two statuses, and the pair is not
shown. -/
def isOther (k : Pair) : Bool :=
  k.1 ≠ k.2 && k.1 ≠ .notrecorded && k.2 ≠ .notrecorded && !isShown k

/-- The pairs that are left at the end. -/
def isLeft (k : Pair) : Bool := isOther k || k = (.recorded .passed, .recorded .passed)

/-- A fact about the statuses of a test is one about sixteen pairs. -/
theorem forall_pair {P : Pair → Prop} (h : ∀ a ∈ [Outcome.recorded .failed, .recorded .notrun,
    .recorded .passed, .notrecorded], ∀ b ∈ [Outcome.recorded .failed, .recorded .notrun,
    .recorded .passed, .notrecorded], P (a, b)) (k : Pair) : P k := by
  have hmem : ∀ a : Outcome, a ∈ [Outcome.recorded .failed, .recorded .notrun,
      .recorded .passed, .notrecorded] := by
    rintro ((_ | _ | _) | _) <;> decide
  exact h k.1 (hmem k.1) k.2 (hmem k.2)

section
variable (buckets : Buckets)

/-- The buckets after the calls of `show`. -/
def afterShown : Buckets := buckets.filter fun e => !isShown e.1

/-- The buckets after the record gaps. -/
def afterGaps : Buckets :=
  Dict.eraseAll (Dict.erase (afterShown buckets) (.recorded .notrun, .recorded .notrun))
    ((counts isGap (Dict.erase (afterShown buckets) (.recorded .notrun, .recorded .notrun))).map
      Prod.fst)

theorem isShown_iff (k : Pair) : isShown k = true ↔ k ∈ displays.map Display.key :=
  ⟨fun h => of_decide_eq_true h, fun h => decide_eq_true h⟩

theorem afterShown_eq : (displayAll base cand displays buckets).2 = afterShown buckets := by
  rw [displayAll_snd]
  refine Dict.eraseAll_eq buckets (P := fun k => !isShown k) fun k => ?_
  rw [Bool.not_eq_true', ← Bool.not_eq_true, isShown_iff]

theorem gaps_eq : counts isGap
    (Dict.erase (afterShown buckets) (.recorded .notrun, .recorded .notrun)) =
      counts isLeftGap buckets := by
  have hall : ∀ k : Pair, (isGap k && decide (k ≠ (.recorded .notrun, .recorded .notrun)) &&
      !isShown k) = isLeftGap k := forall_pair (by decide)
  rw [counts, counts, Dict.erase, afterShown, List.filter_filter, List.filter_filter]
  exact congrArg _ (List.filter_congr fun e _ => hall e.1)

theorem afterGaps_eq : afterGaps buckets = buckets.filter fun e =>
    !isShown e.1 && e.1 ≠ (.recorded .notrun, .recorded .notrun) && !isGap e.1 := by
  have hgap : ∀ k, k ∈ (counts isLeftGap buckets).map Prod.fst ↔
      isLeftGap k = true ∧ k ∈ Dict.keys buckets := by
    intro k
    rw [counts, List.map_map, List.mem_map]
    constructor
    · rintro ⟨e, he, rfl⟩
      exact ⟨(List.mem_filter.mp he).2, List.mem_map_of_mem (List.mem_filter.mp he).1⟩
    · rintro ⟨hleft, hkey⟩
      obtain ⟨e, he, rfl⟩ := List.mem_map.mp hkey
      exact ⟨e, List.mem_filter.mpr ⟨he, hleft⟩, rfl⟩
  have hall : ∀ k : Pair, (!isLeftGap k && (decide (k ≠ (.recorded .notrun, .recorded .notrun)) &&
      !isShown k)) =
        (!isShown k && decide (k ≠ (.recorded .notrun, .recorded .notrun)) && !isGap k) :=
    forall_pair (by decide)
  rw [afterGaps, gaps_eq, Dict.eraseAll_eq _ (P := fun k =>
    decide (k ∉ (counts isLeftGap buckets).map Prod.fst)) fun k => decide_eq_true_iff,
    Dict.erase, afterShown, List.filter_filter, List.filter_filter]
  refine List.filter_congr fun e he => ?_
  rw [← hall e.1]
  have hkey : e.1 ∈ (counts isLeftGap buckets).map Prod.fst ↔ isLeftGap e.1 = true := by
    have hmem : e.1 ∈ Dict.keys buckets := List.mem_map_of_mem he
    rw [hgap, and_iff_left hmem]
  simp only [hkey, Bool.not_eq_true]
  cases isLeftGap e.1 <;> simp

/-- What is left are the other transitions and the tests that passed on both sides. -/
theorem left_eq : Dict.erase (afterGaps buckets) (.notrecorded, .notrecorded) =
    buckets.filter fun e => isLeft e.1 := by
  have hall : ∀ k : Pair, (decide (k ≠ (.notrecorded, .notrecorded)) && (!isShown k &&
      decide (k ≠ (.recorded .notrun, .recorded .notrun)) && !isGap k)) = isLeft k :=
    forall_pair (by decide)
  rw [Dict.erase, afterGaps_eq, List.filter_filter]
  exact List.filter_congr fun e _ => hall e.1

end

/-- The buckets of the pairs that satisfy `P` hold the tests with such a pair. -/
theorem bucket_kept (P : Pair → Bool) (k : Pair) :
    Dict.bucket ((bucketsOf base cand).filter fun e => P e.1) k =
      if P k then withPair base cand k else [] := by
  rw [Dict.bucket_filter, bucket_bucketsOf]

/-- The report, told of the buckets it begins with. -/
theorem compare_eq (u : Unicode) (order : SetOrder) : compare u order base cand =
    noteBlock "baseline" base ++ noteBlock "candidate" cand ++ [.scope (scope base cand).card] ++
      displays.flatMap (fun d => (display base cand d (bucketsOf base cand)).1) ++
      blockOf .reasons
        (drifted u base cand (withPair base cand (.recorded .notrun, .recorded .notrun))) ++
      blockOf (fun swung => .swings swung.length (swung.take 20))
        (swings base cand (withPair base cand (.recorded .passed, .recorded .passed))) ++
      blockOf .gaps (counts isLeftGap (bucketsOf base cand)) ++
      blockOf (fun never => .never never.length)
        (withPair base cand (.notrecorded, .notrecorded)) ++
      blockOf .other (counts isOther (bucketsOf base cand)) ++
      [.unchanged ((withPair base cand (.recorded .passed, .recorded .passed)).length +
        ((withPair base cand (.recorded .notrun, .recorded .notrun)).length +
          (withPair base cand Block.bothFailed).length))
        (withPair base cand Block.bothFailed).length] ++
      onlyBlock order "baseline" (universeOf base \ universeOf cand) base cand ++
      onlyBlock order "candidate" (universeOf cand \ universeOf base) cand base := by
  have hnotrun : Dict.bucket (afterShown (bucketsOf base cand)) (.recorded .notrun, .recorded .notrun) =
      withPair base cand (.recorded .notrun, .recorded .notrun) :=
    bucket_kept base cand (fun k => !isShown k) _
  have hpassed : Dict.bucket (Dict.erase (afterShown (bucketsOf base cand))
      (.recorded .notrun, .recorded .notrun)) (.recorded .passed, .recorded .passed) =
        withPair base cand (.recorded .passed, .recorded .passed) := by
    rw [Dict.bucket, Dict.get?_erase_ne _ (by decide)]
    exact bucket_kept base cand (fun k => !isShown k) _
  have hnever : Dict.bucket (afterGaps (bucketsOf base cand)) (.notrecorded, .notrecorded) =
      withPair base cand (.notrecorded, .notrecorded) := by
    rw [afterGaps_eq]
    exact bucket_kept base cand (fun k => !isShown k &&
      decide (k ≠ (.recorded .notrun, .recorded .notrun)) && !isGap k) _
  have hcount : Dict.countAt (fun k => k.1 = k.2)
      ((bucketsOf base cand).filter fun e => isLeft e.1) =
        (withPair base cand (.recorded .passed, .recorded .passed)).length := by
    have hall : ∀ k : Pair, (decide (k.1 = k.2) && isLeft k) =
        decide (k = (.recorded .passed, .recorded .passed)) := forall_pair (by decide)
    rw [Dict.countAt_filter, bucketsOf, Dict.countAt_groupBy, withPair]
    exact congrArg List.length (List.filter_congr fun t _ => hall _)
  have hother : counts (fun k => k.1 ≠ k.2)
      ((bucketsOf base cand).filter fun e => isLeft e.1) = counts isOther (bucketsOf base cand) := by
    have hall : ∀ k : Pair, (decide (k.1 ≠ k.2) && isLeft k) = isOther k := forall_pair (by decide)
    rw [counts, counts, List.filter_filter]
    exact congrArg _ (List.filter_congr fun e _ => hall e.1)
  have hbuckets : Dict.groupBy (pairOf base cand) ((scope base cand).sort (· ≤ ·)) =
    bucketsOf base cand := rfl
  rw [compare, displayAll_fst _ _ _ (by decide), afterShown_eq, hbuckets, hnotrun, hpassed,
    ← afterGaps, left_eq, hnever, gaps_eq, hcount, hother, bucket_bucketsOf]
  rfl

end

/-! ## Each test once -/

/-- Every pair is of one of the groups. -/
theorem groups_partition : ∀ k : Pair,
    (displays.map fun d => if k = d.key ∧ d.key ≠ Block.bothFailed then 1 else 0).sum +
      (if isLeftGap k then 1 else 0) + (if k = (.notrecorded, .notrecorded) then 1 else 0) +
      (if isOther k then 1 else 0) +
      (if k.1 = k.2 ∧ k ≠ (.notrecorded, .notrecorded) then 1 else 0) = 1 :=
  forall_pair (by decide)

section
variable {base cand : Manifest}

/-- A block over a list counts once, when there is something in the list. -/
theorem countP_blockOf {α : Type} (p : Block → Bool) (block : List α → Block) (xs : List α) :
    (blockOf block xs).countP p = if xs ≠ [] ∧ p (block xs) = true then 1 else 0 := by
  cases xs with
  | nil => rfl
  | cons x xs =>
      rw [blockOf, List.countP_singleton]
      simp

variable {t : String} (ht : t ∈ scope base cand)
include ht

/-- The call of `show` for its pair covers a test, but for the common failures. -/
theorem countP_display (d : Display) :
    (display base cand d (bucketsOf base cand)).1.countP (Block.covers (pairOf base cand) t) =
      if pairOf base cand t = d.key ∧ d.key ≠ Block.bothFailed then 1 else 0 := by
  rw [display, countP_blockOf]
  refine if_congr ?_ rfl rfl
  rw [bucket_bucketsOf, Block.covers, Bool.and_eq_true, decide_eq_true_iff, decide_eq_true_iff,
    List.map_map, ← and_assoc]
  refine and_congr_left fun _ => ?_
  constructor
  · rintro ⟨-, hmem⟩
    obtain ⟨t', ht', rfl⟩ := List.mem_map.mp hmem
    exact ((mem_withPair base cand).mp ht').2
  · intro hpair
    have hmem := (mem_withPair base cand).mpr ⟨ht, hpair⟩
    exact ⟨fun hnil => List.ne_nil_of_mem hmem (List.map_eq_nil_iff.mp hnil),
      List.mem_map.mpr ⟨t, hmem, rfl⟩⟩

/-- A block of sizes covers the tests whose pair it counts. -/
theorem countP_counts (block : List (Pair × ℕ) → Block) (P : Pair → Bool)
    (hblock : ∀ c, (block c).covers (pairOf base cand) t =
      decide (pairOf base cand t ∈ c.map Prod.fst)) :
    (blockOf block (counts P (bucketsOf base cand))).countP
      (Block.covers (pairOf base cand) t) = if P (pairOf base cand t) then 1 else 0 := by
  rw [countP_blockOf]
  refine if_congr ?_ rfl rfl
  rw [hblock, decide_eq_true_iff, mem_counts base cand ht, and_iff_right_iff_imp]
  intro hP hnil
  have hmem := (mem_counts base cand ht).mpr hP
  rw [hnil] at hmem
  exact absurd hmem List.not_mem_nil

theorem countP_never :
    (blockOf (fun never : List String => .never never.length)
      (withPair base cand (.notrecorded, .notrecorded))).countP
        (Block.covers (pairOf base cand) t) =
      if pairOf base cand t = (.notrecorded, .notrecorded) then 1 else 0 := by
  rw [countP_blockOf]
  refine if_congr ?_ rfl rfl
  rw [Block.covers, decide_eq_true_iff, and_iff_right_iff_imp]
  exact fun hpair => List.ne_nil_of_mem ((mem_withPair base cand).mpr ⟨ht, hpair⟩)

omit ht in
theorem countP_note (label : String) (m : Manifest) :
    (noteBlock label m).countP (Block.covers (pairOf base cand) t) = 0 := by
  rw [noteBlock]
  cases m.requested with
  | some requested => rfl
  | none => rfl

omit ht in
theorem countP_only (order : SetOrder) (label : String) (only : Finset String) (m other : Manifest) :
    (onlyBlock order label only m other).countP (Block.covers (pairOf base cand) t) = 0 := by
  rw [onlyBlock]
  split_ifs
  · rfl
  · rfl

theorem covered_once (u : Unicode) (order : SetOrder) :
    (compare u order base cand).countP (Block.covers (pairOf base cand) t) = 1 := by
  have hgaps := countP_counts ht .gaps isLeftGap fun _ => rfl
  have hother := countP_counts ht .other isOther fun _ => rfl
  have hreasons := countP_blockOf (Block.covers (pairOf base cand) t) .reasons
    (drifted u base cand (withPair base cand (.recorded .notrun, .recorded .notrun)))
  have hswings := countP_blockOf (Block.covers (pairOf base cand) t)
    (fun swung => .swings swung.length (swung.take 20))
    (swings base cand (withPair base cand (.recorded .passed, .recorded .passed)))
  have hshown : (displays.flatMap fun d => (display base cand d (bucketsOf base cand)).1).countP
      (Block.covers (pairOf base cand) t) = (displays.map fun d =>
        if pairOf base cand t = d.key ∧ d.key ≠ Block.bothFailed then 1 else 0).sum := by
    rw [List.countP_flatMap]
    exact congrArg List.sum (List.map_congr_left fun d _ => countP_display ht d)
  have hunchanged : ∀ n c, [Block.unchanged n c].countP (Block.covers (pairOf base cand) t) =
      if (pairOf base cand t).1 = (pairOf base cand t).2 ∧
        pairOf base cand t ≠ (.notrecorded, .notrecorded) then 1 else 0 := by
    intro n c
    rw [List.countP_singleton]
    refine if_congr ?_ rfl rfl
    rw [Block.covers, Bool.and_eq_true, decide_eq_true_iff, decide_eq_true_iff]
  have hscope : [Block.scope (scope base cand).card].countP
    (Block.covers (pairOf base cand) t) = 0 := rfl
  rw [if_neg (by rintro ⟨-, h⟩; cases h)] at hreasons hswings
  rw [compare_eq]
  simp only [List.countP_append, hshown, hgaps, hother, hreasons, hswings, countP_never ht,
    hunchanged, hscope, countP_note, countP_only, Nat.zero_add, Nat.add_zero]
  exact groups_partition (pairOf base cand t)

end

/-! ## The sizes -/

section
variable {base cand : Manifest}

/-- A block says how many tests its group has. -/
def Block.Sized (base cand : Manifest) (block : Block) : Prop :=
  block.size = ((Compare.scope base cand).filter fun t => block.covers (pairOf base cand) t).card

theorem mem_blockOf {α : Type} {block : List α → Block} {xs : List α} {b : Block} :
    b ∈ blockOf block xs ↔ xs ≠ [] ∧ b = block xs := by
  cases xs with
  | nil => simp [blockOf]
  | cons x xs => simp [blockOf]

theorem sized_display (d : Display) :
    ∀ b ∈ (display base cand d (bucketsOf base cand)).1, b.Sized base cand := by
  intro b hb
  obtain ⟨-, rfl⟩ := mem_blockOf.mp hb
  rw [Block.Sized, Block.size, bucket_bucketsOf]
  by_cases hboth : d.key = Block.bothFailed
  · rw [if_pos hboth]
    simp [Block.covers, hboth]
  · rw [if_neg hboth, List.length_map, length_withPair]
    refine congrArg Finset.card (Finset.filter_congr fun t ht => ?_)
    rw [Block.covers, List.map_map, Bool.and_eq_true, decide_eq_true_iff, decide_eq_true_iff,
      and_iff_left hboth, List.mem_map]
    constructor
    · exact fun hpair => ⟨t, (mem_withPair base cand).mpr ⟨ht, hpair⟩, rfl⟩
    · rintro ⟨t', ht', rfl⟩
      exact ((mem_withPair base cand).mp ht').2

theorem sized_counts (block : List (Pair × ℕ) → Block) (P : Pair → Bool)
    (hcovers : ∀ t c, (block c).covers (pairOf base cand) t =
      decide (pairOf base cand t ∈ c.map Prod.fst))
    (hsize : ∀ c, (block c).size = (c.map Prod.snd).sum) :
    ∀ b ∈ blockOf block (counts P (bucketsOf base cand)), b.Sized base cand := by
  intro b hb
  obtain ⟨-, rfl⟩ := mem_blockOf.mp hb
  rw [Block.Sized, hsize, sum_counts]
  refine congrArg Finset.card (Finset.filter_congr fun t ht => ?_)
  rw [hcovers, decide_eq_true_iff, mem_counts base cand ht]

theorem sized_never : ∀ b ∈ blockOf (fun never : List String => .never never.length)
    (withPair base cand (.notrecorded, .notrecorded)), b.Sized base cand := by
  intro b hb
  obtain ⟨-, rfl⟩ := mem_blockOf.mp hb
  rw [Block.Sized, Block.size, length_withPair]
  refine congrArg Finset.card (Finset.filter_congr fun t _ => ?_)
  rw [Block.covers, decide_eq_true_iff]

/-- The tests that kept their status are those that passed, did not run or failed on both
sides. -/
theorem card_kept : (withPair base cand (.recorded .passed, .recorded .passed)).length +
    ((withPair base cand (.recorded .notrun, .recorded .notrun)).length +
      (withPair base cand Block.bothFailed).length) =
    ((scope base cand).filter fun t =>
      status base t = status cand t ∧ status base t ≠ .notrecorded).card := by
  have hall : ∀ k : Pair, (if k = (.recorded .passed, .recorded .passed) then 1 else 0) +
      ((if k = (.recorded .notrun, .recorded .notrun) then 1 else 0) +
        (if k = Block.bothFailed then 1 else 0)) =
      if k.1 = k.2 ∧ k.1 ≠ .notrecorded then 1 else 0 := forall_pair (by decide)
  rw [length_withPair, length_withPair, length_withPair, Finset.card_filter, Finset.card_filter,
    Finset.card_filter, Finset.card_filter, ← Finset.sum_add_distrib, ← Finset.sum_add_distrib]
  exact Finset.sum_congr rfl fun t _ => hall (pairOf base cand t)

theorem sized_unchanged (common : ℕ) :
    (Block.unchanged ((withPair base cand (.recorded .passed, .recorded .passed)).length +
      ((withPair base cand (.recorded .notrun, .recorded .notrun)).length +
        (withPair base cand Block.bothFailed).length)) common).Sized base cand := by
  have hall : ∀ k : Pair, (decide (k.1 = k.2) && decide (k ≠ (.notrecorded, .notrecorded))) = true ↔
      k.1 = k.2 ∧ k.1 ≠ .notrecorded := forall_pair (by decide)
  rw [Block.Sized, Block.size, card_kept]
  exact congrArg Finset.card (Finset.filter_congr fun t _ => (hall (pairOf base cand t)).symm)

/-- A block that covers nothing and has no size. -/
theorem sized_of_empty {b : Block} (hsize : b.size = 0)
    (hcovers : ∀ t, b.covers (pairOf base cand) t = false) : b.Sized base cand := by
  rw [Block.Sized, hsize]
  simp [hcovers]

theorem sized_note (label : String) (m : Manifest) :
    ∀ b ∈ noteBlock label m, b.Sized base cand := by
  rw [noteBlock]
  cases m.requested with
  | some requested => exact fun b hb => absurd hb List.not_mem_nil
  | none =>
      intro b hb
      rw [List.mem_singleton.mp hb]
      exact sized_of_empty rfl fun _ => rfl

theorem sized_only (order : SetOrder) (label : String) (only : Finset String) (m other : Manifest) :
    ∀ b ∈ onlyBlock order label only m other, b.Sized base cand := by
  rw [onlyBlock]
  split_ifs
  · exact fun b hb => absurd hb List.not_mem_nil
  · intro b hb
    rw [List.mem_singleton.mp hb]
    exact sized_of_empty rfl fun _ => rfl

theorem sized_compare (u : Unicode) (order : SetOrder) :
    ∀ b ∈ compare u order base cand, b.Sized base cand := by
  have hempty : ∀ {α : Type} {block : List α → Block} {xs : List α},
      (∀ xs, (block xs).size = 0) → (∀ xs t, (block xs).covers (pairOf base cand) t = false) →
        ∀ b ∈ blockOf block xs, b.Sized base cand := by
    intro α block xs hsize hcovers b hb
    obtain ⟨-, rfl⟩ := mem_blockOf.mp hb
    exact sized_of_empty (hsize xs) (hcovers xs)
  rw [compare_eq]
  simp only [List.forall_mem_append, List.forall_mem_singleton]
  refine ⟨⟨⟨⟨⟨⟨⟨⟨⟨⟨⟨?_, ?_⟩, ?_⟩, ?_⟩, ?_⟩, ?_⟩, ?_⟩, ?_⟩, ?_⟩, ?_⟩, ?_⟩, ?_⟩
  · exact sized_note _ base
  · exact sized_note _ cand
  · exact sized_of_empty rfl fun _ => rfl
  · intro b hb
    obtain ⟨d, -, hb⟩ := List.mem_flatMap.mp hb
    exact sized_display d b hb
  · exact hempty (fun _ => rfl) fun _ _ => rfl
  · exact hempty (fun _ => rfl) fun _ _ => rfl
  · exact sized_counts .gaps isLeftGap (fun _ _ => rfl) fun _ => rfl
  · exact sized_never
  · exact sized_counts .other isOther (fun _ _ => rfl) fun _ => rfl
  · exact sized_unchanged _
  · exact sized_only order _ _ base cand
  · exact sized_only order _ _ cand base

/-- Where every block says how many tests its group has, and every test is in one group, the
sizes are those of the scope. -/
theorem sum_sizes {blocks : List Block} (hsizes : ∀ b ∈ blocks, b.Sized base cand)
    (honce : ∀ t ∈ scope base cand, blocks.countP (Block.covers (pairOf base cand) t) = 1) :
    (blocks.map Block.size).sum = (scope base cand).card := by
  have hsum : (blocks.map Block.size).sum =
      ∑ t ∈ scope base cand, blocks.countP (Block.covers (pairOf base cand) t) := by
    clear honce
    induction blocks with
    | nil => simp
    | cons b blocks ih =>
        have hhead : b.size = _ := hsizes b List.mem_cons_self
        rw [List.map_cons, List.sum_cons, ih fun b' hb' => hsizes b' (List.mem_cons_of_mem b hb'),
          hhead, Finset.card_filter, ← Finset.sum_add_distrib]
        refine Finset.sum_congr rfl fun t _ => ?_
        rw [List.countP_cons, Nat.add_comm]
  rw [hsum, Finset.sum_congr rfl honce, Finset.card_eq_sum_ones]

/-! ## What the report says once -/

/-- A block in front of the one of the unchanged. -/
def Block.isFront : Block → Bool
  | unchanged _ _ => false
  | only _ _ _ _ _ => false
  | _ => true

/-- The blocks in front of the one of the unchanged. -/
theorem compare_split (base cand : Manifest) (u : Unicode) (order : SetOrder) : ∃ front,
    compare u order base cand = front ++
      [.unchanged ((scope base cand).filter fun t =>
        status base t = status cand t ∧ status base t ≠ .notrecorded).card
        (withPair base cand Block.bothFailed).length] ++
      onlyBlock order "baseline" (universeOf base \ universeOf cand) base cand ++
      onlyBlock order "candidate" (universeOf cand \ universeOf base) cand base ∧
    (∀ b ∈ front, b.isFront = true) ∧
    ∀ key label tests, .group key label tests ∈ front ↔
      ∃ d ∈ displays, .group key label tests ∈ (display base cand d (bucketsOf base cand)).1 := by
  have hblock : ∀ {α : Type} {block : List α → Block} {xs : List α},
      (∀ xs, (block xs).isFront = true) → ∀ b ∈ blockOf block xs, b.isFront = true := by
    intro α block xs h b hb
    obtain ⟨-, rfl⟩ := mem_blockOf.mp hb
    exact h xs
  have hnote : ∀ label m, ∀ b ∈ noteBlock label m, b.isFront = true := by
    intro label m b hb
    rw [noteBlock] at hb
    cases hm : m.requested with
    | some requested =>
        rw [hm] at hb
        exact absurd hb List.not_mem_nil
    | none =>
        rw [hm] at hb
        rw [List.mem_singleton.mp hb]
        rfl
  refine ⟨_, by rw [compare_eq, card_kept], ?_, ?_⟩
  · simp only [List.forall_mem_append, List.forall_mem_singleton]
    refine ⟨⟨⟨⟨⟨⟨⟨⟨hnote _ _, hnote _ _⟩, rfl⟩, ?_⟩, ?_⟩, ?_⟩, ?_⟩, ?_⟩, ?_⟩
    · intro b hb
      obtain ⟨d, -, hb⟩ := List.mem_flatMap.mp hb
      exact hblock (fun _ => rfl) b hb
    · exact hblock fun _ => rfl
    · exact hblock fun _ => rfl
    · exact hblock fun _ => rfl
    · exact hblock fun _ => rfl
    · exact hblock fun _ => rfl
  · intro key label tests
    have hother : ∀ {α : Type} {block : List α → Block} {xs : List α},
        (∀ xs, block xs ≠ .group key label tests) → .group key label tests ∉ blockOf block xs :=
      fun h hmem => h _ (mem_blockOf.mp hmem).2.symm
    have hnotes : ∀ side m, .group key label tests ∉ noteBlock side m := by
      intro side m
      rw [noteBlock]
      cases m.requested <;> simp
    constructor
    · intro hmem
      simp only [List.mem_append] at hmem
      rcases hmem with (((((((hmem | hmem) | hmem) | hmem) | hmem) | hmem) | hmem) | hmem) | hmem
      · exact absurd hmem (hnotes _ _)
      · exact absurd hmem (hnotes _ _)
      · cases List.mem_singleton.mp hmem
      · exact List.mem_flatMap.mp hmem
      · exact absurd hmem (hother fun _ => nofun)
      · exact absurd hmem (hother fun _ => nofun)
      · exact absurd hmem (hother fun _ => nofun)
      · exact absurd hmem (hother fun _ => nofun)
      · exact absurd hmem (hother fun _ => nofun)
    · intro hmem
      simp only [List.mem_append]
      exact .inl (.inl (.inl (.inl (.inl (.inr (List.mem_flatMap.mpr hmem))))))

theorem filter_front {p : Block → Bool} (hp : ∀ b : Block, b.isFront = true → p b = false)
    {front : List Block} (hfront : ∀ b ∈ front, b.isFront = true) : front.filter p = [] := by
  rw [List.filter_eq_nil_iff]
  intro b hb
  rw [hp b (hfront b hb)]
  decide

/-- The loop counts each test under its status. -/
theorem get?_byStatus (m : Manifest) (tests : List String) (o : Outcome) :
    (Dict.get? (byStatus m tests) o).getD 0 = (tests.filter fun t => status m t = o).length := by
  induction tests using List.reverseRecOn with
  | nil => rfl
  | append_singleton tests t ih =>
      have hstep : byStatus m (tests ++ [t]) = Dict.set (byStatus m tests) (status m t)
          ((Dict.get? (byStatus m tests) (status m t)).getD 0 + 1) := by
        rw [byStatus, List.foldl_append]
        rfl
      rw [hstep, Dict.get?_set, List.filter_append, List.length_append, List.filter_singleton]
      by_cases ho : o = status m t
      · rw [if_pos ho, decide_eq_true ho.symm, cond_true, ← ih, ho]
        rfl
      · rw [if_neg ho, decide_eq_false (Ne.symm ho), cond_false, ← ih]
        rfl

/-- The order in which a set is gone through does not matter to how many satisfy `p`. -/
theorem length_iter (order : SetOrder) (only : Finset String) (p : String → Bool) :
    ((order.iter only).filter p).length = (only.filter fun t => p t = true).card := by
  rw [← List.toFinset_card_of_nodup ((order.nodup only).filter p)]
  congr 1
  ext t
  rw [List.mem_toFinset, List.mem_filter, order.mem_iter, Finset.mem_filter]

theorem countedOnce_only (order : SetOrder) (label : String) (only : Finset String)
    (m other : Manifest) : CountedOnce label only m (onlyBlock order label only m other) := by
  rw [CountedOnce, onlyBlock]
  split_ifs with hempty
  · rfl
  · refine ⟨other.truncated, byStatus m (order.iter only),
      ((only.sort (· ≤ ·)).filter fun t => status m t = .recorded .failed).map fun t => (t, why m t),
      ?_, fun o => ?_⟩
    · exact List.filter_singleton.trans (by rw [Block.isOnly, decide_eq_true rfl, cond_true])
    · rw [get?_byStatus, length_iter]
      simp only [decide_eq_true_eq]

theorem filter_only_other (order : SetOrder) {label side : String} (hne : label ≠ side)
    (only : Finset String) (m other : Manifest) :
    (onlyBlock order label only m other).filter (Block.isOnly side) = [] := by
  rw [onlyBlock]
  split_ifs
  · rfl
  · rw [List.filter_singleton, Block.isOnly, decide_eq_false hne, cond_false]

/-- A report conserves the tests of the two runs. -/
theorem compare_conserves (u : Unicode) (order : SetOrder) (base cand : Manifest) :
    Conserves base cand (compare u order base cand) := by
  obtain ⟨front, hsplit, hfront, hshown⟩ := compare_split base cand u order
  have hgroup : ∀ key label tests, .group key label tests ∈ compare u order base cand ↔
      ∃ d ∈ displays, .group key label tests ∈ (display base cand d (bucketsOf base cand)).1 := by
    intro key label tests
    have honly : ∀ side only m other, .group key label tests ∉ onlyBlock order side only m other := by
      intro side only m other
      rw [onlyBlock]
      split_ifs <;> simp
    rw [hsplit, ← hshown]
    simp only [List.mem_append, honly, or_false, List.mem_singleton, reduceCtorEq]
  have honly : ∀ side, (compare u order base cand).filter (Block.isOnly side) =
      (onlyBlock order "baseline" (universeOf base \ universeOf cand) base cand).filter
        (Block.isOnly side) ++
      (onlyBlock order "candidate" (universeOf cand \ universeOf base) cand base).filter
        (Block.isOnly side) := by
    intro side
    have hnone := filter_front (p := Block.isOnly side)
      (fun b hb => by cases b <;> first | rfl | cases hb) hfront
    rw [hsplit, List.filter_append, List.filter_append, List.filter_append, hnone]
    rfl
  refine ⟨fun t ht => covered_once ht u order, sized_compare u order, ?_, ?_, ?_, ?_, ?_, ?_⟩
  · exact sum_sizes (sized_compare u order) fun t ht => covered_once ht u order
  · intro key label tests hmem
    obtain ⟨d, -, hd⟩ := (hgroup key label tests).mp hmem
    obtain ⟨-, hd⟩ := mem_blockOf.mp hd
    cases hd
    rw [bucket_bucketsOf, List.map_map]
    exact List.map_id _
  · intro t ht hpair
    have hmem := (mem_withPair base cand).mpr ⟨ht, hpair⟩
    refine ⟨_, _, (hgroup _ _ _).mpr ⟨⟨Block.bothFailed, "COMMON FAILURES (fail in both)", false⟩,
      by simp [displays, Block.bothFailed], mem_blockOf.mpr ⟨fun hnil => ?_, rfl⟩⟩⟩
    rw [bucket_bucketsOf, List.map_eq_nil_iff] at hnil
    exact List.ne_nil_of_mem hmem hnil
  · refine ⟨_, ?_, length_withPair base cand _⟩
    have hnone := filter_front (p := Block.isUnchanged)
      (fun b hb => by cases b <;> first | rfl | cases hb) hfront
    have hlabels : ∀ label only m other,
        (onlyBlock order label only m other).filter Block.isUnchanged = [] := by
      intro label only m other
      rw [onlyBlock]
      split_ifs
      · rfl
      · rfl
    rw [hsplit, List.filter_append, List.filter_append, List.filter_append, hnone, hlabels, hlabels]
    rfl
  · have hside := honly "baseline"
    rw [filter_only_other order (show "candidate" ≠ "baseline" by decide), List.append_nil] at hside
    rw [CountedOnce, hside]
    exact countedOnce_only order "baseline" _ base cand
  · have hside := honly "candidate"
    rw [filter_only_other order (show "baseline" ≠ "candidate" by decide), List.nil_append] at hside
    rw [CountedOnce, hside]
    exact countedOnce_only order "candidate" _ cand base

end

end KdevopsNg.Fstests.Compare
