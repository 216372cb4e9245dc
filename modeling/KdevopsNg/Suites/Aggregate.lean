/-
# `Suites.Aggregate` — the fold of the repeats keeps the verdict

`_aggregate` of `f/selftests/report.py`, `f/usertests/report.py` and
`f/runtime_tests/report.py`.  The judge of a suite reads the list of runs, the
report and the bisect the folded one, so the two have to agree (`Faithful`):

    verdict      the rule of `run_status` gives both lists one status
    items        one fold for each named item, in the order of first appearance
    loose        the entries without an item stay, in their order
    samples      a fold counts the runs of its item, and failed when one did
    order        status, samples and runtimes are those of the runs in any order

Every fact about a fold comes from one: it is `foldRuns` of the runs of its item
(`mem_folded_iff`).  What is taken from the last run, counts and evidence, depends
on their order and is not promised.
-/
import KdevopsNg.Py.Dict
import KdevopsNg.Suites.Report

namespace KdevopsNg.Suites

open Py

/-! ## The two lists -/

/-- The item an entry is filed under, none for a loose one. -/
def Entry.name? : Entry → Option String
  | .collected c => if c.item = "" then none else some c.item
  | .stepError _ => none

/-- The fold an entry of the report is. -/
def Item.folded? : Item → Option Folded
  | .raw _ => none
  | .folded f => some f

/-- The entry of the list that an entry of the report is. -/
def Item.raw? : Item → Option Entry
  | .raw e => some e
  | .folded _ => none

/-- `s.get("status") == "passed"`, of an entry of the report. -/
def Item.isPassed : Item → Bool
  | .raw e => e.isPassed
  | .folded f => f.run.status = .passed

/-- `run_status` of the folded list. -/
def itemsStatus (items : List Item) : Status :=
  if items ≠ [] ∧ items.all Item.isPassed then .passed else .failed

/-- `_aggregate`. -/
def aggregate (s : Suite) (entries : List Entry) : List Item := aggregateFrom s [] entries

/-- The folds of a list. -/
def folds (s : Suite) (entries : List Entry) : List Folded :=
  (aggregate s entries).filterMap Item.folded?

/-- What does not depend on the order of an item's runs. -/
structure SameFold (f g : Folded) : Prop where
  status : f.run.status = g.run.status
  samples : f.samples = g.samples
  runtime : f.run.runtime = g.run.runtime
  spread : f.spread = g.spread

/-- The fold tells of the runs what the list does. -/
structure Faithful (s : Suite) (entries : List Entry) : Prop where
  verdict : itemsStatus (aggregate s entries) = runStatus entries
  items : (folds s entries).map (fun f => f.run.item) = (entries.filterMap Entry.name?).eraseDups
  loose : (aggregate s entries).filterMap Item.raw? = entries.filter (fun e => e.name?.isNone)
  samples : ∀ f ∈ folds s entries, f.samples = (runsOf f.run.item entries).length ∧
    (f.run.status = .failed ↔ ∃ r ∈ runsOf f.run.item entries, r.status = .failed)
  order : ∀ entries', entries'.Perm entries → ∀ f ∈ folds s entries,
    ∃ g ∈ folds s entries', g.run.item = f.run.item ∧ SameFold f g

/-! ## The runs of an item -/

theorem runsOf_cons_ne {name : String} {c : Collected} (h : c.item ≠ name) (rest : List Entry) :
    runsOf name (.collected c :: rest) = runsOf name rest := by
  simp [runsOf, h]

theorem runsOf_cons_self (c : Collected) (rest : List Entry) :
    runsOf c.item (.collected c :: rest) = c :: runsOf c.item rest := by
  simp [runsOf]

theorem mem_runsOf {name : String} {entries : List Entry} {r : Collected} :
    r ∈ runsOf name entries ↔ .collected r ∈ entries ∧ r.item = name := by
  rw [runsOf, List.mem_filterMap]
  constructor
  · rintro ⟨e, he, hr⟩
    cases e with
    | stepError e => cases hr
    | collected c =>
        dsimp only at hr
        split_ifs at hr with hname
        cases hr
        exact ⟨he, hname⟩
  · rintro ⟨hmem, hname⟩
    exact ⟨_, hmem, if_pos hname⟩

theorem runsOf_perm {name : String} {entries entries' : List Entry} (h : entries.Perm entries') :
    (runsOf name entries).Perm (runsOf name entries') :=
  h.filterMap _

theorem getLastD_mem {α : Type} {xs ys : List α} {d : α} (h : xs ⊆ ys) (hd : d ∈ ys) :
    xs.getLastD d ∈ ys := by
  rw [List.getLastD_eq_getLast?]
  cases hx : xs.getLast? with
  | none => exact hd
  | some x => exact h (List.mem_of_getLast? hx)

/-! ## What a fold is of -/

/-- The run a fold takes its counts from. -/
theorem foldRuns_base (s : Suite) (c : Collected) (others : List Collected) :
    ∃ base ∈ c :: others, (foldRuns s c others).run.item = base.item ∧
      ((c :: others).filterMap (·.runtime) = [] →
        (foldRuns s c others).run.runtime = base.runtime) := by
  refine ⟨((c :: others).filter fun r => r.status = .passed).getLastD
    ((c :: others).getLastD c), ?_, rfl, fun hnone => ?_⟩
  · exact getLastD_mem (List.filter_subset_self _)
      (getLastD_mem (List.Subset.refl _) List.mem_cons_self)
  · simp only [foldRuns, hnone, if_true]

theorem foldRuns_item {s : Suite} {c : Collected} {others : List Collected} {entries : List Entry}
    (h : runsOf c.item entries = c :: others) : (foldRuns s c others).run.item = c.item := by
  obtain ⟨base, hbase, hitem, -⟩ := foldRuns_base s c others
  rw [hitem]
  exact (mem_runsOf.mp (h ▸ hbase)).2

theorem mem_folded_iff {s : Suite} {seen : List String} {entries : List Entry} {f : Folded} :
    .folded f ∈ aggregateFrom s seen entries ↔
      ∃ c others, c.item ≠ "" ∧ c.item ∉ seen ∧ runsOf c.item entries = c :: others ∧
        f = foldRuns s c others := by
  induction entries generalizing seen with
  | nil => simp [aggregateFrom, runsOf]
  | cons e rest ih =>
      cases e with
      | stepError e =>
          have hruns : ∀ name, runsOf name (.stepError e :: rest) = runsOf name rest := fun _ => rfl
          simp only [aggregateFrom, List.mem_cons, reduceCtorEq, false_or, ih, hruns]
      | collected d =>
          by_cases hempty : d.item = ""
          · rw [aggregateFrom, if_pos hempty, List.mem_cons, or_iff_right (by simp), ih]
            refine exists₂_congr fun c others => and_congr_right fun hc => ?_
            rw [runsOf_cons_ne fun h : d.item = c.item => hc (h.symm.trans hempty)]
          · rw [aggregateFrom, if_neg hempty]
            by_cases hseen : d.item ∈ seen
            · rw [if_pos hseen, ih]
              refine exists₂_congr fun c others => and_congr_right fun _ => and_congr_right fun hc => ?_
              rw [runsOf_cons_ne fun h : d.item = c.item => hc (h ▸ hseen)]
            · rw [if_neg hseen, List.mem_cons, ih, Item.folded.injEq]
              constructor
              · rintro (rfl | ⟨c, others, hc, hnot, hruns, rfl⟩)
                · exact ⟨d, runsOf d.item rest, hempty, hseen, runsOf_cons_self d rest, rfl⟩
                · rw [List.mem_cons, not_or] at hnot
                  refine ⟨c, others, hc, hnot.2, ?_, rfl⟩
                  rw [runsOf_cons_ne (Ne.symm hnot.1), hruns]
              · rintro ⟨c, others, hc, hnot, hruns, rfl⟩
                by_cases heq : d.item = c.item
                · rw [← heq, runsOf_cons_self] at hruns
                  obtain ⟨rfl, rfl⟩ := List.cons.inj hruns
                  exact .inl rfl
                · rw [runsOf_cons_ne heq] at hruns
                  refine .inr ⟨c, others, hc, ?_, hruns, rfl⟩
                  rw [List.mem_cons, not_or]
                  exact ⟨Ne.symm heq, hnot⟩

theorem mem_folds_iff {s : Suite} {entries : List Entry} {f : Folded} :
    f ∈ folds s entries ↔ ∃ c others, c.item ≠ "" ∧ runsOf c.item entries = c :: others ∧
      f = foldRuns s c others := by
  have hmem : f ∈ folds s entries ↔ .folded f ∈ aggregate s entries := by
    rw [folds, List.mem_filterMap]
    constructor
    · rintro ⟨i, hi, hf⟩
      cases i with
      | raw e => cases hf
      | folded g =>
          cases hf
          exact hi
    · exact fun h => ⟨_, h, rfl⟩
  rw [hmem, aggregate, mem_folded_iff]
  simp

/-- The entries that are no run of an item stay as they are. -/
theorem aggregateFrom_raw (s : Suite) (seen : List String) (entries : List Entry) :
    (aggregateFrom s seen entries).filterMap Item.raw? =
      entries.filter fun e => e.name?.isNone := by
  induction entries generalizing seen with
  | nil => rfl
  | cons e rest ih =>
      cases e with
      | stepError e => simp [aggregateFrom, Item.raw?, Entry.name?, ih]
      | collected c =>
          by_cases hempty : c.item = ""
          · simp [aggregateFrom, hempty, Item.raw?, Entry.name?, ih]
          · by_cases hseen : c.item ∈ seen
            · simp [aggregateFrom, hempty, hseen, Entry.name?, ih]
            · have hname : Entry.name? (.collected c) = some c.item := if_neg hempty
              rw [aggregateFrom, if_neg hempty, if_neg hseen, List.filterMap_cons_none rfl, ih,
                List.filter_cons_of_neg (by simp [hname])]

/-- The names of the folds: those not placed yet, each where it first appears. -/
theorem aggregateFrom_names (s : Suite) (seen : List String) (entries : List Entry) :
    ((aggregateFrom s seen entries).filterMap Item.folded?).map (fun f => f.run.item) =
      ((entries.filterMap Entry.name?).filter (· ∉ seen)).eraseDups := by
  induction entries generalizing seen with
  | nil => rfl
  | cons e rest ih =>
      cases e with
      | stepError e =>
          rw [aggregateFrom, List.filterMap_cons_none rfl, ih, List.filterMap_cons_none rfl]
      | collected c =>
          by_cases hempty : c.item = ""
          · have hname : Entry.name? (.collected c) = none := if_pos hempty
            rw [aggregateFrom, if_pos hempty, List.filterMap_cons_none rfl, ih,
              List.filterMap_cons_none hname]
          · by_cases hseen : c.item ∈ seen
            · simp [aggregateFrom, hempty, hseen, Entry.name?, ih]
            · have hitem := foldRuns_item (s := s) (runsOf_cons_self c rest)
              have hname : Entry.name? (.collected c) = some c.item := if_neg hempty
              have hfilter : ((rest.filterMap Entry.name?).filter (· ∉ seen)).filter
                  (fun b => !b == c.item) =
                    (rest.filterMap Entry.name?).filter (· ∉ c.item :: seen) := by
                rw [List.filter_filter]
                refine List.filter_congr fun name _ => ?_
                by_cases h : name = c.item <;> simp [h]
              have hfold : Item.folded? (.folded (foldRuns s c (runsOf c.item rest))) =
                  some (foldRuns s c (runsOf c.item rest)) := rfl
              rw [aggregateFrom, if_neg hempty, if_neg hseen, List.filterMap_cons_some hfold,
                List.map_cons, hitem, ih, List.filterMap_cons_some hname,
                List.filter_cons_of_pos (by simpa using hseen), List.eraseDups_cons, hfilter]

/-! ## The verdict -/

theorem worst_failed_iff {statuses : List Status} (h : statuses ≠ []) :
    worst statuses = .failed ↔ .failed ∈ statuses := by
  rw [worst]
  by_cases hfailed : Status.failed ∈ statuses
  · simp [hfailed]
  · rw [if_neg hfailed]
    by_cases hnotrun : Status.notrun ∈ statuses
    · simp [hfailed, hnotrun]
    · rw [if_neg hnotrun, List.getLast?_eq_some_getLast h, Option.getD_some]
      exact iff_of_false (fun heq => hfailed (heq ▸ List.getLast_mem h)) hfailed

theorem worst_passed_iff {statuses : List Status} (h : statuses ≠ []) :
    worst statuses = .passed ↔ ∀ st ∈ statuses, st = .passed := by
  rw [worst]
  by_cases hfailed : Status.failed ∈ statuses
  · rw [if_pos hfailed]
    exact iff_of_false (by decide) fun hall => absurd (hall _ hfailed) (by decide)
  · rw [if_neg hfailed]
    by_cases hnotrun : Status.notrun ∈ statuses
    · rw [if_pos hnotrun]
      exact iff_of_false (by decide) fun hall => absurd (hall _ hnotrun) (by decide)
    · have hall : ∀ st ∈ statuses, st = .passed := by
        intro st hst
        cases st with
        | passed => rfl
        | failed => exact absurd hst hfailed
        | notrun => exact absurd hst hnotrun
      rw [if_neg hnotrun, List.getLast?_eq_some_getLast h, Option.getD_some]
      exact iff_of_true (hall _ (List.getLast_mem h)) hall

theorem worst_perm {xs ys : List Status} (h : xs.Perm ys) : worst xs = worst ys := by
  by_cases hnil : xs = []
  · subst hnil
    rw [h.nil_eq]
  · have hnil' : ys ≠ [] := fun heq => hnil (h.trans (heq ▸ .refl _)).eq_nil
    have hf := (worst_failed_iff hnil).trans (h.mem_iff.trans (worst_failed_iff hnil').symm)
    have hp : worst xs = .passed ↔ worst ys = .passed := by
      rw [worst_passed_iff hnil, worst_passed_iff hnil']
      exact forall_congr' fun st => by rw [h.mem_iff]
    cases hx : worst xs <;> cases hy : worst ys <;> rw [hx, hy] at hf hp <;> simp at hf hp

/-- A fold passed when its runs did. -/
theorem folded_passed_iff (s : Suite) (c : Collected) (others : List Collected) :
    Item.isPassed (.folded (foldRuns s c others)) = true ↔
      ∀ r ∈ c :: others, r.status = .passed := by
  have hne : (c :: others).map (·.status) ≠ [] := by simp
  have hworst := worst_passed_iff hne
  rw [Item.isPassed, decide_eq_true_eq, foldRuns, hworst, List.forall_mem_map]

theorem aggregateFrom_eq_nil {s : Suite} {entries : List Entry} (h : aggregate s entries = []) :
    entries = [] := by
  cases entries with
  | nil => rfl
  | cons e rest =>
      cases e with
      | stepError e => cases h
      | collected c =>
          rw [aggregate, aggregateFrom] at h
          split_ifs at h
          · exact absurd ‹c.item ∈ []› List.not_mem_nil

theorem aggregate_all_passed (s : Suite) (entries : List Entry) :
    (aggregate s entries).all Item.isPassed = true ↔ entries.all Entry.isPassed = true := by
  have hraw : ∀ e, .raw e ∈ aggregate s entries ↔ e ∈ entries ∧ e.name?.isNone = true := by
    intro e
    have hmem : .raw e ∈ aggregate s entries ↔
        e ∈ (aggregate s entries).filterMap Item.raw? := by
      rw [List.mem_filterMap]
      constructor
      · exact fun h => ⟨_, h, rfl⟩
      · rintro ⟨i, hi, he⟩
        cases i with
        | folded f => cases he
        | raw e' =>
            cases he
            exact hi
    rw [hmem, aggregate, aggregateFrom_raw, List.mem_filter]
  rw [List.all_eq_true, List.all_eq_true]
  constructor
  · intro h e he
    cases hname : e.name? with
    | none => exact h _ ((hraw e).mpr ⟨he, by rw [hname]; rfl⟩)
    | some name =>
        cases e with
        | stepError e => cases hname
        | collected r =>
            have hne : r.item ≠ "" := fun hempty => by
              rw [Entry.name?, if_pos hempty] at hname
              cases hname
            have hmem : r ∈ runsOf r.item entries := mem_runsOf.mpr ⟨he, rfl⟩
            obtain ⟨c, others, hruns⟩ := List.exists_cons_of_ne_nil (List.ne_nil_of_mem hmem)
            have hitem : c.item = r.item := (mem_runsOf.mp (hruns ▸ List.mem_cons_self)).2
            have hfold := h (.folded (foldRuns s c others)) (mem_folded_iff.mpr
              ⟨c, others, hitem ▸ hne, List.not_mem_nil, hitem ▸ hruns, rfl⟩)
            exact decide_eq_true ((folded_passed_iff s c others).mp hfold r (hruns ▸ hmem))
  · intro h i hi
    cases i with
    | raw e => exact h e ((hraw e).mp hi).1
    | folded f =>
        obtain ⟨c, others, -, -, hruns, rfl⟩ := mem_folded_iff.mp hi
        rw [folded_passed_iff, ← hruns]
        intro r hr
        exact of_decide_eq_true (h _ (mem_runsOf.mp hr).1)

/-! ## What the order of the runs does not change -/

theorem median_perm {xs ys : List ℚ} (h : xs.Perm ys) : median xs = median ys := by
  have hsort : xs.insertionSort (· ≤ ·) = ys.insertionSort (· ≤ ·) := by
    refine List.Perm.eq_of_pairwise' (List.pairwise_insertionSort _ _)
      (List.pairwise_insertionSort _ _) ?_
    exact (List.perm_insertionSort _ xs).trans (h.trans (List.perm_insertionSort _ ys).symm)
  rw [median, median, hsort]

theorem min?_perm {xs ys : List ℚ} (h : xs.Perm ys) : xs.min? = ys.min? := by
  ext a
  rw [List.min?_eq_some_iff, List.min?_eq_some_iff, h.mem_iff]
  exact and_congr_right fun _ => forall_congr' fun b => by rw [h.mem_iff]

theorem max?_perm {xs ys : List ℚ} (h : xs.Perm ys) : xs.max? = ys.max? := by
  ext a
  rw [List.max?_eq_some_iff, List.max?_eq_some_iff, h.mem_iff]
  exact and_congr_right fun _ => forall_congr' fun b => by rw [h.mem_iff]

theorem foldRuns_perm (s : Suite) {c c' : Collected} {others others' : List Collected}
    (h : (c :: others).Perm (c' :: others')) :
    SameFold (foldRuns s c others) (foldRuns s c' others') := by
  have htimes := h.filterMap (fun r : Collected => r.runtime)
  have hnil : (c :: others).filterMap (·.runtime) = [] ↔
      (c' :: others').filterMap (·.runtime) = [] := by
    constructor
    · intro heq
      exact (heq ▸ htimes).symm.eq_nil
    · intro heq
      exact (heq ▸ htimes).eq_nil
  refine ⟨worst_perm (h.map _), h.length_eq, ?_, ?_⟩
  · by_cases hnone : (c :: others).filterMap (·.runtime) = []
    · have hunknown : ∀ {d : Collected} {ds : List Collected},
          (d :: ds).filterMap (·.runtime) = [] → (foldRuns s d ds).run.runtime = none := by
        intro d ds hds
        obtain ⟨base, hbase, -, hruntime⟩ := foldRuns_base s d ds
        exact (hruntime hds).trans (List.filterMap_eq_nil_iff.mp hds base hbase)
      rw [hunknown hnone, hunknown (hnil.mp hnone)]
    · simp only [foldRuns, if_neg hnone, if_neg (mt hnil.mpr hnone), median_perm htimes]
  · by_cases hnone : (c :: others).filterMap (·.runtime) = []
    · simp only [foldRuns, if_pos hnone, if_pos (hnil.mp hnone)]
    · simp only [foldRuns, if_neg hnone, if_neg (mt hnil.mpr hnone), min?_perm htimes,
        max?_perm htimes]

/-! ## The fold is faithful -/

/-- The folded list tells of the runs what the list of them does. -/
theorem aggregate_faithful (s : Suite) (entries : List Entry) : Faithful s entries := by
  refine ⟨?_, ?_, aggregateFrom_raw s [] entries, fun f hf => ?_, fun entries' hperm f hf => ?_⟩
  · have hnil : aggregate s entries ≠ [] ↔ entries ≠ [] := by
      rw [ne_eq, ne_eq, not_iff_not]
      exact ⟨aggregateFrom_eq_nil, fun h => by rw [h]; rfl⟩
    simp only [itemsStatus, runStatus, hnil, aggregate_all_passed]
  · rw [folds, aggregate, aggregateFrom_names]
    simp
  · obtain ⟨c, others, -, hruns, rfl⟩ := mem_folds_iff.mp hf
    rw [foldRuns_item hruns, hruns]
    refine ⟨rfl, (worst_failed_iff (by simp)).trans ?_⟩
    rw [List.mem_map]
  · obtain ⟨c, others, hne, hruns, rfl⟩ := mem_folds_iff.mp hf
    have hruns' : (runsOf c.item entries').Perm (c :: others) := hruns ▸ runsOf_perm hperm
    obtain ⟨c', others', hcons⟩ := List.exists_cons_of_ne_nil
      (List.ne_nil_of_mem (hruns'.mem_iff.mpr List.mem_cons_self))
    have hitem : c'.item = c.item := (mem_runsOf.mp (hcons ▸ List.mem_cons_self)).2
    refine ⟨foldRuns s c' others', mem_folds_iff.mpr ⟨c', others', hitem ▸ hne, hitem ▸ hcons, rfl⟩,
      ?_, ?_⟩
    · rw [foldRuns_item (hitem ▸ hcons), foldRuns_item hruns, hitem]
    · exact foldRuns_perm s (hcons ▸ hruns').symm

end KdevopsNg.Suites
