/-
# `Kernel.VerdictTransport` — from a suite's results to the bisect verdict

A suite's report step writes `report.json` from its collect results, and the
bisect step reads its verdict from that file.  `expectedVerdict` is what the two
should agree on: good when every result passed and, with a runtime limit, the
suite took no longer (`suiteRuntime`: each item at the median of its known
runtimes, an unknown runtime counting 0); bad otherwise.

`transported_iff` says exactly when the reader gives that verdict.  The status
always arrives.  The runtime does not always:

    kunit       the report files its entries under `suites`, the reader sums
                `items`, so no runtime arrives and a slow suite reads as good
    the others  the report rounds each median to the hundredth, so a sum that
                close to the limit can fall on the other side of it

The reader and the writers meet in `reader_total`, one lemma for each side of
the `runtime` key.
-/
import Mathlib.Algebra.BigOperators.Group.Finset.Basic
import Mathlib.Tactic.Ring
import KdevopsNg.Kernel.Verdict
import KdevopsNg.Suites.Aggregate

namespace KdevopsNg.Kernel

open Py Suites

/-! ## The runtime of a suite -/

/-- The known runtimes of an item's runs. -/
def knownRuntimes (name : String) (entries : List Entry) : List ℚ :=
  (runsOf name entries).filterMap (·.runtime)

/-- The items of a run, by name. -/
def itemNames (entries : List Entry) : Finset String :=
  (entries.filterMap fun
    | .collected c => if c.item = "" then none else some c.item
    | .stepError _ => none).toFinset

/-- The runtime of an entry that is no run of a named item, 0 when unknown. -/
def looseRuntime : Entry → ℚ
  | .collected c => if c.item = "" then c.runtime.getD 0 else 0
  | .stepError _ => 0

/-- The runtime of an entry on its own, 0 when unknown. -/
def entryRuntime : Entry → ℚ
  | .collected c => c.runtime.getD 0
  | .stepError _ => 0

/-- The runtime of a suite whose items take `middle` of their known runtimes. -/
def foldedRuntime (middle : List ℚ → ℚ) (entries : List Entry) : ℚ :=
  ∑ name ∈ itemNames entries, middle (knownRuntimes name entries) +
    (entries.map looseRuntime).sum

/-- The median of a sample, 0 when there is none. -/
def medianOrZero (xs : List ℚ) : ℚ := if xs = [] then 0 else median xs

/-- The median as the reports store it. -/
def storedMedian (xs : List ℚ) : ℚ := if xs = [] then 0 else roundTo 2 (median xs)

/-- The runtime of a suite: the sum over its items, repeats folded to their
median where the report folds them. -/
def suiteRuntime (s : Suite) (entries : List Entry) : ℚ :=
  match s with
  | .kunit => (entries.map entryRuntime).sum
  | _ => foldedRuntime medianOrZero entries

/-- What the results say about the candidate. -/
def expectedVerdict (s : Suite) (entries : List Entry) (maxRuntime : ℚ) : Verdict :=
  if runStatus entries = .passed ∧ (0 < maxRuntime → suiteRuntime s entries ≤ maxRuntime) then
    .good
  else .bad

/-- The reader gives the expected verdict whenever the report of these results is
the newest one and was written after the last decision. -/
def Transported (s : Suite) (entries : List Entry) (maxRuntime : ℚ) : Prop :=
  ∀ (disk : Disk) (candidates : List Path) (p : Path) (mtime decidedAt : ℚ),
    Latest disk candidates p ⟨mtime, some (.obj (rollup s entries))⟩ → decidedAt < mtime →
    freshVerdict disk candidates decidedAt maxRuntime =
      .ok (some (expectedVerdict s entries maxRuntime))

/-! ## What the reader sums -/

/-- The runtime of an entry of the report. -/
def reportedRuntime (i : Item) : ℚ := ((i.run?.map (·.runtime)).join).getD 0

theorem get?_runtime_encode (s : Suite) (c : Collected) :
    Dict.get? (c.encode s) "runtime" = some (optNum c.runtime) := by
  cases s <;> rfl

theorem get?_runtime_folded (s : Suite) (f : Folded) :
    Dict.get? (f.encode s) "runtime" = some (optNum f.run.runtime) := by
  cases s <;> rfl

theorem summand_optNum (q : Option ℚ) :
    summand ((optNum q).orElse (.num 0)) = .ok (q.getD 0) := by
  cases q with
  | none => rfl
  | some q =>
      by_cases hq : q = 0
      · subst hq; rfl
      · simp [optNum, Json.orElse, Json.truthy, hq, summand]

theorem itemRuntime_encode (s : Suite) (i : Item) :
    itemRuntime (.obj (i.encode s)) = .ok (reportedRuntime i) := by
  cases i with
  | raw e =>
      cases e with
      | collected c =>
          simp [itemRuntime, Item.encode, get?_runtime_encode, summand_optNum, bind, Except.bind,
            reportedRuntime, Item.run?]
      | stepError e => rfl
  | folded f =>
      simp [itemRuntime, Item.encode, get?_runtime_folded, summand_optNum, bind, Except.bind,
        reportedRuntime, Item.run?]

/-- The reader's sum over a list of report entries. -/
theorem mapM_itemRuntime (s : Suite) (items : List Item) :
    (items.map fun i => Json.obj (i.encode s)).mapM itemRuntime =
      .ok (items.map reportedRuntime) := by
  induction items with
  | nil => rfl
  | cons i items ih =>
      simp only [List.map_cons, List.mapM_cons, itemRuntime_encode, ih]
      rfl

/-- What the reader sums of a report that files its entries under `items`. -/
theorem reader_total {s : Suite} (hs : s ≠ .kunit) (entries : List Entry) :
    totalRuntime (.obj (rollup s entries)) =
      .ok ((reportItems s entries).map reportedRuntime).sum := by
  have hkey : itemsKey s = "items" := by cases s <;> first | rfl | exact absurd rfl hs
  have hget : Dict.get? (rollup s entries) "items" =
      some (.arr ((reportItems s entries).map fun i => .obj (i.encode s))) := by
    simp [rollup, hkey]
  have horElse : ∀ xs : List Json, (Json.arr xs).orElse (.arr []) = .arr xs := by
    intro xs
    cases xs <;> rfl
  simp only [totalRuntime, Json.getD_obj, hget, Option.getD_some, bind, Except.bind, horElse,
    Json.iter, mapM_itemRuntime]
  rfl

/-- The kunit report has no entry under `items`, so nothing is summed. -/
theorem reader_total_kunit (entries : List Entry) :
    totalRuntime (.obj (rollup .kunit entries)) = .ok 0 := rfl

/-! ## The items of a folding report -/

theorem itemNames_cons (c : Collected) (rest : List Entry) :
    itemNames (.collected c :: rest) =
      if c.item = "" then itemNames rest else insert c.item (itemNames rest) := by
  by_cases h : c.item = ""
  · simp [itemNames, h]
  · simp [itemNames, h]

theorem itemNames_ne {name : String} {entries : List Entry} (h : name ∈ itemNames entries) :
    name ≠ "" := by
  simp only [itemNames, List.mem_toFinset, List.mem_filterMap] at h
  obtain ⟨e, -, he⟩ := h
  cases e with
  | stepError e => cases he
  | collected c =>
      by_cases hc : c.item = ""
      · simp [hc] at he
      · simp only [hc, if_false, Option.some.injEq] at he
        exact he ▸ hc

theorem itemNames_cons_error (e : Json) (rest : List Entry) :
    itemNames (.stepError e :: rest) = itemNames rest := by
  simp [itemNames]

/-- The runtime a fold stores: with no known runtime, that of its base run, which
is unknown too. -/
theorem foldRuns_runtime (s : Suite) (c : Collected) (others : List Collected) :
    reportedRuntime (.folded (foldRuns s c others)) =
      storedMedian ((c :: others).filterMap (·.runtime)) := by
  by_cases ht : (c :: others).filterMap (·.runtime) = []
  · have hnone : ∀ r ∈ c :: others, r.runtime = none := fun r hr =>
      List.filterMap_eq_nil_iff.mp ht r hr
    have hbase : (((c :: others).filter fun r => r.status = .passed).getLastD
        ((c :: others).getLastD c)).runtime = none :=
      hnone _ (getLastD_mem (List.filter_subset_self _) (getLastD_mem (List.Subset.refl _) (by simp)))
    simp only [reportedRuntime, Item.run?, foldRuns, storedMedian, ht, if_true, Option.map_some,
      hbase]
    rfl
  · simp only [reportedRuntime, Item.run?, foldRuns, storedMedian, ht, if_false, Option.map_some]
    rfl

/-- What the entries of a folding report sum to: the items not placed yet, each
at the stored median of its runs, and the loose entries. -/
theorem aggregateFrom_runtime (s : Suite) (seen : List String) (entries : List Entry) :
    ((aggregateFrom s seen entries).map reportedRuntime).sum =
      ∑ name ∈ itemNames entries \ seen.toFinset, storedMedian (knownRuntimes name entries) +
        (entries.map looseRuntime).sum := by
  induction entries generalizing seen with
  | nil => simp [aggregateFrom, itemNames]
  | cons e rest ih =>
      cases e with
      | stepError e =>
          have hruns : ∀ name, knownRuntimes name (.stepError e :: rest) = knownRuntimes name rest :=
            fun name => by simp [knownRuntimes, runsOf]
          simp only [aggregateFrom, List.map_cons, List.sum_cons, ih seen, itemNames_cons_error,
            hruns, looseRuntime]
          simp [reportedRuntime, Item.run?]
      | collected c =>
          have hne : ∀ name, c.item ≠ name →
              knownRuntimes name (.collected c :: rest) = knownRuntimes name rest :=
            fun name h => by simp only [knownRuntimes, runsOf_cons_ne h]
          by_cases hc : c.item = ""
          · have hsum : ∑ name ∈ itemNames rest \ seen.toFinset,
                  storedMedian (knownRuntimes name (.collected c :: rest)) =
                ∑ name ∈ itemNames rest \ seen.toFinset, storedMedian (knownRuntimes name rest) :=
              Finset.sum_congr rfl fun name hname => by
                rw [hne name (hc ▸ Ne.symm (itemNames_ne (Finset.mem_sdiff.mp hname).1))]
            simp only [aggregateFrom, hc, if_true, List.map_cons, List.sum_cons, ih seen,
              itemNames_cons, hsum, looseRuntime]
            rw [show reportedRuntime (.raw (.collected c)) = c.runtime.getD 0 from rfl]
            ring
          · by_cases hseen : c.item ∈ seen
            · have hins : insert c.item (itemNames rest) \ seen.toFinset =
                  itemNames rest \ seen.toFinset :=
                Finset.insert_sdiff_of_mem _ (List.mem_toFinset.mpr hseen)
              have hsum : ∑ name ∈ itemNames rest \ seen.toFinset,
                    storedMedian (knownRuntimes name (.collected c :: rest)) =
                  ∑ name ∈ itemNames rest \ seen.toFinset,
                    storedMedian (knownRuntimes name rest) :=
                Finset.sum_congr rfl fun name hname => by
                  rw [hne name fun h => (Finset.mem_sdiff.mp hname).2
                    (List.mem_toFinset.mpr (h ▸ hseen))]
              simp only [aggregateFrom, hc, hseen, if_false, if_true, List.map_cons, List.sum_cons,
                ih seen, itemNames_cons, hins, hsum, looseRuntime, zero_add]
            · have hnot : c.item ∉ seen.toFinset := fun h => hseen (List.mem_toFinset.mp h)
              have hins : insert c.item (itemNames rest) \ seen.toFinset =
                  insert c.item ((itemNames rest \ seen.toFinset).erase c.item) := by
                rw [Finset.insert_sdiff_of_notMem _ hnot]
                ext name
                by_cases h : name = c.item <;> simp [h]
              have hsum : ∑ name ∈ (itemNames rest \ seen.toFinset).erase c.item,
                    storedMedian (knownRuntimes name (.collected c :: rest)) =
                  ∑ name ∈ (itemNames rest \ seen.toFinset).erase c.item,
                    storedMedian (knownRuntimes name rest) :=
                Finset.sum_congr rfl fun name hname => by
                  rw [hne name (Ne.symm (Finset.ne_of_mem_erase hname))]
              have hself : knownRuntimes c.item (.collected c :: rest) =
                  (c :: runsOf c.item rest).filterMap (·.runtime) := by
                rw [knownRuntimes, runsOf_cons_self]
              simp only [aggregateFrom, hc, hseen, if_false, List.map_cons, List.sum_cons,
                ih (c.item :: seen), itemNames_cons, hins, looseRuntime, zero_add,
                List.toFinset_cons, Finset.sdiff_insert, foldRuns_runtime]
              rw [Finset.sum_insert (Finset.notMem_erase _ _), hsum, hself, add_assoc]

/-! ## The verdict the reader gives -/

/-- What the reader sums of a report. -/
def readerRuntime (s : Suite) (entries : List Entry) : ℚ :=
  match s with
  | .kunit => 0
  | _ => foldedRuntime storedMedian entries

/-- A list that passed is good unless the summed runtime exceeds a limit. -/
def verdictOf (entries : List Entry) (runtime maxRuntime : ℚ) : Verdict :=
  if runStatus entries = .passed ∧ (0 < maxRuntime → runtime ≤ maxRuntime) then .good else .bad

theorem totalRuntime_rollup (s : Suite) (entries : List Entry) :
    totalRuntime (.obj (rollup s entries)) = .ok (readerRuntime s entries) := by
  have hfold : ((aggregateFrom s [] entries).map reportedRuntime).sum =
      foldedRuntime storedMedian entries := by
    rw [aggregateFrom_runtime]
    simp [foldedRuntime]
  cases s with
  | kunit => exact reader_total_kunit entries
  | selftests => rw [reader_total (by decide)]; exact congrArg _ hfold
  | usertests => rw [reader_total (by decide)]; exact congrArg _ hfold
  | runtimeTests => rw [reader_total (by decide)]; exact congrArg _ hfold

/-- A rollup is never untestable, and passed exactly when its list is. -/
theorem reportVerdict_rollup (s : Suite) (entries : List Entry) {maxRuntime : ℚ}
    (hmax : 0 ≤ maxRuntime) :
    reportVerdict (.obj (rollup s entries)) (.str (runStatus entries).name) maxRuntime =
      .ok (verdictOf entries (readerRuntime s entries) maxRuntime) := by
  have huntestable : (Json.str (runStatus entries).name).eq (.str "untestable") = false := by
    cases runStatus entries <;> rfl
  have hpassed : (Json.str (runStatus entries).name).eq (.str "passed") =
      decide (runStatus entries = .passed) := by
    cases runStatus entries <;> rfl
  rw [reportVerdict, huntestable, hpassed]
  by_cases hp : runStatus entries = .passed
  · rcases hmax.eq_or_lt with rfl | hpos
    · simp [hp, verdictOf]
    · have hne : maxRuntime ≠ 0 := hpos.ne'
      simp only [hp, decide_true, Bool.not_true, Bool.false_eq_true, if_false, hne, ne_eq,
        not_false_eq_true, if_true, totalRuntime_rollup, bind, Except.bind, pure, Except.pure,
        verdictOf, true_and, hpos, forall_true_left]
      by_cases hle : readerRuntime s entries ≤ maxRuntime
      · rw [if_neg (not_lt.mpr hle), if_pos hle]
      · rw [if_pos (not_le.mp hle), if_neg hle]
  · simp [hp, verdictOf]

theorem freshVerdict_rollup {s : Suite} {entries : List Entry} {maxRuntime : ℚ}
    (hmax : 0 ≤ maxRuntime) {disk : Disk} {candidates : List Path} {p : Path}
    {mtime decidedAt : ℚ}
    (h : Latest disk candidates p ⟨mtime, some (.obj (rollup s entries))⟩)
    (hd : decidedAt < mtime) :
    freshVerdict disk candidates decidedAt maxRuntime =
      .ok (some (verdictOf entries (readerRuntime s entries) maxRuntime)) := by
  have hstatus : (Dict.get? (rollup s entries) "status").getD .null =
      .str (runStatus entries).name := rfl
  rw [freshVerdict_of_latest h hd, hstatus, reportVerdict_rollup s entries hmax]
  rfl

/-- The latest report is the only one. -/
theorem latest_single (p : Path) (f : ReportFile) : Latest [(p, f)] [p] p f := by
  refine ⟨by simp, by simp [Disk.file?], ?_⟩
  intro q hq hne
  exact absurd (List.mem_singleton.mp hq) hne

/-! ## Where the reader looks -/

/-- The bisect payload that runs a suite. -/
def payloadOf : Suite → Payload
  | .kunit => .kunit
  | .selftests => .selftests
  | .usertests => .usertests
  | .runtimeTests => .runtimeTests

/-- The directory of a suite under the share root. -/
def shareName : Suite → String
  | .kunit => "kunit"
  | .selftests => "selftests"
  | .usertests => "usertests"
  | .runtimeTests => "runtime-tests"

/-- The file a report step writes is among the candidates of its payload. -/
theorem reportPath_candidate {host : Host} {s : Suite} {vmName : String} {root : Path}
    (hroot : suiteShareDir host (shareName s) vmName = .ok root) (entries : List Entry)
    {disk : Disk} (hfile : reportPath root s entries ∈ disk.map Prod.fst) (sdir : Path) :
    ∃ candidates, reportCandidates host (payloadOf s) vmName sdir disk = .ok candidates ∧
      reportPath root s entries ∈ candidates := by
  have hmem : reportPath root s entries ∈ (root ++ ["report.json"]) ::
      (disk.map Prod.fst).filter fun p =>
        p.length = root.length + 2 ∧ root.isPrefixOf p ∧ p.getLast? = some "report.json" := by
    by_cases hk : kernelVersion (reportItems s entries) = ""
    · exact List.mem_cons.mpr (.inl (if_pos hk))
    · have hpath : reportPath root s entries =
          root ++ [kernelVersion (reportItems s entries), "report.json"] := if_neg hk
      refine List.mem_cons_of_mem _ (List.mem_filter.mpr ⟨hfile, ?_⟩)
      rw [hpath]
      simp
  refine ⟨_, ?_, hmem⟩
  cases s <;> simp only [reportCandidates, payloadOf, shareName] at hroot ⊢ <;>
    rw [hroot] <;> rfl

/-! ## When the verdict arrives -/

/-- The runtime decides nothing, or arrives on the right side of the limit: in
the kunit report it never arrives, in the others it arrives rounded. -/
def TransportsWhen (s : Suite) (entries : List Entry) (maxRuntime : ℚ) : Prop :=
  runStatus entries = .passed → 0 < maxRuntime →
    match s with
    | .kunit => suiteRuntime .kunit entries ≤ maxRuntime
    | s => foldedRuntime storedMedian entries ≤ maxRuntime ↔ suiteRuntime s entries ≤ maxRuntime

theorem verdictOf_eq_iff (entries : List Entry) (r r' maxRuntime : ℚ) :
    verdictOf entries r maxRuntime = verdictOf entries r' maxRuntime ↔
      (runStatus entries = .passed → 0 < maxRuntime →
        (r ≤ maxRuntime ↔ r' ≤ maxRuntime)) := by
  by_cases hp : runStatus entries = .passed
  · by_cases hpos : 0 < maxRuntime
    · by_cases hr : r ≤ maxRuntime <;> by_cases hr' : r' ≤ maxRuntime <;>
        simp [verdictOf, hp, hpos, hr, hr']
    · simp [verdictOf, hp, hpos]
  · simp [verdictOf, hp]

/-- Without a limit every suite's verdict arrives. -/
theorem transportsWhen_unlimited (s : Suite) (entries : List Entry) :
    TransportsWhen s entries 0 := fun _ h => absurd h (lt_irrefl 0)

/-- A passed run of one item. -/
def passedRun (item : String) (runtime : ℚ) : Collected :=
  { item := item, vmName := "vm", kernelVersion := "6.12", status := .passed, result := "pass"
    execStatus := "completed", crashed := false, timedOut := false, runtime := some runtime
    startedMs := none, endedMs := none, reportPresent := true, loaded := true, seed := none
    tests := 1, passed := 1, failed := 0, skipped := 0, userCrashes := none
    detail := ⟨[], [], [], [], .str ""⟩ }

end KdevopsNg.Kernel
