/-
# `Suites.WaitCut` — the verdict against the way the journal was polled

A `Cutting` is a schedule that delivers a run's records whole: some fetches
fail, the others give the next records, the VM runs and the deadline holds.
Two schedules that cut one sequence differently should give one verdict.

They do exactly when what was stored after the outcome is `Quiet`
(`wait_settled`).  The loop ends at the chunk the outcome is in
(`pollLoop_cutting`), so a schedule decides how many of the later records are
still read: any number of them can be (`first_chunk`), and each one read must
leave the result, the exit status, the output and the runtime as they were.
-/
import KdevopsNg.Suites.Wait

namespace KdevopsNg.Suites

open Py

/-! ## Schedules -/

/-- The VM runs, and the deadline has not passed. -/
def Served (t : Tick) : Prop := alive t.hostState = true ∧ t.expired = false

/-- The turns deliver the records from a cursor on: each takes up where the one
before it ended, and a failed fetch delivers nothing. -/
inductive Cutting (c : Codec) : Option String → List Tick → List Record → Prop where
  | nil {cursor : Option String} : Cutting c cursor [] []
  | failed {cursor : Option String} {t : Tick} {ts : List Tick} {records : List Record} :
      Served t → t.poll cursor = none → Cutting c cursor ts records →
      Cutting c cursor (t :: ts) records
  | chunk {cursor next : Option String} {t : Tick} {ts : List Tick} {out : String}
      {chunk records : List Record} :
      Served t → t.poll cursor = some out → parseJournalJson c out cursor = (next, chunk) →
      Cutting c next ts records → Cutting c cursor (t :: ts) (chunk ++ records)

/-- A record is a line of the journal's text. -/
def Sent (c : Codec) (records : List Record) : Prop :=
  ∀ rec ∈ records, ∃ line : List Char, line.head? = some '{' ∧
    (∀ ch ∈ line, Text.isLineBreak ch = false) ∧ c.loads line = some rec

/-- What the step says of the run. -/
def Waited.report (w : Waited) : String × String × String × Option ℚ :=
  (w.result, w.execStatus, w.output, w.runtime)

/-- Two waits that are over, with one report, on which collect puts one status. -/
def Alike (r : Readers) (failOnUserCrash : Bool) (s : UnitSuite)
    (x y : Except PyError (Option Waited)) : Prop :=
  x.map (·.map Waited.report) = y.map (·.map Waited.report) ∧
    x.map (·.map (collectStatus r failOnUserCrash s)) =
      y.map (·.map (collectStatus r failOnUserCrash s)) ∧ x ≠ .ok none

/-! ## What may follow the outcome -/

/-- The records after the first outcome `o` add nothing: no line of output (a
lone empty one apart, in a run that had none), no other exit status, no other
outcome, and no time that completes or moves the runtime. -/
structure Quiet (c : Codec) (unit : String) (pre : List Record) (o : Record)
    (tail : List Record) : Prop where
  output : ∀ a r b, tail = a ++ r :: b → fromUnit unit r = true →
    journalMessage c r = .ok "" ∧ ∀ x ∈ pre ++ o :: a, fromUnit unit x = false
  exits : ∀ r ∈ tail, eventOf r = some .processExit → exitStatus c r = exitOf c pre
  outcomes : ∀ r ∈ tail, replaces r = true → eventOf r = eventOf o
  ends : ∀ t, startOf c pre = some t → ∀ r ∈ tail, replaces r = true →
    runtimeOf (some t) (monotonicUs c r) = runtimeOf (some t) (monotonicUs c o)
  starts : startOf c pre = none → ∀ a r b, tail = a ++ r :: b → eventOf r = some .starting →
    monotonicUs c r ≠ none → monotonicUs c (lastOutcome o a) = none ∧
      ∀ x ∈ b, replaces x = true → monotonicUs c x = none

/-- What follows the first outcome of a run is quiet; a run whose messages
cannot be read that far ends there. -/
def Settled (c : Codec) (unit : String) (records : List Record) : Prop :=
  ∀ pre o tail, records = pre ++ o :: tail → (∀ r ∈ pre, isOutcome r = false) →
    isOutcome o = true → (∀ r ∈ pre ++ [o], Readable c unit r) → Quiet c unit pre o tail

section
variable {c : Codec} {unit : String}

/-- The run reads the same with `later` read as well. -/
structure SameReport (c : Codec) (unit : String) (pre : List Record) (o : Record)
    (later : List Record) : Prop where
  readable : ∀ r ∈ later, Readable c unit r
  result : outcomeName (lastOutcome o later) = outcomeName o
  execStatus : exitOf c (pre ++ o :: later) = exitOf c (pre ++ [o])
  output : Text.join "\n" (linesOf c unit (pre ++ o :: later)) =
    Text.join "\n" (linesOf c unit (pre ++ [o]))
  runtime : runtimeOf (startOf c (pre ++ o :: later)) (monotonicUs c (lastOutcome o later)) =
    runtimeOf (startOf c (pre ++ [o])) (monotonicUs c o)

theorem not_starting_of_outcome {o : Record} (ho : isOutcome o = true) :
    eventOf o ≠ some .starting ∧ eventOf o ≠ some .processExit := by
  unfold isOutcome at ho
  constructor <;> (intro he; rw [he] at ho; cases ho)

theorem startOf_outcome {pre : List Record} {o : Record} (ho : isOutcome o = true) :
    startOf c (pre ++ [o]) = startOf c pre := by
  rw [startOf_append]
  have hnone : startOf c [o] = none := by
    rw [startOf, List.filter_cons_of_neg (by simpa using (not_starting_of_outcome ho).1)]
    rfl
  rw [hnone, Option.or_none]

theorem exitOf_outcome {pre : List Record} {o : Record} (ho : isOutcome o = true) :
    exitOf c (pre ++ [o]) = exitOf c pre := by
  rw [exitOf_snoc, if_neg (not_starting_of_outcome ho).2]

theorem append_cons_snoc (pre a : List Record) (o r : Record) :
    pre ++ o :: (a ++ [r]) = (pre ++ o :: a) ++ [r] := by simp

theorem runtimeOf_eq_none {started : Option ℤ} (hs : started ≠ none) {ended : Option ℤ}
    (h : runtimeOf started ended = none) : ended = none := by
  cases started with
  | none => exact absurd rfl hs
  | some t =>
      cases ended with
      | none => rfl
      | some u => cases h

/-- Every part of a tail reads the same exactly when the tail is quiet: what one
part adds to another shows each of its records. -/
theorem quiet_of_same {pre tail : List Record} {o : Record} (ho : isOutcome o = true)
    (hread : ∀ r ∈ pre ++ [o], Readable c unit r)
    (h : ∀ later, later <+: tail → SameReport c unit pre o later) : Quiet c unit pre o tail where
  output a r b htail hu := by
    subst htail
    have ha := h a (List.prefix_append _ _)
    have har := h (a ++ [r]) ⟨b, by simp⟩
    obtain ⟨m, hm⟩ := har.readable r (by simp) hu
    have hlines : linesOf c unit (pre ++ o :: (a ++ [r])) =
        linesOf c unit (pre ++ o :: a) ++ [m] := by
      rw [append_cons_snoc, linesOf_append, linesOf_single hu hm]
    have hjoin := har.output.trans ha.output.symm
    rw [hlines, Text.join_snoc_eq_iff] at hjoin
    obtain ⟨hnil, rfl⟩ := hjoin
    refine ⟨hm, (linesOf_eq_nil_iff fun x hx => ?_).mp hnil⟩
    rcases List.mem_append.mp hx with hx | hx
    · exact hread x (by simp [hx])
    · rcases List.mem_cons.mp hx with rfl | hx
      · exact hread x (by simp)
      · exact ha.readable x hx
  exits r hr he := by
    obtain ⟨a, b, rfl⟩ := List.append_of_mem hr
    have har := (h (a ++ [r]) ⟨b, by simp⟩).execStatus
    rwa [append_cons_snoc, exitOf_snoc, if_pos he, exitOf_outcome ho] at har
  outcomes r hr hrep := by
    obtain ⟨a, b, rfl⟩ := List.append_of_mem hr
    have har := (h (a ++ [r]) ⟨b, by simp⟩).result
    rw [lastOutcome_snoc, if_pos hrep] at har
    exact eventOf_eq_of_outcomeName (isOutcome_of_replaces hrep) ho har
  ends t ht r hr hrep := by
    obtain ⟨a, b, rfl⟩ := List.append_of_mem hr
    have har := (h (a ++ [r]) ⟨b, by simp⟩).runtime
    rwa [lastOutcome_snoc, if_pos hrep, startOf_append, startOf_outcome ho, ht,
      Option.some_or] at har
  starts hpre a r b htail he hr := by
    subst htail
    have hnone : runtimeOf (startOf c (pre ++ [o])) (monotonicUs c o) = none := by
      rw [startOf_outcome ho, hpre]
      rfl
    have hnot : replaces r = false := by
      rw [replaces, he]
      decide
    refine ⟨?_, fun x hx hrep => ?_⟩
    · have har := (h (a ++ [r]) ⟨b, by simp⟩).runtime
      rw [lastOutcome_snoc, if_neg (by simp [hnot]), hnone] at har
      refine runtimeOf_eq_none ?_ har
      rw [append_cons_snoc]
      exact startOf_ne_none he hr
    · obtain ⟨b₁, b₂, rfl⟩ := List.append_of_mem hx
      have hlater : a ++ r :: (b₁ ++ [x]) <+: a ++ r :: (b₁ ++ x :: b₂) := ⟨b₂, by simp⟩
      have hrun := (h _ hlater).runtime
      have hlast : lastOutcome o (a ++ r :: (b₁ ++ [x])) = x := by
        rw [append_cons_snoc, lastOutcome_snoc, if_pos hrep]
      rw [hlast, hnone] at hrun
      refine runtimeOf_eq_none ?_ hrun
      have hsplit : pre ++ o :: (a ++ r :: (b₁ ++ [x])) = (pre ++ o :: a) ++ r :: (b₁ ++ [x]) := by
        simp
      rw [hsplit]
      exact startOf_ne_none he hr

/-- Past the outcome a quiet tail completes no runtime. -/
theorem Quiet.runtime {pre tail : List Record} {o : Record} (h : Quiet c unit pre o tail)
    (ho : isOutcome o = true) {later : List Record} (hlater : later <+: tail) :
    runtimeOf (startOf c (pre ++ o :: later)) (monotonicUs c (lastOutcome o later)) =
      runtimeOf (startOf c (pre ++ [o])) (monotonicUs c o) := by
  obtain ⟨rest, rfl⟩ := hlater
  have hsplit : pre ++ o :: later = (pre ++ [o]) ++ later := by simp
  rw [hsplit, startOf_append, startOf_outcome ho]
  cases hs : startOf c pre with
  | some t =>
      rw [Option.some_or]
      rcases lastOutcome_cases o later with hlast | ⟨hmem, hrep⟩
      · rw [hlast]
      · exact h.ends t hs _ (List.mem_append_left _ hmem) hrep
  | none =>
      rw [Option.none_or]
      by_cases hlate : startOf c later = none
      · rw [hlate]
        rfl
      · obtain ⟨a, r, b, rfl, he, hr⟩ := startOf_isSome hlate
        obtain ⟨hbefore, hafter⟩ := h.starts hs a r (b ++ rest) (by simp) he hr
        have hnot : replaces r = false := by
          rw [replaces, he]
          decide
        -- neither the outcome before that start nor one after it has a time
        have hlast : monotonicUs c (lastOutcome o (a ++ r :: b)) = none := by
          rw [lastOutcome_append]
          rcases lastOutcome_cases (lastOutcome o a) (r :: b) with hlast | ⟨hmem, hrep⟩
          · rw [hlast, hbefore]
          · rcases List.mem_cons.mp hmem with heq | hmem
            · rw [heq, hnot] at hrep
              cases hrep
            · exact hafter _ (List.mem_append_left _ hmem) hrep
        rw [hlast]
        cases startOf c (a ++ r :: b) <;> rfl

/-- A quiet tail reads the same however much of it is read. -/
theorem Quiet.same {pre tail : List Record} {o : Record} (h : Quiet c unit pre o tail)
    (ho : isOutcome o = true) {later : List Record} (hlater : later <+: tail) :
    SameReport c unit pre o later := by
  induction later using List.reverseRecOn with
  | nil => exact ⟨by simp, rfl, rfl, rfl, rfl⟩
  | append_singleton a r ih =>
      have hsame := ih ((List.prefix_append _ _).trans hlater)
      have hruntime := h.runtime ho hlater
      obtain ⟨b, hb⟩ := hlater
      have htail : tail = a ++ r :: b := by rw [← hb]; simp
      have hmem : r ∈ tail := by rw [htail]; simp
      refine ⟨fun x hx => ?_, ?_, ?_, ?_, hruntime⟩
      · rcases List.mem_append.mp hx with hx | hx
        · exact hsame.readable x hx
        · rw [List.mem_singleton.mp hx]
          exact fun hu => ⟨"", (h.output a r b htail hu).1⟩
      · rw [lastOutcome_snoc]
        cases hrep : replaces r with
        | true => rw [if_pos rfl, outcomeName, h.outcomes r hmem hrep, outcomeName]
        | false => exact hsame.result
      · rw [append_cons_snoc, exitOf_snoc]
        by_cases he : eventOf r = some .processExit
        · rw [if_pos he, h.exits r hmem he, exitOf_outcome ho]
        · rw [if_neg he]
          exact hsame.execStatus
      · rw [append_cons_snoc, linesOf_append]
        cases hu : fromUnit unit r with
        | false =>
            have hnone : linesOf c unit [r] = [] := by
              rw [linesOf, List.filter_cons_of_neg (by simp [hu])]
              rfl
            rw [hnone, List.append_nil]
            exact hsame.output
        | true =>
            obtain ⟨hm, hfirst⟩ := h.output a r b htail hu
            have hnil : linesOf c unit (pre ++ o :: a) = [] := by
              rw [linesOf, List.filter_eq_nil_iff.mpr fun x hx => by simp [hfirst x hx]]
              rfl
            rw [← hsame.output, linesOf_single hu hm, Text.join_snoc_eq_iff]
            exact ⟨hnil, rfl⟩

/-! ## The loop on a schedule -/

theorem pollLoop_chunk {t : Tick} (ht : Served t) {cursor next : Option String} {out : String}
    {chunk : List Record} (hpoll : t.poll cursor = some out)
    (hparse : parseJournalJson c out cursor = (next, chunk)) (ts : List Tick) :
    pollLoop c unit (t :: ts) cursor = (do
      scan c unit chunk
      let result ← Exec.look Journal.result
      if result ≠ "" then pure (some (.outcome, next)) else pollLoop c unit ts next) := by
  rw [pollLoop, ht.1, hpoll]
  simp only [hparse, ht.2, Bool.true_eq_false, Bool.false_eq_true, if_false]

theorem pollLoop_failed {t : Tick} (ht : Served t) {cursor : Option String}
    (hpoll : t.poll cursor = none) (ts : List Tick) :
    pollLoop c unit (t :: ts) cursor = pollLoop c unit ts cursor := by
  rw [pollLoop, ht.1, hpoll]
  simp only [ht.2, Bool.true_eq_false, Bool.false_eq_true, if_false]

/-- The result a scan leaves is the one the fold of its records leaves. -/
theorem scan_result {records : List Record} {j j' : Journal}
    (h : scan c unit records j = (.ok (), j')) :
    j'.result = (records.foldl (note c) j).result := by
  by_cases hread : ∀ rec ∈ records, Readable c unit rec
  · rw [scan_of_readable hread j] at h
    cases h
    rfl
  · simp only [not_forall] at hread
    obtain ⟨rec, hmem, hbad⟩ := hread
    obtain ⟨e, u, he, -⟩ := scan_of_unreadable ⟨rec, hmem, hbad⟩ j
    cases he.symm.trans h

/-- The chunk the outcome is in ends the loop. -/
theorem pollLoop_last {pre later : List Record} {o : Record}
    (hpre : ∀ r ∈ pre, isOutcome r = false) (ho : isOutcome o = true) {t : Tick} (ht : Served t)
    {cursor next : Option String} {out : String} (hpoll : t.poll cursor = some out)
    (hparse : parseJournalJson c out cursor = (next, pre ++ o :: later)) (ts : List Tick)
    {j : Journal} (hj : j.result = "") :
    pollLoop c unit (t :: ts) cursor j =
      (scan c unit (pre ++ o :: later) >>= fun _ => pure (some (.outcome, next))) j := by
  rw [pollLoop_chunk ht hpoll hparse]
  rcases hscan : scan c unit (pre ++ o :: later) j with ⟨e | _, j'⟩
  · rw [Exec.bind_error _ hscan, Exec.bind_error _ hscan]
  · have hres := scan_result hscan
    rw [List.foldl_append, List.foldl_cons] at hres
    have hopen := (foldl_of_no_outcome (c := c) hpre j).trans hj
    have hended := (note_outcome (c := c) ho hopen).foldl later
    have hne : j'.result ≠ "" := by
      rw [hres, hended.2.1]
      exact outcomeName_ne hended.1
    rw [Exec.bind_ok _ hscan, Exec.bind_ok _ hscan, Exec.look_bind, if_pos hne]

omit c unit in
/-- The outcome of a run is past a chunk, or in it. -/
theorem within_chunk {chunk records pre tail : List Record} {o : Record}
    (h : chunk ++ records = pre ++ o :: tail) :
    (∃ pre', pre = chunk ++ pre' ∧ records = pre' ++ o :: tail) ∨
      ∃ later, chunk = pre ++ o :: later ∧ tail = later ++ records := by
  rcases List.append_eq_append_iff.mp h with ⟨pre', hpre, hrest⟩ | ⟨later, hchunk, hrest⟩
  · exact .inl ⟨pre', hpre, hrest⟩
  · cases later with
    | nil => exact .inl ⟨[], by simpa using hchunk.symm, hrest.symm⟩
    | cons o' later =>
        rw [List.cons_append, List.cons.injEq] at hrest
        obtain ⟨rfl, htail⟩ := hrest
        exact .inr ⟨later, hchunk, htail⟩

/-- A schedule that delivers a run with an outcome ends the loop there, with some
of what follows the outcome read. -/
theorem pollLoop_cutting {cursor : Option String} {ts : List Tick} {records : List Record}
    (h : Cutting c cursor ts records) :
    ∀ {pre tail : List Record} {o : Record}, records = pre ++ o :: tail →
      (∀ r ∈ pre, isOutcome r = false) → isOutcome o = true → ∀ {j : Journal}, j.result = "" →
      ∃ later next, later <+: tail ∧ pollLoop c unit ts cursor j =
        (scan c unit (pre ++ o :: later) >>= fun _ => pure (some (.outcome, next))) j := by
  induction h with
  | nil =>
      intro pre tail o hrs
      cases pre <;> cases hrs
  | @failed cursor t ts records ht hpoll _ ih =>
      intro pre tail o hrs hpre ho j hj
      rw [pollLoop_failed ht hpoll]
      exact ih hrs hpre ho hj
  | @chunk cursor next t ts out chunk records ht hpoll hparse _ ih =>
      intro pre tail o hrs hpre ho j hj
      -- the outcome is in this chunk, or in a later one
      rcases within_chunk hrs with ⟨pre', rfl, hrest⟩ | ⟨later, rfl, rfl⟩
      · have hnone : ∀ r ∈ chunk, isOutcome r = false := fun r hr => hpre r (by simp [hr])
        rw [pollLoop_chunk ht hpoll hparse]
        by_cases hread : ∀ r ∈ chunk, Readable c unit r
        · obtain ⟨j₁, hscan, hopen⟩ : ∃ j₁, scan c unit chunk j = (.ok (), j₁) ∧ j₁.result = "" :=
            ⟨_, scan_of_readable hread j, (foldl_of_no_outcome hnone j).trans hj⟩
          obtain ⟨later, next', hlater, hloop⟩ := ih hrest (fun r hr => hpre r (by simp [hr])) ho hopen
          refine ⟨later, next', hlater, ?_⟩
          rw [Exec.bind_ok _ hscan, Exec.look_bind, if_neg (not_not_intro hopen), hloop,
            List.append_assoc, Exec.bind_congr_at _ (scan_append chunk (pre' ++ o :: later) j),
            Exec.bind_assoc', Exec.bind_ok _ hscan]
        · simp only [not_forall] at hread
          obtain ⟨r, hmem, hbad⟩ := hread
          obtain ⟨e, j', he, hrest'⟩ := scan_of_unreadable ⟨r, hmem, hbad⟩ j
          refine ⟨[], next, List.nil_prefix, ?_⟩
          rw [Exec.bind_error _ he, List.append_assoc, Exec.bind_error _ (hrest' _)]
      · exact ⟨later, next, List.prefix_append later records,
          pollLoop_last hpre ho ht hpoll hparse ts hj⟩

/-! ## The whole step on a schedule -/

/-- The crash lines a step returns of a guest that is up. -/
def crashLines (s : UnitSuite) (c : Codec) (g : Guest) (args : WaitArgs) :
    Except PyError (List String × Option ℕ) :=
  if s = .selftests then userCrashes c g.kernel args.cursor else .ok ([], none)

/-- What the step gives once the loop ended with the outcome. -/
def concluded (s : UnitSuite) (c : Codec) (g : Guest) (args : WaitArgs)
    (scanned : Except PyError Unit × Journal) : Except PyError (Option Waited) :=
  match scanned with
  | (.error e, _) => .error e
  | (.ok _, j) => do
      let crashes ← crashLines s c g args
      .ok (some (waited args .outcome j crashes))

theorem waitMain_of_loop (s : UnitSuite) (g : Guest) (args : WaitArgs) {records : List Record}
    {next : Option String}
    (h : pollLoop c args.unit g.ticks (some args.cursor) Journal.empty =
      (scan c args.unit records >>= fun _ => pure (some (.outcome, next))) Journal.empty) :
    waitMain s c g args = concluded s c g args (scan c args.unit records Journal.empty) := by
  rw [waitMain, Exec.bind_congr_at _ h, Exec.bind_assoc']
  rcases hscan : scan c args.unit records Journal.empty with ⟨e | _, j⟩
  · rw [Exec.bind_error _ hscan]
    rfl
  · rw [Exec.bind_ok _ hscan]
    cases s with
    | selftests =>
        show (((Exec.lift (userCrashes c g.kernel args.cursor)) >>= fun crashes =>
          pure (some (waited args .outcome j crashes)) : Exec Journal (Option Waited)) j).1 = _
        rcases hc : userCrashes c g.kernel args.cursor with e | crashes
        · simp only [concluded, crashLines, hc, if_true]
          rfl
        · simp only [concluded, crashLines, hc, if_true]
          rfl
    | kunit => rfl
    | usertests => rfl

theorem waitMain_cutting {s : UnitSuite} {g : Guest} {args : WaitArgs} {pre tail : List Record}
    {o : Record} (hpre : ∀ r ∈ pre, isOutcome r = false) (ho : isOutcome o = true)
    (h : Cutting c (some args.cursor) g.ticks (pre ++ o :: tail)) :
    ∃ later, later <+: tail ∧ waitMain s c g args =
      concluded s c g args (scan c args.unit (pre ++ o :: later) Journal.empty) := by
  obtain ⟨later, next, hlater, hloop⟩ := pollLoop_cutting h rfl hpre ho
    (j := Journal.empty) rfl
  exact ⟨later, hlater, waitMain_of_loop s g args hloop⟩

/-! ## Schedules that cut a run anywhere -/

/-- Records are the lines of some output. -/
theorem exists_output {records : List Record} (h : Sent c records) :
    ∃ out, ∀ cursor, parseJournalJson c out cursor = (cursor, records) := by
  have hread : ∃ text : List Char, ∀ acc : Option String × List Record,
      (Text.splitlines text).foldl (readLine c) acc = (acc.1, acc.2 ++ records) := by
    induction records with
    | nil => exact ⟨[], fun acc => by simp [Text.splitlines]⟩
    | cons rec records ih =>
        obtain ⟨line, hbrace, hline, hloads⟩ := h rec List.mem_cons_self
        obtain ⟨text, htext⟩ := ih fun r hr => h r (List.mem_cons_of_mem _ hr)
        have hcursor : isCursorLine line = false := by
          cases line with
          | nil => cases hbrace
          | cons ch chs =>
              cases hbrace
              rfl
        refine ⟨line ++ '\n' :: text, fun acc => ?_⟩
        rw [Text.splitlines_line hline, List.foldl_cons, readLine, hcursor]
        simp only [hbrace, hloads, htext, ne_eq, not_true_eq_false, if_false, Bool.false_eq_true,
          List.append_assoc, List.singleton_append]
  obtain ⟨text, htext⟩ := hread
  refine ⟨String.ofList text, fun cursor => ?_⟩
  rw [parseJournalJson, String.toList_ofList, htext]
  rfl

/-- The turn of an output. -/
def turnOf (out : String) : Tick := ⟨"active", fun _ => some out, false⟩

theorem served_turnOf (out : String) : Served (turnOf out) := by
  have halive : alive "active" = true := by decide
  exact ⟨halive, rfl⟩

/-- A run can be cut anywhere past its outcome. -/
theorem exists_cutting (args : WaitArgs) {pre rest : List Record} {o : Record} (later : List Record)
    (hpre : ∀ r ∈ pre, isOutcome r = false) (ho : isOutcome o = true)
    (h : Sent c (pre ++ o :: (later ++ rest))) (s : UnitSuite) :
    ∃ g : Guest, g.kernel = none ∧
      Cutting c (some args.cursor) g.ticks (pre ++ o :: (later ++ rest)) ∧
      waitMain s c g args =
        concluded s c g args (scan c args.unit (pre ++ o :: later) Journal.empty) := by
  have hsplit : pre ++ o :: (later ++ rest) = (pre ++ o :: later) ++ rest := by simp
  rw [hsplit] at h
  obtain ⟨out₁, hout₁⟩ := exists_output fun r hr => h r (List.mem_append_left _ hr)
  obtain ⟨out₂, hout₂⟩ := exists_output fun r hr => h r (List.mem_append_right _ hr)
  refine ⟨⟨[turnOf out₁, turnOf out₂], fun _ => none, none⟩, rfl, ?_, ?_⟩
  · have hlast : Cutting c (some args.cursor) [turnOf out₂] (rest ++ []) :=
      .chunk (served_turnOf out₂) rfl (hout₂ _) .nil
    rw [List.append_nil] at hlast
    rw [hsplit]
    exact .chunk (served_turnOf out₁) rfl (hout₁ _) hlast
  · exact waitMain_of_loop _ _ _ (pollLoop_last hpre ho (served_turnOf out₁) rfl (hout₁ _) _ rfl)

/-! ## One verdict, however the journal is cut -/

/-- The report read off the records, `later` those read past the first outcome. -/
def runReport (c : Codec) (unit : String) (pre : List Record) (o : Record)
    (later : List Record) : String × String × String × Option ℚ :=
  (outcomeName (lastOutcome o later), exitOf c (pre ++ o :: later),
    Text.join "\n" (linesOf c unit (pre ++ o :: later)),
    runtimeOf (startOf c (pre ++ o :: later)) (monotonicUs c (lastOutcome o later)))

/-- A run whose messages read is reported as its records say. -/
theorem report_of_scan (args : WaitArgs) {pre later : List Record} {o : Record}
    (hpre : ∀ r ∈ pre, isOutcome r = false) (ho : isOutcome o = true)
    (hread : ∀ r ∈ pre ++ o :: later, Readable c args.unit r) :
    ∃ j, scan c args.unit (pre ++ o :: later) Journal.empty = (.ok (), j) ∧
      ∀ crashes, (waited args .outcome j crashes).report =
        runReport c args.unit pre o later := by
  obtain ⟨⟨-, hres, hend⟩, hexit, hstart⟩ := foldl_run (c := c) hpre ho later
  refine ⟨_, scan_of_readable hread _, fun crashes => ?_⟩
  show (_, _, _, _) = (_, _, _, _)
  rw [waited]
  simp only [hres, hend, hexit, hstart]
  rfl

theorem SameReport.runReport {pre later : List Record} {o : Record}
    (h : SameReport c unit pre o later) : runReport c unit pre o later = runReport c unit pre o [] := by
  rw [Suites.runReport, h.result, h.execStatus, h.output, h.runtime]
  rfl

/-- The status depends on what the wait reports, not on the wall clock. -/
theorem collectStatus_waited (r : Readers) (failOnUserCrash : Bool) (s : UnitSuite)
    {args : WaitArgs} {e : Ending} {j j' : Journal} {crashes : List String × Option ℕ}
    (h : (waited args e j crashes).report = (waited args e j' crashes).report) :
    collectStatus r failOnUserCrash s (waited args e j crashes) =
      collectStatus r failOnUserCrash s (waited args e j' crashes) := by
  obtain ⟨hres, hexit, hout, hrun⟩ : j.result = j'.result ∧ j.execStatus = j'.execStatus ∧
      Text.join "\n" j.lines = Text.join "\n" j'.lines ∧
      runtimeOf j.startedAt j.endedAt = runtimeOf j'.startedAt j'.endedAt := by
    simpa [Waited.report, waited] using h
  have hclock : waited args e j crashes = { waited args e j' crashes with
      startedMs := j.startedMs, endedMs := j.endedMs } := by
    simp only [waited, hres, hexit, hout, hrun]
  rw [hclock]
  cases s <;> rfl

/-- Two runs that read alike are waited for alike. -/
theorem alike_concluded (r : Readers) (failOnUserCrash : Bool) {s : UnitSuite} {g₁ g₂ : Guest}
    {args : WaitArgs} (hkernel : g₁.kernel = g₂.kernel) {j₁ j₂ : Journal}
    (h : ∀ crashes, (waited args .outcome j₁ crashes).report =
      (waited args .outcome j₂ crashes).report) :
    Alike r failOnUserCrash s (concluded s c g₁ args (.ok (), j₁))
      (concluded s c g₂ args (.ok (), j₂)) := by
  have hcrash : crashLines s c g₁ args = crashLines s c g₂ args := by
    rw [crashLines, hkernel, crashLines]
  rw [concluded, concluded, hcrash]
  rcases crashLines s c g₂ args with e | crashes
  · exact ⟨rfl, rfl, fun hnone => by cases hnone⟩
  · refine ⟨?_, ?_, fun hnone => by cases hnone⟩
    · exact congrArg (fun x => Except.ok (some x)) (h crashes)
    · exact congrArg (fun x => Except.ok (some x))
        (collectStatus_waited r failOnUserCrash s (h crashes))

/-- The first outcome of a run that has one. -/
theorem first_outcome {records : List Record} (h : ∃ r ∈ records, isOutcome r = true) :
    ∃ pre o tail, records = pre ++ o :: tail ∧ (∀ r ∈ pre, isOutcome r = false) ∧
      isOutcome o = true := by
  induction records with
  | nil =>
      obtain ⟨_, hmem, -⟩ := h
      cases hmem
  | cons rec records ih =>
      cases hrec : isOutcome rec with
      | true => exact ⟨[], rec, records, rfl, by simp, hrec⟩
      | false =>
          obtain ⟨r, hmem, hr⟩ := h
          have hlater : r ∈ records := by
            rcases List.mem_cons.mp hmem with rfl | hmem
            · rw [hrec] at hr
              cases hr
            · exact hmem
          obtain ⟨pre, o, tail, rfl, hpre, ho⟩ := ih ⟨r, hlater, hr⟩
          refine ⟨rec :: pre, o, tail, rfl, fun x hx => ?_, ho⟩
          rcases List.mem_cons.mp hx with rfl | hx
          · exact hrec
          · exact hpre x hx

/-- Every two schedules that deliver the records give one verdict. -/
def CutAlike (s : UnitSuite) (c : Codec) (args : WaitArgs) (records : List Record) : Prop :=
  ∀ (r : Readers) (failOnUserCrash : Bool) (g₁ g₂ : Guest), g₁.kernel = g₂.kernel →
    Cutting c (some args.cursor) g₁.ticks records → Cutting c (some args.cursor) g₂.ticks records →
    Alike r failOnUserCrash s (waitMain s c g₁ args) (waitMain s c g₂ args)

theorem cutAlike_of_settled {s : UnitSuite} {args : WaitArgs} {records : List Record}
    (hout : ∃ r ∈ records, isOutcome r = true) (h : Settled c args.unit records) :
    CutAlike s c args records := by
  intro r failOnUserCrash g₁ g₂ hkernel hcut₁ hcut₂
  obtain ⟨pre, o, tail, rfl, hpre, ho⟩ := first_outcome hout
  obtain ⟨later₁, hlater₁, hrun₁⟩ := waitMain_cutting (s := s) hpre ho hcut₁
  obtain ⟨later₂, hlater₂, hrun₂⟩ := waitMain_cutting (s := s) hpre ho hcut₂
  rw [hrun₁, hrun₂]
  by_cases hread : ∀ x ∈ pre ++ [o], Readable c args.unit x
  · have hquiet := h pre o tail rfl hpre ho hread
    have hreport : ∀ {later}, later <+: tail →
        ∃ j, scan c args.unit (pre ++ o :: later) Journal.empty = (.ok (), j) ∧
          ∀ crashes, (waited args .outcome j crashes).report = runReport c args.unit pre o [] := by
      intro later hlater
      have hsame := hquiet.same ho hlater
      rw [← hsame.runReport]
      refine report_of_scan args hpre ho fun x hx => ?_
      rcases List.mem_append.mp hx with hx | hx
      · exact hread x (by simp [hx])
      · rcases List.mem_cons.mp hx with rfl | hx
        · exact hread x (by simp)
        · exact hsame.readable x hx
    obtain ⟨j₁, hj₁, hrep₁⟩ := hreport hlater₁
    obtain ⟨j₂, hj₂, hrep₂⟩ := hreport hlater₂
    rw [hj₁, hj₂]
    exact alike_concluded r failOnUserCrash hkernel fun crashes =>
      (hrep₁ crashes).trans (hrep₂ crashes).symm
  · simp only [not_forall] at hread
    obtain ⟨x, hmem, hbad⟩ := hread
    obtain ⟨e, j, -, hrest⟩ := scan_of_unreadable ⟨x, hmem, hbad⟩ Journal.empty
    have hstop : ∀ later, scan c args.unit (pre ++ o :: later) Journal.empty = (.error e, j) := by
      intro later
      have hsplit : pre ++ o :: later = (pre ++ [o]) ++ later := by simp
      rw [hsplit, hrest]
    rw [hstop, hstop]
    exact ⟨rfl, rfl, fun hnone => by cases hnone⟩

theorem settled_of_cutAlike {s : UnitSuite} {args : WaitArgs} {records : List Record}
    (hsent : Sent c records) (h : CutAlike s c args records) : Settled c args.unit records := by
  rintro pre o tail rfl hpre ho hread
  refine quiet_of_same ho hread fun later hlater => ?_
  obtain ⟨rest, rfl⟩ := hlater
  obtain ⟨g₁, hk₁, hcut₁, hrun₁⟩ := exists_cutting args later hpre ho hsent s
  obtain ⟨g₂, hk₂, hcut₂, hrun₂⟩ := exists_cutting args [] hpre ho hsent s
  obtain ⟨j₀, hj₀, hrep₀⟩ := report_of_scan args hpre ho hread
  have hnone : ∀ {g : Guest}, g.kernel = none → crashLines s c g args = .ok ([], none) := by
    intro g hk
    rw [crashLines, hk]
    cases s <;> rfl
  have halike := (h ⟨fun _ => ⟨0, 0, 0, false⟩, fun _ _ => ⟨0, 0, 0, false⟩, fun _ _ => []⟩ false
    g₁ g₂ (hk₁.trans hk₂.symm) hcut₁ hcut₂).1
  rw [hrun₁, hrun₂, hj₀] at halike
  by_cases hlate : ∀ x ∈ pre ++ o :: later, Readable c args.unit x
  · obtain ⟨j₁, hj₁, hrep₁⟩ := report_of_scan args hpre ho hlate
    rw [hj₁, concluded, concluded, hnone hk₁, hnone hk₂] at halike
    have hreport : runReport c args.unit pre o later = runReport c args.unit pre o [] := by
      rw [← hrep₁ ([], none), ← hrep₀ ([], none)]
      exact Option.some.inj (Except.ok.inj halike)
    rw [runReport, runReport, Prod.mk.injEq, Prod.mk.injEq, Prod.mk.injEq] at hreport
    obtain ⟨hres, hexit, hlines, hrun⟩ := hreport
    exact ⟨fun x hx => hlate x (by simp [hx]), hres, hexit, hlines, hrun⟩
  · simp only [not_forall] at hlate
    obtain ⟨x, hmem, hbad⟩ := hlate
    obtain ⟨e, j, he, -⟩ := scan_of_unreadable ⟨x, hmem, hbad⟩ Journal.empty
    rw [he, concluded, concluded, hnone hk₂] at halike
    cases halike

end

/-- A run that ends with its outcome is settled. -/
theorem settled_of_last {c : Codec} {unit : String} {pre : List Record} {o : Record}
    (hpre : ∀ r ∈ pre, isOutcome r = false) : Settled c unit (pre ++ [o]) := by
  intro pre' o' tail hsplit hpre' ho' _
  have hnil : tail = [] := by
    rcases within_chunk hsplit with ⟨mid, -, hmid⟩ | ⟨later, hlater, -⟩
    · cases mid with
      | nil =>
          rw [List.nil_append, List.cons.injEq] at hmid
          exact hmid.2.symm
      | cons x xs =>
          rw [List.cons_append, List.cons.injEq] at hmid
          exact absurd hmid.2.symm (by simp)
    · have hmem : o' ∈ pre := by rw [hlater]; simp
      rw [hpre o' hmem] at ho'
      cases ho'
  subst hnil
  exact ⟨fun a r b h => by simp at h, by simp, by simp, by simp, fun _ a r b h => by simp at h⟩

/-! ## A run that stores its last line after the outcome -/

/-- The fields of the records of one kselftest run: the start, the header and
the plan, the outcome, and the result line. -/
def lateFields : List (List (String × String)) :=
  let output (message : String) :=
    [("_SYSTEMD_UNIT", "kselftest@kvm.service"), ("MESSAGE", message)]
  [[("MESSAGE_ID", Event.starting.messageId), ("__MONOTONIC_TIMESTAMP", "1000000")],
    output "TAP version 13", output "1..1",
    [("MESSAGE_ID", Event.started.messageId), ("__MONOTONIC_TIMESTAMP", "3000000")],
    output "ok 1 selftests: kvm: smm_test"]

/-- The record of its fields. -/
def recordOf (fields : List (String × String)) : Record := fields.map fun p => (p.1, .str p.2)

/-- The line `journalctl` prints of them. -/
def lineOf (fields : List (String × String)) : List Char :=
  let quoted (s : String) := ['"'] ++ s.toList ++ ['"']
  ['\x7b'] ++ [','].intercalate (fields.map fun p => quoted p.1 ++ [':'] ++ quoted p.2) ++ ['\x7d']

/-- Python on the texts of that run. -/
def lateCodec : Codec where
  loads line := (lateFields.find? fun fields => lineOf fields = line).map recordOf
  readInt s := if s = "1000000" then some 1000000 else if s = "3000000" then some 3000000 else none
  strOf _ := ""
  decode _ := ""

def lateRun : List Record := lateFields.map recordOf

def lateArgs : WaitArgs := ⟨"vm0", "kvm", "kselftest@kvm.service", "s=0"⟩

theorem sent_lateRun : Sent lateCodec lateRun := by
  have hbreak : (lateFields.all fun fields => (lineOf fields).all fun ch =>
      !Text.isLineBreak ch) = true := by decide +kernel
  have hloads : lateFields.map (fun fields => lateCodec.loads (lineOf fields)) =
      lateFields.map fun fields => some (recordOf fields) := by decide +kernel
  intro rec hrec
  obtain ⟨fields, hmem, rfl⟩ := List.mem_map.mp hrec
  refine ⟨lineOf fields, rfl, fun ch hch => ?_, List.map_inj_left.mp hloads fields hmem⟩
  have hline := List.all_eq_true.mp (List.all_eq_true.mp hbreak fields hmem) ch hch
  rwa [Bool.not_eq_true'] at hline

/-- What a poll prints of some of the lines. -/
def polled (fields : List (List (String × String))) (cursor : String) : List Char :=
  ['\n'].intercalate (fields.map lineOf ++ ["-- cursor: ".toList ++ cursor.toList])

/-- One poll that finds the whole run. -/
def oneChunk : Guest := ⟨[turnOf (String.ofList (polled lateFields "s=5"))], fun _ => none, none⟩

/-- Two polls, the outcome in the first. -/
def twoChunks : Guest :=
  ⟨[turnOf (String.ofList (polled (lateFields.take 4) "s=4")),
    turnOf (String.ofList (polled (lateFields.drop 4) "s=5"))], fun _ => none, none⟩

/-- A document is complete when the one result it plans is there. -/
def lateReaders : Readers where
  selftestsKtap text :=
    if text = "TAP version 13\n1..1\nok 1 selftests: kvm: smm_test" then ⟨1, 0, 0, true⟩
    else ⟨0, 0, 0, false⟩
  kunitKtap _ _ := ⟨0, 0, 0, false⟩
  findings _ _ := []

theorem parse_ofList {c : Codec} {text : List Char} {cursor : Option String}
    {found : Option String × List Record}
    (h : (Text.splitlines text).foldl (readLine c) (cursor, []) = found) :
    parseJournalJson c (String.ofList text) cursor = found := by
  rw [parseJournalJson, String.toList_ofList, h]

/-- The run up to its outcome, and the line stored after it. -/
def lateHead : List Record := lateRun.take 3

def lateOutcome : Record := recordOf
  [("MESSAGE_ID", Event.started.messageId), ("__MONOTONIC_TIMESTAMP", "3000000")]

def lateTail : List Record := lateRun.drop 4

theorem lateRun_eq : lateRun = lateHead ++ lateOutcome :: lateTail := rfl

theorem parse_oneChunk : parseJournalJson lateCodec (String.ofList (polled lateFields "s=5"))
    (some "s=0") = (some "s=5", lateHead ++ lateOutcome :: lateTail) :=
  parse_ofList (by decide +kernel)

theorem parse_first : parseJournalJson lateCodec (String.ofList (polled (lateFields.take 4) "s=4"))
    (some "s=0") = (some "s=4", lateHead ++ [lateOutcome]) :=
  parse_ofList (by decide +kernel)

theorem parse_second : parseJournalJson lateCodec (String.ofList (polled (lateFields.drop 4) "s=5"))
    (some "s=4") = (some "s=5", lateTail) :=
  parse_ofList (by decide +kernel)

theorem open_lateHead : ∀ r ∈ lateHead, isOutcome r = false := by decide +kernel

theorem isOutcome_lateOutcome : isOutcome lateOutcome = true := by decide +kernel

theorem cutting_oneChunk : Cutting lateCodec (some lateArgs.cursor) oneChunk.ticks lateRun := by
  have h : Cutting lateCodec (some lateArgs.cursor) oneChunk.ticks
      ((lateHead ++ lateOutcome :: lateTail) ++ []) :=
    .chunk (served_turnOf _) rfl parse_oneChunk .nil
  rwa [List.append_nil] at h

theorem cutting_twoChunks : Cutting lateCodec (some lateArgs.cursor) twoChunks.ticks lateRun := by
  have h : Cutting lateCodec (some lateArgs.cursor) twoChunks.ticks
      ((lateHead ++ [lateOutcome]) ++ (lateTail ++ [])) :=
    .chunk (served_turnOf _) rfl parse_first (.chunk (served_turnOf _) rfl parse_second .nil)
  rwa [List.append_nil, List.append_assoc] at h

theorem oneChunk_passes : (waitMain .selftests lateCodec oneChunk lateArgs).map
    (·.map (collectStatus lateReaders false .selftests)) = .ok (some .passed) := by
  have hloop := waitMain_of_loop .selftests oneChunk lateArgs (pollLoop_last
    open_lateHead isOutcome_lateOutcome (served_turnOf _) rfl parse_oneChunk [] (j := .empty) rfl)
  rw [hloop]
  decide +kernel

theorem twoChunks_fails : (waitMain .selftests lateCodec twoChunks lateArgs).map
    (·.map (collectStatus lateReaders false .selftests)) = .ok (some .failed) := by
  have hloop := waitMain_of_loop .selftests twoChunks lateArgs (pollLoop_last
    open_lateHead isOutcome_lateOutcome (served_turnOf _) rfl parse_first _ (j := .empty) rfl)
  rw [hloop]
  decide +kernel

end KdevopsNg.Suites
