/-
# `RuntimeTests.Wait` — waiting for a module load, two journals at a time

`main` of `f/runtime_tests/wait.py`.  Each poll makes two fetches, each from a cursor
of its own: the records of the unit, which hold the outcome of the job, and those of
the kernel, whose messages are the log the verdict reads.  A fetch that raises ends
the poll; what was read before it stays read, the cursor moved.

The host and the guest are a schedule of polls (`Poll`).  `walk` is the same wait told
by how far each journal was read (`Marks`):

    the unit's fetch raises      neither mark moves
    the kernel's fetch raises    the unit's mark moves
    both get through             both move, and the wait looks at the outcome

`wait_walk` ties the two together, for fetches that give what a journal holds from a
cursor on (`Gives`).
-/
import KdevopsNg.Suites.Wait

namespace KdevopsNg.RuntimeTests

open Py Suites

/-! ## The scan -/

/-- `MSG_UNIT_SKIPPED`. -/
def skippedId : String := "0e4284a0caca4bfc81c0bb6786972673"

/-- A record of a start job its condition skipped. -/
def isSkipped (rec : Record) : Bool := decide (Dict.get? rec "MESSAGE_ID" = some (.str skippedId))

/-- What a record changes in `scan`. -/
def noteModule (c : Codec) (j : Journal) (rec : Record) : Journal :=
  if isSkipped rec then j.ends c rec "skipped" else note c j rec

/-! ## The wait step -/

/-- One turn of the poll loop: the text of `systemctl is-active`, what the two fetches give
from a cursor (none when they raise), and whether the deadline has passed after them. -/
structure Poll where
  hostState : String
  unit : Option String → Option String
  kernel : Option String → Option String
  expired : Bool

/-- The guest as the step meets it: the turns of the loop, the fetch after a timeout, and the
exit code of the probe of the module (none when it raises). -/
structure Guest where
  polls : List Poll
  last : Poll
  probe : Option ℤ

/-- The step's own arguments. -/
structure WaitArgs where
  vmName : String
  module : String
  unit : String
  cursor : String

/-- What the step keeps: the outcome so far, the two cursors, the log, and the units it
stopped on the guest. -/
structure Kept where
  journal : Journal
  runCursor : Option String
  kmsgCursor : Option String
  kmsgLines : List String
  stopped : List String

/-- What the step returns. -/
structure Waited where
  vm : String
  module : String
  unit : String
  result : String
  loaded : Bool
  execStatus : String
  kmsg : String
  crashed : Bool
  timedOut : Bool
  runtime : Option ℚ
  startedMs : Option ℤ
  endedMs : Option ℤ

section
variable (c : Codec)

/-- `kmsg_lines.extend(...)`. -/
def extendKmsg : List Record → Exec Kept Unit
  | [] => pure ()
  | rec :: records => do
      let line ← Exec.lift (journalMessage c rec)
      Exec.modify fun k => { k with kmsgLines := k.kmsgLines ++ [line] }
      extendKmsg records

/-- The unit's half of `fetch`. -/
def fetchUnit (p : Poll) : Exec Kept Unit := do
  let cursor ← Exec.look Kept.runCursor
  match p.unit cursor with
  | none => Exec.raise (.calledProcessError "ssh")
  | some out =>
      let polled := parseJournalJson c out cursor
      Exec.modify fun k =>
        { k with runCursor := polled.1, journal := polled.2.foldl (noteModule c) k.journal }

/-- The kernel's half of `fetch`. -/
def fetchKernel (p : Poll) : Exec Kept Unit := do
  let cursor ← Exec.look Kept.kmsgCursor
  match p.kernel cursor with
  | none => Exec.raise (.calledProcessError "ssh")
  | some out =>
      let polled := parseJournalJson c out cursor
      Exec.modify fun k => { k with kmsgCursor := polled.1 }
      extendKmsg c polled.2

/-- `fetch`. -/
def fetch (p : Poll) : Exec Kept Unit := do
  fetchUnit c p
  fetchKernel c p

/-- The poll loop; `none` while it still polls when the schedule ends. -/
def pollLoop : List Poll → Exec Kept (Option Ending)
  | [] => pure none
  | p :: ps => fun k =>
      if alive p.hostState = false then (.ok (some .crashed), k)
      else match fetch c p k with
        | (.error _, k) => if p.expired then (.ok (some .timedOut), k) else pollLoop ps k
        | (.ok (), k) =>
            if k.journal.result ≠ "" then (.ok (some .outcome), k)
            else if p.expired then (.ok (some .timedOut), k)
            else pollLoop ps k

/-- Stop the unit of a run that timed out, and fetch once more, whatever that raises. -/
def abort (g : Guest) (args : WaitArgs) : Exec Kept Unit := do
  Exec.modify fun k => { k with stopped := k.stopped ++ [args.unit] }
  Exec.modify fun k => (fetch c g.last k).2

/-- The object the step returns of what it kept. -/
def waited (g : Guest) (args : WaitArgs) (ending : Ending) (k : Kept) : Waited :=
  { vm := args.vmName
    module := args.module
    unit := args.unit
    result := k.journal.result
    loaded := decide (ending ≠ .crashed ∧ g.probe = some 0)
    execStatus := k.journal.execStatus
    kmsg := Text.join "\n" k.kmsgLines
    crashed := ending = .crashed
    timedOut := ending = .timedOut
    runtime := runtimeOf k.journal.startedAt k.journal.endedAt
    startedMs := k.journal.startedMs
    endedMs := k.journal.endedMs }

/-- `main`, from the state it starts in. -/
def waitBody (g : Guest) (args : WaitArgs) : Exec Kept (Option Waited) := do
  let left ← pollLoop c g.polls
  match left with
  | none => pure none
  | some ending => do
      (if ending = .timedOut then abort c g args else pure ())
      let k ← Exec.get
      pure (some (waited g args ending k))

/-- Nothing is read yet, and both cursors are the start's. -/
def Kept.start (args : WaitArgs) : Kept :=
  ⟨Journal.empty, some args.cursor, some args.cursor, [], []⟩

/-- `main`: what it returns, and what it keeps. -/
def waitMain (g : Guest) (args : WaitArgs) : Except PyError (Option Waited) × Kept :=
  waitBody c g args (Kept.start args)

end

/-! ## The journals, and the wait over them -/

/-- A journal from the start's cursor on: its records, and the cursor behind the first ones. -/
structure Stream where
  records : List Record
  cursor : ℕ → String

/-- A fetch that raises, or gives the records up to a mark from any cursor before it. -/
def Gives (c : Codec) (J : Stream) (fetch : Option String → Option String) : Option ℕ → Prop
  | none => ∀ cursor, fetch cursor = none
  | some n => ∀ p ≤ n, ∃ out, fetch (some (J.cursor p)) = some out ∧
      parseJournalJson c out (some (J.cursor p)) =
        (some (J.cursor n), (J.records.take n).drop p)

/-- A turn of the loop as the journals see it: whether the VM is up, the marks the two fetches
reach, and whether the deadline has passed after them. -/
structure Turn where
  up : Bool
  unit : Option ℕ
  kernel : Option ℕ
  expired : Bool
  deriving DecidableEq

/-- The polls are these turns. -/
structure Realizes (c : Codec) (U K : Stream) (p : Poll) (t : Turn) : Prop where
  up : alive p.hostState = t.up
  unit : Gives c U p.unit t.unit
  kernel : Gives c K p.kernel t.kernel
  expired : p.expired = t.expired

/-- How far the two journals were read. -/
structure Marks where
  unit : ℕ
  kernel : ℕ
  deriving DecidableEq

/-- The marks after the fetches of a turn. -/
def Turn.marks (t : Turn) (m : Marks) : Marks :=
  match t.unit, t.kernel with
  | none, _ => m
  | some n, none => ⟨n, m.kernel⟩
  | some n, some k => ⟨n, k⟩

/-- Both fetches of the turn get through. -/
def Turn.whole (t : Turn) : Bool := t.unit.isSome && t.kernel.isSome

/-- The wait over the journals: how it ends and how far it read. -/
def walk (done : ℕ → Bool) : List Turn → Marks → Option (Ending × Marks)
  | [], _ => none
  | t :: ts, m =>
      if t.up = false then some (.crashed, m)
      else if t.whole && done (t.marks m).unit then some (.outcome, t.marks m)
      else if t.expired then some (.timedOut, t.marks m)
      else walk done ts (t.marks m)

/-- The journals only grow: no fetch reaches less than one before it. -/
def Grows (turns : List Turn) : Prop :=
  (turns.filterMap Turn.unit).Pairwise (· ≤ ·) ∧ (turns.filterMap Turn.kernel).Pairwise (· ≤ ·)

instance (turns : List Turn) : Decidable (Grows turns) := inferInstanceAs (Decidable (_ ∧ _))

/-- What was read of the journals is what the step kept. -/
structure At (c : Codec) (U K : Stream) (m : Marks) (k : Kept) : Prop where
  journal : k.journal = (U.records.take m.unit).foldl (noteModule c) Journal.empty
  runCursor : k.runCursor = some (U.cursor m.unit)
  kmsgCursor : k.kmsgCursor = some (K.cursor m.kernel)
  kmsg : (K.records.take m.kernel).map (journalMessage c) = k.kmsgLines.map .ok

section
variable {c : Codec} {U K : Stream}

/-- The fetches of a turn take up where the marks are. -/
def Turn.Past (m : Marks) (t : Turn) : Prop :=
  (∀ n, t.unit = some n → m.unit ≤ n) ∧ ∀ n, t.kernel = some n → m.kernel ≤ n

omit c U K in
theorem Turn.marks_le {t : Turn} {m : Marks} (h : t.Past m) : m.unit ≤ (t.marks m).unit := by
  obtain ⟨up, _ | n, kernel, expired⟩ := t
  · exact le_refl _
  · cases kernel with
    | none => exact h.1 n rfl
    | some k => exact h.1 n rfl

omit c U K in
/-- The turns behind one take up where it leaves the marks. -/
theorem Grows.past {t : Turn} {ts : List Turn} (h : Grows (t :: ts)) {m : Marks}
    (hpast : ∀ s ∈ t :: ts, s.Past m) : ∀ s ∈ ts, s.Past (t.marks m) := by
  intro s hs
  have hm := hpast s (List.mem_cons_of_mem _ hs)
  obtain ⟨up, unit, kernel, expired⟩ := t
  cases unit with
  | none => exact hm
  | some n =>
      have hunit : ∀ n', s.unit = some n' → n ≤ n' := by
        intro n' hn'
        have hpair := h.1
        rw [List.filterMap_cons_some (f := Turn.unit) rfl] at hpair
        exact (List.pairwise_cons.mp hpair).1 n' (List.mem_filterMap.mpr ⟨s, hs, hn'⟩)
      cases kernel with
      | none => exact ⟨hunit, hm.2⟩
      | some k =>
          refine ⟨hunit, fun k' hk' => ?_⟩
          have hpair := h.2
          rw [List.filterMap_cons_some (f := Turn.kernel) rfl] at hpair
          exact (List.pairwise_cons.mp hpair).1 k' (List.mem_filterMap.mpr ⟨s, hs, hk'⟩)

omit c U K in
theorem Grows.tail {t : Turn} {ts : List Turn} (h : Grows (t :: ts)) : Grows ts := by
  have hsub : ts.Sublist (t :: ts) := List.sublist_cons_self _ _
  exact ⟨h.1.sublist (hsub.filterMap _), h.2.sublist (hsub.filterMap _)⟩

/-! ## One poll -/

theorem extendKmsg_ok {records : List Record} {lines : List String}
    (h : records.map (journalMessage c) = lines.map .ok) (k : Kept) :
    extendKmsg c records k = (.ok (), { k with kmsgLines := k.kmsgLines ++ lines }) := by
  induction records generalizing lines k with
  | nil =>
      cases lines with
      | nil => rw [List.append_nil]; rfl
      | cons line lines => cases h
  | cons rec records ih =>
      cases lines with
      | nil => cases h
      | cons line lines =>
          rw [List.map_cons, List.map_cons, List.cons.injEq] at h
          rw [extendKmsg, h.1, Exec.lift_ok_bind, Exec.modify_bind, ih h.2, List.append_assoc]
          rfl

/-- The messages between two marks, added to those up to the first. -/
theorem messages_between (hread : ∀ rec ∈ K.records, ∃ line, journalMessage c rec = .ok line)
    {p n : ℕ} (hpn : p ≤ n) {lines : List String}
    (h : (K.records.take p).map (journalMessage c) = lines.map .ok) :
    ∃ more : List String, ((K.records.take n).drop p).map (journalMessage c) = more.map .ok ∧
      (K.records.take n).map (journalMessage c) = (lines ++ more).map .ok := by
  have hall : ∀ records : List Record, (∀ rec ∈ records, rec ∈ K.records) →
      ∃ more : List String, records.map (journalMessage c) = more.map .ok := by
    intro records hmem
    induction records with
    | nil => exact ⟨[], rfl⟩
    | cons rec records ih =>
        obtain ⟨line, hline⟩ := hread rec (hmem rec List.mem_cons_self)
        obtain ⟨more, hmore⟩ := ih fun r hr => hmem r (List.mem_cons_of_mem _ hr)
        exact ⟨line :: more, by rw [List.map_cons, hline, hmore, List.map_cons]⟩
  obtain ⟨more, hmore⟩ := hall ((K.records.take n).drop p)
    fun rec hrec => List.mem_of_mem_take (List.mem_of_mem_drop hrec)
  refine ⟨more, hmore, ?_⟩
  have hsplit : K.records.take n = K.records.take p ++ (K.records.take n).drop p := by
    have htake : (K.records.take n).take p = K.records.take p := by
      rw [List.take_take, Nat.min_eq_left hpn]
    rw [← htake, List.take_append_drop]
  rw [hsplit, List.map_append, h, hmore, List.map_append]

theorem fetchUnit_none {p : Poll} (h : Gives c U p.unit none) (k : Kept) :
    fetchUnit c p k = (.error (.calledProcessError "ssh"), k) := by
  rw [fetchUnit, Exec.look_bind, h]
  rfl

theorem fetchUnit_some {p : Poll} {n : ℕ} (h : Gives c U p.unit (some n)) {m : Marks} {k : Kept}
    (hat : At c U K m k) (hle : m.unit ≤ n) :
    ∃ k', fetchUnit c p k = (.ok (), k') ∧ At c U K ⟨n, m.kernel⟩ k' ∧ k'.stopped = k.stopped := by
  obtain ⟨out, hout, hparse⟩ := h m.unit hle
  refine ⟨{ k with
    runCursor := some (U.cursor n)
    journal := ((U.records.take n).drop m.unit).foldl (noteModule c) k.journal }, ?_, ?_, rfl⟩
  · rw [fetchUnit, Exec.look_bind, hat.runCursor, hout]
    simp only [hparse]
    rfl
  · refine ⟨?_, rfl, hat.kmsgCursor, hat.kmsg⟩
    have htake : (U.records.take n).take m.unit = U.records.take m.unit := by
      rw [List.take_take, Nat.min_eq_left hle]
    show ((U.records.take n).drop m.unit).foldl (noteModule c) k.journal = _
    rw [hat.journal, ← htake, ← List.foldl_append, List.take_append_drop]

theorem fetchKernel_none {p : Poll} (h : Gives c K p.kernel none) (k : Kept) :
    fetchKernel c p k = (.error (.calledProcessError "ssh"), k) := by
  rw [fetchKernel, Exec.look_bind, h]
  rfl

theorem fetchKernel_some (hread : ∀ rec ∈ K.records, ∃ line, journalMessage c rec = .ok line)
    {p : Poll} {n : ℕ} (h : Gives c K p.kernel (some n)) {m : Marks} {k : Kept}
    (hat : At c U K m k) (hle : m.kernel ≤ n) :
    ∃ k', fetchKernel c p k = (.ok (), k') ∧ At c U K ⟨m.unit, n⟩ k' ∧ k'.stopped = k.stopped := by
  obtain ⟨out, hout, hparse⟩ := h m.kernel hle
  obtain ⟨more, hmore, hlines⟩ := messages_between hread hle hat.kmsg
  refine ⟨{ k with kmsgCursor := some (K.cursor n), kmsgLines := k.kmsgLines ++ more }, ?_, ?_, rfl⟩
  · rw [fetchKernel, Exec.look_bind, hat.kmsgCursor, hout]
    simp only [hparse]
    rw [Exec.modify_bind, extendKmsg_ok hmore]
  · exact ⟨hat.journal, hat.runCursor, rfl, hlines⟩

/-- One poll moves the marks as its turn says, and returns when both fetches get through. -/
theorem fetch_at (hread : ∀ rec ∈ K.records, ∃ line, journalMessage c rec = .ok line)
    {p : Poll} {t : Turn} (hp : Realizes c U K p t) {m : Marks} (hpast : t.Past m) {k : Kept}
    (hat : At c U K m k) :
    ∃ r k', fetch c p k = (r, k') ∧ At c U K (t.marks m) k' ∧ k'.stopped = k.stopped ∧
      (t.whole = true ↔ r = .ok ()) := by
  obtain ⟨up, unit, kernel, expired⟩ := t
  cases unit with
  | none =>
      have hrun := fetchUnit_none hp.unit k
      exact ⟨.error (.calledProcessError "ssh"), k, Exec.bind_error _ hrun, hat, rfl,
        by simp [Turn.whole]⟩
  | some n =>
      obtain ⟨k₁, hrun, hat₁, hstop₁⟩ := fetchUnit_some hp.unit hat (hpast.1 n rfl)
      cases kernel with
      | none =>
          refine ⟨.error (.calledProcessError "ssh"), k₁, ?_, hat₁, hstop₁, by simp [Turn.whole]⟩
          rw [fetch, Exec.bind_ok _ hrun, fetchKernel_none hp.kernel]
      | some k' =>
          obtain ⟨k₂, hrun₂, hat₂, hstop₂⟩ :=
            fetchKernel_some hread hp.kernel hat₁ (hpast.2 k' rfl)
          refine ⟨.ok (), k₂, ?_, hat₂, hstop₂.trans hstop₁, by simp [Turn.whole]⟩
          rw [fetch, Exec.bind_ok _ hrun, hrun₂]

theorem pollLoop_down {p : Poll} (hdown : alive p.hostState = false) (ps : List Poll) (k : Kept) :
    pollLoop c (p :: ps) k = (.ok (some .crashed), k) := by
  simp only [pollLoop, hdown, if_true]

theorem pollLoop_raised {p : Poll} (hup : alive p.hostState ≠ false) {k k₁ : Kept} {e : PyError}
    (hfetch : fetch c p k = (.error e, k₁)) (ps : List Poll) : pollLoop c (p :: ps) k =
      if p.expired then (.ok (some .timedOut), k₁) else pollLoop c ps k₁ := by
  simp only [pollLoop, if_neg hup, hfetch]

theorem pollLoop_read {p : Poll} (hup : alive p.hostState ≠ false) {k k₁ : Kept}
    (hfetch : fetch c p k = (.ok (), k₁)) (ps : List Poll) : pollLoop c (p :: ps) k =
      if k₁.journal.result ≠ "" then (.ok (some .outcome), k₁)
      else if p.expired then (.ok (some .timedOut), k₁) else pollLoop c ps k₁ := by
  simp only [pollLoop, if_neg hup, hfetch]

/-! ## The whole wait -/

/-- The outcome is among the records of the unit up to a mark. -/
def ended (c : Codec) (U : Stream) (n : ℕ) : Bool :=
  decide (((U.records.take n).foldl (noteModule c) Journal.empty).result ≠ "")

/-- The poll loop is the walk of its turns. -/
theorem pollLoop_walk (hread : ∀ rec ∈ K.records, ∃ line, journalMessage c rec = .ok line)
    {polls : List Poll} {turns : List Turn} (h : List.Forall₂ (Realizes c U K) polls turns)
    (hgrow : Grows turns) {m : Marks} (hpast : ∀ t ∈ turns, t.Past m) {k : Kept}
    (hat : At c U K m k) :
    ∃ k', pollLoop c polls k = (.ok ((walk (ended c U) turns m).map Prod.fst), k') ∧
      k'.stopped = k.stopped ∧
      ∀ e m', walk (ended c U) turns m = some (e, m') → At c U K m' k' := by
  induction h generalizing m k with
  | nil => exact ⟨k, rfl, rfl, fun e m' hw => by cases hw⟩
  | @cons p t ps ts hp hps ih =>
      rw [walk]
      by_cases hup : t.up = false
      · rw [if_pos hup, pollLoop_down (hp.up.trans hup)]
        exact ⟨k, rfl, rfl, fun e m' hw => by cases hw; exact hat⟩
      · obtain ⟨r, k₁, hfetch, hat₁, hstop, hwhole⟩ :=
          fetch_at hread hp (hpast t List.mem_cons_self) hat
        obtain ⟨k', hrun, hstop', hat'⟩ := ih hgrow.tail (hgrow.past hpast) hat₁
        have hlive : alive p.hostState ≠ false := hp.up ▸ hup
        rw [if_neg hup]
        cases r with
        | error e =>
            have hnot : t.whole = false := by
              cases hw : t.whole with
              | false => rfl
              | true => cases hwhole.mp hw
            rw [pollLoop_raised hlive hfetch, hp.expired, hnot, Bool.false_and,
              if_neg Bool.false_ne_true]
            cases t.expired with
            | false => exact ⟨k', hrun, hstop'.trans hstop, hat'⟩
            | true => exact ⟨k₁, rfl, hstop, fun e m' hw => by cases hw; exact hat₁⟩
        | ok u =>
            rw [pollLoop_read hlive hfetch, hp.expired, hwhole.mpr rfl, Bool.true_and]
            cases hdone : ended c U (t.marks m).unit with
            | true =>
                rw [if_pos (by rw [hat₁.journal]; exact of_decide_eq_true hdone), if_pos rfl]
                exact ⟨k₁, rfl, hstop, fun e m' hw => by cases hw; exact hat₁⟩
            | false =>
                rw [if_neg (by rw [hat₁.journal]; exact of_decide_eq_false hdone),
                  if_neg Bool.false_ne_true]
                cases t.expired with
                | false => exact ⟨k', hrun, hstop'.trans hstop, hat'⟩
                | true => exact ⟨k₁, rfl, hstop, fun e m' hw => by cases hw; exact hat₁⟩

omit c U K in
/-- The fetch after the loop takes up where the loop leaves the marks. -/
theorem walk_past {done : ℕ → Bool} {turns : List Turn} {last : Turn}
    (hgrow : Grows (turns ++ [last])) {m : Marks} (hpast : ∀ t ∈ turns ++ [last], t.Past m)
    {e : Ending} {m' : Marks} (h : walk done turns m = some (e, m')) : last.Past m' := by
  induction turns generalizing m with
  | nil => cases h
  | cons t ts ih =>
      have hrest := hgrow.past hpast
      have hlast : last.Past (t.marks m) := hrest last (by simp)
      rw [walk] at h
      by_cases hup : t.up = false
      · rw [if_pos hup] at h
        cases h
        exact hpast last (by simp)
      · rw [if_neg hup] at h
        by_cases hout : (t.whole && done (t.marks m).unit) = true
        · rw [if_pos hout] at h
          cases h
          exact hlast
        · rw [if_neg hout] at h
          by_cases hexp : t.expired = true
          · rw [if_pos hexp] at h
            cases h
            exact hlast
          · rw [if_neg hexp] at h
            exact ih hgrow.tail hrest h

end

/-- The guest serves these journals, from the start's cursor on, as the turns say. -/
structure Serves (c : Codec) (U K : Stream) (args : WaitArgs) (g : Guest) (turns : List Turn)
    (last : Turn) : Prop where
  unit : U.cursor 0 = args.cursor
  kernel : K.cursor 0 = args.cursor
  readable : ∀ rec ∈ K.records, ∃ line, journalMessage c rec = .ok line
  polls : List.Forall₂ (Realizes c U K) g.polls turns
  after : Realizes c U K g.last last
  grows : Grows (turns ++ [last])

section
variable {c : Codec} {U K : Stream} {args : WaitArgs} {g : Guest} {turns : List Turn} {last : Turn}

theorem at_start (h : Serves c U K args g turns last) : At c U K ⟨0, 0⟩ (Kept.start args) :=
  ⟨rfl, congrArg some h.unit.symm, congrArg some h.kernel.symm, rfl⟩

/-- The marks the wait ends with: a timeout fetches once more. -/
def finalMarks (last : Turn) (e : Ending) (m : Marks) : Marks :=
  if e = .timedOut then last.marks m else m

/-- The abort moves the marks as its fetch does, and stops the unit. -/
theorem abort_at (h : Serves c U K args g turns last) {m : Marks} (hpast : last.Past m) {k : Kept}
    (hat : At c U K m k) : ∃ k', abort c g args k = (.ok (), k') ∧ At c U K (last.marks m) k' ∧
      k'.stopped = k.stopped ++ [args.unit] := by
  have hat₁ : At c U K m { k with stopped := k.stopped ++ [args.unit] } :=
    ⟨hat.journal, hat.runCursor, hat.kmsgCursor, hat.kmsg⟩
  obtain ⟨r, k', hfetch, hat', hstop, -⟩ := fetch_at h.readable h.after hpast hat₁
  refine ⟨k', ?_, hat', hstop⟩
  rw [abort, Exec.modify_bind, Exec.modify_apply, hfetch]

/-- The wait returns what the walk ends with, or polls on. -/
theorem wait_walk (h : Serves c U K args g turns last) :
    ∃ k, waitMain c g args =
        (.ok ((walk (ended c U) turns ⟨0, 0⟩).map fun x => waited g args x.1 k), k) ∧
      ∀ e m, walk (ended c U) turns ⟨0, 0⟩ = some (e, m) → At c U K (finalMarks last e m) k ∧
        k.stopped = if e = .timedOut then [args.unit] else [] := by
  have hpast : ∀ t ∈ turns ++ [last], t.Past ⟨0, 0⟩ :=
    fun t _ => ⟨fun n _ => Nat.zero_le n, fun n _ => Nat.zero_le n⟩
  have hgrow : Grows turns := by
    have hsub : turns.Sublist (turns ++ [last]) := List.sublist_append_left _ _
    exact ⟨h.grows.1.sublist (hsub.filterMap _), h.grows.2.sublist (hsub.filterMap _)⟩
  obtain ⟨k, hloop, hstop, hat⟩ := pollLoop_walk h.readable h.polls hgrow
    (fun t ht => hpast t (List.mem_append_left _ ht)) (at_start h)
  have hempty : (Kept.start args).stopped = [] := rfl
  rw [waitMain, waitBody, Exec.bind_ok _ hloop]
  cases hw : walk (ended c U) turns ⟨0, 0⟩ with
  | none => exact ⟨k, rfl, fun e m hnone => by cases hnone⟩
  | some x =>
      obtain ⟨e, m⟩ := x
      by_cases he : e = .timedOut
      · obtain ⟨k', habort, hat', hstop'⟩ := abort_at h (walk_past h.grows hpast hw) (hat e m hw)
        refine ⟨k', ?_, fun e' m' hsome => ?_⟩
        · simp only [Option.map_some, if_pos he]
          rw [Exec.bind_ok _ habort]
          rfl
        · cases hsome
          rw [finalMarks, if_pos he, if_pos he, hstop', hstop, hempty]
          exact ⟨hat', rfl⟩
      · refine ⟨k, ?_, fun e' m' hsome => ?_⟩
        · simp only [Option.map_some, if_neg he]
          rfl
        · cases hsome
          rw [finalMarks, if_neg he, if_neg he, hstop, hempty]
          exact ⟨hat e m hw, rfl⟩

end

end KdevopsNg.RuntimeTests
