/-
# `RuntimeTests.WaitFaults` — what a failed fetch costs a wait

The polls of `RuntimeTests.Wait` with failures among their fetches.  The log loses nothing
and repeats nothing (`kmsg_read`): its cursor moves with each fetch of the kernel's
records, and with nothing else.

The outcome can be lost.  The fetch of the unit's records comes first; when the fetch of
the kernel's records behind it raises, the wait has the outcome and does not look at it:

    error branch     past the deadline?  then the run timed out
    other branch     an outcome?  then done; past the deadline?  then timed out

So from the poll that read the outcome on, a poll must get through no later than the
deadline (`GetsThrough`, `kept_iff`).
-/
import KdevopsNg.RuntimeTests.Wait

namespace KdevopsNg.RuntimeTests

open Py Suites

/-! ## The outcome of the job -/

/-- The record ends the start job. -/
def endsModule (rec : Record) : Bool := isSkipped rec || isOutcome rec

/-- The record replaces an outcome that is there already. -/
def replacesModule (rec : Record) : Bool := isSkipped rec || replaces rec

/-- The result an outcome record gives. -/
def moduleOutcome (rec : Record) : String :=
  if isSkipped rec then "skipped" else outcomeName rec

section
variable {c : Codec}

theorem noteModule_open {rec : Record} (h : endsModule rec = false) (j : Journal) :
    (noteModule c j rec).result = j.result := by
  obtain ⟨hskip, hout⟩ := Bool.or_eq_false_iff.mp h
  rw [noteModule, hskip]
  exact (note_of_not_outcome hout j).1

theorem foldl_noteModule_open {records : List Record} (h : ∀ r ∈ records, endsModule r = false)
    (j : Journal) : (records.foldl (noteModule c) j).result = j.result := by
  induction records generalizing j with
  | nil => rfl
  | cons rec records ih =>
      rw [List.foldl_cons, ih fun r hr => h r (List.mem_cons_of_mem _ hr)]
      exact noteModule_open (h rec List.mem_cons_self) j

theorem noteModule_ends {o : Record} (ho : endsModule o = true) {j : Journal}
    (hj : j.result = "") : (noteModule c j o).result = moduleOutcome o := by
  rw [noteModule, moduleOutcome]
  rcases Bool.or_eq_true_iff.mp ho with hskip | hout
  · rw [if_pos hskip, if_pos hskip]
    rfl
  · by_cases hskip : isSkipped o = true
    · rw [if_pos hskip, if_pos hskip]
      rfl
    · rw [if_neg hskip, if_neg hskip]
      exact (note_outcome hout hj).2.1

theorem moduleOutcome_ne {o : Record} (ho : endsModule o = true) : moduleOutcome o ≠ "" := by
  rw [moduleOutcome]
  by_cases hskip : isSkipped o = true
  · rw [if_pos hskip]
    decide
  · rw [if_neg hskip]
    exact outcomeName_ne ((Bool.or_eq_true_iff.mp ho).resolve_left hskip)

/-- What replaces no outcome leaves the one that is there. -/
theorem noteModule_keeps {rec : Record} (h : replacesModule rec = false) {j : Journal}
    (hj : j.result ≠ "") : (noteModule c j rec).result = j.result := by
  obtain ⟨hskip, hrep⟩ := Bool.or_eq_false_iff.mp h
  have hnot := of_decide_eq_false hrep
  rw [noteModule, hskip, if_neg Bool.false_ne_true]
  cases hout : isOutcome rec with
  | false => exact (note_of_not_outcome hout j).1
  | true =>
      unfold isOutcome at hout
      unfold note
      cases he : eventOf rec with
      | none => rfl
      | some e =>
          rw [he] at hout hnot
          cases e with
          | stopped => simp only [if_neg hj]
          | started => exact absurd (.inl rfl) hnot
          | failed => exact absurd (.inr rfl) hnot
          | _ => cases hout

theorem foldl_noteModule_keeps {records : List Record}
    (h : ∀ r ∈ records, replacesModule r = false) {j : Journal} (hj : j.result ≠ "") :
    (records.foldl (noteModule c) j).result = j.result := by
  induction records generalizing j with
  | nil => rfl
  | cons rec records ih =>
      have hrec : (noteModule c j rec).result = j.result :=
        noteModule_keeps (h rec List.mem_cons_self) hj
      rw [List.foldl_cons, ih (fun r hr => h r (List.mem_cons_of_mem _ hr)) (hrec ▸ hj), hrec]

/-- The run's one outcome: nothing before it ends the job, nothing after replaces it. -/
structure OneOutcome (records pre : List Record) (o : Record) (post : List Record) : Prop where
  split : records = pre ++ o :: post
  before : ∀ r ∈ pre, endsModule r = false
  ends : endsModule o = true
  after : ∀ r ∈ post, replacesModule r = false

theorem OneOutcome.result_open {records pre post : List Record} {o : Record}
    (h : OneOutcome records pre o post) {n : ℕ} (hn : n ≤ pre.length) :
    ((records.take n).foldl (noteModule c) Journal.empty).result = "" := by
  rw [h.split, List.take_append_of_le_length hn]
  exact foldl_noteModule_open (fun r hr => h.before r (List.mem_of_mem_take hr)) _

theorem OneOutcome.result_closed {records pre post : List Record} {o : Record}
    (h : OneOutcome records pre o post) {n : ℕ} (hn : pre.length < n) :
    ((records.take n).foldl (noteModule c) Journal.empty).result = moduleOutcome o := by
  obtain ⟨d, rfl⟩ : ∃ d, n = pre.length + (d + 1) := ⟨n - pre.length - 1, by omega⟩
  have hopen : (pre.foldl (noteModule c) Journal.empty).result = "" :=
    foldl_noteModule_open h.before _
  have hended : (noteModule c (pre.foldl (noteModule c) Journal.empty) o).result =
      moduleOutcome o := noteModule_ends h.ends hopen
  rw [h.split, List.take_length_add_append, List.take_succ_cons, List.foldl_append,
    List.foldl_cons, foldl_noteModule_keeps (fun r hr => h.after r (List.mem_of_mem_take hr)),
    hended]
  rw [hended]
  exact moduleOutcome_ne h.ends

end

/-! ## The walk around the outcome -/

/-- Some poll gets through, and none before it ended past the deadline. -/
def GetsThrough (turns : List Turn) : Prop :=
  ∃ mid s rest, turns = mid ++ s :: rest ∧ (∀ x ∈ mid, x.expired = false) ∧ s.whole = true

theorem getsThrough_cons {t : Turn} {ts : List Turn} :
    GetsThrough (t :: ts) ↔ t.whole = true ∨ (t.expired = false ∧ GetsThrough ts) := by
  constructor
  · rintro ⟨mid, s, rest, hsplit, hmid, hwhole⟩
    cases mid with
    | nil =>
        rw [List.nil_append, List.cons.injEq] at hsplit
        exact .inl (hsplit.1 ▸ hwhole)
    | cons x mid =>
        rw [List.cons_append, List.cons.injEq] at hsplit
        refine .inr ⟨hsplit.1 ▸ hmid x List.mem_cons_self, mid, s, rest, hsplit.2, ?_, hwhole⟩
        exact fun y hy => hmid y (List.mem_cons_of_mem _ hy)
  · rintro (hwhole | ⟨hexp, mid, s, rest, rfl, hmid, hwhole⟩)
    · exact ⟨[], t, ts, rfl, fun x hx => absurd hx List.not_mem_nil, hwhole⟩
    · refine ⟨t :: mid, s, rest, rfl, fun x hx => ?_, hwhole⟩
      rcases List.mem_cons.mp hx with rfl | hx
      · exact hexp
      · exact hmid x hx

/-- The marks after some turns. -/
def marksAfter (turns : List Turn) (m : Marks) : Marks := turns.foldl (fun m t => t.marks m) m

theorem Grows.past_after {front rest : List Turn} (h : Grows (front ++ rest)) {m : Marks}
    (hpast : ∀ s ∈ front ++ rest, s.Past m) :
    Grows rest ∧ ∀ s ∈ rest, s.Past (marksAfter front m) := by
  induction front generalizing m with
  | nil => exact ⟨h, hpast⟩
  | cons t front ih => exact ih h.tail (h.past hpast)

section
variable {done : ℕ → Bool} {N : ℕ}

/-- Turns before the outcome is read, and before the deadline, end nothing. -/
theorem walk_front (hopen : ∀ n ≤ N, done n = false) {front : List Turn}
    (hfront : ∀ s ∈ front, s.up = true ∧ s.expired = false ∧ ∀ n, s.unit = some n → n ≤ N)
    {m : Marks} (hm : m.unit ≤ N) (rest : List Turn) :
    walk done (front ++ rest) m = walk done rest (marksAfter front m) := by
  induction front generalizing m with
  | nil => rfl
  | cons t front ih =>
      obtain ⟨hup, hexp, hunit⟩ := hfront t List.mem_cons_self
      have hmark : (t.marks m).unit ≤ N := by
        obtain ⟨up, unit, kernel, expired⟩ := t
        cases unit with
        | none => exact hm
        | some n =>
            have hn := hunit n rfl
            cases kernel <;> exact hn
      rw [List.cons_append, walk, hup, hexp, hopen _ hmark, Bool.and_false]
      exact ih (fun s hs => hfront s (List.mem_cons_of_mem _ hs)) hmark

/-- Once the outcome is read, the wait ends with it if a poll gets through in time, and with
a timeout or not at all otherwise. -/
theorem walk_closed (hclosed : ∀ n, N < n → done n = true) {t : Turn} {back : List Turn}
    (hup : ∀ s ∈ t :: back, s.up = true) (hgrow : Grows (t :: back)) {m : Marks}
    (hpast : ∀ s ∈ t :: back, s.Past m) (ht : N < (t.marks m).unit) :
    (GetsThrough (t :: back) ∧
        ∃ m', walk done (t :: back) m = some (.outcome, m') ∧ N < m'.unit) ∨
      (¬ GetsThrough (t :: back) ∧
        ∀ e m', walk done (t :: back) m = some (e, m') → e = .timedOut) := by
  induction back generalizing t m with
  | nil =>
      rw [getsThrough_cons, walk, hup t List.mem_cons_self, hclosed _ ht, Bool.and_true]
      cases t.whole with
      | true => exact .inl ⟨.inl rfl, t.marks m, rfl, ht⟩
      | false =>
          have hnone : ¬ GetsThrough [] := by
            rintro ⟨mid, s, rest, h, -⟩
            simp at h
          refine .inr ⟨fun h => h.elim Bool.false_ne_true fun h => hnone h.2, fun e m' h => ?_⟩
          cases hexp : t.expired with
          | true => rw [hexp] at h; cases h; rfl
          | false => rw [hexp] at h; cases h
  | cons t' back ih =>
      have hpast' := hgrow.past hpast
      have ht' : N < (t'.marks (t.marks m)).unit :=
        ht.trans_le (Turn.marks_le (hpast' t' List.mem_cons_self))
      have hrest := ih (fun s hs => hup s (List.mem_cons_of_mem _ hs)) hgrow.tail hpast' ht'
      rw [getsThrough_cons, walk, hup t List.mem_cons_self, hclosed _ ht, Bool.and_true]
      cases t.whole with
      | true => exact .inl ⟨.inl rfl, t.marks m, rfl, ht⟩
      | false =>
          cases t.expired with
          | true =>
              refine .inr ⟨fun h => h.elim Bool.false_ne_true fun h => ?_, fun e m' h => ?_⟩
              · exact Bool.false_ne_true h.1.symm
              · cases h
                rfl
          | false =>
              rcases hrest with ⟨hgets, hwalk⟩ | ⟨hnot, hwalk⟩
              · exact .inl ⟨.inr ⟨rfl, hgets⟩, hwalk⟩
              · exact .inr ⟨fun h => h.elim Bool.false_ne_true fun h => hnot h.2, hwalk⟩

end

/-! ## The wait -/

/-- The VM stays up, and the turn `t` is the first to read the outcome `o`, behind turns that
ended before the deadline. -/
structure InTime (U : Stream) (turns : List Turn) (pre : List Record) (o : Record)
    (front : List Turn) (t : Turn) (back : List Turn) : Prop where
  outcome : ∃ post, OneOutcome U.records pre o post
  split : turns = front ++ t :: back
  up : ∀ s ∈ turns, s.up = true
  early : ∀ s ∈ front, s.expired = false ∧ ∀ n, s.unit = some n → n ≤ pre.length
  reads : ∃ n, t.unit = some n ∧ pre.length < n

/-- The wait ends with the outcome of `o`, in time, and stops nothing. -/
def Keeps (c : Codec) (g : Guest) (args : WaitArgs) (o : Record) : Prop :=
  ∃ w k, waitMain c g args = (.ok (some w), k) ∧ w.timedOut = false ∧
    w.result = moduleOutcome o ∧ k.stopped = []

/-- The log is the messages of the kernel's records up to the last fetch that got through. -/
def Reads (c : Codec) (U K : Stream) (g : Guest) (args : WaitArgs) (turns : List Turn)
    (last : Turn) : Prop :=
  ∀ w k, waitMain c g args = (.ok (some w), k) → ∃ e m lines,
    walk (ended c U) turns ⟨0, 0⟩ = some (e, m) ∧
    (K.records.take (finalMarks last e m).kernel).map (journalMessage c) = lines.map .ok ∧
    w.kmsg = Text.join "\n" lines

section
variable {c : Codec} {U K : Stream} {args : WaitArgs} {g : Guest} {turns : List Turn} {last : Turn}

theorem kmsg_read (h : Serves c U K args g turns last) : Reads c U K g args turns last := by
  intro w k hrun
  obtain ⟨k', hwait, hat⟩ := wait_walk h
  rw [hwait] at hrun
  cases hw : walk (ended c U) turns ⟨0, 0⟩ with
  | none =>
      rw [hw] at hrun
      cases hrun
  | some x =>
      obtain ⟨e, m⟩ := x
      rw [hw] at hrun
      cases hrun
      exact ⟨e, m, k.kmsgLines, rfl, (hat e m hw).1.kmsg, rfl⟩

theorem kept_iff (h : Serves c U K args g turns last) {pre : List Record} {o : Record}
    {front back : List Turn} {t : Turn} (hin : InTime U turns pre o front t back) :
    Keeps c g args o ↔ GetsThrough (t :: back) := by
  obtain ⟨post, hone⟩ := hin.outcome
  obtain ⟨n, hunit, hn⟩ := hin.reads
  have hopen : ∀ n ≤ pre.length, ended c U n = false := by
    intro n hn
    rw [ended, hone.result_open hn]
    rfl
  have hresult : ∀ n, pre.length < n →
      ((U.records.take n).foldl (noteModule c) Journal.empty).result = moduleOutcome o :=
    fun n hn => hone.result_closed hn
  have hclosed : ∀ n, pre.length < n → ended c U n = true := by
    intro n hn
    rw [ended, hresult n hn]
    exact decide_eq_true (moduleOutcome_ne hone.ends)
  have hsplit := hin.split
  subst hsplit
  have hpast : ∀ s ∈ (front ++ t :: back) ++ [last], s.Past ⟨0, 0⟩ :=
    fun s _ => ⟨fun n _ => Nat.zero_le n, fun n _ => Nat.zero_le n⟩
  have hgrow := h.grows
  rw [List.append_assoc] at hgrow hpast
  obtain ⟨hgrow', hpast'⟩ := hgrow.past_after hpast
  have hsub : (t :: back).Sublist (t :: back ++ [last]) := List.sublist_append_left _ _
  have hfront : walk (ended c U) (front ++ t :: back) ⟨0, 0⟩ =
      walk (ended c U) (t :: back) (marksAfter front ⟨0, 0⟩) :=
    walk_front hopen (fun s hs => ⟨hin.up s (List.mem_append_left _ hs), hin.early s hs⟩)
      (Nat.zero_le _) _
  have hmark : pre.length < (t.marks (marksAfter front ⟨0, 0⟩)).unit := by
    obtain ⟨up, unit, kernel, expired⟩ := t
    cases hunit
    cases kernel <;> exact hn
  obtain ⟨k, hwait, hat⟩ := wait_walk h
  rw [hfront] at hwait hat
  rcases walk_closed hclosed (fun s hs => hin.up s (List.mem_append_right _ hs))
    ⟨hgrow'.1.sublist (hsub.filterMap _), hgrow'.2.sublist (hsub.filterMap _)⟩
    (fun s hs => hpast' s (hsub.subset hs)) hmark with ⟨hgets, m, hwalk, hm⟩ | ⟨hnot, hwalk⟩
  · refine iff_of_true ⟨waited g args .outcome k, k, ?_, rfl, ?_, ?_⟩ hgets
    · rw [hwait, hwalk]
      rfl
    · have hjournal := (hat .outcome m hwalk).1.journal
      show k.journal.result = _
      rw [hjournal]
      exact hresult m.unit hm
    · exact (hat .outcome m hwalk).2
  · refine iff_of_false (fun ⟨w, k', hrun, htimed, _⟩ => ?_) hnot
    rw [hwait] at hrun
    cases hw : walk (ended c U) (t :: back) (marksAfter front ⟨0, 0⟩) with
    | none =>
        rw [hw] at hrun
        cases hrun
    | some x =>
        obtain ⟨e, m⟩ := x
        rw [hw] at hrun
        cases hrun
        rw [hwalk e m hw] at htimed
        cases htimed

end

/-! ## Two waits of one load -/

def doneRecord : Record := [("MESSAGE_ID", .str "39f53479d3a045ac8e11786248231fbf")]

def doneLine : String := "\x7b\"MESSAGE_ID\": \"39f53479d3a045ac8e11786248231fbf\"\x7d"

def kernelRecord : Record := [("MESSAGE", .str "test_bitmap: all 1945 tests passed")]

def kernelLine : String := "\x7b\"MESSAGE\": \"test_bitmap: all 1945 tests passed\"\x7d"

/-- Python on the two lines the journals print of that load. -/
def loadCodec : Codec where
  loads line :=
    if line = doneLine.toList then some doneRecord
    else if line = kernelLine.toList then some kernelRecord else none
  readInt _ := none
  strOf _ := ""
  decode _ := ""

/-- A journal of one record. -/
def single (rec : Record) : Stream := ⟨[rec], fun n => if n = 0 then "s=0" else "s=1"⟩

/-- A fetch that prints the line, from the start's cursor on. -/
def printing (line : String) (cursor : Option String) : Option String :=
  some (if cursor = some "s=0" then line ++ "\n-- cursor: s=1\n" else "")

theorem gives_single {c : Codec} {rec : Record} {line : String}
    (h : parseJournalJson c (line ++ "\n-- cursor: s=1\n") (some "s=0") = (some "s=1", [rec])) :
    Gives c (single rec) (printing line) (some 1) := by
  intro p hp
  rcases Nat.le_one_iff_eq_zero_or_eq_one.mp hp with rfl | rfl
  · exact ⟨_, rfl, h⟩
  · exact ⟨"", rfl, rfl⟩

def doneFetch : Option String → Option String := printing doneLine

def kernelFetch : Option String → Option String := printing kernelLine

theorem gives_done : Gives loadCodec (single doneRecord) doneFetch (some 1) :=
  gives_single (by decide +kernel)

theorem gives_kernel : Gives loadCodec (single kernelRecord) kernelFetch (some 1) :=
  gives_single (by decide +kernel)

def loadArgs : WaitArgs := ⟨"vm0", "test_bitmap", "modprobe@test_bitmap.service", "s=0"⟩

/-- A poll that reads the outcome and loses the kernel's half. -/
def halfPoll (expired : Bool) : Poll := ⟨"active", doneFetch, fun _ => none, expired⟩

def wholePoll : Poll := ⟨"active", doneFetch, kernelFetch, false⟩

theorem alive_active : alive "active" = true := by decide +kernel

theorem realizes_half (expired : Bool) : Realizes loadCodec (single doneRecord)
    (single kernelRecord) (halfPoll expired) ⟨true, some 1, none, expired⟩ :=
  ⟨alive_active, gives_done, fun _ => rfl, rfl⟩

theorem realizes_whole : Realizes loadCodec (single doneRecord) (single kernelRecord) wholePoll
    ⟨true, some 1, some 1, false⟩ :=
  ⟨alive_active, gives_done, gives_kernel, rfl⟩

theorem readable_load : ∀ rec ∈ (single kernelRecord).records,
    ∃ line, journalMessage loadCodec rec = .ok line := by
  intro rec hrec
  rw [List.mem_singleton.mp hrec]
  exact ⟨_, rfl⟩

/-- The poll after the failed one gets through. -/
def retried : Guest := ⟨[halfPoll false, wholePoll], wholePoll, some 0⟩

theorem serves_retried : Serves loadCodec (single doneRecord) (single kernelRecord) loadArgs retried
    [⟨true, some 1, none, false⟩, ⟨true, some 1, some 1, false⟩] ⟨true, some 1, some 1, false⟩ :=
  ⟨rfl, rfl, readable_load, .cons (realizes_half false) (.cons realizes_whole .nil), realizes_whole,
    by decide⟩

theorem inTime_done {turns back : List Turn} {kernel : Option ℕ} {expired : Bool}
    (hturns : turns = ⟨true, some 1, kernel, expired⟩ :: back) (hup : ∀ s ∈ turns, s.up = true) :
    InTime (single doneRecord) turns [] doneRecord [] ⟨true, some 1, kernel, expired⟩ back where
  outcome := ⟨[], rfl, by simp, by decide +kernel, by simp⟩
  split := hturns
  up := hup
  early := by simp
  reads := ⟨1, rfl, Nat.zero_lt_one⟩

/-- The deadline passes in the poll that read the outcome and lost the kernel's half. -/
def lateFailure : Guest := ⟨[halfPoll true], wholePoll, some 0⟩

theorem serves_lateFailure : Serves loadCodec (single doneRecord) (single kernelRecord) loadArgs
    lateFailure [⟨true, some 1, none, true⟩] ⟨true, some 1, some 1, false⟩ :=
  ⟨rfl, rfl, readable_load, .cons (realizes_half true) .nil, realizes_whole, by decide⟩

end KdevopsNg.RuntimeTests
