/-
# `Suites.Journal` — one run's journal records, and what a wait step folds them into

`_parse_journal_json` and `journal_message` of `f/common/remote.py`, and the
`scan` that `f/selftests/wait.py`, `f/kunit/wait.py` and `f/usertests/wait.py`
each define, in the same words.  A record counts for two things:

    `_SYSTEMD_UNIT` is the unit     its message is a line of the run's output
    `MESSAGE_ID` is a lifecycle's   it moves the outcome, the exit status, the clock

The two never meet (`scan_of_readable`): the lines are the messages of the unit's
own records, and the rest is a fold of `note`.  What that fold reaches is read
off the records (`foldl_run`): the outcome that stands (`lastOutcome`), the exit
status logged last (`exitOf`), the first start time (`startOf`).

What `json.loads`, `int`, `str` and `bytes.decode` make of a text is a
parameter (`Codec`).
-/
import KdevopsNg.Py.Json
import KdevopsNg.Py.Number
import KdevopsNg.Py.Text

namespace KdevopsNg.Suites

open Py

/-- A record of `journalctl --output=json`. -/
abbrev Record := Dict Json

/-- Python's own readers: `json.loads` of a text that begins with a brace,
`int` of a text, `str` of a value that is not one, and `bytes(..).decode` with
`errors="replace"`. -/
structure Codec where
  loads : List Char → Option Record
  readInt : String → Option ℤ
  strOf : Json → String
  decode : List ℕ → String

/-! ## Reading the journal -/

/-- `line.startswith("-- cursor:")`. -/
def isCursorLine (line : List Char) : Bool := "-- cursor:".toList.isPrefixOf line

/-- One line of `journalctl`'s output. -/
def readLine (c : Codec) (acc : Option String × List Record) (line : List Char) :
    Option String × List Record :=
  if isCursorLine line then
    (some (String.ofList (Text.strip (line.dropWhile (· ≠ ':')).tail)), acc.2)
  else if line.head? ≠ some '{' then acc
  else match c.loads line with
    | some r => (acc.1, acc.2 ++ [r])
    | none => acc

/-- `_parse_journal_json`: the next cursor and the records. -/
def parseJournalJson (c : Codec) (out : String) (cursor : Option String) :
    Option String × List Record :=
  (Text.splitlines out.toList).foldl (readLine c) (cursor, [])

/-- An element of `bytes([..])`. -/
def toByte : Json → Except PyError ℕ
  | .num q =>
      if q.den ≠ 1 then .error .typeError
      else if 0 ≤ q.num ∧ q.num < 256 then .ok q.num.toNat
      else .error (.valueError "bytes must be in range(0, 256)")
  | .bool b => .ok (if b then 1 else 0)
  | _ => .error .typeError

/-- `journal_message`. -/
def journalMessage (c : Codec) (rec : Record) : Except PyError String :=
  match (Dict.get? rec "MESSAGE").getD (.str "") with
  | .arr xs => do
      let bytes ← xs.mapM toByte
      .ok (c.decode bytes)
  | .str s => .ok s
  | _ => .ok ""

/-- `_monotonic_us`. -/
def monotonicUs (c : Codec) (rec : Record) : Option ℤ :=
  ((Json.obj rec).getItem "__MONOTONIC_TIMESTAMP" >>= Json.toInt c.readInt).toOption

/-- `_realtime_ms`. -/
def realtimeMs (c : Codec) (rec : Record) : Option ℤ :=
  ((Json.obj rec).getItem "__REALTIME_TIMESTAMP" >>= Json.toInt c.readInt).toOption.map (· / 1000)

/-! ## The lifecycle records -/

/-- What PID1 records of a unit's jobs. -/
inductive Event where
  | starting
  | processExit
  | started
  | failed
  | stopped
  deriving DecidableEq, Repr

/-- `MSG_UNIT_STARTING` and the other message ids of systemd. -/
def Event.messageId : Event → String
  | .starting => "7d4958e842da4a758f6c1cdc7b36dcc5"
  | .started => "39f53479d3a045ac8e11786248231fbf"
  | .failed => "be02cf6855d2428ba40df7e9d022f03d"
  | .stopped => "9d1aaa27d60140bd96365438aad20286"
  | .processExit => "98e322203f7a4ed290d09fe03c09fe15"

/-- The event a record's `MESSAGE_ID` names. -/
def eventOf (rec : Record) : Option Event :=
  match Dict.get? rec "MESSAGE_ID" with
  | some (.str mid) =>
      [.starting, .processExit, .started, .failed, .stopped].find? fun e => e.messageId = mid
  | _ => none

/-- The outcome an event gives a job. -/
def Event.outcome? : Event → Option String
  | .started => some "done"
  | .failed => some "failed"
  | .stopped => some "stopped"
  | _ => none

/-- `rec.get("_SYSTEMD_UNIT") == unit`: the unit's own output. -/
def fromUnit (unit : String) (rec : Record) : Bool :=
  decide (Dict.get? rec "_SYSTEMD_UNIT" = some (.str unit))

/-- `str(rec.get("EXIT_STATUS", ""))`. -/
def exitStatus (c : Codec) (rec : Record) : String :=
  match (Dict.get? rec "EXIT_STATUS").getD (.str "") with
  | .str s => s
  | v => c.strOf v

/-! ## The scan -/

/-- What `scan` has folded the records into. -/
structure Journal where
  result : String
  execStatus : String
  startedAt : Option ℤ
  endedAt : Option ℤ
  startedMs : Option ℤ
  endedMs : Option ℤ
  lines : List String
  deriving DecidableEq, Repr

/-- Before the first poll. -/
def Journal.empty : Journal := ⟨"", "", none, none, none, none, []⟩

/-- The outcome and its time. -/
def Journal.ends (c : Codec) (rec : Record) (result : String) (j : Journal) : Journal :=
  { j with result := result, endedAt := monotonicUs c rec, endedMs := realtimeMs c rec }

/-- What a record's `MESSAGE_ID` changes. -/
def note (c : Codec) (j : Journal) (rec : Record) : Journal :=
  match eventOf rec with
  | some .starting =>
      if j.startedAt = none then
        { j with startedAt := monotonicUs c rec, startedMs := realtimeMs c rec }
      else j
  | some .processExit => { j with execStatus := exitStatus c rec }
  | some .started => j.ends c rec "done"
  | some .failed => j.ends c rec "failed"
  | some .stopped => if j.result = "" then j.ends c rec "stopped" else j
  | none => j

/-- The line a record of the unit adds. -/
def keepLine (c : Codec) (unit : String) (rec : Record) : Exec Journal Unit :=
  if fromUnit unit rec then do
    let line ← Exec.lift (journalMessage c rec)
    Exec.modify fun j => { j with lines := j.lines ++ [line] }
  else pure ()

/-- `scan`. -/
def scan (c : Codec) (unit : String) : List Record → Exec Journal Unit
  | [] => pure ()
  | rec :: records => do
      keepLine c unit rec
      Exec.modify fun j => note c j rec
      scan c unit records

/-! ## The scan, taken apart -/

section
variable {c : Codec} {unit : String}

theorem scan_append (xs ys : List Record) (j : Journal) :
    scan c unit (xs ++ ys) j = (scan c unit xs >>= fun _ => scan c unit ys) j := by
  induction xs generalizing j with
  | nil => rfl
  | cons rec xs ih =>
      show (keepLine c unit rec >>= fun _ => (Exec.modify fun j => note c j rec) >>= fun _ =>
        scan c unit (xs ++ ys)) j = _
      rw [scan, Exec.bind_assoc']
      rcases hk : keepLine c unit rec j with ⟨e | _, j'⟩
      · rw [Exec.bind_error _ hk, Exec.bind_error _ hk]
      · rw [Exec.bind_ok _ hk, Exec.bind_ok _ hk]
        exact ih (note c j' rec)

/-- The record's message reads, if it is to be read. -/
def Readable (c : Codec) (unit : String) (rec : Record) : Prop :=
  fromUnit unit rec = true → ∃ m, journalMessage c rec = .ok m

/-- The lines of the unit's own records. -/
def linesOf (c : Codec) (unit : String) (records : List Record) : List String :=
  (records.filter (fromUnit unit)).filterMap fun rec => (journalMessage c rec).toOption

theorem linesOf_append (xs ys : List Record) :
    linesOf c unit (xs ++ ys) = linesOf c unit xs ++ linesOf c unit ys := by
  rw [linesOf, List.filter_append, List.filterMap_append, linesOf, linesOf]

theorem linesOf_single {rec : Record} {m : String} (hu : fromUnit unit rec = true)
    (hm : journalMessage c rec = .ok m) : linesOf c unit [rec] = [m] := by
  rw [linesOf, List.filter_cons_of_pos hu]
  simp [hm, Except.toOption]

theorem note_lines (j : Journal) (rec : Record) : (note c j rec).lines = j.lines := by
  unfold note
  split <;> (try split) <;> rfl

theorem note_withLines (j : Journal) (rec : Record) (lines : List String) :
    note c { j with lines := lines } rec = { note c j rec with lines := lines } := by
  unfold note
  split <;> (try split) <;> rfl

theorem foldl_note_withLines (records : List Record) (j : Journal) (lines : List String) :
    records.foldl (note c) { j with lines := lines } =
      { records.foldl (note c) j with lines := lines } := by
  induction records generalizing j with
  | nil => rfl
  | cons rec records ih => rw [List.foldl_cons, note_withLines, ih, List.foldl_cons]

/-- A scan that reads every message keeps the lines and folds the rest. -/
theorem scan_of_readable {records : List Record} (h : ∀ rec ∈ records, Readable c unit rec)
    (j : Journal) :
    scan c unit records j = (.ok (), { records.foldl (note c) j with
      lines := j.lines ++ linesOf c unit records }) := by
  induction records generalizing j with
  | nil => simp [scan, linesOf]
  | cons rec records ih =>
      have hrest := fun j => ih (fun r hr => h r (List.mem_cons_of_mem _ hr)) j
      rw [scan, List.foldl_cons]
      cases hu : fromUnit unit rec with
      | false =>
          have hk : keepLine c unit rec j = (.ok (), j) := by rw [keepLine, hu]; rfl
          rw [Exec.bind_ok _ hk]
          show scan c unit records (note c j rec) = _
          rw [hrest, note_lines, linesOf, linesOf, List.filter_cons_of_neg (by simp [hu])]
      | true =>
          obtain ⟨m, hm⟩ := h rec List.mem_cons_self hu
          have hk : keepLine c unit rec j = (.ok (), { j with lines := j.lines ++ [m] }) := by
            rw [keepLine, hu, hm]; rfl
          rw [Exec.bind_ok _ hk]
          show scan c unit records (note c { j with lines := j.lines ++ [m] } rec) = _
          rw [hrest, note_withLines, foldl_note_withLines, linesOf, linesOf,
            List.filter_cons_of_pos (by simpa using hu), List.filterMap_cons, hm]
          simp [Except.toOption, List.append_assoc]

/-- A scan that meets a message that does not read raises. -/
theorem scan_of_unreadable {records : List Record} (h : ∃ rec ∈ records, ¬ Readable c unit rec)
    (j : Journal) : ∃ e j', scan c unit records j = (.error e, j') ∧
      ∀ rest, scan c unit (records ++ rest) j = (.error e, j') := by
  induction records generalizing j with
  | nil =>
      obtain ⟨_, hmem, -⟩ := h
      cases hmem
  | cons rec records ih =>
      by_cases hr : Readable c unit rec
      · obtain ⟨r, hmem, hbad⟩ := h
        have htail : ∃ r ∈ records, ¬ Readable c unit r := by
          rcases List.mem_cons.mp hmem with rfl | hmem
          · exact absurd hr hbad
          · exact ⟨r, hmem, hbad⟩
        have hfirst : ∀ r ∈ [rec], Readable c unit r := by
          intro r hr'
          rwa [List.mem_singleton.mp hr']
        have hone := scan_of_readable hfirst j
        obtain ⟨e, j', he, hrest⟩ := ih htail _
        refine ⟨e, j', ?_, fun rest => ?_⟩
        · rw [← List.singleton_append, scan_append, Exec.bind_ok _ hone]
          exact he
        · rw [← List.singleton_append, List.append_assoc, scan_append, Exec.bind_ok _ hone]
          exact hrest rest
      · obtain ⟨hu, hm⟩ := Classical.not_imp.mp hr
        cases hmsg : journalMessage c rec with
        | ok m => exact absurd ⟨m, hmsg⟩ hm
        | error e =>
            have hk : keepLine c unit rec j = (.error e, j) := by
              rw [keepLine, if_pos hu, hmsg]; rfl
            refine ⟨e, j, ?_, fun rest => ?_⟩
            · rw [scan, Exec.bind_error _ hk]
            · rw [List.cons_append, scan, Exec.bind_error _ hk]

end

/-! ## What the fold reaches, read off the records -/

/-- The record ends a job. -/
def isOutcome (rec : Record) : Bool := ((eventOf rec).bind Event.outcome?).isSome

/-- The record replaces an outcome that is there already. -/
def replaces (rec : Record) : Bool :=
  decide (eventOf rec = some .started ∨ eventOf rec = some .failed)

/-- The exit status logged last. -/
def exitOf (c : Codec) (records : List Record) : String :=
  ((records.filter fun rec => eventOf rec = some .processExit).getLast?.map (exitStatus c)).getD ""

/-- The first time a start job's opening reads as. -/
def startOf (c : Codec) (records : List Record) : Option ℤ :=
  (records.filter fun rec => eventOf rec = some .starting).findSome? (monotonicUs c)

/-- The outcome that stands once `o` came and `records` after it. -/
def lastOutcome (o : Record) (records : List Record) : Record :=
  (records.filter replaces).getLastD o

/-- The result an outcome record gives. -/
def outcomeName (rec : Record) : String := ((eventOf rec).bind Event.outcome?).getD ""

section
variable {c : Codec}

theorem outcomeName_ne {rec : Record} (h : isOutcome rec = true) : outcomeName rec ≠ "" := by
  unfold isOutcome at h
  unfold outcomeName
  cases he : eventOf rec with
  | none => rw [he] at h; cases h
  | some e =>
      rw [he] at h
      cases e with
      | starting => cases h
      | processExit => cases h
      | _ => decide

theorem isOutcome_of_replaces {rec : Record} (h : replaces rec = true) : isOutcome rec = true := by
  rcases of_decide_eq_true h with he | he <;> rw [isOutcome, he] <;> rfl

theorem note_startedAt (j : Journal) (rec : Record) : (note c j rec).startedAt =
    if eventOf rec = some .starting then j.startedAt.or (monotonicUs c rec) else j.startedAt := by
  unfold note
  cases he : eventOf rec with
  | none => rfl
  | some e =>
      cases e with
      | starting =>
          cases hs : j.startedAt with
          | none => simp
          | some t => simp [hs]
      | stopped =>
          by_cases hr : j.result = ""
          · simp [hr, Journal.ends]
          · simp [hr]
      | _ => simp [Journal.ends]

theorem note_execStatus (j : Journal) (rec : Record) : (note c j rec).execStatus =
    if eventOf rec = some .processExit then exitStatus c rec else j.execStatus := by
  unfold note
  cases he : eventOf rec with
  | none => rfl
  | some e =>
      cases e with
      | starting => by_cases hs : j.startedAt = none <;> simp [hs]
      | stopped => by_cases hr : j.result = "" <;> simp [hr, Journal.ends]
      | _ => simp [Journal.ends]

/-- Before an outcome, only an outcome ends the job. -/
theorem note_of_not_outcome {rec : Record} (h : isOutcome rec = false) (j : Journal) :
    (note c j rec).result = j.result ∧ (note c j rec).endedAt = j.endedAt := by
  unfold isOutcome at h
  unfold note
  cases he : eventOf rec with
  | none => exact ⟨rfl, rfl⟩
  | some e =>
      rw [he] at h
      cases e with
      | starting => by_cases hs : j.startedAt = none <;> simp [hs]
      | processExit => exact ⟨rfl, rfl⟩
      | _ => cases h

/-- The job has the outcome of `o`. -/
def EndedBy (c : Codec) (o : Record) (j : Journal) : Prop :=
  isOutcome o = true ∧ j.result = outcomeName o ∧ j.endedAt = monotonicUs c o

theorem note_outcome {o : Record} (ho : isOutcome o = true) {j : Journal} (hj : j.result = "") :
    EndedBy c o (note c j o) := by
  refine ⟨ho, ?_⟩
  unfold isOutcome at ho
  unfold note outcomeName
  cases he : eventOf o with
  | none => rw [he] at ho; cases ho
  | some e =>
      rw [he] at ho
      cases e with
      | starting => cases ho
      | processExit => cases ho
      | stopped => rw [if_pos hj]; exact ⟨rfl, rfl⟩
      | _ => exact ⟨rfl, rfl⟩

/-- Past an outcome, only what replaces it ends the job again. -/
theorem EndedBy.note {o : Record} {j : Journal} (h : EndedBy c o j) (rec : Record) :
    EndedBy c (if replaces rec then rec else o) (note c j rec) := by
  obtain ⟨ho, hres, hend⟩ := h
  cases hr : replaces rec with
  | true =>
      refine ⟨isOutcome_of_replaces hr, ?_⟩
      rw [if_pos rfl]
      rcases of_decide_eq_true hr with he | he <;>
        (unfold Suites.note outcomeName; rw [he]; exact ⟨rfl, rfl⟩)
  | false =>
      have hnot := of_decide_eq_false hr
      refine ⟨ho, ?_⟩
      rw [if_neg (by simp), ← hres, ← hend]
      cases hout : isOutcome rec with
      | false => exact note_of_not_outcome hout j
      | true =>
          unfold isOutcome at hout
          unfold Suites.note
          cases he : eventOf rec with
          | none => exact ⟨rfl, rfl⟩
          | some e =>
              rw [he] at hout hnot
              cases e with
              | stopped =>
                  have hne : j.result ≠ "" := hres ▸ outcomeName_ne ho
                  simp [hne]
              | started => exact absurd (.inl rfl) hnot
              | failed => exact absurd (.inr rfl) hnot
              | _ => cases hout

theorem EndedBy.foldl {o : Record} {j : Journal} (h : EndedBy c o j) (records : List Record) :
    EndedBy c (lastOutcome o records) (records.foldl (Suites.note c) j) := by
  induction records generalizing o j with
  | nil => exact h
  | cons rec records ih =>
      have hstep := ih (h.note rec)
      rw [List.foldl_cons]
      cases hr : replaces rec with
      | true =>
          rw [lastOutcome, List.filter_cons_of_pos hr, List.getLastD_cons]
          simpa [hr, lastOutcome] using hstep
      | false =>
          rw [lastOutcome, List.filter_cons_of_neg (by simp [hr])]
          simpa [hr, lastOutcome] using hstep

theorem foldl_of_no_outcome {records : List Record} (h : ∀ r ∈ records, isOutcome r = false)
    (j : Journal) : (records.foldl (note c) j).result = j.result := by
  induction records generalizing j with
  | nil => rfl
  | cons rec records ih =>
      rw [List.foldl_cons, ih (fun r hr => h r (List.mem_cons_of_mem _ hr)),
        (note_of_not_outcome (h rec List.mem_cons_self) j).1]

theorem foldl_startedAt (records : List Record) (j : Journal) :
    (records.foldl (note c) j).startedAt = j.startedAt.or (startOf c records) := by
  induction records generalizing j with
  | nil => simp [startOf]
  | cons rec records ih =>
      rw [List.foldl_cons, ih, note_startedAt]
      by_cases he : eventOf rec = some .starting
      · rw [if_pos he, startOf, startOf, List.filter_cons_of_pos (by simpa using he),
          List.findSome?_cons, Option.or_assoc]
        cases monotonicUs c rec <;> rfl
      · rw [if_neg he, startOf, startOf, List.filter_cons_of_neg (by simpa using he)]

theorem foldl_execStatus (records : List Record) (j : Journal) :
    (records.foldl (note c) j).execStatus =
      ((records.filter fun rec => eventOf rec = some .processExit).getLast?.map
        (exitStatus c)).getD j.execStatus := by
  induction records generalizing j with
  | nil => rfl
  | cons rec records ih =>
      rw [List.foldl_cons, ih, note_execStatus]
      by_cases he : eventOf rec = some .processExit
      · rw [if_pos he, List.filter_cons_of_pos (by simpa using he), List.getLast?_cons]
        cases (records.filter fun rec => eventOf rec = some .processExit).getLast? <;> rfl
      · rw [if_neg he, List.filter_cons_of_neg (by simpa using he)]

/-- What is folded of a run whose first outcome is `o`. -/
theorem foldl_run {pre : List Record} {o : Record} (hpre : ∀ r ∈ pre, isOutcome r = false)
    (ho : isOutcome o = true) (later : List Record) :
    EndedBy c (lastOutcome o later) ((pre ++ o :: later).foldl (note c) Journal.empty) ∧
      ((pre ++ o :: later).foldl (note c) Journal.empty).execStatus = exitOf c (pre ++ o :: later) ∧
      ((pre ++ o :: later).foldl (note c) Journal.empty).startedAt =
        startOf c (pre ++ o :: later) := by
  refine ⟨?_, foldl_execStatus _ _, foldl_startedAt _ _⟩
  rw [List.foldl_append, List.foldl_cons]
  exact (note_outcome ho (foldl_of_no_outcome hpre _)).foldl later

/-! ## One more record -/

theorem exitOf_snoc (records : List Record) (rec : Record) : exitOf c (records ++ [rec]) =
    if eventOf rec = some .processExit then exitStatus c rec else exitOf c records := by
  rw [exitOf, List.filter_append]
  by_cases he : eventOf rec = some .processExit
  · rw [if_pos he, List.filter_cons_of_pos (by simpa using he)]
    simp
  · rw [if_neg he, List.filter_cons_of_neg (by simpa using he)]
    simp [exitOf]

theorem lastOutcome_snoc (o : Record) (records : List Record) (rec : Record) :
    lastOutcome o (records ++ [rec]) = if replaces rec then rec else lastOutcome o records := by
  rw [lastOutcome, List.filter_append]
  cases hr : replaces rec with
  | true =>
      rw [List.filter_cons_of_pos hr]
      simp [List.getLastD_eq_getLast?]
  | false =>
      rw [List.filter_cons_of_neg (by simp [hr])]
      simp [lastOutcome]

theorem startOf_append (xs ys : List Record) :
    startOf c (xs ++ ys) = (startOf c xs).or (startOf c ys) := by
  rw [startOf, List.filter_append, List.findSome?_append, startOf, startOf]

/-- A start time is read off one of the records. -/
theorem startOf_isSome {records : List Record} (h : startOf c records ≠ none) :
    ∃ a r b, records = a ++ r :: b ∧ eventOf r = some .starting ∧ monotonicUs c r ≠ none := by
  obtain ⟨t, ht⟩ := Option.ne_none_iff_exists'.mp h
  obtain ⟨r, hmem, hr⟩ := List.exists_of_findSome?_eq_some ht
  obtain ⟨hmem, he⟩ := List.mem_filter.mp hmem
  obtain ⟨a, b, rfl⟩ := List.append_of_mem hmem
  exact ⟨a, r, b, rfl, of_decide_eq_true he, by rw [hr]; simp⟩

theorem startOf_ne_none {a b : List Record} {r : Record} (he : eventOf r = some .starting)
    (hr : monotonicUs c r ≠ none) : startOf c (a ++ r :: b) ≠ none := by
  obtain ⟨t, ht⟩ := Option.ne_none_iff_exists'.mp hr
  rw [startOf_append, startOf, startOf, List.filter_cons_of_pos (by simpa using he),
    List.findSome?_cons, ht]
  cases (a.filter fun rec => eventOf rec = some .starting).findSome? (monotonicUs c) <;> simp

/-- An outcome stays the one that stands, or one after it does. -/
theorem lastOutcome_append (o : Record) (xs ys : List Record) :
    lastOutcome o (xs ++ ys) = lastOutcome (lastOutcome o xs) ys := by
  rw [lastOutcome, List.filter_append, lastOutcome, lastOutcome]
  cases ys.filter replaces using List.reverseRecOn with
  | nil => simp
  | append_singleton zs z => simp [List.getLastD_eq_getLast?]

theorem lastOutcome_cases (o : Record) (records : List Record) :
    lastOutcome o records = o ∨ lastOutcome o records ∈ records ∧
      replaces (lastOutcome o records) = true := by
  induction records using List.reverseRecOn with
  | nil => exact .inl rfl
  | append_singleton xs x ih =>
      rw [lastOutcome_snoc]
      cases hx : replaces x with
      | true => exact .inr ⟨by simp, by simpa using hx⟩
      | false => exact ih.imp id fun h => ⟨by simp [h.1], by simpa using h.2⟩

/-- An outcome is its name. -/
theorem eventOf_eq_of_outcomeName {r o : Record} (hr : isOutcome r = true)
    (ho : isOutcome o = true) (h : outcomeName r = outcomeName o) : eventOf r = eventOf o := by
  unfold isOutcome at hr ho
  unfold outcomeName at h
  cases her : eventOf r with
  | none => rw [her] at hr; cases hr
  | some x =>
      cases heo : eventOf o with
      | none => rw [heo] at ho; cases ho
      | some y =>
          rw [her] at hr h
          rw [heo] at ho h
          revert hr ho h
          cases x <;> cases y <;> decide

theorem linesOf_eq_nil_iff {unit : String} {records : List Record}
    (h : ∀ rec ∈ records, Readable c unit rec) :
    linesOf c unit records = [] ↔ ∀ rec ∈ records, fromUnit unit rec = false := by
  rw [linesOf, List.filterMap_eq_nil_iff]
  refine ⟨fun hnone rec hmem => ?_, fun hnot rec hmem => ?_⟩
  · refine Bool.eq_false_iff.mpr fun hu => ?_
    obtain ⟨m, hm⟩ := h rec hmem hu
    have hlost := hnone rec (List.mem_filter.mpr ⟨hmem, hu⟩)
    rw [hm] at hlost
    cases hlost
  · obtain ⟨hmem, hu⟩ := List.mem_filter.mp hmem
    exact absurd hu (by simp [hnot rec hmem])

end

end KdevopsNg.Suites
