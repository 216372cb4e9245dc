/-
# `Usertests.Noise` — what the noise filter takes away

Two scans judge a harness by its output: for the lines of the sanitizers, and for
failed assertions.  Both read what is left when the expected noise is stripped, so a
line goes unseen (`Hidden`) when

    it carries a marker of the noise
    the last marker above it opens a block, closed below or not
    the catalog entry expects it

A sanitizer's line should count wherever it stands, and a failed assertion unless it
is in a block that is closed or expected (`Owed`).  `sound_iff` is when a harness with
such a line fails: when one of them can be seen, or something else fails it.
-/
import KdevopsNg.Usertests.Collect

namespace KdevopsNg.Usertests

open Py Suites

/-! ## What is owed, and what is hidden -/

/-- A line of a sanitizer. -/
def isSanitizer (ln : Line) : Prop := ∃ marker ∈ sanitizerMarkers, Text.isInfix marker ln = true

/-- A line of a failed assertion. -/
def isAssertion (ln : Line) : Prop := Text.isInfix assertMarker ln = true

/-- A line in a block: from a line with the marker that opens to the first with the one that
closes. -/
def InClosedBlock (before : List Line) (ln : Line) (after : List Line) : Prop :=
  (∃ front o mid, before = front ++ o :: mid ∧ opensNoise o = true ∧
    (∀ l ∈ mid, closesNoise l = false) ∧ (closesNoise ln = true ∨ ∃ l ∈ after, closesNoise l = true)) ∨
  opensNoise ln = true ∧ ∃ l ∈ after, closesNoise l = true

/-- A line that should fail the harness. -/
def Owed (entry : Harness) (before : List Line) (ln : Line) (after : List Line) : Prop :=
  isSanitizer ln ∨ isAssertion ln ∧ ¬ InClosedBlock before ln after ∧ expects entry ln = false

/-- Lines of which the last marker opens a block. -/
def Opened (before : List Line) : Prop :=
  ∃ front o mid, before = front ++ o :: mid ∧ opensNoise o = true ∧
    ∀ l ∈ mid, closesNoise l = true → opensNoise l = true

/-- A line the scans do not see. -/
def Hidden (entry : Harness) (before : List Line) (ln : Line) : Prop :=
  opensNoise ln = true ∨ closesNoise ln = true ∨ Opened before ∨ expects entry ln = true

section
variable (u : Unicode) (entry : Harness) (r : HarnessRun)

/-- A line of the output for which a predicate of its place holds. -/
def HasLine (P : List Line → Line → List Line → Prop) : Prop :=
  ∃ before ln after, Text.splitlines r.output.toList = before ++ ln :: after ∧ P before ln after

/-- An output with a line that is owed fails the harness. -/
def Sound : Prop := HasLine r (Owed entry) → (judge u entry r).status = .failed

/-- Something else fails the harness. -/
def OtherwiseFails : Prop :=
  plumbing r ≠ [] ∨ vmaFindings u r.item (Text.splitlines r.output.toList) ≠ [] ∨
    (evidence u entry r.output.toList (Text.splitlines r.output.toList)).findings ≠ []

end

/-! ## The filter -/

/-- The state of the filter behind some lines. -/
def inBlock (b : Bool) (before : List Line) : Bool :=
  before.foldl (fun b ln => if opensNoise ln then true else if closesNoise ln then false else b) b

theorem inBlock_cons (b : Bool) (ln : Line) (before : List Line) : inBlock b (ln :: before) =
    inBlock (if opensNoise ln then true else if closesNoise ln then false else b) before := rfl

/-- The places of a list with one more line in front. -/
theorem split_cons_iff {l ln : Line} {lines : List Line} {P : List Line → List Line → Prop} :
    (∃ before after, l :: lines = before ++ ln :: after ∧ P before after) ↔
      l = ln ∧ P [] lines ∨ ∃ before after, lines = before ++ ln :: after ∧ P (l :: before) after := by
  constructor
  · rintro ⟨before, after, heq, hP⟩
    cases before with
    | nil =>
        obtain ⟨rfl, rfl⟩ := List.cons.inj heq
        exact .inl ⟨rfl, hP⟩
    | cons x before =>
        obtain ⟨rfl, rfl⟩ := List.cons.inj heq
        exact .inr ⟨before, after, rfl, hP⟩
  · rintro (⟨rfl, hP⟩ | ⟨before, after, rfl, hP⟩)
    · exact ⟨[], lines, rfl, hP⟩
    · exact ⟨l :: before, after, rfl, hP⟩

/-- What the filter keeps: lines without a marker, outside of the blocks. -/
theorem mem_stripFrom {b : Bool} {lines : List Line} {ln : Line} :
    ln ∈ stripFrom b lines ↔ ∃ before after, lines = before ++ ln :: after ∧
      opensNoise ln = false ∧ closesNoise ln = false ∧ inBlock b before = false := by
  induction lines generalizing b with
  | nil => simp [stripFrom]
  | cons l lines ih =>
      rw [split_cons_iff, stripFrom]
      simp only [inBlock_cons]
      by_cases hopen : opensNoise l = true
      · rw [if_pos hopen, ih]
        simp only [if_pos hopen]
        refine ⟨.inr, fun h => h.resolve_left ?_⟩
        rintro ⟨rfl, hno, -⟩
        exact Bool.false_ne_true (hno.symm.trans hopen)
      · by_cases hclose : closesNoise l = true
        · simp only [if_neg hopen, if_pos hclose]
          rw [ih]
          refine ⟨.inr, fun h => h.resolve_left ?_⟩
          rintro ⟨rfl, -, hno, -⟩
          exact Bool.false_ne_true (hno.symm.trans hclose)
        · simp only [if_neg hopen, if_neg hclose]
          cases b with
          | true =>
              rw [if_pos rfl, ih]
              refine ⟨.inr, fun h => h.resolve_left ?_⟩
              rintro ⟨-, -, -, hb⟩
              cases hb
          | false =>
              rw [if_neg Bool.false_ne_true, List.mem_cons, ih]
              refine or_congr_left ⟨?_, fun h => h.1.symm⟩
              rintro rfl
              exact ⟨rfl, eq_false_of_ne_true hopen, eq_false_of_ne_true hclose, rfl⟩

/-- Behind these lines the filter is in a block exactly when their last marker opens one. -/
theorem inBlock_iff (before : List Line) : inBlock false before = true ↔ Opened before := by
  induction before using List.reverseRecOn with
  | nil =>
      refine ⟨fun h => absurd h Bool.false_ne_true, ?_⟩
      rintro ⟨front, o, mid, h, -⟩
      exact absurd h.symm (List.append_ne_nil_of_right_ne_nil front (List.cons_ne_nil o mid))
  | append_singleton before ln ih =>
      have hstep : inBlock false (before ++ [ln]) = if opensNoise ln then true
          else if closesNoise ln then false else inBlock false before := by
        rw [inBlock, List.foldl_append]
        rfl
      rw [hstep]
      by_cases hopen : opensNoise ln = true
      · rw [if_pos hopen]
        exact ⟨fun _ => ⟨before, ln, [], rfl, hopen, fun _ h => absurd h List.not_mem_nil⟩, fun _ => rfl⟩
      · have hsnoc : Opened (before ++ [ln]) ↔ Opened before ∧ closesNoise ln = false := by
          constructor
          · rintro ⟨front, o, mid, heq, ho, hmid⟩
            cases mid using List.reverseRecOn with
            | nil =>
                obtain ⟨-, hlast⟩ := List.append_inj' heq rfl
                cases hlast
                exact absurd ho hopen
            | append_singleton mid l =>
                rw [← List.cons_append, ← List.append_assoc] at heq
                obtain ⟨hfront, hlast⟩ := List.append_inj' heq rfl
                cases hlast
                refine ⟨⟨front, o, mid, hfront, ho, fun x hx => hmid x (List.mem_append_left _ hx)⟩, ?_⟩
                have hln := hmid ln (List.mem_append_right _ (List.mem_singleton_self ln))
                exact eq_false_of_ne_true fun hclose => hopen (hln hclose)
          · rintro ⟨⟨front, o, mid, rfl, ho, hmid⟩, hclose⟩
            refine ⟨front, o, mid ++ [ln], by rw [List.append_assoc, List.cons_append], ho, ?_⟩
            intro l hl hcl
            rcases List.mem_append.mp hl with hl | hl
            · exact hmid l hl hcl
            · rw [List.mem_singleton.mp hl, hclose] at hcl
              cases hcl
        rw [if_neg hopen, hsnoc, ← ih]
        by_cases hclose : closesNoise ln = true
        · rw [if_pos hclose, hclose]
          simp
        · rw [if_neg hclose, eq_false_of_ne_true hclose]
          simp

/-! ## What is seen -/

section
variable {u : Unicode} {entry : Harness} {r : HarnessRun}

/-- The lines that are scanned are those that are not hidden. -/
theorem mem_scanned {lines : List Line} {ln : Line} : ln ∈ scanned entry lines ↔
    ∃ before after, lines = before ++ ln :: after ∧ ¬ Hidden entry before ln := by
  rw [scanned, List.mem_filter, stripExpectedNoise, mem_stripFrom, Bool.not_eq_true']
  have hhidden : ∀ before, ¬ Hidden entry before ln ↔ (opensNoise ln = false ∧
      closesNoise ln = false ∧ inBlock false before = false) ∧ expects entry ln = false := by
    intro before
    simp only [Hidden, not_or, ← inBlock_iff, Bool.not_eq_true, and_assoc]
  simp only [hhidden]
  constructor
  · rintro ⟨⟨before, after, heq, h⟩, hexp⟩
    exact ⟨before, after, heq, h, hexp⟩
  · rintro ⟨before, after, heq, h, hexp⟩
    exact ⟨⟨before, after, heq, h⟩, hexp⟩

theorem sanitizerFindings_ne_nil {lines : List Line} :
    sanitizerFindings lines ≠ [] ↔ ∃ ln ∈ lines, isSanitizer ln := by
  have hnil : sanitizerFindings lines = [] ↔
      ∀ marker ∈ sanitizerMarkers, ∀ ln ∈ lines, ¬ Text.isInfix marker ln = true := by
    rw [sanitizerFindings, List.filterMap_eq_nil_iff]
    simp only [Option.map_eq_none_iff, List.head?_eq_none_iff, List.filter_eq_nil_iff]
  rw [ne_eq, hnil]
  simp only [isSanitizer]
  constructor
  · intro h
    by_contra hnone
    exact h fun marker hm ln hl hin => hnone ⟨ln, hl, marker, hm, hin⟩
  · rintro ⟨ln, hl, marker, hm, hin⟩ hnone
    exact hnone marker hm ln hl hin

theorem assertionFindings_ne_nil {lines : List Line} :
    assertionFindings lines ≠ [] ↔ ∃ ln ∈ lines, isAssertion ln := by
  rw [assertionFindings]
  split
  · next hnil =>
      rw [List.filter_eq_nil_iff] at hnil
      exact ⟨fun h => absurd rfl h, fun ⟨ln, hl, hin⟩ => absurd hin (hnil ln hl)⟩
  · next ln rest hcons =>
      have hmem : ln ∈ lines.filter (Text.isInfix assertMarker) := hcons ▸ List.mem_cons_self
      exact ⟨fun _ => ⟨ln, List.mem_filter.mp hmem⟩, fun _ => List.cons_ne_nil _ _⟩

/-- A line in a closed block is hidden. -/
theorem hidden_of_inClosedBlock {before after : List Line} {ln : Line}
    (h : InClosedBlock before ln after) : Hidden entry before ln := by
  rcases h with ⟨front, o, mid, rfl, ho, hmid, -⟩ | ⟨hopen, -⟩
  · refine .inr (.inr (.inl ⟨front, o, mid, rfl, ho, fun l hl hclose => ?_⟩))
    rw [hmid l hl] at hclose
    cases hclose
  · exact .inl hopen

/-- A line of a sanitizer or of a failed assertion that is seen is owed. -/
theorem owed_iff_of_not_hidden {before after : List Line} {ln : Line}
    (h : ¬ Hidden entry before ln) :
    Owed entry before ln after ↔ isSanitizer ln ∨ isAssertion ln := by
  have hexp : expects entry ln = false := eq_false_of_ne_true fun he => h (.inr (.inr (.inr he)))
  have hblock : ¬ InClosedBlock before ln after := fun hb => h (hidden_of_inClosedBlock hb)
  rw [Owed, and_iff_left ⟨hblock, hexp⟩]

/-- Something is found in the scans exactly when a line that is owed is seen. -/
theorem scans_ne_nil :
    (sanitizerFindings (scanned entry (Text.splitlines r.output.toList)) ≠ [] ∨
      assertionFindings (scanned entry (Text.splitlines r.output.toList)) ≠ []) ↔
      HasLine r fun before ln after => Owed entry before ln after ∧ ¬ Hidden entry before ln := by
  rw [sanitizerFindings_ne_nil, assertionFindings_ne_nil, ← exists_or]
  simp only [← and_or_left, mem_scanned, HasLine]
  constructor
  · rintro ⟨ln, ⟨before, after, heq, hseen⟩, htells⟩
    exact ⟨before, ln, after, heq, (owed_iff_of_not_hidden hseen).mpr htells, hseen⟩
  · rintro ⟨before, ln, after, heq, howed, hseen⟩
    exact ⟨ln, ⟨before, after, heq, hseen⟩, (owed_iff_of_not_hidden hseen).mp howed⟩

theorem status_failed_iff : (judge u entry r).status = .failed ↔ OtherwiseFails u entry r ∨
    HasLine r fun before ln after => Owed entry before ln after ∧ ¬ Hidden entry before ln := by
  have hstatus : (judge u entry r).status = .failed ↔ findings u entry r ≠ [] := by
    show (if findings u entry r = [] then Status.passed else Status.failed) = .failed ↔ _
    split
    · next h => simp [h]
    · next h => simp [h]
  rw [hstatus, ← scans_ne_nil, OtherwiseFails, findings]
  simp only [ne_eq, List.append_eq_nil_iff, not_and_or]
  constructor
  · rintro ((((h | h) | h) | h) | h)
    · exact .inl (.inl h)
    · exact .inr (.inl h)
    · exact .inr (.inr h)
    · exact .inl (.inr (.inl h))
    · exact .inl (.inr (.inr h))
  · rintro ((h | h | h) | h | h)
    · exact .inl (.inl (.inl (.inl h)))
    · exact .inl (.inr h)
    · exact .inr h
    · exact .inl (.inl (.inl (.inr h)))
    · exact .inl (.inl (.inr h))

/-- The harness fails for a line that is owed exactly when one of them can be seen, or something
else fails it. -/
theorem sound_iff (u : Unicode) (entry : Harness) (r : HarnessRun) : Sound u entry r ↔
    OtherwiseFails u entry r ∨ (HasLine r (Owed entry) →
      HasLine r fun before ln after => Owed entry before ln after ∧ ¬ Hidden entry before ln) := by
  rw [Sound, status_failed_iff]
  constructor
  · intro h
    by_cases hother : OtherwiseFails u entry r
    · exact .inl hother
    · exact .inr fun howed => (h howed).resolve_left hother
  · rintro (hother | h) howed
    · exact .inl hother
    · exact .inr (h howed)

end

/-- A run of the IDR test with a sanitizer's line behind an open marker. -/
def unclosedRun : HarnessRun where
  vmName := "vm0"
  item := "radix-tree/idr-test"
  kernelVersion := "7.2.0"
  output := "vvv Ignore \"not allocated\" warnings\nERROR: AddressSanitizer: heap-use-after-free\n" ++
    "IDA: 2 of 2 tests passed\n"
  result := "done"
  execStatus := ""
  crashed := false
  timedOut := false
  runtime := none
  startedMs := none
  endedMs := none

/-- A marker that is never closed hides what a sanitizer wrote, and the harness passes. -/
theorem unclosed_hides : ¬ ∀ u entry r, Sound u entry r := by
  intro h
  have hpassed : (judge .ascii (catalogEntry .ascii "radix-tree/idr-test") unclosedRun).status =
      .passed := by decide +kernel
  have hlines : Text.splitlines unclosedRun.output.toList =
      ["vvv Ignore \"not allocated\" warnings".toList] ++
        "ERROR: AddressSanitizer: heap-use-after-free".toList ::
          ["IDA: 2 of 2 tests passed".toList] := by decide +kernel
  have hfailed := h .ascii (catalogEntry .ascii "radix-tree/idr-test") unclosedRun
    ⟨_, _, _, hlines, .inl ⟨_, List.mem_cons_self, by decide +kernel⟩⟩
  rw [hpassed] at hfailed
  cases hfailed

end KdevopsNg.Usertests
