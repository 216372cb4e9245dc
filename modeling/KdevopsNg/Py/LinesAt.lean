/-
# `Py.LinesAt` — lines that end at a character of a kind

Two readers of one text may end its lines at different characters.  `linesAt p` ends them where
`p` says.  What is written behind a text is read behind its lines when the text ends where a
line does (`linesAt_append`); else its first line is read on the last one (`linesAt_open`).
-/
import KdevopsNg.Py.Lines

namespace Py

namespace Text

/-- A text in front of the first line. -/
def glue (s : List Char) : List (List Char) → List (List Char)
  | [] => [s]
  | l :: ls => (s ++ l) :: ls

/-- The lines of a text; one that ends nowhere is the last. -/
def linesAt (p : Char → Bool) : List Char → List (List Char)
  | [] => []
  | c :: s => if p c = true then [] :: linesAt p s else glue [c] (linesAt p s)

/-- A text that is empty or ends where a line does. -/
def EndsLine (p : Char → Bool) (s : List Char) : Prop := ∀ c ∈ s.getLast?, p c = true

instance (p : Char → Bool) (s : List Char) : Decidable (EndsLine p s) :=
  match h : s.getLast? with
  | none => isTrue (by rw [EndsLine, h]; exact nofun)
  | some c => decidable_of_iff (p c = true) (by simp [EndsLine, h])

variable {p : Char → Bool}

theorem glue_glue (s t : List Char) (ls : List (List Char)) :
    glue s (glue t ls) = glue (s ++ t) ls := by
  cases ls with
  | nil => rfl
  | cons l ls => exact congrArg (· :: ls) (List.append_assoc s t l).symm

theorem glue_append (s : List Char) {ls : List (List Char)} (hne : ls ≠ [])
    (ls' : List (List Char)) : glue s (ls ++ ls') = glue s ls ++ ls' := by
  cases ls with
  | nil => exact absurd rfl hne
  | cons l ls => rfl

theorem linesAt_ne_nil {s : List Char} (hne : s ≠ []) : linesAt p s ≠ [] := by
  cases s with
  | nil => exact absurd rfl hne
  | cons c s =>
      rw [linesAt]
      split_ifs
      · exact List.cons_ne_nil _ _
      · cases linesAt p s with
        | nil => exact List.cons_ne_nil _ _
        | cons l ls => exact List.cons_ne_nil _ _

theorem EndsLine.of_cons {c : Char} {s : List Char} (h : EndsLine p (c :: s)) : EndsLine p s := by
  intro d hd
  refine h d ?_
  rw [List.getLast?_cons, Option.mem_def.mp hd]
  rfl

/-- What is written behind a text that ends where a line does. -/
theorem linesAt_append {s : List Char} (h : EndsLine p s) (t : List Char) :
    linesAt p (s ++ t) = linesAt p s ++ linesAt p t := by
  induction s with
  | nil => rfl
  | cons c s ih =>
      rw [List.cons_append, linesAt, linesAt, ih h.of_cons]
      split_ifs with hc
      · rfl
      · refine glue_append [c] (linesAt_ne_nil ?_) _
        rintro rfl
        exact hc (h c rfl)

/-- What is written behind one that does not: the last line goes on. -/
theorem linesAt_open {s : List Char} (h : ¬ EndsLine p s) : ∃ front last,
    linesAt p s = front ++ [last] ∧ ∀ t, linesAt p (s ++ t) = front ++ glue last (linesAt p t) := by
  induction s with
  | nil => exact absurd nofun h
  | cons c s ih =>
      by_cases hs : EndsLine p s
      · -- only the last character can be wrong
        have hnil : s = [] := by
          by_contra hne
          refine h fun d hd => hs d ?_
          rwa [List.getLast?_cons_of_ne_nil hne] at hd
        subst hnil
        have hc : ¬ p c = true := fun hc => h fun d hd => by
          cases hd
          exact hc
        refine ⟨[], [c], ?_, fun t => ?_⟩
        · rw [linesAt, if_neg hc]
          rfl
        · rw [List.singleton_append, linesAt, if_neg hc, List.nil_append]
      · obtain ⟨front, last, hlines, happend⟩ := ih hs
        by_cases hc : p c = true
        · refine ⟨[] :: front, last, ?_, fun t => ?_⟩
          · rw [linesAt, if_pos hc, hlines, List.cons_append]
          · rw [List.cons_append, linesAt, if_pos hc, happend, List.cons_append]
        · cases front with
          | nil =>
              refine ⟨[], c :: last, ?_, fun t => ?_⟩
              · rw [linesAt, if_neg hc, hlines]
                rfl
              · rw [List.cons_append, linesAt, if_neg hc, happend, List.nil_append, glue_glue]
                rfl
          | cons l front =>
              refine ⟨(c :: l) :: front, last, ?_, fun t => ?_⟩
              · rw [linesAt, if_neg hc, hlines]
                rfl
              · rw [List.cons_append, linesAt, if_neg hc, happend]
                rfl

/-- A line and its end. -/
theorem linesAt_line {l : List Char} (hl : ∀ c ∈ l, p c = false) {e : Char} (he : p e = true)
    (s : List Char) : linesAt p (l ++ e :: s) = l :: linesAt p s := by
  induction l with
  | nil => rw [List.nil_append, linesAt, if_pos he]
  | cons c l ih =>
      rw [List.cons_append, linesAt, ih fun d hd => hl d (List.mem_cons_of_mem c hd),
        hl c List.mem_cons_self, if_neg Bool.false_ne_true]
      rfl

/-- Lines written are read again. -/
theorem linesAt_lines {ls : List (List Char)} {e : Char} (he : p e = true)
    (h : ∀ l ∈ ls, ∀ c ∈ l, p c = false) : linesAt p (ls.flatMap (· ++ [e])) = ls := by
  induction ls with
  | nil => rfl
  | cons l ls ih =>
      rw [List.flatMap_cons, List.append_assoc, List.singleton_append,
        linesAt_line (h l List.mem_cons_self) he,
        ih fun l' hl' => h l' (List.mem_cons_of_mem l hl')]

/-- No line has a character that ends one. -/
theorem of_mem_linesAt {s l : List Char} (hl : l ∈ linesAt p s) : ∀ c ∈ l, p c = false := by
  induction s generalizing l with
  | nil => exact absurd hl List.not_mem_nil
  | cons c s ih =>
      rw [linesAt] at hl
      split_ifs at hl with hc
      · rcases List.mem_cons.mp hl with rfl | hl
        · exact List.forall_mem_nil _
        · exact ih hl
      · have hc' : p c = false := Bool.eq_false_iff.mpr hc
        cases hls : linesAt p s with
        | nil =>
            rw [hls] at hl
            rw [List.mem_singleton.mp hl]
            exact List.forall_mem_singleton.mpr hc'
        | cons l' ls =>
            rw [hls] at hl ih
            rcases List.mem_cons.mp hl with rfl | hl
            · exact List.forall_mem_cons.mpr ⟨hc', ih List.mem_cons_self⟩
            · exact ih (List.mem_cons_of_mem _ hl)

/-- Without a return, `splitlines` ends a line at each of its line breaks. -/
theorem splitlines_eq_linesAt {s : List Char} (h : '\r' ∉ s) :
    splitlines s = linesAt isLineBreak s := by
  induction s using splitlines.induct with
  | case1 => rfl
  | case2 => exact absurd List.mem_cons_self h
  | case3 => exact absurd List.mem_cons_self h
  | case4 c s h₁ h₂ hbreak ih =>
      rw [splitlines, if_pos hbreak, linesAt, if_pos hbreak,
        ih fun hs => h (List.mem_cons_of_mem c hs)]
      · exact h₁
      · exact h₂
  | case5 c s h₁ h₂ hbreak hnil ih =>
      rw [splitlines, if_neg hbreak, linesAt, if_neg hbreak,
        ← ih fun hs => h (List.mem_cons_of_mem c hs), hnil]
      · rfl
      · exact h₁
      · exact h₂
  | case6 c s h₁ h₂ hbreak l ls hcons ih =>
      rw [splitlines, if_neg hbreak, linesAt, if_neg hbreak,
        ← ih fun hs => h (List.mem_cons_of_mem c hs), hcons]
      · rfl
      · exact h₁
      · exact h₂

end Text

end Py
