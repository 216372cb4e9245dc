/-
# `Sys.Run` — runs of a deterministic machine

A machine is a function `step : σ → ι → σ`: the inputs carry everything the
environment decides, so a run is a left fold over a list of them.  `Along C`
says of a run that every step of it satisfied `C`, a relation between the state
before the step and its input; it is how an assumption about each step of a
run, and a property of each step, are stated.

    run_inv      an invariant of the step is an invariant of the run
    run_inv_of   the same, when the step keeps it only under `C`
    along_of     and every step of such a run then satisfies what the invariant
                 and `C` give
-/
import Mathlib.Data.List.Basic

namespace Sys

variable {σ ι : Type} {step : σ → ι → σ}

/-- The state a run of `step` over the inputs `is` ends in. -/
def run (step : σ → ι → σ) (s : σ) (is : List ι) : σ := is.foldl step s

/-- Every step of the run satisfies `C`. -/
def Along (step : σ → ι → σ) (C : σ → ι → Prop) : σ → List ι → Prop
  | _, [] => True
  | s, i :: is => C s i ∧ Along step C (step s i) is

@[simp] theorem run_nil (s : σ) : run step s [] = s := rfl

@[simp] theorem run_cons (s : σ) (i : ι) (is : List ι) :
    run step s (i :: is) = run step (step s i) is := rfl

theorem run_append (s : σ) (is js : List ι) :
    run step s (is ++ js) = run step (run step s is) js := List.foldl_append

@[simp] theorem along_nil (C : σ → ι → Prop) (s : σ) : Along step C s [] := trivial

@[simp] theorem along_cons (C : σ → ι → Prop) (s : σ) (i : ι) (is : List ι) :
    Along step C s (i :: is) ↔ C s i ∧ Along step C (step s i) is := Iff.rfl

/-- An invariant that every step keeps under `C` holds at the end of a run whose
steps all satisfy `C`. -/
theorem run_inv_of {C : σ → ι → Prop} {I : σ → Prop}
    (hstep : ∀ s i, I s → C s i → I (step s i)) {s : σ} {is : List ι} (hI : I s)
    (hC : Along step C s is) : I (run step s is) := by
  induction is generalizing s with
  | nil => exact hI
  | cons i is ih => exact ih (hstep s i hI hC.1) hC.2

/-- An invariant that every step keeps holds at the end of every run. -/
theorem run_inv {I : σ → Prop} (hstep : ∀ s i, I s → I (step s i)) {s : σ} (is : List ι)
    (hI : I s) : I (run step s is) := by
  induction is generalizing s with
  | nil => exact hI
  | cons i is ih => exact ih (hstep s i hI)

/-- What each input gives of its step, from any state, holds of every step of the
run. -/
theorem along_of_mem {P : σ → ι → Prop} {is : List ι} (hP : ∀ i ∈ is, ∀ s, P s i) (s : σ) :
    Along step P s is := by
  induction is generalizing s with
  | nil => trivial
  | cons i is ih =>
      exact ⟨hP i List.mem_cons_self s,
        ih (fun j hj => hP j (List.mem_cons_of_mem i hj)) (step s i)⟩

/-- What holds of every step whatever holds of every step of every run. -/
theorem along_of_forall {P : σ → ι → Prop} (hP : ∀ s i, P s i) (s : σ) (is : List ι) :
    Along step P s is :=
  along_of_mem (fun i _ s => hP s i) s

/-- What the invariant and the condition give of one step holds of every step of
the run. -/
theorem along_of {C P : σ → ι → Prop} {I : σ → Prop}
    (hstep : ∀ s i, I s → C s i → I (step s i)) (hP : ∀ s i, I s → C s i → P s i)
    {s : σ} {is : List ι} (hI : I s) (hC : Along step C s is) : Along step P s is := by
  induction is generalizing s with
  | nil => trivial
  | cons i is ih => exact ⟨hP s i hI hC.1, ih (hstep s i hI hC.1) hC.2⟩

end Sys
