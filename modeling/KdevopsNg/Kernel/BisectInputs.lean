/-
# `Kernel.BisectInputs` — which inputs the recorded iterations used

`main` can be called with other arguments at every call.  `Traced` keeps, beside
the world, the arguments of the calls behind the recorded iterations: the call
that reset the bisect, then one call for each iteration.  Iteration `k` is about
a candidate that call `k` built (its bringup inputs carry the call's arguments)
and call `k + 1` judged, so the iterations were decided under one set of inputs
exactly when all these calls have the same ones (`Uniform`).

The stale test compares seven inputs, and two that reach the candidate's build
are not among them: the compiler and the make flags.  Changing one of them
between two calls goes on with the old bisect (`inputs_mix`).  As long as no
call that goes on does so, all recorded iterations share their inputs and a call
with other inputs starts over (`run_uniform`).
-/
import KdevopsNg.Kernel.BisectSafety

namespace KdevopsNg.Kernel

open Py Py.Exec Sys

section
variable {γ : Type}

/-- A call with its arguments. -/
structure InputCall (γ : Type) where
  call : Call γ
  args : Args

/-- The inputs that reach the bringup or the verdict are the same. -/
structure Args.sameInputs (r a : Args) : Prop where
  agrees : r.agrees a
  compiler : r.compiler = a.compiler
  makeFlags : r.makeFlags = a.makeFlags

/-- How many iterations `state.json` holds. -/
def World.recorded (w : World γ) : ℕ :=
  match w.state.getItem "iterations" with
  | .ok (.arr xs) => xs.length
  | _ => 0

/-- A world, and the arguments of the calls behind its iterations. -/
structure Traced (γ : Type) where
  world : World γ
  calls : List Args

/-- One call.  A reset begins a new list of calls; a call that recorded an
iteration extends it. -/
def tracedStep (x : Traced γ) (c : InputCall γ) : Traced γ :=
  let w := callStep c.args x.world c.call
  ⟨w, if isReset c.call.env c.args x.world then [c.args]
    else if x.world.recorded < w.recorded then x.calls ++ [c.args]
    else x.calls⟩

/-- All the calls behind the iterations had the inputs of the one that reset the
bisect. -/
def Uniform (calls : List Args) : Prop := ∀ r rest, calls = r :: rest → ∀ a ∈ rest, r.sameInputs a

/-- What is promised of one call: it starts over, or it has the inputs of the
bisect it goes on with, or it records nothing. -/
def KeepsInputs (x : Traced γ) (c : InputCall γ) : Prop :=
  isReset c.call.env c.args x.world = true ∨
  (∃ r, x.calls.head? = some r ∧ r.sameInputs c.args) ∨
  (callStep c.args x.world c.call).stateFile = x.world.stateFile

/-- The condition on one call: it starts over, or its compiler and make flags
are those of the call that reset the bisect. -/
def SameToolchain (x : Traced γ) (c : InputCall γ) : Prop :=
  isReset c.call.env c.args x.world = true ∨
  ∀ r, x.calls.head? = some r → r.compiler = c.args.compiler ∧ r.makeFlags = c.args.makeFlags

/-- The trace is that of the state on disk: a session the first call began, with
one iteration for each later call. -/
def Tracks (x : Traced γ) : Prop :=
  ∀ text, x.world.stateFile = some text → ∃ (r : Args) (rest : List Args)
    (s : Session) (t : ℚ), x.calls = r :: rest ∧
    text = s.encode r t ∧ s.iterations.length = rest.length

theorem recorded_encode {w : World γ} {r : Args} {t : ℚ} {s : Session}
    (h : w.stateFile = some (s.encode r t)) : w.recorded = s.iterations.length := by
  have hget : (s.encode r t).getItem "iterations" = .ok (.arr (s.iterations.map Iteration.encode)) :=
    rfl
  simp [World.recorded, World.state, h, hget]

/-- The step lemma: under the condition a call keeps the trace in step with the
state on disk, the traced calls uniform, and its promise. -/
theorem tracedStep_uniform {x : Traced γ} {c : InputCall γ} (hx : Tracks x ∧ Uniform x.calls)
    (hc : SameToolchain x c) :
    (Tracks (tracedStep x c) ∧ Uniform (tracedStep x c).calls) ∧ KeepsInputs x c := by
  obtain ⟨htrack, huni⟩ := hx
  cases hr : isReset c.call.env c.args x.world with
  | true =>
      refine ⟨⟨fun text htext => ?_, fun r rest heq a ha => ?_⟩, .inl hr⟩
      · rcases main_reset c.call.git c.call.env c.args x.world hr with hnone | ⟨g, b, hsome⟩
        · rw [tracedStep, callStep, hnone] at htext; cases htext
        · rw [tracedStep, callStep, hsome] at htext
          exact ⟨c.args, [], _, _, by simp [tracedStep, hr], (Option.some.inj htext).symm, rfl⟩
      · simp only [tracedStep, hr, if_true, List.cons.injEq] at heq
        rw [← heq.2] at ha
        cases ha
  | false =>
      cases hw : x.world.stateFile with
      | none =>
          have hsame := callStep_of_none hw hr
          have hcalls : tracedStep x c = x := by
            unfold tracedStep
            simp [hr, hsame]
          rw [hcalls]
          exact ⟨⟨htrack, huni⟩, .inr (.inr (by rw [hsame]))⟩
      | some text =>
          obtain ⟨r, rest, s, t, hcalls, rfl, hlen⟩ := htrack text hw
          have hadv := main_advance c.call.git c.call.env c.args r t s x.world hw hr
          -- a call that leaves the state on disk alone leaves the trace alone
          have idle (hfile : (callStep c.args x.world c.call).stateFile = x.world.stateFile) :
              (Tracks (tracedStep x c) ∧ Uniform (tracedStep x c).calls) ∧ KeepsInputs x c := by
            have hrec : (callStep c.args x.world c.call).recorded = x.world.recorded := by
              unfold World.recorded World.state
              rw [hfile]
            have hcalls' : (tracedStep x c).calls = x.calls := by
              simp [tracedStep, hr, hrec]
            refine ⟨⟨fun text htext => ?_, by rw [hcalls']; exact huni⟩, .inr (.inr hfile)⟩
            rw [hcalls']
            exact htrack text (hfile ▸ htext)
          generalize hres : main c.call.git c.call.env c.args x.world = res at hadv
          cases hadv with
          | unread e => exact idle (by rw [callStep, hres])
          | refused v e hask ho => exact idle (by rw [callStep, hres])
          | recorded v ans y hv hask hagree ho =>
              have hfile : (callStep c.args x.world c.call).stateFile =
                  some ((s.next c.args.maxSteps v ans).encode r c.call.env.now) := by
                rw [callStep, hres]
              have hrec : x.world.recorded < (callStep c.args x.world c.call).recorded := by
                rw [recorded_encode hw, recorded_encode hfile]
                simp
              have hcalls' : (tracedStep x c).calls = r :: (rest ++ [c.args]) := by
                simp [tracedStep, hr, hrec, hcalls]
              have hsame : r.sameInputs c.args := by
                rcases hc with hc | hc
                · rw [hr] at hc; cases hc
                · obtain ⟨hcomp, hflags⟩ := hc r (by simp [hcalls])
                  exact ⟨hagree, hcomp, hflags⟩
              refine ⟨⟨fun text htext => ?_, fun r' rest' heq a ha => ?_⟩,
                .inr (.inl ⟨r, by simp [hcalls], hsame⟩)⟩
              · refine ⟨r, _, _, _, hcalls', (Option.some.inj (hfile.symm.trans htext)).symm, ?_⟩
                simp [hlen]
              · rw [hcalls'] at heq
                simp only [List.cons.injEq] at heq
                obtain ⟨rfl, rfl⟩ := heq
                rcases List.mem_append.mp ha with ha | ha
                · exact huni r rest hcalls a ha
                · rw [List.mem_singleton.mp ha]
                  exact hsame

/-- In every run from a state without a bisect whose calls all start over or keep
the compiler and the make flags of the bisect they go on with: the iterations on
disk were all decided by calls with the inputs of the reset, one call for each,
and every call with other inputs starts over or records nothing. -/
theorem run_uniform {w₀ : World γ} (h₀ : w₀.stateFile = none) (cs : List (InputCall γ))
    (hcs : Along tracedStep SameToolchain ⟨w₀, []⟩ cs) :
    Tracks (run tracedStep ⟨w₀, []⟩ cs) ∧ Uniform (run tracedStep ⟨w₀, []⟩ cs).calls ∧
      Along tracedStep KeepsInputs ⟨w₀, []⟩ cs := by
  have hstart : Tracks (⟨w₀, []⟩ : Traced γ) ∧ Uniform ([] : List Args) :=
    ⟨fun text htext => by simp [h₀] at htext, fun r rest h => by cases h⟩
  have hstep : ∀ (x : Traced γ) (c : InputCall γ), (Tracks x ∧ Uniform x.calls) →
      SameToolchain x c → Tracks (tracedStep x c) ∧ Uniform (tracedStep x c).calls :=
    fun _ _ hx hc => (tracedStep_uniform hx hc).1
  obtain ⟨htrack, huni⟩ := run_inv_of hstep hstart hcs
  exact ⟨htrack, huni, along_of hstep (fun _ _ hx hc => (tracedStep_uniform hx hc).2) hstart hcs⟩

end

/-! ## A run that changes the compiler -/

/-- The plain bisect with another compiler. -/
def clangArgs : Args := { plainArgs with compiler := "clang" }

theorem run_uniform_plain :
    let x : Traced (List (String × String)) := ⟨⟨none, []⟩, []⟩
    let cs := [⟨plainCall 1 none, plainArgs⟩,
      ⟨plainCall 2 (some (statusReport "failed")), plainArgs⟩]
    Tracks (run tracedStep x cs) ∧ Uniform (run tracedStep x cs).calls ∧
      Along tracedStep KeepsInputs x cs :=
  run_uniform rfl _ ⟨.inl (by decide), .inr (fun r hr => by
    have h : r = plainArgs := by
      simpa [tracedStep, show isReset (plainCall 1 none).env plainArgs
        (⟨none, []⟩ : World (List (String × String))) = true by decide] using hr.symm
    rw [h]; exact ⟨rfl, rfl⟩), trivial⟩

/-- Going on with another compiler is not a reset: the iteration the second call
records was built with gcc and judged by a call for clang. -/
theorem inputs_mix :
    let x := run tracedStep (⟨⟨none, []⟩, []⟩ : Traced (List (String × String)))
      [⟨plainCall 1 none, plainArgs⟩,
        ⟨plainCall 2 (some (statusReport "failed")), clangArgs⟩]
    x.world.recorded = 1 ∧ x.calls = [plainArgs, clangArgs] ∧ ¬ Uniform x.calls := by
  have hcalls : (run tracedStep (⟨⟨none, []⟩, []⟩ : Traced (List (String × String)))
      [⟨plainCall 1 none, plainArgs⟩,
        ⟨plainCall 2 (some (statusReport "failed")), clangArgs⟩]).calls =
      [plainArgs, clangArgs] := by decide +kernel
  refine ⟨by decide +kernel, hcalls, fun h => ?_⟩
  have hsame := (h plainArgs [clangArgs] hcalls clangArgs (by simp)).compiler
  exact absurd hsame (by decide)

end KdevopsNg.Kernel
