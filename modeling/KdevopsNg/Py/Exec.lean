/-
# `Py.Exec` — computations that raise, over a state that survives the raise

`Exec σ α` is a Python function body: it reads and changes a state `σ` (files,
a repository, a service) and either returns an `α` or raises.  A raise stops
the body but undoes nothing, so the state is returned beside the exception and
not inside it:

    x : Exec σ α        x s = (.ok a, s')      returned a, left s'
                        x s = (.error e, s')   raised e, left s'

Two ways of reasoning about such a body are developed here.

* **Equations.**  `bind_ok`, `bind_error` run one statement; `bind_inv` takes a
  finished run apart at a `bind`, giving the intermediate state.
* **Relations.**  `Within R x` says that every run of `x`, raised or not, takes
  a state to an `R`-related one.  For a preorder `R` it is closed under every
  construct of the language (`within_pure`, `within_bind`, …), so a statement
  about a whole body reduces to one about each of its commands.
-/
import Mathlib.Data.List.Induction
import Mathlib.Order.Defs.Unbundled

namespace Py

/-- The exception classes the modelled code raises, with the message where the
code writes one. -/
inductive PyError where
  | keyError (key : String)
  | typeError
  | attributeError
  | overflowError
  | unicodeDecodeError
  | fileExistsError
  | notADirectoryError
  | valueError (message : String)
  | runtimeError (message : String)
  | fileNotFoundError (message : String)
  | calledProcessError (command : String)
  | reError
  | indexError
  deriving DecidableEq, Repr

/-- Two statements that only compute return when both do. -/
theorem except_bind_ok {α β : Type} {x : Except PyError α} {f : α → Except PyError β} {b : β} :
    (x >>= f) = .ok b ↔ ∃ a, x = .ok a ∧ f a = .ok b := by
  cases x <;> simp [bind, Except.bind]

theorem except_map_ok {α β : Type} {x : Except PyError α} {f : α → β} {b : β} :
    x.map f = .ok b ↔ ∃ a, x = .ok a ∧ f a = b := by
  cases x <;> simp [Except.map]

/-- A comprehension that only computes returns what each of its elements does. -/
theorem except_mapM_ok {α β : Type} {f : α → Except PyError β} {xs : List α} {ys : List β}
    (h : xs.mapM f = .ok ys) : List.Forall₂ (fun x y => f x = .ok y) xs ys := by
  induction xs generalizing ys with
  | nil =>
      cases h
      exact .nil
  | cons x xs ih =>
      rw [List.mapM_cons] at h
      obtain ⟨y, hy, hrest⟩ := except_bind_ok.mp h
      obtain ⟨zs, hzs, hret⟩ := except_bind_ok.mp hrest
      cases hret
      exact .cons hy (ih hzs)

/-- What a comprehension returns comes of its elements. -/
theorem except_mapM_mem {α β : Type} {f : α → Except PyError β} {xs : List α} {ys : List β}
    (h : xs.mapM f = .ok ys) {y : β} (hy : y ∈ ys) : ∃ x ∈ xs, f x = .ok y := by
  have hall := except_mapM_ok h
  clear h
  induction hall with
  | nil => cases hy
  | @cons x z xs zs hx hall ih =>
      rcases List.mem_cons.mp hy with rfl | hy
      · exact ⟨x, List.mem_cons_self, hx⟩
      · obtain ⟨x', hx', hrun⟩ := ih hy
        exact ⟨x', List.mem_cons_of_mem _ hx', hrun⟩

/-- Each element has what it comes to in what a comprehension returns. -/
theorem except_mapM_of_mem {α β : Type} {f : α → Except PyError β} {xs : List α} {ys : List β}
    (h : xs.mapM f = .ok ys) {x : α} (hx : x ∈ xs) : ∃ y ∈ ys, f x = .ok y := by
  have hall := except_mapM_ok h
  clear h
  induction hall with
  | nil => cases hx
  | @cons x' y xs ys hy hall ih =>
      rcases List.mem_cons.mp hx with rfl | hx
      · exact ⟨y, List.mem_cons_self, hy⟩
      · obtain ⟨y', hy', hrun⟩ := ih hx
        exact ⟨y', List.mem_cons_of_mem _ hy', hrun⟩

/-- A comprehension whose elements return does. -/
theorem except_mapM_returns {α β : Type} {f : α → Except PyError β} {xs : List α}
    (h : ∀ x ∈ xs, ∃ y, f x = .ok y) : ∃ ys, xs.mapM f = .ok ys := by
  induction xs with
  | nil => exact ⟨[], rfl⟩
  | cons x xs ih =>
      obtain ⟨y, hy⟩ := h x List.mem_cons_self
      obtain ⟨ys, hys⟩ := ih fun x hx => h x (List.mem_cons_of_mem _ hx)
      refine ⟨y :: ys, ?_⟩
      rw [List.mapM_cons, hy, hys]
      rfl

/-- A computation over the state `σ` that returns an `α` or raises; the state
changes made before a raise stay. -/
def Exec (σ α : Type) : Type := σ → Except PyError α × σ

namespace Exec

variable {σ α β : Type}

/-- The body that returns `a`. -/
def ret (a : α) : Exec σ α := fun s => (.ok a, s)

/-- The body that raises `e`. -/
def raise (e : PyError) : Exec σ α := fun s => (.error e, s)

/-- Run `x`, then `f` on what it returned; a raise of `x` skips `f`. -/
def andThen (x : Exec σ α) (f : α → Exec σ β) : Exec σ β := fun s =>
  match x s with
  | (.ok a, s') => f a s'
  | (.error e, s') => (.error e, s')

instance : Monad (Exec σ) where
  pure := ret
  bind := andThen

/-- Read the state. -/
def get : Exec σ σ := fun s => (.ok s, s)

/-- Read part of the state. -/
def look (read : σ → α) : Exec σ α := fun s => (.ok (read s), s)

/-- Change the state. -/
def modify (f : σ → σ) : Exec σ Unit := fun s => (.ok (), f s)

/-- A body that only computes: it reads no state, and may raise. -/
def lift (x : Except PyError α) : Exec σ α := fun s => (x, s)

/-! ## Equations -/

@[simp] theorem pure_apply (a : α) (s : σ) : (pure a : Exec σ α) s = (.ok a, s) := rfl

@[simp] theorem raise_apply (e : PyError) (s : σ) :
    (raise e : Exec σ α) s = (.error e, s) := rfl

@[simp] theorem get_apply (s : σ) : (get : Exec σ σ) s = (.ok s, s) := rfl

@[simp] theorem look_bind (read : σ → α) (f : α → Exec σ β) (s : σ) :
    (look read >>= f) s = f (read s) s := rfl

@[simp] theorem modify_bind (g : σ → σ) (f : Unit → Exec σ β) (s : σ) :
    (modify g >>= f) s = f () (g s) := rfl

@[simp] theorem modify_apply (f : σ → σ) (s : σ) : modify f s = (.ok (), f s) := rfl

@[simp] theorem lift_apply (x : Except PyError α) (s : σ) :
    (lift x : Exec σ α) s = (x, s) := rfl

theorem bind_apply (x : Exec σ α) (f : α → Exec σ β) (s : σ) :
    (x >>= f) s = match x s with
      | (.ok a, s') => f a s'
      | (.error e, s') => (.error e, s') := rfl

theorem bind_ok {x : Exec σ α} {s s' : σ} {a : α} (f : α → Exec σ β)
    (h : x s = (.ok a, s')) : (x >>= f) s = f a s' := by
  rw [bind_apply, h]

theorem bind_error {x : Exec σ α} {s s' : σ} {e : PyError} (f : α → Exec σ β)
    (h : x s = (.error e, s')) : (x >>= f) s = (.error e, s') := by
  rw [bind_apply, h]

@[simp] theorem lift_ok_bind (a : α) (f : α → Exec σ β) :
    ((lift (.ok a) : Exec σ α) >>= f) = f a := rfl

@[simp] theorem lift_error_bind (e : PyError) (f : α → Exec σ β) :
    ((lift (.error e) : Exec σ α) >>= f) = raise e := rfl

@[simp] theorem raise_bind (e : PyError) (f : α → Exec σ β) :
    ((raise e : Exec σ α) >>= f) = raise e := rfl

@[simp] theorem pure_bind' (a : α) (f : α → Exec σ β) : ((pure a : Exec σ α) >>= f) = f a := rfl

/-- Two bodies that run alike from a state run alike there with the same rest. -/
theorem bind_congr_at {x y : Exec σ α} {s : σ} (f : α → Exec σ β) (h : x s = y s) :
    (x >>= f) s = (y >>= f) s := by
  rw [bind_apply, bind_apply, h]

theorem bind_assoc' {δ : Type} (x : Exec σ α) (f : α → Exec σ β) (g : β → Exec σ δ) :
    ((x >>= f) >>= g) = (x >>= fun a => f a >>= g) := by
  funext s
  simp only [bind_apply]
  rcases x s with ⟨_ | _, _⟩ <;> rfl

/-- Computing on a result changes no state, whether or not it raises. -/
theorem bind_lift_snd (x : Exec σ α) (f : α → Except PyError β) (s : σ) :
    ((x >>= fun a => lift (f a)) s).2 = (x s).2 := by
  rw [bind_apply]
  rcases x s with ⟨_ | _, _⟩ <;> rfl

/-- A finished run of `x >>= f` either ran both, or stopped at a raise of `x`. -/
theorem bind_inv {x : Exec σ α} {f : α → Exec σ β} {s t : σ} {r : Except PyError β}
    (h : (x >>= f) s = (r, t)) :
    (∃ a u, x s = (.ok a, u) ∧ f a u = (r, t)) ∨
    (∃ e, x s = (.error e, t) ∧ r = .error e) := by
  rw [bind_apply] at h
  rcases hx : x s with ⟨a | a, u⟩
  · rw [hx] at h
    cases h
    exact Or.inr ⟨a, rfl, rfl⟩
  · rw [hx] at h
    exact Or.inl ⟨a, u, rfl, h⟩

/-- A run of `x >>= f` that returned ran both. -/
theorem bind_ok_inv {x : Exec σ α} {f : α → Exec σ β} {s t : σ} {b : β}
    (h : (x >>= f) s = (.ok b, t)) :
    ∃ a u, x s = (.ok a, u) ∧ f a u = (.ok b, t) := by
  rcases bind_inv h with h | ⟨e, -, hr⟩
  · exact h
  · cases hr

/-- A loop over two lists is the loop over one, then over the other. -/
theorem foldlM_append' (body : β → α → Exec σ β) (xs ys : List α) (b : β) :
    (xs ++ ys).foldlM body b = (xs.foldlM body b >>= fun b' => ys.foldlM body b') := by
  induction xs generalizing b with
  | nil => rfl
  | cons x xs ih =>
      rw [List.cons_append, List.foldlM_cons, List.foldlM_cons, bind_assoc']
      exact congrArg _ (funext ih)

/-- A loop that returned, from a state with an invariant, leaves what each round
leaves, where no round undoes it. -/
theorem foldlM_each_inv {body : β → α → Exec σ β} {I : σ → Prop} {P : α → σ → Prop} {xs : List α}
    (hinv : ∀ b s, ∀ x ∈ xs, I s → I (body b x s).2)
    (hround : ∀ b s b' s', ∀ x ∈ xs, I s → body b x s = (.ok b', s') → P x s')
    (hkeep : ∀ b s, ∀ x ∈ xs, ∀ y ∈ xs, I s → P x s → P x (body b y s).2)
    {b b' : β} {s s' : σ} (hs : I s) (h : xs.foldlM body b s = (.ok b', s')) :
    I s' ∧ ∀ x ∈ xs, P x s' := by
  induction xs using List.reverseRecOn generalizing b' s' with
  | nil =>
      cases h
      exact ⟨hs, fun x hx => absurd hx List.not_mem_nil⟩
  | append_singleton xs y ih =>
      have hleft : ∀ {x}, x ∈ xs → x ∈ xs ++ [y] := fun hx => List.mem_append_left _ hx
      have hlast : y ∈ xs ++ [y] := List.mem_append_right _ List.mem_cons_self
      rw [foldlM_append'] at h
      obtain ⟨c, u, hxs, hy⟩ := bind_ok_inv h
      rw [List.foldlM_cons] at hy
      obtain ⟨c', u', hrun, hnil⟩ := bind_ok_inv hy
      cases hnil
      obtain ⟨hu, hdone⟩ := ih (fun b s x hx => hinv b s x (hleft hx))
        (fun b s b' s' x hx => hround b s b' s' x (hleft hx))
        (fun b s x hx z hz => hkeep b s x (hleft hx) z (hleft hz)) hxs
      refine ⟨?_, fun x hx => ?_⟩
      · have hstays := hinv c u y hlast hu
        rw [hrun] at hstays
        exact hstays
      · rcases List.mem_append.mp hx with hx' | hx'
        · have hstays := hkeep c u x hx y hlast hu (hdone x hx')
          rw [hrun] at hstays
          exact hstays
        · rw [List.mem_singleton.mp hx']
          exact hround c u _ _ y hlast hu hrun

/-- A loop that returned leaves what each round leaves, where no round undoes it. -/
theorem foldlM_each {body : β → α → Exec σ β} {P : α → σ → Prop}
    (hround : ∀ b x s b' s', body b x s = (.ok b', s') → P x s')
    (hkeep : ∀ b x y s, P x s → P x (body b y s).2) {xs : List α} {b b' : β} {s s' : σ}
    (h : xs.foldlM body b s = (.ok b', s')) : ∀ x ∈ xs, P x s' :=
  (foldlM_each_inv (I := fun _ => True) (fun _ _ _ _ _ => trivial)
    (fun b s b' s' x _ _ => hround b x s b' s') (fun b s x _ y _ _ => hkeep b x y s) trivial h).2

/-- A loop that returned, from a state with an invariant, leaves what each round that returns
leaves, where none undoes that of another element. -/
theorem foldlM_each_inv_ok {body : β → α → Exec σ β} {I : σ → Prop} {P : α → σ → Prop} {xs : List α}
    (hround : ∀ b s b' s', ∀ x ∈ xs, I s → body b x s = (.ok b', s') → I s' ∧ P x s')
    (hkeep : ∀ b s b' s', ∀ x ∈ xs, ∀ y ∈ xs, x ≠ y → P x s → body b y s = (.ok b', s') → P x s')
    {b b' : β} {s s' : σ} (hs : I s) (h : xs.foldlM body b s = (.ok b', s')) :
    I s' ∧ ∀ x ∈ xs, P x s' := by
  induction xs using List.reverseRecOn generalizing b' s' with
  | nil =>
      cases h
      exact ⟨hs, fun x hx => absurd hx List.not_mem_nil⟩
  | append_singleton xs y ih =>
      have hleft : ∀ {x}, x ∈ xs → x ∈ xs ++ [y] := fun hx => List.mem_append_left _ hx
      have hlast : y ∈ xs ++ [y] := List.mem_append_right _ List.mem_cons_self
      rw [foldlM_append'] at h
      obtain ⟨c, u, hxs, hy⟩ := bind_ok_inv h
      rw [List.foldlM_cons] at hy
      obtain ⟨c', u', hrun, hnil⟩ := bind_ok_inv hy
      cases hnil
      obtain ⟨hu, hdone⟩ := ih (fun b s b' s' x hx => hround b s b' s' x (hleft hx))
        (fun b s b' s' x hx z hz => hkeep b s b' s' x (hleft hx) z (hleft hz)) hxs
      obtain ⟨hinv, hy⟩ := hround c u _ _ y hlast hu hrun
      refine ⟨hinv, fun x hx => ?_⟩
      by_cases hxy : x = y
      · rw [hxy]
        exact hy
      · have hmem : x ∈ xs := (List.mem_append.mp hx).resolve_right fun hy' =>
          hxy (List.mem_singleton.mp hy')
        exact hkeep c u _ _ x hx y hlast hxy (hdone x hmem) hrun

/-- A loop that returned keeps what each round that returns keeps. -/
theorem foldlM_inv_ok {body : β → α → Exec σ β} {I : σ → Prop} {xs : List α}
    (hround : ∀ b s b' s', ∀ x ∈ xs, I s → body b x s = (.ok b', s') → I s') {b b' : β} {s s' : σ}
    (hs : I s) (h : xs.foldlM body b s = (.ok b', s')) : I s' :=
  (foldlM_each_inv_ok (P := fun _ _ => True)
    (fun b s b' s' x hx hI hrun => ⟨hround b s b' s' x hx hI hrun, trivial⟩)
    (fun _ _ _ _ _ _ _ _ _ _ _ => trivial) hs h).1

/-- A loop that returned leaves what each round leaves, where no round that returns undoes
that of another element. -/
theorem foldlM_each_ok {body : β → α → Exec σ β} {P : α → σ → Prop} {xs : List α}
    (hround : ∀ b s b' s', ∀ x ∈ xs, body b x s = (.ok b', s') → P x s')
    (hkeep : ∀ b s b' s', ∀ x ∈ xs, ∀ y ∈ xs, x ≠ y → P x s → body b y s = (.ok b', s') → P x s')
    {b b' : β} {s s' : σ} (h : xs.foldlM body b s = (.ok b', s')) : ∀ x ∈ xs, P x s' :=
  (foldlM_each_inv_ok (I := fun _ => True)
    (fun b s b' s' x hx _ hrun => ⟨trivial, hround b s b' s' x hx hrun⟩) hkeep trivial h).2

/-! ## Relations between the state before and the state after -/

/-- Every run of `x`, whether it returns or raises, takes a state to an
`R`-related one. -/
def Within (R : σ → σ → Prop) (x : Exec σ α) : Prop := ∀ s, R s (x s).2

section Within
variable {R : σ → σ → Prop}

theorem within_pure [Std.Refl R] (a : α) : Within R (pure a : Exec σ α) :=
  fun s => Std.Refl.refl s

theorem within_raise [Std.Refl R] (e : PyError) : Within R (raise e : Exec σ α) :=
  fun s => Std.Refl.refl s

theorem within_lift [Std.Refl R] (x : Except PyError α) : Within R (lift x : Exec σ α) :=
  fun s => Std.Refl.refl s

theorem within_get [Std.Refl R] : Within R (get : Exec σ σ) :=
  fun s => Std.Refl.refl s

theorem within_bind [IsTrans σ R] {x : Exec σ α} {f : α → Exec σ β}
    (hx : Within R x) (hf : ∀ a, Within R (f a)) : Within R (x >>= f) := by
  intro s
  have h := hx s
  rw [bind_apply]
  rcases hs : x s with ⟨a | a, u⟩
  · rw [hs] at h; exact h
  · rw [hs] at h; exact IsTrans.trans _ _ _ h (hf a u)

theorem within_ite {c : Prop} [Decidable c] {x y : Exec σ α}
    (hx : c → Within R x) (hy : ¬ c → Within R y) : Within R (if c then x else y) := by
  by_cases h : c
  · rw [if_pos h]; exact hx h
  · rw [if_neg h]; exact hy h

/-- A loop that carries a value keeps what each round keeps. -/
theorem within_foldlM [Std.Refl R] [IsTrans σ R] {body : β → α → Exec σ β} {xs : List α}
    (h : ∀ b, ∀ x ∈ xs, Within R (body b x)) (b : β) : Within R (xs.foldlM body b) := by
  induction xs generalizing b with
  | nil => exact within_pure b
  | cons x xs ih =>
      rw [List.foldlM_cons]
      exact within_bind (h b x List.mem_cons_self) fun b' =>
        ih (fun b'' y hy => h b'' y (List.mem_cons_of_mem x hy)) b'

end Within

/-! ## Bodies that always return -/

/-- No run of `x` raises. -/
def Returns (x : Exec σ α) : Prop := ∀ s, ∃ a s', x s = (.ok a, s')

theorem returns_pure (a : α) : Returns (pure a : Exec σ α) := fun s => ⟨a, s, rfl⟩

theorem returns_get : Returns (get : Exec σ σ) := fun s => ⟨s, s, rfl⟩

theorem returns_bind {x : Exec σ α} {f : α → Exec σ β} (hx : Returns x) (hf : ∀ a, Returns (f a)) :
    Returns (x >>= f) := by
  intro s
  obtain ⟨a, s', h⟩ := hx s
  rw [bind_ok f h]
  exact hf a s'

theorem returns_ite {c : Prop} [Decidable c] {x y : Exec σ α} (hx : Returns x) (hy : Returns y) :
    Returns (if c then x else y) := by
  split
  · exact hx
  · exact hy

theorem returns_foldlM {body : β → α → Exec σ β} (h : ∀ b x, Returns (body b x)) (xs : List α)
    (b : β) : Returns (xs.foldlM body b) := by
  induction xs generalizing b with
  | nil => exact returns_pure b
  | cons x xs ih =>
      rw [List.foldlM_cons]
      exact returns_bind (h b x) ih

/-! ## Pre- and postconditions -/

/-- From a state with `P` a body returns into `Q`, or raises into `E`. -/
def Triple (P : σ → Prop) (x : Exec σ α) (Q : α → σ → Prop) (E : σ → Prop) : Prop :=
  ∀ s, P s → match x s with
    | (.ok a, s') => Q a s'
    | (.error _, s') => E s'

section Triple
variable {P : σ → Prop} {E : σ → Prop}

theorem Triple.of_ok {x : Exec σ α} {Q : α → σ → Prop} (h : Triple P x Q E) {s s' : σ} {a : α}
    (hs : P s) (hx : x s = (.ok a, s')) : Q a s' := by
  have hpost := h s hs
  rw [hx] at hpost
  exact hpost

theorem Triple.of_error {x : Exec σ α} {Q : α → σ → Prop} (h : Triple P x Q E) {s s' : σ}
    {e : PyError} (hs : P s) (hx : x s = (.error e, s')) : E s' := by
  have hpost := h s hs
  rw [hx] at hpost
  exact hpost

theorem Triple.weaken {P' : σ → Prop} {x : Exec σ α} {Q Q' : α → σ → Prop} {E' : σ → Prop}
    (h : Triple P x Q E) (hP : ∀ s, P' s → P s) (hQ : ∀ a s, Q a s → Q' a s)
    (hE : ∀ s, E s → E' s) : Triple P' x Q' E' := by
  intro s hs
  have hpost := h s (hP s hs)
  rcases hx : x s with ⟨e | a, s'⟩
  · exact hE s' (h.of_error (hP s hs) hx)
  · exact hQ a s' (h.of_ok (hP s hs) hx)

theorem triple_pure {Q : α → σ → Prop} {a : α} (h : ∀ s, P s → Q a s) :
    Triple P (pure a : Exec σ α) Q E := h

theorem triple_raise {Q : α → σ → Prop} {e : PyError} (h : ∀ s, P s → E s) :
    Triple P (raise e : Exec σ α) Q E := h

theorem triple_lift {Q : α → σ → Prop} {x : Except PyError α} (hQ : ∀ a s, P s → Q a s)
    (hE : ∀ s, P s → E s) : Triple P (lift x) Q E := by
  intro s hs
  cases x with
  | ok a => exact hQ a s hs
  | error e => exact hE s hs

theorem triple_look {Q : α → σ → Prop} {read : σ → α} (h : ∀ s, P s → Q (read s) s) :
    Triple P (look read) Q E := h

theorem triple_modify {Q : Unit → σ → Prop} {f : σ → σ} (h : ∀ s, P s → Q () (f s)) :
    Triple P (modify f) Q E := h

theorem triple_bind {x : Exec σ α} {f : α → Exec σ β} {M : α → σ → Prop} {Q : β → σ → Prop}
    (hx : Triple P x M E) (hf : ∀ a, Triple (M a) (f a) Q E) : Triple P (x >>= f) Q E := by
  intro s hs
  rw [bind_apply]
  rcases hrun : x s with ⟨e | a, s'⟩
  · exact hx.of_error hs hrun
  · exact hf a s' (hx.of_ok hs hrun)

theorem triple_ite {c : Prop} [Decidable c] {x y : Exec σ α} {Q : α → σ → Prop}
    (hx : c → Triple P x Q E) (hy : ¬ c → Triple P y Q E) :
    Triple P (if c then x else y) Q E := by
  by_cases h : c
  · rw [if_pos h]
    exact hx h
  · rw [if_neg h]
    exact hy h

/-- A loop keeps what each of its rounds keeps. -/
theorem triple_foldlM {body : β → α → Exec σ β} {xs : List α}
    (h : ∀ b, ∀ x ∈ xs, Triple P (body b x) (fun _ => P) P) (b : β) :
    Triple P (xs.foldlM body b) (fun _ => P) P := by
  induction xs generalizing b with
  | nil => exact triple_pure fun _ hs => hs
  | cons x xs ih =>
      rw [List.foldlM_cons]
      exact triple_bind (h b x List.mem_cons_self)
        fun b' => ih (fun b y hy => h b y (List.mem_cons_of_mem _ hy)) b'

end Triple

end Exec

end Py
