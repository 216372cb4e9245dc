/-
# `Py.Sort` — sorting by a key

`sorted(xs, key=f)` and `xs.sort(key=f)`: a stable sort.  The one fact it rests on
is `pairwise_sortBy`: the elements come out pairwise in a relation exactly when the
key puts each pair in it,

    a before b in the list    R a b  if f a ≤ f b
                              R b a  if f b < f a

so a law about the order of the output is a condition on the input.  `sortBy_perm_iff`
is one such law: the output is the same for every order of the input exactly when
the keys are distinct.
-/
import Mathlib.Data.List.Nodup
import Mathlib.Data.List.Pairwise
import Mathlib.Data.Prod.Lex

namespace Py

/-- Sorting forgets the order of what it sorts, where it tells all apart. -/
theorem mergeSort_congr {α : Type*} {le : α → α → Bool}
    (trans : ∀ a b c, le a b = true → le b c = true → le a c = true)
    (total : ∀ a b, (le a b || le b a) = true) {xs ys : List α} (h : xs.Perm ys)
    (anti : ∀ a ∈ xs, ∀ b ∈ xs, le a b = true → le b a = true → a = b) :
    xs.mergeSort le = ys.mergeSort le := by
  have hperm : (xs.mergeSort le).Perm (ys.mergeSort le) :=
    (List.mergeSort_perm _ _).trans (h.trans (List.mergeSort_perm _ _).symm)
  have hsorted : ∀ zs : List α, (zs.mergeSort le).Pairwise fun a b => le a b = true :=
    List.pairwise_mergeSort trans total
  refine hperm.eq_of_pairwise (fun a b ha hb => ?_) (hsorted xs) (hsorted ys)
  exact anti a (List.mem_mergeSort.mp ha) b (h.mem_iff.mpr (List.mem_mergeSort.mp hb))

section
variable {α κ : Type*} [LinearOrder κ]

/-- `sorted(xs, key=f)`. -/
def sortBy (f : α → κ) (xs : List α) : List α := xs.mergeSort fun a b => decide (f a ≤ f b)

theorem sortBy_perm (f : α → κ) (xs : List α) : (sortBy f xs).Perm xs :=
  List.mergeSort_perm _ _

@[simp] theorem mem_sortBy {f : α → κ} {xs : List α} {a : α} : a ∈ sortBy f xs ↔ a ∈ xs :=
  (sortBy_perm f xs).mem_iff

theorem keyLe_trans (f : α → κ) (a b c : α) (hab : decide (f a ≤ f b) = true)
    (hbc : decide (f b ≤ f c) = true) : decide (f a ≤ f c) = true :=
  decide_eq_true ((of_decide_eq_true hab).trans (of_decide_eq_true hbc))

theorem keyLe_total (f : α → κ) (a b : α) : (decide (f a ≤ f b) || decide (f b ≤ f a)) = true := by
  rw [Bool.or_eq_true, decide_eq_true_eq, decide_eq_true_eq]
  exact le_total _ _

/-- One more element goes in front of those it is not above, behind the others. -/
theorem sortBy_cons (f : α → κ) (a : α) (xs : List α) :
    ∃ below above, sortBy f (a :: xs) = below ++ a :: above ∧ sortBy f xs = below ++ above ∧
      (∀ b ∈ below, f b < f a) ∧ ∀ b ∈ above, f a ≤ f b := by
  obtain ⟨below, above, hcons, hrest, hbelow⟩ := List.mergeSort_cons (keyLe_trans f) (keyLe_total f) a xs
  refine ⟨below, above, hcons, hrest, fun b hb => ?_, fun b hb => ?_⟩
  · have hnot := hbelow b hb
    rw [Bool.not_eq_true', decide_eq_false_iff_not] at hnot
    exact not_le.mp hnot
  · have hsorted := List.pairwise_mergeSort (keyLe_trans f) (keyLe_total f) (a :: xs)
    rw [hcons, List.pairwise_append, List.pairwise_cons] at hsorted
    exact of_decide_eq_true (hsorted.2.1.1 b hb)

/-- What a sorted list is, told of the list before. -/
theorem pairwise_sortBy (f : α → κ) (R : α → α → Prop) (xs : List α) :
    (sortBy f xs).Pairwise R ↔
      xs.Pairwise fun a b => (f a ≤ f b → R a b) ∧ (f b < f a → R b a) := by
  induction xs with
  | nil => simp [sortBy]
  | cons a xs ih =>
      obtain ⟨below, above, hcons, hrest, hbelow, habove⟩ := sortBy_cons f a xs
      have hmem : ∀ b, b ∈ xs ↔ b ∈ below ∨ b ∈ above := by
        intro b
        rw [← mem_sortBy (f := f), hrest, List.mem_append]
      have hhead : (∀ b ∈ xs, (f a ≤ f b → R a b) ∧ (f b < f a → R b a)) ↔
          (∀ b ∈ below, R b a) ∧ ∀ b ∈ above, R a b := by
        constructor
        · intro h
          refine ⟨fun b hb => ?_, fun b hb => ?_⟩
          · exact (h b ((hmem b).mpr (.inl hb))).2 (hbelow b hb)
          · exact (h b ((hmem b).mpr (.inr hb))).1 (habove b hb)
        · rintro ⟨hlow, hhigh⟩ b hb
          rcases (hmem b).mp hb with hb | hb
          · exact ⟨fun hle => absurd hle (not_le.mpr (hbelow b hb)), fun _ => hlow b hb⟩
          · exact ⟨fun _ => hhigh b hb, fun hlt => absurd (habove b hb) (not_le.mpr hlt)⟩
      rw [List.pairwise_cons, ← ih, hhead, hcons, hrest, List.pairwise_append, List.pairwise_cons,
        List.pairwise_append]
      simp only [List.mem_cons, forall_eq_or_imp]
      constructor
      · rintro ⟨hlow, ⟨hhigh, hup⟩, hcross⟩
        exact ⟨⟨fun b hb => (hcross b hb).1, hhigh⟩, hlow, hup, fun b hb => (hcross b hb).2⟩
      · rintro ⟨⟨hlowA, hhigh⟩, hlow, hup, hcross⟩
        exact ⟨hlow, ⟨hhigh, hup⟩, fun b hb => ⟨hlowA b hb, hcross b hb⟩⟩

/-- The keys of the output rise. -/
theorem sortBy_sorted (f : α → κ) (xs : List α) :
    (sortBy f xs).Pairwise fun a b => f a ≤ f b := by
  rw [pairwise_sortBy]
  exact List.pairwise_of_forall fun a b => ⟨id, le_of_lt⟩

/-- Distinct keys leave one order. -/
theorem sortBy_congr {f : α → κ} {xs ys : List α} (h : xs.Perm ys)
    (hinj : xs.Pairwise fun a b => f a ≠ f b) : sortBy f xs = sortBy f ys := by
  refine mergeSort_congr (keyLe_trans f) (keyLe_total f) h fun a ha b hb hab hba => ?_
  have heq : f a = f b := le_antisymm (of_decide_eq_true hab) (of_decide_eq_true hba)
  by_contra hne
  have : Std.Symm fun x y : α => f x ≠ f y := ⟨fun _ _ hxy => hxy.symm⟩
  exact hinj.forall ha hb hne heq

/-- The order of the input shows in the output exactly when two keys are equal. -/
theorem sortBy_perm_iff (f : α → κ) {xs : List α} (hnodup : xs.Nodup) :
    (∀ ys, ys.Perm xs → sortBy f ys = sortBy f xs) ↔ xs.Pairwise fun a b => f a ≠ f b := by
  constructor
  · intro h
    rw [List.pairwise_iff_forall_sublist]
    intro a b hab heq
    obtain ⟨rest, hrest⟩ := hab.exists_perm_append
    have hab' : (a :: b :: rest).Nodup := hrest.nodup_iff.mp hnodup
    have hswap : sortBy f (a :: b :: rest) = sortBy f (b :: a :: rest) :=
      (h _ hrest.symm).trans (h _ ((List.Perm.swap a b rest).trans hrest.symm)).symm
    -- a stable sort keeps `a` before `b`, where the keys are equal
    have hkept : (sortBy f (a :: b :: rest)).Pairwise fun x y => ¬ (x = b ∧ y = a) := by
      rw [pairwise_sortBy]
      rw [List.nodup_cons, List.nodup_cons] at hab'
      refine List.pairwise_cons.mpr ⟨fun y hy => ⟨?_, ?_⟩, ?_⟩
      · rintro - ⟨-, rfl⟩
        exact hab'.1 hy
      · rintro hlt ⟨rfl, -⟩
        exact absurd heq (ne_of_gt hlt)
      · refine List.Pairwise.imp_of_mem (R := fun _ _ => True) ?_ (List.pairwise_of_forall fun _ _ => trivial)
        intro x y hx hy _
        refine ⟨?_, ?_⟩
        · rintro - ⟨-, rfl⟩
          exact hab'.1 hy
        · rintro - ⟨-, rfl⟩
          exact hab'.1 hx
    rw [hswap, pairwise_sortBy] at hkept
    exact ((List.pairwise_cons.mp hkept).1 a List.mem_cons_self).1 heq.ge ⟨rfl, rfl⟩
  · intro h ys hys
    exact (sortBy_congr hys.symm h).symm

end

end Py
