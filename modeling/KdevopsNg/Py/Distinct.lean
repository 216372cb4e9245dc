/-
# `Py.Distinct` — the first element of each key

The loop that passes over an element whose key was seen.  What it keeps of two lists is what
it keeps of the first, and what it keeps of the second of the keys that are new
(`firsts_append`); of a list twice it keeps what it keeps of it once.
-/
import Mathlib.Data.Finset.Dedup
import Mathlib.Data.Finset.Card

namespace Py

variable {α κ : Type} [DecidableEq κ] (key : α → κ)

/-- The elements whose key is not in `seen` or that of one before. -/
def firsts (seen : List κ) : List α → List α
  | [] => []
  | x :: xs => if key x ∈ seen then firsts seen xs else x :: firsts (seen ++ [key x]) xs

/-- What was seen counts as a set. -/
theorem firsts_congr {seen seen' : List κ} (h : ∀ k, k ∈ seen ↔ k ∈ seen') (xs : List α) :
    firsts key seen xs = firsts key seen' xs := by
  induction xs generalizing seen seen' with
  | nil => rfl
  | cons x xs ih =>
      have hnext : ∀ k, k ∈ seen ++ [key x] ↔ k ∈ seen' ++ [key x] := by
        intro k
        rw [List.mem_append, List.mem_append, h]
      rw [firsts, firsts, ih h, ih hnext]
      exact if_congr (h _) rfl rfl

/-- With more seen, the elements of those keys are passed over. -/
theorem firsts_seen (seen more : List κ) (xs : List α) :
    firsts key (seen ++ more) xs = (firsts key seen xs).filter fun x => key x ∉ more := by
  induction xs generalizing seen with
  | nil => rfl
  | cons x xs ih =>
      rw [firsts, firsts]
      by_cases hseen : key x ∈ seen
      · rw [if_pos (List.mem_append_left more hseen), if_pos hseen, ih]
      · by_cases hmore : key x ∈ more
        · have hsame : ∀ k, k ∈ seen ++ more ↔ k ∈ (seen ++ [key x]) ++ more := by
            intro k
            simp only [List.mem_append, List.mem_singleton]
            constructor
            · rintro (h | h)
              · exact .inl (.inl h)
              · exact .inr h
            · rintro ((h | rfl) | h)
              · exact .inl h
              · exact .inr hmore
              · exact .inr h
          rw [if_pos (List.mem_append_right seen hmore), if_neg hseen,
            List.filter_cons_of_neg (by simpa using hmore), firsts_congr key hsame, ih]
        · have hnot : key x ∉ seen ++ more := by
            rw [List.mem_append, not_or]
            exact ⟨hseen, hmore⟩
          have hsame : ∀ k, k ∈ (seen ++ more) ++ [key x] ↔ k ∈ (seen ++ [key x]) ++ more := by
            intro k
            simp only [List.mem_append]
            exact or_right_comm
          rw [if_neg hnot, if_neg hseen, List.filter_cons_of_pos (by simpa using hmore),
            firsts_congr key hsame, ih]

theorem mem_keys_firsts (seen : List κ) (xs : List α) (k : κ) :
    k ∈ (firsts key seen xs).map key ↔ k ∉ seen ∧ k ∈ xs.map key := by
  induction xs generalizing seen with
  | nil => simp [firsts]
  | cons x xs ih =>
      rw [firsts, List.map_cons, List.mem_cons]
      split_ifs with hseen
      · rw [ih]
        refine and_congr_right fun hk => (or_iff_right ?_).symm
        rintro rfl
        exact hk hseen
      · rw [List.map_cons, List.mem_cons, ih, List.mem_append, List.mem_singleton, not_or]
        by_cases hk : k = key x
        · simp [hk, hseen]
        · simp [hk]

theorem nodup_firsts (seen : List κ) (xs : List α) : ((firsts key seen xs).map key).Nodup := by
  induction xs generalizing seen with
  | nil => exact List.nodup_nil
  | cons x xs ih =>
      rw [firsts]
      split_ifs with hseen
      · exact ih seen
      · rw [List.map_cons, List.nodup_cons]
        refine ⟨fun hmem => ?_, ih _⟩
        exact ((mem_keys_firsts key _ xs _).mp hmem).1 (by simp)

/-- The elements kept are of the list. -/
theorem firsts_subset (seen : List κ) (xs : List α) : firsts key seen xs ⊆ xs := by
  induction xs generalizing seen with
  | nil => exact List.Subset.refl []
  | cons x xs ih =>
      rw [firsts]
      split_ifs
      · exact fun y hy => List.mem_cons_of_mem x (ih seen hy)
      · exact List.cons_subset_cons x (ih _)

/-- What is kept of two lists. -/
theorem firsts_append (xs ys : List α) : firsts key [] (xs ++ ys) = firsts key [] xs ++
    (firsts key [] ys).filter fun y => key y ∉ (firsts key [] xs).map key := by
  have hsplit : ∀ seen : List κ, firsts key seen (xs ++ ys) = firsts key seen xs ++
      firsts key (seen ++ (firsts key seen xs).map key) ys := by
    induction xs with
    | nil => intro seen; simp [firsts]
    | cons x xs ih =>
        intro seen
        rw [List.cons_append, firsts, firsts]
        split_ifs
        · exact ih seen
        · rw [ih, List.cons_append, List.map_cons, List.append_assoc]
          rfl
  rw [hsplit [], firsts_seen]

/-- Of a list twice is kept what is kept of it once. -/
theorem firsts_twice (xs : List α) : firsts key [] (xs ++ xs) = firsts key [] xs := by
  rw [firsts_append, List.filter_eq_nil_iff.mpr, List.append_nil]
  intro x hx
  rw [decide_eq_true_iff, not_not]
  exact List.mem_map_of_mem hx

/-- As many are kept as there are keys. -/
theorem length_firsts (xs : List α) : (firsts key [] xs).length = (xs.map key).toFinset.card := by
  rw [← List.length_map (f := key), ← List.toFinset_card_of_nodup (nodup_firsts key [] xs)]
  congr 1
  ext k
  rw [List.mem_toFinset, List.mem_toFinset, mem_keys_firsts, and_iff_right List.not_mem_nil]

end Py
