/-
# `Py.Digits` — numbers in decimal

`str(n)` is a text of digits (`isDigit_toString`) that reads as `n` again
(`digitsToNat_toString`), so that a number is told by its text.  The digits of
ASCII are digits of every table that agrees with ASCII below 128.
-/
import KdevopsNg.Py.Text

namespace Py

variable {u : Unicode}

theorem Unicode.Ascii.digit?_of_isDigit (hu : u.Ascii) {c : Char} (h : c.isDigit = true) :
    u.digit? c = some (c.toNat - 48) := by
  have hlt : c.toNat < 128 := by
    have hle : c.val ≤ '9'.val := (Bool.and_eq_true _ _ ▸ h).2 |> of_decide_eq_true
    exact Nat.lt_of_le_of_lt (UInt32.le_iff_toNat_le.mp hle) (by decide)
  rw [(hu c hlt).1, Unicode.ascii]
  exact if_pos h

namespace Text

theorem isDigit_range {c : Char} (h : c.isDigit = true) : 0x30 ≤ c.toNat ∧ c.toNat ≤ 0x39 := by
  have hdigit : (decide (c.val ≥ '0'.val) && decide (c.val ≤ '9'.val)) = true := h
  obtain ⟨hlow, hhigh⟩ := (Bool.and_eq_true _ _).mp hdigit
  exact ⟨UInt32.le_iff_toNat_le.mp (of_decide_eq_true hlow),
    UInt32.le_iff_toNat_le.mp (of_decide_eq_true hhigh)⟩

/-- A digit is no white space. -/
theorem isSpace_of_isDigit {c : Char} (h : c.isDigit = true) : isSpace c = false := by
  obtain ⟨hlow, hhigh⟩ := isDigit_range h
  have hall : ∀ n : Fin 0x3a, 0x30 ≤ n.val → isSpace (Char.ofNat n) = false := by decide
  have hone := hall ⟨c.toNat, by omega⟩ hlow
  rwa [Char.ofNat_toNat] at hone

theorem isSome_digit? (hu : u.Ascii) {ds : List Char} (h : ∀ c ∈ ds, c.isDigit = true) :
    ∀ c ∈ ds, (u.digit? c).isSome = true := fun c hc => by
  rw [hu.digit?_of_isDigit (h c hc)]
  rfl

theorem digitsToNat_of_isDigit (hu : u.Ascii) {ds : List Char}
    (h : ∀ c ∈ ds, c.isDigit = true) : digitsToNat u ds = Nat.ofDigitChars 10 ds 0 := by
  have hmap : ds.filterMap u.digit? = ds.map fun c => c.toNat - 48 := by
    induction ds with
    | nil => rfl
    | cons c ds ih =>
        rw [List.filterMap_cons_some (hu.digit?_of_isDigit (h c List.mem_cons_self)),
          List.map_cons, ih fun x hx => h x (List.mem_cons_of_mem _ hx)]
  rw [digitsToNat, hmap, List.foldl_map]
  rfl

/-- The digits in front of something else. -/
theorem leadingDigits_append {ds rest : List Char} (h : ∀ c ∈ ds, (u.digit? c).isSome = true)
    (hstop : ∀ c, rest.head? = some c → u.digit? c = none) :
    leadingDigits u (ds ++ rest) = ds := by
  rw [leadingDigits, List.takeWhile_append_of_pos h]
  cases rest with
  | nil => rw [List.takeWhile_nil, List.append_nil]
  | cons c rest =>
      rw [List.takeWhile_cons_of_neg, List.append_nil]
      rw [hstop c rfl]
      exact Bool.false_ne_true

theorem leadingDigits_self {ds : List Char} (h : ∀ c ∈ ds, (u.digit? c).isSome = true) :
    leadingDigits u ds = ds := by
  have hnil : leadingDigits u (ds ++ []) = ds := leadingDigits_append h nofun
  rwa [List.append_nil] at hnil

/-- A text is the digits it begins with, and what follows them. -/
theorem digits_cases (u : Unicode) (cs : List Char) : ∃ ds rest, cs = ds ++ rest ∧
    (∀ c ∈ ds, (u.digit? c).isSome = true) ∧ ∀ c, rest.head? = some c → u.digit? c = none := by
  refine ⟨cs.takeWhile fun c => (u.digit? c).isSome, cs.dropWhile fun c => (u.digit? c).isSome,
    List.takeWhile_append_dropWhile.symm,
    fun c hc => List.mem_takeWhile_imp (p := fun c => (u.digit? c).isSome) hc, ?_⟩
  intro c hc
  have hnot := List.head?_dropWhile_not (fun c => (u.digit? c).isSome) cs
  rw [hc] at hnot
  exact Option.not_isSome_iff_eq_none.mp (Bool.eq_false_iff.mp hnot)

theorem toList_toString (n : ℕ) : (toString n).toList = Nat.toDigits 10 n := Nat.toList_repr

theorem isDigit_toString (n : ℕ) : ∀ c ∈ (toString n).toList, c.isDigit = true := by
  intro c hc
  rw [toList_toString] at hc
  exact Nat.isDigit_of_mem_toDigits (by decide) (by decide) hc

theorem toString_ne_nil (n : ℕ) : (toString n).toList ≠ [] := by
  rw [toList_toString]
  exact Nat.toDigits_ne_nil

theorem digitsToNat_toString (hu : u.Ascii) (n : ℕ) : digitsToNat u (toString n).toList = n := by
  rw [digitsToNat_of_isDigit hu (isDigit_toString n), toList_toString,
    Nat.ofDigitChars_ten_toDigits]

theorem leadingNat_toString (hu : u.Ascii) (n : ℕ) :
    leadingNat u (toString n).toList = some n := by
  have hne := toString_ne_nil n
  have hn := digitsToNat_toString hu n
  rw [leadingNat, leadingDigits_self (isSome_digit? hu (isDigit_toString n))]
  generalize (toString n).toList = ds at hne hn
  cases ds with
  | nil => exact absurd rfl hne
  | cons d ds => exact congrArg some hn

theorem toString_inj {m n : ℕ} (h : (toString m).toList = (toString n).toList) : m = n := by
  rw [toList_toString, toList_toString] at h
  rw [← Nat.ofDigitChars_ten_toDigits (n := m), h, Nat.ofDigitChars_ten_toDigits]

end Text

end Py
