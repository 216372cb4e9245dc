/-
# `Py.Number` — rounding and the median, on exact rationals

`round(x, n)` rounds half to even; `statistics.median` is the middle of the
sorted sample, or the mean of the two middles.  A `Number` is a float, with the
two infinities and NaN: what a text can read as, and `round` refuses.
-/
import Mathlib.Data.Rat.Floor
import Mathlib.Data.List.Sort
import KdevopsNg.Py.Exec

namespace Py

/-- The nearest integer, the even one of two equally near. -/
def roundHalfEven (q : ℚ) : ℤ :=
  if q - ⌊q⌋ < 1 / 2 then ⌊q⌋
  else if 1 / 2 < q - ⌊q⌋ then ⌊q⌋ + 1
  else if ⌊q⌋ % 2 = 0 then ⌊q⌋ else ⌊q⌋ + 1

/-- `round(q, digits)`. -/
def roundTo (digits : ℕ) (q : ℚ) : ℚ := roundHalfEven (q * 10 ^ digits) / 10 ^ digits

/-- `statistics.median`, of a sample that is not empty. -/
def median (xs : List ℚ) : ℚ :=
  let ys := xs.insertionSort (· ≤ ·)
  let mid := ys.length / 2
  if ys.length % 2 = 1 then ys.getD mid 0 else (ys.getD (mid - 1) 0 + ys.getD mid 0) / 2

/-- A float: a number, an infinity, or not a number. -/
inductive Number where
  | finite (q : ℚ)
  | infinity (negative : Bool)
  | nan
  deriving DecidableEq, Repr

namespace Number

/-- `x + y`. -/
def add : Number → Number → Number
  | finite p, finite q => finite (p + q)
  | finite _, y => y
  | x, finite _ => x
  | infinity a, infinity b => if a = b then infinity a else nan
  | _, _ => nan

/-- `x` is a number. -/
def isFinite : Number → Bool
  | finite _ => true
  | _ => false

/-- `round(x)`. -/
def round : Number → Except PyError ℤ
  | finite q => .ok (roundHalfEven q)
  | infinity _ => .error .overflowError
  | nan => .error (.valueError "cannot convert float NaN to integer")

@[simp] theorem isFinite_add (x y : Number) :
    (add x y).isFinite = (x.isFinite && y.isFinite) := by
  cases x with
  | finite p => cases y <;> rfl
  | nan => cases y <;> rfl
  | infinity a =>
      cases y with
      | infinity b => cases a <;> cases b <;> rfl
      | _ => rfl

/-- Only a number rounds. -/
theorem round_returns_iff (x : Number) : (∃ n, round x = .ok n) ↔ x.isFinite = true := by
  cases x with
  | finite q => exact ⟨fun _ => rfl, fun _ => ⟨_, rfl⟩⟩
  | infinity a =>
      constructor
      · rintro ⟨n, hn⟩
        cases hn
      · intro h
        cases h
  | nan =>
      constructor
      · rintro ⟨n, hn⟩
        cases hn
      · intro h
        cases h

end Number

end Py
