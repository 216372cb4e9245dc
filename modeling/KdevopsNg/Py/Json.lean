/-
# `Py.Json` — JSON values as Python reads them

What `json.loads` returns, with the Python operations on it: truth (`truthy`),
`==` (`eq`), `v[k]`, `v.get(k, d)`, `v[k] = x`, iteration, `int(v)`.  An
operation raises where Python's does, so a function written over `Json` has the
source's error paths, a value of the wrong shape included.

Two things are simplified.  A number is an exact rational: there is no rounding,
and the non-finite floats `json` also accepts are left out.  What `int` and
`float` make of a *string* is not spelled out here; they take the reader as an
argument, so a result about them holds of any reader.

Equality is Python's, not Lean's: two dictionaries are equal whatever the order
of their keys, and `True == 1`.
-/
import Mathlib.Data.Rat.Floor
import KdevopsNg.Py.Dict
import KdevopsNg.Py.Exec

namespace Py

/-- A value `json.loads` can return. -/
inductive Json where
  | null
  | bool (b : Bool)
  | num (q : ℚ)
  | str (s : String)
  | arr (xs : List Json)
  | obj (kvs : List (String × Json))

namespace Json

instance : Inhabited Json := ⟨null⟩

/-! ## Truth and equality -/

/-- `bool(v)`. -/
def truthy : Json → Bool
  | null => false
  | bool b => b
  | num q => decide (q ≠ 0)
  | str s => decide (s ≠ "")
  | arr xs => !xs.isEmpty
  | obj kvs => !kvs.isEmpty

/-- `v or w`. -/
def orElse (v w : Json) : Json := if v.truthy then v else w

mutual
/-- `v == w`. -/
def eq : Json → Json → Bool
  | null, null => true
  | bool a, bool b => a == b
  | bool a, num q => decide ((if a then 1 else 0) = q)
  | num q, bool a => decide (q = (if a then 1 else 0))
  | num p, num q => decide (p = q)
  | str a, str b => decide (a = b)
  | arr xs, arr ys => eqList xs ys
  | obj xs, obj ys => xs.length == ys.length && eqObj xs ys
  | _, _ => false
/-- Equality of two lists, element by element. -/
def eqList : List Json → List Json → Bool
  | [], [] => true
  | x :: xs, y :: ys => eq x y && eqList xs ys
  | _, _ => false
/-- Every pair of the first dictionary is in the second. -/
def eqObj : List (String × Json) → List (String × Json) → Bool
  | [], _ => true
  | (k, v) :: xs, ys =>
      (match Dict.get? ys k with
        | some w => eq v w
        | none => false) && eqObj xs ys
end

mutual
/-- The same value, key order and number type included. -/
def same : Json → Json → Bool
  | null, null => true
  | bool a, bool b => a == b
  | num p, num q => decide (p = q)
  | str a, str b => decide (a = b)
  | arr xs, arr ys => sameList xs ys
  | obj xs, obj ys => sameObj xs ys
  | _, _ => false
/-- `same` of two lists. -/
def sameList : List Json → List Json → Bool
  | [], [] => true
  | x :: xs, y :: ys => same x y && sameList xs ys
  | _, _ => false
/-- `same` of two dictionaries. -/
def sameObj : List (String × Json) → List (String × Json) → Bool
  | [], [] => true
  | (k, v) :: xs, (l, w) :: ys => decide (k = l) && same v w && sameObj xs ys
  | _, _ => false
end

mutual
theorem same_iff (v w : Json) : same v w = true ↔ v = w := by
  cases v with
  | null => cases w <;> simp [same]
  | bool a => cases w <;> simp [same]
  | num q => cases w <;> simp [same]
  | str s => cases w <;> simp [same]
  | arr xs =>
      cases w with
      | arr ys => simp only [same, sameList_iff xs ys, arr.injEq]
      | _ => simp [same]
  | obj xs =>
      cases w with
      | obj ys => simp only [same, sameObj_iff xs ys, obj.injEq]
      | _ => simp [same]
theorem sameList_iff (xs ys : List Json) : sameList xs ys = true ↔ xs = ys := by
  cases xs with
  | nil => cases ys <;> simp [sameList]
  | cons x xs =>
      cases ys with
      | nil => simp [sameList]
      | cons y ys => simp [sameList, same_iff x y, sameList_iff xs ys]
theorem sameObj_iff (xs ys : List (String × Json)) : sameObj xs ys = true ↔ xs = ys := by
  cases xs with
  | nil => cases ys <;> simp [sameObj]
  | cons x xs =>
      obtain ⟨k, v⟩ := x
      cases ys with
      | nil => simp [sameObj]
      | cons y ys =>
          obtain ⟨l, w⟩ := y
          simp [sameObj, same_iff v w, sameObj_iff xs ys, and_assoc]
end

instance : DecidableEq Json := fun v w => decidable_of_iff _ (same_iff v w)

/-- `v` is `None`: the test `is None`. -/
def isNull : Json → Bool
  | null => true
  | _ => false

/-! ## Dictionaries -/

/-- The pairs of a dictionary, `none` for any other value. -/
def toDict? : Json → Option (Dict Json)
  | obj kvs => some kvs
  | _ => none

/-- `v[k]`. -/
def getItem (v : Json) (k : String) : Except PyError Json :=
  match v with
  | obj kvs =>
      match Dict.get? kvs k with
      | some w => .ok w
      | none => .error (.keyError k)
  | _ => .error .typeError

/-- `v.get(k, d)`. -/
def getD (v : Json) (k : String) (d : Json) : Except PyError Json :=
  match v with
  | obj kvs => .ok ((Dict.get? kvs k).getD d)
  | _ => .error .attributeError

/-- `v[k] = w`, as the value of `v` afterwards. -/
def setItem (v : Json) (k : String) (w : Json) : Except PyError Json :=
  match v with
  | obj kvs => .ok (obj (Dict.set kvs k w))
  | _ => .error .typeError

/-- `{**v, **e}` with `v` any value: it must be a dictionary. -/
def spread (v : Json) (e : Dict Json) : Except PyError Json :=
  match v with
  | obj kvs => .ok (obj (Dict.merge kvs e))
  | _ => .error .typeError

/-! ## Lists and scalars -/

/-- `[*v]`: the elements of a list, the keys of a dictionary, the characters of
a string. -/
def iter : Json → Except PyError (List Json)
  | arr xs => .ok xs
  | obj kvs => .ok (kvs.map fun p => str p.1)
  | str s => .ok (s.toList.map fun c => str (String.ofList [c]))
  | _ => .error .typeError

/-- `v` can be a dictionary key. -/
def hashable : Json → Bool
  | arr _ | obj _ => false
  | _ => true

/-- `list(dict.fromkeys(xs))`: the first of every run of equal elements; an
element that cannot be hashed raises. -/
def fromKeys (xs : List Json) : Except PyError (List Json) :=
  if xs.all hashable then
    .ok (xs.foldl (fun acc x => if acc.any (eq x) then acc else acc ++ [x]) [])
  else .error .typeError

/-- `v.append(w)`, as the value of `v` afterwards. -/
def append (v w : Json) : Except PyError Json :=
  match v with
  | arr xs => .ok (arr (xs ++ [w]))
  | _ => .error .attributeError

/-- `int(q)`: rounding towards zero. -/
def truncate (q : ℚ) : ℤ := if 0 ≤ q then ⌊q⌋ else ⌈q⌉

/-- `int(v)`, where `read` is what `int` makes of a string. -/
def toInt (read : String → Option ℤ) : Json → Except PyError ℤ
  | bool b => .ok (if b then 1 else 0)
  | num q => .ok (truncate q)
  | str s =>
      match read s with
      | some n => .ok n
      | none => .error (.valueError "invalid literal for int()")
  | _ => .error .typeError

/-- `float(v)`, where `read` is what `float` makes of a string. -/
def toFloat (read : String → Option ℚ) : Json → Except PyError ℚ
  | bool b => .ok (if b then 1 else 0)
  | num q => .ok q
  | str s =>
      match read s with
      | some q => .ok q
      | none => .error (.valueError "could not convert string to float")
  | _ => .error .typeError

/-! ## What the operations do on a value of the right shape -/

@[simp] theorem getItem_obj (kvs : List (String × Json)) (k : String) :
    (obj kvs).getItem k = match Dict.get? kvs k with
      | some w => .ok w
      | none => .error (.keyError k) := rfl

@[simp] theorem getD_obj (kvs : List (String × Json)) (k : String) (d : Json) :
    (obj kvs).getD k d = .ok ((Dict.get? kvs k).getD d) := rfl

@[simp] theorem setItem_obj (kvs : List (String × Json)) (k : String) (w : Json) :
    (obj kvs).setItem k w = .ok (obj (Dict.set kvs k w)) := rfl

@[simp] theorem spread_obj (kvs : List (String × Json)) (e : Dict Json) :
    (obj kvs).spread e = .ok (obj (Dict.merge kvs e)) := rfl

@[simp] theorem append_arr (xs : List Json) (w : Json) :
    (arr xs).append w = .ok (arr (xs ++ [w])) := rfl

@[simp] theorem truthy_obj_cons (p : String × Json) (kvs : List (String × Json)) :
    truthy (obj (p :: kvs)) = true := rfl

@[simp] theorem toInt_num (read : String → Option ℤ) (q : ℚ) :
    toInt read (num q) = .ok (truncate q) := rfl

@[simp] theorem toFloat_num (read : String → Option ℚ) (q : ℚ) :
    toFloat read (num q) = .ok q := rfl

/-- A whole number keeps its value under `int`. -/
@[simp] theorem truncate_natCast (n : ℕ) : truncate (n : ℚ) = n := by
  have h : (0 : ℚ) ≤ (n : ℚ) := by exact_mod_cast Nat.zero_le n
  simp [truncate, h]

end Json

end Py
