/-
# `Py.Fnmatch` — the patterns of `fnmatch`

    *         any text
    ?         any character
    [seq]     a character of the sequence, which may hold ranges
    [!seq]    a character that is not
    others    themselves; so does a bracket that is not closed
-/
import Mathlib.Data.Nat.Notation

namespace Py

namespace Fnmatch

/-- A piece of a pattern. -/
inductive Piece
  | star
  | one (p : Char → Bool)

/-- A character is in a sequence of characters and ranges. -/
def inSequence : List Char → Char → Bool
  | a :: '-' :: b :: rest, c => (decide (a ≤ c) && decide (c ≤ b)) || inSequence rest c
  | a :: rest, c => a = c || inSequence rest c
  | [], _ => false

/-- The sequence behind an opening bracket, and what is behind the closing one.  A closing
bracket that comes first is of the sequence. -/
def bracket (cs : List Char) : Option (List Char × List Char) :=
  let first := cs.take (if cs.head? = some ']' then 1 else 0)
  let rest := cs.drop first.length
  match rest.dropWhile (· ≠ ']') with
  | [] => none
  | _ :: behind => some (first ++ rest.takeWhile (· ≠ ']'), behind)

/-- The pieces of a pattern, of at most `n` characters. -/
def pieces : ℕ → List Char → List Piece
  | 0, _ => []
  | _, [] => []
  | n + 1, '*' :: cs => .star :: pieces n cs
  | n + 1, '?' :: cs => .one (fun _ => true) :: pieces n cs
  | n + 1, '[' :: cs =>
      let negated := cs.head? = some '!'
      match bracket (if negated then cs.drop 1 else cs) with
      | some (sequence, behind) =>
          .one (fun c => inSequence sequence c != decide negated) :: pieces n behind
      | none => .one (· = '[') :: pieces n cs
  | n + 1, c :: cs => .one (· = c) :: pieces n cs

/-- A text is that of the pieces, from its first character to its last. -/
def fits : List Piece → List Char → Bool
  | [], s => s.isEmpty
  | .star :: ps, s => (List.range (s.length + 1)).any fun n => fits ps (s.drop n)
  | .one p :: ps, s => (s.head?.any p) && fits ps (s.drop 1)

end Fnmatch

/-- `fnmatch.fnmatch(name, pat)`. -/
def fnmatch (name pat : String) : Bool :=
  Fnmatch.fits (Fnmatch.pieces pat.toList.length pat.toList) name.toList

example : (["a.h", ".x.cmd", "b.hh", "[", "v7"].map fun name =>
    ["*.h", "*.cmd", "[", "v[0-9]"].any (fnmatch name)) = [true, true, false, true, true] := by
  decide +kernel

end Py
