/-
# `Py.Template` — replacement texts of `re.sub`

A replacement text is not taken as it stands: a backslash begins an escape or
names a group of the pattern.  `expandTemplate` is what a text stands for when
the pattern has no groups, so `\g<0>` is the only group there is.
-/
import KdevopsNg.Py.Text

namespace Py.Text

/-- The character of a one-letter escape. -/
def escapeChar : Char → Option Char
  | 'a' => some '\x07'
  | 'b' => some '\x08'
  | 'f' => some '\x0c'
  | 'n' => some '\n'
  | 'r' => some '\r'
  | 't' => some '\t'
  | 'v' => some '\x0b'
  | '\\' => some '\\'
  | _ => none

/-- A digit of an octal number. -/
def isOctal (c : Char) : Bool := '0' ≤ c && c ≤ '7'

/-- The character of an octal number, where it is a byte. -/
def octalChar (ds : List Char) : Option Char :=
  let n := ds.foldl (fun n d => 8 * n + (d.toNat - '0'.toNat)) 0
  if n ≤ 255 then some (Char.ofNat n) else none

/-- The first piece of a replacement text, `whole` the matched text, and the
text after it. -/
def templateStep (whole : List Char) : List Char → Option (List Char × List Char)
  | [] => none
  | '\\' :: 'g' :: '<' :: cs =>
      let name := cs.takeWhile (· ≠ '>')
      let rest := cs.dropWhile (· ≠ '>')
      if name ≠ [] ∧ name.all (· = '0') ∧ rest ≠ [] then some (whole, rest.tail) else none
  | ['\\'] => none
  | '\\' :: '0' :: cs =>
      let ds := (cs.take 2).takeWhile isOctal
      (octalChar ds).map fun c => ([c], cs.drop ds.length)
  | '\\' :: c :: cs =>
      if c.isDigit then
        let ds := (c :: cs).take 3
        if ds.length = 3 ∧ ds.all isOctal then (octalChar ds).map fun o => ([o], cs.drop 2)
        else none
      else match escapeChar c with
        | some e => some ([e], cs)
        | none => if c.isAlpha then none else some (['\\', c], cs)
  | c :: cs => some ([c], cs)

/-- The pieces, one for each round. -/
def templateFrom (whole : List Char) : ℕ → List Char → Option (List Char)
  | _, [] => some []
  | 0, _ :: _ => none
  | fuel + 1, cs => do
      let (piece, rest) ← templateStep whole cs
      let more ← templateFrom whole fuel rest
      return piece ++ more

/-- What a replacement text stands for; none where `re` rejects it.  A round
takes at least one character, so there are enough of them. -/
def expandTemplate (whole text : List Char) : Option (List Char) :=
  templateFrom whole text.length text

/-- A text without a backslash stands for itself. -/
theorem expandTemplate_plain {text : List Char} (h : '\\' ∉ text) (whole : List Char) :
    expandTemplate whole text = some text := by
  rw [expandTemplate]
  induction text with
  | nil => rfl
  | cons c cs ih =>
      have hc : c ≠ '\\' := by
        rintro rfl
        exact h List.mem_cons_self
      have hstep : templateStep whole (c :: cs) = some ([c], cs) := by
        rw [templateStep] <;> simp [hc]
      rw [List.length_cons, templateFrom, hstep]
      · show (templateFrom whole cs.length cs).bind _ = _
        rw [ih fun hmem => h (List.mem_cons_of_mem c hmem)]
        rfl
      · exact List.cons_ne_nil c cs

end Py.Text
