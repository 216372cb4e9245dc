/-
# `Suites.UnitNames` — the guest units of run items

`unit_escape` and `item_unit` of `f/selftests/common.py` and `f/usertests/common.py`.  A
run item is the instance of a unit template, escaped as systemd escapes it, byte by byte:

    /                                  -
    letters, digits, `:`, `_`, `.`     as they are, but for a `.` in front
    every other byte                   \xhh

The guest's `%I` reads it back (`unescape`, what systemd does): `unescape_escape` is one
byte of it with the rest of the text free, and everything else follows from there.
-/
import KdevopsNg.Py.Text

namespace KdevopsNg.Suites

/-! ## Bytes and hexadecimal digits -/

/-- `name.encode()`. -/
def encode (name : String) : List UInt8 := name.toUTF8.data.toList

/-- A hexadecimal digit, in lower case. -/
def hexDigit (n : ℕ) : Char := Char.ofNat (if n < 10 then '0'.toNat + n else 'a'.toNat + (n - 10))

/-- `f"{b:02x}"`. -/
def hexByte (b : UInt8) : List Char := [hexDigit (b.toNat / 16), hexDigit (b.toNat % 16)]

/-- `c.isascii() and c.isalnum()`, `c` the character of a byte. -/
def isAsciiAlnum (c : Char) : Bool := c.toNat < 128 && c.isAlphanum

end KdevopsNg.Suites

/-! ## The two copies -/

namespace KdevopsNg.Selftests

open Suites

/-- `unit_escape`. -/
def unitEscape (name : String) : String :=
  String.ofList <| (encode name).zipIdx.flatMap fun (b, i) =>
    let c := Char.ofNat b.toNat
    if c = '/' then ['-']
    else if (isAsciiAlnum c || decide (c ∈ [':', '_', '.'])) && !(decide (c = '.') && i == 0) then [c]
    else '\\' :: 'x' :: hexByte b

/-- `item_unit`. -/
def itemUnit (item : String) : String :=
  let template := if ':' ∈ item.toList then "kselftest-test" else "kselftest"
  template ++ "@" ++ unitEscape item ++ ".service"

end KdevopsNg.Selftests

namespace KdevopsNg.Usertests

open Suites

/-- `unit_escape`. -/
def unitEscape (name : String) : String :=
  String.ofList <| (encode name).zipIdx.flatMap fun (b, i) =>
    let c := Char.ofNat b.toNat
    if c = '/' then ['-']
    else if (isAsciiAlnum c || decide (c ∈ [':', '_', '.'])) && !(decide (c = '.') && i == 0) then [c]
    else '\\' :: 'x' :: hexByte b

/-- `item_unit`. -/
def itemUnit (item : String) : String := "usertests" ++ "@" ++ unitEscape item ++ ".service"

end KdevopsNg.Usertests

namespace KdevopsNg.Suites

/-! ## What systemd reads back -/

/-- `unhexchar` of systemd. -/
def unhexchar (c : Char) : Option ℕ :=
  if '0' ≤ c ∧ c ≤ '9' then some (c.toNat - '0'.toNat)
  else if 'a' ≤ c ∧ c ≤ 'f' then some (c.toNat - 'a'.toNat + 10)
  else if 'A' ≤ c ∧ c ≤ 'F' then some (c.toNat - 'A'.toNat + 10)
  else none

/-- `unit_name_unescape` of systemd: the bytes of an instance; none where it refuses it. -/
def unescape : List Char → Option (List UInt8)
  | [] => some []
  | '\\' :: 'x' :: a :: b :: cs => do
      let a ← unhexchar a
      let b ← unhexchar b
      let rest ← unescape cs
      some (UInt8.ofNat (a * 16 + b) :: rest)
  | c :: cs =>
      if c = '\\' then none
      else do
        let rest ← unescape cs
        some ((if c = '-' then [UInt8.ofNat '/'.toNat] else String.utf8EncodeChar c) ++ rest)

/-- One piece of an escaped text. -/
def IsPiece (t : List Char) : Prop :=
  (∃ c, t = [c] ∧ (c.isAlphanum = true ∨ c ∈ [':', '_', '.', '-'])) ∨
    ∃ m n, m < 16 ∧ n < 16 ∧ t = ['\\', 'x', hexDigit m, hexDigit n]

/-- Letters, digits, four characters more and hexadecimal escapes, and no dot in front. -/
def WellEscaped (s : List Char) : Prop :=
  (∃ pieces : List (List Char), s = pieces.flatten ∧ ∀ t ∈ pieces, IsPiece t) ∧
    s.head? ≠ some '.'

/-! ## One byte -/

/-- What the text of a byte is, the byte in front or not. -/
def escapeByte (first : Bool) (b : UInt8) : List Char :=
  let c := Char.ofNat b.toNat
  if c = '/' then ['-']
  else if (isAsciiAlnum c || decide (c ∈ [':', '_', '.'])) && !(decide (c = '.') && first) then [c]
  else '\\' :: 'x' :: hexByte b

/-- A byte that stays as it is stands for itself. -/
theorem plain_byte : ∀ n < 256, (isAsciiAlnum (Char.ofNat n) ||
    decide (Char.ofNat n ∈ [':', '_', '.'])) = true →
      Char.ofNat n ≠ '\\' ∧ Char.ofNat n ≠ '-' ∧
        String.utf8EncodeChar (Char.ofNat n) = [UInt8.ofNat n] ∧
        ((Char.ofNat n).isAlphanum = true ∨ Char.ofNat n ∈ [':', '_', '.', '-']) := by
  decide +kernel

theorem slash_byte : ∀ n < 256, Char.ofNat n = '/' → n = '/'.toNat := by
  decide +kernel

theorem unhexchar_hexDigit : ∀ n < 16, unhexchar (hexDigit n) = some n := by
  decide

/-- A character that begins no escape stands for its bytes, a dash for a slash. -/
theorem unescape_char {c : Char} (hc : c ≠ '\\') (rest : List Char) :
    unescape (c :: rest) = (unescape rest).map
      ((if c = '-' then [UInt8.ofNat '/'.toNat] else String.utf8EncodeChar c) ++ ·) := by
  rw [unescape.eq_3 _ _ fun a b cs h => absurd h hc, if_neg hc]
  cases unescape rest <;> rfl

/-- The text of a byte is read as that byte. -/
theorem unescape_byte (first : Bool) (b : UInt8) (rest : List Char) :
    unescape (escapeByte first b ++ rest) = (unescape rest).map (b :: ·) := by
  have hb : b.toNat < 256 := b.toNat_lt
  have hof : UInt8.ofNat b.toNat = b := UInt8.ofNat_toNat
  rw [escapeByte]
  split_ifs with hslash hplain
  · have hnat := slash_byte b.toNat hb hslash
    rw [hnat] at hof
    rw [List.singleton_append, unescape_char (by decide), if_pos rfl, hof]
    rfl
  · obtain ⟨hback, hdash, hbytes, -⟩ :=
      plain_byte b.toNat hb (Bool.and_eq_true_iff.mp hplain).1
    rw [List.singleton_append, unescape_char hback, if_neg hdash, hbytes, hof]
    rfl
  · have hhigh : b.toNat / 16 < 16 := by omega
    have hlow : b.toNat % 16 < 16 := Nat.mod_lt _ (by decide)
    have hsum : b.toNat / 16 * 16 + b.toNat % 16 = b.toNat := Nat.div_add_mod' _ _
    rw [hexByte, List.cons_append, List.cons_append, List.cons_append, List.cons_append,
      List.nil_append, unescape, unhexchar_hexDigit _ hhigh, unhexchar_hexDigit _ hlow]
    simp only [Option.bind_eq_bind, Option.bind_some, hsum, hof]
    cases unescape rest <;> rfl

theorem isPiece_byte (first : Bool) (b : UInt8) : IsPiece (escapeByte first b) := by
  have hb : b.toNat < 256 := b.toNat_lt
  rw [escapeByte]
  split_ifs with hslash hplain
  · exact .inl ⟨'-', rfl, .inr (by decide)⟩
  · exact .inl ⟨_, rfl, (plain_byte b.toNat hb (Bool.and_eq_true_iff.mp hplain).1).2.2.2⟩
  · exact .inr ⟨_, _, by omega, Nat.mod_lt _ (by decide), rfl⟩

/-- No byte in front has a dot for its text. -/
theorem head_byte (b : UInt8) (rest : List Char) :
    (escapeByte true b ++ rest).head? ≠ some '.' := by
  rw [escapeByte]
  split_ifs with hslash hplain
  · simp
  · have hdot : Char.ofNat b.toNat ≠ '.' := by
      simpa using (Bool.and_eq_true_iff.mp hplain).2
    simpa using hdot
  · simp

/-! ## A whole name -/

/-- The text of some bytes, from a place on. -/
def escapeFrom (bs : List UInt8) (i : ℕ) : List Char :=
  (bs.zipIdx i).flatMap fun x => escapeByte (x.2 == 0) x.1

theorem escapeFrom_cons (b : UInt8) (bs : List UInt8) (i : ℕ) :
    escapeFrom (b :: bs) i = escapeByte (i == 0) b ++ escapeFrom bs (i + 1) := by
  rw [escapeFrom, List.zipIdx_cons, List.flatMap_cons, escapeFrom]

/-- The text of some bytes is read as those bytes. -/
theorem unescape_from (bs : List UInt8) (i : ℕ) : unescape (escapeFrom bs i) = some bs := by
  induction bs generalizing i with
  | nil => rfl
  | cons b bs ih => rw [escapeFrom_cons, unescape_byte, ih, Option.map_some]

theorem pieces_from (bs : List UInt8) (i : ℕ) :
    ∃ pieces : List (List Char), escapeFrom bs i = pieces.flatten ∧ ∀ t ∈ pieces, IsPiece t := by
  induction bs generalizing i with
  | nil => exact ⟨[], rfl, fun t ht => absurd ht List.not_mem_nil⟩
  | cons b bs ih =>
      obtain ⟨pieces, hpieces, hall⟩ := ih (i + 1)
      refine ⟨escapeByte (i == 0) b :: pieces, ?_, fun t ht => ?_⟩
      · rw [escapeFrom_cons, hpieces, List.flatten_cons]
      · rcases List.mem_cons.mp ht with rfl | ht
        · exact isPiece_byte _ b
        · exact hall t ht

theorem head_from (bs : List UInt8) : (escapeFrom bs 0).head? ≠ some '.' := by
  cases bs with
  | nil => simp [escapeFrom]
  | cons b bs =>
      rw [escapeFrom_cons]
      exact head_byte b _

theorem toList_unitEscape (name : String) :
    (Selftests.unitEscape name).toList = escapeFrom (encode name) 0 := by
  rw [Selftests.unitEscape, String.toList_ofList]
  rfl

theorem encode_injective : Function.Injective encode := by
  intro a b h
  have hdata : a.toUTF8.data = b.toUTF8.data := Array.toList_inj.mp h
  exact String.toByteArray_inj.mp (ByteArray.ext hdata)

theorem unescape_unitEscape (name : String) :
    unescape (Selftests.unitEscape name).toList = some (encode name) := by
  rw [toList_unitEscape, unescape_from]

theorem wellEscaped_unitEscape (name : String) :
    WellEscaped (Selftests.unitEscape name).toList := by
  rw [toList_unitEscape]
  exact ⟨pieces_from _ 0, head_from _⟩

theorem unitEscape_injective : Function.Injective Selftests.unitEscape := by
  intro a b h
  have hread := unescape_unitEscape a
  rw [h, unescape_unitEscape] at hread
  exact (encode_injective (Option.some.inj hread)).symm

/-! ## The units -/

/-- Units of one template have one instance. -/
theorem unit_inj {template a b : String}
    (h : template ++ "@" ++ a ++ ".service" = template ++ "@" ++ b ++ ".service") : a = b := by
  simpa [← String.toList_inj] using h

theorem selftests_itemUnit_injective : Function.Injective Selftests.itemUnit := by
  intro a b h
  rw [Selftests.itemUnit, Selftests.itemUnit] at h
  -- the tenth character of a unit tells the two templates apart
  have htemplate : (':' ∈ a.toList) = (':' ∈ b.toList) := by
    have htenth := congrArg (fun s : String => s.toList[9]?) h
    by_cases ha : ':' ∈ a.toList <;> by_cases hb : ':' ∈ b.toList <;>
      simp [ha, hb] at htenth ⊢
  simp only [htemplate] at h
  exact unitEscape_injective (unit_inj h)

theorem usertests_itemUnit_injective : Function.Injective Usertests.itemUnit :=
  fun _ _ h => unitEscape_injective (unit_inj h)

/-- An item's unit is its own, and the guest reads the item back from it. -/
theorem unit_names :
    (∀ name, unescape (Selftests.unitEscape name).toList = some (encode name)) ∧
      (∀ name, WellEscaped (Selftests.unitEscape name).toList) ∧
      Function.Injective Selftests.unitEscape ∧
      Function.Injective Selftests.itemUnit ∧ Function.Injective Usertests.itemUnit ∧
      ∀ name, Selftests.unitEscape name = Usertests.unitEscape name :=
  ⟨unescape_unitEscape, wellEscaped_unitEscape, unitEscape_injective,
    selftests_itemUnit_injective, usertests_itemUnit_injective, fun _ => rfl⟩

end KdevopsNg.Suites
