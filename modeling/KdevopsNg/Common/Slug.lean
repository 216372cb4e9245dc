/-
# `Common.Slug` — labels and branch names

The pure string functions of `f/common/worktree.py`: `_slug` and `_b4_slug`,
which name the branch a series is published on, and the label of a build, from
the subject of the series or the ref.  A label is of one line.
-/
import KdevopsNg.Py.Digits
import KdevopsNg.Py.Lines

namespace KdevopsNg.Common

open Py

/-- A character of a slug: `[A-Za-z0-9._-]`. -/
def isSlugChar (c : Char) : Bool :=
  c.isAlpha || c.isDigit || c = '.' || c = '_' || c = '-'

/-- `re.sub("[^A-Za-z0-9._-]+", "-", s)`, inside a run of other characters or not. -/
def collapse : Bool → List Char → List Char
  | _, [] => []
  | inRun, c :: cs =>
      if isSlugChar c then c :: collapse false cs
      else if inRun then collapse true cs
      else '-' :: collapse true cs

/-- `_slug`. -/
def slug (value : String) : String :=
  let text := collapse false (Text.strip value.toList)
  String.ofList ((Text.stripBy (fun c => c = '-' ∨ c = '.' ∨ c = '_') text).map Char.toLower)

/-- `_b4_slug`. -/
def b4Slug (b4Series : String) : String :=
  let value := Text.stripBy (· = '/') (Text.strip b4Series.toList)
  let value := if '/' ∈ value then Text.afterLast '/' value else value
  let value := value.takeWhile (· ≠ '@')
  let leaf := String.ofList ((slug (String.ofList value)).toList.take 48)
  if leaf = "" then "series" else leaf

/-- The branch a series is published on. -/
def b4Branch (b4Series : String) : String := "b4/" ++ b4Slug b4Series

/-- `_first_subject` of an mbox's text. -/
def firstSubject (mbox : String) : String :=
  match (Text.splitlines mbox.toList).find? fun line => "Subject:".toList.isPrefixOf line with
  | some line => String.ofList (Text.strip (line.drop 8))
  | none => ""

/-- The version a text begins with, as a word: `v(\d+)\b`. -/
def versionHere (u : Unicode) : List Char → Option ℕ
  | 'v' :: cs =>
      let rest := cs.drop (Text.leadingDigits u cs).length
      if (rest.head?.map u.isWord).getD false then none else Text.leadingNat u cs
  | _ => none

/-- The first match of `\bv(\d+)\b`, after a word character or not. -/
def versionWord (u : Unicode) : Bool → List Char → Option ℕ
  | _, [] => none
  | afterWord, c :: cs =>
      (if afterWord then none else versionHere u (c :: cs)).or (versionWord u (u.isWord c) cs)

/-- The leading `[...]` of a subject, on one line: `\s*\[(.*?)\]`. -/
def leadingBracket (subject : List Char) : Option (List Char) :=
  match subject.dropWhile Text.isSpace with
  | '[' :: cs =>
      let inner := cs.takeWhile (· ≠ ']')
      if ']' ∈ cs ∧ '\n' ∉ inner then some inner else none
  | _ => none

/-- A `vN` at the very end of a summary, and the summary before it. -/
def trailingVersion (u : Unicode) (summary : List Char) : Option (ℕ × List Char) :=
  let text := summary.reverse.dropWhile Text.isSpace
  let digits := Text.leadingDigits u text
  match digits, text.drop digits.length with
  | [], _ => none
  | ds, 'v' :: before =>
      match before with
      | [] => some (Text.digitsToNat u ds.reverse, [])
      | c :: cs => if Text.isSpace c then some (Text.digitsToNat u ds.reverse, cs.reverse) else none
  | _, _ => none

/-- `_subject_label`. -/
def subjectLabel (u : Unicode) (subject : String) : String :=
  let text := subject.toList
  let version := (leadingBracket text).bind (versionWord u false)
  let summary := if ']' ∈ text then Text.afterLast ']' text else text
  let (version, summary) :=
    match version with
    | some v => (some v, summary)
    | none =>
        match trailingVersion u summary with
        | some (v, before) => (some v, before)
        | none => (none, summary)
  let label := slug (String.ofList summary)
  match version with
  | some v =>
      if 2 ≤ v then (if label = "" then "v" ++ toString v else label ++ "-v" ++ toString v)
      else label
  | none => label

/-- `_compute_label`. -/
def computeLabel (userLabel b4Series b4Label : String) (isTag : Bool) (ref : String) : String :=
  if userLabel ≠ "" then slug userLabel
  else if b4Series ≠ "" then b4Label
  else if isTag then "vanilla"
  else slug ref

/-- A slug is never empty, so a series always has a branch of its own under `b4/`. -/
theorem b4Slug_ne_empty (b4Series : String) : b4Slug b4Series ≠ "" := by
  simp only [b4Slug]
  generalize String.ofList _ = leaf
  by_cases h : leaf = ""
  · rw [if_pos h]
    decide
  · rw [if_neg h]
    exact h

/-! ## A label is of one line -/

theorem mem_collapse {c : Char} {inRun : Bool} {s : List Char} (hc : c ∈ collapse inRun s) :
    isSlugChar c = true := by
  induction s generalizing inRun with
  | nil => cases hc
  | cons d s ih =>
      rw [collapse] at hc
      by_cases hd : isSlugChar d = true
      · rw [if_pos hd, List.mem_cons] at hc
        rcases hc with rfl | hc
        · exact hd
        · exact ih hc
      · rw [if_neg hd] at hc
        cases inRun with
        | true => exact ih hc
        | false =>
            rcases List.mem_cons.mp hc with rfl | hc
            · decide
            · exact ih hc

theorem isAlpha_range {c : Char} (h : c.isAlpha = true) : 0x41 ≤ c.toNat ∧ c.toNat ≤ 0x7a := by
  have hletter : (c.isUpper || c.isLower) = true := h
  rcases (Bool.or_eq_true _ _).mp hletter with hupper | hlower
  · have hrange : decide (c.val ≥ 'A'.val ∧ c.val ≤ 'Z'.val) = true := hupper
    obtain ⟨hlow, hhigh⟩ := of_decide_eq_true hrange
    exact ⟨UInt32.le_iff_toNat_le.mp hlow, le_trans (UInt32.le_iff_toNat_le.mp hhigh) (by decide)⟩
  · have hrange : (decide (c.val ≥ 'a'.val) && decide (c.val ≤ 'z'.val)) = true := hlower
    obtain ⟨hlow, hhigh⟩ := (Bool.and_eq_true _ _).mp hrange
    exact ⟨le_trans (by decide) (UInt32.le_iff_toNat_le.mp (of_decide_eq_true hlow)),
      UInt32.le_iff_toNat_le.mp (of_decide_eq_true hhigh)⟩

/-- The characters of a slug lie between the dash and the `z`. -/
theorem isSlugChar_range {c : Char} (h : isSlugChar c = true) :
    0x2d ≤ c.toNat ∧ c.toNat ≤ 0x7a := by
  rw [isSlugChar, Bool.or_eq_true, Bool.or_eq_true, Bool.or_eq_true, Bool.or_eq_true,
    decide_eq_true_eq, decide_eq_true_eq, decide_eq_true_eq] at h
  rcases h with (((halpha | hdigit) | rfl) | rfl) | rfl
  · have hrange := isAlpha_range halpha
    omega
  · have hrange := Text.isDigit_range hdigit
    omega
  · decide
  · decide
  · decide

/-- What holds of the characters of a slug in ASCII holds of them all. -/
theorem of_isSlugChar {P : Char → Prop}
    (hall : ∀ n : Fin 0x7b, isSlugChar (Char.ofNat n) = true → P (Char.ofNat n)) {c : Char}
    (h : isSlugChar c = true) : P c := by
  have hrange := isSlugChar_range h
  have hc := hall ⟨c.toNat, by omega⟩
  rw [Char.ofNat_toNat] at hc
  exact hc h

theorem isLineBreak_toLower {c : Char} (h : isSlugChar c = true) :
    Text.isLineBreak c.toLower = false :=
  of_isSlugChar (P := fun c => Text.isLineBreak c.toLower = false) (by decide) h

theorem oneLine_slug (value : String) : Text.OneLine (slug value).toList := by
  intro c hc
  rw [slug, String.toList_ofList] at hc
  obtain ⟨d, hd, rfl⟩ := List.mem_map.mp hc
  exact isLineBreak_toLower (mem_collapse (Text.stripBy_subset _ _ hd))

theorem oneLine_toString (n : ℕ) : Text.OneLine (toString n).toList := by
  intro c hc
  obtain ⟨hlow, hhigh⟩ := Text.isDigit_range (Text.isDigit_toString n c hc)
  exact Text.isLineBreak_of_ascii (by omega) (by omega)

theorem oneLine_subjectLabel (u : Unicode) (subject : String) :
    Text.OneLine (subjectLabel u subject).toList := by
  have hversion : ∀ (s : String) (v : ℕ), Text.OneLine s.toList →
      Text.OneLine (s ++ toString v).toList := by
    intro s v hs
    rw [String.toList_append]
    exact hs.append (oneLine_toString v)
  rw [subjectLabel]
  split
  rename_i version summary hsummary
  clear hsummary
  have hlabel := oneLine_slug (String.ofList summary)
  cases version with
  | none => exact hlabel
  | some v =>
      dsimp only
      by_cases hv : 2 ≤ v
      · rw [if_pos hv]
        by_cases hno : slug (String.ofList summary) = ""
        · rw [if_pos hno]
          exact hversion "v" v (by decide)
        · rw [if_neg hno]
          refine hversion _ v ?_
          rw [String.toList_append]
          exact hlabel.append (by decide)
      · rw [if_neg hv]
        exact hlabel

/-- The label a build is prepared with is of one line. -/
theorem oneLine_computeLabel (userLabel b4Series : String) {b4Label : String}
    (hb4 : Text.OneLine b4Label.toList) (isTag : Bool) (ref : String) :
    Text.OneLine (computeLabel userLabel b4Series b4Label isTag ref).toList := by
  rw [computeLabel]
  by_cases huser : userLabel = ""
  · rw [if_neg (not_not.mpr huser)]
    by_cases hseries : b4Series = ""
    · rw [if_neg (not_not.mpr hseries)]
      cases isTag with
      | true =>
          rw [if_pos rfl]
          decide
      | false => exact oneLine_slug ref
    · rw [if_pos hseries]
      exact hb4
  · rw [if_pos huser]
    exact oneLine_slug userLabel

end KdevopsNg.Common
