/-
# `Qemu.Identity` — the name of a build, and the sanitizer it is read to have

`f/qemu/identity.py` names the install prefix of a build; `f/qemu/publish.py` and
`f/qemu/publish_devel.py` name its two layers in the store after the prefix, and
`sanitizer_from_store_name` of `f/qsu/diagnostics.py` reads the sanitizer back.

    <version>-<label>-<sanitizer>-<identity>       each but the identity may be missing

The reader takes the token in front of the identity (`read_token`).  Without a sanitizer
that is the last token of the label, and the label was cut to 64 characters: what the
cut leaves of a token can be the name of a sanitizer (`sanitizer_read_iff`).
-/
import KdevopsNg.Kernel.Identity
import KdevopsNg.Py.Exec
import KdevopsNg.Py.Flow

namespace KdevopsNg.Qemu

open Py Text
open Common (slug isSlugChar)
open Kernel (splitTrailingVersion isHexDigit)

/-! ## `f/qemu/sanitizers.py` -/

/-- The keys of `SANITIZERS`. -/
def sanitizers : List String := ["none", "ubsan", "asan", "asan+ubsan", "tsan"]

/-- `checked`. -/
def checked (sanitizer : String) : Except PyError String :=
  let name := if sanitizer = "" then "none" else sanitizer
  if name ∈ sanitizers then .ok name
  else .error (.valueError ("sanitizer must be one of " ++ join ", " sanitizers ++ ", got " ++
    Text.repr sanitizer))

/-- `prefix_segment`. -/
def prefixSegment (sanitizer : String) : Except PyError String := do
  let name ← checked sanitizer
  .ok (if name = "none" then "" else name)

/-! ## `f/qemu/identity.py` -/

/-- `s[:n]`: below zero, all but so many of the last. -/
def sliceTo (s : List Char) (n : ℤ) : List Char :=
  if 0 ≤ n then s.take n.toNat else s.take (s.length - (-n).toNat)

/-- The slug of a label, cut to 64 characters; a revision stays. -/
def cutSlug (u : Unicode) (label : String) : List Char :=
  let (head, suffix) := splitTrailingVersion u (slug label).toList
  rstripBy (fun c => c = '-' ∨ c = '.' ∨ c = '_') (sliceTo head (64 - suffix.length)) ++ suffix

/-- `_prefix_basename`. -/
def prefixBasename (u : Unicode) (version : List Char) (label : String) (identity : List Char)
    (sanitizer : List Char) : List Char :=
  let parts := [version, cutSlug u label, sanitizer].filter (· ≠ [])
  ['-'].intercalate (parts ++ [identity])

/-- The identity of a build: twelve hexadecimal digits. -/
structure Digest where
  text : List Char
  length_text : text.length = 12
  isHexDigit_text : ∀ c ∈ text, isHexDigit c = true

/-! ## `f/qsu/diagnostics.py` -/

/-- `_SELECTIONS`. -/
def selections : List String := sanitizers.filter (· ≠ "none")

/-- A character of the segment that is read: `[a-z+]`. -/
def isSegmentChar (c : Char) : Bool := c.isLower || c = '+'

/-- The segment that ends here, read from its end, if a dash is in front of it. -/
def segmentBack (back : List Char) : Option (List Char) :=
  let seg := back.takeWhile isSegmentChar
  if seg ≠ [] ∧ (back.dropWhile isSegmentChar).head? = some '-' then some seg.reverse else none

/-- The segment that `-(?P<seg>[a-z+]+)-[0-9a-f]{12}$` finds. -/
def segmentOf (storeName : List Char) : Option (List Char) :=
  -- `$` also matches before a line feed that ends the text
  let body := if storeName.getLast? = some '\n' then storeName.dropLast else storeName
  let hex := body.reverse.take 12
  match body.reverse.drop 12 with
  | '-' :: back => if hex.length = 12 ∧ hex.all isHexDigit then segmentBack back else none
  | _ => none

/-- `sanitizer_from_store_name`. -/
def sanitizerFromStoreName (storeName : List Char) : String :=
  match segmentOf storeName with
  | some seg => if String.ofList seg ∈ selections then String.ofList seg else "none"
  | none => "none"

/-! ## What is read of a name -/

/-- A segment is empty or names a selection. -/
theorem segment_cases {s segment : String} (h : prefixSegment s = .ok segment) :
    segment = "" ∨ segment ∈ sanitizers := by
  by_cases hname : (if s = "" then "none" else s) ∈ sanitizers
  · have hchecked : checked s = .ok (if s = "" then "none" else s) := if_pos hname
    rw [prefixSegment, hchecked] at h
    cases Except.ok.inj h
    by_cases hnone : (if s = "" then "none" else s) = "none"
    · exact .inl (if_pos hnone)
    · rw [if_neg hnone]
      exact .inr hname
  · have hchecked : ∃ e, checked s = .error e := ⟨_, if_neg hname⟩
    obtain ⟨e, he⟩ := hchecked
    rw [prefixSegment, he] at h
    cases h

theorem isHexDigit_ne {c : Char} (h : isHexDigit c = true) : c ≠ '-' ∧ c ≠ '/' ∧ c ≠ '\n' := by
  refine ⟨?_, ?_, ?_⟩ <;> rintro rfl <;> exact absurd h (by decide)

namespace Digest

variable (d : Digest)

theorem getLast?_append (front : List Char) : (front ++ d.text).getLast? ≠ some '\n' := by
  have hne : d.text ≠ [] := by
    intro h
    have hlen := d.length_text
    rw [h] at hlen
    cases hlen
  obtain ⟨c, hc⟩ := Option.ne_none_iff_exists'.mp (mt List.getLast?_eq_none_iff.mp hne)
  rw [List.getLast?_append_of_ne_nil front hne, hc, ne_eq, Option.some.injEq]
  exact (isHexDigit_ne (d.isHexDigit_text c (List.mem_of_getLast? hc))).2.2

/-- What is in front of the identity and its dash is read from its end. -/
theorem segmentOf_append (front : List Char) :
    segmentOf (front ++ '-' :: d.text) = segmentBack front.reverse := by
  have hlist : front ++ '-' :: d.text = (front ++ ['-']) ++ d.text := by simp
  have hlen : d.text.reverse.length = 12 := by rw [List.length_reverse, d.length_text]
  have hhex : d.text.reverse.all isHexDigit = true :=
    List.all_eq_true.mpr fun c hc => d.isHexDigit_text c (List.mem_reverse.mp hc)
  rw [segmentOf, hlist, if_neg (d.getLast?_append _), List.reverse_append,
    List.take_left' hlen, List.drop_left' hlen, List.reverse_append, List.reverse_singleton,
    List.singleton_append]
  simp only [hlen, hhex, and_self, if_true]

end Digest

/-- A token behind a dash is the segment if it is made of the characters of one. -/
theorem segmentBack_token (front token : List Char) (h : '-' ∉ token) :
    segmentBack (front ++ '-' :: token).reverse =
      if token ≠ [] ∧ ∀ c ∈ token, isSegmentChar c = true then some token else none := by
  have hback : (front ++ '-' :: token).reverse = token.reverse ++ '-' :: front.reverse := by simp
  rw [segmentBack, hback]
  by_cases hall : ∀ c ∈ token, isSegmentChar c = true
  · have hrev : ∀ c ∈ token.reverse, isSegmentChar c = true :=
      fun c hc => hall c (List.mem_reverse.mp hc)
    rw [List.takeWhile_append_of_pos hrev, List.dropWhile_append_of_pos hrev,
      List.takeWhile_cons_of_neg (by decide), List.dropWhile_cons_of_neg (by decide),
      List.append_nil, List.reverse_reverse]
    simp only [ne_eq, List.reverse_eq_nil_iff, List.head?_cons, and_true, eq_true hall]
  · -- the first character from the end that ends the segment is one of the token
    have hstop : token.reverse.dropWhile isSegmentChar ≠ [] := by
      intro hnil
      refine hall fun c hc => List.dropWhile_eq_nil_iff.mp hnil c (List.mem_reverse.mpr hc)
    obtain ⟨c, cs, hcs⟩ := List.exists_cons_of_ne_nil hstop
    have hmem : c ∈ token.reverse :=
      (List.dropWhile_suffix isSegmentChar).subset (hcs ▸ List.mem_cons_self)
    have hc : c ≠ '-' := by
      rintro rfl
      exact h (List.mem_reverse.mp hmem)
    have hdrop : (token.reverse ++ '-' :: front.reverse).dropWhile isSegmentChar =
        c :: (cs ++ '-' :: front.reverse) := by
      rw [List.dropWhile_append, hcs]
      rfl
    rw [hdrop, if_neg (fun hand => hc (Option.some.inj hand.2)), if_neg (fun hand => hall hand.2)]

theorem selection_char : ∀ {s : String}, s ∈ selections →
    s.toList ≠ [] ∧ ∀ c ∈ s.toList, isSegmentChar c = true := by
  have hall : ∀ s ∈ selections, s.toList ≠ [] ∧ ∀ c ∈ s.toList, isSegmentChar c = true := by
    decide
  exact fun {s} hmem => hall s hmem

/-- The token in front of the identity is the one that is read, if it is a sanitizer's. -/
theorem read_token (d : Digest) (front token : List Char) (h : '-' ∉ token) :
    sanitizerFromStoreName ((front ++ '-' :: token) ++ '-' :: d.text) =
      if String.ofList token ∈ selections then String.ofList token else "none" := by
  have hselected : String.ofList token ∈ selections →
      token ≠ [] ∧ ∀ c ∈ token, isSegmentChar c = true := by
    intro hmem
    have hs := selection_char hmem
    rwa [String.toList_ofList] at hs
  rw [sanitizerFromStoreName, d.segmentOf_append, segmentBack_token front token h]
  by_cases hseg : token ≠ [] ∧ ∀ c ∈ token, isSegmentChar c = true
  · rw [if_pos hseg]
  · rw [if_neg hseg, if_neg (mt hselected hseg)]

/-! ## The names of the store -/

/-- The parts of a name in front of the identity. -/
def parts (u : Unicode) (version : List Char) (label : String) (sanitizer : List Char) :
    List (List Char) :=
  [version, cutSlug u label, sanitizer].filter (· ≠ [])

/-- A name in the store is its parts and the identity behind the word it begins with. -/
theorem storeName_eq (u : Unicode) (version : List Char) (label : String) (identity : List Char)
    (sanitizer : List Char) :
    "qemu-".toList ++ prefixBasename u version label identity sanitizer =
      ['-'].intercalate ("qemu".toList :: parts u version label sanitizer) ++ '-' :: identity := by
  rw [← join_concat (by simp), List.cons_append, prefixBasename, parts]
  obtain ⟨x, xs, hx⟩ := List.exists_cons_of_ne_nil
    (l := [version, cutSlug u label, sanitizer].filter (· ≠ []) ++ [identity]) (by simp)
  rw [hx, List.intercalate_cons_cons]
  simp

/-- The last token of a text. -/
def lastToken (s : List Char) : List Char := afterLast '-' s

/-- Behind a dash, the last token of a text is the last one of all. -/
theorem lastToken_split (front s : List Char) :
    ∃ pre, front ++ '-' :: s = pre ++ '-' :: lastToken s ∧ '-' ∉ lastToken s := by
  have hnot := not_mem_afterLast '-' s
  by_cases hdash : '-' ∈ s
  · obtain ⟨pre, hs⟩ := afterLast_split hdash
    refine ⟨front ++ '-' :: pre, ?_, hnot⟩
    conv_lhs => rw [hs]
    rw [lastToken, List.append_assoc, List.cons_append]
  · exact ⟨front, by rw [lastToken, afterLast_of_not_mem hdash], hnot⟩

theorem version_char {c : Char} (h : c.isDigit = true ∨ c = '.') :
    c ≠ '-' ∧ isSegmentChar c = false := by
  rcases h with hdigit | rfl
  · obtain ⟨hlow, hhigh⟩ := Text.isDigit_range hdigit
    have hall : ∀ n : Fin 0x3a, 0x30 ≤ n.val →
        Char.ofNat n ≠ '-' ∧ isSegmentChar (Char.ofNat n) = false := by decide
    have hc := hall ⟨c.toNat, by omega⟩ hlow
    rwa [Char.ofNat_toNat] at hc
  · decide

/-- Of a name without a sanitizer the last token of the cut label is read. -/
theorem read_stock (u : Unicode) {version : List Char}
    (hversion : ∀ c ∈ version, c.isDigit = true ∨ c = '.') (label : String) (d : Digest) :
    sanitizerFromStoreName ("qemu-".toList ++ prefixBasename u version label d.text []) =
      if String.ofList (lastToken (cutSlug u label)) ∈ selections then
        String.ofList (lastToken (cutSlug u label)) else "none" := by
  rw [storeName_eq]
  by_cases hcut : cutSlug u label = []
  · have hnone : String.ofList (lastToken (cutSlug u label)) ∉ selections := by
      rw [hcut]
      decide
    rw [if_neg hnone]
    by_cases hempty : version = []
    · have hparts : parts u version label [] = [] := by simp [parts, hcut, hempty]
      rw [hparts, List.intercalate_singleton, sanitizerFromStoreName, d.segmentOf_append]
      decide
    · have hparts : parts u version label [] = [version] := by simp [parts, hcut, hempty]
      have hdash : '-' ∉ version := fun hmem => (version_char (hversion _ hmem)).1 rfl
      have hnot : String.ofList version ∉ selections := by
        intro hmem
        have hchars := selection_char hmem
        rw [String.toList_ofList] at hchars
        obtain ⟨c, cs, rfl⟩ := List.exists_cons_of_ne_nil hempty
        have hc := (version_char (hversion c List.mem_cons_self)).2
        rw [hchars.2 c List.mem_cons_self] at hc
        cases hc
      have hname : ['-'].intercalate ("qemu".toList :: [version]) = "qemu".toList ++ '-' :: version := by
        rw [List.intercalate_cons_cons, List.intercalate_singleton, List.append_assoc,
          List.singleton_append]
      rw [hparts, hname, read_token d _ _ hdash, if_neg hnot]
  · have hparts : parts u version label [] = [version].filter (· ≠ []) ++ [cutSlug u label] := by
      have hrest : [cutSlug u label, []].filter (· ≠ []) = [cutSlug u label] := by simp [hcut]
      rw [parts, ← hrest, ← List.filter_append, List.singleton_append]
    rw [hparts, ← List.cons_append, join_concat (by simp)]
    obtain ⟨pre, hpre, hdash⟩ := lastToken_split
      (['-'].intercalate ("qemu".toList :: [version].filter (· ≠ []))) (cutSlug u label)
    rw [hpre, read_token d _ _ hdash]

/-- Of a name with a sanitizer the sanitizer is read. -/
theorem read_sanitized (u : Unicode) (version : List Char) (label : String) (d : Digest)
    {s : String} (hs : s ∈ selections) :
    sanitizerFromStoreName ("qemu-".toList ++ prefixBasename u version label d.text s.toList) =
      s := by
  obtain ⟨hne, hchars⟩ := selection_char hs
  have hdash : '-' ∉ s.toList := fun hmem => absurd (hchars _ hmem) (by decide)
  have hparts : parts u version label s.toList =
      [version, cutSlug u label].filter (· ≠ []) ++ [s.toList] := by
    have hlast : [s.toList].filter (· ≠ []) = [s.toList] := by simp [hne]
    rw [← hlast, ← List.filter_append]
    rfl
  rw [storeName_eq, hparts, ← List.cons_append, join_concat (by simp), read_token d _ _ hdash,
    String.ofList_toList, if_pos hs]

/-- A sanitizer is read back from the name of its build, but for a stock build whose label
was cut to end in a sanitizer's name. -/
theorem sanitizer_read_iff (u : Unicode) (version : List Char)
    (hversion : ∀ c ∈ version, c.isDigit = true ∨ c = '.') (label : String) (d : Digest)
    (s segment : String) (hs : s ∈ sanitizers) (hsegment : prefixSegment s = .ok segment) :
    sanitizerFromStoreName
        ("qemu-".toList ++ prefixBasename u version label d.text segment.toList) = s ↔
      s ≠ "none" ∨ String.ofList (lastToken (cutSlug u label)) ∉ selections := by
  by_cases hstock : s = "none"
  · subst hstock
    obtain rfl : "" = segment := Except.ok.inj hsegment
    have hread := read_stock u hversion label d
    rw [show ([] : List Char) = "".toList from rfl] at hread
    rw [hread]
    have hself : "none" ∉ selections := by decide
    by_cases hmem : String.ofList (lastToken (cutSlug u label)) ∈ selections
    · rw [if_pos hmem]
      refine iff_of_false (fun heq => hself (heq ▸ hmem)) ?_
      rintro (h | h)
      · exact h rfl
      · exact h hmem
    · rw [if_neg hmem]
      exact iff_of_true rfl (.inr hmem)
  · have hmem : s ∈ selections := List.mem_filter.mpr ⟨hs, by simpa using hstock⟩
    have hchecked : prefixSegment s = .ok s := by
      have hall : ∀ s ∈ selections, prefixSegment s = .ok s := by decide
      exact hall s hmem
    rw [hchecked] at hsegment
    cases hsegment
    exact iff_of_true (read_sanitized u version label d hmem) (.inl hstock)

/-! ## A label that is cut -/

def sampleDigest : Digest := ⟨"0123456789ab".toList, by decide, by decide⟩

theorem sanitizer_read_iff_vanilla :
    sanitizerFromStoreName ("qemu-".toList ++
      prefixBasename .ascii "11.0.0".toList "vanilla" sampleDigest.text "".toList) = "none" :=
  (sanitizer_read_iff .ascii "11.0.0".toList (by decide) "vanilla" sampleDigest "none" "" (by decide)
    (by decide)).mpr (.inr (by decide +kernel))

/-- A label of seventy characters. -/
def longLabel : String := "hw-nvme-rework-the-namespace-identify-path-as-found-by-the-ubsanitizer"

/-- Not every stock build is read as one: of a long label the cut leaves a sanitizer's name. -/
theorem cut_reads_sanitizer : ¬ ∀ (u : Unicode) (version : List Char),
    (∀ c ∈ version, c.isDigit = true ∨ c = '.') → ∀ label : String,
      String.ofList (lastToken (slug label).toList) ∉ selections →
      ∀ (d : Digest) (s segment : String), s ∈ sanitizers → prefixSegment s = .ok segment →
        sanitizerFromStoreName
          ("qemu-".toList ++ prefixBasename u version label d.text segment.toList) = s := by
  intro h
  have hread := h .ascii "11.0.0".toList (by decide) longLabel (by decide +kernel) sampleDigest
    "none" "" (by decide) (by decide)
  exact absurd hread (by decide +kernel)

end KdevopsNg.Qemu
