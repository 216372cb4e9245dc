/-
# `Kernel.Identity` — the identity of a build

`bake_identity` of `f/kernel/identity.py`.  It hashes what fixes the bytes of a
build (the `.config` but for its local version, the toolchain, the make flags and
the source tree), appends a label and the hash to the local version of the
`.config`, and turns off the local version git would add.

What the hash, nix, git and make print are parameters: `Sha256` of the hash, and
a `Build` of the rest, which stays the same while a `.config` is baked again.
`syncconfig` leaves the `.config` as it was written.
-/
import KdevopsNg.Common.Slug
import KdevopsNg.Py.Lines

namespace KdevopsNg.Kernel

open Py Text

/-! ## What a build is fixed by -/

/-- A lower-case hexadecimal digit. -/
def isHexDigit (c : Char) : Bool := c.isDigit || decide ('a' ≤ c ∧ c ≤ 'f')

/-- `hashlib.sha256(blob).hexdigest()`. -/
structure Sha256 where
  hexdigest : List Char → List Char
  length_hexdigest : ∀ blob, (hexdigest blob).length = 64
  isHexDigit_hexdigest : ∀ blob, ∀ c ∈ hexdigest blob, isHexDigit c = true

/-- What is fixed besides the `.config`: the make flags, what nix prints as the path of the
toolchain, git as the tree of the source, and make as the version, and as the release of
a `.config`. -/
structure Build where
  makeFlags : List Char
  drvPath : List Char
  tree : List Char
  kernelversion : List Char
  kernelrelease : List Char → List Char

/-! ## The label -/

/-- `_split_trailing_version`. -/
def splitTrailingVersion (u : Unicode) (slug : List Char) : List Char × List Char :=
  -- `$` also matches before a line feed that ends the text
  let body := if slug.getLast? = some '\n' then slug.dropLast else slug
  let digits := leadingDigits u body.reverse
  match digits, body.reverse.drop digits.length with
  | d :: ds, 'v' :: '-' :: head => (head.reverse, '-' :: 'v' :: (d :: ds).reverse)
  | _, _ => (slug, [])

/-- `_fit_head`. -/
def fitHead (text : List Char) (budget : ℤ) : List Char :=
  if budget ≤ 0 then []
  else if text.length ≤ budget then text
  else
    let cut := text.take budget.toNat
    let cut := if '-' ∈ cut then (cut.reverse.dropWhile (· ≠ '-')).tail.reverse else cut
    rstripBy (fun c => c = '-' ∨ c = '.' ∨ c = '_') cut

/-- `_fit_label`. -/
def fitLabel (u : Unicode) (label : List Char) (budget : ℤ) : List Char :=
  if budget ≤ 0 then []
  else
    let (head, suffix) := splitTrailingVersion u label
    if suffix = [] then fitHead label budget
    else
      let fitted := fitHead head (budget - suffix.length)
      if fitted ≠ [] then fitted ++ suffix else suffix.dropWhile (· = '-')

/-! ## The `.config` -/

/-- What a line that sets the local version begins with. -/
def localversionKey : List Char := "CONFIG_LOCALVERSION=".toList

/-- A line that sets the local version. -/
def isLocalversion (line : List Char) : Bool := localversionKey.isPrefixOf line

/-- The line that sets it to a value. -/
def localversionLine (value : List Char) : List Char := localversionKey ++ ('"' :: value ++ ['"'])

/-- The line that turns git's part of the local version off. -/
def autoOff : List Char := "# CONFIG_LOCALVERSION_AUTO is not set".toList

/-- What a line that turns it on begins with. -/
def autoKey : List Char := "CONFIG_LOCALVERSION_AUTO=".toList

/-- A line that turns it on or off. -/
def isLocalversionAuto (line : List Char) : Bool :=
  autoKey.isPrefixOf line || decide (line = autoOff)

/-- `_localversion`. -/
def localversion (configText : List Char) : List Char :=
  match (splitlines configText).find? isLocalversion with
  | some line =>
      stripBy (· = '"') (strip (line.drop localversionKey.length))
  | none => []

/-- `_set_localversion`. -/
def setLocalversion (configText value : List Char) : List Char :=
  writeLines (replaceLines isLocalversion (localversionLine value) (splitlines configText))

/-- `_disable_localversion_auto`. -/
def disableLocalversionAuto (configText : List Char) : List Char :=
  writeLines (replaceLines isLocalversionAuto autoOff (splitlines configText))

/-! ## The digest -/

/-- The flag whose value names the host. -/
def prefixMapFlag : List Char := "-fdebug-prefix-map=".toList

/-- Empty the value of every prefix map flag: with so many characters of a flag still to
copy, and inside its value or not. -/
def maskPrefixMap : ℕ → Bool → List Char → List Char
  | _, _, [] => []
  | n + 1, inValue, c :: cs => c :: maskPrefixMap n inValue cs
  | 0, true, c :: cs =>
      if isSpace c then c :: maskPrefixMap 0 false cs else maskPrefixMap 0 true cs
  | 0, false, c :: cs =>
      if prefixMapFlag.isPrefixOf (c :: cs) then
        c :: maskPrefixMap (prefixMapFlag.length - 1) true cs
      else c :: maskPrefixMap 0 false cs

/-- What is hashed. -/
def blob (b : Build) (configText : List Char) : List Char :=
  let config := ['\n'].intercalate ((splitlines configText).filter fun line => !isLocalversion line)
  let flags := maskPrefixMap 0 false b.makeFlags
  [Char.ofNat 0].intercalate [config, strip b.drvPath, flags, strip b.tree]

/-- `_digest`. -/
def digest (h : Sha256) (b : Build) (configText : List Char) : List Char :=
  (h.hexdigest (blob b configText)).take 12

/-! ## Baking -/

/-- Drop a dash and 12 hexadecimal digits from the end of a text of one line. -/
def stripDigest (s : List Char) : List Char :=
  match s.drop (s.length - 13) with
  | '-' :: hex => if hex.length = 12 ∧ hex.all isHexDigit then s.take (s.length - 13) else s
  | _ => s

/-- What a bake leaves in `.config`, and the digest and the release it reports. -/
structure Baked where
  config : List Char
  digest : List Char
  release : List Char
  deriving DecidableEq, Repr

/-- What is left of the 64 characters of a release for the label. -/
def labelBudget (b : Build) : ℤ := 64 - (strip b.kernelversion).length - 14

/-- `bake_identity`. -/
def bakeIdentity (h : Sha256) (u : Unicode) (b : Build) (configText label : List Char) : Baked :=
  let digest := digest h b configText
  let label := fitLabel u label (labelBudget b)
  let prior := stripDigest (localversion configText)
  let prior := if label ≠ [] ∧ ('-' :: label).isSuffixOf prior then
    prior.take (prior.length - label.length - 1) else prior
  let value := if label ≠ [] then prior ++ '-' :: label ++ '-' :: digest else prior ++ '-' :: digest
  let config := disableLocalversionAuto (setLocalversion configText value)
  ⟨config, digest, strip (b.kernelrelease config)⟩

/-! ## What the label is made of -/

theorem fitHead_subset (text : List Char) (budget : ℤ) : fitHead text budget ⊆ text := by
  have hsuffix : ∀ (p : Char → Bool) (s : List Char), rstripBy p s ⊆ s := fun p s =>
    (List.rdropWhile_prefix p s).subset
  rw [fitHead]
  by_cases hpos : budget ≤ 0
  · rw [if_pos hpos]
    exact List.nil_subset _
  · rw [if_neg hpos]
    by_cases hfits : (text.length : ℤ) ≤ budget
    · rw [if_pos hfits]
      exact fun _ h => h
    · rw [if_neg hfits]
      refine List.Subset.trans (hsuffix _ _) ?_
      by_cases hdash : '-' ∈ text.take budget.toNat
      · rw [if_pos hdash]
        intro c hc
        have hc' := (List.tail_subset _) (List.mem_reverse.mp hc)
        have hcut := List.mem_reverse.mp ((List.dropWhile_suffix _).subset hc')
        exact List.take_subset _ _ hcut
      · rw [if_neg hdash]
        exact List.take_subset _ _

theorem splitTrailingVersion_subset (u : Unicode) (slug : List Char) :
    (splitTrailingVersion u slug).1 ⊆ slug ∧ (splitTrailingVersion u slug).2 ⊆ slug := by
  rw [splitTrailingVersion]
  have hbody : (if slug.getLast? = some '\n' then slug.dropLast else slug) ⊆ slug := by
    by_cases hnl : slug.getLast? = some '\n'
    · rw [if_pos hnl]
      exact List.dropLast_subset slug
    · rw [if_neg hnl]
      exact fun _ h => h
  generalize (if slug.getLast? = some '\n' then slug.dropLast else slug) = body at hbody
  split
  · rename_i d ds head hdigits hrest
    -- the text, read backwards, is the digits, `v-`, and the head
    have hsplit : body.reverse = d :: ds ++ 'v' :: '-' :: head := by
      rw [← hrest, ← hdigits]
      exact (List.prefix_iff_eq_append.mp (List.takeWhile_prefix _)).symm
    have hmem : ∀ c ∈ d :: ds ++ 'v' :: '-' :: head, c ∈ slug := fun c hc =>
      hbody (List.mem_reverse.mp (hsplit ▸ hc))
    refine ⟨fun c hc => hmem c ?_, fun c hc => hmem c ?_⟩
    · simp [List.mem_reverse.mp hc]
    · simp only [List.mem_cons, List.mem_reverse] at hc
      simp only [List.mem_append, List.mem_cons]
      tauto
  · exact ⟨fun _ h => h, List.nil_subset slug⟩

/-- A fitted label has only characters of the label. -/
theorem fitLabel_subset (u : Unicode) (label : List Char) (budget : ℤ) :
    fitLabel u label budget ⊆ label := by
  obtain ⟨hhead, hsuffix⟩ := splitTrailingVersion_subset u label
  rw [fitLabel]
  by_cases hpos : budget ≤ 0
  · rw [if_pos hpos]
    exact List.nil_subset _
  · rw [if_neg hpos]
    by_cases hno : (splitTrailingVersion u label).2 = []
    · simp only [hno, if_true]
      exact fitHead_subset label budget
    · simp only [hno, if_false]
      by_cases hfit : fitHead (splitTrailingVersion u label).1
          (budget - (splitTrailingVersion u label).2.length) = []
      · simp only [hfit, ne_eq, not_true_eq_false, if_false]
        exact List.Subset.trans (List.dropWhile_suffix _).subset hsuffix
      · simp only [ne_eq, hfit, not_false_eq_true, if_true]
        exact List.append_subset.mpr ⟨List.Subset.trans (fitHead_subset _ _) hhead, hsuffix⟩

end KdevopsNg.Kernel
