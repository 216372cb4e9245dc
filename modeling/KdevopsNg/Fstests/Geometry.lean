/-
# `Fstests.Geometry` — the sizes of a section, as mkfs reads them

`section_block_block_size`, `section_sector_size` and `section_is_v4` of
`f/fstests/common.py` read the `MKFS_OPTIONS` of a section with two patterns and a
substring.  What mkfs.xfs makes of the same text is told here from its options
(`MkfsOpt`): a flag, its suboptions, and the blanks between.  A pattern reaches a
size where

    a blank follows the flag        -b size=4096, and not -bsize=4096
    the size is the first           -s size=512,x, and not -s x,size=512

and reads its digits without the suffix (`optionSize_render`).  A block size that is
not reached counts as the default, 4096, and a sector size as not given.  The
substring `crc=0` is found wherever it stands.

`readsGeometry_iff` says on which options the three readers agree with mkfs, and the
sections that are gated out are those it could not use.
-/
import KdevopsNg.Fstests.Render
import KdevopsNg.Py.Digits

namespace KdevopsNg.Fstests

open Py
open Py.Text (isSpace leadingNat leadingDigits digitsToNat isInfix isInfix_iff infix_split
  infix_of_front)

/-! ## The options -/

/-- A suboption: a key, and a value where it has one. -/
structure SubOpt where
  key : List Char
  value : Option (List Char)
  deriving DecidableEq

def SubOpt.text (s : SubOpt) : List Char :=
  match s.value with
  | some v => s.key ++ '=' :: v
  | none => s.key

/-- An option: its flag, the blanks before its suboptions, and those after them. -/
structure MkfsOpt where
  flag : Char
  gap : List Char
  subs : List SubOpt
  after : List Char
  deriving DecidableEq

/-- The suboptions, between commas. -/
def subsText : List SubOpt → List Char
  | [] => []
  | s :: ss => s.text ++ ss.flatMap fun s => ',' :: s.text

def MkfsOpt.text (o : MkfsOpt) : List Char := '-' :: o.flag :: (o.gap ++ subsText o.subs)

/-- The text of the options. -/
def render : List MkfsOpt → List Char
  | [] => []
  | o :: opts => o.text ++ (o.after ++ render opts)

def isBlank (c : Char) : Bool := c = ' ' || c = '\t'

/-- The flags that take no argument. -/
def bareFlags : List Char := ['K', 'N', 'V', 'f', 'q']

/-- A decimal number, with a suffix for kilobytes or megabytes. -/
def SizeText (v : List Char) : Prop :=
  ∃ digits suffix, v = digits ++ suffix ∧ digits ≠ [] ∧ digits.head? ≠ some '0' ∧
    (∀ c ∈ digits, c.isDigit = true) ∧ suffix ∈ [[], ['k'], ['m']]

/-- An option mkfs takes: sizes are given by their number, and crc as 0 or 1. -/
structure MkfsOpt.Valid (o : MkfsOpt) : Prop where
  flag : isSpace o.flag = false
  bare : o.subs = [] ↔ o.flag ∈ bareFlags
  bareGap : o.subs = [] → o.gap = []
  gap : ∀ c ∈ o.gap, isBlank c = true
  after : ∀ c ∈ o.after, isBlank c = true
  key : ∀ s ∈ o.subs, s.key ≠ [] ∧ '=' ∉ s.key
  word : ∀ s ∈ o.subs, ∀ c ∈ s.text, isSpace c = false ∧ c ≠ ','
  size : o.flag = 'b' ∨ o.flag = 's' → ∀ s ∈ o.subs, s.key ≠ "log".toList ∧
    (s.key = "size".toList → ∃ v, s.value = some v ∧ SizeText v)
  crc : o.flag = 'm' → ∀ s ∈ o.subs, s.key = "crc".toList →
    s.value = some ['0'] ∨ s.value = some ['1']

/-- Blanks keep an option from the next. -/
def Separated : List MkfsOpt → Prop
  | [] => True
  | o :: opts => (opts = [] ∨ o.after ≠ []) ∧ Separated opts

/-- A size where a suboption gives one, and whether it is within reach of the pattern. -/
def SubOpt.size (reach : Bool) (s : SubOpt) : List (Bool × List Char) :=
  if s.key = "size".toList then [(reach, s.value.getD [])] else []

def MkfsOpt.sizes (o : MkfsOpt) : List (Bool × List Char) :=
  match o.subs with
  | [] => []
  | s :: ss => s.size (!o.gap.isEmpty) ++ ss.flatMap (SubOpt.size false)

/-- The sizes the options of a flag give. -/
def sizes (flag : Char) (opts : List MkfsOpt) : List (Bool × List Char) :=
  opts.flatMap fun o => if o.flag = flag then o.sizes else []

/-- The `crc` suboptions of `-m`. -/
def crcs (opts : List MkfsOpt) : List SubOpt :=
  opts.flatMap fun o => if o.flag = 'm' then o.subs.filter fun s => s.key = "crc".toList else []

/-- Options mkfs takes: none gives a value twice. -/
structure WellFormed (lead : List Char) (opts : List MkfsOpt) : Prop where
  lead : ∀ c ∈ lead, isBlank c = true
  valid : ∀ o ∈ opts, o.Valid
  separated : Separated opts
  blockOnce : (sizes 'b' opts).length ≤ 1
  sectorOnce : (sizes 's' opts).length ≤ 1
  crcOnce : (crcs opts).length ≤ 1

/-! ## What mkfs makes of them -/

/-- The number that digits write. -/
def decimal (digits : List Char) : ℕ := digits.foldl (fun n c => 10 * n + (c.toNat - 48)) 0

/-- The factor of a suffix. -/
def factor : List Char → ℕ
  | ['k'] => 1024
  | ['m'] => 1024 * 1024
  | _ => 1

/-- The bytes a size says. -/
def sizeBytes (v : List Char) : ℕ :=
  decimal (v.takeWhile Char.isDigit) * factor (v.dropWhile Char.isDigit)

/-- The block size of the filesystem. -/
def mkfsBlockSize (opts : List MkfsOpt) : ℕ :=
  ((sizes 'b' opts).head?.map fun p => sizeBytes p.2).getD 4096

/-- The sector size, where it is given. -/
def mkfsSectorSize (opts : List MkfsOpt) : Option ℕ :=
  (sizes 's' opts).head?.map fun p => sizeBytes p.2

/-- `-m crc=0`. -/
def CrcOff (opts : List MkfsOpt) : Prop := ∃ s ∈ crcs opts, s.value = some ['0']

/-- A geometry the devices, or the kernel, cannot do. -/
def Unusable (sector : ℤ) (opts : List MkfsOpt) : Prop :=
  (mkfsBlockSize opts : ℤ) < sector ∨
  (∃ n, mkfsSectorSize opts = some n ∧ (n : ℤ) < sector) ∨
  CrcOff opts ∧ guestPageSize < mkfsBlockSize opts

/-- Fewer devices than a section needs. -/
def TooFew (logwrites : Bool) (devices : List Device) (block : String) : Prop :=
  let need := 2 + (sectionExternalDevs block).length
  (sectionExternalDevs block ≠ [] ∧ devices.length < need) ∨
    (logwrites = true ∧ devices.length < need + 1)

/-- The readers agree with mkfs, and a section is gated out exactly when its geometry
cannot be used or the devices do not suffice. -/
structure ReadsGeometry (u : Unicode) (block sectionName : String) (opts : List MkfsOpt) :
    Prop where
  blockSize : sectionBlockBlockSize u block sectionName = mkfsBlockSize opts
  sectorSize : sectionSectorSize u block sectionName = mkfsSectorSize opts
  crc : sectionIsV4 block sectionName = true ↔ CrcOff opts
  gate : ∀ logwrites devices, (skipReason u logwrites devices block sectionName).isSome = true ↔
    Unusable (deviceSector devices) opts ∨ TooFew logwrites devices block

/-- The block size is within reach and has no suffix, or out of reach and the default. -/
def BlockSpelled (opts : List MkfsOpt) : Prop :=
  ∀ p ∈ sizes 'b' opts, if p.1 = true then p.2.all Char.isDigit = true else sizeBytes p.2 = 4096

/-- The sector size is within reach and has no suffix. -/
def SectorSpelled (opts : List MkfsOpt) : Prop :=
  ∀ p ∈ sizes 's' opts, p.1 = true ∧ p.2.all Char.isDigit = true

/-- The text `crc=0` stands in no option, unless crc is off. -/
def CrcSpelled (opts : List MkfsOpt) : Prop :=
  CrcOff opts ∨ ∀ o ∈ opts, ¬ "crc=0".toList <:+: o.text

/-! ## What the pattern finds -/

theorem isSpace_of_isBlank {c : Char} (h : isBlank c = true) : isSpace c = true := by
  rcases Bool.or_eq_true _ _ ▸ h with h | h
  · rw [of_decide_eq_true h]
    rfl
  · rw [of_decide_eq_true h]
    rfl

/-- A text that begins with white space, or is empty. -/
def Ends (t : List Char) : Prop := ∀ c, t.head? = some c → isBlank c = true

/-- No size follows the white space a text begins with. -/
def NoSize (t : List Char) : Prop := ¬ "size=".toList <+: t.dropWhile isSpace

section
variable {u : Unicode} {flag : Char}

theorem optionSizeHere_ne {c : Char} (h : c ≠ '-') (cs : List Char) :
    optionSizeHere u flag (c :: cs) = none := by
  rw [optionSizeHere]
  rintro f c' cs' heq
  exact absurd (List.cons.inj heq).1 h

/-- White space is passed over. -/
theorem optionSize_space {ws : List Char} (h : ∀ c ∈ ws, isSpace c = true) (t : List Char) :
    optionSize u flag (ws ++ t) = optionSize u flag t := by
  induction ws with
  | nil => rfl
  | cons c ws ih =>
      have hne : c ≠ '-' := by
        rintro rfl
        exact absurd (h '-' List.mem_cons_self) (by decide)
      rw [List.cons_append, optionSize, optionSizeHere_ne hne, Option.none_or]
      exact ih fun x hx => h x (List.mem_cons_of_mem _ hx)

/-- A word that does not end in the flag, or that no size follows, is passed over. -/
theorem optionSize_word {w t : List Char} (hw : ∀ c ∈ w, isSpace c = false)
    (hflag : isSpace flag = false) (ht : Ends t) (h : ¬ ['-', flag] <:+ w ∨ NoSize t) :
    optionSize u flag (w ++ t) = optionSize u flag t := by
  induction w with
  | nil => rfl
  | cons c w ih =>
      have hrest : optionSize u flag (w ++ t) = optionSize u flag t :=
        ih (fun x hx => hw x (List.mem_cons_of_mem _ hx))
          (h.imp_left fun hs hsuffix => hs (hsuffix.trans (List.suffix_cons c w)))
      suffices hhere : optionSizeHere u flag (c :: (w ++ t)) = none by
        rw [List.cons_append, optionSize, hhere, Option.none_or, hrest]
      by_cases hc : c = '-'
      · subst hc
        match w, t with
        | [], [] => rfl
        | [], [x] => rfl
        | [], x :: y :: t =>
            -- the flag would be white space
            have hx := isSpace_of_isBlank (ht x rfl)
            have hne : x ≠ flag := by
              rintro rfl
              rw [hflag] at hx
              cases hx
            exact if_neg fun hall => hne hall.1
        | [f], [] => rfl
        | [f], x :: t =>
            refine if_neg fun hall => ?_
            obtain ⟨rfl, -, hsize⟩ := hall
            rcases h with hs | hs
            · exact hs (List.suffix_refl _)
            · refine hs ?_
              rw [List.dropWhile_cons_of_pos (isSpace_of_isBlank (ht x rfl))]
              exact List.isPrefixOf_iff_prefix.mp hsize
        | f :: y :: w, t =>
            have hy := hw y (List.mem_cons_of_mem _ (List.mem_cons_of_mem _ List.mem_cons_self))
            refine if_neg fun hall => ?_
            rw [hy] at hall
            exact absurd hall.2.1 (by decide)
      · exact optionSizeHere_ne hc _

/-! ## A size -/

/-- The digits of a size, and what follows them. -/
theorem sizeText_cases {v : List Char} (h : SizeText v) :
    ∃ digits suffix, v = digits ++ suffix ∧ digits ≠ [] ∧ digits.head? ≠ some '0' ∧
      v.takeWhile Char.isDigit = digits ∧ v.dropWhile Char.isDigit = suffix ∧
      (∀ c ∈ digits, c.isDigit = true) ∧ suffix ∈ [[], ['k'], ['m']] := by
  obtain ⟨digits, suffix, rfl, hne, hzero, hdigits, hsuffix⟩ := h
  have htail : suffix.takeWhile Char.isDigit = [] ∧ suffix.dropWhile Char.isDigit = suffix := by
    simp only [List.mem_cons, List.not_mem_nil, or_false] at hsuffix
    rcases hsuffix with rfl | rfl | rfl <;> exact ⟨rfl, rfl⟩
  refine ⟨digits, suffix, rfl, hne, hzero, ?_, ?_, hdigits, hsuffix⟩
  · rw [List.takeWhile_append_of_pos hdigits, htail.1, List.append_nil]
  · rw [List.dropWhile_append_of_pos hdigits, htail.2]

/-- A text a size ends before. -/
def AfterSize (r : List Char) : Prop := ∀ c, r.head? = some c → isBlank c = true ∨ c = ','

theorem leadingNat_size (hu : u.Ascii) {v r : List Char} (h : SizeText v) (hr : AfterSize r) :
    leadingNat u (v ++ r) = some (decimal (v.takeWhile Char.isDigit)) := by
  obtain ⟨digits, suffix, hv, hne, -, htake, -, hdigits, hsuffix⟩ := sizeText_cases h
  have hstop : ∀ c, (suffix ++ r).head? = some c → u.digit? c = none := by
    intro c hc
    simp only [List.mem_cons, List.not_mem_nil, or_false] at hsuffix
    rcases hsuffix with rfl | rfl | rfl
    · rcases hr c hc with hb | rfl
      · rcases Bool.or_eq_true _ _ ▸ hb with hb | hb
        · rw [of_decide_eq_true hb]
          exact (hu ' ' (by decide)).1
        · rw [of_decide_eq_true hb]
          exact (hu '\t' (by decide)).1
      · exact (hu ',' (by decide)).1
    · cases hc
      exact (hu 'k' (by decide)).1
    · cases hc
      exact (hu 'm' (by decide)).1
  have hlead : leadingDigits u (v ++ r) = digits := by
    rw [hv, List.append_assoc, Text.leadingDigits_append (Text.isSome_digit? hu hdigits) hstop]
  have hvalue : digitsToNat u digits = decimal digits := Text.digitsToNat_of_isDigit hu hdigits
  rw [leadingNat, hlead, htake, ← hvalue]
  cases digits with
  | nil => exact absurd rfl hne
  | cons c ds => rfl

/-- The pattern at a flag that a size follows. -/
theorem optionSize_reached (hu : u.Ascii) {gap v r : List Char} (hgap : gap ≠ [])
    (hblank : ∀ c ∈ gap, isBlank c = true) (h : SizeText v) (hr : AfterSize r) :
    optionSize u flag ('-' :: flag :: (gap ++ ("size=".toList ++ (v ++ r)))) =
      some (decimal (v.takeWhile Char.isDigit)) := by
  cases gap with
  | nil => exact absurd rfl hgap
  | cons c gap =>
      have hspace : ∀ x ∈ gap, isSpace x = true := fun x hx =>
        isSpace_of_isBlank (hblank x (List.mem_cons_of_mem _ hx))
      have hdrop : (gap ++ ("size=".toList ++ (v ++ r))).dropWhile isSpace =
          "size=".toList ++ (v ++ r) := by
        rw [List.dropWhile_append_of_pos hspace]
        rfl
      have hprefix : "size=".toList.isPrefixOf ("size=".toList ++ (v ++ r)) = true :=
        List.isPrefixOf_iff_prefix.mpr (List.prefix_append _ _)
      have hhere : optionSizeHere u flag ('-' :: flag :: c ::
          (gap ++ ("size=".toList ++ (v ++ r)))) =
            some (decimal (v.takeWhile Char.isDigit)) := by
        rw [optionSizeHere, hdrop, if_pos ⟨rfl, isSpace_of_isBlank (hblank c List.mem_cons_self), hprefix⟩]
        exact leadingNat_size hu h hr
      rw [List.cons_append, optionSize, hhere, Option.some_or]

/-! ## An option -/

theorem size_reach {reach : Bool} {s : SubOpt} {p : Bool × List Char} (h : p ∈ s.size reach) :
    p.1 = reach := by
  rw [SubOpt.size] at h
  split at h
  · rw [List.mem_singleton.mp h]
  · exact (List.not_mem_nil h).elim

theorem find_far (ss : List SubOpt) : (ss.flatMap (SubOpt.size false)).find? (·.1) = none := by
  rw [List.find?_eq_none]
  intro p hp
  obtain ⟨s, -, hs⟩ := List.mem_flatMap.mp hp
  rw [size_reach hs]
  exact Bool.false_ne_true

/-- The suboptions are a word. -/
theorem subsText_word {ss : List SubOpt} (h : ∀ s ∈ ss, ∀ c ∈ s.text, isSpace c = false ∧ c ≠ ',') :
    ∀ c ∈ subsText ss, isSpace c = false := by
  cases ss with
  | nil => exact fun c hc => (List.not_mem_nil hc).elim
  | cons s ss =>
      intro c hc
      rcases List.mem_append.mp hc with hc | hc
      · exact (h s List.mem_cons_self c hc).1
      · obtain ⟨s', hs', hc⟩ := List.mem_flatMap.mp hc
        rcases List.mem_cons.mp hc with rfl | hc
        · rfl
        · exact (h s' (List.mem_cons_of_mem _ hs') c hc).1

/-- What follows the first suboption ends a size. -/
theorem afterSize_rest {ss : List SubOpt} {rest : List Char} (hrest : Ends rest) :
    AfterSize ((ss.flatMap fun s => ',' :: s.text) ++ rest) := by
  intro c hc
  cases ss with
  | nil => exact .inl (hrest c hc)
  | cons s ss =>
      cases hc
      exact .inr rfl

/-- Only the key `size` begins with the pattern. -/
theorem key_of_pattern {s : SubOpt} {r : List Char} (hkey : '=' ∉ s.key) (hr : AfterSize r)
    (h : "size=".toList <+: s.text ++ r) : s.key = "size".toList := by
  have hchars : ∀ c ∈ "size=".toList, isBlank c = false ∧ c ≠ ',' :=
    List.forall_iff_forall_mem.mp (by decide)
  have htext : "size=".toList <+: s.text := by
    rcases List.prefix_or_prefix_of_prefix h (List.prefix_append s.text r) with hp | ⟨p, hp⟩
    · exact hp
    · cases p with
      | nil => exact (List.append_nil _ ▸ hp) ▸ List.prefix_refl _
      | cons c p =>
          -- the text ends within the pattern, which would go on with a comma or a blank
          obtain ⟨q, hq⟩ := h
          rw [← hp, List.append_assoc, List.append_cancel_left_eq] at hq
          obtain ⟨hblank, hcomma⟩ := hchars c (hp ▸ List.mem_append_right _ List.mem_cons_self)
          rcases hr c (by rw [← hq]; rfl) with hb | rfl
          · rw [hblank] at hb
            cases hb
          · exact absurd rfl hcomma
  obtain ⟨q, hq⟩ := htext
  have hmem : '=' ∈ s.text := hq ▸ List.mem_append_left _ (by decide)
  rw [SubOpt.text] at hq hmem
  cases hvalue : s.value with
  | none =>
      rw [hvalue] at hmem
      exact absurd hmem hkey
  | some v =>
      rw [hvalue] at hq
      have htake := congrArg (List.takeWhile (· ≠ '=')) hq
      have hne : ∀ c ∈ s.key, decide (c ≠ '=') = true := fun c hc =>
        decide_eq_true (fun heq => hkey (heq ▸ hc))
      rw [List.takeWhile_append_of_pos hne, List.takeWhile_cons_of_neg (by decide),
        List.append_nil] at htake
      rw [← htake]
      rfl

/-- What the pattern finds in an option, and then in the rest. -/
theorem optionSize_option (hu : u.Ascii) (hsized : flag = 'b' ∨ flag = 's') {o : MkfsOpt}
    (ho : o.Valid) {rest : List Char} (hends : Ends rest) (hnone : NoSize rest) :
    optionSize u flag (o.text ++ rest) =
      (((if o.flag = flag then o.sizes else []).find? (·.1)).map
        fun p => decimal (p.2.takeWhile Char.isDigit)).or (optionSize u flag rest) := by
  have hflag : isSpace flag = false := by rcases hsized with rfl | rfl <;> rfl
  have hword := subsText_word ho.word
  have hhead : ∀ c ∈ ['-', o.flag], isSpace c = false := by
    simp only [List.mem_cons, List.not_mem_nil, or_false]
    rintro c (rfl | rfl)
    · rfl
    · exact ho.flag
  by_cases hgap : o.gap = []
  · -- one word, in which no size is within reach
    have hone : optionSize u flag (o.text ++ rest) = optionSize u flag rest := by
      refine optionSize_word ?_ hflag hends (.inr hnone)
      rw [MkfsOpt.text, hgap]
      intro c hc
      rcases List.mem_append.mp (show c ∈ ['-', o.flag] ++ subsText o.subs from hc) with hc | hc
      · exact hhead c hc
      · exact hword c hc
    have hfar : o.sizes.find? (·.1) = none := by
      rw [MkfsOpt.sizes, hgap]
      cases o.subs with
      | nil => rfl
      | cons s ss => exact find_far (s :: ss)
    rw [hone]
    by_cases hf : o.flag = flag
    · rw [if_pos hf, hfar]
      rfl
    · rw [if_neg hf]
      rfl
  have hsubs : o.subs ≠ [] := fun h => hgap (ho.bareGap h)
  obtain ⟨s, ss, hss⟩ := List.exists_cons_of_ne_nil hsubs
  have hspace : ∀ c ∈ o.gap, isSpace c = true := fun c hc => isSpace_of_isBlank (ho.gap c hc)
  have htext : o.text ++ rest = ['-', o.flag] ++ (o.gap ++ (subsText o.subs ++ rest)) := by
    rw [MkfsOpt.text, List.cons_append, List.cons_append, List.append_assoc]
    rfl
  have hafter : Ends (o.gap ++ (subsText o.subs ++ rest)) := by
    intro c hc
    obtain ⟨x, gap, hx⟩ := List.exists_cons_of_ne_nil hgap
    rw [hx] at hc
    cases hc
    exact ho.gap _ (hx ▸ List.mem_cons_self)
  have hpast : (¬ ['-', flag] <:+ ['-', o.flag] ∨ NoSize (o.gap ++ (subsText o.subs ++ rest))) →
      optionSize u flag (o.text ++ rest) = optionSize u flag rest := by
    intro hno
    rw [htext, optionSize_word hhead hflag hafter hno, optionSize_space hspace]
    exact optionSize_word hword hflag hends (.inr hnone)
  by_cases hf : o.flag = flag
  · have hs := ho.size (hf ▸ hsized) s (hss ▸ List.mem_cons_self)
    have hsizes : o.sizes = s.size (!o.gap.isEmpty) ++ ss.flatMap (SubOpt.size false) := by
      rw [MkfsOpt.sizes, hss]
    rw [if_pos hf, hsizes]
    by_cases hkey : s.key = "size".toList
    · obtain ⟨v, hv, hsize⟩ := hs.2 hkey
      have hsub : subsText o.subs ++ rest =
          "size=".toList ++ (v ++ ((ss.flatMap fun s => ',' :: s.text) ++ rest)) := by
        rw [hss, subsText, SubOpt.text, hv, hkey]
        simp [List.append_assoc]
      rw [htext, hsub, hf]
      refine (optionSize_reached hu hgap ho.gap hsize (afterSize_rest hends)).trans ?_
      have hreach : (!o.gap.isEmpty) = true := by
        rw [Bool.not_eq_true', ← Bool.not_eq_true, List.isEmpty_iff]
        exact hgap
      have hfound : s.size (!o.gap.isEmpty) = [(true, v)] := by
        rw [SubOpt.size, if_pos hkey, hreach, hv]
        rfl
      rw [hfound]
      rfl
    · have hfar : (s.size (!o.gap.isEmpty) ++ ss.flatMap (SubOpt.size false)).find? (·.1) =
          none := by
        rw [SubOpt.size, if_neg hkey]
        exact find_far ss
      rw [hfar, hpast (.inr ?_)]
      · rfl
      · rw [NoSize, List.dropWhile_append_of_pos hspace]
        have hfirst : (subsText o.subs ++ rest).dropWhile isSpace =
            s.text ++ ((ss.flatMap fun s => ',' :: s.text) ++ rest) := by
          rw [hss, subsText, List.append_assoc]
          have hne : s.text ≠ [] := by
            have hk := (ho.key s (hss ▸ List.mem_cons_self)).1
            rw [SubOpt.text]
            cases s.value with
            | none => exact hk
            | some v => exact List.append_ne_nil_of_left_ne_nil hk _
          obtain ⟨c, t, hc⟩ := List.exists_cons_of_ne_nil hne
          have hspc := (ho.word s (hss ▸ List.mem_cons_self) c (hc ▸ List.mem_cons_self)).1
          rw [hc, List.cons_append, List.dropWhile_cons_of_neg]
          rw [hspc]
          exact Bool.false_ne_true
        rw [hfirst]
        exact fun hp => hkey (key_of_pattern (ho.key s (hss ▸ List.mem_cons_self)).2
          (afterSize_rest hends) hp)
  · rw [if_neg hf]
    refine hpast (.inl ?_)
    rintro ⟨p, hp⟩
    have hlast := congrArg List.getLast? hp
    rw [List.getLast?_append] at hlast
    exact hf (Option.some.inj hlast).symm

/-! ## The options -/

theorem render_head (opts : List MkfsOpt) {c : Char} (h : (render opts).head? = some c) :
    c = '-' := by
  cases opts with
  | nil => cases h
  | cons o opts => exact (Option.some.inj h).symm

/-- What the pattern finds in options: the first size within reach. -/
theorem optionSize_render (hu : u.Ascii) (hsized : flag = 'b' ∨ flag = 's')
    {opts : List MkfsOpt} (hvalid : ∀ o ∈ opts, o.Valid) (hsep : Separated opts) :
    optionSize u flag (render opts) =
      ((sizes flag opts).find? (·.1)).map fun p => decimal (p.2.takeWhile Char.isDigit) := by
  induction opts with
  | nil => rfl
  | cons o opts ih =>
      have ho := hvalid o List.mem_cons_self
      have hspace : ∀ c ∈ o.after, isSpace c = true := fun c hc =>
        isSpace_of_isBlank (ho.after c hc)
      have hends : Ends (o.after ++ render opts) := by
        intro c hc
        rcases hsep.1 with rfl | hne
        · rw [render, List.append_nil] at hc
          exact ho.after c (List.mem_of_mem_head? hc)
        · obtain ⟨x, ws, hx⟩ := List.exists_cons_of_ne_nil hne
          rw [hx] at hc
          cases hc
          exact ho.after _ (hx ▸ List.mem_cons_self)
      have hnone : NoSize (o.after ++ render opts) := by
        rw [NoSize, List.dropWhile_append_of_pos hspace]
        rintro ⟨q, hq⟩
        cases hr : render opts with
        | nil =>
            rw [hr] at hq
            cases hq
        | cons c t =>
            have hc := render_head opts (c := c) (by rw [hr]; rfl)
            rw [hr, hc] at hq
            cases hq
      have hcons : sizes flag (o :: opts) =
          (if o.flag = flag then o.sizes else []) ++ sizes flag opts := List.flatMap_cons
      rw [render, optionSize_option hu hsized ho hends hnone, optionSize_space hspace,
        ih (fun x hx => hvalid x (List.mem_cons_of_mem _ hx)) hsep.2, hcons, List.find?_append]
      cases (if o.flag = flag then o.sizes else []).find? (·.1) <;> rfl

/-- Where a size is given once, it is what the pattern finds if it is within reach. -/
theorem size_once {ps : List (Bool × List Char)} (h : ps.length ≤ 1) :
    ps = [] ∨ ∃ p, ps = [p] := by
  match ps with
  | [] => exact .inl rfl
  | [p] => exact .inr ⟨p, rfl⟩
  | _ :: _ :: _ => exact absurd h (by simp)

/-- The sizes of a valid option of the flag are sizes. -/
theorem sizeText_of_mem (hsized : flag = 'b' ∨ flag = 's') {opts : List MkfsOpt}
    (hvalid : ∀ o ∈ opts, o.Valid) {p : Bool × List Char} (hp : p ∈ sizes flag opts) :
    SizeText p.2 := by
  obtain ⟨o, ho, hp⟩ := List.mem_flatMap.mp hp
  by_cases hf : o.flag = flag
  · rw [if_pos hf] at hp
    have hof := (hvalid o ho).size (hf ▸ hsized)
    have hsub : ∀ reach, ∀ s ∈ o.subs, p ∈ s.size reach → SizeText p.2 := by
      intro reach s hs hmem
      rw [SubOpt.size] at hmem
      by_cases hkey : s.key = "size".toList
      · rw [if_pos hkey] at hmem
        obtain ⟨v, hv, hsize⟩ := (hof s hs).2 hkey
        rw [List.mem_singleton.mp hmem, hv]
        exact hsize
      · rw [if_neg hkey] at hmem
        exact (List.not_mem_nil hmem).elim
    rw [MkfsOpt.sizes] at hp
    cases hss : o.subs with
    | nil =>
        rw [hss] at hp
        exact (List.not_mem_nil hp).elim
    | cons s ss =>
        rw [hss] at hp
        rcases List.mem_append.mp hp with hp | hp
        · exact hsub _ s (hss ▸ List.mem_cons_self) hp
        · obtain ⟨s', hs', hp⟩ := List.mem_flatMap.mp hp
          exact hsub _ s' (hss ▸ List.mem_cons_of_mem _ hs') hp
  · rw [if_neg hf] at hp
    exact (List.not_mem_nil hp).elim

/-- The number a size writes is not 0. -/
theorem decimal_pos {digits : List Char} (hne : digits ≠ []) (hzero : digits.head? ≠ some '0')
    (h : ∀ c ∈ digits, c.isDigit = true) : 0 < decimal digits := by
  have hgrow : ∀ (ds : List Char) (n : ℕ), 0 < n →
      0 < ds.foldl (fun n c => 10 * n + (c.toNat - 48)) n := by
    intro ds
    induction ds with
    | nil => exact fun n hn => hn
    | cons c ds ih =>
        intro n hn
        exact ih _ (Nat.lt_of_lt_of_le (by omega : 0 < 10 * n) (Nat.le_add_right _ _))
  cases digits with
  | nil => exact absurd rfl hne
  | cons c ds =>
      have hc := h c List.mem_cons_self
      have hle : '0'.toNat ≤ c.toNat :=
        UInt32.le_iff_toNat_le.mp (of_decide_eq_true ((Bool.and_eq_true _ _ ▸ hc).1))
      have hne : c.toNat ≠ 48 := fun heq =>
        hzero (congrArg some (Char.toNat_inj.mp heq))
      have hpos : 48 < c.toNat := lt_of_le_of_ne hle (Ne.symm hne)
      refine hgrow ds _ ?_
      show 0 < 10 * 0 + (c.toNat - 48)
      omega

/-- Without its suffix a size is as many bytes only where it has none. -/
theorem decimal_eq_sizeBytes_iff {v : List Char} (h : SizeText v) :
    decimal (v.takeWhile Char.isDigit) = sizeBytes v ↔ v.all Char.isDigit = true := by
  obtain ⟨digits, suffix, hv, hne, hzero, htake, hdrop, hdigits, hsuffix⟩ := sizeText_cases h
  have hpos := decimal_pos hne hzero hdigits
  have hall : v.all Char.isDigit = suffix.all Char.isDigit := by
    rw [hv, List.all_append, List.all_eq_true.mpr hdigits, Bool.true_and]
  rw [sizeBytes, htake, hdrop, hall]
  simp only [List.mem_cons, List.not_mem_nil, or_false] at hsuffix
  rcases hsuffix with rfl | rfl | rfl
  · simp [factor]
  · have hk : (['k'].all Char.isDigit) = false := rfl
    rw [hk, factor]
    simp only [Bool.false_eq_true, iff_false]
    omega
  · have hm : (['m'].all Char.isDigit) = false := rfl
    rw [hm, factor]
    simp only [Bool.false_eq_true, iff_false]
    omega

/-! ## The readers against mkfs -/

theorem blockSize_iff (hu : u.Ascii) {lead : List Char} {opts : List MkfsOpt}
    (hwf : WellFormed lead opts) :
    (optionSize u 'b' (render opts)).getD 4096 = mkfsBlockSize opts ↔ BlockSpelled opts := by
  rw [optionSize_render hu (.inl rfl) hwf.valid hwf.separated, mkfsBlockSize, BlockSpelled]
  rcases size_once hwf.blockOnce with h | ⟨⟨reach, v⟩, h⟩
  · simp [h]
  · have hsize : SizeText v :=
      sizeText_of_mem (.inl rfl) hwf.valid (p := (reach, v)) (h ▸ List.mem_singleton_self _)
    rw [h]
    cases reach with
    | true => simpa using decimal_eq_sizeBytes_iff hsize
    | false =>
        constructor
        · intro heq p hp
          cases List.mem_singleton.mp hp
          rw [if_neg Bool.false_ne_true]
          exact heq.symm
        · intro hall
          have hv := hall (false, v) (List.mem_singleton_self _)
          rw [if_neg Bool.false_ne_true] at hv
          exact hv.symm

theorem sectorSize_iff (hu : u.Ascii) {lead : List Char} {opts : List MkfsOpt}
    (hwf : WellFormed lead opts) :
    optionSize u 's' (render opts) = mkfsSectorSize opts ↔ SectorSpelled opts := by
  rw [optionSize_render hu (.inr rfl) hwf.valid hwf.separated, mkfsSectorSize, SectorSpelled]
  rcases size_once hwf.sectorOnce with h | ⟨⟨reach, v⟩, h⟩
  · simp [h]
  · have hsize : SizeText v :=
      sizeText_of_mem (.inr rfl) hwf.valid (p := (reach, v)) (h ▸ List.mem_singleton_self _)
    rw [h]
    cases reach with
    | true => simpa using decimal_eq_sizeBytes_iff hsize
    | false => simp

/-- A needle without blanks stands in the options where it stands in one of them. -/
theorem infix_render {p : List Char} (hp : p ≠ []) (hblank : ∀ c ∈ p, isBlank c = false)
    {opts : List MkfsOpt} (hvalid : ∀ o ∈ opts, o.Valid) (hsep : Separated opts) :
    p <:+: render opts ↔ ∃ o ∈ opts, p <:+: o.text := by
  induction opts with
  | nil =>
      constructor
      · intro h
        exact absurd (List.infix_nil.mp h) hp
      · rintro ⟨o, ho, -⟩
        exact (List.not_mem_nil ho).elim
  | cons o opts ih =>
      have hafter := (hvalid o List.mem_cons_self).after
      have hrest := ih (fun x hx => hvalid x (List.mem_cons_of_mem _ hx)) hsep.2
      rw [render]
      constructor
      · intro h
        suffices hor : p <:+: o.text ∨ p <:+: render opts by
          rcases hor with hor | hor
          · exact ⟨o, List.mem_cons_self, hor⟩
          · obtain ⟨o', ho', hinfix⟩ := hrest.mp hor
            exact ⟨o', List.mem_cons_of_mem _ ho', hinfix⟩
        cases hws : o.after with
        | nil =>
            rcases hsep.1 with rfl | hne
            · rw [hws, render, List.append_nil, List.append_nil] at h
              exact .inl h
            · exact absurd hws hne
        | cons c ws =>
            have hc : c ∉ p := fun hmem => by
              have hb := hafter c (hws ▸ List.mem_cons_self)
              rw [hblank c hmem] at hb
              cases hb
            rw [hws] at h
            rcases infix_split hc h with h | h
            · exact .inl h
            · exact .inr ((infix_of_front hp hblank fun x hx =>
                hafter x (hws ▸ List.mem_cons_of_mem _ hx)).mp h)
      · rintro ⟨o', ho', hinfix⟩
        rcases List.mem_cons.mp ho' with rfl | ho'
        · exact hinfix.trans (List.prefix_append _ _).isInfix
        · refine (hrest.mpr ⟨o', ho', hinfix⟩).trans ?_
          rw [← List.append_assoc]
          exact (List.suffix_append _ _).isInfix

/-- Where crc is off, the text says so. -/
theorem crcOff_infix {opts : List MkfsOpt} (h : CrcOff opts) :
    ∃ o ∈ opts, "crc=0".toList <:+: o.text := by
  obtain ⟨s, hs, hv⟩ := h
  obtain ⟨o, ho, hs⟩ := List.mem_flatMap.mp hs
  by_cases hf : o.flag = 'm'
  · rw [if_pos hf] at hs
    obtain ⟨hs, hkey⟩ := List.mem_filter.mp hs
    have htext : s.text = "crc=0".toList := by
      rw [SubOpt.text, hv, of_decide_eq_true hkey]
      rfl
    have hsubs : s.text <:+: subsText o.subs := by
      cases hss : o.subs with
      | nil =>
          rw [hss] at hs
          exact (List.not_mem_nil hs).elim
      | cons x xs =>
          rw [hss] at hs
          rcases List.mem_cons.mp hs with rfl | hs
          · exact (List.prefix_append _ _).isInfix
          · obtain ⟨l, r, hlr⟩ := List.append_of_mem hs
            refine (List.suffix_cons ',' s.text).isInfix.trans (List.IsInfix.trans ?_
              (List.suffix_append x.text _).isInfix)
            rw [hlr, List.flatMap_append, List.flatMap_cons]
            exact ⟨_, _, (List.append_assoc _ _ _)⟩
    refine ⟨o, ho, htext ▸ hsubs.trans ?_⟩
    rw [MkfsOpt.text, ← List.cons_append, ← List.cons_append]
    exact (List.suffix_append _ _).isInfix
  · rw [if_neg hf] at hs
    exact (List.not_mem_nil hs).elim

theorem crc_noBlank : ∀ c ∈ "crc=0".toList, isBlank c = false :=
  List.forall_iff_forall_mem.mp (by decide)

theorem crc_iff {lead : List Char} {opts : List MkfsOpt} (hwf : WellFormed lead opts) :
    (isInfix "crc=0".toList (render opts) = true ↔ CrcOff opts) ↔ CrcSpelled opts := by
  rw [isInfix_iff, infix_render (by decide) crc_noBlank hwf.valid hwf.separated, CrcSpelled]
  by_cases hoff : CrcOff opts
  · exact ⟨fun _ => .inl hoff, fun _ => ⟨fun _ => hoff, crcOff_infix⟩⟩
  · constructor
    · intro h
      exact .inr fun o ho hinfix => hoff (h.mp ⟨o, ho, hinfix⟩)
    · rintro (h | h)
      · exact absurd h hoff
      · refine ⟨?_, fun h' => absurd h' hoff⟩
        rintro ⟨o, ho, hinfix⟩
        exact absurd hinfix (h o ho)

/-! ## The gates -/

/-- A section is gated out on its sizes, or for want of devices. -/
theorem skipReason_isSome_iff (logwrites : Bool) (devices : List Device)
    (block sectionName : String) :
    (skipReason u logwrites devices block sectionName).isSome = true ↔
      ((sectionBlockBlockSize u block sectionName : ℤ) < deviceSector devices ∨
        (∃ n, sectionSectorSize u block sectionName = some n ∧
          (n : ℤ) < deviceSector devices) ∨
        sectionIsV4 block sectionName = true ∧
          guestPageSize < sectionBlockBlockSize u block sectionName) ∨
      TooFew logwrites devices block := by
  by_cases hblock : (sectionBlockBlockSize u block sectionName : ℤ) < deviceSector devices
  · refine iff_of_true ?_ (.inl (.inl hblock))
    rw [skipReason, if_pos]
    · rfl
    · simp [hblock]
  by_cases hsector : ∃ n, sectionSectorSize u block sectionName = some n ∧
      (n : ℤ) < deviceSector devices
  · refine iff_of_true ?_ (.inl (.inr (.inl hsector)))
    obtain ⟨n, hn, hlt⟩ := hsector
    rw [skipReason, if_pos]
    · rfl
    · simp [hn, hlt]
  rw [skipReason, if_neg, TooFew]
  · split_ifs with h2 h3 h4
    · exact iff_of_true rfl (.inl (.inr (.inr h2)))
    · exact iff_of_true rfl (.inr (.inl h3))
    · exact iff_of_true rfl (.inr (.inr h4))
    · exact iff_of_true rfl (.inr (.inr h4))
    · refine iff_of_false (fun h => by cases h) ?_
      rintro ((h | h | h) | h | h)
      · exact hblock h
      · exact hsector h
      · exact h2 h
      · exact h3 h
      · exact h4 h
  · rw [if_neg hblock, List.nil_append, not_not]
    cases hs : sectionSectorSize u block sectionName with
    | none => rfl
    | some n => exact if_neg fun hlt => hsector ⟨n, hs, hlt⟩

/-- The readers agree with mkfs exactly on sizes written out in bytes right behind
their flag (or on a default block), and on `crc=0` nowhere but in `-m`. -/
theorem readsGeometry_iff (u : Unicode) (hu : u.Ascii) (lead : List Char)
    (opts : List MkfsOpt) (hwf : WellFormed lead opts) (block sectionName : String)
    (hmkfs : (mkfsOptions block sectionName).toList = lead ++ render opts) :
    ReadsGeometry u block sectionName opts ↔
      BlockSpelled opts ∧ SectorSpelled opts ∧ CrcSpelled opts := by
  have hlead : ∀ c ∈ lead, isSpace c = true := fun c hc => isSpace_of_isBlank (hwf.lead c hc)
  have hblock : sectionBlockBlockSize u block sectionName = mkfsBlockSize opts ↔
      BlockSpelled opts := by
    rw [sectionBlockBlockSize, hmkfs, optionSize_space hlead]
    exact blockSize_iff hu hwf
  have hsector : sectionSectorSize u block sectionName = mkfsSectorSize opts ↔
      SectorSpelled opts := by
    rw [sectionSectorSize, hmkfs, optionSize_space hlead]
    exact sectorSize_iff hu hwf
  have hcrc : (sectionIsV4 block sectionName = true ↔ CrcOff opts) ↔ CrcSpelled opts := by
    rw [sectionIsV4, hmkfs, ← crc_iff hwf, isInfix_iff, isInfix_iff,
      infix_of_front (by decide) crc_noBlank hwf.lead]
  constructor
  · intro h
    exact ⟨hblock.mp h.blockSize, hsector.mp h.sectorSize, hcrc.mp h.crc⟩
  · rintro ⟨hb, hs, hc⟩
    refine ⟨hblock.mpr hb, hsector.mpr hs, hcrc.mpr hc, fun logwrites devices => ?_⟩
    rw [skipReason_isSome_iff, hblock.mpr hb, hsector.mpr hs, hcrc.mpr hc, Unusable]

end

/-! ## Sizes written out, and not -/

/-- `-b size=<size>`. -/
def blockOption (size : String) : MkfsOpt :=
  ⟨'b', [' '], [⟨"size".toList, some size.toList⟩], []⟩

/-- A config with these options, and the block of its one section. -/
def sampleConfig (options : String) : String :=
  sectionBlock ("[xfs_a]\nFSTYP=xfs\nMKFS_OPTIONS=\"" ++ options ++ "\"\n") "xfs_a"

/-- Two drives with sectors of 512 bytes. -/
def sampleDrives : List Device := [⟨"/dev/nvme0n1", some 512⟩, ⟨"/dev/nvme1n1", some 512⟩]

theorem blockOption_wellFormed {size : String} (hsize : SizeText size.toList)
    (hword : ∀ c ∈ (⟨"size".toList, some size.toList⟩ : SubOpt).text,
      isSpace c = false ∧ c ≠ ',') :
    WellFormed [] [blockOption size] := by
  have hkey : ("size".toList ≠ [] ∧ '=' ∉ "size".toList) ∧ "size".toList ≠ "log".toList := by
    decide
  refine ⟨fun c hc => (List.not_mem_nil hc).elim, fun o ho => ?_, ⟨.inl rfl, trivial⟩, ?_, ?_, ?_⟩
  · rw [List.mem_singleton.mp ho]
    refine ⟨rfl, by simp [blockOption, bareFlags], (fun h => by cases h), ?_, ?_, ?_, ?_, ?_, ?_⟩
    · intro c hc
      rw [List.mem_singleton.mp hc]
      rfl
    · exact fun c hc => (List.not_mem_nil hc).elim
    · intro s hs
      rw [List.mem_singleton.mp hs]
      exact hkey.1
    · intro s hs
      rw [List.mem_singleton.mp hs]
      exact hword
    · intro _ s hs
      rw [List.mem_singleton.mp hs]
      exact ⟨hkey.2, fun _ => ⟨_, rfl, hsize⟩⟩
    · intro h
      have hflag : ('b' : Char) = 'm' := h
      exact absurd hflag (by decide)
  · exact le_refl 1
  · exact Nat.zero_le 1
  · exact Nat.zero_le 1

/-- A size in bytes is read as mkfs reads it. -/
theorem readsGeometry_bytes :
    ReadsGeometry Unicode.ascii (sampleConfig "-b size=16384") "xfs_a" [blockOption "16384"] := by
  refine (readsGeometry_iff Unicode.ascii (fun _ _ => ⟨rfl, rfl⟩) [] [blockOption "16384"]
    (blockOption_wellFormed ⟨"16384".toList, [], by decide, by decide, by decide,
      List.forall_iff_forall_mem.mp (by decide), by decide⟩
      (List.forall_iff_forall_mem.mp (by decide))) _ _ (by decide +kernel)).mpr ⟨?_, ?_, ?_⟩
  · intro p hp
    rw [List.mem_singleton.mp hp]
    decide
  · exact fun p hp => (List.not_mem_nil hp).elim
  · refine .inr fun o ho => ?_
    rw [List.mem_singleton.mp ho, ← isInfix_iff]
    decide

/-- `-b size=16k` is a block of 16 bytes to the readers: the section is gated out on
drives it could use. -/
theorem readsGeometry_suffix :
    WellFormed [] [blockOption "16k"] ∧
    (mkfsOptions (sampleConfig "-b size=16k") "xfs_a").toList = render [blockOption "16k"] ∧
    mkfsBlockSize [blockOption "16k"] = 16384 ∧
    sectionBlockBlockSize Unicode.ascii (sampleConfig "-b size=16k") "xfs_a" = 16 ∧
    skipReason Unicode.ascii false sampleDrives (sampleConfig "-b size=16k") "xfs_a" =
      some "block 16 < device sector 512 (needs a >= block/sector-size device)" ∧
    ¬ Unusable (deviceSector sampleDrives) [blockOption "16k"] ∧
    ¬ ReadsGeometry Unicode.ascii (sampleConfig "-b size=16k") "xfs_a" [blockOption "16k"] := by
  have hbytes : mkfsBlockSize [blockOption "16k"] = 16384 := by decide
  have hread : sectionBlockBlockSize Unicode.ascii (sampleConfig "-b size=16k") "xfs_a" = 16 := by
    decide +kernel
  refine ⟨blockOption_wellFormed ⟨"16".toList, ['k'], by decide, by decide, by decide,
    List.forall_iff_forall_mem.mp (by decide), by decide⟩
    (List.forall_iff_forall_mem.mp (by decide)), by decide +kernel, hbytes, hread, by decide +kernel, ?_, fun h => ?_⟩
  · have hsector : deviceSector sampleDrives = 512 := by decide
    rintro (h | ⟨n, hn, -⟩ | ⟨⟨s, hs, -⟩, -⟩)
    · rw [hbytes, hsector] at h
      omega
    · cases hn
    · exact (List.not_mem_nil hs).elim
  · have heq := h.blockSize
    rw [hread, hbytes] at heq
    omega

end KdevopsNg.Fstests
