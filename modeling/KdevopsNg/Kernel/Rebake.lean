/-
# `Kernel.Rebake` — baking a build's identity again

A `.config` is baked each time a build is configured, and each bake starts from the
local version the one before it wrote.  Baked again and again it should end as if
it had been baked once, with the last label (`Rebakes`).  `rebake_iff` says when
it does: when it is baked only once, or when

    `AutoOff`   the `.config` already had the line a bake leaves, so that the first
                digest is of the same text as the others
    `spelled`   the labels that the local version did not end with spell the last
                label, so that no earlier one is left behind

A bake appends its label unless it is the end already (`grow`), and takes off the
digest alone (`stripDigest_append`), so the labels of a run pile up.
-/
import KdevopsNg.Kernel.Identity

namespace KdevopsNg.Kernel

open Py Text
open Common (computeLabel)

/-! ## The lines of a `.config` -/

theorem isLocalversion_line (value : List Char) : isLocalversion (localversionLine value) = true :=
  List.isPrefixOf_iff_prefix.mpr (List.prefix_append _ _)

theorem isLocalversionAuto_off : isLocalversionAuto autoOff = true := by decide

/-- A line about git's part is not a local version. -/
theorem isLocalversion_of_auto (line : List Char) (h : isLocalversionAuto line = true) :
    isLocalversion line = false := by
  rw [isLocalversionAuto, Bool.or_eq_true, decide_eq_true_eq] at h
  rcases h with h | rfl
  · rw [← Bool.not_eq_true]
    intro hver
    -- one of the two prefixes of the line would be a prefix of the other
    have hshort := List.prefix_of_prefix_length_le (List.isPrefixOf_iff_prefix.mp hver)
      (List.isPrefixOf_iff_prefix.mp h) (by decide)
    exact absurd hshort (by decide)
  · decide

/-- Lines with the local version set and git's part off, as a bake writes them. -/
def written (lines : List (List Char)) (value : List Char) : List Char :=
  writeLines (replaceLines isLocalversionAuto autoOff
    (replaceLines isLocalversion (localversionLine value) lines))

theorem oneLine_splitlines (s : List Char) : ∀ line ∈ splitlines s, OneLine line :=
  splitlines_noBreak s

section
variable {lines : List (List Char)} {value : List Char}

theorem oneLine_replaceLines {p : List Char → Bool} {new : List Char} (hnew : OneLine new)
    (h : ∀ line ∈ lines, OneLine line) : ∀ line ∈ replaceLines p new lines, OneLine line := by
  intro line hline
  rcases mem_replaceLines hline with rfl | hline
  · exact hnew
  · exact h line hline

theorem oneLine_localversionLine (h : OneLine value) : OneLine (localversionLine value) := by
  have hquote : isLineBreak '"' = false := by decide
  have hkey : OneLine localversionKey := by decide
  exact hkey.append ((OneLine.cons hquote h).append (OneLine.cons hquote fun _ hc => by cases hc))

theorem splitlines_replace {p : List Char → Bool} {new : List Char} (hnew : OneLine new)
    (h : ∀ line ∈ lines, OneLine line) :
    splitlines (writeLines (replaceLines p new lines)) = replaceLines p new lines :=
  splitlines_writeLines (List.ne_nil_of_mem new_mem_replaceLines) (oneLine_replaceLines hnew h)

theorem splitlines_written (hvalue : OneLine value) (h : ∀ line ∈ lines, OneLine line) :
    splitlines (written lines value) = replaceLines isLocalversionAuto autoOff
      (replaceLines isLocalversion (localversionLine value) lines) :=
  splitlines_replace (by decide) (oneLine_replaceLines (oneLine_localversionLine hvalue) h)

/-- Setting the local version, then turning git's part off. -/
theorem disable_set (configText : List Char) (hvalue : OneLine value) :
    disableLocalversionAuto (setLocalversion configText value) =
      written (splitlines configText) value := by
  rw [disableLocalversionAuto, setLocalversion,
    splitlines_replace (oneLine_localversionLine hvalue) (oneLine_splitlines configText), written]

/-- A value that has no quote at either end is read as it was written. -/
theorem localversion_written (hvalue : OneLine value) (h : ∀ line ∈ lines, OneLine line)
    (hfirst : value.head? ≠ some '"') (hlast : value.getLast? ≠ some '"') :
    localversion (written lines value) = value := by
  have hline : strip ((localversionLine value).drop localversionKey.length) =
      '"' :: value ++ ['"'] := by
    have hspace : ∀ c, some '"' = some c → isSpace c = false := fun c hc => by
      cases hc
      decide
    rw [localversionLine, List.drop_left]
    refine stripBy_of_ends (fun c hc => hspace c hc) fun c hc => hspace c ?_
    rw [List.getLast?_concat] at hc
    exact hc
  rw [localversion, splitlines_written hvalue h,
    find?_replaceLines (by decide) isLocalversion_of_auto,
    find?_replaceLines_self (isLocalversion_line value)]
  dsimp only
  rw [hline]
  refine stripBy_between (by decide) (by decide) (fun c hc => ?_) fun c hc => ?_
  · exact decide_eq_false fun hq => hfirst (hq ▸ hc)
  · exact decide_eq_false fun hq => hlast (hq ▸ hc)

/-- What is hashed does not depend on the local version that is written. -/
theorem blob_written (b : Build) (hvalue : OneLine value) (configText : List Char) :
    blob b (written (splitlines configText) value) =
      blob b (disableLocalversionAuto configText) := by
  have hnot : ∀ line, isLocalversionAuto line = true → (!isLocalversion line) = true :=
    fun line hline => by rw [isLocalversion_of_auto line hline]; rfl
  rw [blob, blob, splitlines_written hvalue (oneLine_splitlines configText),
    disableLocalversionAuto, splitlines_replace (by decide) (oneLine_splitlines configText),
    filter_replaceLines (by decide) hnot, filter_replaceLines (by decide) hnot,
    filter_replaceLines_self (isLocalversion_line value)]

end

/-! ## One bake -/

/-- Twelve hexadecimal digits. -/
structure IsDigest (d : List Char) : Prop where
  length : d.length = 12
  hex : ∀ c ∈ d, isHexDigit c = true

theorem isDigest_digest (h : Sha256) (b : Build) (configText : List Char) :
    IsDigest (digest h b configText) where
  length := by rw [digest, List.length_take, h.length_hexdigest]; rfl
  hex := fun c hc => h.isHexDigit_hexdigest _ c (List.take_subset _ _ hc)

theorem IsDigest.oneLine {d : List Char} (hd : IsDigest d) : OneLine d := by
  intro c hc
  have hhex := hd.hex c hc
  rw [isHexDigit, Bool.or_eq_true, decide_eq_true_eq] at hhex
  rcases hhex with hdigit | ⟨hlow, hhigh⟩
  · obtain ⟨hlow, hhigh⟩ := Text.isDigit_range hdigit
    exact isLineBreak_of_ascii (by omega) (by omega)
  · exact isLineBreak_of_ascii (le_trans (by decide) (UInt32.le_iff_toNat_le.mp hlow))
      (le_trans (UInt32.le_iff_toNat_le.mp hhigh) (by decide))

theorem IsDigest.no_quote {d : List Char} (hd : IsDigest d) : '"' ∉ d := fun hq =>
  absurd (hd.hex _ hq) (by decide)

/-- The digest at the end of a local version comes off it. -/
theorem stripDigest_append {d : List Char} (hd : IsDigest d) (x : List Char) :
    stripDigest (x ++ '-' :: d) = x := by
  have hlen : (x ++ '-' :: d).length - 13 = x.length := by
    rw [List.length_append, List.length_cons, hd.length]
    omega
  unfold stripDigest
  rw [hlen, List.drop_left, List.take_left]
  exact if_pos ⟨hd.length, List.all_eq_true.mpr hd.hex⟩

/-- A local version with a label put behind it: one it does not end with. -/
def grow (x label : List Char) : List Char :=
  if label = [] ∨ ('-' :: label).isSuffixOf x then x else x ++ '-' :: label

/-- The prior version without its label, the label and the digest. -/
theorem baked_value (prior label d : List Char) :
    (let prior := if label ≠ [] ∧ ('-' :: label).isSuffixOf prior then
        prior.take (prior.length - label.length - 1) else prior
      if label ≠ [] then prior ++ '-' :: label ++ '-' :: d else prior ++ '-' :: d) =
      grow prior label ++ '-' :: d := by
  rw [grow]
  by_cases hl : label = []
  · simp [hl]
  · by_cases hs : ('-' :: label).isSuffixOf prior = true
    · -- the label comes off and is put back
      obtain ⟨x, rfl⟩ := List.isSuffixOf_iff_suffix.mp hs
      have hlen : (x ++ '-' :: label).length - label.length - 1 = x.length := by
        rw [List.length_append, List.length_cons]
        omega
      simp only [hl, hs, hlen, ne_eq, not_false_eq_true, and_self, if_true, or_true,
        List.take_left]
    · simp [hl, hs]

/-- A local version as a bake reads it: of one line, with no quote in front. -/
structure Plain (x : List Char) : Prop where
  oneLine : OneLine x
  head : x.head? ≠ some '"'

theorem Plain.grow {x label : List Char} (hx : Plain x) (hl : OneLine label) :
    Plain (grow x label) := by
  rw [Kernel.grow]
  by_cases hsame : label = [] ∨ ('-' :: label).isSuffixOf x = true
  · rw [if_pos hsame]
    exact hx
  · rw [if_neg hsame]
    refine ⟨hx.oneLine.append (OneLine.cons (by decide) hl), ?_⟩
    cases x with
    | nil => exact fun h => by cases h
    | cons c x => exact hx.head

/-- What a bake writes, and what is read of it. -/
theorem plain_value {x d : List Char} (hx : Plain x) (hd : IsDigest d) :
    OneLine (x ++ '-' :: d) ∧ (x ++ '-' :: d).head? ≠ some '"' ∧
      (x ++ '-' :: d).getLast? ≠ some '"' := by
  refine ⟨hx.oneLine.append (OneLine.cons (by decide) hd.oneLine), ?_, ?_⟩
  · cases x with
    | nil => exact fun h => by cases h
    | cons c x => exact hx.head
  · intro hlast
    have hne : d ≠ [] := fun h => by rw [h] at hd; exact absurd hd.length (by decide)
    rw [List.getLast?_append_of_ne_nil _ (List.cons_ne_nil _ _),
      List.getLast?_cons_of_ne_nil hne] at hlast
    exact hd.no_quote (List.mem_of_getLast? hlast)

theorem stripDigest_begins (s : List Char) : stripDigest s <+: s := by
  unfold stripDigest
  split
  · rename_i hex hdrop
    by_cases hdigest : hex.length = 12 ∧ hex.all isHexDigit = true
    · rw [if_pos hdigest]
      exact List.take_prefix _ _
    · rw [if_neg hdigest]
  · exact List.prefix_rfl

/-- The local version a bake starts from is plain. -/
theorem plain_prior (configText : List Char) : Plain (stripDigest (localversion configText)) := by
  have hversion : Plain (localversion configText) := by
    rw [localversion]
    cases hline : (splitlines configText).find? isLocalversion with
    | none => exact ⟨fun c hc => absurd hc List.not_mem_nil, fun hq => by cases hq⟩
    | some line =>
        have hone := oneLine_splitlines configText line (List.mem_of_find?_eq_some hline)
        have hpart : stripBy (· = '"') (strip (line.drop localversionKey.length)) ⊆ line :=
          List.Subset.trans (stripBy_subset _ _)
            (List.Subset.trans (stripBy_subset _ _) (List.drop_subset _ _))
        refine ⟨hone.subset hpart, fun hq => ?_⟩
        exact absurd (head_stripBy hq) (by decide)
  refine ⟨hversion.oneLine.subset (stripDigest_begins _).subset, fun hq => hversion.head ?_⟩
  obtain ⟨t, ht⟩ := stripDigest_begins (localversion configText)
  rw [← ht, List.head?_append, hq]
  rfl

section
variable (h : Sha256) (u : Unicode) (b : Build)

/-- The label a bake puts in: fitted to the release. -/
def fitted (label : List Char) : List Char := fitLabel u label (labelBudget b)

theorem oneLine_fitted {label : List Char} (hl : OneLine label) : OneLine (fitted u b label) :=
  hl.subset (fitLabel_subset u label _)

/-- A bake writes what it read with the label and the digest behind it. -/
theorem bakeIdentity_eq (configText : List Char) {label : List Char} (hl : OneLine label) :
    let d := digest h b configText
    let config := written (splitlines configText)
      (grow (stripDigest (localversion configText)) (fitted u b label) ++ '-' :: d)
    bakeIdentity h u b configText label = ⟨config, d, strip (b.kernelrelease config)⟩ := by
  have hplain := (plain_prior configText).grow (oneLine_fitted u b hl)
  have hd := isDigest_digest h b configText
  intro d config
  have hvalue : (let label := fitted u b label
      let prior := stripDigest (localversion configText)
      let prior := if label ≠ [] ∧ ('-' :: label).isSuffixOf prior then
        prior.take (prior.length - label.length - 1) else prior
      if label ≠ [] then prior ++ '-' :: label ++ '-' :: d else prior ++ '-' :: d) =
      grow (stripDigest (localversion configText)) (fitted u b label) ++ '-' :: d :=
    baked_value _ _ d
  have hconfig : disableLocalversionAuto (setLocalversion configText
      (grow (stripDigest (localversion configText)) (fitted u b label) ++ '-' :: d)) = config :=
    disable_set configText (plain_value hplain hd).1
  rw [← hvalue] at hconfig
  rw [← hconfig]
  rfl

/-! ## Baking again -/

/-- What is hashed of a `.config` a bake wrote. -/
def settledDigest (configText : List Char) : List Char :=
  digest h b (disableLocalversionAuto configText)

/-- Baking what a bake wrote grows its local version by one more label. -/
theorem bake_written (configText : List Char) {x d label : List Char} (hx : Plain x)
    (hd : IsDigest d) (hl : OneLine label) :
    (bakeIdentity h u b (written (splitlines configText) (x ++ '-' :: d)) label).config =
        written (splitlines configText)
          (grow x (fitted u b label) ++ '-' :: settledDigest h b configText) ∧
      (bakeIdentity h u b (written (splitlines configText) (x ++ '-' :: d)) label).digest =
        settledDigest h b configText := by
  obtain ⟨hvalue, hfirst, hlast⟩ := plain_value hx hd
  have hlines := oneLine_splitlines configText
  have hdigest : digest h b (written (splitlines configText) (x ++ '-' :: d)) =
      settledDigest h b configText := by
    rw [settledDigest, digest, digest, blob_written b hvalue]
  have hprior : stripDigest (localversion (written (splitlines configText) (x ++ '-' :: d))) = x := by
    rw [localversion_written hvalue hlines hfirst hlast, stripDigest_append hd]
  rw [bakeIdentity_eq h u b _ hl, hdigest, hprior]
  refine ⟨?_, rfl⟩
  rw [written, splitlines_written hvalue hlines, written,
    replaceLines_again isLocalversionAuto_off (isLocalversion_line _) (isLocalversion_line _)
      isLocalversion_of_auto]

/-- The `.config` after a run of bakes. -/
def bakes (configText : List Char) (labels : List (List Char)) : List Char :=
  labels.foldl (fun text label => (bakeIdentity h u b text label).config) configText

/-- A run of bakes and one more, from what a bake wrote, grows the local version by each
label. -/
theorem bake_bakes (configText : List Char) {labels : List (List Char)} {label : List Char}
    (hls : ∀ l ∈ labels, OneLine l) (hl : OneLine label) {x d : List Char} (hx : Plain x)
    (hd : IsDigest d) :
    let again := bakeIdentity h u b
      (bakes h u b (written (splitlines configText) (x ++ '-' :: d)) labels) label
    again.config = written (splitlines configText)
        ((labels ++ [label]).foldl (fun x l => grow x (fitted u b l)) x ++
          '-' :: settledDigest h b configText) ∧
      again.digest = settledDigest h b configText := by
  induction labels generalizing x d with
  | nil => exact bake_written h u b configText hx hd hl
  | cons l labels ih =>
      obtain ⟨hone, hrest⟩ := List.forall_mem_cons.mp hls
      rw [bakes, List.foldl_cons, (bake_written h u b configText hx hd hone).1]
      exact ih hrest (hx.grow (oneLine_fitted u b hone)) (isDigest_digest h b _)

/-- The local versions of a run stay plain. -/
theorem plain_foldl {labels : List (List Char)} (hls : ∀ l ∈ labels, OneLine l) {x : List Char}
    (hx : Plain x) : Plain (labels.foldl (fun x l => grow x (fitted u b l)) x) := by
  induction labels generalizing x with
  | nil => exact hx
  | cons l labels ih =>
      obtain ⟨hone, hrest⟩ := List.forall_mem_cons.mp hls
      exact ih hrest (hx.grow (oneLine_fitted u b hone))

/-- After a run of bakes and one more, everything is as after that one alone. -/
structure Rebakes (configText : List Char) (labels : List (List Char)) (label : List Char) :
    Prop where
  localversion :
    localversion (bakeIdentity h u b (bakes h u b configText labels) label).config =
      localversion (bakeIdentity h u b configText label).config
  digest : (bakeIdentity h u b (bakes h u b configText labels) label).digest =
    (bakeIdentity h u b configText label).digest
  release : (bakeIdentity h u b (bakes h u b configText labels) label).release =
    (bakeIdentity h u b configText label).release

/-- The labels that a local version does not end with when their turn comes, each with its
dash. -/
def spelled (x : List Char) : List (List Char) → List Char
  | [] => []
  | label :: labels =>
      if label = [] ∨ ('-' :: label).isSuffixOf x then spelled x labels
      else '-' :: label ++ spelled (x ++ '-' :: label) labels

/-- The `.config` has the line a bake leaves about git's part, and no other. -/
def AutoOff (configText : List Char) : Prop :=
  autoOff ∈ splitlines configText ∧
    ∀ line ∈ splitlines configText, autoKey.isPrefixOf line = false

instance (configText : List Char) : Decidable (AutoOff configText) :=
  inferInstanceAs (Decidable (_ ∧ _))

theorem foldl_grow (x : List Char) (labels : List (List Char)) :
    labels.foldl grow x = x ++ spelled x labels := by
  induction labels generalizing x with
  | nil => rw [spelled, List.append_nil]; rfl
  | cons label labels ih =>
      rw [List.foldl_cons, ih, spelled, grow]
      by_cases hsame : label = [] ∨ ('-' :: label).isSuffixOf x = true
      · rw [if_pos hsame, if_pos hsame]
      · rw [if_neg hsame, if_neg hsame, List.append_assoc]

theorem replaceAuto_eq_self_iff (configText : List Char) :
    replaceLines isLocalversionAuto autoOff
        ((splitlines configText).filter fun line => !isLocalversion line) =
      (splitlines configText).filter (fun line => !isLocalversion line) ↔ AutoOff configText := by
  rw [replaceLines_eq_self_iff]
  constructor
  · rintro ⟨⟨line, hline, hauto⟩, honly⟩
    refine ⟨?_, fun l hl => ?_⟩
    · rw [← honly line hline hauto]
      exact (List.mem_filter.mp hline).1
    · -- a line that begins as one that turns it on is not the one that is left
      rw [← Bool.not_eq_true]
      intro hkey
      have hl' : isLocalversionAuto l = true := by rw [isLocalversionAuto, hkey]; rfl
      have hoff := honly l (List.mem_filter.mpr ⟨hl, by rw [isLocalversion_of_auto l hl']; rfl⟩) hl'
      rw [hoff] at hkey
      exact absurd hkey (by decide)
  · rintro ⟨hoff, hnone⟩
    refine ⟨⟨autoOff, List.mem_filter.mpr ⟨hoff, by decide⟩, by decide⟩, fun l hl hauto => ?_⟩
    rw [isLocalversionAuto, hnone l (List.mem_filter.mp hl).1, Bool.false_or] at hauto
    exact of_decide_eq_true hauto

/-- The first digest is of the same text as the others exactly when git's part is off. -/
theorem blob_disable_iff (configText : List Char) :
    blob b (disableLocalversionAuto configText) = blob b configText ↔ AutoOff configText := by
  have hlines := oneLine_splitlines configText
  have hnot : ∀ line, isLocalversionAuto line = true → (!isLocalversion line) = true :=
    fun line hline => by rw [isLocalversion_of_auto line hline]; rfl
  have hkept : ∀ line ∈ (splitlines configText).filter (fun line => !isLocalversion line),
      OneLine line := fun line hline => hlines line (List.mem_filter.mp hline).1
  rw [← replaceAuto_eq_self_iff, blob, blob, disableLocalversionAuto,
    splitlines_replace (by decide) hlines, filter_replaceLines (by decide) hnot]
  generalize (splitlines configText).filter (fun line => !isLocalversion line) = kept at hkept
  -- the `.config` is the first of the four texts, and the others are the same
  have hfirst : ∀ config path flags tree : List Char,
      [Char.ofNat 0].intercalate [config, path, flags, tree] =
        config ++ ([Char.ofNat 0] ++ [Char.ofNat 0].intercalate [path, flags, tree]) := by
    intro config path flags tree
    rw [List.intercalate_cons_of_ne_nil (List.cons_ne_nil _ _), List.append_assoc]
  rw [hfirst, hfirst, List.append_left_inj]
  refine ⟨fun heq => ?_, fun heq => by rw [heq]⟩
  have hne : replaceLines isLocalversionAuto autoOff kept ≠ [] := List.ne_nil_of_mem new_mem_replaceLines
  cases hnil : kept with
  | nil =>
      rw [hnil] at heq
      exact absurd heq (by decide)
  | cons line rest =>
      rw [← hnil]
      exact intercalate_inj hne (by rw [hnil]; exact List.cons_ne_nil _ _)
        (oneLine_replaceLines (by decide) hkept) hkept heq

/-- Baking again is baking once exactly when it is only once, or when git's part of the
local version was off and the labels the local version did not end with spell the last
one. -/
theorem rebake_iff (configText : List Char) (labels : List (List Char)) (label : List Char)
    (hone : ∀ l ∈ labels ++ [label], OneLine l)
    (hhash : settledDigest h b configText = digest h b configText →
      blob b (disableLocalversionAuto configText) = blob b configText) :
    Rebakes h u b configText labels label ↔ labels = [] ∨ AutoOff configText ∧
      spelled (stripDigest (localversion configText)) ((labels ++ [label]).map (fitted u b)) =
        spelled (stripDigest (localversion configText)) [fitted u b label] := by
  cases labels with
  | nil => exact iff_of_true ⟨rfl, rfl, rfl⟩ (.inl rfl)
  | cons first labels =>
      obtain ⟨hfirst, hrest⟩ := List.forall_mem_cons.mp hone
      obtain ⟨hls, hl⟩ := List.forall_mem_append.mp hrest
      have hl : OneLine label := hl label (List.mem_singleton_self label)
      have hlines := oneLine_splitlines configText
      have hd₀ := isDigest_digest h b configText
      have hd : IsDigest (settledDigest h b configText) := isDigest_digest h b _
      have hprior := plain_prior configText
      generalize hx : stripDigest (localversion configText) = x at hprior ⊢
      have hone' := hprior.grow (oneLine_fitted u b hfirst)
      -- once: the prior version grows by the last label; again: by each of them
      have honce := bakeIdentity_eq h u b configText hl
      obtain ⟨hagain, hdigest⟩ := bake_bakes h u b configText hls hl hone' hd₀
      have hstart : bakes h u b configText (first :: labels) =
          bakes h u b (written (splitlines configText)
            (grow x (fitted u b first) ++ '-' :: digest h b configText)) labels := by
        rw [bakes, List.foldl_cons, bakeIdentity_eq h u b configText hfirst, hx]
        rfl
      rw [hx] at honce
      rw [← hstart] at hagain hdigest
      have hgrown : (labels ++ [label]).foldl (fun x l => grow x (fitted u b l))
          (grow x (fitted u b first)) = x ++ spelled x ((first :: labels ++ [label]).map (fitted u b)) := by
        rw [← foldl_grow, List.foldl_map]
        rfl
      have hlast : grow x (fitted u b label) = x ++ spelled x [fitted u b label] := by
        rw [← foldl_grow]
        rfl
      have hplain := plain_foldl u b (List.forall_mem_append.mpr
        ⟨hls, fun l hm => by rw [List.mem_singleton.mp hm]; exact hl⟩) hone'
      have hread := plain_value hplain hd
      have hread₀ := plain_value (hprior.grow (oneLine_fitted u b hl)) hd₀
      constructor
      · intro hr
        have hsame : settledDigest h b configText = digest h b configText := by
          have hr' := hr.digest
          rw [hdigest, honce] at hr'
          exact hr'
        have hversion := hr.localversion
        rw [hagain, honce, localversion_written hread.1 hlines hread.2.1 hread.2.2,
          localversion_written hread₀.1 hlines hread₀.2.1 hread₀.2.2, hsame,
          List.append_left_inj, hgrown, hlast, List.append_right_inj] at hversion
        exact .inr ⟨(blob_disable_iff b configText).mp (hhash hsame), hversion⟩
      · rintro (hno | ⟨hoff, hspelled⟩)
        · cases hno
        · have hsame : settledDigest h b configText = digest h b configText := by
            rw [settledDigest, digest, digest, (blob_disable_iff b configText).mpr hoff]
          have hconfig : (bakeIdentity h u b (bakes h u b configText (first :: labels)) label).config =
              (bakeIdentity h u b configText label).config := by
            rw [hagain, honce, hsame, hgrown, hlast, hspelled]
          refine ⟨congrArg _ hconfig, ?_, ?_⟩
          · rw [hdigest, honce, hsame]
          · exact congrArg (fun text => strip (b.kernelrelease text)) hconfig

end

/-! ## A sample build -/

/-- A build of 7.1.0. -/
def sampleBuild : Build where
  makeFlags := []
  drvPath := "/nix/store/aaaa-build-kernel.drv".toList
  tree := List.replicate 40 '1'
  kernelversion := "7.1.0\n".toList
  kernelrelease config := "7.1.0".toList ++ localversion config ++ ['\n']

/-- A `.config` with git's part of the local version on. -/
def autoOnConfig : List Char := "CONFIG_A=y\nCONFIG_LOCALVERSION_AUTO=y\n".toList

/-- The same `.config` with it off. -/
def autoOffConfig : List Char := "CONFIG_A=y\n# CONFIG_LOCALVERSION_AUTO is not set\n".toList

/-- The hashes of the two. -/
def sampleHexdigest (text : List Char) : List Char :=
  if text = blob sampleBuild autoOnConfig then
    "d7ef1bb071a5c878ff920bb8acc07e3a643d104ed2f815347f6b789c946d201a".toList
  else if text = blob sampleBuild autoOffConfig then
    "9181afd1489fda34c0f7a58904416f73bb20bc76778724fb02aefd2aab9d3635".toList
  else List.replicate 64 '0'

theorem sampleHexdigest_spec (text : List Char) :
    (sampleHexdigest text).length = 64 ∧ ∀ c ∈ sampleHexdigest text, isHexDigit c = true := by
  rw [sampleHexdigest, ← List.all_eq_true]
  split_ifs <;> decide

/-- A hash that is right about the two. -/
def sampleSha256 : Sha256 where
  hexdigest := sampleHexdigest
  length_hexdigest text := (sampleHexdigest_spec text).1
  isHexDigit_hexdigest text := (sampleHexdigest_spec text).2

theorem rebake_vanilla : Rebakes sampleSha256 .ascii sampleBuild autoOffConfig
    ["vanilla".toList] "vanilla".toList :=
  (rebake_iff sampleSha256 .ascii sampleBuild autoOffConfig ["vanilla".toList] "vanilla".toList
    (by
      intro l hl
      have hlabel : l = (computeLabel "" "" "" true "v7.1").toList := by
        rcases List.mem_cons.mp hl with rfl | hl
        · rfl
        · exact List.mem_singleton.mp hl
      rw [hlabel]
      exact Common.oneLine_computeLabel "" "" (by decide) true "v7.1")
    (fun _ => by decide)).mpr (.inr (by decide))

/-- With git's part on, the second bake has another digest than the first; and an earlier label
stays before a later one. -/
theorem rebake_leaves :
    ¬Rebakes sampleSha256 .ascii sampleBuild autoOnConfig ["vanilla".toList] "vanilla".toList ∧
      ¬Rebakes sampleSha256 .ascii sampleBuild autoOffConfig ["vanilla".toList] "next".toList :=
  ⟨fun hr => absurd hr.digest (by decide +kernel), fun hr => absurd hr.localversion (by decide +kernel)⟩

end KdevopsNg.Kernel
