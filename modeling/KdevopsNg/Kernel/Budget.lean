/-
# `Kernel.Budget` — the 64 characters of a release

The kernel takes a release `<version><CONFIG_LOCALVERSION>` of at most 64
characters.  A bake leaves the label 64 less the version, two dashes and the
digest, and fits the label to that.  Two things are not counted:

    the local version the `.config` keeps: it comes before the label
    a revision `v<N>` longer than the budget: it is kept whole

and a label that fits is left as it is, also when it ends in a dash.
`release_budget_iff` says when a fitted label and a release are as they should be.
-/
import Mathlib.Algebra.Order.Ring.Int
import KdevopsNg.Kernel.Rebake

namespace KdevopsNg.Kernel

open Py Text

/-! ## The parts of a label -/

section
variable {u : Unicode}

/-- A label has no revision, or it is a head, a revision with its dash, and perhaps a line
feed. -/
theorem splitTrailingVersion_cases (u : Unicode) (label : List Char) :
    splitTrailingVersion u label = (label, []) ∨
      ∃ head digits lf, splitTrailingVersion u label = (head, '-' :: 'v' :: digits) ∧
        label = head ++ '-' :: 'v' :: digits ++ lf ∧ (lf = [] ∨ lf = ['\n']) ∧ digits ≠ [] ∧
        ∀ c ∈ digits, (u.digit? c).isSome = true := by
  have hbody : ∃ lf, label =
      (if label.getLast? = some '\n' then label.dropLast else label) ++ lf ∧
        (lf = [] ∨ lf = ['\n']) := by
    by_cases hnl : label.getLast? = some '\n'
    · obtain ⟨front, rfl⟩ := List.getLast?_eq_some_iff.mp hnl
      exact ⟨['\n'], by simp, .inr rfl⟩
    · exact ⟨[], by simp [hnl], .inl rfl⟩
  rw [splitTrailingVersion]
  obtain ⟨lf, hlabel, hlf⟩ := hbody
  generalize (if label.getLast? = some '\n' then label.dropLast else label) = body at hlabel
  split
  · rename_i d ds head hdigits hrest
    refine .inr ⟨head.reverse, (d :: ds).reverse, lf, rfl, ?_, hlf, by simp, ?_⟩
    · -- the text, read backwards, is the digits, `v-`, and the head
      have hsplit : body.reverse = d :: ds ++ 'v' :: '-' :: head := by
        rw [← hrest, ← hdigits]
        exact (List.prefix_iff_eq_append.mp (List.takeWhile_prefix _)).symm
      rw [hlabel, List.reverse_eq_iff.mp hsplit]
      simp
    · intro c hc
      have hc' : c ∈ leadingDigits u body.reverse := hdigits ▸ List.mem_reverse.mp hc
      exact List.mem_takeWhile_imp (p := fun c => (u.digit? c).isSome) hc'
  · exact .inl rfl

/-- The revision of a label, with its dash: nothing when it has none. -/
def revision (u : Unicode) (label : List Char) : List Char := (splitTrailingVersion u label).2

theorem revision_length_le (u : Unicode) (label : List Char) :
    (splitTrailingVersion u label).1.length + (revision u label).length ≤ label.length := by
  rcases splitTrailingVersion_cases u label with h | ⟨head, digits, lf, h, hlabel, -, -, -⟩
  · simp [revision, h]
  · have hlen := congrArg List.length hlabel
    simp only [List.length_append, List.length_cons] at hlen
    simp only [revision, h, List.length_cons]
    omega

end

/-! ## The head -/

/-- A text that does not fit is cut within the budget, and stripped of separators. -/
theorem fitHead_cut {text : List Char} {budget : ℤ} (hpos : 0 < budget)
    (hlong : budget < text.length) :
    ∃ front, front <+: text.take budget.toNat ∧
      fitHead text budget = rstripBy (fun c => c = '-' ∨ c = '.' ∨ c = '_') front := by
  rw [fitHead, if_neg (by omega), if_neg (by omega)]
  refine ⟨_, ?_, rfl⟩
  by_cases hdash : '-' ∈ text.take budget.toNat
  · rw [if_pos hdash]
    have hword : ((text.take budget.toNat).reverse.dropWhile (· ≠ '-')).tail <:+
        (text.take budget.toNat).reverse :=
      (List.tail_suffix _).trans (List.dropWhile_suffix _)
    exact List.reverse_suffix.mp (by rwa [List.reverse_reverse])
  · rw [if_neg hdash]

theorem fitHead_length {text : List Char} {budget : ℤ} (h : 0 ≤ budget) :
    ((fitHead text budget).length : ℤ) ≤ budget := by
  obtain hnone | hpos := le_or_gt budget 0
  · rw [fitHead, if_pos (by omega)]
    exact h
  · by_cases hlong : budget < text.length
    · obtain ⟨front, hfront, heq⟩ := fitHead_cut hpos hlong
      have hstrip := (List.rdropWhile_prefix (fun c => decide (c = '-' ∨ c = '.' ∨ c = '_'))
        front).length_le
      have hcut := hfront.length_le.trans (List.length_take_le _ _)
      rw [heq]
      change ((List.rdropWhile _ front).length : ℤ) ≤ budget
      omega
    · rw [fitHead, if_neg (by omega), if_pos (by omega)]
      omega

theorem fitHead_length_le (text : List Char) (budget : ℤ) :
    (fitHead text budget).length ≤ text.length := by
  obtain hnone | hpos := le_or_gt budget 0
  · rw [fitHead, if_pos hnone]
    exact Nat.zero_le _
  · by_cases hlong : budget < text.length
    · have h := @fitHead_length text budget (by omega)
      omega
    · rw [fitHead, if_neg (by omega), if_pos (by omega)]

/-- Only a text that fits ends in a dash. -/
theorem fitHead_dash_iff {text : List Char} {budget : ℤ} (hpos : 0 < budget) :
    (fitHead text budget).getLast? = some '-' ↔
      text.getLast? = some '-' ∧ (text.length : ℤ) ≤ budget := by
  by_cases hlong : budget < text.length
  · obtain ⟨front, -, heq⟩ := fitHead_cut hpos hlong
    refine ⟨fun hlast => ?_, fun h => by omega⟩
    rw [heq, rstripBy, List.getLast?_reverse] at hlast
    have hstripped := List.head?_dropWhile_not
      (fun c => decide (c = '-' ∨ c = '.' ∨ c = '_')) front.reverse
    rw [hlast] at hstripped
    exact absurd hstripped (by decide)
  · rw [fitHead, if_neg (by omega), if_pos (by omega)]
    exact ⟨fun h => ⟨h, by omega⟩, fun h => h.1⟩

/-! ## A fitted label -/

/-- A fitted label is as it should be: within the budget, with no dash at its end, and with
the whole revision of the label at its end if that fits. -/
structure FitsBudget (u : Unicode) (label : List Char) (budget : ℤ) : Prop where
  length : ((fitLabel u label budget).length : ℤ) ≤ budget
  dash : (fitLabel u label budget).getLast? ≠ some '-'
  revision : ∀ rev, revision u label = '-' :: rev → (rev.length : ℤ) ≤ budget →
    fitLabel u label budget = rev ∨ '-' :: rev <:+ fitLabel u label budget

section
variable {u : Unicode} {label : List Char} {budget : ℤ}

/-- A label with no revision is fitted as a head. -/
theorem fitLabel_of_none (hpos : 0 < budget) (h : revision u label = []) :
    fitLabel u label budget = fitHead label budget := by
  rw [fitLabel, if_neg (by omega)]
  exact if_pos h

/-- A label with a revision is the revision alone, or what is left of the head before it. -/
theorem fitLabel_of_revision (hpos : 0 < budget) {rev : List Char}
    (h : revision u label = '-' :: rev) (hv : rev.head? = some 'v') :
    (fitHead (splitTrailingVersion u label).1 (budget - (rev.length + 1)) = [] ∧
        fitLabel u label budget = rev) ∨
      ∃ head, head ≠ [] ∧ (head.length : ℤ) + (rev.length + 1) ≤ budget ∧
        head.length ≤ (splitTrailingVersion u label).1.length ∧
        fitLabel u label budget = head ++ '-' :: rev := by
  have hlen : (budget - ((splitTrailingVersion u label).2.length : ℤ)) =
      budget - (rev.length + 1) := by
    rw [show (splitTrailingVersion u label).2 = '-' :: rev from h, List.length_cons]
    rfl
  have hbare : ('-' :: rev).dropWhile (· = '-') = rev := by
    cases rev with
    | nil => cases hv
    | cons c rev =>
        cases hv
        rfl
  rw [revision] at h
  rw [fitLabel, if_neg (by omega)]
  simp only [h, List.cons_ne_nil, if_false, List.length_cons]
  push_cast
  by_cases hfit : fitHead (splitTrailingVersion u label).1 (budget - (rev.length + 1)) = []
  · exact .inl ⟨hfit, by simp only [hfit, ne_eq, not_true_eq_false, if_false, hbare]⟩
  · refine .inr ⟨_, hfit, ?_, fitHead_length_le _ _, by
      simp only [ne_eq, hfit, not_false_eq_true, if_true]⟩
    obtain hnone | hroom := Int.lt_or_le (budget - (rev.length + 1)) 0
    · exact absurd (by rw [fitHead, if_pos (by omega)]) hfit
    · have h := @fitHead_length (splitTrailingVersion u label).1 _ hroom
      omega

theorem revision_cases (u : Unicode) (label : List Char) :
    revision u label = [] ∨ ∃ digits, revision u label = '-' :: 'v' :: digits ∧ digits ≠ [] ∧
      ∀ c ∈ digits, (u.digit? c).isSome = true := by
  rcases splitTrailingVersion_cases u label with h | ⟨_, digits, _, h, -, -, hne, hdigits⟩
  · exact .inl (congrArg Prod.snd h)
  · exact .inr ⟨digits, congrArg Prod.snd h, hne, hdigits⟩

/-- A fitted label is no longer than the label. -/
theorem fitLabel_length_le (u : Unicode) (label : List Char) (budget : ℤ) :
    (fitLabel u label budget).length ≤ label.length := by
  obtain hnone | hpos := le_or_gt budget 0
  · rw [fitLabel, if_pos hnone]
    exact Nat.zero_le _
  · have hparts := revision_length_le u label
    rcases revision_cases u label with h | ⟨digits, h, -, -⟩
    · rw [fitLabel_of_none hpos h]
      exact fitHead_length_le _ _
    · rw [h, List.length_cons] at hparts
      rcases fitLabel_of_revision hpos h rfl with ⟨-, heq⟩ | ⟨head, -, -, hhead, heq⟩
      · rw [heq]
        omega
      · rw [heq, List.length_append, List.length_cons]
        omega

/-- A fitted label is within the budget when the revision alone is. -/
theorem fitLabel_length (hnonneg : 0 ≤ budget)
    (hrev : 0 < budget → ((revision u label).length : ℤ) ≤ budget + 1) :
    ((fitLabel u label budget).length : ℤ) ≤ budget := by
  obtain hnone | hpos := le_or_gt budget 0
  · rw [fitLabel, if_pos hnone]
    exact hnonneg
  · rcases revision_cases u label with h | ⟨digits, h, -, -⟩
    · rw [fitLabel_of_none hpos h]
      exact fitHead_length hnonneg
    · have hroom := hrev (by omega)
      rw [h, List.length_cons] at hroom
      rcases fitLabel_of_revision hpos h rfl with ⟨-, heq⟩ | ⟨head, -, hlen, -, heq⟩
      · rw [heq]
        omega
      · rw [heq, List.length_append, List.length_cons]
        push_cast
        exact hlen

/-- The last character of a label with a revision is no dash: a digit, or a line feed. -/
theorem getLast?_of_revision (hu : u.digit? '-' = none) {digits : List Char} (hne : digits ≠ [])
    (hdigits : ∀ c ∈ digits, (u.digit? c).isSome = true) (front : List Char) :
    (front ++ digits).getLast? ≠ some '-' := by
  intro hlast
  rw [List.getLast?_append_of_ne_nil _ hne] at hlast
  have hdash := hdigits _ (List.mem_of_getLast? hlast)
  rw [hu] at hdash
  cases hdash

/-- A label that is dropped is as it should be where the budget is nothing, not less. -/
theorem fitsBudget_dropped_iff (hnone : budget ≤ 0) : FitsBudget u label budget ↔ 0 ≤ budget := by
  have hdrop : fitLabel u label budget = [] := by rw [fitLabel, if_pos hnone]
  constructor
  · intro hfits
    have hlen := hfits.length
    rwa [hdrop] at hlen
  · intro hnonneg
    refine ⟨hdrop ▸ hnonneg, fun hlast => ?_, fun rev hrev hroom => ?_⟩
    · rw [hdrop] at hlast
      cases hlast
    · rcases revision_cases u label with h | ⟨digits, h, -, -⟩
      · rw [h] at hrev
        cases hrev
      · rw [h] at hrev
        obtain rfl := (List.cons.inj hrev).2
        rw [List.length_cons] at hroom
        omega

/-- With no revision, only a dash the label ends in is wrong. -/
theorem fitsBudget_none_iff (hpos : 0 < budget) (h : revision u label = []) :
    FitsBudget u label budget ↔ (label.getLast? = some '-' → budget < label.length) := by
  have heq : fitLabel u label budget = fitHead label budget := fitLabel_of_none hpos h
  constructor
  · intro hfits hlast
    have hdash := hfits.dash
    rw [heq, ne_eq, fitHead_dash_iff hpos] at hdash
    by_contra hlong
    exact hdash ⟨hlast, by omega⟩
  · intro hlast
    refine ⟨heq ▸ fitHead_length hpos.le, ?_, fun rev hrev => by rw [h] at hrev; cases hrev⟩
    rw [heq, ne_eq, fitHead_dash_iff hpos]
    rintro ⟨hdash, hfit⟩
    have hlong := hlast hdash
    omega

/-- With a revision, only its own length is wrong. -/
theorem fitsBudget_revision_iff (hu : u.digit? '-' = none) (hpos : 0 < budget)
    {digits : List Char} (h : revision u label = '-' :: 'v' :: digits) (hne : digits ≠ [])
    (hdigits : ∀ c ∈ digits, (u.digit? c).isSome = true) :
    FitsBudget u label budget ↔ ((revision u label).length : ℤ) ≤ budget + 1 := by
  constructor
  · intro hfits
    have hlen := hfits.length
    rw [h, List.length_cons]
    rcases fitLabel_of_revision hpos h rfl with ⟨-, heq⟩ | ⟨head, -, hroom, -, -⟩
    · rw [heq] at hlen
      omega
    · omega
  · intro hrev
    refine ⟨fitLabel_length hpos.le fun _ => hrev, ?_, fun rev hrev' _ => ?_⟩
    · rcases fitLabel_of_revision hpos h rfl with ⟨-, heq⟩ | ⟨head, -, -, -, heq⟩
      · rw [heq]
        exact getLast?_of_revision hu hne hdigits ['v']
      · rw [heq, List.append_cons, List.append_cons _ 'v']
        exact getLast?_of_revision hu hne hdigits _
    · rw [h] at hrev'
      obtain rfl := (List.cons.inj hrev').2
      rcases fitLabel_of_revision hpos h rfl with ⟨-, heq⟩ | ⟨head, -, -, -, heq⟩
      · exact .inl heq
      · exact .inr (heq ▸ List.suffix_append _ _)

/-- A label that ends in a dash has no revision. -/
theorem revision_of_dash (hu : u.digit? '-' = none) (hlast : label.getLast? = some '-') :
    revision u label = [] := by
  rcases splitTrailingVersion_cases u label with h | ⟨head, digits, lf, -, rfl, hlf, hne, hdigits⟩
  · exact congrArg Prod.snd h
  · rcases hlf with rfl | rfl
    · rw [List.append_nil, List.append_cons, List.append_cons _ 'v'] at hlast
      exact absurd hlast (getLast?_of_revision hu hne hdigits _)
    · rw [List.getLast?_concat] at hlast
      exact absurd hlast (by decide)

theorem fitsBudget_iff (hu : u.digit? '-' = none) :
    FitsBudget u label budget ↔
      0 ≤ budget ∧ (0 < budget → ((revision u label).length : ℤ) ≤ budget + 1) ∧
        (label.getLast? = some '-' → budget < label.length) := by
  obtain hnone | hpos := le_or_gt budget 0
  · have hlong : label.getLast? = some '-' → label ≠ [] := fun hlast h => by
      rw [h] at hlast
      cases hlast
    rw [fitsBudget_dropped_iff hnone]
    refine ⟨fun hnonneg => ⟨hnonneg, fun h => by omega, fun hlast => ?_⟩, fun h => h.1⟩
    have hlen := List.length_pos_iff.mpr (hlong hlast)
    omega
  · rcases revision_cases u label with h | ⟨digits, h, hne, hdigits⟩
    · rw [fitsBudget_none_iff hpos h]
      refine ⟨fun hlast => ⟨hpos.le, fun _ => ?_, hlast⟩, fun hall => hall.2.2⟩
      rw [h]
      exact (by omega : (0 : ℤ) ≤ budget + 1)
    · rw [fitsBudget_revision_iff hu hpos h hne hdigits]
      refine ⟨fun hrev => ⟨hpos.le, fun _ => hrev, fun hlast => ?_⟩, fun hall => hall.2.1 hpos⟩
      rw [revision_of_dash hu hlast] at h
      cases h

end

/-! ## A release -/

theorem grow_of_ends {x label : List Char} (h : label = [] ∨ '-' :: label <:+ x) :
    grow x label = x :=
  if_pos (h.imp_right List.isSuffixOf_iff_suffix.mpr)

theorem grow_of_not {x label : List Char} (h : ¬(label = [] ∨ '-' :: label <:+ x)) :
    grow x label = x ++ '-' :: label :=
  if_neg fun hor => h (hor.imp_right List.isSuffixOf_iff_suffix.mp)

section
variable (h : Sha256) (u : Unicode) (b : Build) (configText label : List Char)

/-- The local version a bake starts from: the one of the `.config`, less a digest. -/
def priorVersion : List Char := stripDigest (localversion configText)

/-- The local version a bake puts in. -/
def bakedLocalversion : List Char :=
  let label := fitLabel u label (labelBudget b)
  let prior := priorVersion configText
  let prior := if label ≠ [] ∧ ('-' :: label).isSuffixOf prior then
    prior.take (prior.length - label.length - 1) else prior
  if label ≠ [] then prior ++ '-' :: label ++ '-' :: digest h b configText
  else prior ++ '-' :: digest h b configText

theorem bakeIdentity_config :
    (bakeIdentity h u b configText label).config =
      disableLocalversionAuto (setLocalversion configText (bakedLocalversion h u b configText label)) :=
  rfl

/-- It is what the `.config` then has. -/
theorem localversion_bakeIdentity (hl : OneLine label) :
    localversion (bakeIdentity h u b configText label).config =
      bakedLocalversion h u b configText label := by
  have hplain := (plain_prior configText).grow (oneLine_fitted u b hl)
  obtain ⟨hvalue, hfirst, hlast⟩ := plain_value hplain (isDigest_digest h b configText)
  have hbaked : bakedLocalversion h u b configText label =
      grow (priorVersion configText) (fitted u b label) ++ '-' :: digest h b configText :=
    baked_value _ _ _
  rw [bakeIdentity_eq h u b configText hl, hbaked]
  exact localversion_written hvalue (oneLine_splitlines configText) hfirst hlast

/-- The release of a build: its version and the local version of its bake. -/
def bakedRelease : List Char := strip b.kernelversion ++ bakedLocalversion h u b configText label

/-- A release is the version, the local version grown by the label, and 13 characters. -/
theorem length_bakedRelease :
    ((bakedRelease h u b configText label).length : ℤ) =
      64 - labelBudget b - 1 + (grow (priorVersion configText) (fitted u b label)).length := by
  have hbaked : bakedLocalversion h u b configText label =
      grow (priorVersion configText) (fitted u b label) ++ '-' :: digest h b configText :=
    baked_value _ _ _
  rw [bakedRelease, hbaked]
  simp only [List.length_append, List.length_cons, (isDigest_digest h b configText).length, labelBudget]
  push_cast
  omega

theorem bakedRelease_iff :
    (bakedRelease h u b configText label).length ≤ 64 ↔
      ((priorVersion configText).length : ℤ) ≤ labelBudget b + 1 ∧
        (fitted u b label ≠ [] → ¬ '-' :: fitted u b label <:+ priorVersion configText →
          ((priorVersion configText).length : ℤ) + (fitted u b label).length ≤ labelBudget b) := by
  have hlen := length_bakedRelease h u b configText label
  by_cases hnone : fitted u b label = [] ∨ '-' :: fitted u b label <:+ priorVersion configText
  · rw [grow_of_ends hnone] at hlen
    constructor
    · intro hle
      exact ⟨by omega, fun hne hends => absurd hnone (not_or.mpr ⟨hne, hends⟩)⟩
    · rintro ⟨hle, -⟩
      omega
  · rw [grow_of_not hnone, List.length_append, List.length_cons] at hlen
    obtain ⟨hne, hends⟩ := not_or.mp hnone
    constructor
    · intro hle
      exact ⟨by omega, fun _ _ => by omega⟩
    · rintro ⟨-, hle⟩
      have hroom := hle hne hends
      omega

/-- A label of one letter that is no `v` has no revision, and fits whole. -/
theorem fitted_replicate {c : Char} (hc : c ≠ 'v') {n : ℕ} (hn : labelBudget b = n) :
    revision u (List.replicate n c) = [] ∧ fitted u b (List.replicate n c) = List.replicate n c := by
  have hrev : revision u (List.replicate n c) = [] := by
    rcases revision_cases u (List.replicate n c) with h | ⟨digits, h, -, -⟩
    · exact h
    · have hv : 'v' ∈ List.replicate n c := by
        refine (splitTrailingVersion_subset u _).2 ?_
        rw [show (splitTrailingVersion u (List.replicate n c)).2 = _ from h]
        simp
      exact absurd (List.eq_of_mem_replicate hv).symm hc
  refine ⟨hrev, ?_⟩
  rw [fitted, hn]
  cases n with
  | zero => rfl
  | succ n =>
      rw [fitLabel_of_none (by omega) hrev, fitHead, if_neg (by omega),
        if_pos (by rw [List.length_replicate])]

/-- Every label whose revision fits gives a release that fits just where the `.config` keeps
nothing before the label, or one character and there is no room for a label. -/
theorem bakedRelease_forall_iff (hnonneg : 0 ≤ labelBudget b) :
    (∀ label, ((revision u label).length : ℤ) ≤ labelBudget b + 1 →
        (bakedRelease h u b configText label).length ≤ 64) ↔
      priorVersion configText = [] ∨
        labelBudget b = 0 ∧ (priorVersion configText).length = 1 := by
  obtain ⟨n, hn⟩ := Int.eq_ofNat_of_zero_le hnonneg
  constructor
  · intro hall
    -- two labels that fill the budget: the local version does not end in both
    have hfill : ∀ c : Char, c ≠ 'v' →
        (priorVersion configText).length ≤ n + 1 ∧
          (List.replicate n c ≠ [] → ¬ '-' :: List.replicate n c <:+ priorVersion configText →
            priorVersion configText = []) := by
      intro c hc
      obtain ⟨hrev, hfit⟩ := fitted_replicate u b hc hn
      have hle := hall (List.replicate n c) (by
        rw [hrev]
        exact (by omega : (0 : ℤ) ≤ labelBudget b + 1))
      rw [bakedRelease_iff, hfit, hn, List.length_replicate] at hle
      exact ⟨by omega, fun hne hends => List.length_eq_zero_iff.mp (by
        have hroom := hle.2 hne hends
        omega)⟩
    cases n with
    | zero =>
        have hone := (hfill 'a' (by decide)).1
        rw [or_iff_not_imp_left, ← List.length_eq_zero_iff]
        exact fun hne => ⟨hn, by omega⟩
    | succ n =>
        refine .inl ?_
        by_contra hne
        have hends : ∀ c : Char, c ≠ 'v' →
            '-' :: List.replicate (n + 1) c <:+ priorVersion configText := fun c hc => by
          by_contra hnot
          exact hne ((hfill c hc).2 (by simp) hnot)
        have hboth := List.suffix_of_suffix_length_le (hends 'a' (by decide)) (hends 'b' (by decide))
          (by simp)
        have hsame := hboth.eq_of_length (by simp)
        exact absurd hsame (by simp [List.replicate_succ])
  · rintro (hnil | ⟨hnone, hone⟩) label hrev
    · have hfit : ((fitted u b label).length : ℤ) ≤ labelBudget b :=
        fitLabel_length hnonneg fun _ => hrev
      rw [bakedRelease_iff, hnil, List.length_nil]
      exact ⟨by omega, fun _ _ => by omega⟩
    · have hdrop : fitted u b label = [] := by rw [fitted, fitLabel, if_pos hnone.le]
      rw [bakedRelease_iff, hdrop]
      exact ⟨by omega, fun hne => absurd rfl hne⟩

/-- When a fitted label and a release are as they should be. -/
theorem release_budget_iff (hu : u.digit? '-' = none)
    (hversion : (strip b.kernelversion).length ≤ 50) :
    (∀ label budget, FitsBudget u label budget ↔
      0 ≤ budget ∧ (0 < budget → ((revision u label).length : ℤ) ≤ budget + 1) ∧
        (label.getLast? = some '-' → budget < label.length)) ∧
    (∀ label, (bakedRelease h u b configText label).length ≤ 64 ↔
      ((priorVersion configText).length : ℤ) ≤ labelBudget b + 1 ∧
        (fitted u b label ≠ [] → ¬ '-' :: fitted u b label <:+ priorVersion configText →
          ((priorVersion configText).length : ℤ) + (fitted u b label).length ≤ labelBudget b)) ∧
    ((∀ label, ((revision u label).length : ℤ) ≤ labelBudget b + 1 →
        (bakedRelease h u b configText label).length ≤ 64) ↔
      priorVersion configText = [] ∨
        labelBudget b = 0 ∧ (priorVersion configText).length = 1) := by
  have hnonneg : 0 ≤ labelBudget b := by
    rw [labelBudget]
    omega
  exact ⟨fun label budget => fitsBudget_iff hu, fun label => bakedRelease_iff h u b configText label,
    bakedRelease_forall_iff h u b configText hnonneg⟩

end

theorem release_budget_vanilla :
    (bakedRelease sampleSha256 .ascii sampleBuild autoOffConfig "vanilla".toList).length ≤ 64 ∧
      ∀ label, ((revision .ascii label).length : ℤ) ≤ labelBudget sampleBuild + 1 →
        (bakedRelease sampleSha256 .ascii sampleBuild autoOffConfig label).length ≤ 64 :=
  have hiff := release_budget_iff sampleSha256 .ascii sampleBuild autoOffConfig (by decide) (by decide)
  ⟨(hiff.2.1 _).mpr (by decide), hiff.2.2.mpr (.inl (by decide))⟩

/-- A `.config` with a local version of its own. -/
def customConfig : List Char := "CONFIG_LOCALVERSION=\"-custom\"\n".toList

/-- A release of 71 characters, a label longer than its budget, and a label that ends in a dash. -/
theorem release_budget_exceeded :
    ¬(bakedRelease sampleSha256 .ascii sampleBuild customConfig (List.replicate 45 'a')).length ≤ 64 ∧
      ¬FitsBudget .ascii "iomap-v12".toList 2 ∧ ¬FitsBudget .ascii "iomap-".toList 10 :=
  ⟨by decide +kernel, fun hfits => absurd hfits.length (by decide),
    fun hfits => hfits.dash (by decide)⟩

end KdevopsNg.Kernel
