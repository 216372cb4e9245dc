/-
# `Fstests.Binding` — which device a role gets

After an injection the variables of a section give every role its device
(`Injected`): the test device, the scratch device or pool, the external devices
the section asks for, and the log.  `inject_device_base` looks for `KEY=`
anywhere in the text, and fills the first line `KEY=`; what the section sets is
another matter.  So it does that when (`Readable`)

    absent   no `KEY=` of a line to add is in the text, a comment or a longer
             name included
    once     no external variable has two lines `KEY=`
    bare     one that is empty is so by a line `KEY=`, not quoted or set later
    apart    one set to a device of the list has a device no other role gets

and only then (`injected_iff`).
-/
import Mathlib.Data.List.Nodup
import KdevopsNg.Fstests.Inject
import KdevopsNg.Py.Path

namespace KdevopsNg.Fstests

open Py Text

/-! ## Values read back -/

theorem stripQuotes_plain {d : String} (hd : PlainDevice d) : stripQuotes d.toList = d.toList := by
  have hstrip : strip d.toList = d.toList :=
    stripBy_of_ends (fun c hc => (hd.plain c (List.mem_of_head? hc)).1) hd.endsPlain
  unfold stripQuotes
  rw [hstrip]
  refine if_neg ?_
  rintro ⟨-, -, hquote | hquote⟩
  · exact (hd.plain _ (List.mem_of_head? hquote)).2.2.1 rfl
  · exact (hd.plain _ (List.mem_of_head? hquote)).2.2.2 rfl

theorem stripQuotes_quoted (s : List Char) : stripQuotes ('"' :: s ++ ['"']) = s := by
  have hstrip : strip ('"' :: s ++ ['"']) = '"' :: s ++ ['"'] := by
    refine stripBy_of_ends (fun c hc => ?_) fun c hc => ?_
    · cases hc
      decide
    · rw [List.getLast?_append_of_ne_nil _ (by decide)] at hc
      cases hc
      decide
  unfold stripQuotes
  rw [hstrip, if_pos]
  · rw [List.cons_append, List.tail_cons, List.dropLast_concat]
  · refine ⟨by simp, ?_, .inr rfl⟩
    rw [List.getLast?_append_of_ne_nil _ (by decide)]
    rfl

theorem PlainDevice.solid {d : String} (hd : PlainDevice d) : Solid d.toList :=
  ⟨hd.ne_nil, fun c hc => (hd.plain c hc).1⟩

/-! ## The variables the added lines set -/

theorem lastSet_toLine_cons {l : BaseLine} (hl : PlainLine l) (k : String) (ls : List BaseLine) :
    lastSet k ((l :: ls).map toLine) = (lastSet k (ls.map toLine)).or
      (if l.key = k then some (String.ofList (stripQuotes l.value.toList)) else none) := by
  rw [List.map_cons, lastSet, toLine, assignment_assignLine hl.key hl.ends, Option.bind_some]

/-- A variable that no added line sets. -/
theorem lastSet_toLine_none {ls : List BaseLine} (hls : ∀ l ∈ ls, PlainLine l) {k : String}
    (hk : ∀ l ∈ ls, l.key ≠ k) : lastSet k (ls.map toLine) = none := by
  induction ls with
  | nil => rfl
  | cons l ls ih =>
      rw [lastSet_toLine_cons (hls l List.mem_cons_self), if_neg (hk l List.mem_cons_self),
        ih (fun x hx => hls x (List.mem_cons_of_mem l hx)) fun x hx => hk x (List.mem_cons_of_mem l hx)]
      rfl

/-- A variable that one added line sets. -/
theorem lastSet_toLine_some {ls : List BaseLine} (hls : ∀ l ∈ ls, PlainLine l)
    (hnodup : (ls.map BaseLine.key).Nodup) {l : BaseLine} (hl : l ∈ ls) :
    lastSet l.key (ls.map toLine) = some (String.ofList (stripQuotes l.value.toList)) := by
  induction ls with
  | nil => cases hl
  | cons x ls ih =>
      rw [List.map_cons, List.nodup_cons] at hnodup
      have hls' : ∀ y ∈ ls, PlainLine y := fun y hy => hls y (List.mem_cons_of_mem x hy)
      rw [lastSet_toLine_cons (hls x List.mem_cons_self)]
      rcases List.mem_cons.mp hl with rfl | hl
      · rw [if_pos rfl, lastSet_toLine_none hls' fun y hy heq =>
          hnodup.1 (List.mem_map.mpr ⟨y, hy, heq⟩)]
        rfl
      · rw [ih hls' hnodup.2 hl]
        rfl

/-! ## Roles -/

/-- The variables an injection sets. -/
def deviceKeys : List String :=
  ["TEST_DEV", "TEST_DIR", "SCRATCH_MNT", "SCRATCH_DEV", "SCRATCH_DEV_POOL", "LOGWRITES_DEV"]

/-- The variables that name devices. -/
def roles : List String :=
  ["TEST_DEV", "SCRATCH_DEV", "SCRATCH_DEV_POOL", "LOGWRITES_DEV"] ++ externalDevKeys

/-- The devices a role has in a section. -/
def boundTo (text name role : String) : List String :=
  match sectionVar text name role with
  | some v => if role = "SCRATCH_DEV_POOL" then (words v.toList).map String.ofList else [v]
  | none => []

/-- The devices for the file systems. -/
def fsDevs (names : List String) (logwrites : Bool) : List String :=
  if logwrites then names.dropLast else names

/-- Whether the extra devices make a pool. -/
def pools (block : String) (names : List String) (logwrites : Bool) : Bool :=
  decide (sectionExternalDevs block = [] ∧ 2 < (fsDevs names logwrites).length)

/-- The devices that are handed out, each with its role. -/
def handed (block name : String) (names : List String) (logwrites : Bool) :
    List (String × String) :=
  let devs := fsDevs names logwrites
  ("TEST_DEV", devs.headD "") ::
    ((if pools block names logwrites then devs.tail.map (Prod.mk "SCRATCH_DEV_POOL")
      else [("SCRATCH_DEV", devs.getD 1 "")]) ++
    (((sectionExternalDevs block).zip (devs.drop 2)).filter
        (fun p => sectionVar block name p.1 = some "") ++
    if logwrites then [("LOGWRITES_DEV", names.getLastD "")] else []))

/-- A section is bound to its devices. -/
structure Injected (block name : String) (devices : List Device) (logwrites : Bool)
    (text : String) : Prop where
  testDev : sectionVar text name "TEST_DEV" = (devices.map Device.name).head?
  testDir : sectionVar text name "TEST_DIR" = some "/media/test"
  scratchMnt : sectionVar text name "SCRATCH_MNT" = some "/media/scratch"
  scratch : (sectionVar text name "SCRATCH_DEV").isSome ≠
    (sectionVar text name "SCRATCH_DEV_POOL").isSome
  external : ∀ key ∈ externalDevKeys, sectionVar block name key = some "" →
    ∃ d ∈ devices.map Device.name, sectionVar text name key = some d
  log : sectionVar text name "LOGWRITES_DEV" =
    if logwrites then (devices.map Device.name).getLast? else none
  oneRole : ∀ d ∈ devices.map Device.name, ∀ r ∈ roles, ∀ r' ∈ roles,
    d ∈ boundTo text name r → d ∈ boundTo text name r' → r = r'
  others : ∀ key ∉ deviceKeys, (key ∈ externalDevKeys → sectionVar block name key ≠ some "") →
    sectionVar text name key = sectionVar block name key
  again : injectDeviceBase text devices logwrites = .ok text

/-- The lines under the header of a block that set a variable. -/
def setters (block key : String) : List (List Char) :=
  (contents block.toList).tail.filter (sets key)

/-! ## What filling in does to the variables -/

theorem lastSet_filter (k : String) (ls : List (List Char)) :
    lastSet k (ls.filter (sets k)) = lastSet k ls := by
  induction ls with
  | nil => rfl
  | cons l ls ih =>
      by_cases hl : sets k l = true
      · rw [List.filter_cons_of_pos hl, lastSet, lastSet, ih]
      · have hnone : ((assignment l).bind fun p => if p.1 = k then some p.2 else none) = none := by
          cases ha : assignment l with
          | none => rfl
          | some p =>
              rw [sets, ha] at hl
              exact if_neg fun h => hl (by simp [h])
        rw [List.filter_cons_of_neg hl, lastSet, ih, hnone, Option.or_none]

/-- The last line that sets a variable gives it a value. -/
theorem lastSet_last {k : String} {l : List Char} (hl : sets k l = true) (ls : List (List Char)) :
    ∃ v, lastSet k (ls ++ [l]) = some v := by
  rw [sets, decide_eq_true_eq] at hl
  obtain ⟨⟨k', v⟩, ha, rfl⟩ := Option.map_eq_some_iff.mp hl
  rw [lastSet_append]
  refine ⟨v, ?_⟩
  rw [lastSet, ha, lastSet, Option.none_or, Option.bind_some, if_pos rfl]
  rfl

/-- A line that sets a variable sets it over what is before. -/
theorem lastSet_line {key : String} (hk : PlainKey key) {value : List Char} (hv : EndsPlain value)
    (pre post : List (List Char)) :
    lastSet key (pre ++ assignLine key value :: post) =
      (lastSet key post).or (some (String.ofList (stripQuotes value))) := by
  rw [lastSet_append, lastSet, assignment_assignLine hk hv, Option.bind_some, if_pos rfl,
    Option.or_assoc]
  congr 1

section
variable {block text name : String} {devices : List Device} {logwrites : Bool}
  {ls ls' : List (List Char)}

theorem setters_eq (h : SectionLines block name ls) (key : String) :
    setters block key = ls.filter (sets key) := by
  obtain ⟨header, n, hlines, -⟩ := h
  rw [setters, hlines, List.tail_cons]

/-- An external variable is declared empty where a line asks for it. -/
theorem mem_externals_iff (h : SectionLines block name ls) (hnl : NewlineOnly block.toList)
    {key : String} : key ∈ sectionExternalDevs block ↔
      key ∈ externalDevKeys ∧ assignLine key [] ∈ ls := by
  obtain ⟨header, n, hlines, hheader, -, -⟩ := h
  rw [sectionExternalDevs, List.mem_filter]
  refine and_congr_right fun hkey => ?_
  have hk := (plainKey_external hkey).1
  rw [findEmptyDev_isSome_iff hk hnl, hlines, List.mem_cons]
  refine or_iff_right fun heq => ?_
  rw [← heq, sectionHeader_assignLine hk] at hheader
  cases hheader

/-- A variable that is not filled in stays. -/
theorem lastSet_kept {fs : List (String × String)} (h : Fills fs ls ls') (hfs : PlainFills fs)
    {k : String} (hk : k ∉ fs.map Prod.fst) : lastSet k ls' = lastSet k ls := by
  rw [← lastSet_filter k ls', h.filter_sets hfs hk, lastSet_filter]

/-- A variable that is filled in: the lines that set it, and what it is before and after. -/
theorem filled_split {fs : List (String × String)} (h : Fills fs ls ls') (hfs : PlainFills fs)
    (hnodup : (fs.map Prod.fst).Nodup) {key d : String} (hmem : (key, d) ∈ fs)
    (hempty : assignLine key [] ∈ ls) :
    ∃ pre post, ls.filter (sets key) = pre ++ assignLine key [] :: post ∧
      ls'.filter (sets key) = pre ++ assignLine key d.toList :: post ∧
      lastSet key ls = (lastSet key post).or (some "") ∧
      lastSet key ls' = (lastSet key post).or (some d) ∧
      (post ≠ [] → ∃ v, lastSet key post = some v) := by
  obtain ⟨hk, -, hd⟩ := hfs _ hmem
  obtain ⟨pre, post, hls, hls'⟩ := h.filter_filled hfs hnodup hmem hempty
  refine ⟨pre, post, hls, hls', ?_, ?_, fun hne => ?_⟩
  · rw [← lastSet_filter, hls, lastSet_line hk endsPlain_nil]
    rfl
  · rw [← lastSet_filter, hls', lastSet_line hk hd.endsPlain, stripQuotes_plain hd,
      String.ofList_toList]
  · obtain ⟨front, l, rfl⟩ := (List.eq_nil_or_concat post).resolve_left hne
    have hl : l ∈ ls.filter (sets key) := by
      rw [hls]
      simp
    rw [List.concat_eq_append]
    exact lastSet_last (List.mem_filter.mp hl).2 front

/-- A variable that is filled in has its device where the empty line is the last to set it. -/
theorem lastSet_filled {fs : List (String × String)} (h : Fills fs ls ls') (hfs : PlainFills fs)
    (hnodup : (fs.map Prod.fst).Nodup) {key d : String} (hmem : (key, d) ∈ fs)
    (hempty : assignLine key [] ∈ ls)
    (hone : (ls.filter (sets key)).count (assignLine key []) ≤ 1)
    (hbare : lastSet key ls = some "" → (ls.filter (sets key)).getLast? = some (assignLine key [])) :
    (lastSet key ls' = if lastSet key ls = some "" then some d else lastSet key ls) ∧
      assignLine key [] ∉ ls' := by
  obtain ⟨hk, -, hd⟩ := hfs _ hmem
  obtain ⟨pre, post, hls, hls', hvar, hvar', hset⟩ := filled_split h hfs hnodup hmem hempty
  have hfilled : assignLine key [] ≠ assignLine key d.toList := fun heq =>
    hd.ne_nil (List.cons.inj (List.append_cancel_left heq)).2.symm
  rw [hls, List.count_append, List.count_cons_self] at hone
  have hpre : assignLine key [] ∉ pre := List.count_eq_zero.mp (by omega)
  have hpost : assignLine key [] ∉ post := List.count_eq_zero.mp (by omega)
  constructor
  · by_cases hnil : post = []
    · rw [hvar', hvar, hnil]
      rfl
    · -- a later line sets the variable, and not to nothing
      obtain ⟨v, hv⟩ := hset hnil
      have hne : lastSet key ls ≠ some "" := fun heq => by
        have hlast := hbare heq
        rw [hls, List.getLast?_append_of_ne_nil _ (List.cons_ne_nil _ _),
          List.getLast?_cons_of_ne_nil hnil] at hlast
        exact hpost (List.mem_of_getLast? hlast)
      rw [if_neg hne, hvar', hvar, hv]
      rfl
  · intro hmem'
    have hself : sets key (assignLine key []) = true := by
      rw [sets_assignLine hk endsPlain_nil]
      exact decide_eq_true rfl
    have hin := List.mem_filter.mpr ⟨hmem', hself⟩
    rw [hls'] at hin
    rcases List.mem_append.mp hin with hin | hin
    · exact hpre hin
    · rcases List.mem_cons.mp hin with heq | hin
      · exact hfilled heq
      · exact hpost hin

end

/-! ## The added lines of a section that names no device -/

section
variable {block name : String} {names : List String} {logwrites : Bool}

theorem external_not_device {key : String} (h : key ∈ externalDevKeys) : key ∉ deviceKeys := by
  rw [externalDevKeys] at h
  simp only [List.mem_cons, List.not_mem_nil, or_false] at h
  rcases h with rfl | rfl | rfl | rfl <;> decide

theorem baseLines_key {l : BaseLine} (h : l ∈ baseLines block names logwrites) :
    l.key ∈ deviceKeys ∧ (l.key = "LOGWRITES_DEV" → carves block logwrites = true) := by
  unfold baseLines at h
  simp only [List.mem_append, List.mem_cons, List.not_mem_nil, or_false] at h
  rcases h with ((rfl | rfl | rfl) | h) | h
  · exact ⟨(by decide : "TEST_DEV" ∈ deviceKeys),
      fun h => absurd h (by decide : "TEST_DEV" ≠ "LOGWRITES_DEV")⟩
  · exact ⟨by decide, fun h => absurd h (by decide)⟩
  · exact ⟨by decide, fun h => absurd h (by decide)⟩
  · split_ifs at h with hkeys hpool
    · cases h
    · obtain rfl := List.mem_singleton.mp h
      exact ⟨(by decide : "SCRATCH_DEV_POOL" ∈ deviceKeys),
        fun h => absurd h (by decide : "SCRATCH_DEV_POOL" ≠ "LOGWRITES_DEV")⟩
    · obtain rfl := List.mem_singleton.mp h
      exact ⟨(by decide : "SCRATCH_DEV" ∈ deviceKeys),
        fun h => absurd h (by decide : "SCRATCH_DEV" ≠ "LOGWRITES_DEV")⟩
  · split_ifs at h with hcarve
    · obtain rfl := List.mem_singleton.mp h
      exact ⟨(by decide : "LOGWRITES_DEV" ∈ deviceKeys), fun _ => hcarve⟩
    · cases h

/-- With a scratch device in the text none is added. -/
theorem baseLines_scratch
    (h : (hasKey block "SCRATCH_DEV" || hasKey block "SCRATCH_DEV_POOL") = true) {l : BaseLine}
    (hl : l ∈ baseLines block names logwrites) :
    ¬(l.key = "SCRATCH_DEV" ∨ l.key = "SCRATCH_DEV_POOL") := by
  unfold baseLines at hl
  dsimp only at hl
  rw [if_pos h] at hl
  simp only [List.mem_append, List.mem_cons, List.not_mem_nil, or_false] at hl
  rcases hl with (rfl | rfl | rfl) | hl
  · exact (by decide : ¬("TEST_DEV" = "SCRATCH_DEV" ∨ "TEST_DEV" = "SCRATCH_DEV_POOL"))
  · decide
  · decide
  · split_ifs at hl
    · obtain rfl := List.mem_singleton.mp hl
      exact (by decide : ¬("LOGWRITES_DEV" = "SCRATCH_DEV" ∨ "LOGWRITES_DEV" = "SCRATCH_DEV_POOL"))
    · cases hl

theorem baseLines_nodup : ((baseLines block names logwrites).map BaseLine.key).Nodup := by
  unfold baseLines
  dsimp only
  split_ifs <;> simp

/-- The text has no `KEY=` of a line to add. -/
def Absent (block : String) (logwrites : Bool) : Prop :=
  ∀ key ∈ deviceKeys, (key = "LOGWRITES_DEV" → logwrites = true) → hasKey block key = false

theorem Absent.carves_eq (h : Absent block logwrites) : carves block logwrites = logwrites := by
  unfold carves
  cases logwrites with
  | false => rfl
  | true => rw [h "LOGWRITES_DEV" (by decide) fun _ => rfl]; rfl

/-- Every line is added. -/
theorem Absent.addedLines_eq (h : Absent block logwrites) :
    addedLines block (baseLines block names logwrites) =
      (baseLines block names logwrites).map toLine := by
  rw [addedLines, List.filter_eq_self.mpr]
  intro l hl
  obtain ⟨hkey, hlog⟩ := baseLines_key hl
  rw [h l.key hkey fun heq => h.carves_eq ▸ hlog heq]
  rfl

theorem Absent.baseLines_eq (h : Absent block logwrites) {a b : String} {rest : List String}
    (hdevs : fsDevs names logwrites = a :: b :: rest) :
    baseLines block names logwrites =
      [⟨"TEST_DEV", a⟩, ⟨"TEST_DIR", "/media/test"⟩, ⟨"SCRATCH_MNT", "/media/scratch"⟩] ++
      (if pools block names logwrites then
        [⟨"SCRATCH_DEV_POOL", "\"" ++ Text.join " " (b :: rest) ++ "\""⟩]
      else [⟨"SCRATCH_DEV", b⟩]) ++
      (if logwrites then [⟨"LOGWRITES_DEV", names.getLastD ""⟩] else []) := by
  have hleft : leftDevs block names logwrites = a :: b :: rest := by
    rw [leftDevs, h.carves_eq]
    exact hdevs
  have hpools : pools block names logwrites =
      decide (sectionExternalDevs block = [] ∧ 2 < (a :: b :: rest).length) := by
    rw [pools, hdevs]
  unfold baseLines
  rw [hpools, hleft, h.carves_eq, h "SCRATCH_DEV" (by decide) fun h => absurd h (by decide),
    h "SCRATCH_DEV_POOL" (by decide) fun h => absurd h (by decide)]
  simp only [decide_eq_true_eq]
  rfl

theorem Absent.leftDevs_eq (h : Absent block logwrites) :
    leftDevs block names logwrites = fsDevs names logwrites := by
  rw [leftDevs, h.carves_eq, fsDevs]

theorem fsDevs_subset : fsDevs names logwrites ⊆ names := by
  rw [fsDevs]
  split_ifs
  · exact List.dropLast_subset names
  · exact fun _ h => h

theorem fsDevs_length_le : (fsDevs names logwrites).length ≤ names.length := by
  rw [fsDevs]
  split_ifs
  · rw [List.length_dropLast]
    exact Nat.sub_le _ 1
  · exact le_refl _

/-- What the added lines set. -/
structure AddedVars (block : String) (names : List String) (logwrites : Bool)
    (var : String → Option String) : Prop where
  testDev : var "TEST_DEV" = (fsDevs names logwrites).head?
  testDir : var "TEST_DIR" = some "/media/test"
  scratchMnt : var "SCRATCH_MNT" = some "/media/scratch"
  scratchDev : var "SCRATCH_DEV" =
    if pools block names logwrites then none else (fsDevs names logwrites)[1]?
  scratchDevPool : var "SCRATCH_DEV_POOL" =
    if pools block names logwrites then some (Text.join " " (fsDevs names logwrites).tail) else none
  log : var "LOGWRITES_DEV" = if logwrites then names.getLast? else none

theorem Absent.vars (h : Absent block logwrites) (hnames : ∀ d ∈ names, PlainDevice d)
    (hlen : 2 ≤ (fsDevs names logwrites).length) :
    AddedVars block names logwrites fun k =>
      lastSet k (addedLines block (baseLines block names logwrites)) := by
  have hplain : ∀ l ∈ baseLines block names logwrites, PlainLine l :=
    baseLines_plain hnames (by rw [h.leftDevs_eq]; exact hlen)
  have hfs : ∀ d ∈ fsDevs names logwrites, PlainDevice d := fun d hd => hnames d (fsDevs_subset hd)
  have hsome := fun l hl => lastSet_toLine_some hplain baseLines_nodup (l := l) hl
  have hnone := fun k hk => lastSet_toLine_none (k := k) hplain hk
  have hdevice : ∀ key d, PlainDevice d → BaseLine.mk key d ∈ baseLines block names logwrites →
      lastSet key ((baseLines block names logwrites).map toLine) = some d := fun key d hd hl => by
    rw [hsome _ hl, stripQuotes_plain hd, String.ofList_toList]
  obtain ⟨a, b, rest, hdevs⟩ : ∃ a b rest, fsDevs names logwrites = a :: b :: rest := by
    match hd : fsDevs names logwrites, hlen with
    | a :: b :: rest, _ => exact ⟨a, b, rest, rfl⟩
  have hlines := h.baseLines_eq hdevs
  rw [h.addedLines_eq]
  rw [hdevs] at hfs
  constructor
  · rw [hdevs]
    refine hdevice "TEST_DEV" a (hfs a List.mem_cons_self) ?_
    rw [hlines]
    simp
  · refine (hsome ⟨"TEST_DIR", "/media/test"⟩ ?_).trans (by decide)
    rw [hlines]
    simp
  · refine (hsome ⟨"SCRATCH_MNT", "/media/scratch"⟩ ?_).trans (by decide)
    rw [hlines]
    simp
  · rw [hdevs]
    by_cases hpool : pools block names logwrites = true
    · rw [if_pos hpool]
      refine hnone "SCRATCH_DEV" ?_
      rw [hlines, if_pos hpool]
      cases logwrites <;> simp
    · rw [if_neg hpool]
      refine hdevice "SCRATCH_DEV" b (hfs b (List.mem_cons_of_mem a List.mem_cons_self)) ?_
      rw [hlines, if_neg hpool]
      simp
  · rw [hdevs]
    by_cases hpool : pools block names logwrites = true
    · rw [if_pos hpool]
      refine (hsome ⟨"SCRATCH_DEV_POOL", "\"" ++ Text.join " " (b :: rest) ++ "\""⟩ ?_).trans ?_
      · rw [hlines, if_pos hpool]
        simp
      · rw [String.toList_append, String.toList_append]
        exact congrArg some ((congrArg String.ofList (stripQuotes_quoted _)).trans
          String.ofList_toList)
    · rw [if_neg hpool]
      refine hnone "SCRATCH_DEV_POOL" ?_
      rw [hlines, if_neg hpool]
      cases logwrites <;> simp
  · cases logwrites with
    | false =>
        refine hnone "LOGWRITES_DEV" ?_
        rw [hlines]
        cases pools block names false <;> simp
    | true =>
        have hne : names ≠ [] := fun hnil => by
          rw [fsDevs, hnil] at hdevs
          cases hdevs
        rw [if_pos rfl, List.getLast?_eq_some_getLast hne]
        refine hdevice "LOGWRITES_DEV" _ (hnames _ (List.getLast_mem hne)) ?_
        rw [hlines, List.getLastD_eq_getLast?, List.getLast?_eq_some_getLast hne]
        simp

theorem mem_handed {a b : String} {rest : List String}
    (hdevs : fsDevs names logwrites = a :: b :: rest) {r d : String} :
    (r, d) ∈ handed block name names logwrites ↔
      r = "TEST_DEV" ∧ d = a ∨
      (pools block names logwrites = true ∧ r = "SCRATCH_DEV_POOL" ∧ d ∈ b :: rest) ∨
      (pools block names logwrites = false ∧ r = "SCRATCH_DEV" ∧ d = b) ∨
      ((r, d) ∈ (sectionExternalDevs block).zip rest ∧ sectionVar block name r = some "") ∨
      (logwrites = true ∧ r = "LOGWRITES_DEV" ∧ d = names.getLastD "") := by
  have hpool : (r, d) ∈ (if pools block names logwrites = true then
        (b :: rest).map (Prod.mk "SCRATCH_DEV_POOL") else [("SCRATCH_DEV", b)]) ↔
      (pools block names logwrites = true ∧ r = "SCRATCH_DEV_POOL" ∧ d ∈ b :: rest) ∨
        (pools block names logwrites = false ∧ r = "SCRATCH_DEV" ∧ d = b) := by
    cases pools block names logwrites with
    | true =>
        rw [if_pos rfl, List.mem_map]
        constructor
        · rintro ⟨x, hx, heq⟩
          obtain ⟨rfl, rfl⟩ := Prod.mk.inj heq
          exact .inl ⟨rfl, rfl, hx⟩
        · rintro (⟨-, rfl, hd⟩ | ⟨h, -⟩)
          · exact ⟨d, hd, rfl⟩
          · cases h
    | false =>
        rw [if_neg Bool.false_ne_true, List.mem_singleton, Prod.mk.injEq]
        exact ⟨fun h => .inr ⟨rfl, h⟩, fun h => (h.resolve_left fun h => nomatch h.1).2⟩
  have hlog : (r, d) ∈ (if logwrites = true then [("LOGWRITES_DEV", names.getLastD "")] else []) ↔
      logwrites = true ∧ r = "LOGWRITES_DEV" ∧ d = names.getLastD "" := by
    cases logwrites with
    | true => rw [if_pos rfl, List.mem_singleton, Prod.mk.injEq, and_iff_right rfl]
    | false => exact iff_of_false List.not_mem_nil fun h => nomatch h.1
  rw [handed, hdevs]
  change (r, d) ∈ ("TEST_DEV", a) :: ((if pools block names logwrites = true then
    (b :: rest).map (Prod.mk "SCRATCH_DEV_POOL") else [("SCRATCH_DEV", b)]) ++
      (((sectionExternalDevs block).zip rest).filter
        (fun p => sectionVar block name p.1 = some "") ++ _)) ↔ _
  rw [List.mem_cons, List.mem_append, List.mem_append, hpool, hlog, List.mem_filter,
    decide_eq_true_eq, Prod.mk.injEq, or_assoc]

/-- A device is handed out in a role, an external one that is empty. -/
theorem role_of_handed {role d : String} (h : (role, d) ∈ handed block name names logwrites) :
    role ∈ roles ∧ (role ∈ externalDevKeys → sectionVar block name role = some "") := by
  have hfixed : ∀ k ∈ ["TEST_DEV", "SCRATCH_DEV", "SCRATCH_DEV_POOL", "LOGWRITES_DEV"],
      k ∈ roles ∧ (k ∈ externalDevKeys → sectionVar block name k = some "") := fun k hk => by
    refine ⟨List.mem_append_left _ hk, fun hext => absurd ?_ (external_not_device hext)⟩
    simp only [List.mem_cons, List.not_mem_nil, or_false] at hk
    rcases hk with rfl | rfl | rfl | rfl <;> decide
  unfold handed at h
  rcases List.mem_cons.mp h with heq | h
  · cases heq
    exact hfixed _ (by decide)
  · rcases List.mem_append.mp h with h | h
    · split_ifs at h
      · obtain ⟨x, -, heq⟩ := List.mem_map.mp h
        cases heq
        exact hfixed _ (by decide)
      · cases List.mem_singleton.mp h
        exact hfixed _ (by decide)
    · rcases List.mem_append.mp h with h | h
      · obtain ⟨hzip, hempty⟩ := List.mem_filter.mp h
        have hext := (List.mem_filter.mp (List.of_mem_zip hzip).1).1
        exact ⟨List.mem_append_right _ hext, fun _ => of_decide_eq_true hempty⟩
      · split_ifs at h
        · cases List.mem_singleton.mp h
          exact hfixed _ (by decide)
        · cases h

theorem zip_snd_sublist {α β : Type*} (xs : List α) (ys : List β) :
    ((xs.zip ys).map Prod.snd).Sublist ys := by
  induction xs generalizing ys with
  | nil => exact List.nil_sublist ys
  | cons x xs ih =>
      cases ys with
      | nil => exact List.Sublist.refl []
      | cons y ys => exact (ih ys).cons_cons y

theorem fsDevs_append (hne : names ≠ []) :
    fsDevs names logwrites ++ (if logwrites then [names.getLastD ""] else []) = names := by
  cases logwrites with
  | false => exact List.append_nil names
  | true =>
      rw [fsDevs, if_pos rfl, if_pos rfl, List.getLastD_eq_getLast?,
        List.getLast?_eq_some_getLast hne]
      exact List.dropLast_append_getLast hne

/-- The devices handed out are devices of the list, each of them once. -/
theorem handed_sublist (hlen : 2 ≤ (fsDevs names logwrites).length) :
    ((handed block name names logwrites).map Prod.snd).Sublist names := by
  obtain ⟨a, b, rest, hdevs⟩ : ∃ a b rest, fsDevs names logwrites = a :: b :: rest := by
    match hd : fsDevs names logwrites, hlen with
    | a :: b :: rest, _ => exact ⟨a, b, rest, rfl⟩
  have hne : names ≠ [] := fun hnil => by
    have hmem := fsDevs_subset (hdevs ▸ List.mem_cons_self : a ∈ fsDevs names logwrites)
    rw [hnil] at hmem
    cases hmem
  have hall := @fsDevs_append names logwrites hne
  rw [hdevs] at hall
  have hext : ((((sectionExternalDevs block).zip rest).filter
      (fun p => sectionVar block name p.1 = some "")).map Prod.snd).Sublist rest :=
    ((List.filter_sublist).map Prod.snd).trans (zip_snd_sublist _ rest)
  have hlog : (if logwrites then [("LOGWRITES_DEV", names.getLastD "")] else []).map Prod.snd =
      if logwrites then [names.getLastD ""] else [] := by cases logwrites <;> rfl
  conv_rhs => rw [← hall]
  unfold handed
  rw [hdevs]
  dsimp only
  by_cases hpool : pools block names logwrites = true
  · have hnone : sectionExternalDevs block = [] := (of_decide_eq_true hpool).1
    rw [if_pos hpool, hnone]
    simp only [List.map_cons, List.map_append, List.map_map, List.zip_nil_left, List.filter_nil,
      List.nil_append, hlog]
    refine List.Sublist.cons_cons a (List.Sublist.append ?_ (List.Sublist.refl _))
    simp
  · rw [if_neg hpool]
    simp only [List.map_cons, List.map_append, hlog, List.cons_append]
    exact List.Sublist.cons_cons a (List.Sublist.cons_cons b (hext.append (List.Sublist.refl _)))

end

/-! ## The variables of a section after an injection -/

/-- The text of a section says what the section sets. -/
structure Reads (block name : String) (logwrites : Bool) : Prop where
  absent : Absent block logwrites
  once : ∀ key ∈ externalDevKeys, (setters block key).count (assignLine key []) ≤ 1
  bare : ∀ key ∈ externalDevKeys, sectionVar block name key = some "" →
    (setters block key).getLast? = some (assignLine key [])

/-- It does, and no device it sets is handed out. -/
structure Readable (block name : String) (devices : List Device) (logwrites : Bool) : Prop
    extends Reads block name logwrites where
  apart : ∀ key ∈ externalDevKeys, ∀ d ∈ devices.map Device.name,
    sectionVar block name key = some d →
      d ∉ (handed block name (devices.map Device.name) logwrites).map Prod.snd ∧
        ∀ key' ∈ externalDevKeys, sectionVar block name key' = some d → key' = key

/-- An injection that returned, into a section that names no device yet. -/
structure Injection (block name : String) (devices : List Device) (logwrites : Bool)
    (text : String) (ls : List (List Char)) : Prop where
  named : name.toList ≠ []
  lines : SectionLines block name ls
  newlines : NewlineOnly block.toList
  unset : ∀ key ∈ deviceKeys, sectionVar block name key = none
  plain : ∀ d ∈ devices.map Device.name, PlainDevice d
  distinct : (devices.map Device.name).Nodup
  ok : injectDeviceBase block devices logwrites = .ok text

section
variable {block name text : String} {devices : List Device} {logwrites : Bool}
  {ls : List (List Char)}

theorem fills_fst {names : List String}
    (hlen : 2 + (sectionExternalDevs block).length ≤ (leftDevs block names logwrites).length) :
    (fills block names logwrites).map Prod.fst = sectionExternalDevs block :=
  List.map_fst_zip (by
    rw [List.length_drop]
    omega)

theorem externals_nodup : (sectionExternalDevs block).Nodup :=
  List.Pairwise.filter _ (by decide)

/-- The lines and the variables of the result. -/
theorem Injection.result (i : Injection block name devices logwrites text ls) :
    ∃ ls', Fills (fills block (devices.map Device.name) logwrites) ls ls' ∧
      (fills block (devices.map Device.name) logwrites).map Prod.fst = sectionExternalDevs block ∧
      NewlineOnly text.toList ∧
      SectionLines text name (ls' ++
        addedLines block (baseLines block (devices.map Device.name) logwrites)) ∧
      ∀ k, sectionVar text name k =
        (lastSet k (addedLines block (baseLines block (devices.map Device.name) logwrites))).or
          (lastSet k ls') := by
  obtain ⟨ls', hfills, hnl, hlines⟩ := inject_lines i.lines i.newlines i.plain i.ok
  have hlen := (injectDeviceBase_ok_iff.mp i.ok).1
  exact ⟨ls', hfills, fills_fst hlen, hnl, hlines, fun k => by
    rw [sectionVar_eq hlines i.named, lastSet_append]⟩

/-- A device variable has the value of its line, if it is added. -/
theorem Injection.deviceVar (i : Injection block name devices logwrites text ls) {key : String}
    (hkey : key ∈ deviceKeys) : sectionVar text name key =
      lastSet key (addedLines block (baseLines block (devices.map Device.name) logwrites)) := by
  obtain ⟨ls', hfills, hfst, -, -, hvar⟩ := i.result
  have hkept : lastSet key ls' = none := by
    rw [lastSet_kept hfills (plainFills i.plain), ← sectionVar_eq i.lines i.named, i.unset key hkey]
    rw [hfst, sectionExternalDevs]
    exact fun hmem => external_not_device (List.mem_filter.mp hmem).1 hkey
  rw [hvar, hkept, Option.or_none]

/-- No added line sets any other variable. -/
theorem Injection.otherVar (i : Injection block name devices logwrites text ls) {key : String}
    (hkey : key ∉ deviceKeys) : ∃ ls',
      Fills (fills block (devices.map Device.name) logwrites) ls ls' ∧
        sectionVar text name key = lastSet key ls' := by
  obtain ⟨ls', hfills, -, -, -, hvar⟩ := i.result
  have hplain : ∀ l ∈ baseLines block (devices.map Device.name) logwrites, PlainLine l :=
    baseLines_plain i.plain (le_trans (Nat.le_add_right 2 _) (injectDeviceBase_ok_iff.mp i.ok).1)
  have hnone : lastSet key (addedLines block
      (baseLines block (devices.map Device.name) logwrites)) = none := by
    refine lastSet_toLine_none (fun l hl => hplain l (List.mem_filter.mp hl).1) fun l hl heq => ?_
    rw [← heq] at hkey
    exact hkey (baseLines_key (List.mem_filter.mp hl).1).1
  exact ⟨ls', hfills, by rw [hvar, hnone, Option.none_or]⟩

/-- A variable that is no device and not declared empty stays. -/
theorem Injection.keptVar (i : Injection block name devices logwrites text ls) {key : String}
    (hkey : key ∉ deviceKeys) (hext : key ∉ sectionExternalDevs block) :
    sectionVar text name key = sectionVar block name key := by
  obtain ⟨ls', hfills, hvar⟩ := i.otherVar hkey
  have hlen := (injectDeviceBase_ok_iff.mp i.ok).1
  rw [hvar, lastSet_kept hfills (plainFills i.plain) (by rw [fills_fst hlen]; exact hext),
    sectionVar_eq i.lines i.named]

/-- Where the text says what the section sets, an external variable is bound where it is
empty, and stays where it is not. -/
theorem Injection.externalVar (i : Injection block name devices logwrites text ls)
    (hr : Reads block name logwrites) {key : String} (hkey : key ∈ externalDevKeys) :
    (sectionVar block name key ≠ some "" → sectionVar text name key = sectionVar block name key) ∧
      (sectionVar block name key = some "" →
        ∃ d, (key, d) ∈ fills block (devices.map Device.name) logwrites ∧
          sectionVar text name key = some d) := by
  have hnot := external_not_device hkey
  have hlen := (injectDeviceBase_ok_iff.mp i.ok).1
  have hbare := hr.bare key hkey
  have honce := hr.once key hkey
  rw [setters_eq i.lines] at hbare honce
  by_cases hext : key ∈ sectionExternalDevs block
  · obtain ⟨ls', hfills, hvar⟩ := i.otherVar hnot
    rw [← fills_fst hlen] at hext
    obtain ⟨⟨k, d⟩, hmem, rfl⟩ := List.mem_map.mp hext
    have hempty := ((mem_externals_iff i.lines i.newlines).mp
      (fills_fst hlen ▸ List.mem_map_of_mem hmem)).2
    have hfilled := (lastSet_filled hfills (plainFills i.plain)
      (by rw [fills_fst hlen]; exact externals_nodup) hmem hempty honce
      (by rwa [← sectionVar_eq i.lines i.named])).1
    rw [← hvar, ← sectionVar_eq i.lines i.named] at hfilled
    rw [hfilled]
    exact ⟨fun hne => if_neg hne, fun heq => ⟨d, hmem, if_pos heq⟩⟩
  · refine ⟨fun _ => i.keptVar hnot hext, fun heq => absurd ?_ hext⟩
    refine (mem_externals_iff i.lines i.newlines).mpr ⟨hkey, ?_⟩
    exact (List.mem_filter.mp (List.mem_of_getLast? (hbare heq))).1

/-- There are two devices at least for the file systems. -/
theorem Injection.fsDevs (i : Injection block name devices logwrites text ls)
    (ha : Absent block logwrites) : ∃ a b rest,
      fsDevs (devices.map Device.name) logwrites = a :: b :: rest := by
  have hlen := (injectDeviceBase_ok_iff.mp i.ok).1
  rw [ha.leftDevs_eq] at hlen
  match hd : Fstests.fsDevs (devices.map Device.name) logwrites, le_trans (Nat.le_add_right 2 _) hlen with
  | a :: b :: rest, _ => exact ⟨a, b, rest, rfl⟩

theorem Injection.addedVars (i : Injection block name devices logwrites text ls)
    (ha : Absent block logwrites) :
    AddedVars block (devices.map Device.name) logwrites (sectionVar text name) := by
  obtain ⟨a, b, rest, hdevs⟩ := i.fsDevs ha
  have hvars := ha.vars i.plain (by rw [hdevs]; exact Nat.le_add_left 2 _)
  exact ⟨(i.deviceVar (by decide)).trans hvars.testDev,
    (i.deviceVar (by decide)).trans hvars.testDir,
    (i.deviceVar (by decide)).trans hvars.scratchMnt,
    (i.deviceVar (by decide)).trans hvars.scratchDev,
    (i.deviceVar (by decide)).trans hvars.scratchDevPool,
    (i.deviceVar (by decide)).trans hvars.log⟩

/-- A device of the list has a role because it was handed out, or because the section set an
external variable to it. -/
theorem Injection.boundTo_iff (i : Injection block name devices logwrites text ls)
    (hr : Reads block name logwrites) {role d : String} (hrole : role ∈ roles)
    (hd : d ∈ devices.map Device.name) :
    d ∈ boundTo text name role ↔
      (role, d) ∈ handed block name (devices.map Device.name) logwrites ∨
        role ∈ externalDevKeys ∧ sectionVar block name role = some d := by
  obtain ⟨a, b, rest, hdevs⟩ := i.fsDevs hr.absent
  have hvars := i.addedVars hr.absent
  have hfs : ∀ x ∈ a :: b :: rest, PlainDevice x := fun x hx => i.plain x (fsDevs_subset (hdevs ▸ hx))
  have hzip : ∀ r x, (r, x) ∈ (sectionExternalDevs block).zip rest → r ∈ externalDevKeys :=
    fun r x hx => (List.mem_filter.mp (List.of_mem_zip hx).1).1
  rw [mem_handed hdevs]
  rcases List.mem_append.mp hrole with hfixed | hext
  · have hno : role ∉ externalDevKeys := fun h => external_not_device h (by
      simp only [List.mem_cons, List.not_mem_nil, or_false] at hfixed
      rcases hfixed with rfl | rfl | rfl | rfl <;> decide)
    have hnozip : (role, d) ∉ (sectionExternalDevs block).zip rest := fun h => hno (hzip _ _ h)
    simp only [hno, hnozip, false_and, or_false, false_or]
    simp only [List.mem_cons, List.not_mem_nil, or_false] at hfixed
    rcases hfixed with rfl | rfl | rfl | rfl
    · rw [boundTo, hvars.testDev, hdevs]
      simp
    · rw [boundTo, hvars.scratchDev, hdevs]
      cases pools block (devices.map Device.name) logwrites <;> simp
    · rw [boundTo, hvars.scratchDevPool, hdevs]
      cases pools block (devices.map Device.name) logwrites with
      | false => simp
      | true =>
          have hwords := words_join fun x hx => (hfs x (List.mem_cons_of_mem a hx)).solid
          simp [hwords]
    · rw [boundTo, hvars.log]
      cases logwrites with
      | false => simp
      | true =>
          have hne : devices.map Device.name ≠ [] := List.ne_nil_of_mem hd
          rw [List.getLastD_eq_getLast?, List.getLast?_eq_some_getLast hne]
          simp
  · have hpool : role ≠ "SCRATCH_DEV_POOL" := fun h =>
      external_not_device hext (h ▸ by decide)
    have hnot : role ≠ "TEST_DEV" ∧ role ≠ "SCRATCH_DEV" ∧ role ≠ "LOGWRITES_DEV" :=
      ⟨fun h => external_not_device hext (h ▸ by decide),
        fun h => external_not_device hext (h ▸ by decide),
        fun h => external_not_device hext (h ▸ by decide)⟩
    have hbound : d ∈ boundTo text name role ↔ sectionVar text name role = some d := by
      rw [boundTo]
      cases sectionVar text name role with
      | none => simp
      | some v => simp [hpool, eq_comm]
    obtain ⟨hkept, hgiven⟩ := i.externalVar hr hext
    have hleft : fills block (devices.map Device.name) logwrites =
        (sectionExternalDevs block).zip rest := by
      rw [fills, hr.absent.leftDevs_eq, hdevs]
      rfl
    simp only [hbound, hpool, hnot, hext, false_and, and_false, or_false, false_or, true_and]
    by_cases hempty : sectionVar block name role = some ""
    · obtain ⟨x, hx, hvar⟩ := hgiven hempty
      have hd' : "" ≠ d := fun h => (i.plain d hd).ne_nil (h ▸ rfl)
      rw [hvar, hempty]
      simp only [Option.some.injEq, and_true, hd', or_false]
      refine ⟨fun h => h ▸ hleft ▸ hx, fun h => ?_⟩
      have hnodup : ((fills block (devices.map Device.name) logwrites).map Prod.fst).Nodup := by
        rw [fills_fst (injectDeviceBase_ok_iff.mp i.ok).1]
        exact externals_nodup
      have hsame : (role, x) = (role, d) :=
        List.inj_on_of_nodup_map hnodup hx (by rw [hleft]; exact h) rfl
      exact congrArg Prod.snd hsame
    · rw [hkept hempty]
      simp [hempty]

/-! ## Injecting again -/

/-- A key is in the text where a line under the header sets it. -/
theorem hasKey_of_line {key : String} {value : List Char}
    (h : SectionLines text name ls) (hmem : assignLine key value ∈ ls) :
    hasKey text key = true := by
  obtain ⟨header, n, hlines, -⟩ := h
  refine (isInfix_iff _ _).mpr ?_
  have hline := infix_of_mem_contents (hlines ▸ List.mem_cons_of_mem header hmem)
  have hkey : (key ++ "=").toList <:+: assignLine key value := by
    rw [String.toList_append]
    exact ⟨[], value, by rw [assignLine]; simp⟩
  exact hkey.trans hline

/-- No added line asks for a device. -/
theorem not_added {names : List String}
    (hplain : ∀ l ∈ baseLines block names logwrites, PlainLine l) {key : String}
    (hkey : key ∈ externalDevKeys) :
    assignLine key [] ∉ addedLines block (baseLines block names logwrites) := by
  intro hmem
  obtain ⟨l, hl, heq⟩ := List.mem_map.mp hmem
  have hl := (List.mem_filter.mp hl).1
  have hset := assignment_assignLine (hplain l hl).key (hplain l hl).ends
  rw [← toLine, heq, assignment_assignLine (plainKey_external hkey).1 endsPlain_nil] at hset
  refine external_not_device hkey ?_
  have hsame : key = l.key := congrArg Prod.fst (Option.some.inj hset)
  rw [hsame]
  exact (baseLines_key hl).1

/-- No line asks for a device any more. -/
theorem Injection.externals_done (i : Injection block name devices logwrites text ls)
    (hr : Reads block name logwrites) : sectionExternalDevs text = [] := by
  obtain ⟨ls', hfills, hfst, hnl, hlines, -⟩ := i.result
  rw [List.eq_nil_iff_forall_not_mem]
  intro key hmem
  obtain ⟨hkey, hempty⟩ := (mem_externals_iff hlines hnl).mp hmem
  have hbare := hr.bare key hkey
  have honce := hr.once key hkey
  rw [setters_eq i.lines] at hbare honce
  rcases List.mem_append.mp hempty with hempty | hadded
  · by_cases hext : key ∈ sectionExternalDevs block
    · have hin := hext
      rw [← hfst] at hin
      obtain ⟨⟨k, d⟩, hpair, rfl⟩ := List.mem_map.mp hin
      exact (lastSet_filled hfills (plainFills i.plain) (hfst ▸ externals_nodup) hpair
        ((mem_externals_iff i.lines i.newlines).mp hext).2 honce
        (by rwa [← sectionVar_eq i.lines i.named])).2 hempty
    · have hself : sets key (assignLine key []) = true := by
        rw [sets_assignLine (plainKey_external hkey).1 endsPlain_nil]
        exact decide_eq_true rfl
      have hin := List.mem_filter.mpr ⟨hempty, hself⟩
      rw [hfills.filter_sets (plainFills i.plain) (hfst ▸ hext)] at hin
      exact hext ((mem_externals_iff i.lines i.newlines).mpr ⟨hkey, (List.mem_filter.mp hin).1⟩)
  · exact not_added (baseLines_plain i.plain
      (le_trans (Nat.le_add_right 2 _) (injectDeviceBase_ok_iff.mp i.ok).1)) hkey hadded

/-- Every key of a line to add is in the text. -/
theorem Injection.hasKeys (i : Injection block name devices logwrites text ls)
    (ha : Absent block logwrites) {l : BaseLine}
    (hl : l ∈ baseLines block (devices.map Device.name) logwrites) :
    hasKey text l.key = true := by
  obtain ⟨ls', -, -, -, hlines, -⟩ := i.result
  have hmem : toLine l ∈ addedLines block (baseLines block (devices.map Device.name) logwrites) := by
    rw [ha.addedLines_eq]
    exact List.mem_map_of_mem hl
  exact hasKey_of_line hlines (List.mem_append_right ls' hmem)

theorem getLast?_assignLine (key : String) {value : List Char} (hv : EndsPlain value) :
    ∃ c, (assignLine key value).getLast? = some c ∧ isSpace c = false := by
  rw [assignLine, List.getLast?_append_of_ne_nil _ (List.cons_ne_nil _ _)]
  cases value with
  | nil => exact ⟨'=', rfl, by decide⟩
  | cons v vs =>
      rw [List.getLast?_cons_cons]
      obtain ⟨c, hc⟩ := Option.isSome_iff_exists.mp
        (List.getLast?_isSome.mpr (List.cons_ne_nil v vs))
      exact ⟨c, hc, hv c hc⟩

theorem rstripBy_newline {s : List Char} {c : Char} (hlast : s.getLast? = some c) (hc : c ≠ '\n') :
    rstripBy (· = '\n') (s ++ ['\n']) = s := by
  obtain ⟨front, rfl⟩ := List.getLast?_eq_some_iff.mp hlast
  rw [rstripBy, List.reverse_append, List.reverse_singleton, List.singleton_append,
    List.dropWhile_cons_of_pos (by decide), List.reverse_append, List.reverse_singleton,
    List.singleton_append, List.dropWhile_cons_of_neg (by simpa using hc)]
  simp

/-- The text ends in one line feed. -/
theorem Injection.ends (i : Injection block name devices logwrites text ls)
    (ha : Absent block logwrites) :
    rstripBy (· = '\n') text.toList ++ ['\n'] = text.toList := by
  obtain ⟨a, b, rest, hdevs⟩ := i.fsDevs ha
  obtain ⟨hlen, body, -, rfl⟩ := injectDeviceBase_ok_iff.mp i.ok
  have hplain := baseLines_plain i.plain (le_trans (Nat.le_add_right 2 _) hlen)
  have hlines := @Absent.addedLines_eq block (devices.map Device.name) logwrites ha
  have hne : baseLines block (devices.map Device.name) logwrites ≠ [] := by
    rw [ha.baseLines_eq hdevs]
    simp
  generalize baseLines block (devices.map Device.name) logwrites = base at *
  obtain ⟨init, l, rfl⟩ := (List.eq_nil_or_concat base).resolve_left hne
  rw [List.concat_eq_append] at hplain hlines ⊢
  obtain ⟨c, hc, hspace⟩ := getLast?_assignLine l.key
    (hplain l (List.mem_append_right _ (List.mem_singleton_self l))).ends
  have htext : (addBase block body (init ++ [l])).toList = (body.toList ++ '\n' ::
      ((init.map toLine).flatMap (· ++ ['\n']) ++ toLine l)) ++ ['\n'] := by
    rw [toList_addBase, hlines, if_neg (by simp), List.map_append, List.map_singleton,
      intercalate_snoc]
    simp only [List.append_assoc, List.cons_append]
  rw [htext, rstripBy_newline (c := c)]
  · rw [← List.cons_append, ← List.append_assoc, List.getLast?_append_of_ne_nil]
    · exact hc
    · exact List.ne_nil_of_mem (List.mem_of_getLast? hc)
  · rintro rfl
    exact absurd hspace (by decide)

/-- Injecting again changes nothing. -/
theorem Injection.again (i : Injection block name devices logwrites text ls)
    (hr : Reads block name logwrites) : injectDeviceBase text devices logwrites = .ok text := by
  obtain ⟨a, b, rest, hdevs⟩ := i.fsDevs hr.absent
  have hnone := i.externals_done hr
  have hkeys := fun l hl => @Injection.hasKeys block name text devices logwrites ls i hr.absent l hl
  rw [hr.absent.baseLines_eq hdevs] at hkeys
  have hcarves : carves text logwrites = false := by
    cases logwrites with
    | false => rfl
    | true =>
        have hlog := hkeys ⟨"LOGWRITES_DEV", (devices.map Device.name).getLastD ""⟩ (by simp)
        rw [carves, hlog]
        rfl
  have hscratch : (hasKey text "SCRATCH_DEV" || hasKey text "SCRATCH_DEV_POOL") = true := by
    cases hpool : pools block (devices.map Device.name) logwrites with
    | false =>
        rw [hkeys ⟨"SCRATCH_DEV", b⟩ (by simp [hpool])]
        rfl
    | true =>
        rw [hkeys ⟨"SCRATCH_DEV_POOL", "\"" ++ Text.join " " (b :: rest) ++ "\""⟩ (by simp [hpool]),
          Bool.or_true]
  have hleft : leftDevs text (devices.map Device.name) logwrites = devices.map Device.name := by
    rw [leftDevs, hcarves]
    rfl
  have hlen : 2 ≤ (devices.map Device.name).length := by
    have hle := @fsDevs_length_le (devices.map Device.name) logwrites
    rw [hdevs] at hle
    exact le_trans (Nat.le_add_left 2 _) hle
  have hadded : addedLines text (baseLines text (devices.map Device.name) logwrites) = [] := by
    rw [addedLines, List.map_eq_nil_iff, List.filter_eq_nil_iff]
    intro l hl
    unfold baseLines at hl
    rw [hscratch, hcarves] at hl
    have hkey : l.key ∈ ["TEST_DEV", "TEST_DIR", "SCRATCH_MNT"] := by
      rcases List.mem_append.mp hl with hl | hl
      · rcases List.mem_append.mp hl with hl | hl
        · exact List.mem_map_of_mem hl
        · cases hl
      · cases hl
    have hhas : hasKey text l.key = true := by
      simp only [List.mem_cons, List.not_mem_nil, or_false] at hkey
      rcases hkey with h | h | h
      · rw [h]
        exact hkeys ⟨"TEST_DEV", a⟩ (by simp)
      · rw [h]
        exact hkeys ⟨"TEST_DIR", "/media/test"⟩ (by simp)
      · rw [h]
        exact hkeys ⟨"SCRATCH_MNT", "/media/scratch"⟩ (by simp)
    rw [hhas]
    decide
  refine injectDeviceBase_ok_iff.mpr ⟨?_, String.ofList (rstripBy (· = '\n') text.toList), ?_, ?_⟩
  · rw [hnone, hleft]
    exact hlen
  · rw [fills, hnone]
    rfl
  · rw [← String.toList_inj, toList_addBase, hadded, if_pos rfl, String.toList_ofList]
    exact (i.ends hr.absent).symm

/-! ## When a section is bound to its devices -/

theorem Injection.injected (i : Injection block name devices logwrites text ls)
    (hr : Readable block name devices logwrites) :
    Injected block name devices logwrites text := by
  obtain ⟨a, b, rest, hdevs⟩ := i.fsDevs hr.absent
  have hvars := i.addedVars hr.absent
  have hne : devices.map Device.name ≠ [] := fun hnil => by
    rw [hnil] at hdevs
    cases logwrites <;> cases hdevs
  have hnodup := List.Nodup.sublist (@handed_sublist block name _ logwrites
    (by rw [hdevs]; exact Nat.le_add_left 2 _)) i.distinct
  refine ⟨?_, hvars.testDir, hvars.scratchMnt, ?_, ?_, hvars.log, ?_, ?_, i.again hr.toReads⟩
  · have hall := @fsDevs_append _ logwrites hne
    rw [hdevs] at hall
    rw [hvars.testDev, hdevs, ← hall]
    rfl
  · rw [hvars.scratchDev, hvars.scratchDevPool, hdevs]
    cases pools block (devices.map Device.name) logwrites <;> simp
  · intro key hkey hempty
    obtain ⟨d, hd, hvar⟩ := (i.externalVar hr.toReads hkey).2 hempty
    exact ⟨d, leftDevs_subset (List.drop_subset _ _ (List.of_mem_zip hd).2), hvar⟩
  · intro d hd r hr₁ r' hr₂ h h'
    rw [i.boundTo_iff hr.toReads hr₁ hd] at h
    rw [i.boundTo_iff hr.toReads hr₂ hd] at h'
    rcases h with h | ⟨hext, h⟩
    · rcases h' with h' | ⟨hext', h'⟩
      · exact congrArg Prod.fst (List.inj_on_of_nodup_map hnodup h h' rfl)
      · exact absurd (List.mem_map_of_mem h) (hr.apart r' hext' d hd h').1
    · rcases h' with h' | ⟨hext', h'⟩
      · exact absurd (List.mem_map_of_mem h') (hr.apart r hext d hd h).1
      · exact (hr.apart r' hext' d hd h').2 r hext h
  · intro key hkey hset
    by_cases hext : key ∈ externalDevKeys
    · exact (i.externalVar hr.toReads hext).1 (hset hext)
    · exact i.keptVar hkey fun h => hext (List.mem_filter.mp h).1

/-- A key of a line to add that is in the text keeps its line out. -/
theorem Injection.absent (i : Injection block name devices logwrites text ls)
    (h : Injected block name devices logwrites text) : Absent block logwrites := by
  have hlen := (injectDeviceBase_ok_iff.mp i.ok).1
  have hplain := baseLines_plain i.plain (le_trans (Nat.le_add_right 2 _) hlen)
  have hne : devices.map Device.name ≠ [] := fun hnil => by
    rw [hnil] at hlen
    unfold leftDevs at hlen
    split_ifs at hlen <;> simp at hlen
  -- the variable has no line, so it has no value
  have hnone : ∀ key ∈ deviceKeys, (∀ l ∈ baseLines block (devices.map Device.name) logwrites,
      l.key = key → hasKey block key = true) → sectionVar text name key = none := by
    intro key hkey hall
    rw [i.deviceVar hkey, addedLines]
    refine lastSet_toLine_none (fun l hl => hplain l (List.mem_filter.mp hl).1) fun l hl heq => ?_
    obtain ⟨hl, hno⟩ := List.mem_filter.mp hl
    rw [heq, hall l hl heq] at hno
    cases hno
  have hsome : ∀ key ∈ deviceKeys, hasKey block key = true → sectionVar text name key = none :=
    fun key hkey hhas => hnone key hkey fun _ _ _ => hhas
  intro key hkey hlog
  refine Bool.eq_false_iff.mpr fun hhas => ?_
  have hvar := hsome key hkey hhas
  have hscratch : (hasKey block "SCRATCH_DEV" || hasKey block "SCRATCH_DEV_POOL") = true → False := by
    intro heither
    have hno : ∀ k, k = "SCRATCH_DEV" ∨ k = "SCRATCH_DEV_POOL" → sectionVar text name k = none := by
      intro k hk
      refine hnone k (by rcases hk with rfl | rfl <;> decide) fun l hl heq => ?_
      exact absurd (heq ▸ hk) (baseLines_scratch heither hl)
    exact h.scratch (by rw [hno _ (.inl rfl), hno _ (.inr rfl)])
  simp only [deviceKeys, List.mem_cons, List.not_mem_nil, or_false] at hkey
  rcases hkey with rfl | rfl | rfl | rfl | rfl | rfl
  · exact hne (List.head?_eq_none_iff.mp (h.testDev.symm.trans hvar))
  · rw [h.testDir] at hvar
    cases hvar
  · rw [h.scratchMnt] at hvar
    cases hvar
  · exact hscratch (by rw [hhas]; rfl)
  · exact hscratch (by rw [hhas, Bool.or_true])
  · rw [h.log, hlog rfl, if_pos rfl] at hvar
    exact hne (List.getLast?_eq_none_iff.mp hvar)

theorem SectionLines.unique {ls' : List (List Char)} (h : SectionLines text name ls)
    (h' : SectionLines text name ls') : ls = ls' := by
  obtain ⟨header, _, hlines, -⟩ := h
  obtain ⟨header', _, hlines', -⟩ := h'
  exact (List.cons.inj (hlines.symm.trans hlines')).2

/-- An injection leaves an external variable one empty line less, if it has any. -/
theorem count_injected (hlines : SectionLines block name ls) (hnl : NewlineOnly block.toList)
    (hplain : ∀ d ∈ devices.map Device.name, PlainDevice d)
    (hok : injectDeviceBase block devices logwrites = .ok text) {key : String}
    (hkey : key ∈ externalDevKeys) (hpos : 0 < ls.count (assignLine key [])) :
    ∃ ls', SectionLines text name ls' ∧ NewlineOnly text.toList ∧
      ls'.count (assignLine key []) + 1 = ls.count (assignLine key []) := by
  obtain ⟨ls', hfills, hnl', hlines'⟩ := inject_lines hlines hnl hplain hok
  have hlen := (injectDeviceBase_ok_iff.mp hok).1
  have hnot := not_added (baseLines_plain hplain (le_trans (Nat.le_add_right 2 _) hlen)) hkey
  have hself : sets key (assignLine key []) = true := by
    rw [sets_assignLine (plainKey_external hkey).1 endsPlain_nil]
    exact decide_eq_true rfl
  have hempty := List.count_pos_iff.mp hpos
  have hmem := (mem_externals_iff hlines hnl).mpr ⟨hkey, hempty⟩
  rw [← fills_fst hlen] at hmem
  obtain ⟨⟨k, d⟩, hpair, hk⟩ := List.mem_map.mp hmem
  have hk : k = key := hk
  subst hk
  obtain ⟨pre, post, hls, hls'⟩ := hfills.filter_filled (plainFills hplain)
    (by rw [fills_fst hlen]; exact externals_nodup) hpair hempty
  have hd := (plainFills hplain _ hpair).2.2
  have hfilled : assignLine k d.toList ≠ assignLine k [] := fun heq =>
    hd.ne_nil (List.cons.inj (List.append_cancel_left heq)).2
  refine ⟨_, hlines', hnl', ?_⟩
  rw [List.count_append, List.count_eq_zero.mpr hnot, ← List.count_filter (p := sets k) hself,
    ← List.count_filter (p := sets k) (l := ls) hself, hls, hls', List.count_append,
    List.count_append, List.count_cons_of_ne hfilled, List.count_cons_self]
  omega

/-- Two empty lines of an external variable leave one, that the next injection fills in. -/
theorem Injection.once (i : Injection block name devices logwrites text ls)
    (hagain : injectDeviceBase text devices logwrites = .ok text) {key : String}
    (hkey : key ∈ externalDevKeys) : (setters block key).count (assignLine key []) ≤ 1 := by
  have hself : sets key (assignLine key []) = true := by
    rw [sets_assignLine (plainKey_external hkey).1 endsPlain_nil]
    exact decide_eq_true rfl
  rw [setters_eq i.lines, List.count_filter hself]
  by_contra htwo
  obtain ⟨ls', hlines', hnl', hcount'⟩ := count_injected i.lines i.newlines i.plain i.ok hkey
    (by omega)
  obtain ⟨ls'', hlines'', -, hcount''⟩ := count_injected hlines' hnl' i.plain hagain hkey (by omega)
  rw [hlines''.unique hlines'] at hcount''
  omega

/-- An empty variable that is bound is so by its empty line, which is the last to set it. -/
theorem Injection.bare (i : Injection block name devices logwrites text ls)
    (h : Injected block name devices logwrites text) {key : String}
    (hkey : key ∈ externalDevKeys) (hempty : sectionVar block name key = some "") :
    (setters block key).getLast? = some (assignLine key []) := by
  obtain ⟨d, hd, hvar⟩ := h.external key hkey hempty
  have hnot := external_not_device hkey
  have hlen := (injectDeviceBase_ok_iff.mp i.ok).1
  have hne : d ≠ "" := fun heq => (i.plain d hd).ne_nil (heq ▸ rfl)
  by_cases hext : key ∈ sectionExternalDevs block
  · obtain ⟨ls', hfills, hset⟩ := i.otherVar hnot
    have hmem := hext
    rw [← fills_fst hlen] at hmem
    obtain ⟨⟨k, d'⟩, hpair, hk⟩ := List.mem_map.mp hmem
    have hk : k = key := hk
    subst hk
    obtain ⟨pre, post, hls, -, hbefore, hafter, hlast⟩ := filled_split hfills (plainFills i.plain)
      (by rw [fills_fst hlen]; exact externals_nodup) hpair
      ((mem_externals_iff i.lines i.newlines).mp hext).2
    rw [setters_eq i.lines, hls]
    by_cases hnil : post = []
    · rw [hnil, List.getLast?_concat]
    · -- a later line would give it the same value before and after
      obtain ⟨v, hv⟩ := hlast hnil
      rw [hset, hafter, hv] at hvar
      rw [sectionVar_eq i.lines i.named, hbefore, hv] at hempty
      exact absurd (Option.some.inj (hvar.symm.trans hempty)) hne
  · rw [i.keptVar hnot hext, hempty] at hvar
    exact absurd (Option.some.inj hvar).symm hne

/-- When the section a config declares is bound to its devices by an injection. -/
theorem injected_iff {cfg name text : String} {devices : List Device} {logwrites : Bool}
    (hs : name.toList ∈ parseSections cfg)
    (hunset : ∀ key ∈ deviceKeys, sectionVar (sectionBlock cfg name) name key = none)
    (hplain : ∀ d ∈ devices.map Device.name, PlainDevice d)
    (hdistinct : (devices.map Device.name).Nodup)
    (hok : injectDeviceBase (sectionBlock cfg name) devices logwrites = .ok text) :
    Injected (sectionBlock cfg name) name devices logwrites text ↔
      Readable (sectionBlock cfg name) name devices logwrites := by
  obtain ⟨hnl, hname, ls, hls⟩ := sectionBlock_lines hs
  have i : Injection (sectionBlock cfg name) name devices logwrites text ls :=
    ⟨hname, hls, hnl, hunset, hplain, hdistinct, hok⟩
  refine ⟨fun h => ?_, i.injected⟩
  have hreads : Reads (sectionBlock cfg name) name logwrites :=
    ⟨i.absent h, fun key hkey => i.once h.again hkey, fun key hkey => i.bare h hkey⟩
  refine ⟨hreads, fun key hkey d hd hset => ⟨fun hgiven => ?_, fun key' hkey' hset' => ?_⟩⟩
  · obtain ⟨⟨role, d'⟩, hmem, heq⟩ := List.mem_map.mp hgiven
    have heq : d' = d := heq
    subst heq
    have hkeyRole : key ∈ roles := List.mem_append_right _ hkey
    obtain ⟨hrole, hother⟩ := role_of_handed hmem
    have hsame := h.oneRole d' hd role hrole key hkeyRole
      ((i.boundTo_iff hreads hrole hd).mpr (.inl hmem))
      ((i.boundTo_iff hreads hkeyRole hd).mpr (.inr ⟨hkey, hset⟩))
    rw [hsame, hset] at hother
    exact (i.plain d' hd).ne_nil (Option.some.inj (hother hkey) ▸ rfl)
  · have hrole : ∀ k ∈ externalDevKeys, k ∈ roles := fun k hk => List.mem_append_right _ hk
    exact h.oneRole d hd key' (hrole key' hkey') key (hrole key hkey)
      ((i.boundTo_iff hreads (hrole key' hkey') hd).mpr (.inr ⟨hkey', hset'⟩))
      ((i.boundTo_iff hreads (hrole key hkey) hd).mpr (.inr ⟨hkey, hset⟩))

end

/-! ## Sample sections -/

/-- A disk and its partner. -/
def sampleDevices : List Device :=
  [⟨"/dev/vda", none⟩, ⟨"/dev/vdb", none⟩, ⟨"/dev/vdc", none⟩, ⟨"/dev/vdd", none⟩]

theorem sampleDevices_plain : ∀ d ∈ sampleDevices.map Device.name, PlainDevice d := by
  have hall : ∀ d ∈ sampleDevices.map Device.name, (!d.toList.isEmpty && d.toList.all fun c =>
      !isSpace c && (c != '\\' && (c != '\'' && c != '"'))) = true := by decide
  intro d hd
  have h := hall d hd
  rw [Bool.and_eq_true, List.all_eq_true] at h
  refine ⟨fun hnil => ?_, fun c hc => ?_⟩
  · rw [hnil] at h
    cases h.1
  · simpa using h.2 c hc

/-- A section with an external log for both file systems. -/
def logSection : String := "[log]\nFSTYP=xfs\nTEST_LOGDEV=\nSCRATCH_LOGDEV=\n"

theorem injected_log :
    Injected (sectionBlock logSection "log") "log" sampleDevices false
      "[log]\nFSTYP=xfs\nTEST_LOGDEV=/dev/vdc\nSCRATCH_LOGDEV=/dev/vdd\nTEST_DEV=/dev/vda\nTEST_DIR=/media/test\nSCRATCH_MNT=/media/scratch\nSCRATCH_DEV=/dev/vdb\n" :=
  (injected_iff (by decide) (by decide +kernel) sampleDevices_plain (by decide)
    (by decide +kernel)).mpr
    { absent := by unfold Absent; decide +kernel
      once := by decide +kernel
      bare := by decide +kernel
      apart := by decide +kernel }

/-- Two disks. -/
def twoDevices : List Device := [⟨"/dev/vda", none⟩, ⟨"/dev/vdb", none⟩]

/-- A comment that names a variable, a quoted empty variable, and a variable that is set to one
of the devices. -/
theorem injected_fails :
    (∃ text, injectDeviceBase (sectionBlock "[a]\n# TEST_DEV= is set later\n" "a") twoDevices false =
        .ok text ∧ ¬Injected (sectionBlock "[a]\n# TEST_DEV= is set later\n" "a") "a" twoDevices false
          text) ∧
      (∃ text, injectDeviceBase (sectionBlock "[a]\nTEST_RTDEV=\"\"\n" "a") twoDevices false =
        .ok text ∧ ¬Injected (sectionBlock "[a]\nTEST_RTDEV=\"\"\n" "a") "a" twoDevices false
          text) ∧
      ∃ text, injectDeviceBase (sectionBlock "[a]\nTEST_LOGDEV=/dev/vdb\n" "a") twoDevices false =
        .ok text ∧ ¬Injected (sectionBlock "[a]\nTEST_LOGDEV=/dev/vdb\n" "a") "a" twoDevices false
          text := by
  refine ⟨⟨"[a]\n# TEST_DEV= is set later\nTEST_DIR=/media/test\nSCRATCH_MNT=/media/scratch\nSCRATCH_DEV=/dev/vdb\n",
      by decide +kernel, fun h => ?_⟩,
    ⟨"[a]\nTEST_RTDEV=\"\"\nTEST_DEV=/dev/vda\nTEST_DIR=/media/test\nSCRATCH_MNT=/media/scratch\nSCRATCH_DEV=/dev/vdb\n",
      by decide +kernel, fun h => ?_⟩,
    ⟨"[a]\nTEST_LOGDEV=/dev/vdb\nTEST_DEV=/dev/vda\nTEST_DIR=/media/test\nSCRATCH_MNT=/media/scratch\nSCRATCH_DEV=/dev/vdb\n",
      by decide +kernel, fun h => ?_⟩⟩
  · exact absurd h.testDev (by decide +kernel)
  · exact absurd (h.external "TEST_RTDEV" (by decide) (by decide +kernel)) (by decide +kernel)
  · exact absurd (h.oneRole "/dev/vdb" (by decide) "SCRATCH_DEV" (by decide) "TEST_LOGDEV"
      (by decide) (by decide +kernel) (by decide +kernel)) (by decide)

end KdevopsNg.Fstests
