/-
# `Fstests.Inject` — what an injection does to a section

`inject_device_base` fills a device into the first line `KEY=` of each external
variable that has one (`Fills`), and adds the lines whose `KEY=` is nowhere in
the text (`addedLines`).  `inject_lines` says so of the lines under the header,
and `sectionVar_eq` that the variables of the section are what these lines set.
-/
import KdevopsNg.Fstests.EmptyDev

namespace KdevopsNg.Fstests

open Py Text

/-! ## What is added -/

section
variable (block : String) (names : List String) (logwrites : Bool)

/-- The last device is kept for the log. -/
def carves : Bool := logwrites && !hasKey block "LOGWRITES_DEV"

/-- The devices that are left for the file systems. -/
def leftDevs : List String := if carves block logwrites then names.dropLast else names

/-- The lines `inject_device_base` adds where their key is not there. -/
def baseLines : List BaseLine :=
  let devs := leftDevs block names logwrites
  [⟨"TEST_DEV", devs.headD ""⟩, ⟨"TEST_DIR", "/media/test"⟩, ⟨"SCRATCH_MNT", "/media/scratch"⟩] ++
  (if hasKey block "SCRATCH_DEV" || hasKey block "SCRATCH_DEV_POOL" then []
    else if sectionExternalDevs block = [] ∧ 2 < devs.length then
      [⟨"SCRATCH_DEV_POOL", "\"" ++ Text.join " " devs.tail ++ "\""⟩]
    else [⟨"SCRATCH_DEV", devs.getD 1 ""⟩]) ++
  (if carves block logwrites then [⟨"LOGWRITES_DEV", names.getLastD ""⟩] else [])

/-- The external variables a section declares empty, and the devices for them. -/
def fills : List (String × String) :=
  (sectionExternalDevs block).zip ((leftDevs block names logwrites).drop 2)

end

theorem baseLines_of_externals {block : String} (h : sectionExternalDevs block ≠ [])
    (names : List String) (logwrites : Bool) :
    baseLines block names logwrites =
      let devs := leftDevs block names logwrites
      [BaseLine.mk "TEST_DEV" (devs.headD ""), ⟨"TEST_DIR", "/media/test"⟩,
          ⟨"SCRATCH_MNT", "/media/scratch"⟩] ++
        (if !hasKey block "SCRATCH_DEV" && !hasKey block "SCRATCH_DEV_POOL" then
          [⟨"SCRATCH_DEV", devs.getD 1 ""⟩] else []) ++
        (if carves block logwrites then [⟨"LOGWRITES_DEV", names.getLastD ""⟩] else []) := by
  unfold baseLines
  simp only [h, false_and, if_false]
  cases hasKey block "SCRATCH_DEV" <;> cases hasKey block "SCRATCH_DEV_POOL" <;> rfl

theorem baseLines_of_none {block : String} (h : sectionExternalDevs block = [])
    (names : List String) (logwrites : Bool) :
    baseLines block names logwrites =
      let devs := leftDevs block names logwrites
      [BaseLine.mk "TEST_DEV" (devs.headD ""), ⟨"TEST_DIR", "/media/test"⟩,
          ⟨"SCRATCH_MNT", "/media/scratch"⟩] ++
        (if !(!hasKey block "SCRATCH_DEV" && !hasKey block "SCRATCH_DEV_POOL") then []
          else if 2 < devs.length then
            [BaseLine.mk "SCRATCH_DEV_POOL" ("\"" ++ Text.join " " devs.tail ++ "\"")]
          else [⟨"SCRATCH_DEV", devs.getD 1 ""⟩]) ++
        (if carves block logwrites then [⟨"LOGWRITES_DEV", names.getLastD ""⟩] else []) := by
  unfold baseLines
  simp only [h, true_and]
  cases hasKey block "SCRATCH_DEV" <;> cases hasKey block "SCRATCH_DEV_POOL" <;> rfl

/-- An injection that returns: there are devices enough, each empty external variable is
filled in, and the lines are added. -/
theorem injectDeviceBase_ok_iff {block text : String} {devices : List Device} {logwrites : Bool} :
    injectDeviceBase block devices logwrites = .ok text ↔
      2 + (sectionExternalDevs block).length ≤
          (leftDevs block (devices.map Device.name) logwrites).length ∧
        ∃ body, (fills block (devices.map Device.name) logwrites).foldlM fillEmptyDev
            (String.ofList (rstripBy (· = '\n') block.toList)) = .ok body ∧
          text = addBase block body (baseLines block (devices.map Device.name) logwrites) := by
  unfold injectDeviceBase
  generalize devices.map Device.name = names
  have hleft : (leftDevs block names logwrites).length =
      if carves block logwrites then names.length - 1 else names.length := by
    unfold leftDevs
    split_ifs
    · exact List.length_dropLast
    · rfl
  change (if (carves block logwrites && decide (names.length < _)) = true then _ else _) = _ ↔ _
  by_cases hfew : (carves block logwrites && decide
      (names.length < 2 + (sectionExternalDevs block).length + 1)) = true
  · rw [if_pos hfew]
    rw [Bool.and_eq_true, decide_eq_true_eq] at hfew
    rw [if_pos hfew.1] at hleft
    exact ⟨nofun, fun h => by omega⟩
  · rw [if_neg hfew]
    by_cases hext : sectionExternalDevs block = []
    · rw [if_neg (not_not.mpr hext), fills, hext, List.zip_nil_left]
      by_cases hlen : (leftDevs block names logwrites).length < 2
      · refine ⟨fun h => ?_, fun h => absurd h.1 (Nat.not_le_of_lt hlen)⟩
        cases (if_pos hlen).symm.trans h
      · refine (iff_of_eq (congrArg (· = _) (if_neg hlen))).trans ?_
        rw [baseLines_of_none hext]
        constructor
        · intro h
          exact ⟨Nat.le_of_not_lt hlen, _, rfl, (Except.ok.inj h).symm⟩
        · rintro ⟨-, body, hbody, rfl⟩
          cases hbody
          rfl
    · rw [if_pos hext]
      by_cases hlen : (leftDevs block names logwrites).length < 2 + (sectionExternalDevs block).length
      · refine ⟨fun h => ?_, fun h => by omega⟩
        cases (if_pos hlen).symm.trans h
      · refine (iff_of_eq (congrArg (· = _) (if_neg hlen))).trans ?_
        rw [baseLines_of_externals hext]
        change Except.bind ((fills block names logwrites).foldlM fillEmptyDev
          (String.ofList (rstripBy (· = '\n') block.toList))) _ = _ ↔ _
        cases hfold : (fills block names logwrites).foldlM fillEmptyDev
            (String.ofList (rstripBy (· = '\n') block.toList)) with
        | error e => exact ⟨nofun, by rintro ⟨-, body, h, -⟩; cases h⟩
        | ok body =>
            constructor
            · intro h
              exact ⟨by omega, body, rfl, (Except.ok.inj h).symm⟩
            · rintro ⟨-, body', hbody, rfl⟩
              cases hbody
              rfl

/-! ## What filling in does to the lines -/

/-- Lines with a device put behind an empty variable, one for each pair whose variable has
such a line. -/
inductive Fills : List (String × String) → List (List Char) → List (List Char) → Prop
  | done (ls) : Fills [] ls ls
  | skip {key dev fs ls ls'} : assignLine key [] ∉ ls → Fills fs ls ls' →
      Fills ((key, dev) :: fs) ls ls'
  | fill {key dev fs pre post ls'} : Fills fs (pre ++ assignLine key dev.toList :: post) ls' →
      Fills ((key, dev) :: fs) (pre ++ assignLine key [] :: post) ls'

/-- Pairs of a variable and a device that can be filled in. -/
def PlainFills (fs : List (String × String)) : Prop :=
  ∀ p ∈ fs, PlainKey p.1 ∧ '\\' ∉ p.1.toList ∧ PlainDevice p.2

theorem foldlM_fills {fs : List (String × String)} (hfs : PlainFills fs) {body : String}
    (hb : NewlineOnly body.toList) :
    ∃ body', fs.foldlM fillEmptyDev body = .ok body' ∧ NewlineOnly body'.toList ∧
      Fills fs (contents body.toList) (contents body'.toList) := by
  induction fs generalizing body with
  | nil => exact ⟨body, rfl, hb, .done _⟩
  | cons p fs ih =>
      obtain ⟨hk, hkey, hd⟩ := hfs p List.mem_cons_self
      have hrest : PlainFills fs := fun q hq => hfs q (List.mem_cons_of_mem p hq)
      rw [List.foldlM_cons]
      rcases fillEmptyDev_spec hk hkey hd hb with ⟨hno, hfill⟩ | ⟨body', pre, post, hfill, hb', hls, hls'⟩
      · obtain ⟨body'', hfold, hb'', hfills⟩ := ih hrest hb
        rw [hfill]
        exact ⟨body'', hfold, hb'', .skip hno hfills⟩
      · obtain ⟨body'', hfold, hb'', hfills⟩ := ih hrest hb'
        rw [hfill]
        exact ⟨body'', hfold, hb'', hls ▸ .fill (hls' ▸ hfills)⟩

/-- Whether a line sets a variable. -/
def sets (key : String) (line : List Char) : Bool := (assignment line).map Prod.fst = some key

section
variable {fs : List (String × String)} {ls ls' : List (List Char)}

/-- No line of a header is filled in. -/
theorem Fills.cons_header {all all' : List (List Char)} (h : Fills fs all all')
    (hfs : PlainFills fs) {header : List Char} (hheader : sectionHeader header ≠ none)
    (hall : all = header :: ls) : ∃ ls', all' = header :: ls' ∧ Fills fs ls ls' := by
  induction h generalizing ls with
  | done => exact ⟨ls, hall, .done ls⟩
  | skip hno _ ih =>
      obtain ⟨ls', rfl, hfills⟩ := ih (fun p hp => hfs p (List.mem_cons_of_mem _ hp)) hall
      rw [hall, List.mem_cons, not_or] at hno
      exact ⟨ls', rfl, .skip hno.2 hfills⟩
  | @fill key dev fs pre post all' _ ih =>
      have hk := (hfs _ List.mem_cons_self).1
      cases pre with
      | nil =>
          obtain ⟨rfl, -⟩ := List.cons.inj hall
          exact absurd (sectionHeader_assignLine hk) hheader
      | cons l pre =>
          obtain ⟨rfl, rfl⟩ := List.cons.inj hall
          obtain ⟨ls', rfl, hfills⟩ := ih (fun p hp => hfs p (List.mem_cons_of_mem _ hp)) rfl
          exact ⟨ls', rfl, .fill hfills⟩

/-- No header is made or lost. -/
theorem Fills.map_header (h : Fills fs ls ls') (hfs : PlainFills fs) :
    ls'.map sectionHeader = ls.map sectionHeader := by
  induction h with
  | done => rfl
  | skip _ _ ih => exact ih fun p hp => hfs p (List.mem_cons_of_mem _ hp)
  | fill _ ih =>
      have hk := (hfs _ List.mem_cons_self).1
      rw [ih fun p hp => hfs p (List.mem_cons_of_mem _ hp)]
      simp only [List.map_append, List.map_cons, sectionHeader_assignLine hk]

theorem sets_assignLine {key : String} (hk : PlainKey key) {value : List Char}
    (hv : EndsPlain value) (k : String) : sets k (assignLine key value) = decide (key = k) := by
  rw [sets, assignment_assignLine hk hv]
  simp

/-- The lines that set another variable stay. -/
theorem Fills.filter_sets (h : Fills fs ls ls') (hfs : PlainFills fs) {k : String}
    (hk : k ∉ fs.map Prod.fst) : ls'.filter (sets k) = ls.filter (sets k) := by
  induction h with
  | done => rfl
  | skip _ _ ih =>
      rw [List.map_cons, List.mem_cons, not_or] at hk
      exact ih (fun p hp => hfs p (List.mem_cons_of_mem _ hp)) hk.2
  | fill _ ih =>
      obtain ⟨hkey, -, hd⟩ := hfs _ List.mem_cons_self
      rw [List.map_cons, List.mem_cons, not_or] at hk
      have hno : ∀ value, EndsPlain value → sets k (assignLine _ value) = false := fun value hv => by
        rw [sets_assignLine hkey hv]
        exact decide_eq_false (Ne.symm hk.1)
      rw [ih (fun p hp => hfs p (List.mem_cons_of_mem _ hp)) hk.2, List.filter_append,
        List.filter_append, List.filter_cons, List.filter_cons, hno _ hd.endsPlain,
        hno [] endsPlain_nil]
      rfl

/-- Of the lines that set a variable that is filled in, an empty one has its device. -/
theorem Fills.filter_filled (h : Fills fs ls ls') (hfs : PlainFills fs)
    (hnodup : (fs.map Prod.fst).Nodup) {key dev : String} (hmem : (key, dev) ∈ fs)
    (hempty : assignLine key [] ∈ ls) :
    ∃ pre post, ls.filter (sets key) = pre ++ assignLine key [] :: post ∧
      ls'.filter (sets key) = pre ++ assignLine key dev.toList :: post := by
  induction h with
  | done => cases hmem
  | @skip k d fs ls ls' hno hrest ih =>
      rw [List.map_cons, List.nodup_cons] at hnodup
      rcases List.mem_cons.mp hmem with heq | hmem
      · cases heq
        exact absurd hempty hno
      · exact ih (fun p hp => hfs p (List.mem_cons_of_mem _ hp)) hnodup.2 hmem hempty
  | @fill k d fs pre post ls' hrest ih =>
      rw [List.map_cons, List.nodup_cons] at hnodup
      obtain ⟨hk, -, hd⟩ := hfs _ List.mem_cons_self
      have hfs' : PlainFills fs := fun p hp => hfs p (List.mem_cons_of_mem _ hp)
      rcases List.mem_cons.mp hmem with heq | hmem
      · cases heq
        refine ⟨pre.filter (sets key), post.filter (sets key), ?_, ?_⟩
        · rw [List.filter_append, List.filter_cons_of_pos]
          rw [sets_assignLine hk endsPlain_nil]
          exact decide_eq_true rfl
        · rw [hrest.filter_sets hfs' hnodup.1, List.filter_append, List.filter_cons_of_pos]
          rw [sets_assignLine hk hd.endsPlain]
          exact decide_eq_true rfl
      · have hne : k ≠ key := by
          rintro rfl
          exact hnodup.1 (List.mem_map.mpr ⟨_, hmem, rfl⟩)
        have hno : ∀ value, EndsPlain value → sets key (assignLine k value) = false :=
          fun value hv => by
            rw [sets_assignLine hk hv]
            exact decide_eq_false hne
        have hsame : (pre ++ assignLine k [] :: post).filter (sets key) =
            (pre ++ assignLine k d.toList :: post).filter (sets key) := by
          rw [List.filter_append, List.filter_append, List.filter_cons, List.filter_cons,
            hno _ hd.endsPlain, hno [] endsPlain_nil]
          rfl
        have hempty' : assignLine key [] ∈ pre ++ assignLine k d.toList :: post := by
          have hkey := (hfs' _ hmem).1
          have hself : sets key (assignLine key []) = true := by
            rw [sets_assignLine hkey endsPlain_nil]
            exact decide_eq_true rfl
          have hin := List.mem_filter.mpr ⟨hempty, hself⟩
          rw [hsame] at hin
          exact (List.mem_filter.mp hin).1
        rw [hsame]
        exact ih hfs' hnodup.2 hmem hempty'

end

/-! ## The lines of a section -/

/-- A text that is one block of a section, with these lines under its header. -/
def SectionLines (text name : String) (ls : List (List Char)) : Prop :=
  ∃ header n, contents text.toList = header :: ls ∧ sectionHeader header = some n ∧
    strip n = name.toList ∧ ∀ l ∈ ls, sectionHeader l = none

/-- `section_vars(text, name).get(key)`. -/
def sectionVar (text name key : String) : Option String := Dict.get? (sectionVars text name) key

theorem blocks_plain {ls : List (List Char)} (h : ∀ l ∈ ls, sectionHeader (strip l) = none) :
    blocks ls = (ls, []) := by
  induction ls with
  | nil => rfl
  | cons l ls ih =>
      rw [blocks_line (h l List.mem_cons_self), ih fun x hx => h x (List.mem_cons_of_mem l hx)]

theorem plain_of_blocks {ls : List (List Char)} (h : (blocks ls).2 = []) :
    ∀ l ∈ ls, sectionHeader (strip l) = none := by
  induction ls with
  | nil => exact fun l hl => absurd hl List.not_mem_nil
  | cons l ls ih =>
      cases hl : sectionHeader (strip l) with
      | none =>
          rw [blocks_line hl] at h
          exact List.forall_mem_cons.mpr ⟨hl, ih h⟩
      | some n =>
          rw [blocks_header hl] at h
          cases h

/-- The variables of a block are what its lines set. -/
theorem sectionVar_eq {text name : String} {ls : List (List Char)} (h : SectionLines text name ls)
    (hname : name.toList ≠ []) (key : String) : sectionVar text name key = lastSet key ls := by
  obtain ⟨header, n, hlines, hheader, hn, hplain⟩ := h
  have hstrip : ∀ l ∈ header :: ls, strip l = l := fun l hl =>
    (strip_of_mem_contents (hlines ▸ hl)).1
  have hheader' : sectionHeader (strip header) = some n := by
    rw [hstrip header List.mem_cons_self, hheader]
  have hblocks : blocks (header :: ls) = ([], [⟨header, name.toList, ls⟩]) := by
    rw [blocks_header hheader', blocks_plain, hn]
    intro l hl
    rw [hstrip l (List.mem_cons_of_mem _ hl), hplain l hl]
  have hb : (⟨header, name.toList, ls⟩ : Block) ∈ (blocks (header :: ls)).2 := by
    rw [hblocks]
    exact List.mem_cons_self
  have hsections : parseSections text = [name.toList] := by
    rw [parseSections_eq, foldl_contents sectionsStep_reads, hlines]
    exact sections_of_block hb hname
  rw [sectionVar, sectionVars, hsections, foldl_contents (sectionVarsStep_reads _ _), hlines]
  change Dict.get? (List.foldl (sectionVarsStep true name) (none, []) (header :: ls)).2 key = _
  rw [foldVars_get?, blocksOf, hblocks, List.filter_cons_of_pos (by simp)]
  simp

/-- `section_block` gives one block of the section. -/
theorem sectionBlock_lines {cfg name : String} (h : name.toList ∈ parseSections cfg) :
    NewlineOnly (sectionBlock cfg name).toList ∧ name.toList ≠ [] ∧
      ∃ ls, SectionLines (sectionBlock cfg name) name ls := by
  rw [parseSections_eq] at h
  obtain ⟨hne, hblocks⟩ := (block_of_section _ _ h).resolve_left List.not_mem_nil
  obtain ⟨first, later, hof⟩ := List.exists_cons_of_ne_nil hblocks
  have hfirst : first ∈ blocksOf name.toList (splitlines cfg.toList) := hof ▸ List.mem_cons_self
  rw [blocksOf, List.mem_filter, decide_eq_true_eq] at hfirst
  obtain ⟨hmem, hname⟩ := hfirst
  have hgrab := (grabBlock_eq name.toList (splitlines cfg.toList)).2
  rw [hof, List.head?_cons, Option.map_some, Option.getD_some] at hgrab
  have hclean : ∀ l ∈ first.header :: first.body, OneLine l :=
    fun l hl => splitlines_noBreak _ l (mem_of_block hmem l hl)
  have htext := sectionBlock_toList hgrab
  refine ⟨?_, hne, ((first.body.map strip).filter (· ≠ [])), ?_⟩
  · rw [htext]
    refine NewlineOnly.append ((newlineOnly_intercalate hclean).subset
      (List.rdropWhile_prefix _ _).subset) fun c hc _ => List.mem_singleton.mp hc
  · have hself := blocks_block hmem
    cases hheader : sectionHeader (strip first.header) with
    | none =>
        rw [blocks_line hheader] at hself
        cases congrArg Prod.fst hself
    | some n =>
        rw [blocks_header hheader] at hself
        obtain ⟨hblock, hrest⟩ := List.cons.inj (congrArg Prod.snd hself)
        have hfirst : strip first.header ≠ [] := fun hnil => by
          rw [hnil] at hheader
          cases hheader
        refine ⟨strip first.header, n, ?_, hheader, (congrArg Block.name hblock).trans hname, ?_⟩
        · rw [htext, contents_append_space (fun c hc => by
            rw [List.mem_singleton.mp hc]
            decide), contents_rstripBy (fun _ h => h), contents_intercalate hclean,
            List.map_cons, List.filter_cons_of_pos (by simpa using hfirst)]
        · intro l hl
          obtain ⟨m, hm, rfl⟩ := List.mem_map.mp (List.mem_filter.mp hl).1
          exact plain_of_blocks hrest m hm

/-! ## The lines of the result -/

/-- The line a base line is written as. -/
def toLine (l : BaseLine) : List Char := assignLine l.key l.value.toList

/-- A base line that is read back as it was written. -/
structure PlainLine (l : BaseLine) : Prop where
  key : PlainKey l.key
  oneLine : OneLine l.value.toList
  ends : EndsPlain l.value.toList

theorem plainKey_of_all {key : String} (h : (!key.toList.isEmpty && key.toList.all fun c =>
    !isSpace c && (c != '=' && (c != '#' && c != '['))) = true) : PlainKey key := by
  rw [Bool.and_eq_true, List.all_eq_true] at h
  refine ⟨fun hnil => ?_, fun c hc => ?_⟩
  · rw [hnil] at h
    cases h.1
  · simpa using h.2 c hc

theorem plainKey_external {key : String} (h : key ∈ externalDevKeys) :
    PlainKey key ∧ '\\' ∉ key.toList := by
  rw [externalDevKeys] at h
  simp only [List.mem_cons, List.not_mem_nil, or_false] at h
  rcases h with rfl | rfl | rfl | rfl <;> exact ⟨plainKey_of_all (by decide), by decide⟩

theorem noBreak_join {ds : List String} (h : ∀ d ∈ ds, PlainDevice d) :
    OneLine (Text.join " " ds).toList := by
  induction ds with
  | nil => exact fun c hc => absurd hc List.not_mem_nil
  | cons d ds ih =>
      have hd := (h d List.mem_cons_self).oneLine
      cases ds with
      | nil =>
          rw [show Text.join " " [d] = d from rfl]
          exact hd
      | cons e ds =>
          have hjoin : Text.join " " (d :: e :: ds) = d ++ " " ++ Text.join " " (e :: ds) :=
            String.intercalate_cons_cons
          rw [hjoin, String.toList_append, String.toList_append]
          exact (hd.append (by decide)).append (ih fun x hx => h x (List.mem_cons_of_mem d hx))

section
variable {block : String} {names : List String} {logwrites : Bool}

theorem leftDevs_subset : leftDevs block names logwrites ⊆ names := by
  rw [leftDevs]
  split_ifs
  · exact List.dropLast_subset names
  · exact fun _ h => h

theorem plainFills (hnames : ∀ d ∈ names, PlainDevice d) :
    PlainFills (fills block names logwrites) := by
  rintro ⟨key, d⟩ hp
  obtain ⟨hkey, hd⟩ := List.of_mem_zip hp
  rw [sectionExternalDevs, List.mem_filter] at hkey
  obtain ⟨hplain, hslash⟩ := plainKey_external hkey.1
  exact ⟨hplain, hslash, hnames d (leftDevs_subset (List.drop_subset _ _ hd))⟩

theorem plainLine_device {key d : String} (hk : PlainKey key) (hd : PlainDevice d) :
    PlainLine ⟨key, d⟩ := ⟨hk, hd.oneLine, hd.endsPlain⟩

theorem baseLines_plain (hnames : ∀ d ∈ names, PlainDevice d)
    (hlen : 2 ≤ (leftDevs block names logwrites).length) :
    ∀ l ∈ baseLines block names logwrites, PlainLine l := by
  have hleft : ∀ d ∈ leftDevs block names logwrites, PlainDevice d := fun d hd =>
    hnames d (leftDevs_subset hd)
  have hlast : names ≠ [] → PlainDevice (names.getLastD "") := fun hne => by
    rw [List.getLastD_eq_getLast?, List.getLast?_eq_some_getLast hne]
    exact hnames _ (List.getLast_mem hne)
  have hne : names ≠ [] := fun hnil => by
    rw [leftDevs, hnil] at hlen
    split_ifs at hlen <;> simp at hlen
  unfold baseLines
  generalize leftDevs block names logwrites = devs at *
  obtain ⟨a, b, rest, rfl⟩ : ∃ a b rest, devs = a :: b :: rest := by
    match devs, hlen with
    | a :: b :: rest, _ => exact ⟨a, b, rest, rfl⟩
  intro l hl
  simp only [List.mem_append, List.mem_cons, List.not_mem_nil, or_false] at hl
  rcases hl with ((rfl | rfl | rfl) | hl) | hl
  · exact plainLine_device (plainKey_of_all (by decide)) (hleft a List.mem_cons_self)
  · exact ⟨plainKey_of_all (by decide), by decide, fun c hc => by cases hc; decide⟩
  · exact ⟨plainKey_of_all (by decide), by decide, fun c hc => by cases hc; decide⟩
  · split_ifs at hl with hkeys hpool
    · cases hl
    · obtain rfl := List.mem_singleton.mp hl
      refine ⟨show PlainKey "SCRATCH_DEV_POOL" from plainKey_of_all (by decide), ?_, fun c hc => ?_⟩
      · rw [String.toList_append, String.toList_append]
        exact (OneLine.append (by decide) (noBreak_join fun d hd =>
          hleft d (List.mem_cons_of_mem a hd))).append (by decide)
      · rw [String.toList_append, List.getLast?_append_of_ne_nil _ (by decide)] at hc
        cases hc
        decide
    · obtain rfl := List.mem_singleton.mp hl
      exact plainLine_device (plainKey_of_all (by decide))
        (hleft b (List.mem_cons_of_mem a List.mem_cons_self))
  · split_ifs at hl
    · obtain rfl := List.mem_singleton.mp hl
      exact plainLine_device (plainKey_of_all (by decide)) (hlast hne)
    · cases hl

end

/-- The lines that are added to a block. -/
def addedLines (block : String) (base : List BaseLine) : List (List Char) :=
  (base.filter fun l => !hasKey block l.key).map toLine

theorem toList_addBase (block body : String) (base : List BaseLine) :
    (addBase block body base).toList =
      body.toList ++ ((if addedLines block base = [] then [] else
        '\n' :: ['\n'].intercalate (addedLines block base)) ++ ['\n']) := by
  unfold addBase addedLines
  generalize base.filter (fun l => !hasKey block l.key) = added
  cases added with
  | nil => exact String.toList_append
  | cons l added =>
      have hmap : ((l :: added).map fun l => l.key ++ "=" ++ l.value) =
          ((l :: added).map toLine).map String.ofList := by
        rw [List.map_map]
        refine List.map_congr_left fun x _ => String.toList_inj.mp ?_
        rw [Function.comp_apply, String.toList_ofList, String.toList_append, String.toList_append,
          List.append_assoc]
        rfl
      dsimp only
      rw [hmap, String.toList_append, String.toList_append, String.toList_append, toList_join,
        if_neg (by simp)]
      simp only [List.append_assoc]
      rfl

theorem oneLine_addedLines {block : String} {base : List BaseLine}
    (hbase : ∀ l ∈ base, PlainLine l) : ∀ x ∈ addedLines block base, OneLine x := fun x hx => by
  obtain ⟨l, hl, rfl⟩ := List.mem_map.mp hx
  have hplain := hbase l (List.mem_filter.mp hl).1
  exact oneLine_assignLine hplain.key hplain.oneLine

/-- The added lines come after the others. -/
theorem contents_addBase {block body : String} {base : List BaseLine}
    (hbase : ∀ l ∈ base, PlainLine l) :
    contents (addBase block body base).toList =
      contents body.toList ++ addedLines block base := by
  have hbreak : isLineBreak '\n' = true := by decide
  have hspace : ∀ c ∈ ['\n'], isSpace c = true := fun c hc => by
    cases List.mem_singleton.mp hc
    rfl
  have hself : contents (['\n'].intercalate (addedLines block base)) = addedLines block base := by
    rw [contents_intercalate (oneLine_addedLines hbase), List.map_congr_left (g := id), List.map_id,
      List.filter_eq_self]
    · intro x hx
      obtain ⟨l, -, rfl⟩ := List.mem_map.mp hx
      simp [toLine, assignLine]
    · intro x hx
      obtain ⟨l, hl, rfl⟩ := List.mem_map.mp hx
      have hplain := hbase l (List.mem_filter.mp hl).1
      exact strip_assignLine hplain.key hplain.ends
  rw [toList_addBase, ← List.append_assoc, contents_append_space hspace]
  by_cases hnil : addedLines block base = []
  · rw [if_pos hnil, hnil]
    simp
  · rw [if_neg hnil, contents_append _ hbreak, hself]

theorem newlineOnly_addBase {block body : String} {base : List BaseLine}
    (hbase : ∀ l ∈ base, PlainLine l) (hbody : NewlineOnly body.toList) :
    NewlineOnly (addBase block body base).toList := by
  have hnl : ∀ s, NewlineOnly s → NewlineOnly ('\n' :: s) := fun s hs c hc hbreak => by
    rcases List.mem_cons.mp hc with rfl | hc
    · rfl
    · exact hs c hc hbreak
  rw [toList_addBase]
  refine hbody.append (NewlineOnly.append ?_ (hnl [] fun c hc => absurd hc List.not_mem_nil))
  by_cases hnil : addedLines block base = []
  · rw [if_pos hnil]
    exact fun c hc => absurd hc List.not_mem_nil
  · rw [if_neg hnil]
    exact hnl _ (newlineOnly_intercalate (oneLine_addedLines hbase))

section
variable {block text name : String} {devices : List Device} {logwrites : Bool}
  {ls : List (List Char)}

/-- What an injection does to the lines of a section. -/
theorem inject_lines (hblock : SectionLines block name ls) (hnl : NewlineOnly block.toList)
    (hnames : ∀ d ∈ devices.map Device.name, PlainDevice d)
    (h : injectDeviceBase block devices logwrites = .ok text) :
    ∃ ls', Fills (fills block (devices.map Device.name) logwrites) ls ls' ∧
      NewlineOnly text.toList ∧
      SectionLines text name (ls' ++
        addedLines block (baseLines block (devices.map Device.name) logwrites)) := by
  obtain ⟨hlen, body, hfold, rfl⟩ := injectDeviceBase_ok_iff.mp h
  obtain ⟨header, n, hlines, hheader, hn, hplain⟩ := hblock
  generalize devices.map Device.name = names at *
  have hfs : PlainFills (fills block names logwrites) := plainFills hnames
  have hbase := baseLines_plain hnames (le_trans (Nat.le_add_right 2 _) hlen)
  have hspace : ∀ c : Char, decide (c = '\n') = true → isSpace c = true := fun c hc => by
    rw [of_decide_eq_true hc]
    decide
  have hstart : NewlineOnly (String.ofList (rstripBy (· = '\n') block.toList)).toList := by
    rw [String.toList_ofList]
    exact hnl.subset (List.rdropWhile_prefix _ _).subset
  obtain ⟨body', hfold', hbody, hfills⟩ := foldlM_fills hfs hstart
  rw [hfold] at hfold'
  cases hfold'
  rw [String.toList_ofList, contents_rstripBy hspace] at hfills
  have hsome : sectionHeader header ≠ none := fun hnone => by
    rw [hnone] at hheader
    cases hheader
  obtain ⟨ls', hls', hfills'⟩ := hfills.cons_header hfs hsome hlines
  refine ⟨ls', hfills', newlineOnly_addBase hbase hbody, header, n, ?_, hheader, hn, ?_⟩
  · rw [contents_addBase hbase, hls']
    rfl
  · intro l hl
    rcases List.mem_append.mp hl with hl | hl
    · have hmap := hfills'.map_header hfs
      obtain ⟨m, hm, hml⟩ := List.mem_map.mp (hmap ▸ List.mem_map_of_mem hl)
      rw [← hml]
      exact hplain m hm
    · obtain ⟨b, hb, rfl⟩ := List.mem_map.mp hl
      exact sectionHeader_assignLine (hbase b (List.mem_filter.mp hb).1).key

end

end KdevopsNg.Fstests
