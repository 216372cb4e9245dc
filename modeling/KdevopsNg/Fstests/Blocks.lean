/-
# `Fstests.Blocks` — a section's block and a section's variables

Two readers of one xfstests config, from `f/fstests/common.py`.  The guest runs
the block `section_block` cuts out of it; the gate and the reports read the
variables `section_vars` collects from the whole text.  The block ends at the
next header of any name, so a config that opens a section twice gives the guest
the first block alone, while `section_vars` goes on collecting.

A config is its blocks (`blocks`), and what a block sets is read off its lines
(`lastSet`).  The two readers agree when no later block of the section sets
anything else than the first one (`vars_agree_iff`).
-/
import KdevopsNg.Fstests.Render

namespace KdevopsNg.Fstests

open Py

/-! ## A config as its blocks -/

/-- A header line and the lines up to the next one. -/
structure Block where
  header : List Char
  name : List Char
  body : List (List Char)
  deriving DecidableEq

/-- The lines before the first header, and the blocks. -/
def blocks : List (List Char) → List (List Char) × List Block
  | [] => ([], [])
  | line :: lines =>
      match sectionHeader (Text.strip line) with
      | some h => ([], ⟨line, Text.strip h, (blocks lines).1⟩ :: (blocks lines).2)
      | none => (line :: (blocks lines).1, (blocks lines).2)

/-- The variable a line sets, if it is an assignment. -/
def assignment (raw : List Char) : Option (String × String) :=
  let line := Text.strip raw
  if line = [] ∨ line.head? = some '#' ∨ '=' ∉ line then none
  else
    let key := Text.strip (line.takeWhile (· ≠ '='))
    let value := stripQuotes (line.dropWhile (· ≠ '=')).tail
    if key = [] then none else some (String.ofList key, String.ofList value)

/-- The last value some lines give a variable. -/
def lastSet (k : String) : List (List Char) → Option String
  | [] => none
  | line :: lines =>
      (lastSet k lines).or ((assignment line).bind fun p => if p.1 = k then some p.2 else none)

/-- The blocks of a section. -/
def blocksOf (name : List Char) (lines : List (List Char)) : List Block :=
  (blocks lines).2.filter (·.name = name)

theorem blocks_header {line h : List Char} (hh : sectionHeader (Text.strip line) = some h)
    (lines : List (List Char)) :
    blocks (line :: lines) =
      ([], ⟨line, Text.strip h, (blocks lines).1⟩ :: (blocks lines).2) := by
  rw [blocks, hh]

theorem blocks_line {line : List Char} (hh : sectionHeader (Text.strip line) = none)
    (lines : List (List Char)) :
    blocks (line :: lines) = (line :: (blocks lines).1, (blocks lines).2) := by
  rw [blocks, hh]

theorem lastSet_append (k : String) (xs ys : List (List Char)) :
    lastSet k (xs ++ ys) = (lastSet k ys).or (lastSet k xs) := by
  induction xs with
  | nil => rw [List.nil_append, lastSet, Option.or_none]
  | cons x xs ih => rw [List.cons_append, lastSet, lastSet, ih, Option.or_assoc]

/-- A block read by itself. -/
theorem blocks_block {lines : List (List Char)} {b : Block} (hb : b ∈ (blocks lines).2) :
    blocks (b.header :: b.body) = ([], [b]) := by
  have hplain : ∀ ls : List (List Char), blocks (blocks ls).1 = ((blocks ls).1, []) := by
    intro ls
    induction ls with
    | nil => rfl
    | cons l ls ih =>
        cases hl : sectionHeader (Text.strip l) with
        | none => rw [blocks_line hl, blocks_line hl, ih]
        | some h => rw [blocks_header hl]; rfl
  induction lines with
  | nil => exact (List.not_mem_nil hb).elim
  | cons line lines ih =>
      cases hh : sectionHeader (Text.strip line) with
      | none =>
          rw [blocks_line hh] at hb
          exact ih hb
      | some h =>
          rw [blocks_header hh] at hb
          rcases List.mem_cons.mp hb with rfl | hb
          · rw [blocks_header hh, hplain]
          · exact ih hb

/-- The lines of a block are lines of the config. -/
theorem mem_of_block {lines : List (List Char)} {b : Block} (hb : b ∈ (blocks lines).2) :
    ∀ line ∈ b.header :: b.body, line ∈ lines := by
  have hlead : ∀ ls : List (List Char), (blocks ls).1 ⊆ ls := by
    intro ls
    induction ls with
    | nil => exact fun _ h => h
    | cons l ls ih =>
        cases hl : sectionHeader (Text.strip l) with
        | none =>
            rw [blocks_line hl]
            exact List.cons_subset_cons l ih
        | some h =>
            rw [blocks_header hl]
            exact List.nil_subset _
  induction lines with
  | nil => exact (List.not_mem_nil hb).elim
  | cons l lines ih =>
      intro line hline
      cases hh : sectionHeader (Text.strip l) with
      | none =>
          rw [blocks_line hh] at hb
          exact List.mem_cons_of_mem _ (ih hb line hline)
      | some h =>
          rw [blocks_header hh] at hb
          rcases List.mem_cons.mp hb with rfl | hb
          · rcases List.mem_cons.mp hline with rfl | hline
            · exact List.mem_cons_self
            · exact List.mem_cons_of_mem _ (hlead lines hline)
          · exact List.mem_cons_of_mem _ (ih hb line hline)

/-! ## What the scans make of a line -/

/-- One line of `parse_sections`. -/
def sectionsStep (seen : List (List Char)) (line : List Char) : List (List Char) :=
  match sectionHeader (Text.strip line) with
  | some h =>
      let name := Text.strip h
      if name ≠ [] ∧ name ∉ seen then seen ++ [name] else seen
  | none => seen

theorem parseSections_eq (text : String) :
    parseSections text = (Text.splitlines text.toList).foldl sectionsStep [] := rfl

theorem sectionsStep_reads : Text.ReadsStripped sectionsStep where
  strip acc line := by
    unfold sectionsStep
    rw [Text.strip_idem]
  blank _ := rfl

theorem sectionVarsStep_reads (hasSections : Bool) (sectionName : String) :
    Text.ReadsStripped (sectionVarsStep hasSections sectionName) where
  strip acc line := by
    unfold sectionVarsStep
    rw [Text.strip_idem]
  blank _ := rfl

/-- A header opens its section: it starts with a bracket, so it is no comment. -/
theorem sectionVarsStep_header {line h : List Char} (hh : sectionHeader (Text.strip line) = some h)
    (sectionName : String) (acc : Option (List Char) × Dict String) :
    sectionVarsStep true sectionName acc line = (some (Text.strip h), acc.2) := by
  have hopen : (Text.strip line).head? = some '[' := by
    unfold sectionHeader at hh
    split at hh
    case h_1 cs hline => rw [hline, List.head?_cons]
    case h_2 => cases hh
  have hcode : ¬ (Text.strip line = [] ∨ (Text.strip line).head? = some '#') := by
    rintro (hnil | hhash)
    · rw [hnil] at hopen
      cases hopen
    · rw [hhash] at hopen
      simp at hopen
  unfold sectionVarsStep
  rw [if_neg hcode, hh]

/-- Any other line sets its variable in the section it is in. -/
theorem sectionVarsStep_line {line : List Char} (hh : sectionHeader (Text.strip line) = none)
    (sectionName : String) (acc : Option (List Char) × Dict String) :
    sectionVarsStep true sectionName acc line =
      if acc.1 = some sectionName.toList then
        (acc.1, (assignment line).elim acc.2 fun p => Dict.set acc.2 p.1 p.2)
      else acc := by
  unfold sectionVarsStep assignment
  by_cases hskip : Text.strip line = [] ∨ (Text.strip line).head? = some '#'
  · have hnone : Text.strip line = [] ∨ (Text.strip line).head? = some '#' ∨
        '=' ∉ Text.strip line := by
      rcases hskip with h | h
      · exact .inl h
      · exact .inr (.inl h)
    rw [if_pos hskip, if_pos hnone]
    exact (ite_self acc).symm
  · rw [if_neg hskip, hh]
    by_cases heq : '=' ∉ Text.strip line
    · have hnone : Text.strip line = [] ∨ (Text.strip line).head? = some '#' ∨
          '=' ∉ Text.strip line := .inr (.inr heq)
      rw [if_pos hnone]
      exact (if_pos heq).trans (ite_self acc).symm
    · have hsome : ¬ (Text.strip line = [] ∨ (Text.strip line).head? = some '#' ∨
          '=' ∉ Text.strip line) := by
        rintro (h | h | h)
        · exact hskip (.inl h)
        · exact hskip (.inr h)
        · exact heq h
      rw [if_neg hsome]
      refine (if_neg heq).trans ?_
      by_cases hkey : Text.strip ((Text.strip line).takeWhile (· ≠ '=')) = []
      · dsimp only
        rw [if_pos hkey, if_pos hkey]
        exact (ite_self acc).symm
      · dsimp only
        rw [if_neg hkey, if_neg hkey]
        simp only [Bool.not_true, Bool.false_and, Bool.false_or, decide_eq_true_eq,
          Option.elim_some]

/-! ## What the scans make of a config -/

/-- `section_block` finds the first block of the section, and takes all of it. -/
theorem grabBlock_eq (name : List Char) (lines : List (List Char)) :
    grabBlock name true lines = (blocks lines).1 ∧
      grabBlock name false lines =
        ((blocksOf name lines).head?.map fun b => b.header :: b.body).getD [] := by
  induction lines with
  | nil => exact ⟨rfl, rfl⟩
  | cons line lines ih =>
      cases hh : sectionHeader (Text.strip line) with
      | none =>
          unfold blocksOf
          rw [grabBlock, grabBlock, blocks_line hh, hh, ih.1]
          exact ⟨rfl, ih.2⟩
      | some h =>
          unfold blocksOf
          rw [grabBlock, grabBlock, blocks_header hh, hh]
          refine ⟨rfl, ?_⟩
          by_cases hname : Text.strip h = name
          · rw [List.filter_cons_of_pos (by simpa using hname), ← ih.1]
            simp [hname]
          · rw [List.filter_cons_of_neg (by simpa using hname)]
            rw [← blocksOf, ← ih.2]
            simp [hname]

/-- `section_vars` collects what the lines of the section set, in whatever block
they are. -/
theorem foldVars_get? (sectionName : String) (k : String) (lines : List (List Char)) :
    ∀ acc : Option (List Char) × Dict String,
      Dict.get? (lines.foldl (sectionVarsStep true sectionName) acc).2 k =
        (lastSet k ((if acc.1 = some sectionName.toList then (blocks lines).1 else []) ++
          (blocksOf sectionName.toList lines).flatMap Block.body)).or (Dict.get? acc.2 k) := by
  induction lines with
  | nil =>
      intro acc
      rw [blocks, ite_self]
      rfl
  | cons line lines ih =>
      intro acc
      rw [List.foldl_cons, ih]
      unfold blocksOf
      cases hh : sectionHeader (Text.strip line) with
      | some h =>
          rw [sectionVarsStep_header hh, blocks_header hh, ite_self, List.nil_append]
          by_cases hname : Text.strip h = sectionName.toList
          · rw [if_pos (congrArg some hname), List.filter_cons_of_pos (by simpa using hname),
              List.flatMap_cons]
          · have hne : some (Text.strip h) ≠ some sectionName.toList :=
              fun heq => hname (Option.some.inj heq)
            rw [if_neg hne, List.filter_cons_of_neg (by simpa using hname), List.nil_append]
      | none =>
          rw [sectionVarsStep_line hh, blocks_line hh]
          by_cases hin : acc.1 = some sectionName.toList
          · -- the line is one of the section's own
            rw [if_pos hin, if_pos hin, if_pos hin, List.cons_append, lastSet, Option.or_assoc]
            congr 1
            cases assignment line with
            | none => rfl
            | some p =>
                rw [Option.elim_some, Dict.get?_set, Option.bind_some]
                by_cases hk : p.1 = k
                · rw [if_pos hk, if_pos hk.symm, Option.some_or]
                · rw [if_neg hk, if_neg (Ne.symm hk), Option.none_or]
          · rw [if_neg hin, if_neg hin, if_neg hin]

/-- `parse_sections` lists names of blocks. -/
theorem block_of_section {name : List Char} (lines : List (List Char)) :
    ∀ seen, name ∈ lines.foldl sectionsStep seen → name ∈ seen ∨
      (name ≠ [] ∧ blocksOf name lines ≠ []) := by
  induction lines with
  | nil => exact fun _ h => .inl h
  | cons line lines ih =>
      intro seen h
      unfold blocksOf
      rw [List.foldl_cons] at h
      cases hh : sectionHeader (Text.strip line) with
      | none =>
          have hstep : sectionsStep seen line = seen := by
            unfold sectionsStep
            rw [hh]
          rw [hstep] at h
          rw [blocks_line hh]
          exact ih seen h
      | some n =>
          rw [blocks_header hh]
          rcases ih _ h with hmem | ⟨hne, hblocks⟩
          · unfold sectionsStep at hmem
            rw [hh] at hmem
            dsimp only at hmem
            split at hmem
            case isTrue hnew =>
              rcases List.mem_append.mp hmem with hmem | hmem
              · exact .inl hmem
              · rw [List.mem_singleton] at hmem
                refine .inr ⟨hmem ▸ hnew.1, ?_⟩
                rw [List.filter_cons_of_pos (by simpa using hmem.symm)]
                exact List.cons_ne_nil _ _
            case isFalse => exact .inl hmem
          · refine .inr ⟨hne, fun hnil => hblocks ?_⟩
            have := List.filter_eq_nil_iff.mp hnil
            exact List.filter_eq_nil_iff.mpr fun b hb => this b (List.mem_cons_of_mem _ hb)

/-- A block names its own section alone. -/
theorem sections_of_block {lines : List (List Char)} {b : Block} (hb : b ∈ (blocks lines).2)
    (hne : b.name ≠ []) : (b.header :: b.body).foldl sectionsStep [] = [b.name] := by
  have hplain : ∀ ls : List (List Char), (blocks ls).2 = [] →
      ∀ seen, ls.foldl sectionsStep seen = seen := by
    intro ls
    induction ls with
    | nil => exact fun _ _ => rfl
    | cons l ls ih =>
        intro hnil seen
        cases hl : sectionHeader (Text.strip l) with
        | none =>
            rw [blocks_line hl] at hnil
            have hstep : sectionsStep seen l = seen := by
              unfold sectionsStep
              rw [hl]
            rw [List.foldl_cons, hstep, ih hnil]
        | some h =>
            rw [blocks_header hl] at hnil
            cases hnil
  have hself := blocks_block hb
  cases hh : sectionHeader (Text.strip b.header) with
  | none =>
      rw [blocks_line hh] at hself
      cases (congrArg Prod.fst hself)
  | some h =>
      rw [blocks_header hh] at hself
      obtain ⟨-, hblock⟩ := Prod.mk.inj hself
      obtain ⟨hfirst, hrest⟩ := List.cons.inj hblock
      have hname : Text.strip h = b.name := congrArg Block.name hfirst
      rw [List.foldl_cons, hplain _ hrest]
      unfold sectionsStep
      rw [hh]
      simp [hname, hne]

/-! ## The two readers -/

/-- The text `section_block` writes: its lines, the blanks at the end dropped. -/
theorem sectionBlock_toList {text sectionName : String} {header : List Char}
    {body : List (List Char)}
    (h : grabBlock sectionName.toList false (Text.splitlines text.toList) = header :: body) :
    (sectionBlock text sectionName).toList =
      Text.rstripBy Text.isSpace (['\n'].intercalate (header :: body)) ++ ['\n'] := by
  unfold sectionBlock
  rw [h]
  dsimp only
  rw [String.toList_append, String.toList_ofList, Text.toList_join]
  rfl

/-- The variables of one section: its block gives what the first block sets, the
whole text what the later ones set over it. -/
theorem section_readers (text sectionName : String)
    (hs : sectionName.toList ∈ parseSections text) :
    ∃ first later,
      blocksOf sectionName.toList (Text.splitlines text.toList) = first :: later ∧
      parseSections (sectionBlock text sectionName) = [sectionName.toList] ∧ ∀ k,
        Dict.get? (sectionVars (sectionBlock text sectionName) sectionName) k =
            lastSet k first.body ∧
          Dict.get? (sectionVars text sectionName) k =
            (lastSet k (later.flatMap Block.body)).or (lastSet k first.body) := by
  have hlisted := hs
  rw [parseSections_eq] at hlisted
  rcases block_of_section _ _ hlisted with hnil | ⟨hne, hblocks⟩
  · exact (List.not_mem_nil hnil).elim
  obtain ⟨first, later, hof⟩ := List.exists_cons_of_ne_nil hblocks
  have hfirst : first ∈ blocksOf sectionName.toList (Text.splitlines text.toList) := by
    rw [hof]
    exact List.mem_cons_self
  unfold blocksOf at hfirst
  obtain ⟨hmem, hname⟩ := List.mem_filter.mp hfirst
  rw [decide_eq_true_eq] at hname
  have hgrab := (grabBlock_eq sectionName.toList (Text.splitlines text.toList)).2
  rw [hof, List.head?_cons, Option.map_some, Option.getD_some] at hgrab
  have hclean : ∀ line ∈ first.header :: first.body, ∀ c ∈ line, Text.isLineBreak c = false :=
    fun line hline => Text.splitlines_noBreak _ line (mem_of_block hmem line hline)
  have hsections : parseSections (sectionBlock text sectionName) = [sectionName.toList] := by
    rw [parseSections_eq, sectionBlock_toList hgrab, Text.foldl_reflow sectionsStep_reads hclean,
      sections_of_block hmem (hname ▸ hne), hname]
  refine ⟨first, later, hof, hsections, fun k => ⟨?_, ?_⟩⟩
  · unfold sectionVars
    rw [hsections, sectionBlock_toList hgrab]
    have hreflow := Text.foldl_reflow (sectionVarsStep_reads true sectionName) hclean (none, [])
    refine (congrArg (fun acc => Dict.get? acc.2 k) hreflow).trans ?_
    rw [foldVars_get?]
    unfold blocksOf
    rw [blocks_block hmem, List.filter_cons_of_pos (by simpa using hname)]
    simp
  · have hsome : (!(parseSections text).isEmpty) = true := by
      cases hp : parseSections text with
      | nil =>
          rw [hp] at hs
          exact (List.not_mem_nil hs).elim
      | cons _ _ => rfl
    unfold sectionVars
    rw [hsome, foldVars_get?, hof, if_neg (by simp), List.nil_append, List.flatMap_cons,
      lastSet_append, Dict.get?_nil, Option.or_none]

/-- The two readers agree on a section exactly when its later blocks leave every
variable they set at the value the first block gives it. -/
theorem vars_agree_iff (text sectionName : String)
    (hs : sectionName.toList ∈ parseSections text) :
    (parseSections (sectionBlock text sectionName) = [sectionName.toList] ∧ ∀ k,
      Dict.get? (sectionVars (sectionBlock text sectionName) sectionName) k =
        Dict.get? (sectionVars text sectionName) k) ↔
    ∀ first later,
      blocksOf sectionName.toList (Text.splitlines text.toList) = first :: later →
      ∀ k v, lastSet k (later.flatMap Block.body) = some v → lastSet k first.body = some v := by
  obtain ⟨first, later, hof, hsections, hvars⟩ := section_readers text sectionName hs
  constructor
  · rintro ⟨-, hagree⟩ first' later' hof' k v hlater
    rw [hof] at hof'
    cases hof'
    obtain ⟨hblock, hwhole⟩ := hvars k
    rw [← hblock, hagree, hwhole, hlater, Option.some_or]
  · intro h
    refine ⟨hsections, fun k => ?_⟩
    obtain ⟨hblock, hwhole⟩ := hvars k
    rw [hblock, hwhole]
    cases hlater : lastSet k (later.flatMap Block.body) with
    | none => rw [Option.none_or]
    | some v => rw [h first later hof k v hlater, Option.some_or]

/-- A section opened once. -/
theorem vars_agree_once :
    parseSections (sectionBlock "[a]\nX=1\n[b]\nX=2\n" "a") = ["a".toList] ∧
      ∀ k, Dict.get? (sectionVars (sectionBlock "[a]\nX=1\n[b]\nX=2\n" "a") "a") k =
        Dict.get? (sectionVars "[a]\nX=1\n[b]\nX=2\n" "a") k := by
  have hs : "a".toList ∈ parseSections "[a]\nX=1\n[b]\nX=2\n" := by decide
  refine (vars_agree_iff _ "a" hs).mpr fun first later hof k v h => ?_
  have hone : blocksOf "a".toList (Text.splitlines "[a]\nX=1\n[b]\nX=2\n".toList) =
      [⟨"[a]".toList, "a".toList, ["X=1".toList]⟩] := by decide
  rw [hone] at hof
  cases hof
  cases h

/-- A section opened twice: the guest runs with `X=1`, the reports say `X=2`. -/
theorem reopened_section_differs :
    "a".toList ∈ parseSections "[a]\nX=1\n[b]\n[a]\nX=2\n" ∧
      sectionBlock "[a]\nX=1\n[b]\n[a]\nX=2\n" "a" = "[a]\nX=1\n" ∧
      Dict.get? (sectionVars (sectionBlock "[a]\nX=1\n[b]\n[a]\nX=2\n" "a") "a") "X" = some "1" ∧
      Dict.get? (sectionVars "[a]\nX=1\n[b]\n[a]\nX=2\n" "a") "X" = some "2" := by
  refine ⟨by decide, by decide, by decide, by decide⟩

end KdevopsNg.Fstests
