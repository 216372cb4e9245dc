/-
# `Scripts.Reflow` — descriptions rewrapped as literal blocks

`scripts/reflow-descriptions.py`: the lines of a flow or a script in which a `description` stands
are found by the text alone (`segments`), and are

    reported    when one of them passes 80 columns and can be broken     (`--check`)
    rewrapped   when one of them does, and the value read by PyYAML has
                a line break or does not fit behind its key              (`--write`)

The first measures the lines as they stand, quotes, escapes and comments with them, the second the
value.  A rewrapped region is a header and the filled paragraphs: but for the header none of its
lines is reported (`overlong_literalBlock`), and it reads as the paragraphs it was made of
(`valueOf_literalBlock`) when the reader accepts its characters.

PyYAML is a parameter (`Yaml`), relied on for literal blocks of filled words and for refusing what
is not printable (`ReadsBlocks`).  A file is its decoded text; which files are visited and what is
printed about them is left out.
-/
import KdevopsNg.Common.Releases
import KdevopsNg.Py.Exec
import KdevopsNg.Py.Flow

namespace KdevopsNg.Scripts.Reflow

open Py Text
open Common (universalNewlines)

/-- `LIMIT`. -/
def limit : ℕ := 80

/-- `KEY`, and its colon. -/
def key : List Char := "description:".toList

/-- `" " * n`. -/
def spaces (n : ℕ) : List Char := List.replicate n ' '

/-! ## Regions -/

/-- `line.strip() == ""`. -/
def blank (line : List Char) : Bool := line.all isSpace

/-- `len(line) - len(line.lstrip(" "))`. -/
def indentOf (line : List Char) : ℕ := (line.takeWhile (· = ' ')).length

/-- `DESC_RE.match(line)`: the indent of the key. -/
def descRe (line : List Char) : Option ℕ :=
  let rest := line.dropWhile (· = ' ')
  if rest = key ∨ (key ++ [' ']).isPrefixOf rest = true then some (indentOf line) else none

/-- `block_region`: how many of the lines that follow the key belong to it. -/
def blockRegion (keyIndent : ℕ) : List (List Char) → ℕ
  | [] => 0
  | line :: rest =>
      if blank line = true then
        -- a blank line belongs to the region when a deeper line is still to come
        if blockRegion keyIndent rest = 0 then 0 else blockRegion keyIndent rest + 1
      else if keyIndent < indentOf line then blockRegion keyIndent rest + 1
      else 0

/-- A line that is passed on, or the lines of a description. -/
inductive Segment (α : Type) where
  | plain (line : α)
  | region (keyIndent : ℕ) (lines : List α)
  deriving DecidableEq

def Segment.lines {α : Type} : Segment α → List α
  | .plain line => [line]
  | .region _ lines => lines

def Segment.map {α β : Type} (f : α → β) : Segment α → Segment β
  | .plain line => .plain (f line)
  | .region keyIndent lines => .region keyIndent (lines.map f)

/-- The scan of `process`, with so many lines left of the region it is in. -/
def segmentsFrom {α : Type} (text : α → List Char) : ℕ → List α → List (Segment α)
  | _, [] => []
  | skip + 1, _ :: rest => segmentsFrom text skip rest
  | 0, line :: rest =>
      match descRe (text line) with
      | none => .plain line :: segmentsFrom text 0 rest
      | some keyIndent =>
          let n := blockRegion keyIndent (rest.map text)
          .region keyIndent (line :: rest.take n) :: segmentsFrom text n rest

/-- The segments of lines that each carry a text. -/
def segments {α : Type} (text : α → List Char) (ls : List α) : List (Segment α) :=
  segmentsFrom text 0 ls

/-! ## The value of a description -/

/-- What `safe_load` makes of a scalar: a text, or something else. -/
inductive Scalar where
  | str (value : List Char)
  | other
  deriving DecidableEq

/-- PyYAML: `safe_load(s)["v"]`, and the characters its reader accepts. -/
structure Yaml where
  load : List Char → Except PyError Scalar
  printable : Char → Bool

/-- `s.replace(old, new, 1)`. -/
def replaceOnce (old new : List Char) : List Char → List Char
  | [] => if old = [] then new else []
  | c :: s =>
      if old.isPrefixOf (c :: s) = true then new ++ (c :: s).drop old.length
      else c :: replaceOnce old new s

/-- A line less the indent of the key. -/
def dedent (keyIndent : ℕ) (line : List Char) : List Char :=
  if blank line = true then [] else line.drop keyIndent

/-- The text `value_of` hands to the reader. -/
def snippet (keyIndent : ℕ) (lines : List (List Char)) : List Char :=
  ['\n'].intercalate (match lines.map (dedent keyIndent) with
    | [] => []
    | first :: rest => replaceOnce key "v:".toList first :: rest)

/-- `value_of`. -/
def valueOf (y : Yaml) (keyIndent : ℕ) (lines : List (List Char)) : Except PyError Scalar :=
  y.load (snippet keyIndent lines)

/-- `wrap_paragraph`. -/
def wrapParagraph (text : List Char) (width : ℤ) : List (List Char) :=
  fill width [] (words ([' '].intercalate (split '\n' text)))

/-- `literal_block`. -/
def literalBlock (value : List Char) (keyIndent : ℕ) : List (List Char) :=
  let contentIndent := keyIndent + 2
  let width : ℤ := (limit : ℤ) - contentIndent
  (spaces keyIndent ++ key ++ " |-".toList) ::
    stack ((splitRuns false value).map fun para =>
      (wrapParagraph para width).map (spaces contentIndent ++ ·))

/-- `needs_block`. -/
def needsBlock (value : List Char) (keyIndent : ℕ) : Bool :=
  decide ('\n' ∈ value) || decide (limit < keyIndent + (key ++ [' ']).length + value.length)

/-- A line past the limit that has a place to be broken at. -/
def overlong (line : List Char) : Bool := decide (limit < line.length ∧ 1 < (words line).length)

/-- `overlong_lines`: the numbers of the lines, from one on, and their lengths. -/
def overlongLines (start : ℕ) (lines : List (List Char)) : List (ℕ × ℕ) :=
  (lines.zipIdx start).filterMap fun p =>
    if overlong p.1 = true then some (p.2 + 1, p.1.length) else none

/-! ## The two passes -/

/-- What `process` leaves, and what it returns. -/
structure Outcome where
  file : List Char
  changed : Bool
  problems : List (ℕ × ℕ)
  deriving DecidableEq

/-- What is written for a segment; `in` and `len` take no scalar that is not a text. -/
def rewrite (y : Yaml) : Segment (List Char) → Except PyError (List (List Char))
  | .plain line => .ok [line]
  | .region keyIndent lines =>
      match valueOf y keyIndent lines with
      | .error e => .error e
      | .ok .other => .error .typeError
      | .ok (.str value) =>
          .ok (if needsBlock value keyIndent = true ∧ overlongLines 0 lines ≠ []
            then literalBlock value keyIndent else lines)

/-- The problems of segments, the first line of which has the index given. -/
def problemsFrom (i : ℕ) : List (Segment (List Char)) → List (ℕ × ℕ)
  | [] => []
  | .plain _ :: rest => problemsFrom (i + 1) rest
  | .region _ lines :: rest => overlongLines i lines ++ problemsFrom (i + lines.length) rest

/-- The segments of a file, as `read_text` gives it. -/
def fileSegments (file : List Char) : List (Segment (List Char)) :=
  segments id (split '\n' (universalNewlines file))

/-- `process`. -/
def process (y : Yaml) (file : List Char) (write : Bool) : Except PyError Outcome :=
  let segs := fileSegments file
  if write = true then
    (segs.mapM (rewrite y)).map fun out =>
      if out = segs.map Segment.lines then ⟨file, false, []⟩
      else ⟨['\n'].intercalate out.flatten, true, []⟩
  else .ok ⟨file, false, problemsFrom 0 segs⟩

/-! ## What is relied on of the reader -/

/-- A line of words, each of them printable. -/
def Prose (y : Yaml) (line : List Char) : Prop :=
  ∃ g : List (List Char), g ≠ [] ∧ line = [' '].intercalate g ∧
    ∀ w ∈ g, Solid w ∧ ∀ c ∈ w, y.printable c = true

/-- A line of a block under a key without indent. -/
def indented (line : List Char) : List Char := if line = [] then [] else spaces 2 ++ line

/-- A literal block of words reads as its lines, and what is not printable is refused. -/
structure ReadsBlocks (y : Yaml) : Prop where
  block : ∀ ls : List (List Char), (∀ l ∈ ls, l = [] ∨ Prose y l) → ls.getLast? ≠ some [] →
    y.load (['\n'].intercalate ("v: |-".toList :: ls.map indented)) =
      .ok (.str (['\n'].intercalate ls))
  refused : ∀ (s : List Char) (c : Char), c ∈ s → y.printable c = false → ∃ e, y.load s = .error e

/-! ## Literal blocks -/

/-- The first line of a literal block. -/
def header (k : ℕ) : List Char := spaces k ++ key ++ " |-".toList

/-- A line of the content, at its indent. -/
def deeper (k : ℕ) (line : List Char) : List Char :=
  if line = [] then [] else spaces (k + 2) ++ line

/-- The lines of a rewrapped value, before they are indented. -/
def content (value : List Char) (k : ℕ) : List (List Char) :=
  stack ((splitRuns false value).map fun para => wrapParagraph para ((limit : ℤ) - (k + 2 : ℕ)))

theorem words_spaces (n : ℕ) (s : List Char) : words (spaces n ++ s) = words s := by
  induction n with
  | zero => rfl
  | succ n ih =>
      rw [spaces, List.replicate_succ, List.cons_append]
      exact (words_sep (s := []) (by decide) _).trans ih

/-- A wrapped paragraph is its words in order, so many on each line as fit. -/
theorem wrapParagraph_groups (para : List Char) (width : ℤ) :
    ∃ gs : List (List (List Char)), wrapParagraph para width = gs.map ([' '].intercalate ·) ∧
      gs.flatten = words para ∧ ∀ g ∈ gs, Fits width g := by
  rw [wrapParagraph, words_join_split (by decide)]
  exact fill_groups width fun w hw => (solid_of_mem_words hw).1

theorem wrapParagraph_line {para l : List Char} {width : ℤ} (h : l ∈ wrapParagraph para width) :
    ∃ g, l = [' '].intercalate g ∧ Fits width g ∧ ∀ w ∈ g, w ∈ words para := by
  obtain ⟨gs, hwrap, hflat, hfits⟩ := wrapParagraph_groups para width
  rw [hwrap] at h
  obtain ⟨g, hg, rfl⟩ := List.mem_map.mp h
  exact ⟨g, rfl, hfits g hg, fun w hw => hflat ▸ List.mem_flatten.mpr ⟨g, hg, hw⟩⟩

theorem wrapParagraph_words (para : List Char) (width : ℤ) :
    (wrapParagraph para width).flatMap words = words para := by
  obtain ⟨gs, hwrap, hflat, -⟩ := wrapParagraph_groups para width
  have hsolid : ∀ g ∈ gs, ∀ w ∈ g, Solid w := fun g hg w hw =>
    solid_of_mem_words (hflat ▸ List.mem_flatten.mpr ⟨g, hg, hw⟩)
  rw [hwrap, List.flatMap_map, ← hflat, ← List.flatMap_id]
  exact List.flatMap_congr fun g hg => words_line (hsolid g hg)

/-- A line of the content: empty, or words of the value that fit. -/
theorem content_line {value : List Char} {k : ℕ} {l : List Char} (h : l ∈ content value k) :
    l = [] ∨ ∃ g, l = [' '].intercalate g ∧ Fits ((limit : ℤ) - (k + 2 : ℕ)) g ∧
      ∀ w ∈ g, Solid w ∧ ∀ c ∈ w, c ∈ value := by
  rcases mem_stack h with rfl | ⟨p, hp, hl⟩
  · exact .inl rfl
  · obtain ⟨para, hpara, rfl⟩ := List.mem_map.mp hp
    obtain ⟨g, rfl, hfits, hwords⟩ := wrapParagraph_line hl
    refine .inr ⟨g, rfl, hfits, fun w hw => ⟨solid_of_mem_words (hwords w hw), fun c hc => ?_⟩⟩
    have hmem : c ∈ ((splitRuns false value).flatMap words).flatten :=
      List.mem_flatten.mpr ⟨w, List.mem_flatMap.mpr ⟨para, hpara, hwords w hw⟩, hc⟩
    rw [splitRuns_words] at hmem
    exact (List.mem_filter.mp hmem).1

theorem literalBlock_eq (value : List Char) (k : ℕ) :
    literalBlock value k = header k :: (content value k).map (deeper k) := by
  rw [literalBlock, content, stack_map (f := deeper k) (if_pos rfl), List.map_map]
  refine congrArg (fun ps => header k :: stack ps) (List.map_congr_left fun para hpara => ?_)
  refine List.map_congr_left fun l hl => ?_
  obtain ⟨g, rfl, ⟨hne, -⟩, hwords⟩ := wrapParagraph_line hl
  rw [deeper, if_neg (join_ne_nil hne fun w hw => (solid_of_mem_words (hwords w hw)).1)]

/-- Of the lines under a header none is reported. -/
theorem overlong_deeper {value : List Char} {k : ℕ} {l : List Char} (h : l ∈ content value k) :
    overlong (deeper k l) = false := by
  rw [overlong, decide_eq_false_iff_not]
  rintro ⟨hlong, hbroken⟩
  rcases content_line h with rfl | ⟨g, rfl, ⟨hne, hfits⟩, hwords⟩
  · rw [deeper, if_pos rfl] at hlong
    exact absurd hlong (Nat.not_lt_zero limit)
  · rw [deeper, if_neg (join_ne_nil hne fun w hw => (hwords w hw).1.1)] at hlong hbroken
    rcases hfits with hwidth | hsingle
    · rw [List.length_append, spaces, List.length_replicate] at hlong
      push_cast at hwidth
      omega
    · rw [words_spaces, words_line fun w hw => (hwords w hw).1, hsingle] at hbroken
      exact absurd hbroken (Nat.lt_irrefl 1)

/-- The header is reported when the key stands far to the right. -/
theorem overlong_header (k : ℕ) : overlong (header k) = true ↔ limit < k + 15 := by
  have hlen : (header k).length = k + 15 := by
    rw [header, List.append_assoc, List.length_append, spaces, List.length_replicate]
    rfl
  have hwords : words (header k) = [key, "|-".toList] := by
    rw [header, List.append_assoc, words_spaces]
    decide
  rw [overlong, decide_eq_true_eq, hlen, hwords]
  exact and_iff_left Nat.one_lt_two

/-! ## Reading a block back -/

/-- The lines of the content that belong to the region: less the empty ones at the end. -/
def trimmed (value : List Char) (k : ℕ) : List (List Char) :=
  (content value k).rdropWhile (· = [])

theorem trimmed_subset (value : List Char) (k : ℕ) : trimmed value k ⊆ content value k :=
  (List.rdropWhile_prefix _ _).subset

theorem trimmed_last {value : List Char} {k : ℕ} {l : List Char}
    (h : (trimmed value k).getLast? = some l) : l ≠ [] := by
  rintro rfl
  have hne : trimmed value k ≠ [] := List.ne_nil_of_mem (List.mem_of_getLast? h)
  have hlast := (List.getLast_eq_iff_getLast?_eq_some hne).mpr h
  exact List.rdropWhile_last_not _ _ hne (decide_eq_true hlast)

/-- A line that is not empty is not blank, and stands deeper than the key. -/
theorem deeper_ne_nil {value : List Char} {k : ℕ} {l : List Char} (h : l ∈ content value k)
    (hl : l ≠ []) : deeper k l = spaces (k + 2) ++ l ∧ blank (deeper k l) = false := by
  obtain ⟨g, rfl, ⟨hne, -⟩, hwords⟩ := (content_line h).resolve_left hl
  refine ⟨if_neg hl, List.all_eq_false.mpr ?_⟩
  obtain ⟨w, hw⟩ := List.exists_mem_of_ne_nil g hne
  obtain ⟨c, hc⟩ := List.exists_mem_of_ne_nil w (hwords w hw).1.1
  refine ⟨c, ?_, by simp [(hwords w hw).1.2 c hc]⟩
  rw [deeper, if_neg hl]
  exact List.mem_append_right _ (mem_join hw hc)

theorem dedent_deeper {value : List Char} {k : ℕ} {l : List Char} (h : l ∈ content value k) :
    dedent k (deeper k l) = indented l := by
  by_cases hl : l = []
  · subst hl
    rfl
  · obtain ⟨heq, hblank⟩ := deeper_ne_nil h hl
    rw [dedent, hblank, if_neg Bool.false_ne_true, heq, indented, if_neg hl, spaces,
      List.replicate_add, List.append_assoc, List.drop_left' List.length_replicate]
    rfl

theorem dedent_header (k : ℕ) : dedent k (header k) = key ++ " |-".toList := by
  have hblank : blank (header k) = false := by
    refine List.all_eq_false.mpr ⟨'d', ?_, by decide⟩
    rw [header, List.append_assoc]
    exact List.mem_append_right _ (by decide)
  rw [dedent, hblank, if_neg Bool.false_ne_true, header, List.append_assoc, spaces,
    List.drop_left' List.length_replicate]

/-- What the reader is given of a block. -/
theorem snippet_block {value : List Char} {k : ℕ} {ls : List (List Char)}
    (h : ls ⊆ content value k) : snippet k (header k :: ls.map (deeper k)) =
      ['\n'].intercalate ("v: |-".toList :: ls.map indented) := by
  have hmap : (ls.map (deeper k)).map (dedent k) = ls.map indented := by
    rw [List.map_map]
    exact List.map_congr_left fun l hl => dedent_deeper (h hl)
  rw [snippet, List.map_cons, hmap, dedent_header]
  have hkey : replaceOnce key "v:".toList (key ++ " |-".toList) = "v: |-".toList := by decide
  exact congrArg (fun first => ['\n'].intercalate (first :: ls.map indented)) hkey

/-- No character of the value is lost in its content, but white space. -/
theorem content_words (value : List Char) (k : ℕ) :
    ((content value k).flatMap words).flatten = value.filter fun c => !isSpace c := by
  rw [content, stack_words, List.flatMap_map, ← splitRuns_words false value]
  refine congrArg List.flatten (List.flatMap_congr fun para _ => ?_)
  exact wrapParagraph_words para _

/-- The content says what the value says. -/
theorem paragraphs_trimmed (value : List Char) (k : ℕ) :
    paragraphs (['\n'].intercalate (trimmed value k)) = paragraphs value := by
  rw [trimmed, content, paragraphs_stack, List.map_map, paragraphs]
  · refine congrArg (List.filter _) (List.map_congr_left fun para _ => ?_)
    exact wrapParagraph_words para _
  · intro p hp l hl
    obtain ⟨para, -, rfl⟩ := List.mem_map.mp hp
    obtain ⟨g, rfl, ⟨hne, -⟩, hwords⟩ := wrapParagraph_line hl
    have hsolid : ∀ w ∈ g, Solid w := fun w hw => solid_of_mem_words (hwords w hw)
    refine ⟨join_ne_nil hne fun w hw => (hsolid w hw).1, fun hc => ?_⟩
    rcases of_mem_join hc with hc | ⟨w, hw, hc⟩
    · exact absurd hc (by decide)
    · exact absurd ((hsolid w hw).2 _ hc) (by decide)

section
variable {y : Yaml} (hy : ReadsBlocks y)
include hy

/-- A block of printable words is read back. -/
theorem valueOf_block {value : List Char} {k : ℕ}
    (h : ∀ c ∈ value, isSpace c = false → y.printable c = true) :
    valueOf y k (header k :: (trimmed value k).map (deeper k)) =
      .ok (.str (['\n'].intercalate (trimmed value k))) := by
  rw [valueOf, snippet_block (trimmed_subset value k)]
  refine hy.block _ (fun l hl => ?_) fun hlast => ?_
  · refine (content_line (trimmed_subset value k hl)).imp_right ?_
    rintro ⟨g, rfl, ⟨hne, -⟩, hwords⟩
    exact ⟨g, hne, rfl, fun w hw => ⟨(hwords w hw).1, fun c hc =>
      h c ((hwords w hw).2 c hc) ((hwords w hw).1.2 c hc)⟩⟩
  · exact trimmed_last hlast rfl

/-- A block that is read has printable characters only. -/
theorem printable_of_valueOf {value : List Char} {k : ℕ} {scalar : Scalar}
    (h : valueOf y k (header k :: (trimmed value k).map (deeper k)) = .ok scalar) :
    ∀ c ∈ value, isSpace c = false → y.printable c = true := by
  intro c hc hspace
  by_contra hprint
  have hmem : c ∈ ((content value k).flatMap words).flatten := by
    rw [content_words]
    exact List.mem_filter.mpr ⟨hc, by rw [hspace]; rfl⟩
  obtain ⟨w, hw, hcw⟩ := List.mem_flatten.mp hmem
  obtain ⟨l, hl, hwl⟩ := List.mem_flatMap.mp hw
  have hcl : c ∈ l := by
    have hflat : c ∈ (words l).flatten := List.mem_flatten.mpr ⟨w, hwl, hcw⟩
    rw [words_flatten] at hflat
    exact (List.mem_filter.mp hflat).1
  have hne : l ≠ [] := List.ne_nil_of_mem hcl
  have htrim : l ∈ trimmed value k := mem_rdropWhile hl (by simpa using hne)
  have hsnippet : c ∈ snippet k (header k :: (trimmed value k).map (deeper k)) := by
    rw [snippet_block (trimmed_subset value k)]
    refine mem_join (List.mem_cons_of_mem _ (List.mem_map.mpr ⟨l, htrim, rfl⟩)) ?_
    rw [indented, if_neg hne]
    exact List.mem_append_right _ hcl
  obtain ⟨e, he⟩ := hy.refused _ c hsnippet (Bool.eq_false_iff.mpr hprint)
  rw [valueOf, he] at h
  cases h

end

/-! ## A reader -/

/-- The characters YAML prints. -/
def printableChar (c : Char) : Bool :=
  let n := c.toNat
  decide (n = 9 ∨ n = 10 ∨ n = 13 ∨ (0x20 ≤ n ∧ n ≤ 0x7e) ∨ n = 0x85 ∨ (0xa0 ≤ n ∧ n ≤ 0xd7ff) ∨
    (0xe000 ≤ n ∧ n ≤ 0xfffd) ∨ 0x10000 ≤ n)

/-- Reading of a literal block, and of a text in single quotes on a line. -/
def loadScalar (s : List Char) : Except PyError Scalar :=
  if s.all printableChar = true then
    match split '\n' s with
    | [] => .error (.valueError "no document")
    | first :: rest =>
        if first = "v: |-".toList then
          .ok (.str (['\n'].intercalate ((rest.map (·.drop 2)).rdropWhile (· = []))))
        else
          let inner := (first.drop 4).dropLast
          if rest = [] ∧ first = "v: '".toList ++ inner ++ ['\''] ∧ '\'' ∉ inner then
            .ok (.str inner)
          else .error (.valueError "not read")
  else .error (.valueError "special characters are not allowed")

def reader : Yaml := ⟨loadScalar, printableChar⟩

theorem readsBlocks_reader : ReadsBlocks reader where
  block := by
    intro ls hprose hlast
    have hchar : ∀ l ∈ ls, ∀ c ∈ l, c = ' ' ∨ (isSpace c = false ∧ printableChar c = true) := by
      intro l hl c hc
      rcases hprose l hl with rfl | ⟨g, -, rfl, hwords⟩
      · exact absurd hc List.not_mem_nil
      · rcases of_mem_join hc with rfl | ⟨w, hw, hcw⟩
        · exact .inl rfl
        · exact .inr ⟨(hwords w hw).1.2 c hcw, (hwords w hw).2 c hcw⟩
    have hpiece : ∀ l ∈ "v: |-".toList :: ls.map indented, ∀ c ∈ l,
        c = ' ' ∨ (isSpace c = false ∧ printableChar c = true) := by
      refine List.forall_mem_cons.mpr ⟨by decide, fun l hl => ?_⟩
      obtain ⟨l', hl', rfl⟩ := List.mem_map.mp hl
      intro c hc
      rw [indented] at hc
      split_ifs at hc
      · exact absurd hc List.not_mem_nil
      · rcases List.mem_append.mp hc with hc | hc
        · exact .inl (List.eq_of_mem_replicate hc)
        · exact hchar l' hl' c hc
    have hall : (['\n'].intercalate ("v: |-".toList :: ls.map indented)).all printableChar = true := by
      refine List.all_eq_true.mpr fun c hc => ?_
      rcases of_mem_join hc with rfl | ⟨l, hl, hc⟩
      · decide
      · rcases hpiece l hl c hc with rfl | ⟨-, hprint⟩
        · decide
        · exact hprint
    have hsplit : split '\n' (['\n'].intercalate ("v: |-".toList :: ls.map indented)) =
        "v: |-".toList :: ls.map indented :=
      split_joined (List.cons_ne_nil _ _) fun l hl hc => absurd (hpiece l hl _ hc) (by decide)
    have hdrop : (ls.map indented).map (·.drop 2) = ls := by
      rw [List.map_map]
      refine (List.map_congr_left fun l _ => ?_).trans (List.map_id ls)
      rw [Function.comp_apply, indented]
      split_ifs with hl
      · rw [hl]
        rfl
      · rfl
    have htrim : ls.rdropWhile (· = []) = ls := by
      refine List.rdropWhile_eq_self_iff.mpr fun hne hempty => hlast ?_
      rw [List.getLast?_eq_some_getLast hne, of_decide_eq_true hempty]
    show loadScalar _ = _
    rw [loadScalar, if_pos hall, hsplit]
    show (if "v: |-".toList = "v: |-".toList then _ else _) = _
    rw [if_pos rfl, hdrop, htrim]
  refused := by
    intro s c hc hprint
    refine ⟨.valueError "special characters are not allowed", ?_⟩
    show loadScalar s = _
    rw [loadScalar, if_neg fun hall => ?_]
    have hrefused : printableChar c = false := hprint
    rw [List.all_eq_true.mp hall c hc] at hrefused
    cases hrefused

end KdevopsNg.Scripts.Reflow
