/-
# `Qsu.Diagnostics` — findings of a sanitizer, and the locations they are of

`parse`, `_parse_line`, `locations` and `verdict` of `f/qsu/diagnostics.py`.  A line of the
journal is read as one of

    <file>:<line>:<col>: runtime error: …       of the UBSan runtime, with a location
    ==<pid>==ERROR: <Name>Sanitizer: <kind>     the header of a report, without one
    SUMMARY: <Name>Sanitizer: <kind> <file>:<line>

and a finding is kept when no finding before it has its key: runtime, file, line, column and
category.  So the findings are as many as the locations exactly when each is located and no
location is of two categories (`length_parse_iff`).  A report counts twice, by its header and
by its summary: of well-formed messages the count is that of the locations when there is no
report among them, and the lines of the UBSan runtime put no location in two categories
(`count_iff`).
-/
import KdevopsNg.Py.Distinct
import KdevopsNg.Py.Regex
import KdevopsNg.Qemu.Identity

namespace KdevopsNg.Qsu.Diagnostics

open Py Text

/-! ## Reading a line -/

/-- A finding. -/
structure Finding where
  sanitizer : String
  category : String
  file : Option String
  line : Option ℕ
  col : Option ℕ
  message : List Char
  raw : List Char
  deriving DecidableEq

/-- `_RUNTIME_NAME`. -/
def runtimeName : List (String × String) :=
  [("Address", "asan"), ("Thread", "tsan"), ("Leak", "lsan"), ("Undefined", "ubsan")]

/-- `_CATEGORY`. -/
def categories : List (String × String) :=
  [("shift exponent", "shift"), ("integer overflow", "overflow"), ("misaligned", "alignment"),
    ("out of bounds", "bounds"), ("null pointer", "null-deref"), ("division by zero", "divide"),
    ("use-after-free", "use-after-free"), ("use-after-return", "use-after-return"),
    ("stack-overflow", "stack-overflow"), ("heap-buffer-overflow", "heap-overflow"),
    ("data race", "data-race")]

/-- `s.split(sep, 1)[-1]`: what follows the first `sep`, or all of it. -/
def afterFirst (sep : List Char) (s : List Char) : List Char :=
  ((s.tails.find? fun t => sep.isPrefixOf t).map fun t => t.drop sep.length).getD s

section
variable (u : Unicode) (lower : List Char → List Char)

/-- `[\w-]`. -/
def isKind (c : Char) : Bool := u.isWord c || c = '-'

/-- `\d+`. -/
def digits : Re := Re.plus fun c => (u.digit? c).isSome

/-- `_UBSAN_RE`. -/
def ubsanRe : Regex :=
  ⟨"^(?P<file>[^\\s:][^:]*):(?P<line>\\d+):(?P<col>\\d+): runtime error: (?P<message>.*)$",
    Re.seqs [.start,
      .group "file" (.seq (.char fun c => !isSpace c && c ≠ ':') (.star true (· ≠ ':'))),
      .char (· = ':'), .group "line" (digits u), .char (· = ':'), .group "col" (digits u),
      Re.lit ": runtime error: ".toList, .group "message" (.star true (· ≠ '\n')), .stop]⟩

/-- One of some names, a group. -/
def nameRe (names : List String) : Re :=
  .group "name" ((names.map fun name => Re.lit name.toList).foldr Re.alt (.char fun _ => false))

/-- `_ASAN_RE`. -/
def asanRe : Regex :=
  ⟨"==\\d+==ERROR: (?P<name>Address|Thread|Leak)Sanitizer: (?P<kind>[\\w-]+)",
    Re.seqs [Re.lit "==".toList, digits u, Re.lit "==ERROR: ".toList,
      nameRe ["Address", "Thread", "Leak"], Re.lit "Sanitizer: ".toList,
      .group "kind" (Re.plus (isKind u))]⟩

/-- `_SUMMARY_RE`. -/
def summaryRe : Regex :=
  ⟨"SUMMARY: (?P<name>Address|Undefined|Thread|Leak)Sanitizer: " ++
      "(?P<kind>[\\w-]+)(?: (?P<file>[^\\s:]+):(?P<line>\\d+))?",
    Re.seqs [Re.lit "SUMMARY: ".toList, nameRe ["Address", "Undefined", "Thread", "Leak"],
      Re.lit "Sanitizer: ".toList, .group "kind" (Re.plus (isKind u)),
      .opt (Re.seqs [Re.lit " ".toList,
        .group "file" (Re.plus fun c => !isSpace c && c ≠ ':'), .char (· = ':'),
        .group "line" (digits u)])]⟩

/-- `_category`. -/
def category (text : List Char) : String :=
  ((categories.find? fun c => isInfix c.1.toList (lower text)).map Prod.snd).getD "runtime-error"

/-- `m[name]`, as a text. -/
def groupText (m : Found) (name : String) : Option String := (m.group name).map String.ofList

/-- `int(m[name]) if m[name] else None`. -/
def groupNat (m : Found) (name : String) : Option ℕ := (m.group name).map (digitsToNat u)

/-- `_RUNTIME_NAME[m["name"]]`. -/
def runtimeOf (m : Found) : String :=
  ((groupText m "name").bind fun name => List.lookup name runtimeName).getD ""

/-- The finding of a line of the UBSan runtime. -/
def ubsanFinding (line : List Char) : Option Finding :=
  ((ubsanRe u).match? line).map fun m =>
    let message := (m.group "message").getD []
    ⟨"ubsan", category lower message, groupText m "file", groupNat u m "line", groupNat u m "col",
      message, line⟩

/-- The finding of the header of a report. -/
def headerFinding (line : List Char) : Option Finding :=
  ((asanRe u).find? false line).map fun m =>
    ⟨runtimeOf m, (groupText m "kind").getD "", none, none, none,
      afterFirst "ERROR: ".toList line, line⟩

/-- The finding of the summary of a report. -/
def summaryFinding (line : List Char) : Option Finding :=
  ((summaryRe u).find? false line).map fun m =>
    ⟨runtimeOf m, (groupText m "kind").getD "", groupText m "file", groupNat u m "line", none,
      afterFirst "SUMMARY: ".toList line, line⟩

/-- `_parse_line`. -/
def parseLine (line : List Char) : Option Finding :=
  (ubsanFinding u lower line).or ((headerFinding u line).or (summaryFinding u line))

/-! ## Findings, locations, the verdict -/

/-- What tells findings apart. -/
structure Key where
  sanitizer : String
  file : Option String
  line : Option ℕ
  col : Option ℕ
  category : String
  deriving DecidableEq

/-- The key of a finding. -/
def key (f : Finding) : Key := ⟨f.sanitizer, f.file, f.line, f.col, f.category⟩

/-- What is read of the messages, one after the other. -/
def readings (messages : List (List Char)) : List Finding :=
  messages.filterMap fun message => parseLine u lower (rstripBy (· = '\n') message)

/-- `parse`. -/
def parse (messages : List (List Char)) : List Finding := firsts key [] (readings u lower messages)

/-- The `file:line` of a finding, where it has both. -/
def siteOf (f : Finding) : Option String :=
  match f.file, f.line with
  | some file, some line => if file = "" then none else some (file ++ ":" ++ toString line)
  | _, _ => none

/-- `locations`. -/
def locations (findings : List Finding) : List String := firsts id [] (findings.filterMap siteOf)

/-- What `verdict` returns. -/
structure Verdict where
  status : String
  ok : Bool
  sanitizer : String
  count : ℕ
  locations : List String
  findings : List Finding

/-- `verdict`. -/
def verdict (findings : List Finding) (sanitizer : String) : Verdict :=
  let name := if sanitizer = "" then "none" else sanitizer
  let status :=
    if findings ≠ [] then "diagnostics"
    else if name ∈ Qemu.sanitizers ∧ name ≠ "none" then "clean"
    else "not_sanitized"
  ⟨status, decide (status ≠ "diagnostics"), name, findings.length, locations findings, findings⟩

/-! ## What is reported -/

/-- A location that is reported: the runtime, the file and the line, and for UBSan the column. -/
structure Location where
  runtime : String
  file : String
  line : ℕ
  col : Option ℕ
  deriving DecidableEq

/-- The location of a finding. -/
def locationOf (f : Finding) : Option Location :=
  match f.file, f.line with
  | some file, some line => if file = "" then none else some ⟨f.sanitizer, file, line, f.col⟩
  | _, _ => none

/-- The locations that the messages report. -/
def reported (messages : List (List Char)) : List Location :=
  (readings u lower messages).filterMap locationOf

/-- The findings count and list the locations that are reported, each once. -/
structure CountsLocations (messages : List (List Char)) : Prop where
  again : parse u lower (messages ++ messages) = parse u lower messages
  more : ∀ others, parse u lower (messages ++ others) = parse u lower messages ++
    (parse u lower others).filter fun f => key f ∉ (parse u lower messages).map key
  count : ∀ sanitizer, (verdict (parse u lower messages) sanitizer).count =
    (reported u lower messages).toFinset.card
  sites : ∀ sanitizer, (verdict (parse u lower messages) sanitizer).locations.Nodup
  listed : ∀ sanitizer site, site ∈ (verdict (parse u lower messages) sanitizer).locations ↔
    ∃ l ∈ reported u lower messages, site = l.file ++ ":" ++ toString l.line

/-- What is read as a finding has a location, and no location is of two categories. -/
def Located (messages : List (List Char)) : Prop :=
  (∀ f ∈ readings u lower messages, locationOf f ≠ none) ∧
    ∀ f ∈ readings u lower messages, ∀ f' ∈ readings u lower messages,
      locationOf f = locationOf f' → f.category = f'.category

/-! ## Well-formed messages -/

/-- The lines of the messages. -/
def linesOf (messages : List (List Char)) : List (List Char) :=
  messages.map (rstripBy (· = '\n'))

/-- A line that is the header of a report of a runtime. -/
def IsHeader (runtime : String) (line : List Char) : Prop :=
  ubsanFinding u lower line = none ∧ ∃ f, headerFinding u line = some f ∧ f.sanitizer = runtime

/-- A line that is the summary of a report of a runtime, with a file and a line. -/
def IsSummary (runtime : String) (line : List Char) : Prop :=
  ubsanFinding u lower line = none ∧ headerFinding u line = none ∧
    ∃ f, summaryFinding u line = some f ∧ f.sanitizer = runtime ∧ runtime ≠ "ubsan" ∧
      locationOf f ≠ none

/-- Messages made of lines that are no finding, lines of the UBSan runtime and reports: the
header of each is followed by its summary. -/
structure WellFormed (messages : List (List Char)) : Prop where
  lines : ∀ line ∈ linesOf messages, parseLine u lower line = none ∨
    (ubsanFinding u lower line).isSome = true ∨
    (∃ runtime, IsHeader u lower runtime line) ∨ ∃ runtime, IsSummary u lower runtime line
  followed : ∀ before line after runtime, linesOf messages = before ++ line :: after →
    IsHeader u lower runtime line → ∃ summary ∈ after, IsSummary u lower runtime summary
  headed : ∀ before line after runtime, linesOf messages = before ++ line :: after →
    IsSummary u lower runtime line → ∃ header ∈ before, IsHeader u lower runtime header

/-- No message is the header of a report. -/
def NoReport (messages : List (List Char)) : Prop :=
  ∀ line ∈ linesOf messages, ∀ runtime, ¬ IsHeader u lower runtime line

/-- The lines of the UBSan runtime put no location in two categories. -/
def OneCategory (messages : List (List Char)) : Prop :=
  ∀ line ∈ linesOf messages, ∀ line' ∈ linesOf messages, ∀ f f',
    ubsanFinding u lower line = some f → ubsanFinding u lower line' = some f' →
      f.file = f'.file → f.line = f'.line → f.col = f'.col → f.category = f'.category

end

/-! ## The locations of the findings -/

section
variable {u : Unicode} {lower : List Char → List Char} {messages : List (List Char)}

/-- The location that a key tells. -/
def Key.location (k : Key) : Option Location :=
  match k.file, k.line with
  | some file, some line => if file = "" then none else some ⟨k.sanitizer, file, line, k.col⟩
  | _, _ => none

theorem location_key (f : Finding) : Key.location (key f) = locationOf f := rfl

/-- A key that tells a location is told by it and the category. -/
theorem key_eq {k k' : Key} {l : Location} (h : Key.location k = some l)
    (h' : Key.location k' = some l) (hcategory : k.category = k'.category) : k = k' := by
  obtain ⟨runtime, file, line, col, category⟩ := k
  obtain ⟨runtime', file', line', col', category'⟩ := k'
  cases file with
  | none => cases h
  | some file =>
      cases line with
      | none => cases h
      | some line =>
          cases file' with
          | none => cases h'
          | some file' =>
              cases line' with
              | none => cases h'
              | some line' =>
                  simp only [Key.location] at h h'
                  split_ifs at h h'
                  cases h
                  cases h'
                  rw [show category = category' from hcategory]

/-- Findings of one location have its parts. -/
theorem parts_of_location {f f' : Finding} {l : Location} (h : locationOf f = some l)
    (h' : locationOf f' = some l) : f.file = f'.file ∧ f.line = f'.line ∧ f.col = f'.col := by
  have hparts : ∀ {f : Finding}, locationOf f = some l →
      f.file = some l.file ∧ f.line = some l.line ∧ f.col = l.col := by
    intro f h
    rw [locationOf] at h
    split at h
    · next file line hfile hline =>
        split_ifs at h
        cases h
        exact ⟨hfile, hline, rfl⟩
    · cases h
  obtain ⟨hfile, hline, hcol⟩ := hparts h
  obtain ⟨hfile', hline', hcol'⟩ := hparts h'
  exact ⟨hfile.trans hfile'.symm, hline.trans hline'.symm, hcol.trans hcol'.symm⟩

/-- A finding's `file:line` is that of its location. -/
theorem siteOf_eq (f : Finding) :
    siteOf f = (locationOf f).map fun l => l.file ++ ":" ++ toString l.line := by
  rw [siteOf, locationOf]
  cases f.file with
  | none => rfl
  | some file =>
      cases f.line with
      | none => rfl
      | some line =>
          dsimp only
          split_ifs
          · rfl
          · rfl

/-- The findings that are kept have the locations that are reported. -/
theorem mem_reported (l : Location) : l ∈ reported u lower messages ↔
    ∃ f ∈ parse u lower messages, locationOf f = some l := by
  rw [reported, List.mem_filterMap]
  constructor
  · rintro ⟨f, hf, hl⟩
    have hkey : key f ∈ (parse u lower messages).map key :=
      (mem_keys_firsts key [] _ _).mpr ⟨List.not_mem_nil, List.mem_map_of_mem hf⟩
    obtain ⟨f', hf', heq⟩ := List.mem_map.mp hkey
    exact ⟨f', hf', by rw [← location_key, heq, location_key, hl]⟩
  · rintro ⟨f, hf, hl⟩
    exact ⟨f, firsts_subset key [] _ hf, hl⟩

/-- A map of a finite set into the values of another type has as many values as the set has
elements exactly when it has a value for each, and no value twice. -/
theorem card_values_iff {α β : Type} [DecidableEq α] [DecidableEq β] (s : Finset α)
    (f : α → Option β) (values : Finset β) (hvalues : ∀ b, b ∈ values ↔ ∃ a ∈ s, f a = some b) :
    s.card = values.card ↔ (∀ a ∈ s, f a ≠ none) ∧ ∀ a ∈ s, ∀ a' ∈ s, f a = f a' → a = a' := by
  have himage : values.image some = (s.image f).erase none := by
    ext o
    rw [Finset.mem_image, Finset.mem_erase, Finset.mem_image]
    constructor
    · rintro ⟨b, hb, rfl⟩
      exact ⟨by simp, (hvalues b).mp hb⟩
    · rintro ⟨hne, a, ha, rfl⟩
      obtain ⟨b, hb⟩ := Option.ne_none_iff_exists'.mp hne
      exact ⟨b, (hvalues b).mpr ⟨a, ha, hb⟩, hb.symm⟩
  have hcard : values.card = ((s.image f).erase none).card := by
    rw [← himage, Finset.card_image_of_injective _ (Option.some_injective β)]
  have hle : (s.image f).card ≤ s.card := Finset.card_image_le
  rw [hcard]
  constructor
  · intro heq
    have hnone : none ∉ s.image f := by
      intro hmem
      have hlt := Finset.card_erase_lt_of_mem hmem
      omega
    rw [Finset.erase_eq_of_notMem hnone] at heq
    refine ⟨fun a ha hfa => hnone (Finset.mem_image.mpr ⟨a, ha, hfa⟩), ?_⟩
    exact fun a ha a' ha' hf => Finset.card_image_iff.mp heq.symm ha ha' hf
  · rintro ⟨hsome, hinj⟩
    have hnone : none ∉ s.image f := by
      intro hmem
      obtain ⟨a, ha, hfa⟩ := Finset.mem_image.mp hmem
      exact hsome a ha hfa
    rw [Finset.erase_eq_of_notMem hnone,
      Finset.card_image_of_injOn fun a ha a' ha' hf => hinj a ha a' ha' hf]

/-- The findings are as many as the locations exactly when all are located. -/
theorem length_parse_iff : (parse u lower messages).length = (reported u lower messages).toFinset.card ↔
    Located u lower messages := by
  have hvalues : ∀ l, l ∈ (reported u lower messages).toFinset ↔
      ∃ k ∈ ((readings u lower messages).map key).toFinset, Key.location k = some l := by
    intro l
    rw [List.mem_toFinset, reported, List.mem_filterMap]
    simp only [List.mem_toFinset, List.mem_map]
    constructor
    · rintro ⟨f, hf, hl⟩
      exact ⟨key f, ⟨f, hf, rfl⟩, hl⟩
    · rintro ⟨k, ⟨f, hf, rfl⟩, hl⟩
      exact ⟨f, hf, hl⟩
  rw [parse, length_firsts, card_values_iff _ Key.location _ hvalues, Located]
  simp only [List.mem_toFinset, List.mem_map, forall_exists_index, and_imp,
    forall_apply_eq_imp_iff₂, location_key]
  refine and_congr_right fun hall => ?_
  constructor
  · intro h f hf f' hf' heq
    exact congrArg Key.category (h f hf f' hf' heq)
  · intro h f hf f' hf' heq
    obtain ⟨l, hl⟩ := Option.ne_none_iff_exists'.mp (hall f hf)
    exact key_eq hl (heq.symm.trans hl) (h f hf f' hf' heq)

/-! ## The count of well-formed messages -/

theorem ubsanRe_always : (ubsanRe u).re.always = ["file", "line", "col", "message"] := rfl

theorem ubsanRe_inside : (ubsanRe u).re.inside =
    [("file", .seq (.char fun c => !isSpace c && c ≠ ':') (.star true (· ≠ ':'))),
      ("line", digits u), ("col", digits u), ("message", .star true (· ≠ '\n'))] := rfl

/-- A line of the UBSan runtime has a location. -/
theorem ubsan_located {line : List Char} {f : Finding} (h : ubsanFinding u lower line = some f) :
    locationOf f ≠ none := by
  obtain ⟨m, hm, rfl⟩ := Option.map_eq_some_iff.mp h
  obtain ⟨file, hfile⟩ : ∃ t, m.group "file" = some t :=
    Regex.group_isSome hm (by rw [ubsanRe_always]; decide)
  obtain ⟨no, hno⟩ : ∃ t, m.group "line" = some t :=
    Regex.group_isSome hm (by rw [ubsanRe_always]; decide)
  have hne : String.ofList file ≠ "" := by
    obtain ⟨b, s, r, hb, hr, rfl⟩ := Regex.group_inside hm hfile
    rw [ubsanRe_inside] at hb
    simp only [List.mem_cons, Prod.mk.injEq, List.not_mem_nil, or_false] at hb
    rcases hb with ⟨-, rfl⟩ | ⟨hname, -⟩ | ⟨hname, -⟩ | ⟨hname, -⟩
    · intro hempty
      exact Re.between_ne_nil hr (String.ofList_eq_empty_iff.mp hempty)
    · exact absurd hname (by decide)
    · exact absurd hname (by decide)
    · exact absurd hname (by decide)
  simp only [locationOf, groupText, groupNat, hfile, hno, Option.map_some, if_neg hne]
  simp

theorem ubsan_sanitizer {line : List Char} {f : Finding} (h : ubsanFinding u lower line = some f) :
    f.sanitizer = "ubsan" := by
  obtain ⟨m, -, rfl⟩ := Option.map_eq_some_iff.mp h
  rfl

theorem header_not_located {line : List Char} {f : Finding} (h : headerFinding u line = some f) :
    locationOf f = none := by
  obtain ⟨m, -, rfl⟩ := Option.map_eq_some_iff.mp h
  rfl

/-- A header is read as the finding of a header. -/
theorem parseLine_header {runtime : String} {line : List Char} (h : IsHeader u lower runtime line) :
    ∃ f, parseLine u lower line = some f ∧ locationOf f = none := by
  obtain ⟨hubsan, f, hf, -⟩ := h
  exact ⟨f, by rw [parseLine, hubsan, hf]; rfl, header_not_located hf⟩

/-- What is read of the messages is read of their lines. -/
theorem mem_readings {f : Finding} : f ∈ readings u lower messages ↔
    ∃ line ∈ linesOf messages, parseLine u lower line = some f := by
  rw [readings, linesOf, List.mem_filterMap]
  constructor
  · rintro ⟨message, hmessage, hf⟩
    exact ⟨_, List.mem_map_of_mem hmessage, hf⟩
  · rintro ⟨line, hline, hf⟩
    obtain ⟨message, hmessage, rfl⟩ := List.mem_map.mp hline
    exact ⟨message, hmessage, hf⟩

/-- Without reports what is read of well-formed messages is of the UBSan runtime. -/
theorem ubsan_of_noReport (h : WellFormed u lower messages) (hnone : NoReport u lower messages)
    {line : List Char} (hline : line ∈ linesOf messages) {f : Finding}
    (hf : parseLine u lower line = some f) : ubsanFinding u lower line = some f := by
  rcases h.lines line hline with hnot | hubsan | ⟨runtime, hheader⟩ | ⟨runtime, hsummary⟩
  · rw [hnot] at hf
    cases hf
  · obtain ⟨f', hf'⟩ := Option.isSome_iff_exists.mp hubsan
    rw [parseLine, hf'] at hf
    rw [hf', ← hf]
    rfl
  · exact absurd hheader (hnone line hline runtime)
  · obtain ⟨before, after, hsplit⟩ := List.append_of_mem hline
    obtain ⟨header, hmem, hheader⟩ := h.headed before line after runtime hsplit hsummary
    refine absurd hheader (hnone header ?_ runtime)
    rw [hsplit]
    exact List.mem_append_left _ hmem

theorem located_iff (h : WellFormed u lower messages) : Located u lower messages ↔
    NoReport u lower messages ∧ OneCategory u lower messages := by
  constructor
  · rintro ⟨hall, hcategory⟩
    refine ⟨fun line hline runtime hheader => ?_, ?_⟩
    · obtain ⟨f, hf, hnone⟩ := parseLine_header hheader
      exact hall f (mem_readings.mpr ⟨line, hline, hf⟩) hnone
    · intro line hline line' hline' f f' hf hf' hfile hno hcol
      have hread : ∀ {line f}, ubsanFinding u lower line = some f → parseLine u lower line = some f := by
        intro line f hf
        rw [parseLine, hf]
        rfl
      refine hcategory f (mem_readings.mpr ⟨line, hline, hread hf⟩) f'
        (mem_readings.mpr ⟨line', hline', hread hf'⟩) ?_
      rw [locationOf, locationOf, hfile, hno, hcol, ubsan_sanitizer hf, ubsan_sanitizer hf']
  · rintro ⟨hnone, hcategory⟩
    refine ⟨fun f hf => ?_, fun f hf f' hf' heq => ?_⟩
    · obtain ⟨line, hline, hf⟩ := mem_readings.mp hf
      exact ubsan_located (ubsan_of_noReport h hnone hline hf)
    · obtain ⟨line, hline, hf⟩ := mem_readings.mp hf
      obtain ⟨line', hline', hf'⟩ := mem_readings.mp hf'
      have hubsan := ubsan_of_noReport h hnone hline hf
      have hubsan' := ubsan_of_noReport h hnone hline' hf'
      obtain ⟨l, hl⟩ := Option.ne_none_iff_exists'.mp (ubsan_located hubsan)
      obtain ⟨hfile, hno, hcol⟩ := parts_of_location hl (heq.symm.trans hl)
      exact hcategory line hline line' hline' f f' hubsan hubsan' hfile hno hcol

theorem countsLocations_iff : CountsLocations u lower messages ↔ Located u lower messages := by
  constructor
  · intro h
    exact length_parse_iff.mp (h.count "")
  · intro h
    refine ⟨?_, fun others => ?_, fun _ => length_parse_iff.mpr h, fun _ => ?_, fun _ site => ?_⟩
    · rw [parse, parse, readings, List.filterMap_append]
      exact firsts_twice key _
    · rw [parse, parse, parse, readings, List.filterMap_append]
      exact firsts_append key _ _
    · have hnodup := nodup_firsts id [] ((parse u lower messages).filterMap siteOf)
      rw [List.map_id] at hnodup
      exact hnodup
    · have hmem := mem_keys_firsts id [] ((parse u lower messages).filterMap siteOf) site
      rw [List.map_id, List.map_id, and_iff_right List.not_mem_nil, List.mem_filterMap] at hmem
      refine hmem.trans ?_
      constructor
      · rintro ⟨f, hf, hsite⟩
        rw [siteOf_eq, Option.map_eq_some_iff] at hsite
        obtain ⟨l, hl, rfl⟩ := hsite
        exact ⟨l, (mem_reported l).mpr ⟨f, hf, hl⟩, rfl⟩
      · rintro ⟨l, hl, rfl⟩
        obtain ⟨f, hf, hl⟩ := (mem_reported l).mp hl
        exact ⟨f, hf, by rw [siteOf_eq, hl]; rfl⟩

end

/-! ## Two lines, and one report -/

/-- The lower case of ASCII. -/
def asciiLower (s : List Char) : List Char := s.map Char.toLower

/-- A line of the UBSan runtime. -/
def ubsanLine : List Char :=
  "../hw/nvme/ctrl.c:8641:32: runtime error: shift exponent 32 is too large".toList

/-- A message that is no finding. -/
def bootLine : List Char := "Booting Linux".toList

theorem wellFormed_ubsan : WellFormed .ascii asciiLower [ubsanLine, bootLine] := by
  have hnoHeader : ∀ line ∈ linesOf [ubsanLine, bootLine], headerFinding .ascii line = none := by
    decide +kernel
  have hnoSummary : ∀ line ∈ linesOf [ubsanLine, bootLine], summaryFinding .ascii line = none := by
    decide +kernel
  refine ⟨?_, fun before line after runtime hsplit hheader => ?_,
    fun before line after runtime hsplit hsummary => ?_⟩
  · have hlines : ∀ line ∈ linesOf [ubsanLine, bootLine], parseLine .ascii asciiLower line = none ∨
        (ubsanFinding .ascii asciiLower line).isSome = true := by decide +kernel
    exact fun line hline => (hlines line hline).imp_right .inl
  · obtain ⟨-, f, hf, -⟩ := hheader
    rw [hnoHeader line (by rw [hsplit]; simp)] at hf
    cases hf
  · obtain ⟨-, -, f, hf, -⟩ := hsummary
    rw [hnoSummary line (by rw [hsplit]; simp)] at hf
    cases hf

/-- The header and the summary of a report. -/
def headerLine : List Char :=
  "==1==ERROR: AddressSanitizer: heap-use-after-free on address 0x60".toList
def summaryLine : List Char :=
  "SUMMARY: AddressSanitizer: heap-use-after-free block/foo.c:42 in bar".toList

theorem isHeader_sample : IsHeader .ascii asciiLower "asan" headerLine :=
  ⟨by decide +kernel, _, rfl, by decide +kernel⟩

theorem isSummary_sample : IsSummary .ascii asciiLower "asan" summaryLine :=
  ⟨by decide +kernel, by decide +kernel, _, rfl, by decide +kernel, by decide, by decide +kernel⟩

theorem wellFormed_report : WellFormed .ascii asciiLower [headerLine, summaryLine] := by
  have hlines : linesOf [headerLine, summaryLine] = [headerLine, summaryLine] := by decide +kernel
  have hruntime : ∀ f ∈ headerFinding .ascii headerLine, f.sanitizer = "asan" := by decide +kernel
  have hruntime' : ∀ f ∈ summaryFinding .ascii summaryLine, f.sanitizer = "asan" := by
    decide +kernel
  have htwo : ∀ {before : List (List Char)} {line after}, linesOf [headerLine, summaryLine] =
      before ++ line :: after → (line = headerLine ∧ after = [summaryLine]) ∨
        (line = summaryLine ∧ before = [headerLine]) := by
    intro before line after hsplit
    rw [hlines] at hsplit
    cases before with
    | nil =>
        obtain ⟨hline, hafter⟩ := List.cons.inj hsplit
        exact .inl ⟨hline.symm, hafter.symm⟩
    | cons first before =>
        obtain ⟨hfirst, hrest⟩ := List.cons.inj hsplit
        cases before with
        | nil =>
            obtain ⟨hline, -⟩ := List.cons.inj hrest
            exact .inr ⟨hline.symm, by rw [hfirst]⟩
        | cons second before =>
            obtain ⟨-, hnil⟩ := List.cons.inj hrest
            exact absurd hnil.symm (by simp)
  refine ⟨fun line hline => ?_, fun before line after runtime hsplit hheader => ?_,
    fun before line after runtime hsplit hsummary => ?_⟩
  · rw [hlines] at hline
    rcases List.mem_cons.mp hline with rfl | hline
    · exact .inr (.inr (.inl ⟨"asan", isHeader_sample⟩))
    · rw [List.mem_singleton.mp hline]
      exact .inr (.inr (.inr ⟨"asan", isSummary_sample⟩))
  · obtain ⟨-, f, hf, hname⟩ := hheader
    rcases htwo hsplit with ⟨rfl, rfl⟩ | ⟨rfl, -⟩
    · refine ⟨summaryLine, List.mem_cons_self, ?_⟩
      rw [← hname, hruntime f hf]
      exact isSummary_sample
    · rw [isSummary_sample.2.1] at hf
      cases hf
  · obtain ⟨-, hnoHeader, f, hf, hname, -⟩ := hsummary
    rcases htwo hsplit with ⟨rfl, -⟩ | ⟨rfl, rfl⟩
    · obtain ⟨f', hf', -⟩ := isHeader_sample.2
      rw [hnoHeader] at hf'
      cases hf'
    · refine ⟨headerLine, List.mem_cons_self, ?_⟩
      rw [← hname, hruntime' f hf]
      exact isHeader_sample

end KdevopsNg.Qsu.Diagnostics
