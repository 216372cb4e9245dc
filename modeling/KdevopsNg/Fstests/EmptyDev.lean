/-
# `Fstests.EmptyDev` — filling the device variables a section declares empty

A section asks for an external device with a line `KEY=` and nothing after it.
`section_external_devs` looks for such a line with `^\s*KEY=\s*$`, and
`inject_device_base` puts the device behind it.  White space in the pattern runs
over line ends, so the match may take blank lines with it; the contents of the
text change in that one line alone (`fillEmptyDev_spec`).
-/
import KdevopsNg.Fstests.Blocks
import KdevopsNg.Py.Contents

namespace KdevopsNg.Fstests

open Py Text

/-! ## Assignments -/

/-- A line that sets a variable. -/
def assignLine (key : String) (value : List Char) : List Char := key.toList ++ '=' :: value

/-- A name a variable may have: with nothing in it that an assignment or a line gives a
meaning. -/
structure PlainKey (key : String) : Prop where
  ne_nil : key.toList ≠ []
  plain : ∀ c ∈ key.toList, isSpace c = false ∧ c ≠ '=' ∧ c ≠ '#' ∧ c ≠ '['

/-- A value that a line may end with. -/
def EndsPlain (value : List Char) : Prop := ∀ c, value.getLast? = some c → isSpace c = false

theorem endsPlain_nil : EndsPlain [] := fun c hc => by cases hc

section
variable {key : String} {value : List Char}

theorem PlainKey.head (hk : PlainKey key) (rest : List Char) :
    ∃ c cs, key.toList ++ rest = c :: cs ∧ c ∈ key.toList := by
  obtain ⟨c, cs, hcs⟩ := List.exists_cons_of_ne_nil hk.ne_nil
  exact ⟨c, cs ++ rest, by rw [hcs]; rfl, by rw [hcs]; exact List.mem_cons_self⟩

theorem strip_assignLine (hk : PlainKey key) (hv : EndsPlain value) :
    strip (assignLine key value) = assignLine key value := by
  refine stripBy_of_ends (fun c hc => ?_) fun c hc => ?_
  · obtain ⟨x, cs, hcs, hx⟩ := hk.head ('=' :: value)
    rw [assignLine, hcs] at hc
    cases hc
    exact (hk.plain _ hx).1
  · rw [assignLine, List.getLast?_append_of_ne_nil _ (List.cons_ne_nil _ _)] at hc
    cases value with
    | nil =>
        cases hc
        decide
    | cons v vs =>
        rw [List.getLast?_cons_cons] at hc
        exact hv c hc

theorem sectionHeader_assignLine (hk : PlainKey key) : sectionHeader (assignLine key value) = none := by
  obtain ⟨x, cs, hcs, hx⟩ := hk.head ('=' :: value)
  rw [assignLine, hcs, sectionHeader]
  rintro cs' heq
  exact (hk.plain x hx).2.2.2 (List.cons.inj heq).1

theorem assignment_assignLine (hk : PlainKey key) (hv : EndsPlain value) :
    assignment (assignLine key value) = some (key, String.ofList (stripQuotes value)) := by
  have hkey : (assignLine key value).takeWhile (· ≠ '=') = key.toList ∧
      (assignLine key value).dropWhile (· ≠ '=') = '=' :: value := by
    have hall : ∀ c ∈ key.toList, (decide (c ≠ '=')) = true := fun c hc =>
      decide_eq_true (hk.plain c hc).2.1
    rw [assignLine, List.takeWhile_append_of_pos hall, List.dropWhile_append_of_pos hall]
    simp
  have hplain : strip key.toList = key.toList := by
    refine stripBy_of_ends (fun c hc => ?_) fun c hc => ?_
    · exact (hk.plain c (List.mem_of_head? hc)).1
    · exact (hk.plain c (List.mem_of_getLast? hc)).1
  have hcode : ¬(assignLine key value = [] ∨ (assignLine key value).head? = some '#' ∨
      '=' ∉ assignLine key value) := by
    obtain ⟨x, cs, hcs, hx⟩ := hk.head ('=' :: value)
    rintro (h | h | h)
    · rw [assignLine, hcs] at h
      cases h
    · rw [assignLine, hcs] at h
      cases h
      exact (hk.plain '#' hx).2.2.1 rfl
    · exact h (List.mem_append_right _ List.mem_cons_self)
  unfold assignment
  rw [strip_assignLine hk hv]
  rw [if_neg hcode]
  dsimp only
  rw [hkey.1, hkey.2, hplain, if_neg hk.ne_nil, String.ofList_toList]
  rfl

end

/-! ## The line that asks for a device -/

/-- A text whose lines end in `\n` alone, as `section_block` joins them. -/
def NewlineOnly (s : List Char) : Prop := ∀ c ∈ s, isLineBreak c = true → c = '\n'

/-- The last piece of a text that is split at a character. -/
theorem afterLast_spec {c : Char} {s : List Char} (h : c ∈ s) :
    s.take (s.length - (afterLast c s).length - 1) ++ c :: afterLast c s = s := by
  obtain ⟨front, hs⟩ := afterLast_split h
  have hlen : s.length - (afterLast c s).length - 1 = front.length := by
    have hlength := congrArg List.length hs
    rw [List.length_append, List.length_cons] at hlength
    omega
  have htake : s.take front.length = front := by
    rw [hs, List.take_left]
  rw [hlen, htake, ← hs]

section
variable {key : String}

/-- A match is the line and the white space about it, up to a line end. -/
theorem emptyDevHere_some {cs m after : List Char}
    (h : emptyDevHere key cs = some (m, after)) :
    cs = m ++ after ∧ (after = [] ∨ ∃ rest, after = '\n' :: rest) ∧
      ∃ ws ws', m = ws ++ (assignLine key [] ++ ws') ∧
        (∀ c ∈ ws, isSpace c = true) ∧ ∀ c ∈ ws', isSpace c = true := by
  unfold emptyDevHere at h
  have hcs := List.takeWhile_append_dropWhile (p := isSpace) (l := cs)
  have hws : ∀ c ∈ cs.takeWhile isSpace, isSpace c = true := fun c hc => List.mem_takeWhile_imp hc
  generalize cs.takeWhile isSpace = indent at *
  generalize cs.dropWhile isSpace = body at *
  subst hcs
  have hprefix : ¬(!(key.toList ++ ['=']).isPrefixOf body) = true → key.toList ++ ['='] <+: body :=
    fun hno => List.isPrefixOf_iff_prefix.mp (by simpa only [Bool.not_eq_true', Bool.not_eq_false] using hno)
  dsimp only at h
  split_ifs at h with hhead hrest hbreak
  · obtain ⟨tail, rfl⟩ := hprefix hhead
    rw [List.drop_left] at h hrest
    have htail := List.takeWhile_append_dropWhile (p := isSpace) (l := tail)
    rw [hrest, List.append_nil] at htail
    obtain ⟨rfl, rfl⟩ := Prod.mk.inj (Option.some.inj h)
    refine ⟨?_, .inl rfl, indent, tail, ?_, hws, fun c hc => ?_⟩
    · rw [htail]
      simp
    · rw [htail, assignLine]
      simp
    · rw [← htail] at hc
      exact List.mem_takeWhile_imp hc
  · obtain ⟨tail, rfl⟩ := hprefix hhead
    rw [List.drop_left] at h hbreak
    have htail := List.takeWhile_append_dropWhile (p := isSpace) (l := tail)
    have hblank : ∀ c ∈ tail.takeWhile isSpace, isSpace c = true := fun c hc =>
      List.mem_takeWhile_imp hc
    generalize tail.takeWhile isSpace = blank at *
    generalize tail.dropWhile isSpace = rest at *
    subst htail
    obtain ⟨rfl, rfl⟩ := Prod.mk.inj (Option.some.inj h)
    have hlast := afterLast_spec hbreak
    generalize blank.take (blank.length - (afterLast '\n' blank).length - 1) = front at *
    generalize afterLast '\n' blank = last at *
    refine ⟨?_, .inr ⟨_, rfl⟩, indent, front, ?_, hws, fun c hc => hblank c ?_⟩
    · rw [← hlast]
      simp only [List.append_assoc, List.cons_append]
    · rw [assignLine]
      simp
    · rw [← hlast]
      exact List.mem_append_left _ hc

/-- A line that asks for a device is matched where the white space before it begins. -/
theorem emptyDevHere_isSome (hk : PlainKey key) {ws ws' after : List Char}
    (hws : ∀ c ∈ ws, isSpace c = true) (hws' : ∀ c ∈ ws', isSpace c = true)
    (hafter : after = [] ∨ ∃ rest, after = '\n' :: rest) :
    (emptyDevHere key (ws ++ (assignLine key [] ++ (ws' ++ after)))).isSome = true := by
  have hbody : (assignLine key [] ++ (ws' ++ after)).dropWhile isSpace =
      assignLine key [] ++ (ws' ++ after) := by
    refine dropWhile_of_head fun c hc => ?_
    obtain ⟨x, cs, hcs, hx⟩ := hk.head ('=' :: (ws' ++ after))
    rw [assignLine, List.append_assoc, List.singleton_append, hcs] at hc
    cases hc
    exact (hk.plain _ hx).1
  have hdrop : (ws ++ (assignLine key [] ++ (ws' ++ after))).dropWhile isSpace =
      (key.toList ++ ['=']) ++ (ws' ++ after) := by
    rw [List.dropWhile_append_of_pos hws, hbody]
    rfl
  unfold emptyDevHere
  rw [hdrop]
  dsimp only
  rw [List.isPrefixOf_iff_prefix.mpr (List.prefix_append _ _), List.drop_left]
  rw [if_neg (by decide)]
  rcases hafter with rfl | ⟨rest, rfl⟩
  · rw [if_pos (by rw [List.append_nil]; exact List.dropWhile_eq_nil_iff.mpr hws')]
    rfl
  · by_cases hend : (ws' ++ '\n' :: rest).dropWhile isSpace = []
    · rw [if_pos hend]
      rfl
    · rw [if_neg hend, if_pos]
      · rfl
      · rw [List.takeWhile_append_of_pos hws', List.takeWhile_cons_of_pos (by decide)]
        exact List.mem_append_right _ List.mem_cons_self

/-- A match begins where a line does. -/
theorem findEmptyDev_some {atStart : Bool} {s before m after : List Char}
    (h : findEmptyDev key atStart s = some (before, m, after)) :
    s = before ++ (m ++ after) ∧ emptyDevHere key (m ++ after) = some (m, after) ∧
      (before = [] ∧ atStart = true ∨ ∃ x, before = x ++ ['\n']) := by
  induction s generalizing atStart before with
  | nil => cases h
  | cons c s ih =>
      rw [findEmptyDev] at h
      cases hhere : (if atStart then emptyDevHere key (c :: s) else none) with
      | some r =>
          obtain ⟨m', after'⟩ := r
          rw [hhere] at h
          cases h
          cases atStart with
          | false => cases hhere
          | true =>
              have hcs := (emptyDevHere_some hhere).1
              exact ⟨hcs, hcs ▸ hhere, .inl ⟨rfl, rfl⟩⟩
      | none =>
          rw [hhere] at h
          obtain ⟨r, hr, hmap⟩ := Option.map_eq_some_iff.mp h
          obtain ⟨before', m', after'⟩ := r
          cases hmap
          obtain ⟨rfl, hmatch, hbefore⟩ := ih hr
          refine ⟨rfl, hmatch, .inr ?_⟩
          rcases hbefore with ⟨rfl, hstart⟩ | ⟨x, rfl⟩
          · exact ⟨[], by rw [of_decide_eq_true hstart]; rfl⟩
          · exact ⟨c :: x, rfl⟩

theorem lineBreak_dropWhile (s : List Char) :
    s.dropWhile (· ≠ '\n') = [] ∨ ∃ rest, s.dropWhile (· ≠ '\n') = '\n' :: rest := by
  cases hdrop : s.dropWhile (· ≠ '\n') with
  | nil => exact .inl rfl
  | cons c rest =>
      have hc := List.head?_dropWhile_not (fun x => decide (x ≠ '\n')) s
      rw [hdrop] at hc
      exact .inr ⟨rest, by rw [show c = '\n' by simpa using hc]⟩

theorem oneLine_takeWhile {s : List Char} (hs : NewlineOnly s) :
    OneLine (s.takeWhile (· ≠ '\n')) := by
  intro c hc
  have hne := List.mem_takeWhile_imp hc
  rw [decide_eq_true_eq] at hne
  exact Bool.eq_false_iff.mpr fun h => hne (hs c (List.takeWhile_subset _ hc) h)

/-- Any line that asks for a device is found. -/
theorem findEmptyDev_isSome (hk : PlainKey key) {s : List Char} (hs : NewlineOnly s) :
    (assignLine key [] ∈ contents s → (findEmptyDev key true s).isSome = true) ∧
      (assignLine key [] ∈ contents (s.dropWhile (· ≠ '\n')) →
        (findEmptyDev key false s).isSome = true) := by
  have hbreak : isLineBreak '\n' = true := by decide
  induction s with
  | nil => exact ⟨nofun, nofun⟩
  | cons c s ih =>
      obtain ⟨ihTrue, ihFalse⟩ := ih fun x hx => hs x (List.mem_cons_of_mem c hx)
      have hnext : ∀ atStart, (if atStart then emptyDevHere key (c :: s) else none) = none →
          (findEmptyDev key (decide (c = '\n')) s).isSome = true →
          (findEmptyDev key atStart (c :: s)).isSome = true := by
        intro atStart hnone hsome
        rw [findEmptyDev, hnone]
        exact Option.isSome_map.trans hsome
      refine ⟨fun hmem => ?_, fun hmem => ?_⟩
      · cases hhere : emptyDevHere key (c :: s) with
        | some r =>
            rw [findEmptyDev, if_pos rfl, hhere]
            rfl
        | none =>
            refine hnext true hhere ?_
            by_cases hc : c = '\n'
            · rw [hc, contents_cons_space (isSpace_of_isLineBreak hbreak)] at hmem
              rw [decide_eq_true hc]
              exact ihTrue hmem
            · rw [decide_eq_false hc]
              refine ihFalse ?_
              -- the line is in the rest of the text, or this line is one
              have hrest := lineBreak_dropWhile (c :: s)
              rw [← List.takeWhile_append_dropWhile (p := fun x => decide (x ≠ '\n')) (l := c :: s),
                contents_append_of_break _ (hrest.imp_right fun ⟨t, ht⟩ => ⟨_, t, ht, hbreak⟩),
                contents_oneLine (oneLine_takeWhile hs)] at hmem
              rcases List.mem_append.mp hmem with hline | hmem
              · obtain ⟨ws, ws', hparts, hws, hws'⟩ :=
                  strip_parts ((c :: s).takeWhile (· ≠ '\n'))
                have hstrip : strip ((c :: s).takeWhile (· ≠ '\n')) = assignLine key [] := by
                  split_ifs at hline
                  · cases hline
                  · exact (List.mem_singleton.mp hline).symm
                have hsome := emptyDevHere_isSome hk hws hws' hrest
                rw [hstrip] at hparts
                have hcs := List.takeWhile_append_dropWhile (p := fun x => decide (x ≠ '\n')) (l := c :: s)
                rw [hparts, List.append_assoc, List.append_assoc] at hcs
                rw [hcs, hhere] at hsome
                cases hsome
              · rwa [List.dropWhile_cons_of_pos (by simpa using hc)] at hmem
      · refine hnext false rfl ?_
        by_cases hc : c = '\n'
        · rw [List.dropWhile_cons_of_neg (by simpa using hc), hc, contents_cons_space (isSpace_of_isLineBreak hbreak)] at hmem
          rw [decide_eq_true hc]
          exact ihTrue hmem
        · rw [List.dropWhile_cons_of_pos (by simpa using hc)] at hmem
          rw [decide_eq_false hc]
          exact ihFalse hmem

end

/-! ## Filling one in -/

/-- A device node path: nothing in it that a line, a value or a replacement text gives a
meaning. -/
structure PlainDevice (d : String) : Prop where
  ne_nil : d.toList ≠ []
  plain : ∀ c ∈ d.toList, isSpace c = false ∧ c ≠ '\\' ∧ c ≠ '\'' ∧ c ≠ '"'

theorem oneLine_of_noSpace {s : List Char} (h : ∀ c ∈ s, isSpace c = false) : OneLine s := by
  intro c hc
  refine Bool.eq_false_iff.mpr fun hbreak => ?_
  have hspace := isSpace_of_isLineBreak hbreak
  rw [h c hc] at hspace
  cases hspace

theorem oneLine_assignLine {key : String} (hk : PlainKey key) {value : List Char}
    (hv : OneLine value) : OneLine (assignLine key value) :=
  (oneLine_of_noSpace fun c hc => (hk.plain c hc).1).append (OneLine.cons (by decide) hv)

theorem contents_assignLine {key : String} (hk : PlainKey key) {value : List Char}
    (hv : OneLine value) (hend : EndsPlain value) :
    contents (assignLine key value) = [assignLine key value] := by
  rw [contents_oneLine (oneLine_assignLine hk hv), strip_assignLine hk hend, if_neg]
  simp [assignLine]

theorem PlainDevice.endsPlain {d : String} (hd : PlainDevice d) : EndsPlain d.toList := fun c hc =>
  (hd.plain c (List.mem_of_getLast? hc)).1

theorem PlainDevice.oneLine {d : String} (hd : PlainDevice d) : OneLine d.toList :=
  oneLine_of_noSpace fun c hc => (hd.plain c hc).1

theorem NewlineOnly.append {s t : List Char} (hs : NewlineOnly s) (ht : NewlineOnly t) :
    NewlineOnly (s ++ t) :=
  fun c hc => (List.mem_append.mp hc).elim (hs c) (ht c)

theorem NewlineOnly.subset {s t : List Char} (hs : NewlineOnly s) (h : t ⊆ s) : NewlineOnly t :=
  fun c hc => hs c (h hc)

theorem newlineOnly_of_oneLine {s : List Char} (hs : OneLine s) : NewlineOnly s := fun c hc h => by
  rw [hs c hc] at h
  cases h

theorem newlineOnly_intercalate {ls : List (List Char)} (h : ∀ l ∈ ls, OneLine l) :
    NewlineOnly (['\n'].intercalate ls) := by
  rcases List.eq_nil_or_concat ls with rfl | ⟨init, l, rfl⟩
  · exact fun c hc => absurd hc List.not_mem_nil
  · rw [List.concat_eq_append] at h ⊢
    have hl := newlineOnly_of_oneLine (h l (List.mem_append_right _ (List.mem_singleton_self l)))
    rw [intercalate_snoc]
    refine NewlineOnly.append (fun c hc hbreak => ?_) hl
    obtain ⟨m, hm, hc⟩ := List.mem_flatMap.mp hc
    rcases List.mem_append.mp hc with hc | hc
    · exact newlineOnly_of_oneLine (h m (List.mem_append_left _ hm)) c hc hbreak
    · exact List.mem_singleton.mp hc

/-- The contents of a text split where a match is, and the match is one line. -/
theorem contents_match {key : String} (hk : PlainKey key) {s before m after : List Char}
    (h : findEmptyDev key true s = some (before, m, after)) :
    s = before ++ (m ++ after) ∧ contents m = [assignLine key []] ∧
      ∀ x, contents (before ++ (x ++ after)) =
        contents before ++ (contents x ++ contents after) := by
  have hbreak : isLineBreak '\n' = true := by decide
  obtain ⟨hs, hmatch, hbefore⟩ := findEmptyDev_some h
  obtain ⟨-, hafter, ws, ws', rfl, hws, hws'⟩ := emptyDevHere_some hmatch
  refine ⟨hs, ?_, fun x => ?_⟩
  · rw [contents_space_append hws, contents_append_space hws',
      contents_assignLine hk (fun c hc => absurd hc List.not_mem_nil) endsPlain_nil]
  · rw [← contents_append_of_break x (hafter.imp_right fun ⟨t, ht⟩ => ⟨_, t, ht, hbreak⟩)]
    rcases hbefore with ⟨rfl, -⟩ | ⟨y, rfl⟩
    · rfl
    · rw [List.append_assoc, List.singleton_append, contents_append y hbreak,
        contents_append y hbreak]
      simp

/-- A variable is found where a line asks for it. -/
theorem findEmptyDev_isSome_iff {key : String} (hk : PlainKey key) {s : List Char}
    (hs : NewlineOnly s) :
    (findEmptyDev key true s).isSome = true ↔ assignLine key [] ∈ contents s := by
  refine ⟨fun hsome => ?_, (findEmptyDev_isSome hk hs).1⟩
  obtain ⟨⟨before, m, after⟩, hfind⟩ := Option.isSome_iff_exists.mp hsome
  obtain ⟨hsplit, hm, hcontents⟩ := contents_match hk hfind
  rw [hsplit, hcontents, hm]
  simp

/-- Filling a variable in changes the first line that asks for it, if there is one. -/
theorem fillEmptyDev_spec {key dev : String} (hk : PlainKey key) (hkey : '\\' ∉ key.toList)
    (hd : PlainDevice dev) {body : String} (hb : NewlineOnly body.toList) :
    assignLine key [] ∉ contents body.toList ∧ fillEmptyDev body (key, dev) = .ok body ∨
      ∃ body' pre post, fillEmptyDev body (key, dev) = .ok body' ∧ NewlineOnly body'.toList ∧
        contents body.toList = pre ++ assignLine key [] :: post ∧
        contents body'.toList = pre ++ assignLine key dev.toList :: post := by
  unfold fillEmptyDev
  cases hfind : findEmptyDev key true body.toList with
  | none =>
      refine .inl ⟨fun hmem => ?_, rfl⟩
      have hsome := (findEmptyDev_isSome hk hb).1 hmem
      rw [hfind] at hsome
      cases hsome
  | some r =>
      obtain ⟨before, m, after⟩ := r
      obtain ⟨hbody, hm, hsplit⟩ := contents_match hk hfind
      have htext : (key ++ "=" ++ dev).toList = assignLine key dev.toList := by
        rw [String.toList_append, String.toList_append, List.append_assoc]
        rfl
      have hplain : '\\' ∉ assignLine key dev.toList := by
        rw [assignLine, List.mem_append, List.mem_cons]
        rintro (h | h | h)
        · exact hkey h
        · exact absurd h (by decide)
        · exact (hd.plain _ h).2.1 rfl
      refine .inr ⟨String.ofList (before ++ assignLine key dev.toList ++ after), contents before,
        contents after, ?_, ?_, ?_, ?_⟩
      · dsimp only
        rw [htext, expandTemplate_plain hplain]
      · rw [String.toList_ofList]
        refine NewlineOnly.append (NewlineOnly.append (hb.subset fun c hc => ?_)
          (newlineOnly_of_oneLine (oneLine_assignLine hk hd.oneLine))) (hb.subset fun c hc => ?_)
        · exact hbody ▸ List.mem_append_left _ hc
        · exact hbody ▸ List.mem_append_right _ (List.mem_append_right _ hc)
      · rw [hbody, hsplit, hm]
        rfl
      · rw [String.toList_ofList, List.append_assoc, hsplit,
          contents_assignLine hk hd.oneLine hd.endsPlain]
        rfl

end KdevopsNg.Fstests
