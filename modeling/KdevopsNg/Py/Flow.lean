/-
# `Py.Flow` — words filled into lines, paragraphs parted by empty lines

A text flows: what it says is the words of its paragraphs, and a paragraph ends
where a run of two or more line breaks stands (`splitRuns`, `paragraphs`).
`fill` sets words into lines up to a width, and `stack` sets the lines of the
paragraphs under each other with one empty line between two.

`fill_groups` tells a filled paragraph by the words on each of its lines, and
`paragraphs_stack` reads the stacked paragraphs back.  The scan of the breaks is
followed line by line (`Alike`): the words of the first piece, and the pieces
behind it less the empty ones.
-/
import KdevopsNg.Py.Contents

namespace Py

namespace Text

/-- `re.split(r"\n{2,}", s)`; within a run of breaks the flag is set. -/
def splitRuns (run : Bool) : List Char → List (List Char)
  | [] => [[]]
  | c :: s =>
      if c = '\n' ∧ run = true then splitRuns true s
      else if c = '\n' ∧ s.head? = some '\n' then [] :: splitRuns true s
      else (splitRuns false s).modifyHead (c :: ·)

/-- What a text says: the words of each paragraph that has any. -/
def paragraphs (s : List Char) : List (List (List Char)) :=
  ((splitRuns false s).map words).filter (· ≠ [])

/-- Words set into lines, the line begun first; a line is full where one more
blank and word would pass the width. -/
def fill (width : ℤ) (line : List Char) : List (List Char) → List (List Char)
  | [] => if line = [] then [] else [line]
  | word :: ws =>
      if line ≠ [] ∧ width < line.length + 1 + word.length then line :: fill width word ws
      else fill width (if line = [] then word else line ++ ' ' :: word) ws

/-- The lines of each paragraph, with an empty line between two. -/
def stack : List (List (List Char)) → List (List Char)
  | [] => []
  | p :: ps => p ++ ps.flatMap ([] :: ·)

/-- The lines of a stack. -/
theorem mem_stack {ps : List (List (List Char))} {l : List Char} (h : l ∈ stack ps) :
    l = [] ∨ ∃ p ∈ ps, l ∈ p := by
  cases ps with
  | nil => exact absurd h List.not_mem_nil
  | cons p ps =>
      rcases List.mem_append.mp h with h | h
      · exact .inr ⟨p, List.mem_cons_self, h⟩
      · obtain ⟨q, hq, h⟩ := List.mem_flatMap.mp h
        rcases List.mem_cons.mp h with rfl | h
        · exact .inl rfl
        · exact .inr ⟨q, List.mem_cons_of_mem p hq, h⟩

/-- The lines of a stack under a function that keeps the empty one. -/
theorem stack_map {f : List Char → List Char} (hf : f [] = []) (ps : List (List (List Char))) :
    (stack ps).map f = stack (ps.map (·.map f)) := by
  cases ps with
  | nil => rfl
  | cons p ps =>
      rw [stack, List.map_append, List.map_flatMap, List.map_cons, stack, List.flatMap_map]
      refine congrArg (List.map f p ++ ·) (List.flatMap_congr fun q _ => ?_)
      rw [List.map_cons, hf]

/-- Empty lines have no words. -/
theorem stack_words (ps : List (List (List Char))) :
    (stack ps).flatMap words = ps.flatMap (·.flatMap words) := by
  cases ps with
  | nil => rfl
  | cons p ps =>
      rw [stack, List.flatMap_append, List.flatMap_assoc, List.flatMap_cons]
      rfl

/-- What is dropped at the end is what the test holds of. -/
theorem mem_rdropWhile {α : Type*} {p : α → Bool} {xs : List α} {x : α} (hx : x ∈ xs)
    (hp : p x = false) : x ∈ xs.rdropWhile p := by
  rw [← List.rdropWhile_append_rtakeWhile (p := p) (l := xs)] at hx
  refine (List.mem_append.mp hx).resolve_right fun hback => ?_
  rw [List.mem_rtakeWhile_imp hback] at hp
  cases hp

/-! ## Joined pieces -/

/-- Pieces without the separator are split again. -/
theorem split_joined {c : Char} {ls : List (List Char)} (hne : ls ≠ []) (h : ∀ l ∈ ls, c ∉ l) :
    split c ([c].intercalate ls) = ls := by
  induction ls with
  | nil => exact absurd rfl hne
  | cons l ls ih =>
      have hl := h l List.mem_cons_self
      cases ls with
      | nil => rw [List.intercalate_singleton, split_of_not_mem hl]
      | cons l' ls =>
          rw [List.intercalate_cons_cons, List.append_assoc, List.singleton_append, split_piece hl,
            ih (List.cons_ne_nil l' ls) fun x hx => h x (List.mem_cons_of_mem l hx)]

/-- Split at one character and joined by another. -/
theorem join_split (c d : Char) (s : List Char) :
    [d].intercalate (split c s) = s.map fun x => if x = c then d else x := by
  induction s with
  | nil => rfl
  | cons x s ih =>
      obtain ⟨w, ws, hw⟩ := List.exists_cons_of_ne_nil (split_ne_nil c s)
      rw [split, List.map_cons, ← ih]
      split_ifs with hx
      · rw [List.intercalate_cons_of_ne_nil (split_ne_nil c s)]
        rfl
      · rw [hw]
        cases ws with
        | nil => rfl
        | cons v ws => rw [List.intercalate_cons_cons, List.intercalate_cons_cons]; rfl

/-- Words are the same when a break is a blank. -/
theorem words_join_split {c : Char} (hc : isSpace c = true) (s : List Char) :
    words ([' '].intercalate (split c s)) = words s := by
  have hmap : (s.map fun x => if x = c then ' ' else x).map (fun x => if isSpace x then ' ' else x) =
      s.map fun x => if isSpace x then ' ' else x := by
    rw [List.map_map]
    refine List.map_congr_left fun x _ => ?_
    by_cases hx : x = c
    · rw [Function.comp_apply, if_pos hx, hx, if_pos hc, if_pos (by decide)]
    · rw [Function.comp_apply, if_neg hx]
  rw [join_split, words, hmap, words]

/-! ## The characters of words -/

theorem split_flatten (c : Char) (s : List Char) : (split c s).flatten = s.filter (· ≠ c) := by
  induction s with
  | nil => rfl
  | cons x s ih =>
      obtain ⟨w, ws, hw⟩ := List.exists_cons_of_ne_nil (split_ne_nil c s)
      rw [split]
      split_ifs with hx
      · rw [List.filter_cons_of_neg (by simpa using hx), ← ih]
        rfl
      · rw [List.filter_cons_of_pos (by simpa using hx), ← ih, hw]
        rfl

/-- A piece is made of characters of the text. -/
theorem subset_of_mem_split {c : Char} {s l : List Char} (h : l ∈ split c s) : l ⊆ s := by
  intro x hx
  have hmem : x ∈ (split c s).flatten := List.mem_flatten.mpr ⟨l, h, hx⟩
  rw [split_flatten] at hmem
  exact (List.mem_filter.mp hmem).1

/-- The words of a text are its characters that are no blanks. -/
theorem words_flatten (s : List Char) : (words s).flatten = s.filter fun c => !isSpace c := by
  rw [words, List.flatten_filter_ne_nil, split_flatten]
  induction s with
  | nil => rfl
  | cons c s ih =>
      cases hc : isSpace c with
      | true => rw [List.map_cons, hc, if_pos rfl, List.filter_cons_of_neg (by simp), ih,
          List.filter_cons_of_neg (by simp [hc])]
      | false =>
          have hblank : c ≠ ' ' := by
            rintro rfl
            exact absurd hc (by decide)
          rw [List.map_cons, hc, if_neg Bool.false_ne_true,
            List.filter_cons_of_pos (by simpa using hblank), ih,
            List.filter_cons_of_pos (by simp [hc])]

theorem solid_of_mem_words {s w : List Char} (h : w ∈ words s) : Solid w := by
  refine ⟨by simpa using (List.mem_filter.mp h).2, fun c hc => ?_⟩
  have hmem : c ∈ (words s).flatten := List.mem_flatten.mpr ⟨w, h, hc⟩
  rw [words_flatten] at hmem
  simpa using (List.mem_filter.mp hmem).2

/-! ## Filled lines -/

/-- What the words on one line are: some, within the width unless there is one only. -/
def Fits (width : ℤ) (g : List (List Char)) : Prop :=
  g ≠ [] ∧ (((([' '].intercalate g).length : ℕ) : ℤ) ≤ width ∨ g.length = 1)

theorem Fits.single (width : ℤ) (w : List Char) : Fits width [w] :=
  ⟨List.cons_ne_nil w [], .inr rfl⟩

theorem join_append {sep : List Char} {xs ys : List (List Char)} (hxs : xs ≠ []) (hys : ys ≠ []) :
    sep.intercalate (xs ++ ys) = sep.intercalate xs ++ (sep ++ sep.intercalate ys) := by
  induction xs with
  | nil => exact absurd rfl hxs
  | cons x xs ih =>
      cases xs with
      | nil =>
          rw [List.singleton_append, List.intercalate_cons_of_ne_nil hys,
            List.intercalate_singleton, List.append_assoc]
      | cons x' xs =>
          rw [List.cons_append, List.cons_append, List.intercalate_cons_cons,
            List.intercalate_cons_cons, ← List.cons_append, ih (List.cons_ne_nil x' xs),
            ← List.append_assoc (x ++ sep)]

theorem join_concat {sep : Char} {g : List (List Char)} (hg : g ≠ []) (w : List Char) :
    [sep].intercalate (g ++ [w]) = [sep].intercalate g ++ sep :: w := by
  rw [join_append hg (List.cons_ne_nil w []), List.intercalate_singleton, List.singleton_append]

theorem join_ne_nil {g : List (List Char)} (hg : g ≠ []) (h : ∀ w ∈ g, w ≠ []) :
    [' '].intercalate g ≠ [] := by
  cases g with
  | nil => exact absurd rfl hg
  | cons v g =>
      have hv := h v List.mem_cons_self
      cases g with
      | nil => rwa [List.intercalate_singleton]
      | cons u g =>
          rw [List.intercalate_cons_cons, List.append_assoc]
          exact fun heq => hv (List.append_eq_nil_iff.mp heq).1

/-- The lines from a begun one on: its words and the next, in order. -/
theorem fill_from {width : ℤ} {ws g : List (List Char)} (hws : ∀ w ∈ ws, w ≠ [])
    (hg : ∀ w ∈ g, w ≠ []) (hfits : Fits width g) :
    ∃ gs : List (List (List Char)), fill width ([' '].intercalate g) ws = gs.map ([' '].intercalate ·) ∧
      gs.flatten = g ++ ws ∧ ∀ g' ∈ gs, Fits width g' := by
  induction ws generalizing g with
  | nil =>
      refine ⟨[g], ?_, ?_, fun g' hg' => ?_⟩
      · rw [fill, if_neg (join_ne_nil hfits.1 hg), List.map_singleton]
      · rw [List.flatten_singleton, List.append_nil]
      · rwa [List.mem_singleton.mp hg']
  | cons w ws ih =>
      have hw := hws w List.mem_cons_self
      have hrest : ∀ v ∈ ws, v ≠ [] := fun v hv => hws v (List.mem_cons_of_mem w hv)
      have hline := join_ne_nil hfits.1 hg
      rw [fill]
      split_ifs with hfull
      · obtain ⟨gs, hgs, hflat, hall⟩ := ih hrest
          (fun v hv => List.mem_singleton.mp hv ▸ hw) (Fits.single width w)
        refine ⟨g :: gs, ?_, ?_, List.forall_mem_cons.mpr ⟨hfits, hall⟩⟩
        · rw [List.map_cons, ← hgs, List.intercalate_singleton]
        · rw [List.flatten_cons, hflat, List.singleton_append]
      · have hroom : (((([' '].intercalate (g ++ [w])).length : ℕ) : ℤ) ≤ width) := by
          rw [join_concat hfits.1, List.length_append, List.length_cons]
          have := not_and.mp hfull hline
          push_cast
          omega
        have hmem : ∀ v ∈ g ++ [w], v ≠ [] := by
          intro v hv
          rcases List.mem_append.mp hv with hv | hv
          · exact hg v hv
          · exact List.mem_singleton.mp hv ▸ hw
        obtain ⟨gs, hgs, hflat, hall⟩ := ih hrest hmem
          ⟨fun h => hfits.1 (List.append_eq_nil_iff.mp h).1, .inl hroom⟩
        refine ⟨gs, ?_, ?_, hall⟩
        · rw [← join_concat hfits.1, hgs]
        · rw [hflat, List.append_assoc, List.singleton_append]

/-- A filled paragraph is its words in order, so many on each line as fit. -/
theorem fill_groups (width : ℤ) {ws : List (List Char)} (hws : ∀ w ∈ ws, w ≠ []) :
    ∃ gs : List (List (List Char)), fill width [] ws = gs.map ([' '].intercalate ·) ∧
      gs.flatten = ws ∧ ∀ g ∈ gs, Fits width g := by
  cases ws with
  | nil => exact ⟨[], rfl, rfl, nofun⟩
  | cons w ws =>
      have hw := hws w List.mem_cons_self
      obtain ⟨gs, hgs, hflat, hall⟩ := fill_from (fun v hv => hws v (List.mem_cons_of_mem w hv))
        (fun v hv => List.mem_singleton.mp hv ▸ hw) (Fits.single width w)
      rw [List.intercalate_singleton] at hgs
      refine ⟨gs, ?_, hflat, hall⟩
      rw [fill, if_neg (fun h => h.1 rfl), if_pos rfl, hgs]

/-- The words of a line of words. -/
theorem words_line {g : List (List Char)} (h : ∀ w ∈ g, Solid w) :
    words ([' '].intercalate g) = g := by
  rw [words_intercalate]
  induction g with
  | nil => rfl
  | cons w g ih =>
      rw [List.flatMap_cons, words_solid (h w List.mem_cons_self),
        ih fun v hv => h v (List.mem_cons_of_mem w hv), List.singleton_append]

/-! ## Runs of breaks -/

theorem splitRuns_ne_nil (run : Bool) (s : List Char) : splitRuns run s ≠ [] := by
  induction s generalizing run with
  | nil => exact List.cons_ne_nil [] []
  | cons c s ih =>
      rw [splitRuns]
      split_ifs
      · exact ih true
      · exact List.cons_ne_nil [] _
      · exact mt List.modifyHead_eq_nil_iff.mp (ih false)

/-- Past the first break of a run the others are passed over. -/
theorem splitRuns_within (s : List Char) : splitRuns true ('\n' :: s) = splitRuns true s := by
  rw [splitRuns, if_pos ⟨rfl, rfl⟩]

/-- Two breaks end a paragraph. -/
theorem splitRuns_run {s : List Char} (h : s.head? = some '\n') :
    splitRuns false ('\n' :: s) = [] :: splitRuns true s := by
  rw [splitRuns, if_neg (fun hrun => Bool.false_ne_true hrun.2), if_pos ⟨rfl, h⟩]

/-- A break by itself belongs to its paragraph. -/
theorem splitRuns_break {s : List Char} (h : s.head? ≠ some '\n') :
    splitRuns false ('\n' :: s) = (splitRuns false s).modifyHead ('\n' :: ·) := by
  rw [splitRuns, if_neg (fun hrun => Bool.false_ne_true hrun.2), if_neg fun hrun => h hrun.2]

theorem splitRuns_char (run : Bool) {c : Char} (hc : c ≠ '\n') (s : List Char) :
    splitRuns run (c :: s) = (splitRuns false s).modifyHead (c :: ·) := by
  rw [splitRuns, if_neg fun h => hc h.1, if_neg fun h => hc h.1]

/-- A line that is not empty stays in one piece. -/
theorem splitRuns_line (run : Bool) {l : List Char} (hne : l ≠ []) (h : '\n' ∉ l) (s : List Char) :
    splitRuns run (l ++ s) = (splitRuns false s).modifyHead (l ++ ·) := by
  induction l generalizing run with
  | nil => exact absurd rfl hne
  | cons c l ih =>
      have hc : c ≠ '\n' := fun heq => h (heq ▸ List.mem_cons_self)
      rw [List.cons_append, splitRuns_char run hc]
      cases l with
      | nil => rfl
      | cons d l =>
          rw [ih false (List.cons_ne_nil d l) fun hmem => h (List.mem_cons_of_mem c hmem),
            List.modifyHead_modifyHead]
          rfl

/-- No character but white space is lost between the pieces. -/
theorem splitRuns_words (run : Bool) (s : List Char) :
    ((splitRuns run s).flatMap words).flatten = s.filter fun c => !isSpace c := by
  have hpieces : ∀ xs : List (List Char),
      (xs.flatMap words).flatten = xs.flatten.filter fun c => !isSpace c := by
    intro xs
    induction xs with
    | nil => rfl
    | cons x xs ih =>
        rw [List.flatMap_cons, List.flatten_append, words_flatten, ih, List.flatten_cons,
          List.filter_append]
  rw [hpieces]
  induction s generalizing run with
  | nil => rfl
  | cons c s ih =>
      obtain ⟨x, xs, hx⟩ := List.exists_cons_of_ne_nil (splitRuns_ne_nil false s)
      have hkept : (x :: xs).flatten.filter (fun c => !isSpace c) = _ := hx ▸ ih false
      rw [splitRuns]
      split_ifs with hrun hends
      · rw [ih, hrun.1, List.filter_cons_of_neg (by decide)]
      · rw [List.flatten_cons, List.nil_append, ih, hends.1, List.filter_cons_of_neg (by decide)]
      · rw [hx, List.modifyHead_cons, List.flatten_cons, List.cons_append, List.filter_cons,
          List.filter_cons, ← hkept, List.flatten_cons]

/-! ## Paragraphs, line by line -/

/-- The words of lines, gathered up to each empty line. -/
def gather : List (List Char) → List (List (List Char))
  | [] => [[]]
  | l :: ls => if l = [] then [] :: gather ls else (gather ls).modifyHead (words l ++ ·)

theorem gather_ne_nil (ls : List (List Char)) : gather ls ≠ [] := by
  induction ls with
  | nil => exact List.cons_ne_nil [] []
  | cons l ls ih =>
      rw [gather]
      split_ifs
      · exact List.cons_ne_nil [] _
      · exact mt List.modifyHead_eq_nil_iff.mp ih

theorem gather_empty (ls : List (List Char)) : gather ([] :: ls) = [] :: gather ls := by
  rw [gather, if_pos rfl]

theorem gather_line {l : List Char} (hl : l ≠ []) (ls : List (List Char)) :
    gather (l :: ls) = (gather ls).modifyHead (words l ++ ·) := by rw [gather, if_neg hl]

/-- An empty line at the end says nothing. -/
theorem gather_snoc_empty (ls : List (List Char)) : gather (ls ++ [[]]) = gather ls ++ [[]] := by
  induction ls with
  | nil => rfl
  | cons l ls ih =>
      obtain ⟨g, gs, hg⟩ := List.exists_cons_of_ne_nil (gather_ne_nil ls)
      by_cases hl : l = []
      · rw [hl, List.cons_append, gather_empty, gather_empty, ih, List.cons_append]
      · rw [List.cons_append, gather_line hl, gather_line hl, ih, hg]
        rfl

theorem gather_trimmed (ls : List (List Char)) :
    (gather (ls.rdropWhile (· = []))).filter (· ≠ []) = (gather ls).filter (· ≠ []) := by
  induction ls using List.reverseRecOn with
  | nil => rfl
  | append_singleton ls l ih =>
      by_cases hl : l = []
      · rw [List.rdropWhile_concat_pos _ _ _ (by simpa using hl), ih, hl, gather_snoc_empty,
          List.filter_append]
        simp
      · rw [List.rdropWhile_concat_neg _ _ _ (by simpa using hl)]

/-- The lines of one paragraph in front. -/
theorem gather_paragraph {p : List (List Char)} (hp : ∀ l ∈ p, l ≠ []) (ls : List (List Char)) :
    gather (p ++ ls) = (gather ls).modifyHead (p.flatMap words ++ ·) := by
  induction p with
  | nil =>
      obtain ⟨g, gs, hg⟩ := List.exists_cons_of_ne_nil (gather_ne_nil ls)
      rw [List.nil_append, hg]
      rfl
  | cons l p ih =>
      rw [List.cons_append, gather_line (hp l List.mem_cons_self),
        ih fun x hx => hp x (List.mem_cons_of_mem l hx), List.modifyHead_modifyHead]
      refine congrArg (fun f => List.modifyHead f (gather ls)) (funext fun g => ?_)
      show words l ++ (p.flatMap words ++ g) = _
      rw [List.flatMap_cons, List.append_assoc]

theorem gather_stack {p : List (List Char)} {ps : List (List (List Char))}
    (h : ∀ q ∈ p :: ps, ∀ l ∈ q, l ≠ []) :
    gather (stack (p :: ps)) = (p :: ps).map (·.flatMap words) := by
  induction ps generalizing p with
  | nil =>
      rw [stack, gather_paragraph (h p List.mem_cons_self)]
      simp [gather]
  | cons q qs ih =>
      have hstack : stack (p :: q :: qs) = p ++ [] :: stack (q :: qs) := rfl
      rw [hstack, gather_paragraph (h p List.mem_cons_self), gather_empty,
        ih fun x hx => h x (List.mem_cons_of_mem p hx), List.modifyHead_cons, List.append_nil]
      rfl

/-- Pieces that say the same: the first as the first, and what is behind it. -/
def Alike (xs ys : List (List (List Char))) : Prop :=
  xs.head? = ys.head? ∧ xs.tail.filter (· ≠ []) = ys.tail.filter (· ≠ [])

theorem Alike.said {xs ys : List (List (List Char))} (h : Alike xs ys) :
    xs.filter (· ≠ []) = ys.filter (· ≠ []) := by
  obtain ⟨hhead, htail⟩ := h
  cases xs with
  | nil =>
      cases ys with
      | nil => rfl
      | cons y ys => exact absurd hhead nofun
  | cons x xs =>
      cases ys with
      | nil => exact absurd hhead nofun
      | cons y ys =>
          obtain rfl : x = y := Option.some.inj hhead
          rw [List.tail_cons, List.tail_cons] at htail
          rw [List.filter_cons, List.filter_cons, htail]

/-- A line in front of a break, and what the lines behind say. -/
theorem alike_line {l : List Char} (hl : '\n' ∉ l) (hne : l ≠ []) {l' : List Char}
    {ls : List (List Char)} (hl' : '\n' ∉ l')
    (hsaid : ((splitRuns true (['\n'].intercalate (l' :: ls))).map words).filter (· ≠ []) =
      (gather (l' :: ls)).filter (· ≠ []))
    (halike : l' ≠ [] →
      Alike ((splitRuns false (['\n'].intercalate (l' :: ls))).map words) (gather (l' :: ls)))
    (run : Bool) :
    Alike ((splitRuns run (['\n'].intercalate (l :: l' :: ls))).map words)
      (gather (l :: l' :: ls)) := by
  have hjoin : ['\n'].intercalate (l :: l' :: ls) = l ++ '\n' :: ['\n'].intercalate (l' :: ls) := by
    rw [List.intercalate_cons_cons, List.append_assoc, List.singleton_append]
  have hlast : words (l ++ ['\n']) = words l := by
    rw [words_sep (by decide), words_nil, List.append_nil]
  rw [hjoin, splitRuns_line run hne hl, gather_line hne]
  by_cases hempty : l' = []
  · subst hempty
    cases ls with
    | nil =>
        refine ⟨?_, rfl⟩
        show some (words (l ++ ['\n'])) = some (words l ++ [])
        rw [hlast, List.append_nil]
    | cons l'' ls =>
        -- the break and the one that the empty line begins with are a run
        have hhead : (['\n'].intercalate ([] :: l'' :: ls)).head? = some '\n' := by
          rw [List.intercalate_cons_cons]
          rfl
        rw [splitRuns_run hhead, gather_empty]
        rw [gather_empty, List.filter_cons_of_neg (by simp)] at hsaid
        refine ⟨?_, hsaid⟩
        show some (words (l ++ [])) = some (words l ++ [])
        rw [List.append_nil, List.append_nil]
  · have hhead : (['\n'].intercalate (l' :: ls)).head? ≠ some '\n' := by
      obtain ⟨c, t, rfl⟩ := List.exists_cons_of_ne_nil hempty
      have hc : c ≠ '\n' := fun heq => hl' (heq ▸ List.mem_cons_self)
      cases ls with
      | nil => simpa using hc
      | cons x xs =>
          rw [List.intercalate_cons_cons]
          simpa using hc
    obtain ⟨hfirst, hbehind⟩ := halike hempty
    rw [splitRuns_break hhead]
    obtain ⟨x, xs, hx⟩ := List.exists_cons_of_ne_nil
      (splitRuns_ne_nil false (['\n'].intercalate (l' :: ls)))
    obtain ⟨g, gs, hg⟩ := List.exists_cons_of_ne_nil (gather_ne_nil (l' :: ls))
    rw [hx, hg] at hfirst hbehind ⊢
    have hword : words x = g := Option.some.inj hfirst
    refine ⟨?_, hbehind⟩
    show some (words (l ++ '\n' :: x)) = some (words l ++ g)
    rw [words_sep (by decide), hword]

theorem split_lines (ls : List (List Char)) (h : ∀ l ∈ ls, '\n' ∉ l) :
    (∀ run, ((splitRuns run (['\n'].intercalate ls)).map words).filter (· ≠ []) =
        (gather ls).filter (· ≠ [])) ∧
      ((∀ l ∈ ls.head?, l ≠ []) →
        Alike ((splitRuns false (['\n'].intercalate ls)).map words) (gather ls)) := by
  induction ls with
  | nil => exact ⟨fun _ => rfl, fun _ => ⟨rfl, rfl⟩⟩
  | cons l ls ih =>
      have hl := h l List.mem_cons_self
      obtain ⟨hsaid, halike⟩ := ih fun x hx => h x (List.mem_cons_of_mem l hx)
      cases ls with
      | nil =>
          by_cases hempty : l = []
          · subst hempty
            exact ⟨fun _ => rfl, fun hne => absurd rfl (hne [] rfl)⟩
          · have hsplit : ∀ run, splitRuns run (['\n'].intercalate [l]) = [l] := fun run => by
              rw [List.intercalate_singleton, ← List.append_nil l, splitRuns_line run hempty hl]
              rfl
            have hgather : gather [l] = [words l] := by
              rw [gather_line hempty]
              simp [gather]
            refine ⟨fun run => by rw [hsplit run, hgather]; rfl, fun _ => ?_⟩
            rw [hsplit false, hgather]
            exact ⟨rfl, rfl⟩
      | cons l' ls =>
          have hl' := h l' (List.mem_cons_of_mem l List.mem_cons_self)
          by_cases hempty : l = []
          · subst hempty
            have hjoin : ['\n'].intercalate ([] :: l' :: ls) =
                '\n' :: ['\n'].intercalate (l' :: ls) := List.intercalate_cons_cons
            refine ⟨fun run => ?_, fun hne => absurd rfl (hne [] rfl)⟩
            rw [hjoin, gather_empty, List.filter_cons_of_neg (by simp)]
            cases run with
            | true => rw [splitRuns_within, hsaid true]
            | false =>
                by_cases hhead : (['\n'].intercalate (l' :: ls)).head? = some '\n'
                · rw [splitRuns_run hhead, List.map_cons, List.filter_cons_of_neg (by simp [words_nil]),
                    hsaid true]
                · rw [splitRuns_break hhead, ← hsaid false]
                  obtain ⟨x, xs, hx⟩ := List.exists_cons_of_ne_nil
                    (splitRuns_ne_nil false (['\n'].intercalate (l' :: ls)))
                  have hbreak : words ('\n' :: x) = words x := words_sep (s := []) (by decide) x
                  rw [hx, List.modifyHead_cons, List.map_cons, List.map_cons, hbreak]
          · have hline := alike_line hl hempty hl' (hsaid true)
              fun hne => halike fun x hx => Option.some.inj hx ▸ hne
            exact ⟨fun run => (hline run).said, fun _ => hline false⟩

/-- The paragraphs of lines joined are the words between the empty ones. -/
theorem paragraphs_lines {ls : List (List Char)} (h : ∀ l ∈ ls, '\n' ∉ l) :
    paragraphs (['\n'].intercalate ls) = (gather ls).filter (· ≠ []) :=
  (split_lines ls h).1 false

/-- Stacked paragraphs are read back, with or without the empty lines at the end. -/
theorem paragraphs_stack {ps : List (List (List Char))} (h : ∀ p ∈ ps, ∀ l ∈ p, l ≠ [] ∧ '\n' ∉ l) :
    paragraphs (['\n'].intercalate ((stack ps).rdropWhile (· = []))) =
      (ps.map (·.flatMap words)).filter (· ≠ []) := by
  have hlines : ∀ l ∈ stack ps, '\n' ∉ l := by
    intro l hl
    rcases mem_stack hl with rfl | ⟨p, hp, hl⟩
    · exact List.not_mem_nil
    · exact (h p hp l hl).2
  have hsub := List.rdropWhile_prefix (fun l : List Char => decide (l = [])) (stack ps)
  rw [paragraphs_lines fun l hl => hlines l (hsub.subset hl), gather_trimmed]
  cases ps with
  | nil => rfl
  | cons p ps => rw [gather_stack fun q hq l hl => (h q hq l hl).1]

end Text

end Py
