/-
# `Kernel.DigestFlags` — the digest of the make flags `build_flags` composes

`_digest` takes the make flags with the values of `-fdebug-prefix-map=` cut, so that the
identity of a build does not depend on where it is built.  What `main` of
`f/kernel/build_flags.py` composes are the same words for every place, but for the map in
two of them (`pieces`, `combine_eq`).
-/
import KdevopsNg.Kernel.MakeFlags
import KdevopsNg.Kernel.MaskedReading

namespace KdevopsNg.Kernel

open Py Py.Text Py.Shlex

/-! ## The words before the map is known -/

/-- `_merge_prefix_map` of one variable. -/
def mergePiece (v : FlagVar) (parts ts : List Piece) : List Piece × List Piece :=
  match ts.findIdx? (Piece.starts v) with
  | none => (parts ++ [.flags v []], ts)
  | some i => (parts, ts.modify i (Piece.into v))

/-- `_merge_prefix_map`, and the words put together. -/
def pieces (parts ts : List Word) : List Piece :=
  let s := [FlagVar.kcflags, .kaflags].foldl (fun s v => mergePiece v s.1 s.2)
    (parts.map .word, ts.map .word)
  s.1 ++ s.2

/-- The user's words with the picked flags. -/
def picked (f : FlagForm) (extra : List Word) : List Word :=
  if f.kcflags = [] then extra else mergeKcflags extra f.kcflags

section
variable {v w : FlagVar}

theorem starts_set_ne (h : w ≠ v) (value : List Char) : v.starts (w.set value) = false := by
  cases v <;> cases w <;> first | exact absurd rfl h | rfl

theorem starts_fill (v : FlagVar) (map : List Char) (p : Piece) :
    v.starts (p.fill map) = p.starts v := by
  cases p with
  | word t => rfl
  | flags w front =>
      by_cases h : w = v
      · rw [Piece.fill, h, starts_set, Piece.starts, decide_eq_true rfl]
      · rw [Piece.fill, starts_set_ne h, Piece.starts, decide_eq_false h]

/-- The first word of a kind, and the words with it changed, under a map of the words. -/
theorem first_map {α β : Type} {f : α → β} {P : α → Bool} {Q : β → Bool} {g : α → α} {h : β → β}
    {ts : List α} (hP : ∀ x ∈ ts, Q (f x) = P x)
    (hg : ∀ x ∈ ts, P x = true → f (g x) = h (f x)) :
    (ts.map f).findIdx? Q = ts.findIdx? P ∧
      ∀ i, ts.findIdx? P = some i → (ts.map f).modify i h = (ts.modify i g).map f := by
  induction ts with
  | nil => exact ⟨rfl, fun i hi => by cases hi⟩
  | cons t ts ih =>
      obtain ⟨hfind, hmodify⟩ := ih (fun x hx => hP x (List.mem_cons_of_mem t hx))
        fun x hx => hg x (List.mem_cons_of_mem t hx)
      rw [List.map_cons, List.findIdx?_cons, List.findIdx?_cons, hP t List.mem_cons_self, hfind]
      refine ⟨rfl, fun i hi => ?_⟩
      by_cases ht : P t = true
      · rw [if_pos ht] at hi
        cases hi
        rw [List.modify_zero_cons, List.modify_zero_cons, List.map_cons, hg t List.mem_cons_self ht]
      · rw [if_neg ht] at hi
        obtain ⟨j, hj, rfl⟩ := Option.map_eq_some_iff.mp hi
        rw [List.modify_succ_cons, List.modify_succ_cons, List.map_cons, hmodify j hj]

/-- A map stands behind a blank and keeps its place when the value is stripped. -/
theorem strip_map {value : List Char} (s : List Char) :
    strip (value ++ ' ' :: (prefixMapFlag ++ (s ++ ['=']))) =
      (value ++ [' ']).dropWhile isSpace ++ (prefixMapFlag ++ (s ++ ['='])) := by
  have hfirst : (prefixMapFlag ++ (s ++ ['='])).dropWhile isSpace = prefixMapFlag ++ (s ++ ['=']) := rfl
  have hlast : ∀ x : List Char, ((x ++ ['=']).reverse.dropWhile isSpace).reverse = x ++ ['='] := by
    intro x
    rw [List.reverse_append]
    show (('=' :: x.reverse).dropWhile isSpace).reverse = _
    rw [List.dropWhile_cons_of_neg (by decide), List.reverse_cons, List.reverse_reverse]
  have hfront : (value ++ ' ' :: (prefixMapFlag ++ (s ++ ['=']))).dropWhile isSpace =
      (value ++ [' ']).dropWhile isSpace ++ (prefixMapFlag ++ (s ++ ['='])) := by
    have hsplit : value ++ ' ' :: (prefixMapFlag ++ (s ++ ['='])) =
        (value ++ [' ']) ++ (prefixMapFlag ++ (s ++ ['='])) := by
      rw [List.append_assoc, List.singleton_append]
    rw [hsplit, List.dropWhile_append]
    split
    · next h => rw [List.isEmpty_iff.mp h, hfirst, List.nil_append]
    · rfl
  rw [strip, stripBy, hfront, ← List.append_assoc, ← List.append_assoc, hlast]

theorem fill_into {s : List Char} {t : Word} :
    ((Piece.word t).into v).fill (prefixMapFlag ++ (s ++ ['='])) =
      mergeInto v (prefixMapFlag ++ (s ++ ['='])) t := by
  rw [mergeInto, strip_map]
  rfl

/-- Words, or flags of other variables. -/
def Waits (v : FlagVar) (p : Piece) : Prop := p.starts v = true → ∃ t, p = .word t

theorem fill_mergePiece {ts : List Piece} (hts : ∀ p ∈ ts, Waits v p) (parts : List Piece)
    (s : List Char) :
    let map := prefixMapFlag ++ (s ++ ['='])
    mergeFirst v map (parts.map (Piece.fill map)) (ts.map (Piece.fill map)) =
      ((mergePiece v parts ts).1.map (Piece.fill map), (mergePiece v parts ts).2.map (Piece.fill map)) := by
  intro map
  have hinto : ∀ p ∈ ts, p.starts v = true →
      (p.into v).fill map = mergeInto v map (p.fill map) := by
    intro p hp hstarts
    obtain ⟨t, rfl⟩ := hts p hp hstarts
    exact fill_into
  obtain ⟨hfind, hmodify⟩ := first_map (fun p (_ : p ∈ ts) => starts_fill v map p) hinto
  rw [mergeFirst, mergePiece, hfind]
  cases hi : ts.findIdx? (Piece.starts v) with
  | none =>
      simp only [List.map_append, List.map_singleton]
      rfl
  | some i =>
      simp only [hmodify i hi]
/-! ## What the words are -/

/-- What stands in front of the map of a variable, of the first word that sets it. -/
def frontOf (v : FlagVar) (ts : List Piece) : List Char :=
  match ts.find? (Piece.starts v) with
  | some (.word t) => (t.drop (v.name.length + 1) ++ [' ']).dropWhile isSpace
  | _ => []

/-- A merge changes one word, or adds one. -/
theorem mergePiece_cases {ts : List Piece} (hts : ∀ p ∈ ts, Waits v p) (parts : List Piece) :
    (mergePiece v parts ts = (parts ++ [.flags v (frontOf v ts)], ts)) ∨
      ∃ front t back, ts = front ++ .word t :: back ∧ v.starts t = true ∧
        mergePiece v parts ts = (parts, front ++ .flags v (frontOf v ts) :: back) := by
  rw [mergePiece]
  cases hi : ts.findIdx? (Piece.starts v) with
  | none =>
      have hnone : ts.find? (Piece.starts v) = none := by
        rw [List.find?_eq_none]
        rw [List.findIdx?_eq_none_iff] at hi
        exact fun p hp => by rw [hi p hp]; exact Bool.false_ne_true
      left
      rw [frontOf, hnone]
  | some i =>
      obtain ⟨front, p, back, rfl, hfront, hstarts, hmod⟩ := modify_findIdx hi
      obtain ⟨t, rfl⟩ := hts p (List.mem_append_right _ List.mem_cons_self) hstarts
      have hfind : (front ++ .word t :: back).find? (Piece.starts v) = some (.word t) := by
        have hno : front.find? (Piece.starts v) = none :=
          List.find?_eq_none.mpr fun q hq => by rw [hfront q hq]; exact Bool.false_ne_true
        rw [List.find?_append, hno, List.find?_cons_of_pos hstarts]
        rfl
      refine .inr ⟨front, t, back, rfl, hstarts, ?_⟩
      rw [frontOf, hfind]
      simp only [hmod]
      rfl

/-- What a merge leaves: what was there, but for the flags of the variable. -/
structure Merged (v : FlagVar) (g : List Char) (parts ts : List Piece)
    (s : List Piece × List Piece) : Prop where
  here : .flags v g ∈ s.1 ++ s.2
  old : ∀ p ∈ s.1 ++ s.2, p ∈ parts ++ ts ∨ p = .flags v g
  kept : ∀ p ∈ parts ++ ts, p.starts v = false → p ∈ s.1 ++ s.2
  front : ∀ w, w ≠ v → frontOf w s.2 = frontOf w ts
  waits : ∀ w, w ≠ v → (∀ p ∈ ts, Waits w p) → ∀ p ∈ s.2, Waits w p

theorem merged {ts : List Piece} (hts : ∀ p ∈ ts, Waits v p) (parts : List Piece) :
    Merged v (frontOf v ts) parts ts (mergePiece v parts ts) := by
  rcases mergePiece_cases hts parts with h | ⟨front, t, back, rfl, ht, h⟩
  · rw [h]
    refine ⟨by simp, fun p hp => ?_, fun p hp _ => ?_, fun _ _ => rfl, fun _ _ h => h⟩
    · simp only [List.mem_append, List.mem_singleton] at hp ⊢
      tauto
    · simp only [List.mem_append, List.mem_singleton] at hp ⊢
      tauto
  · rw [h]
    generalize frontOf v (front ++ .word t :: back) = g
    have hother : ∀ w, w ≠ v → w.starts t = false ∧ (Piece.flags v g).starts w = false := by
      intro w hw
      obtain ⟨value, rfl⟩ := starts_iff.mp ht
      exact ⟨starts_set_ne (Ne.symm hw) value, decide_eq_false (Ne.symm hw)⟩
    refine ⟨by simp, fun p hp => ?_, fun p hp hstarts => ?_, fun w hw => ?_, fun w hw hwaits p hp => ?_⟩
    · simp only [List.mem_append, List.mem_cons] at hp ⊢
      tauto
    · simp only [List.mem_append, List.mem_cons] at hp ⊢
      have hne : p ≠ .word t := by
        rintro rfl
        rw [show (Piece.word t).starts v = v.starts t from rfl, ht] at hstarts
        cases hstarts
      tauto
    · have hfind : (front ++ .flags v g :: back).find? (Piece.starts w) =
          (front ++ .word t :: back).find? (Piece.starts w) := by
        rw [List.find?_append, List.find?_append, List.find?_cons_of_neg, List.find?_cons_of_neg]
        · exact fun hs => Bool.false_ne_true ((hother w hw).1.symm.trans hs)
        · exact fun hs => Bool.false_ne_true ((hother w hw).2.symm.trans hs)
      simp only [frontOf, hfind]
    · rcases List.mem_append.mp hp with hp | hp
      · exact hwaits p (List.mem_append_left _ hp)
      · rcases List.mem_cons.mp hp with rfl | hp
        · intro hs
          rw [(hother w hw).2] at hs
          cases hs
        · exact hwaits p (List.mem_append_right _ (List.mem_cons_of_mem _ hp))

/-- The words, and behind the flags of two variables the place of the map. -/
theorem pieces_spec (parts ts : List Word) :
    (∀ p ∈ pieces parts ts, (∃ t ∈ parts ++ ts, p = .word t) ∨
      ∃ v, v ≠ .krustflags ∧ p = .flags v (frontOf v (ts.map .word))) ∧
    ∀ v, v ≠ .krustflags → .flags v (frontOf v (ts.map .word)) ∈ pieces parts ts := by
  have hwords : ∀ v, ∀ p ∈ ts.map Piece.word, Waits v p := by
    intro v p hp _
    obtain ⟨t, -, rfl⟩ := List.mem_map.mp hp
    exact ⟨t, rfl⟩
  have hfirst := merged (hwords .kcflags) (parts.map .word)
  have hsecond := merged (hfirst.waits .kaflags (by decide) (hwords .kaflags))
    (mergePiece .kcflags (parts.map .word) (ts.map .word)).1
  rw [hfirst.front .kaflags (by decide)] at hsecond
  refine ⟨fun p hp => ?_, fun v hv => ?_⟩
  · rcases hsecond.old p hp with hp | rfl
    · rcases hfirst.old p hp with hp | rfl
      · rw [← List.map_append] at hp
        obtain ⟨t, ht, rfl⟩ := List.mem_map.mp hp
        exact .inl ⟨t, ht, rfl⟩
      · exact .inr ⟨.kcflags, by decide, rfl⟩
    · exact .inr ⟨.kaflags, by decide, rfl⟩
  · cases v with
    | kcflags => exact hsecond.kept _ hfirst.here rfl
    | kaflags => exact hsecond.here
    | krustflags => exact absurd rfl hv

/-- `combine` fills in the map. -/
theorem combine_eq {host : FlagHost} {f : FlagForm} {s : List Char}
    (h : prefixMap host f = prefixMapFlag ++ (s ++ ['='])) (parts extra : List Word) :
    combine host f parts extra =
      (pieces parts (picked f extra)).map (Piece.fill (prefixMap host f)) := by
  have hne : prefixMap host f ≠ [] := by
    rw [h]
    exact List.cons_ne_nil _ _
  have hfill : ∀ ws : List Word, (ws.map Piece.word).map (Piece.fill (prefixMap host f)) = ws := by
    intro ws
    rw [List.map_map]
    exact List.map_id ws
  have hwords : ∀ v, ∀ p ∈ (picked f extra).map Piece.word, Waits v p := by
    intro v p hp _
    obtain ⟨t, -, rfl⟩ := List.mem_map.mp hp
    exact ⟨t, rfl⟩
  have hfirst := fill_mergePiece (hwords .kcflags) (parts.map .word) s
  have hsecond := fill_mergePiece
    ((merged (hwords .kcflags) (parts.map .word)).waits .kaflags (by decide) (hwords .kaflags))
    (mergePiece .kcflags (parts.map .word) ((picked f extra).map .word)).1 s
  simp only [← h] at hfirst hsecond
  rw [hfill, hfill] at hfirst
  have hmerge : mergePrefixMap (prefixMap host f) parts (picked f extra) =
      mergeFirst .kaflags (prefixMap host f)
        (mergeFirst .kcflags (prefixMap host f) parts (picked f extra)).1
        (mergeFirst .kcflags (prefixMap host f) parts (picked f extra)).2 := rfl
  rw [combine]
  simp only [if_neg hne]
  rw [← picked, hmerge, hfirst, hsecond, pieces, List.map_append]
  rfl

theorem find?_word (v : FlagVar) (ts : List Word) :
    (ts.map Piece.word).find? (Piece.starts v) = (ts.find? v.starts).map .word := by
  rw [List.find?_map]
  rfl

/-- No word sets the variable, or the first to do so has no flags. -/
def Bare (v : FlagVar) (ts : List Word) : Prop :=
  ∀ t, ts.find? v.starts = some t → ∀ c ∈ t.drop (v.name.length + 1), isSpace c = true

theorem frontOf_nil_iff (v : FlagVar) (ts : List Word) :
    frontOf v (ts.map .word) = [] ↔ Bare v ts := by
  rw [frontOf, find?_word, Bare]
  cases ts.find? v.starts with
  | none => simp
  | some t =>
      have hblank : isSpace ' ' = true := by decide
      simp [List.dropWhile_eq_nil_iff, or_imp, forall_and, hblank]

theorem front_frontOf (v : FlagVar) (ts : List Word) : Front (frontOf v (ts.map .word)) := by
  rw [frontOf, find?_word]
  cases ts.find? v.starts with
  | none => exact .inl rfl
  | some t =>
      rcases List.suffix_concat_iff.mp (List.dropWhile_suffix (l := t.drop (v.name.length + 1) ++ [' '])
        isSpace) with h | ⟨g, hg, -⟩
      · exact .inl h
      · exact .inr ⟨g, hg⟩

/-- The flag begins with a dash. -/
theorem infix_skip {n x : List Char} (hn : '-' ∉ n) (h : prefixMapFlag <:+: n ++ x) :
    prefixMapFlag <:+: x := by
  induction n with
  | nil => exact h
  | cons c n ih =>
      rcases List.infix_cons_iff.mp h with h | h
      · exact absurd ((List.cons_prefix_cons.mp h).1 ▸ List.mem_cons_self) hn
      · exact ih (fun hmem => hn (List.mem_cons_of_mem c hmem)) h

theorem clean_frontOf {v : FlagVar} {ts : List Word} (h : ∀ t ∈ ts, Clean t) :
    Clean (v.set (frontOf v (ts.map .word))) := by
  intro hset
  have hname : '-' ∉ v.name ++ ['='] := by
    cases v <;> decide
  have hsplit : v.set (frontOf v (ts.map .word)) =
      (v.name ++ ['=']) ++ frontOf v (ts.map .word) := by
    rw [FlagVar.set, List.append_assoc, List.singleton_append]
  rw [hsplit] at hset
  have hfront := infix_skip hname hset
  rw [frontOf, find?_word] at hfront
  cases hfind : ts.find? v.starts with
  | none =>
      rw [hfind] at hfront
      exact clean_nil hfront
  | some t =>
      rw [hfind] at hfront
      have hblank : ' ' ∉ prefixMapFlag := by decide
      have hvalue := hfront.trans (List.dropWhile_suffix (l := t.drop (v.name.length + 1) ++ [' '])
        isSpace).isInfix
      rcases infix_split hblank hvalue with hvalue | hnil
      · exact h t (List.mem_of_find?_eq_some hfind) (hvalue.trans (List.drop_suffix _ t).isInfix)
      · exact clean_nil hnil

end

end KdevopsNg.Kernel
