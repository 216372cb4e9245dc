/-
# `Kernel.MaskedFlags` — what the digest leaves of quoted make flags

`_digest` of `f/kernel/identity.py` empties `-fdebug-prefix-map=` up to the next white space
of the make flags, which are words that `shlex.join` quoted.  A word that ends in a map is
left as

    KCFLAGS=-fdebug-prefix-map=              when it needs no quotes
    'KCFLAGS=-g -fdebug-prefix-map=          when it does: the closing quote goes too
    'KCFLAGS=-g -fdebug-prefix-map= b/='     when there is white space in the path

White space ends what is emptied, so the words are masked one by one
(`mask_intercalate`).
-/
import KdevopsNg.Kernel.Identity
import KdevopsNg.Kernel.MakeVars

namespace KdevopsNg.Kernel

open Py Py.Text Py.Shlex

/-! ## The pattern -/

theorem mask_flag (s : List Char) :
    maskPrefixMap 0 false (prefixMapFlag ++ s) = prefixMapFlag ++ maskPrefixMap 0 true s := rfl

/-- The flag has no white space. -/
theorem isSpace_flag : ∀ c ∈ prefixMapFlag, isSpace c = false := by decide

theorem length_flag : prefixMapFlag.length = 19 := by decide

/-- The flag that stands at the beginning of a text stands in front of any white space. -/
theorem flag_prefix_append {c : Char} (hc : isSpace c = true) {a s : List Char}
    (h : prefixMapFlag <+: a ++ c :: s) : prefixMapFlag <+: a := by
  rcases List.prefix_or_prefix_of_prefix h (List.prefix_append a (c :: s)) with ha | ⟨t, ht⟩
  · exact ha
  · rw [← ht, List.prefix_append_right_inj] at h
    cases t with
    | nil => rw [← ht, List.append_nil]
    | cons d t =>
        have hd : d = c := (List.cons_prefix_cons.mp h).1
        have hmem : d ∈ prefixMapFlag := ht ▸ List.mem_append_right a List.mem_cons_self
        rw [hd] at hmem
        exact absurd hc (by rw [isSpace_flag c hmem]; decide)

/-- White space ends what is masked. -/
theorem mask_space_aux {c : Char} (hc : isSpace c = true) (s : List Char) {n : ℕ} {b : Bool}
    {a : List Char} (hn : n ≤ a.length) :
    maskPrefixMap n b (a ++ c :: s) = maskPrefixMap n b a ++ c :: maskPrefixMap 0 false s := by
  have hflag : prefixMapFlag.isPrefixOf (c :: s) = false := by
    rw [Bool.eq_false_iff, ne_eq, List.isPrefixOf_iff_prefix]
    exact fun h => absurd (flag_prefix_append (a := []) hc h) (by decide)
  induction a generalizing n b with
  | nil =>
      obtain rfl : n = 0 := Nat.le_zero.mp hn
      cases b with
      | false => simp only [List.nil_append, maskPrefixMap, hflag, Bool.false_eq_true, if_false]
      | true => simp only [List.nil_append, maskPrefixMap, hc, if_true]
  | cons d a ih =>
      cases n with
      | succ n =>
          rw [List.cons_append, maskPrefixMap, maskPrefixMap, ih (Nat.le_of_succ_le_succ hn),
            List.cons_append]
      | zero =>
          cases b with
          | true =>
              rw [List.cons_append, maskPrefixMap, maskPrefixMap]
              by_cases hd : isSpace d = true
              · rw [if_pos hd, if_pos hd, ih (Nat.zero_le _), List.cons_append]
              · rw [if_neg hd, if_neg hd, ih (Nat.zero_le _)]
          | false =>
              rw [List.cons_append, maskPrefixMap, maskPrefixMap]
              by_cases hd : prefixMapFlag <+: d :: a
              · have hlong : prefixMapFlag <+: d :: (a ++ c :: s) := hd.trans (List.prefix_append _ _)
                have hlen : prefixMapFlag.length - 1 ≤ a.length := by
                  have hle := hd.length_le
                  rw [List.length_cons] at hle
                  omega
                rw [if_pos (List.isPrefixOf_iff_prefix.mpr hd),
                  if_pos (List.isPrefixOf_iff_prefix.mpr hlong), ih hlen, List.cons_append]
              · have hlong : ¬ prefixMapFlag <+: d :: (a ++ c :: s) := fun h =>
                  hd (flag_prefix_append hc (a := d :: a) h)
                rw [if_neg (mt List.isPrefixOf_iff_prefix.mp hd),
                  if_neg (mt List.isPrefixOf_iff_prefix.mp hlong), ih (Nat.zero_le _),
                  List.cons_append]

theorem mask_space {c : Char} (hc : isSpace c = true) (b : Bool) (a s : List Char) :
    maskPrefixMap 0 b (a ++ c :: s) = maskPrefixMap 0 b a ++ c :: maskPrefixMap 0 false s :=
  mask_space_aux hc s (Nat.zero_le _)

/-- Joined words are masked one by one. -/
theorem mask_intercalate (ws : List (List Char)) :
    maskPrefixMap 0 false ([' '].intercalate ws) =
      [' '].intercalate (ws.map (maskPrefixMap 0 false)) := by
  induction ws with
  | nil => rfl
  | cons w ws ih =>
      cases ws with
      | nil => rw [List.map_singleton, List.intercalate_singleton, List.intercalate_singleton]
      | cons v ws =>
          rw [List.map_cons, List.map_cons, List.intercalate_cons_cons, List.intercalate_cons_cons,
            List.append_assoc, List.append_assoc, List.singleton_append, List.singleton_append,
            mask_space (by decide), ih, List.map_cons]

/-- A text without the flag is left as it is. -/
theorem mask_of_clean {s : List Char} (h : ¬ prefixMapFlag <:+: s) :
    maskPrefixMap 0 false s = s := by
  induction s with
  | nil => rfl
  | cons c s ih =>
      have hno : ¬ prefixMapFlag <+: c :: s := fun hp => h hp.isInfix
      rw [maskPrefixMap, if_neg (mt List.isPrefixOf_iff_prefix.mp hno),
        ih fun hs => h (hs.trans (List.suffix_cons c s).isInfix)]

/-- A value without white space is emptied. -/
theorem mask_value {s : List Char} (h : ∀ c ∈ s, isSpace c = false) :
    maskPrefixMap 0 true s = [] := by
  induction s with
  | nil => rfl
  | cons c s ih =>
      rw [maskPrefixMap, h c List.mem_cons_self, if_neg Bool.false_ne_true,
        ih fun d hd => h d (List.mem_cons_of_mem c hd)]

/-! ## Quoted words -/

/-- What a word that needs no quotes is made of is no white space. -/
theorem isSpace_of_isSafe {c : Char} (h : isSafe c = true) : isSpace c = false := by
  have hall : ∀ n ∈ [0x09, 0x0a, 0x0b, 0x0c, 0x0d, 0x1c, 0x1d, 0x1e, 0x1f, 0x20, 0x85, 0xa0,
      0x1680, 0x2000, 0x2001, 0x2002, 0x2003, 0x2004, 0x2005, 0x2006, 0x2007, 0x2008, 0x2009,
      0x200a, 0x2028, 0x2029, 0x202f, 0x205f, 0x3000], isSafe (Char.ofNat n) = false := by decide
  by_contra hne
  rw [Bool.not_eq_false, isSpace, decide_eq_true_iff] at hne
  have hone := hall c.toNat hne
  rw [Char.ofNat_toNat, h] at hone
  cases hone

/-- What is left of a path between quotes, from behind the flag on. -/
def leftover (s : List Char) : List Char := maskPrefixMap 0 true (s.flatMap quoteChar ++ ['\''])

/-- What is left of what stands in front of the flag, between quotes. -/
def quotedFront (v : FlagVar) (front : List Char) : List Char :=
  maskPrefixMap 0 false ('\'' :: (v.set front).flatMap quoteChar)

/-- Flags in front of the map: none, or with a blank behind them. -/
def Front (front : List Char) : Prop := front = [] ∨ ∃ g, front = g ++ [' ']

theorem quoted_flag : prefixMapFlag.flatMap quoteChar = prefixMapFlag := by decide

theorem set_append (v : FlagVar) (x y : List Char) : v.set (x ++ y) = v.set x ++ y := by
  rw [FlagVar.set, FlagVar.set, List.append_assoc, List.cons_append]

theorem all_isSafe_set (v : FlagVar) (x : List Char) : (v.set x).all isSafe = x.all isSafe := by
  cases v <;> rfl

/-- A word with a map needs no quotes where it has nothing in front of it, and a safe path. -/
theorem all_isSafe_flags {v : FlagVar} {front : List Char} (hf : Front front) (s : List Char) :
    (v.set (front ++ (prefixMapFlag ++ s))).all isSafe = true ↔
      front = [] ∧ s.all isSafe = true := by
  have hflag : prefixMapFlag.all isSafe = true := by decide
  rw [all_isSafe_set, List.all_append, List.all_append, hflag, Bool.true_and, Bool.and_eq_true]
  rcases hf with rfl | ⟨g, rfl⟩
  · simp
  · have hblank : isSafe ' ' = false := by decide
    simp [hblank]

theorem mask_quotedFront {v : FlagVar} {front : List Char} (hf : Front front) (x : List Char) :
    maskPrefixMap 0 false ('\'' :: (v.set front).flatMap quoteChar ++ (prefixMapFlag ++ x)) =
      quotedFront v front ++ (prefixMapFlag ++ maskPrefixMap 0 true x) := by
  rcases hf with rfl | ⟨g, rfl⟩
  · cases v <;> rfl
  · have hblank : [' '].flatMap quoteChar = [' '] := by decide
    rw [quotedFront, set_append, List.flatMap_append, hblank, ← List.cons_append,
      mask_space (by decide), List.append_assoc, List.singleton_append, mask_space (by decide),
      mask_flag, List.append_assoc]
    rfl

/-- A word with a map, quoted and masked. -/
theorem mask_quote_flags {v : FlagVar} {front : List Char} (hf : Front front) (s : List Char) :
    maskPrefixMap 0 false (quote (v.set (front ++ (prefixMapFlag ++ s)))) =
      if front = [] ∧ s.all isSafe = true then v.set prefixMapFlag
      else quotedFront v front ++ (prefixMapFlag ++ leftover s) := by
  have hne : v.set (front ++ (prefixMapFlag ++ s)) ≠ [] := by
    rw [FlagVar.set]
    simp
  rw [quote, if_neg hne]
  by_cases hsafe : (v.set (front ++ (prefixMapFlag ++ s))).all isSafe = true
  · have hboth := (all_isSafe_flags hf s).mp hsafe
    rw [if_pos hsafe, if_pos hboth, hboth.1]
    have hspace : ∀ c ∈ s, isSpace c = false := fun c hc =>
      isSpace_of_isSafe (List.all_eq_true.mp hboth.2 c hc)
    have hmask : maskPrefixMap 0 false (v.set ([] ++ (prefixMapFlag ++ s))) =
        v.set (prefixMapFlag ++ maskPrefixMap 0 true s) := by
      cases v <;> rfl
    rw [hmask, mask_value hspace, List.append_nil]
  · rw [if_neg hsafe, if_neg (mt (all_isSafe_flags hf s).mpr hsafe), set_append, List.flatMap_append,
      List.flatMap_append, quoted_flag, leftover, ← mask_quotedFront hf]
    simp only [List.append_assoc, List.cons_append]

theorem leftover_nil {s : List Char} (h : ∀ c ∈ s, isSpace c = false) : leftover s = [] := by
  have hquote : isSpace '\'' = false := by decide
  have hchar : ∀ c ∈ s, ∀ d ∈ quoteChar c, isSpace d = false := by
    intro c hc d hd
    rw [quoteChar] at hd
    split at hd
    · revert d
      decide
    · rw [List.mem_singleton.mp hd]
      exact h c hc
  refine mask_value fun d hd => ?_
  rcases List.mem_append.mp hd with hd | hd
  · obtain ⟨c, hc, hd⟩ := List.mem_flatMap.mp hd
    exact hchar c hc d hd
  · rw [List.mem_singleton.mp hd]
    exact hquote

/-! ## Words that wait for the map -/

/-- A word of the make flags, or flags of a variable that the map is put behind. -/
inductive Piece
  | word (w : Word)
  | flags (v : FlagVar) (front : List Char)

namespace Piece

/-- The word with the map in its place. -/
def fill (map : List Char) : Piece → Word
  | word w => w
  | flags v front => v.set (front ++ map)

/-- It begins with `VAR=`. -/
def starts (v : FlagVar) : Piece → Bool
  | word w => v.starts w
  | flags w _ => decide (w = v)

/-- The flags of a word, for the map to be put behind. -/
def into (v : FlagVar) : Piece → Piece
  | word w => flags v ((w.drop (v.name.length + 1) ++ [' ']).dropWhile isSpace)
  | flags w front => flags w front

/-- What is in front of its map. -/
def Fronted : Piece → Prop
  | word _ => True
  | flags _ front => Front front

/-- The word as the digest takes it, of a path behind the flag. -/
def masked (s : List Char) (p : Piece) : List Char :=
  maskPrefixMap 0 false (quote (p.fill (prefixMapFlag ++ s)))

theorem masked_flags {v : FlagVar} {front : List Char} (hf : Front front) (s : List Char) :
    (flags v front).masked s =
      if front = [] ∧ s.all isSafe = true then v.set prefixMapFlag
      else quotedFront v front ++ (prefixMapFlag ++ leftover s) := mask_quote_flags hf s

end Piece

/-- The make flags as the digest takes them. -/
theorem mask_join (ps : List Piece) (s : List Char) :
    maskPrefixMap 0 false (Shlex.join (ps.map (Piece.fill (prefixMapFlag ++ s)))) =
      [' '].intercalate (ps.map (Piece.masked s)) := by
  rw [Shlex.join, mask_intercalate, List.map_map, List.map_map]
  rfl

/-! ## Two paths in the same words -/

/-- Two paths of which the digest leaves the same: between quotes, and where a word has no flags
but the map, also whether they need quotes. -/
structure Alike (ps : List Piece) (s t : List Char) : Prop where
  rest : leftover s = leftover t
  quotes : ∀ v, .flags v [] ∈ ps → s.all isSafe = t.all isSafe

theorem isSpace_of_all {s : List Char} (h : s.all isSafe = true) : ∀ c ∈ s, isSpace c = false :=
  fun c hc => isSpace_of_isSafe (List.all_eq_true.mp h c hc)

/-- A word with quotes begins with one, a word without begins with a letter. -/
theorem set_ne_quoted (v : FlagVar) (front x y : List Char) : v.set x ≠ quotedFront v front ++ y := by
  have hset : ∃ more, v.set x = 'K' :: more := by
    cases v <;> exact ⟨_, rfl⟩
  have hquoted : quotedFront v front =
      '\'' :: maskPrefixMap 0 false ((v.set front).flatMap quoteChar) := rfl
  obtain ⟨more, hmore⟩ := hset
  rw [hmore, hquoted]
  intro h
  exact absurd (List.cons.inj h).1 (by decide)

/-- One word with a map. -/
theorem masked_flags_iff {v : FlagVar} {front : List Char} (hf : Front front) (s t : List Char) :
    (Piece.flags v front).masked s = (Piece.flags v front).masked t ↔
      leftover s = leftover t ∧ (front = [] → s.all isSafe = t.all isSafe) := by
  have hcancel : quotedFront v front ++ (prefixMapFlag ++ leftover s) =
      quotedFront v front ++ (prefixMapFlag ++ leftover t) ↔ leftover s = leftover t := by
    rw [List.append_cancel_left_eq, List.append_cancel_left_eq]
  have hnil : ∀ {x : List Char}, x.all isSafe = true → leftover x = [] :=
    fun h => leftover_nil (isSpace_of_all h)
  rw [Piece.masked_flags hf, Piece.masked_flags hf]
  by_cases hfront : front = []
  · by_cases hs : s.all isSafe = true
    · by_cases ht : t.all isSafe = true
      · rw [if_pos ⟨hfront, hs⟩, if_pos ⟨hfront, ht⟩, hs, ht, hnil hs, hnil ht]
        simp
      · rw [if_pos ⟨hfront, hs⟩, if_neg fun h => ht h.2]
        exact iff_of_false (set_ne_quoted _ _ _ _) fun h => ht (h.2 hfront ▸ hs)
    · by_cases ht : t.all isSafe = true
      · rw [if_neg fun h => hs h.2, if_pos ⟨hfront, ht⟩]
        exact iff_of_false (set_ne_quoted _ _ _ _).symm fun h => hs (h.2 hfront ▸ ht)
      · rw [if_neg fun h => hs h.2, if_neg fun h => ht h.2, hcancel, eq_false_of_ne_true hs,
          eq_false_of_ne_true ht]
        simp
  · rw [if_neg fun h => hfront h.1, if_neg fun h => hfront h.1, hcancel]
    simp [hfront]

/-! ## All the words -/

/-- Of texts that are no longer one by one, the joined one is no longer. -/
theorem length_intercalate_le {α : Type} {f g : α → List Char} {ps : List α}
    (hle : ∀ p ∈ ps, (f p).length ≤ (g p).length) :
    ([' '].intercalate (ps.map f)).length ≤ ([' '].intercalate (ps.map g)).length := by
  induction ps with
  | nil => exact le_refl _
  | cons p ps ih =>
      have hp := hle p List.mem_cons_self
      have hrest := ih fun q hq => hle q (List.mem_cons_of_mem p hq)
      cases ps with
      | nil => simpa using hp
      | cons q ps =>
          simp only [List.map_cons, List.intercalate_cons_cons, List.length_append,
            List.length_singleton] at hrest ⊢
          omega

/-- They are the same one by one where the joined ones are. -/
theorem eq_of_intercalate {α : Type} {f g : α → List Char} {ps : List α}
    (hle : ∀ p ∈ ps, (f p).length ≤ (g p).length)
    (h : [' '].intercalate (ps.map f) = [' '].intercalate (ps.map g)) : ∀ p ∈ ps, f p = g p := by
  induction ps with
  | nil => exact fun p hp => absurd hp List.not_mem_nil
  | cons p ps ih =>
      have hp := hle p List.mem_cons_self
      have hrest : ∀ q ∈ ps, (f q).length ≤ (g q).length := fun q hq =>
        hle q (List.mem_cons_of_mem p hq)
      cases ps with
      | nil =>
          rw [List.map_singleton, List.map_singleton, List.intercalate_singleton,
            List.intercalate_singleton] at h
          intro q hq
          rw [List.mem_singleton.mp hq]
          exact h
      | cons q ps =>
          have htotal := length_intercalate_le hrest
          rw [List.map_cons, List.map_cons, List.map_cons, List.map_cons, List.intercalate_cons_cons,
            List.intercalate_cons_cons, List.append_assoc, List.append_assoc] at h
          have hlen := congrArg List.length h
          simp only [List.length_append, List.map_cons] at hlen htotal
          obtain ⟨hone, hmore⟩ := List.append_inj h (by omega)
          rw [List.append_cancel_left_eq] at hmore
          intro x hx
          rcases List.mem_cons.mp hx with rfl | hx
          · exact hone
          · exact ih hrest hmore x hx

/-- A word without quotes is the shorter one. -/
theorem length_set_le (v : FlagVar) (x : List Char) :
    (v.set prefixMapFlag).length ≤ (quotedFront v [] ++ (prefixMapFlag ++ x)).length := by
  have hquoted : quotedFront v [] = '\'' :: v.set [] := by
    cases v <;> rfl
  have hset : v.set prefixMapFlag = v.set [] ++ prefixMapFlag := set_append v [] prefixMapFlag
  rw [hquoted, hset]
  simp only [List.length_append, List.length_cons]
  omega

/-- A safe path is the shorter of two in every word, and of two others the one that leaves
less. -/
theorem length_masked_le {ps : List Piece} (hps : ∀ p ∈ ps, p.Fronted) {s t : List Char}
    (h : s.all isSafe = true ∨ t.all isSafe = false ∧ (leftover s).length ≤ (leftover t).length) :
    ∀ p ∈ ps, (p.masked s).length ≤ (p.masked t).length := by
  have hrest : (leftover s).length ≤ (leftover t).length := by
    rcases h with hs | ⟨-, hle⟩
    · rw [leftover_nil (isSpace_of_all hs)]
      exact Nat.zero_le _
    · exact hle
  intro p hp
  cases p with
  | word w => exact le_refl _
  | flags v front =>
      have hf : Front front := hps _ hp
      have hle : (quotedFront v front ++ (prefixMapFlag ++ leftover s)).length ≤
          (quotedFront v front ++ (prefixMapFlag ++ leftover t)).length := by
        simp only [List.length_append]
        omega
      rw [Piece.masked_flags hf, Piece.masked_flags hf]
      by_cases hs : front = [] ∧ s.all isSafe = true
      · rw [if_pos hs, hs.1]
        split
        · exact le_refl _
        · exact length_set_le v _
      · have ht : ¬ (front = [] ∧ t.all isSafe = true) := by
          rintro ⟨hfront, ht⟩
          rcases h with h | ⟨h, -⟩
          · exact hs ⟨hfront, h⟩
          · rw [ht] at h
            cases h
        rw [if_neg hs, if_neg ht]
        exact hle

/-- The digest takes the words of two paths for the same exactly when the paths are alike. -/
theorem intercalate_masked_iff {ps : List Piece} (hps : ∀ p ∈ ps, p.Fronted)
    (hsome : ∃ v front, .flags v front ∈ ps) (s t : List Char) :
    [' '].intercalate (ps.map (Piece.masked s)) = [' '].intercalate (ps.map (Piece.masked t)) ↔
      Alike ps s t := by
  have hall : (∀ p ∈ ps, p.masked s = p.masked t) ↔ Alike ps s t := by
    constructor
    · intro h
      have hone : ∀ {v front}, .flags v front ∈ ps →
          leftover s = leftover t ∧ (front = [] → s.all isSafe = t.all isSafe) :=
        fun hp => (masked_flags_iff (hps _ hp) s t).mp (h _ hp)
      obtain ⟨v, front, hp⟩ := hsome
      exact ⟨(hone hp).1, fun v hv => (hone hv).2 rfl⟩
    · rintro ⟨hrest, hquotes⟩ p hp
      cases p with
      | word w => rfl
      | flags v front =>
          exact (masked_flags_iff (hps _ hp) s t).mpr ⟨hrest, fun hf => hquotes v (hf ▸ hp)⟩
  rw [← hall]
  refine ⟨fun h => ?_, fun h => congrArg _ (List.map_congr_left h)⟩
  -- one path is the shorter in every word
  have hor : (s.all isSafe = true ∨ t.all isSafe = false ∧
      (leftover s).length ≤ (leftover t).length) ∨
        (t.all isSafe = true ∨ s.all isSafe = false ∧
          (leftover t).length ≤ (leftover s).length) := by
    cases hs : s.all isSafe with
    | true => exact .inl (.inl rfl)
    | false =>
        cases ht : t.all isSafe with
        | true => exact .inr (.inl rfl)
        | false =>
            rcases Nat.le_total (leftover s).length (leftover t).length with hle | hle
            · exact .inl (.inr ⟨rfl, hle⟩)
            · exact .inr (.inr ⟨rfl, hle⟩)
  rcases hor with hle | hle
  · exact eq_of_intercalate (length_masked_le hps hle) h
  · exact fun p hp => (eq_of_intercalate (length_masked_le hps hle) h.symm p hp).symm

end KdevopsNg.Kernel
