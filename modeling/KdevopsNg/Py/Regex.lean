/-
# `Py.Regex` — the regular expressions of `re`

An expression is matched as `re` does: `run` lists where a match can end, in the
order backtracking comes to them, with what the groups hold, and the first of them
is the match.

    star true p      `p*`    the longest end first
    star false p     `p*?`   the shortest end first
    alt a b          `a|b`   the ends of `a` first

The repetitions are those of one character.  `find?` is `re.search`, `finditer` the
matches one after the other; both are for expressions that match no empty text.
-/
import KdevopsNg.Py.Text

namespace Py

/-- A regular expression. -/
inductive Re
  | eps
  | char (p : Char → Bool)
  | seq (a b : Re)
  | alt (a b : Re)
  | star (greedy : Bool) (p : Char → Bool)
  | group (name : String) (a : Re)
  | start
  | stop

namespace Re

/-- A text, letter by letter. -/
def lit : List Char → Re
  | [] => eps
  | c :: cs => seq (char (· = c)) (lit cs)

/-- `p+`. -/
def plus (p : Char → Bool) : Re := seq (char p) (star true p)

/-- `a?`. -/
def opt (a : Re) : Re := alt a eps

/-- One after the other. -/
def seqs : List Re → Re
  | [] => eps
  | [a] => a
  | a :: as => seq a (seqs as)

/-- Where a match stands: the character behind it and the text ahead. -/
structure Spot where
  behind : Option Char
  ahead : List Char

/-- What the groups hold. -/
abbrev Groups := List (String × List Char)

/-- Where a run of `p` can end, the shortest first. -/
def spans (p : Char → Bool) : Option Char → List Char → List Spot
  | b, [] => [⟨b, []⟩]
  | b, c :: cs => ⟨b, c :: cs⟩ :: if p c then spans p (some c) cs else []

/-- The text between two spots. -/
def between (s t : Spot) : List Char := s.ahead.take (s.ahead.length - t.ahead.length)

/-- The ends of a match, in the order of backtracking; with `multiline` the anchors also
match at the breaks of lines. -/
def run (multiline : Bool) : Re → Spot → List (Spot × Groups)
  | eps, s => [(s, [])]
  | char p, s =>
      match s.ahead with
      | [] => []
      | c :: cs => if p c then [(⟨some c, cs⟩, [])] else []
  | seq a b, s =>
      (run multiline a s).flatMap fun r =>
        (run multiline b r.1).map fun q => (q.1, r.2 ++ q.2)
  | alt a b, s => run multiline a s ++ run multiline b s
  | star greedy p, s =>
      let ends := (spans p s.behind s.ahead).map fun t => (t, [])
      if greedy then ends.reverse else ends
  | group name a, s =>
      (run multiline a s).map fun r => (r.1, (name, between s r.1) :: r.2)
  | start, s => if s.behind = none ∨ multiline ∧ s.behind = some '\n' then [(s, [])] else []
  | stop, s =>
      if s.ahead = [] ∨ s.ahead = ['\n'] ∨ multiline ∧ s.ahead.head? = some '\n' then [(s, [])]
      else []

/-- The names of the groups. -/
def names : Re → List String
  | seq a b => names a ++ names b
  | alt a b => names a ++ names b
  | group name a => name :: names a
  | eps => []
  | char _ => []
  | star _ _ => []
  | start => []
  | stop => []

end Re

/-- A match: its text and its groups. -/
structure Found where
  text : List Char
  groups : Re.Groups

/-- `m[name]`. -/
def Found.group (m : Found) (name : String) : Option (List Char) :=
  (m.groups.find? fun g => g.1 = name).map Prod.snd

/-- An expression and how the source spells it. -/
structure Regex where
  source : String
  re : Re

namespace Regex

variable (multiline : Bool) (p : Regex)

/-- A match that begins at a spot. -/
def at? (s : Re.Spot) : Option Found :=
  (p.re.run multiline s).head?.map fun r => ⟨Re.between s r.1, r.2⟩

/-- `p.match(text)`. -/
def match? (text : List Char) : Option Found := p.at? false ⟨none, text⟩

/-- The first match from a spot on. -/
def findFrom (b : Option Char) : List Char → Option Found
  | [] => p.at? multiline ⟨b, []⟩
  | c :: cs => (p.at? multiline ⟨b, c :: cs⟩).or (findFrom (some c) cs)

/-- `re.search(p, text)`. -/
def find? (text : List Char) : Option Found := p.findFrom multiline none text

/-- The matches from a spot on, of which the last one still takes `skip` characters. -/
def findAllFrom (b : Option Char) (skip : ℕ) : List Char → List Found
  | [] => []
  | c :: cs =>
      match skip, p.at? multiline ⟨b, c :: cs⟩ with
      | 0, some m => m :: findAllFrom (some c) (m.text.length - 1) cs
      | 0, none => findAllFrom (some c) 0 cs
      | n + 1, _ => findAllFrom (some c) n cs

/-- `re.finditer(p, text)`. -/
def finditer (text : List Char) : List Found := p.findAllFrom multiline none 0 text

/-- The text from a spot on with each match replaced, of which the last one still takes `skip`
characters. -/
def subFrom (repl : List Char) (b : Option Char) (skip : ℕ) : List Char → List Char
  | [] => []
  | c :: cs =>
      match skip, p.at? multiline ⟨b, c :: cs⟩ with
      | 0, some m => repl ++ subFrom repl (some c) (m.text.length - 1) cs
      | 0, none => c :: subFrom repl (some c) 0 cs
      | n + 1, _ => subFrom repl (some c) n cs

/-- `p.sub(repl, text)`. -/
def sub (repl : List Char) (text : List Char) : List Char := p.subFrom multiline repl none 0 text

/-- Whether `re.search` finds the expression. -/
def isIn (text : List Char) : Bool := (p.find? multiline text).isSome

end Regex

/-! ## The groups of a match -/

namespace Re

/-- The names of the groups that take part in every match. -/
def always : Re → List String
  | seq a b => always a ++ always b
  | group name a => name :: always a
  | alt _ _ => []
  | eps => []
  | char _ => []
  | star _ _ => []
  | start => []
  | stop => []

/-- The groups with their expressions. -/
def inside : Re → List (String × Re)
  | seq a b => inside a ++ inside b
  | alt a b => inside a ++ inside b
  | group name a => (name, a) :: inside a
  | eps => []
  | char _ => []
  | star _ _ => []
  | start => []
  | stop => []

variable {multiline : Bool}

theorem spans_length {p : Char → Bool} {b : Option Char} {cs : List Char} {t : Spot}
    (h : t ∈ spans p b cs) : t.ahead.length ≤ cs.length := by
  induction cs generalizing b with
  | nil =>
      rw [spans, List.mem_singleton] at h
      rw [h]
  | cons c cs ih =>
      rw [spans, List.mem_cons] at h
      rcases h with rfl | h
      · exact le_refl _
      · split_ifs at h
        · exact (ih h).trans (Nat.le_succ _)
        · exact absurd h List.not_mem_nil

theorem mem_star {greedy : Bool} {p : Char → Bool} {s : Spot} {q : Spot × Groups}
    (h : q ∈ run multiline (star greedy p) s) : ∃ t ∈ spans p s.behind s.ahead, (t, []) = q := by
  rw [run] at h
  cases greedy with
  | true => exact List.mem_map.mp (List.mem_reverse.mp h)
  | false => exact List.mem_map.mp h

/-- A match goes ahead. -/
theorem run_length {a : Re} {s : Spot} {q : Spot × Groups} (h : q ∈ run multiline a s) :
    q.1.ahead.length ≤ s.ahead.length := by
  induction a generalizing s q with
  | eps =>
      rw [run, List.mem_singleton] at h
      rw [h]
  | char p =>
      rw [run] at h
      split at h
      · exact absurd h List.not_mem_nil
      · next c cs heq =>
          split_ifs at h
          · rw [List.mem_singleton.mp h, heq]
            exact Nat.le_succ _
          · exact absurd h List.not_mem_nil
  | seq a b iha ihb =>
      obtain ⟨r, hr, hq⟩ := List.mem_flatMap.mp h
      obtain ⟨q', hq', rfl⟩ := List.mem_map.mp hq
      exact (ihb hq').trans (iha hr)
  | alt a b iha ihb =>
      rcases List.mem_append.mp h with h | h
      · exact iha h
      · exact ihb h
  | star greedy p =>
      obtain ⟨t, ht, rfl⟩ := mem_star h
      exact spans_length ht
  | group name a iha =>
      obtain ⟨r, hr, rfl⟩ := List.mem_map.mp h
      have hle : r.1.ahead.length ≤ s.ahead.length := iha hr
      exact hle
  | start =>
      rw [run] at h
      split_ifs at h
      · rw [List.mem_singleton.mp h]
      · exact absurd h List.not_mem_nil
  | stop =>
      rw [run] at h
      split_ifs at h
      · rw [List.mem_singleton.mp h]
      · exact absurd h List.not_mem_nil

/-- A match that begins with a character holds a text. -/
theorem between_ne_nil {p : Char → Bool} {b : Re} {s : Spot} {q : Spot × Groups}
    (h : q ∈ run multiline (seq (char p) b) s) : between s q.1 ≠ [] := by
  obtain ⟨r, hr, hq⟩ := List.mem_flatMap.mp h
  obtain ⟨q', hq', rfl⟩ := List.mem_map.mp hq
  rw [run] at hr
  split at hr
  · exact absurd hr List.not_mem_nil
  · next c cs heq =>
      split_ifs at hr
      · have hlen := run_length hq'
        rw [List.mem_singleton.mp hr] at hlen
        have hlen' : q'.1.ahead.length ≤ cs.length := hlen
        rw [between, heq, ne_eq, List.take_eq_nil_iff, not_or, List.length_cons]
        refine ⟨?_, List.cons_ne_nil c cs⟩
        show cs.length + 1 - q'.1.ahead.length ≠ 0
        omega
      · exact absurd hr List.not_mem_nil

theorem always_mem {a : Re} {s : Spot} {q : Spot × Groups} (h : q ∈ run multiline a s)
    {name : String} (hname : name ∈ a.always) : ∃ t, (name, t) ∈ q.2 := by
  induction a generalizing s q with
  | seq a b iha ihb =>
      obtain ⟨r, hr, hq⟩ := List.mem_flatMap.mp h
      obtain ⟨q', hq', rfl⟩ := List.mem_map.mp hq
      rcases List.mem_append.mp hname with hname | hname
      · obtain ⟨t, ht⟩ := iha hr hname
        exact ⟨t, List.mem_append_left _ ht⟩
      · obtain ⟨t, ht⟩ := ihb hq' hname
        exact ⟨t, List.mem_append_right _ ht⟩
  | group n a iha =>
      obtain ⟨r, hr, rfl⟩ := List.mem_map.mp h
      rcases List.mem_cons.mp hname with rfl | hname
      · exact ⟨_, List.mem_cons_self⟩
      · obtain ⟨t, ht⟩ := iha hr hname
        exact ⟨t, List.mem_cons_of_mem _ ht⟩
  | alt a b => exact absurd hname List.not_mem_nil
  | eps => exact absurd hname List.not_mem_nil
  | char p => exact absurd hname List.not_mem_nil
  | star greedy p => exact absurd hname List.not_mem_nil
  | start => exact absurd hname List.not_mem_nil
  | stop => exact absurd hname List.not_mem_nil

/-- What a group holds is a match of its expression. -/
theorem mem_inside {a : Re} {s : Spot} {q : Spot × Groups} (h : q ∈ run multiline a s)
    {name : String} {t : List Char} (ht : (name, t) ∈ q.2) :
    ∃ b s' r, (name, b) ∈ a.inside ∧ r ∈ run multiline b s' ∧ t = between s' r.1 := by
  induction a generalizing s q with
  | seq a b iha ihb =>
      obtain ⟨r, hr, hq⟩ := List.mem_flatMap.mp h
      obtain ⟨q', hq', rfl⟩ := List.mem_map.mp hq
      rcases List.mem_append.mp ht with ht | ht
      · obtain ⟨c, s', r', hc, hr', heq⟩ := iha hr ht
        exact ⟨c, s', r', List.mem_append_left _ hc, hr', heq⟩
      · obtain ⟨c, s', r', hc, hr', heq⟩ := ihb hq' ht
        exact ⟨c, s', r', List.mem_append_right _ hc, hr', heq⟩
  | alt a b iha ihb =>
      rcases List.mem_append.mp h with h | h
      · obtain ⟨c, s', r', hc, hr', heq⟩ := iha h ht
        exact ⟨c, s', r', List.mem_append_left _ hc, hr', heq⟩
      · obtain ⟨c, s', r', hc, hr', heq⟩ := ihb h ht
        exact ⟨c, s', r', List.mem_append_right _ hc, hr', heq⟩
  | group n a iha =>
      obtain ⟨r, hr, rfl⟩ := List.mem_map.mp h
      rcases List.mem_cons.mp ht with heq | ht
      · cases heq
        exact ⟨a, s, r, List.mem_cons_self, hr, rfl⟩
      · obtain ⟨c, s', r', hc, hr', heq⟩ := iha hr ht
        exact ⟨c, s', r', List.mem_cons_of_mem _ hc, hr', heq⟩
  | eps =>
      rw [run, List.mem_singleton] at h
      rw [h] at ht
      exact absurd ht List.not_mem_nil
  | char p =>
      rw [run] at h
      split at h
      · exact absurd h List.not_mem_nil
      · split_ifs at h
        · rw [List.mem_singleton.mp h] at ht
          exact absurd ht List.not_mem_nil
        · exact absurd h List.not_mem_nil
  | star greedy p =>
      obtain ⟨t', -, rfl⟩ := mem_star h
      exact absurd ht List.not_mem_nil
  | start =>
      rw [run] at h
      split_ifs at h
      · rw [List.mem_singleton.mp h] at ht
        exact absurd ht List.not_mem_nil
      · exact absurd h List.not_mem_nil
  | stop =>
      rw [run] at h
      split_ifs at h
      · rw [List.mem_singleton.mp h] at ht
        exact absurd ht List.not_mem_nil
      · exact absurd h List.not_mem_nil

end Re

namespace Regex

variable {multiline : Bool} {p : Regex} {s : Re.Spot} {m : Found}

/-- A group that takes part in every match of the expression is there. -/
theorem group_isSome (h : p.at? multiline s = some m) {name : String}
    (hname : name ∈ p.re.always) : ∃ t, m.group name = some t := by
  obtain ⟨q, hq, rfl⟩ := Option.map_eq_some_iff.mp h
  obtain ⟨t, ht⟩ := Re.always_mem (List.mem_of_mem_head? hq) hname
  have hfind : (q.2.find? fun g => g.1 = name).isSome = true :=
    List.find?_isSome.mpr ⟨(name, t), ht, decide_eq_true rfl⟩
  obtain ⟨g, hg⟩ := Option.isSome_iff_exists.mp hfind
  exact ⟨g.2, by rw [Found.group, hg]; rfl⟩

/-- What a group holds is a match of its expression. -/
theorem group_inside (h : p.at? multiline s = some m) {name : String} {t : List Char}
    (ht : m.group name = some t) : ∃ b s' r, (name, b) ∈ p.re.inside ∧
      r ∈ Re.run multiline b s' ∧ t = Re.between s' r.1 := by
  obtain ⟨q, hq, rfl⟩ := Option.map_eq_some_iff.mp h
  obtain ⟨g, hg, rfl⟩ := Option.map_eq_some_iff.mp ht
  have hname : g.1 = name := of_decide_eq_true
    (List.find?_some (p := fun g : String × List Char => decide (g.1 = name)) hg)
  exact Re.mem_inside (List.mem_of_mem_head? hq) (hname ▸ List.mem_of_find?_eq_some hg)

end Regex

end Py
