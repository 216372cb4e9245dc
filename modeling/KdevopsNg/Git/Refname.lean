/-
# `Git.Refname` — the names that git takes for a ref

`git check-ref-format`: the rules for the name of a ref, which `git update-ref`
asks for.  `Refname` has a field for each, and `refname_iff` is what is
left of them for a branch in a directory: of its leaf only.
-/
import KdevopsNg.Py.Path

namespace Git

open Py

/-- A character that the name of a ref may have: no control character, and none of
` ~^:?*[\`. -/
def isRefChar (c : Char) : Bool :=
  decide (0x20 < c.toNat ∧ c.toNat ≠ 0x7f) && c ∉ ['~', '^', ':', '?', '*', '[', '\\']

/-- `git check-ref-format`. -/
structure Refname (name : List Char) : Prop where
  pieces : ∀ piece ∈ Text.split '/' name, piece ≠ [] ∧ piece.head? ≠ some '.' ∧
    ¬ ".lock".toList <:+ piece
  hierarchy : '/' ∈ name
  dots : ¬ "..".toList <:+: name
  chars : ∀ c ∈ name, isRefChar c = true
  last : name.getLast? ≠ some '.'
  reflog : ¬ "@\x7b".toList <:+: name
  notAt : name ≠ ['@']

/-- A text without a slash that a part of begins in front of a slash is behind it. -/
theorem infix_behind {p dir leaf : List Char} (hp : '/' ∉ p) (hdir : ¬ p <:+: dir) :
    p <:+: dir ++ '/' :: leaf ↔ p <:+: leaf :=
  ⟨fun h => (Text.infix_split hp h).resolve_left hdir,
    fun h => h.trans ((List.suffix_cons '/' leaf).isInfix.trans (List.suffix_append dir _).isInfix)⟩

/-- A name in a directory that itself is a name is one by its leaf. -/
theorem refname_iff {dir leaf : List Char} (hdir : Refname dir) (hslash : '/' ∉ leaf) :
    Refname (dir ++ '/' :: leaf) ↔
      leaf ≠ [] ∧ leaf.head? ≠ some '.' ∧ leaf.getLast? ≠ some '.' ∧ ¬ ".lock".toList <:+ leaf ∧
        ¬ "..".toList <:+: leaf ∧ ¬ "@\x7b".toList <:+: leaf ∧ ∀ c ∈ leaf, isRefChar c = true := by
  have hsplit : Text.split '/' (dir ++ '/' :: leaf) = Text.split '/' dir ++ [leaf] := by
    rw [Text.split_sep, Text.split_of_not_mem hslash]
  have hdots : "..".toList <:+: dir ++ '/' :: leaf ↔ "..".toList <:+: leaf :=
    infix_behind (by decide) hdir.dots
  have hreflog : "@\x7b".toList <:+: dir ++ '/' :: leaf ↔ "@\x7b".toList <:+: leaf :=
    infix_behind (by decide) hdir.reflog
  have hend : leaf ≠ [] → (dir ++ '/' :: leaf).getLast? = leaf.getLast? := by
    intro hne
    rw [List.getLast?_append, List.getLast?_cons_of_ne_nil hne, List.getLast?_eq_some_getLast hne]
    rfl
  constructor
  · intro h
    obtain ⟨hne, hhead, hlock⟩ :=
      h.pieces leaf (hsplit ▸ List.mem_append_right _ (List.mem_singleton_self leaf))
    refine ⟨hne, hhead, ?_, hlock, mt hdots.mpr h.dots, mt hreflog.mpr h.reflog,
      fun c hc => h.chars c (List.mem_append_right _ (List.mem_cons_of_mem _ hc))⟩
    have hlast := h.last
    rwa [hend hne] at hlast
  · rintro ⟨hne, hhead, hlast, hlock, hnodots, hnoreflog, hchars⟩
    refine ⟨?_, List.mem_append_right _ List.mem_cons_self, mt hdots.mp hnodots, ?_, ?_,
      mt hreflog.mp hnoreflog, ?_⟩
    · rw [hsplit]
      intro piece hpiece
      rcases List.mem_append.mp hpiece with hpiece | hpiece
      · exact hdir.pieces piece hpiece
      · rw [List.mem_singleton.mp hpiece]
        exact ⟨hne, hhead, hlock⟩
    · intro c hc
      rcases List.mem_append.mp hc with hc | hc
      · exact hdir.chars c hc
      · rcases List.mem_cons.mp hc with rfl | hc
        · decide
        · exact hchars c hc
    · rwa [hend hne]
    · intro heq
      have hmem : '/' ∈ ['@'] := heq ▸ List.mem_append_right _ List.mem_cons_self
      exact absurd hmem (by decide)

end Git
