/-
# `Sys.Node` — trees of files, links and directories, and copies of them

A directory holds nodes under names.  `Has p c k` says that at the path `p` below `c`
there is a file with its content, a link with its target, or a directory.

`copyNode` is `shutil.copytree` with `symlinks=True`: each directory is asked for the names
to leave out (`ignore`), a link is copied as a link, and a file or directory that cannot be
read is passed over and told at the end.  The copy has at a path what is there, if no
directory on the way leaves out the next name (`has_copyNode`).
-/
import KdevopsNg.Py.Path
import KdevopsNg.Py.Dict

namespace Sys

open Py

/-- A file, a symbolic link or a directory. -/
inductive Node
  | file (content : String)
  | link (target : String)
  | dir (entries : List (String × Node))

/-- What is at a path, but for what a directory holds. -/
inductive Kind
  | file (content : String)
  | link (target : String)
  | dir
  deriving DecidableEq

namespace Node

/-- What a node is. -/
def kind : Node → Kind
  | file content => .file content
  | link target => .link target
  | dir _ => .dir

/-- What a node holds. -/
def entries : Node → Dict Node
  | file _ => []
  | link _ => []
  | dir es => es

/-- At the path below the node there is something of a kind. -/
def Has : List String → Node → Kind → Prop
  | [], c, k => c.kind = k
  | name :: p, c, k => ∃ child, (name, child) ∈ c.entries ∧ Has p child k

/-- No directory has two entries of one name. -/
inductive WF : Node → Prop
  | file (content : String) : WF (.file content)
  | link (target : String) : WF (.link target)
  | dir {es : Dict Node} : (Dict.keys es).Nodup → (∀ e ∈ es, WF e.2) → WF (.dir es)

end Node

/-! ## Copying -/

section
variable (unreadable : Path → Bool) (ignore : Path → Dict Node → List String)

mutual
/-- The copy of what is at a place, and the places that could not be read. -/
def copyNode (src : Path) : Node → Option Node × List Path
  | .file content => if unreadable src then (none, [src]) else (some (.file content), [])
  | .link target => (some (.link target), [])
  | .dir es =>
      if unreadable src then (none, [src])
      else
        let copy := copyEntries src (ignore src es) es
        (some (.dir copy.1), copy.2)
def copyEntry (src : Path) : String × Node → Option Node × List Path
  | (name, c) => copyNode (src ++ [name]) c
def copyEntries (src : Path) (ignored : List String) :
    List (String × Node) → List (String × Node) × List Path
  | [] => ([], [])
  | e :: es =>
      let rest := copyEntries src ignored es
      if e.1 ∈ ignored then rest
      else
        let copy := copyEntry src e
        ((copy.1.toList.map fun c => (e.1, c)) ++ rest.1, copy.2 ++ rest.2)
end

/-- What is at a path that no directory on the way leaves out. -/
def Reaches (src : Path) : List String → Node → Kind → Prop
  | [], c, k => c.kind = k
  | name :: p, c, k => name ∉ ignore src c.entries ∧
      ∃ child, (name, child) ∈ c.entries ∧ Reaches (src ++ [name]) p child k

end

section
variable {unreadable : Path → Bool} {ignore : Path → Dict Node → List String}

/-- Where all could be read, the copy of a directory holds the copies of the entries that are
not left out. -/
theorem mem_copyEntries {src : Path} {ignored : List String} {es : Dict Node}
    (hread : (copyEntries unreadable ignore src ignored es).2 = []) (name : String) (c' : Node) :
    (name, c') ∈ (copyEntries unreadable ignore src ignored es).1 ↔ name ∉ ignored ∧
      ∃ c, (name, c) ∈ es ∧ copyNode unreadable ignore (src ++ [name]) c = (some c', []) := by
  induction es with
  | nil =>
      rw [copyEntries]
      simp
  | cons e es ih =>
      obtain ⟨n, c⟩ := e
      rw [copyEntries] at hread ⊢
      dsimp only at hread ⊢
      split_ifs at hread ⊢ with hin
      · rw [ih hread]
        refine and_congr_right fun hname => ?_
        constructor
        · rintro ⟨c, hc, hcopy⟩
          exact ⟨c, List.mem_cons_of_mem _ hc, hcopy⟩
        · rintro ⟨c, hc, hcopy⟩
          rcases List.mem_cons.mp hc with heq | hc
          · cases heq
            exact absurd hin hname
          · exact ⟨c, hc, hcopy⟩
      · obtain ⟨hhere, hrest⟩ := List.append_eq_nil_iff.mp hread
        rw [copyEntry] at hhere ⊢
        rw [List.mem_append, ih hrest]
        constructor
        · rintro (hmem | ⟨hname, c, hc, hcopy⟩)
          · obtain ⟨c'', hc'', heq⟩ := List.mem_map.mp hmem
            cases heq
            refine ⟨hin, c, List.mem_cons_self, Prod.ext (Option.mem_toList.mp hc'') hhere⟩
          · exact ⟨hname, c, List.mem_cons_of_mem _ hc, hcopy⟩
        · rintro ⟨hname, c₀, hc, hcopy⟩
          rcases List.mem_cons.mp hc with heq | hc
          · cases heq
            exact .inl (List.mem_map.mpr ⟨c', by rw [hcopy]; simp, rfl⟩)
          · exact .inr ⟨hname, c₀, hc, hcopy⟩

/-- What could be read is copied. -/
theorem copied_of_read {src : Path} {c : Node}
    (hread : (copyNode unreadable ignore src c).2 = []) :
    ∃ c', copyNode unreadable ignore src c = (some c', []) := by
  cases c with
  | file content =>
      by_cases hun : unreadable src = true
      · rw [copyNode, if_pos hun] at hread
        cases hread
      · exact ⟨_, by rw [copyNode, if_neg hun]⟩
  | link target => exact ⟨_, by rw [copyNode]⟩
  | dir es =>
      by_cases hun : unreadable src = true
      · rw [copyNode, if_pos hun] at hread
        cases hread
      · rw [copyNode, if_neg hun] at hread ⊢
        exact ⟨_, Prod.ext rfl hread⟩

/-- Where all could be read, an entry that is not left out is copied. -/
theorem copied_entry {src : Path} {ignored : List String} {es : Dict Node}
    (hread : (copyEntries unreadable ignore src ignored es).2 = []) {name : String} {c : Node}
    (hname : name ∉ ignored) (hc : (name, c) ∈ es) :
    ∃ c', copyNode unreadable ignore (src ++ [name]) c = (some c', []) := by
  induction es with
  | nil => exact absurd hc List.not_mem_nil
  | cons e es ih =>
      rw [copyEntries] at hread
      dsimp only at hread
      split_ifs at hread with hin
      · rcases List.mem_cons.mp hc with rfl | hc
        · exact absurd hin hname
        · exact ih hread hc
      · obtain ⟨hhere, hrest⟩ := List.append_eq_nil_iff.mp hread
        rcases List.mem_cons.mp hc with rfl | hc
        · rw [copyEntry] at hhere
          exact copied_of_read hhere
        · exact ih hrest hc

/-- The copy of what could be read has what no directory on the way leaves out. -/
theorem has_copyNode {src : Path} {c c' : Node}
    (hcopy : copyNode unreadable ignore src c = (some c', [])) (p : List String) (k : Kind) :
    c'.Has p k ↔ Reaches ignore src p c k := by
  induction p generalizing src c c' with
  | nil =>
      have hkind : c'.kind = c.kind := by
        cases c with
        | file content =>
            rw [copyNode] at hcopy
            split_ifs at hcopy
            · cases hcopy
            · cases hcopy
              rfl
        | link target =>
            rw [copyNode] at hcopy
            cases hcopy
            rfl
        | dir es =>
            by_cases hun : unreadable src = true
            · rw [copyNode, if_pos hun] at hcopy
              cases hcopy
            · rw [copyNode, if_neg hun] at hcopy
              rw [← Option.some.inj (Prod.mk.inj hcopy).1]
              rfl
      rw [Node.Has, Reaches, hkind]
  | cons name p ih =>
      rw [Node.Has, Reaches]
      cases c with
      | file content =>
          rw [copyNode] at hcopy
          split_ifs at hcopy
          · cases hcopy
          · cases hcopy
            simp [Node.entries]
      | link target =>
          rw [copyNode] at hcopy
          cases hcopy
          simp [Node.entries]
      | dir es =>
          by_cases hun : unreadable src = true
          · rw [copyNode, if_pos hun] at hcopy
            cases hcopy
          · rw [copyNode, if_neg hun] at hcopy
            have hread : (copyEntries unreadable ignore src (ignore src es) es).2 = [] :=
              (Prod.mk.inj hcopy).2
            have hdir : .dir (copyEntries unreadable ignore src (ignore src es) es).1 = c' :=
              Option.some.inj (Prod.mk.inj hcopy).1
            rw [← hdir]
            simp only [Node.entries, mem_copyEntries hread]
            constructor
            · rintro ⟨child', ⟨hname, child, hchild, hcopied⟩, hhas⟩
              exact ⟨hname, child, hchild, (ih hcopied).mp hhas⟩
            · rintro ⟨hname, child, hchild, hreach⟩
              obtain ⟨child', hcopied⟩ := copied_entry hread hname hchild
              exact ⟨child', ⟨hname, child, hchild, hcopied⟩, (ih hcopied).mpr hreach⟩

mutual
/-- What could not be read is a file or directory that no directory on the way leaves out. -/
theorem unread_reaches (src : Path) :
    ∀ c : Node, ∀ q ∈ (copyNode unreadable ignore src c).2, ∃ p k, q = src ++ p ∧
      unreadable q = true ∧ Reaches ignore src p c k
  | .file content => by
      intro q hq
      rw [copyNode] at hq
      split_ifs at hq with hun
      · rw [List.mem_singleton.mp hq]
        exact ⟨[], .file content, (List.append_nil src).symm, hun, rfl⟩
      · exact absurd hq List.not_mem_nil
  | .link target => by
      intro q hq
      rw [copyNode] at hq
      exact absurd hq List.not_mem_nil
  | .dir es => by
      intro q hq
      rw [copyNode] at hq
      split_ifs at hq with hun
      · rw [List.mem_singleton.mp hq]
        exact ⟨[], .dir, (List.append_nil src).symm, hun, rfl⟩
      · obtain ⟨name, c, p, k, hname, hc, rfl, hun, hreach⟩ :=
          unread_entries src (ignore src es) es q hq
        exact ⟨name :: p, k, by simp, hun, hname, c, hc, hreach⟩
theorem unread_entry (src : Path) :
    ∀ e : String × Node, ∀ q ∈ (copyEntry unreadable ignore src e).2, ∃ p k,
      q = src ++ [e.1] ++ p ∧ unreadable q = true ∧ Reaches ignore (src ++ [e.1]) p e.2 k
  | (name, c) => by
      intro q hq
      rw [copyEntry] at hq
      exact unread_reaches (src ++ [name]) c q hq
theorem unread_entries (src : Path) (ignored : List String) :
    ∀ es : List (String × Node), ∀ q ∈ (copyEntries unreadable ignore src ignored es).2,
      ∃ name c p k, name ∉ ignored ∧ (name, c) ∈ es ∧ q = src ++ [name] ++ p ∧
        unreadable q = true ∧ Reaches ignore (src ++ [name]) p c k
  | [] => by
      intro q hq
      rw [copyEntries] at hq
      exact absurd hq List.not_mem_nil
  | e :: es => by
      intro q hq
      have hrest : q ∈ (copyEntries unreadable ignore src ignored es).2 → ∃ name c p k,
          name ∉ ignored ∧ (name, c) ∈ e :: es ∧ q = src ++ [name] ++ p ∧
            unreadable q = true ∧ Reaches ignore (src ++ [name]) p c k := by
        intro hq
        obtain ⟨name, c, p, k, hname, hc, hpath, hun, hreach⟩ := unread_entries src ignored es q hq
        exact ⟨name, c, p, k, hname, List.mem_cons_of_mem e hc, hpath, hun, hreach⟩
      rw [copyEntries] at hq
      dsimp only at hq
      split_ifs at hq with hin
      · exact hrest hq
      · rcases List.mem_append.mp hq with hq | hq
        · obtain ⟨p, k, hpath, hun, hreach⟩ := unread_entry src e q hq
          exact ⟨e.1, e.2, p, k, hin, List.mem_cons_self, hpath, hun, hreach⟩
        · exact hrest hq
end

end

end Sys
