/-
# `Sys.Links` — paths with symbolic links

`Nodes` is what is at each place of a file system: a file, a link or a directory.  Two ways
to follow a path:

    walk        the kernel's, through directories alone; a link is followed, at most 40
    realpath    that of `os.path.realpath`: what is missing is passed by name

`reach` is what `unlink` is about: the file or link that the last component names in the
directory the others lead to.  `mkdirs` makes a directory with those above it.
-/
import KdevopsNg.Py.Path
import KdevopsNg.Sys.Node

namespace Sys

open Py Text

/-- What is at each place. -/
abbrev Nodes := Map Path Kind

/-- The path that a text names from a place. -/
def pathFrom (dir : Path) (name : String) : Path :=
  if isAbsolute name then components name else dir ++ components name

/-! ## Following a path -/

/-- What a walk fails with: there is nothing, or something that is no directory, or too many
links. -/
inductive Stray
  | missing
  | refused
  deriving DecidableEq

section
variable (fs : Nodes)

/-- A walk up to the next link, from where `follow` goes on. -/
def walkTo (follow : Path → List String → Except Stray Path) : Path → List String → Except Stray Path
  | dir, [] => .ok dir
  | dir, name :: rest =>
      if name = ".." then walkTo follow dir.dropLast rest
      else
        match Dict.get? fs (dir ++ [name]) with
        | none => .error .missing
        | some (.file _) => .error .refused
        | some .dir => walkTo follow (dir ++ [name]) rest
        | some (.link target) =>
            follow (if isAbsolute target then [] else dir) (components target ++ rest)

/-- The directory that a path leads to, with at most `n` links on the way. -/
def walk : ℕ → Path → List String → Except Stray Path
  | 0 => walkTo fs fun _ _ => .error .refused
  | n + 1 => walkTo fs (walk n)

/-- What `unlink` finds at a path. -/
inductive Target
  | missing
  | refused
  | entry (p : Path)
  deriving DecidableEq

/-- `os.unlink(path)`, what it is about: a directory is refused. -/
def reach (path : List String) : Target :=
  match path.getLast? with
  | none => .refused
  | some name =>
      match walk fs 40 [] path.dropLast with
      | .error .missing => .missing
      | .error .refused => .refused
      | .ok dir =>
          if name = ".." then .refused
          else
            match Dict.get? fs (dir ++ [name]) with
            | none => .missing
            | some .dir => .refused
            | some (.file _) => .entry (dir ++ [name])
            | some (.link _) => .entry (dir ++ [name])

/-- `_joinrealpath`, with `follow` for the links on the way; none where they go in a circle. -/
def joinReal (follow : Path → List String → Option Path) : Path → List String → Option Path
  | dir, [] => some dir
  | dir, name :: rest =>
      if name = ".." then joinReal follow dir.dropLast rest
      else
        match Dict.get? fs (dir ++ [name]) with
        | some (.link target) =>
            match follow (if isAbsolute target then [] else dir) (components target) with
            | some p => joinReal follow p rest
            | none => none
        | some (.file _) => joinReal follow (dir ++ [name]) rest
        | some .dir => joinReal follow (dir ++ [name]) rest
        | none => joinReal follow (dir ++ [name]) rest

/-- The same, with at most `n` links inside each other. -/
def realFrom : ℕ → Path → List String → Option Path
  | 0 => joinReal fs fun _ _ => none
  | n + 1 => joinReal fs (realFrom n)

/-- `os.path.realpath(path)`.  More links inside each other than there are go in a circle. -/
def realpath (path : List String) : Option Path := realFrom fs fs.length [] path

/-- `Path(os.path.realpath(path)).exists()`. -/
def Resolves (path : List String) : Bool :=
  match realpath fs path with
  | some p => decide (p = []) || (Dict.get? fs p).isSome
  | none => false

/-- `path.is_symlink()`, of a place. -/
def isLink (p : Path) : Bool :=
  match Dict.get? fs p with
  | some (.link _) => true
  | _ => false

/-- A file is at the place of a directory or above it. -/
def blocked (dir : Path) : Bool :=
  dir.inits.any fun q => decide (q ≠ []) && (match Dict.get? fs q with
    | some .dir => false
    | none => false
    | _ => true)

/-- `path.mkdir(parents=True, exist_ok=True)`, where no file is in the way. -/
def mkdirs (dir : Path) : Nodes :=
  (dir.inits.filter fun q => decide (q ≠ [])).foldl
    (fun acc q => if (Dict.get? acc q).isSome then acc else Dict.set acc q .dir) fs

end

/-! ## What stays -/

section
variable (fs : Nodes) (gone : List Path)

/-- The places without some of them. -/
def without : Nodes := fs.filter fun e => e.1 ∉ gone

theorem get?_without (p : Path) :
    Dict.get? (without fs gone) p = if p ∈ gone then none else Dict.get? fs p := by
  rw [without, Dict.get?_filter (fun p => decide (p ∉ gone))]
  by_cases hp : p ∈ gone
  · rw [if_pos hp, if_neg (by simpa using hp)]
  · rw [if_neg hp, if_pos (decide_eq_true hp)]

theorem without_nil : without fs [] = fs := by simp [without]

theorem erase_without (p : Path) : Dict.erase (without fs gone) p = without fs (p :: gone) := by
  rw [Dict.erase, without, without, List.filter_filter]
  refine List.filter_congr fun e _ => ?_
  rw [Bool.eq_iff_iff, Bool.and_eq_true, decide_eq_true_iff, decide_eq_true_iff,
    decide_eq_true_iff, List.mem_cons, not_or]

end

/-! ## A directory and those above it -/

section
variable {fs : Nodes} {dir : Path}

/-- Every directory down to a place is there. -/
def Laid (fs : Nodes) (dir : Path) : Prop :=
  ∀ q, q <+: dir → q ≠ [] → Dict.get? fs q = some .dir

theorem mkdirs_laid (h : Laid fs dir) : mkdirs fs dir = fs := by
  have hall : ∀ qs : List Path, (∀ q ∈ qs, (Dict.get? fs q).isSome = true) →
      qs.foldl (fun acc q => if (Dict.get? acc q).isSome then acc else Dict.set acc q .dir) fs = fs := by
    intro qs hqs
    induction qs with
    | nil => rfl
    | cons q qs ih =>
        rw [List.foldl_cons, if_pos (hqs q List.mem_cons_self)]
        exact ih fun q' hq' => hqs q' (List.mem_cons_of_mem q hq')
  refine hall _ fun q hq => ?_
  obtain ⟨hfront, hne⟩ := List.mem_filter.mp hq
  rw [h q ((List.mem_inits q dir).mp hfront) (of_decide_eq_true hne)]
  rfl

theorem blocked_eq_false (h : Laid fs dir) : blocked fs dir = false := by
  rw [blocked, List.any_eq_false]
  intro q hq
  by_cases hne : q = []
  · simp [hne]
  · rw [h q ((List.mem_inits q dir).mp hq) hne]
    simp

/-- What is there when a directory is made with those above it. -/
theorem get?_mkdirs (p : Path) : Dict.get? (mkdirs fs dir) p =
    if Dict.get? fs p = none ∧ p <+: dir ∧ p ≠ [] then some .dir else Dict.get? fs p := by
  have hfold : ∀ (qs : List Path) (fs : Nodes), Dict.get?
      (qs.foldl (fun acc q => if (Dict.get? acc q).isSome then acc else Dict.set acc q .dir) fs) p =
        if Dict.get? fs p = none ∧ p ∈ qs then some .dir else Dict.get? fs p := by
    intro qs
    induction qs with
    | nil => intro fs; simp
    | cons q qs ih =>
        intro fs
        rw [List.foldl_cons, ih]
        cases hq : Dict.get? fs q with
        | some k =>
            simp only [Option.isSome_some, if_true]
            refine if_congr (and_congr_right fun hnone => ?_) rfl rfl
            have hne : p ≠ q := fun heq => by rw [heq, hq] at hnone; cases hnone
            rw [List.mem_cons, or_iff_right hne]
        | none =>
            simp only [Option.isSome_none, Bool.false_eq_true, if_false]
            rw [Dict.get?_set]
            by_cases hp : p = q
            · subst hp
              simp [hq]
            · simp [hp]
  rw [mkdirs, hfold]
  refine if_congr (and_congr_right fun _ => ?_) rfl rfl
  rw [List.mem_filter, List.mem_inits, decide_eq_true_iff]

/-- Where nothing is in the way, the directory is there afterwards with those above it. -/
theorem laid_mkdirs (hfree : blocked fs dir = false) : Laid (mkdirs fs dir) dir := by
  intro q hq hne
  rw [get?_mkdirs]
  rw [blocked, List.any_eq_false] at hfree
  have hplace := hfree q ((List.mem_inits q dir).mpr hq)
  cases hget : Dict.get? fs q with
  | none => rw [if_pos ⟨rfl, hq, hne⟩]
  | some k =>
      rw [if_neg (by rintro ⟨h, -⟩; cases h)]
      cases k with
      | dir => rfl
      | file content => simp [hget, hne] at hplace
      | link target => simp [hget, hne] at hplace

end

/-! ## What a name in a directory leads to -/

section
variable {fs : Nodes} {dir : Path}

/-- A walk down the directories gets to the last. -/
theorem walkTo_laid (follow : Path → List String → Except Stray Path) {start : Path}
    (hvalid : ∀ c ∈ dir, Plain c)
    (h : ∀ q, q <+: dir → q ≠ [] → Dict.get? fs (start ++ q) = some .dir) :
    walkTo fs follow start dir = .ok (start ++ dir) := by
  induction dir generalizing start with
  | nil => rw [walkTo, List.append_nil]
  | cons c dir ih =>
      have hhead := h [c] ⟨dir, rfl⟩ (List.cons_ne_nil c [])
      rw [walkTo, if_neg (hvalid c List.mem_cons_self).2.2.2, hhead]
      have hdirs : ∀ q, q <+: dir → q ≠ [] → Dict.get? fs ((start ++ [c]) ++ q) = some .dir :=
        fun q hq _ => by
          rw [List.append_assoc]
          exact h (c :: q) (List.cons_prefix_cons.mpr ⟨rfl, hq⟩) (List.cons_ne_nil c q)
      have hrest := ih (fun c' hc' => hvalid c' (List.mem_cons_of_mem c hc')) hdirs
      rw [List.append_assoc] at hrest
      exact hrest

/-- `unlink` of a plain name in a directory is about the entry of that name. -/
theorem reach_entry (hvalid : ∀ c ∈ dir, Plain c) (hlaid : Laid fs dir) {name : String}
    (hname : Plain name) {k : Kind} (hget : Dict.get? fs (dir ++ [name]) = some k)
    (hk : k ≠ .dir) : reach fs (pathFrom dir name) = .entry (dir ++ [name]) := by
  have hwalk : walk fs 40 [] dir = .ok dir :=
    walkTo_laid _ hvalid fun q hq hne => hlaid q hq hne
  rw [reach, pathFrom, if_neg (by rw [not_isAbsolute_plain hname]; decide),
    components_plain hname, List.getLast?_concat, List.dropLast_concat]
  dsimp only
  rw [hwalk]
  dsimp only
  rw [if_neg hname.2.2.2, hget]
  cases k with
  | file content => rfl
  | link target => rfl
  | dir => exact absurd rfl hk

/-- What `unlink` takes out is a file or a link. -/
theorem reach_get? {path : List String} {p : Path} (h : reach fs path = .entry p) :
    ∃ k, Dict.get? fs p = some k ∧ k ≠ .dir := by
  rw [reach] at h
  split at h
  · cases h
  · split at h
    · cases h
    · cases h
    · split_ifs at h
      split at h
      · cases h
      · cases h
      · next hget => cases h; exact ⟨_, hget, by simp⟩
      · next hget => cases h; exact ⟨_, hget, by simp⟩

end

end Sys
