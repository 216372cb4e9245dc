/-
# `Common.StoreIndex` — what the store catalogue removes

`_forget`, `_prune` and the branches of `main` that call them, of `f/common/store_index.py`.
The index is a directory of links.  `prune` removes the links in it that resolve to nothing;
`forget` joins each name to the directory and unlinks what that path leads to, which is a
link of the index when the name is the name of one, and otherwise whatever is there:

    `../peers`                       a file beside the index
    an absolute name                 that file
    the name of a file in the index  the file

So `forget` removes exactly the links that are named when every name that is none leads to
nothing (`Clears`), and `prune` exactly the dangling ones when no link resolves otherwise once
those before it are gone (`Steady`).
-/
import Mathlib.Data.List.Dedup
import KdevopsNg.Sys.Links

namespace KdevopsNg.Common.StoreIndex

open Py Sys Text

/-! ## The catalogue -/

/-- A component that a file system takes. -/
def Valid (c : String) : Prop := Plain c ∧ '\x00' ∉ c.toList

/-- A file system and the place of the index in it, with no link on the way there.  What is
above a place is a directory. -/
structure Site where
  nodes : Nodes
  index : Path
  valid : ∀ p k, Dict.get? nodes p = some k → ∀ c ∈ p, Valid c
  closed : ∀ p k, Dict.get? nodes p = some k → ∀ q, q <+: p → q ≠ [] → q ≠ p →
    Dict.get? nodes q = some .dir
  validIndex : ∀ c ∈ index, Valid c
  direct : ∀ q, q <+: index → isLink nodes q = false

/-- The order in which a directory is gone through. -/
structure DirOrder where
  list : Nodes → Path → List String
  nodup : ∀ fs dir, (list fs dir).Nodup
  mem_list : ∀ fs dir name, name ∈ list fs dir ↔ (Dict.get? fs (dir ++ [name])).isSome = true

/-- The order in which the places are kept. -/
def byNodes : DirOrder where
  list fs dir := (fs.filterMap fun e =>
    if e.1 ≠ [] ∧ e.1.dropLast = dir then e.1.getLast? else none).dedup
  nodup fs dir := List.nodup_dedup _
  mem_list fs dir name := by
    rw [List.mem_dedup, List.mem_filterMap, Option.isSome_iff_exists]
    constructor
    · rintro ⟨e, he, hlast⟩
      split_ifs at hlast with hdir
      · have heq : e.1 = dir ++ [name] := by
          rw [← hdir.2, List.dropLast_append_getLast? name hlast]
        rw [← Option.isSome_iff_exists, ← heq]
        exact (Dict.contains_iff_mem_keys fs e.1).mpr (List.mem_map_of_mem he)
    · rintro ⟨k, hk⟩
      exact ⟨(dir ++ [name], k), Dict.mem_of_get? hk, by simp⟩

/-- What is raised. -/
inductive Failure
  | valueError (message : String)
  | osError

/-- What is returned: with each name that was forgotten the path it resolved to, where it was a
link, or the names that were pruned. -/
inductive Report
  | unconfirmed
  | forgot (removed : List (String × Option Path))
  | pruned (removed : List String)

/-- The actions that remove. -/
inductive Action
  | forget
  | prune

section
variable (index : Path)

/-- What `entry.unlink()` is about, for the entry of a name.  A path with a null is refused. -/
def target (fs : Nodes) (name : String) : Sys.Target :=
  if '\x00' ∈ name.toList then .refused else reach fs (pathFrom index name)

/-- `os.path.realpath(entry) if entry.is_symlink() else None`. -/
def storePath (fs : Nodes) (name : String) : Option Path :=
  match target index fs name with
  | .entry p => if isLink fs p then realpath fs (pathFrom index name) else none
  | .missing => none
  | .refused => none

/-- The loop of `_forget`; each round begins with `store.index_dir()`. -/
def forgetLoop : List String → Nodes → List (String × Option Path) →
    Except Failure (List (String × Option Path)) × Nodes
  | [], fs, removed => (.ok removed, fs)
  | name :: rest, fs, removed =>
      if blocked fs index then (.error .osError, fs)
      else
        let fs := mkdirs fs index
        let removed := removed ++ [(name, storePath index fs name)]
        match target index fs name with
        | .missing => forgetLoop rest fs removed
        | .refused => (.error .osError, fs)
        | .entry p => forgetLoop rest (Dict.erase fs p) removed

/-- `_forget`. -/
def forget (names : List String) (confirm : Bool) (fs : Nodes) : Except Failure Report × Nodes :=
  if names = [] then (.error (.valueError "forget requires at least one name"), fs)
  else if confirm then
    let r := forgetLoop index names fs []
    (r.1.map .forgot, r.2)
  else (.ok .unconfirmed, fs)

/-- The loop of `_prune`. -/
def pruneLoop : List String → Nodes → List String → Except Failure (List String) × Nodes
  | [], fs, removed => (.ok removed, fs)
  | name :: rest, fs, removed =>
      if ¬ isLink fs (index ++ [name]) then pruneLoop rest fs removed
      else if Resolves fs (index ++ [name]) then pruneLoop rest fs removed
      else
        match target index fs name with
        | .missing => (.error .osError, fs)
        | .refused => (.error .osError, fs)
        | .entry p => pruneLoop rest (Dict.erase fs p) (removed ++ [name])

/-- `_prune`. -/
def prune (order : DirOrder) (fs : Nodes) : Except Failure Report × Nodes :=
  if blocked fs index then (.error .osError, fs)
  else
    let fs := mkdirs fs index
    let r := pruneLoop index (order.list fs index) fs []
    (r.1.map .pruned, r.2)

end

/-- The names that `main` selects. -/
def selected (name : String) (names : Option (List String)) : List String :=
  ((if name = "" then [] else [name]) ++ names.getD []).foldl
    (fun acc entry => if entry ≠ "" ∧ entry ∉ acc then acc ++ [entry] else acc) []

/-- `main`, of the actions that remove. -/
def main (order : DirOrder) (index : Path) (action : Action) (names : Option (List String))
    (name : String) (confirm : Bool) (fs : Nodes) : Except Failure Report × Nodes :=
  match action with
  | .forget => forget index (selected name names) confirm fs
  | .prune => prune index order fs

/-! ## What is removed -/

section
variable (site : Site)

/-- A link in the index that is among the names. -/
def Named (names : List String) (p : Path) : Prop :=
  ∃ name ∈ names, p = site.index ++ [name] ∧ isLink site.nodes p = true

/-- A link in the index that resolves to nothing. -/
def Dangling (p : Path) : Prop :=
  ∃ name, p = site.index ++ [name] ∧ isLink site.nodes p = true ∧ Resolves site.nodes p = false

/-- What is left is what was there, without the places of `gone`; the index may have been made. -/
structure RemovesOnly (gone : Path → Prop) (after : Nodes) : Prop where
  out : ∀ p, gone p → Dict.get? after p = none
  kept : ∀ p, ¬ gone p → Dict.get? after p = Dict.get? site.nodes p ∨
    (Dict.get? site.nodes p = none ∧ Dict.get? after p = some .dir ∧ p <+: site.index)

/-- The links of the index that resolve to nothing, of some names. -/
def danglingOf (names : List String) : List Path :=
  (names.filter fun name => isLink site.nodes (site.index ++ [name]) &&
    !Resolves site.nodes (site.index ++ [name])).map fun name => site.index ++ [name]

/-- The names in order, with the links that those before led to gone: each leads to nothing, or
to a link of the index that is itself named; or to something that `unlink` refuses, and no
named link is left. -/
def Clears (names : List String) : List Path → List String → Prop
  | _, [] => True
  | gone, name :: rest =>
      match target site.index (without (mkdirs site.nodes site.index) gone) name with
      | .missing => Clears names gone rest
      | .refused => ∀ p, Named site names p → p ∈ gone
      | .entry p => Named site names p ∧ Clears names (p :: gone) rest

/-- No link of the index resolves otherwise once the dangling ones before it are gone. -/
def Steady (order : DirOrder) : Prop :=
  ∀ before name after, order.list site.nodes site.index = before ++ name :: after →
    isLink site.nodes (site.index ++ [name]) = true →
      Resolves (without site.nodes (danglingOf site before)) (site.index ++ [name]) =
        Resolves site.nodes (site.index ++ [name])

/-- The call removes exactly the links of the index that it is to remove, and without
confirmation changes nothing. -/
def Exact (order : DirOrder) (action : Action) (names : Option (List String)) (name : String)
    (confirm : Bool) : Prop :=
  let after := (main order site.index action names name confirm site.nodes).2
  match action with
  | .forget =>
      if confirm then RemovesOnly site (Named site (selected name names)) after
      else after = site.nodes
  | .prune => RemovesOnly site (Dangling site) after

/-- The names and the state of the index that a call can be trusted with. -/
def Harmless (order : DirOrder) (action : Action) (names : Option (List String)) (name : String)
    (confirm : Bool) : Prop :=
  match action with
  | .forget => confirm = true → blocked site.nodes site.index = true ∨
      Clears site (selected name names) [] (selected name names)
  | .prune => Steady site order

end

/-! ## The index among the places -/

section
variable {site : Site}

theorem isLink_iff {fs : Nodes} {p : Path} : isLink fs p = true ↔
    ∃ t, Dict.get? fs p = some (.link t) := by
  rw [isLink]
  cases Dict.get? fs p with
  | none => simp
  | some k => cases k <;> simp

/-- What is in the index is below directories. -/
theorem laid_of_entry {name : String} {k : Kind}
    (h : Dict.get? site.nodes (site.index ++ [name]) = some k) : Laid site.nodes site.index := by
  intro q hq hne
  refine site.closed _ k h q (hq.trans (List.prefix_append _ _)) hne fun heq => ?_
  have hlen := hq.length_le
  rw [heq, List.length_append, List.length_singleton] at hlen
  omega

/-- Places other than directories are not on the way to the index. -/
theorem laid_without {fs : Nodes} {index : Path} (h : Laid fs index) {gone : List Path}
    (hgone : ∀ q ∈ gone, Dict.get? fs q ≠ some .dir) : Laid (without fs gone) index := by
  intro q hq hne
  rw [get?_without, if_neg fun hmem => hgone q hmem (h q hq hne)]
  exact h q hq hne

/-- A name in the index leads to the entry of that name. -/
theorem target_entry {fs : Nodes} (hlaid : Laid fs site.index) {name : String} {k : Kind}
    (hvalid : Valid name) (hget : Dict.get? fs (site.index ++ [name]) = some k) (hk : k ≠ .dir) :
    target site.index fs name = .entry (site.index ++ [name]) := by
  rw [target, if_neg hvalid.2]
  exact reach_entry (fun c hc => (site.validIndex c hc).1) hlaid hvalid.1 hget hk

theorem target_get? {fs : Nodes} {name : String} {p : Path}
    (h : target site.index fs name = .entry p) : ∃ k, Dict.get? fs p = some k ∧ k ≠ .dir := by
  rw [target] at h
  split_ifs at h
  exact reach_get? h

/-- Making the index changes no file and no link. -/
theorem get?_made {p : Path} {k : Kind} (hk : k ≠ .dir) :
    Dict.get? (mkdirs site.nodes site.index) p = some k ↔ Dict.get? site.nodes p = some k := by
  rw [get?_mkdirs]
  split_ifs with h
  · rw [h.1]
    constructor
    · intro heq
      exact absurd (Option.some.inj heq).symm hk
    · intro heq
      cases heq
  · exact Iff.rfl

end

/-! ## Forgetting -/

section
variable {site : Site}

/-- The places that the loop of `_forget` takes out, with some gone before. -/
def goneBy (index : Path) (fs : Nodes) (gone : List Path) : List String → List Path
  | [] => gone
  | name :: rest =>
      match target index (without fs gone) name with
      | .missing => goneBy index fs gone rest
      | .refused => gone
      | .entry p => goneBy index fs (p :: gone) rest

theorem subset_goneBy (index : Path) (fs : Nodes) (gone : List Path) (names : List String) :
    gone ⊆ goneBy index fs gone names := by
  induction names generalizing gone with
  | nil => exact List.Subset.refl gone
  | cons name rest ih =>
      rw [goneBy]
      split
      · exact ih gone
      · exact List.Subset.refl gone
      · next p _ => exact fun q hq => ih (p :: gone) (List.mem_cons_of_mem p hq)

/-- What the loop takes out was there, and no directory. -/
theorem goneBy_get? {fs : Nodes} {gone : List Path} {names : List String}
    (hgone : ∀ q ∈ gone, ∃ k, Dict.get? fs q = some k ∧ k ≠ .dir) :
    ∀ q ∈ goneBy site.index fs gone names, ∃ k, Dict.get? fs q = some k ∧ k ≠ .dir := by
  induction names generalizing gone with
  | nil => exact hgone
  | cons name rest ih =>
      rw [goneBy]
      split
      · exact ih hgone
      · exact hgone
      · next p htarget =>
          refine ih fun q hq => ?_
          rcases List.mem_cons.mp hq with rfl | hq
          · obtain ⟨k, hget, hk⟩ := target_get? htarget
            rw [get?_without] at hget
            split_ifs at hget
            exact ⟨k, hget, hk⟩
          · exact hgone q hq

theorem forgetLoop_snd {fs : Nodes} (hlaid : Laid fs site.index) {gone : List Path}
    (hgone : ∀ q ∈ gone, ∃ k, Dict.get? fs q = some k ∧ k ≠ .dir) (names : List String)
    (removed : List (String × Option Path)) :
    (forgetLoop site.index names (without fs gone) removed).2 =
      without fs (goneBy site.index fs gone names) := by
  induction names generalizing gone removed with
  | nil => rfl
  | cons name rest ih =>
      have hdirs : Laid (without fs gone) site.index := by
        refine laid_without hlaid fun q hq hdir => ?_
        obtain ⟨k, hget, hk⟩ := hgone q hq
        exact hk (Option.some.inj (hget.symm.trans hdir))
      rw [forgetLoop, blocked_eq_false hdirs, if_neg (by decide), mkdirs_laid hdirs, goneBy]
      dsimp only
      cases htarget : target site.index (without fs gone) name with
      | missing => exact ih hgone _
      | refused => rfl
      | entry p =>
          dsimp only
          rw [erase_without]
          refine ih (fun q hq => ?_) _
          rcases List.mem_cons.mp hq with rfl | hq
          · obtain ⟨k, hget, hk⟩ := target_get? htarget
            rw [get?_without] at hget
            split_ifs at hget
            exact ⟨k, hget, hk⟩
          · exact hgone q hq

/-- A named link is a place with a link in the index. -/
theorem named_made {names : List String} {p : Path} (h : Named site names p) :
    ∃ t, Dict.get? (mkdirs site.nodes site.index) p = some (.link t) := by
  obtain ⟨name, -, rfl, hlink⟩ := h
  obtain ⟨t, ht⟩ := isLink_iff.mp hlink
  exact ⟨t, (get?_made (by simp)).mpr ht⟩

/-- The names clear the index exactly when what they take out is what is named. -/
theorem clears_iff {names : List String} {gone : List Path} {rest : List String}
    (hlaid : Laid (mkdirs site.nodes site.index) site.index)
    (hgone : ∀ p ∈ gone, Named site names p)
    (hdone : ∀ p, Named site names p → p ∈ gone ∨ ∃ name ∈ rest, p = site.index ++ [name]) :
    (∀ p, p ∈ goneBy site.index (mkdirs site.nodes site.index) gone rest ↔ Named site names p) ↔
      Clears site names gone rest := by
  have hdirs : ∀ {gone : List Path}, (∀ p ∈ gone, Named site names p) →
      Laid (without (mkdirs site.nodes site.index) gone) site.index := by
    intro gone hgone
    refine laid_without hlaid fun q hq hdir => ?_
    obtain ⟨t, ht⟩ := named_made (hgone q hq)
    rw [hdir] at ht
    cases ht
  induction rest generalizing gone with
  | nil =>
      refine iff_of_true (fun p => ⟨hgone p, fun hp => ?_⟩) trivial
      rcases hdone p hp with hmem | ⟨name, hname, -⟩
      · exact hmem
      · exact absurd hname List.not_mem_nil
  | cons name rest ih =>
      -- a named link that is left is what its own name leads to
      have hown : ∀ p, Named site names p → p ∉ gone → p = site.index ++ [name] →
          target site.index (without (mkdirs site.nodes site.index) gone) name = .entry p := by
        rintro p hp hnot rfl
        obtain ⟨t, ht⟩ := named_made hp
        have hplace := (get?_made (by simp)).mp ht
        have hvalid := site.valid _ _ hplace name (by simp)
        exact target_entry (hdirs hgone) hvalid (by rw [get?_without, if_neg hnot, ht]) (by simp)
      rw [goneBy, Clears]
      cases htarget : target site.index (without (mkdirs site.nodes site.index) gone) name with
      | missing =>
          refine ih hgone fun p hp => ?_
          by_cases hin : p ∈ gone
          · exact .inl hin
          · rcases hdone p hp with hmem | ⟨n, hn, heq⟩
            · exact .inl hmem
            · rcases List.mem_cons.mp hn with rfl | hn
              · rw [hown p hp hin heq] at htarget
                cases htarget
              · exact .inr ⟨n, hn, heq⟩
      | refused =>
          exact ⟨fun h p hp => (h p).mpr hp, fun h p => ⟨hgone p, h p⟩⟩
      | entry q =>
          dsimp only
          by_cases hq : Named site names q
          · rw [and_iff_right hq]
            refine ih (fun p hp => ?_) fun p hp => ?_
            · rcases List.mem_cons.mp hp with rfl | hp
              · exact hq
              · exact hgone p hp
            · by_cases hin : p ∈ gone
              · exact .inl (List.mem_cons_of_mem q hin)
              · rcases hdone p hp with hmem | ⟨n, hn, heq⟩
                · exact .inl (List.mem_cons_of_mem q hmem)
                · rcases List.mem_cons.mp hn with rfl | hn
                  · rw [hown p hp hin heq] at htarget
                    cases htarget
                    exact .inl List.mem_cons_self
                  · exact .inr ⟨n, hn, heq⟩
          · refine iff_of_false (fun h => ?_) fun h => hq h.1
            exact hq ((h q).mp (subset_goneBy _ _ _ _ List.mem_cons_self))

/-- What is left of the places is what was there without some of them exactly when those are
the ones that are to go. -/
theorem removesOnly_iff {gone : Path → Prop} {out : List Path}
    (hgone : ∀ p, gone p → ∃ t, Dict.get? (mkdirs site.nodes site.index) p = some (.link t))
    (hout : ∀ p ∈ out, ∃ k, Dict.get? (mkdirs site.nodes site.index) p = some k ∧ k ≠ .dir) :
    RemovesOnly site gone (without (mkdirs site.nodes site.index) out) ↔ ∀ p, p ∈ out ↔ gone p := by
  constructor
  · rintro ⟨hall, hkept⟩ p
    constructor
    · intro hp
      by_contra hnot
      obtain ⟨k, hget, hk⟩ := hout p hp
      rcases hkept p hnot with heq | ⟨-, hdir, -⟩
      · rw [get?_without, if_pos hp, (get?_made hk).mp hget] at heq
        cases heq
      · rw [get?_without, if_pos hp] at hdir
        cases hdir
    · intro hp
      by_contra hnot
      obtain ⟨t, ht⟩ := hgone p hp
      have hnone := hall p hp
      rw [get?_without, if_neg hnot, ht] at hnone
      cases hnone
  · intro h
    refine ⟨fun p hp => by rw [get?_without, if_pos ((h p).mpr hp)], fun p hp => ?_⟩
    rw [get?_without, if_neg fun hin => hp ((h p).mp hin), get?_mkdirs]
    split_ifs with hnew
    · exact .inr ⟨hnew.1, rfl, hnew.2.1⟩
    · exact .inl rfl

end

/-! ## Pruning -/

section
variable {site : Site}

/-- The links that the loop of `_prune` takes out, with some gone before. -/
def prunedBy (index : Path) (fs : Nodes) (gone : List Path) : List String → List Path
  | [] => gone
  | name :: rest =>
      if isLink fs (index ++ [name]) && !Resolves (without fs gone) (index ++ [name]) then
        prunedBy index fs ((index ++ [name]) :: gone) rest
      else prunedBy index fs gone rest

theorem mem_prunedBy {index : Path} {fs : Nodes} {gone : List Path} {names : List String} {p : Path}
    (h : p ∈ prunedBy index fs gone names) : p ∈ gone ∨ ∃ name ∈ names, p = index ++ [name] ∧
      isLink fs p = true := by
  induction names generalizing gone with
  | nil => exact .inl h
  | cons name rest ih =>
      rw [prunedBy] at h
      split_ifs at h with hout
      · rcases ih h with hmem | ⟨n, hn, hp⟩
        · rcases List.mem_cons.mp hmem with rfl | hmem
          · rw [Bool.and_eq_true] at hout
            exact .inr ⟨name, List.mem_cons_self, rfl, hout.1⟩
          · exact .inl hmem
        · exact .inr ⟨n, List.mem_cons_of_mem name hn, hp⟩
      · rcases ih h with hmem | ⟨n, hn, hp⟩
        · exact .inl hmem
        · exact .inr ⟨n, List.mem_cons_of_mem name hn, hp⟩

theorem subset_prunedBy (index : Path) (fs : Nodes) (gone : List Path) (names : List String) :
    gone ⊆ prunedBy index fs gone names := by
  induction names generalizing gone with
  | nil => exact List.Subset.refl gone
  | cons name rest ih =>
      rw [prunedBy]
      split_ifs
      · exact fun q hq => ih _ (List.mem_cons_of_mem _ hq)
      · exact ih gone

theorem isLink_without {fs : Nodes} {gone : List Path} {p : Path} (h : p ∉ gone) :
    isLink (without fs gone) p = isLink fs p := by
  rw [isLink, isLink, get?_without, if_neg h]

theorem pruneLoop_snd {fs : Nodes} (hlaid : Laid fs site.index)
    (hvalid : ∀ name k, Dict.get? fs (site.index ++ [name]) = some k → Valid name)
    {gone : List Path} (hgone : ∀ q ∈ gone, isLink fs q = true) {names : List String}
    (hnodup : names.Nodup) (hfresh : ∀ name ∈ names, site.index ++ [name] ∉ gone)
    (removed : List String) :
    (pruneLoop site.index names (without fs gone) removed).2 =
      without fs (prunedBy site.index fs gone names) := by
  induction names generalizing gone removed with
  | nil => rfl
  | cons name rest ih =>
      obtain ⟨hnot, hnodup⟩ := List.nodup_cons.mp hnodup
      have hhere := hfresh name List.mem_cons_self
      have hrest : ∀ n ∈ rest, site.index ++ [n] ∉ gone := fun n hn =>
        hfresh n (List.mem_cons_of_mem name hn)
      rw [pruneLoop, isLink_without hhere, prunedBy]
      by_cases hlink : isLink fs (site.index ++ [name]) = true
      · rw [if_neg (not_not.mpr hlink), hlink, Bool.true_and]
        by_cases hres : Resolves (without fs gone) (site.index ++ [name]) = true
        · rw [if_pos hres, if_neg (by rw [hres]; decide)]
          exact ih hgone hnodup hrest removed
        · rw [if_neg hres, if_pos (by rw [Bool.eq_false_iff.mpr hres]; rfl)]
          obtain ⟨t, ht⟩ := isLink_iff.mp hlink
          have hdirs : Laid (without fs gone) site.index := by
            refine laid_without hlaid fun q hq hdir => ?_
            obtain ⟨t', ht'⟩ := isLink_iff.mp (hgone q hq)
            rw [hdir] at ht'
            cases ht'
          have htarget := target_entry hdirs (hvalid name _ ht)
            (by rw [get?_without, if_neg hhere, ht]) (by simp)
          rw [htarget]
          dsimp only
          rw [erase_without]
          refine ih (fun q hq => ?_) hnodup (fun n hn hmem => ?_) _
          · rcases List.mem_cons.mp hq with rfl | hq
            · exact hlink
            · exact hgone q hq
          · rcases List.mem_cons.mp hmem with heq | hmem
            · have hsame : n = name := by simpa using heq
              exact hnot (hsame ▸ hn)
            · exact hrest n hn hmem
      · rw [if_pos hlink, if_neg (by rw [Bool.eq_false_iff.mpr hlink, Bool.false_and]; decide)]
        exact ih hgone hnodup hrest removed

theorem without_congr {fs : Nodes} {gone gone' : List Path} (h : ∀ p, p ∈ gone ↔ p ∈ gone') :
    without fs gone = without fs gone' := by
  rw [without, without]
  refine List.filter_congr fun e _ => ?_
  rw [Bool.eq_iff_iff, decide_eq_true_iff, decide_eq_true_iff, h]

theorem mem_danglingOf {names : List String} {name : String} :
    site.index ++ [name] ∈ danglingOf site names ↔ name ∈ names ∧
      isLink site.nodes (site.index ++ [name]) = true ∧
        Resolves site.nodes (site.index ++ [name]) = false := by
  rw [danglingOf, List.mem_map]
  constructor
  · rintro ⟨n, hn, heq⟩
    have hsame : n = name := by simpa using heq
    subst hsame
    obtain ⟨hmem, hkept⟩ := List.mem_filter.mp hn
    rw [Bool.and_eq_true, Bool.not_eq_true'] at hkept
    exact ⟨hmem, hkept⟩
  · rintro ⟨hmem, hlink, hres⟩
    refine ⟨name, List.mem_filter.mpr ⟨hmem, ?_⟩, rfl⟩
    rw [hlink, hres]
    rfl

theorem danglingOf_concat (names : List String) (name : String) :
    danglingOf site (names ++ [name]) = danglingOf site names ++
      if isLink site.nodes (site.index ++ [name]) && !Resolves site.nodes (site.index ++ [name]) then
        [site.index ++ [name]] else [] := by
  rw [danglingOf, danglingOf, List.filter_append, List.map_append, List.filter_singleton]
  congr 1
  cases isLink site.nodes (site.index ++ [name]) && !Resolves site.nodes (site.index ++ [name]) <;>
    rfl

/-- What is taken out is what dangles exactly when no link resolves otherwise once the dangling
ones before it are gone. -/
theorem steady_iff {before rest : List String} {gone : List Path} (hnodup : (before ++ rest).Nodup)
    (hgone : ∀ p, p ∈ gone ↔ p ∈ danglingOf site before) :
    (∀ p, p ∈ prunedBy site.index site.nodes gone rest ↔ p ∈ danglingOf site (before ++ rest)) ↔
      ∀ front name after, rest = front ++ name :: after →
        isLink site.nodes (site.index ++ [name]) = true →
          Resolves (without site.nodes (danglingOf site (before ++ front))) (site.index ++ [name]) =
            Resolves site.nodes (site.index ++ [name]) := by
  induction rest generalizing before gone with
  | nil =>
      rw [List.append_nil]
      refine iff_of_true hgone fun front name after heq => ?_
      cases front <;> cases heq
  | cons name rest ih =>
      have hsplit : before ++ name :: rest = (before ++ [name]) ++ rest := by simp
      have hfronts : ∀ {P : List String → String → Prop}, (∀ front n after,
          name :: rest = front ++ n :: after → P (before ++ front) n) ↔
            P before name ∧ ∀ front n after, rest = front ++ n :: after →
              P ((before ++ [name]) ++ front) n := by
        intro P
        constructor
        · intro h
          refine ⟨by simpa using h [] name rest rfl, fun front n after heq => ?_⟩
          have hlonger := h (name :: front) n after (by rw [heq]; rfl)
          rwa [List.append_assoc]
        · rintro ⟨hhead, htail⟩ front n after heq
          cases front with
          | nil =>
              cases heq
              rwa [List.append_nil]
          | cons m front =>
              obtain ⟨rfl, hrest⟩ := List.cons.inj heq
              have hlonger := htail front n after hrest
              rwa [List.append_assoc] at hlonger
      have hnodup' := hnodup
      rw [hsplit] at hnodup'
      have hplace : site.index ++ [name] ∉ gone := by
        rw [hgone, mem_danglingOf]
        rintro ⟨hmem, -⟩
        exact (List.nodup_append.mp hnodup).2.2 name hmem name List.mem_cons_self rfl
      rw [hfronts (P := fun names n => isLink site.nodes (site.index ++ [n]) = true →
        Resolves (without site.nodes (danglingOf site names)) (site.index ++ [n]) =
          Resolves site.nodes (site.index ++ [n])), ← without_congr hgone, prunedBy, hsplit]
      by_cases hlink : isLink site.nodes (site.index ++ [name]) = true
      · by_cases hsame : Resolves (without site.nodes gone) (site.index ++ [name]) =
            Resolves site.nodes (site.index ++ [name])
        · rw [and_iff_right fun _ => hsame, hsame, ← apply_ite (fun gone =>
            prunedBy site.index site.nodes gone rest)]
          refine ih hnodup' fun p => ?_
          rw [danglingOf_concat, List.mem_append, ← hgone]
          split_ifs
          · rw [List.mem_cons, List.mem_singleton, or_comm]
          · rw [or_iff_left List.not_mem_nil]
        · refine iff_of_false (fun h => ?_) fun h => hsame (h.1 hlink)
          have hmem := h (site.index ++ [name])
          rw [mem_danglingOf] at hmem
          cases hres : Resolves site.nodes (site.index ++ [name]) with
          | false =>
              -- it dangles, and resolves when its turn comes
              have hlater : Resolves (without site.nodes gone) (site.index ++ [name]) = true := by
                rw [hres, Bool.not_eq_false] at hsame
                exact hsame
              rw [hlater, Bool.not_true, Bool.and_false, if_neg (by decide)] at hmem
              rcases mem_prunedBy (hmem.mpr ⟨by simp, hlink, hres⟩) with hin | ⟨n, hn, heq, -⟩
              · exact hplace hin
              · have hsame' : name = n := by simpa using heq
                subst hsame'
                exact (List.nodup_cons.mp (List.nodup_append.mp hnodup).2.1).1 hn
          | true =>
              -- it resolves, and dangles when its turn comes
              have hlater : Resolves (without site.nodes gone) (site.index ++ [name]) = false := by
                rw [hres, Bool.not_eq_true] at hsame
                exact hsame
              rw [hlater, hlink, if_pos (by decide)] at hmem
              have hin := hmem.mp (subset_prunedBy _ _ _ _ List.mem_cons_self)
              rw [hres] at hin
              exact absurd hin.2.2 (by decide)
      · rw [and_iff_right fun h => absurd h hlink, Bool.eq_false_iff.mpr hlink, Bool.false_and,
          if_neg (by decide)]
        refine ih hnodup' fun p => ?_
        rw [danglingOf_concat, Bool.eq_false_iff.mpr hlink, Bool.false_and, if_neg (by decide),
          List.append_nil]
        exact hgone p

end

/-! ## What a call removes -/

section
variable {site : Site}

/-- Where a file is in the way of the index, there is no link in it. -/
theorem not_isLink_of_blocked (h : blocked site.nodes site.index = true) (name : String) :
    isLink site.nodes (site.index ++ [name]) = false := by
  by_contra hlink
  obtain ⟨t, ht⟩ := isLink_iff.mp (Bool.not_eq_false _ ▸ hlink)
  rw [blocked_eq_false (laid_of_entry ht)] at h
  cases h

theorem removesOnly_self {gone : Path → Prop} (h : ∀ p, ¬ gone p) :
    RemovesOnly site gone site.nodes :=
  ⟨fun p hp => absurd hp (h p), fun _ _ => .inl rfl⟩

/-- The first round makes the index. -/
theorem forgetLoop_made (hfree : blocked site.nodes site.index = false) (name : String)
    (rest : List String) (removed : List (String × Option Path)) :
    forgetLoop site.index (name :: rest) site.nodes removed =
      forgetLoop site.index (name :: rest) (mkdirs site.nodes site.index) removed := by
  have hlaid := laid_mkdirs hfree
  rw [forgetLoop, forgetLoop, hfree, blocked_eq_false hlaid, if_neg (by decide),
    if_neg (by decide), mkdirs_laid hlaid]

theorem forget_iff (names : List String) :
    RemovesOnly site (Named site names) (forget site.index names true site.nodes).2 ↔
      blocked site.nodes site.index = true ∨ Clears site names [] names := by
  rw [forget]
  cases names with
  | nil =>
      rw [if_pos rfl]
      refine iff_of_true (removesOnly_self fun p hp => ?_) (.inr trivial)
      obtain ⟨name, hname, -⟩ := hp
      exact absurd hname List.not_mem_nil
  | cons name rest =>
      rw [if_neg (List.cons_ne_nil name rest), if_pos rfl]
      cases hblocked : blocked site.nodes site.index with
      | true =>
          have hstop : (forgetLoop site.index (name :: rest) site.nodes []).2 = site.nodes := by
            rw [forgetLoop, if_pos hblocked]
          refine iff_of_true ?_ (.inl rfl)
          dsimp only
          rw [hstop]
          refine removesOnly_self fun p hp => ?_
          obtain ⟨n, -, rfl, hlink⟩ := hp
          rw [not_isLink_of_blocked hblocked] at hlink
          cases hlink
      | false =>
          have hlaid := laid_mkdirs hblocked
          have hloop := forgetLoop_snd hlaid (List.forall_mem_nil _) (name :: rest) []
          rw [without_nil] at hloop
          dsimp only
          rw [forgetLoop_made hblocked, hloop, or_iff_right (by decide),
            removesOnly_iff (fun p hp => named_made hp)
              (goneBy_get? fun q hq => absurd hq List.not_mem_nil)]
          refine clears_iff hlaid (fun p hp => absurd hp List.not_mem_nil) fun p hp => ?_
          obtain ⟨n, hn, heq, -⟩ := hp
          exact .inr ⟨n, hn, heq⟩

/-- The links that dangle are those of the listing that do. -/
theorem dangling_iff (order : DirOrder) (p : Path) :
    Dangling site p ↔ p ∈ danglingOf site (order.list site.nodes site.index) := by
  constructor
  · rintro ⟨name, rfl, hlink, hres⟩
    obtain ⟨t, ht⟩ := isLink_iff.mp hlink
    exact mem_danglingOf.mpr ⟨(order.mem_list _ _ _).mpr (by rw [ht]; rfl), hlink, hres⟩
  · intro hp
    obtain ⟨name, -, rfl⟩ := List.mem_map.mp hp
    obtain ⟨-, hlink, hres⟩ := mem_danglingOf.mp hp
    exact ⟨name, rfl, hlink, hres⟩

/-- Where the index is not there, there is nothing in it before or after it is made. -/
theorem list_made (order : DirOrder) (hnot : ¬ Laid site.nodes site.index) :
    order.list (mkdirs site.nodes site.index) site.index = [] := by
  rw [List.eq_nil_iff_forall_not_mem]
  intro name hmem
  rw [order.mem_list, get?_mkdirs] at hmem
  split_ifs at hmem with hnew
  · have hlen := hnew.2.1.length_le
    rw [List.length_append, List.length_singleton] at hlen
    omega
  · obtain ⟨k, hk⟩ := Option.isSome_iff_exists.mp hmem
    exact hnot (laid_of_entry hk)

theorem prune_iff (order : DirOrder) :
    RemovesOnly site (Dangling site) (prune site.index order site.nodes).2 ↔ Steady site order := by
  rw [prune]
  by_cases hlaid : Laid site.nodes site.index
  · have hvalid : ∀ name k, Dict.get? site.nodes (site.index ++ [name]) = some k → Valid name :=
      fun name k hget => site.valid _ _ hget name (by simp)
    have hloop := pruneLoop_snd hlaid hvalid (List.forall_mem_nil _)
      (order.nodup site.nodes site.index) (fun _ _ => List.not_mem_nil) []
    rw [without_nil] at hloop
    rw [blocked_eq_false hlaid, if_neg (by decide)]
    dsimp only
    have hmade : mkdirs site.nodes site.index = site.nodes := mkdirs_laid hlaid
    let out := prunedBy site.index site.nodes [] (order.list site.nodes site.index)
    have hiff : RemovesOnly site (Dangling site)
        (without (mkdirs site.nodes site.index) out) ↔ ∀ p, p ∈ out ↔ Dangling site p :=
      removesOnly_iff (fun p hp => ?_) fun p hp => ?_
    · rw [hmade] at hiff ⊢
      rw [hloop, hiff]
      simp only [dangling_iff order]
      have hnodup : ([] ++ order.list site.nodes site.index).Nodup := order.nodup _ _
      exact steady_iff hnodup fun p => Iff.rfl
    · obtain ⟨name, rfl, hlink, -⟩ := hp
      obtain ⟨t, ht⟩ := isLink_iff.mp hlink
      exact ⟨t, by rw [hmade, ht]⟩
    · rcases mem_prunedBy hp with hin | ⟨name, -, -, hlink⟩
      · exact absurd hin List.not_mem_nil
      · obtain ⟨t, ht⟩ := isLink_iff.mp hlink
        exact ⟨.link t, by rw [hmade, ht], by simp⟩
  · have hnone : ∀ name, isLink site.nodes (site.index ++ [name]) = false := by
      intro name
      by_contra hlink
      obtain ⟨t, ht⟩ := isLink_iff.mp (Bool.not_eq_false _ ▸ hlink)
      exact hlaid (laid_of_entry ht)
    have hempty : ∀ p, ¬ Dangling site p := by
      rintro p ⟨name, rfl, hlink, -⟩
      rw [hnone] at hlink
      cases hlink
    refine iff_of_true ?_ fun before name after _ hlink => ?_
    · split_ifs with hblocked
      · exact removesOnly_self hempty
      · dsimp only
        rw [list_made order hlaid]
        refine ⟨fun p hp => absurd hp (hempty p), fun p _ => ?_⟩
        rw [pruneLoop, get?_mkdirs]
        split_ifs with hnew
        · exact .inr ⟨hnew.1, rfl, hnew.2.1⟩
        · exact .inl rfl
    · rw [hnone] at hlink
      cases hlink

end

/-- A call removes exactly the links of the index that it is to remove when, and only when, its
names and the state of the index can be trusted with it. -/
theorem index_removal_iff (site : Site) (order : DirOrder) (action : Action)
    (names : Option (List String)) (name : String) (confirm : Bool) :
    Exact site order action names name confirm ↔ Harmless site order action names name confirm := by
  cases action with
  | forget =>
      rw [Exact, Harmless, main]
      cases confirm with
      | true =>
          rw [if_pos rfl, forget_iff]
          exact ⟨fun h _ => h, fun h => h rfl⟩
      | false =>
          refine iff_of_true ?_ nofun
          rw [if_neg (by decide), forget]
          by_cases hnone : selected name names = []
          · rw [if_pos hnone]
          · rw [if_neg hnone, if_neg (by decide)]
  | prune =>
      rw [Exact, Harmless, main]
      exact prune_iff order

/-! ## A name that is no name of an entry -/

instance (c : String) : Decidable (Valid c) := inferInstanceAs (Decidable (_ ∧ _))

/-- A site whose places are told to be in order by going through them. -/
def siteOf (nodes : Nodes) (index : Path) (hvalid : ∀ e ∈ nodes, ∀ c ∈ e.1, Valid c)
    (hclosed : ∀ e ∈ nodes, ∀ q ∈ e.1.inits, q ≠ [] → q ≠ e.1 → Dict.get? nodes q = some .dir)
    (hindex : ∀ c ∈ index, Valid c) (hdirect : ∀ q ∈ index.inits, isLink nodes q = false) : Site where
  nodes := nodes
  index := index
  valid p k h := hvalid (p, k) (Dict.mem_of_get? h)
  closed p k h q hq := hclosed (p, k) (Dict.mem_of_get? h) q ((List.mem_inits q p).mpr hq)
  validIndex := hindex
  direct q hq := hdirect q ((List.mem_inits q index).mpr hq)

/-- An index with a build, beside the registry of peers. -/
def sampleSite : Site :=
  siteOf [(["system"], .dir), (["system", "peers"], .file "builder"),
    (["system", "store-index"], .dir),
    (["system", "store-index", "qemu-1"], .link "/nix/store/abc-qemu-1")]
    ["system", "store-index"] (by decide +kernel) (by decide +kernel) (by decide +kernel)
    (by decide +kernel)

/-- Not every call removes only what it is to remove: a name may lead out of the index. -/
theorem forget_leaves_index : ¬ ∀ (site : Site) (order : DirOrder) (action : Action)
    (names : Option (List String)) (name : String) (confirm : Bool),
      Exact site order action names name confirm := by
  intro h
  have hexact : RemovesOnly sampleSite (Named sampleSite ["../peers"])
      (forget sampleSite.index ["../peers"] true sampleSite.nodes).2 :=
    h sampleSite byNodes .forget (some ["../peers"]) "" true
  have hnot : ¬ Named sampleSite ["../peers"] ["system", "peers"] := by
    rintro ⟨name, hname, heq, -⟩
    rw [List.mem_singleton.mp hname] at heq
    exact absurd heq (by decide)
  rcases hexact.kept ["system", "peers"] hnot with hkept | ⟨-, hdir, -⟩
  · exact absurd hkept (by decide +kernel)
  · exact absurd hdir (by decide +kernel)

end KdevopsNg.Common.StoreIndex
