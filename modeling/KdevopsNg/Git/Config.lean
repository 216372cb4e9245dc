/-
# `Git.Config` — the settings of a repository's remotes

The part of a repository's config that `git remote` and `git config` read and
change: for each remote its variables (`url`, `fetch`, …), each with any number of
values.  A command that git refuses leaves the config as it was and exits nonzero:
here `none`.

Each command changes the one variable it names (`Sets`), or every variable of the
one remote it names (`SameBut`).  What git takes as the name of a remote and as a
refspec are a parameter, `Syntax`.
-/
import KdevopsNg.Py.Exec
import Mathlib.Data.List.Dedup

namespace Git

open Py

/-- A variable of a remote: `remote.<remote>.<name>`. -/
structure Variable where
  remote : String
  name : String
  deriving DecidableEq, Repr

/-- The settings of the remotes, in the order of the file. -/
abbrev Config := List (Variable × String)

/-- What git takes as the name of a remote, and as a refspec. -/
structure Syntax where
  remoteName : String → Bool
  refspec : String → Bool

namespace Config

/-- `git config --get-all`. -/
def values (c : Config) (v : Variable) : List String :=
  c.filterMap fun p => if p.1 = v then some p.2 else none

/-- `git remote`. -/
def remotes (c : Config) : List String := (c.map (·.1.remote)).dedup

/-- `git config <variable> <value>`: the one value the variable may have is replaced. -/
def set (c : Config) (v : Variable) (value : String) : Option Config :=
  if '\n' ∈ v.remote.toList then none
  else
    match values c v with
    | [] => some (c ++ [(v, value)])
    | [_] => some (c.map fun p => if p.1 = v then (v, value) else p)
    | _ => none

/-- `git config --replace-all`. -/
def replaceAll (c : Config) (v : Variable) (value : String) : Option Config :=
  if '\n' ∈ v.remote.toList then none else some (c.filter (·.1 ≠ v) ++ [(v, value)])

/-- `git config --add`. -/
def add (c : Config) (v : Variable) (value : String) : Option Config :=
  if '\n' ∈ v.remote.toList then none else some (c ++ [(v, value)])

/-- `git config --unset`. -/
def unset (c : Config) (v : Variable) : Option Config :=
  match values c v with
  | [_] => some (c.filter (·.1 ≠ v))
  | _ => none

section
variable (G : Syntax)

/-- Git reads no remote of a config that has a refspec it does not take. -/
def readable (c : Config) : Bool := c.all fun p => p.1.name ≠ "fetch" || G.refspec p.2

/-- `git remote get-url`. -/
def remoteGetUrl (name : String) (c : Config) : Bool := readable G c && decide (name ∈ remotes c)

/-- `git remote add`. -/
def remoteAdd (name url : String) (c : Config) : Option Config :=
  if readable G c ∧ name ∉ remotes c ∧ G.remoteName name then
    some (c ++ [(⟨name, "url"⟩, url),
      (⟨name, "fetch"⟩, "+refs/heads/*:refs/remotes/" ++ name ++ "/*")])
  else none

/-- `git remote set-url`. -/
def remoteSetUrl (name url : String) (c : Config) : Option Config :=
  if readable G c ∧ name ∈ remotes c then set c ⟨name, "url"⟩ url else none

/-- `git remote remove`. -/
def remoteRemove (name : String) (c : Config) : Option Config :=
  if readable G c ∧ name ∈ remotes c then some (c.filter (·.1.remote ≠ name)) else none

end

/-! ## What a command changes -/

/-- The variable has these values now, and every other has what it had. -/
structure Sets (v : Variable) (xs : List String) (c c' : Config) : Prop where
  here : values c' v = xs
  elsewhere : ∀ w, w ≠ v → values c' w = values c w

/-- Every other remote has what it had. -/
def SameBut (name : String) (c c' : Config) : Prop :=
  ∀ w : Variable, w.remote ≠ name → values c' w = values c w

theorem SameBut.refl (name : String) (c : Config) : SameBut name c c := fun _ _ => rfl

theorem SameBut.trans {name : String} {c c' c'' : Config} (h : SameBut name c c')
    (h' : SameBut name c' c'') : SameBut name c c'' := fun w hw => (h' w hw).trans (h w hw)

theorem Sets.sameBut {v : Variable} {xs : List String} {c c' : Config} (h : Sets v xs c c') :
    SameBut v.remote c c' := fun w hw => h.elsewhere w fun heq => hw (heq ▸ rfl)

theorem mem_values {c : Config} {v : Variable} {x : String} : x ∈ values c v ↔ (v, x) ∈ c := by
  rw [values, List.mem_filterMap]
  constructor
  · rintro ⟨⟨w, y⟩, hp, hx⟩
    by_cases hw : w = v
    · rw [if_pos hw] at hx
      cases hx
      rwa [hw] at hp
    · rw [if_neg hw] at hx
      cases hx
  · exact fun h => ⟨(v, x), h, if_pos rfl⟩

theorem values_append (c d : Config) (v : Variable) :
    values (c ++ d) v = values c v ++ values d v := List.filterMap_append ..

theorem values_singleton_self (v : Variable) (x : String) : values [(v, x)] v = [x] := by
  simp [values]

theorem values_singleton_ne {v w : Variable} (x : String) (h : w ≠ v) :
    values [(v, x)] w = [] := by
  simp [values, Ne.symm h]

theorem values_filter (p : Variable → Bool) (c : Config) (v : Variable) :
    values (c.filter fun e => p e.1) v = if p v then values c v else [] := by
  rw [values, values, List.filterMap_filter]
  by_cases hv : p v = true
  · rw [if_pos hv]
    refine List.filterMap_congr fun e _ => ?_
    by_cases he : e.1 = v
    · rw [if_pos he, he, if_pos hv]
    · rw [if_neg he, ite_self]
  · rw [if_neg hv, List.filterMap_eq_nil_iff]
    intro e _
    by_cases he : e.1 = v
    · rw [he, if_neg hv]
    · rw [if_neg he, ite_self]

theorem values_map_self (c : Config) (v : Variable) (x : String) :
    values (c.map fun e => if e.1 = v then (v, x) else e) v = (values c v).map fun _ => x := by
  rw [values, values, List.filterMap_map, List.map_filterMap]
  refine List.filterMap_congr fun e _ => ?_
  by_cases he : e.1 = v
  · simp [he]
  · simp [he]

theorem values_map_ne (c : Config) {v w : Variable} (x : String) (h : w ≠ v) :
    values (c.map fun e => if e.1 = v then (v, x) else e) w = values c w := by
  rw [values, values, List.filterMap_map]
  refine List.filterMap_congr fun e _ => ?_
  by_cases he : e.1 = v
  · simp [he, Ne.symm h]
  · simp [he]

theorem sets_append (c : Config) (v : Variable) (x : String) :
    Sets v (values c v ++ [x]) c (c ++ [(v, x)]) := by
  refine ⟨?_, fun w hw => ?_⟩
  · rw [values_append, values_singleton_self]
  · rw [values_append, values_singleton_ne x hw, List.append_nil]

theorem sets_filter (c : Config) (v : Variable) : Sets v [] c (c.filter (·.1 ≠ v)) := by
  have hfilter := values_filter (fun w => decide (w ≠ v)) c
  refine ⟨?_, fun w hw => ?_⟩
  · exact (hfilter v).trans (if_neg (by simp))
  · exact (hfilter w).trans (if_pos (decide_eq_true hw))

section
variable {c c' : Config} {v : Variable} {x : String}

theorem sets_add (h : add c v x = some c') : Sets v (values c v ++ [x]) c c' := by
  rw [add] at h
  split_ifs at h
  cases h
  exact sets_append c v x

theorem sets_replaceAll (h : replaceAll c v x = some c') : Sets v [x] c c' := by
  rw [replaceAll] at h
  split_ifs at h
  cases h
  have hcut := sets_filter c v
  have hput := sets_append (c.filter (·.1 ≠ v)) v x
  rw [hcut.here] at hput
  exact ⟨hput.here, fun w hw => (hput.elsewhere w hw).trans (hcut.elsewhere w hw)⟩

theorem sets_unset (h : unset c v = some c') : Sets v [] c c' := by
  rw [unset] at h
  split at h
  · cases h
    exact sets_filter c v
  · cases h

theorem sets_set (h : set c v x = some c') : Sets v [x] c c' := by
  rw [set] at h
  split_ifs at h
  split at h
  · rename_i hnone
    cases h
    have hput := sets_append c v x
    rw [hnone] at hput
    exact hput
  · rename_i old hone
    cases h
    refine ⟨?_, fun w hw => values_map_ne c x hw⟩
    rw [values_map_self, hone]
    rfl
  · cases h

/-- A variable with more values than one is not set. -/
theorem length_of_set (h : set c v x = some c') : (values c v).length ≤ 1 := by
  rw [set] at h
  split_ifs at h
  split at h
  · rename_i hnone
    rw [hnone]
    exact Nat.zero_le 1
  · rename_i old hone
    rw [hone]
    exact Nat.le_refl 1
  · cases h

/-- One with at most one value is. -/
theorem exists_set (hline : '\n' ∉ v.remote.toList) (hone : (values c v).length ≤ 1) (x : String) :
    ∃ c', set c v x = some c' := by
  rw [set, if_neg hline]
  rcases hvalues : values c v with _ | ⟨y, _ | ⟨z, rest⟩⟩
  · exact ⟨_, rfl⟩
  · exact ⟨_, rfl⟩
  · rw [hvalues, List.length_cons, List.length_cons] at hone
    omega

end

/-! ## What a command on a remote changes -/

theorem mem_remotes {c : Config} {name : String} :
    name ∈ remotes c ↔ ∃ k, values c ⟨name, k⟩ ≠ [] := by
  rw [remotes, List.mem_dedup, List.mem_map]
  constructor
  · rintro ⟨⟨⟨r, k⟩, x⟩, hp, rfl⟩
    exact ⟨k, List.ne_nil_of_mem (mem_values.mpr hp)⟩
  · rintro ⟨k, hne⟩
    obtain ⟨x, hx⟩ := List.exists_mem_of_ne_nil _ hne
    exact ⟨_, mem_values.mp hx, rfl⟩

/-- Git reads a config all of whose refspecs it takes. -/
theorem readable_iff {G : Syntax} {c : Config} :
    readable G c = true ↔ ∀ n, ∀ x ∈ values c ⟨n, "fetch"⟩, G.refspec x = true := by
  rw [readable, List.all_eq_true]
  constructor
  · intro h n x hx
    have hone := h _ (mem_values.mp hx)
    rw [Bool.or_eq_true] at hone
    exact hone.resolve_left fun hne => of_decide_eq_true hne rfl
  · rintro h ⟨⟨n, k⟩, x⟩ hp
    rw [Bool.or_eq_true]
    by_cases hk : k = "fetch"
    · rw [hk] at hp
      exact .inr (h n x (mem_values.mpr hp))
    · exact .inl (decide_eq_true hk)

theorem SameBut.mem_remotes {name other : String} {c c' : Config} (h : SameBut name c c')
    (hne : other ≠ name) : other ∈ remotes c' ↔ other ∈ remotes c := by
  rw [Config.mem_remotes, Config.mem_remotes]
  have hsame : ∀ k, values c' ⟨other, k⟩ = values c ⟨other, k⟩ := fun k => h ⟨other, k⟩ hne
  simp only [hsame]

section
variable {G : Syntax} {c c' : Config} {name url : String}

theorem remoteAdd_spec (h : remoteAdd G name url c = some c') :
    values c' ⟨name, "url"⟩ = [url] ∧
      values c' ⟨name, "fetch"⟩ = ["+refs/heads/*:refs/remotes/" ++ name ++ "/*"] ∧
      SameBut name c c' := by
  rw [remoteAdd] at h
  split_ifs at h with hnew
  cases h
  have hnone : ∀ k, values c ⟨name, k⟩ = [] := fun k => by
    by_contra hne
    exact hnew.2.1 (mem_remotes.mpr ⟨k, hne⟩)
  refine ⟨?_, ?_, fun w hw => ?_⟩
  · rw [values_append, hnone]
    simp [values]
  · rw [values_append, hnone]
    simp [values]
  · have hother : ∀ k, (⟨name, k⟩ : Variable) ≠ w := fun k heq => hw (heq ▸ rfl)
    rw [values_append]
    simp [values, hother]

theorem remoteSetUrl_spec (h : remoteSetUrl G name url c = some c') :
    Sets ⟨name, "url"⟩ [url] c c' := by
  rw [remoteSetUrl] at h
  split_ifs at h
  exact sets_set h

theorem remoteAdd_new (h : remoteAdd G name url c = some c') : name ∉ remotes c := by
  rw [remoteAdd] at h
  split_ifs at h with hnew
  exact hnew.2.1

theorem remoteRemove_spec (h : remoteRemove G name c = some c') :
    name ∉ remotes c' ∧ SameBut name c c' := by
  rw [remoteRemove] at h
  split_ifs at h
  cases h
  have hfilter := values_filter (fun w => decide (w.remote ≠ name)) c
  refine ⟨fun hmem => ?_, fun w hw => ?_⟩
  · obtain ⟨k, hk⟩ := mem_remotes.mp hmem
    exact hk ((hfilter ⟨name, k⟩).trans (if_neg (by simp)))
  · exact (hfilter w).trans (if_pos (decide_eq_true hw))

end

end Config

end Git
