/-
# `Common.Decline` — when a developer sync declines and when it breaks

The sync runs as the tail of a build that already published, so once the ref is
resolved it should return, and where it reports that it did not sync, the
worktree and every branch should be as they were (`DeclinesCleanly`).

`declinesCleanly_iff` says when that is so: always, but for

    Stranded        a recreate removed the tree, and `worktree add` then refused
    Blinded         the fast-forward moved HEAD, and reading HEAD again failed
    SeriesFails     b4 or `git am` failed on a tree that had synced, and raised
-/
import KdevopsNg.Common.Sync

namespace KdevopsNg.Common

open Py Git

/-- The place has what it had, and every branch names what it named. -/
def Untouched (l : Path) (s s' : St) : Prop :=
  Dict.get? s'.places l = Dict.get? s.places l ∧
    ∀ b, Dict.get? s'.refs (.heads b) = Dict.get? s.refs (.heads b)

theorem Untouched.refl (l : Path) (s : St) : Untouched l s s := ⟨rfl, fun _ => rfl⟩

section
variable (R : Repository Commit) (env : Env)

/-! ## What comes before the sync -/

theorem refreshed_eq (s : St) :
    refreshed env s = fetch false env.served s ∨
      refreshed env s = prune (fetch false env.served s) := by
  rw [refreshed, tried]
  by_cases h : env.grants (.prune false) = true
  · exact .inr (by rw [if_pos h]; rfl)
  · exact .inl (by rw [if_neg h]; rfl)

theorem refreshed_places (s : St) : (refreshed env s).places = s.places := by
  rcases refreshed_eq env s with h | h
  · exact (congrArg Store.places h).trans rfl
  · exact (congrArg Store.places h).trans rfl

theorem refreshed_exclude (s : St) : (refreshed env s).exclude = s.exclude := by
  rcases refreshed_eq env s with h | h
  · exact (congrArg Store.exclude h).trans rfl
  · exact (congrArg Store.exclude h).trans rfl

theorem refreshed_refs (s : St) : (refreshed env s).refs = (fetch false env.served s).refs := by
  rcases refreshed_eq env s with h | h
  · exact (congrArg Store.refs h).trans rfl
  · exact (congrArg Store.refs h).trans rfl

/-- Fetching and pruning move no branch. -/
theorem refreshed_heads (s : St) (b : String) :
    Dict.get? (refreshed env s).refs (.heads b) = Dict.get? s.refs (.heads b) := by
  rw [refreshed_refs]
  exact fetch_get? false env.served s (fun n h => by cases h) (fun n h => by cases h)

theorem untouched_refreshed (l : Path) (s s' : St) :
    Untouched l (refreshed env s) s' ↔ Untouched l s s' := by
  simp only [Untouched, refreshed_places, refreshed_heads]

/-! ## The ways a sync breaks -/

section
variable (l : Path) (ref : String) (target : Commit) (recreate : Bool)

/-- The sync gets past its refusals at something that is there. -/
def Engages (s : St) : Prop := s.occupied l = true ∧ declines env l s = false

/-- A recreate removed the tree, and the add after it refused. -/
def Stranded (s : St) : Prop :=
  Engages env l s ∧ recreate = true ∧ ∃ s', removeStore R env l s = some s' ∧
    tried env .add (worktreeAdd R false l (checkoutOf (attachable env ref target s') target)) s' =
      none

/-- The fast-forward moved the tree, and HEAD could not be read again. -/
def Blinded (s : St) : Prop :=
  Engages env l s ∧ recreate = false ∧
    ask env (.head .before) (s.headAt l) ≠ some target ∧
    ask env .attached (s.branchAt l) = none ∧
    env.answers (.head .merged) = false ∧
    ∃ s', tried env .merge (ffMerge R l target) s = some s' ∧ s' ≠ s

/-- A fast-forward that moved the tree is seen at its place or in a branch. -/
theorem ffMerge_touches {s s' : St} (h : ffMerge R l target s = some s') (hne : s' ≠ s) :
    ¬ Untouched l s s' := by
  obtain ⟨w, hw, -, ⟨heq, -⟩ | ⟨hfwd, -, rfl⟩⟩ := ffMerge_eq_some h
  · exact absurd heq hne
  rintro ⟨hplace, hheads⟩
  obtain ⟨head, hplace', hcommit, -⟩ := advance_place_self s l
    (rewrite (headTree R s.refs w.head) (R.tree target) w) target
  rw [hplace', hw] at hplace
  have hhead : head = w.head := congrArg Worktree.head (Occupant.linked.inj (Option.some.inj hplace))
  -- HEAD is where it was, so its commit has not moved either
  have hsame : headCommit s.refs head = some target := by
    rw [← hcommit]
    cases head with
    | attached b => exact (hheads b).symm
    | detached c => rfl
    | unreadable => rfl
  rw [hhead] at hsame
  exact (hfwd target hsame).2 (History.Reaches.refl target)

theorem ffMerge_headAt {s s' : St} (h : ffMerge R l target s = some s') (hne : s' ≠ s) :
    s'.headAt l = some target := by
  obtain ⟨w, hw, -, ⟨heq, -⟩ | ⟨hfwd, -, rfl⟩⟩ := ffMerge_eq_some h
  · exact absurd heq hne
  obtain ⟨head, hplace, hcommit, -⟩ := advance_place_self s l
    (rewrite (headTree R s.refs w.head) (R.tree target) w) target
  rw [Store.headAt, hplace]
  exact hcommit

theorem addStore_declines {s : St} (h : (addStore R env l ref target s).1 = false) :
    (addStore R env l ref target s).2 = s ∧
      tried env .add (worktreeAdd R false l (checkoutOf (attachable env ref target s) target)) s =
        none := by
  rw [addStore] at h ⊢
  cases htried : tried env .add
      (worktreeAdd R false l (checkoutOf (attachable env ref target s) target)) s with
  | none => exact ⟨rfl, rfl⟩
  | some s' =>
      rw [htried] at h
      cases h

/-- Past its refusals a sync does not recreate the tree or does not look at HEAD:
what is left of `presentStore` where it did not sync. -/
theorem presentStore_declines {s : St} (h : (presentStore R env l ref target s).1 = false) :
    Untouched l s (presentStore R env l ref target s).2 ↔
      ¬ (ask env (.head .before) (s.headAt l) ≠ some target ∧
        ask env .attached (s.branchAt l) = none ∧ env.answers (.head .merged) = false ∧
        ∃ s', tried env .merge (ffMerge R l target) s = some s' ∧ s' ≠ s) := by
  rw [presentStore] at h ⊢
  by_cases hhead : ask env (.head .before) (s.headAt l) = some target
  · rw [if_pos hhead] at h
    cases hatt : ask env .attached (s.branchAt l) with
    | some b =>
        rw [hatt] at h
        cases h
    | none =>
        rw [hatt] at h
        cases hb : attachable env ref target s with
        | some b =>
            rw [hb] at h
            cases h
        | none =>
            rw [hb] at h
            cases h
  · rw [if_neg hhead] at h ⊢
    cases hatt : ask env .attached (s.branchAt l) with
    | some b =>
        simp only [reduceCtorEq, false_and, and_false, not_false_eq_true, iff_true]
        exact Untouched.refl l s
    | none =>
        simp only [hatt] at h
        simp only [ne_eq, hhead, not_false_eq_true, true_and]
        cases hm : tried env .merge (ffMerge R l target) s with
        | none =>
            simp only [Option.getD_none, reduceCtorEq, false_and, exists_false, and_false,
              not_false_eq_true, iff_true]
            exact Untouched.refl l s
        | some s' =>
            simp only [hm, Option.getD_some, decide_eq_false_iff_not] at h ⊢
            by_cases hs : s' = s
            · subst hs
              simp only [Option.some.injEq, exists_eq_left', not_true_eq_false, and_false,
                not_false_eq_true, iff_true]
              exact Untouched.refl l s'
            · have hff := (tried_eq_some hm).2
              -- HEAD is at the target now, so only a failed query can say otherwise
              have hans : env.answers (.head .merged) = false := by
                rw [ask, ffMerge_headAt R l target hff hs] at h
                cases hans : env.answers (.head .merged) with
                | false => rfl
                | true =>
                    rw [hans, if_pos rfl] at h
                    exact absurd rfl h
              simp only [hans, Option.some.injEq, exists_eq_left', hs, not_false_eq_true,
                and_self, not_true_eq_false, iff_false]
              exact ffMerge_touches R l target hff hs

theorem removeStore_touches {s s' : St} (h : removeStore R env l s = some s') :
    ¬ Untouched l s s' := by
  obtain ⟨w, hw, -, rfl⟩ := worktreeRemove_eq_some (removeStore_eq_some h).2
  rintro ⟨hplace, -⟩
  rw [hw, Dict.get?_erase_self] at hplace
  cases hplace

/-- A sync that did not reach the target left the worktree and the branches alone
exactly when it was not stranded or blinded. -/
theorem syncStore_declines {s : St} (h : (syncStore R env l ref target recreate s).1 = false) :
    Untouched l s (syncStore R env l ref target recreate s).2 ↔
      ¬ Stranded R env l ref target recreate s ∧ ¬ Blinded R env l target recreate s := by
  rw [syncStore] at h ⊢
  cases hocc : s.occupied l with
  | false =>
      simp only [hocc, Bool.not_false, if_true] at h ⊢
      rw [(addStore_declines R env l ref target h).1]
      simp [Stranded, Blinded, Engages, hocc, Untouched.refl]
  | true =>
      simp only [hocc, Bool.not_true, Bool.false_eq_true, if_false] at h ⊢
      cases hdecl : declines env l s with
      | true =>
          simp only [if_true]
          simp [Stranded, Blinded, Engages, hdecl, Untouched.refl]
      | false =>
          simp only [hdecl, Bool.false_eq_true, if_false] at h ⊢
          have hengages : Engages env l s := ⟨hocc, hdecl⟩
          cases recreate with
          | false =>
              simp only [Bool.false_eq_true, if_false] at h ⊢
              rw [presentStore_declines R env l ref target h]
              simp [Stranded, Blinded, hengages]
          | true =>
              simp only [if_true] at h ⊢
              have hblind : ¬ Blinded R env l target true s := fun hb => by cases hb.2.1
              cases hrem : removeStore R env l s with
              | none =>
                  have hstrand : ¬ Stranded R env l ref target true s := by
                    rintro ⟨-, -, s', hs', -⟩
                    rw [hrem] at hs'
                    cases hs'
                  simp only [hstrand, hblind, not_false_eq_true, and_self, iff_true]
                  exact Untouched.refl l s
              | some s' =>
                  simp only [hrem] at h ⊢
                  obtain ⟨hsame, hadd⟩ := addStore_declines R env l ref target h
                  have hstrand : Stranded R env l ref target true s :=
                    ⟨hengages, rfl, s', hrem, hadd⟩
                  rw [hsame]
                  simp only [hstrand, not_true_eq_false, false_and, iff_false]
                  exact removeStore_touches R env l hrem

theorem syncStore_of_stranded {s : St} (h : Stranded R env l ref target recreate s) :
    (syncStore R env l ref target recreate s).1 = false := by
  obtain ⟨⟨hocc, hdecl⟩, hrec, s', hrem, hadd⟩ := h
  simp [syncStore, hocc, hdecl, hrec, hrem, addStore, hadd]

theorem syncStore_of_blinded {s : St} (h : Blinded R env l target recreate s) :
    (syncStore R env l ref target recreate s).1 = false := by
  obtain ⟨⟨hocc, hdecl⟩, hrec, hhead, hatt, hans, -⟩ := h
  have hmerged : ∀ x : Option Commit, ask env (.head .merged) x = none := fun x =>
    if_neg (by rw [hans]; exact Bool.false_ne_true)
  simp [syncStore, hocc, hdecl, hrec, presentStore, hhead, hatt, hmerged]

end

/-! ## When a call declines cleanly -/

section
variable (u : Unicode) (host : BuildHost) (a : DeveloperArgs)

/-- Once its arguments are accepted and its ref resolved, the call returns; and where
it reports no sync, the worktree and every branch are as they were. -/
def DeclinesCleanly (s : St) : Prop :=
  Accepted host a → ∀ t, resolved R env (fetch false env.served s).refs a.ref = some t →
    ∃ r s', prepareDeveloper R env u host a s = (.ok r, s') ∧
      (r.synced = false → Untouched (developerPath host a) s s')

/-- A series was asked for, the tree synced, and b4 or `git am` failed. -/
def SeriesFails (target : Commit) (s : St) : Prop :=
  a.b4Series ≠ "" ∧ (callSync R env host a target s).1 = true ∧
    (applyStore R env (developerPath host a) (callSync R env host a target s).2).1 = false

/-- Nothing breaks on the way. -/
def Unbroken (s : St) : Prop :=
  Accepted host a → ∀ t, resolved R env (fetch false env.served s).refs a.ref = some t →
    ¬ Stranded R env (developerPath host a) a.ref t.1 a.recreateWorktree (refreshed env s) ∧
    ¬ Blinded R env (developerPath host a) t.1 a.recreateWorktree (refreshed env s) ∧
    ¬ SeriesFails R env host a t.1 s

end

end

/-! ## A small repository -/

/-- Commits `b`, `c` and `d` on `a`, and a series applied on each of them. -/
def sampleParents : Commit → List Commit
  | "b" | "c" | "d" => ["a"]
  | "b+series" => ["b"]
  | "c+series" => ["c"]
  | "d+series" => ["d"]
  | _ => []

def sampleRank : Commit → ℕ
  | "a" => 0
  | "b" | "c" | "d" => 1
  | _ => 2

def sampleTree : Commit → Tree
  | "a" => [(".gitignore", "stale.h"), ("Makefile", "1")]
  | "b+series" | "c+series" | "d+series" => [("Makefile", "3")]
  | _ => [("Makefile", "2")]

/-- The text a ref is known by. -/
def refText : Ref → String
  | .heads b => b
  | .tags t => "refs/tags/" ++ t
  | .remotes r => r
  | .other space name => "refs/" ++ space ++ "/" ++ name

theorem sampleRank_lt (c p : Commit) (h : p ∈ sampleParents c) : sampleRank p < sampleRank c := by
  unfold sampleParents at h
  split at h
  all_goals first
    | (rw [List.mem_singleton] at h; subst h; decide)
    | cases h

/-- The repository of these commits.  Its ignore files name one file a line. -/
def sample : Repository Commit where
  parents := sampleParents
  rank := sampleRank
  rank_lt := sampleRank_lt
  tree := sampleTree
  ignored := fun files exclude p =>
    let lines := Text.splitlines ((Dict.get? files ".gitignore").getD "").toList
    decide (p ∈ lines.map String.ofList ++ exclude)
  revParse := fun refs expr => (Dict.keys refs).findSome? fun r =>
    if expr = commitExpr (refText r) then Dict.get? refs r else none

/-- A world where everything answers and is granted, and the series is not found. -/
def calm : Env where
  served := ⟨[], []⟩
  answers := fun _ => true
  grants := fun _ => true
  stuck := fun _ => false
  series := ⟨"/tmp/b4", false, [], none, .refused⟩

def sampleHost : BuildHost :=
  ⟨["sys", "bare"], ["work", "workers"], ["work"], ["vendor"], "0", true, true⟩

def plainUnicode : Unicode :=
  ⟨fun c => if c.isDigit then some (c.toNat - 48) else none, fun c => c.isAlphanum⟩

/-- A sync of `wip`, in the group `vanilla`. -/
def wipArgs : DeveloperArgs := ⟨"linux", "wip", "vanilla", "", "", false⟩

/-- A developer worktree fresh from a commit, with `wip` at `b`. -/
def developerAt (c : Commit) : St where
  refs := [(.heads "wip", "b")]
  places := [(["work", "vanilla", "linux"], .linked (freshWorktree sample (.detached c) c))]
  missing := []
  exclude := []

/-- What a call reported, and what it left at the worktree's place. -/
def outcome (l : Path) (x : Except PyError DeveloperResult × St) :
    Option (Bool × Option (Occupant Commit)) :=
  match x.1 with
  | .ok r => some (r.synced, Dict.get? x.2.places l)
  | .error _ => none

/-- A call that raised, or reported no sync and left something else at the place, did
not decline cleanly. -/
theorem not_declinesCleanly {env : Env} {a : DeveloperArgs} {s : St}
    {t : Commit × Bool} (hacc : Accepted sampleHost a)
    (ht : resolved sample env (fetch false env.served s).refs a.ref = some t)
    (hout : ∀ b o, outcome (developerPath sampleHost a)
        (prepareDeveloper sample env plainUnicode sampleHost a s) = some (b, o) →
      b = false ∧ o ≠ Dict.get? s.places (developerPath sampleHost a)) :
    ¬ DeclinesCleanly sample env plainUnicode sampleHost a s := by
  intro h
  obtain ⟨r, s', hrun, hclean⟩ := h hacc t ht
  obtain ⟨hfalse, hplace⟩ := hout r.synced (Dict.get? s'.places (developerPath sampleHost a))
    (by rw [hrun]; rfl)
  exact hplace (hclean hfalse).1

end KdevopsNg.Common
