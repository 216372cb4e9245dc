/-
# `Git.Commands` — refs and worktrees, as documented

Each command is a function on the store, with no result where git refuses.  What
the world decides (what a remote serves, where a patch series ends, which files
cannot be deleted) is an argument; a refusal for a reason outside the store is
the caller's to add.

    fetch             moves remote-tracking refs, and tags
    update-ref        moves one ref, or only creates it
    worktree prune    forgets the registrations of directories that are gone
    worktree add      refuses to lay a worktree over something
    worktree remove   refuses to remove one that has something to lose

The lemmas after each command say what it leaves alone.
-/
import KdevopsNg.Git.Store

namespace Git

open Py

variable {κ ℓ : Type} [DecidableEq ℓ]

/-! ## Refs -/

/-- What a remote serves: the remote-tracking refs it moves, creates or prunes, and
its tags. -/
structure Served (κ : Type) where
  remotes : Map String (Option κ)
  tags : Map String κ
  deriving DecidableEq, Repr

/-- One remote-tracking ref of a fetch. -/
def fetchRemote (refs : Map Ref κ) (e : String × Option κ) : Map Ref κ :=
  match e.2 with
  | some c => Dict.set refs (.remotes e.1) c
  | none => Dict.erase refs (.remotes e.1)

/-- One tag of a fetch: without force an existing tag stays. -/
def fetchTag (force : Bool) (refs : Map Ref κ) (e : String × κ) : Map Ref κ :=
  if force || !Dict.contains refs (.tags e.1) then Dict.set refs (.tags e.1) e.2 else refs

/-- `fetch --tags [--force] --prune`. -/
def fetch (force : Bool) (served : Served κ) (s : Store κ ℓ) : Store κ ℓ :=
  { s with refs := served.tags.foldl (fetchTag force) (served.remotes.foldl fetchRemote s.refs) }

/-- `update-ref <ref> HEAD`, with an empty old value when it may only create. -/
def updateRef (create : Bool) (r : Ref) (l : ℓ) (s : Store κ ℓ) : Option (Store κ ℓ) :=
  match s.headAt l with
  | none => none
  | some c =>
      if create && Dict.contains s.refs r then none
      else some { s with refs := Dict.set s.refs r c }

theorem get?_foldl_fetchRemote (served : Map String (Option κ)) (refs : Map Ref κ) {r : Ref}
    (h : ∀ e ∈ served, r ≠ .remotes e.1) :
    Dict.get? (served.foldl fetchRemote refs) r = Dict.get? refs r := by
  induction served generalizing refs with
  | nil => rfl
  | cons e served ih =>
      have hr := h e List.mem_cons_self
      rw [List.foldl_cons, ih _ fun d hd => h d (List.mem_cons_of_mem _ hd), fetchRemote]
      cases e.2 with
      | some c => exact Dict.get?_set_ne _ _ hr
      | none => exact Dict.get?_erase_ne _ hr

theorem get?_foldl_fetchTag (force : Bool) (served : Map String κ) (refs : Map Ref κ) {r : Ref}
    (h : ∀ n, r = .tags n → force = false ∧ Dict.contains refs r = true) :
    Dict.get? (served.foldl (fetchTag force) refs) r = Dict.get? refs r := by
  induction served generalizing refs with
  | nil => rfl
  | cons e served ih =>
      have hone : Dict.get? (fetchTag force refs e) r = Dict.get? refs r := by
        rw [fetchTag]
        by_cases hr : r = .tags e.1
        · obtain ⟨hforce, hin⟩ := h e.1 hr
          rw [hforce, ← hr, hin]
          rfl
        · by_cases hc : (force || !Dict.contains refs (.tags e.1)) = true
          · rw [if_pos hc, Dict.get?_set_ne _ _ hr]
          · rw [if_neg hc]
      rw [List.foldl_cons, ih _ (fun n hn => ⟨(h n hn).1, ?_⟩), hone]
      rw [Dict.contains, hone]
      exact (h n hn).2

omit [DecidableEq ℓ] in
/-- A fetch leaves every ref that is neither remote-tracking nor a tag. -/
theorem fetch_get? (force : Bool) (served : Served κ) (s : Store κ ℓ) {r : Ref}
    (hr : ∀ n, r ≠ .remotes n) (ht : ∀ n, r ≠ .tags n) :
    Dict.get? (fetch force served s).refs r = Dict.get? s.refs r := by
  refine (get?_foldl_fetchTag force served.tags _ fun n hn => absurd hn (ht n)).trans ?_
  exact get?_foldl_fetchRemote served.remotes s.refs fun e _ => hr e.1

omit [DecidableEq ℓ] in
/-- Without force it leaves the existing tags too. -/
theorem fetch_get?_of_some (served : Served κ) (s : Store κ ℓ) {r : Ref} {c : κ}
    (hr : ∀ n, r ≠ .remotes n) (hc : Dict.get? s.refs r = some c) :
    Dict.get? (fetch false served s).refs r = some c := by
  have hremote := get?_foldl_fetchRemote served.remotes s.refs fun e _ => hr e.1
  refine (get?_foldl_fetchTag false served.tags _ fun n _ => ⟨rfl, ?_⟩).trans (hremote.trans hc)
  rw [Dict.contains, hremote, hc]
  rfl

/-- The refs already are what a remote serves. -/
structure Fetched (served : Served κ) (refs : Map Ref κ) : Prop where
  remotes : ∀ e ∈ served.remotes, Dict.get? refs (.remotes e.1) = e.2
  tags : ∀ e ∈ served.tags, Dict.contains refs (.tags e.1) = true

theorem get?_foldl_fetchRemote_mem {served : Map String (Option κ)}
    (hnodup : (Dict.keys served).Nodup) (refs : Map Ref κ) {e : String × Option κ}
    (he : e ∈ served) : Dict.get? (served.foldl fetchRemote refs) (.remotes e.1) = e.2 := by
  induction served generalizing refs with
  | nil => cases he
  | cons d served ih =>
      have hkeys : d.1 ∉ Dict.keys served ∧ (Dict.keys served).Nodup := List.nodup_cons.mp hnodup
      rw [List.foldl_cons]
      rcases List.mem_cons.mp he with rfl | he
      · -- no later entry is for the same ref
        have hlater : ∀ d ∈ served, Ref.remotes e.1 ≠ .remotes d.1 := fun d hd h =>
          hkeys.1 (List.mem_map.mpr ⟨d, hd, (Ref.remotes.inj h).symm⟩)
        rw [get?_foldl_fetchRemote served _ hlater, fetchRemote]
        cases e.2 with
        | some c => exact Dict.get?_set_self _ _ _
        | none => exact Dict.get?_erase_self _ _
      · exact ih hkeys.2 _ he

theorem contains_foldl_fetchTag {served : Map String κ} {refs : Map Ref κ} {e : String × κ}
    (he : e ∈ served) : Dict.contains (served.foldl (fetchTag false) refs) (.tags e.1) = true := by
  induction served generalizing refs with
  | nil => cases he
  | cons d served ih =>
      rw [List.foldl_cons]
      rcases List.mem_cons.mp he with rfl | he
      · have hnow : Dict.contains (fetchTag false refs e) (.tags e.1) = true := by
          rw [fetchTag]
          cases hc : Dict.contains refs (.tags e.1) with
          | true => exact hc
          | false => exact (Dict.contains_iff _ _).mpr ⟨e.2, Dict.get?_set_self _ _ _⟩
        rw [Dict.contains, get?_foldl_fetchTag false served _ fun n hn => ⟨rfl, hn ▸ hnow⟩]
        exact hnow
      · exact ih he

omit [DecidableEq ℓ] in
/-- A fetch leaves what the remote served, when that names each ref once. -/
theorem fetched_fetch {served : Served κ} (hnodup : (Dict.keys served.remotes).Nodup)
    (s : Store κ ℓ) : Fetched served (fetch false served s).refs where
  remotes := fun _ he => (get?_foldl_fetchTag false served.tags _ fun _ h => by cases h).trans
    (get?_foldl_fetchRemote_mem hnodup s.refs he)
  tags := fun _ he => contains_foldl_fetchTag he

omit [DecidableEq ℓ] in
/-- Fetching what is there changes nothing. -/
theorem fetch_of_fetched {served : Served κ} {s : Store κ ℓ} (h : Fetched served s.refs) :
    fetch false served s = s := by
  have hremotes : ∀ es : Map String (Option κ), (∀ e ∈ es, e ∈ served.remotes) →
      es.foldl fetchRemote s.refs = s.refs := by
    intro es hes
    induction es with
    | nil => rfl
    | cons e es ih =>
        have he := h.remotes e (hes e List.mem_cons_self)
        have hone : fetchRemote s.refs e = s.refs := by
          rw [fetchRemote]
          cases hv : e.2 with
          | some c => exact Dict.set_of_get? (he.trans hv)
          | none => exact Dict.erase_of_get?_none (he.trans hv)
        rw [List.foldl_cons, hone]
        exact ih fun e he => hes e (List.mem_cons_of_mem _ he)
  have htags : ∀ es : Map String κ, (∀ e ∈ es, e ∈ served.tags) →
      es.foldl (fetchTag false) s.refs = s.refs := by
    intro es hes
    induction es with
    | nil => rfl
    | cons e es ih =>
        have hone : fetchTag false s.refs e = s.refs := by
          rw [fetchTag, h.tags e (hes e List.mem_cons_self)]
          rfl
        rw [List.foldl_cons, hone]
        exact ih fun e he => hes e (List.mem_cons_of_mem _ he)
  rw [fetch, hremotes _ fun _ he => he, htags _ fun _ he => he]

/-- A branch set is none of what a remote serves. -/
theorem Fetched.set_heads {served : Served κ} {refs : Map Ref κ} (h : Fetched served refs)
    (b : String) (c : κ) : Fetched served (Dict.set refs (.heads b) c) where
  remotes := fun e he =>
    (Dict.get?_set_ne refs c fun hr => by cases hr).trans (h.remotes e he)
  tags := fun e he => by
    rw [Dict.contains, Dict.get?_set_ne refs c fun hr => by cases hr]
    exact h.tags e he

theorem updateRef_eq_some {create : Bool} {r : Ref} {l : ℓ} {s s' : Store κ ℓ}
    (h : updateRef create r l s = some s') :
    ∃ c, s.headAt l = some c ∧ s' = { s with refs := Dict.set s.refs r c } ∧
      (create = true → Dict.get? s.refs r = none) := by
  rw [updateRef] at h
  cases hh : s.headAt l with
  | none =>
      rw [hh] at h
      cases h
  | some c =>
      rw [hh] at h
      by_cases hc : (create && Dict.contains s.refs r) = true
      · simp only [hc, if_true] at h
        cases h
      · simp only [hc, if_false, Bool.false_eq_true] at h
        cases h
        refine ⟨c, rfl, rfl, fun hcreate => ?_⟩
        cases hr : Dict.get? s.refs r with
        | none => rfl
        | some d => exact absurd (by rw [hcreate, Dict.contains, hr]; rfl) hc

/-! ## Registrations -/

/-- `worktree prune`: a registration whose directory is gone goes, unless it is
locked. -/
def prune (s : Store κ ℓ) : Store κ ℓ :=
  { s with missing := s.missing.filter fun e => e.2.locked }

omit [DecidableEq ℓ] in
/-- Pruning twice is pruning once. -/
theorem prune_of_locked {s : Store κ ℓ} (h : ∀ e ∈ s.missing, e.2.locked = true) :
    prune s = s := by
  rw [prune, List.filter_eq_self.mpr h]

/-- `rm -r` of what sits at a place: a worktree stays registered, and a plain file is
no directory. -/
def removeDirectory (l : ℓ) (s : Store κ ℓ) : Store κ ℓ :=
  match Dict.get? s.places l with
  | some (.linked w) =>
      { s with
        places := Dict.erase s.places l
        missing := Dict.set s.missing l ⟨w.head, w.locked⟩ }
  | some .file => s
  | _ => { s with places := Dict.erase s.places l }

theorem removeDirectory_refs (l : ℓ) (s : Store κ ℓ) : (removeDirectory l s).refs = s.refs := by
  rw [removeDirectory]
  cases Dict.get? s.places l with
  | none => rfl
  | some o => cases o <;> rfl

theorem removeDirectory_exclude (l : ℓ) (s : Store κ ℓ) :
    (removeDirectory l s).exclude = s.exclude := by
  rw [removeDirectory]
  cases Dict.get? s.places l with
  | none => rfl
  | some o => cases o <;> rfl

theorem removeDirectory_not_linked (l : ℓ) (s : Store κ ℓ) (w : Worktree κ) :
    Dict.get? (removeDirectory l s).places l ≠ some (.linked w) := by
  rw [removeDirectory]
  cases ho : Dict.get? s.places l with
  | none => simp [Dict.get?_erase_self]
  | some o =>
      cases o with
      | linked v => simp [Dict.get?_erase_self]
      | file => simp [ho]
      | empty => simp [Dict.get?_erase_self]
      | foreign repo => simp [Dict.get?_erase_self]

/-! ## Worktrees -/

/-- What a command checks out: a branch, or a commit with HEAD detached. -/
inductive Checkout (κ : Type) where
  | branch (b : String)
  | detach (c : κ)
  deriving DecidableEq, Repr

section
variable (R : Repository κ)

/-- A worktree fresh from a commit. -/
def freshWorktree (h : Head κ) (c : κ) : Worktree κ :=
  ⟨h, R.tree c, R.tree c, [], .none, false⟩

/-- Lay a fresh worktree at a place. -/
def lay (l : ℓ) (h : Head κ) (c : κ) (s : Store κ ℓ) : Store κ ℓ :=
  { s.setWorktree l (freshWorktree R h c) with missing := Dict.erase s.missing l }

/-- `worktree add [--force]`: not over something, nor over a registration without
force, and not of a branch another worktree holds. -/
def worktreeAdd (force : Bool) (l : ℓ) (what : Checkout κ) (s : Store κ ℓ) :
    Option (Store κ ℓ) :=
  if s.occupied l then none
  else if ((Dict.get? s.missing l).map fun r => r.locked || !force).getD false then none
  else match what with
    | .detach c => some (lay R l (.detached c) c s)
    | .branch b =>
        match Dict.get? s.refs (.heads b) with
        | none => none
        | some c =>
            if !force && s.heldElsewhere l b then none else some (lay R l (.attached b) c s)

/-- Every path of the worktree is clean, or a file the ignore rules give up. -/
def nothingToLose (s : Store κ ℓ) (w : Worktree κ) : Bool :=
  (Dict.keys w.index ++ Dict.keys w.files ++ Dict.keys (headTree R s.refs w.head)).all fun p =>
    decide (Clean R s.refs w p ∨ Ignored R s.exclude w p)

/-- `worktree remove`: only a worktree with nothing to lose. -/
def worktreeRemove (l : ℓ) (s : Store κ ℓ) : Option (Store κ ℓ) :=
  match s.worktree? l with
  | none => none
  | some w =>
      if w.locked || !nothingToLose R s w then none
      else some { s with places := Dict.erase s.places l }

end

omit [DecidableEq ℓ] in
theorem nothingToLose_iff (R : Repository κ) (s : Store κ ℓ) (w : Worktree κ) :
    nothingToLose R s w = true ↔ ∀ p, Clean R s.refs w p ∨ Ignored R s.exclude w p := by
  rw [nothingToLose, List.all_eq_true]
  constructor
  · intro h p
    by_cases hp : p ∈ Dict.keys w.index ++ Dict.keys w.files ++
        Dict.keys (headTree R s.refs w.head)
    · exact of_decide_eq_true (h p hp)
    · have hnone : ∀ t : Tree, p ∉ Dict.keys t → Dict.get? t p = none := by
        intro t ht
        cases hget : Dict.get? t p with
        | none => rfl
        | some v =>
            exact absurd ((Dict.contains_iff_mem_keys t p).mp
              ((Dict.contains_iff t p).mpr ⟨v, hget⟩)) ht
      simp only [List.mem_append, not_or] at hp
      refine .inl ⟨?_, ?_⟩
      · rw [hnone _ hp.1.1, hnone _ hp.2]
      · rw [hnone _ hp.1.2, hnone _ hp.1.1]
  · intro h p _
    exact decide_eq_true (h p)

theorem worktreeAdd_eq_some {R : Repository κ} {force : Bool} {l : ℓ} {what : Checkout κ}
    {s s' : Store κ ℓ} (h : worktreeAdd R force l what s = some s') :
    s.occupied l = false ∧ ∃ head c, headCommit s.refs head = some c ∧
      s' = lay R l head c s ∧
      match what with
      | .branch b => head = .attached b
      | .detach d => head = .detached c ∧ d = c := by
  rw [worktreeAdd.eq_def] at h
  cases hocc : s.occupied l with
  | true =>
      rw [hocc, if_pos rfl] at h
      cases h
  | false =>
      rw [hocc, if_neg Bool.false_ne_true] at h
      refine ⟨rfl, ?_⟩
      by_cases hm : ((Dict.get? s.missing l).map fun r => r.locked || !force).getD false = true
      · rw [if_pos hm] at h
        cases h
      rw [if_neg hm] at h
      cases what with
      | detach c =>
          cases h
          exact ⟨.detached c, c, rfl, rfl, rfl, rfl⟩
      | branch b =>
          cases hb : Dict.get? s.refs (.heads b) with
          | none =>
              simp only [hb] at h
              cases h
          | some c =>
              simp only [hb] at h
              by_cases hheld : (!force && s.heldElsewhere l b) = true
              · rw [if_pos hheld] at h
                cases h
              · rw [if_neg hheld] at h
                cases h
                exact ⟨.attached b, c, hb, rfl, rfl⟩

/-- Without force a worktree is laid over no registration. -/
theorem worktreeAdd_missing {R : Repository κ} {l : ℓ} {what : Checkout κ} {s s' : Store κ ℓ}
    (h : worktreeAdd R false l what s = some s') : Dict.get? s.missing l = none := by
  rw [worktreeAdd.eq_def] at h
  cases hm : Dict.get? s.missing l with
  | none => rfl
  | some r =>
      cases hocc : s.occupied l with
      | true =>
          rw [hocc, if_pos rfl] at h
          cases h
      | false =>
          rw [hocc, if_neg Bool.false_ne_true, hm, if_pos (by simp)] at h
          cases h

theorem worktreeRemove_eq_some {R : Repository κ} {l : ℓ} {s s' : Store κ ℓ}
    (h : worktreeRemove R l s = some s') :
    ∃ w, Dict.get? s.places l = some (.linked w) ∧
      (∀ p, Clean R s.refs w p ∨ Ignored R s.exclude w p) ∧
      s' = { s with places := Dict.erase s.places l } := by
  rw [worktreeRemove] at h
  cases hw : s.worktree? l with
  | none =>
      rw [hw] at h
      cases h
  | some w =>
      rw [hw] at h
      by_cases hc : (w.locked || !nothingToLose R s w) = true
      · simp only [hc, if_true] at h
        cases h
      · simp only [hc, if_false, Bool.false_eq_true] at h
        cases h
        simp only [Bool.or_eq_true, Bool.not_eq_true', not_or, Bool.not_eq_true,
          Bool.not_eq_false] at hc
        exact ⟨w, Store.worktree?_eq_some.mp hw, (nothingToLose_iff R s w).mp hc.2, rfl⟩

end Git
