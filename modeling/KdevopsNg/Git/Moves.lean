/-
# `Git.Moves` — commands that move a worktree, as documented

    checkout, merge --ff-only    rewrite the paths the two commits differ on, and
                                 refuse when one of those holds an edit (`Safe`)
    am                           commits onto HEAD, moving the branch HEAD is
                                 attached to, over paths that are clean
    the aborts                   go back to where the operation began, and the
                                 branch with it
    clean, checkout --force      delete the untracked files, and the tracked ones
                                 the commit does not have

A move that goes forward keeps every root reachable (`rooted_advance`) and every
path it does not rewrite (`sameAt_rewrite`).
-/
import KdevopsNg.Git.Commands

namespace Git

open Py

variable {κ ℓ : Type} [DecidableEq ℓ]

/-! ## Rewriting a worktree -/

/-- Rewrite the paths on which two trees differ. -/
def rewrite (old new : Tree) (w : Worktree κ) : Worktree κ :=
  { w with
    index := Tree.overlay w.index new (Tree.differ old new)
    files := Tree.overlay w.files new (Tree.differ old new) }

/-- Make the index a tree, rewriting the files whose entry changes. -/
def resetMerge (t : Tree) (w : Worktree κ) : Worktree κ :=
  { w with
    index := Tree.overlay w.index t (Tree.differ w.index t)
    files := Tree.overlay w.files t (Tree.differ w.index t) }

/-- Make index and tracked files a tree: what was tracked goes, and what is untracked
stays unless the tree has a file there. -/
def hardTo (t : Tree) (w : Worktree κ) : Worktree κ :=
  { w with
    index := t
    files := Tree.overlay (Tree.restrict w.files fun p => !Dict.contains w.index p) t
      (Dict.keys t) }

omit [DecidableEq ℓ] in
theorem sameAt_rewrite {old new : Tree} {p : String} (w : Worktree κ)
    (h : p ∉ Tree.differ old new) : SameAt w (rewrite old new w) p := by
  refine ⟨?_, ?_⟩
  · exact (Tree.get?_overlay _ _ _ p).trans (if_neg h)
  · exact (Tree.get?_overlay _ _ _ p).trans (if_neg h)

omit [DecidableEq ℓ] in
/-- A path that is the same in two worktrees whose HEADs agree on it is clean in both
or in neither. -/
theorem SameAt.clean_iff {R : Repository κ} {refs refs' : Map Ref κ} {w w' : Worktree κ}
    {p : String} (h : SameAt w w' p)
    (hhead : Dict.get? (headTree R refs' w'.head) p = Dict.get? (headTree R refs w.head) p) :
    Clean R refs' w' p ↔ Clean R refs w p := by
  rw [Clean, Clean, h.1, h.2, hhead]

omit [DecidableEq ℓ] in
theorem get?_hardTo_files (t : Tree) (w : Worktree κ) (p : String) :
    Dict.get? (hardTo t w).files p =
      if Dict.contains t p then Dict.get? t p
      else if Dict.contains w.index p then none else Dict.get? w.files p := by
  rw [hardTo]
  simp only [Tree.get?_overlay, Tree.get?_restrict, ← Dict.contains_iff_mem_keys]
  cases Dict.contains w.index p <;> simp

/-! ## Switching and fast-forwarding -/

section
variable (R : Repository κ)

/-- A switch between two trees may rewrite a path that is clean, or that the ignore
rules give up. -/
def Safe (s : Store κ ℓ) (w : Worktree κ) (old new : Tree) : Prop :=
  ∀ p ∈ Tree.differ old new, Clean R s.refs w p ∨ Ignored R s.exclude w p

omit [DecidableEq ℓ] in
instance (s : Store κ ℓ) (w : Worktree κ) (old new : Tree) : Decidable (Safe R s w old new) :=
  inferInstanceAs (Decidable (∀ p ∈ _, _))

/-- What is left of the operations in progress by a switch of commits. -/
def Ongoing.switched (o : Ongoing κ) : Ongoing κ :=
  { o with cherryPick := .none, revert := .none, merge := false }

/-- `checkout <branch>`: not a branch another worktree holds. -/
def checkout (l : ℓ) (b : String) (s : Store κ ℓ) : Option (Store κ ℓ) :=
  match s.worktree? l, Dict.get? s.refs (.heads b) with
  | some w, some c =>
      let old := headTree R s.refs w.head
      if !s.heldElsewhere l b && decide (Safe R s w old (R.tree c)) then
        some (s.setWorktree l { rewrite old (R.tree c) w with
          head := .attached b
          ongoing := w.ongoing.switched })
      else none
  | _, _ => none

variable [DecidableEq κ]

/-- `merge --ff-only`: nothing to do for a commit behind HEAD, and a refusal of one
that is not ahead of it.  A branch not born yet is born there. -/
def ffMerge (l : ℓ) (c : κ) (s : Store κ ℓ) : Option (Store κ ℓ) :=
  match s.worktree? l with
  | none => none
  | some w =>
      let old := headTree R s.refs w.head
      let moved := s.advance l (rewrite old (R.tree c) w) c
      if w.ongoing.merge || w.ongoing.cherryPick.isSome then none
      else match w.head, headCommit s.refs w.head with
        | .unreadable, _ => none
        | _, some h =>
            if R.Reaches h c then some s
            else if R.Reaches c h ∧ Safe R s w old (R.tree c) then some moved else none
        | _, none => if Safe R s w old (R.tree c) then some moved else none

/-! ## Applying patches -/

/-- How a patch series ends: not begun, applied up to a commit, or stopped with some
of it applied. -/
inductive AmAnswer (κ : Type) where
  | refused
  | applied (c : κ)
  | stopped (c : κ)
  deriving DecidableEq, Repr

/-- Patches apply only to an index that is HEAD's, and to paths that are clean. -/
def Applies (s : Store κ ℓ) (w : Worktree κ) (old new : Tree) : Prop :=
  Tree.differ w.index old = [] ∧ ∀ p ∈ Tree.differ old new, Clean R s.refs w p

omit [DecidableEq ℓ] [DecidableEq κ] in
instance (s : Store κ ℓ) (w : Worktree κ) (old new : Tree) : Decidable (Applies R s w old new) :=
  inferInstanceAs (Decidable (_ ∧ _))

/-- A worktree whose `git am` stopped. -/
def stalled (orig : κ) (w : Worktree κ) : Worktree κ :=
  { w with ongoing := { w.ongoing with apply := some (.am orig) } }

/-- `am`: whether it applied the series, and the store it leaves. -/
def am (l : ℓ) (answer : AmAnswer κ) (s : Store κ ℓ) : Bool × Store κ ℓ :=
  match s.worktree? l with
  | none => (false, s)
  | some w =>
      match w.ongoing.apply, headCommit s.refs w.head with
      | none, some h =>
          let fits (c : κ) : Bool :=
            decide (R.Reaches c h ∧ Applies R s w (R.tree h) (R.tree c))
          match answer with
          | .refused => (false, s)
          | .applied c =>
              if fits c then (true, s.advance l (rewrite (R.tree h) (R.tree c) w) c)
              else (false, s.setWorktree l (stalled h w))
          | .stopped c =>
              if fits c then (false, s.advance l (stalled h (rewrite (R.tree h) (R.tree c) w)) c)
              else (false, s.setWorktree l (stalled h w))
      | _, _ => (false, s)

end

/-! ## Aborting -/

section
variable (R : Repository κ)

/-- `am --abort`. -/
def abortAm (l : ℓ) (s : Store κ ℓ) : Option (Store κ ℓ) :=
  match s.worktree? l with
  | some w =>
      match w.ongoing.apply with
      | some (.am orig) =>
          some (s.advance l { resetMerge (R.tree orig) w with
            ongoing := { w.ongoing with apply := none } } orig)
      | _ => none
  | none => none

/-- Back to where a rebase began: HEAD to the branch it came from, with the branch at
its old commit. -/
def backTo (l : ℓ) (w : Worktree κ) (home : Option String) (orig : κ) (ongoing : Ongoing κ)
    (s : Store κ ℓ) : Store κ ℓ :=
  match home with
  | some b =>
      { s.setWorktree l { hardTo (R.tree orig) w with
          head := .attached b
          ongoing := ongoing.switched } with
        refs := Dict.set s.refs (.heads b) orig }
  | none =>
      s.setWorktree l { hardTo (R.tree orig) w with
        head := .detached orig
        ongoing := ongoing.switched }

/-- `rebase --abort`. -/
def abortRebase (l : ℓ) (s : Store κ ℓ) : Option (Store κ ℓ) :=
  match s.worktree? l with
  | some w =>
      match w.ongoing.apply, w.ongoing.rebaseMerge with
      | some (.rebase home orig), _ =>
          some (backTo R l w home orig { w.ongoing with apply := none } s)
      | none, some (home, orig) =>
          some (backTo R l w home orig { w.ongoing with rebaseMerge := none } s)
      | _, _ => none
  | none => none

/-- `cherry-pick --abort`. -/
def abortCherryPick (l : ℓ) (s : Store κ ℓ) : Option (Store κ ℓ) :=
  match s.worktree? l with
  | some w =>
      match w.ongoing.cherryPick with
      | some orig =>
          some (s.advance l { resetMerge (R.tree orig) w with
            ongoing := { w.ongoing with cherryPick := none } } orig)
      | none => none
  | none => none

/-- `revert --abort`. -/
def abortRevert (l : ℓ) (s : Store κ ℓ) : Option (Store κ ℓ) :=
  match s.worktree? l with
  | some w =>
      match w.ongoing.revert with
      | some orig =>
          some (s.advance l { resetMerge (R.tree orig) w with
            ongoing := { w.ongoing with revert := none } } orig)
      | none => none
  | none => none

/-- `merge --abort`. -/
def abortMerge (l : ℓ) (s : Store κ ℓ) : Option (Store κ ℓ) :=
  match s.worktree? l with
  | some w =>
      if w.ongoing.merge then
        some (s.setWorktree l { resetMerge (headTree R s.refs w.head) w with
          ongoing := { w.ongoing with merge := false } })
      else none
  | none => none

/-! ## Forcing -/

/-- `clean --force -d`: the untracked files go that are neither ignored nor in a
repository of their own, nor kept by the file system (`stuck`). -/
def clean (l : ℓ) (stuck : String → Bool) (s : Store κ ℓ) : Store κ ℓ :=
  match s.worktree? l with
  | none => s
  | some w =>
      s.setWorktree l { w with
        files := Tree.restrict w.files fun p =>
          Dict.contains w.index p || R.ignored w.files s.exclude p || decide (p ∈ w.nested) ||
            stuck p }

/-- `checkout --detach --force`. -/
def checkoutForce (l : ℓ) (c : κ) (s : Store κ ℓ) : Option (Store κ ℓ) :=
  match s.worktree? l with
  | none => none
  | some w =>
      some (s.setWorktree l { hardTo (R.tree c) w with
        head := .detached c
        ongoing := w.ongoing.switched })

end

/-! ## What a move keeps -/

theorem advance_place_ne {s : Store κ ℓ} {l l' : ℓ} (w : Worktree κ) (c : κ) (h : l' ≠ l) :
    Dict.get? (s.advance l w c).places l' = Dict.get? s.places l' := by
  rw [Store.advance]
  cases w.head with
  | attached b => exact Store.setWorktree_place_ne _ h
  | detached d => exact Store.setWorktree_place_ne _ h
  | unreadable => exact Store.setWorktree_place_ne _ h

/-- A move puts the worktree back with the same files, at the commit, on no branch it
was not on. -/
theorem advance_place_self (s : Store κ ℓ) (l : ℓ) (w : Worktree κ) (c : κ) :
    ∃ h : Head κ, Dict.get? (s.advance l w c).places l = some (.linked { w with head := h }) ∧
      headCommit (s.advance l w c).refs h = some c ∧ ∀ b, h = .attached b → w.head = .attached b := by
  rw [Store.advance]
  cases hh : w.head with
  | attached b =>
      refine ⟨.attached b, ?_, Dict.get?_set_self _ _ _, fun _ h => h⟩
      have hw : { w with head := .attached b } = w := by rw [← hh]
      rw [hw]
      exact Store.setWorktree_place_self s l w
  | detached d =>
      exact ⟨.detached c, Store.setWorktree_place_self _ _ _, rfl, fun _ h => by cases h⟩
  | unreadable =>
      exact ⟨.detached c, Store.setWorktree_place_self _ _ _, rfl, fun _ h => by cases h⟩

/-- A move keeps the branch a worktree is attached to. -/
theorem advance_attached {s : Store κ ℓ} {l : ℓ} {w : Worktree κ} (c : κ) {b : String}
    (h : w.head = .attached b) : Dict.get? (s.advance l w c).places l = some (.linked w) := by
  rw [Store.advance, h]
  exact Store.setWorktree_place_self s l w

theorem advance_exclude (s : Store κ ℓ) (l : ℓ) (w : Worktree κ) (c : κ) :
    (s.advance l w c).exclude = s.exclude := by
  rw [Store.advance]
  cases w.head <;> rfl

/-- A move changes no ref but the branch HEAD is attached to. -/
theorem advance_ref {s : Store κ ℓ} {l : ℓ} {w : Worktree κ} (c : κ) {r : Ref}
    (h : ∀ b, w.head = .attached b → r ≠ .heads b) :
    Dict.get? (s.advance l w c).refs r = Dict.get? s.refs r := by
  rw [Store.advance]
  cases hh : w.head with
  | attached b => exact Dict.get?_set_ne _ _ (h b hh)
  | detached d => rfl
  | unreadable => rfl

theorem advance_ref_attached {s : Store κ ℓ} {l : ℓ} {w : Worktree κ} (c : κ) {b : String}
    (h : w.head = .attached b) : Dict.get? (s.advance l w c).refs (.heads b) = some c := by
  rw [Store.advance, h]
  exact Dict.get?_set_self _ _ _

/-- A move forward keeps every root reachable. -/
theorem rooted_advance {H : History κ} {s : Store κ ℓ} {l : ℓ} {w w' : Worktree κ} {c : κ}
    (hw : Dict.get? s.places l = some (.linked w)) (hhead : w'.head = w.head)
    (hfwd : ∀ h, headCommit s.refs w.head = some h → H.Reaches c h) {x : κ} (hx : Root s x) :
    Rooted H (s.advance l w' c) x := by
  obtain ⟨h, hplace, hcommit, -⟩ := advance_place_self s l w' c
  have hc : Root (s.advance l w' c) c := by
    cases h with
    | attached b => exact .inl ⟨.heads b, hcommit⟩
    | detached d =>
        cases hcommit
        exact .inr ⟨l, _, hplace, rfl⟩
    | unreadable => cases hcommit
  rcases hx with ⟨r, hr⟩ | ⟨l', v, hv, hdet⟩
  · by_cases hb : ∃ b, w.head = .attached b ∧ r = .heads b
    · obtain ⟨b, hattached, rfl⟩ := hb
      have hold : headCommit s.refs w.head = some x := by rw [hattached]; exact hr
      exact ⟨c, hc, hfwd x hold⟩
    · refine Rooted.of_root (.inl ⟨r, ?_⟩)
      rw [advance_ref c fun b hattached hrb => hb ⟨b, hhead ▸ hattached, hrb⟩]
      exact hr
  · by_cases hl : l' = l
    · subst hl
      rw [hw] at hv
      cases hv
      exact ⟨c, hc, hfwd x (by rw [hdet]; rfl)⟩
    · exact Rooted.of_root (.inr ⟨l', v, (advance_place_ne w' c hl).trans hv, hdet⟩)

/-! ## What the commands did -/

theorem checkout_eq_some {R : Repository κ} {l : ℓ} {b : String} {s s' : Store κ ℓ}
    (h : checkout R l b s = some s') :
    ∃ w c, Dict.get? s.places l = some (.linked w) ∧ Dict.get? s.refs (.heads b) = some c ∧
      Safe R s w (headTree R s.refs w.head) (R.tree c) ∧
      s' = s.setWorktree l { rewrite (headTree R s.refs w.head) (R.tree c) w with
        head := .attached b
        ongoing := w.ongoing.switched } := by
  rw [checkout] at h
  cases hw : s.worktree? l with
  | none =>
      rw [hw] at h
      cases h
  | some w =>
      cases hc : Dict.get? s.refs (.heads b) with
      | none =>
          rw [hw, hc] at h
          cases h
      | some c =>
          rw [hw, hc] at h
          by_cases hcond : (!s.heldElsewhere l b &&
              decide (Safe R s w (headTree R s.refs w.head) (R.tree c))) = true
          · simp only [hcond, if_true] at h
            cases h
            exact ⟨w, c, Store.worktree?_eq_some.mp hw, rfl,
              of_decide_eq_true (Bool.and_eq_true_iff.mp hcond).2, rfl⟩
          · simp only [hcond, if_false, Bool.false_eq_true] at h
            cases h

theorem checkoutForce_eq_some {R : Repository κ} {l : ℓ} {c : κ} {s s' : Store κ ℓ}
    (h : checkoutForce R l c s = some s') :
    ∃ w, Dict.get? s.places l = some (.linked w) ∧
      s' = s.setWorktree l { hardTo (R.tree c) w with
        head := .detached c
        ongoing := w.ongoing.switched } := by
  rw [checkoutForce] at h
  cases hw : s.worktree? l with
  | none =>
      rw [hw] at h
      cases h
  | some w =>
      rw [hw] at h
      cases h
      exact ⟨w, Store.worktree?_eq_some.mp hw, rfl⟩

/-- A fast-forward that does not refuse leaves all as it is, or goes forward. -/
theorem ffMerge_eq_some [DecidableEq κ] {R : Repository κ} {l : ℓ} {c : κ} {s s' : Store κ ℓ}
    (h : ffMerge R l c s = some s') :
    ∃ w, Dict.get? s.places l = some (.linked w) ∧ w.head ≠ .unreadable ∧
      ((s' = s ∧ ∃ d, headCommit s.refs w.head = some d ∧ R.Reaches d c) ∨
        ((∀ d, headCommit s.refs w.head = some d → R.Reaches c d ∧ ¬ R.Reaches d c) ∧
          Safe R s w (headTree R s.refs w.head) (R.tree c) ∧
          s' = s.advance l (rewrite (headTree R s.refs w.head) (R.tree c) w) c)) := by
  rw [ffMerge] at h
  cases hw : s.worktree? l with
  | none =>
      rw [hw] at h
      cases h
  | some w =>
      rw [hw] at h
      refine ⟨w, Store.worktree?_eq_some.mp hw, ?_⟩
      by_cases hbusy : (w.ongoing.merge || w.ongoing.cherryPick.isSome) = true
      · simp only [hbusy, if_true] at h
        cases h
      simp only [hbusy, if_false, Bool.false_eq_true] at h
      have hreadable : w.head ≠ .unreadable := by
        intro hu
        simp only [hu] at h
        cases h
      refine ⟨hreadable, ?_⟩
      cases hc : headCommit s.refs w.head with
      | some d =>
          have h' : (if R.Reaches d c then some s
              else if R.Reaches c d ∧ Safe R s w (headTree R s.refs w.head) (R.tree c) then
                some (s.advance l (rewrite (headTree R s.refs w.head) (R.tree c) w) c)
              else none) = some s' := by
            rw [← h]
            cases hh : w.head with
            | unreadable => exact absurd hh hreadable
            | attached b => simp only [← hh, hc]
            | detached e => simp only [← hh, hc]
          by_cases hbehind : R.Reaches d c
          · rw [if_pos hbehind] at h'
            cases h'
            exact .inl ⟨rfl, d, rfl, hbehind⟩
          · rw [if_neg hbehind] at h'
            by_cases hok : R.Reaches c d ∧ Safe R s w (headTree R s.refs w.head) (R.tree c)
            · rw [if_pos hok] at h'
              cases h'
              refine .inr ⟨fun e he => ?_, hok.2, rfl⟩
              cases he
              exact ⟨hok.1, hbehind⟩
            · rw [if_neg hok] at h'
              cases h'
      | none =>
          have h' : (if Safe R s w (headTree R s.refs w.head) (R.tree c) then
                some (s.advance l (rewrite (headTree R s.refs w.head) (R.tree c) w) c)
              else none) = some s' := by
            rw [← h]
            cases hh : w.head with
            | unreadable => exact absurd hh hreadable
            | attached b => simp only [← hh, hc]
            | detached e => simp only [← hh, hc]
          by_cases hok : Safe R s w (headTree R s.refs w.head) (R.tree c)
          · rw [if_pos hok] at h'
            cases h'
            refine .inr ⟨fun e he => ?_, hok, rfl⟩
            cases he
          · rw [if_neg hok] at h'
            cases h'

/-- What a patch series leaves: the store as it was, the worktree stopped where it
was, or the worktree ahead over clean paths. -/
inductive AmStep (R : Repository κ) (l : ℓ) (s : Store κ ℓ) : Bool → Store κ ℓ → Prop where
  | refused : AmStep R l s false s
  | stalled {w : Worktree κ} {h : κ} (hw : Dict.get? s.places l = some (.linked w))
      (hh : headCommit s.refs w.head = some h) :
      AmStep R l s false (s.setWorktree l (stalled h w))
  | moved {w w' : Worktree κ} {h c : κ} (ok : Bool)
      (hw : Dict.get? s.places l = some (.linked w))
      (hh : headCommit s.refs w.head = some h) (hc : R.Reaches c h)
      (hclean : ∀ p ∈ Tree.differ (R.tree h) (R.tree c), Clean R s.refs w p)
      (hhead : w'.head = w.head)
      (hindex : w'.index = (rewrite (R.tree h) (R.tree c) w).index)
      (hfiles : w'.files = (rewrite (R.tree h) (R.tree c) w).files)
      (hongoing : w'.ongoing = w.ongoing ∨ w'.ongoing = (stalled h w).ongoing) :
      AmStep R l s ok (s.advance l w' c)

theorem am_step [DecidableEq κ] (R : Repository κ) (l : ℓ) (answer : AmAnswer κ)
    (s : Store κ ℓ) : AmStep R l s (am R l answer s).1 (am R l answer s).2 := by
  rw [am]
  cases hw : s.worktree? l with
  | none => exact .refused
  | some w =>
      have hplace := Store.worktree?_eq_some.mp hw
      cases ha : w.ongoing.apply with
      | some a => simp only [ha]; exact .refused
      | none =>
          cases hh : headCommit s.refs w.head with
          | none => simp only [ha, hh]; exact .refused
          | some h =>
              simp only [ha, hh]
              cases answer with
              | refused => exact .refused
              | applied c =>
                  by_cases hok : R.Reaches c h ∧ Applies R s w (R.tree h) (R.tree c)
                  · simp only [decide_eq_true hok, if_true]
                    exact .moved true hplace hh hok.1 hok.2.2 rfl rfl rfl (.inl rfl)
                  · simp only [decide_eq_false hok, Bool.false_eq_true, if_false]
                    exact .stalled hplace hh
              | stopped c =>
                  by_cases hok : R.Reaches c h ∧ Applies R s w (R.tree h) (R.tree c)
                  · simp only [decide_eq_true hok, if_true]
                    exact .moved false hplace hh hok.1 hok.2.2 rfl rfl rfl (.inr rfl)
                  · simp only [decide_eq_false hok, Bool.false_eq_true, if_false]
                    exact .stalled hplace hh

end Git
