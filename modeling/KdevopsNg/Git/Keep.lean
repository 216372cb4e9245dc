/-
# `Git.Keep` — what the commands without force keep

`Keeps R l s s'` says that going from `s` to `s'` at the place `l` loses nothing:
every branch that was there names what it named, every root is still reachable,
what sits at the other places is the same, and a path edited at `l` has the same
file and index entry.  It holds of each command without force, under what its
caller has checked.

A series commits onto HEAD and so moves the branch HEAD is attached to; `am_keeps`
is the same statement with that branch let go.
-/
import KdevopsNg.Git.Moves

namespace Git

open Py

variable {κ ℓ : Type} [DecidableEq ℓ]

/-- Nothing is lost at `l`.  Only a branch the worktree there is on may be born. -/
structure Keeps (R : Repository κ) (l : ℓ) (s s' : Store κ ℓ) : Prop where
  heads : ∀ b c, Dict.get? s.refs (.heads b) = some c → Dict.get? s'.refs (.heads b) = some c
  own : ∀ b, Dict.get? s'.refs (.heads b) = Dict.get? s.refs (.heads b) ∨
    ∃ w, Dict.get? s'.places l = some (.linked w) ∧ w.head = .attached b
  others : ∀ r, (∀ b, r ≠ .heads b) → Dict.get? s'.refs r = Dict.get? s.refs r
  roots : ∀ c, Root s c → Rooted R.toHistory s' c
  places : ∀ l', l' ≠ l → Dict.get? s'.places l' = Dict.get? s.places l'
  edits : ∀ w p, Dict.get? s.places l = some (.linked w) → Edited R s w p →
    ∃ w', Dict.get? s'.places l = some (.linked w') ∧ SameAt w w' p ∧ ¬ Clean R s'.refs w' p

theorem Keeps.refl (R : Repository κ) (l : ℓ) (s : Store κ ℓ) : Keeps R l s s where
  heads := fun _ _ h => h
  own := fun _ => .inl rfl
  others := fun _ _ => rfl
  roots := fun _ h => Rooted.of_root h
  places := fun _ _ => rfl
  edits := fun w _ hw he => ⟨w, hw, ⟨rfl, rfl⟩, he.1⟩

/-- Two steps keep what each keeps, when the first leaves no worktree at `l` for the
second to lose. -/
theorem Keeps.trans {R : Repository κ} {l : ℓ} {s s₁ s₂ : Store κ ℓ} (h₁ : Keeps R l s s₁)
    (h₂ : Keeps R l s₁ s₂) (hno : ∀ w, Dict.get? s₁.places l ≠ some (.linked w)) :
    Keeps R l s s₂ where
  heads := fun b c h => h₂.heads b c (h₁.heads b c h)
  own := fun b => by
    rcases h₁.own b with hsame | ⟨w, hw, -⟩
    · rw [← hsame]
      exact h₂.own b
    · exact absurd hw (hno w)
  others := fun r hr => (h₂.others r hr).trans (h₁.others r hr)
  roots := fun _ h => Rooted.mono h₂.roots (h₁.roots _ h)
  places := fun l' hl => (h₂.places l' hl).trans (h₁.places l' hl)
  edits := fun w p hw he => by
    obtain ⟨w', hw', -, -⟩ := h₁.edits w p hw he
    exact absurd hw' (hno w')

/-- A root stays when the refs do and no detached worktree goes. -/
theorem root_of_refs {s s' : Store κ ℓ} (hrefs : s'.refs = s.refs)
    (hplaces : ∀ l w c, Dict.get? s.places l = some (.linked w) → w.head = .detached c →
      Dict.get? s'.places l = some (.linked w)) {c : κ} (h : Root s c) : Root s' c := by
  rcases h with ⟨r, hr⟩ | ⟨l, w, hw, hdet⟩
  · exact .inl ⟨r, by rw [hrefs]; exact hr⟩
  · exact .inr ⟨l, w, hplaces l w c hw hdet, hdet⟩

/-! ## Adding and removing -/

theorem not_linked_of_not_occupied {s : Store κ ℓ} {l : ℓ} (h : s.occupied l = false)
    (w : Worktree κ) : Dict.get? s.places l ≠ some (.linked w) := by
  intro hw
  rw [Store.occupied, hw] at h
  cases h

theorem lay_keeps (R : Repository κ) {l : ℓ} {s : Store κ ℓ} (h : s.occupied l = false)
    (head : Head κ) (c : κ) : Keeps R l s (lay R l head c s) where
  heads := fun _ _ h => h
  own := fun _ => .inl rfl
  others := fun _ _ => rfl
  roots := fun d hroot => by
    have hrefs : (lay R l head c s).refs = s.refs := rfl
    have hd : Root (lay R l head c s) d := by
      refine root_of_refs hrefs (fun l' w _ hw _ => ?_) hroot
      have hl : l' ≠ l := fun hl => not_linked_of_not_occupied h w (hl ▸ hw)
      exact (Store.setWorktree_place_ne _ hl).trans hw
    exact Rooted.of_root hd
  places := fun l' hl => Store.setWorktree_place_ne _ hl
  edits := fun w _ hw _ => absurd hw (not_linked_of_not_occupied h w)

theorem worktreeAdd_keeps {R : Repository κ} {force : Bool} {l : ℓ} {what : Checkout κ}
    {s s' : Store κ ℓ} (h : worktreeAdd R force l what s = some s') : Keeps R l s s' := by
  obtain ⟨hocc, head, c, -, rfl, -⟩ := worktreeAdd_eq_some h
  exact lay_keeps R hocc head c

/-- A removal keeps everything when a ref reaches the commit it takes HEAD off. -/
theorem worktreeRemove_keeps {R : Repository κ} {l : ℓ} {s s' : Store κ ℓ}
    (h : worktreeRemove R l s = some s')
    (hheld : ∀ c, s.headAt l = some c → ∃ r d, Dict.get? s.refs r = some d ∧ R.Reaches d c) :
    Keeps R l s s' ∧ ∀ w, Dict.get? s'.places l ≠ some (.linked w) := by
  obtain ⟨w, hw, hclean, rfl⟩ := worktreeRemove_eq_some h
  have hgone : ∀ v, Dict.get? (Dict.erase s.places l) l ≠ some (.linked v) := by
    intro v
    rw [Dict.get?_erase_self]
    exact fun h => by cases h
  have hroots : ∀ c, Root s c →
      Rooted R.toHistory { s with places := Dict.erase s.places l } c := by
    intro c hc
    rcases hc with ⟨r, hr⟩ | ⟨l', v, hv, hdet⟩
    · exact Rooted.of_root (.inl ⟨r, hr⟩)
    · by_cases hl : l' = l
      · subst hl
        have hhead : s.headAt l' = some c := by
          rw [Store.headAt, hv]
          show headCommit s.refs v.head = some c
          rw [hdet]
          rfl
        obtain ⟨r, d, hr, hreach⟩ := hheld c hhead
        exact ⟨d, .inl ⟨r, hr⟩, hreach⟩
      · exact Rooted.of_root (.inr ⟨l', v, (Dict.get?_erase_ne _ hl).trans hv, hdet⟩)
  refine ⟨⟨fun _ _ h => h, fun _ => .inl rfl, fun _ _ => rfl, hroots,
    fun l' hl => Dict.get?_erase_ne _ hl, ?_⟩, hgone⟩
  intro v p hv he
  rw [hw] at hv
  cases hv
  rcases hclean p with hc | hi
  · exact absurd hc he.1
  · exact absurd hi he.2

/-! ## Moving -/

omit [DecidableEq ℓ] in
/-- A path that is edited is not one a safe switch rewrites. -/
theorem not_mem_differ_of_edited {R : Repository κ} {s : Store κ ℓ} {w : Worktree κ}
    {old new : Tree} {p : String} (hsafe : Safe R s w old new) (he : Edited R s w p) :
    p ∉ Tree.differ old new := by
  intro hp
  rcases hsafe p hp with hc | hi
  · exact he.1 hc
  · exact he.2 hi

theorem get?_eq_of_not_mem_differ {a b : Tree} {p : String} (h : p ∉ Tree.differ a b) :
    Dict.get? b p = Dict.get? a p := by
  by_contra hne
  exact h (Tree.mem_differ.mpr (Ne.symm hne))

/-- Attaching a worktree to a branch at its own commit keeps everything. -/
theorem checkout_keeps {R : Repository κ} {l : ℓ} {b : String} {s s' : Store κ ℓ}
    (h : checkout R l b s = some s')
    (hat : ∀ w, Dict.get? s.places l = some (.linked w) →
      headCommit s.refs w.head = Dict.get? s.refs (.heads b)) : Keeps R l s s' := by
  obtain ⟨w, c, hw, hb, hsafe, rfl⟩ := checkout_eq_some h
  have hcommit : headCommit s.refs w.head = some c := (hat w hw).trans hb
  refine ⟨fun _ _ h => h, fun _ => .inl rfl, fun _ _ => rfl, fun d hd => ?_,
    fun l' hl => Store.setWorktree_place_ne _ hl, fun v p hv he => ?_⟩
  · rcases hd with ⟨r, hr⟩ | ⟨l', v, hv, hdet⟩
    · exact Rooted.of_root (.inl ⟨r, hr⟩)
    · by_cases hl : l' = l
      · subst hl
        rw [hw] at hv
        cases hv
        rw [hdet] at hcommit
        cases hcommit
        exact Rooted.of_root (.inl ⟨.heads b, hb⟩)
      · exact Rooted.of_root (.inr ⟨l', v, (Store.setWorktree_place_ne _ hl).trans hv, hdet⟩)
  · rw [hw] at hv
    cases hv
    have hnot := not_mem_differ_of_edited hsafe he
    have hsame : SameAt w { rewrite (headTree R s.refs w.head) (R.tree c) w with
        head := .attached b, ongoing := w.ongoing.switched } p := sameAt_rewrite w hnot
    refine ⟨_, Store.setWorktree_place_self _ _ _, hsame, fun hc => he.1 ?_⟩
    refine (hsame.clean_iff ?_).mp hc
    have hnew : headCommit s.refs (.attached b) = some c := hb
    rw [headTree, headTree, hcommit, Store.setWorktree_refs, hnew]

/-- Moving HEAD over paths that are not edited keeps the edited ones, dirty still. -/
theorem advance_edit {R : Repository κ} {s : Store κ ℓ} {l : ℓ} {w w' : Worktree κ} {c : κ}
    {p : String}
    (hindex : w'.index = (rewrite (headTree R s.refs w.head) (R.tree c) w).index)
    (hfiles : w'.files = (rewrite (headTree R s.refs w.head) (R.tree c) w).files)
    (hnot : p ∉ Tree.differ (headTree R s.refs w.head) (R.tree c))
    (hdirty : ¬ Clean R s.refs w p) :
    ∃ v, Dict.get? (s.advance l w' c).places l = some (.linked v) ∧ SameAt w v p ∧
      ¬ Clean R (s.advance l w' c).refs v p := by
  obtain ⟨head, hplace, hcommit, -⟩ := advance_place_self s l w' c
  have hrewrite := sameAt_rewrite w hnot
  have hsame : SameAt w { w' with head := head } p := by
    refine ⟨?_, ?_⟩
    · rw [hfiles]
      exact hrewrite.1
    · rw [hindex]
      exact hrewrite.2
  refine ⟨_, hplace, hsame, fun hc => hdirty ((hsame.clean_iff ?_).mp hc)⟩
  rw [headTree, hcommit]
  exact get?_eq_of_not_mem_differ hnot

/-- A move changes only the branch the worktree is on. -/
theorem advance_own (s : Store κ ℓ) (l : ℓ) (w : Worktree κ) (c : κ) (b : String) :
    Dict.get? (s.advance l w c).refs (.heads b) = Dict.get? s.refs (.heads b) ∨
      ∃ v, Dict.get? (s.advance l w c).places l = some (.linked v) ∧ v.head = .attached b := by
  by_cases hatt : w.head = .attached b
  · exact .inr ⟨w, advance_attached c hatt, hatt⟩
  · refine .inl (advance_ref c fun b' hatt' hbb => hatt ?_)
    cases hbb
    exact hatt'

/-- A fast-forward keeps everything when HEAD is on no branch that is born. -/
theorem ffMerge_keeps [DecidableEq κ] {R : Repository κ} {l : ℓ} {c : κ} {s s' : Store κ ℓ}
    (h : ffMerge R l c s = some s')
    (hfree : ∀ w b, Dict.get? s.places l = some (.linked w) → w.head = .attached b →
      Dict.get? s.refs (.heads b) = none) : Keeps R l s s' := by
  obtain ⟨w, hw, -, ⟨rfl, -⟩ | ⟨hfwd, hsafe, rfl⟩⟩ := ffMerge_eq_some h
  · exact Keeps.refl R l s'
  have hhead : (rewrite (headTree R s.refs w.head) (R.tree c) w).head = w.head := rfl
  refine ⟨fun b d hb => ?_, advance_own s l _ c, fun r hr => advance_ref c fun b _ => hr b,
    fun d hd => rooted_advance hw hhead (fun e he => (hfwd e he).1) hd,
    fun l' hl => advance_place_ne _ c hl, fun v p hv he => ?_⟩
  · refine (advance_ref c fun b' hatt hbb => ?_).trans hb
    cases hbb
    rw [hfree w b hw hatt] at hb
    cases hb
  · rw [hw] at hv
    cases hv
    exact advance_edit rfl rfl (not_mem_differ_of_edited hsafe he) he.1

/-! ## Applying a series -/

/-- A series keeps what `Keeps` says, but for the branch HEAD is attached to, which goes
forward; and even the paths that are only dirty. -/
structure SeriesKeeps (R : Repository κ) (l : ℓ) (s s' : Store κ ℓ) : Prop where
  forward : ∀ b c, Dict.get? s.refs (.heads b) = some c →
    ∃ d, Dict.get? s'.refs (.heads b) = some d ∧ R.Reaches d c
  own : ∀ b, Dict.get? s'.refs (.heads b) = Dict.get? s.refs (.heads b) ∨
    ∃ w, Dict.get? s'.places l = some (.linked w) ∧ w.head = .attached b
  attached : ∀ w b, Dict.get? s.places l = some (.linked w) → w.head = .attached b →
    ∃ w', Dict.get? s'.places l = some (.linked w') ∧ w'.head = .attached b
  others : ∀ r, (∀ b, r ≠ .heads b) → Dict.get? s'.refs r = Dict.get? s.refs r
  roots : ∀ c, Root s c → Rooted R.toHistory s' c
  places : ∀ l', l' ≠ l → Dict.get? s'.places l' = Dict.get? s.places l'
  edits : ∀ w p, Dict.get? s.places l = some (.linked w) → ¬ Clean R s.refs w p →
    ∃ w', Dict.get? s'.places l = some (.linked w') ∧ SameAt w w' p

theorem SeriesKeeps.refl (R : Repository κ) (l : ℓ) (s : Store κ ℓ) : SeriesKeeps R l s s where
  forward := fun _ c h => ⟨c, h, History.Reaches.refl c⟩
  own := fun _ => .inl rfl
  attached := fun w _ hw hb => ⟨w, hw, hb⟩
  others := fun _ _ => rfl
  roots := fun _ h => Rooted.of_root h
  places := fun _ _ => rfl
  edits := fun w _ hw _ => ⟨w, hw, rfl, rfl⟩

theorem am_keeps [DecidableEq κ] (R : Repository κ) (l : ℓ) (answer : AmAnswer κ)
    (s : Store κ ℓ) : SeriesKeeps R l s (am R l answer s).2 := by
  have hstep := am_step R l answer s
  generalize (am R l answer s).1 = ok at hstep
  generalize (am R l answer s).2 = s' at hstep ⊢
  cases hstep with
  | refused => exact SeriesKeeps.refl R l s
  | @stalled w h hw hh =>
      refine ⟨fun _ c h => ⟨c, h, History.Reaches.refl c⟩, fun _ => .inl rfl, fun v b hv hb => ?_,
        fun _ _ => rfl, fun c hc => Rooted.of_root ?_,
        fun l' hl => Store.setWorktree_place_ne _ hl, fun v p hv _ => ?_⟩
      · cases hw.symm.trans hv
        exact ⟨_, Store.setWorktree_place_self s l (stalled h w), hb⟩
      · rcases hc with ⟨r, hr⟩ | ⟨l', v, hv, hdet⟩
        · exact .inl ⟨r, hr⟩
        · by_cases hl : l' = l
          · subst hl
            cases hw.symm.trans hv
            exact .inr ⟨l', _, Store.setWorktree_place_self s l' (stalled h w), hdet⟩
          · exact .inr ⟨l', v, (Store.setWorktree_place_ne _ hl).trans hv, hdet⟩
      · cases hw.symm.trans hv
        exact ⟨_, Store.setWorktree_place_self s l (stalled h w), rfl, rfl⟩
  | @moved w w' h c ok hw hh hc hclean hhead hindex hfiles hongoing =>
      have hold : headTree R s.refs w.head = R.tree h := by rw [headTree, hh]
      have hfwd : ∀ d, headCommit s.refs w.head = some d → R.Reaches c d := by
        intro d hd
        cases hh.symm.trans hd
        exact hc
      refine ⟨fun b d hb => ?_, advance_own s l w' c, fun v b hv hb => ?_,
        fun r hr => advance_ref c fun b _ => hr b,
        fun d hd => rooted_advance hw hhead hfwd hd, fun l' hl => advance_place_ne _ c hl,
        fun v p hv hdirty => ?_⟩
      · by_cases hatt : w'.head = .attached b
        · refine ⟨c, advance_ref_attached c hatt, hfwd d ?_⟩
          rw [← hhead, hatt]
          exact hb
        · refine ⟨d, (advance_ref c fun b' hatt' hbb => hatt ?_).trans hb, History.Reaches.refl d⟩
          cases hbb
          exact hatt'
      · cases hw.symm.trans hv
        exact ⟨w', advance_attached c (hhead.trans hb), hhead.trans hb⟩
      · cases hw.symm.trans hv
        rw [← hold] at hindex hfiles hclean
        have hnot : p ∉ Tree.differ (headTree R s.refs w.head) (R.tree c) :=
          fun hp => hdirty (hclean p hp)
        obtain ⟨v, hv, hsame, -⟩ := advance_edit hindex hfiles hnot hdirty
        exact ⟨v, hv, hsame⟩

end Git
