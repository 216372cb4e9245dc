/-
# `Fstests.Rotation` — what a rotation moves

`SetAside u dir n` says which file of a results directory may become which
under the index `n`.  Where no file has that index yet (`Accounted`: the files
of an index have their report) and the suffixes the rotation takes are marked
(`TakenMarked`), a rotation is a sequence of such moves, each to a free name
(`clearResults_moves`), whatever the disk refuses.  When it returned after a
report was there, no current evidence is left (`Cleared`).
-/
import Mathlib.Data.List.Induction
import KdevopsNg.Fstests.Granting
import KdevopsNg.Fstests.SetAside

namespace KdevopsNg.Fstests

open Py Sys

/-! ## The renames of a group -/

section Group

variable {u : Unicode}

theorem groupBases_none {names : List String} {name : String} (h : current u name = none) :
    groupBases u (names ++ [name]) = groupBases u names := by
  rw [groupBases, List.foldl_append, List.foldl_cons, List.foldl_nil, h]
  rfl

theorem groupBases_some {names : List String} {name : String} {base rest : List Char}
    (h : current u name = some (base, rest)) : groupBases u (names ++ [name]) =
      Dict.set (groupBases u names) base
        ((Dict.get? (groupBases u names) base).getD [] ++ [(name, rest)]) := by
  rw [groupBases, List.foldl_append, List.foldl_cons, List.foldl_nil, h]
  rfl

/-- The files under a base are current files with that base. -/
theorem groupBases_sound {names : List String} {b : List Char × List (String × List Char)}
    (hb : b ∈ groupBases u names) {item : String × List Char} (hitem : item ∈ b.2) :
    item.1 ∈ names ∧ current u item.1 = some (b.1, item.2) := by
  induction names using List.reverseRecOn generalizing b item with
  | nil => cases hb
  | append_singleton names name ih =>
      have hold : ∀ {b}, b ∈ groupBases u names → ∀ {item}, item ∈ b.2 →
          item.1 ∈ names ++ [name] ∧ current u item.1 = some (b.1, item.2) := fun hb _ hitem =>
        ⟨List.mem_append_left _ (ih hb hitem).1, (ih hb hitem).2⟩
      cases hcurrent : current u name with
      | none =>
          rw [groupBases_none hcurrent] at hb
          exact hold hb hitem
      | some br =>
          obtain ⟨base, rest⟩ := br
          rw [groupBases_some hcurrent] at hb
          rcases Dict.mem_set hb with rfl | hb
          · rcases List.mem_append.mp hitem with hitem | hitem
            · cases hget : Dict.get? (groupBases u names) base with
              | none =>
                  rw [hget] at hitem
                  cases hitem
              | some items =>
                  rw [hget] at hitem
                  exact hold (Dict.mem_of_get? hget) hitem
            · rw [List.mem_singleton.mp hitem]
              exact ⟨List.mem_append_right _ List.mem_cons_self, hcurrent⟩
          · exact hold hb hitem

/-- Every current file is under its base. -/
theorem groupBases_complete {names : List String} {name : String} {base rest : List Char}
    (hname : name ∈ names) (hcurrent : current u name = some (base, rest)) :
    ∃ items, Dict.get? (groupBases u names) base = some items ∧ (name, rest) ∈ items := by
  induction names using List.reverseRecOn with
  | nil => cases hname
  | append_singleton names last ih =>
      rcases List.mem_append.mp hname with hname | hname
      · obtain ⟨items, hget, hitem⟩ := ih hname
        cases hlast : current u last with
        | none =>
            rw [groupBases_none hlast]
            exact ⟨items, hget, hitem⟩
        | some br =>
            rw [groupBases_some hlast, Dict.get?_set]
            split
            · next hbase =>
                refine ⟨_, rfl, List.mem_append_left _ ?_⟩
                rw [← hbase, hget]
                exact hitem
            · exact ⟨items, hget, hitem⟩
      · rw [List.mem_singleton.mp hname] at hcurrent ⊢
        rw [groupBases_some hcurrent]
        exact ⟨_, Dict.get?_set_self _ _ _, List.mem_append_right _ List.mem_cons_self⟩

/-- A rotation takes a file: its base failed, or it is a core. -/
def Taken (u : Unicode) (names : List String) (base rest : List Char) : Prop :=
  base ∈ failingBases u names ∨ "core.".toList <+: rest

theorem mem_failingBases {names : List String} {base : List Char} :
    base ∈ failingBases u names ↔
      ∃ name ∈ names, ∃ rest, current u name = some (base, rest) ∧ failureRest rest = true := by
  rw [failingBases, List.mem_filterMap]
  refine exists_congr fun name => and_congr_right fun _ => ?_
  cases hcurrent : current u name with
  | none => simp
  | some br =>
      obtain ⟨base', rest'⟩ := br
      by_cases hrest : failureRest rest' = true
      · simp [hrest]
      · simp [hrest]

theorem mem_moves {n : ℕ} {names : List String} {move : String × String} :
    move ∈ moves u n names ↔ ∃ base rest, move.1 ∈ names ∧
      current u move.1 = some (base, rest) ∧ Taken u names base rest ∧
        move.2 = rotatedName base n rest := by
  have htaken : ∀ base rest, ((failingBases u names).any (fun b => decide (b = base)) ||
      "core.".toList.isPrefixOf rest) = true ↔ Taken u names base rest := by
    intro base rest
    rw [Bool.or_eq_true, List.isPrefixOf_iff_prefix, List.any_eq_true, Taken]
    simp
  rw [moves, List.mem_flatMap]
  constructor
  · rintro ⟨b, hb, hmove⟩
    obtain ⟨item, hitem, rfl⟩ := List.mem_map.mp hmove
    rw [List.mem_filter, htaken] at hitem
    obtain ⟨hname, hcurrent⟩ := groupBases_sound hb hitem.1
    exact ⟨b.1, item.2, hname, hcurrent, hitem.2, rfl⟩
  · rintro ⟨base, rest, hname, hcurrent, htake, hto⟩
    obtain ⟨items, hget, hitem⟩ := groupBases_complete hname hcurrent
    refine ⟨(base, items), Dict.mem_of_get? hget, List.mem_map.mpr ⟨(move.1, rest), ?_, ?_⟩⟩
    · rw [List.mem_filter, htaken]
      exact ⟨hitem, htake⟩
    · rw [← hto]

end Group

/-! ## The moves of a rotation -/

/-- `result.<index>.xml`. -/
def reportAt (dir : Path) (n : ℕ) : Path := dir ++ [rotatedName "result".toList n "xml".toList]

/-- `check.<index>.log`. -/
def logAt (dir : Path) (n : ℕ) : Path := dir ++ [rotatedName "check".toList n "log".toList]

/-- A file, and its name under an index. -/
inductive SetAside (u : Unicode) (dir : Path) (n : ℕ) : Path → Path → Prop
  | report : SetAside u dir n (dir ++ ["result.xml"]) (reportAt dir n)
  | log : SetAside u dir n (dir ++ ["check.log"]) (logAt dir n)
  | artefact {group name : String} {base rest : List Char}
      (hcurrent : current u name = some (base, rest)) (hmarked : Marked u rest) :
      SetAside u dir n (dir ++ [group, name]) (dir ++ [group, rotatedName base n rest])

/-- A name under an index. -/
inductive Indexed (dir : Path) (n : ℕ) : Path → Prop
  | report : Indexed dir n (reportAt dir n)
  | log : Indexed dir n (logAt dir n)
  | artefact {group : String} {base rest : List Char} (hbase : '.' ∉ base) :
      Indexed dir n (dir ++ [group, rotatedName base n rest])

/-- The files of an index have their report. -/
def Accounted (dir : Path) (g : Path → Option String) : Prop :=
  ∀ n, g (reportAt dir n) = none → ∀ q, Indexed dir n q → g q = none

/-- A rotation with these files takes marked suffixes only. -/
def TakenMarked (u : Unicode) (dir : Path) (g : Path → Option String) : Prop :=
  ∀ group name base rest, g (dir ++ [group, name]) ≠ none → current u name = some (base, rest) →
    ("core.".toList <+: rest ∨ ∃ name' rest', g (dir ++ [group, name']) ≠ none ∧
      current u name' = some (base, rest') ∧ failureRest rest' = true) → Marked u rest

/-- The suffix of a failed test or of a core: a rotation takes it whatever else
its group holds. -/
def Kept (rest : List Char) : Prop := failureRest rest = true ∨ "core.".toList <+: rest

/-- The evidence of a run: its report, its log and its failure artefacts. -/
inductive Evidence (u : Unicode) (dir : Path) : Path → Prop
  | report : Evidence u dir (dir ++ ["result.xml"])
  | log : Evidence u dir (dir ++ ["check.log"])
  | artefact {group name : String} {base rest : List Char}
      (hcurrent : current u name = some (base, rest)) (hkept : Kept rest) :
      Evidence u dir (dir ++ [group, name])

/-- No evidence under its own name. -/
def Cleared (u : Unicode) (dir : Path) (g : Path → Option String) : Prop :=
  ∀ q, Evidence u dir q → g q = none

theorem current_inj {u : Unicode} {name name' : String} {br : List Char × List Char}
    (h : current u name = some br) (h' : current u name' = some br) : name = name' := by
  rw [← String.toList_inj, (current_iff.mp h).1, (current_iff.mp h').1]

/-- A name with one dot carries no index. -/
theorem rotatedName_ne {base rest : List Char} (hbase : '.' ∉ base) (n : ℕ) (stem ext : List Char)
    (hstem : '.' ∉ stem) (hext : '.' ∉ ext) : rotatedName base n rest ≠ String.ofList (stem ++ '.' :: ext) := by
  intro heq
  have hlist := congrArg String.toList heq
  rw [rotatedName_toList, String.toList_ofList] at hlist
  obtain ⟨-, rfl⟩ := append_sep_inj hbase hstem hlist
  exact hext (List.mem_append_right _ List.mem_cons_self)

section SetAside

variable {u : Unicode} {dir : Path} {m n : ℕ} {p p' q q' : Path}

theorem SetAside.below (h : SetAside u dir n p q) :
    Text.below dir p = true ∧ Text.below dir q = true := by
  cases h with
  | report => exact ⟨(Text.below_iff _ _).mpr ⟨_, _, rfl⟩, (Text.below_iff _ _).mpr ⟨_, _, rfl⟩⟩
  | log => exact ⟨(Text.below_iff _ _).mpr ⟨_, _, rfl⟩, (Text.below_iff _ _).mpr ⟨_, _, rfl⟩⟩
  | artefact => exact ⟨(Text.below_iff _ _).mpr ⟨_, _, rfl⟩, (Text.below_iff _ _).mpr ⟨_, _, rfl⟩⟩

theorem SetAside.indexed (h : SetAside u dir n p q) : Indexed dir n q := by
  cases h with
  | report => exact .report
  | log => exact .log
  | artefact hcurrent => exact .artefact (current_iff.mp hcurrent).2.1

/-- The name of an indexed path, with what it says. -/
theorem Indexed.name (h : Indexed dir n q) : ∃ front base rest, '.' ∉ base ∧
    q = front ++ [rotatedName base n rest] := by
  cases h with
  | report => exact ⟨dir, _, _, by decide, rfl⟩
  | log => exact ⟨dir, _, _, by decide, rfl⟩
  | artefact hbase => exact ⟨dir ++ [_], _, _, hbase, by rw [List.append_assoc]; rfl⟩

theorem Indexed.unique (h : Indexed dir m q) (h' : Indexed dir n q) : m = n := by
  obtain ⟨front, base, rest, hbase, hq⟩ := h.name
  obtain ⟨front', base', rest', hbase', hq'⟩ := h'.name
  obtain ⟨-, hlast⟩ := List.append_inj' (hq.symm.trans hq') rfl
  exact (rotatedName_inj hbase hbase' (List.singleton_inj.mp hlast)).2.1

/-- An indexed path is neither the report nor the log. -/
theorem Indexed.ne_file (h : Indexed dir n q) :
    q ≠ dir ++ ["result.xml"] ∧ q ≠ dir ++ ["check.log"] := by
  obtain ⟨front, base, rest, hbase, rfl⟩ := h.name
  constructor
  · intro heq
    obtain ⟨-, hlast⟩ := List.append_inj' heq rfl
    exact rotatedName_ne hbase n "result".toList "xml".toList (by decide) (by decide)
      (List.singleton_inj.mp hlast)
  · intro heq
    obtain ⟨-, hlast⟩ := List.append_inj' heq rfl
    exact rotatedName_ne hbase n "check".toList "log".toList (by decide) (by decide)
      (List.singleton_inj.mp hlast)

/-- What was set aside is not current. -/
theorem SetAside.not_current (hu : Decimal u) (h : SetAside u dir n p q) {group name : String}
    (hq : q = dir ++ [group, name]) : current u name = none := by
  cases h with
  | report => cases List.append_cancel_left hq
  | log => cases List.append_cancel_left hq
  | artefact hcurrent hmarked =>
      obtain ⟨-, hname⟩ := List.cons.inj (List.append_cancel_left hq)
      rw [← List.singleton_inj.mp hname]
      exact current_rotated hu (current_iff.mp hcurrent).2.1 n hmarked

/-- What was set aside is not set aside again. -/
theorem SetAside.last (hu : Decimal u) (h : SetAside u dir m p q) (h' : SetAside u dir n p' q') :
    q ≠ p' := by
  intro heq
  cases h' with
  | report => exact h.indexed.ne_file.1 heq
  | log => exact h.indexed.ne_file.2 heq
  | artefact hcurrent =>
      rw [h.not_current hu heq] at hcurrent
      cases hcurrent

/-- An indexed name says what was set aside. -/
theorem SetAside.inj (h : SetAside u dir m p q) (h' : SetAside u dir n p' q') (heq : q = q') :
    p = p' := by
  have hresult : '.' ∉ "result".toList := by decide
  have hcheck : '.' ∉ "check".toList := by decide
  cases h with
  | report =>
      cases h' with
      | report => rfl
      | log =>
          have hname := List.singleton_inj.mp (List.append_cancel_left heq)
          exact absurd (rotatedName_inj hresult hcheck hname).1 (by decide)
      | artefact => cases List.append_cancel_left heq
  | log =>
      cases h' with
      | report =>
          have hname := List.singleton_inj.mp (List.append_cancel_left heq)
          exact absurd (rotatedName_inj hcheck hresult hname).1 (by decide)
      | log => rfl
      | artefact => cases List.append_cancel_left heq
  | artefact hcurrent =>
      cases h' with
      | report => cases List.append_cancel_left heq
      | log => cases List.append_cancel_left heq
      | artefact hcurrent' =>
          obtain ⟨hgroup, hrest⟩ := List.cons.inj (List.append_cancel_left heq)
          obtain ⟨hbase, -, hrest⟩ := rotatedName_inj (current_iff.mp hcurrent).2.1
            (current_iff.mp hcurrent').2.1 (List.singleton_inj.mp hrest)
          rw [hgroup, current_inj hcurrent (by rw [hcurrent', hbase, hrest])]

/-! ## What a move keeps -/

variable {g g' : Path → Option String}

/-- With no file of an index there, all its names are free. -/
theorem accounted_free (hg : Accounted dir g) (hn : g (reportAt dir n) = none) :
    Free (SetAside u dir n) g := fun _ q' h _ => hg n hn q' h.indexed

theorem free_move (hu : Decimal u) (h : Move (SetAside u dir n) g g')
    (hg : Free (SetAside u dir n) g) : Free (SetAside u dir n) g' :=
  move_free (fun _ _ _ h h' => h.inj h' rfl) (fun _ _ _ h h' => h.last hu h' rfl) h hg

/-- The files of an index still have their report, once the moves' own index
has one. -/
theorem accounted_moves (hu : Decimal u) (h : Moves (SetAside u dir n) g g')
    (hg : Accounted dir g) (hn : g' (reportAt dir n) ≠ none) : Accounted dir g' := by
  intro k hk q hq
  have hkn : k ≠ n := by
    rintro rfl
    exact hn hk
  have hreport : g (reportAt dir k) = none := by
    rw [Option.eq_none_iff_forall_ne_some]
    intro text htext
    obtain ⟨q', hway, hq'⟩ := moves_kept h htext
    rcases hway.cases_head with rfl | ⟨x, hstep, -⟩
    · rw [hk] at hq'
      cases hq'
    · exact SetAside.last hu (SetAside.report (u := u) (n := k)) hstep rfl
  by_contra hthere
  rcases moves_origin h hthere with hbefore | ⟨p, hp⟩
  · exact hbefore (hg k hreport q hq)
  · exact hkn (hq.unique hp.indexed)

/-- Only current files are taken, and a move adds none. -/
theorem takenMarked_move (hu : Decimal u) (h : Move (SetAside u dir n) g g')
    (hg : TakenMarked u dir g) : TakenMarked u dir g' := by
  have hback : ∀ {group name br}, current u name = some br → g' (dir ++ [group, name]) ≠ none →
      g (dir ++ [group, name]) ≠ none := by
    intro group name br hcurrent hthere
    rcases move_origin h hthere with hbefore | ⟨p, hp⟩
    · exact hbefore
    · rw [hp.not_current hu rfl] at hcurrent
      cases hcurrent
  intro group name base rest hthere hcurrent htaken
  refine hg group name base rest (hback hcurrent hthere) hcurrent ?_
  rcases htaken with hcore | ⟨name', rest', hthere', hcurrent', hfail⟩
  · exact .inl hcore
  · exact .inr ⟨name', rest', hback hcurrent' hthere', hcurrent', hfail⟩

end SetAside

/-! ## The bodies as moves -/

section Bodies

variable {u : Unicode} {dir : Path} {n : ℕ} {d : Disk}

/-- Files a rotation under an index finds every name free for, and takes marked
suffixes of. -/
def Ready (u : Unicode) (dir : Path) (n : ℕ) (fs : Files) : Prop :=
  Decimal u ∧ Free (SetAside u dir n) (contents dir fs) ∧ TakenMarked u dir (contents dir fs)

/-- From such files, moves under the index. -/
def Rotates (u : Unicode) (dir : Path) (n : ℕ) (fs fs' : Files) : Prop :=
  Ready u dir n fs → Moves (SetAside u dir n) (contents dir fs) (contents dir fs')

theorem ready_moves {fs fs' : Files} (h : Ready u dir n fs)
    (hmoves : Moves (SetAside u dir n) (contents dir fs) (contents dir fs')) :
    Ready u dir n fs' :=
  ⟨h.1, moves_keep (fun _ _ => free_move h.1) hmoves h.2.1,
    moves_keep (fun _ _ => takenMarked_move h.1) hmoves h.2.2⟩

instance : Std.Refl (Rotates u dir n) := ⟨fun _ _ => .refl⟩

instance : IsTrans Files (Rotates u dir n) :=
  ⟨fun _ _ _ h h' hready => (h hready).trans (h' (ready_moves hready (h hready)))⟩

theorem rename_rotates {p target : Path} (h : SetAside u dir n p target) :
    Exec.Within (Rotates u dir n) (rename d p target) :=
  fun _ hready => rename_moves h h.below.1 h.below.2 hready.2.1

theorem keepFile_rotates (stem ext : String)
    (h : SetAside u dir n (dir ++ [stem ++ "." ++ ext])
      (dir ++ [rotatedName stem.toList n ext.toList])) :
    Exec.Within (Rotates u dir n) (keepFile d dir n stem ext) :=
  Exec.within_bind Exec.within_get fun _ =>
    Exec.within_ite (fun _ => rename_rotates h) fun _ => Exec.within_pure ()

theorem mem_fileNames {fs : Files} {name : String} :
    name ∈ fileNames fs dir ↔ fs.read? (dir ++ [name]) ≠ none := by
  rw [fileNames, List.mem_filter, Files.isFile_iff, and_iff_right_iff_imp]
  exact Files.mem_entries_of_read

theorem contents_child {fs : Files} {group name : String} :
    contents dir fs (dir ++ [group, name]) = fs.read? (dir ++ [group] ++ [name]) := by
  rw [contents_below ((Text.below_iff _ _).mpr ⟨group, [name], rfl⟩), List.append_assoc]
  rfl

/-- The renames of a group are moves. -/
theorem moves_setAside {fs : Files} (h : TakenMarked u dir (contents dir fs)) {group : String}
    {move : String × String} (hmove : move ∈ moves u n (fileNames fs (dir ++ [group]))) :
    SetAside u dir n (dir ++ [group] ++ [move.1]) (dir ++ [group] ++ [move.2]) := by
  obtain ⟨base, rest, hname, hcurrent, htaken, hto⟩ := mem_moves.mp hmove
  rw [mem_fileNames, ← contents_child] at hname
  have hmarked : Marked u rest := by
    refine h group move.1 base rest hname hcurrent ?_
    rcases htaken with hfailing | hcore
    · obtain ⟨name', hname', rest', hcurrent', hfail⟩ := mem_failingBases.mp hfailing
      rw [mem_fileNames, ← contents_child] at hname'
      exact .inr ⟨name', rest', hname', hcurrent', hfail⟩
    · exact .inl hcore
  rw [hto, List.append_assoc, List.append_assoc]
  exact .artefact hcurrent hmarked

theorem rotateGroup_rotates (group : String) (count : ℕ) :
    Exec.Within (Rotates u dir n) (rotateGroup d u n (dir ++ [group]) count) := by
  intro fs hready
  have hloop : Exec.Within (Rotates u dir n)
      ((moves u n (fileNames fs (dir ++ [group]))).foldlM (fun count move => do
        rename d (dir ++ [group] ++ [move.1]) (dir ++ [group] ++ [move.2])
        return count + 1) count) :=
    Exec.within_foldlM (fun _ move hmove =>
      Exec.within_bind (rename_rotates (moves_setAside hready.2.2 hmove)) fun _ =>
        Exec.within_pure _) count
  exact hloop fs hready

theorem rotateFailureArtifacts_rotates :
    Exec.Within (Rotates u dir n) (rotateFailureArtifacts d u dir n) := by
  refine Exec.within_bind Exec.within_get fun fs => Exec.within_ite (fun _ => ?_) fun _ => ?_
  · refine Exec.within_foldlM (fun count group hgroup => ?_) 0
    obtain ⟨name, -, rfl⟩ := List.mem_map.mp hgroup
    exact rotateGroup_rotates name count
  · exact Exec.within_pure 0

/-- A current file that is there after some moves was there before. -/
theorem current_before {fs fs' : Files} (hu : Decimal u)
    (hmoves : Moves (SetAside u dir n) (contents dir fs) (contents dir fs')) {group name : String}
    {br : List Char × List Char} (hcurrent : current u name = some br)
    (h : fs'.read? (dir ++ [group] ++ [name]) ≠ none) :
    fs.read? (dir ++ [group] ++ [name]) ≠ none := by
  rw [← contents_child] at h ⊢
  rcases moves_origin hmoves h with hbefore | ⟨p, hp⟩
  · exact hbefore
  · rw [hp.not_current hu rfl] at hcurrent
    cases hcurrent

theorem kept_taken {names : List String} {name : String} {base rest : List Char}
    (hname : name ∈ names) (hcurrent : current u name = some (base, rest)) (hkept : Kept rest) :
    Taken u names base rest := by
  rcases hkept with hfail | hcore
  · exact .inl (mem_failingBases.mpr ⟨name, hname, rest, hcurrent, hfail⟩)
  · exact .inr hcore

/-- A group that was rotated has no current evidence. -/
theorem rotateGroup_ok {group : String} {count count' : ℕ} {fs fs' : Files}
    (hready : Ready u dir n fs)
    (h : rotateGroup d u n (dir ++ [group]) count fs = (.ok count', fs')) {name : String}
    {base rest : List Char} (hcurrent : current u name = some (base, rest)) (hkept : Kept rest) :
    fs'.read? (dir ++ [group] ++ [name]) = none := by
  by_contra hthere
  have hmoves := rotateGroup_rotates (d := d) group count fs hready
  rw [h] at hmoves
  have hname : name ∈ fileNames fs (dir ++ [group]) :=
    mem_fileNames.mpr (current_before hready.1 hmoves hcurrent hthere)
  have hmove : (name, rotatedName base n rest) ∈ moves u n (fileNames fs (dir ++ [group])) :=
    mem_moves.mpr ⟨base, rest, hname, hcurrent, kept_taken hname hcurrent hkept, rfl⟩
  have hside : ∀ move ∈ moves u n (fileNames fs (dir ++ [group])),
      SetAside u dir n (dir ++ [group] ++ [move.1]) (dir ++ [group] ++ [move.2]) :=
    fun _ hmove => moves_setAside hready.2.2 hmove
  rw [rotateGroup, Exec.bind_ok _ (Exec.get_apply fs)] at h
  have heach := (Exec.foldlM_each_inv (I := fun _ => True)
    (P := fun move s => Files.read? s (dir ++ [group] ++ [move.1]) = none)
    (fun _ _ _ _ _ => trivial) ?_ ?_ trivial h).2 _ hmove
  · exact hthere heach
  · intro c s c' s' move hmove _ hrun
    obtain ⟨_, s₁, hrename, hpure⟩ := Exec.bind_ok_inv hrun
    cases hpure
    obtain ⟨text, -, hafter⟩ := rename_ok hrename
    rw [hafter, if_neg, if_pos rfl]
    exact fun heq => (hside move hmove).last hready.1 (hside move hmove) heq.symm
  · intro c s move hmove other hother _ habsent
    have hstate := Exec.bind_lift_snd
      (rename d (dir ++ [group] ++ [other.1]) (dir ++ [group] ++ [other.2]))
      (fun _ => .ok (c + 1)) s
    refine (congrArg (fun s' => Files.read? s' _) hstate).trans (rename_absent ?_ habsent)
    exact fun heq => (hside other hother).last hready.1 (hside move hmove) heq.symm

/-- A rotation of the artefacts that returned leaves none that is current. -/
theorem rotateFailureArtifacts_ok {fs fs' : Files} {count : ℕ} (hready : Ready u dir n fs)
    (h : rotateFailureArtifacts d u dir n fs = (.ok count, fs')) {group name : String}
    {base rest : List Char} (hcurrent : current u name = some (base, rest)) (hkept : Kept rest) :
    fs'.read? (dir ++ [group] ++ [name]) = none := by
  by_contra hthere
  have hmoves := rotateFailureArtifacts_rotates (d := d) fs hready
  rw [h] at hmoves
  have hbefore := current_before hready.1 hmoves hcurrent hthere
  have hbelow : Text.below dir (dir ++ [group] ++ [name]) = true :=
    (Text.below_iff _ _).mpr ⟨group, [name], by simp⟩
  have hgroup : dir ++ [group] ∈ groupDirs fs dir := by
    refine List.mem_map_of_mem ?_
    rw [List.mem_mergeSort, List.mem_filter]
    have hdir : fs.isDir (dir ++ [group]) = true :=
      Files.isDir_of_below hbefore ((Text.below_iff _ _).mpr ⟨name, [], rfl⟩)
    refine ⟨Files.mem_entries_of_exists ?_, hdir⟩
    rw [Files.exists?, hdir, Bool.or_true]
  rw [rotateFailureArtifacts, Exec.bind_ok _ (Exec.get_apply fs),
    if_pos (Files.isDir_of_below hbefore hbelow)] at h
  have hname : ∀ x ∈ groupDirs fs dir, ∃ g, x = dir ++ [g] := by
    intro x hx
    obtain ⟨g, -, rfl⟩ := List.mem_map.mp hx
    exact ⟨g, rfl⟩
  have heach := (Exec.foldlM_each_inv (I := Ready u dir n)
    (P := fun x s => ∀ name base rest, current u name = some (base, rest) → Kept rest →
      Files.read? s (x ++ [name]) = none) ?_ ?_ ?_ hready h).2 _ hgroup
  · exact hthere (heach name base rest hcurrent hkept)
  · intro c s x hx hs
    obtain ⟨g, rfl⟩ := hname x hx
    exact ready_moves hs (rotateGroup_rotates g c s hs)
  · intro c s c' s' x hx hs hrun name base rest hcurrent hkept
    obtain ⟨g, rfl⟩ := hname x hx
    exact rotateGroup_ok hs hrun hcurrent hkept
  · intro c s x hx y hy hs habsent name base rest hcurrent hkept
    obtain ⟨g, rfl⟩ := hname x hx
    obtain ⟨g', rfl⟩ := hname y hy
    by_contra hafter
    exact current_before hs.1 (rotateGroup_rotates g' c s hs) hcurrent hafter
      (habsent name base rest hcurrent hkept)

/-! ## The results of a section -/

/-- One of the indices tried is free: there are more of them than names. -/
theorem freeIndex_free (fs : Files) (dir : Path) :
    fs.exists? (reportAt dir (freeIndex fs dir)) = false := by
  let name : ℕ → String := fun n => rotatedName "result".toList n "xml".toList
  have hsome : ∃ n ∈ List.range' 1 ((fs.entries dir).length + 1),
      (!fs.exists? (dir ++ [name n])) = true := by
    by_contra hall
    simp only [not_exists, not_and, Bool.not_eq_true, Bool.not_eq_false'] at hall
    have hnodup : ((List.range' 1 ((fs.entries dir).length + 1)).map name).Nodup := by
      refine List.Nodup.map ?_ List.nodup_range'
      exact fun m n heq => (rotatedName_inj (by decide) (by decide) heq).2.1
    have hsub : (List.range' 1 ((fs.entries dir).length + 1)).map name ⊆ fs.entries dir := by
      intro x hx
      obtain ⟨n, hn, rfl⟩ := List.mem_map.mp hx
      exact Files.mem_entries_of_exists (hall n hn)
    have hlen := (hnodup.subperm hsub).length_le
    rw [List.length_map, List.length_range'] at hlen
    omega
  obtain ⟨n, hfind⟩ := Option.isSome_iff_exists.mp (List.find?_isSome.mpr hsome)
  have hfree := List.find?_some hfind
  have hindex : freeIndex fs dir = n := by
    rw [freeIndex, hfind]
    rfl
  rw [hindex]
  exact Bool.not_eq_true' _ ▸ hfree

/-- What a render keeps of a section's results besides the report. -/
def keepRest (d : Disk) (u : Unicode) (dir : Path) (n : ℕ) (sectionName : String)
    (out : Emitted) : Exec Files Emitted := do
  keepFile d dir n "check" "log"
  let archived ← rotateFailureArtifacts d u dir n
  let rotated := Dict.set out.rotated sectionName n
  if 0 < archived then
    return { out with
      rotated := rotated
      archivedFailures := Dict.set out.archivedFailures sectionName archived }
  else return { out with rotated := rotated }

/-- With a report there, it is kept first. -/
theorem clearResults_present {fs : Files} (h : fs.read? (dir ++ ["result.xml"]) ≠ none)
    (sectionName : String) (out : Emitted) : clearResults d u false dir sectionName out fs =
      (keepFile d dir (freeIndex fs dir) "result" "xml" >>= fun _ =>
        keepRest d u dir (freeIndex fs dir) sectionName out) fs := by
  have hrotate : rotateResults d dir fs = (keepFile d dir (freeIndex fs dir) "result" "xml" >>=
      fun _ => keepFile d dir (freeIndex fs dir) "check" "log" >>= fun _ =>
        (pure (some (freeIndex fs dir)) : Exec Files (Option ℕ))) fs := by
    rw [rotateResults, Exec.bind_ok _ (Exec.get_apply fs), if_pos (Files.isFile_iff.mpr h)]
  rw [clearResults, Exec.bind_ok _ (Exec.get_apply fs)]
  show (rotateResults d dir >>= _) fs = _
  rw [Exec.bind_congr_at _ hrotate, Exec.bind_assoc']
  refine congrFun (congrArg _ (funext fun _ => ?_)) fs
  rw [Exec.bind_assoc']
  rfl

theorem clearResults_absent {fs : Files} (h : fs.read? (dir ++ ["result.xml"]) = none)
    (sectionName : String) (out : Emitted) :
    clearResults d u false dir sectionName out fs = (.ok out, fs) := by
  rw [clearResults, Exec.bind_ok _ (Exec.get_apply fs)]
  show (rotateResults d dir >>= _) fs = _
  rw [Exec.bind_ok _ (rotateResults_absent h)]
  rfl

theorem keepRest_rotates (sectionName : String) (out : Emitted) :
    Exec.Within (Rotates u dir n) (keepRest d u dir n sectionName out) :=
  Exec.within_bind (keepFile_rotates "check" "log" .log) fun _ =>
    Exec.within_bind rotateFailureArtifacts_rotates fun _ =>
      Exec.within_ite (fun _ => Exec.within_pure _) fun _ => Exec.within_pure _

/-- A file kept under an index has that name, not its own. -/
theorem keepFile_ok {stem ext : String} {fs fs' : Files}
    (hne : rotatedName stem.toList n ext.toList ≠ stem ++ "." ++ ext)
    (h : keepFile d dir n stem ext fs = (.ok (), fs')) :
    fs'.read? (dir ++ [stem ++ "." ++ ext]) = none ∧
      (fs.read? (dir ++ [stem ++ "." ++ ext]) ≠ none →
        fs'.read? (dir ++ [rotatedName stem.toList n ext.toList]) ≠ none) := by
  rw [keepFile, Exec.bind_ok _ (Exec.get_apply fs)] at h
  change (if fs.isFile (dir ++ [stem ++ "." ++ ext]) = true then _ else (pure () : Exec Files Unit))
    fs = _ at h
  split at h
  · obtain ⟨text, hread, hafter⟩ := rename_ok h
    have hpath : dir ++ [stem ++ "." ++ ext] ≠ dir ++ [rotatedName stem.toList n ext.toList] :=
      fun heq => hne (List.singleton_inj.mp (List.append_cancel_left heq)).symm
    rw [hafter, if_neg hpath, if_pos rfl, hafter, if_pos rfl]
    exact ⟨rfl, fun _ => Option.some_ne_none text⟩
  · next hfile =>
      cases h
      have hnone : fs.read? (dir ++ [stem ++ "." ++ ext]) = none := by
        by_contra hthere
        exact hfile (Files.isFile_iff.mpr hthere)
      exact ⟨hnone, fun hthere => absurd hnone hthere⟩

theorem keepFile_error {stem ext : String} {fs fs' : Files} {e : PyError}
    (h : keepFile d dir n stem ext fs = (.error e, fs')) : fs' = fs := by
  rw [keepFile, Exec.bind_ok _ (Exec.get_apply fs)] at h
  change (if fs.isFile (dir ++ [stem ++ "." ++ ext]) = true then _ else (pure () : Exec Files Unit))
    fs = _ at h
  split at h
  · exact rename_error h
  · cases h

/-- Evidence that is there after some moves was there before. -/
theorem evidence_before {fs fs' : Files} (hu : Decimal u)
    (hmoves : Moves (SetAside u dir n) (contents dir fs) (contents dir fs')) {q : Path}
    (hq : Evidence u dir q) (h : contents dir fs' q ≠ none) : contents dir fs q ≠ none := by
  rcases moves_origin hmoves h with hbefore | ⟨p, hp⟩
  · exact hbefore
  · cases hq with
    | report => exact absurd rfl hp.indexed.ne_file.1
    | log => exact absurd rfl hp.indexed.ne_file.2
    | artefact hcurrent =>
        rw [hp.not_current hu rfl] at hcurrent
        cases hcurrent

/-- The rest of a rotation, returned with no report there, leaves no evidence. -/
theorem keepRest_ok {fs fs' : Files} (hready : Ready u dir n fs) {sectionName : String}
    {out out' : Emitted} (hreport : fs.read? (dir ++ ["result.xml"]) = none)
    (h : keepRest d u dir n sectionName out fs = (.ok out', fs')) :
    Cleared u dir (contents dir fs') := by
  obtain ⟨_, fs₁, hlog, h⟩ := Exec.bind_ok_inv h
  obtain ⟨archived, fs₂, hrotate, h⟩ := Exec.bind_ok_inv h
  have hsame : fs₂ = fs' := by
    split at h
    · cases h; rfl
    · cases h; rfl
  subst hsame
  have hmoves₁ := keepFile_rotates (d := d) "check" "log" .log fs hready
  rw [hlog] at hmoves₁
  have hready₁ : Ready u dir n fs₁ := ready_moves hready hmoves₁
  have hmoves₂ := rotateFailureArtifacts_rotates (d := d) fs₁ hready₁
  rw [hrotate] at hmoves₂
  have hchild : ∀ (fs : Files) (name : String), contents dir fs (dir ++ [name]) =
      fs.read? (dir ++ [name]) := fun fs name =>
    contents_below ((Text.below_iff _ _).mpr ⟨name, [], rfl⟩) fs
  intro q hq
  by_contra hthere
  have hbefore := evidence_before hready.1 hmoves₂ hq hthere
  cases hq with
  | report =>
      have hstart := evidence_before hready.1 hmoves₁ .report hbefore
      rw [hchild] at hstart
      exact hstart hreport
  | log =>
      rw [hchild] at hbefore
      exact hbefore (keepFile_ok (rotatedName_ne (by decide) n "check".toList "log".toList
        (by decide) (by decide)) hlog).1
  | artefact hcurrent hkept =>
      rw [contents_child] at hthere
      exact hthere (rotateFailureArtifacts_ok hready₁ hrotate hcurrent hkept)

/-- What a render without clean_results does to a section's results: moves under
one index, and when it returned after a report was there no evidence is left. -/
theorem clearResults_moves {fs : Files} (hu : Decimal u) (hacc : Accounted dir (contents dir fs))
    (hmarked : fs.read? (dir ++ ["result.xml"]) ≠ none → TakenMarked u dir (contents dir fs))
    (sectionName : String) (out : Emitted) {r : Except PyError Emitted} {fs' : Files}
    (h : clearResults d u false dir sectionName out fs = (r, fs')) :
    (∃ n, Moves (SetAside u dir n) (contents dir fs) (contents dir fs')) ∧
      Accounted dir (contents dir fs') ∧
      (fs.read? (dir ++ ["result.xml"]) = none ∧ fs' = fs ∨
        ∀ out', r = .ok out' → Cleared u dir (contents dir fs')) := by
  by_cases hreport : fs.read? (dir ++ ["result.xml"]) = none
  · rw [clearResults_absent hreport] at h
    cases h
    exact ⟨⟨0, .refl⟩, hacc, .inl ⟨hreport, rfl⟩⟩
  · rw [clearResults_present hreport] at h
    have hnone : contents dir fs (reportAt dir (freeIndex fs dir)) = none := by
      have hfree := freeIndex_free fs dir
      rw [Files.exists?, Bool.or_eq_false_iff] at hfree
      rw [contents_below (SetAside.report (u := u)).below.2]
      by_contra hthere
      rw [Files.isFile_iff.mpr hthere] at hfree
      cases hfree.1
    have hready : Ready u dir (freeIndex fs dir) fs := ⟨hu, accounted_free hacc hnone, hmarked hreport⟩
    have hmoves := keepFile_rotates (d := d) "result" "xml" .report fs hready
    have hname : rotatedName "result".toList (freeIndex fs dir) "xml".toList ≠
        "result" ++ "." ++ "xml" :=
      rotatedName_ne (by decide) _ "result".toList "xml".toList (by decide) (by decide)
    rcases hkeep : keepFile d dir (freeIndex fs dir) "result" "xml" fs with ⟨e | ⟨⟩, fs₁⟩
    · rw [Exec.bind_error _ hkeep] at h
      cases h
      rw [keepFile_error hkeep]
      refine ⟨⟨0, .refl⟩, hacc, .inr fun out' hout => ?_⟩
      cases hout
    · rw [hkeep] at hmoves
      rw [Exec.bind_ok _ hkeep] at h
      obtain ⟨hgone, hkept⟩ := keepFile_ok hname hkeep
      have hready₁ : Ready u dir (freeIndex fs dir) fs₁ := ready_moves hready hmoves
      have hrest := keepRest_rotates (d := d) sectionName out fs₁ hready₁
      rw [h] at hrest
      have hall := hmoves.trans hrest
      refine ⟨⟨_, hall⟩, accounted_moves hu hall hacc ?_, .inr fun out' hout => ?_⟩
      · obtain ⟨text, htext⟩ := Option.ne_none_iff_exists'.mp (hkept hreport)
        have hkept₁ : contents dir fs₁ (reportAt dir (freeIndex fs dir)) = some text := by
          rw [contents_below (SetAside.report (u := u)).below.2]
          exact htext
        obtain ⟨q', hway, hq'⟩ := moves_kept hrest hkept₁
        rcases hway.cases_head with rfl | ⟨x, hstep, -⟩
        · rw [hq']
          exact Option.some_ne_none text
        · exact absurd rfl (SetAside.last hu .report hstep)
      · rw [hout] at h
        exact keepRest_ok hready₁ hgone h

end Bodies

end KdevopsNg.Fstests
