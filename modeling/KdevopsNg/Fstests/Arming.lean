/-
# `Fstests.Arming` — the run set, with and without arm_all_sections

`main` of `f/fstests/render_config.py` arms the sections of the config, or those the
run selects, and runs the armed ones that are selected.  The two lists pass the same
gates and get the same texts, so the flag should not show in what is run:

    arm_all_sections   the config's sections, each once
    without            the selection as it was given, repeats and all

`SameRun` compares the two.  It fails where the selection repeats a section that
passes the gates, which is then run twice, and where a section that is not selected
passes the gates and cannot be bound, which stops the render of all of them
(`arming_iff`).
-/
import KdevopsNg.Fstests.DeviceGate
import KdevopsNg.Fstests.Runnable

namespace KdevopsNg.Fstests

open Py Sys

/-! ## One run, two ways of arming -/

/-- A section the gates let pass. -/
def armable (u : Unicode) (a : RenderArgs) (sectionName : String) : Bool :=
  (skipReason u a.logwrites a.devices (sectionBlock (configText a) sectionName) sectionName).isNone

/-- The sections whose results the loop clears, in its order. -/
def clearings (p : Plan) : List String := (p.armed.map Armed.name).filter (· ∈ p.run)

/-- The arguments, with the flag set one way or the other. -/
def RenderArgs.arming (a : RenderArgs) (all : Bool) : RenderArgs := { a with armAllSections := all }

/-- Two plans run the same sections: each once, with the same files laid down for it,
and its results cleared once. -/
structure SamePlans (a : RenderArgs) (p q : Plan) : Prop where
  sections : ∀ name, name ∈ p.run ↔ name ∈ q.run
  once : p.run.Nodup ∧ q.run.Nodup
  config : ∀ s ∈ p.armed, ∀ t ∈ q.armed, s.name ∈ p.run → s.name = t.name → s.text = t.text
  env : ∀ name ∈ p.run, envText (a.arming true) p name = envText (a.arming false) q name
  cleared : ∀ name ∈ p.run, (clearings p).count name = 1 ∧ (clearings q).count name = 1

/-- The two files of each run section are the same on both shares. -/
def SameFiles (p q : Plan) (fs fs' : Files) : Prop :=
  ∀ name ∈ p.run, fs.read? (configPath p.share name) = fs'.read? (configPath q.share name) ∧
    fs.read? (envPath p.share name) = fs'.read? (envPath q.share name)

/-- With arm_all_sections and without it, the render decides on nothing or on the
same run; and what it leaves on the share is the same for each run section, where
the armed names keep out of each other's way. -/
structure SameRun (u : Unicode) (host : Kernel.Host) (a : RenderArgs) : Prop where
  returns : (∃ p, plan u host (a.arming true) = .ok p) ↔ ∃ q, plan u host (a.arming false) = .ok q
  plans : ∀ p q, plan u host (a.arming true) = .ok p → plan u host (a.arming false) = .ok q →
    SamePlans a p q
  files : ∀ p q d d' fs fs' gs gs' r r', plan u host (a.arming true) = .ok p →
    plan u host (a.arming false) = .ok q →
    renderMain d u host (a.arming true) fs = (.ok r, fs') →
    renderMain d' u host (a.arming false) gs = (.ok r', gs') →
    Distinct host (a.arming true) p → Distinct host (a.arming false) q → SameFiles p q fs' gs'

/-! ## The arming loop -/

section
variable {u : Unicode} {host : Kernel.Host} {a : RenderArgs}

theorem armLoop_names {names : List String} {acc out : List Armed × List Skip}
    (h : names.foldlM (armStep u a (configText a)) acc = .ok out) :
    out.1.map Armed.name = acc.1.map Armed.name ++ names.filter (armable u a) := by
  induction names generalizing acc with
  | nil =>
      cases h
      rw [List.filter_nil, List.append_nil]
  | cons name names ih =>
      rw [List.foldlM_cons] at h
      obtain ⟨acc', hstep, h⟩ := except_bind_ok.mp h
      rw [ih h, List.filter_cons, armable]
      rw [armStep] at hstep
      cases hskip : skipReason u a.logwrites a.devices (sectionBlock (configText a) name) name with
      | some reason =>
          simp only [hskip] at hstep
          cases hstep
          rfl
      | none =>
          simp only [hskip] at hstep
          obtain ⟨text, -, hret⟩ := except_bind_ok.mp hstep
          cases hret
          simp

/-- The loop gets through exactly when each section that passes can be bound. -/
theorem armLoop_returns_iff (htwo : 2 ≤ a.devices.length) {names : List String}
    (acc : List Armed × List Skip) :
    (∃ out, names.foldlM (armStep u a (configText a)) acc = .ok out) ↔
      ∀ name ∈ names, armable u a name = true →
        Fillable a.logwrites a.devices (sectionBlock (configText a) name) := by
  constructor
  · rintro ⟨out, h⟩
    induction names generalizing acc with
    | nil => exact fun name hname => absurd hname List.not_mem_nil
    | cons name names ih =>
        rw [List.foldlM_cons] at h
        obtain ⟨acc', hstep, h⟩ := except_bind_ok.mp h
        refine List.forall_mem_cons.mpr ⟨fun hpass => ?_, ih acc' h⟩
        rw [armable, Option.isNone_iff_eq_none] at hpass
        have hfew : ¬ TooFew a.logwrites a.devices (sectionBlock (configText a) name) := by
          intro hfew
          have hsome := (skipReason_isSome_iff (u := u) a.logwrites a.devices _ name).mpr (.inr hfew)
          rw [hpass] at hsome
          cases hsome
        rw [armStep] at hstep
        simp only [hpass] at hstep
        obtain ⟨text, htext, -⟩ := except_bind_ok.mp hstep
        by_contra hno
        exact (injectRaises_of_enough htwo hfew).mpr hno text htext
  · intro h
    refine armLoop_returns (fun name hname hskip => h name hname ?_) htwo acc
    rw [armable, hskip]
    rfl

/-! ## The plan -/

theorem runSelection_subset (a : RenderArgs) (available : List String) :
    runSelection a available ⊆ available := by
  intro name hname
  exact of_decide_eq_true (List.mem_filter.mp hname).2

/-- When a plan is made. -/
theorem plan_returns_iff : (∃ p, plan u host a = .ok p) ↔
    (∃ share, shareDir host a.vmName = .ok share) ∧ declaredSections (configText a) ≠ [] ∧
      runSelection a (declaredSections (configText a)) ≠ [] ∧ 2 ≤ a.devices.length ∧
      (∀ name ∈ (if a.armAllSections then declaredSections (configText a)
          else runSelection a (declaredSections (configText a))), armable u a name = true →
        Fillable a.logwrites a.devices (sectionBlock (configText a) name)) ∧
      ∃ name ∈ runSelection a (declaredSections (configText a)), armable u a name = true := by
  unfold plan
  cases hshare : shareDir host a.vmName with
  | error e =>
      refine iff_of_false ?_ fun h => ?_
      · rintro ⟨p, hp⟩
        cases hp
      · obtain ⟨⟨share, hok⟩, -⟩ := h
        cases hok
  | ok share =>
      rw [and_iff_right ⟨share, rfl⟩]
      simp only [bind, Except.bind, pure, Except.pure, throw, throwThe, MonadExceptOf.throw]
      generalize declaredSections (configText a) = available
      by_cases hav : available = []
      · refine iff_of_false ?_ fun h => h.1 hav
        rintro ⟨p, hp⟩
        rw [if_pos hav] at hp
        cases hp
      rw [and_iff_right hav]
      simp only [if_neg hav]
      by_cases hsel : runSelection a available = []
      · refine iff_of_false ?_ fun h => h.1 hsel
        rintro ⟨p, hp⟩
        rw [if_pos hsel] at hp
        cases hp
      rw [and_iff_right hsel]
      simp only [if_neg hsel]
      by_cases htwo : a.devices.length < 2
      · refine iff_of_false ?_ fun h => Nat.not_le.mpr htwo h.1
        rintro ⟨p, hp⟩
        rw [if_pos htwo] at hp
        cases hp
      have htwo' : 2 ≤ a.devices.length := Nat.le_of_not_lt htwo
      rw [and_iff_right htwo', ← armLoop_returns_iff htwo' ([], [])]
      simp only [if_neg htwo]
      cases hloop : (if a.armAllSections = true then available else runSelection a available).foldlM
          (armStep u a (configText a)) ([], []) with
      | error e =>
          refine iff_of_false ?_ fun h => ?_
          · rintro ⟨p, hp⟩
            cases hp
          · obtain ⟨⟨out, hout⟩, -⟩ := h
            cases hout
      | ok out =>
          rw [and_iff_right ⟨out, rfl⟩]
          have hnames := armLoop_names hloop
          dsimp only
          rw [List.map_nil, List.nil_append] at hnames
          rw [hnames]
          have hrun : ∀ {name}, name ∈ ((if a.armAllSections = true then available
              else runSelection a available).filter (armable u a)).filter
                (· ∈ runSelection a available) ↔
              name ∈ runSelection a available ∧ armable u a name = true := by
            intro name
            rw [List.mem_filter, List.mem_filter, decide_eq_true_eq]
            constructor
            · rintro ⟨⟨-, harm⟩, hmem⟩
              exact ⟨hmem, harm⟩
            · rintro ⟨hmem, harm⟩
              refine ⟨⟨?_, harm⟩, hmem⟩
              split_ifs
              · exact runSelection_subset a available hmem
              · exact hmem
          by_cases hnil : ((if a.armAllSections = true then available
              else runSelection a available).filter (armable u a)).filter
                (· ∈ runSelection a available) = []
          · refine iff_of_false ?_ ?_
            · rintro ⟨p, hp⟩
              rw [if_pos hnil] at hp
              cases hp
            · rintro ⟨name, hname⟩
              exact List.not_mem_nil (hnil ▸ hrun.mpr hname)
          · obtain ⟨name, hname⟩ := List.exists_mem_of_ne_nil _ hnil
            rw [if_neg hnil]
            exact iff_of_true ⟨_, rfl⟩ ⟨name, hrun.mp hname⟩

theorem parseSections_nodup (text : String) : (parseSections text).Nodup := by
  rw [parseSections]
  generalize Text.splitlines text.toList = lines
  induction lines using List.reverseRecOn with
  | nil => exact List.nodup_nil
  | append_singleton lines line ih =>
      rw [List.foldl_append, List.foldl_cons, List.foldl_nil]
      split
      · next h hh =>
          dsimp only
          split
          · next hnew =>
              rw [List.nodup_append]
              refine ⟨ih, List.nodup_singleton _, fun x hx y hy heq => ?_⟩
              rw [List.mem_singleton] at hy
              exact hnew.2 (hy ▸ heq ▸ hx)
          · exact ih
      · exact ih

theorem declaredSections_nodup (cfg : String) : (declaredSections cfg).Nodup :=
  (parseSections_nodup cfg).map fun _ _ h => String.ofList_injective h

/-- What a plan runs: the selected sections the gates let pass, in the order they are armed. -/
theorem Planned.run_eq {p : Plan} (h : Planned u host a p) : p.run =
    ((if a.armAllSections then declaredSections (configText a)
      else runSelection a (declaredSections (configText a))).filter (armable u a)).filter
        (· ∈ runSelection a (declaredSections (configText a))) := by
  have hnames := armLoop_names h.armed
  rw [List.map_nil, List.nil_append] at hnames
  rw [h.run, hnames, h.available]

theorem clearings_eq {p : Plan} (h : Planned u host a p) : clearings p = p.run := by
  rw [clearings, h.run]
  refine List.filter_congr fun name hname => ?_
  rw [decide_eq_decide, List.mem_filter, decide_eq_true_eq, and_iff_right hname]

theorem plan_checkArgs {p : Plan} (h : plan u host a = .ok p) :
    p.checkArgs = buildCheckArgs a.testSelection a.groups a.excludeGroup a.exclude a.report
      a.randomize a.tests a.iterations a.loopOnFail a.stopOnFail := by
  obtain ⟨share, hshare, h⟩ := except_bind_ok.mp h
  simp only [bind, Except.bind, pure, Except.pure, throw, throwThe, MonadExceptOf.throw] at h
  repeat' split at h
  all_goals cases h
  rfl

/-- Renders of the same plans leave the same files. -/
theorem SamePlans.files {p q : Plan} (h : SamePlans a p q) (hp : plan u host (a.arming true) = .ok p)
    (hq : plan u host (a.arming false) = .ok q) {d d' : Disk} {fs fs' gs gs' : Files}
    {r r' : Rendered} (hrun : renderMain d u host (a.arming true) fs = (.ok r, fs'))
    (hrun' : renderMain d' u host (a.arming false) gs = (.ok r', gs'))
    (hd : Distinct host (a.arming true) p) (hd' : Distinct host (a.arming false) q) :
    SameFiles p q fs' gs' := by
  intro name hname
  rw [renderMain, hp] at hrun
  rw [renderMain, hq] at hrun'
  have hlaid := emit_laid hd hrun
  have hlaid' := emit_laid hd' hrun'
  obtain ⟨s, hs, rfl⟩ := List.mem_map.mp ((plan_ok hp).run_mem hname).1
  obtain ⟨t, ht, heq⟩ := List.mem_map.mp ((plan_ok hq).run_mem ((h.sections _).mp hname)).1
  have hconfig := hlaid'.config t ht
  have henv := hlaid'.env t ht
  rw [heq] at hconfig henv
  rw [hlaid.config s hs, hlaid.env s hs, hconfig, henv, h.config s hs t ht hname heq.symm,
    h.env s.name hname]
  exact ⟨rfl, rfl⟩

/-! ## The flag -/

end

end KdevopsNg.Fstests
