/-
# `Qemu.Layers` — the run layers of QEMU builds among their devel layers

`f/qemu/publish.py` puts a build in the store index as `qemu-<prefix>`,
`f/qemu/publish_devel.py` puts its devel layer there as `qemu-devel-<prefix>`, `<prefix>`
the name of the install prefix.  The index tells the two apart by `qemu-devel-`.

    <version>-<label>-<sanitizer>-<identity>       each but the identity may be missing

A build whose prefix begins with `devel-` is taken for a devel layer: one whose version, or
without a version whose label, is `devel` or begins with `devel-` (`DevelLed`).  Of the
others every run layer is listed, and no devel layer is (`layers_told_apart_iff`).
-/
import KdevopsNg.Common.RunLayers
import KdevopsNg.Py.Path
import KdevopsNg.Qemu.Identity

namespace KdevopsNg.Qemu

open Py Text
open Common (IndexEntry Index startsWith listRunLayers latestRunLayer mtimeOf)

/-! ## The layers of a build -/

/-- What names a build, and where it is installed. -/
structure Build where
  destdir : String
  version : List Char
  label : String
  sanitizer : String
  segment : String
  identity : Digest
  isSegment : prefixSegment sanitizer = .ok segment

section
variable (u : Unicode)

/-- The prefix of a build: the components of `Path(destdir) / basename`. -/
def Build.installPrefix (b : Build) : List String :=
  let base := String.ofList (prefixBasename u b.version b.label b.identity.text b.segment.toList)
  if isAbsolute base then components base else components b.destdir ++ components base

/-- `Path(prefix).name`. -/
def Build.prefixName (b : Build) : String := (b.installPrefix u).getLastD ""

/-- `main` of `f/qemu/publish.py`: the name of the run layer. -/
def Build.runName (b : Build) : String := "qemu-" ++ b.prefixName u

/-- `main` of `f/qemu/publish_devel.py`: the name of the devel layer. -/
def Build.develName (b : Build) : String := "qemu-devel-" ++ b.prefixName u

/-- A layer of a build. -/
inductive Layer
  | run (b : Build)
  | devel (b : Build)

namespace Layer

/-- The name it has in the index. -/
def name : Layer → String
  | run b => b.runName u
  | devel b => b.develName u

/-- A layer to run. -/
def IsRun : Layer → Prop
  | run _ => True
  | devel _ => False

end Layer

/-- A layer in the index, and the time of its link. -/
structure Stored where
  layer : Layer
  mtime : ℚ

/-- The index that holds some layers: for each a link to a store path that is there. -/
def indexOf (stored : List Stored) : Index :=
  some (stored.map fun s => ⟨s.layer.name u, true, true, s.mtime⟩)

/-! ## What tells the layers apart -/

/-- What the name of the prefix begins with, before its first dash of the ones that join. -/
def Build.lead (b : Build) : List Char :=
  let first := (parts u b.version b.label b.segment.toList).headD []
  (split '/' first).getLast (split_ne_nil '/' first)

/-- The name of the prefix begins with `devel-`: the version does, or is `devel`, or so does
the label where there is no version. -/
def Build.DevelLed (b : Build) : Prop :=
  b.lead u = "devel".toList ∨ "devel-".toList <+: b.lead u

/-- The newest run layer is found, and none if there is none. -/
def IsNewest (stored : List Stored) : Option String → Prop
  | none => ∀ s ∈ stored, ¬ s.layer.IsRun
  | some name => ∃ s ∈ stored, s.layer.IsRun ∧ s.layer.name u = name ∧
      ∀ s' ∈ stored, s'.layer.IsRun → s'.mtime ≤ s.mtime

/-- The layers of an index are told apart: no run layer has a name that a devel layer of a build
may have, those that are listed are the run layers, and the latest is the newest of them. -/
structure ToldApart (stored : List Stored) : Prop where
  names : ∀ b mtime, ⟨.run b, mtime⟩ ∈ stored → ∀ b' : Build, b.runName u ≠ b'.develName u
  listed : ∀ name, name ∈ listRunLayers "qemu" (indexOf u stored) ↔
    ∃ s ∈ stored, s.layer.IsRun ∧ s.layer.name u = name
  latest : IsNewest u stored (latestRunLayer "qemu" (indexOf u stored))

end

/-! ## The name of a prefix -/

theorem sliceTo_subset (s : List Char) (n : ℤ) : sliceTo s n ⊆ s := by
  rw [sliceTo]
  split_ifs <;> exact List.take_subset _ _

/-- No slug has a slash. -/
theorem slash_not_mem_slug (label : String) : '/' ∉ (Common.slug label).toList := by
  intro hmem
  rw [Common.slug, String.toList_ofList] at hmem
  obtain ⟨c, hc, hlower⟩ := List.mem_map.mp hmem
  have hslug := Common.mem_collapse (Text.stripBy_subset _ _ hc)
  exact Common.of_isSlugChar (P := fun c => c.toLower ≠ '/') (by decide) hslug hlower

theorem slash_not_mem_cutSlug (u : Unicode) (label : String) : '/' ∉ cutSlug u label := by
  obtain ⟨hhead, hsuffix⟩ :=
    Kernel.splitTrailingVersion_subset u (Common.slug label).toList
  have hstrip : ∀ (p : Char → Bool) (s : List Char), rstripBy p s ⊆ s := fun p s =>
    (List.rdropWhile_prefix p s).subset
  rw [cutSlug]
  dsimp only
  rw [List.mem_append, not_or]
  refine ⟨fun hmem => ?_, fun hmem => ?_⟩
  · exact slash_not_mem_slug label (hhead (sliceTo_subset _ _ (hstrip _ _ hmem)))
  · exact slash_not_mem_slug label (hsuffix hmem)

theorem slash_not_mem_segment (b : Build) : '/' ∉ b.segment.toList := by
  have hall : ∀ s ∈ sanitizers, '/' ∉ s.toList := by decide
  rcases segment_cases b.isSegment with hempty | hmem
  · rw [hempty]
    decide
  · exact hall _ hmem

/-- Behind the first of the parts there is no slash. -/
theorem slash_not_mem_others (u : Unicode) (b : Build) {first : List Char}
    {others : List (List Char)} (h : parts u b.version b.label b.segment.toList = first :: others) :
    ∀ other ∈ others, '/' ∉ other := by
  intro other hother
  have htail : others ⊆ [cutSlug u b.label, b.segment.toList] := by
    rw [parts, List.filter_cons] at h
    split_ifs at h with hversion
    · rw [(List.cons.inj h).2.symm]
      exact fun x hx => List.mem_of_mem_filter hx
    · intro x hx
      have hmem : x ∈ first :: others := List.mem_cons_of_mem first hx
      rw [← h] at hmem
      exact List.mem_of_mem_filter hmem
  rcases List.mem_cons.mp (htail hother) with heq | hmem
  · rw [heq]
    exact slash_not_mem_cutSlug u b.label
  · rw [List.mem_singleton.mp hmem]
    exact slash_not_mem_segment b

section
variable {u : Unicode} {b : Build}

/-- Behind a front that ends the parts, the name of the prefix is the last component. -/
theorem prefixName_front (front : List Char)
    (hbase : prefixBasename u b.version b.label b.identity.text b.segment.toList =
      front ++ b.identity.text) :
    b.prefixName u = String.ofList
      ((split '/' front).getLast (split_ne_nil '/' front) ++ b.identity.text) := by
  have hslash : '/' ∉ (String.ofList b.identity.text).toList := by
    rw [String.toList_ofList]
    exact fun hmem => (isHexDigit_ne (b.identity.isHexDigit_text _ hmem)).2.1 rfl
  have hlen : 3 ≤ (String.ofList b.identity.text).length := by
    rw [String.length_ofList, b.identity.length_text]
    decide
  obtain ⟨xs, hxs⟩ : ∃ xs, components (String.ofList (front ++ b.identity.text)) =
      xs ++ [leaf (String.ofList front) ++ String.ofList b.identity.text] := by
    rw [String.ofList_append]
    exact ⟨_, components_suffix hslash hlen _⟩
  have hleaf : leaf (String.ofList front) =
      String.ofList ((split '/' front).getLast (split_ne_nil '/' front)) := by
    simp only [leaf, String.toList_ofList]
  rw [Build.prefixName, Build.installPrefix, hbase, hxs, hleaf]
  split_ifs
  · rw [List.getLastD_concat, String.ofList_append]
  · rw [← List.append_assoc, List.getLastD_concat, String.ofList_append]

/-- The name of a prefix is the identity alone, or begins with its lead and a dash. -/
theorem prefixName_cases (u : Unicode) (b : Build) :
    (b.lead u = [] ∧ b.prefixName u = String.ofList b.identity.text) ∨
      ∃ rest, b.prefixName u = String.ofList (b.lead u ++ '-' :: rest) := by
  have hbase : prefixBasename u b.version b.label b.identity.text b.segment.toList =
      ['-'].intercalate (parts u b.version b.label b.segment.toList ++ [b.identity.text]) := rfl
  cases hparts : parts u b.version b.label b.segment.toList with
  | nil =>
      rw [hparts, List.nil_append, List.intercalate_singleton] at hbase
      have hname := prefixName_front [] (by rw [hbase, List.nil_append])
      refine .inl ⟨?_, hname⟩
      simp only [Build.lead, hparts]
      rfl
  | cons first others =>
      have hslash := slash_not_mem_others u b hparts
      obtain ⟨rest, hrest, hfront⟩ : ∃ rest, '/' ∉ rest ∧
          ['-'].intercalate ((first :: others) ++ [b.identity.text]) =
            (first ++ '-' :: rest) ++ b.identity.text := by
        cases others with
        | nil => exact ⟨[], List.not_mem_nil, by simp⟩
        | cons other others =>
            refine ⟨['-'].intercalate (other :: others) ++ ['-'], ?_, ?_⟩
            · rw [List.mem_append, not_or]
              refine ⟨fun hmem => ?_, by decide⟩
              rcases of_mem_join hmem with hc | ⟨x, hx, hc⟩
              · exact absurd hc (by decide)
              · exact hslash x hx hc
            · rw [join_concat (by simp), List.intercalate_cons_cons]
              simp
      rw [hparts, hfront] at hbase
      have hname := prefixName_front _ hbase
      have hdash : '/' ∉ '-' :: rest := by
        rw [List.mem_cons, not_or]
        exact ⟨by decide, hrest⟩
      have hlead : b.lead u = (split '/' first).getLast (split_ne_nil '/' first) := by
        simp only [Build.lead, hparts, List.headD_cons]
      simp only [split_append hdash, List.getLast_concat, ← hlead] at hname
      exact .inr ⟨rest ++ b.identity.text, by rw [hname]; simp⟩

/-- A word and a dash begin a text up to its first joining dash, or that text is the word. -/
theorem dash_isPrefix_iff {w : List Char} (hw : '-' ∉ w) (x rest : List Char) :
    w ++ ['-'] <+: x ++ '-' :: rest ↔ x = w ∨ w ++ ['-'] <+: x := by
  induction w generalizing x with
  | nil =>
      cases x with
      | nil => simp
      | cons c x => simp
  | cons a w ih =>
      rw [List.mem_cons, not_or] at hw
      cases x with
      | nil =>
          have hne : a ≠ '-' := Ne.symm hw.1
          simp [List.cons_prefix_cons, hne]
      | cons c x =>
          rw [List.cons_append, List.cons_append, List.cons_prefix_cons, ih hw.2,
            List.cons_prefix_cons, List.cons.injEq]
          constructor
          · rintro ⟨rfl, rfl | h⟩
            · exact .inl ⟨rfl, rfl⟩
            · exact .inr ⟨rfl, h⟩
          · rintro (⟨rfl, rfl⟩ | ⟨rfl, h⟩)
            · exact ⟨rfl, .inl rfl⟩
            · exact ⟨rfl, .inr h⟩

/-- What the lead says is what the name says. -/
theorem devel_isPrefix_iff (u : Unicode) (b : Build) :
    "devel-".toList <+: (b.prefixName u).toList ↔ b.DevelLed u := by
  have hdevel : "devel-".toList = "devel".toList ++ ['-'] := by decide
  rw [Build.DevelLed, hdevel]
  rcases prefixName_cases u b with ⟨hlead, hname⟩ | ⟨rest, hname⟩
  · have htext : (b.prefixName u).toList = b.identity.text := by
      rw [hname]
      exact String.toList_ofList
    rw [hlead, htext]
    refine iff_of_false (fun hstart => ?_) (by decide)
    have hdash : '-' ∈ b.identity.text := hstart.subset (List.mem_append_right _ (by decide))
    exact (isHexDigit_ne (b.identity.isHexDigit_text _ hdash)).1 rfl
  · have htext : (b.prefixName u).toList = b.lead u ++ '-' :: rest := by
      rw [hname]
      exact String.toList_ofList
    rw [htext]
    exact dash_isPrefix_iff (by decide) _ _

end

/-! ## What is listed -/

section
variable {u : Unicode}

theorem startsWith_append (start name : String) : startsWith (start ++ name) start = true := by
  rw [startsWith, String.toList_append, List.isPrefixOf_iff_prefix]
  exact List.prefix_append _ _

theorem startsWith_qemu (name rest : String) :
    startsWith ("qemu-" ++ name) ("qemu-" ++ rest) = true ↔ rest.toList <+: name.toList := by
  rw [startsWith, String.toList_append, String.toList_append, List.isPrefixOf_iff_prefix,
    List.prefix_append_right_inj]

theorem qemu_devel : "qemu-devel-" = "qemu-" ++ "devel-" := by decide

/-- The name of a run layer has the start of a devel layer's when its prefix has. -/
theorem runName_devel_iff (b : Build) :
    startsWith (b.runName u) "qemu-devel-" = true ↔ b.DevelLed u := by
  rw [Build.runName, qemu_devel, startsWith_qemu, devel_isPrefix_iff]

theorem develName_devel (b : Build) : startsWith (b.develName u) "qemu-devel-" = true :=
  startsWith_append "qemu-devel-" _

/-- A layer is in the listing exactly when it is a run layer whose name does not begin as a
devel layer's. -/
theorem listed_iff (stored : List Stored) (name : String) :
    name ∈ listRunLayers "qemu" (indexOf u stored) ↔
      ∃ s ∈ stored, s.layer.name u = name ∧ ∃ b, s.layer = .run b ∧ ¬ b.DevelLed u := by
  have hproject : "qemu" ++ "-devel-" = "qemu-devel-" := by decide
  rw [Common.mem_listRunLayers, hproject]
  constructor
  · rintro ⟨hdevel, e, he, hname, -, -, -⟩
    obtain ⟨s, hs, rfl⟩ := List.mem_map.mp he
    refine ⟨s, hs, hname, ?_⟩
    rw [← hname] at hdevel
    cases hlayer : s.layer with
    | run b =>
        simp only [hlayer, Layer.name] at hdevel
        refine ⟨b, rfl, fun hled => ?_⟩
        rw [(runName_devel_iff b).mpr hled] at hdevel
        exact absurd hdevel (by decide)
    | devel b =>
        simp only [hlayer, Layer.name, develName_devel] at hdevel
        exact absurd hdevel (by decide)
  · rintro ⟨s, hs, rfl, b, hb, hnot⟩
    rw [hb]
    refine ⟨?_, ⟨(Layer.run b).name u, true, true, s.mtime⟩, ?_, rfl, ?_, rfl, rfl⟩
    · exact Bool.eq_false_iff.mpr fun h => hnot ((runName_devel_iff b).mp h)
    · rw [← hb]
      exact List.mem_map_of_mem hs
    · rw [Layer.name, Build.runName, show "qemu" ++ "-" = "qemu-" by decide]
      exact startsWith_append "qemu-" _

/-- Where no two layers have one name, the time of a name is that of its layer. -/
theorem mtimeOf_indexOf {stored : List Stored}
    (hnodup : (stored.map fun s => s.layer.name u).Nodup) {s : Stored} (hs : s ∈ stored) :
    mtimeOf (indexOf u stored) (s.layer.name u) = s.mtime := by
  induction stored with
  | nil => exact absurd hs List.not_mem_nil
  | cons x stored ih =>
      rw [List.map_cons, List.nodup_cons] at hnodup
      simp only [mtimeOf, indexOf, Option.getD_some, List.map_cons, List.find?_cons] at ih ⊢
      rcases List.mem_cons.mp hs with rfl | hrest
      · simp
      · have hne : x.layer.name u ≠ s.layer.name u := fun heq =>
          hnodup.1 (heq ▸ List.mem_map_of_mem hrest)
        rw [decide_eq_false hne]
        exact ih hnodup.2 hrest

end

/-! ## The layers are told apart -/

/-- A layer is a run layer or a devel layer of a build. -/
theorem isRun_iff (layer : Layer) : layer.IsRun ↔ ∃ b, layer = .run b := by
  cases layer with
  | run b => exact ⟨fun _ => ⟨b, rfl⟩, fun _ => trivial⟩
  | devel b => exact ⟨False.elim, fun ⟨_, h⟩ => by cases h⟩

section
variable {u : Unicode} {stored : List Stored}

/-- No run layer of the index is of a build whose prefix begins as a devel layer's. -/
def NoneLed (u : Unicode) (stored : List Stored) : Prop :=
  ∀ s ∈ stored, ∀ b, s.layer = .run b → ¬ b.DevelLed u

/-- Where no run layer is taken for a devel layer, the listing is of the run layers. -/
theorem listed_run (hnone : NoneLed u stored) (name : String) :
    name ∈ listRunLayers "qemu" (indexOf u stored) ↔
      ∃ s ∈ stored, s.layer.IsRun ∧ s.layer.name u = name := by
  rw [listed_iff]
  constructor
  · rintro ⟨s, hs, hname, b, hb, -⟩
    exact ⟨s, hs, (isRun_iff s.layer).mpr ⟨b, hb⟩, hname⟩
  · rintro ⟨s, hs, hrun, hname⟩
    obtain ⟨b, hb⟩ := (isRun_iff s.layer).mp hrun
    exact ⟨s, hs, hname, b, hb, hnone s hs b hb⟩

/-- The latest is then the newest run layer, when some run layer's time is one that the loop
takes. -/
theorem isNewest_latest (hnodup : (stored.map fun s => s.layer.name u).Nodup)
    (hnone : NoneLed u stored)
    (htime : (∃ s ∈ stored, s.layer.IsRun) → ∃ s ∈ stored, s.layer.IsRun ∧ -1 < s.mtime) :
    IsNewest u stored (latestRunLayer "qemu" (indexOf u stored)) := by
  have hname : ∀ s ∈ stored, s.layer.IsRun →
      s.layer.name u ∈ listRunLayers "qemu" (indexOf u stored) := fun s hs hrun =>
    (listed_run hnone _).mpr ⟨s, hs, hrun, rfl⟩
  rcases Common.latest_newest (indexOf u stored) "qemu" with
    ⟨hnull, hall⟩ | ⟨name, hlisted, hlatest, -, hall⟩
  · rw [hnull]
    intro s hs hrun
    obtain ⟨s', hs', hrun', hlater⟩ := htime ⟨s, hs, hrun⟩
    have hle := hall _ (hname s' hs' hrun')
    rw [mtimeOf_indexOf hnodup hs'] at hle
    exact absurd hlater (not_lt.mpr hle)
  · rw [hlatest]
    obtain ⟨s, hs, hrun, rfl⟩ := (listed_run hnone name).mp hlisted
    refine ⟨s, hs, hrun, rfl, fun s' hs' hrun' => ?_⟩
    have hle := hall _ (hname s' hs' hrun')
    rwa [mtimeOf_indexOf hnodup hs', mtimeOf_indexOf hnodup hs] at hle

/-- Run and devel layers are told apart exactly when no run layer is of a build whose prefix
begins as a devel layer's, and the time of some run layer, if there is one, is later than the
one that the search for the latest begins with. -/
theorem layers_told_apart_iff (hnodup : (stored.map fun s => s.layer.name u).Nodup) :
    ToldApart u stored ↔ NoneLed u stored ∧
      ((∃ s ∈ stored, s.layer.IsRun) → ∃ s ∈ stored, s.layer.IsRun ∧ -1 < s.mtime) := by
  constructor
  · rintro ⟨-, hlisted, hlatest⟩
    refine ⟨fun s hs b hb hled => ?_, fun hsome => ?_⟩
    · obtain ⟨s', hs', hname, b', hb', hnot⟩ := (listed_iff stored _).mp
        ((hlisted _).mpr ⟨s, hs, (isRun_iff s.layer).mpr ⟨b, hb⟩, rfl⟩)
      rw [hb, hb'] at hname
      have hstart := (runName_devel_iff b).mpr hled
      rw [show b.runName u = b'.runName u from hname.symm] at hstart
      exact hnot ((runName_devel_iff b').mp hstart)
    · rcases Common.latest_newest (indexOf u stored) "qemu" with
        ⟨hnull, -⟩ | ⟨name, hmem, -, hlater, -⟩
      · rw [hnull] at hlatest
        obtain ⟨s, hs, hrun⟩ := hsome
        exact absurd hrun (hlatest s hs)
      · obtain ⟨s, hs, hrun, rfl⟩ := (hlisted name).mp hmem
        rw [mtimeOf_indexOf hnodup hs] at hlater
        exact ⟨s, hs, hrun, hlater⟩
  · rintro ⟨hnone, htime⟩
    refine ⟨fun b mtime hmem b' heq => ?_, listed_run hnone, isNewest_latest hnodup hnone htime⟩
    have hstart := develName_devel (u := u) b'
    rw [← heq, runName_devel_iff] at hstart
    exact hnone _ hmem b rfl hstart

/-- A build of a version and a label, without a sanitizer. -/
def sampleBuild (version : List Char) (label : String) : Build :=
  ⟨"/data/install/qemu", version, label, "none", "", sampleDigest, by decide⟩

/-- The two layers of one build, the devel layer published later. -/
def bothLayers : List Stored :=
  [⟨.run (sampleBuild "11.0.0".toList "devel-tools"), 2⟩,
    ⟨.devel (sampleBuild "11.0.0".toList "devel-tools"), 3⟩]

theorem layers_told_apart_iff_both : ToldApart .ascii bothLayers := by
  refine (layers_told_apart_iff (by decide +kernel)).mpr ⟨?_, fun _ => ?_⟩
  · intro s hs b hb
    rcases List.mem_cons.mp hs with rfl | hs
    · cases hb
      rw [Build.DevelLed]
      decide +kernel
    · rw [List.mem_singleton.mp hs] at hb
      cases hb
  · exact ⟨_, List.mem_cons_self, trivial, by decide +kernel⟩

/-- Not every run layer has a name that no devel layer has: one of a build with the label
`devel` and no version is named as the devel layer of the build without a label. -/
theorem devel_label_taken : ¬ ∀ (u : Unicode) (stored : List Stored),
    (stored.map fun s => s.layer.name u).Nodup → ToldApart u stored := by
  intro h
  have happart := h .ascii [⟨.run (sampleBuild [] "devel"), 1⟩] (List.nodup_singleton _)
  exact happart.names _ 1 List.mem_cons_self (sampleBuild [] "") (by decide +kernel)

end

end KdevopsNg.Qemu
