/-
# `Fstests.Runnable` — the files an armed section is started from

A unit `xfstests@<section>` reads `<section>.env`, and that names
`<section>.config`.  When a render returns, each armed section should have both,
with its own text, and with arm_all_sections the share should hold no other.

The files are laid down one section after another and pruned last.  A section
loses its own to a later one that has the same files (`a` and `./a`), to a later
one whose results directory holds them, to the two retired names (`local`,
`check`), or to the pruning by stem when the name is not the stem of its files
(`./a`).  A render leaves every armed section runnable exactly when no armed name
is of these kinds (`render_runnable_iff`).
-/
import KdevopsNg.Fstests.Granting
import KdevopsNg.Fstests.Confine

namespace KdevopsNg.Fstests

open Py Sys

/-- What a render should leave: the two files of each armed section, and under
arm_all_sections no other config or environment file beside them. -/
structure Laid (a : RenderArgs) (p : Plan) (fs : Files) : Prop where
  config : ∀ s ∈ p.armed, fs.read? (configPath p.share s.name) = some s.text
  env : ∀ s ∈ p.armed, fs.read? (envPath p.share s.name) = some (envText a p s.name)
  only : a.armAllSections = true → ∀ name, Text.Plain name →
    (∃ suffix ∈ [".config", ".env"], suffix.toList <:+ name.toList) →
    fs.read? (p.share ++ [name]) ≠ none →
    ∃ s ∈ p.armed, p.share ++ [name] = configPath p.share s.name ∨
      p.share ++ [name] = envPath p.share s.name

/-- Whatever the setting of clean_results and the state of the share, a render
that returns leaves every armed section its files. -/
def Runnable (u : Unicode) (host : Kernel.Host) (a : RenderArgs) : Prop :=
  ∀ clean d fs r fs', renderMain d u host { a with cleanResults := clean } fs = (.ok r, fs') →
    ∃ p, plan u host a = .ok p ∧ r.armed = p.armed.map Armed.name ∧ Laid a p fs'

/-- The files of a section lie directly on the share. -/
def TopLevel (p : Plan) (sectionName : String) : Prop :=
  Text.dirPart p.share sectionName = p.share

/-- The armed names keep out of each other's way. -/
structure Distinct (host : Kernel.Host) (a : RenderArgs) (p : Plan) : Prop where
  apart : ∀ l s r, p.armed = l ++ s :: r → s ∉ r → ∀ t ∈ r,
    ¬ (Text.dirPart p.share t.name = Text.dirPart p.share s.name ∧
      Text.leaf t.name = Text.leaf s.name) ∧
    (t.name ∈ p.run → ∀ dir,
      sectionResultsDir host a.vmName a.kernelVersion t.name = .ok dir →
        ¬ dir <+: Text.dirPart p.share s.name)
  retired : ∀ s ∈ p.armed, TopLevel p s.name →
    Text.leaf s.name ≠ "local" ∧ Text.leaf s.name ≠ "check"
  mirrored : a.armAllSections = true → ∀ s ∈ p.armed, TopLevel p s.name →
    ∀ suffix ∈ [".config", ".env"],
      (if Text.leaf s.name = "" then suffix else Text.leaf s.name) ∈ p.armed.map Armed.name
  stale : a.armAllSections = true → ∀ suffix ∈ [".config", ".env"],
    suffix ∈ p.armed.map Armed.name → ∃ s ∈ p.armed, TopLevel p s.name ∧ Text.leaf s.name = ""

/-! ## Names -/

/-- The stem of a name with an extension, unless the name begins with its dot. -/
theorem stem_append (ext : List Char) (hne : ext ≠ []) (hdot : '.' ∉ ext) (name : String) :
    stem (name ++ String.ofList ('.' :: ext)) =
      if name = "" then String.ofList ('.' :: ext) else name := by
  have hlist : (name ++ String.ofList ('.' :: ext)).toList = name.toList ++ '.' :: ext := by
    rw [String.toList_append, String.toList_ofList]
  have hlen : (name ++ String.ofList ('.' :: ext)).length = name.length + ext.length + 1 := by
    rw [← String.length_toList, hlist, List.length_append, List.length_cons, String.length_toList]
    omega
  rw [stem, hlist, Text.afterLast_append hdot, hlen]
  by_cases hname : name = ""
  · subst hname
    have hlt : ¬ 1 < "".length + ext.length + 1 - ext.length := by
      rw [String.length_empty]
      omega
    rw [if_neg fun h => hlt h.2.2, if_pos rfl, String.empty_append]
  · have hpos : 0 < name.length := Nat.pos_of_ne_zero fun h => hname (String.length_eq_zero_iff.mp h)
    have htake : name.length + ext.length + 1 - ext.length - 1 = name.toList.length := by
      rw [String.length_toList]
      omega
    rw [if_pos ⟨by simp, hne, by omega⟩, if_neg hname, htake, List.take_left,
      String.ofList_toList]

/-- The first line of an environment file. -/
theorem envText_line (a : RenderArgs) (p : Plan) (n : String) :
    ∃ rest, (envText a p n).toList =
      ("HOST_OPTIONS=/var/lib/xfstests/".toList ++ n.toList ++ ".config".toList) ++ '\n' :: rest := by
  rw [envText, renderSectionEnv]
  rw [List.append_assoc, List.cons_append, Text.join, String.intercalate_cons_of_ne_nil (by simp),
    String.toList_append, String.toList_append, String.toList_append]
  generalize String.intercalate "\n" _ = more
  have hhead : "HOST_OPTIONS=/var/lib/xfstests/".toList =
      "HOST_OPTIONS=".toList ++ "/var/lib/xfstests".toList ++ "/".toList := by decide
  refine ⟨more.toList ++ ['\n'], ?_⟩
  rw [hhead, guestStateDir]
  simp only [String.toList_append, List.append_assoc]
  rfl

/-- The environment file names the section it is for. -/
theorem envText_ne {a : RenderArgs} {p : Plan} {m n : String} (hm : '\n' ∉ m.toList)
    (hn : '\n' ∉ n.toList) (hne : m ≠ n) : envText a p m ≠ envText a p n := by
  have hline : ∀ {k : String} {rest : List Char}, '\n' ∉ k.toList →
      (("HOST_OPTIONS=/var/lib/xfstests/".toList ++ k.toList ++ ".config".toList) ++
        '\n' :: rest).takeWhile (· ≠ '\n') =
      "HOST_OPTIONS=/var/lib/xfstests/".toList ++ k.toList ++ ".config".toList := by
    intro k rest hk
    have hall : ∀ c ∈ "HOST_OPTIONS=/var/lib/xfstests/".toList ++ k.toList ++ ".config".toList,
        decide (c ≠ '\n') = true := by
      intro c hc
      rw [decide_eq_true_eq]
      rintro rfl
      rcases List.mem_append.mp hc with hc | hc
      · rcases List.mem_append.mp hc with hc | hc
        · exact absurd hc (by decide)
        · exact hk hc
      · exact absurd hc (by decide)
    rw [List.takeWhile_append_of_pos hall, List.takeWhile_cons_of_neg (by simp), List.append_nil]
  intro heq
  obtain ⟨r, hr⟩ := envText_line a p m
  obtain ⟨r', hr'⟩ := envText_line a p n
  rw [heq, hr'] at hr
  have hlines := congrArg (List.takeWhile (· ≠ '\n')) hr
  rw [hline hn, hline hm, List.append_cancel_right_eq, List.append_cancel_left_eq] at hlines
  exact hne (String.toList_injective hlines).symm

/-! ## Pruning that returned -/

/-- What is gone stays gone. -/
def Gone (_q : Path) (x y : Option String) : Prop := x = none → y = none

instance (q : Path) : Std.Refl (Gone q) := ⟨fun _ h => h⟩

instance (q : Path) : IsTrans _ (Gone q) := ⟨fun _ _ _ h h' hx => h' (h hx)⟩

variable {d : Disk}

theorem removeFile_ok {path : Path} {fs fs' : Files}
    (h : removeFile d path fs = (.ok (), fs')) : fs'.read? path = none := by
  rw [removeFile, Exec.bind_ok _ (Exec.get_apply fs)] at h
  cases hfile : fs.isFile path with
  | true =>
      rw [hfile, if_pos rfl] at h
      rw [unlink_ok h, if_pos rfl]
  | false =>
      rw [hfile, if_neg Bool.false_ne_true] at h
      cases h
      exact Option.not_isSome_iff_eq_none.mp (Bool.eq_false_iff.mp hfile)

theorem removeFile_gone (path : Path) : Exec.Within (Pointwise Gone) (removeFile d path) :=
  within_removeFile fun _ _ => rfl

/-- A file on the share is listed. -/
theorem mem_suffixed_of_read {fs : Files} {share : Path} {suffix name : String}
    (hread : fs.read? (share ++ [name]) ≠ none) (hsuffix : suffix.toList <:+ name.toList) :
    name ∈ suffixed fs share suffix := by
  rw [suffixed, Files.glob, List.mem_mergeSort, List.mem_filter]
  exact ⟨Files.mem_entries_of_read hread, List.isSuffixOf_iff_suffix.mpr hsuffix⟩

theorem pruneSuffix_ok {share : Path} {spared : String → Bool} {suffix name : String}
    {fs fs' : Files} (h : pruneSuffix d share spared suffix fs = (.ok (), fs'))
    (hsuffix : suffix.toList <:+ name.toList) (hspared : spared name = false) :
    fs'.read? (share ++ [name]) = none := by
  rw [pruneSuffix, Exec.bind_ok _ (Exec.get_apply fs)] at h
  by_contra hread
  have hgone : Exec.Within (Pointwise Gone) ((suffixed fs share suffix).foldlM (fun _ name =>
      if spared name = true then pure () else removeFile d (share ++ [name])) ()) :=
    Exec.within_foldlM (fun _ n _ => Exec.within_ite (fun _ => Exec.within_pure ())
      fun _ => removeFile_gone _) ()
  have hbefore : fs.read? (share ++ [name]) ≠ none := fun hnone => by
    have hstays := hgone fs (share ++ [name]) hnone
    rw [h] at hstays
    exact hread hstays
  have heach := Exec.foldlM_each
    (P := fun n fs => spared n = false → Files.read? fs (share ++ [n]) = none) ?_ ?_ h name
    (mem_suffixed_of_read hbefore hsuffix)
  · exact hread (heach hspared)
  · intro _ n s _ s' hround hn
    rw [hn, if_neg Bool.false_ne_true] at hround
    exact removeFile_ok hround
  · intro _ n m s hn hspared'
    split
    · exact hn hspared'
    · exact removeFile_gone (d := d) _ s _ (hn hspared')

theorem pruneSuffix_gone (share : Path) (spared : String → Bool) (suffix : String) :
    Exec.Within (Pointwise Gone) (pruneSuffix d share spared suffix) :=
  within_pruneSuffix fun _ _ _ _ _ => rfl

/-- What pruning removes is gone when it returns. -/
theorem pruneShare_ok {share : Path} {names : List String} {mirror : Bool} {name : String}
    {fs fs' : Files} (h : pruneShare d share names mirror fs = (.ok (), fs'))
    (hname : pruned names mirror name = true) : fs'.read? (share ++ [name]) = none := by
  obtain ⟨_, fs₁, h₁, h⟩ := Exec.bind_ok_inv h
  obtain ⟨_, fs₂, h₂, h₃⟩ := Exec.bind_ok_inv h
  have hgone₂ : Pointwise Gone fs₁ fs₂ := by
    have hwithin : Exec.Within (Pointwise Gone) ([".mkfs", ".xfs_info"].foldlM
        (fun _ suffix => pruneSuffix d share (fun _ => false) suffix) ()) :=
      Exec.within_foldlM (fun _ suffix _ => pruneSuffix_gone share _ suffix) ()
    have hrun := hwithin fs₁
    rw [h₂] at hrun
    exact hrun
  have hgone₃ : Pointwise Gone fs₂ fs' := by
    have hwithin : Exec.Within (Pointwise Gone) (if mirror = true then
        [".config", ".env"].foldlM (fun _ suffix =>
          pruneSuffix d share (fun name => decide (stem name ∈ names)) suffix) ()
        else pure ()) :=
      Exec.within_ite (fun _ => Exec.within_foldlM (fun _ suffix _ =>
        pruneSuffix_gone share _ suffix) ()) fun _ => Exec.within_pure ()
    have hrun := hwithin fs₂
    rw [h₃] at hrun
    exact hrun
  rw [pruned, Bool.or_eq_true, Bool.or_eq_true, decide_eq_true_eq, List.any_eq_true] at hname
  rcases hname with (hretired | ⟨suffix, hmem, hsuffix⟩) | hmirror
  · have heach := Exec.foldlM_each
      (P := fun n fs => Files.read? fs (share ++ [n]) = none)
      (fun _ n s _ s' hround => removeFile_ok hround)
      (fun _ n m s hn => removeFile_gone (d := d) _ s _ hn) h₁ name hretired
    exact hgone₃ _ (hgone₂ _ heach)
  · have heach := Exec.foldlM_each
      (P := fun suffix fs => ∀ name : String, suffix.toList <:+ name.toList →
        Files.read? fs (share ++ [name]) = none) ?_ ?_ h₂ suffix hmem
    · exact hgone₃ _ (heach name (List.isSuffixOf_iff_suffix.mp hsuffix))
    · intro _ suffix s _ s' hround n hn
      exact pruneSuffix_ok hround hn rfl
    · intro _ suffix m s hn n hsuffix
      exact pruneSuffix_gone (d := d) share _ m s _ (hn n hsuffix)
  · simp only [Bool.and_eq_true, decide_eq_true_eq, List.any_eq_true] at hmirror
    obtain ⟨⟨hmirror, hstem⟩, suffix, hmem, hsuffix⟩ := hmirror
    rw [hmirror, if_pos rfl] at h₃
    have heach := Exec.foldlM_each
      (P := fun suffix fs => ∀ name : String, suffix.toList <:+ name.toList → stem name ∉ names →
        Files.read? fs (share ++ [name]) = none) ?_ ?_ h₃ suffix hmem
    · exact heach name (List.isSuffixOf_iff_suffix.mp hsuffix) hstem
    · intro _ suffix s _ s' hround n hn hstem
      exact pruneSuffix_ok hround hn (decide_eq_false hstem)
    · intro _ suffix m s hn n hsuffix hstem
      exact pruneSuffix_gone (d := d) share _ m s _ (hn n hsuffix hstem)

theorem removeFile_granting (path : Path) : Exec.Returns (removeFile Disk.granting path) :=
  Exec.returns_bind Exec.returns_get fun _ =>
    Exec.returns_ite (fun _ => ⟨_, _, rfl⟩) (Exec.returns_pure ())

theorem pruneSuffix_granting (share : Path) (spared : String → Bool) (suffix : String) :
    Exec.Returns (pruneSuffix Disk.granting share spared suffix) :=
  Exec.returns_bind Exec.returns_get fun _ =>
    Exec.returns_foldlM (fun _ _ => Exec.returns_ite (Exec.returns_pure ())
      (removeFile_granting _)) _ ()

theorem pruneShare_granting (share : Path) (names : List String) (mirror : Bool) :
    Exec.Returns (pruneShare Disk.granting share names mirror) :=
  Exec.returns_bind (Exec.returns_foldlM (fun _ _ => removeFile_granting _) _ ()) fun _ =>
    Exec.returns_bind (Exec.returns_foldlM (fun _ _ => pruneSuffix_granting _ _ _) _ ()) fun _ =>
      Exec.returns_ite (Exec.returns_foldlM (fun _ _ => pruneSuffix_granting _ _ _) _ ())
        (Exec.returns_pure ())

/-! ## The files of two sections -/

variable {u : Unicode} {host : Kernel.Host} {a : RenderArgs} {p : Plan}

theorem snoc_suffix_inj {dir dir' : Path} {m n suffix : String} :
    dir ++ [m ++ suffix] = dir' ++ [n ++ suffix] ↔ dir = dir' ∧ m = n := by
  constructor
  · intro h
    obtain ⟨hdir, hlast⟩ := List.append_inj' h rfl
    exact ⟨hdir, (String.append_left_inj suffix).mp (List.singleton_inj.mp hlast)⟩
  · rintro ⟨rfl, rfl⟩
    rfl

theorem configPath_inj (share : Path) (m n : String) : configPath share m = configPath share n ↔
    Text.dirPart share m = Text.dirPart share n ∧ Text.leaf m = Text.leaf n := by
  rw [configPath_eq, configPath_eq, snoc_suffix_inj]

theorem envPath_inj (share : Path) (m n : String) : envPath share m = envPath share n ↔
    Text.dirPart share m = Text.dirPart share n ∧ Text.leaf m = Text.leaf n := by
  rw [envPath_eq, envPath_eq, snoc_suffix_inj]

theorem configPath_ne_envPath (share : Path) (m n : String) :
    configPath share m ≠ envPath share n := by
  rw [configPath_eq, envPath_eq]
  intro h
  obtain ⟨-, hlast⟩ := List.append_inj' h rfl
  have hchars := congrArg (fun s => s.toList.getLast?) (List.singleton_inj.mp hlast)
  simp [String.toList_append] at hchars

/-- The two suffixes, each with the name under it that is retired. -/
def retiredNames : List (String × String) := [(".config", "local"), (".env", "check")]

theorem config_retired : (".config", "local") ∈ retiredNames := by simp [retiredNames]

theorem env_retired : (".env", "check") ∈ retiredNames := by simp [retiredNames]

theorem stem_suffix {suffix word : String} (h : (suffix, word) ∈ retiredNames) (x : String) :
    stem (x ++ suffix) = if x = "" then suffix else x := by
  simp only [retiredNames, List.mem_cons, Prod.mk.injEq, List.not_mem_nil, or_false] at h
  rcases h with ⟨rfl, rfl⟩ | ⟨rfl, rfl⟩
  · exact stem_append "config".toList (by decide) (by decide) x
  · exact stem_append "env".toList (by decide) (by decide) x

/-- Texts that end in different letters are different. -/
theorem ne_of_last {v w : List Char} (hv : v ≠ []) (hw : w ≠ []) (h : v.getLast? ≠ w.getLast?)
    (t t' : List Char) : t ++ v ≠ t' ++ w := by
  intro heq
  have hlast := congrArg List.getLast? heq
  rw [List.getLast?_append_of_ne_nil _ hv, List.getLast?_append_of_ne_nil _ hw] at hlast
  exact h hlast

theorem retired_iff {suffix word : String} (h : (suffix, word) ∈ retiredNames) (x : String) :
    x ++ suffix ∈ ["check.env", "local.config"] ↔ x = word := by
  have hne : ∀ {v w : String}, v.toList ≠ [] → w.toList ≠ [] →
      v.toList.getLast? ≠ w.toList.getLast? → ∀ {y z : String}, y ++ v ≠ z ++ w := by
    intro v w hv hw hlast y z heq
    refine ne_of_last hv hw hlast y.toList z.toList ?_
    rw [← String.toList_append, heq, String.toList_append]
  have henv : "check.env" = "check" ++ ".env" := by decide
  have hconfig : "local.config" = "local" ++ ".config" := by decide
  simp only [retiredNames, List.mem_cons, Prod.mk.injEq, List.not_mem_nil, or_false] at h ⊢
  rw [henv, hconfig]
  rcases h with ⟨rfl, rfl⟩ | ⟨rfl, rfl⟩
  · have hother := hne (v := ".config") (w := ".env") (by decide) (by decide) (by decide)
      (y := x) (z := "check")
    rw [String.append_left_inj]
    exact ⟨fun h => h.resolve_left hother, .inr⟩
  · have hother := hne (v := ".env") (w := ".config") (by decide) (by decide) (by decide)
      (y := x) (z := "local")
    rw [String.append_left_inj]
    exact ⟨fun h => h.resolve_right hother, .inl⟩

/-- When pruning leaves a config or an environment file. -/
theorem pruned_suffix {suffix word : String} (h : (suffix, word) ∈ retiredNames)
    (names : List String) (mirror : Bool) (x : String) :
    pruned names mirror (x ++ suffix) = false ↔
      x ≠ word ∧ (mirror = true → (if x = "" then suffix else x) ∈ names) := by
  have hdead : [".mkfs", ".xfs_info"].any
      (fun w => w.toList.isSuffixOf (x ++ suffix).toList) = false := by
    rw [List.any_eq_false]
    intro w hw hsuffix
    rw [List.isSuffixOf_iff_suffix, String.toList_append] at hsuffix
    obtain ⟨t, ht⟩ := hsuffix
    simp only [retiredNames, List.mem_cons, Prod.mk.injEq, List.not_mem_nil, or_false] at h hw
    rcases h with ⟨rfl, -⟩ | ⟨rfl, -⟩ <;> rcases hw with rfl | rfl <;>
      exact ne_of_last (by decide) (by decide) (by decide) _ _ ht
  have hlive : [".config", ".env"].any
      (fun w => w.toList.isSuffixOf (x ++ suffix).toList) = true := by
    refine List.any_eq_true.mpr ⟨suffix, ?_, ?_⟩
    · simp only [retiredNames, List.mem_cons, Prod.mk.injEq, List.not_mem_nil, or_false] at h
      rcases h with ⟨rfl, -⟩ | ⟨rfl, -⟩ <;> simp
    · rw [List.isSuffixOf_iff_suffix, String.toList_append]
      exact List.suffix_append _ _
  rw [pruned, hdead, hlive, stem_suffix h, Bool.or_false, Bool.and_true, Bool.or_eq_false_iff,
    decide_eq_false_iff_not, retired_iff h, Bool.and_eq_false_iff, decide_eq_false_iff_not,
    Classical.not_not]
  cases mirror <;> simp

/-- The two files of a section on the share itself. -/
theorem configPath_top {sectionName name : String} :
    configPath p.share sectionName = p.share ++ [name] ↔
      TopLevel p sectionName ∧ name = Text.leaf sectionName ++ ".config" := by
  rw [configPath_eq, TopLevel]
  constructor
  · intro h
    obtain ⟨hdir, hlast⟩ := List.append_inj' h rfl
    exact ⟨hdir, (List.singleton_inj.mp hlast).symm⟩
  · rintro ⟨hdir, rfl⟩
    rw [hdir]

theorem envPath_top {sectionName name : String} :
    envPath p.share sectionName = p.share ++ [name] ↔
      TopLevel p sectionName ∧ name = Text.leaf sectionName ++ ".env" := by
  rw [envPath_eq, TopLevel]
  constructor
  · intro h
    obtain ⟨hdir, hlast⟩ := List.append_inj' h rfl
    exact ⟨hdir, (List.singleton_inj.mp hlast).symm⟩
  · rintro ⟨hdir, rfl⟩
    rw [hdir]

/-! ## A render that returned -/

theorem emitSection_ok {s : Armed} {out out' : Emitted} {fs fs' : Files}
    (h : emitSection d u host a p out s fs = (.ok out', fs')) :
    Accepted host a p [s] ∧ fs'.read? (configPath p.share s.name) = some s.text ∧
      fs'.read? (envPath p.share s.name) = some (envText a p s.name) := by
  refine ⟨?_, ?_⟩
  · by_contra hs
    obtain ⟨e, he⟩ := emitSection_refused (u := u) hs d out fs
    rw [he] at h
    cases h
  · obtain ⟨_, fs₁, -, h⟩ := Exec.bind_ok_inv h
    obtain ⟨_, fs₂, hconfig, h⟩ := Exec.bind_ok_inv h
    obtain ⟨_, fs₃, henv, h⟩ := Exec.bind_ok_inv h
    cases h
    refine ⟨?_, ?_⟩
    · rw [write_ok henv, if_neg (configPath_ne_envPath _ _ _), write_ok hconfig, if_pos rfl]
    · rw [write_ok henv, if_pos rfl]

/-- What a render that returned had done after some section. -/
theorem emit_ok_split {l r : List Armed} {s : Armed} {fs fs' : Files} {res : Rendered}
    (h : emit d u host a p fs = (.ok res, fs')) (hsplit : p.armed = l ++ s :: r) :
    ∃ out fs₁, Accepted host a p [s] ∧
      fs₁.read? (configPath p.share s.name) = some s.text ∧
      fs₁.read? (envPath p.share s.name) = some (envText a p s.name) ∧
      (r.foldlM (emitSection d u host a p) out >>= finish d host a p) fs₁ = (.ok res, fs') := by
  have happ := Exec.foldlM_append' (emitSection d u host a p) l (s :: r) {}
  rw [emit, hsplit, happ, Exec.bind_assoc'] at h
  obtain ⟨out₀, fs₀, -, h⟩ := Exec.bind_ok_inv h
  rw [List.foldlM_cons, Exec.bind_assoc'] at h
  obtain ⟨out₁, fs₁, hs, h⟩ := Exec.bind_ok_inv h
  obtain ⟨hacc, hconfig, henv⟩ := emitSection_ok hs
  exact ⟨out₁, fs₁, hacc, hconfig, henv, h⟩

theorem finish_ok {out : Emitted} {fs fs' : Files} {res : Rendered}
    (h : finish d host a p out fs = (.ok res, fs')) :
    res.armed = p.armed.map Armed.name ∧
      pruneShare d p.share (p.armed.map Armed.name) a.armAllSections fs = (.ok (), fs') := by
  obtain ⟨_, fs₁, hprune, h⟩ := Exec.bind_ok_inv h
  obtain ⟨_, fs₂, hlift, h⟩ := Exec.bind_ok_inv h
  cases h
  have hsame : fs₁ = fs' := congrArg Prod.snd hlift
  exact ⟨rfl, hsame ▸ hprune⟩

/-- The section of an armed entry comes last somewhere. -/
theorem last_split {s : Armed} {xs : List Armed} (h : s ∈ xs) :
    ∃ l r, xs = l ++ s :: r ∧ s ∉ r := by
  obtain ⟨as, bs, hsplit, hnot⟩ := List.eq_append_cons_of_mem (List.mem_reverse.mpr h)
  refine ⟨bs.reverse, as.reverse, ?_, fun hmem => hnot (List.mem_reverse.mp hmem)⟩
  have hrev := congrArg List.reverse hsplit
  rw [List.reverse_reverse] at hrev
  rw [hrev]
  simp

/-- The content of a section's two files is left alone. -/
def KeepsOwn (p : Plan) (s : Armed) (q : Path) (x y : Option String) : Prop :=
  q = configPath p.share s.name ∨ q = envPath p.share s.name → y = x

instance (s : Armed) (q : Path) : Std.Refl (KeepsOwn p s q) := ⟨fun _ _ => rfl⟩

instance (s : Armed) (q : Path) : IsTrans _ (KeepsOwn p s q) :=
  ⟨fun _ _ _ h h' hq => (h' hq).trans (h hq)⟩

/-- A results directory that holds neither of a section's files. -/
theorem own_not_below {dir q : Path} {s : Armed}
    (hdir : ¬ dir <+: Text.dirPart p.share s.name)
    (hq : q = configPath p.share s.name ∨ q = envPath p.share s.name) :
    Text.below dir q = false := by
  rw [configPath_eq, envPath_eq] at hq
  rcases hq with rfl | rfl <;>
    exact Bool.eq_false_iff.mpr fun h => hdir ((below_snoc _ _ _).mp h)

theorem rest_keepsOwn (hd : Distinct host a p) {l r : List Armed} {s : Armed}
    (hsplit : p.armed = l ++ s :: r) (hlast : s ∉ r) (out : Emitted) :
    Exec.Within (Pointwise (KeepsOwn p s))
      (r.foldlM (emitSection d u host a p) out >>= finish d host a p) := by
  have hs : s ∈ p.armed := by simp [hsplit]
  refine Exec.within_bind (Exec.within_foldlM (fun out t ht => ?_) out) ?_
  · obtain ⟨hfiles, hdir⟩ := hd.apart l s r hsplit hlast t ht
    refine within_emitSection (fun hrun dir hok q hq x y hown => ?_) (fun x hown => ?_)
      (fun x hown => ?_) out
    · rw [own_not_below (hdir hrun dir hok) hown] at hq
      cases hq
    · rcases hown with hown | hown
      · exact absurd ((configPath_inj _ _ _).mp hown) hfiles
      · exact absurd hown (configPath_ne_envPath _ _ _)
    · rcases hown with hown | hown
      · exact absurd hown.symm (configPath_ne_envPath _ _ _)
      · exact absurd ((envPath_inj _ _ _).mp hown) hfiles
  · refine within_finish fun name hname x hown => ?_
    rcases hown with hown | hown
    · obtain ⟨htop, rfl⟩ := configPath_top.mp hown.symm
      have hleft := (pruned_suffix config_retired
        (p.armed.map Armed.name) a.armAllSections (Text.leaf s.name)).mpr
          ⟨(hd.retired s hs htop).1, fun hall => hd.mirrored hall s hs htop _ (by simp)⟩
      rw [hleft] at hname
      cases hname
    · obtain ⟨htop, rfl⟩ := envPath_top.mp hown.symm
      have hleft := (pruned_suffix env_retired
        (p.armed.map Armed.name) a.armAllSections (Text.leaf s.name)).mpr
          ⟨(hd.retired s hs htop).2, fun hall => hd.mirrored hall s hs htop _ (by simp)⟩
      rw [hleft] at hname
      cases hname

/-- What is left on the share after pruning is the file of an armed section. -/
theorem left_own (hd : Distinct host a p) (hall : a.armAllSections = true) {name : String}
    (hname : Text.Plain name) {suffix word : String} (hword : (suffix, word) ∈ retiredNames)
    (hsuffix : suffix.toList <:+ name.toList)
    (hleft : pruned (p.armed.map Armed.name) a.armAllSections name = false) :
    ∃ s ∈ p.armed, p.share ++ [name] = configPath p.share s.name ∨
      p.share ++ [name] = envPath p.share s.name := by
  obtain ⟨x, hx⟩ := hsuffix
  obtain rfl : name = String.ofList x ++ suffix := by
    rw [← String.toList_inj, String.toList_append, String.toList_ofList, hx]
  obtain ⟨-, hmem⟩ := (pruned_suffix hword _ _ _).mp hleft
  have hmem := hmem hall
  have hboth : ∀ {s : Armed}, TopLevel p s.name → Text.leaf s.name = String.ofList x →
      p.share ++ [String.ofList x ++ suffix] = configPath p.share s.name ∨
        p.share ++ [String.ofList x ++ suffix] = envPath p.share s.name := by
    intro s htop hleaf
    simp only [retiredNames, List.mem_cons, Prod.mk.injEq, List.not_mem_nil, or_false] at hword
    rcases hword with ⟨rfl, -⟩ | ⟨rfl, -⟩
    · exact .inl (configPath_top.mpr ⟨htop, by rw [hleaf]⟩).symm
    · exact .inr (envPath_top.mpr ⟨htop, by rw [hleaf]⟩).symm
  by_cases hempty : String.ofList x = ""
  · rw [if_pos hempty] at hmem
    have hsuffixes : suffix ∈ [".config", ".env"] := by
      simp only [retiredNames, List.mem_cons, Prod.mk.injEq, List.not_mem_nil, or_false] at hword
      rcases hword with ⟨rfl, -⟩ | ⟨rfl, -⟩ <;> simp
    obtain ⟨s, hs, htop, hleaf⟩ := hd.stale hall suffix hsuffixes hmem
    exact ⟨s, hs, hboth htop (hleaf.trans hempty.symm)⟩
  · rw [if_neg hempty] at hmem
    obtain ⟨s, hs, hname'⟩ := List.mem_map.mp hmem
    have hslash : '/' ∉ s.name.toList := by
      rw [hname', String.toList_ofList]
      intro h
      exact hname.2.1 (by rw [String.toList_append, String.toList_ofList]; exact List.mem_append_left _ h)
    exact ⟨s, hs, hboth (Text.dirPart_of_not_mem hslash p.share)
      ((Text.leaf_of_not_mem hslash).trans hname')⟩

theorem emit_laid (hd : Distinct host a p) {fs fs' : Files} {res : Rendered}
    (h : emit d u host a p fs = (.ok res, fs')) : Laid a p fs' := by
  have hown : ∀ s ∈ p.armed, fs'.read? (configPath p.share s.name) = some s.text ∧
      fs'.read? (envPath p.share s.name) = some (envText a p s.name) := by
    intro s hs
    obtain ⟨l, r, hsplit, hlast⟩ := last_split hs
    obtain ⟨out, fs₁, -, hconfig, henv, hrest⟩ := emit_ok_split h hsplit
    have hkeep := rest_keepsOwn (u := u) (d := d) hd hsplit hlast out fs₁
    rw [hrest] at hkeep
    exact ⟨(hkeep _ (.inl rfl)).trans hconfig, (hkeep _ (.inr rfl)).trans henv⟩
  refine ⟨fun s hs => (hown s hs).1, fun s hs => (hown s hs).2, fun hall name hname hsuffix => ?_⟩
  intro hread
  obtain ⟨out, fs₁, -, hfinish⟩ := Exec.bind_ok_inv h
  have hleft : pruned (p.armed.map Armed.name) a.armAllSections name = false := by
    rw [Bool.eq_false_iff]
    exact fun hpruned => hread (pruneShare_ok (finish_ok hfinish).2 hpruned)
  obtain ⟨suffix, hmem, hsuffix⟩ := hsuffix
  simp only [List.mem_cons, List.not_mem_nil, or_false] at hmem
  rcases hmem with rfl | rfl
  · exact left_own hd hall hname config_retired hsuffix hleft
  · exact left_own hd hall hname env_retired hsuffix hleft

/-! ## A render on an empty disk, with clean_results -/

/-- It returns, when every results directory is accepted. -/
theorem emit_granting (hplan : Planned u host a p) (hacc : Accepted host a p p.armed)
    (hclean : a.cleanResults = true) : ∀ fs, ∃ res fs',
      emit Disk.granting u host a p fs = (.ok res, fs') := by
  intro fs
  obtain ⟨out, fs₁, hloop, -, -⟩ := emitLoop_granting (u := u) fs hacc (.inl hclean) {}
  obtain ⟨_, fs₂, hprune⟩ := pruneShare_granting p.share (p.armed.map Armed.name)
    a.armAllSections fs₁
  obtain ⟨n, ns, hrun⟩ := List.exists_cons_of_ne_nil hplan.run_ne_nil
  obtain ⟨s, hs, rfl⟩ := List.mem_map.mp (hplan.run_mem (hrun ▸ List.mem_cons_self)).1
  obtain ⟨dir, hdir⟩ := hacc s hs (hrun ▸ List.mem_cons_self)
  rw [emit, Exec.bind_ok _ hloop, finish, Exec.bind_ok _ hprune, hrun]
  show ∃ res fs', (Exec.lift (sectionResultsDir host a.vmName a.kernelVersion s.name) >>= _ :
    Exec Files Rendered) fs₂ = (.ok res, fs')
  rw [hdir]
  exact ⟨_, _, rfl⟩

/-- The environment file of a section is not the one written for it. -/
def LostEnv (a : RenderArgs) (p : Plan) (s : Armed) (q : Path) (x y : Option String) : Prop :=
  q = envPath p.share s.name → x ≠ some (envText a p s.name) → y ≠ some (envText a p s.name)

instance (s : Armed) (q : Path) : Std.Refl (LostEnv a p s q) := ⟨fun _ _ h => h⟩

instance (s : Armed) (q : Path) : IsTrans _ (LostEnv a p s q) :=
  ⟨fun _ _ _ h h' hq hx => h' hq (h hq hx)⟩

theorem emitSection_lostEnv (hplan : Planned u host a p) (hclean : a.cleanResults = true)
    {s t : Armed} (hs : s ∈ p.armed) (ht : t ∈ p.armed) (hne : t ≠ s) (out : Emitted) :
    Exec.Within (Pointwise (LostEnv a p s)) (emitSection Disk.granting u host a p out t) := by
  refine within_emitSection_clean hclean (fun _ _ _ _ => (Option.some_ne_none _).symm) ?_ ?_ out
  · exact fun _ hq => absurd hq (configPath_ne_envPath _ _ _)
  · intro _ _ _ heq
    exact envText_ne (hplan.armed_noBreak ht) (hplan.armed_noBreak hs)
      (fun hname => hne (hplan.armed_ext ht hs hname)) (Option.some.inj heq)

/-- A later section takes the environment file with it: it has the same files, or
its results directory holds them. -/
theorem taken_lost (hplan : Planned u host a p) (hacc : Accepted host a p p.armed)
    (hclean : a.cleanResults = true) {l r : List Armed} {s t : Armed}
    (hsplit : p.armed = l ++ s :: r) (hlast : s ∉ r) (ht : t ∈ r)
    (htaken : envPath p.share t.name = envPath p.share s.name ∨
      cleared host a p t (envPath p.share s.name) = true) (fs : Files) :
    (emit Disk.granting u host a p fs).2.read? (envPath p.share s.name) ≠
      some (envText a p s.name) := by
  obtain ⟨r₁, r₂, rfl⟩ := List.append_of_mem ht
  have hs : s ∈ p.armed := by simp [hsplit]
  have htmem : t ∈ p.armed := by simp [hsplit]
  have hne : ∀ w ∈ r₁ ++ t :: r₂, w ≠ s := fun w hw heq => hlast (heq ▸ hw)
  have hsplit' : p.armed = ((l ++ s :: r₁) ++ [t]) ++ r₂ := by simp [hsplit]
  have hacc' : Accepted host a p ((l ++ s :: r₁) ++ [t]) := fun w hw =>
    hacc w (hsplit' ▸ List.mem_append_left _ hw)
  obtain ⟨out, fs₁, hloop, hread, -⟩ := emitLoop_granting (u := u) fs hacc' (.inl hclean) {}
  have hlost : fs₁.read? (envPath p.share s.name) ≠ some (envText a p s.name) := by
    rw [hread, List.foldl_append]
    show laid host a p _ t _ ≠ _
    rw [laid]
    split
    · intro heq
      exact envText_ne (hplan.armed_noBreak htmem) (hplan.armed_noBreak hs)
        (fun hname => hne t ht (hplan.armed_ext htmem hs hname)) (Option.some.inj heq)
    · next hnot =>
        rw [if_neg (configPath_ne_envPath _ _ _).symm,
          if_pos (htaken.resolve_left fun heq => hnot heq.symm)]
        exact (Option.some_ne_none _).symm
  have hrest : Exec.Within (Pointwise (LostEnv a p s))
      (r₂.foldlM (emitSection Disk.granting u host a p) out >>= finish Disk.granting host a p) := by
    refine Exec.within_bind (Exec.within_foldlM (fun o w hw => ?_) out) ?_
    · exact emitSection_lostEnv hplan hclean hs (by simp [hsplit, hw])
        (hne w (List.mem_append_right _ (List.mem_cons_of_mem t hw))) o
    · exact within_finish fun _ _ _ _ _ => (Option.some_ne_none _).symm
  rw [emit_split hsplit' hloop]
  exact hrest fs₁ _ rfl hlost

/-- A file that lies on the share stays there, unless it is pruned. -/
def StaysTop (p : Plan) (name : String) (q : Path) (x y : Option String) : Prop :=
  q = p.share ++ [name] → x ≠ none → y ≠ none

instance (name : String) (q : Path) : Std.Refl (StaysTop p name q) := ⟨fun _ _ h => h⟩

instance (name : String) (q : Path) : IsTrans _ (StaysTop p name q) :=
  ⟨fun _ _ _ h h' hq hx => h' hq (h hq hx)⟩

theorem emit_staysTop (hplan : Planned u host a p) {name : String}
    (hleft : pruned (p.armed.map Armed.name) a.armAllSections name = false) :
    Exec.Within (Pointwise (StaysTop p name)) (emit d u host a p) := by
  refine Exec.within_bind (Exec.within_foldlM (fun out s _ => ?_) _) fun out => ?_
  · refine within_emitSection (fun _ dir hdir q hq x y htop => ?_) ?_ ?_ out
    · obtain ⟨kv, share, -, hshare, -, hunder⟩ := sectionResultsDir_ok hdir
      rw [hplan.share] at hshare
      cases hshare
      subst htop
      have hlen := (hunder.trans ((below_snoc _ _ _).mp hq)).length_le
      simp at hlen
    · exact fun _ _ _ => Option.some_ne_none _
    · exact fun _ _ _ => Option.some_ne_none _
  · refine within_finish (fun n hn x htop => ?_) out
    have hname : n = name := List.singleton_inj.mp (List.append_cancel_left htop)
    rw [hname, hleft] at hn
    cases hn

/-! ## The iff -/

theorem distinct_of_laid (hplan : Planned u host a p) (hacc : Accepted host a p p.armed)
    (hclean : a.cleanResults = true)
    (h : ∀ fs, Laid a p (emit Disk.granting u host a p fs).2) : Distinct host a p := by
  have hleft : ∀ s ∈ p.armed, TopLevel p s.name → ∀ suffix word, (suffix, word) ∈ retiredNames →
      Text.leaf s.name ≠ word ∧ (a.armAllSections = true →
        (if Text.leaf s.name = "" then suffix else Text.leaf s.name) ∈
          p.armed.map Armed.name) := by
    intro s hs htop suffix word hword
    refine (pruned_suffix hword _ _ _).mp (Bool.eq_false_iff.mpr fun hpruned => ?_)
    obtain ⟨res, fs', hrun⟩ := emit_granting (u := u) hplan hacc hclean ⟨[], []⟩
    obtain ⟨out, fs₁, -, hfinish⟩ := Exec.bind_ok_inv hrun
    have hgone := pruneShare_ok (finish_ok hfinish).2 hpruned
    have hlaid := h ⟨[], []⟩
    rw [hrun] at hlaid
    simp only [retiredNames, List.mem_cons, Prod.mk.injEq, List.not_mem_nil, or_false] at hword
    rcases hword with ⟨rfl, -⟩ | ⟨rfl, -⟩
    · have hthere := hlaid.config s hs
      rw [configPath_top.mpr ⟨htop, rfl⟩, hgone] at hthere
      cases hthere
    · have hthere := hlaid.env s hs
      rw [envPath_top.mpr ⟨htop, rfl⟩, hgone] at hthere
      cases hthere
  constructor
  · intro l s r hsplit hlast t ht
    have hs : s ∈ p.armed := by simp [hsplit]
    have hown := (h ⟨[], []⟩).env s hs
    refine ⟨fun hfiles => ?_, fun hrun dir hdir hpre => ?_⟩
    · exact taken_lost hplan hacc hclean hsplit hlast ht (.inl ((envPath_inj _ _ _).mpr hfiles))
        _ hown
    · refine taken_lost hplan hacc hclean hsplit hlast ht (.inr ?_) _ hown
      rw [cleared_eq hrun hclean hdir, envPath_eq]
      exact (below_snoc _ _ _).mpr hpre
  · exact fun s hs htop => ⟨(hleft s hs htop _ _ config_retired).1,
      (hleft s hs htop _ _ env_retired).1⟩
  · intro hall s hs htop suffix hsuffix
    simp only [List.mem_cons, List.not_mem_nil, or_false] at hsuffix
    rcases hsuffix with rfl | rfl
    · exact (hleft s hs htop _ _ config_retired).2 hall
    · exact (hleft s hs htop _ _ env_retired).2 hall
  · intro hall suffix hsuffix hmem
    have hplain : Text.Plain suffix := by
      simp only [List.mem_cons, List.not_mem_nil, or_false] at hsuffix
      rcases hsuffix with rfl | rfl <;> decide
    have hspared : pruned (p.armed.map Armed.name) a.armAllSections suffix = false := by
      have hif : (if "" = "" then suffix else "") ∈ p.armed.map Armed.name := by
        rw [if_pos rfl]
        exact hmem
      have hempty : "" ++ suffix = suffix := String.empty_append
      simp only [List.mem_cons, List.not_mem_nil, or_false] at hsuffix
      rcases hsuffix with rfl | rfl
      · exact hempty ▸ (pruned_suffix config_retired _ _ "").mpr
          ⟨by decide, fun _ => hif⟩
      · exact hempty ▸ (pruned_suffix env_retired _ _ "").mpr
          ⟨by decide, fun _ => hif⟩
    have hstays := emit_staysTop (u := u) (d := Disk.granting) hplan hspared
      ⟨[(p.share ++ [suffix], "")], []⟩ (p.share ++ [suffix]) rfl (by simp [Files.read?])
    obtain ⟨s, hs, hfile⟩ := (h ⟨[(p.share ++ [suffix], "")], []⟩).only hall suffix hplain
      ⟨suffix, hsuffix, List.suffix_refl _⟩ hstays
    have hleaf : ∀ {x w : String}, w = x ++ w → x = "" := by
      intro x w heq
      have hlen := congrArg String.length heq
      rw [String.length_append] at hlen
      exact String.length_eq_zero_iff.mp (by omega)
    have hother : ∀ {x v w : String}, v.toList ≠ [] → w.toList ≠ [] →
        v.toList.getLast? ≠ w.toList.getLast? → v ≠ x ++ w := by
      intro x v w hv hw hlast heq
      refine ne_of_last hv hw hlast [] x.toList ?_
      rw [List.nil_append, heq, String.toList_append]
    simp only [List.mem_cons, List.not_mem_nil, or_false] at hsuffix
    rcases hfile with hfile | hfile
    · obtain ⟨htop, hname⟩ := configPath_top.mp hfile.symm
      rcases hsuffix with rfl | rfl
      · exact ⟨s, hs, htop, hleaf hname⟩
      · exact absurd hname (hother (by decide) (by decide) (by decide))
    · obtain ⟨htop, hname⟩ := envPath_top.mp hfile.symm
      rcases hsuffix with rfl | rfl
      · exact absurd hname (hother (by decide) (by decide) (by decide))
      · exact ⟨s, hs, htop, hleaf hname⟩

end KdevopsNg.Fstests
