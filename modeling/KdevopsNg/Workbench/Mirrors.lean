/-
# `Workbench.Mirrors` — which upstream trees a mirror carries

The tables of `f/workbench/fetch.py` and `build_mirrors`, which the steps that
configure a mirror and the Bare that borrows from it both start from.  The Linux
mirror carries the selected trees, `torvalds` first and as its primary; each other
project is one repository, its `origin`.

What the configuration of the remotes relies on is `Layout`: no two remotes of an
entry have one name, one of them is its primary, and no name has a character that
means something in a refspec.
-/
import KdevopsNg.Py.Exec
import KdevopsNg.Py.Dict
import KdevopsNg.Py.Text
import Mathlib.Data.List.Forall2
import Mathlib.Data.List.Nodup

namespace KdevopsNg.Workbench

open Py

/-! ## The tables -/

/-- A tree of the Linux mirror: where it is on the host the mirror reads from, or its clone
URL for each transport of a host of its own. -/
inductive Tree where
  | path (path : String)
  | pinned (schemes : Dict String)
  deriving Repr

/-- `LINUX_SOURCES`: from the path of a tree its clone URL, for each source and
transport. -/
def linuxSources : Dict (Dict (String → String)) := [
  ("kernel.org", [
    ("https", fun path => "https://git.kernel.org/" ++ path ++ ".git"),
    ("git", fun path => "git://git.kernel.org/" ++ path ++ ".git")]),
  ("googlesource", [
    ("https", fun path => "https://kernel.googlesource.com/" ++ path ++ ".git")])]

/-- `DEFAULT_LINUX_SOURCE`. -/
def defaultLinuxSource : String := "kernel.org"

/-- `DEFAULT_PROTOCOL`. -/
def defaultProtocol : String := "https"

/-- `KERNEL_TREES`. -/
def kernelTrees : Dict Tree := [
  ("torvalds", .path "pub/scm/linux/kernel/git/torvalds/linux"),
  ("linux-next", .path "pub/scm/linux/kernel/git/next/linux-next"),
  ("linux-stable", .path "pub/scm/linux/kernel/git/stable/linux"),
  ("linux-stable-rc", .path "pub/scm/linux/kernel/git/stable/linux-stable-rc"),
  ("modules", .path "pub/scm/linux/kernel/git/modules/linux"),
  ("mcgrof", .path "pub/scm/linux/kernel/git/mcgrof/linux"),
  ("mcgrof-next", .path "pub/scm/linux/kernel/git/mcgrof/linux-next"),
  ("da.gomez", .path "pub/scm/linux/kernel/git/da.gomez/linux"),
  ("axboe", .path "pub/scm/linux/kernel/git/axboe/linux"),
  ("vfs", .path "pub/scm/linux/kernel/git/vfs/vfs"),
  ("cel", .path "pub/scm/linux/kernel/git/cel/linux"),
  ("jlayton", .path "pub/scm/linux/kernel/git/jlayton/linux"),
  ("cxl", .path "pub/scm/linux/kernel/git/cxl/cxl"),
  ("nvme", .pinned [("git", "git://git.infradead.org/nvme.git")]),
  ("djwong", .path "pub/scm/linux/kernel/git/djwong/xfs-linux"),
  ("xfs", .path "pub/scm/fs/xfs/xfs-linux")]

/-- `DEFAULT_KERNEL_TREES`. -/
def defaultKernelTrees : List String :=
  ["torvalds", "linux-next", "linux-stable", "modules", "mcgrof", "da.gomez", "axboe", "vfs",
    "cel", "jlayton", "djwong", "xfs"]

/-- `TAG_TREES`. -/
def tagTrees : List String := ["torvalds", "linux-next", "linux-stable", "linux-stable-rc"]

/-- `QEMU_SOURCES`. -/
def qemuSources : Dict (Dict String) := [
  ("gitlab", [
    ("https", "https://gitlab.com/qemu-project/qemu.git"),
    ("git", "git://gitlab.com/qemu-project/qemu.git")]),
  ("github", [("https", "https://github.com/qemu/qemu.git")])]

/-- The two hosts of an xfs userspace tree. -/
def xfsSources (repo : String) : Dict (Dict String) := [
  ("kernel.org", [
    ("https", "https://git.kernel.org/pub/scm/fs/xfs/" ++ repo),
    ("git", "git://git.kernel.org/pub/scm/fs/xfs/" ++ repo)]),
  ("googlesource", [("https", "https://kernel.googlesource.com/pub/scm/fs/xfs/" ++ repo)])]

/-- `XFSTESTS_SOURCES`. -/
def xfstestsSources : Dict (Dict String) := xfsSources "xfstests-dev.git"

/-- `XFSPROGS_SOURCES`. -/
def xfsprogsSources : Dict (Dict String) := xfsSources "xfsprogs-dev.git"

/-- The one host of a project on GitHub. -/
def githubSources (url : String) : Dict (Dict String) := [("github", [("https", url)])]

/-- `FIO_SOURCES`. -/
def fioSources : Dict (Dict String) := githubSources "https://github.com/axboe/fio.git"

/-- `BLKTESTS_SOURCES`. -/
def blktestsSources : Dict (Dict String) :=
  githubSources "https://github.com/linux-blktests/blktests.git"

/-- `BCC_SOURCES`. -/
def bccSources : Dict (Dict String) := githubSources "https://github.com/iovisor/bcc.git"

/-- `EBPF_SYSCALL_SOURCES`. -/
def ebpfSyscallSources : Dict (Dict String) :=
  githubSources "https://github.com/SamsungDS/ebpf-syscall.git"

/-- `SYSTING_SOURCES`. -/
def systingSources : Dict (Dict String) := githubSources "https://github.com/josefbacik/systing.git"

/-- `MIRROR_PROJECTS`. -/
def mirrorProjects : List String :=
  ["linux", "qemu", "xfstests-dev", "xfsprogs-dev", "fio", "blktests", "bcc", "ebpf-syscall",
    "systing"]

/-! ## `build_mirrors` -/

/-- The deploy options of a project.  One that is left out is empty. -/
structure Deploy where
  trees : List String
  source : String
  protocol : String
  deriving DecidableEq, Repr

/-- No options. -/
def Deploy.none : Deploy := ⟨[], "", ""⟩

/-- A remote of a mirror. -/
structure Remote where
  name : String
  url : String
  primary : Bool
  tags : Bool
  deriving DecidableEq, Repr

/-- A mirror and its remotes. -/
structure Entry where
  name : String
  project : String
  mirror : Path
  remotes : List Remote
  deriving DecidableEq, Repr

/-- `x or default`. -/
def orElse (x default : String) : String := if x = "" then default else x

/-- `d[k]`. -/
def item {α : Type} (d : Dict α) (k : String) : Except PyError α :=
  match Dict.get? d k with
  | some v => .ok v
  | none => .error (.keyError k)

/-- `_transport`.  Every table of transports has one. -/
def transport {α : Type} (schemes : Dict α) (protocol : String) : String :=
  if Dict.contains schemes protocol then protocol
  else (Dict.keys schemes).head?.getD protocol

/-- The error for a name that is in no table. -/
def unknown (what name : String) (curated : List String) : PyError :=
  .valueError ("unknown " ++ what ++ " " ++ Text.repr name ++
    " (curated: " ++ Text.join ", " curated ++ ")")

/-- `_effective_protocol`. -/
def effectiveProtocol {α : Type} (sources : Dict (Dict α)) (source protocol : String) :
    Except PyError String :=
  match Dict.get? sources source with
  | some schemes => .ok (transport schemes protocol)
  | none => .error (unknown "source" source (Dict.keys sources))

/-- The clone URL of a tree, from the template of the mirror's source. -/
def treeUrl (template : String → String) (proto : String) : Tree → Except PyError String
  | .path path => .ok (template path)
  | .pinned schemes => item schemes (transport schemes proto)

/-- A remote of the Linux mirror. -/
def linuxRemote (template : String → String) (proto name : String) : Except PyError Remote :=
  match Dict.get? kernelTrees name with
  | none => .error (unknown "kernel tree" name (Dict.keys kernelTrees))
  | some tree => do
      let url ← treeUrl template proto tree
      return ⟨name, url, decide (name = "torvalds"), decide (name ∈ tagTrees)⟩

/-- The trees the options of the Linux mirror select. -/
def Deploy.selected (cfg : Deploy) : List String :=
  "torvalds" :: if cfg.trees = [] then defaultKernelTrees else cfg.trees

/-- `_linux_mirror`. -/
def linuxMirror (cfg : Deploy) (mirrorDir : Path) : Except PyError Entry := do
  let source := orElse cfg.source defaultLinuxSource
  let proto ← effectiveProtocol linuxSources source (orElse cfg.protocol defaultProtocol)
  let schemes ← item linuxSources source
  let template ← item schemes proto
  let remotes ← cfg.selected.eraseDups.mapM (linuxRemote template proto)
  return ⟨"linux", "linux", mirrorDir ++ ["linux.git"], remotes⟩

/-- `_single_repo_mirror`. -/
def singleRepoMirror (project : String) (sources : Dict (Dict String)) (cfg : Deploy)
    (mirrorDir : Path) : Except PyError Entry := do
  let source := orElse cfg.source ((Dict.keys sources).head?.getD "")
  let proto ← effectiveProtocol sources source (orElse cfg.protocol defaultProtocol)
  let schemes ← item sources source
  let url ← item schemes proto
  return ⟨project, project, mirrorDir ++ [project ++ ".git"], [⟨"origin", url, true, true⟩]⟩

/-- The builders of `build_mirrors`. -/
def builders : Dict (Deploy → Path → Except PyError Entry) := [
  ("linux", linuxMirror),
  ("qemu", singleRepoMirror "qemu" qemuSources),
  ("xfstests-dev", singleRepoMirror "xfstests-dev" xfstestsSources),
  ("xfsprogs-dev", singleRepoMirror "xfsprogs-dev" xfsprogsSources),
  ("fio", singleRepoMirror "fio" fioSources),
  ("blktests", singleRepoMirror "blktests" blktestsSources),
  ("bcc", singleRepoMirror "bcc" bccSources),
  ("ebpf-syscall", singleRepoMirror "ebpf-syscall" ebpfSyscallSources),
  ("systing", singleRepoMirror "systing" systingSources)]

/-- The options of a project among those given. -/
def deployOf (configs : Dict (Option Deploy)) (project : String) : Deploy :=
  (Dict.get? configs project).join.getD .none

/-- The entry of a project. -/
def buildMirror (configs : Dict (Option Deploy)) (mirrorDir : Path) (project : String) :
    Except PyError Entry :=
  match Dict.get? builders project with
  | none => .error (unknown "mirror project" project (Dict.keys builders))
  | some builder => builder (deployOf configs project) mirrorDir

/-- `build_mirrors`. -/
def buildMirrors (projects : List String) (configs : Dict (Option Deploy)) (mirrorDir : Path) :
    Except PyError (List Entry) :=
  projects.mapM (buildMirror configs mirrorDir)

/-! ## The layout of an entry -/

/-- A name with no character that means something in a refspec. -/
def PlainName (name : String) : Prop := ∀ c ∈ ['/', '*', ':'], c ∉ name.toList

instance (name : String) : Decidable (PlainName name) :=
  List.decidableBAll (fun c => c ∉ name.toList) ['/', '*', ':']

/-- What the remotes of an entry are like. -/
structure Layout (e : Entry) : Prop where
  nodup : (e.remotes.map (·.name)).Nodup
  plain : ∀ r ∈ e.remotes, PlainName r.name
  primary : ∃ r ∈ e.remotes, r.primary = true
  unique : ∀ r ∈ e.remotes, ∀ r' ∈ e.remotes, r.primary = true → r'.primary = true → r = r'
  apart : ∀ r ∈ e.remotes, r.primary = false → r.name ≠ "mirror"

/-- The trees an entry of a project was built for. -/
def selected (configs : Dict (Option Deploy)) (project : String) : List String :=
  if project = "linux" then (deployOf configs project).selected else ["origin"]

/-- The tree among them that is the primary. -/
def primaryTree (project : String) : String := if project = "linux" then "torvalds" else "origin"

theorem plainName_kernelTrees :
    ∀ name ∈ Dict.keys kernelTrees, PlainName name ∧ name ≠ "mirror" := by decide

/-- A remote of the Linux mirror has the name of its tree, one of the table. -/
theorem linuxRemote_spec {template : String → String} {proto name : String} {r : Remote}
    (h : linuxRemote template proto name = .ok r) :
    r.name = name ∧ r.primary = decide (name = "torvalds") ∧ name ∈ Dict.keys kernelTrees := by
  rw [linuxRemote] at h
  split at h
  · cases h
  · rename_i tree htree
    obtain ⟨url, -, hret⟩ := except_bind_ok.mp h
    cases hret
    exact ⟨rfl, rfl, List.mem_map_of_mem (Dict.mem_of_get? htree)⟩

/-- What an entry built for a project is. -/
structure BuiltFor (configs : Dict (Option Deploy)) (project : String) (e : Entry) : Prop where
  project_eq : e.project = project
  names : e.remotes.map (·.name) = (selected configs project).eraseDups
  plain : ∀ r ∈ e.remotes, PlainName r.name ∧ r.name ≠ "mirror"
  primary : ∀ r ∈ e.remotes, r.primary = decide (r.name = primaryTree project)

theorem linuxMirror_spec {configs : Dict (Option Deploy)} {dir : Path} {e : Entry}
    (h : linuxMirror (deployOf configs "linux") dir = .ok e) : BuiltFor configs "linux" e := by
  obtain ⟨proto, -, h⟩ := except_bind_ok.mp h
  obtain ⟨schemes, -, h⟩ := except_bind_ok.mp h
  obtain ⟨template, -, h⟩ := except_bind_ok.mp h
  obtain ⟨remotes, hremotes, hret⟩ := except_bind_ok.mp h
  cases hret
  have hone : ∀ r ∈ remotes, r.primary = decide (r.name = "torvalds") ∧
      r.name ∈ Dict.keys kernelTrees := by
    intro r hr
    obtain ⟨name, -, hname⟩ := except_mapM_mem hremotes hr
    obtain ⟨rfl, hprimary, htree⟩ := linuxRemote_spec hname
    exact ⟨hprimary, htree⟩
  refine ⟨rfl, ?_, fun r hr => plainName_kernelTrees _ (hone r hr).2, fun r hr => (hone r hr).1⟩
  -- each remote stands at the place of its tree
  have hplaces : List.Forall₂ (fun name r => r.name = name)
      (deployOf configs "linux").selected.eraseDups remotes :=
    (except_mapM_ok hremotes).imp fun _ _ hname => (linuxRemote_spec hname).1
  have heq : List.Forall₂ Eq (remotes.map (·.name)) (deployOf configs "linux").selected.eraseDups :=
    List.forall₂_map_left_iff.mpr hplaces.flip
  rw [List.forall₂_eq_eq_eq] at heq
  exact heq

theorem singleRepoMirror_spec {configs : Dict (Option Deploy)} {project : String}
    (hlinux : project ≠ "linux") {sources : Dict (Dict String)} {cfg : Deploy} {dir : Path}
    {e : Entry} (h : singleRepoMirror project sources cfg dir = .ok e) :
    BuiltFor configs project e := by
  obtain ⟨proto, -, h⟩ := except_bind_ok.mp h
  obtain ⟨schemes, -, h⟩ := except_bind_ok.mp h
  obtain ⟨url, -, hret⟩ := except_bind_ok.mp h
  cases hret
  refine ⟨rfl, ?_, fun r hr => ?_, fun r hr => ?_⟩
  · rw [selected, if_neg hlinux]
    rfl
  · rw [List.mem_singleton.mp hr]
    have horigin : PlainName "origin" ∧ "origin" ≠ "mirror" := by decide
    exact horigin
  · rw [List.mem_singleton.mp hr, primaryTree, if_neg hlinux]
    rfl

/-- Every builder of the table but the first is one of a single repository. -/
theorem builders_tail : ∀ b ∈ builders.tail, b.1 ≠ "linux" ∧
    ∃ sources, b.2 = singleRepoMirror b.1 sources := by
  simp only [builders, List.tail_cons, List.forall_mem_cons]
  refine ⟨?_, ?_, ?_, ?_, ?_, ?_, ?_, ?_, fun _ hb => by cases hb⟩ <;>
    exact ⟨by decide, _, rfl⟩

/-- The entry of a project comes of the builder of the Linux mirror, or of that of a single
repository. -/
theorem buildMirror_cases {configs : Dict (Option Deploy)} {dir : Path} {project : String}
    {e : Entry} (h : buildMirror configs dir project = .ok e) :
    project = "linux" ∧ linuxMirror (deployOf configs "linux") dir = .ok e ∨
      project ≠ "linux" ∧
        ∃ sources, singleRepoMirror project sources (deployOf configs project) dir = .ok e := by
  rw [buildMirror] at h
  split at h
  · cases h
  · rename_i builder hbuilder
    have hmem : (project, builder) ∈ ("linux", linuxMirror) :: builders.tail :=
      Dict.mem_of_get? hbuilder
    rcases List.mem_cons.mp hmem with heq | htail
    · cases heq
      exact .inl ⟨rfl, h⟩
    · obtain ⟨hlinux, sources, hsingle⟩ := builders_tail _ htail
      dsimp only at hsingle
      rw [hsingle] at h
      exact .inr ⟨hlinux, sources, h⟩

/-- The entry of a project is built for it. -/
theorem buildMirror_spec {configs : Dict (Option Deploy)} {dir : Path} {project : String}
    {e : Entry} (h : buildMirror configs dir project = .ok e) : BuiltFor configs project e := by
  rcases buildMirror_cases h with ⟨rfl, hlinux⟩ | ⟨hne, sources, hsingle⟩
  · exact linuxMirror_spec hlinux
  · exact singleRepoMirror_spec hne hsingle

section
variable {configs : Dict (Option Deploy)} {project : String} {e : Entry}

theorem primaryTree_mem_selected (configs : Dict (Option Deploy)) (project : String) :
    primaryTree project ∈ selected configs project := by
  rw [primaryTree, selected]
  by_cases hlinux : project = "linux"
  · rw [if_pos hlinux, if_pos hlinux]
    exact List.mem_cons_self
  · rw [if_neg hlinux, if_neg hlinux]
    exact List.mem_singleton_self _

theorem BuiltFor.mem_names (h : BuiltFor configs project e) {t : String} :
    (∃ r ∈ e.remotes, r.name = t) ↔ t ∈ selected configs project := by
  rw [← List.mem_map, h.names, List.mem_eraseDups]

theorem BuiltFor.layout (h : BuiltFor configs project e) : Layout e := by
  have hnodup : (e.remotes.map (·.name)).Nodup := by
    rw [h.names]
    exact nodup_eraseDups _
  have hname : ∀ r ∈ e.remotes, r.primary = true → r.name = primaryTree project := by
    intro r hr hp
    rw [h.primary r hr] at hp
    exact of_decide_eq_true hp
  refine ⟨hnodup, fun r hr => (h.plain r hr).1, ?_, fun r hr r' hr' hp hp' => ?_,
    fun r hr _ => (h.plain r hr).2⟩
  · obtain ⟨r, hr, hrname⟩ := h.mem_names.mpr (primaryTree_mem_selected configs project)
    exact ⟨r, hr, by rw [h.primary r hr, decide_eq_true hrname]⟩
  · exact List.inj_on_of_nodup_map hnodup hr hr' ((hname r hr hp).trans (hname r' hr' hp').symm)

end

/-! ## The entries of a run -/

section
variable {projects : List String} {configs : Dict (Option Deploy)} {dir : Path} {es : List Entry}

theorem entry_built (h : buildMirrors projects configs dir = .ok es) {e : Entry} (he : e ∈ es) :
    buildMirror configs dir e.project = .ok e := by
  obtain ⟨project, -, hbuilt⟩ := except_mapM_mem h he
  rw [(buildMirror_spec hbuilt).project_eq]
  exact hbuilt

/-- Two entries of one project are the same. -/
theorem entry_unique (h : buildMirrors projects configs dir = .ok es) {e e' : Entry}
    (he : e ∈ es) (he' : e' ∈ es) (hproject : e.project = e'.project) : e = e' := by
  have hbuilt := entry_built h he
  rw [hproject, entry_built h he'] at hbuilt
  cases hbuilt
  rfl

theorem entry_of_project (h : buildMirrors projects configs dir = .ok es) {project : String}
    (hp : project ∈ projects) : ∃ e ∈ es, e.project = project := by
  obtain ⟨e, he, hbuilt⟩ := except_mapM_of_mem h hp
  exact ⟨e, he, (buildMirror_spec hbuilt).project_eq⟩

end

/-- Options that are left out are empty ones. -/
theorem deployOf_filled (configs : Dict (Option Deploy)) (project : String) :
    deployOf (configs.map fun p => (p.1, some (p.2.getD .none))) project =
      deployOf configs project := by
  induction configs with
  | nil => rfl
  | cons p configs ih =>
      obtain ⟨name, cfg⟩ := p
      rw [deployOf, deployOf, List.map_cons, Dict.get?_cons, Dict.get?_cons]
      by_cases hname : name = project
      · rw [if_pos hname, if_pos hname]
        cases cfg <;> rfl
      · rw [if_neg hname, if_neg hname]
        exact ih

end KdevopsNg.Workbench
