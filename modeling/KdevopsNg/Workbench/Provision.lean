/-
# `Workbench.Provision` — the remotes of a mirror and of its Bare

The two steps that configure the remotes: `f/workbench/mirror.py` those of each
mirror (`provision_remotes`), `f/workbench/fetch.py` those of the Bare of each
project (`ensure`, `ensure_peers`).  Both build the same entries from the same
options.

A step works on the configs of its repositories, one for each project; the empty
config is that of a repository that is not there yet, or was just made.  What the
steps do besides (units and timers, alternates, the fetch itself and its refs) is
not part of the configs and not here.
-/
import KdevopsNg.Common.Worktree
import KdevopsNg.Git.Config
import KdevopsNg.Workbench.Mirrors

namespace KdevopsNg.Workbench

open Py Git Config
open Common (pathText)

/-! ## Running git -/

/-- `git.run`: a command that fails raises. -/
def run (command : String) (f : Config → Option Config) : Exec Config Unit := fun c =>
  match f c with
  | some c' => (.ok (), c')
  | none => (.error (.calledProcessError command), c)

/-- `git.ok`: whether a command went through. -/
def ok (f : Config → Option Config) : Exec Config Bool := fun c =>
  match f c with
  | some c' => (.ok true, c')
  | none => (.ok false, c)

/-- The configs of the repositories, by project. -/
abbrev Repos := String → Config

/-- A body run in the repository of a project. -/
def inRepo {α : Type} (project : String) (x : Exec Config α) : Exec Repos α := fun w =>
  ((x (w project)).1, Function.update w project (x (w project)).2)

section
variable (G : Git.Syntax)

/-! ## `f/workbench/mirror.py` -/

/-- The refspec of a remote of a mirror. -/
def mirrorRefspec (r : Remote) : String :=
  if r.primary then "+refs/heads/*:refs/heads/*" else "+refs/heads/*:refs/remotes/" ++ r.name ++ "/*"

/-- The names `git remote` lists. -/
def listRemotes : Exec Config (List String) := fun c =>
  if readable G c then (.ok c.remotes, c) else (.error (.calledProcessError "git remote"), c)

/-- The removal of a remote that is not wanted. -/
def removeStale (wanted : List String) (name : String) : Exec Config Unit :=
  if name ∈ wanted then pure () else run "git remote remove" (remoteRemove G name)

/-- The URL of a remote of a mirror. -/
def setRemote (r : Remote) : Exec Config Unit := do
  let present ← Exec.look (remoteGetUrl G r.name)
  if present then run "git remote set-url" (remoteSetUrl G r.name r.url)
  else run "git remote add" (remoteAdd G r.name r.url)

/-- One remote of a mirror. -/
def provisionRemote (r : Remote) : Exec Config Unit := do
  setRemote G r
  run "git config" fun c => set c ⟨r.name, "fetch"⟩ (mirrorRefspec r)
  run "git config" fun c => set c ⟨r.name, "tagOpt"⟩ (if r.tags then "--tags" else "--no-tags")
  -- a leftover flag is dropped if it is there
  let _ ← ok fun c => unset c ⟨r.name, "mirror"⟩

/-- One round of the loop over them. -/
def provisionRound (results : List Remote) (r : Remote) : Exec Config (List Remote) := do
  provisionRemote G r
  return results ++ [r]

/-- `_provision_remotes`.  It reports the remotes as they were asked for. -/
def provisionRemotes (remotes : List Remote) : Exec Config (List Remote) := do
  let names ← listRemotes G
  names.foldlM (fun _ name => removeStale G (remotes.map (·.name)) name) ()
  remotes.foldlM (provisionRound G) []

/-! ## `f/workbench/fetch.py` -/

/-- Point a remote at a URL, whether or not git goes along. -/
def pointRemote (name url : String) : Exec Config Bool := do
  let present ← Exec.look (remoteGetUrl G name)
  let _ ← ok (if present then remoteSetUrl G name url else remoteAdd G name url)
  return present

/-- The refspec for the primary's heads. -/
def headsRefspec : String := "+refs/heads/*:refs/remotes/mirror/*"

/-- The refspec for another tree of the mirror. -/
def treeRefspec (tree : String) : String :=
  "+refs/remotes/" ++ tree ++ "/*:refs/remotes/" ++ tree ++ "/*"

/-- The refspec of one more tree. -/
def addTree (tree : String) : Exec Config Unit :=
  run "git config" fun c => add c ⟨"mirror", "fetch"⟩ (treeRefspec tree)

/-- The part of `_ensure` that configures the remotes. -/
def ensure (mirror origin : String) (trees : List String) : Exec Config Unit := do
  let _ ← pointRemote G "origin" origin
  let _ ← pointRemote G "mirror" mirror
  run "git config" fun c => replaceAll c ⟨"mirror", "fetch"⟩ headsRefspec
  trees.foldlM (fun _ => addTree) ()

/-- `_validate_peer`. -/
def validatePeer (peer : String) : Except PyError Unit :=
  if peer = "" then .error (.valueError ("peer must be a non-empty string: " ++ Text.repr peer))
  else if '/' ∈ peer.toList ∨ Text.isInfix ['.', '.'] peer.toList ∨ peer.toList.head? = some '-' then
    .error (.valueError ("invalid peer alias: " ++ peer))
  else .ok ()

/-- The refspec for the branches of a peer. -/
def peerRefspec (peer : String) : String := "+refs/heads/*:refs/remotes/" ++ peer ++ "/*"

/-- One round of the loop over the peers. -/
def ensurePeer (system : Path) (project : String) (results : List (String × String))
    (peer : String) : Exec Config (List (String × String)) := do
  Exec.lift (validatePeer peer)
  let url := "ssh://" ++ peer ++ pathText system ++ "/bare/" ++ project ++ ".git"
  let _ ← pointRemote G peer url
  let _ ← ok fun c => set c ⟨peer, "fetch"⟩ (peerRefspec peer)
  return results ++ [(peer, url)]

/-- `_ensure_peers`. -/
def ensurePeers (system : Path) (project : String) (peers : List String) :
    Exec Config (List (String × String)) :=
  peers.foldlM (ensurePeer G system project) []

end

/-! ## Validating an entry -/

/-- A truth value as `repr` writes it. -/
def reprBool (b : Bool) : String := if b then "True" else "False"

/-- A remote as `repr` writes it. -/
def reprRemote (r : Remote) : String :=
  "\x7b'name': " ++ Text.repr r.name ++ ", 'url': " ++ Text.repr r.url ++ ", 'primary': " ++
    reprBool r.primary ++ ", 'tags': " ++ reprBool r.tags ++ "\x7d"

/-- An entry as `repr` writes it. -/
def reprEntry (e : Entry) : String :=
  "\x7b'name': " ++ Text.repr e.name ++ ", 'project': " ++ Text.repr e.project ++ ", 'mirror': " ++
    Text.repr (pathText e.mirror) ++ ", 'remotes': [" ++
    Text.join ", " (e.remotes.map reprRemote) ++ "]\x7d"

/-- `_require_str`. -/
def requireStr (e : Entry) (key value : String) : Except PyError String :=
  if value = "" then
    .error (.valueError ("mirror entry " ++ reprEntry e ++ ": " ++ key ++
      " must be a non-empty string"))
  else .ok value

/-- `_validate`. -/
def validate (e : Entry) : Except PyError (String × String × String) := do
  let name ← requireStr e "name" e.name
  let mirror ← requireStr e "mirror" (pathText e.mirror)
  let project ← requireStr e "project" e.project
  if e.remotes = [] then
    .error (.valueError ("mirror " ++ Text.repr name ++ ": needs at least one remote"))
  else if mirror.toList.head? = some '-' then .error (.valueError ("invalid mirror: " ++ mirror))
  else if Text.isInfix ['.', '.'] project.toList ∨ project.toList.head? = some '-' ∨
      project.toList.head? = some '/' then
    .error (.valueError ("invalid project: " ++ project))
  else .ok (name, mirror, project)

/-- `_primary`. -/
def primaryRemote (e : Entry) : Except PyError Remote :=
  match (e.remotes.find? (·.primary)).or e.remotes.head? with
  | some r => .ok r
  | none => .error .indexError

/-! ## The two steps -/

/-- An entry of the `peers` argument: a text, an object (a field that is left out is empty), or
anything else. -/
inductive PeerInput where
  | text (s : String)
  | object (host storeIndex : String)
  | other
  deriving DecidableEq, Repr

/-- `DEFAULT_PEER_INDEX`. -/
def defaultPeerIndex : String := "~/.local/state/windmill/workbench/system/store-index"

/-- `s.strip()`. -/
def stripped (s : String) : String := String.ofList (Text.strip s.toList)

/-- One entry of `_normalize_peers`. -/
def normalizePeer (p : PeerInput) : Option (String × String) :=
  let (host, index) := match p with
    | .text s => (stripped s, defaultPeerIndex)
    | .object host storeIndex => (stripped host, orElse (stripped storeIndex) defaultPeerIndex)
    | .other => ("", "")
  if host = "" then none else some (host, index)

/-- `_normalize_peers`. -/
def normalizePeers (peers : List PeerInput) : List (String × String) := peers.filterMap normalizePeer

/-- The selection both steps take: the projects, and the options of each. -/
structure Selection where
  projects : Option (List String)
  linux : Option Deploy
  qemu : Option Deploy
  xfstestsDev : Option Deploy
  xfsprogsDev : Option Deploy
  fio : Option Deploy
  blktests : Option Deploy
  bcc : Option Deploy
  ebpfSyscall : Option Deploy
  systing : Option Deploy
  deriving DecidableEq, Repr

namespace Selection

/-- The selected projects. -/
def selectedProjects (a : Selection) : List String := a.projects.getD mirrorProjects

/-- The options by project. -/
def configs (a : Selection) : Dict (Option Deploy) := [
  ("linux", a.linux), ("qemu", a.qemu), ("xfstests-dev", a.xfstestsDev),
  ("xfsprogs-dev", a.xfsprogsDev), ("fio", a.fio), ("blktests", a.blktests), ("bcc", a.bcc),
  ("ebpf-syscall", a.ebpfSyscall), ("systing", a.systing)]

/-- The options by project, those that are left out as empty ones. -/
def filledConfigs (a : Selection) : Dict (Option Deploy) :=
  a.configs.map fun p => (p.1, some (p.2.getD .none))

end Selection

/-- Where the repositories are. -/
structure Dirs where
  system : Path
  mirrors : Path
  deriving DecidableEq, Repr

section
variable (G : Git.Syntax) (dirs : Dirs)

/-- One round of the loop over the mirrors. -/
def mirrorRound (provisioned : List (String × List Remote)) (e : Entry) :
    Exec Repos (List (String × List Remote)) := do
  let remotes ← inRepo e.project (provisionRemotes G e.remotes)
  return provisioned ++ [(e.name, remotes)]

/-- `main` of `f/workbench/mirror.py`: what it leaves in the configs of the mirrors. -/
def mirrorMain (a : Selection) : Exec Repos (List (String × List Remote)) := do
  let mirrors ← Exec.lift (buildMirrors a.selectedProjects a.filledConfigs dirs.mirrors)
  mirrors.foldlM (mirrorRound G) []

/-- The trees of an entry besides its primary. -/
def Entry.trees (e : Entry) : List String := (e.remotes.filter fun r => !r.primary).map (·.name)

/-- The configuration of a Bare. -/
def ensureBare (mirror project origin : String) (trees peers : List String) :
    Exec Config (List (String × String)) := do
  ensure G mirror origin trees
  ensurePeers G dirs.system project peers

/-- One round of the loop over the entries. -/
def fetchRound (peers : List String) (results : List (String × List (String × String)))
    (e : Entry) : Exec Repos (List (String × List (String × String))) := do
  let (name, mirror, project) ← Exec.lift (validate e)
  let primary ← Exec.lift (primaryRemote e)
  let peerResults ← inRepo project (ensureBare G dirs mirror project primary.url e.trees peers)
  return results ++ [(name, peerResults)]

/-- `main` of `f/workbench/fetch.py`: what it leaves in the configs of the Bares. -/
def fetchMain (a : Selection) (peers : List PeerInput) :
    Exec Repos (List (String × List (String × String))) := do
  let mirrors ← Exec.lift (buildMirrors a.selectedProjects a.configs dirs.mirrors)
  let hosts := (normalizePeers peers).map (·.1)
  mirrors.foldlM (fetchRound G dirs hosts) []

end

end KdevopsNg.Workbench
