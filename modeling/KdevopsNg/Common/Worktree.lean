/-
# `Common.Worktree` — laying and syncing worktrees

`prepare` and `prepare_developer` of `f/common/worktree.py`, over the git
commands of the library.  A call runs in an `Env`: what the mirror serves, which
queries answer and which changes git carries out, one switch for each call site
of the source, and how the patch series ends.

    a query that fails      prints nothing, which the source reads as absent
    a change refused        leaves the store as it was; `git.run` then raises,
                            `git.ok` goes on

`prepare` forces the worker's build worktree onto the ref and cleans it.
`prepare_developer` declines where it would have to discard work.
-/
import KdevopsNg.Common.Slug
import KdevopsNg.Git.Moves
import KdevopsNg.Py.Exec

namespace KdevopsNg.Common

open Py Git

/-! ## The world of a call -/

/-- A commit, by its id. -/
abbrev Commit := String

/-- The Bare and its worktrees. -/
abbrev St := Store Commit Path

/-- Where the source reads HEAD. -/
inductive HeadSite where
  | foreign
  | ongoing
  | removal
  | refused
  | added
  | before
  | merged
  | published
  | final
  deriving DecidableEq, Repr

/-- The queries of the two functions. -/
inductive Query where
  | resolveTag
  | resolveMirror
  | resolveLiteral
  | probe
  | commonDir
  | gitDir (again : Bool)
  | orphans
  | branches
  | attached
  | existing
  | head (site : HeadSite)
  deriving DecidableEq, Repr

/-- An operation the worker aborts. -/
inductive Abort where
  | am
  | rebase
  | cherryPick
  | revert
  | merge
  deriving DecidableEq, Repr

/-- The changes of the two functions. -/
inductive Change where
  | prune (again : Bool)
  | remove
  | add
  | merge
  | checkout
  | abort (op : Abort) (again : Bool)
  | force
  | publish
  | anchor
  deriving DecidableEq, Repr

/-- What b4 does with a series: the mboxes it downloads, the messages its cover fetch
saves (none when it fails), and how the patches apply. -/
structure SeriesAnswer where
  outdir : String
  downloaded : Bool
  mboxes : List String
  cover : Option (List String)
  am : AmAnswer Commit
  deriving DecidableEq, Repr

/-- What the world answers in a call. -/
structure Env where
  served : Served Commit
  answers : Query → Bool
  grants : Change → Bool
  stuck : String → Bool
  series : SeriesAnswer

/-- The host of a step: its directories, and whether the Bare and the vendored flake
are there. -/
structure BuildHost where
  bareDir : Path
  workersDir : Path
  worktreesDir : Path
  vendorDir : Path
  workerIndex : String
  bareReady : Bool
  flakeReady : Bool

section
variable (R : Repository Commit) (env : Env)

/-- A query at a call site: what it reads, or nothing. -/
def query {α : Type} (q : Query) (read : St → Option α) : Exec St (Option α) := fun s =>
  (.ok (if env.answers q then read s else none), s)

/-- A change at a call site: whether git carried it out. -/
def change (c : Change) (f : St → Option St) : Exec St Bool := fun s =>
  match if env.grants c then f s else none with
  | some s' => (.ok true, s')
  | none => (.ok false, s)

/-- A change that raises when git refuses. -/
def mustChange (c : Change) (command : String) (f : St → Option St) : Exec St Unit := do
  let ok ← change env c f
  if ok then pure () else Exec.raise (.calledProcessError command)

/-! ## Checks -/

/-- A path as text. -/
def pathText (p : Path) : String := "/" ++ Text.join "/" p

/-- `validate_group`. -/
def validateGroup (group : String) : Except PyError Unit :=
  let cs := group.toList
  if cs = [] ∨ group = "." ∨ group = ".." ∨ cs.head? = some '-' ∨ cs.any Text.isSpace ∨ '/' ∈ cs then
    .error (.valueError ("invalid worktree-group: " ++ Text.repr group))
  else if group = "system" ∨ group = "workers" then
    .error (.valueError ("worktree-group " ++ Text.repr group ++
      " is reserved (reserved: system, workers)"))
  else .ok ()

/-- `if ref.startswith("-"): raise`. -/
def validateRef (ref : String) : Except PyError Unit :=
  if ref.toList.head? = some '-' then .error (.valueError ("invalid ref: " ++ ref)) else .ok ()

/-- `_bare`. -/
def bareOf (host : BuildHost) (project : String) : Path := host.bareDir ++ [project ++ ".git"]

/-- `_require_build_area`. -/
def requireBuildArea (host : BuildHost) (bare : Path) : Except PyError Unit :=
  if !host.bareReady then
    .error (.fileNotFoundError ("Bare " ++ pathText bare ++ " missing; run f/workbench/init first"))
  else if !host.flakeReady then
    .error (.fileNotFoundError ("nixos-flake devShell missing at " ++
      pathText (host.vendorDir ++ ["nixos-flake"]) ++ "; provision it first"))
  else .ok ()

/-- An expression that names a commit. -/
def commitExpr (name : String) : String := name ++ "^\x7bcommit\x7d"

/-- `_resolve_ref`. -/
def resolveRef (bare : Path) (ref : String) : Exec St (Commit × Bool) := do
  let tag ← query env .resolveTag fun s => R.revParse s.refs (commitExpr ("refs/tags/" ++ ref))
  match tag with
  | some sha => return (sha, true)
  | none =>
      let upstream ← query env .resolveMirror fun s => R.revParse s.refs (commitExpr ("mirror/" ++ ref))
      match upstream with
      | some sha => return (sha, false)
      | none =>
          let literal ← query env .resolveLiteral fun s => R.revParse s.refs (commitExpr ref)
          match literal with
          | some sha => return (sha, false)
          | none => Exec.raise (.valueError ("could not resolve ref " ++ Text.repr ref ++ " in " ++
              pathText bare ++ " (tried a tag, the mirror remote, and the literal ref)"))

/-! ## Reading a worktree -/

/-- `_head`. -/
def headOf (site : HeadSite) (l : Path) : Exec St (Option Commit) :=
  query env (.head site) fun s => s.headAt l

/-- `_short`. -/
def short : Option Commit → String
  | some sha => String.ofList (sha.toList.take 12)
  | none => "-"

/-- The operations in progress at a place, none where git finds no repository. -/
def ongoingAt (s : St) (l : Path) : Option (Ongoing Commit) :=
  match Dict.get? s.places l with
  | some (.linked w) => some w.ongoing
  | some (.foreign (some _)) => some .none
  | _ => none

/-- `_gitdir`, as what the markers in it say. -/
def gitdir (again : Bool) (l : Path) : Exec St (Option (Ongoing Commit)) :=
  query env (.gitDir again) fun s => ongoingAt s l

/-- `_in_progress`. -/
def inProgress (gitdir : Option (Ongoing Commit)) : Option String :=
  match gitdir with
  | none => none
  | some o =>
      match o.apply with
      | some (.am _) => some "git am"
      | some (.rebase _ _) => some "rebase"
      | none =>
          if o.rebaseMerge.isSome then some "rebase"
          else if o.cherryPick.isSome then some "cherry-pick"
          else if o.revert.isSome then some "revert"
          else if o.merge then some "merge"
          else if o.bisect then some "bisect"
          else none

/-- `_is_worktree_of`: git names the Bare as the common directory of its worktrees. -/
def isWorktreeOf (l : Path) : Exec St (Option Unit) :=
  query env .commonDir fun s => (s.worktree? l).map fun _ => ()

/-- `_attachable_branch`. -/
def attachableBranch (ref : String) (target : Commit) : Exec St (Option String) :=
  query env .branches fun s =>
    if Dict.get? s.refs (.heads ref) = some target ∧ s.held ref = false then some ref else none

/-- `_attached_branch`. -/
def attachedBranch (l : Path) : Exec St (Option String) :=
  query env .attached fun s => s.branchAt l

/-- A ref `rev-list --not --branches --tags --remotes --glob=refs/kdevops/*` counts. -/
def counted : Ref → Bool
  | .heads _ | .tags _ | .remotes _ => true
  | .other space _ => space = "kdevops"

/-- No counted ref reaches the commit. -/
def orphaned (s : St) (c : Commit) : Bool :=
  !(Dict.keys s.refs).any fun r => counted r && match Dict.get? s.refs r with
    | some d => decide (R.Reaches d c)
    | none => false

/-! ## Syncing a developer worktree -/

/-- `_remove_worktree`, once the probe has said whether a commit would be orphaned
(nothing when it failed). -/
def removeProbed (l : Path) (orphans : Option Bool) : Exec St (Option String) :=
  match orphans with
  | none => return some ("could not tell whether " ++ pathText l ++ " holds commits no ref reaches")
  | some true => return some (pathText l ++ " holds commits no branch, tag or remote reaches; " ++
      "recreating it would lose them")
  | some false => do
      let removed ← change env .remove (worktreeRemove R l)
      if removed then return none
      else return some ("git refused to remove " ++ pathText l ++ "; its message is above")

/-- `_remove_worktree`. -/
def removeWorktree (l : Path) : Exec St (Option String) := do
  let head ← headOf env .removal l
  match head with
  | none => removeProbed R env l (some false)
  | some c =>
      let orphans ← query env .orphans fun s => some (orphaned R s c)
      removeProbed R env l orphans

/-- What a sync leaves: the reason it declined, and the commit of the tree. -/
abbrev Synced := Option String × Option Commit

/-- Decline for a reason, with the commit the tree carries. -/
def decline (site : HeadSite) (l : Path) (reason : String) : Exec St Synced := do
  let head ← headOf env site l
  return (some reason, head)

/-- What `worktree add` is asked to check out: the branch, else the commit. -/
def checkoutOf (branch : Option String) (target : Commit) : Checkout Commit :=
  match branch with
  | some b => .branch b
  | none => .detach target

/-- `_sync`, of a place with nothing there. -/
def syncAbsent (l : Path) (ref : String) (target : Commit) : Exec St Synced := do
  let branch ← attachableBranch env ref target
  let added ← change env .add (worktreeAdd R false l (checkoutOf branch target))
  if added then do
    let head ← headOf env .added l
    return (none, head)
  else return (some ("could not add " ++ pathText l ++ " at " ++ branch.getD (short target)), none)

/-- `_sync`, of a worktree: fast-forward a detached one, re-attach one at the
target. -/
def syncPresent (l : Path) (ref : String) (target : Commit) : Exec St Synced := do
  let head ← headOf env .before l
  let attached ← attachedBranch env l
  if head ≠ some target then
    match attached with
    | some b => return (some (pathText l ++ " is on branch " ++ b ++ " at " ++ short head ++
        ", not " ++ short target ++ "; a developer's branch ref is never moved"), head)
    | none =>
        let _ ← change env .merge (ffMerge R l target)
        let moved ← headOf env .merged l
        if moved ≠ some target then
          return (some (pathText l ++ " cannot fast-forward from " ++ short head ++ " to " ++
            short target), moved)
        else return (none, moved)
  else
    match attached with
    | some _ => return (none, head)
    | none =>
        let branch ← attachableBranch env ref target
        match branch with
        | none => return (none, head)
        | some b =>
            let _ ← change env .checkout (checkout R l b)
            return (none, head)

/-- `_sync`, past its refusals. -/
def syncRest (l : Path) (ref : String) (target : Commit) : Exec St Synced := do
  let occupied ← Exec.look fun s => s.occupied l
  if occupied then syncPresent R env l ref target else syncAbsent R env l ref target

/-- `_sync`. -/
def sync (bare l : Path) (ref : String) (target : Commit) (recreate : Bool) :
    Exec St Synced := do
  let occupied ← Exec.look fun s => s.occupied l
  if !occupied then syncRest R env l ref target
  else
    let mine ← isWorktreeOf env l
    match mine with
    | none => decline env .foreign l (pathText l ++ " is not a worktree of " ++ pathText bare)
    | some () =>
        let gd ← gitdir env false l
        match inProgress gd with
        | some operation =>
            decline env .ongoing l ("an in-progress " ++ operation ++ " holds " ++ pathText l)
        | none =>
            if recreate then
              let reason ← removeWorktree R env l
              match reason with
              | some reason => decline env .refused l reason
              | none => syncRest R env l ref target
            else syncRest R env l ref target

/-! ## The series -/

/-- `_cover_subject`. -/
def coverSubject (cover : Option (List String)) : String :=
  match cover with
  | some (message :: _) => firstSubject message
  | _ => ""

/-- `git am` of the downloaded series. -/
def gitAm (l : Path) : Exec St Bool := fun s =>
  (.ok (am R l env.series.am s).1, (am R l env.series.am s).2)

/-- `_apply_b4_series`. -/
def applyB4Series (u : Unicode) (l : Path) : Exec St String := do
  if !env.series.downloaded then Exec.raise (.calledProcessError "b4 am")
  else
    match env.series.mboxes with
    | [] => Exec.raise (.fileNotFoundError ("b4 am produced no patch mbox in " ++ env.series.outdir))
    | mbox :: _ =>
        let cover := coverSubject env.series.cover
        let label := subjectLabel u (if cover ≠ "" then cover else firstSubject mbox)
        let applied ← gitAm R env l
        if applied then return label else Exec.raise (.calledProcessError "git am")

/-- `_publish_b4_branch`. -/
def publishB4Branch (l : Path) (b4Series : String) : Exec St (Option String) := do
  let branch := b4Branch b4Series
  let head ← headOf env .published l
  let existing ← query env .existing fun s => Dict.get? s.refs (.heads branch)
  match existing with
  | some tip =>
      if head = some tip then return some branch
      else
        let _ ← change env .anchor (updateRef false (.other "kdevops" branch) l)
        return none
  | none =>
      let published ← change env .publish (updateRef true (.heads branch) l)
      return if published then some branch else none

/-! ## `prepare_developer` -/

/-- The arguments of `prepare_developer`. -/
structure DeveloperArgs where
  project : String
  ref : String
  worktreeGroup : String
  b4Series : String
  label : String
  recreateWorktree : Bool
  deriving DecidableEq, Repr

/-- What `prepare_developer` returns. -/
structure DeveloperResult where
  project : String
  worktreeGroup : String
  ref : String
  commit : Option Commit
  worktree : Path
  label : String
  b4Series : Option String
  b4Branch : Option String
  synced : Bool
  reason : Option String
  deriving DecidableEq, Repr

/-- Where a developer worktree lies. -/
def developerPath (host : BuildHost) (a : DeveloperArgs) : Path :=
  host.worktreesDir ++ [a.worktreeGroup, a.project]

/-- The series on a developer worktree: its branch, its label, and the commit then. -/
def developerSeries (u : Unicode) (l : Path) (b4Series : String) (synced : Synced) :
    Exec St (Option String × String × Option Commit) := do
  if b4Series = "" ∨ synced.1.isSome then return (none, "", synced.2)
  else
    let label ← applyB4Series R env u l
    let branch ← publishB4Branch env l b4Series
    let commit ← headOf env .final l
    return (branch, label, commit)

/-- `prepare_developer`. -/
def prepareDeveloper (u : Unicode) (host : BuildHost) (a : DeveloperArgs) :
    Exec St DeveloperResult := do
  Exec.lift (validateRef a.ref)
  Exec.lift (validateGroup a.worktreeGroup)
  let bare := bareOf host a.project
  let l := developerPath host a
  Exec.lift (requireBuildArea host bare)
  Exec.modify (fetch false env.served)
  let (target, isTag) ← resolveRef R env bare a.ref
  let _ ← change env (.prune false) fun s => some (prune s)
  let synced ← sync R env bare l a.ref target a.recreateWorktree
  let (branch, b4Label, commit) ← developerSeries R env u l a.b4Series synced
  return {
    project := a.project, worktreeGroup := a.worktreeGroup, ref := a.ref
    commit := commit, worktree := l
    label := computeLabel a.label a.b4Series b4Label isTag a.ref
    b4Series := if a.b4Series = "" then none else some a.b4Series
    b4Branch := branch
    synced := synced.1.isNone, reason := synced.1 }

/-! ## `prepare` -/

/-- The arguments of `prepare`. -/
structure PrepareArgs where
  project : String
  ref : String
  worktreeGroup : String
  b4Series : String
  label : String
  recreateWorktree : Bool
  extraDirs : List String
  wipeDirs : List String
  versionFile : String
  deriving DecidableEq, Repr

/-- What `prepare` returns. -/
structure PrepareResult where
  project : String
  worktreeGroup : String
  worker : String
  ref : String
  commit : Commit
  worktree : Path
  label : String
  b4Series : Option String
  b4Branch : Option String
  buildDir : Option Path
  destdir : Option Path
  version : Option (Option String)
  deriving DecidableEq, Repr

/-- Where the worker's build worktree lies. -/
def buildPath (host : BuildHost) (a : PrepareArgs) : Path :=
  host.workersDir ++ [host.workerIndex, "main", a.project]

/-- The command that aborts an operation. -/
def abortCommand (op : Abort) (l : Path) : St → Option St :=
  match op with
  | .am => abortAm R l
  | .rebase => abortRebase R l
  | .cherryPick => abortCherryPick R l
  | .revert => abortRevert R l
  | .merge => abortMerge R l

/-- Abort an operation when its marker is there; git's refusal is ignored. -/
def abortIf (again : Bool) (l : Path) (op : Abort) (marked : Ongoing Commit → Bool) :
    Exec St Unit := do
  let here ← Exec.look fun s => ((ongoingAt s l).map marked).getD false
  if here then
    let _ ← change env (.abort op again) (abortCommand R op l)
    pure ()
  else pure ()

/-- The markers of the worktree, by the operation the worker aborts for each: a
`rebase-merge` only counts where there is no `rebase-apply`. -/
def markedAm (o : Ongoing Commit) : Bool :=
  match o.apply with
  | some (.am _) => true
  | _ => false
def markedRebase (o : Ongoing Commit) : Bool :=
  match o.apply with
  | some (.rebase _ _) => true
  | some (.am _) => false
  | none => o.rebaseMerge.isSome

/-- `_sanitize_worktree`. -/
def sanitizeWorktree (again : Bool) (l : Path) : Exec St Unit := do
  let gd ← gitdir env again l
  match gd with
  | none => pure ()
  | some o =>
      if markedAm o then abortIf R env again l .am markedAm
      else abortIf R env again l .rebase markedRebase
      abortIf R env again l .cherryPick fun o => o.cherryPick.isSome
      abortIf R env again l .revert fun o => o.revert.isSome
      abortIf R env again l .merge fun o => o.merge

/-- A path lies under a directory of the worktree. -/
def under (d p : String) : Bool := (d ++ "/").toList.isPrefixOf p.toList

/-- One of the extra directories: wiped when asked to, then made. -/
def extraDir (l : Path) (wipeDirs : List String) (d : String) : Exec St Unit := do
  if d ∈ wipeDirs then
    Exec.modify fun s => match s.worktree? l with
      | some w => s.setWorktree l { w with files := Tree.restrict w.files fun p => !under d p }
      | none => s
  else pure ()
  let files ← Exec.look fun s => ((s.worktree? l).map (·.files)).getD []
  if Dict.contains files d then Exec.raise .fileExistsError
  else if (Dict.keys files).any fun p => under p d then Exec.raise .notADirectoryError
  else pure ()

/-- The loop over the extra directories. -/
def makeExtraDirs (l : Path) (wipeDirs : List String) : List String → Exec St Unit
  | [] => pure ()
  | d :: ds => do
      extraDir l wipeDirs d
      makeExtraDirs l wipeDirs ds

/-- `_exclude_dirs`. -/
def excludeDirs (extraDirs : List String) (s : St) : St :=
  let missing := (extraDirs.map fun d => "/" ++ d ++ "/").filter fun line => line ∉ s.exclude
  { s with exclude := s.exclude ++ missing }

/-- `_read_version`. -/
def readVersion (l : Path) (versionFile : String) : Exec St (Option String) := do
  let text ← Exec.look fun s => (s.worktree? l).bind fun w => Dict.get? w.files versionFile
  match text with
  | none => return none
  | some text =>
      let version := String.ofList (Text.strip text.toList)
      return if version = "" then none else some version

/-- Bring the build worktree onto the target: force one that is there, else lay one
anew. -/
def layWorktree (l : Path) (target : Commit) (recreate : Bool) : Exec St Unit := do
  mustChange env (.prune false) "git worktree prune" fun s => some (prune s)
  if recreate then
    Exec.modify (removeDirectory l)
    mustChange env (.prune true) "git worktree prune" fun s => some (prune s)
  else pure ()
  let probe ← query env .probe fun s => if s.isRepository l then some () else none
  match probe with
  | some () =>
      sanitizeWorktree R env false l
      Exec.modify (clean R l env.stuck)
      mustChange env .force "git checkout --detach --force" (checkoutForce R l target)
  | none =>
      Exec.modify (removeDirectory l)
      mustChange env .add "git worktree add --force --detach" (worktreeAdd R true l (.detach target))

/-- Run a body, and a clean-up before the exception it raises goes on. -/
def onError {α : Type} (x : Exec St α) (cleanup : Exec St Unit) : Exec St α := fun s =>
  match x s with
  | (.ok a, s') => (.ok a, s')
  | (.error e, s') =>
      match cleanup s' with
      | (.ok (), s'') => (.error e, s'')
      | (.error e', s'') => (.error e', s'')

/-- The series on the build worktree: its branch and its label. -/
def workerSeries (u : Unicode) (l : Path) (b4Series : String) :
    Exec St (Option String × String) := do
  if b4Series = "" then return (none, "")
  else
    let label ← onError (applyB4Series R env u l) (sanitizeWorktree R env true l)
    let branch ← publishB4Branch env l b4Series
    return (branch, label)

/-- `prepare`. -/
def prepare (u : Unicode) (host : BuildHost) (a : PrepareArgs) : Exec St PrepareResult := do
  Exec.lift (validateRef a.ref)
  Exec.lift (validateGroup a.worktreeGroup)
  let bare := bareOf host a.project
  let l := buildPath host a
  Exec.lift (requireBuildArea host bare)
  Exec.modify (fetch true env.served)
  let (target, isTag) ← resolveRef R env bare a.ref
  layWorktree R env l target a.recreateWorktree
  let (branch, b4Label) ← workerSeries R env u l a.b4Series
  makeExtraDirs l a.wipeDirs a.extraDirs
  Exec.modify (excludeDirs a.extraDirs)
  let head ← headOf env .final l
  match head with
  | none => Exec.raise (.calledProcessError "git rev-parse HEAD")
  | some commit =>
      let version ← if a.versionFile = "" then pure none
        else do
          let version ← readVersion l a.versionFile
          pure (some version)
      return {
        project := a.project, worktreeGroup := "main", worker := host.workerIndex, ref := a.ref
        commit := commit, worktree := l
        label := computeLabel a.label a.b4Series b4Label isTag a.ref
        b4Series := if a.b4Series = "" then none else some a.b4Series
        b4Branch := branch
        buildDir := if "build" ∈ a.extraDirs then some (l ++ ["build"]) else none
        destdir := if "destdir" ∈ a.extraDirs then some (l ++ ["destdir"]) else none
        version := version }

/-! ## Runs -/

/-- A turn of a run: what everyone else did since the call before, then a call with
these arguments in its world. -/
structure Turn (α : Type) where
  others : St → St
  env : Env
  host : BuildHost
  args : α

/-- A developer sync, after what others did. -/
def developerTurn (u : Unicode) (s : St) (t : Turn DeveloperArgs) : St :=
  (prepareDeveloper R t.env u t.host t.args (t.others s)).2

/-- A worker's call, after what others did. -/
def buildTurn (u : Unicode) (s : St) (t : Turn PrepareArgs) : St :=
  (prepare R t.env u t.host t.args (t.others s)).2

end

end KdevopsNg.Common
