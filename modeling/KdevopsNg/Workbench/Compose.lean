/-
# `Workbench.Compose` — from the upstream trees to the Bare

A branch of an upstream tree reaches a Bare in two fetches: into the mirror by the
refspec of its tree, and from there by the refspecs of the Bare's `mirror` remote.
One step writes the first, another the second.  Composed (`through`), they take

    b of the primary       to  refs/remotes/mirror/b
    b of another tree t    to  refs/remotes/t/b

and nowhere else, whatever the configs were before and whatever else the steps were
asked for (`mirror_bare_compose`).
-/
import KdevopsNg.Git.Refspec
import KdevopsNg.Workbench.Provision

namespace KdevopsNg.Workbench

open Py Git Config
open Common (pathText)

/-! ## Commands that went through -/

theorem run_ok {command : String} {f : Config → Option Config} {c c' : Config} {u : Unit}
    (h : run command f c = (.ok u, c')) : f c = some c' := by
  rw [run] at h
  split at h
  · rename_i hf
    cases h
    exact hf
  · cases h

/-- A command that may fail leaves what it makes of the config, or the config as it was. -/
theorem ok_snd (f : Config → Option Config) (c : Config) :
    (ok f c).2 = c ∨ f c = some (ok f c).2 := by
  rw [ok]
  split
  · rename_i hf
    exact .inr hf
  · exact .inl rfl

theorem inRepo_ok {α : Type} {project : String} {x : Exec Config α} {w w' : Repos} {a : α}
    (h : inRepo project x w = (.ok a, w')) :
    x (w project) = (.ok a, w' project) ∧ ∀ other, other ≠ project → w' other = w other := by
  rw [inRepo, Prod.mk.injEq] at h
  obtain ⟨hx, rfl⟩ := h
  refine ⟨?_, fun other hne => Function.update_of_ne hne _ _⟩
  rw [Function.update_self, ← hx]

section
variable {G : Git.Syntax}

/-! ## The mirror -/

/-- A remote of a mirror as it should be. -/
structure Pointed (r : Remote) (c : Config) : Prop where
  url : values c ⟨r.name, "url"⟩ = [r.url]
  fetch : values c ⟨r.name, "fetch"⟩ = [mirrorRefspec r]

theorem setRemote_spec {r : Remote} {c c' : Config} {u : Unit}
    (h : setRemote G r c = (.ok u, c')) :
    SameBut r.name c c' ∧ values c' ⟨r.name, "url"⟩ = [r.url] := by
  obtain ⟨present, c₀, hlook, hpoint⟩ := Exec.bind_ok_inv h
  cases hlook
  by_cases hpresent : remoteGetUrl G r.name c = true
  · rw [if_pos hpresent] at hpoint
    have hset := remoteSetUrl_spec (run_ok hpoint)
    exact ⟨hset.sameBut, hset.here⟩
  · rw [if_neg hpresent] at hpoint
    obtain ⟨hurl, -, hsame⟩ := remoteAdd_spec (run_ok hpoint)
    exact ⟨hsame, hurl⟩

theorem provisionRemote_spec {r : Remote} {c c' : Config} {u : Unit}
    (h : provisionRemote G r c = (.ok u, c')) : SameBut r.name c c' ∧ Pointed r c' := by
  obtain ⟨_, c₁, hpoint, h⟩ := Exec.bind_ok_inv h
  obtain ⟨_, c₂, hfetch, h⟩ := Exec.bind_ok_inv h
  obtain ⟨_, c₃, htags, h⟩ := Exec.bind_ok_inv h
  obtain ⟨_, c₄, hflag, hret⟩ := Exec.bind_ok_inv h
  cases hret
  have hpointed := setRemote_spec hpoint
  have hset₂ := sets_set (run_ok hfetch)
  have hset₃ := sets_set (run_ok htags)
  -- what is left only touches a flag
  have hset₄ : SameBut r.name c₃ c' ∧ ∀ k, k ≠ "mirror" →
      values c' ⟨r.name, k⟩ = values c₃ ⟨r.name, k⟩ := by
    have hor := ok_snd (fun c => unset c ⟨r.name, "mirror"⟩) c₃
    rw [hflag] at hor
    rcases hor with hsame | hunset
    · rw [show c' = c₃ from hsame]
      exact ⟨SameBut.refl _ _, fun _ _ => rfl⟩
    · have hset := sets_unset hunset
      exact ⟨hset.sameBut, fun k hk => hset.elsewhere _ fun heq => hk (Variable.mk.inj heq).2⟩
  have hne : ∀ {k k' : String}, k ≠ k' → (⟨r.name, k⟩ : Variable) ≠ ⟨r.name, k'⟩ :=
    fun hk heq => hk (Variable.mk.inj heq).2
  refine ⟨((hpointed.1.trans hset₂.sameBut).trans hset₃.sameBut).trans hset₄.1, ?_, ?_⟩
  · rw [hset₄.2 "url" (by decide), hset₃.elsewhere _ (hne (by decide)),
      hset₂.elsewhere _ (hne (by decide)), hpointed.2]
  · rw [hset₄.2 "fetch" (by decide), hset₃.elsewhere _ (hne (by decide)), hset₂.here]

/-- Only wanted remotes are left, of those the loop goes through. -/
theorem removeStale_loop {wanted names : List String} {c c' : Config} {u u' : Unit}
    (h : names.foldlM (fun _ name => removeStale G wanted name) u c = (.ok u', c')) {n : String}
    (hn : n ∈ c'.remotes) : n ∈ c.remotes ∧ (n ∈ names → n ∈ wanted) := by
  induction names generalizing c u with
  | nil =>
      cases h
      exact ⟨hn, fun hmem => absurd hmem List.not_mem_nil⟩
  | cons name names ih =>
      rw [List.foldlM_cons] at h
      obtain ⟨_, c₁, hone, hrest⟩ := Exec.bind_ok_inv h
      obtain ⟨hc₁, hnames⟩ := ih hrest
      rw [removeStale] at hone
      by_cases hwanted : name ∈ wanted
      · rw [if_pos hwanted] at hone
        cases hone
        refine ⟨hc₁, fun hmem => ?_⟩
        rcases List.mem_cons.mp hmem with rfl | hmem
        · exact hwanted
        · exact hnames hmem
      · rw [if_neg hwanted] at hone
        obtain ⟨hgone, hsame⟩ := remoteRemove_spec (run_ok hone)
        have hne : n ≠ name := fun heq => hgone (heq ▸ hc₁)
        refine ⟨(hsame.mem_remotes hne).mp hc₁, fun hmem => ?_⟩
        exact hnames ((List.mem_cons.mp hmem).resolve_left hne)

/-- One round of the loop over the remotes. -/
theorem provision_round {r : Remote} {results results' : List Remote} {c c' : Config}
    (h : provisionRound G results r c = (.ok results', c')) : SameBut r.name c c' ∧ Pointed r c' := by
  obtain ⟨u, c₁, hone, hret⟩ := Exec.bind_ok_inv h
  cases hret
  exact provisionRemote_spec hone

theorem listRemotes_ok {names : List String} {c c' : Config}
    (h : listRemotes G c = (.ok names, c')) : names = c.remotes ∧ c' = c := by
  rw [listRemotes] at h
  split at h
  · cases h
    exact ⟨rfl, rfl⟩
  · cases h

/-- The loop over the remotes adds no other. -/
theorem provision_loop {remotes results results' : List Remote} {c c' : Config}
    (h : remotes.foldlM (provisionRound G) results c = (.ok results', c')) {n : String}
    (hn : n ∈ c'.remotes) : n ∈ c.remotes ∨ n ∈ remotes.map (·.name) := by
  induction remotes generalizing c results with
  | nil =>
      cases h
      exact .inl hn
  | cons r remotes ih =>
      rw [List.foldlM_cons] at h
      obtain ⟨results₁, c₁, hone, hrest⟩ := Exec.bind_ok_inv h
      rw [List.map_cons, List.mem_cons]
      by_cases hname : n = r.name
      · exact .inr (.inl hname)
      · rcases ih hrest with hc₁ | hmem
        · exact .inl (((provision_round hone).1.mem_remotes hname).mp hc₁)
        · exact .inr (.inr hmem)

/-- After the step a mirror has the remotes it was asked for, as they should be, and no
other. -/
theorem provisionRemotes_spec {remotes results : List Remote} {c c' : Config}
    (hnodup : (remotes.map (·.name)).Nodup)
    (h : provisionRemotes G remotes c = (.ok results, c')) :
    (∀ r ∈ remotes, Pointed r c') ∧ ∀ n ∈ c'.remotes, n ∈ remotes.map (·.name) := by
  obtain ⟨names, c₀, hlist, h⟩ := Exec.bind_ok_inv h
  obtain ⟨_, c₁, hstale, hloop⟩ := Exec.bind_ok_inv h
  obtain ⟨rfl, rfl⟩ := listRemotes_ok hlist
  constructor
  · refine Exec.foldlM_each_ok (P := Pointed) ?_ ?_ hloop
    · exact fun _ _ _ _ r _ hrun => (provision_round hrun).2
    · intro _ _ _ _ r hr r' hr' hne hdone hrun
      have hname : r.name ≠ r'.name := fun heq => hne (List.inj_on_of_nodup_map hnodup hr hr' heq)
      have hsame := (provision_round hrun).1
      exact ⟨(hsame ⟨r.name, "url"⟩ hname).trans hdone.url,
        (hsame ⟨r.name, "fetch"⟩ hname).trans hdone.fetch⟩
  · intro n hn
    rcases provision_loop hloop hn with hc₁ | hmem
    · obtain ⟨hc₀, hwanted⟩ := removeStale_loop hstale hc₁
      exact hwanted hc₀
    · exact hmem

/-! ## The Bare -/

/-- The refspecs of a Bare's `mirror` remote as they should be. -/
def BareFetch (trees : List String) (c : Config) : Prop :=
  values c ⟨"mirror", "fetch"⟩ = headsRefspec :: trees.map treeRefspec

theorem addTree_loop {trees : List String} {c c' : Config} {u u' : Unit}
    (h : trees.foldlM (fun _ => addTree) u c = (.ok u', c')) :
    values c' ⟨"mirror", "fetch"⟩ = values c ⟨"mirror", "fetch"⟩ ++ trees.map treeRefspec := by
  induction trees generalizing c u with
  | nil =>
      cases h
      exact (List.append_nil _).symm
  | cons tree trees ih =>
      rw [List.foldlM_cons] at h
      obtain ⟨_, c₁, hone, hrest⟩ := Exec.bind_ok_inv h
      rw [ih hrest, (sets_add (run_ok hone)).here, List.map_cons, List.append_assoc,
        List.singleton_append]

theorem ensure_spec {mirror origin : String} {trees : List String} {c c' : Config} {u : Unit}
    (h : ensure G mirror origin trees c = (.ok u, c')) : BareFetch trees c' := by
  obtain ⟨_, c₁, horigin, h⟩ := Exec.bind_ok_inv h
  obtain ⟨_, c₂, hmirror, h⟩ := Exec.bind_ok_inv h
  obtain ⟨_, c₃, hheads, hloop⟩ := Exec.bind_ok_inv h
  rw [BareFetch, addTree_loop hloop, (sets_replaceAll (run_ok hheads)).here,
    List.singleton_append]

/-- A command that may fail keeps what it keeps where it goes through. -/
theorem triple_ok {P E : Config → Prop} {f : Config → Option Config}
    (h : ∀ c c', P c → f c = some c' → P c') : Exec.Triple P (ok f) (fun _ => P) E := by
  intro c hc
  rw [ok]
  cases hf : f c with
  | none => exact hc
  | some c' => exact h c c' hc hf

/-- Pointing a remote at a URL keeps the refspecs. -/
theorem pointRemote_keeps (trees : List String) (name url : String) :
    Exec.Triple (BareFetch trees) (pointRemote G name url) (fun _ => BareFetch trees)
      (BareFetch trees) := by
  refine Exec.triple_bind (M := fun _ => BareFetch trees) (Exec.triple_look fun _ h => h)
    fun present => ?_
  refine Exec.triple_bind (triple_ok fun c c' hc hf => ?_) fun _ => Exec.triple_pure fun _ h => h
  cases present with
  | true =>
      have hset := remoteSetUrl_spec hf
      exact (hset.elsewhere ⟨"mirror", "fetch"⟩ (by simp)).trans hc
  | false =>
      -- the remote is there, so it is not it that is added
      have hmirror : "mirror" ∈ remotes c := mem_remotes.mpr ⟨"fetch", by rw [hc]; simp⟩
      have hne : ("mirror" : String) ≠ name := fun heq => remoteAdd_new hf (heq ▸ hmirror)
      exact ((remoteAdd_spec hf).2.2 ⟨"mirror", "fetch"⟩ hne).trans hc

/-- A peer keeps the refspecs, also one that is called `mirror`. -/
theorem ensurePeer_keeps (trees : List String) (system : Path) (project : String)
    (results : List (String × String)) (peer : String) :
    Exec.Triple (BareFetch trees) (ensurePeer G system project results peer)
      (fun _ => BareFetch trees) (BareFetch trees) := by
  refine Exec.triple_bind (Exec.triple_lift (fun _ _ h => h) fun _ h => h) fun _ => ?_
  refine Exec.triple_bind (pointRemote_keeps trees peer _) fun _ => ?_
  refine Exec.triple_bind (triple_ok fun c c' hc hf => ?_) fun _ => Exec.triple_pure fun _ h => h
  by_cases hpeer : peer = "mirror"
  · -- then the one refspec it had is set again
    rw [hpeer] at hf
    have hone := length_of_set hf
    rw [hc, List.length_cons, List.length_map] at hone
    have htrees : trees = [] := List.eq_nil_of_length_eq_zero (by omega)
    rw [BareFetch, htrees]
    exact (sets_set hf).here
  · have hne : (⟨"mirror", "fetch"⟩ : Variable) ≠ ⟨peer, "fetch"⟩ := fun heq =>
      hpeer (Variable.mk.inj heq).1.symm
    exact ((sets_set hf).elsewhere _ hne).trans hc

/-- After the step a Bare has the refspecs of its entry. -/
theorem ensureBare_spec {dirs : Dirs} {mirror project origin : String} {trees peers : List String}
    {c c' : Config} {results : List (String × String)}
    (h : ensureBare G dirs mirror project origin trees peers c = (.ok results, c')) :
    BareFetch trees c' := by
  obtain ⟨_, c₁, hensure, hpeers⟩ := Exec.bind_ok_inv h
  have hkeeps : Exec.Triple (BareFetch trees) (ensurePeers G dirs.system project peers)
      (fun _ => BareFetch trees) (BareFetch trees) :=
    Exec.triple_foldlM (fun results peer _ => ensurePeer_keeps trees dirs.system project results peer) []
  exact hkeeps.of_ok (ensure_spec hensure) hpeers

/-! ## The two steps -/

/-- A mirror as it should be for its entry. -/
structure Provisioned (e : Entry) (c : Config) : Prop where
  pointed : ∀ r ∈ e.remotes, Pointed r c
  carried : ∀ n ∈ c.remotes, n ∈ e.remotes.map (·.name)

theorem buildMirrors_filled (a : Selection) (dir : Path) :
    buildMirrors a.selectedProjects a.filledConfigs dir =
      buildMirrors a.selectedProjects a.configs dir := by
  have hone : buildMirror a.filledConfigs dir = buildMirror a.configs dir := by
    funext project
    rw [buildMirror, buildMirror, Selection.filledConfigs, deployOf_filled]
  rw [buildMirrors, buildMirrors, hone]

theorem mirrorRound_ok {provisioned provisioned' : List (String × List Remote)} {e : Entry}
    {w w' : Repos} (h : mirrorRound G provisioned e w = (.ok provisioned', w')) :
    ∃ results, provisionRemotes G e.remotes (w e.project) = (.ok results, w' e.project) ∧
      ∀ other, other ≠ e.project → w' other = w other := by
  obtain ⟨results, w₁, hrepo, hret⟩ := Exec.bind_ok_inv h
  cases hret
  exact ⟨results, inRepo_ok hrepo⟩

/-- The first step leaves every mirror it was asked for as it should be. -/
theorem mirrorMain_spec {dirs : Dirs} {a : Selection} {w w' : Repos}
    {report : List (String × List Remote)} (h : mirrorMain G dirs a w = (.ok report, w')) :
    ∃ es, buildMirrors a.selectedProjects a.configs dirs.mirrors = .ok es ∧
      ∀ e ∈ es, Provisioned e (w' e.project) := by
  obtain ⟨es, w₁, hbuild, hloop⟩ := Exec.bind_ok_inv h
  obtain ⟨hes, rfl⟩ := Prod.mk.inj hbuild
  rw [buildMirrors_filled] at hes
  refine ⟨es, hes, Exec.foldlM_each_ok (P := fun e w => Provisioned e (w e.project)) ?_ ?_ hloop⟩
  · intro _ _ _ _ e he hrun
    have hlayout := (buildMirror_spec (entry_built hes he)).layout
    obtain ⟨results, hremotes, -⟩ := mirrorRound_ok hrun
    obtain ⟨hpointed, hcarried⟩ := provisionRemotes_spec hlayout.nodup hremotes
    exact ⟨hpointed, hcarried⟩
  · intro _ _ _ _ e he e' he' hne hdone hrun
    have hproject : e.project ≠ e'.project := fun heq => hne (entry_unique hes he he' heq)
    obtain ⟨-, -, hother⟩ := mirrorRound_ok hrun
    rw [hother _ hproject]
    exact hdone

theorem validate_ok {e : Entry} {v : String × String × String} (h : validate e = .ok v) :
    v = (e.name, pathText e.mirror, e.project) := by
  have hstr : ∀ {key value v : String}, requireStr e key value = .ok v → v = value := by
    intro key value v hv
    rw [requireStr] at hv
    split_ifs at hv
    cases hv
    rfl
  obtain ⟨name, hname, h⟩ := except_bind_ok.mp h
  obtain ⟨mirror, hmirror, h⟩ := except_bind_ok.mp h
  obtain ⟨project, hproject, h⟩ := except_bind_ok.mp h
  split_ifs at h
  cases h
  rw [hstr hname, hstr hmirror, hstr hproject]

/-- One round of the loop over the entries configures the Bare of one. -/
theorem fetchRound_run {dirs : Dirs} {peers : List String} {e : Entry}
    {results results' : List (String × List (String × String))} {w w' : Repos}
    (h : fetchRound G dirs peers results e w = (.ok results', w')) :
    ∃ primary peerResults, primaryRemote e = .ok primary ∧
      ensureBare G dirs (pathText e.mirror) e.project primary.url e.trees peers (w e.project) =
        (.ok peerResults, w' e.project) ∧
      ∀ other, other ≠ e.project → w' other = w other := by
  obtain ⟨v, w₁, hvalid, h⟩ := Exec.bind_ok_inv h
  obtain ⟨hv, rfl⟩ := Prod.mk.inj hvalid
  rw [validate_ok hv] at h
  obtain ⟨primary, w₂, hprimary, h⟩ := Exec.bind_ok_inv h
  obtain ⟨hone, rfl⟩ := Prod.mk.inj hprimary
  obtain ⟨peerResults, w₃, hrepo, hret⟩ := Exec.bind_ok_inv h
  cases hret
  obtain ⟨hbare, hother⟩ := inRepo_ok hrepo
  exact ⟨primary, peerResults, hone, hbare, hother⟩

theorem fetchRound_ok {dirs : Dirs} {peers : List String} {e : Entry}
    {results results' : List (String × List (String × String))} {w w' : Repos}
    (h : fetchRound G dirs peers results e w = (.ok results', w')) :
    BareFetch e.trees (w' e.project) ∧ ∀ other, other ≠ e.project → w' other = w other := by
  obtain ⟨_, _, -, hbare, hother⟩ := fetchRound_run h
  exact ⟨ensureBare_spec hbare, hother⟩

/-- The second step leaves every Bare it was asked for with the refspecs of its entry. -/
theorem fetchMain_spec {dirs : Dirs} {a : Selection} {peers : List PeerInput} {w w' : Repos}
    {report : List (String × List (String × String))}
    (h : fetchMain G dirs a peers w = (.ok report, w')) :
    ∃ es, buildMirrors a.selectedProjects a.configs dirs.mirrors = .ok es ∧
      ∀ e ∈ es, BareFetch e.trees (w' e.project) := by
  obtain ⟨es, w₁, hbuild, hloop⟩ := Exec.bind_ok_inv h
  obtain ⟨hes, rfl⟩ := Prod.mk.inj hbuild
  refine ⟨es, hes, Exec.foldlM_each_ok (P := fun e w => BareFetch e.trees (w e.project)) ?_ ?_ hloop⟩
  · intro _ _ _ _ e _ hrun
    exact (fetchRound_ok hrun).1
  · intro _ _ _ _ e he e' he' hne hdone hrun
    have hproject : e.project ≠ e'.project := fun heq => hne (entry_unique hes he he' heq)
    rw [(fetchRound_ok hrun).2 _ hproject]
    exact hdone

end

/-! ## Composing the refspecs -/

/-- What the refs of the branches begin with. -/
def headsSpace : List Char := "refs/heads/".toList

/-- What the remote-tracking refs begin with. -/
def remotesSpace : List Char := "refs/remotes/".toList

/-- The branches of a repository. -/
def headsPattern : Pattern := ⟨headsSpace, []⟩

/-- The remote-tracking refs of a name. -/
def underPattern (name : String) : Pattern := ⟨remotesSpace ++ name.toList ++ ['/'], []⟩

/-- The refspecs of a remote. -/
def fetchSpecs (c : Config) (remote : String) : List Refspec :=
  (values c ⟨remote, "fetch"⟩).filterMap fun text => Refspec.parse text.toList

/-- The refs of the Bare that a branch of a tree reaches through the mirror. -/
def through (mirror bare : Config) (tree : String) (branch : List Char) : List (List Char) :=
  (Refspec.fetched (fetchSpecs mirror tree) (headsSpace ++ branch)).flatMap
    (Refspec.fetched (fetchSpecs bare "mirror"))

/-- The ref of the Bare that a branch of a tree is read at. -/
def bareRef (project tree : String) (branch : List Char) : List Char :=
  remotesSpace ++ (if tree = primaryTree project then "mirror" else tree).toList ++ '/' :: branch

theorem apart_heads (name : String) : headsPattern.Apart (underPattern name) := by
  intro a b heq
  have hsix := congrArg (List.take 6) heq
  have hheads : (headsPattern.fill a).take 6 = "refs/h".toList := rfl
  have hunder : ((underPattern name).fill b).take 6 = "refs/r".toList := rfl
  rw [hheads, hunder] at hsix
  exact absurd hsix (by decide)

theorem under_fill (name : String) (branch : List Char) :
    (underPattern name).fill branch = remotesSpace ++ (name.toList ++ '/' :: branch) := by
  simp [underPattern, Pattern.fill]

/-- What stands before the first slash of a text, and behind it. -/
theorem slash_inj {s t a b : List Char} (hs : '/' ∉ s) (ht : '/' ∉ t)
    (h : s ++ '/' :: a = t ++ '/' :: b) : s = t ∧ a = b := by
  have hbefore : ∀ {s a : List Char}, '/' ∉ s → (s ++ '/' :: a).takeWhile (· ≠ '/') = s := by
    intro s a hs
    have hall : ∀ c ∈ s, decide (c ≠ '/') = true := fun c hc =>
      decide_eq_true fun heq => hs (heq ▸ hc)
    rw [List.takeWhile_append_of_pos hall]
    simp
  have hst : s = t := by rw [← hbefore (a := a) hs, h, hbefore ht]
  rw [hst, List.append_right_inj] at h
  exact ⟨hst, (List.cons.inj h).2⟩

/-- A ref under a name has one name and one branch. -/
theorem under_inj {s t : String} (hs : PlainName s) (ht : PlainName t) {a b : List Char}
    (h : (underPattern s).fill a = (underPattern t).fill b) : s = t ∧ a = b := by
  rw [under_fill, under_fill, List.append_right_inj] at h
  obtain ⟨hst, hab⟩ := slash_inj (hs '/' List.mem_cons_self) (ht '/' List.mem_cons_self) h
  exact ⟨String.toList_inj.mp hst, hab⟩

/-- The text of a refspec into the refs under a name. -/
theorem text_under (name : String) :
    ("+refs/heads/*:refs/remotes/" ++ name ++ "/*").toList =
      Refspec.text ⟨true, headsPattern, underPattern name⟩ := by
  have hhead : "+refs/heads/*:refs/remotes/".toList =
      '+' :: (headsPattern.text ++ ':' :: remotesSpace) := by decide
  have htail : "/*".toList = ['/', '*'] := by decide
  simp only [String.toList_append, hhead, htail]
  simp [Refspec.text, underPattern, Pattern.text]

theorem text_tree (name : String) :
    ("+refs/remotes/" ++ name ++ "/*:refs/remotes/" ++ name ++ "/*").toList =
      Refspec.text ⟨true, underPattern name, underPattern name⟩ := by
  have hhead : "+refs/remotes/".toList = '+' :: remotesSpace := by decide
  have hmid : "/*:refs/remotes/".toList = '/' :: '*' :: ':' :: remotesSpace := by decide
  have htail : "/*".toList = ['/', '*'] := by decide
  simp only [String.toList_append, hhead, hmid, htail]
  simp [Refspec.text, underPattern, Pattern.text]

theorem not_mem_under {name : String} (hname : PlainName name) {c : Char} (hc : c ∈ ['*', ':']) :
    c ∉ (underPattern name).before := by
  have hspace : ∀ c ∈ ['*', ':'], c ∉ remotesSpace ∧ c ≠ '/' ∧ c ∈ ['/', '*', ':'] := by
    intro c hc
    simp only [List.mem_cons, List.not_mem_nil, or_false] at hc
    rcases hc with rfl | rfl <;> decide
  obtain ⟨hremotes, hslash, hplain⟩ := hspace c hc
  rw [underPattern, List.mem_append, List.mem_append, List.mem_singleton]
  rintro ((h | h) | h)
  · exact hremotes h
  · exact hname c hplain h
  · exact hslash h

/-- A written refspec into the refs under a plain name is read back. -/
theorem parse_under {name : String} (hname : PlainName name) {src : Pattern}
    (hsrc : '*' ∉ src.before ∧ '*' ∉ src.after) (hplus : src.text.head? ≠ some '+') :
    Refspec.parse (Refspec.text ⟨true, src, underPattern name⟩) =
      some ⟨true, src, underPattern name⟩ := by
  have hstar := not_mem_under hname (c := '*') (by decide)
  have hcolon := not_mem_under hname (c := ':') (by decide)
  refine Refspec.parse_text hsrc ⟨hstar, List.not_mem_nil⟩ ?_ hplus
  rw [Pattern.text, List.mem_append]
  rintro (h | h)
  · exact hcolon h
  · have hend : ':' ∉ ['*'] := by decide
    exact hend h

theorem parse_peerRefspec {name : String} (hname : PlainName name) :
    Refspec.parse (peerRefspec name).toList = some ⟨true, headsPattern, underPattern name⟩ := by
  have hheads : '*' ∉ headsPattern.before ∧ '*' ∉ headsPattern.after := by decide
  have hplus : headsPattern.text.head? ≠ some '+' := by decide
  exact (congrArg Refspec.parse (text_under name)).trans (parse_under hname hheads hplus)

theorem parse_mirrorRefspec {r : Remote} (hname : PlainName r.name) :
    Refspec.parse (mirrorRefspec r).toList =
      some ⟨true, headsPattern, if r.primary then headsPattern else underPattern r.name⟩ := by
  rw [mirrorRefspec]
  cases r.primary with
  | true =>
      rw [if_pos rfl, if_pos rfl]
      decide
  | false =>
      exact parse_peerRefspec hname

theorem parse_treeRefspec {tree : String} (hname : PlainName tree) :
    Refspec.parse (treeRefspec tree).toList =
      some ⟨true, underPattern tree, underPattern tree⟩ := by
  have hplus : (underPattern tree).text.head? ≠ some '+' := by
    have hhead : (underPattern tree).text.head? = some 'r' := rfl
    rw [hhead]
    decide
  exact (congrArg Refspec.parse (text_tree tree)).trans
    (parse_under hname ⟨not_mem_under hname (by decide), List.not_mem_nil⟩ hplus)

/-! ## What they compose to -/

/-- The refspecs of a mirror and of a Bare compose: each branch of a tree reaches one ref of the
Bare, no two branches reach one ref, and the Bare fetches no ref of the mirror twice. -/
structure Composes (project : String) (trees : List String) (mirror bare : Config) : Prop where
  carried : ∀ n ∈ mirror.remotes, n ∈ trees
  sends : ∀ t ∈ trees, ∀ branch, through mirror bare t branch = [bareRef project t branch]
  apart : ∀ t ∈ trees, ∀ t' ∈ trees, ∀ branch branch' ref,
    ref ∈ through mirror bare t branch → ref ∈ through mirror bare t' branch' →
      t = t' ∧ branch = branch'
  once : ∀ ref, (Refspec.fetched (fetchSpecs bare "mirror") ref).length ≤ 1

theorem fetchSpecs_mirror {r : Remote} {c : Config} (hp : Pointed r c) (hname : PlainName r.name) :
    fetchSpecs c r.name =
      [⟨true, headsPattern, if r.primary then headsPattern else underPattern r.name⟩] := by
  rw [fetchSpecs, hp.fetch, List.filterMap_cons, parse_mirrorRefspec hname]
  rfl

theorem fetchSpecs_bare {trees : List String} {c : Config} (hb : BareFetch trees c)
    (hnames : ∀ t ∈ trees, PlainName t) :
    fetchSpecs c "mirror" = ⟨true, headsPattern, underPattern "mirror"⟩ ::
      trees.map fun t => ⟨true, underPattern t, underPattern t⟩ := by
  have hheads : Refspec.parse headsRefspec.toList =
      some ⟨true, headsPattern, underPattern "mirror"⟩ := by decide
  have htrees : (trees.map treeRefspec).filterMap (fun text => Refspec.parse text.toList) =
      trees.map fun t => ⟨true, underPattern t, underPattern t⟩ := by
    rw [List.filterMap_map, ← List.filterMap_eq_map]
    exact List.filterMap_congr fun t ht => parse_treeRefspec (hnames t ht)
  rw [fetchSpecs, hb, List.filterMap_cons, hheads, htrees]

/-- No ref is of two source patterns of a Bare. -/
theorem apart_bare {trees : List String} (hnodup : trees.Nodup)
    (hnames : ∀ t ∈ trees, PlainName t) :
    (⟨true, headsPattern, underPattern "mirror"⟩ ::
      trees.map fun t => (⟨true, underPattern t, underPattern t⟩ : Refspec)).Pairwise
        fun s t => s.src.Apart t.src := by
  rw [List.pairwise_cons]
  constructor
  · intro s hs
    obtain ⟨t, -, rfl⟩ := List.mem_map.mp hs
    exact apart_heads t
  · rw [List.pairwise_map]
    refine hnodup.imp_of_mem fun {t t'} ht ht' hne => ?_
    exact fun a b heq => hne (under_inj (hnames t ht) (hnames t' ht') heq).1

section
variable {configs : Dict (Option Deploy)} {project : String} {e : Entry}

theorem BuiltFor.mem_trees (h : BuiltFor configs project e) {r : Remote} (hr : r ∈ e.remotes)
    (hne : r.name ≠ primaryTree project) : r.name ∈ e.trees := by
  refine List.mem_map_of_mem (List.mem_filter.mpr ⟨hr, ?_⟩)
  rw [h.primary r hr, decide_eq_false hne]
  rfl

theorem trees_plain (h : BuiltFor configs project e) : ∀ t ∈ e.trees, PlainName t := by
  intro t ht
  obtain ⟨r, hr, rfl⟩ := List.mem_map.mp ht
  exact (h.plain r (List.mem_filter.mp hr).1).1

theorem trees_nodup (h : BuiltFor configs project e) : e.trees.Nodup :=
  h.layout.nodup.sublist (List.filter_sublist.map _)

/-- The name of a tree's refs in the Bare. -/
def bareName (project tree : String) : String :=
  if tree = primaryTree project then "mirror" else tree

theorem plain_bareName (h : BuiltFor configs project e) {t : String}
    (ht : t ∈ selected configs project) : PlainName (bareName project t) := by
  obtain ⟨r, hr, rfl⟩ := h.mem_names.mpr ht
  rw [bareName]
  split_ifs
  · decide
  · exact (h.plain r hr).1

/-- No tree but the primary is read under the name `mirror`, so no two are read under one. -/
theorem bareName_inj (h : BuiltFor configs project e) {t t' : String}
    (ht : t ∈ selected configs project) (ht' : t' ∈ selected configs project)
    (heq : bareName project t = bareName project t') : t = t' := by
  have hmirror : ∀ t ∈ selected configs project, t ≠ "mirror" := by
    intro t ht
    obtain ⟨r, hr, rfl⟩ := h.mem_names.mpr ht
    exact (h.plain r hr).2
  rw [bareName, bareName] at heq
  by_cases hp : t = primaryTree project
  · by_cases hp' : t' = primaryTree project
    · exact hp.trans hp'.symm
    · rw [if_pos hp, if_neg hp'] at heq
      exact absurd heq.symm (hmirror t' ht')
  · by_cases hp' : t' = primaryTree project
    · rw [if_neg hp, if_pos hp'] at heq
      exact absurd heq (hmirror t ht)
    · rw [if_neg hp, if_neg hp'] at heq
      exact heq

variable {mirror bare : Config}

/-- A branch goes from its tree into the mirror, and from there into the Bare. -/
theorem through_eq (h : BuiltFor configs project e) (hp : Provisioned e mirror)
    (hb : BareFetch e.trees bare) {t : String} (ht : t ∈ selected configs project)
    (branch : List Char) :
    through mirror bare t branch = [(underPattern (bareName project t)).fill branch] := by
  obtain ⟨r, hr, rfl⟩ := h.mem_names.mpr ht
  have hplain := trees_plain h
  have hpair := apart_bare (trees_nodup h) hplain
  have hup : headsSpace ++ branch = headsPattern.fill branch := (List.append_nil _).symm
  rw [through, fetchSpecs_mirror (hp.pointed r hr) (h.plain r hr).1, hup,
    Refspec.fetched_fill (List.pairwise_singleton _ _) (List.mem_singleton_self _),
    List.flatMap_singleton, fetchSpecs_bare hb hplain, h.primary r hr, bareName]
  by_cases hprimary : r.name = primaryTree project
  · -- the primary's heads are heads in the mirror
    rw [decide_eq_true hprimary, if_pos rfl, if_pos hprimary]
    exact Refspec.fetched_fill hpair List.mem_cons_self branch
  · rw [decide_eq_false hprimary, if_neg (by decide), if_neg hprimary]
    exact Refspec.fetched_fill hpair
      (List.mem_cons_of_mem _ (List.mem_map_of_mem (h.mem_trees hr hprimary))) branch

theorem composes_of_built (h : BuiltFor configs project e) (hp : Provisioned e mirror)
    (hb : BareFetch e.trees bare) : Composes project (selected configs project) mirror bare := by
  refine ⟨fun n hn => ?_, fun t ht branch => ?_, fun t ht t' ht' branch branch' ref href href' => ?_,
    fun ref => ?_⟩
  · obtain ⟨r, hr, rfl⟩ := List.mem_map.mp (hp.carried n hn)
    exact h.mem_names.mp ⟨r, hr, rfl⟩
  · rw [through_eq h hp hb ht, under_fill, bareRef, bareName, List.append_assoc]
  · rw [through_eq h hp hb ht, List.mem_singleton] at href
    rw [through_eq h hp hb ht', List.mem_singleton] at href'
    obtain ⟨hname, hbranch⟩ :=
      under_inj (plain_bareName h ht) (plain_bareName h ht') (href.symm.trans href')
    exact ⟨bareName_inj h ht ht' hname, hbranch⟩
  · have hplain := trees_plain h
    rw [fetchSpecs_bare hb hplain]
    exact Refspec.fetched_length_le_one (apart_bare (trees_nodup h) hplain) ref

end

/-- Whatever the configs were before, after both steps the refspecs of each selected project's
mirror and Bare compose. -/
theorem mirror_bare_compose {G : Git.Syntax} {dirs : Dirs} {a : Selection} {peers : List PeerInput}
    {mirrors mirrors' bares bares' : Repos} {report : List (String × List Remote)}
    {report' : List (String × List (String × String))}
    (hmirror : mirrorMain G dirs a mirrors = (.ok report, mirrors'))
    (hfetch : fetchMain G dirs a peers bares = (.ok report', bares')) :
    ∀ project ∈ a.selectedProjects,
      Composes project (selected a.configs project) (mirrors' project) (bares' project) := by
  intro project hproject
  obtain ⟨es, hes, hmirrors⟩ := mirrorMain_spec hmirror
  obtain ⟨es', hes', hbares⟩ := fetchMain_spec hfetch
  obtain rfl : es = es' := by
    rw [hes] at hes'
    exact Except.ok.inj hes'
  obtain ⟨e, he, rfl⟩ := entry_of_project hes hproject
  exact composes_of_built (buildMirror_spec (entry_built hes he)) (hmirrors e he) (hbares e he)

/-! ## A sample run -/

/-- A git that takes every name and every refspec. -/
def sampleSyntax : Git.Syntax := ⟨fun _ => true, fun _ => true⟩

def sampleDirs : Dirs := ⟨["system"], ["system", "mirror"]⟩

/-- Two trees besides the primary, one of them twice, and a project of one repository. -/
def sampleSelection : Selection where
  projects := some ["linux", "fio"]
  linux := some ⟨["axboe", "xfs", "axboe"], "", "git"⟩
  qemu := none
  xfstestsDev := none
  xfsprogsDev := none
  fio := none
  blktests := none
  bcc := none
  ebpfSyscall := none
  systing := none

theorem eq_of_isOk {σ α : Type} {x : Except PyError α × σ} (h : x.1.isOk = true) :
    ∃ a, x = (.ok a, x.2) := by
  obtain ⟨r, s⟩ := x
  cases r with
  | ok a => exact ⟨a, rfl⟩
  | error e => cases h

/-- The mirrors after the first step, from nothing. -/
def sampleMirrors : Repos := (mirrorMain sampleSyntax sampleDirs sampleSelection fun _ => []).2

/-- The Bares after the second, with a peer. -/
def sampleBares : Repos :=
  (fetchMain sampleSyntax sampleDirs sampleSelection [.text "hetzie"] fun _ => []).2

theorem mirror_bare_compose_fresh :
    Composes "linux" ["torvalds", "axboe", "xfs", "axboe"] (sampleMirrors "linux")
        (sampleBares "linux") ∧
      Composes "fio" ["origin"] (sampleMirrors "fio") (sampleBares "fio") := by
  obtain ⟨report, hmirror⟩ := eq_of_isOk
    (x := mirrorMain sampleSyntax sampleDirs sampleSelection fun _ => []) (by decide +kernel)
  obtain ⟨report', hfetch⟩ := eq_of_isOk
    (x := fetchMain sampleSyntax sampleDirs sampleSelection [.text "hetzie"] fun _ => [])
    (by decide +kernel)
  exact ⟨mirror_bare_compose hmirror hfetch "linux" (by decide),
    mirror_bare_compose hmirror hfetch "fio" (by decide)⟩

end KdevopsNg.Workbench
