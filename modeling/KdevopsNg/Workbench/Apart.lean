/-
# `Workbench.Apart` — the remotes of a Bare over many runs

Every run of `f/workbench/fetch.py` that selects a project configures its Bare again.  The
peers of earlier runs stay; where `mirror` and `origin` point, and what `mirror` is fetched
into, is written anew:

    mirror   the path of the mirror   refs/remotes/mirror/*, refs/remotes/<tree>/*
    origin   the primary's URL        refs/remotes/origin/*
    <peer>   the peer's Bare          refs/remotes/<peer>/*

All of them are names of one space, and nothing keeps a peer from being called `mirror`,
`origin` or like a tree (`peer_takes_mirror`).  Nor does git change where a remote points
in a config that has a refspec it does not take, as the name of a peer may give it one.
In a run of accepted calls that do neither (`Fits`), each Bare that a call selects is
`Wired` after it (`bares_wired`).

What a call needs of the calls before it is `Sound`, and what it leaves is `Laid`, from
which `Wired` is read off.
-/
import KdevopsNg.Sys.Run
import KdevopsNg.Workbench.Compose

namespace KdevopsNg.Workbench

open Py Git Config
open Common (pathText)

/-! ## What is claimed of a Bare -/

/-- What is relied on of git: it takes the remotes `mirror` and `origin` and the refspec it
gives `origin`, and no refspec with a second star on a side or a second colon. -/
structure Takes (G : Git.Syntax) : Prop where
  mirror : G.remoteName "mirror" = true
  origin : G.remoteName "origin" = true
  heads : G.refspec (peerRefspec "origin") = true
  plain : ∀ name, G.refspec (peerRefspec name) = true → '*' ∉ name.toList ∧ ':' ∉ name.toList

section
variable (G : Git.Syntax)

/-- The refspecs of a remote that git takes. -/
def takenSpecs (c : Config) (remote : String) : List Refspec :=
  ((values c ⟨remote, "fetch"⟩).filter G.refspec).filterMap fun text => Refspec.parse text.toList

/-- A Bare as it should be for its entry: `mirror` and `origin` point where they should, and no
ref is one that two remotes are fetched into. -/
structure Wired (e : Entry) (c : Config) : Prop where
  mirror : values c ⟨"mirror", "url"⟩ = [pathText e.mirror]
  specs : BareFetch e.trees c
  origin : ∀ r ∈ e.remotes, r.primary = true → values c ⟨"origin", "url"⟩ = [r.url]
  apart : ∀ m ∈ c.remotes, ∀ n ∈ c.remotes, m ≠ n →
    ∀ s ∈ takenSpecs G c m, ∀ t ∈ takenSpecs G c n, s.dst.Apart t.dst

/-! ## The calls -/

/-- A call of `f/workbench/fetch.py`. -/
structure Call where
  selection : Selection
  peers : List PeerInput

/-- The hosts of its peers. -/
def Call.hosts (call : Call) : List String := (normalizePeers call.peers).map (·.1)

variable (dirs : Dirs)

/-- It selects the Bare of an entry. -/
def Call.Selects (call : Call) (e : Entry) : Prop :=
  e.project ∈ call.selection.selectedProjects ∧
    buildMirror call.selection.configs dirs.mirrors e.project = .ok e

instance (call : Call) (e : Entry) : Decidable (call.Selects dirs e) := instDecidableAnd

/-- What a call leaves in the configs of the Bares. -/
def fetchStep (w : Repos) (call : Call) : Repos := (fetchMain G dirs call.selection call.peers w).2

/-- The call is accepted: it raises nothing. -/
def Accepted (w : Repos) (call : Call) : Prop :=
  (fetchMain G dirs call.selection call.peers w).1.isOk = true

instance (w : Repos) (call : Call) : Decidable (Accepted G dirs w call) :=
  instDecidableEqBool _ true

/-- Every Bare the call selects is as it should be after it. -/
def Wires (w : Repos) (call : Call) : Prop :=
  ∀ e, call.Selects dirs e → Wired G e (fetchStep G dirs w call e.project)

/-- The hosts of a call fit a Bare that it selects. -/
structure FitsBare (hosts : List String) (e : Entry) (c : Config) : Prop where
  mirror : "mirror" ∉ hosts
  origin : "origin" ∉ hosts
  trees : ∀ t ∈ e.trees, t ∉ hosts ∧ t ∉ c.remotes
  read : readable G c = true ∨
    ∀ r ∈ e.remotes, r.primary = true → values c ⟨"origin", "url"⟩ = [r.url]

/-- They fit every Bare it selects. -/
def Fits (w : Repos) (call : Call) : Prop :=
  ∀ e, call.Selects dirs e → FitsBare G call.hosts e (w e.project)

end

section
variable {G : Git.Syntax}

/-! ## Pointing a remote at a URL -/

/-- What a command that points a remote may change. -/
structure Aimed (name url : String) (c c' : Config) : Prop where
  same : SameBut name c c'
  url : values c' ⟨name, "url"⟩ = values c ⟨name, "url"⟩ ∨ values c' ⟨name, "url"⟩ = [url]
  fetch : values c' ⟨name, "fetch"⟩ = values c ⟨name, "fetch"⟩ ∨
    values c' ⟨name, "fetch"⟩ = [peerRefspec name]

section
variable {name url : String} {c c' : Config} {b : Bool}

/-- The command was refused, or it set the URL of a remote, or it added one. -/
theorem pointRemote_cases (h : pointRemote G name url c = (.ok b, c')) :
    c' = c ∨ remoteSetUrl G name url c = some c' ∨ remoteAdd G name url c = some c' := by
  obtain ⟨present, c₀, hlook, hpoint⟩ := Exec.bind_ok_inv h
  cases hlook
  obtain ⟨went, c₁, hrun, hret⟩ := Exec.bind_ok_inv hpoint
  cases hret
  have hor := ok_snd (if remoteGetUrl G name c = true then remoteSetUrl G name url
    else remoteAdd G name url) c
  rw [hrun] at hor
  rcases hor with hsame | hwent
  · exact .inl hsame
  · split_ifs at hwent
    · exact .inr (.inl hwent)
    · exact .inr (.inr hwent)

theorem pointRemote_aimed (h : pointRemote G name url c = (.ok b, c')) : Aimed name url c c' := by
  rcases pointRemote_cases h with rfl | hset | hadd
  · exact ⟨SameBut.refl _ _, .inl rfl, .inl rfl⟩
  · have hurl := remoteSetUrl_spec hset
    exact ⟨hurl.sameBut, .inr hurl.here, .inl (hurl.elsewhere _ (by simp))⟩
  · obtain ⟨hurl, hfetch, hsame⟩ := remoteAdd_spec hadd
    exact ⟨hsame, .inr hurl, .inr hfetch⟩

/-- Git changes nothing in a config it does not read. -/
theorem pointRemote_unread (hread : readable G c = false)
    (h : pointRemote G name url c = (.ok b, c')) : c' = c := by
  rcases pointRemote_cases h with hsame | hset | hadd
  · exact hsame
  · rw [remoteSetUrl, hread] at hset
    simp at hset
  · rw [remoteAdd, hread] at hadd
    simp at hadd

/-- In a config it reads, the remote points at the URL. -/
theorem pointRemote_hits (hread : readable G c = true) (hname : G.remoteName name = true)
    (hline : '\n' ∉ name.toList) (hone : (values c ⟨name, "url"⟩).length ≤ 1)
    (h : pointRemote G name url c = (.ok b, c')) : values c' ⟨name, "url"⟩ = [url] := by
  obtain ⟨present, c₀, hlook, hpoint⟩ := Exec.bind_ok_inv h
  cases hlook
  obtain ⟨went, c₁, hrun, hret⟩ := Exec.bind_ok_inv hpoint
  cases hret
  have hgo : ∀ {f : Config → Option Config} {d : Config}, f c = some d →
      ok f c = (.ok went, c') → c' = d := by
    intro f d hf hok
    rw [ok, hf] at hok
    exact (Prod.mk.inj hok).2.symm
  by_cases hmem : name ∈ remotes c
  · rw [remoteGetUrl, hread, decide_eq_true hmem, Bool.and_true, if_pos rfl] at hrun
    obtain ⟨d, hd⟩ := exists_set (v := ⟨name, "url"⟩) hline hone url
    have hset : remoteSetUrl G name url c = some d := by rw [remoteSetUrl, if_pos ⟨hread, hmem⟩, hd]
    rw [hgo hset hrun]
    exact (sets_set hd).here
  · rw [remoteGetUrl, hread, decide_eq_false hmem, Bool.and_false, if_neg Bool.false_ne_true] at hrun
    obtain ⟨d, hd⟩ : ∃ d, remoteAdd G name url c = some d := ⟨_, if_pos ⟨hread, hmem, hname⟩⟩
    rw [hgo hd hrun]
    exact (remoteAdd_spec hd).1

/-- A config git reads it reads still, where it takes the refspec of the remote. -/
theorem Aimed.readable (h : Aimed name url c c') (hspec : G.refspec (peerRefspec name) = true)
    (hread : Config.readable G c = true) : Config.readable G c' = true := by
  rw [readable_iff] at hread ⊢
  intro n x hx
  by_cases hn : n = name
  · rw [hn] at hx
    rcases h.fetch with hsame | hnew
    · exact hread name x (hsame ▸ hx)
    · rw [hnew, List.mem_singleton] at hx
      rw [hx]
      exact hspec
  · rw [h.same ⟨n, "fetch"⟩ hn] at hx
    exact hread n x hx

end

/-! ## What every command keeps -/

/-- A config of remotes as they come about: one URL each, the refspec of its name but for
`mirror`, and names of one component. -/
structure Tidy (c : Config) : Prop where
  one : ∀ n, (values c ⟨n, "url"⟩).length ≤ 1
  own : ∀ n, n ≠ "mirror" → ∀ x ∈ values c ⟨n, "fetch"⟩, x = peerRefspec n
  flat : ∀ n ∈ c.remotes, '/' ∉ n.toList

theorem tidy_nil : Tidy [] := by
  refine ⟨fun n => Nat.zero_le 1, fun n _ x hx => ?_, fun n hn => ?_⟩
  · exact absurd hx List.not_mem_nil
  · exact absurd hn List.not_mem_nil

/-- A command on one remote keeps it, where that remote stays tidy. -/
theorem Tidy.of_sameBut {name : String} {c c' : Config} (h : Tidy c) (hsame : SameBut name c c')
    (hflat : '/' ∉ name.toList) (hurl : (values c' ⟨name, "url"⟩).length ≤ 1)
    (hfetch : name ≠ "mirror" → ∀ x ∈ values c' ⟨name, "fetch"⟩, x = peerRefspec name) :
    Tidy c' := by
  refine ⟨fun n => ?_, fun n hn x hx => ?_, fun n hn => ?_⟩
  · by_cases heq : n = name
    · rw [heq]
      exact hurl
    · rw [hsame ⟨n, "url"⟩ heq]
      exact h.one n
  · by_cases heq : n = name
    · rw [heq] at hn hx ⊢
      exact hfetch hn x hx
    · rw [hsame ⟨n, "fetch"⟩ heq] at hx
      exact h.own n hn x hx
  · by_cases heq : n = name
    · rw [heq]
      exact hflat
    · exact h.flat n ((hsame.mem_remotes heq).mp hn)

theorem Tidy.of_aimed {name url : String} {c c' : Config} (h : Tidy c) (haim : Aimed name url c c')
    (hflat : '/' ∉ name.toList) : Tidy c' := by
  refine h.of_sameBut haim.same hflat ?_ fun hne x hx => ?_
  · rcases haim.url with hsame | hnew
    · rw [hsame]
      exact h.one name
    · rw [hnew]
      exact le_refl 1
  · rcases haim.fetch with hsame | hnew
    · rw [hsame] at hx
      exact h.own name hne x hx
    · rw [hnew] at hx
      exact List.mem_singleton.mp hx

/-- A command that sets refspecs keeps it, where they are those of the remote. -/
theorem Tidy.of_sets {name : String} {xs : List String} {c c' : Config} (h : Tidy c)
    (hsets : Sets ⟨name, "fetch"⟩ xs c c') (hflat : '/' ∉ name.toList)
    (hown : name ≠ "mirror" → ∀ x ∈ xs, x = peerRefspec name) : Tidy c' := by
  refine h.of_sameBut hsets.sameBut hflat ?_ fun hne x hx => ?_
  · rw [hsets.elsewhere ⟨name, "url"⟩ (by simp)]
    exact h.one name
  · rw [hsets.here] at hx
    exact hown hne x hx

/-- Names that are no remotes stay none, where the command is not on one of them. -/
theorem clear_of_sameBut {name : String} {names : List String} {c c' : Config}
    (h : ∀ t ∈ names, t ∉ c.remotes) (hsame : SameBut name c c') (hname : name ∉ names) :
    ∀ t ∈ names, t ∉ c'.remotes := by
  intro t ht hmem
  have hne : t ≠ name := fun heq => hname (heq ▸ ht)
  exact h t ht ((hsame.mem_remotes hne).mp hmem)

end

/-! ## One Bare -/

/-- What a call needs of the config it finds. -/
structure Sound (G : Git.Syntax) (mirror : String) (c : Config) : Prop where
  tidy : Tidy c
  reach : readable G c = true ∨ values c ⟨"mirror", "url"⟩ = [mirror]

/-- What it leaves. -/
structure Laid (mirror origin : String) (trees : List String) (c : Config) : Prop where
  tidy : Tidy c
  mirror : values c ⟨"mirror", "url"⟩ = [mirror]
  origin : values c ⟨"origin", "url"⟩ = [origin]
  specs : BareFetch trees c
  clear : ∀ t ∈ trees, t ∉ c.remotes

/-- No tree is called like one of the two remotes. -/
structure Trees (trees : List String) : Prop where
  mirror : "mirror" ∉ trees
  origin : "origin" ∉ trees

section
variable {mirror origin : String} {trees : List String} {c c' : Config}

/-- The refspecs of the trees touch nothing else. -/
theorem addTree_sameBut {u u' : Unit} (h : trees.foldlM (fun _ => addTree) u c = (.ok u', c'))
    {v : Variable} (hv : v ≠ ⟨"mirror", "fetch"⟩) : values c' v = values c v := by
  induction trees generalizing c u with
  | nil =>
      cases h
      rfl
  | cons tree trees ih =>
      rw [List.foldlM_cons] at h
      obtain ⟨_, c₁, hone, hrest⟩ := Exec.bind_ok_inv h
      exact (ih hrest).trans ((sets_add (run_ok hone)).elsewhere v hv)

/-- The two remotes of a Bare, in a config git reads or in which they point right already. -/
theorem ensure_laid (hG : Takes G) (hs : Sound G mirror c) (hnames : Trees trees)
    (hclear : ∀ t ∈ trees, t ∉ c.remotes)
    (horigin : readable G c = true ∨ values c ⟨"origin", "url"⟩ = [origin]) {u : Unit}
    (h : ensure G mirror origin trees c = (.ok u, c')) : Laid mirror origin trees c' := by
  have hbare := ensure_spec h
  obtain ⟨_, c₁, hpoint, h⟩ := Exec.bind_ok_inv h
  obtain ⟨_, c₂, hpoint', h⟩ := Exec.bind_ok_inv h
  obtain ⟨_, c₃, hheads, hloop⟩ := Exec.bind_ok_inv h
  have haim := pointRemote_aimed hpoint
  have haim' := pointRemote_aimed hpoint'
  have hsets : Sets ⟨"mirror", "fetch"⟩ (headsRefspec :: trees.map treeRefspec) c₂ c' :=
    ⟨hbare, fun v hv => (addTree_sameBut hloop hv).trans
      ((sets_replaceAll (run_ok hheads)).elsewhere v hv)⟩
  have htidy₁ : Tidy c₁ := hs.tidy.of_aimed haim (by decide)
  have htidy₂ : Tidy c₂ := htidy₁.of_aimed haim' (by decide)
  -- `origin`: git reads the config, or leaves it as it is
  have horigin₁ : values c₁ ⟨"origin", "url"⟩ = [origin] := by
    cases hread : readable G c with
    | true => exact pointRemote_hits hread hG.origin (by decide) (hs.tidy.one _) hpoint
    | false =>
        rw [pointRemote_unread hread hpoint]
        exact horigin.resolve_left (by simp [hread])
  have hmirror₂ : values c₂ ⟨"mirror", "url"⟩ = [mirror] := by
    cases hread : readable G c₁ with
    | true => exact pointRemote_hits hread hG.mirror (by decide) (htidy₁.one _) hpoint'
    | false =>
        have hread₀ : readable G c = false := by
          by_contra hne
          rw [haim.readable hG.heads (by simpa using hne)] at hread
          cases hread
        rw [pointRemote_unread hread hpoint', pointRemote_unread hread₀ hpoint]
        exact hs.reach.resolve_left (by simp [hread₀])
  refine ⟨htidy₂.of_sets hsets (by decide) fun hne => absurd rfl hne, ?_, ?_, hbare, ?_⟩
  · rw [hsets.elsewhere _ (by decide), hmirror₂]
  · rw [hsets.elsewhere _ (by decide), haim'.same _ (by decide), horigin₁]
  · exact clear_of_sameBut (clear_of_sameBut (clear_of_sameBut hclear haim.same hnames.origin)
      haim'.same hnames.mirror) hsets.sameBut hnames.mirror

theorem validatePeer_ok {peer : String} {u : Unit} (h : validatePeer peer = .ok u) :
    '/' ∉ peer.toList := by
  rw [validatePeer] at h
  split_ifs at h with hempty hbad
  exact fun hmem => hbad (.inl hmem)

/-- A peer leaves the two remotes as they are, where it is called like none of them. -/
theorem ensurePeer_laid {system : Path} {project peer : String}
    {results results' : List (String × String)} (hl : Laid mirror origin trees c)
    (hmirror : peer ≠ "mirror") (horigin : peer ≠ "origin") (htree : peer ∉ trees)
    (h : ensurePeer G system project results peer c = (.ok results', c')) :
    Laid mirror origin trees c' := by
  obtain ⟨_, c₀, hvalid, h⟩ := Exec.bind_ok_inv h
  obtain ⟨hflat, rfl⟩ := Prod.mk.inj hvalid
  have hflat := validatePeer_ok hflat
  obtain ⟨_, c₁, hpoint, h⟩ := Exec.bind_ok_inv h
  obtain ⟨_, c₂, hfetch, hret⟩ := Exec.bind_ok_inv h
  cases hret
  have haim := pointRemote_aimed hpoint
  have htidy₁ := hl.tidy.of_aimed haim hflat
  have hor := ok_snd (fun c => Config.set c ⟨peer, "fetch"⟩ (peerRefspec peer)) c₁
  rw [hfetch] at hor
  -- the refspec is set, or the command fails and changes nothing
  have hstep : Tidy c' ∧ SameBut peer c₁ c' := by
    rcases hor with hsame | hset
    · rw [show c' = c₁ from hsame]
      exact ⟨htidy₁, SameBut.refl _ _⟩
    · have hsets := sets_set hset
      exact ⟨htidy₁.of_sets hsets hflat fun _ x hx => List.mem_singleton.mp hx, hsets.sameBut⟩
  have hsame : SameBut peer c c' := haim.same.trans hstep.2
  refine ⟨hstep.1, ?_, ?_, ?_, clear_of_sameBut hl.clear hsame htree⟩
  · rw [hsame ⟨"mirror", "url"⟩ hmirror.symm, hl.mirror]
  · rw [hsame ⟨"origin", "url"⟩ horigin.symm, hl.origin]
  · rw [BareFetch, hsame ⟨"mirror", "fetch"⟩ hmirror.symm, hl.specs]

/-- A Bare after its configuration. -/
theorem ensureBare_laid {dirs : Dirs} {project : String} {peers : List String}
    {results : List (String × String)} (hG : Takes G) (hs : Sound G mirror c)
    (hnames : Trees trees) (hclear : ∀ t ∈ trees, t ∉ c.remotes)
    (horigin : readable G c = true ∨ values c ⟨"origin", "url"⟩ = [origin])
    (hpeers : "mirror" ∉ peers ∧ "origin" ∉ peers ∧ ∀ t ∈ trees, t ∉ peers)
    (h : ensureBare G dirs mirror project origin trees peers c = (.ok results, c')) :
    Laid mirror origin trees c' := by
  obtain ⟨_, c₁, hensure, hloop⟩ := Exec.bind_ok_inv h
  have hround : ∀ results s results' s', ∀ peer ∈ peers, Laid mirror origin trees s →
      ensurePeer G dirs.system project results peer s = (.ok results', s') →
        Laid mirror origin trees s' := by
    intro results s results' s' peer hpeer hl hrun
    refine ensurePeer_laid hl ?_ ?_ (fun htree => hpeers.2.2 peer htree hpeer) hrun
    · exact fun heq => hpeers.1 (heq ▸ hpeer)
    · exact fun heq => hpeers.2.1 (heq ▸ hpeer)
  exact Exec.foldlM_inv_ok hround (ensure_laid hG hs hnames hclear horigin hensure) hloop

/-! ## What the remotes are fetched into -/

theorem underPattern_apart {s t : String} (hs : PlainName s) (ht : PlainName t) (hne : s ≠ t) :
    (underPattern s).Apart (underPattern t) := fun _ _ heq => hne (under_inj hs ht heq).1

/-- A refspec of a remote is into the refs of one plain name: that of the remote, or a tree for
`mirror`. -/
theorem dst_of_taken (hG : Takes G) (hl : Laid mirror origin trees c)
    (hplain : ∀ t ∈ trees, PlainName t) {n : String} (hn : n ∈ c.remotes) {s : Refspec}
    (h : s ∈ takenSpecs G c n) :
    ∃ name, PlainName name ∧ s.dst = underPattern name ∧
      (name = n ∨ n = "mirror" ∧ name ∈ trees) := by
  obtain ⟨text, htext, hparse⟩ := List.mem_filterMap.mp h
  obtain ⟨htext, htaken⟩ := List.mem_filter.mp htext
  by_cases hmirror : n = "mirror"
  · rw [hmirror] at htext ⊢
    have hspec : s ∈ fetchSpecs c "mirror" := List.mem_filterMap.mpr ⟨text, htext, hparse⟩
    rw [fetchSpecs_bare hl.specs hplain] at hspec
    rcases List.mem_cons.mp hspec with rfl | htree
    · exact ⟨"mirror", by decide, rfl, .inl rfl⟩
    · obtain ⟨t, ht, rfl⟩ := List.mem_map.mp htree
      exact ⟨t, hplain t ht, rfl, .inr ⟨rfl, ht⟩⟩
  · obtain rfl : text = peerRefspec n := hl.tidy.own n hmirror text htext
    have hname : PlainName n := by
      intro ch hch
      simp only [List.mem_cons, List.not_mem_nil, or_false] at hch
      rcases hch with rfl | rfl | rfl
      · exact hl.tidy.flat n hn
      · exact (hG.plain n htaken).1
      · exact (hG.plain n htaken).2
    cases (parse_peerRefspec hname).symm.trans hparse
    exact ⟨n, hname, rfl, .inl rfl⟩

/-- No ref is one that two remotes are fetched into. -/
theorem apart_of_laid (hG : Takes G) (hl : Laid mirror origin trees c)
    (hplain : ∀ t ∈ trees, PlainName t) :
    ∀ m ∈ c.remotes, ∀ n ∈ c.remotes, m ≠ n →
      ∀ s ∈ takenSpecs G c m, ∀ t ∈ takenSpecs G c n, s.dst.Apart t.dst := by
  intro m hm n hn hne s hs t ht
  obtain ⟨a, ha, hsa, hma⟩ := dst_of_taken hG hl hplain hm hs
  obtain ⟨b, hb, htb, hnb⟩ := dst_of_taken hG hl hplain hn ht
  rw [hsa, htb]
  refine underPattern_apart ha hb fun heq => ?_
  rw [← heq] at hnb
  -- a name of both is one remote twice, or a tree that is a remote
  rcases hma with rfl | ⟨rfl, htree⟩
  · rcases hnb with rfl | ⟨-, htree⟩
    · exact hne rfl
    · exact hl.clear _ htree hm
  · rcases hnb with rfl | ⟨rfl, -⟩
    · exact hl.clear _ htree hn
    · exact hne rfl

end

/-! ## The Bares of a call -/

section
variable {configs : Dict (Option Deploy)} {dir : Path} {project : String} {e : Entry}

/-- The path of a project's mirror. -/
def mirrorPath (dir : Path) (project : String) : String := pathText (dir ++ [project ++ ".git"])

theorem mirror_of_built (h : buildMirror configs dir project = .ok e) :
    pathText e.mirror = mirrorPath dir project := by
  rcases buildMirror_cases h with ⟨rfl, hlinux⟩ | ⟨-, sources, hsingle⟩
  · obtain ⟨proto, -, h⟩ := except_bind_ok.mp hlinux
    obtain ⟨schemes, -, h⟩ := except_bind_ok.mp h
    obtain ⟨template, -, h⟩ := except_bind_ok.mp h
    obtain ⟨remotes, -, hret⟩ := except_bind_ok.mp h
    cases hret
    rfl
  · obtain ⟨proto, -, h⟩ := except_bind_ok.mp hsingle
    obtain ⟨schemes, -, h⟩ := except_bind_ok.mp h
    obtain ⟨url, -, hret⟩ := except_bind_ok.mp h
    cases hret
    rfl

/-- Only the one remote of a single repository is called `origin`, and it is the primary. -/
theorem primary_of_origin (h : buildMirror configs dir project = .ok e) {r : Remote}
    (hr : r ∈ e.remotes) (hname : r.name = "origin") : r.primary = true := by
  rcases buildMirror_cases h with ⟨rfl, hlinux⟩ | ⟨hne, sources, hsingle⟩
  · obtain ⟨proto, -, h⟩ := except_bind_ok.mp hlinux
    obtain ⟨schemes, -, h⟩ := except_bind_ok.mp h
    obtain ⟨template, -, h⟩ := except_bind_ok.mp h
    obtain ⟨remotes, hremotes, hret⟩ := except_bind_ok.mp h
    cases hret
    obtain ⟨name, -, hremote⟩ := except_mapM_mem hremotes hr
    obtain ⟨heq, -, htree⟩ := linuxRemote_spec hremote
    have hnone : "origin" ∉ Dict.keys kernelTrees := by decide
    exact absurd (heq.symm.trans hname ▸ htree) hnone
  · rw [(buildMirror_spec h).primary r hr, hname, primaryTree, if_neg hne]
    rfl

/-- The primary that is found is the one there is. -/
theorem primaryRemote_of_built (h : BuiltFor configs project e) {p : Remote}
    (hp : primaryRemote e = .ok p) : ∀ r ∈ e.remotes, r.primary = true → r = p := by
  intro r hr hprimary
  rw [primaryRemote] at hp
  cases hfind : e.remotes.find? (·.primary) with
  | none =>
      rw [List.find?_eq_none] at hfind
      exact absurd hprimary (hfind r hr)
  | some q =>
      have hq := List.find?_some hfind
      rw [hfind] at hp
      cases hp
      exact h.layout.unique r hr _ (List.mem_of_find?_eq_some hfind) hprimary hq

/-- The trees are called like none of the two remotes. -/
theorem trees_of_built (h : buildMirror configs dir project = .ok e) : Trees e.trees := by
  have hname : ∀ t ∈ e.trees, ∃ r ∈ e.remotes, r.name = t ∧ r.primary = false := by
    intro t ht
    obtain ⟨r, hr, rfl⟩ := List.mem_map.mp ht
    obtain ⟨hmem, hnot⟩ := List.mem_filter.mp hr
    exact ⟨r, hmem, rfl, by simpa using hnot⟩
  refine ⟨fun hmem => ?_, fun hmem => ?_⟩
  · obtain ⟨r, hr, hmirror, -⟩ := hname _ hmem
    exact ((buildMirror_spec h).plain r hr).2 hmirror
  · obtain ⟨r, hr, horigin, hnot⟩ := hname _ hmem
    rw [primary_of_origin h hr horigin] at hnot
    cases hnot

end

/-! ## A call -/

section
variable {dirs : Dirs} {hosts : List String} {e : Entry} {c : Config}

/-- A Bare as it is left is as it should be, and fits the same hosts again. -/
theorem wired_of_laid (hG : Takes G) {configs : Dict (Option Deploy)} {project : String}
    (hbuilt : BuiltFor configs project e) {p : Remote} (hp : primaryRemote e = .ok p)
    (hl : Laid (pathText e.mirror) p.url e.trees c) : Wired G e c := by
  refine ⟨hl.mirror, hl.specs, fun r hr hprimary => ?_, apart_of_laid hG hl (trees_plain hbuilt)⟩
  rw [primaryRemote_of_built hbuilt hp r hr hprimary, hl.origin]

theorem FitsBare.again (h : FitsBare G hosts e c) {c' : Config} (hw : Wired G e c')
    (hclear : ∀ t ∈ e.trees, t ∉ c'.remotes) : FitsBare G hosts e c' :=
  ⟨h.mirror, h.origin, fun t ht => ⟨(h.trees t ht).1, hclear t ht⟩, .inr hw.origin⟩

/-- Every Bare is as a call needs it. -/
def AllSound (G : Git.Syntax) (dirs : Dirs) (w : Repos) : Prop :=
  ∀ project, Sound G (mirrorPath dirs.mirrors project) (w project)

/-- One round of the loop over the entries. -/
theorem round_wired (hG : Takes G) {configs : Dict (Option Deploy)}
    (hbuilt : buildMirror configs dirs.mirrors e.project = .ok e) {w w' : Repos}
    (hs : AllSound G dirs w) (hfits : FitsBare G hosts e (w e.project))
    {results results' : List (String × List (String × String))}
    (h : fetchRound G dirs hosts results e w = (.ok results', w')) :
    AllSound G dirs w' ∧ Wired G e (w' e.project) ∧ FitsBare G hosts e (w' e.project) := by
  obtain ⟨p, peerResults, hp, hbare, hother⟩ := fetchRound_run h
  have hspec := buildMirror_spec hbuilt
  have hfound : p ∈ e.remotes ∧ p.primary = true := by
    obtain ⟨r, hr, hprimary⟩ := hspec.layout.primary
    rw [← primaryRemote_of_built hspec hp r hr hprimary]
    exact ⟨hr, hprimary⟩
  have hmirror := mirror_of_built hbuilt
  have hsound : Sound G (pathText e.mirror) (w e.project) := by
    rw [hmirror]
    exact hs e.project
  have hl : Laid (pathText e.mirror) p.url e.trees (w' e.project) :=
    ensureBare_laid hG hsound (trees_of_built hbuilt) (fun t ht => (hfits.trees t ht).2)
      (hfits.read.imp_right fun h => h p hfound.1 hfound.2)
      ⟨hfits.mirror, hfits.origin, fun t ht => (hfits.trees t ht).1⟩ hbare
  have hw := wired_of_laid hG hspec hp hl
  refine ⟨fun project => ?_, hw, hfits.again hw hl.clear⟩
  by_cases hproject : project = e.project
  · rw [hproject, ← hmirror]
    exact ⟨hl.tidy, .inr hl.mirror⟩
  · rw [hother project hproject]
    exact hs project

/-- What an accepted call that fits leaves of the Bares. -/
theorem call_wired (hG : Takes G) {call : Call} {w : Repos} (hs : AllSound G dirs w)
    (haccepted : Accepted G dirs w call) (hfits : Fits G dirs w call) :
    AllSound G dirs (fetchStep G dirs w call) ∧ Wires G dirs w call := by
  obtain ⟨report, hrun⟩ := eq_of_isOk haccepted
  obtain ⟨es, w₁, hbuild, hloop⟩ := Exec.bind_ok_inv hrun
  obtain ⟨hes, rfl⟩ := Prod.mk.inj hbuild
  have hselects : ∀ e ∈ es, call.Selects dirs e := by
    intro e he
    obtain ⟨project, hproject, hbuilt⟩ := except_mapM_mem hes he
    have heq := (buildMirror_spec hbuilt).project_eq
    exact ⟨heq ▸ hproject, heq ▸ hbuilt⟩
  have hround : ∀ results s results' s', ∀ e ∈ es,
      (AllSound G dirs s ∧ ∀ e ∈ es, FitsBare G call.hosts e (s e.project)) →
        fetchRound G dirs call.hosts results e s = (.ok results', s') →
          (AllSound G dirs s' ∧ ∀ e ∈ es, FitsBare G call.hosts e (s' e.project)) ∧
            Wired G e (s' e.project) := by
    intro results s results' s' e he ⟨hsound, hfit⟩ hrun
    obtain ⟨hsound', hw, hagain⟩ := round_wired hG (hselects e he).2 hsound (hfit e he) hrun
    refine ⟨⟨hsound', fun e' he' => ?_⟩, hw⟩
    by_cases hproject : e'.project = e.project
    · rw [entry_unique hes he' he hproject]
      exact hagain
    · rw [(fetchRound_ok hrun).2 _ hproject]
      exact hfit e' he'
  have hkeep : ∀ results s results' s', ∀ e ∈ es, ∀ e' ∈ es, e ≠ e' → Wired G e (s e.project) →
      fetchRound G dirs call.hosts results e' s = (.ok results', s') →
        Wired G e (s' e.project) := by
    intro results s results' s' e he e' he' hne hw hrun
    have hproject : e.project ≠ e'.project := fun heq => hne (entry_unique hes he he' heq)
    rw [(fetchRound_ok hrun).2 _ hproject]
    exact hw
  obtain ⟨⟨hsound, -⟩, hwired⟩ := Exec.foldlM_each_inv_ok
    (I := fun s => AllSound G dirs s ∧ ∀ e ∈ es, FitsBare G call.hosts e (s e.project))
    (P := fun e s => Wired G e (s e.project)) hround hkeep
    ⟨hs, fun e he => hfits e (hselects e he)⟩ hloop
  refine ⟨hsound, fun e he => ?_⟩
  obtain ⟨e', he', hproject⟩ := entry_of_project hes he.1
  have hbuilt := (hselects e' he').2
  rw [hproject, he.2] at hbuilt
  cases hbuilt
  exact hwired e he'

theorem allSound_nil (G : Git.Syntax) (dirs : Dirs) : AllSound G dirs fun _ => [] :=
  fun _ => ⟨tidy_nil, .inl rfl⟩

end

/-! ## Runs of calls -/

/-- In a run of accepted calls that fit, from nothing, each Bare a call selects is as it should
be after it. -/
theorem bares_wired (G : Git.Syntax) (dirs : Dirs) (hG : Takes G) (calls : List Call)
    (h : Sys.Along (fetchStep G dirs) (fun w call => Accepted G dirs w call ∧ Fits G dirs w call)
      (fun _ => []) calls) :
    Sys.Along (fetchStep G dirs) (Wires G dirs) (fun _ => []) calls :=
  Sys.along_of (I := AllSound G dirs) (fun _ _ hs hc => (call_wired hG hs hc.1 hc.2).1)
    (fun _ _ hs hc => (call_wired hG hs hc.1 hc.2).2) (allSound_nil G dirs) h

/-! ## Sample runs -/

/-- A git that takes names without a star and a colon, and refspecs with two stars and one
colon. -/
def plainSyntax : Git.Syntax where
  remoteName name := name.toList.count '*' = 0 ∧ name.toList.count ':' = 0
  refspec text := text.toList.count '*' = 2 ∧ text.toList.count ':' = 1

/-- The stars and colons of a peer's refspec, besides those of its name. -/
theorem count_peerRefspec (name : String) :
    (peerRefspec name).toList.count '*' = name.toList.count '*' + 2 ∧
      (peerRefspec name).toList.count ':' = name.toList.count ':' + 1 := by
  have htext : (peerRefspec name).toList =
      ('+' :: headsPattern.text ++ ':' :: remotesSpace) ++ (name.toList ++ ['/', '*']) := by
    refine (text_under name).trans ?_
    simp [Refspec.text, underPattern, Pattern.text]
  have hstar : ('+' :: headsPattern.text ++ ':' :: remotesSpace).count '*' = 1 := by decide
  have hcolon : ('+' :: headsPattern.text ++ ':' :: remotesSpace).count ':' = 1 := by decide
  have hend : ['/', '*'].count '*' = 1 ∧ ['/', '*'].count ':' = 0 := by decide
  have hsum : ∀ (a b : List Char) (c : Char),
      (a ++ (name.toList ++ b)).count c = a.count c + (name.toList.count c + b.count c) := by
    intro a b c
    rw [List.count_append, List.count_append]
  rw [htext, hsum, hsum, hstar, hcolon, hend.1, hend.2]
  omega

theorem takes_plain : Takes plainSyntax := by
  have htakes : ∀ name : String, plainSyntax.refspec (peerRefspec name) = true ↔
      name.toList.count '*' = 0 ∧ name.toList.count ':' = 0 := by
    intro name
    rw [plainSyntax, decide_eq_true_iff, (count_peerRefspec name).1, (count_peerRefspec name).2]
    omega
  refine ⟨by decide, by decide, (htakes "origin").mpr (by decide), fun name h => ?_⟩
  obtain ⟨hstar, hcolon⟩ := (htakes name).mp h
  exact ⟨List.count_eq_zero.mp hstar, List.count_eq_zero.mp hcolon⟩

/-- The Linux mirror with one tree besides the primary, from one of its sources. -/
def oneTree (tree source : String) : Selection :=
  ⟨some ["linux"], some ⟨[tree], source, ""⟩, none, none, none, none, none, none, none, none⟩

/-- Two calls: another peer, another tree and another source the second time. -/
def twoCalls : List Call :=
  [⟨oneTree "axboe" "", [.text "hetzie"]⟩, ⟨oneTree "mcgrof" "googlesource", [.text "nas"]⟩]

/-- The entry of one tree besides the primary. -/
def oneTreeEntry (tree host : String) : Entry where
  name := "linux"
  project := "linux"
  mirror := ["system", "mirror", "linux.git"]
  remotes :=
    [⟨"torvalds", host ++ "/pub/scm/linux/kernel/git/torvalds/linux.git", true, true⟩,
      ⟨tree, host ++ "/pub/scm/linux/kernel/git/" ++ tree ++ "/linux.git", false, false⟩]

/-- A call for one tree fits where its one entry does. -/
theorem fits_oneTree {G : Git.Syntax} {dirs : Dirs} {w : Repos} {tree source : String}
    {peers : List PeerInput} {e : Entry}
    (hbuilt : buildMirror (oneTree tree source).configs dirs.mirrors "linux" = .ok e)
    (hfit : FitsBare G (Call.hosts ⟨oneTree tree source, peers⟩) e (w "linux")) :
    Fits G dirs w ⟨oneTree tree source, peers⟩ := by
  intro e' he'
  have hproject : e'.project = "linux" := List.mem_singleton.mp he'.1
  have hsame := he'.2
  rw [hproject, hbuilt] at hsame
  cases hsame
  rw [hproject]
  exact hfit

theorem bares_wired_twoCalls :
    Sys.Along (fetchStep plainSyntax sampleDirs) (Wires plainSyntax sampleDirs) (fun _ => [])
      twoCalls := by
  refine bares_wired plainSyntax sampleDirs takes_plain twoCalls
    ⟨⟨by decide +kernel, fits_oneTree (e := oneTreeEntry "axboe" "https://git.kernel.org") ?_ ?_⟩,
      ⟨by decide +kernel,
        fits_oneTree (e := oneTreeEntry "mcgrof" "https://kernel.googlesource.com") ?_ ?_⟩, trivial⟩
  · decide +kernel
  · exact ⟨by decide +kernel, by decide +kernel, by decide +kernel, .inl (by decide +kernel)⟩
  · decide +kernel
  · exact ⟨by decide +kernel, by decide +kernel, by decide +kernel, .inl (by decide +kernel)⟩

/-- Of `fio` alone, with a peer. -/
def fioCall (peer : String) : Call :=
  ⟨⟨some ["fio"], none, none, none, none, none, none, none, none, none⟩, [.text peer]⟩

/-- A peer called `mirror` takes the place of the mirror. -/
theorem peer_takes_mirror : ¬ ∀ (G : Git.Syntax) (dirs : Dirs), Takes G → ∀ calls : List Call,
    Sys.Along (fetchStep G dirs) (Accepted G dirs) (fun _ => []) calls →
      Sys.Along (fetchStep G dirs) (Wires G dirs) (fun _ => []) calls := by
  intro h
  have hruns := h plainSyntax sampleDirs takes_plain [fioCall "mirror"] ⟨by decide +kernel, trivial⟩
  have hwired := hruns.1
    ⟨"fio", "fio", ["system", "mirror", "fio.git"],
      [⟨"origin", "https://github.com/axboe/fio.git", true, true⟩]⟩ (by decide +kernel)
  exact absurd hwired.mirror (by decide +kernel)

end KdevopsNg.Workbench
