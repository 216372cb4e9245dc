/-
# `Workbench.Registry` — the peers that were written and those that are read

`f/workbench/fetch.py` ends with the peers in `$SYSTEM_DIR/peers`, a line each, host and
index with a tab between them; `registered_peers` of `f/common/store.py` reads the file by
its lines and their words.

    written     host \t index \n
    read        the first word, and the second one if there is one

A word has no white space, so what is read back is what was written exactly when no host
and no index has any (`registered_iff`).
-/
import KdevopsNg.Common.Releases
import KdevopsNg.Py.Flow
import KdevopsNg.Workbench.Compose

namespace KdevopsNg.Workbench

open Py
open Common (universalNewlines universalNewlines_of_not_mem)

/-! ## The file -/

/-- The line of a peer. -/
def peerLine (p : String × String) : List Char := p.1.toList ++ '\t' :: p.2.toList

/-- The text `main` of `f/workbench/fetch.py` writes. -/
def registryText (peers : List (String × String)) : List Char :=
  peers.flatMap fun p => peerLine p ++ ['\n']

/-- The peer of a line's words. -/
def peerOfWords : List (List Char) → Option (String × String)
  | [] => none
  | [host] => some (String.ofList host, defaultPeerIndex)
  | host :: index :: _ => some (String.ofList host, String.ofList index)

/-- `registered_peers`, of the content of the file, none when there is no file. -/
def registeredPeers (file : Option (List Char)) : List (String × String) :=
  match file with
  | none => []
  | some text =>
      (Text.splitlines (universalNewlines text)).filterMap fun line => peerOfWords (Text.words line)

/-- What `main` of `f/workbench/fetch.py` works on: the Bares and the registry. -/
structure System where
  bares : Repos
  peersFile : Option (List Char)

/-- `main` of `f/workbench/fetch.py`, the registry included: it is written last. -/
def fetchSystem (G : Git.Syntax) (dirs : Dirs) (a : Selection) (peers : List PeerInput) :
    Exec System (List (String × List (String × String))) := fun w =>
  match fetchMain G dirs a peers w.bares with
  | (.ok report, bares) => (.ok report, ⟨bares, some (registryText (normalizePeers peers))⟩)
  | (.error e, bares) => (.error e, { w with bares := bares })

/-! ## White space -/

/-- A text without white space. -/
def NoSpace (s : String) : Prop := ∀ c ∈ s.toList, Text.isSpace c = false

instance (s : String) : Decidable (NoSpace s) := inferInstanceAs (Decidable (∀ c ∈ s.toList, _))

theorem noSpace_default : NoSpace defaultPeerIndex := by decide +kernel

/-- A peer that is read has no white space. -/
theorem noSpace_of_words {line : List Char} {p : String × String}
    (h : peerOfWords (Text.words line) = some p) : NoSpace p.1 ∧ NoSpace p.2 := by
  have hword : ∀ w ∈ Text.words line, NoSpace (String.ofList w) := by
    intro w hw c hc
    rw [String.toList_ofList] at hc
    exact (Text.solid_of_mem_words hw).2 c hc
  match hwords : Text.words line with
  | [] =>
      rw [hwords] at h
      cases h
  | [host] =>
      rw [hwords] at h hword
      cases h
      exact ⟨hword host List.mem_cons_self, noSpace_default⟩
  | host :: index :: rest =>
      rw [hwords] at h hword
      cases h
      exact ⟨hword host List.mem_cons_self,
        hword index (List.mem_cons_of_mem _ List.mem_cons_self)⟩

/-! ## What is read of what was written -/

/-- Peers that can be written: a host, and an index. -/
theorem normalizePeers_ne {peers : List PeerInput} {p : String × String}
    (h : p ∈ normalizePeers peers) : p.1 ≠ "" ∧ p.2 ≠ "" := by
  obtain ⟨input, -, hp⟩ := List.mem_filterMap.mp h
  have hdefault : defaultPeerIndex ≠ "" := by decide +kernel
  have hsome : ∀ {host index : String}, index ≠ "" →
      (if host = "" then none else some (host, index)) = some p → p.1 ≠ "" ∧ p.2 ≠ "" := by
    intro host index hindex hp
    split_ifs at hp with hhost
    cases hp
    exact ⟨hhost, hindex⟩
  cases input with
  | text s => exact hsome hdefault hp
  | object host storeIndex =>
      refine hsome ?_ hp
      rw [orElse]
      split_ifs with hindex
      · exact hdefault
      · exact hindex
  | other => cases hp

/-- The line of a peer without white space is of one line, and has its two words. -/
theorem peerLine_read {p : String × String} (hhost : p.1 ≠ "") (hindex : p.2 ≠ "")
    (h : NoSpace p.1 ∧ NoSpace p.2) :
    (∀ c ∈ peerLine p, Text.isLineBreak c = false) ∧
      peerOfWords (Text.words (peerLine p)) = some p := by
  have hbreak : ∀ {s : String}, NoSpace s → ∀ c ∈ s.toList, Text.isLineBreak c = false := by
    intro s hs c hc
    cases hb : Text.isLineBreak c with
    | false => rfl
    | true => exact absurd (Text.isSpace_of_isLineBreak hb) (by rw [hs c hc]; exact Bool.false_ne_true)
  have hsolid : ∀ {s : String}, s ≠ "" → NoSpace s → Text.Solid s.toList := fun hne hs =>
    ⟨fun hnil => hne (String.toList_eq_nil_iff.mp hnil), hs⟩
  constructor
  · intro c hc
    rcases List.mem_append.mp hc with hc | hc
    · exact hbreak h.1 c hc
    · rcases List.mem_cons.mp hc with rfl | hc
      · decide
      · exact hbreak h.2 c hc
  · rw [peerLine, Text.words_sep (by decide), Text.words_solid (hsolid hhost h.1),
      Text.words_solid (hsolid hindex h.2)]
    show some (String.ofList p.1.toList, String.ofList p.2.toList) = some p
    rw [String.ofList_toList, String.ofList_toList]

/-- Peers without white space are read back. -/
theorem registered_of_noSpace {peers : List (String × String)}
    (hne : ∀ p ∈ peers, p.1 ≠ "" ∧ p.2 ≠ "") (h : ∀ p ∈ peers, NoSpace p.1 ∧ NoSpace p.2) :
    registeredPeers (some (registryText peers)) = peers := by
  have hline : ∀ p ∈ peers, (∀ c ∈ peerLine p, Text.isLineBreak c = false) ∧
      peerOfWords (Text.words (peerLine p)) = some p :=
    fun p hp => peerLine_read (hne p hp).1 (hne p hp).2 (h p hp)
  have htext : registryText peers = (peers.map peerLine).flatMap (· ++ ['\n']) ++ [] := by
    rw [registryText, List.flatMap_map, List.append_nil]
  have hlines : ∀ line ∈ peers.map peerLine, ∀ c ∈ line, Text.isLineBreak c = false := by
    intro line hmem
    obtain ⟨p, hp, rfl⟩ := List.mem_map.mp hmem
    exact (hline p hp).1
  have hreturn : '\r' ∉ registryText peers := by
    intro hmem
    obtain ⟨p, hp, hc⟩ := List.mem_flatMap.mp hmem
    rcases List.mem_append.mp hc with hc | hc
    · exact absurd ((hline p hp).1 _ hc) (by decide)
    · exact absurd (List.mem_singleton.mp hc) (by decide)
  rw [registeredPeers, universalNewlines_of_not_mem hreturn, htext, Text.splitlines_lines hlines]
  simp only [Text.splitlines, List.append_nil]
  rw [List.filterMap_map]
  exact (List.filterMap_congr fun p hp => (hline p hp).2).trans List.filterMap_some

/-- The peers that are read are those that were written exactly when none has white space. -/
theorem registered_iff {peers : List (String × String)}
    (hne : ∀ p ∈ peers, p.1 ≠ "" ∧ p.2 ≠ "") :
    registeredPeers (some (registryText peers)) = peers ↔
      ∀ p ∈ peers, NoSpace p.1 ∧ NoSpace p.2 := by
  refine ⟨fun h p hp => ?_, registered_of_noSpace hne⟩
  rw [← h] at hp
  obtain ⟨line, -, hread⟩ := List.mem_filterMap.mp hp
  exact noSpace_of_words hread

/-- After a run that was accepted, the registry reads back as the peers of the run exactly
when no host and no index has white space. -/
theorem fetch_registers_iff (G : Git.Syntax) (dirs : Dirs) (a : Selection) (peers : List PeerInput)
    (w w' : System) (report : List (String × List (String × String)))
    (h : fetchSystem G dirs a peers w = (.ok report, w')) :
    registeredPeers w'.peersFile = normalizePeers peers ↔
      ∀ p ∈ normalizePeers peers, NoSpace p.1 ∧ NoSpace p.2 := by
  have hfile : w'.peersFile = some (registryText (normalizePeers peers)) := by
    rw [fetchSystem] at h
    rcases hrun : fetchMain G dirs a peers w.bares with ⟨e | r, bares⟩
    · rw [hrun] at h
      cases h
    · rw [hrun] at h
      cases h
      rfl
  rw [hfile]
  exact registered_iff fun p hp => normalizePeers_ne hp

/-! ## A path with a blank -/

def noProjects : Selection := ⟨some [], none, none, none, none, none, none, none, none, none⟩

def emptySystem : System := ⟨fun _ => [], none⟩

theorem fetch_noProjects (peers : List PeerInput) :
    fetchSystem sampleSyntax sampleDirs noProjects peers emptySystem =
      (.ok [], ⟨fun _ => [], some (registryText (normalizePeers peers))⟩) := rfl

theorem fetch_registers_iff_hetzie :
    registeredPeers (some (registryText (normalizePeers [.text "hetzie"]))) =
      normalizePeers [.text "hetzie"] :=
  (fetch_registers_iff sampleSyntax sampleDirs noProjects [.text "hetzie"] emptySystem _ []
    (fetch_noProjects _)).mpr (by decide +kernel)

/-- Not every run leaves the peers it was given: an index is cut at its first blank. -/
theorem blank_cuts_index : ¬ ∀ (G : Git.Syntax) (dirs : Dirs) (a : Selection)
    (peers : List PeerInput) (w w' : System) (report : List (String × List (String × String))),
    fetchSystem G dirs a peers w = (.ok report, w') →
      registeredPeers w'.peersFile = normalizePeers peers := by
  intro h
  have hread := h sampleSyntax sampleDirs noProjects [.object "nas" "/srv/my store/store-index"]
    emptySystem _ [] (fetch_noProjects _)
  exact absurd hread (by decide +kernel)

end KdevopsNg.Workbench
