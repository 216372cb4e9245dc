/-
# `Fstests.DeviceGate` — the devices a section needs, counted twice

`main` of `f/fstests/render_config.py` leaves a section out when there are too few
devices for it (`deviceReason`), and `inject_device_base` raises when there are too
few to bind it.  With `n` devices and `k` external variables declared empty,

    the gate       n < 2 + k, where k > 0, or n < 3 + k with logwrites
    the injector   the same, but a `LOGWRITES_DEV=` in the block takes no device

and the injector also raises where the name of a device is no replacement text of
`re.sub`.  An empty variable stays where it is while others are filled in
(`findEmptyDev_fill`), so the second is a matter of the names alone (`fill_iff`).
-/
import KdevopsNg.Fstests.Geometry
import KdevopsNg.Fstests.Inject
import KdevopsNg.Fstests.SetAside

namespace KdevopsNg.Fstests

open Py Text

/-! ## The gate -/

/-- The gates of `main` that count devices. -/
def deviceReason (logwrites : Bool) (devices : List Device) (block : String) : Option String :=
  let externals := sectionExternalDevs block
  let need := 2 + externals.length
  if externals ≠ [] ∧ devices.length < need then
    some ("needs " ++ toString need ++ " devices for " ++ Text.join ", " externals ++ ", have " ++
      toString devices.length)
  else if logwrites ∧ devices.length < need + 1 then
    some ("needs " ++ toString (need + 1) ++ " devices for " ++
      (if externals = [] then "" else Text.join ", " externals ++ " + ") ++
      "LOGWRITES_DEV, have " ++ toString devices.length)
  else none

/-- A section of a usable geometry is left out for its device count or not at all. -/
theorem skipReason_of_usable {u : Unicode} {logwrites : Bool} {devices : List Device}
    {block sectionName : String}
    (hblock : deviceSector devices ≤ sectionBlockBlockSize u block sectionName)
    (hsector : ∀ n, sectionSectorSize u block sectionName = some n → deviceSector devices ≤ n)
    (hcrc : sectionIsV4 block sectionName = true →
      sectionBlockBlockSize u block sectionName ≤ guestPageSize) :
    skipReason u logwrites devices block sectionName = deviceReason logwrites devices block := by
  have hnot : ¬ (sectionIsV4 block sectionName = true ∧
      guestPageSize < sectionBlockBlockSize u block sectionName) := fun h =>
    Nat.not_lt.mpr (hcrc h.1) h.2
  rw [skipReason, if_neg (not_lt.mpr hblock)]
  cases hs : sectionSectorSize u block sectionName with
  | none => exact (if_neg (not_not.mpr rfl)).trans (if_neg hnot)
  | some n =>
      simp only [if_neg (not_lt.mpr (hsector n hs))]
      exact (if_neg (not_not.mpr rfl)).trans (if_neg hnot)

theorem deviceReason_isSome_iff (logwrites : Bool) (devices : List Device) (block : String) :
    (deviceReason logwrites devices block).isSome = true ↔ TooFew logwrites devices block := by
  unfold deviceReason TooFew
  dsimp only
  by_cases hext : sectionExternalDevs block ≠ [] ∧
      devices.length < 2 + (sectionExternalDevs block).length
  · rw [if_pos hext]
    exact iff_of_true rfl (.inl hext)
  · rw [if_neg hext]
    by_cases hlog : logwrites = true ∧ devices.length < 2 + (sectionExternalDevs block).length + 1
    · rw [if_pos hlog]
      exact iff_of_true rfl (.inr hlog)
    · rw [if_neg hlog]
      exact iff_of_false (by decide) (not_or.mpr ⟨hext, hlog⟩)

/-! ## Lines of a text -/

/-- A piece of a text, and what is on either side of it. -/
theorem mem_split {c : Char} {s l : List Char} (h : l ∈ split c s) :
    ∃ x y, s = x ++ (l ++ y) ∧ (x = [] ∨ ∃ x', x = x' ++ [c]) ∧ (y = [] ∨ ∃ y', y = c :: y') := by
  induction hn : s.length using Nat.strongRecOn generalizing s with
  | _ n ih =>
      by_cases hc : c ∈ s
      · obtain ⟨w, rest, rfl, hw⟩ := List.eq_append_cons_of_mem hc
        rw [split_piece hw] at h
        rcases List.mem_cons.mp h with rfl | h
        · exact ⟨[], c :: rest, rfl, .inl rfl, .inr ⟨rest, rfl⟩⟩
        · have hlt : rest.length < n := by
            rw [← hn, List.length_append, List.length_cons]
            omega
          obtain ⟨x, y, hrest, hx, hy⟩ := ih _ hlt h rfl
          refine ⟨w ++ c :: x, y, ?_, .inr ?_, hy⟩
          · rw [hrest]
            simp
          · rcases hx with rfl | ⟨x', rfl⟩
            · exact ⟨w, rfl⟩
            · exact ⟨w ++ c :: x', by simp⟩
      · rw [split_of_not_mem hc, List.mem_singleton] at h
        exact ⟨[], [], by rw [h]; simp, .inl rfl, .inl rfl⟩

/-- The pieces around a text that begins and ends where pieces do. -/
theorem split_between {c : Char} {x y : List Char} (hx : x = [] ∨ ∃ x', x = x' ++ [c])
    (hy : y = [] ∨ ∃ y', y = c :: y') :
    ∃ front back, ∀ m, split c (x ++ (m ++ y)) = front ++ (split c m ++ back) := by
  have hback : ∃ back, ∀ m, split c (m ++ y) = split c m ++ back := by
    rcases hy with rfl | ⟨y', rfl⟩
    · exact ⟨[], fun m => by rw [List.append_nil, List.append_nil]⟩
    · exact ⟨split c y', fun m => split_sep c m y'⟩
  obtain ⟨back, hback⟩ := hback
  rcases hx with rfl | ⟨x', rfl⟩
  · exact ⟨[], back, hback⟩
  · refine ⟨split c x', back, fun m => ?_⟩
    rw [List.append_assoc, List.singleton_append, split_sep, hback]

/-- A word with white space about it is on a line of its own. -/
theorem exists_piece {ws k ws' : List Char} (hws : ∀ c ∈ ws, isSpace c = true)
    (hws' : ∀ c ∈ ws', isSpace c = true) (hk : ∀ c ∈ k, isSpace c = false) :
    ∃ l ∈ split '\n' (ws ++ (k ++ ws')), strip l = strip k := by
  have hnot : '\n' ∉ k := fun h => absurd (hk _ h) (by decide)
  induction ws with
  | cons c ws ih =>
      obtain ⟨hc, hws⟩ := List.forall_mem_cons.mp hws
      obtain ⟨l, hl, hstrip⟩ := ih hws
      rw [List.cons_append, split]
      by_cases hbreak : c = '\n'
      · rw [if_pos hbreak]
        exact ⟨l, List.mem_cons_of_mem _ hl, hstrip⟩
      · rw [if_neg hbreak]
        obtain ⟨w, pieces, hw⟩ := List.exists_cons_of_ne_nil (split_ne_nil '\n' (ws ++ (k ++ ws')))
        rw [hw] at hl ⊢
        rcases List.mem_cons.mp hl with rfl | hl
        · exact ⟨c :: l, List.mem_cons_self, (strip_cons_space hc l).trans hstrip⟩
        · exact ⟨l, List.mem_cons_of_mem _ hl, hstrip⟩
  | nil =>
      rw [List.nil_append]
      have hstrip : ∀ {a : List Char}, (∀ c ∈ a, isSpace c = true) → strip (k ++ a) = strip k := by
        intro a ha
        induction a using List.reverseRecOn with
        | nil => rw [List.append_nil]
        | append_singleton a c ih =>
            rw [← List.append_assoc, strip_append_space (ha c (by simp))]
            exact ih fun x hx => ha x (List.mem_append_left _ hx)
      by_cases hbreak : '\n' ∈ ws'
      · obtain ⟨a, b, rfl, ha⟩ := List.eq_append_cons_of_mem hbreak
        rw [← List.append_assoc, split_piece fun h => (List.mem_append.mp h).elim hnot ha]
        exact ⟨k ++ a, List.mem_cons_self, hstrip fun c hc => hws' c (List.mem_append_left _ hc)⟩
      · rw [split_of_not_mem fun h => (List.mem_append.mp h).elim hnot hbreak]
        exact ⟨k ++ ws', List.mem_singleton_self _, hstrip hws'⟩

/-! ## Lines that ask for a device -/

/-- A line of the text is `KEY=`. -/
def Asks (key : String) (s : List Char) : Prop := ∃ l ∈ split '\n' s, strip l = assignLine key []

theorem asks_between {key : String} {x y : List Char} (hx : x = [] ∨ ∃ x', x = x' ++ ['\n'])
    (hy : y = [] ∨ ∃ y', y = '\n' :: y') {m : List Char} (m' : List Char)
    (hm : ¬ Asks key m) (h : Asks key (x ++ (m ++ y))) : Asks key (x ++ (m' ++ y)) := by
  obtain ⟨front, back, hsplit⟩ := split_between hx hy
  obtain ⟨l, hl, hstrip⟩ := h
  rw [hsplit, List.mem_append, List.mem_append] at hl
  refine ⟨l, ?_, hstrip⟩
  rw [hsplit, List.mem_append, List.mem_append]
  rcases hl with hl | hl | hl
  · exact .inl hl
  · exact absurd ⟨l, hl, hstrip⟩ hm
  · exact .inr (.inr hl)

section
variable {key : String}

theorem assignLine_noSpace (hk : PlainKey key) : ∀ c ∈ assignLine key [], isSpace c = false := by
  intro c hc
  rcases List.mem_append.mp hc with hc | hc
  · exact (hk.plain c hc).1
  · rw [List.mem_singleton.mp hc]
    rfl

/-- The pattern is tried at every line on the way. -/
theorem findEmptyDev_append {x t : List Char} (ht : (emptyDevHere key t).isSome = true)
    (hne : t ≠ []) {atStart : Bool} (hx : x = [] ∧ atStart = true ∨ ∃ x', x = x' ++ ['\n']) :
    (findEmptyDev key atStart (x ++ t)).isSome = true := by
  induction x generalizing atStart with
  | nil =>
      obtain ⟨c, t, rfl⟩ := List.exists_cons_of_ne_nil hne
      obtain ⟨r, hr⟩ := Option.isSome_iff_exists.mp ht
      rcases hx with ⟨-, rfl⟩ | ⟨x', hx'⟩
      · rw [List.nil_append, findEmptyDev, if_pos rfl, hr]
        rfl
      · exact absurd hx' (by simp)
  | cons c x ih =>
      have hnext : (findEmptyDev key (decide (c = '\n')) (x ++ t)).isSome = true := by
        refine ih ?_
        obtain ⟨hnil, -⟩ | ⟨x', hx'⟩ := hx
        · cases hnil
        · cases x' with
          | nil =>
              obtain ⟨rfl, rfl⟩ := List.cons.inj hx'
              exact .inl ⟨rfl, rfl⟩
          | cons d x' => exact .inr ⟨x', (List.cons.inj hx').2⟩
      rw [List.cons_append, findEmptyDev]
      cases (if atStart then emptyDevHere key (c :: (x ++ t)) else none) with
      | some r => rfl
      | none => exact Option.isSome_map.trans hnext

/-- The pattern finds a line that asks for a device wherever there is one. -/
theorem findEmptyDev_isSome_iff_asks (hk : PlainKey key) (s : List Char) :
    (findEmptyDev key true s).isSome = true ↔ Asks key s := by
  constructor
  · intro h
    obtain ⟨⟨before, m, after⟩, hfind⟩ := Option.isSome_iff_exists.mp h
    obtain ⟨rfl, hhere, hbefore⟩ := findEmptyDev_some hfind
    obtain ⟨-, hafter, ws, ws', rfl, hws, hws'⟩ := emptyDevHere_some hhere
    obtain ⟨front, back, hsplit⟩ := split_between (hbefore.imp_left And.left) hafter
    obtain ⟨l, hl, hstrip⟩ := exists_piece hws hws' (assignLine_noSpace hk)
    refine ⟨l, ?_, hstrip.trans (strip_assignLine hk endsPlain_nil)⟩
    rw [hsplit, List.mem_append, List.mem_append]
    exact .inr (.inl hl)
  · rintro ⟨l, hl, hstrip⟩
    obtain ⟨x, y, rfl, hx, hy⟩ := mem_split hl
    obtain ⟨ws, ws', hparts, hws, hws'⟩ := strip_parts l
    rw [hstrip] at hparts
    rw [hparts, List.append_assoc, List.append_assoc]
    refine findEmptyDev_append (emptyDevHere_isSome hk hws hws' hy) ?_ (hx.imp_left fun h => ⟨h, rfl⟩)
    obtain ⟨c, cs, hcs, -⟩ := hk.head ['=']
    intro hnil
    have hline : assignLine key [] = [] :=
      (List.append_eq_nil_iff.mp (List.append_eq_nil_iff.mp hnil).2).1
    rw [assignLine, hcs] at hline
    cases hline

end

/-- No external variable is written in the line of another. -/
theorem external_not_infix : ∀ key ∈ externalDevKeys, ∀ other ∈ externalDevKeys, key ≠ other →
    ¬ assignLine other [] <:+: assignLine key [] := by
  decide

/-- An empty variable stays while another is filled in. -/
theorem asks_fill {key other : String} (hkey : key ∈ externalDevKeys)
    (hother : other ∈ externalDevKeys) (hne : key ≠ other) {s before m after : List Char}
    (hfind : findEmptyDev key true s = some (before, m, after)) (h : Asks other s)
    (text : List Char) : Asks other (before ++ (text ++ after)) := by
  have hk := (plainKey_external hother).1
  obtain ⟨rfl, hhere, hbefore⟩ := findEmptyDev_some hfind
  obtain ⟨-, hafter, ws, ws', rfl, hws, hws'⟩ := emptyDevHere_some hhere
  refine asks_between (hbefore.imp_left And.left) hafter text ?_ h
  rintro ⟨l, hl, hstrip⟩
  obtain ⟨x, y, hm, -, -⟩ := mem_split hl
  have hinfix : assignLine other [] <:+: ws ++ (assignLine key [] ++ ws') := by
    rw [hm, ← hstrip]
    have hstrip := strip_infix l
    exact hstrip.trans ⟨x, y, by rw [List.append_assoc]⟩
  have hnil : assignLine other [] ≠ [] := by
    obtain ⟨c, cs, hcs, -⟩ := hk.head ['=']
    rw [assignLine, hcs]
    exact List.cons_ne_nil c cs
  exact external_not_infix key hkey other hother hne
    ((infix_of_back hnil (assignLine_noSpace hk) hws').mp
      ((infix_of_front hnil (assignLine_noSpace hk) hws).mp hinfix))

/-! ## Filling the variables in -/

/-- `re` takes a text for a replacement; what it matched does not matter. -/
def Expands (fill : String × String) : Prop :=
  (expandTemplate [] (fill.1 ++ "=" ++ fill.2).toList).isSome = true

theorem templateStep_whole (whole whole' cs : List Char) :
    (templateStep whole cs).map Prod.snd = (templateStep whole' cs).map Prod.snd := by
  unfold templateStep
  split
  · rfl
  · dsimp only
    split_ifs
    · rfl
    · rfl
  · rfl
  · rfl
  · rfl
  · rfl

theorem templateFrom_whole (whole whole' : List Char) (fuel : ℕ) (cs : List Char) :
    (templateFrom whole fuel cs).isSome = (templateFrom whole' fuel cs).isSome := by
  induction fuel generalizing cs with
  | zero => cases cs <;> rfl
  | succ fuel ih =>
      cases cs with
      | nil => rfl
      | cons c cs =>
          have hstep := templateStep_whole whole whole' (c :: cs)
          rw [templateFrom, templateFrom]
          · cases h : templateStep whole (c :: cs) with
            | none =>
                cases h' : templateStep whole' (c :: cs) with
                | none => rfl
                | some r =>
                    rw [h, h'] at hstep
                    cases hstep
            | some r =>
                cases h' : templateStep whole' (c :: cs) with
                | none =>
                    rw [h, h'] at hstep
                    cases hstep
                | some r' =>
                    rw [h, h'] at hstep
                    have hrest : r.2 = r'.2 := Option.some.inj hstep
                    have ih' := ih r.2
                    change (Option.bind (templateFrom whole fuel r.2) _).isSome =
                      (Option.bind (templateFrom whole' fuel r'.2) _).isSome
                    rw [← hrest]
                    cases hw : templateFrom whole fuel r.2 with
                    | none =>
                        rw [hw] at ih'
                        rw [Option.isSome_eq_false_iff.mp ih'.symm |> Option.isNone_iff_eq_none.mp]
                        rfl
                    | some _ =>
                        rw [hw] at ih'
                        obtain ⟨t, ht⟩ := Option.isSome_iff_exists.mp ih'.symm
                        rw [ht]
                        rfl
          · exact List.cons_ne_nil c cs
          · exact List.cons_ne_nil c cs

/-- The fills go through exactly when each of them is taken for a replacement. -/
theorem fill_iff {fs : List (String × String)} (hkeys : ∀ p ∈ fs, p.1 ∈ externalDevKeys)
    (hnodup : (fs.map Prod.fst).Nodup) {body : String} (hasks : ∀ p ∈ fs, Asks p.1 body.toList) :
    (∃ out, fs.foldlM fillEmptyDev body = .ok out) ↔ ∀ p ∈ fs, Expands p := by
  induction fs generalizing body with
  | nil => exact iff_of_true ⟨body, rfl⟩ fun p hp => absurd hp List.not_mem_nil
  | cons p fs ih =>
      obtain ⟨hkey, hkeys⟩ := List.forall_mem_cons.mp hkeys
      obtain ⟨hask, hasks⟩ := List.forall_mem_cons.mp hasks
      rw [List.map_cons, List.nodup_cons] at hnodup
      obtain ⟨⟨before, m, after⟩, hfind⟩ := Option.isSome_iff_exists.mp
        ((findEmptyDev_isSome_iff_asks (plainKey_external hkey).1 _).mpr hask)
      have haccepted : Expands p ↔ (expandTemplate m (p.1 ++ "=" ++ p.2).toList).isSome = true := by
        rw [Expands, expandTemplate, expandTemplate, templateFrom_whole [] m]
      rw [List.forall_mem_cons, haccepted, List.foldlM_cons, fillEmptyDev, hfind]
      cases htext : expandTemplate m (p.1 ++ "=" ++ p.2).toList with
      | none =>
          refine iff_of_false ?_ fun h => absurd h.1 (by decide)
          dsimp only
          rw [htext]
          rintro ⟨out, hout⟩
          cases hout
      | some text =>
          have hrest : ∀ q ∈ fs, Asks q.1 (String.ofList (before ++ text ++ after)).toList := by
            intro q hq
            rw [String.toList_ofList, List.append_assoc]
            refine asks_fill hkey (hkeys q hq) ?_ hfind (hasks q hq) text
            exact fun heq => hnodup.1 (heq ▸ List.mem_map_of_mem hq)
          dsimp only
          rw [htext]
          refine (ih hkeys hnodup.2 hrest).trans ?_
          exact (and_iff_right rfl).symm

/-- The variables a section declares empty are there once the line feeds at its end
are gone. -/
theorem asks_rstrip {key : String} (hk : PlainKey key) {s : List Char} (h : Asks key s) :
    Asks key (rstripBy (· = '\n') s) := by
  induction s using List.reverseRecOn with
  | nil => exact h
  | append_singleton s c ih =>
      rw [rstripBy_append]
      by_cases hc : c = '\n'
      · subst hc
        have hgone : rstripBy (· = '\n') ['\n'] = [] := rfl
        rw [if_pos hgone]
        obtain ⟨l, hl, hstrip⟩ := h
        rw [split_sep] at hl
        rcases List.mem_append.mp hl with hl | hl
        · exact ih ⟨l, hl, hstrip⟩
        · obtain ⟨x, cs, hcs, -⟩ := hk.head ['=']
          rw [List.mem_singleton.mp hl, assignLine, hcs] at hstrip
          cases hstrip
      · have hkeep : rstripBy (· = '\n') [c] = [c] := by
          rw [rstripBy, List.reverse_singleton, List.dropWhile_cons_of_neg (by simpa using hc)]
          rfl
        rw [if_neg (by rw [hkeep]; exact List.cons_ne_nil c []), hkeep]
        exact h

/-- `inject_device_base` raises. -/
def InjectRaises (logwrites : Bool) (devices : List Device) (block : String) : Prop :=
  ∀ text, injectDeviceBase block devices logwrites ≠ .ok text

/-- The devices that go into empty variables are taken for replacements. -/
def Fillable (logwrites : Bool) (devices : List Device) (block : String) : Prop :=
  ∀ p ∈ fills block (devices.map Device.name) logwrites, Expands p

/-- The injector raises for want of devices, or of a name it can fill in. -/
theorem injectRaises_iff (logwrites : Bool) (devices : List Device) (block : String) :
    InjectRaises logwrites devices block ↔
      ((leftDevs block (devices.map Device.name) logwrites).length <
          2 + (sectionExternalDevs block).length ∨ ¬ Fillable logwrites devices block) := by
  have hmem : ∀ p ∈ fills block (devices.map Device.name) logwrites,
      p.1 ∈ sectionExternalDevs block := fun p hp => (List.of_mem_zip hp).1
  have hexternal : ∀ key ∈ sectionExternalDevs block, key ∈ externalDevKeys := fun key hkey =>
    List.mem_of_mem_filter hkey
  have hasks : ∀ p ∈ fills block (devices.map Device.name) logwrites,
      Asks p.1 (String.ofList (rstripBy (· = '\n') block.toList)).toList := by
    intro p hp
    have hk := (plainKey_external (hexternal _ (hmem p hp))).1
    rw [String.toList_ofList]
    refine asks_rstrip hk ((findEmptyDev_isSome_iff_asks hk _).mp ?_)
    exact (List.mem_filter.mp (hmem p hp)).2
  have hnodup : ((fills block (devices.map Device.name) logwrites).map Prod.fst).Nodup := by
    have hkeys : (sectionExternalDevs block).Nodup :=
      List.Nodup.filter _ (by decide)
    refine List.Nodup.sublist ?_ hkeys
    rw [fills, List.zip_eq_zip_take_min, List.map_fst_zip (by simp)]
    exact List.take_sublist _ _
  have hfill := fill_iff (fun p hp => hexternal _ (hmem p hp)) hnodup hasks
  have hok : (∃ text, injectDeviceBase block devices logwrites = .ok text) ↔
      2 + (sectionExternalDevs block).length ≤
        (leftDevs block (devices.map Device.name) logwrites).length ∧
      Fillable logwrites devices block := by
    rw [Fillable, ← hfill]
    simp only [injectDeviceBase_ok_iff]
    constructor
    · rintro ⟨text, hlen, body, hbody, -⟩
      exact ⟨hlen, body, hbody⟩
    · rintro ⟨hlen, body, hbody⟩
      exact ⟨_, hlen, body, hbody, rfl⟩
  rw [InjectRaises, ← not_exists, hok, not_and_or, Nat.not_le]

/-- With devices enough for the gate, only a name can stop the injector. -/
theorem injectRaises_of_enough {logwrites : Bool} {devices : List Device} {block : String}
    (htwo : 2 ≤ devices.length) (henough : ¬ TooFew logwrites devices block) :
    InjectRaises logwrites devices block ↔ ¬ Fillable logwrites devices block := by
  have hpos : sectionExternalDevs block ≠ [] ↔ 0 < (sectionExternalDevs block).length :=
    List.length_pos_iff.symm
  rw [injectRaises_iff, or_iff_right]
  rw [TooFew, hpos, not_or, not_and_or, not_and_or] at henough
  have hleft : (leftDevs block (devices.map Device.name) logwrites).length =
      if carves block logwrites = true then devices.length - 1 else devices.length := by
    rw [leftDevs]
    split_ifs
    · rw [List.length_dropLast, List.length_map]
    · exact List.length_map _
  rw [hleft, carves]
  cases logwrites <;> cases hasKey block "LOGWRITES_DEV"
  all_goals simp only [Bool.and_true, Bool.and_false, Bool.not_true, Bool.not_false, if_true,
    Bool.false_eq_true, if_false, not_true, not_false_iff, true_or, false_or, and_true] at henough ⊢
  all_goals omega

/-! ## The two counts -/

/-- A log device written into the block, and no device beyond those the section needs
without it. -/
def LogPinned (logwrites : Bool) (devices : List Device) (block : String) : Prop :=
  logwrites = true ∧ hasKey block "LOGWRITES_DEV" = true ∧
    devices.length = 2 + (sectionExternalDevs block).length

/-- The gate leaves a section out exactly when the injector would raise: but for a log
device in the block, and for a name that cannot be filled in. -/
theorem gate_iff {logwrites : Bool} {devices : List Device} {block : String}
    (htwo : 2 ≤ devices.length) :
    ((deviceReason logwrites devices block).isSome = true ↔
        InjectRaises logwrites devices block) ↔
      (LogPinned logwrites devices block → ¬ Fillable logwrites devices block) ∧
        (¬ TooFew logwrites devices block → Fillable logwrites devices block) := by
  rw [deviceReason_isSome_iff, injectRaises_iff]
  have hpos : sectionExternalDevs block ≠ [] ↔ 0 < (sectionExternalDevs block).length :=
    List.length_pos_iff.symm
  rw [TooFew, LogPinned, hpos, leftDevs, carves]
  generalize (sectionExternalDevs block).length = k
  generalize Fillable logwrites devices block = fillable
  cases logwrites <;> cases hasKey block "LOGWRITES_DEV"
  all_goals simp only [Bool.and_true, Bool.and_false, Bool.not_true, Bool.not_false, if_true,
    Bool.false_eq_true, if_false, List.length_dropLast, List.length_map, false_and, true_and,
    or_false]
  all_goals by_cases hf : fillable <;> simp only [hf, not_true, not_false_iff, or_false, or_true,
    iff_true, implies_true, imp_false, true_and, and_true]
  all_goals omega

theorem gate_three :
    ((deviceReason true [⟨"/dev/sda", none⟩, ⟨"/dev/sdb", none⟩, ⟨"/dev/sdc", none⟩]
          "[xfs_rt]\nTEST_RTDEV=\n").isSome = true ↔
        InjectRaises true [⟨"/dev/sda", none⟩, ⟨"/dev/sdb", none⟩, ⟨"/dev/sdc", none⟩]
          "[xfs_rt]\nTEST_RTDEV=\n") ↔
      (LogPinned true [⟨"/dev/sda", none⟩, ⟨"/dev/sdb", none⟩, ⟨"/dev/sdc", none⟩]
          "[xfs_rt]\nTEST_RTDEV=\n" →
        ¬ Fillable true [⟨"/dev/sda", none⟩, ⟨"/dev/sdb", none⟩, ⟨"/dev/sdc", none⟩]
          "[xfs_rt]\nTEST_RTDEV=\n") ∧
      (¬ TooFew true [⟨"/dev/sda", none⟩, ⟨"/dev/sdb", none⟩, ⟨"/dev/sdc", none⟩]
          "[xfs_rt]\nTEST_RTDEV=\n" →
        Fillable true [⟨"/dev/sda", none⟩, ⟨"/dev/sdb", none⟩, ⟨"/dev/sdc", none⟩]
          "[xfs_rt]\nTEST_RTDEV=\n") :=
  gate_iff (by decide)

/-- A section that can be bound, its log device written out, and left out. -/
theorem gate_pinned : ¬ ∀ (block : String) (devices : List Device) (logwrites : Bool),
    2 ≤ devices.length → ((deviceReason logwrites devices block).isSome = true ↔
      InjectRaises logwrites devices block) := by
  intro h
  have hgate := (h "[xfs_a]\nLOGWRITES_DEV=/dev/sdc\n" [⟨"/dev/sda", none⟩, ⟨"/dev/sdb", none⟩] true
    (by decide)).mp (by decide +kernel)
  have hok : (injectDeviceBase "[xfs_a]\nLOGWRITES_DEV=/dev/sdc\n"
      [⟨"/dev/sda", none⟩, ⟨"/dev/sdb", none⟩] true).isOk = true := by decide +kernel
  cases htext : injectDeviceBase "[xfs_a]\nLOGWRITES_DEV=/dev/sdc\n"
      [⟨"/dev/sda", none⟩, ⟨"/dev/sdb", none⟩] true with
  | ok text => exact hgate text htext
  | error e =>
      rw [htext] at hok
      cases hok

/-! ## The arming loop -/

/-- Where the gate and the injector agree on every section, no section that passes the
gates stops the render. -/
theorem armLoop_returns {u : Unicode} {a : RenderArgs} {cfg : String} {names : List String}
    (h : ∀ name ∈ names, skipReason u a.logwrites a.devices (sectionBlock cfg name) name = none →
      Fillable a.logwrites a.devices (sectionBlock cfg name)) (htwo : 2 ≤ a.devices.length)
    (acc : List Armed × List Skip) :
    ∃ out, names.foldlM (armStep u a cfg) acc = .ok out := by
  induction names generalizing acc with
  | nil => exact ⟨acc, rfl⟩
  | cons name names ih =>
      obtain ⟨hname, hnames⟩ := List.forall_mem_cons.mp h
      rw [List.foldlM_cons, armStep]
      cases hskip : skipReason u a.logwrites a.devices (sectionBlock cfg name) name with
      | some reason => exact ih hnames _
      | none =>
          have hfew : ¬ TooFew a.logwrites a.devices (sectionBlock cfg name) := by
            intro hfew
            have hsome := (skipReason_isSome_iff (u := u) a.logwrites a.devices
              (sectionBlock cfg name) name).mpr (.inr hfew)
            rw [hskip] at hsome
            cases hsome
          by_cases hraise : InjectRaises a.logwrites a.devices (sectionBlock cfg name)
          · exact absurd (hname hskip) ((injectRaises_of_enough htwo hfew).mp hraise)
          · rw [InjectRaises, not_forall] at hraise
            obtain ⟨text, htext⟩ := hraise
            rw [not_not] at htext
            simp only [htext]
            exact ih hnames _

end KdevopsNg.Fstests
