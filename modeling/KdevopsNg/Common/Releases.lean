/-
# `Common.Releases` — kernel.org's releases, cached

`_korg_releases` of `f/common/gitrefs.py`.  Two files carry what it knows from
one call to the next: the cached payload, with the time it was written, and a
marker stamped by an attempt that failed.  A call reads the cache while it is
young enough and parses, asks the server unless the marker is too fresh, and
serves the cache, whatever its age, where it does not ask or gets no good
answer.

The two clocks are followed over whole runs (`CacheKept`): the cache holds what it
held at first or the last good payload, and after a failure the server is left
alone for the retry window (`run_releases`).

What `json.loads` and `str` make of a value is an argument (`JsonReader`).
Times are exact rationals, and every write succeeds.
-/
import KdevopsNg.Common.Refs
import KdevopsNg.Py.Json
import Mathlib.Tactic.Linarith

namespace KdevopsNg.Common

open Py

/-! ## The payload -/

/-- Python's readers: `json.loads`, `none` where it raises, and `str`. -/
structure JsonReader where
  loads : List Char → Option Json
  str : Json → List Char

/-- What `read_text` makes of the line ends of a file. -/
def universalNewlines : List Char → List Char
  | [] => []
  | '\r' :: '\n' :: cs => '\n' :: universalNewlines cs
  | c :: cs => (if c = '\r' then '\n' else c) :: universalNewlines cs

theorem universalNewlines_of_not_mem {s : List Char} (h : '\r' ∉ s) : universalNewlines s = s := by
  induction s with
  | nil => rfl
  | cons c s ih =>
      rw [List.mem_cons, not_or] at h
      rw [universalNewlines, ih h.2, if_neg (Ne.symm h.1)]
      intro cs hc
      exact absurd hc.symm h.1

/-- No return is left. -/
theorem not_mem_universalNewlines (s : List Char) : '\r' ∉ universalNewlines s := by
  induction s using universalNewlines.induct with
  | case1 => exact List.not_mem_nil
  | case2 s ih =>
      rw [universalNewlines, List.mem_cons]
      exact fun h => h.elim (by decide) ih
  | case3 c s hcrlf ih =>
      rw [universalNewlines, List.mem_cons]
      · rintro (h | h)
        · split_ifs at h with hc
          · exact absurd h (by decide)
          · exact hc h.symm
        · exact ih h
      · exact hcrlf

/-- `_KORG_NUMERIC_RE`: two numbers, and a third or a candidate. -/
def korgNumeric (u : Unicode) (version : List Char) : Bool :=
  match digits u version with
  | some (_, '.' :: cs) =>
      match digits u cs with
      | some (_, '.' :: cs) =>
          match digits u cs with
          | some (_, cs) => atEnd cs
          | none => false
      | some (_, '-' :: 'r' :: 'c' :: cs) =>
          match digits u cs with
          | some (_, cs) => atEnd cs
          | none => false
      | some (_, cs) => atEnd cs
      | none => false
  | _ => false

section Korg

variable (u : Unicode) (r : JsonReader)

/-- One entry of `releases.json`; one without a version is passed over. -/
def releaseRow (rel : Json) : Except PyError (Option Release) := do
  let version := r.str (← rel.getD "version" (.str ""))
  if version = [] then return none
  else
    let tag := if korgNumeric u version then 'v' :: version else version
    let moniker := r.str (← rel.getD "moniker" (.str ""))
    let iseol := (← rel.getD "iseol" .null).truthy
    return some ⟨tag, moniker, iseol⟩

/-- The rows of a payload that was loaded. -/
def releaseRows (payload : Json) : Except PyError (List Release) := do
  let releases ← payload.getItem "releases"
  let rels ← releases.iter
  let rows ← rels.mapM (releaseRow u r)
  return rows.filterMap id

/-- `_parse_korg`. -/
def parseKorg (raw : Option (List Char)) : Option (List Release) :=
  match raw.bind r.loads with
  | none => none
  | some payload => (releaseRows u r payload).toOption

/-! ## The cache -/

/-- `korg-releases.json`, its text and when it was written, and when the
`.attempt` marker was stamped. -/
structure KorgFiles where
  cache : Option (List Char × ℚ)
  marker : Option ℚ

/-- A call: when it looks at the cache, when it looks at the marker, when it
writes, and what the server would answer within the deadline. -/
structure Call where
  start : ℚ
  checked : ℚ
  stamped : ℚ
  answer : Option (List Char)

/-- What a call returns, whether it asked the server, and the files it leaves. -/
structure Reply where
  rows : List Release
  attempted : Bool
  files : KorgFiles

/-- `_KORG_CACHE_TTL`. -/
def korgCacheTtl : ℚ := 3600

/-- `_KORG_RETRY_WINDOW`. -/
def korgRetryWindow : ℚ := 60

/-- `_mtime_within`. -/
def mtimeWithin (now : ℚ) (mtime : Option ℚ) (window : ℚ) : Bool :=
  match mtime with
  | none => false
  | some m => decide (now - m < window)

/-- `_read_cache`. -/
def KorgFiles.readCache (s : KorgFiles) : Option (List Char) :=
  s.cache.map fun p => universalNewlines p.1

/-- What a call serves without a good answer. -/
def staleRows (s : KorgFiles) : List Release := (parseKorg u r s.readCache).getD []

/-- `_korg_releases`, once the cache alone does not do. -/
def askServer (call : Call) (s : KorgFiles) : Reply :=
  if mtimeWithin call.checked s.marker korgRetryWindow then ⟨staleRows u r s, false, s⟩
  else match parseKorg u r call.answer with
    | some rows => ⟨rows, true, ⟨call.answer.map fun raw => (raw, call.stamped), none⟩⟩
    | none => ⟨staleRows u r s, true, { s with marker := some call.stamped }⟩

/-- `_korg_releases`. -/
def korgReleases (call : Call) (s : KorgFiles) : Reply :=
  let fresh := if mtimeWithin call.start (s.cache.map Prod.snd) korgCacheTtl then
      parseKorg u r s.readCache
    else none
  match fresh with
  | some rows => ⟨rows, false, s⟩
  | none => askServer u r call s

/-! ## One call -/

/-- The four ways a call can go. -/
inductive Goes (call : Call) (s : KorgFiles) : Reply → Prop where
  | fresh {rows : List Release}
      (hyoung : mtimeWithin call.start (s.cache.map Prod.snd) korgCacheTtl = true)
      (hparse : parseKorg u r s.readCache = some rows) : Goes call s ⟨rows, false, s⟩
  | throttled
      (hold : mtimeWithin call.start (s.cache.map Prod.snd) korgCacheTtl = false ∨
        parseKorg u r s.readCache = none)
      (hmarker : mtimeWithin call.checked s.marker korgRetryWindow = true) :
      Goes call s ⟨staleRows u r s, false, s⟩
  | fetched {raw : List Char} {rows : List Release}
      (hold : mtimeWithin call.start (s.cache.map Prod.snd) korgCacheTtl = false ∨
        parseKorg u r s.readCache = none)
      (hmarker : mtimeWithin call.checked s.marker korgRetryWindow = false)
      (hanswer : call.answer = some raw) (hparse : parseKorg u r (some raw) = some rows) :
      Goes call s ⟨rows, true, ⟨some (raw, call.stamped), none⟩⟩
  | failed
      (hold : mtimeWithin call.start (s.cache.map Prod.snd) korgCacheTtl = false ∨
        parseKorg u r s.readCache = none)
      (hmarker : mtimeWithin call.checked s.marker korgRetryWindow = false)
      (hparse : parseKorg u r call.answer = none) :
      Goes call s ⟨staleRows u r s, true, { s with marker := some call.stamped }⟩

theorem askServer_goes {call : Call} {s : KorgFiles}
    (hold : mtimeWithin call.start (s.cache.map Prod.snd) korgCacheTtl = false ∨
      parseKorg u r s.readCache = none) : Goes u r call s (askServer u r call s) := by
  unfold askServer
  cases hmarker : mtimeWithin call.checked s.marker korgRetryWindow with
  | true => exact .throttled hold hmarker
  | false =>
      cases hparse : parseKorg u r call.answer with
      | none => exact .failed hold hmarker hparse
      | some rows =>
          cases hanswer : call.answer with
          | none =>
              rw [hanswer] at hparse
              cases hparse
          | some raw =>
              rw [hanswer] at hparse
              exact .fetched hold hmarker hanswer hparse

theorem korgReleases_goes (call : Call) (s : KorgFiles) :
    Goes u r call s (korgReleases u r call s) := by
  unfold korgReleases
  dsimp only
  cases hyoung : mtimeWithin call.start (s.cache.map Prod.snd) korgCacheTtl with
  | false => exact askServer_goes u r (.inl hyoung)
  | true =>
      rw [if_pos rfl]
      cases hparse : parseKorg u r s.readCache with
      | none => exact askServer_goes u r (.inr hparse)
      | some rows => exact .fresh hyoung hparse

/-! ## Runs -/

/-- The calls of a run with their replies. -/
def record : KorgFiles → List Call → List (Call × Reply)
  | _, [] => []
  | s, call :: calls =>
      (call, korgReleases u r call s) :: record (korgReleases u r call s).files calls

/-- The files after a run. -/
def afterCalls (s : KorgFiles) (calls : List Call) : KorgFiles :=
  calls.foldl (fun s call => (korgReleases u r call s).files) s

/-- An attempt that got a payload that parses. -/
def Fetched (e : Call × Reply) : Prop :=
  e.2.attempted = true ∧ (parseKorg u r e.1.answer).isSome = true

/-- An attempt that got none. -/
def Failed (e : Call × Reply) : Prop :=
  e.2.attempted = true ∧ parseKorg u r e.1.answer = none

instance (e : Call × Reply) : Decidable (Fetched u r e) :=
  inferInstanceAs (Decidable (_ ∧ _))

/-- The last payload a run fetched. -/
def lastFetched (log : List (Call × Reply)) : Option (List Char) :=
  (log.reverse.find? fun e => decide (Fetched u r e)).bind fun e => e.1.answer

/-- The times of a run do not go back. -/
structure InTime (calls : List Call) : Prop where
  within : ∀ call ∈ calls, call.start ≤ call.checked ∧ call.checked ≤ call.stamped
  apart : calls.Pairwise fun c d => c.stamped ≤ d.start

theorem record_snoc (s : KorgFiles) (calls : List Call) (call : Call) :
    record u r s (calls ++ [call]) =
      record u r s calls ++ [(call, korgReleases u r call (afterCalls u r s calls))] := by
  induction calls generalizing s with
  | nil => rfl
  | cons c calls ih =>
      rw [List.cons_append, record, record, ih, List.cons_append]
      rfl

theorem afterCalls_snoc (s : KorgFiles) (calls : List Call) (call : Call) :
    afterCalls u r s (calls ++ [call]) =
      (korgReleases u r call (afterCalls u r s calls)).files := by
  unfold afterCalls
  rw [List.foldl_append, List.foldl_cons, List.foldl_nil]

theorem lastFetched_snoc (log : List (Call × Reply)) (e : Call × Reply) :
    lastFetched u r (log ++ [e]) = if Fetched u r e then e.1.answer else lastFetched u r log := by
  unfold lastFetched
  rw [List.reverse_append, List.reverse_singleton, List.singleton_append, List.find?_cons]
  by_cases h : Fetched u r e
  · rw [if_pos h, decide_eq_true h]
    rfl
  · rw [if_neg h, decide_eq_false h]

/-- What the files keep after a run of calls that began with `s₀`. -/
structure CacheKept (s₀ : KorgFiles) (calls : List Call) : Prop where
  /-- the last good payload is in the cache, and nothing else was written there -/
  payload : (afterCalls u r s₀ calls).cache = s₀.cache ∧ lastFetched u r (record u r s₀ calls) = none ∨
    ∃ raw t, (afterCalls u r s₀ calls).cache = some (raw, t) ∧
      lastFetched u r (record u r s₀ calls) = some raw ∧ (parseKorg u r (some raw)).isSome = true
  /-- a failed attempt still shows in the marker, or a later attempt fell outside its window -/
  stamped : ∀ e ∈ record u r s₀ calls, Failed u r e →
    (∃ m, (afterCalls u r s₀ calls).marker = some m ∧ e.1.stamped ≤ m) ∨
      ∃ e' ∈ record u r s₀ calls, e.1.stamped + korgRetryWindow ≤ e'.1.stamped
  /-- only failed attempts stamp the marker -/
  marker : ∀ m, (afterCalls u r s₀ calls).marker = some m →
    s₀.marker = some m ∨ ∃ e ∈ record u r s₀ calls, Failed u r e ∧ m = e.1.stamped

variable {u r}

theorem mem_record {calls : List Call} {e : Call × Reply} :
    ∀ {s : KorgFiles}, e ∈ record u r s calls → e.1 ∈ calls := by
  induction calls with
  | nil => exact fun h => (List.not_mem_nil h).elim
  | cons call calls ih =>
      intro s h
      rcases List.mem_cons.mp h with rfl | h
      · exact List.mem_cons_self
      · exact List.mem_cons_of_mem _ (ih h)

theorem InTime.before {calls : List Call} {call : Call} (h : InTime (calls ++ [call])) :
    InTime calls where
  within c hc := h.within c (List.mem_append_left _ hc)
  apart := (List.pairwise_append.mp h.apart).1

theorem InTime.later {calls : List Call} {call : Call} (h : InTime (calls ++ [call]))
    {c : Call} (hc : c ∈ calls) : c.stamped ≤ call.checked :=
  ((List.pairwise_append.mp h.apart).2.2 c hc call List.mem_cons_self).trans
    (h.within call (List.mem_append_right _ List.mem_cons_self)).1

/-- A file not younger than a window. -/
theorem le_of_not_within {now m window : ℚ} (h : mtimeWithin now (some m) window = false) :
    m + window ≤ now := by
  have hle := not_lt.mp (of_decide_eq_false h)
  linarith

theorem kept_start (s₀ : KorgFiles) : CacheKept u r s₀ [] where
  payload := .inl ⟨rfl, rfl⟩
  stamped _ h := (List.not_mem_nil h).elim
  marker _ h := .inl h

/-- A call keeps the account. -/
theorem kept_call {s₀ : KorgFiles} {calls : List Call} {call : Call}
    (hin : InTime (calls ++ [call])) (h : CacheKept u r s₀ calls) :
    CacheKept u r s₀ (calls ++ [call]) := by
  have hgo := korgReleases_goes u r call (afterCalls u r s₀ calls)
  have hrecord := record_snoc u r s₀ calls call
  have hafter := afterCalls_snoc u r s₀ calls call
  generalize korgReleases u r call (afterCalls u r s₀ calls) = reply at hgo hrecord hafter
  have hold : ∀ {e : Call × Reply}, e ∈ record u r s₀ calls →
      e ∈ record u r s₀ calls ++ [(call, reply)] := fun he => List.mem_append_left _ he
  -- a call that does not ask leaves the files and adds neither a payload nor a failure
  have hquiet : reply.attempted = false → reply.files = afterCalls u r s₀ calls →
      CacheKept u r s₀ (calls ++ [call]) := by
    intro hidle hsame
    have hnotFetched : ¬ Fetched u r (call, reply) := fun hf => by
      have := hf.1
      rw [hidle] at this
      cases this
    refine ⟨?_, ?_, ?_⟩
    · rw [hafter, hsame, hrecord, lastFetched_snoc, if_neg hnotFetched]
      exact h.payload
    · rw [hafter, hsame, hrecord]
      intro e he hfailed
      rcases List.mem_append.mp he with he | he
      · exact (h.stamped e he hfailed).imp_right fun ⟨e', he', hle⟩ => ⟨e', hold he', hle⟩
      · rw [List.mem_singleton.mp he] at hfailed
        have := hfailed.1
        rw [hidle] at this
        cases this
    · rw [hafter, hsame, hrecord]
      intro m hm
      exact (h.marker m hm).imp_right fun ⟨e, he, hfailed⟩ => ⟨e, hold he, hfailed⟩
  have htimes := hin.within call (List.mem_append_right _ List.mem_cons_self)
  cases hgo with
  | fresh _ _ => exact hquiet rfl rfl
  | throttled _ _ => exact hquiet rfl rfl
  | @fetched raw rows _ hmarker hanswer hparse =>
      have hsome : (parseKorg u r (some raw)).isSome = true := by
        rw [hparse]
        rfl
      refine ⟨.inr ⟨raw, call.stamped, ?_, ?_, hsome⟩, ?_, ?_⟩
      · rw [hafter]
      · rw [hrecord, lastFetched_snoc, if_pos ⟨rfl, by rw [hanswer]; exact hsome⟩]
        exact hanswer
      · -- the marker was old enough for this attempt, so it lies past the window of each failure
        rw [hrecord]
        intro e he hfailed
        right
        rcases List.mem_append.mp he with he | he
        · rcases h.stamped e he hfailed with ⟨m, hm, hle⟩ | ⟨e', he', hle⟩
          · rw [hm] at hmarker
            refine ⟨_, List.mem_append_right _ List.mem_cons_self, ?_⟩
            have := le_of_not_within hmarker
            exact (add_le_add_left hle _).trans (this.trans htimes.2)
          · exact ⟨e', hold he', hle⟩
        · rw [List.mem_singleton.mp he] at hfailed
          have := hfailed.2
          rw [hanswer, hparse] at this
          cases this
      · rw [hafter]
        intro m hm
        cases hm
  | failed _ hmarker hparse =>
      have hnotFetched : ¬ Fetched u r (call, ⟨staleRows u r (afterCalls u r s₀ calls), true,
          { afterCalls u r s₀ calls with marker := some call.stamped }⟩) := fun hf => by
        have := hf.2
        rw [hparse] at this
        cases this
      refine ⟨?_, ?_, ?_⟩
      · rw [hafter, hrecord, lastFetched_snoc, if_neg hnotFetched]
        exact h.payload
      · rw [hafter, hrecord]
        intro e he _
        refine .inl ⟨call.stamped, rfl, ?_⟩
        rcases List.mem_append.mp he with he | he
        · exact (hin.later (mem_record he)).trans htimes.2
        · rw [List.mem_singleton.mp he]
      · rw [hafter, hrecord]
        intro m hm
        cases hm
        exact .inr ⟨_, List.mem_append_right _ List.mem_cons_self, ⟨rfl, hparse⟩, rfl⟩

/-- Every run keeps it. -/
theorem kept_run (s₀ : KorgFiles) {calls : List Call} (h : InTime calls) : CacheKept u r s₀ calls := by
  induction calls using List.reverseRecOn with
  | nil => exact kept_start s₀
  | append_singleton calls call ih => exact kept_call h (ih h.before)

/-! ## What a run returns, and when it asks -/

/-- Reading a payload back from the cache gives its rows. -/
theorem parseKorg_readCache (hloads : ∀ raw, r.loads (universalNewlines raw) = r.loads raw)
    (raw : List Char) :
    parseKorg u r (some (universalNewlines raw)) = parseKorg u r (some raw) := by
  unfold parseKorg
  rw [Option.bind_some, Option.bind_some, hloads]

/-- The rows of the cache after a run. -/
theorem readCache_of_kept (hloads : ∀ raw, r.loads (universalNewlines raw) = r.loads raw)
    {s₀ : KorgFiles} {calls : List Call} (h : CacheKept u r s₀ calls) :
    parseKorg u r (afterCalls u r s₀ calls).readCache =
      parseKorg u r ((lastFetched u r (record u r s₀ calls)).or s₀.readCache) := by
  unfold KorgFiles.readCache
  rcases h.payload with ⟨hsame, hnone⟩ | ⟨raw, t, hcache, hlast, -⟩
  · rw [hsame, hnone, Option.none_or]
  · rw [hcache, hlast, Option.map_some, Option.some_or]
    exact parseKorg_readCache hloads raw

/-- The release cache, after any run of calls and for the next call: the cache
holds what it held at first or a payload that parses; the call returns the rows
of the last payload fetched, its own included, or those of the first content, or
none; it does not ask while the cache is young and parses, nor within the window
of any failed attempt; and it asks once both windows are past. -/
theorem run_releases (hloads : ∀ raw, r.loads (universalNewlines raw) = r.loads raw)
    (s₀ : KorgFiles) (calls : List Call) (call : Call) (hin : InTime (calls ++ [call])) :
    ((afterCalls u r s₀ calls).cache = s₀.cache ∨ ∃ raw t,
        (afterCalls u r s₀ calls).cache = some (raw, t) ∧
          (parseKorg u r (some raw)).isSome = true) ∧
      (korgReleases u r call (afterCalls u r s₀ calls)).rows =
        (parseKorg u r ((lastFetched u r (record u r s₀ (calls ++ [call]))).or
          s₀.readCache)).getD [] ∧
      (mtimeWithin call.start ((afterCalls u r s₀ calls).cache.map Prod.snd) korgCacheTtl = true →
        (parseKorg u r (afterCalls u r s₀ calls).readCache).isSome = true →
        (korgReleases u r call (afterCalls u r s₀ calls)).attempted = false) ∧
      (∀ e ∈ record u r s₀ calls, Failed u r e →
        call.checked - e.1.stamped < korgRetryWindow →
        (korgReleases u r call (afterCalls u r s₀ calls)).attempted = false) ∧
      (mtimeWithin call.start ((afterCalls u r s₀ calls).cache.map Prod.snd) korgCacheTtl = false →
        mtimeWithin call.checked s₀.marker korgRetryWindow = false →
        (∀ e ∈ record u r s₀ calls, Failed u r e →
          korgRetryWindow ≤ call.checked - e.1.stamped) →
        (korgReleases u r call (afterCalls u r s₀ calls)).attempted = true) := by
  have hkept := kept_run (u := u) (r := r) s₀ hin.before
  have hcache := readCache_of_kept hloads hkept
  have hgo := korgReleases_goes u r call (afterCalls u r s₀ calls)
  have hrecord := record_snoc u r s₀ calls call
  generalize korgReleases u r call (afterCalls u r s₀ calls) = reply at hgo hrecord
  rw [hrecord, lastFetched_snoc]
  refine ⟨?_, ?_, ?_, ?_, ?_⟩
  · rcases hkept.payload with ⟨hsame, -⟩ | ⟨raw, t, hheld, -, hparse⟩
    · exact .inl hsame
    · exact .inr ⟨raw, t, hheld, hparse⟩
  · cases hgo with
    | @fresh rows _ hparse =>
        rw [if_neg (fun hf => by cases hf.1), ← hcache, hparse]
        rfl
    | throttled _ _ =>
        rw [if_neg (fun hf => by cases hf.1), ← hcache]
        rfl
    | @fetched raw rows _ _ hanswer hparse =>
        rw [if_pos ⟨rfl, by rw [hanswer, hparse]; rfl⟩, hanswer, Option.some_or, hparse]
        rfl
    | failed _ _ hparse =>
        rw [if_neg (fun hf => by have := hf.2; rw [hparse] at this; cases this), ← hcache]
        rfl
  · intro hyoung hparses
    have hnot : ¬ (mtimeWithin call.start ((afterCalls u r s₀ calls).cache.map Prod.snd)
        korgCacheTtl = false ∨ parseKorg u r (afterCalls u r s₀ calls).readCache = none) := by
      rintro (hold | hnone)
      · rw [hyoung] at hold
        cases hold
      · rw [hnone] at hparses
        cases hparses
    cases hgo with
    | fresh _ _ => rfl
    | throttled _ _ => rfl
    | fetched hold _ _ _ => exact (hnot hold).elim
    | failed hold _ _ => exact (hnot hold).elim
  · intro e he hfailed hwithin
    -- an attempt now would find the marker of that failure, or of a later one, too fresh
    have hmarker : mtimeWithin call.checked (afterCalls u r s₀ calls).marker
        korgRetryWindow = true := by
      rcases hkept.stamped e he hfailed with ⟨m, hm, hle⟩ | ⟨e', he', hle⟩
      · rw [hm]
        exact decide_eq_true (by linarith)
      · have := hin.later (mem_record he')
        linarith
    cases hgo with
    | fresh _ _ => rfl
    | throttled _ _ => rfl
    | fetched _ hfree _ _ => rw [hmarker] at hfree; cases hfree
    | failed _ hfree _ => rw [hmarker] at hfree; cases hfree
  · intro hold hfirst hfailures
    have hmarker : mtimeWithin call.checked (afterCalls u r s₀ calls).marker
        korgRetryWindow = false := by
      cases hm : (afterCalls u r s₀ calls).marker with
      | none => rfl
      | some m =>
          rcases hkept.marker m hm with hsame | ⟨e, he, hfailed, rfl⟩
          · rw [← hsame]
            exact hfirst
          · exact decide_eq_false (not_lt.mpr (hfailures e he hfailed))
    cases hgo with
    | fresh hyoung _ => rw [hold] at hyoung; cases hyoung
    | throttled _ hstamped => rw [hmarker] at hstamped; cases hstamped
    | fetched _ _ _ _ => rfl
    | failed _ _ _ => rfl

end Korg

theorem universalNewlines_idem (cs : List Char) :
    universalNewlines (universalNewlines cs) = universalNewlines cs := by
  induction cs using universalNewlines.induct with
  | case1 => rfl
  | case2 cs ih =>
      rw [universalNewlines, universalNewlines, ih]
      · rfl
      · simp
  | case3 c cs hcr ih =>
      rw [universalNewlines, universalNewlines, ih]
      · by_cases hc : c = '\r'
        · simp [hc]
        · simp [hc]
      · intro _ h
        by_cases hc : c = '\r'
        · simp [hc] at h
        · simp [hc] at h
      · exact hcr

/-- A reader of one payload, whatever its line ends. -/
def emptyListReader : JsonReader where
  loads raw :=
    if universalNewlines raw = "\x7b\"releases\": []\x7d".toList then
      some (.obj [("releases", .arr [])])
    else none
  str _ := []

/-- The server was down seven seconds ago: it is not asked again. -/
theorem run_releases_outage :
    (korgReleases ⟨fun _ => none, fun _ => false⟩ emptyListReader
      ⟨10, 10, 10, some "\x7b\"releases\": []\x7d".toList⟩
      (afterCalls ⟨fun _ => none, fun _ => false⟩ emptyListReader ⟨none, none⟩
        [⟨0, 0, 3, none⟩])).attempted = false := by
  have hloads : ∀ raw, emptyListReader.loads (universalNewlines raw) =
      emptyListReader.loads raw := by
    intro raw
    unfold emptyListReader
    dsimp only
    rw [universalNewlines_idem]
  have hin : InTime ([⟨0, 0, 3, none⟩] ++ [⟨10, 10, 10, some "\x7b\"releases\": []\x7d".toList⟩]) :=
    ⟨by simp, by simp; norm_num⟩
  refine (run_releases hloads ⟨none, none⟩ _ _ hin).2.2.2.1 _ List.mem_cons_self ⟨rfl, rfl⟩ ?_
  unfold korgRetryWindow
  norm_num

end KdevopsNg.Common
