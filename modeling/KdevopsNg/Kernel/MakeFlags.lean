/-
# `Kernel.MakeFlags` — the make flags of a kernel build

`main` of `f/kernel/build_flags.py` composes the make flags of a build from its
knobs and the flags the user gave; `counting` of `f/kernel/checks.py` adds two more
for a check that counts warnings.

    kcflags, the path-prefix map, -Wno-error    into KCFLAGS
    the path-prefix map                         into KAFLAGS
    --cap-lints=warn                            into KRUSTFLAGS

`keepsFlags_iff` is when both keep what the user gave: make reads the user's flags
and the added ones behind them, and every other word is still there (`KeepsFlags`).
They do where the first `VAR=` word is the last to assign the variable, or none does
(`Merges`); where a later word assigns it again, what was added is lost.
-/
import KdevopsNg.Kernel.MakeVars
import KdevopsNg.Py.Sort
import Mathlib.Data.List.Dedup
import Mathlib.Data.String.Basic

namespace KdevopsNg.Kernel

open Py Py.Text Py.Shlex

/-! ## `build_flags` -/

/-- `_FIXED_TIMESTAMP`. -/
def fixedTimestamp : List Char := "Sun Aug 25 20:57:08 UTC 1991".toList

/-- The arguments of `main`; a list that is `None` is the empty one. -/
structure FlagForm where
  compiler : String
  reproducible : Bool
  ccache : Bool
  ccacheMaxSize : ℤ
  timestampFromCommit : Bool
  makeFlags : String
  extraWarn : List String
  kcflags : List String
  worktree : String
  buildDir : String
  commit : String

/-- What `main` asks of the host: the directory it runs in, `write_ccache_conf`, what the
devShell prints of clang, and the date git has of a commit. -/
structure FlagHost where
  cwd : Path
  writeCcacheConf : ℤ → Except PyError String
  devShell : Except PyError String
  commitDate : String → String → Except PyError String

section
variable (host : FlagHost) (f : FlagForm)

/-- `_clang_toolchain`. -/
def clangToolchain : Except PyError (List Char × List Char) := do
  let out ← host.devShell
  let cc := strip (out.toList.takeWhile (· ≠ '\n'))
  let resource := strip ((out.toList.dropWhile (· ≠ '\n')).drop 1)
  if cc = [] ∨ resource = [] then
    .error (.runtimeError "build-kernel devShell exported no KERNEL_CLANG_CC/RESOURCE")
  else .ok (cc, resource)

/-- The parts of the compiler. -/
def compilerParts : Except PyError (List Word) :=
  if f.compiler = "clang" then
    (clangToolchain host).map fun tool =>
      ["LLVM=1".toList,
        if f.ccache then "CC=ccache ".toList ++ tool.1 else "CC=".toList ++ tool.1,
        "CFLAGS_KERNEL=-I".toList ++ tool.2, "CFLAGS_MODULE=-I".toList ++ tool.2]
  else .ok (if f.ccache then ["CC=ccache ".toList ++ f.compiler.toList] else [])

/-- The time a reproducible build says it was made. -/
def timestamp : Except PyError (List Char) :=
  if f.timestampFromCommit ∧ f.worktree ≠ "" ∧ f.commit ≠ "" then
    (host.commitDate f.worktree f.commit).map fun date =>
      if strip date.toList = [] then fixedTimestamp else strip date.toList
  else .ok fixedTimestamp

/-- The parts of a reproducible build. -/
def reproducibleParts : Except PyError (List Word) :=
  if f.reproducible then
    (timestamp host f).map fun time =>
      ["KBUILD_BUILD_TIMESTAMP=".toList ++ time, "KBUILD_BUILD_USER=kdevops".toList,
        "KBUILD_BUILD_HOST=kdevops".toList, "LOCALVERSION=".toList]
  else .ok []

/-- `os.path.commonpath` of two paths. -/
def commonPath : Path → Path → Path
  | a :: as, b :: bs => if a = b then a :: commonPath as bs else []
  | _, _ => []

/-- The path-prefix map, or none. -/
def prefixMap : List Char :=
  if f.reproducible ∧ f.worktree ≠ "" ∧ f.buildDir ≠ "" then
    let common := commonPath (Text.resolve host.cwd f.worktree) (Text.resolve host.cwd f.buildDir)
    "-fdebug-prefix-map=".toList ++ ("/" ++ Text.join "/" common).toList ++ "/=".toList
  else []

/-- The levels of warnings. -/
def warnParts : List Word :=
  if f.extraWarn = [] then []
  else ["W=".toList ++ (sortBy id f.extraWarn.dedup).flatMap String.toList]

/-- The words of the user's own flags. -/
def userWords : Except PyError (List Word) :=
  if f.makeFlags = "" then .ok [] else split f.makeFlags.toList

/-- `_merge_kcflags`. -/
def mergeKcflags (extra : List Word) (kcflags : List String) : List Word :=
  mergeLast .kcflags ([' '].intercalate (kcflags.map String.toList)) extra

/-- `_merge_prefix_map`: the parts it leaves, and the user's words. -/
def mergePrefixMap (map : List Char) (parts extra : List Word) : List Word × List Word :=
  [FlagVar.kcflags, .kaflags].foldl (fun s v => mergeFirst v map s.1 s.2) (parts, extra)

/-- The words of the make flags, of the parts and the user's words. -/
def combine (parts extra : List Word) : List Word :=
  let extra := if f.kcflags = [] then extra else mergeKcflags extra f.kcflags
  let s := if prefixMap host f = [] then (parts, extra)
    else mergePrefixMap (prefixMap host f) parts extra
  s.1 ++ s.2

/-- The ccache configuration, when there is to be one. -/
def ccacheConf : Except PyError (Option String) :=
  if f.ccache then (host.writeCcacheConf f.ccacheMaxSize).map some else .ok none

/-- `main` of `build_flags`: the make flags and the ccache configuration. -/
def buildFlags : Except PyError (String × Option String) :=
  if f.compiler ≠ "gcc" ∧ f.compiler ≠ "clang" then
    .error (.valueError ("compiler must be gcc or clang, got " ++ Text.repr f.compiler))
  else do
    let conf ← ccacheConf host f
    let compiler ← compilerParts host f
    let reproducible ← reproducibleParts host f
    let extra ← userWords f
    let words := combine host f (compiler ++ reproducible ++ warnParts f) extra
    return (String.ofList (Shlex.join words), conf)

end

/-! ## `counting` -/

/-- The flags that keep warnings warnings. -/
def countingFlags : List (FlagVar × List Char) :=
  [(.kcflags, "-Wno-error".toList), (.krustflags, "--cap-lints=warn".toList)]

/-- The words with them merged in. -/
def keepWarnings (ts : List Word) : List Word :=
  countingFlags.foldl (fun ts s => mergeLast s.1 s.2 ts) ts

/-- `counting`. -/
def counting (makeFlags : String) : Except PyError String :=
  (split makeFlags.toList).map fun ts => String.ofList (Shlex.join (keepWarnings ts))

/-! ## What is to be kept -/

/-- The flags `main` adds to a variable. -/
def mainAdds (host : FlagHost) (f : FlagForm) : FlagVar → List Word
  | .kcflags => f.kcflags.flatMap (fun s => words s.toList) ++ words (prefixMap host f)
  | .kaflags => words (prefixMap host f)
  | .krustflags => []

/-- The flags `counting` adds to a variable. -/
def countingAdds : FlagVar → List Word
  | .kcflags => ["-Wno-error".toList]
  | .kaflags => []
  | .krustflags => ["--cap-lints=warn".toList]

/-- The user's words are kept: make reads what it would of them and then the added flags,
and the words that assign none of the variables are all there, in order. -/
structure KeepsWords (user final : List Word) (added : FlagVar → List Word) : Prop where
  read : ∀ v, (makeWords v user ++ added v).Sublist (makeWords v final)
  others : (user.filter isOther).Sublist final

/-- `main` keeps the user's words, and so does `counting` of what it returns. -/
def KeepsFlags (host : FlagHost) (f : FlagForm) (user : List Word) (out : String) : Prop :=
  (∃ ts, split out.toList = .ok ts ∧ KeepsWords user ts (mainAdds host f)) ∧
    ∃ text ts, counting out = .ok text ∧ split text.toList = .ok ts ∧
      KeepsWords user ts fun v => mainAdds host f v ++ countingAdds v

/-- The first `VAR=` word is the last to assign the variable, or no word assigns it. -/
def Place.Open : Place → Prop
  | absent => True
  | hidden _ => False
  | heard _ => True
  | covered _ => False

instance : DecidablePred Place.Open
  | .absent => .isTrue trivial
  | .hidden _ => .isFalse id
  | .heard _ => .isTrue trivial
  | .covered _ => .isFalse id

/-- Every variable that takes flags is open to them.  A value without a word, assigned by no
`VAR=` word, may be lost where the flags go behind it. -/
structure Merges (host : FlagHost) (f : FlagForm) (user : List Word) : Prop where
  kcflags : (place .kcflags user).Open ∨
    place .kcflags user = .hidden [] ∧ (f.kcflags ≠ [] ∨ prefixMap host f = [])
  kaflags : (place .kaflags user).Open ∨ prefixMap host f = []
  krustflags : (place .krustflags user).Open ∨ place .krustflags user = .hidden []

/-! ## The parts assign none of the variables -/

/-- Words that assign none of the variables. -/
def Quiet (ts : List Word) : Prop := ∀ v, ∀ t ∈ ts, assigned v t = none

theorem Quiet.append {xs ys : List Word} (hx : Quiet xs) (hy : Quiet ys) : Quiet (xs ++ ys) := by
  intro v t ht
  rcases List.mem_append.mp ht with h | h
  · exact hx v t h
  · exact hy v t h

theorem Quiet.nil : Quiet [] := fun _ _ h => absurd h List.not_mem_nil

theorem Quiet.cons {t : Word} {ts : List Word} (ht : ∀ v, assigned v t = none) (hts : Quiet ts) :
    Quiet (t :: ts) := by
  intro v x hx
  rcases List.mem_cons.mp hx with rfl | h
  · exact ht v
  · exact hts v x h

section
variable {host : FlagHost} {f : FlagForm}

theorem compilerParts_quiet {ps : List Word} (h : compilerParts host f = .ok ps) : Quiet ps := by
  rw [compilerParts] at h
  split at h
  · obtain ⟨tool, -, rfl⟩ := except_map_ok.mp h
    refine .cons (fun v => by cases v <;> rfl) (.cons (fun v => ?_) (.cons (fun v => ?_)
      (.cons (fun v => ?_) .nil)))
    · split <;> cases v <;> rfl
    · cases v <;> rfl
    · cases v <;> rfl
  · cases h
    split
    · exact .cons (fun v => by cases v <;> rfl) .nil
    · exact .nil

theorem reproducibleParts_quiet {ps : List Word} (h : reproducibleParts host f = .ok ps) :
    Quiet ps := by
  rw [reproducibleParts] at h
  split at h
  · obtain ⟨time, -, rfl⟩ := except_map_ok.mp h
    refine .cons (fun v => ?_) (.cons (fun v => ?_) (.cons (fun v => ?_) (.cons (fun v => ?_) .nil)))
    · cases v <;> rfl
    · cases v <;> rfl
    · cases v <;> rfl
    · cases v <;> rfl
  · cases h
    exact .nil

theorem warnParts_quiet (f : FlagForm) : Quiet (warnParts f) := by
  rw [warnParts]
  split
  · exact .nil
  · exact .cons (fun v => by cases v <;> rfl) .nil

/-! ## Where the merges leave the flags -/

/-- What `main` makes of the place of a variable. -/
def mainPlace (host : FlagHost) (f : FlagForm) : FlagVar → Place → Place
  | .kcflags, p =>
      let picked := f.kcflags.flatMap fun s => words s.toList
      let p := if f.kcflags = [] then p else p.addLast picked
      if prefixMap host f = [] then p else p.addFirst (words (prefixMap host f))
  | .kaflags, p => if prefixMap host f = [] then p else p.addFirst (words (prefixMap host f))
  | .krustflags, p => p

/-- What `counting` makes of it. -/
def countingPlace : FlagVar → Place → Place
  | .kcflags, p => p.addLast (countingAdds .kcflags)
  | .kaflags, p => p
  | .krustflags, p => p.addLast (countingAdds .krustflags)

/-- A variable of no concern to a merge stands as before. -/
theorem place_of_apart {v w : FlagVar} (h : w ≠ v) {xs ys : List Word}
    (hxy : apart v xs = apart v ys) : place w xs = place w ys := by
  rw [← place_apart h, hxy, place_apart h]

theorem others_of_apart (v : FlagVar) {xs ys : List Word} (hxy : apart v xs = apart v ys) :
    xs.filter isOther = ys.filter isOther := by
  rw [← filter_isOther_apart v, hxy, filter_isOther_apart]

theorem place_mergeKcflags (v : FlagVar) (extra : List Word) (kcflags : List String) :
    place v (mergeKcflags extra kcflags) =
      if v = .kcflags then (place v extra).addLast (kcflags.flatMap fun s => words s.toList)
      else place v extra := by
  rw [mergeKcflags]
  split
  · next hv =>
      rw [hv, place_mergeLast, words_intercalate, List.flatMap_map]
  · next hv => exact place_of_apart hv (apart_mergeLast ..)

/-- The merges of the path-prefix map, behind parts that assign nothing. -/
theorem place_mergePrefixMap {parts : List Word} (hp : Quiet parts) (map : List Char)
    (extra : List Word) (v : FlagVar) :
    place v ((mergePrefixMap map parts extra).1 ++ (mergePrefixMap map parts extra).2) =
      if v = .krustflags then place v extra else (place v extra).addFirst (words map) := by
  let s := mergeFirst .kcflags map parts extra
  have hmerge : mergePrefixMap map parts extra = mergeFirst .kaflags map s.1 s.2 := rfl
  have hs : ∀ w, w ≠ .kcflags → place w (s.1 ++ s.2) = place w extra := by
    intro w hw
    rw [place_of_apart hw (apart_mergeFirst ..), place_append_of_none (hp w)]
  have hquiet : ∀ t ∈ s.1, assigned .kaflags t = none := by
    intro t ht
    have hs1 : s.1 = parts ∨ s.1 = parts ++ [FlagVar.kcflags.set map] := by
      show (mergeFirst .kcflags map parts extra).1 = _ ∨ (mergeFirst .kcflags map parts extra).1 = _
      rw [mergeFirst]
      split
      · exact .inr rfl
      · exact .inl rfl
    rcases hs1 with h | h
    · exact hp _ t (h ▸ ht)
    · rw [h, List.mem_append, List.mem_singleton] at ht
      rcases ht with ht | rfl
      · exact hp _ t ht
      · exact assigned_set_ne (by decide) map
  rw [hmerge]
  cases v with
  | kcflags =>
      rw [place_of_apart (v := .kaflags) (by decide) (apart_mergeFirst ..), if_neg (by decide)]
      exact place_mergeFirst (hp .kcflags) map extra
  | kaflags =>
      rw [place_mergeFirst hquiet, if_neg (by decide), ← hs .kaflags (by decide),
        place_append_of_none hquiet]
  | krustflags =>
      rw [place_of_apart (v := .kaflags) (by decide) (apart_mergeFirst ..), if_pos rfl,
        hs .krustflags (by decide)]

theorem place_combine {parts : List Word} (hp : Quiet parts) (extra : List Word) (v : FlagVar) :
    place v (combine host f parts extra) = mainPlace host f v (place v extra) := by
  have hpicked : place v (if f.kcflags = [] then extra else mergeKcflags extra f.kcflags) =
      if v = .kcflags ∧ f.kcflags ≠ [] then
        (place v extra).addLast (f.kcflags.flatMap fun s => words s.toList)
      else place v extra := by
    split
    · next hnil => rw [if_neg fun h => h.2 hnil]
    · next hne => simp only [place_mergeKcflags, hne, ne_eq, not_false_eq_true, and_true]
  rw [combine]
  by_cases hmap : prefixMap host f = []
  · simp only [if_pos hmap]
    rw [place_append_of_none (hp v), hpicked]
    cases v <;> simp [mainPlace, hmap]
  · simp only [if_neg hmap]
    rw [place_mergePrefixMap hp, hpicked]
    cases v <;> simp [mainPlace, hmap]

theorem place_keepWarnings (ts : List Word) (v : FlagVar) :
    place v (keepWarnings ts) = countingPlace v (place v ts) := by
  have hk : keepWarnings ts = mergeLast .krustflags "--cap-lints=warn".toList
      (mergeLast .kcflags "-Wno-error".toList ts) := rfl
  have hno : words "-Wno-error".toList = ["-Wno-error".toList] := by decide
  have hcap : words "--cap-lints=warn".toList = ["--cap-lints=warn".toList] := by decide
  rw [hk]
  cases v with
  | kcflags =>
      rw [place_of_apart (v := .krustflags) (by decide) (apart_mergeLast ..), place_mergeLast, hno]
      rfl
  | kaflags =>
      rw [place_of_apart (v := .krustflags) (by decide) (apart_mergeLast ..),
        place_of_apart (v := .kcflags) (by decide) (apart_mergeLast ..)]
      rfl
  | krustflags =>
      rw [place_mergeLast, place_of_apart (v := .kcflags) (by decide) (apart_mergeLast ..), hcap]
      rfl

/-! ## The words that assign nothing -/

theorem others_combine (host : FlagHost) (f : FlagForm) (parts extra : List Word) :
    (extra.filter isOther).Sublist ((combine host f parts extra).filter isOther) := by
  have hpicked : (if f.kcflags = [] then extra else mergeKcflags extra f.kcflags).filter isOther =
      extra.filter isOther := by
    split
    · rfl
    · exact others_of_apart .kcflags (apart_mergeLast ..)
  have hmap : ∀ ts, ((mergePrefixMap (prefixMap host f) parts ts).1 ++
      (mergePrefixMap (prefixMap host f) parts ts).2).filter isOther =
        (parts ++ ts).filter isOther := by
    intro ts
    exact (others_of_apart .kaflags (apart_mergeFirst ..)).trans
      (others_of_apart .kcflags (apart_mergeFirst ..))
  have hall : (combine host f parts extra).filter isOther = (parts ++ extra).filter isOther := by
    rw [combine]
    split
    · rw [List.filter_append, hpicked, List.filter_append]
    · rw [hmap, List.filter_append, hpicked, List.filter_append]
  rw [hall]
  exact (List.sublist_append_right parts extra).filter isOther

theorem others_keepWarnings (ts : List Word) :
    (keepWarnings ts).filter isOther = ts.filter isOther :=
  (others_of_apart .krustflags (apart_mergeLast ..)).trans
    (others_of_apart .kcflags (apart_mergeLast ..))

/-! ## What make reads of the flags -/

section
variable {p : Place} {a b : List Word}

/-- Flags put behind what make reads. -/
theorem sublist_addLast (h : p.Open ∨ p = .hidden []) (a : List Word) :
    (p.words ++ a).Sublist (p.addLast a).words := by
  rcases h with h | rfl
  · cases p with
    | absent => exact .refl _
    | hidden w => exact h.elim
    | heard w => exact .refl _
    | covered w => exact h.elim
  · exact .refl _

theorem sublist_addFirst (h : p.Open) (a : List Word) :
    (p.words ++ a).Sublist (p.addFirst a).words := by
  cases p with
  | absent => exact .refl _
  | hidden w => exact h.elim
  | heard w => exact .refl _
  | covered w => exact h.elim

/-- A list is no part of what it is longer than. -/
theorem not_append_sublist (ha : a ≠ []) (w : List Word) : ¬ (w ++ a).Sublist w := by
  intro h
  have hlen := h.length_le
  rw [List.length_append] at hlen
  exact ha (List.eq_nil_of_length_eq_zero (by omega))

theorem sublist_addLast_iff (ha : a ≠ []) :
    (p.words ++ a).Sublist (p.addLast a).words ↔ p.Open ∨ p = .hidden [] := by
  refine ⟨fun h => ?_, fun h => sublist_addLast h a⟩
  cases p with
  | absent => exact .inl trivial
  | hidden w =>
      have hlen : (w ++ a).length ≤ a.length := h.length_le
      rw [List.length_append] at hlen
      exact .inr (congrArg _ (List.eq_nil_of_length_eq_zero (by omega)))
  | heard w => exact .inl trivial
  | covered w => exact (not_append_sublist ha w h).elim

theorem sublist_addFirst_iff (ha : a ≠ []) :
    (p.words ++ a).Sublist (p.addFirst a).words ↔ p.Open := by
  refine ⟨fun h => ?_, fun h => sublist_addFirst h a⟩
  cases p with
  | absent => trivial
  | hidden w => exact not_append_sublist ha w h
  | heard w => trivial
  | covered w => exact not_append_sublist ha w h

theorem addLast_addLast : (p.addLast a).addLast b = p.addLast (a ++ b) := by
  cases p <;> simp [Place.addLast]

theorem addFirst_addLast : (p.addLast a).addFirst b = p.addLast (a ++ b) := by
  cases p <;> simp [Place.addLast, Place.addFirst]

theorem addLast_addFirst : (p.addFirst a).addLast b = p.addFirst (a ++ b) := by
  cases p <;> simp [Place.addLast, Place.addFirst]

end

/-! ## When the flags are kept -/

/-- All that goes to `KCFLAGS` goes where its first flags went: the picked ones go last when
there is no word for them, the path-prefix map goes in front. -/
theorem countingPlace_kcflags (host : FlagHost) (f : FlagForm) (p : Place) :
    countingPlace .kcflags (mainPlace host f .kcflags p) =
      if f.kcflags ≠ [] ∨ prefixMap host f = [] then
        p.addLast (mainAdds host f .kcflags ++ countingAdds .kcflags)
      else p.addFirst (mainAdds host f .kcflags ++ countingAdds .kcflags) := by
  by_cases hk : f.kcflags = []
  · by_cases hm : prefixMap host f = []
    · simp [countingPlace, mainPlace, mainAdds, hk, hm, words_nil]
    · simp [countingPlace, mainPlace, mainAdds, hk, hm, addLast_addFirst]
  · by_cases hm : prefixMap host f = []
    · simp [countingPlace, mainPlace, mainAdds, hk, hm, words_nil, addLast_addLast]
    · simp [countingPlace, mainPlace, mainAdds, hk, hm, addFirst_addLast, addLast_addLast]

/-- The path-prefix map has a word. -/
theorem words_prefixMap (h : prefixMap host f ≠ []) : words (prefixMap host f) ≠ [] := by
  rw [prefixMap] at h ⊢
  split at h
  · next hon =>
      rw [if_pos hon]
      exact words_ne_nil (c := '-') (by decide) _
  · exact absurd rfl h

/-- What make reads of the flags that `counting` leaves. -/
theorem counting_read_iff (host : FlagHost) (f : FlagForm) (user : List Word) :
    (∀ v, ((place v user).words ++ (mainAdds host f v ++ countingAdds v)).Sublist
      (countingPlace v (mainPlace host f v (place v user))).words) ↔ Merges host f user := by
  have hkc : mainAdds host f .kcflags ++ countingAdds .kcflags ≠ [] := by simp [countingAdds]
  have hkr : mainAdds host f .krustflags ++ countingAdds .krustflags ≠ [] := by simp [countingAdds]
  have hka : mainAdds host f .kaflags ++ countingAdds .kaflags = words (prefixMap host f) :=
    List.append_nil _
  have hkcflags := @countingPlace_kcflags host f (place .kcflags user)
  constructor
  · intro h
    have hc := h .kcflags
    have ha := h .kaflags
    rw [hkcflags] at hc
    rw [hka] at ha
    refine ⟨?_, ?_, (sublist_addLast_iff hkr).mp (h .krustflags)⟩
    · split at hc
      · next hlast =>
          rcases (sublist_addLast_iff hkc).mp hc with hopen | hhidden
          · exact .inl hopen
          · exact .inr ⟨hhidden, hlast⟩
      · exact .inl ((sublist_addFirst_iff hkc).mp hc)
    · by_cases hm : prefixMap host f = []
      · exact .inr hm
      · simp only [countingPlace, mainPlace, if_neg hm] at ha
        exact .inl ((sublist_addFirst_iff (words_prefixMap hm)).mp ha)
  · rintro ⟨hc, ha, hr⟩ v
    cases v with
    | kcflags =>
        rw [hkcflags]
        split
        · exact sublist_addLast (hc.imp_right And.left) _
        · next hlast => exact sublist_addFirst (hc.resolve_right fun h => hlast h.2) _
    | kaflags =>
        rw [hka]
        by_cases hm : prefixMap host f = []
        · simp [countingPlace, mainPlace, hm, words_nil]
        · simp only [countingPlace, mainPlace, if_neg hm]
          exact sublist_addFirst (ha.resolve_right hm) _
    | krustflags => exact sublist_addLast hr _

/-- What `main` leaves is read where what `counting` leaves is. -/
theorem main_read {user : List Word} (h : Merges host f user) (v : FlagVar) :
    ((place v user).words ++ mainAdds host f v).Sublist
      (mainPlace host f v (place v user)).words := by
  cases v with
  | kcflags =>
      by_cases hk : f.kcflags = []
      · by_cases hm : prefixMap host f = []
        · simp [mainPlace, mainAdds, hk, hm, words_nil]
        · have hopen := h.kcflags.resolve_right fun hr => hr.2.elim (absurd hk) hm
          simp only [mainPlace, mainAdds, hk, if_pos, if_neg hm, List.flatMap_nil, List.nil_append]
          exact sublist_addFirst hopen _
      · have hplace : mainPlace host f .kcflags (place .kcflags user) =
            (place .kcflags user).addLast (mainAdds host f .kcflags) := by
          by_cases hm : prefixMap host f = []
          · simp [mainPlace, mainAdds, hk, hm, words_nil]
          · simp [mainPlace, mainAdds, hk, hm, addFirst_addLast]
        rw [hplace]
        exact sublist_addLast (h.kcflags.imp_right And.left) _
  | kaflags =>
      by_cases hm : prefixMap host f = []
      · simp [mainPlace, mainAdds, hm, words_nil]
      · simp only [mainPlace, mainAdds, if_neg hm]
        exact sublist_addFirst (h.kaflags.resolve_right hm) _
  | krustflags =>
      rw [mainAdds, List.append_nil, mainPlace]

/-- The make flags of `main` are the combined words, joined. -/
theorem buildFlags_words {user : List Word} {out : String} {conf : Option String}
    (huser : userWords f = .ok user) (h : buildFlags host f = .ok (out, conf)) :
    ∃ parts, Quiet parts ∧ out = String.ofList (Shlex.join (combine host f parts user)) := by
  rw [buildFlags] at h
  split at h
  · cases h
  · obtain ⟨conf', -, h⟩ := except_bind_ok.mp h
    obtain ⟨compiler, hcompiler, h⟩ := except_bind_ok.mp h
    obtain ⟨reproducible, hreproducible, h⟩ := except_bind_ok.mp h
    obtain ⟨extra, hextra, h⟩ := except_bind_ok.mp h
    cases huser.symm.trans hextra
    cases h
    exact ⟨_, ((compilerParts_quiet hcompiler).append (reproducibleParts_quiet hreproducible)).append
      (warnParts_quiet f), rfl⟩

end

/-- A host with nothing to say. -/
def plainHost : FlagHost := ⟨["w"], fun _ => .ok "conf", .ok "", fun _ _ => .ok ""⟩

/-- A build of gcc with the user's flags and one picked flag. -/
def pickedForm (makeFlags : String) : FlagForm :=
  { compiler := "gcc", reproducible := false, ccache := false, ccacheMaxSize := 10,
    timestampFromCommit := false, makeFlags, extraWarn := [], kcflags := ["-W"],
    worktree := "", buildDir := "", commit := "" }

end KdevopsNg.Kernel
