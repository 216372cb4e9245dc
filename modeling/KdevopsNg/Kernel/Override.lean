/-
# `Kernel.Override` — a pasted guest with the bisect's groups

What `bringup_args` makes of a pasted guest whose nested groups have the shape
it writes into (`GuestShape`): the values it sets (`overridden`), every other
place as it was pasted (`overridden_elsewhere`), and a second override of the
result the same as one override of the pasted guest (`overridden_again`).

The groups are read once (`Parts`); the result is then written out as
assignments to these, and the facts about it are facts about assignments.
-/
import KdevopsNg.Kernel.Bringup

namespace KdevopsNg.Kernel

open Py

/-! ## Places in a value -/

/-- The value at a path of keys. -/
def valueAt : List String → Json → Option Json
  | [], v => some v
  | k :: ks, .obj kvs => (Dict.get? kvs k).bind (valueAt ks)
  | _ :: _, _ => none

theorem valueAt_obj (k : String) (ks : List String) (kvs : Dict Json) :
    valueAt (k :: ks) (.obj kvs) = (Dict.get? kvs k).bind (valueAt ks) := by
  rw [valueAt]

theorem valueAt_set_self (k : String) (ks : List String) (kvs : Dict Json) (v : Json) :
    valueAt (k :: ks) (.obj (Dict.set kvs k v)) = valueAt ks v := by
  rw [valueAt_obj, Dict.get?_set_self, Option.bind_some]

theorem valueAt_set_ne {k k' : String} (ks : List String) (kvs : Dict Json) (v : Json)
    (h : k' ≠ k) :
    valueAt (k' :: ks) (.obj (Dict.set kvs k v)) = valueAt (k' :: ks) (.obj kvs) := by
  rw [valueAt_obj, valueAt_obj, Dict.get?_set_ne kvs v h]

/-! ## Lists without repetition -/

/-- One value of `dict.fromkeys`. -/
def keepNew (acc : List Json) (x : Json) : List Json :=
  if acc.any (Json.eq x) then acc else acc ++ [x]

/-- `list(dict.fromkeys(xs))` of values that can be keys. -/
def firsts (xs : List Json) : List Json := xs.foldl keepNew []

theorem fromKeys_eq {xs : List Json} (h : xs.all Json.hashable = true) :
    Json.fromKeys xs = .ok (firsts xs) := by
  unfold Json.fromKeys
  rw [if_pos h]
  rfl

/-- Two values are never equal to each other. -/
def Apart (xs : List Json) : Prop := xs.Pairwise fun x y => Json.eq y x = false

theorem keepNew_old {acc : List Json} {x : Json} (h : ∃ y ∈ acc, Json.eq x y = true) :
    keepNew acc x = acc := by
  unfold keepNew
  rw [if_pos (List.any_eq_true.mpr h)]

theorem keepNew_new {acc : List Json} {x : Json} (h : ∀ y ∈ acc, Json.eq x y = false) :
    keepNew acc x = acc ++ [x] := by
  unfold keepNew
  rw [if_neg]
  intro hany
  obtain ⟨y, hy, heq⟩ := List.any_eq_true.mp hany
  rw [h y hy] at heq
  cases heq

theorem keepNew_cases (acc : List Json) (x : Json) :
    (keepNew acc x = acc ∧ ∃ y ∈ acc, Json.eq x y = true) ∨
      (keepNew acc x = acc ++ [x] ∧ ∀ y ∈ acc, Json.eq x y = false) := by
  by_cases h : ∃ y ∈ acc, Json.eq x y = true
  · exact .inl ⟨keepNew_old h, h⟩
  · have hnew : ∀ y ∈ acc, Json.eq x y = false :=
      fun y hy => Bool.eq_false_iff.mpr fun heq => h ⟨y, hy, heq⟩
    exact .inr ⟨keepNew_new hnew, hnew⟩

/-- The values kept after some: those, and then some of the new ones in order. -/
theorem foldl_keepNew (ys : List Json) :
    ∀ acc, ∃ added, ys.foldl keepNew acc = acc ++ added ∧ added.Sublist ys := by
  induction ys with
  | nil => exact fun acc => ⟨[], (List.append_nil acc).symm, List.Sublist.refl _⟩
  | cons y ys ih =>
      intro acc
      rw [List.foldl_cons]
      rcases keepNew_cases acc y with ⟨hkeep, -⟩ | ⟨hkeep, -⟩
      · rw [hkeep]
        obtain ⟨added, hadded, hsub⟩ := ih acc
        exact ⟨added, hadded, hsub.cons y⟩
      · rw [hkeep]
        obtain ⟨added, hadded, hsub⟩ := ih (acc ++ [y])
        exact ⟨y :: added, by rw [hadded, List.append_assoc]; rfl, hsub.cons_cons y⟩

theorem foldl_keepNew_apart (ys : List Json) :
    ∀ {acc}, Apart acc → Apart (ys.foldl keepNew acc) := by
  induction ys with
  | nil => exact fun h => h
  | cons y ys ih =>
      intro acc h
      rw [List.foldl_cons]
      rcases keepNew_cases acc y with ⟨hkeep, -⟩ | ⟨hkeep, hnew⟩
      · rw [hkeep]
        exact ih h
      · rw [hkeep]
        refine ih (List.pairwise_append.mpr ⟨h, List.pairwise_singleton _ y, ?_⟩)
        intro x hx z hz
        rw [List.mem_singleton.mp hz]
        exact hnew x hx

theorem eq_self_of_hashable {x : Json} (h : x.hashable = true) : Json.eq x x = true := by
  cases x with
  | null => rfl
  | bool b => cases b <;> rfl
  | num q => simp [Json.eq]
  | str s => simp [Json.eq]
  | arr xs => cases h
  | obj kvs => cases h

/-- Every value is kept, or an equal one that came before it. -/
theorem foldl_keepNew_covers {ys : List Json} (hys : ys.all Json.hashable = true) :
    ∀ acc, ∀ x ∈ ys, ∃ y ∈ ys.foldl keepNew acc, Json.eq x y = true := by
  induction ys with
  | nil => exact fun _ _ h => (List.not_mem_nil h).elim
  | cons y ys ih =>
      intro acc x hx
      rw [List.all_cons, Bool.and_eq_true] at hys
      rw [List.foldl_cons]
      rcases List.mem_cons.mp hx with rfl | hx
      · obtain ⟨added, hadded, -⟩ := foldl_keepNew ys (keepNew acc x)
        rw [hadded]
        rcases keepNew_cases acc x with ⟨hkeep, z, hz, heq⟩ | ⟨hkeep, -⟩
        · rw [hkeep]
          exact ⟨z, List.mem_append_left _ hz, heq⟩
        · rw [hkeep]
          exact ⟨x, List.mem_append_left _ (List.mem_append_right _ List.mem_cons_self),
            eq_self_of_hashable hys.1⟩
      · exact ih hys.2 _ x hx

/-- Values that are kept already add nothing. -/
theorem foldl_keepNew_old {ys acc : List Json} (h : ∀ x ∈ ys, ∃ y ∈ acc, Json.eq x y = true) :
    ys.foldl keepNew acc = acc := by
  induction ys with
  | nil => rfl
  | cons y ys ih =>
      obtain ⟨hy, hys⟩ := List.forall_mem_cons.mp h
      rw [List.foldl_cons, keepNew_old hy, ih hys]

/-- Values that are apart are all kept. -/
theorem firsts_of_apart {xs : List Json} (h : Apart xs) : firsts xs = xs := by
  induction xs using List.reverseRecOn with
  | nil => rfl
  | append_singleton xs x ih =>
      obtain ⟨hxs, -, hx⟩ := List.pairwise_append.mp h
      unfold firsts at ih ⊢
      rw [List.foldl_append, ih hxs, List.foldl_cons, List.foldl_nil,
        keepNew_new fun y hy => hx y hy x List.mem_cons_self]

theorem firsts_apart (xs : List Json) : Apart (firsts xs) :=
  foldl_keepNew_apart xs List.Pairwise.nil

/-- Extending a list twice by the same values extends it once. -/
theorem firsts_again {xs extra : List Json} (hextra : extra.all Json.hashable = true) :
    firsts (firsts (xs ++ extra) ++ extra) = firsts (xs ++ extra) := by
  have hkept := firsts_of_apart (firsts_apart (xs ++ extra))
  unfold firsts at hkept ⊢
  rw [List.foldl_append, hkept]
  refine foldl_keepNew_old ?_
  rw [List.foldl_append]
  exact foldl_keepNew_covers hextra _

theorem firsts_subset (xs : List Json) : firsts xs ⊆ xs := by
  obtain ⟨added, hadded, hsub⟩ := foldl_keepNew xs []
  unfold firsts
  rw [hadded, List.nil_append]
  exact hsub.subset

theorem firsts_hashable {xs : List Json} (h : xs.all Json.hashable = true) :
    (firsts xs).all Json.hashable = true :=
  List.all_eq_true.mpr fun x hx => List.all_eq_true.mp h x (firsts_subset xs hx)

theorem strs_hashable (xs : List String) : (xs.map Json.str).all Json.hashable = true := by
  rw [List.all_map]
  exact List.all_eq_true.mpr fun _ _ => rfl

/-! ## The groups of a pasted guest -/

/-- The group of the kernel a payload switches on, and its list. -/
def suiteKeys : Payload → Option (String × String)
  | .selftests => some ("selftests", "targets")
  | .usertests => some ("usertests", "harnesses")
  | _ => none

/-- What a payload adds to that list. -/
def suitePicks (payload : Payload) (suites : List String) : List String :=
  if payload = .usertests then harnessDirs suites else suites

/-- The groups `bringup_args` reads from a pasted guest, and the items of its
lists. -/
structure Parts where
  closure : Dict Json
  guest : Dict Json
  body : Dict Json
  testSuites : List Json
  kernel : Dict Json
  worktree : Dict Json
  build : Dict Json
  suite : Dict Json
  picked : List Json

/-- A group that is pasted, or the empty one. -/
def GroupIs (v : Option Json) (kvs : Dict Json) : Prop :=
  (v.getD .null).orElse (.obj []) = .obj kvs

/-- The items of a list that is pasted, or none. -/
def ListIs (v : Option Json) (xs : List Json) : Prop :=
  ((v.getD .null).orElse (.arr [])).iter = .ok xs ∧ xs.all Json.hashable = true

/-- These are the groups of the guest. -/
structure Parts.Of (payload : Payload) (pasted : Dict Json) (p : Parts) : Prop where
  closure : Dict.get? pasted "closure" = some (.obj p.closure)
  guest : (Dict.get? p.closure "guest").getD (.obj []) = .obj p.guest
  body : (Dict.get? p.closure "closure").getD (.obj []) = .obj p.body
  testSuites : ListIs (Dict.get? p.body "test_suites") p.testSuites
  kernel : Dict.get? pasted "kernel" = some (.obj p.kernel)
  worktree : GroupIs (Dict.get? p.kernel "worktree") p.worktree
  build : GroupIs (Dict.get? p.kernel "build") p.build
  suite : ∀ group list, suiteKeys payload = some (group, list) →
    GroupIs (Dict.get? p.kernel group) p.suite ∧ ListIs (Dict.get? p.suite list) p.picked

/-- A guest of the right shape has such groups. -/
theorem parts_of_shape {payload : Payload} {guest : Dict Json} (h : GuestShape payload guest) :
    ∃ p : Parts, p.Of payload guest := by
  obtain ⟨closure, hclosure, ⟨g, hg⟩, body, hbody, suites, hsuites⟩ := h.closure
  obtain ⟨kernel, hkernel, ⟨worktree, hworktree⟩, ⟨build, hbuild⟩, hself, huser⟩ := h.kernel
  have hsuite : ∃ suite picked, ∀ group list, suiteKeys payload = some (group, list) →
      GroupIs (Dict.get? kernel group) suite ∧ ListIs (Dict.get? suite list) picked := by
    cases payload with
    | selftests =>
        obtain ⟨suite, hs, picked, hp⟩ := hself rfl
        refine ⟨suite, picked, fun group list hkeys => ?_⟩
        cases hkeys
        exact ⟨hs, hp⟩
    | usertests =>
        obtain ⟨suite, hs, picked, hp⟩ := huser rfl
        refine ⟨suite, picked, fun group list hkeys => ?_⟩
        cases hkeys
        exact ⟨hs, hp⟩
    | kunit => exact ⟨[], [], fun _ _ hkeys => by cases hkeys⟩
    | runtimeTests => exact ⟨[], [], fun _ _ hkeys => by cases hkeys⟩
    | usertestsBuild => exact ⟨[], [], fun _ _ hkeys => by cases hkeys⟩
  obtain ⟨suite, picked, hsuite⟩ := hsuite
  exact ⟨⟨closure, g, body, suites, kernel, worktree, build, suite, picked⟩,
    { closure := hclosure
      guest := hg
      body := hbody
      testSuites := hsuites
      kernel := hkernel
      worktree := hworktree
      build := hbuild
      suite := hsuite }⟩

/-! ## The guest the override makes -/

section Overridden

variable (candidate : Json) (vmName : String) (payload : Payload) (suites : List String)
  (compiler makeFlags : String) (p : Parts)

/-- The guest's own group, with the VM's name. -/
def Parts.guestAfter : Dict Json := Dict.set p.guest "vm_name" (.str vmName)

/-- The test suites, with the payload's. -/
def Parts.suitesAfter : List Json :=
  firsts (p.testSuites ++ (closureSuites payload).map Json.str)

def Parts.bodyAfter : Dict Json := Dict.set p.body "test_suites" (.arr (p.suitesAfter payload))

def Parts.closureAfter : Dict Json :=
  Dict.set (Dict.set p.closure "guest" (.obj (p.guestAfter vmName))) "closure"
    (.obj (p.bodyAfter payload))

/-- The worktree group, pinned to the candidate. -/
def Parts.worktreeAfter : Dict Json :=
  Dict.merge (Dict.erase p.worktree "ref") (worktreeGroup candidate)

def Parts.buildAfter : Dict Json :=
  Dict.merge p.build [("compiler", .str compiler), ("make_flags", .str makeFlags)]

/-- The targets or harnesses, with the picked ones. -/
def Parts.pickedAfter : List Json :=
  firsts (p.picked ++ (suitePicks payload suites).map Json.str)

def Parts.suiteAfter (list : String) : Dict Json :=
  Dict.set (Dict.merge p.suite [("enable", .bool true)]) list
    (.arr (p.pickedAfter payload suites))

/-- The kernel group before the suites. -/
def Parts.kernelBase : Dict Json :=
  Dict.set (Dict.set (Dict.set (Dict.set p.kernel "mode" (.str "build")) "worktree"
    (.obj (p.worktreeAfter candidate))) "build" (.obj (p.buildAfter compiler makeFlags)))
    "reuse" reuseGroup

def Parts.kernelAfter : Dict Json :=
  match suiteKeys payload with
  | some (group, list) =>
      Dict.set (p.kernelBase candidate compiler makeFlags) group
        (.obj (p.suiteAfter payload suites list))
  | none => p.kernelBase candidate compiler makeFlags

/-- The guest with the groups the bisect owns. -/
def Parts.overridden (guest : Dict Json) : Dict Json :=
  Dict.set (Dict.set (Dict.erase (Dict.set guest "vm" (vmGroup vmName)) "worktree") "closure"
    (.obj (p.closureAfter vmName payload))) "kernel"
    (.obj (p.kernelAfter candidate payload suites compiler makeFlags))

variable {p}

theorem union_eq {v : Option Json} {xs : List Json} (h : ListIs v xs) (extra : List String) :
    union ((v.getD .null).orElse (.arr [])) extra =
      .ok (.arr (firsts (xs ++ extra.map Json.str))) := by
  have hall : (xs ++ extra.map Json.str).all Json.hashable = true := by
    rw [List.all_append, h.2, strs_hashable]
    rfl
  unfold union
  rw [h.1]
  simp only [bind, Except.bind, fromKeys_eq hall]
  rfl

theorem overrideClosure_eq {guest : Dict Json} (h : p.Of payload guest) :
    overrideClosure vmName payload (.obj p.closure) =
      .ok (.obj (p.closureAfter vmName payload)) := by
  have hne : "closure" ≠ "guest" := by decide
  unfold overrideClosure
  simp only [Json.getD_obj, h.guest, Json.setItem_obj, bind, Except.bind,
    Dict.get?_set_ne _ _ hne, h.body, union_eq h.testSuites]
  rfl

theorem overrideSuite_eq {kernel : Dict Json} {group list : String} {extra : List String}
    {suite : Dict Json} {picked : List Json} (hs : GroupIs (Dict.get? kernel group) suite)
    (hp : ListIs (Dict.get? suite list) picked) :
    overrideSuite (.obj kernel) group list extra =
      .ok (.obj (Dict.set kernel group (.obj (Dict.set (Dict.merge suite [("enable", .bool true)])
        list (.arr (firsts (picked ++ extra.map Json.str))))))) := by
  have hgroup : ((Dict.get? kernel group).getD .null).orElse (.obj []) = .obj suite := hs
  unfold overrideSuite
  simp only [Json.getD_obj, bind, Except.bind, hgroup, Json.spread_obj, union_eq hp,
    Json.setItem_obj]

theorem overrideKernel_eq {guest : Dict Json} (h : p.Of payload guest) :
    overrideKernel candidate payload suites compiler makeFlags (.obj p.kernel) =
      .ok (.obj (p.kernelAfter candidate payload suites compiler makeFlags)) := by
  have hw : ((Dict.get? p.kernel "worktree").getD .null).orElse (.obj []) = .obj p.worktree :=
    h.worktree
  have hb : ((Dict.get? p.kernel "build").getD .null).orElse (.obj []) = .obj p.build := h.build
  have hwm : "worktree" ≠ "mode" := by decide
  have hbm : "build" ≠ "mode" := by decide
  have hbw : "build" ≠ "worktree" := by decide
  -- the suite groups are none of the four keys set before them
  have hbase : ∀ group, group ≠ "mode" → group ≠ "worktree" → group ≠ "build" →
      group ≠ "reuse" → Dict.get? (p.kernelBase candidate compiler makeFlags) group =
        Dict.get? p.kernel group := by
    intro group hm hwt hbd hr
    unfold Parts.kernelBase
    rw [Dict.get?_set_ne _ _ hr, Dict.get?_set_ne _ _ hbd, Dict.get?_set_ne _ _ hwt,
      Dict.get?_set_ne _ _ hm]
  unfold overrideKernel
  simp only [Json.setItem_obj, Json.getD_obj, bind, Except.bind, Dict.get?_set_ne _ _ hwm, hw,
    popRef, Json.spread_obj, Dict.get?_set_ne _ _ hbw, Dict.get?_set_ne _ _ hbm, hb]
  cases payload with
  | selftests =>
      obtain ⟨hs, hp⟩ := h.suite "selftests" "targets" rfl
      rw [← hbase "selftests" (by decide) (by decide) (by decide) (by decide)] at hs
      exact overrideSuite_eq hs hp
  | usertests =>
      obtain ⟨hs, hp⟩ := h.suite "usertests" "harnesses" rfl
      rw [← hbase "usertests" (by decide) (by decide) (by decide) (by decide)] at hs
      exact overrideSuite_eq hs hp
  | kunit => rfl
  | runtimeTests => rfl
  | usertestsBuild => rfl

/-- What `bringup_args` returns on a pasted guest. -/
theorem bringupArgs_eq {pasted : Dict Json} (h : p.Of payload pasted) :
    bringupArgs candidate vmName payload suites compiler makeFlags (.obj pasted) =
      .ok (.obj (p.overridden candidate vmName payload suites compiler makeFlags pasted)) := by
  have htruthy : (Json.obj pasted).truthy = true := by
    cases pasted with
    | nil => cases h.closure
    | cons _ _ => rfl
  have hcheck : checkGuest (.obj pasted) = .ok () := by
    simp [checkGuest, Dict.contains, h.closure, h.kernel]
  have hclosure : Dict.get? (Dict.erase (Dict.set pasted "vm" (vmGroup vmName)) "worktree")
      "closure" = some (.obj p.closure) := by
    rw [Dict.get?_erase_ne _ (by decide), Dict.get?_set_ne _ _ (by decide)]
    exact h.closure
  have hkernel : ∀ v, Dict.get? (Dict.set (Dict.erase (Dict.set pasted "vm" (vmGroup vmName))
      "worktree") "closure" v) "kernel" = some (.obj p.kernel) := by
    intro v
    rw [Dict.get?_set_ne _ _ (by decide), Dict.get?_erase_ne _ (by decide),
      Dict.get?_set_ne _ _ (by decide)]
    exact h.kernel
  unfold bringupArgs
  rw [if_pos htruthy]
  simp only [hcheck, Json.setItem_obj, Json.getItem_obj, bind, Except.bind, hclosure,
    overrideClosure_eq vmName payload h, hkernel,
    overrideKernel_eq candidate payload suites compiler makeFlags h]
  rfl

/-! ## Overriding again -/

theorem groupIs_obj (kvs : Dict Json) : GroupIs (some (.obj kvs)) kvs := by
  cases kvs with
  | nil => rfl
  | cons _ _ => rfl

theorem listIs_arr {xs : List Json} (h : xs.all Json.hashable = true) :
    ListIs (some (.arr xs)) xs := by
  refine ⟨?_, h⟩
  cases xs with
  | nil => rfl
  | cons _ _ => rfl

theorem extended_hashable {v : Option Json} {xs : List Json} (h : ListIs v xs)
    (extra : List String) : (firsts (xs ++ extra.map Json.str)).all Json.hashable = true := by
  refine firsts_hashable ?_
  rw [List.all_append, h.2, strs_hashable]
  rfl

/-- The groups of the guest that was made. -/
def Parts.after (p : Parts) : Parts where
  closure := p.closureAfter vmName payload
  guest := p.guestAfter vmName
  body := p.bodyAfter payload
  testSuites := p.suitesAfter payload
  kernel := p.kernelAfter candidate payload suites compiler makeFlags
  worktree := p.worktreeAfter candidate
  build := p.buildAfter compiler makeFlags
  suite := match suiteKeys payload with
    | some (_, list) => p.suiteAfter payload suites list
    | none => p.suite
  picked := p.pickedAfter payload suites

/-- The suite groups are none of the keys every override sets. -/
theorem suiteKeys_apart {payload : Payload} {group list : String}
    (h : suiteKeys payload = some (group, list)) :
    group ≠ "mode" ∧ group ≠ "worktree" ∧ group ≠ "build" ∧ group ≠ "reuse" ∧
      list ≠ "enable" := by
  cases payload with
  | selftests => cases h; decide
  | usertests => cases h; decide
  | kunit => cases h
  | runtimeTests => cases h
  | usertestsBuild => cases h

/-- A key of the kernel group no suite has. -/
theorem kernelAfter_get? {k : String}
    (hk : ∀ group list, suiteKeys payload = some (group, list) → k ≠ group) :
    Dict.get? (p.kernelAfter candidate payload suites compiler makeFlags) k =
      Dict.get? (p.kernelBase candidate compiler makeFlags) k := by
  unfold Parts.kernelAfter
  cases hkeys : suiteKeys payload with
  | none => rfl
  | some keys =>
      obtain ⟨group, list⟩ := keys
      exact Dict.get?_set_ne _ _ (hk group list hkeys)

theorem kernelAfter_suite {group list : String} (h : suiteKeys payload = some (group, list)) :
    Dict.get? (p.kernelAfter candidate payload suites compiler makeFlags) group =
      some (.obj (p.suiteAfter payload suites list)) := by
  unfold Parts.kernelAfter
  rw [h]
  exact Dict.get?_set_self _ _ _

theorem kernelBase_worktree :
    Dict.get? (p.kernelBase candidate compiler makeFlags) "worktree" =
      some (.obj (p.worktreeAfter candidate)) := by
  unfold Parts.kernelBase
  rw [Dict.get?_set_ne _ _ (by decide), Dict.get?_set_ne _ _ (by decide), Dict.get?_set_self]

theorem kernelBase_build :
    Dict.get? (p.kernelBase candidate compiler makeFlags) "build" =
      some (.obj (p.buildAfter compiler makeFlags)) := by
  unfold Parts.kernelBase
  rw [Dict.get?_set_ne _ _ (by decide), Dict.get?_set_self]

theorem kernelBase_mode :
    Dict.get? (p.kernelBase candidate compiler makeFlags) "mode" = some (.str "build") := by
  unfold Parts.kernelBase
  rw [Dict.get?_set_ne _ _ (by decide), Dict.get?_set_ne _ _ (by decide),
    Dict.get?_set_ne _ _ (by decide), Dict.get?_set_self]

theorem kernelBase_reuse :
    Dict.get? (p.kernelBase candidate compiler makeFlags) "reuse" = some reuseGroup := by
  unfold Parts.kernelBase
  rw [Dict.get?_set_self]

/-- A key of the kernel group that every override sets is no suite's. -/
theorem baseKey_apart {k : String} (hk : k ∈ ["mode", "worktree", "build", "reuse"])
    {payload : Payload} : ∀ group list, suiteKeys payload = some (group, list) → k ≠ group := by
  intro group list h
  obtain ⟨hm, hw, hb, hr, -⟩ := suiteKeys_apart h
  simp only [List.mem_cons, List.not_mem_nil, or_false] at hk
  rcases hk with rfl | rfl | rfl | rfl
  · exact hm.symm
  · exact hw.symm
  · exact hb.symm
  · exact hr.symm

/-- The guest that was made has the groups that were written. -/
theorem parts_after {pasted : Dict Json} (h : p.Of payload pasted) :
    (p.after candidate vmName payload suites compiler makeFlags).Of payload
      (p.overridden candidate vmName payload suites compiler makeFlags pasted) where
  closure := by
    unfold Parts.overridden
    rw [Dict.get?_set_ne _ _ (by decide), Dict.get?_set_self]
    rfl
  guest := by
    have hget : Dict.get? (p.closureAfter vmName payload) "guest" =
        some (.obj (p.guestAfter vmName)) := by
      unfold Parts.closureAfter
      rw [Dict.get?_set_ne _ _ (by decide), Dict.get?_set_self]
    exact congrArg (fun o => o.getD (.obj [])) hget
  body := by
    have hget : Dict.get? (p.closureAfter vmName payload) "closure" =
        some (.obj (p.bodyAfter payload)) := by
      unfold Parts.closureAfter
      rw [Dict.get?_set_self]
    exact congrArg (fun o => o.getD (.obj [])) hget
  testSuites := by
    have hget : Dict.get? (p.bodyAfter payload) "test_suites" =
        some (.arr (p.suitesAfter payload)) := Dict.get?_set_self _ _ _
    have hlist := listIs_arr (extended_hashable h.testSuites (closureSuites payload))
    unfold Parts.after
    dsimp only
    rw [hget]
    exact hlist
  kernel := by
    unfold Parts.overridden
    rw [Dict.get?_set_self]
    rfl
  worktree := by
    have hget : Dict.get? (p.kernelAfter candidate payload suites compiler makeFlags) "worktree" =
        some (.obj (p.worktreeAfter candidate)) := by
      rw [kernelAfter_get? _ _ _ _ _ (baseKey_apart (by decide)), kernelBase_worktree]
    unfold Parts.after
    dsimp only
    rw [hget]
    exact groupIs_obj _
  build := by
    have hget : Dict.get? (p.kernelAfter candidate payload suites compiler makeFlags) "build" =
        some (.obj (p.buildAfter compiler makeFlags)) := by
      rw [kernelAfter_get? _ _ _ _ _ (baseKey_apart (by decide)), kernelBase_build]
    unfold Parts.after
    dsimp only
    rw [hget]
    exact groupIs_obj _
  suite := by
    intro group list hkeys
    have hget : Dict.get? (p.suiteAfter payload suites list) list =
        some (.arr (p.pickedAfter payload suites)) := Dict.get?_set_self _ _ _
    unfold Parts.after
    dsimp only
    rw [kernelAfter_suite _ _ _ _ _ hkeys, hkeys]
    dsimp only
    rw [hget]
    exact ⟨groupIs_obj _, listIs_arr (extended_hashable (h.suite group list hkeys).2 _)⟩

/-- Pinning a worktree group to another candidate. -/
theorem worktree_again (candidate' : Json) :
    Dict.merge (Dict.erase (p.worktreeAfter candidate) "ref") (worktreeGroup candidate') =
      p.worktreeAfter candidate' := by
  have hmerge : ∀ (c : Json) (d : Dict Json), Dict.merge d (worktreeGroup c) =
      Dict.set (Dict.set (Dict.set (Dict.set d "custom_ref" (.bool true)) "git_ref" c)
        "b4_series" (.str "")) "custom_label" (.bool false) := fun _ _ => rfl
  have href : Dict.get? (p.worktreeAfter candidate) "ref" = none := by
    unfold Parts.worktreeAfter
    rw [hmerge, Dict.get?_set_ne _ _ (by decide), Dict.get?_set_ne _ _ (by decide),
      Dict.get?_set_ne _ _ (by decide), Dict.get?_set_ne _ _ (by decide), Dict.get?_erase_self]
  rw [Dict.erase_of_get?_none href]
  unfold Parts.worktreeAfter
  generalize Dict.erase p.worktree "ref" = d
  rw [hmerge, hmerge, hmerge]
  -- of the four keys, only the candidate's changes
  rw [Dict.set_of_get? (k := "custom_ref")]
  rw [Dict.set_comm "git_ref" "custom_label" (by decide),
    Dict.set_comm "git_ref" "b4_series" (by decide), Dict.set_set]
  rw [Dict.set_of_get? (k := "b4_series"), Dict.set_of_get? (k := "custom_label")]
  all_goals simp [Dict.get?_set]

theorem suites_again : firsts (p.suitesAfter payload ++ (closureSuites payload).map Json.str) =
    p.suitesAfter payload :=
  firsts_again (strs_hashable _)

theorem picked_again :
    firsts (p.pickedAfter payload suites ++ (suitePicks payload suites).map Json.str) =
      p.pickedAfter payload suites :=
  firsts_again (strs_hashable _)

/-- The closure group does not depend on the candidate, and is not extended
twice. -/
theorem closure_again :
    (p.after candidate vmName payload suites compiler makeFlags).closureAfter vmName payload =
      p.closureAfter vmName payload := by
  have hguest : (p.after candidate vmName payload suites compiler makeFlags).guestAfter vmName =
      p.guestAfter vmName := Dict.set_set _ _ _ _
  have hsuites : (p.after candidate vmName payload suites compiler makeFlags).suitesAfter payload =
      p.suitesAfter payload := suites_again payload
  have hbody : (p.after candidate vmName payload suites compiler makeFlags).bodyAfter payload =
      p.bodyAfter payload := by
    unfold Parts.bodyAfter
    rw [hsuites]
    exact Dict.set_set _ _ _ _
  unfold Parts.closureAfter
  rw [hguest, hbody]
  refine (congrArg (fun d => Dict.set d "closure" _) (Dict.set_of_get? ?_)).trans
    (Dict.set_of_get? ?_)
  · refine (Dict.get?_set_ne _ _ (by decide)).trans (Dict.get?_set_self _ _ _)
  · exact Dict.get?_set_self _ _ _

theorem build_again :
    (p.after candidate vmName payload suites compiler makeFlags).buildAfter compiler makeFlags =
      p.buildAfter compiler makeFlags := by
  have hmerge : ∀ d : Dict Json,
      Dict.merge d [("compiler", .str compiler), ("make_flags", .str makeFlags)] =
        Dict.set (Dict.set d "compiler" (.str compiler)) "make_flags" (.str makeFlags) :=
    fun _ => rfl
  unfold Parts.buildAfter Parts.after
  dsimp only
  unfold Parts.buildAfter
  rw [hmerge, hmerge]
  rw [Dict.set_of_get? (k := "compiler"), Dict.set_of_get? (k := "make_flags")]
  all_goals simp [Dict.get?_set]

theorem suite_again {group list : String} (h : suiteKeys payload = some (group, list)) :
    (p.after candidate vmName payload suites compiler makeFlags).suiteAfter payload suites list =
      p.suiteAfter payload suites list := by
  have hsuite : (p.after candidate vmName payload suites compiler makeFlags).suite =
      p.suiteAfter payload suites list := by
    unfold Parts.after
    rw [h]
  have hpicked : (p.after candidate vmName payload suites compiler makeFlags).pickedAfter
      payload suites = p.pickedAfter payload suites := picked_again payload suites
  have hlist : list ≠ "enable" := (suiteKeys_apart h).2.2.2.2
  have hmerge : ∀ d : Dict Json, Dict.merge d [("enable", .bool true)] =
      Dict.set d "enable" (.bool true) := fun _ => rfl
  unfold Parts.suiteAfter
  rw [hpicked, hsuite]
  unfold Parts.suiteAfter
  rw [hmerge, hmerge]
  rw [Dict.set_of_get? (k := "enable"), Dict.set_of_get? (k := list)]
  · exact Dict.get?_set_self _ _ _
  · rw [Dict.get?_set_ne _ _ hlist.symm, Dict.get?_set_self]

/-- The kernel group for another candidate. -/
theorem kernel_again (candidate' : Json) :
    (p.after candidate vmName payload suites compiler makeFlags).kernelAfter candidate' payload
        suites compiler makeFlags =
      p.kernelAfter candidate' payload suites compiler makeFlags := by
  have hworktree : (p.after candidate vmName payload suites compiler makeFlags).worktreeAfter
      candidate' = p.worktreeAfter candidate' := worktree_again candidate candidate'
  -- moved to the front, the new worktree group replaces the old one
  have hmoved : Dict.set (p.kernelBase candidate compiler makeFlags) "worktree"
      (.obj (p.worktreeAfter candidate')) = p.kernelBase candidate' compiler makeFlags := by
    unfold Parts.kernelBase
    rw [Dict.set_comm "worktree" "reuse" (by decide), Dict.set_comm "worktree" "build" (by decide),
      Dict.set_set]
    all_goals simp [Dict.get?_set]
  have hkernel : Dict.set (p.kernelAfter candidate payload suites compiler makeFlags) "worktree"
      (.obj (p.worktreeAfter candidate')) =
        p.kernelAfter candidate' payload suites compiler makeFlags := by
    unfold Parts.kernelAfter
    cases hkeys : suiteKeys payload with
    | none => exact hmoved
    | some keys =>
        obtain ⟨group, list⟩ := keys
        dsimp only
        rw [Dict.set_comm "worktree" group (suiteKeys_apart hkeys).2.1.symm, hmoved]
        rw [kernelBase_worktree]
        rfl
  have hbase : (p.after candidate vmName payload suites compiler makeFlags).kernelBase candidate'
      compiler makeFlags = p.kernelAfter candidate' payload suites compiler makeFlags := by
    have hget : ∀ k ∈ ["mode", "worktree", "build", "reuse"], ∀ c : Json,
        Dict.get? (p.kernelAfter c payload suites compiler makeFlags) k =
          Dict.get? (p.kernelBase c compiler makeFlags) k := fun k hk c =>
      kernelAfter_get? c payload suites compiler makeFlags (baseKey_apart hk)
    rw [Parts.kernelBase, hworktree, build_again]
    have hmode : Dict.set (p.after candidate vmName payload suites compiler makeFlags).kernel
        "mode" (.str "build") = p.kernelAfter candidate payload suites compiler makeFlags := by
      refine Dict.set_of_get? ?_
      refine (hget "mode" (by decide) candidate).trans ?_
      exact kernelBase_mode _ _ _
    rw [hmode, hkernel]
    rw [Dict.set_of_get? (k := "build"), Dict.set_of_get? (k := "reuse")]
    · rw [hget "reuse" (by decide), kernelBase_reuse]
    · rw [hget "build" (by decide), kernelBase_build]
  unfold Parts.kernelAfter at hbase ⊢
  cases hkeys : suiteKeys payload with
  | none =>
      rw [hkeys] at hbase
      exact hbase
  | some keys =>
      obtain ⟨group, list⟩ := keys
      rw [hkeys] at hbase
      dsimp only at hbase ⊢
      rw [hbase, suite_again _ _ _ _ _ _ hkeys]
      exact Dict.set_of_get? (Dict.get?_set_self _ _ _)

/-- Overriding the guest that was made is overriding the pasted one. -/
theorem overridden_again (candidate' : Json) (pasted : Dict Json) :
    (p.after candidate vmName payload suites compiler makeFlags).overridden candidate' vmName
        payload suites compiler makeFlags
        (p.overridden candidate vmName payload suites compiler makeFlags pasted) =
      p.overridden candidate' vmName payload suites compiler makeFlags pasted := by
  rw [Parts.overridden, closure_again, kernel_again]
  generalize hmade : p.overridden candidate vmName payload suites compiler makeFlags pasted = made
  have hvm : Dict.get? made "vm" = some (vmGroup vmName) := by
    rw [← hmade, Parts.overridden, Dict.get?_set_ne _ _ (by decide),
      Dict.get?_set_ne _ _ (by decide), Dict.get?_erase_ne _ (by decide), Dict.get?_set_self]
  have hworktree : Dict.get? made "worktree" = none := by
    rw [← hmade, Parts.overridden, Dict.get?_set_ne _ _ (by decide),
      Dict.get?_set_ne _ _ (by decide), Dict.get?_erase_self]
  have hclosure : Dict.get? made "closure" = some (.obj (p.closureAfter vmName payload)) := by
    rw [← hmade, Parts.overridden, Dict.get?_set_ne _ _ (by decide), Dict.get?_set_self]
  rw [Dict.set_of_get? hvm, Dict.erase_of_get?_none hworktree, Dict.set_of_get? hclosure, ← hmade,
    Parts.overridden, Dict.set_set]
  rfl

/-! ## Every other place -/

/-- The places the bisect owns. -/
def ownedPaths (payload : Payload) : List (List String) :=
  [["vm"], ["worktree"], ["closure", "guest", "vm_name"], ["closure", "closure", "test_suites"],
    ["kernel", "mode"], ["kernel", "worktree", "ref"], ["kernel", "worktree", "custom_ref"],
    ["kernel", "worktree", "git_ref"], ["kernel", "worktree", "b4_series"],
    ["kernel", "worktree", "custom_label"], ["kernel", "build", "compiler"],
    ["kernel", "build", "make_flags"], ["kernel", "reuse"]] ++
  match suiteKeys payload with
  | some (group, list) => [["kernel", group, "enable"], ["kernel", group, list]]
  | none => []

/-- A place that neither lies at or below an owned one nor holds one. -/
def Unowned (payload : Payload) (path : List String) : Prop :=
  ∀ o ∈ ownedPaths payload, ¬ o <+: path ∧ ¬ path <+: o

/-- Below its own keys, a pasted group is what was read of it. -/
theorem group_places {v : Option Json} {kvs : Dict Json} (h : GroupIs v kvs) (k : String)
    (ks : List String) : v.bind (valueAt (k :: ks)) = valueAt (k :: ks) (.obj kvs) := by
  unfold GroupIs at h
  cases v with
  | none =>
      cases h
      rfl
  | some j =>
      rw [Option.bind_some]
      rw [Option.getD_some] at h
      unfold Json.orElse at h
      split at h
      case isTrue => rw [h]
      case isFalse hfalsy =>
        cases h
        cases j with
        | obj xs =>
            cases xs with
            | nil => rfl
            | cons _ _ => exact (hfalsy rfl).elim
        | _ => rfl

theorem default_places {v : Option Json} {kvs : Dict Json} (h : v.getD (.obj []) = .obj kvs)
    (k : String) (ks : List String) :
    v.bind (valueAt (k :: ks)) = valueAt (k :: ks) (.obj kvs) := by
  cases v with
  | none =>
      cases h
      rfl
  | some j =>
      rw [Option.getD_some] at h
      rw [Option.bind_some, h]

theorem closure_elsewhere {pasted : Dict Json} (h : p.Of payload pasted) {ks : List String}
    (hu : Unowned payload ("closure" :: ks)) :
    valueAt ks (.obj (p.closureAfter vmName payload)) = valueAt ks (.obj p.closure) := by
  have hguest := hu ["closure", "guest", "vm_name"] (List.mem_append_left _ (by decide))
  have hbody := hu ["closure", "closure", "test_suites"] (List.mem_append_left _ (by decide))
  unfold Parts.closureAfter
  cases ks with
  | nil => exact (hguest.2 ⟨["guest", "vm_name"], rfl⟩).elim
  | cons k ks =>
      by_cases hkc : k = "closure"
      · subst hkc
        rw [valueAt_set_self, valueAt_obj]
        cases ks with
        | nil => exact (hbody.2 ⟨["test_suites"], rfl⟩).elim
        | cons k ks =>
            rw [default_places h.body]
            refine valueAt_set_ne ks _ _ ?_
            rintro rfl
            exact hbody.1 ⟨ks, rfl⟩
      · rw [valueAt_set_ne ks _ _ hkc]
        by_cases hkg : k = "guest"
        · subst hkg
          rw [valueAt_set_self, valueAt_obj]
          cases ks with
          | nil => exact (hguest.2 ⟨["vm_name"], rfl⟩).elim
          | cons k ks =>
              rw [default_places h.guest]
              refine valueAt_set_ne ks _ _ ?_
              rintro rfl
              exact hguest.1 ⟨ks, rfl⟩
        · exact valueAt_set_ne ks _ _ hkg

theorem worktree_elsewhere {k : String} (ks : List String)
    (hk : k ∉ ["ref", "custom_ref", "git_ref", "b4_series", "custom_label"]) :
    valueAt (k :: ks) (.obj (p.worktreeAfter candidate)) = valueAt (k :: ks) (.obj p.worktree) := by
  simp only [List.mem_cons, List.not_mem_nil, or_false, not_or] at hk
  obtain ⟨href, hcustom, hgit, hb4, hlabel⟩ := hk
  have hget : Dict.get? (p.worktreeAfter candidate) k = Dict.get? p.worktree k := by
    have hmerge : Dict.get? (Dict.merge (Dict.erase p.worktree "ref") (worktreeGroup candidate)) k =
        Dict.get? (Dict.set (Dict.set (Dict.set (Dict.set (Dict.erase p.worktree "ref")
          "custom_ref" (.bool true)) "git_ref" candidate) "b4_series" (.str "")) "custom_label"
          (.bool false)) k := rfl
    rw [Parts.worktreeAfter, hmerge, Dict.get?_set_ne _ _ hlabel, Dict.get?_set_ne _ _ hb4,
      Dict.get?_set_ne _ _ hgit, Dict.get?_set_ne _ _ hcustom, Dict.get?_erase_ne _ href]
  rw [valueAt_obj, valueAt_obj, hget]

theorem kernel_elsewhere {pasted : Dict Json} (h : p.Of payload pasted) {ks : List String}
    (hu : Unowned payload ("kernel" :: ks)) :
    valueAt ks (.obj (p.kernelAfter candidate payload suites compiler makeFlags)) =
      valueAt ks (.obj p.kernel) := by
  have hown : ∀ o ∈ [["mode"], ["worktree", "ref"], ["worktree", "custom_ref"],
      ["worktree", "git_ref"], ["worktree", "b4_series"], ["worktree", "custom_label"],
      ["build", "compiler"], ["build", "make_flags"], ["reuse"]], ¬ o <+: ks ∧ ¬ ks <+: o := by
    intro o ho
    have hmem : "kernel" :: o ∈ ownedPaths payload := by
      refine List.mem_append_left _ ?_
      revert o
      decide
    have := hu _ hmem
    exact ⟨fun hp => this.1 (List.prefix_cons_inj "kernel" |>.mpr hp),
      fun hp => this.2 (List.prefix_cons_inj "kernel" |>.mpr hp)⟩
  have hsuite : ∀ group list, suiteKeys payload = some (group, list) →
      ∀ o ∈ [[group, "enable"], [group, list]], ¬ o <+: ks ∧ ¬ ks <+: o := by
    intro group list hkeys o ho
    have hmem : "kernel" :: o ∈ ownedPaths payload := by
      refine List.mem_append_right _ ?_
      rw [hkeys]
      simp only [List.mem_cons, List.not_mem_nil, or_false] at ho ⊢
      rcases ho with rfl | rfl
      · exact .inl rfl
      · exact .inr rfl
    have := hu _ hmem
    exact ⟨fun hp => this.1 (List.prefix_cons_inj "kernel" |>.mpr hp),
      fun hp => this.2 (List.prefix_cons_inj "kernel" |>.mpr hp)⟩
  cases ks with
  | nil => exact ((hown ["mode"] (by decide)).2 (List.nil_prefix)).elim
  | cons k ks =>
      have hne : ∀ o, o ∈ [["mode"], ["reuse"]] → ¬ o <+: k :: ks := fun o ho =>
        (hown o (by revert o; decide)).1
      have hmode : k ≠ "mode" := by
        rintro rfl
        exact hne ["mode"] (by decide) ⟨ks, rfl⟩
      have hreuse : k ≠ "reuse" := by
        rintro rfl
        exact hne ["reuse"] (by decide) ⟨ks, rfl⟩
      -- the four groups every override writes
      have hbase : (∀ group list, suiteKeys payload = some (group, list) → k ≠ group) →
          valueAt (k :: ks) (.obj (p.kernelAfter candidate payload suites compiler makeFlags)) =
            valueAt (k :: ks) (.obj p.kernel) := by
        intro hapart
        rw [valueAt_obj, kernelAfter_get? _ _ _ _ _ hapart, ← valueAt_obj]
        unfold Parts.kernelBase
        rw [valueAt_set_ne ks _ _ hreuse]
        by_cases hkb : k = "build"
        · subst hkb
          rw [valueAt_set_self, valueAt_obj]
          cases ks with
          | nil => exact ((hown ["build", "compiler"] (by decide)).2 ⟨["compiler"], rfl⟩).elim
          | cons k ks =>
              have hcompiler : k ≠ "compiler" := by
                rintro rfl
                exact (hown ["build", "compiler"] (by decide)).1 ⟨ks, rfl⟩
              have hflags : k ≠ "make_flags" := by
                rintro rfl
                exact (hown ["build", "make_flags"] (by decide)).1 ⟨ks, rfl⟩
              rw [group_places h.build]
              exact (valueAt_set_ne ks _ _ hflags).trans (valueAt_set_ne ks _ _ hcompiler)
        · rw [valueAt_set_ne ks _ _ hkb]
          by_cases hkw : k = "worktree"
          · subst hkw
            rw [valueAt_set_self, valueAt_obj]
            cases ks with
            | nil => exact ((hown ["worktree", "ref"] (by decide)).2 ⟨["ref"], rfl⟩).elim
            | cons k ks =>
                rw [group_places h.worktree]
                refine worktree_elsewhere candidate ks fun hk => ?_
                have hall : ∀ k ∈ ["ref", "custom_ref", "git_ref", "b4_series", "custom_label"],
                    ["worktree", k] ∈ [["mode"], ["worktree", "ref"], ["worktree", "custom_ref"],
                      ["worktree", "git_ref"], ["worktree", "b4_series"],
                      ["worktree", "custom_label"], ["build", "compiler"],
                      ["build", "make_flags"], ["reuse"]] := by decide
                exact (hown ["worktree", k] (hall k hk)).1 ⟨ks, rfl⟩
          · rw [valueAt_set_ne ks _ _ hkw, valueAt_set_ne ks _ _ hmode]
      cases hkeys : suiteKeys payload with
      | none => exact hbase fun _ _ h => by rw [hkeys] at h; cases h
      | some keys =>
          obtain ⟨group, list⟩ := keys
          by_cases hkg : k = group
          · subst hkg
            rw [valueAt_obj, kernelAfter_suite _ _ _ _ _ hkeys, Option.bind_some, valueAt_obj]
            cases ks with
            | nil =>
                exact ((hsuite k list hkeys [k, "enable"] List.mem_cons_self).2
                  ⟨["enable"], rfl⟩).elim
            | cons k' ks =>
                have hlist : k' ≠ list := by
                  rintro rfl
                  exact (hsuite k k' hkeys [k, k'] (List.mem_cons_of_mem _
                    List.mem_cons_self)).1 ⟨ks, rfl⟩
                have henable : k' ≠ "enable" := by
                  rintro rfl
                  exact (hsuite k list hkeys [k, "enable"] List.mem_cons_self).1 ⟨ks, rfl⟩
                rw [group_places (h.suite k list hkeys).1]
                exact (valueAt_set_ne ks _ _ hlist).trans (valueAt_set_ne ks _ _ henable)
          · refine hbase fun group' list' hkeys' => ?_
            rw [hkeys] at hkeys'
            cases hkeys'
            exact hkg

/-- Every place the bisect does not own is as it was pasted. -/
theorem overridden_elsewhere {pasted : Dict Json} (h : p.Of payload pasted)
    {path : List String} (hu : Unowned payload path) :
    valueAt path (.obj (p.overridden candidate vmName payload suites compiler makeFlags pasted)) =
      valueAt path (.obj pasted) := by
  cases path with
  | nil => exact ((hu ["vm"] (List.mem_append_left _ (by decide))).2 List.nil_prefix).elim
  | cons k ks =>
      have hvm : k ≠ "vm" := by
        rintro rfl
        exact (hu ["vm"] (List.mem_append_left _ (by decide))).1 ⟨ks, rfl⟩
      have hworktree : k ≠ "worktree" := by
        rintro rfl
        exact (hu ["worktree"] (List.mem_append_left _ (by decide))).1 ⟨ks, rfl⟩
      unfold Parts.overridden
      by_cases hkk : k = "kernel"
      · subst hkk
        rw [valueAt_set_self, kernel_elsewhere _ _ _ _ _ h hu, valueAt_obj, h.kernel,
          Option.bind_some]
      · rw [valueAt_set_ne ks _ _ hkk]
        by_cases hkc : k = "closure"
        · subst hkc
          rw [valueAt_set_self, closure_elsewhere _ _ h hu, valueAt_obj, h.closure,
            Option.bind_some]
        · rw [valueAt_set_ne ks _ _ hkc, valueAt_obj, Dict.get?_erase_ne _ hworktree,
            Dict.get?_set_ne _ _ hvm, ← valueAt_obj]

/-! ## The places the bisect owns -/

/-- What the bisect's own places hold. -/
structure Owns (args : Json) : Prop where
  vm : valueAt ["vm"] args = some (vmGroup vmName)
  worktree : valueAt ["worktree"] args = none
  vmName : valueAt ["closure", "guest", "vm_name"] args = some (.str vmName)
  mode : valueAt ["kernel", "mode"] args = some (.str "build")
  reuse : valueAt ["kernel", "reuse"] args = some reuseGroup
  gitRef : valueAt ["kernel", "worktree", "git_ref"] args = some candidate
  ref : valueAt ["kernel", "worktree", "ref"] args = none
  customRef : valueAt ["kernel", "worktree", "custom_ref"] args = some (.bool true)
  b4Series : valueAt ["kernel", "worktree", "b4_series"] args = some (.str "")
  customLabel : valueAt ["kernel", "worktree", "custom_label"] args = some (.bool false)
  compiler : valueAt ["kernel", "build", "compiler"] args = some (.str compiler)
  makeFlags : valueAt ["kernel", "build", "make_flags"] args = some (.str makeFlags)
  suite : ∀ group list, suiteKeys payload = some (group, list) →
    valueAt ["kernel", group, "enable"] args = some (.bool true)

/-- A list extended: the pasted items, then the new ones that no item equals, no
two of them equal. -/
def Extended (pasted : Option Json) (extra : List String) (out : Option Json) : Prop :=
  ∃ xs added, ListIs pasted xs ∧ out = some (.arr (firsts xs ++ added)) ∧
    added.Sublist (extra.map Json.str) ∧ Apart (firsts xs ++ added) ∧
    ∀ x ∈ extra.map Json.str, ∃ y ∈ firsts xs ++ added, Json.eq x y = true

theorem extended_firsts {v : Option Json} {xs : List Json} (h : ListIs v xs)
    (extra : List String) : Extended v extra (some (.arr (firsts (xs ++ extra.map Json.str)))) := by
  have happ : firsts (xs ++ extra.map Json.str) =
      (extra.map Json.str).foldl keepNew (firsts xs) := List.foldl_append
  obtain ⟨added, hadded, hsub⟩ := foldl_keepNew (extra.map Json.str) (firsts xs)
  refine ⟨xs, added, h, ?_, hsub, ?_, ?_⟩
  · rw [happ, hadded]
  · rw [← hadded, ← happ]
    exact firsts_apart _
  · rw [← hadded]
    exact foldl_keepNew_covers (strs_hashable extra) _

theorem valueAt_one (k : String) (kvs : Dict Json) : valueAt [k] (.obj kvs) = Dict.get? kvs k := by
  rw [valueAt_obj]
  cases Dict.get? kvs k <;> rfl

theorem valueAt_closure (ks : List String) (pasted : Dict Json) :
    valueAt ("closure" :: ks)
        (.obj (p.overridden candidate vmName payload suites compiler makeFlags pasted)) =
      valueAt ks (.obj (p.closureAfter vmName payload)) := by
  unfold Parts.overridden
  rw [valueAt_set_ne ks _ _ (by decide), valueAt_set_self]

theorem valueAt_kernel (ks : List String) (pasted : Dict Json) :
    valueAt ("kernel" :: ks)
        (.obj (p.overridden candidate vmName payload suites compiler makeFlags pasted)) =
      valueAt ks (.obj (p.kernelAfter candidate payload suites compiler makeFlags)) := by
  unfold Parts.overridden
  rw [valueAt_set_self]

theorem valueAt_kernelBase {k : String} (hk : k ∈ ["mode", "worktree", "build", "reuse"])
    (ks : List String) (pasted : Dict Json) :
    valueAt ("kernel" :: k :: ks)
        (.obj (p.overridden candidate vmName payload suites compiler makeFlags pasted)) =
      (Dict.get? (p.kernelBase candidate compiler makeFlags) k).bind (valueAt ks) := by
  rw [valueAt_kernel, valueAt_obj, kernelAfter_get? _ _ _ _ _ (baseKey_apart hk)]

theorem overridden_owns (pasted : Dict Json) :
    Owns candidate vmName payload compiler makeFlags
      (.obj (p.overridden candidate vmName payload suites compiler makeFlags pasted)) := by
  have hmerge : p.worktreeAfter candidate =
      Dict.set (Dict.set (Dict.set (Dict.set (Dict.erase p.worktree "ref") "custom_ref"
        (.bool true)) "git_ref" candidate) "b4_series" (.str "")) "custom_label" (.bool false) := rfl
  have hwt : ∀ k, valueAt ["kernel", "worktree", k]
      (.obj (p.overridden candidate vmName payload suites compiler makeFlags pasted)) =
        Dict.get? (p.worktreeAfter candidate) k := by
    intro k
    rw [valueAt_kernelBase _ _ _ _ _ _ (by decide), kernelBase_worktree, Option.bind_some,
      valueAt_one]
  have hbuild : ∀ k, valueAt ["kernel", "build", k]
      (.obj (p.overridden candidate vmName payload suites compiler makeFlags pasted)) =
        Dict.get? (p.buildAfter compiler makeFlags) k := by
    intro k
    rw [valueAt_kernelBase _ _ _ _ _ _ (by decide), kernelBase_build, Option.bind_some,
      valueAt_one]
  have hbuildAfter : p.buildAfter compiler makeFlags =
      Dict.set (Dict.set p.build "compiler" (.str compiler)) "make_flags" (.str makeFlags) := rfl
  refine
    { vm := ?_, worktree := ?_, vmName := ?_, mode := ?_, reuse := ?_, gitRef := ?_, ref := ?_,
      customRef := ?_, b4Series := ?_, customLabel := ?_, compiler := ?_, makeFlags := ?_,
      suite := ?_ }
  · rw [valueAt_one, Parts.overridden, Dict.get?_set_ne _ _ (by decide),
      Dict.get?_set_ne _ _ (by decide), Dict.get?_erase_ne _ (by decide), Dict.get?_set_self]
  · rw [valueAt_one, Parts.overridden, Dict.get?_set_ne _ _ (by decide),
      Dict.get?_set_ne _ _ (by decide), Dict.get?_erase_self]
  · rw [valueAt_closure, Parts.closureAfter, valueAt_set_ne _ _ _ (by decide), valueAt_set_self,
      Parts.guestAfter, valueAt_one, Dict.get?_set_self]
  · rw [valueAt_kernelBase _ _ _ _ _ _ (by decide), kernelBase_mode]
    rfl
  · rw [valueAt_kernelBase _ _ _ _ _ _ (by decide), kernelBase_reuse]
    rfl
  · rw [hwt, hmerge]
    simp [Dict.get?_set]
  · rw [hwt, hmerge]
    simp [Dict.get?_set, Dict.get?_erase_self]
  · rw [hwt, hmerge]
    simp [Dict.get?_set]
  · rw [hwt, hmerge]
    simp [Dict.get?_set]
  · rw [hwt, hmerge]
    simp [Dict.get?_set]
  · rw [hbuild, hbuildAfter]
    simp [Dict.get?_set]
  · rw [hbuild, hbuildAfter]
    simp [Dict.get?_set]
  · intro group list hkeys
    have hlist : "enable" ≠ list := (suiteKeys_apart hkeys).2.2.2.2.symm
    rw [valueAt_kernel, valueAt_obj, kernelAfter_suite _ _ _ _ _ hkeys, Option.bind_some,
      valueAt_one, Parts.suiteAfter, Dict.get?_set_ne _ _ hlist]
    exact Dict.get?_set_self _ _ _

/-- The test suites, and the list of the payload's own group, are the pasted
ones extended. -/
theorem overridden_extended {pasted : Dict Json} (h : p.Of payload pasted) :
    Extended (valueAt ["closure", "closure", "test_suites"] (.obj pasted)) (closureSuites payload)
        (valueAt ["closure", "closure", "test_suites"]
          (.obj (p.overridden candidate vmName payload suites compiler makeFlags pasted))) ∧
      ∀ group list, suiteKeys payload = some (group, list) →
        Extended (valueAt ["kernel", group, list] (.obj pasted)) (suitePicks payload suites)
          (valueAt ["kernel", group, list]
            (.obj (p.overridden candidate vmName payload suites compiler makeFlags pasted))) := by
  constructor
  · have hpasted : valueAt ["closure", "closure", "test_suites"] (.obj pasted) =
        Dict.get? p.body "test_suites" := by
      rw [valueAt_obj, h.closure, Option.bind_some, valueAt_obj, default_places h.body, valueAt_one]
    have hmade : valueAt ["closure", "closure", "test_suites"]
        (.obj (p.overridden candidate vmName payload suites compiler makeFlags pasted)) =
          some (.arr (p.suitesAfter payload)) := by
      rw [valueAt_closure, Parts.closureAfter, valueAt_set_self, Parts.bodyAfter, valueAt_one,
        Dict.get?_set_self]
    rw [hpasted, hmade]
    exact extended_firsts h.testSuites _
  · intro group list hkeys
    have hpasted : valueAt ["kernel", group, list] (.obj pasted) = Dict.get? p.suite list := by
      rw [valueAt_obj, h.kernel, Option.bind_some, valueAt_obj,
        group_places (h.suite group list hkeys).1, valueAt_one]
    have hmade : valueAt ["kernel", group, list]
        (.obj (p.overridden candidate vmName payload suites compiler makeFlags pasted)) =
          some (.arr (p.pickedAfter payload suites)) := by
      rw [valueAt_kernel, valueAt_obj, kernelAfter_suite _ _ _ _ _ hkeys, Option.bind_some,
        valueAt_one, Parts.suiteAfter, Dict.get?_set_self]
    rw [hpasted, hmade]
    exact extended_firsts (h.suite group list hkeys).2 _

end Overridden

end KdevopsNg.Kernel
