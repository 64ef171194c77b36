import ElCache.Arc.Spec
import ElCache.Lib.Prog

/-!
# Runs of the ARC cache

A run is a sequence of calls on a cache that starts empty. The representation invariant holds in
every state of a run (`inv_after`), and the cache is a finite map that loses an entry only by
reporting it: `updateReference` keeps the map a client can know by looking at the calls and the
replies, and every reply is the one that map gives (`exec_answers`). Neither depends on the
arithmetic of sizes: if a sum wraps, other entries are evicted, and they are reported.
-/

namespace ElCache

namespace ARCCache

open IndexedList

/-- A call of the cache. -/
inductive Call (K V : Type*) where
  | put (key : K) (value : V)
  | get (key : K)
  | remove (key : K)
  | contains (key : K)
  | clear

/-- What a call returns. -/
inductive Reply (K V : Type*) where
  | evicted (pairs : List (K × V))
  | value (found : Option V)
  | removed (found : Bool)
  | contained (found : Bool)
  | cleared

variable {K V S : Type*} [Counter S] [DecidableEq K] {c : ARCCache K V S}

/-- One call: its reply and the state it leaves. -/
def exec (call : Call K V) (c : ARCCache K V S) : Reply K V × ARCCache K V S :=
  match call with
  | .put key value => (.evicted (c.put key value).1, (c.put key value).2)
  | .get key => (.value (c.get key).1, (c.get key).2)
  | .remove key => (.removed (c.remove key).1, (c.remove key).2)
  | .contains key => (.contained (c.contains key), c)
  | .clear => (.cleared, c.clear)

/-- The state after a sequence of calls on an empty cache. -/
def after (capacity : S) (sizeFn : V → S) (calls : List (Call K V)) : ARCCache K V S :=
  runOps (fun call c => (exec call c).2) calls { capacity := capacity, sizeFn := sizeFn }

/-! ## The representation invariant -/

/-- Every call keeps the invariant. -/
theorem Inv.exec (h : c.Inv) (call : Call K V) : (exec call c).2.Inv := by
  cases call with
  | put key value => exact (put_spec h key value).inv
  | get key => exact (get_spec h key).2.1
  | remove key => exact (remove_spec h key).2.1
  | contains key => exact h
  | clear => exact inv_empty c.capacity c.sizeFn

theorem sizeFn_exec (h : c.Inv) (call : Call K V) :
    (ARCCache.exec call c).2.sizeFn = c.sizeFn ∧
    (ARCCache.exec call c).2.capacity = c.capacity := by
  cases call with
  | put key value => exact ⟨(put_spec h key value).sizeFn, (put_spec h key value).capacity⟩
  | get key => exact ⟨(get_spec h key).2.2.2.2, (get_spec h key).2.2.2.1⟩
  | remove key => exact ⟨(remove_spec h key).2.2.2.2, (remove_spec h key).2.2.2.1⟩
  | contains key => exact ⟨rfl, rfl⟩
  | clear => exact ⟨rfl, rfl⟩

theorem inv_after (capacity : S) (sizeFn : V → S) (calls : List (Call K V)) :
    (after capacity sizeFn calls).Inv :=
  runOps_inv (inv_empty capacity sizeFn) fun call _ _ hc => hc.exec call

theorem config_after (capacity : S) (sizeFn : V → S) (calls : List (Call K V)) :
    (after capacity sizeFn calls).sizeFn = sizeFn ∧
      (after capacity sizeFn calls).capacity = capacity := by
  have h : (after capacity sizeFn calls).Inv ∧ (after capacity sizeFn calls).sizeFn = sizeFn ∧
      (after capacity sizeFn calls).capacity = capacity := by
    refine runOps_inv (I := fun c : ARCCache K V S => c.Inv ∧ c.sizeFn = sizeFn ∧
      c.capacity = capacity) ⟨inv_empty capacity sizeFn, rfl, rfl⟩ fun call _ c hc => ?_
    obtain ⟨hsize, hcap⟩ := sizeFn_exec hc.1 call
    exact ⟨hc.1.exec call, hsize.trans hc.2.1, hcap.trans hc.2.2⟩
  exact h.2

/-! ## The reference map -/

/-- The map a client keeps from the calls and their replies: a put drops the keys reported as
evicted and then binds its own. -/
def updateReference (call : Call K V) (reply : Reply K V) (M : K → Option V) : K → Option V :=
  match call, reply with
  | .put key value, .evicted pairs =>
    Function.update (fun k => if k ∈ pairs.map Prod.fst then none else M k) key (some value)
  | .remove key, _ => Function.update M key none
  | .clear, _ => fun _ => none
  | _, _ => M

/-- The reply is the one the map gives. An evicted list names different keys, none of them the key
put, each with the value the map has for it. -/
def Answers (M : K → Option V) : Call K V → Reply K V → Prop
  | .put key _, .evicted pairs =>
    (pairs.map Prod.fst).Nodup ∧ key ∉ pairs.map Prod.fst ∧ ∀ x ∈ pairs, M x.1 = some x.2
  | .get key, .value found => found = M key
  | .remove key, .removed found => found = (M key).isSome
  | .contains key, .contained found => found = (M key).isSome
  | .clear, .cleared => True
  | _, _ => False

/-- One call on a cache and on the map kept beside it. -/
def execBoth (call : Call K V) (s : ARCCache K V S × (K → Option V)) :
    ARCCache K V S × (K → Option V) :=
  ((exec call s.1).2, updateReference call (exec call s.1).1 s.2)

/-- The cache and the reference map after a sequence of calls. -/
def afterBoth (capacity : S) (sizeFn : V → S) (calls : List (Call K V)) :
    ARCCache K V S × (K → Option V) :=
  runOps execBoth calls ({ capacity := capacity, sizeFn := sizeFn }, fun _ => none)

/-- A cache whose contents are a map answers as the map does, and its contents after the call are
the map after the call. -/
theorem exec_refines (h : c.Inv) (call : Call K V) :
    Answers c.lookup call (exec call c).1 ∧
      (exec call c).2.lookup = updateReference call (exec call c).1 c.lookup := by
  cases call with
  | put key value =>
    refine ⟨(put_spec h key value).evicted h, funext fun k => ?_⟩
    simp only [exec, updateReference]
    by_cases hk : k = key
    · subst hk
      rw [lookup_put_self h, Function.update_self]
    · rw [lookup_put_of_ne h hk, Function.update_of_ne hk]
  | get key => exact ⟨(get_spec h key).1, funext fun k => lookup_get h key k⟩
  | remove key =>
    refine ⟨(remove_spec h key).1, funext fun k => ?_⟩
    simp only [exec, updateReference, lookup_remove h]
    by_cases hk : k = key
    · subst hk
      simp
    · simp [hk]
  | contains key => exact ⟨contains_eq h key, rfl⟩
  | clear => exact ⟨trivial, rfl⟩

theorem lookup_afterBoth (capacity : S) (sizeFn : V → S) (calls : List (Call K V)) :
    (afterBoth capacity sizeFn calls).1.Inv ∧
      (afterBoth capacity sizeFn calls).1.lookup = (afterBoth capacity sizeFn calls).2 := by
  refine runOps_inv (I := fun s : ARCCache K V S × (K → Option V) => s.1.Inv ∧ s.1.lookup = s.2)
    ⟨inv_empty capacity sizeFn, rfl⟩ fun call _ s hs => ⟨hs.1.exec call, ?_⟩
  rw [execBoth, ← hs.2]
  exact (exec_refines hs.1 call).2

/-- At every point of a run the next call, whatever it is, gets the reply the reference map
gives. -/
theorem exec_answers (capacity : S) (sizeFn : V → S) (calls : List (Call K V))
    (call : Call K V) :
    Answers (afterBoth capacity sizeFn calls).2 call
      (exec call (afterBoth capacity sizeFn calls).1).1 := by
  obtain ⟨hinv, hlook⟩ := lookup_afterBoth capacity sizeFn calls
  rw [← hlook]
  exact (exec_refines hinv call).1

end ARCCache

end ElCache
