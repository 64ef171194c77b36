import ElCache.Arc.Run

/-!
# The capacity of the ARC cache

A new key makes room for its value before it is stored. A put under a key that is stored already, in
`T1` or in `T2`, exchanges the value without looking at the capacity, so a larger value can take the
cache beyond it. A remove can do it too, once the sum of the sizes has wrapped: `size()` is then
smaller than a size that is taken away from it. `capacity_iff` says that these are the only ways to
exceed the capacity with values that fit into it.
-/

namespace ElCache

namespace ARCCache

open scoped Counter

variable {K V S : Type*} [Counter S] {c : ARCCache K V S}

/-- `size()`. -/
def size (c : ARCCache K V S) : S := c.currentSize

/-- The size is within the capacity. -/
def WithinCapacity (c : ARCCache K V S) : Prop := c.size ≤ c.capacity

/-- Taking the stored value of the call's key away from `size()`, and adding the new one if the call
is a put, leaves at most the capacity. The arithmetic is that of `size_t`. A call that is neither a
put nor a remove, or whose key is not stored, has nothing to take away. -/
def RoomForUpdate (call : Call K V) (c : ARCCache K V S) : Prop :=
  match call with
  | .put key value => ∀ old ∈ c.lookup key, c.size - c.sizeFn old + c.sizeFn value ≤ c.capacity
  | .remove key => ∀ old ∈ c.lookup key, c.size - c.sizeFn old ≤ c.capacity
  | _ => True

instance RoomForUpdate.decidable (call : Call K V) (c : ARCCache K V S) :
    Decidable (RoomForUpdate call c) :=
  match call with
  | .put key _ => Option.decidableForallMem (c.lookup key)
  | .remove key => Option.decidableForallMem (c.lookup key)
  | .get _ | .contains _ | .clear => isTrue trivial

variable [DecidableEq K]

/-- A get moves entries and leaves their total alone. -/
theorem currentSize_get (h : c.Inv) (k : K) : (c.get k).2.currentSize = c.currentSize := by
  obtain ⟨-, hinv, hcont, -, hsize⟩ := get_spec h k
  rw [hinv.currentSize, weight, hcont, hsize, h.currentSize, weight]

/-- One call keeps the size within the capacity exactly if it finds room for an update. -/
theorem withinCapacity_exec (h : c.Inv) (hwithin : c.WithinCapacity) (call : Call K V)
    (hfit : ∀ key value, call = .put key value → c.sizeFn value ≤ c.capacity) :
    (exec call c).2.WithinCapacity ↔ RoomForUpdate call c := by
  rw [WithinCapacity, (sizeFn_exec h call).2]
  cases call with
  | put key value =>
    show (c.put key value).2.currentSize ≤ c.capacity ↔ ∀ old ∈ c.lookup key, _
    cases hl : c.lookup key with
    | some old =>
      rw [currentSize_put_of_stored h hl]
      exact ⟨fun hle w hw => Option.some.inj hw ▸ hle, fun hroom => hroom old rfl⟩
    | none =>
      refine ⟨fun _ old hold => (by cases hold), fun _ => ?_⟩
      exact currentSize_put_of_new h hl (hfit key value rfl)
  | remove key =>
    show (c.remove key).2.currentSize ≤ c.capacity ↔ ∀ old ∈ c.lookup key, _
    cases hl : c.lookup key with
    | some old =>
      rw [currentSize_remove_of_stored h hl]
      exact ⟨fun hle w hw => Option.some.inj hw ▸ hle, fun hroom => hroom old rfl⟩
    | none =>
      refine ⟨fun _ old hold => (by cases hold), fun _ => ?_⟩
      rw [currentSize_remove_of_new hl]
      exact hwithin
  | get key => exact ⟨fun _ => trivial, fun _ => (currentSize_get h key).le.trans hwithin⟩
  | contains key => exact ⟨fun _ => trivial, fun _ => hwithin⟩
  | clear => exact ⟨fun _ => trivial, fun _ => Counter.zero_le _⟩

/-- Along a run in which every value put fits into the cache, the size stays within the capacity if
and only if every put and every remove of a stored key finds room: what `size()` becomes, in the
arithmetic of `size_t`, is within the capacity. -/
theorem capacity_iff (capacity : UInt64) (sizeFn : V → UInt64) (calls : List (Call K V))
    (hfit : ∀ key value, .put key value ∈ calls → sizeFn value ≤ capacity) :
    EveryState (fun call c => (exec call c).2) WithinCapacity calls
        ({ capacity := capacity, sizeFn := sizeFn } : ARCCache K V UInt64) ↔
      EveryStep (fun call c => (exec call c).2) RoomForUpdate calls
        { capacity := capacity, sizeFn := sizeFn } := by
  refine everyState_iff_everyStep
    (I := fun c => c.Inv ∧ c.sizeFn = sizeFn ∧ c.capacity = capacity) ?_ ?_
    ⟨inv_empty capacity sizeFn, rfl, rfl⟩ (Counter.zero_le _)
  · rintro call - c ⟨hinv, rfl, rfl⟩
    exact ⟨hinv.exec call, sizeFn_exec hinv call⟩
  · rintro call hcall c ⟨hinv, rfl, rfl⟩ hwithin
    refine withinCapacity_exec hinv hwithin call ?_
    rintro key value rfl
    exact hfit key value hcall

/-- A cache for three units in which an entry grows by one unit while there is room for it, and
another is removed. -/
theorem capacity_iff_room :
    EveryState (fun call c => (exec call c).2) WithinCapacity
      [.put 0 1, .put 1 1, .put 0 2, .remove 1]
      ({ capacity := 3, sizeFn := id } : ARCCache Nat UInt64 UInt64) := by
  refine (capacity_iff 3 id _ ?_).2 ⟨?_, ?_, ?_, ?_, trivial⟩
  · intro key value hmem
    simp only [List.mem_cons, Call.put.injEq, List.not_mem_nil, or_false, reduceCtorEq] at hmem
    obtain ⟨-, rfl⟩ | ⟨-, rfl⟩ | ⟨-, rfl⟩ := hmem <;> decide
  · decide +kernel
  · decide +kernel
  · decide +kernel
  · decide +kernel

/-- In a cache for two units the entry does not find room, and grows all the same. -/
theorem not_withinCapacity_update :
    ¬ WithinCapacity (after 2 id [.put 0 1, .put 1 1, .put 0 2] :
      ARCCache Nat UInt64 UInt64) := by
  intro h
  exact absurd h (by unfold WithinCapacity; decide +kernel)

end ARCCache

end ElCache
