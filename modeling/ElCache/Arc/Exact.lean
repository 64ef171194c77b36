import ElCache.Arc.Run

/-!
# Sums of sizes that wrap

The cache adds up sizes in a `size_t`. `ARCCache.exact` reads such a cache as one with sizes in `ℕ`.
As long as no sum of stored sizes reaches `2 ^ 64` the two do the same: a call that finds room for
its value in a `size_t` beside the values stored under other keys (`SumsFit`) has the same reply and
leaves the same cache (`exact_exec`), so along a run of such calls the source's cache is the exact
one (`exact_after`).

A run with a put that does not find this room leaves the representation invariant: the sum wraps,
the value seems to fit, and `current_size_` is no longer the total of what is stored
(`not_represents_wrapped`). `representation_invariant` says that it holds along all other runs.
-/

namespace ElCache

/-! ## Lists with other entries -/

section
variable {K E F : Type*} (f : E → F)

/-- The node with another entry. -/
def Node.mapEntry (n : Node K E) : Node K F := ⟨n.id, n.key, f n.entry⟩

@[simp] theorem Node.id_mapEntry (n : Node K E) : (n.mapEntry f).id = n.id := rfl

@[simp] theorem Node.key_mapEntry (n : Node K E) : (n.mapEntry f).key = n.key := rfl

@[simp] theorem Node.entry_mapEntry (n : Node K E) : (n.mapEntry f).entry = f n.entry := rfl

namespace IndexedList

/-- The list with other entries, in the same nodes under the same keys. -/
def mapEntries (l : IndexedList K E) : IndexedList K F where
  list := l.list.map (Node.mapEntry f)
  map := l.map
  next := l.next

variable {f} {l : IndexedList K E}

@[simp] theorem size_mapEntries : (l.mapEntries f).size = l.size := List.length_map _

@[simp] theorem empty_mapEntries : (l.mapEntries f).empty = l.empty := by
  simp [empty, mapEntries]

@[simp] theorem keys_mapEntries : (l.mapEntries f).keys = l.keys := by
  simp only [keys_eq, mapEntries, List.map_map]
  rfl

@[simp] theorem pairs_mapEntries : (l.mapEntries f).pairs = l.pairs.map fun x => (x.1, f x.2) := by
  simp only [pairs, mapEntries, List.map_map, Multiset.map_coe]
  rfl

@[simp] theorem find_mapEntries (k : K) :
    (l.mapEntries f).find k = (l.find k).map (Node.mapEntry f) := by
  simp only [find, mapEntries]
  cases l.map k with
  | none => rfl
  | some i => exact List.find?_map ..

/-- Filtering by address does not look at entries. -/
theorem filter_mapEntries (i : Nat) : (l.list.map (Node.mapEntry f)).filter (fun m => m.id ≠ i) =
    (l.list.filter fun m => m.id ≠ i).map (Node.mapEntry f) := by
  rw [List.filter_map]
  rfl

@[simp] theorem moveToFront_mapEntries (n : Node K E) :
    (l.mapEntries f).moveToFront (n.mapEntry f) = (l.moveToFront n).mapEntries f := by
  simp only [moveToFront, mapEntries, List.map_cons]
  exact congrArg (fun list => (⟨n.mapEntry f :: list, l.map, l.next⟩ : IndexedList K F))
    (filter_mapEntries n.id)

@[simp] theorem assign_mapEntries (n : Node K E) (e : E) :
    (l.mapEntries f).assign (n.mapEntry f) (f e) = (l.assign n e).mapEntries f := by
  simp only [assign, mapEntries, List.map_map]
  refine congrArg (fun list => (⟨list, l.map, l.next⟩ : IndexedList K F)) ?_
  refine List.map_congr_left fun m _ => ?_
  by_cases hid : m.id = n.id
  · simp [Node.mapEntry, hid]
  · simp [Node.mapEntry, hid]

variable [DecidableEq K]

@[simp] theorem pushFront_mapEntries (k : K) (e : E) :
    (l.mapEntries f).pushFront k (f e) = (l.pushFront k e).mapEntries f := rfl

@[simp] theorem eraseNode_mapEntries (n : Node K E) :
    (l.mapEntries f).eraseNode (n.mapEntry f) = (l.eraseNode n).mapEntries f := by
  simp only [eraseNode, mapEntries]
  exact congrArg (fun list =>
    (⟨list, Function.update l.map n.key none, l.next⟩ : IndexedList K F)) (filter_mapEntries n.id)

/-- The node `pop_back` takes is one of the list. -/
theorem mem_of_popBack {n : Node K E} {l' : IndexedList K E} (h : l.popBack = some (n, l')) :
    n ∈ l.list := by
  obtain ⟨m, hm, heq⟩ := Option.map_eq_some_iff.1 h
  cases heq
  exact List.mem_of_getLast? hm

theorem popBack_mapEntries : (l.mapEntries f).popBack =
    l.popBack.map fun x => (x.1.mapEntry f, x.2.mapEntries f) := by
  simp only [popBack, mapEntries, List.getLast?_map, Option.map_map, ← List.map_dropLast]
  rfl

omit [DecidableEq K] in
theorem WF.mapEntries (h : l.WF) : (l.mapEntries f).WF where
  nodup := by
    simp only [IndexedList.mapEntries, List.map_map]
    exact h.nodup
  ids := by
    simp only [IndexedList.mapEntries, List.map_map]
    exact h.ids
  fresh := by
    simp only [IndexedList.mapEntries, List.forall_mem_map]
    exact h.fresh
  index k i := by
    simp only [IndexedList.mapEntries, List.mem_map, exists_exists_and_eq_and]
    exact h.index k i

end IndexedList

end

namespace ARCCache

open IndexedList
open scoped Counter

variable {K V : Type*} {c : ARCCache K V UInt64}

/-! ## The exact cache -/

/-- The entry with its size as a number. -/
def exactEntry (e : Entry V UInt64) : Entry V ℕ := ⟨e.value, e.size.toNat⟩

@[simp] theorem get_mapEntries (l : LRUList K V UInt64) (k : K) :
    (l.mapEntries exactEntry).get k = l.get k := by
  rw [IndexedList.get, find_mapEntries, Option.map_map]
  rfl

/-- The cache with its sizes as numbers. -/
def exact (c : ARCCache K V UInt64) : ARCCache K V ℕ where
  capacity := c.capacity.toNat
  sizeFn value := (c.sizeFn value).toNat
  t1 := c.t1.mapEntries exactEntry
  t2 := c.t2.mapEntries exactEntry
  b1 := c.b1
  b2 := c.b2
  p := c.p
  currentSize := c.currentSize.toNat

@[simp] theorem contents_exact (c : ARCCache K V UInt64) : c.exact.contents = c.contents := by
  simp only [contents, entries, exact, pairs_mapEntries, ← Multiset.map_add, Multiset.map_map]
  rfl

@[simp] theorem directory_exact (c : ARCCache K V UInt64) : c.exact.directory = c.directory := by
  simp only [directory, exact, keys_mapEntries]

/-- The total of the stored sizes is the exact weight, up to multiples of `2 ^ 64`. -/
theorem Inv.toNat_currentSize (h : c.Inv) (hlt : c.exact.weight < 2 ^ 64) :
    c.currentSize.toNat = c.exact.weight := by
  have hweight : c.exact.weight =
      ((c.contents.map fun x => c.sizeFn x.2).map UInt64.toNat).sum := by
    rw [weight, contents_exact, Multiset.map_map]
    rfl
  rw [h.currentSize, weight, hweight]
  exact Counter.toNat_sum_word_of_lt (hweight ▸ hlt)

/-- If the stored sizes add up to a `size_t`, the cache is in order as an exact one. -/
theorem Inv.exact (h : c.Inv) (hlt : c.exact.weight < 2 ^ 64) : c.exact.Inv where
  t1 := h.t1.mapEntries
  t2 := h.t2.mapEntries
  b1 := h.b1
  b2 := h.b2
  nodup := by
    rw [directory_exact]
    exact h.nodup
  sizes := by
    intro x hx
    simp only [entries, ARCCache.exact, pairs_mapEntries, ← Multiset.map_add] at hx
    obtain ⟨y, hy, rfl⟩ := Multiset.mem_map.1 hx
    exact congrArg UInt64.toNat (h.sizes y hy)
  currentSize := h.toNat_currentSize hlt
  p_nonneg := h.p_nonneg
  p_le := h.p_le

/-- In an exact cache the size of an entry is part of the total. -/
theorem Inv.size_le {d : ARCCache K V ℕ} (h : d.Inv) {x : K × Entry V ℕ} (hx : x ∈ d.entries) :
    x.2.size ≤ d.currentSize := by
  rw [h.currentSize, ← h.sum_sizes]
  exact Multiset.single_le_sum (fun _ _ => Nat.zero_le _) _
    (Multiset.mem_map_of_mem (fun x : K × Entry V ℕ => x.2.size) hx)

/-- Taking an entry's size away does not go below zero. -/
theorem Inv.toNat_sub_size (h : c.Inv) (hlt : c.exact.weight < 2 ^ 64) {n : Node K (Entry V UInt64)}
    (hn : n ∈ c.t1.list ∨ n ∈ c.t2.list) :
    (c.currentSize - n.entry.size).toNat = c.currentSize.toNat - n.entry.size.toNat := by
  have hmem : (n.key, exactEntry n.entry) ∈ c.exact.entries := by
    simp only [entries, ARCCache.exact, pairs_mapEntries, ← Multiset.map_add]
    refine Multiset.mem_map.2 ⟨(n.key, n.entry), ?_, rfl⟩
    rcases hn with hn | hn
    · exact Multiset.mem_add.2 (.inl (mem_pairs.2 ⟨n, hn, rfl⟩))
    · exact Multiset.mem_add.2 (.inr (mem_pairs.2 ⟨n, hn, rfl⟩))
  exact UInt64.toNat_sub_of_le _ _ (UInt64.le_iff_toNat_le.2 ((h.exact hlt).size_le hmem))

/-- The total of a list is at most the weight, and exact with it. -/
theorem Inv.toNat_totalSize (h : c.Inv) (hlt : c.exact.weight < 2 ^ 64) :
    c.t1.totalSize.toNat = c.exact.t1.totalSize := by
  have hsum : c.exact.t1.totalSize =
      (((c.t1.list.map fun n => n.entry.size : List UInt64) : Multiset UInt64).map
        UInt64.toNat).sum := by
    simp only [totalSize, ARCCache.exact, mapEntries, List.map_map, Multiset.map_coe,
      Multiset.sum_coe]
    rfl
  have hle : c.exact.t1.totalSize ≤ c.exact.weight := by
    rw [← (h.exact hlt).sum_sizes, entries, Multiset.map_add, Multiset.sum_add]
    simp only [pairs, totalSize, Multiset.map_coe, Multiset.sum_coe, List.map_map]
    exact Nat.le_add_right _ _
  rw [hsum] at hle ⊢
  exact Counter.toNat_sum_word_of_lt (hle.trans_lt hlt)

section
variable [DecidableEq K] {k : K}

/-! ## One call -/

/-- The reply of an operation and the exact reading of the cache it leaves. -/
def exactResult {R : Type*} (r : R × ARCCache K V UInt64) : R × ARCCache K V ℕ := (r.1, r.2.exact)

theorem exact_get (c : ARCCache K V UInt64) (k : K) : c.exact.get k = exactResult (c.get k) := by
  simp only [get, ARCCache.exact, find_mapEntries]
  cases c.t1.find k with
  | some n => simp [exactResult, ARCCache.exact]
  | none =>
    cases c.t2.find k with
    | some n => simp [exactResult, ARCCache.exact, exactEntry]
    | none => simp [exactResult, ARCCache.exact]

theorem exact_remove (h : c.Inv) (hlt : c.exact.weight < 2 ^ 64) (k : K) :
    c.exact.remove k = exactResult (c.remove k) := by
  simp only [remove, ARCCache.exact, find_mapEntries]
  cases h1 : c.t1.find k with
  | some n =>
    have hsub := h.toNat_sub_size hlt (.inl (h.t1.find_eq_some.1 h1).1)
    simp [exactResult, ARCCache.exact, exactEntry, hsub]
  | none =>
    cases h2 : c.t2.find k with
    | some n =>
      have hsub := h.toNat_sub_size hlt (.inr (h.t2.find_eq_some.1 h2).1)
      simp [exactResult, ARCCache.exact, exactEntry, hsub]
    | none => simp [exactResult, ARCCache.exact]

/-- The total of `t1` and the subtraction are exact, so the same entry goes. -/
theorem exact_evictOne (h : c.Inv) (hlt : c.exact.weight < 2 ^ 64) :
    c.exact.evictOne = exactResult c.evictOne := by
  have htotal : Counter.toNat c.exact.t1.totalSize = Counter.toNat c.t1.totalSize :=
    (h.toNat_totalSize hlt).symm
  have hcond : (!c.exact.t1.empty && (decide (⌊c.exact.p⌋.toNat < Counter.toNat
      c.exact.t1.totalSize) || c.exact.t2.empty)) =
      (!c.t1.empty && (decide (⌊c.p⌋.toNat < Counter.toNat c.t1.totalSize) || c.t2.empty)) := by
    rw [htotal, show c.exact.t1.empty = c.t1.empty from empty_mapEntries,
      show c.exact.t2.empty = c.t2.empty from empty_mapEntries]
    rfl
  rw [evictOne, evictOne, hcond]
  split
  · rw [show c.exact.t1 = c.t1.mapEntries exactEntry from rfl, popBack_mapEntries]
    cases hpop : c.t1.popBack with
    | none => rfl
    | some x =>
      have hsub := h.toNat_sub_size hlt (.inl (mem_of_popBack hpop))
      simp [exactResult, ARCCache.exact, exactEntry, hsub]
  · rw [show c.exact.t2 = c.t2.mapEntries exactEntry from rfl, popBack_mapEntries]
    cases hpop : c.t2.popBack with
    | none => rfl
    | some x =>
      have hsub := h.toNat_sub_size hlt (.inr (mem_of_popBack hpop))
      simp [exactResult, ARCCache.exact, exactEntry, hsub]

omit [DecidableEq K] in
/-- What an eviction leaves weighs no more. -/
theorem Evicted.weight_le {d d' : ARCCache K V ℕ} {ev : List (K × V)} (h : Evicted d ev d') :
    d'.weight ≤ d.weight := by
  rw [weight, weight, h.contents, Multiset.map_add, Multiset.sum_add, h.sizeFn]
  exact Nat.le_add_left _ _

/-- If the value and what is stored add up to a `size_t`, the loop's comparison is exact in every
round, as a round takes entries away only. -/
theorem exact_evictLoop (h : c.Inv) {needed : UInt64}
    (hlt : c.exact.weight + needed.toNat < 2 ^ 64) (fuel : Nat) :
    evictLoop needed.toNat fuel c.exact = exactResult (evictLoop needed fuel c) := by
  induction fuel generalizing c with
  | zero => rfl
  | succ fuel ih =>
    have hweight : c.exact.weight < 2 ^ 64 := by omega
    have hcond : c.exact.capacity < c.exact.currentSize + needed.toNat ∧
        (c.exact.t1.empty = false ∨ c.exact.t2.empty = false) ↔
        c.capacity < c.currentSize + needed ∧ (c.t1.empty = false ∨ c.t2.empty = false) := by
      have hcur := h.toNat_currentSize hweight
      refine and_congr ?_ (by simp only [ARCCache.exact, empty_mapEntries])
      rw [UInt64.lt_iff_toNat_lt, UInt64.toNat_add, Nat.mod_eq_of_lt (hcur ▸ hlt)]
      rfl
    rw [evictLoop, evictLoop]
    by_cases hc : c.capacity < c.currentSize + needed ∧ (c.t1.empty = false ∨ c.t2.empty = false)
    · rw [if_pos hc, if_pos (hcond.2 hc)]
      obtain ⟨x, -, hev⟩ := evictOne_spec h hc.2
      obtain ⟨y, -, hev'⟩ := evictOne_spec (h.exact hweight) (hcond.2 hc).2
      have hle := hev'.weight_le
      rw [exact_evictOne h hweight] at hle ⊢
      have hrest := ih hev.inv (lt_of_le_of_lt (Nat.add_le_add_right hle _) hlt)
      simp only [exactResult] at hrest ⊢
      rw [hrest]
    · rw [if_neg hc, if_neg (mt hcond.1 hc)]
      rfl

theorem exact_trimGhosts (c : ARCCache K V UInt64) : c.exact.trimGhosts = c.trimGhosts.exact := by
  simp only [trimGhosts, ARCCache.exact, size_mapEntries, Counter.toNat_nat, Counter.toNat_word]
  split
  · cases c.b1.popBack with
    | none => rfl
    | some x => rfl
  · split
    · cases c.b2.popBack with
      | none => rfl
      | some x => rfl
    · rfl

/-- Storing a value for which there is room in a `size_t` beside everything stored. -/
theorem exact_admitting (h : c.Inv) {v : V} (hlt : c.exact.weight + (c.sizeFn v).toNat < 2 ^ 64)
    (k : K) :
    c.exact.admitT1 k v = exactResult (c.admitT1 k v) ∧
      c.exact.admitT2 k v = exactResult (c.admitT2 k v) := by
  have hloop : c.exact.evictForSize (c.sizeFn v).toNat =
      exactResult (c.evictForSize (c.sizeFn v)) := by
    simp only [evictForSize]
    exact (exact_evictLoop h hlt _).symm ▸ (by simp [ARCCache.exact])
  have hev := evictForSize_spec h (c.sizeFn v)
  have hweight : (c.evictForSize (c.sizeFn v)).2.exact.weight ≤ c.exact.weight := by
    have hle := (evictForSize_spec (h.exact (by omega)) (c.sizeFn v).toNat).weight_le
    rw [hloop] at hle
    exact hle
  have hadd : ((c.evictForSize (c.sizeFn v)).2.currentSize + c.sizeFn v).toNat =
      (c.evictForSize (c.sizeFn v)).2.currentSize.toNat + (c.sizeFn v).toNat := by
    rw [UInt64.toNat_add, hev.inv.toNat_currentSize (by omega), Nat.mod_eq_of_lt (by omega)]
  have hfn : c.exact.sizeFn v = (c.sizeFn v).toNat := rfl
  simp only [admitT1, admitT2, hfn, hloop]
  simp only [exactResult, ARCCache.exact, hadd]
  exact ⟨rfl, rfl⟩

/-- The exact total of the sizes stored under other keys. -/
def weightBeside (c : ARCCache K V UInt64) (key : K) : ℕ :=
  ((c.contents.filter fun x => x.1 ≠ key).map fun x => (c.sizeFn x.2).toNat).sum

/-- A put finds that its value and the values stored under other keys add up to a `size_t`. -/
def SumsFit (call : Call K V) (c : ARCCache K V UInt64) : Prop :=
  match call with
  | .put key value => c.weightBeside key + (c.sizeFn value).toNat < 2 ^ 64
  | _ => True

theorem Inv.weight_of_stored (h : c.Inv) {w : V} (hl : c.lookup k = some w) :
    c.exact.weight = c.weightBeside k + (c.sizeFn w).toNat := by
  obtain ⟨rest, hrest⟩ := Multiset.exists_cons_of_mem (h.lookup_eq_some.1 hl)
  rw [weight, contents_exact, weightBeside, erase_contents h hrest, hrest, Multiset.map_cons,
    Multiset.sum_cons, Nat.add_comm]
  rfl

theorem Inv.weight_of_new (h : c.Inv) (hl : c.lookup k = none) :
    c.exact.weight = c.weightBeside k := by
  have hfilter : c.contents.filter (fun x => x.1 ≠ k) = c.contents := by
    refine Multiset.filter_eq_self.2 ?_
    rintro ⟨k', v⟩ hx rfl
    exact h.lookup_eq_none.1 hl v hx
  rw [weight, contents_exact, weightBeside, hfilter]
  rfl

/-- What is stored under the other keys is part of what is stored. -/
theorem weightBeside_le (c : ARCCache K V UInt64) (k : K) : c.weightBeside k ≤ c.exact.weight := by
  have hle := weight_filter_le c.exact k
  rw [contents_exact] at hle
  exact hle

/-- The exchange of sizes under a stored key. -/
theorem Inv.toNat_exchange (h : c.Inv) (hlt : c.exact.weight < 2 ^ 64) {w v : V}
    (hl : c.lookup k = some w) (hfit : c.weightBeside k + (c.sizeFn v).toNat < 2 ^ 64) :
    (c.currentSize - c.sizeFn w + c.sizeFn v).toNat =
      c.currentSize.toNat - (c.sizeFn w).toNat + (c.sizeFn v).toNat := by
  have hcur := h.toNat_currentSize hlt
  have hweight := h.weight_of_stored hl
  have hle : c.sizeFn w ≤ c.currentSize := UInt64.le_iff_toNat_le.2 (by omega)
  rw [UInt64.toNat_add, UInt64.toNat_sub_of_le _ _ hle, Nat.mod_eq_of_lt (by omega)]

/-- A put that finds room for the sum of sizes does what it does with exact sizes. Under a stored
key only the exchange of sizes is at stake, under a new one the loop that makes room. -/
theorem exact_put (h : c.Inv) (hlt : c.exact.weight < 2 ^ 64) {v : V}
    (hfit : c.weightBeside k + (c.sizeFn v).toNat < 2 ^ 64) :
    c.exact.put k v = exactResult (c.put k v) := by
  cases hl : c.lookup k with
  | some w =>
    have hsize := h.toNat_exchange hlt hl hfit
    simp only [put, ARCCache.exact, find_mapEntries]
    rcases h.find_of_lookup hl with ⟨n, hn, hentry⟩ | ⟨h1, n, hn, hentry⟩
    · simp only [hn, Option.map_some, exactResult, ARCCache.exact, Node.entry_mapEntry, hentry,
        hsize, eraseNode_mapEntries]
      rfl
    · simp only [h1, hn, Option.map_some, Option.map_none, exactResult, ARCCache.exact,
        Node.entry_mapEntry, hentry, hsize, ← moveToFront_mapEntries, ← assign_mapEntries]
      rfl
  | none =>
    rw [← h.weight_of_new hl] at hfit
    rw [lookup, Option.or_eq_none_iff] at hl
    simp only [IndexedList.get, Option.map_eq_none_iff] at hl
    have h1 : c.exact.t1.find k = none := (find_mapEntries k).trans (by rw [hl.1]; rfl)
    have h2 : c.exact.t2.find k = none := (find_mapEntries k).trans (by rw [hl.2]; rfl)
    rw [put, put, h1, h2, hl.1, hl.2]
    show (if c.b1.contains k then (c.adaptB1 k).exact.admitT2 k v
      else if c.b2.contains k then (c.adaptB2 k).exact.admitT2 k v
      else c.exact.trimGhosts.admitT1 k v) = _
    rw [exact_trimGhosts]
    by_cases hb1 : c.b1.contains k = true
    · simp only [hb1, if_true]
      exact (exact_admitting (adaptB1_spec h k).1 hfit k).2
    by_cases hb2 : c.b2.contains k = true
    · simp only [hb1, hb2, if_true]
      exact (exact_admitting (adaptB2_spec h k).1 hfit k).2
    · simp only [hb1, hb2]
      obtain ⟨hinv, hcont, -, -, hfn, -⟩ := trimGhosts_spec h
      refine (exact_admitting hinv ?_ k).1
      have hweight : c.trimGhosts.exact.weight = c.exact.weight := by
        rw [weight, weight, contents_exact, contents_exact, hcont]
        exact congrArg (fun f : V → UInt64 => (c.contents.map fun x => (f x.2).toNat).sum) hfn
      rw [hweight, hfn]
      exact hfit

/-- A call that finds room for the sum of sizes has the reply it has with exact sizes, and leaves
the same cache. -/
theorem exact_exec (h : c.Inv) (hlt : c.exact.weight < 2 ^ 64) {call : Call K V}
    (hfit : SumsFit call c) : exec call c.exact = exactResult (exec call c) := by
  cases call with
  | put key value =>
    simp only [exec, exact_put h hlt hfit]
    rfl
  | get key =>
    simp only [exec, exact_get]
    rfl
  | remove key =>
    simp only [exec, exact_remove h hlt]
    rfl
  | contains key => rfl
  | clear => rfl

/-- Such a call leaves sizes that add up to a `size_t`. -/
theorem weight_exec_lt (h : c.Inv) (hlt : c.exact.weight < 2 ^ 64) {call : Call K V}
    (hfit : SumsFit call c) : (exec call c).2.exact.weight < 2 ^ 64 := by
  have hweight : ∀ d : ARCCache K V UInt64, d.sizeFn = c.sizeFn →
      d.exact.weight = (d.contents.map fun x => (c.sizeFn x.2).toNat).sum := by
    intro d hd
    rw [weight, contents_exact, ← hd]
    rfl
  rw [hweight _ (sizeFn_exec h call).1]
  cases call with
  | put key value =>
    have hst := put_spec h key value
    have hsum := congrArg (fun m => (m.map fun x => (c.sizeFn x.2).toNat).sum) hst.contents
    simp only [Multiset.map_cons, Multiset.sum_cons, Multiset.map_add, Multiset.sum_add] at hsum
    have hfit' : c.weightBeside key + (c.sizeFn value).toNat < 2 ^ 64 := hfit
    rw [weightBeside] at hfit'
    show ((c.put key value).2.contents.map fun x => (c.sizeFn x.2).toNat).sum < 2 ^ 64
    omega
  | get key =>
    show ((c.get key).2.contents.map fun x => (c.sizeFn x.2).toNat).sum < 2 ^ 64
    rw [(get_spec h key).2.2.1, ← hweight c rfl]
    exact hlt
  | remove key =>
    show ((c.remove key).2.contents.map fun x => (c.sizeFn x.2).toNat).sum < 2 ^ 64
    rw [(remove_spec h key).2.2.1]
    exact (weightBeside_le c key).trans_lt hlt
  | contains key => exact hweight c rfl ▸ hlt
  | clear => exact Nat.two_pow_pos 64

/-! ## Runs -/

/-- Along a run of calls that find room for the sum of sizes, the stored sizes add up to a `size_t`,
and the cache is the one of the same run with exact sizes. -/
theorem exact_after (capacity : UInt64) (sizeFn : V → UInt64) {calls : List (Call K V)}
    (hfit : EveryStep (fun call c => (exec call c).2) SumsFit calls
      { capacity := capacity, sizeFn := sizeFn }) :
    (after capacity sizeFn calls).exact.weight < 2 ^ 64 ∧
      (after capacity sizeFn calls).exact =
        after capacity.toNat (fun value => (sizeFn value).toNat) calls := by
  have hrun : ∀ c : ARCCache K V UInt64, c.Inv → c.exact.weight < 2 ^ 64 →
      EveryStep (fun call c => (exec call c).2) SumsFit calls c →
      (runOps (fun call c => (exec call c).2) calls c).exact.weight < 2 ^ 64 ∧
        (runOps (fun call c => (exec call c).2) calls c).exact =
          runOps (fun call c => (exec call c).2) calls c.exact := by
    clear hfit
    induction calls with
    | nil => exact fun c _ hlt _ => ⟨hlt, rfl⟩
    | cons call calls ih =>
      intro c h hlt hsteps
      obtain ⟨hweight, hexact⟩ := ih _ (h.exec call) (weight_exec_lt h hlt hsteps.1) hsteps.2
      refine ⟨hweight, hexact.trans ?_⟩
      rw [runOps_cons, exact_exec h hlt hsteps.1]
      rfl
  exact hrun _ (inv_empty capacity sizeFn) (Nat.two_pow_pos 64) hfit

/-- The index of a list maps exactly the keys of the list, each to its own node. -/
def IndexExact {E : Type*} (l : IndexedList K E) : Prop :=
  ∀ k i, l.map k = some i ↔ ∃ n ∈ l.list, n.key = k ∧ n.id = i

/-- The representation invariant, spelled out: the four lists share no key and repeat none, the
indexes are exact, the stored sizes are those of the values, `currentSize` is their exact sum, and
`p` lies between 0 and the capacity. As `currentSize` is the sum of the stored sizes, subtracting
the sizes of any of the entries does not go below zero. -/
structure Represents (c : ARCCache K V UInt64) : Prop where
  nodup : (c.t1.list.map Node.key ++ c.t2.list.map Node.key ++
    (c.b1.list.map Node.key ++ c.b2.list.map Node.key)).Nodup
  index : IndexExact c.t1 ∧ IndexExact c.t2 ∧ IndexExact c.b1 ∧ IndexExact c.b2
  sizes : ∀ n ∈ c.t1.list ++ c.t2.list, n.entry.size = c.sizeFn n.entry.value
  currentSize : c.currentSize.toNat =
    ((c.t1.list ++ c.t2.list).map fun n => n.entry.size.toNat).sum
  target : 0 ≤ c.p ∧ c.p ≤ c.capacity.toNat

omit [DecidableEq K] in
/-- If the exact sum of the sizes fits into a word, `current_size_` is this sum. -/
theorem Inv.represents (h : c.Inv) (hlt : c.exact.weight < 2 ^ 64) : c.Represents where
  nodup := by
    have hnodup := h.nodup
    simp only [directory, keys_eq, Multiset.coe_add, Multiset.coe_nodup] at hnodup
    exact hnodup
  index := ⟨h.t1.index, h.t2.index, h.b1.index, h.b2.index⟩
  sizes n hn := by
    refine h.sizes (n.key, n.entry) (Multiset.mem_add.2 ?_)
    rcases List.mem_append.1 hn with hn | hn
    · exact .inl (mem_pairs.2 ⟨n, hn, rfl⟩)
    · exact .inr (mem_pairs.2 ⟨n, hn, rfl⟩)
  currentSize := by
    rw [h.toNat_currentSize hlt, ← (h.exact hlt).sum_sizes, entries, Multiset.map_add,
      Multiset.sum_add, List.map_append, List.sum_append]
    simp only [pairs, ARCCache.exact, mapEntries, Multiset.map_coe, Multiset.sum_coe, List.map_map]
    rfl
  target := ⟨h.p_nonneg, h.p_le⟩

/-- In every state of a run in which every put finds that its value and the values stored under
other keys add up to a `size_t`, the representation invariant holds. -/
theorem representation_invariant (capacity : UInt64) (sizeFn : V → UInt64)
    (calls : List (Call K V))
    (hfit : EveryStep (fun call c => (exec call c).2) SumsFit calls
      { capacity := capacity, sizeFn := sizeFn }) :
    EveryState (fun call c => (exec call c).2) Represents calls
      ({ capacity := capacity, sizeFn := sizeFn } : ARCCache K V UInt64) := by
  refine hfit.everyState (I := fun c => c.Inv ∧ c.exact.weight < 2 ^ 64)
    ⟨inv_empty capacity sizeFn, Nat.two_pow_pos 64⟩ (fun c hc => hc.1.represents hc.2) ?_
  intro call _ c hc hcall
  exact ⟨hc.1.exec call, weight_exec_lt hc.1 hc.2 hcall⟩

/-- Two values of half the range each, of which the first is removed before the second comes. -/
theorem representation_invariant_halves :
    EveryState (fun call c => (exec call c).2) Represents
      [.put 0 (2 ^ 63), .remove 0, .put 1 (2 ^ 63)]
      ({ capacity := 0xffffffffffffffff, sizeFn := id } : ARCCache Nat UInt64 UInt64) := by
  refine representation_invariant _ _ _ ⟨?_, trivial, ?_, trivial⟩
  · show _ < _
    decide +kernel
  · show _ < _
    decide +kernel

/-- Both together wrap to zero, so the second finds room, and `size()` is 0 with `2 ^ 64` stored. -/
theorem not_represents_wrapped :
    ¬ Represents (after 0xffffffffffffffff id [.put 0 (2 ^ 63), .put 1 (2 ^ 63)] :
      ARCCache Nat UInt64 UInt64) := by
  intro h
  exact absurd h.currentSize (by decide +kernel)

end

end ARCCache

end ElCache
