import ElCache.Arc.Bound
import ElCache.Arc.Recency

/-!
# Scans of the ARC cache

A scan is a sequence of puts of keys the cache has never heard of. While the target `p` for `t1` is
below 1, no put of a scan takes an entry off `t2`: if the value does not fit then `t1` has a size,
and is then larger than its target (`Inv.t2_evictLoop`). A put of an unknown key leaves `p` alone,
so the argument repeats for the whole scan (`t2_scan`).

The argument reads sizes as the source computes them, so it holds for every arithmetic of sizes: if
the total of `t1` wraps to zero, what is left is the size of `t2`, and the loop stops there.
-/

namespace ElCache

namespace ARCCache

open IndexedList
open scoped Counter

variable {K V S : Type*} [Counter S] {c : ARCCache K V S}

/-- The sizes of both lists make up the size of the cache. -/
theorem Inv.currentSize_eq (h : c.Inv) : c.currentSize = c.t1.totalSize + c.t2.totalSize := by
  rw [h.currentSize, ← h.sum_sizes, entries, Multiset.map_add, Multiset.sum_add]
  simp only [pairs, totalSize, Multiset.map_coe, Multiset.sum_coe, List.map_map]
  rfl

/-- While the value fits beside `t2`, an eviction that is needed takes an entry of `t1`: if `t1` had
no size, the size of the cache would be that of `t2`, and the value would fit. -/
theorem Inv.leavesT1 (h : c.Inv) (hp : c.p < 1) {needed : S}
    (hfit : needed + c.t2.totalSize ≤ c.capacity) (hfull : c.capacity < c.currentSize + needed) :
    c.LeavesT1 := by
  have hsize : c.t1.totalSize ≠ 0 := by
    intro hzero
    rw [h.currentSize_eq, hzero, zero_add, add_comm] at hfull
    exact absurd hfit (not_le.2 hfull)
  have hne : c.t1.list ≠ [] := by
    intro hnil
    exact hsize (by rw [totalSize, hnil]; rfl)
  have hfloor : ⌊c.p⌋ < 1 := Int.floor_lt.2 (by exact_mod_cast hp)
  have hpos : 0 < Counter.toNat c.t1.totalSize :=
    (Nat.zero_le _).trans_lt
      ((Counter.toNat_lt _ _).2 (lt_of_le_of_ne (Counter.zero_le _) hsize.symm))
  exact ⟨hne, .inl (by omega)⟩

section
variable [DecidableEq K]

/-- The eviction loop then leaves `t2` and the target alone. -/
theorem Inv.t2_evictLoop (h : c.Inv) (hp : c.p < 1) {needed : S}
    (hfit : needed + c.t2.totalSize ≤ c.capacity) (fuel : Nat) :
    (evictLoop needed fuel c).2.t2 = c.t2 ∧ (evictLoop needed fuel c).2.p = c.p := by
  induction fuel generalizing c with
  | zero => exact ⟨rfl, rfl⟩
  | succ fuel ih =>
    rw [evictLoop]
    split
    · next hc =>
      have hleaves := h.leavesT1 hp hfit hc.1
      obtain ⟨x, -, hev⟩ := evictOne_spec h hc.2
      rcases evictOne_cases h.p_nonneg hc.2 with ⟨-, init, n, -, hone⟩ | ⟨hnot, -⟩
      · rw [hone] at hev ⊢
        exact ih hev.inv hp hfit
      · exact absurd hleaves hnot
    · exact ⟨rfl, rfl⟩

theorem p_trimGhosts (c : ARCCache K V S) : c.trimGhosts.p = c.p := by
  rw [trimGhosts]
  repeat' split
  all_goals rfl

/-- A put of an unknown key leaves `t2` and the target alone. -/
theorem Inv.t2_put (h : c.Inv) (hp : c.p < 1) {key : K} {value : V}
    (hkey : key ∉ c.directory) (hfit : c.sizeFn value + c.t2.totalSize ≤ c.capacity) :
    (c.put key value).2.t2 = c.t2 ∧ (c.put key value).2.p = c.p ∧
      (c.put key value).2.directory ≤ key ::ₘ c.directory := by
  obtain ⟨hinv, -, hdir, hcap, hfn, -⟩ := trimGhosts_spec h
  rw [put_of_notMem h hkey]
  have hfit' : c.trimGhosts.sizeFn value + c.trimGhosts.t2.totalSize ≤ c.trimGhosts.capacity := by
    rwa [hfn, t2_trimGhosts, hcap]
  obtain ⟨ht2, hp'⟩ := hinv.t2_evictLoop (p_trimGhosts c ▸ hp) hfit'
    (c.trimGhosts.t1.size + c.trimGhosts.t2.size)
  refine ⟨ht2.trans (t2_trimGhosts c), hp'.trans (p_trimGhosts c), ?_⟩
  have hev := evictForSize_spec hinv (c.trimGhosts.sizeFn value)
  calc (c.trimGhosts.admitT1 key value).2.directory
      = key ::ₘ (c.trimGhosts.evictForSize (c.trimGhosts.sizeFn value)).2.directory := by
        simp only [admitT1, directory, keys_pushFront, Multiset.cons_add]
    _ ≤ key ::ₘ c.directory := Multiset.cons_le_cons _ (hev.directory ▸ hdir)

/-- What a scan needs of the cache: the target of `t1` is below 1, and each key to come is unknown
and has a value that fits beside `t2`. -/
structure Scanned (c : ARCCache K V S) (scan : List (K × V)) : Prop where
  inv : c.Inv
  p_lt : c.p < 1
  nodup : (scan.map Prod.fst).Nodup
  fresh : ∀ x ∈ scan, x.1 ∉ c.directory
  fits : ∀ x ∈ scan, c.sizeFn x.2 + c.t2.totalSize ≤ c.capacity

/-- One put of a scan. -/
theorem Scanned.put {x : K × V} {scan : List (K × V)} (h : c.Scanned (x :: scan)) :
    (c.put x.1 x.2).2.Scanned scan ∧ (c.put x.1 x.2).2.t2 = c.t2 := by
  have hstored := put_spec h.inv x.1 x.2
  obtain ⟨ht2, hp, hdir⟩ := h.inv.t2_put h.p_lt (h.fresh x List.mem_cons_self)
    (h.fits x List.mem_cons_self)
  obtain ⟨hx, hnodup⟩ := List.nodup_cons.1 h.nodup
  refine ⟨⟨hstored.inv, hp ▸ h.p_lt, hnodup, ?_, ?_⟩, ht2⟩
  · intro y hy hmem
    rcases Multiset.mem_cons.1 (Multiset.mem_of_le hdir hmem) with he | hmem
    · exact hx (he ▸ List.mem_map_of_mem hy)
    · exact h.fresh y (List.mem_cons_of_mem _ hy) hmem
  · intro y hy
    rw [hstored.sizeFn, hstored.capacity, ht2]
    exact h.fits y (List.mem_cons_of_mem _ hy)

/-- The state after a scan has the entries of `t2` the state before has. -/
theorem Scanned.t2_run {scan : List (K × V)} (h : c.Scanned scan) :
    (runOps (fun call c => (exec call c).2) (scan.map fun x => Call.put x.1 x.2) c).t2 = c.t2 := by
  induction scan generalizing c with
  | nil => rfl
  | cons x scan ih =>
    obtain ⟨hrest, ht2⟩ := h.put
    exact (ih hrest).trans ht2

/-- From every state a run reaches with a target below 1, a scan of any length leaves `t2` as it
is: its entries, their values and their order. -/
theorem t2_scan (capacity : S) (sizeFn : V → S) (calls : List (Call K V))
    (hp : (after capacity sizeFn calls).p < 1) (scan : List (K × V))
    (hnodup : (scan.map Prod.fst).Nodup)
    (hfresh : ∀ x ∈ scan, x.1 ∉ (after capacity sizeFn calls).directory)
    (hfits : ∀ x ∈ scan,
      sizeFn x.2 + (after capacity sizeFn calls).t2.totalSize ≤ capacity) :
    (after capacity sizeFn (calls ++ scan.map fun x => Call.put x.1 x.2)).t2 =
      (after capacity sizeFn calls).t2 := by
  obtain ⟨hfn, hcap⟩ := config_after capacity sizeFn calls
  have hscanned : (after capacity sizeFn calls).Scanned scan := by
    refine ⟨inv_after capacity sizeFn calls, hp, hnodup, hfresh, ?_⟩
    rw [hfn, hcap]
    exact hfits
  rw [after, runOps_append]
  exact hscanned.t2_run

/-- In a cache for two entries, the entry that was read survives a scan of three keys. -/
theorem t2_scan_three :
    (after 2 (fun _ => 1) ([.put 0 (), .get 0] ++
        [(1, ()), (2, ()), (3, ())].map fun x => Call.put x.1 x.2) : ARCCache Nat Unit UInt64).t2 =
      (after 2 (fun _ => 1) [.put 0 (), .get 0]).t2 := by
  refine t2_scan 2 (fun _ => 1) [.put 0 (), .get 0] ?_ _ ?_ ?_ ?_
  · decide +kernel
  · decide
  · decide +kernel
  · decide +kernel

end

end ARCCache

end ElCache
