import ElCache.Arc.Run

/-!
# The size of the ARC directory

With the default size function, which counts entries, the paper the source follows bounds the lists
of a cache of capacity `c` by `|T1| + |T2| ≤ c`, `|T1| + |B1| ≤ c` and a total of `2c`
(`DirectoryBound`). The source keeps these bounds except in one case: a new key that arrives when
`T1` fills the whole capacity. The paper then discards the last entry of `T1` without remembering
it; the source has only the case that trims `B1`, which is empty here, so the entry moves to `B1`
and the new key makes `|T1| + |B1|` one too large. `directoryBound_iff` says that this is the only
way to leave the bounds.
-/

namespace ElCache

namespace ARCCache

open IndexedList Counter

variable {K V S : Type*} [Counter S] {c : ARCCache K V S}

/-! ## How the lists grow -/

/-- `|T1| + |B1|`, the keys seen once recently. -/
def recentSize (c : ARCCache K V S) : Nat := c.t1.size + c.b1.size

/-- `|T2| + |B2|`, the keys seen again recently. -/
def frequentSize (c : ARCCache K V S) : Nat := c.t2.size + c.b2.size

/-- The bounds of the ARC paper, for entries counted one each. -/
structure DirectoryBound (c : ARCCache K V S) : Prop where
  resident : c.t1.size + c.t2.size ≤ toNat c.capacity
  recent : c.t1.size + c.b1.size ≤ toNat c.capacity
  total : c.t1.size + c.t2.size + (c.b1.size + c.b2.size) ≤ 2 * toNat c.capacity

/-- Lists that did not grow stay within the bounds. -/
theorem DirectoryBound.of_le {d : ARCCache K V S} (hb : c.DirectoryBound)
    (hcap : d.capacity = c.capacity) (hres : d.t1.size + d.t2.size ≤ toNat c.capacity)
    (hrec : d.recentSize ≤ c.recentSize)
    (htotal : d.recentSize + d.frequentSize ≤ c.recentSize + c.frequentSize) :
    d.DirectoryBound := by
  obtain ⟨-, hrecent, htot⟩ := hb
  simp only [recentSize, frequentSize] at hrec htotal
  refine ⟨?_, ?_, ?_⟩
  · rw [hcap]
    exact hres
  · rw [hcap]
    omega
  · rw [hcap]
    omega

/-- What holds of a cache that counts entries, along every run: as many entries as the capacity, and
one more, have an exact sum. -/
structure Counting (one : S) (c : ARCCache K V S) : Prop where
  inv : c.Inv
  sizeFn : c.sizeFn = fun _ => one
  capacity : one ≤ c.capacity
  exact : ∀ n ≤ toNat c.capacity + 1, toNat (n • one) = n

theorem Counting.currentSize {one : S} (h : c.Counting one)
    (hle : c.t1.size + c.t2.size ≤ toNat c.capacity + 1) :
    toNat c.currentSize = c.t1.size + c.t2.size := by
  rw [← card_contents] at hle ⊢
  rw [h.inv.currentSize, weight, h.sizeFn, Multiset.map_const', Multiset.sum_replicate,
    h.exact _ hle]

section
variable [DecidableEq K]

/-- An eviction moves a key from a list to its ghost list. -/
theorem evictOne_sizes (c : ARCCache K V S) : c.evictOne.2.recentSize = c.recentSize ∧
    c.evictOne.2.frequentSize = c.frequentSize := by
  rw [evictOne]
  split
  · rcases size_popBack c.t1 with ⟨hpop, -⟩ | ⟨n, l, hpop, hsize⟩
    · rw [hpop]
      exact ⟨rfl, rfl⟩
    · rw [hpop]
      refine ⟨?_, rfl⟩
      simp only [recentSize, size_pushFront]
      omega
  · rcases size_popBack c.t2 with ⟨hpop, -⟩ | ⟨n, l, hpop, hsize⟩
    · rw [hpop]
      exact ⟨rfl, rfl⟩
    · rw [hpop]
      refine ⟨rfl, ?_⟩
      simp only [frequentSize, size_pushFront]
      omega

theorem evictLoop_sizes (needed : S) (fuel : Nat) (c : ARCCache K V S) :
    (evictLoop needed fuel c).2.recentSize = c.recentSize ∧
      (evictLoop needed fuel c).2.frequentSize = c.frequentSize := by
  induction fuel generalizing c with
  | zero => exact ⟨rfl, rfl⟩
  | succ fuel ih =>
    rw [evictLoop]
    split
    · obtain ⟨h1, h2⟩ := evictOne_sizes c
      obtain ⟨ih1, ih2⟩ := ih c.evictOne.2
      exact ⟨ih1.trans h1, ih2.trans h2⟩
    · exact ⟨rfl, rfl⟩

theorem admitT1_sizes (c : ARCCache K V S) (k : K) (v : V) :
    (c.admitT1 k v).2.recentSize = c.recentSize + 1 ∧
      (c.admitT1 k v).2.frequentSize = c.frequentSize := by
  obtain ⟨h1, h2⟩ := evictLoop_sizes (c.sizeFn v) (c.t1.size + c.t2.size) c
  refine ⟨?_, h2⟩
  rw [← h1]
  simp only [admitT1, evictForSize, recentSize, size_pushFront]
  omega

theorem admitT2_sizes (c : ARCCache K V S) (k : K) (v : V) :
    (c.admitT2 k v).2.recentSize = c.recentSize ∧
      (c.admitT2 k v).2.frequentSize = c.frequentSize + 1 := by
  obtain ⟨h1, h2⟩ := evictLoop_sizes (c.sizeFn v) (c.t1.size + c.t2.size) c
  refine ⟨h1, ?_⟩
  rw [← h2]
  simp only [admitT2, evictForSize, frequentSize, size_pushFront]
  omega

/-- A key in none of the lists takes the last case of `put`. -/
theorem put_of_notMem (h : c.Inv) {k : K} (hk : k ∉ c.directory) (v : V) :
    c.put k v = c.trimGhosts.admitT1 k v := by
  rw [mem_directory, not_or, not_or, not_or] at hk
  obtain ⟨⟨h1, h2⟩, hb1, hb2⟩ := hk
  rw [put, h.t1.find_eq_none.2 h1, h.t2.find_eq_none.2 h2]
  simp only [mt h.b1.contains_iff.1 hb1, mt h.b2.contains_iff.1 hb2, Bool.false_eq_true, if_false]

/-- A key of the directory moves between the lists, never towards the recent ones. -/
theorem put_sizes_of_mem (h : c.Inv) {k : K} (hk : k ∈ c.directory) (v : V) :
    (c.put k v).2.recentSize ≤ c.recentSize ∧
      (c.put k v).2.recentSize + (c.put k v).2.frequentSize = c.recentSize + c.frequentSize := by
  rw [put]
  cases h1 : c.t1.find k with
  | some n =>
    have hsize := h.t1.size_eraseNode (h.t1.find_eq_some.1 h1).1
    simp only [recentSize, frequentSize, size_pushFront]
    omega
  | none =>
    cases h2 : c.t2.find k with
    | some n =>
      obtain ⟨hn, -⟩ := h.t2.find_eq_some.1 h2
      have hpairs := congrArg Multiset.card (h.t2.assign_moveToFront hn ⟨v, c.sizeFn v⟩).2
      have hsize := h.t2.size_eraseNode hn
      rw [Multiset.card_cons, ← size_eq_card_pairs, ← size_eq_card_pairs] at hpairs
      simp only [recentSize, frequentSize]
      omega
    | none =>
      simp only
      split
      · next hb =>
        have hsize := h.b1.size_erase (h.b1.contains_iff.1 hb)
        obtain ⟨hrec, hfreq⟩ := admitT2_sizes (c.adaptB1 k) k v
        rw [hrec, hfreq]
        simp only [recentSize, frequentSize, adaptB1]
        omega
      · next hb1 =>
        split
        · next hb =>
          have hsize := h.b2.size_erase (h.b2.contains_iff.1 hb)
          obtain ⟨hrec, hfreq⟩ := admitT2_sizes (c.adaptB2 k) k v
          rw [hrec, hfreq]
          simp only [recentSize, frequentSize, adaptB2]
          omega
        · next hb2 =>
          rw [mem_directory] at hk
          rcases hk with (hk | hk) | hk | hk
          · exact absurd hk (h.t1.find_eq_none.1 h1)
          · exact absurd hk (h.t2.find_eq_none.1 h2)
          · exact absurd (h.b1.contains_iff.2 hk) hb1
          · exact absurd (h.b2.contains_iff.2 hk) hb2

/-- Trimming makes room for one more key, as far as the ghost lists have one to give. -/
theorem trimGhosts_sizes (c : ARCCache K V S) :
    (toNat c.capacity ≤ c.recentSize ∧ c.trimGhosts.frequentSize = c.frequentSize ∧
      ((c.b1.size = 0 ∧ c.trimGhosts.recentSize = c.recentSize) ∨
        (0 < c.b1.size ∧ c.trimGhosts.recentSize + 1 = c.recentSize))) ∨
    (c.recentSize < toNat c.capacity ∧ c.trimGhosts.recentSize = c.recentSize ∧
      c.trimGhosts.frequentSize ≤ c.frequentSize ∧
      (c.recentSize + c.frequentSize < wrap64 (toNat c.capacity * 2) ∨ c.b2.size = 0 ∨
        c.trimGhosts.frequentSize + 1 = c.frequentSize)) := by
  rw [trimGhosts]
  split
  · next hfull =>
    refine .inl ⟨hfull, ?_⟩
    rcases size_popBack c.b1 with ⟨hpop, hsize⟩ | ⟨n, l, hpop, hsize⟩
    · rw [hpop]
      exact ⟨rfl, .inl ⟨hsize, rfl⟩⟩
    · rw [hpop]
      refine ⟨rfl, .inr ⟨by omega, ?_⟩⟩
      simp only [recentSize]
      omega
  · next hroom =>
    rw [Nat.not_le] at hroom
    refine .inr ⟨hroom, ?_⟩
    split
    · rcases size_popBack c.b2 with ⟨hpop, hsize⟩ | ⟨n, l, hpop, hsize⟩
      · rw [hpop]
        exact ⟨rfl, le_rfl, .inr (.inl hsize)⟩
      · rw [hpop]
        refine ⟨rfl, ?_⟩
        simp only [frequentSize]
        omega
    · next htotal =>
      refine ⟨rfl, le_rfl, .inl ?_⟩
      rw [Nat.not_le] at htotal
      simp only [recentSize, frequentSize]
      omega

/-! ## The bounds along a run -/

variable {one : S}

/-- A call that does not put a key unknown to all four lists while `T1` fills the capacity. -/
def SparesFullT1 (call : Call K V) (c : ARCCache K V S) : Prop :=
  ∀ key value, call = .put key value → key ∉ c.directory → c.t1.size < toNat c.capacity

theorem Counting.exec (h : c.Counting one) (call : Call K V) : (exec call c).2.Counting one := by
  obtain ⟨hsize, hcap⟩ := sizeFn_exec h.inv call
  exact ⟨h.inv.exec call, hsize.trans h.sizeFn, hcap.symm ▸ h.capacity, hcap.symm ▸ h.exact⟩

/-- After a put the resident entries fit the capacity. Under a stored key there are as many as
before. Under a new one there is one more at most, so that the sum that `evict_for_size` has
compared with the capacity is exact. -/
theorem resident_put (h : c.Counting one) (hb : c.DirectoryBound) (k : K) (v : V) :
    (c.put k v).2.t1.size + (c.put k v).2.t2.size ≤ toNat c.capacity := by
  have hst := put_spec h.inv k v
  have hcard := congrArg Multiset.card hst.contents
  rw [Multiset.card_cons, Multiset.card_add, card_contents] at hcard
  have hres := hb.resident
  rw [← card_contents] at hres
  cases hl : c.lookup k with
  | some w =>
    obtain ⟨rest, hrest⟩ := Multiset.exists_cons_of_mem (h.inv.lookup_eq_some.1 hl)
    rw [erase_contents h.inv hrest] at hcard
    rw [hrest, Multiset.card_cons] at hres
    omega
  | none =>
    have hle := Multiset.card_le_card (Multiset.filter_le (fun x => x.1 ≠ k) c.contents)
    have hcount := (h.exec (.put k v)).currentSize (by
      show (c.put k v).2.t1.size + (c.put k v).2.t2.size ≤ toNat (c.put k v).2.capacity + 1
      rw [hst.capacity]
      omega)
    have hcur := currentSize_put_of_new h.inv hl (v := v) (by rw [h.sizeFn]; exact h.capacity)
    exact hcount.symm.trans_le ((toNat_le _ _).2 hcur)

/-- A put of a key unknown to all lists keeps the bounds exactly when `T1` leaves room. -/
theorem directoryBound_put_fresh (h : c.Counting one) (hb : c.DirectoryBound) {k : K}
    (hk : k ∉ c.directory) (v : V) :
    (c.put k v).2.DirectoryBound ↔ c.t1.size < toNat c.capacity := by
  obtain ⟨hrec, hfreq⟩ := admitT1_sizes c.trimGhosts k v
  rw [← put_of_notMem h.inv hk v] at hrec hfreq
  have hcap := (put_spec h.inv k v).capacity
  have hresident := resident_put h hb k v
  obtain ⟨hres, hrecent, htotal⟩ := hb
  have htrim := trimGhosts_sizes c
  have hwrap : wrap64 (toNat c.capacity * 2) ≤ 2 * toNat c.capacity := by
    rw [Nat.mul_comm]
    exact Nat.mod_le _ _
  simp only [recentSize, frequentSize] at hrec hfreq htrim
  constructor
  · rintro ⟨-, hrecent', -⟩
    rw [hcap] at hrecent'
    omega
  · intro hroom
    refine ⟨?_, ?_, ?_⟩
    · rw [hcap]
      exact hresident
    · rw [hcap]
      omega
    · rw [hcap]
      omega

/-- A hit may move an entry from T1 to T2 and leaves their total as it is. -/
theorem get_sizes (h : c.Inv) (k : K) : (c.get k).2.recentSize ≤ c.recentSize ∧
    (c.get k).2.recentSize + (c.get k).2.frequentSize = c.recentSize + c.frequentSize := by
  rw [get]
  cases h1 : c.t1.find k with
  | some n =>
    have hsize := h.t1.size_eraseNode (h.t1.find_eq_some.1 h1).1
    simp only [recentSize, frequentSize, size_pushFront]
    omega
  | none =>
    cases h2 : c.t2.find k with
    | some n =>
      have hpairs := congrArg Multiset.card (h.t2.moveToFront (h.t2.find_eq_some.1 h2).1).2
      rw [← size_eq_card_pairs, ← size_eq_card_pairs] at hpairs
      simp only [recentSize, frequentSize, hpairs, le_refl, and_self]
    | none => exact ⟨le_rfl, rfl⟩

/-- A removal makes no list longer. -/
theorem remove_sizes (h : c.Inv) (k : K) : (c.remove k).2.recentSize ≤ c.recentSize ∧
    (c.remove k).2.frequentSize ≤ c.frequentSize := by
  rw [remove]
  cases h1 : c.t1.find k with
  | some n =>
    have hsize := h.t1.size_eraseNode (h.t1.find_eq_some.1 h1).1
    simp only [recentSize, frequentSize]
    omega
  | none =>
    cases h2 : c.t2.find k with
    | some n =>
      have hsize := h.t2.size_eraseNode (h.t2.find_eq_some.1 h2).1
      simp only [recentSize, frequentSize]
      omega
    | none =>
      have hb1 := h.b1.size_erase_le k
      have hb2 := h.b2.size_erase_le k
      simp only [recentSize, frequentSize]
      omega

/-- A call keeps the bounds exactly when it spares a full `T1`. -/
theorem directoryBound_exec (h : c.Counting one) (hb : c.DirectoryBound) (call : Call K V) :
    (exec call c).2.DirectoryBound ↔ SparesFullT1 call c := by
  cases call with
  | put k v =>
    by_cases hk : k ∈ c.directory
    · refine ⟨fun _ key value he hkey => ?_, fun _ => ?_⟩
      · cases he
        exact absurd hk hkey
      · obtain ⟨hrec, htotal⟩ := put_sizes_of_mem h.inv hk v
        exact hb.of_le (put_spec h.inv k v).capacity (resident_put h hb k v) hrec htotal.le
    · refine (directoryBound_put_fresh h hb hk v).trans ⟨fun hroom key value he _ => hroom, ?_⟩
      exact fun hspare => hspare k v rfl hk
  | get k =>
    refine ⟨fun _ _ _ he => (by cases he), fun _ => ?_⟩
    obtain ⟨-, -, hcont, hcap, -⟩ := get_spec h.inv k
    obtain ⟨hrec, htotal⟩ := get_sizes h.inv k
    refine hb.of_le hcap ?_ hrec htotal.le
    rw [← card_contents, exec, hcont, card_contents]
    exact hb.resident
  | remove k =>
    refine ⟨fun _ _ _ he => (by cases he), fun _ => ?_⟩
    obtain ⟨-, -, hcont, hcap, -⟩ := remove_spec h.inv k
    obtain ⟨hrec, hfreq⟩ := remove_sizes h.inv k
    refine hb.of_le hcap ?_ hrec (Nat.add_le_add hrec hfreq)
    rw [← card_contents, exec, hcont]
    refine (Multiset.card_le_card (Multiset.filter_le _ _)).trans ?_
    rw [card_contents]
    exact hb.resident
  | contains k => exact ⟨fun _ _ _ he => (by cases he), fun _ => hb⟩
  | clear =>
    refine ⟨fun _ _ _ he => (by cases he), fun _ => ?_⟩
    exact ⟨Nat.zero_le _, Nat.zero_le _, Nat.zero_le _⟩

/-- Along a run of a cache that counts entries, the bounds hold in every state if and only if no
call puts a key unknown to all four lists while `T1` fills the capacity. Sums are exact as far as
`capacity + 1`: so they are for every number, and for every `size_t` but the largest. -/
theorem directoryBound_iff (one capacity : S) (hcap : one ≤ capacity)
    (hexact : ∀ n ≤ toNat capacity + 1, toNat (n • one) = n) (calls : List (Call K V)) :
    EveryState (fun call c => (exec call c).2) DirectoryBound calls
        ({ capacity := capacity, sizeFn := fun _ => one } : ARCCache K V S) ↔
      EveryStep (fun call c => (exec call c).2) SparesFullT1 calls
        { capacity := capacity, sizeFn := fun _ => one } := by
  refine everyState_iff_everyStep (I := Counting one) (fun call _ c hc => hc.exec call)
    (fun call _ c hc hb => directoryBound_exec hc hb call) ⟨inv_empty _ _, rfl, hcap, hexact⟩ ?_
  exact ⟨Nat.zero_le _, Nat.zero_le _, Nat.zero_le _⟩

/-- A cache for two entries in which the first entry has been read before the third key comes. -/
theorem directoryBound_iff_two :
    EveryState (fun call c => (exec call c).2) DirectoryBound
      [.put 0 (), .get 0, .put 1 (), .put 2 ()]
      ({ capacity := 2, sizeFn := fun _ => 1 } : ARCCache Nat Unit UInt64) := by
  refine (directoryBound_iff 1 2 (by decide) (fun n hn => ?_) _).2 ⟨?_, ?_, ?_, ?_, trivial⟩
  · exact toNat_nsmul_one (hn.trans_lt (by decide))
  · exact fun _ _ _ _ => by decide +kernel
  · exact fun _ _ he => nomatch he
  · exact fun _ _ _ _ => by decide +kernel
  · exact fun _ _ _ _ => by decide +kernel

/-- Two new keys in a row overflow a cache for one entry. -/
theorem not_directoryBound_one :
    ¬ DirectoryBound (after 1 (fun _ => 1) [.put 0 (), .put 1 ()] : ARCCache Nat Unit UInt64) := by
  intro h
  exact absurd h.recent (by decide +kernel)

end

end ARCCache

end ElCache
