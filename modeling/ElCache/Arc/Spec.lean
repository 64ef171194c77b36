import ElCache.Arc.Cache
import Mathlib.Tactic.Positivity

/-!
# What the ARC operations do

Every operation keeps the representation invariant, and its effect on the stored values is an
equation between multisets: `get` leaves `contents` alone, `remove` drops one key, and `put` stores
its pair and gives up exactly the pairs it reports as evicted (`put_contents`). The eviction loop
stops because the value fits or because nothing is left to evict (`evictForSize_room`).
-/

namespace ElCache

namespace ARCCache

open IndexedList Counter

variable {K V S : Type*} [Counter S] {c c' : ARCCache K V S} {k : K}
  {ev : List (K × V)} {v w : V}

theorem mem_directory : k ∈ c.directory ↔
    (k ∈ c.t1.keys ∨ k ∈ c.t2.keys) ∨ k ∈ c.b1.keys ∨ k ∈ c.b2.keys := by
  simp [directory]

theorem contents_eq (c : ARCCache K V S) : c.contents =
    c.t1.pairs.map (fun x => (x.1, x.2.value)) + c.t2.pairs.map fun x => (x.1, x.2.value) := by
  simp [contents, entries]

theorem keys_contents (c : ARCCache K V S) : c.contents.map Prod.fst = c.t1.keys + c.t2.keys := by
  simp [contents_eq, keys, Multiset.map_map]

theorem nodup_contents (h : c.Inv) : (c.contents.map Prod.fst).Nodup := by
  rw [keys_contents]
  exact (Multiset.nodup_add.1 h.nodup).1

omit [Counter S] in
theorem get_list_eq_some {l : LRUList K V S} (h : l.WF) :
    l.get k = some v ↔ (k, v) ∈ l.pairs.map fun x => (x.1, x.2.value) := by
  simp only [IndexedList.get, Option.map_eq_some_iff, h.find_eq_some, Multiset.mem_map, mem_pairs]
  constructor
  · rintro ⟨n, ⟨hn, rfl⟩, rfl⟩
    exact ⟨(n.key, n.entry), ⟨n, hn, rfl⟩, rfl⟩
  · rintro ⟨x, ⟨n, hn, rfl⟩, hx⟩
    cases hx
    exact ⟨n, ⟨hn, rfl⟩, rfl⟩

/-- `lookup` reads the contents. -/
theorem Inv.lookup_eq_some (h : c.Inv) : c.lookup k = some v ↔ (k, v) ∈ c.contents := by
  rw [contents_eq, Multiset.mem_add, ← get_list_eq_some h.t1, ← get_list_eq_some h.t2, lookup,
    Option.or_eq_some_iff]
  constructor
  · rintro (h1 | ⟨-, h2⟩)
    · exact .inl h1
    · exact .inr h2
  · rintro (h1 | h2)
    · exact .inl h1
    · refine .inr ⟨?_, h2⟩
      -- a key of `t2` is not a key of `t1`
      have hk2 : k ∈ c.t2.keys := by
        obtain ⟨x, hx, hxk⟩ := Multiset.mem_map.1 ((get_list_eq_some h.t2).1 h2)
        cases hxk
        exact Multiset.mem_map_of_mem Prod.fst hx
      have hnodup := (Multiset.nodup_add.1 h.nodup).1
      have hk1 : k ∉ c.t1.keys := fun hk1 =>
        Multiset.disjoint_left.1 (Multiset.nodup_add.1 hnodup).2.2 hk1 hk2
      rw [IndexedList.get, h.t1.find_eq_none.2 hk1, Option.map_none]

theorem Inv.lookup_eq_none (h : c.Inv) : c.lookup k = none ↔ ∀ v, (k, v) ∉ c.contents := by
  constructor
  · intro hn v hv
    rw [h.lookup_eq_some.2 hv] at hn
    cases hn
  · intro hk
    cases hl : c.lookup k with
    | none => rfl
    | some v => exact absurd (h.lookup_eq_some.1 hl) (hk v)

/-- `contains` decides whether a key is stored. -/
theorem contains_eq (h : c.Inv) (k : K) : c.contains k = (c.lookup k).isSome := by
  have hlist : ∀ {l : LRUList K V S}, l.WF → l.contains k = (l.get k).isSome := by
    intro l hl
    rw [IndexedList.get, Option.isSome_map, Bool.eq_iff_iff, hl.contains_iff]
    cases hf : l.find k with
    | none => simpa using hl.find_eq_none.1 hf
    | some n =>
      obtain ⟨hn, hk⟩ := hl.find_eq_some.1 hf
      simpa using mem_keys.2 ⟨n, hn, hk⟩
  rw [contains, lookup, hlist h.t1, hlist h.t2, Option.isSome_or]

/-- A stored key is found in `t1` or else in `t2`, with its value and the value's size: the value
lists share no key, and every stored size is the size function's. -/
theorem Inv.find_of_lookup (h : c.Inv) (hl : c.lookup k = some w) :
    (∃ n, c.t1.find k = some n ∧ n.entry = ⟨w, c.sizeFn w⟩) ∨
      c.t1.find k = none ∧ ∃ n, c.t2.find k = some n ∧ n.entry = ⟨w, c.sizeFn w⟩ := by
  have hentry : ∀ n : Node K (Entry V S), (n.key, n.entry) ∈ c.entries → n.entry.value = w →
      n.entry = ⟨w, c.sizeFn w⟩ := by
    rintro ⟨id, key, value, size⟩ hmem rfl
    rw [← h.sizes _ hmem]
  rw [lookup, IndexedList.get, IndexedList.get] at hl
  cases h1 : c.t1.find k with
  | some n =>
    rw [h1] at hl
    refine .inl ⟨n, rfl, hentry n ?_ (Option.some.inj hl)⟩
    exact Multiset.mem_add.2 (.inl (mem_pairs.2 ⟨n, (h.t1.find_eq_some.1 h1).1, rfl⟩))
  | none =>
    cases h2 : c.t2.find k with
    | some n =>
      rw [h1, h2] at hl
      refine .inr ⟨rfl, n, rfl, hentry n ?_ (Option.some.inj hl)⟩
      exact Multiset.mem_add.2 (.inr (mem_pairs.2 ⟨n, (h.t2.find_eq_some.1 h2).1, rfl⟩))
    | none =>
      rw [h1, h2] at hl
      cases hl

/-- The stored sizes add up to the weight. -/
theorem Inv.sum_sizes (h : c.Inv) : (c.entries.map fun x => x.2.size).sum = c.weight := by
  rw [weight, contents, Multiset.map_map]
  exact congrArg Multiset.sum (Multiset.map_congr rfl fun x hx => h.sizes x hx)

/-- The empty cache. -/
theorem inv_empty (capacity : S) (sizeFn : V → S) :
    ({ capacity := capacity, sizeFn := sizeFn } : ARCCache K V S).Inv where
  t1 := wf_empty
  t2 := wf_empty
  b1 := wf_empty
  b2 := wf_empty
  nodup := Multiset.nodup_zero
  sizes := by simp [entries, pairs]
  currentSize := rfl
  p_nonneg := le_refl 0
  p_le := Nat.cast_nonneg (toNat capacity)

/-- An operation that keeps the stored entries, up to reordering, and drops keys at most, keeps the
invariant. -/
theorem Inv.of_entries_eq (h : c.Inv) (ht1 : c'.t1.WF) (ht2 : c'.t2.WF) (hb1 : c'.b1.WF)
    (hb2 : c'.b2.WF) (hdir : c'.directory ≤ c.directory) (hent : c'.entries = c.entries)
    (hsize : c'.sizeFn = c.sizeFn) (hcur : c'.currentSize = c.currentSize)
    (hp : 0 ≤ c'.p ∧ c'.p ≤ toNat c'.capacity) :
    c'.Inv where
  t1 := ht1
  t2 := ht2
  b1 := hb1
  b2 := hb2
  nodup := Multiset.nodup_of_le hdir h.nodup
  sizes := by rw [hent, hsize]; exact h.sizes
  currentSize := by rw [hcur, h.currentSize, weight, weight, contents, contents, hent, hsize]
  p_nonneg := hp.1
  p_le := hp.2

/-- Taking one entry out keeps the invariant. -/
theorem Inv.of_entries_cons (h : c.Inv) {d : ARCCache K V S} {e : Entry V S} (ht1 : d.t1.WF)
    (ht2 : d.t2.WF) (hb1 : d.b1.WF) (hb2 : d.b2.WF) (hdir : d.directory ≤ c.directory)
    (hent : c.entries = (k, e) ::ₘ d.entries) (hsize : d.sizeFn = c.sizeFn)
    (hcur : d.currentSize = c.currentSize - e.size) (hp : d.p = c.p)
    (hcap : d.capacity = c.capacity) : d.Inv ∧ c.contents = (k, e.value) ::ₘ d.contents := by
  have hcont : c.contents = (k, e.value) ::ₘ d.contents := by
    rw [contents, contents, hent, Multiset.map_cons]
  have hweight : c.weight = e.size + d.weight := by
    have he : e.size = c.sizeFn e.value := h.sizes (k, e) (by rw [hent]; simp)
    rw [weight, weight, hcont, Multiset.map_cons, Multiset.sum_cons, he, hsize]
  refine ⟨⟨ht1, ht2, hb1, hb2, Multiset.nodup_of_le hdir h.nodup, ?_, ?_, ?_, ?_⟩, hcont⟩
  · intro x hx
    rw [hsize]
    exact h.sizes x (by rw [hent]; exact Multiset.mem_cons_of_mem hx)
  · rw [hcur, h.currentSize, hweight, add_comm, Counter.add_sub_cancel_right]
  · rw [hp]; exact h.p_nonneg
  · rw [hp, hcap]; exact h.p_le

/-- Storing one new entry keeps the invariant. -/
theorem Inv.of_push (h : c.Inv) (ht1 : c'.t1.WF) (ht2 : c'.t2.WF) (hb1 : c'.b1 = c.b1)
    (hb2 : c'.b2 = c.b2) (hk : k ∉ c.directory)
    (hent : c'.entries = (k, ⟨v, c.sizeFn v⟩) ::ₘ c.entries) (hsize : c'.sizeFn = c.sizeFn)
    (hcur : c'.currentSize = c.currentSize + c.sizeFn v) (hp : c'.p = c.p)
    (hcap : c'.capacity = c.capacity) : c'.Inv ∧ c'.contents = (k, v) ::ₘ c.contents := by
  have hcont : c'.contents = (k, v) ::ₘ c.contents := by
    rw [contents, contents, hent, Multiset.map_cons]
  have hdir : c'.directory = k ::ₘ c.directory := by
    rw [directory, directory, ← keys_contents, ← keys_contents, hcont, hb1, hb2, Multiset.map_cons,
      Multiset.cons_add]
  refine ⟨⟨ht1, ht2, hb1 ▸ h.b1, hb2 ▸ h.b2, ?_, ?_, ?_, ?_, ?_⟩, hcont⟩
  · rw [hdir]
    exact Multiset.nodup_cons.2 ⟨hk, h.nodup⟩
  · intro x hx
    rw [hent, Multiset.mem_cons] at hx
    rw [hsize]
    rcases hx with rfl | hx
    · rfl
    · exact h.sizes x hx
  · rw [hcur, h.currentSize, weight, weight, hcont, Multiset.map_cons, Multiset.sum_cons, hsize,
      add_comm]
  · rw [hp]; exact h.p_nonneg
  · rw [hp, hcap]; exact h.p_le

/-- Dropping keys of the ghost lists. -/
theorem inv_ghosts (h : c.Inv) {b1 b2 : GhostList K} {p : ℚ} (hb1 : b1.WF) (hb2 : b2.WF)
    (hle1 : b1.keys ≤ c.b1.keys) (hle2 : b2.keys ≤ c.b2.keys) (hp : 0 ≤ p ∧ p ≤ toNat c.capacity) :
    ({ c with b1 := b1, b2 := b2, p := p } : ARCCache K V S).Inv :=
  h.of_entries_eq h.t1 h.t2 hb1 hb2 (add_le_add_right (add_le_add hle1 hle2) _) rfl rfl rfl hp

/-- What taking a node off one of the value lists leaves. -/
theorem notMem_directory_of_cons {d : Multiset K} (h : c.Inv) (hd : c.directory = k ::ₘ d) :
    k ∉ d := by
  have := h.nodup
  rw [hd, Multiset.nodup_cons] at this
  exact this.1

theorem lookup_of_notMem (h : c.Inv) (h1 : k ∉ c.t1.keys) (h2 : k ∉ c.t2.keys) :
    c.lookup k = none := by
  rw [lookup, IndexedList.get, IndexedList.get, h.t1.find_eq_none.2 h1, h.t2.find_eq_none.2 h2]
  rfl

theorem notMem_contents (h1 : k ∉ c.t1.keys) (h2 : k ∉ c.t2.keys) : ∀ x ∈ c.contents, x.1 ≠ k := by
  intro x hx he
  have := Multiset.mem_map_of_mem Prod.fst hx
  rw [keys_contents, he, Multiset.mem_add] at this
  exact this.elim h1 h2

theorem card_contents (c : ARCCache K V S) : c.contents.card = c.t1.size + c.t2.size := by
  rw [size_eq_card, size_eq_card, ← Multiset.card_add, ← keys_contents, Multiset.card_map]

/-- `c'` is `c` after the entries `ev` have moved to the ghost lists. -/
structure Evicted (c : ARCCache K V S) (ev : List (K × V)) (c' : ARCCache K V S) : Prop where
  inv : c'.Inv
  capacity : c'.capacity = c.capacity
  sizeFn : c'.sizeFn = c.sizeFn
  directory : c'.directory = c.directory
  contents : c.contents = ev + c'.contents

theorem Evicted.refl (h : c.Inv) : Evicted c [] c := ⟨h, rfl, rfl, rfl, by simp⟩

theorem Evicted.trans {c₁ c₂ : ARCCache K V S} {ev' : List (K × V)} (h : Evicted c ev c₁)
    (h' : Evicted c₁ ev' c₂) : Evicted c (ev ++ ev') c₂ where
  inv := h'.inv
  capacity := h'.capacity.trans h.capacity
  sizeFn := h'.sizeFn.trans h.sizeFn
  directory := h'.directory.trans h.directory
  contents := by rw [h.contents, h'.contents, ← Multiset.coe_add, add_assoc]

section
variable [DecidableEq K]

/-! ## get -/

/-- `get` returns the stored value and moves entries around; it does not change what is stored. -/
theorem get_spec (h : c.Inv) (k : K) :
    (c.get k).1 = c.lookup k ∧ (c.get k).2.Inv ∧ (c.get k).2.contents = c.contents ∧
      (c.get k).2.capacity = c.capacity ∧ (c.get k).2.sizeFn = c.sizeFn := by
  rw [get]
  cases h1 : c.t1.find k with
  | some n =>
    obtain ⟨hn, rfl⟩ := h.t1.find_eq_some.1 h1
    obtain ⟨hwf, hpairs⟩ := h.t1.eraseNode hn
    have hkey : n.key ∈ c.t1.keys := mem_keys.2 ⟨n, hn, rfl⟩
    have hnodup := (Multiset.nodup_add.1 h.nodup).1
    have hk2 : n.key ∉ c.t2.keys :=
      Multiset.disjoint_left.1 (Multiset.nodup_add.1 hnodup).2.2 hkey
    have hwf2 := h.t2.pushFront hk2 n.entry
    have hent : (c.t1.eraseNode n).pairs + (c.t2.pushFront n.key n.entry).pairs =
        c.t1.pairs + c.t2.pairs := by
      rw [hpairs, pairs_pushFront, Multiset.add_cons, Multiset.cons_add]
    have hget : (c.t2.pushFront n.key n.entry).get n.key = some n.entry.value :=
      (get_list_eq_some hwf2).2 (by simp)
    have hlook : c.lookup n.key = some n.entry.value := by
      rw [lookup, IndexedList.get, h1]; rfl
    refine ⟨hget.trans hlook.symm, ?_, ?_, rfl, rfl⟩
    · refine h.of_entries_eq hwf hwf2 h.b1 h.b2 (le_of_eq ?_) hent rfl rfl ⟨h.p_nonneg, h.p_le⟩
      have := congrArg (Multiset.map Prod.fst) hent
      simp only [Multiset.map_add] at this
      simp only [directory, IndexedList.keys, this]
    · simp only [contents, entries, hent]
  | none =>
    cases h2 : c.t2.find k with
    | some n =>
      obtain ⟨hn, rfl⟩ := h.t2.find_eq_some.1 h2
      obtain ⟨hwf, hpairs⟩ := h.t2.moveToFront hn
      refine ⟨?_, ?_, ?_, rfl, rfl⟩
      · rw [lookup, IndexedList.get, IndexedList.get, h1, h2]; rfl
      · refine h.of_entries_eq h.t1 hwf h.b1 h.b2 (le_of_eq ?_) ?_ rfl rfl ⟨h.p_nonneg, h.p_le⟩
        · simp only [directory, IndexedList.keys, hpairs]
        · simp only [entries, hpairs]
      · simp only [contents, entries, hpairs]
    | none =>
      refine ⟨?_, h, rfl, rfl, rfl⟩
      rw [lookup, IndexedList.get, IndexedList.get, h1, h2]; rfl

/-! ## Eviction -/

/-- One eviction moves one entry, if there is any. -/
theorem evictOne_spec (h : c.Inv) (hne : c.t1.empty = false ∨ c.t2.empty = false) :
    ∃ x, c.evictOne.1 = [x] ∧ Evicted c [x] c.evictOne.2 := by
  have hdisj := (Multiset.nodup_add.1 h.nodup).2.2
  rw [evictOne]
  split
  · next hc =>
    have hlist : c.t1.list ≠ [] := by
      have : c.t1.empty = false := by simpa using (Bool.and_eq_true_iff.1 hc).1
      exact empty_eq_false.1 this
    obtain ⟨n, l, hpop, hwf, hpairs⟩ := h.t1.popBack hlist
    have hkeys := keys_of_pairs hpairs
    have hkey : n.key ∈ c.t1.keys := hkeys ▸ Multiset.mem_cons_self _ _
    have hb1 : n.key ∉ c.b1.keys := fun hb =>
      Multiset.disjoint_left.1 hdisj (Multiset.mem_add.2 (.inl hkey))
        (Multiset.mem_add.2 (.inl hb))
    rw [hpop]
    refine ⟨(n.key, n.entry.value), rfl, ?_⟩
    have hdir : l.keys + c.t2.keys + ((c.b1.pushFront n.key ()).keys + c.b2.keys) =
        c.directory := by
      rw [directory, hkeys, keys_pushFront]
      simp only [Multiset.cons_add, Multiset.add_cons]
    obtain ⟨hinv, hcont⟩ := h.of_entries_cons (d := { c with
        t1 := l, currentSize := c.currentSize - n.entry.size, b1 := c.b1.pushFront n.key () })
      hwf h.t2 (h.b1.pushFront hb1 ()) h.b2 (le_of_eq hdir)
      (by rw [entries, hpairs, entries, Multiset.cons_add]) rfl rfl rfl rfl
    exact ⟨hinv, rfl, rfl, hdir, hcont⟩
  · next hc =>
    have hlist : c.t2.list ≠ [] := by
      rw [← empty_eq_false]
      cases h2 : c.t2.empty with
      | false => rfl
      | true =>
        have h1 : c.t1.empty = false := hne.resolve_right (by simp [h2])
        simp [h1, h2] at hc
    obtain ⟨n, l, hpop, hwf, hpairs⟩ := h.t2.popBack hlist
    have hkeys := keys_of_pairs hpairs
    have hkey : n.key ∈ c.t2.keys := hkeys ▸ Multiset.mem_cons_self _ _
    have hb2 : n.key ∉ c.b2.keys := fun hb =>
      Multiset.disjoint_left.1 hdisj (Multiset.mem_add.2 (.inr hkey))
        (Multiset.mem_add.2 (.inr hb))
    rw [hpop]
    refine ⟨(n.key, n.entry.value), rfl, ?_⟩
    have hdir : c.t1.keys + l.keys + (c.b1.keys + (c.b2.pushFront n.key ()).keys) =
        c.directory := by
      rw [directory, hkeys, keys_pushFront]
      simp only [Multiset.cons_add, Multiset.add_cons]
    obtain ⟨hinv, hcont⟩ := h.of_entries_cons (d := { c with
        t2 := l, currentSize := c.currentSize - n.entry.size, b2 := c.b2.pushFront n.key () })
      h.t1 hwf h.b1 (h.b2.pushFront hb2 ()) (le_of_eq hdir)
      (by rw [entries, hpairs, entries, Multiset.add_cons]) rfl rfl rfl rfl
    exact ⟨hinv, rfl, rfl, hdir, hcont⟩

/-- The eviction loop moves the entries it reports. With enough fuel it ends because the value
fits, or with nothing left to evict. -/
theorem evictLoop_spec (needed : S) (fuel : Nat) (h : c.Inv) :
    Evicted c (evictLoop needed fuel c).1 (evictLoop needed fuel c).2 ∧
      (c.contents.card ≤ fuel → (evictLoop needed fuel c).2.currentSize + needed ≤ c.capacity ∨
        (evictLoop needed fuel c).2.contents = 0) := by
  induction fuel generalizing c with
  | zero =>
    refine ⟨.refl h, fun hcard => .inr ?_⟩
    exact Multiset.card_eq_zero.1 (Nat.le_zero.1 hcard)
  | succ fuel ih =>
    rw [evictLoop]
    split
    · next hc =>
      obtain ⟨x, hx, hev⟩ := evictOne_spec h hc.2
      obtain ⟨hrest, hroom⟩ := ih hev.inv
      rw [← hx] at hev
      refine ⟨hev.trans hrest, fun hcard => ?_⟩
      rw [hev.capacity] at hroom
      refine hroom ?_
      rw [hev.contents, Multiset.card_add, hx] at hcard
      simp only [Multiset.coe_card, List.length_singleton] at hcard
      omega
    · next hc =>
      refine ⟨.refl h, fun _ => ?_⟩
      rcases lt_or_ge c.capacity (c.currentSize + needed) with hlt | hle
      · refine .inr ?_
        have h1 : c.t1.list = [] := by
          by_contra h1
          exact hc ⟨hlt, .inl (empty_eq_false.2 h1)⟩
        have h2 : c.t2.list = [] := by
          by_contra h2
          exact hc ⟨hlt, .inr (empty_eq_false.2 h2)⟩
        simp [contents, entries, pairs, h1, h2]
      · exact .inl hle

theorem evictForSize_spec (h : c.Inv) (needed : S) :
    Evicted c (c.evictForSize needed).1 (c.evictForSize needed).2 :=
  (evictLoop_spec needed _ h).1

/-- The loop ends because the value fits or because nothing is left to evict. -/
theorem evictForSize_room (h : c.Inv) (needed : S) :
    (c.evictForSize needed).2.currentSize + needed ≤ c.capacity ∨
      (c.evictForSize needed).2.contents = 0 :=
  (evictLoop_spec needed _ h).2 (le_of_eq (card_contents c))

/-- A value that fits evicts nothing. -/
theorem evictForSize_of_fits {needed : S} (hfit : c.currentSize + needed ≤ c.capacity) :
    c.evictForSize needed = ([], c) := by
  rw [evictForSize]
  cases c.t1.size + c.t2.size with
  | zero => rfl
  | succ fuel => rw [evictLoop, if_neg (fun hc => not_lt.2 hfit hc.1)]

/-! ## remove -/

theorem erase_contents {rest : Multiset (K × V)} (h : c.Inv) (hc : c.contents = (k, v) ::ₘ rest) :
    c.contents.filter (fun x => x.1 ≠ k) = rest := by
  have hnodup := nodup_contents h
  rw [hc, Multiset.map_cons, Multiset.nodup_cons] at hnodup
  rw [hc, Multiset.filter_cons_of_neg _ (by simp)]
  refine Multiset.filter_eq_self.2 fun x hx he => hnodup.1 ?_
  have := Multiset.mem_map_of_mem Prod.fst hx
  rwa [he] at this

/-- Erasing a node of `t1`, as `remove` and `put` do. -/
theorem eraseT1_spec (h : c.Inv) {n : Node K (Entry V S)} (hn : n ∈ c.t1.list) :
    ∃ c' : ARCCache K V S, c' = { c with
        t1 := c.t1.eraseNode n, currentSize := c.currentSize - n.entry.size } ∧
      c'.Inv ∧ c.contents = (n.key, n.entry.value) ::ₘ c'.contents ∧ n.key ∉ c'.directory := by
  obtain ⟨hwf, hpairs⟩ := h.t1.eraseNode hn
  have hdir : c.directory =
      n.key ::ₘ ((c.t1.eraseNode n).keys + c.t2.keys + (c.b1.keys + c.b2.keys)) := by
    rw [directory, keys_of_pairs hpairs]
    simp only [Multiset.cons_add]
  obtain ⟨hinv, hcont⟩ := h.of_entries_cons (d := { c with
      t1 := c.t1.eraseNode n, currentSize := c.currentSize - n.entry.size })
    hwf h.t2 h.b1 h.b2 (hdir ▸ Multiset.le_cons_self _ _)
    (by rw [entries, hpairs, entries, Multiset.cons_add]) rfl rfl rfl rfl
  exact ⟨_, rfl, hinv, hcont, notMem_directory_of_cons h hdir⟩

/-- Erasing a node of `t2`, as `remove` and `put` do. -/
theorem eraseT2_spec (h : c.Inv) {n : Node K (Entry V S)} (hn : n ∈ c.t2.list) :
    ∃ c' : ARCCache K V S, c' = { c with
        t2 := c.t2.eraseNode n, currentSize := c.currentSize - n.entry.size } ∧
      c'.Inv ∧ c.contents = (n.key, n.entry.value) ::ₘ c'.contents ∧ n.key ∉ c'.directory := by
  obtain ⟨hwf, hpairs⟩ := h.t2.eraseNode hn
  have hdir : c.directory =
      n.key ::ₘ (c.t1.keys + (c.t2.eraseNode n).keys + (c.b1.keys + c.b2.keys)) := by
    rw [directory, keys_of_pairs hpairs]
    simp only [Multiset.cons_add, Multiset.add_cons]
  obtain ⟨hinv, hcont⟩ := h.of_entries_cons (d := { c with
      t2 := c.t2.eraseNode n, currentSize := c.currentSize - n.entry.size })
    h.t1 hwf h.b1 h.b2 (hdir ▸ Multiset.le_cons_self _ _)
    (by rw [entries, hpairs, entries, Multiset.add_cons]) rfl rfl rfl rfl
  exact ⟨_, rfl, hinv, hcont, notMem_directory_of_cons h hdir⟩

/-- `remove` drops the key and reports whether it was stored. -/
theorem remove_spec (h : c.Inv) (k : K) :
    (c.remove k).1 = (c.lookup k).isSome ∧ (c.remove k).2.Inv ∧
      (c.remove k).2.contents = c.contents.filter (fun x => x.1 ≠ k) ∧
      (c.remove k).2.capacity = c.capacity ∧ (c.remove k).2.sizeFn = c.sizeFn := by
  rw [remove]
  cases h1 : c.t1.find k with
  | some n =>
    obtain ⟨hn, rfl⟩ := h.t1.find_eq_some.1 h1
    obtain ⟨c', rfl, hinv, hcont, -⟩ := eraseT1_spec h hn
    have hlook := h.lookup_eq_some.2 (hcont ▸ Multiset.mem_cons_self _ _)
    exact ⟨by rw [hlook]; rfl, hinv, (erase_contents h hcont).symm, rfl, rfl⟩
  | none =>
    cases h2 : c.t2.find k with
    | some n =>
      obtain ⟨hn, rfl⟩ := h.t2.find_eq_some.1 h2
      obtain ⟨c', rfl, hinv, hcont, -⟩ := eraseT2_spec h hn
      have hlook := h.lookup_eq_some.2 (hcont ▸ Multiset.mem_cons_self _ _)
      exact ⟨by rw [hlook]; rfl, hinv, (erase_contents h hcont).symm, rfl, rfl⟩
    | none =>
      have hk1 := h.t1.find_eq_none.1 h1
      have hk2 := h.t2.find_eq_none.1 h2
      obtain ⟨hb1, hk1'⟩ := h.b1.erase k
      obtain ⟨hb2, hk2'⟩ := h.b2.erase k
      refine ⟨by rw [lookup_of_notMem h hk1 hk2]; rfl, ?_, ?_, rfl, rfl⟩
      · refine inv_ghosts h hb1 hb2 ?_ ?_ ⟨h.p_nonneg, h.p_le⟩
        · rw [hk1']; exact Multiset.erase_le _ _
        · rw [hk2']; exact Multiset.erase_le _ _
      · exact (Multiset.filter_eq_self.2 (notMem_contents hk1 hk2)).symm

/-! ## put -/

/-- `c'` is `c` after storing `v` under `k` at the price of the evicted pairs `ev`. -/
structure Stored (c : ARCCache K V S) (k : K) (v : V) (ev : List (K × V)) (c' : ARCCache K V S) :
    Prop where
  inv : c'.Inv
  capacity : c'.capacity = c.capacity
  sizeFn : c'.sizeFn = c.sizeFn
  mem : (k, v) ∈ c'.contents
  contents : (k, v) ::ₘ c.contents.filter (fun x => x.1 ≠ k) = ev + c'.contents

/-- Making room for a new key and storing it, whichever list it goes to. -/
theorem stored_of_push (h : c.Inv) (v : V) (hk : k ∉ c.directory)
    (ht1 : (c.evictForSize (c.sizeFn v)).2.Inv → k ∉ (c.evictForSize (c.sizeFn v)).2.directory →
      c'.t1.WF ∧ c'.t2.WF)
    (hb1 : c'.b1 = (c.evictForSize (c.sizeFn v)).2.b1)
    (hb2 : c'.b2 = (c.evictForSize (c.sizeFn v)).2.b2)
    (hent : c'.entries = (k, ⟨v, c.sizeFn v⟩) ::ₘ (c.evictForSize (c.sizeFn v)).2.entries)
    (hsize : c'.sizeFn = (c.evictForSize (c.sizeFn v)).2.sizeFn)
    (hcur : c'.currentSize = (c.evictForSize (c.sizeFn v)).2.currentSize + c.sizeFn v)
    (hp : c'.p = (c.evictForSize (c.sizeFn v)).2.p)
    (hcap : c'.capacity = (c.evictForSize (c.sizeFn v)).2.capacity) :
    Stored c k v (c.evictForSize (c.sizeFn v)).1 c' := by
  have hev := evictForSize_spec h (c.sizeFn v)
  have hk' : k ∉ (c.evictForSize (c.sizeFn v)).2.directory := by rwa [hev.directory]
  obtain ⟨hwf1, hwf2⟩ := ht1 hev.inv hk'
  obtain ⟨hinv, hcont⟩ := hev.inv.of_push (v := v) hwf1 hwf2 hb1 hb2 hk'
    (by rw [hev.sizeFn]; exact hent) hsize (by rw [hev.sizeFn]; exact hcur) hp hcap
  have hfilter : c.contents.filter (fun x => x.1 ≠ k) = c.contents := by
    rw [mem_directory, not_or, not_or] at hk
    exact Multiset.filter_eq_self.2 (notMem_contents hk.1.1 hk.1.2)
  refine ⟨hinv, hcap.trans hev.capacity, hsize.trans hev.sizeFn, ?_, ?_⟩
  · rw [hcont]; exact Multiset.mem_cons_self _ _
  · rw [hfilter, hev.contents, hcont, Multiset.add_cons]

theorem admitT1_spec (h : c.Inv) (v : V) (hk : k ∉ c.directory) :
    Stored c k v (c.admitT1 k v).1 (c.admitT1 k v).2 := by
  refine stored_of_push h v hk (fun hinv hk' => ?_) rfl rfl ?_ rfl rfl rfl rfl
  · rw [mem_directory, not_or, not_or] at hk'
    exact ⟨hinv.t1.pushFront hk'.1.1 _, hinv.t2⟩
  · rw [admitT1, entries, entries, pairs_pushFront, Multiset.cons_add]

theorem admitT2_spec (h : c.Inv) (v : V) (hk : k ∉ c.directory) :
    Stored c k v (c.admitT2 k v).1 (c.admitT2 k v).2 := by
  refine stored_of_push h v hk (fun hinv hk' => ?_) rfl rfl ?_ rfl rfl rfl rfl
  · rw [mem_directory, not_or, not_or] at hk'
    exact ⟨hinv.t1, hinv.t2.pushFront hk'.1.2 _⟩
  · rw [admitT2, entries, entries, pairs_pushFront, Multiset.add_cons]

/-- Replacing the entry of a stored key. -/
theorem stored_of_replace (h : c.Inv) {c₁ : ARCCache K V S} (h₁ : c₁.Inv)
    (hcont₁ : c.contents = (k, w) ::ₘ c₁.contents) (hsize₁ : c₁.sizeFn = c.sizeFn)
    (hcap₁ : c₁.capacity = c.capacity) (hk : k ∉ c₁.directory) (ht1 : c'.t1.WF) (ht2 : c'.t2.WF)
    (hb1 : c'.b1 = c₁.b1) (hb2 : c'.b2 = c₁.b2)
    (hent : c'.entries = (k, ⟨v, c₁.sizeFn v⟩) ::ₘ c₁.entries) (hsize : c'.sizeFn = c₁.sizeFn)
    (hcur : c'.currentSize = c₁.currentSize + c₁.sizeFn v) (hp : c'.p = c₁.p)
    (hcap : c'.capacity = c₁.capacity) : Stored c k v [] c' := by
  obtain ⟨hinv, hcont⟩ := h₁.of_push ht1 ht2 hb1 hb2 hk hent hsize hcur hp hcap
  refine ⟨hinv, hcap.trans hcap₁, hsize.trans hsize₁, ?_, ?_⟩
  · rw [hcont]; exact Multiset.mem_cons_self _ _
  · rw [erase_contents h hcont₁, hcont, Multiset.coe_nil, zero_add]

/-- Adapting to a hit in `b1` keeps the invariant and forgets the ghost. -/
theorem adaptB1_spec (h : c.Inv) (k : K) :
    (c.adaptB1 k).Inv ∧ (c.adaptB1 k).b1.keys = c.b1.keys.erase k := by
  obtain ⟨hwf, hkeys⟩ := h.b1.erase k
  refine ⟨inv_ghosts h hwf h.b2 (hkeys ▸ Multiset.erase_le _ _) le_rfl ⟨?_, min_le_right _ _⟩,
    hkeys⟩
  refine le_min (add_nonneg h.p_nonneg ?_) (Nat.cast_nonneg _)
  split
  · exact zero_le_one
  · positivity

/-- Adapting to a hit in `b2` keeps the invariant and forgets the ghost. -/
theorem adaptB2_spec (h : c.Inv) (k : K) :
    (c.adaptB2 k).Inv ∧ (c.adaptB2 k).b2.keys = c.b2.keys.erase k := by
  obtain ⟨hwf, hkeys⟩ := h.b2.erase k
  refine ⟨inv_ghosts h h.b1 hwf le_rfl (hkeys ▸ Multiset.erase_le _ _) ⟨le_max_right _ _, ?_⟩,
    hkeys⟩
  refine max_le (le_trans (sub_le_self _ ?_) h.p_le) (Nat.cast_nonneg _)
  split
  · exact zero_le_one
  · positivity

/-- Trimming only drops ghosts. -/
theorem trimGhosts_spec (h : c.Inv) : c.trimGhosts.Inv ∧ c.trimGhosts.contents = c.contents ∧
    c.trimGhosts.directory ≤ c.directory ∧ c.trimGhosts.capacity = c.capacity ∧
    c.trimGhosts.sizeFn = c.sizeFn ∧ c.trimGhosts.currentSize = c.currentSize := by
  rw [trimGhosts]
  split
  · rcases h.b1.popBack_keys with hnone | ⟨n, l, hsome, hwf, hle⟩
    · rw [hnone]; exact ⟨h, rfl, le_rfl, rfl, rfl, rfl⟩
    · rw [hsome]
      exact ⟨inv_ghosts h hwf h.b2 hle le_rfl ⟨h.p_nonneg, h.p_le⟩, rfl,
        add_le_add_right (add_le_add hle le_rfl) _, rfl, rfl, rfl⟩
  · split
    · rcases h.b2.popBack_keys with hnone | ⟨n, l, hsome, hwf, hle⟩
      · rw [hnone]; exact ⟨h, rfl, le_rfl, rfl, rfl, rfl⟩
      · rw [hsome]
        exact ⟨inv_ghosts h h.b1 hwf le_rfl hle ⟨h.p_nonneg, h.p_le⟩, rfl,
          add_le_add_right (add_le_add le_rfl hle) _, rfl, rfl, rfl⟩
    · exact ⟨h, rfl, le_rfl, rfl, rfl, rfl⟩

/-- `put` stores its pair and gives up exactly the pairs it reports. -/
theorem put_spec (h : c.Inv) (k : K) (v : V) : Stored c k v (c.put k v).1 (c.put k v).2 := by
  rw [put]
  cases h1 : c.t1.find k with
  | some n =>
    obtain ⟨hn, rfl⟩ := h.t1.find_eq_some.1 h1
    obtain ⟨c₁, rfl, h₁, hcont₁, hk⟩ := eraseT1_spec h hn
    have hk2 := hk
    rw [mem_directory, not_or, not_or] at hk2
    refine stored_of_replace h h₁ hcont₁ rfl rfl hk h₁.t1 (h.t2.pushFront hk2.1.2 _) rfl rfl ?_
      rfl rfl rfl rfl
    rw [entries, entries, pairs_pushFront, Multiset.add_cons]
  | none =>
    cases h2 : c.t2.find k with
    | some n =>
      obtain ⟨hn, rfl⟩ := h.t2.find_eq_some.1 h2
      obtain ⟨c₁, rfl, h₁, hcont₁, hk⟩ := eraseT2_spec h hn
      obtain ⟨hwf, hpairs⟩ := h.t2.assign_moveToFront hn ⟨v, c.sizeFn v⟩
      refine stored_of_replace h h₁ hcont₁ rfl rfl hk h.t1 hwf rfl rfl ?_ rfl rfl rfl rfl
      simp only [entries, hpairs, Multiset.add_cons]
    | none =>
      have hk1 := h.t1.find_eq_none.1 h1
      have hk2 := h.t2.find_eq_none.1 h2
      have hdisj := (Multiset.nodup_add.1 (Multiset.nodup_add.1 h.nodup).2.1)
      simp only
      split
      · next hb =>
        have hb1 := h.b1.contains_iff.1 hb
        obtain ⟨hinv, hkeys⟩ := adaptB1_spec h k
        have hk : k ∉ (c.adaptB1 k).directory := by
          rw [mem_directory, hkeys]
          rintro ((hk | hk) | hk | hk)
          · exact hk1 hk
          · exact hk2 hk
          · exact hdisj.1.notMem_erase hk
          · exact Multiset.disjoint_left.1 hdisj.2.2 hb1 hk
        have hst := admitT2_spec hinv v hk
        exact ⟨hst.inv, hst.capacity, hst.sizeFn, hst.mem, hst.contents⟩
      · next hb =>
        have hb1 := mt h.b1.contains_iff.2 hb
        split
        · next hb =>
          obtain ⟨hinv, hkeys⟩ := adaptB2_spec h k
          have hk : k ∉ (c.adaptB2 k).directory := by
            rw [mem_directory, hkeys]
            rintro ((hk | hk) | hk | hk)
            · exact hk1 hk
            · exact hk2 hk
            · exact hb1 hk
            · exact hdisj.2.1.notMem_erase hk
          have hst := admitT2_spec hinv v hk
          exact ⟨hst.inv, hst.capacity, hst.sizeFn, hst.mem, hst.contents⟩
        · next hb =>
          have hb2 := mt h.b2.contains_iff.2 hb
          obtain ⟨hinv, hcont, hdir, hcap, hsize, -⟩ := trimGhosts_spec h
          have hk : k ∉ c.directory := by
            rw [mem_directory]
            exact fun hk => hk.elim (fun hk => hk.elim hk1 hk2) fun hk => hk.elim hb1 hb2
          have hst := admitT1_spec hinv v (fun hk' => hk (Multiset.mem_of_le hdir hk'))
          refine ⟨hst.inv, hst.capacity.trans hcap, hst.sizeFn.trans hsize, hst.mem, ?_⟩
          rw [← hcont]
          exact hst.contents

/-- A put whose value fits evicts nothing. -/
theorem put_evicts_nothing (h : c.Inv) (k : K) (v : V)
    (hfit : c.currentSize + c.sizeFn v ≤ c.capacity) : (c.put k v).1 = [] := by
  rw [put]
  cases h1 : c.t1.find k with
  | some n => rfl
  | none =>
    cases h2 : c.t2.find k with
    | some n => rfl
    | none =>
      simp only
      split
      · rw [admitT2, evictForSize_of_fits]
        exact hfit
      · split
        · rw [admitT2, evictForSize_of_fits]
          exact hfit
        · obtain ⟨-, -, -, hcap, hsize, hcur⟩ := trimGhosts_spec h
          rw [admitT1, evictForSize_of_fits]
          rw [hcap, hsize, hcur]
          exact hfit

end

/-! ## Lookups after an operation -/

section
variable [DecidableEq K]

theorem lookup_get (h : c.Inv) (k k' : K) : (c.get k).2.lookup k' = c.lookup k' := by
  obtain ⟨-, hinv, hcont, -⟩ := get_spec h k
  apply Option.ext
  intro v
  rw [hinv.lookup_eq_some, h.lookup_eq_some, hcont]

theorem lookup_remove (h : c.Inv) (k k' : K) :
    (c.remove k).2.lookup k' = if k' = k then none else c.lookup k' := by
  obtain ⟨-, hinv, hcont, -⟩ := remove_spec h k
  apply Option.ext
  intro v
  rw [hinv.lookup_eq_some, hcont, Multiset.mem_filter]
  split
  · next hk => simp [hk]
  · next hk => simp [hk, h.lookup_eq_some]

theorem lookup_put_self (h : c.Inv) (k : K) (v : V) : (c.put k v).2.lookup k = some v :=
  (put_spec h k v).inv.lookup_eq_some.2 (put_spec h k v).mem

/-- The pairs a put reports and those it leaves are stored under different keys. -/
theorem Stored.nodup (h : c.Inv) (hst : Stored c k v ev c') : (ev.map Prod.fst).Nodup ∧
      ∀ x ∈ c'.contents, x.1 ∉ ev.map Prod.fst := by
  have hnodup : ((ev + c'.contents : Multiset (K × V)).map Prod.fst).Nodup := by
    rw [← hst.contents, Multiset.map_cons, Multiset.nodup_cons]
    refine ⟨by simp, ?_⟩
    exact Multiset.nodup_of_le (Multiset.map_le_map (Multiset.filter_le _ _)) (nodup_contents h)
  rw [Multiset.map_add, Multiset.nodup_add] at hnodup
  refine ⟨by simpa using hnodup.1, fun x hx hev => ?_⟩
  exact Multiset.disjoint_left.1 hnodup.2.2 (by simpa using hev)
    (Multiset.mem_map_of_mem Prod.fst hx)

/-- What a put reports as evicted was stored, under different keys, none of them the key put. -/
theorem Stored.evicted (h : c.Inv) (hst : Stored c k v ev c') :
    (ev.map Prod.fst).Nodup ∧ k ∉ ev.map Prod.fst ∧
      ∀ x ∈ ev, c.lookup x.1 = some x.2 := by
  obtain ⟨hnodup, hdisj⟩ := hst.nodup h
  have hk := hdisj _ hst.mem
  refine ⟨hnodup, hk, fun x hx => ?_⟩
  have hmem : x ∈ (k, v) ::ₘ c.contents.filter (fun y => y.1 ≠ k) := by
    rw [hst.contents]
    exact Multiset.mem_add.2 (.inl hx)
  rcases Multiset.mem_cons.1 hmem with rfl | hold
  · exact absurd (List.mem_map_of_mem (f := Prod.fst) hx) hk
  · exact h.lookup_eq_some.2 (Multiset.mem_filter.1 hold).1

/-- Another key keeps its value unless the put reports it as evicted. -/
theorem lookup_put_of_ne (h : c.Inv) {k' : K} (hk : k' ≠ k) (v : V) :
    (c.put k v).2.lookup k' =
      if k' ∈ (c.put k v).1.map Prod.fst then none else c.lookup k' := by
  have hst := put_spec h k v
  -- the pairs of `k'` before are those evicted and those kept
  have hmem : ∀ w, (k', w) ∈ c.contents ↔
      (k', w) ∈ (c.put k v).1 ∨ (k', w) ∈ (c.put k v).2.contents := by
    intro w
    have := congrArg (fun m => (k', w) ∈ m) hst.contents
    simpa [hk] using this
  split
  · next hev =>
    rw [hst.inv.lookup_eq_none]
    intro w hw
    exact (hst.nodup h).2 _ hw hev
  · next hev =>
    apply Option.ext
    intro w
    rw [hst.inv.lookup_eq_some, h.lookup_eq_some, hmem w]
    refine ⟨.inr, fun hw => hw.resolve_left fun hw => hev ?_⟩
    exact List.mem_map_of_mem (f := Prod.fst) hw

/-- What making room leaves can take the value, if any cache of this capacity can. -/
theorem currentSize_evictForSize (h : c.Inv) {needed : S} (hfit : needed ≤ c.capacity) :
    (c.evictForSize needed).2.currentSize + needed ≤ c.capacity := by
  rcases evictForSize_room h needed with hroom | hempty
  · exact hroom
  · have hinv := (evictForSize_spec h needed).inv
    rw [hinv.currentSize, weight, hempty]
    simpa using hfit

/-- A put under a stored key exchanges the sizes, whatever the capacity is: cases 1 and 2 of
`put_impl` do not come to `evict_for_size`. -/
theorem currentSize_put_of_stored (h : c.Inv) (hl : c.lookup k = some w) (v : V) :
    (c.put k v).2.currentSize = c.currentSize - c.sizeFn w + c.sizeFn v := by
  rw [put]
  rcases h.find_of_lookup hl with ⟨n, hn, hentry⟩ | ⟨h1, n, hn, hentry⟩
  · simp only [hn, hentry]
  · simp only [h1, hn, hentry]

/-- Removing a stored key takes its size away. -/
theorem currentSize_remove_of_stored (h : c.Inv) (hl : c.lookup k = some w) :
    (c.remove k).2.currentSize = c.currentSize - c.sizeFn w := by
  rw [remove]
  rcases h.find_of_lookup hl with ⟨n, hn, hentry⟩ | ⟨h1, n, hn, hentry⟩
  · simp only [hn, hentry]
  · simp only [h1, hn, hentry]

/-- Removing a key that is not stored changes no size. -/
theorem currentSize_remove_of_new (hl : c.lookup k = none) :
    (c.remove k).2.currentSize = c.currentSize := by
  rw [lookup, Option.or_eq_none_iff] at hl
  simp only [IndexedList.get, Option.map_eq_none_iff] at hl
  rw [remove, hl.1, hl.2]

/-- A put under a new key of a value that fits the capacity respects it: cases 3 to 5 of `put_impl`
make room first. -/
theorem currentSize_put_of_new (h : c.Inv) (hl : c.lookup k = none)
    (hfit : c.sizeFn v ≤ c.capacity) : (c.put k v).2.currentSize ≤ c.capacity := by
  rw [lookup, Option.or_eq_none_iff] at hl
  simp only [IndexedList.get, Option.map_eq_none_iff] at hl
  rw [put, hl.1, hl.2]
  simp only
  split
  · exact currentSize_evictForSize (adaptB1_spec h k).1 hfit
  · split
    · exact currentSize_evictForSize (adaptB2_spec h k).1 hfit
    · obtain ⟨hinv, -, -, hcap, hsize, -⟩ := trimGhosts_spec h
      have hfit' : c.trimGhosts.sizeFn v ≤ c.trimGhosts.capacity := by
        rw [hcap, hsize]
        exact hfit
      have hroom := currentSize_evictForSize hinv hfit'
      rw [hcap] at hroom
      exact hroom

end

/-! ## Exact sizes

With sizes in `ℕ` the weight is a sum that only grows with what is stored. -/

section
variable [DecidableEq K] {c : ARCCache K V ℕ}

omit [DecidableEq K] in
/-- A stored value is part of the total. -/
theorem Inv.sizeFn_le (h : c.Inv) (hl : c.lookup k = some w) : c.sizeFn w ≤ c.currentSize := by
  rw [h.currentSize]
  exact Multiset.single_le_sum (fun _ _ => Nat.zero_le _) _
    (Multiset.mem_map_of_mem (fun x : K × V => c.sizeFn x.2) (h.lookup_eq_some.1 hl))

/-- The capacity is respected by a put of a value that fits it, unless the put enlarges a stored
entry. -/
theorem currentSize_put_le (h : c.Inv) (k : K) (v : V) (hfit : c.sizeFn v ≤ c.capacity)
    (hcur : c.currentSize ≤ c.capacity)
    (hsame : ∀ w, c.lookup k = some w → c.sizeFn v ≤ c.sizeFn w) :
    (c.put k v).2.currentSize ≤ c.capacity := by
  cases hl : c.lookup k with
  | some w =>
    rw [currentSize_put_of_stored h hl v]
    have hle := hsame w hl
    have hold := h.sizeFn_le hl
    omega
  | none => exact currentSize_put_of_new h hl hfit

/-- What is left of the contents weighs no more. -/
theorem weight_filter_le (c : ARCCache K V ℕ) (k : K) :
    ((c.contents.filter fun x => x.1 ≠ k).map fun x => c.sizeFn x.2).sum ≤ c.weight := by
  have := congrArg (fun m => (m.map fun x => c.sizeFn x.2).sum)
    (Multiset.filter_add_not (fun x => x.1 ≠ k) c.contents)
  simp only [Multiset.map_add, Multiset.sum_add] at this
  rw [weight]
  omega

/-- The weight grows by the stored value at most. -/
theorem weight_put_le (h : c.Inv) (k : K) (v : V) :
    (c.put k v).2.weight ≤ c.weight + c.sizeFn v := by
  have hst := put_spec h k v
  have hsum := congrArg (fun m => (m.map fun x => c.sizeFn x.2).sum) hst.contents
  simp only [Multiset.map_cons, Multiset.sum_cons, Multiset.map_add, Multiset.sum_add] at hsum
  have hle := weight_filter_le c k
  rw [weight, hst.sizeFn]
  omega

end

end ARCCache

end ElCache
