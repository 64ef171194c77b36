import ElCache.Lib.Counter

/-!
# The recency lists of the ARC cache

`ARCCache` keeps four lists of keys in recency order, each a `std::list` with an `unordered_map`
from keys to list iterators. `LRUList` and `GhostList` differ only in what a node carries, so both
are instances of `IndexedList`, whose nodes have an address (`id`) that the index stores.

Pushing a key that is already present leaves two nodes under one index entry, so the operations are
correct only on well-formed lists (`IndexedList.WF`). For each operation there is one lemma that it
keeps well-formedness and one that says what it does to the contents (`pairs`), as a multiset.
-/

namespace ElCache

/-- A list node. Its address `id` is what an iterator to it holds. -/
structure Node (K E : Type*) where
  id : Nat
  key : K
  entry : E

/-- A `std::list` of nodes, most recent first, with an index from keys to node addresses. `next` is
the address of the next node to be allocated. -/
structure IndexedList (K E : Type*) where
  list : List (Node K E) := []
  map : K → Option Nat := fun _ => none
  next : Nat := 0

namespace IndexedList

variable {K E : Type*} {k : K}

/-- `contains`. -/
def contains (l : IndexedList K E) (key : K) : Bool := (l.map key).isSome

/-- `find`: the node the index points to. -/
def find (l : IndexedList K E) (key : K) : Option (Node K E) :=
  (l.map key).bind fun i => l.list.find? fun n => n.id = i

/-- `empty`. -/
def empty (l : IndexedList K E) : Bool := l.list.isEmpty

/-- `size`. -/
def size (l : IndexedList K E) : Nat := l.list.length

/-- `move_to_front`. -/
def moveToFront (l : IndexedList K E) (n : Node K E) : IndexedList K E :=
  { l with list := n :: l.list.filter fun m => m.id ≠ n.id }

/-- Assigns a node's entry through an iterator to it. -/
def assign (l : IndexedList K E) (n : Node K E) (entry : E) : IndexedList K E :=
  { l with list := l.list.map fun m => if m.id = n.id then { m with entry := entry } else m }

section
variable [DecidableEq K]

/-- `push_front`. -/
def pushFront (l : IndexedList K E) (key : K) (entry : E) : IndexedList K E where
  list := ⟨l.next, key, entry⟩ :: l.list
  map := Function.update l.map key (some l.next)
  next := l.next + 1

/-- `pop_back`: the last node and the list without it; `none` on an empty list, where the source's
behaviour is undefined. -/
def popBack (l : IndexedList K E) : Option (Node K E × IndexedList K E) :=
  l.list.getLast?.map fun n =>
    (n, { l with list := l.list.dropLast, map := Function.update l.map n.key none })

/-- `erase` by iterator. -/
def eraseNode (l : IndexedList K E) (n : Node K E) : IndexedList K E :=
  { l with
    list := l.list.filter fun m => m.id ≠ n.id
    map := Function.update l.map n.key none }

/-- `erase` by key. -/
def erase (l : IndexedList K E) (key : K) : IndexedList K E :=
  match l.map key with
  | none => l
  | some i =>
    { l with
      list := l.list.filter fun m => m.id ≠ i
      map := Function.update l.map key none }

end

/-! ## Contents and well-formedness -/

/-- The keys with their entries. -/
def pairs (l : IndexedList K E) : Multiset (K × E) := l.list.map fun n => (n.key, n.entry)

/-- The keys. -/
def keys (l : IndexedList K E) : Multiset K := l.pairs.map Prod.fst

/-- No key occurs twice, addresses are unique and allocated, and the index maps exactly the keys of
the list to their own nodes. -/
structure WF (l : IndexedList K E) : Prop where
  nodup : (l.list.map Node.key).Nodup
  ids : (l.list.map Node.id).Nodup
  fresh : ∀ n ∈ l.list, n.id < l.next
  index : ∀ k i, l.map k = some i ↔ ∃ n ∈ l.list, n.key = k ∧ n.id = i

theorem wf_empty : ({} : IndexedList K E).WF :=
  ⟨List.nodup_nil, List.nodup_nil, by simp, by simp⟩

theorem keys_eq (l : IndexedList K E) : l.keys = (l.list.map Node.key : List K) := by
  simp only [keys, pairs, Multiset.map_coe, List.map_map]
  rfl

theorem mem_keys {l : IndexedList K E} : k ∈ l.keys ↔ ∃ n ∈ l.list, n.key = k := by
  simp [keys_eq]

theorem mem_pairs {l : IndexedList K E} {x : K × E} :
    x ∈ l.pairs ↔ ∃ n ∈ l.list, (n.key, n.entry) = x := by
  simp [pairs]

theorem keys_of_pairs {l l' : IndexedList K E} {e : E} (h : l.pairs = (k, e) ::ₘ l'.pairs) :
    l.keys = k ::ₘ l'.keys := by
  rw [keys, keys, h, Multiset.map_cons]

theorem size_eq_card (l : IndexedList K E) : l.size = l.keys.card := by
  simp [size, keys, pairs]

theorem size_eq_card_pairs (l : IndexedList K E) : l.size = l.pairs.card := by
  simp [size, pairs]

theorem empty_eq_false {l : IndexedList K E} : l.empty = false ↔ l.list ≠ [] := by
  simp [empty]

section
variable {l : IndexedList K E} {n : Node K E}

/-- A node is determined by its address. -/
theorem WF.eq_of_id (h : l.WF) {m : Node K E} (hn : n ∈ l.list) (hm : m ∈ l.list)
    (hid : n.id = m.id) : n = m :=
  List.inj_on_of_nodup_map h.ids hn hm hid

/-- `find` finds the node with the key. -/
theorem WF.find_eq_some (h : l.WF) : l.find k = some n ↔ n ∈ l.list ∧ n.key = k := by
  constructor
  · intro hf
    obtain ⟨i, hi, hfind⟩ := Option.bind_eq_some_iff.1 hf
    obtain ⟨m, hm, hk, hid⟩ := (h.index k i).1 hi
    have hn := List.mem_of_find?_eq_some hfind
    have hni : n.id = i := by simpa using List.find?_some hfind
    rw [h.eq_of_id hn hm (hni.trans hid.symm)]
    exact ⟨hm, hk⟩
  · rintro ⟨hn, hk⟩
    have hi : l.map k = some n.id := (h.index k n.id).2 ⟨n, hn, hk, rfl⟩
    rw [find, hi, Option.bind_some]
    cases hfind : l.list.find? (fun m => m.id = n.id) with
    | none => exact absurd (List.find?_eq_none.1 hfind n hn) (by simp)
    | some m =>
      have hm := List.mem_of_find?_eq_some hfind
      rw [h.eq_of_id hm hn (by simpa using List.find?_some hfind)]

/-- `find` fails exactly on the absent keys. -/
theorem WF.find_eq_none (h : l.WF) : l.find k = none ↔ k ∉ l.keys := by
  rw [mem_keys]
  constructor
  · rintro hf ⟨n, hn, hk⟩
    have := h.find_eq_some.2 ⟨hn, hk⟩
    rw [hf] at this
    cases this
  · intro hk
    cases hf : l.find k with
    | none => rfl
    | some n => exact absurd ⟨n, h.find_eq_some.1 hf⟩ hk

theorem WF.map_eq_none (h : l.WF) : l.map k = none ↔ k ∉ l.keys := by
  rw [mem_keys]
  constructor
  · rintro hm ⟨n, hn, hk⟩
    have := (h.index k n.id).2 ⟨n, hn, hk, rfl⟩
    rw [hm] at this
    cases this
  · intro hk
    cases hm : l.map k with
    | none => rfl
    | some i =>
      obtain ⟨n, hn, hkey, -⟩ := (h.index k i).1 hm
      exact absurd ⟨n, hn, hkey⟩ hk

/-- `contains` decides membership. -/
theorem WF.contains_iff (h : l.WF) : l.contains k = true ↔ k ∈ l.keys := by
  have := h.map_eq_none (k := k)
  cases hm : l.map k <;> simp_all [contains]

/-- A node and the rest of its list are the list. -/
theorem WF.list_eq_cons (h : l.WF) (hn : n ∈ l.list) :
    (l.list : Multiset (Node K E)) = n ::ₘ (l.list.filter fun m => m.id ≠ n.id : List _) := by
  obtain ⟨list, map, next⟩ := l
  have hids := h.ids
  clear h
  simp only at hn hids ⊢
  induction list with
  | nil => cases hn
  | cons m ms ih =>
    simp only [List.map_cons, List.nodup_cons, List.mem_map, not_exists, not_and] at hids
    rcases List.mem_cons.1 hn with rfl | hn
    · have hself : ms.filter (fun m => decide (m.id ≠ n.id)) = ms :=
        List.filter_eq_self.2 fun m hm => by simpa using hids.1 m hm
      rw [List.filter_cons_of_neg (by simp), hself, Multiset.cons_coe]
    · have hne : m.id ≠ n.id := fun he => hids.1 n hn he.symm
      rw [List.filter_cons_of_pos (by simpa using hne), ← Multiset.cons_coe, ih hn hids.2,
        ← Multiset.cons_coe, Multiset.cons_swap]

/-- `move_to_front` only reorders. -/
theorem WF.moveToFront (h : l.WF) (hn : n ∈ l.list) :
    (l.moveToFront n).WF ∧ (l.moveToFront n).pairs = l.pairs := by
  have hperm : (l.moveToFront n).list.Perm l.list := by
    have := h.list_eq_cons hn
    rw [Multiset.cons_coe, Multiset.coe_eq_coe] at this
    exact this.symm
  refine ⟨⟨?_, ?_, ?_, ?_⟩, ?_⟩
  · exact (hperm.map _).nodup_iff.2 h.nodup
  · exact (hperm.map _).nodup_iff.2 h.ids
  · exact fun m hm => h.fresh m (hperm.mem_iff.1 hm)
  · intro k i
    simp only [hperm.mem_iff]
    exact h.index k i
  · exact Multiset.coe_eq_coe.2 (hperm.map _)

section
variable [DecidableEq K]

/-- Pushing a new key. -/
theorem WF.pushFront (h : l.WF) (hk : k ∉ l.keys) (e : E) : (l.pushFront k e).WF := by
  have hk' : ∀ n ∈ l.list, n.key ≠ k := fun n hn he => hk (mem_keys.2 ⟨n, hn, he⟩)
  refine ⟨?_, ?_, ?_, ?_⟩
  · refine List.nodup_cons.2 ⟨?_, h.nodup⟩
    rw [List.mem_map]
    rintro ⟨n, hn, he⟩
    exact hk' n hn he
  · refine List.nodup_cons.2 ⟨?_, h.ids⟩
    rw [List.mem_map]
    rintro ⟨n, hn, he⟩
    exact absurd he (Nat.ne_of_lt (h.fresh n hn))
  · intro n hn
    rcases List.mem_cons.1 hn with rfl | hn
    · exact Nat.lt_succ_self _
    · exact Nat.lt_succ_of_lt (h.fresh n hn)
  · intro k' i
    by_cases hkk : k' = k
    · subst hkk
      have hrest : ¬ ∃ n ∈ l.list, n.key = k' ∧ n.id = i := fun ⟨n, hn, he, _⟩ => hk' n hn he
      simp [IndexedList.pushFront, hrest]
    · simp only [IndexedList.pushFront, Function.update_of_ne hkk, h.index k' i]
      simp [Ne.symm hkk]

@[simp] theorem pairs_pushFront (l : IndexedList K E) (k : K) (e : E) :
    (l.pushFront k e).pairs = (k, e) ::ₘ l.pairs := rfl

@[simp] theorem keys_pushFront (l : IndexedList K E) (k : K) (e : E) :
    (l.pushFront k e).keys = k ::ₘ l.keys := by
  simp [keys]

/-- Dropping one node and its index entry. -/
theorem WF.drop (h : l.WF) (hn : n ∈ l.list) {list : List (Node K E)}
    (hlist : (l.list : Multiset (Node K E)) = n ::ₘ list) :
    WF { l with list := list, map := Function.update l.map n.key none } := by
  have hperm : l.list.Perm (n :: list) := by
    rwa [Multiset.cons_coe, Multiset.coe_eq_coe] at hlist
  have hkeys := (hperm.map Node.key).nodup_iff.1 h.nodup
  have hids := (hperm.map Node.id).nodup_iff.1 h.ids
  rw [List.map_cons, List.nodup_cons] at hkeys hids
  refine ⟨hkeys.2, hids.2, fun m hm => h.fresh m (hperm.mem_iff.2 (List.mem_cons_of_mem _ hm)), ?_⟩
  intro k i
  have hnot : ∀ m ∈ list, m.key ≠ n.key := fun m hm he => hkeys.1 (List.mem_map.2 ⟨m, hm, he⟩)
  by_cases hk : k = n.key
  · subst hk
    have hrest : ¬ ∃ m ∈ list, m.key = n.key ∧ m.id = i := fun ⟨m, hm, he, _⟩ => hnot m hm he
    simp [hrest]
  · simp only [Function.update_of_ne hk, h.index k i, hperm.mem_iff, List.mem_cons]
    constructor
    · rintro ⟨m, rfl | hm, hmk, hmi⟩
      · exact absurd hmk.symm hk
      · exact ⟨m, hm, hmk, hmi⟩
    · rintro ⟨m, hm, hmk, hmi⟩
      exact ⟨m, .inr hm, hmk, hmi⟩

/-- Erasing a node removes its key and entry, and nothing else. -/
theorem WF.eraseNode (h : l.WF) (hn : n ∈ l.list) :
    (l.eraseNode n).WF ∧ l.pairs = (n.key, n.entry) ::ₘ (l.eraseNode n).pairs := by
  have hlist := h.list_eq_cons hn
  refine ⟨h.drop hn hlist, ?_⟩
  have := congrArg (Multiset.map fun m : Node K E => (m.key, m.entry)) hlist
  simpa [pairs, IndexedList.eraseNode] using this

/-- `pop_back` succeeds on a non-empty list and takes one node off it. -/
theorem WF.popBack (h : l.WF) (hne : l.list ≠ []) :
    ∃ n l', l.popBack = some (n, l') ∧ l'.WF ∧ l.pairs = (n.key, n.entry) ::ₘ l'.pairs := by
  obtain ⟨init, n, hl⟩ := (List.eq_nil_or_concat l.list).resolve_left hne
  have hlast : l.list.getLast? = some n := by simp [hl]
  have hdrop : l.list.dropLast = init := by simp [hl]
  have hlist : (l.list : Multiset (Node K E)) = n ::ₘ l.list.dropLast := by
    rw [Multiset.cons_coe, Multiset.coe_eq_coe, hdrop, hl, List.concat_eq_append]
    exact List.perm_append_singleton n init
  refine ⟨n, _, by rw [IndexedList.popBack, hlast]; rfl, h.drop (by simp [hl]) hlist, ?_⟩
  have := congrArg (Multiset.map fun m : Node K E => (m.key, m.entry)) hlist
  simpa [pairs] using this

/-- What `pop_back` leaves, also on an empty list. -/
theorem WF.popBack_keys (h : l.WF) : l.popBack = none ∨
    ∃ n l', l.popBack = some (n, l') ∧ l'.WF ∧ l'.keys ≤ l.keys := by
  cases hl : l.list with
  | nil => exact .inl (by rw [IndexedList.popBack, hl]; rfl)
  | cons m ms =>
    obtain ⟨n, l', hpop, hwf, hpairs⟩ := h.popBack (by simp [hl])
    refine .inr ⟨n, l', hpop, hwf, ?_⟩
    rw [keys_of_pairs hpairs]
    exact Multiset.le_cons_self _ _

@[simp] theorem size_pushFront (l : IndexedList K E) (k : K) (e : E) :
    (l.pushFront k e).size = l.size + 1 := rfl

theorem WF.size_eraseNode (h : l.WF) (hn : n ∈ l.list) : (l.eraseNode n).size + 1 = l.size := by
  have := congrArg Multiset.card (h.eraseNode hn).2
  rw [Multiset.card_cons, ← size_eq_card_pairs, ← size_eq_card_pairs] at this
  exact this.symm

/-- `pop_back` fails on an empty list and otherwise makes the list one node shorter. -/
theorem size_popBack (l : IndexedList K E) : (l.popBack = none ∧ l.size = 0) ∨
    ∃ n l', l.popBack = some (n, l') ∧ l'.size + 1 = l.size := by
  rw [popBack, size]
  cases hl : l.list with
  | nil => exact .inl ⟨rfl, rfl⟩
  | cons m ms =>
    obtain ⟨n, hn⟩ : ∃ n, (m :: ms).getLast? = some n :=
      ⟨_, List.getLast?_eq_some_getLast (by simp)⟩
    refine .inr ⟨n, _, by rw [hn]; rfl, ?_⟩
    simp [size]

/-- Erasing by key erases the key's node, if there is one. -/
theorem WF.erase_eq (h : l.WF) (k : K) :
    (k ∉ l.keys ∧ l.erase k = l) ∨ ∃ n ∈ l.list, n.key = k ∧ l.erase k = l.eraseNode n := by
  cases hm : l.map k with
  | none => exact .inl ⟨h.map_eq_none.1 hm, by rw [IndexedList.erase, hm]⟩
  | some i =>
    obtain ⟨n, hn, rfl, rfl⟩ := (h.index k i).1 hm
    exact .inr ⟨n, hn, rfl, by rw [IndexedList.erase, hm]; rfl⟩

/-- Erasing by key keeps well-formedness and removes the key. -/
theorem WF.erase (h : l.WF) (k : K) : (l.erase k).WF ∧ (l.erase k).keys = l.keys.erase k := by
  rcases h.erase_eq k with ⟨hk, he⟩ | ⟨n, hn, rfl, he⟩
  · rw [he, Multiset.erase_of_notMem hk]
    exact ⟨h, rfl⟩
  · obtain ⟨hwf, hpairs⟩ := h.eraseNode hn
    rw [he]
    refine ⟨hwf, ?_⟩
    rw [keys_of_pairs hpairs, Multiset.erase_cons_head]

theorem WF.size_erase (h : l.WF) (hk : k ∈ l.keys) : (l.erase k).size + 1 = l.size := by
  rcases h.erase_eq k with ⟨hn, -⟩ | ⟨n, hn, -, he⟩
  · exact absurd hk hn
  · rw [he, h.size_eraseNode hn]

theorem WF.size_erase_le (h : l.WF) (k : K) : (l.erase k).size ≤ l.size := by
  rcases h.erase_eq k with ⟨-, he⟩ | ⟨n, hn, -, he⟩
  · rw [he]
  · rw [he, ← h.size_eraseNode hn]
    exact Nat.le_succ _

omit [DecidableEq K] in
theorem map_assign {β : Type*} (l : IndexedList K E) (n : Node K E) (e : E) (f : Node K E → β)
    (hf : ∀ m e, f { m with entry := e } = f m) : (l.assign n e).list.map f = l.list.map f := by
  simp only [assign, List.map_map]
  refine List.map_congr_left fun m _ => ?_
  simp only [Function.comp]
  split
  · exact hf m e
  · rfl

/-- Assigning a node's entry and moving it to the front is replacing the node. -/
theorem WF.assign_moveToFront (h : l.WF) (hn : n ∈ l.list) (e : E) :
    ((l.assign n e).moveToFront { n with entry := e }).WF ∧
      ((l.assign n e).moveToFront { n with entry := e }).pairs =
        (n.key, e) ::ₘ (l.eraseNode n).pairs := by
  have hkey := map_assign l n e Node.key fun _ _ => rfl
  have hid := map_assign l n e Node.id fun _ _ => rfl
  have hpairs := map_assign l n e (fun m => (m.key, m.id)) fun _ _ => rfl
  have hmem : ∀ k i, (∃ m ∈ (l.assign n e).list, m.key = k ∧ m.id = i) ↔
      ∃ m ∈ l.list, m.key = k ∧ m.id = i := by
    intro k i
    have := congrArg (fun L => (k, i) ∈ L) hpairs
    simpa using this
  have hwf : (l.assign n e).WF := by
    refine ⟨hkey ▸ h.nodup, hid ▸ h.ids, ?_, fun k i => (h.index k i).trans (hmem k i).symm⟩
    intro m hm
    have : m.id ∈ l.list.map Node.id := hid ▸ List.mem_map_of_mem hm
    obtain ⟨m', hm', he⟩ := List.mem_map.1 this
    exact he ▸ h.fresh m' hm'
  have hn' : ({ n with entry := e } : Node K E) ∈ (l.assign n e).list :=
    List.mem_map.2 ⟨n, hn, by simp⟩
  obtain ⟨hwf', -⟩ := hwf.moveToFront hn'
  refine ⟨hwf', ?_⟩
  have hfilter : (l.assign n e).list.filter (fun m => decide (m.id ≠ n.id)) =
      l.list.filter fun m => decide (m.id ≠ n.id) := by
    simp only [assign, List.filter_map]
    have hcomp : ((fun m : Node K E => decide (m.id ≠ n.id)) ∘
        fun m => if m.id = n.id then { m with entry := e } else m) =
          fun m => decide (m.id ≠ n.id) := by
      funext m
      simp only [Function.comp]
      split <;> rfl
    rw [hcomp]
    conv_rhs => rw [← List.map_id (l.list.filter _)]
    refine List.map_congr_left fun m hm => ?_
    have : m.id ≠ n.id := by simpa using (List.mem_filter.1 hm).2
    simp [this]
  simp only [IndexedList.moveToFront, IndexedList.eraseNode, pairs, hfilter, List.map_cons,
    Multiset.cons_coe]

end

end

end IndexedList

/-- The entry of an `LRUList` node. -/
structure Entry (V S : Type*) where
  value : V
  size : S

/-- `LRUList`: keys with values. -/
abbrev LRUList (K V S : Type*) := IndexedList K (Entry V S)

/-- `GhostList`: keys only. -/
abbrev GhostList (K : Type*) := IndexedList K Unit

/-- `LRUList::get`. -/
def IndexedList.get {K V S : Type*} (l : LRUList K V S) (key : K) : Option V :=
  (l.find key).map fun n => n.entry.value

/-- `LRUList::total_size`. -/
def IndexedList.totalSize {K V S : Type*} [Counter S] (l : LRUList K V S) : S :=
  (l.list.map fun n => n.entry.size).sum

end ElCache
