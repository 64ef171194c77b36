import ElCache.Arc.Exact
import ElCache.Lib.Recency

/-!
# The eviction order of the ARC cache

Each list of the cache has the entry that was used last at the front. A put or a get moves its key
to the front of one of the lists and takes it out of the other, and everything else only drops
entries (`Touched`, `Kept`), so in every state of a run both lists are ordered by the time of the
last put or get (`ordered_after`). A put evicts from the back: each entry it evicts is the one of
its list that was used least recently, and it comes from `t1` exactly if `t1` has entries and is
larger than its target, or `t2` has none, until the value fits or nothing is left
(`evictsInOrder_after`).

The sizes in this are those the cache computes. They are the true totals as long as no sum of sizes
wraps (`eviction_order`); a put whose sum wraps stops evicting while its value does not fit
(`not_room_wrapped`).
-/

namespace ElCache

open Recency

namespace IndexedList

variable {K E : Type*} {l : IndexedList K E} {n : Node K E} {init : List (Node K E)}

/-- The keys from front to back. -/
def order (l : IndexedList K E) : List K := l.list.map Node.key

theorem mem_order {k : K} : k ∈ l.order ↔ k ∈ l.keys := by
  rw [order, keys_eq, Multiset.mem_coe]

theorem order_moveToFront (l : IndexedList K E) (n : Node K E) :
    (l.moveToFront n).order = n.key :: (l.list.filter fun m => m.id ≠ n.id).map Node.key := rfl

/-- A node's key is not among the keys of the others. -/
theorem WF.notMem_filter (h : l.WF) (hn : n ∈ l.list) :
    n.key ∉ (l.list.filter fun m => m.id ≠ n.id).map Node.key := by
  intro hmem
  obtain ⟨m, hm, hkey⟩ := List.mem_map.1 hmem
  obtain ⟨hm, hid⟩ := List.mem_filter.1 hm
  have heq : m = n := List.inj_on_of_nodup_map h.nodup hm hn hkey
  rw [heq] at hid
  simp at hid

theorem filter_sublist (l : IndexedList K E) (i : Nat) :
    ((l.list.filter fun m => m.id ≠ i).map Node.key).Sublist l.order :=
  List.filter_sublist.map _

/-- Assigning an entry changes no key. -/
theorem order_assign_moveToFront (l : IndexedList K E) (n : Node K E) (e : E) :
    ((l.assign n e).moveToFront { n with entry := e }).order =
      n.key :: (l.list.filter fun m => m.id ≠ n.id).map Node.key := by
  have hkeys : ∀ list : List (Node K E),
      ((list.map fun m => if m.id = n.id then { m with entry := e } else m).filter
        fun m => m.id ≠ n.id).map Node.key = (list.filter fun m => m.id ≠ n.id).map Node.key := by
    intro list
    induction list with
    | nil => rfl
    | cons m list ih =>
      rw [List.map_cons, List.filter_cons, List.filter_cons]
      split
      · next hid => simpa [hid] using ih
      · next hid => simpa [hid] using ih
  rw [order_moveToFront]
  exact congrArg (n.key :: ·) (hkeys l.list)

theorem order_concat (h : l.list = init ++ [n]) : l.order = init.map Node.key ++ [n.key] := by
  rw [order, h, List.map_append]
  rfl

section
variable [DecidableEq K]

/-- `pop_back` takes the last node. -/
theorem popBack_concat (h : l.list = init ++ [n]) :
    l.popBack = some (n, { l with list := init, map := Function.update l.map n.key none }) := by
  rw [popBack, h, List.getLast?_concat, List.dropLast_concat]
  rfl

end

end IndexedList

namespace ARCCache

open IndexedList
open scoped Counter

variable {K V S : Type*} [Counter S] {c c' c'' : ARCCache K V S} {n : Node K (Entry V S)}

/-! ## What an operation does to the order -/

/-- Entries were dropped at most. -/
structure Kept (c c' : ARCCache K V S) : Prop where
  t1 : c'.t1.order.Sublist c.t1.order
  t2 : c'.t2.order.Sublist c.t2.order

theorem Kept.refl (c : ARCCache K V S) : Kept c c := ⟨.refl _, .refl _⟩

theorem Kept.trans (h : Kept c c') (h' : Kept c' c'') : Kept c c'' :=
  ⟨h'.t1.trans h.t1, h'.t2.trans h.t2⟩

/-- The key has come to the front of one of the lists, and is nowhere else. -/
def Touched (k : K) (c c' : ARCCache K V S) : Prop :=
  ∃ rest1 rest2, rest1.Sublist c.t1.order ∧ rest2.Sublist c.t2.order ∧ k ∉ rest1 ∧ k ∉ rest2 ∧
    (c'.t1.order = rest1 ∧ c'.t2.order = k :: rest2 ∨
      c'.t1.order = k :: rest1 ∧ c'.t2.order = rest2)

theorem Inv.notMem_t2 (h : c.Inv) {k : K} (hk : k ∈ c.t1.keys) : k ∉ c.t2.keys :=
  Multiset.disjoint_left.1 (Multiset.nodup_add.1 (Multiset.nodup_add.1 h.nodup).1).2.2 hk

theorem Inv.notMem_t1 (h : c.Inv) {k : K} (hk : k ∈ c.t2.keys) : k ∉ c.t1.keys :=
  fun hk' => h.notMem_t2 hk' hk

/-- An entry of `t1` goes to the front of `t2`. -/
theorem touched_of_t1 (h : c.Inv) (hn : n ∈ c.t1.list)
    (ht1 : c'.t1.order = (c.t1.list.filter fun m => m.id ≠ n.id).map Node.key)
    (ht2 : c'.t2.order = n.key :: c.t2.order) : Touched n.key c c' := by
  have hk2 : n.key ∉ c.t2.order := mem_order.not.2 (h.notMem_t2 (mem_keys.2 ⟨n, hn, rfl⟩))
  exact ⟨_, _, filter_sublist c.t1 n.id, .refl _, h.t1.notMem_filter hn, hk2, .inl ⟨ht1, ht2⟩⟩

/-- An entry of `t2` goes to its front. -/
theorem touched_of_t2 (h : c.Inv) (hn : n ∈ c.t2.list) (ht1 : c'.t1.order = c.t1.order)
    (ht2 : c'.t2.order = n.key :: (c.t2.list.filter fun m => m.id ≠ n.id).map Node.key) :
    Touched n.key c c' := by
  have hk1 : n.key ∉ c.t1.order := mem_order.not.2 (h.notMem_t1 (mem_keys.2 ⟨n, hn, rfl⟩))
  exact ⟨_, _, .refl _, filter_sublist c.t2 n.id, hk1, h.t2.notMem_filter hn, .inl ⟨ht1, ht2⟩⟩

/-! ## Eviction -/

/-- When an eviction takes the last entry of `t1`: it has one, and it is larger than its target or
`t2` has none. -/
def LeavesT1 (c : ARCCache K V S) : Prop :=
  c.t1.list ≠ [] ∧ (⌊c.p⌋ < (Counter.toNat c.t1.totalSize : ℤ) ∨ c.t2.list = [])

section
variable [DecidableEq K] {d : ARCCache K V S}

/-- The cache without the last entry of `t1`. -/
def dropT1 (c : ARCCache K V S) (init : List (Node K (Entry V S))) (n : Node K (Entry V S)) :
    ARCCache K V S :=
  { c with
    t1 := { c.t1 with list := init, map := Function.update c.t1.map n.key none }
    currentSize := c.currentSize - n.entry.size
    b1 := c.b1.pushFront n.key () }

/-- The cache without the last entry of `t2`. -/
def dropT2 (c : ARCCache K V S) (init : List (Node K (Entry V S))) (n : Node K (Entry V S)) :
    ARCCache K V S :=
  { c with
    t2 := { c.t2 with list := init, map := Function.update c.t2.map n.key none }
    currentSize := c.currentSize - n.entry.size
    b2 := c.b2.pushFront n.key () }

/-- What one eviction does. -/
theorem evictOne_cases (hp : 0 ≤ c.p) (hne : c.t1.empty = false ∨ c.t2.empty = false) :
    (c.LeavesT1 ∧ ∃ init n, c.t1.list = init ++ [n] ∧
      c.evictOne = ([(n.key, n.entry.value)], c.dropT1 init n)) ∨
    (¬ c.LeavesT1 ∧ ∃ init n, c.t2.list = init ++ [n] ∧
      c.evictOne = ([(n.key, n.entry.value)], c.dropT2 init n)) := by
  have hfloor : 0 ≤ ⌊c.p⌋ := Int.floor_nonneg.2 hp
  have hcond : (!c.t1.empty && (decide (⌊c.p⌋.toNat < Counter.toNat c.t1.totalSize) ||
      c.t2.empty)) = true ↔ c.LeavesT1 := by
    rw [LeavesT1, Bool.and_eq_true, Bool.or_eq_true, decide_eq_true_eq, Bool.not_eq_true',
      empty_eq_false, IndexedList.empty, List.isEmpty_iff]
    refine and_congr_right fun _ => or_congr_left ?_
    omega
  rw [evictOne]
  split
  · next hc =>
    have hleaves := hcond.1 hc
    obtain ⟨init, n, hlist⟩ := (List.eq_nil_or_concat c.t1.list).resolve_left hleaves.1
    rw [List.concat_eq_append] at hlist
    refine .inl ⟨hleaves, init, n, hlist, ?_⟩
    rw [popBack_concat hlist]
    rfl
  · next hc =>
    have hleaves : ¬ c.LeavesT1 := fun h => hc (hcond.2 h)
    have hne2 : c.t2.list ≠ [] := by
      intro hnil
      refine hleaves ⟨empty_eq_false.1 (hne.resolve_right fun h => ?_), .inr hnil⟩
      exact empty_eq_false.1 h hnil
    obtain ⟨init, n, hlist⟩ := (List.eq_nil_or_concat c.t2.list).resolve_left hne2
    rw [List.concat_eq_append] at hlist
    refine .inr ⟨hleaves, init, n, hlist, ?_⟩
    rw [popBack_concat hlist]
    rfl

theorem kept_evictOne (hp : 0 ≤ c.p) (hne : c.t1.empty = false ∨ c.t2.empty = false) :
    Kept c c.evictOne.2 := by
  rcases evictOne_cases hp hne with ⟨-, init, n, hlist, hone⟩ | ⟨-, init, n, hlist, hone⟩
  · rw [hone]
    refine ⟨?_, .refl _⟩
    rw [order_concat hlist]
    exact List.sublist_append_left _ _
  · rw [hone]
    refine ⟨.refl _, ?_⟩
    rw [order_concat hlist]
    exact List.sublist_append_left _ _

/-- The states from which `evict_for_size` evicts an entry, in order. -/
def evictions (needed : S) : Nat → ARCCache K V S → List (ARCCache K V S)
  | 0, _ => []
  | fuel + 1, c =>
    if c.capacity < c.currentSize + needed ∧ (c.t1.empty = false ∨ c.t2.empty = false) then
      c :: evictions needed fuel c.evictOne.2
    else []

/-- The loop reports what it evicts from these states. -/
theorem fst_evictLoop (needed : S) (fuel : Nat) (c : ARCCache K V S) :
    (evictLoop needed fuel c).1 = (evictions needed fuel c).flatMap fun d => d.evictOne.1 := by
  induction fuel generalizing c with
  | zero => rfl
  | succ fuel ih =>
    rw [evictLoop, evictions]
    split
    · rw [List.flatMap_cons, ← ih]
    · rfl

theorem kept_evictLoop (h : c.Inv) (needed : S) (fuel : Nat) :
    Kept c (evictLoop needed fuel c).2 := by
  induction fuel generalizing c with
  | zero => exact .refl c
  | succ fuel ih =>
    rw [evictLoop]
    split
    · next hc =>
      obtain ⟨x, -, hev⟩ := evictOne_spec h hc.2
      exact (kept_evictOne h.p_nonneg hc.2).trans (ih hev.inv)
    · exact .refl c

/-- Each of the states is one the loop has come to by dropping entries, with an entry to evict. -/
theorem evictions_spec (h : c.Inv) {needed : S} {fuel : Nat} (hd : d ∈ evictions needed fuel c) :
    d.Inv ∧ Kept c d ∧ (d.t1.empty = false ∨ d.t2.empty = false) := by
  induction fuel generalizing c with
  | zero => cases hd
  | succ fuel ih =>
    rw [evictions] at hd
    split at hd
    · next hc =>
      rcases List.mem_cons.1 hd with rfl | hd
      · exact ⟨h, .refl _, hc.2⟩
      · obtain ⟨x, -, hev⟩ := evictOne_spec h hc.2
        obtain ⟨hinv, hkept, hne⟩ := ih hev.inv hd
        exact ⟨hinv, (kept_evictOne h.p_nonneg hc.2).trans hkept, hne⟩
    · cases hd

/-! ## put, get and remove -/

/-- The cache from which a put makes room for a new entry: after a ghost of the key was taken into
account, or the ghost lists were trimmed. A stored key needs no room. -/
def prepared (c : ARCCache K V S) (key : K) : Option (ARCCache K V S) :=
  if (c.t1.find key).isSome || (c.t2.find key).isSome then none
  else if c.b1.contains key then some (c.adaptB1 key)
  else if c.b2.contains key then some (c.adaptB2 key)
  else some c.trimGhosts

theorem t1_trimGhosts (c : ARCCache K V S) : c.trimGhosts.t1 = c.t1 := by
  rw [trimGhosts]
  repeat' split
  all_goals rfl

theorem t2_trimGhosts (c : ARCCache K V S) : c.trimGhosts.t2 = c.t2 := by
  rw [trimGhosts]
  repeat' split
  all_goals rfl

/-- A prepared cache has the same entries in the same order. -/
theorem prepared_spec (h : c.Inv) {key : K} (hd : c.prepared key = some d) :
    d.Inv ∧ d.t1 = c.t1 ∧ d.t2 = c.t2 ∧ d.sizeFn = c.sizeFn ∧ d.capacity = c.capacity ∧
      key ∉ c.t1.keys ∧ key ∉ c.t2.keys := by
  rw [prepared] at hd
  split at hd
  · cases hd
  next hfind =>
  rw [Bool.or_eq_true, not_or, Bool.not_eq_true, Bool.not_eq_true, Option.isSome_eq_false_iff,
    Option.isSome_eq_false_iff, Option.isNone_iff_eq_none, Option.isNone_iff_eq_none] at hfind
  have hk : key ∉ c.t1.keys ∧ key ∉ c.t2.keys :=
    ⟨h.t1.find_eq_none.1 hfind.1, h.t2.find_eq_none.1 hfind.2⟩
  split at hd
  · cases hd
    exact ⟨(adaptB1_spec h key).1, rfl, rfl, rfl, rfl, hk⟩
  split at hd
  · cases hd
    exact ⟨(adaptB2_spec h key).1, rfl, rfl, rfl, rfl, hk⟩
  · cases hd
    obtain ⟨hinv, -, -, hcap, hsize, -⟩ := trimGhosts_spec h
    exact ⟨hinv, t1_trimGhosts c, t2_trimGhosts c, hsize, hcap, hk⟩

/-- What a put does, by the list its key is in. -/
theorem put_cases (h : c.Inv) (key : K) (value : V) :
    (c.prepared key = none ∧ (c.put key value).1 = [] ∧ Touched key c (c.put key value).2) ∨
    ∃ d, c.prepared key = some d ∧
      (c.put key value = d.admitT1 key value ∨ c.put key value = d.admitT2 key value) := by
  rw [put, prepared]
  cases h1 : c.t1.find key with
  | some n =>
    obtain ⟨hn, rfl⟩ := h.t1.find_eq_some.1 h1
    exact .inl ⟨rfl, rfl, touched_of_t1 h hn rfl rfl⟩
  | none =>
    cases h2 : c.t2.find key with
    | some n =>
      obtain ⟨hn, rfl⟩ := h.t2.find_eq_some.1 h2
      exact .inl ⟨rfl, rfl, touched_of_t2 h hn rfl (order_assign_moveToFront ..)⟩
    | none =>
      refine .inr ?_
      simp only [Option.isSome_none, Bool.or_self, Bool.false_eq_true, if_false]
      split
      · exact ⟨_, rfl, .inr rfl⟩
      · split
        · exact ⟨_, rfl, .inr rfl⟩
        · exact ⟨_, rfl, .inl rfl⟩

/-- A put touches its key, whichever of the five cases it takes. -/
theorem touched_put (h : c.Inv) (key : K) (value : V) : Touched key c (c.put key value).2 := by
  rcases put_cases h key value with ⟨-, -, htouched⟩ | ⟨d, hd, hput⟩
  · exact htouched
  obtain ⟨hinv, ht1, ht2, -, -, hk1, hk2⟩ := prepared_spec h hd
  have hkept := kept_evictLoop hinv (d.sizeFn value) (d.t1.size + d.t2.size)
  have hsub1 : (d.evictForSize (d.sizeFn value)).2.t1.order.Sublist c.t1.order := ht1 ▸ hkept.t1
  have hsub2 : (d.evictForSize (d.sizeFn value)).2.t2.order.Sublist c.t2.order := ht2 ▸ hkept.t2
  refine ⟨_, _, hsub1, hsub2, fun hk => hk1 (mem_order.1 (hsub1.subset hk)),
    fun hk => hk2 (mem_order.1 (hsub2.subset hk)), ?_⟩
  rcases hput with hput | hput
  · rw [hput]
    exact .inr ⟨rfl, rfl⟩
  · rw [hput]
    exact .inl ⟨rfl, rfl⟩

/-- A get of a stored key touches it, and any other get changes nothing. -/
theorem get_cases (h : c.Inv) (key : K) : Touched key c (c.get key).2 ∨
    (c.get key).2 = c ∧ key ∉ c.t1.keys ∧ key ∉ c.t2.keys := by
  rw [get]
  cases h1 : c.t1.find key with
  | some n =>
    obtain ⟨hn, rfl⟩ := h.t1.find_eq_some.1 h1
    exact .inl (touched_of_t1 h hn rfl rfl)
  | none =>
    cases h2 : c.t2.find key with
    | some n =>
      obtain ⟨hn, rfl⟩ := h.t2.find_eq_some.1 h2
      exact .inl (touched_of_t2 h hn rfl rfl)
    | none => exact .inr ⟨rfl, h.t1.find_eq_none.1 h1, h.t2.find_eq_none.1 h2⟩

theorem kept_remove (c : ARCCache K V S) (key : K) : Kept c (c.remove key).2 := by
  rw [remove]
  cases c.t1.find key with
  | some n => exact ⟨filter_sublist c.t1 n.id, .refl _⟩
  | none =>
    cases c.t2.find key with
    | some n => exact ⟨.refl _, filter_sublist c.t2 n.id⟩
    | none => exact ⟨.refl _, .refl _⟩

/-! ## Runs -/

/-- The number of calls so far, and for each key the time of its last put or get. -/
structure Stamps (K : Type*) where
  now : Nat := 0
  used : K → Nat := fun _ => 0

/-- The stamps after one more call. -/
def Stamps.tick (call : Call K V) (s : Stamps K) : Stamps K where
  now := s.now + 1
  used :=
    match call with
    | .put key _ => Function.update s.used key s.now
    | .get key => Function.update s.used key s.now
    | _ => s.used

/-- The stamps after a sequence of calls. -/
def stamps (calls : List (Call K V)) : Stamps K := runOps Stamps.tick calls {}

/-- Both lists are in order. -/
structure Ordered (s : Stamps K) (c : ARCCache K V S) : Prop where
  t1 : Recent s.used s.now c.t1.order
  t2 : Recent s.used s.now c.t2.order

section
variable {s : Stamps K}

/-- Touching a key with a new stamp keeps the lists in the order of the stamps. -/
theorem Ordered.touched (h : Ordered s c) {key : K} (ht : Touched key c c') :
    Ordered ⟨s.now + 1, Function.update s.used key s.now⟩ c' := by
  obtain ⟨rest1, rest2, hsub1, hsub2, hk1, hk2, ⟨ht1, ht2⟩ | ⟨ht1, ht2⟩⟩ := ht
  · refine ⟨?_, ?_⟩
    · rw [ht1]
      exact h.t1.touch_other hsub1 hk1
    · rw [ht2]
      exact h.t2.touch hsub2 hk2
  · refine ⟨?_, ?_⟩
    · rw [ht1]
      exact h.t1.touch hsub1 hk1
    · rw [ht2]
      exact h.t2.touch_other hsub2 hk2

omit [DecidableEq K] in
theorem Ordered.kept (h : Ordered s c) (hk : Kept c c') : Ordered ⟨s.now + 1, s.used⟩ c' :=
  ⟨h.t1.sublist hk.t1, h.t2.sublist hk.t2⟩

/-- Every call keeps the lists in order. -/
theorem Ordered.exec (h : Ordered s c) (hinv : c.Inv) (call : Call K V) :
    Ordered (s.tick call) (exec call c).2 := by
  cases call with
  | put key value => exact h.touched (touched_put hinv key value)
  | get key =>
    rcases get_cases hinv key with ht | ⟨hsame, hk1, hk2⟩
    · exact h.touched ht
    · show Ordered _ (c.get key).2
      rw [hsame]
      exact ⟨h.t1.touch_other (.refl _) (mem_order.not.2 hk1),
        h.t2.touch_other (.refl _) (mem_order.not.2 hk2)⟩
  | remove key => exact h.kept (kept_remove c key)
  | contains key => exact h.kept (.refl c)
  | clear => exact h.kept ⟨List.nil_sublist _, List.nil_sublist _⟩

end

/-- In every state of a run both lists are ordered by the last put or get. -/
theorem ordered_after (capacity : S) (sizeFn : V → S) (calls : List (Call K V)) :
    Ordered (stamps calls) (after capacity sizeFn calls) := by
  have hrun : ∀ (s : Stamps K) (c : ARCCache K V S), Ordered s c → c.Inv →
      Ordered (runOps Stamps.tick calls s) (runOps (fun call c => (exec call c).2) calls c) := by
    induction calls with
    | nil =>
      intro s c h _
      exact h
    | cons call calls ih =>
      intro s c h hinv
      exact ih _ _ (h.exec hinv call) (hinv.exec call)
  exact hrun _ _ ⟨recent_nil _ _, recent_nil _ _⟩ (inv_empty capacity sizeFn)

/-- An eviction takes the entry of `t1`, or else of `t2`, that was used least recently. -/
def EvictsOldest (used : K → Nat) (c : ARCCache K V S) : Prop :=
  ∃ k v, c.evictOne.1 = [(k, v)] ∧
    (c.LeavesT1 ∧ c.t1.order = c.evictOne.2.t1.order ++ [k] ∧ c.evictOne.2.t2 = c.t2 ∧
        (∀ k' ∈ c.evictOne.2.t1.order, used k < used k') ∨
      ¬ c.LeavesT1 ∧ c.t2.order = c.evictOne.2.t2.order ++ [k] ∧ c.evictOne.2.t1 = c.t1 ∧
        ∀ k' ∈ c.evictOne.2.t2.order, used k < used k')

theorem evictsOldest {used : K → Nat} (hp : 0 ≤ c.p)
    (hne : c.t1.empty = false ∨ c.t2.empty = false) (h1 : Decreasing used c.t1.order)
    (h2 : Decreasing used c.t2.order) : c.EvictsOldest used := by
  rcases evictOne_cases hp hne with ⟨hleaves, init, n, hlist, hone⟩ |
    ⟨hleaves, init, n, hlist, hone⟩
  · have horder := order_concat hlist
    rw [EvictsOldest, hone]
    rw [horder] at h1
    exact ⟨n.key, n.entry.value, rfl, .inl ⟨hleaves, horder, rfl, h1.last_lt⟩⟩
  · have horder := order_concat hlist
    rw [EvictsOldest, hone]
    rw [horder] at h2
    exact ⟨n.key, n.entry.value, rfl, .inr ⟨hleaves, horder, rfl, h2.last_lt⟩⟩

omit [DecidableEq K] in
theorem order_eq_nil (h : c.contents = 0) : c.t1.order = [] ∧ c.t2.order = [] := by
  have hkeys : c.t1.keys + c.t2.keys = 0 := by
    rw [← keys_contents, h]
    rfl
  obtain ⟨h1, h2⟩ := add_eq_zero.1 hkeys
  rw [keys_eq, Multiset.coe_eq_zero] at h1 h2
  exact ⟨h1, h2⟩

/-- How a put evicts: only for a key that is not stored; from a sequence of states, in each of which
the entry that goes was used least recently; and until the value fits or both lists are empty. -/
structure EvictsInOrder (used : K → Nat) (c : ARCCache K V S) (key : K) (value : V) : Prop where
  stored : c.prepared key = none → (c.put key value).1 = []
  reported : ∀ d, c.prepared key = some d → (c.put key value).1 =
    (evictions (c.sizeFn value) (d.t1.size + d.t2.size) d).flatMap fun e => e.evictOne.1
  oldest : ∀ d, c.prepared key = some d →
    ∀ e ∈ evictions (c.sizeFn value) (d.t1.size + d.t2.size) d, e.EvictsOldest used
  room : ∀ d, c.prepared key = some d →
    (d.evictForSize (c.sizeFn value)).2.currentSize + c.sizeFn value ≤ c.capacity ∨
      (d.evictForSize (c.sizeFn value)).2.t1.order = [] ∧
        (d.evictForSize (c.sizeFn value)).2.t2.order = []

/-- In every state of a run every put evicts the least recently used entries, from `t1` exactly if
it has entries and exceeds its target or `t2` is empty, until the value fits or nothing is left, by
the sizes the cache computes. -/
theorem evictsInOrder_after (capacity : S) (sizeFn : V → S) (calls : List (Call K V)) (key : K)
    (value : V) : EvictsInOrder (stamps calls).used (after capacity sizeFn calls) key value := by
  have hinv : (after capacity sizeFn calls).Inv := inv_after capacity sizeFn calls
  have hordered := ordered_after capacity sizeFn calls
  generalize after capacity sizeFn calls = c at hinv hordered
  refine ⟨fun hnone => ?_, fun d hd => ?_, fun d hd e he => ?_, fun d hd => ?_⟩
  · rcases put_cases hinv key value with ⟨-, hev, -⟩ | ⟨d, hd, -⟩
    · exact hev
    · rw [hnone] at hd
      cases hd
  · obtain ⟨-, -, -, hsize, -⟩ := prepared_spec hinv hd
    rcases put_cases hinv key value with ⟨hnone, -⟩ | ⟨d', hd', hput⟩
    · rw [hnone] at hd
      cases hd
    · rw [hd] at hd'
      cases hd'
      rw [← fst_evictLoop, ← hsize]
      rcases hput with hput | hput
      · rw [hput]
        rfl
      · rw [hput]
        rfl
  · obtain ⟨hd', ht1, ht2, -⟩ := prepared_spec hinv hd
    obtain ⟨he', hkept, hne⟩ := evictions_spec hd' he
    exact evictsOldest he'.p_nonneg hne (hordered.t1.decreasing.sublist (ht1 ▸ hkept.t1))
      (hordered.t2.decreasing.sublist (ht2 ▸ hkept.t2))
  · obtain ⟨hd', -, -, -, hcap, -⟩ := prepared_spec hinv hd
    rw [← hcap]
    rcases evictForSize_room hd' (c.sizeFn value) with hroom | hempty
    · exact .inl hroom
    · exact .inr (order_eq_nil hempty)

/-- In every state of a run both lists are strictly ordered by the time of the last put or get. If
every put so far has found that the sizes add up to a `size_t`, then every next put that finds it
does what the cache does with exact sizes, and evicts in order by these. -/
theorem eviction_order (capacity : UInt64) (sizeFn : V → UInt64) (calls : List (Call K V)) :
    let c := after capacity sizeFn calls
    Decreasing (stamps calls).used c.t1.order ∧ Decreasing (stamps calls).used c.t2.order ∧
      (EveryStep (fun call c => (exec call c).2) SumsFit calls
          { capacity := capacity, sizeFn := sizeFn } →
        ∀ key value, SumsFit (.put key value) c →
          c.exact.put key value = exactResult (c.put key value) ∧
            EvictsInOrder (stamps calls).used c.exact key value) := by
  intro c
  have hordered := ordered_after capacity sizeFn calls
  refine ⟨hordered.t1.decreasing, hordered.t2.decreasing, fun hfit key value hput => ?_⟩
  obtain ⟨hweight, hexact⟩ := exact_after capacity sizeFn hfit
  refine ⟨exact_put (inv_after capacity sizeFn calls) hweight hput, ?_⟩
  rw [hexact]
  exact evictsInOrder_after _ _ calls key value

/-- A cache that is full with two entries, of which the first was read, takes a third. -/
theorem eviction_order_full :
    let c : ARCCache Nat UInt64 UInt64 := after 2 id [.put 0 1, .put 1 1, .get 0]
    (c.put 2 1).1 = [(1, 1)] ∧ c.exact.put 2 1 = exactResult (c.put 2 1) ∧
      EvictsInOrder (stamps (V := UInt64) [.put 0 1, .put 1 1, .get 0]).used c.exact 2 1 := by
  intro c
  refine ⟨by decide +kernel, (eviction_order 2 id [.put 0 1, .put 1 1, .get 0]).2.2
    ⟨?_, ?_, trivial, trivial⟩ 2 1 ?_⟩
  · show _ < _
    decide +kernel
  · show _ < _
    decide +kernel
  · show _ < _
    decide +kernel

/-- In a cache for `2 ^ 64 - 1` units a second value of half the range does not fit beside the
first, which stays all the same: their sum is zero in a `size_t`. -/
theorem not_room_wrapped :
    let c : ARCCache Nat UInt64 UInt64 := after 0xffffffffffffffff id [.put 0 (2 ^ 63)]
    ¬ ∀ d, c.prepared 1 = some d →
      (d.evictForSize (2 ^ 63)).2.exact.weight + 2 ^ 63 ≤ c.capacity.toNat ∨
        (d.evictForSize (2 ^ 63)).2.t1.order = [] ∧ (d.evictForSize (2 ^ 63)).2.t2.order = [] := by
  intro c h
  exact absurd (h c.trimGhosts rfl) (by decide +kernel)

end

end ARCCache

end ElCache
