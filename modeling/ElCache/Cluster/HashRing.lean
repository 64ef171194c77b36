import ElCache.Lib.Counter
import ElCache.Lib.OrderedMap
import ElCache.Types

/-!
# The hash ring

`HashRing` keeps the set of nodes and, for each of them, `virtualNodes` points of the ring. A lookup
walks the ring from the hash of a key and collects the owners of the points in the order in which
they are met.

The points are hashes, so a point of one node can be a point of another one too. As long as the
points of all nodes ever added are different (`PointsDistinct`), the entries of the ring are the
points of the nodes in it (`Represents`), the lookup ends and finds the nodes in the order of the
walk (`lookup_eq`), and a node can come and go without a change to the order of the others
(`ring_consistent`).
-/

namespace ElCache

open OrderedMap

structure HashRing where
  virtualNodes : Nat
  ring : OrderedMap UInt64 NodeId
  nodes : Finset NodeId

/-- `HashRing::hash_point`. -/
def hashPoint (id : NodeId) (replica : Nat) : UInt64 :=
  -- the node id with the replica number, then three rounds of mixing
  let combined := id.value ^^^ (UInt64.ofNat replica * 0x9E3779B97F4A7C15)
  let combined := combined ^^^ (combined >>> 33)
  let combined := combined * 0xff51afd7ed558ccd
  let combined := combined ^^^ (combined >>> 33)
  let combined := combined * 0xc4ceb9fe1a85ec53
  combined ^^^ (combined >>> 33)

/-- The points of a node, in the order of its replicas. -/
def nodePoints (virtualNodes : Nat) (id : NodeId) : List UInt64 :=
  (List.range virtualNodes).map (hashPoint id)

namespace HashRing

/-- The constructor. -/
def new (virtualNodes : Nat) : HashRing := ⟨virtualNodes, .empty, ∅⟩

/-- `HashRing::add_node`. -/
def addNode (r : HashRing) (id : NodeId) : HashRing :=
  if id ∈ r.nodes then r
  else { r with
    nodes := insert id r.nodes
    ring := (nodePoints r.virtualNodes id).foldl (fun ring point => ring.insert point id) r.ring }

/-- `HashRing::remove_node`. -/
def removeNode (r : HashRing) (id : NodeId) : HashRing :=
  if id ∈ r.nodes then { r with
    nodes := r.nodes.erase id
    ring := (nodePoints r.virtualNodes id).foldl (fun ring point => ring.erase point) r.ring }
  else r

/-- `HashRing::node_count`. -/
def nodeCount (r : HashRing) : Nat := r.nodes.card

/-- The loop of `HashRing::get_nodes`, at the position `it` of the ring. Each round takes one unit
of fuel, and `none` says that there was not enough of it. -/
def walk (r : HashRing) (count : Nat) :
    Nat → Nat → List NodeId → Finset NodeId → Option (List NodeId)
  | 0, _, _, _ => none
  | fuel + 1, it, result, seen =>
    if result.length < count then
      let it := if it = r.ring.entries.length then 0 else it
      match r.ring.entries[it]? with
      | none => none
      | some (_, id) =>
        let result := if id ∈ seen then result else result ++ [id]
        let seen := if id ∈ seen then seen else insert id seen
        if r.nodes.card ≤ seen.card then some result else r.walk count fuel (it + 1) result seen
    else some result

/-- The body of the two functions `HashRing::get_nodes`, which differ in the hash they start
from. -/
def lookup (r : HashRing) (fuel : Nat) (hash : UInt64) (count : Nat) : Option (List NodeId) :=
  if r.ring.entries = [] then some []
  else
    let count := min count r.nodes.card
    let count := if count = 0 then 1 else count
    r.walk count fuel (r.ring.lowerBound hash) [] ∅

/-- `HashRing::get_nodes` for a key; `keyHash` is the 64-bit hash of keys that the build has
chosen. -/
def getNodes (r : HashRing) (keyHash : CacheKey → UInt64) (fuel : Nat) (key : CacheKey)
    (count : Nat) : Option (List NodeId) :=
  r.lookup fuel (keyHash key) count

/-- `HashRing::get_nodes` for a chunk. -/
def getChunkNodes (r : HashRing) (fuel : Nat) (chunk : ChunkId) (count : Nat) :
    Option (List NodeId) :=
  r.lookup fuel chunk.hash.low count

end HashRing

/-! ## Runs of the ring -/

/-- The calls that change a ring. -/
inductive RingCall where
  | addNode (id : NodeId)
  | removeNode (id : NodeId)
  deriving DecidableEq, Repr

namespace HashRing

/-- What a call does. -/
def exec (r : HashRing) : RingCall → HashRing
  | .addNode id => r.addNode id
  | .removeNode id => r.removeNode id

/-- The ring after calls to a new one. -/
def after (virtualNodes : Nat) (calls : List RingCall) : HashRing :=
  calls.foldl exec (new virtualNodes)

end HashRing

/-- The nodes that calls have added and not removed since. -/
def members (calls : List RingCall) : Finset NodeId :=
  calls.foldl (fun nodes call => match call with
    | .addNode id => insert id nodes
    | .removeNode id => nodes.erase id) ∅

/-- All nodes that calls have added. -/
def everAdded (calls : List RingCall) : List NodeId :=
  calls.filterMap fun call => match call with
    | .addNode id => some id
    | .removeNode _ => none

/-- No two replicas of these nodes have the same point. -/
def PointsDistinct (virtualNodes : Nat) (ids : List NodeId) : Prop :=
  ∀ a ∈ ids, ∀ b ∈ ids, ∀ i < virtualNodes, ∀ j < virtualNodes,
    hashPoint a i = hashPoint b j → a = b ∧ i = j

instance (virtualNodes : Nat) (ids : List NodeId) :
    Decidable (PointsDistinct virtualNodes ids) := by
  unfold PointsDistinct
  infer_instance

theorem PointsDistinct.eq {virtualNodes : Nat} {ids : List NodeId}
    (h : PointsDistinct virtualNodes ids) {a b : NodeId} (ha : a ∈ ids) (hb : b ∈ ids)
    {point : UInt64} (hpa : point ∈ nodePoints virtualNodes a)
    (hpb : point ∈ nodePoints virtualNodes b) : a = b := by
  obtain ⟨i, hi, rfl⟩ := List.mem_map.1 hpa
  obtain ⟨j, hj, hpoint⟩ := List.mem_map.1 hpb
  exact (h a ha b hb i (List.mem_range.1 hi) j (List.mem_range.1 hj) hpoint.symm).1

namespace HashRing

variable {result : List NodeId} {id : NodeId} {calls : List RingCall} {fuel : Nat}

/-! ## What the ring holds -/

/-- The ring holds a set of nodes, and for each of them its points and nothing else. -/
structure Represents (r : HashRing) (virtualNodes : Nat) (nodes : Finset NodeId) : Prop where
  virtualNodes_eq : r.virtualNodes = virtualNodes
  nodes_eq : r.nodes = nodes
  mem_entries : ∀ e, e ∈ r.ring.entries ↔ e.2 ∈ nodes ∧ e.1 ∈ nodePoints virtualNodes e.2

section
variable {r : HashRing} {virtualNodes : Nat} {nodes : Finset NodeId} {ids : List NodeId}

theorem represents_new (virtualNodes : Nat) : (new virtualNodes).Represents virtualNodes ∅ where
  virtualNodes_eq := rfl
  nodes_eq := rfl
  mem_entries e := by simp [new, OrderedMap.empty]

/-- A new node adds its points, which no other node has. -/
theorem Represents.addNode (h : r.Represents virtualNodes nodes)
    (hd : PointsDistinct virtualNodes ids) (hnodes : ∀ id ∈ nodes, id ∈ ids) (hid : id ∈ ids) :
    (r.addNode id).Represents virtualNodes (insert id nodes) := by
  obtain ⟨rfl, rfl, hmem⟩ := h
  rw [HashRing.addNode]
  split
  · next hold =>
    rw [Finset.insert_eq_of_mem hold]
    exact ⟨rfl, rfl, hmem⟩
  · refine ⟨rfl, rfl, fun e => ?_⟩
    rw [mem_foldl_insert, hmem, Finset.mem_insert]
    constructor
    · rintro (⟨rfl, hpoint⟩ | ⟨⟨he, hpoint⟩, -⟩)
      · exact ⟨.inl rfl, hpoint⟩
      · exact ⟨.inr he, hpoint⟩
    · rintro ⟨rfl | he, hpoint⟩
      · exact .inl ⟨rfl, hpoint⟩
      · by_cases hnew : e.1 ∈ nodePoints r.virtualNodes id
        · exact .inl ⟨hd.eq (hnodes _ he) hid hpoint hnew, hnew⟩
        · exact .inr ⟨⟨he, hpoint⟩, hnew⟩

/-- Removing a node removes its points and no others. -/
theorem Represents.removeNode (h : r.Represents virtualNodes nodes)
    (hd : PointsDistinct virtualNodes ids) (hnodes : ∀ id ∈ nodes, id ∈ ids) (id : NodeId) :
    (r.removeNode id).Represents virtualNodes (nodes.erase id) := by
  obtain ⟨rfl, rfl, hmem⟩ := h
  rw [HashRing.removeNode]
  split
  · next hold =>
    refine ⟨rfl, rfl, fun e => ?_⟩
    rw [mem_foldl_erase, hmem, Finset.mem_erase]
    constructor
    · rintro ⟨⟨he, hpoint⟩, hnot⟩
      refine ⟨⟨?_, he⟩, hpoint⟩
      rintro rfl
      exact hnot hpoint
    · rintro ⟨⟨hne, he⟩, hpoint⟩
      exact ⟨⟨he, hpoint⟩, fun hgone => hne (hd.eq (hnodes _ he) (hnodes _ hold) hpoint hgone)⟩
  · next hnew =>
    rw [Finset.erase_eq_of_notMem hnew]
    exact ⟨rfl, rfl, hmem⟩

end

theorem members_append (calls : List RingCall) (call : RingCall) :
    members (calls ++ [call]) = match call with
      | .addNode id => insert id (members calls)
      | .removeNode id => (members calls).erase id := by
  rw [members, List.foldl_append]
  rfl

theorem mem_everAdded_of_mem_members (h : id ∈ members calls) : id ∈ everAdded calls := by
  induction calls using List.reverseRecOn with
  | nil => cases h
  | append_singleton calls call ih =>
    rw [everAdded, List.filterMap_append, List.mem_append]
    rw [members_append] at h
    cases call with
    | addNode new =>
      rcases Finset.mem_insert.1 h with rfl | h
      · exact .inr List.mem_cons_self
      · exact .inl (ih h)
    | removeNode old => exact .inl (ih (Finset.mem_of_mem_erase h))

/-- After any calls the ring holds the points of the members. -/
theorem represents_after {virtualNodes : Nat} (hd : PointsDistinct virtualNodes (everAdded calls)) :
    (after virtualNodes calls).Represents virtualNodes (members calls) := by
  induction calls using List.reverseRecOn with
  | nil => exact represents_new virtualNodes
  | append_singleton calls call ih =>
    have hsub : ∀ id ∈ everAdded calls, id ∈ everAdded (calls ++ [call]) := by
      intro id hid
      rw [everAdded, List.filterMap_append]
      exact List.mem_append_left _ hid
    have hmembers : ∀ id ∈ members calls, id ∈ everAdded (calls ++ [call]) :=
      fun id hid => hsub id (mem_everAdded_of_mem_members hid)
    have hr := ih fun a ha b hb => hd a (hsub a ha) b (hsub b hb)
    rw [after, List.foldl_append, members_append]
    cases call with
    | addNode new =>
      refine hr.addNode hd hmembers ?_
      rw [everAdded, List.filterMap_append]
      exact List.mem_append_right _ List.mem_cons_self
    | removeNode old => exact hr.removeNode hd hmembers old

/-! ## The lookup -/

/-- The owners of the points met on a walk around the ring from a hash. -/
def owners (r : HashRing) (hash : UInt64) : List NodeId := (r.ring.around hash).map Prod.snd

/-- What the loop has collected after it has met one more node. -/
def collect (result : List NodeId) (id : NodeId) : List NodeId :=
  if id ∈ result then result else result ++ [id]

theorem nodup_collect (h : result.Nodup) (id : NodeId) : (collect result id).Nodup := by
  rw [collect]
  split
  · exact h
  · next hnew => exact List.concat_eq_append ▸ h.concat hnew

/-- One round of the loop. What is collected stays without repetitions, and `seen` is the set of
it. -/
theorem walk_succ {r : HashRing} {count it : Nat} {e : UInt64 × NodeId} (hnodup : result.Nodup)
    (hlt : result.length < count)
    (hnext : r.ring.entries[if it = r.ring.entries.length then 0 else it]? = some e) :
    r.walk count (fuel + 1) it result result.toFinset =
      if r.nodes.card ≤ (collect result e.2).length then some (collect result e.2)
      else r.walk count fuel ((if it = r.ring.entries.length then 0 else it) + 1)
        (collect result e.2) (collect result e.2).toFinset := by
  have hseen : (if e.2 ∈ result then result.toFinset else insert e.2 result.toFinset) =
      (collect result e.2).toFinset := by
    rw [collect]
    split
    · rfl
    · rw [List.toFinset_append, Finset.union_comm]
      rfl
  rw [walk, if_pos hlt]
  simp only [hnext, List.mem_toFinset]
  rw [hseen, List.toFinset_card_of_nodup (nodup_collect hnodup e.2)]
  rfl

/-- The loop, when the elements of `rest` are what it meets next and are enough of them. -/
theorem walk_eq {r : HashRing} {count : Nat} (hcount : count ≤ r.nodes.card)
    {rest : List (UInt64 × NodeId)} {it : Nat} (hit : it ≤ r.ring.entries.length)
    (hrest : rest <+: r.ring.entries.drop it ++ r.ring.entries) (hnodup : result.Nodup)
    (hle : result.length ≤ count) (henough : count ≤ (result ++ rest.map Prod.snd).eraseDups.length)
    (hfuel : rest.length < fuel) :
    r.walk count fuel it result result.toFinset =
      some ((result ++ rest.map Prod.snd).eraseDups.take count) := by
  induction rest generalizing it result fuel with
  | nil =>
    obtain ⟨fuel, rfl⟩ := Nat.exists_eq_add_of_lt hfuel
    rw [List.map_nil, List.append_nil, Firsts.eraseDups_of_nodup hnodup] at henough ⊢
    rw [walk, if_neg (by omega), List.take_of_length_le hle]
  | cons e rest ih =>
    obtain ⟨fuel, rfl⟩ : ∃ n, fuel = n + 1 := ⟨fuel - 1, by omega⟩
    by_cases hlt : result.length < count
    · obtain ⟨hnext, hit', hrest'⟩ := next_around hit hrest
      have hnodup' := nodup_collect hnodup e.2
      have hle' : (collect result e.2).length ≤ count := by
        rw [collect]
        split
        · exact hle
        · rw [List.length_append]
          exact hlt
      rw [List.map_cons, Firsts.eraseDups_append_cons, ← collect] at henough ⊢
      rw [walk_succ hnodup hlt hnext]
      split
      · next hall =>
        rw [show count = (collect result e.2).length by omega, Firsts.take_eraseDups_append hnodup']
      · exact ih hit' hrest' hnodup' hle' henough (Nat.lt_of_succ_lt_succ hfuel)
    · rw [walk, if_neg hlt, show count = result.length by omega,
        Firsts.take_eraseDups_append hnodup]

/-- A lookup on a ring where every node is met finds the first that are, at least one. -/
theorem lookup_eq_of_owners {r : HashRing} {hash : UInt64} (hne : r.ring.entries ≠ [])
    (hlen : (r.owners hash).eraseDups.length = r.nodes.card) (hfuel : r.ring.entries.length < fuel)
    (count : Nat) :
    r.lookup fuel hash count = some ((r.owners hash).eraseDups.take (max count 1)) := by
  obtain ⟨e, he⟩ := List.exists_mem_of_ne_nil _ hne
  have howner : e.2 ∈ (r.owners hash).eraseDups :=
    List.mem_eraseDups.2 (List.mem_map_of_mem (mem_around.2 he))
  have hpos := List.length_pos_of_mem howner
  have hclamp : (if min count r.nodes.card = 0 then 1 else min count r.nodes.card) =
      min (max count 1) (r.owners hash).eraseDups.length := by
    split <;> omega
  have hpre : r.ring.around hash <+:
      r.ring.entries.drop (r.ring.lowerBound hash) ++ r.ring.entries := by
    rw [around_eq]
    exact (List.prefix_append_right_inj _).2 (List.take_prefix _ _)
  have hsize : (r.ring.around hash).length = r.ring.entries.length := by
    rw [around_eq, List.length_append, List.length_drop, List.length_take]
    have := r.ring.lowerBound_le hash
    omega
  rw [lookup, if_neg hne]
  dsimp only
  rw [hclamp]
  refine (walk_eq ((Nat.min_le_right _ _).trans hlen.le) (r.ring.lowerBound_le hash) hpre
    List.nodup_nil (Nat.zero_le _) (Nat.min_le_right _ _) (by omega)).trans ?_
  rw [List.nil_append, ← owners, ← List.take_eq_take_min]

section
variable {r : HashRing} {virtualNodes : Nat} {nodes : Finset NodeId}

theorem Represents.mem_owners (h : r.Represents virtualNodes nodes) {hash : UInt64} :
    id ∈ r.owners hash ↔ id ∈ nodes ∧ 0 < virtualNodes := by
  rw [owners, List.mem_map]
  constructor
  · rintro ⟨e, he, rfl⟩
    obtain ⟨hid, hpoint⟩ := (h.mem_entries e).1 (mem_around.1 he)
    obtain ⟨i, hi, -⟩ := List.mem_map.1 hpoint
    exact ⟨hid, Nat.zero_lt_of_lt (List.mem_range.1 hi)⟩
  · rintro ⟨hid, hpos⟩
    refine ⟨(hashPoint id 0, id), mem_around.2 ((h.mem_entries _).2 ⟨hid, ?_⟩), rfl⟩
    exact List.mem_map_of_mem (List.mem_range.2 hpos)

/-- Every node is met, if nodes have points at all. -/
theorem Represents.length_owners (h : r.Represents virtualNodes nodes) (hpos : 0 < virtualNodes)
    (hash : UInt64) : (r.owners hash).eraseDups.length = nodes.card := by
  rw [Firsts.length_eraseDups]
  congr 1
  ext id
  rw [List.mem_toFinset, h.mem_owners]
  exact and_iff_left hpos

theorem Represents.length_owners_le (h : r.Represents virtualNodes nodes) (hash : UInt64) :
    (r.owners hash).eraseDups.length ≤ max r.nodeCount 1 := by
  rw [Firsts.length_eraseDups, nodeCount, h.nodes_eq]
  refine (Finset.card_le_card fun id hid => ?_).trans (Nat.le_max_left _ _)
  exact (h.mem_owners.1 (List.mem_toFinset.1 hid)).1

/-- A lookup finds the first nodes that are met, at least one. -/
theorem Represents.lookup_eq (h : r.Represents virtualNodes nodes)
    (hfuel : r.ring.entries.length < fuel) (hash : UInt64) (count : Nat) :
    r.lookup fuel hash count = some ((r.owners hash).eraseDups.take (max count 1)) := by
  rcases eq_or_ne r.ring.entries [] with hnil | hne
  · rw [lookup, if_pos hnil, owners, around, hnil]
    simp
  · obtain ⟨e, he⟩ := List.exists_mem_of_ne_nil _ hne
    have hpos := (h.mem_owners.1 (List.mem_map_of_mem (mem_around.2 he) : e.2 ∈ r.owners hash)).2
    exact lookup_eq_of_owners hne (h.nodes_eq ▸ h.length_owners hpos hash) hfuel count

end

/-- A list of nodes is what a lookup is to find: so many different members, in the order in which a
walk around the ring from the hash meets them first. -/
structure Preferred (r : HashRing) (nodes : Finset NodeId) (hash : UInt64) (count : Nat)
    (result : List NodeId) : Prop where
  nodup : result.Nodup
  members : ∀ id ∈ result, id ∈ nodes
  length : result.length = min (max count 1) nodes.card
  first : result <+: (r.owners hash).eraseDups

theorem Represents.preferred {r : HashRing} {virtualNodes : Nat} {nodes : Finset NodeId}
    (h : r.Represents virtualNodes nodes) (hpos : 0 < virtualNodes) (hash : UInt64) (count : Nat) :
    r.Preferred nodes hash count ((r.owners hash).eraseDups.take (max count 1)) where
  nodup := (Firsts.nodup_eraseDups _).sublist (List.take_sublist _ _)
  members _ hid := (h.mem_owners.1 (List.mem_eraseDups.1 (List.mem_of_mem_take hid))).1
  length := by rw [List.length_take, h.length_owners hpos]
  first := List.take_prefix _ _

/-- **Lookups on the ring.** After any calls that add and remove nodes, if the points of the nodes
ever added are different, the ring holds the points of its members, and a lookup for a key or a
chunk ends and finds the members in the order of the walk from the hash. On an empty ring it finds
nothing. -/
theorem getNodes_preferred (keyHash : CacheKey → UInt64) (virtualNodes : Nat)
    (hpos : 1 ≤ virtualNodes)
    (calls : List RingCall) (hd : PointsDistinct virtualNodes (everAdded calls)) (fuel : Nat)
    (hfuel : (after virtualNodes calls).ring.entries.length < fuel) :
    (after virtualNodes calls).Represents virtualNodes (members calls) ∧
    (∀ key count, ∃ result,
      (after virtualNodes calls).getNodes keyHash fuel key count = some result ∧
      (after virtualNodes calls).Preferred (members calls) (keyHash key) count result) ∧
    (∀ chunk count, ∃ result,
      (after virtualNodes calls).getChunkNodes fuel chunk count = some result ∧
      (after virtualNodes calls).Preferred (members calls) chunk.hash.low count result) ∧
    ((after virtualNodes calls).ring.entries = [] →
      ∀ hash count, (after virtualNodes calls).lookup fuel hash count = some []) := by
  have h := represents_after hd
  refine ⟨h, fun key count => ⟨_, h.lookup_eq hfuel _ count, h.preferred hpos _ count⟩,
    fun chunk count => ⟨_, h.lookup_eq hfuel _ count, h.preferred hpos _ count⟩, ?_⟩
  intro hnil hash count
  rw [lookup, if_pos hnil]

/-- Two nodes, one of them added twice and a third one gone again, with two points each. -/
def twoNodes : List RingCall :=
  [.addNode ⟨1⟩, .addNode ⟨3⟩, .addNode ⟨2⟩, .removeNode ⟨3⟩, .addNode ⟨1⟩]

/-- Asked for five nodes, a ring of two finds both. -/
theorem getNodes_preferred_twoNodes :
    PointsDistinct 2 (everAdded twoNodes) ∧
    ∃ result, (after 2 twoNodes).getNodes (fun _ => 0) 5 ⟨[97]⟩ 5 = some result ∧
      (after 2 twoNodes).Preferred (members twoNodes) 0 5 result := by
  have hd : PointsDistinct 2 (everAdded twoNodes) := by decide +kernel
  refine ⟨hd, (getNodes_preferred (fun _ => 0) 2 (by omega) twoNodes hd 5 ?_).2.1 ⟨[97]⟩ 5⟩
  decide +kernel

/-! ## Consistency -/

/-- The ring that holds all nodes of another one but one. -/
theorem Represents.entries_erase {r r' : HashRing} {virtualNodes : Nat} {nodes : Finset NodeId}
    (h : r.Represents virtualNodes nodes) (h' : r'.Represents virtualNodes (nodes.erase id)) :
    r'.ring.entries = r.ring.entries.filter (·.2 ≠ id) := by
  have heq : r'.ring = ⟨r.ring.entries.filter (·.2 ≠ id), r.ring.sorted.filter _⟩ := by
    apply ext_mem
    intro e
    rw [h'.mem_entries, List.mem_filter, h.mem_entries, Finset.mem_erase, decide_eq_true_eq]
    tauto
  rw [heq]

/-- Without a node, a walk meets the other nodes in the same order. -/
theorem Represents.owners_erase {r r' : HashRing} {virtualNodes : Nat} {nodes : Finset NodeId}
    (h : r.Represents virtualNodes nodes) (h' : r'.Represents virtualNodes (nodes.erase id))
    (hash : UInt64) : (r'.owners hash).eraseDups = (r.owners hash).eraseDups.filter (· ≠ id) := by
  rw [owners, around_filter (h.entries_erase h'), ← Firsts.eraseDups_filter, owners,
    List.filter_map]
  rfl

/-- Rings that hold the same nodes are equal. -/
theorem Represents.unique {r r' : HashRing} {virtualNodes : Nat} {nodes : Finset NodeId}
    (h : r.Represents virtualNodes nodes) (h' : r'.Represents virtualNodes nodes) : r = r' := by
  have hring : r.ring = r'.ring := ext_mem fun e => by rw [h.mem_entries, h'.mem_entries]
  obtain ⟨V, ring, ids⟩ := r
  obtain ⟨V', ring', ids'⟩ := r'
  obtain ⟨rfl, rfl, -⟩ := h
  obtain ⟨hV, hids, -⟩ := h'
  cases hring
  cases hV
  cases hids
  rfl

/-- The first elements of a list, and the first elements of what a filter leaves of it. -/
theorem filter_take_prefix {α : Type} (p : α → Bool) (l : List α) (k : Nat) :
    (l.take k).filter p <+: (l.filter p).take k ∧
      ((∀ a ∈ l.take k, p a) → (l.filter p).take k = l.take k) := by
  have hpre : (l.take k).filter p <+: (l.filter p).take k := by
    refine List.prefix_take_iff.2 ⟨(List.take_prefix k l).filter p, ?_⟩
    exact (List.length_filter_le _ _).trans (List.length_take_le _ _)
  refine ⟨hpre, fun hall => ?_⟩
  rw [List.filter_eq_self.2 hall] at hpre
  refine (hpre.eq_of_length_le ?_).symm
  rw [List.length_take, List.length_take]
  have := List.length_filter_le p l
  omega

/-- **Consistent hashing.** The ring is determined by its members. And the nodes for a key on the
ring without a node are the nodes for it on the ring with it, without that node; of the first nodes
for a key only that node is gone, and nothing changes if it was not one of them. -/
theorem ring_consistent (keyHash : CacheKey → UInt64) (virtualNodes : Nat) :
    (∀ calls calls', PointsDistinct virtualNodes (everAdded calls) →
      PointsDistinct virtualNodes (everAdded calls') → members calls = members calls' →
      after virtualNodes calls = after virtualNodes calls') ∧
    (∀ calls calls' id, PointsDistinct virtualNodes (everAdded calls) →
      PointsDistinct virtualNodes (everAdded calls') → members calls' = (members calls).erase id →
      ∀ r r', r = after virtualNodes calls → r' = after virtualNodes calls' →
      ∀ fuel, r.ring.entries.length < fuel → r'.ring.entries.length < fuel → ∀ key,
        (∃ found, r.getNodes keyHash fuel key r.nodeCount = some found ∧
          r'.getNodes keyHash fuel key r'.nodeCount = some (found.filter (· ≠ id))) ∧
        ∀ count, ∃ found found', r.getNodes keyHash fuel key count = some found ∧
          r'.getNodes keyHash fuel key count = some found' ∧
          found.filter (· ≠ id) <+: found' ∧ (id ∉ found → found' = found)) := by
  constructor
  · intro calls calls' hd hd' hmembers
    exact (represents_after hd).unique (hmembers ▸ represents_after hd')
  · rintro calls calls' id hd hd' hmembers r r' rfl rfl fuel hfuel hfuel' key
    have h := represents_after hd
    have h' := represents_after hd'
    rw [hmembers] at h'
    have howners := h.owners_erase h' (keyHash key)
    constructor
    · refine ⟨_, h.lookup_eq hfuel _ _, (h'.lookup_eq hfuel' _ _).trans ?_⟩
      rw [List.take_of_length_le (h'.length_owners_le _),
        List.take_of_length_le (h.length_owners_le _), howners]
    · intro count
      obtain ⟨hpre, hsame⟩ := filter_take_prefix (· ≠ id)
        ((after virtualNodes calls).owners (keyHash key)).eraseDups (max count 1)
      refine ⟨_, _, h.lookup_eq hfuel _ count, h'.lookup_eq hfuel' _ count, ?_, ?_⟩
      · rw [howners]
        exact hpre
      · intro hnot
        rw [howners]
        refine hsame fun a ha => decide_eq_true ?_
        rintro rfl
        exact hnot ha

/-- The ring of two nodes, and the ring that one of them has left. -/
theorem ring_consistent_twoNodes :
    ∃ found, (after 2 twoNodes).getNodes (fun _ => 0) 5 ⟨[97]⟩ 2 = some found ∧
      (after 2 [.addNode ⟨2⟩]).getNodes (fun _ => 0) 5 ⟨[97]⟩ 1 = some (found.filter (· ≠ ⟨1⟩)) :=
  ((ring_consistent (fun _ => 0) 2).2 twoNodes [.addNode ⟨2⟩] ⟨1⟩ (by decide +kernel)
    (by decide +kernel) (by decide +kernel) _ _ rfl rfl 5 (by decide +kernel) (by decide +kernel)
    ⟨[97]⟩).1

end HashRing

end ElCache
