import ElCache.Cluster.RingTermination
import ElCache.Lib.Mixing

/-!
# The points of a node

`hash_point` combines the id of a node with the number of a replica and mixes the result. The mixer
loses nothing (`Mixing.mix_injective`), so two points are the same exactly if they are mixed from
the same word (`hashPoint_eq_iff`). The words of one node differ by replica, and those of one
replica by node.

A node therefore has as many points as replicas, and it owns all of them when it has been added
(`EntriesSound.pointsOf_addNode`).
-/

namespace ElCache

open Mixing OrderedMap

/-! ## Hashes of replicas -/

/-- The word that `hash_point` mixes. -/
def combined (id : NodeId) (replica : Nat) : BitVec 64 :=
  id.value.toBitVec ^^^ (BitVec.ofNat 64 replica * 0x9E3779B97F4A7C15#64)

/-- How `hash_point` mixes it. -/
def pointMixer : List (Step 64) :=
  [.xorShift 33, .mul 0xff51afd7ed558ccd#64, .xorShift 33, .mul 0xc4ceb9fe1a85ec53#64, .xorShift 33]

theorem toBitVec_hashPoint (id : NodeId) (replica : Nat) :
    (hashPoint id replica).toBitVec = mix pointMixer (combined id replica) := rfl

theorem pointMixer_lossless : ∀ step ∈ pointMixer, step.Lossless := by
  simp [pointMixer, Step.Lossless, Nat.odd_iff]

/-- Points are the same exactly if they are mixed from the same word. -/
theorem hashPoint_eq_iff {a b : NodeId} {i j : Nat} :
    hashPoint a i = hashPoint b j ↔ combined a i = combined b j := by
  rw [← UInt64.toBitVec_inj, toBitVec_hashPoint, toBitVec_hashPoint]
  exact (mix_injective pointMixer_lossless).eq_iff

theorem hashPoint_replica_inj {id : NodeId} {i j : Nat} (hi : i < 2 ^ 64) (hj : j < 2 ^ 64)
    (h : hashPoint id i = hashPoint id j) : i = j := by
  have hmul := (BitVec.xor_right_inj id.value.toBitVec).1 (hashPoint_eq_iff.1 h)
  have hodd : Odd (0x9E3779B97F4A7C15#64).toNat := by simp [Nat.odd_iff]
  have hword : BitVec.ofNat 64 i = BitVec.ofNat 64 j := mul_injective_of_odd hodd hmul
  have hnat := congrArg BitVec.toNat hword
  rwa [BitVec.toNat_ofNat, BitVec.toNat_ofNat, Nat.mod_eq_of_lt hi, Nat.mod_eq_of_lt hj] at hnat

theorem hashPoint_id_injective (replica : Nat) : Function.Injective (hashPoint · replica) := by
  intro a b h
  have hvalue := (BitVec.xor_left_inj _).1 (hashPoint_eq_iff.1 h)
  exact congrArg NodeId.mk (UInt64.toBitVec_inj.1 hvalue)

/-- A replica is numbered by a `size_t`, so `virtualNodes` of them are never more than `2 ^ 64`. -/
theorem nodup_nodePoints {virtualNodes : Nat} (hV : virtualNodes ≤ 2 ^ 64) (id : NodeId) :
    (nodePoints virtualNodes id).Nodup := by
  refine List.Nodup.map_on ?_ List.nodup_range
  intro i hi j hj h
  exact hashPoint_replica_inj (lt_of_lt_of_le (List.mem_range.1 hi) hV)
    (lt_of_lt_of_le (List.mem_range.1 hj) hV) h

theorem card_nodePoints {virtualNodes : Nat} (hV : virtualNodes ≤ 2 ^ 64) (id : NodeId) :
    (nodePoints virtualNodes id).toFinset.card = virtualNodes := by
  rw [List.toFinset_card_of_nodup (nodup_nodePoints hV id), nodePoints, List.length_map,
    List.length_range]

/-! ## Points of the ring -/

namespace HashRing

/-- The points of the ring that a node owns. -/
def pointsOf (r : HashRing) (id : NodeId) : Finset UInt64 :=
  ((r.ring.entries.filter fun e => e.2 = id).map Prod.fst).toFinset

section
variable {r : HashRing} {virtualNodes : Nat} {id : NodeId}

@[simp]
theorem mem_pointsOf {point : UInt64} : point ∈ r.pointsOf id ↔ (point, id) ∈ r.ring.entries := by
  simp [pointsOf]

/-- A new node takes its points, also from nodes that own them. -/
theorem EntriesSound.pointsOf_addNode (h : r.EntriesSound virtualNodes) (hid : id ∉ r.nodes) :
    (r.addNode id).pointsOf id = (nodePoints virtualNodes id).toFinset := by
  ext point
  rw [mem_pointsOf, mem_entries_addNode hid, List.mem_toFinset, h.virtualNodes_eq]
  constructor
  · rintro (⟨-, hpoint⟩ | ⟨hold, -⟩)
    · exact hpoint
    · exact absurd (h.owner_mem _ hold) hid
  · intro hpoint
    exact .inl ⟨rfl, hpoint⟩

end

/-- The points of one node are all different, and so are those that different nodes have for one
replica. A node that is added to a ring, an empty one or any other, then owns exactly as many points
as the ring has replicas. -/
theorem hashPoint_never_collides :
    (∀ (id : NodeId), ∀ i < 2 ^ 64, ∀ j < 2 ^ 64, hashPoint id i = hashPoint id j → i = j) ∧
    (∀ replica, Function.Injective fun id => hashPoint id replica) ∧
    ∀ (virtualNodes : UInt64) (calls : List RingCall) (id : NodeId),
      id ∉ (after virtualNodes.toNat calls).nodes →
      (((after virtualNodes.toNat calls).addNode id).pointsOf id).card = virtualNodes.toNat := by
  refine ⟨fun id i hi j hj h => hashPoint_replica_inj hi hj h, hashPoint_id_injective, ?_⟩
  intro virtualNodes calls id hid
  rw [(entriesSound_after virtualNodes.toNat calls).pointsOf_addNode hid]
  exact card_nodePoints virtualNodes.toNat_lt.le id

/-- The ring is empty again after its only node has been removed. -/
theorem hashPoint_never_collides_oneNode :
    (((after 3 [.addNode ⟨1⟩, .removeNode ⟨1⟩]).addNode ⟨2⟩).pointsOf ⟨2⟩).card = 3 ∧
    (hashPoint ⟨1⟩ 5 = hashPoint ⟨1⟩ 7 → 5 = 7) := by
  obtain ⟨hreplica, -, hring⟩ := hashPoint_never_collides
  exact ⟨hring 3 [.addNode ⟨1⟩, .removeNode ⟨1⟩] ⟨2⟩ (by decide),
    hreplica ⟨1⟩ 5 (by decide) 7 (by decide)⟩

end HashRing

end ElCache
