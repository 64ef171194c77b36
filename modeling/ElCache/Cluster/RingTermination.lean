import ElCache.Cluster.HashRing
import ElCache.Lib.Prog

/-!
# When lookups on the ring end

`get_nodes` walks the ring until it has met as many nodes as it was asked for or as many as there
are members. It ends if every member owns a point of the ring, and never does if one of the members
it has to find owns none (`lookup_eq_none`). A member loses a point when another node with that
point is added, for the entry is overwritten, and again when that node is removed, for the entry is
erased. `lookups_end_iff` says along which runs no member loses its last point.
-/

namespace ElCache

open OrderedMap

namespace HashRing

/-- The node owns a point of the ring. -/
def Owns (r : HashRing) (id : NodeId) : Prop := ∃ point, (point, id) ∈ r.ring.entries

/-- Every member owns a point, and every lookup ends. -/
structure LookupsEnd (r : HashRing) : Prop where
  owned : ∀ id ∈ r.nodes, r.Owns id
  ends : ∀ hash count, ∃ fuel result, r.lookup fuel hash count = some result

/-- What holds of the entries in every run: they belong to members, each at one of its points. -/
structure EntriesSound (virtualNodes : Nat) (r : HashRing) : Prop where
  virtualNodes_eq : r.virtualNodes = virtualNodes
  owner_mem : ∀ e ∈ r.ring.entries, e.2 ∈ r.nodes
  point_mem : ∀ e ∈ r.ring.entries, e.1 ∈ nodePoints virtualNodes e.2

section
variable {r : HashRing} {virtualNodes : Nat} {id : NodeId}

theorem entriesSound_new (virtualNodes : Nat) : (new virtualNodes).EntriesSound virtualNodes where
  virtualNodes_eq := rfl
  owner_mem e he := by cases he
  point_mem e he := by cases he

/-- The entries after a node has been added. -/
theorem mem_entries_addNode (hid : id ∉ r.nodes) {e : UInt64 × NodeId} :
    e ∈ (r.addNode id).ring.entries ↔ (e.2 = id ∧ e.1 ∈ nodePoints r.virtualNodes id) ∨
      (e ∈ r.ring.entries ∧ e.1 ∉ nodePoints r.virtualNodes id) := by
  rw [addNode, if_neg hid]
  exact mem_foldl_insert _

/-- The entries after a node has been removed. -/
theorem mem_entries_removeNode (hid : id ∈ r.nodes) {e : UInt64 × NodeId} :
    e ∈ (r.removeNode id).ring.entries ↔
      e ∈ r.ring.entries ∧ e.1 ∉ nodePoints r.virtualNodes id := by
  rw [removeNode, if_pos hid]
  exact mem_foldl_erase _

theorem nodes_addNode (r : HashRing) (id : NodeId) : (r.addNode id).nodes = insert id r.nodes := by
  rw [addNode]
  split
  · next h => rw [Finset.insert_eq_of_mem h]
  · rfl

theorem nodes_removeNode (r : HashRing) (id : NodeId) :
    (r.removeNode id).nodes = r.nodes.erase id := by
  rw [removeNode]
  split
  · rfl
  · next h => rw [Finset.erase_eq_of_notMem h]

theorem virtualNodes_exec (r : HashRing) (call : RingCall) :
    (r.exec call).virtualNodes = r.virtualNodes := by
  cases call with
  | addNode id => rw [exec, addNode]; split <;> rfl
  | removeNode id => rw [exec, removeNode]; split <;> rfl

theorem EntriesSound.addNode (h : r.EntriesSound virtualNodes) (id : NodeId) :
    (r.addNode id).EntriesSound virtualNodes := by
  by_cases hid : id ∈ r.nodes
  · rwa [HashRing.addNode, if_pos hid]
  · have hV := h.virtualNodes_eq
    refine ⟨(r.virtualNodes_exec (.addNode id)).trans hV, fun e he => ?_, fun e he => ?_⟩
    · rw [nodes_addNode, Finset.mem_insert]
      rcases (mem_entries_addNode hid).1 he with ⟨rfl, -⟩ | ⟨he, -⟩
      · exact .inl rfl
      · exact .inr (h.owner_mem e he)
    · rcases (mem_entries_addNode hid).1 he with ⟨rfl, hpoint⟩ | ⟨he, -⟩
      · exact hV ▸ hpoint
      · exact h.point_mem e he

/-- What a removal erases includes all entries of the node. -/
theorem EntriesSound.removeNode (h : r.EntriesSound virtualNodes) (id : NodeId) :
    (r.removeNode id).EntriesSound virtualNodes := by
  by_cases hid : id ∈ r.nodes
  · have hV := h.virtualNodes_eq
    refine ⟨(r.virtualNodes_exec (.removeNode id)).trans hV, fun e he => ?_, fun e he => ?_⟩
    · obtain ⟨he, hpoint⟩ := (mem_entries_removeNode hid).1 he
      rw [nodes_removeNode, Finset.mem_erase]
      refine ⟨fun heq => hpoint ?_, h.owner_mem e he⟩
      rw [hV, ← heq]
      exact h.point_mem e he
    · exact h.point_mem e ((mem_entries_removeNode hid).1 he).1
  · rwa [HashRing.removeNode, if_neg hid]

theorem EntriesSound.exec (h : r.EntriesSound virtualNodes) (call : RingCall) :
    (r.exec call).EntriesSound virtualNodes := by
  cases call with
  | addNode id => exact h.addNode id
  | removeNode id => exact h.removeNode id

theorem entriesSound_after (virtualNodes : Nat) (calls : List RingCall) :
    (after virtualNodes calls).EntriesSound virtualNodes :=
  List.foldlRecOn _ _ (entriesSound_new virtualNodes) fun _ hr call _ => hr.exec call

/-! ## Lookups -/

theorem EntriesSound.mem_owners (h : r.EntriesSound virtualNodes)
    (howned : ∀ id ∈ r.nodes, r.Owns id) {hash : UInt64} : id ∈ r.owners hash ↔ id ∈ r.nodes := by
  rw [owners, List.mem_map]
  constructor
  · rintro ⟨e, he, rfl⟩
    exact h.owner_mem e (mem_around.1 he)
  · intro hid
    obtain ⟨point, hpoint⟩ := howned id hid
    exact ⟨(point, id), mem_around.2 hpoint, rfl⟩

/-- If every member owns a point, lookups end. -/
theorem EntriesSound.lookupsEnd (h : r.EntriesSound virtualNodes)
    (howned : ∀ id ∈ r.nodes, r.Owns id) : r.LookupsEnd := by
  refine ⟨howned, fun hash count => ?_⟩
  rcases eq_or_ne r.ring.entries [] with hnil | hne
  · exact ⟨0, [], if_pos hnil⟩
  · refine ⟨r.ring.entries.length + 1, _, lookup_eq_of_owners hne ?_ (Nat.lt_succ_self _) count⟩
    rw [Firsts.length_eraseDups]
    congr 1
    ext a
    rw [List.mem_toFinset, h.mem_owners howned]

/-- The walk goes on as long as it has not met enough nodes. If the entries belong to fewer nodes
than that, it does so for ever. -/
theorem walk_eq_none {count : Nat} {S : Finset NodeId} (hS : ∀ e ∈ r.ring.entries, e.2 ∈ S)
    (hlt : S.card < count) (hcount : count ≤ r.nodes.card) : ∀ fuel it (result : List NodeId),
      result.Nodup → (∀ id ∈ result, id ∈ S) →
      r.walk count fuel it result result.toFinset = none := by
  intro fuel
  induction fuel with
  | zero => exact fun it result _ _ => rfl
  | succ fuel ih =>
    intro it result hnodup hsub
    have hcard : ∀ l : List NodeId, l.Nodup → (∀ id ∈ l, id ∈ S) → l.length ≤ S.card := by
      intro l hl hlS
      rw [← List.toFinset_card_of_nodup hl]
      exact Finset.card_le_card fun a ha => hlS a (List.mem_toFinset.1 ha)
    have hless := lt_of_le_of_lt (hcard result hnodup hsub) hlt
    cases hentry : r.ring.entries[if it = r.ring.entries.length then 0 else it]? with
    | none =>
      rw [walk, if_pos hless]
      simp only [hentry]
    | some e =>
      have hsub' : ∀ a ∈ collect result e.2, a ∈ S := by
        intro a ha
        rw [collect] at ha
        split at ha
        · exact hsub a ha
        · rcases List.mem_append.1 ha with ha | ha
          · exact hsub a ha
          · rw [List.mem_singleton.1 ha]
            exact hS e (List.mem_of_getElem? hentry)
      have hnodup' := nodup_collect hnodup e.2
      have := hcard _ hnodup' hsub'
      rw [walk_succ hnodup hless hentry, if_neg (by omega)]
      exact ih _ _ hnodup' hsub'

/-- If a member owns no point, a lookup for all members does not end, unless the ring is empty. -/
theorem EntriesSound.lookup_eq_none (h : r.EntriesSound virtualNodes)
    (hne : r.ring.entries ≠ []) (hid : id ∈ r.nodes) (hnot : ¬ r.Owns id) {count : Nat}
    (hcount : r.nodes.card ≤ count) (fuel : Nat) (hash : UInt64) :
    r.lookup fuel hash count = none := by
  have hpos : 0 < r.nodes.card := Finset.card_pos.2 ⟨id, hid⟩
  rw [lookup, if_neg hne]
  dsimp only
  rw [Nat.min_eq_right hcount, if_neg hpos.ne']
  refine walk_eq_none (S := r.nodes.erase id) (fun e he => ?_) (Finset.card_erase_lt_of_mem hid)
    le_rfl fuel _ [] List.nodup_nil fun a ha => absurd ha List.not_mem_nil
  rw [Finset.mem_erase]
  refine ⟨?_, h.owner_mem e he⟩
  rintro rfl
  exact hnot ⟨e.1, he⟩

/-! ## Runs -/

/-- Every other member owns a point that is not one of the node's points. -/
def Spares (r : HashRing) (id : NodeId) : Prop :=
  ∀ a ∈ r.nodes, a ≠ id → ∃ point, (point, a) ∈ r.ring.entries ∧
    point ∉ nodePoints r.virtualNodes id

/-- The call changes nothing, or it spares a point of every other member. -/
def KeepsOwners (call : RingCall) (r : HashRing) : Prop :=
  match call with
  | .addNode id => id ∈ r.nodes ∨ r.Spares id
  | .removeNode id => id ∉ r.nodes ∨ r.Spares id

/-- A new node leaves the others a point each if and only if it spares them. -/
theorem owned_addNode_iff (hpos : 0 < r.virtualNodes) (hid : id ∉ r.nodes) :
    (∀ a ∈ (r.addNode id).nodes, (r.addNode id).Owns a) ↔ r.Spares id := by
  rw [nodes_addNode]
  constructor
  · intro h a ha hne
    obtain ⟨point, hpoint⟩ := h a (Finset.mem_insert_of_mem ha)
    rcases (mem_entries_addNode hid).1 hpoint with ⟨heq, -⟩ | hold
    · exact absurd heq hne
    · exact ⟨point, hold⟩
  · intro h a ha
    rcases Finset.mem_insert.1 ha with rfl | ha
    · refine ⟨hashPoint a 0, (mem_entries_addNode hid).2 (.inl ⟨rfl, ?_⟩)⟩
      exact List.mem_map_of_mem (List.mem_range.2 hpos)
    · obtain ⟨point, hold⟩ := h a ha fun heq => hid (heq ▸ ha)
      exact ⟨point, (mem_entries_addNode hid).2 (.inr hold)⟩

theorem owned_removeNode_iff (hid : id ∈ r.nodes) :
    (∀ a ∈ (r.removeNode id).nodes, (r.removeNode id).Owns a) ↔ r.Spares id := by
  rw [nodes_removeNode]
  constructor
  · intro h a ha hne
    obtain ⟨point, hpoint⟩ := h a (Finset.mem_erase.2 ⟨hne, ha⟩)
    exact ⟨point, (mem_entries_removeNode hid).1 hpoint⟩
  · intro h a ha
    obtain ⟨hne, ha⟩ := Finset.mem_erase.1 ha
    obtain ⟨point, hold⟩ := h a ha hne
    exact ⟨point, (mem_entries_removeNode hid).2 hold⟩

/-- One call, on a ring where lookups end. -/
theorem LookupsEnd.exec_iff (h : r.LookupsEnd) (hsound : r.EntriesSound virtualNodes)
    (hpos : 0 < virtualNodes) (call : RingCall) :
    (r.exec call).LookupsEnd ↔ KeepsOwners call r := by
  have howned : (r.exec call).LookupsEnd ↔ ∀ a ∈ (r.exec call).nodes, (r.exec call).Owns a :=
    ⟨fun h => h.owned, fun h => (hsound.exec call).lookupsEnd h⟩
  cases call with
  | addNode id =>
    by_cases hid : id ∈ r.nodes
    · rw [exec, addNode, if_pos hid]
      exact ⟨fun _ => .inl hid, fun _ => h⟩
    · rw [howned, KeepsOwners, or_iff_right hid]
      exact owned_addNode_iff (hsound.virtualNodes_eq.symm ▸ hpos) hid
  | removeNode id =>
    by_cases hid : id ∈ r.nodes
    · rw [howned, KeepsOwners, or_iff_right (not_not.2 hid)]
      exact owned_removeNode_iff hid
    · rw [exec, removeNode, if_neg hid]
      exact ⟨fun _ => .inl hid, fun _ => h⟩

end

/-- In a run of calls, every member owns a point and every lookup ends in every state reached,
exactly if each call that adds a new node or removes a member spares a point of every other
member. -/
theorem lookups_end_iff (virtualNodes : Nat) (hpos : 1 ≤ virtualNodes) (calls : List RingCall) :
    EveryState (fun call r => r.exec call) LookupsEnd calls (new virtualNodes) ↔
      EveryStep (fun call r => r.exec call) KeepsOwners calls (new virtualNodes) := by
  refine everyState_iff_everyStep (I := EntriesSound virtualNodes) (fun call _ r hr => hr.exec call)
    (fun call _ r hr h => h.exec_iff hr hpos call) (entriesSound_new virtualNodes) ?_
  exact (entriesSound_new virtualNodes).lookupsEnd fun id hid => by cases hid

/-- Two nodes whose points are different. -/
theorem lookups_end_iff_twoNodes :
    EveryState (fun call r => HashRing.exec r call) LookupsEnd [.addNode ⟨1⟩, .addNode ⟨2⟩]
      (new 2) := by
  refine (lookups_end_iff 2 (by decide) _).2 ⟨.inr ?_, .inr ?_, trivial⟩
  · intro a ha
    cases ha
  · intro a ha _
    have ha : a = ⟨1⟩ := Finset.mem_singleton.1 ha
    subst ha
    exact ⟨hashPoint ⟨1⟩ 0, by decide +kernel, by decide +kernel⟩

/-- Two ids that differ by the multiplier of the replica number have the same two points. -/
def twins : List RingCall := [.addNode ⟨0⟩, .addNode ⟨0x9E3779B97F4A7C15⟩]

/-- The second of them takes all points of the first, and a lookup for two nodes goes round the ring
for ever. -/
theorem lookup_twins_never_ends :
    ¬ EveryState (fun call r => HashRing.exec r call) LookupsEnd twins (new 2) ∧
    (⟨0⟩ : NodeId) ∈ (after 2 twins).nodes ∧ ¬ (after 2 twins).Owns ⟨0⟩ ∧
    ∀ fuel, (after 2 twins).lookup fuel 0 2 = none := by
  have hmem : (⟨0⟩ : NodeId) ∈ (after 2 twins).nodes := by decide +kernel
  have hentries : ∀ e ∈ (after 2 twins).ring.entries, e.2 ≠ ⟨0⟩ := by decide +kernel
  have hnot : ¬ (after 2 twins).Owns ⟨0⟩ := by
    rintro ⟨point, hpoint⟩
    exact hentries _ hpoint rfl
  refine ⟨fun h => hnot (h.last.owned _ hmem), hmem, hnot, fun fuel => ?_⟩
  have hsound := entriesSound_after 2 twins
  exact hsound.lookup_eq_none (by decide +kernel) hmem hnot (by decide +kernel) fuel 0

end HashRing

end ElCache
