import ElCache.Memory.Spec

/-!
# The memory budget

A put makes room before it stores a chunk, but only for a chunk that is not resident yet: a resident
chunk is replaced in place. Content addressing makes this safe, since a chunk with the name of a
resident one is that chunk. So, if a whole chunk fits the budget, `size_bytes` stays within it at
every atomic step of every call, and it is the total size of the distinct resident chunks
(`sizeBytes_le_maxSize`).
-/

namespace ElCache

open Slice

namespace MemoryCache

variable {H : ByteBuffer → Hash128} {K : Set ByteBuffer} {P : Set Put} {m m' : MemoryCache}

/-- The chunks the level holds. -/
def residentChunks (m : MemoryCache) : Multiset Chunk := m.chunkCache.contents.map Prod.snd

theorem mem_residentChunks (h : m.chunkCache.Inv) {c : Chunk} :
    c ∈ m.residentChunks ↔ ∃ id, m.chunkCache.lookup id = some c := by
  simp only [residentChunks, Multiset.mem_map, h.lookup_eq_some, Prod.exists, exists_eq_right]

/-- A chunk is resident once: it has only one name. -/
theorem nodup_residentChunks (h : m.Inv H K P) : m.residentChunks.Nodup := by
  refine (Multiset.nodup_map_iff_inj_on (Multiset.Nodup.of_map _
    (ARCCache.nodup_contents h.arc))).2 fun x hx y hy hxy => ?_
  have hname : ∀ z ∈ m.chunkCache.contents, z.1 = z.2.id H := fun z hz =>
    (h.consistent.chunk z.1 z.2 (h.arc.lookup_eq_some.2 hz)).1
  exact Prod.ext (by rw [hname x hx, hname y hy, hxy]) hxy

/-- The size of the cache is the total size of the resident chunks. -/
theorem Inv.currentSize_eq (h : m.Inv H K P) :
    m.chunkCache.currentSize = (m.residentChunks.map Chunk.size).sum := by
  rw [h.arc.currentSize, ARCCache.weight, h.sizeFn, residentChunks, Multiset.map_map]
  rfl

/-- The invariant with the budget. -/
structure Budget (H : ByteBuffer → Hash128) (K : Set ByteBuffer) (P : Set Put) (maxSize : Nat)
    (m : MemoryCache) : Prop where
  inv : m.Inv H K P
  capacity : m.chunkCache.capacity = maxSize
  size : m.chunkCache.currentSize ≤ maxSize

variable {maxSize : Nat}

/-- A chunk stored under the name of a resident one is that chunk. -/
theorem Inv.eq_of_lookup (h : m.Inv H K P) (hinj : Set.InjOn H K) {c x : Chunk} (hc : c.data ∈ K)
    (hx : m.chunkCache.lookup (c.id H) = some x) : x = c := by
  obtain ⟨hid, hK⟩ := h.consistent.chunk _ x hx
  have hdata : c.data = x.data := hinj hc hK (congrArg ChunkId.hash hid)
  cases c
  cases x
  cases hdata
  rfl

/-- Every step of a call keeps the budget. -/
theorem Budget.step (h : m.Budget H K P maxSize) (hinj : Set.InjOn H K)
    (hK : ∀ b ∈ K, b.length ≤ maxSize) (hstep : Step H K P m m') : m'.Budget H K P maxSize := by
  have harc := h.inv.arc
  refine ⟨h.inv.step hstep, ?_, ?_⟩
  · cases hstep with
    | look | putDescriptor _ | removeDescriptor _ => exact h.capacity
    | getChunk id => exact (ARCCache.get_spec harc id).2.2.2.1.trans h.capacity
    | putChunk _ => exact (ARCCache.put_spec harc _ _).capacity.trans h.capacity
    | removeChunk id => exact (ARCCache.remove_spec harc id).2.2.2.1.trans h.capacity
  · cases hstep with
    | look | putDescriptor _ | removeDescriptor _ => exact h.size
    | getChunk id =>
      obtain ⟨-, hinv, hcont, -, hsize⟩ := ARCCache.get_spec harc id
      simp only [hinv.currentSize, ARCCache.weight, hcont, hsize]
      exact harc.currentSize.symm.trans_le h.size
    | @putChunk c hc =>
      rw [← h.capacity]
      refine ARCCache.currentSize_put_le harc _ _ ?_ ?_ fun x hx => ?_
      · rw [h.inv.sizeFn, h.capacity]
        exact hK _ hc
      · rw [h.capacity]
        exact h.size
      · rw [h.inv.eq_of_lookup hinj hc hx]
    | removeChunk id =>
      obtain ⟨-, hinv, hcont, -, hsize⟩ := ARCCache.remove_spec harc id
      simp only [hinv.currentSize, ARCCache.weight, hcont, hsize]
      exact (ARCCache.weight_filter_le _ id).trans (harc.currentSize.symm.trans_le h.size)

/-- The empty level is within every budget. -/
theorem budget_init (config : MemoryCacheConfig) : (init config).Budget H K P config.maxSize :=
  ⟨inv_init config, rfl, Nat.zero_le _⟩

theorem Budget.safe (hinj : Set.InjOn H K) (hK : ∀ b ∈ K, b.length ≤ maxSize) {call : Call}
    (hP : ∀ p, call = .put p → p ∈ P) (hcall : call.chunks ⊆ K) :
    (call.prog H).Safe (Budget H K P maxSize) fun _ => True :=
  (Call.steps (fun p hp _ => hP p hp) hcall).safe fun _ _ hm hstep => hm.step hinj hK hstep

/-- Two different chunks are not both held, if together they are over the budget. -/
theorem Budget.not_both (h : m.Budget H K P maxSize) {c x : Chunk} (hne : c ≠ x)
    (hover : maxSize < c.size + x.size) (hc : m.chunkCache.lookup (c.id H) = some c) :
    m.chunkCache.lookup (x.id H) ≠ some x := by
  intro hx
  have hsub : ({c, x} : Multiset Chunk) ≤ m.residentChunks := by
    refine (Multiset.le_iff_subset (by simp [hne])).2 fun y hy => ?_
    rw [mem_residentChunks h.inv.arc]
    simp only [Multiset.insert_eq_cons, Multiset.mem_cons, Multiset.mem_singleton] at hy
    rcases hy with rfl | rfl
    · exact ⟨_, hc⟩
    · exact ⟨_, hx⟩
  obtain ⟨rest, hrest⟩ := Multiset.le_iff_exists_add.1 hsub
  have hsize := h.size
  rw [h.inv.currentSize_eq, hrest, Multiset.map_add, Multiset.sum_add] at hsize
  simp only [Multiset.insert_eq_cons, Multiset.map_cons, Multiset.map_singleton, Multiset.sum_cons,
    Multiset.sum_singleton] at hsize
  omega

/-- A value's chunks are at most `CHUNK_SIZE` bytes each. -/
theorem length_le_of_mem_chunks {p : Put} {b : ByteBuffer} (hb : b ∈ p.chunks) :
    b.length ≤ chunkSize := by
  obtain ⟨i, -, rfl⟩ := mem_blocks.1 hb
  rw [length_block]
  exact Nat.min_le_left _ _

/-- In every state a call passes through, after any run: `size_bytes` is the total size of the
resident chunks, each counted once, and is at most `max_size`. Chunks put directly must not be
larger than `CHUNK_SIZE`. -/
theorem sizeBytes_le_maxSize (config : MemoryCacheConfig) (hmax : chunkSize ≤ config.maxSize)
    (calls : List Call) (call : Call) (hinj : Set.InjOn H (runChunks (calls ++ [call])))
    (hchunks : ∀ c, .putChunk (some c) ∈ calls ++ [call] → c.size ≤ chunkSize) :
    ∀ m ∈ (call.prog H).trace (after H config calls),
      m.stats.sizeBytes = (m.residentChunks.map Chunk.size).sum ∧ m.residentChunks.Nodup ∧
        m.stats.sizeBytes ≤ config.maxSize := by
  have hK : ∀ b ∈ runChunks (calls ++ [call]), b.length ≤ config.maxSize := by
    rintro b ⟨op, hop, hb⟩
    refine le_trans ?_ hmax
    cases op with
    | put p => exact length_le_of_mem_chunks hb
    | putChunk chunk =>
      cases chunk with
      | none => cases hb
      | some c =>
        cases hb
        exact hchunks c hop
    | get _ _ _ | remove _ | check _ _ | removeChunk _ => cases hb
  have hsafe : ∀ op ∈ calls ++ [call], (op.prog H).Safe
      (Budget H (runChunks (calls ++ [call])) (runPuts (calls ++ [call])) config.maxSize)
      fun _ => True := by
    refine fun op hop => Budget.safe hinj hK ?_ fun b hb => ⟨op, hop, hb⟩
    rintro p rfl
    exact hop
  have hbefore : (after H config calls).Budget H (runChunks (calls ++ [call]))
      (runPuts (calls ++ [call])) config.maxSize :=
    runOps_inv (budget_init config) fun op hop m hm =>
      (Prog.Safe.run (hsafe op (List.mem_append_left _ hop)) hm).1
  intro m hm
  have hbudget := (hsafe call (by simp)).trace hbefore m hm
  exact ⟨hbudget.inv.currentSize_eq, nodup_residentChunks hbudget.inv, hbudget.size⟩

/-- A put of a value of twice the size of a one-chunk budget, with both chunks equal. -/
theorem sizeBytes_le_maxSize_repeated :
    let value := List.replicate (2 * chunkSize) (0 : UInt8)
    ∃ hv : value.length < 2 ^ 64,
      ∀ m ∈ (Call.prog sampleHash (.put ⟨0, ⟨[1]⟩, ⟨value, hv⟩, {}⟩)).trace
          (after sampleHash { maxSize := chunkSize } []),
        m.stats.sizeBytes = (m.residentChunks.map Chunk.size).sum ∧ m.residentChunks.Nodup ∧
          m.stats.sizeBytes ≤ chunkSize := by
  intro value
  have hv : value.length < 2 ^ 64 := by
    rw [List.length_replicate]
    exact lt_of_le_of_lt (Nat.mul_le_mul_left 2 chunkSize_le) (by decide)
  refine ⟨hv, sizeBytes_le_maxSize { maxSize := chunkSize } le_rfl [] _ ?_ ?_⟩
  · -- both blocks of the value are a chunk of zeros
    have honly : ∀ b ∈ runChunks ([] ++ [Call.put ⟨0, ⟨[1]⟩, ⟨value, hv⟩, {}⟩]),
        b = List.replicate chunkSize 0 := by
      rintro b ⟨op, hop, hb⟩
      rw [List.nil_append, List.mem_singleton] at hop
      subst hop
      obtain ⟨i, hi, rfl⟩ := mem_blocks.1 hb
      rw [lt_blockCount chunkSize_pos, List.length_replicate] at hi
      have hle : (i + 1) * chunkSize ≤ 2 * chunkSize :=
        Nat.mul_le_mul_right _ (Nat.lt_of_mul_lt_mul_right hi)
      rw [block, slice_replicate, Nat.min_eq_left hle, Nat.succ_mul, Nat.add_sub_cancel_left]
    exact fun a ha b hb _ => (honly a ha).trans (honly b hb).symm
  · simp

end MemoryCache

end ElCache
