import ElCache.Disk.Cache

/-!
# The steps of the disk level

What one atomic step of a call can do to the disk level, whichever writes fail. Every call makes
only such steps (`steps_put` and the like), so an invariant needs to be checked for them once.
-/

namespace ElCache

namespace DiskCache

/-- What one atomic step of a call can do, when the descriptors it puts are for keys in `P`: change
the index, write the file of a chunk in any way, delete a file, or put or remove a descriptor. -/
inductive Step (P : Set CacheKey) : DiskCache → DiskCache → Prop
  | index (d) (chunkPaths : ChunkId → Option FilePath) (accessOrder : List AccessEntry)
      (currentSize : Nat) : Step P d { d with
        chunkPaths := chunkPaths
        accessOrder := accessOrder
        currentSize := currentSize }
  | writeFile (d) (id : ChunkId) (file : Option ByteBuffer) :
      Step P d { d with files := Function.update d.files (chunkPath d.config id) file }
  | deleteFile (d) (path : FilePath) :
      Step P d { d with files := Function.update d.files path none }
  | putDescriptor (d) (desc : ValueDescriptor) (h : desc.key ∈ P) :
      Step P d { d with descriptors := Function.update d.descriptors desc.key (some desc) }
  | removeDescriptor (d) (key : CacheKey) :
      Step P d { d with descriptors := Function.update d.descriptors key none }

variable {H : ByteBuffer → Hash128} {P : Set CacheKey}

/-- A step that only looks. -/
theorem Step.look (d : DiskCache) : Step P d d := .index d d.chunkPaths d.accessOrder d.currentSize

theorem steps_getDescriptor (key : CacheKey) : (getDescriptor key).Guarantees (Step P) :=
  Prog.guarantees_atomic fun d => .look d

theorem steps_getChunk (id : ChunkId) : (getChunk id).Guarantees (Step P) :=
  Prog.guarantees_atomic fun d => .look d

theorem steps_hasChunk (id : ChunkId) : (hasChunk id).Guarantees (Step P) :=
  Prog.guarantees_atomic fun d => .look d

theorem steps_deleteFile (path : FilePath) : (DiskCache.deleteFile path).Guarantees (Step P) :=
  Prog.guarantees_atomic fun d => .deleteFile d path

theorem steps_putChunk (now : TimePoint) (outcome : WriteOutcome) (chunk : Option Chunk) :
    (putChunk H now outcome chunk).Guarantees (Step P) := by
  cases chunk with
  | none => exact Prog.guarantees_pure _
  | some c =>
    refine Prog.Guarantees.bind (Prog.guarantees_atomic fun d => .writeFile d (c.id H) _) ?_
    intro status
    split
    · exact Prog.Guarantees.bind (Prog.guarantees_atomic fun d => .index d _ _ _) fun _ =>
        Prog.guarantees_pure _
    · exact Prog.guarantees_pure _

theorem steps_removeChunk (id : ChunkId) : (removeChunk id).Guarantees (Step P) := by
  refine Prog.Guarantees.bind (Prog.guarantees_atomic fun d => ?_) steps_deleteFile
  rw [unindexChunk]
  split
  · exact .look d
  · exact .index d _ _ _

/-- Eviction is made of steps of the level. -/
theorem steps_evict (bytesNeeded : Nat) : (evict bytesNeeded).Guarantees (Step P) := by
  have hloop : ∀ fuel evicted, (evictLoop bytesNeeded fuel evicted).Guarantees (Step P) := by
    intro fuel
    induction fuel with
    | zero => exact fun _ => Prog.guarantees_pure _
    | succ fuel ih =>
      intro evicted
      refine Prog.Guarantees.bind (Prog.guarantees_atomic fun d => ?_) fun oldest => ?_
      · rw [popOldest]
        split
        · split
          · exact .look d
          · exact .index d _ _ _
        · exact .look d
      · cases oldest with
        | none => exact Prog.guarantees_pure _
        | some x => exact Prog.Guarantees.bind (steps_deleteFile _) fun _ => ih _
  exact Prog.Guarantees.bind (Prog.guarantees_atomic fun d => .look d) fun _ => hloop _ _

/-- The put of a key, whichever of its writes fail. -/
theorem steps_put {p : Put} (hp : p.key ∈ P) (env : WriteEnv) :
    (put H env p).Guarantees (Step P) := by
  have hstore : ∀ (chunks : List Chunk) (i : Nat),
      (storeChunks (fun i chunk => putChunk H (env.tick i) (env.write i) (some chunk)) i
        chunks).Guarantees (Step P) := by
    intro chunks
    induction chunks with
    | nil => exact fun _ => Prog.guarantees_pure _
    | cons chunk rest ih =>
      intro i
      refine Prog.Guarantees.bind (steps_putChunk _ _ _) fun status => ?_
      split
      · exact ih (i + 1)
      · exact Prog.guarantees_pure _
  have hroom : (makeRoom p.value.size).Guarantees (Step P) := by
    refine Prog.Guarantees.bind (Prog.guarantees_atomic fun d => .look d) fun full => ?_
    split
    · exact Prog.Guarantees.bind (steps_evict _) fun _ => Prog.guarantees_pure _
    · exact Prog.guarantees_pure _
  rw [put]
  split
  · exact Prog.guarantees_pure _
  · refine Prog.Guarantees.bind hroom fun _ => Prog.Guarantees.bind (hstore _ 0) fun status => ?_
    split
    · rw [DiskCache.putDescriptor]
      split
      · exact Prog.guarantees_atomic fun d => .putDescriptor d (p.descriptor H) hp
      · exact Prog.guarantees_pure _
    · exact Prog.guarantees_pure _

/-- A read is made of steps of the level. -/
theorem steps_get (now : Timestamp) (key : CacheKey) (opts : ReadOptions) :
    (get now key opts).Guarantees (Step P) := by
  have hfetch : ∀ (desc : ValueDescriptor) (idxs : List Nat),
      (fetchChunks getChunk desc opts.allowPartial idxs).Guarantees (Step P) := by
    intro desc idxs
    induction idxs with
    | nil => exact Prog.guarantees_pure _
    | cons idx rest ih =>
      rw [fetchChunks]
      split
      · exact Prog.guarantees_pure _
      · refine Prog.Guarantees.bind (steps_getChunk _) fun found => ?_
        split
        · exact Prog.guarantees_pure _
        · exact Prog.Guarantees.bind ih fun _ => Prog.guarantees_pure _
  refine Prog.Guarantees.bind (steps_getDescriptor key) fun found => ?_
  cases found with
  | none => exact Prog.guarantees_pure _
  | some desc =>
    simp only [readFound]
    split
    · exact Prog.guarantees_pure _
    · split
      · exact Prog.guarantees_pure _
      · exact Prog.Guarantees.bind (hfetch desc _) fun _ => Prog.guarantees_pure _

theorem steps_remove (key : CacheKey) : (remove key).Guarantees (Step P) := by
  have hchunks : ∀ ids : List ChunkId, (removeChunks ids).Guarantees (Step P) := by
    intro ids
    induction ids with
    | nil => exact Prog.guarantees_pure _
    | cons id rest ih => exact Prog.Guarantees.bind (steps_removeChunk id) fun _ => ih
  refine Prog.Guarantees.bind (steps_getDescriptor key) fun found => ?_
  cases found with
  | none => exact Prog.guarantees_pure _
  | some desc =>
    refine Prog.Guarantees.bind (hchunks _) fun _ => ?_
    exact Prog.Guarantees.bind (Prog.guarantees_atomic fun d => .removeDescriptor d key) fun _ =>
      Prog.guarantees_pure _

/-- So is a check. -/
theorem steps_check (key : CacheKey) (range : Option Range) :
    (check key range).Guarantees (Step P) := by
  have hmark : ∀ (desc : ValueDescriptor) (idxs : List Nat) (v : PartialValue),
      (markChunks hasChunk desc idxs v).Guarantees (Step P) := by
    intro desc idxs
    induction idxs with
    | nil => exact fun _ => Prog.guarantees_pure _
    | cons idx rest ih =>
      intro v
      rw [markChunks]
      split
      · exact ih v
      · exact Prog.Guarantees.bind (steps_hasChunk _) fun _ => ih _
  refine Prog.Guarantees.bind (steps_getDescriptor key) fun found => ?_
  cases found with
  | none => exact Prog.guarantees_pure _
  | some desc => exact Prog.Guarantees.bind (hmark desc _ _) fun _ => Prog.guarantees_pure _

theorem steps_metadata (key : CacheKey) : (metadata key).Guarantees (Step P) :=
  Prog.Guarantees.bind (steps_getDescriptor key) fun _ => Prog.guarantees_pure _

end DiskCache

end ElCache
