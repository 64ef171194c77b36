import ElCache.Arc.Spec
import ElCache.Availability
import ElCache.Level

/-!
# The memory level

`memory_cache.cpp`: chunks live in an ARC cache, descriptors in a map under a lock. Each operation
is a program whose atomic steps are one ARC operation on a chunk or one locked access to the
descriptor map. Statistics counters are left out; nothing reads them back.
-/

namespace ElCache

open Slice

/-- `MemoryCache`. Every chunk in the ARC cache is non-null, as `putChunk` rejects a null one. The
size of a chunk is that of its buffer. The chunks of the cache and the one being put are in memory
at the same time, so no sum of their sizes wraps and the cache is the exact one
(`ARCCache.exact_exec`). -/
structure MemoryCache where
  chunkCache : ARCCache ChunkId Chunk ℕ
  descriptors : CacheKey → Option ValueDescriptor

namespace MemoryCache

/-- `MemoryCache::MemoryCache`. -/
def init (config : MemoryCacheConfig) : MemoryCache where
  chunkCache := { capacity := config.maxSize, sizeFn := Chunk.size }
  descriptors := fun _ => none

/-- `MemoryCache::get_chunk`. -/
def getChunk (id : ChunkId) : Prog MemoryCache (Option Chunk) :=
  .atomic fun m => ((m.chunkCache.get id).1, { m with chunkCache := (m.chunkCache.get id).2 })

/-- `MemoryCache::put_chunk`. -/
def putChunk (H : ByteBuffer → Hash128) : Option Chunk → Prog MemoryCache Status
  | none => pure (.error .invalidArgument "Null chunk")
  | some chunk => .atomic fun m =>
    (.makeOk, { m with chunkCache := (m.chunkCache.put (chunk.id H) chunk).2 })

/-- `MemoryCache::remove_chunk`. -/
def removeChunk (id : ChunkId) : Prog MemoryCache Status :=
  .atomic fun m => (.makeOk, { m with chunkCache := (m.chunkCache.remove id).2 })

/-- `MemoryCache::has_chunk`. -/
def hasChunk (id : ChunkId) : Prog MemoryCache Bool :=
  .atomic fun m => (m.chunkCache.contains id, m)

/-- `MemoryCache::get_descriptor`. -/
def getDescriptor (key : CacheKey) : Prog MemoryCache (Option ValueDescriptor) :=
  .atomic fun m => (m.descriptors key, m)

/-- `MemoryCache::put_descriptor`. -/
def putDescriptor (desc : ValueDescriptor) : Prog MemoryCache Status :=
  .atomic fun m =>
    (.makeOk, { m with descriptors := Function.update m.descriptors desc.key (some desc) })

/-- `MemoryCache::remove_descriptor`. -/
def removeDescriptor (key : CacheKey) : Prog MemoryCache Status :=
  .atomic fun m => (.makeOk, { m with descriptors := Function.update m.descriptors key none })

/-- The loop of `MemoryCache::assemble_value` from chunk position `i` on. A missing chunk is skipped
by a whole `CHUNK_SIZE`, whatever the offset inside it. -/
def assembleLoop (startChunk : Nat) : List (Option Chunk) → Nat → Nat → Nat → ByteBuffer
  | [], _, _, _ => []
  | chunk :: rest, i, current, remaining =>
    if remaining = 0 then []
    else
      match chunk with
      | none =>
        let skip := min remaining chunkSize
        assembleLoop startChunk rest (i + 1) (current + skip) (remaining - skip)
      | some c =>
        let globalOffset := (startChunk + i) * chunkSize
        let offsetInChunk := if globalOffset < current then current - globalOffset else 0
        let available := sub64 c.size offsetInChunk
        let toCopy := min remaining available
        c.read offsetInChunk toCopy ++
          assembleLoop startChunk rest (i + 1) (current + toCopy) (remaining - toCopy)

/-- `MemoryCache::assemble_value`. -/
def assembleValue (chunks : List (Option Chunk)) (range : Range) : ByteBuffer :=
  assembleLoop (range.offset / chunkSize) chunks 0 range.offset range.length

/-- `MemoryCache::get` at the clock reading `now`. -/
def get (now : Timestamp) (key : CacheKey) (opts : ReadOptions) : Prog MemoryCache ReadResult :=
  readValue getDescriptor getChunk assembleValue now key opts

/-- `MemoryCache::put`. -/
def put (H : ByteBuffer → Hash128) (p : Put) : Prog MemoryCache Status :=
  if maxKeySize < p.key.size then
    pure (.error .keyTooLarge "Key exceeds maximum size")
  else if maxValueSize < p.value.size then
    pure (.error .valueTooLarge "Value exceeds maximum size")
  else do
    let status ← storeChunks (fun _ chunk => putChunk H (some chunk)) 0 (splitValue p.value.bytes)
    if status.isOk then putDescriptor (p.descriptor H) else pure status

/-- The loop of `MemoryCache::remove` over the chunks of a value. -/
def removeChunks : List ChunkId → Prog MemoryCache Unit
  | [] => pure ()
  | id :: rest => do
    let _ ← removeChunk id
    removeChunks rest

/-- `MemoryCache::remove`. -/
def remove (key : CacheKey) : Prog MemoryCache Status := do
  let found ← getDescriptor key
  match found with
  | none => pure (.error .notFound "Key not found")
  | some desc => do
    removeChunks desc.chunks
    let _ ← removeDescriptor key
    pure .makeOk

/-- `MemoryCache::check`. -/
def check (key : CacheKey) (range : Option Range) : Prog MemoryCache AvailabilityResult :=
  checkValue getDescriptor hasChunk key range

/-- `MemoryCache::metadata`. -/
def metadata (key : CacheKey) : Prog MemoryCache (Option CacheMetadata) := do
  let found ← getDescriptor key
  pure (found.map ValueDescriptor.metadata)

/-- The sizes in `MemoryCache::stats`. -/
structure Stats where
  sizeBytes : Nat
  capacityBytes : Nat

/-- `MemoryCache::stats`. -/
def stats (m : MemoryCache) : Stats := ⟨m.chunkCache.currentSize, m.chunkCache.capacity⟩

/-! ## Calls -/

/-- A call of the memory level. -/
inductive Call where
  | put (p : Put)
  | get (now : Timestamp) (key : CacheKey) (opts : ReadOptions)
  | remove (key : CacheKey)
  | check (key : CacheKey) (range : Option Range)
  | putChunk (chunk : Option Chunk)
  | removeChunk (id : ChunkId)

/-- What a call returns. -/
inductive Reply where
  | status (status : Status)
  | read (result : ReadResult)
  | availability (result : AvailabilityResult)

/-- The program of a call. -/
def Call.prog (H : ByteBuffer → Hash128) : Call → Prog MemoryCache Reply
  | .put p => do pure (.status (← MemoryCache.put H p))
  | .get now key opts => do pure (.read (← MemoryCache.get now key opts))
  | .remove key => do pure (.status (← MemoryCache.remove key))
  | .check key range => do pure (.availability (← MemoryCache.check key range))
  | .putChunk chunk => do pure (.status (← MemoryCache.putChunk H chunk))
  | .removeChunk id => do pure (.status (← MemoryCache.removeChunk id))

/-- The chunk contents a call brings in. -/
def Call.chunks : Call → Set ByteBuffer
  | .put p => p.chunks
  | .putChunk (some chunk) => {chunk.data}
  | _ => ∅

/-- One call executed alone. -/
def exec (H : ByteBuffer → Hash128) (call : Call) (m : MemoryCache) : MemoryCache :=
  ((call.prog H).run m).2

/-- The state after a sequence of calls. -/
def after (H : ByteBuffer → Hash128) (config : MemoryCacheConfig) (calls : List Call) :
    MemoryCache :=
  runOps (exec H) calls (init config)

/-- The chunk contents of a run. -/
def runChunks (calls : List Call) : Set ByteBuffer := { b | ∃ call ∈ calls, b ∈ call.chunks }

end MemoryCache

end ElCache
