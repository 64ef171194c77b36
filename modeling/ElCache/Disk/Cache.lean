import ElCache.Availability
import ElCache.Level
import ElCache.Lib.Digits
import Mathlib.Data.Rat.Floor

/-!
# The disk level

`disk_cache.cpp`: each chunk is a file named by its id, and an index in memory records the paths, an
access order for eviction and the total size. A chunk is read from its file, never through the
index. Files and index are updated in separate steps.

What the operating system does is a parameter of each call: the clock readings and how each write
ends (`WriteEnv`). Descriptor files are left out, as nothing reads their contents back; the outcome
of writing one is kept, since `putDescriptor` depends on it.
-/

namespace ElCache

open Slice Digits

/-! ## Paths -/

/-- A lower-case hexadecimal digit. -/
def hexChar (d : Nat) : Char := if d < 10 then Char.ofNat (48 + d) else Char.ofNat (87 + d)

/-- A 64-bit number as 16 hexadecimal digits, padded with zeros. -/
def hexWord (n : UInt64) : List Char := (digits 16 16 n.toNat).reverse.map hexChar

/-- `Hash128::to_hex`. -/
def Hash128.toHex (h : Hash128) : List Char := hexWord h.high ++ hexWord h.low

/-- A file path, by its components. -/
abbrev FilePath := List (List Char)

/-- `DiskCache::chunk_path`. -/
def chunkPath (config : DiskCacheConfig) (id : ChunkId) : FilePath :=
  let hex := id.hash.toHex
  config.path.map String.toList ++ ["chunks".toList, hex.take 2, hex ++ ".chunk".toList]

/-! ## The file store -/

/-- How a `write_file` ends: with all bytes written; without opening the file; with an error after
some bytes; or with fewer bytes because `pwrite` returned 0, which is not reported. `allocated`
says whether the file had been extended to its full size beforehand. -/
inductive WriteOutcome where
  | done
  | openFailed (reason : String)
  | failedAt (written : Nat) (allocated : Bool) (reason : String)
  | stoppedAt (written : Nat) (allocated : Bool)

namespace WriteOutcome

/-- What an interrupted write leaves in the file. -/
def torn (data : ByteBuffer) (written : Nat) (allocated : Bool) : ByteBuffer :=
  data.take written ++
    if allocated then List.replicate (data.length - written) 0 else []

/-- The status `DiskStore::write_file` returns. -/
def status : WriteOutcome → Status
  | done => .makeOk
  | openFailed reason => .error .diskError ("Failed to open file for writing: " ++ reason)
  | failedAt _ _ reason => .error .diskError ("Write failed: " ++ reason)
  | stoppedAt _ _ => .makeOk

/-- The file after the write, from the file before. -/
def file (data : ByteBuffer) (before : Option ByteBuffer) : WriteOutcome → Option ByteBuffer
  | done => some data
  | openFailed _ => before
  | failedAt written allocated _ => some (torn data written allocated)
  | stoppedAt written allocated => some (torn data written allocated)

end WriteOutcome

/-- The chunk a file holds: an unreadable or empty file is no chunk. -/
def fileChunk (file : Option ByteBuffer) : Option Chunk :=
  let data := file.getD []
  if data.isEmpty then none else some ⟨data⟩

/-- A reading of the steady clock. -/
abbrev TimePoint := Int

/-- What a call of `put` meets: the steady clock at each chunk, and how each write ends. -/
structure WriteEnv where
  tick : Nat → TimePoint
  write : Nat → WriteOutcome := fun _ => .done
  writeDescriptor : WriteOutcome := .done

/-- No write of the call fails or stops short. -/
def WriteEnv.Clean (env : WriteEnv) : Prop :=
  (∀ i, env.write i = .done) ∧ env.writeDescriptor = .done

/-- `DiskCache::AccessEntry`. -/
structure AccessEntry where
  id : ChunkId
  lastAccess : TimePoint
  size : Nat
  deriving DecidableEq

/-- Insertion into `access_order_`, a set ordered by access time: an entry with the time of one
already present is not inserted. -/
def insertAccess (e : AccessEntry) : List AccessEntry → List AccessEntry
  | [] => [e]
  | x :: xs =>
    if e.lastAccess < x.lastAccess then e :: x :: xs
    else if x.lastAccess < e.lastAccess then x :: insertAccess e xs
    else x :: xs

/-! ## The cache -/

/-- `DiskCache`, with the files it owns. -/
structure DiskCache where
  config : DiskCacheConfig
  files : FilePath → Option ByteBuffer := fun _ => none
  descriptors : CacheKey → Option ValueDescriptor := fun _ => none
  chunkPaths : ChunkId → Option FilePath := fun _ => none
  accessOrder : List AccessEntry := []
  currentSize : Nat := 0

namespace DiskCache

/-- `DiskStore::delete_file`. -/
def deleteFile (path : FilePath) : Prog DiskCache Status :=
  .atomic fun d =>
    (if (d.files path).isSome then .makeOk else .error .diskError "Failed to delete file",
      { d with files := Function.update d.files path none })

/-- `DiskCache::get_chunk`. -/
def getChunk (id : ChunkId) : Prog DiskCache (Option Chunk) :=
  .atomic fun d => (fileChunk (d.files (chunkPath d.config id)), d)

/-- The index update of `put_chunk`. -/
def indexChunk (id : ChunkId) (now : TimePoint) (size : Nat) (d : DiskCache) : DiskCache :=
  { d with
    chunkPaths := Function.update d.chunkPaths id (some (chunkPath d.config id))
    currentSize := d.currentSize + size
    accessOrder := insertAccess ⟨id, now, size⟩ d.accessOrder }

/-- `DiskCache::put_chunk`: the file first, the index after a write that reports success. -/
def putChunk (H : ByteBuffer → Hash128) (now : TimePoint) (outcome : WriteOutcome) :
    Option Chunk → Prog DiskCache Status
  | none => pure (.error .invalidArgument)
  | some chunk => do
    let id := chunk.id H
    let status ← Prog.atomic fun d =>
      let path := chunkPath d.config id
      (outcome.status,
        { d with files := Function.update d.files path (outcome.file chunk.data (d.files path)) })
    if status.isOk then do
      Prog.atomic fun d => ((), indexChunk id now chunk.size d)
      pure status
    else pure status

/-- The index update of `remove_chunk`: the oldest access entry of the chunk goes. -/
def unindexChunk (id : ChunkId) (d : DiskCache) : DiskCache :=
  match d.chunkPaths id with
  | none => d
  | some _ =>
    let entry := d.accessOrder.find? fun e => e.id = id
    { d with
      currentSize := d.currentSize - (entry.map AccessEntry.size).getD 0
      accessOrder := d.accessOrder.eraseP fun e => e.id = id
      chunkPaths := Function.update d.chunkPaths id none }

/-- `DiskCache::remove_chunk`. -/
def removeChunk (id : ChunkId) : Prog DiskCache Status := do
  let path ← Prog.atomic fun d => (chunkPath d.config id, unindexChunk id d)
  deleteFile path

/-- `DiskCache::has_chunk`. -/
def hasChunk (id : ChunkId) : Prog DiskCache Bool := .atomic fun d => ((d.chunkPaths id).isSome, d)

/-- `DiskCache::get_descriptor`. -/
def getDescriptor (key : CacheKey) : Prog DiskCache (Option ValueDescriptor) :=
  .atomic fun d => (d.descriptors key, d)

/-- `DiskCache::put_descriptor`. -/
def putDescriptor (outcome : WriteOutcome) (desc : ValueDescriptor) : Prog DiskCache Status :=
  if outcome.status.isOk then
    .atomic fun d => (outcome.status,
      { d with descriptors := Function.update d.descriptors desc.key (some desc) })
  else pure outcome.status

/-- `DiskCache::remove_descriptor`. -/
def removeDescriptor (key : CacheKey) : Prog DiskCache Unit :=
  .atomic fun d => ((), { d with descriptors := Function.update d.descriptors key none })

/-- The size `evict` brings the cache down to. -/
def evictTarget (config : DiskCacheConfig) : Nat :=
  ⌊(config.maxSize : ℚ) * config.lowWatermark⌋.toNat

/-- The locked part of a round of `evict`: the oldest access entry and its path, if the round goes
ahead. -/
def popOldest (bytesNeeded evicted : Nat) (d : DiskCache) :
    Option (AccessEntry × FilePath) × DiskCache :=
  if evictTarget d.config < d.currentSize ∨ evicted < bytesNeeded then
    match d.accessOrder with
    | [] => (none, d)
    | e :: rest =>
      (some (e, chunkPath d.config e.id),
        { d with
          accessOrder := rest
          chunkPaths := Function.update d.chunkPaths e.id none
          currentSize := d.currentSize - e.size })
  else (none, d)

/-- The loop of `evict`, which drops the oldest access entry in each round, so the number of entries
is enough fuel. The result is the number of bytes evicted. -/
def evictLoop (bytesNeeded : Nat) : Nat → Nat → Prog DiskCache Nat
  | 0, evicted => pure evicted
  | fuel + 1, evicted => do
    let oldest ← Prog.atomic (popOldest bytesNeeded evicted)
    match oldest with
    | none => pure evicted
    | some (e, path) => do
      let _ ← deleteFile path
      evictLoop bytesNeeded fuel (evicted + e.size)

/-- `DiskCache::evict`. -/
def evict (bytesNeeded : Nat) : Prog DiskCache Nat := do
  let entries ← Prog.atomic fun d => (d.accessOrder.length, d)
  evictLoop bytesNeeded entries 0

/-- The assembly loop of `DiskCache::get` from chunk position `i` on. A missing chunk is passed over
without moving `current`. -/
def assembleLoop (startChunk : Nat) : List (Option Chunk) → Nat → Nat → Nat → ByteBuffer
  | [], _, _, _ => []
  | chunk :: rest, i, current, remaining =>
    if remaining = 0 then []
    else
      match chunk with
      | none => assembleLoop startChunk rest (i + 1) current remaining
      | some c =>
        let chunkStart := (startChunk + i) * chunkSize
        let offsetInChunk := if chunkStart < current then current - chunkStart else 0
        let toCopy := min remaining (sub64 c.size offsetInChunk)
        c.read offsetInChunk toCopy ++
          assembleLoop startChunk rest (i + 1) (current + toCopy) (remaining - toCopy)

/-- The assembly of `DiskCache::get`. -/
def assembleValue (chunks : List (Option Chunk)) (range : Range) : ByteBuffer :=
  assembleLoop (range.offset / chunkSize) chunks 0 range.offset range.length

/-- `DiskCache::get` at the clock reading `now`. -/
def get (now : Timestamp) (key : CacheKey) (opts : ReadOptions) : Prog DiskCache ReadResult :=
  readValue getDescriptor getChunk assembleValue now key opts

/-- The space check of `put`. -/
def makeRoom (needed : Nat) : Prog DiskCache Unit := do
  let full ← Prog.atomic fun d =>
    (decide ((d.config.maxSize : ℚ) * d.config.highWatermark <
      ((d.currentSize + needed : Nat) : ℚ)), d)
  if full then do
    let _ ← evict needed
    pure ()
  else pure ()

/-- `DiskCache::put`. Unlike the memory level it does not bound the value's size. -/
def put (H : ByteBuffer → Hash128) (env : WriteEnv) (p : Put) : Prog DiskCache Status :=
  if maxKeySize < p.key.size then pure (.error .keyTooLarge)
  else do
    makeRoom p.value.size
    let status ← storeChunks (fun i chunk => putChunk H (env.tick i) (env.write i) (some chunk)) 0
      (splitValue p.value.bytes)
    if status.isOk then putDescriptor env.writeDescriptor (p.descriptor H) else pure status

/-- The loop of `DiskCache::remove` over the chunks of a value. -/
def removeChunks : List ChunkId → Prog DiskCache Unit
  | [] => pure ()
  | id :: rest => do
    let _ ← removeChunk id
    removeChunks rest

/-- `DiskCache::remove`. -/
def remove (key : CacheKey) : Prog DiskCache Status := do
  let found ← getDescriptor key
  match found with
  | none => pure (.error .notFound)
  | some desc => do
    removeChunks desc.chunks
    removeDescriptor key
    pure .makeOk

/-- `DiskCache::check`. -/
def check (key : CacheKey) (range : Option Range) : Prog DiskCache AvailabilityResult :=
  checkValue getDescriptor hasChunk key range

/-- `DiskCache::metadata`. -/
def metadata (key : CacheKey) : Prog DiskCache (Option CacheMetadata) := do
  let found ← getDescriptor key
  pure (found.map ValueDescriptor.metadata)

/-! ## Calls -/

/-- A call of the disk level. -/
inductive Call where
  | put (env : WriteEnv) (p : Put)
  | get (now : Timestamp) (key : CacheKey) (opts : ReadOptions)
  | remove (key : CacheKey)
  | putChunk (now : TimePoint) (outcome : WriteOutcome) (chunk : Option Chunk)
  | removeChunk (id : ChunkId)
  | evict (bytesNeeded : Nat)

/-- One call executed alone. -/
def exec (H : ByteBuffer → Hash128) (call : Call) (d : DiskCache) : DiskCache :=
  match call with
  | .put env p => ((put H env p).run d).2
  | .get now key opts => ((get now key opts).run d).2
  | .remove key => ((remove key).run d).2
  | .putChunk now outcome chunk => ((putChunk H now outcome chunk).run d).2
  | .removeChunk id => ((removeChunk id).run d).2
  | .evict bytesNeeded => ((evict bytesNeeded).run d).2

/-- The chunk contents a call brings in. -/
def Call.chunks : Call → Set ByteBuffer
  | .put _ p => p.chunks
  | .putChunk _ _ (some chunk) => {chunk.data}
  | _ => ∅

/-- No write of the call fails or stops short. -/
def Call.Clean : Call → Prop
  | .put env _ => env.Clean
  | .putChunk _ outcome _ => outcome = .done
  | _ => True

/-- The state after a sequence of calls on an empty store. -/
def after (H : ByteBuffer → Hash128) (config : DiskCacheConfig) (calls : List Call) : DiskCache :=
  runOps (exec H) calls { config := config }

/-- The chunk contents of a run. -/
def runChunks (calls : List Call) : Set ByteBuffer := { b | ∃ call ∈ calls, b ∈ call.chunks }

/-- The puts of a run. -/
def runPuts (calls : List Call) : Set Put := { p | ∃ env, Call.put env p ∈ calls }

end DiskCache

end ElCache
