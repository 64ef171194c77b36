import ElCache.Disk.Files
import ElCache.Disk.Index
import ElCache.Lib.FileSystem
import ElCache.Lib.Part

/-!
# The disk level, one system call at a time

`Disk.Cache` writes and reads a file in one step. Worker threads do not: `write_file` truncates the
file, extends it and writes it piece by piece, `read_file` opens it, asks for its size and reads it
piece by piece, and other threads run in between. Here every system call and every locked section of
`disk_cache.cpp` is a step, over a file system in which a file that has been removed can still be
open.

Run alone, the programs of this file are those of `Disk.Files` (`implements_put`,
`implements_get`).
-/

namespace ElCache

open Slice

/-- `DiskCache` and the files of its host. `stored` records the descriptors stored so far; no
program looks at it. -/
structure DiskHost where
  fs : FileSystem FilePath UInt8 := {}
  descriptors : CacheKey → Option ValueDescriptor := fun _ => none
  chunkPaths : ChunkId → Option FilePath := fun _ => none
  accessOrder : List AccessEntry := []
  currentSize : Nat := 0
  stored : List ValueDescriptor := []

/-- `DiskCache::descriptor_path`. -/
def descriptorPath (keyHash : CacheKey → Hash128) (config : DiskCacheConfig) (key : CacheKey) :
    FilePath :=
  config.path.map String.toList ++ ["descriptors".toList,
    (keyHash key).toHex ++ ".desc".toList]

namespace DiskHost

/-- The path of a chunk file, as opposed to that of a descriptor file. -/
def isChunkPath (config : DiskCacheConfig) (path : FilePath) : Bool :=
  (path.drop config.path.length).head? == some "chunks".toList

/-- What `Disk.Cache` knows of the level. Descriptor files are left out. -/
def cache (config : DiskCacheConfig) (h : DiskHost) : DiskCache where
  config := config
  files path := if isChunkPath config path then h.fs.content path else none
  descriptors := h.descriptors
  chunkPaths := h.chunkPaths
  accessOrder := h.accessOrder
  currentSize := h.currentSize

/-! ## System calls -/

/-- A system call. -/
def onFiles {α : Type} (f : FileSystem FilePath UInt8 → α × FileSystem FilePath UInt8) :
    Prog DiskHost α :=
  .atomic fun h => ((f h.fs).1, { h with fs := (f h.fs).2 })

/-- The loop of `write_file`, from its call `i` on, into the open file `n`. -/
def writeLoop (path : FilePath) (n : Nat) (data : ByteBuffer) (pwrite : Nat → Except String Nat)
    (i totalWritten : Nat) : Prog DiskHost Status :=
  if totalWritten < data.length then
    match pwrite i with
    | .error reason => pure (.error .diskError ("Write failed: " ++ reason))
    | .ok 0 => pure .makeOk
    | .ok (k + 1) =>
      let written := totalWritten + min (k + 1) (data.length - totalWritten)
      onFiles (fun fs => ((), fs.setData path n
        (pwriteAt (fs.data path n) totalWritten (slice data totalWritten written)))) >>=
        fun _ => writeLoop path n data pwrite (i + 1) written
  else pure .makeOk
termination_by data.length - totalWritten

/-- `fallocate`: a file that is shorter is filled up with zeros. -/
def extend (file : ByteBuffer) (size : Nat) : ByteBuffer :=
  file ++ List.replicate (size - file.length) 0

/-- `DiskStore::write_file`. -/
def writeFile (os : WriteOs) (path : FilePath) (data : ByteBuffer) : Prog DiskHost Status :=
  match os.openError with
  | some reason => pure (.error .diskError ("Failed to open file for writing: " ++ reason))
  | none => do
    let n ← onFiles (FileSystem.openTrunc path)
    onFiles fun fs => ((), bif os.allocates then
      fs.setData path n (extend (fs.data path n) data.length) else fs)
    writeLoop path n data os.pwrite 0 0

/-- The loop of `read_file`, from its call `i` on, from the open file `n`. -/
def readLoop (path : FilePath) (n offset length : Nat) (pread : Nat → Nat) (i totalRead : Nat) :
    Prog DiskHost ByteBuffer :=
  if totalRead < length then
    onFiles (fun fs => (slice (fs.data path n) (offset + totalRead)
      (offset + totalRead + min (pread i) (length - totalRead)), fs)) >>= fun
      | [] => pure []
      | b :: got => do
        let rest ← readLoop path n offset length pread (i + 1) (totalRead + (got.length + 1))
        pure (b :: got ++ rest)
  else pure []
termination_by length - totalRead

/-- `DiskStore::read_file`. -/
def readFile (os : ReadOs) (path : FilePath) (offset length : Nat) : Prog DiskHost ByteBuffer := do
  let opened ← onFiles fun fs => (fs.current path, fs)
  match opened with
  | none => pure []
  | some n =>
    if os.opens then
      if length = 0 then do
        let size ← onFiles fun fs => ((fs.data path n).length, fs)
        readLoop path n offset (if os.stats then restLength size offset else 0) os.pread 0 0
      else readLoop path n offset length os.pread 0 0
    else pure []

/-- `DiskStore::delete_file`. -/
def deleteFile (path : FilePath) : Prog DiskHost Status := do
  let found ← onFiles (FileSystem.unlink path)
  pure (if found then .makeOk else .error .diskError "Failed to delete file")

/-! ## The level -/

section
variable (config : DiskCacheConfig)

/-- A section of the level in which it holds its lock or reads one of its counters. The files are
not touched. -/
def onIndex {α : Type} (f : DiskCache → α × DiskCache) : Prog DiskHost α :=
  .atomic fun h => ((f (h.cache config)).1,
    { h with
      descriptors := (f (h.cache config)).2.descriptors
      chunkPaths := (f (h.cache config)).2.chunkPaths
      accessOrder := (f (h.cache config)).2.accessOrder
      currentSize := (f (h.cache config)).2.currentSize })

/-- `DiskCache::get_chunk`. The lock it takes afterwards protects nothing. -/
def getChunk (os : ReadOs) (id : ChunkId) : Prog DiskHost (Option Chunk) := do
  let data ← readFile os (chunkPath config id) 0 0
  pure (if data.isEmpty then none else some ⟨data⟩)

/-- `DiskCache::put_chunk`. -/
def putChunk (H : ByteBuffer → Hash128) (now : TimePoint) (os : WriteOs) (chunk : Chunk) :
    Prog DiskHost Status := do
  let status ← writeFile os (chunkPath config (chunk.id H)) chunk.data
  if status.isOk then do
    onIndex config fun d => ((), d.indexChunk (chunk.id H) now chunk.size)
    pure status
  else pure status

/-- `DiskCache::remove_chunk`. -/
def removeChunk (id : ChunkId) : Prog DiskHost Status := do
  onIndex config fun d => ((), d.unindexChunk id)
  deleteFile (chunkPath config id)

/-- `DiskCache::get_descriptor`. -/
def getDescriptor (key : CacheKey) : Prog DiskHost (Option ValueDescriptor) :=
  onIndex config fun d => (d.descriptors key, d)

/-- `DiskCache::put_descriptor`: the file first, the descriptor after a write that reports
success. -/
def putDescriptor (keyHash : CacheKey → Hash128) (os : WriteOs) (desc : ValueDescriptor) :
    Prog DiskHost Status := do
  let status ← writeFile os (descriptorPath keyHash config desc.key) (descriptorData desc)
  if status.isOk then
    .atomic fun h => (status,
      { h with
        descriptors := Function.update h.descriptors desc.key (some desc)
        stored := desc :: h.stored })
  else pure status

/-- `DiskCache::remove_descriptor`. -/
def removeDescriptor (keyHash : CacheKey → Hash128) (key : CacheKey) : Prog DiskHost Unit := do
  onIndex config fun d => ((), { d with descriptors := Function.update d.descriptors key none })
  let _ ← deleteFile (descriptorPath keyHash config key)
  pure ()

/-- The locked part of a round of `evict`. Whether there is a round has been decided before. -/
def popAccess (d : DiskCache) : Option (AccessEntry × FilePath) × DiskCache :=
  match d.accessOrder with
  | [] => (none, d)
  | e :: rest =>
    (some (e, chunkPath d.config e.id),
      { d with
        accessOrder := rest
        chunkPaths := Function.update d.chunkPaths e.id none
        currentSize := d.currentSize - e.size })

/-- The loop of `evict`, for so many rounds: others may add entries while it runs. -/
def evictLoop (bytesNeeded : Nat) : Nat → Nat → Prog DiskHost Nat
  | 0, evicted => pure evicted
  | rounds + 1, evicted => do
    let goes ← onIndex config fun d =>
      (decide (DiskCache.evictTarget d.config < d.currentSize ∨ evicted < bytesNeeded), d)
    if goes then do
      let oldest ← onIndex config popAccess
      match oldest with
      | none => pure evicted
      | some (e, path) => do
        let _ ← deleteFile path
        evictLoop bytesNeeded rounds (evicted + e.size)
    else pure evicted

/-- The space check of `put`. -/
def makeRoom (rounds needed : Nat) : Prog DiskHost Unit := do
  let full ← onIndex config fun d =>
    (decide ((d.config.maxSize : ℚ) * d.config.highWatermark <
      ((d.currentSize + needed : Nat) : ℚ)), d)
  if full then do
    let _ ← evictLoop config needed rounds 0
    pure ()
  else pure ()

/-- `DiskCache::put`. -/
def put (H : ByteBuffer → Hash128) (keyHash : CacheKey → Hash128) (rounds : Nat)
    (os : DiskCache.PutOs) (p : Put) : Prog DiskHost Status :=
  if maxKeySize < p.key.size then pure (.error .keyTooLarge)
  else do
    makeRoom config rounds p.value.size
    let status ← storeChunks (fun i chunk => putChunk config H (os.tick i) (os.write i) chunk) 0
      (splitValue p.value.bytes)
    if status.isOk then putDescriptor config keyHash os.writeDescriptor (p.descriptor H)
    else pure status

/-- `DiskCache::get`. -/
def get (os : ChunkId → ReadOs) (now : Timestamp) (key : CacheKey) (opts : ReadOptions) :
    Prog DiskHost ReadResult :=
  readValue (getDescriptor config) (fun id => getChunk config (os id) id) DiskCache.assembleValue
    now key opts

/-- The loop of `DiskCache::remove` over the chunks of a value. -/
def removeChunks : List ChunkId → Prog DiskHost Unit
  | [] => pure ()
  | id :: rest => do
    let _ ← removeChunk config id
    removeChunks rest

/-- `DiskCache::remove`. -/
def remove (keyHash : CacheKey → Hash128) (key : CacheKey) : Prog DiskHost Status := do
  let found ← getDescriptor config key
  match found with
  | none => pure (.error .notFound)
  | some desc => do
    removeChunks config desc.chunks
    removeDescriptor config keyHash key
    pure .makeOk

end

/-! ## Run alone -/

section
variable {config : DiskCacheConfig} {H : ByteBuffer → Hash128} {keyHash : CacheKey → Hash128}
  {h : DiskHost} {rounds : Nat} {fs : FileSystem FilePath UInt8} {file : Option ByteBuffer}

/-- On its own, the loop writes to the file it has open. -/
theorem run_writeLoop (path : FilePath) (n : Nat) (data : ByteBuffer)
    (pwrite : Nat → Except String Nat) (i total : Nat) (h : DiskHost) :
    (writeLoop path n data pwrite i total).run h =
      let r := ElCache.writeLoop data pwrite i total (h.fs.data path n)
      (r.1, { h with fs := h.fs.setData path n r.2 }) := by
  induction hk : data.length - total using Nat.strongRecOn generalizing i total h with
  | ind k ih =>
    rw [writeLoop, ElCache.writeLoop]
    split
    · cases pwrite i with
      | error reason => simp
      | ok m =>
        cases m with
        | zero => simp
        | succ m =>
          dsimp only
          rw [Prog.run_bind, ih _ (by omega) _ _ _ rfl]
          simp [onFiles]
    · simp

/-- A write through system calls leaves the file that the loop leaves. -/
theorem run_writeFile (os : WriteOs) (path : FilePath) (data : ByteBuffer) (h : DiskHost) :
    ((writeFile os path data).run h).1 = (ElCache.writeFile os data (h.fs.content path)).1 ∧
      ∃ fs, ((writeFile os path data).run h).2 = { h with fs := fs } ∧ fs.content =
        Function.update h.fs.content path (ElCache.writeFile os data (h.fs.content path)).2 := by
  rw [writeFile, ElCache.writeFile]
  cases os.openError with
  | some reason =>
    refine ⟨rfl, h.fs, rfl, ?_⟩
    rw [Function.update_eq_self]
  | none =>
    have hdata := (FileSystem.openTrunc_spec path h.fs).2
    cases ha : os.allocates with
    | true =>
      simp [Prog.run_bind, run_writeLoop, onFiles, hdata, extend,
        FileSystem.content_setData_openTrunc]
    | false =>
      simp [Prog.run_bind, run_writeLoop, onFiles, hdata, FileSystem.content_setData_openTrunc]

/-- On its own, the loop reads from the file it has open. -/
theorem run_readLoop (path : FilePath) (n offset length : Nat) (pread : Nat → Nat) (i total : Nat)
    (h : DiskHost) :
    (readLoop path n offset length pread i total).run h =
      (ElCache.readLoop (h.fs.data path n) offset length pread i total, h) := by
  induction hk : length - total using Nat.strongRecOn generalizing i total with
  | ind k ih =>
    rw [readLoop, ElCache.readLoop]
    split
    · rw [Prog.run_bind]
      simp only [onFiles, Prog.run_atomic]
      cases slice (h.fs.data path n) (offset + total)
        (offset + total + min (pread i) (length - total)) with
      | nil => rfl
      | cons b got =>
        have hrest := ih (length - (total + (got.length + 1))) (by omega) (i + 1) _ rfl
        simp only [Prog.run_bind, Prog.run_pure, hrest]
    · rfl

/-- A read through system calls returns what the loop returns. -/
theorem run_readFile (os : ReadOs) (path : FilePath) (offset length : Nat) (h : DiskHost) :
    (readFile os path offset length).run h =
      (ElCache.readFile os (h.fs.content path) offset length, h) := by
  rw [readFile, Prog.run_bind]
  simp only [onFiles, Prog.run_atomic, ElCache.readFile, FileSystem.content]
  cases h.fs.current path with
  | none => rfl
  | some n =>
    simp only [Option.map_some]
    split
    · split
      · simp only [Prog.run_bind, Prog.run_atomic, run_readLoop]
      · rw [run_readLoop]
    · rfl

theorem isChunkPath_chunkPath (config : DiskCacheConfig) (id : ChunkId) :
    isChunkPath config (chunkPath config id) = true := by
  simp [isChunkPath, chunkPath]

theorem isChunkPath_descriptorPath (keyHash : CacheKey → Hash128) (config : DiskCacheConfig)
    (key : CacheKey) : isChunkPath config (descriptorPath keyHash config key) = false := by
  simp [isChunkPath, descriptorPath]

/-- A chunk file has been replaced. -/
theorem cache_setFs {path : FilePath} (hpath : isChunkPath config path = true)
    (hfs : fs.content = Function.update h.fs.content path file) :
    cache config { h with fs := fs } = { h.cache config with
      files := Function.update (h.cache config).files path file } := by
  have hfiles : (cache config { h with fs := fs }).files =
      Function.update (h.cache config).files path file := by
    funext q
    by_cases hq : q = path
    · subst hq
      simp [cache, hpath, hfs]
    · simp [cache, hfs, hq]
  rw [← hfiles]
  rfl

/-- A file has been replaced that is no chunk file. -/
theorem cache_setFs_other {path : FilePath} (hpath : isChunkPath config path = false)
    (hfs : fs.content = Function.update h.fs.content path file) :
    cache config { h with fs := fs } = h.cache config := by
  have hfiles : (cache config { h with fs := fs }).files = (h.cache config).files := by
    funext q
    by_cases hq : q = path
    · subst hq
      simp [cache, hpath]
    · simp [cache, hfs, hq]
  exact congrArg (fun files => { h.cache config with files := files }) hfiles

open Prog (Implements)

section
variable {σ τ : Type} {abs : τ → σ} {getChunk : ChunkId → Prog τ (Option Chunk)}
  {getChunk' : ChunkId → Prog σ (Option Chunk)}

/-- Fetching does the same in both models if reading a chunk does. -/
theorem implements_fetchChunks (hchunk : ∀ id, Implements abs (getChunk id) (getChunk' id))
    (desc : ValueDescriptor) (allowPartial : Bool) (indices : List Nat) :
    Implements abs (fetchChunks getChunk desc allowPartial indices)
      (fetchChunks getChunk' desc allowPartial indices) := by
  induction indices with
  | nil => exact Prog.implements_pure _
  | cons idx rest ih =>
    rw [fetchChunks, fetchChunks]
    cases desc.chunks[idx]? with
    | none => exact Prog.implements_pure _
    | some id =>
      refine (hchunk id).bind fun chunk => ?_
      split
      · exact Prog.implements_pure _
      · exact ih.bind fun _ => Prog.implements_pure _

/-- So does a whole read. -/
theorem implements_readValue {getDescriptor : CacheKey → Prog τ (Option ValueDescriptor)}
    {getDescriptor' : CacheKey → Prog σ (Option ValueDescriptor)}
    (hdesc : ∀ key, Implements abs (getDescriptor key) (getDescriptor' key))
    (hchunk : ∀ id, Implements abs (getChunk id) (getChunk' id))
    (assemble : List (Option Chunk) → Range → ByteBuffer) (now : Timestamp) (key : CacheKey)
    (opts : ReadOptions) :
    Implements abs (readValue getDescriptor getChunk assemble now key opts)
      (readValue getDescriptor' getChunk' assemble now key opts) := by
  refine (hdesc key).bind fun found => ?_
  cases found with
  | none => exact Prog.implements_pure _
  | some desc =>
    simp only [readFound]
    split
    · exact Prog.implements_pure _
    · split
      · exact Prog.implements_pure _
      · exact (implements_fetchChunks hchunk desc _ _).bind fun _ => Prog.implements_pure _

end

/-- A locked section that leaves the files and the configuration alone. -/
theorem implements_onIndex {α : Type} {f : DiskCache → α × DiskCache}
    (hf : ∀ d, (f d).2.files = d.files ∧ (f d).2.config = d.config) :
    Implements (cache config) (onIndex config f) (.atomic f) := by
  refine Prog.implements_atomic fun h => ⟨rfl, ?_⟩
  obtain ⟨hfiles, hconfig⟩ := hf (h.cache config)
  generalize f (h.cache config) = r at hfiles hconfig ⊢
  obtain ⟨a, d⟩ := r
  obtain ⟨_, _, _, _, _, _⟩ := d
  cases hfiles
  cases hconfig
  rfl

theorem implements_deleteFile (id : ChunkId) :
    Implements (cache config) (deleteFile (chunkPath config id))
      (DiskCache.deleteFile (chunkPath config id)) := by
  intro h
  have hpath := isChunkPath_chunkPath config id
  refine ⟨?_, cache_setFs hpath (FileSystem.content_unlink _ h.fs)⟩
  have hfile : ((h.cache config).files (chunkPath config id)).isSome =
      (h.fs.current (chunkPath config id)).isSome := by
    simp [cache, hpath, FileSystem.content]
  rw [DiskCache.deleteFile, Prog.run_atomic, hfile]
  rfl

theorem implements_getChunk (os : ReadOs) (id : ChunkId) :
    Implements (cache config) (getChunk config os id) (DiskCache.getChunkIo os id) := by
  intro h
  have hpath := isChunkPath_chunkPath config id
  simp [Prog.ImplementsAt, getChunk, DiskCache.getChunkIo, run_readFile, cache, hpath]

/-- A chunk is written to the same file with the same outcome. -/
theorem implements_putChunk (now : TimePoint) (os : WriteOs) (chunk : Chunk) :
    Implements (cache config) (putChunk config H now os chunk)
      (DiskCache.putChunkIo H now os chunk) := by
  have hpath := isChunkPath_chunkPath config (chunk.id H)
  refine Prog.Implements.bind (fun h => ?_) fun status => ?_
  · obtain ⟨hstatus, fs, hrun, hfs⟩ :=
      run_writeFile os (chunkPath config (chunk.id H)) chunk.data h
    have hfile : (h.cache config).files (chunkPath config (chunk.id H)) =
        h.fs.content (chunkPath config (chunk.id H)) := by
      simp [cache, hpath]
    rw [Prog.ImplementsAt, hstatus, hrun, cache_setFs hpath hfs, Prog.run_atomic]
    exact ⟨congrArg (fun file => (ElCache.writeFile os chunk.data file).1) hfile.symm, by
      rw [← hfile]; rfl⟩
  · split
    · exact (implements_onIndex fun _ => ⟨rfl, rfl⟩).bind fun _ => Prog.implements_pure _
    · exact Prog.implements_pure _

theorem implements_storeChunks (os : DiskCache.PutOs) (i : Nat) (chunks : List Chunk) :
    Implements (cache config)
      (storeChunks (fun i chunk => putChunk config H (os.tick i) (os.write i) chunk) i chunks)
      (storeChunks (fun i chunk => DiskCache.putChunkIo H (os.tick i) (os.write i) chunk) i
        chunks) := by
  induction chunks generalizing i with
  | nil => exact Prog.implements_pure _
  | cons chunk rest ih =>
    refine (implements_putChunk (os.tick i) (os.write i) chunk).bind fun status => ?_
    split
    · exact ih (i + 1)
    · exact Prog.implements_pure _

/-- The descriptor is stored if its file has been written. -/
theorem implements_putDescriptor (os : WriteOs) (desc : ValueDescriptor) :
    Implements (cache config) (putDescriptor config keyHash os desc)
      (DiskCache.putDescriptorIo os desc) := by
  intro h
  obtain ⟨hstatus, fs, hrun, hfs⟩ :=
    run_writeFile os (descriptorPath keyHash config desc.key) (descriptorData desc) h
  have hcache := cache_setFs_other (isChunkPath_descriptorPath keyHash config desc.key) hfs
  -- the status does not depend on what was there before
  have hsame : (ElCache.writeFile os (descriptorData desc)
      (h.fs.content (descriptorPath keyHash config desc.key))).1 =
      (ElCache.writeFile os (descriptorData desc) none).1 := by
    rw [writeFile_eq, writeFile_eq]
  rw [Prog.ImplementsAt, putDescriptor, Prog.run_bind, hstatus, hrun, hsame,
    DiskCache.putDescriptorIo, Prog.run_ite, Prog.run_ite]
  split
  · refine ⟨rfl, ?_⟩
    rw [← hcache]
    rfl
  · exact ⟨rfl, hcache⟩

/-- The state of a round of `evict` that has taken the oldest entry `e` and not yet removed its
file. -/
def popped (e : AccessEntry) (rest : List AccessEntry) (h : DiskHost) : DiskHost :=
  { h with
    accessOrder := rest
    chunkPaths := Function.update h.chunkPaths e.id none
    currentSize := h.currentSize - e.size }

/-- Eviction takes the same entries, one by one from the front. -/
theorem implements_evictLoop (bytesNeeded rounds evicted : Nat) :
    Implements (cache config) (evictLoop config bytesNeeded rounds evicted)
      (DiskCache.evictLoop bytesNeeded rounds evicted) := by
  induction rounds generalizing evicted with
  | zero => exact Prog.implements_pure _
  | succ rounds ih =>
    intro h
    by_cases hgoes : DiskCache.evictTarget config < h.currentSize ∨ evicted < bytesNeeded
    · cases horder : h.accessOrder with
      | nil =>
        simp [Prog.ImplementsAt, evictLoop, DiskCache.run_evictLoop_succ, onIndex, popAccess, cache,
          hgoes, horder]
      | cons e rest =>
        have hrun : (evictLoop config bytesNeeded (rounds + 1) evicted).run h =
            (evictLoop config bytesNeeded rounds (evicted + e.size)).run
              ((deleteFile (chunkPath config e.id)).run (h.popped e rest)).2 := by
          simp [evictLoop, onIndex, popAccess, popped, cache, hgoes, horder]
        have hspec : (DiskCache.evictLoop bytesNeeded (rounds + 1) evicted).run (h.cache config) =
            (DiskCache.evictLoop bytesNeeded rounds (evicted + e.size)).run
              ((DiskCache.deleteFile (chunkPath config e.id)).run
                ((h.popped e rest).cache config)).2 := by
          simp [DiskCache.run_evictLoop_succ, DiskCache.deleteFile, DiskCache.dropOldest, popped,
            cache, hgoes, horder]
        have hdelete : Prog.ImplementsAt (cache config) _ _ _ :=
          implements_deleteFile e.id (h.popped e rest)
        have hrest := ih (evicted + e.size)
          ((deleteFile (chunkPath config e.id)).run (h.popped e rest)).2
        rw [Prog.ImplementsAt, hdelete.2] at hrest
        rw [Prog.ImplementsAt, hrun, hspec]
        exact hrest
    · simp [Prog.ImplementsAt, evictLoop, DiskCache.run_evictLoop_succ, onIndex, cache, hgoes]

/-- More rounds than there are entries change nothing. -/
theorem run_evictLoop_of_le (bytesNeeded : Nat) (evicted : Nat) {d : DiskCache}
    (hrounds : d.accessOrder.length ≤ rounds) :
    (DiskCache.evictLoop bytesNeeded rounds evicted).run d =
      (DiskCache.evictLoop bytesNeeded d.accessOrder.length evicted).run d := by
  induction rounds generalizing d evicted with
  | zero => rw [Nat.le_zero.1 hrounds]
  | succ rounds ih =>
    rw [DiskCache.run_evictLoop_succ]
    cases horder : d.accessOrder with
    | nil =>
      simp only [List.length_nil, DiskCache.evictLoop, Prog.run_pure, ite_self]
    | cons e rest =>
      have hrest := ih (evicted + e.size) (d := d.dropOldest e rest)
        (by rw [horder] at hrounds; exact Nat.le_of_succ_le_succ hrounds)
      rw [List.length_cons, DiskCache.run_evictLoop_succ, horder]
      simp only [hrest]
      rfl

theorem implements_makeRoom (needed : Nat) (hrounds : h.accessOrder.length ≤ rounds) :
    Prog.ImplementsAt (cache config) (makeRoom config rounds needed) (DiskCache.makeRoom needed)
      h := by
  refine (implements_onIndex (fun _ => ⟨rfl, rfl⟩) h).bind ?_
  split
  · have hloop : Prog.ImplementsAt (cache config) _ _ _ := implements_evictLoop needed rounds 0 h
    rw [Prog.ImplementsAt, run_evictLoop_of_le needed 0 hrounds] at hloop
    have hevict : Prog.ImplementsAt (cache config) (evictLoop config needed rounds 0)
        (DiskCache.evict needed) h := by
      rw [Prog.ImplementsAt, DiskCache.evict, Prog.run_bind]
      exact hloop
    exact hevict.bind ⟨rfl, rfl⟩
  · exact ⟨rfl, rfl⟩

/-- `put` alone, with a round for every entry there is. -/
theorem implements_put (os : DiskCache.PutOs) (p : Put) (hrounds : h.accessOrder.length ≤ rounds) :
    Prog.ImplementsAt (cache config) (put config H keyHash rounds os p) (DiskCache.putIo H os p)
      h := by
  rw [put, DiskCache.putIo]
  split
  · exact Prog.implements_pure _ h
  · refine (implements_makeRoom p.value.size hrounds).bind ?_
    refine Prog.Implements.bind (implements_storeChunks os 0 _) (fun status => ?_) _
    split
    · exact implements_putDescriptor os.writeDescriptor (p.descriptor H)
    · exact Prog.implements_pure _

theorem implements_get (os : ChunkId → ReadOs) (now : Timestamp) (key : CacheKey)
    (opts : ReadOptions) :
    Implements (cache config) (get config os now key opts) (DiskCache.getIo os now key opts) :=
  implements_readValue (fun _ => implements_onIndex fun _ => ⟨rfl, rfl⟩)
    (fun id => implements_getChunk (os id) id) _ now key opts

end

end DiskHost

end ElCache
