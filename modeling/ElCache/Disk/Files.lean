import ElCache.Disk.Cache
import ElCache.Lib.Bytes

/-!
# The loops of the file store

`DiskStore::write_file` and `read_file` repeat `pwrite` and `pread`, which may transfer fewer bytes
than asked for, or fail, at every call. The disk level of `Disk.Cache` knows only how a write ends
(`WriteOutcome`) and that a read returns the file. Here the loops are modelled with what the
operating system answers at each call as a parameter, and the level over them is the level of
`Disk.Cache`: a write through the loop is a write with one of the outcomes (`writeFile_eq`), a read
whose calls all deliver something returns the file (`readFile_eq`), and so the programs of the level
are the same (`putIo_eq`, `getIo_eq`), in every interleaving.
-/

namespace ElCache

open Slice Bytes

/-! ## Writing -/

/-- What the operating system does for one `write_file`: whether the file can be opened, whether it
is extended to its full size beforehand, and what each call of `pwrite` answers. A call takes at
most what it is given. -/
structure WriteOs where
  openError : Option String := none
  allocates : Bool := true
  pwrite : Nat → Except String Nat

/-- A file after bytes have been written at an offset. A gap is filled with zeros. -/
def pwriteAt (file : ByteBuffer) (offset : Nat) (bytes : ByteBuffer) : ByteBuffer :=
  file.take offset ++ List.replicate (offset - file.length) 0 ++ bytes ++
    file.drop (offset + bytes.length)

/-- The loop of `write_file`, from its call `i` on: the status and the file it leaves. -/
def writeLoop (data : ByteBuffer) (pwrite : Nat → Except String Nat) (i totalWritten : Nat)
    (file : ByteBuffer) : Status × ByteBuffer :=
  if totalWritten < data.length then
    match pwrite i with
    | .error reason => (.error .diskError ("Write failed: " ++ reason), file)
    -- not expected, and not reported
    | .ok 0 => (.makeOk, file)
    | .ok (n + 1) =>
      let written := totalWritten + min (n + 1) (data.length - totalWritten)
      writeLoop data pwrite (i + 1) written
        (pwriteAt file totalWritten (slice data totalWritten written))
  else (.makeOk, file)
termination_by data.length - totalWritten

/-- `DiskStore::write_file`: the status it returns and the file after it. -/
def writeFile (os : WriteOs) (data : ByteBuffer) (before : Option ByteBuffer) :
    Status × Option ByteBuffer :=
  match os.openError with
  | some reason => (.error .diskError ("Failed to open file for writing: " ++ reason), before)
  | none =>
    let truncated := if os.allocates then List.replicate data.length 0 else []
    let r := writeLoop data os.pwrite 0 0 truncated
    (r.1, some r.2)

/-- How the loop ends. -/
def outcomeLoop (size : Nat) (allocated : Bool) (pwrite : Nat → Except String Nat)
    (i totalWritten : Nat) : WriteOutcome :=
  if totalWritten < size then
    match pwrite i with
    | .error reason => .failedAt totalWritten allocated reason
    | .ok 0 => .stoppedAt totalWritten allocated
    | .ok (n + 1) =>
      outcomeLoop size allocated pwrite (i + 1) (totalWritten + min (n + 1) (size - totalWritten))
  else .done
termination_by size - totalWritten

/-- How the write of so many bytes ends. -/
def WriteOs.outcome (os : WriteOs) (size : Nat) : WriteOutcome :=
  match os.openError with
  | some reason => .openFailed reason
  | none => outcomeLoop size os.allocates os.pwrite 0 0

/-- No call fails or takes nothing. -/
structure WriteOs.Works (os : WriteOs) : Prop where
  opens : os.openError = none
  pwrite : ∀ i, ∃ n, os.pwrite i = .ok (n + 1)

/-- Writing the next bytes behind the part that is there moves its end. -/
theorem pwriteAt_torn {data : ByteBuffer} {a b : Nat} (hab : a ≤ b) (hb : b ≤ data.length)
    (allocated : Bool) :
    pwriteAt (WriteOutcome.torn data a allocated) a (slice data a b) =
      WriteOutcome.torn data b allocated := by
  have htake : (data.take a).length = a := List.length_take_of_le (hab.trans hb)
  have hlen : (slice data a b).length = b - a := by
    rw [length_slice, Nat.min_eq_left hb]
  have hend : a + (slice data a b).length = b := by rw [hlen, Nat.add_sub_cancel' hab]
  have hjoin : data.take a ++ slice data a b = data.take b := by
    have h := slice_append (v := data) (Nat.zero_le a) hab
    simpa [slice] using h
  cases allocated with
  | false =>
    simp only [pwriteAt, WriteOutcome.torn, Bool.false_eq_true, if_false, List.append_nil, hend]
    rw [List.take_take, Nat.min_self, htake, Nat.sub_self, List.replicate_zero, List.append_nil,
      hjoin, List.drop_eq_nil_of_le (by rw [htake]; exact hab), List.append_nil]
  | true =>
    have hsplit : List.replicate (data.length - a) (0 : UInt8) =
        List.replicate (b - a) 0 ++ List.replicate (data.length - b) 0 := by
      rw [← List.replicate_add]
      congr 1
      omega
    have hrest : (data.take a ++ List.replicate (data.length - a) (0 : UInt8)).drop b =
        List.replicate (data.length - b) 0 := by
      rw [hsplit, ← List.append_assoc]
      exact List.drop_left' (by rw [List.length_append, htake, List.length_replicate]; omega)
    have hlong : a - (data.take a ++ List.replicate (data.length - a) (0 : UInt8)).length = 0 := by
      rw [List.length_append, htake]
      omega
    simp only [pwriteAt, WriteOutcome.torn, if_true, hend, hlong, hrest, List.replicate_zero,
      List.append_nil]
    rw [List.take_left' htake, hjoin]

/-- The loop ends as `outcomeLoop` says, with what this outcome leaves in the file. -/
theorem writeLoop_torn (data : ByteBuffer) (allocated : Bool) (pwrite : Nat → Except String Nat)
    (i : Nat) {total : Nat} (htotal : total ≤ data.length) (before : Option ByteBuffer) :
    let r := writeLoop data pwrite i total (WriteOutcome.torn data total allocated)
    let outcome := outcomeLoop data.length allocated pwrite i total
    r.1 = outcome.status ∧ some r.2 = outcome.file data before := by
  -- on what is left to write
  induction hn : data.length - total using Nat.strongRecOn generalizing i total with
  | ind n ih =>
    rw [writeLoop, outcomeLoop]
    split
    · next hlt =>
      cases pwrite i with
      | error reason => exact ⟨rfl, rfl⟩
      | ok k =>
        cases k with
        | zero => exact ⟨rfl, rfl⟩
        | succ k =>
          have hstep : total + min (k + 1) (data.length - total) ≤ data.length := by omega
          simp only
          rw [pwriteAt_torn (Nat.le_add_right _ _) hstep]
          exact ih _ (by omega) (i + 1) hstep rfl
    · next hge =>
      have heq : total = data.length := Nat.le_antisymm htotal (Nat.le_of_not_lt hge)
      refine ⟨rfl, ?_⟩
      simp [WriteOutcome.torn, WriteOutcome.file, heq]

/-- **Every write through the loop is one of the outcomes**, whatever `pwrite` answers. -/
theorem writeFile_eq (os : WriteOs) (data : ByteBuffer) (before : Option ByteBuffer) :
    writeFile os data before =
      ((os.outcome data.length).status, (os.outcome data.length).file data before) := by
  unfold writeFile WriteOs.outcome
  cases os.openError with
  | some reason => rfl
  | none =>
    have htorn : (if os.allocates then List.replicate data.length (0 : UInt8) else []) =
        WriteOutcome.torn data 0 os.allocates := by
      simp [WriteOutcome.torn]
    simp only [htorn]
    obtain ⟨hstatus, hfile⟩ :=
      writeLoop_torn data os.allocates os.pwrite 0 (Nat.zero_le _) before
    exact Prod.ext hstatus hfile

/-- Short writes are made up for. -/
theorem WriteOs.Works.outcome {os : WriteOs} (h : os.Works) (size : Nat) :
    os.outcome size = .done := by
  have hloop : ∀ i total, outcomeLoop size os.allocates os.pwrite i total = .done := by
    intro i total
    induction hn : size - total using Nat.strongRecOn generalizing i total with
    | ind n ih =>
      rw [outcomeLoop]
      split
      · obtain ⟨k, hk⟩ := h.pwrite i
        rw [hk]
        exact ih _ (by omega) (i + 1) _ rfl
      · rfl
  rw [WriteOs.outcome, h.opens]
  exact hloop 0 0

/-! ## Reading -/

/-- What the operating system does for one `read_file`: whether the file can be opened and its size
read, and how many bytes each call of `pread` delivers at most, 0 if it fails. -/
structure ReadOs where
  opens : Bool := true
  stats : Bool := true
  pread : Nat → Nat

/-- The loop of `read_file`, from its call `i` on: the bytes that are still read. -/
def readLoop (file : ByteBuffer) (offset length : Nat) (pread : Nat → Nat) (i totalRead : Nat) :
    ByteBuffer :=
  if totalRead < length then
    match slice file (offset + totalRead)
      (offset + totalRead + min (pread i) (length - totalRead)) with
    | [] => []
    | b :: got =>
      b :: got ++ readLoop file offset length pread (i + 1) (totalRead + (got.length + 1))
  else []
termination_by length - totalRead

/-- The length that is read if none is given: a difference of 64-bit numbers. -/
def restLength (size offset : Nat) : Nat :=
  if offset ≤ size then size - offset else 2 ^ 64 + size - offset

/-- `DiskStore::read_file`. -/
def readFile (os : ReadOs) (file : Option ByteBuffer) (offset length : Nat) : ByteBuffer :=
  match file with
  | none => []
  | some content =>
    if os.opens then
      let length :=
        if length = 0 then if os.stats then restLength content.length offset else 0 else length
      readLoop content offset length os.pread 0 0
    else []

/-- No call fails before the end of the file. -/
structure ReadOs.Works (os : ReadOs) : Prop where
  opens : os.opens = true
  stats : os.stats = true
  pread : ∀ i, 0 < os.pread i

section
variable {file : ByteBuffer} {offset length : Nat} {pread : Nat → Nat}

/-- What is read is the beginning of what was asked for. -/
theorem isPrefix_readLoop (i total : Nat) :
    readLoop file offset length pread i total <+:
      slice file (offset + total) (offset + length) := by
  induction hn : length - total using Nat.strongRecOn generalizing i total with
  | ind n ih =>
    rw [readLoop]
    split
    · next hlt =>
      split
      · exact List.nil_prefix
      · next b got hgot =>
        have hlen := congrArg List.length hgot
        rw [length_slice, List.length_cons] at hlen
        have hjoin : slice file (offset + total) (offset + length) =
            (b :: got) ++ slice file (offset + (total + (got.length + 1))) (offset + length) := by
          have hpart : slice file (offset + total) (offset + (total + (got.length + 1))) =
              b :: got := by
            rw [← hgot, ← slice_min_length file _ (offset + total + _), ← slice_min_length]
            congr 1
            omega
          rw [← hpart, slice_append (by omega) (by omega)]
        rw [hjoin, List.prefix_append_right_inj]
        exact ih _ (by omega) (i + 1) _ rfl
    · exact List.nil_prefix

/-- Short reads are made up for. -/
theorem readLoop_eq (hpread : ∀ i, 0 < pread i) (i total : Nat) :
    readLoop file offset length pread i total =
      slice file (offset + total) (offset + length) := by
  refine (isPrefix_readLoop i total).eq_of_length ?_
  induction hn : length - total using Nat.strongRecOn generalizing i total with
  | ind n ih =>
    rw [readLoop]
    split
    · next hlt =>
      have hpos := hpread i
      split
      · next hnil =>
        have hlen := congrArg List.length hnil
        rw [length_slice, List.length_nil] at hlen
        rw [length_slice, List.length_nil]
        omega
      · next b got hgot =>
        have hlen := congrArg List.length hgot
        rw [length_slice, List.length_cons] at hlen
        have hrest := ih _ (by omega) (i + 1) (total + (got.length + 1)) rfl
        rw [length_slice] at hrest ⊢
        rw [List.length_append, List.length_cons, hrest]
        omega
    · rw [length_slice, List.length_nil]
      omega

end

/-- A read of a whole file returns a beginning of it. -/
theorem isPrefix_readFile (os : ReadOs) (file : Option ByteBuffer) :
    readFile os file 0 0 <+: file.getD [] := by
  cases file with
  | none => exact List.nil_prefix
  | some content =>
    simp only [readFile, if_true, Option.getD_some]
    split
    · refine (isPrefix_readLoop 0 0).trans ?_
      rw [slice, Nat.zero_add, List.drop_zero]
      exact List.take_prefix _ _
    · exact List.nil_prefix

/-- **A read of a whole file whose calls work returns the file**, however `pread` cuts it. -/
theorem readFile_eq {os : ReadOs} (h : os.Works) (file : Option ByteBuffer) :
    readFile os file 0 0 = file.getD [] := by
  cases file with
  | none => rfl
  | some content =>
    simp only [readFile, h.opens, h.stats, if_true, Option.getD_some]
    rw [readLoop_eq h.pread, restLength, if_pos (Nat.zero_le _)]
    simp [slice]

/-! ## The level over the loops -/

/-- The contents of a descriptor file. -/
def descriptorData (desc : ValueDescriptor) : ByteBuffer :=
  leBytes 4 desc.key.size ++ desc.key.data ++ leBytes 8 desc.totalSize ++
    leBytes 8 desc.chunks.length ++
    desc.chunks.flatMap fun id => leBytes 8 id.hash.low.toNat ++ leBytes 8 id.hash.high.toNat

namespace DiskCache

/-- `DiskCache::get_chunk` over the loop of `read_file`. -/
def getChunkIo (os : ReadOs) (id : ChunkId) : Prog DiskCache (Option Chunk) :=
  .atomic fun d =>
    let data := readFile os (d.files (chunkPath d.config id)) 0 0
    (if data.isEmpty then none else some ⟨data⟩, d)

/-- `DiskCache::get` over the loop of `read_file`. -/
def getIo (os : ChunkId → ReadOs) (now : Timestamp) (key : CacheKey) (opts : ReadOptions) :
    Prog DiskCache ReadResult :=
  readValue getDescriptor (fun id => getChunkIo (os id) id) assembleValue now key opts

/-- `DiskCache::put_chunk` over the loop of `write_file`. -/
def putChunkIo (H : ByteBuffer → Hash128) (now : TimePoint) (os : WriteOs) (chunk : Chunk) :
    Prog DiskCache Status := do
  let id := chunk.id H
  let status ← Prog.atomic fun d =>
    let path := chunkPath d.config id
    let r := writeFile os chunk.data (d.files path)
    (r.1, { d with files := Function.update d.files path r.2 })
  if status.isOk then do
    Prog.atomic fun d => ((), indexChunk id now chunk.size d)
    pure status
  else pure status

/-- `DiskCache::put_descriptor` over the loop of `write_file`. The status does not depend on what
the descriptor file was before. -/
def putDescriptorIo (os : WriteOs) (desc : ValueDescriptor) : Prog DiskCache Status :=
  let status := (writeFile os (descriptorData desc) none).1
  if status.isOk then
    .atomic fun d => (status,
      { d with descriptors := Function.update d.descriptors desc.key (some desc) })
  else pure status

/-- What the operating system does for a `put`: the steady clock at each chunk, and each write. -/
structure PutOs where
  tick : Nat → TimePoint
  write : Nat → WriteOs
  writeDescriptor : WriteOs

/-- `DiskCache::put` over the loop of `write_file`. -/
def putIo (H : ByteBuffer → Hash128) (os : PutOs) (p : Put) : Prog DiskCache Status :=
  if maxKeySize < p.key.size then pure (.error .keyTooLarge)
  else do
    makeRoom p.value.size
    let status ← storeChunks (fun i chunk => putChunkIo H (os.tick i) (os.write i) chunk) 0
      (splitValue p.value.bytes)
    if status.isOk then putDescriptorIo os.writeDescriptor (p.descriptor H) else pure status

variable {H : ByteBuffer → Hash128}

theorem getChunkIo_eq {os : ReadOs} (h : os.Works) (id : ChunkId) :
    getChunkIo os id = getChunk id := by
  rw [getChunkIo, getChunk]
  congr 1
  funext d
  rw [readFile_eq h]
  rfl

/-- A `get` whose reads work is the `get` that reads files as a whole. -/
theorem getIo_eq {os : ChunkId → ReadOs} (h : ∀ id, (os id).Works) (now : Timestamp)
    (key : CacheKey) (opts : ReadOptions) : getIo os now key opts = get now key opts := by
  have hchunk : (fun id => getChunkIo (os id) id) = getChunk := by
    funext id
    exact getChunkIo_eq (h id) id
  rw [getIo, get, hchunk]

theorem putChunkIo_eq (now : TimePoint) (os : WriteOs) (chunk : Chunk) :
    putChunkIo H now os chunk = putChunk H now (os.outcome chunk.size) (some chunk) := by
  simp only [putChunkIo, putChunk, writeFile_eq, Chunk.size]

theorem putDescriptorIo_eq (os : WriteOs) (desc : ValueDescriptor) :
    putDescriptorIo os desc = putDescriptor (os.outcome (descriptorData desc).length) desc := by
  simp only [putDescriptorIo, putDescriptor, writeFile_eq]

/-- How the writes of a `put` end. -/
def PutOs.env (os : PutOs) (H : ByteBuffer → Hash128) (p : Put) : WriteEnv where
  tick := os.tick
  write i := (os.write i).outcome (((splitValue p.value.bytes)[i]?.map Chunk.size).getD 0)
  writeDescriptor := os.writeDescriptor.outcome (descriptorData (p.descriptor H)).length

theorem storeChunks_congr {f g : Nat → Chunk → Prog DiskCache Status} {chunks : List Chunk}
    {i : Nat} (h : ∀ j c, chunks[j]? = some c → f (i + j) c = g (i + j) c) :
    storeChunks f i chunks = storeChunks g i chunks := by
  induction chunks generalizing i with
  | nil => rfl
  | cons c rest ih =>
    have hrest : storeChunks f (i + 1) rest = storeChunks g (i + 1) rest := by
      refine ih fun j x hx => ?_
      have hstep := h (j + 1) x hx
      rwa [show i + (j + 1) = i + 1 + j by omega] at hstep
    have hhead : f i c = g i c := h 0 c rfl
    rw [storeChunks, storeChunks, hrest, hhead]

/-- A `put` is the `put` whose writes end so. -/
theorem putIo_eq (os : PutOs) (p : Put) : putIo H os p = put H (os.env H p) p := by
  have hstore : storeChunks (fun i chunk => putChunkIo H (os.tick i) (os.write i) chunk) 0
        (splitValue p.value.bytes) =
      storeChunks (fun i chunk => putChunk H ((os.env H p).tick i) ((os.env H p).write i)
        (some chunk)) 0 (splitValue p.value.bytes) := by
    refine storeChunks_congr fun j c hc => ?_
    rw [Nat.zero_add, putChunkIo_eq]
    simp only [PutOs.env, hc, Option.map_some, Option.getD_some]
  rw [putIo, put, hstore, putDescriptorIo_eq]
  rfl

end DiskCache

end ElCache
