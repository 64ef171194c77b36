import ElCache.Coordinator.Cache

/-!
# Streams of the coordinator

`WriteStreamImpl` collects what is written into chunks of `chunkSize` bytes and puts the whole value
when it is finished; `ReadStreamImpl` hands out a value that has been read in pieces. However the
bytes are cut, a stream moves the same value as one call: a finished write stream makes the one put
of everything written to it (`finish_run`), and the pieces of a read stream are the beginning of its
data (`returns_readRun`).

The reservation of `total_size_` bytes in `finish` only sizes an allocation and is left out.
-/

namespace ElCache

open Slice

/-- `WriteStreamImpl`, without the coordinator it belongs to. -/
structure WriteStream where
  key : CacheKey
  totalSize : Nat
  opts : WriteOptions
  written : Nat := 0
  buffer : ByteBuffer := []
  chunks : List ByteBuffer := []

namespace WriteStream

variable {bytes : ByteBuffer} {s : WriteStream}

theorem length_drop_lt {buffer : ByteBuffer} (h : chunkSize ≤ buffer.length) :
    (buffer.drop chunkSize).length < buffer.length := by
  have hpos := chunkSize_pos
  rw [List.length_drop]
  omega

/-- The loop of `write`: full chunks move from the buffer to the chunks. -/
def cutLoop (chunks : List ByteBuffer) (buffer : ByteBuffer) : List ByteBuffer × ByteBuffer :=
  if _h : chunkSize ≤ buffer.length then
    cutLoop (chunks ++ [buffer.take chunkSize]) (buffer.drop chunkSize)
  else (chunks, buffer)
termination_by buffer.length
decreasing_by exact length_drop_lt _h

/-- `WriteStreamImpl::write`. -/
def write (s : WriteStream) (chunk : ByteView) : Status × WriteStream :=
  let r := cutLoop s.chunks (s.buffer ++ chunk.bytes)
  (.makeOk, { s with chunks := r.1, buffer := r.2, written := wrap64 (s.written + chunk.size) })

/-- `WriteStreamImpl::finish`: what the call of the coordinator's `put` gives, and the stream after
it. The buffer is moved into the chunks. -/
def finish {α : Type*} (put : CacheKey → ByteBuffer → WriteOptions → α) (s : WriteStream) :
    α × WriteStream :=
  let chunks := if s.buffer.isEmpty then s.chunks else s.chunks ++ [s.buffer]
  (put s.key chunks.flatten s.opts, { s with chunks := chunks, buffer := [] })

/-- `WriteStreamImpl::abort`. -/
def abort (s : WriteStream) : WriteStream := { s with buffer := [], chunks := [] }

/-- The stream after a sequence of writes. -/
def writeRun (s : WriteStream) (writes : List ByteView) : WriteStream :=
  runOps (fun chunk s => (write s chunk).2) writes s

/-- The chunks and the buffer hold the given bytes; the chunks are full and the buffer is not. -/
structure Holds (s : WriteStream) (bytes : ByteBuffer) : Prop where
  bytes : s.chunks.flatten ++ s.buffer = bytes
  chunks : ∀ b ∈ s.chunks, b.length = chunkSize
  buffer : s.buffer.length < chunkSize

/-- The loop keeps the bytes, adds full chunks only and leaves less than a chunk. -/
theorem cutLoop_spec (chunks : List ByteBuffer) (buffer : ByteBuffer)
    (hchunks : ∀ b ∈ chunks, b.length = chunkSize) :
    (cutLoop chunks buffer).1.flatten ++ (cutLoop chunks buffer).2 = chunks.flatten ++ buffer ∧
      (∀ b ∈ (cutLoop chunks buffer).1, b.length = chunkSize) ∧
      (cutLoop chunks buffer).2.length < chunkSize := by
  fun_induction cutLoop chunks buffer with
  | case1 chunks buffer hfull ih =>
    have hall : ∀ b ∈ chunks ++ [buffer.take chunkSize], b.length = chunkSize := by
      intro b hb
      rcases List.mem_append.1 hb with hb | hb
      · exact hchunks b hb
      · rw [List.mem_singleton.1 hb, List.length_take, Nat.min_eq_left hfull]
    obtain ⟨hbytes, hrest⟩ := ih hall
    refine ⟨?_, hrest⟩
    rw [hbytes, List.flatten_append, List.flatten_singleton, List.append_assoc,
      List.take_append_drop]
  | case2 chunks buffer hfull => exact ⟨rfl, hchunks, Nat.lt_of_not_le hfull⟩

/-- A write adds its bytes to what the stream holds. -/
theorem Holds.write (h : s.Holds bytes) (chunk : ByteView) :
    (s.write chunk).2.Holds (bytes ++ chunk.bytes) := by
  obtain ⟨hbytes, hchunks, hbuffer⟩ := cutLoop_spec s.chunks (s.buffer ++ chunk.bytes) h.chunks
  refine ⟨?_, hchunks, hbuffer⟩
  rw [← h.bytes, List.append_assoc]
  exact hbytes

/-- After any writes the stream holds what it held and what was written, in order. -/
theorem Holds.writeRun (h : s.Holds bytes) (writes : List ByteView) :
    (s.writeRun writes).Holds (bytes ++ (writes.map ByteView.bytes).flatten) := by
  induction writes generalizing s bytes with
  | nil =>
    rw [List.map_nil, List.flatten_nil, List.append_nil]
    exact h
  | cons chunk writes ih =>
    rw [List.map_cons, List.flatten_cons, ← List.append_assoc]
    exact ih (h.write chunk)

/-- Writes leave the key and the options of the stream alone. -/
theorem args_writeRun (writes : List ByteView) (s : WriteStream) :
    (s.writeRun writes).key = s.key ∧ (s.writeRun writes).opts = s.opts := by
  induction writes generalizing s with
  | nil => exact ⟨rfl, rfl⟩
  | cons chunk writes ih => exact ih (s.write chunk).2

/-- Finishing a stream puts the bytes it holds. -/
theorem Holds.finish (h : s.Holds bytes) {α : Type*}
    (put : CacheKey → ByteBuffer → WriteOptions → α) :
    (s.finish put).1 = put s.key bytes s.opts := by
  rw [WriteStream.finish, ← h.bytes]
  split
  · next hempty => rw [List.isEmpty_iff.1 hempty, List.append_nil]
  · rw [List.flatten_append, List.flatten_singleton]

end WriteStream

namespace CacheCoordinator

/-- `CacheCoordinator::create_write_stream`. -/
def createWriteStream (key : CacheKey) (totalSize : Nat) (opts : WriteOptions) : WriteStream where
  key := key
  totalSize := totalSize
  opts := opts

end CacheCoordinator

namespace WriteStream

open CacheCoordinator (createWriteStream)

theorem holds_create (key : CacheKey) (totalSize : Nat) (opts : WriteOptions) :
    (createWriteStream key totalSize opts).Holds [] :=
  ⟨rfl, fun _ hb => absurd hb List.not_mem_nil, chunkSize_pos⟩

/-- Whatever is written, finishing the stream is one put of all of it. -/
theorem finish_run (key : CacheKey) (totalSize : Nat) (opts : WriteOptions)
    (writes : List ByteView) {α : Type*} (put : CacheKey → ByteBuffer → WriteOptions → α) :
    (((createWriteStream key totalSize opts).writeRun writes).finish put).1 =
      put key (writes.map ByteView.bytes).flatten opts := by
  obtain ⟨hkey, hopts⟩ := args_writeRun writes (createWriteStream key totalSize opts)
  rw [((holds_create key totalSize opts).writeRun writes).finish put, hkey, hopts]
  rfl

/-- Between writes less than a chunk is buffered. -/
theorem buffer_run (key : CacheKey) (totalSize : Nat) (opts : WriteOptions)
    (writes : List ByteView) :
    EveryState (fun chunk s => (write s chunk).2) (fun s => s.buffer.length < chunkSize) writes
      (createWriteStream key totalSize opts) := by
  refine everyState_of_inv (I := fun s => ∃ bytes, s.Holds bytes)
    ⟨[], holds_create key totalSize opts⟩ ?_ ?_
  · rintro s ⟨bytes, h⟩
    exact h.buffer
  · rintro chunk - s ⟨bytes, h⟩
    exact ⟨_, h.write chunk⟩

end WriteStream

/-! ## Reading -/

/-- `ReadStreamImpl`. -/
structure ReadStream where
  data : ByteBuffer
  totalSize : Nat
  position : Nat := 0

namespace ReadStream

/-- `ReadStreamImpl::read`. -/
def read (s : ReadStream) (maxBytes : Nat) : ByteBuffer × ReadStream :=
  let available := s.data.length - s.position
  let toRead := min maxBytes available
  (slice s.data s.position (s.position + toRead), { s with position := s.position + toRead })

/-- `ReadStreamImpl::eof`. -/
def eof (s : ReadStream) : Bool := decide (s.data.length ≤ s.position)

/-- `ReadStreamImpl::bytes_read`. -/
def bytesRead (s : ReadStream) : Nat := s.position

/-- The pieces a sequence of reads returns, and the stream after it. -/
def readRun : List Nat → ReadStream → List ByteBuffer × ReadStream
  | [], s => ([], s)
  | maxBytes :: sizes, s =>
    let r := readRun sizes (s.read maxBytes).2
    ((s.read maxBytes).1 :: r.1, r.2)

/-- Reads continue where the stream stands: they return the next bytes of the data, as many as were
asked for or are left, and leave the stream behind them. -/
theorem readRun_spec (sizes : List Nat) {s : ReadStream} (h : s.position ≤ s.data.length) :
    (readRun sizes s).2.data = s.data ∧
      (readRun sizes s).2.position = min (s.position + sizes.sum) s.data.length ∧
      (readRun sizes s).1.flatten = slice s.data s.position (readRun sizes s).2.position := by
  induction sizes generalizing s with
  | nil =>
    refine ⟨rfl, ?_, ?_⟩
    · simp only [readRun, List.sum_nil, Nat.add_zero, Nat.min_eq_left h]
    · rw [readRun, slice_eq_nil le_rfl]
      rfl
  | cons maxBytes sizes ih =>
    have hpos : (s.read maxBytes).2.position ≤ s.data.length := by
      simp only [read]
      omega
    obtain ⟨hdata, hposition, hflat⟩ := ih (s := (s.read maxBytes).2) hpos
    have hend : (readRun (maxBytes :: sizes) s).2.position =
        min (s.position + (maxBytes :: sizes).sum) s.data.length := by
      rw [readRun, hposition, List.sum_cons]
      simp only [read]
      omega
    refine ⟨hdata, hend, ?_⟩
    show (s.read maxBytes).1 ++ (readRun sizes (s.read maxBytes).2).1.flatten =
      slice s.data s.position (readRun sizes (s.read maxBytes).2).2.position
    rw [hflat]
    refine slice_append (Nat.le_add_right _ _) ?_
    rw [hposition]
    exact le_min (Nat.le_add_right _ _) hpos

/-- The pieces returned, and the stream that returned them: they are a beginning of the data, as
long as was asked for, the stream counts them, and it is at its end once they are all of the data.
-/
structure Returns (data : ByteBuffer) (asked : Nat) (r : List ByteBuffer × ReadStream) : Prop where
  pieces : r.1.flatten = data.take (min asked data.length)
  bytesRead : r.2.bytesRead = r.1.flatten.length
  eof : r.2.eof = true ↔ r.1.flatten = data

/-- Any reads of a new stream. -/
theorem returns_readRun (data : ByteBuffer) (totalSize : Nat) (sizes : List Nat) :
    Returns data sizes.sum (readRun sizes { data := data, totalSize := totalSize }) := by
  obtain ⟨hdata, hposition, hflat⟩ :=
    readRun_spec sizes (s := { data := data, totalSize := totalSize }) (Nat.zero_le _)
  rw [Nat.zero_add] at hposition
  rw [slice, List.drop_zero, hposition] at hflat
  have hlen : (data.take (min sizes.sum data.length)).length = min sizes.sum data.length := by
    rw [List.length_take]
    omega
  refine ⟨hflat, ?_, ?_⟩
  · rw [ReadStream.bytesRead, hposition, hflat, hlen]
  · rw [ReadStream.eof, decide_eq_true_eq, hdata, hposition, hflat]
    constructor
    · intro hle
      exact List.take_of_length_le hle
    · intro hall
      exact (congrArg List.length hall).ge.trans hlen.le

end ReadStream

namespace CacheCoordinator

/-- `CacheCoordinator::create_read_stream`. -/
def createReadStream (H : ByteBuffer → Hash128) (env : ReadEnv) (key : CacheKey)
    (opts : ReadOptions) : Prog CacheCoordinator (Option ReadStream) := do
  let result ← get H env key opts
  if result.result = .miss then pure none
  else
    let total := (result.metadata.map (·.totalSize)).getD result.data.length
    pure (some { data := result.data, totalSize := total })

/-- The stream of a key reads what one `get` of the key returns, unless that is a miss. -/
theorem run_createReadStream (H : ByteBuffer → Hash128) (env : ReadEnv) (key : CacheKey)
    (opts : ReadOptions) (c : CacheCoordinator) :
    (createReadStream H env key opts).run c =
      (if ((get H env key opts).run c).1.result = .miss then none
        else some
          { data := ((get H env key opts).run c).1.data
            totalSize := (((get H env key opts).run c).1.metadata.map (·.totalSize)).getD
              ((get H env key opts).run c).1.data.length },
        ((get H env key opts).run c).2) := by
  rw [createReadStream, Prog.run_bind]
  split
  · rfl
  · rfl

end CacheCoordinator

end ElCache
