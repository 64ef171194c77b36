import ElCache.Types
import ElCache.Lib.Slice
import Mathlib.Data.Set.Function

/-!
# Chunks and value descriptors

A value is cut into chunks of `chunkSize` bytes, each named by the hash of its contents, and a
`ValueDescriptor` lists the names in order. The content hash is XXH3's, which is not part of the
repository: the model takes it as a parameter `H`.

`Describes H d v` says that `d` is the descriptor of the value `v`. The chunks `chunksForRange`
selects for a clamped range are then the blocks the range touches (`chunksForRange_eq`).
-/

namespace ElCache

open Slice

/-- A chunk of data. -/
structure Chunk where
  data : ByteBuffer
  deriving DecidableEq, Repr

namespace Chunk

def size (c : Chunk) : Nat := c.data.length

/-- `Chunk::id`: the hash of the contents. -/
def id (H : ByteBuffer → Hash128) (c : Chunk) : ChunkId := ⟨H c.data⟩

theorem id_mk (H : ByteBuffer → Hash128) (b : ByteBuffer) : id H ⟨b⟩ = ⟨H b⟩ := rfl

/-- `Chunk::read`: the bytes from `offset`, at most `length` of them. -/
def read (c : Chunk) (offset length : Nat) : ByteBuffer :=
  if c.data.length ≤ offset then []
  else slice c.data offset (offset + min length (c.data.length - offset))

theorem read_eq (c : Chunk) (offset length : Nat) :
    c.read offset length = slice c.data offset (offset + length) := by
  unfold read
  split
  · next h => rw [slice_eq_nil_of_length_le h]
  · rw [← slice_min_length c.data offset (offset + length)]
    congr 1
    omega

end Chunk

/-- A stand-in for the content hash in concrete instances: the length and the first byte. -/
def sampleHash (b : ByteBuffer) : Hash128 := ⟨UInt64.ofNat b.length, (b.headD 0).toUInt64⟩

/-- A value of one byte has one chunk. -/
theorem blocks_byte (x : UInt8) : blocks chunkSize [x] = [[x]] :=
  blocks_of_length_le (List.cons_ne_nil _ _) chunkSize_pos

/-- A value of two bytes has one chunk. -/
theorem blocks_pair (x y : UInt8) : blocks chunkSize [x, y] = [[x, y]] := by
  refine blocks_of_length_le (List.cons_ne_nil _ _) ?_
  rw [chunkSize]
  exact Nat.le_of_ble_eq_true rfl

/-! ## Splitting a value -/

/-- The loop of `MemoryCache::split_value`. Each round takes at least one byte, so `fuel` rounds
suffice for a value of `fuel` bytes. -/
def splitLoop (value : ByteBuffer) : Nat → Nat → List Chunk
  | 0, _ => []
  | fuel + 1, offset =>
    if offset < value.length then
      let size := min chunkSize (value.length - offset)
      ⟨slice value offset (offset + size)⟩ :: splitLoop value fuel (offset + size)
    else []

/-- `MemoryCache::split_value`. -/
def splitValue (value : ByteBuffer) : List Chunk := splitLoop value value.length 0

/-- The loop at a chunk boundary yields the blocks from that boundary on. -/
theorem splitLoop_eq (value : ByteBuffer) : ∀ (fuel i : Nat), value.length ≤ i * chunkSize + fuel →
    splitLoop value fuel (i * chunkSize) =
      ((List.range' i (blockCount chunkSize value.length - i)).map
        fun j => ⟨block chunkSize value j⟩) := by
  intro fuel
  induction fuel with
  | zero =>
    intro i h
    have : ¬ i < blockCount chunkSize value.length := by
      rw [lt_blockCount chunkSize_pos]; omega
    rw [Nat.sub_eq_zero_of_le (by omega)]
    rfl
  | succ fuel ih =>
    intro i h
    have hlt := lt_blockCount (n := value.length) (i := i) chunkSize_pos
    rw [splitLoop]
    split
    · next hi =>
      have hpos := chunkSize_pos
      have hblock : slice value (i * chunkSize)
          (i * chunkSize + min chunkSize (value.length - i * chunkSize)) =
            block chunkSize value i := by
        rw [block, ← slice_min_length value _ ((i + 1) * chunkSize), Nat.succ_mul]
        congr 1
        omega
      -- a full chunk is followed by the next boundary; a short one ends the value
      have hnext : splitLoop value fuel
          (i * chunkSize + min chunkSize (value.length - i * chunkSize)) =
            (List.range' (i + 1) (blockCount chunkSize value.length - (i + 1))).map
              fun j => ⟨block chunkSize value j⟩ := by
        rcases Nat.le_total ((i + 1) * chunkSize) value.length with hfull | hshort
        · have hstep : i * chunkSize + min chunkSize (value.length - i * chunkSize) =
              (i + 1) * chunkSize := by rw [Nat.succ_mul] at hfull ⊢; omega
          rw [hstep, ih (i + 1) (by rw [Nat.succ_mul]; omega)]
        · have hend : ¬ i + 1 < blockCount chunkSize value.length := by
            rw [lt_blockCount chunkSize_pos]; omega
          have hnil : blockCount chunkSize value.length - (i + 1) = 0 := by omega
          rw [Nat.succ_mul] at hshort
          cases fuel with
          | zero => rw [hnil]; rfl
          | succ fuel =>
            rw [hnil, splitLoop, if_neg (by omega)]
            rfl
      have hcount : blockCount chunkSize value.length - i =
          blockCount chunkSize value.length - (i + 1) + 1 := by
        have := hlt.2 hi; omega
      simp only [hblock, hnext, hcount, List.range'_succ, List.map_cons]
    · next hi =>
      have := mt hlt.1 hi
      rw [Nat.sub_eq_zero_of_le (by omega)]
      rfl

/-- Splitting cuts the value into its blocks. -/
theorem splitValue_eq (value : ByteBuffer) :
    splitValue value = (blocks chunkSize value).map Chunk.mk := by
  have h := splitLoop_eq value value.length 0 (by omega)
  rw [Nat.zero_mul, Nat.sub_zero, ← List.range_eq_range'] at h
  rw [splitValue, h, blocks, List.map_map]
  rfl

/-- The sizes of the chunks add up to the size of the value. -/
theorem sum_size_splitValue (value : ByteBuffer) :
    ((splitValue value).map Chunk.size).sum = value.length := by
  have h := congrArg List.length (flatten_blocks chunkSize_pos value)
  rw [List.length_flatten] at h
  rw [splitValue_eq, List.map_map]
  exact h

/-! ## Value descriptors -/

/-- The ordered chunk names of a value, with its metadata. -/
structure ValueDescriptor where
  key : CacheKey
  totalSize : Nat
  chunks : List ChunkId
  metadata : CacheMetadata
  deriving DecidableEq, Repr

/-- `ValueDescriptor::chunks_for_range`: the loop runs over consecutive indices and stops at the
first that is past the range or past the chunk list. -/
def ValueDescriptor.chunksForRange (d : ValueDescriptor) (range : Range) : List Nat :=
  if range.length = 0 ∨ d.totalSize ≤ range.offset then []
  else
    let startChunk := range.offset / chunkSize
    let endOffset := min range.endOffset d.totalSize
    let endChunk := if 0 < endOffset then (endOffset - 1) / chunkSize else 0
    List.range' startChunk (min (endChunk + 1) d.chunks.length - startChunk)

section
variable (H : ByteBuffer → Hash128)

/-- The chunk names of a value, in order. -/
def chunkIds (v : ByteBuffer) : List ChunkId := (blocks chunkSize v).map fun b => ⟨H b⟩

/-- `d` is the descriptor of the value `v`. -/
structure Describes (d : ValueDescriptor) (v : ByteBuffer) : Prop where
  totalSize : d.totalSize = v.length
  chunks : d.chunks = chunkIds H v

end

variable {H : ByteBuffer → Hash128}

@[simp] theorem length_chunkIds (v : ByteBuffer) :
    (chunkIds H v).length = blockCount chunkSize v.length := by
  simp [chunkIds]

theorem getElem?_chunkIds (v : ByteBuffer) (i : Nat) :
    (chunkIds H v)[i]? = if i < blockCount chunkSize v.length
      then some ⟨H (block chunkSize v i)⟩ else none := by
  rw [chunkIds, List.getElem?_map, getElem?_blocks]
  split <;> rfl

/-- The chunks selected for a range inside a value of which all chunks are listed are the blocks it
touches. -/
theorem chunksForRange_of_count {d : ValueDescriptor} (hsize : d.totalSize < 2 ^ 64)
    (hchunks : d.chunks.length = blockCount chunkSize d.totalSize) {o len : Nat} (hlen : 0 < len)
    (hle : o + len ≤ d.totalSize) : d.chunksForRange ⟨o, len⟩ = touched chunkSize o (o + len) := by
  have hend : min (Range.endOffset ⟨o, len⟩) d.totalSize = o + len := by
    rw [Range.endOffset, wrap64_of_lt (by simp only; omega)]
    exact Nat.min_eq_left hle
  have hlt : (o + len - 1) / chunkSize < blockCount chunkSize d.totalSize := by
    rw [lt_blockCount chunkSize_pos]
    have := Nat.div_mul_le_self (o + len - 1) chunkSize
    omega
  rw [ValueDescriptor.chunksForRange, if_neg (by simp only; omega)]
  simp only [hend, if_pos (show 0 < o + len by omega), hchunks]
  rw [touched, Nat.min_eq_left (by omega)]

/-- The name of a block is where its index says. -/
theorem Describes.getElem?_chunks {d : ValueDescriptor} {v : ByteBuffer} (hd : Describes H d v)
    {i : Nat} (hi : i < blockCount chunkSize v.length) :
    d.chunks[i]? = some ⟨H (block chunkSize v i)⟩ := by
  rw [hd.chunks, getElem?_chunkIds, if_pos hi]

/-- The chunks selected for a range inside the value are those it touches. -/
theorem chunksForRange_eq {d : ValueDescriptor} {v : ByteBuffer} (hd : Describes H d v)
    (hv : v.length < 2 ^ 64) {o len : Nat} (hlen : 0 < len) (hle : o + len ≤ v.length) :
    d.chunksForRange ⟨o, len⟩ = touched chunkSize o (o + len) := by
  rw [← hd.totalSize] at hv hle
  refine chunksForRange_of_count hv ?_ hlen hle
  rw [hd.chunks, length_chunkIds, hd.totalSize]

/-- A range with no byte inside the value selects no chunk. -/
theorem chunksForRange_zero (d : ValueDescriptor) (o : Nat) : d.chunksForRange ⟨o, 0⟩ = [] := by
  simp [ValueDescriptor.chunksForRange]

/-- A block touched by a range inside the value is one of the value's blocks. -/
theorem lt_blockCount_of_mem_touched {n o e i : Nat} (hoe : o < e) (hle : e ≤ n)
    (hi : i ∈ touched chunkSize o e) : i < blockCount chunkSize n := by
  rw [lt_blockCount chunkSize_pos]
  have := ((mem_touched chunkSize_pos hoe).1 hi).1
  omega

end ElCache
