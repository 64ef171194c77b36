import ElCache.Assembly

/-!
# Assembly without underflow

The loops that cut a value into chunks and put a range of it together again subtract unsigned
numbers: sizes, offsets and counters. Here the same loops are run with checked subtraction, which
fails where the unsigned one would go below zero. For a value whose chunks are all there the checked
runs of both levels end with the bytes of the range (`checkedLoop_ends`), as the unchecked loops do.
-/

namespace ElCache

variable {v : ByteBuffer}

open Slice

/-- Subtraction that fails below zero. -/
def checkedSub (a b : Nat) : Option Nat := if b ≤ a then some (a - b) else none

theorem checkedSub_of_le {a b : Nat} (h : b ≤ a) : checkedSub a b = some (a - b) := if_pos h

/-- A difference that the code takes only where it is positive, and 0 otherwise. -/
def guardedSub (a b : Nat) : Option Nat := if b < a then checkedSub a b else some 0

theorem guardedSub_eq (a b : Nat) : guardedSub a b = some (if b < a then a - b else 0) := by
  rw [guardedSub]
  split
  · next h => exact checkedSub_of_le h.le
  · rfl

/-! ## Splitting, selecting and reading -/

/-- The loop of `split_value`, checked. -/
def checkedSplitLoop (value : ByteBuffer) : Nat → Nat → Option (List Chunk)
  | 0, _ => some []
  | fuel + 1, offset =>
    if offset < value.length then do
      let left ← checkedSub value.length offset
      let size := min chunkSize left
      let rest ← checkedSplitLoop value fuel (offset + size)
      pure (⟨slice value offset (offset + size)⟩ :: rest)
    else some []

/-- `MemoryCache::split_value`, checked. -/
def checkedSplit (value : ByteBuffer) : Option (List Chunk) :=
  checkedSplitLoop value value.length 0

/-- No subtraction of the loop goes below zero. -/
theorem checkedSplitLoop_eq (value : ByteBuffer) : ∀ fuel offset,
    checkedSplitLoop value fuel offset = some (splitLoop value fuel offset) := by
  intro fuel
  induction fuel with
  | zero => exact fun offset => rfl
  | succ fuel ih =>
    intro offset
    rw [checkedSplitLoop, splitLoop]
    split
    · next h =>
      rw [checkedSub_of_le h.le]
      simp only [Option.bind_eq_bind, Option.bind_some, ih]
      rfl
    · rfl

/-- The last chunk up to `endOffset`, checked. -/
def checkedEndChunk (endOffset : Nat) : Option Nat :=
  if 0 < endOffset then (checkedSub endOffset 1).map (· / chunkSize) else some 0

/-- `ValueDescriptor::chunks_for_range`, checked. -/
def checkedChunksForRange (d : ValueDescriptor) (range : Range) : Option (List Nat) :=
  if range.length = 0 ∨ d.totalSize ≤ range.offset then some []
  else do
    let startChunk := range.offset / chunkSize
    let endOffset := min range.endOffset d.totalSize
    let endChunk ← checkedEndChunk endOffset
    pure (List.range' startChunk (min (endChunk + 1) d.chunks.length - startChunk))

/-- The indices of a range never leave the vector of chunk names. -/
theorem checkedChunksForRange_eq (d : ValueDescriptor) (range : Range) :
    checkedChunksForRange d range = some (d.chunksForRange range) := by
  have hend : ∀ endOffset, checkedEndChunk endOffset =
      some (if 0 < endOffset then (endOffset - 1) / chunkSize else 0) := by
    intro endOffset
    rw [checkedEndChunk]
    split
    · next h =>
      rw [checkedSub_of_le h]
      rfl
    · rfl
  rw [checkedChunksForRange, ValueDescriptor.chunksForRange]
  split
  · rfl
  · simp only [hend, Option.bind_eq_bind, Option.bind_some]
    rfl

/-- `Chunk::read`, checked. -/
def Chunk.checkedRead (c : Chunk) (offset length : Nat) : Option ByteBuffer :=
  if c.data.length ≤ offset then some []
  else do
    let left ← checkedSub c.data.length offset
    pure (slice c.data offset (offset + min length left))

theorem Chunk.checkedRead_eq (c : Chunk) (offset length : Nat) :
    c.checkedRead offset length = some (c.read offset length) := by
  rw [checkedRead, read]
  split
  · rfl
  · next h =>
    rw [checkedSub_of_le (Nat.le_of_not_le h)]
    rfl

/-! ## The assembly loops -/

/-- Both assembly loops, checked. They differ in how far a missing chunk moves them. -/
def checkedLoop (skip : Nat → Nat) (startChunk : Nat) :
    List (Option Chunk) → Nat → Nat → Nat → Option ByteBuffer
  | [], _, _, _ => some []
  | chunk :: rest, i, current, remaining =>
    if remaining = 0 then some []
    else
      match chunk with
      | none => do
        let left ← checkedSub remaining (skip remaining)
        checkedLoop skip startChunk rest (i + 1) (current + skip remaining) left
      | some c => do
        let globalOffset := (startChunk + i) * chunkSize
        let offsetInChunk ← guardedSub current globalOffset
        let available ← checkedSub c.size offsetInChunk
        let toCopy := min remaining available
        let bytes ← c.checkedRead offsetInChunk toCopy
        let left ← checkedSub remaining toCopy
        let tail ← checkedLoop skip startChunk rest (i + 1) (current + toCopy) left
        pure (bytes ++ tail)

/-- `MemoryCache::assemble_value`, checked. -/
def MemoryCache.checkedAssemble (chunks : List (Option Chunk)) (range : Range) :
    Option ByteBuffer :=
  checkedLoop (min · chunkSize) (range.offset / chunkSize) chunks 0 range.offset range.length

/-- The assembly of `DiskCache::get`, checked. -/
def DiskCache.checkedAssemble (chunks : List (Option Chunk)) (range : Range) : Option ByteBuffer :=
  checkedLoop (fun _ => 0) (range.offset / chunkSize) chunks 0 range.offset range.length

/-- One round over a held chunk: it ends if the offset lies in the chunk. -/
theorem checkedLoop_held {skip : Nat → Nat} {s : Nat} {c : Chunk} {rest : List (Option Chunk)}
    {i g current remaining : Nat} (hg : (s + i) * chunkSize = g) (hrem : remaining ≠ 0)
    (hge : g ≤ current) (hle : current - g ≤ c.size) :
    checkedLoop skip s (some c :: rest) i current remaining =
      (checkedLoop skip s rest (i + 1) (current + min remaining (c.size - (current - g)))
        (remaining - min remaining (c.size - (current - g)))).map
        (c.read (current - g) (min remaining (c.size - (current - g))) ++ ·) := by
  have hoff : (if g < current then current - g else 0) = current - g := by
    rw [offset_in_chunk, Nat.max_eq_left hge]
  rw [checkedLoop, if_neg hrem]
  simp only [hg, guardedSub_eq, hoff, Option.bind_eq_bind, Option.bind_some, checkedSub_of_le hle,
    Chunk.checkedRead_eq, checkedSub_of_le (Nat.min_le_left _ _), Option.map_eq_bind,
    Option.pure_def, Function.comp_def]

/-- The loops over `k` blocks of a value from `s + i` on, when they stand in the first of these or
have reached the end `e` of the range: no subtraction fails, and the rest of the range comes out. -/
theorem checkedLoop_blocks {e : Nat} (hlen : e ≤ v.length) (skip : Nat → Nat) (s k : Nat) :
    ∀ i cur, cur ≤ e → e ≤ (s + i + k) * chunkSize →
      (cur = e ∨ ((s + i) * chunkSize ≤ cur ∧ cur ≤ (s + i + 1) * chunkSize)) →
      checkedLoop skip s ((List.range' (s + i) k).map fun j => some ⟨block chunkSize v j⟩) i cur
        (e - cur) = some (slice v cur e) := by
  induction k with
  | zero =>
    intro i cur hcur hfar hin
    have hend : cur = e := by
      rw [Nat.add_zero] at hfar
      omega
    rw [hend, slice_eq_nil le_rfl]
    rfl
  | succ k ih =>
    intro i cur hcur hfar hin
    rw [List.range'_succ, List.map_cons]
    rcases Nat.eq_or_lt_of_le hcur with rfl | hlt
    · rw [Nat.sub_self, checkedLoop, if_pos rfl, slice_eq_nil le_rfl]
    · obtain ⟨hge, hup⟩ := hin.resolve_left hlt.ne
      have hle : cur ≤ min e ((s + i + 1) * chunkSize) := Nat.le_min.2 ⟨hcur, hup⟩
      have hsize : cur - (s + i) * chunkSize ≤ Chunk.size ⟨block chunkSize v (s + i)⟩ := by
        rw [size_block]
        rw [Nat.succ_mul] at hup
        omega
      -- the next round starts at a chunk boundary, or the range has come to its end
      have hnext : checkedLoop skip s ((List.range' (s + i + 1) k).map fun j =>
          some ⟨block chunkSize v j⟩) (i + 1) (min e ((s + i + 1) * chunkSize))
          (e - min e ((s + i + 1) * chunkSize)) =
            some (slice v (min e ((s + i + 1) * chunkSize)) e) := by
        refine ih (i + 1) _ (Nat.min_le_left _ _) ?_ ?_
        · rwa [show s + (i + 1) + k = s + i + (k + 1) by omega]
        · rcases Nat.le_total e ((s + i + 1) * chunkSize) with h | h
          · exact .inl (Nat.min_eq_left h)
          · rw [Nat.min_eq_right h]
            exact .inr ⟨le_rfl, Nat.mul_le_mul_right _ (Nat.le_succ _)⟩
      rw [checkedLoop_held rfl (Nat.sub_ne_zero_of_lt hlt) hge hsize, size_block,
        toCopy_block hlen hge, read_toCopy hge hle, Nat.add_sub_cancel' hle,
        Nat.sub_sub, Nat.add_sub_cancel' hle, hnext, Option.map_some,
        slice_append hle (Nat.min_le_left _ _)]

/-- Fed with the chunks a range needs, both checked loops return the range. -/
theorem checkedLoop_ends {o l : Nat} (hle : o + l ≤ v.length) (hpos : 0 < l) (skip : Nat → Nat) :
    checkedLoop skip (o / chunkSize)
      ((touched chunkSize o (o + l)).map fun j => some ⟨block chunkSize v j⟩) 0 o l =
        some (slice v o (o + l)) := by
  have hs : o / chunkSize ≤ (o + l - 1) / chunkSize := Nat.div_le_div_right (by omega)
  have hend := lt_succ_mul_of_div_le (o := o + l - 1) le_rfl
  have h := checkedLoop_blocks hle skip (o / chunkSize)
    ((o + l - 1) / chunkSize + 1 - o / chunkSize) 0 o (Nat.le_add_right o l)
    (by rw [Nat.add_zero, Nat.add_sub_cancel' (by omega)]; omega)
    (.inr ⟨Nat.div_mul_le_self o chunkSize, (lt_succ_mul_of_div_le le_rfl).le⟩)
  rw [Nat.add_sub_cancel_left] at h
  exact h

/-! ## Splitting and assembling -/

/-- The chunk sizes of a value: all full but the last, which is not empty. -/
theorem size_splitValue {i : Nat} {c : Chunk} (hc : (splitValue v)[i]? = some c) :
    (i + 1 < blockCount chunkSize v.length → c.size = chunkSize) ∧
      1 ≤ c.size ∧ c.size ≤ chunkSize := by
  rw [splitValue_eq, List.getElem?_map, getElem?_blocks] at hc
  split at hc
  · next hi =>
    cases hc
    have hlt := (lt_blockCount chunkSize_pos).1 hi
    have hnext := lt_blockCount (n := v.length) (i := i + 1) chunkSize_pos
    have hpos := chunkSize_pos
    rw [size_block, hnext, Nat.succ_mul]
    omega
  · cases hc

/-- The chunks selected for a range, taken from the split value, are blocks. -/
theorem map_splitValue {o l : Nat} (hle : o + l ≤ v.length) (hpos : 0 < l) :
    (touched chunkSize o (o + l)).map (fun i => (splitValue v)[i]?) =
      (touched chunkSize o (o + l)).map fun i => some ⟨block chunkSize v i⟩ := by
  refine List.map_congr_left fun i hi => ?_
  rw [splitValue_eq, List.getElem?_map, getElem?_blocks,
    if_pos (lt_blockCount_of_mem_touched (by omega) hle hi)]
  rfl

/-- Cutting a value as `put` does gives `⌈n / CHUNK_SIZE⌉` chunks, all full but the last, which
together are the value. Both assembly loops, given the chunks that `chunks_for_range` selects, yield
exactly the range, and none of the subtractions on the way goes below zero. -/
theorem split_assemble (H : ByteBuffer → Hash128) (p : Put) :
    checkedSplit p.value.bytes = some (splitValue p.value.bytes) ∧
    (splitValue p.value.bytes).length = blockCount chunkSize p.value.size ∧
    (∀ i c, (splitValue p.value.bytes)[i]? = some c →
      (i + 1 < (splitValue p.value.bytes).length → c.size = chunkSize) ∧
        1 ≤ c.size ∧ c.size ≤ chunkSize) ∧
    ((splitValue p.value.bytes).map Chunk.data).flatten = p.value.bytes ∧
    ∀ o l, o < p.value.size → l ≤ p.value.size - o →
      checkedChunksForRange (p.descriptor H) ⟨o, l⟩ =
        some ((p.descriptor H).chunksForRange ⟨o, l⟩) ∧
      let chunks := ((p.descriptor H).chunksForRange ⟨o, l⟩).map fun i =>
        (splitValue p.value.bytes)[i]?
      MemoryCache.assembleValue chunks ⟨o, l⟩ = slice p.value.bytes o (o + l) ∧
      MemoryCache.checkedAssemble chunks ⟨o, l⟩ = some (slice p.value.bytes o (o + l)) ∧
      DiskCache.assembleValue chunks ⟨o, l⟩ = slice p.value.bytes o (o + l) ∧
      DiskCache.checkedAssemble chunks ⟨o, l⟩ = some (slice p.value.bytes o (o + l)) := by
  have hcount : (splitValue p.value.bytes).length = blockCount chunkSize p.value.size := by
    rw [splitValue_eq, List.length_map, length_blocks]
    rfl
  refine ⟨checkedSplitLoop_eq _ _ _, hcount, fun i c hc => ?_, ?_, fun o l ho hl => ?_⟩
  · rw [hcount]
    exact size_splitValue hc
  · rw [splitValue_eq, List.map_map]
    exact (congrArg List.flatten (List.map_id _)).trans (flatten_blocks chunkSize_pos _)
  · refine ⟨checkedChunksForRange_eq _ _, ?_⟩
    rcases Nat.eq_zero_or_pos l with rfl | hpos
    · rw [chunksForRange_zero, Nat.add_zero, slice_eq_nil le_rfl]
      exact ⟨rfl, rfl, rfl, rfl⟩
    · have hle : o + l ≤ p.value.bytes.length := by
        have : p.value.bytes.length = p.value.size := rfl
        omega
      rw [chunksForRange_eq (p.describes H) p.value.size_lt hpos hle]
      simp only [map_splitValue hle hpos]
      exact ⟨MemoryCache.exactAssembly _ _ _ p.value.size_lt hpos hle,
        checkedLoop_ends hle hpos _,
        DiskCache.exactAssembly _ _ _ p.value.size_lt hpos hle, checkedLoop_ends hle hpos _⟩

/-- A chunk and a byte are fewer than `size_t` can count. -/
theorem length_overhang_lt : (List.replicate chunkSize 7 ++ [8] : ByteBuffer).length < 2 ^ 64 := by
  have hle := chunkSize_le
  rw [List.length_append, List.length_replicate, List.length_singleton]
  omega

/-- A put of a value that is one byte longer than a chunk. -/
def overhangPut : Put := ⟨0, ⟨[1]⟩, ⟨List.replicate chunkSize 7 ++ [8], length_overhang_lt⟩, {}⟩

/-- The last byte of the first chunk and the first byte of the second. -/
theorem slice_overhang :
    slice overhangPut.value.bytes (chunkSize - 1) (chunkSize - 1 + 2) = [7, 8] := by
  have hvalue : overhangPut.value.bytes = List.replicate (chunkSize - 1) 7 ++ [7, 8] := by
    show List.replicate chunkSize 7 ++ [8] = _
    conv_lhs => rw [← Nat.sub_add_cancel chunkSize_pos, List.replicate_succ']
    rw [List.append_assoc]
    rfl
  have hbehind := slice_append_right (List.replicate (chunkSize - 1) (7 : UInt8)) [7, 8] 0 2
  rw [List.length_replicate, Nat.add_zero] at hbehind
  rw [hvalue, hbehind]
  rfl

/-- A range of two bytes that ends in the chunk behind the one it starts in: both chunks are needed,
and both loops yield its bytes. -/
theorem split_assemble_overhang :
    (overhangPut.descriptor sampleHash).chunksForRange ⟨chunkSize - 1, 2⟩ = [0, 1] ∧
    MemoryCache.checkedAssemble
      (((overhangPut.descriptor sampleHash).chunksForRange ⟨chunkSize - 1, 2⟩).map
        fun i => (splitValue overhangPut.value.bytes)[i]?) ⟨chunkSize - 1, 2⟩ = some [7, 8] ∧
    DiskCache.checkedAssemble
      (((overhangPut.descriptor sampleHash).chunksForRange ⟨chunkSize - 1, 2⟩).map
        fun i => (splitValue overhangPut.value.bytes)[i]?) ⟨chunkSize - 1, 2⟩ = some [7, 8] := by
  have hpos := chunkSize_pos
  have hsize : overhangPut.value.size = chunkSize + 1 := by
    show (List.replicate chunkSize 7 ++ [8] : ByteBuffer).length = chunkSize + 1
    rw [List.length_append, List.length_replicate, List.length_singleton]
  have htouched : touched chunkSize (chunkSize - 1) (chunkSize - 1 + 2) = [0, 1] := by
    have hfirst : (chunkSize - 1) / chunkSize = 0 := Nat.div_eq_of_lt (by omega)
    have hlast : (chunkSize - 1 + 2 - 1) / chunkSize = 1 := by
      rw [show chunkSize - 1 + 2 - 1 = chunkSize by omega, Nat.div_self hpos]
    rw [touched, hfirst, hlast]
    rfl
  have hneeded :
      (overhangPut.descriptor sampleHash).chunksForRange ⟨chunkSize - 1, 2⟩ = [0, 1] := by
    rw [chunksForRange_eq (overhangPut.describes sampleHash) overhangPut.value.size_lt two_pos,
      htouched]
    show chunkSize - 1 + 2 ≤ overhangPut.value.size
    omega
  obtain ⟨-, -, hmemory, -, hdisk⟩ := (split_assemble sampleHash overhangPut).2.2.2.2
    (chunkSize - 1) 2 (by omega) (by omega)
  rw [slice_overhang] at hmemory hdisk
  exact ⟨hneeded, hmemory, hdisk⟩

end ElCache
