import ElCache.Chunk
import ElCache.Lib.Prog

/-!
# Availability of a value

`PartialValue` of `chunk.hpp` records which chunks of a value are present, and turns this into byte
ranges. `checkValue` is the body of `MemoryCache::check` and `DiskCache::check`, which ask their
level for each chunk a range needs. It only looks.
-/

namespace ElCache

/-- Which chunks of a value are present. -/
structure PartialValue where
  totalSize : Nat := 0
  chunkAvailability : List Bool := []
  chunkIds : List ChunkId := []

namespace PartialValue

/-- The constructor from a descriptor: nothing is available yet. -/
def ofDescriptor (d : ValueDescriptor) : PartialValue where
  totalSize := d.totalSize
  chunkAvailability := List.replicate d.chunks.length false
  chunkIds := d.chunks

/-- `PartialValue::has_chunk`. -/
def hasChunk (v : PartialValue) (index : Nat) : Bool := v.chunkAvailability.getD index false

/-- `PartialValue::mark_chunk_available`. -/
def markChunkAvailable (v : PartialValue) (index : Nat) (id : ChunkId) : PartialValue :=
  if v.chunkAvailability.length ≤ index then v
  else { v with
    chunkAvailability := v.chunkAvailability.set index true
    chunkIds := v.chunkIds.set index id }

/-- `PartialValue::mark_chunk_unavailable`. -/
def markChunkUnavailable (v : PartialValue) (index : Nat) : PartialValue :=
  if v.chunkAvailability.length ≤ index then v
  else { v with chunkAvailability := v.chunkAvailability.set index false }

/-- `PartialValue::has_range`. A chunk past the end of the list counts as missing. -/
def hasRange (v : PartialValue) (range : Range) : Bool :=
  if range.length = 0 then true
  else if v.totalSize ≤ range.offset then false
  else
    let startChunk := range.offset / chunkSize
    let endOffset := min range.endOffset v.totalSize
    let endChunk := if 0 < endOffset then (endOffset - 1) / chunkSize else 0
    (List.range' startChunk (endChunk + 1 - startChunk)).all v.hasChunk

/-- Appends the missing bytes `[start, stop)`, to the last range if that ends where they begin. -/
def addMissing (missing : List Range) (start stop : Nat) : List Range :=
  match missing.getLast? with
  | none => [⟨start, sub64 stop start⟩]
  | some last =>
    if last.endOffset = start then
      missing.dropLast ++ [⟨last.offset, wrap64 (last.length + sub64 stop start)⟩]
    else missing ++ [⟨start, sub64 stop start⟩]

/-- The loop of `missing_ranges`. It moves on by whole chunks, so one round per chunk up to
`effectiveEnd` is enough fuel as long as no chunk boundary wraps. -/
def missingLoop (v : PartialValue) (effectiveEnd : Nat) : Nat → Nat → List Range → List Range
  | 0, _, missing => missing
  | fuel + 1, current, missing =>
    if current < effectiveEnd then
      let chunkIndex := current / chunkSize
      let chunkStart := chunkIndex * chunkSize
      let chunkEnd := min (wrap64 (chunkStart + chunkSize)) v.totalSize
      missingLoop v effectiveEnd fuel chunkEnd
        (if v.hasChunk chunkIndex then missing
        else addMissing missing (max current chunkStart) (min effectiveEnd chunkEnd))
    else missing

/-- The same loop, with `none` when it has not ended after `fuel` rounds. -/
def missingRun (v : PartialValue) (effectiveEnd : Nat) :
    Nat → Nat → List Range → Option (List Range)
  | 0, current, missing => if current < effectiveEnd then none else some missing
  | fuel + 1, current, missing =>
    if current < effectiveEnd then
      let chunkIndex := current / chunkSize
      let chunkStart := chunkIndex * chunkSize
      let chunkEnd := min (wrap64 (chunkStart + chunkSize)) v.totalSize
      missingRun v effectiveEnd fuel chunkEnd
        (if v.hasChunk chunkIndex then missing
        else addMissing missing (max current chunkStart) (min effectiveEnd chunkEnd))
    else some missing

/-- `PartialValue::missing_ranges`. -/
def missingRanges (v : PartialValue) (range : Range) : List Range :=
  if range.length = 0 ∨ v.totalSize ≤ range.offset then []
  else
    let effectiveEnd := min range.endOffset v.totalSize
    v.missingLoop effectiveEnd (effectiveEnd / chunkSize + 1) range.offset []

/-- The loop of `available_ranges` over the chunks from index `i` on. `run` is the start of the run
of available chunks that ends at `i`, if there is one. -/
def availableLoop (totalSize : Nat) : List Bool → Nat → Option Nat → List Range
  | [], i, some start =>
    [⟨start, sub64 (min (wrap64 (i * chunkSize)) totalSize) start⟩]
  | [], _, none => []
  | true :: rest, i, run =>
    availableLoop totalSize rest (i + 1) (some (run.getD (wrap64 (i * chunkSize))))
  | false :: rest, i, some start =>
    ⟨start, sub64 (min (wrap64 (i * chunkSize)) totalSize) start⟩ ::
      availableLoop totalSize rest (i + 1) none
  | false :: rest, i, none => availableLoop totalSize rest (i + 1) none

/-- `PartialValue::available_ranges`. -/
def availableRanges (v : PartialValue) : List Range :=
  availableLoop v.totalSize v.chunkAvailability 0 none

/-- The loop of `available_bytes` over the chunks from index `i` on; `count` is the number of all
chunks, the last of which may be short. -/
def availableBytesLoop (totalSize count : Nat) : List Bool → Nat → Nat → Nat
  | [], _, bytes => bytes
  | false :: rest, i, bytes => availableBytesLoop totalSize count rest (i + 1) bytes
  | true :: rest, i, bytes =>
    availableBytesLoop totalSize count rest (i + 1)
      (wrap64 (bytes + if i = count - 1 then sub64 totalSize (wrap64 (i * chunkSize))
        else chunkSize))

/-- `PartialValue::available_bytes`. -/
def availableBytes (v : PartialValue) : Nat :=
  availableBytesLoop v.totalSize v.chunkAvailability.length v.chunkAvailability 0 0

end PartialValue

/-- The answer to an availability check. -/
structure AvailabilityResult where
  exists_ : Bool := false
  metadata : Option CacheMetadata := none
  availableRanges : List Range := []
  missingRanges : List Range := []

/-- `AvailabilityResult::is_complete`. -/
def AvailabilityResult.isComplete (r : AvailabilityResult) : Bool :=
  r.exists_ && r.missingRanges.isEmpty

section
variable {σ : Type*}

/-- The loop of `check` over the chunks the range needs. -/
def markChunks (hasChunk : ChunkId → Prog σ Bool) (desc : ValueDescriptor) :
    List Nat → PartialValue → Prog σ PartialValue
  | [], v => pure v
  | idx :: rest, v =>
    match desc.chunks[idx]? with
    | none => markChunks hasChunk desc rest v
    | some id => do
      let has ← hasChunk id
      markChunks hasChunk desc rest (if has then v.markChunkAvailable idx id else v)

/-- The body of `MemoryCache::check` and `DiskCache::check`. -/
def checkValue (getDescriptor : CacheKey → Prog σ (Option ValueDescriptor))
    (hasChunk : ChunkId → Prog σ Bool) (key : CacheKey) (range : Option Range) :
    Prog σ AvailabilityResult := do
  let found ← getDescriptor key
  match found with
  | none => pure {}
  | some desc => do
    let checkRange := range.getD ⟨0, desc.totalSize⟩
    let v ← markChunks hasChunk desc (desc.chunksForRange checkRange) (.ofDescriptor desc)
    pure
      { exists_ := true
        metadata := some desc.metadata
        availableRanges := v.availableRanges
        missingRanges := v.missingRanges checkRange }

end

end ElCache
