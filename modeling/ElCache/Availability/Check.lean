import ElCache.Availability.Ranges
import ElCache.Disk.Torn
import ElCache.Memory.Spec

/-!
# What a level reports as available

`check` selects the chunks a range needs, marks those the level holds and returns the ranges of the
resulting record. Selection and the search for gaps both use `Range::end`, whose sum wraps: with a
range that ends behind the last 64-bit number the selection is cut short and no gap is found, so a
value of which nothing is held is reported complete. `exact_iff` says for which ranges the report is
exact, in every state a level can reach.
-/

namespace ElCache

variable {key : CacheKey}

open Slice Runs PartialValue

/-! ## The record of a check -/

/-- Whether the chunk with the index is there and held. -/
def ValueDescriptor.heldAt (d : ValueDescriptor) (held : ChunkId → Bool) (i : Nat) : Bool :=
  d.chunks[i]?.any held

/-- The calls the marking loop makes for the given indices. -/
def checkMarks (d : ValueDescriptor) (held : ChunkId → Bool) (idxs : List Nat) : List Mark :=
  idxs.filterMap fun idx => d.chunks[idx]?.bind fun id =>
    if held id then some (.available idx id) else none

/-- The record `check` ends with. -/
def checked (d : ValueDescriptor) (held : ChunkId → Bool) (range : Range) : PartialValue :=
  marked d (checkMarks d held (d.chunksForRange range))

/-- What `check` returns when there is a descriptor. -/
def checkResult (d : ValueDescriptor) (held : ChunkId → Bool) (range : Option Range) :
    AvailabilityResult :=
  let checkRange := range.getD ⟨0, d.totalSize⟩
  { exists_ := true
    metadata := some d.metadata
    availableRanges := (checked d held checkRange).availableRanges
    missingRanges := (checked d held checkRange).missingRanges checkRange }

section
variable {σ : Type*} {getDescriptor : CacheKey → Prog σ (Option ValueDescriptor)}
  {hasChunk : ChunkId → Prog σ Bool} {held : ChunkId → Bool} {s : σ} {d : ValueDescriptor}

theorem run_markChunks (hhas : ∀ id, (hasChunk id).run s = (held id, s)) (idxs : List Nat) :
    ∀ v, (markChunks hasChunk d idxs v).run s = ((checkMarks d held idxs).foldl mark v, s) := by
  induction idxs with
  | nil => exact fun v => rfl
  | cons idx rest ih =>
    intro v
    rw [markChunks, checkMarks, List.filterMap_cons]
    cases d.chunks[idx]? with
    | none => exact ih v
    | some id =>
      simp only [Prog.run_bind, hhas, Option.bind_some]
      cases held id with
      | true => exact ih _
      | false => exact ih _

/-- A level's check is a function of the descriptor and of the chunks it holds. -/
theorem run_checkValue (hget : (getDescriptor key).run s = (some d, s))
    (hhas : ∀ id, (hasChunk id).run s = (held id, s)) (range : Option Range) :
    (checkValue getDescriptor hasChunk key range).run s = (checkResult d held range, s) := by
  rw [checkValue, Prog.run_bind, hget]
  simp only [Prog.run_bind, run_markChunks hhas]
  rfl

end

/-! ## Which bytes it covers -/

/-- When all calls mark chunks available, a chunk is available if some call names it. -/
theorem last_of_available {marks : List Mark} (h : ∀ m ∈ marks, m.isAvailable = true) (i : Nat) :
    Mark.last marks i = true ↔ ∃ m ∈ marks, m.index = i := by
  have hgen : ∀ flag, marks.foldl (fun flag m => if m.index = i then m.isAvailable else flag) flag =
      true ↔ flag = true ∨ ∃ m ∈ marks, m.index = i := by
    induction marks with
    | nil => simp
    | cons m marks ih =>
      intro flag
      rw [List.foldl_cons, ih fun m' hm' => h m' (List.mem_cons_of_mem _ hm'),
        h m List.mem_cons_self]
      simp only [List.mem_cons, exists_eq_or_imp]
      split
      · next hi => simp [hi]
      · next hi => simp [hi]
  rw [Mark.last, hgen]
  simp

section
variable {d : ValueDescriptor} {held : ChunkId → Bool} {r : Range}

/-- The check finds a chunk that is selected and held. -/
theorem last_checkMarks (idxs : List Nat) (i : Nat) :
    Mark.last (checkMarks d held idxs) i = true ↔ i ∈ idxs ∧ d.heldAt held i = true := by
  have hmem : ∀ m, m ∈ checkMarks d held idxs ↔ ∃ idx ∈ idxs, ∃ id, d.chunks[idx]? = some id ∧
      held id = true ∧ Mark.available idx id = m := by
    intro m
    simp only [checkMarks, List.mem_filterMap, Option.bind_eq_some_iff,
      Option.ite_none_right_eq_some, Option.some.injEq]
  rw [last_of_available]
  · constructor
    · rintro ⟨m, hm, rfl⟩
      obtain ⟨idx, hidx, id, hid, hheld, rfl⟩ := (hmem m).1 hm
      refine ⟨hidx, ?_⟩
      rw [ValueDescriptor.heldAt, Mark.index, hid]
      exact hheld
    · rintro ⟨hi, hheld⟩
      rw [ValueDescriptor.heldAt, Option.any_eq_true] at hheld
      obtain ⟨id, hid, hheld⟩ := hheld
      exact ⟨.available i id, (hmem _).2 ⟨i, hi, id, hid, hheld, rfl⟩, rfl⟩
  · intro m hm
    obtain ⟨idx, -, id, -, -, rfl⟩ := (hmem m).1 hm
    rfl

/-- The chunks selected for a range, as the code computes its end. -/
theorem mem_chunksForRange {i : Nat} : i ∈ d.chunksForRange r ↔
    r.length ≠ 0 ∧ r.offset < d.totalSize ∧ r.offset / chunkSize ≤ i ∧
      i ≤ (min r.endOffset d.totalSize - 1) / chunkSize ∧ i < d.chunks.length := by
  rw [ValueDescriptor.chunksForRange]
  have hend : (if 0 < min r.endOffset d.totalSize then (min r.endOffset d.totalSize - 1) / chunkSize
      else 0) = (min r.endOffset d.totalSize - 1) / chunkSize := by
    split
    · rfl
    · next h => rw [show min r.endOffset d.totalSize - 1 = 0 by omega, Nat.zero_div]
  split
  · next h =>
    refine ⟨fun hi => (List.not_mem_nil hi).elim, fun hi => ?_⟩
    omega
  · next h =>
    simp only [hend, List.mem_range'_1]
    omega

variable (hbound : d.totalSize + chunkSize ≤ 2 ^ 64)
  (hcount : d.chunks.length = blockCount chunkSize d.totalSize)
include hbound hcount

variable (held r) in
theorem checked_spec :
    (checked d held r).Fits ∧ (checked d held r).totalSize = d.totalSize ∧
    ∀ b < d.totalSize, ((checked d held r).hasChunk (b / chunkSize) = true ↔
      b / chunkSize ∈ d.chunksForRange r ∧ d.heldAt held (b / chunkSize) = true) := by
  obtain ⟨hfits, htotal, hflags⟩ := marked_spec hbound hcount
    (checkMarks d held (d.chunksForRange r))
  refine ⟨hfits, htotal, fun b hb => ?_⟩
  rw [checked, hflags b hb, last_checkMarks]

variable (held r) in
/-- The available bytes of a check: those of the chunks that are selected and held. -/
theorem covers_available (b : Nat) :
    Covers ((checked d held r).availableRanges.map Range.span) b ↔
      b < d.totalSize ∧ b / chunkSize ∈ d.chunksForRange r ∧
        d.heldAt held (b / chunkSize) = true := by
  obtain ⟨hfits, htotal, hflags⟩ := checked_spec held r hbound hcount
  rw [(isRuns_availableRanges hfits).covers, availableIn, Set.mem_ofPred_eq, htotal]
  exact and_congr_right fun hb => hflags b hb

/-- The missing bytes of a check: those up to the end the code computes, in chunks that are not
selected or not held. -/
theorem covers_missing (hr : r.length ≠ 0) (b : Nat) :
    Covers (((checked d held r).missingRanges r).map Range.span) b ↔
      r.offset ≤ b ∧ b < min r.endOffset d.totalSize ∧
        ¬ (b / chunkSize ∈ d.chunksForRange r ∧ d.heldAt held (b / chunkSize) = true) := by
  obtain ⟨hfits, htotal, hflags⟩ := checked_spec held r hbound hcount
  rw [(missingRanges_spec hfits hr).2.covers, mem_missingIn, htotal]
  refine and_congr_right fun _ => and_congr_right fun hb => ?_
  rw [← hflags b (lt_of_lt_of_le hb (Nat.min_le_right _ _)), Bool.not_eq_true]

/-- The search for gaps ends within one round per chunk. -/
theorem checked_ends {fuel : Nat} (hfuel : d.chunks.length ≤ fuel) :
    (checked d held r).missingRangesWithin fuel r = some ((checked d held r).missingRanges r) := by
  obtain ⟨hfits, htotal, -⟩ := checked_spec held r hbound hcount
  rcases Nat.eq_zero_or_pos r.length with h0 | hpos
  · rw [missingRangesWithin, missingRanges, if_pos (.inl h0), if_pos (.inl h0)]
  · refine (missingRanges_spec hfits hpos.ne').1 fuel ?_
    rwa [hfits.count, htotal, ← hcount]

end

/-! ## When the report is exact -/

/-- The bytes of the value a range asks for, the sum taken exactly. -/
def ValueDescriptor.Asked (d : ValueDescriptor) (r : Range) (b : Nat) : Prop :=
  r.offset ≤ b ∧ b < min (r.offset + r.length) d.totalSize

/-- The report of a check is exact: a byte asked for is listed as available if its chunk is held and
as missing if not, and a complete report means that all are held. -/
structure ExactReport (d : ValueDescriptor) (held : ChunkId → Bool) (r : Range)
    (res : AvailabilityResult) : Prop where
  available : ∀ b, d.Asked r b →
    (Covers (res.availableRanges.map Range.span) b ↔ d.heldAt held (b / chunkSize) = true)
  missing : ∀ b, d.Asked r b →
    (Covers (res.missingRanges.map Range.span) b ↔ d.heldAt held (b / chunkSize) = false)
  complete : res.isComplete = true → ∀ b, d.Asked r b → d.heldAt held (b / chunkSize) = true

/-- The end of the range does not wrap, or nothing of the value is asked for, or the value ends in
the chunk where the range starts, the chunk is held, and the wrapped end is not before it. -/
def EndExact (d : ValueDescriptor) (held : ChunkId → Bool) (r : Range) : Prop :=
  r.offset + r.length < 2 ^ 64 ∨ d.totalSize ≤ r.offset ∨
    (d.totalSize ≤ (r.offset / chunkSize + 1) * chunkSize ∧
      d.heldAt held (r.offset / chunkSize) = true ∧
      r.offset / chunkSize ≤ (r.offset + r.length - 2 ^ 64 - 1) / chunkSize)

section
variable {d : ValueDescriptor} {held : ChunkId → Bool} {r : Range}

/-- A complete report has no missing range. -/
theorem missingRanges_eq_nil {res : AvailabilityResult} (h : res.isComplete = true) :
    res.missingRanges = [] := by
  rw [AvailabilityResult.isComplete, Bool.and_eq_true] at h
  exact List.isEmpty_iff.1 h.2

/-- Exactness of the two lists gives that of the completeness flag. -/
theorem exactReport_iff :
    ExactReport d held r (checkResult d held (some r)) ↔
      (∀ b, d.Asked r b → (Covers ((checked d held r).availableRanges.map Range.span) b ↔
        d.heldAt held (b / chunkSize) = true)) ∧
      ∀ b, d.Asked r b → (Covers (((checked d held r).missingRanges r).map Range.span) b ↔
        d.heldAt held (b / chunkSize) = false) := by
  refine ⟨fun h => ⟨h.available, h.missing⟩, fun h => ⟨h.1, h.2, fun hc b hb => ?_⟩⟩
  have hnil : (checked d held r).missingRanges r = [] := missingRanges_eq_nil hc
  by_contra hheld
  obtain ⟨x, hx, -⟩ := (h.2 b hb).2 (Bool.eq_false_iff.2 hheld)
  rw [hnil] at hx
  cases hx

variable (hbound : d.totalSize + chunkSize ≤ 2 ^ 64)
  (hcount : d.chunks.length = blockCount chunkSize d.totalSize)
include hbound hcount

omit hbound in
/-- A byte asked for lies in a chunk that is selected, if the end of the range does not wrap. -/
theorem selected_of_asked (hr : r.offset + r.length < 2 ^ 64) {b : Nat} (hb : d.Asked r b) :
    b < d.totalSize ∧ b / chunkSize ∈ d.chunksForRange r := by
  obtain ⟨hlo, hhi⟩ := hb
  have hlt : b < d.totalSize := by omega
  have hend : r.endOffset = r.offset + r.length := wrap64_of_lt hr
  rw [mem_chunksForRange, hend, hcount]
  exact ⟨hlt, by omega, by omega, Nat.div_le_div_right hlo, Nat.div_le_div_right (by omega),
    div_lt_blockCount hlt⟩

variable (held) in
/-- The missing bytes of such a range. -/
theorem covers_missing_of_no_wrap (hr : r.offset + r.length < 2 ^ 64) (b : Nat) :
    Covers (((checked d held r).missingRanges r).map Range.span) b ↔
      d.Asked r b ∧ d.heldAt held (b / chunkSize) = false := by
  obtain ⟨hfits, htotal, hflags⟩ := checked_spec held r hbound hcount
  rw [(isRuns_missingRanges hfits hr).2.covers, mem_missingIn, htotal, ← and_assoc]
  refine and_congr_right fun hb => ?_
  obtain ⟨hlt, hsel⟩ := selected_of_asked hcount hr hb
  rw [← Bool.not_eq_true, hflags b hlt, ← Bool.not_eq_true]
  simp only [hsel, true_and]

variable (held) in
/-- The report of such a range is complete exactly if all its bytes are held. -/
theorem isComplete_checkResult (hr : r.offset + r.length < 2 ^ 64) :
    (checkResult d held (some r)).isComplete = true ↔
      ∀ b, d.Asked r b → d.heldAt held (b / chunkSize) = true := by
  obtain ⟨hfits, -, -⟩ := checked_spec held r hbound hcount
  have hnil := (isRuns_missingRanges hfits hr).2.eq_nil_iff
  rw [List.map_eq_nil_iff] at hnil
  simp only [AvailabilityResult.isComplete, checkResult, Option.getD_some, Bool.true_and,
    List.isEmpty_iff, hnil]
  refine forall_congr' fun b => ?_
  rw [← (isRuns_missingRanges hfits hr).2.covers, covers_missing_of_no_wrap held hbound hcount hr]
  simp only [not_and, Bool.not_eq_false]

theorem exactReport_of_no_wrap (hr : r.offset + r.length < 2 ^ 64) :
    ExactReport d held r (checkResult d held (some r)) := by
  have hmiss := covers_missing_of_no_wrap held hbound hcount hr
  refine exactReport_iff.2 ⟨fun b hb => ?_, fun b hb => (hmiss b).trans (and_iff_right hb)⟩
  obtain ⟨hlt, hsel⟩ := selected_of_asked hcount hr hb
  rw [covers_available held r hbound hcount]
  simp only [hlt, hsel, true_and]

section
variable (ho : r.offset < 2 ^ 64) (hl : r.length < 2 ^ 64) (hr : 2 ^ 64 ≤ r.offset + r.length)
  (hin : r.offset < d.totalSize)
include ho hl hr hin

omit hbound hcount in
/-- An end that wraps is in front of the offset, and so inside the value. -/
theorem end_of_wrap : min r.endOffset d.totalSize = r.offset + r.length - 2 ^ 64 := by
  rw [Range.endOffset, wrap64, Nat.mod_eq_sub_mod hr, Nat.mod_eq_of_lt (by omega)]
  omega

variable (held) in
/-- With a wrapped end no gap is found. -/
theorem not_covers_missing_of_wrap (b : Nat) :
    ¬ Covers (((checked d held r).missingRanges r).map Range.span) b := by
  rw [covers_missing hbound hcount (by omega), end_of_wrap ho hl hr hin]
  omega

omit hbound in
/-- With a wrapped end the chunks are selected up to the one of that end. -/
theorem selected_iff_of_wrap {b : Nat} (hb : b < d.totalSize) :
    b / chunkSize ∈ d.chunksForRange r ↔ r.offset / chunkSize ≤ b / chunkSize ∧
      b / chunkSize ≤ (r.offset + r.length - 2 ^ 64 - 1) / chunkSize := by
  have hlen : r.length ≠ 0 := by omega
  have hb : b / chunkSize < d.chunks.length := hcount ▸ div_lt_blockCount hb
  rw [mem_chunksForRange, end_of_wrap ho hl hr hin]
  simp only [hlen, hin, hb, ne_eq, not_false_eq_true, true_and, and_true]

/-- With a wrapped end no gap is found, and only the first chunk can have been selected. -/
theorem exactReport_iff_of_wrap : ExactReport d held r (checkResult d held (some r)) ↔
      d.totalSize ≤ (r.offset / chunkSize + 1) * chunkSize ∧
      d.heldAt held (r.offset / chunkSize) = true ∧
      r.offset / chunkSize ≤ (r.offset + r.length - 2 ^ 64 - 1) / chunkSize := by
  have hasked : ∀ b, d.Asked r b ↔ r.offset ≤ b ∧ b < d.totalSize := by
    intro b
    rw [ValueDescriptor.Asked, Nat.min_eq_right (by omega)]
  have hmiss := not_covers_missing_of_wrap held hbound hcount ho hl hr hin
  have hsel : ∀ b, b < d.totalSize → _ := fun b => selected_iff_of_wrap hcount ho hl hr hin
  have hlast : (r.offset + r.length - 2 ^ 64 - 1) / chunkSize ≤ r.offset / chunkSize :=
    Nat.div_le_div_right (by omega)
  rw [exactReport_iff]
  constructor
  · rintro ⟨havail, hmissing⟩
    have hall : ∀ b, r.offset ≤ b → b < d.totalSize → d.heldAt held (b / chunkSize) = true ∧
        b / chunkSize ≤ (r.offset + r.length - 2 ^ 64 - 1) / chunkSize := by
      intro b hlo hhi
      have hheld : d.heldAt held (b / chunkSize) = true := by
        by_contra hnot
        exact hmiss b ((hmissing b ((hasked b).2 ⟨hlo, hhi⟩)).2 (Bool.eq_false_iff.2 hnot))
      have hcov := (havail b ((hasked b).2 ⟨hlo, hhi⟩)).2 hheld
      rw [covers_available held r hbound hcount, hsel b hhi] at hcov
      exact ⟨hheld, hcov.2.1.2⟩
    obtain ⟨hheld, hfirst⟩ := hall r.offset le_rfl hin
    obtain ⟨-, hend⟩ := hall (d.totalSize - 1) (by omega) (by omega)
    refine ⟨?_, hheld, hfirst⟩
    exact Nat.le_of_pred_lt
      ((Nat.div_lt_iff_lt_mul chunkSize_pos).1 (Nat.lt_succ_of_le (hend.trans hlast)))
  · rintro ⟨hone, hheld, hfirst⟩
    have hchunk : ∀ b, d.Asked r b → b / chunkSize = r.offset / chunkSize := by
      intro b hb
      obtain ⟨hlo, hhi⟩ := (hasked b).1 hb
      refine Nat.div_eq_of_lt_le ((Nat.div_mul_le_self _ _).trans hlo) ?_
      exact lt_of_lt_of_le hhi hone
    refine ⟨fun b hb => ?_, fun b hb => ?_⟩
    · obtain ⟨-, hhi⟩ := (hasked b).1 hb
      rw [covers_available held r hbound hcount, hsel b hhi, hchunk b hb]
      simp only [hhi, hheld, hfirst, le_refl, true_and]
    · rw [hchunk b hb, hheld]
      simp only [hmiss b, Bool.true_eq_false]

end

/-- A level reports exactly what it holds of a range, unless the end of the range wraps. -/
theorem exactReport_iff_endExact (ho : r.offset < 2 ^ 64) (hl : r.length < 2 ^ 64) :
    ExactReport d held r (checkResult d held (some r)) ↔ EndExact d held r := by
  unfold EndExact
  rcases Nat.lt_or_ge (r.offset + r.length) (2 ^ 64) with hr | hr
  · exact ⟨fun _ => .inl hr, fun _ => exactReport_of_no_wrap hbound hcount hr⟩
  · rcases Nat.lt_or_ge r.offset d.totalSize with hin | hin
    · rw [exactReport_iff_of_wrap hbound hcount ho hl hr hin, or_iff_right (Nat.not_lt.2 hr),
        or_iff_right (Nat.not_le.2 hin)]
    · -- nothing is asked for
      have hnone : ∀ b, ¬ d.Asked r b := by
        rintro b ⟨hlo, hhi⟩
        omega
      exact ⟨fun _ => .inr (.inl hin), fun _ => exactReport_iff.2
        ⟨fun b hb => absurd hb (hnone b), fun b hb => absurd hb (hnone b)⟩⟩

end

/-! ## In every run -/

theorem Describes.length_chunks {H : ByteBuffer → Hash128} {d : ValueDescriptor} {v : ByteBuffer}
    (h : Describes H d v) : d.chunks.length = blockCount chunkSize d.totalSize := by
  rw [h.chunks, length_chunkIds, h.totalSize]

namespace MemoryCache

/-- `check` in a state where the key has a descriptor. -/
theorem run_check {m : MemoryCache} {d : ValueDescriptor} (hd : m.descriptors key = some d)
    (range : Option Range) :
    (check key range).run m = (checkResult d m.chunkCache.contains range, m) :=
  run_checkValue (by rw [getDescriptor, Prog.run_atomic, hd]) (fun _ => rfl) range

/-- The check of a range is exact for the chunks in the ARC cache. -/
def CheckExact (m : MemoryCache) (key : CacheKey) (d : ValueDescriptor) (r : Range) : Prop :=
  ExactReport d m.chunkCache.contains r ((check key (some r)).run m).1

/-- Every descriptor of a run is that of a value of admissible size. -/
theorem descriptor_after {H : ByteBuffer → Hash128} {config : MemoryCacheConfig} {calls : List Call}
    {d : ValueDescriptor} (hd : (after H config calls).descriptors key = some d) :
    d.totalSize + chunkSize ≤ 2 ^ 64 ∧
      d.chunks.length = blockCount chunkSize d.totalSize := by
  obtain ⟨p, hp, -, rfl⟩ := (inv_after_accepts config calls).consistent.descriptor key d hd
  exact ⟨end_le_of_le_maxValueSize hp.2, (p.describes H).length_chunks⟩

end MemoryCache

namespace DiskCache

/-- `check` in a state where the key has a descriptor. -/
theorem run_check {disk : DiskCache} {d : ValueDescriptor} (hd : disk.descriptors key = some d)
    (range : Option Range) :
    (check key range).run disk =
      (checkResult d (fun id => (disk.chunkPaths id).isSome) range, disk) :=
  run_checkValue (by rw [getDescriptor, Prog.run_atomic, hd]) (fun _ => rfl) range

/-- The check of a range is exact for the chunks in the index. -/
def CheckExact (disk : DiskCache) (key : CacheKey) (d : ValueDescriptor) (r : Range) : Prop :=
  ExactReport d (fun id => (disk.chunkPaths id).isSome) r ((check key (some r)).run disk).1

section
variable {H : ByteBuffer → Hash128} {disk : DiskCache} {P : Set Put}

/-- Every descriptor is that of one of the puts. -/
def FromPuts (H : ByteBuffer → Hash128) (P : Set Put) (disk : DiskCache) : Prop :=
  ∀ key d, disk.descriptors key = some d → ∃ p ∈ P, p.descriptor H = d

/-- The store loop leaves the descriptors alone, however its writes end. -/
theorem descriptors_store (env : WriteEnv) (i : Nat) (chunks : List Chunk) (disk : DiskCache) :
    ((store H env i chunks).run disk).2.descriptors = disk.descriptors := by
  induction chunks generalizing disk i with
  | nil => rfl
  | cons c rest ih =>
    rw [run_store_cons]
    split
    · rw [ih, descriptors_writeChunk]
    · exact descriptors_writeChunk _ _ _ _

/-- A put leaves the descriptors as they were, or replaces the one of its key. -/
theorem descriptors_put (env : WriteEnv) (p : Put) (disk : DiskCache) :
    ((put H env p).run disk).2.descriptors = disk.descriptors ∨
      ((put H env p).run disk).2.descriptors =
        Function.update disk.descriptors p.key (some (p.descriptor H)) := by
  rcases Nat.lt_or_ge maxKeySize p.key.size with hlt | hle
  · rw [(run_put_rejected hlt).2]
    exact .inl rfl
  · have hstore : ((store H env 0 (splitValue p.value.bytes)).run
        ((makeRoom p.value.size).run disk).2).2.descriptors = disk.descriptors :=
      (descriptors_store env 0 _ _).trans (shrinks_makeRoom p.value.size disk).descriptor
    rw [run_put_of_le env p disk hle]
    dsimp only
    split
    · dsimp only
      split
      · exact .inr (congrArg (Function.update · p.key (some (p.descriptor H))) hstore)
      · exact .inl hstore
    · exact .inl hstore

theorem FromPuts.of_eq (h : disk.FromPuts H P) {disk' : DiskCache}
    (heq : disk'.descriptors = disk.descriptors) : disk'.FromPuts H P := by
  intro key d hd
  rw [heq] at hd
  exact h key d hd

/-- Of all calls, only `put` and `remove` change the descriptors. -/
theorem FromPuts.exec (h : disk.FromPuts H P) {call : Call}
    (hP : ∀ env p, call = .put env p → p ∈ P) : (exec H call disk).FromPuts H P := by
  cases call with
  | put env p =>
    rcases descriptors_put (H := H) env p disk with hkeep | hnew
    · exact h.of_eq hkeep
    · intro key d hd
      rw [DiskCache.exec, hnew, Function.update_apply] at hd
      split at hd
      · exact ⟨p, hP env p rfl, Option.some.inj hd⟩
      · exact h key d hd
  | get now k opts =>
    exact h.of_eq (congrArg LevelView.descriptor
      (observes_get (fun _ => True) now k opts disk trivial).2.1)
  | remove k =>
    intro key d hd
    rw [DiskCache.exec, descriptors_remove, Function.update_apply] at hd
    split at hd
    · cases hd
    · exact h key d hd
  | putChunk now outcome chunk =>
    cases chunk with
    | none => exact h
    | some c =>
      rw [DiskCache.exec, run_putChunk_some]
      exact h.of_eq (descriptors_writeChunk now outcome c disk)
  | removeChunk id => exact h.of_eq (congrArg LevelView.descriptor (view_removeChunk id disk))
  | evict bytesNeeded => exact h.of_eq (shrinks_evict bytesNeeded disk).descriptor

theorem fromPuts_after (config : DiskCacheConfig) (calls : List Call) :
    (after H config calls).FromPuts H (runPuts calls) := by
  refine runOps_inv (fun key d hd => by cases hd) fun call hcall disk h => h.exec ?_
  rintro env p rfl
  exact ⟨env, hcall⟩

end

/-- Every descriptor of a run is that of a value put. No object of a C++ program is larger than
`PTRDIFF_MAX`. -/
theorem descriptor_after {H : ByteBuffer → Hash128} {config : DiskCacheConfig} {calls : List Call}
    (hobj : ∀ p ∈ runPuts calls, p.value.size < 2 ^ 63) {d : ValueDescriptor}
    (hd : (after H config calls).descriptors key = some d) :
    d.totalSize + chunkSize ≤ 2 ^ 64 ∧
      d.chunks.length = blockCount chunkSize d.totalSize := by
  obtain ⟨p, hp, rfl⟩ := fromPuts_after config calls key d hd
  refine ⟨?_, (p.describes H).length_chunks⟩
  have hsize := hobj p hp
  have hchunk := chunkSize_le
  show p.value.size + chunkSize ≤ 2 ^ 64
  omega

end DiskCache

/-- In every state either level can reach, the check of a key with a descriptor ends, and its report
is exact for just the ranges whose end does not wrap, with the exceptions of `EndExact`. -/
theorem check_exact_iff (H : ByteBuffer → Hash128) (key : CacheKey) (d : ValueDescriptor)
    (r : Range) (ho : r.offset < 2 ^ 64) (hl : r.length < 2 ^ 64) :
    (∀ config calls, (MemoryCache.after H config calls).descriptors key = some d →
      let m := MemoryCache.after H config calls
      (∀ fuel, d.chunks.length ≤ fuel →
        (checked d m.chunkCache.contains r).missingRangesWithin fuel r =
          some ((MemoryCache.check key (some r)).run m).1.missingRanges) ∧
      (m.CheckExact key d r ↔ EndExact d m.chunkCache.contains r)) ∧
    (∀ config calls, (∀ p ∈ DiskCache.runPuts calls, p.value.size < 2 ^ 63) →
      (DiskCache.after H config calls).descriptors key = some d →
      let disk := DiskCache.after H config calls
      let held := fun id => (disk.chunkPaths id).isSome
      (∀ fuel, d.chunks.length ≤ fuel → (checked d held r).missingRangesWithin fuel r =
        some ((DiskCache.check key (some r)).run disk).1.missingRanges) ∧
      (disk.CheckExact key d r ↔ EndExact d held r)) := by
  refine ⟨fun config calls hd => ?_, fun config calls hobj hd => ?_⟩
  · obtain ⟨hbound, hcount⟩ := MemoryCache.descriptor_after hd
    simp only [MemoryCache.CheckExact, MemoryCache.run_check hd]
    exact ⟨fun fuel hfuel => checked_ends hbound hcount hfuel,
      exactReport_iff_endExact hbound hcount ho hl⟩
  · obtain ⟨hbound, hcount⟩ := DiskCache.descriptor_after hobj hd
    simp only [DiskCache.CheckExact, DiskCache.run_check hd]
    exact ⟨fun fuel hfuel => checked_ends hbound hcount hfuel,
      exactReport_iff_endExact hbound hcount ho hl⟩

/-- A memory level that knows the value and has lost its only chunk. -/
def emptied : MemoryCache :=
  MemoryCache.after sampleHash {} [.put (pairPut 1), .removeChunk ⟨sampleHash [7, 8]⟩]

/-- From offset 1 on, for `2 ^ 64 - 1` bytes, the value is reported complete though its only chunk
is gone. -/
theorem check_reports_emptied_complete :
    emptied.descriptors ⟨[1]⟩ = some ((pairPut 1).descriptor sampleHash) ∧
    ((MemoryCache.check ⟨[1]⟩ (some ⟨1, 2 ^ 64 - 1⟩)).run emptied).1.isComplete = true ∧
    ((pairPut 1).descriptor sampleHash).heldAt emptied.chunkCache.contains 0 = false ∧
    ¬ emptied.CheckExact ⟨[1]⟩ ((pairPut 1).descriptor sampleHash) ⟨1, 2 ^ 64 - 1⟩ := by
  have hcomplete :
      ((MemoryCache.check ⟨[1]⟩ (some ⟨1, 2 ^ 64 - 1⟩)).run emptied).1.isComplete = true := by
    decide +kernel
  have hgone :
      ((pairPut 1).descriptor sampleHash).heldAt emptied.chunkCache.contains 0 = false := by
    decide +kernel
  refine ⟨by decide +kernel, hcomplete, hgone, fun hexact => ?_⟩
  have hheld := hexact.complete hcomplete 1 ⟨le_rfl, by decide +kernel⟩
  rw [Nat.div_eq_of_lt (show 1 < chunkSize by decide +kernel), hgone] at hheld
  exact Bool.noConfusion hheld

/-- With the length cut to what the value has, the check finds the missing byte. -/
theorem check_exact_iff_emptied :
    emptied.CheckExact ⟨[1]⟩ ((pairPut 1).descriptor sampleHash) ⟨1, 1⟩ := by
  have h := (check_exact_iff sampleHash ⟨[1]⟩ ((pairPut 1).descriptor sampleHash) ⟨1, 1⟩ (by decide)
    (by decide)).1 {} [.put (pairPut 1), .removeChunk ⟨sampleHash [7, 8]⟩] (by decide +kernel)
  exact h.2.2 (.inl (by decide))

end ElCache
