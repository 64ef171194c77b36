import ElCache.Availability.Check
import ElCache.Coordinator.Cache

/-!
# Merged availability

`CacheCoordinator::check` appends the available ranges of the disk level to the answer of the memory
level and keeps the missing ranges of the latter. A chunk that only the disk level holds is then in
both lists, and a value the levels hold between them is not reported complete
(`merged_consistent_iff`).
-/

namespace ElCache

open Slice Runs

namespace CacheCoordinator

/-- What `check` answers when both levels have a descriptor. -/
def mergedResult (dm dd : ValueDescriptor) (heldM heldD : ChunkId → Bool) (range : Option Range) :
    AvailabilityResult :=
  if (checkResult dm heldM range).isComplete then checkResult dm heldM range
  else { checkResult dm heldM range with
    availableRanges := (checkResult dm heldM range).availableRanges ++
      (checkResult dd heldD range).availableRanges }

section
variable {c : CacheCoordinator} {m : MemoryCache} {disk : DiskCache} {key : CacheKey}
  {dm dd : ValueDescriptor}

/-- The check of a key that both levels know looks at nothing else. -/
theorem run_check (hm : c.memory = some m) (hd : c.disk = some disk)
    (hdm : m.descriptors key = some dm) (hdd : disk.descriptors key = some dd)
    (cluster : Option CheckView) (range : Option Range) :
    (check cluster key range).run c =
      (mergedResult dm dd m.chunkCache.contains (fun id => (disk.chunkPaths id).isSome) range,
        c) := by
  have hmem : (onMemory (MemoryCache.check key range)).run c =
      (some (checkResult dm m.chunkCache.contains range), c) := by
    simp only [onMemory, Prog.run_atomic, hm, MemoryCache.run_check hdm]
    rw [← hm]
  have hdisk : (onDisk (DiskCache.check key range)).run c =
      (some (checkResult dd (fun id => (disk.chunkPaths id).isSome) range), c) := by
    simp only [onDisk, Prog.run_atomic, hd, DiskCache.run_check hdd]
    rw [← hd]
  rw [check, Prog.run_bind, hmem, mergedResult]
  simp only [Option.getD_some]
  split
  · rfl
  · rw [Prog.run_bind, hdisk]
    cases cluster with
    | none => rfl
    | some cl => rfl

end

/-- The answer of `check` for a range: no byte is listed as available and as missing, and it is
complete exactly if each byte of the range is held by a level. -/
structure MergedConsistent (d : ValueDescriptor) (heldM heldD : ChunkId → Bool) (r : Range)
    (res : AvailabilityResult) : Prop where
  disjoint : ∀ b, ¬ (Covers (res.availableRanges.map Range.span) b ∧
    Covers (res.missingRanges.map Range.span) b)
  complete : res.isComplete = true ↔ ∀ b, r.offset ≤ b → b < r.offset + r.length →
    d.heldAt heldM (b / chunkSize) = true ∨ d.heldAt heldD (b / chunkSize) = true

section
variable {H : ByteBuffer → Hash128} {dm dd : ValueDescriptor} {v : ByteBuffer}
  {heldM heldD : ChunkId → Bool} {r : Range}

/-- Descriptors of one value agree in what a check looks at. -/
theorem heldAt_eq (hm : Describes H dm v) (hd : Describes H dd v) (held : ChunkId → Bool)
    (i : Nat) : dd.heldAt held i = dm.heldAt held i := by
  rw [ValueDescriptor.heldAt, ValueDescriptor.heldAt, hm.chunks, hd.chunks]

/-- Inside the range, the merged list covers what either level holds. -/
theorem covers_merged (hm : Describes H dm v) (hd : Describes H dd v)
    (hv : v.length ≤ maxValueSize) (hr : r.offset + r.length < 2 ^ 64) {b : Nat}
    (hb : dm.Asked r b) :
    Covers (((checkResult dm heldM (some r)).availableRanges ++
        (checkResult dd heldD (some r)).availableRanges).map Range.span) b ↔
      dm.heldAt heldM (b / chunkSize) = true ∨ dm.heldAt heldD (b / chunkSize) = true := by
  have hbm : dm.totalSize + chunkSize ≤ 2 ^ 64 :=
    PartialValue.end_le_of_le_maxValueSize (hm.totalSize.trans_le hv)
  have hbd : dd.totalSize + chunkSize ≤ 2 ^ 64 :=
    PartialValue.end_le_of_le_maxValueSize (hd.totalSize.trans_le hv)
  have hb' : dd.Asked r b := by
    rwa [ValueDescriptor.Asked, hd.totalSize, ← hm.totalSize]
  have hmemory := covers_available heldM r hbm hm.length_chunks b
  have hdisk := covers_available heldD r hbd hd.length_chunks b
  simp only [selected_of_asked hm.length_chunks hr hb, true_and] at hmemory
  simp only [selected_of_asked hd.length_chunks hr hb', true_and, heldAt_eq hm hd] at hdisk
  rw [List.map_append, covers_append]
  exact or_congr hmemory hdisk

/-- The missing ranges are those of the memory level, so what only the disk level holds is listed as
both. -/
theorem mergedConsistent_iff (hm : Describes H dm v) (hd : Describes H dd v)
    (hv : v.length ≤ maxValueSize) (hr : r.offset + r.length ≤ v.length) :
    MergedConsistent dm heldM heldD r (mergedResult dm dd heldM heldD (some r)) ↔
      ∀ b, r.offset ≤ b → b < r.offset + r.length →
        dm.heldAt heldD (b / chunkSize) = true → dm.heldAt heldM (b / chunkSize) = true := by
  have hbm : dm.totalSize + chunkSize ≤ 2 ^ 64 :=
    PartialValue.end_le_of_le_maxValueSize (hm.totalSize.trans_le hv)
  have hwrap : r.offset + r.length < 2 ^ 64 := by
    have := maxValueSize_lt
    omega
  have hasked : ∀ b, dm.Asked r b ↔ r.offset ≤ b ∧ b < r.offset + r.length := by
    intro b
    rw [ValueDescriptor.Asked, hm.totalSize, Nat.min_eq_left hr]
  have hmissing := covers_missing_of_no_wrap heldM hbm hm.length_chunks hwrap
  have hcomplete := isComplete_checkResult heldM hbm hm.length_chunks hwrap
  rw [mergedResult]
  split
  · next hc =>
    -- the memory level has everything: its answer is returned as it is
    rw [hcomplete] at hc
    refine ⟨fun _ b hlo hhi _ => hc b ((hasked b).2 ⟨hlo, hhi⟩), fun _ => ⟨fun b hb => ?_, ?_⟩⟩
    · have hgap := (hmissing b).1 hb.2
      rw [hc b hgap.1] at hgap
      exact Bool.noConfusion hgap.2
    · rw [hcomplete]
      exact ⟨fun _ b hlo hhi => .inl (hc b ((hasked b).2 ⟨hlo, hhi⟩)), fun _ => hc⟩
  · next hc =>
    constructor
    · -- a byte only the disk level holds is listed twice
      rintro ⟨hdisj, -⟩ b hlo hhi hheld
      by_contra hnot
      have hb : dm.Asked r b := (hasked b).2 ⟨hlo, hhi⟩
      exact hdisj b ⟨(covers_merged hm hd hv hwrap hb).2 (.inr hheld),
        (hmissing b).2 ⟨hb, Bool.eq_false_iff.2 hnot⟩⟩
    · intro hcond
      refine ⟨?_, ?_⟩
      · rintro b ⟨havail, hgap⟩
        obtain ⟨hb, hnot⟩ := (hmissing b).1 hgap
        obtain ⟨hlo, hhi⟩ := (hasked b).1 hb
        have hheld : dm.heldAt heldM (b / chunkSize) = true :=
          ((covers_merged hm hd hv hwrap hb).1 havail).elim id (hcond b hlo hhi)
        rw [hheld] at hnot
        exact Bool.noConfusion hnot
      · -- both sides are false: some byte is in neither level
        refine ⟨fun h => absurd h hc, fun hall => absurd (hcomplete.2 fun b hb => ?_) hc⟩
        obtain ⟨hlo, hhi⟩ := (hasked b).1 hb
        exact (hall b hlo hhi).elim id (hcond b hlo hhi)

end

/-- For a value both levels know, the merged answer for a range inside it is consistent exactly if
the disk level holds no chunk of the range that the memory level lacks. -/
theorem merged_consistent_iff (H : ByteBuffer → Hash128) (c : CacheCoordinator) (m : MemoryCache)
    (disk : DiskCache) (hm : c.memory = some m) (hd : c.disk = some disk) (key : CacheKey)
    (v : ByteBuffer) (hv : v.length ≤ maxValueSize) (dm dd : ValueDescriptor)
    (hdm : m.descriptors key = some dm) (hdd : disk.descriptors key = some dd)
    (hdescm : Describes H dm v) (hdescd : Describes H dd v) (cluster : Option CheckView) (r : Range)
    (hr : r.offset + r.length ≤ v.length) :
    MergedConsistent dm m.chunkCache.contains (fun id => (disk.chunkPaths id).isSome) r
        ((check cluster key (some r)).run c).1 ↔
      ∀ b, r.offset ≤ b → b < r.offset + r.length →
        dm.heldAt (fun id => (disk.chunkPaths id).isSome) (b / chunkSize) = true →
          dm.heldAt m.chunkCache.contains (b / chunkSize) = true := by
  rw [run_check hm hd hdm hdd]
  exact mergedConsistent_iff hdescm hdescd hv hr

/-- A disk level that was given a value of two bytes. -/
def pairDisk : DiskCache := DiskCache.after sampleHash {} [.put { tick := fun _ => 0 } (pairPut 1)]

/-- A coordinator that was given the value, with what is left of it in memory. -/
def pairState (memory : MemoryCache) : CacheCoordinator := ⟨{}, some memory, some pairDisk⟩

/-- While both levels hold the value, the answer for all of it is consistent. -/
theorem merged_consistent_iff_pair :
    MergedConsistent ((pairPut 1).descriptor sampleHash)
      (MemoryCache.after sampleHash {} [.put (pairPut 1)]).chunkCache.contains
      (fun id => (pairDisk.chunkPaths id).isSome) ⟨0, 2⟩
      ((check none ⟨[1]⟩ (some ⟨0, 2⟩)).run
        (pairState (MemoryCache.after sampleHash {} [.put (pairPut 1)]))).1 := by
  refine (merged_consistent_iff sampleHash (pairState _) _ _ rfl rfl ⟨[1]⟩ (pairPut 1).value.bytes
    (by decide) ((pairPut 1).descriptor sampleHash) ((pairPut 1).descriptor sampleHash)
    (by decide +kernel) (by decide +kernel) ((pairPut 1).describes _) ((pairPut 1).describes _) none
    ⟨0, 2⟩ (by decide)).2 ?_
  intro b _ hb _
  have hlt : b < chunkSize := lt_trans hb (by decide +kernel)
  rw [Nat.div_eq_of_lt hlt]
  decide +kernel

/-- When the memory level has lost the chunk, both bytes are listed as available and as missing, and
the answer is not complete though the disk level has the value. -/
theorem check_lists_twice :
    ((check none ⟨[1]⟩ (some ⟨0, 2⟩)).run (pairState emptied)).1.isComplete = false ∧
    ¬ MergedConsistent ((pairPut 1).descriptor sampleHash) emptied.chunkCache.contains
      (fun id => (pairDisk.chunkPaths id).isSome) ⟨0, 2⟩
      ((check none ⟨[1]⟩ (some ⟨0, 2⟩)).run (pairState emptied)).1 := by
  have havail : ((check none ⟨[1]⟩ (some ⟨0, 2⟩)).run (pairState emptied)).1.availableRanges =
      [⟨0, 2⟩] := by
    decide +kernel
  have hmiss : ((check none ⟨[1]⟩ (some ⟨0, 2⟩)).run (pairState emptied)).1.missingRanges =
      [⟨0, 2⟩] := by
    decide +kernel
  refine ⟨by decide +kernel, fun h => h.disjoint 0 ?_⟩
  rw [havail, hmiss]
  exact ⟨covers_singleton.2 (by decide), covers_singleton.2 (by decide)⟩

end CacheCoordinator

end ElCache
