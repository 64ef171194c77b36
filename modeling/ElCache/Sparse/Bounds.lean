import ElCache.Sparse.Cache

/-!
# Sparse writes and the bounds of the entry

`SparseEntry::write_range` compares the end of the range, computed in 64 bits, with the size of the
entry, and then writes from the start of the range on. When the sum wraps, the end can be small
while the start is far behind the entry. `writesInside_iff` says exactly when a write that is
accepted stays inside.
-/

namespace ElCache

namespace SparseEntry

open Overlay

/-- The vectors of the entry have its size. -/
structure WF (e : SparseEntry) : Prop where
  data : e.data.length = e.totalSize
  written : e.written.length = e.totalSize

theorem wf_init (size : Nat) : (init size).WF where
  data := List.length_replicate
  written := List.length_replicate

/-- The positions at which `SparseEntry::write_range` writes: those that `memcpy` fills in `data`,
and those that the loop sets in `written`. -/
def writePositions (e : SparseEntry) (offset len : Nat) : List Nat :=
  if e.totalSize < wrap64 (offset + len) then []
  else (List.range len).map fun i => wrap64 (offset + i)

/-- A write stays inside the entry: the range does, the positions written are those of the range,
and nothing else changes. -/
structure WritesInside (e : SparseEntry) (offset : Nat) (buf : ByteBuffer) : Prop where
  bound : offset + buf.length ≤ e.totalSize
  positions : e.writePositions offset buf.length = List.range' offset buf.length
  below : ∀ i ∈ e.writePositions offset buf.length, i < e.totalSize
  stores : ∀ i < buf.length, (e.writeRange offset buf).2.data[offset + i]? = buf[i]? ∧
    (e.writeRange offset buf).2.written[offset + i]? = some true
  keeps : ∀ i, i ∉ e.writePositions offset buf.length →
    (e.writeRange offset buf).2.data[i]? = e.data[i]? ∧
    (e.writeRange offset buf).2.written[i]? = e.written[i]?

variable {e : SparseEntry} {offset : Nat} {buf : ByteBuffer}

/-- What overwriting leaves inside the range and outside of it. -/
theorem getElem?_overwrite_of_fits {α : Type} {v b : List α} {o : Nat}
    (h : o + b.length ≤ v.length) : (∀ i < b.length, (overwrite v o b)[o + i]? = b[i]?) ∧
      ∀ i, i ∉ List.range' o b.length → (overwrite v o b)[i]? = v[i]? := by
  constructor
  · intro i hi
    rw [getElem?_overwrite, List.getElem?_eq_getElem (show o + i < v.length by omega), Write.stored,
      if_pos (Nat.le_add_right o i), Nat.add_sub_cancel_left, List.getElem?_eq_getElem hi]
    rfl
  · intro i hi
    rw [List.mem_range'_1] at hi
    have hnone : (⟨o, b⟩ : Write α).stored i = none := by
      rw [Write.stored]
      split
      · next hle =>
        have hle' : o ≤ i := hle
        exact List.getElem?_eq_none (show b.length ≤ i - o by omega)
      · rfl
    rw [getElem?_overwrite, hnone]
    exact Option.map_id'

/-- A range that ends inside the entry is written there. -/
theorem WF.writesInside (h : e.WF) (hsize : e.totalSize < 2 ^ 64)
    (hbound : offset + buf.length ≤ e.totalSize) : e.WritesInside offset buf := by
  have hwrap : ¬ e.totalSize < wrap64 (offset + buf.length) := by
    rw [wrap64_of_lt (by omega)]
    omega
  have hpos : e.writePositions offset buf.length = List.range' offset buf.length := by
    rw [writePositions, if_neg hwrap, List.range'_eq_map_range]
    apply List.map_congr_left
    intro i hi
    exact wrap64_of_lt (by have := List.mem_range.1 hi; omega)
  have hdata := getElem?_overwrite_of_fits (b := buf) (hbound.trans h.data.ge)
  have hwritten := getElem?_overwrite_of_fits (v := e.written) (b := List.replicate buf.length true)
    (o := offset) (by rw [List.length_replicate, h.written]; exact hbound)
  rw [List.length_replicate] at hwritten
  refine ⟨hbound, hpos, ?_, ?_, ?_⟩
  · intro i hi
    rw [hpos, List.mem_range'_1] at hi
    omega
  · intro i hi
    rw [writeRange, if_neg hwrap]
    refine ⟨hdata.1 i hi, (hwritten.1 i hi).trans ?_⟩
    rw [List.getElem?_replicate, if_pos hi]
  · intro i hi
    rw [hpos] at hi
    rw [writeRange, if_neg hwrap]
    exact ⟨hdata.2 i hi, hwritten.2 i hi⟩

/-- A write that is accepted stays inside the entry if and only if the end of its range does not
wrap, or wraps to a number beyond the size, so that it is not accepted. -/
theorem writesInside_iff (e : SparseEntry) (h : e.WF) (hsize : e.totalSize < 2 ^ 64) (offset : Nat)
    (buf : ByteBuffer) :
    ((e.writeRange offset buf).1 = true → e.WritesInside offset buf) ↔
      (offset + buf.length < 2 ^ 64 ∨ e.totalSize < (offset + buf.length) % 2 ^ 64) := by
  have haccept : (e.writeRange offset buf).1 = true ↔
      (offset + buf.length) % 2 ^ 64 ≤ e.totalSize := by
    rw [writeRange, wrap64]
    split
    · next hlt => exact ⟨nofun, fun hle => absurd hlt (Nat.not_lt.2 hle)⟩
    · next hle => exact ⟨fun _ => Nat.not_lt.1 hle, fun _ => rfl⟩
  rw [haccept]
  constructor
  · intro hinside
    by_contra hnot
    rw [not_or, Nat.not_lt, Nat.not_lt] at hnot
    have hbound := (hinside hnot.2).bound
    omega
  · rintro (hnowrap | hbeyond) hle
    · rw [Nat.mod_eq_of_lt hnowrap] at hle
      exact h.writesInside hsize hle
    · omega

/-- Two bytes at the end of an entry of three. -/
theorem writesInside_iff_end : (init 3).WritesInside 1 [7, 8] :=
  (writesInside_iff (init 3) (wf_init 3) (by decide) 1 [7, 8]).2 (.inl (by decide)) rfl

/-- One byte at the last 64-bit offset is accepted by an empty entry. -/
theorem writeRange_outside : ((init 0).writeRange (2 ^ 64 - 1) [7]).1 = true ∧
    ¬ (init 0).WritesInside (2 ^ 64 - 1) [7] := by
  refine ⟨by decide, fun h => ?_⟩
  exact absurd h.bound (by decide)

end SparseEntry

end ElCache
