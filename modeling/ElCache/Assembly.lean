import ElCache.Memory.Cache
import ElCache.Disk.Cache

/-!
# What the two assembly loops produce

The loops of `MemoryCache::assemble_value` and `DiskCache::get` walk the chunks a range needs with a
running offset. When some of these chunks are missing they go wrong in different ways, so each gets
a closed form as a concatenation of one piece per held chunk (`MemoryCache.assembleValue_eq`,
`DiskCache.assembleValue_eq`):

* the memory loop skips a whole `CHUNK_SIZE` for a missing chunk, so until the first held chunk it
  keeps the offset `o % CHUNK_SIZE` inside the chunk, where it does not belong;
* the disk loop does not move at all for a missing chunk, and stops once it has copied as many bytes
  as were asked for, wherever they came from.

With nothing missing, both are exact.
-/

namespace ElCache

open Slice

variable {p : Nat → Bool} {v : ByteBuffer} {o e i cur : Nat}

/-- Reading inside a block of `v` is reading `v`. -/
theorem read_block (c : Nat) (v : ByteBuffer) (i off len : Nat) :
    Chunk.read ⟨block c v i⟩ off len =
      slice v (i * c + off) (min ((i + 1) * c) (i * c + off + len)) := by
  rw [Chunk.read_eq, block, slice_slice, Nat.add_assoc]

theorem size_block (c : Nat) (v : ByteBuffer) (i : Nat) :
    Chunk.size ⟨block c v i⟩ = min c (v.length - i * c) :=
  length_block c v i

theorem div_mul_le_and_lt (o : Nat) : o / chunkSize * chunkSize + o % chunkSize = o ∧
    o % chunkSize < chunkSize :=
  ⟨Nat.div_add_mod' o chunkSize, Nat.mod_lt o chunkSize_pos⟩

/-- The first chunk a range needs ends behind the range's start. -/
theorem lt_succ_mul_of_div_le (h : o / chunkSize ≤ i) : o < (i + 1) * chunkSize :=
  (Nat.div_lt_iff_lt_mul chunkSize_pos).1 (Nat.lt_succ_of_le h)

theorem le_mul_of_div_lt (h : o / chunkSize < i) : o ≤ i * chunkSize :=
  ((Nat.div_lt_iff_lt_mul chunkSize_pos).1 h).le

/-- Pieces that agree with the cuts of the range tile its beginning. -/
theorem flatMap_pieces {f : Nat → ByteBuffer} {t : Nat} (ht : o / chunkSize ≤ t)
    (hf : ∀ i, o / chunkSize ≤ i → i < t →
      f i = slice v (cut chunkSize o e i) (cut chunkSize o e (i + 1))) :
    (List.range' (o / chunkSize) (t - o / chunkSize)).flatMap f =
      slice v o (cut chunkSize o e t) := by
  have h := flatMap_cut chunkSize v o e (t - o / chunkSize)
  rw [Nat.add_sub_cancel' ht] at h
  rw [← h]
  refine List.flatMap_congr fun i hi => ?_
  rw [List.mem_range'_1, Nat.add_sub_cancel' ht] at hi
  exact hf i hi.1 hi.2

/-- The offset inside a chunk that starts at `g`, as both loops compute it. -/
theorem offset_in_chunk (g cur : Nat) : (if g < cur then cur - g else 0) = max cur g - g := by
  split <;> omega

/-- How much a round copies from block `q` when it stands at `cur` and the range ends at `e`. -/
theorem toCopy_block {c n q : Nat} (hlen : e ≤ n) (hge : q * c ≤ cur) :
    min (e - cur) (min c (n - q * c) - (cur - q * c)) = min e ((q + 1) * c) - cur := by
  rw [Nat.succ_mul]
  omega

/-- What it copies. -/
theorem read_toCopy {c q : Nat} (hge : q * c ≤ cur) (hle : cur ≤ min e ((q + 1) * c)) :
    Chunk.read ⟨block c v q⟩ (cur - q * c) (min e ((q + 1) * c) - cur) =
      slice v cur (min e ((q + 1) * c)) := by
  have hstart : q * c + (cur - q * c) = cur := by omega
  have hstop : min ((q + 1) * c) (cur + (min e ((q + 1) * c) - cur)) = min e ((q + 1) * c) := by
    omega
  rw [read_block, hstart, hstop]

/-- The chunks a range touches start before its end. -/
theorem touched_mul_lt {o len j : Nat} (hlen : 0 < len)
    (hj : j < (o + len - 1) / chunkSize + 1 - o / chunkSize) :
    (o / chunkSize + 0 + j) * chunkSize < o + len := by
  refine ((mem_touched chunkSize_pos (o := o) (e := o + len) (by omega)).1 ?_).1
  rw [touched, List.mem_range'_1]
  omega

/-- If the next `k + 1` chunks start before `n`, so do the `k` behind the first. -/
theorem needed_tail {c n s k : Nat} (h : ∀ j < k + 1, (s + i + j) * c < n) :
    ∀ j < k, (s + (i + 1) + j) * c < n := by
  intro j hj
  have hnext := h (j + 1) (Nat.succ_lt_succ hj)
  rwa [show s + (i + 1) + j = s + i + (j + 1) by omega]

/-! ## The memory level -/

namespace MemoryCache

/-- Whether a chunk from `s` up to `i`, exclusively, is held. -/
def heldBefore (p : Nat → Bool) (s i : Nat) : Bool := (List.range' s (i - s)).any p

theorem heldBefore_self (p : Nat → Bool) (s : Nat) : heldBefore p s s = false := by
  simp [heldBefore]

theorem heldBefore_succ {s : Nat} (h : s ≤ i) :
    heldBefore p s (i + 1) = (heldBefore p s i || p i) := by
  have hlen : i + 1 - s = i - s + 1 := by omega
  have hlast : s + (i - s) = i := by omega
  rw [heldBefore, hlen, List.range'_concat, List.any_append, Nat.one_mul, hlast]
  simp [heldBefore]

theorem heldBefore_eq_true {s : Nat} :
    heldBefore p s i = true ↔ ∃ j, s ≤ j ∧ j < i ∧ p j = true := by
  simp only [heldBefore, List.any_eq_true, List.mem_range'_1]
  constructor
  · rintro ⟨j, ⟨hs, hi⟩, hp⟩
    exact ⟨j, hs, by omega, hp⟩
  · rintro ⟨j, hs, hi, hp⟩
    exact ⟨j, ⟨hs, by omega⟩, hp⟩

/-- Where the loop stands when it reaches chunk `i` of the range `[o, e)`. -/
def pieceStart (p : Nat → Bool) (o e i : Nat) : Nat :=
  min e (i * chunkSize + if heldBefore p (o / chunkSize) i then 0 else o % chunkSize)

/-- What the loop copies from chunk `i`. -/
def piece (p : Nat → Bool) (v : ByteBuffer) (o e i : Nat) : ByteBuffer :=
  if p i then slice v (pieceStart p o e i) (min e ((i + 1) * chunkSize)) else []

theorem pieceStart_bounds (p : Nat → Bool) (o : Nat) {e : Nat} (hi : i * chunkSize < e) :
    i * chunkSize ≤ pieceStart p o e i ∧ pieceStart p o e i ≤ min e ((i + 1) * chunkSize) := by
  obtain ⟨-, hmod⟩ := div_mul_le_and_lt o
  have hskew : (if heldBefore p (o / chunkSize) i then 0 else o % chunkSize) ≤ chunkSize := by
    split
    · exact Nat.zero_le _
    · exact hmod.le
  rw [pieceStart, Nat.succ_mul]
  generalize (if heldBefore p (o / chunkSize) i then 0 else o % chunkSize) = skew at *
  generalize chunkSize = c at *
  omega

theorem pieceStart_first (p : Nat → Bool) {o e : Nat} (ho : o ≤ e) :
    pieceStart p o e (o / chunkSize) = o := by
  rw [pieceStart, heldBefore_self, if_neg Bool.false_ne_true, (div_mul_le_and_lt o).1]
  exact Nat.min_eq_right ho

/-- After a held chunk the loop stands at the next boundary. -/
theorem pieceStart_succ_of_held (hi : o / chunkSize ≤ i) (hp : p i = true) :
    pieceStart p o e (i + 1) = min e ((i + 1) * chunkSize) := by
  rw [pieceStart, heldBefore_succ hi, hp, Bool.or_true]
  rfl

/-- After a missing one it stands a chunk further. -/
theorem pieceStart_succ_of_missing (hi : o / chunkSize ≤ i) (hp : p i = false) :
    pieceStart p o e (i + 1) = min e (pieceStart p o e i + chunkSize) := by
  rw [pieceStart, pieceStart, heldBefore_succ hi, hp, Bool.or_false, Nat.succ_mul]
  generalize (if heldBefore p (o / chunkSize) i then 0 else o % chunkSize) = skew
  generalize i * chunkSize = g
  generalize chunkSize = c
  omega

/-- One round of the loop over a held chunk. -/
theorem assembleLoop_held {s i rest} (hlen : e ≤ v.length) (hv : v.length < 2 ^ 64)
    (hge : (s + i) * chunkSize ≤ cur) (hle : cur ≤ min e ((s + i + 1) * chunkSize))
    (hrem : 0 < e - cur) :
    assembleLoop s (some ⟨block chunkSize v (s + i)⟩ :: rest) i cur (e - cur) =
      slice v cur (min e ((s + i + 1) * chunkSize)) ++
        assembleLoop s rest (i + 1) (min e ((s + i + 1) * chunkSize))
          (e - min e ((s + i + 1) * chunkSize)) := by
  rw [assembleLoop, if_neg (Nat.pos_iff_ne_zero.1 hrem)]
  simp only [offset_in_chunk]
  -- the kernel must not compute with the chunk size
  generalize chunkSize = c at *
  have hsucc : (s + i + 1) * c = (s + i) * c + c := Nat.succ_mul _ _
  have hmax : max cur ((s + i) * c) = cur := by omega
  have hsub : sub64 (Chunk.size ⟨block c v (s + i)⟩) (cur - (s + i) * c) =
      min c (v.length - (s + i) * c) - (cur - (s + i) * c) := by
    rw [size_block]
    exact sub64_of_le (by omega) (by omega)
  have hcur : cur + (min e ((s + i + 1) * c) - cur) = min e ((s + i + 1) * c) := by omega
  have hrest : e - cur - (min e ((s + i + 1) * c) - cur) = e - min e ((s + i + 1) * c) := by omega
  rw [hmax, hsub, toCopy_block hlen hge, read_toCopy hge hle, hcur, hrest]

/-- One round of the loop over a missing chunk. -/
theorem assembleLoop_missing {s i rest} (hle : cur ≤ e) :
    assembleLoop s (none :: rest) i cur (e - cur) =
      assembleLoop s rest (i + 1) (min e (cur + chunkSize)) (e - min e (cur + chunkSize)) := by
  rw [assembleLoop]
  split
  · next h =>
    have hend : e - min e (cur + chunkSize) = 0 := by omega
    rw [hend]
    cases rest with
    | nil => simp only [assembleLoop]
    | cons c rest => simp only [assembleLoop, if_true]
  · generalize chunkSize = c at *
    have hcur : cur + min (e - cur) c = min e (cur + c) := by omega
    have hrest : e - cur - min (e - cur) c = e - min e (cur + c) := by omega
    simp only [hcur, hrest]

/-- The loop from chunk position `i` on, when the range needs `k` more chunks. -/
theorem assembleLoop_eq (hlen : e ≤ v.length) (hv : v.length < 2 ^ 64) (k i : Nat)
    (hneed : ∀ j < k, (o / chunkSize + i + j) * chunkSize < e) :
    assembleLoop (o / chunkSize) ((List.range' (o / chunkSize + i) k).map (held p v)) i
        (pieceStart p o e (o / chunkSize + i)) (e - pieceStart p o e (o / chunkSize + i)) =
      (List.range' (o / chunkSize + i) k).flatMap (piece p v o e) := by
  induction k generalizing i with
  | zero => simp only [List.range'_zero, List.map_nil, List.flatMap_nil, assembleLoop]
  | succ k ih =>
    have hi : (o / chunkSize + i) * chunkSize < e := hneed 0 (Nat.succ_pos k)
    obtain ⟨hge, hle⟩ := pieceStart_bounds p o hi
    have ih' := ih (i + 1) (needed_tail hneed)
    have hfirst : o / chunkSize ≤ o / chunkSize + i := Nat.le_add_right _ _
    rw [List.range'_succ, List.map_cons, List.flatMap_cons, held, piece]
    cases hp : p (o / chunkSize + i) with
    | true =>
      simp only [if_true]
      rcases Nat.eq_zero_or_pos (e - pieceStart p o e (o / chunkSize + i)) with hzero | hpos
      · -- nothing remains, so this was the last chunk the range needs
        have hend : e ≤ pieceStart p o e (o / chunkSize + i) := Nat.sub_eq_zero_iff_le.1 hzero
        have hk : k = 0 := by
          rcases Nat.eq_zero_or_pos k with hk | hk
          · exact hk
          · exact absurd (hneed 1 (Nat.succ_lt_succ hk))
              (Nat.not_lt.2 (hend.trans (hle.trans (Nat.min_le_right _ _))))
        subst hk
        rw [hzero, slice_eq_nil ((Nat.min_le_left _ _).trans hend)]
        simp only [assembleLoop, if_true, List.range'_zero, List.flatMap_nil, List.append_nil]
      · rw [assembleLoop_held hlen hv hge hle hpos, ← pieceStart_succ_of_held hfirst hp]
        exact congrArg _ ih'
    | false =>
      simp only [Bool.false_eq_true, if_false, List.nil_append]
      rw [assembleLoop_missing (hle.trans (Nat.min_le_left _ _)),
        ← pieceStart_succ_of_missing hfirst hp]
      exact ih'

/-- The bytes `assemble_value` returns: one piece per held chunk. -/
theorem assembleValue_eq (hv : v.length < 2 ^ 64) {len : Nat} (hlen : 0 < len)
    (hle : o + len ≤ v.length) :
    assembleValue ((touched chunkSize o (o + len)).map (held p v)) ⟨o, len⟩ =
      (touched chunkSize o (o + len)).flatMap (piece p v o (o + len)) := by
  have h := assembleLoop_eq (p := p) (v := v) (o := o) hle hv _ 0 fun j hj => touched_mul_lt hlen hj
  rw [Nat.add_zero, pieceStart_first p (by omega), Nat.add_sub_cancel_left] at h
  exact h

/-- As long as no chunk is missing the pieces are those of the range. -/
theorem piece_of_held (ho : o ≤ e) (hi : o / chunkSize ≤ i)
    (hp : ∀ j, o / chunkSize ≤ j → j ≤ i → p j = true) :
    piece p v o e i = slice v (cut chunkSize o e i) (cut chunkSize o e (i + 1)) := by
  have hend : cut chunkSize o e (i + 1) = min e ((i + 1) * chunkSize) :=
    Nat.max_eq_right (Nat.le_min.2 ⟨ho, (lt_succ_mul_of_div_le hi).le⟩)
  have hstart : pieceStart p o e i = cut chunkSize o e i := by
    rcases Nat.eq_or_lt_of_le hi with rfl | hlt
    · rw [pieceStart_first p ho, cut_first]
    · have hbefore : heldBefore p (o / chunkSize) i = true :=
        heldBefore_eq_true.2 ⟨o / chunkSize, le_rfl, hlt, hp _ le_rfl hi⟩
      rw [pieceStart, hbefore]
      exact (Nat.max_eq_right (Nat.le_min.2 ⟨ho, le_mul_of_div_lt hlt⟩)).symm
  rw [piece, if_pos (hp i hi le_rfl), hstart, hend]

/-- With nothing missing, `assemble_value` is exact. -/
theorem exactAssembly : ExactAssembly assembleValue := by
  intro v o len hv hlen hle
  have h := assembleValue_eq (p := fun _ => true) (o := o) hv hlen hle
  have ht : o / chunkSize ≤ (o + len - 1) / chunkSize + 1 :=
    (Nat.div_le_div_right (by omega)).trans (Nat.le_succ _)
  have htile := flatMap_pieces (v := v) ht fun i hi _ =>
    piece_of_held (p := fun _ => true) (v := v) (e := o + len) (Nat.le_add_right o len) hi
      fun _ _ _ => rfl
  rw [cut_last chunkSize_pos (by omega)] at htile
  exact h.trans htile

/-- Whatever is missing, a piece lies between the cuts of the range around its chunk: the offset
that the loop has wrong is too far inside the chunk, never too far in front. -/
theorem piece_sublist (hoe : o ≤ e) (hi : o / chunkSize ≤ i) (hie : i * chunkSize < e) :
    (piece p v o e i).Sublist (slice v (cut chunkSize o e i) (cut chunkSize o e (i + 1))) := by
  unfold piece
  split
  · have hend : cut chunkSize o e (i + 1) = min e ((i + 1) * chunkSize) :=
      Nat.max_eq_right (Nat.le_min.2 ⟨hoe, (lt_succ_mul_of_div_le hi).le⟩)
    have hstart : cut chunkSize o e i ≤ pieceStart p o e i := by
      rcases Nat.eq_or_lt_of_le hi with rfl | hlt
      · rw [cut_first, pieceStart_first p hoe]
      · have hcut : cut chunkSize o e i = i * chunkSize := by
          have hbehind := le_mul_of_div_lt hlt
          unfold cut
          omega
        exact hcut.trans_le (pieceStart_bounds p o hie).1
    rw [hend]
    exact slice_sublist_slice v hstart _
  · exact List.nil_sublist _

/-- Whatever is missing, `assemble_value` returns bytes of the range in their order. -/
theorem orderedAssembly : OrderedAssembly assembleValue := by
  intro p v o len hv hlen hle
  have ht : o / chunkSize ≤ (o + len - 1) / chunkSize + 1 :=
    (Nat.div_le_div_right (by omega)).trans (Nat.le_succ _)
  have htile := flatMap_pieces (v := v) (e := o + len) ht fun i _ _ => rfl
  rw [cut_last chunkSize_pos (by omega)] at htile
  have hpieces : (assembleValue ((touched chunkSize o (o + len)).map (held p v)) ⟨o, len⟩).Sublist
      (slice v o (o + len)) := by
    rw [assembleValue_eq hv hlen hle, ← htile]
    refine List.Sublist.flatMap_right _ fun i hi => ?_
    exact piece_sublist (Nat.le_add_right o len) (List.mem_range'_1.1 hi).1
      ((mem_touched chunkSize_pos (by omega)).1 hi).1
  refine ⟨hpieces.trans (slice_sublist_drop v o _), hpieces.length_le.trans ?_⟩
  rw [length_slice]
  omega

end MemoryCache

/-! ## The disk level -/

namespace DiskCache

/-- What the loop has to copy from chunk `i`. -/
def piece (p : Nat → Bool) (v : ByteBuffer) (o i : Nat) : ByteBuffer :=
  if p i then slice v (max o (i * chunkSize)) ((i + 1) * chunkSize) else []

/-- One round of the loop over a held chunk. -/
theorem assembleLoop_held {s i} (rest : List (Option Chunk)) (hv : v.length < 2 ^ 64) {rem : Nat}
    (ho : max o ((s + i) * chunkSize) ≤ min v.length ((s + i + 1) * chunkSize))
    (hcur : max cur ((s + i) * chunkSize) = max o ((s + i) * chunkSize)) (hrem : 0 < rem) :
    ∃ cur', cur' ≤ (s + i + 1) * chunkSize ∧
      assembleLoop s (some ⟨block chunkSize v (s + i)⟩ :: rest) i cur rem =
        (slice v (max o ((s + i) * chunkSize)) ((s + i + 1) * chunkSize)).take rem ++
          assembleLoop s rest (i + 1) cur'
            (rem - (slice v (max o ((s + i) * chunkSize)) ((s + i + 1) * chunkSize)).length) := by
  have hclt := chunkSize_lt
  rw [assembleLoop, if_neg (Nat.pos_iff_ne_zero.1 hrem)]
  simp only [offset_in_chunk, hcur]
  generalize chunkSize = c at *
  have hsucc : (s + i + 1) * c = (s + i) * c + c := Nat.succ_mul _ _
  have hsub : sub64 (Chunk.size ⟨block c v (s + i)⟩) (max o ((s + i) * c) - (s + i) * c) =
      (slice v (max o ((s + i) * c)) ((s + i + 1) * c)).length := by
    rw [size_block, sub64_of_le (by omega) (by omega), length_slice]
    omega
  have hread : ∀ len, Chunk.read ⟨block c v (s + i)⟩ (max o ((s + i) * c) - (s + i) * c) len =
      (slice v (max o ((s + i) * c)) ((s + i + 1) * c)).take len := by
    intro len
    have hstart : (s + i) * c + (max o ((s + i) * c) - (s + i) * c) = max o ((s + i) * c) :=
      Nat.add_sub_cancel' (Nat.le_max_right _ _)
    rw [read_block, hstart, take_slice]
  have hlen := length_slice v (max o ((s + i) * c)) ((s + i + 1) * c)
  rw [hsub, hread]
  generalize slice v (max o ((s + i) * c)) ((s + i + 1) * c) = bytes at *
  refine ⟨cur + min rem bytes.length, ?_, ?_⟩
  · rw [hsucc] at ho hlen ⊢
    omega
  · rw [List.take_eq_take_iff.2 (show min (min rem bytes.length) bytes.length =
      min rem bytes.length by omega), show rem - min rem bytes.length = rem - bytes.length by omega]

/-- The loop from chunk position `i` on: the pieces, as far as bytes remain to be copied. -/
theorem assembleLoop_eq (hv : v.length < 2 ^ 64) (ho : o ≤ v.length) (k i cur rem : Nat)
    (hneed : ∀ j < k, (o / chunkSize + i + j) * chunkSize < v.length)
    (hcur : max cur ((o / chunkSize + i) * chunkSize) = max o ((o / chunkSize + i) * chunkSize)) :
    assembleLoop (o / chunkSize) ((List.range' (o / chunkSize + i) k).map (held p v)) i cur rem =
      ((List.range' (o / chunkSize + i) k).flatMap (piece p v o)).take rem := by
  induction k generalizing i cur rem with
  | zero => simp only [List.range'_zero, List.map_nil, List.flatMap_nil, List.take_nil,
    assembleLoop]
  | succ k ih =>
    have hi : (o / chunkSize + i) * chunkSize < v.length := hneed 0 (Nat.succ_pos k)
    -- the range starts before the end of the chunk
    have hnext : max o ((o / chunkSize + i) * chunkSize) ≤ (o / chunkSize + i + 1) * chunkSize := by
      obtain ⟨hdiv, hmod⟩ := div_mul_le_and_lt o
      have hmul := Nat.mul_le_mul_right chunkSize (Nat.le_add_right (o / chunkSize) i)
      rw [Nat.succ_mul]
      generalize (o / chunkSize + i) * chunkSize = g at *
      generalize o / chunkSize * chunkSize = q at *
      generalize o % chunkSize = m at *
      generalize chunkSize = c at *
      omega
    have ih' : ∀ {cur' : Nat} (rem' : Nat), cur' ≤ (o / chunkSize + i + 1) * chunkSize → _ :=
      fun {cur'} rem' hcur' => ih (i + 1) cur' rem' (needed_tail hneed)
        (by rw [← Nat.add_assoc, Nat.max_eq_right hcur',
          Nat.max_eq_right ((Nat.le_max_left _ _).trans hnext)])
    rw [List.range'_succ, List.map_cons, List.flatMap_cons, held, piece]
    rcases Nat.eq_zero_or_pos rem with rfl | hrem
    · cases hp : p (o / chunkSize + i) <;> simp [assembleLoop]
    · cases hp : p (o / chunkSize + i) with
      | false =>
        simp only [Bool.false_eq_true, if_false, List.nil_append]
        rw [assembleLoop, if_neg (Nat.pos_iff_ne_zero.1 hrem)]
        exact ih' rem ((Nat.le_max_left _ _).trans (hcur.le.trans hnext))
      | true =>
        simp only [if_true]
        obtain ⟨cur', hcur', hloop⟩ := assembleLoop_held ((List.range'
          (o / chunkSize + i + 1) k).map (held p v)) hv
            (Nat.le_min.2 ⟨Nat.max_le.2 ⟨ho, hi.le⟩, hnext⟩) hcur hrem
        rw [hloop, List.take_append]
        exact congrArg _ (ih' _ hcur')

/-- The bytes `DiskCache::get` assembles: the pieces of the held chunks, cut off at the length asked
for. -/
theorem assembleValue_eq (hv : v.length < 2 ^ 64) {len : Nat} (hlen : 0 < len)
    (hle : o + len ≤ v.length) :
    assembleValue ((touched chunkSize o (o + len)).map (held p v)) ⟨o, len⟩ =
      ((touched chunkSize o (o + len)).flatMap (piece p v o)).take len := by
  have hneed : ∀ j < (o + len - 1) / chunkSize + 1 - o / chunkSize,
      (o / chunkSize + 0 + j) * chunkSize < v.length :=
    fun j hj => Nat.lt_of_lt_of_le (touched_mul_lt hlen hj) hle
  exact assembleLoop_eq hv (Nat.le_trans (Nat.le_add_right o len) hle) _ 0 _ _ hneed rfl

/-- As long as no chunk is missing and the range goes on behind the chunk, the pieces are those of
the range. -/
theorem piece_of_held (hi : o / chunkSize ≤ i) (hp : p i = true) (he : (i + 1) * chunkSize ≤ e) :
    piece p v o i = slice v (cut chunkSize o e i) (cut chunkSize o e (i + 1)) := by
  have hmul : i * chunkSize ≤ e := (Nat.mul_le_mul_right _ (Nat.le_succ i)).trans he
  rw [piece, if_pos hp, cut, cut, Nat.min_eq_right hmul, Nat.min_eq_right he,
    Nat.max_eq_right (lt_succ_mul_of_div_le hi).le]

/-- With nothing missing, the pieces tile the value from the start of the range to the end of the
last chunk needed. -/
theorem flatMap_piece_all (v : ByteBuffer) {o e : Nat} (hoe : o < e) :
    (touched chunkSize o e).flatMap (piece (fun _ => true) v o) =
      slice v o (((e - 1) / chunkSize + 1) * chunkSize) := by
  have hs : o / chunkSize ≤ (e - 1) / chunkSize := Nat.div_le_div_right (by omega)
  -- each piece starts where the one before it ends
  have htile := flatMap_slice_of_mono v (fun i => max o (i * chunkSize))
    (fun i => max_le_max le_rfl (Nat.mul_le_mul_right _ (Nat.le_succ i))) (o / chunkSize)
    ((e - 1) / chunkSize + 1 - o / chunkSize)
  have hcongr : (touched chunkSize o e).flatMap (piece (fun _ => true) v o) =
      (touched chunkSize o e).flatMap
        fun i => slice v (max o (i * chunkSize)) (max o ((i + 1) * chunkSize)) := by
    refine List.flatMap_congr fun i hi => ?_
    have hi' := (List.mem_range'_1.1 hi).1
    rw [piece, if_pos rfl, Nat.max_eq_right (lt_succ_mul_of_div_le hi').le]
  have hstart : max o (o / chunkSize * chunkSize) = o :=
    Nat.max_eq_left (Nat.div_mul_le_self o chunkSize)
  rw [Nat.add_sub_cancel' (by omega), hstart,
    Nat.max_eq_right (lt_succ_mul_of_div_le hs).le] at htile
  rw [hcongr, touched, htile]

/-- With nothing missing, the assembly of `DiskCache::get` is exact. -/
theorem exactAssembly : ExactAssembly assembleValue := by
  intro v o len hv hlen hle
  have hend : o + len ≤ ((o + len - 1) / chunkSize + 1) * chunkSize := by
    have := lt_succ_mul_of_div_le (o := o + len - 1) le_rfl
    omega
  refine (assembleValue_eq (p := fun _ => true) hv hlen hle).trans ?_
  rw [flatMap_piece_all v (by omega), take_slice, Nat.min_eq_right hend]

/-- Whatever is missing, the assembly of `DiskCache::get` returns bytes of the value in their order,
from the start of the range on; as it stops by the number of bytes copied, they may reach behind the
end of the range. -/
theorem orderedAssembly : OrderedAssembly assembleValue := by
  intro p v o len hv hlen hle
  rw [assembleValue_eq hv hlen hle]
  have hall : ((touched chunkSize o (o + len)).flatMap (piece p v o)).Sublist
      ((touched chunkSize o (o + len)).flatMap (piece (fun _ => true) v o)) := by
    refine List.Sublist.flatMap_right _ fun i _ => ?_
    rw [piece, piece, if_pos rfl]
    split
    · exact List.Sublist.refl _
    · exact List.nil_sublist _
  rw [flatMap_piece_all v (by omega)] at hall
  exact ⟨((List.take_sublist _ _).trans hall).trans (slice_sublist_drop v o _),
    List.length_take_le _ _⟩

end DiskCache

end ElCache
