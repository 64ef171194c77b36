import ElCache.Memory.Spec
import ElCache.Disk.Spec

/-!
# What the assembly loops make of gaps

A partial hit says which bytes it returns: `actual_range` is the requested offset with the number of
bytes returned. This is right when the chunks that are missing are the last ones the range needs
(`Gapless`). When a held chunk follows a missing one, both assembly loops close the gap silently,
and the bytes behind it are returned as if they stood in it. For the memory level there is one more
harmless case (`MemoryCache.HeldTooLate`): when the first needed chunk is missing, the loop keeps
the offset inside it, which can carry it past the bytes of the only chunk held, and nothing is
returned.

That the other cases go wrong is shown on a value whose missing chunks are zeros and whose held
chunks are ones (`markedValue`): a closed gap then shows a one where the value has a zero.
-/

namespace ElCache

open Slice

/-- The chunks a range of a value of `n` bytes needs. -/
def neededChunks (n : Nat) (range : Option Range) : List Nat :=
  let r := range.getD ⟨0, n⟩
  touched chunkSize r.offset (r.offset + min r.length (n - r.offset))

/-- No held chunk follows a missing one. -/
def Gapless (S : Nat → Bool) (needed : List Nat) : Prop :=
  ∀ i ∈ needed, ∀ j ∈ needed, i < j → S j = true → S i = true

/-- A partial hit is labelled correctly: it has as many bytes as `actual_range` says, and they are
the bytes of the value there. -/
def LabelsBytes (v : ByteBuffer) (r : ReadResult) : Prop :=
  r.isPartial = true → r.data.length = r.actualRange.length ∧
    r.data = slice v r.actualRange.offset (r.actualRange.offset + r.actualRange.length)

/-- An empty range has no gap. -/
theorem gapless_empty (S : Nat → Bool) (o : Nat) : Gapless S (touched chunkSize o o) := by
  intro i hi j hj hij
  have hle : (o - 1) / chunkSize ≤ o / chunkSize := Nat.div_le_div_right (Nat.sub_le o 1)
  rw [touched, List.mem_range'_1] at hi hj
  omega

/-! ## The first missing chunk -/

section
variable {S : Nat → Bool} {o e : Nat}

/-- When some needed chunk is missing, there is a first one. -/
theorem exists_first_missing {needed : List Nat} (h : needed.all S = false) :
    ∃ t ∈ needed, S t = false ∧ ∀ i ∈ needed, i < t → S i = true := by
  have hex : ∃ t, t ∈ needed ∧ S t = false := by
    rw [List.all_eq_false] at h
    obtain ⟨t, ht, hS⟩ := h
    exact ⟨t, ht, by simpa using hS⟩
  classical
  refine ⟨Nat.find hex, (Nat.find_spec hex).1, (Nat.find_spec hex).2, fun i hi hlt => ?_⟩
  have hmin := Nat.find_min hex hlt
  simpa [hi] using hmin

/-- The needed chunks, split at one of them. -/
theorem touched_split {t : Nat} (ht : t ∈ touched chunkSize o e) :
    touched chunkSize o e = List.range' (o / chunkSize) (t - o / chunkSize) ++
      t :: List.range' (t + 1) ((e - 1) / chunkSize - t) := by
  rw [touched, List.mem_range'_1] at ht
  have hlen : (e - 1) / chunkSize + 1 - o / chunkSize =
      (t - o / chunkSize) + ((e - 1) / chunkSize - t + 1) := by omega
  have hstart : o / chunkSize + (t - o / chunkSize) = t := by omega
  rw [touched, hlen, ← List.range'_append_1, hstart, List.range'_succ]

/-- A chunk of the second part of the split is needed and comes after. -/
theorem mem_touched_of_mem_rest {t i : Nat} (ht : t ∈ touched chunkSize o e)
    (hi : i ∈ List.range' (t + 1) ((e - 1) / chunkSize - t)) : i ∈ touched chunkSize o e ∧
      t < i := by
  rw [touched_split ht]
  refine ⟨List.mem_append_right _ (List.mem_cons_of_mem _ hi), ?_⟩
  rw [List.mem_range'_1] at hi
  omega

/-- A chunk that is needed and comes after is in the second part of the split. -/
theorem mem_rest_of_mem_touched {t i : Nat} (hi : i ∈ touched chunkSize o e) (hlt : t < i) :
    i ∈ List.range' (t + 1) ((e - 1) / chunkSize - t) := by
  rw [touched, List.mem_range'_1] at hi
  rw [List.mem_range'_1]
  omega

/-- The position where the first missing chunk cuts the range. -/
theorem cut_mem_chunk {t : Nat} (hoe : o < e) (ht : t ∈ touched chunkSize o e) :
    cut chunkSize o e t / chunkSize = t ∧ o ≤ cut chunkSize o e t ∧ cut chunkSize o e t < e := by
  obtain ⟨hte, hot⟩ := (mem_touched chunkSize_pos hoe).1 ht
  have hcut : cut chunkSize o e t = max o (t * chunkSize) := by
    rw [cut, Nat.min_eq_right hte.le]
  refine ⟨?_, ?_, ?_⟩
  · rw [hcut]
    refine Nat.div_eq_of_lt_le (Nat.le_max_right _ _) (Nat.max_lt.2 ⟨hot, ?_⟩)
    exact Nat.mul_lt_mul_of_pos_right (Nat.lt_succ_self t) chunkSize_pos
  · exact Nat.le_max_left _ _
  · rw [hcut]
    exact Nat.max_lt.2 ⟨hoe, hte⟩

end

/-! ## What is assembled around a gap -/

/-- Up to the first missing chunk, from which nothing is copied, exact pieces make up the value. -/
theorem flatMap_split_of_exact {v : ByteBuffer} {o e t : Nat} {piece : Nat → ByteBuffer}
    (ht : t ∈ touched chunkSize o e) (hnone : piece t = [])
    (hexact : ∀ i, o / chunkSize ≤ i → i < t →
      piece i = slice v (cut chunkSize o e i) (cut chunkSize o e (i + 1))) :
    (touched chunkSize o e).flatMap piece = slice v o (cut chunkSize o e t) ++
      (List.range' (t + 1) ((e - 1) / chunkSize - t)).flatMap piece := by
  rw [touched_split ht, List.flatMap_append, List.flatMap_cons,
    flatMap_pieces (List.mem_range'_1.1 ht).1 hexact, hnone, List.nil_append]

/-- Without a gap nothing is held after what is missing, so with one something is missing. -/
theorem all_eq_false_of_not_gapless {S : Nat → Bool} {idxs : List Nat} (hgap : ¬ Gapless S idxs) :
    idxs.all S = false := by
  cases hall : idxs.all S with
  | false => rfl
  | true => exact absurd (fun i hi _ _ _ _ => List.all_eq_true.1 hall i hi) hgap

namespace MemoryCache

variable {p : Nat → Bool} {v : ByteBuffer} {o e t : Nat}

/-- Up to the first missing chunk the pieces are exact. -/
theorem flatMap_piece_split (hoe : o < e) (ht : t ∈ touched chunkSize o e) (hmiss : p t = false)
    (hbefore : ∀ i ∈ touched chunkSize o e, i < t → p i = true) :
    (touched chunkSize o e).flatMap (piece p v o e) = slice v o (cut chunkSize o e t) ++
      (List.range' (t + 1) ((e - 1) / chunkSize - t)).flatMap (piece p v o e) := by
  have hlast := (List.mem_range'_1.1 ht).2
  refine flatMap_split_of_exact ht (by rw [piece, hmiss]; rfl) fun i hi hit => ?_
  refine piece_of_held hoe.le hi fun j hj hji => hbefore j ?_ (by omega)
  rw [touched, List.mem_range'_1]
  omega

end MemoryCache

namespace DiskCache

variable {p : Nat → Bool} {v : ByteBuffer} {o e t : Nat}

/-- Up to the first missing chunk the pieces are exact. -/
theorem flatMap_piece_split (hoe : o < e) (ht : t ∈ touched chunkSize o e) (hmiss : p t = false)
    (hbefore : ∀ i ∈ touched chunkSize o e, i < t → p i = true) :
    (touched chunkSize o e).flatMap (piece p v o) = slice v o (cut chunkSize o e t) ++
      (List.range' (t + 1) ((e - 1) / chunkSize - t)).flatMap (piece p v o) := by
  have hlast := (List.mem_range'_1.1 ht).2
  have hte : t * chunkSize < e := ((mem_touched chunkSize_pos hoe).1 ht).1
  refine flatMap_split_of_exact ht (by rw [piece, hmiss]; rfl) fun i hi hit => ?_
  refine piece_of_held hi (hbefore i ?_ hit) ((Nat.mul_le_mul_right _ hit).trans hte.le)
  rw [touched, List.mem_range'_1]
  omega

end DiskCache

/-! ## A value that shows every gap -/

section
variable (n : Nat) (S : Nat → Bool)

/-- A value whose held chunks are made of ones and whose missing chunks are made of zeros. -/
def markedValue : ByteBuffer := (List.range n).map fun j => if S (j / chunkSize) then 1 else 0

@[simp] theorem length_markedValue : (markedValue n S).length = n := by simp [markedValue]

theorem getElem?_markedValue {j : Nat} (hj : j < n) :
    (markedValue n S)[j]? = some (if S (j / chunkSize) then 1 else 0) := by
  simp [markedValue, List.getElem?_map, List.getElem?_range hj]

variable {n S}

/-- A slice inside a held chunk is made of ones. -/
theorem eq_one_of_mem_slice {i a b : Nat} (hi : S i = true) (ha : i * chunkSize ≤ a)
    (hb : b ≤ (i + 1) * chunkSize) : ∀ x ∈ slice (markedValue n S) a b, x = 1 := by
  intro x hx
  obtain ⟨m, hm⟩ := List.mem_iff_getElem?.1 hx
  rw [getElem?_slice] at hm
  split at hm
  · next hlt =>
    have hchunk : (a + m) / chunkSize = i :=
      Nat.div_eq_of_lt_le (ha.trans (Nat.le_add_right a m)) (hlt.trans_le hb)
    have hn : a + m < n := by
      by_contra hge
      rw [List.getElem?_eq_none (by rw [length_markedValue]; omega)] at hm
      cases hm
    rw [getElem?_markedValue n S hn, hchunk, hi] at hm
    exact (Option.some.inj hm).symm
  · cases hm

/-- Bytes that close the gap at `x` are not the bytes of the value there. -/
theorem ne_slice_of_gap {o x : Nat} {w : ByteBuffer} (hox : o ≤ x) (hx : x < n)
    (hmiss : S (x / chunkSize) = false) (hne : w ≠ []) (hw : ∀ b ∈ w, b = 1) :
    slice (markedValue n S) o x ++ w ≠
      slice (markedValue n S) o (o + (slice (markedValue n S) o x ++ w).length) := by
  intro heq
  have hlen : (slice (markedValue n S) o x).length = x - o := by
    rw [length_slice, length_markedValue, Nat.min_eq_left hx.le]
  obtain ⟨b, rest, rfl⟩ := List.exists_cons_of_ne_nil hne
  have hat := congrArg (fun l => l[x - o]?) heq
  rw [List.getElem?_append_right hlen.le, hlen, Nat.sub_self, List.getElem?_cons_zero,
    getElem?_slice, List.length_append, hlen, Nat.add_sub_cancel' hox, getElem?_markedValue n S hx,
    hmiss, hw b List.mem_cons_self] at hat
  split at hat
  · cases hat
  · cases hat

end

/-! ## Right and wrong labels -/

/-- Bytes that stop at a position of the value are labelled correctly. -/
theorem slice_eq_label {v : ByteBuffer} {o x : Nat} (hox : o ≤ x) (hx : x ≤ v.length) :
    slice v o x = slice v o (o + (slice v o x).length) := by
  rw [length_slice, Nat.min_eq_left hx, Nat.add_sub_cancel' hox]

namespace MemoryCache

variable {S : Nat → Bool} {v : ByteBuffer} {o len : Nat}

/-- The chunks held are all so far behind the start of the range that the memory loop has skipped
the whole range before it reaches them. -/
def HeldTooLate (S : Nat → Bool) (o len : Nat) : Prop :=
  ∀ i ∈ touched chunkSize o (o + len), S i = true → len ≤ (i - o / chunkSize) * chunkSize

/-- Behind the first missing chunk nothing is copied when no chunk is held there. -/
theorem flatMap_piece_eq_nil {e t : Nat} (ht : t ∈ touched chunkSize o e)
    (hrest : ∀ i ∈ touched chunkSize o e, t < i → S i = false) :
    (List.range' (t + 1) ((e - 1) / chunkSize - t)).flatMap (piece S v o e) = [] := by
  rw [List.flatMap_eq_nil_iff]
  intro i hi
  obtain ⟨hmem, hlt⟩ := mem_touched_of_mem_rest ht hi
  rw [piece, hrest i hmem hlt]
  rfl

/-- Every chunk in the list comes after the loop has skipped what remains, so nothing is copied. -/
theorem assembleLoop_eq_nil (s : Nat) {chunks : List (Option Chunk)} {remaining : Nat}
    (h : ∀ (j : Nat) (c : Chunk), chunks[j]? = some (some c) → remaining ≤ j * chunkSize)
    (i current : Nat) : assembleLoop s chunks i current remaining = [] := by
  induction chunks generalizing i current remaining with
  | nil => simp only [assembleLoop]
  | cons chunk rest ih =>
    cases chunk with
    | none =>
      rw [assembleLoop]
      split
      · rfl
      · refine ih (fun j c hj => ?_) _ _
        have hj' := h (j + 1) c hj
        rw [Nat.succ_mul] at hj'
        generalize chunkSize = c at *
        omega
    | some c =>
      have hrem : remaining = 0 := Nat.le_zero.1 ((h 0 c rfl).trans_eq (Nat.zero_mul _))
      rw [assembleLoop, if_pos hrem]

/-- When the held chunks come too late, nothing is copied. -/
theorem assembleValue_eq_nil {p : Nat → Bool} {chunks : List (Option Chunk)}
    (hlate : HeldTooLate p o len)
    (hheld : ∀ (j : Nat) (c : Chunk), chunks[j]? = some (some c) →
      ∃ i, (touched chunkSize o (o + len))[j]? = some i ∧ p i = true) :
    assembleValue chunks ⟨o, len⟩ = [] := by
  refine assembleLoop_eq_nil _ (fun j c hj => ?_) _ _
  obtain ⟨i, hi, hp⟩ := hheld j c hj
  have hpos := hlate i (List.mem_of_getElem? hi) hp
  have hij : i = o / chunkSize + j := by
    obtain ⟨hlt, heq⟩ := List.getElem?_eq_some_iff.1 hi
    simpa [touched] using heq.symm
  rwa [hij, Nat.add_sub_cancel_left] at hpos

/-- The label is right when there is no gap, or when nothing is copied. -/
theorem assembleValue_label (hv : v.length < 2 ^ 64) (hlen : 0 < len) (hle : o + len ≤ v.length)
    (hmiss : (touched chunkSize o (o + len)).all S = false)
    (h : Gapless S (touched chunkSize o (o + len)) ∨ HeldTooLate S o len) :
    assembleValue ((touched chunkSize o (o + len)).map (held S v)) ⟨o, len⟩ =
      slice v o (o + (assembleValue ((touched chunkSize o (o + len)).map (held S v))
        ⟨o, len⟩).length) := by
  rcases h with hgap | hlate
  · obtain ⟨t, ht, hS, hbefore⟩ := exists_first_missing hmiss
    have hrest : ∀ i ∈ touched chunkSize o (o + len), t < i → S i = false := by
      intro i hi hlt
      cases hSi : S i with
      | false => rfl
      | true =>
        have := hgap t ht i hi hlt hSi
        rw [hS] at this
        cases this
    obtain ⟨-, hox, hxe⟩ := cut_mem_chunk (by omega) ht
    rw [assembleValue_eq hv hlen hle, flatMap_piece_split (by omega) ht hS hbefore,
      flatMap_piece_eq_nil ht hrest, List.append_nil]
    exact slice_eq_label hox (by omega)
  · rw [assembleValue_eq_nil hlate fun j c hj => ?_]
    · exact (slice_eq_nil (Nat.le_refl _)).symm
    · rw [List.getElem?_map, Option.map_eq_some_iff] at hj
      obtain ⟨i, hi, hc⟩ := hj
      refine ⟨i, hi, ?_⟩
      rw [held] at hc
      split at hc
      · assumption
      · cases hc

/-- Every byte copied from a marked value is a one. -/
theorem eq_one_of_mem_piece {n e i : Nat} (hie : i * chunkSize < e) :
    ∀ x ∈ piece S (markedValue n S) o e i, x = 1 := by
  intro x hx
  rw [piece] at hx
  split at hx
  · next hS =>
    exact eq_one_of_mem_slice hS (pieceStart_bounds S o hie).1 (Nat.min_le_right _ _) x hx
  · cases hx

/-- A held chunk is copied from if the loop does not stand behind it. -/
theorem piece_ne_nil {n e j : Nat} (hS : S j = true) (he : e ≤ n)
    (hstart : pieceStart S o e j < min e ((j + 1) * chunkSize)) :
    piece S (markedValue n S) o e j ≠ [] := by
  rw [piece, if_pos hS]
  refine List.ne_nil_of_length_pos ?_
  rw [length_slice, length_markedValue,
    Nat.min_eq_left ((Nat.min_le_left _ _).trans he)]
  exact Nat.sub_pos_of_lt hstart

/-- With a gap that matters, some chunk behind the first missing one is copied. -/
theorem exists_piece_ne_nil {n t : Nat} (hlen : 0 < len) (hle : o + len ≤ n)
    (ht : t ∈ touched chunkSize o (o + len)) (hS : S t = false)
    (hbefore : ∀ i ∈ touched chunkSize o (o + len), i < t → S i = true)
    (hgap : ¬ Gapless S (touched chunkSize o (o + len))) (hlate : ¬ HeldTooLate S o len) :
    ∃ j ∈ touched chunkSize o (o + len), t < j ∧ piece S (markedValue n S) o (o + len) j ≠ [] := by
  obtain ⟨hdiv, hmod⟩ := div_mul_le_and_lt o
  have hst : o / chunkSize ≤ t := (List.mem_range'_1.1 ht).1
  have hnext : ∀ j, j * chunkSize < (j + 1) * chunkSize := fun j =>
    Nat.mul_lt_mul_of_pos_right (Nat.lt_succ_self j) chunkSize_pos
  rcases Nat.eq_or_lt_of_le hst with heq | hlt
  · -- the first needed chunk is missing: the offset inside it is kept up to the first held chunk
    simp only [HeldTooLate, not_forall, not_le] at hlate
    obtain ⟨j, hj, hSj, hjlen⟩ := hlate
    have hsj : o / chunkSize ≤ j := (List.mem_range'_1.1 hj).1
    have htj : t < j := by
      refine lt_of_le_of_ne (heq ▸ hsj) fun he => ?_
      rw [← he, hS] at hSj
      cases hSj
    refine ⟨j, hj, htj, piece_ne_nil hSj hle ?_⟩
    have hskew : (if heldBefore S (o / chunkSize) j then 0 else o % chunkSize) ≤ o % chunkSize := by
      split
      · exact Nat.zero_le _
      · exact le_rfl
    have hmul := Nat.mul_le_mul_right chunkSize hsj
    rw [Nat.sub_mul] at hjlen
    rw [pieceStart, Nat.succ_mul]
    generalize (if heldBefore S (o / chunkSize) j then 0 else o % chunkSize) = skew at *
    omega
  · -- the chunk that shows the gap is read from its beginning
    simp only [Gapless, not_forall] at hgap
    obtain ⟨i, hi, j, hj, hij, hSj, hSi⟩ := hgap
    have htj : t < j := by
      refine lt_of_le_of_lt (Nat.not_lt.1 fun hit => ?_) hij
      exact hSi (hbefore i hi hit)
    have hfirst : o / chunkSize ∈ touched chunkSize o (o + len) := by
      have := (List.mem_range'_1.1 ht).2
      rw [touched, List.mem_range'_1]
      omega
    have hheld : heldBefore S (o / chunkSize) j = true :=
      heldBefore_eq_true.2 ⟨_, le_rfl, hlt.trans htj, hbefore _ hfirst hlt⟩
    obtain ⟨hje, -⟩ := (mem_touched chunkSize_pos (by omega)).1 hj
    refine ⟨j, hj, htj, piece_ne_nil hSj hle ?_⟩
    rw [pieceStart, hheld]
    simp only [if_true, Nat.add_zero, Nat.min_eq_right hje.le]
    exact Nat.lt_min.2 ⟨hje, hnext j⟩

/-- With a gap that matters, what is assembled from the marked value is labelled wrongly. -/
theorem assembleValue_mislabel {n : Nat} (hn : n < 2 ^ 64) (hlen : 0 < len) (hle : o + len ≤ n)
    (hgap : ¬ Gapless S (touched chunkSize o (o + len))) (hlate : ¬ HeldTooLate S o len) :
    (touched chunkSize o (o + len)).all S = false ∧
    assembleValue ((touched chunkSize o (o + len)).map (held S (markedValue n S))) ⟨o, len⟩ ≠
      slice (markedValue n S) o (o + (assembleValue ((touched chunkSize o (o + len)).map
        (held S (markedValue n S))) ⟨o, len⟩).length) := by
  have hmiss := all_eq_false_of_not_gapless hgap
  refine ⟨hmiss, ?_⟩
  obtain ⟨t, ht, hS, hbefore⟩ := exists_first_missing hmiss
  obtain ⟨hchunk, hox, hxe⟩ := cut_mem_chunk (by omega) ht
  obtain ⟨j, hj, htj, hne⟩ := exists_piece_ne_nil hlen hle ht hS hbefore hgap hlate
  rw [assembleValue_eq (by rwa [length_markedValue]) hlen (by rwa [length_markedValue]),
    flatMap_piece_split (by omega) ht hS hbefore]
  refine ne_slice_of_gap hox (by omega) (by rwa [hchunk]) ?_ ?_
  · rw [ne_eq, List.flatMap_eq_nil_iff]
    exact fun hnil => hne (hnil j (mem_rest_of_mem_touched hj htj))
  · intro x hx
    obtain ⟨i, hi, hxi⟩ := List.mem_flatMap.1 hx
    obtain ⟨hmem, -⟩ := mem_touched_of_mem_rest ht hi
    exact eq_one_of_mem_piece ((mem_touched chunkSize_pos (by omega)).1 hmem).1 x hxi

end MemoryCache

namespace DiskCache

variable {S : Nat → Bool} {v : ByteBuffer} {o len : Nat}

/-- The label is right when there is no gap. -/
theorem assembleValue_label (hv : v.length < 2 ^ 64) (hlen : 0 < len) (hle : o + len ≤ v.length)
    (hmiss : (touched chunkSize o (o + len)).all S = false)
    (hgap : Gapless S (touched chunkSize o (o + len))) :
    assembleValue ((touched chunkSize o (o + len)).map (held S v)) ⟨o, len⟩ =
      slice v o (o + (assembleValue ((touched chunkSize o (o + len)).map (held S v))
        ⟨o, len⟩).length) := by
  obtain ⟨t, ht, hS, hbefore⟩ := exists_first_missing hmiss
  have hrest : (List.range' (t + 1) ((o + len - 1) / chunkSize - t)).flatMap (piece S v o) =
      [] := by
    rw [List.flatMap_eq_nil_iff]
    intro i hi
    obtain ⟨hmem, hlt⟩ := mem_touched_of_mem_rest ht hi
    rw [piece]
    split
    · next hSi =>
      have := hgap t ht i hmem hlt hSi
      rw [hS] at this
      cases this
    · rfl
  obtain ⟨-, hox, hxe⟩ := cut_mem_chunk (by omega) ht
  rw [assembleValue_eq hv hlen hle, flatMap_piece_split (by omega) ht hS hbefore, hrest,
    List.append_nil, take_slice, Nat.min_eq_left (by omega)]
  exact slice_eq_label hox (by omega)

/-- Every byte copied from a marked value is a one. -/
theorem eq_one_of_mem_piece {n i : Nat} : ∀ x ∈ piece S (markedValue n S) o i, x = 1 := by
  intro x hx
  rw [piece] at hx
  split at hx
  · next hS => exact eq_one_of_mem_slice hS (Nat.le_max_right _ _) le_rfl x hx
  · cases hx

/-- With a gap, what is assembled from the marked value is labelled wrongly. -/
theorem assembleValue_mislabel {n : Nat} (hn : n < 2 ^ 64) (hlen : 0 < len) (hle : o + len ≤ n)
    (hgap : ¬ Gapless S (touched chunkSize o (o + len))) :
    (touched chunkSize o (o + len)).all S = false ∧
    assembleValue ((touched chunkSize o (o + len)).map (held S (markedValue n S))) ⟨o, len⟩ ≠
      slice (markedValue n S) o (o + (assembleValue ((touched chunkSize o (o + len)).map
        (held S (markedValue n S))) ⟨o, len⟩).length) := by
  have hmiss := all_eq_false_of_not_gapless hgap
  refine ⟨hmiss, ?_⟩
  obtain ⟨t, ht, hS, hbefore⟩ := exists_first_missing hmiss
  obtain ⟨hchunk, hox, hxe⟩ := cut_mem_chunk (by omega) ht
  simp only [Gapless, not_forall] at hgap
  obtain ⟨i, hi, j, hj, hij, hSj, hSi⟩ := hgap
  have htj : t < j := lt_of_le_of_lt (Nat.not_lt.1 fun hit => hSi (hbefore i hi hit)) hij
  obtain ⟨hje, hoj⟩ := (mem_touched chunkSize_pos (by omega)).1 hj
  have hpiece : piece S (markedValue n S) o j ≠ [] := by
    rw [piece, if_pos hSj]
    refine List.ne_nil_of_length_pos ?_
    rw [length_slice, length_markedValue]
    have hnext := Nat.mul_lt_mul_of_pos_right (Nat.lt_succ_self j) chunkSize_pos
    refine Nat.sub_pos_of_lt (Nat.max_lt.2 ⟨Nat.lt_min.2 ⟨hoj, by omega⟩, Nat.lt_min.2 ⟨hnext, ?_⟩⟩)
    exact hje.trans_le hle
  have hcut : (slice (markedValue n S) o (cut chunkSize o (o + len) t)).length ≤ len := by
    rw [length_slice]
    omega
  rw [assembleValue_eq (by rwa [length_markedValue]) hlen (by rwa [length_markedValue]),
    flatMap_piece_split (by omega) ht hS hbefore, List.take_append, List.take_of_length_le hcut]
  refine ne_slice_of_gap hox (by omega) (by rwa [hchunk]) ?_ fun x hx => ?_
  · rw [ne_eq, List.take_eq_nil_iff, not_or]
    refine ⟨?_, ?_⟩
    · rw [length_slice, length_markedValue]
      omega
    · rw [List.flatMap_eq_nil_iff]
      exact fun hnil => hpiece (hnil j (mem_rest_of_mem_touched hj htj))
  · obtain ⟨i, -, hxi⟩ := List.mem_flatMap.1 (List.mem_of_mem_take hx)
    exact eq_one_of_mem_piece x hxi

end DiskCache

end ElCache
