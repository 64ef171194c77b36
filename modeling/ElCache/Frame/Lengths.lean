import ElCache.Partial.Gaps

/-!
# What a lost chunk does to the bytes assembled

When a level that already misses some chunk of a range loses another one, the bytes it assembles
change: there are fewer of them. `Discerns` says this of an assembly loop, up to the cases in which
it copies nothing anyway. For the memory loop these are the cases of `MemoryCache.HeldTooLate`
(`MemoryCache.discerns`); for the disk loop there are none (`DiskCache.discerns`), although it may
copy bytes past the range in place of missing ones: two missing chunks are always more than it can
make up for.
-/

namespace ElCache

open Slice

/-- The assembly loop shows the loss of a chunk: if the chunks `q` give the bytes that `p` gives,
not all of them held, then no chunk the range needs was lost from `p` to `q`, or `p` is a `blind`
case. -/
def Discerns (assemble : List (Option Chunk) → Range → ByteBuffer)
    (blind : (Nat → Bool) → Nat → Nat → Prop) : Prop :=
  ∀ (v : ByteBuffer) (o len : Nat) (p q : Nat → Bool), v.length < 2 ^ 64 → 0 < len →
    o + len ≤ v.length → (∀ i, q i = true → p i = true) →
    (touched chunkSize o (o + len)).all p = false →
    assemble ((touched chunkSize o (o + len)).map (held q v)) ⟨o, len⟩ =
      assemble ((touched chunkSize o (o + len)).map (held p v)) ⟨o, len⟩ →
    (∀ i ∈ touched chunkSize o (o + len), p i = true → q i = true) ∨ blind p o len

/-- A chunk that was lost. -/
theorem exists_lost {p q : Nat → Bool} {needed : List Nat}
    (h : ¬ ∀ i ∈ needed, p i = true → q i = true) :
    ∃ i ∈ needed, p i = true ∧ q i = false := by
  simp only [not_forall] at h
  obtain ⟨i, hi, hp, hq⟩ := h
  exact ⟨i, hi, hp, by simpa using hq⟩

/-! ## The memory level -/

namespace MemoryCache

variable {p q : Nat → Bool} {v : ByteBuffer} {o e len i : Nat}

theorem length_piece (he : e ≤ v.length) : (piece p v o e i).length =
    if p i then min e ((i + 1) * chunkSize) - pieceStart p o e i else 0 := by
  rw [piece]
  split
  · rw [length_slice, Nat.min_eq_left ((Nat.min_le_left _ _).trans he)]
  · rfl

/-- With fewer chunks held the loop stands further on. -/
theorem pieceStart_le (hqp : ∀ i, q i = true → p i = true) :
    pieceStart p o e i ≤ pieceStart q o e i := by
  have hskew : (if heldBefore p (o / chunkSize) i then 0 else o % chunkSize) ≤
      if heldBefore q (o / chunkSize) i then 0 else o % chunkSize := by
    split
    · exact Nat.zero_le _
    · next hp =>
      rw [if_neg]
      intro hq
      obtain ⟨j, hsj, hji, hj⟩ := heldBefore_eq_true.1 hq
      exact hp (heldBefore_eq_true.2 ⟨j, hsj, hji, hqp j hj⟩)
  exact min_le_min le_rfl (Nat.add_le_add_left hskew _)

/-- No piece gets longer when chunks are lost. -/
theorem length_piece_le (he : e ≤ v.length) (hqp : ∀ i, q i = true → p i = true) :
    (piece q v o e i).length ≤ (piece p v o e i).length := by
  rw [length_piece he, length_piece he]
  split
  · next hq =>
    rw [if_pos (hqp i hq)]
    exact Nat.sub_le_sub_left (pieceStart_le hqp) _
  · exact Nat.zero_le _

/-- Unless the held chunks come too late, something is copied from each of them. -/
theorem length_piece_pos (hle : o + len ≤ v.length) (hi : i ∈ touched chunkSize o (o + len))
    (hp : p i = true) (hlate : ¬ HeldTooLate p o len) :
    0 < (piece p v o (o + len) i).length := by
  simp only [HeldTooLate, not_forall, not_le] at hlate
  obtain ⟨j, hj, hpj, hjlen⟩ := hlate
  have hsi : o / chunkSize ≤ i := (List.mem_range'_1.1 hi).1
  obtain ⟨hie, -⟩ := (mem_touched chunkSize_pos (by omega)).1 hi
  have hnext : i * chunkSize < (i + 1) * chunkSize :=
    Nat.mul_lt_mul_of_pos_right (Nat.lt_succ_self i) chunkSize_pos
  rw [length_piece hle, if_pos hp, pieceStart]
  refine Nat.sub_pos_of_lt ?_
  cases hbefore : heldBefore p (o / chunkSize) i with
  | true =>
    simp only [if_true, Nat.add_zero, Nat.min_eq_right hie.le]
    exact Nat.lt_min.2 ⟨hie, hnext⟩
  | false =>
    -- chunk `i` is the first one held, so it is not behind `j`
    have hij : i ≤ j := by
      refine Nat.not_lt.1 fun hji => ?_
      have hsj : o / chunkSize ≤ j := (List.mem_range'_1.1 hj).1
      rw [heldBefore_eq_true.2 ⟨j, hsj, hji, hpj⟩] at hbefore
      cases hbefore
    obtain ⟨hdiv, hmod⟩ := div_mul_le_and_lt o
    have hmul : (i - o / chunkSize) * chunkSize ≤ (j - o / chunkSize) * chunkSize :=
      Nat.mul_le_mul_right _ (Nat.sub_le_sub_right hij _)
    have hsi' := Nat.mul_le_mul_right chunkSize hsi
    rw [Nat.sub_mul] at hmul
    simp only [Bool.false_eq_true, if_false, Nat.succ_mul]
    generalize (j - o / chunkSize) * chunkSize = g at *
    generalize i * chunkSize = h at *
    generalize o / chunkSize * chunkSize = s at *
    generalize o % chunkSize = r at *
    generalize chunkSize = c at *
    omega

/-- The memory loop shows every loss, unless the held chunks come too late to be read. -/
theorem discerns : Discerns assembleValue HeldTooLate := by
  intro v o len p q hv hlen hle hqp _ heq
  by_contra hcon
  obtain ⟨hlost, hlate⟩ := not_or.1 hcon
  obtain ⟨i, hi, hp, hq⟩ := exists_lost hlost
  rw [assembleValue_eq hv hlen hle, assembleValue_eq hv hlen hle] at heq
  have hlength := congrArg List.length heq
  rw [List.length_flatMap, List.length_flatMap] at hlength
  refine (List.sum_lt_sum _ _ (fun j _ => length_piece_le hle hqp) ⟨i, hi, ?_⟩).ne hlength
  refine lt_of_eq_of_lt ?_ (length_piece_pos hle hi hp hlate)
  rw [piece, hq]
  rfl

end MemoryCache

/-! ## The disk level -/

namespace DiskCache

variable {p q : Nat → Bool} {v : ByteBuffer} {o e i : Nat}

/-- What a held chunk of the range has to offer. -/
theorem length_piece (v : ByteBuffer) (o i : Nat) (p : Nat → Bool) : (piece p v o i).length =
    if p i then min v.length ((i + 1) * chunkSize) - max o (i * chunkSize) else 0 := by
  rw [piece]
  split
  · rw [length_slice, Nat.min_comm]
  · rfl

/-- No piece gets longer when chunks are lost. -/
theorem length_piece_le (hqp : ∀ i, q i = true → p i = true) :
    (piece q v o i).length ≤ (piece p v o i).length := by
  rw [length_piece, length_piece]
  split
  · next hq => rw [if_pos (hqp i hq)]
  · exact Nat.zero_le _

theorem length_piece_pos (hoe : o < e) (he : e ≤ v.length) (hi : i ∈ touched chunkSize o e)
    (hp : p i = true) : 0 < (piece p v o i).length := by
  obtain ⟨hie, hoi⟩ := (mem_touched chunkSize_pos hoe).1 hi
  have hnext : i * chunkSize < (i + 1) * chunkSize :=
    Nat.mul_lt_mul_of_pos_right (Nat.lt_succ_self i) chunkSize_pos
  rw [length_piece, if_pos hp]
  refine Nat.sub_pos_of_lt (Nat.max_lt.2 ⟨Nat.lt_min.2 ⟨by omega, hoi⟩, Nat.lt_min.2 ⟨?_, hnext⟩⟩)
  exact hie.trans_le he

/-- A needed chunk that is not the first holds more bytes than the last needed chunk has behind the
range. -/
theorem overhang_lt_length_piece (hoe : o < e) (he : e ≤ v.length)
    (hi : i ∈ touched chunkSize o e) (hfirst : o / chunkSize < i) :
    min v.length (((e - 1) / chunkSize + 1) * chunkSize) - e <
      (piece (fun _ => true) v o i).length := by
  have hle : i ≤ (e - 1) / chunkSize := by
    have := (List.mem_range'_1.1 hi).2
    omega
  have hlast : (e - 1) / chunkSize * chunkSize < e := by
    have := Nat.div_mul_le_self (e - 1) chunkSize
    omega
  rw [length_piece, if_pos rfl, Nat.max_eq_right (le_mul_of_div_lt hfirst)]
  rcases Nat.eq_or_lt_of_le hle with heq | hlt
  · rw [heq, Nat.succ_mul]
    generalize (e - 1) / chunkSize * chunkSize = g at *
    have := chunkSize_pos
    generalize chunkSize = c at *
    omega
  · have hmul := Nat.mul_le_mul_right chunkSize hlt
    rw [Nat.succ_mul] at hmul
    rw [Nat.succ_mul, Nat.succ_mul]
    have hpos := chunkSize_pos
    generalize (e - 1) / chunkSize * chunkSize = g at *
    generalize i * chunkSize = h at *
    generalize chunkSize = c at *
    omega

/-- A sum that lacks two of its terms. -/
theorem sum_add_two_le {l : List Nat} {f g : Nat → Nat} (hfg : ∀ i ∈ l, f i ≤ g i) {t r : Nat}
    (ht : t ∈ l) (hr : r ∈ l) (htr : r ≠ t) (hft : f t = 0) (hfr : f r = 0) :
    (l.map f).sum + (g t + g r) ≤ (l.map g).sum := by
  have hr' : r ∈ l.erase t := (List.mem_erase_of_ne htr).2 hr
  have hperm : l.Perm (t :: r :: (l.erase t).erase r) :=
    (List.perm_cons_erase ht).trans ((List.perm_cons_erase hr').cons t)
  have hrest : (((l.erase t).erase r).map f).sum ≤ (((l.erase t).erase r).map g).sum :=
    List.sum_le_sum fun i hi => hfg i (List.mem_of_mem_erase (List.mem_of_mem_erase hi))
  rw [(hperm.map f).sum_eq, (hperm.map g).sum_eq]
  simp only [List.map_cons, List.sum_cons, hft, hfr]
  omega

/-- With two needed chunks missing the loop runs out of bytes. -/
theorem length_lt_of_two_missing (hoe : o < e) (he : e ≤ v.length) {t r : Nat}
    (ht : t ∈ touched chunkSize o e) (hr : r ∈ touched chunkSize o e) (htr : r ≠ t)
    (hqt : q t = false) (hqr : q r = false) :
    ((touched chunkSize o e).flatMap (piece q v o)).length < e - o := by
  have hall := congrArg List.length (flatMap_piece_all v hoe)
  rw [List.length_flatMap, length_slice, Nat.min_comm] at hall
  have hsum := sum_add_two_le (l := touched chunkSize o e) (f := fun i => (piece q v o i).length)
    (g := fun i => (piece (fun _ => true) v o i).length) (fun i _ => length_piece_le fun _ _ => rfl)
    ht hr htr (by simp [piece, hqt]) (by simp [piece, hqr])
  rw [hall] at hsum
  rw [List.length_flatMap]
  have hst : o / chunkSize ≤ t := (List.mem_range'_1.1 ht).1
  have hsr : o / chunkSize ≤ r := (List.mem_range'_1.1 hr).1
  -- the later of the two is not the first chunk of the range
  rcases Nat.lt_or_gt_of_ne htr with hlt | hlt
  · have := overhang_lt_length_piece hoe he ht (by omega)
    omega
  · have := overhang_lt_length_piece hoe he hr (by omega)
    omega

/-- The disk loop shows every loss. -/
theorem discerns : Discerns assembleValue fun _ _ _ => False := by
  intro v o len p q hv hlen hle hqp hmiss heq
  refine .inl ?_
  by_contra hlost
  obtain ⟨r, hr, hpr, hqr⟩ := exists_lost hlost
  obtain ⟨t, ht, hpt, -⟩ := exists_first_missing hmiss
  have hqt : q t = false := by
    cases hq : q t with
    | false => rfl
    | true => rw [hqp t hq] at hpt; cases hpt
  have htr : r ≠ t := by
    rintro rfl
    rw [hpt] at hpr
    cases hpr
  have hshort := length_lt_of_two_missing (v := v) (by omega) hle ht hr htr hqt hqr
  rw [Nat.add_sub_cancel_left] at hshort
  have hless : ((touched chunkSize o (o + len)).flatMap (piece q v o)).length <
      ((touched chunkSize o (o + len)).flatMap (piece p v o)).length := by
    rw [List.length_flatMap, List.length_flatMap]
    refine List.sum_lt_sum _ _ (fun j _ => length_piece_le hqp) ⟨r, hr, ?_⟩
    refine lt_of_eq_of_lt ?_ (length_piece_pos (by omega) hle hr hpr)
    rw [piece, hqr]
    rfl
  rw [assembleValue_eq hv hlen hle, assembleValue_eq hv hlen hle] at heq
  have hlength := congrArg List.length heq
  rw [List.length_take, List.length_take] at hlength
  omega

end DiskCache

end ElCache
