import Mathlib.Data.List.Basic
import Mathlib.Order.Monotone.Basic

/-!
# Slices of a list, and a list cut into blocks

`slice v a b` is `v[a, b)`. A list cut into blocks of `c` elements has its block `i` at
`[i * c, (i + 1) * c)` (`block`), and a range `[o, e)` touches the blocks `touched c o e`. The
last section reads a range back from the blocks that are present: `cut` is where block `i` starts
inside the range, and the pieces between consecutive cuts tile the range (`flatMap_cut`).
-/

namespace Slice

variable {α : Type*} {v : List α} {c : Nat}

/-- The elements of `v` at the positions `[a, b)`. -/
def slice (v : List α) (a b : Nat) : List α := (v.take b).drop a

@[simp] theorem length_slice (v : List α) (a b : Nat) :
    (slice v a b).length = min b v.length - a := by
  simp [slice]

theorem slice_eq_nil {a b : Nat} (h : b ≤ a) : slice v a b = [] := by
  apply List.eq_nil_of_length_eq_zero
  simp only [length_slice]
  omega

theorem slice_eq_nil_of_length_le {a b : Nat} (h : v.length ≤ a) : slice v a b = [] := by
  apply List.eq_nil_of_length_eq_zero
  simp only [length_slice]
  omega

theorem slice_zero_length (v : List α) : slice v 0 v.length = v := by simp [slice]

/-- A slice is cut out of what stands from its start on. -/
theorem slice_sublist_drop (v : List α) (a b : Nat) : (slice v a b).Sublist (v.drop a) :=
  (List.take_sublist b v).drop a

/-- A slice that starts later and ends at the same place leaves out a beginning. -/
theorem slice_sublist_slice (v : List α) {a b : Nat} (h : a ≤ b) (d : Nat) :
    (slice v b d).Sublist (slice v a d) := by
  rw [slice, slice, ← Nat.add_sub_cancel' h, ← List.drop_drop]
  exact List.drop_sublist _ _

/-- A slice past the end stops at the end. -/
theorem slice_min_length (v : List α) (a b : Nat) : slice v a (min b v.length) = slice v a b := by
  simp only [slice]
  rcases Nat.le_total b v.length with h | h
  · rw [Nat.min_eq_left h]
  · rw [Nat.min_eq_right h, List.take_of_length_le h, List.take_length]

/-- Two adjacent slices are one. -/
theorem slice_append {a b d : Nat} (hab : a ≤ b) (hbd : b ≤ d) :
    slice v a b ++ slice v b d = slice v a d := by
  simp only [slice]
  have h : v.take d = v.take b ++ (v.take d).drop b := by
    conv_lhs => rw [← List.take_append_drop b (v.take d), List.take_take, Nat.min_eq_left hbd]
  conv_rhs => rw [h]
  rcases Nat.le_total b v.length with hb | hb
  · rw [List.drop_append_of_le_length (by simp; omega)]
  · have : (v.take d).drop b = [] := List.drop_eq_nil_of_le (by simp; omega)
    rw [this, List.append_nil, List.append_nil]

/-- A slice behind a prefix. -/
theorem slice_append_right (u v : List α) (a b : Nat) :
    slice (u ++ v) (u.length + a) (u.length + b) = slice v a b := by
  rw [slice, slice, List.take_length_add_append, List.drop_length_add_append]

/-- A slice that is a prefix. -/
theorem slice_append_left (u v : List α) : slice (u ++ v) 0 u.length = u := by
  rw [slice, List.take_left' rfl, List.drop_zero]

/-- A slice of a slice is the slice at the sum of the offsets. -/
theorem slice_slice (v : List α) (a b a' b' : Nat) :
    slice (slice v a b) a' b' = slice v (a + a') (min b (a + b')) := by
  apply List.ext_getElem?
  intro i
  simp only [slice, List.getElem?_drop, List.getElem?_take]
  by_cases h : a' + i < b'
  · rw [if_pos h]
    by_cases h2 : a + (a' + i) < b
    · rw [if_pos h2, if_pos (by omega)]
      congr 1
      omega
    · rw [if_neg h2, if_neg (by omega)]
  · rw [if_neg h, if_neg (by omega)]

theorem getElem?_slice (v : List α) (a b i : Nat) :
    (slice v a b)[i]? = if a + i < b then v[a + i]? else none := by
  simp only [slice, List.getElem?_drop, List.getElem?_take]

theorem slice_replicate (n : Nat) (x : α) (a b : Nat) :
    slice (List.replicate n x) a b = List.replicate (min b n - a) x := by
  simp [slice]

theorem slice_take_of_le {a b n : Nat} (h : b ≤ n) : slice (v.take n) a b = slice v a b := by
  rw [slice, List.take_take, Nat.min_eq_left h, slice]

theorem slice_append_of_le {u : List α} {a b : Nat} (h : b ≤ u.length) :
    slice (u ++ v) a b = slice u a b := by
  rw [slice, List.take_append_of_le_length h, slice]

theorem take_drop_eq_slice (v : List α) (a n : Nat) :
    (v.drop a).take n = slice v a (a + n) := by
  rw [slice, List.drop_take, Nat.add_sub_cancel_left]

theorem take_slice (v : List α) (a b n : Nat) :
    (slice v a b).take n = slice v a (min b (a + n)) := by
  have h := slice_slice v a b 0 n
  simpa [slice] using h

/-! ## Blocks -/

/-- Block `i` of `v`, cut every `c` elements; the last block may be short. -/
def block (c : Nat) (v : List α) (i : Nat) : List α := slice v (i * c) ((i + 1) * c)

/-- The number of blocks of `c` elements that `n` elements fill. -/
def blockCount (c n : Nat) : Nat := (n + c - 1) / c

theorem lt_blockCount {n i : Nat} (hc : 0 < c) : i < blockCount c n ↔ i * c < n := by
  unfold blockCount
  rw [Nat.lt_iff_add_one_le, Nat.le_div_iff_mul_le hc, Nat.succ_mul]
  omega

theorem length_block (c : Nat) (v : List α) (i : Nat) :
    (block c v i).length = min c (v.length - i * c) := by
  simp only [block, length_slice, Nat.succ_mul]
  omega

/-- `v` cut into its blocks. -/
def blocks (c : Nat) (v : List α) : List (List α) :=
  (List.range (blockCount c v.length)).map (block c v)

@[simp] theorem length_blocks (c : Nat) (v : List α) :
    (blocks c v).length = blockCount c v.length := by
  simp [blocks]

theorem getElem?_blocks (c : Nat) (v : List α) (i : Nat) :
    (blocks c v)[i]? = if i < blockCount c v.length then some (block c v i) else none := by
  simp only [blocks, List.getElem?_map]
  split
  · next h => rw [List.getElem?_range h]; rfl
  · next h => rw [List.getElem?_eq_none (by simpa using h)]; rfl

theorem mem_blocks {b : List α} :
    b ∈ blocks c v ↔ ∃ i < blockCount c v.length, block c v i = b := by
  simp [blocks]

/-- Every block is non-empty. -/
theorem block_ne_nil (hc : 0 < c) {i : Nat} (h : i < blockCount c v.length) : block c v i ≠ [] := by
  rw [lt_blockCount hc] at h
  intro he
  have := length_block c v i
  rw [he, List.length_nil] at this
  omega

/-! ## The blocks a range touches -/

/-- The blocks of `c` elements that meet `[o, e)`, in order. -/
def touched (c o e : Nat) : List Nat := List.range' (o / c) ((e - 1) / c + 1 - o / c)

theorem mem_touched {o e i : Nat} (hc : 0 < c) (hoe : o < e) :
    i ∈ touched c o e ↔ i * c < e ∧ o < (i + 1) * c := by
  have h1 : o / c ≤ i ↔ o < (i + 1) * c := by
    rw [← Nat.lt_succ_iff, Nat.div_lt_iff_lt_mul hc]
  have h2 : i ≤ (e - 1) / c ↔ i * c < e := by
    rw [Nat.le_div_iff_mul_le hc]
    omega
  have h3 : o / c ≤ (e - 1) / c := Nat.div_le_div_right (by omega)
  simp only [touched, List.mem_range'_1, ← h1, ← h2]
  omega

theorem touched_first {o n : Nat} (hn : 0 < n) (hle : o + n ≤ c) : touched c o (o + n) = [0] := by
  have h₁ : o / c = 0 := Nat.div_eq_of_lt (by omega)
  have h₂ : (o + n - 1) / c = 0 := Nat.div_eq_of_lt (by omega)
  rw [touched, h₁, h₂]
  rfl

theorem touched_ne_nil {o e : Nat} (hoe : o < e) : touched c o e ≠ [] := by
  have h3 : o / c ≤ (e - 1) / c := Nat.div_le_div_right (by omega)
  simp only [touched, ne_eq, List.range'_eq_nil_iff]
  omega

/-- Where block `i` starts inside the range `[o, e)`. -/
def cut (c o e i : Nat) : Nat := max o (min e (i * c))

theorem cut_mono {o e i j : Nat} (h : i ≤ j) : cut c o e i ≤ cut c o e j := by
  have := Nat.mul_le_mul_right c h
  unfold cut
  omega

theorem cut_first {o e : Nat} : cut c o e (o / c) = o := by
  have := Nat.div_mul_le_self o c
  unfold cut
  omega

theorem cut_last {o e : Nat} (hc : 0 < c) (hoe : o < e) : cut c o e ((e - 1) / c + 1) = e := by
  have := Nat.lt_mul_div_succ (e - 1) hc
  rw [Nat.mul_comm] at this
  unfold cut
  omega

/-- The pieces between consecutive cut points tile the whole. -/
theorem flatMap_slice_of_mono (v : List α) (b : Nat → Nat) (hb : ∀ i, b i ≤ b (i + 1)) (s k : Nat) :
    (List.range' s k).flatMap (fun i => slice v (b i) (b (i + 1))) = slice v (b s) (b (s + k)) := by
  induction k generalizing s with
  | zero => simp [slice_eq_nil]
  | succ k ih =>
    rw [List.range'_succ, List.flatMap_cons, ih (s + 1)]
    have hmono : b (s + 1) ≤ b (s + 1 + k) := monotone_nat_of_le_succ hb (by omega)
    rw [slice_append (hb s) hmono]
    congr 2
    omega

/-- The blocks of a list, put together again, are the list. -/
theorem flatten_blocks (hc : 0 < c) (v : List α) : (blocks c v).flatten = v := by
  have h := flatMap_slice_of_mono v (· * c) (fun i => Nat.mul_le_mul_right c (Nat.le_succ i)) 0
    (blockCount c v.length)
  have hend : v.length ≤ blockCount c v.length * c := by
    have := lt_blockCount (n := v.length) (i := blockCount c v.length) hc
    omega
  rw [Nat.zero_add, Nat.zero_mul, ← slice_min_length, Nat.min_eq_right hend, slice_zero_length,
    ← List.range_eq_range'] at h
  exact h

/-- A function that is injective on the blocks of two lists tells the lists apart. -/
theorem eq_of_map_blocks {β : Type*} {f : List α → β} {S : Set (List α)} (hf : Set.InjOn f S)
    (hc : 0 < c) {w : List α} (hv : { b | b ∈ blocks c v } ⊆ S) (hw : { b | b ∈ blocks c w } ⊆ S)
    (h : (blocks c v).map f = (blocks c w).map f) : v = w := by
  have hblocks : ∀ bs bs' : List (List α), { b | b ∈ bs } ⊆ S → { b | b ∈ bs' } ⊆ S →
      bs.map f = bs'.map f → bs = bs' := by
    intro bs
    induction bs with
    | nil =>
      intro bs' _ _ h
      exact (List.map_eq_nil_iff.1 h.symm).symm
    | cons b bs ih =>
      intro bs' hbs hbs' h
      obtain ⟨b', rest, rfl, hhead, hrest⟩ := List.map_eq_cons_iff.1 h.symm
      have heq : b = b' := hf (hbs List.mem_cons_self) (hbs' List.mem_cons_self) hhead.symm
      rw [heq, ih rest (fun x hx => hbs (List.mem_cons_of_mem _ hx))
        (fun x hx => hbs' (List.mem_cons_of_mem _ hx)) hrest.symm]
  rw [← flatten_blocks hc v, hblocks _ _ hv hw h, flatten_blocks hc w]

/-- A list of at most `c` elements is its only block. -/
theorem blocks_of_length_le (hne : v ≠ []) (hle : v.length ≤ c) : blocks c v = [v] := by
  have hpos := List.length_pos_of_ne_nil hne
  have hcount : blockCount c v.length = 1 := by
    rw [blockCount, Nat.div_eq_of_lt_le] <;> omega
  have hblock : block c v 0 = v := by
    rw [block, Nat.zero_mul, Nat.zero_add, Nat.one_mul, ← slice_min_length, Nat.min_eq_right hle,
      slice_zero_length]
  rw [blocks, hcount]
  simp [List.range_succ, hblock]

/-- Reading the first `k` touched blocks of a range gives the range up to the next cut. -/
theorem flatMap_cut (c : Nat) (v : List α) (o e k : Nat) :
    (List.range' (o / c) k).flatMap (fun i => slice v (cut c o e i) (cut c o e (i + 1)))
      = slice v o (cut c o e (o / c + k)) := by
  rw [flatMap_slice_of_mono v (cut c o e) (fun i => cut_mono (Nat.le_succ i)), cut_first]

end Slice
