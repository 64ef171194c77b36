import ElCache.Chunk

/-!
# The chunks of a range

`ChunkRange::compute` cuts a range of bytes at the chunk boundaries. Its pieces tile the range
(`Tiles`): none is empty, each lies in one chunk, the chunks are consecutive, and each piece starts
where the one before it ends. For a descriptor with all its chunks, the chunks of the pieces are the
ones `chunksForRange` computes in closed form (`compute_tiles`).
-/

namespace ElCache

open Slice

/-- A piece of a range inside one chunk. -/
structure ChunkRange where
  chunkIndex : Nat
  offsetInChunk : Nat
  length : Nat
  deriving DecidableEq, Repr

namespace ChunkRange

variable {ps : List ChunkRange}

theorem sub_min_lt {c o remaining : Nat} (hc : 0 < c) (h : 0 < remaining) :
    remaining - min remaining (c - o % c) < remaining := by
  have := Nat.mod_lt o hc
  omega

/-- The loop of `ChunkRange::compute`. The offset behind the last byte of the address space
wraps. -/
def computeLoop (c : Nat) (hc : 0 < c) (currentOffset remaining : Nat) : List ChunkRange :=
  if _h : 0 < remaining then
    let toRead := min remaining (c - currentOffset % c)
    ⟨currentOffset / c, currentOffset % c, toRead⟩ ::
      computeLoop c hc (wrap64 (currentOffset + toRead)) (remaining - toRead)
  else []
termination_by remaining
decreasing_by exact sub_min_lt hc _h

/-- `ChunkRange::compute`. The source divides by the chunk size, which must not be 0. -/
def compute (range : Range) (c : Nat) (hc : 0 < c) : List ChunkRange :=
  if range.length = 0 then [] else computeLoop c hc range.offset range.length

/-- The first byte of a piece. -/
def start (c : Nat) (p : ChunkRange) : Nat := p.chunkIndex * c + p.offsetInChunk

/-- Each piece starts where the one before it ends, the first at `o`, and the last ends at `e`. -/
def Follow (c : Nat) : Nat → Nat → List ChunkRange → Prop
  | o, e, [] => o = e
  | o, e, p :: ps => p.start c = o ∧ Follow c (o + p.length) e ps

/-- Pieces of chunks of `c` bytes that make up `[o, e)`. -/
structure Tiles (c o e : Nat) (ps : List ChunkRange) : Prop where
  nonempty : ∀ p ∈ ps, 0 < p.length
  inside : ∀ p ∈ ps, p.offsetInChunk + p.length ≤ c
  consecutive : ps.map chunkIndex = List.range' (o / c) ps.length
  follow : Follow c o e ps

theorem tiles_nil (c o : Nat) : Tiles c o o [] :=
  ⟨fun _ h => absurd h List.not_mem_nil, fun _ h => absurd h List.not_mem_nil, rfl, rfl⟩

/-- One round of the loop, in front of the pieces of the rest. -/
theorem Tiles.cons {c o e : Nat} (hc : 0 < c) {n : Nat} (hn : 0 < n) (hle : n ≤ c - o % c)
    (h : Tiles c (o + n) e ps) (hnext : ps ≠ [] → n = c - o % c) :
    Tiles c o e (⟨o / c, o % c, n⟩ :: ps) := by
  have hmod := Nat.mod_lt o hc
  have hdiv := Nat.div_add_mod' o c
  refine ⟨?_, ?_, ?_, hdiv, h.follow⟩
  · intro p hp
    rcases List.mem_cons.1 hp with rfl | hp
    · exact hn
    · exact h.nonempty p hp
  · intro p hp
    rcases List.mem_cons.1 hp with rfl | hp
    · show o % c + n ≤ c
      omega
    · exact h.inside p hp
  · rw [List.map_cons, h.consecutive, List.length_cons, List.range'_succ]
    cases ps with
    | nil => rfl
    | cons p ps =>
      have hboundary : o + n = (o / c + 1) * c := by
        rw [hnext (List.cons_ne_nil _ _), Nat.succ_mul]
        omega
      rw [hboundary, Nat.mul_div_cancel _ hc]

/-- The loop tiles what remains. -/
theorem tiles_computeLoop {c : Nat} (hc : 0 < c) (o remaining : Nat) (h : o + remaining ≤ 2 ^ 64) :
    Tiles c o (o + remaining) (computeLoop c hc o remaining) := by
  fun_induction computeLoop c hc o remaining with
  | case1 o remaining hpos toRead ih =>
    have hmod := Nat.mod_lt o hc
    have hread : 0 < toRead := by omega
    rcases Nat.lt_or_ge (c - o % c) remaining with hlt | hge
    · have hw : wrap64 (o + toRead) = o + toRead := wrap64_of_lt (by omega)
      rw [hw] at ih ⊢
      have hrest := ih (by omega)
      refine Tiles.cons hc hread (Nat.min_le_right _ _) ?_ fun _ => Nat.min_eq_right hlt.le
      rwa [show o + toRead + (remaining - toRead) = o + remaining by omega] at hrest
    · have hall : toRead = remaining := Nat.min_eq_left hge
      rw [hall, Nat.sub_self, computeLoop, dif_neg (Nat.lt_irrefl 0)]
      exact Tiles.cons hc hpos hge (tiles_nil c _) fun hne => absurd rfl hne
  | case2 o remaining hpos =>
    rw [Nat.eq_zero_of_not_pos hpos]
    exact tiles_nil c o

theorem Follow.concat {c o e : Nat} {p : ChunkRange} (h : Follow c o e (ps ++ [p])) :
    p.start c + p.length = e := by
  induction ps generalizing o with
  | nil => rw [h.1, h.2]
  | cons q ps ih => exact ih h.2

/-- The pieces of a tiling are in the chunks the range touches. -/
theorem Tiles.indices {c o e : Nat} (h : Tiles c o e ps) (hlt : o < e) :
    ps.map chunkIndex = touched c o e := by
  rcases List.eq_nil_or_concat ps with rfl | ⟨init, p, rfl⟩
  · exact absurd h.follow hlt.ne
  rw [List.concat_eq_append] at h ⊢
  have hp : p ∈ init ++ [p] := List.mem_append_right _ (List.mem_singleton_self p)
  have hend := h.follow.concat
  have hinside := h.inside p hp
  have hpos := h.nonempty p hp
  have hlast : p.chunkIndex = o / c + init.length := by
    have hidx := h.consecutive
    rw [List.map_append, List.length_append, List.length_singleton, List.range'_1_concat] at hidx
    exact List.singleton_inj.1 (List.append_inj_right' hidx rfl)
  have hdiv : (e - 1) / c = p.chunkIndex := by
    rw [← hend, start]
    refine Nat.div_eq_of_lt_le ?_ ?_
    · omega
    · rw [Nat.succ_mul]
      omega
  rw [h.consecutive, touched, hdiv, hlast, List.length_append, List.length_singleton]
  congr 1
  omega

end ChunkRange

/-- A descriptor that has all the chunks of its total size. -/
structure ValueDescriptor.Complete (d : ValueDescriptor) : Prop where
  size_lt : d.totalSize < 2 ^ 64
  chunks : d.chunks.length = blockCount chunkSize d.totalSize

/-- `ValueDescriptor::is_complete`. The sum wraps. -/
def ValueDescriptor.isComplete (d : ValueDescriptor) : Bool :=
  decide (d.chunks.length = wrap64 (d.totalSize + chunkSize - 1) / chunkSize)

/-- `is_complete` counts the chunks, unless the total size is within a chunk of `2 ^ 64`. -/
theorem ValueDescriptor.isComplete_iff {d : ValueDescriptor}
    (h : d.totalSize + chunkSize ≤ 2 ^ 64) : d.isComplete = true ↔ d.Complete := by
  have hpos := chunkSize_pos
  rw [isComplete, decide_eq_true_eq, wrap64_of_lt (by omega)]
  exact ⟨fun hc => ⟨by omega, hc⟩, fun hc => hc.chunks⟩

namespace ChunkRange

/-- `compute` cuts every range of the address space into pieces that tile it, for every chunk size;
for the chunk size of the caches and a descriptor with all its chunks, the pieces are in the chunks
that `chunksForRange` gives. -/
theorem compute_tiles (range : Range) (hrange : range.offset + range.length ≤ 2 ^ 64) :
    (∀ (c : Nat) (hc : 0 < c),
      Tiles c range.offset (range.offset + range.length) (compute range c hc)) ∧
    ∀ d : ValueDescriptor, d.Complete → range.offset + range.length ≤ d.totalSize →
      (compute range chunkSize chunkSize_pos).map chunkIndex = d.chunksForRange range := by
  obtain ⟨o, len⟩ := range
  have htiles : ∀ (c : Nat) (hc : 0 < c), Tiles c o (o + len) (compute ⟨o, len⟩ c hc) := by
    intro c hc
    rw [compute]
    split
    · next hzero =>
      rw [show len = 0 from hzero]
      exact tiles_nil c o
    · exact tiles_computeLoop hc o len hrange
  refine ⟨htiles, fun d hd hle => ?_⟩
  rcases Nat.eq_zero_or_pos len with rfl | hpos
  · rw [compute, if_pos rfl, chunksForRange_zero]
    rfl
  · rw [(htiles chunkSize chunkSize_pos).indices (by omega)]
    exact (chunksForRange_of_count hd.size_lt hd.chunks hpos hle).symm

/-- The second half of an address space in chunks of 5 bytes. -/
theorem compute_tiles_top :
    2 ^ 63 + 2 ^ 63 ≤ 2 ^ 64 ∧
      Tiles 5 (2 ^ 63) (2 ^ 64) (compute ⟨2 ^ 63, 2 ^ 63⟩ 5 (Nat.succ_pos 4)) :=
  ⟨le_rfl, (compute_tiles ⟨2 ^ 63, 2 ^ 63⟩ le_rfl).1 5 (Nat.succ_pos 4)⟩

end ChunkRange

end ElCache
