import ElCache.Partial.Gaps

/-!
# Partial reads

For each size of a value, each set of its chunks that is still held and each range, a level labels
its partial hits correctly, for all values and runs of this kind, if and only if no held chunk that
the range needs follows a missing one or, in the memory level, the held chunks come too late to be
read (`partialReads_iff`).
-/

namespace ElCache

open Slice

/-! ## Reading from a view -/

namespace LevelView

variable {H : ByteBuffer → Hash128} {w : LevelView} {v : ByteBuffer}
  {assemble : List (Option Chunk) → Range → ByteBuffer} {d : ValueDescriptor} {key : CacheKey}
  {S : Nat → Bool}

/-- A read with a needed chunk missing returns what is assembled from the held ones. -/
theorem read_of_missing (hexact : ExactAssembly assemble) (hd : Describes H d v)
    (hv : v.length < 2 ^ 64) (hw : w.Serves H v) {now : Timestamp}
    (hkey : w.descriptor key = some d) (hlive : d.metadata.isExpired now = false)
    (hS : ∀ i < blockCount chunkSize v.length, w.holds H v i = S i) {range : Option Range}
    {o len : Nat} (ho : (range.getD ⟨0, v.length⟩).offset = o)
    (hlen : min (range.getD ⟨0, v.length⟩).length (v.length - o) = len) (hpos : 0 < len)
    (hmiss : (touched chunkSize o (o + len)).all S = false) :
    w.read assemble now key { allowPartial := true, range := range } =
      let data := assemble ((touched chunkSize o (o + len)).map (held S v)) ⟨o, len⟩
      { result := .partialHit, data := data
        actualRange := ⟨o, data.length⟩, metadata := some d.metadata } := by
  obtain ⟨⟨o', n⟩, hr⟩ : ∃ r, range.getD ⟨0, v.length⟩ = r := ⟨_, rfl⟩
  rw [hr] at ho hlen
  simp only at ho hlen
  subst ho
  subst hlen
  have hle : o' + min n (v.length - o') ≤ v.length := by omega
  have hneed : ∀ i ∈ touched chunkSize o' (o' + min n (v.length - o')), w.holds H v i = S i :=
    fun i hi => hS i (lt_blockCount_of_mem_touched (by omega) hle hi)
  have hall : (touched chunkSize o' (o' + min n (v.length - o'))).all (w.holds H v) = false := by
    rw [← hmiss, Bool.eq_iff_iff, List.all_eq_true, List.all_eq_true]
    exact forall₂_congr fun i hi => by rw [hneed i hi]
  have hmap : (touched chunkSize o' (o' + min n (v.length - o'))).map (held (w.holds H v) v) =
      (touched chunkSize o' (o' + min n (v.length - o'))).map (held S v) :=
    List.map_congr_left fun i hi => by rw [held, held, hneed i hi]
  rw [read_eq hexact hd hv hw hkey hlive hr (by simp only; omega) (by simp only; omega)]
  simp only [hall, Bool.false_eq_true, if_false, if_true, hmap]

/-- A read labels a partial hit correctly if the assembly does, on the chunks that are held. -/
theorem labelsBytes_read (hexact : ExactAssembly assemble) (hd : Describes H d v)
    (hv : v.length < 2 ^ 64) (hw : w.Serves H v) (now : Timestamp)
    (hkey : w.descriptor key = some d)
    (hS : ∀ i < blockCount chunkSize v.length, w.holds H v i = S i) (range : Option Range)
    (hlabel : ∀ o len, (range.getD ⟨0, v.length⟩).offset = o →
      min (range.getD ⟨0, v.length⟩).length (v.length - o) = len → 0 < len → o + len ≤ v.length →
      (touched chunkSize o (o + len)).all S = false →
      assemble ((touched chunkSize o (o + len)).map (held S v)) ⟨o, len⟩ = slice v o
        (o + (assemble ((touched chunkSize o (o + len)).map (held S v)) ⟨o, len⟩).length)) :
    LabelsBytes v (w.read assemble now key { allowPartial := true, range := range }) := by
  intro hpartial
  rcases read_cases hd hkey assemble now { allowPartial := true, range := range } with
    ⟨hnot, -⟩ | ⟨hlive, ⟨o, n⟩, hr, ho, hlen⟩
  · rw [hnot] at hpartial
    cases hpartial
  simp only at hr ho hlen
  have hpos : 0 < min n (v.length - o) := by omega
  have hle : o + min n (v.length - o) ≤ v.length := by omega
  cases hmiss : (touched chunkSize o (o + min n (v.length - o))).all S with
  | true =>
    have hall := fun i hi => (hS i (lt_blockCount_of_mem_touched (by omega) hle hi)).trans
      (List.all_eq_true.1 hmiss i hi)
    rw [read_eq hexact hd hv hw hkey hlive hr ho hlen] at hpartial
    simp only [List.all_eq_true.2 hall, if_true] at hpartial
    cases hpartial
  | false =>
    have ho' : (range.getD ⟨0, v.length⟩).offset = o := by rw [hr]
    have hlen' : min (range.getD ⟨0, v.length⟩).length (v.length - o) =
        min n (v.length - o) := by rw [hr]
    rw [read_of_missing hexact hd hv hw hkey hlive hS ho' hlen' hpos hmiss]
    exact ⟨rfl, hlabel o _ ho' hlen' hpos hle hmiss⟩

end LevelView

/-! ## The chunks of a marked value -/

section
variable {n : Nat} {S : Nat → Bool}

/-- The hash of the stand-in sees the length and the repeated byte. -/
theorem sampleHash_replicate {l : Nat} (hl : 0 < l) (b : UInt8) :
    sampleHash (List.replicate l b) = ⟨UInt64.ofNat l, b.toUInt64⟩ := by
  obtain ⟨m, rfl⟩ : ∃ m, l = m + 1 := ⟨l - 1, by omega⟩
  simp [sampleHash, List.replicate_succ]

/-- Each block of a marked value repeats its mark. -/
theorem block_markedValue (i : Nat) :
    block chunkSize (markedValue n S) i =
      List.replicate (min chunkSize (n - i * chunkSize)) (if S i then 1 else 0) := by
  rw [List.eq_replicate_iff, length_block, length_markedValue]
  refine ⟨rfl, fun x hx => ?_⟩
  obtain ⟨m, hm⟩ := List.mem_iff_getElem?.1 hx
  rw [block, getElem?_slice] at hm
  split at hm
  · next hlt =>
    have hchunk : (i * chunkSize + m) / chunkSize = i :=
      Nat.div_eq_of_lt_le (Nat.le_add_right _ _) hlt
    have hn : i * chunkSize + m < n := by
      by_contra hge
      rw [List.getElem?_eq_none (by rw [length_markedValue]; omega)] at hm
      cases hm
    rw [getElem?_markedValue n S hn, hchunk] at hm
    exact (Option.some.inj hm).symm
  · cases hm

/-- The hash of a block shows its length and its mark. -/
theorem sampleHash_block {i : Nat} (hi : i < blockCount chunkSize n) :
    sampleHash (block chunkSize (markedValue n S) i) =
      ⟨UInt64.ofNat (min chunkSize (n - i * chunkSize)), if S i then 1 else 0⟩ := by
  have hpos : 0 < min chunkSize (n - i * chunkSize) := by
    have := (lt_blockCount chunkSize_pos).1 hi
    exact Nat.lt_min.2 ⟨chunkSize_pos, by omega⟩
  rw [block_markedValue, sampleHash_replicate hpos]
  split <;> rfl

/-- Blocks of a marked value with the same hash have the same mark. -/
theorem mark_eq_of_sampleHash {i j : Nat} (hi : i < blockCount chunkSize n)
    (hj : j < blockCount chunkSize n)
    (h : sampleHash (block chunkSize (markedValue n S) i) =
      sampleHash (block chunkSize (markedValue n S) j)) : S i = S j := by
  rw [sampleHash_block hi, sampleHash_block hj, Hash128.mk.injEq] at h
  cases hSi : S i <;> cases hSj : S j <;> simp_all

/-- The stand-in is injective on the blocks of a marked value. -/
theorem injOn_sampleHash (n : Nat) (S : Nat → Bool) :
    Set.InjOn sampleHash { b | b ∈ blocks chunkSize (markedValue n S) } := by
  intro a ha b hb hab
  obtain ⟨i, hi, rfl⟩ := mem_blocks.1 ha
  obtain ⟨j, hj, rfl⟩ := mem_blocks.1 hb
  rw [length_markedValue] at hi hj
  have hmark := mark_eq_of_sampleHash hi hj hab
  rw [sampleHash_block hi, sampleHash_block hj, Hash128.mk.injEq] at hab
  have hlt : ∀ k, min chunkSize (n - k * chunkSize) < 2 ^ 64 := fun k =>
    lt_of_le_of_lt (Nat.min_le_left _ _) chunkSize_lt
  have hlen : min chunkSize (n - i * chunkSize) = min chunkSize (n - j * chunkSize) := by
    have := congrArg UInt64.toNat hab.1
    rwa [UInt64.toNat_ofNat', UInt64.toNat_ofNat', Nat.mod_eq_of_lt (hlt i),
      Nat.mod_eq_of_lt (hlt j)] at this
  rw [block_markedValue, block_markedValue, hlen, hmark]

/-- The names of the blocks that are to be missing. -/
def missingIds (n : Nat) (S : Nat → Bool) : List ChunkId :=
  ((List.range (blockCount chunkSize n)).filter fun i => !S i).map fun i =>
    ⟨sampleHash (block chunkSize (markedValue n S) i)⟩

/-- A block's name is among the missing ones exactly when its mark says so. -/
theorem mem_missingIds {i : Nat} (hi : i < blockCount chunkSize n) :
    (⟨sampleHash (block chunkSize (markedValue n S) i)⟩ : ChunkId) ∈ missingIds n S ↔
      S i = false := by
  simp only [missingIds, List.mem_map, List.mem_filter, List.mem_range, Bool.not_eq_true',
    ChunkId.mk.injEq]
  constructor
  · rintro ⟨j, ⟨hj, hSj⟩, hhash⟩
    rw [← mark_eq_of_sampleHash hj hi hhash, hSj]
  · intro hSi
    exact ⟨i, ⟨hi, hSi⟩, rfl⟩

/-- The put of a marked value. -/
def markedPut (n : Nat) (S : Nat → Bool) (hn : n < 2 ^ 64) : Put :=
  ⟨0, ⟨[]⟩, ⟨markedValue n S, by rwa [length_markedValue]⟩, {}⟩

/-- Where exactly the chunks of `S` of the marked value are held, a read of it is labelled wrongly
if it has a gap and the assembly goes wrong on it. -/
theorem LevelView.not_labelsBytes_marked {assemble : List (Option Chunk) → Range → ByteBuffer}
    (hexact : ExactAssembly assemble) {w : LevelView} {hn : n < 2 ^ 64}
    (hw : w.Serves sampleHash (markedValue n S))
    (hkey : w.descriptor ⟨[]⟩ = some ((markedPut n S hn).descriptor sampleHash))
    (hheld : ∀ i < blockCount chunkSize n, w.holds sampleHash (markedValue n S) i = S i)
    {range : Option Range} (hgap : ¬ Gapless S (neededChunks n range))
    (hwrong : ∀ o len, (range.getD ⟨0, n⟩).offset = o →
      min (range.getD ⟨0, n⟩).length (n - o) = len → 0 < len → o + len ≤ n →
      (touched chunkSize o (o + len)).all S = false ∧
      assemble ((touched chunkSize o (o + len)).map (held S (markedValue n S))) ⟨o, len⟩ ≠
        slice (markedValue n S) o (o + (assemble
          ((touched chunkSize o (o + len)).map (held S (markedValue n S))) ⟨o, len⟩).length)) :
    ¬ LabelsBytes (markedValue n S)
      (w.read assemble 0 ⟨[]⟩ { allowPartial := true, range := range }) := by
  obtain ⟨⟨o, l⟩, hr⟩ : ∃ r, range.getD ⟨0, n⟩ = r := ⟨_, rfl⟩
  have hpos : 0 < min l (n - o) := by
    refine Nat.pos_of_ne_zero fun hzero => hgap ?_
    rw [neededChunks, hr]
    simp only [hzero, Nat.add_zero]
    exact gapless_empty S o
  obtain ⟨hmiss, hne⟩ := hwrong o (min l (n - o)) (by rw [hr]) (by rw [hr]) hpos (by omega)
  have hlength := length_markedValue n S
  rw [read_of_missing hexact ((markedPut n S hn).describes sampleHash) (hlength.trans_lt hn) hw hkey
    rfl (by rwa [markedPut, hlength]) (by rw [markedPut, hlength, hr])
    (by rw [markedPut, hlength, hr]) hpos hmiss]
  exact fun h => hne (h rfl).2

end

/-! ## Runs of the memory level -/

namespace MemoryCache

variable {H : ByteBuffer → Hash128} {n : Nat} {S : Nat → Bool} {range : Option Range}

/-- After every run, a read of a stored value of `n` bytes whose held chunks are those of `S` labels
a partial hit correctly. -/
def PartialReadsLabelled (n : Nat) (S : Nat → Bool) (range : Option Range) : Prop :=
  ∀ (H : ByteBuffer → Hash128) (config : MemoryCacheConfig) (calls : List Call) (p : Put)
    (now : Timestamp), Set.InjOn H (runChunks calls) → .put p ∈ calls → p.value.size = n →
    (after H config calls).descriptors p.key = some (p.descriptor H) →
    (∀ i < blockCount chunkSize n, (after H config calls).view.holds H p.value.bytes i = S i) →
    LabelsBytes p.value.bytes
      ((get now p.key { allowPartial := true, range := range }).run (after H config calls)).1

/-- The cases in which partial hits are labelled correctly. -/
def LabelCondition (n : Nat) (S : Nat → Bool) (range : Option Range) : Prop :=
  let r := range.getD ⟨0, n⟩
  Gapless S (neededChunks n range) ∨ HeldTooLate S r.offset (min r.length (n - r.offset))

/-- What the state after a run holds for a put of the run. -/
theorem serves_after (config : MemoryCacheConfig) {calls : List Call} {p : Put}
    (hinj : Set.InjOn H (runChunks calls)) (hp : .put p ∈ calls) :
    (after H config calls).view.Serves H p.value.bytes :=
  (inv_after config calls).consistent.serves hinj fun _ hb => ⟨.put p, hp, hb⟩

theorem partialReadsLabelled (h : LabelCondition n S range) : PartialReadsLabelled n S range := by
  intro H config calls p now hinj hp hsize hkey hheld
  subst hsize
  rw [(observes_get now p.key _ _ (inv_after config calls)).1]
  refine LevelView.labelsBytes_read exactAssembly (p.describes H) p.value.size_lt
    (serves_after config hinj hp) now hkey hheld range fun o len ho hlen hpos hle hmiss => ?_
  refine assembleValue_label p.value.size_lt hpos hle hmiss ?_
  subst ho
  subst hlen
  exact h

/-- Some run leaves exactly the chunks of `S` of the marked value. -/
theorem exists_markedRun (S : Nat → Bool) (hn : n ≤ maxValueSize) (hn' : n < 2 ^ 64) :
    ∃ config calls, runChunks calls = { b | b ∈ blocks chunkSize (markedValue n S) } ∧
      Call.put (markedPut n S hn') ∈ calls ∧
      (after sampleHash config calls).descriptors ⟨[]⟩ =
        some ((markedPut n S hn').descriptor sampleHash) ∧
      ∀ i < blockCount chunkSize n,
        (after sampleHash config calls).view.holds sampleHash (markedValue n S) i = S i := by
  let p := markedPut n S hn'
  let m := ((put sampleHash p).run (init { maxSize := n })).2
  have hacc : Accepts p := ⟨Nat.zero_le _, (length_markedValue n S).trans_le hn⟩
  have harc : (init { maxSize := n }).chunkCache.Inv := ARCCache.inv_empty _ _
  have hinv : m.Inv sampleHash p.chunks {p} :=
    (((steps_put (H := sampleHash) (P := {p}) rfl (fun _ hb => hb)).safe
      fun _ _ hm hstep => Inv.step hm hstep).run (inv_init _)).1
  have hafter : after sampleHash { maxSize := n } (.put p :: (missingIds n S).map .removeChunk) =
      ((removeChunks (missingIds n S)).run m).2 := by
    rw [after, runOps_cons, exec_put, runOps_removeChunk]
  obtain ⟨-, hdesc, hlook⟩ := run_removeChunks hinv.arc (missingIds n S)
  refine ⟨{ maxSize := n }, .put p :: (missingIds n S).map .removeChunk, ?_, List.mem_cons_self, ?_,
    fun i hi => ?_⟩
  · refine Set.ext fun b => ⟨?_, fun hb => ⟨.put p, List.mem_cons_self, hb⟩⟩
    rintro ⟨call, hcall, hb⟩
    rcases List.mem_cons.1 hcall with rfl | hcall
    · exact hb
    · obtain ⟨id, -, rfl⟩ := List.mem_map.1 hcall
      cases hb
  · rw [hafter, hdesc, (run_put harc hacc).2.1]
    exact Function.update_self _ _ _
  · rw [hafter, LevelView.holds]
    simp only [view, hlook]
    split
    · next hmiss => rw [(mem_missingIds hi).1 hmiss]; rfl
    · next hkeep =>
      rw [mem_missingIds hi, Bool.not_eq_false] at hkeep
      rw [hkeep]
      refine run_put_fits harc rfl hacc ?_ ⟨block chunkSize (markedValue n S) i⟩ ?_
      · exact (Nat.zero_add _).trans_le (length_markedValue n S).le
      · rw [splitValue_eq]
        exact List.mem_map_of_mem (mem_blocks.2 ⟨i, hi.trans_eq (by
          rw [← length_markedValue n S]; rfl), rfl⟩)

/-- Outside these cases a partial hit of the marked value is labelled wrongly. -/
theorem not_partialReadsLabelled (hn : n ≤ maxValueSize) (h : ¬ LabelCondition n S range) :
    ¬ PartialReadsLabelled n S range := by
  intro hall
  have hn' : n < 2 ^ 64 := hn.trans_lt maxValueSize_lt
  obtain ⟨config, calls, hchunks, hput, hkey, hheld⟩ := exists_markedRun S hn hn'
  have hinj : Set.InjOn sampleHash (runChunks calls) := hchunks ▸ injOn_sampleHash n S
  have hlabel := hall sampleHash config calls (markedPut n S hn') 0 hinj hput
    (length_markedValue n S) hkey hheld
  rw [(observes_get 0 _ _ _ (inv_after config calls)).1] at hlabel
  rw [LabelCondition, not_or] at h
  refine LevelView.not_labelsBytes_marked exactAssembly (serves_after config hinj hput) hkey hheld
    h.1 ?_ hlabel
  rintro o len rfl rfl hpos hle
  exact assembleValue_mislabel hn' hpos hle h.1 h.2

end MemoryCache

/-! ## Runs of the disk level -/

namespace DiskCache

variable {H : ByteBuffer → Hash128} {n : Nat} {S : Nat → Bool} {range : Option Range}

/-- After every run without write failures, a read of a stored value of `n` bytes whose held chunks
are those of `S` labels a partial hit correctly. -/
def PartialReadsLabelled (n : Nat) (S : Nat → Bool) (range : Option Range) : Prop :=
  ∀ (H : ByteBuffer → Hash128) (config : DiskCacheConfig) (calls : List Call) (env : WriteEnv)
    (p : Put) (now : Timestamp), (∀ call ∈ calls, call.Clean) → Set.InjOn H (runChunks calls) →
    .put env p ∈ calls → p.value.size = n →
    (after H config calls).descriptors p.key = some (p.descriptor H) →
    (∀ i < blockCount chunkSize n, (after H config calls).view.holds H p.value.bytes i = S i) →
    LabelsBytes p.value.bytes
      ((get now p.key { allowPartial := true, range := range }).run (after H config calls)).1

/-- What the state after a run holds for a put of the run. -/
theorem serves_after (config : DiskCacheConfig) {calls : List Call} {env : WriteEnv} {p : Put}
    (hclean : ∀ call ∈ calls, call.Clean) (hinj : Set.InjOn H (runChunks calls))
    (hp : .put env p ∈ calls) : (after H config calls).view.Serves H p.value.bytes :=
  LevelView.Consistent.serves (inv_after config hclean) hinj fun _ hb => ⟨.put env p, hp, hb⟩

theorem partialReadsLabelled (h : Gapless S (neededChunks n range)) :
    PartialReadsLabelled n S range := by
  intro H config calls env p now hclean hinj hp hsize hkey hheld
  subst hsize
  rw [(observes_get (fun _ => True) now p.key _ _ trivial).1]
  refine LevelView.labelsBytes_read exactAssembly (p.describes H) p.value.size_lt
    (serves_after config hclean hinj hp) now hkey hheld range fun o len ho hlen hpos hle hmiss => ?_
  refine assembleValue_label p.value.size_lt hpos hle hmiss ?_
  subst ho
  subst hlen
  exact h

/-- After a put and the removal of some chunks, the descriptor is that of the put, and of the chunks
of the value those that were not removed are held. -/
theorem view_after_put_removeChunks (config : DiskCacheConfig) {env : WriteEnv} (henv : env.Clean)
    {p : Put} (hkey : p.key.size ≤ maxKeySize) (ids : List ChunkId) :
    (after H config (.put env p :: ids.map .removeChunk)).view.descriptor p.key =
        some (p.descriptor H) ∧
      ∀ c ∈ splitValue p.value.bytes,
        ((after H config (.put env p :: ids.map .removeChunk)).view.chunk (c.id H)).isSome =
          !decide (c.id H ∈ ids) := by
  obtain ⟨-, hdesc, -, hheld⟩ := run_put (H := H) henv hkey { config := config }
  have hview : (after H config (.put env p :: ids.map .removeChunk)).view =
      ⟨((put H env p).run { config := config }).2.descriptors, fun id =>
        if id ∈ ids then none else ((put H env p).run { config := config }).2.view.chunk id⟩ := by
    rw [← view_removeChunks, after, runOps_cons, runOps_removeChunk, exec]
  rw [hview, hdesc]
  refine ⟨Function.update_self _ _ _, fun c hc => ?_⟩
  simp only
  split
  · next hmem => simp [hmem]
  · next hmem => simp [hmem, hheld c hc]

/-- Some run leaves exactly the chunks of `S` of the marked value. -/
theorem exists_markedRun (S : Nat → Bool) (hn : n < 2 ^ 64) :
    ∃ config calls env, (∀ call ∈ calls, call.Clean) ∧
      runChunks calls = { b | b ∈ blocks chunkSize (markedValue n S) } ∧
      Call.put env (markedPut n S hn) ∈ calls ∧
      (after sampleHash config calls).view.descriptor (markedPut n S hn).key =
        some ((markedPut n S hn).descriptor sampleHash) ∧
      ∀ i < blockCount chunkSize n,
        (after sampleHash config calls).view.holds sampleHash (markedValue n S) i = S i := by
  obtain ⟨env, henv⟩ : ∃ env : WriteEnv, env.Clean :=
    ⟨{ tick := fun _ => 0 }, fun _ => rfl, rfl⟩
  obtain ⟨config⟩ : Nonempty DiskCacheConfig := ⟨{}⟩
  obtain ⟨hdesc, hheld⟩ := view_after_put_removeChunks (H := sampleHash) config henv
    (p := markedPut n S hn) (Nat.zero_le _) (missingIds n S)
  refine ⟨config, _, env, ?_, ?_, List.mem_cons_self, hdesc, fun i hi => ?_⟩
  · intro call hcall
    rcases List.mem_cons.1 hcall with rfl | hcall
    · exact henv
    · obtain ⟨id, -, rfl⟩ := List.mem_map.1 hcall
      trivial
  · refine Set.ext fun b => ⟨?_, fun hb => ⟨_, List.mem_cons_self, hb⟩⟩
    rintro ⟨call, hcall, hb⟩
    rcases List.mem_cons.1 hcall with rfl | hcall
    · exact hb
    · obtain ⟨id, -, rfl⟩ := List.mem_map.1 hcall
      cases hb
  · have hmem : (⟨block chunkSize (markedValue n S) i⟩ : Chunk) ∈ splitValue (markedValue n S) := by
      rw [splitValue_eq]
      exact List.mem_map_of_mem (mem_blocks.2 ⟨i, by rwa [length_markedValue], rfl⟩)
    have hkept := hheld _ hmem
    rw [Chunk.id_mk] at hkept
    rw [LevelView.holds, hkept]
    have hmiss := mem_missingIds (S := S) hi
    cases hSi : S i with
    | true => simp [hmiss, hSi]
    | false => simp [hmiss, hSi]

/-- With a gap, a partial hit of the marked value is labelled wrongly. -/
theorem not_partialReadsLabelled (hn : n < 2 ^ 64) (h : ¬ Gapless S (neededChunks n range)) :
    ¬ PartialReadsLabelled n S range := by
  intro hall
  obtain ⟨config, calls, env, hclean, hchunks, hput, hkey, hheld⟩ := exists_markedRun S hn
  have hinj : Set.InjOn sampleHash (runChunks calls) := hchunks ▸ injOn_sampleHash n S
  have hlabel := hall sampleHash config calls env (markedPut n S hn) 0 hclean hinj hput
    (length_markedValue n S) hkey hheld
  rw [(observes_get (fun _ => True) 0 _ _ _ trivial).1] at hlabel
  refine LevelView.not_labelsBytes_marked exactAssembly (serves_after config hclean hinj hput) hkey
    hheld h ?_ hlabel
  rintro o len rfl rfl hpos hle
  exact assembleValue_mislabel hn hpos hle h

end DiskCache

/-! ## The two levels -/

/-- For values of `n` bytes of which exactly the chunks of `S` are held, and a given range: the
memory level labels its partial hits correctly if and only if no held chunk the range needs follows
a missing one, or the held chunks come too late to be read; the disk level, if and only if no held
chunk follows a missing one. -/
theorem partialReads_iff (n : Nat) (S : Nat → Bool) (range : Option Range) :
    (n ≤ maxValueSize →
      (MemoryCache.PartialReadsLabelled n S range ↔ MemoryCache.LabelCondition n S range)) ∧
    (n < 2 ^ 64 →
      (DiskCache.PartialReadsLabelled n S range ↔ Gapless S (neededChunks n range))) := by
  refine ⟨fun hn => ⟨fun h => ?_, MemoryCache.partialReadsLabelled⟩,
    fun hn => ⟨fun h => ?_, DiskCache.partialReadsLabelled⟩⟩
  · by_contra hcond
    exact MemoryCache.not_partialReadsLabelled hn hcond h
  · by_contra hcond
    exact DiskCache.not_partialReadsLabelled hn hcond h

theorem mul_chunkSize_le {k : Nat} (hk : k ≤ 4) : k * chunkSize ≤ maxValueSize :=
  (Nat.mul_le_mul hk chunkSize_le).trans (by decide)

/-- Three chunks of which the last is missing. -/
theorem partialReads_iff_last : MemoryCache.PartialReadsLabelled (3 * chunkSize) (· < 2) none ∧
    DiskCache.PartialReadsLabelled (3 * chunkSize) (· < 2) none := by
  have hgap : Gapless (· < 2) (neededChunks (3 * chunkSize) none) := by
    intro i _ j _ hij hj
    simp only [decide_eq_true_eq] at hj ⊢
    omega
  have hn := mul_chunkSize_le (k := 3) (by decide)
  obtain ⟨hmem, hdisk⟩ := partialReads_iff (3 * chunkSize) (· < 2) none
  exact ⟨(hmem hn).2 (.inl hgap), (hdisk (hn.trans_lt maxValueSize_lt)).2 hgap⟩

/-- Two chunks of which the first is missing: both levels return the second in its place. -/
theorem not_partialReadsLabelled_first :
    ¬ MemoryCache.PartialReadsLabelled (2 * chunkSize) (· == 1) none ∧
      ¬ DiskCache.PartialReadsLabelled (2 * chunkSize) (· == 1) none := by
  have hpos := chunkSize_pos
  have hneeded : ∀ i < 2, i ∈ neededChunks (2 * chunkSize) none := by
    intro i hi
    have hlt := Nat.mul_lt_mul_of_pos_right hi hpos
    refine (mem_touched hpos ?_).2 ?_ <;> simp [hlt, hpos]
  have hgap : ¬ Gapless (· == 1) (neededChunks (2 * chunkSize) none) := fun h =>
    absurd (h 0 (hneeded 0 (by decide)) 1 (hneeded 1 (by decide)) (by decide) rfl) (by decide)
  have hn := mul_chunkSize_le (k := 2) (by decide)
  refine ⟨MemoryCache.not_partialReadsLabelled hn ?_,
    DiskCache.not_partialReadsLabelled (hn.trans_lt maxValueSize_lt) hgap⟩
  rintro (h | h)
  · exact hgap h
  · have hlate := h 1 (hneeded 1 (by decide)) rfl
    simp only [Option.getD_none, Nat.zero_div, Nat.sub_zero, Nat.one_mul] at hlate
    omega

end ElCache
