import ElCache.Memory.Spec

/-!
# Concurrent access to the memory level

Any number of calls run at once, their atomic steps interleaved in any order, and chunks may be
evicted between any two steps. A put stores its chunks one by one before its descriptor and a get
reads the descriptor before the chunks, so a get can see any mixture of old and new chunks. What
saves it is content addressing: a chunk found under a name has the contents the name stands for, so
a get that finds all chunks has the value its descriptor described (`get_hit_sound`).
-/

namespace ElCache

open Slice LevelView

namespace MemoryCache

/-- Some chunks have been evicted; nothing else has changed. -/
structure Evicts (m m' : MemoryCache) : Prop where
  descriptors : m'.descriptors = m.descriptors
  arc : m'.chunkCache.Inv
  sizeFn : m'.chunkCache.sizeFn = m.chunkCache.sizeFn
  chunk : ∀ id c, m'.chunkCache.lookup id = some c → m.chunkCache.lookup id = some c

variable {H : ByteBuffer → Hash128} {K : Set ByteBuffer} {P : Set Put}

theorem Inv.evicts {m m' : MemoryCache} (h : m.Inv H K P) (hev : Evicts m m') : m'.Inv H K P where
  arc := hev.arc
  sizeFn := hev.sizeFn.trans h.sizeFn
  consistent := by
    refine ⟨fun id c hc => h.consistent.chunk id c (hev.chunk id c hc), fun k d hd => ?_⟩
    refine h.consistent.descriptor k d ?_
    rw [view, hev.descriptors] at hd
    exact hd

/-- Whatever happens between its steps, a fetch that finds all chunks of a described value finds
the blocks of the value. -/
theorem safe_fetchChunks_exact (hinj : Set.InjOn H K) {d : ValueDescriptor} {v : ByteBuffer}
    (hd : Describes H d v) (hv : { b | b ∈ blocks chunkSize v } ⊆ K) (allowPartial : Bool)
    {idxs : List Nat} (hi : ∀ i ∈ idxs, i < blockCount chunkSize v.length) :
    (fetchChunks getChunk d allowPartial idxs).Safe (Inv H K P) fun fetched =>
      fetched.2 = true → fetched.1 = idxs.map fun i => some ⟨block chunkSize v i⟩ := by
  induction idxs with
  | nil => exact Prog.safe_pure fun _ => rfl
  | cons idx rest ih =>
    have hlt := hi idx List.mem_cons_self
    rw [fetchChunks, hd.getElem?_chunks hlt]
    refine Prog.Safe.bind (safe_getChunk _) fun found hfound => ?_
    split
    · exact Prog.safe_pure fun h => by cases h
    · refine Prog.Safe.bind (ih fun i h => hi i (List.mem_cons_of_mem _ h)) fun fetched hf => ?_
      refine Prog.safe_pure fun hall => ?_
      obtain ⟨hsome, hrest⟩ := Bool.and_eq_true_iff.1 hall
      obtain ⟨c, rfl⟩ := Option.isSome_iff_exists.1 hsome
      -- the name leads to the block, as the hash is injective on what is stored
      obtain ⟨hname, hK⟩ := hfound c rfl
      have hblock : block chunkSize v idx = c.data :=
        hinj (hv (mem_blocks.2 ⟨idx, hlt, rfl⟩)) hK (congrArg ChunkId.hash hname)
      rw [hf hrest, List.map_cons, hblock]

/-- After the descriptor of a put has been found, a hit has the bytes of the value put. -/
theorem safe_readFound (hinj : Set.InjOn H K) {p : Put} (hp : p.chunks ⊆ K) (now : Timestamp)
    (opts : ReadOptions) :
    (readFound getChunk assembleValue now opts (p.descriptor H)).Safe (Inv H K P)
      fun r => r.isHit = true → r.data = requested p.value.bytes opts := by
  have hd := p.describes H
  have hv := p.value.size_lt
  rcases readFound_cases getChunk assembleValue now opts hd with
    ⟨result, heq, -, hdata⟩ | ⟨hlive, r, hr, ho, hlen⟩
  · rw [heq]
    exact Prog.safe_pure hdata
  · rw [readFound_eq _ hd hv hlive hr ho hlen]
    refine Prog.Safe.bind (safe_fetchChunks_exact hinj hd hp opts.allowPartial fun i hi =>
      lt_blockCount_of_mem_touched (by omega) (by omega) hi) fun fetched hf => ?_
    refine Prog.safe_pure fun hhit => ?_
    obtain ⟨hall, hdata⟩ := finishRead_hit hhit
    rw [hdata, hf hall, exactAssembly _ _ _ hv (by omega) (by omega), requested_eq hr ho]

/-- The thread-local obligation of `get`: a hit has the bytes of the value whose descriptor its
first step, `get_descriptor`, found. -/
theorem safeFrom_get (hinj : Set.InjOn H K) (hPK : ∀ p ∈ P, p.chunks ⊆ K) (now : Timestamp)
    (key : CacheKey) (opts : ReadOptions) :
    ((Call.get now key opts).prog H).SafeFrom (Inv H K P) fun m₀ reply =>
      ∀ r, reply = .read r → r.isHit = true → ∃ p ∈ P, p.key = key ∧
        m₀.descriptors key = some (p.descriptor H) ∧ r.data = requested p.value.bytes opts := by
  intro m hm
  refine ⟨hm, ?_⟩
  dsimp only
  cases hd : m.descriptors key with
  | none =>
    refine Prog.safe_pure fun r hr hhit => ?_
    cases hr
    cases hhit
  | some d =>
    obtain ⟨p, hp, hkey, rfl⟩ := hm.consistent.descriptor key d hd
    refine Prog.Safe.bind (safe_readFound hinj (hPK p hp) now opts) fun r hr => ?_
    refine Prog.safe_pure fun r' hr' hhit => ?_
    cases hr'
    exact ⟨p, hp, hkey, rfl, hr hhit⟩

/-- Every call meets its thread-local obligation; for calls other than `get` it is only to keep the
invariant. -/
theorem safeFrom_call (hinj : Set.InjOn H K) (hPK : ∀ p ∈ P, p.chunks ⊆ K) {call : Call}
    (hP : ∀ p, call = .put p → p ∈ P) (hK : call.chunks ⊆ K) :
    (call.prog H).SafeFrom (Inv H K P) fun m₀ reply =>
      ∀ now key opts r, call = .get now key opts → reply = .read r → r.isHit = true →
        ∃ p ∈ P, p.key = key ∧ m₀.descriptors key = some (p.descriptor H) ∧
          r.data = requested p.value.bytes opts := by
  have hsafe := (Call.safe (H := H) (fun p hp _ => hP p hp) hK).from
  cases call with
  | get now key opts =>
    intro m hm
    obtain ⟨hm', hrest⟩ := safeFrom_get hinj hPK now key opts m hm
    refine ⟨hm', hrest.mono fun reply hreply now' key' opts' r hcall hr hhit => ?_⟩
    cases hcall
    exact hreply r hr hhit
  | put _ | remove _ | check _ _ | putChunk _ | removeChunk _ =>
    refine hsafe.mono fun _ _ _ _ _ _ _ hcall => ?_
    cases hcall

/-- A hit under any interleaving returns exactly the requested bytes of the value whose descriptor
was stored under the key when the get looked for it. -/
theorem get_hit_sound {ι : Type*} [DecidableEq ι] (config : MemoryCacheConfig) (calls : ι → Call)
    (hinj : Set.InjOn H { b | ∃ i, b ∈ (calls i).chunks }) {pool : Pool ι MemoryCache Reply}
    (hreach : Pool.Reach Evicts (Pool.start (init config) fun i => (calls i).prog H) pool) {i : ι}
    {now : Timestamp} {key : CacheKey} {opts : ReadOptions} (hcall : calls i = .get now key opts)
    {m₀ : MemoryCache} (hfirst : (pool.threads i).first = some m₀) {r : ReadResult}
    (hret : (pool.threads i).prog = .ret (.read r)) (hhit : r.isHit = true) :
    ∃ j p, calls j = .put p ∧ p.key = key ∧ m₀.descriptors key = some (p.descriptor H) ∧
      r.data = requested p.value.bytes opts := by
  have hPK : ∀ p ∈ { p | ∃ j, calls j = .put p }, p.chunks ⊆ { b | ∃ i, b ∈ (calls i).chunks } := by
    rintro p ⟨j, hj⟩ b hb
    exact ⟨j, by rw [hj]; exact hb⟩
  obtain ⟨-, hthreads⟩ := Pool.Reach.inv hreach (fun m m' hm hev => hm.evicts hev)
    (fun j => safeFrom_call hinj hPK (fun p hp => ⟨j, hp⟩) fun b hb => ⟨j, hb⟩) (inv_init config)
  obtain ⟨-, hres⟩ := (hthreads i).result hfirst hret
  obtain ⟨p, ⟨j, hj⟩, hkey, hdesc, hdata⟩ := hres now key opts r hcall rfl hhit
  exact ⟨j, p, hj, hkey, hdesc, hdata⟩

/-- Two threads, one that puts a one-byte value and one that reads it. -/
def putAndGet : Bool → Call
  | false => .put (bytePut 1 7)
  | true => .get 0 ⟨[1]⟩ {}

/-- The get run after the put, as an interleaving, hits and returns the byte. -/
theorem get_hit_sound_putAndGet : ∃ (pool : Pool Bool MemoryCache Reply) (m₀ : MemoryCache)
    (r : ReadResult),
    Pool.Reach Evicts (Pool.start (init {}) fun i => (putAndGet i).prog sampleHash) pool ∧
      (pool.threads true).first = some m₀ ∧ (pool.threads true).prog = .ret (.read r) ∧
      r.isHit = true ∧ ∃ j p, putAndGet j = .put p ∧ p.key = ⟨[1]⟩ ∧
        m₀.descriptors ⟨[1]⟩ = some (p.descriptor sampleHash) ∧
        r.data = requested p.value.bytes {} := by
  let p : Put := bytePut 1 7
  have hblocks : blocks chunkSize p.value.bytes = [[7]] := blocks_byte 7
  have hinj : Set.InjOn sampleHash { b | ∃ i, b ∈ (putAndGet i).chunks } := by
    have honly : ∀ b ∈ { b | ∃ i, b ∈ (putAndGet i).chunks }, b = [7] := by
      rintro b ⟨i, hb⟩
      cases i with
      | false =>
        change b ∈ blocks chunkSize p.value.bytes at hb
        rw [hblocks] at hb
        exact List.mem_singleton.1 hb
      | true => cases hb
    exact fun a ha b hb _ => (honly a ha).trans (honly b hb).symm
  obtain ⟨pool, hreach, hfirst, hret⟩ := Pool.exists_reach_run_pair (E := Evicts) (init {})
    (fun i => (putAndGet i).prog sampleHash) (i := false) (j := true) (by decide) rfl
  have hhit := get_after_put hinj (inv_init (P := {p}) {}) (p := p) rfl
    (fun b hb => ⟨false, hb⟩) (by decide) (by decide) 0 rfl {} rfl
    (.inl Nat.one_pos)
  have hread : (pool.threads true).prog =
      .ret (.read ((get 0 p.key {}).run ((put sampleHash p).run (init {})).2).1) := by
    rw [hret]
    simp only [putAndGet, Call.prog, Prog.run_bind, Prog.run_pure]
    rfl
  exact ⟨pool, _, _, hreach, hfirst, hread, hhit,
    get_hit_sound {} putAndGet hinj hreach rfl hfirst hread hhit⟩

end MemoryCache

end ElCache
