import ElCache.Coordinator.Spec
import ElCache.Http.Numbers

/-!
# The time to live of a value

A put request names a time to live in seconds. The handler converts the text, the cache converts the
seconds to nanoseconds and adds them to the time of the put, and a read compares the sum with the
clock. Both computations are in signed 64-bit arithmetic, so a time to live that ends after the last
time the clock can show is not treated as one that never ends (`ttl_exact_iff`).
-/

namespace ElCache

variable {m : MemoryCache} {assemble : List (Option Chunk) → Range → ByteBuffer}
  {desc : ValueDescriptor}

open Text

/-- An overflow of the conversion cancels out in the sum. -/
theorem addSeconds_eq (t : Timestamp) (n : Int) :
    t.addSeconds n = wrapInt64 (t + n * 1000000000) := by
  rw [Timestamp.addSeconds, wrapInt64, wrapInt64, wrapInt64, Int.add_bmod_bmod]

theorem result_finishRead {allowPartial : Bool} {range : Range}
    {fetched : List (Option Chunk) × Bool} :
    (finishRead assemble desc allowPartial range fetched).result ≠ .expired := by
  rw [finishRead]
  split
  · intro h
    cases h
  · dsimp only
    split
    · intro h
      cases h
    · intro h
      cases h

/-- A read of a found value is refused as expired exactly if its metadata says so. -/
theorem readFound_expired_iff {σ : Type} {getChunk : ChunkId → Prog σ (Option Chunk)}
    {now : Timestamp} {opts : ReadOptions} (c : σ) :
    ((readFound getChunk assemble now opts desc).run c).1.result = .expired ↔
      desc.metadata.isExpired now = true := by
  rw [readFound]
  split
  · next hexp => exact iff_of_true rfl hexp
  · next hexp =>
    refine iff_of_false (fun h => ?_) hexp
    dsimp only at h
    split at h
    · cases h
    · rw [Prog.run_bind] at h
      exact result_finishRead h

namespace MemoryCache

variable {H : ByteBuffer → Hash128}

/-- After an accepted put, a read at `now` finds the value expired exactly if the time to live has
run out, as the arithmetic of the source has it. -/
theorem get_expired_iff (hm : m.chunkCache.Inv) {p : Put} (hp : Accepts p) {n : Int}
    (hn : p.opts.ttl = some n) (now : Timestamp) (opts : ReadOptions) :
    ((get now p.key opts).run ((put H p).run m).2).1.result = .expired ↔
      p.now.addSeconds n ≤ now := by
  obtain ⟨-, hdesc, -⟩ := run_put (H := H) hm hp
  have hfound : ((put H p).run m).2.descriptors p.key = some (p.descriptor H) := by
    rw [hdesc, Function.update_self]
  rw [get, readValue, Prog.run_bind, getDescriptor, Prog.run_atomic]
  simp only [hfound]
  rw [readFound_expired_iff, CacheMetadata.isExpired]
  simp only [Put.descriptor, hn, Option.map_some, decide_eq_true_eq]

end MemoryCache

namespace CacheCoordinator

/-- A put that does not skip the memory level leaves it as the level's own put does, whatever
becomes of the disk level. -/
theorem memory_put (H : ByteBuffer → Hash128) {p : PutCall} (hno : p.opts.noMemory = false)
    {c : CacheCoordinator} (hm : c.memory = some m) :
    ((put H p).run c).2.memory = some ((MemoryCache.put H p.memoryPut).run m).2 := by
  have hdisk : ∀ c : CacheCoordinator, ((putToDisk H p).run c).2.memory = c.memory := by
    intro c
    rw [putToDisk]
    split
    · rfl
    · rw [run_onDisk]
  rw [put, Prog.run_bind, putToMemory, if_neg (hno ▸ Bool.false_ne_true), run_onMemory]
  simp only [hm, Option.map_some]
  split
  · rfl
  · rw [Prog.run_bind]
    split
    · exact hdisk _
    · split
      · exact hdisk _
      · exact hdisk _

end CacheCoordinator

namespace HttpHandler

open Handling

/-- The request puts a value under `key` that the memory level accepts, to live for `n` seconds. -/
structure PutsFor (req : HttpRequest) (key : ByteBuffer) (n : Int) : Prop where
  path : req.path = Endpoint.path key .put
  nonempty : key ≠ []
  key_le : key.length ≤ maxKeySize
  body_le : req.body.size ≤ maxValueSize
  memory : flagged req "X-ElCache-No-Memory" = false
  ttl : stoll (req.header "X-ElCache-TTL") = .ok n
  flags : ∃ flags, optionalNumber stoull (req.header "X-ElCache-Flags") = .ok flags

theorem optionalNumber_stoll {text : ByteBuffer} {n : Int} (h : stoll text = .ok n) :
    optionalNumber stoll text = .ok (some n) := by
  rw [optionalNumber]
  split
  · next hempty =>
    rw [List.isEmpty_iff.1 hempty] at h
    cases h
  · rw [h]
    rfl

/-- The memory level after a put request. -/
theorem memory_handlePut (H : ByteBuffer → Hash128) (env : HttpEnv) (s : HttpHandler)
    {req : HttpRequest} {key : ByteBuffer} {n : Int} (hreq : PutsFor req key n)
    (hs : s.cache.memory = some m) :
    ∃ flags, (outcome (handlePut H env req) s).2.cache.memory = some
      ((MemoryCache.put H (putCall env req key (some n) flags).memoryPut).run m).2 := by
  obtain ⟨flags, hflags⟩ := hreq.flags
  have hempty : ¬ key.isEmpty = true := by
    rw [List.isEmpty_iff]
    exact hreq.nonempty
  refine ⟨flags, ?_⟩
  rw [← CacheCoordinator.memory_put H (p := putCall env req key (some n) flags) hreq.memory hs,
    handlePut, hreq.path, Endpoint.path, substr_path_cache, orThrow_ok_bind, if_neg hempty,
    if_neg (Nat.not_lt.2 hreq.key_le), optionalNumber_stoll hreq.ttl, orThrow_ok_bind, hflags,
    orThrow_ok_bind, writeValueOf, outcome_bind_ok (outcome_onCache _ s)]
  split
  · rfl
  · rfl

/-- What a time to live of `n` seconds promises of a value put at the time of `env`: until its end
the value is not treated as expired, and from then on it is. -/
structure TtlKept (H : ByteBuffer → Hash128) (env : HttpEnv) (req : HttpRequest) (key : ByteBuffer)
    (n : Int) (s : HttpHandler) : Prop where
  live : ∀ m ∈ (outcome (handlePut H env req) s).2.cache.memory, ∀ now opts, IsInt64 now →
    env.memoryNow ≤ now → now < env.memoryNow + n * 1000000000 →
      ((MemoryCache.get now ⟨key⟩ opts).run m).1.result ≠ .expired
  expired : ∀ m ∈ (outcome (handlePut H env req) s).2.cache.memory, ∀ now opts, IsInt64 now →
    env.memoryNow + n * 1000000000 ≤ now →
      ((MemoryCache.get now ⟨key⟩ opts).run m).1.result = .expired

/-- The time to live is kept, and neither the conversion to nanoseconds nor the sum overflows. -/
structure TtlExact (H : ByteBuffer → Hash128) (env : HttpEnv) (req : HttpRequest) (key : ByteBuffer)
    (n : Int) (s : HttpHandler) : Prop extends TtlKept H env req key n s where
  conversion : IsInt64 (n * 1000000000)
  sum : IsInt64 (env.memoryNow + n * 1000000000)

section
variable {H : ByteBuffer → Hash128} {env : HttpEnv} {req : HttpRequest} {key : ByteBuffer} {n : Int}
  {config : MemoryCacheConfig} {calls : List MemoryCache.Call} {s : HttpHandler}

/-- A read after the request finds the value expired from the computed end on. -/
theorem handlePut_expired_iff (env : HttpEnv) (hreq : PutsFor req key n)
    (hs : s.cache.memory = some (MemoryCache.after H config calls)) :
    ∃ m, (outcome (handlePut H env req) s).2.cache.memory = some m ∧ ∀ now opts,
      ((MemoryCache.get now ⟨key⟩ opts).run m).1.result = .expired ↔
        env.memoryNow.addSeconds n ≤ now := by
  obtain ⟨flags, hmem⟩ := memory_handlePut H env s hreq hs
  have hinv := MemoryCache.inv_after (H := H) config calls
  exact ⟨_, hmem, fun now opts => MemoryCache.get_expired_iff hinv.arc
    (p := (putCall env req key (some n) flags).memoryPut) ⟨hreq.key_le, hreq.body_le⟩ rfl now opts⟩

/-- The promise is kept exactly if the end is a time that the clock can show: the last time it can
show is before any later end, and not before the end that is computed. -/
theorem ttlKept_iff (hnow : IsInt64 env.memoryNow) (hn : 0 ≤ n) (hreq : PutsFor req key n)
    (hs : s.cache.memory = some (MemoryCache.after H config calls)) :
    TtlKept H env req key n s ↔ env.memoryNow + n * 1000000000 < 2 ^ 63 := by
  obtain ⟨m, hmem, hexpired⟩ := handlePut_expired_iff env hreq hs
  constructor
  · intro h
    by_contra hlate
    have hlast : IsInt64 (2 ^ 63 - 1) := by decide
    have hend := (isInt64_wrapInt64 (env.memoryNow + wrapInt64 (n * 1000000000))).2
    refine h.live m hmem (2 ^ 63 - 1) {} hlast ?_ ?_ ((hexpired _ _).2 ?_)
    · exact Int.le_sub_one_of_lt hnow.2
    · exact Int.sub_one_lt_of_le (not_lt.1 hlate)
    · exact Int.le_sub_one_of_lt hend
  · intro hsum
    have hend : env.memoryNow.addSeconds n = env.memoryNow + n * 1000000000 := by
      rw [addSeconds_eq, wrapInt64_eq_self_iff]
      exact ⟨by linarith [hnow.1], hsum⟩
    rw [hend] at hexpired
    refine ⟨?_, ?_⟩
    · intro m' hm' now opts _ _ hlt hexp
      cases hmem.symm.trans hm'
      exact absurd ((hexpired now opts).1 hexp) (not_le.2 hlt)
    · intro m' hm' now opts _ hle
      cases hmem.symm.trans hm'
      exact (hexpired now opts).2 hle

end

/-- A time to live is kept without an overflow exactly if its length is a number of nanoseconds that
fits and its end a time that the clock can show. -/
theorem ttl_exact_iff (H : ByteBuffer → Hash128) (env : HttpEnv) (hnow : IsInt64 env.memoryNow)
    {req : HttpRequest} {key : ByteBuffer} {n : Int} (hn : 0 ≤ n) (hreq : PutsFor req key n)
    (config : MemoryCacheConfig) (calls : List MemoryCache.Call) {s : HttpHandler}
    (hs : s.cache.memory = some (MemoryCache.after H config calls)) :
    (TtlExact H env req key n s ↔
        n * 1000000000 < 2 ^ 63 ∧ env.memoryNow + n * 1000000000 < 2 ^ 63) ∧
      (TtlKept H env req key n s ↔ env.memoryNow + n * 1000000000 < 2 ^ 63) := by
  have hkept := ttlKept_iff hnow hn hreq hs
  refine ⟨⟨fun h => ⟨h.conversion.2, h.sum.2⟩, ?_⟩, hkept⟩
  rintro ⟨hconv, hsum⟩
  exact ⟨hkept.2 hsum, ⟨by omega, hconv⟩, ⟨by linarith [hnow.1], hsum⟩⟩

/-- A put request of a minute, from the start of the clock. -/
theorem ttl_exact_iff_minute :
    TtlExact sampleHash .quiet (putRequest "60") (ascii "k") 60 .empty := by
  have hreq : PutsFor (putRequest "60") (ascii "k") 60 :=
    ⟨rfl, by decide, by decide, by decide, rfl, rfl, none, rfl⟩
  refine ((ttl_exact_iff sampleHash .quiet (by decide) (by decide) hreq {} [] ?_).1).2 (by decide)
  rfl

/-- A put request of 10000000000 seconds, over 300 years, is expired at once. -/
theorem ttl_long_expired :
    PutsFor (putRequest "10000000000") (ascii "k") 10000000000 ∧
      ((outcome (handlePut sampleHash .quiet (putRequest "10000000000")) .empty).2.cache.memory.map
        fun m => ((MemoryCache.get 0 ⟨ascii "k"⟩ {}).run m).1.result) = some .expired ∧
      ¬ TtlExact sampleHash .quiet (putRequest "10000000000") (ascii "k") 10000000000 .empty := by
  refine ⟨⟨rfl, by decide, by decide, by decide, rfl, rfl, none, rfl⟩, by decide +kernel, ?_⟩
  intro h
  exact absurd h.conversion.2 (by decide)

end HttpHandler

end ElCache
