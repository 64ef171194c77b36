import ElCache.Assembly
import ElCache.Disk.Budget

/-!
# Reads after failed writes

A chunk file is truncated and rewritten in place, and keys whose values share a chunk share its
file. A write that fails midway therefore tears a chunk that stored descriptors may still name: the
file keeps a part of the chunk, followed by zeros if it had been extended beforehand, and `get`
compares only the total length of what it assembled.

A read is sound as long as the chunks that stored descriptors name are whole, empty or missing
(`Sound`). Complete writes, writes that fail to open the file, removals and evictions keep this, and
so does a write that fails midway on a chunk no stored descriptor names (`Sound.exec`). Hence
`hits_sound`: in every run without a failed write on a named chunk, each hit returns exactly the
requested bytes of the last put of the key that succeeded.
-/

namespace ElCache

open Slice LevelView

/-- A write that succeeds or fails, but does not stop short unreported. -/
def WriteOutcome.Reported : WriteOutcome → Prop
  | .stoppedAt _ _ => False
  | _ => True

/-- A file that holds a chunk holds its bytes. -/
theorem eq_of_fileChunk {data : ByteBuffer} {c : Chunk} (h : fileChunk (some data) = some c) :
    c = ⟨data⟩ := by
  cases data with
  | nil => cases h
  | cons b data => exact (Option.some.inj h).symm

namespace DiskCache

variable {H : ByteBuffer → Hash128} {K : Set ByteBuffer} {d d' d₀ : DiskCache}
  {env : WriteEnv} {id : ChunkId}

/-! ## Chunks that are right -/

/-- What is held under `id`, if anything, is the chunk named `id`. -/
def RightAt (H : ByteBuffer → Hash128) (K : Set ByteBuffer) (d : DiskCache) (id : ChunkId) : Prop :=
  ∀ c, d.view.chunk id = some c → id = c.id H ∧ c.data ∈ K

/-- The chunk is named by no stored descriptor. -/
def Unnamed (id : ChunkId) (d : DiskCache) : Prop :=
  ∀ key desc, d.descriptors key = some desc → id ∉ desc.chunks

theorem RightAt.shrinks (h : Shrinks d.view d'.view) (hid : d.RightAt H K id) : d'.RightAt H K id :=
  fun c hc => hid c (h.chunk id c hc)

/-- When the hash is injective on the chunks that occur, a value whose chunks are right is
served. -/
theorem serves_of_rightAt (hinj : Set.InjOn H K) {v : ByteBuffer}
    (hv : { b | b ∈ blocks chunkSize v } ⊆ K) (h : ∀ id ∈ chunkIds H v, d.RightAt H K id) :
    d.view.Serves H v := by
  intro i hi
  rw [held, holds]
  have hmem : block chunkSize v i ∈ blocks chunkSize v := mem_blocks.2 ⟨i, hi, rfl⟩
  cases hc : d.view.chunk ⟨H (block chunkSize v i)⟩ with
  | none => rfl
  | some c =>
    obtain ⟨hid, hK⟩ := h _ (List.mem_map_of_mem hmem) c hc
    have hdata : block chunkSize v i = c.data := hinj (hv hmem) hK (congrArg ChunkId.hash hid)
    rw [hdata]
    rfl

/-! ## Writes -/

/-- The write leaves the chunk whole, empty or as it was, or no descriptor of `d` names the
chunk. -/
def WriteSafe (H : ByteBuffer → Hash128) (outcome : WriteOutcome) (c : Chunk) (d : DiskCache) :
    Prop :=
  match outcome with
  | .failedAt written allocated _ =>
    WriteOutcome.torn c.data written allocated = [] ∨
      WriteOutcome.torn c.data written allocated = c.data ∨ Unnamed (c.id H) d
  | _ => True

section
variable {now : TimePoint} {outcome : WriteOutcome} {c : Chunk}

/-- A write changes what is held under the chunk's id only. -/
theorem view_writeChunk (now : TimePoint) (outcome : WriteOutcome) (c : Chunk) (d : DiskCache) :
    (writeChunk H now outcome c d).view = ⟨d.descriptors, Function.update d.view.chunk (c.id H)
      (fileChunk (outcome.file c.data (d.files (chunkPath d.config (c.id H)))))⟩ := by
  rw [← view_setFile, writeChunk]
  split <;> rfl

theorem descriptors_writeChunk (now : TimePoint) (outcome : WriteOutcome) (c : Chunk)
    (d : DiskCache) : (writeChunk H now outcome c d).descriptors = d.descriptors :=
  congrArg LevelView.descriptor (view_writeChunk now outcome c d)

theorem RightAt.writeChunk_of_ne (h : d.RightAt H K id) (hid : id ≠ c.id H) :
    (writeChunk H now outcome c d).RightAt H K id := by
  intro x hx
  rw [view_writeChunk] at hx
  simp only [Function.update_of_ne hid] at hx
  exact h x hx

/-- A complete write leaves the chunk right. -/
theorem rightAt_writeChunk_done (hc : c.data ∈ K) :
    (writeChunk H now .done c d).RightAt H K (c.id H) := by
  intro x hx
  rw [view_writeChunk] at hx
  simp only [Function.update_self, WriteOutcome.file] at hx
  rw [eq_of_fileChunk hx]
  exact ⟨rfl, hc⟩

/-- A safe write leaves right what was right and is named. -/
theorem RightAt.writeChunk (hrep : outcome.Reported) (hsafe : WriteSafe H outcome c d₀)
    (hc : c.data ∈ K) (hnamed : ¬ Unnamed id d₀) (h : d.RightAt H K id) :
    (DiskCache.writeChunk H now outcome c d).RightAt H K id := by
  by_cases hid : id = c.id H
  · subst hid
    cases outcome with
    | done => exact rightAt_writeChunk_done hc
    | openFailed reason =>
      intro x hx
      rw [view_writeChunk] at hx
      simp only [Function.update_self] at hx
      exact h x hx
    | failedAt written allocated reason =>
      intro x hx
      rw [view_writeChunk] at hx
      simp only [Function.update_self, WriteOutcome.file] at hx
      rcases hsafe with hnil | hwhole | hun
      · rw [hnil] at hx
        cases hx
      · rw [hwhole] at hx
        rw [eq_of_fileChunk hx]
        exact ⟨rfl, hc⟩
      · exact absurd hun hnamed
    | stoppedAt written allocated => exact hrep.elim
  · exact h.writeChunk_of_ne hid

end

/-- A write that is reported and succeeded is complete. -/
theorem eq_done_of_isOk {outcome : WriteOutcome} (hrep : outcome.Reported)
    (hok : outcome.status.isOk = true) : outcome = .done := by
  cases outcome with
  | done => rfl
  | openFailed reason => cases hok
  | failedAt written allocated reason => cases hok
  | stoppedAt written allocated => exact hrep.elim

/-- Every write of the loop that is reached is safe for the descriptors of `d`. -/
def StoreSafe (H : ByteBuffer → Hash128) (env : WriteEnv) (i : Nat) (chunks : List Chunk)
    (d : DiskCache) : Prop :=
  ∀ j c, chunks[j]? = some c → (∀ m < j, (env.write (i + m)).status.isOk = true) →
    WriteSafe H (env.write (i + j)) c d

theorem StoreSafe.tail {i : Nat} {c : Chunk} {rest : List Chunk}
    (h : StoreSafe H env i (c :: rest) d) (hok : (env.write i).status.isOk = true) :
    StoreSafe H env (i + 1) rest d := by
  intro j x hx hm
  have hsafe := h (j + 1) x hx fun m hlt => ?_
  · rwa [Nat.add_right_comm, Nat.add_assoc]
  · cases m with
    | zero => exact hok
    | succ m =>
      have hstep := hm m (Nat.lt_of_succ_lt_succ hlt)
      rwa [Nat.add_right_comm, Nat.add_assoc] at hstep

/-- Storing chunks safely: the descriptors stay, what was right and is named stays right, and a loop
that reports success leaves all its chunks right. -/
theorem store_right (hrep : ∀ i, (env.write i).Reported) {i : Nat} {chunks : List Chunk}
    (hK : ∀ c ∈ chunks, c.data ∈ K) (hsafe : StoreSafe H env i chunks d₀) :
    let r := (store H env i chunks).run d
    r.2.descriptors = d.descriptors ∧
      (∀ id, ¬ Unnamed id d₀ → d.RightAt H K id → r.2.RightAt H K id) ∧
      (r.1.isOk = true → ∀ id, d.RightAt H K id ∨ id ∈ chunks.map (Chunk.id H) →
        r.2.RightAt H K id) := by
  induction chunks generalizing d i with
  | nil =>
    refine ⟨rfl, fun id _ h => h, fun _ id h => ?_⟩
    rcases h with h | h
    · exact h
    · cases h
  | cons c rest ih =>
    have hhead : WriteSafe H (env.write i) c d₀ :=
      hsafe 0 c rfl fun m hm => absurd hm (Nat.not_lt_zero m)
    have hcK := hK c List.mem_cons_self
    have hdesc := descriptors_writeChunk (H := H) (env.tick i) (env.write i) c d
    rw [run_store_cons]
    cases hok : (env.write i).status.isOk with
    | false =>
      refine ⟨hdesc, fun id hid h => h.writeChunk (hrep i) hhead hcK hid, fun hr => ?_⟩
      exact absurd (hok.symm.trans hr) Bool.false_ne_true
    | true =>
      obtain ⟨hdesc', hnamed, hall⟩ := ih (d := writeChunk H (env.tick i) (env.write i) c d)
        (fun x hx => hK x (List.mem_cons_of_mem _ hx)) (hsafe.tail hok)
      refine ⟨hdesc'.trans hdesc, fun id hid h => ?_, fun hr id h => hall hr id ?_⟩
      · exact hnamed id hid (h.writeChunk (hrep i) hhead hcK hid)
      · by_cases hid : id = c.id H
        · rw [hid, eq_done_of_isOk (hrep i) hok]
          exact .inl (rightAt_writeChunk_done hcK)
        · rcases h with h | h
          · exact .inl (h.writeChunk_of_ne hid)
          · exact .inr ((List.mem_cons.1 h).resolve_left hid)

/-! ## The last successful put -/

/-- The level with a record, for every key, of the last put that reported success. -/
structure Logged where
  cache : DiskCache
  last : CacheKey → Option Put := fun _ => none

namespace Logged

/-- One call executed alone. -/
def exec (H : ByteBuffer → Hash128) (call : Call) (s : Logged) : Logged where
  cache := DiskCache.exec H call s.cache
  last := match call with
    | .put env p =>
      if ((put H env p).run s.cache).1.isOk then Function.update s.last p.key (some p) else s.last
    | _ => s.last

/-- Every write the call makes leaves its chunk whole, empty or as it was, unless no stored
descriptor names the chunk. -/
def Untorn (H : ByteBuffer → Hash128) (call : Call) (s : Logged) : Prop :=
  match call with
  | .put env p =>
    p.key.size ≤ maxKeySize → StoreSafe H env 0 (splitValue p.value.bytes) s.cache
  | _ => True

/-- A hit returns exactly the requested bytes of the last put of the key that succeeded. -/
def HitSound (call : Call) (s : Logged) : Prop :=
  match call with
  | .get now key opts =>
    let r := ((get now key opts).run s.cache).1
    r.isHit = true → ∃ p, s.last key = some p ∧ r.data = requested p.value.bytes opts
  | _ => True

end Logged

/-- No chunk write of the call stops short unreported. -/
def Call.Reported : Call → Prop
  | .put env _ => ∀ i, (env.write i).Reported
  | .putChunk _ outcome _ => outcome.Reported
  | _ => True

/-- Descriptors are those of the last successful puts, and the chunks they name are right. -/
structure Sound (H : ByteBuffer → Hash128) (K : Set ByteBuffer) (s : Logged) : Prop where
  last : ∀ key desc, s.cache.descriptors key = some desc →
    ∃ p, s.last key = some p ∧ p.descriptor H = desc ∧ p.chunks ⊆ K
  right : ∀ id, ¬ Unnamed id s.cache → s.cache.RightAt H K id

variable {s : Logged}

/-- Dropping chunks and descriptors keeps what is there sound. -/
theorem Sound.shrink (h : Sound H K s)
    (hdesc : ∀ key desc, d'.descriptors key = some desc → s.cache.descriptors key = some desc)
    (hchunk : ∀ id c, d'.view.chunk id = some c → s.cache.view.chunk id = some c) :
    Sound H K ⟨d', s.last⟩ := by
  refine ⟨fun key desc hk => h.last key desc (hdesc key desc hk), fun id hid c hc => ?_⟩
  refine h.right id (fun hun => hid ?_) c (hchunk id c hc)
  exact fun key desc hk => hun key desc (hdesc key desc hk)

/-- The descriptors are those of before, and the chunks they name are right. -/
theorem Sound.of_descriptors_eq (h : Sound H K s) (hdesc : d'.descriptors = s.cache.descriptors)
    (hright : ∀ id, ¬ Unnamed id s.cache → d'.RightAt H K id) : Sound H K ⟨d', s.last⟩ := by
  refine ⟨fun key desc hk => h.last key desc ?_, fun id hid => hright id ?_⟩
  · rwa [← hdesc]
  · rwa [Unnamed, hdesc] at hid

/-- The put has added its descriptor, and the chunks that this or an old one names are right. -/
theorem Sound.of_descriptors_update (h : Sound H K s) {p : Put} (hK : p.chunks ⊆ K)
    (hdesc : d'.descriptors = Function.update s.cache.descriptors p.key (some (p.descriptor H)))
    (hright : ∀ id, ¬ Unnamed id s.cache ∨ id ∈ (p.descriptor H).chunks → d'.RightAt H K id) :
    Sound H K ⟨d', Function.update s.last p.key (some p)⟩ := by
  have hnamed : ∀ key desc, d'.descriptors key = some desc →
      key = p.key ∧ p.descriptor H = desc ∨
        key ≠ p.key ∧ s.cache.descriptors key = some desc := by
    intro key desc hk
    rw [hdesc] at hk
    by_cases he : key = p.key
    · rw [he, Function.update_self] at hk
      exact .inl ⟨he, Option.some.inj hk⟩
    · rw [Function.update_of_ne he] at hk
      exact .inr ⟨he, hk⟩
  refine ⟨fun key desc hk => ?_, fun id hid => hright id ?_⟩
  · rcases hnamed key desc hk with ⟨rfl, hd⟩ | ⟨he, hk⟩
    · exact ⟨p, Function.update_self .., hd, hK⟩
    · obtain ⟨q, hq, hd⟩ := h.last key desc hk
      exact ⟨q, (Function.update_of_ne he ..).trans hq, hd⟩
  · by_contra hnot
    rw [not_or, not_not] at hnot
    refine hid fun key desc hk hmem => ?_
    rcases hnamed key desc hk with ⟨-, rfl⟩ | ⟨-, hk⟩
    · exact hnot.2 hmem
    · exact hnot.1 key desc hk hmem

/-- A put whose failed writes tear no named chunk. -/
theorem Sound.put (h : Sound H K s) {p : Put} (hrep : ∀ i, (env.write i).Reported)
    (hK : p.chunks ⊆ K) (hsafe : Logged.Untorn H (.put env p) s) :
    Sound H K (s.exec H (.put env p)) := by
  rw [Logged.exec]
  simp only [DiskCache.exec]
  rcases Nat.lt_or_ge maxKeySize p.key.size with hlt | hle
  · rw [(run_put_rejected hlt).1, (run_put_rejected hlt).2]
    exact h
  · have hroom := shrinks_makeRoom p.value.size s.cache
    have hcK : ∀ c ∈ splitValue p.value.bytes, c.data ∈ K := by
      intro c hc
      rw [splitValue_eq] at hc
      obtain ⟨b, hb, rfl⟩ := List.mem_map.1 hc
      exact hK hb
    obtain ⟨hdesc, hnamed, hall⟩ := store_right (d := ((makeRoom p.value.size).run s.cache).2) hrep
      hcK (hsafe hle)
    have hdesc' := hdesc.trans hroom.descriptor
    have hold : ∀ id, ¬ Unnamed id s.cache →
        ((makeRoom p.value.size).run s.cache).2.RightAt H K id :=
      fun id hid => (h.right id hid).shrinks hroom
    -- a put that fails leaves the descriptors, and what they name is as right as before
    have hfailed := h.of_descriptors_eq hdesc' fun id hid => hnamed id hid (hold id hid)
    rw [run_put_of_le env p s.cache hle]
    cases hstore : ((store H env 0 (splitValue p.value.bytes)).run
        ((makeRoom p.value.size).run s.cache).2).1.isOk with
    | false =>
      simp only [hstore, Bool.false_eq_true, if_false]
      exact hfailed
    | true =>
      cases hwrite : env.writeDescriptor.status.isOk with
      | false =>
        simp only [hstore, hwrite, Bool.false_eq_true, if_true, if_false]
        exact hfailed
      | true =>
        simp only [hstore, hwrite, if_true]
        refine h.of_descriptors_update hK ?_ fun id hid => hall hstore id (hid.imp_left (hold id))
        exact congrArg (Function.update · p.key _) hdesc'

/-- Every call by key, and every eviction, that tears no named chunk keeps the level sound. -/
theorem Sound.exec (h : Sound H K s) {call : Call} (hcall : call.Keyed) (hrep : call.Reported)
    (hK : call.chunks ⊆ K) (hsafe : Logged.Untorn H call s) : Sound H K (s.exec H call) := by
  cases call with
  | put env p => exact h.put hrep hK hsafe
  | get now key opts =>
    have hview := (observes_get (fun _ => True) now key opts s.cache trivial).2.1
    refine h.shrink (fun k desc hk => ?_) fun id c hc => ?_
    · rwa [← show _ = s.cache.descriptors from congrArg LevelView.descriptor hview]
    · rwa [← hview]
  | remove key =>
    refine h.shrink (fun k desc hk => ?_) fun id c hc => ?_
    · rw [DiskCache.exec, descriptors_remove] at hk
      by_cases he : k = key
      · rw [he, Function.update_self] at hk
        cases hk
      · rwa [Function.update_of_ne he] at hk
    · simp only [DiskCache.exec] at hc
      cases hd : s.cache.descriptors key with
      | none => rwa [run_remove_absent hd] at hc
      | some desc =>
        rw [(run_remove hd).2] at hc
        simp only at hc
        split at hc
        · cases hc
        · exact hc
  | evict bytesNeeded =>
    have hs := shrinks_evict bytesNeeded s.cache
    refine h.shrink (fun k desc hk => ?_) hs.chunk
    rwa [← show _ = s.cache.descriptors from hs.descriptor]
  | putChunk now outcome chunk => exact hcall.elim
  | removeChunk id => exact hcall.elim

/-- On a sound level every hit is sound. -/
theorem Sound.hitSound (h : Sound H K s) (hinj : Set.InjOn H K) (call : Call) :
    Logged.HitSound call s := by
  cases call with
  | get now key opts =>
    have hread : ((get now key opts).run s.cache).1 =
        s.cache.view.read assembleValue now key opts :=
      (observes_get (fun _ => True) now key opts s.cache trivial).1
    intro hhit
    rw [hread] at hhit ⊢
    cases hd : s.cache.descriptors key with
    | none =>
      rw [read_none (w := s.cache.view) hd] at hhit
      cases hhit
    | some desc =>
      obtain ⟨p, hlast, rfl, hK⟩ := h.last key desc hd
      refine ⟨p, hlast, read_hit exactAssembly (p.describes H) p.value.size_lt ?_ hd hhit⟩
      refine serves_of_rightAt hinj hK fun id hid => h.right id fun hun => ?_
      exact hun key _ hd (by rw [(p.describes H).chunks]; exact hid)
  | put env p => trivial
  | remove key => trivial
  | putChunk now outcome chunk => trivial
  | removeChunk id => trivial
  | evict bytesNeeded => trivial

/-- In every run of calls by key and evictions, in which chunk writes may fail midway but tear no
chunk that a stored descriptor names, every hit returns exactly the requested bytes of the last put
of the key that succeeded. -/
theorem hits_sound (H : ByteBuffer → Hash128) (config : DiskCacheConfig) (calls : List Call)
    (hcalls : ∀ c ∈ calls, c.Keyed) (hrep : ∀ c ∈ calls, c.Reported)
    (hinj : Set.InjOn H (runChunks calls))
    (huntorn : EveryStep (Logged.exec H)
      (Logged.Untorn H) calls ⟨{ config := config }, fun _ => none⟩) :
    EveryStep (Logged.exec H) Logged.HitSound calls ⟨{ config := config }, fun _ => none⟩ := by
  refine huntorn.imp (I := Sound H (runChunks calls)) ⟨?_, ?_⟩ fun call hcall s hs hsafe => ?_
  · intro key desc hk
    cases hk
  · intro id hid c hc
    cases hc
  · refine ⟨hs.hitSound hinj call, hs.exec (hcalls call hcall) (hrep call hcall) ?_ hsafe⟩
    exact fun b hb => ⟨call, hcall, hb⟩

/-- A put of a two-byte value whose chunk write ends as given. -/
def putPair (key : UInt8) (outcome : WriteOutcome) : Call :=
  .put { tick := fun _ => 0, write := fun _ => outcome } (pairPut key)

/-- The two keys hold one value. The write of the second put fails after one byte of the file, which
had been extended to its full size. -/
def tornRun : List Call :=
  [putPair 1 .done, putPair 2 (.failedAt 1 true "No space left on device"), .get 0 ⟨[1]⟩ {}]

/-- A failed write on a chunk that no descriptor names does not disturb the reads. -/
def untornRun : List Call :=
  [putPair 2 (.failedAt 1 true "No space left on device"), putPair 1 .done, .get 0 ⟨[1]⟩ {}]

theorem chunks_putPair (key : UInt8) (outcome : WriteOutcome) :
    (putPair key outcome).chunks ⊆ {[7, 8]} := by
  intro b hb
  have hmem : b ∈ blocks chunkSize ([7, 8] : ByteBuffer) := hb
  rw [blocks_pair] at hmem
  exact List.mem_singleton.1 hmem

/-- Two puts of the pair and a get bring in one chunk. -/
theorem injOn_pairs (a b : UInt8) (o o' : WriteOutcome) (now : Timestamp) (key : CacheKey)
    (opts : ReadOptions) :
      Set.InjOn H (runChunks [putPair a o, putPair b o', .get now key opts]) := by
  have honly : ∀ x ∈ runChunks [putPair a o, putPair b o', .get now key opts], x = [7, 8] := by
    rintro x ⟨call, hcall, hx⟩
    simp only [List.mem_cons, List.not_mem_nil, or_false] at hcall
    rcases hcall with rfl | rfl | rfl
    · exact chunks_putPair _ _ hx
    · exact chunks_putPair _ _ hx
    · cases hx
  exact fun x hx y hy _ => (honly x hx).trans (honly y hy).symm

/-- The get of the second run is sound. -/
theorem hits_sound_unnamed :
    EveryStep (Logged.exec sampleHash) Logged.HitSound untornRun ⟨{ config := {} },
      fun _ => none⟩ := by
  refine hits_sound sampleHash {} untornRun ?_ ?_ ?_ ?_
  · simp [untornRun, putPair, Call.Keyed]
  · simp [untornRun, putPair, Call.Reported, WriteOutcome.Reported]
  · exact injOn_pairs _ _ _ _ _ _ _
  · refine ⟨fun _ j c _ _ => .inr (.inr fun key desc hk => ?_), fun _ j c _ _ => trivial, trivial,
      trivial⟩
    cases hk

/-- The get of the first run hits and returns a zero in place of the second byte. -/
theorem not_hitSound_torn :
    (∀ c ∈ tornRun, c.Keyed ∧ c.Reported) ∧ Set.InjOn sampleHash (runChunks tornRun) ∧
      ¬ EveryStep (Logged.exec sampleHash) Logged.HitSound tornRun
        ⟨{ config := {} }, fun _ => none⟩ := by
  refine ⟨?_, injOn_pairs _ _ _ _ _ _ _, ?_⟩
  · simp [tornRun, putPair, Call.Keyed, Call.Reported, WriteOutcome.Reported]
  · rintro ⟨-, -, hsound, -⟩
    obtain ⟨s, hs⟩ : ∃ s, s = Logged.exec sampleHash
      (putPair 2 (.failedAt 1 true "No space left on device"))
        (Logged.exec sampleHash (putPair 1 .done) ⟨{ config := {} }, fun _ => none⟩) := ⟨_, rfl⟩
    rw [← hs] at hsound
    have hhit : ((get 0 ⟨[1]⟩ {}).run s.cache).1.isHit = true := by
      rw [hs]
      decide +kernel
    have hdata : ((get 0 ⟨[1]⟩ {}).run s.cache).1.data = [7, 0] := by
      rw [hs]
      decide +kernel
    have hlast : (s.last ⟨[1]⟩).map (fun p => p.value.bytes) = some [7, 8] := by
      rw [hs]
      decide +kernel
    obtain ⟨p, hp, hread⟩ := hsound hhit
    rw [hp] at hlast
    have hbytes : p.value.bytes = [7, 8] := Option.some.inj hlast
    rw [hdata, hbytes] at hread
    revert hread
    decide

end DiskCache

end ElCache
