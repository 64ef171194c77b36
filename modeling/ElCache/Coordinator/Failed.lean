import ElCache.Availability.Check
import ElCache.Coordinator.Answer
import ElCache.Coordinator.Outcome
import ElCache.Frame.Remove

/-!
# Puts that fail

A put of the coordinator writes the memory level first, and the disk level stores chunk after chunk
before it stores the descriptor. Nothing is taken back when a later write fails. So after a failed
put the disk level has the descriptors it had, chunks of the value may have come in and others may
have been evicted, and the memory level, if the put writes it, has the new value already.
`failed_put_restocks` says that this is all: what `get` returns is what it returns when the levels
hold that much.
-/

namespace ElCache

/-! ## What is read of a level -/

namespace LevelView

variable {w w' : LevelView} {key : CacheKey}

/-- A read looks at one descriptor and the chunks it names. -/
theorem read_congr {assemble : List (Option Chunk) → Range → ByteBuffer} {now : Timestamp}
    {opts : ReadOptions} (hkey : w'.descriptor key = w.descriptor key)
    (hchunk : ∀ d, w.descriptor key = some d → ∀ id ∈ d.chunks, w'.chunk id = w.chunk id) :
    w'.read assemble now key opts = w.read assemble now key opts := by
  rw [read, read, readValue, readValue, Prog.run_bind, Prog.run_bind, Prog.run_pure, Prog.run_pure,
    hkey]
  cases hd : w.descriptor key with
  | none => rfl
  | some d =>
    simp only [readFound]
    split
    · rfl
    · split
      · rfl
      · have hfetch : ∀ idxs,
            w'.fetch d opts.allowPartial idxs = w.fetch d opts.allowPartial idxs := by
          intro idxs
          exact fetch_congr _ fun i _ id hid => hchunk d hd id (List.mem_of_getElem? hid)
        rw [Prog.run_bind, Prog.run_bind]
        exact congrArg (finishRead assemble d opts.allowPartial _) (hfetch _)

/-- A stored descriptor names the chunk. -/
def Names (w : LevelView) (id : ChunkId) : Prop :=
  ∃ key d, w.descriptor key = some d ∧ id ∈ d.chunks

open Classical in
/-- What can be read of a level: its descriptors and the chunks they name. -/
noncomputable def named (w : LevelView) : LevelView where
  descriptor := w.descriptor
  chunk id := if w.Names id then w.chunk id else none

theorem read_named (w : LevelView) (assemble : List (Option Chunk) → Range → ByteBuffer)
    (now : Timestamp) (key : CacheKey) (opts : ReadOptions) :
    w.named.read assemble now key opts = w.read assemble now key opts := by
  refine read_congr rfl fun d hd id hid => ?_
  exact if_pos ⟨key, d, hd, hid⟩

theorem chunk_named {id : ChunkId} {x : Chunk} (h : w.named.chunk id = some x) :
    w.Names id ∧ w.chunk id = some x := by
  unfold named at h
  dsimp only at h
  split at h
  · next hnamed => exact ⟨hnamed, h⟩
  · cases h

/-- The level with another descriptor for a key. -/
def describe (w : LevelView) (key : CacheKey) (d : ValueDescriptor) : LevelView :=
  ⟨Function.update w.descriptor key (some d), w.chunk⟩

/-- The level after chunks have been evicted and chunks of `v` have come in. -/
structure Restocked (H : ByteBuffer → Hash128) (v : ByteBuffer) (w w' : LevelView) : Prop where
  descriptor : w'.descriptor = w.descriptor
  chunk : ∀ id x, w'.chunk id = some x →
    w.chunk id = some x ∨ (x ∈ splitValue v ∧ id = x.id H)

/-- Chunks that no descriptor names are not missed. -/
theorem restocked_named (H : ByteBuffer → Hash128) (v : ByteBuffer) (w : LevelView) :
    Restocked H v w w.named :=
  ⟨rfl, fun _ _ hx => .inl (chunk_named hx).2⟩

end LevelView

variable {H : ByteBuffer → Hash128}

/-! ## The disk level -/

namespace DiskCache

variable {d d₀ : DiskCache} {id : ChunkId} {x : Chunk} {env : WriteEnv}

/-- A safe write of a chunk that is named leaves what is held under its name, the chunk or
nothing. -/
theorem chunk_writeChunk {now : TimePoint} {outcome : WriteOutcome} {c : Chunk}
    (hrep : outcome.Reported) (hsafe : WriteSafe H outcome c d₀) (hnamed : ¬ Unnamed id d₀)
    (hx : (writeChunk H now outcome c d).view.chunk id = some x) :
    d.view.chunk id = some x ∨ (x = c ∧ id = c.id H) := by
  rw [view_writeChunk] at hx
  dsimp only at hx
  rcases eq_or_ne id (c.id H) with rfl | hid
  · rw [Function.update_self] at hx
    cases outcome with
    | done => exact .inr ⟨eq_of_fileChunk hx, rfl⟩
    | openFailed reason => exact .inl hx
    | failedAt written allocated reason =>
      rcases hsafe with hnil | hwhole | hun
      · rw [WriteOutcome.file, hnil] at hx
        cases hx
      · rw [WriteOutcome.file, hwhole] at hx
        exact .inr ⟨eq_of_fileChunk hx, rfl⟩
      · exact absurd hun hnamed
    | stoppedAt written allocated => exact hrep.elim
  · rw [Function.update_of_ne hid] at hx
    exact .inl hx

/-- The store loop brings in its own chunks only. -/
theorem chunk_store (hrep : ∀ i, (env.write i).Reported) {i : Nat} {chunks : List Chunk}
    (hsafe : StoreSafe H env i chunks d₀) (hnamed : ¬ Unnamed id d₀)
    (hx : ((store H env i chunks).run d).2.view.chunk id = some x) :
    d.view.chunk id = some x ∨ (x ∈ chunks ∧ id = x.id H) := by
  induction chunks generalizing d i with
  | nil => exact .inl hx
  | cons c rest ih =>
    have hhead : WriteSafe H (env.write i) c d₀ :=
      hsafe 0 c rfl fun m hm => absurd hm (Nat.not_lt_zero m)
    have hfirst : ∀ {y : Chunk}, (writeChunk H (env.tick i) (env.write i) c d).view.chunk id =
        some y → d.view.chunk id = some y ∨ (y ∈ c :: rest ∧ id = y.id H) := by
      intro y hy
      rcases chunk_writeChunk (hrep i) hhead hnamed hy with hold | ⟨rfl, hid⟩
      · exact .inl hold
      · exact .inr ⟨List.mem_cons_self, hid⟩
    rw [run_store_cons] at hx
    split at hx
    · next hok =>
      rcases ih (hsafe.tail hok) hx with hold | ⟨hmem, hid⟩
      · exact hfirst hold
      · exact .inr ⟨List.mem_cons_of_mem _ hmem, hid⟩
    · exact hfirst hx

/-- A put that fails leaves what the store loop has left. -/
theorem run_put_failed {p : Put} (hle : p.key.size ≤ maxKeySize)
    (herr : ((put H env p).run d).1.isOk = false) : ((put H env p).run d).2 =
      ((store H env 0 (splitValue p.value.bytes)).run ((makeRoom p.value.size).run d).2).2 := by
  rw [run_put_of_le env p d hle] at herr ⊢
  dsimp only at herr ⊢
  split at herr
  · next hok =>
    dsimp only at herr
    rw [if_pos hok]
    dsimp only
    rw [if_neg (by rw [herr]; exact Bool.false_ne_true)]
  · next hbad => rw [if_neg hbad]

/-- Every chunk write of the put leaves its chunk whole, empty or as it was, or no stored descriptor
names the chunk. -/
structure TearsNothing (H : ByteBuffer → Hash128) (env : WriteEnv) (p : Put) (d : DiskCache) :
    Prop where
  reported : ∀ i, (env.write i).Reported
  safe : StoreSafe H env 0 (splitValue p.value.bytes) d

/-- A failed put evicts chunks and brings in chunks of its value. -/
theorem restocked_put_failed {p : Put} (hsafe : TearsNothing H env p d)
    (herr : ((put H env p).run d).1.isOk = false) :
    LevelView.Restocked H p.value.bytes d.view ((put H env p).run d).2.view.named := by
  rcases Nat.lt_or_ge maxKeySize p.key.size with hlt | hle
  · rw [(run_put_rejected hlt).2]
    exact LevelView.restocked_named H p.value.bytes d.view
  · have hroom := shrinks_makeRoom p.value.size d
    have hdesc : ((put H env p).run d).2.descriptors = d.descriptors := by
      rw [run_put_failed hle herr, descriptors_store]
      exact hroom.descriptor
    refine ⟨hdesc, fun id x hx => ?_⟩
    obtain ⟨⟨key, desc, hkey, hid⟩, hx⟩ := LevelView.chunk_named hx
    have hnamed : ¬ Unnamed id d := fun hun => hun key desc (hdesc ▸ hkey) hid
    rw [run_put_failed hle herr] at hx
    exact (chunk_store hsafe.reported hsafe.safe hnamed hx).imp_left (hroom.chunk id x)

end DiskCache

/-! ## The coordinator -/

namespace CacheCoordinator

/-- What `get` answers without a cluster when the levels hold `w`. -/
def Views.answer (w : Views) (env : ReadEnv) (key : CacheKey) (opts : ReadOptions) : ReadResult :=
  (w.read env key opts).getD { result := .miss }

/-- What can be read of both levels. -/
noncomputable def readable (c : CacheCoordinator) : Views :=
  ⟨c.config, c.memory.map MemoryCache.view, c.disk.map fun d => d.view.named⟩

/-- What the levels hold after a failed put of `p`: chunks have been evicted and chunks of the value
have come in; if the memory level takes the value, it may be the one of its key there. -/
structure FailedPut (H : ByteBuffer → Hash128) (p : PutCall) (w w' : Views) : Prop where
  config : w'.config = w.config
  memory : ∃ m m', w.memory = some m ∧ w'.memory = some m' ∧
    (m' = m ∨ p.opts.noMemory = false ∧ MemoryCache.Accepts p.memoryPut ∧
      LevelView.Restocked H p.value.bytes (m.describe p.key (p.memoryPut.descriptor H)) m')
  disk : ∃ d d', w.disk = some d ∧ w'.disk = some d' ∧
    LevelView.Restocked H p.value.bytes d d'

variable {c : CacheCoordinator} {m : MemoryCache} {d : DiskCache} {p : PutCall}

theorem read_readable (c : CacheCoordinator) (env : ReadEnv) (key : CacheKey)
    (opts : ReadOptions) : c.readable.read env key opts = c.views.read env key opts := by
  have hdisk : c.readable.fromDisk env.diskNow key opts =
      c.views.fromDisk env.diskNow key opts := by
    unfold Views.fromDisk
    cases hd : c.disk with
    | none => simp [readable, views, hd]
    | some d => simp [readable, views, hd, LevelView.read_named]
  rw [Views.read, hdisk]
  rfl

/-- Without a cluster, `get` answers what can be read. -/
theorem run_get_readable (hc : MemoryInv H c) {env : ReadEnv} (henv : env.cluster = none)
    (key : CacheKey) (opts : ReadOptions) :
    ((get H env key opts).run c).1 = c.readable.answer env key opts := by
  have hpeer : c.peerAnswer env key opts = none := by
    rw [peerAnswer, henv]
    split
    · rfl
    · rfl
  rw [run_get_eq hc, hpeer, Option.or_none, Views.answer, read_readable]

/-- The memory level after a put it takes. -/
theorem restocked_put_memory (hm : m.chunkCache.Inv) (hacc : MemoryCache.Accepts p.memoryPut) :
    LevelView.Restocked H p.value.bytes (m.view.describe p.key (p.memoryPut.descriptor H))
      ((MemoryCache.put H p.memoryPut).run m).2.view := by
  obtain ⟨-, hdesc, hlook⟩ := MemoryCache.run_put (H := H) hm hacc
  exact ⟨hdesc, hlook⟩

/-- A put that fails before it writes anything. -/
theorem failedPut_refl (hm : c.memory = some m) (hd : c.disk = some d) :
    FailedPut H p c.views c.readable := by
  refine ⟨rfl, ⟨m.view, m.view, ?_, ?_, .inl rfl⟩, ⟨d.view, d.view.named, ?_, ?_,
    LevelView.restocked_named H p.value.bytes d.view⟩⟩
  · simp [views, hm]
  · simp [readable, hm]
  · simp [views, hd]
  · simp [readable, hd]

/-- A put that goes through the memory level, unless it skips it, and fails in the disk level. -/
theorem failedPut_of_disk (hc : MemoryInv H c) (hm : c.memory = some m) (hd : c.disk = some d)
    (hsafe : DiskCache.TearsNothing H p.env p.diskPut d)
    (hacc : p.opts.noMemory = false → MemoryCache.Accepts p.memoryPut)
    (hnoDisk : p.opts.noDisk = false)
    (herr : ((DiskCache.put H p.env p.diskPut).run d).1.isOk = false) :
    FailedPut H p c.views (readable ⟨c.config, putMemory H p c, putDisk H p c⟩) := by
  have hdisk : putDisk H p c = some ((DiskCache.put H p.env p.diskPut).run d).2 := by
    rw [putDisk, hnoDisk, if_neg Bool.false_ne_true, hd]
    rfl
  refine ⟨rfl, ?_, d.view, _, congrArg (Option.map DiskCache.view) hd,
    congrArg (Option.map fun d : DiskCache => d.view.named) hdisk,
    DiskCache.restocked_put_failed hsafe herr⟩
  cases hnoMemory : p.opts.noMemory with
  | true =>
    have hmemory : putMemory H p c = some m := by rw [putMemory, if_pos hnoMemory, hm]
    exact ⟨m.view, m.view, congrArg (Option.map MemoryCache.view) hm,
      congrArg (Option.map MemoryCache.view) hmemory, .inl rfl⟩
  | false =>
    have hmemory : putMemory H p c = some ((MemoryCache.put H p.memoryPut).run m).2 := by
      rw [putMemory, hnoMemory, if_neg Bool.false_ne_true, hm]
      rfl
    exact ⟨m.view, _, congrArg (Option.map MemoryCache.view) hm,
      congrArg (Option.map MemoryCache.view) hmemory,
      .inr ⟨rfl, hacc hnoMemory, restocked_put_memory (hc m hm).arc (hacc hnoMemory)⟩⟩

/-- What a failed put leaves. -/
theorem failedPut_put (hc : MemoryInv H c) (hm : c.memory = some m) (hd : c.disk = some d)
    (hsafe : DiskCache.TearsNothing H p.env p.diskPut d)
    (herr : ((put H p).run c).1.isOk = false) :
    FailedPut H p c.views ((put H p).run c).2.readable := by
  rcases put_cases H p c with ⟨-, -, status, hrun, -⟩ | ⟨hacc, status, hrun, hstatus⟩
  · rw [hrun]
    exact failedPut_refl hm hd
  · rw [hrun] at herr ⊢
    have hmemory : c.writesMemory p = !p.opts.noMemory := by simp [writesMemory, hm]
    have hdisk : c.writesDisk p = !p.opts.noDisk := by simp [writesDisk, hd]
    have hbad : ¬ status.isOk = true := ne_true_of_eq_false herr
    rw [hmemory, Bool.not_eq_true'] at hacc
    rw [hstatus, hmemory, hdisk, Bool.not_eq_true', Bool.not_eq_true'] at hbad
    cases hnoDisk : p.opts.noDisk with
    | true =>
      -- the disk level is skipped, so there was no level to write to
      have hnoMemory : p.opts.noMemory = true := by
        by_contra hno
        refine hbad ⟨.inl (eq_false_of_ne_true hno), fun h => ?_⟩
        rw [hnoDisk] at h
        cases h
      dsimp only
      rw [putMemory, putDisk, if_pos hnoMemory, if_pos hnoDisk]
      exact failedPut_refl hm hd
    | false =>
      refine failedPut_of_disk hc hm hd hsafe hacc hnoDisk (eq_false_of_ne_true fun hok => ?_)
      exact hbad ⟨.inr hnoDisk, fun _ => (DiskCache.isOk_put_iff _ _ _).1 hok⟩

/-- After any calls: when a put fails and tears no chunk file that a stored descriptor names, what
`get` answers is what it answers when the levels hold what they held before, except that chunks have
been evicted, that chunks of the value have come in, and that the memory level, if it takes the
value, may have it as that of its key. -/
theorem failed_put_restocks (H : ByteBuffer → Hash128) (config : Config) (calls : List Call)
    (m : MemoryCache) (d : DiskCache) (hm : (after H config calls).1.memory = some m)
    (hd : (after H config calls).1.disk = some d) (p : PutCall)
    (hsafe : DiskCache.TearsNothing H p.env p.diskPut d)
    (herr : ((put H p).run (after H config calls).1).1.isOk = false) :
    ∃ w : Views, FailedPut H p (after H config calls).1.views w ∧
      ∀ env : ReadEnv, env.cluster = none → ∀ key opts,
        ((get H env key opts).run (after H config calls).1).1 =
            (after H config calls).1.views.answer env key opts ∧
          ((get H env key opts).run ((put H p).run (after H config calls).1).2).1 =
            w.answer env key opts := by
  have hc := memoryInv_after (H := H) config calls
  refine ⟨_, failedPut_put hc hm hd hsafe herr, fun env henv key opts => ⟨?_, ?_⟩⟩
  · rw [run_get_readable hc henv, Views.answer, read_readable]
    rfl
  · exact run_get_readable (hc.run (keepsMemory_put p)) henv key opts

/-- A put of one byte whose descriptor file cannot be opened. -/
def fullDiskPut (byte : UInt8) : PutCall :=
  { PutCall.byte [1] byte with
    env := { tick := fun _ => 0, writeDescriptor := .openFailed "No space left on device" } }

/-- A put that fails at the descriptor file. -/
theorem failed_put_restocks_descriptor :
    ∃ w : Views, FailedPut sampleHash (fullDiskPut 8)
        (after sampleHash {} [.put (.byte [1] 7)]).1.views w ∧
      ∀ env : ReadEnv, env.cluster = none → ∀ key opts,
        ((get sampleHash env key opts).run
            (after sampleHash {} [.put (.byte [1] 7)]).1).1 =
          (after sampleHash {} [.put (.byte [1] 7)]).1.views.answer env key opts ∧
        ((get sampleHash env key opts).run ((put sampleHash (fullDiskPut 8)).run
            (after sampleHash {} [.put (.byte [1] 7)]).1).2).1 = w.answer env key opts := by
  have hmemory : (after sampleHash {} [.put (.byte [1] 7)]).1.memory.isSome = true := by
    decide +kernel
  have hdisk : (after sampleHash {} [.put (.byte [1] 7)]).1.disk.isSome = true := by
    decide +kernel
  obtain ⟨m, hm⟩ := Option.isSome_iff_exists.1 hmemory
  obtain ⟨d, hd⟩ := Option.isSome_iff_exists.1 hdisk
  exact failed_put_restocks sampleHash {} [.put (.byte [1] 7)] m d hm hd
    (fullDiskPut 8) ⟨fun _ => trivial, fun _ _ _ _ => trivial⟩ (by decide +kernel)

/-- A put of 8 that fails: the key had the value 7 before and has the value 8 afterwards. -/
theorem failed_put_visible :
    let c := (after sampleHash {} [.put (.byte [1] 7)]).1
    let c' := ((put sampleHash (fullDiskPut 8)).run c).2
    let read := get sampleHash { memoryNow := 0, diskNow := 0 } ⟨[1]⟩ {}
    ((put sampleHash (fullDiskPut 8)).run c).1.isOk = false ∧
      (read.run c).1.isHit = true ∧ (read.run c).1.data = [7] ∧
      (read.run c').1.isHit = true ∧ (read.run c').1.data = [8] := by
  decide +kernel

end CacheCoordinator

end ElCache
