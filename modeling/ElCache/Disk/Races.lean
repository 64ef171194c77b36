import ElCache.Disk.Host
import ElCache.Lib.Rely
import ElCache.Memory.Spec

/-!
# Reads during writes

Chunk files are truncated and rewritten in place, and a read may run at the same time. What keeps a
hit right is that a descriptor is stored only after its chunk files have been written: whoever finds
it finds files that nobody writes any more, unless another `put` brings the same chunk
(`hits_exact`). `Disk.Rewrites` has what happens if one does.
-/

namespace ElCache

open Slice FileSystem LevelView

namespace DiskHost

variable {config : DiskCacheConfig} {H : ByteBuffer → Hash128} {keyHash : CacheKey → Hash128}
  {K : Set ByteBuffer} {P : Set Put} {C : Set ChunkId} {h h' : DiskHost} {b : ByteBuffer}
  {os : ChunkId → ReadOs} {C' : Set ChunkId}

/-! ## What a step may do -/

/-- The chunks named by descriptors that have been stored. -/
def published (h : DiskHost) : Set ChunkId := { id | ∃ desc ∈ h.stored, id ∈ desc.chunks }

/-- The file of a chunk is as it was, or has been removed. -/
def KeptAt (config : DiskCacheConfig) (id : ChunkId) (h h' : DiskHost) : Prop :=
  Kept (chunkPath config id) h.fs h'.fs

/-- If the chunk has a file, it is whole. -/
def WholeAt (config : DiskCacheConfig) (H : ByteBuffer → Hash128) (b : ByteBuffer) (h : DiskHost) :
    Prop :=
  ∀ n, h.fs.current (chunkPath config ⟨H b⟩) = some n →
    h.fs.data (chunkPath config ⟨H b⟩) n = b

/-- A step that writes at most to files of chunks in `C` that are not published, and may remove
files and descriptors. -/
structure Ordinary (config : DiskCacheConfig) (C : Set ChunkId) (h h' : DiskHost) : Prop where
  kept : ∀ id, id ∉ C ∨ id ∈ h.published → KeptAt config id h h'
  stored : h'.stored = h.stored
  descriptors : ∀ key desc, h'.descriptors key = some desc → h.descriptors key = some desc

/-- The last step of a `put`. -/
structure Publishes (desc : ValueDescriptor) (h h' : DiskHost) : Prop where
  fs : h'.fs = h.fs
  stored : h'.stored = desc :: h.stored
  descriptors : h'.descriptors = Function.update h.descriptors desc.key (some desc)

/-- What the others may do to a thread that writes the chunks in `C`. -/
structure Others (config : DiskCacheConfig) (C : Set ChunkId) (h h' : DiskHost) : Prop where
  own : ∀ id ∈ C, KeptAt config id h h'
  published : ∀ id ∈ h.published, KeptAt config id h h'
  stored : h.stored ⊆ h'.stored
  fresh : ∀ id ∈ C, id ∈ h'.published → id ∈ h.published

/-- Descriptors are those of puts, and the chunks of stored descriptors are whole. -/
structure Sound (config : DiskCacheConfig) (H : ByteBuffer → Hash128) (K : Set ByteBuffer)
    (P : Set Put) (h : DiskHost) : Prop where
  descriptor : ∀ key desc, h.descriptors key = some desc →
    desc ∈ h.stored ∧ ∃ p ∈ P, p.key = key ∧ desc = p.descriptor H
  whole : ∀ b ∈ K, ⟨H b⟩ ∈ h.published → WholeAt config H b h

theorem KeptAt.wholeAt (hk : KeptAt config ⟨H b⟩ h h') (hw : WholeAt config H b h) :
    WholeAt config H b h' := by
  intro n hn
  rw [hk.data]
  rcases hk.current with he | he
  · exact hw n (he ▸ hn)
  · rw [he] at hn
    cases hn

theorem published_mono (hs : h.stored ⊆ h'.stored) : h.published ⊆ h'.published := by
  rintro id ⟨desc, hd, hid⟩
  exact ⟨desc, hs hd, hid⟩

theorem Others.refl (config : DiskCacheConfig) (C : Set ChunkId) (h : DiskHost) :
    Others config C h h :=
  ⟨fun _ _ => .refl _ _, fun _ _ => .refl _ _, fun _ hd => hd, fun _ _ hid => hid⟩

theorem Others.trans {h'' : DiskHost} (h₁ : Others config C h h') (h₂ : Others config C h' h'') :
    Others config C h h'' where
  own id hid := (h₁.own id hid).trans (h₂.own id hid)
  published id hid := (h₁.published id hid).trans (h₂.published id (published_mono h₁.stored hid))
  stored := List.Subset.trans h₁.stored h₂.stored
  fresh id hid hpub := h₁.fresh id hid (h₂.fresh id hid hpub)

theorem Ordinary.mono (ho : Ordinary config C h h') (hC : C ⊆ C') :
    Ordinary config C' h h' :=
  ⟨fun id hid => ho.kept id (hid.imp_left fun hn hc => hn (hC hc)), ho.stored, ho.descriptors⟩

theorem Ordinary.published_eq (ho : Ordinary config C h h') : h'.published = h.published := by
  rw [published, published, ho.stored]

/-- An ordinary step is none that disturbs a thread with other chunks. -/
theorem Ordinary.others (ho : Ordinary config C h h') (hC : ∀ id ∈ C, id ∉ C') :
    Others config C' h h' where
  own id hid := ho.kept id (.inl fun hc => hC id hc hid)
  published id hid := ho.kept id (.inr hid)
  stored := ho.stored ▸ fun _ hd => hd
  fresh _ _ hpub := ho.published_eq ▸ hpub

theorem Ordinary.sound (ho : Ordinary config C h h') (hs : Sound config H K P h) :
    Sound config H K P h' where
  descriptor key desc hd := by
    rw [ho.stored]
    exact hs.descriptor key desc (ho.descriptors key desc hd)
  whole b hb hpub := by
    rw [ho.published_eq] at hpub
    exact (ho.kept _ (.inr hpub)).wholeAt (hs.whole b hb hpub)

/-- The ids of the chunks of a put. -/
def ids (H : ByteBuffer → Hash128) (p : Put) : Set ChunkId := { id | id ∈ (p.descriptor H).chunks }

theorem Publishes.published_eq {desc : ValueDescriptor} (hp : Publishes desc h h') :
    h'.published = { id | id ∈ desc.chunks } ∪ h.published := by
  ext id
  simp [published, hp.stored]

/-- To calls that write other chunks, the last step of a put is harmless. -/
theorem Publishes.others {p : Put} (hp : Publishes (p.descriptor H) h h')
    (hC : ∀ id ∈ ids H p, id ∉ C) : Others config C h h' where
  own id _ := by
    rw [KeptAt, hp.fs]
    exact .refl _ _
  published id _ := by
    rw [KeptAt, hp.fs]
    exact .refl _ _
  stored := by
    rw [hp.stored]
    exact List.subset_cons_self _ _
  fresh id hid hpub := by
    rw [hp.published_eq] at hpub
    rcases hpub with hp' | hpub
    · exact absurd hid (hC id hp')
    · exact hpub

/-- A descriptor may be stored once all its chunks are whole. -/
theorem Publishes.sound {p : Put} (hp : Publishes (p.descriptor H) h h') (hP : p ∈ P)
    (hwhole : ∀ b ∈ K, ⟨H b⟩ ∈ ids H p → WholeAt config H b h) (hs : Sound config H K P h) :
    Sound config H K P h' where
  descriptor key desc hd := by
    rw [hp.descriptors] at hd
    rw [hp.stored]
    by_cases hk : key = (p.descriptor H).key
    · rw [hk, Function.update_self] at hd
      cases hd
      exact ⟨List.mem_cons_self, p, hP, hk.symm, rfl⟩
    · rw [Function.update_of_ne hk] at hd
      obtain ⟨hmem, hput⟩ := hs.descriptor key desc hd
      exact ⟨List.mem_cons_of_mem _ hmem, hput⟩
  whole b hb hpub := by
    rw [hp.published_eq] at hpub
    intro n hn
    rw [hp.fs] at hn ⊢
    rcases hpub with hown | hpub
    · exact hwhole b hb hown n hn
    · exact hs.whole b hb hpub n hn

/-! ## Steps that write nothing -/

section
variable {α : Type}

theorem ordinary_onIndex {f : DiskCache → α × DiskCache}
    (hf : ∀ d key desc, (f d).2.descriptors key = some desc → d.descriptors key = some desc) :
    (onIndex config f).Guarantees (Ordinary config ∅) :=
  Prog.guarantees_atomic fun h => ⟨fun _ _ => .refl _ _, rfl, hf (h.cache config)⟩

theorem ordinary_onFiles {f : FileSystem FilePath UInt8 → α × FileSystem FilePath UInt8}
    (hf : ∀ fs id, Kept (chunkPath config id) fs (f fs).2) :
    (onFiles f).Guarantees (Ordinary config ∅) :=
  Prog.guarantees_atomic fun h => ⟨fun id _ => hf h.fs id, rfl, fun _ _ hd => hd⟩

end

theorem ordinary_deleteFile (path : FilePath) :
    (deleteFile path).Guarantees (Ordinary config ∅) :=
  (ordinary_onFiles fun fs _ => kept_unlink path _ fs).bind fun _ => Prog.guarantees_pure _

theorem ordinary_removeChunk (id : ChunkId) :
    (removeChunk config id).Guarantees (Ordinary config ∅) := by
  refine (ordinary_onIndex fun d key desc hd => ?_).bind fun _ => ordinary_deleteFile _
  have hview := congrArg LevelView.descriptor (DiskCache.view_unindexChunk id d)
  rwa [← show (d.unindexChunk id).descriptors = d.descriptors from hview]

/-- Eviction deletes files and writes to none. -/
theorem ordinary_evictLoop (config : DiskCacheConfig) (bytesNeeded rounds evicted : Nat) :
    (evictLoop config bytesNeeded rounds evicted).Guarantees (Ordinary config ∅) := by
  induction rounds generalizing evicted with
  | zero => exact Prog.guarantees_pure _
  | succ rounds ih =>
    refine (ordinary_onIndex fun _ _ _ hd => hd).bind fun goes => ?_
    split
    · refine (ordinary_onIndex fun d key desc hd => ?_).bind fun oldest => ?_
      · rw [popAccess] at hd
        cases ha : d.accessOrder with
        | nil =>
          rw [ha] at hd
          exact hd
        | cons e rest =>
          rw [ha] at hd
          exact hd
      · split
        · exact Prog.guarantees_pure _
        · exact (ordinary_deleteFile _).bind fun _ => ih _
    · exact Prog.guarantees_pure _

theorem ordinary_makeRoom (config : DiskCacheConfig) (rounds needed : Nat) :
    (makeRoom config rounds needed).Guarantees (Ordinary config ∅) := by
  refine (ordinary_onIndex fun _ _ _ hd => hd).bind fun full => ?_
  split
  · exact (ordinary_evictLoop config _ _ _).bind fun _ => Prog.guarantees_pure _
  · exact Prog.guarantees_pure _

/-- So does a removal, which drops the descriptor last. -/
theorem ordinary_remove (config : DiskCacheConfig) (keyHash : CacheKey → Hash128)
    (key : CacheKey) :
    (remove config keyHash key).Guarantees (Ordinary config ∅) := by
  refine (ordinary_onIndex fun _ _ _ hd => hd).bind fun found => ?_
  split
  · exact Prog.guarantees_pure _
  · next desc =>
    have hchunks : ∀ ids, (removeChunks config ids).Guarantees (Ordinary config ∅) := by
      intro ids
      induction ids with
      | nil => exact Prog.guarantees_pure _
      | cons id rest ih => exact (ordinary_removeChunk id).bind fun _ => ih
    refine (hchunks _).bind fun _ => Prog.Guarantees.bind ?_ fun _ => Prog.guarantees_pure _
    refine (ordinary_onIndex fun d k desc hd => ?_).bind fun _ =>
      (ordinary_deleteFile _).bind fun _ => Prog.guarantees_pure _
    by_cases hk : k = key
    · rw [hk] at hd
      dsimp only at hd
      rw [Function.update_self] at hd
      cases hd
    · dsimp only at hd
      rwa [Function.update_of_ne hk] at hd

/-! ## Writing a file -/

/-- None of the chunks is published. -/
def Unpublished (C : Set ChunkId) (h : DiskHost) : Prop := ∀ id ∈ C, id ∉ h.published

theorem Others.unpublished (ho : Others config C h h') (hu : Unpublished C h) : Unpublished C h' :=
  fun id hid hpub => hu id hid (ho.fresh id hid hpub)

theorem Ordinary.unpublished (ho : Ordinary config C' h h') (hu : Unpublished C h) :
    Unpublished C h' := by
  intro id hid hpub
  rw [ho.published_eq] at hpub
  exact hu id hid hpub

/-- The chunks whose file the path names: one or none. -/
def chunkAt (config : DiskCacheConfig) (path : FilePath) : Set ChunkId :=
  { id | chunkPath config id = path }

/-- A step on a file of an unpublished chunk, or on no chunk file. -/
theorem ordinary_setFs {path : FilePath} {fs : FileSystem FilePath UInt8}
    (hfs : ∀ q, q ≠ path → Kept q h.fs fs) (hu : Unpublished (chunkAt config path) h) :
    Ordinary config (chunkAt config path) h { h with fs := fs } where
  kept id hid := by
    refine hfs _ fun hpath => ?_
    rcases hid with hn | hpub
    · exact hn hpath
    · exact hu id hpath hpub
  stored := rfl
  descriptors _ _ hd := hd

/-- A system call on one file by a thread whose chunks are not published. -/
theorem meets_onFiles {α : Type} {f : FileSystem FilePath UInt8 → α × FileSystem FilePath UInt8}
    {path : FilePath} {Q : α → DiskHost → Prop} (hpath : chunkAt config path ⊆ C)
    (hf : ∀ fs q, q ≠ path → Kept q fs (f fs).2) (hu : Unpublished C h)
    (hQ : ∀ h', Others config C h h' → Q (f h'.fs).1 { h' with fs := (f h'.fs).2 }) :
    (onFiles f).Meets (Sound config H K P) (Others config C)
      (Ordinary config (chunkAt config path)) Q h := by
  refine Prog.meets_atomic fun h' ho hs => ?_
  have hu' := ho.unpublished hu
  have hord : Ordinary config (chunkAt config path) h' { h' with fs := (f h'.fs).2 } :=
    ordinary_setFs (hf h'.fs) fun id hid => hu' id (hpath hid)
  exact ⟨hord.sound hs, hord, hQ h' ho⟩

/-- What a thread knows while it writes: its chunks are not published, and if the file is that of
one of them, the file holds what has been written so far and is the one the path names, if any. -/
structure Writing (config : DiskCacheConfig) (C : Set ChunkId) (path : FilePath) (n : Nat)
    (written : ByteBuffer) (h : DiskHost) : Prop where
  unpublished : Unpublished C h
  file : (∃ id ∈ C, chunkPath config id = path) →
    h.fs.data path n = written ∧ ∀ m, h.fs.current path = some m → m = n

section
variable {path : FilePath} {n : Nat} {written data : ByteBuffer}

theorem Writing.others (hw : Writing config C path n written h) (ho : Others config C h h') :
    Writing config C path n written h' where
  unpublished := ho.unpublished hw.unpublished
  file hpath := by
    obtain ⟨hdata, hcurrent⟩ := hw.file hpath
    obtain ⟨id, hid, rfl⟩ := hpath
    have hkept := ho.own id hid
    refine ⟨(congrFun hkept.data n).trans hdata, fun m hm => ?_⟩
    rcases hkept.current with he | he
    · exact hcurrent m (he ▸ hm)
    · rw [he] at hm
      cases hm

/-- The thread replaces what it has written. -/
theorem Writing.setData (hw : Writing config C path n written h)
    (bytes : ByteBuffer → ByteBuffer) :
    Writing config C path n (bytes written)
      { h with fs := h.fs.setData path n (bytes (h.fs.data path n)) } where
  unpublished := hw.unpublished
  file hpath := by
    obtain ⟨hdata, hcurrent⟩ := hw.file hpath
    exact ⟨by rw [data_setData, hdata], hcurrent⟩

/-- What a write promises: if it reports success and the file is that of one of the thread's
chunks, the file is whole. -/
def Wrote (config : DiskCacheConfig) (C : Set ChunkId) (path : FilePath) (data : ByteBuffer)
    (status : Status) (h : DiskHost) : Prop :=
  status.isOk = true → (∃ id ∈ C, chunkPath config id = path) →
    ∀ n, h.fs.current path = some n → h.fs.data path n = data

/-- The loop ends with an error or with all of the data in the file, as nobody else writes to the
files of the chunks of this thread. -/
theorem meets_writeLoop {pwrite : Nat → Except String Nat} (hpwrite : ∀ i, pwrite i ≠ .ok 0)
    (hpath : chunkAt config path ⊆ C) (allocated : Bool) (i : Nat) {total : Nat}
    (htotal : total ≤ data.length)
    (hw : Writing config C path n (WriteOutcome.torn data total allocated) h) :
    (writeLoop path n data pwrite i total).Meets (Sound config H K P) (Others config C)
      (Ordinary config (chunkAt config path)) (Wrote config C path data) h := by
  -- on what is left to write
  induction hk : data.length - total using Nat.strongRecOn generalizing i total h with
  | ind k ih =>
    rw [writeLoop]
    split
    · next hlt =>
      cases hi : pwrite i with
      | error reason =>
        refine Prog.meets_pure fun hok => ?_
        cases hok
      | ok m =>
        cases m with
        | zero => exact absurd hi (hpwrite i)
        | succ m =>
          have hle : total + min (m + 1) (data.length - total) ≤ data.length := by omega
          refine Prog.Meets.bind (Q := fun _ => Writing config C path n
            (WriteOutcome.torn data (total + min (m + 1) (data.length - total)) allocated)) ?_
            fun _ h' hw' => ih _ (by omega) (i + 1) hle hw' rfl
          refine meets_onFiles hpath (fun fs q hq => kept_setData hq n _ fs) hw.unpublished
            fun h' ho => ?_
          rw [← pwriteAt_torn (Nat.le_add_right _ _) hle allocated]
          exact (hw.others ho).setData fun written => pwriteAt written total _
    · next hge =>
      have heq : total = data.length := Nat.le_antisymm htotal (Nat.le_of_not_lt hge)
      refine Prog.meets_pure fun _ hown m hm => ?_
      obtain ⟨hdata, hcurrent⟩ := hw.file hown
      rw [hcurrent m hm, hdata, heq, WriteOutcome.torn]
      simp

/-- A `write_file` by a thread whose chunks are not published. -/
theorem meets_writeFile (data : ByteBuffer) {os : WriteOs} (hpwrite : ∀ i, os.pwrite i ≠ .ok 0)
    (hpath : chunkAt config path ⊆ C) (hu : Unpublished C h) :
    (writeFile os path data).Meets (Sound config H K P) (Others config C)
      (Ordinary config (chunkAt config path)) (Wrote config C path data) h := by
  rw [writeFile]
  cases os.openError with
  | some reason =>
    refine Prog.meets_pure fun hok => ?_
    cases hok
  | none =>
    refine Prog.Meets.bind (Q := fun n => Writing config C path n []) ?_ fun n h₁ hw => ?_
    · refine meets_onFiles hpath (fun fs q hq => kept_openTrunc hq fs) hu fun h' ho => ?_
      obtain ⟨hcurrent, hdata⟩ := openTrunc_spec path h'.fs
      refine ⟨ho.unpublished hu, fun _ => ?_⟩
      refine ⟨hdata, fun m hm => ?_⟩
      exact (Option.some.inj (hcurrent.symm.trans hm)).symm
    · refine Prog.Meets.bind
        (Q := fun _ => Writing config C path n (WriteOutcome.torn data 0 os.allocates)) ?_
        fun _ h₂ hw => meets_writeLoop hpwrite hpath os.allocates 0 (Nat.zero_le _) hw
      cases os.allocates with
      | true =>
        refine meets_onFiles hpath (fun fs q hq => kept_setData hq n _ fs) hw.unpublished
          fun h' ho => ?_
        have hext : WriteOutcome.torn data 0 true = extend [] data.length := by
          simp [WriteOutcome.torn, extend]
        rw [hext]
        exact (hw.others ho).setData fun written => extend written data.length
      | false =>
        exact meets_onFiles hpath (fun fs q _ => .refl q fs) hw.unpublished
          fun h' ho => hw.others ho

end

/-! ## Put -/

theorem Others.wholeAt (ho : Others config C h h') (hC : ⟨H b⟩ ∈ C) (hw : WholeAt config H b h) :
    WholeAt config H b h' :=
  (ho.own _ hC).wholeAt hw

theorem Ordinary.wholeAt (ho : Ordinary config C h h') (hC : ⟨H b⟩ ∉ C)
    (hw : WholeAt config H b h) : WholeAt config H b h' :=
  (ho.kept _ (.inl hC)).wholeAt hw

theorem chunkAt_chunkPath (config : DiskCacheConfig) (id : ChunkId) :
    chunkAt config (chunkPath config id) = {id} := by
  ext id'
  exact ⟨fun hid => chunkPath_inj hid, fun hid => congrArg (chunkPath config) hid⟩

/-- A chunk that has been put is whole. -/
theorem meets_putChunk (config : DiskCacheConfig) {os : WriteOs}
    (hpwrite : ∀ i, os.pwrite i ≠ .ok 0) {chunk : Chunk} (hC : chunk.id H ∈ C) (now : TimePoint)
    (hu : Unpublished C h) :
    (putChunk config H now os chunk).Meets (Sound config H K P) (Others config C)
      (Ordinary config {chunk.id H})
      (fun status h => status.isOk = true → WholeAt config H chunk.data h) h := by
  have hat := chunkAt_chunkPath config (chunk.id H)
  have hown : chunkAt config (chunkPath config (chunk.id H)) ⊆ C := by
    rw [hat]
    exact Set.singleton_subset_iff.2 hC
  have hwrite := meets_writeFile (H := H) (K := K) (P := P) chunk.data hpwrite hown hu
  rw [hat] at hwrite
  refine hwrite.bind fun status h₁ hwrote => ?_
  split
  · next hok =>
    have hwhole : WholeAt config H chunk.data h₁ := hwrote hok ⟨_, hC, rfl⟩
    have hord : (onIndex config fun d => ((), d.indexChunk (chunk.id H) now chunk.size)).Guarantees
        (Ordinary config ∅) := ordinary_onIndex fun _ _ _ hd => hd
    have hindex := (hord.meets (I := Sound config H K P) (R := Others config C) (s := h₁)
      fun _ _ hs ho => ho.sound hs).frame hwhole (fun _ _ ho => ho.wholeAt hC)
      fun _ _ ho => ho.wholeAt (Set.notMem_empty _)
    refine (hindex.mono (fun _ _ ho => ho.mono (Set.empty_subset _)) fun _ _ hq => hq.2).bind
      fun _ _ hw => Prog.meets_pure fun _ => hw
  · next hok => exact Prog.meets_pure fun hok' => absurd hok' hok

/-- The store loop: what it has stored before, and what it stores, is whole in the end. -/
theorem meets_storeChunks (hinj : Set.InjOn H K) {os : DiskCache.PutOs}
    (hpwrite : ∀ i k, (os.write i).pwrite k ≠ .ok 0) {chunks : List Chunk}
    (hchunks : ∀ c ∈ chunks, c.id H ∈ C ∧ c.data ∈ K) {done : Set ByteBuffer}
    (hdone : ∀ b ∈ done, ⟨H b⟩ ∈ C ∧ b ∈ K ∧ WholeAt config H b h) (hu : Unpublished C h)
    (i : Nat) :
    (storeChunks (fun i chunk => putChunk config H (os.tick i) (os.write i) chunk) i chunks).Meets
      (Sound config H K P) (Others config C) (Ordinary config C)
      (fun status h => Unpublished C h ∧ (status.isOk = true →
        ∀ b, (b ∈ done ∨ ∃ c ∈ chunks, c.data = b) → WholeAt config H b h)) h := by
  induction chunks generalizing i done h with
  | nil =>
    refine Prog.meets_pure ⟨hu, fun _ b hb => ?_⟩
    rcases hb with hb | ⟨c, hc, -⟩
    · exact (hdone b hb).2.2
    · cases hc
  | cons c rest ih =>
    obtain ⟨hC, hK⟩ := hchunks c List.mem_cons_self
    -- the write of `c` leaves the files of all other chunks alone
    have hput := (meets_putChunk config (K := K) (P := P) (hpwrite i) hC (os.tick i) hu).frame
      (X := fun h => Unpublished C h ∧
        ∀ b ∈ done, ⟨H b⟩ ≠ c.id H → WholeAt config H b h)
      ⟨hu, fun b hb _ => (hdone b hb).2.2⟩
      (fun _ _ ho hX => ⟨ho.unpublished hX.1, fun b hb hne =>
        ho.wholeAt (hdone b hb).1 (hX.2 b hb hne)⟩)
      fun _ _ ho hX => ⟨ho.unpublished hX.1, fun b hb hne => ho.wholeAt hne (hX.2 b hb hne)⟩
    refine (hput.mono (fun _ _ ho => ho.mono (Set.singleton_subset_iff.2 hC))
      fun _ _ hq => hq).bind fun status h₁ hq => ?_
    obtain ⟨hwhole, hu₁, hothers⟩ := hq
    split
    · next hok =>
      have hdone' : ∀ b ∈ insert c.data done, ⟨H b⟩ ∈ C ∧ b ∈ K ∧ WholeAt config H b h₁ := by
        rintro b (rfl | hb)
        · exact ⟨hC, hK, hwhole hok⟩
        · obtain ⟨hbC, hbK, -⟩ := hdone b hb
          refine ⟨hbC, hbK, ?_⟩
          by_cases hid : (⟨H b⟩ : ChunkId) = c.id H
          · -- the same chunk has been written once more
            rw [hinj hbK hK (congrArg ChunkId.hash hid)]
            exact hwhole hok
          · exact hothers b hb hid
      refine (ih (fun x hx => hchunks x (List.mem_cons_of_mem _ hx)) hdone' hu₁ (i + 1)).mono
        (fun _ _ ho => ho) fun status h₂ hq => ⟨hq.1, fun hok' b hb => hq.2 hok' b ?_⟩
      rcases hb with hb | ⟨x, hx, rfl⟩
      · exact .inl (.inr hb)
      · rcases List.mem_cons.1 hx with rfl | hx
        · exact .inl (.inl rfl)
        · exact .inr ⟨x, hx, rfl⟩
    · next hok => exact Prog.meets_pure ⟨hu₁, fun hok' => absurd hok' hok⟩

theorem chunkAt_descriptorPath (keyHash : CacheKey → Hash128) (config : DiskCacheConfig)
    (key : CacheKey) : chunkAt config (descriptorPath keyHash config key) = ∅ := by
  refine Set.eq_empty_of_forall_notMem fun id hid => ?_
  have htail := List.append_cancel_left hid
  simp at htail

/-- No call of `pwrite` takes nothing. -/
def Reports (os : DiskCache.PutOs) : Prop :=
  (∀ i k, (os.write i).pwrite k ≠ .ok 0) ∧ ∀ k, os.writeDescriptor.pwrite k ≠ .ok 0

/-- What a `put` guarantees. -/
def PutStep (config : DiskCacheConfig) (H : ByteBuffer → Hash128) (p : Put) (h h' : DiskHost) :
    Prop :=
  Ordinary config (ids H p) h h' ∨ Publishes (p.descriptor H) h h'

/-- The descriptor is stored after its chunks, which are whole by then. -/
theorem meets_putDescriptor (hinj : Set.InjOn H K) {p : Put} (hP : p ∈ P) (hK : p.chunks ⊆ K)
    {os : WriteOs} (hpwrite : ∀ k, os.pwrite k ≠ .ok 0) (hu : Unpublished (ids H p) h)
    (hwhole : ∀ b, (∃ c ∈ splitValue p.value.bytes, c.data = b) → WholeAt config H b h) :
    (putDescriptor config keyHash os (p.descriptor H)).Meets (Sound config H K P)
      (Others config (ids H p)) (PutStep config H p) (fun _ _ => True) h := by
  have hat := chunkAt_descriptorPath keyHash config (p.descriptor H).key
  have hown : ∀ c ∈ splitValue p.value.bytes, (⟨H c.data⟩ : ChunkId) ∈ ids H p :=
    fun c hc => List.mem_map_of_mem (f := Chunk.id H) hc
  have hnone : chunkAt config (descriptorPath keyHash config (p.descriptor H).key) ⊆ ids H p := by
    rw [hat]
    exact Set.empty_subset _
  have hwrite := meets_writeFile (H := H) (K := K) (P := P) (descriptorData (p.descriptor H))
    hpwrite hnone hu
  rw [hat] at hwrite
  have hkeeps := hwrite.frame (X := fun h => ∀ b,
      (∃ c ∈ splitValue p.value.bytes, c.data = b) → WholeAt config H b h) hwhole
    (fun _ _ ho hX b hb => by
      obtain ⟨c, hc, rfl⟩ := hb
      exact ho.wholeAt (hown c hc) (hX _ ⟨c, hc, rfl⟩))
    fun _ _ ho hX b hb => ho.wholeAt (Set.notMem_empty _) (hX b hb)
  refine (hkeeps.mono (fun _ _ ho => .inl (ho.mono (Set.empty_subset _)))
    fun _ _ hq => hq.2).bind fun status h₁ hw => ?_
  split
  · refine Prog.meets_atomic fun h₂ ho hs => ?_
    have hpub : Publishes (p.descriptor H) h₂ { h₂ with
        descriptors := Function.update h₂.descriptors (p.descriptor H).key (some (p.descriptor H))
        stored := p.descriptor H :: h₂.stored } := ⟨rfl, rfl, rfl⟩
    refine ⟨hpub.sound hP (fun b hb hid => ?_) hs, .inr hpub, trivial⟩
    obtain ⟨c, hc, hid⟩ := List.mem_map.1 hid
    have hdata : c.data = b := hinj (hK (MemoryCache.data_mem_of_mem_splitValue hc)) hb
      (congrArg ChunkId.hash hid)
    subst hdata
    exact ho.wholeAt (hown c hc) (hw _ ⟨c, hc, rfl⟩)
  · exact Prog.meets_pure trivial

/-- A put writes its own chunks, none of which is published, and publishes them when all are whole.
-/
theorem meets_put (config : DiskCacheConfig) (keyHash : CacheKey → Hash128)
    (hinj : Set.InjOn H K) {p : Put} (hP : p ∈ P) (hK : p.chunks ⊆ K) {os : DiskCache.PutOs}
    (hos : Reports os) (rounds : Nat) (hu : Unpublished (ids H p) h) :
    (put config H keyHash rounds os p).Meets (Sound config H K P) (Others config (ids H p))
      (PutStep config H p) (fun _ _ => True) h := by
  rw [put]
  split
  · exact Prog.meets_pure trivial
  · have hroom := ((ordinary_makeRoom config rounds p.value.size).meets
      (I := Sound config H K P) (R := Others config (ids H p)) (s := h)
      fun _ _ hs ho => ho.sound hs).frame hu (fun _ _ ho => ho.unpublished)
      fun _ _ ho => ho.unpublished
    refine (hroom.mono (fun _ _ ho => .inl (ho.mono (Set.empty_subset _)))
      fun _ _ hq => hq.2).bind fun _ h₁ hu₁ => ?_
    have hchunks : ∀ c ∈ splitValue p.value.bytes, c.id H ∈ ids H p ∧ c.data ∈ K := fun c hc =>
      ⟨List.mem_map_of_mem (f := Chunk.id H) hc,
        hK (MemoryCache.data_mem_of_mem_splitValue hc)⟩
    have hdone : ∀ b ∈ (∅ : Set ByteBuffer), ⟨H b⟩ ∈ ids H p ∧ b ∈ K ∧ WholeAt config H b h₁ :=
      fun b hb => absurd hb (Set.notMem_empty b)
    have hstore := meets_storeChunks (P := P) hinj hos.1 hchunks hdone hu₁ 0
    refine (hstore.mono (fun _ _ ho => .inl ho) fun _ _ hq => hq).bind fun status h₂ hq => ?_
    split
    · next hok =>
      exact meets_putDescriptor hinj hP hK hos.2 hq.1 fun b hb => hq.2 hok b (.inr hb)
    · exact Prog.meets_pure trivial

/-! ## Get -/

section
variable {p : Put}

/-- What a reader knows: the descriptor it follows has been stored, and if it has a file open, it is
that of the chunk. -/
def Reading (config : DiskCacheConfig) (H : ByteBuffer → Hash128) (p : Put) (b : ByteBuffer)
    (n : Nat) (h : DiskHost) : Prop :=
  p.descriptor H ∈ h.stored ∧ h.fs.data (chunkPath config ⟨H b⟩) n = b

theorem mem_published (hb : b ∈ p.chunks) (hp : p.descriptor H ∈ h.stored) :
    ⟨H b⟩ ∈ h.published := by
  refine ⟨_, hp, ?_⟩
  rw [(p.describes H).chunks]
  exact List.mem_map_of_mem (f := fun b => (⟨H b⟩ : ChunkId)) hb

theorem Reading.others {n : Nat} (hr : Reading config H p b n h) (hb : b ∈ p.chunks)
    (ho : Others config C h h') : Reading config H p b n h' := by
  refine ⟨ho.stored hr.1, ?_⟩
  rw [(ho.published _ (mem_published hb hr.1)).data]
  exact hr.2

/-- A system call of a reader. -/
theorem meets_look {α : Type} {f : FileSystem FilePath UInt8 → α} {Q : α → DiskHost → Prop}
    (hQ : ∀ h', Others config C h h' → Sound config H K P h' → Q (f h'.fs) h') :
    (onFiles fun fs => (f fs, fs)).Meets (Sound config H K P) (Others config C)
      (Ordinary config ∅) Q h :=
  Prog.meets_atomic fun h' ho hs =>
    ⟨hs, ⟨fun _ _ => .refl _ _, rfl, fun _ _ hd => hd⟩, hQ h' ho hs⟩

/-- Nobody writes to the file of a published chunk, so the loop reads the chunk. The induction is on
what is left to read. -/
theorem meets_readLoop {pread : Nat → Nat} (hpread : ∀ i, 0 < pread i) (hb : b ∈ p.chunks)
    {n offset length : Nat} (i total : Nat) (hr : Reading config H p b n h) :
    (readLoop (chunkPath config ⟨H b⟩) n offset length pread i total).Meets (Sound config H K P)
      (Others config C) (Ordinary config ∅)
      (fun bytes h => bytes = slice b (offset + total) (offset + length) ∧
        p.descriptor H ∈ h.stored) h := by
  induction hk : length - total using Nat.strongRecOn generalizing i total h with
  | ind k ih =>
    rw [readLoop]
    split
    · next hlt =>
      have hpos := hpread i
      refine Prog.Meets.bind (Q := fun got h => got = slice b (offset + total)
        (offset + total + min (pread i) (length - total)) ∧ Reading config H p b n h)
        (meets_look fun h' ho _ => ?_) fun got h₁ hgot => ?_
      · have hr' := hr.others hb ho
        exact ⟨by rw [hr'.2], hr'⟩
      · obtain ⟨hgot, hr₁⟩ := hgot
        have hlen := congrArg List.length hgot
        rw [length_slice] at hlen
        cases got with
        | nil =>
          refine Prog.meets_pure ⟨?_, hr₁.1⟩
          rw [List.length_nil] at hlen
          exact (slice_eq_nil_of_length_le (by omega)).symm
        | cons x got =>
          rw [List.length_cons] at hlen
          refine (ih _ (by omega) (i + 1) (total + (got.length + 1)) hr₁ rfl).bind
            fun rest h₂ hrest => Prog.meets_pure ⟨?_, hrest.2⟩
          have hpart : slice b (offset + total) (offset + (total + (got.length + 1))) =
              x :: got := by
            rw [hgot, ← slice_min_length b _ (offset + total + _), ← slice_min_length]
            congr 1
            omega
          rw [hrest.1, ← hpart, slice_append (by omega) (by omega)]
    · next hge =>
      refine Prog.meets_pure ⟨(List.length_eq_zero_iff.1 ?_).symm, hr.1⟩
      rw [length_slice]
      omega

/-- The file of a chunk of a stored descriptor is read whole, if it is there. -/
theorem meets_getChunk {os : ReadOs} (hos : os.Works) (hK : p.chunks ⊆ K) (hb : b ∈ p.chunks)
    (hp : p.descriptor H ∈ h.stored) :
    (getChunk config os ⟨H b⟩).Meets (Sound config H K P) (Others config C) (Ordinary config ∅)
      (fun found h => (∀ c, found = some c → c = ⟨b⟩) ∧ p.descriptor H ∈ h.stored) h := by
  refine Prog.Meets.bind (Q := fun data h => (data = [] ∨ data = b) ∧ p.descriptor H ∈ h.stored)
    ?_ fun data h₁ hdata => Prog.meets_pure ⟨fun c hc => ?_, hdata.2⟩
  · rw [readFile]
    refine Prog.Meets.bind (Q := fun opened h => p.descriptor H ∈ h.stored ∧
      ∀ n, opened = some n → h.fs.data (chunkPath config ⟨H b⟩) n = b)
      (meets_look fun h' ho hs => ?_) fun opened h₁ hopened => ?_
    · have hp' := ho.stored hp
      exact ⟨hp', hs.whole b (hK hb) (mem_published hb hp')⟩
    · cases opened with
      | none => exact Prog.meets_pure ⟨.inl rfl, hopened.1⟩
      | some n =>
        have hr : Reading config H p b n h₁ := ⟨hopened.1, hopened.2 n rfl⟩
        simp only [hos.opens, if_true, hos.stats]
        refine Prog.Meets.bind (Q := fun size h => size = b.length ∧ Reading config H p b n h)
          (meets_look fun h' ho _ => ?_) fun size h₂ hsize => ?_
        · have hr' := hr.others hb ho
          exact ⟨by rw [hr'.2], hr'⟩
        · obtain ⟨rfl, hr₂⟩ := hsize
          refine (meets_readLoop hos.pread hb 0 0 hr₂).mono (fun _ _ ho => ho)
            fun bytes h hq => ⟨.inr ?_, hq.2⟩
          rw [hq.1, restLength, if_pos (Nat.zero_le _)]
          simp [slice]
  · split at hc
    · cases hc
    · next hne =>
      rcases hdata.1 with rfl | rfl
      · exact absurd rfl hne
      · exact (Option.some.inj hc).symm

/-- A fetch that finds all chunks finds the blocks of the value. -/
theorem meets_fetchChunks (hos : ∀ id, (os id).Works) (hK : p.chunks ⊆ K) (allowPartial : Bool)
    {idxs : List Nat} (hi : ∀ i ∈ idxs, i < blockCount chunkSize p.value.bytes.length)
    (hp : p.descriptor H ∈ h.stored) :
    (fetchChunks (fun id => getChunk config (os id) id) (p.descriptor H) allowPartial idxs).Meets
      (Sound config H K P) (Others config C) (Ordinary config ∅)
      (fun fetched _ => fetched.2 = true →
        fetched.1 = idxs.map fun i => some ⟨block chunkSize p.value.bytes i⟩) h := by
  induction idxs generalizing h with
  | nil => exact Prog.meets_pure fun _ => rfl
  | cons idx rest ih =>
    have hlt := hi idx List.mem_cons_self
    have hb : block chunkSize p.value.bytes idx ∈ p.chunks := mem_blocks.2 ⟨idx, hlt, rfl⟩
    rw [fetchChunks, (p.describes H).getElem?_chunks hlt]
    refine (meets_getChunk (hos _) hK hb hp).bind fun found h₁ hfound => ?_
    split
    · refine Prog.meets_pure fun hall => ?_
      cases hall
    · refine (ih (fun i hi' => hi i (List.mem_cons_of_mem _ hi')) hfound.2).bind
        fun fetched _ hf => Prog.meets_pure fun hall => ?_
      obtain ⟨hsome, hrest⟩ := Bool.and_eq_true_iff.1 hall
      obtain ⟨c, rfl⟩ := Option.isSome_iff_exists.1 hsome
      rw [hf hrest, List.map_cons, hfound.1 c rfl]

/-- After the descriptor of a put has been found, a hit has the bytes of the value put. -/
theorem meets_readFound (hos : ∀ id, (os id).Works) (hK : p.chunks ⊆ K) (now : Timestamp)
    (opts : ReadOptions) (hp : p.descriptor H ∈ h.stored) :
    (readFound (fun id => getChunk config (os id) id) DiskCache.assembleValue now opts
      (p.descriptor H)).Meets (Sound config H K P) (Others config C) (Ordinary config ∅)
      (fun r _ => r.isHit = true → r.data = requested p.value.bytes opts) h := by
  have hd := p.describes H
  have hv := p.value.size_lt
  rcases readFound_cases (fun id => getChunk config (os id) id) DiskCache.assembleValue now opts hd
    with ⟨result, heq, -, hdata⟩ | ⟨hlive, r, hr, ho, hlen⟩
  · rw [heq]
    exact Prog.meets_pure hdata
  · rw [readFound_eq _ hd hv hlive hr ho hlen]
    refine (meets_fetchChunks hos hK opts.allowPartial (fun i hi =>
      lt_blockCount_of_mem_touched (by omega) (by omega) hi) hp).bind fun fetched _ hf =>
        Prog.meets_pure fun hhit => ?_
    obtain ⟨hall, hdata⟩ := finishRead_hit hhit
    rw [hdata, hf hall, DiskCache.exactAssembly _ _ _ hv (by omega) (by omega), requested_eq hr ho]

end

/-- A hit has the bytes of a value that was put under the key. -/
theorem meets_get (config : DiskCacheConfig) (hos : ∀ id, (os id).Works)
    (hPK : ∀ p ∈ P, p.chunks ⊆ K) (now : Timestamp) (key : CacheKey) (opts : ReadOptions) :
    (get config os now key opts).Meets (Sound config H K P) (Others config C) (Ordinary config ∅)
      (fun r _ => r.isHit = true →
        ∃ p ∈ P, p.key = key ∧ r.data = requested p.value.bytes opts) h := by
  refine Prog.Meets.bind (Q := fun found h => ∀ desc, found = some desc →
    desc ∈ h.stored ∧ ∃ p ∈ P, p.key = key ∧ desc = p.descriptor H)
    (Prog.meets_atomic fun h' _ hs => ?_) fun found h₁ hfound => ?_
  · refine ⟨hs, ⟨fun _ _ => .refl _ _, rfl, fun _ _ hd => hd⟩, fun desc hd => ?_⟩
    exact hs.descriptor key desc hd
  · cases found with
    | none =>
      refine Prog.meets_pure fun hhit => ?_
      cases hhit
    | some desc =>
      obtain ⟨hmem, p, hP, hkey, rfl⟩ := hfound desc rfl
      exact (meets_readFound hos (hPK p hP) now opts hmem).mono (fun _ _ ho => ho)
        fun r _ hr hhit => ⟨p, hP, hkey, hr hhit⟩

/-! ## Every interleaving -/

/-- A call of the level, with what the operating system answers and, where it evicts, for how many
rounds. -/
inductive Call where
  | put (rounds : Nat) (os : DiskCache.PutOs) (p : Put)
  | get (os : ChunkId → ReadOs) (now : Timestamp) (key : CacheKey) (opts : ReadOptions)
  | remove (key : CacheKey)
  | evict (rounds bytesNeeded : Nat)

/-- What a call returns. -/
inductive Reply where
  | status (s : Status)
  | read (r : ReadResult)
  | evicted (bytes : Nat)

namespace Call

/-- The program of a call. -/
def prog (config : DiskCacheConfig) (H : ByteBuffer → Hash128) (keyHash : CacheKey → Hash128) :
    Call → Prog DiskHost Reply
  | .put rounds os p => do pure (.status (← DiskHost.put config H keyHash rounds os p))
  | .get os now key opts => do pure (.read (← DiskHost.get config os now key opts))
  | .remove key => do pure (.status (← DiskHost.remove config keyHash key))
  | .evict rounds bytesNeeded => do pure (.evicted (← evictLoop config bytesNeeded rounds 0))

/-- The chunk contents a call brings in. -/
def chunks : Call → Set ByteBuffer
  | .put _ _ p => p.chunks
  | _ => ∅

/-- The operating system reports what it does not write, and delivers what is asked for. -/
def Works : Call → Prop
  | .put _ os _ => Reports os
  | .get os _ _ _ => ∀ id, (os id).Works
  | _ => True

/-- The names of these chunks. -/
def own (H : ByteBuffer → Hash128) (call : Call) : Set ChunkId :=
  (fun b => ⟨H b⟩) '' call.chunks

/-- What the steps of a call are. -/
def Guarantee (config : DiskCacheConfig) (H : ByteBuffer → Hash128) (call : Call)
    (h h' : DiskHost) : Prop :=
  Ordinary config (call.own H) h h' ∨
    ∃ rounds os p, call = .put rounds os p ∧ Publishes (p.descriptor H) h h'

end Call

theorem ids_eq (H : ByteBuffer → Hash128) (p : Put) :
    ids H p = (fun b => (⟨H b⟩ : ChunkId)) '' p.chunks := by
  ext id
  rw [ids, (p.describes H).chunks]
  exact List.mem_map

section
variable {call : Call}

theorem Call.Guarantee.others {call' : Call} (hg : call.Guarantee config H h h')
    (hC : ∀ id ∈ call.own H, id ∉ call'.own H) : Others config (call'.own H) h h' := by
  rcases hg with ho | ⟨rounds, os, p, rfl, hp⟩
  · exact ho.others hC
  · refine hp.others ?_
    rw [ids_eq]
    exact hC

/-- The obligation of a call. -/
theorem Call.meets (hinj : Set.InjOn H K) (hPK : ∀ p ∈ P, p.chunks ⊆ K) (hworks : call.Works)
    (hP : ∀ rounds os p, call = .put rounds os p → p ∈ P) (hu : Unpublished (call.own H) h) :
    (call.prog config H keyHash).Meets (Sound config H K P) (Others config (call.own H))
      (call.Guarantee config H)
      (fun reply _ => ∀ os now key opts r, call = .get os now key opts → reply = .read r →
        r.isHit = true → ∃ p ∈ P, p.key = key ∧ r.data = requested p.value.bytes opts) h := by
  cases call with
  | put rounds os p =>
    rw [← show ids H p = (Call.put rounds os p).own H from ids_eq H p] at hu ⊢
    have hput := meets_put config keyHash hinj (hP _ _ p rfl) (hPK p (hP _ _ p rfl)) hworks rounds
      hu
    refine (hput.mono (fun _ _ hs => ?_) fun _ _ hq => hq).bind fun status _ _ =>
      Prog.meets_pure fun _ _ _ _ _ hcall => ?_
    · rcases hs with ho | hp
      · rw [ids_eq] at ho
        exact .inl ho
      · exact .inr ⟨rounds, os, p, rfl, hp⟩
    · cases hcall
  | get os now key opts =>
    refine ((meets_get config hworks hPK now key opts).mono
      (fun _ _ ho => .inl (ho.mono (Set.empty_subset _))) fun _ _ hq => hq).bind
      fun r _ hr => Prog.meets_pure fun _ _ _ _ _ hcall hreply hhit => ?_
    cases hcall
    cases hreply
    exact hr hhit
  | remove key =>
    refine (((ordinary_remove config keyHash key).meets
      fun _ _ hs ho => ho.sound hs).mono (fun _ _ ho => .inl (ho.mono (Set.empty_subset _)))
      fun _ _ hq => hq).bind fun _ _ _ => Prog.meets_pure fun _ _ _ _ _ hcall => ?_
    cases hcall
  | evict rounds bytesNeeded =>
    refine (((ordinary_evictLoop config bytesNeeded rounds 0).meets
      fun _ _ hs ho => ho.sound hs).mono (fun _ _ ho => .inl (ho.mono (Set.empty_subset _)))
      fun _ _ hq => hq).bind fun _ _ _ => Prog.meets_pure fun _ _ _ _ _ hcall => ?_
    cases hcall

end

/-- **Hits are exact while files are written, if no chunk is brought by two puts.** Take any number
of put, get, remove and evict calls on an empty directory, interleaved in any order system call by
system call, in which `pwrite` and `pread` transfer as little as they like and writes may fail. If
no chunk content occurs in two of the puts, every hit returns the requested bytes of a value that
was put under the key. -/
theorem hits_exact {ι : Type*} [DecidableEq ι] (config : DiskCacheConfig)
    (H : ByteBuffer → Hash128) (keyHash : CacheKey → Hash128) (calls : ι → Call)
    (hinj : Set.InjOn H { b | ∃ i, b ∈ (calls i).chunks }) (hworks : ∀ i, (calls i).Works)
    (hdisjoint : ∀ i j, i ≠ j → ∀ b ∈ (calls i).chunks, b ∉ (calls j).chunks)
    {pool : Pool ι DiskHost Reply}
    (hreach : Pool.Reach (fun _ _ => False)
      (Pool.start {} fun i => (calls i).prog config H keyHash) pool) {i : ι}
    {os : ChunkId → ReadOs} {now : Timestamp} {key : CacheKey} {opts : ReadOptions}
    (hcall : calls i = .get os now key opts) {r : ReadResult}
    (hret : (pool.threads i).prog = .ret (.read r)) (hhit : r.isHit = true) :
    ∃ j rounds os p, calls j = .put rounds os p ∧ p.key = key ∧
      r.data = requested p.value.bytes opts := by
  let K : Set ByteBuffer := { b | ∃ i, b ∈ (calls i).chunks }
  let P : Set Put := { p | ∃ j rounds os, calls j = .put rounds os p }
  have hPK : ∀ p ∈ P, p.chunks ⊆ K := by
    rintro p ⟨j, rounds, os, hj⟩ b hb
    exact ⟨j, by rw [hj]; exact hb⟩
  have hown : ∀ i j, i ≠ j → ∀ id ∈ (calls i).own H, id ∉ (calls j).own H := by
    rintro i j hij _ ⟨b, hb, rfl⟩ ⟨c, hc, heq⟩
    have hbc : c = b := hinj ⟨j, hc⟩ ⟨i, hb⟩ (congrArg ChunkId.hash heq)
    rw [hbc] at hc
    exact hdisjoint i j hij b hb hc
  have hempty : Sound config H K P {} := by
    refine ⟨fun key desc hd => ?_, fun b _ hpub => ?_⟩
    · cases hd
    · obtain ⟨desc, hd, -⟩ := hpub
      cases hd
  obtain ⟨-, hthreads⟩ := hreach.meets (fun i h => Others.refl config ((calls i).own H) h)
    (fun _ _ _ _ => Others.trans) (fun i j hij _ _ hg => hg.others (hown i j hij)) hempty
    fun j => Call.meets (P := P) hinj hPK (hworks j) (fun rounds os p hp => ⟨j, rounds, os, hp⟩)
      fun id _ hpub => by
        obtain ⟨desc, hd, -⟩ := hpub
        cases hd
  have hi := hthreads i
  rw [hret] at hi
  obtain ⟨p, ⟨j, rounds, os', hj⟩, hkey, hdata⟩ := hi os now key opts r hcall rfl hhit
  exact ⟨j, rounds, os', p, hj, hkey, hdata⟩

/-- A put all of whose writes take one byte at a time. -/
def bytewise : DiskCache.PutOs :=
  ⟨fun _ => 0, fun _ => { pwrite := fun _ => .ok 1 }, { pwrite := fun _ => .ok 1 }⟩

/-- A byte is put, and read. -/
def pairCalls (reads : Bool) : Call :=
  bif reads then .get (fun _ => { pread := fun _ => 1 }) 0 ⟨[1]⟩ {}
  else .put 0 bytewise (bytePut 1 7)

/-- The byte is found when its put has returned. -/
theorem isHit_pair (keyHash : CacheKey → Hash128) :
    ((get {} (fun _ => { pread := fun _ => 1 }) 0 ⟨[1]⟩ {}).run
      ((put {} sampleHash keyHash 0 bytewise (bytePut 1 7)).run {}).2).1.isHit = true := by
  have hreads : ReadOs.Works { pread := fun _ => 1 } := ⟨rfl, rfl, fun _ => Nat.one_pos⟩
  have hwrites : WriteOs.Works { pwrite := fun _ => .ok 1 } := ⟨rfl, fun _ => ⟨0, rfl⟩⟩
  have henv : bytewise.env sampleHash (bytePut 1 7) = { tick := fun _ => 0 } := by
    simp only [DiskCache.PutOs.env, bytewise, hwrites.outcome]
  have hput : Prog.ImplementsAt (cache {}) (put {} sampleHash keyHash 0 bytewise (bytePut 1 7))
      (DiskCache.putIo sampleHash bytewise (bytePut 1 7)) {} :=
    implements_put bytewise (bytePut 1 7) (Nat.le_refl 0)
  rw [(implements_get _ _ _ _ _).1, hput.2, DiskCache.putIo_eq, henv,
    DiskCache.getIo_eq fun _ => hreads]
  decide +kernel

/-- The put runs to its end before the get begins. -/
theorem hits_exact_pair : ∃ pool r, Pool.Reach (fun _ _ => False)
    (Pool.start {} fun i => (pairCalls i).prog {} sampleHash fun _ => ⟨0, 0⟩) pool ∧
    (pool.threads true).prog = .ret (.read r) ∧ r.isHit = true ∧
    ∃ j rounds os p, pairCalls j = .put rounds os p ∧ p.key = ⟨[1]⟩ ∧
      r.data = requested p.value.bytes {} := by
  obtain ⟨pool, hreach, -, hret⟩ := Pool.exists_reach_run_pair (E := fun _ _ => False) {}
    (fun i => (pairCalls i).prog {} sampleHash fun _ => ⟨0, 0⟩) (i := false) (j := true)
    (by decide) rfl
  have hhit := isHit_pair fun _ => ⟨0, 0⟩
  simp only [pairCalls, cond_true, cond_false, Call.prog, Prog.run_bind, Prog.run_pure] at hret
  refine ⟨pool, _, hreach, hret, hhit, ?_⟩
  refine hits_exact {} sampleHash _ pairCalls ?_ ?_ ?_ hreach rfl hret hhit
  · have hbyte : ∀ b, (∃ i, b ∈ (pairCalls i).chunks) → b = [7] := by
      rintro b ⟨i, hb⟩
      cases i with
      | true => cases hb
      | false =>
        have hmem : b ∈ blocks chunkSize ([7] : ByteBuffer) := hb
        rw [blocks_byte] at hmem
        exact List.mem_singleton.1 hmem
    exact fun x hx y hy _ => (hbyte x hx).trans (hbyte y hy).symm
  · intro i
    cases i with
    | true => exact fun _ => ⟨rfl, rfl, fun _ => Nat.one_pos⟩
    | false =>
      exact ⟨fun _ _ h => absurd (Except.ok.inj h) one_ne_zero,
        fun _ h => absurd (Except.ok.inj h) one_ne_zero⟩
  · intro i j hij b hb hb'
    cases i with
    | true => cases hb
    | false =>
      cases j with
      | true => cases hb'
      | false => exact hij rfl

end DiskHost

end ElCache
