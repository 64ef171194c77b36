import ElCache.Coordinator.Spec
import ElCache.Disk.Index

/-!
# When a put succeeds

`isOk_put_iff`: a put of the coordinator reports success exactly if it writes to some level and each
level it writes to takes the value. The memory level takes what is within the size limits. The disk
level bounds the key only, and needs every file it writes to be written.
-/

namespace ElCache

variable {H : ByteBuffer → Hash128}

/-! ## One level -/

/-- The memory level takes exactly what is within the limits. -/
theorem MemoryCache.isOk_put_iff (p : Put) (m : MemoryCache) :
    ((put H p).run m).1.isOk = true ↔ Accepts p := by
  have hstore : ∀ (i : Nat) (chunks : List Chunk) (m : MemoryCache),
      ((storeChunks (fun _ chunk => putChunk H (some chunk)) i chunks).run m).1 = .makeOk := by
    intro i chunks
    induction chunks generalizing i with
    | nil => intro m; rfl
    | cons c rest ih => intro m; exact ih (i + 1) _
  constructor
  · intro hok
    by_contra hrej
    rw [(run_put_rejected (H := H) (m := m) hrej).1] at hok
    cases hok
  · intro h
    rw [put, if_neg (Nat.not_lt.2 h.1), if_neg (Nat.not_lt.2 h.2), Prog.run_bind, hstore]
    rfl

/-- The writes of a put with `n` chunks report success, that of the descriptor included. -/
def WriteEnv.Succeeds (env : WriteEnv) (n : Nat) : Prop :=
  (∀ i < n, (env.write i).status.isOk = true) ∧ env.writeDescriptor.status.isOk = true

namespace DiskCache

/-- The store loop reports success if every write does. -/
theorem isOk_store_iff (env : WriteEnv) (i : Nat) (chunks : List Chunk) (d : DiskCache) :
    ((store H env i chunks).run d).1.isOk = true ↔
      ∀ j < chunks.length, (env.write (i + j)).status.isOk = true := by
  induction chunks generalizing d i with
  | nil => exact ⟨fun _ j hj => absurd hj (Nat.not_lt_zero j), fun _ => rfl⟩
  | cons c rest ih =>
    rw [run_store_cons]
    cases hok : (env.write i).status.isOk with
    | false =>
      rw [if_neg Bool.false_ne_true]
      refine ⟨fun h => ?_, fun h => h 0 (Nat.succ_pos _)⟩
      rw [hok] at h
      cases h
    | true =>
      rw [if_pos rfl, ih]
      constructor
      · intro h j hj
        cases j with
        | zero => exact hok
        | succ j =>
          rw [← Nat.succ_add_eq_add_succ]
          exact h j (Nat.lt_of_succ_lt_succ hj)
      · intro h j hj
        rw [Nat.succ_add_eq_add_succ]
        exact h (j + 1) (Nat.succ_lt_succ hj)

/-- The disk level takes what has a short enough key, if its writes succeed. -/
theorem isOk_put_iff (env : WriteEnv) (p : Put) (d : DiskCache) :
    ((put H env p).run d).1.isOk = true ↔
      p.key.size ≤ maxKeySize ∧ env.Succeeds (splitValue p.value.bytes).length := by
  rcases Nat.lt_or_ge maxKeySize p.key.size with hlt | hle
  · rw [(run_put_rejected hlt).1]
    exact ⟨fun h => absurd h Bool.false_ne_true, fun h => absurd h.1 (Nat.not_le.2 hlt)⟩
  · have hstore := isOk_store_iff (H := H) env 0 (splitValue p.value.bytes)
      ((makeRoom p.value.size).run d).2
    simp only [Nat.zero_add] at hstore
    rw [run_put_of_le env p d hle, WriteEnv.Succeeds, ← hstore]
    dsimp only
    split
    · next hok => exact ⟨fun h => ⟨hle, hok, h⟩, fun h => h.2.2⟩
    · next hbad => exact ⟨fun h => absurd h hbad, fun h => absurd h.2.1 hbad⟩

end DiskCache

/-! ## Both levels -/

namespace CacheCoordinator

/-- A put writes to the memory level. -/
def writesMemory (c : CacheCoordinator) (p : PutCall) : Bool :=
  !p.opts.noMemory && c.memory.isSome

/-- A put writes to the disk level. -/
def writesDisk (c : CacheCoordinator) (p : PutCall) : Bool := !p.opts.noDisk && c.disk.isSome

/-- The put writes to some level, and each level it writes to takes the value. -/
structure Stores (c : CacheCoordinator) (p : PutCall) : Prop where
  some_level : c.writesMemory p = true ∨ c.writesDisk p = true
  memory : c.writesMemory p = true → MemoryCache.Accepts p.memoryPut
  disk : c.writesDisk p = true →
    p.key.size ≤ maxKeySize ∧ p.env.Succeeds (splitValue p.value.bytes).length

/-- The memory step of a put: skipped, refused without a change, or taken. -/
theorem putToMemory_cases (H : ByteBuffer → Hash128) (p : PutCall) (c : CacheCoordinator) :
    (c.writesMemory p = false ∧ (putToMemory H p).run c = (none, c) ∧ putMemory H p c = c.memory) ∨
    (c.writesMemory p = true ∧ ¬ MemoryCache.Accepts p.memoryPut ∧
      ∃ status, (putToMemory H p).run c = (some status, c) ∧ status.isOk = false) ∨
    (c.writesMemory p = true ∧ MemoryCache.Accepts p.memoryPut ∧ ∃ status,
      (putToMemory H p).run c = (some status, { c with memory := putMemory H p c }) ∧
        status.isOk = true) := by
  obtain ⟨config, memory, disk⟩ := c
  unfold writesMemory putToMemory putMemory
  cases p.opts.noMemory with
  | true => exact .inl ⟨rfl, rfl, rfl⟩
  | false =>
    cases memory with
    | none => exact .inl ⟨rfl, rfl, rfl⟩
    | some m =>
      rcases Classical.em (MemoryCache.Accepts p.memoryPut) with hacc | hrej
      · exact .inr (.inr ⟨rfl, hacc, _, rfl, (MemoryCache.isOk_put_iff p.memoryPut m).2 hacc⟩)
      · obtain ⟨hbad, hsame⟩ := MemoryCache.run_put_rejected (H := H) (m := m) hrej
        refine .inr (.inl ⟨rfl, hrej, _, Prod.ext rfl ?_, hbad⟩)
        exact congrArg (fun m' => CacheCoordinator.mk config (some m') disk) hsame

/-- The disk step of a put: skipped, or with a status that says whether the level took the value. -/
theorem putToDisk_cases (H : ByteBuffer → Hash128) (p : PutCall) (c : CacheCoordinator) :
    (c.writesDisk p = false ∧ (putToDisk H p).run c = (none, c) ∧ putDisk H p c = c.disk) ∨
    (c.writesDisk p = true ∧ ∃ status, (putToDisk H p).run c =
      (some status, { c with disk := putDisk H p c }) ∧ (status.isOk = true ↔
        p.key.size ≤ maxKeySize ∧ p.env.Succeeds (splitValue p.value.bytes).length)) := by
  obtain ⟨config, memory, disk⟩ := c
  unfold writesDisk putToDisk putDisk
  cases p.opts.noDisk with
  | true => exact .inl ⟨rfl, rfl, rfl⟩
  | false =>
    cases disk with
    | none => exact .inl ⟨rfl, rfl, rfl⟩
    | some d => exact .inr ⟨rfl, _, rfl, DiskCache.isOk_put_iff p.env p.diskPut d⟩

/-- A put whose memory step has not failed goes on to the disk level. -/
theorem run_put_of_memory {p : PutCall} {c c' : CacheCoordinator} {memoryStatus : Option Status}
    (hrun : (putToMemory H p).run c = (memoryStatus, c'))
    (hgo : memoryStatus.filter (!·.isOk) = none) :
    ∃ status, (put H p).run c = (status, { c' with disk := putDisk H p c' }) ∧
      (status.isOk = true ↔ (memoryStatus.isSome = true ∨ c'.writesDisk p = true) ∧
        (c'.writesDisk p = true →
          p.key.size ≤ maxKeySize ∧ p.env.Succeeds (splitValue p.value.bytes).length)) := by
  rw [put, Prog.run_bind, hrun]
  simp only [hgo]
  rw [Prog.run_bind]
  rcases putToDisk_cases H p c' with ⟨hno, hskip, hsame⟩ | ⟨hyes, status, hstep, hstatus⟩
  · rw [hskip, hsame, hno]
    cases memoryStatus with
    | none => exact ⟨_, rfl, by simp [Status.isOk, Status.error]⟩
    | some st => exact ⟨_, rfl, by simp [Status.isOk, Status.makeOk]⟩
  · rw [hstep, hyes]
    cases hok : status.isOk with
    | true =>
      have hnone : (some status).filter (!·.isOk) = none := by simp [hok]
      simp only [hnone, Option.isSome_some, Bool.or_true, if_true]
      exact ⟨_, rfl, ⟨fun _ => ⟨.inr trivial, fun _ => hstatus.1 hok⟩, fun _ => rfl⟩⟩
    | false =>
      have hsome : (some status).filter (!·.isOk) = some status := by simp [hok]
      simp only [hsome]
      refine ⟨status, rfl, ⟨fun h => absurd (hok.symm.trans h) Bool.false_ne_true, fun h => ?_⟩⟩
      exact hstatus.2 (h.2 trivial)

/-- A put is refused by the memory level and changes nothing, or goes through both steps. -/
theorem put_cases (H : ByteBuffer → Hash128) (p : PutCall) (c : CacheCoordinator) :
    (c.writesMemory p = true ∧ ¬ MemoryCache.Accepts p.memoryPut ∧
      ∃ status, (put H p).run c = (status, c) ∧ status.isOk = false) ∨
    ((c.writesMemory p = true → MemoryCache.Accepts p.memoryPut) ∧ ∃ status,
      (put H p).run c = (status, ⟨c.config, putMemory H p c, putDisk H p c⟩) ∧
        (status.isOk = true ↔ (c.writesMemory p = true ∨ c.writesDisk p = true) ∧
          (c.writesDisk p = true →
            p.key.size ≤ maxKeySize ∧ p.env.Succeeds (splitValue p.value.bytes).length))) := by
  rcases putToMemory_cases H p c with ⟨hno, hrun, hsame⟩ | ⟨hyes, hrej, status, hrun, hbad⟩ |
    ⟨hyes, hacc, status, hrun, hok⟩
  · refine .inr ⟨fun h => absurd (hno.symm.trans h) Bool.false_ne_true, ?_⟩
    obtain ⟨status, hput, hstatus⟩ := run_put_of_memory hrun rfl
    rw [hno, hsame]
    exact ⟨status, hput, hstatus⟩
  · refine .inl ⟨hyes, hrej, status, ?_, hbad⟩
    have hsome : (some status).filter (!·.isOk) = some status := by simp [hbad]
    rw [put, Prog.run_bind, hrun]
    simp only [hsome]
    rfl
  · obtain ⟨st, hput, hstatus⟩ := run_put_of_memory hrun (by simp [hok])
    rw [hyes]
    exact .inr ⟨fun _ => hacc, st, hput, hstatus⟩

/-- A put reports success exactly if it writes to some level and each level it writes to takes the
value. -/
theorem isOk_put_iff (H : ByteBuffer → Hash128) (p : PutCall) (c : CacheCoordinator) :
    ((put H p).run c).1.isOk = true ↔ c.Stores p := by
  rcases put_cases H p c with ⟨hyes, hrej, status, hrun, hbad⟩ | ⟨hacc, status, hrun, hstatus⟩
  · rw [hrun]
    refine ⟨fun h => absurd (hbad.symm.trans h) Bool.false_ne_true, fun h => ?_⟩
    exact absurd (h.memory hyes) hrej
  · rw [hrun, hstatus]
    exact ⟨fun h => ⟨h.1, hacc, h.2⟩, fun h => ⟨h.some_level, h.disk⟩⟩

end CacheCoordinator

end ElCache
