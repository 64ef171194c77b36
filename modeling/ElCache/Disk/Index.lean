import ElCache.Disk.Spec

/-!
# The index of the disk level

The index records the path of every chunk, an access order and the total size; the files are kept
apart from it. `Indexed` says that index and files agree: the recorded chunks are those whose files
exist, each has exactly one access entry, with the file's size, and the total is the sum of the
sizes.

Removing a chunk and evicting keep the agreement. Writing one keeps it exactly when the chunk is not
recorded yet and the clock does not show the time of an entry (`indexed_storeChunks_iff`): writing a
chunk again adds a second entry and counts its bytes twice, and an entry with a time already taken
is dropped while its bytes are counted. Neither is made good before the end of the `put`
(`Miscounted`), so `indexed_iff` says of every run when index and files agree in all its states.
-/

namespace ElCache

/-! ## The access order -/

/-- The bytes that the entries of an access order account for. -/
def accessBytes (l : List AccessEntry) : Nat := (l.map AccessEntry.size).sum

/-- The entries of one chunk. -/
def entriesOf (id : ChunkId) (l : List AccessEntry) : List AccessEntry :=
  l.filter fun e => e.id = id

/-- The access times increase strictly, as in a set ordered by them. -/
def TimeOrdered (l : List AccessEntry) : Prop := l.Pairwise fun x y => x.lastAccess < y.lastAccess

/-- No entry has the access time `t`. -/
def TimeFree (t : TimePoint) (l : List AccessEntry) : Prop := ∀ x ∈ l, x.lastAccess ≠ t

section
variable {e x : AccessEntry} {l : List AccessEntry} {id : ChunkId}

@[simp] theorem accessBytes_cons (e : AccessEntry) (l : List AccessEntry) :
    accessBytes (e :: l) = e.size + accessBytes l := by
  rw [accessBytes, List.map_cons, List.sum_cons, accessBytes]

theorem accessBytes_perm {l l' : List AccessEntry} (h : l.Perm l') :
    accessBytes l = accessBytes l' :=
  (h.map AccessEntry.size).sum_eq

theorem mem_insertAccess (h : x ∈ insertAccess e l) : x = e ∨ x ∈ l := by
  induction l with
  | nil => exact .inl (List.mem_singleton.1 h)
  | cons y ys ih =>
    rw [insertAccess] at h
    split at h
    · exact List.mem_cons.1 h
    · split at h
      · rcases List.mem_cons.1 h with rfl | h
        · exact .inr List.mem_cons_self
        · exact (ih h).imp_right (List.mem_cons_of_mem y)
      · exact .inr h

/-- An entry with a time of its own is inserted. -/
theorem perm_insertAccess (h : TimeFree e.lastAccess l) : (insertAccess e l).Perm (e :: l) := by
  induction l with
  | nil => exact .refl _
  | cons y ys ih =>
    have hne := h y List.mem_cons_self
    rw [insertAccess]
    split
    · exact .refl _
    · next hle =>
      rw [if_pos (lt_of_le_of_ne (not_lt.1 hle) hne)]
      have hrest := ih fun z hz => h z (List.mem_cons_of_mem _ hz)
      exact (hrest.cons y).trans (.swap e y ys)

/-- An entry with the time of another is dropped. -/
theorem insertAccess_of_taken (hl : TimeOrdered l) (hx : x ∈ l)
    (ht : x.lastAccess = e.lastAccess) : insertAccess e l = l := by
  induction l with
  | nil => cases hx
  | cons y ys ih =>
    obtain ⟨hy, hys⟩ := List.pairwise_cons.1 hl
    rcases List.mem_cons.1 hx with rfl | hx
    · rw [insertAccess, ht, if_neg (lt_irrefl _), if_neg (lt_irrefl _)]
    · have hlt : y.lastAccess < e.lastAccess := (hy x hx).trans_eq ht
      rw [insertAccess, if_neg hlt.not_gt, if_pos hlt, ih hys hx]

/-- An entry is inserted in front of the first later one. -/
theorem timeOrdered_insertAccess (hl : TimeOrdered l) : TimeOrdered (insertAccess e l) := by
  induction l with
  | nil => exact List.pairwise_singleton _ _
  | cons y ys ih =>
    obtain ⟨hy, hys⟩ := List.pairwise_cons.1 hl
    rw [insertAccess]
    split
    · next hlt =>
      refine List.pairwise_cons.2 ⟨fun z hz => ?_, hl⟩
      rcases List.mem_cons.1 hz with rfl | hz
      · exact hlt
      · exact hlt.trans (hy z hz)
    · split
      · next hlt =>
        refine List.pairwise_cons.2 ⟨fun z hz => ?_, ih hys⟩
        rcases mem_insertAccess hz with rfl | hz
        · exact hlt
        · exact hy z hz
      · exact hl

theorem sublist_insertAccess (e : AccessEntry) (l : List AccessEntry) :
    l.Sublist (insertAccess e l) := by
  induction l with
  | nil => exact List.nil_sublist _
  | cons y ys ih =>
    rw [insertAccess]
    split
    · exact List.sublist_cons_self _ _
    · split
      · exact ih.cons_cons y
      · exact .refl _

/-- An insertion accounts for at most the bytes of its entry. -/
theorem accessBytes_insertAccess_le (hl : TimeOrdered l) :
    accessBytes (insertAccess e l) ≤ accessBytes l + e.size := by
  by_cases hfree : TimeFree e.lastAccess l
  · rw [accessBytes_perm (perm_insertAccess hfree), accessBytes_cons, Nat.add_comm]
  · obtain ⟨x, hx, ht⟩ : ∃ x ∈ l, x.lastAccess = e.lastAccess := by
      simpa [TimeFree] using hfree
    rw [insertAccess_of_taken hl hx ht]
    exact Nat.le_add_right _ _

/-- An insertion leaves the entries of other chunks. -/
theorem entriesOf_insertAccess_of_ne (h : e.id ≠ id) (l : List AccessEntry) :
    entriesOf id (insertAccess e l) = entriesOf id l := by
  induction l with
  | nil => simp [entriesOf, insertAccess, h]
  | cons y ys ih =>
    simp only [entriesOf] at ih ⊢
    rw [insertAccess]
    split
    · simp [h]
    · split
      · rw [List.filter_cons, List.filter_cons, ih]
      · rfl

/-- Erasing the first entry of a chunk takes its bytes off. -/
theorem accessBytes_eraseP (id : ChunkId) (l : List AccessEntry) :
    accessBytes (l.eraseP fun e => e.id = id) +
      ((l.find? fun e => e.id = id).map AccessEntry.size).getD 0 = accessBytes l := by
  induction l with
  | nil => rfl
  | cons y ys ih =>
    by_cases hy : y.id = id
    · simp only [hy, decide_true, List.eraseP_cons_of_pos, List.find?_cons_of_pos, Option.map_some,
        Option.getD_some, accessBytes_cons]
      exact Nat.add_comm _ _
    · simp only [hy, decide_false, Bool.false_eq_true, not_false_eq_true,
        List.eraseP_cons_of_neg, List.find?_cons_of_neg, accessBytes_cons]
      rw [Nat.add_assoc, ih]

/-- Erasing the first entry of a chunk leaves the entries of the others. -/
theorem entriesOf_eraseP_of_ne {id' : ChunkId} (h : id' ≠ id) (l : List AccessEntry) :
    entriesOf id' (l.eraseP fun e => e.id = id) = entriesOf id' l := by
  induction l with
  | nil => rfl
  | cons y ys ih =>
    by_cases hy : y.id = id
    · have hne : y.id ≠ id' := fun he => h (he.symm.trans hy)
      simp [entriesOf, hy, h.symm]
    · simp only [entriesOf] at ih
      simp only [entriesOf, hy, decide_false, Bool.false_eq_true, not_false_eq_true,
        List.eraseP_cons_of_neg, List.filter_cons, ih]

/-- Erasing the first entry of a chunk leaves its others. -/
theorem entriesOf_eraseP (id : ChunkId) (l : List AccessEntry) :
    entriesOf id (l.eraseP fun e => e.id = id) = (entriesOf id l).tail := by
  induction l with
  | nil => rfl
  | cons y ys ih =>
    by_cases hy : y.id = id
    · simp [entriesOf, hy]
    · simp only [entriesOf] at ih
      simp [entriesOf, hy, ih]

end

/-! ## What a `put` enters -/

/-- The access entries that the store loop of `put` makes, from chunk `i` on: one for every write
that reports success, up to the first that does not. -/
def chunkEntries (H : ByteBuffer → Hash128) (env : WriteEnv) : Nat → List Chunk → List AccessEntry
  | _, [] => []
  | i, chunk :: rest =>
    if (env.write i).status.isOk then
      ⟨chunk.id H, env.tick i, chunk.size⟩ :: chunkEntries H env (i + 1) rest
    else []

namespace DiskCache

variable {H : ByteBuffer → Hash128} {d : DiskCache} {I : DiskCache → Prop} {rest : List AccessEntry}

/-- The access entries a call makes. -/
def Call.entries (H : ByteBuffer → Hash128) : Call → List AccessEntry
  | .put env p =>
    if maxKeySize < p.key.size then [] else chunkEntries H env 0 (splitValue p.value.bytes)
  | .putChunk now outcome (some chunk) =>
    if outcome.status.isOk then [⟨chunk.id H, now, chunk.size⟩] else []
  | _ => []

/-- The state `put_chunk` leaves: the file as the write left it and, if the write reported success,
the chunk in the index. -/
def writeChunk (H : ByteBuffer → Hash128) (now : TimePoint) (outcome : WriteOutcome) (c : Chunk)
    (d : DiskCache) : DiskCache :=
  let path := chunkPath d.config (c.id H)
  let written : DiskCache :=
    { d with files := Function.update d.files path (outcome.file c.data (d.files path)) }
  if outcome.status.isOk then indexChunk (c.id H) now c.size written else written

theorem run_putChunk_some (now : TimePoint) (outcome : WriteOutcome) (c : Chunk) (d : DiskCache) :
    (putChunk H now outcome (some c)).run d = (outcome.status, writeChunk H now outcome c d) := by
  rw [putChunk, writeChunk, Prog.run_bind, Prog.run_atomic, Prog.run_ite]
  split <;> rfl

/-- The store loop of `put`. -/
abbrev store (H : ByteBuffer → Hash128) (env : WriteEnv) : Nat → List Chunk →
    Prog DiskCache Status :=
  storeChunks fun i c => putChunk H (env.tick i) (env.write i) (some c)

/-- A write that reports success goes on to the next chunk, one that does not ends the loop. -/
theorem run_store_cons (env : WriteEnv) (i : Nat) (c : Chunk) (rest : List Chunk) (d : DiskCache) :
    (store H env i (c :: rest)).run d =
      if (env.write i).status.isOk then
        (store H env (i + 1) rest).run (writeChunk H (env.tick i) (env.write i) c d)
      else ((env.write i).status, writeChunk H (env.tick i) (env.write i) c d) := by
  rw [store, storeChunks, Prog.run_bind, run_putChunk_some, Prog.run_ite]
  rfl

/-- The store loop enters exactly these. -/
theorem index_store (env : WriteEnv) (i : Nat) (chunks : List Chunk) (d : DiskCache) :
    let r := ((store H env i chunks).run d).2
    r.accessOrder = (chunkEntries H env i chunks).foldl
      (fun l e => insertAccess e l) d.accessOrder ∧
      r.currentSize = d.currentSize + accessBytes (chunkEntries H env i chunks) ∧
      r.config = d.config := by
  induction chunks generalizing d i with
  | nil => exact ⟨rfl, rfl, rfl⟩
  | cons c rest ih =>
    rw [run_store_cons, chunkEntries]
    obtain ⟨horder, hsize, hconfig⟩ := ih (i + 1) (writeChunk H (env.tick i) (env.write i) c d)
    cases hok : (env.write i).status.isOk with
    | true =>
      simp only [writeChunk, hok, if_true] at horder hsize hconfig ⊢
      rw [List.foldl_cons, accessBytes_cons, ← Nat.add_assoc]
      exact ⟨horder, hsize, hconfig⟩
    | false =>
      simp only [writeChunk, hok, Bool.false_eq_true, if_false]
      exact ⟨rfl, rfl, trivial⟩

/-! ## What an eviction drops -/

/-- The state after a round of `evict` that drops the oldest entry `e`. -/
def dropOldest (e : AccessEntry) (rest : List AccessEntry) (d : DiskCache) : DiskCache :=
  { d with
    files := Function.update d.files (chunkPath d.config e.id) none
    accessOrder := rest
    chunkPaths := Function.update d.chunkPaths e.id none
    currentSize := d.currentSize - e.size }

/-- The loop of `evict` drops oldest entries until it has evicted enough or none is left. -/
theorem run_evictLoop_succ (bytesNeeded fuel evicted : Nat) (d : DiskCache) :
    (evictLoop bytesNeeded (fuel + 1) evicted).run d =
      if evictTarget d.config < d.currentSize ∨ evicted < bytesNeeded then
        match d.accessOrder with
        | [] => (evicted, d)
        | e :: rest => (evictLoop bytesNeeded fuel (evicted + e.size)).run (dropOldest e rest d)
      else (evicted, d) := by
  rw [evictLoop, Prog.run_bind, Prog.run_atomic]
  by_cases hround : evictTarget d.config < d.currentSize ∨ evicted < bytesNeeded
  · simp only [popOldest, if_pos hround]
    cases d.accessOrder with
    | nil => rfl
    | cons e rest => rw [Prog.run_bind]; rfl
  · simp only [popOldest, if_neg hround, Prog.run_pure]

/-- What dropping an oldest entry keeps, `evict` keeps. -/
theorem evictLoop_inv
    (hdrop : ∀ d e rest, I d → d.accessOrder = e :: rest → I (dropOldest e rest d))
    (bytesNeeded fuel evicted : Nat) (h : I d) :
    I ((evictLoop bytesNeeded fuel evicted).run d).2 := by
  induction fuel generalizing d evicted with
  | zero => exact h
  | succ fuel ih =>
    rw [run_evictLoop_succ]
    split
    · cases horder : d.accessOrder with
      | nil => exact h
      | cons e rest => exact ih _ (hdrop d e rest h horder)
    · exact h

theorem evict_inv (hdrop : ∀ d e rest, I d → d.accessOrder = e :: rest → I (dropOldest e rest d))
    (bytesNeeded : Nat) (h : I d) : I ((evict bytesNeeded).run d).2 := by
  rw [evict, Prog.run_bind]
  exact evictLoop_inv hdrop _ _ _ h

/-- The state after the space check of `put`. -/
theorem run_makeRoom (needed : Nat) (d : DiskCache) :
    ((makeRoom needed).run d).2 =
      if (d.config.maxSize : ℚ) * d.config.highWatermark < ((d.currentSize + needed : Nat) : ℚ) then
        ((evict needed).run d).2
      else d := by
  rw [makeRoom, Prog.run_bind, Prog.run_atomic, Prog.run_ite]
  simp only [decide_eq_true_eq]
  split
  · rw [Prog.run_bind]
    rfl
  · rfl

theorem makeRoom_inv (hdrop : ∀ d e rest, I d → d.accessOrder = e :: rest → I (dropOldest e rest d))
    (needed : Nat) (h : I d) : I ((makeRoom needed).run d).2 := by
  rw [run_makeRoom]
  split
  · exact evict_inv hdrop needed h
  · exact h

/-! ## What a removal drops -/

/-- The state `remove_chunk` leaves. -/
theorem run_removeChunk (id : ChunkId) (d : DiskCache) :
    ((removeChunk id).run d).2 = { unindexChunk id d with
      files := Function.update (unindexChunk id d).files (chunkPath d.config id) none } := rfl

/-- What removing a chunk and replacing the descriptors keeps, `remove` keeps. -/
theorem remove_inv (hremove : ∀ d id, I d → I ((removeChunk id).run d).2)
    (hdesc : ∀ d descs, I d → I { d with descriptors := descs }) (key : CacheKey) (h : I d) :
    I ((remove key).run d).2 := by
  have hchunks : ∀ ids d, I d → I ((removeChunks ids).run d).2 := by
    intro ids
    induction ids with
    | nil => exact fun d hd => hd
    | cons id rest ih =>
      intro d hd
      rw [removeChunks, Prog.run_bind]
      exact ih _ (hremove d id hd)
  rw [remove, Prog.run_bind]
  simp only [getDescriptor, Prog.run_atomic]
  cases d.descriptors key with
  | none => exact h
  | some desc =>
    simp only [Prog.run_bind]
    exact hdesc _ _ (hchunks desc.chunks d h)

/-- A `put` of an admissible key: the space check, the store loop and, when every write reported
success, the descriptor. -/
theorem run_put_of_le (env : WriteEnv) (p : Put) (d : DiskCache) (h : p.key.size ≤ maxKeySize) :
    (put H env p).run d =
      let r := (store H env 0 (splitValue p.value.bytes)).run ((makeRoom p.value.size).run d).2
      if r.1.isOk then
        (env.writeDescriptor.status,
          if env.writeDescriptor.status.isOk then
            { r.2 with descriptors :=
              Function.update r.2.descriptors p.key (some (p.descriptor H)) }
          else r.2)
      else r := by
  rw [put, if_neg (Nat.not_lt.2 h), Prog.run_bind, Prog.run_bind, Prog.run_ite, putDescriptor,
    Prog.run_ite]
  simp only
  split
  · split <;> rfl
  · rfl

/-- The state `put` leaves, up to the descriptors. -/
theorem run_put_eq (env : WriteEnv) (p : Put) (d : DiskCache) (h : p.key.size ≤ maxKeySize) :
    ∃ descs, ((put H env p).run d).2 =
      { ((store H env 0 (splitValue p.value.bytes)).run ((makeRoom p.value.size).run d).2).2 with
        descriptors := descs } := by
  rw [run_put_of_le env p d h]
  simp only
  split
  · dsimp only
    split
    · exact ⟨_, rfl⟩
    · exact ⟨_, rfl⟩
  · exact ⟨_, rfl⟩

/-! ## Accounting -/

/-- The total size is the sum of the sizes in the access order. -/
def Accounted (d : DiskCache) : Prop := d.currentSize = accessBytes d.accessOrder

theorem Accounted.dropOldest {e : AccessEntry} (h : d.Accounted)
    (horder : d.accessOrder = e :: rest) : (d.dropOldest e rest).Accounted := by
  have hsize : d.currentSize = e.size + accessBytes rest := by
    rw [← accessBytes_cons, ← horder]
    exact h
  show d.currentSize - e.size = accessBytes rest
  omega

theorem Accounted.unindexChunk (h : d.Accounted) (id : ChunkId) :
    (d.unindexChunk id).Accounted := by
  rw [DiskCache.unindexChunk]
  split
  · exact h
  · have herase := accessBytes_eraseP id d.accessOrder
    rw [← (show d.currentSize = _ from h)] at herase
    exact (Nat.eq_sub_of_add_eq herase).symm

/-! ## Agreement of index and files -/

/-- The recorded chunks are those whose files exist, each has exactly one access entry, with the
size of the file, and the total size is the sum of these. -/
structure Indexed (d : DiskCache) : Prop where
  paths : ∀ id, (d.chunkPaths id).isSome = (d.files (chunkPath d.config id)).isSome
  entry : ∀ id, (entriesOf id d.accessOrder).map AccessEntry.size =
    (d.files (chunkPath d.config id)).toList.map List.length
  accounted : d.Accounted

theorem indexed_init (config : DiskCacheConfig) : ({ config := config } : DiskCache).Indexed :=
  ⟨fun _ => rfl, fun _ => rfl, rfl⟩

/-- Changing the file of one chunk. -/
theorem file_update (d : DiskCache) (id id' : ChunkId) (file : Option ByteBuffer) :
    Function.update d.files (chunkPath d.config id) file (chunkPath d.config id') =
      if id' = id then file else d.files (chunkPath d.config id') := by
  split
  · next he => rw [he, Function.update_self]
  · next he => rw [Function.update_of_ne fun hp => he (chunkPath_inj hp)]

/-- A chunk that is not recorded has no file and no entry. -/
theorem Indexed.absent (h : d.Indexed) {id : ChunkId} (hid : d.chunkPaths id = none) :
    d.files (chunkPath d.config id) = none ∧ entriesOf id d.accessOrder = [] := by
  have hfile : d.files (chunkPath d.config id) = none := by
    have hpaths := h.paths id
    rw [hid] at hpaths
    exact Option.not_isSome_iff_eq_none.1 (by rw [← hpaths]; exact Bool.false_ne_true)
  have hentry := h.entry id
  rw [hfile] at hentry
  exact ⟨hfile, List.map_eq_nil_iff.1 hentry⟩

/-- A recorded chunk has exactly one entry. -/
theorem Indexed.length_entriesOf (h : d.Indexed) (id : ChunkId) :
    (entriesOf id d.accessOrder).length = if (d.chunkPaths id).isSome then 1 else 0 := by
  have hlen := congrArg List.length (h.entry id)
  rw [List.length_map, List.length_map] at hlen
  rw [hlen, h.paths id]
  cases d.files (chunkPath d.config id) <;> rfl

/-- Dropping the oldest entry drops its chunk. -/
theorem Indexed.dropOldest {e : AccessEntry} (h : d.Indexed) (horder : d.accessOrder = e :: rest) :
    (d.dropOldest e rest).Indexed := by
  refine ⟨fun id => ?_, fun id => ?_, h.accounted.dropOldest horder⟩
  · simp only [DiskCache.dropOldest, file_update, Function.update_apply d.chunkPaths]
    split
    · rfl
    · exact h.paths id
  · have hentry := h.entry id
    have hlen := h.length_entriesOf id
    simp only [DiskCache.dropOldest, file_update]
    rw [horder, entriesOf, List.filter_cons] at hentry hlen
    split
    · next he =>
      simp only [he, decide_true, if_true, List.length_cons] at hlen
      have hnil : entriesOf e.id rest = [] := by
        refine List.length_eq_zero_iff.1 ?_
        rw [entriesOf]
        split at hlen <;> omega
      rw [he, hnil]
      rfl
    · next he =>
      rw [if_neg (by simpa using fun hid => he hid.symm)] at hentry
      exact hentry

/-- Removing a chunk. -/
theorem Indexed.removeChunk (h : d.Indexed) (id : ChunkId) :
    ((removeChunk id).run d).2.Indexed := by
  rw [run_removeChunk]
  have hsize := h.accounted.unindexChunk id
  cases hid : d.chunkPaths id with
  | none =>
    -- nothing is recorded and no file is there to delete
    have hun : unindexChunk id d = d := by rw [unindexChunk, hid]
    have hfile : Function.update d.files (chunkPath d.config id) none = d.files :=
      Function.update_eq_self_iff.2 (h.absent hid).1.symm
    rw [hun, hfile]
    exact h
  | some path =>
    have hun : unindexChunk id d = { d with
        currentSize := d.currentSize -
          ((d.accessOrder.find? fun e => e.id = id).map AccessEntry.size).getD 0
        accessOrder := d.accessOrder.eraseP fun e => e.id = id
        chunkPaths := Function.update d.chunkPaths id none } := by rw [unindexChunk, hid]
    rw [hun] at hsize ⊢
    refine ⟨fun x => ?_, fun x => ?_, hsize⟩
    · simp only [file_update, Function.update_apply d.chunkPaths]
      split
      · rfl
      · exact h.paths x
    · simp only [file_update]
      split
      · next he =>
        have hlen := h.length_entriesOf id
        rw [hid, Option.isSome_some, if_pos rfl] at hlen
        rw [he, entriesOf_eraseP]
        obtain ⟨e, hentries⟩ := List.length_eq_one_iff.1 hlen
        rw [hentries]
        rfl
      · next he =>
        rw [entriesOf_eraseP_of_ne he]
        exact h.entry x

/-! ## Writing chunks -/

/-- The entry is of a chunk not recorded yet and carries a time of its own. -/
def EntryNew (e : AccessEntry) (d : DiskCache) : Prop :=
  d.chunkPaths e.id = none ∧ TimeFree e.lastAccess d.accessOrder

/-- The entries are of different chunks, none recorded yet, and carry different times, none that of
an entry present. -/
def EntriesNew (es : List AccessEntry) (d : DiskCache) : Prop :=
  es.Pairwise (fun x y => x.id ≠ y.id ∧ x.lastAccess ≠ y.lastAccess) ∧ ∀ e ∈ es, EntryNew e d

instance (e : AccessEntry) (d : DiskCache) : Decidable (EntryNew e d) :=
  inferInstanceAs (Decidable (_ = none ∧ ∀ x ∈ d.accessOrder, x.lastAccess ≠ e.lastAccess))

instance (es : List AccessEntry) (d : DiskCache) : Decidable (EntriesNew es d) :=
  inferInstanceAs (Decidable (_ ∧ _))

/-- A chunk has two entries, or bytes were counted that no entry accounts for. -/
def Miscounted (d : DiskCache) : Prop :=
  (∃ id, 1 < (entriesOf id d.accessOrder).length) ∨ accessBytes d.accessOrder < d.currentSize

theorem Miscounted.not_indexed (h : d.Miscounted) : ¬ d.Indexed := by
  intro hd
  rcases h with ⟨id, hid⟩ | hsize
  · rw [hd.length_entriesOf id] at hid
    split at hid <;> omega
  · exact Nat.ne_of_gt hsize hd.accounted

section
variable {now : TimePoint} {c : Chunk}

/-- A complete write changes the file of the chunk and indexes it. -/
theorem writeChunk_done (now : TimePoint) (c : Chunk) (d : DiskCache) :
    writeChunk H now .done c d = indexChunk (c.id H) now c.size { d with
      files := Function.update d.files (chunkPath d.config (c.id H)) (some c.data) } := rfl

/-- A write never makes a miscount good. -/
theorem miscounted_writeChunk (hd : TimeOrdered d.accessOrder) (h : d.Miscounted) :
    (writeChunk H now .done c d).Miscounted := by
  rcases h with ⟨id, hid⟩ | hsize
  · have hsub := sublist_insertAccess ⟨c.id H, now, c.size⟩ d.accessOrder
    exact .inl ⟨id, hid.trans_le (hsub.filter _).length_le⟩
  · have hle := accessBytes_insertAccess_le (e := ⟨c.id H, now, c.size⟩) hd
    right
    show accessBytes (insertAccess ⟨c.id H, now, c.size⟩ d.accessOrder) < d.currentSize + c.size
    simp only at hle
    omega

/-- Writing a new chunk keeps index and files in agreement. -/
theorem indexed_writeChunk (h : d.Indexed) (hnew : EntryNew ⟨c.id H, now, c.size⟩ d) :
    (writeChunk H now .done c d).Indexed := by
  have hperm := perm_insertAccess hnew.2
  rw [writeChunk_done]
  refine ⟨fun id => ?_, fun id => ?_, ?_⟩
  · simp only [indexChunk, file_update, Function.update_apply d.chunkPaths]
    split
    · rfl
    · exact h.paths id
  · simp only [indexChunk, file_update]
    split
    · next he =>
      have hentries := (hperm.filter fun e => e.id = id).map AccessEntry.size
      have hnil := (h.absent hnew.1).2
      simp only [entriesOf] at hnil
      simp only [he, decide_true, List.filter_cons_of_pos, hnil, List.map_cons,
        List.map_nil] at hentries
      rw [he]
      exact List.perm_singleton.1 hentries
    · next he =>
      rw [entriesOf_insertAccess_of_ne fun hid => he hid.symm]
      exact h.entry id
  · show d.currentSize + c.size = accessBytes (insertAccess ⟨c.id H, now, c.size⟩ d.accessOrder)
    rw [accessBytes_perm hperm, accessBytes_cons, Nat.add_comm, h.accounted]

/-- Writing a chunk that is recorded, or at a time that is taken, is a miscount. -/
theorem miscounted_of_not_new (h : d.Indexed) (hd : TimeOrdered d.accessOrder)
    (hc : c.data ≠ []) (hold : ¬ EntryNew ⟨c.id H, now, c.size⟩ d) :
    (writeChunk H now .done c d).Miscounted := by
  by_cases hfree : TimeFree now d.accessOrder
  · -- the chunk is recorded and gets a second entry
    left
    refine ⟨c.id H, ?_⟩
    have hrec : d.chunkPaths (c.id H) ≠ none := fun hid => hold ⟨hid, hfree⟩
    have hlen := h.length_entriesOf (c.id H)
    rw [if_pos (Option.isSome_iff_ne_none.2 hrec)] at hlen
    have hperm := (perm_insertAccess (e := ⟨c.id H, now, c.size⟩) hfree).filter
      fun e => e.id = c.id H
    have hlen' := hperm.length_eq
    rw [List.filter_cons_of_pos (by simp), List.length_cons] at hlen'
    show 1 < (List.filter _ _).length
    rw [writeChunk_done]
    simp only [entriesOf] at hlen
    simp only [indexChunk]
    omega
  · -- the entry is dropped, its bytes are counted
    obtain ⟨x, hx, ht⟩ : ∃ x ∈ d.accessOrder, x.lastAccess = now := by simpa [TimeFree] using hfree
    have hsame : insertAccess ⟨c.id H, now, c.size⟩ d.accessOrder = d.accessOrder :=
      insertAccess_of_taken hd hx ht
    have hpos : 0 < c.size := List.length_pos_iff.2 hc
    have hacc : d.currentSize = accessBytes d.accessOrder := h.accounted
    right
    show accessBytes (insertAccess ⟨c.id H, now, c.size⟩ d.accessOrder) < d.currentSize + c.size
    rw [hsame]
    omega

/-- The first of several entries leaves the others new exactly when it differs from them. -/
theorem entriesNew_cons (e : AccessEntry) (es : List AccessEntry) {d' : DiskCache}
    (hpaths : d'.chunkPaths = Function.update d.chunkPaths e.id (some (chunkPath d.config e.id)))
    (horder : d'.accessOrder.Perm (e :: d.accessOrder)) (he : EntryNew e d) :
    EntriesNew (e :: es) d ↔ EntriesNew es d' := by
  have hnew : ∀ x, EntryNew x d' ↔ (e.id ≠ x.id ∧ e.lastAccess ≠ x.lastAccess) ∧ EntryNew x d := by
    intro x
    simp only [EntryNew, TimeFree, hpaths, Function.update_apply, horder.mem_iff, List.mem_cons,
      forall_eq_or_imp]
    by_cases hid : x.id = e.id
    · simp [hid]
    · simp only [hid, if_false]
      constructor
      · rintro ⟨hx, ht, hfree⟩
        exact ⟨⟨fun h => hid h.symm, ht⟩, hx, hfree⟩
      · rintro ⟨⟨-, ht⟩, hx, hfree⟩
        exact ⟨hx, ht, hfree⟩
  rw [EntriesNew, EntriesNew, List.pairwise_cons]
  constructor
  · rintro ⟨⟨hdiff, hpair⟩, hall⟩
    exact ⟨hpair, fun x hx => (hnew x).2 ⟨hdiff x hx, hall x (List.mem_cons_of_mem _ hx)⟩⟩
  · rintro ⟨hpair, hall⟩
    refine ⟨⟨fun x hx => ((hnew x).1 (hall x hx)).1, hpair⟩, fun x hx => ?_⟩
    rcases List.mem_cons.1 hx with rfl | hx
    · exact he
    · exact ((hnew x).1 (hall x hx)).2

end

/-- A miscount lasts through the store loop. -/
theorem Miscounted.store {env : WriteEnv} (henv : env.Clean) (i : Nat) (chunks : List Chunk)
    (hd : TimeOrdered d.accessOrder) (h : d.Miscounted) :
    ((store H env i chunks).run d).2.Miscounted := by
  induction chunks generalizing d i with
  | nil => exact h
  | cons c rest ih =>
    rw [run_store_cons, henv.1 i]
    exact ih _ (timeOrdered_insertAccess hd) (miscounted_writeChunk hd h)

/-- The store loop without write failure keeps index and files in agreement exactly when every entry
it makes is new. -/
theorem indexed_store_iff {env : WriteEnv} (henv : env.Clean) (i : Nat) {chunks : List Chunk}
    (hne : ∀ c ∈ chunks, c.data ≠ []) (hd : TimeOrdered d.accessOrder) (h : d.Indexed) :
    ((store H env i chunks).run d).2.Indexed ↔ EntriesNew (chunkEntries H env i chunks) d := by
  induction chunks generalizing d i with
  | nil =>
    refine ⟨fun _ => ⟨List.Pairwise.nil, fun e he => ?_⟩, fun _ => h⟩
    cases he
  | cons c rest ih =>
    have hok : (env.write i).status.isOk = true := by rw [henv.1 i]; rfl
    have hord : TimeOrdered (writeChunk H (env.tick i) (env.write i) c d).accessOrder := by
      rw [henv.1 i]
      exact timeOrdered_insertAccess hd
    rw [run_store_cons, chunkEntries, if_pos hok, if_pos hok]
    by_cases hnew : EntryNew ⟨c.id H, env.tick i, c.size⟩ d
    · rw [ih _ (fun x hx => hne x (List.mem_cons_of_mem _ hx)) hord
        (by rw [henv.1 i]; exact indexed_writeChunk h hnew), henv.1 i]
      exact (entriesNew_cons ⟨c.id H, env.tick i, c.size⟩ _ rfl
        (perm_insertAccess hnew.2) hnew).symm
    · have hmis : (writeChunk H (env.tick i) (env.write i) c d).Miscounted := by
        rw [henv.1 i]
        exact miscounted_of_not_new h hd (hne c List.mem_cons_self) hnew
      constructor
      · exact fun hidx => absurd hidx (hmis.store henv _ _ hord).not_indexed
      · exact fun hall => absurd (hall.2 _ List.mem_cons_self) hnew

/-! ## Runs -/

/-- The calls that change chunks: `put`, `remove`, `remove_chunk` and `evict`. -/
def Call.Changes : Call → Prop
  | .put _ _ | .remove _ | .removeChunk _ | .evict _ => True
  | .get _ _ _ | .putChunk _ _ _ => False

/-- Every chunk a `put` writes is one that is not recorded after the space check and not repeated in
the value, and the clock shows a different time at each, none that of an entry present. -/
def WritesNew (H : ByteBuffer → Hash128) (call : Call) (d : DiskCache) : Prop :=
  match call with
  | .put _ p => EntriesNew (call.entries H) ((makeRoom p.value.size).run d).2
  | _ => True

theorem timeOrdered_dropOldest (d : DiskCache) (e : AccessEntry) (rest : List AccessEntry)
    (h : TimeOrdered d.accessOrder) (horder : d.accessOrder = e :: rest) :
    TimeOrdered (dropOldest e rest d).accessOrder := by
  rw [horder] at h
  exact (List.pairwise_cons.1 h).2

/-- The access order stays ordered by time. -/
theorem timeOrdered_exec (call : Call) (h : TimeOrdered d.accessOrder) :
    TimeOrdered (exec H call d).accessOrder := by
  have hremove : ∀ (d : DiskCache) (id : ChunkId), TimeOrdered d.accessOrder →
      TimeOrdered ((removeChunk id).run d).2.accessOrder := by
    intro d id hd
    rw [run_removeChunk, unindexChunk]
    split
    · exact hd
    · exact hd.sublist List.eraseP_sublist
  cases call with
  | put env p =>
    rcases Nat.lt_or_ge maxKeySize p.key.size with hlt | hle
    · rwa [exec, (run_put_rejected hlt).2]
    · obtain ⟨descs, hput⟩ := run_put_eq (H := H) env p d hle
      rw [exec, hput]
      rw [(index_store env 0 _ _).1]
      refine List.foldlRecOn _ _ (makeRoom_inv timeOrdered_dropOldest _ h) fun l hl e _ => ?_
      exact timeOrdered_insertAccess hl
  | get now key opts =>
    exact (observes_get (fun d => TimeOrdered d.accessOrder) now key opts d h).2.2
  | remove key => exact remove_inv hremove (fun _ _ hd => hd) key h
  | putChunk now outcome chunk =>
    cases chunk with
    | none => exact h
    | some c =>
      rw [exec, run_putChunk_some, writeChunk]
      dsimp only
      split
      · exact timeOrdered_insertAccess h
      · exact h
  | removeChunk id => exact hremove d id h
  | evict bytesNeeded => exact evict_inv timeOrdered_dropOldest bytesNeeded h

/-- Whether index and files agree does not depend on the descriptors. -/
theorem indexed_descriptors (d : DiskCache) (descs : CacheKey → Option ValueDescriptor) :
    ({ d with descriptors := descs } : DiskCache).Indexed ↔ d.Indexed :=
  ⟨fun h => ⟨h.paths, h.entry, h.accounted⟩, fun h => ⟨h.paths, h.entry, h.accounted⟩⟩

/-- A call without write failure keeps index and files in agreement exactly when what it writes is
new. -/
theorem indexed_exec_iff {call : Call} (hcall : call.Changes) (hclean : call.Clean)
    (hd : TimeOrdered d.accessOrder) (h : d.Indexed) :
    (exec H call d).Indexed ↔ WritesNew H call d := by
  have hdrop : ∀ (d : DiskCache) (e : AccessEntry) (rest : List AccessEntry),
      d.Indexed → d.accessOrder = e :: rest → (dropOldest e rest d).Indexed :=
    fun _ _ _ hd horder => hd.dropOldest horder
  cases call with
  | put env p =>
    rw [WritesNew, Call.entries]
    rcases Nat.lt_or_ge maxKeySize p.key.size with hlt | hle
    · rw [exec, (run_put_rejected hlt).2, if_pos hlt]
      refine ⟨fun _ => ⟨List.Pairwise.nil, fun e he => ?_⟩, fun _ => h⟩
      cases he
    · obtain ⟨descs, hput⟩ := run_put_eq (H := H) env p d hle
      rw [exec, hput, if_neg (Nat.not_lt.2 hle), indexed_descriptors]
      exact indexed_store_iff hclean 0 (fun c hc => data_ne_nil_of_mem_splitValue hc)
        (makeRoom_inv timeOrdered_dropOldest p.value.size hd) (makeRoom_inv hdrop p.value.size h)
  | remove key =>
    refine ⟨fun _ => trivial, fun _ => ?_⟩
    exact remove_inv (fun d id hd => hd.removeChunk id)
      (fun d descs hd => (indexed_descriptors d descs).2 hd) key h
  | removeChunk id => exact ⟨fun _ => trivial, fun _ => h.removeChunk id⟩
  | evict bytesNeeded => exact ⟨fun _ => trivial, fun _ => evict_inv hdrop bytesNeeded h⟩
  | get now key opts => exact hcall.elim
  | putChunk now outcome chunk => exact hcall.elim

/-- Along every run without write failures from an empty store, index and files agree in every state
if and only if every chunk written is new. -/
theorem indexed_iff (H : ByteBuffer → Hash128) (config : DiskCacheConfig) (calls : List Call)
    (hcalls : ∀ c ∈ calls, c.Changes) (hclean : ∀ c ∈ calls, c.Clean) :
    EveryState (exec H) Indexed calls { config := config } ↔
      EveryStep (exec H) (WritesNew H) calls { config := config } :=
  everyState_iff_everyStep (I := fun d : DiskCache => TimeOrdered d.accessOrder)
    (fun c _ _ hd => timeOrdered_exec c hd)
    (fun c hc _ hd h => indexed_exec_iff (hcalls c hc) (hclean c hc) hd h) List.Pairwise.nil
    (indexed_init config)

/-- A put of a one-byte value under a one-byte key at a reading of the steady clock. -/
def putByte (tick : TimePoint) (key byte : UInt8) : Call :=
  .put { tick := fun _ => tick } ⟨0, ⟨[key]⟩, ⟨[byte], by simp⟩, {}⟩

theorem putByte_clean (tick : TimePoint) (key byte : UInt8) : (putByte tick key byte).Clean :=
  ⟨fun _ => rfl, rfl⟩

/-- Two values put one after the other and the first one removed: index and files agree all
along. -/
theorem indexed_iff_twoValues :
    EveryState (exec sampleHash) Indexed [putByte 0 1 7, putByte 1 2 8, .remove ⟨[1]⟩]
      { config := {} } := by
  refine (indexed_iff sampleHash {} _ ?_ ?_).2 ⟨?_, ?_, trivial, trivial⟩
  · simp [putByte, Call.Changes]
  · intro c hc
    simp only [List.mem_cons, List.not_mem_nil, or_false] at hc
    rcases hc with rfl | rfl | rfl
    · exact putByte_clean _ _ _
    · exact putByte_clean _ _ _
    · trivial
  · show EntriesNew _ _
    decide +kernel
  · show EntriesNew _ _
    decide +kernel

/-- The same value put twice, one tick apart, has two access entries and is counted twice; of two
values put at one tick, the second has no entry though its byte is counted. -/
theorem not_indexed_rewritten :
    (∀ c ∈ [putByte 0 1 7, putByte 1 1 7, putByte 0 2 8], c.Changes ∧ c.Clean) ∧
      ¬ EveryState (exec sampleHash) Indexed [putByte 0 1 7, putByte 1 1 7] { config := {} } ∧
      ¬ EveryState (exec sampleHash) Indexed [putByte 0 1 7, putByte 0 2 8] { config := {} } := by
  refine ⟨?_, fun h => ?_, fun h => ?_⟩
  · intro c hc
    simp only [List.mem_cons, List.not_mem_nil, or_false] at hc
    rcases hc with rfl | rfl | rfl <;> exact ⟨trivial, putByte_clean _ _ _⟩
  · have hlen := h.last.length_entriesOf ⟨sampleHash [7]⟩
    revert hlen
    decide +kernel
  · have hsize := h.last.accounted
    revert hsize
    unfold Accounted
    decide +kernel

end DiskCache

end ElCache
