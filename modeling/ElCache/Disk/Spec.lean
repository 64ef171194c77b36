import ElCache.Disk.Cache

/-!
# What the disk level does

Two chunk ids never share a file (`chunkPath_inj`), so a write or a deletion changes what the level
holds at one id only (`view_setFile`). From this, for each operation with no write failure: `get`
reads the view and leaves it alone, `put` replaces one descriptor and holds every chunk of its value
afterwards (`run_put`), `remove` drops one descriptor and the chunks it names, and eviction only
drops chunks. Hence what the level holds stays consistent along every run (`inv_after`).
-/

namespace ElCache

open Slice Digits

/-! ## Paths determine ids -/

/-- The value of a hexadecimal digit. -/
def hexVal (c : Char) : Nat := if c.toNat < 58 then c.toNat - 48 else c.toNat - 87

theorem hexVal_hexChar {d : Nat} (h : d < 16) : hexVal (hexChar d) = d := by
  have key : ∀ d : Fin 16, hexVal (hexChar d) = d := by decide
  exact key ⟨d, h⟩

theorem hexWord_inj {x y : UInt64} (h : hexWord x = hexWord y) : x = y := by
  have hback : ∀ z : UInt64, (hexWord z).map hexVal = (digits 16 16 z.toNat).reverse := by
    intro z
    rw [hexWord, List.map_map]
    conv_rhs => rw [← List.map_id (digits 16 16 z.toNat).reverse]
    refine List.map_congr_left fun d hd => hexVal_hexChar ?_
    exact lt_of_mem_digits (by decide) (List.mem_reverse.1 hd)
  have hdigits : digits 16 16 x.toNat = digits 16 16 y.toNat := by
    rw [← List.reverse_inj, ← hback, ← hback, h]
  have hlt : ∀ z : UInt64, z.toNat < 16 ^ 16 := fun z => lt_of_lt_of_eq z.toNat_lt (by decide)
  exact UInt64.toNat_inj.1 (digits_inj (hlt x) (hlt y) hdigits)

theorem Hash128.toHex_inj {a b : Hash128} (h : a.toHex = b.toHex) : a = b := by
  have hlen : (hexWord a.high).length = (hexWord b.high).length := by simp [hexWord]
  obtain ⟨hhigh, hlow⟩ := List.append_inj h hlen
  cases a
  cases b
  cases hexWord_inj hhigh
  cases hexWord_inj hlow
  rfl

/-- Different chunks have different files. -/
theorem chunkPath_inj {config : DiskCacheConfig} {a b : ChunkId}
    (h : chunkPath config a = chunkPath config b) : a = b := by
  have htail := List.append_cancel_left h
  simp only [List.cons.injEq, and_true, true_and] at htail
  have hhex : a.hash = b.hash := Hash128.toHex_inj (List.append_cancel_right htail.2)
  cases a
  cases b
  cases hhex
  rfl

namespace DiskCache

variable {env : WriteEnv}

/-- What the level holds. -/
def view (d : DiskCache) : LevelView :=
  ⟨d.descriptors, fun id => fileChunk (d.files (chunkPath d.config id))⟩

variable {H : ByteBuffer → Hash128} {K : Set ByteBuffer} {P : Set Put} {d : DiskCache}

/-- Changing one chunk's file changes what is held at its id only. -/
theorem view_setFile (d : DiskCache) (id : ChunkId) (file : Option ByteBuffer) :
    ({ d with files := Function.update d.files (chunkPath d.config id) file } : DiskCache).view =
      ⟨d.descriptors, Function.update d.view.chunk id (fileChunk file)⟩ := by
  refine congrArg _ (funext fun x => ?_)
  show fileChunk (Function.update d.files (chunkPath d.config id) file (chunkPath d.config x)) = _
  by_cases hx : x = id
  · subst hx
    rw [Function.update_self, Function.update_self]
  · rw [Function.update_of_ne hx, Function.update_of_ne fun he => hx (chunkPath_inj he)]
    rfl

/-- The index is not what chunks are read from. -/
theorem view_unindexChunk (id : ChunkId) (d : DiskCache) : (unindexChunk id d).view = d.view := by
  rw [unindexChunk]
  split <;> rfl

theorem config_unindexChunk (id : ChunkId) (d : DiskCache) :
    (unindexChunk id d).config = d.config := by
  rw [unindexChunk]
  split <;> rfl

/-- Removing a chunk removes it from the view. -/
theorem view_removeChunk (id : ChunkId) (d : DiskCache) :
    ((removeChunk id).run d).2.view = ⟨d.descriptors, Function.update d.view.chunk id none⟩ := by
  have hview := view_unindexChunk id d
  have hdesc : (unindexChunk id d).descriptors = d.descriptors :=
    congrArg LevelView.descriptor hview
  show ({ unindexChunk id d with
    files := Function.update (unindexChunk id d).files (chunkPath d.config id) none } :
      DiskCache).view = _
  rw [← config_unindexChunk id d, view_setFile, hview, hdesc]
  rfl

/-- A complete write of a chunk. -/
theorem run_putChunk (now : TimePoint) (c : Chunk) (d : DiskCache) :
    ((putChunk H now .done (some c)).run d).1 = .makeOk ∧
      ((putChunk H now .done (some c)).run d).2.view =
        ⟨d.descriptors, Function.update d.view.chunk (c.id H) (fileChunk (some c.data))⟩ :=
  ⟨rfl, view_setFile d (c.id H) (some c.data)⟩

/-! ## Shrinking -/

/-- A level that has lost chunks and nothing else. -/
structure Shrinks (w w' : LevelView) : Prop where
  descriptor : w'.descriptor = w.descriptor
  chunk : ∀ id x, w'.chunk id = some x → w.chunk id = some x

theorem Shrinks.refl (w : LevelView) : Shrinks w w := ⟨rfl, fun _ _ h => h⟩

theorem Shrinks.trans {w w' w'' : LevelView} (h : Shrinks w w') (h' : Shrinks w' w'') :
    Shrinks w w'' :=
  ⟨h'.descriptor.trans h.descriptor, fun id x hx => h.chunk id x (h'.chunk id x hx)⟩

theorem shrinks_update_none (w : LevelView) (id : ChunkId) :
    Shrinks w ⟨w.descriptor, Function.update w.chunk id none⟩ := by
  refine ⟨rfl, fun x c hx => ?_⟩
  by_cases he : x = id
  · subst he
    simp only [Function.update_self] at hx
    cases hx
  · simpa only [Function.update_of_ne he] using hx

theorem Shrinks.consistent {w w' : LevelView} (h : Shrinks w w') (hw : w.Consistent H K P) :
    w'.Consistent H K P :=
  ⟨fun id c hc => hw.chunk id c (h.chunk id c hc), by rw [h.descriptor]; exact hw.descriptor⟩

/-- A round of `evict` ends the loop or takes the oldest access entry off the index, which leaves
the view alone. -/
theorem popOldest_cases (bytesNeeded evicted : Nat) (d : DiskCache) :
    popOldest bytesNeeded evicted d = (none, d) ∨
      ∃ e d', popOldest bytesNeeded evicted d = (some (e, chunkPath d'.config e.id), d') ∧
        d'.view = d.view := by
  rw [popOldest]
  split
  · split
    · exact .inl rfl
    · next e rest _ =>
      refine .inr ⟨e, { d with
        accessOrder := rest
        chunkPaths := Function.update d.chunkPaths e.id none
        currentSize := d.currentSize - e.size }, rfl, rfl⟩
  · exact .inl rfl

/-- Eviction only drops chunks. -/
theorem shrinks_evictLoop (bytesNeeded fuel evicted : Nat) (d : DiskCache) :
    Shrinks d.view ((evictLoop bytesNeeded fuel evicted).run d).2.view := by
  induction fuel generalizing d evicted with
  | zero => exact .refl _
  | succ fuel ih =>
    rw [evictLoop, Prog.run_bind, Prog.run_atomic]
    rcases popOldest_cases bytesNeeded evicted d with hp | ⟨e, d', hp, hview⟩
    · rw [hp]
      exact .refl _
    · rw [hp, ← hview, Prog.run_bind]
      have hfile : ((deleteFile (chunkPath d'.config e.id)).run d').2.view =
          ⟨d'.view.descriptor, Function.update d'.view.chunk e.id none⟩ :=
        view_setFile d' e.id none
      have hs := shrinks_update_none d'.view e.id
      rw [← hfile] at hs
      exact hs.trans (ih _ _)

theorem shrinks_evict (bytesNeeded : Nat) (d : DiskCache) :
    Shrinks d.view ((evict bytesNeeded).run d).2.view := by
  rw [evict, Prog.run_bind]
  exact shrinks_evictLoop _ _ _ d

theorem shrinks_makeRoom (needed : Nat) (d : DiskCache) :
    Shrinks d.view ((makeRoom needed).run d).2.view := by
  rw [makeRoom, Prog.run_bind, Prog.run_atomic, Prog.run_ite]
  split
  · rw [Prog.run_bind]
    exact shrinks_evict _ d
  · exact .refl _

/-! ## put -/

/-- Storing chunks without failure: the descriptors stay, every non-empty chunk stored is held, and
nothing else comes in. -/
theorem run_storeChunks (henv : env.Clean) (i : Nat) {chunks : List Chunk}
    (hne : ∀ c ∈ chunks, c.data ≠ []) (d : DiskCache) :
    let r := (storeChunks (fun i c => putChunk H (env.tick i) (env.write i)
      (some c)) i chunks).run d
    r.1 = .makeOk ∧ r.2.descriptors = d.descriptors ∧
      (∀ id x, r.2.view.chunk id = some x →
        d.view.chunk id = some x ∨ (x ∈ chunks ∧ id = x.id H)) ∧
      ∀ id, (d.view.chunk id).isSome ∨ (∃ c ∈ chunks, id = c.id H) →
        (r.2.view.chunk id).isSome := by
  induction chunks generalizing d i with
  | nil =>
    refine ⟨rfl, rfl, fun id x hx => .inl hx, fun id hid => ?_⟩
    rcases hid with hid | ⟨c, hc, -⟩
    · exact hid
    · cases hc
  | cons c rest ih =>
    have hput := (run_putChunk (H := H) (env.tick i) c d).2
    have hc : fileChunk (some c.data) = some c := by
      have := hne c List.mem_cons_self
      simp [fileChunk, this]
    rw [hc] at hput
    obtain ⟨hok, hdesc, hsound, hheld⟩ := ih (i + 1) (fun x hx => hne x (List.mem_cons_of_mem _ hx))
      ((putChunk H (env.tick i) .done (some c)).run d).2
    have hrun : (storeChunks (fun i c => putChunk H (env.tick i) (env.write i) (some c)) i
        (c :: rest)).run d =
          (storeChunks (fun i c => putChunk H (env.tick i) (env.write i) (some c)) (i + 1) rest).run
            ((putChunk H (env.tick i) .done (some c)).run d).2 := by
      rw [storeChunks, Prog.run_bind, henv.1 i]
      rfl
    simp only [hrun]
    simp only [hput] at hsound hheld
    refine ⟨hok, hdesc, fun id x hx => ?_, fun id hid => hheld id ?_⟩
    · rcases hsound id x hx with hold | ⟨hmem, hid⟩
      · by_cases he : id = c.id H
        · subst he
          rw [Function.update_self] at hold
          cases hold
          exact .inr ⟨List.mem_cons_self, rfl⟩
        · rw [Function.update_of_ne he] at hold
          exact .inl hold
      · exact .inr ⟨List.mem_cons_of_mem _ hmem, hid⟩
    · by_cases he : id = c.id H
      · subst he
        rw [Function.update_self]
        exact .inl rfl
      · rw [Function.update_of_ne he]
        rcases hid with hid | ⟨x, hx, hid⟩
        · exact .inl hid
        · rcases List.mem_cons.1 hx with rfl | hx
          · exact absurd hid he
          · exact .inr ⟨x, hx, hid⟩

theorem data_ne_nil_of_mem_splitValue {v : ByteBuffer} {c : Chunk} (hc : c ∈ splitValue v) :
    c.data ≠ [] := by
  rw [splitValue_eq] at hc
  obtain ⟨b, hb, rfl⟩ := List.mem_map.1 hc
  obtain ⟨i, hi, rfl⟩ := mem_blocks.1 hb
  exact block_ne_nil chunkSize_pos hi

/-- A put of an oversized key changes nothing. -/
theorem run_put_rejected {p : Put} (h : maxKeySize < p.key.size) :
    ((put H env p).run d).1.isOk = false ∧ ((put H env p).run d).2 = d := by
  rw [put, if_pos h]
  exact ⟨rfl, rfl⟩

/-- A put without write failure succeeds and replaces the descriptor of its key. Every chunk of the
value is held afterwards, and no chunk held then is new except those. -/
theorem run_put (henv : env.Clean) {p : Put} (h : p.key.size ≤ maxKeySize) (d : DiskCache) :
    ((put H env p).run d).1 = .makeOk ∧
      ((put H env p).run d).2.descriptors =
        Function.update d.descriptors p.key (some (p.descriptor H)) ∧
      (∀ id x, ((put H env p).run d).2.view.chunk id = some x →
        d.view.chunk id = some x ∨ (x ∈ splitValue p.value.bytes ∧ id = x.id H)) ∧
      ∀ c ∈ splitValue p.value.bytes, (((put H env p).run d).2.view.chunk (c.id H)).isSome := by
  have hroom := shrinks_makeRoom p.value.size d
  obtain ⟨hok, hdesc, hsound, hheld⟩ := run_storeChunks (H := H) henv 0
    (fun c hc => data_ne_nil_of_mem_splitValue (v := p.value.bytes) hc)
    ((makeRoom p.value.size).run d).2
  rw [put, if_neg (Nat.not_lt.2 h), Prog.run_bind, Prog.run_bind, hok, henv.2]
  refine ⟨rfl, ?_, fun id x hx => ?_, fun c hc => hheld _ (.inr ⟨c, hc, rfl⟩)⟩
  · have hd := congrArg (Function.update · p.key (some (p.descriptor H)))
      (hdesc.trans hroom.descriptor)
    exact hd
  · exact (hsound id x hx).imp_left (hroom.chunk id x)

/-! ## get and remove -/

theorem observes_get (I : DiskCache → Prop) (now : Timestamp) (key : CacheKey)
    (opts : ReadOptions) :
    Observes I view (get now key opts) fun w => w.read assembleValue now key opts :=
  observes_readValue assembleValue (fun _ _ hd => ⟨rfl, rfl, hd⟩) (fun _ _ hd => ⟨rfl, rfl, hd⟩)
    now key opts

/-- Removing chunks removes exactly these. -/
theorem view_removeChunks (ids : List ChunkId) (d : DiskCache) :
    ((removeChunks ids).run d).2.view =
      ⟨d.descriptors, fun id => if id ∈ ids then none else d.view.chunk id⟩ := by
  induction ids generalizing d with
  | nil => rfl
  | cons x rest ih =>
    have hx := view_removeChunk x d
    have hdesc := congrArg LevelView.descriptor hx
    simp only [view] at hdesc
    rw [removeChunks, Prog.run_bind, ih, hx, hdesc]
    refine congrArg _ (funext fun id => ?_)
    by_cases he : id = x
    · subst he
      simp
    · simp [he]

/-- Removing chunks by calls. -/
theorem runOps_removeChunk (ids : List ChunkId) (d : DiskCache) :
    runOps (exec H) (ids.map .removeChunk) d = ((removeChunks ids).run d).2 := by
  induction ids generalizing d with
  | nil => rfl
  | cons id rest ih =>
    rw [List.map_cons, runOps_cons, ih, removeChunks, Prog.run_bind]
    rfl

/-- Removing an absent key changes nothing. -/
theorem run_remove_absent {key : CacheKey} (hd : d.descriptors key = none) :
    (remove key).run d = (.error .notFound, d) := by
  rw [remove, Prog.run_bind]
  simp only [getDescriptor, Prog.run_atomic, hd]
  rfl

/-- Removing a key drops its descriptor and every chunk the descriptor names. -/
theorem run_remove {key : CacheKey} {desc : ValueDescriptor} (hd : d.descriptors key = some desc) :
    ((remove key).run d).1 = .makeOk ∧ ((remove key).run d).2.view =
      ⟨Function.update d.descriptors key none,
        fun id => if id ∈ desc.chunks then none else d.view.chunk id⟩ := by
  have hchunks := view_removeChunks desc.chunks d
  have hrun : (remove key).run d = (.makeOk,
      { ((removeChunks desc.chunks).run d).2 with
        descriptors :=
          Function.update ((removeChunks desc.chunks).run d).2.descriptors key none }) := by
    rw [remove, Prog.run_bind]
    simp only [getDescriptor, Prog.run_atomic, hd, Prog.run_bind]
    rfl
  rw [hrun]
  refine ⟨rfl, ?_⟩
  have hdesc := congrArg LevelView.descriptor hchunks
  have hchunk := congrArg LevelView.chunk hchunks
  simp only [view] at hdesc hchunk
  simp only [view, hdesc, hchunk]

/-- Removing a key drops its descriptor and no other. -/
theorem descriptors_remove (d : DiskCache) (key : CacheKey) :
    ((remove key).run d).2.descriptors = Function.update d.descriptors key none := by
  cases hd : d.descriptors key with
  | none => rw [run_remove_absent hd, Function.update_eq_self_iff.2 hd.symm]
  | some desc => exact congrArg LevelView.descriptor (run_remove hd).2

/-! ## Runs -/

/-- What the level holds is consistent with the puts `P` and the chunk contents `K`. -/
def Inv (H : ByteBuffer → Hash128) (K : Set ByteBuffer) (P : Set Put) (d : DiskCache) : Prop :=
  d.view.Consistent H K P

theorem inv_init (config : DiskCacheConfig) : ({ config := config } : DiskCache).Inv H K P := by
  refine LevelView.Consistent.mk (fun id c hc => ?_) fun k d hd => ?_
  · cases hc
  · cases hd

/-- A put keeps the invariant, chunk by chunk and then the descriptor. -/
theorem Inv.put (h : d.Inv H K P) (henv : env.Clean) {p : Put} (hp : p ∈ P) (hK : p.chunks ⊆ K) :
    ((put H env p).run d).2.Inv H K P := by
  rcases Nat.lt_or_ge maxKeySize p.key.size with hlt | hle
  · rwa [(run_put_rejected hlt).2]
  · obtain ⟨-, hdesc, hsound, -⟩ := run_put (H := H) henv hle d
    refine ⟨fun id x hx => ?_, fun k desc hk => ?_⟩
    · rcases hsound id x hx with hold | ⟨hmem, hid⟩
      · exact h.chunk id x hold
      · refine ⟨hid, hK ?_⟩
        rw [splitValue_eq] at hmem
        obtain ⟨b, hb, rfl⟩ := List.mem_map.1 hmem
        exact hb
    · simp only [view, hdesc] at hk
      by_cases he : k = p.key
      · subst he
        rw [Function.update_self] at hk
        cases hk
        exact ⟨p, hp, rfl, rfl⟩
      · rw [Function.update_of_ne he] at hk
        exact h.descriptor k desc hk

/-- A removal drops a descriptor and files. -/
theorem Inv.remove (h : d.Inv H K P) (key : CacheKey) : ((remove key).run d).2.Inv H K P := by
  cases hd : d.descriptors key with
  | none => rwa [run_remove_absent hd]
  | some desc =>
    rw [Inv, (run_remove hd).2]
    refine ⟨fun id x hx => ?_, fun k e hk => ?_⟩
    · simp only at hx
      split at hx
      · cases hx
      · exact h.chunk id x hx
    · simp only at hk
      by_cases he : k = key
      · subst he
        rw [Function.update_self] at hk
        cases hk
      · rw [Function.update_of_ne he] at hk
        exact h.descriptor k e hk

/-- Every call without write failure keeps the level consistent. -/
theorem Inv.exec (h : d.Inv H K P) {call : Call} (hclean : call.Clean)
    (hP : ∀ env p, call = .put env p → p ∈ P) (hK : call.chunks ⊆ K) :
    (exec H call d).Inv H K P := by
  cases call with
  | put env p => exact h.put hclean (hP env p rfl) hK
  | get now key opts => exact (observes_get (Inv H K P) now key opts d h).2.2
  | remove key => exact h.remove key
  | putChunk now outcome chunk =>
    cases chunk with
    | none => exact h
    | some c =>
      cases (show outcome = .done from hclean)
      simp only [DiskCache.exec, Inv, (run_putChunk (H := H) now c d).2]
      refine ⟨fun id x hx => ?_, h.descriptor⟩
      simp only at hx
      by_cases he : id = c.id H
      · subst he
        rw [Function.update_self, fileChunk] at hx
        simp only [Option.getD_some] at hx
        split at hx
        · cases hx
        · cases hx
          exact ⟨rfl, hK rfl⟩
      · rw [Function.update_of_ne he] at hx
        exact h.chunk id x hx
  | removeChunk id =>
    simp only [DiskCache.exec, Inv, view_removeChunk]
    exact (shrinks_update_none d.view id).consistent h
  | evict bytesNeeded => exact (shrinks_evict bytesNeeded d).consistent h

/-- What the level holds is consistent after every run without write failures, for the chunks and
the puts of the run. -/
theorem inv_after (config : DiskCacheConfig) {calls : List Call} (hclean : ∀ c ∈ calls, c.Clean) :
    (after H config calls).Inv H (runChunks calls) (runPuts calls) := by
  refine runOps_inv (inv_init config) fun call hcall d hd => ?_
  refine hd.exec (hclean call hcall) ?_ ?_
  · rintro env p rfl
    exact ⟨env, hcall⟩
  · exact fun b hb => ⟨call, hcall, hb⟩

end DiskCache

end ElCache
