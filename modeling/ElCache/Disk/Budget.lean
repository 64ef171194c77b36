import ElCache.Disk.Index

/-!
# The disk budget

`put` checks the budget before it writes and evicts when the high watermark would be passed. The
check, the two conditions of the loop of `evict` and the accounting of the index together bound the
total size: `evict` ends by its own test, with the oldest entries gone until enough bytes are free
or nothing is left (`evict_ends`, `currentSize_evict`), so after the space check the value still
fits (`room_makeRoom`), and the chunks written add at most its size, whichever of the writes fail.
`budget_kept` states this for every run in which insertions carry increasing times.
-/

namespace ElCache

/-- Entries inserted at increasing times, all later than those present, are all kept. -/
theorem perm_foldl_insertAccess {es l : List AccessEntry}
    (hes : (es.map AccessEntry.lastAccess).Pairwise (· < ·))
    (hlater : ∀ x ∈ l, ∀ e ∈ es, x.lastAccess < e.lastAccess) :
    (es.foldl (fun l e => insertAccess e l) l).Perm (l ++ es) := by
  induction es generalizing l with
  | nil => rw [List.append_nil]; exact .refl _
  | cons e es ih =>
    obtain ⟨he, hrest⟩ := List.pairwise_cons.1 hes
    have hfree : TimeFree e.lastAccess l := fun x hx => (hlater x hx e List.mem_cons_self).ne
    have hnext : ∀ x ∈ insertAccess e l, ∀ e' ∈ es, x.lastAccess < e'.lastAccess := by
      intro x hx e' he'
      rcases mem_insertAccess hx with rfl | hx
      · exact he _ (List.mem_map_of_mem he')
      · exact hlater x hx e' (List.mem_cons_of_mem _ he')
    rw [List.foldl_cons]
    exact (ih hrest hnext).trans
      (((perm_insertAccess hfree).append_right es).trans List.perm_middle.symm)

theorem accessBytes_append (l l' : List AccessEntry) :
    accessBytes (l ++ l') = accessBytes l + accessBytes l' := by
  rw [accessBytes, List.map_append, List.sum_append, accessBytes, accessBytes]

/-- The entries made account for no more than the chunks. -/
theorem accessBytes_chunkEntries_le (H : ByteBuffer → Hash128) (env : WriteEnv) (i : Nat)
    (chunks : List Chunk) :
    accessBytes (chunkEntries H env i chunks) ≤ (chunks.map Chunk.size).sum := by
  induction chunks generalizing i with
  | nil => exact Nat.le_refl 0
  | cons c rest ih =>
    rw [chunkEntries, List.map_cons, List.sum_cons]
    split
    · rw [accessBytes_cons]
      exact Nat.add_le_add_left (ih (i + 1)) c.size
    · exact Nat.zero_le _

namespace DiskCache

variable {H : ByteBuffer → Hash128} {d : DiskCache}

/-! ## Eviction -/

/-- The loop of `evict` has ended by its own test: another round would not go ahead. -/
def EvictEnds (bytesNeeded : Nat) (d : DiskCache) : Prop :=
  let r := (evict bytesNeeded).run d
  (popOldest bytesNeeded r.1 r.2).1 = none

/-- With as many rounds as there are entries, the loop ends by itself. -/
theorem evictLoop_ends (bytesNeeded : Nat) {fuel : Nat} (evicted : Nat)
    (hfuel : d.accessOrder.length ≤ fuel) :
    let r := (evictLoop bytesNeeded fuel evicted).run d
    (popOldest bytesNeeded r.1 r.2).1 = none := by
  induction fuel generalizing d evicted with
  | zero =>
    have hnil := List.length_eq_zero_iff.1 (Nat.le_zero.1 hfuel)
    show (popOldest bytesNeeded evicted d).1 = none
    rw [popOldest, hnil]
    split <;> rfl
  | succ fuel ih =>
    rw [run_evictLoop_succ]
    split
    · cases horder : d.accessOrder with
      | nil =>
        show (popOldest bytesNeeded evicted d).1 = none
        rw [popOldest, horder]
        split <;> rfl
      | cons e rest =>
        refine ih _ ?_
        rw [horder, List.length_cons] at hfuel
        exact Nat.le_of_succ_le_succ hfuel
    · next hround =>
      show (popOldest bytesNeeded evicted d).1 = none
      rw [popOldest, if_neg hround]

/-- `evict` ends: the number of entries is enough rounds. -/
theorem evict_ends (bytesNeeded : Nat) (d : DiskCache) : d.EvictEnds bytesNeeded := by
  rw [EvictEnds, evict, Prog.run_bind]
  exact evictLoop_ends bytesNeeded 0 (Nat.le_refl _)

/-- What the loop evicts comes off the total size. -/
theorem currentSize_evictLoop (bytesNeeded fuel evicted : Nat) (h : d.Accounted) :
    let r := (evictLoop bytesNeeded fuel evicted).run d
    r.2.Accounted ∧ r.2.currentSize + r.1 = d.currentSize + evicted := by
  induction fuel generalizing d evicted with
  | zero => exact ⟨h, rfl⟩
  | succ fuel ih =>
    rw [run_evictLoop_succ]
    split
    · cases horder : d.accessOrder with
      | nil => exact ⟨h, rfl⟩
      | cons e rest =>
        obtain ⟨hacc, hsum⟩ := ih (evicted + e.size) (h.dropOldest horder)
        refine ⟨hacc, hsum.trans ?_⟩
        have hsize : d.currentSize = e.size + accessBytes rest := by
          rw [← accessBytes_cons, ← horder]
          exact h
        show d.currentSize - e.size + (evicted + e.size) = d.currentSize + evicted
        omega
    · exact ⟨h, rfl⟩

theorem currentSize_evict (bytesNeeded : Nat) (h : d.Accounted) :
    ((evict bytesNeeded).run d).2.Accounted ∧
      ((evict bytesNeeded).run d).2.currentSize + ((evict bytesNeeded).run d).1 =
        d.currentSize := by
  rw [evict, Prog.run_bind]
  exact currentSize_evictLoop bytesNeeded _ 0 h

/-- After an eviction what was asked for fits, provided it fits an empty cache. -/
theorem room_evict {maxSize needed : Nat} (h : d.Accounted) (hsize : d.currentSize ≤ maxSize)
    (hneeded : needed ≤ maxSize) : ((evict needed).run d).2.currentSize + needed ≤ maxSize := by
  obtain ⟨hacc, hsum⟩ := currentSize_evict needed h
  have hends := evict_ends needed d
  simp only [EvictEnds, popOldest] at hends
  split at hends
  · split at hends
    · next hnil =>
      -- nothing is left
      have hzero : ((evict needed).run d).2.currentSize = 0 := by
        rw [hacc, hnil]
        rfl
      omega
    · cases hends
  · next hround =>
    -- at least `needed` bytes were evicted
    omega

/-- After the space check of `put` the value fits. -/
theorem room_makeRoom {needed : Nat} (hhigh : d.config.highWatermark ≤ 1) (h : d.Accounted)
    (hsize : d.currentSize ≤ d.config.maxSize) (hneeded : needed ≤ d.config.maxSize) :
    ((makeRoom needed).run d).2.currentSize + needed ≤ d.config.maxSize := by
  rw [run_makeRoom]
  split
  · exact room_evict h hsize hneeded
  · next hroom =>
    have hmax : (d.config.maxSize : ℚ) * d.config.highWatermark ≤ d.config.maxSize :=
      mul_le_of_le_one_right (Nat.cast_nonneg _) hhigh
    exact Nat.cast_le.1 ((not_lt.1 hroom).trans hmax)

/-! ## Runs -/

/-- The calls by key, and `evict`. -/
def Call.Keyed : Call → Prop
  | .put _ _ | .get _ _ _ | .remove _ | .evict _ => True
  | .putChunk _ _ _ | .removeChunk _ => False

/-- The size of the value a call puts. -/
def Call.valueSize : Call → Nat
  | .put _ p => p.value.size
  | _ => 0

/-- The budget of a run: the accounting, the bound, and the entries older than the insertions still
to come. -/
structure Budget (config : DiskCacheConfig) (later : List TimePoint) (d : DiskCache) : Prop where
  config_eq : d.config = config
  accounted : d.Accounted
  size_le : d.currentSize ≤ config.maxSize
  older : ∀ x ∈ d.accessOrder, ∀ t ∈ later, x.lastAccess < t

section
variable {config : DiskCacheConfig} {later : List TimePoint}

theorem Budget.dropOldest {e : AccessEntry} {rest : List AccessEntry} (h : d.Budget config later)
    (horder : d.accessOrder = e :: rest) : (d.dropOldest e rest).Budget config later where
  config_eq := h.config_eq
  accounted := h.accounted.dropOldest horder
  size_le := (Nat.sub_le _ _).trans h.size_le
  older := fun x hx => h.older x (by rw [horder]; exact List.mem_cons_of_mem _ hx)

/-- Removing a chunk takes its size off the account. -/
theorem Budget.removeChunk (h : d.Budget config later) (id : ChunkId) :
    ((removeChunk id).run d).2.Budget config later := by
  have hacc := h.accounted.unindexChunk id
  rw [run_removeChunk]
  refine ⟨(config_unindexChunk id d).trans h.config_eq, hacc, ?_, ?_⟩
  · show (d.unindexChunk id).currentSize ≤ config.maxSize
    rw [unindexChunk]
    split
    · exact h.size_le
    · exact (Nat.sub_le _ _).trans h.size_le
  · show ∀ x ∈ (d.unindexChunk id).accessOrder, _
    rw [unindexChunk]
    split
    · exact h.older
    · exact fun x hx => h.older x (List.mem_of_mem_eraseP hx)

/-- A put of a value within the budget, whose insertions carry increasing times. -/
theorem Budget.put {env : WriteEnv} {p : Put}
    (h : d.Budget config (((Call.put env p).entries H).map AccessEntry.lastAccess ++ later))
    (hhigh : config.highWatermark ≤ 1) (hvalue : p.value.size ≤ config.maxSize)
    (htimes : (((Call.put env p).entries H).map AccessEntry.lastAccess ++ later).Pairwise
      (· < ·)) : ((put H env p).run d).2.Budget config later := by
  rcases Nat.lt_or_ge maxKeySize p.key.size with hlt | hle
  · rw [(run_put_rejected hlt).2]
    exact ⟨h.config_eq, h.accounted, h.size_le,
      fun x hx t ht => h.older x hx t (List.mem_append_right _ ht)⟩
  · rw [Call.entries, if_neg (Nat.not_lt.2 hle)] at h htimes
    obtain ⟨descs, hput⟩ := run_put_eq (H := H) env p d hle
    rw [hput]
    have hroom : ((makeRoom p.value.size).run d).2.currentSize + p.value.size ≤ config.maxSize := by
      rw [← h.config_eq] at hhigh hvalue ⊢
      exact room_makeRoom hhigh h.accounted (by rw [h.config_eq]; exact h.size_le) hvalue
    have hmade := makeRoom_inv (I := Budget config _) (fun _ _ _ hd ho => hd.dropOldest ho)
      p.value.size h
    obtain ⟨horder, hsize, hconfig⟩ := index_store (H := H) env 0 (splitValue p.value.bytes)
      ((makeRoom p.value.size).run d).2
    obtain ⟨hes, -, hbefore⟩ := List.pairwise_append.1 htimes
    have hperm := perm_foldl_insertAccess hes fun x hx e he => hmade.older x hx _
      (List.mem_append_left _ (List.mem_map_of_mem he))
    rw [← horder] at hperm
    have hbytes := accessBytes_chunkEntries_le H env 0 (splitValue p.value.bytes)
    rw [sum_size_splitValue] at hbytes
    refine ⟨hconfig.trans hmade.config_eq, ?_, ?_, fun x hx t ht => ?_⟩
    · rw [Accounted, hsize, accessBytes_perm hperm, accessBytes_append, hmade.accounted]
    · rw [hsize]
      exact (Nat.add_le_add_left hbytes _).trans hroom
    · rcases List.mem_append.1 (hperm.mem_iff.1 hx) with hx | hx
      · exact hmade.older x hx t (List.mem_append_right _ ht)
      · exact hbefore _ (List.mem_map_of_mem hx) t ht

/-- A call by key, or an eviction, keeps the budget. -/
theorem Budget.exec {call : Call} (hcall : call.Keyed)
    (h : d.Budget config ((call.entries H).map AccessEntry.lastAccess ++ later))
    (hhigh : config.highWatermark ≤ 1) (hvalue : call.valueSize ≤ config.maxSize)
    (htimes : ((call.entries H).map AccessEntry.lastAccess ++ later).Pairwise (· < ·)) :
    (exec H call d).Budget config later := by
  cases call with
  | put env p => exact h.put hhigh hvalue htimes
  | get now key opts => exact (observes_get (Budget config later) now key opts d h).2.2
  | remove key =>
    exact remove_inv (fun _ id hd => hd.removeChunk id)
      (fun _ _ hd => ⟨hd.config_eq, hd.accounted, hd.size_le, hd.older⟩) key h
  | evict bytesNeeded => exact evict_inv (fun _ _ _ hd ho => hd.dropOldest ho) bytesNeeded h
  | putChunk now outcome chunk => exact hcall.elim
  | removeChunk id => exact hcall.elim

end

/-- The accounting holds, the total is within the budget, and an eviction of any number of bytes
ends. -/
def WithinBudget (d : DiskCache) : Prop :=
  d.Accounted ∧ d.currentSize ≤ d.config.maxSize ∧ ∀ bytesNeeded, d.EvictEnds bytesNeeded

theorem Budget.within {config : DiskCacheConfig} {later : List TimePoint}
    (h : d.Budget config later) : d.WithinBudget :=
  ⟨h.accounted, by rw [h.config_eq]; exact h.size_le, fun bytesNeeded => evict_ends bytesNeeded d⟩

/-- From a state within the budget, every state of a run is. -/
theorem Budget.everyState {config : DiskCacheConfig} (hhigh : config.highWatermark ≤ 1)
    {calls : List Call} (hcalls : ∀ c ∈ calls, c.Keyed)
    (hvalues : ∀ c ∈ calls, c.valueSize ≤ config.maxSize)
    (htimes : ((calls.flatMap (Call.entries H)).map AccessEntry.lastAccess).Pairwise (· < ·))
    (h : d.Budget config ((calls.flatMap (Call.entries H)).map AccessEntry.lastAccess)) :
    EveryState (DiskCache.exec H) WithinBudget calls d := by
  induction calls generalizing d with
  | nil => exact h.within
  | cons call calls ih =>
    rw [List.flatMap_cons, List.map_append] at h htimes
    have hnext := h.exec (hcalls call List.mem_cons_self) hhigh (hvalues call List.mem_cons_self)
      htimes
    exact ⟨h.within, ih (fun c hc => hcalls c (List.mem_cons_of_mem _ hc))
      (fun c hc => hvalues c (List.mem_cons_of_mem _ hc)) (List.pairwise_append.1 htimes).2.1 hnext⟩

/-- In every run of calls by key and evictions from an empty store, with values of at most the
maximal size and insertions at strictly increasing times, the total size is the sum of the sizes in
the access order, evictions end, and the total never exceeds the maximal size. Writes may fail. -/
theorem budget_kept (H : ByteBuffer → Hash128) (config : DiskCacheConfig)
    (hwater : config.lowWatermark < config.highWatermark ∧ config.highWatermark ≤ 1)
    (calls : List Call) (hcalls : ∀ c ∈ calls, c.Keyed)
    (hvalues : ∀ c ∈ calls, c.valueSize ≤ config.maxSize)
    (htimes : ((calls.flatMap (Call.entries H)).map AccessEntry.lastAccess).Pairwise (· < ·)) :
    EveryState (exec H) WithinBudget calls { config := config } := by
  refine Budget.everyState hwater.2 hcalls hvalues htimes ⟨rfl, rfl, Nat.zero_le _, fun x hx => ?_⟩
  cases hx

/-- A budget of one byte, filled twice over: the second put evicts what the first one wrote. -/
theorem budget_kept_oneByte :
    EveryState (exec sampleHash) WithinBudget [putByte 0 1 7, putByte 1 2 8, .evict 1]
      { config := { maxSize := 1 } } := by
  refine budget_kept sampleHash { maxSize := 1 } ⟨by decide +kernel, by decide +kernel⟩ _ ?_ ?_ ?_
  · simp [putByte, Call.Keyed]
  · simp [putByte, Call.valueSize, ByteView.size]
  · decide +kernel

end DiskCache

end ElCache
