import ElCache.Assembly

/-!
# What the memory level does

Every atomic step of every memory operation keeps the level's invariant, whatever state it finds
(`Call.safe`), so the invariant holds along every run and every interleaving. The second half is for
an operation run alone: `get` reads the view and leaves it alone (`observes_get`), `put` replaces
one descriptor and may add the chunks of its value (`run_put`), `remove` drops one descriptor and
every chunk it names (`run_remove`).
-/

namespace ElCache

open Slice

namespace MemoryCache

variable {p : Put} {chunks : List Chunk} {c : Chunk}

/-- What the level holds. -/
def view (m : MemoryCache) : LevelView := ⟨m.descriptors, m.chunkCache.lookup⟩

variable {H : ByteBuffer → Hash128} {K : Set ByteBuffer} {P : Set Put}

/-- The invariant of the level: the ARC cache is well-formed, weighs chunks by their size, and what
it holds is consistent with the puts `P` and the chunk contents `K`. -/
structure Inv (H : ByteBuffer → Hash128) (K : Set ByteBuffer) (P : Set Put) (m : MemoryCache) :
    Prop where
  arc : m.chunkCache.Inv
  sizeFn : m.chunkCache.sizeFn = Chunk.size
  consistent : m.view.Consistent H K P

theorem inv_init (config : MemoryCacheConfig) : (init config).Inv H K P where
  arc := ARCCache.inv_empty _ _
  sizeFn := rfl
  consistent := by
    refine ⟨fun id c hc => ?_, fun k d hd => by cases hd⟩
    cases hc

/-! ## Atomic steps -/

section
variable {m : MemoryCache}

/-- A change of the chunk cache that only brings in chunks under their own names. -/
theorem Inv.set_chunkCache (h : m.Inv H K P) {c : ARCCache ChunkId Chunk ℕ} (hc : c.Inv)
    (hsize : c.sizeFn = m.chunkCache.sizeFn)
    (hlook : ∀ id x, c.lookup id = some x →
      m.chunkCache.lookup id = some x ∨ (id = x.id H ∧ x.data ∈ K)) :
    ({ m with chunkCache := c } : MemoryCache).Inv H K P where
  arc := hc
  sizeFn := hsize.trans h.sizeFn
  consistent := by
    refine ⟨fun id x hx => ?_, h.consistent.descriptor⟩
    rcases hlook id x hx with hold | hnew
    · exact h.consistent.chunk id x hold
    · exact hnew

/-- A change of the descriptor map that only brings in descriptors of puts. -/
theorem Inv.set_descriptors (h : m.Inv H K P) {ds : CacheKey → Option ValueDescriptor}
    (hds : ∀ k d, ds k = some d →
      m.descriptors k = some d ∨ ∃ p ∈ P, p.key = k ∧ p.descriptor H = d) :
    ({ m with descriptors := ds } : MemoryCache).Inv H K P where
  arc := h.arc
  sizeFn := h.sizeFn
  consistent := by
    refine ⟨h.consistent.chunk, fun k d hd => ?_⟩
    rcases hds k d hd with hold | hnew
    · exact h.consistent.descriptor k d hold
    · exact hnew

/-- What a put into the chunk cache leaves was there before or is the chunk put. -/
theorem lookup_put_cases (h : m.chunkCache.Inv) {id id' : ChunkId} {x : Chunk}
    (hx : (m.chunkCache.put id c).2.lookup id' = some x) :
    m.chunkCache.lookup id' = some x ∨ (id' = id ∧ x = c) := by
  by_cases hid : id' = id
  · subst hid
    rw [ARCCache.lookup_put_self h] at hx
    cases hx
    exact .inr ⟨rfl, rfl⟩
  · rw [ARCCache.lookup_put_of_ne h hid] at hx
    split at hx
    · cases hx
    · exact .inl hx

theorem Inv.putChunk (h : m.Inv H K P) (hc : c.data ∈ K) :
    ({ m with chunkCache := (m.chunkCache.put (c.id H) c).2 } : MemoryCache).Inv H K P := by
  have hst := ARCCache.put_spec h.arc (c.id H) c
  refine h.set_chunkCache hst.inv hst.sizeFn fun id x hx => ?_
  rcases lookup_put_cases h.arc hx with hold | ⟨rfl, rfl⟩
  · exact .inl hold
  · exact .inr ⟨rfl, hc⟩

theorem Inv.getChunk (h : m.Inv H K P) (id : ChunkId) :
    ({ m with chunkCache := (m.chunkCache.get id).2 } : MemoryCache).Inv H K P := by
  obtain ⟨-, hinv, -, -, hsize⟩ := ARCCache.get_spec h.arc id
  refine h.set_chunkCache hinv hsize fun id' x hx => .inl ?_
  rwa [ARCCache.lookup_get h.arc] at hx

theorem Inv.removeChunk (h : m.Inv H K P) (id : ChunkId) :
    ({ m with chunkCache := (m.chunkCache.remove id).2 } : MemoryCache).Inv H K P := by
  obtain ⟨-, hinv, -, -, hsize⟩ := ARCCache.remove_spec h.arc id
  refine h.set_chunkCache hinv hsize fun id' x hx => .inl ?_
  rw [ARCCache.lookup_remove h.arc] at hx
  split at hx
  · cases hx
  · exact hx

theorem Inv.putDescriptor (h : m.Inv H K P) (hp : p ∈ P) :
    ({ m with descriptors := Function.update m.descriptors p.key (some (p.descriptor H)) } :
      MemoryCache).Inv H K P := by
  refine h.set_descriptors fun k d hd => ?_
  by_cases hk : k = p.key
  · subst hk
    rw [Function.update_self] at hd
    cases hd
    exact .inr ⟨p, hp, rfl, rfl⟩
  · rw [Function.update_of_ne hk] at hd
    exact .inl hd

theorem Inv.removeDescriptor (h : m.Inv H K P) (key : CacheKey) :
    ({ m with descriptors := Function.update m.descriptors key none } : MemoryCache).Inv H K P := by
  refine h.set_descriptors fun k d hd => ?_
  by_cases hk : k = key
  · subst hk
    rw [Function.update_self] at hd
    cases hd
  · rw [Function.update_of_ne hk] at hd
    exact .inl hd

end

/-! ## The steps of the programs -/

/-- What one atomic step of a call can do, when the call's put is in `P` and its chunks in `K`. -/
inductive Step (H : ByteBuffer → Hash128) (K : Set ByteBuffer) (P : Set Put) :
    MemoryCache → MemoryCache → Prop
  | look (m) : Step H K P m m
  | getChunk (m) (id : ChunkId) : Step H K P m { m with chunkCache := (m.chunkCache.get id).2 }
  | putChunk (m) {c : Chunk} (h : c.data ∈ K) :
      Step H K P m { m with chunkCache := (m.chunkCache.put (c.id H) c).2 }
  | removeChunk (m) (id : ChunkId) :
      Step H K P m { m with chunkCache := (m.chunkCache.remove id).2 }
  | putDescriptor (m) {p : Put} (h : p ∈ P) : Step H K P m
      { m with descriptors := Function.update m.descriptors p.key (some (p.descriptor H)) }
  | removeDescriptor (m) (key : CacheKey) :
      Step H K P m { m with descriptors := Function.update m.descriptors key none }

theorem Inv.step {m m' : MemoryCache} (h : m.Inv H K P) (hstep : Step H K P m m') :
    m'.Inv H K P := by
  cases hstep with
  | look => exact h
  | getChunk id => exact h.getChunk id
  | putChunk hc => exact h.putChunk hc
  | removeChunk id => exact h.removeChunk id
  | putDescriptor hp => exact h.putDescriptor hp
  | removeDescriptor key => exact h.removeDescriptor key

theorem steps_getDescriptor (key : CacheKey) : (getDescriptor key).Guarantees (Step H K P) :=
  Prog.guarantees_atomic fun m => .look m

theorem steps_getChunk (id : ChunkId) : (getChunk id).Guarantees (Step H K P) :=
  Prog.guarantees_atomic fun m => .getChunk m id

theorem steps_putChunk {chunk : Option Chunk} (hc : ∀ c, chunk = some c → c.data ∈ K) :
    (putChunk H chunk).Guarantees (Step H K P) := by
  cases chunk with
  | none => exact Prog.guarantees_pure _
  | some c => exact Prog.guarantees_atomic fun m => .putChunk m (hc c rfl)

theorem steps_storeChunks (i : Nat) (hc : ∀ c ∈ chunks, c.data ∈ K) :
    (storeChunks (fun _ chunk => putChunk H (some chunk)) i chunks).Guarantees (Step H K P) := by
  induction chunks generalizing i with
  | nil => exact Prog.guarantees_pure _
  | cons c rest ih =>
    refine Prog.Guarantees.bind (steps_putChunk fun x hx => ?_) fun status => ?_
    · cases hx
      exact hc c List.mem_cons_self
    · split
      · exact ih (i + 1) fun x hx => hc x (List.mem_cons_of_mem _ hx)
      · exact Prog.guarantees_pure _

theorem data_mem_of_mem_splitValue {v : ByteBuffer} (hc : c ∈ splitValue v) :
    c.data ∈ blocks chunkSize v := by
  rw [splitValue_eq] at hc
  obtain ⟨b, hb, rfl⟩ := List.mem_map.1 hc
  exact hb

/-- Whether `put` accepts its arguments. -/
def Accepts (p : Put) : Prop := p.key.size ≤ maxKeySize ∧ p.value.size ≤ maxValueSize

instance (p : Put) : Decidable (Accepts p) := inferInstanceAs (Decidable (_ ∧ _))

/-- A put is made of steps that store its own chunks and descriptor. -/
theorem steps_put_of_accepts (hp : Accepts p → p ∈ P) (hK : p.chunks ⊆ K) :
    (put H p).Guarantees (Step H K P) := by
  rw [put]
  split
  · exact Prog.guarantees_pure _
  · next hkey =>
    split
    · exact Prog.guarantees_pure _
    · next hvalue =>
      refine Prog.Guarantees.bind
        (steps_storeChunks 0 fun c hc => hK (data_mem_of_mem_splitValue hc)) fun status => ?_
      split
      · refine Prog.guarantees_atomic fun m => .putDescriptor m (hp ?_)
        exact ⟨Nat.not_lt.1 hkey, Nat.not_lt.1 hvalue⟩
      · exact Prog.guarantees_pure _

theorem steps_put (hp : p ∈ P) (hK : p.chunks ⊆ K) :
    (put H p).Guarantees (Step H K P) :=
  steps_put_of_accepts (fun _ => hp) hK

theorem steps_removeChunks (ids : List ChunkId) : (removeChunks ids).Guarantees (Step H K P) := by
  induction ids with
  | nil => exact Prog.guarantees_pure _
  | cons id rest ih =>
    exact Prog.Guarantees.bind (Prog.guarantees_atomic fun m => .removeChunk m id) fun _ => ih

theorem steps_remove (key : CacheKey) : (remove key).Guarantees (Step H K P) := by
  refine Prog.Guarantees.bind (steps_getDescriptor key) fun found => ?_
  cases found with
  | none => exact Prog.guarantees_pure _
  | some desc =>
    refine Prog.Guarantees.bind (steps_removeChunks desc.chunks) fun _ => ?_
    exact Prog.Guarantees.bind (Prog.guarantees_atomic fun m => .removeDescriptor m key)
      fun _ => Prog.guarantees_pure _

theorem steps_fetchChunks (desc : ValueDescriptor) (allowPartial : Bool) (idxs : List Nat) :
    (fetchChunks getChunk desc allowPartial idxs).Guarantees (Step H K P) := by
  induction idxs with
  | nil => exact Prog.guarantees_pure _
  | cons idx rest ih =>
    rw [fetchChunks]
    split
    · exact Prog.guarantees_pure _
    · refine Prog.Guarantees.bind (steps_getChunk _) fun found => ?_
      split
      · exact Prog.guarantees_pure _
      · exact Prog.Guarantees.bind ih fun _ => Prog.guarantees_pure _

theorem steps_get (now : Timestamp) (key : CacheKey) (opts : ReadOptions) :
    (get now key opts).Guarantees (Step H K P) := by
  refine Prog.Guarantees.bind (steps_getDescriptor key) fun found => ?_
  cases found with
  | none => exact Prog.guarantees_pure _
  | some desc =>
    simp only [readFound]
    split
    · exact Prog.guarantees_pure _
    · split
      · exact Prog.guarantees_pure _
      · exact Prog.Guarantees.bind (steps_fetchChunks desc _ _) fun _ => Prog.guarantees_pure _

theorem steps_markChunks (desc : ValueDescriptor) (idxs : List Nat) (v : PartialValue) :
    (markChunks hasChunk desc idxs v).Guarantees (Step H K P) := by
  induction idxs generalizing v with
  | nil => exact Prog.guarantees_pure _
  | cons idx rest ih =>
    rw [markChunks]
    split
    · exact ih v
    · exact Prog.Guarantees.bind (Prog.guarantees_atomic fun m => .look m) fun _ => ih _

theorem steps_check (key : CacheKey) (range : Option Range) :
    (check key range).Guarantees (Step H K P) := by
  refine Prog.Guarantees.bind (steps_getDescriptor key) fun found => ?_
  cases found with
  | none => exact Prog.guarantees_pure _
  | some desc => exact Prog.Guarantees.bind (steps_markChunks desc _ _) fun _ =>
    Prog.guarantees_pure _

/-- Every step of every call is one of the steps above, if the call's put, when accepted, and its
chunks are among those allowed. -/
theorem Call.steps {call : Call} (hP : ∀ p, call = .put p → Accepts p → p ∈ P)
    (hK : call.chunks ⊆ K) : (call.prog H).Guarantees (Step H K P) := by
  cases call with
  | put p =>
    exact Prog.Guarantees.bind (steps_put_of_accepts (hP p rfl) hK) fun _ => Prog.guarantees_pure _
  | get now key opts =>
    exact Prog.Guarantees.bind (steps_get now key opts) fun _ => Prog.guarantees_pure _
  | remove key => exact Prog.Guarantees.bind (steps_remove key) fun _ => Prog.guarantees_pure _
  | check key range =>
    exact Prog.Guarantees.bind (steps_check key range) fun _ => Prog.guarantees_pure _
  | putChunk chunk =>
    refine Prog.Guarantees.bind (steps_putChunk fun c hc => ?_) fun _ => Prog.guarantees_pure _
    subst hc
    exact hK rfl
  | removeChunk id =>
    exact Prog.Guarantees.bind (Prog.guarantees_atomic fun m => .removeChunk m id)
      fun _ => Prog.guarantees_pure _

theorem Call.safe {call : Call} (hP : ∀ p, call = .put p → Accepts p → p ∈ P)
    (hK : call.chunks ⊆ K) : (call.prog H).Safe (Inv H K P) fun _ => True :=
  (Call.steps hP hK).safe fun _ _ hm hstep => hm.step hstep

/-- A fetched chunk has the name it was asked for. -/
theorem safe_getChunk (id : ChunkId) : (getChunk id).Safe (Inv H K P)
    fun found => ∀ c, found = some c → id = c.id H ∧ c.data ∈ K := by
  refine Prog.safe_atomic fun m h => ⟨h.getChunk id, fun c hc => ?_⟩
  rw [(ARCCache.get_spec h.arc id).1] at hc
  exact h.consistent.chunk id c hc

/-- The puts of a sequence of calls. -/
def runPuts (calls : List Call) : Set Put := { p | Call.put p ∈ calls }

/-- The invariant holds after every run, for the chunks and the puts of the run. -/
theorem inv_after (config : MemoryCacheConfig) (calls : List Call) :
    (after H config calls).Inv H (runChunks calls) (runPuts calls) := by
  refine runOps_inv (inv_init config) fun call hcall m hm => ?_
  refine (Prog.Safe.run (Call.safe ?_ ?_) hm).1
  · rintro p rfl -
    exact hcall
  · exact fun b hb => ⟨call, hcall, hb⟩

/-- Every descriptor of a run comes from a put that was accepted. -/
theorem inv_after_accepts (config : MemoryCacheConfig) (calls : List Call) :
    (after H config calls).Inv H Set.univ {p | Accepts p} := by
  refine runOps_inv (inv_init config) fun call _ m hm => ?_
  exact (Prog.Safe.run (Call.safe (fun p _ hp => hp) (Set.subset_univ _)) hm).1

/-! ## The operations run alone -/

section
variable {m : MemoryCache}

theorem exec_put (p : Put) (m : MemoryCache) : exec H (.put p) m = ((put H p).run m).2 := by
  rw [exec, Call.prog, Prog.run_bind]
  rfl

/-- Removing chunks by calls. -/
theorem runOps_removeChunk (ids : List ChunkId) (m : MemoryCache) :
    runOps (exec H) (ids.map .removeChunk) m = ((removeChunks ids).run m).2 := by
  induction ids generalizing m with
  | nil => rfl
  | cons id rest ih => exact ih _

theorem observes_get (now : Timestamp) (key : CacheKey) (opts : ReadOptions) :
    Observes (Inv H K P) view (get now key opts) fun w => w.read assembleValue now key opts := by
  refine observes_readValue assembleValue (fun k m hm => ⟨rfl, rfl, hm⟩) (fun id m hm => ?_) now key
    opts
  refine ⟨(ARCCache.get_spec hm.arc id).1, ?_, hm.getChunk id⟩
  exact congrArg (LevelView.mk m.descriptors) (funext fun id' => ARCCache.lookup_get hm.arc id id')

/-- Storing chunks succeeds, leaves the descriptors alone and brings in only the chunks stored. -/
theorem run_storeChunks (hm : m.chunkCache.Inv) (i : Nat) (chunks : List Chunk) :
    let r := (storeChunks (fun _ chunk => putChunk H (some chunk)) i chunks).run m
    r.1 = .makeOk ∧ r.2.chunkCache.Inv ∧ r.2.descriptors = m.descriptors ∧
      ∀ id x, r.2.chunkCache.lookup id = some x →
        m.chunkCache.lookup id = some x ∨ (x ∈ chunks ∧ id = x.id H) := by
  induction chunks generalizing m i with
  | nil => exact ⟨rfl, hm, rfl, fun id x hx => .inl hx⟩
  | cons c rest ih =>
    obtain ⟨hok, hinv, hdesc, hlook⟩ :=
      ih (m := { m with chunkCache := (m.chunkCache.put (c.id H) c).2 })
        (ARCCache.put_spec hm (c.id H) c).inv (i + 1)
    refine ⟨hok, hinv, hdesc, fun id x hx => ?_⟩
    rcases hlook id x hx with hold | ⟨hmem, hid⟩
    · rcases lookup_put_cases hm hold with hold | ⟨rfl, rfl⟩
      · exact .inl hold
      · exact .inr ⟨List.mem_cons_self, rfl⟩
    · exact .inr ⟨List.mem_cons_of_mem _ hmem, hid⟩

/-- The last chunk stored is held. -/
theorem run_storeChunks_last (hm : m.chunkCache.Inv) (i : Nat) (chunks : List Chunk) (c : Chunk) :
    ((storeChunks (fun _ chunk => putChunk H (some chunk)) i (chunks ++ [c])).run
      m).2.chunkCache.lookup (c.id H) = some c := by
  induction chunks generalizing m i with
  | nil => exact ARCCache.lookup_put_self hm _ _
  | cons x rest ih =>
    exact ih (m := { m with chunkCache := (m.chunkCache.put (x.id H) x).2 })
      (ARCCache.put_spec hm (x.id H) x).inv (i + 1)

/-- A rejected put changes nothing. -/
theorem run_put_rejected (h : ¬ Accepts p) :
    ((put H p).run m).1.isOk = false ∧ ((put H p).run m).2 = m := by
  rw [put]
  split
  · exact ⟨rfl, rfl⟩
  · next hk =>
    split
    · exact ⟨rfl, rfl⟩
    · next hv => exact absurd ⟨Nat.not_lt.1 hk, Nat.not_lt.1 hv⟩ h

/-- An accepted put succeeds and replaces the descriptor of its key; the chunks held afterwards
were held before or belong to the value. -/
theorem run_put (hm : m.chunkCache.Inv) (h : Accepts p) :
    ((put H p).run m).1 = .makeOk ∧
      ((put H p).run m).2.descriptors =
        Function.update m.descriptors p.key (some (p.descriptor H)) ∧
      ∀ id x, ((put H p).run m).2.chunkCache.lookup id = some x →
        m.chunkCache.lookup id = some x ∨ (x ∈ splitValue p.value.bytes ∧ id = x.id H) := by
  obtain ⟨hok, hinv, hdesc, hlook⟩ :=
    run_storeChunks (H := H) hm 0 (splitValue p.value.bytes)
  rw [put, if_neg (Nat.not_lt.2 h.1), if_neg (Nat.not_lt.2 h.2), Prog.run_bind, hok]
  refine ⟨rfl, ?_, hlook⟩
  rw [← hdesc]
  rfl

/-- After an accepted put, the last chunk of the value is held. -/
theorem run_put_last (hm : m.chunkCache.Inv) (h : Accepts p)
    (hsplit : splitValue p.value.bytes = chunks ++ [c]) :
    ((put H p).run m).2.chunkCache.lookup (c.id H) = some c := by
  have hlast := run_storeChunks_last (H := H) hm 0 chunks c
  obtain ⟨hok, -⟩ := run_storeChunks (H := H) hm 0 (splitValue p.value.bytes)
  rw [put, if_neg (Nat.not_lt.2 h.1), if_neg (Nat.not_lt.2 h.2), Prog.run_bind, hok, hsplit]
  exact hlast

/-- Chunks that fit are all held afterwards, and nothing held before is lost. -/
theorem run_storeChunks_fits (hm : m.chunkCache.Inv) (hsize : m.chunkCache.sizeFn = Chunk.size)
    (i : Nat) (chunks : List Chunk)
    (hfit : m.chunkCache.weight + (chunks.map Chunk.size).sum ≤ m.chunkCache.capacity)
    (id : ChunkId) (hid : (m.chunkCache.lookup id).isSome ∨ ∃ c ∈ chunks, id = c.id H) :
    (((storeChunks (fun _ chunk => putChunk H (some chunk)) i chunks).run m).2.chunkCache.lookup
      id).isSome := by
  induction chunks generalizing m i with
  | nil => exact hid.elim (fun h => h) fun ⟨c, hc, _⟩ => by cases hc
  | cons c rest ih =>
    have hst := ARCCache.put_spec hm (c.id H) c
    have hweight := ARCCache.weight_put_le hm (c.id H) c
    rw [List.map_cons, List.sum_cons] at hfit
    rw [hsize] at hweight
    have hnone : (m.chunkCache.put (c.id H) c).1 = [] := by
      refine ARCCache.put_evicts_nothing hm _ _ ?_
      rw [hm.currentSize, hsize]
      omega
    refine ih (m := { m with chunkCache := (m.chunkCache.put (c.id H) c).2 }) hst.inv
      (hst.sizeFn.trans hsize) (i + 1) ?_ ?_
    · simp only [hst.capacity]
      omega
    · by_cases he : id = c.id H
      · subst he
        exact .inl (by simp only [ARCCache.lookup_put_self hm]; rfl)
      · refine hid.imp (fun h => ?_) fun ⟨x, hx, hxid⟩ => ?_
        · rw [ARCCache.lookup_put_of_ne hm he, hnone]
          exact h
        · rcases List.mem_cons.1 hx with rfl | hx
          · exact absurd hxid he
          · exact ⟨x, hx, hxid⟩

/-- After a put that fits, every chunk of the value is held. -/
theorem run_put_fits (hm : m.chunkCache.Inv) (hsize : m.chunkCache.sizeFn = Chunk.size)
    (h : Accepts p) (hfit : m.chunkCache.weight + p.value.size ≤ m.chunkCache.capacity) :
    ∀ c ∈ splitValue p.value.bytes,
      (((put H p).run m).2.chunkCache.lookup (c.id H)).isSome := by
  intro c hc
  have hstore := run_storeChunks_fits (H := H) hm hsize 0 (splitValue p.value.bytes)
    (by rw [sum_size_splitValue]; exact hfit) (c.id H) (.inr ⟨c, hc, rfl⟩)
  obtain ⟨hok, -⟩ := run_storeChunks (H := H) hm 0 (splitValue p.value.bytes)
  rw [put, if_neg (Nat.not_lt.2 h.1), if_neg (Nat.not_lt.2 h.2), Prog.run_bind, hok]
  exact hstore

/-- A put that fits is read back by every range that has a byte inside the value or starts past
it. -/
theorem get_after_put (hinj : Set.InjOn H K) (hm : m.Inv H K P) (hp : p ∈ P) (hK : p.chunks ⊆ K)
    (h : Accepts p) (hfit : m.chunkCache.weight + p.value.size ≤ m.chunkCache.capacity)
    (now : Timestamp) (hlive : (p.descriptor H).metadata.isExpired now = false) (opts : ReadOptions)
    {r : Range} (hr : opts.range.getD ⟨0, p.value.bytes.length⟩ = r)
    (hlen : 0 < r.length ∨ p.value.bytes.length ≤ r.offset) :
    ((get now p.key opts).run ((put H p).run m).2).1.isHit = true := by
  have hm' := (((steps_put hp hK).safe fun _ _ hm hstep => Inv.step hm hstep).run hm).1
  have hserves := hm'.consistent.serves hinj hK
  have hkey : ((put H p).run m).2.view.descriptor p.key = some (p.descriptor H) := by
    rw [view, (run_put hm.arc h).2.1]
    exact Function.update_self _ _ _
  rw [(observes_get now p.key opts _ hm').1]
  refine LevelView.isHit_read exactAssembly (p.describes H) p.value.size_lt hserves hkey hlive hr
    hlen fun ho i hi => ?_
  -- every block of the value was stored, and nothing has been evicted
  have hpos := hlen.resolve_right (Nat.not_le.2 ho)
  have hblock : i < blockCount chunkSize p.value.bytes.length :=
    lt_blockCount_of_mem_touched (by omega) (by omega) hi
  refine run_put_fits hm.arc hm.sizeFn h hfit ⟨block chunkSize p.value.bytes i⟩ ?_
  rw [splitValue_eq]
  exact List.mem_map_of_mem (mem_blocks.2 ⟨i, hblock, rfl⟩)

/-- Removing chunks removes exactly these. -/
theorem run_removeChunks (hm : m.chunkCache.Inv) (ids : List ChunkId) :
    ((removeChunks ids).run m).2.chunkCache.Inv ∧
      ((removeChunks ids).run m).2.descriptors = m.descriptors ∧
      ∀ id, ((removeChunks ids).run m).2.chunkCache.lookup id =
        if id ∈ ids then none else m.chunkCache.lookup id := by
  induction ids generalizing m with
  | nil => exact ⟨hm, rfl, fun id => rfl⟩
  | cons x rest ih =>
    obtain ⟨hinv, hdesc, hlook⟩ := ih (m := { m with chunkCache := (m.chunkCache.remove x).2 })
      (ARCCache.remove_spec hm x).2.1
    refine ⟨hinv, hdesc, fun id => (hlook id).trans ?_⟩
    simp only [ARCCache.lookup_remove hm, List.mem_cons]
    by_cases hx : id = x
    · simp [hx]
    · simp [hx]

/-- Removing an absent key changes nothing. -/
theorem run_remove_absent {key : CacheKey} (hd : m.descriptors key = none) :
    (remove key).run m = (.error .notFound "Key not found", m) := by
  rw [remove, Prog.run_bind]
  simp only [getDescriptor, Prog.run_atomic, hd]
  rfl

/-- Removing a key drops its descriptor and every chunk the descriptor names. -/
theorem run_remove (hm : m.chunkCache.Inv) {key : CacheKey} {d : ValueDescriptor}
    (hd : m.descriptors key = some d) :
    ((remove key).run m).1 = .makeOk ∧ ((remove key).run m).2.view =
      ⟨Function.update m.descriptors key none,
        fun id => if id ∈ d.chunks then none else m.chunkCache.lookup id⟩ := by
  obtain ⟨-, hdesc, hlook⟩ := run_removeChunks hm d.chunks
  have hrun : (remove key).run m = (.makeOk,
      { ((removeChunks d.chunks).run m).2 with
        descriptors := Function.update
          ((removeChunks d.chunks).run m).2.descriptors key none }) := by
    rw [remove, Prog.run_bind]
    simp only [getDescriptor, Prog.run_atomic, hd, Prog.run_bind]
    rfl
  rw [hrun]
  refine ⟨rfl, ?_⟩
  simp only [view, hdesc]
  exact congrArg _ (funext hlook)

/-- Removing a key drops its descriptor and no other. -/
theorem descriptors_remove (hm : m.chunkCache.Inv) (key : CacheKey) :
    ((remove key).run m).2.descriptors = Function.update m.descriptors key none := by
  cases hd : m.descriptors key with
  | none => rw [run_remove_absent hd, Function.update_eq_self_iff.2 hd.symm]
  | some d => exact congrArg LevelView.descriptor (run_remove hm hd).2

end

end MemoryCache

end ElCache
