import ElCache.Coordinator.Fresh
import ElCache.Memory.Budget
import ElCache.Partial.Reads

/-!
# Complete reads through the coordinator

A value put with default options is in both levels. `reads_complete` is about reads of it that the
disk level can serve. They are hits, unless the memory level has lost a chunk that is needed and the
read takes partial results: then the memory level's partial hit is the answer, without data if the
memory level has lost all of them, and the disk level is not asked.
-/

namespace ElCache

open Slice

namespace CacheCoordinator

variable {H : ByteBuffer → Hash128} {K : Set ByteBuffer} {s : CacheCoordinator × History}
  {d : ValueDescriptor} {opts : ReadOptions} {w : LevelView} {h : History}

/-- A put of the call has default options. -/
def Call.Default : Call → Prop
  | .put p => p.opts = {}
  | _ => True

/-- A level has a descriptor for every key in the history. -/
def LevelKeeps (h : History) (w : LevelView) : Prop :=
  ∀ k p, h k = some p → (w.descriptor k).isSome

theorem LevelKeeps.put {w' : LevelView} {p : PutCall} (hw : LevelKeeps h w)
    (hput : w'.descriptor = Function.update w.descriptor p.key (some d)) :
    LevelKeeps (Function.update h p.key (some p)) w' := by
  intro k q hq
  rw [hput]
  by_cases hk : k = p.key
  · subst hk
    rw [Function.update_self]
    rfl
  · rw [Function.update_of_ne hk] at hq ⊢
    exact hw k q hq

/-- The level that a put has written, if the put does not skip it. -/
theorem LevelKeeps.of_put {v v' : Option LevelView} {p : PutCall}
    {skipped : Bool} (hno : skipped = false)
    (hkeeps : ∃ w, v = some w ∧ LevelKeeps h w)
    (hview : ∀ w, v' = some w → (skipped = true ∧ v = some w) ∨
      ∃ w₀, v = some w₀ ∧ w.descriptor = Function.update w₀.descriptor p.key (some d))
    (hsome : v'.isSome) : ∃ w, v' = some w ∧ LevelKeeps (Function.update h p.key (some p)) w := by
  obtain ⟨w', hw'⟩ := Option.isSome_iff_exists.1 hsome
  obtain ⟨w, hw, hkeeps⟩ := hkeeps
  refine ⟨w', hw', ?_⟩
  rcases hview w' hw' with ⟨h, -⟩ | ⟨w₀, hw₀, hput⟩
  · rw [hno] at h
    cases h
  · rw [hw] at hw₀
    cases hw₀
    exact hkeeps.put hput

theorem LevelKeeps.remove {w' : LevelView} (hw : LevelKeeps h w) {key : CacheKey}
    (hrem : w'.descriptor = Function.update w.descriptor key none) :
    LevelKeeps (Function.update h key none) w' := by
  intro k q hq
  by_cases hk : k = key
  · subst hk
    rw [Function.update_self] at hq
    cases hq
  · rw [Function.update_of_ne hk] at hq
    rw [hrem, Function.update_of_ne hk]
    exact hw k q hq

/-- The descriptor describes the value of the put and does not expire. -/
def Stands (H : ByteBuffer → Hash128) (d : ValueDescriptor) (p : PutCall) : Prop :=
  Describes H d p.value.bytes ∧ d.metadata.expiresAt = none

/-- Both levels are enabled and stand for the history, key by key. -/
structure Mirrors (H : ByteBuffer → Hash128) (K : Set ByteBuffer) (config : Config)
    (s : CacheCoordinator × History) : Prop extends Tracks H K (Stands H) s where
  config_eq : s.1.config = config
  memory_keeps : ∃ w, s.1.views.memory = some w ∧ LevelKeeps s.2 w
  disk_keeps : ∃ w, s.1.views.disk = some w ∧ LevelKeeps s.2 w

theorem mirrors_init {config : Config} (hmem : 0 < config.memory.maxSize)
    (hdisk : 0 < config.disk.maxSize) : Mirrors H K config (init config, fun _ => none) where
  toTracks := tracks_init config
  config_eq := rfl
  memory_keeps := by
    refine ⟨MemoryCache.view (.init config.memory), ?_, fun k p hp => by cases hp⟩
    simp only [views, init, if_pos hmem, Option.map_some]
  disk_keeps := by
    refine ⟨DiskCache.view { config := config.disk }, ?_, fun k p hp => by cases hp⟩
    simp only [views, init, if_pos hdisk, Option.map_some]

/-- A put with default options keeps the levels in step. -/
theorem Mirrors.put {config : Config} (hs : Mirrors H K config s) {p : PutCall}
    (henv : p.env.Clean) (hopts : p.opts = {}) (hK : p.memoryPut.chunks ⊆ K) :
    Mirrors H K config (exec H (.put p) s) := by
  have hno : p.opts.noMemory = false ∧ p.opts.noDisk = false := by
    rw [hopts]
    exact ⟨rfl, rfl⟩
  have hlive : ∀ f : Int → Timestamp, p.opts.ttl.map f = none := by
    rw [hopts]
    exact fun _ => rfl
  have ht := hs.toTracks.put henv hK ⟨p.memoryPut.describes H, hlive _⟩
    ⟨p.diskPut.describes H, hlive _⟩
    (fun h => by rw [hno.1] at h; cases h) fun h => by rw [hno.2] at h; cases h
  rcases exec_put hs.inv henv with ⟨hsame, -⟩ | ⟨hexec, hmem, hdisk⟩
  · rwa [hsame]
  · rw [hexec] at ht ⊢
    refine ⟨ht, hs.config_eq, ?_, ?_⟩
    · refine LevelKeeps.of_put hno.1 hs.memory_keeps (fun w hw => view_putMemory hs.inv hmem hw) ?_
      obtain ⟨w, hw, -⟩ := hs.memory_keeps
      obtain ⟨m, hm, -⟩ := Option.map_eq_some_iff.1 hw
      simp only [views, putMemory, hno.1, hm, Bool.false_eq_true, if_false, Option.map_some,
        Option.isSome_some]
    · refine LevelKeeps.of_put hno.2 hs.disk_keeps (fun w hw => view_putDisk henv hdisk hw) ?_
      obtain ⟨w, hw, -⟩ := hs.disk_keeps
      obtain ⟨d, hd, -⟩ := Option.map_eq_some_iff.1 hw
      simp only [views, putDisk, hno.2, hd, Bool.false_eq_true, if_false, Option.map_some,
        Option.isSome_some]

/-- A put that the memory level accepts is taken by both levels and recorded. -/
theorem Mirrors.exec_put {config : Config} (hs : Mirrors H K config s) {p : PutCall}
    (henv : p.env.Clean) (hopts : p.opts = {}) (hacc : MemoryCache.Accepts p.memoryPut) :
    exec H (.put p) s = (⟨s.1.config, putMemory H p s.1, putDisk H p s.1⟩,
      Function.update s.2 p.key (some p)) := by
  rcases CacheCoordinator.exec_put hs.inv henv with ⟨-, hwhy⟩ | ⟨hexec, -, -⟩
  · obtain ⟨w, hw, -⟩ := hs.memory_keeps
    obtain ⟨m, hm, -⟩ := Option.map_eq_some_iff.1 hw
    rw [hopts, hm] at hwhy
    rcases (hwhy hacc).1 with h | h
    · cases h
    · cases h
  · exact hexec

theorem Mirrors.get {config : Config} (hs : Mirrors H K config s) {env : ReadEnv}
    (henv : env.cluster = none) (key : CacheKey) (opts : ReadOptions) :
    Mirrors H K config (exec H (.get env key opts) s) := by
  obtain ⟨-, hviews, -⟩ := observes_get henv key opts s.1 hs.inv
  refine ⟨hs.toTracks.get henv key opts, ?_, ?_, ?_⟩
  · exact (congrArg Views.config hviews).trans hs.config_eq
  · simp only [exec, hviews]
    exact hs.memory_keeps
  · simp only [exec, hviews]
    exact hs.disk_keeps

/-- Both levels forget the key. -/
theorem Mirrors.remove {config : Config} (hs : Mirrors H K config s) (key : CacheKey) :
    Mirrors H K config (exec H (.remove key {}) s) := by
  have hrun := run_remove key {} s.1
  refine ⟨hs.toTracks.remove key, ?_, ?_, ?_⟩
  · simp only [exec, hrun]
    exact hs.config_eq
  · obtain ⟨w, hw, hkeeps⟩ := hs.memory_keeps
    obtain ⟨m, hm, rfl⟩ := Option.map_eq_some_iff.1 hw
    refine ⟨MemoryCache.view ((MemoryCache.remove key).run m).2, ?_, ?_⟩
    · simp only [exec, hrun, views, hm, if_true, Option.map_some]
    · exact hkeeps.remove (MemoryCache.descriptors_remove (hs.inv.memory m hm).arc key)
  · obtain ⟨w, hw, hkeeps⟩ := hs.disk_keeps
    obtain ⟨d, hd, rfl⟩ := Option.map_eq_some_iff.1 hw
    refine ⟨DiskCache.view ((DiskCache.remove key).run d).2, ?_, ?_⟩
    · simp only [exec, hrun, views, hd, if_true, Option.map_some]
    · exact hkeeps.remove (DiskCache.descriptors_remove d key)

/-- Along every run of plain calls with default options, both levels stand for the history. -/
theorem mirrors_after {config : Config} (hmem : 0 < config.memory.maxSize)
    (hdisk : 0 < config.disk.maxSize) {calls : List Call} (hplain : ∀ call ∈ calls, call.Plain)
    (hdefault : ∀ call ∈ calls, call.Default) :
    Mirrors H (runChunks calls) config (after H config calls) := by
  refine runOps_inv (mirrors_init hmem hdisk) fun call hcall s hs => ?_
  have hcall' := hplain call hcall
  cases call with
  | put p => exact hs.put hcall' (hdefault _ hcall) fun b hb => ⟨_, hcall, hb⟩
  | get env key opts => exact hs.get hcall' key opts
  | remove key opts =>
    cases (show opts = {} from hcall')
    exact hs.remove key

/-! ## Reads of one level -/

/-- What a level answers to a read of a value it stands for: a hit with the requested bytes, if it
holds every needed chunk; otherwise, as the read allows, a partial hit with what is assembled from
the needed chunks it holds, or a miss. -/
theorem read_level {assemble : List (Option Chunk) → Range → ByteBuffer}
    (hexact : ExactAssembly assemble) {p : PutCall} (hserves : w.Serves H p.value.bytes)
    {key : CacheKey} (hkey : w.descriptor key = some d) (hstands : Stands H d p) (now : Timestamp)
    {r : Range} (hlen : 1 ≤ r.length) (ho : r.offset < p.value.bytes.length) (allowPartial : Bool) :
    let answer := w.read assemble now key { allowPartial := allowPartial, range := some r }
    if (neededChunks p.value.bytes.length (some r)).all (w.holds H p.value.bytes) then
      answer.isHit = true ∧ answer.data = slice p.value.bytes r.offset
        (min (r.offset + r.length) p.value.bytes.length)
    else if allowPartial then answer.isPartial = true ∧ answer.data = assemble
        ((neededChunks p.value.bytes.length (some r)).map
          (held (w.holds H p.value.bytes) p.value.bytes))
        ⟨r.offset, min r.length (p.value.bytes.length - r.offset)⟩
    else answer = { result := .miss } := by
  have hlive : d.metadata.isExpired now = false := by
    rw [CacheMetadata.isExpired, hstands.2]
  have hread : w.read assemble now key { allowPartial := allowPartial, range := some r } = _ :=
    LevelView.read_eq hexact hstands.1 p.value.size_lt hserves hkey hlive rfl ho hlen
  have hend : r.offset + min r.length (p.value.bytes.length - r.offset) =
      min (r.offset + r.length) p.value.bytes.length := by omega
  simp only [Option.getD_some] at hread
  simp only [neededChunks, Option.getD_some, hread]
  cases (touched chunkSize r.offset (r.offset + min r.length
    (p.value.bytes.length - r.offset))).all (w.holds H p.value.bytes) with
  | true => exact ⟨rfl, by rw [← hend]; rfl⟩
  | false =>
    cases allowPartial with
    | true => exact ⟨rfl, rfl⟩
    | false => rfl

/-- The memory level assembles nothing from chunks that are all missing. -/
theorem assembleLoop_of_none {startChunk : Nat} {chunks : List (Option Chunk)}
    (h : ∀ chunk ∈ chunks, chunk = none) (i current remaining : Nat) :
    MemoryCache.assembleLoop startChunk chunks i current remaining = [] := by
  induction chunks generalizing i current remaining with
  | nil => rfl
  | cons chunk rest ih =>
    rw [h chunk List.mem_cons_self, MemoryCache.assembleLoop]
    split
    · rfl
    · exact ih (fun chunk hchunk => h chunk (List.mem_cons_of_mem _ hchunk)) _ _ _

/-! ## Reads through both levels -/

/-- A level that keeps and tracks the history has a descriptor that stands for the last put. -/
theorem LevelKeeps.stands (hkeeps : LevelKeeps h w) (htracks : LevelTracks (Stands H) h w)
    {key : CacheKey} {p : PutCall} (hp : h key = some p) :
    ∃ d, w.descriptor key = some d ∧ Stands H d p := by
  obtain ⟨d, hd⟩ := Option.isSome_iff_exists.1 (hkeeps key p hp)
  obtain ⟨q, hq, hQ⟩ := htracks key d hd
  rw [hp] at hq
  cases hq
  exact ⟨d, hd, hQ⟩

theorem settles_hit {r : ReadResult} (h : r.isHit = true) : settles opts r = true := by
  rw [settles, h, Bool.true_or]

/-- When the disk level's answer settles the read, it is returned unless the memory level is asked
and settles the read first. -/
theorem read_views {w : Views} {env : ReadEnv} {key : CacheKey} {m d : LevelView}
    (hm : w.memory = some m) (hd : w.disk = some d)
    (hsettles : settles opts (d.read DiskCache.assembleValue env.diskNow key opts) = true) :
    w.read env key opts = some
      (if w.config.cluster.preferLocal &&
          settles opts (m.read MemoryCache.assembleValue env.memoryNow key opts) then
        m.read MemoryCache.assembleValue env.memoryNow key opts
      else d.read DiskCache.assembleValue env.diskNow key opts) := by
  rw [Views.read, Views.fromMemory, Views.fromDisk, hm, hd]
  cases w.config.cluster.preferLocal with
  | false => simp [hsettles]
  | true =>
    cases hmem : settles opts (m.read MemoryCache.assembleValue env.memoryNow key opts) with
    | true => simp [hmem]
    | false => simp [hmem, hsettles]

/-- A read of the value of the most recent put of its key, with no cluster: the range starts inside
the value, and the disk level holds every chunk it needs. -/
structure DiskServes (H : ByteBuffer → Hash128) (s : CacheCoordinator × History) (env : ReadEnv)
    (key : CacheKey) (p : PutCall) (r : Range) : Prop where
  last : s.2 key = some p
  local_only : env.cluster = none
  length : 1 ≤ r.length
  inside : r.offset < p.value.bytes.length
  held : ∀ d, s.1.disk = some d → ∀ i ∈ neededChunks p.value.bytes.length (some r),
    d.view.holds H p.value.bytes i = true

/-- The memory level holds every chunk the range needs of the value. -/
def MemoryHolds (H : ByteBuffer → Hash128) (c : CacheCoordinator) (v : ByteBuffer) (r : Range) :
    Prop :=
  ∀ m, c.memory = some m → ∀ i ∈ neededChunks v.length (some r), m.view.holds H v i = true

/-- If the memory level settles a read, its answer is the answer, and its state is all that changes:
the disk level is not asked. -/
theorem run_get_of_memory {c : CacheCoordinator} {m : MemoryCache} (hm : c.memory = some m)
    (hpref : c.config.cluster.preferLocal = true) {env : ReadEnv} {key : CacheKey}
    (hsettles : settles opts ((MemoryCache.get env.memoryNow key opts).run m).1 = true) :
    (get H env key opts).run c = (((MemoryCache.get env.memoryNow key opts).run m).1,
      { c with memory := some ((MemoryCache.get env.memoryNow key opts).run m).2 }) := by
  have hread : (readMemory env.memoryNow key opts).run c =
      (some ((MemoryCache.get env.memoryNow key opts).run m).1,
        { c with memory := some ((MemoryCache.get env.memoryNow key opts).run m).2 }) := by
    rw [readMemory, Prog.run_atomic, hpref, if_pos rfl, run_onMemory, hm]
    rfl
  rw [get, Prog.run_bind, hread]
  simp only [Option.filter_some, hsettles, if_true, Prog.run_pure]

/-- A read of the range that takes partial results is the memory level's own: its answer is the
memory level's, a partial hit, and the state of the memory level is all it changes, so the disk
level was not asked. If the memory level holds none of the needed chunks, the answer has no data. -/
def PartialFromMemory (H : ByteBuffer → Hash128) (c : CacheCoordinator) (env : ReadEnv)
    (key : CacheKey) (v : ByteBuffer) (r : Range) : Prop :=
  let opts : ReadOptions := { allowPartial := true, range := some r }
  ∃ m, c.memory = some m ∧
    (get H env key opts).run c = (((MemoryCache.get env.memoryNow key opts).run m).1,
      { c with memory := some ((MemoryCache.get env.memoryNow key opts).run m).2 }) ∧
    ((MemoryCache.get env.memoryNow key opts).run m).1.isPartial = true ∧
    ((∀ i ∈ neededChunks v.length (some r), m.view.holds H v i = false) →
      ((MemoryCache.get env.memoryNow key opts).run m).1.data = [])

section
variable {config : Config} {env : ReadEnv} {key : CacheKey} {p : PutCall} {r : Range}

/-- What the two levels answer to a read the disk level can serve, and which answer is returned. -/
theorem Mirrors.answers (hs : Mirrors H K config s) (hinj : Set.InjOn H K)
    (hserves : DiskServes H s env key p r) (allowPartial : Bool) :
    ∃ m am ad, s.1.memory = some m ∧
      ((MemoryCache.get env.memoryNow key
        { allowPartial := allowPartial, range := some r }).run m).1 = am ∧
      ((CacheCoordinator.get H env key
        { allowPartial := allowPartial, range := some r }).run s.1).1 =
        (if config.cluster.preferLocal &&
            settles { allowPartial := allowPartial, range := some r } am then am else ad) ∧
      (ad.isHit = true ∧ ad.data = slice p.value.bytes r.offset
        (min (r.offset + r.length) p.value.bytes.length)) ∧
      (if (neededChunks p.value.bytes.length (some r)).all (m.view.holds H p.value.bytes) then
        am.isHit = true ∧ am.data = slice p.value.bytes r.offset
          (min (r.offset + r.length) p.value.bytes.length)
      else if allowPartial then am.isPartial = true ∧ am.data = MemoryCache.assembleValue
          ((neededChunks p.value.bytes.length (some r)).map
            (held (m.view.holds H p.value.bytes) p.value.bytes))
          ⟨r.offset, min r.length (p.value.bytes.length - r.offset)⟩
      else am = { result := .miss }) := by
  obtain ⟨hlast, hlocal, hlen, ho, hheld⟩ := hserves
  have hchunks := hs.history key p hlast
  obtain ⟨hmcons, hdcons⟩ := hs.inv.consistent
  obtain ⟨wd, hwd, hdkeeps⟩ := hs.disk_keeps
  obtain ⟨wm, hwm, hmkeeps⟩ := hs.memory_keeps
  obtain ⟨dd, hdd, hstandsd⟩ := hdkeeps.stands (hs.disk wd hwd) hlast
  obtain ⟨dm, hdm, hstandsm⟩ := hmkeeps.stands (hs.memory wm hwm) hlast
  have hansd := read_level DiskCache.exactAssembly
    ((hdcons wd hwd).serves hinj hchunks) hdd hstandsd env.diskNow hlen ho allowPartial
  have hansm := read_level MemoryCache.exactAssembly ((hmcons wm hwm).serves hinj hchunks) hdm
    hstandsm env.memoryNow hlen ho allowPartial
  have hall : (neededChunks p.value.bytes.length (some r)).all (wd.holds H p.value.bytes) =
      true := by
    obtain ⟨d, hd, rfl⟩ := Option.map_eq_some_iff.1 hwd
    exact List.all_eq_true.2 (hheld d hd)
  rw [hall] at hansd
  obtain ⟨m, hm, rfl⟩ := Option.map_eq_some_iff.1 hwm
  refine ⟨m, _, _, hm, ?_, ?_, hansd, hansm⟩
  · exact (MemoryCache.observes_get env.memoryNow key _ m (hs.inv.memory m hm)).1
  · rw [run_get hs.inv hlocal, read_views hwm hwd (settles_hit hansd.1), Option.getD_some,
      show s.1.views.config = config from hs.config_eq]

/-- The read is a hit, if the memory level cannot answer with a partial one. -/
theorem Mirrors.hit (hs : Mirrors H K config s) (hinj : Set.InjOn H K)
    (hserves : DiskServes H s env key p r) {allowPartial : Bool}
    (hcases : allowPartial = false ∨ config.cluster.preferLocal = false ∨
      MemoryHolds H s.1 p.value.bytes r) :
    let result := ((CacheCoordinator.get H env key
      { allowPartial := allowPartial, range := some r }).run s.1).1
    result.isHit = true ∧ result.data = slice p.value.bytes r.offset
      (min (r.offset + r.length) p.value.bytes.length) := by
  obtain ⟨m, am, ad, hm, -, hrun, hansd, hansm⟩ := hs.answers hinj hserves allowPartial
  simp only [hrun]
  split
  · next hmemory =>
    rw [Bool.and_eq_true] at hmemory
    cases hallm : (neededChunks p.value.bytes.length (some r)).all
        (m.view.holds H p.value.bytes) with
    | true =>
      rw [hallm] at hansm
      exact hansm
    | false =>
      -- the memory level has not all chunks, so its answer settles only a partial read
      rw [hallm] at hansm
      rcases hcases with hap | hpref | hheld
      · rw [hap] at hansm hmemory
        simp only [Bool.false_eq_true, if_false] at hansm
        rw [hansm] at hmemory
        cases hmemory.2
      · rw [hpref] at hmemory
        cases hmemory.1
      · rw [List.all_eq_true.2 (hheld m hm)] at hallm
        cases hallm
  · exact hansd

/-- The read is the memory level's own read, if the memory level answers with a partial hit. -/
theorem Mirrors.partialHit (hs : Mirrors H K config s) (hinj : Set.InjOn H K)
    (hserves : DiskServes H s env key p r) (hpref : config.cluster.preferLocal = true)
    (hlost : ¬ MemoryHolds H s.1 p.value.bytes r) :
    PartialFromMemory H s.1 env key p.value.bytes r := by
  obtain ⟨m, am, ad, hm, ham, -, -, hansm⟩ := hs.answers hinj hserves true
  have hallm : (neededChunks p.value.bytes.length (some r)).all
      (m.view.holds H p.value.bytes) = false := by
    rw [Bool.eq_false_iff]
    intro hall
    refine hlost fun m' hm' i hi => ?_
    rw [hm] at hm'
    cases hm'
    exact List.all_eq_true.1 hall i hi
  rw [hallm] at hansm
  simp only [Bool.false_eq_true, if_false, if_true] at hansm
  subst ham
  refine ⟨m, hm, run_get_of_memory hm (hs.config_eq ▸ hpref) ?_, hansm.1, fun hnone => ?_⟩
  · rw [settles, hansm.1, Bool.true_and, Bool.or_true]
  · rw [hansm.2]
    refine assembleLoop_of_none (fun chunk hchunk => ?_) _ _ _
    obtain ⟨i, hi, rfl⟩ := List.mem_map.1 hchunk
    rw [held, hnone i hi]
    rfl

end

/-- After a run of plain calls with default options, with both levels enabled, and for a read the
disk level can serve: it is a hit with exactly the requested bytes, if it takes no partial results,
if `prefer_local` is off, or if the memory level holds all needed chunks as well; and otherwise it
is the memory level's partial hit. -/
theorem reads_complete (H : ByteBuffer → Hash128) (config : Config)
    (hmem : 0 < config.memory.maxSize) (hdisk : 0 < config.disk.maxSize) (calls : List Call)
    (hplain : ∀ call ∈ calls, call.Plain) (hdefault : ∀ call ∈ calls, call.Default)
    (hinj : Set.InjOn H (runChunks calls)) {env : ReadEnv} {key : CacheKey} {p : PutCall}
    {r : Range} (hserves : DiskServes H (after H config calls) env key p r) (allowPartial : Bool) :
    let s := (after H config calls).1
    let result := ((get H env key { allowPartial := allowPartial, range := some r }).run s).1
    (allowPartial = false ∨ config.cluster.preferLocal = false ∨
        MemoryHolds H s p.value.bytes r →
      result.isHit = true ∧ result.data = slice p.value.bytes r.offset
        (min (r.offset + r.length) p.value.bytes.length)) ∧
    (allowPartial = true → config.cluster.preferLocal = true →
      ¬ MemoryHolds H s p.value.bytes r → PartialFromMemory H s env key p.value.bytes r) := by
  have hs := mirrors_after (H := H) hmem hdisk hplain hdefault
  exact ⟨fun hcases => hs.hit hinj hserves hcases,
    fun _ hpref hlost => hs.partialHit hinj hserves hpref hlost⟩

/-- The state after one put that the memory level accepts. -/
theorem after_put {config : Config} (hmem : 0 < config.memory.maxSize)
    (hdisk : 0 < config.disk.maxSize) {p : PutCall} (henv : p.env.Clean) (hopts : p.opts = {})
    (hacc : MemoryCache.Accepts p.memoryPut) :
    after H config [.put p] = (⟨config,
      some ((MemoryCache.put H p.memoryPut).run (.init config.memory)).2,
      some ((DiskCache.put H p.env p.diskPut).run { config := config.disk }).2⟩,
        Function.update (fun _ => none) p.key (some p)) := by
  rw [after, runOps_cons, runOps_nil,
    (mirrors_init (H := H) (K := Set.univ) hmem hdisk).exec_put henv hopts hacc]
  simp only [putMemory, putDisk, init, hopts, hmem, hdisk, Bool.false_eq_true, if_false, if_true,
    Option.map_some]

/-! ## A value larger than the memory level -/

/-- A valid configuration with a memory level of one chunk, and a put, with default options and no
write failure, of a chunk of zeros followed by a one. -/
structure Large (config : Config) (p : PutCall) : Prop where
  valid : config.validate = .makeOk
  maxSize : config.memory.maxSize = chunkSize
  disk : 0 < config.disk.maxSize
  preferLocal : config.cluster.preferLocal = true
  value : p.value.bytes = markedValue (chunkSize + 1) (· == 1)
  opts : p.opts = {}
  clean : p.env.Clean
  accepts : MemoryCache.Accepts p.memoryPut

theorem exists_large : ∃ config p, Large config p := by
  have hsize : chunkSize + 1 ≤ maxValueSize :=
    (Nat.add_le_add_left chunkSize_pos _).trans
      ((Nat.two_mul chunkSize).symm.trans_le (mul_chunkSize_le (by decide)))
  have hlt : (markedValue (chunkSize + 1) (· == 1)).length < 2 ^ 64 := by
    rw [length_markedValue]
    exact hsize.trans_lt maxValueSize_lt
  refine ⟨{ memory := { maxSize := chunkSize } },
    ⟨0, 0, { tick := fun _ => 0 }, ⟨[]⟩, ⟨markedValue (chunkSize + 1) (· == 1), hlt⟩, {}⟩,
    by decide +kernel, rfl, by decide, rfl, rfl, rfl, ⟨fun _ => rfl, rfl⟩, Nat.zero_le _, ?_⟩
  show (markedValue (chunkSize + 1) (· == 1)).length ≤ maxValueSize
  rw [length_markedValue]
  exact hsize

namespace Large

variable {config : Config} {p : PutCall} (hl : Large config p)

include hl

theorem memory : 0 < config.memory.maxSize := hl.maxSize.symm ▸ chunkSize_pos

theorem length_eq : p.value.bytes.length = chunkSize + 1 := by rw [hl.value, length_markedValue]

/-- The first chunk has zeros only. -/
theorem blocks_eq : ∃ b, block chunkSize p.value.bytes 0 = b ∧ b.length = chunkSize ∧
    (1 : UInt8) ∉ b ∧ block chunkSize p.value.bytes 1 = [1] := by
  have hfirst := block_markedValue (n := chunkSize + 1) (S := (· == 1)) 0
  have hsecond := block_markedValue (n := chunkSize + 1) (S := (· == 1)) 1
  rw [Nat.zero_mul, Nat.sub_zero, Nat.min_eq_left (Nat.le_succ _), ← hl.value] at hfirst
  rw [Nat.one_mul, Nat.add_sub_cancel_left, Nat.min_eq_right chunkSize_pos, ← hl.value] at hsecond
  refine ⟨_, hfirst, List.length_replicate, fun h => ?_, hsecond⟩
  exact absurd (List.eq_of_mem_replicate h) (by decide)

/-- The two chunks of the value. -/
theorem splitValue_eq {b : ByteBuffer} (hfirst : block chunkSize p.value.bytes 0 = b)
    (hsecond : block chunkSize p.value.bytes 1 = [1]) :
    splitValue p.value.bytes = [⟨b⟩] ++ [⟨[1]⟩] := by
  have hcount : blockCount chunkSize p.value.bytes.length = 2 := by
    have hpos := chunkSize_pos
    have h1 : 1 < blockCount chunkSize (chunkSize + 1) := (lt_blockCount hpos).2 (by omega)
    have h2 : ¬ 2 < blockCount chunkSize (chunkSize + 1) := fun h => by
      have := (lt_blockCount hpos).1 h
      omega
    rw [hl.length_eq]
    omega
  rw [ElCache.splitValue_eq, blocks, hcount]
  simp only [List.range_succ, List.range_zero, List.nil_append, List.map_append, List.map_cons,
    List.map_nil, hfirst, hsecond]

theorem injOn_chunks : Set.InjOn sampleHash p.memoryPut.chunks := by
  rw [Put.chunks, show p.memoryPut.value.bytes = _ from hl.value]
  exact injOn_sampleHash _ _

theorem injOn_runChunks : Set.InjOn sampleHash (runChunks [.put p]) := by
  rintro a ⟨_, ha, ha'⟩ b ⟨_, hb, hb'⟩ hab
  rw [List.mem_singleton] at ha hb
  subst ha
  subst hb
  exact hl.injOn_chunks ha' hb' hab

/-- The memory level has lost the first chunk of the value: it holds the second, and with both it
would be over its budget. -/
theorem lookup_first {b : ByteBuffer} (hfirst : block chunkSize p.value.bytes 0 = b)
    (hlen : b.length = chunkSize) (hone : (1 : UInt8) ∉ b)
    (hsecond : block chunkSize p.value.bytes 1 = [1]) {m : MemoryCache}
    (hm : ((MemoryCache.put sampleHash p.memoryPut).run (.init config.memory)).2 = m) :
    (m.chunkCache.lookup (Chunk.id sampleHash ⟨b⟩)).isSome = false := by
  have hinj := hl.injOn_chunks
  have hsplit := hl.splitValue_eq hfirst hsecond
  have hstep : ∀ m m', m.Budget sampleHash p.memoryPut.chunks {p.memoryPut} config.memory.maxSize →
      MemoryCache.Step sampleHash p.memoryPut.chunks {p.memoryPut} m m' →
      m'.Budget sampleHash p.memoryPut.chunks {p.memoryPut} config.memory.maxSize :=
    fun m m' h hstep => h.step hinj
      (fun b hb => (MemoryCache.length_le_of_mem_chunks hb).trans_eq hl.maxSize.symm) hstep
  have hbudget : m.Budget sampleHash p.memoryPut.chunks {p.memoryPut} config.memory.maxSize := by
    rw [← hm]
    exact (((MemoryCache.steps_put (Set.mem_singleton _) subset_rfl).safe hstep).run
      (MemoryCache.budget_init config.memory)).1
  have hlast : m.chunkCache.lookup (Chunk.id sampleHash ⟨[1]⟩) = some ⟨[1]⟩ := by
    rw [← hm]
    exact MemoryCache.run_put_last (ARCCache.inv_empty _ _) hl.accepts hsplit
  have hmem : b ∈ p.memoryPut.chunks := by
    refine MemoryCache.data_mem_of_mem_splitValue (c := ⟨b⟩) ?_
    show (⟨b⟩ : Chunk) ∈ splitValue p.value.bytes
    rw [hsplit]
    exact List.mem_cons_self
  have hne : (⟨[1]⟩ : Chunk) ≠ ⟨b⟩ := by
    intro h
    rw [Chunk.mk.injEq] at h
    exact hone (h ▸ List.mem_cons_self)
  have hover : config.memory.maxSize < Chunk.size ⟨[1]⟩ + Chunk.size ⟨b⟩ := by
    rw [hl.maxSize, ← hlen]
    simp only [Chunk.size, List.length_cons, List.length_nil]
    omega
  cases hlook : m.chunkCache.lookup (Chunk.id sampleHash ⟨b⟩) with
  | none => rfl
  | some x =>
    have hx := hbudget.inv.eq_of_lookup hinj hmem hlook
    rw [hx] at hlook
    exact absurd hlook (hbudget.not_both hne hover hlast)

/-- The disk level can serve the whole value. -/
theorem diskServes : DiskServes H (after H config [.put p]) ⟨0, 0, 0, none⟩ p.key p
    ⟨0, chunkSize + 1⟩ := by
  rw [after_put hl.memory hl.disk hl.clean hl.opts hl.accepts]
  have hpos : 0 < p.value.bytes.length := by
    rw [hl.length_eq]
    exact Nat.succ_pos _
  refine ⟨Function.update_self p.key (some p) fun _ => none, rfl, Nat.le_add_left 1 chunkSize, hpos,
    fun d hd i hi => ?_⟩
  have hheld := (DiskCache.run_put (H := H) hl.clean (p := p.diskPut) hl.accepts.1
    { config := config.disk }).2.2.2
  have hi' : i < blockCount chunkSize p.value.bytes.length := by
    simp only [neededChunks, Option.getD_some] at hi
    exact lt_blockCount_of_mem_touched (by omega) (by omega) hi
  have hsplit : (⟨block chunkSize p.value.bytes i⟩ : Chunk) ∈ splitValue p.value.bytes := by
    rw [ElCache.splitValue_eq]
    exact List.mem_map_of_mem (mem_blocks.2 ⟨i, hi', rfl⟩)
  have hsome := hheld _ hsplit
  rw [Chunk.id_mk] at hsome
  rw [LevelView.holds, ← Option.some.inj hd]
  exact hsome

/-- The first chunk is needed for the whole value and no longer held. -/
theorem not_memoryHolds : ¬ MemoryHolds sampleHash (after sampleHash config [.put p]).1
    p.value.bytes ⟨0, chunkSize + 1⟩ := by
  have hpos := chunkSize_pos
  have hneeded : 0 ∈ neededChunks (chunkSize + 1) (some ⟨0, chunkSize + 1⟩) := by
    simp only [neededChunks, Option.getD_some, Nat.sub_zero, Nat.min_self, Nat.zero_add]
    refine (mem_touched hpos (Nat.succ_pos _)).2 ⟨?_, Nat.mul_pos Nat.one_pos hpos⟩
    omega
  obtain ⟨b, hfirst, hb, hone, hsecond⟩ := hl.blocks_eq
  have hlost := hl.lookup_first hfirst hb hone hsecond rfl
  rw [after_put hl.memory hl.disk hl.clean hl.opts hl.accepts, MemoryHolds, hl.length_eq]
  intro hholds
  have hheld := hholds _ rfl 0 hneeded
  rw [LevelView.holds, hfirst, ← Chunk.id_mk] at hheld
  exact Bool.false_ne_true (hlost.symm.trans hheld)

theorem plain : ∀ call ∈ [Call.put p], call.Plain := by
  intro call hcall
  rw [List.mem_singleton.1 hcall]
  exact hl.clean

theorem default : ∀ call ∈ [Call.put p], call.Default := by
  intro call hcall
  rw [List.mem_singleton.1 hcall]
  exact hl.opts

end Large

/-- A value of one chunk and one byte in a memory level of one chunk, which has lost its first
chunk. A read of the whole value that takes no partial results gets all its bytes from the disk
level. One that takes them is the memory level's. -/
theorem reads_complete_evicted : ∃ (config : Config) (p : PutCall) (env : ReadEnv) (r : Range),
    let s := (after sampleHash config [.put p]).1
    let read := fun allowPartial =>
      ((get sampleHash env p.key { allowPartial := allowPartial, range := some r }).run s).1
    ¬ MemoryHolds sampleHash s p.value.bytes r ∧
      ((read false).isHit = true ∧ (read false).data =
        slice p.value.bytes r.offset (min (r.offset + r.length) p.value.bytes.length)) ∧
      PartialFromMemory sampleHash s env p.key p.value.bytes r := by
  obtain ⟨config, p, hl⟩ := exists_large
  refine ⟨config, p, ⟨0, 0, 0, none⟩, ⟨0, chunkSize + 1⟩, hl.not_memoryHolds, ?_, ?_⟩
  · exact (reads_complete sampleHash config hl.memory hl.disk [.put p] hl.plain hl.default
      hl.injOn_runChunks hl.diskServes false).1 (.inl rfl)
  · exact (reads_complete sampleHash config hl.memory hl.disk [.put p] hl.plain hl.default
      hl.injOn_runChunks hl.diskServes true).2 rfl hl.preferLocal hl.not_memoryHolds

/-- With a memory level of one chunk, in a valid configuration, a value of one chunk and one byte is
put, and the disk level can serve all of it. A read that takes partial results is no hit. -/
theorem reads_incomplete_large : ∃ (config : Config) (p : PutCall) (env : ReadEnv) (r : Range),
    config.validate = .makeOk ∧ 0 < config.memory.maxSize ∧ 0 < config.disk.maxSize ∧
    (Call.put p).Plain ∧ (Call.put p).Default ∧
    Set.InjOn sampleHash (runChunks [.put p]) ∧
    DiskServes sampleHash (after sampleHash config [.put p]) env p.key p r ∧
    ((get sampleHash env p.key { allowPartial := true, range := some r }).run
      (after sampleHash config [.put p]).1).1.isHit = false := by
  obtain ⟨config, p, hl⟩ := exists_large
  refine ⟨config, p, ⟨0, 0, 0, none⟩, ⟨0, chunkSize + 1⟩, hl.valid, hl.memory, hl.disk, hl.clean,
    hl.opts, hl.injOn_runChunks, hl.diskServes, ?_⟩
  have hs := mirrors_after (H := sampleHash) hl.memory hl.disk hl.plain hl.default
  obtain ⟨m, -, hrun, hpartial, -⟩ := hs.partialHit hl.injOn_runChunks hl.diskServes hl.preferLocal
    hl.not_memoryHolds
  rw [hrun]
  rw [ReadResult.isPartial, decide_eq_true_eq] at hpartial
  rw [ReadResult.isHit, hpartial]
  rfl

end CacheCoordinator

end ElCache
