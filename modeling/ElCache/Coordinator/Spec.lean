import ElCache.Coordinator.Cache
import ElCache.Memory.Spec
import ElCache.Disk.Spec

/-!
# What the coordinator does

Without a cluster, `get` is a function of what the levels hold and leaves it alone (`observes_get`):
the first level whose answer settles the read decides. A put either fails and changes nothing, or
puts into each level it does not skip (`run_put`), when no disk write fails. Each of the three calls
keeps the invariants of the levels (`Inv.put`, `observes_get`, `Inv.remove`).
-/

namespace ElCache

namespace CacheCoordinator

variable {p : PutCall} {env : ReadEnv}

/-- What the levels hold. -/
structure Views where
  config : Config
  memory : Option LevelView
  disk : Option LevelView

/-- What the levels of a coordinator hold. -/
def views (c : CacheCoordinator) : Views :=
  ⟨c.config, c.memory.map MemoryCache.view, c.disk.map DiskCache.view⟩

namespace Views

/-- The answer of the memory level, if it is asked. -/
def fromMemory (w : Views) (now : Timestamp) (key : CacheKey) (opts : ReadOptions) :
    Option ReadResult :=
  if w.config.cluster.preferLocal then
    w.memory.map fun m => m.read MemoryCache.assembleValue now key opts
  else none

/-- The answer of the disk level, if it is asked. -/
def fromDisk (w : Views) (now : Timestamp) (key : CacheKey) (opts : ReadOptions) :
    Option ReadResult :=
  w.disk.map fun d => d.read DiskCache.assembleValue now key opts

/-- What the levels answer to `get`, if the read is settled there. -/
def read (w : Views) (env : ReadEnv) (key : CacheKey) (opts : ReadOptions) : Option ReadResult :=
  ((w.fromMemory env.memoryNow key opts).filter (settles opts)).or
    ((w.fromDisk env.diskNow key opts).filter (settles opts))

end Views

/-- The invariants of the levels. -/
structure Inv (H : ByteBuffer → Hash128) (K : Set ByteBuffer) (P : Set Put)
    (c : CacheCoordinator) : Prop where
  memory : ∀ m, c.memory = some m → m.Inv H K P
  disk : ∀ d, c.disk = some d → d.Inv H K P

variable {H : ByteBuffer → Hash128} {K : Set ByteBuffer} {P : Set Put} {c : CacheCoordinator}

theorem memory_init {config : Config} {m : MemoryCache} (hm : (init config).memory = some m) :
    m = .init config.memory := by
  simp only [init] at hm
  split at hm
  · exact (Option.some.inj hm).symm
  · cases hm

theorem disk_init {config : Config} {d : DiskCache} (hd : (init config).disk = some d) :
    d = { config := config.disk } := by
  simp only [init] at hd
  split at hd
  · exact (Option.some.inj hd).symm
  · cases hd

theorem inv_init (config : Config) : (init config).Inv H K P := by
  refine ⟨fun m hm => ?_, fun d hd => ?_⟩
  · rw [memory_init hm]
    exact MemoryCache.inv_init _
  · rw [disk_init hd]
    exact DiskCache.inv_init _

/-! ## One operation of a level -/

theorem run_onMemory {α : Type} (p : Prog MemoryCache α) (c : CacheCoordinator) :
    (onMemory p).run c = (c.memory.map fun m => (p.run m).1,
      { c with memory := c.memory.map fun m => (p.run m).2 }) := by
  obtain ⟨config, memory, disk⟩ := c
  cases memory with
  | none => rfl
  | some m => rfl

theorem run_onDisk {α : Type} (p : Prog DiskCache α) (c : CacheCoordinator) :
    (onDisk p).run c = (c.disk.map fun d => (p.run d).1,
      { c with disk := c.disk.map fun d => (p.run d).2 }) := by
  obtain ⟨config, memory, disk⟩ := c
  cases disk with
  | none => rfl
  | some d => rfl

/-- A step of the memory level that keeps its invariant. -/
theorem Inv.onMemory {α : Type} {p : Prog MemoryCache α} (hc : c.Inv H K P)
    (hp : ∀ m, m.Inv H K P → (p.run m).2.Inv H K P) : ((onMemory p).run c).2.Inv H K P := by
  rw [run_onMemory]
  refine ⟨fun m hm => ?_, hc.disk⟩
  obtain ⟨m', hm', rfl⟩ := Option.map_eq_some_iff.1 hm
  exact hp m' (hc.memory m' hm')

/-- A step of the disk level that keeps its invariant. -/
theorem Inv.onDisk {α : Type} {p : Prog DiskCache α} (hc : c.Inv H K P)
    (hp : ∀ d, d.Inv H K P → (p.run d).2.Inv H K P) : ((onDisk p).run c).2.Inv H K P := by
  rw [run_onDisk]
  refine ⟨hc.memory, fun d hd => ?_⟩
  obtain ⟨d', hd', rfl⟩ := Option.map_eq_some_iff.1 hd
  exact hp d' (hc.disk d' hd')

/-- What the memory level only looks at, the coordinator only looks at. -/
theorem observes_onMemory {α : Type} {p : Prog MemoryCache α} {f : LevelView → α}
    (hp : Observes (MemoryCache.Inv H K P) MemoryCache.view p f) :
    Observes (Inv H K P) views (onMemory p) fun w => w.memory.map f := by
  intro c hc
  refine ⟨?_, ?_, hc.onMemory fun m hm => (hp m hm).2.2⟩
  · rw [run_onMemory]
    cases hm : c.memory with
    | none => simp [views, hm]
    | some m => simp [views, hm, (hp m (hc.memory m hm)).1]
  · rw [run_onMemory]
    cases hm : c.memory with
    | none => simp [views, hm]
    | some m => simp [views, hm, (hp m (hc.memory m hm)).2.1]

/-- What the disk level only looks at, the coordinator only looks at. -/
theorem observes_onDisk {α : Type} {p : Prog DiskCache α} {f : LevelView → α}
    (hp : Observes (DiskCache.Inv H K P) DiskCache.view p f) :
    Observes (Inv H K P) views (onDisk p) fun w => w.disk.map f := by
  intro c hc
  refine ⟨?_, ?_, hc.onDisk fun d hd => (hp d hd).2.2⟩
  · rw [run_onDisk]
    cases hd : c.disk with
    | none => simp [views, hd]
    | some d => simp [views, hd, (hp d (hc.disk d hd)).1]
  · rw [run_onDisk]
    cases hd : c.disk with
    | none => simp [views, hd]
    | some d => simp [views, hd, (hp d (hc.disk d hd)).2.1]

/-! ## get -/

/-- What the memory level answers depends on its view only. -/
theorem observes_readMemory (now : Timestamp) (key : CacheKey) (opts : ReadOptions) :
    Observes (Inv H K P) views (readMemory now key opts)
      fun w => w.fromMemory now key opts := by
  intro c hc
  have hon := observes_onMemory (MemoryCache.observes_get now key opts) c hc
  cases hpref : c.config.cluster.preferLocal with
  | true =>
    have hw : c.views.config.cluster.preferLocal = true := hpref
    rw [readMemory, Prog.run_atomic, hpref]
    simp only [Views.fromMemory, hw, if_true]
    exact hon
  | false =>
    have hw : c.views.config.cluster.preferLocal = false := hpref
    rw [readMemory, Prog.run_atomic, hpref]
    simp only [Views.fromMemory, hw]
    exact ⟨rfl, rfl, hc⟩

theorem observes_readDisk (now : Timestamp) (key : CacheKey) (opts : ReadOptions) :
    Observes (Inv H K P) views (onDisk (DiskCache.get now key opts))
      fun w => w.fromDisk now key opts :=
  observes_onDisk (DiskCache.observes_get _ now key opts)

/-- Without a cluster, the last part of `get` finds nothing. -/
theorem observes_readCluster (henv : env.cluster = none) (key : CacheKey) (opts : ReadOptions) :
    Observes (Inv H K P) views (readCluster H env key opts)
      fun _ => none := by
  intro c hc
  rw [readCluster, henv]
  exact ⟨rfl, rfl, hc⟩

/-- Without a cluster, `get` returns the answer of the first level that settles the read, and a miss
if none does. -/
theorem observes_get (henv : env.cluster = none) (key : CacheKey) (opts : ReadOptions) :
    Observes (Inv H K P) views (get H env key opts)
      fun w => (w.read env key opts).getD { result := .miss } := by
  unfold get
  refine Observes.bind (observes_readMemory env.memoryNow key opts)
    (g := fun found w => ((found.filter (settles opts)).or
      ((w.fromDisk env.diskNow key opts).filter (settles opts))).getD { result := .miss })
    fun found => ?_
  cases found.filter (settles opts) with
  | some result => exact observes_pure result
  | none =>
    refine Observes.bind (observes_readDisk env.diskNow key opts)
      (g := fun found _ => (found.filter (settles opts)).getD { result := .miss }) fun found => ?_
    cases found.filter (settles opts) with
    | some result => exact observes_pure result
    | none =>
      refine Observes.bind (observes_readCluster henv key opts)
        (g := fun found _ => (found.filter (settles opts)).getD { result := .miss })
        fun found => ?_
      cases found.filter (settles opts) with
      | some result => exact observes_pure result
      | none => exact observes_pure _

/-- What `get` returns without a cluster. -/
theorem run_get (hc : c.Inv H K P) (henv : env.cluster = none) (key : CacheKey)
    (opts : ReadOptions) :
    ((get H env key opts).run c).1 = (c.views.read env key opts).getD { result := .miss } :=
  (observes_get henv key opts c hc).1

/-! ## put and remove -/

/-- The memory level after a put. -/
def putMemory (H : ByteBuffer → Hash128) (p : PutCall) (c : CacheCoordinator) :
    Option MemoryCache :=
  if p.opts.noMemory then c.memory
  else c.memory.map fun m => ((MemoryCache.put H p.memoryPut).run m).2

/-- The disk level after a put. -/
def putDisk (H : ByteBuffer → Hash128) (p : PutCall) (c : CacheCoordinator) : Option DiskCache :=
  if p.opts.noDisk then c.disk
  else c.disk.map fun d => ((DiskCache.put H p.env p.diskPut).run d).2

/-- The memory step of a put is skipped, succeeds, or fails and changes nothing. -/
theorem run_putMemory (hc : c.Inv H K P) (p : PutCall) {r : Option Status × CacheCoordinator}
    (hr : (putToMemory H p).run c = r) :
    (r = (none, c) ∧ putMemory H p c = c.memory ∧ (p.opts.noMemory = true ∨ c.memory = none)) ∨
    (r = (some .makeOk, { c with memory := putMemory H p c }) ∧ p.opts.noMemory = false ∧
      MemoryCache.Accepts p.memoryPut) ∨
    ∃ status, r = (some status, c) ∧ status.isOk = false ∧
      ¬ MemoryCache.Accepts p.memoryPut := by
  subst hr
  rw [putMemory, putToMemory]
  cases hno : p.opts.noMemory with
  | true => exact .inl ⟨rfl, rfl, .inl rfl⟩
  | false =>
    rw [if_neg Bool.false_ne_true, if_neg Bool.false_ne_true, run_onMemory]
    obtain ⟨config, memory, disk⟩ := c
    cases memory with
    | none => exact .inl ⟨rfl, rfl, .inr rfl⟩
    | some m =>
      by_cases hacc : MemoryCache.Accepts p.memoryPut
      · refine .inr (.inl ⟨?_, rfl, hacc⟩)
        simp only [Option.map_some, (MemoryCache.run_put (hc.memory m rfl).arc hacc).1]
      · refine .inr (.inr ⟨_, ?_, (MemoryCache.run_put_rejected (H := H) (m := m) hacc).1, hacc⟩)
        simp only [Option.map_some, (MemoryCache.run_put_rejected hacc).2]

/-- The disk step of a put is skipped, succeeds, or fails and changes nothing. -/
theorem run_putDisk (henv : p.env.Clean) (c : CacheCoordinator)
    {r : Option Status × CacheCoordinator} (hr : (putToDisk H p).run c = r) :
    (r = (none, c) ∧ putDisk H p c = c.disk ∧ (p.opts.noDisk = true ∨ c.disk = none)) ∨
    (r = (some .makeOk, { c with disk := putDisk H p c }) ∧ p.opts.noDisk = false ∧
      p.diskPut.key.size ≤ maxKeySize) ∨
    ∃ status, r = (some status, c) ∧ status.isOk = false ∧ maxKeySize < p.diskPut.key.size := by
  subst hr
  rw [putDisk, putToDisk]
  cases hno : p.opts.noDisk with
  | true => exact .inl ⟨rfl, rfl, .inl rfl⟩
  | false =>
    rw [if_neg Bool.false_ne_true, if_neg Bool.false_ne_true, run_onDisk]
    obtain ⟨config, memory, disk⟩ := c
    cases disk with
    | none => exact .inl ⟨rfl, rfl, .inr rfl⟩
    | some d =>
      rcases Nat.lt_or_ge maxKeySize p.diskPut.key.size with hlt | hle
      · refine .inr (.inr ⟨((DiskCache.put H p.env p.diskPut).run d).1, ?_,
          (DiskCache.run_put_rejected hlt).1, hlt⟩)
        simp only [Option.map_some, (DiskCache.run_put_rejected hlt).2]
      · refine .inr (.inl ⟨?_, rfl, hle⟩)
        simp only [Option.map_some, (DiskCache.run_put henv hle d).1]

/-- A put fails and changes nothing, or it puts into every level it does not skip. It fails only on
arguments a level rejects or if it skips every level. -/
theorem run_put (hc : c.Inv H K P) (henv : p.env.Clean) :
    (((put H p).run c).1.isOk = false ∧ ((put H p).run c).2 = c ∧
      (MemoryCache.Accepts p.memoryPut →
        (p.opts.noMemory = true ∨ c.memory = none) ∧ (p.opts.noDisk = true ∨ c.disk = none))) ∨
    (((put H p).run c).1.isOk = true ∧
      ((put H p).run c).2 = ⟨c.config, putMemory H p c, putDisk H p c⟩ ∧
      (p.opts.noMemory = true ∨ c.memory = none ∨ MemoryCache.Accepts p.memoryPut) ∧
      (p.opts.noDisk = true ∨ c.disk = none ∨ p.diskPut.key.size ≤ maxKeySize)) := by
  rw [put, Prog.run_bind]
  obtain ⟨r, hr⟩ : ∃ r, (putToMemory H p).run c = r := ⟨_, rfl⟩
  rw [hr]
  rcases run_putMemory hc p hr with ⟨rfl, hmem, hskip⟩ | ⟨rfl, hno, hacc⟩ |
    ⟨status, rfl, hbad, hrej⟩
  · simp only [Option.filter_none]
    rw [Prog.run_bind]
    obtain ⟨r, hr⟩ : ∃ r, (putToDisk H p).run c = r := ⟨_, rfl⟩
    rw [hr]
    rcases run_putDisk henv c hr with ⟨rfl, -, hskip'⟩ | ⟨rfl, hno, hkey⟩ |
      ⟨status, rfl, hbad, hlong⟩
    · exact .inl ⟨rfl, rfl, fun _ => ⟨hskip, hskip'⟩⟩
    · refine .inr ⟨rfl, ?_, hskip.imp id .inl, .inr (.inr hkey)⟩
      rw [hmem]
      rfl
    · refine .inl ?_
      simp only [Option.filter_some, hbad, Bool.not_false, if_true]
      exact ⟨hbad, rfl, fun hacc => absurd hacc.1 (Nat.not_le.2 hlong)⟩
  · have hgo : (some Status.makeOk).filter (!·.isOk) = none := rfl
    simp only [hgo]
    rw [Prog.run_bind]
    obtain ⟨r, hr⟩ : ∃ r, (putToDisk H p).run { c with memory := putMemory H p c } = r :=
      ⟨_, rfl⟩
    rw [hr]
    rcases run_putDisk henv _ hr with ⟨rfl, hdisk, hskip⟩ | ⟨rfl, hno', hkey⟩ |
      ⟨status, rfl, -, hlong⟩
    · refine .inr ⟨rfl, ?_, .inr (.inr hacc), hskip.imp id .inl⟩
      rw [show putDisk H p c = c.disk from hdisk]
      rfl
    · exact .inr ⟨rfl, rfl, .inr (.inr hacc), .inr (.inr hkey)⟩
    · -- the memory level has accepted the key
      exact absurd hacc.1 (Nat.not_le.2 hlong)
  · refine .inl ?_
    simp only [Option.filter_some, hbad, Bool.not_false, if_true]
    exact ⟨hbad, rfl, fun hacc => absurd hacc hrej⟩

/-- A put leaves everything as it is, or is taken by every level it does not skip and recorded. -/
theorem exec_put {s : CacheCoordinator × History} (hc : s.1.Inv H K P) (henv : p.env.Clean) :
    (exec H (.put p) s = s ∧ (MemoryCache.Accepts p.memoryPut →
        (p.opts.noMemory = true ∨ s.1.memory = none) ∧
          (p.opts.noDisk = true ∨ s.1.disk = none))) ∨
      (exec H (.put p) s = (⟨s.1.config, putMemory H p s.1, putDisk H p s.1⟩,
          Function.update s.2 p.key (some p)) ∧
        (p.opts.noMemory = true ∨ s.1.memory = none ∨ MemoryCache.Accepts p.memoryPut) ∧
        (p.opts.noDisk = true ∨ s.1.disk = none ∨ p.diskPut.key.size ≤ maxKeySize)) := by
  rcases run_put hc henv with ⟨hbad, hsame, hwhy⟩ | ⟨hok, hnext, hmem, hdisk⟩
  · refine .inl ⟨?_, hwhy⟩
    rw [exec]
    simp only [hbad, hsame, Bool.false_eq_true, if_false]
  · refine .inr ⟨?_, hmem, hdisk⟩
    rw [exec]
    simp only [hok, hnext, if_true]

/-- What the memory level holds after a put: what it held, if it is skipped, or the same with the
descriptor of the put. -/
theorem view_putMemory (hc : c.Inv H K P)
    (hacc : p.opts.noMemory = true ∨ c.memory = none ∨ MemoryCache.Accepts p.memoryPut)
    {w : LevelView} (hw : (putMemory H p c).map MemoryCache.view = some w) :
    (p.opts.noMemory = true ∧ c.views.memory = some w) ∨
      ∃ w₀, c.views.memory = some w₀ ∧
        w.descriptor = Function.update w₀.descriptor p.key (some (p.memoryPut.descriptor H)) := by
  rw [putMemory] at hw
  split at hw
  · next hno => exact .inl ⟨hno, hw⟩
  · next hno =>
    simp only [Option.map_map, Option.map_eq_some_iff] at hw
    obtain ⟨m, hm, rfl⟩ := hw
    have hacc' : MemoryCache.Accepts p.memoryPut := by
      rcases hacc with h | h | h
      · exact absurd h hno
      · rw [h] at hm; cases hm
      · exact h
    refine .inr ⟨m.view, by simp only [views, hm, Option.map_some], ?_⟩
    exact (MemoryCache.run_put (hc.memory m hm).arc hacc').2.1

/-- What the disk level holds after a put. -/
theorem view_putDisk (henv : p.env.Clean)
    (hacc : p.opts.noDisk = true ∨ c.disk = none ∨ p.diskPut.key.size ≤ maxKeySize) {w : LevelView}
    (hw : (putDisk H p c).map DiskCache.view = some w) :
    (p.opts.noDisk = true ∧ c.views.disk = some w) ∨
      ∃ w₀, c.views.disk = some w₀ ∧
        w.descriptor = Function.update w₀.descriptor p.key (some (p.diskPut.descriptor H)) := by
  rw [putDisk] at hw
  split at hw
  · next hno => exact .inl ⟨hno, hw⟩
  · next hno =>
    simp only [Option.map_map, Option.map_eq_some_iff] at hw
    obtain ⟨d, hd, rfl⟩ := hw
    have hacc' : p.diskPut.key.size ≤ maxKeySize := by
      rcases hacc with h | h | h
      · exact absurd h hno
      · rw [h] at hd; cases hd
      · exact h
    refine .inr ⟨d.view, by simp only [views, hd, Option.map_some], ?_⟩
    exact (DiskCache.run_put henv hacc' d).2.1

/-- What `remove` leaves of the levels. -/
theorem run_remove (key : CacheKey) (opts : DeleteOptions) (c : CacheCoordinator) :
    ((remove key opts).run c).2 = ⟨c.config,
      if opts.fromMemory then c.memory.map fun m =>
        ((MemoryCache.remove key).run m).2 else c.memory,
      if opts.fromDisk then c.disk.map fun d => ((DiskCache.remove key).run d).2 else c.disk⟩ := by
  rw [remove, Prog.run_bind, Prog.run_bind, removeFromMemory, removeFromDisk]
  cases opts.fromMemory with
  | true =>
    cases opts.fromDisk with
    | true => simp only [if_true, run_onMemory, run_onDisk, Prog.run_pure]
    | false => simp [run_onMemory]
  | false =>
    cases opts.fromDisk with
    | true => simp [run_onDisk]
    | false => simp

/-! ## Runs -/

/-- A put keeps the invariant in both levels. -/
theorem Inv.put (hc : c.Inv H K P) (henv : p.env.Clean) (hm : p.memoryPut ∈ P) (hd : p.diskPut ∈ P)
    (hK : p.memoryPut.chunks ⊆ K) : ((put H p).run c).2.Inv H K P := by
  rcases run_put hc henv with ⟨-, hsame, -⟩ | ⟨-, hnext, -, -⟩
  · rwa [hsame]
  · rw [hnext]
    refine ⟨fun m hm' => ?_, fun d hd' => ?_⟩
    · simp only [putMemory] at hm'
      split at hm'
      · exact hc.memory m hm'
      · obtain ⟨m₀, hm₀, rfl⟩ := Option.map_eq_some_iff.1 hm'
        exact (((MemoryCache.steps_put hm hK).safe fun _ _ h hstep => h.step hstep).run
          (hc.memory m₀ hm₀)).1
    · simp only [putDisk] at hd'
      split at hd'
      · exact hc.disk d hd'
      · obtain ⟨d₀, hd₀, rfl⟩ := Option.map_eq_some_iff.1 hd'
        exact (hc.disk d₀ hd₀).put henv hd hK

/-- A removal keeps the invariant in both levels. -/
theorem Inv.remove (hc : c.Inv H K P) (key : CacheKey) (opts : DeleteOptions) :
    ((remove key opts).run c).2.Inv H K P := by
  rw [run_remove]
  refine ⟨fun m hm => ?_, fun d hd => ?_⟩
  · simp only at hm
    split at hm
    · obtain ⟨m₀, hm₀, rfl⟩ := Option.map_eq_some_iff.1 hm
      exact (((MemoryCache.steps_remove key).safe fun _ _ h hstep =>
        MemoryCache.Inv.step h hstep).run (hc.memory m₀ hm₀)).1
    · exact hc.memory m hm
  · simp only at hd
    split at hd
    · obtain ⟨d₀, hd₀, rfl⟩ := Option.map_eq_some_iff.1 hd
      exact (hc.disk d₀ hd₀).remove key
    · exact hc.disk d hd

/-- The puts whose chunks are allowed. -/
def allowedPuts (K : Set ByteBuffer) : Set Put := { p | p.chunks ⊆ K }

end CacheCoordinator

end ElCache
