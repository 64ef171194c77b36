import ElCache.Coordinator.Peers

/-!
# What get answers

Whatever was called before, with disk writes that fail and peers that answer anything, the memory
level keeps its invariant (`memoryInv_after`); the disk level needs none to be read. So in every
state that can be reached, `get` returns the answer of the first level or else of the first peer
that settles the read (`run_get_eq`).
-/

namespace ElCache

namespace CacheCoordinator

variable {H : ByteBuffer → Hash128} {c : CacheCoordinator}

/-! ## The memory level along every run -/

/-- The memory level has its invariant, for any chunks and puts. -/
def MemoryInv (H : ByteBuffer → Hash128) (c : CacheCoordinator) : Prop :=
  ∀ m, c.memory = some m → m.Inv H Set.univ Set.univ

/-- A step that keeps the invariant of the memory level. -/
def KeepsMemory (H : ByteBuffer → Hash128) (c c' : CacheCoordinator) : Prop :=
  MemoryInv H c → MemoryInv H c'

theorem keepsMemory_onMemory {α : Type} {p : Prog MemoryCache α}
    (hp : p.Guarantees (MemoryCache.Step H Set.univ Set.univ)) :
    (onMemory p).Guarantees (KeepsMemory H) := by
  refine Prog.guarantees_atomic fun c hc => ?_
  have hrun := run_onMemory p c
  rw [onMemory, Prog.run_atomic] at hrun
  rw [hrun]
  intro m hm
  obtain ⟨m', hm', rfl⟩ := Option.map_eq_some_iff.1 hm
  exact ((hp.safe fun _ _ hm hstep => MemoryCache.Inv.step hm hstep).run (hc m' hm')).1

theorem keepsMemory_onDisk {α : Type} (p : Prog DiskCache α) :
    (onDisk p).Guarantees (KeepsMemory H) := by
  refine Prog.guarantees_atomic fun c hc => ?_
  have hrun := run_onDisk p c
  rw [onDisk, Prog.run_atomic] at hrun
  rw [hrun]
  exact hc

/-- A program that keeps the invariant step by step keeps it as a whole. -/
theorem MemoryInv.run {α : Type} {p : Prog CacheCoordinator α} (hc : MemoryInv H c)
    (hp : p.Guarantees (KeepsMemory H)) : MemoryInv H (p.run c).2 :=
  ((hp.safe fun _ _ h hstep => hstep h).run hc).1

theorem keepsMemory_readMemory (now : Timestamp) (key : CacheKey) (opts : ReadOptions) :
    (readMemory now key opts).Guarantees (KeepsMemory H) := by
  refine Prog.guarantees_atomic fun c hc => ?_
  split
  · exact MemoryInv.run hc (keepsMemory_onMemory (MemoryCache.steps_get now key opts))
  · exact hc

/-- Filling in what peers return keeps the memory level well-formed. -/
theorem keepsMemory_fetchLoop (cluster : ClusterView) (now : Timestamp) (key : CacheKey)
    (opts : ReadOptions) (nodes : List NodeId) (result : ReadResult) :
    (fetchLoop H cluster now key opts nodes result).Guarantees (KeepsMemory H) := by
  induction nodes generalizing result with
  | nil => exact Prog.guarantees_pure _
  | cons node rest ih =>
    rw [fetchLoop]
    split
    · exact ih result
    · dsimp only
      split
      · split
        · exact Prog.guarantees_pure _
        · exact (keepsMemory_onMemory (MemoryCache.steps_put (Set.mem_univ _)
            (Set.subset_univ _))).bind fun _ => Prog.guarantees_pure _
      · split
        · exact Prog.guarantees_pure _
        · exact ih _

theorem keepsMemory_readCluster (env : ReadEnv) (key : CacheKey) (opts : ReadOptions) :
    (readCluster H env key opts).Guarantees (KeepsMemory H) := by
  refine Prog.Guarantees.bind (Prog.guarantees_atomic fun c hc => hc) fun seeds => ?_
  split
  · refine Prog.Guarantees.bind ?_ fun _ => Prog.guarantees_pure _
    cases env.cluster with
    | none => exact Prog.guarantees_pure _
    | some cluster => exact keepsMemory_fetchLoop cluster env.fillNow key opts _ _
  · exact Prog.guarantees_pure _

theorem keepsMemory_get (env : ReadEnv) (key : CacheKey) (opts : ReadOptions) :
    (get H env key opts).Guarantees (KeepsMemory H) := by
  refine (keepsMemory_readMemory env.memoryNow key opts).bind fun found => ?_
  cases found.filter (settles opts) with
  | some result => exact Prog.guarantees_pure _
  | none =>
    refine (keepsMemory_onDisk (DiskCache.get env.diskNow key opts)).bind fun found => ?_
    cases found.filter (settles opts) with
    | some result => exact Prog.guarantees_pure _
    | none =>
      refine (keepsMemory_readCluster env key opts).bind fun found => ?_
      cases found.filter (settles opts) with
      | some result => exact Prog.guarantees_pure _
      | none => exact Prog.guarantees_pure _

theorem keepsMemory_putToMemory (p : PutCall) :
    (putToMemory H p).Guarantees (KeepsMemory H) := by
  unfold putToMemory
  split
  · exact Prog.guarantees_pure _
  · exact keepsMemory_onMemory (MemoryCache.steps_put (Set.mem_univ _) (Set.subset_univ _))

theorem keepsMemory_putToDisk (p : PutCall) : (putToDisk H p).Guarantees (KeepsMemory H) := by
  unfold putToDisk
  split
  · exact Prog.guarantees_pure _
  · exact keepsMemory_onDisk _

/-- A put keeps the invariant of the memory level, also if the disk fails. -/
theorem keepsMemory_put (p : PutCall) : (put H p).Guarantees (KeepsMemory H) := by
  refine (keepsMemory_putToMemory p).bind fun memoryStatus => ?_
  cases memoryStatus.filter (!·.isOk) with
  | some status => exact Prog.guarantees_pure _
  | none =>
    refine (keepsMemory_putToDisk p).bind fun diskStatus => ?_
    cases diskStatus.filter (!·.isOk) with
    | some status => exact Prog.guarantees_pure _
    | none =>
      dsimp only
      split
      · exact Prog.guarantees_pure _
      · exact Prog.guarantees_pure _

theorem keepsMemory_remove (key : CacheKey) (opts : DeleteOptions) :
    (remove key opts).Guarantees (KeepsMemory H) := by
  refine Prog.Guarantees.bind ?_ fun _ => Prog.Guarantees.bind ?_ fun _ => Prog.guarantees_pure _
  · unfold removeFromMemory
    split
    · exact keepsMemory_onMemory (MemoryCache.steps_remove key)
    · exact Prog.guarantees_pure _
  · unfold removeFromDisk
    split
    · exact keepsMemory_onDisk _
    · exact Prog.guarantees_pure _

/-- The memory level has its invariant after any calls. -/
theorem memoryInv_after (config : Config) (calls : List Call) :
    MemoryInv H (after H config calls).1 := by
  refine runOps_inv (I := fun s : CacheCoordinator × History => MemoryInv H s.1) (fun m hm => ?_)
    fun call _ s hs => ?_
  · rw [memory_init hm]
    exact MemoryCache.inv_init _
  · cases call with
    | put p => exact hs.run (keepsMemory_put p)
    | get env key opts => exact hs.run (keepsMemory_get env key opts)
    | remove key opts => exact hs.run (keepsMemory_remove key opts)

/-! ## The answer -/

/-- The first answer of a peer that settles the read, if the cluster is asked. -/
def peerAnswer (c : CacheCoordinator) (env : ReadEnv) (key : CacheKey) (opts : ReadOptions) :
    Option ReadResult :=
  if c.config.cluster.seedNodes.isEmpty then none
  else env.cluster.bind fun cluster =>
    (((cluster.nodesForKey key).filter (· ≠ cluster.localNode)).map fun node =>
      cluster.remoteGet node key opts).find? (settles opts)

/-- The loop over the nodes stops at the first peer that settles the read. -/
theorem filter_fetchLoop (cluster : ClusterView) (now : Timestamp) (key : CacheKey)
    (opts : ReadOptions) (nodes : List NodeId) {result : ReadResult}
    (hresult : settles opts result = false) (c : CacheCoordinator) :
    (some ((fetchLoop H cluster now key opts nodes result).run c).1).filter (settles opts) =
      ((nodes.filter (· ≠ cluster.localNode)).map fun node =>
        cluster.remoteGet node key opts).find? (settles opts) := by
  induction nodes generalizing result with
  | nil => exact Option.filter_some_neg hresult
  | cons node rest ih =>
    rw [fetchLoop]
    split
    · next hlocal =>
      rw [List.filter_cons_of_neg (by simpa using hlocal)]
      exact ih hresult
    · next hlocal =>
      rw [List.filter_cons_of_pos (by simpa using hlocal), List.map_cons, List.find?_cons]
      cases hsettles : settles opts (cluster.remoteGet node key opts) with
      | true =>
        dsimp only
        split
        · split
          · exact Option.filter_some_pos hsettles
          · rw [Prog.run_bind]
            exact Option.filter_some_pos hsettles
        · next hhit =>
          have hpartial := hsettles
          rw [settles, eq_false_of_ne_true hhit, Bool.false_or] at hpartial
          rw [if_pos hpartial]
          exact Option.filter_some_pos hsettles
      | false =>
        obtain ⟨hhit, hpartial⟩ := Bool.or_eq_false_iff.1 hsettles
        dsimp only
        rw [hhit, hpartial]
        exact ih hsettles

/-- The last part of `get` finds what the peers answer. -/
theorem filter_readCluster (env : ReadEnv) (key : CacheKey) (opts : ReadOptions)
    (c : CacheCoordinator) :
    ((readCluster H env key opts).run c).1.filter (settles opts) =
      c.peerAnswer env key opts := by
  rw [readCluster, Prog.run_bind, Prog.run_atomic, peerAnswer]
  cases hseeds : c.config.cluster.seedNodes.isEmpty with
  | true => simp
  | false =>
    cases hcluster : env.cluster with
    | none => rfl
    | some cluster =>
      simp only [Option.isSome_some, Bool.not_false, Bool.and_true, if_true, Prog.run_bind,
        Bool.false_eq_true, if_false, Option.bind_some]
      exact filter_fetchLoop cluster env.fillNow key opts _ rfl c

/-- `get` on the memory level changes neither the configuration nor the disk level. -/
theorem run_readMemory_eq (hc : MemoryInv H c) (now : Timestamp) (key : CacheKey)
    (opts : ReadOptions) : ∃ memory, (readMemory now key opts).run c =
      (c.views.fromMemory now key opts, { c with memory := memory }) := by
  have hread : (c.memory.map fun m => ((MemoryCache.get now key opts).run m).1) =
      c.views.memory.map fun w => w.read MemoryCache.assembleValue now key opts := by
    cases hm : c.memory with
    | none => simp [views, hm]
    | some m => simp [views, hm, (MemoryCache.observes_get now key opts m (hc m hm)).1]
  have hconfig : c.views.config = c.config := rfl
  rw [readMemory, Prog.run_atomic, Views.fromMemory, hconfig, run_onMemory, hread]
  split
  · exact ⟨_, rfl⟩
  · exact ⟨c.memory, rfl⟩

/-- What `get` returns in a state that can be reached. -/
theorem run_get_eq (hc : MemoryInv H c) (env : ReadEnv) (key : CacheKey) (opts : ReadOptions) :
    ((get H env key opts).run c).1 =
      ((c.views.read env key opts).or (c.peerAnswer env key opts)).getD { result := .miss } := by
  obtain ⟨memory, hmemory⟩ := run_readMemory_eq hc env.memoryNow key opts
  have hdisk : ((onDisk (DiskCache.get env.diskNow key opts)).run { c with memory := memory }).1 =
      c.views.fromDisk env.diskNow key opts := by
    rw [run_onDisk]
    cases hd : c.disk with
    | none => simp [Views.fromDisk, views, hd]
    | some d =>
      simp [Views.fromDisk, views, hd,
        (DiskCache.observes_get (fun _ => True) env.diskNow key opts d trivial).1]
  rcases run_get_cases (H := H) env hmemory with ⟨a, ha, hrun⟩ | ⟨hnone, hrest⟩
  · rw [hrun, Views.read, ha]
    rfl
  rcases hrest _ rfl with ⟨a, ha, hrun⟩ | ⟨hnone', hrest⟩
  · rw [hdisk] at ha
    rw [hrun, Views.read, hnone, ha]
    rfl
  · rw [hdisk] at hnone'
    rw [hrest _ rfl, filter_readCluster, Views.read, hnone, hnone', run_onDisk]
    rfl

end CacheCoordinator

end ElCache
