import ElCache.Coordinator.Spec
import ElCache.Disk.Steps

/-!
# Absent keys

A key of which no level has a descriptor is absent. Every operation but a put of the key leaves it
absent, at every step and whichever disk writes fail, and answers that it is not there
(`Operation.safe`), as long as no peer answers either: what a peer returns would be stored.
-/

namespace ElCache

/-! ## Steps that leave a key absent -/

namespace DiskCache

/-- A step after which the key has no descriptor if it had none. -/
def KeepsAbsent (key : CacheKey) (d d' : DiskCache) : Prop :=
  d.descriptors key = none → d'.descriptors key = none

variable {key : CacheKey}

theorem Step.absent {d d' : DiskCache} (h : Step { k | k ≠ key } d d') : KeepsAbsent key d d' := by
  intro hd
  cases h with
  | putDescriptor desc hkey => exact (Function.update_of_ne (Ne.symm hkey) _ _).trans hd
  | removeDescriptor key' =>
    by_cases hk : key = key'
    · subst hk
      exact Function.update_self ..
    · exact (Function.update_of_ne hk _ _).trans hd
  | _ => exact hd

/-- A program that puts no descriptor for the key keeps it absent. -/
theorem absent_of_steps {α : Type} {p : Prog DiskCache α}
    (hp : p.Guarantees (Step { k | k ≠ key })) : p.Guarantees (KeepsAbsent key) :=
  hp.mono fun _ _ h => h.absent

section
variable {d : DiskCache} (hd : d.descriptors key = none)
include hd

theorem run_get_absent (now : Timestamp) (opts : ReadOptions) :
    (get now key opts).run d = ({ result := .miss }, d) := by
  simp [get, readValue, getDescriptor, hd]

theorem run_check_absent (range : Option Range) : (check key range).run d = ({}, d) := by
  simp [check, checkValue, getDescriptor, hd]

end

end DiskCache

namespace MemoryCache

/-- A step after which the key has no descriptor if it had none. -/
def KeepsAbsent (key : CacheKey) (m m' : MemoryCache) : Prop :=
  m.descriptors key = none → m'.descriptors key = none

theorem Step.absent {H : ByteBuffer → Hash128} {K : Set ByteBuffer} {key : CacheKey}
    {m m' : MemoryCache} (h : Step H K { p | p.key ≠ key } m m') : KeepsAbsent key m m' := by
  intro hm
  cases h with
  | putDescriptor hp => exact (Function.update_of_ne hp.symm _ _).trans hm
  | removeDescriptor key' =>
    by_cases hk : key = key'
    · subst hk
      exact Function.update_self ..
    · exact (Function.update_of_ne hk _ _).trans hm
  | _ => exact hm

/-- A program that puts nothing, whatever the hash of a chunk, keeps a key absent. -/
theorem absent_of_steps {α : Type} {p : Prog MemoryCache α} (key : CacheKey)
    (hp : ∀ H P, p.Guarantees (Step H Set.univ P)) : p.Guarantees (KeepsAbsent key) :=
  (hp (fun _ => ⟨0, 0⟩) _).mono fun _ _ h => h.absent

section
variable {m : MemoryCache} {key : CacheKey} (hm : m.descriptors key = none)
include hm

theorem run_get_absent (now : Timestamp) (opts : ReadOptions) :
    (get now key opts).run m = ({ result := .miss }, m) := by
  simp [get, readValue, getDescriptor, hm]

theorem run_check_absent (range : Option Range) : (check key range).run m = ({}, m) := by
  simp [check, checkValue, getDescriptor, hm]

end

end MemoryCache

namespace CacheCoordinator

/-! ## The operations of a coordinator -/

/-- An operation of the coordinator, with what it sees of the cluster. -/
inductive Operation where
  | put (p : PutCall)
  | get (env : ReadEnv) (key : CacheKey) (opts : ReadOptions)
  | remove (key : CacheKey) (opts : DeleteOptions)
  | check (cluster : Option CheckView) (key : CacheKey) (range : Option Range)
  | metadata (key : CacheKey)

/-- What an operation returns. -/
inductive Reply where
  | status (status : Status)
  | read (result : ReadResult)
  | availability (result : AvailabilityResult)
  | metadata (found : Option CacheMetadata)

namespace Operation

/-- The program of an operation. -/
def prog (H : ByteBuffer → Hash128) : Operation → Prog CacheCoordinator Reply
  | .put p => do pure (.status (← CacheCoordinator.put H p))
  | .get env key opts => do pure (.read (← CacheCoordinator.get H env key opts))
  | .remove key opts => do pure (.status (← CacheCoordinator.remove key opts))
  | .check cluster key range => do
    pure (.availability (← CacheCoordinator.check cluster key range))
  | .metadata key => do pure (.metadata (← CacheCoordinator.metadata key))

/-- The key of an operation. -/
def key : Operation → CacheKey
  | .put p => p.key
  | .get _ key _ => key
  | .remove key _ => key
  | .check _ key _ => key
  | .metadata key => key

/-- No peer has what the operation asks for. -/
def Unanswered : Operation → Prop
  | .get env key opts => ∀ cluster, env.cluster = some cluster →
      ∀ node ∈ cluster.nodesForKey key, node ≠ cluster.localNode →
        cluster.remoteGet node key opts = { result := .miss }
  | .check cluster key range => ∀ view, cluster = some view →
      ∀ node ∈ view.nodesForKey key, node ≠ view.localNode →
        view.remoteCheck node key range = { exists_ := false }
  | _ => True

end Operation

/-- The reply says that the key is not there. -/
def Reply.Absent : Reply → Prop
  | .status _ => True
  | .read result => result = { result := .miss }
  | .availability result => result.exists_ = false
  | .metadata found => found = none

/-- No level has the key. -/
structure Absent (key : CacheKey) (c : CacheCoordinator) : Prop where
  memory : ∀ m, c.memory = some m → m.descriptors key = none
  disk : ∀ d, c.disk = some d → d.descriptors key = none

section
variable {H : ByteBuffer → Hash128} {key : CacheKey} {c : CacheCoordinator} {range : Option Range}
  {nodes : List NodeId} {opts : ReadOptions}

theorem absent_init (config : Config) : (init config).Absent key where
  memory m hm := by rw [memory_init hm]; rfl
  disk d hd := by rw [disk_init hd]

/-- An operation of the memory level that puts no descriptor for the key. -/
theorem safe_onMemory {α : Type} {p : Prog MemoryCache α} {Q : Option α → Prop}
    (hp : p.Guarantees (MemoryCache.KeepsAbsent key)) (hnone : Q none)
    (hsome : ∀ m : MemoryCache, m.descriptors key = none → Q (some (p.run m).1)) :
    (onMemory p).Safe (Absent key) Q := by
  refine Prog.safe_atomic fun c hc => ?_
  have hrun := run_onMemory p c
  rw [onMemory, Prog.run_atomic] at hrun
  rw [hrun]
  constructor
  · refine ⟨fun m hm => ?_, hc.disk⟩
    obtain ⟨m', hm', rfl⟩ := Option.map_eq_some_iff.1 hm
    exact ((hp.safe fun _ _ hm hstep => hstep hm).run (hc.memory m' hm')).1
  · cases hm : c.memory with
    | none => exact hnone
    | some m => exact hsome m (hc.memory m hm)

/-- The disk level without the key stays without it. -/
theorem safe_onDisk {α : Type} {p : Prog DiskCache α} {Q : Option α → Prop}
    (hp : p.Guarantees (DiskCache.KeepsAbsent key)) (hnone : Q none)
    (hsome : ∀ d : DiskCache, d.descriptors key = none → Q (some (p.run d).1)) :
    (onDisk p).Safe (Absent key) Q := by
  refine Prog.safe_atomic fun c hc => ?_
  have hrun := run_onDisk p c
  rw [onDisk, Prog.run_atomic] at hrun
  rw [hrun]
  constructor
  · refine ⟨hc.memory, fun d hd => ?_⟩
    obtain ⟨d', hd', rfl⟩ := Option.map_eq_some_iff.1 hd
    exact ((hp.safe fun _ _ hd hstep => hstep hd).run (hc.disk d' hd')).1
  · cases hd : c.disk with
    | none => exact hnone
    | some d => exact hsome d (hc.disk d hd)

/-! ## What each operation keeps -/

/-- The loop over nodes none of which has the value changes nothing. -/
theorem fetchLoop_eq_of_miss {cluster : ClusterView} (now : Timestamp)
    (hmiss : ∀ node ∈ nodes, node ≠ cluster.localNode →
      cluster.remoteGet node key opts = { result := .miss }) :
    fetchLoop H cluster now key opts nodes { result := .miss } = pure { result := .miss } := by
  induction nodes with
  | nil => rfl
  | cons node rest ih =>
    have hrest := ih fun node' hnode' => hmiss node' (List.mem_cons_of_mem _ hnode')
    rw [fetchLoop]
    split
    · exact hrest
    · next hlocal =>
      have heq := hmiss node List.mem_cons_self hlocal
      have hhit : (cluster.remoteGet node key opts).isHit = false := by rw [heq]; rfl
      have hpartial : (cluster.remoteGet node key opts).isPartial = false := by rw [heq]; rfl
      simp only [hhit, hpartial, Bool.false_and, Bool.false_eq_true, if_false]
      rw [heq]
      exact hrest

theorem checkNodes_eq_of_absent {view : CheckView}
    (hmiss : ∀ node ∈ nodes, node ≠ view.localNode →
      view.remoteCheck node key range = { exists_ := false }) (result : AvailabilityResult) :
    checkNodes view key range nodes result = result := by
  induction nodes with
  | nil => rfl
  | cons node rest ih =>
    have hrest := ih fun node' hnode' => hmiss node' (List.mem_cons_of_mem _ hnode')
    rw [checkNodes]
    split
    · exact hrest
    · next hlocal =>
      rw [hmiss node List.mem_cons_self hlocal]
      exact hrest

/-- A read of any key leaves the key absent, and one of the key itself misses. The levels do not
have it and no peer answers, so nothing is filled in. -/
theorem safe_get {env : ReadEnv} {key' : CacheKey}
    (hun : (Operation.get env key' opts).Unanswered) :
    (get H env key' opts).Safe (Absent key) fun result =>
      key' = key → result = { result := .miss } := by
  have hmemory : (readMemory env.memoryNow key' opts).Safe (Absent key) fun found =>
      key' = key → found.filter (settles opts) = none := by
    refine Prog.safe_atomic fun c hc => ?_
    split
    · have hsafe : (onMemory (MemoryCache.get env.memoryNow key' opts)).Safe (Absent key)
          fun found => key' = key → found.filter (settles opts) = none := by
        refine safe_onMemory
          (MemoryCache.absent_of_steps key fun _ _ => MemoryCache.steps_get _ _ _) (fun _ => rfl) ?_
        rintro m hm rfl
        rw [MemoryCache.run_get_absent hm]
        rfl
      exact hsafe.run hc
    · exact ⟨hc, fun _ => rfl⟩
  have hdisk : (onDisk (DiskCache.get env.diskNow key' opts)).Safe (Absent key) fun found =>
      key' = key → found.filter (settles opts) = none := by
    refine safe_onDisk (DiskCache.absent_of_steps (DiskCache.steps_get _ _ _)) (fun _ => rfl) ?_
    rintro d hd rfl
    rw [DiskCache.run_get_absent hd]
    rfl
  -- nothing is fetched, so nothing is stored
  have hcluster : (readCluster H env key' opts).Safe (Absent key) fun found =>
      found.filter (settles opts) = none := by
    refine Prog.Safe.bind (Q := fun _ => True) (fun c hc => ⟨hc, trivial⟩) fun seeds _ => ?_
    cases hcl : env.cluster with
    | none => exact Prog.safe_pure rfl
    | some cluster =>
      split
      · rw [fetchFromCluster, fetchLoop_eq_of_miss _ (hun cluster hcl)]
        exact Prog.safe_pure rfl
      · exact Prog.safe_pure rfl
  refine hmemory.bind fun found hfound => ?_
  cases hf : found.filter (settles opts) with
  | some result =>
    refine Prog.safe_pure fun hkey => ?_
    rw [hfound hkey] at hf
    cases hf
  | none =>
    refine hdisk.bind fun found hfound => ?_
    cases hf : found.filter (settles opts) with
    | some result =>
      refine Prog.safe_pure fun hkey => ?_
      rw [hfound hkey] at hf
      cases hf
    | none =>
      refine hcluster.bind fun found hfound => ?_
      rw [hfound]
      exact Prog.safe_pure fun _ => rfl

/-- A check does not find a key that no level and no peer has. -/
theorem safe_check {cluster : Option CheckView} {key' : CacheKey}
    (hun : (Operation.check cluster key' range).Unanswered) :
    (check cluster key' range).Safe (Absent key) fun result =>
      key' = key → result.exists_ = false := by
  have hmemory : (onMemory (MemoryCache.check key' range)).Safe (Absent key) fun found =>
      key' = key → found.getD {} = {} := by
    refine safe_onMemory (MemoryCache.absent_of_steps key fun _ _ => MemoryCache.steps_check _ _)
      (fun _ => rfl) ?_
    rintro m hm rfl
    rw [MemoryCache.run_check_absent hm]
    rfl
  have hdisk : (onDisk (DiskCache.check key' range)).Safe (Absent key) fun found =>
      key' = key → found.filter (·.exists_) = none := by
    refine safe_onDisk (DiskCache.absent_of_steps (DiskCache.steps_check _ _)) (fun _ => rfl) ?_
    rintro d hd rfl
    rw [DiskCache.run_check_absent hd]
    rfl
  refine hmemory.bind fun found hfound => ?_
  simp only
  split
  · refine Prog.safe_pure fun hkey => ?_
    rw [hfound hkey]
  · refine hdisk.bind fun foundDisk hfoundDisk => ?_
    have hmerged : key' = key → (mergeDisk (found.getD {}) foundDisk).exists_ = false := by
      intro hkey
      rw [mergeDisk, hfoundDisk hkey, hfound hkey]
    cases cluster with
    | none => exact Prog.safe_pure hmerged
    | some view =>
      simp only
      split
      · exact Prog.safe_pure hmerged
      · rw [checkNodes_eq_of_absent (hun view rfl)]
        exact Prog.safe_pure hmerged

/-- Neither level has metadata of the key. -/
theorem safe_metadata (key' : CacheKey) :
    (metadata key').Safe (Absent key) fun found => key' = key → found = none := by
  have hmemory : (onMemory (MemoryCache.metadata key')).Safe (Absent key) fun found =>
      key' = key → found.join = none := by
    refine safe_onMemory ?_ (fun _ => rfl) ?_
    · exact Prog.Guarantees.bind (Prog.guarantees_atomic fun _ h => h) fun _ =>
        Prog.guarantees_pure _
    · rintro m hm rfl
      simp [MemoryCache.metadata, MemoryCache.getDescriptor, hm]
  have hdisk : (onDisk (DiskCache.metadata key')).Safe (Absent key) fun found =>
      key' = key → found.join = none := by
    refine safe_onDisk (DiskCache.absent_of_steps (DiskCache.steps_metadata _)) (fun _ => rfl) ?_
    rintro d hd rfl
    simp [DiskCache.metadata, DiskCache.getDescriptor, hd]
  refine hmemory.bind fun found hfound => ?_
  cases hf : found.join with
  | some x =>
    refine Prog.safe_pure fun hkey => ?_
    rw [hfound hkey] at hf
    cases hf
  | none => exact hdisk.bind fun found hfound => Prog.safe_pure hfound

/-- A put of another key stores no descriptor of this one. -/
theorem safe_put_of_ne {p : PutCall} (hp : p.key ≠ key) :
    (put H p).Safe (Absent key) fun _ => True := by
  have hmemory : (putToMemory H p).Safe (Absent key) fun _ => True := by
    rw [putToMemory]
    split
    · exact Prog.safe_pure trivial
    · have hsteps : (MemoryCache.put H p.memoryPut).Guarantees
          (MemoryCache.Step H Set.univ { p | p.key ≠ key }) :=
        MemoryCache.steps_put hp fun _ _ => trivial
      exact safe_onMemory (hsteps.mono fun _ _ h => h.absent) trivial fun _ _ => trivial
  have hdisk : (putToDisk H p).Safe (Absent key) fun _ => True := by
    rw [putToDisk]
    split
    · exact Prog.safe_pure trivial
    · exact safe_onDisk (DiskCache.absent_of_steps (DiskCache.steps_put hp _)) trivial fun _ _ =>
        trivial
  refine hmemory.bind fun memoryStatus _ => ?_
  split
  · exact Prog.safe_pure trivial
  · refine hdisk.bind fun diskStatus _ => ?_
    split
    · exact Prog.safe_pure trivial
    · split
      · exact Prog.safe_pure trivial
      · exact Prog.safe_pure trivial

theorem safe_remove (key' : CacheKey) (opts : DeleteOptions) :
    (remove key' opts).Safe (Absent key) fun _ => True := by
  refine Prog.Safe.bind (Q := fun _ => True) ?_ fun _ _ =>
    Prog.Safe.bind (Q := fun _ => True) ?_ fun _ _ => Prog.safe_pure trivial
  · rw [removeFromMemory]
    split
    · exact safe_onMemory (MemoryCache.absent_of_steps key fun _ _ => MemoryCache.steps_remove key')
        trivial fun _ _ => trivial
    · exact Prog.safe_pure trivial
  · rw [removeFromDisk]
    split
    · exact safe_onDisk (DiskCache.absent_of_steps (DiskCache.steps_remove key')) trivial fun _ _ =>
        trivial
    · exact Prog.safe_pure trivial

/-- Every operation but a put of the key leaves the key absent, and answers so. -/
theorem Operation.safe {op : Operation} (hput : ∀ p, op = .put p → p.key ≠ key)
    (hun : op.Unanswered) :
    (op.prog H).Safe (Absent key) fun reply => op.key = key → reply.Absent := by
  cases op with
  | put p => exact (safe_put_of_ne (hput p rfl)).bind fun _ _ => Prog.safe_pure fun _ => trivial
  | get env key' opts => exact (safe_get hun).bind fun _ h => Prog.safe_pure h
  | remove key' opts =>
    exact (safe_remove key' opts).bind fun _ _ => Prog.safe_pure fun _ => trivial
  | check cluster key' range =>
    exact (safe_check hun).bind fun _ h => Prog.safe_pure h
  | metadata key' => exact (safe_metadata key').bind fun _ h => Prog.safe_pure h

end

end CacheCoordinator

end ElCache
