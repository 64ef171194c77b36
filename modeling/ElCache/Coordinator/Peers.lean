import ElCache.Coordinator.Spec

/-!
# Values fetched from peers

`fetch_from_cluster` stores what a peer returned as the value of the key, although a peer was asked
for a range only. A later read of another range is then answered from this fragment.
`fetched_reads_sound` says that the fragment is the only harm: as long as every read that reaches
the cluster asks for all of the value or for none of it, or what is stored is not read because the
memory level is disabled or `prefer_local` is off, every hit returns exactly the requested bytes of
the value.
-/

namespace ElCache

open Slice

namespace CacheCoordinator

variable {H : ByteBuffer → Hash128} {K : Set ByteBuffer} {v : ByteBuffer} {key : CacheKey}
  {r : Option ReadResult × CacheCoordinator} {now : Timestamp}

/-- Peers answer hits on the key with exactly the requested bytes of `v`. -/
def PeersServe (cluster : ClusterView) (key : CacheKey) (v : ByteBuffer) : Prop :=
  ∀ node opts, node ≠ cluster.localNode → (cluster.remoteGet node key opts).isHit = true →
    (cluster.remoteGet node key opts).data = LevelView.requested v opts

/-! ## What a read does -/

/-- The memory level after fetched data was stored. -/
def fillMemory (H : ByteBuffer → Hash128) (cluster : ClusterView) (now : Timestamp) (key : CacheKey)
    (opts : ReadOptions) (node : NodeId) (c : CacheCoordinator) : CacheCoordinator :=
  { c with memory := c.memory.map fun m => ((MemoryCache.put H ⟨now, key,
      ⟨(cluster.remoteGet node key opts).data, cluster.size_lt node key opts⟩,
      { noCluster := true }⟩).run m).2 }

/-- The loop over the nodes returns what it started with, or the answer of a peer. It changes
nothing, or stores this answer, which is then a hit with data. -/
theorem run_fetchLoop {cluster : ClusterView} {opts : ReadOptions} {nodes : List NodeId}
    {result : ReadResult} {c : CacheCoordinator} {r : ReadResult × CacheCoordinator}
    (hr : (fetchLoop H cluster now key opts nodes result).run c = r) :
    r = (result, c) ∨ ∃ node, node ≠ cluster.localNode ∧ r.1 = cluster.remoteGet node key opts ∧
      (r.2 = c ∨ (r.1.isHit = true ∧ r.1.data ≠ [] ∧
        r.2 = fillMemory H cluster now key opts node c)) := by
  induction nodes generalizing result with
  | nil => exact .inl hr.symm
  | cons node rest ih =>
    rw [fetchLoop] at hr
    split at hr
    · exact ih hr
    · next hlocal =>
      refine .inr ?_
      simp only at hr
      split at hr
      · next hhit =>
        split at hr
        · subst hr
          exact ⟨node, hlocal, rfl, .inl rfl⟩
        · next hdata =>
          rw [Prog.run_bind, run_onMemory] at hr
          subst hr
          exact ⟨node, hlocal, rfl, .inr ⟨hhit, by simpa using hdata, rfl⟩⟩
      · split at hr
        · subst hr
          exact ⟨node, hlocal, rfl, .inl rfl⟩
        · rcases ih hr with rfl | hpeer
          · exact ⟨node, hlocal, rfl, .inl rfl⟩
          · exact hpeer

/-- The last part of `get` finds nothing, or the answer of a peer, which it may have stored. -/
theorem run_readCluster {env : ReadEnv} {opts : ReadOptions} {c : CacheCoordinator}
    (hr : (readCluster H env key opts).run c = r) :
    (r.2 = c ∧ ∀ a, r.1 = some a → a.isHit = false) ∨
      ∃ cluster node, env.cluster = some cluster ∧ node ≠ cluster.localNode ∧
        r.1 = some (cluster.remoteGet node key opts) ∧
        (r.2 = c ∨ ((cluster.remoteGet node key opts).isHit = true ∧
          (cluster.remoteGet node key opts).data ≠ [] ∧
          r.2 = fillMemory H cluster env.fillNow key opts node c)) := by
  rw [readCluster, Prog.run_bind, Prog.run_atomic] at hr
  simp only at hr
  split at hr
  · cases hcl : env.cluster with
    | none =>
      rw [hcl] at hr
      subst hr
      refine .inl ⟨rfl, fun a ha => ?_⟩
      cases ha
      rfl
    | some cluster =>
      rw [hcl, Prog.run_bind, fetchFromCluster] at hr
      obtain ⟨r', hr'⟩ : ∃ r', (fetchLoop H cluster env.fillNow key opts (cluster.nodesForKey key)
        { result := .miss }).run c = r' := ⟨_, rfl⟩
      simp only [hr', Prog.run_pure] at hr
      subst hr
      rcases run_fetchLoop hr' with rfl | ⟨node, hnode, hans, hstate⟩
      · refine .inl ⟨rfl, fun a ha => ?_⟩
        cases ha
        rfl
      · refine .inr ⟨cluster, node, rfl, hnode, congrArg some hans, ?_⟩
        rwa [hans] at hstate
  · subst hr
    exact .inl ⟨rfl, fun a ha => by cases ha⟩

/-- `get` asks the memory level, the disk level and the cluster in turn, and stops at the first
answer that settles the read. -/
theorem run_get_cases (env : ReadEnv) {opts : ReadOptions} {c : CacheCoordinator}
    {r₁ : Option ReadResult × CacheCoordinator}
    (hr₁ : (readMemory env.memoryNow key opts).run c = r₁) :
    (∃ a, r₁.1.filter (settles opts) = some a ∧ (get H env key opts).run c = (a, r₁.2)) ∨
      (r₁.1.filter (settles opts) = none ∧
        ∀ r₂, (onDisk (DiskCache.get env.diskNow key opts)).run r₁.2 = r₂ →
          (∃ a, r₂.1.filter (settles opts) = some a ∧ (get H env key opts).run c = (a, r₂.2)) ∨
            (r₂.1.filter (settles opts) = none ∧
              ∀ r₃, (readCluster H env key opts).run r₂.2 = r₃ → (get H env key opts).run c =
                ((r₃.1.filter (settles opts)).getD { result := .miss }, r₃.2))) := by
  rw [get, Prog.run_bind, hr₁]
  cases hf₁ : r₁.1.filter (settles opts) with
  | some a => exact .inl ⟨a, rfl, rfl⟩
  | none =>
    refine .inr ⟨rfl, fun r₂ hr₂ => ?_⟩
    simp only [Prog.run_bind, hr₂]
    cases hf₂ : r₂.1.filter (settles opts) with
    | some a => exact .inl ⟨a, rfl, rfl⟩
    | none =>
      refine .inr ⟨rfl, fun r₃ hr₃ => ?_⟩
      simp only [Prog.run_bind, hr₃]
      cases r₃.1.filter (settles opts) with
      | some a => rfl
      | none => rfl

/-- A hit that `get` returns after the last part is what that part has found. -/
theorem eq_some_of_isHit {opts : ReadOptions} {found : Option ReadResult}
    (h : ((found.filter (settles opts)).getD { result := .miss }).isHit = true) :
    found = some ((found.filter (settles opts)).getD { result := .miss }) := by
  cases hf : found.filter (settles opts) with
  | none =>
    rw [hf] at h
    cases h
  | some a => exact (Option.filter_eq_some_iff.1 hf).1

/-! ## Sequences of reads -/

/-- A read of the key. -/
structure KeyRead where
  env : ReadEnv
  opts : ReadOptions

/-- The state after a read of the key. -/
def execRead (H : ByteBuffer → Hash128) (key : CacheKey) (read : KeyRead) (c : CacheCoordinator) :
    CacheCoordinator :=
  ((get H read.env key read.opts).run c).2

/-- The read, if it is a hit, returns exactly the requested bytes of `v`. -/
def ReadSound (H : ByteBuffer → Hash128) (key : CacheKey) (v : ByteBuffer) (read : KeyRead)
    (c : CacheCoordinator) : Prop :=
  ((get H read.env key read.opts).run c).1.isHit = true →
    ((get H read.env key read.opts).run c).1.data = LevelView.requested v read.opts

/-- The read asks for all of `v` or for none of it, or the memory level settles it, or the memory
level is disabled or not asked. -/
def FetchesWhole (key : CacheKey) (v : ByteBuffer) (read : KeyRead) (c : CacheCoordinator) : Prop :=
  LevelView.requested v read.opts = v ∨ LevelView.requested v read.opts = [] ∨
    c.config.cluster.preferLocal = false ∨
    ∀ m, c.memory = some m →
      settles read.opts ((MemoryCache.get read.env.memoryNow key read.opts).run m).1 = true

/-- The disk level has nothing under the key; the memory level has nothing, or the value `v`, or is
not asked. -/
structure Unpoisoned (H : ByteBuffer → Hash128) (K : Set ByteBuffer) (key : CacheKey)
    (v : ByteBuffer) (c : CacheCoordinator) : Prop where
  disk : ∀ d, c.disk = some d → d.descriptors key = none
  memory : c.config.cluster.preferLocal = true → ∀ m, c.memory = some m →
    m.Inv H K (allowedPuts K) ∧ ∀ d, m.descriptors key = some d → Describes H d v

section
variable {c : CacheCoordinator} {opts : ReadOptions}

/-- Asking the memory level leaves the key as it is; what it answers is right. -/
theorem Unpoisoned.readMemory (hc : Unpoisoned H K key v c) (hinj : Set.InjOn H K)
    (hK : { b | b ∈ blocks chunkSize v } ⊆ K) (hv : v.length < 2 ^ 64)
    (hr : (readMemory now key opts).run c = r) :
    Unpoisoned H K key v r.2 ∧ r.2.config = c.config ∧ (c.memory = none → r.2.memory = none) ∧
      (∀ a, r.1 = some a → a.isHit = true → a.data = LevelView.requested v opts) ∧
      (c.config.cluster.preferLocal = true →
        r.1 = c.memory.map fun m => ((MemoryCache.get now key opts).run m).1) := by
  rw [CacheCoordinator.readMemory, Prog.run_atomic] at hr
  split at hr
  · next hpref =>
    rw [run_onMemory] at hr
    subst hr
    refine ⟨⟨hc.disk, fun _ m hm => ?_⟩, rfl, fun hnone => ?_, fun a ha hhit => ?_, fun _ => rfl⟩
    · obtain ⟨m₀, hm₀, rfl⟩ := Option.map_eq_some_iff.1 hm
      obtain ⟨hinv, hdesc⟩ := hc.memory hpref m₀ hm₀
      obtain ⟨-, hview, hinv'⟩ := MemoryCache.observes_get now key opts m₀ hinv
      have hsame := congrArg (fun w => w.descriptor key) hview
      exact ⟨hinv', fun d hd => hdesc d (hsame.symm.trans hd)⟩
    · simp only [hnone, Option.map_none]
    · obtain ⟨m, hm, rfl⟩ := Option.map_eq_some_iff.1 ha
      obtain ⟨hinv, hdesc⟩ := hc.memory hpref m hm
      rw [(MemoryCache.observes_get now key opts m hinv).1] at hhit ⊢
      simp only at hhit ⊢
      cases hkey : m.descriptors key with
      | none =>
        rw [LevelView.read_none (w := m.view) hkey] at hhit
        cases hhit
      | some d =>
        exact LevelView.read_hit MemoryCache.exactAssembly (hdesc d hkey) hv
          (hinv.consistent.serves hinj hK) hkey hhit
  · next hpref =>
    subst hr
    refine ⟨hc, rfl, id, fun a ha => ?_, fun h => absurd h hpref⟩
    cases ha

/-- Asking the disk level leaves the key as it is and settles nothing. -/
theorem Unpoisoned.readDisk (hc : Unpoisoned H K key v c)
    (hr : (onDisk (DiskCache.get now key opts)).run c = r) :
    Unpoisoned H K key v r.2 ∧ r.2.config = c.config ∧ r.2.memory = c.memory ∧
      r.1.filter (settles opts) = none := by
  rw [run_onDisk] at hr
  subst hr
  have hread : ∀ d, c.disk = some d → ((DiskCache.get now key opts).run d).1 = { result := .miss } ∧
      ((DiskCache.get now key opts).run d).2.descriptors key = none := by
    intro d hd
    obtain ⟨hres, hview, -⟩ := DiskCache.observes_get (fun _ => True) now key opts d trivial
    have hsame := congrArg (fun w => w.descriptor key) hview
    refine ⟨?_, hsame.trans (hc.disk d hd)⟩
    rw [hres]
    exact LevelView.read_none (w := d.view) (hc.disk d hd)
  refine ⟨⟨fun d hd => ?_, hc.memory⟩, rfl, rfl, ?_⟩
  · obtain ⟨d₀, hd₀, rfl⟩ := Option.map_eq_some_iff.1 hd
    exact (hread d₀ hd₀).2
  · cases hd : c.disk with
    | none => rfl
    | some d =>
      rw [Option.map_some, (hread d hd).1]
      rfl

/-- Storing all of the value, or storing it where it is not read, leaves the key unpoisoned. -/
theorem Unpoisoned.fill (hc : Unpoisoned H K key v c) (hK : { b | b ∈ blocks chunkSize v } ⊆ K)
    {cluster : ClusterView} {node : NodeId}
    (hdata : c.config.cluster.preferLocal = true → c.memory ≠ none →
      (cluster.remoteGet node key opts).data = v) :
    Unpoisoned H K key v (fillMemory H cluster now key opts node c) := by
  refine ⟨hc.disk, fun hpref m hm => ?_⟩
  obtain ⟨m₀, hm₀, rfl⟩ := Option.map_eq_some_iff.1 hm
  have hvalue := hdata hpref (by rw [hm₀]; exact Option.some_ne_none m₀)
  obtain ⟨hinv, hdesc⟩ := hc.memory hpref m₀ hm₀
  generalize hp : (⟨now, key, ⟨(cluster.remoteGet node key opts).data,
    cluster.size_lt node key opts⟩, { noCluster := true }⟩ : Put) = p
  have hbytes : p.value.bytes = v := by
    rw [← hp]
    exact hvalue
  have hchunks : p.chunks ⊆ K := by
    rw [Put.chunks, hbytes]
    exact hK
  refine ⟨(((MemoryCache.steps_put hchunks hchunks).safe fun _ _ h hstep => h.step hstep).run
    hinv).1, fun d hd => ?_⟩
  by_cases hacc : MemoryCache.Accepts p
  · have hkey : p.key = key := by rw [← hp]
    rw [(MemoryCache.run_put hinv.arc hacc).2.1, ← hkey, Function.update_self] at hd
    cases hd
    rw [← hbytes]
    exact p.describes H
  · rw [(MemoryCache.run_put_rejected hacc).2] at hd
    exact hdesc d hd

/-- A read that fetches the whole value or nothing is sound and leaves the key unpoisoned. -/
theorem Unpoisoned.read (hc : Unpoisoned H K key v c) (hinj : Set.InjOn H K)
    (hK : { b | b ∈ blocks chunkSize v } ⊆ K) (hv : v.length < 2 ^ 64) {read : KeyRead}
    (hpeers : ∀ cluster, read.env.cluster = some cluster → PeersServe cluster key v)
    (hwhole : FetchesWhole key v read c) :
    ReadSound H key v read c ∧ Unpoisoned H K key v (execRead H key read c) := by
  rw [ReadSound, execRead]
  obtain ⟨r₁, hr₁⟩ : ∃ r,
      (CacheCoordinator.readMemory read.env.memoryNow key read.opts).run c = r :=
    ⟨_, rfl⟩
  obtain ⟨hc₁, hconf₁, hnone₁, hsound, hasked⟩ := hc.readMemory hinj hK hv hr₁
  rcases run_get_cases (H := H) read.env hr₁ with ⟨a, hfound, hget⟩ | ⟨hfound, hrest⟩
  · rw [hget]
    exact ⟨hsound a (Option.filter_eq_some_iff.1 hfound).1, hc₁⟩
  · obtain ⟨r₂, hr₂⟩ : ∃ r, (onDisk (DiskCache.get read.env.diskNow key read.opts)).run r₁.2 = r :=
      ⟨_, rfl⟩
    obtain ⟨hc₂, hconf₂, hmem₂, hnone₂⟩ := hc₁.readDisk hr₂
    rcases hrest r₂ hr₂ with ⟨a, ha, -⟩ | ⟨-, hget⟩
    · rw [hnone₂] at ha
      cases ha
    · obtain ⟨r₃, hr₃⟩ : ∃ r, (readCluster H read.env key read.opts).run r₂.2 = r := ⟨_, rfl⟩
      rw [hget r₃ hr₃]
      rcases run_readCluster hr₃ with ⟨hsame, hmiss⟩ | ⟨cluster, node, hcl, hnode, hres, hfill⟩
      · refine ⟨fun hhit => ?_, by rwa [hsame]⟩
        exact absurd hhit (Bool.eq_false_iff.1 (hmiss _ (eq_some_of_isHit hhit)))
      · have hserve := hpeers cluster hcl node read.opts hnode
        refine ⟨fun hhit => ?_, ?_⟩
        · have heq := Option.some.inj ((eq_some_of_isHit hhit).symm.trans hres)
          rw [heq] at hhit ⊢
          exact hserve hhit
        · rcases hfill with hsame | ⟨hhit, hdata, hnext⟩
          · rwa [hsame]
          · rw [hnext]
            refine hc₂.fill hK fun hpref hsome => ?_
            rw [hconf₂, hconf₁] at hpref
            rw [hserve hhit] at hdata ⊢
            rcases hwhole with hall | hempty | hnot | hsettles
            · exact hall
            · exact absurd hempty hdata
            · rw [hnot] at hpref
              cases hpref
            · exfalso
              cases hm : c.memory with
              | none => exact hsome (hmem₂.trans (hnone₁ hm))
              | some m =>
                -- the memory level has settled the read
                rw [hasked hpref, hm, Option.map_some, Option.filter_some,
                  if_pos (hsettles m hm)] at hfound
                cases hfound

end

/-- Let a peer hold `v`, the levels nothing under the key. Along every sequence of reads that fetch
the whole value or nothing, every hit returns exactly the requested bytes of `v`. -/
theorem fetched_reads_sound (H : ByteBuffer → Hash128) {K : Set ByteBuffer} (hinj : Set.InjOn H K)
    (key : CacheKey) (v : ByteBuffer) (hv : v.length < 2 ^ 64)
    (hK : { b | b ∈ blocks chunkSize v } ⊆ K) (c : CacheCoordinator)
    (hc : c.Inv H K (allowedPuts K)) (hmem : ∀ m, c.memory = some m → m.descriptors key = none)
    (hdisk : ∀ d, c.disk = some d → d.descriptors key = none) (reads : List KeyRead)
    (hpeers : ∀ read ∈ reads, ∀ cluster, read.env.cluster = some cluster →
      PeersServe cluster key v)
    (hwhole : EveryStep (execRead H key) (FetchesWhole key v) reads c) :
    EveryStep (execRead H key) (ReadSound H key v) reads c := by
  have h0 : Unpoisoned H K key v c := by
    refine ⟨hdisk, fun _ m hm => ⟨hc.memory m hm, fun d hd => ?_⟩⟩
    rw [hmem m hm] at hd
    cases hd
  exact hwhole.imp h0 fun read hread c hc hwhole => hc.read hinj hK hv (hpeers read hread) hwhole

/-! ## A peer with two bytes -/

theorem length_requested_two_lt (opts : ReadOptions) :
    (LevelView.requested [7, 8] opts).length < 2 ^ 64 := by
  simp only [LevelView.requested, length_slice, List.length_cons, List.length_nil]
  omega

/-- A peer that holds the value 7, 8 under every key. -/
def twoBytePeer : ClusterView where
  localNode := ⟨1⟩
  nodesForKey := fun _ => [⟨2⟩]
  remoteGet := fun _ _ opts => { result := .hit, data := LevelView.requested [7, 8] opts }
  size_lt := fun _ _ opts => length_requested_two_lt opts

/-- A read of the range, the whole value when there is none, with the peer in the cluster. -/
def peerRead (range : Option Range) : KeyRead :=
  ⟨{ memoryNow := 0, diskNow := 0, cluster := some twoBytePeer }, { range := range }⟩

/-- A configuration with a seed node. -/
def peerConfig : Config := { cluster := { seedNodes := ["peer"] } }

theorem peersServe_twoBytePeer (key : CacheKey) : PeersServe twoBytePeer key [7, 8] :=
  fun _ _ _ _ => rfl

/-- The whole value is fetched first; its second byte is then read from the memory level. -/
theorem fetched_reads_sound_whole :
    EveryStep (execRead sampleHash ⟨[1]⟩) (ReadSound sampleHash ⟨[1]⟩ [7, 8])
      [peerRead none, peerRead (some ⟨1, 1⟩)] (init peerConfig) := by
  refine fetched_reads_sound sampleHash (K := {[7, 8]}) (Set.injOn_singleton _ _) ⟨[1]⟩ [7, 8]
    (by decide) ?_ _ (inv_init _) ?_ ?_ _ ?_ ?_
  · intro b (hb : b ∈ blocks chunkSize [7, 8])
    rw [blocks_pair, List.mem_singleton] at hb
    exact hb
  · intro m hm
    rw [memory_init hm]
    rfl
  · intro d hd
    rw [disk_init hd]
  · intro read hread cluster hcluster
    have hpeer : read.env.cluster = some twoBytePeer := by
      simp only [List.mem_cons, List.not_mem_nil, or_false] at hread
      rcases hread with rfl | rfl
      · rfl
      · rfl
    rw [hpeer] at hcluster
    cases hcluster
    exact peersServe_twoBytePeer _
  · refine ⟨.inl (by decide), .inr (.inr (.inr fun m hm => ?_)), trivial⟩
    have hsettles : ((execRead sampleHash ⟨[1]⟩ (peerRead none) (init peerConfig)).memory.map
        fun m => settles (peerRead (some ⟨1, 1⟩)).opts
          ((MemoryCache.get 0 ⟨[1]⟩ (peerRead (some ⟨1, 1⟩)).opts).run m).1) = some true := by
      decide +kernel
    rw [hm] at hsettles
    exact Option.some.inj hsettles

/-- After the first byte was fetched, a read of the whole value returns this byte only. -/
theorem fetched_read_poisoned :
    PeersServe twoBytePeer ⟨[1]⟩ [7, 8] ∧
      (∀ m, (init peerConfig).memory = some m → m.descriptors ⟨[1]⟩ = none) ∧
      (∀ d, (init peerConfig).disk = some d → d.descriptors ⟨[1]⟩ = none) ∧
      ¬ EveryStep (execRead sampleHash ⟨[1]⟩) (ReadSound sampleHash ⟨[1]⟩ [7, 8])
        [peerRead (some ⟨0, 1⟩), peerRead none] (init peerConfig) := by
  refine ⟨peersServe_twoBytePeer _, fun m hm => ?_, fun d hd => ?_, fun h => ?_⟩
  · rw [memory_init hm]
    rfl
  · rw [disk_init hd]
  · have hread : ((get sampleHash (peerRead none).env ⟨[1]⟩ (peerRead none).opts).run
        (execRead sampleHash ⟨[1]⟩ (peerRead (some ⟨0, 1⟩)) (init peerConfig))).1.isHit = true ∧
      ((get sampleHash (peerRead none).env ⟨[1]⟩ (peerRead none).opts).run
        (execRead sampleHash ⟨[1]⟩ (peerRead (some ⟨0, 1⟩)) (init peerConfig))).1.data = [7] := by
      decide +kernel
    have hdata := h.2.1 hread.1
    rw [hread.2] at hdata
    exact absurd hdata (by decide)

end CacheCoordinator

end ElCache
