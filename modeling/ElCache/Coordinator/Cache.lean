import ElCache.Memory.Cache
import ElCache.Disk.Cache

/-!
# The coordinator

`cache_coordinator.cpp`: a memory and a disk level, each of which a configuration may disable, and
optionally a cluster. `get` asks the levels in turn and then the cluster, `put` writes to the levels
in turn, `remove` removes from each. There is no lock across the levels: an operation of one level
is one atomic step, and other operations may come between two steps.

`put` and `remove` also send the operation to peers and ignore their answers; as this does not touch
the local levels it is left out, as is the reading of metadata in `get` whose result is dropped.
-/

namespace ElCache

/-- What a `get` sees of the cluster: the local node, the nodes a key maps to, in the order they are
asked, and what `remote_get` returns from each. Received data has a 64-bit size. -/
structure ClusterView where
  localNode : NodeId
  nodesForKey : CacheKey → List NodeId
  remoteGet : NodeId → CacheKey → ReadOptions → ReadResult
  size_lt : ∀ node key opts, (remoteGet node key opts).data.length < 2 ^ 64

/-- What a call of `get` meets: the clock when each level is asked and when fetched data is stored,
and the cluster, if one is set. -/
structure ReadEnv where
  memoryNow : Timestamp
  diskNow : Timestamp
  fillNow : Timestamp := 0
  cluster : Option ClusterView := none

/-- The arguments of a `put` with what it meets: the clock when each level is written, and how the
disk writes end. -/
structure PutCall where
  memoryNow : Timestamp
  diskNow : Timestamp
  env : WriteEnv
  key : CacheKey
  value : ByteView
  opts : WriteOptions := {}

namespace PutCall

/-- A put of one byte where no write fails, for concrete instances. -/
def byte (key : ByteBuffer) (byte : UInt8) : PutCall :=
  ⟨0, 0, { tick := fun _ => 0 }, ⟨key⟩, .single byte, {}⟩

/-- The put the memory level receives. -/
def memoryPut (p : PutCall) : Put := ⟨p.memoryNow, p.key, p.value, p.opts⟩

/-- The put the disk level receives. -/
def diskPut (p : PutCall) : Put := ⟨p.diskNow, p.key, p.value, p.opts⟩

end PutCall

/-- `CacheCoordinator`. A level that is disabled is absent. -/
structure CacheCoordinator where
  config : Config
  memory : Option MemoryCache
  disk : Option DiskCache

namespace CacheCoordinator

/-- `CacheCoordinator::CacheCoordinator`. -/
def init (config : Config) : CacheCoordinator where
  config := config
  memory := if 0 < config.memory.maxSize then some (.init config.memory) else none
  disk := if 0 < config.disk.maxSize then some { config := config.disk } else none

/-- An operation of the memory level, if it is enabled. -/
def onMemory {α : Type} (p : Prog MemoryCache α) : Prog CacheCoordinator (Option α) :=
  .atomic fun c =>
    match c.memory with
    | none => (none, c)
    | some m => (some (p.run m).1, { c with memory := some (p.run m).2 })

/-- An operation of the disk level, if it is enabled. -/
def onDisk {α : Type} (p : Prog DiskCache α) : Prog CacheCoordinator (Option α) :=
  .atomic fun c =>
    match c.disk with
    | none => (none, c)
    | some d => (some (p.run d).1, { c with disk := some (p.run d).2 })

/-- Whether `get` returns the answer of a level and does not go on. -/
def settles (opts : ReadOptions) (r : ReadResult) : Bool :=
  r.isHit || (r.isPartial && opts.allowPartial)

/-- The first part of `get`: the memory level is asked only with `prefer_local`. -/
def readMemory (now : Timestamp) (key : CacheKey) (opts : ReadOptions) :
    Prog CacheCoordinator (Option ReadResult) :=
  .atomic fun c =>
    if c.config.cluster.preferLocal then (onMemory (MemoryCache.get now key opts)).run c
    else (none, c)

/-- The loop of `CacheCoordinator::fetch_from_cluster` over the nodes of the key. A hit is stored in
the memory level as the value of the key, whatever range was asked for. -/
def fetchLoop (H : ByteBuffer → Hash128) (cluster : ClusterView) (now : Timestamp) (key : CacheKey)
    (opts : ReadOptions) : List NodeId → ReadResult → Prog CacheCoordinator ReadResult
  | [], result => pure result
  | node :: rest, result =>
    if node = cluster.localNode then fetchLoop H cluster now key opts rest result
    else
      let result := cluster.remoteGet node key opts
      if result.isHit then
        if result.data.isEmpty then pure result
        else do
          let _ ← onMemory (MemoryCache.put H
            ⟨now, key, ⟨result.data, cluster.size_lt node key opts⟩, { noCluster := true }⟩)
          pure result
      else if result.isPartial && opts.allowPartial then pure result
      else fetchLoop H cluster now key opts rest result

/-- `CacheCoordinator::fetch_from_cluster`. -/
def fetchFromCluster (H : ByteBuffer → Hash128) (cluster : Option ClusterView) (now : Timestamp)
    (key : CacheKey) (opts : ReadOptions) : Prog CacheCoordinator ReadResult :=
  match cluster with
  | none => pure { result := .miss }
  | some cl => fetchLoop H cl now key opts (cl.nodesForKey key) { result := .miss }

/-- The last part of `get`: the cluster is asked only with seed nodes configured. -/
def readCluster (H : ByteBuffer → Hash128) (env : ReadEnv) (key : CacheKey) (opts : ReadOptions) :
    Prog CacheCoordinator (Option ReadResult) := do
  let seeds ← Prog.atomic fun c => (c.config.cluster.seedNodes, c)
  if env.cluster.isSome && !seeds.isEmpty then do
    let result ← fetchFromCluster H env.cluster env.fillNow key opts
    pure (some result)
  else pure none

/-- `CacheCoordinator::get`. -/
def get (H : ByteBuffer → Hash128) (env : ReadEnv) (key : CacheKey) (opts : ReadOptions) :
    Prog CacheCoordinator ReadResult := do
  let found ← readMemory env.memoryNow key opts
  match found.filter (settles opts) with
  | some result => pure result
  | none => do
    let found ← onDisk (DiskCache.get env.diskNow key opts)
    match found.filter (settles opts) with
    | some result => pure result
    | none => do
      let found ← readCluster H env key opts
      match found.filter (settles opts) with
      | some result => pure result
      | none => pure { result := .miss }

/-- The first part of `put`: the memory level, unless it is skipped. -/
def putToMemory (H : ByteBuffer → Hash128) (p : PutCall) : Prog CacheCoordinator (Option Status) :=
  if p.opts.noMemory then pure none else onMemory (MemoryCache.put H p.memoryPut)

/-- The second part of `put`: the disk level, unless it is skipped. -/
def putToDisk (H : ByteBuffer → Hash128) (p : PutCall) : Prog CacheCoordinator (Option Status) :=
  if p.opts.noDisk then pure none else onDisk (DiskCache.put H p.env p.diskPut)

/-- `CacheCoordinator::put`. -/
def put (H : ByteBuffer → Hash128) (p : PutCall) : Prog CacheCoordinator Status := do
  let memoryStatus ← putToMemory H p
  match memoryStatus.filter (!·.isOk) with
  | some status => pure status
  | none => do
    let diskStatus ← putToDisk H p
    match diskStatus.filter (!·.isOk) with
    | some status => pure status
    | none =>
      if memoryStatus.isSome || diskStatus.isSome then pure .makeOk
      else pure (.error .internalError "No storage available")

/-- The first part of `remove`. -/
def removeFromMemory (key : CacheKey) (opts : DeleteOptions) :
    Prog CacheCoordinator (Option Status) :=
  if opts.fromMemory then onMemory (MemoryCache.remove key) else pure none

/-- The second part of `remove`. -/
def removeFromDisk (key : CacheKey) (opts : DeleteOptions) :
    Prog CacheCoordinator (Option Status) :=
  if opts.fromDisk then onDisk (DiskCache.remove key) else pure none

/-- `CacheCoordinator::remove`. What the levels answer is dropped. -/
def remove (key : CacheKey) (opts : DeleteOptions) : Prog CacheCoordinator Status := do
  let _ ← removeFromMemory key opts
  let _ ← removeFromDisk key opts
  pure .makeOk

/-- What a `check` sees of the cluster: the local node, the nodes a key maps to and what
`remote_check` returns from each. -/
structure CheckView where
  localNode : NodeId
  nodesForKey : CacheKey → List NodeId
  remoteCheck : NodeId → CacheKey → Option Range → AvailabilityResult

/-- The loop of `check` over the nodes of the key: the first that has the key answers. -/
def checkNodes (cluster : CheckView) (key : CacheKey) (range : Option Range) :
    List NodeId → AvailabilityResult → AvailabilityResult
  | [], result => result
  | node :: rest, result =>
    if node = cluster.localNode then checkNodes cluster key range rest result
    else
      let remoteResult := cluster.remoteCheck node key range
      if remoteResult.exists_ then remoteResult else checkNodes cluster key range rest result

/-- The merge of `check`: when both levels know the key, the available ranges of the disk level are
appended to those of the memory level, whose missing ranges stay. -/
def mergeDisk (result : AvailabilityResult) (diskResult : Option AvailabilityResult) :
    AvailabilityResult :=
  match diskResult.filter (·.exists_) with
  | none => result
  | some disk =>
    if result.exists_ then
      { result with availableRanges := result.availableRanges ++ disk.availableRanges }
    else disk

/-- `CacheCoordinator::check`. -/
def check (cluster : Option CheckView) (key : CacheKey) (range : Option Range) :
    Prog CacheCoordinator AvailabilityResult := do
  let memoryResult ← onMemory (MemoryCache.check key range)
  let result := memoryResult.getD {}
  if result.isComplete then pure result
  else do
    let diskResult ← onDisk (DiskCache.check key range)
    let result := mergeDisk result diskResult
    match cluster with
    | none => pure result
    | some cl =>
      if result.exists_ then pure result
      else pure (checkNodes cl key range (cl.nodesForKey key) result)

/-- `CacheCoordinator::metadata`. -/
def metadata (key : CacheKey) : Prog CacheCoordinator (Option CacheMetadata) := do
  let found ← onMemory (MemoryCache.metadata key)
  match found.join with
  | some metadata => pure (some metadata)
  | none => do
    let found ← onDisk (DiskCache.metadata key)
    pure found.join

/-! ## Calls -/

/-- A call of the coordinator. -/
inductive Call where
  | put (p : PutCall)
  | get (env : ReadEnv) (key : CacheKey) (opts : ReadOptions)
  | remove (key : CacheKey) (opts : DeleteOptions)

/-- For each key, its most recent successful put, if the key was not removed since. -/
abbrev History := CacheKey → Option PutCall

/-- One call executed alone, with the history it leaves. -/
def exec (H : ByteBuffer → Hash128) (call : Call) (s : CacheCoordinator × History) :
    CacheCoordinator × History :=
  match call with
  | .put p =>
    let r := (put H p).run s.1
    (r.2, if r.1.isOk then Function.update s.2 p.key (some p) else s.2)
  | .get env key opts => (((get H env key opts).run s.1).2, s.2)
  | .remove key opts => (((remove key opts).run s.1).2, Function.update s.2 key none)

/-- The state after a sequence of calls, with the history. -/
def after (H : ByteBuffer → Hash128) (config : Config) (calls : List Call) :
    CacheCoordinator × History :=
  runOps (exec H) calls (init config, fun _ => none)

/-- The chunk contents a call brings in. -/
def Call.chunks : Call → Set ByteBuffer
  | .put p => p.memoryPut.chunks
  | _ => ∅

/-- The chunk contents of a run. -/
def runChunks (calls : List Call) : Set ByteBuffer := { b | ∃ call ∈ calls, b ∈ call.chunks }

/-- No disk write of the call fails, no cluster is set, and a removal is a default one. -/
def Call.Plain : Call → Prop
  | .put p => p.env.Clean
  | .get env _ _ => env.cluster = none
  | .remove _ opts => opts = {}

end CacheCoordinator

end ElCache
