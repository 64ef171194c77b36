import ElCache.Config.Json

/-!
# The configuration file

`Config` with the fields that `Config::to_json` writes or `Config::load_json` reads, the text the
one produces and what the other takes from a text. The configuration that the components work with
(`ElCache.Config`) has only the fields they use.

Numbers in floating point are left to the standard library: `DoubleText` says which texts its output
operator produces and which of them `std::stod` accepts.
-/

namespace ElCache.ConfigFile

open Text SimpleJson

/-! ## Numbers in floating point -/

/-- What the output operator prints for a number: a special value, or a decimal fraction with at
least one digit in front of the point, and with an exponent if the number is very large or small. -/
inductive Shown where
  | nan (negative : Bool)
  | inf (negative : Bool)
  | number (negative : Bool) (lead : Fin 10) (whole fraction : List (Fin 10))
      (exponent : Option (Bool × List (Fin 10)))
  deriving DecidableEq, Repr

def minusText (negative : Bool) : ByteBuffer := if negative then ascii "-" else []

def digitText (ds : List (Fin 10)) : ByteBuffer := ds.map fun d => UInt8.ofNat (48 + d.val)

def pointText (fraction : List (Fin 10)) : ByteBuffer :=
  if fraction.isEmpty then [] else 46 :: digitText fraction

/-- The part of the text that `get_double` takes. -/
def Shown.mantissa : Shown → ByteBuffer
  | .nan negative => minusText negative
  | .inf negative => minusText negative
  | .number negative lead whole fraction _ =>
    minusText negative ++ (digitText (lead :: whole) ++ pointText fraction)

/-- The rest of the text. -/
def Shown.ending : Shown → ByteBuffer
  | .nan _ => ascii "nan"
  | .inf _ => ascii "inf"
  | .number _ _ _ _ none => []
  | .number _ _ _ _ (some (negative, ds)) =>
    101 :: (if negative then 45 else 43) :: digitText ds

def Shown.text (s : Shown) : ByteBuffer := s.mantissa ++ s.ending

/-- The negative special values. -/
def Shown.isNegativeSpecial : Shown → Bool
  | .nan negative => negative
  | .inf negative => negative
  | .number .. => false

def Shown.isNumber : Shown → Bool
  | .number .. => true
  | _ => false

/-- Input and output of numbers in floating point, as far as the configuration needs it. -/
structure DoubleText (D : Type) where
  /-- `operator<<` of an output stream. -/
  shown : D → Shown
  /-- `std::stod`. -/
  stod : ByteBuffer → Except StdException D
  /-- A literal of the source. -/
  literal : Rat → D
  /-- A sign alone is no number. -/
  stod_minus : stod (ascii "-") = .error .invalidArgument
  /-- The digits that are printed for a number are those of a number, also without the exponent. -/
  stod_mantissa : ∀ d, (shown d).isNumber = true → ∃ x, stod (shown d).mantissa = .ok x

/-! ## The fields -/

variable {D : Type}

structure MemoryCacheConfig (D : Type) where
  maxSize : UInt64 := 1024 * 1024 * 1024
  arcGhostSize : UInt64 := 0
  highWatermark : D
  lowWatermark : D

structure DiskCacheConfig (D : Type) where
  path : ByteBuffer := ascii "/var/cache/elcache"
  maxSize : UInt64 := 100 * 1024 * 1024 * 1024
  useDirectIo : Bool := true
  useFallocate : Bool := true
  highWatermark : D
  lowWatermark : D

structure NetworkConfig where
  bindAddress : ByteBuffer := ascii "0.0.0.0"
  clusterPort : UInt16 := 7890
  httpPort : UInt16 := 8080
  sdkPort : UInt16 := 7891
  unixSocketPath : ByteBuffer := ascii "/var/run/elcache/elcache.sock"
  shmPath : ByteBuffer := ascii "/elcache_shm"
  shmSize : UInt64 := 256 * 1024 * 1024
  maxConnections : UInt64 := 10000
  deriving DecidableEq

structure ClusterConfig where
  clusterName : ByteBuffer := ascii "elcache"
  seedNodes : List ByteBuffer := []
  /-- In milliseconds. -/
  gossipInterval : Int64 := 1000
  /-- In milliseconds. -/
  failureDetectionTimeout : Int64 := 10000
  gossipFanout : UInt64 := 3
  replicationFactor : UInt64 := 2
  preferLocal : Bool := true
  virtualNodes : UInt64 := 150
  deriving DecidableEq

structure PoolConfig where
  memoryContribution : UInt64 := 0
  diskContribution : UInt64 := 0
  acceptRemoteReads : Bool := true
  acceptRemoteWrites : Bool := true
  deriving DecidableEq

structure PerformanceConfig where
  ioThreads : UInt64 := 0
  workerThreads : UInt64 := 0
  maxConcurrentDiskOps : UInt64 := 64
  maxConcurrentNetworkOps : UInt64 := 256
  prefetchChunks : UInt64 := 2
  enableMetrics : Bool := true
  /-- In seconds. -/
  metricsInterval : Int64 := 60
  deriving DecidableEq

structure Config (D : Type) where
  nodeName : ByteBuffer := []
  memory : MemoryCacheConfig D
  disk : DiskCacheConfig D
  network : NetworkConfig := {}
  cluster : ClusterConfig := {}
  pool : PoolConfig := {}
  perf : PerformanceConfig := {}

/-- A new `MemoryCacheConfig`. -/
def MemoryCacheConfig.default (io : DoubleText D) : MemoryCacheConfig D :=
  { highWatermark := io.literal 0.95, lowWatermark := io.literal 0.85 }

/-- A new `DiskCacheConfig`. -/
def DiskCacheConfig.default (io : DoubleText D) : DiskCacheConfig D :=
  { highWatermark := io.literal 0.90, lowWatermark := io.literal 0.80 }

/-! ## Writing -/

def sizeText (n : UInt64) : ByteBuffer := decimal n.toNat

def portText (p : UInt16) : ByteBuffer := decimal p.toNat

def countText (n : Int64) : ByteBuffer := decimalInt n.toInt

def DoubleText.text (io : DoubleText D) (d : D) : ByteBuffer := (io.shown d).text

def MemoryCacheConfig.members (io : DoubleText D) (memory : MemoryCacheConfig D) :
    List (String × ByteBuffer) :=
  [("max_size", sizeText memory.maxSize),
   ("arc_ghost_size", sizeText memory.arcGhostSize),
   ("high_watermark", io.text memory.highWatermark),
   ("low_watermark", io.text memory.lowWatermark)]

def DiskCacheConfig.members (io : DoubleText D) (disk : DiskCacheConfig D) :
    List (String × ByteBuffer) :=
  [("path", quoted disk.path),
   ("max_size", sizeText disk.maxSize),
   ("use_direct_io", boolText disk.useDirectIo),
   ("use_fallocate", boolText disk.useFallocate),
   ("high_watermark", io.text disk.highWatermark),
   ("low_watermark", io.text disk.lowWatermark)]

def NetworkConfig.members (network : NetworkConfig) : List (String × ByteBuffer) :=
  [("bind_address", quoted network.bindAddress),
   ("cluster_port", portText network.clusterPort),
   ("http_port", portText network.httpPort),
   ("sdk_port", portText network.sdkPort),
   ("unix_socket_path", quoted network.unixSocketPath),
   ("shm_path", quoted network.shmPath),
   ("shm_size", sizeText network.shmSize),
   ("max_connections", sizeText network.maxConnections)]

def ClusterConfig.members (cluster : ClusterConfig) : List (String × ByteBuffer) :=
  [("cluster_name", quoted cluster.clusterName),
   ("seed_nodes", listText cluster.seedNodes),
   ("gossip_interval_ms", countText cluster.gossipInterval),
   ("failure_detection_timeout_ms", countText cluster.failureDetectionTimeout),
   ("gossip_fanout", sizeText cluster.gossipFanout),
   ("replication_factor", sizeText cluster.replicationFactor),
   ("prefer_local", boolText cluster.preferLocal),
   ("virtual_nodes", sizeText cluster.virtualNodes)]

def PoolConfig.members (pool : PoolConfig) : List (String × ByteBuffer) :=
  [("memory_contribution", sizeText pool.memoryContribution),
   ("disk_contribution", sizeText pool.diskContribution),
   ("accept_remote_reads", boolText pool.acceptRemoteReads),
   ("accept_remote_writes", boolText pool.acceptRemoteWrites)]

def PerformanceConfig.members (perf : PerformanceConfig) : List (String × ByteBuffer) :=
  [("io_threads", sizeText perf.ioThreads),
   ("worker_threads", sizeText perf.workerThreads),
   ("max_concurrent_disk_ops", sizeText perf.maxConcurrentDiskOps),
   ("max_concurrent_network_ops", sizeText perf.maxConcurrentNetworkOps),
   ("prefetch_chunks", sizeText perf.prefetchChunks),
   ("enable_metrics", boolText perf.enableMetrics),
   ("metrics_interval_s", countText perf.metricsInterval)]

/-- How a section ends: on a line of its own. -/
def sectionEnd : ByteBuffer := ascii "\n  \x7d"

def sectionText (ms : List (String × ByteBuffer)) : ByteBuffer := block 4 sectionEnd ms

def Config.members (io : DoubleText D) (c : Config D) : List (String × ByteBuffer) :=
  [("node_name", quoted c.nodeName),
   ("memory", sectionText (c.memory.members io)),
   ("disk", sectionText (c.disk.members io)),
   ("network", sectionText c.network.members),
   ("cluster", sectionText c.cluster.members),
   ("pool", sectionText c.pool.members),
   ("performance", sectionText c.perf.members)]

/-- `Config::to_json`. -/
def Config.toJson (io : DoubleText D) (c : Config D) : ByteBuffer :=
  block 2 (ascii "\n\x7d\n") (c.members io)

/-! ## Reading -/

/-- `get_int` into a `size_t`, with a default of this type. -/
def getSize (json : ByteBuffer) (key : String) (dflt : UInt64) : Except StdException UInt64 :=
  (getInt json key (wrapInt64 dflt.toNat)).map UInt64.ofInt

/-- `get_int` into a `uint16_t`. -/
def getPort (json : ByteBuffer) (key : String) (dflt : UInt16) : Except StdException UInt16 :=
  (getInt json key dflt.toNat).map UInt16.ofInt

/-- `get_int` into the count of a duration. -/
def getCount (json : ByteBuffer) (key : String) (dflt : Int64) : Except StdException Int64 :=
  (getInt json key dflt.toInt).map Int64.ofInt

def loadMemory (io : DoubleText D) (mem : ByteBuffer) :
    Except StdException (MemoryCacheConfig D) := do
  let config := MemoryCacheConfig.default io
  let maxSize ← getSize mem "max_size" config.maxSize
  let arcGhostSize ← getSize mem "arc_ghost_size" config.arcGhostSize
  let highWatermark ← getDouble io.stod mem "high_watermark" (io.literal 0.95)
  let lowWatermark ← getDouble io.stod mem "low_watermark" (io.literal 0.85)
  return { maxSize, arcGhostSize, highWatermark, lowWatermark }

def loadDisk (io : DoubleText D) (disk : ByteBuffer) : Except StdException (DiskCacheConfig D) := do
  let config := DiskCacheConfig.default io
  let diskPath := getString disk "path" []
  -- An empty path leaves the path of a new configuration.
  let path := if diskPath.isEmpty then config.path else diskPath
  let maxSize ← getSize disk "max_size" config.maxSize
  let useDirectIo := getBool disk "use_direct_io" true
  let useFallocate := getBool disk "use_fallocate" true
  let highWatermark ← getDouble io.stod disk "high_watermark" (io.literal 0.90)
  let lowWatermark ← getDouble io.stod disk "low_watermark" (io.literal 0.80)
  return { path, maxSize, useDirectIo, useFallocate, highWatermark, lowWatermark }

def loadNetwork (net : ByteBuffer) : Except StdException NetworkConfig := do
  let bindAddress := getString net "bind_address" (ascii "0.0.0.0")
  let clusterPort ← getPort net "cluster_port" 7890
  let httpPort ← getPort net "http_port" 8080
  let sdkPort ← getPort net "sdk_port" 7891
  let unixSocketPath := getString net "unix_socket_path" (ascii "/var/run/elcache/elcache.sock")
  let shmPath := getString net "shm_path" (ascii "/elcache_shm")
  let shmSize ← getSize net "shm_size" (256 * 1024 * 1024)
  let maxConnections ← getSize net "max_connections" 10000
  return {
    bindAddress, clusterPort, httpPort, sdkPort
    unixSocketPath, shmPath, shmSize, maxConnections }

def loadCluster (cluster : ByteBuffer) : Except StdException ClusterConfig := do
  let clusterName := getString cluster "cluster_name" (ascii "elcache")
  let seedNodes := getStringArray cluster "seed_nodes"
  let gossipInterval ← getCount cluster "gossip_interval_ms" 1000
  let failureDetectionTimeout ← getCount cluster "failure_detection_timeout_ms" 10000
  let gossipFanout ← getSize cluster "gossip_fanout" 3
  let replicationFactor ← getSize cluster "replication_factor" 2
  let preferLocal := getBool cluster "prefer_local" true
  let virtualNodes ← getSize cluster "virtual_nodes" 150
  return {
    clusterName, seedNodes, gossipInterval, failureDetectionTimeout
    gossipFanout, replicationFactor, preferLocal, virtualNodes }

def loadPool (pool : ByteBuffer) : Except StdException PoolConfig := do
  let memoryContribution ← getSize pool "memory_contribution" 0
  let diskContribution ← getSize pool "disk_contribution" 0
  let acceptRemoteReads := getBool pool "accept_remote_reads" true
  let acceptRemoteWrites := getBool pool "accept_remote_writes" true
  return { memoryContribution, diskContribution, acceptRemoteReads, acceptRemoteWrites }

/-- The interval of the metrics is not read. -/
def loadPerformance (perf : ByteBuffer) : Except StdException PerformanceConfig := do
  let ioThreads ← getSize perf "io_threads" 0
  let workerThreads ← getSize perf "worker_threads" 0
  let maxConcurrentDiskOps ← getSize perf "max_concurrent_disk_ops" 64
  let maxConcurrentNetworkOps ← getSize perf "max_concurrent_network_ops" 256
  let prefetchChunks ← getSize perf "prefetch_chunks" 2
  let enableMetrics := getBool perf "enable_metrics" true
  return {
    ioThreads, workerThreads, maxConcurrentDiskOps, maxConcurrentNetworkOps
    prefetchChunks, enableMetrics }

/-- `Config::load_json`. -/
def loadJson (io : DoubleText D) (json : ByteBuffer) : Except StdException (Config D) := do
  let nodeName := getString json "node_name" []
  let memory ← loadMemory io (getObject json "memory")
  let disk ← loadDisk io (getObject json "disk")
  let network ← loadNetwork (getObject json "network")
  let cluster ← loadCluster (getObject json "cluster")
  let pool ← loadPool (getObject json "pool")
  let perf ← loadPerformance (getObject json "performance")
  return { nodeName, memory, disk, network, cluster, pool, perf }

end ElCache.ConfigFile
