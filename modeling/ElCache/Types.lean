import Mathlib.Algebra.Group.Int.Defs
import Mathlib.Algebra.GroupWithZero.Nat
import Mathlib.Data.Rat.Defs

/-!
# Core types

The types of `types.hpp`, `cache.hpp` and `config.hpp` that the cache levels exchange. Byte buffers
are lists of bytes; a `ByteView` carries the fact that its size is a 64-bit number, as that of a
`std::span` is. Sizes and offsets are natural numbers, and an operation of the source that can leave
the 64-bit range wraps explicitly (`wrap64`, `sub64`). A clock reading is an integer number of
nanoseconds.
-/

namespace ElCache

/-- `MAX_KEY_SIZE`: 8 KiB. -/
def maxKeySize : Nat := 8 * 1024

/-- `MAX_VALUE_SIZE`: 20 TiB. -/
def maxValueSize : Nat := 20 * 1024 * 1024 * 1024 * 1024

/-- `CHUNK_SIZE`: 4 MiB. -/
def chunkSize : Nat := 4 * 1024 * 1024

theorem chunkSize_pos : 0 < chunkSize := by decide

theorem chunkSize_le : chunkSize ≤ 2 ^ 22 := by decide

theorem chunkSize_lt : chunkSize < 2 ^ 64 := by decide

-- proofs about chunks never depend on the number
attribute [irreducible] chunkSize

theorem maxValueSize_lt : maxValueSize < 2 ^ 64 := by decide

/-- The value of a 64-bit unsigned computation. -/
def wrap64 (n : Nat) : Nat := n % 2 ^ 64

/-- Unsigned 64-bit subtraction. -/
def sub64 (a b : Nat) : Nat := (a + 2 ^ 64 - b % 2 ^ 64) % 2 ^ 64

theorem wrap64_of_lt {n : Nat} (h : n < 2 ^ 64) : wrap64 n = n := Nat.mod_eq_of_lt h

theorem sub64_of_le {a b : Nat} (hab : b ≤ a) (ha : a < 2 ^ 64) : sub64 a b = a - b := by
  unfold sub64
  omega

abbrev ByteBuffer := List UInt8

/-- A byte span: its size fits `size_t`. -/
structure ByteView where
  bytes : ByteBuffer
  size_lt : bytes.length < 2 ^ 64
  deriving DecidableEq

/-- `ByteView::size`. -/
def ByteView.size (v : ByteView) : Nat := v.bytes.length

/-- The span of one byte. -/
def ByteView.single (byte : UInt8) : ByteView :=
  ⟨[byte], Nat.one_lt_two_pow (Nat.succ_ne_zero 63)⟩

/-- Two bytes are fewer than `size_t` can count. -/
theorem length_pair_lt (x y : UInt8) : [x, y].length < 2 ^ 64 := by simp

/-- The span of two bytes. -/
def ByteView.pair (x y : UInt8) : ByteView := ⟨[x, y], length_pair_lt x y⟩

/-- A 128-bit content hash. -/
structure Hash128 where
  low : UInt64
  high : UInt64
  deriving DecidableEq, Repr

/-- A content-addressed chunk identifier. -/
structure ChunkId where
  hash : Hash128
  deriving DecidableEq, Repr

/-- A cache key. Its precomputed hashes are functions of `data`, so equality of keys is equality
of `data`. -/
structure CacheKey where
  data : ByteBuffer
  deriving DecidableEq, Repr

def CacheKey.size (k : CacheKey) : Nat := k.data.length

/-- A node identifier. -/
structure NodeId where
  value : UInt64
  deriving DecidableEq, Repr

/-- A byte range for partial reads. -/
structure Range where
  offset : Nat
  length : Nat
  deriving DecidableEq, Repr

/-- `Range::end`: the sum wraps. -/
def Range.endOffset (r : Range) : Nat := wrap64 (r.offset + r.length)

/-- A `system_clock` reading, in nanoseconds. -/
abbrev Timestamp := Int

/-- The value of a signed 64-bit computation. -/
def wrapInt64 (x : Int) : Int := x.bmod (2 ^ 64)

/-- A value of a signed 64-bit number. -/
def IsInt64 (x : Int) : Prop := -2 ^ 63 ≤ x ∧ x < 2 ^ 63

instance decidableIsInt64 (x : Int) : Decidable (IsInt64 x) := inferInstanceAs (Decidable (_ ∧ _))

theorem isInt64_wrapInt64 (x : Int) : IsInt64 (wrapInt64 x) := by
  rw [wrapInt64, Int.bmod, IsInt64]
  split
  · omega
  · omega

/-- A computation that stays in range is exact, and no other. -/
theorem wrapInt64_eq_self_iff {x : Int} : wrapInt64 x = x ↔ IsInt64 x := by
  rw [wrapInt64, Int.bmod, IsInt64]
  split
  · omega
  · omega

/-- A time point plus a number of seconds: the seconds become nanoseconds, both operations in
signed 64-bit arithmetic. -/
def Timestamp.addSeconds (t : Timestamp) (n : Int) : Timestamp :=
  wrapInt64 (t + wrapInt64 (n * 1000000000))

structure CacheMetadata where
  totalSize : Nat := 0
  chunkCount : Nat := 0
  createdAt : Timestamp := 0
  lastAccessed : Timestamp := 0
  expiresAt : Option Timestamp := none
  flags : UInt32 := 0
  deriving DecidableEq, Repr

/-- `CacheMetadata::is_expired` at the clock reading `now`. -/
def CacheMetadata.isExpired (m : CacheMetadata) (now : Timestamp) : Bool :=
  match m.expiresAt with
  | none => false
  | some t => decide (t ≤ now)

inductive CacheResult where
  | hit | miss | partialHit | error | expired | notFound
  deriving DecidableEq, Repr

inductive ErrorCode where
  | ok | keyTooLarge | valueTooLarge | notFound | partialData | networkError | diskError | timeout
  | invalidArgument | outOfMemory | internalError
  deriving DecidableEq, Repr

structure Status where
  code : ErrorCode := .ok
  message : String := ""
  deriving DecidableEq, Repr

/-- `Status::make_ok`. -/
def Status.makeOk : Status := {}

/-- `Status::error`. -/
def Status.error (code : ErrorCode) (message : String := "") : Status := ⟨code, message⟩

/-- `Status::is_ok`. -/
def Status.isOk (s : Status) : Bool := s.code = .ok

/-- The result of a read. -/
structure ReadResult where
  result : CacheResult := .miss
  data : ByteBuffer := []
  actualRange : Range := ⟨0, 0⟩
  metadata : Option CacheMetadata := none
  deriving DecidableEq, Repr

def ReadResult.isHit (r : ReadResult) : Bool := r.result = .hit

def ReadResult.isPartial (r : ReadResult) : Bool := r.result = .partialHit

structure WriteOptions where
  /-- Time to live, in seconds. -/
  ttl : Option Int := none
  flags : UInt32 := 0
  noMemory : Bool := false
  noDisk : Bool := false
  noCluster : Bool := false
  deriving DecidableEq, Repr

structure ReadOptions where
  allowPartial : Bool := true
  range : Option Range := none
  deriving DecidableEq, Repr

structure DeleteOptions where
  fromMemory : Bool := true
  fromDisk : Bool := true
  fromCluster : Bool := true
  deriving DecidableEq, Repr

/-! ## Configuration -/

/-- Sizes in bytes; the watermarks are exact rationals. -/
structure MemoryCacheConfig where
  maxSize : Nat := 1024 * 1024 * 1024
  highWatermark : Rat := 95 / 100
  lowWatermark : Rat := 85 / 100

structure DiskCacheConfig where
  path : List String := ["", "var", "cache", "elcache"]
  maxSize : Nat := 100 * 1024 * 1024 * 1024
  highWatermark : Rat := 90 / 100
  lowWatermark : Rat := 80 / 100

structure NetworkConfig where
  clusterPort : UInt16 := 7890
  httpPort : UInt16 := 8080
  sdkPort : UInt16 := 7891

structure ClusterConfig where
  seedNodes : List String := []
  replicationFactor : Nat := 2
  preferLocal : Bool := true

structure Config where
  memory : MemoryCacheConfig := {}
  disk : DiskCacheConfig := {}
  network : NetworkConfig := {}
  cluster : ClusterConfig := {}

/-- `Config::validate`. -/
def Config.validate (c : Config) : Status :=
  if c.memory.maxSize = 0 ∧ c.disk.maxSize = 0 then
    .error .invalidArgument "At least one of memory or disk cache must be enabled"
  else if c.memory.highWatermark ≤ c.memory.lowWatermark then
    .error .invalidArgument "Memory high_watermark must be greater than low_watermark"
  else if c.disk.highWatermark ≤ c.disk.lowWatermark then
    .error .invalidArgument "Disk high_watermark must be greater than low_watermark"
  else if c.network.httpPort = c.network.clusterPort ∨ c.network.httpPort = c.network.sdkPort ∨
      c.network.clusterPort = c.network.sdkPort then
    .error .invalidArgument "Network ports must be unique"
  else if c.cluster.replicationFactor = 0 then
    .error .invalidArgument "Replication factor must be at least 1"
  else .makeOk

/-- The default configuration passes its own check. -/
theorem Config.validate_default : ({} : Config).validate = .makeOk := by decide +kernel

end ElCache
