import ElCache.Cluster.Remote
import ElCache.Unix.Server

/-!
# The lengths in front of a value

Two messages carry a whole value: the `Put` that `Cluster::remote_put` sends to a replica, and the
reply of the Unix-socket server to a get. Both have the length of the payload in the header and the
length of the value in front of it, as 32-bit numbers, while a cache accepts values of up to
`MAX_VALUE_SIZE` bytes. Nothing checks the sizes before the conversion, so the two lengths are right
exactly for the payloads of less than `2^32` bytes (`lengths_faithful_iff`).
-/

namespace ElCache

open Slice Bytes

namespace Protocol

/-- A message that carries a value: the one of `Cluster::remote_put`, or the reply of
`UnixSocketServer::handle_get` to a request. -/
inductive ValueMessage where
  | replication (timestamp : UInt64) (key : CacheKey) (value : ByteBuffer) (ttl : Option Int64)
      (flags : UInt32)
  | getReply (time requestId : Nat) (server : Unix.Server) (key : ByteBuffer) (hasRange : Bool)
      (offset length : Nat)

namespace ValueMessage

/-- The bytes of the message. -/
def bytes : ValueMessage → ByteBuffer
  | .replication timestamp key value ttl flags =>
    encode timestamp (Connection.RemoteOp.put key value ttl flags).request 0
  | .getReply time requestId server key hasRange offset length =>
    Unix.sendResponse time .get requestId
      ((Unix.handle (.get key hasRange offset length)).run server).1.payload

/-- The value, or the part of it, that the message carries. -/
def data : ValueMessage → ByteBuffer
  | .replication _ _ value _ _ => value
  | .getReply _ _ server key hasRange offset length =>
    ((server.sync.get key).map (Unix.applyRange hasRange offset length)).getD []

/-- The number of bytes of the payload apart from the data. -/
def overhead : ValueMessage → Nat
  | .replication _ key _ ttl _ => 4 + key.size + 4 + (1 + if ttl.isSome then 8 else 0) + 4
  | .getReply .. => 4 + 1 + 4

/-- The position of the length of the data. -/
def lengthPos : ValueMessage → Nat
  | .replication _ key _ _ _ => headerSize + (4 + key.size)
  | .getReply .. => Unix.headerSize + 5

/-- The 32-bit number at a position. -/
def lengthAt (message : ByteBuffer) (pos : Nat) : Nat := leVal (slice message pos (pos + 4))

/-- The length in the header is the number of bytes behind the header, and the length of the data
is the number of bytes of the data behind it. -/
def Faithful (m : ValueMessage) : Prop :=
  lengthAt m.bytes 8 = m.bytes.length - headerSize ∧ lengthAt m.bytes m.lengthPos = m.data.length

theorem lengthAt_append {u v : ByteBuffer} {pos : Nat} (hu : u.length = pos) (n : Nat) :
    lengthAt (u ++ (leBytes 4 n ++ v)) pos = n % 2 ^ 32 :=
  leVal_slice_leBytes hu

theorem encodeU32_ofNat (n : Nat) : encodeU32 (UInt32.ofNat n) = leBytes 4 (n % 2 ^ 32) := by
  rw [encodeU32, UInt32.toNat_ofNat']

theorem length_encodeTtl (ttl : Option Int64) :
    (encodeOption (fun n : Int64 => encodeU64 n.toUInt64) ttl).length =
      1 + if ttl.isSome then 8 else 0 := by
  cases ttl with
  | none => rfl
  | some n => simp [encodeOption, encodeFlag, encodeU64]

/-- What a message looks like: a header with the length of the payload, some bytes, the length of
the data, the data and some more bytes, where both lengths are cut to 32 bits. -/
structure Layout (m : ValueMessage) (header front : ByteBuffer) (field : Nat) (back : ByteBuffer) :
    Prop where
  bytes : m.bytes = header ++ (front ++ (leBytes 4 field ++ (m.data ++ back)))
  field : field % 2 ^ 32 = m.data.length % 2 ^ 32
  length : header.length = headerSize
  headerField : lengthAt header 8 = (m.overhead + m.data.length) % 2 ^ 32
  lengthPos : headerSize + front.length = m.lengthPos
  overhead : front.length + 4 + back.length = m.overhead

theorem length_encodePut (timestamp : UInt64) (key : CacheKey) (value : ByteBuffer)
    (ttl : Option Int64) (flags : UInt32) :
    (encodePayload (.put key value ttl flags)).length =
      overhead (.replication timestamp key value ttl flags) + value.length := by
  simp only [encodePayload, overhead, CacheKey.size, List.length_append, length_encodeBytes,
    length_encodeTtl, encodeU32, length_leBytes]
  omega

/-- The message of `remote_put`. -/
theorem layout_replication (timestamp : UInt64) (key : CacheKey) (value : ByteBuffer)
    (ttl : Option Int64) (flags : UInt32) :
    Layout (.replication timestamp key value ttl flags)
      (encodeHeader .put (UInt32.ofNat (encodePayload (.put key value ttl flags)).length) 0
        timestamp)
      (encodeBytes key.data) (value.length % 2 ^ 32)
      (encodeOption (fun n : Int64 => encodeU64 n.toUInt64) ttl ++ encodeU32 flags) where
  bytes := by
    rw [ValueMessage.bytes, encode, Connection.RemoteOp.request]
    simp only [encodePayload, data, encodeBytes, encodeU32_ofNat, List.append_assoc]
    rfl
  field := Nat.mod_mod _ _
  length := length_encodeHeader ..
  headerField := by
    rw [encodeHeader, encodeU32_ofNat, List.append_assoc, List.append_assoc,
      lengthAt_append (by rfl), Nat.mod_mod, length_encodePut timestamp]
    rfl
  lengthPos := by
    rw [length_encodeBytes]
    rfl
  overhead := by
    rw [length_encodeBytes, List.length_append, length_encodeTtl, encodeU32, length_leBytes,
      ValueMessage.overhead, CacheKey.size]
    omega

/-- The reply of `handle_get`. -/
theorem layout_getReply (time requestId : Nat) (server : Unix.Server) (key : ByteBuffer)
    (hasRange : Bool) (offset length : Nat) :
    Layout (.getReply time requestId server key hasRange offset length)
      (Unix.encodeHeader (Unix.RequestType.responseCode .get)
        ((Unix.handle (.get key hasRange offset length)).run server).1.payload.length requestId
        time)
      (leBytes 4 (if (server.sync.get key).isSome then 0 else 1) ++ [0])
      (((server.sync.get key).map (Unix.applyRange hasRange offset length)).getD []).length
      [] where
  bytes := by
    rw [ValueMessage.bytes, Unix.sendResponse]
    congr 1
    simp only [Unix.handle, Prog.run_bind, Prog.run_atomic, Prog.run_pure, Unix.Answer.payload,
      Option.isSome_map, List.append_assoc, List.append_nil]
    rfl
  field := rfl
  length := Unix.length_encodeHeader
  headerField := by
    refine Unix.headerLength_encodeHeader.trans ?_
    simp only [Unix.handle, Prog.run_bind, Prog.run_atomic, Prog.run_pure, Unix.Answer.payload,
      List.length_append, length_leBytes, List.length_singleton]
    rfl
  lengthPos := by
    rw [List.length_append, length_leBytes]
    rfl
  overhead := by
    rw [List.length_append, length_leBytes]
    rfl

theorem exists_layout (m : ValueMessage) : ∃ header front field back,
    Layout m header front field back := by
  cases m with
  | replication timestamp key value ttl flags => exact ⟨_, _, _, _, layout_replication ..⟩
  | getReply time requestId server key hasRange offset length =>
    exact ⟨_, _, _, _, layout_getReply ..⟩

section
variable {m : ValueMessage} {header front back : ByteBuffer} {field : Nat}

theorem Layout.length_bytes (h : Layout m header front field back) :
    m.bytes.length = headerSize + (m.overhead + m.data.length) := by
  rw [h.bytes, ← h.overhead]
  simp only [List.length_append, length_leBytes, h.length]
  omega

theorem Layout.lengthAt_header (h : Layout m header front field back) :
    lengthAt m.bytes 8 = (m.overhead + m.data.length) % 2 ^ 32 := by
  rw [← h.headerField, h.bytes, lengthAt, slice_append_of_le (by rw [h.length]; decide), lengthAt]

theorem Layout.lengthAt_data (h : Layout m header front field back) :
    lengthAt m.bytes m.lengthPos = m.data.length % 2 ^ 32 := by
  rw [h.bytes, ← List.append_assoc, lengthAt_append, h.field]
  rw [List.length_append, h.length, h.lengthPos]

end

/-- A length of `2^32` or more is cut. -/
theorem not_faithful_of_le {m : ValueMessage} (h : 2 ^ 32 ≤ m.data.length) : ¬ m.Faithful := by
  obtain ⟨header, front, field, back, hlayout⟩ := m.exists_layout
  intro hfaithful
  have hdata := hlayout.lengthAt_data.symm.trans hfaithful.2
  omega

end ValueMessage

/-- The lengths in a message that carries a value are the numbers of bytes that follow them, exactly
if the payload is shorter than `2^32` bytes. -/
theorem lengths_faithful_iff (m : ValueMessage) :
    m.Faithful ↔ m.overhead + m.data.length < 2 ^ 32 := by
  obtain ⟨header, front, field, back, h⟩ := m.exists_layout
  rw [ValueMessage.Faithful, h.lengthAt_header, h.lengthAt_data, h.length_bytes]
  omega

/-- A server that stores a value. -/
def storing (value : ByteBuffer) : Unix.Server :=
  { sync := Unix.SyncCache.put [97] value {} }

theorem data_getReply_storing (value : ByteBuffer) :
    (ValueMessage.getReply 0 1 (storing value) [97] false 0 0).data = value := by
  simp [ValueMessage.data, storing, Unix.SyncCache.get, Unix.SyncCache.put, Unix.applyRange]

/-- A value of `2^32` bytes, which the caches accept, is announced as an empty one. -/
theorem lengths_not_faithful :
    (List.replicate (2 ^ 32) (0 : UInt8)).length ≤ maxValueSize ∧
      ¬ (ValueMessage.replication 0 ⟨[97]⟩ (List.replicate (2 ^ 32) 0) none 0).Faithful ∧
      ¬ (ValueMessage.getReply 0 1 (storing (List.replicate (2 ^ 32) 0)) [97] false 0
        0).Faithful := by
  have hlen : (List.replicate (2 ^ 32) (0 : UInt8)).length = 2 ^ 32 := List.length_replicate
  refine ⟨?_, ValueMessage.not_faithful_of_le ?_, ValueMessage.not_faithful_of_le ?_⟩
  · rw [hlen]
    decide
  · exact Nat.le_of_eq hlen.symm
  · rw [data_getReply_storing, hlen]

end Protocol

end ElCache
