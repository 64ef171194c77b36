import ElCache.Types
import ElCache.Lib.Decoder

/-!
# Cluster messages and their codec

`protocol.hpp` and `codec.cpp`. A message is encoded as a header of 24 bytes and a payload, all
numbers least significant byte first. `decode` reads the fields of the message type the header
names, in the order `encode` writes them. Field readers check that there are enough bytes and report
an error, except for the boolean bytes, which are read as `data[0]` without a check.

An enumeration of the source is an `int`, and `decode` casts whatever number it has read; result and
error codes are therefore 32-bit numbers here. Strings are byte strings.
-/

namespace ElCache

namespace Protocol

open Bytes Decoding

/-- `VERSION`. -/
def version : UInt16 := 1

/-- The magic number, "ELCA". -/
def magic : UInt32 := 0x454C4341

inductive MessageType where
  | hello | helloAck
  | gossipPush | gossipPull | gossipAck
  | get | getResponse | put | putResponse | delete | deleteResponse | check | checkResponse
  | getChunk | getChunkResponse | putChunk | putChunkResponse | hasChunk | hasChunkResponse
  | streamStart | streamData | streamEnd | streamAck | streamAbort
  | nodeJoin | nodeLeave | nodeStatus
  | error
  deriving DecidableEq, Repr

/-- The number of a message type. -/
def MessageType.code : MessageType → UInt16
  | .hello => 0x0001
  | .helloAck => 0x0002
  | .gossipPush => 0x0010
  | .gossipPull => 0x0011
  | .gossipAck => 0x0012
  | .get => 0x0100
  | .getResponse => 0x0101
  | .put => 0x0102
  | .putResponse => 0x0103
  | .delete => 0x0104
  | .deleteResponse => 0x0105
  | .check => 0x0106
  | .checkResponse => 0x0107
  | .getChunk => 0x0200
  | .getChunkResponse => 0x0201
  | .putChunk => 0x0202
  | .putChunkResponse => 0x0203
  | .hasChunk => 0x0204
  | .hasChunkResponse => 0x0205
  | .streamStart => 0x0300
  | .streamData => 0x0301
  | .streamEnd => 0x0302
  | .streamAck => 0x0303
  | .streamAbort => 0x0304
  | .nodeJoin => 0x0400
  | .nodeLeave => 0x0401
  | .nodeStatus => 0x0402
  | .error => 0xFFFF

structure MessageHeader where
  magic : UInt32 := Protocol.magic
  version : UInt16 := Protocol.version
  type : UInt16
  length : UInt32
  requestId : UInt32
  timestamp : UInt64
  deriving DecidableEq, Repr

/-- `MessageHeader::SIZE`. -/
def headerSize : Nat := 24

structure NodeInfo where
  id : NodeId
  address : ByteBuffer
  port : UInt16
  memoryCapacity : UInt64
  memoryUsed : UInt64
  diskCapacity : UInt64
  diskUsed : UInt64
  generation : UInt64
  state : UInt32
  lastSeen : Timestamp := 0
  deriving DecidableEq, Repr

inductive Message where
  | hello (sender : NodeInfo) (clusterName : ByteBuffer) (capabilities : List ByteBuffer)
  | helloAck (sender : NodeInfo) (accepted : Bool) (rejectReason : ByteBuffer)
  | gossipPush (sender : NodeId) (nodes : List NodeInfo)
  | gossipPull (sender : NodeId) (requested : List NodeId)
  | gossipAck (sender : NodeId) (nodes : List NodeInfo)
  | get (key : CacheKey) (metadataOnly : Bool) (range : Option Range)
  | getResponse (result : UInt32) (metadata : Option CacheMetadata) (data : ByteBuffer)
      (actualRange : Range)
  | put (key : CacheKey) (data : ByteBuffer) (ttl : Option Int64) (flags : UInt32)
  | putResponse (code : UInt32) (message : ByteBuffer)
  | delete (key : CacheKey)
  | deleteResponse (code : UInt32) (existed : Bool)
  | check (key : CacheKey) (range : Option Range)
  | checkResponse (present : Bool) (metadata : Option CacheMetadata) (availableRanges : List Range)
  | getChunk (id : ChunkId) (offset length : UInt64)
  | getChunkResponse (found : Bool) (data : ByteBuffer)
  | putChunk (id : ChunkId) (data : ByteBuffer)
  | putChunkResponse (code : UInt32)
  | hasChunk (ids : List ChunkId)
  | hasChunkResponse (present : List Bool)
  | streamStart (streamId : UInt32) (key : CacheKey) (totalSize chunkCount : UInt64)
  | streamData (streamId : UInt32) (sequence : UInt64) (data : ByteBuffer)
  | streamEnd (streamId : UInt32) (checksum : Hash128)
  | streamAck (streamId : UInt32) (ackedSequence : UInt64) (code : UInt32)
  | streamAbort (streamId : UInt32) (reason : UInt32) (message : ByteBuffer)
  | error (code : UInt32) (message : ByteBuffer) (originalRequestId : UInt32)
  deriving DecidableEq, Repr

/-! ## Encoding -/

/-- `Codec::encode_u16`. -/
def encodeU16 (v : UInt16) : ByteBuffer := leBytes 2 v.toNat

/-- `Codec::encode_u32`. -/
def encodeU32 (v : UInt32) : ByteBuffer := leBytes 4 v.toNat

/-- `Codec::encode_u64`. -/
def encodeU64 (v : UInt64) : ByteBuffer := leBytes 8 v.toNat

/-- A boolean byte. -/
def encodeFlag (b : Bool) : ByteBuffer := [if b then 1 else 0]

/-- `Codec::encode_string` and `Codec::encode_bytes`: the length, cut to 32 bits, and the bytes. -/
def encodeBytes (data : ByteBuffer) : ByteBuffer := encodeU32 (UInt32.ofNat data.length) ++ data

/-- The two numbers of a range. -/
def encodeRange (r : Range) : ByteBuffer :=
  encodeU64 (UInt64.ofNat r.offset) ++ encodeU64 (UInt64.ofNat r.length)

/-- The fields of the metadata that are sent. -/
def encodeMetadata (m : CacheMetadata) : ByteBuffer :=
  encodeU64 (UInt64.ofNat m.totalSize) ++ encodeU64 (UInt64.ofNat m.chunkCount) ++ encodeU32 m.flags

/-- A boolean byte that says whether there is a value, and the value. -/
def encodeOption {α : Type} (encode : α → ByteBuffer) : Option α → ByteBuffer
  | none => encodeFlag false
  | some a => encodeFlag true ++ encode a

/-- The number of values, cut to 32 bits, and the values. -/
def encodeList {α : Type} (encode : α → ByteBuffer) (as : List α) : ByteBuffer :=
  encodeU32 (UInt32.ofNat as.length) ++ as.flatMap encode

/-- `encode_node_info`. -/
def encodeNodeInfo (info : NodeInfo) : ByteBuffer :=
  encodeU64 info.id.value ++ encodeBytes info.address ++ encodeU16 info.port ++
    encodeU64 info.memoryCapacity ++ encodeU64 info.memoryUsed ++ encodeU64 info.diskCapacity ++
    encodeU64 info.diskUsed ++ encodeU64 info.generation ++ encodeU32 info.state

/-- The message type `Codec::encode` sends. -/
def Message.type : Message → MessageType
  | .hello .. => .hello
  | .helloAck .. => .helloAck
  | .gossipPush .. => .gossipPush
  | .get .. => .get
  | .getResponse .. => .getResponse
  | .put .. => .put
  | .putResponse .. => .putResponse
  | .delete .. => .delete
  | .deleteResponse .. => .deleteResponse
  | .check .. => .check
  | .checkResponse .. => .checkResponse
  | .getChunk .. => .getChunk
  | .getChunkResponse .. => .getChunkResponse
  | _ => .error

/-- The payload `Codec::encode` builds. Messages without a case of their own have none. -/
def encodePayload : Message → ByteBuffer
  | .hello sender clusterName capabilities =>
    encodeNodeInfo sender ++ encodeBytes clusterName ++ encodeList encodeBytes capabilities
  | .helloAck sender accepted rejectReason =>
    encodeNodeInfo sender ++ encodeFlag accepted ++ encodeBytes rejectReason
  | .gossipPush sender nodes => encodeU64 sender.value ++ encodeList encodeNodeInfo nodes
  | .get key metadataOnly range =>
    encodeBytes key.data ++ encodeFlag metadataOnly ++ encodeOption encodeRange range
  | .getResponse result metadata data actualRange =>
    encodeU32 result ++ encodeOption encodeMetadata metadata ++ encodeBytes data ++
      encodeRange actualRange
  | .put key data ttl flags =>
    encodeBytes key.data ++ encodeBytes data ++
      encodeOption (fun n : Int64 => encodeU64 n.toUInt64) ttl ++ encodeU32 flags
  | .putResponse code message => encodeU32 code ++ encodeBytes message
  | .delete key => encodeBytes key.data
  | .deleteResponse code existed => encodeU32 code ++ encodeFlag existed
  | .check key range => encodeBytes key.data ++ encodeOption encodeRange range
  | .checkResponse present metadata availableRanges =>
    encodeFlag present ++ encodeOption encodeMetadata metadata ++
      encodeList encodeRange availableRanges
  | .getChunk id offset length =>
    encodeU64 id.hash.low ++ encodeU64 id.hash.high ++ encodeU64 offset ++ encodeU64 length
  | .getChunkResponse found data => encodeFlag found ++ encodeBytes data
  | .error code message originalRequestId =>
    encodeU32 code ++ encodeBytes message ++ encodeU32 originalRequestId
  | _ => []

/-- `Codec::encode_header` at the clock reading `timestamp`. -/
def encodeHeader (type : MessageType) (payloadLen requestId : UInt32) (timestamp : UInt64) :
    ByteBuffer :=
  encodeU32 magic ++ encodeU16 version ++ encodeU16 type.code ++ encodeU32 payloadLen ++
    encodeU32 requestId ++ encodeU64 timestamp

/-- `Codec::encode`. -/
def encode (timestamp : UInt64) (m : Message) (requestId : UInt32) : ByteBuffer :=
  encodeHeader m.type (UInt32.ofNat (encodePayload m).length) requestId timestamp ++ encodePayload m

/-! ## Decoding -/

/-- Decoders with the messages of the exceptions thrown. -/
abbrev Reader (α : Type) := Decoder String α

/-- `Codec::decode_u16`. -/
def decodeU16 : Reader UInt16 := do
  let v ← Decoder.number 2 "Truncated u16"
  pure (UInt16.ofNat v)

/-- `Codec::decode_u32`. -/
def decodeU32 : Reader UInt32 := do
  let v ← Decoder.number 4 "Truncated u32"
  pure (UInt32.ofNat v)

/-- `Codec::decode_u64`. -/
def decodeU64 : Reader UInt64 := do
  let v ← Decoder.number 8 "Truncated u64"
  pure (UInt64.ofNat v)

/-- `Codec::decode_string` and `Codec::decode_bytes`, which differ in the text of their error. -/
def decodeCounted (text : String) : Reader ByteBuffer := do
  let len ← decodeU32
  Decoder.take len.toNat text

/-- `Codec::decode_string`. -/
def decodeString : Reader ByteBuffer := decodeCounted "Truncated string"

/-- `Codec::decode_bytes`. -/
def decodeBytes : Reader ByteBuffer := decodeCounted "Truncated bytes"

/-- The two numbers of a range. -/
def decodeRange : Reader Range := do
  let offset ← decodeU64
  let length ← decodeU64
  pure ⟨offset.toNat, length.toNat⟩

/-- The fields of the metadata that are sent. -/
def decodeMetadata : Reader CacheMetadata := do
  let totalSize ← decodeU64
  let chunkCount ← decodeU64
  let flags ← decodeU32
  pure { totalSize := totalSize.toNat, chunkCount := chunkCount.toNat, flags := flags }

/-- A boolean byte and, if it is set, a value. -/
def decodeOption {α : Type} (decode : Reader α) : Reader (Option α) := do
  let present ← Decoder.flag
  if present then do
    let a ← decode
    pure (some a)
  else pure none

/-- A number of values and the values. -/
def decodeList {α : Type} (decode : Reader α) : Reader (List α) := do
  let count ← decodeU32
  decode.times count.toNat

/-- `decode_node_info`. -/
def decodeNodeInfo : Reader NodeInfo := do
  let id ← decodeU64
  let address ← decodeString
  let port ← decodeU16
  let memoryCapacity ← decodeU64
  let memoryUsed ← decodeU64
  let diskCapacity ← decodeU64
  let diskUsed ← decodeU64
  let generation ← decodeU64
  let state ← decodeU32
  pure { id := ⟨id⟩, address, port, memoryCapacity, memoryUsed, diskCapacity, diskUsed, generation,
         state }

/-- The case `Hello` of `Codec::decode`. -/
def decodeHello : Reader Message := do
  let sender ← decodeNodeInfo
  let clusterName ← decodeString
  let capabilities ← decodeList decodeString
  pure (.hello sender clusterName capabilities)

/-- The case `HelloAck` of `Codec::decode`. -/
def decodeHelloAck : Reader Message := do
  let sender ← decodeNodeInfo
  let accepted ← Decoder.flag
  let rejectReason ← decodeString
  pure (.helloAck sender accepted rejectReason)

/-- The case `GossipPush` of `Codec::decode`. -/
def decodeGossipPush : Reader Message := do
  let sender ← decodeU64
  let nodes ← decodeList decodeNodeInfo
  pure (.gossipPush ⟨sender⟩ nodes)

/-- The case `Get` of `Codec::decode`. -/
def decodeGet : Reader Message := do
  let key ← decodeString
  let metadataOnly ← Decoder.flag
  let range ← decodeOption decodeRange
  pure (.get ⟨key⟩ metadataOnly range)

/-- The case `GetResponse` of `Codec::decode`. -/
def decodeGetResponse : Reader Message := do
  let result ← decodeU32
  let metadata ← decodeOption decodeMetadata
  let data ← decodeBytes
  let actualRange ← decodeRange
  pure (.getResponse result metadata data actualRange)

/-- The case `Put` of `Codec::decode`. -/
def decodePut : Reader Message := do
  let key ← decodeString
  let data ← decodeBytes
  let ttl ← decodeOption decodeU64
  let flags ← decodeU32
  pure (.put ⟨key⟩ data (ttl.map UInt64.toInt64) flags)

/-- The case `PutResponse` of `Codec::decode`. -/
def decodePutResponse : Reader Message := do
  let code ← decodeU32
  let message ← decodeString
  pure (.putResponse code message)

/-- The case `Delete` of `Codec::decode`. -/
def decodeDelete : Reader Message := do
  let key ← decodeString
  pure (.delete ⟨key⟩)

/-- The case `DeleteResponse` of `Codec::decode`. The boolean byte is read and not skipped. -/
def decodeDeleteResponse : Reader Message := do
  let code ← decodeU32
  let existed ← Decoder.peekFlag
  pure (.deleteResponse code existed)

/-- The case `Error` of `Codec::decode`. -/
def decodeError : Reader Message := do
  let code ← decodeU32
  let message ← decodeString
  let originalRequestId ← decodeU32
  pure (.error code message originalRequestId)

/-- The switch of `Codec::decode`, by the number of the type in the header. -/
def decodePayload (type : UInt16) : Reader Message :=
  if type = MessageType.hello.code then decodeHello
  else if type = MessageType.helloAck.code then decodeHelloAck
  else if type = MessageType.gossipPush.code then decodeGossipPush
  else if type = MessageType.get.code then decodeGet
  else if type = MessageType.getResponse.code then decodeGetResponse
  else if type = MessageType.put.code then decodePut
  else if type = MessageType.putResponse.code then decodePutResponse
  else if type = MessageType.delete.code then decodeDelete
  else if type = MessageType.deleteResponse.code then decodeDeleteResponse
  else if type = MessageType.error.code then decodeError
  else Decoder.fail "Unknown message type"

/-- The reads of `Codec::parse_header`, after its check of the size. -/
def decodeHeader : Reader MessageHeader := do
  let magic ← decodeU32
  let version ← decodeU16
  let type ← decodeU16
  let length ← decodeU32
  let requestId ← decodeU32
  let timestamp ← decodeU64
  if magic = Protocol.magic then pure { magic, version, type, length, requestId, timestamp }
  else Decoder.fail "Invalid magic number"

/-- `Codec::parse_header`. -/
def parseHeader : Reader MessageHeader := fun s =>
  if s.data.length < headerSize then .error (.error "Truncated header") else decodeHeader s

/-- The body of `Codec::decode`, as a decoder. -/
def decodeMessage : Reader (Message × MessageHeader) := do
  let header ← parseHeader
  let m ← decodePayload header.type
  pure (m, header)

/-- `Codec::decode`. -/
def decode (data : ByteBuffer) : Except (Failure String) (Message × MessageHeader) :=
  match decodeMessage ⟨data, []⟩ with
  | .error e => .error e
  | .ok (r, _) => .ok r

end Protocol

end ElCache
