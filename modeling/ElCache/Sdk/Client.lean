import ElCache.Unix.Server

/-!
# The C SDK

`elcache_client.c` on a connected Unix socket. A call builds its request in the send buffer, sends
it, and reads the reply: the header, then as many bytes as the header says. `Op.request` is the part
up to the send, which may return early, and `receive` the rest, as a function of the pieces that
arrive.

Replies are read into the receive buffer of the client, which keeps what earlier calls have left in
it. The C code stores at any index, inside the two buffers or behind them; `Client.overrun` marks
that a byte has been stored behind one of them, after which the C program may do anything.
Statistics are left out, and so are the checks for null pointers and for a missing connection.
-/

namespace ElCache

open Slice Bytes Overlay

namespace Sdk

open Unix

/-- `elcache_error_t`. -/
inductive Code where
  | ok
  | invalidArg
  | notFound
  | partialData
  | timeout
  | connection
  | protocol
  | bufferTooSmall
  | keyTooLarge
  | valueTooLarge
  | outOfMemory
  | internal
  deriving DecidableEq, Repr

/-- The options of a get that the SDK looks at. -/
structure GetOptions where
  offset : UInt64 := 0
  length : UInt64 := 0
  deriving DecidableEq, Repr

/-- The options of a put that the SDK sends. -/
structure PutOptions where
  ttlSeconds : Int64 := 0
  flags : UInt32 := 0
  deriving DecidableEq

/-- A call of the SDK. A get has the size of the caller's buffer. -/
inductive Op where
  | get (key : ByteBuffer) (bufferSize : Nat) (options : Option GetOptions)
  | put (key value : ByteBuffer) (options : Option PutOptions)
  | delete (key : ByteBuffer)
  | createSparse (key : ByteBuffer) (totalSize : UInt64) (options : Option PutOptions)
  | writeRange (key : ByteBuffer) (offset : UInt64) (data : ByteBuffer)
  | finalize (key : ByteBuffer)
  deriving DecidableEq

/-- `elcache_client`, with a mark that says whether a byte has been stored behind the end of the
send or the receive buffer. What the model does once the mark is set is what the C code does as long
as the bytes behind the buffers happen to be its own. -/
structure Client where
  recvBuffer : ByteBuffer
  sendBufferSize : Nat
  nextRequestId : UInt32 := 1
  lastError : String := ""
  overrun : Bool := false
  deriving DecidableEq

/-- `DEFAULT_RECV_BUFFER` and `DEFAULT_SEND_BUFFER`. -/
def defaultBuffer : Nat := 256 * 1024

/-! ## Requests -/

/-- The key of a request, with its length. -/
def encodeKey (key : ByteBuffer) : ByteBuffer := leBytes 4 key.length ++ key

/-- Whether a get asks for a range: it has options, and the offset or the length is not 0. -/
def hasRange : Option GetOptions → Bool
  | none => false
  | some options => 0 < options.offset || 0 < options.length

/-- The payload of a get. -/
def getPayload (key : ByteBuffer) (options : Option GetOptions) : ByteBuffer :=
  encodeKey key ++ [0] ++
    if hasRange options then
      [1] ++ leBytes 8 (options.getD {}).offset.toNat ++ leBytes 8 (options.getD {}).length.toNat
    else [0]

/-- The time to live and the flags that a put and a create send. -/
def encodeOptions (options : Option PutOptions) : ByteBuffer :=
  let ttl := (options.getD {}).ttlSeconds
  (if 0 < ttl then [1] ++ leBytes 8 ttl.toUInt64.toNat else [0]) ++
    leBytes 4 (options.getD {}).flags.toNat

/-- The payload of a put. -/
def putPayload (key value : ByteBuffer) (options : Option PutOptions) : ByteBuffer :=
  encodeKey key ++ leBytes 4 value.length ++ value ++ encodeOptions options

/-- The payload of a create. -/
def createSparsePayload (key : ByteBuffer) (totalSize : UInt64) (options : Option PutOptions) :
    ByteBuffer :=
  encodeKey key ++ leBytes 8 totalSize.toNat ++ encodeOptions options

/-- The payload of a write. -/
def writeRangePayload (key : ByteBuffer) (offset : UInt64) (data : ByteBuffer) : ByteBuffer :=
  encodeKey key ++ leBytes 8 offset.toNat ++ leBytes 4 data.length ++ data

/-- The type of the request of a call. -/
def Op.type : Op → RequestType
  | .get _ _ _ => .get
  | .put _ _ _ => .put
  | .delete _ => .delete
  | .createSparse _ _ _ => .createSparse
  | .writeRange _ _ _ => .writeRange
  | .finalize _ => .finalize

/-- The payload a call sends. -/
def Op.payload : Op → ByteBuffer
  | .get key _ options => getPayload key options
  | .put key value options => putPayload key value options
  | .delete key => encodeKey key
  | .createSparse key totalSize options => createSparsePayload key totalSize options
  | .writeRange key offset data => writeRangePayload key offset data
  | .finalize key => encodeKey key

/-- The check of the key's length. Delete and finalize make none. -/
def Op.keyTooLarge : Op → Bool
  | .get key .. | .put key .. | .createSparse key .. | .writeRange key .. => 8192 < key.length
  | .delete _ | .finalize _ => false

/-- The size that put and write-range compare with the buffer's, a sum in `size_t`; the others
compare none. -/
def Op.needed : Op → Option Nat
  | .put key value _ =>
    some (wrap64 (headerSize + 4 + key.length + 4 + value.length + 1 + 8 + 4))
  | .writeRange key _ data => some (wrap64 (headerSize + 4 + key.length + 8 + 4 + data.length))
  | _ => none

/-- The message of a call whose request is larger than the send buffer. -/
def Op.tooLargeText : Op → String
  | .writeRange _ _ _ => "Data too large for buffer"
  | _ => "Value too large for buffer"

/-- What a call does before it sends: it returns early with a code and a message, or it has the type
and the payload of a request. -/
def Op.request (sendBufferSize : Nat) (op : Op) :
    Except (Code × String) (RequestType × ByteBuffer) :=
  bif op.keyTooLarge then .error (.keyTooLarge, "Key too large")
  else bif op.needed.any (sendBufferSize < ·) then .error (.valueTooLarge, op.tooLargeText)
  else .ok (op.type, op.payload)

/-- The bytes of a request. -/
def message (time : Nat) (type : RequestType) (requestId : UInt32) (payload : ByteBuffer) :
    ByteBuffer :=
  encodeHeader type.code payload.length requestId.toNat time ++ payload

/-! ## Replies -/

/-- What a call returns: the code and, for a get, what it has copied into the caller's buffer and
the length it has stored. -/
structure Result where
  code : Code
  value : ByteBuffer := []
  valueLen : Option Nat := none
  deriving DecidableEq, Repr

namespace Client

/-- `set_error`. -/
def setError (c : Client) (message : String) : Client := { c with lastError := message }

/-- The client once the request with this payload stands in the send buffer: its id is taken, and
the buffer is overrun if the header and the payload are longer. -/
def built (c : Client) (payload : ByteBuffer) : Client :=
  { c with
    nextRequestId := c.nextRequestId + 1
    overrun := c.overrun || decide (c.sendBufferSize < headerSize + payload.length) }

/-- Bytes received into the receive buffer, which is overrun if some lie behind its end. -/
def store (c : Client) (pos : Nat) (bytes : ByteBuffer) : Client :=
  { c with
    recvBuffer := overwrite c.recvBuffer pos bytes
    overrun := c.overrun || (!bytes.isEmpty && decide (c.recvBuffer.length < pos + bytes.length)) }

/-- `recv_all` of `n` bytes to position `pos` of the receive buffer: the bytes and the pieces that
are left, or an error when the stream stays silent for too long. -/
def recvAll (c : Client) (pos n : Nat) (input : List ByteBuffer) :
    Except Client (ByteBuffer × Client × List ByteBuffer) :=
  match Stream.readAll input n with
  | .ok (bytes, rest) => .ok (bytes, c.store pos bytes, rest)
  | .error bytes => .error ((c.store pos bytes).setError "Receive failed")

/-- The bytes from the start of the payload on, as they lie in memory after the payload has been
received: those behind it were there before. If the payload has overrun the buffer, this is what the
C code reads only as long as nothing else has used the memory behind it. -/
def response (c : Client) (payload : ByteBuffer) : ByteBuffer :=
  payload ++ c.recvBuffer.drop (headerSize + payload.length)

end Client

/-- The end of `elcache_client_get`: the result in the response, with the message of an error. -/
def parseGet (bufferSize : Nat) (resp : ByteBuffer) : Result × Option String :=
  let result := leVal (slice resp 0 4)
  let pos := if (resp[4]?).getD 0 ≠ 0 then 25 else 5
  let dataLen := leVal (slice resp pos (pos + 4))
  if result = 1 then ({ code := .notFound }, some "Key not found")
  else if bufferSize < dataLen then
    ({ code := .bufferTooSmall, valueLen := some dataLen }, some "Buffer too small")
  else
    ({ code := if result = 2 then .partialData else .ok
       value := slice resp (pos + 4) (pos + 4 + dataLen)
       valueLen := some dataLen }, none)

/-- What the calls other than get make of the code in the reply. -/
def Op.parseCode : Op → Nat → Code × Option String
  | .get _ _ _, _ => (.ok, none)
  | .put _ _ _, code => if code ≠ 0 then (.internal, some "Put failed") else (.ok, none)
  | .delete _, _ => (.ok, none)
  | .createSparse _ _ _, code =>
    if code ≠ 0 then (.internal, some "Create sparse failed") else (.ok, none)
  | .writeRange _ _ _, code =>
    if code = 1 then (.notFound, some "Key not found or not sparse")
    else if code = 2 then (.invalidArg, some "Invalid range")
    else if code ≠ 0 then (.internal, some "Write range failed")
    else (.ok, none)
  | .finalize _, code =>
    if code = 1 then (.notFound, some "Key not found")
    else if code = 2 then (.partialData, some "Not all ranges written")
    else if code ≠ 0 then (.internal, some "Finalize failed")
    else (.ok, none)

/-- The client after a call that may have set an error. -/
def Client.note (c : Client) (message : Option String) : Client :=
  match message with
  | none => c
  | some text => c.setError text

/-- `elcache_client_get` after the send. -/
def receiveGet (c : Client) (bufferSize : Nat) (input : List ByteBuffer) :
    Result × Client × List ByteBuffer :=
  match c.recvAll 0 headerSize input with
  | .error c => ({ code := .connection }, c, [])
  | .ok (header, c, input) =>
    if headerMagic header ≠ protoMagic then
      ({ code := .protocol }, c.setError "Invalid response magic", input)
    else if headerType header ≠ RequestType.get.responseCode then
      ({ code := .protocol }, c.setError "Unexpected response type", input)
    else if sub64 c.recvBuffer.length headerSize < headerLength header then
      ({ code := .bufferTooSmall }, c.setError "Response too large", input)
    else
      match c.recvAll headerSize (headerLength header) input with
      | .error c => ({ code := .connection }, c, [])
      | .ok (payload, c, input) =>
        let r := parseGet bufferSize (c.response payload)
        (r.1, c.note r.2, input)

/-- The other calls after the send. They check neither the magic number nor the type of the reply,
nor whether it fits the receive buffer. -/
def receiveCode (op : Op) (c : Client) (input : List ByteBuffer) :
    Result × Client × List ByteBuffer :=
  match c.recvAll 0 headerSize input with
  | .error c => ({ code := .connection }, c, [])
  | .ok (header, c, input) =>
    match c.recvAll headerSize (headerLength header) input with
    | .error c => ({ code := .connection }, c, [])
    | .ok (payload, c, input) =>
      let r := op.parseCode (leVal (slice (c.response payload) 0 4))
      ({ code := r.1 }, c.note r.2, input)

/-- A call after the send: its result, the client, and the pieces it has not read. -/
def Op.receive (op : Op) (c : Client) (input : List ByteBuffer) :
    Result × Client × List ByteBuffer :=
  match op with
  | .get _ bufferSize _ => receiveGet c bufferSize input
  | _ => receiveCode op c input

end Sdk

end ElCache
