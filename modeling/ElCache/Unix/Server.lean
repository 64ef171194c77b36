import ElCache.Lib.Prog
import ElCache.Lib.Stream
import ElCache.Sparse.Cache
import ElCache.Unix.Payload

/-!
# The Unix-socket server

`unix_server.cpp`: a connection carries messages of a 24-byte header and a payload.
`process_request` reads one message, runs the handler its type names and sends the reply. The
handlers work on two tables, the values (`SyncCache`) and the open uploads (`SparseCache`), each
behind a mutex of its own, so that a handler is a program whose atomic steps are the calls of the
tables. The asynchronous handlers and those of the thread-based fallback do the same.

`processRequest_request` says what a well-formed message leads to, however the stream is cut.
-/

namespace ElCache

open Slice Bytes

namespace Unix

/-! ## Messages -/

/-- `PROTO_MAGIC`: "ELCA". -/
def protoMagic : Nat := 0x454C4341

/-- `PROTO_VERSION`. -/
def protoVersion : Nat := 1

/-- `HEADER_SIZE`. -/
def headerSize : Nat := 24

/-- The type of the message that carries a request. -/
def Request.type : Request → RequestType
  | .get _ _ _ _ => .get
  | .put _ _ => .put
  | .delete _ => .delete
  | .createSparse _ _ => .createSparse
  | .writeRange _ _ _ => .writeRange
  | .finalize _ => .finalize

/-- The `MessageType` of a request. -/
def RequestType.code : RequestType → Nat
  | .get => 0x0100
  | .put => 0x0102
  | .delete => 0x0104
  | .createSparse => 0x0108
  | .writeRange => 0x010A
  | .finalize => 0x010C

/-- The `MessageType` of the reply to a request. -/
def RequestType.responseCode : RequestType → Nat
  | .get => 0x0101
  | .put => 0x0103
  | .delete => 0x0105
  | .createSparse => 0x0109
  | .writeRange => 0x010B
  | .finalize => 0x010D

/-- The request a message type stands for, if the server handles it. -/
def RequestType.ofCode : Nat → Option RequestType
  | 0x0100 => some .get
  | 0x0102 => some .put
  | 0x0104 => some .delete
  | 0x0108 => some .createSparse
  | 0x010A => some .writeRange
  | 0x010C => some .finalize
  | _ => none

theorem RequestType.ofCode_code (type : RequestType) : ofCode type.code = some type := by
  cases type <;> rfl

theorem RequestType.code_lt (type : RequestType) : type.code < 2 ^ 16 := by
  cases type <;> decide

theorem RequestType.responseCode_lt (type : RequestType) : type.responseCode < 2 ^ 16 := by
  cases type <;> decide

/-- `encode_header`, which the server and the C SDK both have. The length is cut to 32 bits. -/
def encodeHeader (type payloadLen requestId time : Nat) : ByteBuffer :=
  leBytes 4 protoMagic ++ leBytes 2 protoVersion ++ leBytes 2 type ++ leBytes 4 payloadLen ++
    leBytes 4 requestId ++ leBytes 8 time

/-- The magic number of a header. -/
def headerMagic (header : ByteBuffer) : Nat := leVal (slice header 0 4)

/-- The message type of a header. -/
def headerType (header : ByteBuffer) : Nat := leVal (slice header 6 8)

/-- The payload length of a header. -/
def headerLength (header : ByteBuffer) : Nat := leVal (slice header 8 12)

/-- The request id of a header. -/
def headerId (header : ByteBuffer) : Nat := leVal (slice header 12 16)

section
variable {type payloadLen requestId time : Nat}

@[simp] theorem length_encodeHeader :
    (encodeHeader type payloadLen requestId time).length = headerSize := by
  simp [encodeHeader, headerSize]

theorem headerMagic_encodeHeader :
    headerMagic (encodeHeader type payloadLen requestId time) = protoMagic := by
  rw [headerMagic, encodeHeader, List.append_assoc, List.append_assoc, List.append_assoc,
    List.append_assoc, ← List.nil_append (leBytes 4 protoMagic ++ _),
    leVal_slice_leBytes (u := []) (a := 0) rfl]
  rfl

theorem headerType_encodeHeader (h : type < 2 ^ 16) :
    headerType (encodeHeader type payloadLen requestId time) = type := by
  rw [headerType, encodeHeader, List.append_assoc, List.append_assoc, List.append_assoc,
    leVal_slice_leBytes (by simp)]
  exact Nat.mod_eq_of_lt h

theorem headerLength_encodeHeader :
    headerLength (encodeHeader type payloadLen requestId time) = payloadLen % 2 ^ 32 := by
  rw [headerLength, encodeHeader, List.append_assoc, List.append_assoc,
    leVal_slice_leBytes (by simp)]
  rfl

theorem headerId_encodeHeader :
    headerId (encodeHeader type payloadLen requestId time) = requestId % 2 ^ 32 := by
  rw [headerId, encodeHeader, List.append_assoc, leVal_slice_leBytes (by simp)]
  rfl

end

/-! ## The tables -/

/-- `SyncCache`, with keys as byte strings. -/
structure SyncCache where
  data : ByteBuffer → Option ByteBuffer := fun _ => none

namespace SyncCache

/-- `SyncCache::put`. -/
def put (key value : ByteBuffer) (c : SyncCache) : SyncCache :=
  ⟨Function.update c.data key (some value)⟩

/-- `SyncCache::get`. -/
def get (key : ByteBuffer) (c : SyncCache) : Option ByteBuffer := c.data key

/-- `SyncCache::remove`. -/
def remove (key : ByteBuffer) (c : SyncCache) : Bool × SyncCache :=
  ((c.data key).isSome, ⟨Function.update c.data key none⟩)

end SyncCache

/-- The state the handlers share: `g_sync_cache` and `global_sparse_cache()`. -/
structure Server where
  sync : SyncCache := {}
  sparse : SparseCache := {}

/-! ## The handlers -/

/-- What a handler answers: the data of a get, if the key was found, or a code. -/
inductive Answer where
  | value (found : Option ByteBuffer)
  | code (n : Nat)
  deriving DecidableEq, Repr

/-- The payload of the reply. A get sends the result code, no metadata, and the data with its length
cut to 32 bits. -/
def Answer.payload : Answer → ByteBuffer
  | .value found =>
    let data := found.getD []
    leBytes 4 (if found.isSome then 0 else 1) ++ [0] ++ leBytes 4 data.length ++ data
  | .code n => leBytes 4 n

/-- The part of a value that `handle_get` sends. A length of 0 means up to the end. -/
def applyRange (hasRange : Bool) (offset length : Nat) (value : ByteBuffer) : ByteBuffer :=
  if hasRange then
    if offset < value.length then
      let available := value.length - offset
      let toCopy := if 0 < length ∧ length < available then length else available
      slice value offset (offset + toCopy)
    else []
  else value

/-- The handlers, after they have read their payloads. -/
def handle : Request → Prog Server Answer
  | .get key hasRange offset length => do
    let found ← Prog.atomic fun s => (s.sync.get key, s)
    pure (.value (found.map (applyRange hasRange offset length)))
  | .put key value => do
    Prog.atomic fun s => ((), { s with sync := s.sync.put key value })
    pure (.code 0)
  | .delete key => do
    let _ ← Prog.atomic fun s =>
      let r := s.sync.remove key
      (r.1, { s with sync := r.2 })
    pure (.code 0)
  | .createSparse key totalSize => do
    let created ← Prog.atomic fun s =>
      let r := s.sparse.create key totalSize
      (r.1, { s with sparse := r.2 })
    pure (.code (if created then 0 else 1))
  | .writeRange key offset data => do
    let success ← Prog.atomic fun s =>
      let r := s.sparse.writeRange key offset data
      (r.1, { s with sparse := r.2 })
    if success then pure (.code 0)
    else do
      let found ← Prog.atomic fun s => (s.sparse.existsKey key, s)
      pure (.code (if found then 2 else 1))
  | .finalize key => do
    let result ← Prog.atomic fun s =>
      let r := s.sparse.finalize key
      ((r.1, r.2.1), { s with sparse := r.2.2 })
    match result with
    | (0, some data) => do
      Prog.atomic fun s => ((), { s with sync := s.sync.put key data })
      pure (.code 0)
    | (code, _) => pure (.code code)

/-- A write run alone. -/
theorem run_handle_writeRange (key : ByteBuffer) (offset : Nat) (data : ByteBuffer) (s : Server) :
    (handle (.writeRange key offset data)).run s =
      let r := s.sparse.writeRange key offset data
      (.code (if r.1 then 0 else if r.2.existsKey key then 2 else 1),
        { s with sparse := r.2 }) := by
  rw [handle, Prog.run_bind, Prog.run_atomic, Prog.run_ite]
  dsimp only
  split
  · rfl
  · rw [Prog.run_bind]
    rfl

/-- A finalize run alone. -/
theorem run_handle_finalize (key : ByteBuffer) (s : Server) :
    (handle (.finalize key)).run s =
      let r := s.sparse.finalize key
      (.code r.1, { sync := (r.2.1.map fun data => s.sync.put key data).getD s.sync
                    sparse := r.2.2 }) := by
  rw [handle, Prog.run_bind, Prog.run_atomic]
  rw [SparseCache.finalize]
  cases s.sparse.entries key with
  | none => rfl
  | some e =>
    cases he : e.isComplete with
    | true =>
      simp only [he, if_true, Prog.run_bind]
      rfl
    | false =>
      simp only [he, Bool.false_eq_true, if_false]
      rfl

/-- The code of a finalize. -/
theorem finalize_code_le (key : ByteBuffer) (c : SparseCache) : (c.finalize key).1 ≤ 2 := by
  rw [SparseCache.finalize]
  cases c.entries key with
  | none => exact (by decide : 1 ≤ 2)
  | some e =>
    dsimp only
    split
    · exact Nat.zero_le 2
    · exact Nat.le_refl 2

/-- `send_response`: the bytes of the reply. -/
def sendResponse (time : Nat) (type : RequestType) (requestId : Nat) (payload : ByteBuffer) :
    ByteBuffer :=
  encodeHeader type.responseCode payload.length requestId time ++ payload

/-! ## One request -/

/-- How `process_request` goes on: it waits for more input; it gives up the connection, or a handler
has read past its payload; or it has run a handler, and goes on with the rest of the input. -/
inductive Processed where
  | waiting
  | closed
  | handled (reply : Prog Server ByteBuffer) (rest : List ByteBuffer)

/-- `UnixSocketServer::process_request`. A message of an unknown type, or one that its handler
rejects, gets no reply. -/
def processRequest (time : Nat) (input : List ByteBuffer) : Processed :=
  match Stream.readAll input headerSize with
  | .error _ => .waiting
  | .ok (header, input) =>
    if headerMagic header ≠ protoMagic then .closed
    else
      match Stream.readAll input (headerLength header) with
      | .error _ => .waiting
      | .ok (payload, rest) =>
        match RequestType.ofCode (headerType header) with
        | none => .handled (pure []) rest
        | some type =>
          match parse type payload with
          | .error _ => .closed
          | .ok none => .handled (pure []) rest
          | .ok (some request) =>
            .handled (do
              let answer ← handle request
              pure (sendResponse time type (headerId header) answer.payload)) rest

/-- A message whose payload is that of a request is answered, however the stream that starts with it
is cut. -/
theorem processRequest_request {type : RequestType} {payload more : ByteBuffer}
    {request : Request} (hparse : parse type payload = .ok (some request))
    (hlen : payload.length < 2 ^ 32) {requestId : Nat} (hid : requestId < 2 ^ 32)
    {input : List ByteBuffer} {sent : Nat} (hproper : Stream.Proper input)
    (hinput : input.flatten =
      encodeHeader type.code payload.length requestId sent ++ payload ++ more)
    (time : Nat) : ∃ rest, rest.flatten = more ∧ Stream.Proper rest ∧
      processRequest time input = .handled (do
        let answer ← handle request
        pure (sendResponse time type requestId answer.payload)) rest := by
  rw [List.append_assoc] at hinput
  obtain ⟨body, hread, hbody, hproper'⟩ := Stream.readAll_append hproper hinput
  obtain ⟨rest, hread', hrest, hproper''⟩ := Stream.readAll_append hproper' hbody
  rw [length_encodeHeader] at hread
  refine ⟨rest, hrest, hproper'', ?_⟩
  simp only [processRequest, hread, headerMagic_encodeHeader, ne_eq, not_true_eq_false, if_false,
    headerLength_encodeHeader, Nat.mod_eq_of_lt hlen, hread',
    headerType_encodeHeader type.code_lt, RequestType.ofCode_code, hparse, headerId_encodeHeader,
    Nat.mod_eq_of_lt hid]

end Unix

end ElCache
