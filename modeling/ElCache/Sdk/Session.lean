import ElCache.Sdk.SendBuffer

/-!
# Calls on a connection

A `Session` is a client, the server, and the bytes under way between them. A call sends its request;
the server processes what has come in, one message after the other (`pump`); and the call reads its
reply. The streams are cut at any places (`Stream.Link`), and no receive times out: a call that
finds too few bytes would wait for ever, and stands here as a connection error.

A get whose reply does not fit the receive buffer returns without reading the payload, so that the
next call starts in the middle of a message. The other calls store a reply that does not fit behind
the end of the buffer, and some of them a request that does not fit the send buffer. These are the
only ways: `calls_framed` says that every call reads exactly the reply to its request, and overruns
neither buffer, as long as requests and replies fit.
-/

namespace ElCache

open Slice Bytes Overlay

namespace Sdk

open Unix

/-! ## The loop of the server -/

/-- What the server has done with its input: the bytes sent, the input left, and whether it has
given up the connection. -/
structure Pumped where
  sent : ByteBuffer
  input : List ByteBuffer
  server : Server
  closed : Bool

/-- `UnixSocketServer::handle_client`: one request after the other, for at most so many rounds. -/
def pump (time : Nat) : Nat → List ByteBuffer → Server → Pumped
  | 0, input, s => ⟨[], input, s, false⟩
  | rounds + 1, input, s =>
    match processRequest time input with
    | .waiting => ⟨[], input, s, false⟩
    | .closed => ⟨[], [], s, true⟩
    | .handled reply rest =>
      let r := reply.run s
      let next := pump time rounds rest r.2
      { next with sent := r.1 ++ next.sent }

/-- A single request is answered, and the server waits for the next. -/
theorem pump_request {type : RequestType} {payload : ByteBuffer} {request : Request}
    (hparse : parse type payload = .ok (some request)) (hlen : payload.length < 2 ^ 32)
    {requestId sent : Nat} (hid : requestId < 2 ^ 32) {input : List ByteBuffer}
    (hproper : Stream.Proper input)
    (hinput : input.flatten = encodeHeader type.code payload.length requestId sent ++ payload)
    (time rounds : Nat) (s : Server) :
    pump time (rounds + 1) input s =
      ⟨sendResponse time type requestId ((handle request).run s).1.payload, [],
        ((handle request).run s).2, false⟩ := by
  rw [← List.append_nil (_ ++ payload)] at hinput
  obtain ⟨rest, hrest, hproper', hproc⟩ :=
    processRequest_request hparse hlen hid hproper hinput time
  have hnil : rest = [] := hproper'.eq_nil hrest
  have hwait : ∀ s, pump time rounds [] s = ⟨[], [], s, false⟩ := by
    intro s
    cases rounds with
    | zero => rfl
    | succ n => rfl
  rw [pump, hproc, hnil]
  simp only [hwait, Prog.run_bind, Prog.run_pure, List.append_nil]

/-! ## Sessions -/

/-- A client and the server on one connection. `up` is input the server has not processed, and
`down` what it has sent and the client has not read. -/
structure Session where
  client : Client
  server : Server := {}
  up : List ByteBuffer := []
  down : ByteBuffer := []
  closed : Bool := false

/-- The bytes that a put or a write passes on are an array of the caller, and no object in memory is
larger than `PTRDIFF_MAX` bytes. -/
def Op.InMemory : Op → Prop
  | .put _ value _ => value.length < 2 ^ 63
  | .writeRange _ _ data => data.length < 2 ^ 63
  | _ => True

instance decidableInMemory : (op : Op) → Decidable op.InMemory
  | .put _ value _ => inferInstanceAs (Decidable (value.length < 2 ^ 63))
  | .writeRange _ _ data => inferInstanceAs (Decidable (data.length < 2 ^ 63))
  | .get _ _ _ | .delete _ | .createSparse _ _ _ | .finalize _ => .isTrue trivial

/-- A call, with the cuts of the two streams and the clock readings it meets. -/
structure Call where
  op : Op
  up : Stream.Link UInt8 := .single
  down : Stream.Link UInt8 := .single
  sentAt : Nat := 0
  repliedAt : Nat := 0
  inMemory : op.InMemory

namespace Session

/-- One call. -/
def call (call : Call) (s : Session) : Result × Session :=
  match call.op.request s.client.sendBufferSize with
  | .error (code, text) => ({ code := code }, { s with client := s.client.setError text })
  | .ok (type, payload) =>
    let bytes := message call.sentAt type s.client.nextRequestId payload
    let input := s.up ++ call.up.carry bytes
    let pumped := if s.closed then ⟨[], input, s.server, true⟩
      else pump call.repliedAt (input.flatten.length + 1) input s.server
    let r := call.op.receive (s.client.built payload) (call.down.carry (s.down ++ pumped.sent))
    (r.1, ⟨r.2.1, pumped.server, pumped.input, r.2.2.flatten, pumped.closed⟩)

/-- The state after a call. -/
def exec (call : Call) (s : Session) : Session := (s.call call).2

/-- Nothing is under way on the connection: the next call starts to read at a message boundary. -/
structure Aligned (s : Session) : Prop where
  up : s.up = []
  down : s.down = []
  opened : s.closed = false

/-- The answer of the server to the call. -/
def answer (call : Call) (s : Session) : Answer := ((handle call.op.asRequest).run s.server).1

/-- The call stays inside the send buffer and, if it sends its request, the request and the reply
are shorter than `2^32` bytes and the receive buffer holds the reply with its header. -/
def Fits (call : Call) (s : Session) : Prop :=
  call.op.StaysInside s.client.sendBufferSize ∧
    match call.op.request s.client.sendBufferSize with
    | .error _ => True
    | .ok (_, payload) => payload.length < 2 ^ 32 ∧ (s.answer call).payload.length < 2 ^ 32 ∧
      headerSize + (s.answer call).payload.length ≤ s.client.recvBuffer.length

end Session

/-! ## What a call does -/

/-- A handler answers a get with data and the other requests with a code. -/
theorem answers_handle (op : Op) (s : Server) : op.Answers ((handle op.asRequest).run s).1 := by
  cases op with
  | get key bufferSize options =>
    rw [Op.asRequest]
    split <;> trivial
  | put key value options => exact (by decide : 0 < 2 ^ 32)
  | delete key => exact (by decide : 0 < 2 ^ 32)
  | createSparse key totalSize options =>
    show (if _ then 0 else 1) < 2 ^ 32
    split <;> decide
  | writeRange key offset data =>
    rw [Op.asRequest, run_handle_writeRange]
    show (if _ then 0 else if _ then 2 else 1) < 2 ^ 32
    split
    · decide
    · split <;> decide
  | finalize key =>
    rw [Op.asRequest, run_handle_finalize]
    exact Nat.lt_of_le_of_lt (finalize_code_le key s.sparse) (by decide)

namespace Session

variable {s : Session} {call : Call}

/-- A call that sends a request whose reply fits: it returns what the answer of the server stands
for, and leaves the connection aligned. If the receive buffer holds the reply with its header, only
building the request may overrun a buffer. -/
theorem call_request (hs : s.Aligned)
    (hreq : call.op.request s.client.sendBufferSize = .ok (call.op.asRequest.type, call.op.payload))
    (hlen : call.op.payload.length < 2 ^ 32)
    (hfits : call.op.ReplyFits s.client.recvBuffer.length (s.answer call)) :
    (s.call call).1 = call.op.result (s.answer call) ∧
      (s.call call).2.Aligned ∧
      (s.call call).2.server = ((handle call.op.asRequest).run s.server).2 ∧
      (s.call call).2.client.recvBuffer.length = s.client.recvBuffer.length ∧
      (s.call call).2.client.sendBufferSize = s.client.sendBufferSize ∧
      (headerSize + (s.answer call).payload.length ≤ s.client.recvBuffer.length →
        (s.call call).2.client.overrun = (s.client.built call.op.payload).overrun) := by
  have hans : call.op.Answers (s.answer call) := answers_handle call.op s.server
  obtain ⟨answer, hanswer⟩ : ∃ answer, s.answer call = answer := ⟨_, rfl⟩
  have hrun : ((handle call.op.asRequest).run s.server).1 = answer := hanswer
  rw [hanswer] at hans hfits
  obtain ⟨reply, hreply⟩ : ∃ reply, sendResponse call.repliedAt call.op.asRequest.type
    s.client.nextRequestId.toNat answer.payload = reply := ⟨_, rfl⟩
  have hin : (call.up.carry (message call.sentAt call.op.asRequest.type s.client.nextRequestId
      call.op.payload)).flatten = encodeHeader call.op.asRequest.type.code call.op.payload.length
        s.client.nextRequestId.toNat call.sentAt ++ call.op.payload :=
    call.up.flatten_carry _
  have hpump := pump_request (parse_payload hlen) hlen (UInt32.toNat_lt _)
    (call.up.proper_carry _) hin call.repliedAt
  have hout : (call.down.carry reply).flatten = sendResponse call.repliedAt call.op.asRequest.type
      s.client.nextRequestId.toNat answer.payload ++ [] := by
    rw [List.append_nil, hreply, call.down.flatten_carry]
  obtain ⟨c', rest, hrec, halike, hrest, -, hinside⟩ := receive_sendResponse hans
    (s.client.built call.op.payload) hfits (call.down.proper_carry _) hout
  have hcall : s.call call = (call.op.result answer,
      ⟨c', ((handle call.op.asRequest).run s.server).2, [], [], false⟩) := by
    simp only [Session.call, hreq, hs.up, hs.down, hs.opened, List.nil_append, Bool.false_eq_true,
      if_false, hpump, hrun, hreply, hrec, hrest]
  rw [hcall, hanswer]
  exact ⟨rfl, ⟨rfl, rfl, rfl⟩, rfl, halike.recvBufferSize, halike.sendBufferSize, hinside⟩

/-- A call that returns early changes the last error only. -/
theorem call_early {e : Code × String}
    (hreq : call.op.request s.client.sendBufferSize = .error e) :
    s.call call = ({ code := e.1 }, { s with client := s.client.setError e.2 }) := by
  rw [Session.call, hreq]

/-- The call has got what it waited for and has read all that the server has sent, and neither it
nor a call before has stored a byte behind one of the buffers. -/
def Framed (call : Call) (s : Session) : Prop :=
  (s.call call).1.code ≠ .connection ∧ (exec call s).Aligned ∧ (exec call s).client.overrun = false

/-- What every call finds: the connection is at a message boundary, and the buffers are intact. The
size of the receive buffer is one that the client can compute with. -/
structure Ready (s : Session) : Prop where
  aligned : s.Aligned
  intact : s.client.overrun = false
  recvBuffer : s.client.recvBuffer.length < 2 ^ 64

/-- A reply that the receive buffer holds with its header is one that a get reads. -/
theorem replyFits_of_le {op : Op} {answer : Answer} {size : Nat} (hsize : size < 2 ^ 64)
    (hshort : answer.payload.length < 2 ^ 32) (hfits : headerSize + answer.payload.length ≤ size) :
    op.ReplyFits size answer := by
  refine ⟨hshort, ?_⟩
  rcases op.get_or_code with ⟨key, bufferSize, options, rfl⟩ | ⟨-, -, -, hholds⟩
  · show _ ≤ sub64 _ _
    rw [sub64_of_le (by omega) hsize]
    omega
  · exact hholds _ _

/-- One call at a message boundary. -/
theorem framed_call (hs : s.Ready) (hfits : Fits call s) :
    Framed call s ∧ (exec call s).Ready := by
  obtain ⟨hstays, hfits⟩ := hfits
  rcases call.op.request_cases s.client.sendBufferSize with ⟨e, hreq, hcode⟩ | hreq
  · -- the call returns early, and only its code and the last error say so
    have haligned : (exec call s).Aligned := by
      rw [exec, call_early hreq]
      exact ⟨hs.aligned.up, hs.aligned.down, hs.aligned.opened⟩
    have hintact : (exec call s).client.overrun = false := by
      rw [exec, call_early hreq]
      exact hs.intact
    have hready : (exec call s).Ready := by
      refine ⟨haligned, hintact, ?_⟩
      rw [exec, call_early hreq]
      exact hs.recvBuffer
    refine ⟨⟨?_, haligned, hintact⟩, hready⟩
    rw [call_early hreq]
    rcases hcode with hcode | hcode
    · rw [hcode]
      exact nofun
    · rw [hcode]
      exact nofun
  · rw [hreq] at hfits
    obtain ⟨hlen, hshort, hholds⟩ := hfits
    obtain ⟨hresult, haligned, -, hrecv, -, hinside⟩ := call_request hs.aligned hreq hlen
      (replyFits_of_le hs.recvBuffer hshort hholds)
    have hintact : (exec call s).client.overrun = false :=
      (hinside hholds).trans ((overrun_built hreq).2 ⟨hs.intact, hstays⟩)
    exact ⟨⟨hresult ▸ call.op.result_ne_connection _, haligned, hintact⟩,
      ⟨haligned, hintact, hrecv ▸ hs.recvBuffer⟩⟩

/-- In every session, as long as the requests and the replies fit, every call reads exactly the
reply to its request, so that the next one starts at a message boundary, and no call stores a byte
behind the send or the receive buffer. -/
theorem calls_framed (client : Client) (hclient : client.overrun = false)
    (hsize : client.recvBuffer.length < 2 ^ 64) (server : Server) (calls : List Call)
    (hfits : EveryStep exec Fits calls { client := client, server := server }) :
    EveryStep exec Framed calls { client := client, server := server } :=
  hfits.imp (I := Ready) ⟨⟨rfl, rfl, rfl⟩, hclient, hsize⟩ fun _ _ _ hs hf => framed_call hs hf

/-- A put and a get of the value with a receive buffer of 64 bytes. -/
theorem calls_framed_small : EveryStep exec Framed
    [⟨.put [1] [7, 8, 9] none, .single, .single, 0, 0, by decide⟩,
      ⟨.get [1] 16 none, .single, .single, 0, 0, trivial⟩]
    { client := { recvBuffer := List.replicate 64 0, sendBufferSize := 64 }, server := {} } := by
  refine calls_framed _ rfl (by decide) _ _ ⟨⟨.inr (.inl ?_), ?_, ?_, ?_⟩,
    ⟨.inr ?_, ?_, ?_, ?_⟩, trivial⟩
  all_goals decide +kernel

/-- A receive buffer of 40 bytes is too small for the reply to the get: the get leaves the payload
on the connection. -/
theorem not_framed_large : ¬ EveryStep exec Framed
    [⟨.put [1] (List.replicate 16 7) none, .single, .single, 0, 0, by decide⟩,
      ⟨.get [1] 16 none, .single, .single, 0, 0, trivial⟩]
    { client := { recvBuffer := List.replicate 40 0, sendBufferSize := 64 }, server := {} } := by
  rintro ⟨-, ⟨-, haligned, -⟩, -⟩
  have hdown := congrArg List.length haligned.down
  revert hdown
  decide +kernel

end Session

end Sdk

end ElCache
