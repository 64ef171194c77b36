import ElCache.Sdk.Exchange

/-!
# Replies that come too late

A receive of the SDK may time out. The call then returns an error and the client stays connected, so
the rest of the reply is read by later calls. A reply carries the id of its request, and no call
looks at it.

A `Channel` is a client with the bytes under way to it, from a server that answers every request
once, in order and with its id, with any answers. For each call one chooses how many of the bytes
arrive before the receive gives up. `results_own` says that a call which returns `OK` or `NOT_FOUND`
has read the reply to its own request, provided that nothing was under way when it sent it.
-/

namespace ElCache

open Slice Bytes Overlay

namespace Sdk

open Unix

/-- A client, and the bytes that the server has sent and the client has not read. -/
structure Channel where
  client : Client
  inflight : ByteBuffer := []

/-- A call, the answer of the server to it, and how the stream comes in: how many of the bytes under
way arrive before a receive times out, and in which pieces. -/
structure TimedCall where
  op : Op
  answer : Answer
  answers : op.Answers answer
  short : answer.payload.length < 2 ^ 32
  arrives : Nat
  link : Stream.Link UInt8 := .single
  repliedAt : Nat := 0

namespace Channel

/-- The reply of the server to the call, with the id of its request. -/
def reply (s : Channel) (call : TimedCall) : ByteBuffer :=
  sendResponse call.repliedAt call.op.asRequest.type s.client.nextRequestId.toNat
    call.answer.payload

/-- What is under way once the server has replied. -/
def stream (s : Channel) (call : TimedCall) : ByteBuffer := s.inflight ++ s.reply call

/-- One call. -/
def call (call : TimedCall) (s : Channel) : Result × Channel :=
  match call.op.request s.client.sendBufferSize with
  | .error (code, text) => ({ code := code }, { s with client := s.client.setError text })
  | .ok (_, payload) =>
    let r := call.op.receive (s.client.built payload)
      (call.link.carry ((s.stream call).take call.arrives))
    (r.1, ⟨r.2.1, r.2.2.flatten ++ (s.stream call).drop call.arrives⟩)

/-- The state after a call. -/
def exec (call : TimedCall) (s : Channel) : Channel := (s.call call).2

/-- The bytes the call has read. -/
def taken (s : Channel) (call : TimedCall) : ByteBuffer :=
  (s.stream call).take ((s.stream call).length - (s.call call).2.inflight.length)

/-- A call that returns `OK` or `NOT_FOUND` has read the reply that carries its own request id, and
returns what the answer in it stands for. -/
def OwnReply (call : TimedCall) (s : Channel) : Prop :=
  (s.call call).1.code = .ok ∨ (s.call call).1.code = .notFound →
    s.taken call = s.reply call ∧ (s.call call).1 = call.op.result call.answer

/-- Nothing is under way. -/
def Idle (_ : TimedCall) (s : Channel) : Prop := s.inflight = []

end Channel

/-! ## Reading the start of a reply -/

section
variable {op : Op} {answer : Answer} {c c₁ : Client} {time requestId m : Nat}
  {input body : List ByteBuffer} {header : ByteBuffer}

/-- A call that does not get a header. -/
theorem receive_of_error (hread : c.recvAll 0 headerSize input = .error c₁) :
    op.receive c input = ({ code := .connection }, c₁, []) := by
  rcases op.get_or_code with ⟨key, bufferSize, options, rfl⟩ | ⟨hrec, -⟩
  · rw [Op.receive, receiveGet, hread]
  · rw [hrec, receiveCode, hread]

/-- A call that gets the header of its reply: a get may find it too large, and otherwise a call that
does not get the payload fails. -/
theorem receive_of_header (hread : c.recvAll 0 headerSize input = .ok (header, c₁, body))
    (hmagic : headerMagic header = protoMagic)
    (htype : headerType header = op.asRequest.type.responseCode) :
    (op.receive c input).1.code = .bufferTooSmall ∨
      (op.Holds c₁.recvBuffer.length (headerLength header) ∧
        ∀ c₂, c₁.recvAll headerSize (headerLength header) body = .error c₂ →
          (op.receive c input).1.code = .connection) := by
  rcases op.get_or_code with ⟨key, bufferSize, options, rfl⟩ | ⟨hrec, -, -, hholds⟩
  · rw [Op.type_asRequest, Op.type] at htype
    simp only [Op.receive, receiveGet, hread, hmagic, htype, ne_eq, not_true_eq_false, if_false]
    by_cases hlarge : sub64 c₁.recvBuffer.length headerSize < headerLength header
    · rw [if_pos hlarge]
      exact .inl rfl
    · rw [if_neg hlarge]
      refine .inr ⟨Nat.not_lt.1 hlarge, fun c₂ hfail => ?_⟩
      rw [hfail]
  · refine .inr ⟨hholds _ _, fun c₂ hfail => ?_⟩
    simp only [hrec, receiveCode, hread, hfail]

/-- A receive that wants more than has arrived. -/
theorem recvAll_error (c : Client) (pos : Nat) {n : Nat} (hproper : Stream.Proper input)
    (hlen : input.flatten.length < n) : ∃ c', c.recvAll pos n input = .error c' := by
  rw [Client.recvAll, Stream.readAll_error hproper hlen]
  exact ⟨_, rfl⟩

/-- A call that finds the start of its reply gets an error, unless the whole reply has arrived and
fits. -/
theorem receive_take (hshort : answer.payload.length < 2 ^ 32) (hproper : Stream.Proper input)
    (hinput : input.flatten =
      (sendResponse time op.asRequest.type requestId answer.payload).take m) :
    (op.receive c input).1.code = .connection ∨ (op.receive c input).1.code = .bufferTooSmall ∨
      (headerSize + answer.payload.length ≤ m ∧ op.ReplyFits c.recvBuffer.length answer) := by
  obtain ⟨header, hheader⟩ : ∃ header, encodeHeader op.asRequest.type.responseCode
    answer.payload.length requestId time = header := ⟨_, rfl⟩
  have hsize : header.length = headerSize := hheader ▸ length_encodeHeader ..
  rw [sendResponse, hheader] at hinput
  rcases Nat.lt_or_ge m headerSize with hm | hm
  · -- the header is cut
    obtain ⟨c', hread⟩ := recvAll_error c 0 hproper (n := headerSize)
      (by rw [hinput, List.length_take]; omega)
    rw [receive_of_error hread]
    exact .inl rfl
  · have hsplit : (header ++ answer.payload).take m =
        header ++ answer.payload.take (m - headerSize) := by
      rw [List.take_append, List.take_of_length_le (hsize ▸ hm), hsize]
    obtain ⟨body, hread, hbody, hproper'⟩ := c.recvAll_append 0 hproper (hinput.trans hsplit)
    rw [hsize] at hread
    have hlen : headerLength header = answer.payload.length := by
      rw [← hheader, headerLength_encodeHeader]
      exact Nat.mod_eq_of_lt hshort
    have hmagic : headerMagic header = protoMagic := hheader ▸ headerMagic_encodeHeader ..
    have htype : headerType header = op.asRequest.type.responseCode :=
      hheader ▸ headerType_encodeHeader (RequestType.responseCode_lt _) ..
    have hrecv : (c.store 0 header).recvBuffer.length = c.recvBuffer.length :=
      (c.alike_store 0 header).recvBufferSize
    rcases receive_of_header hread hmagic htype with hlarge | ⟨hfits, hfail⟩
    · exact .inr (.inl hlarge)
    · rcases Nat.lt_or_ge (m - headerSize) answer.payload.length with hcut | hall
      · -- the payload is cut
        obtain ⟨c', hread'⟩ := recvAll_error (c.store 0 header) headerSize hproper'
          (n := headerLength header) (by rw [hbody, List.length_take, hlen]; omega)
        exact .inl (hfail c' hread')
      · refine .inr (.inr ⟨by omega, hshort, ?_⟩)
        rw [hlen, hrecv] at hfits
        exact hfits

end

/-! ## Calls on an idle channel -/

namespace Channel

variable {s : Channel} {call : TimedCall}

theorem length_reply (s : Channel) (call : TimedCall) :
    (s.reply call).length = headerSize + call.answer.payload.length := by
  rw [reply, sendResponse, List.length_append, length_encodeHeader]

/-- A call that sends its request when nothing is under way. -/
theorem ownReply_of_idle (hidle : Idle call s) : OwnReply call s := by
  have hstream : s.stream call = s.reply call := by
    rw [stream, hidle, List.nil_append]
  rcases call.op.request_cases s.client.sendBufferSize with ⟨e, hreq, hcode⟩ | hreq
  · -- the request is not sent, and the code says so
    intro hok
    have hcall : (s.call call).1.code = e.1 := by rw [Channel.call, hreq]
    rw [hcall] at hok
    rcases hcode with hcode | hcode
    · simp [hcode] at hok
    · simp [hcode] at hok
  · obtain ⟨client, hclient⟩ : ∃ client, s.client.built call.op.payload = client := ⟨_, rfl⟩
    obtain ⟨input, hin⟩ : ∃ input, call.link.carry ((s.reply call).take call.arrives) = input :=
      ⟨_, rfl⟩
    have hproper : Stream.Proper input := hin ▸ call.link.proper_carry _
    have hflat : input.flatten = (s.reply call).take call.arrives :=
      hin ▸ call.link.flatten_carry _
    have hcall : s.call call = ((call.op.receive client input).1,
        ⟨(call.op.receive client input).2.1, (call.op.receive client input).2.2.flatten ++
          (s.reply call).drop call.arrives⟩) := by
      simp only [Channel.call, hreq, hstream, hclient, hin]
    intro hok
    rw [hcall] at hok
    rcases receive_take (c := client) call.short hproper hflat with hcode | hcode | ⟨hall, hfits⟩
    · simp [hcode] at hok
    · simp [hcode] at hok
    · rw [← length_reply s call] at hall
      rw [List.take_of_length_le hall, ← List.append_nil (s.reply call)] at hflat
      obtain ⟨c', rest, hrec, -, hrest, -⟩ :=
        receive_sendResponse call.answers client hfits hproper hflat
      rw [taken, hcall, hrec, hstream, hrest, List.drop_of_length_le hall]
      exact ⟨List.take_length, rfl⟩

/-- In every sequence of calls each of which sends its request when nothing is under way, every call
that returns `OK` or `NOT_FOUND` has read its own reply. -/
theorem results_own (s : Channel) (calls : List TimedCall) (hidle : EveryStep exec Idle calls s) :
    EveryStep exec OwnReply calls s :=
  hidle.imp (I := fun _ => True) trivial fun _ _ _ _ h => ⟨ownReply_of_idle h, trivial⟩

/-- A get of a key, to which the server answers with one byte, with so many bytes arriving in
time. -/
def getByte (key : ByteBuffer) (byte : UInt8) (arrives : Nat) : TimedCall where
  op := .get key 16 none
  answer := .value (some [byte])
  answers := trivial
  short := (by decide : 10 < 2 ^ 32)
  arrives := arrives

/-- A client with small buffers on a fresh connection. -/
def freshChannel : Channel where
  client := { recvBuffer := List.replicate 64 0, sendBufferSize := 64 }

/-- Two gets whose replies arrive. -/
theorem results_own_inTime :
    EveryStep exec OwnReply [getByte [1] 7 100, getByte [2] 8 100] freshChannel :=
  results_own _ _ ⟨rfl, by unfold Idle; decide +kernel, trivial⟩

/-- The reply to the first get arrives after the receive has timed out, and the second get returns
the data of the first key. -/
theorem not_results_own_late :
    ¬ EveryStep exec OwnReply [getByte [1] 7 0, getByte [2] 8 100] freshChannel := by
  rintro ⟨-, hown, -⟩
  have hresult := (hown (.inl (by decide +kernel))).2
  revert hresult
  decide +kernel

end Channel

end Sdk

end ElCache
