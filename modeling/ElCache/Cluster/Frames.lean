import ElCache.Cluster.Receive

/-!
# Messages under way

An `End` is one end of a TCP connection: the bytes that are under way to it, and what its
`Connection` object knows. A receive at an end waits for a whole message; it can fail at any time,
and a read or write that has failed once fails for good.

As long as every message is shorter than 4 GiB, what is under way to an end are whole messages, one
after the other, and behind them perhaps the beginning of one whose write has failed (`Carries`). A
receive then returns the first of them or nothing, and never the rest of a torn one
(`Carries.receives`).
-/

namespace ElCache

variable {m : Message} {more : ByteBuffer}

open Slice Bytes

namespace Protocol

open Decoding Decoder

/-- The numbers of the message fit their types, and its payload is shorter than 4 GiB. -/
structure Message.Sendable (m : Message) : Prop where
  sized : m.Sized
  short : (encodePayload m).length < 2 ^ 32

/-- A message that is not understood is refused, without a read past its end. -/
theorem decode_of_not_understood (h : ¬ m.Understood) (timestamp : UInt64) (requestId : UInt32) :
    ∃ text, decode (encode timestamp m requestId) = .error (.error text) := by
  have hempty : m.type = .error → encodePayload m = [] →
      decode (encode timestamp m requestId) = .error (.error "Truncated u32") := by
    intro htype hpayload
    rw [decode, encode, decodeMessage, hpayload, htype, bind_ok (parseHeader_append ..)]
    rfl
  cases m with
  | hello | helloAck | gossipPush | get | getResponse | put | putResponse
  | delete | deleteResponse | error => exact absurd trivial h
  | check | checkResponse | getChunk | getChunkResponse =>
    exact ⟨_, decode_of_unknown timestamp requestId rfl⟩
  | _ => exact ⟨_, hempty rfl rfl⟩

end Protocol

namespace Connection

variable {input : List ByteBuffer}

open Protocol

/-! ## One message at the start of a stream -/

/-- What a receive makes of what `Codec::decode` returns or throws. -/
def Received.ofDecoded :
    Except (Decoding.Failure String) (Message × MessageHeader) → Received
  | .ok (m, _) => .message m
  | .error (.error _) => .nothing
  | .error .outOfRange => .fault

/-- A receive on a stream that starts with a message takes it off and decodes it. -/
theorem receive_frame (hshort : (encodePayload m).length < 2 ^ 32) (timestamp : UInt64)
    (hproper : Stream.Proper input) (hinput : input.flatten = encode timestamp m 0 ++ more) :
    ∃ rest, receive input = (.ofDecoded (decode (encode timestamp m 0)), rest) ∧
      rest.flatten = more := by
  obtain ⟨header, msgHeader, cursor, body, rest, hread, hparse, hmagic, hread', hbytes, hrest, -⟩ :=
    readAll_frame hshort timestamp hproper hinput
  refine ⟨rest, ?_, hrest⟩
  simp only [receive, hread, hparse, hmagic, ne_eq, not_true_eq_false, if_false, hread', hbytes]
  cases decode (encode timestamp m 0) with
  | ok r => rfl
  | error failure => cases failure <;> rfl

/-- It gets the message, or nothing if the message is not understood. -/
theorem ofDecoded_encode (h : m.Sendable) (timestamp : UInt64) :
    Received.ofDecoded (decode (encode timestamp m 0)) = .message m.onWire ∨
      Received.ofDecoded (decode (encode timestamp m 0)) = .nothing := by
  by_cases hkind : m.Understood
  · rw [decode_encode (Message.fits_of_short hkind h.sized h.short)]
    exact .inl rfl
  · obtain ⟨text, htext⟩ := decode_of_not_understood hkind timestamp 0
    rw [htext]
    exact .inr rfl

/-- Whether a receive has all it waits for: a header, and the body that a proper header
announces. -/
def complete (input : List ByteBuffer) : Bool :=
  match Stream.readAll input headerSize with
  | .error _ => false
  | .ok (header, input) =>
    match parseHeader ⟨header, []⟩ with
    | .error _ => true
    | .ok (msgHeader, _) =>
      if msgHeader.magic ≠ magic then true
      else (Stream.readAll input msgHeader.length.toNat).isOk

/-- A receive waits for the rest of a torn message. -/
theorem complete_torn (hshort : (encodePayload m).length < 2 ^ 32) (timestamp : UInt64) {n : Nat}
    (hn : n < (encode timestamp m 0).length) (hproper : Stream.Proper input)
    (hinput : input.flatten = (encode timestamp m 0).take n) : complete input = false := by
  obtain ⟨header, msgHeader, cursor, hencode, hsize, hparse, hmagic, hlength⟩ :=
    encode_eq_append hshort timestamp
  rw [hencode] at hn hinput
  rw [List.length_append] at hn
  rw [complete]
  -- the stream ends in the header or in the body
  by_cases hcut : n < headerSize
  · rw [Stream.readAll_error hproper]
    rw [hinput, List.length_take]
    omega
  · have htake : input.flatten = header ++ (encodePayload m).take (n - header.length) := by
      rw [hinput, List.take_append, List.take_of_length_le (by omega)]
    obtain ⟨body, hread, hbody, hproper'⟩ := Stream.readAll_append hproper htake
    rw [hsize] at hread
    have hrest : body.flatten.length < (encodePayload m).length := by
      rw [hbody, List.length_take]
      omega
    simp only [hread, hparse, hmagic, ne_eq, not_true_eq_false, if_false, hlength,
      Stream.readAll_error hproper' hrest]
    rfl

end Connection

/-! ## One end of a connection -/

/-- An end of a connection: the bytes under way to it; whether every write to it has gone through so
far, and every read at it; and `connected_` and `recv_mutex_` of its `Connection`. -/
structure End where
  incoming : ByteBuffer := []
  intact : Bool := true
  readable : Bool := true
  connected : Bool := true
  locked : Bool := false

namespace End

open Protocol Connection

/-- A `Connection::receive` at the end, which returns when the message is there or a read fails. -/
inductive Receives : End → Received → End → Prop where
  | takes {e : End} {input : List ByteBuffer} {r : Received} {s : Receiver}
      (unlocked : e.locked = false) (readable : e.readable = true)
      (proper : Stream.Proper input) (arrived : input.flatten = e.incoming)
      (whole : complete input = true)
      (result : Receiver.receive ⟨false, e.connected, input⟩ = some (r, s)) :
      Receives e r
        { e with incoming := s.input.flatten, connected := s.connected, locked := s.locked }
  | fails {e : End} (unlocked : e.locked = false) :
      Receives e .nothing { e with readable := false, connected := false }

/-- What a `Connection::send` at the other end does to this one: all bytes of the message get here;
or the write fails after some of them, and so does every later one. -/
inductive Written (bytes : ByteBuffer) : End → Bool → End → Prop where
  | whole {e : End} (intact : e.intact = true) :
      Written bytes e true { e with incoming := e.incoming ++ bytes }
  | tears {e : End} (n : Nat) (intact : e.intact = true) (torn : n < bytes.length) :
      Written bytes e false { e with incoming := e.incoming ++ bytes.take n, intact := false }
  | fails {e : End} (broken : e.intact = false) : Written bytes e false e

/-- `Connection::close`. -/
def close (e : End) : End := { e with connected := false }

/-- The bytes of a message that was sent at some time. -/
def frame (x : UInt64 × Message) : ByteBuffer := encode x.1 x.2 0

/-- What is under way to the end are messages with the property `Q` and perhaps, after a failed
write, the beginning of one more. -/
def Carries (Q : Message → Prop) (e : End) : Prop :=
  ∃ (queue : List (UInt64 × Message)) (torn : ByteBuffer),
    e.incoming = queue.flatMap frame ++ torn ∧
    (∀ x ∈ queue, Q x.2 ∧ x.2.Sendable) ∧
    (torn = [] ∨ e.intact = false ∧
      ∃ (x : UInt64 × Message) (n : Nat), x.2.Sendable ∧ n < (frame x).length ∧
        torn = (frame x).take n)

section
variable {Q : Message → Prop} {e e' : End}

theorem carries_new : Carries Q {} := ⟨[], [], rfl, nofun, .inl rfl⟩

theorem Carries.mono {Q' : Message → Prop} (h : Carries Q e) (himp : ∀ m, Q m → Q' m) :
    Carries Q' e := by
  obtain ⟨queue, torn, hincoming, hqueue, htorn⟩ := h
  exact ⟨queue, torn, hincoming, fun x hx => ⟨himp _ (hqueue x hx).1, (hqueue x hx).2⟩, htorn⟩

/-- A message that is under way and understood can be received. -/
theorem receives_frame (hkind : m.Understood) (hsend : m.Sendable) {timestamp : UInt64}
    (hunlocked : e.locked = false) (hreadable : e.readable = true)
    (hincoming : e.incoming = encode timestamp m 0 ++ more) :
    Receives e (.message m.onWire) { e with incoming := more } := by
  obtain ⟨header, msgHeader, cursor, body, rest, hread, hparse, hmagic, hread', hbytes, hrest, -⟩ :=
    readAll_frame hsend.short timestamp (Stream.Link.single.proper_arrive e.incoming)
      ((Stream.Link.single.flatten_arrive e.incoming).trans hincoming)
  have hdecode := decode_encode (Message.fits_of_short hkind hsend.sized hsend.short) timestamp 0
  have hwhole : complete (Stream.Link.single.arrive e.incoming) = true := by
    simp only [complete, hread, hparse, hmagic, ne_eq, not_true_eq_false, if_false, hread']
    rfl
  have hresult : Receiver.receive ⟨false, e.connected, Stream.Link.single.arrive e.incoming⟩ =
      some (.message m.onWire, ⟨false, e.connected, rest⟩) := by
    simp only [Receiver.receive, Bool.false_eq_true, if_false, hread, hparse, hmagic, ne_eq,
      not_true_eq_false, hread', hbytes, hdecode]
  have htakes := Receives.takes hunlocked hreadable (Stream.Link.single.proper_arrive _)
    (Stream.Link.single.flatten_arrive _) hwhole hresult
  rw [hrest, ← hunlocked] at htakes
  exact htakes

/-- Nothing but the bytes under way and the failed write count. -/
theorem Carries.congr (h : Carries Q e) (hincoming : e'.incoming = e.incoming)
    (hintact : e'.intact = e.intact) : Carries Q e' := by
  rw [Carries, hincoming, hintact]
  exact h

/-- A message is sent to the end. -/
theorem Carries.written (h : Carries Q e) (hm : Q m) (hsend : m.Sendable) {timestamp : UInt64}
    {ok : Bool} (hw : Written (encode timestamp m 0) e ok e') : Carries Q e' := by
  obtain ⟨queue, torn, hincoming, hqueue, htorn⟩ := h
  cases hw with
  | whole hintact =>
    obtain rfl : torn = [] := htorn.resolve_right fun hno => by rw [hintact] at hno; cases hno.1
    rw [List.append_nil] at hincoming
    refine ⟨queue ++ [(timestamp, m)], [], ?_, ?_, .inl rfl⟩
    · simp [hincoming, frame]
    · intro x hx
      rcases List.mem_append.1 hx with hx | hx
      · exact hqueue x hx
      · rw [List.mem_singleton.1 hx]
        exact ⟨hm, hsend⟩
  | tears n hintact hlt =>
    obtain rfl : torn = [] := htorn.resolve_right fun hno => by rw [hintact] at hno; cases hno.1
    rw [List.append_nil] at hincoming
    refine ⟨queue, (frame (timestamp, m)).take n, ?_, hqueue, ?_⟩
    · rw [hincoming]
      rfl
    · exact .inr ⟨rfl, (timestamp, m), n, hsend, hlt, rfl⟩
  | fails hbroken => exact ⟨queue, torn, hincoming, hqueue, htorn⟩

/-- A receive returns nothing or a message that was under way, as it is on the wire. -/
theorem Carries.receives (h : Carries Q e) {r : Received} (hr : Receives e r e') :
    Carries Q e' ∧ (r = .nothing ∨ ∃ m, Q m ∧ r = .message m.onWire) := by
  cases hr with
  | fails => exact ⟨h.congr rfl rfl, .inl rfl⟩
  | @takes input _ s _ _ hproper harrived hwhole hresult =>
    obtain ⟨queue, torn, hincoming, hqueue, htorn⟩ := h
    rw [hincoming] at harrived
    cases queue with
    | nil =>
      -- there is no whole message
      rw [List.flatMap_nil, List.nil_append] at harrived
      exfalso
      rcases htorn with rfl | ⟨-, x, n, hsend, hn, rfl⟩
      · rw [hproper.eq_nil harrived] at hwhole
        cases hwhole
      · rw [complete_torn hsend.short x.1 hn hproper harrived] at hwhole
        cases hwhole
    | cons x queue =>
      obtain ⟨hx, hsend⟩ := hqueue x List.mem_cons_self
      rw [List.flatMap_cons, List.append_assoc, frame] at harrived
      obtain ⟨rest, hreceive, hrest⟩ := receive_frame hsend.short x.1 hproper harrived
      obtain ⟨s', hs', hinput⟩ := Receiver.receive_eq (s := ⟨false, e.connected, input⟩) rfl
      rw [hs', Option.some.injEq, Prod.mk.injEq] at hresult
      obtain ⟨rfl, rfl⟩ := hresult
      simp only [hreceive] at hinput ⊢
      constructor
      · refine ⟨queue, torn, ?_, fun y hy => hqueue y (List.mem_cons_of_mem _ hy), htorn⟩
        rw [hinput, hrest]
      · rcases ofDecoded_encode hsend x.1 with hmessage | hnothing
        · exact .inr ⟨x.2, hx, hmessage⟩
        · exact .inl hnothing

end

end End

end ElCache
