import ElCache.Protocol.Kinds
import ElCache.Lib.Stream

/-!
# Messages on a TCP connection

`Connection::send` writes an encoded message, in as many writes as the socket needs, and
`Connection::receive` reads a header, the body whose length the header gives, and decodes the two
together. However the stream is cut, successive receives return the messages that were sent, in
order (`receives_sent`), up to the fields that are not sent.
-/

namespace ElCache

/-! ## Short messages -/

namespace Protocol

/-- The numbers of the message that are 64-bit numbers in the source are such. -/
def Message.Sized : Message → Prop
  | .get _ _ range => ∀ r, range = some r → r.Fits
  | .getResponse _ metadata _ actualRange => (∀ m, metadata = some m → m.Fits) ∧ actualRange.Fits
  | _ => True

theorem length_encodeBytes (data : ByteBuffer) : (encodeBytes data).length = 4 + data.length := by
  rw [encodeBytes, List.length_append, encodeU32, Bytes.length_leBytes]

theorem length_le_encodeNodeInfo (info : NodeInfo) :
    info.address.length + 1 ≤ (encodeNodeInfo info).length := by
  simp only [encodeNodeInfo, List.length_append, length_encodeBytes]
  omega

section
variable {α : Type} {encode : α → ByteBuffer}

theorem length_le_encodeList_of_mem {as : List α} {a : α} (ha : a ∈ as) :
    (encode a).length ≤ (encodeList encode as).length := by
  rw [encodeList, List.length_append, List.flatMap_def]
  refine Nat.le_trans ?_ (Nat.le_add_left _ _)
  exact (List.sublist_flatten_of_mem (List.mem_map_of_mem ha)).length_le

theorem length_le_encodeList (hpos : ∀ a, 1 ≤ (encode a).length) (as : List α) :
    as.length ≤ (encodeList encode as).length := by
  rw [encodeList, List.length_append]
  refine Nat.le_trans ?_ (Nat.le_add_left _ _)
  induction as with
  | nil => exact Nat.zero_le _
  | cons a as ih =>
    rw [List.flatMap_cons, List.length_append, List.length_cons]
    have ha := hpos a
    omega

end

/-- A message with a short payload has short fields. -/
theorem Message.fits_of_short {m : Message} (hkind : m.Understood) (hsized : m.Sized)
    (hshort : (encodePayload m).length < 2 ^ 32) : m.Fits := by
  cases m with
  | hello sender clusterName capabilities =>
    have hsender := length_le_encodeNodeInfo sender
    have hcaps : capabilities.length ≤ (encodeList encodeBytes capabilities).length :=
      length_le_encodeList (fun data => by rw [length_encodeBytes]; omega) capabilities
    simp only [encodePayload, List.length_append, length_encodeBytes] at hshort
    refine ⟨?_, ?_, ?_, fun c hc => ?_⟩
    · rw [NodeInfo.Fits]
      omega
    · omega
    · omega
    · have hmem : (encodeBytes c).length ≤ (encodeList encodeBytes capabilities).length :=
        length_le_encodeList_of_mem hc
      rw [length_encodeBytes] at hmem
      omega
  | helloAck sender accepted rejectReason =>
    have hsender := length_le_encodeNodeInfo sender
    simp only [encodePayload, List.length_append, length_encodeBytes] at hshort
    refine ⟨?_, ?_⟩
    · rw [NodeInfo.Fits]
      omega
    · omega
  | gossipPush sender nodes =>
    have hnodes : nodes.length ≤ (encodeList encodeNodeInfo nodes).length :=
      length_le_encodeList (fun info => Nat.le_trans (Nat.le_add_left 1 _)
        (length_le_encodeNodeInfo info)) nodes
    simp only [encodePayload, List.length_append] at hshort
    refine ⟨by omega, fun info hinfo => ?_⟩
    have haddress := length_le_encodeNodeInfo info
    have hmem : (encodeNodeInfo info).length ≤ (encodeList encodeNodeInfo nodes).length :=
      length_le_encodeList_of_mem hinfo
    rw [NodeInfo.Fits]
    omega
  | get key metadataOnly range =>
    simp only [encodePayload, List.length_append, length_encodeBytes] at hshort
    exact ⟨by omega, hsized⟩
  | getResponse result metadata data actualRange =>
    simp only [encodePayload, List.length_append, length_encodeBytes] at hshort
    exact ⟨hsized.1, by omega, hsized.2⟩
  | put key data ttl flags =>
    simp only [encodePayload, List.length_append, length_encodeBytes] at hshort
    exact ⟨by omega, by omega⟩
  | putResponse code message =>
    simp only [encodePayload, List.length_append, length_encodeBytes] at hshort
    show message.length < 2 ^ 32
    omega
  | delete key =>
    simp only [encodePayload, length_encodeBytes] at hshort
    show key.data.length < 2 ^ 32
    omega
  | deleteResponse code existed => trivial
  | error code message originalRequestId =>
    simp only [encodePayload, List.length_append, length_encodeBytes] at hshort
    show message.length < 2 ^ 32
    omega
  | _ => exact hkind.elim

end Protocol

namespace Connection

open Protocol

/-! ## Sending and receiving -/

/-- A message that is sent: when, and how many bytes the successive writes take. -/
structure Sending where
  message : Message
  timestamp : UInt64 := 0
  sizes : List Nat := []

/-- `Connection::send`: what the writes hand to the socket. -/
def Sending.send (x : Sending) : List ByteBuffer :=
  Stream.writeAll x.sizes (encode x.timestamp x.message 0)

/-- How a receive ends: with a message; without one, because the stream has ended or the message is
not understood; by the exception of `parse_header`, which is not caught; or by a read past the
message. -/
inductive Received where
  | message (m : Message)
  | nothing
  | thrown
  | fault
  deriving DecidableEq, Repr

/-- `Connection::receive`, on the pieces that arrive. -/
def receive (input : List ByteBuffer) : Received × List ByteBuffer :=
  match Stream.readAll input headerSize with
  | .error _ => (.nothing, [])
  | .ok (header, input) =>
    match parseHeader ⟨header, []⟩ with
    | .error _ => (.thrown, input)
    | .ok (msgHeader, _) =>
      if msgHeader.magic ≠ magic then (.nothing, input)
      else
        match Stream.readAll input msgHeader.length.toNat with
        | .error _ => (.nothing, [])
        | .ok (body, input) =>
          match decode (header ++ body) with
          | .ok (m, _) => (.message m, input)
          | .error (.error _) => (.nothing, input)
          | .error .outOfRange => (.fault, input)

/-- So many successive receives. -/
def receives : Nat → List ByteBuffer → List Received
  | 0, _ => []
  | n + 1, input => (receive input).1 :: receives n (receive input).2

section
variable {m : Message} {input : List ByteBuffer} {more : ByteBuffer}

/-- A message is a header, which parses and announces the length of the payload, and the payload. -/
theorem encode_eq_append (hshort : (encodePayload m).length < 2 ^ 32) (timestamp : UInt64) :
    ∃ header msgHeader cursor, encode timestamp m 0 = header ++ encodePayload m ∧
      header.length = headerSize ∧ parseHeader ⟨header, []⟩ = .ok (msgHeader, cursor) ∧
      msgHeader.magic = magic ∧ msgHeader.length.toNat = (encodePayload m).length := by
  have hparse := parseHeader_append m.type (UInt32.ofNat (encodePayload m).length) 0 timestamp [] []
  rw [List.append_nil] at hparse
  exact ⟨_, _, _, rfl, length_encodeHeader .., hparse, rfl, UInt32.toNat_ofNat_of_lt' hshort⟩

/-- The two reads on a stream that starts with a message: its header, and its payload. -/
theorem readAll_frame (hshort : (encodePayload m).length < 2 ^ 32) (timestamp : UInt64)
    (hproper : Stream.Proper input) (hinput : input.flatten = encode timestamp m 0 ++ more) :
    ∃ header msgHeader cursor body rest, Stream.readAll input headerSize = .ok (header, body) ∧
      parseHeader ⟨header, []⟩ = .ok (msgHeader, cursor) ∧ msgHeader.magic = magic ∧
      Stream.readAll body msgHeader.length.toNat = .ok (encodePayload m, rest) ∧
      header ++ encodePayload m = encode timestamp m 0 ∧ rest.flatten = more ∧
      Stream.Proper rest := by
  obtain ⟨header, msgHeader, cursor, hencode, hsize, hparse, hmagic, hlength⟩ :=
    encode_eq_append hshort timestamp
  rw [hencode, List.append_assoc] at hinput
  obtain ⟨body, hread, hbody, hproper'⟩ := Stream.readAll_append hproper hinput
  obtain ⟨rest, hread', hrest, hproper''⟩ := Stream.readAll_append hproper' hbody
  rw [hsize] at hread
  exact ⟨header, _, _, body, rest, hread, hparse, hmagic, hlength ▸ hread', hencode.symm, hrest,
    hproper''⟩

/-- A receive on a stream that starts with a message. -/
theorem receive_encode (hfits : m.Fits) (hshort : (encodePayload m).length < 2 ^ 32)
    (timestamp : UInt64) (hproper : Stream.Proper input)
    (hinput : input.flatten = encode timestamp m 0 ++ more) :
    ∃ rest, receive input = (.message m.onWire, rest) ∧ rest.flatten = more ∧
      Stream.Proper rest := by
  obtain ⟨header, msgHeader, cursor, body, rest, hread, hparse, hmagic, hread', hencode, hrest⟩ :=
    readAll_frame hshort timestamp hproper hinput
  refine ⟨rest, ?_, hrest⟩
  simp only [receive, hread, hparse, hmagic, ne_eq, not_true_eq_false, if_false, hread', hencode,
    decode_encode hfits]

end

/-- However the stream is cut, successive receives return the messages that were sent, without the
fields that are not on the wire. -/
theorem receives_sent (sent : List Sending) (hkinds : ∀ x ∈ sent, x.message.Understood)
    (hsized : ∀ x ∈ sent, x.message.Sized)
    (hshort : ∀ x ∈ sent, (encodePayload x.message).length < 2 ^ 32) (input : List ByteBuffer)
    (hproper : Stream.Proper input) (hinput : input.flatten = (sent.flatMap Sending.send).flatten) :
    receives sent.length input = sent.map fun x => .message x.message.onWire := by
  induction sent generalizing input with
  | nil => rfl
  | cons x sent ih =>
    have hx : x ∈ x :: sent := List.mem_cons_self
    have hfits : x.message.Fits :=
      Message.fits_of_short (hkinds x hx) (hsized x hx) (hshort x hx)
    rw [List.flatMap_cons, List.flatten_append, Sending.send, Stream.flatten_writeAll] at hinput
    obtain ⟨rest, hrec, hrest, hproper'⟩ :=
      receive_encode hfits (hshort x hx) x.timestamp hproper hinput
    have htail : receives sent.length rest = sent.map fun x => .message x.message.onWire :=
      ih (fun y hy => hkinds y (List.mem_cons_of_mem _ hy))
        (fun y hy => hsized y (List.mem_cons_of_mem _ hy))
        (fun y hy => hshort y (List.mem_cons_of_mem _ hy)) rest hproper' hrest
    rw [List.length_cons, receives, hrec, List.map_cons, htail]

/-- A `Delete` whose writes stop after three bytes, and a `Get`. -/
def twoMessages : List Sending :=
  [⟨.delete ⟨[97]⟩, 5, [2]⟩, ⟨.get ⟨[98]⟩ false none, 6, []⟩]

/-- The two messages arrive one byte at a time. -/
theorem receives_sent_two :
    receives 2 (Stream.Link.single.arrive (twoMessages.flatMap Sending.send).flatten) =
      [.message (.delete ⟨[97]⟩), .message (.get ⟨[98]⟩ false none)] := by
  refine receives_sent twoMessages (fun x hx => ?_) (fun x hx => ?_) (fun x hx => ?_) _
    (Stream.Link.single.proper_arrive _) (Stream.Link.single.flatten_arrive _)
  · rcases List.mem_pair.1 hx with rfl | rfl <;> trivial
  · rcases List.mem_pair.1 hx with rfl | rfl
    · trivial
    · exact nofun
  · rcases List.mem_pair.1 hx with rfl | rfl <;> decide

/-- An answer to a get that has the time at which the value was stored. -/
def storedAnswer : Message :=
  .getResponse 0 (some { totalSize := 1, chunkCount := 1, createdAt := 5 }) [7] ⟨0, 1⟩

/-- The time is not on the wire. -/
theorem receives_ne_sent :
    receives 1 (Stream.Link.single.arrive (Sending.send ⟨storedAnswer, 0, []⟩).flatten) ≠
      [.message storedAnswer] := by
  decide

end Connection

end ElCache
