import ElCache.Protocol.Safety

/-!
# The codec round trip

For each field reader there is one lemma in each direction: what the encoder writes is read back
(`decodeU32_append` and so on, with any bytes after it), and what the reader has read is what the
encoder writes (`Inverts`). `codec_round_trip` puts them together for the ten message types that
`decode` knows.
-/

namespace ElCache

/-- The numbers of a range are 64-bit numbers. -/
def Range.Fits (r : Range) : Prop := r.offset < 2 ^ 64 ∧ r.length < 2 ^ 64

/-- The sizes in the metadata are 64-bit numbers. -/
def CacheMetadata.Fits (m : CacheMetadata) : Prop := m.totalSize < 2 ^ 64 ∧ m.chunkCount < 2 ^ 64

/-- What is sent of the metadata: not its times. -/
def CacheMetadata.onWire (m : CacheMetadata) : CacheMetadata :=
  { totalSize := m.totalSize, chunkCount := m.chunkCount, flags := m.flags }

namespace Protocol

open Bytes Decoding Decoder

/-! ## Reading back what was written -/

section
variable {rest flags data : ByteBuffer}

theorem decodeU16_append (v : UInt16) :
    decodeU16 ⟨encodeU16 v ++ rest, flags⟩ = .ok (v, ⟨rest, flags⟩) := by
  rw [decodeU16, encodeU16, bind_ok (number_append (v.toNat_lt)), UInt16.ofNat_toNat]
  rfl

theorem decodeU32_append (v : UInt32) :
    decodeU32 ⟨encodeU32 v ++ rest, flags⟩ = .ok (v, ⟨rest, flags⟩) := by
  rw [decodeU32, encodeU32, bind_ok (number_append (v.toNat_lt)), UInt32.ofNat_toNat]
  rfl

theorem decodeU64_append (v : UInt64) :
    decodeU64 ⟨encodeU64 v ++ rest, flags⟩ = .ok (v, ⟨rest, flags⟩) := by
  rw [decodeU64, encodeU64, bind_ok (number_append (v.toNat_lt)), UInt64.ofNat_toNat]
  rfl

theorem decodeCounted_append {text : String} (h : data.length < 2 ^ 32) :
    decodeCounted text ⟨encodeBytes data ++ rest, flags⟩ = .ok (data, ⟨rest, flags⟩) := by
  rw [decodeCounted, encodeBytes, List.append_assoc, bind_ok (decodeU32_append _),
    UInt32.toNat_ofNat_of_lt' h, take_append rfl]

theorem decodeString_append (h : data.length < 2 ^ 32) :
    decodeString ⟨encodeBytes data ++ rest, flags⟩ = .ok (data, ⟨rest, flags⟩) :=
  decodeCounted_append h

theorem decodeBytes_append (h : data.length < 2 ^ 32) :
    decodeBytes ⟨encodeBytes data ++ rest, flags⟩ = .ok (data, ⟨rest, flags⟩) :=
  decodeCounted_append h

theorem flag_append (b : Bool) : (flag : Reader Bool) ⟨encodeFlag b ++ rest, flags⟩ =
    .ok (b, ⟨rest, encodeFlag b ++ flags⟩) := by
  cases b with
  | true => rfl
  | false => rfl

theorem decodeRange_append {r : Range} (h : r.Fits) :
    decodeRange ⟨encodeRange r ++ rest, flags⟩ = .ok (r, ⟨rest, flags⟩) := by
  rw [decodeRange, encodeRange, List.append_assoc, bind_ok (decodeU64_append _),
    bind_ok (decodeU64_append _), UInt64.toNat_ofNat_of_lt' h.1, UInt64.toNat_ofNat_of_lt' h.2]
  rfl

theorem decodeMetadata_append {m : CacheMetadata} (h : m.Fits) :
    decodeMetadata ⟨encodeMetadata m ++ rest, flags⟩ = .ok (m.onWire, ⟨rest, flags⟩) := by
  rw [encodeMetadata]
  simp only [List.append_assoc]
  rw [decodeMetadata, bind_ok (decodeU64_append _), bind_ok (decodeU64_append _),
    bind_ok (decodeU32_append _), UInt64.toNat_ofNat_of_lt' h.1, UInt64.toNat_ofNat_of_lt' h.2]
  rfl

/-- An optional field, with what is sent of its value. -/
theorem decodeOption_append {α β : Type} {p : Reader β} {encode : α → ByteBuffer} {f : α → β}
    {o : Option α} (h : ∀ a, o = some a → ∀ flags,
      p ⟨encode a ++ rest, flags⟩ = .ok (f a, ⟨rest, flags⟩)) :
    decodeOption p ⟨encodeOption encode o ++ rest, flags⟩ =
      .ok (o.map f, ⟨rest, encodeFlag o.isSome ++ flags⟩) := by
  cases o with
  | none =>
    rw [decodeOption, encodeOption, bind_ok (flag_append false)]
    rfl
  | some a =>
    rw [decodeOption, encodeOption, List.append_assoc, bind_ok (flag_append true), if_pos rfl,
      bind_ok (h a rfl _)]
    rfl

theorem decodeList_append {α : Type} {p : Reader α} {encode : α → ByteBuffer} {f : α → α}
    {as : List α} (hlen : as.length < 2 ^ 32)
    (h : ∀ a ∈ as, ∀ rest, p ⟨encode a ++ rest, flags⟩ = .ok (f a, ⟨rest, flags⟩)) :
    decodeList p ⟨encodeList encode as ++ rest, flags⟩ = .ok (as.map f, ⟨rest, flags⟩) := by
  rw [decodeList, encodeList, List.append_assoc, bind_ok (decodeU32_append _),
    UInt32.toNat_ofNat_of_lt' hlen, times_flatMap as h]

end

/-- The address is short enough for its length field. -/
def NodeInfo.Fits (info : NodeInfo) : Prop := info.address.length < 2 ^ 32

/-- What is sent of a node's record: not when it was last seen. -/
def NodeInfo.onWire (info : NodeInfo) : NodeInfo := { info with lastSeen := 0 }

theorem decodeNodeInfo_append {info : NodeInfo} (h : info.Fits) (rest flags : ByteBuffer) :
    decodeNodeInfo ⟨encodeNodeInfo info ++ rest, flags⟩ = .ok (info.onWire, ⟨rest, flags⟩) := by
  rw [encodeNodeInfo]
  simp only [List.append_assoc]
  rw [decodeNodeInfo, bind_ok (decodeU64_append _), bind_ok (decodeString_append h),
    bind_ok (decodeU16_append _), bind_ok (decodeU64_append _), bind_ok (decodeU64_append _),
    bind_ok (decodeU64_append _), bind_ok (decodeU64_append _), bind_ok (decodeU64_append _),
    bind_ok (decodeU32_append _)]
  rfl

/-! ## Messages -/

namespace Message

/-- The message is of one of the ten types `decode` has a case for, and its strings, byte fields and
lists are short enough for their length fields. -/
def Fits : Message → Prop
  | .hello sender clusterName capabilities => sender.Fits ∧ clusterName.length < 2 ^ 32 ∧
      capabilities.length < 2 ^ 32 ∧ ∀ c ∈ capabilities, c.length < 2 ^ 32
  | .helloAck sender _ rejectReason => sender.Fits ∧ rejectReason.length < 2 ^ 32
  | .gossipPush _ nodes => nodes.length < 2 ^ 32 ∧ ∀ info ∈ nodes, info.Fits
  | .get key _ range => key.data.length < 2 ^ 32 ∧ ∀ r, range = some r → r.Fits
  | .getResponse _ metadata data actualRange => (∀ m, metadata = some m → m.Fits) ∧
      data.length < 2 ^ 32 ∧ actualRange.Fits
  | .put key data _ _ => key.data.length < 2 ^ 32 ∧ data.length < 2 ^ 32
  | .putResponse _ message => message.length < 2 ^ 32
  | .delete key => key.data.length < 2 ^ 32
  | .deleteResponse _ _ => True
  | .error _ message _ => message.length < 2 ^ 32
  | _ => False

/-- What is sent of a message: not when a node was last seen, and not the times of the metadata. -/
def onWire : Message → Message
  | .hello sender clusterName capabilities => .hello sender.onWire clusterName capabilities
  | .helloAck sender accepted rejectReason => .helloAck sender.onWire accepted rejectReason
  | .gossipPush sender nodes => .gossipPush sender (nodes.map NodeInfo.onWire)
  | .getResponse result metadata data actualRange =>
    .getResponse result (metadata.map CacheMetadata.onWire) data actualRange
  | m => m

end Message

/-- The payload of a message that fits is decoded to what was sent of the message. -/
theorem decodePayload_append {m : Message} (h : m.Fits) (rest : ByteBuffer) :
    ∃ s, decodePayload m.type.code ⟨encodePayload m ++ rest, []⟩ = .ok (m.onWire, s) := by
  cases m with
  | hello sender clusterName capabilities =>
    obtain ⟨hsender, hname, hcaps, hcap⟩ := h
    have hlist : ∀ c ∈ capabilities, ∀ rest, decodeString ⟨encodeBytes c ++ rest, []⟩ =
        .ok (id c, ⟨rest, []⟩) := fun c hc _ => decodeString_append (hcap c hc)
    apply Exists.intro
    show decodeHello _ = _
    rw [encodePayload]
    simp only [List.append_assoc]
    rw [decodeHello, bind_ok (decodeNodeInfo_append hsender _ _),
      bind_ok (decodeString_append hname), bind_ok (decodeList_append hcaps hlist), List.map_id]
    rfl
  | helloAck sender accepted rejectReason =>
    obtain ⟨hsender, hreason⟩ := h
    apply Exists.intro
    show decodeHelloAck _ = _
    rw [encodePayload]
    simp only [List.append_assoc]
    rw [decodeHelloAck, bind_ok (decodeNodeInfo_append hsender _ _), bind_ok (flag_append accepted),
      bind_ok (decodeString_append hreason)]
    rfl
  | gossipPush sender nodes =>
    obtain ⟨hlen, hnodes⟩ := h
    have hlist : ∀ info ∈ nodes, ∀ rest, decodeNodeInfo ⟨encodeNodeInfo info ++ rest, []⟩ =
        .ok (info.onWire, ⟨rest, []⟩) :=
      fun info hinfo rest => decodeNodeInfo_append (hnodes info hinfo) rest []
    apply Exists.intro
    show decodeGossipPush _ = _
    rw [decodeGossipPush, encodePayload, List.append_assoc, bind_ok (decodeU64_append _),
      bind_ok (decodeList_append hlen hlist)]
    rfl
  | get key metadataOnly range =>
    obtain ⟨hkey, hrange⟩ := h
    have hoption : ∀ r, range = some r → ∀ flags, decodeRange ⟨encodeRange r ++ rest, flags⟩ =
        .ok (id r, ⟨rest, flags⟩) := fun r hr _ => decodeRange_append (hrange r hr)
    apply Exists.intro
    show decodeGet _ = _
    rw [encodePayload]
    simp only [List.append_assoc]
    rw [decodeGet, bind_ok (decodeString_append hkey), bind_ok (flag_append metadataOnly),
      bind_ok (decodeOption_append hoption), Option.map_id]
    rfl
  | getResponse result metadata data actualRange =>
    obtain ⟨hmeta, hdata, hrange⟩ := h
    apply Exists.intro
    show decodeGetResponse _ = _
    rw [encodePayload]
    simp only [List.append_assoc]
    rw [decodeGetResponse, bind_ok (decodeU32_append _),
      bind_ok (decodeOption_append fun m hm _ => decodeMetadata_append (hmeta m hm)),
      bind_ok (decodeBytes_append hdata), bind_ok (decodeRange_append hrange)]
    rfl
  | put key data ttl flags =>
    obtain ⟨hkey, hdata⟩ := h
    have hid : UInt64.toInt64 ∘ Int64.toUInt64 = id := funext Int64.toInt64_toUInt64
    apply Exists.intro
    show decodePut _ = _
    rw [encodePayload]
    simp only [List.append_assoc]
    rw [decodePut, bind_ok (decodeString_append hkey), bind_ok (decodeBytes_append hdata),
      bind_ok (decodeOption_append fun n _ _ => decodeU64_append n.toUInt64),
      bind_ok (decodeU32_append _), Option.map_map, hid, Option.map_id]
    rfl
  | putResponse code message =>
    apply Exists.intro
    show decodePutResponse _ = _
    rw [decodePutResponse, encodePayload, List.append_assoc, bind_ok (decodeU32_append _),
      bind_ok (decodeString_append h)]
    rfl
  | delete key =>
    apply Exists.intro
    show decodeDelete _ = _
    rw [decodeDelete, encodePayload, bind_ok (decodeString_append h)]
    rfl
  | deleteResponse code existed =>
    have hpeek : (peekFlag : Reader Bool) ⟨encodeFlag existed ++ rest, []⟩ =
        .ok (existed, ⟨encodeFlag existed ++ rest, encodeFlag existed⟩) := by
      cases existed with
      | true => rfl
      | false => rfl
    apply Exists.intro
    show decodeDeleteResponse _ = _
    rw [decodeDeleteResponse, encodePayload, List.append_assoc, bind_ok (decodeU32_append _),
      bind_ok hpeek]
    rfl
  | error code message originalRequestId =>
    apply Exists.intro
    show decodeError _ = _
    rw [encodePayload]
    simp only [List.append_assoc]
    rw [decodeError, bind_ok (decodeU32_append _), bind_ok (decodeString_append h),
      bind_ok (decodeU32_append _)]
    rfl
  | _ => exact absurd h id

theorem parseHeader_append (type : MessageType) (payloadLen requestId : UInt32) (timestamp : UInt64)
    (rest flags : ByteBuffer) :
    parseHeader ⟨encodeHeader type payloadLen requestId timestamp ++ rest, flags⟩ =
      .ok ({ type := type.code, length := payloadLen, requestId, timestamp }, ⟨rest, flags⟩) := by
  have hlen : ¬ (encodeHeader type payloadLen requestId timestamp ++ rest).length < headerSize := by
    simp only [encodeHeader, encodeU16, encodeU32, encodeU64, List.length_append, length_leBytes,
      headerSize]
    omega
  rw [parseHeader, if_neg hlen, decodeHeader, encodeHeader]
  simp only [List.append_assoc]
  rw [bind_ok (decodeU32_append _), bind_ok (decodeU16_append _), bind_ok (decodeU16_append _),
    bind_ok (decodeU32_append _), bind_ok (decodeU32_append _), bind_ok (decodeU64_append _),
    if_pos rfl]
  rfl

/-- Decoding an encoded message. -/
theorem decode_encode {m : Message} (h : m.Fits) (timestamp : UInt64) (requestId : UInt32) :
    decode (encode timestamp m requestId) = .ok (m.onWire, {
      type := m.type.code, length := UInt32.ofNat (encodePayload m).length, requestId,
        timestamp }) := by
  obtain ⟨s, hs⟩ := decodePayload_append h []
  rw [List.append_nil] at hs
  rw [decode, encode, decodeMessage, bind_ok (parseHeader_append ..), bind_ok hs]
  rfl

/-! ## Writing what was read -/

theorem inverts_decodeU16 : decodeU16.Inverts encodeU16 := by
  intro s v s' h
  obtain ⟨n, s₁, hn, h⟩ := bind_eq_ok h
  cases h
  obtain ⟨hdata, hlt, hflags⟩ := eq_of_number hn
  rw [encodeU16, UInt16.toNat_ofNat_of_lt' hlt]
  exact ⟨hdata, hflags⟩

theorem inverts_decodeU32 : decodeU32.Inverts encodeU32 := by
  intro s v s' h
  obtain ⟨n, s₁, hn, h⟩ := bind_eq_ok h
  cases h
  obtain ⟨hdata, hlt, hflags⟩ := eq_of_number hn
  rw [encodeU32, UInt32.toNat_ofNat_of_lt' hlt]
  exact ⟨hdata, hflags⟩

theorem inverts_decodeU64 : decodeU64.Inverts encodeU64 := by
  intro s v s' h
  obtain ⟨n, s₁, hn, h⟩ := bind_eq_ok h
  cases h
  obtain ⟨hdata, hlt, hflags⟩ := eq_of_number hn
  rw [encodeU64, UInt64.toNat_ofNat_of_lt' hlt]
  exact ⟨hdata, hflags⟩

theorem inverts_decodeCounted (text : String) : (decodeCounted text).Inverts encodeBytes := by
  intro s data s' h
  obtain ⟨len, s₁, hlen, h⟩ := bind_eq_ok h
  obtain ⟨hcount, hflags⟩ := inverts_decodeU32 _ _ _ hlen
  obtain ⟨hdata, hsize, hflags'⟩ := eq_of_take h
  rw [encodeBytes, hsize, UInt32.ofNat_toNat, List.append_assoc, hcount, hdata]
  exact ⟨rfl, hflags'.trans hflags⟩

theorem inverts_decodeRange : decodeRange.Inverts encodeRange := by
  intro s r s' h
  obtain ⟨offset, s₁, h₁, h⟩ := bind_eq_ok h
  obtain ⟨length, s₂, h₂, h⟩ := bind_eq_ok h
  cases h
  obtain ⟨hdata₁, hflags₁⟩ := inverts_decodeU64 _ _ _ h₁
  obtain ⟨hdata₂, hflags₂⟩ := inverts_decodeU64 _ _ _ h₂
  rw [encodeRange, UInt64.ofNat_toNat, UInt64.ofNat_toNat, List.append_assoc, hdata₁, hdata₂]
  exact ⟨rfl, hflags₂.trans hflags₁⟩

theorem inverts_decodeMetadata : decodeMetadata.Inverts encodeMetadata := by
  intro s m s' h
  obtain ⟨totalSize, s₁, h₁, h⟩ := bind_eq_ok h
  obtain ⟨chunkCount, s₂, h₂, h⟩ := bind_eq_ok h
  obtain ⟨flags, s₃, h₃, h⟩ := bind_eq_ok h
  cases h
  obtain ⟨hdata₁, hflags₁⟩ := inverts_decodeU64 _ _ _ h₁
  obtain ⟨hdata₂, hflags₂⟩ := inverts_decodeU64 _ _ _ h₂
  obtain ⟨hdata₃, hflags₃⟩ := inverts_decodeU32 _ _ _ h₃
  simp only [encodeMetadata, UInt64.ofNat_toNat, List.append_assoc, hdata₁, hdata₂, hdata₃]
  exact ⟨trivial, hflags₃.trans (hflags₂.trans hflags₁)⟩

theorem inverts_decodeList {α : Type} {p : Reader α} {encode : α → ByteBuffer}
    (hp : p.Inverts encode) : (decodeList p).Inverts (encodeList encode) := by
  intro s as s' h
  obtain ⟨count, s₁, hcount, h⟩ := bind_eq_ok h
  obtain ⟨hdata, hflags⟩ := inverts_decodeU32 _ _ _ hcount
  obtain ⟨hlen, hdata', hflags'⟩ := hp.times _ _ _ _ h
  rw [encodeList, hlen, UInt32.ofNat_toNat, List.append_assoc, hdata, hdata']
  exact ⟨rfl, hflags'.trans hflags⟩

/-- The fields are read in the order in which they are written. -/
theorem inverts_decodeNodeInfo : decodeNodeInfo.Inverts encodeNodeInfo := by
  intro s info s' h
  obtain ⟨id, s₁, h₁, h⟩ := bind_eq_ok h
  obtain ⟨address, s₂, h₂, h⟩ := bind_eq_ok h
  obtain ⟨port, s₃, h₃, h⟩ := bind_eq_ok h
  obtain ⟨memoryCapacity, s₄, h₄, h⟩ := bind_eq_ok h
  obtain ⟨memoryUsed, s₅, h₅, h⟩ := bind_eq_ok h
  obtain ⟨diskCapacity, s₆, h₆, h⟩ := bind_eq_ok h
  obtain ⟨diskUsed, s₇, h₇, h⟩ := bind_eq_ok h
  obtain ⟨generation, s₈, h₈, h⟩ := bind_eq_ok h
  obtain ⟨state, s₉, h₉, h⟩ := bind_eq_ok h
  cases h
  obtain ⟨hdata₁, hflags₁⟩ := inverts_decodeU64 _ _ _ h₁
  obtain ⟨hdata₂, hflags₂⟩ := inverts_decodeCounted _ _ _ _ h₂
  obtain ⟨hdata₃, hflags₃⟩ := inverts_decodeU16 _ _ _ h₃
  obtain ⟨hdata₄, hflags₄⟩ := inverts_decodeU64 _ _ _ h₄
  obtain ⟨hdata₅, hflags₅⟩ := inverts_decodeU64 _ _ _ h₅
  obtain ⟨hdata₆, hflags₆⟩ := inverts_decodeU64 _ _ _ h₆
  obtain ⟨hdata₇, hflags₇⟩ := inverts_decodeU64 _ _ _ h₇
  obtain ⟨hdata₈, hflags₈⟩ := inverts_decodeU64 _ _ _ h₈
  obtain ⟨hdata₉, hflags₉⟩ := inverts_decodeU32 _ _ _ h₉
  simp only [encodeNodeInfo, List.append_assoc, hdata₁, hdata₂, hdata₃, hdata₄, hdata₅, hdata₆,
    hdata₇, hdata₈, hdata₉]
  refine ⟨trivial, ?_⟩
  rw [hflags₉, hflags₈, hflags₇, hflags₆, hflags₅, hflags₄, hflags₃, hflags₂, hflags₁]

/-- A boolean byte that is 0 or 1 is the byte of the boolean it is read as. -/
theorem encodeFlag_of_canonical {byte : UInt8} (h : byte = 0 ∨ byte = 1) :
    encodeFlag (byte != 0) = [byte] := by
  rcases h with rfl | rfl
  · rfl
  · rfl

/-- What a successful read of an optional field has read, if its boolean byte is 0 or 1. -/
theorem eq_of_decodeOption {α : Type} {p : Reader α} {encode : α → ByteBuffer}
    (hp : p.Inverts encode) {s s' : Cursor} {o : Option α} (h : decodeOption p s = .ok (o, s')) :
    ∃ byte, s'.flags = byte :: s.flags ∧
      (byte = 0 ∨ byte = 1 → s.data = encodeOption encode o ++ s'.data) := by
  obtain ⟨present, s₁, hflag, h⟩ := bind_eq_ok h
  obtain ⟨byte, hdata, hflags, rfl⟩ := eq_of_flag hflag
  refine ⟨byte, ?_⟩
  cases hpresent : byte != 0 with
  | true =>
    rw [if_pos hpresent] at h
    obtain ⟨a, s₂, ha, h⟩ := bind_eq_ok h
    cases h
    obtain ⟨hdata', hflags'⟩ := hp _ _ _ ha
    refine ⟨hflags'.trans hflags, fun hcanonical => ?_⟩
    have hbyte := encodeFlag_of_canonical hcanonical
    rw [hpresent] at hbyte
    rw [encodeOption, hbyte, hdata, hdata']
    rfl
  | false =>
    rw [hpresent] at h
    cases h
    refine ⟨hflags, fun hcanonical => ?_⟩
    have hbyte := encodeFlag_of_canonical hcanonical
    rw [hpresent] at hbyte
    rw [encodeOption, hbyte, hdata]
    rfl

/-- Where the payload of a message ends, given what is left of it: the boolean of a `DeleteResponse`
is not skipped. -/
def Message.EndsAt : Message → ByteBuffer → Prop
  | .deleteResponse _ _, left => left.length = 1
  | _, left => left = []

/-- The boolean bytes that were read are 0 or 1. -/
def Canonical (s : Cursor) : Prop := ∀ byte ∈ s.flags, byte = 0 ∨ byte = 1

section
variable {s s' : Cursor} {m : Message}

theorem eq_of_decodeHello (h : decodeHello s = .ok (m, s')) (hend : m.EndsAt s'.data) :
    encodePayload m = s.data ∧ m.type = .hello := by
  obtain ⟨sender, s₁, h₁, h⟩ := bind_eq_ok h
  obtain ⟨clusterName, s₂, h₂, h⟩ := bind_eq_ok h
  obtain ⟨capabilities, s₃, h₃, h⟩ := bind_eq_ok h
  cases h
  have hnil : s'.data = [] := hend
  rw [encodePayload, (inverts_decodeNodeInfo _ _ _ h₁).1, (inverts_decodeCounted _ _ _ _ h₂).1,
    (inverts_decodeList (inverts_decodeCounted _) _ _ _ h₃).1, hnil, List.append_nil,
    List.append_assoc]
  exact ⟨rfl, rfl⟩

theorem eq_of_decodeHelloAck (h : decodeHelloAck s = .ok (m, s')) (hc : Canonical s')
    (hend : m.EndsAt s'.data) : encodePayload m = s.data ∧ m.type = .helloAck := by
  obtain ⟨sender, s₁, h₁, h⟩ := bind_eq_ok h
  obtain ⟨accepted, s₂, h₂, h⟩ := bind_eq_ok h
  obtain ⟨rejectReason, s₃, h₃, h⟩ := bind_eq_ok h
  cases h
  have hnil : s'.data = [] := hend
  obtain ⟨byte, hdata, hflags, rfl⟩ := eq_of_flag h₂
  obtain ⟨hdata₃, hflags₃⟩ := inverts_decodeCounted _ _ _ _ h₃
  have hbyte := encodeFlag_of_canonical
    (hc byte (by rw [hflags₃, hflags]; exact List.mem_cons_self))
  rw [encodePayload, (inverts_decodeNodeInfo _ _ _ h₁).1, hdata, hdata₃, hbyte, hnil,
    List.append_nil, List.append_assoc]
  exact ⟨rfl, rfl⟩

theorem eq_of_decodeGossipPush (h : decodeGossipPush s = .ok (m, s')) (hend : m.EndsAt s'.data) :
    encodePayload m = s.data ∧ m.type = .gossipPush := by
  obtain ⟨sender, s₁, h₁, h⟩ := bind_eq_ok h
  obtain ⟨nodes, s₂, h₂, h⟩ := bind_eq_ok h
  cases h
  have hnil : s'.data = [] := hend
  rw [encodePayload, (inverts_decodeU64 _ _ _ h₁).1,
    (inverts_decodeList inverts_decodeNodeInfo _ _ _ h₂).1, hnil, List.append_nil]
  exact ⟨rfl, rfl⟩

theorem eq_of_decodeGet (h : decodeGet s = .ok (m, s')) (hc : Canonical s')
    (hend : m.EndsAt s'.data) : encodePayload m = s.data ∧ m.type = .get := by
  obtain ⟨key, s₁, h₁, h⟩ := bind_eq_ok h
  obtain ⟨metadataOnly, s₂, h₂, h⟩ := bind_eq_ok h
  obtain ⟨range, s₃, h₃, h⟩ := bind_eq_ok h
  cases h
  have hnil : s'.data = [] := hend
  obtain ⟨byte, hdata, hflags, rfl⟩ := eq_of_flag h₂
  obtain ⟨byte', hflags', hdata'⟩ := eq_of_decodeOption inverts_decodeRange h₃
  have hbyte := encodeFlag_of_canonical (hc byte (by rw [hflags', hflags]; simp))
  have hrange := hdata' (hc byte' (by rw [hflags']; exact List.mem_cons_self))
  rw [encodePayload, (inverts_decodeCounted _ _ _ _ h₁).1, hdata, hrange, hbyte, hnil,
    List.append_nil, List.append_assoc]
  exact ⟨rfl, rfl⟩

/-- What is decoded encodes to what was read. -/
theorem eq_of_decodeGetResponse (h : decodeGetResponse s = .ok (m, s')) (hc : Canonical s')
    (hend : m.EndsAt s'.data) : encodePayload m = s.data ∧ m.type = .getResponse := by
  obtain ⟨result, s₁, h₁, h⟩ := bind_eq_ok h
  obtain ⟨metadata, s₂, h₂, h⟩ := bind_eq_ok h
  obtain ⟨data, s₃, h₃, h⟩ := bind_eq_ok h
  obtain ⟨actualRange, s₄, h₄, h⟩ := bind_eq_ok h
  cases h
  have hnil : s'.data = [] := hend
  obtain ⟨byte, hflags, hdata⟩ := eq_of_decodeOption inverts_decodeMetadata h₂
  obtain ⟨hdata₃, hflags₃⟩ := inverts_decodeCounted _ _ _ _ h₃
  obtain ⟨hdata₄, hflags₄⟩ := inverts_decodeRange _ _ _ h₄
  have hmeta := hdata (hc byte (by rw [hflags₄, hflags₃, hflags]; exact List.mem_cons_self))
  rw [encodePayload, (inverts_decodeU32 _ _ _ h₁).1, hmeta, hdata₃, hdata₄, hnil, List.append_nil]
  simp only [List.append_assoc]
  exact ⟨trivial, rfl⟩

/-- What is decoded encodes to what was read. -/
theorem eq_of_decodePut (h : decodePut s = .ok (m, s')) (hc : Canonical s')
    (hend : m.EndsAt s'.data) : encodePayload m = s.data ∧ m.type = .put := by
  obtain ⟨key, s₁, h₁, h⟩ := bind_eq_ok h
  obtain ⟨data, s₂, h₂, h⟩ := bind_eq_ok h
  obtain ⟨ttl, s₃, h₃, h⟩ := bind_eq_ok h
  obtain ⟨flags, s₄, h₄, h⟩ := bind_eq_ok h
  cases h
  have hnil : s'.data = [] := hend
  obtain ⟨byte, hflags, hdata⟩ := eq_of_decodeOption inverts_decodeU64 h₃
  obtain ⟨hdata₄, hflags₄⟩ := inverts_decodeU32 _ _ _ h₄
  have hoption := hdata (hc byte (by rw [hflags₄, hflags]; exact List.mem_cons_self))
  have httl : encodeOption (fun n : Int64 => encodeU64 n.toUInt64) (ttl.map UInt64.toInt64) =
      encodeOption encodeU64 ttl := by
    cases ttl with
    | none => rfl
    | some n => simp only [Option.map_some, encodeOption, UInt64.toUInt64_toInt64]
  rw [encodePayload, httl, (inverts_decodeCounted _ _ _ _ h₁).1,
    (inverts_decodeCounted _ _ _ _ h₂).1, hoption, hdata₄, hnil, List.append_nil]
  simp only [List.append_assoc]
  exact ⟨trivial, rfl⟩

theorem eq_of_decodePutResponse (h : decodePutResponse s = .ok (m, s')) (hend : m.EndsAt s'.data) :
    encodePayload m = s.data ∧ m.type = .putResponse := by
  obtain ⟨code, s₁, h₁, h⟩ := bind_eq_ok h
  obtain ⟨message, s₂, h₂, h⟩ := bind_eq_ok h
  cases h
  have hnil : s'.data = [] := hend
  rw [encodePayload, (inverts_decodeU32 _ _ _ h₁).1, (inverts_decodeCounted _ _ _ _ h₂).1, hnil,
    List.append_nil]
  exact ⟨rfl, rfl⟩

theorem eq_of_decodeDelete (h : decodeDelete s = .ok (m, s')) (hend : m.EndsAt s'.data) :
    encodePayload m = s.data ∧ m.type = .delete := by
  obtain ⟨key, s₁, h₁, h⟩ := bind_eq_ok h
  cases h
  have hnil : s'.data = [] := hend
  rw [encodePayload, (inverts_decodeCounted _ _ _ _ h₁).1, hnil, List.append_nil]
  exact ⟨rfl, rfl⟩

/-- What is decoded encodes to what was read. -/
theorem eq_of_decodeDeleteResponse (h : decodeDeleteResponse s = .ok (m, s')) (hc : Canonical s')
    (hend : m.EndsAt s'.data) : encodePayload m = s.data ∧ m.type = .deleteResponse := by
  obtain ⟨code, s₁, h₁, h⟩ := bind_eq_ok h
  obtain ⟨existed, s₂, h₂, h⟩ := bind_eq_ok h
  cases h
  rw [peekFlag] at h₂
  split at h₂
  · cases h₂
  · next byte rest hdata =>
    cases h₂
    have hlen : s₁.data.length = 1 := hend
    have hrest : rest = [] := by
      rw [hdata] at hlen
      exact List.length_eq_zero_iff.1 (Nat.succ.inj hlen)
    have hbyte := encodeFlag_of_canonical (hc byte List.mem_cons_self)
    rw [encodePayload, hbyte, (inverts_decodeU32 _ _ _ h₁).1, hdata, hrest]
    exact ⟨rfl, rfl⟩

theorem eq_of_decodeError (h : decodeError s = .ok (m, s')) (hend : m.EndsAt s'.data) :
    encodePayload m = s.data ∧ m.type = .error := by
  obtain ⟨code, s₁, h₁, h⟩ := bind_eq_ok h
  obtain ⟨message, s₂, h₂, h⟩ := bind_eq_ok h
  obtain ⟨originalRequestId, s₃, h₃, h⟩ := bind_eq_ok h
  cases h
  have hnil : s'.data = [] := hend
  rw [encodePayload, (inverts_decodeU32 _ _ _ h₁).1, (inverts_decodeCounted _ _ _ _ h₂).1,
    (inverts_decodeU32 _ _ _ h₃).1, hnil, List.append_nil, List.append_assoc]
  exact ⟨rfl, rfl⟩

/-- A payload that was decoded to its end, with boolean bytes 0 and 1, is the payload of the decoded
message. -/
theorem eq_of_decodePayload {type : UInt16} (h : decodePayload type s = .ok (m, s'))
    (hc : Canonical s') (hend : m.EndsAt s'.data) :
    encodePayload m = s.data ∧ m.type.code = type := by
  have key : ∀ {t : MessageType}, encodePayload m = s.data ∧ m.type = t → type = t.code →
      encodePayload m = s.data ∧ m.type.code = type := by
    rintro t ⟨hpayload, rfl⟩ htype
    exact ⟨hpayload, htype.symm⟩
  rcases decodePayload_cases type with ⟨ht, hp⟩ | ⟨ht, hp⟩ | ⟨ht, hp⟩ | ⟨ht, hp⟩ | ⟨ht, hp⟩ |
    ⟨ht, hp⟩ | ⟨ht, hp⟩ | ⟨ht, hp⟩ | ⟨ht, hp⟩ | ⟨ht, hp⟩ | ⟨-, hp⟩
  all_goals rw [hp] at h
  · exact key (eq_of_decodeHello h hend) ht
  · exact key (eq_of_decodeHelloAck h hc hend) ht
  · exact key (eq_of_decodeGossipPush h hend) ht
  · exact key (eq_of_decodeGet h hc hend) ht
  · exact key (eq_of_decodeGetResponse h hc hend) ht
  · exact key (eq_of_decodePut h hc hend) ht
  · exact key (eq_of_decodePutResponse h hend) ht
  · exact key (eq_of_decodeDelete h hend) ht
  · exact key (eq_of_decodeDeleteResponse h hc hend) ht
  · exact key (eq_of_decodeError h hend) ht
  · cases h

end

/-- The header has its size. -/
theorem length_encodeHeader (type : MessageType) (payloadLen requestId : UInt32)
    (timestamp : UInt64) :
    (encodeHeader type payloadLen requestId timestamp).length = headerSize := by
  simp only [encodeHeader, encodeU16, encodeU32, encodeU64, List.length_append, length_leBytes]
  rfl

/-- **The codec round trip.** A message of the ten types that fits is decoded from its encoding,
with a header that carries its type, the request id, version 1 and the length of the payload. And an
input that is decoded to its end, with boolean bytes 0 and 1, has the payload that the decoded
message is encoded with. -/
theorem codec_round_trip :
    (∀ (m : Message) (timestamp : UInt64) (requestId : UInt32), m.Fits →
      (encodePayload m).length < 2 ^ 32 → ∃ header : MessageHeader,
        decode (encode timestamp m requestId) = .ok (m.onWire, header) ∧
        header.type = m.type.code ∧ header.requestId = requestId ∧ header.version = 1 ∧
        header.length.toNat = (encodePayload m).length) ∧
    (∀ (data : ByteBuffer) (m : Message) (header : MessageHeader) (s : Cursor),
      decodeMessage ⟨data, []⟩ = .ok ((m, header), s) → Canonical s → m.EndsAt s.data →
      ∀ (timestamp : UInt64) (requestId : UInt32),
        (encode timestamp m requestId).drop headerSize = data.drop headerSize) := by
  constructor
  · intro m timestamp requestId hfits hlen
    exact ⟨_, decode_encode hfits timestamp requestId, rfl, rfl, rfl,
      UInt32.toNat_ofNat_of_lt' hlen⟩
  · intro data m header s h hc hend timestamp requestId
    obtain ⟨header', s₁, hheader, h⟩ := bind_eq_ok h
    obtain ⟨m', s₂, hpayload, h⟩ := bind_eq_ok h
    cases h
    rw [parseHeader_eq_ok hheader] at hpayload
    rw [encode, List.drop_left' (length_encodeHeader ..)]
    exact (eq_of_decodePayload hpayload hc hend).1

/-- A `Delete` and the answer to it: the message there, and the payload back. -/
theorem codec_round_trip_delete :
    (∃ header : MessageHeader, decode (encode 5 (.delete ⟨[97]⟩) 7) = .ok (.delete ⟨[97]⟩, header) ∧
      header.type = 0x0104 ∧ header.requestId = 7 ∧ header.version = 1 ∧ header.length.toNat = 5) ∧
    (encode 5 (.deleteResponse 2 true) 7).drop headerSize = [2, 0, 0, 0, 1] := by
  refine ⟨codec_round_trip.1 (.delete ⟨[97]⟩) 5 7 ?_ ?_, ?_⟩
  · show 1 < 2 ^ 32
    omega
  · show 5 < 2 ^ 32
    omega
  · refine codec_round_trip.2 (encodeHeader .deleteResponse 5 7 0 ++ [2, 0, 0, 0, 1])
      (.deleteResponse 2 true) ⟨magic, version, 0x0105, 5, 7, 0⟩ ⟨[1], [1]⟩ (by decide) ?_ rfl 5 7
    intro byte hbyte
    exact .inr (List.mem_singleton.1 hbyte)

end Protocol

end ElCache
