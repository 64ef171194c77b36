import ElCache.Protocol.Codec

/-!
# Reads past the end in the codec

The field readers of `codec.cpp` check the remaining size, but the boolean bytes are read as
`data[0]` without a check. `decode_safe_iff` says which inputs this hits: those whose payload ends
exactly where a boolean byte is due.
-/

namespace ElCache

namespace Protocol

open Bytes Decoding Decoder

/-! ## Checked readers -/

theorem faultless_decodeU16 : decodeU16.Faultless :=
  (faultless_number 2 _).bind fun _ => faultless_pure _

theorem faultless_decodeU32 : decodeU32.Faultless :=
  (faultless_number 4 _).bind fun _ => faultless_pure _

theorem faultless_decodeU64 : decodeU64.Faultless :=
  (faultless_number 8 _).bind fun _ => faultless_pure _

theorem faultless_decodeCounted (text : String) : (decodeCounted text).Faultless :=
  faultless_decodeU32.bind fun len => faultless_take len.toNat text

theorem faultless_decodeRange : decodeRange.Faultless :=
  faultless_decodeU64.bind fun _ => faultless_decodeU64.bind fun _ => faultless_pure _

theorem faultless_decodeMetadata : decodeMetadata.Faultless :=
  faultless_decodeU64.bind fun _ => faultless_decodeU64.bind fun _ =>
    faultless_decodeU32.bind fun _ => faultless_pure _

theorem faultless_decodeList {α : Type} {p : Reader α} (hp : p.Faultless) :
    (decodeList p).Faultless :=
  faultless_decodeU32.bind fun count => hp.times count.toNat

theorem faultless_decodeNodeInfo : decodeNodeInfo.Faultless :=
  faultless_decodeU64.bind fun _ => (faultless_decodeCounted _).bind fun _ =>
    faultless_decodeU16.bind fun _ => faultless_decodeU64.bind fun _ =>
    faultless_decodeU64.bind fun _ => faultless_decodeU64.bind fun _ =>
    faultless_decodeU64.bind fun _ => faultless_decodeU64.bind fun _ =>
    faultless_decodeU32.bind fun _ => faultless_pure _

theorem skips_decodeU16 : decodeU16.Skips fun _ => 2 :=
  (skips_number 2 _).bind fun _ => skips_pure _

theorem skips_decodeU32 : decodeU32.Skips fun _ => 4 :=
  (skips_number 4 _).bind fun _ => skips_pure _

theorem skips_decodeU64 : decodeU64.Skips fun _ => 8 :=
  (skips_number 8 _).bind fun _ => skips_pure _

/-- The number of four bytes at a position of a payload. -/
def countAt (d : ByteBuffer) (i : Nat) : Nat := leVal ((d.drop i).take 4)

theorem decodeU32_eq_ok {s : Cursor} (h : 4 ≤ s.data.length) : ∃ v : UInt32,
    decodeU32 s = .ok (v, ⟨s.data.drop 4, s.flags⟩) ∧ v.toNat = countAt s.data 0 := by
  refine ⟨UInt32.ofNat (leVal (s.data.take 4)), ?_, ?_⟩
  · rw [decodeU32, bind_ok (number_eq_ok h)]
    rfl
  · have hlt := leVal_lt (s.data.take 4)
    have hlen : (s.data.take 4).length = 4 := List.length_take_of_le h
    rw [hlen] at hlt
    rw [UInt32.toNat_ofNat_of_lt' hlt]
    rfl

/-- A counted string takes as many bytes as it says, and four. -/
theorem skips_decodeCounted (text : String) :
    (decodeCounted text).Skips fun d => 4 + countAt d 0 := by
  intro s s'
  have hcount : ∀ len s₁, decodeU32 s = .ok (len, s₁) →
      4 ≤ s.data.length ∧ len.toNat = countAt s.data 0 ∧ s₁ = ⟨s.data.drop 4, s.flags⟩ := by
    intro len s₁ h
    obtain ⟨hle, rfl⟩ := (skips_decodeU32 s s₁).1 ⟨len, h⟩
    obtain ⟨v, hv, hval⟩ := decodeU32_eq_ok hle
    cases hv.symm.trans h
    exact ⟨hle, hval, rfl⟩
  constructor
  · rintro ⟨a, ha⟩
    obtain ⟨len, s₁, hlen, ha⟩ := bind_eq_ok ha
    obtain ⟨hle, hval, rfl⟩ := hcount len s₁ hlen
    obtain ⟨htake, rfl⟩ := (skips_take len.toNat text _ s').1 ⟨a, ha⟩
    simp only [List.length_drop, hval] at htake
    refine ⟨?_, ?_⟩
    · show 4 + countAt s.data 0 ≤ s.data.length
      omega
    · simp only [List.drop_drop, hval]
  · rintro ⟨hsum, rfl⟩
    have hle : 4 + countAt s.data 0 ≤ s.data.length := hsum
    obtain ⟨len, hlen, hval⟩ := decodeU32_eq_ok (Nat.le_of_add_right_le hle)
    obtain ⟨a, ha⟩ := (skips_take len.toNat text ⟨s.data.drop 4, s.flags⟩ _).2
      ⟨by simp only [List.length_drop, hval]; omega, rfl⟩
    refine ⟨a, ?_⟩
    rw [decodeCounted, bind_ok hlen, ha]
    simp only [List.drop_drop, hval]

/-- A node's record has 58 bytes besides the address, whose length stands at position 8. -/
theorem skips_decodeNodeInfo : decodeNodeInfo.Skips fun d => 58 + countAt d 8 := by
  have h : decodeNodeInfo.Skips fun d => 8 + (4 + countAt (d.drop 8) 0 + (2 + (8 + (8 + (8 + (8 +
      (8 + (4 + 0)))))))) :=
    skips_decodeU64.bind fun _ => (skips_decodeCounted _).bind fun _ =>
      skips_decodeU16.bind fun _ => skips_decodeU64.bind fun _ => skips_decodeU64.bind fun _ =>
      skips_decodeU64.bind fun _ => skips_decodeU64.bind fun _ => skips_decodeU64.bind fun _ =>
      skips_decodeU32.bind fun _ => skips_pure _
  have hsize : ∀ d : ByteBuffer, 8 + (4 + countAt (d.drop 8) 0 + (2 + (8 + (8 + (8 + (8 +
      (8 + (4 + 0)))))))) = 58 + countAt d 8 := by
    intro d
    have hzero : countAt (d.drop 8) 0 = countAt d 8 := rfl
    omega
  simpa only [hsize] using h

/-! ## Unchecked booleans -/

theorem flag_fault_iff {β : Type} {k : Bool → Reader β} (hk : ∀ b, (k b).Faultless)
    (d flags : ByteBuffer) :
    (flag >>= k) ⟨d, flags⟩ = .error .outOfRange ↔ d = [] :=
  flag_bind_eq_fault hk

theorem drop_eq_nil_iff {d : ByteBuffer} {n : Nat} :
    (n ≤ d.length ∧ d.drop n = []) ↔ d.length = n := by
  rw [List.drop_eq_nil_iff]
  omega

/-- Decoding a `HelloAck` reads past the end exactly if the payload ends after the sender. -/
theorem decodeHelloAck_fault_iff (s : Cursor) :
    decodeHelloAck s = .error .outOfRange ↔ s.data.length = 58 + countAt s.data 8 := by
  rw [← drop_eq_nil_iff]
  exact skips_decodeNodeInfo.fault_iff faultless_decodeNodeInfo fun _ d =>
    flag_fault_iff (fun _ => (faultless_decodeCounted _).bind fun _ => faultless_pure _) d _

/-- An optional field reads past the end exactly if its boolean is missing. -/
theorem decodeOption_fault_iff {α β : Type} {p : Reader α} (hp : p.Faultless)
    {k : Option α → Reader β} (hk : ∀ a, (k a).Faultless) (d flags : ByteBuffer) :
    (decodeOption p >>= k) ⟨d, flags⟩ = .error .outOfRange ↔ d = [] := by
  have hsome : ∀ b : Bool, Faultless (if b then do
      let a ← p
      pure (some a)
    else pure none : Reader (Option α)) := by
    intro b
    cases b with
    | true => exact hp.bind fun _ => faultless_pure _
    | false => exact faultless_pure _
  constructor
  · intro h
    rcases bind_eq_fault h with h | ⟨a, s₁, -, h⟩
    · exact (flag_fault_iff hsome d flags).1 h
    · exact absurd h (hk a s₁)
  · intro h
    exact bind_error ((flag_fault_iff hsome d flags).2 h)

/-- Decoding a `Get` reads past the end exactly if the payload ends after the key or one byte
later. -/
theorem decodeGet_fault_iff (s : Cursor) :
    decodeGet s = .error .outOfRange ↔
      s.data.length = 4 + countAt s.data 0 ∨ s.data.length = 5 + countAt s.data 0 := by
  have hrest : ∀ (key d : ByteBuffer), (flag >>= fun metadataOnly =>
      decodeOption decodeRange >>= fun range => pure (.get ⟨key⟩ metadataOnly range) :
      Reader Message) ⟨d, s.flags⟩ = .error .outOfRange ↔ d.length ≤ 1 := by
    intro key d
    cases d with
    | nil => exact ⟨fun _ => Nat.zero_le 1, fun _ => bind_error rfl⟩
    | cons b rest =>
      rw [bind_ok (flag_cons b rest s.flags),
        decodeOption_fault_iff faultless_decodeRange fun _ => faultless_pure _]
      rw [List.length_cons, ← List.length_eq_zero_iff]
      omega
  have h := (skips_decodeCounted "Truncated string").fault_iff (faultless_decodeCounted _)
    (s := s) hrest
  refine h.trans ?_
  rw [List.length_drop]
  omega

/-- Decoding a `GetResponse` reads past the end exactly if the payload ends after the result
code. -/
theorem decodeGetResponse_fault_iff (s : Cursor) :
    decodeGetResponse s = .error .outOfRange ↔ s.data.length = 4 := by
  rw [← drop_eq_nil_iff]
  exact skips_decodeU32.fault_iff faultless_decodeU32 fun _ d =>
    decodeOption_fault_iff faultless_decodeMetadata
      (fun _ => (faultless_decodeCounted _).bind fun _ =>
        faultless_decodeRange.bind fun _ => faultless_pure _) d _

/-- Decoding a `Put` reads past the end exactly if the payload ends after the value. -/
theorem decodePut_fault_iff (s : Cursor) : decodePut s = .error .outOfRange ↔
    s.data.length = 8 + countAt s.data 0 + countAt s.data (4 + countAt s.data 0) := by
  have hrest : ∀ (key d : ByteBuffer),
    (decodeBytes >>= fun data => decodeOption decodeU64 >>= fun ttl =>
      decodeU32 >>= fun flags => pure (.put ⟨key⟩ data (ttl.map UInt64.toInt64) flags) :
      Reader Message) ⟨d, s.flags⟩ = .error .outOfRange ↔ d.length = 4 + countAt d 0 := by
    intro key d
    rw [← drop_eq_nil_iff]
    exact (skips_decodeCounted _).fault_iff (faultless_decodeCounted _) fun _ d' =>
      decodeOption_fault_iff faultless_decodeU64 (fun _ => faultless_decodeU32.bind fun _ =>
        faultless_pure _) d' _
  have h := (skips_decodeCounted "Truncated string").fault_iff (faultless_decodeCounted _)
    (s := s) hrest
  have hcount : countAt (s.data.drop (4 + countAt s.data 0)) 0 =
    countAt s.data (4 + countAt s.data 0) := rfl
  refine h.trans ?_
  rw [List.length_drop, hcount]
  omega

/-- Decoding a `DeleteResponse` reads past the end exactly if the payload ends after the code. -/
theorem decodeDeleteResponse_fault_iff (s : Cursor) :
    decodeDeleteResponse s = .error .outOfRange ↔ s.data.length = 4 := by
  have hrest : ∀ (code : UInt32) (d : ByteBuffer), (peekFlag >>= fun existed =>
      pure (.deleteResponse code existed) : Reader Message) ⟨d, s.flags⟩ = .error .outOfRange ↔
        d = [] := by
    intro code d
    cases d with
    | nil => exact ⟨fun _ => rfl, fun _ => rfl⟩
    | cons b rest => exact ⟨nofun, nofun⟩
  rw [← drop_eq_nil_iff]
  exact skips_decodeU32.fault_iff faultless_decodeU32 hrest

/-! ## Messages -/

/-- The message types that `Codec::decode` has a case for. -/
def decodedTypes : List MessageType :=
  [.hello, .helloAck, .gossipPush, .get, .getResponse, .put, .putResponse, .delete, .deleteResponse,
    .error]

/-- The switch of `Codec::decode` takes one of its ten cases, or fails. -/
theorem decodePayload_cases (type : UInt16) :
    (type = MessageType.hello.code ∧ decodePayload type = decodeHello) ∨
    (type = MessageType.helloAck.code ∧ decodePayload type = decodeHelloAck) ∨
    (type = MessageType.gossipPush.code ∧ decodePayload type = decodeGossipPush) ∨
    (type = MessageType.get.code ∧ decodePayload type = decodeGet) ∨
    (type = MessageType.getResponse.code ∧ decodePayload type = decodeGetResponse) ∨
    (type = MessageType.put.code ∧ decodePayload type = decodePut) ∨
    (type = MessageType.putResponse.code ∧ decodePayload type = decodePutResponse) ∨
    (type = MessageType.delete.code ∧ decodePayload type = decodeDelete) ∨
    (type = MessageType.deleteResponse.code ∧ decodePayload type = decodeDeleteResponse) ∨
    (type = MessageType.error.code ∧ decodePayload type = decodeError) ∨
    ((∀ t ∈ decodedTypes, type ≠ t.code) ∧
      decodePayload type = Decoder.fail "Unknown message type") := by
  obtain ⟨p, hp⟩ : ∃ p, decodePayload type = p := ⟨_, rfl⟩
  rw [hp]
  rw [decodePayload] at hp
  by_cases hhello : type = MessageType.hello.code
  · rw [if_pos hhello] at hp
    exact .inl ⟨hhello, hp.symm⟩
  rw [if_neg hhello] at hp
  refine .inr ?_
  by_cases hack : type = MessageType.helloAck.code
  · rw [if_pos hack] at hp
    exact .inl ⟨hack, hp.symm⟩
  rw [if_neg hack] at hp
  refine .inr ?_
  by_cases hpush : type = MessageType.gossipPush.code
  · rw [if_pos hpush] at hp
    exact .inl ⟨hpush, hp.symm⟩
  rw [if_neg hpush] at hp
  refine .inr ?_
  by_cases hget : type = MessageType.get.code
  · rw [if_pos hget] at hp
    exact .inl ⟨hget, hp.symm⟩
  rw [if_neg hget] at hp
  refine .inr ?_
  by_cases hresp : type = MessageType.getResponse.code
  · rw [if_pos hresp] at hp
    exact .inl ⟨hresp, hp.symm⟩
  rw [if_neg hresp] at hp
  refine .inr ?_
  by_cases hput : type = MessageType.put.code
  · rw [if_pos hput] at hp
    exact .inl ⟨hput, hp.symm⟩
  rw [if_neg hput] at hp
  refine .inr ?_
  by_cases hputResp : type = MessageType.putResponse.code
  · rw [if_pos hputResp] at hp
    exact .inl ⟨hputResp, hp.symm⟩
  rw [if_neg hputResp] at hp
  refine .inr ?_
  by_cases hdel : type = MessageType.delete.code
  · rw [if_pos hdel] at hp
    exact .inl ⟨hdel, hp.symm⟩
  rw [if_neg hdel] at hp
  refine .inr ?_
  by_cases hdelResp : type = MessageType.deleteResponse.code
  · rw [if_pos hdelResp] at hp
    exact .inl ⟨hdelResp, hp.symm⟩
  rw [if_neg hdelResp] at hp
  refine .inr ?_
  by_cases herr : type = MessageType.error.code
  · rw [if_pos herr] at hp
    exact .inl ⟨herr, hp.symm⟩
  rw [if_neg herr] at hp
  refine .inr ?_
  refine ⟨fun t ht => ?_, hp.symm⟩
  simp only [decodedTypes, List.mem_cons, List.not_mem_nil, or_false] at ht
  rcases ht with rfl | rfl | rfl | rfl | rfl | rfl | rfl | rfl | rfl | rfl
  exacts [hhello, hack, hpush, hget, hresp, hput, hputResp, hdel, hdelResp, herr]

/-- The positions of a payload at which a boolean byte is due. -/
def flagOffsets (type : UInt16) (payload : ByteBuffer) : List Nat :=
  if type = MessageType.helloAck.code then [58 + countAt payload 8]
  else if type = MessageType.get.code then [4 + countAt payload 0, 5 + countAt payload 0]
  else if type = MessageType.getResponse.code then [4]
  else if type = MessageType.put.code then
    [8 + countAt payload 0 + countAt payload (4 + countAt payload 0)]
  else if type = MessageType.deleteResponse.code then [4]
  else []

/-- A decoder without a fault, for a type without boolean bytes. -/
theorem Faultless.fault_iff {p : Reader Message} (hp : p.Faultless) {type : UInt16} {s : Cursor}
    (h : flagOffsets type s.data = []) :
    p s = .error .outOfRange ↔ s.data.length ∈ flagOffsets type s.data := by
  rw [h]
  exact ⟨fun hf => absurd hf (hp s), nofun⟩

theorem faultless_decodeHello : decodeHello.Faultless :=
  faultless_decodeNodeInfo.bind fun _ => (faultless_decodeCounted _).bind fun _ =>
    (faultless_decodeList (faultless_decodeCounted _)).bind fun _ => faultless_pure _

theorem faultless_decodeGossipPush : decodeGossipPush.Faultless :=
  faultless_decodeU64.bind fun _ => (faultless_decodeList faultless_decodeNodeInfo).bind fun _ =>
    faultless_pure _

theorem faultless_decodePutResponse : decodePutResponse.Faultless :=
  faultless_decodeU32.bind fun _ => (faultless_decodeCounted _).bind fun _ => faultless_pure _

theorem faultless_decodeDelete : decodeDelete.Faultless :=
  (faultless_decodeCounted _).bind fun _ => faultless_pure _

theorem faultless_decodeError : decodeError.Faultless :=
  faultless_decodeU32.bind fun _ => (faultless_decodeCounted _).bind fun _ =>
    faultless_decodeU32.bind fun _ => faultless_pure _

/-- Decoding a payload reads past the end exactly if the payload ends where a boolean byte is
due. -/
theorem decodePayload_fault_iff (type : UInt16) (s : Cursor) :
    decodePayload type s = .error .outOfRange ↔ s.data.length ∈ flagOffsets type s.data := by
  rcases decodePayload_cases type with ⟨h, hp⟩ | ⟨h, hp⟩ | ⟨h, hp⟩ | ⟨h, hp⟩ | ⟨h, hp⟩ | ⟨h, hp⟩ |
    ⟨h, hp⟩ | ⟨h, hp⟩ | ⟨h, hp⟩ | ⟨h, hp⟩ | ⟨h, hp⟩
  all_goals rw [hp]
  · exact Faultless.fault_iff faultless_decodeHello (by rw [h]; rfl)
  · rw [decodeHelloAck_fault_iff, h]
    exact List.mem_singleton.symm
  · exact Faultless.fault_iff faultless_decodeGossipPush (by rw [h]; rfl)
  · rw [decodeGet_fault_iff, h]
    exact (List.mem_cons.trans (or_congr_right List.mem_singleton)).symm
  · rw [decodeGetResponse_fault_iff, h]
    exact List.mem_singleton.symm
  · rw [decodePut_fault_iff, h]
    exact List.mem_singleton.symm
  · exact Faultless.fault_iff faultless_decodePutResponse (by rw [h]; rfl)
  · exact Faultless.fault_iff faultless_decodeDelete (by rw [h]; rfl)
  · rw [decodeDeleteResponse_fault_iff, h]
    exact List.mem_singleton.symm
  · exact Faultless.fault_iff faultless_decodeError (by rw [h]; rfl)
  · refine Faultless.fault_iff (faultless_fail _) ?_
    rw [flagOffsets, if_neg (h .helloAck (by decide)), if_neg (h .get (by decide)),
      if_neg (h .getResponse (by decide)), if_neg (h .put (by decide)),
      if_neg (h .deleteResponse (by decide))]

/-! ## The header -/

theorem faultless_decodeHeader : decodeHeader.Faultless := by
  refine faultless_decodeU32.bind fun _ => faultless_decodeU16.bind fun _ =>
    faultless_decodeU16.bind fun _ => faultless_decodeU32.bind fun _ =>
    faultless_decodeU32.bind fun _ => faultless_decodeU64.bind fun _ => ?_
  split
  · exact faultless_pure _
  · exact faultless_fail _

theorem faultless_parseHeader : parseHeader.Faultless := by
  intro s h
  rw [parseHeader] at h
  split at h
  · cases h
  · exact faultless_decodeHeader s h

/-- Parsing the header skips it. -/
theorem parseHeader_eq_ok {s s' : Cursor} {header : MessageHeader}
    (h : parseHeader s = .ok (header, s')) : s' = ⟨s.data.drop headerSize, s.flags⟩ := by
  rw [parseHeader] at h
  split at h
  · cases h
  · obtain ⟨magic, s₁, h₁, h⟩ := bind_eq_ok h
    obtain ⟨version, s₂, h₂, h⟩ := bind_eq_ok h
    obtain ⟨type, s₃, h₃, h⟩ := bind_eq_ok h
    obtain ⟨length, s₄, h₄, h⟩ := bind_eq_ok h
    obtain ⟨requestId, s₅, h₅, h⟩ := bind_eq_ok h
    obtain ⟨timestamp, s₆, h₆, h⟩ := bind_eq_ok h
    split at h
    · cases h
      obtain ⟨-, rfl⟩ := (skips_decodeU32 s s₁).1 ⟨_, h₁⟩
      obtain ⟨-, rfl⟩ := (skips_decodeU16 _ s₂).1 ⟨_, h₂⟩
      obtain ⟨-, rfl⟩ := (skips_decodeU16 _ s₃).1 ⟨_, h₃⟩
      obtain ⟨-, rfl⟩ := (skips_decodeU32 _ s₄).1 ⟨_, h₄⟩
      obtain ⟨-, rfl⟩ := (skips_decodeU32 _ s₅).1 ⟨_, h₅⟩
      obtain ⟨-, rfl⟩ := (skips_decodeU64 _ s').1 ⟨_, h₆⟩
      simp only [List.drop_drop]
      rfl
    · cases h

/-- Decoding reads past the end exactly if a payload that follows a good header ends where a boolean
byte is due. -/
theorem decode_fault_iff (data : ByteBuffer) : decode data = .error .outOfRange ↔
    ∃ header s, parseHeader ⟨data, []⟩ = .ok (header, s) ∧
      (data.drop headerSize).length ∈ flagOffsets header.type (data.drop headerSize) := by
  have hrun : decode data = .error .outOfRange ↔ decodeMessage ⟨data, []⟩ = .error .outOfRange := by
    rw [decode]
    cases decodeMessage ⟨data, []⟩ with
    | error e =>
      constructor
      · intro h
        cases h
        rfl
      · intro h
        cases h
        rfl
    | ok r => exact ⟨nofun, nofun⟩
  have hrest : ∀ (header : MessageHeader) (s : Cursor), (decodePayload header.type >>= fun m =>
      pure (m, header) : Reader (Message × MessageHeader)) s = .error .outOfRange ↔
        decodePayload header.type s = .error .outOfRange := by
    intro header s
    constructor
    · intro h
      rcases bind_eq_fault h with h | ⟨m, s₁, -, h⟩
      · exact h
      · cases h
    · intro h
      exact bind_error h
  rw [hrun]
  constructor
  · intro hfault
    rcases bind_eq_fault hfault with hfault | ⟨header, s, hheader, hfault⟩
    · exact absurd hfault (faultless_parseHeader _)
    · have hs := parseHeader_eq_ok hheader
      subst hs
      exact ⟨header, _, hheader, (decodePayload_fault_iff _ _).1 ((hrest header _).1 hfault)⟩
  · rintro ⟨header, s, hheader, hmem⟩
    have hs := parseHeader_eq_ok hheader
    subst hs
    rw [decodeMessage, bind_ok hheader, hrest]
    exact (decodePayload_fault_iff _ _).2 hmem

/-- `decode` never reads past the end if and only if no payload that follows a good header ends
where a boolean byte is due. -/
theorem decode_safe_iff (data : ByteBuffer) : decode data ≠ .error .outOfRange ↔
    ∀ header s, parseHeader ⟨data, []⟩ = .ok (header, s) →
      (data.drop headerSize).length ∉ flagOffsets header.type (data.drop headerSize) := by
  rw [ne_eq, decode_fault_iff]
  constructor
  · intro hsafe header s hheader hmem
    exact hsafe ⟨header, s, hheader, hmem⟩
  · rintro hsafe ⟨header, s, hheader, hmem⟩
    exact hsafe header s hheader hmem

/-- A `DeleteResponse` whose payload is only the code: the boolean byte is read from behind it. -/
theorem decode_out_of_range :
    decode (encodeHeader .deleteResponse 4 1 0 ++ [0, 0, 0, 0]) = .error .outOfRange := by
  decide

end Protocol

end ElCache
