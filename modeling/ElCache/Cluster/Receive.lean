import ElCache.Cluster.Connection

/-!
# The lock of a connection

`Connection::receive` takes `recv_mutex_` by hand and releases it on each of its returns. An
exception of `Codec::decode` is caught and the lock released, but `Codec::parse_header` is called
outside the `try` block and throws on a wrong magic number: the exception leaves `receive` with the
lock held, and every later receive on the connection waits for it. `receive_releases_iff` says which
streams this hits, together with those on which `decode` reads past the message.
-/

namespace ElCache

open Slice Bytes

namespace Protocol

open Decoding Decoder

/-! ## The fields of a header -/

/-- The magic number of a message. -/
def headerMagic (data : ByteBuffer) : UInt32 := UInt32.ofNat (leVal (slice data 0 4))

/-- The type of a message. -/
def headerType (data : ByteBuffer) : UInt16 := UInt16.ofNat (leVal (slice data 6 8))

/-- The payload length in the header of a message. -/
def headerLength (data : ByteBuffer) : UInt32 := UInt32.ofNat (leVal (slice data 8 12))

section
variable {data flags : ByteBuffer}

theorem number_of_le {n : Nat} {e : String} (h : n ≤ data.length) :
    Decoder.number n e ⟨data, flags⟩ =
      .ok (leVal (data.take n), ⟨data.drop n, flags⟩) := by
  have htake : Decoder.take n e ⟨data, flags⟩ = .ok (data.take n, ⟨data.drop n, flags⟩) := by
    rw [Decoder.take, if_neg (Nat.not_lt.2 h)]
  rw [Decoder.number, bind_ok htake]
  rfl

theorem decodeU16_of_le (h : 2 ≤ data.length) :
    decodeU16 ⟨data, flags⟩ = .ok (UInt16.ofNat (leVal (data.take 2)), ⟨data.drop 2, flags⟩) := by
  rw [decodeU16, bind_ok (number_of_le h)]
  rfl

theorem decodeU32_of_le (h : 4 ≤ data.length) :
    decodeU32 ⟨data, flags⟩ = .ok (UInt32.ofNat (leVal (data.take 4)), ⟨data.drop 4, flags⟩) := by
  rw [decodeU32, bind_ok (number_of_le h)]
  rfl

theorem decodeU64_of_le (h : 8 ≤ data.length) :
    decodeU64 ⟨data, flags⟩ = .ok (UInt64.ofNat (leVal (data.take 8)), ⟨data.drop 8, flags⟩) := by
  rw [decodeU64, bind_ok (number_of_le h)]
  rfl

/-! The fields of the start of a stream. -/

theorem headerMagic_take {n : Nat} (h : headerSize ≤ n) :
    headerMagic (data.take n) = headerMagic data := by
  rw [headerMagic, slice_take_of_le (Nat.le_trans (by decide) h), headerMagic]

theorem headerType_take {n : Nat} (h : headerSize ≤ n) :
    headerType (data.take n) = headerType data := by
  rw [headerType, slice_take_of_le (Nat.le_trans (by decide) h), headerType]

theorem headerLength_take {n : Nat} (h : headerSize ≤ n) :
    headerLength (data.take n) = headerLength data := by
  rw [headerLength, slice_take_of_le (Nat.le_trans (by decide) h), headerLength]

/-- `parse_header` on enough bytes looks at the magic number only. -/
theorem parseHeader_of_le (flags : ByteBuffer) (h : headerSize ≤ data.length) :
    (headerMagic data ≠ magic ∧
      parseHeader ⟨data, flags⟩ = .error (.error "Invalid magic number")) ∨
    (headerMagic data = magic ∧ ∃ header, parseHeader ⟨data, flags⟩ =
        .ok (header, ⟨data.drop headerSize, flags⟩) ∧ header.magic = magic ∧
      header.type = headerType data ∧ header.length = headerLength data) := by
  rw [parseHeader, if_neg (Nat.not_lt.2 h), decodeHeader]
  have hlen : 24 ≤ data.length := h
  rw [bind_ok (decodeU32_of_le (by omega)),
    bind_ok (decodeU16_of_le (by rw [List.length_drop]; omega)),
    bind_ok (decodeU16_of_le (by simp only [List.length_drop]; omega)),
    bind_ok (decodeU32_of_le (by simp only [List.length_drop]; omega)),
    bind_ok (decodeU32_of_le (by simp only [List.length_drop]; omega)),
    bind_ok (decodeU64_of_le (by simp only [List.length_drop]; omega))]
  simp only [List.drop_drop, take_drop_eq_slice]
  split
  · next hmagic => exact .inr ⟨hmagic, _, rfl, hmagic, rfl, rfl⟩
  · next hmagic => exact .inl ⟨hmagic, rfl⟩

end

end Protocol

namespace Connection

open Protocol

/-! ## Receiving under the lock -/

/-- The part of a `Connection` that `receive` uses: `recv_mutex_`, `connected_`, and the pieces that
arrive on the stream until it ends. -/
structure Receiver where
  locked : Bool := false
  connected : Bool := true
  input : List ByteBuffer := []

/-- `Connection::receive` with its lock, which it waits for as long as it is held. -/
def Receiver.receive (s : Receiver) : Option (Received × Receiver) :=
  if s.locked then none
  else
    let held := { s with locked := true }
    some <|
      match Stream.readAll s.input headerSize with
      | .error _ => (.nothing, { held with connected := false, locked := false, input := [] })
      | .ok (header, input) =>
        match parseHeader ⟨header, []⟩ with
        -- the exception leaves the function, and nothing releases the lock
        | .error _ => (.thrown, { held with input })
        | .ok (msgHeader, _) =>
          if msgHeader.magic ≠ magic then (.nothing, { held with locked := false, input })
          else
            match Stream.readAll input msgHeader.length.toNat with
            | .error _ => (.nothing, { held with connected := false, locked := false, input := [] })
            | .ok (body, input) =>
              match decode (header ++ body) with
              | .ok (m, _) => (.message m, { held with locked := false, input })
              | .error (.error _) => (.nothing, { held with locked := false, input })
              -- behind a read past the message nothing is known
              | .error .outOfRange => (.fault, { held with input })

/-- A receive that gets the lock is the one on the stream. -/
theorem Receiver.receive_eq {s : Receiver} (h : s.locked = false) :
    ∃ s', s.receive = some ((Connection.receive s.input).1, s') ∧
      s'.input = (Connection.receive s.input).2 := by
  rw [Receiver.receive, h, if_neg Bool.false_ne_true, Connection.receive]
  cases Stream.readAll s.input headerSize with
  | error bytes => exact ⟨_, rfl, rfl⟩
  | ok r =>
    obtain ⟨header, input⟩ := r
    dsimp only
    cases parseHeader ⟨header, []⟩ with
    | error e => exact ⟨_, rfl, rfl⟩
    | ok r =>
      obtain ⟨msgHeader, rest⟩ := r
      dsimp only
      split
      · exact ⟨_, rfl, rfl⟩
      cases Stream.readAll input msgHeader.length.toNat with
      | error bytes => exact ⟨_, rfl, rfl⟩
      | ok r =>
        obtain ⟨body, input⟩ := r
        dsimp only
        cases decode (header ++ body) with
        | ok r => exact ⟨_, rfl, rfl⟩
        | error e =>
          cases e with
          | error e => exact ⟨_, rfl, rfl⟩
          | outOfRange => exact ⟨_, rfl, rfl⟩

/-- The receive returns a message or none, and a later receive gets the lock. -/
def Receiver.Releases (s : Receiver) : Prop :=
  ∃ r s', s.receive = some (r, s') ∧ (r = .nothing ∨ ∃ m, r = .message m) ∧ s'.locked = false ∧
    s'.receive.isSome = true

/-- The streams on which a receive ends as it should: the header is incomplete, or its magic number
is right and the body is incomplete or does not end where a boolean byte of the message is due. -/
def Receivable (stream : ByteBuffer) : Prop :=
  stream.length < headerSize ∨ headerMagic stream = magic ∧
    let n := (headerLength stream).toNat
    (stream.length < headerSize + n ∨
      n ∉ flagOffsets (headerType stream) (slice stream headerSize (headerSize + n)))

section
variable {s s' : Receiver} {r : Received}

theorem releases_of_eq (h : s.receive = some (r, s')) (hr : r = .nothing ∨ ∃ m, r = .message m)
    (hs' : s'.locked = false) : s.Releases := by
  refine ⟨r, s', h, hr, hs', ?_⟩
  rw [Receiver.receive, hs', if_neg Bool.false_ne_true]
  rfl

theorem not_releases_of_eq (h : s.receive = some (r, s')) (hr : r = .thrown ∨ r = .fault) :
    ¬ s.Releases := by
  rintro ⟨r', s'', h', hr', -⟩
  rw [h] at h'
  cases h'
  rcases hr with rfl | rfl <;> rcases hr' with hr' | ⟨m, hr'⟩ <;> cases hr'

end

/-- Decoding a message whose header has the right magic number. -/
theorem decode_fault_takes {stream : ByteBuffer} {n : Nat}
    (hmagic : Protocol.headerMagic stream = magic)
    (hn : (Protocol.headerLength stream).toNat = n) (hlen : headerSize + n ≤ stream.length) :
    decode (stream.take (headerSize + n)) = .error .outOfRange ↔
      n ∈ flagOffsets (Protocol.headerType stream) (slice stream headerSize (headerSize + n)) := by
  have hle : headerSize ≤ headerSize + n := Nat.le_add_right _ _
  have hdata : headerSize ≤ (stream.take (headerSize + n)).length := by
    rw [List.length_take_of_le hlen]
    exact hle
  have hbody : (slice stream headerSize (headerSize + n)).length = n := by
    rw [length_slice]
    omega
  rw [decode_fault_iff]
  rcases parseHeader_of_le [] hdata with ⟨hbad, -⟩ | ⟨-, header, hparse, -, htype, -⟩
  · rw [headerMagic_take hle] at hbad
    exact absurd hmagic hbad
  rw [headerType_take hle] at htype
  have hdrop : (stream.take (headerSize + n)).drop headerSize =
      slice stream headerSize (headerSize + n) := rfl
  rw [hdrop, hbody]
  constructor
  · rintro ⟨header', s, hparse', hmem⟩
    rw [hparse] at hparse'
    cases hparse'
    rwa [← htype]
  · intro hmem
    exact ⟨header, _, hparse, htype ▸ hmem⟩

/-- What is read of a stream that starts with a good header. -/
theorem read_header {ps : List ByteBuffer} (hproper : Stream.Proper ps)
    (hge : headerSize ≤ ps.flatten.length) (hmagic : Protocol.headerMagic ps.flatten = magic) :
    ∃ body header rest, Stream.readAll ps headerSize = .ok (ps.flatten.take headerSize, body) ∧
      parseHeader ⟨ps.flatten.take headerSize, []⟩ = .ok (header, rest) ∧ header.magic = magic ∧
      header.length = Protocol.headerLength ps.flatten ∧ Stream.Proper body ∧
      body.flatten = ps.flatten.drop headerSize := by
  obtain ⟨body, hread, hbody, hproper'⟩ := Stream.readAll_ok hproper hge
  have hheader : headerSize ≤ (ps.flatten.take headerSize).length :=
    Nat.le_of_eq (List.length_take_of_le hge).symm
  rcases parseHeader_of_le [] hheader with ⟨hbad, -⟩ | ⟨-, header, hparse, hgood, -, hlength⟩
  · rw [headerMagic_take (Nat.le_refl _)] at hbad
    exact absurd hmagic hbad
  · rw [headerLength_take (Nat.le_refl _)] at hlength
    exact ⟨body, header, _, hread, hparse, hgood, hlength, hproper', hbody⟩

section
variable {s : Receiver} (hfree : s.locked = false) (hproper : Stream.Proper s.input)
include hfree hproper

theorem releases_of_short_header (hlt : s.input.flatten.length < headerSize) : s.Releases := by
  have hrun : s.receive =
      some (.nothing, { s with connected := false, locked := false, input := [] }) := by
    rw [Receiver.receive, hfree, if_neg Bool.false_ne_true, Stream.readAll_error hproper hlt]
  exact releases_of_eq hrun (.inl rfl) rfl

theorem not_releases_of_magic_ne (hge : headerSize ≤ s.input.flatten.length)
    (hmagic : Protocol.headerMagic s.input.flatten ≠ magic) : ¬ s.Releases := by
  obtain ⟨body, hread, -⟩ := Stream.readAll_ok hproper hge
  have hheader : headerSize ≤ (s.input.flatten.take headerSize).length :=
    Nat.le_of_eq (List.length_take_of_le hge).symm
  rcases parseHeader_of_le [] hheader with ⟨-, hparse⟩ | ⟨hgood, -⟩
  · have hrun : s.receive = some (.thrown, { s with locked := true, input := body }) := by
      rw [Receiver.receive, hfree, if_neg Bool.false_ne_true]
      simp only [hread, hparse]
    exact not_releases_of_eq hrun (.inl rfl)
  · rw [headerMagic_take (Nat.le_refl _)] at hgood
    exact absurd hgood hmagic

variable {n : Nat} (hmagic : Protocol.headerMagic s.input.flatten = magic)
  (hn : (Protocol.headerLength s.input.flatten).toNat = n)
include hmagic hn

theorem releases_of_short_body (hge : headerSize ≤ s.input.flatten.length)
    (hlt : s.input.flatten.length < headerSize + n) : s.Releases := by
  obtain ⟨body, header, _, hread, hparse, hgood, hlength, hproper', hbody⟩ :=
    read_header hproper hge hmagic
  have hshort : body.flatten.length < n := by
    rw [hbody, List.length_drop]
    omega
  have hrun : s.receive =
      some (.nothing, { s with connected := false, locked := false, input := [] }) := by
    rw [Receiver.receive, hfree, if_neg Bool.false_ne_true]
    simp only [hread, hparse, hgood, hlength, hn, ne_eq, not_true_eq_false, if_false,
      Stream.readAll_error hproper' hshort]
  exact releases_of_eq hrun (.inl rfl) rfl

/-- A complete message is decoded, and `decode` reads past it or not. -/
theorem releases_iff_decode (hlen : headerSize + n ≤ s.input.flatten.length) :
    s.Releases ↔ decode (s.input.flatten.take (headerSize + n)) ≠ .error .outOfRange := by
  obtain ⟨body, header, _, hread, hparse, hgood, hlength, hproper', hbody⟩ :=
    read_header hproper (Nat.le_trans (Nat.le_add_right _ n) hlen) hmagic
  have henough : n ≤ body.flatten.length := by
    rw [hbody, List.length_drop]
    omega
  obtain ⟨rest, hread', -⟩ := Stream.readAll_ok hproper' henough
  have hmessage : s.input.flatten.take headerSize ++ body.flatten.take n =
      s.input.flatten.take (headerSize + n) := by
    rw [hbody, ← List.take_add]
  have hrun := Receiver.receive.eq_def s
  rw [hfree, if_neg Bool.false_ne_true] at hrun
  simp only [hread, hparse, hgood, hlength, hn, ne_eq, not_true_eq_false, if_false, hread',
    hmessage] at hrun
  cases hdec : decode (s.input.flatten.take (headerSize + n)) with
  | ok res =>
    rw [hdec] at hrun
    exact iff_of_true (releases_of_eq hrun (.inr ⟨_, rfl⟩) rfl) (fun h => by cases h)
  | error e =>
    rw [hdec] at hrun
    cases e with
    | error e => exact iff_of_true (releases_of_eq hrun (.inl rfl) rfl) (fun h => by cases h)
    | outOfRange => exact iff_of_false (not_releases_of_eq hrun (.inr rfl)) fun h => h rfl

end

/-- The lock is released exactly on the streams on which a receive ends as it should. -/
theorem releases_iff {s : Receiver} (hfree : s.locked = false) (hproper : Stream.Proper s.input) :
    s.Releases ↔ Receivable s.input.flatten := by
  rw [Receivable]
  rcases Nat.lt_or_ge s.input.flatten.length headerSize with hlt | hge
  · exact iff_of_true (releases_of_short_header hfree hproper hlt) (.inl hlt)
  rw [or_iff_right (Nat.not_lt.2 hge)]
  by_cases hmagic : headerMagic s.input.flatten = magic
  case neg =>
    have hnot := not_releases_of_magic_ne hfree hproper hge hmagic
    exact iff_of_false hnot fun h => hmagic h.1
  rw [and_iff_right hmagic]
  dsimp only
  obtain ⟨n, hn⟩ : ∃ n, (headerLength s.input.flatten).toNat = n := ⟨_, rfl⟩
  rw [hn]
  rcases Nat.lt_or_ge s.input.flatten.length (headerSize + n) with hlt | hlen
  · exact iff_of_true (releases_of_short_body hfree hproper hmagic hn hge hlt) (.inl hlt)
  · rw [or_iff_right (Nat.not_lt.2 hlen), releases_iff_decode hfree hproper hmagic hn hlen, ne_eq,
      decode_fault_takes hmagic hn hlen]

/-- However the stream is cut, a receive on a connection whose lock is free returns with the lock
released, exactly if the stream is receivable. -/
theorem receive_releases_iff (stream : ByteBuffer) (link : Stream.Link UInt8) (connected : Bool) :
    Receiver.Releases { connected, input := link.arrive stream } ↔ Receivable stream := by
  rw [releases_iff rfl (link.proper_arrive stream), link.flatten_arrive]

/-- A header of zeros: `receive` ends by an exception, and the next one waits for ever. -/
theorem receive_keeps_lock :
    ¬ Receiver.Releases { input := [List.replicate headerSize 0] } ∧
      ∃ s, Receiver.receive { input := [List.replicate headerSize 0] } = some (.thrown, s) ∧
        s.receive = none := by
  have hrun : Receiver.receive { input := [List.replicate headerSize 0] } =
      some (.thrown, { locked := true, connected := true, input := [] }) := rfl
  exact ⟨not_releases_of_eq hrun (.inl rfl), _, hrun, rfl⟩

end Connection

end ElCache
