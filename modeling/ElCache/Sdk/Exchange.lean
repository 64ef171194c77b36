import ElCache.Sdk.Client

/-!
# A request and its reply

The formats of the C SDK and of the server agree: what a call sends is read by the handler as the
request the call stands for (`parse_payload`), and what the handler answers is read by the call as
the result the answer stands for (`receive_sendResponse`), however the stream is cut. The reply to a
get has to fit the receive buffer.
-/

namespace ElCache

open Slice Bytes Overlay

namespace Unix

/-! ## Reading at a known position -/

section
variable {u v : ByteBuffer} {a n : Nat}

theorem decodeU32_append (hu : u.length = a) (hn : n < 2 ^ 32) :
    decodeU32 (u ++ (leBytes 4 n ++ v)) a = .ok n := by
  rw [decodeU32_ok (by simp only [List.length_append, length_leBytes]; omega),
    leVal_slice_leBytes hu]
  exact congrArg _ (Nat.mod_eq_of_lt hn)

theorem decodeU64_append (hu : u.length = a) (hn : n < 2 ^ 64) :
    decodeU64 (u ++ (leBytes 8 n ++ v)) a = .ok n := by
  rw [decodeU64_ok (by simp only [List.length_append, length_leBytes]; omega),
    leVal_slice_leBytes hu]
  exact congrArg _ (Nat.mod_eq_of_lt hn)

theorem readSlice_append (hu : u.length = a) (d v : ByteBuffer) :
    readSlice (u ++ (d ++ v)) a d.length = .ok d := by
  have hslice := slice_append_right u (d ++ v) 0 d.length
  rw [hu, Nat.add_zero, slice_append_left] at hslice
  rw [readSlice_ok (.inr (by simp only [List.length_append]; omega)), hslice]

theorem readByte_append (hu : u.length = a) (b : UInt8) (v : ByteBuffer) :
    readByte (u ++ b :: v) a = .ok b := by
  rw [readByte, ← hu, List.getElem?_append_right (Nat.le_refl _), Nat.sub_self]
  rfl

end

end Unix

namespace Sdk

variable {key : ByteBuffer}

open Unix

/-! ## Requests -/

/-- The request a call stands for. -/
def Op.asRequest : Op → Request
  | .get key _ options =>
    if hasRange options then
      .get key true (options.getD {}).offset.toNat (options.getD {}).length.toNat
    else .get key false 0 0
  | .put key value _ => .put key value
  | .delete key => .delete key
  | .createSparse key totalSize _ => .createSparse key totalSize.toNat
  | .writeRange key offset data => .writeRange key offset.toNat data
  | .finalize key => .finalize key

/-- It has the type of the request that the call sends. -/
theorem Op.type_asRequest (op : Op) : op.asRequest.type = op.type := by
  cases op with
  | get key bufferSize options =>
    rw [asRequest]
    split <;> rfl
  | _ => rfl

@[simp] theorem length_encodeKey (key : ByteBuffer) : (encodeKey key).length = 4 + key.length := by
  simp [encodeKey]

theorem keyLength_encodeKey (h : key.length < 2 ^ 32) (rest : ByteBuffer) :
    keyLength (encodeKey key ++ rest) = key.length := by
  rw [keyLength, encodeKey, List.append_assoc, ← List.nil_append (leBytes 4 key.length ++ _),
    leVal_slice_leBytes (u := []) (a := 0) rfl]
  exact Nat.mod_eq_of_lt h

/-- A handler reads the key that a call has sent, and goes on behind it. -/
theorem parse_encodeKey {type : RequestType} {rest : ByteBuffer}
    (hlen : 4 + key.length + rest.length < 2 ^ 32) (hextra : type.extra ≤ rest.length) :
    parse type (encodeKey key ++ rest) =
      parseRest type (encodeKey key ++ rest) key (4 + key.length) := by
  have hkey : keyLength (encodeKey key ++ rest) = key.length :=
    keyLength_encodeKey (by omega) rest
  have hsum : wrap32 (4 + key.length + type.extra) = 4 + key.length + type.extra :=
    Nat.mod_eq_of_lt (by omega)
  have hpos : wrap32 (4 + key.length) = 4 + key.length := Nat.mod_eq_of_lt (by omega)
  have hread : readSlice (encodeKey key ++ rest) 4 key.length = .ok key := by
    rw [encodeKey, List.append_assoc]
    exact readSlice_append (length_leBytes 4 _) key rest
  have hleast : type.least ≤ (encodeKey key ++ rest).length := by
    rw [List.length_append, length_encodeKey]
    cases type with
    | put =>
      have hfour : 4 ≤ rest.length := hextra
      show 8 ≤ _
      omega
    | get => show 4 ≤ _; omega
    | delete => show 4 ≤ _; omega
    | createSparse => show 4 ≤ _; omega
    | writeRange => show 4 ≤ _; omega
    | finalize => show 4 ≤ _; omega
  rw [parse_of_least type hleast, hkey, hsum, hpos, hread,
    if_neg (by rw [List.length_append, length_encodeKey]; omega)]
  rfl

/-- The handler of a get reads what the call has sent. -/
theorem parse_getPayload {options : Option GetOptions}
    (hlen : (getPayload key options).length < 2 ^ 32) (bufferSize : Nat) :
    parse .get (getPayload key options) = .ok (some (Op.get key bufferSize options).asRequest) := by
  rw [getPayload, List.append_assoc] at hlen ⊢
  rw [Op.asRequest]
  cases hr : hasRange options with
  | false =>
    simp only [hr, Bool.false_eq_true, if_false, List.length_append, length_encodeKey] at hlen ⊢
    rw [parse_encodeKey (by simpa using hlen) (by decide), parseRest, parseGetRest,
      ← List.append_assoc, readByte_append (by simp)]
    rfl
  | true =>
    obtain ⟨o, ho⟩ : ∃ o, (options.getD {}).offset.toNat = o := ⟨_, rfl⟩
    obtain ⟨l, hl⟩ : ∃ l, (options.getD {}).length.toNat = l := ⟨_, rfl⟩
    have ho' : o < 2 ^ 64 := ho ▸ UInt64.toNat_lt _
    have hl' : l < 2 ^ 64 := hl ▸ UInt64.toNat_lt _
    simp only [hr, if_true, ho, hl, List.cons_append, List.nil_append] at hlen ⊢
    rw [List.length_append, length_encodeKey] at hlen
    rw [parse_encodeKey hlen (Nat.le_add_left 2 _), parseRest, parseGetRest]
    have hbyte : readByte (encodeKey key ++ 0 :: 1 :: (leBytes 8 o ++ leBytes 8 l))
        (4 + key.length + 1) = .ok 1 := by
      rw [List.append_cons]
      exact readByte_append (by simp) 1 _
    have hoffset : decodeU64 (encodeKey key ++ 0 :: 1 :: (leBytes 8 o ++ leBytes 8 l))
        (4 + key.length + 2) = .ok o := by
      rw [List.append_cons, List.append_cons]
      exact decodeU64_append (by simp) ho'
    have hlength : decodeU64 (encodeKey key ++ 0 :: 1 :: (leBytes 8 o ++ leBytes 8 l))
        (4 + key.length + 10) = .ok l := by
      rw [List.append_cons, List.append_cons, ← List.append_assoc, ← List.append_nil (leBytes 8 l)]
      exact decodeU64_append (by simp) hl'
    rw [hbyte]
    show (if _ then _ else _ : Except ReadFault (Option Request)) = _
    rw [if_pos ⟨by decide, by simp⟩, hoffset, hlength]
    rfl

/-- The handler of a put reads what the call has sent. -/
theorem parse_putPayload {value : ByteBuffer} {options : Option PutOptions}
    (hlen : (putPayload key value options).length < 2 ^ 32) :
    parse .put (putPayload key value options) = .ok (some (.put key value)) := by
  rw [putPayload, List.append_assoc, List.append_assoc] at hlen ⊢
  simp only [List.length_append, length_encodeKey, length_leBytes] at hlen
  rw [parse_encodeKey (by simp only [List.length_append, length_leBytes]; omega)
    (by simp [RequestType.extra]), parseRest, parsePutRest,
    decodeU32_append (length_encodeKey key) (by omega)]
  show (if _ then _ else _ : Except ReadFault (Option Request)) = _
  rw [if_neg (by simp only [List.length_append, length_encodeKey, length_leBytes]; omega),
    ← List.append_assoc, readSlice_append (by simp)]
  rfl

/-- The handler of a create reads what the call has sent. -/
theorem parse_createSparsePayload {totalSize : UInt64} {options : Option PutOptions}
    (hlen : (createSparsePayload key totalSize options).length < 2 ^ 32) :
    parse .createSparse (createSparsePayload key totalSize options) =
      .ok (some (.createSparse key totalSize.toNat)) := by
  rw [createSparsePayload, List.append_assoc] at hlen ⊢
  simp only [List.length_append, length_encodeKey, length_leBytes] at hlen
  rw [parse_encodeKey (by simp only [List.length_append, length_leBytes]; omega)
    (by simp [RequestType.extra]), parseRest, parseCreateSparseRest,
    decodeU64_append (length_encodeKey key) (UInt64.toNat_lt _)]
  rfl

/-- The handler of a write reads what the call has sent. -/
theorem parse_writeRangePayload {data : ByteBuffer} {offset : UInt64}
    (hlen : (writeRangePayload key offset data).length < 2 ^ 32) :
    parse .writeRange (writeRangePayload key offset data) =
      .ok (some (.writeRange key offset.toNat data)) := by
  rw [writeRangePayload, List.append_assoc, List.append_assoc] at hlen ⊢
  simp only [List.length_append, length_encodeKey, length_leBytes] at hlen
  have hdata : readSlice
      (encodeKey key ++ (leBytes 8 offset.toNat ++ (leBytes 4 data.length ++ data)))
      (4 + key.length + 12) data.length = .ok data := by
    simpa using readSlice_append (u := encodeKey key ++ leBytes 8 offset.toNat ++
      leBytes 4 data.length) (a := 4 + key.length + 12) (by simp) data []
  have hlength : decodeU32 (encodeKey key ++ (leBytes 8 offset.toNat ++
      (leBytes 4 data.length ++ data))) (4 + key.length + 8) = .ok data.length := by
    rw [← List.append_assoc]
    exact decodeU32_append (by simp) (by omega)
  rw [parse_encodeKey (by simp only [List.length_append, length_leBytes]; omega)
    (by simp only [RequestType.extra, List.length_append, length_leBytes]; omega), parseRest,
    parseWriteRangeRest,
    decodeU64_append (length_encodeKey key) (UInt64.toNat_lt _), hlength]
  show (if _ then _ else _ : Except ReadFault (Option Request)) = _
  rw [if_neg (by simp only [List.length_append, length_encodeKey, length_leBytes]; omega), hdata]
  rfl

/-- A payload that is a key and nothing else is read as such. -/
theorem parse_key {type : RequestType} (hextra : type.extra = 0)
    (hlen : (encodeKey key).length < 2 ^ 32) :
    parse type (encodeKey key) = parseRest type (encodeKey key) key (4 + key.length) := by
  rw [← List.append_nil (encodeKey key)] at hlen ⊢
  rw [List.length_append, length_encodeKey] at hlen
  exact parse_encodeKey hlen (hextra ▸ Nat.le_refl 0)

/-- A call returns early because the key or the value is too large, or it sends its request. -/
theorem Op.request_cases (op : Op) (sendBufferSize : Nat) :
    (∃ e, op.request sendBufferSize = .error e ∧ (e.1 = .keyTooLarge ∨ e.1 = .valueTooLarge)) ∨
      op.request sendBufferSize = .ok (op.asRequest.type, op.payload) := by
  rw [Op.request, type_asRequest]
  cases op.keyTooLarge with
  | true => exact .inl ⟨_, rfl, .inl rfl⟩
  | false =>
    cases op.needed.any (sendBufferSize < ·) with
    | true => exact .inl ⟨_, rfl, .inr rfl⟩
    | false => exact .inr rfl

/-- The handler reads what the call has sent. -/
theorem parse_payload {op : Op} (hlen : op.payload.length < 2 ^ 32) :
    parse op.asRequest.type op.payload = .ok (some op.asRequest) := by
  cases op with
  | get key bufferSize options =>
    rw [Op.type_asRequest]
    exact parse_getPayload hlen bufferSize
  | put key value options => exact parse_putPayload hlen
  | delete key => exact parse_key rfl hlen
  | createSparse key totalSize options => exact parse_createSparsePayload hlen
  | writeRange key offset data => exact parse_writeRangePayload hlen
  | finalize key => exact parse_key rfl hlen

/-! ## Replies -/

/-- The answer is one to the call: data for a get, a code for the others. -/
def Op.Answers : Op → Answer → Prop
  | .get _ _ _, .value _ => True
  | .get _ _ _, .code _ => False
  | _, .value _ => False
  | _, .code n => n < 2 ^ 32

/-- The result a call makes of an answer. -/
def Op.result : Op → Answer → Result
  | .get _ _ _, .value none => { code := .notFound }
  | .get _ bufferSize _, .value (some data) =>
    if bufferSize < data.length then { code := .bufferTooSmall, valueLen := some data.length }
    else { code := .ok, value := data, valueLen := some data.length }
  | op, .value _ => { code := (op.parseCode 0).1 }
  | op, .code n => { code := (op.parseCode n).1 }

/-- No answer stands for an error of the connection. -/
theorem Op.result_ne_connection (op : Op) (answer : Answer) :
    (op.result answer).code ≠ .connection := by
  have hcode : ∀ n, (op.parseCode n).1 ≠ .connection := by
    intro n
    cases op with
    | get key bufferSize options => exact nofun
    | put key value options => rw [Op.parseCode]; split <;> exact nofun
    | delete key => exact nofun
    | createSparse key totalSize options => rw [Op.parseCode]; split <;> exact nofun
    | writeRange key offset data => rw [Op.parseCode]; split_ifs <;> exact nofun
    | finalize key => rw [Op.parseCode]; split_ifs <;> exact nofun
  cases answer with
  | code n => cases op <;> exact hcode n
  | value found =>
    cases op with
    | get key bufferSize options =>
      cases found with
      | none => exact nofun
      | some data =>
        rw [Op.result]
        split <;> exact nofun
    | put key value options => exact hcode 0
    | delete key => exact hcode 0
    | createSparse key totalSize options => exact hcode 0
    | writeRange key offset data => exact hcode 0
    | finalize key => exact hcode 0

/-- The receive buffer holds a payload of this size. A get checks it, and the others do not. -/
def Op.Holds (op : Op) (recvBufferSize n : Nat) : Prop :=
  match op with
  | .get _ _ _ => n ≤ sub64 recvBufferSize headerSize
  | _ => True

/-- The reply fits: its length is not cut, and a get can receive it. -/
def Op.ReplyFits (op : Op) (recvBufferSize : Nat) (answer : Answer) : Prop :=
  answer.payload.length < 2 ^ 32 ∧ op.Holds recvBufferSize answer.payload.length

/-- A get has a receive of its own. The other calls share one, and their answers are codes. -/
theorem Op.get_or_code (op : Op) : (∃ key bufferSize options, op = .get key bufferSize options) ∨
    (op.receive = receiveCode op ∧
      (∀ answer, op.Answers answer → ∃ n, answer = .code n ∧ n < 2 ^ 32) ∧
      (∀ n, op.result (.code n) = { code := (op.parseCode n).1 }) ∧
      ∀ recvBufferSize n, op.Holds recvBufferSize n) := by
  cases op with
  | get key bufferSize options => exact .inl ⟨key, bufferSize, options, rfl⟩
  | _ =>
    refine .inr ⟨rfl, fun answer hans => ?_, fun _ => rfl, fun _ _ => trivial⟩
    cases answer with
    | code n => exact ⟨n, rfl, hans⟩
    | value found => exact hans.elim

theorem length_payload_value (found : Option ByteBuffer) :
    (Answer.value found).payload.length = 9 + (found.getD []).length := by
  simp only [Answer.payload, List.length_append, length_leBytes, List.length_singleton]

section
variable {found : Option ByteBuffer} {bufferSize : Nat}

/-- What a get reads in the reply of the server, whatever lies behind it in the receive buffer. -/
theorem parseGet_payload (h : (found.getD []).length < 2 ^ 32) (stale : ByteBuffer)
    (key : ByteBuffer) (options : Option GetOptions) :
    (parseGet bufferSize ((Answer.value found).payload ++ stale)).1 =
      (Op.get key bufferSize options).result (.value found) := by
  obtain ⟨data, hdata⟩ : ∃ data, found.getD [] = data := ⟨_, rfl⟩
  obtain ⟨r, hr⟩ : ∃ r, (if found.isSome then 0 else 1 : Nat) = r := ⟨_, rfl⟩
  have hresp : (Answer.value found).payload ++ stale =
      leBytes 4 r ++ ([0] ++ (leBytes 4 data.length ++ (data ++ stale))) := by
    simp only [Answer.payload, hdata, hr, List.append_assoc]
  have hresult : leVal (slice ((Answer.value found).payload ++ stale) 0 4) = r := by
    rw [hresp, ← List.nil_append (leBytes 4 r ++ _), leVal_slice_leBytes (u := []) (a := 0) rfl]
    exact Nat.mod_eq_of_lt (by rw [← hr]; split <;> decide)
  have hmeta : (((Answer.value found).payload ++ stale)[4]?).getD 0 = 0 := by
    rw [hresp, List.getElem?_append_right (by simp), length_leBytes]
    rfl
  have hlen : leVal (slice ((Answer.value found).payload ++ stale) 5 (5 + 4)) = data.length := by
    rw [hresp, ← List.append_assoc, leVal_slice_leBytes (by simp)]
    exact Nat.mod_eq_of_lt (hdata ▸ h)
  have hslice : slice ((Answer.value found).payload ++ stale) 9 (9 + data.length) = data := by
    have hs := slice_append_right (leBytes 4 r ++ [0] ++ leBytes 4 data.length) (data ++ stale) 0
      data.length
    rw [slice_append_left] at hs
    simpa [hresp] using hs
  simp only [parseGet, hresult, hmeta, ne_eq, not_true_eq_false, if_false, hlen, hslice]
  cases found with
  | none =>
    cases hr
    rfl
  | some d =>
    cases hr
    cases hdata
    rw [Op.result]
    simp only [Option.isSome_some, if_true, Nat.zero_ne_one, if_false, Option.getD_some]
    split <;> rfl

end

/-- The clients differ in what they have received and in the last error only. -/
structure Client.Alike (c c' : Client) : Prop where
  recvBufferSize : c'.recvBuffer.length = c.recvBuffer.length
  sendBufferSize : c'.sendBufferSize = c.sendBufferSize
  nextRequestId : c'.nextRequestId = c.nextRequestId

namespace Client

variable {c c' c'' : Client}

theorem Alike.trans (h : c.Alike c') (h' : c'.Alike c'') : c.Alike c'' :=
  ⟨h'.recvBufferSize.trans h.recvBufferSize, h'.sendBufferSize.trans h.sendBufferSize,
    h'.nextRequestId.trans h.nextRequestId⟩

theorem alike_store (c : Client) (pos : Nat) (bytes : ByteBuffer) : c.Alike (c.store pos bytes) :=
  ⟨length_overwrite .., rfl, rfl⟩

/-- Bytes that end inside the receive buffer do not overrun it. -/
theorem overrun_store {pos : Nat} {bytes : ByteBuffer}
    (h : pos + bytes.length ≤ c.recvBuffer.length) : (c.store pos bytes).overrun = c.overrun := by
  rw [store, decide_eq_false (Nat.not_lt.2 h), Bool.and_false, Bool.or_false]

theorem alike_note (c : Client) (message : Option String) : c.Alike (c.note message) := by
  cases message with
  | none => exact ⟨rfl, rfl, rfl⟩
  | some text => exact ⟨rfl, rfl, rfl⟩

@[simp] theorem overrun_note (c : Client) (message : Option String) :
    (c.note message).overrun = c.overrun := by
  cases message with
  | none => rfl
  | some text => rfl

/-- Receiving what the stream starts with. -/
theorem recvAll_append (c : Client) (pos : Nat) {input : List ByteBuffer}
    (hproper : Stream.Proper input) {u v : ByteBuffer} (hflat : input.flatten = u ++ v) :
    ∃ rest, c.recvAll pos u.length input = .ok (u, c.store pos u, rest) ∧ rest.flatten = v ∧
      Stream.Proper rest := by
  obtain ⟨rest, hread, hrest, hproper'⟩ := Stream.readAll_append hproper hflat
  refine ⟨rest, ?_, hrest, hproper'⟩
  rw [recvAll, hread]

end Client

section
variable {c : Client} {type : RequestType} {payload more : ByteBuffer} {time requestId : Nat}
  {input : List ByteBuffer}

/-- A call that finds a reply at the start of the stream gets the header, and then the payload. If
the receive buffer holds both, the call does not overrun it. -/
theorem recvAll_reply (c : Client) (hproper : Stream.Proper input)
    (hinput : input.flatten = sendResponse time type requestId payload ++ more) :
    ∃ c₁ body rest, c.recvAll 0 headerSize input =
        .ok (encodeHeader type.responseCode payload.length requestId time, c₁, body) ∧
      c₁.recvAll headerSize payload.length body = .ok (payload, c₁.store headerSize payload, rest) ∧
      c.Alike c₁ ∧ rest.flatten = more ∧ Stream.Proper rest ∧
      (headerSize + payload.length ≤ c.recvBuffer.length →
        (c₁.store headerSize payload).overrun = c.overrun) := by
  obtain ⟨header, hheader⟩ : ∃ header, encodeHeader type.responseCode payload.length requestId
    time = header := ⟨_, rfl⟩
  have hsize : header.length = headerSize := hheader ▸ length_encodeHeader ..
  rw [sendResponse, List.append_assoc, hheader] at hinput
  obtain ⟨body, hread, hbody, hproper'⟩ := c.recvAll_append 0 hproper hinput
  obtain ⟨rest, hread', hrest, hproper''⟩ :=
    (c.store 0 header).recvAll_append headerSize hproper' hbody
  have halike := c.alike_store 0 header
  rw [hsize] at hread
  refine ⟨c.store 0 header, body, rest, hheader ▸ hread, hread', halike, hrest, hproper'',
    fun hfits => ?_⟩
  rw [Client.overrun_store (by rw [halike.recvBufferSize]; exact hfits),
    Client.overrun_store (by omega)]

/-- A get reads exactly its reply. -/
theorem receiveGet_reply (found : Option ByteBuffer) (key : ByteBuffer) (bufferSize : Nat)
    (options : Option GetOptions) (hshort : (Answer.value found).payload.length < 2 ^ 32)
    (hholds : (Answer.value found).payload.length ≤ sub64 c.recvBuffer.length headerSize)
    (hproper : Stream.Proper input) (hinput : input.flatten =
      sendResponse time .get requestId (Answer.value found).payload ++ more) :
    ∃ c' rest, receiveGet c bufferSize input =
        ((Op.get key bufferSize options).result (.value found), c', rest) ∧ c.Alike c' ∧
      rest.flatten = more ∧ Stream.Proper rest ∧
      (headerSize + (Answer.value found).payload.length ≤ c.recvBuffer.length →
        c'.overrun = c.overrun) := by
  obtain ⟨c₁, body, rest, hread, hread', halike, hrest, hproper', hinside⟩ :=
    recvAll_reply c hproper hinput
  have hsmall : ¬ sub64 c₁.recvBuffer.length headerSize < (Answer.value found).payload.length := by
    rw [halike.recvBufferSize]
    exact Nat.not_lt.2 hholds
  have hdata : (found.getD []).length < 2 ^ 32 := by
    rw [length_payload_value] at hshort
    omega
  obtain ⟨r, hr⟩ : ∃ r, parseGet bufferSize ((c₁.store headerSize (Answer.value
    found).payload).response (Answer.value found).payload) = r := ⟨_, rfl⟩
  have hget : r.1 = (Op.get key bufferSize options).result (.value found) := by
    rw [← hr]
    exact parseGet_payload hdata _ key options
  refine ⟨_, rest, ?_, (halike.trans (c₁.alike_store headerSize
    (Answer.value found).payload)).trans (Client.alike_note _ r.2), hrest, hproper',
    fun hsize => (Client.overrun_note _ r.2).trans (hinside hsize)⟩
  simp only [receiveGet, hread, headerMagic_encodeHeader, ne_eq, not_true_eq_false, if_false,
    headerType_encodeHeader RequestType.get.responseCode_lt, headerLength_encodeHeader,
    Nat.mod_eq_of_lt hshort, if_neg hsmall, hread', hr, hget]

/-- The other calls read exactly their replies. -/
theorem receiveCode_reply (op : Op) {n : Nat} (hn : n < 2 ^ 32) (hproper : Stream.Proper input)
    (hinput : input.flatten = sendResponse time type requestId (Answer.code n).payload ++ more) :
    ∃ c' rest, receiveCode op c input = ({ code := (op.parseCode n).1 }, c', rest) ∧ c.Alike c' ∧
      rest.flatten = more ∧ Stream.Proper rest ∧
      (headerSize + (Answer.code n).payload.length ≤ c.recvBuffer.length →
        c'.overrun = c.overrun) := by
  obtain ⟨c₁, body, rest, hread, hread', halike, hrest, hproper', hinside⟩ :=
    recvAll_reply c hproper hinput
  have hlen : (Answer.code n).payload.length % 2 ^ 32 = (Answer.code n).payload.length := by
    rw [Answer.payload, length_leBytes]
    decide
  have hval : leVal (slice ((c₁.store headerSize (Answer.code n).payload).response
      (Answer.code n).payload) 0 4) = n := by
    rw [Client.response, Answer.payload, ← List.nil_append (leBytes 4 n ++ _),
      leVal_slice_leBytes (u := []) (a := 0) rfl]
    exact Nat.mod_eq_of_lt hn
  refine ⟨_, rest, ?_, (halike.trans (c₁.alike_store headerSize (Answer.code n).payload)).trans
    (Client.alike_note _ (op.parseCode n).2), hrest, hproper',
    fun hsize => (Client.overrun_note _ (op.parseCode n).2).trans (hinside hsize)⟩
  simp only [receiveCode, hread, headerLength_encodeHeader, hlen, hread', hval]

end

/-- A call reads exactly the reply to it, with the result the answer stands for, however the stream
that starts with the reply is cut. If the receive buffer holds the reply, the call does not overrun
it. -/
theorem receive_sendResponse {op : Op} {answer : Answer} (hans : op.Answers answer) (c : Client)
    (hfits : op.ReplyFits c.recvBuffer.length answer) {time requestId : Nat} {more : ByteBuffer}
    {input : List ByteBuffer} (hproper : Stream.Proper input)
    (hinput : input.flatten =
      sendResponse time op.asRequest.type requestId answer.payload ++ more) :
    ∃ c' rest, op.receive c input = (op.result answer, c', rest) ∧ c.Alike c' ∧
      rest.flatten = more ∧ Stream.Proper rest ∧
      (headerSize + answer.payload.length ≤ c.recvBuffer.length → c'.overrun = c.overrun) := by
  rcases op.get_or_code with ⟨key, bufferSize, options, rfl⟩ | ⟨hrec, hcode, hresult, -⟩
  · cases answer with
    | code n => exact hans.elim
    | value found =>
      rw [Op.type_asRequest] at hinput
      exact receiveGet_reply found key bufferSize options hfits.1 hfits.2 hproper hinput
  · obtain ⟨n, rfl, hn⟩ := hcode answer hans
    rw [hrec, hresult]
    exact receiveCode_reply op hn hproper hinput

end Sdk

end ElCache
