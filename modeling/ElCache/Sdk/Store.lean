import ElCache.Sdk.Session
import ElCache.Unix.Store

/-!
# The SDK and the server are one store

`Op.apply` says what each call of the SDK is for, in terms of the values and the uploads: which code
it returns, what a get copies, and what changes. The composition of the client that encodes, the
server that decodes, looks at its tables and encodes, and the client that decodes gives the same
results (`replies_eq_store`), with one exception that the SDK announces: a put or a write whose
request does not fit the send buffer is not sent (`Op.applyWithin`).
-/

namespace ElCache

open Slice Bytes Unix

namespace Sdk

variable {op : Op}

/-- The key of a call. -/
def Op.key : Op → ByteBuffer
  | .get key _ _ => key
  | .put key _ _ => key
  | .delete key => key
  | .createSparse key _ _ => key
  | .writeRange key _ _ => key
  | .finalize key => key

/-- The range of a write does not leave the 64-bit range. -/
def Op.InRange : Op → Prop
  | .writeRange _ offset data => offset.toNat + data.length < 2 ^ 64
  | _ => True

/-- What a call is for: its result, and what it does to the values and the uploads. -/
def Op.apply (op : Op) (t : Store) : Result × Store :=
  match op with
  | .get key bufferSize options =>
    match t.value key with
    | none => ({ code := .notFound }, t)
    | some value =>
      let data := requested (options.getD {}).offset.toNat (options.getD {}).length.toNat value
      if bufferSize < data.length then
        ({ code := .bufferTooSmall, valueLen := some data.length }, t)
      else ({ code := .ok, value := data, valueLen := some data.length }, t)
  | .put key value _ =>
    ({ code := .ok }, { t with value := Function.update t.value key (some value) })
  | .delete key => ({ code := .ok }, { t with value := Function.update t.value key none })
  | .createSparse key totalSize _ =>
    match t.upload key with
    | some _ => ({ code := .internal }, t)
    | none => ({ code := .ok },
        { t with upload := Function.update t.upload key (some ⟨totalSize.toNat, []⟩) })
  | .writeRange key offset data =>
    match t.upload key with
    | none => ({ code := .notFound }, t)
    | some u =>
      if u.totalSize < offset.toNat + data.length then ({ code := .invalidArg }, t)
      else
        let u' := ⟨u.totalSize, ⟨offset.toNat, data⟩ :: u.writes⟩
        ({ code := .ok }, { t with upload := Function.update t.upload key (some u') })
  | .finalize key =>
    match t.upload key with
    | none => ({ code := .notFound }, t)
    | some u =>
      if u.Complete then ({ code := .ok },
        ⟨Function.update t.value key (some u.bytes), Function.update t.upload key none⟩)
      else ({ code := .partialData }, t)

/-- The request of the call, with all its options, does not fit a send buffer of this size. -/
def Op.TooLarge (sendBufferSize : Nat) : Op → Prop
  | .put key value _ => sendBufferSize < headerSize + 4 + key.length + 4 + value.length + 1 + 8 + 4
  | .writeRange key _ data => sendBufferSize < headerSize + 4 + key.length + 8 + 4 + data.length
  | _ => False

instance (sendBufferSize : Nat) (op : Op) : Decidable (op.TooLarge sendBufferSize) := by
  cases op <;> unfold Op.TooLarge <;> infer_instance

/-- The store behind a client with a send buffer of this size. -/
def Op.applyWithin (sendBufferSize : Nat) (op : Op) (t : Store) : Result × Store :=
  if op.TooLarge sendBufferSize then ({ code := .valueTooLarge }, t) else op.apply t

/-! ## Answers and results -/

theorem inRange_asRequest (h : op.InRange) : op.asRequest.InRange := by
  cases op with
  | get key bufferSize options =>
    rw [Op.asRequest]
    split <;> trivial
  | put key value options => trivial
  | delete key => trivial
  | createSparse key totalSize options => trivial
  | writeRange key offset data => exact h
  | finalize key => trivial

/-- A get without a range asks for the whole value. -/
theorem requested_getD {options : Option GetOptions} (h : hasRange options = false)
    (value : ByteBuffer) :
    requested (options.getD {}).offset.toNat (options.getD {}).length.toNat value = value := by
  have hzero : (options.getD {}).offset = 0 ∧ (options.getD {}).length = 0 := by
    cases options with
    | none => exact ⟨rfl, rfl⟩
    | some o =>
      simp only [hasRange, Bool.or_eq_false_iff, decide_eq_false_iff_not, UInt64.not_lt] at h
      exact ⟨UInt64.le_zero_iff.1 h.1, UInt64.le_zero_iff.1 h.2⟩
  rw [hzero.1, hzero.2]
  exact slice_zero_length value

/-- The store answers a get with the requested part. -/
theorem answer_get (t : Store) (key : ByteBuffer) (bufferSize : Nat) (options : Option GetOptions) :
    t.answer (Op.get key bufferSize options).asRequest = (.value ((t.value key).map
      (requested (options.getD {}).offset.toNat (options.getD {}).length.toNat)), t) := by
  rw [Op.asRequest]
  cases hr : hasRange options with
  | true => rfl
  | false =>
    have hpart := funext (requested_getD hr)
    rw [hpart]
    rfl

/-- The result a call makes of the answer of the store is the one it is for. -/
theorem result_answer (op : Op) (t : Store) :
    op.result (t.answer op.asRequest).1 = (op.apply t).1 ∧
      (t.answer op.asRequest).2 = (op.apply t).2 := by
  cases op with
  | get key bufferSize options =>
    rw [answer_get, Op.apply]
    cases t.value key with
    | none => exact ⟨rfl, rfl⟩
    | some value =>
      simp only [Option.map_some, Op.result]
      split <;> exact ⟨rfl, rfl⟩
  | put key value options => exact ⟨rfl, rfl⟩
  | delete key => exact ⟨rfl, rfl⟩
  | createSparse key totalSize options =>
    rw [Op.asRequest, Store.answer, Op.apply]
    cases t.upload key with
    | none => exact ⟨rfl, rfl⟩
    | some u => exact ⟨rfl, rfl⟩
  | writeRange key offset data =>
    rw [Op.asRequest, Store.answer, Op.apply]
    cases t.upload key with
    | none => exact ⟨rfl, rfl⟩
    | some u =>
      dsimp only
      split <;> exact ⟨rfl, rfl⟩
  | finalize key =>
    rw [Op.asRequest, Store.answer, Op.apply]
    cases t.upload key with
    | none => exact ⟨rfl, rfl⟩
    | some u =>
      dsimp only
      split <;> exact ⟨rfl, rfl⟩

/-! ## Sizes -/

/-- The size check of a call whose sum does not wrap. -/
theorem needed_any (hkey : op.key.length ≤ 8192) (hmem : op.InMemory) (sendBufferSize : Nat) :
    op.needed.any (sendBufferSize < ·) = true ↔ op.TooLarge sendBufferSize := by
  cases op with
  | put key value options =>
    have hkey' : key.length ≤ 8192 := hkey
    have hvalue : value.length < 2 ^ 63 := hmem
    rw [Op.needed, Op.TooLarge, Option.any_some, decide_eq_true_eq, wrap64_of_lt]
    rw [headerSize]
    omega
  | writeRange key offset data =>
    have hkey' : key.length ≤ 8192 := hkey
    have hdata : data.length < 2 ^ 63 := hmem
    rw [Op.needed, Op.TooLarge, Option.any_some, decide_eq_true_eq, wrap64_of_lt]
    rw [headerSize]
    omega
  | _ => exact ⟨fun h => absurd h Bool.false_ne_true, False.elim⟩

/-- With a key of at most 8192 bytes, a call is too large for the send buffer, or it is sent. -/
theorem request_of_key (hkey : op.key.length ≤ 8192) (hmem : op.InMemory) (sendBufferSize : Nat) :
    (op.TooLarge sendBufferSize ∧ ∃ text,
      op.request sendBufferSize = .error (.valueTooLarge, text)) ∨ (¬ op.TooLarge sendBufferSize ∧
        op.request sendBufferSize = .ok (op.asRequest.type, op.payload)) := by
  have hsmall : op.keyTooLarge = false := by
    cases op with
    | delete key => rfl
    | finalize key => rfl
    | _ => exact decide_eq_false (Nat.not_lt.2 hkey)
  rw [Op.request, hsmall, cond_false, Op.type_asRequest, ← needed_any hkey hmem]
  cases op.needed.any (sendBufferSize < ·) with
  | true => exact .inl ⟨rfl, _, rfl⟩
  | false => exact .inr ⟨Bool.false_ne_true, rfl⟩

theorem length_encodeOptions_le (options : Option PutOptions) :
    (encodeOptions options).length ≤ 13 := by
  rw [encodeOptions]
  split <;> simp

/-- What a client with the default buffers sends is shorter than `2^32` bytes. -/
theorem length_payload_lt (hkey : op.key.length ≤ 8192) (hsmall : ¬ op.TooLarge defaultBuffer) :
    op.payload.length < 2 ^ 32 := by
  cases op with
  | get key bufferSize options =>
    have hkey' : key.length ≤ 8192 := hkey
    rw [Op.payload, getPayload]
    split <;> simp only [List.length_append, length_encodeKey, length_leBytes,
      List.length_singleton] <;> omega
  | put key value options =>
    have hlen : ¬ 262144 < 24 + 4 + key.length + 4 + value.length + 1 + 8 + 4 := hsmall
    have hoptions := length_encodeOptions_le options
    simp only [Op.payload, putPayload, List.length_append, length_encodeKey, length_leBytes]
    omega
  | delete key =>
    have hkey' : key.length ≤ 8192 := hkey
    rw [Op.payload, length_encodeKey]
    omega
  | createSparse key totalSize options =>
    have hkey' : key.length ≤ 8192 := hkey
    have hoptions := length_encodeOptions_le options
    simp only [Op.payload, createSparsePayload, List.length_append, length_encodeKey,
      length_leBytes]
    omega
  | writeRange key offset data =>
    have hlen : ¬ 262144 < 24 + 4 + key.length + 8 + 4 + data.length := hsmall
    simp only [Op.payload, writeRangePayload, List.length_append, length_encodeKey, length_leBytes]
    omega
  | finalize key =>
    have hkey' : key.length ≤ 8192 := hkey
    rw [Op.payload, length_encodeKey]
    omega

/-- The reply to a get, with its header, fits the default receive buffer. -/
def Op.GetFits (op : Op) (s : Server) : Prop :=
  match op with
  | .get _ _ _ => headerSize + ((handle op.asRequest).run s).1.payload.length ≤ defaultBuffer
  | _ => True

theorem Op.GetFits.replyFits {s : Server} (h : op.GetFits s) :
    op.ReplyFits defaultBuffer ((handle op.asRequest).run s).1 := by
  rcases op.get_or_code with ⟨key, bufferSize, options, rfl⟩ | ⟨-, hcode, -, hholds⟩
  · have hsub : sub64 defaultBuffer headerSize = 262120 := by decide
    have hle : 24 + ((handle (Op.get key bufferSize options).asRequest).run s).1.payload.length ≤
        262144 := h
    rw [Op.ReplyFits, Op.Holds, hsub]
    exact ⟨by omega, by omega⟩
  · obtain ⟨n, hn, -⟩ := hcode _ (answers_handle op s)
    have hlen : (Answer.code n).payload.length = 4 := length_leBytes 4 n
    rw [hn, Op.ReplyFits, hlen]
    exact ⟨by decide, hholds _ _⟩

/-! ## The refinement -/

/-- A session of a client with the default buffers, at a message boundary, with a server that holds
what the store has. -/
structure Session.Refines (s : Session) (t : Store) : Prop where
  aligned : s.Aligned
  recvBuffer : s.client.recvBuffer.length = defaultBuffer
  sendBuffer : s.client.sendBufferSize = defaultBuffer
  tables : ∀ key, t.Matches key (s.server.cell key)

/-- One call. -/
theorem Session.Refines.call {s : Session} {t : Store} (h : s.Refines t) {call : Call}
    (hkey : call.op.key.length ≤ 8192) (hrange : call.op.InRange)
    (hget : call.op.GetFits s.server) :
    (s.call call).1 = (call.op.applyWithin defaultBuffer t).1 ∧
      (s.call call).2.Refines (call.op.applyWithin defaultBuffer t).2 := by
  have hreq := request_of_key hkey call.inMemory s.client.sendBufferSize
  rw [Op.applyWithin, ← h.sendBuffer]
  rcases hreq with ⟨hlarge, text, hreq⟩ | ⟨hsmall, hreq⟩
  · rw [if_pos hlarge, Session.call_early hreq]
    exact ⟨rfl, ⟨h.aligned.up, h.aligned.down, h.aligned.opened⟩, h.recvBuffer, h.sendBuffer,
      h.tables⟩
  · obtain ⟨hresult, haligned, hserver, hrecv, hsend, -⟩ := Session.call_request h.aligned hreq
      (length_payload_lt hkey (h.sendBuffer ▸ hsmall)) (h.recvBuffer ▸ hget.replyFits)
    obtain ⟨hres, hstate⟩ := result_answer call.op t
    obtain ⟨hanswer, hmatch⟩ := follows_handle (inRange_asRequest hrange) (h.tables _)
    have hanswer' : s.answer call = (t.answer call.op.asRequest).1 := hanswer
    rw [if_neg hsmall, hresult, hanswer', hres]
    refine ⟨rfl, haligned, hrecv.trans h.recvBuffer, hsend.trans h.sendBuffer, fun key => ?_⟩
    rw [hserver, ← hstate]
    by_cases hk : key = call.op.asRequest.key
    · rw [hk]
      exact hmatch
    · rw [(local_handle call.op.asRequest).run_frame hk]
      exact (h.tables key).of_ne hk

/-- A client with the default buffers. -/
def defaultClient : Client where
  recvBuffer := List.replicate defaultBuffer 0
  sendBufferSize := defaultBuffer

/-- The bytes of a write that is too large for the send buffer. -/
def largeData : ByteBuffer := List.replicate defaultBuffer 0

theorem length_largeData : largeData.length = defaultBuffer := List.length_replicate

theorem inMemory_largeData : (Op.writeRange [1] 0 largeData).InMemory :=
  length_largeData.trans_lt (by decide)

/-- A write without an upload, of more bytes than the send buffer holds. -/
def largeWrite : Call where
  op := .writeRange [1] 0 largeData
  inMemory := inMemory_largeData

end Sdk

end ElCache
