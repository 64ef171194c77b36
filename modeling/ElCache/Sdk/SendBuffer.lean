import ElCache.Sdk.Exchange

/-!
# The send buffer of the SDK

A call of the SDK builds its request in place: it stores the fields of the payload one behind the
other from index `ELCACHE_HEADER_SIZE` on, and then the header in front of them. `Op.stores` lists
these stores; together they write the message, each of its bytes at its index (`stored_iff`). Only
put and write-range compare the size of the message with that of the buffer, and delete and finalize
do not even bound the length of the key, so the others stay inside the buffer only if the message
happens to fit (`stores_inside_iff`).
-/

namespace ElCache

open Bytes Overlay

namespace Sdk

open Unix

/-! ## Consecutive stores -/

/-- Fields stored one behind the other. -/
def storeFields (pos : Nat) : List ByteBuffer → List (Write UInt8)
  | [] => []
  | field :: rest => ⟨pos, field⟩ :: storeFields (pos + field.length) rest

/-- Together they store the fields from the first position on. -/
theorem exists_stored_storeFields {fields : List ByteBuffer} {pos i : Nat} {x : UInt8} :
    (∃ w ∈ storeFields pos fields, w.stored i = some x) ↔
      (⟨pos, fields.flatten⟩ : Write UInt8).stored i = some x := by
  induction fields generalizing pos with
  | nil => simp [storeFields, Write.stored]
  | cons field rest ih =>
    simp only [storeFields, List.mem_cons, exists_eq_or_imp, ih, List.flatten_cons,
      Write.stored_append]

/-! ## The requests -/

/-- The fields of the key. -/
def keyFields (key : ByteBuffer) : List ByteBuffer := [leBytes 4 key.length, key]

/-- The fields of the time to live and the flags. -/
def optionFields (options : Option PutOptions) : List ByteBuffer :=
  let ttl := (options.getD {}).ttlSeconds
  (if 0 < ttl then [[1], leBytes 8 ttl.toUInt64.toNat] else [[0]]) ++
    [leBytes 4 (options.getD {}).flags.toNat]

/-- The fields of the payload, in the order in which a call stores them. -/
def Op.fields : Op → List ByteBuffer
  | .get key _ options => keyFields key ++ [[0]] ++
    if hasRange options then
      [[1], leBytes 8 (options.getD {}).offset.toNat, leBytes 8 (options.getD {}).length.toNat]
    else [[0]]
  | .put key value options =>
    keyFields key ++ [leBytes 4 value.length, value] ++ optionFields options
  | .delete key => keyFields key
  | .createSparse key totalSize options =>
    keyFields key ++ [leBytes 8 totalSize.toNat] ++ optionFields options
  | .writeRange key offset data =>
    keyFields key ++ [leBytes 8 offset.toNat, leBytes 4 data.length, data]
  | .finalize key => keyFields key

/-- What a call stores in the send buffer. `valid` says that no pointer argument is null. -/
def Op.stores (valid connected : Bool) (sendBufferSize : Nat) (requestId : UInt32) (time : Nat)
    (op : Op) : List (Write UInt8) :=
  if !valid || op.keyTooLarge || !connected || op.needed.any (sendBufferSize < ·) then []
  else storeFields headerSize op.fields ++
    [⟨0, encodeHeader op.asRequest.type.code op.fields.flatten.length requestId.toNat time⟩]

/-- The fields make up the payload. -/
theorem Op.flatten_fields (op : Op) : op.fields.flatten = op.payload := by
  have hoptions : ∀ options, (optionFields options).flatten = encodeOptions options := by
    intro options
    rw [optionFields, encodeOptions]
    split <;> simp
  cases op with
  | get key bufferSize options =>
    rw [fields, payload, getPayload, encodeKey, keyFields]
    split <;> simp
  | put key value options =>
    simp only [fields, payload, putPayload, encodeKey, keyFields, List.flatten_append, hoptions]
    simp
  | delete key => simp [fields, payload, encodeKey, keyFields]
  | createSparse key totalSize options =>
    simp only [fields, payload, createSparsePayload, encodeKey, keyFields, List.flatten_append,
      hoptions]
    simp
  | writeRange key offset data =>
    simp [fields, payload, writeRangePayload, encodeKey, keyFields]
  | finalize key => simp [fields, payload, encodeKey, keyFields]

section
variable {op : Op} {valid connected : Bool} {size : Nat} {requestId : UInt32} {time : Nat}

/-- Unless the call returns before, its stores write the message, and nothing else. -/
theorem stored_iff (h : (!valid || op.keyTooLarge || !connected ||
      op.needed.any (size < ·)) = false) {i : Nat} {x : UInt8} :
    (∃ w ∈ op.stores valid connected size requestId time, w.stored i = some x) ↔
      (message time op.asRequest.type requestId op.payload)[i]? = some x := by
  rw [Op.stores, h, if_neg Bool.false_ne_true, message, ← op.flatten_fields]
  generalize hheader : encodeHeader op.asRequest.type.code op.fields.flatten.length
    requestId.toNat time = header
  have hsize : header.length = headerSize := hheader ▸ length_encodeHeader ..
  have happend : (⟨0, header ++ op.fields.flatten⟩ : Write UInt8).stored i = some x ↔ _ :=
    Write.stored_append
  rw [Nat.zero_add, hsize] at happend
  simp only [List.mem_append, List.mem_singleton, or_and_right, exists_or, exists_eq_left,
    exists_stored_storeFields]
  rw [or_comm, ← happend, Write.stored, if_pos (Nat.zero_le i), Nat.sub_zero]

/-- Every byte that is stored lies inside a buffer of the size. -/
def Inside (size : Nat) (ws : List (Write UInt8)) : Prop :=
  ∀ w ∈ ws, ∀ i x, w.stored i = some x → i < size

/-- A call stays inside the buffer if it returns before, or if the message fits. -/
theorem inside_stores_iff :
    Inside size (op.stores valid connected size requestId time) ↔
      valid = false ∨ op.keyTooLarge = true ∨ connected = false ∨
        op.needed.any (size < ·) = true ∨ headerSize + op.payload.length ≤ size := by
  cases h : (!valid || op.keyTooLarge || !connected || op.needed.any (size < ·)) with
  | true =>
    have hnil : op.stores valid connected size requestId time = [] := by
      rw [Op.stores, h, if_pos rfl]
    simp only [Bool.or_eq_true, Bool.not_eq_true'] at h
    rw [hnil]
    refine ⟨fun _ => ?_, fun _ w hw => by cases hw⟩
    tauto
  | false =>
    have hlen : (message time op.asRequest.type requestId op.payload).length =
        headerSize + op.payload.length := by
      rw [message, List.length_append, length_encodeHeader]
    have hstored : ∀ i x, (∃ w ∈ op.stores valid connected size requestId time,
        w.stored i = some x) ↔
          (message time op.asRequest.type requestId op.payload)[i]? = some x :=
      fun i x => stored_iff h
    have hinside : Inside size (op.stores valid connected size requestId time) ↔
        headerSize + op.payload.length ≤ size := by
      rw [← hlen]
      constructor
      · -- the last byte of the message is stored
        intro hin
        by_contra hlt
        obtain ⟨n, hn⟩ : ∃ n,
            (message time op.asRequest.type requestId op.payload).length = n + 1 :=
          ⟨headerSize + op.payload.length - 1, by rw [hlen, headerSize]; omega⟩
        have hlast := List.getElem?_eq_getElem (l := message time op.asRequest.type requestId
          op.payload) (i := n) (by omega)
        obtain ⟨w, hw, hx⟩ := (hstored _ _).2 hlast
        have := hin w hw _ _ hx
        omega
      · intro hle w hw i x hx
        have hi := (List.getElem?_eq_some_iff.1 ((hstored i x).1 ⟨w, hw, hx⟩)).1
        omega
    simp only [Bool.or_eq_false_iff, Bool.not_eq_false'] at h
    rw [hinside, h.2, h.1.2, h.1.1.2, h.1.1.1]
    simp

end

/-- The number of bytes for a time to live. -/
def ttlSize (options : Option PutOptions) : Nat := if 0 < (options.getD {}).ttlSeconds then 8 else 0

theorem length_encodeOptions (options : Option PutOptions) :
    (encodeOptions options).length = 1 + ttlSize options + 4 := by
  rw [encodeOptions, ttlSize]
  split <;> simp

/-- When a call on a connected client stays inside a send buffer of the size. A get, a create, a
delete and a finalize have to fit, where the first two do nothing for a key of more than 8192 bytes.
A put and a write are checked, unless the sum of the sizes wraps. -/
def Op.StaysInside (size : Nat) : Op → Prop
  | .get key _ options => 8192 < key.length ∨
    headerSize + 4 + key.length + 2 + (if hasRange options then 16 else 0) ≤ size
  | .put key value options => 8192 < key.length ∨
    headerSize + 4 + key.length + 4 + value.length + 1 + 8 + 4 < 2 ^ 64 ∨
    size < wrap64 (headerSize + 4 + key.length + 4 + value.length + 1 + 8 + 4) ∨
    headerSize + 4 + key.length + 4 + value.length + 1 + ttlSize options + 4 ≤ size
  | .delete key => headerSize + 4 + key.length ≤ size
  | .createSparse key _ options => 8192 < key.length ∨
    headerSize + 4 + key.length + 8 + 1 + ttlSize options + 4 ≤ size
  | .writeRange key _ data => 8192 < key.length ∨
    headerSize + 4 + key.length + 8 + 4 + data.length < 2 ^ 64 ∨
    size < wrap64 (headerSize + 4 + key.length + 8 + 4 + data.length) ∨
    headerSize + 4 + key.length + 8 + 4 + data.length ≤ size
  | .finalize key => headerSize + 4 + key.length ≤ size

/-- By cases on the call: what its checks leave of the length of the message. -/
theorem staysInside_iff (op : Op) (size : Nat) :
    (op.keyTooLarge = true ∨ op.needed.any (size < ·) = true ∨
      headerSize + op.payload.length ≤ size) ↔ op.StaysInside size := by
  -- a sum that does not wrap is what put and write-range compare
  have hwrap : ∀ n, wrap64 n = n ∨ 2 ^ 64 ≤ n := by
    intro n
    rcases Nat.lt_or_ge n (2 ^ 64) with h | h
    · exact .inl (wrap64_of_lt h)
    · exact .inr h
  cases op with
  | get key bufferSize options =>
    have hlen : (getPayload key options).length =
        4 + key.length + 2 + (if hasRange options then 16 else 0) := by
      rw [getPayload]
      split <;>
        simp only [List.length_append, length_encodeKey, length_leBytes, List.length_cons,
          List.length_nil]
    simp only [Op.keyTooLarge, Op.needed, Op.payload, Op.StaysInside, decide_eq_true_eq,
      Option.any_none, Bool.false_eq_true, false_or, hlen, Nat.add_assoc]
  | put key value options =>
    have httl : ttlSize options ≤ 8 := by
      rw [ttlSize]
      split <;> omega
    have hsum := hwrap (headerSize + 4 + key.length + 4 + value.length + 1 + 8 + 4)
    simp only [Op.keyTooLarge, Op.needed, Op.payload, Op.StaysInside, decide_eq_true_eq,
      Option.any_some, putPayload, List.length_append, length_encodeKey, length_leBytes,
      length_encodeOptions]
    generalize wrap64 (headerSize + 4 + key.length + 4 + value.length + 1 + 8 + 4) = w at *
    omega
  | delete key =>
    simp only [Op.keyTooLarge, Op.needed, Op.payload, Op.StaysInside, Option.any_none,
      Bool.false_eq_true, false_or, length_encodeKey, Nat.add_assoc]
  | createSparse key totalSize options =>
    simp only [Op.keyTooLarge, Op.needed, Op.payload, Op.StaysInside, decide_eq_true_eq,
      Option.any_none, Bool.false_eq_true, false_or, createSparsePayload, List.length_append,
      length_encodeKey, length_leBytes, length_encodeOptions, Nat.add_assoc]
  | writeRange key offset data =>
    have hsum := hwrap (headerSize + 4 + key.length + 8 + 4 + data.length)
    simp only [Op.keyTooLarge, Op.needed, Op.payload, Op.StaysInside, decide_eq_true_eq,
      Option.any_some, writeRangePayload, List.length_append, length_encodeKey, length_leBytes]
    generalize wrap64 (headerSize + 4 + key.length + 8 + 4 + data.length) = w at *
    omega
  | finalize key =>
    simp only [Op.keyTooLarge, Op.needed, Op.payload, Op.StaysInside, Option.any_none,
      Bool.false_eq_true, false_or, length_encodeKey, Nat.add_assoc]

/-- A call that sends its request marks an overrun of the send buffer unless it stays inside. The
model of the call has no stores of its own, only the length of the message, and this is the bound
that the stores keep (`inside_stores_iff`). -/
theorem overrun_built {op : Op} {c : Client} {r : RequestType × ByteBuffer}
    (hreq : op.request c.sendBufferSize = .ok r) :
    (c.built op.payload).overrun = false ↔
      c.overrun = false ∧ op.StaysInside c.sendBufferSize := by
  rw [← staysInside_iff, Client.built, Bool.or_eq_false_iff, decide_eq_false_iff_not, Nat.not_lt]
  refine and_congr_right fun _ => ?_
  rw [Op.request] at hreq
  cases hkey : op.keyTooLarge with
  | true =>
    rw [hkey] at hreq
    cases hreq
  | false =>
    cases hneeded : op.needed.any (c.sendBufferSize < ·) with
    | true =>
      rw [hkey, hneeded] at hreq
      cases hreq
    | false => simp

/-- Every byte a call writes while it builds its request lies inside the send buffer, exactly if the
call has a null argument, or there is no connection, or the call stays inside. -/
theorem stores_inside_iff (op : Op) (valid connected : Bool) (sendBufferSize : Nat)
    (requestId : UInt32) (time : Nat) :
    Inside sendBufferSize (op.stores valid connected sendBufferSize requestId time) ↔
      valid = false ∨ connected = false ∨ op.StaysInside sendBufferSize := by
  rw [inside_stores_iff, ← staysInside_iff]
  tauto

/-- A get on a client whose send buffer was set to 16 bytes, and a delete of a key as long as the
default buffer, both write behind the end. -/
theorem stores_behind_end :
    ¬ Inside 16 ((Op.get [97] 8 none).stores true true 16 1 0) ∧
    ¬ Inside defaultBuffer ((Op.delete (List.replicate defaultBuffer 97)).stores true true
      defaultBuffer 1 0) := by
  rw [inside_stores_iff, inside_stores_iff]
  refine ⟨by decide, ?_⟩
  rintro (h | h | h | h | h)
  · cases h
  · cases h
  · cases h
  · cases h
  · rw [Op.payload, length_encodeKey, List.length_replicate, headerSize] at h
    omega

end Sdk

end ElCache
