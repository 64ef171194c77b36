import ElCache.Types
import ElCache.Lib.Bytes

/-!
# Request payloads of the Unix-socket server

How the six handlers of `unix_server.cpp` take their arguments out of a payload. A payload is read
by index and not through a checked interface, so a read here returns a fault when it goes past the
end, where the C++ would read whatever lies behind the vector. The handlers for threads
(`handle_get_thread` and so on) contain the same code as the asynchronous ones, so that one
definition models both.

The length checks are made on 32-bit sums: `len < 4 + key_len + 2` compares with the sum modulo
`2^32`. `parse_in_range_iff` says which payloads this lets through to a read past the end.
-/

namespace ElCache

open Slice Bytes

/-- The value of a 32-bit unsigned computation. -/
def wrap32 (n : Nat) : Nat := n % 2 ^ 32

namespace Unix

/-- A read at or past the end of the payload. -/
inductive ReadFault where
  | outOfRange
  deriving DecidableEq, Repr

/-- `payload[i]`. -/
def readByte (payload : ByteBuffer) (i : Nat) : Except ReadFault UInt8 :=
  match payload[i]? with
  | some b => pure b
  | none => throw .outOfRange

/-- Copies the `n` bytes from position `pos` on. -/
def readSlice (payload : ByteBuffer) (pos n : Nat) : Except ReadFault ByteBuffer :=
  if n = 0 ∨ pos + n ≤ payload.length then pure (slice payload pos (pos + n))
  else throw .outOfRange

/-- `decode_u32`. -/
def decodeU32 (payload : ByteBuffer) (pos : Nat) : Except ReadFault Nat := do
  let bytes ← readSlice payload pos 4
  pure (leVal bytes)

/-- `decode_u64`. -/
def decodeU64 (payload : ByteBuffer) (pos : Nat) : Except ReadFault Nat := do
  let bytes ← readSlice payload pos 8
  pure (leVal bytes)

/-- What a handler takes out of its payload. -/
inductive Request where
  | get (key : ByteBuffer) (hasRange : Bool) (offset length : Nat)
  | put (key value : ByteBuffer)
  | delete (key : ByteBuffer)
  | createSparse (key : ByteBuffer) (totalSize : Nat)
  | writeRange (key : ByteBuffer) (offset : Nat) (data : ByteBuffer)
  | finalize (key : ByteBuffer)
  deriving DecidableEq, Repr

/-- How every handler starts: it returns if the payload is shorter than `least`, reads the length of
the key, returns if the payload is shorter than the key and `extra` bytes, by a sum in 32 bits, and
copies the key. The result is the key and the position after it, again a sum in 32 bits. -/
def parseKey (payload : ByteBuffer) (least extra : Nat) :
    Except ReadFault (Option (ByteBuffer × Nat)) :=
  if payload.length < least then pure none
  else do
    let keyLen ← decodeU32 payload 0
    if payload.length < wrap32 (4 + keyLen + extra) then pure none
    else do
      let key ← readSlice payload 4 keyLen
      pure (some (key, wrap32 (4 + keyLen)))

/-- The reads of `handle_get` after the key. The byte at `pos` is skipped. -/
def parseGetRest (payload key : ByteBuffer) (pos : Nat) : Except ReadFault (Option Request) := do
  let hasRange ← readByte payload (pos + 1)
  if hasRange ≠ 0 ∧ pos + 2 + 16 ≤ payload.length then do
    let offset ← decodeU64 payload (pos + 2)
    let length ← decodeU64 payload (pos + 10)
    pure (some (.get key true offset length))
  else pure (some (.get key (hasRange != 0) 0 0))

/-- The reads of `handle_put` after the key. -/
def parsePutRest (payload key : ByteBuffer) (pos : Nat) : Except ReadFault (Option Request) := do
  let valueLen ← decodeU32 payload pos
  if payload.length < pos + 4 + valueLen then pure none
  else do
    let value ← readSlice payload (pos + 4) valueLen
    pure (some (.put key value))

/-- The reads of `handle_create_sparse` after the key. -/
def parseCreateSparseRest (payload key : ByteBuffer) (pos : Nat) :
    Except ReadFault (Option Request) := do
  let totalSize ← decodeU64 payload pos
  pure (some (.createSparse key totalSize))

/-- The reads of `handle_write_range` after the key. -/
def parseWriteRangeRest (payload key : ByteBuffer) (pos : Nat) :
    Except ReadFault (Option Request) := do
  let offset ← decodeU64 payload pos
  let dataLen ← decodeU32 payload (pos + 8)
  if payload.length < pos + 12 + dataLen then pure none
  else do
    let data ← readSlice payload (pos + 12) dataLen
    pure (some (.writeRange key offset data))

/-- The request types the server handles. -/
inductive RequestType where
  | get | put | delete | createSparse | writeRange | finalize
  deriving DecidableEq, Repr

/-- The size below which a handler does not look at the payload. -/
def RequestType.least : RequestType → Nat
  | .put => 8
  | _ => 4

/-- The number of bytes a handler expects after the key. -/
def RequestType.extra : RequestType → Nat
  | .get => 2
  | .put => 4
  | .delete => 0
  | .createSparse => 8
  | .writeRange => 12
  | .finalize => 0

/-- The reads of a handler after the key. -/
def parseRest (type : RequestType) (payload key : ByteBuffer) (pos : Nat) :
    Except ReadFault (Option Request) :=
  match type with
  | .get => parseGetRest payload key pos
  | .put => parsePutRest payload key pos
  | .delete => pure (some (.delete key))
  | .createSparse => parseCreateSparseRest payload key pos
  | .writeRange => parseWriteRangeRest payload key pos
  | .finalize => pure (some (.finalize key))

/-- What a handler reads of its payload: the request it makes of it, nothing if it returns without
an answer, or a fault. -/
def parse (type : RequestType) (payload : ByteBuffer) : Except ReadFault (Option Request) := do
  let found ← parseKey payload type.least type.extra
  match found with
  | none => pure none
  | some (key, pos) => parseRest type payload key pos

/-! ## Which reads are in range -/

section
variable {payload : ByteBuffer} {pos n : Nat}

theorem readSlice_ok (h : n = 0 ∨ pos + n ≤ payload.length) :
    readSlice payload pos n = .ok (slice payload pos (pos + n)) := by
  rw [readSlice, if_pos h]
  rfl

theorem readSlice_fault (hn : n ≠ 0) (h : payload.length < pos + n) :
    readSlice payload pos n = .error .outOfRange := by
  rw [readSlice, if_neg]
  · rfl
  · rintro (h' | h')
    · exact hn h'
    · exact Nat.not_le.2 h h'

theorem decodeU32_ok (h : pos + 4 ≤ payload.length) :
    decodeU32 payload pos = .ok (leVal (slice payload pos (pos + 4))) := by
  rw [decodeU32, readSlice_ok (.inr h)]
  rfl

theorem decodeU32_fault (h : payload.length < pos + 4) :
    decodeU32 payload pos = .error .outOfRange := by
  rw [decodeU32, readSlice_fault (by decide) h]
  rfl

theorem decodeU64_ok (h : pos + 8 ≤ payload.length) :
    decodeU64 payload pos = .ok (leVal (slice payload pos (pos + 8))) := by
  rw [decodeU64, readSlice_ok (.inr h)]
  rfl

theorem decodeU64_fault (h : payload.length < pos + 8) :
    decodeU64 payload pos = .error .outOfRange := by
  rw [decodeU64, readSlice_fault (by decide) h]
  rfl

/-- When the bytes a handler expects after the key are there, its reads are in range: those of
variable length are checked by a sum in 64 bits. -/
theorem parseRest_ok (type : RequestType) (key : ByteBuffer)
    (h : pos + type.extra ≤ payload.length) : ∃ r, parseRest type payload key pos = .ok r := by
  cases type with
  | get =>
    have hlt : pos + 1 < payload.length := h
    simp only [parseRest, parseGetRest, readByte, List.getElem?_eq_getElem hlt]
    show ∃ r, (if payload[pos + 1] ≠ 0 ∧ pos + 2 + 16 ≤ payload.length then _ else _ :
      Except ReadFault (Option Request)) = .ok r
    split
    · next hrange =>
      rw [decodeU64_ok (by omega), decodeU64_ok (by omega)]
      exact ⟨_, rfl⟩
    · exact ⟨_, rfl⟩
  | put =>
    rw [parseRest, parsePutRest, decodeU32_ok h]
    show ∃ r, (if payload.length < pos + 4 + leVal (slice payload pos (pos + 4)) then _ else _ :
      Except ReadFault (Option Request)) = .ok r
    split
    · exact ⟨_, rfl⟩
    · next hlen =>
      rw [readSlice_ok (.inr (Nat.not_lt.1 hlen))]
      exact ⟨_, rfl⟩
  | delete => exact ⟨_, rfl⟩
  | createSparse =>
    rw [parseRest, parseCreateSparseRest, decodeU64_ok h]
    exact ⟨_, rfl⟩
  | writeRange =>
    have hle : pos + 12 ≤ payload.length := h
    rw [parseRest, parseWriteRangeRest, decodeU64_ok (by omega), decodeU32_ok (by omega)]
    show ∃ r, (if payload.length < pos + 12 + leVal (slice payload (pos + 8) (pos + 8 + 4)) then _
      else _ : Except ReadFault (Option Request)) = .ok r
    split
    · exact ⟨_, rfl⟩
    · next hlen =>
      rw [readSlice_ok (.inr (Nat.not_lt.1 hlen))]
      exact ⟨_, rfl⟩
  | finalize => exact ⟨_, rfl⟩

/-- When they are not all there, a read goes past the end. -/
theorem parseRest_fault (type : RequestType) (key : ByteBuffer) (hpos : pos ≤ payload.length)
    (h : payload.length < pos + type.extra) :
    parseRest type payload key pos = .error .outOfRange := by
  cases type with
  | get =>
    have hle : payload.length ≤ pos + 1 := Nat.le_of_lt_succ h
    rw [parseRest, parseGetRest, readByte, List.getElem?_eq_none hle]
    rfl
  | put =>
    rw [parseRest, parsePutRest, decodeU32_fault h]
    rfl
  | delete => exact absurd hpos (Nat.not_le.2 h)
  | createSparse =>
    rw [parseRest, parseCreateSparseRest, decodeU64_fault h]
    rfl
  | writeRange =>
    have hlt : payload.length < pos + 12 := h
    rw [parseRest, parseWriteRangeRest]
    rcases Nat.lt_or_ge payload.length (pos + 8) with hfault | hok
    · rw [decodeU64_fault hfault]
      rfl
    · rw [decodeU64_ok hok, decodeU32_fault (by omega)]
      rfl
  | finalize => exact absurd hpos (Nat.not_le.2 h)

end

/-- The length of the key as the payload gives it. -/
def keyLength (payload : ByteBuffer) : Nat := leVal (slice payload 0 4)

theorem keyLength_lt (payload : ByteBuffer) : keyLength payload < 2 ^ 32 := by
  have hlt := leVal_lt (slice payload 0 4)
  have hle : (slice payload 0 4).length ≤ 4 := by
    rw [length_slice]
    omega
  exact Nat.lt_of_lt_of_le hlt (Nat.pow_le_pow_right (by decide) hle)

/-- What a handler does with a payload that is long enough to have a key length. -/
theorem parse_of_least (type : RequestType) {payload : ByteBuffer}
    (hleast : type.least ≤ payload.length) : parse type payload =
      if payload.length < wrap32 (4 + keyLength payload + type.extra) then .ok none
      else readSlice payload 4 (keyLength payload) >>= fun key =>
        parseRest type payload key (wrap32 (4 + keyLength payload)) := by
  have hfour : 4 ≤ payload.length := by
    cases type with
    | put => exact Nat.le_trans (by decide) hleast
    | get => exact hleast
    | delete => exact hleast
    | createSparse => exact hleast
    | writeRange => exact hleast
    | finalize => exact hleast
  have hkey : decodeU32 payload 0 = .ok (keyLength payload) := decodeU32_ok hfour
  rw [parse, parseKey, if_neg (Nat.not_lt.2 hleast), hkey]
  show ((if payload.length < wrap32 (4 + keyLength payload + type.extra) then _ else _ :
    Except ReadFault (Option (ByteBuffer × Nat))) >>= _) = _
  split
  · rfl
  · cases readSlice payload 4 (keyLength payload) with
    | error e => rfl
    | ok key => rfl

/-- The reads of a handler are in range if and only if the payload is too short to be looked at, or
the sum of the lengths does not wrap, or the wrapped sum still exceeds the length of the
payload. -/
theorem parse_in_range_iff (type : RequestType) (payload : ByteBuffer)
    (hlen : payload.length < 2 ^ 32) : (∃ request, parse type payload = .ok request) ↔
      payload.length < type.least ∨ 4 + keyLength payload + type.extra < 2 ^ 32 ∨
        payload.length < wrap32 (4 + keyLength payload + type.extra) := by
  rcases Nat.lt_or_ge payload.length type.least with hshort | hleast
  · refine ⟨fun _ => .inl hshort, fun _ => ⟨none, ?_⟩⟩
    rw [parse, parseKey, if_pos hshort]
    rfl
  rw [parse_of_least type hleast]
  split
  · next hwrap => exact ⟨fun _ => .inr (.inr hwrap), fun _ => ⟨none, rfl⟩⟩
  · next hwrap =>
    constructor
    · rintro ⟨request, hok⟩
      refine .inr (.inl ?_)
      by_contra hge
      -- the sum has wrapped, so that it exceeds the length of every payload
      have hkey := keyLength_lt payload
      rcases Nat.lt_or_ge payload.length (4 + keyLength payload) with hfault | hle
      · have hextra : type.extra ≤ 12 := by
          cases type with
          | get => decide
          | put => decide
          | delete => decide
          | createSparse => decide
          | writeRange => decide
          | finalize => decide
        rw [readSlice_fault (by omega) hfault] at hok
        cases hok
      · have hpos : wrap32 (4 + keyLength payload) = 4 + keyLength payload :=
          Nat.mod_eq_of_lt (Nat.lt_of_le_of_lt hle hlen)
        rw [readSlice_ok (.inr hle), hpos] at hok
        have hfault := parseRest_fault type (slice payload 4 (4 + keyLength payload)) hle (by omega)
        cases hfault.symm.trans hok
    · rintro (hshort | hsum | hwrap')
      · exact absurd hleast (Nat.not_le.2 hshort)
      · rw [wrap32, Nat.mod_eq_of_lt hsum, Nat.not_lt] at hwrap
        have hpos : wrap32 (4 + keyLength payload) = 4 + keyLength payload :=
          Nat.mod_eq_of_lt (by omega)
        rw [readSlice_ok (.inr (by omega)), hpos]
        exact parseRest_ok type _ hwrap
      · exact absurd hwrap' hwrap

/-- A put of two bytes is read within its payload. -/
theorem parse_in_range_put :
    ∃ request, parse .put [1, 0, 0, 0, 42, 2, 0, 0, 0, 7, 8] = .ok request :=
  (parse_in_range_iff .put [1, 0, 0, 0, 42, 2, 0, 0, 0, 7, 8] (by decide)).2
  (.inr (.inl (by decide)))

/-- Four bytes that announce a key of almost `2^32` bytes are taken for a complete request, and the
key is copied from behind the payload. -/
theorem parse_out_of_range : parse .delete [0xFC, 0xFF, 0xFF, 0xFF] = .error .outOfRange := by
  decide

end Unix

end ElCache
