import ElCache.Sdk.Exchange

/-!
# The receive buffer of the SDK

After the send, a call stores the header of the reply at the start of the receive buffer, the
payload behind it, and reads its result there. `Op.accesses` lists these accesses in order, along
the same branches as `Op.receive`: what it stores is what `receive` leaves in the buffer, and it
marks an overrun if one of the stores lies behind the end (`client_receive`). If it loads only bytes
that it has received, the result does not depend on what the buffer held before
(`receive_of_ownReply`).

The sizes come from the peer. Only a get compares the length of the reply with the buffer, and no
call compares it with the fields it reads (`accesses_ownReply_iff`).
-/

namespace ElCache

open Slice Bytes Overlay

namespace Sdk

variable {bytes : ByteBuffer}

open Unix

/-! ## Accesses -/

/-- An access to the receive buffer: bytes that arrive are stored from a position on, or so many
bytes are read. -/
inductive Access where
  | recv (pos : Nat) (bytes : ByteBuffer)
  | load (pos n : Nat)
  deriving DecidableEq, Repr

namespace Access

/-- The access has stored a byte at the index. -/
def stores : Access → Nat → Prop
  | .recv pos bytes, i => pos ≤ i ∧ i < pos + bytes.length
  | .load _ _, _ => False

/-- The access stores inside a buffer of the size, and reads what earlier accesses have stored. -/
def Allowed (size : Nat) (past : List Access) : Access → Prop
  | .recv pos bytes => ∀ k < bytes.length, pos + k < size
  | .load pos n => ∀ k < n, ∃ a ∈ past, a.stores (pos + k)

/-- What the access does to the client. -/
def apply (c : Client) : Access → Client
  | .recv pos bytes => c.store pos bytes
  | .load _ _ => c

end Access

/-- Each access is allowed after those before it, which are given the latest first. -/
def OwnReply (size : Nat) (past : List Access) : List Access → Prop
  | [] => True
  | a :: rest => a.Allowed size past ∧ OwnReply size (a :: past) rest

/-- The earlier accesses have stored so many bytes, from the start of the buffer on. -/
def Got (past : List Access) (n : Nat) : Prop := ∀ i, (∃ a ∈ past, a.stores i) ↔ i < n

theorem got_nil : Got [] 0 := fun i => by simp

section
variable {size got : Nat} {past rest : List Access}

theorem Got.recv (h : Got past got) (bytes : ByteBuffer) :
    Got (.recv got bytes :: past) (got + bytes.length) := by
  intro i
  simp only [List.mem_cons, exists_eq_or_imp]
  rw [h i, Access.stores]
  omega

theorem got_take {n : Nat} (h : n ≤ bytes.length) : Got [.recv 0 (bytes.take n)] n := by
  have hrecv := got_nil.recv (bytes.take n)
  rwa [List.length_take_of_le h, Nat.zero_add] at hrecv

theorem Got.load (h : Got past got) (pos n : Nat) : Got (.load pos n :: past) got := by
  intro i
  simp only [List.mem_cons, exists_eq_or_imp]
  rw [h i, Access.stores, false_or]

/-- Storing behind the bytes received so far, which lie in the buffer. -/
theorem ownReply_recv (h : got ≤ size) (bytes : ByteBuffer) :
    OwnReply size past (.recv got bytes :: rest) ↔
      got + bytes.length ≤ size ∧ OwnReply size (.recv got bytes :: past) rest := by
  refine and_congr_left fun _ => ⟨fun hall => ?_, fun hle k hk => by omega⟩
  cases hlen : bytes.length with
  | zero => exact h
  | succ n =>
    have := hall n (by omega)
    omega

/-- Reading at least one byte. -/
theorem ownReply_load (h : Got past got) {pos n : Nat} (hn : 0 < n) :
    OwnReply size past (.load pos n :: rest) ↔
      pos + n ≤ got ∧ OwnReply size (.load pos n :: past) rest := by
  refine and_congr_left fun _ => ⟨fun hall => ?_, fun hle k hk => (h _).2 (by omega)⟩
  have := (h _).1 (hall (n - 1) (by omega))
  omega

/-- Reading any number of bytes, where reading none would be in range. -/
theorem ownReply_load_of_le (h : Got past got) {pos n : Nat} (hpos : pos ≤ got) :
    OwnReply size past (.load pos n :: rest) ↔
      pos + n ≤ got ∧ OwnReply size (.load pos n :: past) rest := by
  cases n with
  | zero =>
    exact and_congr_left fun _ => ⟨fun _ => hpos, fun _ k hk => absurd hk (Nat.not_lt_zero k)⟩
  | succ n => exact ownReply_load h (Nat.succ_pos n)

end

/-! ## The accesses of a call -/

/-- The bytes that `recv_all` stores: all it waits for, or those that have come. -/
def received (n : Nat) (input : List ByteBuffer) : ByteBuffer :=
  match Stream.readAll input n with
  | .ok (bytes, _) => bytes
  | .error bytes => bytes

/-- The reads at the end of `elcache_client_get`. -/
def parseGetAccesses (bufferSize : Nat) (resp : ByteBuffer) : List Access :=
  let result := leVal (slice resp 0 4)
  let pos := if (resp[4]?).getD 0 ≠ 0 then 25 else 5
  let dataLen := leVal (slice resp pos (pos + 4))
  .load headerSize 4 :: .load (headerSize + 4) 1 :: .load (headerSize + pos) 4 ::
    if result = 1 ∨ bufferSize < dataLen then [] else [.load (headerSize + (pos + 4)) dataLen]

/-- The reads at the end of the other calls. Delete ignores the code. -/
def Op.parseCodeAccesses : Op → List Access
  | .get _ _ _ => []
  | .delete _ => []
  | _ => [.load headerSize 4]

/-- The accesses of `receiveGet`. -/
def receiveGetAccesses (c : Client) (bufferSize : Nat) (input : List ByteBuffer) : List Access :=
  .recv 0 (received headerSize input) ::
    match c.recvAll 0 headerSize input with
    | .error _ => []
    | .ok (header, c, input) =>
      .load 0 4 ::
        if headerMagic header ≠ protoMagic then []
        else
          .load 6 2 :: .load 8 4 ::
            if headerType header ≠ RequestType.get.responseCode then []
            else if sub64 c.recvBuffer.length headerSize < headerLength header then []
            else
              .recv headerSize (received (headerLength header) input) ::
                match c.recvAll headerSize (headerLength header) input with
                | .error _ => []
                | .ok (payload, c, _) => parseGetAccesses bufferSize (c.response payload)

/-- The accesses of `receiveCode`. -/
def receiveCodeAccesses (op : Op) (c : Client) (input : List ByteBuffer) : List Access :=
  .recv 0 (received headerSize input) ::
    match c.recvAll 0 headerSize input with
    | .error _ => []
    | .ok (header, c, input) =>
      .load 8 4 :: .recv headerSize (received (headerLength header) input) ::
        match c.recvAll headerSize (headerLength header) input with
        | .error _ => []
        | .ok _ => op.parseCodeAccesses

/-- The accesses of a call to the receive buffer. -/
def Op.accesses (op : Op) (c : Client) (input : List ByteBuffer) : List Access :=
  match op with
  | .get _ bufferSize _ => receiveGetAccesses c bufferSize input
  | _ => receiveCodeAccesses op c input

/-! ## What the accesses stand for -/

theorem received_ok {n : Nat} {input rest : List ByteBuffer}
    (h : Stream.readAll input n = .ok (bytes, rest)) : received n input = bytes := by
  rw [received, h]

theorem received_error {n : Nat} {input : List ByteBuffer}
    (h : Stream.readAll input n = .error bytes) : received n input = bytes := by
  rw [received, h]

/-- `recv_all` takes what it waits for off the stream, or all of it. -/
theorem recvAll_cases (c : Client) (pos n : Nat) {input : List ByteBuffer}
    (hproper : Stream.Proper input) :
    (input.flatten.length < n ∧ received n input = input.flatten ∧
      c.recvAll pos n input =
        .error ((c.store pos input.flatten).setError "Receive failed")) ∨
    (n ≤ input.flatten.length ∧ received n input = input.flatten.take n ∧
      ∃ rest, rest.flatten = input.flatten.drop n ∧ Stream.Proper rest ∧
        c.recvAll pos n input =
          .ok (input.flatten.take n, c.store pos (input.flatten.take n), rest)) := by
  rcases Nat.lt_or_ge input.flatten.length n with hlt | hge
  · have hread := Stream.readAll_error hproper hlt
    exact .inl ⟨hlt, received_error hread, by rw [Client.recvAll, hread]⟩
  · obtain ⟨rest, hread, hrest, hproper'⟩ := Stream.readAll_ok hproper hge
    exact .inr ⟨hge, received_ok hread, rest, hrest, hproper', by rw [Client.recvAll, hread]⟩

/-- The clients differ in the last error only. -/
def Client.SameBuffers (c c' : Client) : Prop := { c with lastError := c'.lastError } = c'

/-- Setting an error leaves the buffers as they are. -/
theorem Client.sameBuffers_note (c : Client) (message : Option String) :
    c.SameBuffers (c.note message) := by
  cases message with
  | none => rfl
  | some text => rfl

/-- Loads leave the client as it is. -/
theorem foldl_parseGetAccesses (bufferSize : Nat) (resp : ByteBuffer) (c : Client) :
    (parseGetAccesses bufferSize resp).foldl Access.apply c = c := by
  rw [parseGetAccesses]
  split_ifs <;> rfl

theorem Op.parseCodeAccesses_cases (op : Op) :
    op.parseCodeAccesses = [] ∨ op.parseCodeAccesses = [.load headerSize 4] := by
  cases op with
  | get key bufferSize options => exact .inl rfl
  | delete key => exact .inl rfl
  | _ => exact .inr rfl

theorem Op.foldl_parseCodeAccesses (op : Op) (c : Client) :
    op.parseCodeAccesses.foldl Access.apply c = c := by
  rcases op.parseCodeAccesses_cases with h | h <;> rw [h] <;> rfl

/-- What a get leaves, case by case along its branches: only the stores count. -/
theorem client_receiveGet (c : Client) (bufferSize : Nat) (input : List ByteBuffer) :
    ((receiveGetAccesses c bufferSize input).foldl Access.apply c).SameBuffers
      (receiveGet c bufferSize input).2.1 := by
  rw [receiveGet, receiveGetAccesses, Client.recvAll]
  cases hread : Stream.readAll input headerSize with
  | error bytes =>
    rw [received_error hread]
    rfl
  | ok r =>
    obtain ⟨header, rest⟩ := r
    rw [received_ok hread]
    dsimp only
    split
    · rfl
    split
    · rfl
    split
    · rfl
    rw [Client.recvAll]
    cases hread' : Stream.readAll rest (headerLength header) with
    | error bytes =>
      rw [received_error hread']
      rfl
    | ok r =>
      obtain ⟨payload, rest'⟩ := r
      rw [received_ok hread']
      dsimp only
      simp only [List.foldl_cons, foldl_parseGetAccesses]
      exact Client.sameBuffers_note _ _

/-- What the other calls leave. -/
theorem client_receiveCode (op : Op) (c : Client) (input : List ByteBuffer) :
    ((receiveCodeAccesses op c input).foldl Access.apply c).SameBuffers
      (receiveCode op c input).2.1 := by
  rw [receiveCode, receiveCodeAccesses, Client.recvAll]
  cases hread : Stream.readAll input headerSize with
  | error bytes =>
    rw [received_error hread]
    rfl
  | ok r =>
    obtain ⟨header, rest⟩ := r
    rw [received_ok hread]
    dsimp only
    rw [Client.recvAll]
    cases hread' : Stream.readAll rest (headerLength header) with
    | error bytes =>
      rw [received_error hread']
      rfl
    | ok r =>
      obtain ⟨payload, rest'⟩ := r
      rw [received_ok hread']
      dsimp only
      simp only [List.foldl_cons, op.foldl_parseCodeAccesses]
      exact Client.sameBuffers_note _ _

/-- The client after a call is the client before with what the call has stored, and the mark of an
overrun if one of the stores lies behind the end. -/
theorem client_receive (op : Op) (c : Client) (input : List ByteBuffer) :
    ((op.accesses c input).foldl Access.apply c).SameBuffers (op.receive c input).2.1 := by
  cases op with
  | get key bufferSize options => exact client_receiveGet c bufferSize input
  | _ => exact client_receiveCode _ c input

/-! ## Replies that keep a call to its own -/

/-- The payload of the reply to a get has the fields that the get reads: the code, the flag, the
length of the data behind the metadata, if there are any, and the data, if they are copied. -/
def GetReplySound (bufferSize : Nat) (payload : ByteBuffer) : Prop :=
  let pos := if (payload[4]?).getD 0 ≠ 0 then 25 else 5
  let dataLen := leVal (slice payload pos (pos + 4))
  pos + 4 ≤ payload.length ∧
    (leVal (slice payload 0 4) = 1 ∨ bufferSize < dataLen ∨ pos + 4 + dataLen ≤ payload.length)

/-- When a call with a receive buffer of the size keeps to the buffer and to the reply, if the peer
sends these bytes and then nothing. A get returns before it looks at the payload if the reply is
incomplete, if it is not one to a get, or if it does not fit. The other calls store all of it, and
except for a delete they read a code once it is complete. -/
def Op.ReplySound (op : Op) (size : Nat) (reply : ByteBuffer) : Prop :=
  let n := headerSize + headerLength reply
  match op with
  | .get _ bufferSize _ =>
    reply.length < n ∨ headerMagic reply ≠ protoMagic ∨
      headerType reply ≠ RequestType.get.responseCode ∨ size < n ∨
      GetReplySound bufferSize (slice reply headerSize n)
  | .delete _ => min reply.length n ≤ size
  | _ => min reply.length n ≤ size ∧ (reply.length < n ∨ 4 ≤ headerLength reply)

instance decidableGetReplySound (bufferSize : Nat) (payload : ByteBuffer) :
    Decidable (GetReplySound bufferSize payload) :=
  inferInstanceAs (Decidable (_ ∧ _))

instance decidableReplySound (size : Nat) (reply : ByteBuffer) :
    (op : Op) → Decidable (op.ReplySound size reply)
  | .get _ _ _ => inferInstanceAs (Decidable (_ ∨ _))
  | .put _ _ _ => inferInstanceAs (Decidable (_ ∧ _))
  | .delete _ => inferInstanceAs (Decidable (_ ≤ _))
  | .createSparse _ _ _ => inferInstanceAs (Decidable (_ ∧ _))
  | .writeRange _ _ _ => inferInstanceAs (Decidable (_ ∧ _))
  | .finalize _ => inferInstanceAs (Decidable (_ ∧ _))

section
variable {payload stale : ByteBuffer} {bufferSize size : Nat} {past : List Access}

/-- The flag of a payload that has one. -/
theorem getElem?_four_append (h : 5 ≤ payload.length) :
    ((payload ++ stale)[4]?).getD 0 = (payload[4]?).getD 0 := by
  rw [List.getElem?_append_left (by omega)]

/-- The reads at the end of a get, when the payload has been received. -/
theorem ownReply_parseGet (hgot : Got past (headerSize + payload.length)) :
    OwnReply size past (parseGetAccesses bufferSize (payload ++ stale)) ↔
      GetReplySound bufferSize payload := by
  rw [parseGetAccesses, ownReply_load hgot (by decide), ownReply_load (hgot.load _ _) (by decide),
    ownReply_load ((hgot.load _ _).load _ _) (by decide)]
  rcases Nat.lt_or_ge payload.length 5 with hshort | hflag
  · -- the flag is not there
    refine ⟨fun h => absurd h.2.1 (by omega), fun h => ?_⟩
    have := h.1
    revert this
    split <;> omega
  rw [getElem?_four_append hflag, slice_append_of_le (by omega : 4 ≤ payload.length),
    GetReplySound]
  obtain ⟨pos, hpos⟩ : ∃ pos, (if (payload[4]?).getD 0 ≠ 0 then 25 else 5) = pos := ⟨_, rfl⟩
  simp only [hpos]
  rcases Nat.lt_or_ge payload.length (pos + 4) with hshort | hlen
  · refine ⟨fun h => absurd h.2.2.1 (by omega), fun h => absurd h.1 (by omega)⟩
  rw [slice_append_of_le hlen]
  obtain ⟨dataLen, hdata⟩ : ∃ n, leVal (slice payload pos (pos + 4)) = n := ⟨_, rfl⟩
  rw [hdata]
  split
  · next h =>
    refine ⟨fun _ => ⟨hlen, by tauto⟩, fun _ => ⟨by omega, by omega, by omega, trivial⟩⟩
  · next h =>
    rw [ownReply_load_of_le (((hgot.load _ _).load _ _).load _ _) (by omega)]
    refine ⟨fun hall => ⟨hlen, .inr (.inr (by omega))⟩, fun hall => ⟨by omega, by omega, by omega,
      by omega, trivial⟩⟩

end

/-! The fields of a header that is the start of a stream. -/

theorem headerMagic_take (reply : ByteBuffer) :
    headerMagic (reply.take headerSize) = headerMagic reply := by
  rw [headerMagic, slice_take_of_le (by decide), headerMagic]

theorem headerType_take (reply : ByteBuffer) :
    headerType (reply.take headerSize) = headerType reply := by
  rw [headerType, slice_take_of_le (by decide), headerType]

theorem headerLength_take (reply : ByteBuffer) :
    headerLength (reply.take headerSize) = headerLength reply := by
  rw [headerLength, slice_take_of_le (by decide), headerLength]

section
variable {c : Client} {input : List ByteBuffer}

/-- The header always fits. -/
theorem ownReply_header (hsize : headerSize ≤ c.recvBuffer.length)
    (hbytes : bytes.length ≤ headerSize) {rest : List Access} :
    OwnReply c.recvBuffer.length [] (.recv 0 bytes :: rest) ↔
      OwnReply c.recvBuffer.length [.recv 0 bytes] rest := by
  rw [ownReply_recv (Nat.zero_le _)]
  exact and_iff_right (by omega)

/-- By cases on where `elcache_get` stops: at a short header, at its magic number, at its type, at a
length that does not fit the buffer, at a short payload, or when it has parsed the payload. -/
theorem ownReply_receiveGet (hsize : headerSize ≤ c.recvBuffer.length)
    (hmax : c.recvBuffer.length < 2 ^ 64) (hproper : Stream.Proper input) (key : ByteBuffer)
    (bufferSize : Nat) (options : Option GetOptions) :
    OwnReply c.recvBuffer.length [] (receiveGetAccesses c bufferSize input) ↔
      (Op.get key bufferSize options).ReplySound c.recvBuffer.length input.flatten := by
  rw [receiveGetAccesses, Op.ReplySound]
  rcases recvAll_cases c 0 headerSize hproper with
    ⟨hlen, hrec, hread⟩ | ⟨hlen, hrec, body, hbody, hproper', hread⟩
  · rw [hrec, hread, ownReply_header hsize (Nat.le_of_lt hlen)]
    exact ⟨fun _ => .inl (by omega), fun _ => trivial⟩
  have htake : (input.flatten.take headerSize).length = headerSize :=
    List.length_take_of_le hlen
  have hgot : Got [.recv 0 (input.flatten.take headerSize)] headerSize := got_take hlen
  rw [hrec, hread, ownReply_header hsize (Nat.le_of_eq htake), ownReply_load hgot (by decide)]
  refine (and_iff_right (by decide)).trans ?_
  rw [headerMagic_take, headerType_take, headerLength_take]
  split
  · next hmagic => exact ⟨fun _ => .inr (.inl hmagic), fun _ => trivial⟩
  next hmagic =>
  rw [ownReply_load (hgot.load _ _) (by decide),
    ownReply_load ((hgot.load _ _).load _ _) (by decide)]
  refine (and_iff_right (by decide)).trans ((and_iff_right (by decide)).trans ?_)
  split
  · next htype => exact ⟨fun _ => .inr (.inr (.inl htype)), fun _ => trivial⟩
  next htype =>
  rw [(c.alike_store 0 _).recvBufferSize, sub64_of_le hsize hmax]
  split
  · next hlarge => exact ⟨fun _ => .inr (.inr (.inr (.inl (by omega)))), fun _ => trivial⟩
  next hlarge =>
  rcases recvAll_cases (c.store 0 (input.flatten.take headerSize)) headerSize
    (headerLength input.flatten) hproper' with
    ⟨hlen', hrec', hread'⟩ | ⟨hlen', hrec', rest, hrest, -, hread'⟩
  · rw [hrec', hread', ownReply_recv hsize]
    rw [hbody, List.length_drop] at hlen' ⊢
    exact ⟨fun _ => .inl (by omega), fun _ => ⟨by omega, trivial⟩⟩
  have hpayload : body.flatten.take (headerLength input.flatten) =
      slice input.flatten headerSize (headerSize + headerLength input.flatten) := by
    rw [hbody, take_drop_eq_slice]
  have hsliced : (slice input.flatten headerSize
      (headerSize + headerLength input.flatten)).length = headerLength input.flatten := by
    rw [← hpayload, List.length_take_of_le hlen']
  rw [hrec', hread', hpayload, ownReply_recv hsize, hsliced]
  rw [hbody, List.length_drop] at hlen'
  refine (and_iff_right (by omega)).trans ?_
  have hgot' := ((((hgot.load 0 4).load 6 2).load 8 4).recv
    (slice input.flatten headerSize (headerSize + headerLength input.flatten)))
  refine (ownReply_parseGet hgot').trans ⟨fun h => .inr (.inr (.inr (.inr h))), ?_⟩
  rintro (h | h | h | h | h)
  · omega
  · exact absurd h hmagic
  · exact absurd h htype
  · omega
  · exact h

/-- The other calls store what arrives, and read the code of a complete reply unless they ignore
it. -/
theorem ownReply_receiveCode (hsize : headerSize ≤ c.recvBuffer.length)
    (hproper : Stream.Proper input) (op : Op) :
    OwnReply c.recvBuffer.length [] (receiveCodeAccesses op c input) ↔
      min input.flatten.length (headerSize + headerLength input.flatten) ≤ c.recvBuffer.length ∧
        (input.flatten.length < headerSize + headerLength input.flatten ∨
          op.parseCodeAccesses = [] ∨ 4 ≤ headerLength input.flatten) := by
  rw [receiveCodeAccesses]
  rcases recvAll_cases c 0 headerSize hproper with
    ⟨hlen, hrec, hread⟩ | ⟨hlen, hrec, body, hbody, hproper', hread⟩
  · rw [hrec, hread, ownReply_header hsize (Nat.le_of_lt hlen)]
    exact ⟨fun _ => ⟨by omega, .inl (by omega)⟩, fun _ => trivial⟩
  have htake : (input.flatten.take headerSize).length = headerSize :=
    List.length_take_of_le hlen
  have hgot : Got [.recv 0 (input.flatten.take headerSize)] headerSize := got_take hlen
  rw [hrec, hread, ownReply_header hsize (Nat.le_of_eq htake), ownReply_load hgot (by decide)]
  refine (and_iff_right (by decide)).trans ?_
  rw [headerLength_take, ownReply_recv hsize]
  rcases recvAll_cases (c.store 0 (input.flatten.take headerSize)) headerSize
    (headerLength input.flatten) hproper' with
    ⟨hlen', hrec', hread'⟩ | ⟨hlen', hrec', rest, -, -, hread'⟩
  · rw [hrec', hread']
    rw [hbody, List.length_drop] at hlen' ⊢
    exact ⟨fun h => ⟨by omega, .inl (by omega)⟩, fun h => ⟨by omega, trivial⟩⟩
  have hpayload : (body.flatten.take (headerLength input.flatten)).length =
      headerLength input.flatten := List.length_take_of_le hlen'
  rw [hrec', hread', hpayload]
  rw [hbody, List.length_drop] at hlen'
  have hgot' := (hgot.load 8 4).recv (body.flatten.take (headerLength input.flatten))
  rw [hpayload] at hgot'
  refine and_congr (by omega) ?_
  rw [or_iff_right (by omega)]
  rcases op.parseCodeAccesses_cases with hnil | hload
  · rw [hnil]
    exact ⟨fun _ => .inl rfl, fun _ => trivial⟩
  · rw [hload, ownReply_load hgot' (by decide), or_iff_right (List.cons_ne_nil _ _)]
    exact ⟨fun h => by omega, fun h => ⟨by omega, trivial⟩⟩

theorem ownReply_accesses (hsize : headerSize ≤ c.recvBuffer.length)
    (hmax : c.recvBuffer.length < 2 ^ 64) (hproper : Stream.Proper input) (op : Op) :
    OwnReply c.recvBuffer.length [] (op.accesses c input) ↔
      op.ReplySound c.recvBuffer.length input.flatten := by
  have hcode := ownReply_receiveCode hsize hproper op
  cases op with
  | get key bufferSize options => exact ownReply_receiveGet hsize hmax hproper ..
  | delete key => exact hcode.trans (and_iff_left (.inr (.inl rfl)))
  | _ => exact hcode.trans (and_congr_right' (or_congr_right (or_iff_right (List.cons_ne_nil _ _))))

end

/-! ## What the buffer held before -/

section
variable {payload : ByteBuffer} {bufferSize : Nat}

/-- A get whose payload has all the fields it reads does not look behind it. -/
theorem parseGet_append (h : GetReplySound bufferSize payload) (stale : ByteBuffer) :
    parseGet bufferSize (payload ++ stale) = parseGet bufferSize payload := by
  have hlen := h.1
  have hflag : 5 ≤ payload.length := by
    revert hlen
    split <;> omega
  have hdata := h.2
  rw [parseGet, parseGet, getElem?_four_append hflag,
    slice_append_of_le (by omega : 4 ≤ payload.length)]
  obtain ⟨pos, hpos⟩ : ∃ pos, (if (payload[4]?).getD 0 ≠ 0 then 25 else 5) = pos := ⟨_, rfl⟩
  simp only [hpos] at hlen hdata ⊢
  rw [slice_append_of_le hlen]
  obtain ⟨n, hn⟩ : ∃ n, leVal (slice payload pos (pos + 4)) = n := ⟨_, rfl⟩
  rw [hn] at hdata ⊢
  split
  · rfl
  next hmiss =>
  split
  · rfl
  next hfits =>
  rw [slice_append_of_le (hdata.resolve_left hmiss |>.resolve_left hfits)]

variable {c c' : Client} {input : List ByteBuffer}

/-- What `elcache_get` returns then does not depend on what was in the buffer. -/
theorem receiveGet_of_sound (hsize : headerSize ≤ c.recvBuffer.length)
    (hmax : c.recvBuffer.length < 2 ^ 64) (halike : c'.recvBuffer.length = c.recvBuffer.length)
    (hproper : Stream.Proper input) {key : ByteBuffer} {options : Option GetOptions}
    (h : (Op.get key bufferSize options).ReplySound c.recvBuffer.length input.flatten) :
    (receiveGet c bufferSize input).1 = (receiveGet c' bufferSize input).1 := by
  rw [receiveGet, receiveGet, Client.recvAll, Client.recvAll]
  rcases Nat.lt_or_ge input.flatten.length headerSize with hlt | hge
  · rw [Stream.readAll_error hproper hlt]
  obtain ⟨body, hread, hbody, hproper'⟩ := Stream.readAll_ok hproper hge
  rw [hread]
  dsimp only
  rw [headerMagic_take, headerType_take, headerLength_take,
    (c.alike_store 0 _).recvBufferSize, (c'.alike_store 0 _).recvBufferSize, halike,
    sub64_of_le hsize hmax]
  split
  · rfl
  next hmagic =>
  split
  · rfl
  next htype =>
  split
  · rfl
  next hlarge =>
  rw [Client.recvAll, Client.recvAll]
  rcases Nat.lt_or_ge body.flatten.length (headerLength input.flatten) with hlt' | hge'
  · rw [Stream.readAll_error hproper' hlt']
  obtain ⟨rest, hread', -⟩ := Stream.readAll_ok hproper' hge'
  have hpayload : body.flatten.take (headerLength input.flatten) =
      slice input.flatten headerSize (headerSize + headerLength input.flatten) := by
    rw [hbody, take_drop_eq_slice]
  rw [hbody, List.length_drop] at hge'
  have hsound : GetReplySound bufferSize (body.flatten.take (headerLength input.flatten)) := by
    rw [hpayload]
    rcases h with h | h | h | h | h
    · omega
    · exact absurd h hmagic
    · exact absurd h htype
    · omega
    · exact h
  rw [hread']
  dsimp only [Client.response]
  rw [parseGet_append hsound, parseGet_append hsound]

/-- Nor does the code that the other calls return. -/
theorem receiveCode_of_sound {op : Op} (hproper : Stream.Proper input)
    (h : input.flatten.length < headerSize + headerLength input.flatten ∨
      (∀ n m, op.parseCode n = op.parseCode m) ∨ 4 ≤ headerLength input.flatten) :
    (receiveCode op c input).1 = (receiveCode op c' input).1 := by
  rw [receiveCode, receiveCode, Client.recvAll, Client.recvAll]
  rcases Nat.lt_or_ge input.flatten.length headerSize with hlt | hge
  · rw [Stream.readAll_error hproper hlt]
  obtain ⟨body, hread, hbody, hproper'⟩ := Stream.readAll_ok hproper hge
  rw [hread]
  dsimp only
  rw [headerLength_take, Client.recvAll, Client.recvAll]
  rcases Nat.lt_or_ge body.flatten.length (headerLength input.flatten) with hlt' | hge'
  · rw [Stream.readAll_error hproper' hlt']
  obtain ⟨rest, hread', -⟩ := Stream.readAll_ok hproper' hge'
  have hlen := List.length_take_of_le hge'
  rw [hread']
  dsimp only [Client.response]
  rw [hbody, List.length_drop] at hge'
  rcases h with h | h | h
  · omega
  · rw [h]
  · rw [slice_append_of_le (by omega), slice_append_of_le (by omega)]

/-- A call that reads only what it has received does not depend on what its buffer held before. -/
theorem receive_of_ownReply {op : Op} (hsize : headerSize ≤ c.recvBuffer.length)
    (hmax : c.recvBuffer.length < 2 ^ 64) (halike : c'.recvBuffer.length = c.recvBuffer.length)
    (hproper : Stream.Proper input)
    (h : OwnReply c.recvBuffer.length [] (op.accesses c input)) :
    (op.receive c input).1 = (op.receive c' input).1 := by
  rw [ownReply_accesses hsize hmax hproper] at h
  cases op with
  | get key bufferSize options => exact receiveGet_of_sound hsize hmax halike hproper h
  | delete key => exact receiveCode_of_sound hproper (.inr (.inl fun _ _ => rfl))
  | _ => exact receiveCode_of_sound hproper (h.2.imp_right .inr)

end

/-- For every reply, a call writes received bytes inside the receive buffer only and reads only what
it has received of the reply, exactly if the reply is sound for the call. -/
theorem accesses_ownReply_iff (op : Op) (c : Client) (hsize : headerSize ≤ c.recvBuffer.length)
    (hmax : c.recvBuffer.length < 2 ^ 64) (reply : ByteBuffer) (link : Stream.Link UInt8) :
    OwnReply c.recvBuffer.length [] (op.accesses c (link.arrive reply)) ↔
      op.ReplySound c.recvBuffer.length reply := by
  rw [ownReply_accesses hsize hmax (link.proper_arrive reply), link.flatten_arrive]

/-- A client with a receive buffer of 32 bytes. -/
def smallClient : Client := { recvBuffer := List.replicate 32 0, sendBufferSize := 64 }

/-- The reply to a put that has been stored fits. -/
theorem accesses_ownReply_put :
    OwnReply 32 [] ((Op.put [97] [7] none).accesses smallClient
      (Stream.Link.single.arrive (sendResponse 0 .put 1 (Answer.code 0).payload))) := by
  refine (accesses_ownReply_iff (.put [97] [7] none) smallClient (by decide) (by decide) _
    Stream.Link.single).2 ?_
  decide

/-- A header that announces 16 bytes and as many bytes as the reply to a put, and a header with an
empty payload as the reply to a get: the put writes behind the end of the buffer, and the get reads
a result that it has not received. -/
theorem accesses_not_ownReply :
    ¬ OwnReply 32 [] ((Op.put [97] [7] none).accesses smallClient
      [sendResponse 0 .put 1 (List.replicate 16 0)]) ∧
    ¬ OwnReply 32 [] ((Op.get [97] 8 none).accesses smallClient [sendResponse 0 .get 1 []]) := by
  have hproper : ∀ type payload, Stream.Proper [sendResponse 0 type 1 payload] := by
    intro type payload p hp
    rw [List.mem_singleton.1 hp]
    exact List.cons_ne_nil _ _
  have hput := ownReply_accesses (c := smallClient) (by decide) (by decide)
    (hproper .put (List.replicate 16 0)) (.put [97] [7] none)
  have hget := ownReply_accesses (c := smallClient) (by decide) (by decide) (hproper .get [])
    (.get [97] 8 none)
  refine ⟨fun h => absurd (hput.1 h) ?_, fun h => absurd (hget.1 h) ?_⟩ <;> decide

end Sdk

end ElCache
