import ElCache.Protocol.RoundTrip

/-!
# The kinds of messages that are understood

`Codec::encode` has a case for fourteen kinds of messages and writes all others as an empty `Error`;
`Codec::decode` has a case for ten. So the messages about chunks and about availability do not come
through: `understood_iff` says which messages are decoded from their encoding.
-/

namespace ElCache

namespace Protocol

open Decoding Decoder

/-- `Codec::decode` has a case for the kind of the message, and `Codec::encode` writes that kind. -/
def Message.Understood : Message → Prop
  | .hello .. | .helloAck .. | .gossipPush .. | .get .. | .getResponse .. | .put ..
  | .putResponse .. | .delete .. | .deleteResponse .. | .error .. => True
  | _ => False

/-- A message whose kind `decode` does not know is refused. -/
theorem decode_of_unknown {m : Message} (timestamp : UInt64) (requestId : UInt32)
    (h : decodePayload m.type.code = Decoder.fail "Unknown message type") :
    decode (encode timestamp m requestId) = .error (.error "Unknown message type") := by
  rw [decode, encode, decodeMessage, bind_ok (parseHeader_append ..), h]
  rfl

/-- A message that is written as an empty `Error` is refused. -/
theorem decode_of_empty {m : Message} (timestamp : UInt64) (requestId : UInt32)
    (htype : m.type = .error) (hpayload : encodePayload m = []) :
    ∃ failure, decode (encode timestamp m requestId) = .error failure := by
  refine ⟨.error "Truncated u32", ?_⟩
  rw [decode, encode, decodeMessage, hpayload, htype, bind_ok (parseHeader_append ..)]
  rfl

/-- **The kinds that are understood.** A message is decoded from its encoding if and only if its
kind is one of the ten that `decode` has a case for; every other message is refused. -/
theorem understood_iff (m : Message) (hfits : m.Understood → m.Fits) (timestamp : UInt64)
    (requestId : UInt32) :
    ((∃ header, decode (encode timestamp m requestId) = .ok (m.onWire, header)) ↔ m.Understood) ∧
      (¬ m.Understood → ∃ failure, decode (encode timestamp m requestId) = .error failure) := by
  have hrefused : ¬ m.Understood → ∃ failure,
      decode (encode timestamp m requestId) = .error failure := by
    intro hnot
    cases m with
    | hello | helloAck | gossipPush | get | getResponse | put | putResponse
    | delete | deleteResponse | error => exact absurd trivial hnot
    | check | checkResponse | getChunk | getChunkResponse =>
      exact ⟨_, decode_of_unknown timestamp requestId rfl⟩
    | _ => exact decode_of_empty timestamp requestId rfl rfl
  refine ⟨⟨fun ⟨header, hok⟩ => ?_, fun h => ⟨_, decode_encode (hfits h) timestamp requestId⟩⟩,
    hrefused⟩
  by_contra hnot
  obtain ⟨failure, hfailure⟩ := hrefused hnot
  rw [hfailure] at hok
  cases hok

/-- A `Delete` is understood. -/
theorem understood_iff_delete :
    ∃ header, decode (encode 0 (.delete ⟨[97]⟩) 1) = .ok (.delete ⟨[97]⟩, header) :=
  (understood_iff (.delete ⟨[97]⟩) (fun _ => show 1 < 2 ^ 32 by omega) 0 1).1.2 trivial

/-- A request for a chunk and the order to store one are refused. -/
theorem chunk_messages_refused :
    decode (encode 0 (.getChunk ⟨⟨1, 2⟩⟩ 0 0) 1) = .error (.error "Unknown message type") ∧
      decode (encode 0 (.putChunk ⟨⟨1, 2⟩⟩ [7]) 1) = .error (.error "Truncated u32") := by
  decide

end Protocol

end ElCache
