import ElCache.Cluster.Connection
import ElCache.Lib.Linear

/-!
# Concurrent calls on one connection

`remote_get`, `remote_put` and `remote_delete` send a request on the connection of the node and
receive a message. Sends exclude one another, and so do receives, but a call does not hold the
connection from its send to its receive, and messages carry no request id: whichever call is the
first to receive gets the answer to the request that was sent first.

`own_answers` says that every call uses the answer to its own request as long as no call sends or
receives while another one is between its send and its receive.
-/

namespace ElCache

namespace Connection

open Protocol

/-- A call of `remote_get`, `remote_put` or `remote_delete`. -/
inductive RemoteOp where
  | get (key : CacheKey) (range : Option Range)
  | put (key : CacheKey) (value : ByteBuffer) (ttl : Option Int64) (flags : UInt32)
  | delete (key : CacheKey)

/-- The message the call sends. -/
def RemoteOp.request : RemoteOp → Message
  | .get key range => .get key false range
  | .put key value ttl flags => .put key value ttl flags
  | .delete key => .delete key

/-- What a call returns: the fields of a read result, or a status, taken from a response; or,
without a response of its kind, a miss or the status "Invalid response". -/
inductive Outcome where
  | read (result : UInt32) (metadata : Option CacheMetadata) (data : ByteBuffer)
    (actualRange : Range)
  | status (code : UInt32) (message : ByteBuffer)
  | unanswered
  deriving DecidableEq

/-- What the call makes of what it has received. A code of 0 is `ErrorCode::Ok`. -/
def RemoteOp.outcome : RemoteOp → Received → Outcome
  | .get _ _, .message (.getResponse result metadata data actualRange) =>
    .read result metadata data actualRange
  | .put _ _ _ _, .message (.putResponse code message) =>
    if code ≠ 0 then .status code message else .status 0 []
  | .delete _, .message (.deleteResponse code _) =>
    if code ≠ 0 then .status code "Delete failed".toUTF8.toList else .status 0 []
  | _, _ => .unanswered

/-- A call, with the answer of the peer to it and the cuts of the stream it reads from. -/
structure RemoteCall where
  op : RemoteOp
  answer : Message
  kind : answer.Understood
  sized : answer.Sized
  short : (encodePayload answer).length < 2 ^ 32
  answeredAt : UInt64 := 0
  link : Stream.Link UInt8 := .single

/-- A connection: the requests the peer has got, in order of arrival, and the bytes of its answers
that have not been received. -/
structure Wire where
  requests : List Message := []
  inflight : ByteBuffer := []

/-- The call: it sends its request, and then receives. A receive waits for a message, so it does not
matter when the peer answers, only that it answers in the order of the requests. -/
def remoteCall (call : RemoteCall) : Prog Wire Outcome := do
  Prog.atomic fun s =>
    ((), { requests := s.requests ++ [call.op.request]
           inflight := s.inflight ++ encode call.answeredAt call.answer 0 })
  let response ← Prog.atomic fun s =>
    let r := receive (call.link.carry s.inflight)
    (r.1, { s with inflight := r.2.flatten })
  pure (call.op.outcome response)

/-- The result that the answer of the peer to the call stands for. -/
def RemoteCall.own (call : RemoteCall) : Outcome := call.op.outcome (.message call.answer.onWire)

/-- A call alone on the connection receives the answer to its request. -/
theorem run_remoteCall (call : RemoteCall) {s : Wire} (hs : s.inflight = []) :
    ((remoteCall call).run s).1 = call.own ∧ ((remoteCall call).run s).2.inflight = [] := by
  have hfits : call.answer.Fits := Message.fits_of_short call.kind call.sized call.short
  obtain ⟨rest, hrec, hrest, -⟩ := receive_encode hfits call.short call.answeredAt
    (call.link.proper_carry (encode call.answeredAt call.answer 0))
    (by rw [call.link.flatten_carry, List.append_nil])
  simp only [remoteCall, Prog.run_bind, Prog.run_atomic, Prog.run_pure, hs, List.nil_append, hrec,
    hrest]
  exact ⟨rfl, trivial⟩

variable {ι : Type*} [DecidableEq ι]

/-- A fresh connection with the calls that share it. -/
def connection (calls : ι → RemoteCall) : Pool ι Wire Outcome :=
  Pool.start {} fun i => remoteCall (calls i)

/-- Every call that has returned a result derived from a response has used the answer of the peer to
its own request. -/
def UsesOwnAnswer (calls : ι → RemoteCall) (sched : List ι) : Prop :=
  ∀ i ∈ sched, ∀ outcome, (((connection calls).schedule sched).threads i).prog = .ret outcome →
    outcome ≠ .unanswered → outcome = (calls i).own

/-- In every interleaving in which no call sends or receives while another one is between its send
and its receive, every call uses the answer to its own request. -/
theorem own_answers (calls : ι → RemoteCall) (sched : List ι)
    (hquiet : Pool.EveryTurn (Pool.Undisturbed fun _ => ()) (connection calls) sched) :
    UsesOwnAnswer calls sched := by
  have heffective : Pool.Effective (fun i => remoteCall (calls i)) (fun _ => ()) (fun _ s => s)
      (fun _ s _ => s.inflight = []) sched ((connection calls).schedule sched)
      (Pool.sequential (fun i _ => ((calls i).own, ())) () sched.dedup) :=
    Pool.effective_schedule (fun i => ⟨_, _, rfl⟩) (fun i => (remoteCall (calls i)).local_whole)
      (fun i s _ hs => run_remoteCall (calls i) hs) (fun _ _ _ _ _ hs => hs) (fun _ => rfl) hquiet
  intro i hi outcome hret _
  have hown : (Pool.sequential (fun i _ => ((calls i).own, ())) () sched.dedup).2 i =
      some (calls i).own :=
    Pool.sequential_of_const (f := fun i => (calls i).own) (fun _ _ => rfl) ()
      (List.mem_dedup.2 hi)
  rw [heffective.answered i hi, hret] at hown
  exact Option.some.inj hown

/-- Two gets of different keys, each with its own byte as the answer. -/
def twoGets (second : Bool) : RemoteCall where
  op := .get ⟨[if second then 2 else 1]⟩ none
  answer := .getResponse 0 none [if second then 8 else 7] ⟨0, 1⟩
  kind := trivial
  sized := ⟨nofun, by decide, by decide⟩
  short := by cases second <;> decide

/-- One get after the other. -/
theorem own_answers_inTurn : UsesOwnAnswer twoGets [true, true, false, false] := by
  refine own_answers twoGets _ ⟨⟨⟨⟨trivial, ?_⟩, ?_⟩, ?_⟩, ?_⟩
  · unfold Pool.Undisturbed
    decide
  · unfold Pool.Undisturbed
    decide
  · unfold Pool.Undisturbed
    decide
  · unfold Pool.Undisturbed
    decide

/-- Both requests are sent, and the second call is the first to receive: it returns the data of the
first key. -/
theorem not_own_answers_swapped : ¬ UsesOwnAnswer twoGets [true, true, false] := by
  intro hown
  have hswapped := hown true List.mem_cons_self (.read 0 none [7] ⟨0, 1⟩) rfl nofun
  revert hswapped
  decide

end Connection

end ElCache
