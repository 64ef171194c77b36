import ElCache.Availability
import ElCache.Cluster.Frames
import ElCache.Cluster.Gossip
import ElCache.Cluster.Remote

/-!
# The nodes of a cluster and their connections

`cluster.cpp` as a whole: every node runs coroutines that open and accept connections, shake hands,
serve a connection, call a peer and push gossip. A `Fleet` is any number of such nodes, with the
TCP connections between them, what is under way on each and what each coroutine is doing.

What a coroutine does with what it reads is a function (`Coroutine.sent`, `Coroutine.received`);
when it goes on, how much of a write gets through, who answers a connect and which targets a round
picks is left open (`Fleet.Step`), so that a run is any interleaving of the coroutines of all nodes.

A step reaches from one point where the source suspends or waits for a lock to the next. Coarser are
only these: a send writes the message in one step (the sends on a connection exclude one another)
and takes the record in a `Hello` or a `HelloAck` as it is by then; a connection is accepted when it
is opened (the coroutine that serves it begins with a receive, which may return at any later time);
and the records of one message are taken over in one step. `nodes_mutex_`, which `Cluster::stop`
holds while it closes connections, is not modelled: there are only more runs without it.

A null chunk is not passed to `remote_put_chunk`, and the parsing of the seed addresses is left out:
a seed is any node.
-/

namespace ElCache

open Protocol Connection

/-! ## Calls of a peer -/

/-- A call of one of the functions `Cluster::remote_get` to `Cluster::remote_has_chunks`. -/
inductive PeerCall where
  | get (key : CacheKey) (range : Option Range)
  | put (key : CacheKey) (value : ByteBuffer) (ttl : Option Int64) (flags : UInt32)
  | delete (key : CacheKey)
  | check (key : CacheKey) (range : Option Range)
  | getChunk (id : ChunkId)
  | putChunk (id : ChunkId) (data : ByteBuffer)
  | hasChunks (ids : List ChunkId)
  deriving DecidableEq

/-- The message that the call sends. -/
def PeerCall.request : PeerCall → Message
  | .get key range => .get key false range
  | .put key value ttl flags => .put key value ttl flags
  | .delete key => .delete key
  | .check key range => .check key range
  | .getChunk id => .getChunk id 0 0
  | .putChunk id data => .putChunk id data
  | .hasChunks ids => .hasChunk ids

/-- How the exchange of a call ends: no connection; the request is not sent; or with what `receive`
returns. -/
inductive Ending where
  | unconnected
  | unsent
  | received (response : Option Message)
  deriving DecidableEq

/-- The `CacheResult` of a number. Other numbers are neither a hit nor a partial hit. -/
def CacheResult.ofCode : UInt32 → CacheResult
  | 0 => .hit
  | 1 => .miss
  | 2 => .partialHit
  | 4 => .expired
  | 5 => .notFound
  | _ => .error

/-- The `ErrorCode` of a number. Other numbers are not `Ok` either. -/
def ErrorCode.ofCode : UInt32 → ErrorCode
  | 0 => .ok
  | 1 => .keyTooLarge
  | 2 => .valueTooLarge
  | 3 => .notFound
  | 4 => .partialData
  | 5 => .networkError
  | 6 => .diskError
  | 7 => .timeout
  | 8 => .invalidArgument
  | 9 => .outOfMemory
  | _ => .internalError

namespace Ending

/-- What the calls that return a status make of it, for the code and the text of a response of their
kind. -/
def status (answer : Message → Option (UInt32 × String)) : Ending → Status
  | .unconnected => .error .networkError "Failed to connect"
  | .unsent => .error .networkError "Failed to send message"
  | .received response =>
    match response.bind answer with
    | none => .error .networkError "Invalid response"
    | some (code, text) => if code ≠ 0 then .error (.ofCode code) text else .makeOk

/-- What `Cluster::remote_get` returns. -/
def remoteGet : Ending → ReadResult
  | .received (some (.getResponse result metadata data actualRange)) =>
    { result := .ofCode result, metadata, data, actualRange }
  | _ => { result := .miss }

/-- What `Cluster::remote_put` returns. -/
def remotePut : Ending → Status :=
  status fun
    | .putResponse code message =>
      some (code, String.ofList (message.map fun b => Char.ofNat b.toNat))
    | _ => none

/-- What `Cluster::remote_delete` returns. -/
def remoteDelete : Ending → Status :=
  status fun
    | .deleteResponse code _ => some (code, "Delete failed")
    | _ => none

/-- What `Cluster::remote_check` returns. -/
def remoteCheck : Ending → AvailabilityResult
  | .received (some (.checkResponse present metadata availableRanges)) =>
    { exists_ := present, metadata, availableRanges }
  | _ => { exists_ := false }

/-- What `Cluster::remote_get_chunk` returns. -/
def remoteGetChunk : Ending → Option Chunk
  | .received (some (.getChunkResponse found data)) =>
    if !found || data.isEmpty then none else some ⟨data⟩
  | _ => none

/-- What `Cluster::remote_put_chunk` returns. -/
def remotePutChunk : Ending → Status :=
  status fun
    | .putChunkResponse code => some (code, "PutChunk failed")
    | _ => none

/-- What `Cluster::remote_has_chunks` returns. -/
def remoteHasChunks (ids : List ChunkId) : Ending → List Bool
  | .received (some (.hasChunkResponse present)) =>
    if present.length = ids.length then present else List.replicate ids.length false
  | _ => List.replicate ids.length false

/-- The exchange of a call that has sent its request ends with what its receive returns. -/
def ofReceived : Connection.Received → Ending
  | .message m => .received (some m)
  | _ => .received none

end Ending

/-! ## The calls on one connection

The calls that share a connection are the first three of these: they send the same messages
(`request_peerCall`) and what they return is made from the same outcome (`remoteGet_ofReceived`,
`remotePut_ofReceived`, `remoteDelete_ofReceived`). -/

namespace Connection

/-- The call of a peer that a call on a connection is. -/
def RemoteOp.peerCall : RemoteOp → PeerCall
  | .get key range => .get key range
  | .put key value ttl flags => .put key value ttl flags
  | .delete key => .delete key

theorem RemoteOp.request_peerCall (op : RemoteOp) : op.peerCall.request = op.request := by
  cases op <;> rfl

namespace Outcome

/-- The read result with the fields of the outcome. -/
def readResult : Outcome → ReadResult
  | .read result metadata data actualRange =>
    { result := .ofCode result, metadata, data, actualRange }
  | _ => { result := .miss }

/-- The status with the code and the text of the outcome. -/
def toStatus : Outcome → Status
  | .status code message =>
    if code ≠ 0 then
      .error (.ofCode code) (String.ofList (message.map fun b => Char.ofNat b.toNat))
    else .makeOk
  | _ => .error .networkError "Invalid response"

end Outcome

/-- `remote_get` returns the fields of the outcome. -/
theorem remoteGet_ofReceived (key : CacheKey) (range : Option Range) (r : Received) :
    (Ending.ofReceived r).remoteGet = ((RemoteOp.get key range).outcome r).readResult := by
  cases r with
  | message m => cases m <;> rfl
  | _ => rfl

/-- `remote_put` returns the status of the outcome. -/
theorem remotePut_ofReceived (key : CacheKey) (value : ByteBuffer) (ttl : Option Int64)
    (flags : UInt32) (r : Received) :
    (Ending.ofReceived r).remotePut = ((RemoteOp.put key value ttl flags).outcome r).toStatus := by
  cases r with
  | message m =>
    cases m with
    | putResponse code message =>
      show (if code ≠ 0 then _ else _) = (if code ≠ 0 then _ else _ : Outcome).toStatus
      by_cases hcode : code ≠ 0
      · rw [if_pos hcode, if_pos hcode, Outcome.toStatus, if_pos hcode]
      · rw [if_neg hcode, if_neg hcode]
        rfl
    | _ => rfl
  | _ => rfl

/-- `remote_delete` returns the status of the outcome. -/
theorem remoteDelete_ofReceived (key : CacheKey) (r : Received) :
    (Ending.ofReceived r).remoteDelete = ((RemoteOp.delete key).outcome r).toStatus := by
  have htext : String.ofList ("Delete failed".toUTF8.toList.map fun b => Char.ofNat b.toNat) =
      "Delete failed" := by decide +kernel
  cases r with
  | message m =>
    cases m with
    | deleteResponse code message =>
      show (if code ≠ 0 then _ else _) = (if code ≠ 0 then _ else _ : Outcome).toStatus
      by_cases hcode : code ≠ 0
      · rw [if_pos hcode, if_pos hcode, Outcome.toStatus, if_pos hcode, htext]
      · rw [if_neg hcode, if_neg hcode]
        rfl
    | _ => rfl
  | _ => rfl

end Connection

/-! ## Coroutines -/

/-- An end of a connection: the number of the connection, and whether it is the end of the node that
has opened it. -/
structure Conn where
  link : Nat
  opener : Bool
  deriving DecidableEq, Repr

/-- The other end. -/
def Conn.peer (c : Conn) : Conn := { c with opener := !c.opener }

@[simp] theorem Conn.peer_peer (c : Conn) : c.peer.peer = c := by simp [peer]

/-- What a coroutine of a node is about to do. -/
inductive Coroutine where
  -- `connect_to_seeds`: to send the `Hello` on a new connection, and to read the `HelloAck`
  | greeting (c : Conn)
  | greeted (c : Conn)
  -- `handle_connection`: to read the first message, to send the `HelloAck`, to read the next one
  | handling (c : Conn)
  | welcoming (c : Conn)
  | serving (c : Conn)
  -- a call of a peer: to look for a connection, to connect to the address, to give the connection
  -- to the node, to send the request, to read the response
  | calling (id : NodeId) (call : PeerCall)
  | dialing (id : NodeId) (address : ByteBuffer) (port : UInt16) (call : PeerCall)
  | dialed (c : Conn) (id : NodeId) (call : PeerCall)
  | requesting (c : Conn) (call : PeerCall)
  | awaiting (c : Conn) (call : PeerCall)
  | returned (call : PeerCall) (ending : Ending)
  -- `Cluster::stop`: to list the nodes, to close the connections of those that are left
  | stopping
  | closing (pending : List NodeId)
  | done
  deriving DecidableEq

/-- What a coroutine does when it goes on: the records it hands to `handle_node_update`, and whether
it notes the time for each of them; the connection it gives to a node; the one it closes. -/
structure Effect where
  next : Coroutine
  infos : List NodeInfo := []
  stamps : Bool := false
  connects : Option (NodeId × Conn) := none
  closes : Option Conn := none

namespace Coroutine

/-- The message that is to be sent, and where. -/
def outgoing (cluster : Cluster) : Coroutine → Option (Conn × Message)
  | .greeting c => cluster.hello.map (c, ·)
  | .welcoming c => cluster.helloAck.map (c, ·)
  | .requesting c call => some (c, call.request)
  | _ => none

/-- After the send, which has succeeded or failed. -/
def sent : Coroutine → Bool → Effect
  | .greeting c, true => { next := .greeted c }
  | .greeting c, false => { next := .done, closes := some c }
  | .welcoming c, _ => { next := .serving c }
  | .requesting c call, true => { next := .awaiting c call }
  | .requesting _ call, false => { next := .returned call .unsent }
  | coroutine, _ => { next := coroutine }

/-- Where the coroutine reads. -/
def reads : Coroutine → Option Conn
  | .greeted c => some c
  | .handling c => some c
  | .serving c => some c
  | .awaiting c _ => some c
  | _ => none

/-- After a message. -/
def gets : Coroutine → Message → Effect
  | .greeted c, .helloAck sender accepted _ =>
    if accepted then
      { next := .handling c, infos := [sender], connects := some (sender.id, c) }
    else { next := .done, closes := some c }
  | .greeted c, _ => { next := .done, closes := some c }
  | .handling c, .hello sender _ _ =>
    { next := .welcoming c, infos := [sender], connects := some (sender.id, c) }
  -- any other first message is dropped
  | .handling c, _ => { next := .serving c }
  | .serving c, .gossipPush _ nodes => { next := .serving c, infos := nodes, stamps := true }
  | .serving c, .gossipAck _ nodes => { next := .serving c, infos := nodes, stamps := true }
  | .serving c, _ => { next := .serving c }
  | .awaiting _ call, m => { next := .returned call (.received (some m)) }
  | coroutine, _ => { next := coroutine }

/-- After a receive without a message. -/
def getsNothing : Coroutine → Effect
  | .greeted c => { next := .done, closes := some c }
  | .handling c => { next := .done, closes := some c }
  | .serving c => { next := .done, closes := some c }
  | .awaiting _ call => { next := .returned call (.received none) }
  | coroutine => { next := coroutine }

/-- After a receive. An exception ends the coroutine. -/
def received (coroutine : Coroutine) : Received → Effect
  | .message m => coroutine.gets m
  | .nothing => coroutine.getsNothing
  | .thrown => { next := .done }
  | .fault => { next := .done }

end Coroutine

/-- What `GossipProtocol::gossip_round` of a node is about to do: to read the next record for the
push, to look at the next target, or to send the push on the connection of a target. -/
inductive Gossiping where
  | idle
  | reading (targets pending : List NodeId) (push : List NodeInfo)
  | pushing (targets : List NodeId) (push : List NodeInfo)
  | writing (c : Conn) (targets : List NodeId) (push : List NodeInfo)

/-! ## All nodes -/

/-- The nodes with `running_`, the connection of each node in their tables, `last_heard_`, their
gossip rounds; the nodes at the ends of each connection, and its ends; the coroutines; and all
messages that were handed to `Connection::send`. -/
structure Fleet (ι : Type) where
  clusters : ι → Cluster
  running : ι → Bool
  connection : ι → NodeId → Option Conn
  lastHeard : ι → NodeId → Option Int
  gossip : ι → Gossiping
  links : List (ι × ι)
  ends : Conn → End
  coroutines : List (ι × Coroutine)
  sent : List Message

/-- What the nodes do not decide: `gossip_fanout` and `failure_detection_timeout`, and which node
answers at an address. -/
structure Setting (ι : Type) where
  gossipFanout : Nat
  failureTimeout : Int
  listens : ByteBuffer → UInt16 → ι → Prop

namespace Fleet

variable {ι : Type}

/-- New nodes. -/
def start (clusterName : ByteBuffer) (virtualNodes : Nat) (infos : ι → NodeInfo) : Fleet ι where
  clusters i := .new clusterName virtualNodes (firstInfo (infos i))
  running _ := true
  connection _ _ := none
  lastHeard _ _ := none
  gossip _ := .idle
  links := []
  ends _ := {}
  coroutines := []
  sent := []

/-- The node at an end of a connection. -/
def node (s : Fleet ι) (c : Conn) : Option ι :=
  s.links[c.link]?.map fun l => if c.opener then l.1 else l.2

/-- The end of the next connection for the node that opens it. -/
def fresh (s : Fleet ι) : Conn := ⟨s.links.length, true⟩

/-- A coroutine begins. -/
def spawn (s : Fleet ι) (i : ι) (coroutine : Coroutine) : Fleet ι :=
  { s with coroutines := s.coroutines ++ [(i, coroutine)] }

/-- `Cluster::connect_to_node` at one node, and `Cluster::accept_loop` at the other. -/
def connect (s : Fleet ι) (i j : ι) : Fleet ι :=
  { s with links := s.links ++ [(i, j)] }.spawn j (.handling s.fresh.peer)

/-- A coroutine goes on. -/
def become (s : Fleet ι) (t : Nat) (i : ι) (coroutine : Coroutine) : Fleet ι :=
  { s with coroutines := s.coroutines.set t (i, coroutine) }

/-- A connection has changed at an end. -/
def setEnd (s : Fleet ι) (c : Conn) (e : End) : Fleet ι :=
  { s with ends := Function.update s.ends c e }

/-- `Connection::close`. -/
def close (s : Fleet ι) (c : Conn) : Fleet ι := s.setEnd c (s.ends c).close

/-- `Connection::send` at an end, which leaves the other end as `e`. -/
def send (s : Fleet ι) (c : Conn) (m : Message) (ok : Bool) (e : End) : Fleet ι :=
  let near := s.ends c
  { s with
    ends := Function.update (Function.update s.ends c.peer e) c
      { near with connected := near.connected && ok }
    sent := s.sent ++ [m] }

variable [DecidableEq ι]

/-- `ClusterNode::set_connection`, for a node in the table of node `i`. -/
def setConnection (s : Fleet ι) (i : ι) (id : NodeId) (c : Conn) : Fleet ι :=
  { s with
    connection := Function.update s.connection i (Function.update (s.connection i) id (some c)) }

/-- Node `i` is handed records, for each of which the time is noted if `stamps` says so. -/
def update (s : Fleet ι) (i : ι) (infos : List NodeInfo) (stamps : Bool) (now : Int) : Fleet ι :=
  { s with
    clusters := Function.update s.clusters i ((s.clusters i).handlePush infos)
    lastHeard := Function.update s.lastHeard i fun id =>
      if stamps && infos.any (·.id = id) then some now else s.lastHeard i id }

/-- What the coroutine number `t` of node `i` does. -/
def perform (s : Fleet ι) (t : Nat) (i : ι) (now : Int) (effect : Effect) : Fleet ι :=
  let s := s.update i effect.infos effect.stamps now
  let s := effect.connects.elim s fun (id, c) => s.setConnection i id c
  let s := effect.closes.elim s s.close
  s.become t i effect.next

/-- One step of one coroutine of one node. -/
inductive Step (setting : Setting ι) : Fleet ι → Fleet ι → Prop where
  /-- `connect_to_seeds` has connected to a seed. -/
  | seed {s : Fleet ι} (i j : ι) (up : s.running j = true) :
      Step setting s ((s.connect i j).spawn i (.greeting s.fresh))
  /-- A call of a peer begins. -/
  | call {s : Fleet ι} (i : ι) (id : NodeId) (call : PeerCall)
      (known : (s.clusters i).table id ≠ none) :
      Step setting s (s.spawn i (.calling id call))
  /-- It finds a connection, or has to make one. -/
  | reuse {s : Fleet ι} {t : Nat} {i : ι} {id : NodeId} {call : PeerCall} {c : Conn}
      (at_ : s.coroutines[t]? = some (i, .calling id call))
      (found : s.connection i id = some c) (up : (s.ends c).connected = true) :
      Step setting s (s.become t i (.requesting c call))
  | dial {s : Fleet ι} {t : Nat} {i : ι} {id : NodeId} {call : PeerCall} {info : NodeInfo}
      (at_ : s.coroutines[t]? = some (i, .calling id call))
      (lost : ∀ c, s.connection i id = some c → (s.ends c).connected = false)
      (record : (s.clusters i).table id = some info) :
      Step setting s (s.become t i (.dialing id info.address info.port call))
  /-- There is a node at the address, or none answers. -/
  | answer {s : Fleet ι} {t : Nat} {i j : ι} {id : NodeId} {address : ByteBuffer} {port : UInt16}
      {call : PeerCall} (at_ : s.coroutines[t]? = some (i, .dialing id address port call))
      (listens : setting.listens address port j) (up : s.running j = true) :
      Step setting s ((s.connect i j).become t i (.dialed s.fresh id call))
  | refused {s : Fleet ι} {t : Nat} {i : ι} {id : NodeId} {address : ByteBuffer} {port : UInt16}
      {call : PeerCall} (at_ : s.coroutines[t]? = some (i, .dialing id address port call)) :
      Step setting s (s.become t i (.returned call .unconnected))
  /-- The connection is given to the node, whatever connection it has got in the meantime. -/
  | adopt {s : Fleet ι} {t : Nat} {i : ι} {c : Conn} {id : NodeId} {call : PeerCall}
      (at_ : s.coroutines[t]? = some (i, .dialed c id call)) :
      Step setting s ((s.setConnection i id c).become t i (.requesting c call))
  /-- A send returns. -/
  | send {s : Fleet ι} {t : Nat} {i : ι} {coroutine : Coroutine} {c : Conn} {m : Message} {e : End}
      (timestamp : UInt64) (ok : Bool) (now : Int)
      (at_ : s.coroutines[t]? = some (i, coroutine))
      (out : coroutine.outgoing (s.clusters i) = some (c, m))
      (written : End.Written (encode timestamp m 0) (s.ends c.peer) ok e) :
      Step setting s ((s.send c m ok e).perform t i now (coroutine.sent ok))
  /-- A receive returns. The checks that precede it in the loop of `handle_connection` may be
  outdated by then. -/
  | receive {s : Fleet ι} {t : Nat} {i : ι} {coroutine : Coroutine} {c : Conn} {r : Received}
      {e : End} (now : Int)
      (at_ : s.coroutines[t]? = some (i, coroutine)) (reads : coroutine.reads = some c)
      (received : End.Receives (s.ends c) r e) :
      Step setting s ((s.setEnd c e).perform t i now (coroutine.received r))
  /-- The loop of `handle_connection` ends. -/
  | leave {s : Fleet ι} {t : Nat} {i : ι} {c : Conn}
      (at_ : s.coroutines[t]? = some (i, .serving c))
      (down : s.running i = false ∨ (s.ends c).connected = false) :
      Step setting s ((s.close c).become t i .done)
  /-- A gossip round picks its targets among the active nodes and lists the nodes of the table. -/
  | beginRound {s : Fleet ι} {i : ι} {shuffled : List NodeId}
      (idle : s.gossip i = .idle) (others : 1 < (s.clusters i).activeNodes.length)
      (shuffle : shuffled.Perm (s.clusters i).activeNodes) :
      Step setting s { s with
        gossip := Function.update s.gossip i (.reading
          (shuffled.take (min setting.gossipFanout shuffled.length)) (s.clusters i).allNodes []) }
  | readNode {s : Fleet ι} {i : ι} {targets pending : List NodeId} {id : NodeId}
      {push : List NodeInfo} (at_ : s.gossip i = .reading targets (id :: pending) push) :
      Step setting s { s with
        gossip := Function.update s.gossip i
          (.reading targets pending (push ++ ((s.clusters i).nodes.lookup id).toList)) }
  | prepared {s : Fleet ι} {i : ι} {targets : List NodeId} {push : List NodeInfo}
      (at_ : s.gossip i = .reading targets [] push) :
      Step setting s { s with gossip := Function.update s.gossip i (.pushing targets push) }
  /-- A target is the node itself or has no connection; or it has one. -/
  | skipTarget {s : Fleet ι} {i : ι} {id : NodeId} {targets : List NodeId} {push : List NodeInfo}
      (at_ : s.gossip i = .pushing (id :: targets) push)
      (skip : id = (s.clusters i).localId ∨
        ∀ c, s.connection i id = some c → (s.ends c).connected = false) :
      Step setting s { s with gossip := Function.update s.gossip i (.pushing targets push) }
  | pickTarget {s : Fleet ι} {i : ι} {id : NodeId} {targets : List NodeId} {push : List NodeInfo}
      {c : Conn} (at_ : s.gossip i = .pushing (id :: targets) push)
      (other : id ≠ (s.clusters i).localId) (found : s.connection i id = some c)
      (up : (s.ends c).connected = true) :
      Step setting s { s with gossip := Function.update s.gossip i (.writing c targets push) }
  | push {s : Fleet ι} {i : ι} {targets : List NodeId} {push : List NodeInfo} {c : Conn} {e : End}
      (timestamp : UInt64) (ok : Bool) (at_ : s.gossip i = .writing c targets push)
      (written : End.Written (encode timestamp (.gossipPush (s.clusters i).localId push) 0)
        (s.ends c.peer) ok e) :
      Step setting s { s.send c (.gossipPush (s.clusters i).localId push) ok e with
        gossip := Function.update s.gossip i (.pushing targets push) }
  | endRound {s : Fleet ι} {i : ι} {push : List NodeInfo} (at_ : s.gossip i = .pushing [] push) :
      Step setting s { s with gossip := Function.update s.gossip i .idle }
  /-- `GossipProtocol::check_failures`. -/
  | checkFailures {s : Fleet ι} (i : ι) (now : Int) :
      Step setting s { s with
        lastHeard := Function.update s.lastHeard i fun id =>
          (s.lastHeard i id).filter fun heard => now - heard ≤ setting.failureTimeout }
  /-- `Cluster::stop` begins, gets the lock on the table, and closes one connection after the
  other. -/
  | stop {s : Fleet ι} (i : ι) :
      Step setting s ({ s with running := Function.update s.running i false }.spawn i .stopping)
  | listNodes {s : Fleet ι} {t : Nat} {i : ι}
      (at_ : s.coroutines[t]? = some (i, .stopping)) :
      Step setting s (s.become t i (.closing (s.clusters i).allNodes))
  | closeNext {s : Fleet ι} {t : Nat} {i : ι} {id : NodeId} {pending : List NodeId} {c : Conn}
      (at_ : s.coroutines[t]? = some (i, .closing (id :: pending)))
      (found : s.connection i id = some c) :
      Step setting s ((s.close c).become t i (.closing pending))
  | passNext {s : Fleet ι} {t : Nat} {i : ι} {id : NodeId} {pending : List NodeId}
      (at_ : s.coroutines[t]? = some (i, .closing (id :: pending)))
      (lacks : s.connection i id = none) :
      Step setting s (s.become t i (.closing pending))
  | stopped {s : Fleet ι} {t : Nat} {i : ι} (at_ : s.coroutines[t]? = some (i, .closing [])) :
      Step setting s (s.become t i .done)

/-- The states that new nodes can get to. -/
def Reachable (setting : Setting ι) (clusterName : ByteBuffer) (virtualNodes : Nat)
    (infos : ι → NodeInfo) : Fleet ι → Prop :=
  Relation.ReflTransGen (Step setting) (start clusterName virtualNodes infos)

end Fleet

end ElCache
