import Mathlib.Data.List.AList
import ElCache.Lib.Latest
import ElCache.Protocol.RoundTrip
import ElCache.Cluster.HashRing

/-!
# Gossip

Each node keeps a table of the nodes it knows, with the record of the highest generation it has
heard of, and a ring of them. The records travel in `Hello`, `HelloAck` and `GossipPush` messages,
which may be delivered in any order, several times, late or never, and a push carries what the
sender has heard from others. A `Network` is any number of such nodes with everything that was sent
so far.

What one event does to a node is to hand it some records (`exec_cluster`), and a table holds the
latest of what it was handed (`Cluster.Holds`). `gossip_merge` says what follows in every run.
-/

namespace ElCache

variable {info : NodeInfo} {m : Message}

open Protocol Latest

/-- `NodeInfo::Active`. -/
def activeState : UInt32 := 2

/-! ## A node of the cluster -/

structure Cluster where
  clusterName : ByteBuffer
  localId : NodeId
  nodes : AList fun _ : NodeId => NodeInfo
  hashRing : HashRing

/-- `ClusterNode::update`: the record that a node has after it. -/
def updateNode (old info : NodeInfo) : NodeInfo :=
  if old.generation < info.generation then info else old

namespace Cluster

/-- The constructor, for the record that it makes of the configuration. -/
def new (clusterName : ByteBuffer) (virtualNodes : Nat) (localInfo : NodeInfo) : Cluster where
  clusterName := clusterName
  localId := localInfo.id
  nodes := AList.insert localInfo.id localInfo ∅
  hashRing := (HashRing.new virtualNodes).addNode localInfo.id

/-- `local_node()->info()`. -/
def localInfo (c : Cluster) : Option NodeInfo := c.nodes.lookup c.localId

/-- `Cluster::all_nodes`, as the ids of the nodes. -/
def allNodes (c : Cluster) : List NodeId := c.nodes.keys

/-- `Cluster::active_nodes`. -/
def activeNodes (c : Cluster) : List NodeId :=
  c.allNodes.filter fun id => (c.nodes.lookup id).any (·.state = activeState)

/-- `Cluster::handle_node_update`. -/
def handleNodeUpdate (c : Cluster) (info : NodeInfo) : Cluster :=
  match c.nodes.lookup info.id with
  | some old => { c with nodes := c.nodes.insert info.id (updateNode old info) }
  | none => { c with
      nodes := c.nodes.insert info.id info
      hashRing := c.hashRing.addNode info.id }

/-- `local_node()->update(info)`. -/
def updateLocal (c : Cluster) (info : NodeInfo) : Cluster :=
  match c.nodes.lookup c.localId with
  | some old => { c with nodes := c.nodes.insert c.localId (updateNode old info) }
  | none => c

/-- `GossipProtocol::handle_push` and `GossipProtocol::handle_ack`. -/
def handlePush (c : Cluster) (infos : List NodeInfo) : Cluster := infos.foldl handleNodeUpdate c

end Cluster

/-- How a message is received: as the first one of a connection, as a later one, or as the answer to
the `Hello` that a node sends to a seed. -/
inductive Reception where
  | first
  | later
  | answer
  deriving DecidableEq, Repr

namespace Cluster

/-- The bodies of `Cluster::handle_connection` and `Cluster::connect_to_seeds` for one message.
Other messages than those that are waited for are dropped. -/
def receive (c : Cluster) : Reception → Message → Cluster
  | .first, .hello sender _ _ => c.handleNodeUpdate sender
  | .later, .gossipPush _ infos => c.handlePush infos
  | .later, .gossipAck _ infos => c.handlePush infos
  | .answer, .helloAck sender accepted _ => if accepted then c.handleNodeUpdate sender else c
  | _, _ => c

/-- The `Hello` that is sent to a seed. -/
def hello (c : Cluster) : Option Message := c.localInfo.map fun info => .hello info c.clusterName []

/-- The answer to a `Hello`. -/
def helloAck (c : Cluster) : Option Message := c.localInfo.map fun info => .helloAck info true []

end Cluster

/-! ## A network of nodes -/

/-- A gossip round of a node: the nodes still to be read, and the records for the push. -/
structure Round where
  pending : List NodeId
  push : List NodeInfo

/-- The nodes, their gossip rounds and all messages sent so far; and, for each node, the records it
was handed, in their order. -/
structure Network (ι : Type) where
  clusters : ι → Cluster
  rounds : ι → Option Round
  sent : List Message
  processed : ι → List NodeInfo

/-- What can happen. The messages are named by their number among those sent. -/
inductive Event (ι : Type) where
  | publish (i : ι) (info : NodeInfo)
  | sendHello (i : ι)
  | sendHelloAck (i : ι)
  | beginRound (i : ι)
  | readNode (i : ι)
  | sendPush (i : ι)
  | deliver (i : ι) (reception : Reception) (message : Nat)

/-- The records that a receiver takes from a message. -/
def heard : Reception → Message → List NodeInfo
  | .first, .hello sender _ _ => [sender]
  | .later, .gossipPush _ infos => infos
  | .later, .gossipAck _ infos => infos
  | .answer, .helloAck sender accepted _ => if accepted then [sender] else []
  | _, _ => []

/-- A record that a node gives out about itself. -/
def ownInfo (id : NodeId) (info : NodeInfo) : NodeInfo := { info with id, lastSeen := 0 }

/-- The record that the constructor makes. -/
def firstInfo (info : NodeInfo) : NodeInfo :=
  { info with generation := 1, state := activeState, lastSeen := 0 }

namespace Network

variable {ι : Type} [DecidableEq ι]

/-- A node is handed records. -/
def give (net : Network ι) (i : ι) (handle : Cluster → Cluster) (infos : List NodeInfo) :
    Network ι :=
  { net with
    clusters := Function.update net.clusters i (handle (net.clusters i))
    processed := Function.update net.processed i (net.processed i ++ infos) }

/-- The beginning of `GossipProtocol::gossip_round`, which does nothing on a node that knows no
other. -/
def openRound (c : Cluster) : Option Round :=
  if c.activeNodes.length ≤ 1 then none else some ⟨c.allNodes, []⟩

/-- What an event does. The records for a push are read one by one, so that others can come in
between, and what a message loses on the wire is lost. -/
def exec (net : Network ι) : Event ι → Network ι
  | .publish i info =>
    let info := ownInfo (net.clusters i).localId info
    net.give i (·.updateLocal info) [info]
  | .sendHello i => { net with sent := net.sent ++ (net.clusters i).hello.toList }
  | .sendHelloAck i => { net with sent := net.sent ++ (net.clusters i).helloAck.toList }
  | .beginRound i =>
    { net with rounds := Function.update net.rounds i (openRound (net.clusters i)) }
  | .readNode i =>
    match net.rounds i with
    | some ⟨id :: pending, push⟩ => { net with
        rounds := Function.update net.rounds i
          (some ⟨pending, push ++ ((net.clusters i).nodes.lookup id).toList⟩) }
    | _ => net
  | .sendPush i =>
    match net.rounds i with
    | some ⟨[], push⟩ => { net with
        sent := net.sent ++ [.gossipPush (net.clusters i).localId push]
        rounds := Function.update net.rounds i none }
    | _ => net
  | .deliver i reception message =>
    match net.sent[message]? with
    | some m => net.give i (·.receive reception m.onWire) (heard reception m.onWire)
    | none => net

/-- The network of new nodes. -/
def start (clusterName : ByteBuffer) (virtualNodes : Nat) (infos : ι → NodeInfo) : Network ι where
  clusters i := .new clusterName virtualNodes (firstInfo (infos i))
  rounds _ := none
  sent := []
  processed _ := []

/-- The network after events. -/
def after (clusterName : ByteBuffer) (virtualNodes : Nat) (infos : ι → NodeInfo)
    (events : List (Event ι)) : Network ι :=
  events.foldl exec (start clusterName virtualNodes infos)

end Network

/-- A record is one that node `i` has given out about itself. -/
def PublishedBy {ι : Type} (infos : ι → NodeInfo) (events : List (Event ι)) (i : ι)
    (info : NodeInfo) : Prop :=
  info = firstInfo (infos i) ∨ ∃ own, .publish i own ∈ events ∧ info = ownInfo (infos i).id own

/-! ## A table holds the latest of what the node was handed -/

namespace Cluster

/-- The table of a node, as a function. -/
def table (c : Cluster) (id : NodeId) : Option NodeInfo := c.nodes.lookup id

/-- The table of a node holds the latest of some records, and its ring the same nodes. -/
structure Holds (c : Cluster) (infos : Set NodeInfo) : Prop where
  latest : IsLatest NodeInfo.id NodeInfo.generation infos c.table
  ring : ∀ id, id ∈ c.hashRing.nodes ↔ c.table id ≠ none

theorem lookup_insert_eq (nodes : AList fun _ : NodeId => NodeInfo) (id : NodeId)
    (info : NodeInfo) : (fun k => (nodes.insert id info).lookup k) =
      Function.update (fun k => nodes.lookup k) id (some info) := by
  funext k
  by_cases hk : k = id
  · subst hk
    rw [AList.lookup_insert, Function.update_self]
  · rw [AList.lookup_insert_ne hk, Function.update_of_ne hk]

theorem table_new (clusterName : ByteBuffer) (virtualNodes : Nat) (info : NodeInfo) :
    (new clusterName virtualNodes info).table =
      Function.update (fun _ => none) info.id (some info) :=
  lookup_insert_eq ∅ info.id info

/-- An update offers the record to the table. -/
theorem table_handleNodeUpdate (c : Cluster) (info : NodeInfo) :
    (c.handleNodeUpdate info).table = offer NodeInfo.id NodeInfo.generation c.table info := by
  rw [handleNodeUpdate, offer, table]
  cases h : c.nodes.lookup info.id with
  | none => exact lookup_insert_eq ..
  | some old => exact lookup_insert_eq ..

theorem mem_addNode (r : HashRing) (id k : NodeId) :
    k ∈ (r.addNode id).nodes ↔ k = id ∨ k ∈ r.nodes := by
  rw [HashRing.addNode]
  split
  · next hold =>
    refine ⟨.inr, ?_⟩
    rintro (rfl | hk)
    · exact hold
    · exact hk
  · exact Finset.mem_insert

section
variable {c : Cluster} {infos : Set NodeInfo}

theorem holds_new (clusterName : ByteBuffer) (virtualNodes : Nat) (info : NodeInfo) :
    (new clusterName virtualNodes info).Holds {info} where
  latest := by
    rw [table_new]
    exact isLatest_singleton info
  ring id := by
    rw [table_new, new, mem_addNode]
    by_cases hk : id = info.id
    · subst hk
      simp
    · simp [hk, HashRing.new]

/-- What is newer than the entry, or new, becomes the entry. -/
theorem Holds.handleNodeUpdate (h : c.Holds infos) (info : NodeInfo) :
    (c.handleNodeUpdate info).Holds (insert info infos) where
  latest := by
    rw [table_handleNodeUpdate]
    exact h.latest.offer info
  ring id := by
    rw [table_handleNodeUpdate, Cluster.handleNodeUpdate]
    cases hold : c.nodes.lookup info.id with
    | none =>
      rw [mem_addNode, h.ring]
      by_cases hk : id = info.id
      · subst hk
        rw [offer_of_none hold]
        simp
      · rw [offer_of_ne hk]
        exact or_iff_right hk
    | some old =>
      refine (h.ring id).trans ?_
      by_cases hk : id = info.id
      · subst hk
        rw [offer_of_some hold, show c.table info.id = some old from hold]
        simp
      · rw [offer_of_ne hk]

theorem Holds.handlePush (h : c.Holds infos) (push : List NodeInfo) :
    (c.handlePush push).Holds (infos ∪ {info | info ∈ push}) := by
  induction push generalizing c infos with
  | nil =>
    simpa [Cluster.handlePush] using h
  | cons info push ih =>
    have hset : infos ∪ {i | i ∈ info :: push} = insert info infos ∪ {i | i ∈ push} := by
      ext i
      simp
      tauto
    rw [hset]
    exact ih (h.handleNodeUpdate info)

end

/-- The generation that a node has for an id does not decrease. -/
def Grows (c c' : Cluster) : Prop :=
  ∀ id info, c.table id = some info →
    ∃ info', c'.table id = some info' ∧ info.generation ≤ info'.generation

theorem grows_handlePush (c : Cluster) (push : List NodeInfo) : c.Grows (c.handlePush push) := by
  induction push generalizing c with
  | nil => exact fun id info h => ⟨info, h, le_rfl⟩
  | cons info push ih =>
    intro id old hold
    obtain ⟨mid, hmid, hle⟩ :
        ∃ mid, (c.handleNodeUpdate info).table id = some mid ∧ old.generation ≤ mid.generation := by
      rw [table_handleNodeUpdate]
      exact offer_grows hold info
    obtain ⟨new, hnew, hle'⟩ := ih _ id mid hmid
    exact ⟨new, hnew, hle.trans hle'⟩

/-- What is received is what is heard. -/
theorem receive_eq (c : Cluster) (reception : Reception) (m : Message) :
    c.receive reception m = c.handlePush (heard reception m) := by
  rw [receive.eq_def, heard.eq_def]
  split
  · rfl
  · rfl
  · rfl
  · split <;> rfl
  · rfl

/-- A node that is in its own table updates its record as any other one. -/
theorem updateLocal_eq {c : Cluster} (hid : info.id = c.localId) (h : c.table c.localId ≠ none) :
    c.updateLocal info = c.handlePush [info] := by
  obtain ⟨old, hold⟩ := Option.ne_none_iff_exists'.1 h
  rw [table] at hold
  rw [handlePush, List.foldl_cons, List.foldl_nil, updateLocal, handleNodeUpdate, hid, hold]

theorem localId_handlePush (c : Cluster) (push : List NodeInfo) :
    (c.handlePush push).localId = c.localId := by
  induction push generalizing c with
  | nil => rfl
  | cons info push ih =>
    refine (ih (c.handleNodeUpdate info)).trans ?_
    rw [handleNodeUpdate]
    split <;> rfl

end Cluster

/-! ## Runs of a network -/

/-- The records that a message carries. -/
def carried : Message → List NodeInfo
  | .hello sender _ _ => [sender]
  | .helloAck sender _ _ => [sender]
  | .gossipPush _ infos => infos
  | .gossipAck _ infos => infos
  | _ => []

theorem mem_carried_of_mem_heard {reception : Reception} (h : info ∈ heard reception m) :
    info ∈ carried m := by
  rw [heard.eq_def] at h
  split at h
  · exact h
  · exact h
  · exact h
  · split at h
    · exact h
    · cases h
  · cases h

/-- The wire changes no record that has no time in it. -/
theorem mem_carried_onWire (h : info ∈ carried m.onWire) :
    ∃ info' ∈ carried m, info = info' ∨ info = info'.onWire := by
  cases m with
  | hello | helloAck =>
    rw [Message.onWire, carried, List.mem_singleton] at h
    exact ⟨_, List.mem_singleton_self _, .inr h⟩
  | gossipPush =>
    obtain ⟨info', hmem, rfl⟩ := List.mem_map.1 h
    exact ⟨info', hmem, .inr rfl⟩
  | gossipAck => exact ⟨info, h, .inl rfl⟩
  | _ => cases h

namespace Network

variable {ι : Type} {events : List (Event ι)} {i : ι}

/-- Every node holds the latest of the records it was handed; and all these records, those on the
wire and those that are about to be sent have the property `P`. -/
structure Inv (net : Network ι) (infos : ι → NodeInfo) (P : NodeInfo → Prop) : Prop where
  holds : ∀ i, (net.clusters i).Holds {info | info ∈ firstInfo (infos i) :: net.processed i}
  localId : ∀ i, (net.clusters i).localId = (infos i).id
  processed : ∀ i, ∀ info ∈ firstInfo (infos i) :: net.processed i, P info
  rounds : ∀ i round, net.rounds i = some round → ∀ info ∈ round.push, P info
  sent : ∀ m ∈ net.sent, ∀ info ∈ carried m, P info

/-- A node was handed some records between two states. -/
def Handed (P : NodeInfo → Prop) (net net' : Network ι) (i : ι) : Prop :=
  ∃ push, (∀ info ∈ push, P info) ∧ net'.clusters i = (net.clusters i).handlePush push ∧
    net'.processed i = net.processed i ++ push

section
variable {net : Network ι} {infos : ι → NodeInfo} {P : NodeInfo → Prop}

theorem handed_nothing {net' : Network ι} (hclusters : net'.clusters i = net.clusters i)
    (hprocessed : net'.processed i = net.processed i) : Handed P net net' i :=
  ⟨[], nofun, hclusters, by rw [hprocessed, List.append_nil]⟩

theorem Inv.table_mem (h : net.Inv infos P) {id : NodeId}
    (hinfo : (net.clusters i).table id = some info) : P info :=
  h.processed i info ((h.holds i).latest.highest id info hinfo).1

theorem Inv.table_localId (h : net.Inv infos P) (i : ι) :
    (net.clusters i).table (net.clusters i).localId ≠ none := by
  rw [h.localId]
  exact (h.holds i).latest.covers (firstInfo (infos i)) List.mem_cons_self

/-- A message that is delivered brings records that were sent. -/
theorem Inv.heard (h : net.Inv infos P) (hwire : ∀ info, P info → info.onWire = info)
    {reception : Reception} (hm : m ∈ net.sent) : ∀ info ∈ heard reception m.onWire, P info := by
  intro info hinfo
  obtain ⟨info', hmem, heq⟩ := mem_carried_onWire (mem_carried_of_mem_heard hinfo)
  have hP := h.sent m hm info' hmem
  rcases heq with rfl | rfl
  · exact hP
  · rwa [hwire _ hP]

/-- What a node says about itself is in its table. -/
theorem Inv.hello (h : net.Inv infos P)
    (hm : m ∈ (net.clusters i).hello.toList ∨ m ∈ (net.clusters i).helloAck.toList) :
    ∀ info ∈ carried m, P info := by
  rw [Option.mem_toList, Option.mem_toList] at hm
  rcases hm with hm | hm <;>
  · obtain ⟨own, hown, rfl⟩ := Option.map_eq_some_iff.1 hm
    intro info hinfo
    rw [List.mem_singleton.1 hinfo]
    exact h.table_mem hown

variable [DecidableEq ι]

theorem handed_give {handle : Cluster → Cluster} {push : List NodeInfo} {j : ι}
    (hpush : ∀ info ∈ push, P info)
    (hhandle : handle (net.clusters j) = (net.clusters j).handlePush push)
    (i : ι) : Handed P net (net.give j handle push) i := by
  by_cases hij : i = j
  · subst hij
    refine ⟨push, hpush, ?_, Function.update_self ..⟩
    exact (Function.update_self ..).trans hhandle
  · exact handed_nothing (Function.update_of_ne hij ..) (Function.update_of_ne hij ..)

/-- What an event does to a node: it is handed some records. -/
theorem Inv.exec_cluster (h : net.Inv infos P) (hwire : ∀ info, P info → info.onWire = info)
    (event : Event ι) (hpublish : ∀ i own, event = .publish i own → P (ownInfo (infos i).id own))
    (i : ι) : Handed P net (net.exec event) i := by
  cases event with
  | publish j own =>
    rw [exec]
    apply handed_give
    · intro info hinfo
      rw [List.mem_singleton.1 hinfo, h.localId]
      exact hpublish j own rfl
    · exact Cluster.updateLocal_eq rfl (h.table_localId j)
  | sendHello | sendHelloAck | beginRound => exact handed_nothing rfl rfl
  | readNode | sendPush =>
    rw [exec]
    split
    · exact handed_nothing rfl rfl
    · exact handed_nothing rfl rfl
  | deliver j reception message =>
    rw [exec]
    split
    · next m hm =>
      exact handed_give (h.heard hwire (List.mem_of_getElem? hm)) (Cluster.receive_eq ..) i
    · exact handed_nothing rfl rfl

/-- The rounds after an event carry records of the tables. -/
theorem Inv.exec_rounds (h : net.Inv infos P) (event : Event ι) :
    ∀ i round, (net.exec event).rounds i = some round → ∀ info ∈ round.push, P info := by
  intro i round hround
  have hupdate : ∀ (j : ι) (new : Option Round),
      (∀ round, new = some round → ∀ info ∈ round.push, P info) →
      Function.update net.rounds j new i = some round → ∀ info ∈ round.push, P info := by
    intro j new hnew hi
    by_cases hij : i = j
    · subst hij
      rw [Function.update_self] at hi
      exact hnew round hi
    · rw [Function.update_of_ne hij] at hi
      exact h.rounds i round hi
  cases event with
  | publish | sendHello | sendHelloAck => exact h.rounds i round hround
  | beginRound j =>
    refine hupdate j _ ?_ hround
    intro new hnew info hinfo
    rw [openRound] at hnew
    split at hnew
    · cases hnew
    · cases hnew
      cases hinfo
  | readNode j =>
    rw [exec] at hround
    split at hround
    · next id pending push hj =>
      refine hupdate j _ ?_ hround
      intro new hnew info hinfo
      cases hnew
      rcases List.mem_append.1 hinfo with hinfo | hinfo
      · exact h.rounds j _ hj info hinfo
      · exact h.table_mem (Option.mem_toList.1 hinfo)
    · exact h.rounds i round hround
  | sendPush j =>
    rw [exec] at hround
    split at hround
    · exact hupdate j none nofun hround
    · exact h.rounds i round hround
  | deliver j reception message =>
    rw [exec] at hround
    split at hround
    · exact h.rounds i round hround
    · exact h.rounds i round hround

/-- The messages sent after an event carry records of the tables and the rounds. -/
theorem Inv.exec_sent (h : net.Inv infos P) (event : Event ι) :
    ∀ m ∈ (net.exec event).sent, ∀ info ∈ carried m, P info := by
  intro m hm
  cases event with
  | publish | beginRound => exact h.sent m hm
  | sendHello j =>
    rcases List.mem_append.1 hm with hm | hm
    · exact h.sent m hm
    · exact h.hello (.inl hm)
  | sendHelloAck j =>
    rcases List.mem_append.1 hm with hm | hm
    · exact h.sent m hm
    · exact h.hello (.inr hm)
  | readNode j =>
    rw [exec] at hm
    split at hm
    · exact h.sent m hm
    · exact h.sent m hm
  | sendPush j =>
    rw [exec] at hm
    split at hm
    · next push hj =>
      rcases List.mem_append.1 hm with hm | hm
      · exact h.sent m hm
      · rw [List.mem_singleton.1 hm]
        exact h.rounds j _ hj
    · exact h.sent m hm
  | deliver j reception message =>
    rw [exec] at hm
    split at hm
    · exact h.sent m hm
    · exact h.sent m hm

/-- An event keeps the invariant: what a node is handed comes from a message that was sent. -/
theorem Inv.exec (h : net.Inv infos P) (hwire : ∀ info, P info → info.onWire = info)
    (event : Event ι) (hpublish : ∀ i own, event = .publish i own → P (ownInfo (infos i).id own)) :
    (net.exec event).Inv infos P where
  holds i := by
    obtain ⟨push, -, hcluster, hprocessed⟩ := h.exec_cluster hwire event hpublish i
    have hset : {info | info ∈ firstInfo (infos i) :: (net.processed i ++ push)} =
        {info | info ∈ firstInfo (infos i) :: net.processed i} ∪ {info | info ∈ push} := by
      ext info
      simp [or_assoc]
    rw [hcluster, hprocessed, hset]
    exact (h.holds i).handlePush push
  localId i := by
    obtain ⟨push, -, hcluster, -⟩ := h.exec_cluster hwire event hpublish i
    rw [hcluster, Cluster.localId_handlePush, h.localId]
  processed i info hinfo := by
    obtain ⟨push, hpush, -, hprocessed⟩ := h.exec_cluster hwire event hpublish i
    rw [hprocessed, ← List.cons_append] at hinfo
    rcases List.mem_append.1 hinfo with hinfo | hinfo
    · exact h.processed i info hinfo
    · exact hpush info hinfo
  rounds := h.exec_rounds event
  sent := h.exec_sent event

/-- The invariant holds in every run, for every property of the records that are published. -/
theorem inv_after {clusterName : ByteBuffer} {virtualNodes : Nat} {infos : ι → NodeInfo}
    (hwire : ∀ info, P info → info.onWire = info) (hfirst : ∀ i, P (firstInfo (infos i)))
    (hpublish : ∀ i own, .publish i own ∈ events → P (ownInfo (infos i).id own)) :
    (after clusterName virtualNodes infos events).Inv infos P := by
  induction events using List.reverseRecOn with
  | nil =>
    refine ⟨fun i => ?_, fun _ => rfl, fun i info hinfo => ?_, nofun, nofun⟩
    · have hset : {info | info ∈ [firstInfo (infos i)]} = {firstInfo (infos i)} := by
        ext info
        simp
      show Cluster.Holds _ {info | info ∈ [firstInfo (infos i)]}
      rw [hset]
      exact Cluster.holds_new ..
    · rw [List.mem_singleton.1 hinfo]
      exact hfirst i
  | append_singleton events event ih =>
    rw [after, List.foldl_append]
    refine (ih fun i own hown => hpublish i own (List.mem_append_left _ hown)).exec hwire event ?_
    rintro i own rfl
    exact hpublish i own (List.mem_append_right _ List.mem_cons_self)

end

/-- What is published has no time in it. -/
theorem onWire_of_publishedBy {infos : ι → NodeInfo} (h : PublishedBy infos events i info) :
    info.onWire = info := by
  rcases h with rfl | ⟨own, -, rfl⟩ <;> rfl

theorem id_of_publishedBy {infos : ι → NodeInfo} (h : PublishedBy infos events i info) :
    info.id = (infos i).id := by
  rcases h with rfl | ⟨own, -, rfl⟩ <;> rfl

/-- **Gossip converges.** In every run in which records of one id and one generation are equal, and
whatever happens next: the generation that a node has for an id does not decrease; every record in a
table was published by its owner; a table holds the latest of the records that the node started with
or was handed, so that nodes for which these are the same records hold the same table; and the ring
of a node holds the nodes of its table. -/
theorem gossip_merge [DecidableEq ι] (clusterName : ByteBuffer) (virtualNodes : Nat)
    (infos : ι → NodeInfo) (events : List (Event ι))
    (huniq : ∀ i j a b, PublishedBy infos events i a → PublishedBy infos events j b → a.id = b.id →
      a.generation = b.generation → a = b) :
    ∀ net, net = after clusterName virtualNodes infos events →
      (∀ event i, (net.clusters i).Grows ((net.exec event).clusters i)) ∧
      (∀ i id info, (net.clusters i).table id = some info →
        info.id = id ∧ ∃ owner, (infos owner).id = id ∧ PublishedBy infos events owner info) ∧
      (∀ i, IsLatest NodeInfo.id NodeInfo.generation
        {info | info ∈ firstInfo (infos i) :: net.processed i} (net.clusters i).table) ∧
      (∀ i j, (∀ info, info ∈ firstInfo (infos i) :: net.processed i ↔
          info ∈ firstInfo (infos j) :: net.processed j) →
        (net.clusters i).table = (net.clusters j).table) ∧
      ∀ i id, id ∈ (net.clusters i).hashRing.nodes ↔ (net.clusters i).table id ≠ none := by
  rintro net rfl
  have hwire : (after clusterName virtualNodes infos events).Inv infos
      (fun info => info.onWire = info) :=
    inv_after (fun _ h => h) (fun _ => rfl) fun _ _ _ => rfl
  have hinv : (after clusterName virtualNodes infos events).Inv infos
      (fun info => ∃ owner, PublishedBy infos events owner info) :=
    inv_after (fun _ ⟨_, h⟩ => onWire_of_publishedBy h) (fun i => ⟨i, .inl rfl⟩)
      fun i own hown => ⟨i, .inr ⟨own, hown, rfl⟩⟩
  refine ⟨?_, ?_, fun i => (hinv.holds i).latest, ?_, fun i => (hinv.holds i).ring⟩
  · intro event i
    obtain ⟨push, -, hcluster, -⟩ := hwire.exec_cluster (fun _ h => h) event (fun _ _ _ => rfl) i
    rw [hcluster]
    exact Cluster.grows_handlePush _ push
  · intro i id info hinfo
    obtain ⟨-, hid, -⟩ := (hinv.holds i).latest.highest id info hinfo
    obtain ⟨owner, howner⟩ := hinv.table_mem hinfo
    exact ⟨hid, owner, (id_of_publishedBy howner).symm.trans hid, howner⟩
  · intro i j hsame
    have hset : {info | info ∈ firstInfo (infos i) ::
        (after clusterName virtualNodes infos events).processed i} =
        {info | info ∈ firstInfo (infos j) ::
          (after clusterName virtualNodes infos events).processed j} :=
      Set.ext hsame
    refine (hinv.holds i).latest.unique (hset ▸ (hinv.holds j).latest) ?_
    intro a ha b hb
    obtain ⟨owner, howner⟩ := hinv.processed i a ha
    obtain ⟨owner', howner'⟩ := hinv.processed i b hb
    exact huniq owner owner' a b howner howner'

/-- The record of the node number `i`. -/
def sampleInfo (i : Fin 3) : NodeInfo where
  id := ⟨i.val.toUInt64⟩
  address := []
  port := 7890
  memoryCapacity := 0
  memoryUsed := 0
  diskCapacity := 0
  diskUsed := 0
  generation := 1
  state := activeState

/-- What node 2 publishes of itself once its memory level is in use. -/
def laterInfo : NodeInfo := { sampleInfo 2 with memoryUsed := 4096, generation := 2 }

/-- Nodes 0 and 1 greet each other. Node 2 publishes a new record of itself and greets node 1, which
then pushes its table to node 0. -/
def relayEvents : List (Event (Fin 3)) :=
  [.sendHello 0, .deliver 1 .first 0, .sendHelloAck 1, .deliver 0 .answer 1, .publish 2 laterInfo,
    .sendHello 2, .deliver 1 .first 2, .beginRound 1, .readNode 1, .readNode 1, .readNode 1,
    .sendPush 1, .deliver 0 .later 3]

/-- The network of the three nodes after that. -/
def relayed : Network (Fin 3) := after [] 1 sampleInfo relayEvents

/-- Records of one id and one generation are equal: the record that node 2 publishes has a later
generation than those that the nodes start with. -/
theorem relayEvents_unique : ∀ i j a b, PublishedBy sampleInfo relayEvents i a →
    PublishedBy sampleInfo relayEvents j b → a.id = b.id → a.generation = b.generation → a = b := by
  have hown : ∀ i own, .publish i own ∈ relayEvents → i = 2 ∧ own = laterInfo := by
    intro i own h
    simp only [relayEvents, List.mem_cons, List.not_mem_nil, or_false, reduceCtorEq, false_or,
      Event.publish.injEq] at h
    exact h
  have hid : ∀ i j : Fin 3, (sampleInfo i).id = (sampleInfo j).id → i = j := by decide
  have hlater : ∀ i, (firstInfo (sampleInfo i)).generation ≠
      (ownInfo (sampleInfo 2).id laterInfo).generation := by decide
  rintro i j a b (rfl | ⟨own, hpub, rfl⟩) (rfl | ⟨own', hpub', rfl⟩) hids hgen
  · rw [hid i j hids]
  · obtain ⟨rfl, rfl⟩ := hown j own' hpub'
    exact absurd hgen (hlater i)
  · obtain ⟨rfl, rfl⟩ := hown i own hpub
    exact absurd hgen.symm (hlater j)
  · obtain ⟨rfl, rfl⟩ := hown i own hpub
    obtain ⟨rfl, rfl⟩ := hown j own' hpub'
    rfl

/-- Nodes 0 and 1 then have the same table, though only node 1 has heard from node 2. It has the
record that node 2 published. -/
theorem gossip_merge_relayed : (relayed.clusters 0).table = (relayed.clusters 1).table ∧
    (relayed.clusters 0).table ⟨2⟩ = some laterInfo := by
  refine ⟨(gossip_merge [] 1 sampleInfo relayEvents relayEvents_unique relayed rfl).2.2.2.1 0 1 ?_,
    by decide +kernel⟩
  intro info
  have h0 : relayed.processed 0 = [firstInfo (sampleInfo 1), laterInfo, firstInfo (sampleInfo 0),
      firstInfo (sampleInfo 1)] := by decide +kernel
  have h1 : relayed.processed 1 = [firstInfo (sampleInfo 0), laterInfo] := by decide +kernel
  rw [h0, h1]
  simp only [List.mem_cons, List.not_mem_nil, or_false]
  tauto

/-- Two nodes hear from a third one only. -/
def strangers : Network (Fin 3) := after [] 1 sampleInfo
  [.sendHello 2, .deliver 0 .first 0, .deliver 1 .first 0]

/-- Each of them knows itself and not the other. -/
theorem tables_differ : strangers.processed 0 = strangers.processed 1 ∧
    (strangers.clusters 0).table ≠ (strangers.clusters 1).table := by
  refine ⟨rfl, fun h => ?_⟩
  have h0 := congrFun h ⟨0⟩
  revert h0
  decide

end Network

end ElCache
