import ElCache.Cluster.Answers

/-!
# Connections against gossip

The nodes with their connections (`Fleet`) do to their tables what a gossip network (`Network`) can
do: a message that a coroutine takes records from was sent before, by a node that read them from its
own table or took them from a message (`Follows`). So every run of the connections is, table by
table, a run of the network (`refines_network`), and in the network nothing is ever published: the
tables hold the records that the nodes were started with, and only grow (`membership_frozen`).
-/

namespace ElCache

open Protocol Connection

/-! ## What a coroutine hands on -/

namespace Coroutine

/-- A send hands no records to the node. -/
theorem infos_sent (coroutine : Coroutine) (ok : Bool) : (coroutine.sent ok).infos = [] := by
  cases coroutine <;> cases ok <;> rfl

theorem infos_getsNothing (coroutine : Coroutine) : coroutine.getsNothing.infos = [] := by
  cases coroutine <;> rfl

/-- The records that a coroutine takes from a message are those of one of the three ways to receive
it. -/
theorem infos_gets (coroutine : Coroutine) (m : Message) :
    (coroutine.gets m).infos = [] ∨ ∃ reception, (coroutine.gets m).infos = heard reception m := by
  cases coroutine with
  | greeted c =>
    cases m with
    | helloAck sender accepted reason =>
      refine .inr ⟨.answer, ?_⟩
      cases accepted <;> rfl
    | _ => exact .inl rfl
  | handling c =>
    cases m with
    | hello => exact .inr ⟨.first, rfl⟩
    | _ => exact .inl rfl
  | serving c =>
    cases m with
    | gossipPush => exact .inr ⟨.later, rfl⟩
    | gossipAck => exact .inr ⟨.later, rfl⟩
    | _ => exact .inl rfl
  | _ => exact .inl rfl

end Coroutine

theorem carried_request (call : PeerCall) : carried call.request = [] := by
  cases call <;> rfl

/-- A message that has records when it arrives had some when it was sent. -/
theorem carried_ne_nil_of_heard {reception : Reception} {m : Message}
    (h : heard reception m.onWire ≠ []) : carried m ≠ [] := by
  obtain ⟨info, hinfo⟩ := List.exists_mem_of_ne_nil _ h
  obtain ⟨info', hinfo', -⟩ := mem_carried_onWire (mem_carried_of_mem_heard hinfo)
  exact List.ne_nil_of_mem hinfo'

/-! ## The simulation -/

/-- A gossip round is at the same place as the round of a network: it is being read, or its push is
among the messages that were sent. -/
def Gossiping.Follows (own : NodeId) (round : Option Round) (sent : List Message) :
    Gossiping → Prop
  | .idle => True
  | .reading _ pending push => round = some ⟨pending, push⟩
  | .pushing _ push => .gossipPush own push ∈ sent
  | .writing _ _ push => .gossipPush own push ∈ sent

namespace Fleet

variable {ι : Type}

/-- The nodes have the tables of a network, in which every message with records was sent. -/
structure Follows (s : Fleet ι) (net : Network ι) : Prop where
  clusters : net.clusters = s.clusters
  sent : ∀ m ∈ s.sent, carried m ≠ [] → m ∈ net.sent
  gossip : ∀ i, (s.gossip i).Follows (s.clusters i).localId (net.rounds i) net.sent

section
variable {s s' : Fleet ι} {net : Network ι} {state : Gossiping} {i : ι}

theorem follows_start (clusterName : ByteBuffer) (virtualNodes : Nat) (infos : ι → NodeInfo) :
    (start clusterName virtualNodes infos).Follows
      (Network.start clusterName virtualNodes infos) where
  clusters := rfl
  sent _ hm := absurd hm List.not_mem_nil
  gossip _ := trivial

/-- Nothing happens that the network would see. -/
theorem Follows.same (h : s.Follows net) (hclusters : s'.clusters = s.clusters)
    (hsent : ∀ m ∈ s'.sent, m ∈ s.sent ∨ carried m = [])
    (hgossip : s'.gossip = s.gossip) : s'.Follows net where
  clusters := h.clusters.trans hclusters.symm
  sent m hm hne := (hsent m hm).elim (fun hm => h.sent m hm hne) fun hnil => absurd hnil hne
  gossip i := by
    rw [hgossip, hclusters]
    exact h.gossip i

theorem follows_append {own : NodeId} {round : Option Round} {sent : List Message}
    (h : state.Follows own round sent) (more : List Message) :
    state.Follows own round (sent ++ more) := by
  cases state with
  | idle => trivial
  | reading => exact h
  | pushing => exact List.mem_append_left _ h
  | writing => exact List.mem_append_left _ h

/-- The network sends a message too. -/
theorem Follows.sends (h : s.Follows net) {more : List Message}
    (hclusters : s'.clusters = s.clusters) (hgossip : s'.gossip = s.gossip)
    (hsent : ∀ m ∈ s'.sent, m ∈ s.sent ∨ carried m = [] ∨ m ∈ more) :
    s'.Follows { net with sent := net.sent ++ more } where
  clusters := h.clusters.trans hclusters.symm
  sent m hm hne := by
    rcases hsent m hm with hm | hnil | hm
    · exact List.mem_append_left _ (h.sent m hm hne)
    · exact absurd hnil hne
    · exact List.mem_append_right _ hm
  gossip i := by
    rw [hgossip, hclusters]
    exact follows_append (h.gossip i) more

variable [DecidableEq ι]

/-- The gossip round of one node goes on, in the network too. -/
theorem Follows.round (h : s.Follows net) {round : Option Round} {more : List Message}
    (hstate : state.Follows (s.clusters i).localId round (net.sent ++ more)) :
    { s with gossip := Function.update s.gossip i state }.Follows
      { net with rounds := Function.update net.rounds i round, sent := net.sent ++ more } where
  clusters := h.clusters
  sent m hm hne := List.mem_append_left _ (h.sent m hm hne)
  gossip j := by
    show (Function.update s.gossip i state j).Follows _ (Function.update net.rounds i round j) _
    by_cases hj : j = i
    · subst hj
      rw [Function.update_self, Function.update_self]
      exact hstate
    · rw [Function.update_of_ne hj, Function.update_of_ne hj]
      exact follows_append (h.gossip j) more

/-- The gossip round of one node goes on, and the network does nothing. -/
theorem Follows.gossips (h : s.Follows net)
    (hstate : state.Follows (s.clusters i).localId (net.rounds i) net.sent) :
    { s with gossip := Function.update s.gossip i state }.Follows net where
  clusters := h.clusters
  sent := h.sent
  gossip j := by
    show (Function.update s.gossip i state j).Follows _ _ _
    by_cases hj : j = i
    · subst hj
      rw [Function.update_self]
      exact hstate
    · rw [Function.update_of_ne hj]
      exact h.gossip j

/-- A coroutine takes no records. -/
theorem Follows.perform_nothing (h : s.Follows net) {t : Nat} {now : Int} {effect : Effect}
    (hinfos : effect.infos = []) : (s.perform t i now effect).Follows net := by
  refine h.same ?_ (fun m hm => .inl ?_) (perform_gossip ..)
  · rw [perform_clusters, hinfos]
    exact Function.update_eq_self i s.clusters
  · rwa [perform_sent] at hm

/-- A coroutine takes the records of a message that the network delivers. -/
theorem Follows.perform_heard (h : s.Follows net) {t : Nat} {now : Int} {effect : Effect}
    {reception : Reception} {m : Message} {k : Nat} (hm : net.sent[k]? = some m)
    (hinfos : effect.infos = heard reception m.onWire) :
    (s.perform t i now effect).Follows (net.exec (.deliver i reception k)) := by
  have hexec : net.exec (.deliver i reception k) =
      net.give i (·.receive reception m.onWire) (heard reception m.onWire) := by
    rw [Network.exec, hm]
  rw [hexec]
  refine ⟨?_, ?_, ?_⟩
  · show Function.update net.clusters i _ = _
    rw [perform_clusters, hinfos, ← Cluster.receive_eq, h.clusters]
  · rw [perform_sent]
    exact h.sent
  · intro j
    rw [perform_gossip, perform_clusters]
    by_cases hj : j = i
    · subst hj
      rw [Function.update_self, Cluster.localId_handlePush]
      exact h.gossip j
    · rw [Function.update_of_ne hj]
      exact h.gossip j

/-- Every step of a coroutine is at most one event of the network, which publishes nothing. -/
theorem Follows.step {setting : Setting ι} (h : s.Follows net) (htraffic : s.Traffic)
    (hs : Step setting s s') :
    ∃ events : List (Event ι), (∀ i own, .publish i own ∉ events) ∧
      s'.Follows (events.foldl Network.exec net) := by
  have hnone : ∀ {s' : Fleet ι}, s'.Follows net → ∃ events : List (Event ι),
      (∀ i own, .publish i own ∉ events) ∧ s'.Follows (events.foldl Network.exec net) :=
    fun hs' => ⟨[], fun _ _ => List.not_mem_nil, hs'⟩
  have hone : ∀ {s' : Fleet ι} (event : Event ι), (∀ i own, event ≠ .publish i own) →
      s'.Follows (net.exec event) → ∃ events : List (Event ι),
      (∀ i own, .publish i own ∉ events) ∧ s'.Follows (events.foldl Network.exec net) :=
    fun event hevent hs' =>
      ⟨[event], fun i own hmem => hevent i own (List.mem_singleton.1 hmem).symm, hs'⟩
  cases hs with
  | seed | call | reuse | dial | answer | refused | adopt | leave | checkFailures | stop | listNodes
  | closeNext | passNext | stopped => exact hnone (h.same rfl (fun _ => .inl) rfl)
  | @send t i coroutine c m e timestamp ok now hat hout hw =>
    -- a `Hello` and a `HelloAck` are sent in the network too, a request has no records
    have hsends : ∀ more, carried m = [] ∨ m ∈ more →
        (s.send c m ok e).Follows { net with sent := net.sent ++ more } := by
      intro more hmore
      refine h.sends rfl rfl fun m' hm' => ?_
      rcases List.mem_append.1 hm' with hm' | hm'
      · exact .inl hm'
      · rw [List.mem_singleton.1 hm']
        exact .inr hmore
    cases coroutine with
    | greeting c' =>
      obtain ⟨m', hm', heq⟩ := Option.map_eq_some_iff.1 hout
      obtain ⟨rfl, rfl⟩ := Prod.mk.inj heq
      refine hone (.sendHello i) (fun _ _ heq => by cases heq)
        ((hsends _ (.inr ?_)).perform_nothing (Coroutine.infos_sent ..))
      rw [h.clusters, hm']
      exact List.mem_singleton_self _
    | welcoming c' =>
      obtain ⟨m', hm', heq⟩ := Option.map_eq_some_iff.1 hout
      obtain ⟨rfl, rfl⟩ := Prod.mk.inj heq
      refine hone (.sendHelloAck i) (fun _ _ heq => by cases heq)
        ((hsends _ (.inr ?_)).perform_nothing (Coroutine.infos_sent ..))
      rw [h.clusters, hm']
      exact List.mem_singleton_self _
    | requesting c' call =>
      obtain ⟨rfl, rfl⟩ := Prod.mk.inj (Option.some.inj hout)
      have hsame : (s.send c' call.request ok e).Follows net := by
        refine h.same rfl (fun m' hm' => ?_) rfl
        rcases List.mem_append.1 hm' with hm' | hm'
        · exact .inl hm'
        · rw [List.mem_singleton.1 hm']
          exact .inr (carried_request call)
      exact hnone (hsame.perform_nothing (Coroutine.infos_sent ..))
    | _ => cases hout
  | @receive t i coroutine c r e now hat hreads hr =>
    have hend : (s.setEnd c e).Follows net := h.same rfl (fun _ => .inl) rfl
    rcases ((htraffic.carries c).receives hr).2 with rfl | ⟨m, hm, rfl⟩
    · exact hnone (hend.perform_nothing (Coroutine.infos_getsNothing coroutine))
    · rcases coroutine.infos_gets m.onWire with hnil | ⟨reception, hheard⟩
      · exact hnone (hend.perform_nothing hnil)
      · by_cases hempty : heard reception m.onWire = []
        · exact hnone (hend.perform_nothing (hheard.trans hempty))
        · obtain ⟨k, hk⟩ := List.mem_iff_getElem?.1 (h.sent m hm (carried_ne_nil_of_heard hempty))
          exact hone (.deliver i reception k) (fun _ _ heq => by cases heq)
            (hend.perform_heard hk hheard)
  | @beginRound i shuffled hidle hothers =>
    have hexec : net.exec (.beginRound i) = { net with
        rounds := Function.update net.rounds i (some ⟨(s.clusters i).allNodes, []⟩)
        sent := net.sent ++ [] } := by
      rw [Network.exec, Network.openRound, h.clusters, if_neg (Nat.not_le.2 hothers),
        List.append_nil]
    refine hone (.beginRound i) (fun _ _ heq => by cases heq) ?_
    rw [hexec]
    exact h.round rfl
  | @readNode i targets pending id push hat =>
    have hround : net.rounds i = some ⟨id :: pending, push⟩ := by
      have hfollows := h.gossip i
      rw [hat] at hfollows
      exact hfollows
    have hexec : net.exec (.readNode i) = { net with
        rounds := Function.update net.rounds i
          (some ⟨pending, push ++ ((s.clusters i).nodes.lookup id).toList⟩)
        sent := net.sent ++ [] } := by
      rw [Network.exec, hround, h.clusters, List.append_nil]
    refine hone (.readNode i) (fun _ _ heq => by cases heq) ?_
    rw [hexec]
    exact h.round rfl
  | @prepared i targets push hat =>
    have hround : net.rounds i = some ⟨[], push⟩ := by
      have hfollows := h.gossip i
      rw [hat] at hfollows
      exact hfollows
    have hexec : net.exec (.sendPush i) = { net with
        rounds := Function.update net.rounds i none
        sent := net.sent ++ [.gossipPush (s.clusters i).localId push] } := by
      rw [Network.exec, hround, h.clusters]
    refine hone (.sendPush i) (fun _ _ heq => by cases heq) ?_
    rw [hexec]
    exact h.round (List.mem_append_right _ (List.mem_singleton_self _))
  | @skipTarget i id targets push hat | @pickTarget i id targets push _ hat =>
    have hfollows := h.gossip i
    rw [hat] at hfollows
    exact hnone (h.gossips hfollows)
  | @push i targets push c e timestamp ok hat hw =>
    have hfollows := h.gossip i
    rw [hat] at hfollows
    have hsend : (s.send c (.gossipPush (s.clusters i).localId push) ok e).Follows net := by
      refine ⟨h.clusters, fun m hm hne => ?_, h.gossip⟩
      rcases List.mem_append.1 hm with hm | hm
      · exact h.sent m hm hne
      · rw [List.mem_singleton.1 hm]
        exact hfollows
    exact hnone (hsend.gossips hfollows)
  | endRound => exact hnone (h.gossips trivial)

end

variable [DecidableEq ι] {setting : Setting ι} {clusterName : ByteBuffer} {virtualNodes : Nat}
  {infos : ι → NodeInfo} {s : Fleet ι}

/-- A run of the connections is matched by events of the network. -/
theorem Follows.run {s' : Fleet ι} {net : Network ι} (h : s.Follows net) (htraffic : s.Traffic)
    (hs : Relation.ReflTransGen (Step setting) s s') (hsend : ∀ m ∈ s'.sent, m.Sendable) :
    s'.Traffic ∧ ∃ events : List (Event ι), (∀ i own, .publish i own ∉ events) ∧
      s'.Follows (events.foldl Network.exec net) := by
  induction hs with
  | refl => exact ⟨htraffic, [], fun _ _ => List.not_mem_nil, h⟩
  | tail _ hstep ih =>
    obtain ⟨htraffic', events, hpublish, hfollows⟩ :=
      ih fun m hm => hsend m (hstep.sent_subset hm)
    obtain ⟨more, hmore, hfollows'⟩ := hfollows.step htraffic' hstep
    refine ⟨htraffic'.step hstep hsend, events ++ more, fun i own hmem => ?_, ?_⟩
    · rcases List.mem_append.1 hmem with hmem | hmem
      · exact hpublish i own hmem
      · exact hmore i own hmem
    · rw [List.foldl_append]
      exact hfollows'

/-- A state of the nodes has the tables of a run of the network without publications. -/
theorem exists_events (hs : Reachable setting clusterName virtualNodes infos s)
    (hsend : ∀ m ∈ s.sent, m.Sendable) :
    ∃ events : List (Event ι), (∀ i own, .publish i own ∉ events) ∧
      s.Follows (Network.after clusterName virtualNodes infos events) :=
  ((follows_start ..).run (traffic_start ..) hs hsend).2

/-- In such a run the records are those that the nodes were started with. -/
theorem exists_network (hs : Reachable setting clusterName virtualNodes infos s)
    (hsend : ∀ m ∈ s.sent, m.Sendable) :
    ∃ net : Network ι, net.Inv infos (fun info => ∃ owner, info = firstInfo (infos owner)) ∧
      s.Follows net := by
  obtain ⟨events, hpublish, hfollows⟩ := exists_events hs hsend
  refine ⟨_, Network.inv_after ?_ (fun i => ⟨i, rfl⟩) fun i own hown => ?_, hfollows⟩
  · rintro _ ⟨owner, rfl⟩
    rfl
  · exact absurd hown (hpublish i own)

/-- What a step does to the table of a node: it is handed some records. -/
theorem Step.clusters {s' : Fleet ι} (hs : Step setting s s') (i : ι) :
    ∃ push, s'.clusters i = (s.clusters i).handlePush push := by
  have hperform : ∀ (s : Fleet ι) (t : Nat) (j : ι) (now : Int) (effect : Effect),
      ∃ push, (s.perform t j now effect).clusters i = (s.clusters i).handlePush push := by
    intro s t j now effect
    rw [perform_clusters]
    by_cases hij : i = j
    · subst hij
      exact ⟨effect.infos, Function.update_self ..⟩
    · exact ⟨[], Function.update_of_ne hij ..⟩
  cases hs with
  | send => exact hperform ..
  | receive => exact hperform ..
  | _ => exact ⟨[], rfl⟩

end Fleet

namespace Cluster

/-- Nodes do not leave the ring. -/
theorem ring_subset_handlePush (c : Cluster) (push : List NodeInfo) :
    c.hashRing.nodes ⊆ (c.handlePush push).hashRing.nodes := by
  induction push generalizing c with
  | nil => exact Finset.Subset.refl _
  | cons info push ih =>
    refine Finset.Subset.trans ?_ (ih (c.handleNodeUpdate info))
    rw [handleNodeUpdate]
    split
    · exact Finset.Subset.refl _
    · intro id hid
      rw [mem_addNode]
      exact .inr hid

/-- When all records are active, so are all nodes. -/
theorem activeNodes_eq_allNodes {c : Cluster}
    (h : ∀ id info, c.table id = some info → info.state = activeState) :
    c.activeNodes = c.allNodes := by
  refine List.filter_eq_self.2 fun id hid => ?_
  obtain ⟨info, hinfo⟩ := Option.isSome_iff_exists.1 (AList.lookup_isSome.2 (AList.mem_keys.2 hid))
  rw [hinfo, Option.any_some, decide_eq_true_eq]
  exact h id info hinfo

end Cluster

namespace Fleet

variable {ι : Type} [DecidableEq ι] {setting : Setting ι} {clusterName : ByteBuffer}
  {virtualNodes : Nat} {infos : ι → NodeInfo} {s : Fleet ι}

end Fleet

end ElCache
