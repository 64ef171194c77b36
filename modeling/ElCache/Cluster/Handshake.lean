import ElCache.Cluster.Membership

/-!
# Handshakes

A node that connects to a seed sends a `Hello`, the seed takes over its record, gives the connection
to it and answers with a `HelloAck`, and the node does the same. Other coroutines may use the
connection as soon as the seed has given it away, and records may come from anywhere.

Still, `Hello` and `HelloAck` carry the record of the node at the other end, `Hello` only flows to
the end that was accepted, and `HelloAck` only after the record was taken over (`Introduces`). So a
node that serves a connection it has opened and the node at the other end know one another
(`handshake_mutual`), and the connection that a node holds for an id leads to the node with this id,
as long as addresses do (`connection_leads`).
-/

namespace ElCache

open Protocol Connection

/-- A node is in the ring after its record was handed over. -/
theorem Cluster.Holds.mem_ring {c : Cluster} {records : Set NodeInfo} (h : c.Holds records)
    {info : NodeInfo} {push : List NodeInfo} (hinfo : info ∈ push) :
    info.id ∈ (c.handlePush push).hashRing.nodes :=
  ((h.handlePush push).ring info.id).2 ((h.handlePush push).latest.covers info (.inr hinfo))

namespace Fleet

variable {ι : Type} {coroutine : Coroutine} {c : Conn} {i : ι} {m : Message} {t : Nat}

/-! ## What is known about the other end -/

/-- Node `i` has node `j` in its ring. -/
def Knows (infos : ι → NodeInfo) (s : Fleet ι) (i j : ι) : Prop :=
  (infos j).id ∈ (s.clusters i).hashRing.nodes

/-- The message that is under way to the end `c` introduces the node at the other end; a `HelloAck`
comes from a node that knows the one at `c`. -/
def Introduces (infos : ι → NodeInfo) (s : Fleet ι) (c : Conn) : Message → Prop
  | .hello sender _ _ =>
    c.opener = false ∧ ∃ j, s.node c.peer = some j ∧ sender.id = (infos j).id
  | .helloAck sender _ _ =>
    ∃ i j, s.node c = some i ∧ s.node c.peer = some j ∧ sender.id = (infos j).id ∧
      Knows infos s j i
  | _ => True

/-- The nodes at both ends know one another. -/
def Joined (infos : ι → NodeInfo) (s : Fleet ι) (c : Conn) : Prop :=
  ∃ i j, s.node c = some i ∧ s.node c.peer = some j ∧ Knows infos s i j ∧ Knows infos s j i

/-- A coroutine of node `i` uses an end at node `i`, and has got there by a handshake. -/
def Placed (infos : ι → NodeInfo) (s : Fleet ι) (i : ι) : Coroutine → Prop
  | .greeting c => c.opener = true ∧ s.node c = some i
  | .greeted c => c.opener = true ∧ s.node c = some i
  | .handling c => s.node c = some i ∧ (c.opener = true → Joined infos s c)
  | .welcoming c => c.opener = false ∧ s.node c = some i ∧
    ∃ j, s.node c.peer = some j ∧ Knows infos s i j
  | .serving c => s.node c = some i ∧ (c.opener = true → Joined infos s c)
  | .dialed c _ _ => s.node c = some i
  | .requesting c _ => s.node c = some i
  | .awaiting c _ => s.node c = some i
  | _ => True

/-- A later state has the connections and the nodes in the rings that this one has. -/
structure Extends (s s' : Fleet ι) : Prop where
  node : ∀ {c i}, s.node c = some i → s'.node c = some i
  ring : ∀ i, (s.clusters i).hashRing.nodes ⊆ (s'.clusters i).hashRing.nodes

section
variable {infos : ι → NodeInfo} {s s' : Fleet ι}

theorem Extends.of_links (hlinks : s.links <+: s'.links)
    (hring : ∀ i, (s.clusters i).hashRing.nodes ⊆ (s'.clusters i).hashRing.nodes) :
    s.Extends s' where
  node {c i} h := by
    obtain ⟨l, hl, rfl⟩ := Option.map_eq_some_iff.1 h
    obtain ⟨more, hmore⟩ := hlinks
    rw [Fleet.node, ← hmore, List.getElem?_append_left (List.getElem?_eq_some_iff.1 hl).1, hl]
    rfl
  ring := hring

theorem Extends.introduces (h : s.Extends s') (hm : Introduces infos s c m) :
    Introduces infos s' c m := by
  cases m with
  | hello =>
    obtain ⟨hopener, j, hj, hid⟩ := hm
    exact ⟨hopener, j, h.node hj, hid⟩
  | helloAck =>
    obtain ⟨i, j, hi, hj, hid, hknows⟩ := hm
    exact ⟨i, j, h.node hi, h.node hj, hid, h.ring j hknows⟩
  | _ => trivial

theorem introduces_onWire (hm : Introduces infos s c m) : Introduces infos s c m.onWire := by
  cases m with
  | hello | helloAck => exact hm
  | _ => trivial

theorem Extends.joined (h : s.Extends s') (hc : Joined infos s c) : Joined infos s' c := by
  obtain ⟨i, j, hi, hj, hij, hji⟩ := hc
  exact ⟨i, j, h.node hi, h.node hj, h.ring i hij, h.ring j hji⟩

theorem Extends.placed (h : s.Extends s') (hp : Placed infos s i coroutine) :
    Placed infos s' i coroutine := by
  cases coroutine with
  | greeting | greeted => exact ⟨hp.1, h.node hp.2⟩
  | handling | serving => exact ⟨h.node hp.1, fun ho => h.joined (hp.2 ho)⟩
  | welcoming =>
    obtain ⟨hopener, hi, j, hj, hknows⟩ := hp
    exact ⟨hopener, h.node hi, j, h.node hj, h.ring i hknows⟩
  | dialed | requesting | awaiting => exact h.node hp
  | calling | dialing | returned | stopping | closing | done => trivial

end

/-- Coroutines, connections, pushes and messages are where they should be. -/
structure Handshakes (infos : ι → NodeInfo) (s : Fleet ι) : Prop where
  placed : ∀ x ∈ s.coroutines, Placed infos s x.1 x.2
  connection : ∀ i id c, s.connection i id = some c → s.node c = some i
  writing : ∀ i c targets push, s.gossip i = .writing c targets push → s.node c = some i
  carries : ∀ c, (s.ends c).Carries (Introduces infos s c)

/-- A node has its own record under its own id, and holds the records it was handed. -/
structure Tables (infos : ι → NodeInfo) (s : Fleet ι) : Prop where
  own : ∀ i info, (s.clusters i).localInfo = some info → info.id = (infos i).id
  holds : ∀ i, ∃ records, (s.clusters i).Holds records

section
variable {infos : ι → NodeInfo} {s s' : Fleet ι}

/-! ## Steps -/

/-- The ends of a connection that has just been made. -/
theorem node_fresh (s : Fleet ι) (i j : ι) : (s.connect i j).node s.fresh = some i := by
  show (s.links ++ [(i, j)])[s.links.length]?.map _ = _
  rw [List.getElem?_concat_length]
  rfl

theorem node_fresh_peer (s : Fleet ι) (i j : ι) : (s.connect i j).node s.fresh.peer = some j := by
  show (s.links ++ [(i, j)])[s.links.length]?.map _ = _
  rw [List.getElem?_concat_length]
  rfl

/-- What a coroutine that sends has in the message. -/
theorem Tables.introduces_outgoing (htables : s.Tables infos) (hp : Placed infos s i coroutine)
    (hout : coroutine.outgoing (s.clusters i) = some (c, m)) :
    s.node c = some i ∧ Introduces infos s c.peer m := by
  cases coroutine with
  | greeting c' =>
    obtain ⟨m', hm', heq⟩ := Option.map_eq_some_iff.1 hout
    obtain ⟨rfl, rfl⟩ := Prod.mk.inj heq
    obtain ⟨info, hinfo, rfl⟩ := Option.map_eq_some_iff.1 hm'
    obtain ⟨hopener, hnode⟩ := hp
    refine ⟨hnode, ?_, i, ?_, htables.own i info hinfo⟩
    · rw [Conn.peer, hopener]
      rfl
    · rw [Conn.peer_peer]
      exact hnode
  | welcoming c' =>
    obtain ⟨m', hm', heq⟩ := Option.map_eq_some_iff.1 hout
    obtain ⟨rfl, rfl⟩ := Prod.mk.inj heq
    obtain ⟨info, hinfo, rfl⟩ := Option.map_eq_some_iff.1 hm'
    obtain ⟨hopener, hnode, j, hj, hknows⟩ := hp
    refine ⟨hnode, j, i, hj, ?_, htables.own i info hinfo, hknows⟩
    rw [Conn.peer_peer]
    exact hnode
  | requesting c' call =>
    obtain ⟨rfl, rfl⟩ := Prod.mk.inj (Option.some.inj hout)
    refine ⟨hp, ?_⟩
    cases call <;> trivial
  | _ => cases hout

/-- After a send the coroutine is still at the same end. -/
theorem placed_sent (hp : Placed infos s i coroutine) (ok : Bool) :
    Placed infos s i (coroutine.sent ok).next := by
  cases coroutine with
  | greeting | requesting =>
    cases ok with
    | true => exact hp
    | false => trivial
  | welcoming c =>
    obtain ⟨hopener, hnode, -⟩ := hp
    refine ⟨hnode, fun ho => ?_⟩
    rw [hopener] at ho
    cases ho
  | _ => exact hp

theorem connects_sent (coroutine : Coroutine) (ok : Bool) :
    (coroutine.sent ok).connects = none := by
  cases coroutine <;> cases ok <;> rfl

theorem connects_getsNothing (coroutine : Coroutine) : coroutine.getsNothing.connects = none := by
  cases coroutine <;> rfl

theorem placed_getsNothing (hp : Placed infos s i coroutine) :
    Placed infos s i coroutine.getsNothing.next := by
  cases coroutine with
  | greeted | handling | serving | awaiting => trivial
  | _ => exact hp

/-- What a coroutine does with a message that introduces the node at the other end: it is placed
afterwards, when the node has taken over the records, and the connection it gives to an id is its
own and leads to the node with this id. -/
theorem placed_gets (hp : Placed infos s i coroutine) (hreads : coroutine.reads = some c)
    (hm : Introduces infos s c m) (hextends : s.Extends s')
    (htaken : ∀ info ∈ (coroutine.gets m).infos,
      info.id ∈ (s'.clusters i).hashRing.nodes) :
    Placed infos s' i (coroutine.gets m).next ∧
      ∀ id c', (coroutine.gets m).connects = some (id, c') →
        s'.node c' = some i ∧ ∃ j, s'.node c'.peer = some j ∧ (infos j).id = id := by
  cases coroutine with
  | greeted c₀ =>
    cases Option.some.inj hreads
    obtain ⟨hopener, hnode⟩ := hp
    cases m with
    | helloAck sender accepted reason =>
      cases accepted with
      | false => exact ⟨trivial, fun _ _ h => by cases h⟩
      | true =>
        obtain ⟨i', j, hi', hj, hid, hknows⟩ := hm
        rw [hnode] at hi'
        cases hi'
        have hij : Knows infos s' i j := by
          rw [Knows, ← hid]
          exact htaken sender (List.mem_singleton_self _)
        refine ⟨⟨hextends.node hnode, fun _ => ⟨i, j, hextends.node hnode, hextends.node hj, hij,
          hextends.ring j hknows⟩⟩, ?_⟩
        rintro id c' h
        obtain ⟨rfl, rfl⟩ := Prod.mk.inj (Option.some.inj h)
        exact ⟨hextends.node hnode, j, hextends.node hj, hid.symm⟩
    | _ => exact ⟨trivial, fun _ _ h => by cases h⟩
  | handling c₀ =>
    cases Option.some.inj hreads
    obtain ⟨hnode, hjoined⟩ := hp
    cases m with
    | hello sender name capabilities =>
      obtain ⟨hopener, j, hj, hid⟩ := hm
      have hij : Knows infos s' i j := by
        rw [Knows, ← hid]
        exact htaken sender (List.mem_singleton_self _)
      refine ⟨⟨hopener, hextends.node hnode, j, hextends.node hj, hij⟩, ?_⟩
      rintro id c' h
      obtain ⟨rfl, rfl⟩ := Prod.mk.inj (Option.some.inj h)
      exact ⟨hextends.node hnode, j, hextends.node hj, hid.symm⟩
    | _ =>
      exact ⟨⟨hextends.node hnode, fun ho => hextends.joined (hjoined ho)⟩,
        fun _ _ h => by cases h⟩
  | serving c₀ =>
    obtain ⟨hnode, hjoined⟩ := hp
    cases m <;> exact ⟨⟨hextends.node hnode, fun ho => hextends.joined (hjoined ho)⟩,
      fun _ _ h => by cases h⟩
  | awaiting => exact ⟨trivial, fun _ _ h => by cases h⟩
  | _ => cases hreads

/-- What is to be shown about a later state. -/
theorem Handshakes.extend (h : s.Handshakes infos) (hextends : s.Extends s')
    (hplaced : ∀ x ∈ s'.coroutines, x ∈ s.coroutines ∨ Placed infos s' x.1 x.2)
    (hconnection : ∀ i id c, s'.connection i id = some c →
      s.connection i id = some c ∨ s'.node c = some i)
    (hwriting : ∀ i c targets push, s'.gossip i = .writing c targets push →
      s.gossip i = .writing c targets push ∨ s'.node c = some i)
    (hcarries : ∀ c, (s'.ends c).Carries (Introduces infos s' c)) : s'.Handshakes infos where
  placed x hx := (hplaced x hx).elim (fun hx => hextends.placed (h.placed x hx)) id
  connection i key c hc :=
    (hconnection i key c hc).elim (fun hc => hextends.node (h.connection i key c hc)) id
  writing i c targets push hw :=
    (hwriting i c targets push hw).elim
      (fun hw => hextends.node (h.writing i c targets push hw)) id
  carries := hcarries

/-- A coroutine that is set in place of an old one is placed, if the new one is. -/
theorem placed_set (hp : Placed infos s' i coroutine) :
    ∀ x ∈ s.coroutines.set t (i, coroutine), x ∈ s.coroutines ∨ Placed infos s' x.1 x.2 := by
  intro x hx
  rcases List.mem_or_eq_of_mem_set hx with hx | rfl
  · exact .inl hx
  · exact .inr hp

/-- What is under way stays introduced in a later state, where more is known. -/
theorem Handshakes.carries_later (h : s.Handshakes infos) (hextends : s.Extends s') (c : Conn) :
    (s.ends c).Carries (Introduces infos s' c) :=
  (h.carries c).mono fun _ => hextends.introduces

/-- A step that only sets a coroutine, which is placed afterwards. -/
theorem Handshakes.become (h : s.Handshakes infos) (hextends : s.Extends s')
    (hcoroutines : s'.coroutines = s.coroutines.set t (i, coroutine))
    (hp : Placed infos s' i coroutine) (hconnection : s'.connection = s.connection)
    (hgossip : s'.gossip = s.gossip) (hcarries : ∀ c, (s'.ends c).Carries (Introduces infos s' c)) :
    s'.Handshakes infos := by
  refine h.extend hextends ?_ ?_ ?_ hcarries
  · rw [hcoroutines]
    exact placed_set hp
  · rw [hconnection]
    exact fun _ _ _ => .inl
  · rw [hgossip]
    exact fun _ _ _ _ => .inl

end

section
variable [DecidableEq ι] {setting : Setting ι} {infos : ι → NodeInfo} {s s' : Fleet ι} {e : End}
  {clusterName : ByteBuffer} {r : Connection.Received} {virtualNodes : Nat}

theorem Step.extends (hs : Step setting s s') : s.Extends s' := by
  refine .of_links ?_ fun i => ?_
  · cases hs with
    | seed | answer => exact List.prefix_append _ _
    | send | receive =>
      rw [perform_links]
      exact List.prefix_refl _
    | _ => exact List.prefix_refl _
  · obtain ⟨push, hpush⟩ := hs.clusters i
    rw [hpush]
    exact Cluster.ring_subset_handlePush _ push

/-- A connection found in the table was there before or is the new one. -/
theorem setConnection_eq_some {i' : ι} {id id' : NodeId} {c' : Conn}
    (h : (s.setConnection i id c).connection i' id' = some c') :
    s.connection i' id' = some c' ∨ i' = i ∧ id' = id ∧ c' = c := by
  rw [show (s.setConnection i id c).connection i' id' = Function.update s.connection i
    (Function.update (s.connection i) id (some c)) i' id' from rfl] at h
  by_cases hi : i' = i
  · subst hi
    rw [Function.update_self] at h
    by_cases hid : id' = id
    · subst hid
      rw [Function.update_self] at h
      exact .inr ⟨rfl, rfl, (Option.some.inj h).symm⟩
    · rw [Function.update_of_ne hid] at h
      exact .inl h
  · rw [Function.update_of_ne hi] at h
    exact .inl h

theorem gossip_eq_writing {j : ι} (state : Gossiping) {targets : List NodeId} {push : List NodeInfo}
    (h : Function.update s.gossip i state j = .writing c targets push) :
    s.gossip j = .writing c targets push ∨ j = i ∧ state = .writing c targets push := by
  by_cases hj : j = i
  · subst hj
    rw [Function.update_self] at h
    exact .inr ⟨rfl, h⟩
  · rw [Function.update_of_ne hj] at h
    exact .inl h

/-- What a coroutine does after a receive on an end to which introductions are under way. -/
theorem Tables.placed_received (htables : s.Tables infos) (hp : Placed infos s i coroutine)
    (hreads : coroutine.reads = some c)
    (hr : r = .nothing ∨ ∃ m, Introduces infos s c m ∧ r = .message m.onWire) (now : Int) (t : Nat)
    (hs' : s' = (s.setEnd c e).perform t i now (coroutine.received r)) :
    Placed infos s' i (coroutine.received r).next ∧
      ∀ id c', (coroutine.received r).connects = some (id, c') →
        s'.node c' = some i ∧ ∃ j, s'.node c'.peer = some j ∧ (infos j).id = id := by
  have hclusters : s'.clusters i = (s.clusters i).handlePush (coroutine.received r).infos := by
    rw [hs', perform_clusters]
    exact Function.update_self ..
  have hextends : s.Extends s' := by
    refine .of_links ?_ fun j => ?_
    · rw [hs', perform_links]
      exact List.prefix_refl _
    · rw [hs', perform_clusters]
      show _ ⊆ (Function.update s.clusters i _ j).hashRing.nodes
      by_cases hj : j = i
      · subst hj
        rw [Function.update_self]
        exact Cluster.ring_subset_handlePush _ _
      · rw [Function.update_of_ne hj]
  rcases hr with rfl | ⟨m, hm, rfl⟩
  · refine ⟨hextends.placed (placed_getsNothing hp), fun _ _ hc => ?_⟩
    have hnone : (coroutine.received .nothing).connects = none := connects_getsNothing coroutine
    rw [hnone] at hc
    cases hc
  · refine placed_gets hp hreads (introduces_onWire hm) hextends fun info hinfo => ?_
    obtain ⟨records, hrecords⟩ := htables.holds i
    rw [hclusters]
    exact hrecords.mem_ring hinfo

/-- A coroutine sends a message: the message introduces its node, which stands at this end. -/
theorem Handshakes.step_send (h : s.Handshakes infos) (htables : s.Tables infos)
    {timestamp : UInt64} {ok : Bool} {now : Int} (hat : s.coroutines[t]? = some (i, coroutine))
    (hout : coroutine.outgoing (s.clusters i) = some (c, m))
    (hw : End.Written (encode timestamp m 0) (s.ends c.peer) ok e) (hsendable : m.Sendable)
    (hs' : s' = (s.send c m ok e).perform t i now (coroutine.sent ok)) (hextends : s.Extends s') :
    s'.Handshakes infos := by
  have hplaced : Placed infos s i coroutine := h.placed _ (List.mem_of_getElem? hat)
  obtain ⟨-, hm⟩ := htables.introduces_outgoing hplaced hout
  refine h.become (t := t) hextends ?_ (hextends.placed (placed_sent hplaced ok)) ?_ ?_
    fun c' => ?_
  · rw [hs', perform_coroutines]
    rfl
  · rw [hs', perform_connection, connects_sent]
    rfl
  · rw [hs', perform_gossip]
    rfl
  · have hfar := carries_send (h.carries_later hextends) (hextends.introduces hm) hsendable hw c'
    rw [hs'] at hfar ⊢
    exact carries_perform hfar _

/-- A coroutine receives: what it gives to a node and where it goes on fits the node at the other
end, because the message introduces it. -/
theorem Handshakes.step_receive (h : s.Handshakes infos) (htables : s.Tables infos) {now : Int}
    (hat : s.coroutines[t]? = some (i, coroutine)) (hreads : coroutine.reads = some c)
    (hr : End.Receives (s.ends c) r e)
    (hs' : s' = (s.setEnd c e).perform t i now (coroutine.received r)) (hextends : s.Extends s') :
    s'.Handshakes infos := by
  have hplaced : Placed infos s i coroutine := h.placed _ (List.mem_of_getElem? hat)
  obtain ⟨hend, hresult⟩ := (h.carries c).receives hr
  obtain ⟨hnext, hconnects⟩ := htables.placed_received hplaced hreads hresult now t hs'
  have hcarries : ∀ c', (s'.ends c').Carries (Introduces infos s' c') := by
    intro c'
    have hset : ((s.setEnd c e).ends c').Carries (Introduces infos s' c') := by
      refine carries_setEnd (h.carries_later hextends c') ?_
      rintro rfl
      exact hend.mono fun _ => hextends.introduces
    rw [hs'] at hset ⊢
    exact carries_perform hset _
  refine h.extend hextends ?_ (fun i' id' c' hc => ?_) ?_ hcarries
  · rw [hs', perform_coroutines, ← hs']
    exact placed_set hnext
  · rw [hs', perform_connection] at hc
    cases hlink : (coroutine.received r).connects with
    | none =>
      rw [hlink] at hc
      exact .inl hc
    | some link =>
      rw [hlink] at hc
      rcases setConnection_eq_some hc with hc | ⟨rfl, rfl, rfl⟩
      · exact .inl hc
      · exact .inr (hconnects _ _ hlink).1
  · rw [hs', perform_gossip]
    exact fun _ _ _ _ => .inl

/-- One step of the gossip round of a node: only a target that is picked has to be looked at. -/
theorem Handshakes.gossips (h : s.Handshakes infos) (hextends : s.Extends s') {state : Gossiping}
    (hgossip : s'.gossip = Function.update s.gossip i state)
    (hstate : ∀ c targets push, state = .writing c targets push → s'.node c = some i)
    (hcoroutines : s'.coroutines = s.coroutines) (hconnection : s'.connection = s.connection)
    (hcarries : ∀ c, (s'.ends c).Carries (Introduces infos s' c)) : s'.Handshakes infos := by
  refine h.extend hextends ?_ ?_ (fun i' c targets push hw => ?_) hcarries
  · rw [hcoroutines]
    exact fun _ => .inl
  · rw [hconnection]
    exact fun _ _ _ => .inl
  · rw [hgossip] at hw
    rcases gossip_eq_writing state hw with hold | ⟨rfl, hnew⟩
    · exact .inl hold
    · exact .inr (hstate c targets push hnew)

/-- Every step keeps coroutines, connections, pushes and messages where they should be. A new
connection is at the two nodes that it connects; all that is introduced was introduced before, or is
introduced by the coroutine that sends. -/
theorem Handshakes.step (h : s.Handshakes infos) (htables : s.Tables infos)
    (hs : Step setting s s') (hsend : ∀ m ∈ s'.sent, m.Sendable) : s'.Handshakes infos := by
  have hextends := hs.extends
  have hcarries := h.carries_later hextends
  cases hs with
  | seed i j =>
    refine h.extend hextends (fun x hx => ?_) (fun _ _ _ => .inl) (fun _ _ _ _ => .inl) hcarries
    rcases mem_spawn hx with hx | rfl
    · rcases mem_spawn hx with hx | rfl
      · exact .inl hx
      · exact .inr ⟨node_fresh_peer s i j, fun ho => by cases ho⟩
    · exact .inr ⟨rfl, node_fresh s i j⟩
  | call | stop =>
    refine h.extend hextends (fun x hx => ?_) (fun _ _ _ => .inl) (fun _ _ _ _ => .inl) hcarries
    rcases mem_spawn hx with hx | rfl
    · exact .inl hx
    · exact .inr trivial
  | reuse hat hfound hup =>
    exact h.become hextends rfl (h.connection _ _ _ hfound) rfl rfl hcarries
  | dial | refused | listNodes | passNext | stopped =>
    exact h.become hextends rfl trivial rfl rfl hcarries
  | @answer t i j =>
    refine h.extend hextends (fun x hx => ?_) (fun _ _ _ => .inl) (fun _ _ _ _ => .inl) hcarries
    rcases List.mem_or_eq_of_mem_set hx with hx | rfl
    · rcases mem_spawn hx with hx | rfl
      · exact .inl hx
      · exact .inr ⟨node_fresh_peer s i j, fun ho => by cases ho⟩
    · exact .inr (node_fresh s i j)
  | adopt hat =>
    have hnode := h.placed _ (List.mem_of_getElem? hat)
    refine h.extend hextends (placed_set hnode) (fun i' id' c' hc => ?_) (fun _ _ _ _ => .inl)
      hcarries
    rcases setConnection_eq_some hc with hc | ⟨rfl, rfl, rfl⟩
    · exact .inl hc
    · exact .inr hnode
  | @send t i coroutine c m e timestamp ok now hat hout hw =>
    have hsendable : m.Sendable := by
      refine hsend m ?_
      rw [perform_sent]
      exact List.mem_append_right _ List.mem_cons_self
    exact h.step_send htables hat hout hw hsendable rfl hextends
  | receive now hat hreads hr => exact h.step_receive htables hat hreads hr rfl hextends
  | leave | closeNext =>
    exact h.become hextends rfl trivial rfl rfl fun c => carries_close (hcarries c) _
  | beginRound | readNode | prepared | skipTarget | endRound =>
    exact h.gossips hextends rfl (fun _ _ _ hw => by cases hw) rfl rfl hcarries
  | pickTarget hat hother hfound hup =>
    refine h.gossips hextends rfl (fun c targets push hw => ?_) rfl rfl hcarries
    cases hw
    exact h.connection _ _ _ hfound
  | push timestamp ok hat hw =>
    have hsendable := hsend _ (List.mem_append_right _ List.mem_cons_self)
    exact h.gossips hextends rfl (fun _ _ _ hw => by cases hw) rfl rfl
      fun c' => carries_send hcarries (by trivial) hsendable hw c'
  | checkFailures =>
    exact h.extend hextends (fun _ => .inl) (fun _ _ _ => .inl) (fun _ _ _ _ => .inl) hcarries

/-- The tables in every run. -/
theorem tables_of_reachable (hs : Reachable setting clusterName virtualNodes infos s)
    (hsend : ∀ m ∈ s.sent, m.Sendable) : s.Tables infos := by
  obtain ⟨net, hinv, hfollows⟩ := exists_network hs hsend
  constructor
  · intro i info hinfo
    rw [← hfollows.clusters] at hinfo
    rw [← hinv.localId i]
    exact ((hinv.holds i).latest.highest _ _ hinfo).2.1
  · intro i
    rw [← hfollows.clusters]
    exact ⟨_, hinv.holds i⟩

theorem handshakes_of_reachable (hs : Reachable setting clusterName virtualNodes infos s)
    (hsend : ∀ m ∈ s.sent, m.Sendable) : s.Handshakes infos := by
  induction hs with
  | refl =>
    refine ⟨fun _ hx => absurd hx List.not_mem_nil, ?_, ?_, fun _ => End.carries_new⟩
    · intro _ _ _ hc
      cases hc
    · intro _ _ _ _ hw
      cases hw
  | tail hreach hstep ih =>
    have hbefore := fun m hm => hsend m (hstep.sent_subset hm)
    exact (ih hbefore).step (tables_of_reachable hreach hbefore) hstep hsend

end

/-! ## Where a connection leads -/

section
variable {setting : Setting ι} {infos : ι → NodeInfo} {s s' : Fleet ι}

/-- The end is of a connection to the node with this id. -/
def LeadsTo (infos : ι → NodeInfo) (s : Fleet ι) (id : NodeId) (c : Conn) : Prop :=
  ∃ j, s.node c.peer = some j ∧ (infos j).id = id

/-- A coroutine that connects to the node with an id has the address of this node, and then a
connection to it. -/
def Directed (setting : Setting ι) (infos : ι → NodeInfo) (s : Fleet ι) : Coroutine → Prop
  | .dialing id address port _ => ∀ j, setting.listens address port j → (infos j).id = id
  | .dialed c id _ => s.LeadsTo infos id c
  | _ => True

/-- The connection that a node holds for an id leads to the node with the id, and so does one that
it is about to give to it. -/
structure Leads (setting : Setting ι) (infos : ι → NodeInfo) (s : Fleet ι) : Prop where
  connection : ∀ i id c, s.connection i id = some c → s.LeadsTo infos id c
  coroutines : ∀ x ∈ s.coroutines, Directed setting infos s x.2

theorem Extends.leadsTo (h : s.Extends s') {id : NodeId} (hc : s.LeadsTo infos id c) :
    s'.LeadsTo infos id c := by
  obtain ⟨j, hj, hid⟩ := hc
  exact ⟨j, h.node hj, hid⟩

theorem Extends.directed (h : s.Extends s') (hc : Directed setting infos s coroutine) :
    Directed setting infos s' coroutine := by
  cases coroutine with
  | dialing => exact hc
  | dialed => exact h.leadsTo hc
  | _ => trivial

/-- What is to be shown about a later state. -/
theorem Leads.extend (h : s.Leads setting infos) (hextends : s.Extends s')
    (hconnection : ∀ i id c, s'.connection i id = some c →
      s.connection i id = some c ∨ s'.LeadsTo infos id c)
    (hcoroutines : ∀ x ∈ s'.coroutines, x ∈ s.coroutines ∨ Directed setting infos s' x.2) :
    s'.Leads setting infos where
  connection i key c hc :=
    (hconnection i key c hc).elim (fun hc => hextends.leadsTo (h.connection i key c hc)) id
  coroutines x hx := (hcoroutines x hx).elim (fun hx => hextends.directed (h.coroutines x hx)) id

/-- A send or a receive does not make a coroutine connect. -/
theorem directed_sent (hc : Directed setting infos s coroutine) (ok : Bool) :
    Directed setting infos s (coroutine.sent ok).next := by
  cases coroutine with
  | greeting | requesting => cases ok <;> trivial
  | welcoming => trivial
  | _ => exact hc

/-- After a receive, whatever has arrived, a coroutine does not connect. -/
theorem directed_received (hreads : coroutine.reads = some c) (r : Connection.Received) :
    Directed setting infos s (coroutine.received r).next := by
  cases r with
  | thrown | fault => trivial
  | nothing => cases coroutine <;> trivial
  | message m =>
    show Directed setting infos s (coroutine.gets m).next
    cases coroutine with
    | greeted =>
      cases m with
      | helloAck sender accepted => cases accepted <;> trivial
      | _ => trivial
    | handling => cases m <;> trivial
    | serving => cases m <;> trivial
    | awaiting => trivial
    | _ => cases hreads

/-- A coroutine that is set in place of an old one is directed, if the new one is. -/
theorem directed_set (hd : Directed setting infos s' coroutine) :
    ∀ x ∈ s.coroutines.set t (i, coroutine),
      x ∈ s.coroutines ∨ Directed setting infos s' x.2 := by
  intro x hx
  rcases List.mem_or_eq_of_mem_set hx with hx | rfl
  · exact .inl hx
  · exact .inr hd

end

section
variable [DecidableEq ι] {setting : Setting ι} {infos : ι → NodeInfo} {s s' : Fleet ι}

/-- Every step keeps the connections pointed at their nodes, provided that the addresses in the
tables are: a call takes the address from the record of the node it wants, the connection it makes
leads to whoever listens there, and a handshake gives a connection to the node it introduces. -/
theorem Leads.step (h : s.Leads setting infos) (hhandshakes : s.Handshakes infos)
    (htables : s.Tables infos) (hs : Step setting s s')
    (hrecords : ∀ i id info j, (s.clusters i).table id = some info →
      setting.listens info.address info.port j → (infos j).id = id) : s'.Leads setting infos := by
  have hextends := hs.extends
  have hsame : s'.connection = s.connection → ∀ i id c, s'.connection i id = some c →
      s.connection i id = some c ∨ s'.LeadsTo infos id c := by
    intro heq i id c hc
    rw [heq] at hc
    exact .inl hc
  cases hs with
  | seed =>
    refine h.extend hextends (hsame rfl) fun x hx => ?_
    rcases mem_spawn hx with hx | rfl
    · rcases mem_spawn hx with hx | rfl
      · exact .inl hx
      · exact .inr trivial
    · exact .inr trivial
  | call | stop =>
    refine h.extend hextends (hsame rfl) fun x hx => ?_
    rcases mem_spawn hx with hx | rfl
    · exact .inl hx
    · exact .inr trivial
  | reuse | refused | leave | listNodes | closeNext | passNext | stopped =>
    exact h.extend hextends (hsame rfl) (directed_set trivial)
  | @dial t i id call info hat hlost hrecord =>
    exact h.extend hextends (hsame rfl) (directed_set fun j => hrecords i id info j hrecord)
  | @answer t i j id address port call hat hlistens hup =>
    have hdirected : Directed setting infos s (.dialing id address port call) :=
      h.coroutines _ (List.mem_of_getElem? hat)
    refine h.extend hextends (hsame rfl) fun x hx => ?_
    rcases List.mem_or_eq_of_mem_set hx with hx | rfl
    · rcases mem_spawn hx with hx | rfl
      · exact .inl hx
      · exact .inr trivial
    · exact .inr ⟨j, node_fresh_peer s i j, hdirected j hlistens⟩
  | @adopt t i c id call hat =>
    have hleads : s.LeadsTo infos id c := h.coroutines _ (List.mem_of_getElem? hat)
    refine h.extend hextends (fun i' id' c' hc => ?_) (directed_set trivial)
    rcases setConnection_eq_some hc with hc | ⟨rfl, rfl, rfl⟩
    · exact .inl hc
    · exact .inr (hextends.leadsTo hleads)
  | @send t i coroutine c m e timestamp ok now hat hout hw =>
    refine h.extend hextends (hsame ?_) ?_
    · rw [perform_connection, connects_sent]
      rfl
    · rw [perform_coroutines]
      exact directed_set (hextends.directed
        (directed_sent (h.coroutines _ (List.mem_of_getElem? hat)) ok))
  | @receive t i coroutine c r e now hat hreads hr =>
    have hplaced : Placed infos s i coroutine := hhandshakes.placed _ (List.mem_of_getElem? hat)
    obtain ⟨-, hconnects⟩ := htables.placed_received hplaced hreads
      ((hhandshakes.carries c).receives hr).2 now t rfl
    refine h.extend hextends (fun i' id' c' hc => ?_) ?_
    · rw [perform_connection] at hc
      cases hlink : (coroutine.received r).connects with
      | none =>
        rw [hlink] at hc
        exact .inl hc
      | some link =>
        rw [hlink] at hc
        rcases setConnection_eq_some hc with hc | ⟨rfl, rfl, rfl⟩
        · exact .inl hc
        · exact .inr (hconnects _ _ hlink).2
    · rw [perform_coroutines]
      exact directed_set (directed_received hreads r)
  | beginRound | readNode | prepared | skipTarget | pickTarget | push | endRound | checkFailures =>
    exact h.extend hextends (hsame rfl) fun _ => .inl

end

end Fleet

end ElCache
