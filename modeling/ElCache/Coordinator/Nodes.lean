import ElCache.Cluster.Answers
import ElCache.Coordinator.Absent
import ElCache.Lib.Part

/-!
# The coordinators of a cluster

Each node of a cluster has a coordinator, which asks its peers for what its own levels do not have
and which sends them what is put and removed. The cluster has no access to the coordinator of the
node it runs on, and no peer answers (`Fleet.isResponse_of_returned`). So what a node serves is what
was put into this node: in every interleaving of the calls of all nodes, a key that was never put
into a node is not there, whatever the other nodes hold (`keys_stay_local`).

The calls of peers that a `put` and a `remove` make are calls in the fleet like any other, and their
results are dropped.
-/

namespace ElCache

namespace CacheCoordinator

/-- What the operation of node `i` sees of each peer that it asks is what a call of this node has
returned in the fleet. -/
def Operation.SeenIn {ι : Type} (s : Fleet ι) (i : ι) : Operation → Prop
  | .get env key opts => ∀ cluster, env.cluster = some cluster →
      ∀ node ∈ cluster.nodesForKey key, node ≠ cluster.localNode →
        ∃ ending, (i, .returned (.get key opts.range) ending) ∈ s.coroutines ∧
          cluster.remoteGet node key opts = ending.remoteGet
  | .check cluster key range => ∀ view, cluster = some view →
      ∀ node ∈ view.nodesForKey key, node ≠ view.localNode →
        ∃ ending, (i, .returned (.check key range) ending) ∈ s.coroutines ∧
          view.remoteCheck node key range = ending.remoteCheck
  | _ => True

section
variable {ι κ : Type} [DecidableEq ι] [DecidableEq κ] {setting : Setting ι}
  {clusterName : ByteBuffer} {virtualNodes : Nat} {infos : ι → Protocol.NodeInfo} {s : Fleet ι}

/-- What is seen of peers in a run of the fleet is that they do not have the key. -/
theorem Operation.SeenIn.unanswered {i : ι} {op : Operation}
    (hs : Fleet.Reachable setting clusterName virtualNodes infos s)
    (hsend : ∀ m ∈ s.sent, m.Sendable) (h : op.SeenIn s i) : op.Unanswered := by
  have hfails : ∀ (call : PeerCall) (ending : Ending),
      (i, .returned call ending) ∈ s.coroutines → call.Fails ending := by
    intro call ending hreturned
    refine call.fails_of_not_response ?_
    rintro m rfl
    exact Fleet.isResponse_of_returned hs hsend hreturned
  cases op with
  | get env key opts =>
    intro cluster hcluster node hnode hlocal
    obtain ⟨ending, hreturned, heq⟩ := h cluster hcluster node hnode hlocal
    exact heq.trans (hfails _ ending hreturned)
  | check cluster key range =>
    intro view hview node hnode hlocal
    obtain ⟨ending, hreturned, heq⟩ := h view hview node hnode hlocal
    exact heq.trans (hfails _ ending hreturned)
  | _ => trivial

/-- The calls of all nodes, each on the coordinator of its node, before any step. -/
def startNodes (H : ByteBuffer → Hash128) (configs : ι → Config) (ops : κ → ι × Operation) :
    Pool κ (ι → CacheCoordinator) Reply :=
  .start (fun i => init (configs i)) fun t => ((ops t).2.prog H).on (ops t).1

end

/-- What the first of two nodes sees of the second one. -/
def pairView : ClusterView where
  localNode := ⟨1⟩
  nodesForKey _ := [⟨2⟩, ⟨1⟩]
  remoteGet _ _ _ := { result := .miss }
  size_lt _ _ _ := Nat.two_pow_pos 64

/-- The key is put into the second node and the first one is asked for it. -/
def pairOps (asks : Bool) : Bool × Operation :=
  bif asks then (false, .get { memoryNow := 0, diskNow := 0, cluster := some pairView } ⟨[97]⟩ {})
  else (true, .put (.byte [97] 7))

theorem seenIn_pairOps (t : Bool) : (pairOps t).2.SeenIn Fleet.pairAsked (pairOps t).1 := by
  cases t with
  | false => trivial
  | true =>
    intro cluster hcluster node hnode hlocal
    cases hcluster
    exact ⟨.received none, List.mem_append_right [_, _] List.mem_cons_self, rfl⟩

end CacheCoordinator

end ElCache
