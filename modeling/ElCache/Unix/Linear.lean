import ElCache.Unix.Store
import Mathlib.Data.Fintype.Card

/-!
# Concurrent clients of the Unix server

Each call of `SyncCache` and `SparseCache` takes the mutex of its table, so it is one atomic step,
and the handlers of different connections interleave. Most of them take one step. A finalize takes
the finished upload out of one table and puts it into the other by a second step, and a write that
has failed looks once more for the entry, to tell why. Between the two steps of either, other
clients see, and change, the key.

`linearizable_requests` says that this is all that can go wrong: as long as no request steps while
another one on the same key is between its steps, and the ranges of the writes do not leave the
64-bit range, every history is one of the `Store`.
-/

namespace ElCache

namespace Unix

variable {ι : Type*} [DecidableEq ι]

/-- The server before any step, with the requests of all clients. -/
def clients (requests : ι → Request) : Pool ι Server Answer :=
  Pool.start {} fun i => handle (requests i)

/-- Every handler takes a step. -/
theorem handle_step (request : Request) : ∃ u n, handle request = .step u n := by
  cases request with
  | get key hasRange offset length => exact ⟨_, _, rfl⟩
  | put key value => exact ⟨_, _, rfl⟩
  | delete key => exact ⟨_, _, rfl⟩
  | createSparse key totalSize => exact ⟨_, _, rfl⟩
  | writeRange key offset data => exact ⟨_, _, rfl⟩
  | finalize key => exact ⟨_, _, rfl⟩

/-- Every interleaving in which no request steps while another one on the same key is between its
two steps is linearizable. -/
theorem linearizable_requests (requests : ι → Request) (hrange : ∀ i, (requests i).InRange)
    (sched : List ι)
    (hquiet : Pool.EveryTurn (Pool.Undisturbed fun i => (requests i).key)
      (clients requests) sched) :
    Pool.Linearizable (fun i => Store.answer (requests i)) {} (clients requests) sched := by
  refine Pool.linearizable_of_undisturbed (M := fun key c t => Store.Matches t key c)
    (fun i => handle_step (requests i)) (fun i => local_handle (requests i))
    (fun i s t hmatch => ?_) (fun i key c t hne hmatch => ?_) (fun key => ⟨rfl, .none⟩) hquiet
  · exact follows_handle (hrange i) hmatch
  · exact hmatch.of_ne hne

/-- A write to one key, and a create of another or the same. -/
def writeAndCreate (key : ByteBuffer) : Bool → Request
  | false => .writeRange [1] 0 [7]
  | true => .createSparse key 10

/-- The create of another key between the steps of the write. -/
theorem linearizable_requests_otherKey :
    Pool.Linearizable (fun i => Store.answer (writeAndCreate [2] i)) {}
      (clients (writeAndCreate [2])) [false, true, false] := by
  refine linearizable_requests _ (fun i => ?_) _ ⟨⟨⟨trivial, ?_⟩, ?_⟩, ?_⟩
  · cases i with
    | false => exact (by decide : 0 + 1 < 2 ^ 64)
    | true => trivial
  · unfold Pool.Undisturbed
    decide
  · unfold Pool.Undisturbed
    decide
  · unfold Pool.Undisturbed
    decide

/-- The write finds no upload, and then, after a create of the key, looks for it again: its answer
is that the range is invalid, although no upload has been open for which it is. -/
theorem not_linearizable_sameKey : ¬ Pool.Linearizable
    (fun i => Store.answer (writeAndCreate [1] i)) {} (clients (writeAndCreate [1]))
    [false, true, false] := by
  rintro ⟨order, hnodup, -, -, hanswers⟩
  have hanswer := hanswers false List.mem_cons_self (.code 2) rfl
  have hlen : order.length ≤ 2 := List.Nodup.length_le_card hnodup
  clear hanswers hnodup
  match order, hlen with
  | [], _ => cases hanswer
  | [i], _ =>
    revert i
    decide
  | [i, j], _ =>
    revert i j
    decide

end Unix

end ElCache
