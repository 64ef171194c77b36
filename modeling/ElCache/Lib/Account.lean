import ElCache.Lib.Part
import Mathlib.Algebra.BigOperators.Group.Finset.Piecewise

/-!
# Accounts

A quantity of the shared state that programs add to. What each of them has added so far is its
account; in every interleaving the quantity is what it was at first plus the accounts of all threads
(`Pool.Reach.account`). So no update is lost and none is made twice: when a program returns, its
account is what its result says, and until then it is within a bound.
-/

namespace Prog

universe u

variable {σ τ M : Type*} {α β : Type u} [AddCommMonoid M]

/-- The program, having added `acc` to the quantity `m`, stays within the bound `B` and returns with
an account that fits the result by `F`, whatever the states its steps find. -/
def Adds (m : σ → M) (B : M → Prop) (F : α → M → Prop) (acc : M) : Prog σ α → Prop
  | ret a => B acc ∧ F a acc
  | step u n => B acc ∧ ∀ s, ∃ d, m (u s) = m s + d ∧ (n s).Adds m B F (acc + d)

variable {m : σ → M} {B : M → Prop} {F : α → M → Prop} {acc : M}

theorem Adds.bound {p : Prog σ α} (h : p.Adds m B F acc) : B acc := by
  cases p with
  | ret a => exact h.1
  | step u n => exact h.1

theorem adds_pure {a : α} (hB : B acc) (hF : F a acc) : (pure a : Prog σ α).Adds m B F acc :=
  ⟨hB, hF⟩

theorem adds_atomic {f : σ → α × σ} (hB : B acc)
    (h : ∀ s, ∃ d, m (f s).2 = m s + d ∧ B (acc + d) ∧ F (f s).1 (acc + d)) :
    (atomic f).Adds m B F acc :=
  ⟨hB, h⟩

/-- A step that leaves the quantity alone. -/
theorem adds_atomic_same {f : σ → α × σ} (hB : B acc) (h : ∀ s, m (f s).2 = m s ∧ F (f s).1 acc) :
    (atomic f).Adds m B F acc := by
  refine adds_atomic hB fun s => ⟨0, ?_, ?_⟩
  · rw [add_zero]
    exact (h s).1
  · rw [add_zero]
    exact ⟨hB, (h s).2⟩

theorem Adds.mono {B' : M → Prop} {F' : α → M → Prop} {p : Prog σ α} (h : p.Adds m B F acc)
    (hB : ∀ x, B x → B' x) (hF : ∀ a x, F a x → F' a x) : p.Adds m B' F' acc := by
  induction p generalizing acc with
  | ret a => exact ⟨hB acc h.1, hF a acc h.2⟩
  | step u n ih =>
    refine ⟨hB acc h.1, fun s => ?_⟩
    obtain ⟨d, hd, hn⟩ := h.2 s
    exact ⟨d, hd, ih s hn⟩

theorem Adds.bind {G : β → M → Prop} {p : Prog σ α} {k : α → Prog σ β} (hp : p.Adds m B F acc)
    (hk : ∀ a x, B x → F a x → (k a).Adds m B G x) : (p >>= k).Adds m B G acc := by
  induction p generalizing acc with
  | ret a => exact hk a acc hp.1 hp.2
  | step u n ih =>
    refine ⟨hp.1, fun s => ?_⟩
    obtain ⟨d, hd, hn⟩ := hp.2 s
    exact ⟨d, hd, ih s hn⟩

/-- A program on a part of the state, if the quantity is one of the part. -/
theorem Adds.zoom {m' : τ → M} {get : τ → σ} {set : σ → τ → τ} {p : Prog σ α}
    (h : p.Adds m B F acc) (hget : ∀ t, m' t = m (get t)) (hset : ∀ x t, m' (set x t) = m x) :
    (p.zoom get set).Adds m' B F acc := by
  induction p generalizing acc with
  | ret a => exact h
  | step u n ih =>
    refine ⟨h.1, fun t => ?_⟩
    obtain ⟨d, hd, hn⟩ := h.2 (get t)
    refine ⟨d, ?_, ih _ hn⟩
    rw [hset, hget, hd]

end Prog

namespace Pool

open Finset

variable {κ σ α M : Type*} [DecidableEq κ] [Fintype κ] [AddCommMonoid M] {m : σ → M}
  {B : κ → M → Prop} {F : κ → α → M → Prop} {progs : κ → Prog σ α}

theorem sum_update_add (acc : κ → M) (i : κ) (d : M) :
    ∑ t, Function.update acc i (acc i + d) t = ∑ t, acc t + d := by
  rw [sum_update_of_mem (mem_univ i), ← add_sum_erase univ acc (mem_univ i),
    sdiff_singleton_eq_erase, add_right_comm]

/-- **Nothing is lost.** In every interleaving the quantity is the sum of what it was and of the
accounts of the threads. -/
theorem Reach.account {s : σ} {P : Pool κ σ α}
    (hreach : Reach (fun _ _ => False) (start s progs) P)
    (hprogs : ∀ t, (progs t).Adds m (B t) (F t) 0) :
    ∃ acc : κ → M, (∀ t, (P.threads t).prog.Adds m (B t) (F t) (acc t)) ∧
      m P.shared = m s + ∑ t, acc t := by
  induction hreach with
  | refl =>
    refine ⟨fun _ => 0, hprogs, ?_⟩
    rw [sum_const_zero, add_zero]
    rfl
  | tail _ hstep ih =>
    obtain ⟨acc, hacc, hsum⟩ := ih
    cases hstep with
    | environment h => exact h.elim
    | @thread i u n h =>
      have hi := hacc i
      rw [h] at hi
      obtain ⟨d, hd, hn⟩ := hi.2 _
      refine ⟨Function.update acc i (acc i + d), fun t => ?_, ?_⟩
      · by_cases ht : t = i
        · subst ht
          simp only [Function.update_self]
          exact hn
        · simp only [Function.update_of_ne ht]
          exact hacc t
      · rw [sum_update_add, ← add_assoc, ← hsum]
        exact hd

end Pool
