import Mathlib.Data.List.Basic

/-!
# Recency order

A list of keys, the most recently used first, with the time each key was last used. The list is in
order if the times decrease from front to back (`Decreasing`). Dropping keys keeps the order, and so
does using a key now, if it goes to the front and is taken out of the rest (`Recent.touch`); the
last key of a list in order is the one that was used least recently (`Decreasing.last_lt`).
-/

namespace Recency

variable {K : Type*}

/-- The times decrease strictly from front to back. -/
def Decreasing (used : K → Nat) (ks : List K) : Prop := ks.Pairwise fun k k' => used k' < used k

/-- The list is in order, and every key was used before now. -/
structure Recent (used : K → Nat) (now : Nat) (ks : List K) : Prop where
  decreasing : Decreasing used ks
  past : ∀ k ∈ ks, used k < now

variable {used : K → Nat} {now : Nat} {ks ks' : List K} {k : K}

theorem recent_nil (used : K → Nat) (now : Nat) : Recent used now [] :=
  ⟨List.Pairwise.nil, fun _ hk => absurd hk List.not_mem_nil⟩

theorem Decreasing.sublist (h : Decreasing used ks) (hsub : ks'.Sublist ks) : Decreasing used ks' :=
  List.Pairwise.sublist hsub h

/-- Every other key was used after the last one. -/
theorem Decreasing.last_lt (h : Decreasing used (ks ++ [k])) : ∀ k' ∈ ks, used k < used k' :=
  fun k' hk' => (List.pairwise_append.1 h).2.2 k' hk' k (List.mem_singleton.2 rfl)

/-- Dropping keys while time goes on. -/
theorem Recent.sublist (h : Recent used now ks) (hsub : ks'.Sublist ks) :
    Recent used (now + 1) ks' :=
  ⟨h.decreasing.sublist hsub, fun k hk => Nat.lt_succ_of_lt (h.past k (hsub.subset hk))⟩

variable [DecidableEq K]

/-- Using a key that is not in the list. -/
theorem Recent.touch_other (h : Recent used now ks) (hsub : ks'.Sublist ks) (hk : k ∉ ks') :
    Recent (Function.update used k now) (now + 1) ks' := by
  have hsame : ∀ k' ∈ ks', Function.update used k now k' = used k' := by
    intro k' hk'
    exact Function.update_of_ne (ne_of_mem_of_not_mem hk' hk) now used
  have hrest := h.sublist hsub
  refine ⟨?_, fun k' hk' => ?_⟩
  · refine List.Pairwise.imp_of_mem (fun ha hb hlt => ?_) hrest.decreasing
    rw [hsame _ ha, hsame _ hb]
    exact hlt
  · rw [hsame k' hk']
    exact hrest.past k' hk'

/-- Using a key now and moving it to the front. -/
theorem Recent.touch (h : Recent used now ks) (hsub : ks'.Sublist ks) (hk : k ∉ ks') :
    Recent (Function.update used k now) (now + 1) (k :: ks') := by
  have hrest := h.touch_other hsub hk
  refine ⟨List.pairwise_cons.2 ⟨fun k' hk' => ?_, hrest.decreasing⟩, fun k' hk' => ?_⟩
  · rw [Function.update_self, Function.update_of_ne (ne_of_mem_of_not_mem hk' hk)]
    exact h.past k' (hsub.subset hk')
  · rcases List.mem_cons.1 hk' with rfl | hk'
    · rw [Function.update_self]
      exact Nat.lt_succ_self now
    · exact hrest.past k' hk'

end Recency
