import ElCache.Lib.Prog

/-!
# Rely and guarantee

`Prog.Safe` knows only an invariant that every step keeps. Here a thread may also know what it has
seen or done itself, as far as the others leave it alone. `p.Meets I R G Q s` is its obligation from
the state `s` on: between its steps the others move within `R`, each of its own steps is within `G`
and keeps `I`, and it returns with `Q`. If what one thread guarantees is what every other relies on,
the obligations hold in every interleaving (`Pool.Reach.meets`).
-/

namespace Prog

universe u

variable {σ : Type*} {α β : Type u}

/-- The obligation of a program in the state `s`: whatever the others do within `R` before a step,
the step keeps `I` and is within `G`; the result and the state it is returned in satisfy `Q`. -/
def Meets (I : σ → Prop) (R G : σ → σ → Prop) (Q : α → σ → Prop) : Prog σ α → σ → Prop
  | ret a, s => Q a s
  | step u n, s => ∀ s', R s s' → I s' → I (u s') ∧ G s' (u s') ∧ (n s').Meets I R G Q (u s')

variable {I : σ → Prop} {R G : σ → σ → Prop} {Q : α → σ → Prop} {s : σ}

theorem meets_pure {a : α} (h : Q a s) : (pure a : Prog σ α).Meets I R G Q s := h

theorem meets_atomic {f : σ → α × σ}
    (h : ∀ s', R s s' → I s' → I (f s').2 ∧ G s' (f s').2 ∧ Q (f s').1 (f s').2) :
    (atomic f).Meets I R G Q s :=
  h

theorem Meets.bind {Q' : β → σ → Prop} {p : Prog σ α} {k : α → Prog σ β}
    (hp : p.Meets I R G Q s) (hk : ∀ a s', Q a s' → (k a).Meets I R G Q' s') :
    (p >>= k).Meets I R G Q' s := by
  induction p generalizing s with
  | ret a => exact hk a s hp
  | step u n ih =>
    intro s' hR hI
    obtain ⟨hu, hG, hn⟩ := hp s' hR hI
    exact ⟨hu, hG, ih s' hn⟩

theorem Meets.mono {G' : σ → σ → Prop} {Q' : α → σ → Prop} {p : Prog σ α}
    (h : p.Meets I R G Q s) (hG : ∀ s s', G s s' → G' s s') (hQ : ∀ a s, Q a s → Q' a s) :
    p.Meets I R G' Q' s := by
  induction p generalizing s with
  | ret a => exact hQ a s h
  | step u n ih =>
    intro s' hR hI
    obtain ⟨hu, hu', hn⟩ := h s' hR hI
    exact ⟨hu, hG _ _ hu', ih s' hn⟩

/-- What the others and the program itself leave alone still holds in the end. -/
theorem Meets.frame {X : σ → Prop} {p : Prog σ α} (h : p.Meets I R G Q s) (hX : X s)
    (hR : ∀ s s', R s s' → X s → X s') (hG : ∀ s s', G s s' → X s → X s') :
    p.Meets I R G (fun a s => Q a s ∧ X s) s := by
  induction p generalizing s with
  | ret a => exact ⟨h, hX⟩
  | step u n ih =>
    intro s' hs' hI
    obtain ⟨hu, hu', hn⟩ := h s' hs' hI
    exact ⟨hu, hu', ih s' hn (hG _ _ hu' (hR _ _ hs' hX))⟩

/-- A program that needs to know nothing. -/
theorem Guarantees.meets {p : Prog σ α} (h : p.Guarantees G)
    (hI : ∀ s s', I s → G s s' → I s') : p.Meets I R G (fun _ _ => True) s := by
  induction p generalizing s with
  | ret a => trivial
  | step u n ih =>
    intro s' _ hs'
    exact ⟨hI _ _ hs' (h s').1, (h s').1, ih s' (h s').2⟩

/-- An obligation survives the steps of the others. -/
theorem Meets.rely {p : Prog σ α} {s' : σ} (h : p.Meets I R G Q s) (hs : R s s')
    (htrans : ∀ s s' s'', R s s' → R s' s'' → R s s'')
    (hQ : ∀ a s s', R s s' → Q a s → Q a s') : p.Meets I R G Q s' := by
  cases p with
  | ret a => exact hQ a s s' hs h
  | step u n => exact fun s'' hs'' => h s'' (htrans _ _ _ hs hs'')

end Prog

namespace Pool

variable {ι σ α : Type*} [DecidableEq ι] {I : σ → Prop} {R G : ι → σ → σ → Prop}
  {Q : ι → α → Prop} {progs : ι → Prog σ α}

/-- **Rely and guarantee.** If every thread meets its obligation at first and what one guarantees is
what the others rely on, every thread meets its obligation in every interleaving. -/
theorem Reach.meets {s : σ} {P : Pool ι σ α} (hreach : Reach (fun _ _ => False) (start s progs) P)
    (hrefl : ∀ i s, R i s s) (htrans : ∀ i s s' s'', R i s s' → R i s' s'' → R i s s'')
    (hGR : ∀ i j, i ≠ j → ∀ s s', G i s s' → R j s s') (hI : I s)
    (hprogs : ∀ i, (progs i).Meets I (R i) (G i) (fun a _ => Q i a) s) :
    I P.shared ∧ ∀ i, (P.threads i).prog.Meets I (R i) (G i) (fun a _ => Q i a) P.shared := by
  induction hreach with
  | refl => exact ⟨hI, hprogs⟩
  | tail _ hstep ih =>
    obtain ⟨hI, hthreads⟩ := ih
    cases hstep with
    | environment h => exact h.elim
    | @thread i u n h =>
      have hi := hthreads i
      rw [h] at hi
      obtain ⟨hu, hG, hn⟩ := hi _ (hrefl i _) hI
      refine ⟨hu, fun j => ?_⟩
      by_cases hj : j = i
      · subst hj
        simp only [Function.update_self]
        exact hn
      · simp only [Function.update_of_ne hj]
        exact (hthreads j).rely (hGR i j (Ne.symm hj) _ _ hG) (htrans j) fun _ _ _ _ ha => ha

end Pool
