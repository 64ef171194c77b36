import ElCache.Lib.Prog

/-!
# Programs on a part of the state

A program on states `σ` runs on larger states `τ` that have such a part. What it keeps and what it
returns there it keeps and returns in the whole; and it keeps whatever does not look at the part.
The members of a family of states are parts of this kind. `Implements` compares a program with one
on a part of its state when both run alone.
-/

namespace Prog

section
variable {σ τ α : Type*}

/-- The program on the part of the state that `get` finds and `set` replaces. -/
def zoom (get : τ → σ) (set : σ → τ → τ) : Prog σ α → Prog τ α
  | ret a => ret a
  | step u n => step (fun t => set (u (get t)) t) fun t => (n (get t)).zoom get set

variable {get : τ → σ} {set : σ → τ → τ} {I : σ → Prop} {J : τ → Prop} {Q : α → Prop}
  {p : Prog σ α}

theorem Safe.zoom (h : p.Safe I Q) (hget : ∀ t, J t → I (get t))
    (hset : ∀ x t, J t → I x → J (set x t)) : (p.zoom get set).Safe J Q := by
  induction p with
  | ret a => exact h
  | step u n ih =>
    intro t ht
    obtain ⟨hu, hn⟩ := h _ (hget t ht)
    exact ⟨hset _ t ht hu, ih _ hn⟩

/-- A program keeps what does not look at its part. -/
theorem safe_zoom (hset : ∀ x t, J t → J (set x t)) (p : Prog σ α) :
    (p.zoom get set).Safe J fun _ => True := by
  induction p with
  | ret a => trivial
  | step u n ih => exact fun t ht => ⟨hset _ t ht, ih _⟩

end

section
variable {ι σ α : Type*} [DecidableEq ι]

/-- The program on the member `i` of a family of states. -/
def on (i : ι) (p : Prog σ α) : Prog (ι → σ) α :=
  p.zoom (fun s => s i) fun x s => Function.update s i x

variable {I : σ → Prop} {Q : α → Prop} {p : Prog σ α}

theorem Safe.on (h : p.Safe I Q) (i : ι) : (p.on i).Safe (fun s => I (s i)) Q := by
  refine h.zoom (fun _ hs => hs) fun x s _ hx => ?_
  rw [Function.update_self]
  exact hx

/-- A program on one member keeps what holds of another. -/
theorem safe_on_of_ne {i j : ι} (hij : i ≠ j) (p : Prog σ α) :
    (p.on j).Safe (fun s => I (s i)) fun _ => True := by
  refine safe_zoom (fun x s hs => ?_) p
  rw [Function.update_of_ne hij]
  exact hs

end

section
universe u
variable {σ τ : Type*} {α β : Type u} {abs : τ → σ} {p : Prog τ α} {q : Prog σ α}

/-- Run alone from `t`, `p` returns what `q` returns on the part of the state that `abs` shows, and
leaves there what `q` leaves. -/
def ImplementsAt (abs : τ → σ) (p : Prog τ α) (q : Prog σ α) (t : τ) : Prop :=
  (p.run t).1 = (q.run (abs t)).1 ∧ abs (p.run t).2 = (q.run (abs t)).2

/-- Run alone, `p` does what `q` does, from every state. -/
def Implements (abs : τ → σ) (p : Prog τ α) (q : Prog σ α) : Prop :=
  ∀ t, ImplementsAt abs p q t

theorem ImplementsAt.bind {k : α → Prog τ β} {l : α → Prog σ β} {t : τ}
    (hp : ImplementsAt abs p q t)
    (hk : ImplementsAt abs (k (p.run t).1) (l (p.run t).1) (p.run t).2) :
    ImplementsAt abs (p >>= k) (q >>= l) t := by
  obtain ⟨hres, habs⟩ := hp
  rw [ImplementsAt, run_bind, run_bind, ← hres, ← habs]
  exact hk

theorem implements_pure (a : α) : Implements abs (pure a) (pure a) := fun _ => ⟨rfl, rfl⟩

theorem implements_atomic {f : τ → α × τ} {g : σ → α × σ}
    (h : ∀ t, (f t).1 = (g (abs t)).1 ∧ abs (f t).2 = (g (abs t)).2) :
    Implements abs (atomic f) (atomic g) :=
  h

theorem Implements.bind {k : α → Prog τ β} {l : α → Prog σ β} (hp : Implements abs p q)
    (hk : ∀ a, Implements abs (k a) (l a)) : Implements abs (p >>= k) (q >>= l) :=
  fun t => (hp t).bind (hk _ _)

end

end Prog

namespace Pool

variable {κ σ α : Type*} [DecidableEq κ] {E : σ → σ → Prop} {I : σ → Prop} {Q : κ → α → Prop}
  {progs : κ → Prog σ α}

/-- In every pool that an interleaving of safe programs reaches, what a thread has returned is what
its program promises, whatever its first step has found. -/
theorem Reach.result {s : σ} {P : Pool κ σ α} (hreach : Reach E (start s progs) P)
    (henv : ∀ s s', I s → E s s' → I s') (hprogs : ∀ t, (progs t).Safe I (Q t)) (hI : I s) {t : κ}
    {a : α} (ha : (P.threads t).prog = .ret a) : Q t a := by
  have hinv := (hreach.inv (Q := fun t _ => Q t) henv (fun t => (hprogs t).from) hI).2 t
  rcases hinv with ⟨-, hp⟩ | ⟨s₀, -, -, hsafe⟩
  · have hsafe := hprogs t
    rw [← hp, ha] at hsafe
    exact hsafe
  · rw [ha] at hsafe
    exact hsafe

end Pool
