import Mathlib.Data.List.Induction
import Mathlib.Logic.Relation

/-!
# Programs of atomic steps, run alone or interleaved

A `Prog σ α` is a computation over a shared state `σ` that proceeds by atomic steps: each step
updates the state and continues with what it saw before the update. `Prog.run` executes a program
alone. A `Pool` is a shared state with any number of threads, each at some point of its program;
`Pool.Step` lets any thread, or the environment, take the next atomic step.

`Prog.Safe I Q p` says that every atomic step of `p` keeps the shared invariant `I`, whatever the
state it finds, and that `p` returns a value satisfying `Q`. It is the thread-local obligation:
`Safe.run` reads it at a program run alone, and `Pool.Reach.inv` at every thread of a pool, under
any interleaving. `Observes` is for a program that only looks: it returns a function of a view of
the state and leaves the view alone.
-/

/-- A computation over `σ` by atomic steps. A step finds a state `s`, leaves `upd s` and goes on
as `next s`. -/
inductive Prog (σ : Type*) (α : Type*) where
  | ret (a : α)
  | step (upd : σ → σ) (next : σ → Prog σ α)

namespace Prog

universe u

variable {σ : Type*} {α β : Type u}

/-- Sequencing. -/
def bind : Prog σ α → (α → Prog σ β) → Prog σ β
  | ret a, k => k a
  | step u n, k => step u fun s => (n s).bind k

instance : Monad (Prog σ) where
  pure := ret
  bind := bind

/-- The program of one atomic step. -/
def atomic (f : σ → α × σ) : Prog σ α := step (fun s => (f s).2) fun s => ret (f s).1

/-- The program run alone: its result and the state it leaves. -/
def run : Prog σ α → σ → α × σ
  | ret a, s => (a, s)
  | step u n, s => (n s).run (u s)

@[simp] theorem run_pure (a : α) (s : σ) : (pure a : Prog σ α).run s = (a, s) := rfl

@[simp] theorem run_ret (a : α) (s : σ) : (ret a : Prog σ α).run s = (a, s) := rfl

@[simp] theorem run_atomic (f : σ → α × σ) (s : σ) : (atomic f).run s = f s := rfl

@[simp] theorem run_bind (p : Prog σ α) (k : α → Prog σ β) (s : σ) :
    (p >>= k).run s = (k (p.run s).1).run (p.run s).2 := by
  show (p.bind k).run s = _
  induction p generalizing s with
  | ret a => rfl
  | step u n ih => exact ih s (u s)

theorem run_ite (c : Prop) [Decidable c] (p q : Prog σ α) (s : σ) :
    (if c then p else q).run s = if c then p.run s else q.run s := by
  split <;> rfl

theorem bind_assoc {γ : Type u} (p : Prog σ α) (k : α → Prog σ β) (l : β → Prog σ γ) :
    p >>= k >>= l = p >>= fun a => k a >>= l := by
  induction p with
  | ret a => rfl
  | step u n ih => exact congrArg (step u) (funext ih)

/-- What `p` does first is `q`. -/
def Begins (q : Prog σ α) (p : Prog σ β) : Prop := ∃ k, p = q >>= k

theorem Begins.bind {γ : Type u} {q : Prog σ α} {p : Prog σ β} (h : Begins q p)
    (l : β → Prog σ γ) : Begins q (p >>= l) := by
  obtain ⟨k, rfl⟩ := h
  exact ⟨_, bind_assoc q k l⟩

/-! ## The thread-local obligation -/

/-- Every step of the program keeps `I`, and its result satisfies `Q`. -/
def Safe (I : σ → Prop) (Q : α → Prop) : Prog σ α → Prop
  | ret a => Q a
  | step u n => ∀ s, I s → I (u s) ∧ (n s).Safe I Q

variable {I : σ → Prop} {Q : α → Prop}

theorem safe_pure {a : α} (h : Q a) : Safe I Q (pure a) := h

theorem safe_atomic {f : σ → α × σ} (h : ∀ s, I s → I (f s).2 ∧ Q (f s).1) :
    Safe I Q (atomic f) := h

variable {p : Prog σ α}

theorem Safe.mono {Q' : α → Prop} (h : p.Safe I Q) (hQ : ∀ a, Q a → Q' a) : p.Safe I Q' := by
  induction p with
  | ret a => exact hQ a h
  | step u n ih => exact fun s hs => ⟨(h s hs).1, ih s (h s hs).2⟩

variable {k : α → Prog σ β}

theorem Safe.bind {R : β → Prop} (hp : p.Safe I Q) (hk : ∀ a, Q a → (k a).Safe I R) :
    (p >>= k).Safe I R := by
  show (p.bind k).Safe I R
  induction p with
  | ret a => exact hk a hp
  | step u n ih => exact fun s hs => ⟨(hp s hs).1, ih s (hp s hs).2⟩

/-- A safe program run alone keeps the invariant and returns what it promises. -/
theorem Safe.run (h : p.Safe I Q) {s : σ} (hs : I s) : I (p.run s).2 ∧ Q (p.run s).1 := by
  induction p generalizing s with
  | ret a => exact ⟨hs, h⟩
  | step u n ih => exact ih s (h s hs).2 (h s hs).1

/-- Every atomic step of the program is an `R` step, whatever state it finds. -/
def Guarantees (R : σ → σ → Prop) : Prog σ α → Prop
  | ret _ => True
  | step u n => ∀ s, R s (u s) ∧ (n s).Guarantees R

variable {R : σ → σ → Prop}

theorem guarantees_pure (a : α) : Guarantees R (pure a : Prog σ α) := trivial

theorem guarantees_atomic {f : σ → α × σ} (h : ∀ s, R s (f s).2) : Guarantees R (atomic f) :=
  fun s => ⟨h s, trivial⟩

theorem Guarantees.bind (hp : p.Guarantees R) (hk : ∀ a, (k a).Guarantees R) :
    (p >>= k).Guarantees R := by
  show (p.bind k).Guarantees R
  induction p with
  | ret a => exact hk a
  | step u n ih => exact fun s => ⟨(hp s).1, ih s (hp s).2⟩

theorem Guarantees.mono {R' : σ → σ → Prop} (h : p.Guarantees R) (hR : ∀ s s', R s s' → R' s s') :
    p.Guarantees R' := by
  induction p with
  | ret a => trivial
  | step u n ih => exact fun s => ⟨hR _ _ (h s).1, ih s (h s).2⟩

/-- A program whose steps are `R` steps keeps what `R` steps keep. -/
theorem Guarantees.safe (h : p.Guarantees R) (hI : ∀ s s', I s → R s s' → I s') :
    p.Safe I fun _ => True := by
  induction p with
  | ret a => trivial
  | step u n ih => exact fun s hs => ⟨hI s _ hs (h s).1, ih s (h s).2⟩

/-- The states a program passes through when run alone, the first and the last included. -/
def trace : Prog σ α → σ → List σ
  | ret _, s => [s]
  | step u n, s => s :: (n s).trace (u s)

/-- The invariant holds in every state a safe program passes through. -/
theorem Safe.trace (h : p.Safe I Q) {s : σ} (hs : I s) : ∀ t ∈ p.trace s, I t := by
  induction p generalizing s with
  | ret a =>
    intro t ht
    rw [Prog.trace, List.mem_singleton] at ht
    rwa [ht]
  | step u n ih =>
    intro t ht
    rcases List.mem_cons.1 ht with rfl | ht
    · exact hs
    · exact ih s (h s hs).2 (h s hs).1 t ht

/-- The obligation of a program whose result is judged against the state its first step finds. -/
def SafeFrom (I : σ → Prop) (Q : σ → α → Prop) : Prog σ α → Prop
  | ret _ => True
  | step u n => ∀ s, I s → I (u s) ∧ (n s).Safe I (Q s)

/-- An obligation that does not look at the first state is the plain one. -/
theorem Safe.from (h : p.Safe I Q) : p.SafeFrom I fun _ => Q := by
  cases p with
  | ret a => trivial
  | step u n => exact h

theorem SafeFrom.mono {Q Q' : σ → α → Prop} (h : p.SafeFrom I Q) (hQ : ∀ s a, Q s a → Q' s a) :
    p.SafeFrom I Q' := by
  cases p with
  | ret a => trivial
  | step u n => exact fun s hs => ⟨(h s hs).1, (h s hs).2.mono (hQ s)⟩

end Prog

/-! ## Observations -/

section
universe u
variable {σ ω : Type*} {α β : Type u} {I : σ → Prop} {view : σ → ω}

/-- A program that returns `f` of the view and leaves the view and the invariant alone. -/
def Observes (I : σ → Prop) (view : σ → ω) (p : Prog σ α) (f : ω → α) : Prop :=
  ∀ s, I s → (p.run s).1 = f (view s) ∧ view (p.run s).2 = view s ∧ I (p.run s).2

theorem observes_pure (a : α) : Observes I view (pure a) fun _ => a :=
  fun _ hs => ⟨rfl, rfl, hs⟩

theorem Observes.bind {f : ω → α} {g : α → ω → β} (hp : Observes I view p f)
    (hk : ∀ a, Observes I view (k a) (g a)) : Observes I view (p >>= k) fun w => g (f w) w := by
  intro s hs
  obtain ⟨hres, hview, hinv⟩ := hp s hs
  obtain ⟨hres', hview', hinv'⟩ := hk (p.run s).1 _ hinv
  rw [Prog.run_bind]
  refine ⟨?_, hview'.trans hview, hinv'⟩
  rw [hres', hres, hview]

end

/-! ## Pools -/

/-- A thread: what is left of its program, and the state its first step found, once taken. -/
structure Thread (σ : Type*) (α : Type*) where
  prog : Prog σ α
  first : Option σ

/-- A shared state and its threads. -/
structure Pool (ι : Type*) (σ : Type*) (α : Type*) where
  shared : σ
  threads : ι → Thread σ α

namespace Pool

variable {ι σ α : Type*} [DecidableEq ι] {P : Pool ι σ α} {i : ι}

/-- The pool before any step. -/
def start (s : σ) (progs : ι → Prog σ α) : Pool ι σ α := ⟨s, fun i => ⟨progs i, none⟩⟩

/-- One step of the pool: some thread takes its next atomic step, or the environment changes the
shared state. -/
inductive Step (E : σ → σ → Prop) : Pool ι σ α → Pool ι σ α → Prop
  | thread {P : Pool ι σ α} {i : ι} {u : σ → σ} {n : σ → Prog σ α}
      (h : (P.threads i).prog = .step u n) :
      Step E P ⟨u P.shared, Function.update P.threads i
        ⟨n P.shared, some ((P.threads i).first.getD P.shared)⟩⟩
  | environment {P : Pool ι σ α} {s : σ} (h : E P.shared s) : Step E P ⟨s, P.threads⟩

/-- The pools some interleaving reaches. -/
def Reach (E : σ → σ → Prop) : Pool ι σ α → Pool ι σ α → Prop :=
  Relation.ReflTransGen (Step E)

/-- What holds of a thread along a run: it has not started, or its first step found an invariant
state and the rest of its program is safe for what it promised there. -/
def ThreadOK (I : σ → Prop) (Q : σ → α → Prop) (p : Prog σ α) (t : Thread σ α) : Prop :=
  (t.first = none ∧ t.prog = p) ∨ ∃ s₀, t.first = some s₀ ∧ I s₀ ∧ t.prog.Safe I (Q s₀)

variable {E : σ → σ → Prop} {I : σ → Prop} {Q : ι → σ → α → Prop} {progs : ι → Prog σ α}

/-- A step of a thread or of the environment keeps the shared invariant and what is left for each
thread to meet. -/
theorem Step.inv {P' : Pool ι σ α} (hstep : Step E P P') (henv : ∀ s s', I s → E s s' → I s')
    (hprogs : ∀ i, (progs i).SafeFrom I (Q i)) (hI : I P.shared)
    (hT : ∀ i, ThreadOK I (Q i) (progs i) (P.threads i)) :
    I P'.shared ∧ ∀ i, ThreadOK I (Q i) (progs i) (P'.threads i) := by
  cases hstep with
  | environment h => exact ⟨henv _ _ hI h, hT⟩
  | @thread i u n h =>
    -- the thread that moves keeps its obligation, whether this is its first step or a later one
    have key : I (u P.shared) ∧ ThreadOK I (Q i) (progs i)
        ⟨n P.shared, some ((P.threads i).first.getD P.shared)⟩ := by
      rcases hT i with ⟨hf, hp⟩ | ⟨s₀, hf, hs₀, hsafe⟩
      · have hs := hprogs i
        rw [← hp, h] at hs
        refine ⟨(hs _ hI).1, .inr ⟨P.shared, ?_, hI, (hs _ hI).2⟩⟩
        rw [hf]; rfl
      · rw [h] at hsafe
        refine ⟨(hsafe _ hI).1, .inr ⟨s₀, ?_, hs₀, (hsafe _ hI).2⟩⟩
        rw [hf]; rfl
    refine ⟨key.1, fun j => ?_⟩
    by_cases hj : j = i
    · subst hj
      simpa using key.2
    · simpa [Function.update_of_ne hj] using hT j

/-- The shared invariant, and every thread's obligation, hold in every pool an interleaving
reaches. -/
theorem Reach.inv {s : σ} (hreach : Reach E (start s progs) P) (henv : ∀ s s', I s → E s s' → I s')
    (hprogs : ∀ i, (progs i).SafeFrom I (Q i)) (hI : I s) :
    I P.shared ∧ ∀ i, ThreadOK I (Q i) (progs i) (P.threads i) := by
  induction hreach with
  | refl => exact ⟨hI, fun i => .inl ⟨rfl, rfl⟩⟩
  | tail _ hstep ih => exact hstep.inv henv hprogs ih.1 ih.2

/-- Running one thread to its end, with no other step in between, is an interleaving. -/
theorem reach_run (P : Pool ι σ α) (i : ι) :
    ∃ f, Reach E P ⟨((P.threads i).prog.run P.shared).2,
        Function.update P.threads i ⟨.ret ((P.threads i).prog.run P.shared).1, f⟩⟩ ∧
      (∀ s₀, (P.threads i).first = some s₀ → f = some s₀) ∧
      ∀ u n, (P.threads i).prog = .step u n → f = some ((P.threads i).first.getD P.shared) := by
  obtain ⟨s, threads⟩ := P
  obtain ⟨p, hp⟩ : ∃ p, (threads i).prog = p := ⟨_, rfl⟩
  simp only [hp]
  induction p generalizing s threads with
  | ret a =>
    have hself : (⟨.ret a, (threads i).first⟩ : Thread σ α) = threads i := by
      rw [← hp]
    refine ⟨(threads i).first, ?_, fun s₀ h => h, fun u n h => by cases h⟩
    rw [Prog.run_ret, hself, Function.update_eq_self]
    exact .refl
  | step u n ih =>
    obtain ⟨f, hreach, hf, -⟩ := ih s (u s) (Function.update threads i
      ⟨n s, some ((threads i).first.getD s)⟩) (by rw [Function.update_self])
    have hfirst : f = some ((threads i).first.getD s) :=
      hf _ (by rw [Function.update_self])
    have hstep : Step E ⟨s, threads⟩ ⟨u s, Function.update threads i
        ⟨n s, some ((threads i).first.getD s)⟩⟩ := .thread hp
    rw [Function.update_idem, hfirst] at hreach
    refine ⟨some ((threads i).first.getD s), .head hstep hreach, fun s₀ h => ?_, fun _ _ _ => rfl⟩
    rw [h, Option.getD_some]

/-- Running thread `i` to its end and then thread `j` is an interleaving, in which the first step of
`j` finds what `i` has left. -/
theorem exists_reach_run_pair (s : σ) (progs : ι → Prog σ α) {j : ι} (hij : j ≠ i) {u : σ → σ}
    {n : σ → Prog σ α} (hj : progs j = .step u n) :
    ∃ P, Reach E (start s progs) P ∧ (P.threads j).first = some ((progs i).run s).2 ∧
      (P.threads j).prog = .ret ((progs j).run ((progs i).run s).2).1 := by
  obtain ⟨f, hi, -, -⟩ := reach_run (E := E) (start s progs) i
  obtain ⟨g, hg, -, hfirst⟩ := reach_run (E := E) ⟨((progs i).run s).2, Function.update
    (start s progs).threads i ⟨.ret ((progs i).run s).1, f⟩⟩ j
  have hthread : Function.update (start s progs).threads i ⟨.ret ((progs i).run s).1, f⟩ j =
      ⟨progs j, none⟩ := Function.update_of_ne hij _ _
  refine ⟨_, hi.trans hg, ?_, ?_⟩
  · simp only [hthread] at hfirst ⊢
    rw [Function.update_self, hfirst u n hj]
    rfl
  · simp only [hthread]
    rw [Function.update_self]

/-- Running the threads of a list to their ends, one after the other, is an interleaving, in which
each returns what its program returns in the state that those before it have left. -/
theorem exists_reach_run_list (s : σ) (progs : ι → Prog σ α) (order : List ι)
    (hnodup : order.Nodup) :
    ∃ P, Reach E (start s progs) P ∧
      P.shared = order.foldl (fun s i => ((progs i).run s).2) s ∧
      (∀ i ∉ order, P.threads i = ⟨progs i, none⟩) ∧
      ∀ before i after, order = before ++ i :: after → (P.threads i).prog =
        .ret ((progs i).run (before.foldl (fun s i => ((progs i).run s).2) s)).1 := by
  induction order using List.reverseRecOn with
  | nil =>
    exact ⟨_, .refl, rfl, fun _ _ => rfl, fun _ _ _ h =>
      absurd h.symm (List.append_ne_nil_of_right_ne_nil _ (List.cons_ne_nil _ _))⟩
  | append_singleton init j ih =>
    rw [List.nodup_append] at hnodup
    obtain ⟨hinit, -, hdistinct⟩ := hnodup
    have hj : j ∉ init := fun h => hdistinct j h j List.mem_cons_self rfl
    obtain ⟨P, hreach, hshared, hrest, hresult⟩ := ih hinit
    obtain ⟨f, hrun, -, -⟩ := reach_run (E := E) P j
    rw [hrest j hj, hshared] at hrun
    refine ⟨_, hreach.trans hrun, ?_, fun i hi => ?_, fun before i after h => ?_⟩
    · rw [List.foldl_append]
      rfl
    · rw [List.mem_append, not_or, List.mem_singleton] at hi
      exact (Function.update_of_ne hi.2 _ _).trans (hrest i hi.1)
    · rcases List.eq_nil_or_concat after with rfl | ⟨after', k, rfl⟩
      · -- the last thread
        obtain ⟨rfl, heq⟩ := List.append_inj' h rfl
        cases heq
        show (Function.update P.threads j _ j).prog = _
        rw [Function.update_self]
      · rw [List.concat_eq_append, ← List.cons_append, ← List.append_assoc] at h
        obtain ⟨rfl, -⟩ := List.append_inj' h rfl
        have hne : i ≠ j := fun heq => hj (heq ▸ List.mem_append_right _ List.mem_cons_self)
        show (Function.update P.threads j _ i).prog = _
        rw [Function.update_of_ne hne]
        exact hresult before i after' rfl

section

universe u

variable {α β γ : Type u}

/-- Running the first part of a thread, with no other step in between, is an interleaving. -/
theorem reach_bind (P : Pool ι σ β) (i : ι) (h : (P.threads i).prog = p >>= k) :
    ∃ f, Reach E P ⟨(p.run P.shared).2,
      Function.update P.threads i ⟨k (p.run P.shared).1, f⟩⟩ := by
  obtain ⟨s, threads⟩ := P
  induction p generalizing s threads with
  | ret a =>
    have hself : (⟨k a, (threads i).first⟩ : Thread σ β) = threads i := by
      rw [← show (threads i).prog = k a from h]
    refine ⟨(threads i).first, ?_⟩
    rw [Prog.run_ret, hself, Function.update_eq_self]
    exact .refl
  | step u n ih =>
    obtain ⟨f, hreach⟩ := ih s (u s) (Function.update threads i
      ⟨n s >>= k, some ((threads i).first.getD s)⟩) (by simp)
    have hstep : Step E ⟨s, threads⟩ ⟨u s, Function.update threads i
        ⟨n s >>= k, some ((threads i).first.getD s)⟩⟩ := .thread h
    rw [Function.update_idem] at hreach
    exact ⟨f, .head hstep hreach⟩

/-- Thread `i` runs to its end between two parts of thread `j`, and then thread `k` does. -/
theorem exists_reach_between (s : σ) (progs : ι → Prog σ β) {j k : ι} (hij : i ≠ j) (hik : i ≠ k)
    (hjk : j ≠ k) {q : α → Prog σ γ} {l : α → γ → Prog σ β}
    (hj : progs j = p >>= fun a => q a >>= l a) :
    ∃ P, Reach E (start s progs) P ∧
      (P.threads i).prog = .ret ((progs i).run (p.run s).2).1 ∧
      (P.threads k).prog = .ret ((progs k).run
        ((q (p.run s).1).run ((progs i).run (p.run s).2).2).2).1 := by
  obtain ⟨f₁, h₁⟩ := reach_bind (E := E) (start s progs) j hj
  obtain ⟨f₂, h₂, -, -⟩ := reach_run (E := E) ⟨(p.run s).2, Function.update
    (start s progs).threads j ⟨q (p.run s).1 >>= l (p.run s).1, f₁⟩⟩ i
  simp only [Function.update_of_ne hij] at h₂
  obtain ⟨f₃, h₃⟩ := reach_bind (E := E) ⟨((progs i).run (p.run s).2).2, Function.update
    (Function.update (start s progs).threads j ⟨q (p.run s).1 >>= l (p.run s).1, f₁⟩) i
    ⟨.ret ((progs i).run (p.run s).2).1, f₂⟩⟩ j (k := l (p.run s).1) (p := q (p.run s).1)
    (by simp [Function.update_of_ne hij.symm])
  obtain ⟨f₄, h₄, -, -⟩ := reach_run (E := E) _ k
  refine ⟨_, ((h₁.trans h₂).trans h₃).trans h₄, ?_, ?_⟩
  · simp [Function.update_of_ne hij, Function.update_of_ne hik]
  · simp [Function.update_of_ne hjk.symm, Function.update_of_ne hik.symm, start]

end

/-- A thread that has taken a step and returned, returned what it promised. -/
theorem ThreadOK.result {Q : σ → α → Prop} {t : Thread σ α} (h : ThreadOK I Q p t) {s₀ : σ} {a : α}
    (hf : t.first = some s₀) (hp : t.prog = .ret a) : I s₀ ∧ Q s₀ a := by
  rcases h with ⟨hn, -⟩ | ⟨s₁, hs₁, hI, hsafe⟩
  · rw [hn] at hf; cases hf
  · rw [hs₁] at hf; cases hf
    rw [hp] at hsafe
    exact ⟨hI, hsafe⟩

/-! ### Schedules -/

/-- Thread `i` takes its next atomic step, if it has one. -/
def turn (i : ι) (P : Pool ι σ α) : Pool ι σ α :=
  match (P.threads i).prog with
  | .ret _ => P
  | .step u n => ⟨u P.shared, Function.update P.threads i
      ⟨n P.shared, some ((P.threads i).first.getD P.shared)⟩⟩

/-- The pool after the turns of a schedule, which lists the latest turn first. -/
def schedule (P : Pool ι σ α) : List ι → Pool ι σ α
  | [] => P
  | i :: sched => (P.schedule sched).turn i

/-- A turn of a thread that has returned changes nothing. -/
theorem turn_ret {a : α} (h : (P.threads i).prog = .ret a) : P.turn i = P := by
  rw [turn, h]

/-- A turn of a thread that has a step left. -/
theorem turn_step {u : σ → σ} {n : σ → Prog σ α} (h : (P.threads i).prog = .step u n) :
    (P.turn i).shared = u P.shared ∧ ((P.turn i).threads i).prog = n P.shared ∧
      ∀ j, j ≠ i → (P.turn i).threads j = P.threads j := by
  rw [turn, h]
  exact ⟨rfl, congrArg Thread.prog (Function.update_self i _ P.threads),
    fun j hj => Function.update_of_ne hj _ _⟩

/-- A schedule is an interleaving. -/
theorem reach_schedule (P : Pool ι σ α) (sched : List ι) : Reach E P (P.schedule sched) := by
  induction sched with
  | nil => exact .refl
  | cons i sched ih =>
    rw [schedule]
    cases h : ((P.schedule sched).threads i).prog with
    | ret a =>
      rw [turn_ret h]
      exact ih
    | step u n =>
      refine ih.tail ?_
      rw [turn, h]
      exact .thread h

/-- Among the threads in `A`, the one that took its turn number `k` last. -/
def lastTurn (A : ι → Bool) (k : Nat) : List ι → Option ι
  | [] => none
  | i :: sched => if sched.count i = k ∧ A i then some i else lastTurn A k sched

/-- If a thread in `A` took its turn number `k`, some thread in `A` took it last. -/
theorem lastTurn_of_count {A : ι → Bool} {k : Nat} {sched : List ι} (hA : A i = true)
    (hi : k < sched.count i) : ∃ j, lastTurn A k sched = some j := by
  induction sched with
  | nil => exact absurd hi (Nat.not_lt_zero k)
  | cons j sched ih =>
    rw [lastTurn]
    split
    · exact ⟨j, rfl⟩
    · next hj =>
      refine ih ?_
      rw [List.count_cons] at hi
      split at hi
      · next hji =>
        rw [beq_iff_eq] at hji
        subst hji
        exact Nat.lt_of_le_of_ne (Nat.le_of_lt_succ hi) fun h => hj ⟨h.symm, hA⟩
      · exact hi

end Pool

/-! ## Sequential runs -/

/-- The states a sequence of operations reaches from `s`, one function per operation. -/
def runOps {σ ω : Type*} (exec : ω → σ → σ) : List ω → σ → σ
  | [], s => s
  | o :: os, s => runOps exec os (exec o s)

section
variable {σ ω : Type*} {exec : ω → σ → σ} {I : σ → Prop}

@[simp] theorem runOps_nil (s : σ) : runOps exec [] s = s := rfl

@[simp] theorem runOps_cons (o : ω) (os : List ω) (s : σ) :
    runOps exec (o :: os) s = runOps exec os (exec o s) := rfl

theorem runOps_append (os os' : List ω) (s : σ) :
    runOps exec (os ++ os') s = runOps exec os' (runOps exec os s) := by
  induction os generalizing s with
  | nil => rfl
  | cons o os ih => exact ih (exec o s)

/-- An invariant every operation of the list keeps holds after the list. -/
theorem runOps_inv {os : List ω} {s : σ} (h0 : I s) (hstep : ∀ o ∈ os, ∀ s, I s → I (exec o s)) :
    I (runOps exec os s) := by
  induction os generalizing s with
  | nil => exact h0
  | cons o os ih =>
    exact ih (hstep o (by simp) s h0) fun o' ho' => hstep o' (by simp [ho'])

/-- `P` holds in every state the operations reach, the first included. -/
def EveryState (exec : ω → σ → σ) (P : σ → Prop) : List ω → σ → Prop
  | [], s => P s
  | o :: os, s => P s ∧ EveryState exec P os (exec o s)

/-- Every operation finds a state in which `C` allows it. -/
def EveryStep (exec : ω → σ → σ) (C : ω → σ → Prop) : List ω → σ → Prop
  | [], _ => True
  | o :: os, s => C o s ∧ EveryStep exec C os (exec o s)

variable {P : σ → Prop} {C : ω → σ → Prop} {os : List ω} {s : σ}

theorem EveryState.head (h : EveryState exec P os s) : P s := by
  cases os with
  | nil => exact h
  | cons o os => exact h.1

theorem everyStep_true : EveryStep exec (fun _ _ => True) os s := by
  induction os generalizing s with
  | nil => trivial
  | cons o os ih => exact ⟨trivial, ih⟩

/-- If allowed operations keep `I`, and `I` gives `P`, then `P` holds along every run of allowed
operations. -/
theorem EveryStep.everyState (h : EveryStep exec C os s) (h0 : I s) (hP : ∀ s, I s → P s)
    (hstep : ∀ o ∈ os, ∀ s, I s → C o s → I (exec o s)) : EveryState exec P os s := by
  induction os generalizing s with
  | nil => exact hP s h0
  | cons o os ih =>
    exact ⟨hP s h0, ih h.2 (hstep o List.mem_cons_self s h0 h.1)
      fun o' ho' => hstep o' (List.mem_cons_of_mem _ ho')⟩

/-- If every operation keeps `I`, and `I` gives `P`, then `P` holds along every run. -/
theorem everyState_of_inv (h0 : I s) (hP : ∀ s, I s → P s)
    (hstep : ∀ o ∈ os, ∀ s, I s → I (exec o s)) : EveryState exec P os s :=
  everyStep_true.everyState h0 hP fun o ho s hs _ => hstep o ho s hs

/-- If allowed operations keep `I` and do `D` in states of `I`, then every operation of an allowed
run does `D`. -/
theorem EveryStep.imp {D : ω → σ → Prop} (h : EveryStep exec C os s) (h0 : I s)
    (hstep : ∀ o ∈ os, ∀ s, I s → C o s → D o s ∧ I (exec o s)) : EveryStep exec D os s := by
  induction os generalizing s with
  | nil => trivial
  | cons o os ih =>
    obtain ⟨hD, hI⟩ := hstep o List.mem_cons_self s h0 h.1
    exact ⟨hD, ih h.2 hI fun o' ho' => hstep o' (List.mem_cons_of_mem _ ho')⟩

/-- If operations keep `I` and do `D` in states of `I`, then every operation of a run does `D`. -/
theorem everyStep_of_inv {D : ω → σ → Prop} (h0 : I s)
    (hstep : ∀ o ∈ os, ∀ s, I s → D o s ∧ I (exec o s)) : EveryStep exec D os s :=
  everyStep_true.imp h0 fun o ho s hs _ => hstep o ho s hs

/-- What holds in every state holds in the last. -/
theorem EveryState.last (h : EveryState exec P os s) : P (runOps exec os s) := by
  induction os generalizing s with
  | nil => exact h
  | cons o os ih => exact ih h.2

/-- If `C` says exactly when an operation keeps `P`, then `P` holds along a run if and only if every
operation is allowed. -/
theorem everyState_iff_everyStep (hI : ∀ o ∈ os, ∀ s, I s → I (exec o s))
    (hstep : ∀ o ∈ os, ∀ s, I s → P s → (P (exec o s) ↔ C o s)) (h0 : I s) (hs : P s) :
    EveryState exec P os s ↔ EveryStep exec C os s := by
  induction os generalizing s with
  | nil => exact ⟨fun _ => trivial, fun _ => hs⟩
  | cons o os ih =>
    have hhead := hstep o List.mem_cons_self s h0 hs
    have htail := fun hnext : P (exec o s) =>
      ih (fun o' ho' => hI o' (List.mem_cons_of_mem _ ho'))
        (fun o' ho' => hstep o' (List.mem_cons_of_mem _ ho')) (hI o List.mem_cons_self s h0) hnext
    constructor
    · intro h
      have hnext : P (exec o s) := h.2.head
      exact ⟨hhead.1 hnext, (htail hnext).1 h.2⟩
    · intro h
      have hnext : P (exec o s) := hhead.2 h.1
      exact ⟨hs, (htail hnext).2 h.2⟩

end

/-! ## Replies -/

section
variable {σ τ ω ω' ρ : Type*}

/-- What the calls of a sequence return, one after the other. -/
def replies (call : ω → σ → ρ × σ) : List ω → σ → List ρ
  | [], _ => []
  | o :: os, s => (call o s).1 :: replies call os (call o s).2

/-- Two machines return the same if a relation between their states is kept, and allowed calls from
related states return the same. -/
theorem replies_eq_of_simulation {call : ω → σ → ρ × σ} {call' : ω' → τ → ρ × τ} {f : ω → ω'}
    {R : σ → τ → Prop} {C : ω → σ → Prop} {os : List ω} {s : σ} {t : τ} (h0 : R s t)
    (hstep : ∀ o ∈ os, ∀ s t, R s t → C o s →
      (call o s).1 = (call' (f o) t).1 ∧ R (call o s).2 (call' (f o) t).2)
    (hC : EveryStep (fun o s => (call o s).2) C os s) :
    replies call os s = replies call' (os.map f) t := by
  induction os generalizing s t with
  | nil => rfl
  | cons o os ih =>
    obtain ⟨hreply, hnext⟩ := hstep o List.mem_cons_self s t h0 hC.1
    rw [List.map_cons, replies, replies, hreply,
      ih hnext (fun o' ho' => hstep o' (List.mem_cons_of_mem _ ho')) hC.2]

end
