import ElCache.Lib.Prog
import Mathlib.Data.List.Dedup

/-!
# Linearizability

A schedule of a pool is linearizable for a sequential specification if the threads it starts can be
put in an order, consistent with which of them returned before which began, in which the
specification gives the answers the threads return (`Pool.Linearizable`).

The state is often a table, and a program looks at its own key only (`Prog.Local`). If each program
run alone does what the specification says at its key, then every schedule is linearizable in which
no thread steps while another one of the same key is between its first and its last step
(`Pool.linearizable_of_undisturbed`). Each thread takes effect at its first step.
-/

namespace Prog

universe u

variable {κ σ ω : Type*} {α β : Type u} {part : κ → σ → ω} {k k' : κ}

/-- Every step of the program reads and changes the part of the state under `k` only. -/
def Local (part : κ → σ → ω) (k : κ) : Prog σ α → Prop
  | ret _ => True
  | step u n =>
    (∀ s k', k' ≠ k → part k' (u s) = part k' s) ∧
    (∀ s s', part k s = part k s' → part k (u s) = part k (u s') ∧ n s = n s') ∧
    ∀ s, (n s).Local part k

theorem local_pure (a : α) : Local part k (pure a : Prog σ α) := trivial

theorem local_atomic {f : σ → α × σ} (hframe : ∀ s k', k' ≠ k → part k' (f s).2 = part k' s)
    (hread : ∀ s s', part k s = part k s' →
      part k (f s).2 = part k (f s').2 ∧ (f s).1 = (f s').1) : Local part k (atomic f) := by
  refine ⟨hframe, fun s s' hs => ?_, fun s => trivial⟩
  obtain ⟨hpart, hres⟩ := hread s s' hs
  exact ⟨hpart, congrArg ret hres⟩

theorem Local.bind {p : Prog σ α} {c : α → Prog σ β} (hp : p.Local part k)
    (hc : ∀ a, (c a).Local part k) : (p >>= c).Local part k := by
  show (p.bind c).Local part k
  induction p with
  | ret a => exact hc a
  | step u n ih =>
    refine ⟨hp.1, fun s s' hs => ?_, fun s => ih s (hp.2.2 s)⟩
    obtain ⟨hpart, hn⟩ := hp.2.1 s s' hs
    exact ⟨hpart, congrArg (Prog.bind · c) hn⟩

/-- Every program is local to the whole state. -/
theorem local_whole (p : Prog σ α) : p.Local (fun (_ : Unit) s => s) () := by
  induction p with
  | ret a => trivial
  | step u n ih =>
    refine ⟨fun s k hk => absurd rfl hk, fun s s' hs => ?_, ih⟩
    cases hs
    exact ⟨rfl, rfl⟩

/-- A local program leaves the other parts as they are. -/
theorem Local.run_frame {p : Prog σ α} (hp : p.Local part k) (hk : k' ≠ k) (s : σ) :
    part k' (p.run s).2 = part k' s := by
  induction p generalizing s with
  | ret a => rfl
  | step u n ih => exact (ih s (hp.2.2 s) (u s)).trans (hp.1 s k' hk)

/-- What a local program returns, and what it leaves in its part, depends on its part only. -/
theorem Local.run_congr {p : Prog σ α} (hp : p.Local part k) {s s' : σ}
    (hs : part k s = part k s') :
    (p.run s).1 = (p.run s').1 ∧ part k (p.run s).2 = part k (p.run s').2 := by
  induction p generalizing s s' with
  | ret a => exact ⟨rfl, hs⟩
  | step u n ih =>
    obtain ⟨hpart, hn⟩ := hp.2.1 s s' hs
    rw [run, run, ← hn]
    exact ih s (hp.2.2 s) hpart

end Prog

/-- The thread has taken its first step and has another one to take. -/
def Thread.between {σ α : Type*} (t : Thread σ α) : Bool :=
  t.first.isSome &&
    match t.prog with
    | .ret _ => false
    | .step _ _ => true

theorem Thread.between_step {σ α : Type*} {t : Thread σ α} {u : σ → σ} {n : σ → Prog σ α}
    (hfirst : t.first.isSome = true) (hprog : t.prog = .step u n) : t.between = true := by
  rw [between, hfirst, hprog]
  rfl

/-- A thread that has started and is not between its steps has returned. -/
theorem Thread.returned {σ α : Type*} {t : Thread σ α} (hfirst : t.first.isSome = true)
    (hbetween : t.between = false) : ∃ a, t.prog = .ret a := by
  cases hprog : t.prog with
  | ret a => exact ⟨a, rfl⟩
  | step u n =>
    rw [between_step hfirst hprog] at hbetween
    cases hbetween

namespace Pool

variable {ι κ σ τ ω α : Type*} [DecidableEq ι]

/-! ## Sequential histories -/

/-- The operations of a list, the latest first, one after the other: the state they leave, and the
answer of each. -/
def sequential (spec : ι → τ → α × τ) (t : τ) : List ι → τ × (ι → Option α)
  | [] => (t, fun _ => none)
  | i :: order =>
    let r := spec i (sequential spec t order).1
    (r.2, Function.update (sequential spec t order).2 i (some r.1))

/-- If the answers do not depend on the state, the order does not matter. -/
theorem sequential_of_const {spec : ι → τ → α × τ} {f : ι → α} (h : ∀ i t, (spec i t).1 = f i)
    (t : τ) {order : List ι} {i : ι} (hi : i ∈ order) :
    (sequential spec t order).2 i = some (f i) := by
  induction order with
  | nil => exact absurd hi List.not_mem_nil
  | cons j order ih =>
    rw [sequential]
    by_cases hij : i = j
    · subst hij
      exact (Function.update_self ..).trans (congrArg some (h i _))
    · exact (Function.update_of_ne hij _ _).trans (ih ((List.mem_cons.1 hi).resolve_left hij))

/-- Thread `i` had returned when thread `j` took its first turn. -/
def Precedes (P : Pool ι σ α) (sched : List ι) (i j : ι) : Prop :=
  ∃ late early, sched = late ++ j :: early ∧ j ∉ early ∧ i ∈ early ∧
    ∃ a, ((P.schedule early).threads i).prog = .ret a

/-- There is an order of threads that the schedule has started, the latest first, in which none
comes before a thread that had returned when it began, and in which the specification gives the
answer of every thread that has returned. -/
def Linearizable (spec : ι → τ → α × τ) (t : τ) (P : Pool ι σ α) (sched : List ι) : Prop :=
  ∃ order : List ι, order.Nodup ∧ (∀ i ∈ order, i ∈ sched) ∧
    order.Pairwise (fun later earlier => ¬ Precedes P sched later earlier) ∧
    ∀ i ∈ sched, ∀ a, ((P.schedule sched).threads i).prog = .ret a →
      (sequential spec t order).2 i = some a

/-- The order of the first turns agrees with real time. -/
theorem pairwise_dedup (P : Pool ι σ α) (sched : List ι) :
    sched.dedup.Pairwise fun later earlier => ¬ Precedes P sched later earlier := by
  -- a turn more at the front does not change which threads precede one that has had its first turn
  have hcons : ∀ (i : ι) (sched : List ι) (x y : ι), y ∈ sched → Precedes P (i :: sched) x y →
      Precedes P sched x y := by
    rintro i sched x y hy ⟨late, early, heq, hfresh, hx, hret⟩
    cases late with
    | nil =>
      obtain ⟨rfl, rfl⟩ := List.cons.inj heq
      exact absurd hy hfresh
    | cons l late =>
      obtain ⟨rfl, rfl⟩ := List.cons.inj heq
      exact ⟨late, early, rfl, hfresh, hx, hret⟩
  induction sched with
  | nil => exact .nil
  | cons i sched ih =>
    have htail : sched.dedup.Pairwise fun later earlier => ¬ Precedes P
        (i :: sched) later earlier :=
      ih.imp_of_mem fun _ hy hnot h => hnot (hcons i sched _ _ (List.mem_dedup.1 hy) h)
    by_cases hi : i ∈ sched
    · rwa [List.dedup_cons_of_mem hi]
    · rw [List.dedup_cons_of_notMem hi, List.pairwise_cons]
      refine ⟨fun y hy hprec => ?_, htail⟩
      obtain ⟨late, early, rfl, -, hx, -⟩ := hcons i sched i y (List.mem_dedup.1 hy) hprec
      exact hi (List.mem_append_right _ (List.mem_cons_of_mem _ hx))

/-! ## Undisturbed schedules -/

/-- Every turn of the schedule meets the condition in the pool it finds. -/
def EveryTurn (C : ι → Pool ι σ α → Prop) (P : Pool ι σ α) : List ι → Prop
  | [] => True
  | i :: sched => EveryTurn C P sched ∧ C i (P.schedule sched)

/-- No other thread with the key of `i` is between its first and its last step. -/
def Undisturbed (key : ι → κ) (i : ι) (P : Pool ι σ α) : Prop :=
  ∀ j, j ≠ i → key j = key i → (P.threads j).between = false

/-- What holds after an undisturbed schedule. Each thread that has started has the answer it returns
when it is run to its end, and the state it then leaves matches the specification at its key. -/
structure Effective (progs : ι → Prog σ α) (key : ι → κ) (part : κ → σ → ω)
    (M : κ → ω → τ → Prop) (sched : List ι) (P : Pool ι σ α) (g : τ × (ι → Option α)) : Prop where
  waiting : ∀ i, i ∉ sched → P.threads i = ⟨progs i, none⟩
  started : ∀ i, i ∈ sched → (P.threads i).first.isSome = true
  isLocal : ∀ i, (P.threads i).prog.Local part (key i)
  answered : ∀ i, i ∈ sched → g.2 i = some ((P.threads i).prog.run P.shared).1
  settled : ∀ k, (∀ i, key i = k → (P.threads i).between = false) → M k (part k P.shared) g.1
  pending : ∀ i, (P.threads i).between = true →
    M (key i) (part (key i) ((P.threads i).prog.run P.shared).2) g.1

section
variable {progs : ι → Prog σ α} {key : ι → κ} {part : κ → σ → ω} {M : κ → ω → τ → Prop}
  {sched : List ι} {P : Pool ι σ α} {g g' : τ × (ι → Option α)} {i : ι} {u : σ → σ}
  {n : σ → Prog σ α}

theorem isSome_first_turn (hprog : (P.threads i).prog = .step u n) :
    ((P.turn i).threads i).first.isSome = true := by
  rw [turn, hprog]
  exact congrArg (fun t => t.first.isSome) (Function.update_self i _ P.threads)

omit [DecidableEq ι] in
/-- A step of thread `i` leaves alone what is found under other keys. -/
theorem Effective.part_step (h : Effective progs key part M sched P g)
    (hprog : (P.threads i).prog = .step u n) {k : κ} (hk : k ≠ key i) :
    part k (u P.shared) = part k P.shared := by
  have hlocal := h.isLocal i
  rw [hprog] at hlocal
  exact hlocal.1 _ k hk

omit [DecidableEq ι] in
/-- What another thread will return does not change by a step of thread `i` that no thread with its
key can see. -/
theorem Effective.run_step (h : Effective progs key part M sched P g)
    (hprog : (P.threads i).prog = .step u n) (hquiet : Undisturbed key i P) {j : ι} (hji : j ≠ i)
    (hj : j ∈ sched) :
    ((P.threads j).prog.run (u P.shared)).1 = ((P.threads j).prog.run P.shared).1 := by
  by_cases hkey : key j = key i
  · obtain ⟨a, ha⟩ := Thread.returned (h.started j hj) (hquiet j hji hkey)
    rw [ha, Prog.run_ret, Prog.run_ret]
  · exact ((h.isLocal j).run_congr (h.part_step hprog hkey)).1

/-- A step of thread `i`, when the specification is already where the thread will leave its key. -/
theorem Effective.turn (h : Effective progs key part M sched P g)
    (hprog : (P.threads i).prog = .step u n) (hquiet : Undisturbed key i P)
    (hanswer : g'.2 i = some ((n P.shared).run (u P.shared)).1)
    (hmatch : M (key i) (part (key i) ((n P.shared).run (u P.shared)).2) g'.1)
    (hothers : ∀ j, j ≠ i → g'.2 j = g.2 j) (hframe : ∀ k w, k ≠ key i → M k w g.1 → M k w g'.1) :
    Effective progs key part M (i :: sched) (P.turn i) g' := by
  obtain ⟨hshared, hself, hsame⟩ := turn_step hprog
  have hfirst := isSome_first_turn hprog
  refine ⟨fun j hj => ?_, fun j hj => ?_, fun j => ?_, fun j hj => ?_, fun k hk => ?_,
    fun j hj => ?_⟩
  · rw [List.mem_cons, not_or] at hj
    rw [hsame j hj.1]
    exact h.waiting j hj.2
  · by_cases hji : j = i
    · rwa [hji]
    · rw [hsame j hji]
      exact h.started j ((List.mem_cons.1 hj).resolve_left hji)
  · by_cases hji : j = i
    · have hlocal := h.isLocal i
      rw [hprog] at hlocal
      rw [hji, hself]
      exact hlocal.2.2 P.shared
    · rw [hsame j hji]
      exact h.isLocal j
  · rw [hshared]
    by_cases hji : j = i
    · rw [hji, hself]
      exact hanswer
    · have hj' : j ∈ sched := (List.mem_cons.1 hj).resolve_left hji
      rw [hsame j hji, hothers j hji, h.answered j hj', h.run_step hprog hquiet hji hj']
  · rw [hshared]
    by_cases hki : k = key i
    · -- thread `i` has returned, so the state is the one it leaves
      obtain ⟨a, ha⟩ := Thread.returned hfirst (hk i hki.symm)
      rw [← hself, ha, Prog.run_ret] at hmatch
      rwa [hki]
    · rw [h.part_step hprog hki]
      refine hframe k _ hki (h.settled k fun j hj => ?_)
      have hji : j ≠ i := fun hji => hki (hji ▸ hj).symm
      rw [← hsame j hji]
      exact hk j hj
  · rw [hshared]
    by_cases hji : j = i
    · rw [hji, hself]
      exact hmatch
    · rw [hsame j hji] at hj ⊢
      have hkey : key j ≠ key i := by
        intro hkey
        rw [hquiet j hji hkey] at hj
        cases hj
      rw [((h.isLocal j).run_congr (h.part_step hprog hkey)).2]
      exact hframe _ _ hkey (h.pending j hj)

variable {spec : ι → τ → α × τ} {s : σ} {t : τ} (hstart : ∀ i, ∃ u n, progs i = .step u n)
  (hlocal : ∀ i, (progs i).Local part (key i))
  (hspec : ∀ i s t, M (key i) (part (key i) s) t → ((progs i).run s).1 = (spec i t).1 ∧
    M (key i) (part (key i) ((progs i).run s).2) (spec i t).2)
  (hframe : ∀ i k w t, k ≠ key i → M k w t → M k w (spec i t).2)
  (hinit : ∀ k, M k (part k s) t)
  (hquiet : EveryTurn (Undisturbed key) (start s progs) sched)

include hstart hlocal hspec hframe hinit hquiet

/-- Every undisturbed schedule of programs that do, run alone, what the specification says. -/
theorem effective_schedule :
    Effective progs key part M sched ((start s progs).schedule sched)
      (sequential spec t sched.dedup) := by
  induction sched with
  | nil => exact ⟨fun _ _ => rfl, nofun, hlocal, nofun, fun k _ => hinit k, nofun⟩
  | cons i sched ih =>
    have h := ih hquiet.1
    rw [schedule]
    obtain ⟨P, hP⟩ : ∃ P, (start s progs).schedule sched = P := ⟨_, rfl⟩
    have hundisturbed : Undisturbed key i P := hP ▸ hquiet.2
    rw [hP] at h ⊢
    by_cases hi : i ∈ sched
    · rw [List.dedup_cons_of_mem hi]
      cases hprog : (P.threads i).prog with
      | ret a =>
        rw [turn_ret hprog]
        have hmem : ∀ j, j ∈ i :: sched ↔ j ∈ sched := fun j => by
          rw [List.mem_cons]
          exact ⟨fun hj => hj.elim (fun hj => hj ▸ hi) id, .inr⟩
        exact ⟨fun j hj => h.waiting j fun hj' => hj ((hmem j).2 hj'),
          fun j hj => h.started j ((hmem j).1 hj), h.isLocal,
          fun j hj => h.answered j ((hmem j).1 hj), h.settled, h.pending⟩
      | step u n =>
        have hanswer := h.answered i hi
        have hmatch := h.pending i (Thread.between_step (h.started i hi) hprog)
        rw [hprog] at hanswer hmatch
        exact h.turn hprog hundisturbed hanswer hmatch (fun _ _ => rfl) fun _ _ _ hM => hM
    · rw [List.dedup_cons_of_notMem hi]
      have hthread := h.waiting i hi
      obtain ⟨u, n, hun⟩ := hstart i
      have hprog : (P.threads i).prog = .step u n := by rw [hthread, hun]
      have hsettled : M (key i) (part (key i) P.shared) (sequential spec t sched.dedup).1 := by
        refine h.settled _ fun j hj => ?_
        by_cases hji : j = i
        · rw [hji, hthread]
          rfl
        · exact hundisturbed j hji hj
      obtain ⟨hanswer, hmatch⟩ := hspec i P.shared _ hsettled
      rw [hun] at hanswer hmatch
      refine h.turn hprog hundisturbed ?_ hmatch (fun j hj => Function.update_of_ne hj _ _)
        fun k w hk => hframe i k w _ hk
      exact (Function.update_self ..).trans (congrArg some hanswer.symm)

/-- Every undisturbed schedule of programs that do, run alone, what the specification says is
linearizable, in the order of the first turns. -/
theorem linearizable_of_undisturbed : Linearizable spec t (start s progs) sched := by
  have h := effective_schedule hstart hlocal hspec hframe hinit hquiet
  refine ⟨sched.dedup, sched.nodup_dedup, fun i hi => List.mem_dedup.1 hi,
    pairwise_dedup _ sched, fun i hi a ha => ?_⟩
  rw [h.answered i hi, ha, Prog.run_ret]

end

end Pool
