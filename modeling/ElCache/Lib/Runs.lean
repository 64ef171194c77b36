import Mathlib.Data.List.Basic
import Mathlib.Data.Set.Basic

/-!
# Sets of numbers as lists of runs

A set of natural numbers can be given by its maximal runs, as half-open intervals in increasing
order (`IsRuns`). The rules below build such a list from either end: an interval is put in front of
the others or behind them if there is a gap between, and otherwise the last one is made longer.
-/

namespace Runs

variable {r : Nat × Nat}

/-- A number is in one of the half-open intervals. -/
def Covers (l : List (Nat × Nat)) (b : Nat) : Prop := ∃ r ∈ l, r.1 ≤ b ∧ b < r.2

/-- The intervals are the maximal runs of a set, in increasing order: none is empty, between any two
there is a gap, and together they are the set. -/
structure IsRuns (l : List (Nat × Nat)) (S : Set Nat) : Prop where
  nonempty : ∀ r ∈ l, r.1 < r.2
  separated : l.Pairwise fun r r' => r.2 < r'.1
  covers : ∀ b, Covers l b ↔ b ∈ S

theorem covers_cons {l : List (Nat × Nat)} {b : Nat} :
    Covers (r :: l) b ↔ (r.1 ≤ b ∧ b < r.2) ∨ Covers l b := by
  simp only [Covers, List.mem_cons, exists_eq_or_imp]

theorem covers_append {l l' : List (Nat × Nat)} {b : Nat} :
    Covers (l ++ l') b ↔ Covers l b ∨ Covers l' b := by
  simp only [Covers, List.mem_append, or_and_right, exists_or]

theorem covers_singleton {b : Nat} : Covers [r] b ↔ r.1 ≤ b ∧ b < r.2 := by
  simp only [Covers, List.mem_singleton, exists_eq_left]

theorem isRuns_nil {S : Set Nat} (h : ∀ b, b ∉ S) : IsRuns [] S where
  nonempty _ hr := by cases hr
  separated := .nil
  covers b := by
    refine ⟨?_, fun hb => absurd hb (h b)⟩
    rintro ⟨r, hr, -⟩
    cases hr

section
variable {l : List (Nat × Nat)} {S T : Set Nat} {start stop : Nat}

theorem IsRuns.congr (h : IsRuns l S) (hST : ∀ b, b ∈ S ↔ b ∈ T) : IsRuns l T :=
  ⟨h.nonempty, h.separated, fun b => (h.covers b).trans (hST b)⟩

/-- The first and the last element of each run are in the set. -/
theorem IsRuns.ends (h : IsRuns l S) (hr : r ∈ l) : r.1 ∈ S ∧ r.2 - 1 ∈ S := by
  have hlt := h.nonempty r hr
  exact ⟨(h.covers _).1 ⟨r, hr, le_rfl, hlt⟩, (h.covers _).1 ⟨r, hr, by omega, by omega⟩⟩

/-- There are no runs exactly if the set is empty. -/
theorem IsRuns.eq_nil_iff (h : IsRuns l S) : l = [] ↔ ∀ b, b ∉ S := by
  constructor
  · rintro rfl b hb
    obtain ⟨r, hr, -⟩ := (h.covers b).2 hb
    cases hr
  · intro hempty
    refine List.eq_nil_iff_forall_not_mem.2 fun r hr => hempty _ (h.ends hr).1

/-- A run in front of the others. -/
theorem IsRuns.cons (h : IsRuns l S) (hlt : start < stop) (hgap : ∀ b ∈ S, stop < b)
    (hT : ∀ b, b ∈ T ↔ (start ≤ b ∧ b < stop) ∨ b ∈ S) : IsRuns ((start, stop) :: l) T where
  nonempty r hr := by
    rcases List.mem_cons.1 hr with rfl | hr
    · exact hlt
    · exact h.nonempty r hr
  separated := List.pairwise_cons.2 ⟨fun r hr => hgap _ (h.ends hr).1, h.separated⟩
  covers b := by rw [covers_cons, h.covers, hT]

/-- A run behind the others. -/
theorem IsRuns.snoc (h : IsRuns l S) (hlt : start < stop) (hgap : ∀ b ∈ S, b + 1 < start)
    (hT : ∀ b, b ∈ T ↔ b ∈ S ∨ (start ≤ b ∧ b < stop)) : IsRuns (l ++ [(start, stop)]) T where
  nonempty r hr := by
    rcases List.mem_append.1 hr with hr | hr
    · exact h.nonempty r hr
    · rw [List.mem_singleton.1 hr]
      exact hlt
  separated := by
    refine List.pairwise_append.2 ⟨h.separated, List.pairwise_singleton _ _, fun r hr r' hr' => ?_⟩
    have hend := hgap _ (h.ends hr).2
    have hne := h.nonempty r hr
    rw [List.mem_singleton.1 hr']
    show r.2 < start
    omega
  covers b := by rw [covers_append, covers_singleton, h.covers, hT]

/-- The last run made longer. -/
theorem IsRuns.extend {first : Nat} (h : IsRuns (l ++ [(first, start)]) S) (hlt : start < stop)
    (hT : ∀ b, b ∈ T ↔ b ∈ S ∨ (start ≤ b ∧ b < stop)) : IsRuns (l ++ [(first, stop)]) T := by
  have hfirst : first < start := h.nonempty _ (List.mem_append_right l List.mem_cons_self)
  obtain ⟨hsep, -, hcross⟩ := List.pairwise_append.1 h.separated
  refine ⟨fun r hr => ?_, ?_, fun b => ?_⟩
  · rcases List.mem_append.1 hr with hr | hr
    · exact h.nonempty r (List.mem_append_left _ hr)
    · rw [List.mem_singleton.1 hr]
      exact hfirst.trans hlt
  · refine List.pairwise_append.2 ⟨hsep, List.pairwise_singleton _ _, fun r hr r' hr' => ?_⟩
    rw [List.mem_singleton.1 hr']
    exact hcross r hr (first, start) List.mem_cons_self
  · rw [hT, ← h.covers, covers_append, covers_append, covers_singleton, covers_singleton, or_assoc]
    refine or_congr_right ?_
    show first ≤ b ∧ b < stop ↔ (first ≤ b ∧ b < start) ∨ start ≤ b ∧ b < stop
    omega

/-- The end of the last run, for a set below a bound. -/
theorem IsRuns.last_le {first last : Nat} (h : IsRuns (l ++ [(first, last)]) S)
    (hbelow : ∀ b ∈ S, b < start) :
    last ≤ start ∧ (last < start → ∀ b ∈ S, b + 1 < start) := by
  have hmem : (first, last) ∈ l ++ [(first, last)] := List.mem_append_right l List.mem_cons_self
  have hlt : first < last := h.nonempty _ hmem
  have hend : last - 1 < start := hbelow _ (h.ends hmem).2
  refine ⟨by omega, fun hgap b hb => ?_⟩
  obtain ⟨r, hr, hle, hb⟩ := (h.covers b).2 hb
  obtain ⟨-, -, hcross⟩ := List.pairwise_append.1 h.separated
  rcases List.mem_append.1 hr with hr | hr
  · have := hcross r hr (first, last) List.mem_cons_self
    simp only at this
    omega
  · rw [List.mem_singleton.1 hr] at hb
    simp only at hb
    omega

end

end Runs
