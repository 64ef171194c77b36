import Mathlib.Data.List.Perm.Basic

/-!
# Writing over parts of a list

`overwrite v o b` stores the elements of `b` one by one in `v`, from position `o` on. A `Write` is a
buffer with the position it goes to, `Write.stored` the element it stores at a position, and
`lastAt` the element that a sequence of writes, the latest first, leaves there. Overwriting a list
that is given position by position gives such a list again (`overwrite_map_range`), and the order of
writes that do not overlap does not matter (`lastAt_perm`).
-/

namespace Overlay

variable {α β : Type*}

/-- Store the elements of a buffer at consecutive positions. Positions past the end are skipped. -/
def overwrite : List α → Nat → List α → List α
  | v, _, [] => v
  | v, o, x :: b => overwrite (v.set o x) (o + 1) b

/-- A buffer and the position of its first element. -/
structure Write (α : Type*) where
  offset : Nat
  data : List α
  deriving DecidableEq, Repr

namespace Write

/-- The element a write stores at a position. -/
def stored (w : Write α) (i : Nat) : Option α :=
  if w.offset ≤ i then w.data[i - w.offset]? else none

/-- No position is written by both. -/
def Disjoint (w w' : Write α) : Prop := ∀ i, w.stored i = none ∨ w'.stored i = none

theorem stored_map (f : α → β) (o : Nat) (b : List α) (i : Nat) :
    (⟨o, b.map f⟩ : Write β).stored i = ((⟨o, b⟩ : Write α).stored i).map f := by
  simp only [stored]
  split
  · exact List.getElem?_map
  · rfl

/-- Writing two buffers one behind the other. -/
theorem stored_append {o i : Nat} {b b' : List α} {x : α} :
    (⟨o, b ++ b'⟩ : Write α).stored i = some x ↔
      (⟨o, b⟩ : Write α).stored i = some x ∨ (⟨o + b.length, b'⟩ : Write α).stored i = some x := by
  simp only [stored, List.getElem?_append]
  rcases Nat.lt_or_ge i o with hlt | hge
  · rw [if_neg (by omega), if_neg (by omega), if_neg (by omega), or_self]
  · rw [if_pos hge, if_pos hge]
    rcases Nat.lt_or_ge (i - o) b.length with hin | hout
    · rw [if_pos hin, if_neg (by omega)]
      simp
    · rw [if_neg (by omega), if_pos (by omega), List.getElem?_eq_none hout, Nat.sub_sub]
      simp

end Write

/-! ## What overwriting leaves -/

@[simp] theorem length_overwrite (v : List α) (o : Nat) (b : List α) :
    (overwrite v o b).length = v.length := by
  induction b generalizing v o with
  | nil => rfl
  | cons x b ih => rw [overwrite, ih, List.length_set]

/-- An element is the one written over it, if there is one. -/
theorem getElem?_overwrite (v : List α) (o : Nat) (b : List α) (i : Nat) :
    (overwrite v o b)[i]? = v[i]?.map fun x => ((⟨o, b⟩ : Write α).stored i).getD x := by
  induction b generalizing v o with
  | nil => simp [overwrite, Write.stored]
  | cons x b ih =>
    rw [overwrite, ih]
    simp only [Write.stored]
    rcases Nat.lt_trichotomy i o with hlt | rfl | hgt
    · rw [if_neg (by omega), if_neg (by omega), List.getElem?_set_ne (by omega)]
    · rw [if_neg (by omega), if_pos (Nat.le_refl i), List.getElem?_set_self']
      cases v[i]? with
      | none => rfl
      | some y => simp
    · rw [if_pos (by omega), if_pos (by omega), List.getElem?_set_ne (by omega),
        show i - o = (i - (o + 1)) + 1 by omega, List.getElem?_cons_succ]

/-- Overwriting a list given by its elements. -/
theorem overwrite_map_range (n : Nat) (f : Nat → α) (o : Nat) (b : List α) :
    overwrite ((List.range n).map f) o b =
      (List.range n).map fun i => ((⟨o, b⟩ : Write α).stored i).getD (f i) := by
  apply List.ext_getElem?
  intro i
  rw [getElem?_overwrite, List.getElem?_map, List.getElem?_map]
  cases hi : (List.range n)[i]? with
  | none => rfl
  | some j =>
    obtain ⟨hlt, hj⟩ := List.getElem?_eq_some_iff.1 hi
    rw [List.getElem_range] at hj
    rw [hj]
    rfl

/-! ## The last write -/

/-- The element a sequence of writes, the latest first, leaves at a position. -/
def lastAt (ws : List (Write α)) (i : Nat) : Option α := ws.findSome? (·.stored i)

@[simp] theorem lastAt_nil (i : Nat) : lastAt ([] : List (Write α)) i = none := rfl

theorem lastAt_cons (w : Write α) (ws : List (Write α)) (i : Nat) :
    lastAt (w :: ws) i = (w.stored i).or (lastAt ws i) := by
  rw [lastAt, List.findSome?_cons]
  cases w.stored i with
  | none => rfl
  | some x => rfl

/-- When no two writes overlap, a position has the element of any write that covers it. -/
theorem lastAt_eq_some_iff {ws : List (Write α)} (hws : ws.Pairwise Write.Disjoint) (i : Nat)
    (x : α) : lastAt ws i = some x ↔ ∃ w ∈ ws, w.stored i = some x := by
  induction ws with
  | nil => simp
  | cons w ws ih =>
    obtain ⟨hw, hws⟩ := List.pairwise_cons.1 hws
    rw [lastAt_cons, Option.or_eq_some_iff, ih hws]
    constructor
    · rintro (h | ⟨-, w', hmem, h⟩)
      · exact ⟨w, List.mem_cons_self, h⟩
      · exact ⟨w', List.mem_cons_of_mem _ hmem, h⟩
    · rintro ⟨w', hmem, h⟩
      rcases List.mem_cons.1 hmem with rfl | hmem
      · exact .inl h
      · rcases hw w' hmem i with hnone | hnone
        · exact .inr ⟨hnone, w', hmem, h⟩
        · rw [hnone] at h
          cases h

/-- The order of writes that do not overlap does not matter. -/
theorem lastAt_perm {ws ws' : List (Write α)} (h : ws.Perm ws') (hws : ws.Pairwise Write.Disjoint)
    (i : Nat) : lastAt ws i = lastAt ws' i := by
  have hsymm : ∀ w w' : Write α, w.Disjoint w' → w'.Disjoint w := fun w w' hd i => (hd i).symm
  have hws' : ws'.Pairwise Write.Disjoint := h.pairwise hws (hsymm _ _)
  ext x
  rw [lastAt_eq_some_iff hws, lastAt_eq_some_iff hws']
  constructor
  · rintro ⟨w, hmem, hw⟩
    exact ⟨w, h.mem_iff.1 hmem, hw⟩
  · rintro ⟨w, hmem, hw⟩
    exact ⟨w, h.mem_iff.2 hmem, hw⟩

end Overlay
