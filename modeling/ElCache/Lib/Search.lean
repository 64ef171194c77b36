import ElCache.Lib.Text
import Mathlib.Data.List.Infix

/-!
# Searching in a text that is put together from pieces

A search for `pat` passes over a piece of the text if no occurrence of `pat` starts in the piece,
whatever follows it (`Skips`). Pieces that are passed over can be put together (`Skips.append`,
`skips_joined`), and for a fixed text the condition can be decided. The search then goes on behind
the piece (`find_append_of_skips`, `seek_of_skips`).
-/

namespace Text

variable {α : Type*} [DecidableEq α]

/-- No occurrence of `pat` starts in `s`, whatever follows `s`. -/
def Skips (pat s : List α) : Prop := ∀ u ∈ s.tails, u ≠ [] → ¬ pat <+: u ∧ ¬ u <+: pat

instance decidableSkips (pat s : List α) : Decidable (Skips pat s) :=
  inferInstanceAs (Decidable (∀ u ∈ s.tails, _))

section
variable {pat s t : List α} {c d : α}

omit [DecidableEq α] in
theorem skips_nil (pat : List α) : Skips pat [] := by
  intro u hu hne
  exact absurd (List.mem_singleton.1 hu) hne

omit [DecidableEq α] in
theorem skips_cons : Skips pat (c :: s) ↔
    (¬ pat <+: c :: s ∧ ¬ c :: s <+: pat) ∧ Skips pat s := by
  rw [Skips, List.tails_cons, List.forall_mem_cons, Skips]
  exact and_congr_left fun _ => imp_iff_right (List.cons_ne_nil c s)

omit [DecidableEq α] in
/-- What cannot start here cannot start here in a longer text. -/
theorem not_prefix_append (h : ¬ pat <+: s ∧ ¬ s <+: pat) (t : List α) :
    ¬ pat <+: s ++ t ∧ ¬ s ++ t <+: pat := by
  refine ⟨fun hpre => ?_, fun hpre => h.2 ((List.prefix_append s t).trans hpre)⟩
  rcases List.prefix_or_prefix_of_prefix hpre (List.prefix_append s t) with hle | hle
  · exact h.1 hle
  · exact h.2 hle

omit [DecidableEq α] in
theorem Skips.append (hs : Skips pat s) (ht : Skips pat t) : Skips pat (s ++ t) := by
  induction s with
  | nil => exact ht
  | cons c s ih =>
    obtain ⟨hc, hs⟩ := skips_cons.1 hs
    exact skips_cons.2 ⟨not_prefix_append hc t, ih hs⟩

omit [DecidableEq α] in
/-- An occurrence starts with the first element of the pattern. -/
theorem skips_of_notMem (h : c ∉ s) (pat : List α) : Skips (c :: pat) s := by
  induction s with
  | nil => exact skips_nil _
  | cons d s ih =>
    obtain ⟨hd, hs⟩ := not_or.1 (mt List.mem_cons.2 h)
    refine skips_cons.2 ⟨⟨fun hpre => hd ?_, fun hpre => hd ?_⟩, ih hs⟩
    · exact (List.cons_prefix_cons.1 hpre).1
    · exact (List.cons_prefix_cons.1 hpre).1.symm

omit [DecidableEq α] in
theorem skips_flatMap {β : Type*} {xs : List β} {f : β → List α} (h : ∀ x ∈ xs, Skips pat (f x)) :
    Skips pat (xs.flatMap f) := by
  induction xs with
  | nil => exact skips_nil _
  | cons x xs ih =>
    rw [List.flatMap_cons]
    exact (h x List.mem_cons_self).append (ih fun y hy => h y (List.mem_cons_of_mem _ hy))

/-- The search goes on behind a piece that is passed over. -/
theorem find_append_of_skips (hs : Skips pat s) (t : List α) :
    find pat (s ++ t) = (find pat t).map (· + s.length) := by
  induction s with
  | nil =>
    rw [List.nil_append]
    exact Option.map_id'.symm
  | cons c s ih =>
    obtain ⟨hc, hs⟩ := skips_cons.1 hs
    have hno : ¬ pat.isPrefixOf (c :: (s ++ t)) = true := fun hpre =>
      (not_prefix_append hc t).1 (List.isPrefixOf_iff_prefix.1 hpre)
    rw [List.cons_append, find, if_neg hno, ih hs, Option.map_map]
    rfl

/-- A text that is passed over has no occurrence. -/
theorem find_eq_none_of_skips (hs : Skips pat s) (hpat : pat ≠ []) : find pat s = none := by
  have h := find_append_of_skips hs []
  rwa [List.append_nil, find, if_neg hpat] at h

/-- The text from the first occurrence of `pat` on. -/
def seek (pat s : List α) : Option (List α) := (find pat s).map s.drop

theorem seek_of_skips (hs : Skips pat s) (t : List α) :
    seek pat (s ++ (pat ++ t)) = some (pat ++ t) := by
  rw [seek, find_append_of_skips hs, find_append]
  simp

end

omit [DecidableEq α] in
/-- A run ends at the latest with the first element that does not belong to it. -/
theorem takeWhile_append_cons {p : α → Bool} {c : α} (hc : p c = false) (s t : List α) :
    (s ++ c :: t).takeWhile p = s.takeWhile p := by
  induction s with
  | nil => rw [List.nil_append, List.takeWhile_cons, hc]; rfl
  | cons d s ih => rw [List.cons_append, List.takeWhile_cons, List.takeWhile_cons, ih]

/-! ## Pieces with something between them -/

/-- The pieces one after the other, with `sep` between any two. -/
def joined (sep : List α) : List (List α) → List α
  | [] => []
  | x :: xs => x ++ xs.flatMap fun y => sep ++ y

omit [DecidableEq α] in
/-- The pieces before and behind one of them. -/
theorem joined_append (sep : List α) (xs : List (List α)) (y : List α) (ys : List (List α)) :
    joined sep (xs ++ y :: ys) =
      (xs.flatMap fun x => x ++ sep) ++ (y ++ ys.flatMap fun z => sep ++ z) := by
  cases xs with
  | nil => rfl
  | cons x xs =>
    have hshift : ∀ rest : List α, (xs.flatMap fun x => sep ++ x) ++ (sep ++ rest) =
        sep ++ ((xs.flatMap fun x => x ++ sep) ++ rest) := by
      induction xs with
      | nil => intro rest; rfl
      | cons z xs ih =>
        intro rest
        simp only [List.flatMap_cons, List.append_assoc, ih]
    rw [List.cons_append, joined, List.flatMap_append, List.flatMap_cons, List.flatMap_cons,
      List.append_assoc, List.append_assoc, hshift, List.append_assoc]

omit [DecidableEq α] in
theorem notMem_joined {c : α} {sep : List α} (hsep : c ∉ sep) {xs : List (List α)}
    (hxs : ∀ x ∈ xs, c ∉ x) : c ∉ joined sep xs := by
  cases xs with
  | nil => exact List.not_mem_nil
  | cons x xs =>
    obtain ⟨hx, hxs⟩ := List.forall_mem_cons.1 hxs
    rw [joined, List.mem_append, List.mem_flatMap]
    rintro (h | ⟨y, hy, h⟩)
    · exact hx h
    · rcases List.mem_append.1 h with h | h
      · exact hsep h
      · exact hxs y hy h

omit [DecidableEq α] in
/-- Joined pieces are passed over if each of them is, together with the element that follows it. -/
theorem skips_joined {pat sep close : List α} {c d : α} {xs : List (List α)}
    (hxs : ∀ x ∈ xs, Skips pat (x ++ [c]) ∧ Skips pat (x ++ [d])) (hsep : Skips pat sep)
    (hclose : Skips pat (d :: close)) : Skips pat (joined (c :: sep) xs ++ d :: close) := by
  cases xs with
  | nil => exact hclose
  | cons x xs =>
    rw [joined]
    induction xs generalizing x with
    | nil =>
      have h := (hxs x List.mem_cons_self).2.append (skips_cons.1 hclose).2
      rw [List.append_assoc, List.singleton_append] at h
      rw [List.flatMap_nil, List.append_nil]
      exact h
    | cons y xs ih =>
      have hrest := ih y fun z hz => hxs z (List.mem_cons_of_mem _ hz)
      have h := (hxs x List.mem_cons_self).1.append (hsep.append hrest)
      rw [List.flatMap_cons]
      simp only [List.append_assoc, List.cons_append, List.nil_append] at h ⊢
      exact h

end Text
