import Mathlib.Data.List.Sort
import Mathlib.Data.Finset.Card

/-!
# Ordered maps, and walks around them

An `OrderedMap` is the list of its entries in strictly increasing order of keys, so a map is
determined by the entries it has (`ext_mem`). A walk that starts at the first key not less than `k`,
and goes on at the beginning when it comes to the end, meets the entries in the order `around k`.
The last section is about the elements of a list in the order of their first occurrences,
`List.eraseDups`.
-/

/-- A finite map, as its entries in increasing order of keys. -/
@[ext] structure OrderedMap (κ ν : Type) [LinearOrder κ] where
  entries : List (κ × ν)
  sorted : entries.Pairwise fun a b => a.1 < b.1

namespace OrderedMap

variable {κ ν : Type} [LinearOrder κ]

/-- The map without entries. -/
def empty : OrderedMap κ ν := ⟨[], .nil⟩

/-- Sets the value at a key. -/
def insert (m : OrderedMap κ ν) (k : κ) (v : ν) : OrderedMap κ ν where
  entries := m.entries.filter (·.1 < k) ++ (k, v) :: m.entries.filter (k < ·.1)
  sorted := by
    refine List.pairwise_append.2 ⟨m.sorted.filter _,
      List.pairwise_cons.2 ⟨?_, m.sorted.filter _⟩, ?_⟩
    · intro b hb
      exact of_decide_eq_true (List.mem_filter.1 hb).2
    · intro a ha b hb
      have hlt : a.1 < k := of_decide_eq_true (List.mem_filter.1 ha).2
      rcases List.mem_cons.1 hb with rfl | hb
      · exact hlt
      · exact hlt.trans (of_decide_eq_true (List.mem_filter.1 hb).2)

/-- Drops the entry at a key. -/
def erase (m : OrderedMap κ ν) (k : κ) : OrderedMap κ ν where
  entries := m.entries.filter (·.1 ≠ k)
  sorted := m.sorted.filter _

/-- The position of the first entry whose key is not less than `k`; the end if there is none. -/
def lowerBound (m : OrderedMap κ ν) (k : κ) : Nat := (m.entries.takeWhile (·.1 < k)).length

/-- The entries from the first key not less than `k` on, and then those before it. -/
def around (m : OrderedMap κ ν) (k : κ) : List (κ × ν) :=
  m.entries.filter (k ≤ ·.1) ++ m.entries.filter (·.1 < k)

section
variable {m m' : OrderedMap κ ν} {k : κ} {v : ν} {e : κ × ν}

/-- Maps with the same entries are equal. -/
theorem ext_mem (h : ∀ e, e ∈ m.entries ↔ e ∈ m'.entries) : m = m' := by
  have : Std.Irrefl fun a b : κ × ν => a.1 < b.1 := ⟨fun a => lt_irrefl a.1⟩
  have : Std.Antisymm fun a b : κ × ν => a.1 < b.1 := ⟨fun _ _ h h' => absurd h' h.asymm⟩
  exact OrderedMap.ext (m.sorted.eq_of_mem_iff m'.sorted h)

theorem mem_insert : e ∈ (m.insert k v).entries ↔ e = (k, v) ∨ e ∈ m.entries ∧ e.1 ≠ k := by
  simp only [insert, List.mem_append, List.mem_cons, List.mem_filter, decide_eq_true_eq,
    ne_iff_lt_or_gt]
  tauto

theorem mem_erase : e ∈ (m.erase k).entries ↔ e ∈ m.entries ∧ e.1 ≠ k := by
  simp only [erase, List.mem_filter, decide_eq_true_eq]

/-- One value is set at several keys. -/
theorem mem_foldl_insert (keys : List κ) :
    e ∈ (keys.foldl (fun m k => m.insert k v) m).entries ↔
      e.2 = v ∧ e.1 ∈ keys ∨ e ∈ m.entries ∧ e.1 ∉ keys := by
  induction keys generalizing m with
  | nil => simp
  | cons k keys ih =>
    rw [List.foldl_cons, ih, mem_insert, List.mem_cons, Prod.ext_iff]
    tauto

/-- Several keys are dropped. -/
theorem mem_foldl_erase (keys : List κ) :
    e ∈ (keys.foldl (fun m k => m.erase k) m).entries ↔ e ∈ m.entries ∧ e.1 ∉ keys := by
  induction keys generalizing m with
  | nil => simp
  | cons k keys ih =>
    rw [List.foldl_cons, ih, mem_erase, List.mem_cons]
    tauto

theorem mem_around : e ∈ m.around k ↔ e ∈ m.entries := by
  simp only [around, List.mem_append, List.mem_filter, decide_eq_true_eq]
  have := le_or_gt k e.1
  tauto

/-- The walk around a map that holds some of the entries of another. -/
theorem around_filter {p : κ × ν → Bool} (h : m'.entries = m.entries.filter p) (k : κ) :
    m'.around k = (m.around k).filter p := by
  rw [around, around, h, List.filter_append, List.filter_comm p, List.filter_comm p]

end

/-- In a sorted list the entries that are less than `k` are those before the first that is not. -/
theorem takeWhile_eq_filter {l : List (κ × ν)} (h : l.Pairwise fun a b => a.1 < b.1) (k : κ) :
    l.takeWhile (·.1 < k) = l.filter (·.1 < k) ∧ l.dropWhile (·.1 < k) = l.filter (k ≤ ·.1) := by
  induction l with
  | nil => exact ⟨rfl, rfl⟩
  | cons a l ih =>
    obtain ⟨hhead, htail⟩ := List.pairwise_cons.1 h
    by_cases hlt : a.1 < k
    · simp [hlt, ih htail]
    · have hle : k ≤ a.1 := not_lt.1 hlt
      have hall : ∀ b ∈ l, k ≤ b.1 := fun b hb => hle.trans (hhead b hb).le
      have hnone : l.filter (·.1 < k) = [] :=
        List.filter_eq_nil_iff.2 fun b hb => by simpa using hall b hb
      have hfull : l.filter (k ≤ ·.1) = l :=
        List.filter_eq_self.2 fun b hb => by simpa using hall b hb
      simp [hle, hnone, hfull]

/-- The walk from the lower bound. -/
theorem around_eq (m : OrderedMap κ ν) (k : κ) :
    m.around k = m.entries.drop (m.lowerBound k) ++ m.entries.take (m.lowerBound k) := by
  obtain ⟨htake, hdrop⟩ := takeWhile_eq_filter m.sorted k
  have hsplit := List.takeWhile_append_dropWhile (p := (·.1 < k)) (l := m.entries)
  have hd : m.entries.drop (m.lowerBound k) = m.entries.dropWhile (·.1 < k) := by
    nth_rewrite 1 [← hsplit]
    exact List.drop_left
  have ht : m.entries.take (m.lowerBound k) = m.entries.takeWhile (·.1 < k) := by
    nth_rewrite 1 [← hsplit]
    exact List.take_left
  rw [around, hd, ht, htake, hdrop]

/-- One step of a walk around a list, at the position `it`: the next element is there, or at the
beginning if `it` is the end. -/
theorem next_around {α : Type} {l rest : List α} {a : α} {it : Nat} (hit : it ≤ l.length)
    (h : a :: rest <+: l.drop it ++ l) :
    l[if it = l.length then 0 else it]? = some a ∧
      (if it = l.length then 0 else it) + 1 ≤ l.length ∧
      rest <+: l.drop ((if it = l.length then 0 else it) + 1) ++ l := by
  by_cases hend : it = l.length
  · rw [if_pos hend]
    rw [hend, List.drop_length, List.nil_append] at h
    cases l with
    | nil => cases List.eq_nil_of_prefix_nil h
    | cons b l =>
      obtain ⟨rfl, hrest⟩ := List.cons_prefix_cons.1 h
      exact ⟨rfl, Nat.succ_pos _, hrest.trans (List.prefix_append _ _)⟩
  · rw [if_neg hend]
    have hlt : it < l.length := by omega
    rw [List.drop_eq_getElem_cons hlt, List.cons_append, List.cons_prefix_cons] at h
    exact ⟨by rw [List.getElem?_eq_getElem hlt, h.1], hlt, h.2⟩

theorem lowerBound_le (m : OrderedMap κ ν) (k : κ) : m.lowerBound k ≤ m.entries.length :=
  (List.takeWhile_sublist _).length_le

end OrderedMap

/-! ## First occurrences -/

namespace Firsts

variable {α : Type} [DecidableEq α]

/-- Nothing is repeated among the first occurrences. -/
theorem nodup_eraseDups (l : List α) : l.eraseDups.Nodup := by
  cases l with
  | nil => exact List.nodup_nil
  | cons a l =>
    rw [List.eraseDups_cons, List.nodup_cons]
    refine ⟨?_, nodup_eraseDups (l.filter fun b => !b == a)⟩
    rw [List.mem_eraseDups, List.mem_filter]
    simp
termination_by l.length
decreasing_by exact Nat.lt_succ_of_le (List.length_filter_le _ _)

/-- Elements are dropped before or after the repetitions. -/
theorem eraseDups_filter (p : α → Bool) (l : List α) :
    (l.filter p).eraseDups = l.eraseDups.filter p := by
  cases l with
  | nil => rfl
  | cons a l =>
    have ih := eraseDups_filter p (l.filter fun b => !b == a)
    rw [List.eraseDups_cons]
    by_cases hp : p a
    · rw [List.filter_cons_of_pos hp, List.filter_cons_of_pos hp, List.eraseDups_cons, ← ih,
        List.filter_comm]
    · rw [List.filter_cons_of_neg hp, List.filter_cons_of_neg hp, ← ih, List.filter_filter]
      congr 1
      apply List.filter_congr
      intro b _
      by_cases hb : b = a
      · simp [hb, hp]
      · simp [hb]
termination_by l.length
decreasing_by exact Nat.lt_succ_of_le (List.length_filter_le _ _)

/-- A list without repetitions is its first occurrences. -/
theorem eraseDups_of_nodup {l : List α} (h : l.Nodup) : l.eraseDups = l := by
  induction l with
  | nil => rfl
  | cons a l ih =>
    obtain ⟨hnot, hnodup⟩ := List.nodup_cons.1 h
    have hfilter : (l.filter fun b => !b == a) = l := List.filter_eq_self.2 fun b hb => by
      simpa using fun heq : b = a => hnot (heq ▸ hb)
    rw [List.eraseDups_cons, hfilter, ih hnodup]

/-- There are as many first occurrences as elements. -/
theorem length_eraseDups (l : List α) : l.eraseDups.length = l.toFinset.card := by
  have heq : l.eraseDups.toFinset = l.toFinset := by
    ext a
    rw [List.mem_toFinset, List.mem_toFinset, List.mem_eraseDups]
  rw [← heq, List.toFinset_card_of_nodup (nodup_eraseDups l)]

/-- One more element is a first occurrence if it is not among the elements before it. -/
theorem eraseDups_append_cons (l : List α) (a : α) (rest : List α) :
    (l ++ a :: rest).eraseDups = ((if a ∈ l then l else l ++ [a]) ++ rest).eraseDups := by
  split
  · next hmem =>
    rw [List.eraseDups_append, List.eraseDups_append, List.cons_removeAll,
      if_neg (by simpa using hmem)]
  · rw [List.append_assoc, List.singleton_append]

/-- Elements that are all different are the first occurrences of a list that starts with them. -/
theorem take_eraseDups_append {l : List α} (h : l.Nodup) (rest : List α) :
    (l ++ rest).eraseDups.take l.length = l := by
  rw [List.eraseDups_append, eraseDups_of_nodup h]
  exact List.take_left

end Firsts
