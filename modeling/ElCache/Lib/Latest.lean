import Mathlib.Data.Set.Insert

/-!
# Tables that keep the latest version

A table maps a key to one version of what was offered under it, and takes a new version if its rank
is greater than the rank of the version it has. What such a table holds depends only on the set of
versions offered (`IsLatest.unique`), if versions of one key and one rank are equal: the order of
the offers and their repetition do not matter.
-/

namespace Latest

variable {κ ν γ : Type} [LinearOrder γ] {key : ν → κ} {rank : ν → γ}

/-- A table holds, for every key of the versions in `S`, one of them of the highest rank. -/
structure IsLatest (key : ν → κ) (rank : ν → γ) (S : Set ν) (t : κ → Option ν) : Prop where
  highest : ∀ k v, t k = some v → v ∈ S ∧ key v = k ∧ ∀ w ∈ S, key w = k → rank w ≤ rank v
  covers : ∀ w ∈ S, t (key w) ≠ none

/-- The latest versions are determined by the versions, if key and rank determine a version. -/
theorem IsLatest.unique {S : Set ν} {t t' : κ → Option ν} (h : IsLatest key rank S t)
    (h' : IsLatest key rank S t')
    (huniq : ∀ v ∈ S, ∀ w ∈ S, key v = key w → rank v = rank w → v = w) : t = t' := by
  funext k
  cases ht : t k with
  | none =>
    cases ht' : t' k with
    | none => rfl
    | some v =>
      obtain ⟨hmem, rfl, -⟩ := h'.highest _ _ ht'
      exact absurd ht (h.covers v hmem)
  | some v =>
    obtain ⟨hmem, rfl, hmax⟩ := h.highest _ _ ht
    obtain ⟨w, ht'⟩ := Option.ne_none_iff_exists'.1 (h'.covers v hmem)
    obtain ⟨hmem', hkey, hmax'⟩ := h'.highest _ _ ht'
    rw [ht', huniq v hmem w hmem' hkey.symm
      (le_antisymm (hmax' v hmem rfl) (hmax w hmem' hkey))]

/-- The one of two versions that is kept: the old one unless the new one has a greater rank. -/
def newer (rank : ν → γ) (old new : ν) : ν := if rank old < rank new then new else old

section
variable (rank) (old new : ν)

theorem rank_le_newer :
    rank old ≤ rank (newer rank old new) ∧ rank new ≤ rank (newer rank old new) := by
  rw [newer]
  split
  · next h => exact ⟨h.le, le_rfl⟩
  · next h => exact ⟨le_rfl, not_lt.1 h⟩

/-- What both versions satisfy. -/
theorem newer_of {old new} {p : ν → Prop} (hold : p old) (hnew : p new) :
    p (newer rank old new) := by
  rw [newer]
  split
  · exact hnew
  · exact hold

end

variable [DecidableEq κ]

/-- A version is offered to a table. -/
def offer (key : ν → κ) (rank : ν → γ) (t : κ → Option ν) (v : ν) : κ → Option ν :=
  Function.update t (key v) (some (match t (key v) with
    | none => v
    | some old => newer rank old v))

section
variable {t : κ → Option ν} {v : ν}

theorem offer_of_ne {k : κ} (h : k ≠ key v) : offer key rank t v k = t k :=
  Function.update_of_ne h _ _

theorem offer_of_none (h : t (key v) = none) : offer key rank t v (key v) = some v := by
  rw [offer, Function.update_self, h]

theorem offer_of_some {old : ν} (h : t (key v) = some old) :
    offer key rank t v (key v) = some (newer rank old v) := by
  rw [offer, Function.update_self, h]

end

theorem isLatest_singleton (v : ν) :
    IsLatest key rank {v} (Function.update (fun _ => none) (key v) (some v)) where
  highest k w hw := by
    by_cases hk : k = key v
    · subst hk
      rw [Function.update_self] at hw
      cases hw
      exact ⟨rfl, rfl, fun w hw _ => by rw [Set.mem_singleton_iff.1 hw]⟩
    · rw [Function.update_of_ne hk] at hw
      cases hw
  covers w hw := by
    rw [Set.mem_singleton_iff.1 hw, Function.update_self]
    nofun

/-- An offer keeps the table the latest of what was offered. -/
theorem IsLatest.offer {S : Set ν} {t : κ → Option ν} (h : IsLatest key rank S t) (v : ν) :
    IsLatest key rank (insert v S) (offer key rank t v) where
  highest k w hw := by
    by_cases hk : k = key v
    · subst hk
      cases hold : t (key v) with
      | none =>
        rw [offer_of_none hold] at hw
        cases hw
        refine ⟨Set.mem_insert _ _, rfl, ?_⟩
        rintro w (rfl | hw) hkey
        · exact le_rfl
        · exact absurd (hkey ▸ hold) (h.covers w hw)
      | some old =>
        rw [offer_of_some hold] at hw
        cases hw
        obtain ⟨hmem, hkey, hmax⟩ := h.highest _ _ hold
        obtain ⟨hleft, hright⟩ := rank_le_newer rank old v
        refine ⟨newer_of rank (Set.mem_insert_of_mem _ hmem) (Set.mem_insert _ _),
          newer_of (p := (key · = key v)) rank hkey rfl, ?_⟩
        rintro w (rfl | hw) hkey'
        · exact hright
        · exact (hmax w hw hkey').trans hleft
    · rw [offer_of_ne hk] at hw
      obtain ⟨hmem, hkey, hmax⟩ := h.highest _ _ hw
      refine ⟨Set.mem_insert_of_mem _ hmem, hkey, ?_⟩
      rintro w (rfl | hw') hkey'
      · exact absurd hkey'.symm hk
      · exact hmax w hw' hkey'
  covers w hw := by
    by_cases hk : key w = key v
    · rw [hk]
      cases hold : t (key v) with
      | none => rw [offer_of_none hold]; nofun
      | some old => rw [offer_of_some hold]; nofun
    · rw [offer_of_ne hk]
      rcases hw with rfl | hw
      · exact absurd rfl hk
      · exact h.covers w hw

/-- The ranks in a table only grow. -/
theorem offer_grows {t : κ → Option ν} {k : κ} {old : ν} (h : t k = some old) (v : ν) :
    ∃ new, Latest.offer key rank t v k = some new ∧ rank old ≤ rank new := by
  by_cases hk : k = key v
  · subst hk
    exact ⟨_, offer_of_some h, (rank_le_newer rank old v).1⟩
  · exact ⟨old, (offer_of_ne hk).trans h, le_rfl⟩

end Latest
