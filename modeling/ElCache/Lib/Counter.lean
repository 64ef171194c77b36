import Mathlib.Algebra.BigOperators.Group.Multiset.Basic
import Mathlib.Algebra.Order.Group.Nat
import Mathlib.Data.UInt

/-!
# Counters

A program that adds up sizes does it in a machine word, whose sums wrap. Whether this matters
depends on the sizes: of objects that are held in memory at the same time no sum reaches the word's
bound. A `Counter` is a type to add up sizes in, so that one definition of the program can be read
with either arithmetic: `UInt64` for the program as it is, `ℕ` for exact sums.

What the two share is enough for the bookkeeping of a total: what was added can be subtracted again
(`Counter.add_sub_cancel_right`), whether or not a sum has wrapped in between.
-/

/-- A type to add up sizes in. Subtraction undoes addition; nothing is said about it where the
result would be negative. -/
class Counter (S : Type*) where
  [addCommMonoid : AddCommMonoid S]
  [linearOrder : LinearOrder S]
  [sub : Sub S]
  toNat : S → ℕ
  add_sub_cancel_right : ∀ a b : S, a + b - b = a
  zero_le : ∀ a : S, 0 ≤ a
  toNat_le : ∀ a b : S, toNat a ≤ toNat b ↔ a ≤ b

namespace Counter

-- of low priority, so that numbers and words keep the instances that they have anyway

instance (priority := 100) sums {S : Type*} [Counter S] : AddCommMonoid S := addCommMonoid

instance (priority := 100) comparison {S : Type*} [Counter S] : LinearOrder S := linearOrder

instance (priority := 100) difference {S : Type*} [Counter S] : Sub S := sub

/-- Exact sums. -/
instance natCounter : Counter ℕ where
  toNat n := n
  add_sub_cancel_right := Nat.add_sub_cancel
  zero_le := Nat.zero_le
  toNat_le _ _ := Iff.rfl

/-- The order of the numbers a word stands for. -/
instance wordOrder : LinearOrder UInt64 where
  le a b := a ≤ b
  lt a b := a < b
  le_refl := UInt64.le_refl
  le_trans _ _ _ := UInt64.le_trans
  lt_iff_le_not_ge a b := by
    rw [UInt64.lt_iff_toNat_lt, UInt64.le_iff_toNat_le, UInt64.le_iff_toNat_le]
    omega
  le_antisymm _ _ := UInt64.le_antisymm
  le_total := UInt64.le_total
  toDecidableLE := fun a b => UInt64.decLe a b
  toDecidableLT := fun a b => UInt64.decLt a b

/-- Sums modulo `2 ^ 64`. -/
scoped instance wordCounter : Counter UInt64 where
  toNat := UInt64.toNat
  add_sub_cancel_right := UInt64.add_sub_cancel
  zero_le _ := UInt64.zero_le
  toNat_le _ _ := UInt64.le_iff_toNat_le.symm

variable {S : Type*} [Counter S]

theorem toNat_lt (a b : S) : toNat a < toNat b ↔ a < b := by
  rw [← not_le, ← not_le, toNat_le]

@[simp] theorem toNat_nat (n : ℕ) : toNat n = n := rfl

@[simp] theorem toNat_word (a : UInt64) : toNat a = a.toNat := rfl

/-- A sum of words is the sum of the numbers, up to multiples of `2 ^ 64`. -/
theorem toNat_sum_word (s : Multiset UInt64) :
    s.sum.toNat = (s.map UInt64.toNat).sum % 2 ^ 64 := by
  induction s using Multiset.induction_on with
  | empty => rfl
  | cons a s ih =>
    rw [Multiset.sum_cons, Multiset.map_cons, Multiset.sum_cons, UInt64.toNat_add, ih,
      Nat.add_mod_mod]

/-- A sum of words is exact if it fits. -/
theorem toNat_sum_word_of_lt {s : Multiset UInt64} (h : (s.map UInt64.toNat).sum < 2 ^ 64) :
    s.sum.toNat = (s.map UInt64.toNat).sum := by
  rw [toNat_sum_word, Nat.mod_eq_of_lt h]

theorem toNat_nsmul_one {n : ℕ} (h : n < 2 ^ 64) : toNat (n • (1 : UInt64)) = n := by
  have hsum : ((Multiset.replicate n (1 : UInt64)).map UInt64.toNat).sum = n := by
    rw [Multiset.map_replicate, Multiset.sum_replicate]
    exact mul_one n
  rw [← Multiset.sum_replicate, toNat_word, toNat_sum_word_of_lt (by rwa [hsum]), hsum]

end Counter
