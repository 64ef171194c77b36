import Mathlib.Data.Nat.Digits.Defs

/-!
# Fixed-width digits

`digits b w n` is the number `n` written with exactly `w` digits in base `b`, least significant
first. `Nat.ofDigits` reads it back: the two are inverse to each other on the numbers below `b ^ w`
and the digit lists of length `w` (`ofDigits_digits`, `digits_ofDigits`).
-/

namespace Digits

/-- The `w` low digits of `n` in base `b`, least significant first. -/
def digits (b : Nat) : Nat → Nat → List Nat
  | 0, _ => []
  | w + 1, n => n % b :: digits b w (n / b)

@[simp] theorem length_digits (b w n : Nat) : (digits b w n).length = w := by
  induction w generalizing n with
  | zero => rfl
  | succ w ih => rw [digits, List.length_cons, ih]

theorem lt_of_mem_digits {b w n d : Nat} (hb : 0 < b) (hd : d ∈ digits b w n) : d < b := by
  induction w generalizing n with
  | zero => cases hd
  | succ w ih =>
    rcases List.mem_cons.1 hd with rfl | hd
    · exact Nat.mod_lt _ hb
    · exact ih hd

/-- The digits beyond the first `w` are those of the quotient. -/
theorem digits_add (b w v n : Nat) :
    digits b (w + v) n = digits b w n ++ digits b v (n / b ^ w) := by
  induction w generalizing n with
  | zero => rw [Nat.zero_add, digits, List.nil_append, Nat.pow_zero, Nat.div_one]
  | succ w ih =>
    rw [Nat.succ_add, digits, ih, Nat.div_div_eq_div_mul, digits, List.cons_append, Nat.pow_succ']

/-- Reading the digits back gives the number, modulo what the width can hold. -/
theorem ofDigits_digits (b w n : Nat) : Nat.ofDigits b (digits b w n) = n % b ^ w := by
  induction w generalizing n with
  | zero => rw [digits, Nat.pow_zero, Nat.mod_one]; rfl
  | succ w ih =>
    rw [digits, Nat.ofDigits_cons, ih, Nat.pow_succ', Nat.mod_mul]

theorem ofDigits_digits_of_lt {b w n : Nat} (h : n < b ^ w) :
    Nat.ofDigits b (digits b w n) = n := by
  rw [ofDigits_digits, Nat.mod_eq_of_lt h]

/-- The digits of a number that fits determine it. -/
theorem digits_inj {b w n m : Nat} (hn : n < b ^ w) (hm : m < b ^ w)
    (h : digits b w n = digits b w m) : n = m := by
  rw [← ofDigits_digits_of_lt hn, h, ofDigits_digits_of_lt hm]

/-- Writing a digit list's number gives the list back. -/
theorem digits_ofDigits {b : Nat} {ds : List Nat} (h : ∀ d ∈ ds, d < b) :
    digits b ds.length (Nat.ofDigits b ds) = ds := by
  induction ds with
  | nil => rfl
  | cons d ds ih =>
    have hd : d < b := h d List.mem_cons_self
    rw [List.length_cons, digits, Nat.ofDigits_cons]
    have hmod : (d + b * Nat.ofDigits b ds) % b = d := by
      rw [Nat.add_mul_mod_self_left, Nat.mod_eq_of_lt hd]
    have hdiv : (d + b * Nat.ofDigits b ds) / b = Nat.ofDigits b ds := by
      rw [Nat.add_mul_div_left _ _ (Nat.zero_lt_of_lt hd), Nat.div_eq_of_lt hd, Nat.zero_add]
    simp only [hmod, hdiv, ih fun x hx => h x (List.mem_cons_of_mem _ hx)]

end Digits
