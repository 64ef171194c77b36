import Mathlib.Data.Nat.ModEq
import Mathlib.Data.Nat.Prime.Basic

/-!
# Mixing the bits of a word

A mixer spreads the bits of a word by a list of steps: the word is combined with a shifted copy of
itself, or multiplied by a constant. Neither loses anything if the shift is not zero and the
constant is odd (`Step.Lossless`), so a mixer of such steps maps different words to different words
(`mix_injective`).
-/

namespace Mixing

variable {w : Nat}

/-- A step of a mixer. -/
inductive Step (w : Nat) where
  | xorShift (k : Nat)
  | mul (c : BitVec w)
  deriving DecidableEq, Repr

def Step.apply : Step w → BitVec w → BitVec w
  | .xorShift k, x => x ^^^ (x >>> k)
  | .mul c, x => x * c

/-- The word after all steps. -/
def mix (steps : List (Step w)) (x : BitVec w) : BitVec w :=
  steps.foldl (fun x step => step.apply x) x

/-- The step maps different words to different words. -/
def Step.Lossless : Step w → Prop
  | .xorShift k => 0 < k
  | .mul c => Odd c.toNat

/-- A word that is its own shift has been shifted out. -/
theorem eq_zero_of_shiftRight_eq {k : Nat} (hk : 0 < k) {x : BitVec w} (h : x >>> k = x) :
    x = 0#w := by
  have hshift : ∀ n, x >>> (n * k) = x := by
    intro n
    induction n with
    | zero => rw [Nat.zero_mul, BitVec.ushiftRight_zero]
    | succ n ih => rw [Nat.succ_mul, BitVec.shiftRight_add, ih, h]
  rw [← hshift w]
  exact BitVec.ushiftRight_eq_zero (Nat.le_mul_of_pos_right w hk)

theorem xor_shiftRight_injective {k : Nat} (hk : 0 < k) :
    Function.Injective fun x : BitVec w => x ^^^ (x >>> k) := by
  intro x y h
  have heq : x ^^^ (x >>> k) = y ^^^ (y >>> k) := h
  -- the step is linear, so the difference of the two words is its own shift
  have hdiff : (x ^^^ y) >>> k = x ^^^ y := calc
    (x ^^^ y) >>> k = x >>> k ^^^ y >>> k := BitVec.ushiftRight_xor_distrib x y k
    _ = x ^^^ (x ^^^ (x >>> k)) ^^^ y >>> k := by
      rw [← BitVec.xor_assoc x, BitVec.xor_self, BitVec.zero_xor]
    _ = x ^^^ (y ^^^ (y >>> k)) ^^^ y >>> k := by rw [heq]
    _ = x ^^^ y := by rw [BitVec.xor_assoc, BitVec.xor_assoc, BitVec.xor_self, BitVec.xor_zero]
  exact BitVec.xor_eq_zero_iff.1 (eq_zero_of_shiftRight_eq hk hdiff)

/-- An odd factor is prime to the modulus. -/
theorem mul_injective_of_odd {c : BitVec w} (hc : Odd c.toNat) :
    Function.Injective fun x : BitVec w => x * c := by
  intro x y h
  have hmod : x.toNat * c.toNat ≡ y.toNat * c.toNat [MOD 2 ^ w] := by
    have hnat : (x * c).toNat = (y * c).toNat := congrArg BitVec.toNat h
    rwa [BitVec.toNat_mul, BitVec.toNat_mul] at hnat
  have hcoprime : (2 ^ w).gcd c.toNat = 1 := Nat.Coprime.pow_left w (Nat.coprime_two_left.2 hc)
  have hcancel := hmod.cancel_right_of_coprime hcoprime
  exact BitVec.eq_of_toNat_eq (hcancel.eq_of_lt_of_lt x.isLt y.isLt)

theorem Step.Lossless.injective {step : Step w} (h : step.Lossless) :
    Function.Injective step.apply := by
  cases step with
  | xorShift k => exact xor_shiftRight_injective h
  | mul c => exact mul_injective_of_odd h

/-- A mixer of lossless steps is lossless. -/
theorem mix_injective {steps : List (Step w)} (h : ∀ step ∈ steps, step.Lossless) :
    Function.Injective (mix steps) := by
  induction steps with
  | nil => exact Function.injective_id
  | cons step steps ih =>
    obtain ⟨hstep, hsteps⟩ := List.forall_mem_cons.1 h
    exact (ih hsteps).comp hstep.injective

end Mixing
