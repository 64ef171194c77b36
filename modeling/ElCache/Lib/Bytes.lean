import ElCache.Lib.Digits
import ElCache.Lib.Slice

/-!
# Little-endian numbers

`leBytes w n` is the number `n` in `w` bytes, least significant first, and `leVal` reads a byte list
back. The two are inverse to each other on the numbers that fit and the lists of the width.
-/

namespace Bytes

open Digits Slice

/-- The `w` low bytes of a number, least significant first. -/
def leBytes (w n : Nat) : List UInt8 := (digits 256 w n).map UInt8.ofNat

/-- The number a byte list stands for, least significant byte first. -/
def leVal : List UInt8 → Nat
  | [] => 0
  | b :: bs => b.toNat + 256 * leVal bs

@[simp] theorem length_leBytes (w n : Nat) : (leBytes w n).length = w := by
  rw [leBytes, List.length_map, length_digits]

theorem leVal_eq (bs : List UInt8) : leVal bs = Nat.ofDigits 256 (bs.map UInt8.toNat) := by
  induction bs with
  | nil => rfl
  | cons b bs ih => rw [leVal, ih, List.map_cons, Nat.ofDigits_cons]

/-- Reading a number back gives it, modulo what the width can hold. -/
theorem leVal_leBytes (w n : Nat) : leVal (leBytes w n) = n % 256 ^ w := by
  have hmap : (leBytes w n).map UInt8.toNat = digits 256 w n := by
    rw [leBytes, List.map_map]
    refine (List.map_congr_left fun d hd => ?_).trans (List.map_id _)
    exact Nat.mod_eq_of_lt (lt_of_mem_digits (by decide) hd)
  rw [leVal_eq, hmap, ofDigits_digits]

theorem leVal_leBytes_of_lt {w n : Nat} (h : n < 256 ^ w) : leVal (leBytes w n) = n := by
  rw [leVal_leBytes, Nat.mod_eq_of_lt h]

theorem leVal_lt (bs : List UInt8) : leVal bs < 256 ^ bs.length := by
  induction bs with
  | nil => exact Nat.one_pos
  | cons b bs ih =>
    have hb := b.toNat_lt
    rw [leVal, List.length_cons, Nat.pow_succ]
    omega

/-- Writing a byte list's number gives the list back. -/
theorem leBytes_leVal (bs : List UInt8) : leBytes bs.length (leVal bs) = bs := by
  have hlt : ∀ d ∈ bs.map UInt8.toNat, d < 256 := by
    intro d hd
    obtain ⟨b, -, rfl⟩ := List.mem_map.1 hd
    exact b.toNat_lt
  have hdigits := digits_ofDigits hlt
  rw [List.length_map] at hdigits
  rw [leBytes, leVal_eq, hdigits, List.map_map]
  refine (List.map_congr_left fun b _ => ?_).trans (List.map_id _)
  exact UInt8.ofNat_toNat

/-- Reading a number from the middle of a byte list. -/
theorem leVal_slice_leBytes {u v : List UInt8} {a w n : Nat} (hu : u.length = a) :
    leVal (slice (u ++ (leBytes w n ++ v)) a (a + w)) = n % 256 ^ w := by
  have hslice := slice_append_right u (leBytes w n ++ v) 0 w
  have hfield := slice_append_left (leBytes w n) v
  rw [length_leBytes] at hfield
  rw [hu, Nat.add_zero, hfield] at hslice
  rw [hslice, leVal_leBytes]

end Bytes
