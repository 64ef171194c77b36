import ElCache.Lib.Digits
import ElCache.Lib.Text

/-!
# Reading hexadecimal numbers

`stoull` reads the hexadecimal number a text starts with, as `std::stoull` does in base 16. A number
written with a fixed number of digits, padded with zeros, is read back (`stoull_digits`), whatever
characters stand for the digits.
-/

namespace Hex

open Text Digits

/-- The value of a hexadecimal digit of either case. -/
def digit (c : Char) : Option Nat :=
  if 48 ≤ c.toNat ∧ c.toNat ≤ 57 then some (c.toNat - 48)
  else if 97 ≤ c.toNat ∧ c.toNat ≤ 102 then some (c.toNat - 87)
  else if 65 ≤ c.toNat ∧ c.toNat ≤ 70 then some (c.toNat - 55)
  else none

/-- `std::isspace`. -/
def isSpace (c : Char) : Bool := c.toNat = 32 ∨ 9 ≤ c.toNat ∧ c.toNat ≤ 13

/-- An optional sign at the front. -/
def splitSign : List Char → Bool × List Char
  | [] => (false, [])
  | c :: rest =>
    if c = '-' then (true, rest) else if c = '+' then (false, rest) else (false, c :: rest)

/-- The text behind an optional mark `0x`, which only counts if a digit follows. -/
def dropMark : List Char → List Char
  | z :: x :: c :: rest =>
    if z = '0' ∧ (x = 'x' ∨ x = 'X') ∧ (digit c).isSome then c :: rest else z :: x :: c :: rest
  | s => s

/-- The number a list of digits stands for. -/
def number (ds : List Char) : Nat := ds.foldl (fun n c => 16 * n + (digit c).getD 0) 0

/-- The sign and the magnitude of the number a text starts with. -/
def scan (s : List Char) : Option (Bool × Nat) :=
  let signed := splitSign (s.dropWhile isSpace)
  let ds := (dropMark signed.2).takeWhile fun c => (digit c).isSome
  if ds.isEmpty then none else some (signed.1, number ds)

/-- `std::stoull` in base 16. A negative number wraps around. -/
def stoull (s : List Char) : Except StdException Nat :=
  match scan s with
  | none => .error .invalidArgument
  | some (negative, n) =>
    if 2 ^ 64 ≤ n then .error .outOfRange
    else .ok (if negative then (2 ^ 64 - n) % 2 ^ 64 else n)

theorem isSpace_of_digit {c : Char} (h : (digit c).isSome = true) : isSpace c = false := by
  rw [isSpace, decide_eq_false_iff_not]
  rw [digit] at h
  split at h
  · omega
  · split at h
    · omega
    · split at h
      · omega
      · cases h

/-- A digit is none of the other characters of a number. -/
theorem ne_of_digit {c d : Char} (h : (digit c).isSome = true) (hd : digit d = none) : c ≠ d := by
  rintro rfl
  rw [hd] at h
  cases h

/-- A text of digits is read as a whole. -/
theorem scan_of_digits {s : List Char} (hs : ∀ c ∈ s, (digit c).isSome = true) (hne : s ≠ []) :
    scan s = some (false, number s) := by
  obtain ⟨c, rest, rfl⟩ := List.exists_cons_of_ne_nil hne
  have hc := hs c List.mem_cons_self
  have hspace : (c :: rest).dropWhile isSpace = c :: rest :=
    List.dropWhile_cons_of_neg (by rw [isSpace_of_digit hc]; exact Bool.false_ne_true)
  have hsign : splitSign (c :: rest) = (false, c :: rest) := by
    rw [splitSign, if_neg (ne_of_digit hc (by decide)), if_neg (ne_of_digit hc (by decide))]
  have hmark : dropMark (c :: rest) = c :: rest := by
    cases rest with
    | nil => rfl
    | cons x rest =>
      cases rest with
      | nil => rfl
      | cons d rest =>
        have hx := hs x (List.mem_cons_of_mem _ List.mem_cons_self)
        refine if_neg ?_
        rintro ⟨-, hmark | hmark, -⟩
        · exact ne_of_digit hx (by decide) hmark
        · exact ne_of_digit hx (by decide) hmark
  rw [scan, hspace, hsign]
  simp only [hmark, List.takeWhile_eq_self_iff.2 hs]
  rfl

theorem number_map_reverse {f : Nat → Char} {ds : List Nat}
    (h : ∀ d ∈ ds, digit (f d) = some d) : number (ds.reverse.map f) = Nat.ofDigits 16 ds := by
  induction ds with
  | nil => rfl
  | cons d ds ih =>
    have hrest := ih fun x hx => h x (List.mem_cons_of_mem _ hx)
    rw [number] at hrest
    rw [number, List.reverse_cons, List.map_append, List.foldl_append, hrest, List.map_singleton,
      List.foldl_cons, List.foldl_nil, h d List.mem_cons_self, Nat.ofDigits_cons, Option.getD_some,
      Nat.add_comm]

/-- A number written with `w` digits, most significant first, is read back. -/
theorem stoull_digits {f : Nat → Char} (hf : ∀ d < 16, digit (f d) = some d) {w n : Nat}
    (hw : 0 < w) (hn : n < 16 ^ w) (hlt : n < 2 ^ 64) :
    stoull ((digits 16 w n).reverse.map f) = .ok n := by
  have hdigit : ∀ d ∈ digits 16 w n, digit (f d) = some d := fun d hd =>
    hf d (lt_of_mem_digits (by decide) hd)
  have hall : ∀ c ∈ (digits 16 w n).reverse.map f, (digit c).isSome = true := by
    intro c hc
    obtain ⟨d, hd, rfl⟩ := List.mem_map.1 hc
    rw [hdigit d (List.mem_reverse.1 hd)]
    rfl
  have hne : (digits 16 w n).reverse.map f ≠ [] := by
    refine List.ne_nil_of_length_pos ?_
    rwa [List.length_map, List.length_reverse, length_digits]
  rw [stoull, scan_of_digits hall hne, number_map_reverse hdigit, ofDigits_digits_of_lt hn]
  exact if_neg (Nat.not_le.2 hlt)

end Hex
