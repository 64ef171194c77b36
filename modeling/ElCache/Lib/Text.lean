import Mathlib.Data.List.TakeWhile
import Mathlib.Data.Nat.Digits.Defs

/-!
# Byte strings and the numbers in them

The string functions of the C++ standard library on lists of bytes: searching and cutting (`find`,
`rfind`, `substr`), reading a number from the front of a text (`stoull`, `stoll`) and writing one
(`decimal`). What they throw is a value of `StdException`.

`Reads s negative n` says which texts start with a number: blanks, a sign, digits. `scan` finds
exactly these (`scan_eq_some_iff`), so `Unsigned` and `Signed` describe the texts that can be
converted (`isOk_stoull_iff`, `isOk_stoll_iff`). What `decimal` writes is read back
(`number_decimal`), hence it is injective.
-/

namespace Text

variable {s : List UInt8} {c : UInt8} {negative : Bool} {n : Nat}

/-- What the string functions throw. -/
inductive StdException where
  | invalidArgument
  | outOfRange
  deriving DecidableEq, Repr

section
variable {ε α β : Type} {x : Except ε α} {f : α → Except ε β}

/-- A computation that yields a value has not thrown before: its first part yields one, and the rest
goes on from it. -/
theorem exists_of_bind_eq_ok {b : β} (h : x >>= f = .ok b) : ∃ a, x = .ok a ∧ f a = .ok b := by
  cases x with
  | error e => cases h
  | ok a => exact ⟨a, rfl, h⟩

/-- A computation yields a value with a property exactly if its first part yields one from which the
rest does. As a rewriting rule it takes a sequence of binds apart from the front. -/
theorem exists_bind_eq_ok {p : β → Prop} :
    (∃ b, x >>= f = .ok b ∧ p b) ↔ ∃ a, x = .ok a ∧ ∃ b, f a = .ok b ∧ p b := by
  constructor
  · rintro ⟨b, hb, hp⟩
    obtain ⟨a, ha, h⟩ := exists_of_bind_eq_ok hb
    exact ⟨a, ha, b, h, hp⟩
  · rintro ⟨a, rfl, h⟩
    exact h

end

/-- The bytes of a string literal. -/
def ascii (s : String) : List UInt8 := s.toList.map fun c => UInt8.ofNat c.toNat

/-! ## Searching and cutting -/

section
variable {α : Type*} [DecidableEq α]

/-- The position of the first occurrence of `pat`. -/
def find (pat : List α) : List α → Option Nat
  | [] => if pat = [] then some 0 else none
  | c :: rest => if pat.isPrefixOf (c :: rest) then some 0 else (find pat rest).map (· + 1)

/-- The position of the last occurrence of `pat`. -/
def rfind (pat : List α) : List α → Option Nat
  | [] => if pat = [] then some 0 else none
  | c :: rest =>
    match rfind pat rest with
    | some i => some (i + 1)
    | none => if pat.isPrefixOf (c :: rest) then some 0 else none

omit [DecidableEq α] in
/-- The text from a position on. -/
def substr (s : List α) (pos : Nat) : Except StdException (List α) :=
  if s.length < pos then .error .outOfRange else .ok (s.drop pos)

omit [DecidableEq α] in
/-- At most `count` elements of the text from a position on. -/
def substrN (s : List α) (pos count : Nat) : Except StdException (List α) :=
  (substr s pos).map (List.take count)

/-- A text that starts with `pat`. -/
theorem find_append (pat s : List α) : find pat (pat ++ s) = some 0 := by
  cases h : pat ++ s with
  | nil =>
    rw [find, if_pos (List.append_eq_nil_iff.1 h).1]
  | cons c rest =>
    rw [find, if_pos]
    rw [← h]
    exact List.isPrefixOf_iff_prefix.2 (List.prefix_append pat s)

/-- The first occurrence of an element. -/
theorem find_singleton {c : α} {s : List α} (hs : c ∉ s) (rest : List α) :
    find [c] (s ++ c :: rest) = some s.length := by
  induction s with
  | nil => exact find_append [c] rest
  | cons d s ih =>
    obtain ⟨hd, hs⟩ := not_or.1 (mt List.mem_cons.2 hs)
    have hne : ¬ [c].isPrefixOf (d :: (s ++ c :: rest)) = true := by
      simpa [List.isPrefixOf] using hd
    rw [List.cons_append, find, if_neg hne, ih hs]
    rfl

/-- An occurrence lies inside the text. -/
theorem find_add_length_le {pat s : List α} {i : Nat} (h : find pat s = some i) :
    i + pat.length ≤ s.length := by
  induction s generalizing i with
  | nil =>
    rw [find] at h
    split at h
    · next hpat =>
      cases h
      rw [hpat]
      exact le_rfl
    · cases h
  | cons c rest ih =>
    rw [find] at h
    split at h
    · next hpre =>
      cases h
      rw [Nat.zero_add]
      exact (List.isPrefixOf_iff_prefix.1 hpre).length_le
    · obtain ⟨j, hj, rfl⟩ := Option.map_eq_some_iff.1 h
      have := ih hj
      rw [List.length_cons]
      omega

/-- What follows an occurrence can be cut out. -/
theorem substr_find {pat s : List α} {i : Nat} (h : find pat s = some i) :
    substr s (i + pat.length) = .ok (s.drop (i + pat.length)) :=
  if_neg (Nat.not_lt.2 (find_add_length_le h))

/-- A text shorter than `pat` has no occurrence. -/
theorem rfind_eq_none {pat s : List α} (h : s.length < pat.length) : rfind pat s = none := by
  induction s with
  | nil => exact if_neg (List.ne_nil_of_length_pos h)
  | cons c rest ih =>
    have hne : ¬ pat.isPrefixOf (c :: rest) = true := fun hpre =>
      absurd (List.isPrefixOf_iff_prefix.1 hpre).length_le (Nat.not_le.2 h)
    rw [rfind, ih (Nat.lt_of_succ_lt h)]
    exact if_neg hne

/-- A text that ends with `pat`. -/
theorem rfind_append {pat : List α} (hpat : pat ≠ []) (s : List α) :
    rfind pat (s ++ pat) = some s.length := by
  induction s with
  | nil =>
    obtain ⟨c, rest, rfl⟩ := List.exists_cons_of_ne_nil hpat
    rw [List.nil_append, rfind, rfind_eq_none (Nat.lt_succ_self _)]
    exact if_pos (List.isPrefixOf_iff_prefix.2 (List.prefix_refl _))
  | cons d s ih => rw [List.cons_append, rfind, ih]; rfl

/-- The last occurrence of an element. -/
theorem rfind_singleton {c : α} {rest : List α} (hrest : c ∉ rest) (s : List α) :
    rfind [c] (s ++ c :: rest) = some s.length := by
  have hnone : rfind [c] rest = none := by
    induction rest with
    | nil => rfl
    | cons d rest ih =>
      obtain ⟨hd, hrest⟩ := not_or.1 (mt List.mem_cons.2 hrest)
      rw [rfind, ih hrest]
      exact if_neg (by simpa [List.isPrefixOf] using hd)
  induction s with
  | nil =>
    rw [List.nil_append, rfind, hnone]
    exact if_pos (by simp [List.isPrefixOf])
  | cons d s ih =>
    rw [List.cons_append, rfind, ih]
    rfl

end

theorem substrN_zero {α : Type*} (s : List α) (count : Nat) :
    substrN s 0 count = .ok (s.take count) := rfl

theorem substr_append {α : Type*} (s t : List α) : substr (s ++ t) s.length = .ok t := by
  rw [substr, List.length_append, if_neg (Nat.not_lt.2 (Nat.le_add_right _ _)), List.drop_left]

/-- The text in front of an element and the text behind it. -/
theorem substr_around {α : Type*} (s : List α) (c : α) (t : List α) :
    substrN (s ++ c :: t) 0 s.length = .ok s ∧ substr (s ++ c :: t) (s.length + 1) = .ok t := by
  have hbehind := substr_append (s ++ [c]) t
  rw [List.append_assoc, List.singleton_append, List.length_append] at hbehind
  refine ⟨?_, hbehind⟩
  rw [substrN, substr, if_neg (Nat.not_lt_zero _)]
  exact congrArg Except.ok (by rw [List.drop_zero, List.take_left])

/-! ## Characters -/

/-- `std::tolower`. -/
def toLower (c : UInt8) : UInt8 := if 65 ≤ c ∧ c ≤ 90 then c + 32 else c

/-- `std::isspace`. -/
def isSpace (c : UInt8) : Bool := c = 32 ∨ 9 ≤ c ∧ c ≤ 13

/-- `std::isdigit`. -/
def isDigit (c : UInt8) : Bool := 48 ≤ c ∧ c ≤ 57

/-- The number a list of digits stands for. -/
def number (ds : List UInt8) : Nat := ds.foldl (fun n c => 10 * n + (c.toNat - 48)) 0

theorem isSpace_of_isDigit (h : isDigit c = true) : isSpace c = false := by
  simp only [isDigit, decide_eq_true_eq, UInt8.le_iff_toNat_le] at h
  simp only [isSpace, decide_eq_false_iff_not, UInt8.le_iff_toNat_le, ← UInt8.toNat_inj]
  have h1 : (48 : UInt8).toNat = 48 := rfl
  have h2 : (32 : UInt8).toNat = 32 := rfl
  have h3 : (13 : UInt8).toNat = 13 := rfl
  omega

/-- A digit is no sign. -/
theorem ne_of_isDigit {d : UInt8} (h : isDigit c = true) (hd : isDigit d = false) : c ≠ d := by
  rintro rfl
  rw [h] at hd
  cases hd

/-! ## Reading a number -/

/-- An optional sign at the front. -/
def splitSign : List UInt8 → Bool × List UInt8
  | [] => (false, [])
  | c :: rest =>
    if c = 45 then (true, rest) else if c = 43 then (false, rest) else (false, c :: rest)

/-- The sign and the magnitude of the number a text starts with, as `strtoull` finds it. -/
def scan (s : List UInt8) : Option (Bool × Nat) :=
  let signed := splitSign (s.dropWhile isSpace)
  let ds := signed.2.takeWhile isDigit
  if ds.isEmpty then none else some (signed.1, number ds)

/-- `std::stoull`. A negative number wraps around. -/
def stoull (s : List UInt8) : Except StdException Nat :=
  match scan s with
  | none => .error .invalidArgument
  | some (negative, n) =>
    if 2 ^ 64 ≤ n then .error .outOfRange
    else .ok (if negative then (2 ^ 64 - n) % 2 ^ 64 else n)

/-- `std::stoll`. -/
def stoll (s : List UInt8) : Except StdException Int :=
  match scan s with
  | none => .error .invalidArgument
  | some (true, n) => if 2 ^ 63 < n then .error .outOfRange else .ok (-(n : Int))
  | some (false, n) => if 2 ^ 63 ≤ n then .error .outOfRange else .ok n

/-- The sign of a number: nothing, a plus or a minus. -/
def signText (negative : Bool) (sign : List UInt8) : Prop :=
  if negative then sign = [45] else sign = [] ∨ sign = [43]

/-- The text starts with a number: blanks, a sign and digits, of which there are no more. -/
def Reads (s : List UInt8) (negative : Bool) (n : Nat) : Prop :=
  ∃ blanks sign ds rest, s = blanks ++ (sign ++ (ds ++ rest)) ∧
    (∀ c ∈ blanks, isSpace c = true) ∧ signText negative sign ∧
    ds ≠ [] ∧ (∀ c ∈ ds, isDigit c = true) ∧ (∀ c, rest.head? = some c → isDigit c = false) ∧
    number ds = n

theorem takeWhile_digits {ds rest : List UInt8} (hds : ∀ c ∈ ds, isDigit c = true)
    (hrest : ∀ c, rest.head? = some c → isDigit c = false) :
    (ds ++ rest).takeWhile isDigit = ds := by
  rw [List.takeWhile_append_of_pos hds]
  cases rest with
  | nil => exact List.append_nil ds
  | cons c rest =>
    rw [List.takeWhile_cons, hrest c rfl]
    exact List.append_nil ds

/-- A sign in front of a digit is recognised, and so is its absence. -/
theorem splitSign_append {sign t : List UInt8} (hsign : signText negative sign)
    (ht : ∃ c, t.head? = some c ∧ isDigit c = true) : splitSign (sign ++ t) = (negative, t) := by
  obtain ⟨c, hc, hdigit⟩ := ht
  cases t with
  | nil => cases hc
  | cons d t =>
    cases hc
    cases negative with
    | true =>
      rw [signText, if_pos rfl] at hsign
      rw [hsign]
      rfl
    | false =>
      rw [signText, if_neg Bool.false_ne_true] at hsign
      rcases hsign with rfl | rfl
      · rw [List.nil_append, splitSign, if_neg (ne_of_isDigit hdigit (by decide)),
          if_neg (ne_of_isDigit hdigit (by decide))]
      · rfl

/-- What stands after the sign, and the sign. -/
theorem splitSign_spec (s : List UInt8) :
    ∃ sign, signText (splitSign s).1 sign ∧ s = sign ++ (splitSign s).2 := by
  cases s with
  | nil => exact ⟨[], .inl rfl, rfl⟩
  | cons c rest =>
    rw [splitSign]
    split
    · next h => exact ⟨[45], rfl, by rw [h]; rfl⟩
    · split
      · next h => exact ⟨[43], .inr rfl, by rw [h]; rfl⟩
      · exact ⟨[], .inl rfl, rfl⟩

/-- Neither a sign nor a digit is a blank. -/
theorem dropWhile_blanks {blanks sign t : List UInt8} (hblanks : ∀ c ∈ blanks, isSpace c = true)
    (hsign : signText negative sign) (ht : ∃ c, t.head? = some c ∧ isDigit c = true) :
    (blanks ++ (sign ++ t)).dropWhile isSpace = sign ++ t := by
  have hhead : ∃ c u, sign ++ t = c :: u ∧ isSpace c = false := by
    obtain ⟨c, hc, hdigit⟩ := ht
    cases t with
    | nil => cases hc
    | cons d t =>
      cases hc
      rw [signText] at hsign
      split at hsign
      · exact ⟨45, c :: t, by rw [hsign]; rfl, by decide⟩
      · rcases hsign with rfl | rfl
        · exact ⟨c, t, rfl, isSpace_of_isDigit hdigit⟩
        · exact ⟨43, c :: t, rfl, by decide⟩
  obtain ⟨c, u, htext, hc⟩ := hhead
  rw [List.dropWhile_append_of_pos hblanks, htext, List.dropWhile_cons, hc]
  rfl

theorem head_rest_takeWhile (s : List UInt8) :
    ∀ c, (s.dropWhile isDigit).head? = some c → isDigit c = false := by
  intro c hc
  have := List.head?_dropWhile_not isDigit s
  rw [hc] at this
  simpa using this

/-- Scanning finds the number a text starts with, and only that. -/
theorem scan_eq_some_iff :
    scan s = some (negative, n) ↔ Reads s negative n := by
  constructor
  · intro h
    rw [scan] at h
    split at h
    · cases h
    · next hne =>
      cases h
      obtain ⟨sign, hsign, htext⟩ := splitSign_spec (s.dropWhile isSpace)
      refine ⟨s.takeWhile isSpace, sign, _, (splitSign (s.dropWhile isSpace)).2.dropWhile isDigit,
        ?_, fun c => List.mem_takeWhile_imp, hsign, ?_, fun c => List.mem_takeWhile_imp,
        head_rest_takeWhile _, rfl⟩
      · rw [List.takeWhile_append_dropWhile, ← htext, List.takeWhile_append_dropWhile]
      · simpa using hne
  · rintro ⟨blanks, sign, ds, rest, rfl, hblanks, hsign, hne, hds, hrest, rfl⟩
    have hhead : ∃ c, (ds ++ rest).head? = some c ∧ isDigit c = true := by
      obtain ⟨c, ds', rfl⟩ := List.exists_cons_of_ne_nil hne
      exact ⟨c, rfl, hds c List.mem_cons_self⟩
    simp only [scan, dropWhile_blanks hblanks hsign hhead, splitSign_append hsign hhead,
      takeWhile_digits hds hrest]
    rw [if_neg (by simpa using hne)]

/-- The text starts with a number of 64 bits. -/
def Unsigned (s : List UInt8) : Prop := ∃ negative n, Reads s negative n ∧ n < 2 ^ 64

/-- The text starts with a signed number of 64 bits. -/
def Signed (s : List UInt8) : Prop :=
  (∃ n, Reads s true n ∧ n ≤ 2 ^ 63) ∨ ∃ n, Reads s false n ∧ n < 2 ^ 63

/-- A text starts with at most one number. -/
theorem Reads.unique {a b : Bool} {m : Nat} (h : Reads s a m) (h' : Reads s b n) :
    a = b ∧ m = n := by
  have heq := (scan_eq_some_iff.2 h).symm.trans (scan_eq_some_iff.2 h')
  cases heq
  exact ⟨rfl, rfl⟩

theorem not_reads_of_scan (h : scan s = none) (negative : Bool) (n : Nat) :
    ¬ Reads s negative n := by
  intro hreads
  rw [scan_eq_some_iff.2 hreads] at h
  cases h

/-- `stoull` converts exactly these texts. -/
theorem isOk_stoull_iff : (∃ n, stoull s = .ok n) ↔ Unsigned s := by
  unfold stoull
  cases hscan : scan s with
  | none =>
    constructor
    · rintro ⟨n, h⟩
      cases h
    · rintro ⟨negative, n, h, -⟩
      exact absurd h (not_reads_of_scan hscan negative n)
  | some p =>
    obtain ⟨negative, n⟩ := p
    have hreads := scan_eq_some_iff.1 hscan
    dsimp only
    constructor
    · rintro ⟨m, h⟩
      split at h
      · cases h
      · next hlt => exact ⟨negative, n, hreads, Nat.not_le.1 hlt⟩
    · rintro ⟨negative', n', h, hlt⟩
      rw [(h.unique hreads).2] at hlt
      exact ⟨_, if_neg (Nat.not_le.2 hlt)⟩

/-- The result fits into 64 bits. -/
theorem stoull_lt (h : stoull s = .ok n) : n < 2 ^ 64 := by
  unfold stoull at h
  cases hscan : scan s with
  | none =>
    rw [hscan] at h
    cases h
  | some p =>
    rw [hscan] at h
    dsimp only at h
    split at h
    · cases h
    · next hlt =>
      cases h
      split
      · exact Nat.mod_lt _ (Nat.two_pow_pos 64)
      · exact Nat.not_le.1 hlt

/-- `stoll` converts exactly these texts. -/
theorem isOk_stoll_iff : (∃ n, stoll s = .ok n) ↔ Signed s := by
  unfold stoll
  cases hscan : scan s with
  | none =>
    constructor
    · rintro ⟨n, h⟩
      cases h
    · rintro (⟨n, h, -⟩ | ⟨n, h, -⟩)
      · exact absurd h (not_reads_of_scan hscan true n)
      · exact absurd h (not_reads_of_scan hscan false n)
  | some p =>
    obtain ⟨negative, n⟩ := p
    have hreads := scan_eq_some_iff.1 hscan
    cases negative with
    | true =>
      dsimp only
      constructor
      · rintro ⟨m, h⟩
        split at h
        · cases h
        · next hle => exact .inl ⟨n, hreads, Nat.not_lt.1 hle⟩
      · rintro (⟨n', h, hle⟩ | ⟨n', h, -⟩)
        · rw [(h.unique hreads).2] at hle
          exact ⟨_, if_neg (Nat.not_lt.2 hle)⟩
        · cases (h.unique hreads).1
    | false =>
      dsimp only
      constructor
      · rintro ⟨m, h⟩
        split at h
        · cases h
        · next hlt => exact .inr ⟨n, hreads, Nat.not_le.1 hlt⟩
      · rintro (⟨n', h, -⟩ | ⟨n', h, hlt⟩)
        · cases (h.unique hreads).1
        · rw [(h.unique hreads).2] at hlt
          exact ⟨_, if_neg (Nat.not_le.2 hlt)⟩

/-- A text of digits only is an unsigned number. -/
structure Numeral (ds : List UInt8) (n : Nat) : Prop where
  ne_nil : ds ≠ []
  digits : ∀ c ∈ ds, isDigit c = true
  value : number ds = n
  lt : n < 2 ^ 64

theorem Numeral.stoull_eq {ds : List UInt8} (h : Numeral ds n) : stoull ds = .ok n := by
  have hreads : Reads ds false n :=
    ⟨[], [], ds, [], by simp, by simp, .inl rfl, h.ne_nil, h.digits, by simp, h.value⟩
  rw [stoull, scan_eq_some_iff.2 hreads]
  exact if_neg (Nat.not_le.2 h.lt)

/-- A numeral has no character that is not a digit. -/
theorem Numeral.not_mem {ds : List UInt8} (h : Numeral ds n) (hc : isDigit c = false) :
    c ∉ ds := fun hmem => ne_of_isDigit (h.digits c hmem) hc rfl

/-! ## Writing a number -/

/-- A decimal digit. -/
def digitChar (d : Nat) : UInt8 := UInt8.ofNat (48 + d)

/-- `std::to_string` of an unsigned number. -/
def decimal (n : Nat) : List UInt8 :=
  if n = 0 then [48] else (Nat.digits 10 n).reverse.map digitChar

theorem toNat_digitChar {d : Nat} (h : d < 10) : (digitChar d).toNat = 48 + d := by
  rw [digitChar, UInt8.toNat_ofNat']
  exact Nat.mod_eq_of_lt (by omega)

theorem isDigit_digitChar {d : Nat} (h : d < 10) : isDigit (digitChar d) = true := by
  have hd := toNat_digitChar h
  simp only [isDigit, decide_eq_true_eq, UInt8.le_iff_toNat_le, hd]
  have h1 : (48 : UInt8).toNat = 48 := rfl
  have h2 : (57 : UInt8).toNat = 57 := rfl
  omega

theorem number_reverse_map (ds : List Nat) (h : ∀ d ∈ ds, d < 10) :
    number (ds.reverse.map digitChar) = Nat.ofDigits 10 ds := by
  induction ds with
  | nil => rfl
  | cons d ds ih =>
    have hstep : number ((d :: ds).reverse.map digitChar) =
        10 * number (ds.reverse.map digitChar) + ((digitChar d).toNat - 48) := by
      rw [number, List.reverse_cons, List.map_append, List.foldl_append]
      rfl
    rw [hstep, ih fun x hx => h x (List.mem_cons_of_mem _ hx),
      toNat_digitChar (h d List.mem_cons_self), Nat.ofDigits_cons]
    omega

/-- What is written is read back. -/
theorem number_decimal (n : Nat) : number (decimal n) = n := by
  rw [decimal]
  split
  · next h => rw [h]; rfl
  · rw [number_reverse_map _ fun d hd => Nat.digits_lt_base (by decide) hd, Nat.ofDigits_digits]

theorem isDigit_of_mem_decimal (hc : c ∈ decimal n) : isDigit c = true := by
  rw [decimal] at hc
  split at hc
  · rw [List.mem_singleton.1 hc]
    decide
  · obtain ⟨d, hd, rfl⟩ := List.mem_map.1 hc
    exact isDigit_digitChar (Nat.digits_lt_base (by decide) (List.mem_reverse.1 hd))

theorem decimal_ne_nil (n : Nat) : decimal n ≠ [] := by
  intro h
  have hn := number_decimal n
  rw [h] at hn
  rw [← hn] at h
  cases h

/-- A signed number as a stream writes it. -/
def decimalInt (z : Int) : List UInt8 := if z < 0 then 45 :: decimal z.natAbs else decimal z.natAbs

theorem decimalInt_natCast (n : Nat) : decimalInt n = decimal n := by
  rw [decimalInt, if_neg (by omega), Int.natAbs_natCast]

theorem decimalInt_ne_nil (z : Int) : decimalInt z ≠ [] := by
  rw [decimalInt]
  split
  · exact List.cons_ne_nil _ _
  · exact decimal_ne_nil _

theorem mem_decimalInt {z : Int} (hc : c ∈ decimalInt z) : isDigit c = true ∨ c = 45 := by
  rw [decimalInt] at hc
  split at hc
  · rcases List.mem_cons.1 hc with rfl | hc
    · exact .inr rfl
    · exact .inl (isDigit_of_mem_decimal hc)
  · exact .inl (isDigit_of_mem_decimal hc)

/-- A signed number of 64 bits is read back. -/
theorem stoll_decimalInt {z : Int} (hle : -2 ^ 63 ≤ z) (hlt : z < 2 ^ 63) :
    stoll (decimalInt z) = .ok z := by
  have hreads : ∀ sign negative, signText negative sign →
      Reads (sign ++ decimal z.natAbs) negative z.natAbs := fun sign negative hsign =>
    ⟨[], sign, decimal z.natAbs, [], by simp, by simp, hsign, decimal_ne_nil _,
      fun _ => isDigit_of_mem_decimal, by simp, number_decimal _⟩
  rw [decimalInt]
  split
  · next hneg =>
    have hscan : scan (45 :: decimal z.natAbs) = some (true, z.natAbs) :=
      scan_eq_some_iff.2 (hreads [45] true rfl)
    rw [stoll, hscan]
    dsimp only
    rw [if_neg (by omega)]
    congr 1
    omega
  · next hpos =>
    have hscan : scan (decimal z.natAbs) = some (false, z.natAbs) :=
      scan_eq_some_iff.2 (hreads [] false (.inl rfl))
    rw [stoll, hscan]
    dsimp only
    rw [if_neg (by omega)]
    congr 1
    omega

/-- Two numbers written one after the other, with something between them that is no digit, can be
told apart. -/
theorem decimal_append_inj {m : Nat} (hc : isDigit c = false) {t : List UInt8}
    (h : decimal m ++ c :: s = decimal n ++ c :: t) : m = n ∧ s = t := by
  have hcut : ∀ k u, (decimal k ++ c :: u).takeWhile isDigit = decimal k := fun k u =>
    takeWhile_digits (fun d => isDigit_of_mem_decimal) fun d hd => by cases hd; exact hc
  have hdigits : decimal m = decimal n := by rw [← hcut m s, h, hcut n t]
  rw [hdigits] at h
  refine ⟨?_, (List.cons.inj (List.append_cancel_left h)).2⟩
  rw [← number_decimal m, hdigits, number_decimal n]

end Text
