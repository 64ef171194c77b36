import ElCache.Lib.Bytes

/-!
# Decoders

A decoder reads a value from the front of a byte list and leaves the rest. It ends with a value,
with an error of its own, or with a fault: a read past the end that nothing has checked. The cursor
also keeps the boolean bytes that were read, as a decoder takes any byte but zero for true.

For a decoder built with `>>=`, `bind_ok` runs its first part, `bind_eq_ok` takes a successful run
apart and `bind_eq_fault` a faulty one. `Faultless` decoders have no fault; `Skips` says how many
bytes a decoder needs and skips, `Inverts` that what it has read is what an encoder writes.
-/

namespace Decoding

open Bytes

/-- How a decoder fails: by an error of its own, or by a read past the end. -/
inductive Failure (ε : Type*) where
  | error (e : ε)
  | outOfRange
  deriving DecidableEq, Repr

/-- The bytes left to read, and the boolean bytes read so far, the last one first. -/
structure Cursor where
  data : List UInt8
  flags : List UInt8
  deriving DecidableEq, Repr

/-- A decoder of values of type `α` with errors of type `ε`. -/
def Decoder (ε α : Type) := Cursor → Except (Failure ε) (α × Cursor)

namespace Decoder

variable {ε α β : Type} {n : Nat} {e : ε}

/-- Decodes one thing after another. -/
def bind (p : Decoder ε α) (k : α → Decoder ε β) : Decoder ε β := fun s =>
  match p s with
  | .error e => .error e
  | .ok (a, s') => k a s'

instance : Monad (Decoder ε) where
  pure a := fun s => .ok (a, s)
  bind := bind

/-- Fails with an error. -/
def fail (e : ε) : Decoder ε α := fun _ => .error (.error e)

/-- The next `n` bytes, or an error if there are fewer. -/
def take (n : Nat) (e : ε) : Decoder ε (List UInt8) := fun s =>
  if s.data.length < n then .error (.error e) else .ok (s.data.take n, ⟨s.data.drop n, s.flags⟩)

/-- A number of `n` bytes, least significant first. -/
def number (n : Nat) (e : ε) : Decoder ε Nat := do
  let bytes ← take n e
  pure (leVal bytes)

/-- The next byte as a boolean, without a check that there is one. -/
def flag : Decoder ε Bool := fun s =>
  match s.data with
  | [] => .error .outOfRange
  | b :: rest => .ok (b != 0, ⟨rest, b :: s.flags⟩)

/-- The next byte as a boolean, without a check and without moving on. -/
def peekFlag : Decoder ε Bool := fun s =>
  match s.data with
  | [] => .error .outOfRange
  | b :: _ => .ok (b != 0, ⟨s.data, b :: s.flags⟩)

/-- A number of values, one after the other. -/
def times (p : Decoder ε α) : Nat → Decoder ε (List α)
  | 0 => pure []
  | n + 1 => do
    let a ← p
    let rest ← times p n
    pure (a :: rest)

/-! ## Running a sequence -/

section
variable {p : Decoder ε α} {k : α → Decoder ε β} {s s' : Cursor} {a : α} {b : β}

theorem bind_ok (h : p s = .ok (a, s')) : (p >>= k) s = k a s' := by
  show bind p k s = _
  rw [bind, h]

theorem bind_error {e : Failure ε} (h : p s = .error e) : (p >>= k) s = .error e := by
  show bind p k s = _
  rw [bind, h]

theorem bind_eq_ok (h : (p >>= k) s = .ok (b, s')) :
    ∃ a s₁, p s = .ok (a, s₁) ∧ k a s₁ = .ok (b, s') := by
  cases hp : p s with
  | error e =>
    rw [bind_error hp] at h
    cases h
  | ok r =>
    obtain ⟨a, s₁⟩ := r
    rw [bind_ok hp] at h
    exact ⟨a, s₁, rfl, h⟩

theorem bind_eq_fault (h : (p >>= k) s = .error .outOfRange) :
    p s = .error .outOfRange ∨ ∃ a s₁, p s = .ok (a, s₁) ∧ k a s₁ = .error .outOfRange := by
  cases hp : p s with
  | error e =>
    rw [bind_error hp] at h
    cases h
    exact .inl rfl
  | ok r =>
    obtain ⟨a, s₁⟩ := r
    rw [bind_ok hp] at h
    exact .inr ⟨a, s₁, rfl, h⟩

end

/-! ## Faults -/

/-- The decoder never reads past the end. -/
def Faultless (p : Decoder ε α) : Prop := ∀ s, p s ≠ .error .outOfRange

theorem faultless_pure (a : α) : Faultless (pure a : Decoder ε α) := fun _ h => by cases h

theorem faultless_fail (e : ε) : Faultless (fail e : Decoder ε α) := fun _ h => by cases h

theorem Faultless.bind {p : Decoder ε α} {k : α → Decoder ε β} (hp : p.Faultless)
    (hk : ∀ a, (k a).Faultless) : (p >>= k).Faultless := by
  intro s h
  rcases bind_eq_fault h with hfault | ⟨a, s₁, -, hfault⟩
  · exact hp s hfault
  · exact hk a s₁ hfault

theorem faultless_take (n : Nat) (e : ε) : Faultless (take n e) := by
  intro s h
  rw [take] at h
  split at h
  · cases h
  · cases h

theorem faultless_number (n : Nat) (e : ε) : Faultless (number n e) :=
  (faultless_take n e).bind fun _ => faultless_pure _

theorem Faultless.times {p : Decoder ε α} (hp : p.Faultless) (n : Nat) : (p.times n).Faultless := by
  induction n with
  | zero => exact faultless_pure _
  | succ n ih => exact hp.bind fun _ => ih.bind fun _ => faultless_pure _

/-- Reading a boolean faults exactly at the end. -/
theorem flag_bind_eq_fault {k : Bool → Decoder ε β} (hk : ∀ b, (k b).Faultless) {s : Cursor} :
    (flag >>= k) s = .error .outOfRange ↔ s.data = [] := by
  cases hs : s.data with
  | nil =>
    refine ⟨fun _ => rfl, fun _ => bind_error ?_⟩
    rw [flag, hs]
  | cons b rest =>
    refine ⟨fun h => ?_, nofun⟩
    rcases bind_eq_fault h with hfault | ⟨a, s₁, -, hfault⟩
    · rw [flag, hs] at hfault
      cases hfault
    · exact absurd hfault (hk a s₁)

/-! ## What decoders skip -/

/-- The decoder succeeds exactly if the bytes it needs, a number that may depend on the input, are
left; it skips these and reads no boolean. -/
def Skips (p : Decoder ε α) (n : List UInt8 → Nat) : Prop :=
  ∀ s s', (∃ a, p s = .ok (a, s')) ↔
    n s.data ≤ s.data.length ∧ s' = ⟨s.data.drop (n s.data), s.flags⟩

theorem skips_pure (a : α) : Skips (pure a : Decoder ε α) fun _ => 0 := by
  intro s s'
  constructor
  · rintro ⟨b, hb⟩
    cases hb
    exact ⟨Nat.zero_le _, rfl⟩
  · rintro ⟨-, rfl⟩
    exact ⟨a, rfl⟩

/-- Two decoders in turn skip what the first and then the second skips. -/
theorem Skips.bind {p : Decoder ε α} {k : α → Decoder ε β} {n m : List UInt8 → Nat} (hp : p.Skips n)
    (hk : ∀ a, (k a).Skips m) : (p >>= k).Skips fun d => n d + m (d.drop (n d)) := by
  intro s s'
  constructor
  · rintro ⟨b, hb⟩
    obtain ⟨a, s₁, ha, hb⟩ := bind_eq_ok hb
    obtain ⟨hn, rfl⟩ := (hp s s₁).1 ⟨a, ha⟩
    obtain ⟨hm, rfl⟩ := (hk a _ s').1 ⟨b, hb⟩
    simp only [List.length_drop] at hm
    refine ⟨?_, ?_⟩
    · show n s.data + m (s.data.drop (n s.data)) ≤ s.data.length
      omega
    · rw [List.drop_drop]
  · rintro ⟨hsum, rfl⟩
    have hle : n s.data + m (s.data.drop (n s.data)) ≤ s.data.length := hsum
    obtain ⟨a, ha⟩ := (hp s ⟨s.data.drop (n s.data), s.flags⟩).2 ⟨by omega, rfl⟩
    obtain ⟨b, hb⟩ := (hk a ⟨s.data.drop (n s.data), s.flags⟩ _).2
      ⟨by simp only [List.length_drop]; omega, rfl⟩
    refine ⟨b, ?_⟩
    rw [bind_ok ha, hb, List.drop_drop]

theorem take_eq_ok {s : Cursor} (h : n ≤ s.data.length) :
    take n e s = .ok (s.data.take n, ⟨s.data.drop n, s.flags⟩) := by
  rw [take, if_neg (Nat.not_lt.2 h)]

theorem skips_take (n : Nat) (e : ε) : Skips (take n e) fun _ => n := by
  intro s s'
  constructor
  · rintro ⟨bytes, h⟩
    rw [take] at h
    split at h
    · cases h
    · next hlen =>
      cases h
      exact ⟨Nat.not_lt.1 hlen, rfl⟩
  · rintro ⟨hle, rfl⟩
    exact ⟨_, take_eq_ok hle⟩

theorem number_eq_ok {s : Cursor} (h : n ≤ s.data.length) :
    number n e s = .ok (leVal (s.data.take n), ⟨s.data.drop n, s.flags⟩) := by
  rw [number, bind_ok (take_eq_ok h)]
  rfl

theorem skips_number (n : Nat) (e : ε) : Skips (number n e) fun _ => n :=
  (skips_take n e).bind fun _ => skips_pure _

/-- A sequence whose first part has no fault has one exactly if the bytes of the first part are
there and the second part has one after them. -/
theorem Skips.fault_iff {p : Decoder ε α} {n : List UInt8 → Nat} (hp : p.Skips n)
    (hfault : p.Faultless) {k : α → Decoder ε β} {s : Cursor} {P : List UInt8 → Prop}
    (hk : ∀ a d, k a ⟨d, s.flags⟩ = .error .outOfRange ↔ P d) :
    (p >>= k) s = .error .outOfRange ↔
      n s.data ≤ s.data.length ∧ P (s.data.drop (n s.data)) := by
  constructor
  · intro h
    rcases bind_eq_fault h with h | ⟨a, s₁, ha, h⟩
    · exact absurd h (hfault s)
    · obtain ⟨hle, rfl⟩ := (hp s s₁).1 ⟨a, ha⟩
      exact ⟨hle, (hk a _).1 h⟩
  · rintro ⟨hle, hP⟩
    obtain ⟨a, ha⟩ := (hp s _).2 ⟨hle, rfl⟩
    rw [bind_ok ha]
    exact (hk a _).2 hP

/-! ## Encoders -/

/-- What the decoder has read is what the encoder writes; it reads no boolean. -/
def Inverts (p : Decoder ε α) (encode : α → List UInt8) : Prop :=
  ∀ s a s', p s = .ok (a, s') → s.data = encode a ++ s'.data ∧ s'.flags = s.flags

/-- What a successful read of bytes has read. -/
theorem eq_of_take {s s' : Cursor} {bytes : List UInt8} (h : take n e s = .ok (bytes, s')) :
    s.data = bytes ++ s'.data ∧ bytes.length = n ∧ s'.flags = s.flags := by
  rw [take] at h
  split at h
  · cases h
  · next hlen =>
    cases h
    refine ⟨(List.take_append_drop n s.data).symm, ?_, rfl⟩
    rw [List.length_take]
    omega

/-- What a successful read of a number has read. -/
theorem eq_of_number {s s' : Cursor} {v : Nat} (h : number n e s = .ok (v, s')) :
    s.data = leBytes n v ++ s'.data ∧ v < 256 ^ n ∧ s'.flags = s.flags := by
  obtain ⟨bytes, s₁, hbytes, hv⟩ := bind_eq_ok h
  obtain ⟨hdata, hlen, hflags⟩ := eq_of_take hbytes
  cases hv
  rw [← hlen, leBytes_leVal]
  exact ⟨hdata, leVal_lt bytes, hflags⟩

theorem take_append {bytes rest flags : List UInt8} (h : bytes.length = n) :
    take n e ⟨bytes ++ rest, flags⟩ = .ok (bytes, ⟨rest, flags⟩) := by
  rw [take_eq_ok (by simp only [List.length_append]; omega)]
  simp only [← h, List.take_left, List.drop_left]

theorem number_append {v : Nat} {rest flags : List UInt8} (h : v < 256 ^ n) :
    number n e ⟨leBytes n v ++ rest, flags⟩ = .ok (v, ⟨rest, flags⟩) := by
  rw [number, bind_ok (take_append (length_leBytes n v)), leVal_leBytes_of_lt h]
  rfl

/-- Repetition decodes what is encoded one value after the other. -/
theorem times_flatMap {p : Decoder ε α} {encode : α → List UInt8} {decoded : α → α}
    {flags : List UInt8}
    (as : List α) (h : ∀ a ∈ as, ∀ rest,
      p ⟨encode a ++ rest, flags⟩ = .ok (decoded a, ⟨rest, flags⟩))
    (rest : List UInt8) :
    p.times as.length ⟨as.flatMap encode ++ rest, flags⟩ = .ok (as.map decoded, ⟨rest, flags⟩) := by
  induction as with
  | nil => rfl
  | cons a as ih =>
    have hrest := ih fun a' ha' => h a' (List.mem_cons_of_mem _ ha')
    rw [List.length_cons, times, List.flatMap_cons, List.append_assoc,
      bind_ok (h a List.mem_cons_self _), bind_ok hrest]
    rfl

/-- A successful repetition has read that many encoded values. -/
theorem Inverts.times {p : Decoder ε α} {encode : α → List UInt8} (hp : p.Inverts encode)
    (n : Nat) : ∀ s as s', p.times n s = .ok (as, s') →
      as.length = n ∧ s.data = as.flatMap encode ++ s'.data ∧ s'.flags = s.flags := by
  induction n with
  | zero =>
    intro s as s' h
    cases h
    exact ⟨rfl, rfl, rfl⟩
  | succ n ih =>
    intro s as s' h
    obtain ⟨a, s₁, ha, h⟩ := bind_eq_ok h
    obtain ⟨rest, s₂, hrest, h⟩ := bind_eq_ok h
    cases h
    obtain ⟨hdata, hflags⟩ := hp _ _ _ ha
    obtain ⟨hlen, hdata', hflags'⟩ := ih _ _ _ hrest
    refine ⟨congrArg Nat.succ hlen, ?_, hflags'.trans hflags⟩
    rw [hdata, hdata', List.flatMap_cons, List.append_assoc]

/-- What a successful read of a boolean has read. -/
theorem eq_of_flag {s s' : Cursor} {b : Bool} (h : (flag : Decoder ε Bool) s = .ok (b, s')) :
    ∃ byte, s.data = byte :: s'.data ∧ s'.flags = byte :: s.flags ∧ b = (byte != 0) := by
  rw [flag] at h
  split at h
  · cases h
  · next byte rest hs =>
    cases h
    exact ⟨byte, hs, rfl, rfl⟩

theorem flag_cons (byte : UInt8) (rest flags : List UInt8) :
    (flag : Decoder ε Bool) ⟨byte :: rest, flags⟩ = .ok (byte != 0, ⟨rest, byte :: flags⟩) := rfl

end Decoder

end Decoding
