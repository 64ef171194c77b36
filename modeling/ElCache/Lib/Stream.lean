import Mathlib.Data.List.Basic

/-!
# Streams in pieces

A stream socket takes what is written in pieces of any size and hands it on in pieces of any other
size, in order. A writer repeats its write until everything has been taken (`writeAll`), and a
reader that wants `n` elements repeats its read until it has them (`readAll`). A `Link` is one way
of cutting the stream on both sides. Whatever the cuts, a reader gets the next `n` elements of what
was written, and the rest of the stream is what follows (`readAll_ok`, `Link.flatten_carry`); if the
stream holds fewer elements, it has taken them all when it fails (`readAll_error`).
-/

namespace Stream

variable {α : Type*} {ps : List (List α)}

/-- The loop of a reader that wants the given number of elements. Each read takes the next piece, or
as much of it as is still wanted; one that returns nothing ends the stream. A failed loop gives what
it had read. -/
def readAll : List (List α) → Nat → Except (List α) (List α × List (List α))
  | ps, 0 => .ok ([], ps)
  | [], _ + 1 => .error []
  | [] :: _, _ + 1 => .error []
  | (x :: p) :: ps, n + 1 =>
    if p.length ≤ n then
      match readAll ps (n - p.length) with
      | .ok (got, rest) => .ok (x :: p ++ got, rest)
      | .error got => .error (x :: p ++ got)
    else .ok (x :: p.take n, p.drop n :: ps)

/-- No piece is empty. -/
def Proper (ps : List (List α)) : Prop := ∀ p ∈ ps, p ≠ []

theorem proper_nil : Proper ([] : List (List α)) := fun _ hp => nomatch hp

theorem Proper.tail {p : List α} (h : Proper (p :: ps)) : Proper ps :=
  fun q hq => h q (List.mem_cons_of_mem _ hq)

/-- A proper stream without elements has no pieces. -/
theorem Proper.eq_nil (h : Proper ps) (hflat : ps.flatten = []) : ps = [] := by
  cases ps with
  | nil => rfl
  | cons p ps =>
    refine absurd ?_ (h p List.mem_cons_self)
    exact (List.append_eq_nil_iff.1 hflat).1

/-- A reader gets the next elements of the stream, whatever the pieces, and leaves the others. -/
theorem readAll_ok (hps : Proper ps) {n : Nat} (hn : n ≤ ps.flatten.length) :
    ∃ rest, readAll ps n = .ok (ps.flatten.take n, rest) ∧ rest.flatten = ps.flatten.drop n ∧
      Proper rest := by
  induction ps generalizing n with
  | nil =>
    cases n with
    | zero => exact ⟨[], rfl, rfl, proper_nil⟩
    | succ n => exact absurd hn (Nat.not_succ_le_zero n)
  | cons p ps ih =>
    cases n with
    | zero => exact ⟨p :: ps, rfl, rfl, hps⟩
    | succ n =>
      cases p with
      | nil => exact absurd rfl (hps [] List.mem_cons_self)
      | cons x p =>
        rw [readAll]
        simp only [List.flatten_cons, List.cons_append, List.length_cons, List.length_append,
          List.take_succ_cons, List.drop_succ_cons] at hn ⊢
        split
        · next hle =>
          obtain ⟨rest, hread, hrest, hproper⟩ := ih hps.tail (n := n - p.length) (by omega)
          refine ⟨rest, ?_, ?_, hproper⟩
          · rw [hread, List.take_append, List.take_of_length_le hle]
          · rw [hrest, List.drop_append, List.drop_of_length_le hle, List.nil_append]
        · next hlt =>
          refine ⟨p.drop n :: ps, ?_, ?_, fun q hq => ?_⟩
          · rw [List.take_append_of_le_length (by omega)]
          · rw [List.flatten_cons, List.drop_append_of_le_length (by omega)]
          · rcases List.mem_cons.1 hq with rfl | hq
            · intro hnil
              have hlen := congrArg List.length hnil
              rw [List.length_drop, List.length_nil] at hlen
              omega
            · exact hps.tail q hq

/-- A reader gets what the stream starts with. -/
theorem readAll_append (hps : Proper ps) {u v : List α} (hflat : ps.flatten = u ++ v) :
    ∃ rest, readAll ps u.length = .ok (u, rest) ∧ rest.flatten = v ∧ Proper rest := by
  obtain ⟨rest, hread, hrest, hproper⟩ := readAll_ok hps (n := u.length)
    (by rw [hflat, List.length_append]; exact Nat.le_add_right _ _)
  rw [hflat, List.take_left' rfl] at hread
  rw [hflat, List.drop_left' rfl] at hrest
  exact ⟨rest, hread, hrest, hproper⟩

/-- A reader that wants more than the stream holds has taken all of it when it fails. -/
theorem readAll_error (hps : Proper ps) {n : Nat} (hn : ps.flatten.length < n) :
    readAll ps n = .error ps.flatten := by
  induction ps generalizing n with
  | nil =>
    cases n with
    | zero => exact absurd hn (Nat.not_lt_zero _)
    | succ n => rfl
  | cons p ps ih =>
    cases n with
    | zero => exact absurd hn (Nat.not_lt_zero _)
    | succ n =>
      cases p with
      | nil => exact absurd rfl (hps [] List.mem_cons_self)
      | cons x p =>
        simp only [List.flatten_cons, List.length_append, List.length_cons] at hn
        rw [readAll, if_pos (by omega), ih hps.tail (by omega), List.flatten_cons]

/-! ## Links -/

/-- The loop of a writer: the pieces taken by successive writes, when the `i`-th write takes one
element more than the `i`-th number of the list, if there are so many. -/
def writeAll : List Nat → List α → List (List α)
  | _, [] => []
  | [], s => [s]
  | k :: ks, s => s.take (k + 1) :: writeAll ks (s.drop (k + 1))

/-- What is written arrives in full. -/
theorem flatten_writeAll (ks : List Nat) (s : List α) : (writeAll ks s).flatten = s := by
  induction ks generalizing s with
  | nil =>
    cases s with
    | nil => rfl
    | cons x s => exact List.append_nil _
  | cons k ks ih =>
    cases s with
    | nil => rfl
    | cons x s =>
      rw [writeAll, List.flatten_cons, ih, List.take_append_drop]
      exact nofun

/-- One way of cutting a stream: the sizes that the writes take, and the pieces that arrive. -/
structure Link (α : Type*) where
  sizes : List Nat
  arrive : List α → List (List α)
  flatten_arrive : ∀ s, (arrive s).flatten = s
  proper_arrive : ∀ s, Proper (arrive s)

namespace Link

/-- The pieces in which a written stream arrives. -/
def carry (l : Link α) (s : List α) : List (List α) := l.arrive (writeAll l.sizes s).flatten

@[simp] theorem flatten_carry (l : Link α) (s : List α) : (l.carry s).flatten = s := by
  rw [carry, l.flatten_arrive, flatten_writeAll]

theorem proper_carry (l : Link α) (s : List α) : Proper (l.carry s) := l.proper_arrive _

/-- The link on which every element arrives by itself. -/
def single : Link α where
  sizes := []
  arrive := List.map fun x => [x]
  flatten_arrive := fun s => by
    induction s with
    | nil => rfl
    | cons x s ih => rw [List.map_cons, List.flatten_cons, ih]; rfl
  proper_arrive := fun s p hp => by
    obtain ⟨x, -, rfl⟩ := List.mem_map.1 hp
    exact List.cons_ne_nil x []

end Link

end Stream
