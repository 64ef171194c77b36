import Mathlib.Algebra.Order.Field.Basic
import Mathlib.Tactic.Linarith
import ElCache.Sparse.Cache
import ElCache.Lib.Prog

/-!
# What a sparse upload yields

An `Upload` is what clients have done to an entry: its size, and the successful writes since it was
created. `Represents` relates an entry to its upload: at every position the entry has the byte of
the last write that covers it, and a flag that says whether there is one. Every call keeps the
relation, so the replies of the cache are those the uploads call for (`uploads_sound`).
-/

namespace ElCache

open Overlay

/-- The successful writes to an entry since it was created, the latest first. -/
structure Upload where
  totalSize : Nat
  writes : List (Write UInt8)

namespace Upload

/-- Every position of the value has been written. -/
def Complete (u : Upload) : Prop := ∀ i < u.totalSize, (lastAt u.writes i).isSome = true

/-- The bytes of the value: at each position that of the last write. -/
def bytes (u : Upload) : ByteBuffer :=
  (List.range u.totalSize).map fun i => (lastAt u.writes i).getD 0

/-- How much of the value has been written, in percent. -/
def percent (u : Upload) : Rat :=
  if u.totalSize = 0 then 100
  else ((List.range u.totalSize).countP fun i => (lastAt u.writes i).isSome : Nat) / u.totalSize *
    100

theorem length_bytes (u : Upload) : u.bytes.length = u.totalSize := by
  rw [bytes, List.length_map, List.length_range]

theorem getElem?_bytes {u : Upload} (hu : u.Complete) {i : Nat} (hi : i < u.totalSize) :
    u.bytes[i]? = lastAt u.writes i := by
  obtain ⟨x, hx⟩ := Option.isSome_iff_exists.1 (hu i hi)
  rw [bytes, List.getElem?_map, List.getElem?_range hi, Option.map_some, hx]
  rfl

/-- Two uploads whose writes differ in order only, and do not overlap, have the same bytes. -/
theorem bytes_perm {u u' : Upload} (hsize : u.totalSize = u'.totalSize)
    (hperm : u.writes.Perm u'.writes) (hdisj : u.writes.Pairwise Write.Disjoint) :
    u.bytes = u'.bytes := by
  rw [bytes, bytes, hsize]
  refine List.map_congr_left fun i _ => ?_
  rw [lastAt_perm hperm hdisj]

/-- The percentage is that of a complete upload exactly if every position has been written. -/
theorem hundred_le_percent_iff (u : Upload) : 100 ≤ u.percent ↔ u.Complete := by
  have hcount : ((List.range u.totalSize).countP fun i => (lastAt u.writes i).isSome) =
      u.totalSize ↔ u.Complete := by
    have hlength := List.countP_eq_length (l := List.range u.totalSize)
      (p := fun i => (lastAt u.writes i).isSome)
    rw [List.length_range] at hlength
    rw [hlength, Complete]
    simp only [List.mem_range]
  have hle : ((List.range u.totalSize).countP fun i => (lastAt u.writes i).isSome) ≤
      u.totalSize := List.countP_le_length.trans_eq List.length_range
  rw [← hcount, percent]
  generalize ((List.range u.totalSize).countP fun i => (lastAt u.writes i).isSome) = n at hle ⊢
  split
  · next hzero =>
    rw [hzero] at hle ⊢
    exact ⟨fun _ => Nat.le_zero.1 hle, fun _ => le_rfl⟩
  · next hpos =>
    have htotal : (0 : Rat) < u.totalSize := by exact_mod_cast Nat.pos_of_ne_zero hpos
    have hone : (100 : Rat) ≤ n / u.totalSize * 100 ↔ (u.totalSize : Rat) ≤ n := by
      rw [← one_le_div htotal]
      constructor
      · intro h
        linarith
      · intro h
        linarith
    rw [hone, Nat.cast_le]
    exact ⟨fun h => Nat.le_antisymm hle h, fun h => h.ge⟩

end Upload

/-- The entry has, at every position, the byte of the last write, and a flag that says whether there
is one. -/
structure SparseEntry.Represents (e : SparseEntry) (u : Upload) : Prop where
  totalSize : e.totalSize = u.totalSize
  data : e.data = u.bytes
  written : e.written = (List.range u.totalSize).map fun i => (lastAt u.writes i).isSome

namespace SparseEntry

/-- The percentage of an entry is that of its upload: a flag is set where a write covers. -/
theorem Represents.completionPercent {e : SparseEntry} {u : Upload} (hrep : e.Represents u) :
    e.completionPercent = u.percent := by
  rw [SparseEntry.completionPercent, Upload.percent, hrep.totalSize, hrep.written, List.count,
    List.countP_map]
  congr 5
  funext i
  simp

variable {e : SparseEntry} {u : Upload}

theorem represents_init (size : Nat) : (init size).Represents ⟨size, []⟩ where
  totalSize := rfl
  data := by
    rw [Upload.bytes]
    simp [init]
  written := by simp [init]

/-- A range that does not wrap is written if it lies within the value. -/
theorem writeRange_cases (e : SparseEntry) {offset : Nat} {buf : ByteBuffer}
    (hwrap : offset + buf.length < 2 ^ 64) :
    (e.totalSize < offset + buf.length ∧ e.writeRange offset buf = (false, e)) ∨
      (offset + buf.length ≤ e.totalSize ∧ (e.writeRange offset buf).1 = true) := by
  rw [writeRange, wrap64_of_lt hwrap]
  split
  · next h => exact .inl ⟨h, rfl⟩
  · next h => exact .inr ⟨Nat.not_lt.1 h, rfl⟩

/-- A write that is accepted is put on top of the others. -/
theorem Represents.writeRange (h : e.Represents u) {offset : Nat} {buf : ByteBuffer}
    (hok : (e.writeRange offset buf).1 = true) :
    (e.writeRange offset buf).2.Represents ⟨u.totalSize, ⟨offset, buf⟩ :: u.writes⟩ := by
  rw [SparseEntry.writeRange] at hok ⊢
  split at hok
  · cases hok
  · next hle =>
    rw [if_neg hle]
    refine ⟨h.totalSize, ?_, ?_⟩
    · simp only [h.data, Upload.bytes]
      rw [overwrite_map_range]
      refine List.map_congr_left fun i _ => ?_
      rw [lastAt_cons]
      cases (⟨offset, buf⟩ : Write UInt8).stored i with
      | none => rfl
      | some x => rfl
    · have hflags : List.replicate buf.length true = buf.map fun _ => true := List.map_const'.symm
      simp only [h.written]
      rw [overwrite_map_range, hflags]
      refine List.map_congr_left fun i _ => ?_
      rw [Write.stored_map, lastAt_cons]
      cases (⟨offset, buf⟩ : Write UInt8).stored i with
      | none => rfl
      | some x => rfl

theorem Represents.isComplete_iff (h : e.Represents u) : e.isComplete = true ↔ u.Complete := by
  rw [isComplete, h.written, List.all_map, List.all_eq_true]
  constructor
  · intro hall i hi
    exact hall i (List.mem_range.2 hi)
  · intro hall i hi
    exact hall i (List.mem_range.1 hi)

end SparseEntry

namespace SparseCache

/-- A call of the sparse cache. -/
inductive Call where
  | create (key : ByteBuffer) (totalSize : Nat)
  | writeRange (key : ByteBuffer) (offset : Nat) (data : ByteBuffer)
  | finalize (key : ByteBuffer)
  | remove (key : ByteBuffer)

/-- The range of a write does not leave the 64-bit range. -/
def Call.InRange : Call → Prop
  | .writeRange _ offset data => offset + data.length < 2 ^ 64
  | _ => True

/-- For each key, its upload, if an entry has been created and neither finalized nor removed
since. -/
abbrev Uploads := ByteBuffer → Option Upload

/-- One call, with the uploads it leaves as its reply tells them. -/
def exec (call : Call) (s : SparseCache × Uploads) : SparseCache × Uploads :=
  match call with
  | .create key totalSize =>
    let r := s.1.create key totalSize
    (r.2, if r.1 then Function.update s.2 key (some ⟨totalSize, []⟩) else s.2)
  | .writeRange key offset data =>
    let r := s.1.writeRange key offset data
    (r.2, if r.1 then Function.update s.2 key
      ((s.2 key).map fun u => ⟨u.totalSize, ⟨offset, data⟩ :: u.writes⟩) else s.2)
  | .finalize key =>
    let r := s.1.finalize key
    (r.2.2, if r.1 = 0 then Function.update s.2 key none else s.2)
  | .remove key =>
    let r := s.1.remove key
    (r.2, if r.1 then Function.update s.2 key none else s.2)

/-- The state after a sequence of calls on an empty cache, with the uploads. -/
def after (calls : List Call) : SparseCache × Uploads := runOps exec calls ({}, fun _ => none)

/-! ## Entries and uploads -/

/-- Every key has an entry exactly if it has an upload, which the entry then represents. -/
def Tracks (s : SparseCache × Uploads) : Prop :=
  ∀ key, Option.Rel SparseEntry.Represents (s.1.entries key) (s.2 key)

variable {s : SparseCache × Uploads}

theorem Tracks.entry (h : Tracks s) {key : ByteBuffer} {u : Upload} (hu : s.2 key = some u) :
    ∃ e, s.1.entries key = some e ∧ e.Represents u := by
  have hkey := h key
  rw [hu] at hkey
  generalize s.1.entries key = entry at hkey
  cases hkey with
  | some hrep => exact ⟨_, rfl, hrep⟩

theorem Tracks.upload (h : Tracks s) {key : ByteBuffer} {e : SparseEntry}
    (he : s.1.entries key = some e) : ∃ u, s.2 key = some u ∧ e.Represents u := by
  have hkey := h key
  rw [he] at hkey
  generalize s.2 key = upload at hkey
  cases hkey with
  | some hrep => exact ⟨_, rfl, hrep⟩

/-- The table has an entry exactly if there is an upload. -/
theorem Tracks.absent (h : Tracks s) {key : ByteBuffer} :
    s.1.entries key = none ↔ s.2 key = none := by
  cases hu : s.2 key with
  | none =>
    refine ⟨fun _ => rfl, fun _ => ?_⟩
    cases he : s.1.entries key with
    | none => rfl
    | some e =>
      obtain ⟨u, hu', -⟩ := h.upload he
      rw [hu] at hu'
      cases hu'
  | some u =>
    obtain ⟨e, he, -⟩ := h.entry hu
    rw [he]
    exact ⟨nofun, nofun⟩

/-- Changing an entry and its upload together. -/
theorem Tracks.update (h : Tracks s) (key : ByteBuffer) {e : Option SparseEntry} {u : Option Upload}
    (hrel : Option.Rel SparseEntry.Represents e u) :
    Tracks (⟨Function.update s.1.entries key e⟩, Function.update s.2 key u) := by
  intro k
  by_cases hk : k = key
  · subst hk
    simpa using hrel
  · simpa [Function.update_of_ne hk] using h k

/-! ## The operations -/

theorem create_of_absent {c : SparseCache} {key : ByteBuffer} (h : c.entries key = none) (n : Nat) :
    c.create key n = (true, ⟨Function.update c.entries key (some (.init n))⟩) := by
  rw [create, h]

theorem create_of_entry {c : SparseCache} {key : ByteBuffer} {e : SparseEntry}
    (h : c.entries key = some e) (n : Nat) : c.create key n = (false, c) := by
  rw [create, h]

theorem writeRange_of_absent {c : SparseCache} {key : ByteBuffer} (h : c.entries key = none)
    (offset : Nat) (data : ByteBuffer) : c.writeRange key offset data = (false, c) := by
  rw [writeRange, h]

theorem writeRange_of_entry {c : SparseCache} {key : ByteBuffer} {e : SparseEntry}
    (h : c.entries key = some e) (offset : Nat) (data : ByteBuffer) :
    c.writeRange key offset data = ((e.writeRange offset data).1,
      ⟨Function.update c.entries key (some (e.writeRange offset data).2)⟩) := by
  rw [writeRange, h]

/-- A write that fails changes nothing. -/
theorem writeRange_failed {c : SparseCache} {key : ByteBuffer} {offset : Nat} {data : ByteBuffer}
    (hfail : (c.writeRange key offset data).1 = false) : (c.writeRange key offset data).2 = c := by
  cases he : c.entries key with
  | none => rw [writeRange_of_absent he]
  | some e =>
    rw [writeRange_of_entry he] at hfail ⊢
    have hsame : (e.writeRange offset data).2 = e := by
      rw [SparseEntry.writeRange] at hfail ⊢
      split at hfail
      · next h => rw [if_pos h]
      · cases hfail
    simp only [hsame]
    rw [← he, Function.update_eq_self]

/-- A write succeeds if and only if the entry exists and the range lies within it. -/
theorem Tracks.writeRange_iff (h : Tracks s) {key : ByteBuffer} {offset : Nat} {data : ByteBuffer}
    (hwrap : offset + data.length < 2 ^ 64) : (s.1.writeRange key offset data).1 = true ↔
      ∃ u, s.2 key = some u ∧ offset + data.length ≤ u.totalSize := by
  cases he : s.1.entries key with
  | none =>
    rw [writeRange_of_absent he, h.absent.1 he]
    exact ⟨nofun, nofun⟩
  | some e =>
    obtain ⟨u, hu, hrep⟩ := h.upload he
    rw [writeRange_of_entry he, hu]
    constructor
    · intro hok
      refine ⟨u, rfl, ?_⟩
      rcases e.writeRange_cases hwrap with ⟨-, hfalse⟩ | ⟨hle, -⟩
      · rw [hfalse] at hok
        cases hok
      · rwa [← hrep.totalSize]
    · rintro ⟨u', hu', hle⟩
      cases hu'
      rw [← hrep.totalSize] at hle
      rcases e.writeRange_cases hwrap with ⟨hlt, -⟩ | ⟨-, hok⟩
      · exact absurd hle (Nat.not_le.2 hlt)
      · exact hok

/-- What `finalize` does: without an entry or with an incomplete one, nothing; a complete one is
removed and its bytes are handed out. -/
theorem Tracks.finalize_cases (h : Tracks s) (key : ByteBuffer) :
    (s.2 key = none ∧ s.1.finalize key = (1, none, s.1)) ∨
      ∃ u, s.2 key = some u ∧ ((¬ u.Complete ∧ s.1.finalize key = (2, none, s.1)) ∨
        (u.Complete ∧
          s.1.finalize key = (0, some u.bytes, ⟨Function.update s.1.entries key none⟩))) := by
  rw [finalize]
  cases hu : s.2 key with
  | none => exact .inl ⟨rfl, by rw [h.absent.2 hu]⟩
  | some u =>
    obtain ⟨e, he, hrep⟩ := h.entry hu
    refine .inr ⟨u, rfl, ?_⟩
    rw [he]
    cases hc : e.isComplete with
    | true => exact .inr ⟨hrep.isComplete_iff.1 hc, by simp only [hc, if_true, hrep.data]⟩
    | false =>
      refine .inl ⟨fun hcomplete => ?_, by simp only [hc, Bool.false_eq_true, if_false]⟩
      rw [hrep.isComplete_iff.2 hcomplete] at hc
      cases hc

theorem remove_of_absent {c : SparseCache} {key : ByteBuffer} (h : c.entries key = none) :
    c.remove key = (false, c) := by
  rw [remove, h]

theorem remove_of_entry {c : SparseCache} {key : ByteBuffer} {e : SparseEntry}
    (h : c.entries key = some e) :
    c.remove key = (true, ⟨Function.update c.entries key none⟩) := by
  rw [remove, h]

/-! ## Runs -/

/-- Every call keeps the entries in step with the uploads. -/
theorem Tracks.exec (h : Tracks s) (call : Call) : Tracks (exec call s) := by
  cases call with
  | create key n =>
    simp only [SparseCache.exec]
    cases he : s.1.entries key with
    | none =>
      rw [create_of_absent he]
      exact h.update key (.some (SparseEntry.represents_init n))
    | some e =>
      rw [create_of_entry he]
      exact h
  | writeRange key offset data =>
    simp only [SparseCache.exec]
    cases hok : (s.1.writeRange key offset data).1 with
    | false =>
      rw [writeRange_failed hok]
      exact h
    | true =>
      cases he : s.1.entries key with
      | none =>
        rw [writeRange_of_absent he] at hok
        cases hok
      | some e =>
        obtain ⟨u, hu, hrep⟩ := h.upload he
        rw [writeRange_of_entry he] at hok ⊢
        rw [hu]
        exact h.update key (.some (hrep.writeRange hok))
  | finalize key =>
    simp only [SparseCache.exec]
    rcases h.finalize_cases key with ⟨-, hf⟩ | ⟨u, -, ⟨-, hf⟩ | ⟨-, hf⟩⟩
    · rw [hf]
      exact h
    · rw [hf]
      exact h
    · rw [hf]
      exact h.update key .none
  | remove key =>
    simp only [SparseCache.exec]
    cases he : s.1.entries key with
    | none =>
      rw [remove_of_absent he]
      exact h
    | some e =>
      rw [remove_of_entry he]
      exact h.update key .none

theorem tracks_init : Tracks ({}, fun _ => none) := fun _ => .none

theorem tracks_after (calls : List Call) : Tracks (after calls) :=
  runOps_inv tracks_init fun call _ _ hs => hs.exec call

/-- What a call has to reply and to leave, given the uploads. -/
def Sound (call : Call) (s : SparseCache × Uploads) : Prop :=
  match call with
  | .create key n =>
    ((s.1.create key n).1 = true ↔ s.2 key = none) ∧
    ((s.1.create key n).1 = false → (s.1.create key n).2 = s.1)
  | .writeRange key offset data =>
    ((s.1.writeRange key offset data).1 = true ↔
      ∃ u, s.2 key = some u ∧ offset + data.length ≤ u.totalSize) ∧
    ((s.1.writeRange key offset data).1 = false → (s.1.writeRange key offset data).2 = s.1)
  | .finalize key =>
    ((s.1.finalize key).1 = 0 ↔ ∃ u, s.2 key = some u ∧ u.Complete) ∧
    (∀ u, s.2 key = some u → u.Complete →
      ∃ data, s.1.finalize key = (0, some data, ⟨Function.update s.1.entries key none⟩) ∧
        data.length = u.totalSize ∧ ∀ i < u.totalSize, data[i]? = lastAt u.writes i) ∧
    ((s.1.finalize key).1 = 1 ↔ s.2 key = none) ∧
    ((s.1.finalize key).1 ≠ 0 →
      ((s.1.finalize key).1 = 1 ∨ (s.1.finalize key).1 = 2) ∧ (s.1.finalize key).2 = (none, s.1))
  | .remove key =>
    ((s.1.remove key).1 = true ↔ ∃ u, s.2 key = some u) ∧
    (s.1.remove key).2.entries key = none

/-- The key of a call. -/
def Call.key : Call → ByteBuffer
  | .create key _ => key
  | .writeRange key _ _ => key
  | .finalize key => key
  | .remove key => key

/-- An upload is handed over exactly if it is complete, with what was written last. -/
theorem Tracks.sound_finalize (h : Tracks s) (key : ByteBuffer) : Sound (.finalize key) s := by
  rcases h.finalize_cases key with ⟨hu, hf⟩ | ⟨u, hu, ⟨hc, hf⟩ | ⟨hc, hf⟩⟩
  · simp only [Sound]
    rw [hu, hf]
    exact ⟨⟨nofun, nofun⟩, nofun, ⟨fun _ => rfl, fun _ => rfl⟩, fun _ => ⟨.inl rfl, rfl⟩⟩
  · simp only [Sound]
    rw [hu, hf]
    refine ⟨⟨nofun, ?_⟩, ?_, ⟨nofun, nofun⟩, fun _ => ⟨.inr rfl, rfl⟩⟩
    · rintro ⟨u', hu', hc'⟩
      cases hu'
      exact absurd hc' hc
    · intro u' hu' hc'
      cases hu'
      exact absurd hc' hc
  · simp only [Sound]
    rw [hu, hf]
    refine ⟨⟨fun _ => ⟨u, rfl, hc⟩, fun _ => rfl⟩, ?_, ⟨nofun, nofun⟩, fun hne => absurd rfl hne⟩
    intro u' hu' hc'
    cases hu'
    exact ⟨u.bytes, rfl, u.length_bytes, fun _ hi => Upload.getElem?_bytes hc hi⟩

/-- Every call answers as the upload says. -/
theorem Tracks.sound (h : Tracks s) {call : Call} (hrange : call.InRange) : Sound call s := by
  cases call with
  | create key n =>
    simp only [Sound, ← h.absent]
    cases he : s.1.entries key with
    | none =>
      rw [create_of_absent he]
      exact ⟨⟨fun _ => rfl, fun _ => rfl⟩, nofun⟩
    | some e =>
      rw [create_of_entry he]
      exact ⟨⟨nofun, nofun⟩, fun _ => rfl⟩
  | writeRange key offset data => exact ⟨h.writeRange_iff hrange, writeRange_failed⟩
  | finalize key => exact h.sound_finalize key
  | remove key =>
    simp only [Sound]
    cases he : s.1.entries key with
    | none =>
      rw [remove_of_absent he, h.absent.1 he]
      exact ⟨⟨nofun, nofun⟩, he⟩
    | some e =>
      obtain ⟨u, hu, -⟩ := h.upload he
      rw [remove_of_entry he]
      exact ⟨⟨fun _ => ⟨u, hu⟩, fun _ => rfl⟩, Function.update_self _ _ _⟩

/-- Two finished uploads whose writes differ in order only, and do not overlap, yield the same
bytes. -/
theorem finalize_perm {s s' : SparseCache × Uploads} (h : Tracks s) (h' : Tracks s')
    {key : ByteBuffer} {u u' : Upload} (hu : s.2 key = some u) (hu' : s'.2 key = some u')
    (hsize : u.totalSize = u'.totalSize) (hperm : u.writes.Perm u'.writes)
    (hdisj : u.writes.Pairwise Write.Disjoint) :
    (s.1.finalize key).1 = (s'.1.finalize key).1 ∧
      (s.1.finalize key).2.1 = (s'.1.finalize key).2.1 := by
  have hsame : u.Complete ↔ u'.Complete := by
    simp only [Upload.Complete, hsize, lastAt_perm hperm hdisj]
  rcases h.finalize_cases key with ⟨hnone, -⟩ | ⟨w, hw, hcases⟩
  · rw [hu] at hnone
    cases hnone
  rcases h'.finalize_cases key with ⟨hnone, -⟩ | ⟨w', hw', hcases'⟩
  · rw [hu'] at hnone
    cases hnone
  cases hu.symm.trans hw
  cases hu'.symm.trans hw'
  rcases hcases with ⟨hc, hf⟩ | ⟨hc, hf⟩
  · rcases hcases' with ⟨-, hf'⟩ | ⟨hc', -⟩
    · rw [hf, hf']
      exact ⟨rfl, rfl⟩
    · exact absurd (hsame.2 hc') hc
  · rcases hcases' with ⟨hc', -⟩ | ⟨-, hf'⟩
    · exact absurd (hsame.1 hc) hc'
    · rw [hf, hf', Upload.bytes_perm hsize hperm hdisj]
      exact ⟨rfl, rfl⟩

/-- In every run whose writes stay in the 64-bit range, every call replies and leaves what the
uploads call for. The bytes handed out do not depend on the order of writes that do not
overlap. -/
theorem uploads_sound (calls : List Call) (hcalls : ∀ call ∈ calls, call.InRange) :
    EveryStep exec (fun call s => (s.1.entries call.key = none ↔ s.2 call.key = none) ∧
        Sound call s) calls ({}, fun _ => none) ∧
      ∀ calls' : List Call, (∀ call ∈ calls', call.InRange) → ∀ key u u',
        (after calls).2 key = some u → (after calls').2 key = some u' →
        u.totalSize = u'.totalSize → u.writes.Perm u'.writes → u.writes.Pairwise Write.Disjoint →
        ((after calls).1.finalize key).1 = ((after calls').1.finalize key).1 ∧
          ((after calls).1.finalize key).2.1 = ((after calls').1.finalize key).2.1 := by
  refine ⟨?_, fun calls' _ key u u' hu hu' => ?_⟩
  · exact everyStep_of_inv tracks_init fun call hmem s hs =>
      ⟨⟨hs.absent, hs.sound (hcalls call hmem)⟩, hs.exec call⟩
  · exact finalize_perm (tracks_after calls) (tracks_after calls') hu hu'

/-- The upload of two bytes, by the given writes. -/
def twoByteUpload (writes : List (Write UInt8)) : List Call :=
  .create [1] 2 :: writes.map fun w => .writeRange [1] w.offset w.data

/-- The second byte may be written before the first. -/
theorem uploads_sound_two_orders :
    ((after (twoByteUpload [⟨0, [7]⟩, ⟨1, [8]⟩])).1.finalize [1]).1 =
        ((after (twoByteUpload [⟨1, [8]⟩, ⟨0, [7]⟩])).1.finalize [1]).1 ∧
      ((after (twoByteUpload [⟨0, [7]⟩, ⟨1, [8]⟩])).1.finalize [1]).2.1 =
        ((after (twoByteUpload [⟨1, [8]⟩, ⟨0, [7]⟩])).1.finalize [1]).2.1 := by
  have hrange : ∀ w w' : Write UInt8, w.offset + w.data.length < 2 ^ 64 →
      w'.offset + w'.data.length < 2 ^ 64 → ∀ call ∈ twoByteUpload [w, w'], call.InRange := by
    intro w w' hw hw' call hcall
    simp only [twoByteUpload, List.map_cons, List.map_nil, List.mem_cons, List.not_mem_nil,
      or_false] at hcall
    rcases hcall with rfl | rfl | rfl
    · trivial
    · exact hw
    · exact hw'
  have hdisj : (⟨1, [8]⟩ : Write UInt8).Disjoint ⟨0, [7]⟩ := by
    intro i
    cases i with
    | zero => exact .inl rfl
    | succ i => exact .inr rfl
  exact (uploads_sound _ (hrange ⟨0, [7]⟩ ⟨1, [8]⟩ (by decide) (by decide))).2 _
    (hrange ⟨1, [8]⟩ ⟨0, [7]⟩ (by decide) (by decide)) [1] ⟨2, [⟨1, [8]⟩, ⟨0, [7]⟩]⟩
    ⟨2, [⟨0, [7]⟩, ⟨1, [8]⟩]⟩ rfl rfl rfl (List.Perm.swap _ _ _)
    (List.pairwise_pair.2 hdisj)

end SparseCache

end ElCache
