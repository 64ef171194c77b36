import ElCache.Unix.Server
import ElCache.Sparse.Upload
import ElCache.Lib.Linear

/-!
# What the Unix server is for

A `Store` has the values and, for each key, the upload that is open: the successful writes since it
was created. `Store.answer` says what a request does to it in one step. The tables of the server
match a store key by key (`Store.Matches`), and a handler that runs alone answers as the store does
and leaves a match (`follows_handle`). It looks at nothing but its own key (`local_handle`).
-/

namespace ElCache

open Slice

instance (u : Upload) : Decidable u.Complete := Nat.decidableBallLT _ _

namespace Unix

variable {request : Request}

/-- The key of a request. -/
def Request.key : Request → ByteBuffer
  | .get key _ _ _ => key
  | .put key _ => key
  | .delete key => key
  | .createSparse key _ => key
  | .writeRange key _ _ => key
  | .finalize key => key

/-- The range of a write does not leave the 64-bit range. -/
def Request.InRange : Request → Prop
  | .writeRange _ offset data => offset + data.length < 2 ^ 64
  | _ => True

/-- The values and the uploads. -/
structure Store where
  value : ByteBuffer → Option ByteBuffer := fun _ => none
  upload : SparseCache.Uploads := fun _ => none

/-- The bytes of a value from an offset on, a length of 0 meaning up to the end. -/
def requested (offset length : Nat) (value : ByteBuffer) : ByteBuffer :=
  slice value offset (if length = 0 then value.length else offset + length)

/-- What a request does to the store, and how it is answered. -/
def Store.answer (request : Request) (t : Store) : Answer × Store :=
  match request with
  | .get key hasRange offset length =>
    (.value ((t.value key).map fun v => if hasRange then requested offset length v else v), t)
  | .put key value => (.code 0, { t with value := Function.update t.value key (some value) })
  | .delete key => (.code 0, { t with value := Function.update t.value key none })
  | .createSparse key totalSize =>
    match t.upload key with
    | some _ => (.code 1, t)
    | none => (.code 0, { t with upload := Function.update t.upload key (some ⟨totalSize, []⟩) })
  | .writeRange key offset data =>
    match t.upload key with
    | none => (.code 1, t)
    | some u =>
      if u.totalSize < offset + data.length then (.code 2, t)
      else (.code 0, { t with
        upload := Function.update t.upload key (some ⟨u.totalSize, ⟨offset, data⟩ :: u.writes⟩) })
  | .finalize key =>
    match t.upload key with
    | none => (.code 1, t)
    | some u =>
      if u.Complete then
        (.code 0, ⟨Function.update t.value key (some u.bytes), Function.update t.upload key none⟩)
      else (.code 2, t)

/-- The store keeps what it has under the other keys. -/
theorem Store.answer_of_ne {key : ByteBuffer} (hne : key ≠ request.key) (t : Store) :
    (t.answer request).2.value key = t.value key ∧
      (t.answer request).2.upload key = t.upload key := by
  cases request with
  | get k hasRange offset length => exact ⟨rfl, rfl⟩
  | put k value => exact ⟨Function.update_of_ne hne _ _, rfl⟩
  | delete k => exact ⟨Function.update_of_ne hne _ _, rfl⟩
  | createSparse k totalSize =>
    rw [answer]
    cases t.upload k with
    | some u => exact ⟨rfl, rfl⟩
    | none => exact ⟨rfl, Function.update_of_ne hne _ _⟩
  | writeRange k offset data =>
    rw [answer]
    cases t.upload k with
    | none => exact ⟨rfl, rfl⟩
    | some u =>
      dsimp only
      split
      · exact ⟨rfl, rfl⟩
      · exact ⟨rfl, Function.update_of_ne hne _ _⟩
  | finalize k =>
    rw [answer]
    cases t.upload k with
    | none => exact ⟨rfl, rfl⟩
    | some u =>
      dsimp only
      split
      · exact ⟨Function.update_of_ne hne _ _, Function.update_of_ne hne _ _⟩
      · exact ⟨rfl, rfl⟩

/-! ## A handler looks at its own key only -/

/-- What the server holds under a key: the value and the entry of an upload. -/
abbrev Cell := Option ByteBuffer × Option SparseEntry

namespace Server

/-- The cell of a key. -/
def cell (key : ByteBuffer) (s : Server) : Cell := (s.sync.data key, s.sparse.entries key)

/-- The server with another cell under a key. -/
def setCell (key : ByteBuffer) (c : Cell) (s : Server) : Server :=
  ⟨⟨Function.update s.sync.data key c.1⟩, ⟨Function.update s.sparse.entries key c.2⟩⟩

theorem cell_setCell (key : ByteBuffer) (c : Cell) (s : Server) :
    (s.setCell key c).cell key = c :=
  Prod.ext (Function.update_self ..) (Function.update_self ..)

theorem cell_setCell_of_ne {k key : ByteBuffer} (hne : k ≠ key) (c : Cell) (s : Server) :
    (s.setCell key c).cell k = s.cell k :=
  Prod.ext (Function.update_of_ne hne _ _) (Function.update_of_ne hne _ _)

/-- Putting back what is there. -/
theorem setCell_of_cell {key : ByteBuffer} {c : Cell} {s : Server} (h : s.cell key = c) :
    s.setCell key c = s := by
  rw [← h]
  simp only [setCell, cell, Function.update_eq_self]

/-- Changing the value only. -/
theorem setCell_value (key : ByteBuffer) (value : Option ByteBuffer) (s : Server) :
    s.setCell key (value, (s.cell key).2) =
      { s with sync := ⟨Function.update s.sync.data key value⟩ } := by
  simp only [setCell, cell, Function.update_eq_self]

/-- Changing the entry only. -/
theorem setCell_entry (key : ByteBuffer) (entry : Option SparseEntry) (s : Server) :
    s.setCell key ((s.cell key).1, entry) =
      { s with sparse := ⟨Function.update s.sparse.entries key entry⟩ } := by
  simp only [setCell, cell, Function.update_eq_self]

end Server

/-- A step that replaces the cell of a key, by what it finds there. -/
theorem local_cell {α : Type} {key : ByteBuffer} {step : Server → α × Server} (f : Cell → α × Cell)
    (h : ∀ c s, s.cell key = c → step s = ((f c).1, s.setCell key (f c).2)) :
    (Prog.atomic step).Local Server.cell key := by
  refine Prog.local_atomic (fun s k hk => ?_) fun s s' hs => ?_
  · rw [h _ s rfl]
    exact Server.cell_setCell_of_ne hk _ s
  · rw [h _ s hs, h _ s' rfl]
    exact ⟨(Server.cell_setCell ..).trans (Server.cell_setCell ..).symm, rfl⟩

section
variable (key : ByteBuffer)

theorem local_get :
    (Prog.atomic fun s : Server => (s.sync.get key, s)).Local Server.cell key := by
  refine local_cell (fun c => (c.1, c)) ?_
  intro c s hc
  rw [Server.setCell_of_cell hc, ← hc]
  rfl

theorem local_put (value : ByteBuffer) :
    (Prog.atomic fun s : Server => ((), { s with sync := s.sync.put key value })).Local
      Server.cell key := by
  refine local_cell (fun c => ((), some value, c.2)) ?_
  rintro c s rfl
  rw [Server.setCell_value]
  rfl

theorem local_remove :
    (Prog.atomic fun s : Server =>
      ((s.sync.remove key).1, { s with sync := (s.sync.remove key).2 })).Local Server.cell key := by
  refine local_cell (fun c => (c.1.isSome, none, c.2)) ?_
  rintro c s rfl
  rw [Server.setCell_value]
  rfl

theorem local_create (totalSize : Nat) :
    (Prog.atomic fun s : Server => ((s.sparse.create key totalSize).1,
      { s with sparse := (s.sparse.create key totalSize).2 })).Local Server.cell key := by
  refine local_cell (fun c => c.2.elim (true, c.1, some (.init totalSize)) fun _ => (false, c)) ?_
  rintro ⟨value, entry⟩ s hc
  obtain ⟨rfl, he⟩ := Prod.mk.inj hc
  cases entry with
  | none =>
    rw [SparseCache.create_of_absent he]
    exact Prod.ext rfl (Server.setCell_entry key _ s).symm
  | some e =>
    rw [SparseCache.create_of_entry he]
    exact Prod.ext rfl (Server.setCell_of_cell hc).symm

theorem local_writeRange (offset : Nat) (data : ByteBuffer) :
    (Prog.atomic fun s : Server => ((s.sparse.writeRange key offset data).1,
      { s with sparse := (s.sparse.writeRange key offset data).2 })).Local Server.cell key := by
  refine local_cell (fun c => c.2.elim (false, c) fun e =>
    ((e.writeRange offset data).1, c.1, some (e.writeRange offset data).2)) ?_
  rintro ⟨value, entry⟩ s hc
  obtain ⟨rfl, he⟩ := Prod.mk.inj hc
  cases entry with
  | none =>
    rw [SparseCache.writeRange_of_absent he]
    exact Prod.ext rfl (Server.setCell_of_cell hc).symm
  | some e =>
    rw [SparseCache.writeRange_of_entry he]
    exact Prod.ext rfl (Server.setCell_entry key _ s).symm

theorem local_existsKey :
    (Prog.atomic fun s : Server => (s.sparse.existsKey key, s)).Local Server.cell key := by
  refine local_cell (fun c => (c.2.isSome, c)) ?_
  intro c s hc
  rw [Server.setCell_of_cell hc, ← hc]
  rfl

/-- A finalize touches the cell of its key only. -/
theorem local_finalize :
    (Prog.atomic fun s : Server =>
      (((s.sparse.finalize key).1, (s.sparse.finalize key).2.1),
        { s with sparse := (s.sparse.finalize key).2.2 })).Local Server.cell key := by
  refine local_cell (fun c => c.2.elim ((1, none), c) fun e =>
    if e.isComplete then ((0, some e.data), c.1, none) else ((2, none), c)) ?_
  rintro ⟨value, entry⟩ s hc
  obtain ⟨rfl, he⟩ := Prod.mk.inj hc
  rw [SparseCache.finalize]
  cases entry with
  | none =>
    simp only [he]
    exact Prod.ext rfl (Server.setCell_of_cell hc).symm
  | some e =>
    simp only [he, Option.elim_some]
    split
    · exact Prod.ext rfl (Server.setCell_entry key _ s).symm
    · exact Prod.ext rfl (Server.setCell_of_cell hc).symm

end

/-- Every step of a handler replaces the cell of its key. -/
theorem local_handle (request : Request) : (handle request).Local Server.cell request.key := by
  cases request with
  | get key hasRange offset length => exact (local_get key).bind fun _ => Prog.local_pure _
  | put key value => exact (local_put key value).bind fun _ => Prog.local_pure _
  | delete key => exact (local_remove key).bind fun _ => Prog.local_pure _
  | createSparse key totalSize =>
    exact (local_create key totalSize).bind fun _ => Prog.local_pure _
  | writeRange key offset data =>
    refine (local_writeRange key offset data).bind fun success => ?_
    cases success with
    | true => exact Prog.local_pure _
    | false => exact (local_existsKey key).bind fun _ => Prog.local_pure _
  | finalize key =>
    refine (local_finalize key).bind fun result => ?_
    split
    · exact (local_put key _).bind fun _ => Prog.local_pure _
    · exact Prog.local_pure _

/-! ## A handler that runs alone -/

/-- The cell holds what the store has under the key. -/
def Store.Matches (t : Store) (key : ByteBuffer) (c : Cell) : Prop :=
  c.1 = t.value key ∧ Option.Rel SparseEntry.Represents c.2 (t.upload key)

theorem Store.Matches.of_ne {t : Store} {key : ByteBuffer} {c : Cell} (hne : key ≠ request.key)
    (h : t.Matches key c) : (t.answer request).2.Matches key c := by
  obtain ⟨hvalue, hupload⟩ := t.answer_of_ne hne
  rw [Matches, hvalue, hupload]
  exact h

/-- There is no entry and no upload, or an entry that represents the upload. -/
theorem Store.Matches.upload {t : Store} {key : ByteBuffer} {s : Server}
    (h : t.Matches key (s.cell key)) :
    (s.sparse.entries key = none ∧ t.upload key = none) ∨
      ∃ e u, s.sparse.entries key = some e ∧ t.upload key = some u ∧ e.Represents u := by
  have hrel : Option.Rel SparseEntry.Represents (s.sparse.entries key) (t.upload key) := h.2
  generalize s.sparse.entries key = entry at hrel
  generalize t.upload key = upload at hrel
  cases hrel with
  | none => exact .inl ⟨rfl, rfl⟩
  | some hrep => exact .inr ⟨_, _, rfl, rfl, hrep⟩

/-- Changing the entry and the upload together. -/
theorem Store.Matches.setUpload {t : Store} {key : ByteBuffer} {s : Server}
    (h : t.Matches key (s.cell key)) {entry : Option SparseEntry} {upload : Option Upload}
    (hrel : Option.Rel SparseEntry.Represents entry upload) :
    Store.Matches { t with upload := Function.update t.upload key upload } key
      (Server.cell key { s with sparse := ⟨Function.update s.sparse.entries key entry⟩ }) := by
  refine ⟨h.1, ?_⟩
  simpa only [Server.cell, Function.update_self] using hrel

/-- What a get sends is the requested part. -/
theorem applyRange_true (offset length : Nat) (value : ByteBuffer) :
    applyRange true offset length value = requested offset length value := by
  rw [applyRange, requested, if_pos rfl]
  by_cases hoff : offset < value.length
  · rw [if_pos hoff]
    dsimp only
    by_cases hzero : length = 0
    · rw [if_neg (by omega), if_pos hzero, Nat.add_sub_cancel' (Nat.le_of_lt hoff)]
    · rw [if_neg hzero]
      split
      · rfl
      · next hlong =>
        have hmin : min (offset + length) value.length = value.length := Nat.min_eq_right (by omega)
        rw [Nat.add_sub_cancel' (Nat.le_of_lt hoff),
          ← slice_min_length value offset (offset + length), hmin]
  · rw [if_neg hoff, slice_eq_nil_of_length_le (Nat.not_lt.1 hoff)]

section
variable {key : ByteBuffer} {s : Server} {t : Store}

/-- The request, run alone, is answered as by the store and leaves what the store has. -/
def Follows (request : Request) (key : ByteBuffer) (s : Server) (t : Store) : Prop :=
  ((handle request).run s).1 = (t.answer request).1 ∧
    (t.answer request).2.Matches key (((handle request).run s).2.cell key)

theorem follows_get (h : t.Matches key (s.cell key)) (hasRange : Bool) (offset length : Nat) :
    Follows (.get key hasRange offset length) key s t := by
  have hvalue : s.sync.data key = t.value key := h.1
  have hpart : applyRange hasRange offset length =
      fun v => if hasRange then requested offset length v else v := by
    funext v
    cases hasRange with
    | true => exact applyRange_true offset length v
    | false => rfl
  refine ⟨?_, h⟩
  show Answer.value ((s.sync.data key).map (applyRange hasRange offset length)) = _
  rw [hvalue, hpart]
  rfl

theorem Store.Matches.setValue (h : t.Matches key (s.cell key)) (value : Option ByteBuffer) :
    Store.Matches { t with value := Function.update t.value key value } key
      (Server.cell key { s with sync := ⟨Function.update s.sync.data key value⟩ }) := by
  refine ⟨?_, h.2⟩
  simp only [Server.cell, Function.update_self]

theorem follows_create (h : t.Matches key (s.cell key)) (totalSize : Nat) :
    Follows (.createSparse key totalSize) key s t := by
  have hrun : (handle (.createSparse key totalSize)).run s =
      (.code (if (s.sparse.create key totalSize).1 then 0 else 1),
        { s with sparse := (s.sparse.create key totalSize).2 }) := rfl
  rw [Follows, hrun, Store.answer]
  rcases h.upload with ⟨he, hu⟩ | ⟨e, u, he, hu, hrep⟩
  · rw [hu, SparseCache.create_of_absent he]
    exact ⟨rfl, h.setUpload (.some (SparseEntry.represents_init totalSize))⟩
  · rw [hu, SparseCache.create_of_entry he]
    exact ⟨rfl, h⟩

/-- A write does in the store what it does in the cell. -/
theorem follows_writeRange (h : t.Matches key (s.cell key)) {offset : Nat} {data : ByteBuffer}
    (hrange : offset + data.length < 2 ^ 64) : Follows (.writeRange key offset data) key s t := by
  rw [Follows, run_handle_writeRange, Store.answer]
  rcases h.upload with ⟨he, hu⟩ | ⟨e, u, he, hu, hrep⟩
  · simp only [hu, SparseCache.writeRange_of_absent he, SparseCache.existsKey, he]
    exact ⟨rfl, h⟩
  · rcases e.writeRange_cases hrange with ⟨hlt, hfail⟩ | ⟨hle, hok⟩
    · have hsame : s.sparse.writeRange key offset data = (false, s.sparse) := by
        have hfalse : (s.sparse.writeRange key offset data).1 = false := by
          rw [SparseCache.writeRange_of_entry he, hfail]
        exact Prod.ext hfalse (SparseCache.writeRange_failed hfalse)
      rw [hrep.totalSize] at hlt
      simp only [hsame, hu, SparseCache.existsKey, he, if_pos hlt]
      exact ⟨rfl, h⟩
    · rw [hrep.totalSize] at hle
      simp only [SparseCache.writeRange_of_entry he, hok, hu, if_neg (Nat.not_lt.2 hle)]
      exact ⟨rfl, h.setUpload (.some (hrep.writeRange hok))⟩

theorem follows_finalize (h : t.Matches key (s.cell key)) : Follows (.finalize key) key s t := by
  rw [Follows, run_handle_finalize, Store.answer, SparseCache.finalize]
  rcases h.upload with ⟨he, hu⟩ | ⟨e, u, he, hu, hrep⟩
  · rw [he, hu]
    exact ⟨rfl, h⟩
  · simp only [he, hu]
    by_cases hc : u.Complete
    · rw [if_pos (hrep.isComplete_iff.2 hc), if_pos hc, hrep.data]
      exact ⟨rfl, (h.setValue _).setUpload .none⟩
    · rw [if_neg fun he => hc (hrep.isComplete_iff.1 he), if_neg hc]
      exact ⟨rfl, h⟩

end

/-- A handler that runs alone answers as the store does, and leaves what the store has. -/
theorem follows_handle (hrange : request.InRange) {s : Server} {t : Store}
    (h : t.Matches request.key (s.cell request.key)) : Follows request request.key s t := by
  cases request with
  | get key hasRange offset length => exact follows_get h hasRange offset length
  | put key value => exact ⟨rfl, h.setValue (some value)⟩
  | delete key => exact ⟨rfl, h.setValue none⟩
  | createSparse key totalSize => exact follows_create h totalSize
  | writeRange key offset data => exact follows_writeRange h hrange
  | finalize key => exact follows_finalize h

end Unix

end ElCache
