import ElCache.Frame.Lengths
import ElCache.Partial.Reads

/-!
# What removing a key does to other keys

`remove` deletes every chunk its descriptor names, and chunks are shared: a value of another key
that has a chunk in common loses it. `LevelView.Spares` says when a read of the other key does not
notice: when no chunk it would find is one of those removed; when it misses already and does not
take partial results; or, in the memory level, when the chunks it finds come too late to be read
from. `removal_undisturbed` says that in these cases, in every state, the read is the same as
before; and that in every other case, when the hash is injective and no write has failed, it is not.
-/

namespace ElCache

variable {now : Timestamp} {key : CacheKey}

open Slice

/-- The range a read asks a value for, cut off at its end. -/
def ValueDescriptor.readRange (d : ValueDescriptor) (opts : ReadOptions) : Range :=
  let r := opts.range.getD ⟨0, d.totalSize⟩
  ⟨r.offset, min r.length (d.totalSize - r.offset)⟩

/-- The chunks a read needs of a value. -/
def ValueDescriptor.needed (d : ValueDescriptor) (opts : ReadOptions) : List Nat :=
  d.chunksForRange (d.readRange opts)

/-- Two reads return the same kind of result and the same data. -/
def SameAnswer (a b : ReadResult) : Prop := a.result = b.result ∧ a.data = b.data

theorem SameAnswer.symm {a b : ReadResult} (h : SameAnswer a b) : SameAnswer b a :=
  ⟨h.1.symm, h.2.symm⟩

theorem SameAnswer.trans {a b c : ReadResult} (h : SameAnswer a b) (h' : SameAnswer b c) :
    SameAnswer a c :=
  ⟨h.1.trans h'.1, h.2.trans h'.2⟩

namespace LevelView

variable {w w' : LevelView} {d : ValueDescriptor} {opts : ReadOptions}
  {assemble : List (Option Chunk) → Range → ByteBuffer} {idxs : List Nat} {r : Range} {i : Nat}

/-- Whether the level can read chunk `i` of a value: that the index names the chunk is not enough,
its contents must be there. -/
def readableAt (w : LevelView) (d : ValueDescriptor) (i : Nat) : Bool :=
  (d.chunks[i]?.bind w.chunk).isSome

/-- What the level holds after a key was removed. -/
def remove (w : LevelView) (key : CacheKey) : LevelView :=
  match w.descriptor key with
  | none => w
  | some d => ⟨Function.update w.descriptor key none,
      fun id => if id ∈ d.chunks then none else w.chunk id⟩

/-- The removal of `k₁` leaves a read of `k₂` alone: no chunk the read finds is removed; or the read
takes no partial result and misses already; or it is one of the `blind` cases. -/
def Spares (blind : (Nat → Bool) → Nat → Nat → Prop) (w : LevelView) (now : Timestamp)
    (k₁ k₂ : CacheKey) (opts : ReadOptions) : Prop :=
  ∀ d₁ d₂, w.descriptor k₁ = some d₁ → w.descriptor k₂ = some d₂ →
    d₂.metadata.isExpired now = false →
    (∀ i ∈ d₂.needed opts, ∀ id, d₂.chunks[i]? = some id → (w.chunk id).isSome → id ∉ d₁.chunks) ∨
    (opts.allowPartial = false ∧ ∃ i ∈ d₂.needed opts, w.readableAt d₂ i = false) ∨
    (opts.allowPartial = true ∧
      blind (w.readableAt d₂) (d₂.readRange opts).offset (d₂.readRange opts).length)

/-! ## Fetching from any level -/

theorem fetch_cons_none (w : LevelView) (allowPartial : Bool) {idx : Nat}
    (hid : d.chunks[idx]? = none) (rest : List Nat) :
    w.fetch d allowPartial (idx :: rest) = ([], false) := by
  rw [fetch, fetchChunks, hid]
  rfl

/-- What is fetched depends only on the chunks asked for. -/
theorem fetch_congr (allowPartial : Bool)
    (h : ∀ i ∈ idxs, ∀ id, d.chunks[i]? = some id → w'.chunk id = w.chunk id) :
    w'.fetch d allowPartial idxs = w.fetch d allowPartial idxs := by
  induction idxs with
  | nil => rfl
  | cons idx rest ih =>
    cases hid : d.chunks[idx]? with
    | none => rw [fetch_cons_none _ _ hid, fetch_cons_none _ _ hid]
    | some id =>
      rw [fetch_cons _ _ hid, fetch_cons _ _ hid, h idx List.mem_cons_self id hid,
        ih fun i hi => h i (List.mem_cons_of_mem _ hi)]

/-- Without a needed chunk, not everything is found. -/
theorem fetch_missing (allowPartial : Bool) (hi : i ∈ idxs) (hmiss : w.readableAt d i = false) :
    (w.fetch d allowPartial idxs).2 = false := by
  induction idxs with
  | nil => cases hi
  | cons idx rest ih =>
    cases hid : d.chunks[idx]? with
    | none => rw [fetch_cons_none _ _ hid]
    | some id =>
      rw [fetch_cons _ _ hid]
      split
      · rfl
      · rcases List.mem_cons.1 hi with rfl | hi
        · rw [readableAt, hid, Option.bind_some] at hmiss
          simp only [hmiss, Bool.false_and]
        · simp only [ih hi, Bool.and_false]

/-- A chunk that was fetched is held. -/
theorem readableAt_of_fetch (allowPartial : Bool) {j : Nat} {c : Chunk}
    (hj : (w.fetch d allowPartial idxs).1[j]? = some (some c)) :
    ∃ i, idxs[j]? = some i ∧ w.readableAt d i = true := by
  induction idxs generalizing j with
  | nil => cases hj
  | cons idx rest ih =>
    cases hid : d.chunks[idx]? with
    | none => rw [fetch_cons_none _ _ hid] at hj; cases hj
    | some id =>
      rw [fetch_cons _ _ hid] at hj
      split at hj
      · cases hj
      · cases j with
        | zero =>
          refine ⟨idx, rfl, ?_⟩
          rw [readableAt, hid, Option.bind_some, Option.some.inj hj]
          rfl
        | succ j => exact ih hj

/-- When partial results are taken, the number of entries fetched does not depend on what is
held. -/
theorem length_fetch (w w' : LevelView) (d : ValueDescriptor) (idxs : List Nat) :
    (w'.fetch d true idxs).1.length = (w.fetch d true idxs).1.length := by
  induction idxs with
  | nil => rfl
  | cons idx rest ih =>
    cases hid : d.chunks[idx]? with
    | none => rw [fetch_cons_none _ _ hid, fetch_cons_none _ _ hid]
    | some id =>
      rw [fetch_cons _ _ hid, fetch_cons _ _ hid]
      simp only [Bool.not_true, Bool.and_false, Bool.false_eq_true, if_false, List.length_cons, ih]

/-- Two levels that agree on the descriptor give the same answer if what they fetch does. -/
theorem sameAnswer_read (hkey : w'.descriptor key = w.descriptor key)
    (h : ∀ d, w.descriptor key = some d → d.metadata.isExpired now = false →
      SameAnswer
        (finishRead assemble d opts.allowPartial (d.readRange opts)
          (w'.fetch d opts.allowPartial (d.needed opts)))
        (finishRead assemble d opts.allowPartial (d.readRange opts)
          (w.fetch d opts.allowPartial (d.needed opts)))) :
    SameAnswer (w'.read assemble now key opts) (w.read assemble now key opts) := by
  rw [read, read, readValue, readValue, Prog.run_bind, Prog.run_bind, Prog.run_pure, Prog.run_pure,
    hkey]
  cases hd : w.descriptor key with
  | none => exact ⟨rfl, rfl⟩
  | some d =>
    simp only [readFound]
    split
    · exact ⟨rfl, rfl⟩
    · next hlive =>
      split
      · exact ⟨rfl, rfl⟩
      · rw [Prog.run_bind, Prog.run_bind]
        exact h d hd (by simpa using hlive)

theorem finishRead_missing {fetched : List (Option Chunk) × Bool} (h : fetched.2 = false) :
    finishRead assemble d false r fetched = { result := .miss } := by
  rw [finishRead, h]
  simp

/-- Two reads that take partial results and assemble nothing of a range that is not empty. -/
theorem sameAnswer_finishRead_nil {f f' : List (Option Chunk) × Bool}
    (hlength : f'.1.length = f.1.length) (hf' : assemble f'.1 r = []) (hf : assemble f.1 r = [])
    (hr : r.length ≠ 0) :
    SameAnswer (finishRead assemble d true r f') (finishRead assemble d true r f) := by
  have hempty : f'.1.isEmpty = f.1.isEmpty := by
    rw [Bool.eq_iff_iff, List.isEmpty_iff_length_eq_zero, List.isEmpty_iff_length_eq_zero, hlength]
  have hlen : (([] : ByteBuffer).length == r.length) = false := by
    simpa using hr.symm
  rw [finishRead, finishRead, hempty, hf, hf']
  simp only [Bool.not_true, Bool.and_false, Bool.or_false, hlen]
  split
  · exact ⟨rfl, rfl⟩
  · exact ⟨rfl, rfl⟩

theorem needed_eq_nil (h : (d.readRange opts).length = 0) : d.needed opts = [] := by
  rw [ValueDescriptor.needed, ValueDescriptor.chunksForRange, if_pos (.inl h)]

/-! ## Removing a key -/

section
variable {k₁ k₂ : CacheKey} {blind : (Nat → Bool) → Nat → Nat → Prop} {d₁ : ValueDescriptor}

/-- Removal takes chunks away and changes none. -/
theorem chunk_remove (w : LevelView) (k₁ : CacheKey) (id : ChunkId) :
    (w.remove k₁).chunk id = none ∨ (w.remove k₁).chunk id = w.chunk id := by
  rw [remove]
  split
  · exact .inr rfl
  · simp only
    split
    · exact .inl rfl
    · exact .inr rfl

theorem descriptor_remove (w : LevelView) (hk : k₂ ≠ k₁) :
    (w.remove k₁).descriptor k₂ = w.descriptor k₂ := by
  rw [remove]
  split
  · rfl
  · exact Function.update_of_ne hk _ _

theorem remove_of_some (h₁ : w.descriptor k₁ = some d₁) (id : ChunkId) :
    (w.remove k₁).chunk id = if id ∈ d₁.chunks then none else w.chunk id := by
  rw [remove, h₁]

theorem remove_of_none (h₁ : w.descriptor k₁ = none) : w.remove k₁ = w := by
  rw [remove, h₁]

theorem readableAt_of_remove (h : (w.remove k₁).readableAt d i = true) :
    w.readableAt d i = true := by
  rw [readableAt] at h ⊢
  cases hid : d.chunks[i]? with
  | none => rw [hid] at h; cases h
  | some id =>
    rw [hid, Option.bind_some] at h
    rw [Option.bind_some]
    rcases chunk_remove w k₁ id with hnone | hsame
    · rw [hnone] at h; cases h
    · rwa [hsame] at h

theorem readableAt_remove_eq_false (h : w.readableAt d i = false) :
    (w.remove k₁).readableAt d i = false := by
  cases hheld : (w.remove k₁).readableAt d i with
  | false => rfl
  | true => rw [readableAt_of_remove hheld] at h; cases h

/-- A read that asks for no chunk of the removed key fetches what it did before. -/
theorem fetch_remove (h₁ : w.descriptor k₁ = some d₁)
    (hfree : ∀ i ∈ idxs, ∀ id, d.chunks[i]? = some id → (w.chunk id).isSome = true →
      id ∉ d₁.chunks) (allowPartial : Bool) :
    (w.remove k₁).fetch d allowPartial idxs = w.fetch d allowPartial idxs := by
  refine fetch_congr allowPartial fun i hi id hid => ?_
  rw [remove_of_some h₁]
  split
  · next hmem =>
    cases hc : w.chunk id with
    | none => rfl
    | some c => exact absurd hmem (hfree i hi id hid (by rw [hc]; rfl))
  · rfl

/-- In the blind cases nothing is assembled. -/
def Blinds (assemble : List (Option Chunk) → Range → ByteBuffer)
    (blind : (Nat → Bool) → Nat → Nat → Prop) : Prop :=
  ∀ (p : Nat → Bool) (r : Range) (chunks : List (Option Chunk)), blind p r.offset r.length →
    (∀ (j : Nat) (c : Chunk), chunks[j]? = some (some c) →
      ∃ i, (touched chunkSize r.offset (r.offset + r.length))[j]? = some i ∧ p i = true) →
    assemble chunks r = []

/-- A removal that spares a read does not change its answer, whatever the level holds. -/
theorem Spares.sameAnswer (hblinds : Blinds assemble blind)
    (hk : k₂ ≠ k₁)
    (hneed : ∀ d, w.descriptor k₂ = some d →
      blind (w.readableAt d) (d.readRange opts).offset (d.readRange opts).length →
      d.needed opts = [] ∨ d.needed opts = touched chunkSize (d.readRange opts).offset
        ((d.readRange opts).offset + (d.readRange opts).length))
    (h : w.Spares blind now k₁ k₂ opts) :
    SameAnswer ((w.remove k₁).read assemble now k₂ opts) (w.read assemble now k₂ opts) := by
  cases h₁ : w.descriptor k₁ with
  | none =>
    rw [remove_of_none h₁]
    exact ⟨rfl, rfl⟩
  | some d₁ =>
    refine sameAnswer_read (descriptor_remove w hk) fun d₂ h₂ hlive => ?_
    rcases h d₁ d₂ h₁ h₂ hlive with hfree | ⟨hpart, i, hi, hmiss⟩ | ⟨hpart, hlate⟩
    · rw [fetch_remove h₁ hfree]
      exact ⟨rfl, rfl⟩
    · -- a chunk is missing before and after
      rw [hpart, finishRead_missing (fetch_missing false hi hmiss),
        finishRead_missing (fetch_missing false hi (readableAt_remove_eq_false hmiss))]
      exact ⟨rfl, rfl⟩
    · by_cases hzero : (d₂.readRange opts).length = 0
      · rw [needed_eq_nil hzero]
        exact ⟨rfl, rfl⟩
      rcases hneed d₂ h₂ hlate with hnil | hneeded
      · rw [hnil]
        exact ⟨rfl, rfl⟩
      · rw [hpart]
        refine sameAnswer_finishRead_nil (length_fetch _ _ _ _) ?_ ?_ hzero
        · refine hblinds _ _ _ hlate fun j c hj => ?_
          obtain ⟨i, hi, hheld⟩ := readableAt_of_fetch true hj
          rw [← hneeded]
          exact ⟨i, hi, readableAt_of_remove hheld⟩
        · refine hblinds _ _ _ hlate fun j c hj => ?_
          rw [← hneeded]
          exact readableAt_of_fetch true hj

/-! ## The other cases -/

variable {H : ByteBuffer → Hash128} {v : ByteBuffer}

/-- Removal keeps names and contents together. -/
theorem Serves.remove (h : w.Serves H v) (k₁ : CacheKey) : (w.remove k₁).Serves H v := by
  intro i hi
  rw [held, holds]
  rcases chunk_remove w k₁ ⟨H (block chunkSize v i)⟩ with hnone | hsame
  · rw [hnone]
    rfl
  · rw [hsame, h i hi, held]
    split
    · rfl
    · rfl

theorem readableAt_eq_holds (hd : Describes H d v) (hi : i < blockCount chunkSize v.length) :
    w.readableAt d i = w.holds H v i := by
  rw [readableAt, hd.getElem?_chunks hi]
  rfl

/-- The chunks a read needs are those its range touches, if it has a byte inside the value. -/
theorem needed_eq (hd : Describes H d v) (hv : v.length < 2 ^ 64)
    (hr : opts.range.getD ⟨0, v.length⟩ = r) :
    (d.readRange opts).offset = r.offset ∧
    (d.readRange opts).length = min r.length (v.length - r.offset) ∧
      if r.offset < v.length ∧ 0 < r.length then d.needed opts =
        touched chunkSize r.offset (r.offset + min r.length (v.length - r.offset))
      else d.needed opts = [] := by
  have hrange : d.readRange opts = ⟨r.offset, min r.length (v.length - r.offset)⟩ := by
    simp only [ValueDescriptor.readRange, hd.totalSize, hr]
  rw [ValueDescriptor.needed, hrange]
  refine ⟨rfl, rfl, ?_⟩
  split
  · exact chunksForRange_eq hd hv (by omega) (by omega)
  · rw [show min r.length (v.length - r.offset) = 0 by omega]
    exact chunksForRange_zero d _

/-- The kind and the data of a read that has a byte inside the value, by which chunks are held. -/
theorem answer_read (hexact : ExactAssembly assemble) (hd : Describes H d v)
    (hv : v.length < 2 ^ 64) (hw : w.Serves H v) (hkey : w.descriptor key = some d)
    (hlive : d.metadata.isExpired now = false) (hr : opts.range.getD ⟨0, v.length⟩ = r)
    (ho : r.offset < v.length) (hpos : 0 < r.length) {len : Nat}
    (hlen : min r.length (v.length - r.offset) = len) :
    SameAnswer (w.read assemble now key opts)
      (if (touched chunkSize r.offset (r.offset + len)).all (w.readableAt d) then
        { result := .hit, data := slice v r.offset (r.offset + len) }
      else if opts.allowPartial then
        { result := .partialHit, data := assemble ((touched chunkSize r.offset (r.offset + len)).map
          (held (w.readableAt d) v)) ⟨r.offset, len⟩ }
      else { result := .miss }) := by
  subst hlen
  have hheld : ∀ i ∈ touched chunkSize r.offset (r.offset + min r.length (v.length - r.offset)),
      w.readableAt d i = w.holds H v i := fun i hi =>
    readableAt_eq_holds hd (lt_blockCount_of_mem_touched (by omega) (by omega) hi)
  have hall : (touched chunkSize r.offset (r.offset + min r.length (v.length - r.offset))).all
      (w.holds H v) = (touched chunkSize r.offset
        (r.offset + min r.length (v.length - r.offset))).all (w.readableAt d) := by
    rw [Bool.eq_iff_iff, List.all_eq_true, List.all_eq_true]
    exact forall₂_congr fun i hi => by rw [hheld i hi]
  have hmap : (touched chunkSize r.offset (r.offset + min r.length (v.length - r.offset))).map
      (held (w.holds H v) v) = (touched chunkSize r.offset
        (r.offset + min r.length (v.length - r.offset))).map (held (w.readableAt d) v) :=
    List.map_congr_left fun i hi => by rw [held, held, hheld i hi]
  rw [read_eq hexact hd hv hw hkey hlive hr ho hpos]
  simp only [hall, hmap]
  split
  · exact ⟨rfl, rfl⟩
  · split
    · exact ⟨rfl, rfl⟩
    · exact ⟨rfl, rfl⟩

/-- A removal that does not spare a read changes its answer, when the chunks held are the blocks
they are named for. -/
theorem spares_of_sameAnswer (hexact : ExactAssembly assemble)
    (hdiscerns : Discerns assemble blind) (hk : k₂ ≠ k₁)
    (hdesc : ∀ d, w.descriptor k₂ = some d →
      ∃ v, Describes H d v ∧ v.length < 2 ^ 64 ∧ w.Serves H v)
    (h : SameAnswer ((w.remove k₁).read assemble now k₂ opts) (w.read assemble now k₂ opts)) :
    w.Spares blind now k₁ k₂ opts := by
  intro d₁ d₂ h₁ h₂ hlive
  obtain ⟨v, hd, hv, hserves⟩ := hdesc d₂ h₂
  obtain ⟨r, hr⟩ : ∃ r, opts.range.getD ⟨0, v.length⟩ = r := ⟨_, rfl⟩
  obtain ⟨hoff, hlen, hneeded⟩ := needed_eq hd hv hr
  rw [hoff, hlen]
  split at hneeded
  case isFalse => exact .inl (by rw [hneeded]; exact fun i hi => by cases hi)
  case isTrue hin =>
    obtain ⟨len, hlen'⟩ : ∃ len, min r.length (v.length - r.offset) = len := ⟨_, rfl⟩
    have hafter := answer_read hexact hd hv (hserves.remove k₁)
      ((descriptor_remove w hk).trans h₂) hlive hr hin.1 hin.2 hlen'
    have hbefore := answer_read hexact hd hv hserves h₂ hlive hr hin.1 hin.2 hlen'
    have heq := SameAnswer.trans (SameAnswer.symm hafter) (SameAnswer.trans h hbefore)
    rw [hneeded, hlen']
    by_contra hcon
    rw [not_or, not_or] at hcon
    obtain ⟨hshared, hwhole, hblind⟩ := hcon
    simp only [not_forall, not_not] at hshared
    obtain ⟨i, hi, id, hid, hheld, hmem⟩ := hshared
    -- the read loses chunk `i`
    have hlost : (w.remove k₁).readableAt d₂ i = false := by
      rw [readableAt, hid, Option.bind_some, remove_of_some h₁, if_pos hmem]
      rfl
    have hkept : w.readableAt d₂ i = true := by
      rw [readableAt, hid]
      exact hheld
    have hall' : (touched chunkSize r.offset (r.offset + len)).all ((w.remove k₁).readableAt d₂) =
        false := List.all_eq_false.2 ⟨i, hi, by rw [hlost]; exact Bool.false_ne_true⟩
    rw [hall'] at heq
    cases hall : (touched chunkSize r.offset (r.offset + len)).all (w.readableAt d₂) with
    | true =>
      -- the read was a hit and is none any more
      rw [hall] at heq
      cases hpart : opts.allowPartial with
      | true => rw [hpart] at heq; cases heq.1
      | false => rw [hpart] at heq; cases heq.1
    | false =>
      rw [hall] at heq
      cases hpart : opts.allowPartial with
      | false =>
        obtain ⟨j, hj, hmiss⟩ := List.all_eq_false.1 hall
        exact hwhole ⟨hpart, j, hj, by simpa using hmiss⟩
      | true =>
        rw [hpart] at heq
        rcases hdiscerns v r.offset len (w.readableAt d₂) ((w.remove k₁).readableAt d₂) hv
          (by omega) (by omega) (fun j hj => readableAt_of_remove hj) hall heq.2 with hsame | hlate
        · exact absurd (hsame i hi hkept) (by rw [hlost]; exact Bool.false_ne_true)
        · exact hblind ⟨hpart, hlate⟩

end

end LevelView

/-! ## The memory level -/

namespace MemoryCache

variable {H : ByteBuffer → Hash128} {K : Set ByteBuffer} {P : Set Put} {m : MemoryCache}

theorem view_remove (hm : m.chunkCache.Inv) (key : CacheKey) :
    ((remove key).run m).2.view = m.view.remove key := by
  cases hd : m.descriptors key with
  | none => rw [run_remove_absent hd, LevelView.remove_of_none hd]
  | some d =>
    rw [(run_remove hm hd).2, LevelView.remove]
    simp only [view, hd]

/-- `get` of `k₂` after `remove` of `k₁` answers as `get` of `k₂` alone. -/
def Undisturbed (m : MemoryCache) (now : Timestamp) (k₁ k₂ : CacheKey) (opts : ReadOptions) :
    Prop :=
  SameAnswer ((get now k₂ opts).run ((remove k₁).run m).2).1 ((get now k₂ opts).run m).1

/-- The answers are those of the views. -/
theorem undisturbed_iff (hm : m.Inv H K P) (now : Timestamp) (k₁ k₂ : CacheKey)
    (opts : ReadOptions) : m.Undisturbed now k₁ k₂ opts ↔
      SameAnswer ((m.view.remove k₁).read assembleValue now k₂ opts)
        (m.view.read assembleValue now k₂ opts) := by
  have hm' : ((remove k₁).run m).2.Inv H K P :=
    (((steps_remove k₁).safe fun _ _ hm hstep => Inv.step hm hstep).run hm).1
  rw [Undisturbed, (observes_get now k₂ opts _ hm').1, (observes_get now k₂ opts m hm).1,
    view_remove hm.arc]

/-- Every value a key stands for is one that was put. -/
theorem Inv.describes (hm : m.Inv H K P) {d : ValueDescriptor}
    (hd : m.view.descriptor key = some d) : ∃ p ∈ P, Describes H d p.value.bytes := by
  obtain ⟨p, hp, -, rfl⟩ := hm.consistent.descriptor key d hd
  exact ⟨p, hp, p.describes H⟩

theorem undisturbed_of_spares (hm : m.Inv H K P) {k₁ k₂ : CacheKey} (hk : k₁ ≠ k₂)
    {opts : ReadOptions} (h : m.view.Spares HeldTooLate now k₁ k₂ opts) :
    m.Undisturbed now k₁ k₂ opts := by
  refine (undisturbed_iff hm now k₁ k₂ opts).2 (h.sameAnswer ?_ hk.symm fun d hd _ => ?_)
  · exact fun p r chunks hlate hheld => assembleValue_eq_nil hlate hheld
  · obtain ⟨p, -, hdesc⟩ := hm.describes hd
    obtain ⟨hoff, hlen, hneeded⟩ := LevelView.needed_eq hdesc p.value.size_lt
      (rfl : opts.range.getD ⟨0, p.value.bytes.length⟩ = _)
    split at hneeded
    · exact .inr (by rw [hneeded, hoff, hlen])
    · exact .inl hneeded

theorem spares_of_undisturbed (hm : m.Inv H K P) (hinj : Set.InjOn H K) (hP : ∀ p ∈ P, p.chunks ⊆ K)
    {k₁ k₂ : CacheKey} (hk : k₁ ≠ k₂) {opts : ReadOptions} (h : m.Undisturbed now k₁ k₂ opts) :
    m.view.Spares HeldTooLate now k₁ k₂ opts := by
  refine LevelView.spares_of_sameAnswer (H := H) exactAssembly discerns hk.symm (fun d hd => ?_)
    ((undisturbed_iff hm now k₁ k₂ opts).1 h)
  obtain ⟨p, hp, hdesc⟩ := hm.describes hd
  exact ⟨p.value.bytes, hdesc, p.value.size_lt, hm.consistent.serves hinj (hP p hp)⟩

end MemoryCache

/-! ## The disk level -/

namespace DiskCache

variable {H : ByteBuffer → Hash128} {K : Set ByteBuffer} {P : Set Put} {d : DiskCache}

theorem view_remove (d : DiskCache) (key : CacheKey) :
    ((remove key).run d).2.view = d.view.remove key := by
  cases hd : d.descriptors key with
  | none => rw [run_remove_absent hd, LevelView.remove_of_none hd]
  | some desc =>
    rw [(run_remove hd).2, LevelView.remove]
    simp only [view, hd]

/-- `get` of `k₂` after `remove` of `k₁` answers as `get` of `k₂` alone. -/
def Undisturbed (d : DiskCache) (now : Timestamp) (k₁ k₂ : CacheKey) (opts : ReadOptions) : Prop :=
  SameAnswer ((get now k₂ opts).run ((remove k₁).run d).2).1 ((get now k₂ opts).run d).1

/-- In the disk level there are no blind cases. -/
def Blind : (Nat → Bool) → Nat → Nat → Prop := fun _ _ _ => False

theorem undisturbed_iff (d : DiskCache) (now : Timestamp) (k₁ k₂ : CacheKey) (opts : ReadOptions) :
    d.Undisturbed now k₁ k₂ opts ↔
      SameAnswer ((d.view.remove k₁).read assembleValue now k₂ opts)
        (d.view.read assembleValue now k₂ opts) := by
  rw [Undisturbed, (observes_get (fun _ => True) now k₂ opts _ trivial).1,
    (observes_get (fun _ => True) now k₂ opts d trivial).1, view_remove]

theorem undisturbed_of_spares {k₁ k₂ : CacheKey} (hk : k₁ ≠ k₂) {opts : ReadOptions}
    (h : d.view.Spares Blind now k₁ k₂ opts) :
    d.Undisturbed now k₁ k₂ opts :=
  (undisturbed_iff d now k₁ k₂ opts).2
    (h.sameAnswer (fun _ _ _ hblind => hblind.elim) hk.symm fun _ _ hblind => hblind.elim)

theorem spares_of_undisturbed (hd : d.Inv H K P) (hinj : Set.InjOn H K) (hP : ∀ p ∈ P, p.chunks ⊆ K)
    {k₁ k₂ : CacheKey} (hk : k₁ ≠ k₂) {opts : ReadOptions} (h : d.Undisturbed now k₁ k₂ opts) :
    d.view.Spares Blind now k₁ k₂ opts := by
  refine LevelView.spares_of_sameAnswer (H := H) exactAssembly discerns hk.symm
    (fun desc hdesc => ?_) ((undisturbed_iff d now k₁ k₂ opts).1 h)
  obtain ⟨p, hp, -, rfl⟩ := LevelView.Consistent.descriptor hd k₂ desc hdesc
  exact ⟨p.value.bytes, p.describes H, p.value.size_lt,
    LevelView.Consistent.serves hd hinj (hP p hp)⟩

end DiskCache

/-! ## Every reachable state -/

/-- In every reachable state of either level, a removal that spares a read of another key does not
change what the read returns. If the hash is injective on the chunks of the run and, for the disk
level, no write has failed, then every other removal does. -/
theorem removal_undisturbed (H : ByteBuffer → Hash128) {k₁ k₂ : CacheKey} (hk : k₁ ≠ k₂)
    (now : Timestamp) (opts : ReadOptions) :
    (∀ (config : MemoryCacheConfig) (calls : List MemoryCache.Call),
      ((MemoryCache.after H config calls).view.Spares MemoryCache.HeldTooLate now k₁ k₂ opts →
        (MemoryCache.after H config calls).Undisturbed now k₁ k₂ opts) ∧
      (Set.InjOn H (MemoryCache.runChunks calls) →
        (MemoryCache.after H config calls).Undisturbed now k₁ k₂ opts →
        (MemoryCache.after H config calls).view.Spares MemoryCache.HeldTooLate now k₁ k₂ opts)) ∧
    (∀ (config : DiskCacheConfig) (calls : List DiskCache.Call),
      ((DiskCache.after H config calls).view.Spares DiskCache.Blind now k₁ k₂ opts →
        (DiskCache.after H config calls).Undisturbed now k₁ k₂ opts) ∧
      ((∀ call ∈ calls, call.Clean) → Set.InjOn H (DiskCache.runChunks calls) →
        (DiskCache.after H config calls).Undisturbed now k₁ k₂ opts →
        (DiskCache.after H config calls).view.Spares DiskCache.Blind now k₁ k₂ opts)) := by
  refine ⟨fun config calls => ⟨?_, fun hinj => ?_⟩,
    fun config calls => ⟨?_, fun hclean hinj => ?_⟩⟩
  · exact MemoryCache.undisturbed_of_spares (MemoryCache.inv_after config calls) hk
  · exact MemoryCache.spares_of_undisturbed (MemoryCache.inv_after config calls) hinj
      (fun p hp b hb => ⟨.put p, hp, hb⟩) hk
  · exact DiskCache.undisturbed_of_spares hk
  · exact DiskCache.spares_of_undisturbed (DiskCache.inv_after config hclean) hinj
      (fun p ⟨env, hp⟩ b hb => ⟨.put env p, hp, hb⟩) hk

/-- Two keys with different one-byte values: removing one leaves the other alone. -/
theorem removal_undisturbed_distinct :
    (MemoryCache.after sampleHash {} [.put (bytePut 1 7), .put (bytePut 2 8)]).Undisturbed 0 ⟨[1]⟩
      ⟨[2]⟩ {} := by
  refine ((removal_undisturbed sampleHash (by decide) 0 {}).1 {} _).1 ?_
  intro d₁ d₂ h₁ h₂ _
  have hd₁ : some ((bytePut 1 7).descriptor sampleHash) = some d₁ := h₁
  have hd₂ : some ((bytePut 2 8).descriptor sampleHash) = some d₂ := h₂
  cases hd₁
  cases hd₂
  refine .inl ?_
  decide +kernel

/-- Two keys with the same one-byte value: removing one turns a hit on the other into a partial hit
with no data, in either level. -/
theorem removal_disturbs_shared :
    ¬ (MemoryCache.after sampleHash {} [.put (bytePut 1 7), .put (bytePut 2 7)]).Undisturbed 0
        ⟨[1]⟩ ⟨[2]⟩ {} ∧
      ¬ (DiskCache.after sampleHash {}
        [.put { tick := fun _ => 0 } (bytePut 1 7), .put { tick := fun _ => 1 }
          (bytePut 2 7)]).Undisturbed 0 ⟨[1]⟩ ⟨[2]⟩ {} := by
  refine ⟨fun h => absurd h.1 ?_, fun h => absurd h.1 ?_⟩
  · decide +kernel
  · decide +kernel

end ElCache
