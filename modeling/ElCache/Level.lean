import ElCache.Chunk
import ElCache.Lib.Prog

/-!
# A cache level

The memory and the disk level store the same two things, descriptors by key and chunks by content
name, and read a value in the same way: `get` finds the descriptor, clamps the range, fetches the
chunks the range needs and assembles the bytes. They differ in where they keep chunks and in the
loop that assembles, so `readValue` and `storeChunks` take these as parameters.

`LevelView` is what a level holds, seen from outside. `run_readValue` reduces a level's `get` to a
function of the view, and `LevelView.read_eq` says what that function returns: a hit with exactly
the bytes of the range, a partial hit, or a miss, by which needed chunks are held.
-/

namespace ElCache

open Slice

section
variable {σ : Type*}

/-- The fetch loop of `get`: the chunks with the given indices, and whether all were found. Without
`allowPartial` the first missing chunk ends the loop. -/
def fetchChunks (getChunk : ChunkId → Prog σ (Option Chunk)) (desc : ValueDescriptor)
    (allowPartial : Bool) : List Nat → Prog σ (List (Option Chunk) × Bool)
  | [] => pure ([], true)
  | idx :: rest =>
    match desc.chunks[idx]? with
    | none => pure ([], false)
    | some id => do
      let chunk ← getChunk id
      if chunk.isNone && !allowPartial then pure ([], false)
      else do
        let fetched ← fetchChunks getChunk desc allowPartial rest
        pure (chunk :: fetched.1, chunk.isSome && fetched.2)

/-- The end of `get`: assemble the fetched chunks and classify the result. -/
def finishRead (assemble : List (Option Chunk) → Range → ByteBuffer) (desc : ValueDescriptor)
    (allowPartial : Bool) (range : Range) (fetched : List (Option Chunk) × Bool) : ReadResult :=
  if fetched.1.isEmpty || (!fetched.2 && !allowPartial) then { result := .miss }
  else
    let data := assemble fetched.1 range
    { result := if fetched.2 && data.length == range.length then .hit else .partialHit
      data := data
      actualRange := ⟨range.offset, data.length⟩
      metadata := some desc.metadata }

/-- A hit has found all chunks and returns what was assembled from them. -/
theorem finishRead_hit {assemble : List (Option Chunk) → Range → ByteBuffer}
    {desc : ValueDescriptor} {allowPartial : Bool} {range : Range}
    {fetched : List (Option Chunk) × Bool}
    (h : (finishRead assemble desc allowPartial range fetched).isHit = true) :
    fetched.2 = true ∧
      (finishRead assemble desc allowPartial range fetched).data = assemble fetched.1 range := by
  rw [finishRead] at h ⊢
  split at h
  · cases h
  · next hmiss =>
    rw [if_neg hmiss]
    cases hall : fetched.2 with
    | true => exact ⟨rfl, rfl⟩
    | false => rw [hall] at h; cases h

/-- The part of `get` after the descriptor has been found. -/
def readFound (getChunk : ChunkId → Prog σ (Option Chunk))
    (assemble : List (Option Chunk) → Range → ByteBuffer) (now : Timestamp) (opts : ReadOptions)
    (desc : ValueDescriptor) : Prog σ ReadResult :=
  if desc.metadata.isExpired now then pure { result := .expired }
  else
    let range := opts.range.getD ⟨0, desc.totalSize⟩
    if desc.totalSize ≤ range.offset then
      pure { result := .hit, actualRange := ⟨range.offset, 0⟩, metadata := some desc.metadata }
    else do
      let range : Range := ⟨range.offset, min range.length (desc.totalSize - range.offset)⟩
      let fetched ← fetchChunks getChunk desc opts.allowPartial (desc.chunksForRange range)
      pure (finishRead assemble desc opts.allowPartial range fetched)

/-- The body of `MemoryCache::get` and `DiskCache::get`. -/
def readValue (getDescriptor : CacheKey → Prog σ (Option ValueDescriptor))
    (getChunk : ChunkId → Prog σ (Option Chunk))
    (assemble : List (Option Chunk) → Range → ByteBuffer) (now : Timestamp) (key : CacheKey)
    (opts : ReadOptions) : Prog σ ReadResult := do
  let found ← getDescriptor key
  match found with
  | none => pure { result := .miss }
  | some desc => readFound getChunk assemble now opts desc

/-- The store loop of `put`: the chunks in order, up to the first that fails. -/
def storeChunks (putChunk : Nat → Chunk → Prog σ Status) : Nat → List Chunk → Prog σ Status
  | _, [] => pure .makeOk
  | i, chunk :: rest => do
    let status ← putChunk i chunk
    if status.isOk then storeChunks putChunk (i + 1) rest else pure status

end

/-- The arguments of a `put`, with the clock reading it sees. -/
structure Put where
  now : Timestamp
  key : CacheKey
  value : ByteView
  opts : WriteOptions := {}

/-- A put of one byte under a key of one byte, for concrete instances. -/
def bytePut (key byte : UInt8) : Put := ⟨0, ⟨[key]⟩, .single byte, {}⟩

/-- A put of two bytes under a key of one byte, for concrete instances. -/
def pairPut (key : UInt8) : Put := ⟨0, ⟨[key]⟩, .pair 7 8, {}⟩

/-- The descriptor a `put` stores. -/
def Put.descriptor (H : ByteBuffer → Hash128) (p : Put) : ValueDescriptor where
  key := p.key
  totalSize := p.value.size
  chunks := (splitValue p.value.bytes).map (Chunk.id H)
  metadata :=
    { totalSize := p.value.size
      chunkCount := (splitValue p.value.bytes).length
      createdAt := p.now
      lastAccessed := p.now
      expiresAt := p.opts.ttl.map p.now.addSeconds
      flags := p.opts.flags }

/-- The chunk contents of the value put. -/
def Put.chunks (p : Put) : Set ByteBuffer := { b | b ∈ blocks chunkSize p.value.bytes }

/-- The descriptor of a put describes its value. -/
theorem Put.describes (H : ByteBuffer → Hash128) (p : Put) :
    Describes H (p.descriptor H) p.value.bytes where
  totalSize := rfl
  chunks := by
    simp only [Put.descriptor, splitValue_eq, chunkIds, List.map_map]
    rfl

/-! ## What a level holds -/

/-- The descriptors and chunks a level holds. -/
structure LevelView where
  descriptor : CacheKey → Option ValueDescriptor
  chunk : ChunkId → Option Chunk

namespace LevelView

/-- What `get` fetches from a level that holds `w`. -/
def fetch (w : LevelView) (desc : ValueDescriptor) (allowPartial : Bool) (idxs : List Nat) :
    List (Option Chunk) × Bool :=
  ((fetchChunks (fun id => (pure (w.chunk id) : Prog Unit _)) desc allowPartial idxs).run ()).1

theorem fetch_cons (w : LevelView) {desc : ValueDescriptor} (allowPartial : Bool) {idx : Nat}
    {id : ChunkId} (hid : desc.chunks[idx]? = some id) (rest : List Nat) :
    w.fetch desc allowPartial (idx :: rest) =
      if (w.chunk id).isNone && !allowPartial then ([], false)
      else (w.chunk id :: (w.fetch desc allowPartial rest).1,
        (w.chunk id).isSome && (w.fetch desc allowPartial rest).2) := by
  rw [fetch, fetchChunks, hid]
  simp only [Prog.run_bind]
  rw [Prog.run_ite]
  change (if (w.chunk id).isNone && !allowPartial then _ else _ : _ × Unit).1 = _
  split
  · rfl
  · rw [Prog.run_bind]; rfl

/-- What `get` returns on a level that holds `w`. -/
def read (w : LevelView) (assemble : List (Option Chunk) → Range → ByteBuffer) (now : Timestamp)
    (key : CacheKey) (opts : ReadOptions) : ReadResult :=
  ((readValue (fun k => (pure (w.descriptor k) : Prog Unit _))
    (fun id => pure (w.chunk id)) assemble now key opts).run ()).1

end LevelView

section
variable {σ : Type*} {I : σ → Prop} {view : σ → LevelView}
  {getDescriptor : CacheKey → Prog σ (Option ValueDescriptor)}
  {getChunk : ChunkId → Prog σ (Option Chunk)}

/-- Fetching observes the chunks. -/
theorem observes_fetchChunks (hget : ∀ id, Observes I view (getChunk id) fun w => w.chunk id)
    (desc : ValueDescriptor) (allowPartial : Bool) (idxs : List Nat) :
    Observes I view (fetchChunks getChunk desc allowPartial idxs)
      fun w => w.fetch desc allowPartial idxs := by
  induction idxs with
  | nil => exact observes_pure _
  | cons idx rest ih =>
    rw [fetchChunks]
    cases hid : desc.chunks[idx]? with
    | none =>
      intro s hs
      refine ⟨?_, rfl, hs⟩
      simp [LevelView.fetch, fetchChunks, hid]
    | some id =>
      have h := Observes.bind (hget id) (k := fun chunk =>
          if chunk.isNone && !allowPartial then pure ([], false)
          else do
            let fetched ← fetchChunks getChunk desc allowPartial rest
            pure (chunk :: fetched.1, chunk.isSome && fetched.2))
        (g := fun chunk w => if chunk.isNone && !allowPartial then ([], false)
          else (chunk :: (w.fetch desc allowPartial rest).1,
            chunk.isSome && (w.fetch desc allowPartial rest).2)) ?_
      · intro s hs
        obtain ⟨hres, hview, hinv⟩ := h s hs
        exact ⟨hres.trans (LevelView.fetch_cons _ _ hid rest).symm, hview, hinv⟩
      · intro chunk
        cases hc : chunk.isNone && !allowPartial with
        | true => exact observes_pure _
        | false => exact Observes.bind ih fun fetched => observes_pure _

/-- A level's `get` returns `read` of its view and leaves the view alone. -/
theorem observes_readValue (assemble : List (Option Chunk) → Range → ByteBuffer)
    (hdesc : ∀ k, Observes I view (getDescriptor k) fun w => w.descriptor k)
    (hget : ∀ id, Observes I view (getChunk id) fun w => w.chunk id) (now : Timestamp)
    (key : CacheKey) (opts : ReadOptions) :
    Observes I view (readValue getDescriptor getChunk assemble now key opts)
      fun w => w.read assemble now key opts := by
  intro s hs
  obtain ⟨hres, hview, hinv⟩ := hdesc key s hs
  simp only [readValue, Prog.run_bind, LevelView.read, Prog.run_pure, hres]
  cases hd : (view s).descriptor key with
  | none => exact ⟨rfl, hview, hinv⟩
  | some desc =>
    simp only [readFound]
    split
    · exact ⟨rfl, hview, hinv⟩
    · split
      · exact ⟨rfl, hview, hinv⟩
      · obtain ⟨hres', hview', hinv'⟩ :=
          observes_fetchChunks hget desc opts.allowPartial (desc.chunksForRange _) _ hinv
        rw [Prog.run_bind]
        refine ⟨?_, hview'.trans hview, hinv'⟩
        rw [hres', hview, Prog.run_bind]
        rfl

end

/-! ## Reading a described value -/

/-- The chunk of block `i` if it is held. -/
def held (p : Nat → Bool) (v : ByteBuffer) (i : Nat) : Option Chunk :=
  if p i then some ⟨block chunkSize v i⟩ else none

/-- An assembly loop that yields exactly the bytes of the range when no chunk is missing. -/
def ExactAssembly (assemble : List (Option Chunk) → Range → ByteBuffer) : Prop :=
  ∀ (v : ByteBuffer) (o len : Nat), v.length < 2 ^ 64 → 0 < len → o + len ≤ v.length →
    assemble ((touched chunkSize o (o + len)).map fun i => some ⟨block chunkSize v i⟩) ⟨o, len⟩ =
      slice v o (o + len)

/-- An assembly loop that yields, whichever chunks are missing, bytes of the value from the start of
the range on, in their order, and not more of them than were asked for. -/
def OrderedAssembly (assemble : List (Option Chunk) → Range → ByteBuffer) : Prop :=
  ∀ (p : Nat → Bool) (v : ByteBuffer) (o len : Nat), v.length < 2 ^ 64 → 0 < len →
    o + len ≤ v.length →
    (assemble ((touched chunkSize o (o + len)).map (held p v)) ⟨o, len⟩).Sublist (v.drop o) ∧
      (assemble ((touched chunkSize o (o + len)).map (held p v)) ⟨o, len⟩).length ≤ len

namespace LevelView

variable {H : ByteBuffer → Hash128} {w : LevelView} {v : ByteBuffer}
  {assemble : List (Option Chunk) → Range → ByteBuffer} {now : Timestamp} {key : CacheKey}
  {opts : ReadOptions} {d : ValueDescriptor} {r : Range}

/-- The bytes a read asks for: `v[offset, min(offset + length, |v|))`, the whole value when no range
is given. -/
def requested (v : ByteBuffer) (opts : ReadOptions) : ByteBuffer :=
  let r := opts.range.getD ⟨0, v.length⟩
  slice v r.offset (min (r.offset + r.length) v.length)

/-- What is asked for of a range that starts inside the value. -/
theorem requested_eq (hr : opts.range.getD ⟨0, v.length⟩ = r) (ho : r.offset < v.length) :
    requested v opts = slice v r.offset (r.offset + min r.length (v.length - r.offset)) := by
  rw [requested, hr]
  congr 1
  omega

section
variable {σ : Type*} (getChunk : ChunkId → Prog σ (Option Chunk))

/-- Of a live value and a range with a byte in it, `get` fetches the chunks the clamped range
touches. -/
theorem readFound_eq (hd : Describes H d v) (hv : v.length < 2 ^ 64)
    (hlive : d.metadata.isExpired now = false) (hr : opts.range.getD ⟨0, v.length⟩ = r)
    (ho : r.offset < v.length) (hlen : 0 < r.length) :
    readFound getChunk assemble now opts d = (do
      let len := min r.length (v.length - r.offset)
      let fetched ← fetchChunks getChunk d opts.allowPartial
        (touched chunkSize r.offset (r.offset + len))
      pure (finishRead assemble d opts.allowPartial ⟨r.offset, len⟩ fetched)) := by
  have hpos : 0 < min r.length (v.length - r.offset) := by omega
  have hle : r.offset + min r.length (v.length - r.offset) ≤ v.length := by omega
  simp only [readFound, hlive, Bool.false_eq_true, if_false, hd.totalSize, hr,
    if_neg (Nat.not_le.2 ho), chunksForRange_eq hd hv hpos hle]

/-- In every other case `get` fetches nothing. It is then no partial hit, and a hit only if nothing
was asked for. -/
theorem readFound_cases (assemble : List (Option Chunk) → Range → ByteBuffer) (now : Timestamp)
    (opts : ReadOptions) (hd : Describes H d v) :
    (∃ result : ReadResult, readFound getChunk assemble now opts d = pure result ∧
      result.isPartial = false ∧ (result.isHit = true → result.data = requested v opts)) ∨
    d.metadata.isExpired now = false ∧
      ∃ r, opts.range.getD ⟨0, v.length⟩ = r ∧ r.offset < v.length ∧ 0 < r.length := by
  rw [readFound]
  cases hexp : d.metadata.isExpired now with
  | true => exact .inl ⟨_, rfl, rfl, fun h => by cases h⟩
  | false =>
    obtain ⟨r, hr⟩ : ∃ r, opts.range.getD ⟨0, v.length⟩ = r := ⟨_, rfl⟩
    simp only [Bool.false_eq_true, if_false, hd.totalSize, requested, hr]
    rcases Nat.lt_or_ge r.offset v.length with ho | ho
    · rcases Nat.eq_zero_or_pos r.length with hlen | hlen
      · rw [if_neg (Nat.not_le.2 ho), hlen, Nat.zero_min, chunksForRange_zero]
        exact .inl ⟨_, rfl, rfl, fun h => by cases h⟩
      · exact .inr ⟨trivial, r, rfl, ho, hlen⟩
    · rw [if_pos ho]
      exact .inl ⟨_, rfl, rfl, fun _ => (slice_eq_nil_of_length_le ho).symm⟩

end

/-- Whether the level holds the chunk of block `i` of `v`. -/
def holds (H : ByteBuffer → Hash128) (w : LevelView) (v : ByteBuffer) (i : Nat) : Bool :=
  (w.chunk ⟨H (block chunkSize v i)⟩).isSome

/-- The chunks the level holds under the names of `v`'s blocks are these blocks. -/
def Serves (H : ByteBuffer → Hash128) (w : LevelView) (v : ByteBuffer) : Prop :=
  ∀ i < blockCount chunkSize v.length,
    w.chunk ⟨H (block chunkSize v i)⟩ = held (w.holds H v) v i

/-- Fetching reports whether every chunk is held. Unless the loop was cut short, it returns one
entry per index. -/
theorem fetch_eq (hd : Describes H d v) (hw : w.Serves H v)
    (allowPartial : Bool) {idxs : List Nat} (hi : ∀ i ∈ idxs, i < blockCount chunkSize v.length) :
    (w.fetch d allowPartial idxs).2 = idxs.all (w.holds H v) ∧
      (allowPartial = true ∨ idxs.all (w.holds H v) = true →
        (w.fetch d allowPartial idxs).1 = idxs.map (held (w.holds H v) v)) := by
  induction idxs with
  | nil => exact ⟨rfl, fun _ => rfl⟩
  | cons idx rest ih =>
    obtain ⟨ih2, ih1⟩ := ih fun i h => hi i (List.mem_cons_of_mem _ h)
    have hlt := hi idx List.mem_cons_self
    rw [fetch_cons w allowPartial (hd.getElem?_chunks hlt), hw idx hlt]
    cases hp : w.holds H v idx with
    | true =>
      simp only [held, hp, if_true, Option.isNone_some, Bool.false_and, Bool.false_eq_true,
        if_false, Option.isSome_some, Bool.true_and, List.all_cons, List.map_cons]
      exact ⟨ih2, fun h => by rw [ih1 h]⟩
    | false =>
      cases allowPartial with
      | true =>
        simp only [held, hp, Bool.not_true, Bool.and_false, Bool.false_eq_true, if_false,
          Option.isSome_none, Bool.false_and, List.all_cons, List.map_cons, true_and]
        exact fun _ => by rw [ih1 (.inl rfl)]
      | false => simp [held, hp]

/-- On a level with a descriptor, `get` goes on with it. -/
theorem read_some (hkey : w.descriptor key = some d) : w.read assemble now key opts =
    ((readFound (fun id => (pure (w.chunk id) : Prog Unit _)) assemble now opts d).run ()).1 := by
  rw [read, readValue, Prog.run_bind, Prog.run_pure, hkey]

/-- Of a live value and a range with a byte in it, the result is that of the touched chunks. -/
theorem read_fetch (hd : Describes H d v) (hv : v.length < 2 ^ 64)
    (hkey : w.descriptor key = some d) (hlive : d.metadata.isExpired now = false)
    (hr : opts.range.getD ⟨0, v.length⟩ = r) (ho : r.offset < v.length) (hlen : 0 < r.length) :
    w.read assemble now key opts =
      let len := min r.length (v.length - r.offset)
      finishRead assemble d opts.allowPartial ⟨r.offset, len⟩
        (w.fetch d opts.allowPartial (touched chunkSize r.offset (r.offset + len))) := by
  rw [read_some hkey, readFound_eq _ hd hv hlive hr ho hlen, Prog.run_bind]
  rfl

/-- Reading a range that meets the value: the result is decided by which needed chunks are held. -/
theorem read_eq (hexact : ExactAssembly assemble) (hd : Describes H d v) (hv : v.length < 2 ^ 64)
    (hw : w.Serves H v) (hkey : w.descriptor key = some d)
    (hlive : d.metadata.isExpired now = false) (hr : opts.range.getD ⟨0, v.length⟩ = r)
    (ho : r.offset < v.length) (hlen : 0 < r.length) :
    w.read assemble now key opts =
      let len := min r.length (v.length - r.offset)
      let needed := touched chunkSize r.offset (r.offset + len)
      if needed.all (w.holds H v) then
        { result := .hit, data := slice v r.offset (r.offset + len)
          actualRange := ⟨r.offset, len⟩, metadata := some d.metadata }
      else if opts.allowPartial then
        let data := assemble (needed.map (held (w.holds H v) v)) ⟨r.offset, len⟩
        { result := .partialHit, data := data
          actualRange := ⟨r.offset, data.length⟩, metadata := some d.metadata }
      else { result := .miss } := by
  have hread : w.read assemble now key opts = _ := read_fetch hd hv hkey hlive hr ho hlen
  obtain ⟨o, n⟩ := r
  simp only at ho hlen hread ⊢
  have hpos : 0 < min n (v.length - o) := by omega
  have hle : o + min n (v.length - o) ≤ v.length := by omega
  generalize min n (v.length - o) = len at hpos hle hread ⊢
  have hlt : ∀ i ∈ touched chunkSize o (o + len), i < blockCount chunkSize v.length :=
    fun i hi => lt_blockCount_of_mem_touched (by omega) hle hi
  have hne : touched chunkSize o (o + len) ≠ [] := touched_ne_nil (by omega)
  obtain ⟨hall, hmap⟩ := fetch_eq hd hw opts.allowPartial hlt
  rw [hread, finishRead, hall]
  cases hp : (touched chunkSize o (o + len)).all (w.holds H v) with
  | true =>
    have hsome : (touched chunkSize o (o + len)).map (held (w.holds H v) v) =
        (touched chunkSize o (o + len)).map fun i => some ⟨block chunkSize v i⟩ :=
      List.map_congr_left fun i hi => if_pos (List.all_eq_true.1 hp i hi)
    have hlength : (slice v o (o + len)).length = len := by
      rw [length_slice]; omega
    rw [hmap (.inr hp), hsome, hexact v o len hv hpos hle]
    simp [hne, hlength]
  | false =>
    cases hap : opts.allowPartial with
    | true =>
      rw [hap] at hmap
      rw [hmap (.inl rfl)]
      simp [hne]
    | false => simp

/-! ## The other outcomes -/

/-- Without a descriptor, `get` misses. -/
theorem read_none (hkey : w.descriptor key = none) :
    w.read assemble now key opts = { result := .miss } := by
  simp only [read, readValue, Prog.run_bind, Prog.run_pure, hkey]

/-- A range that starts past the value is answered with an empty hit. -/
theorem read_past (hkey : w.descriptor key = some d) (hlive : d.metadata.isExpired now = false)
    (hd : Describes H d v) (hr : opts.range.getD ⟨0, v.length⟩ = r)
    (ho : v.length ≤ r.offset) :
    w.read assemble now key opts =
      { result := .hit, actualRange := ⟨r.offset, 0⟩, metadata := some d.metadata } := by
  simp only [read, readValue, readFound, Prog.run_bind, Prog.run_pure, hkey, hlive,
    Bool.false_eq_true, if_false, hd.totalSize, hr, if_pos ho]

/-- An empty range inside the value needs no chunk, and fetching none is a miss. -/
theorem read_empty (hkey : w.descriptor key = some d) (hlive : d.metadata.isExpired now = false)
    (hd : Describes H d v) (hr : opts.range.getD ⟨0, v.length⟩ = r)
    (ho : r.offset < v.length) (hlen : r.length = 0) :
    w.read assemble now key opts = { result := .miss } := by
  simp only [read, readValue, readFound, Prog.run_bind, Prog.run_pure, hkey, hlive,
    Bool.false_eq_true, if_false, hd.totalSize, hr, if_neg (Nat.not_le.2 ho), hlen, Nat.zero_min,
    chunksForRange_zero]
  rfl

/-- A read that fetches nothing is no partial hit, and a hit only if nothing was asked for. -/
theorem read_cases (hd : Describes H d v) (hkey : w.descriptor key = some d)
    (assemble : List (Option Chunk) → Range → ByteBuffer) (now : Timestamp) (opts : ReadOptions) :
    ((w.read assemble now key opts).isPartial = false ∧
      ((w.read assemble now key opts).isHit = true →
        (w.read assemble now key opts).data = requested v opts)) ∨
    d.metadata.isExpired now = false ∧
      ∃ r, opts.range.getD ⟨0, v.length⟩ = r ∧ r.offset < v.length ∧ 0 < r.length := by
  refine (readFound_cases (fun id => (pure (w.chunk id) : Prog Unit _)) assemble now opts
    hd).imp_left ?_
  rintro ⟨result, heq, hresult⟩
  rw [read_some hkey, heq]
  exact hresult

/-- A hit returns exactly the requested bytes of the described value, which is live. -/
theorem read_hit (hexact : ExactAssembly assemble) (hd : Describes H d v) (hv : v.length < 2 ^ 64)
    (hw : w.Serves H v) (hkey : w.descriptor key = some d)
    (hhit : (w.read assemble now key opts).isHit = true) :
    (w.read assemble now key opts).data = requested v opts := by
  rcases read_cases hd hkey assemble now opts with ⟨-, hdata⟩ | ⟨hlive, r, hr, ho, hlen⟩
  · exact hdata hhit
  · rw [read_eq hexact hd hv hw hkey hlive hr ho hlen] at hhit ⊢
    simp only at hhit ⊢
    split at hhit
    · next hall => rw [if_pos hall, requested_eq hr ho]
    · split at hhit <;> cases hhit

/-- A partial hit returns bytes of the described value from the start of the range on, in their
order, and not more of them than were asked for. It may have left out any of them, and where the
loop does not account for what is missing it may run past the end of the range. -/
theorem read_partial (hexact : ExactAssembly assemble) (hordered : OrderedAssembly assemble)
    (hd : Describes H d v) (hv : v.length < 2 ^ 64) (hw : w.Serves H v)
    (hkey : w.descriptor key = some d)
    (hpart : (w.read assemble now key opts).isPartial = true) :
    (w.read assemble now key opts).data.Sublist
        (v.drop (opts.range.getD ⟨0, v.length⟩).offset) ∧
      (w.read assemble now key opts).data.length ≤ (opts.range.getD ⟨0, v.length⟩).length := by
  rcases read_cases hd hkey assemble now opts with ⟨hnot, -⟩ | ⟨hlive, r, hr, ho, hlen⟩
  · rw [hnot] at hpart
    cases hpart
  · rw [read_eq hexact hd hv hw hkey hlive hr ho hlen] at hpart ⊢
    simp only [hr] at hpart ⊢
    split at hpart
    · cases hpart
    · next hmissing =>
      split at hpart
      · next hallowed =>
        rw [if_neg hmissing, if_pos hallowed]
        obtain ⟨hsub, hle⟩ := hordered (w.holds H v) v r.offset
          (min r.length (v.length - r.offset)) hv (by omega) (by omega)
        exact ⟨hsub, hle.trans (Nat.min_le_left _ _)⟩
      · cases hpart

/-- When every needed chunk is held, a range with a byte inside the value, or starting past it, is a
hit. -/
theorem isHit_read (hexact : ExactAssembly assemble) (hd : Describes H d v)
    (hv : v.length < 2 ^ 64) (hw : w.Serves H v) (hkey : w.descriptor key = some d)
    (hlive : d.metadata.isExpired now = false) (hr : opts.range.getD ⟨0, v.length⟩ = r)
    (hlen : 0 < r.length ∨ v.length ≤ r.offset)
    (hheld : r.offset < v.length →
      ∀ i ∈ touched chunkSize r.offset (r.offset + min r.length (v.length - r.offset)),
        w.holds H v i = true) : (w.read assemble now key opts).isHit = true := by
  rcases Nat.lt_or_ge r.offset v.length with ho | ho
  · rw [read_eq hexact hd hv hw hkey hlive hr ho (hlen.resolve_right (Nat.not_le.2 ho))]
    simp only
    rw [if_pos (List.all_eq_true.2 (hheld ho))]
    rfl
  · rw [read_past hkey hlive hd hr ho]
    rfl

/-! ## Consistency -/

/-- Chunks are stored under the hash of their contents, and descriptors come from puts. `K` bounds
the chunk contents that can occur and `P` the puts. -/
structure Consistent (H : ByteBuffer → Hash128) (K : Set ByteBuffer) (P : Set Put)
    (w : LevelView) : Prop where
  chunk : ∀ id c, w.chunk id = some c → id = c.id H ∧ c.data ∈ K
  descriptor : ∀ k d, w.descriptor k = some d → ∃ p ∈ P, p.key = k ∧ p.descriptor H = d

variable {K : Set ByteBuffer} {P : Set Put}

/-- When the hash is injective on the chunks that occur, a block's name leads to the block. -/
theorem Consistent.serves (h : w.Consistent H K P) (hinj : Set.InjOn H K)
    (hv : { b | b ∈ blocks chunkSize v } ⊆ K) : w.Serves H v := by
  intro i hi
  rw [held, holds]
  cases hc : w.chunk ⟨H (block chunkSize v i)⟩ with
  | none => rfl
  | some c =>
    obtain ⟨hid, hK⟩ := h.chunk _ c hc
    have hH : H (block chunkSize v i) = H c.data := congrArg ChunkId.hash hid
    have hdata := hinj (hv (mem_blocks.2 ⟨i, hi, rfl⟩)) hK hH
    rw [hdata]
    rfl

end LevelView

end ElCache
