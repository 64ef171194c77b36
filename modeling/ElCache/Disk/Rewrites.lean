import ElCache.Disk.Races

/-!
# A chunk written twice

Two values that share a chunk share its file, and a put of either of them empties the file, fills it
up with zeros and writes it again. A get that runs in between finds a file of the right length and
takes it for the chunk: it hits and returns zeros (`serves_zeros`). So the condition of
`DiskHost.hits_exact` that no chunk is brought by two puts cannot be dropped.
-/

namespace ElCache

open Slice FileSystem LevelView

namespace DiskCache

variable {H : ByteBuffer → Hash128}

/-- A read within the first chunk returns what its file has there, if the file is as long as the
chunk. -/
theorem run_get_first {d : DiskCache} {desc : ValueDescriptor} {v : ByteBuffer}
    (hdesc : Describes H desc v) (hv : v.length < 2 ^ 64) {key : CacheKey}
    (hkey : d.descriptors key = some desc) {now : Timestamp}
    (hlive : desc.metadata.isExpired now = false) {opts : ReadOptions} {o n : Nat}
    (hrange : opts.range.getD ⟨0, v.length⟩ = ⟨o, n⟩) (hn : 0 < n)
    (hle : o + n ≤ (block chunkSize v 0).length) {file : ByteBuffer}
    (hfile : d.files (chunkPath d.config ⟨H (block chunkSize v 0)⟩) = some file)
    (hlen : file.length = (block chunkSize v 0).length) :
    ((get now key opts).run d).1.isHit = true ∧
      ((get now key opts).run d).1.data = slice file o (o + n) := by
  have hblock := length_block chunkSize v 0
  have hchunk : o + n ≤ chunkSize := by omega
  have hvalue : o + n ≤ v.length := by omega
  have hmin : min n (v.length - o) = n := by omega
  have hid := hdesc.getElem?_chunks (i := 0) ((lt_blockCount chunkSize_pos).2 (by omega))
  have hassemble : assembleValue [some ⟨file⟩] ⟨o, n⟩ = slice file o (o + n) := by
    have hexact := exactAssembly file o n (by omega) hn (by omega)
    have hself : block chunkSize file 0 = file := by
      rw [block, slice]
      simp
      omega
    rwa [touched_first hn hchunk, List.map_singleton, hself] at hexact
  have hne : file ≠ [] := by
    intro he
    rw [he, List.length_nil] at hlen
    omega
  have hfetch : (fetchChunks getChunk desc opts.allowPartial [0]).run d =
      (([some ⟨file⟩], true), d) := by
    simp [fetchChunks, hid, getChunk, hfile, fileChunk, hne]
  have hslice : (slice file o (o + n)).length = n := by
    rw [length_slice]
    omega
  have hget : ((get now key opts).run d).1 =
      finishRead assembleValue desc opts.allowPartial ⟨o, n⟩ ([some ⟨file⟩], true) := by
    rw [get, readValue, Prog.run_bind, getDescriptor, Prog.run_atomic]
    simp only [hkey, readFound_eq _ hdesc hv hlive hrange (show o < v.length by omega) hn, hmin,
      touched_first hn hchunk, Prog.run_bind, hfetch, Prog.run_pure]
  rw [hget, finishRead, hassemble]
  simp [hslice, ReadResult.isHit]

end DiskCache

namespace DiskHost

variable {config : DiskCacheConfig} {H : ByteBuffer → Hash128} {keyHash : CacheKey → Hash128}
  {h : DiskHost} {p : Put}

/-! ## The beginning of a put -/

/-- In an empty level there is nothing to evict. -/
theorem run_makeRoom_nil (hnil : h.accessOrder = []) (rounds needed : Nat) :
    (makeRoom config rounds needed).run h = ((), h) := by
  obtain ⟨fs, descriptors, chunkPaths, accessOrder, currentSize, stored⟩ := h
  subst hnil
  have hloop : (evictLoop config needed rounds 0).run
      ⟨fs, descriptors, chunkPaths, [], currentSize, stored⟩ =
      (0, ⟨fs, descriptors, chunkPaths, [], currentSize, stored⟩) := by
    cases rounds with
    | zero => rfl
    | succ rounds =>
      by_cases hgoes : DiskCache.evictTarget config < currentSize ∨ 0 < needed
      · simp [evictLoop, onIndex, popAccess, cache, hgoes]
      · simp [evictLoop, onIndex, cache, hgoes]
  have hrest : ∀ full : Bool, (if full then do
        let _ ← evictLoop config needed rounds 0
        pure ()
      else pure () : Prog DiskHost Unit).run
        ⟨fs, descriptors, chunkPaths, [], currentSize, stored⟩ =
      ((), ⟨fs, descriptors, chunkPaths, [], currentSize, stored⟩) := by
    intro full
    cases full with
    | false => rfl
    | true => simp [hloop]
  rw [makeRoom, Prog.run_bind]
  exact hrest _

/-- The beginning of a `write_file`: the file is emptied and filled up with zeros. -/
def allocate (path : FilePath) (size : Nat) : Prog DiskHost Nat := do
  let n ← onFiles (openTrunc path)
  onFiles fun fs => ((), fs.setData path n (extend (fs.data path n) size))
  pure n

theorem begins_writeFile {os : WriteOs} (hopen : os.openError = none)
    (hallocates : os.allocates = true) (path : FilePath) (data : ByteBuffer) :
    Prog.Begins (allocate path data.length) (writeFile os path data) := by
  refine ⟨fun n => writeLoop path n data os.pwrite 0 0, ?_⟩
  rw [writeFile, hopen, allocate]
  simp only [Prog.bind_assoc, hallocates]
  rfl

theorem run_allocate (path : FilePath) (size : Nat) (h : DiskHost) :
    ∃ fs, ((allocate path size).run h).2 = { h with fs := fs } ∧
      fs.content = Function.update h.fs.content path (some (List.replicate size 0)) := by
  refine ⟨_, rfl, ?_⟩
  have hdata := (openTrunc_spec path h.fs).2
  simp [hdata, extend, content_setData_openTrunc]

/-- The beginning of the write of a value, with the file of its first chunk. -/
def allocateFirst (config : DiskCacheConfig) (H : ByteBuffer → Hash128) (p : Put) :
    Prog DiskHost Nat :=
  allocate (chunkPath config ⟨H (block chunkSize p.value.bytes 0)⟩)
    (block chunkSize p.value.bytes 0).length

/-- What `put` does after it has looked for room. -/
def fillChunks (config : DiskCacheConfig) (H : ByteBuffer → Hash128)
    (keyHash : CacheKey → Hash128) (os : DiskCache.PutOs) (p : Put) : Prog DiskHost Status := do
  let status ← storeChunks (fun i chunk => putChunk config H (os.tick i) (os.write i) chunk) 0
    (splitValue p.value.bytes)
  if status.isOk then putDescriptor config keyHash os.writeDescriptor (p.descriptor H)
  else pure status

/-- A put begins by allocating the file of its first chunk. -/
theorem begins_fillChunks {os : DiskCache.PutOs} (hopen : (os.write 0).openError = none)
    (hallocates : (os.write 0).allocates = true) (hne : p.value.bytes ≠ []) :
    Prog.Begins (allocateFirst config H p) (fillChunks config H keyHash os p) := by
  obtain ⟨rest, hsplit⟩ : ∃ rest, splitValue p.value.bytes =
      ⟨block chunkSize p.value.bytes 0⟩ :: rest := by
    have hpos : 0 < blockCount chunkSize p.value.bytes.length := by
      rw [lt_blockCount chunkSize_pos, Nat.zero_mul]
      exact List.length_pos_iff.2 hne
    obtain ⟨m, hm⟩ := Nat.exists_eq_succ_of_ne_zero hpos.ne'
    rw [splitValue_eq, blocks, hm, List.range_succ_eq_map]
    exact ⟨_, rfl⟩
  have hwrite : Prog.Begins (allocateFirst config H p) (putChunk config H (os.tick 0) (os.write 0)
      ⟨block chunkSize p.value.bytes 0⟩) :=
    (begins_writeFile hopen hallocates _ _).bind _
  rw [fillChunks, hsplit]
  exact (hwrite.bind _).bind _

/-! ## The race -/

/-- A put on an empty level whose writes all work. -/
theorem run_put_works (config : DiskCacheConfig) (H : ByteBuffer → Hash128)
    (keyHash : CacheKey → Hash128) {os : DiskCache.PutOs} (hsize : p.key.size ≤ maxKeySize)
    (hos : (∀ c, (os.write c).Works) ∧ os.writeDescriptor.Works) (rounds : Nat) :
    ((put config H keyHash rounds os p).run {}).1 = .makeOk ∧
      ((put config H keyHash rounds os p).run {}).2.descriptors p.key = some (p.descriptor H) := by
  have hclean : (os.env H p).Clean := ⟨fun c => (hos.1 c).outcome _, hos.2.outcome _⟩
  have hput : Prog.ImplementsAt (cache config) (put config H keyHash rounds os p)
      (DiskCache.putIo H os p) {} := implements_put os p (Nat.zero_le rounds)
  obtain ⟨hok, hdesc, -, -⟩ := DiskCache.run_put (H := H) hclean hsize (cache config {})
  rw [← DiskCache.putIo_eq, ← hput.1] at hok
  rw [← DiskCache.putIo_eq, ← hput.2] at hdesc
  refine ⟨hok, (congrFun hdesc p.key).trans ?_⟩
  rw [Function.update_self]

/-- A get while the file of the first chunk is full of zeros. -/
theorem run_get_zeros {reads : ChunkId → ReadOs} (hreads : ∀ id, (reads id).Works)
    (hkey : h.descriptors p.key = some (p.descriptor H)) {now : Timestamp}
    (hlive : (p.descriptor H).metadata.isExpired now = false) {opts : ReadOptions} {o n : Nat}
    (hrange : opts.range.getD ⟨0, p.value.bytes.length⟩ = ⟨o, n⟩) (hn : 0 < n)
    (hle : o + n ≤ (block chunkSize p.value.bytes 0).length) :
    let h' := ((allocateFirst config H p).run h).2
    ((get config reads now p.key opts).run h').1.isHit = true ∧
      ((get config reads now p.key opts).run h').1.data = List.replicate n 0 := by
  obtain ⟨fs, hrun, hfs⟩ := run_allocate (chunkPath config ⟨H (block chunkSize p.value.bytes 0)⟩)
    (block chunkSize p.value.bytes 0).length h
  have hcache := cache_setFs (isChunkPath_chunkPath config _) hfs
  intro h'
  have hfile : (h'.cache config).files (chunkPath config ⟨H (block chunkSize p.value.bytes 0)⟩) =
      some (List.replicate (block chunkSize p.value.bytes 0).length 0) := by
    rw [show h' = { h with fs := fs } from hrun, hcache]
    exact Function.update_self ..
  have hkey' : (h'.cache config).descriptors p.key = some (p.descriptor H) := by
    rw [show h' = { h with fs := fs } from hrun]
    exact hkey
  have hread := DiskCache.run_get_first (p.describes H) p.value.size_lt hkey' hlive hrange hn hle
    hfile List.length_replicate
  have hzeros : slice (List.replicate (block chunkSize p.value.bytes 0).length (0 : UInt8)) o
      (o + n) = List.replicate n 0 := by
    simp [slice]
    omega
  rw [hzeros] at hread
  rw [(implements_get reads now p.key opts h').1, DiskCache.getIo_eq hreads]
  exact hread

/-- **Zeros are served while a chunk is rewritten.** A put has succeeded, and another put, under any
key, brings a value with the same first chunk. There is an interleaving in which a get then hits and
returns zeros, for every value and every range within the first chunk. -/
theorem serves_zeros {ι : Type*} [DecidableEq ι] (config : DiskCacheConfig)
    (H : ByteBuffer → Hash128) (keyHash : CacheKey → Hash128) (calls : ι → Call) {i j k : ι}
    (hij : i ≠ j) (hik : i ≠ k) (hjk : j ≠ k) {rounds rounds' : Nat} {os os' : DiskCache.PutOs}
    {p p' : Put} {reads : ChunkId → ReadOs} {now : Timestamp} {opts : ReadOptions} {o n : Nat}
    (hi : calls i = .put rounds os p) (hj : calls j = .put rounds' os' p')
    (hk : calls k = .get reads now p.key opts) (hsize : p.key.size ≤ maxKeySize)
    (hsize' : p'.key.size ≤ maxKeySize)
    (hos : (∀ c, (os.write c).Works) ∧ os.writeDescriptor.Works)
    (hopen : (os'.write 0).openError = none) (hallocates : (os'.write 0).allocates = true)
    (hreads : ∀ id, (reads id).Works)
    (hblock : block chunkSize p'.value.bytes 0 = block chunkSize p.value.bytes 0)
    (hlive : (p.descriptor H).metadata.isExpired now = false)
    (hrange : opts.range.getD ⟨0, p.value.bytes.length⟩ = ⟨o, n⟩) (hn : 0 < n)
    (hle : o + n ≤ (block chunkSize p.value.bytes 0).length) :
    ∃ pool r, Pool.Reach (fun _ _ => False)
        (Pool.start {} fun i => (calls i).prog config H keyHash) pool ∧
      (pool.threads i).prog = .ret (.status .makeOk) ∧
      (pool.threads k).prog = .ret (.read r) ∧ r.isHit = true ∧ r.data = List.replicate n 0 := by
  have hne : p'.value.bytes ≠ [] := by
    intro he
    rw [← hblock, he] at hle
    simp [block, slice] at hle
    omega
  have hbegins : Prog.Begins (allocateFirst config H p') (fillChunks config H keyHash os' p') :=
    begins_fillChunks hopen hallocates hne
  -- both values begin with the same file
  have hsame : allocateFirst config H p' = allocateFirst config H p := by
    rw [allocateFirst, allocateFirst, hblock]
  obtain ⟨l, hl⟩ := hbegins.bind fun status => pure (Reply.status status)
  have hprog : (calls j).prog config H keyHash = makeRoom config rounds' p'.value.size >>= fun _ =>
      fillChunks config H keyHash os' p' >>= fun status => pure (.status status) := by
    simp only [hj, Call.prog, put, if_neg (Nat.not_lt.2 hsize'), Prog.bind_assoc, fillChunks]
  rw [hl, hsame] at hprog
  -- `j` looks for room in the empty level, `i` puts, `j` begins to write, `k` reads
  obtain ⟨pool, hreach, hput, hget⟩ := Pool.exists_reach_between (E := fun _ _ => False) {}
    (fun i => (calls i).prog config H keyHash) hij hik hjk hprog
  obtain ⟨hok, hdesc⟩ := run_put_works config H keyHash hsize hos rounds
  simp only [hi, hk, Call.prog, Prog.run_bind, Prog.run_pure, run_makeRoom_nil, hok]
    at hput hget
  exact ⟨pool, _, hreach, hput, hget, run_get_zeros hreads hdesc hlive hrange hn hle⟩

/-- A byte is put under two keys, and read. -/
def sharedCalls : Option Bool → Call
  | none => .put 0 bytewise (bytePut 1 7)
  | some false => .put 0 bytewise (bytePut 2 7)
  | some true => .get (fun _ => { pread := fun _ => 1 }) 0 ⟨[1]⟩ {}

theorem serves_zeros_shared : ∃ pool r, Pool.Reach (fun _ _ => False)
    (Pool.start {} fun i => (sharedCalls i).prog {} sampleHash fun _ => ⟨0, 0⟩) pool ∧
    (pool.threads none).prog = .ret (.status .makeOk) ∧
    (pool.threads (some true)).prog = .ret (.read r) ∧ r.isHit = true ∧
    r.data = List.replicate 1 0 := by
  have hwrites : WriteOs.Works { pwrite := fun _ => .ok 1 } := ⟨rfl, fun _ => ⟨0, rfl⟩⟩
  have hle : 0 + 1 ≤ (block chunkSize (bytePut 1 7).value.bytes 0).length := by
    rw [length_block]
    exact Nat.le_min.2 ⟨chunkSize_pos, by rw [Nat.zero_mul]; exact Nat.le_refl 1⟩
  exact serves_zeros {} sampleHash (fun _ => ⟨0, 0⟩) sharedCalls (i := none) (j := some false)
    (k := some true) (by decide) (by decide) (by decide) rfl rfl rfl (by decide) (by decide)
    ⟨fun _ => hwrites, hwrites⟩ rfl rfl (fun _ => ⟨rfl, rfl, fun _ => Nat.one_pos⟩) rfl rfl rfl
    Nat.one_pos hle

end DiskHost

end ElCache
