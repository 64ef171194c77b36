import ElCache.Disk.Spec
import ElCache.Lib.Hex
import Mathlib.Algebra.BigOperators.Group.Finset.Basic

/-!
# Starting on an existing directory

A disk cache that is started finds the files of the one before it and rebuilds its index from their
names: each file of the 256 chunk directories is the chunk whose id its name spells. Every id has
its file in one of these directories (`dropLast_chunkPath_mem`) and is spelled back from its name
(`Hash128.fromHex_toHex`), so after any writes the index has exactly the chunks written, whatever
the order in which the directories are listed (`started_index`).

The descriptor files are read as well, but nothing is made of them, so they are left out.
-/

namespace ElCache

open Digits Text

/-! ## Names -/

/-- `Hash128::from_hex`. A text that is too short gives the hash zero. -/
def Hash128.fromHex (hex : List Char) : Except StdException Hash128 :=
  if 32 ≤ hex.length then do
    let high ← Hex.stoull (hex.take 16)
    let low ← Hex.stoull ((hex.drop 16).take 16)
    pure ⟨UInt64.ofNat low, UInt64.ofNat high⟩
  else pure ⟨0, 0⟩

theorem digit_hexChar : ∀ d < 16, Hex.digit (hexChar d) = some d := by decide

@[simp] theorem length_hexWord (n : UInt64) : (hexWord n).length = 16 := by
  rw [hexWord, List.length_map, List.length_reverse, length_digits]

theorem stoull_hexWord (n : UInt64) : Hex.stoull (hexWord n) = .ok n.toNat :=
  Hex.stoull_digits digit_hexChar (by decide) (lt_of_lt_of_eq n.toNat_lt (by decide)) n.toNat_lt

theorem Hash128.length_toHex (h : Hash128) : h.toHex.length = 32 := by
  rw [toHex, List.length_append, length_hexWord, length_hexWord]

/-- A hash is read back from what `toHex` writes. -/
theorem Hash128.fromHex_toHex (h : Hash128) : fromHex h.toHex = .ok h := by
  have hhigh : h.toHex.take 16 = hexWord h.high := by
    rw [toHex, ← length_hexWord h.high, List.take_left]
  have hlow : (h.toHex.drop 16).take 16 = hexWord h.low := by
    rw [toHex, ← length_hexWord h.high, List.drop_left, length_hexWord, ← length_hexWord h.low,
      List.take_length]
  rw [fromHex, if_pos h.length_toHex.ge, hhigh, hlow, stoull_hexWord, stoull_hexWord]
  show Except.ok (⟨UInt64.ofNat h.low.toNat, UInt64.ofNat h.high.toNat⟩ : Hash128) = .ok h
  rw [UInt64.ofNat_toNat, UInt64.ofNat_toNat]

/-- Where the extension of a file name starts: at its last dot, which must not be its first
character. -/
def dotPos (name : List Char) : Option Nat :=
  if name = "..".toList then none else (rfind ['.'] name).filter (0 < ·)

/-- `std::filesystem::path::stem` of a file name. -/
def stem (name : List Char) : List Char :=
  match dotPos name with
  | some i => name.take i
  | none => name

/-- `std::filesystem::path::extension` of a file name. -/
def extension (name : List Char) : List Char :=
  match dotPos name with
  | some i => name.drop i
  | none => []

/-- The name of a chunk file. -/
def chunkName (id : ChunkId) : List Char := id.hash.toHex ++ ".chunk".toList

theorem dotPos_chunkName (id : ChunkId) : dotPos (chunkName id) = some 32 := by
  have hlen := id.hash.length_toHex
  have hne : chunkName id ≠ "..".toList := by
    intro he
    have := congrArg List.length he
    rw [chunkName, List.length_append, hlen] at this
    cases this
  have hdot : rfind ['.'] (chunkName id) = some 32 := by
    rw [← hlen]
    exact rfind_singleton (by decide) _
  rw [dotPos, if_neg hne, hdot]
  rfl

theorem stem_chunkName (id : ChunkId) : stem (chunkName id) = id.hash.toHex := by
  rw [stem, dotPos_chunkName]
  simp only [chunkName, ← id.hash.length_toHex, List.take_left]

theorem extension_chunkName (id : ChunkId) : extension (chunkName id) = ".chunk".toList := by
  rw [extension, dotPos_chunkName]
  simp only [chunkName, ← id.hash.length_toHex, List.drop_left]

/-! ## Directories -/

/-- The directory that the chunk directories are in. -/
def chunksDir (config : DiskCacheConfig) : FilePath :=
  config.path.map String.toList ++ ["chunks".toList]

/-- The name of a chunk directory: its number with two hexadecimal digits. -/
def shardName (i : Nat) : List Char := (digits 16 2 i).reverse.map hexChar

/-- The 256 chunk directories. -/
def shardDirectories (config : DiskCacheConfig) : List FilePath :=
  (List.range 256).map fun i => chunksDir config ++ [shardName i]

/-- The directories `DiskStore::init` creates. -/
def initDirectories (config : DiskCacheConfig) : List FilePath :=
  config.path.map String.toList ::
    (shardDirectories config ++ [config.path.map String.toList ++ ["descriptors".toList]])

theorem shardDirectories_subset (config : DiskCacheConfig) :
    shardDirectories config ⊆ initDirectories config :=
  List.subset_cons_of_subset _ (List.subset_append_left _ _)

/-- The directory and the name of a chunk's file. -/
def chunkEntry (id : ChunkId) : List Char × List Char := (id.hash.toHex.take 2, chunkName id)

theorem chunkPath_eq (config : DiskCacheConfig) (id : ChunkId) :
    chunkPath config id = chunksDir config ++ [(chunkEntry id).1, (chunkEntry id).2] := by
  rw [chunkPath, chunksDir, List.append_assoc]
  rfl

/-- The first two digits of a hash are the number of one of the directories. -/
theorem take_toHex (h : Hash128) : h.toHex.take 2 = shardName (h.high.toNat / 16 ^ 14) := by
  have hlen : (shardName (h.high.toNat / 16 ^ 14)).length = 2 := by
    rw [shardName, List.length_map, List.length_reverse, length_digits]
  have hword : hexWord h.high =
      shardName (h.high.toNat / 16 ^ 14) ++ (digits 16 14 h.high.toNat).reverse.map hexChar := by
    rw [hexWord, shardName, ← List.map_append, ← List.reverse_append, ← digits_add]
  rw [Hash128.toHex, hword, List.append_assoc, ← hlen, List.take_left]

/-- Every chunk has its file in one of the chunk directories. -/
theorem dropLast_chunkPath_mem (config : DiskCacheConfig) (id : ChunkId) :
    (chunkPath config id).dropLast ∈ shardDirectories config := by
  have hshard : id.hash.high.toNat / 16 ^ 14 < 256 :=
    Nat.div_lt_of_lt_mul (lt_of_lt_of_eq id.hash.high.toNat_lt (by decide))
  refine List.mem_map.2 ⟨_, List.mem_range.2 hshard, ?_⟩
  rw [← take_toHex, chunkPath_eq, List.dropLast_append_of_ne_nil (List.cons_ne_nil _ _)]
  rfl

theorem chunkEntry_injective : Function.Injective chunkEntry := by
  rintro ⟨a⟩ ⟨b⟩ h
  exact congrArg ChunkId.mk (Hash128.toHex_inj (List.append_cancel_right (congrArg Prod.snd h)))

/-- What listing the chunk directories shows: each of them with the names of the files in it. -/
abbrev Scan := List (List Char × List (List Char))

/-- The files of a listing, by directory and name, in the order in which they are listed. -/
def Scan.entries (scan : Scan) : List (List Char × List Char) :=
  scan.flatMap fun s => s.2.map fun name => (s.1, name)

/-- The listing shows every file that is two levels below the given directory, once. -/
structure Scan.Shows (scan : Scan) (dir : FilePath) (files : FilePath → Option ByteBuffer) :
    Prop where
  nodup : scan.entries.Nodup
  mem_iff : ∀ e, e ∈ scan.entries ↔ (files (dir ++ [e.1, e.2])).isSome = true

namespace DiskCache

variable {writes : List (TimePoint × Chunk)}

/-! ## Starting -/

/-- The body of the loop of `load_index` for one file. -/
def indexFile (now : TimePoint) (e : List Char × List Char) (d : DiskCache) :
    Except StdException DiskCache :=
  if extension e.2 = ".chunk".toList then do
    let hash ← Hash128.fromHex (stem e.2)
    let path := chunksDir d.config ++ [e.1, e.2]
    let size := ((d.files path).getD []).length
    pure { d with
      chunkPaths := Function.update d.chunkPaths ⟨hash⟩ (some path)
      currentSize := d.currentSize + size
      accessOrder := insertAccess ⟨⟨hash⟩, now, size⟩ d.accessOrder }
  else pure d

/-- The inner loop of `load_index`, over the files of a directory. The clock is read once for each
file. -/
def loadDirectory (clock : List Char × List Char → TimePoint) (dir : List Char) :
    List (List Char) → DiskCache → Except StdException DiskCache
  | [], d => pure d
  | name :: names, d => do
    let d ← indexFile (clock (dir, name)) (dir, name) d
    loadDirectory clock dir names d

/-- `DiskCache::load_index`: the loop over the chunk directories. -/
def loadIndex (clock : List Char × List Char → TimePoint) :
    Scan → DiskCache → Except StdException DiskCache
  | [], d => pure d
  | (dir, names) :: rest, d => do
    let d ← loadDirectory clock dir names d
    loadIndex clock rest d

/-- `DiskCache::start` of a new cache on a directory with the given files. -/
def start (clock : List Char × List Char → TimePoint) (scan : Scan) (config : DiskCacheConfig)
    (files : FilePath → Option ByteBuffer) : Except StdException DiskCache :=
  loadIndex clock scan { config := config, files := files }

/-- `CacheStats::size_bytes` of the level. -/
def sizeBytes (d : DiskCache) : Nat := d.currentSize

/-- The size of a chunk's file. -/
def fileSize (d : DiskCache) (id : ChunkId) : Nat :=
  ((d.files (chunkPath d.config id)).getD []).length

/-- The index of `d` is that of `d₀` and, added to it, the chunks of the list with the sizes of
their files. -/
structure Adds (d₀ : DiskCache) (ids : List ChunkId) (d : DiskCache) : Prop where
  config : d.config = d₀.config
  files : d.files = d₀.files
  paths : ∀ id, (d.chunkPaths id).isSome = true ↔ (d₀.chunkPaths id).isSome = true ∨ id ∈ ids
  size : d.currentSize = d₀.currentSize + (ids.map d₀.fileSize).sum

theorem Adds.refl (d : DiskCache) : Adds d [] d where
  config := rfl
  files := rfl
  paths id := by simp
  size := rfl

theorem Adds.trans {d₀ d₁ d₂ : DiskCache} {ids ids' : List ChunkId} (h : Adds d₀ ids d₁)
    (h' : Adds d₁ ids' d₂) : Adds d₀ (ids ++ ids') d₂ where
  config := h'.config.trans h.config
  files := h'.files.trans h.files
  paths id := by rw [h'.paths, h.paths, List.mem_append, or_assoc]
  size := by
    have hsize : d₁.fileSize = d₀.fileSize := by
      funext id
      rw [fileSize, fileSize, h.files, h.config]
    rw [h'.size, h.size, hsize, List.map_append, List.sum_append, Nat.add_assoc]

/-- A chunk's file adds the chunk. -/
theorem indexFile_chunkEntry (now : TimePoint) (id : ChunkId) (d : DiskCache) :
    ∃ d', indexFile now (chunkEntry id) d = .ok d' ∧ Adds d [id] d' := by
  have hext : extension (chunkEntry id).2 = ".chunk".toList := extension_chunkName id
  have hstem : stem (chunkEntry id).2 = id.hash.toHex := stem_chunkName id
  rw [indexFile, if_pos hext, hstem, Hash128.fromHex_toHex]
  refine ⟨_, rfl, rfl, rfl, fun id' => ?_, ?_⟩
  · rw [List.mem_singleton]
    rcases eq_or_ne id' id with rfl | hne
    · simp [Function.update_self]
    · simp [hne]
  · show d.currentSize + _ = d.currentSize + (d.fileSize id + 0)
    rw [fileSize, chunkPath_eq]
    rfl

/-- The files of a directory add their chunks. -/
theorem loadDirectory_spec (clock : List Char × List Char → TimePoint) (dir : List Char)
    {names : List (List Char)} {ids : List ChunkId}
    (h : ids.map chunkEntry = names.map fun name => (dir, name)) (d : DiskCache) :
    ∃ d', loadDirectory clock dir names d = .ok d' ∧ Adds d ids d' := by
  induction names generalizing ids d with
  | nil =>
    rw [List.map_eq_nil_iff.1 h]
    exact ⟨d, rfl, .refl d⟩
  | cons name names ih =>
    obtain ⟨id, ids, rfl, hid, hids⟩ := List.map_eq_cons_iff.1 h
    obtain ⟨d₁, hd₁, hadds₁⟩ := indexFile_chunkEntry (clock (dir, name)) id d
    obtain ⟨d₂, hd₂, hadds₂⟩ := ih hids d₁
    rw [hid] at hd₁
    refine ⟨d₂, ?_, hadds₁.trans hadds₂⟩
    rw [loadDirectory, hd₁]
    exact hd₂

/-- If all the files listed are those of chunks, they add these chunks. -/
theorem loadIndex_spec (clock : List Char × List Char → TimePoint) {scan : Scan}
    {ids : List ChunkId} (h : ids.map chunkEntry = scan.entries) (d : DiskCache) :
    ∃ d', loadIndex clock scan d = .ok d' ∧ Adds d ids d' := by
  induction scan generalizing ids d with
  | nil =>
    rw [List.map_eq_nil_iff.1 h]
    exact ⟨d, rfl, .refl d⟩
  | cons s scan ih =>
    obtain ⟨dir, names⟩ := s
    obtain ⟨ids₁, ids₂, rfl, hids₁, hids₂⟩ := List.map_eq_append_iff.1 h
    obtain ⟨d₁, hd₁, hadds₁⟩ := loadDirectory_spec clock dir hids₁ d
    obtain ⟨d₂, hd₂, hadds₂⟩ := ih hids₂ d₁
    refine ⟨d₂, ?_, hadds₁.trans hadds₂⟩
    rw [loadIndex, hd₁]
    exact hd₂

/-! ## Writing -/

section
variable (H : ByteBuffer → Hash128)

/-- The store after chunks have been written to an empty directory, each at a time of the clock. -/
def written (config : DiskCacheConfig) (writes : List (TimePoint × Chunk)) : DiskCache :=
  after H config (writes.map fun w => .putChunk w.1 .done (some w.2))

/-- The chunk that was written last under an id. -/
def lastChunk : List (TimePoint × Chunk) → ChunkId → Option Chunk
  | [], _ => none
  | w :: writes, id => (lastChunk writes id).or (if w.2.id H = id then some w.2 else none)

end

variable {H : ByteBuffer → Hash128}

theorem exec_putChunk (now : TimePoint) (chunk : Chunk) (d : DiskCache) :
    exec H (.putChunk now .done (some chunk)) d =
      indexChunk (chunk.id H) now chunk.size { d with
        files := Function.update d.files (chunkPath d.config (chunk.id H)) (some chunk.data) } :=
  rfl

/-- The last chunk of an id is one of those written, under this id. -/
theorem mem_of_lastChunk {id : ChunkId} {c : Chunk} (h : lastChunk H writes id = some c) :
    c ∈ writes.map Prod.snd ∧ c.id H = id := by
  induction writes with
  | nil => cases h
  | cons w writes ih =>
    rw [lastChunk, Option.or_eq_some_iff] at h
    rcases h with h | ⟨-, h⟩
    · exact ⟨List.mem_cons_of_mem _ (ih h).1, (ih h).2⟩
    · split at h
      · next hid =>
        cases h
        exact ⟨List.mem_cons_self, hid⟩
      · cases h

theorem isSome_lastChunk {id : ChunkId} :
    (lastChunk H writes id).isSome = true ↔ ∃ w ∈ writes, w.2.id H = id := by
  induction writes with
  | nil => simp [lastChunk]
  | cons w writes ih =>
    rw [lastChunk, Option.isSome_or, Bool.or_eq_true, ih, List.exists_mem_cons_iff, or_comm]
    refine or_congr_left ?_
    split
    · next hid => exact iff_of_true rfl hid
    · next hid => exact iff_of_false Bool.false_ne_true hid

/-- After the writes every chunk file holds the chunk written last under its id; no other file has
changed. -/
theorem files_run (writes : List (TimePoint × Chunk)) (d : DiskCache) {d'}
    (hd' : runOps (exec H) (writes.map fun w => .putChunk w.1 .done (some w.2)) d = d') :
    d'.config = d.config ∧
      (∀ id, d'.files (chunkPath d.config id) =
        ((lastChunk H writes id).map Chunk.data).or (d.files (chunkPath d.config id))) ∧
      ∀ path, (∀ id, chunkPath d.config id ≠ path) → d'.files path = d.files path := by
  induction writes generalizing d with
  | nil =>
    cases hd'
    exact ⟨rfl, fun _ => rfl, fun _ _ => rfl⟩
  | cons w writes ih =>
    obtain ⟨hconfig, hfiles, hother⟩ := ih _ hd'
    rw [exec_putChunk] at hconfig hfiles hother
    refine ⟨hconfig, fun id => ?_, fun path hpath => ?_⟩
    · refine (hfiles id).trans ?_
      rw [lastChunk, Option.map_or, Option.or_assoc]
      congr 1
      show Function.update d.files (chunkPath d.config (w.2.id H)) (some w.2.data)
        (chunkPath d.config id) = _
      split
      · next hid =>
        rw [← hid, Function.update_self]
        rfl
      · next hid =>
        rw [Function.update_of_ne fun he => hid (chunkPath_inj he).symm]
        rfl
    · refine (hother path hpath).trans ?_
      exact Function.update_of_ne (hpath _).symm _ _

/-- The files after the writes are those of the chunks written. -/
theorem isSome_files_written (config : DiskCacheConfig) (writes : List (TimePoint × Chunk))
    (e : List Char × List Char) :
    ((written H config writes).files (chunksDir config ++ [e.1, e.2])).isSome = true ↔
      ∃ w ∈ writes, chunkEntry (w.2.id H) = e := by
  obtain ⟨-, hfiles, hother⟩ := files_run (H := H) writes { config := config } rfl
  rcases em (∃ id, chunkEntry id = e) with ⟨id, rfl⟩ | hno
  · rw [← chunkPath_eq]
    refine (iff_of_eq (congrArg (fun o => Option.isSome o = true) (hfiles id))).trans ?_
    rw [Option.or_none, Option.isSome_map, isSome_lastChunk]
    simp only [chunkEntry_injective.eq_iff]
  · have hpath : ∀ id, chunkPath config id ≠ chunksDir config ++ [e.1, e.2] := by
      intro id he
      rw [chunkPath_eq] at he
      have htail := List.append_cancel_left he
      simp only [List.cons.injEq, and_true] at htail
      exact hno ⟨id, Prod.ext htail.1 htail.2⟩
    refine (iff_of_eq (congrArg (fun o => Option.isSome o = true) (hother _ hpath))).trans ?_
    exact iff_of_false Bool.false_ne_true fun ⟨w, _, he⟩ => hno ⟨_, he⟩

/-- After the writes a chunk's file has the size of the chunk written last under its id. -/
theorem fileSize_written (config : DiskCacheConfig) (writes : List (TimePoint × Chunk))
    (id : ChunkId) : ({ config := config, files := (written H config writes).files } :
      DiskCache).fileSize id = ((lastChunk H writes id).map Chunk.size).getD 0 := by
  obtain ⟨-, hfiles, -⟩ := files_run (H := H) writes { config := config } rfl
  refine (congrArg (fun o => (Option.getD o []).length) (hfiles id)).trans ?_
  cases lastChunk H writes id with
  | none => rfl
  | some c => rfl

/-- If no two of the chunks written share an id, the sizes of the last ones are the sizes of the
chunks. -/
theorem sum_lastChunk (hinj : Set.InjOn (Chunk.id H) { c | c ∈ writes.map Prod.snd }) :
    ∑ id ∈ (writes.map fun w => w.2.id H).toFinset,
        ((lastChunk H writes id).map Chunk.size).getD 0 =
      ∑ c ∈ (writes.map Prod.snd).toFinset, c.size := by
  have himage : (writes.map fun w => w.2.id H).toFinset =
      (writes.map Prod.snd).toFinset.image (Chunk.id H) := by
    ext id
    simp only [List.mem_toFinset, List.mem_map, Finset.mem_image, exists_exists_and_eq_and]
  rw [himage, Finset.sum_image fun a ha b hb =>
    hinj (List.mem_toFinset.1 ha) (List.mem_toFinset.1 hb)]
  refine Finset.sum_congr rfl fun c hc => ?_
  have hmem := List.mem_toFinset.1 hc
  obtain ⟨w, hw, hwc⟩ := List.mem_map.1 hmem
  obtain ⟨c', hc'⟩ := Option.isSome_iff_exists.1
    (isSome_lastChunk.2 ⟨w, hw, congrArg (Chunk.id H) hwc⟩)
  obtain ⟨hmem', hid⟩ := mem_of_lastChunk hc'
  rw [hc', hinj hmem' hmem hid]
  rfl

/-- A cache started on the directory that any writes of chunks have left, with its files listed in
any order, has exactly the chunks written in its index. It counts each once, with the size of the
chunk last written under the id: the sum of the sizes of the chunks written, if no two of them share
an id. Every chunk path is in one of the 256 directories that are created, and every hash is read
back from its name. -/
theorem started_index (H : ByteBuffer → Hash128) (config : DiskCacheConfig)
    (writes : List (TimePoint × Chunk)) (clock : List Char × List Char → TimePoint) (scan : Scan)
    (hscan : scan.Shows (chunksDir config) (written H config writes).files) :
    (∃ d, start clock scan config (written H config writes).files = .ok d ∧
      (∀ id, ((hasChunk id).run d).1 = true ↔ ∃ w ∈ writes, w.2.id H = id) ∧
      d.sizeBytes = ∑ id ∈ (writes.map fun w => w.2.id H).toFinset,
        ((lastChunk H writes id).map Chunk.size).getD 0 ∧
      (Set.InjOn (Chunk.id H) { c | c ∈ writes.map Prod.snd } →
        d.sizeBytes = ∑ c ∈ (writes.map Prod.snd).toFinset, c.size)) ∧
    (∀ id, (chunkPath config id).dropLast ∈ shardDirectories config) ∧
    shardDirectories config ⊆ initDirectories config ∧
    ∀ h : Hash128, Hash128.fromHex h.toHex = .ok h := by
  refine ⟨?_, dropLast_chunkPath_mem config, shardDirectories_subset config,
    Hash128.fromHex_toHex⟩
  have hentries : ∀ e, e ∈ scan.entries ↔ ∃ w ∈ writes, chunkEntry (w.2.id H) = e := fun e =>
    (hscan.mem_iff e).trans (isSome_files_written config writes e)
  obtain ⟨ids, hids⟩ : scan.entries ∈ Set.range (List.map chunkEntry) := by
    rw [Set.range_list_map]
    intro e he
    obtain ⟨w, -, hw⟩ := (hentries e).1 he
    exact ⟨_, hw⟩
  have hmem : ∀ id, id ∈ ids ↔ ∃ w ∈ writes, w.2.id H = id := by
    intro id
    rw [← List.mem_map_of_injective chunkEntry_injective, hids, hentries]
    simp only [chunkEntry_injective.eq_iff]
  have hnodup : ids.Nodup := List.Nodup.of_map chunkEntry (hids ▸ hscan.nodup)
  obtain ⟨d, hd, hadds⟩ := loadIndex_spec clock hids
    { config := config, files := (written H config writes).files }
  have hsize : d.sizeBytes = ∑ id ∈ (writes.map fun w => w.2.id H).toFinset,
      ((lastChunk H writes id).map Chunk.size).getD 0 := by
    rw [sizeBytes, hadds.size, ← List.sum_toFinset _ hnodup, Nat.zero_add]
    refine Finset.sum_congr ?_ fun id _ => fileSize_written config writes id
    ext id
    rw [List.mem_toFinset, List.mem_toFinset, hmem, List.mem_map]
  refine ⟨d, hd, fun id => ?_, hsize, fun hinj => hsize.trans (sum_lastChunk hinj)⟩
  rw [← hmem id]
  exact (hadds.paths id).trans (or_iff_right Bool.false_ne_true)

/-- Two chunks, of two bytes and of one. -/
def twoWrites : List (TimePoint × Chunk) := [(0, ⟨[1, 2]⟩), (1, ⟨[3]⟩)]

/-- Their files, listed one by one. -/
def twoScan : Scan :=
  twoWrites.map fun w => ((chunkEntry (w.2.id sampleHash)).1, [(chunkEntry (w.2.id sampleHash)).2])

theorem twoScan_shows :
    twoScan.Shows (chunksDir {}) (written sampleHash {} twoWrites).files where
  nodup := by
    have hnodup : (twoWrites.map fun w => w.2.id sampleHash).Nodup := by decide
    exact (hnodup.map chunkEntry_injective)
  mem_iff e := by
    rw [isSome_files_written, ← List.mem_map]
    exact Iff.rfl

/-- A cache that is started after two writes counts three bytes. -/
theorem started_index_two :
    ∃ d, start (fun _ => 0) twoScan {} (written sampleHash {} twoWrites).files = .ok d ∧
      d.sizeBytes = 3 := by
  obtain ⟨⟨d, hd, -, hsize, -⟩, -⟩ :=
    started_index sampleHash {} twoWrites (fun _ => 0) twoScan twoScan_shows
  exact ⟨d, hd, hsize.trans (by decide)⟩

end DiskCache

end ElCache
