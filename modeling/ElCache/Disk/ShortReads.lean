import ElCache.Disk.Files
import ElCache.Disk.Torn

/-!
# Reads that are cut short

When a call of `pread` fails, `read_file` returns the beginning of the file, and `get_chunk` takes
it for the chunk. The assembly of `DiskCache::get` then goes on with the next chunk from its start,
and copies more of it instead, up to the length asked for. So a cut chunk can go unnoticed if there
is more to copy from: if the range ends inside the last chunk it needs. If the range ends where a
chunk or the value ends, every byte that is cut off is missing in the end, and the read is no hit
(`assembleValue_cut`).

`io_hits_sound` states this for whole runs over the loops of the file store.
-/

namespace ElCache

open Slice LevelView

namespace DiskCache

variable {H : ByteBuffer → Hash128} {v : ByteBuffer} {o e : Nat} {w : LevelView} {c : Chunk}
  {chunk : Nat → Chunk} {d : ValueDescriptor} {K : Set ByteBuffer}

/-! ## Assembling chunks that are cut -/

/-- The range ends where a chunk ends or where the value ends. -/
def EndsWhole (v : ByteBuffer) (e : Nat) : Prop := e % chunkSize = 0 ∨ e = v.length

/-- A chunk that starts before such an end does not go on behind it. -/
theorem EndsWhole.min_eq (h : EndsWhole v e) (he : e ≤ v.length) {i : Nat}
    (hi : i * chunkSize < e) :
    min v.length ((i + 1) * chunkSize) = min e ((i + 1) * chunkSize) := by
  rcases h with h | rfl
  · obtain ⟨m, rfl⟩ := Nat.dvd_of_mod_eq_zero h
    have hlt : i < m := by
      rw [Nat.mul_comm chunkSize] at hi
      exact Nat.lt_of_mul_lt_mul_right hi
    have hle : (i + 1) * chunkSize ≤ chunkSize * m := by
      rw [Nat.mul_comm chunkSize]
      exact Nat.mul_le_mul_right _ hlt
    rw [Nat.min_eq_right hle, Nat.min_eq_right (hle.trans he)]
  · rfl

/-- A piece of a chunk that is cut: at most what the chunk has there, and if it is as long, it is
that. -/
theorem read_cut {i a : Nat} (hc : c.data <+: block chunkSize v i) (ha : i * chunkSize ≤ a)
    {b : Nat} (hb : min v.length ((i + 1) * chunkSize) = b) (n : Nat) :
    (c.read (a - i * chunkSize) n).length ≤ b - a ∧
      ((c.read (a - i * chunkSize) n).length = b - a →
        c.read (a - i * chunkSize) n = slice v a b) := by
  have hblock : (block chunkSize v i).drop (a - i * chunkSize) = slice v a b := by
    rw [block, slice, List.drop_drop, Nat.add_sub_cancel' ha, ← hb, Nat.min_comm, slice_min_length,
      slice]
  have hread : c.read (a - i * chunkSize) n <+: slice v a b := by
    rw [Chunk.read_eq, ← hblock, slice]
    exact ((List.take_prefix _ _).trans hc).drop _
  have hlen : (slice v a b).length = b - a := by
    rw [length_slice]
    omega
  refine ⟨hlen ▸ hread.length_le, fun h => ?_⟩
  exact hread.eq_of_length (h.trans hlen.symm)

/-- One round of the loop over a cut chunk: what it copies, and where it stands then. If the chunk
ends before the range starts in it, the loop ends. -/
theorem assembleLoop_round (rest : List (Option Chunk)) {s i cur rem : Nat} (hv : v.length < 2 ^ 64)
    (he : e ≤ v.length) (hc : c.data <+: block chunkSize v (s + i))
    (hcur : max cur ((s + i) * chunkSize) = max o ((s + i) * chunkSize)) (hsum : cur + rem ≤ e)
    (hrem : 0 < rem) :
    assembleLoop s (some c :: rest) i cur rem = [] ∨
      ∃ n cur' rem', cur' ≤ (s + i + 1) * chunkSize ∧ cur' + rem' ≤ e ∧
        assembleLoop s (some c :: rest) i cur rem =
          c.read (max o ((s + i) * chunkSize) - (s + i) * chunkSize) n ++
            assembleLoop s rest (i + 1) cur' rem' := by
  have hclt := chunkSize_lt
  have hsize : c.size ≤ min chunkSize (v.length - (s + i) * chunkSize) := by
    rw [← length_block]
    exact hc.length_le
  rw [assembleLoop, if_neg (Nat.pos_iff_ne_zero.1 hrem)]
  simp only [offset_in_chunk, hcur]
  have hsucc : (s + i + 1) * chunkSize = (s + i) * chunkSize + chunkSize := Nat.succ_mul _ _
  generalize (s + i) * chunkSize = g at *
  rcases Nat.lt_or_ge c.size (max o g - g) with hlt | hge
  · -- the difference wraps, and what is left to copy is copied from behind the end
    have hall : min rem (sub64 c.size (max o g - g)) = rem := by
      unfold sub64
      omega
    have hnone : c.read (max o g - g) rem = [] := by
      rw [Chunk.read_eq]
      exact slice_eq_nil_of_length_le hlt.le
    rw [hall, hnone, Nat.sub_self, List.nil_append]
    left
    cases rest with
    | nil => rfl
    | cons x rest => simp only [assembleLoop, if_true]
  · have hsub : sub64 c.size (max o g - g) = c.size - (max o g - g) := sub64_of_le hge (by omega)
    rw [hsub]
    refine .inr ⟨_, _, _, ?_, ?_, rfl⟩
    · omega
    · omega

/-- The loop from chunk position `i` on, over chunks that may be cut: it copies at most the rest of
the range, and if it copies as much, it copies the rest of the range. -/
theorem assembleLoop_cut (hv : v.length < 2 ^ 64) (he : e ≤ v.length) (hoe : o < e)
    (hend : EndsWhole v e)
    (hchunk : ∀ i, (chunk i).data <+: block chunkSize v i) (k i cur rem : Nat)
    (hk : o / chunkSize + i + k = (e - 1) / chunkSize + 1)
    (hcur : max cur ((o / chunkSize + i) * chunkSize) = max o ((o / chunkSize + i) * chunkSize))
    (hsum : cur + rem ≤ e) {r : ByteBuffer}
    (hr : assembleLoop (o / chunkSize)
      ((List.range' (o / chunkSize + i) k).map fun j => some (chunk j)) i cur rem = r) :
    r.length ≤ e - max o ((o / chunkSize + i) * chunkSize) ∧
      (r.length = e - max o ((o / chunkSize + i) * chunkSize) →
        r = slice v (max o ((o / chunkSize + i) * chunkSize)) e) := by
  induction k generalizing i cur rem r with
  | zero =>
    subst hr
    have hlast : e ≤ (o / chunkSize + i) * chunkSize := by
      have h := lt_succ_mul_of_div_le (o := e - 1) le_rfl
      rw [← hk, Nat.add_zero] at h
      omega
    refine ⟨Nat.zero_le _, fun _ => ?_⟩
    rw [slice_eq_nil (hlast.trans (Nat.le_max_right _ _))]
    rfl
  | succ k ih =>
    have hstart : (o / chunkSize + i) * chunkSize < e := by
      have h := (Nat.le_div_iff_mul_le chunkSize_pos).1
        (show o / chunkSize + i ≤ (e - 1) / chunkSize by omega)
      omega
    have hnext : max o ((o / chunkSize + i + 1) * chunkSize) =
        (o / chunkSize + i + 1) * chunkSize :=
      Nat.max_eq_right (lt_succ_mul_of_div_le (Nat.le_add_right _ i)).le
    have hmin := hend.min_eq he hstart
    have hnil : ([] : ByteBuffer).length ≤ e - max o ((o / chunkSize + i) * chunkSize) ∧
        (([] : ByteBuffer).length = e - max o ((o / chunkSize + i) * chunkSize) →
          [] = slice v (max o ((o / chunkSize + i) * chunkSize)) e) := by
      refine ⟨Nat.zero_le _, fun h => ?_⟩
      rw [List.length_nil] at h
      omega
    rw [List.range'_succ, List.map_cons] at hr
    rcases Nat.eq_zero_or_pos rem with rfl | hrem
    · rw [assembleLoop, if_pos rfl] at hr
      subst hr
      exact hnil
    · rcases assembleLoop_round ((List.range' (o / chunkSize + i + 1) k).map
        fun j => some (chunk j)) hv he (hchunk (o / chunkSize + i)) hcur hsum hrem with
        hends | ⟨n, cur', rem', hcur', hsum', hround⟩
      · rw [hends] at hr
        subst hr
        exact hnil
      · rw [hround] at hr
        subst hr
        obtain ⟨hhead, hheadEq⟩ := read_cut (hchunk (o / chunkSize + i)) (Nat.le_max_right o _)
          hmin n
        obtain ⟨htail, htailEq⟩ := ih (i + 1) cur' rem' (by omega)
          (by rw [← Nat.add_assoc, hnext, Nat.max_eq_right hcur']) hsum' rfl
        rw [← Nat.add_assoc, hnext] at htail htailEq
        rw [List.length_append]
        have hsucc : (o / chunkSize + i + 1) * chunkSize =
            (o / chunkSize + i) * chunkSize + chunkSize := Nat.succ_mul _ _
        generalize (o / chunkSize + i) * chunkSize = g at *
        refine ⟨by omega, fun h => ?_⟩
        rw [hheadEq (by omega), htailEq (by omega)]
        rcases Nat.le_total ((o / chunkSize + i + 1) * chunkSize) e with hin | hout
        · rw [Nat.min_eq_right hin, slice_append (by omega) hin]
        · rw [Nat.min_eq_left hout, slice_eq_nil hout, List.append_nil]

/-- **Cut chunks are noticed** if the range ends where a chunk or the value ends: if as many bytes
have been assembled as were asked for, they are the bytes of the range. -/
theorem assembleValue_cut (hv : v.length < 2 ^ 64) (he : e ≤ v.length) (hoe : o < e)
    (hend : EndsWhole v e)
    (hchunk : ∀ i, (chunk i).data <+: block chunkSize v i)
    (hlen : (assembleValue ((touched chunkSize o e).map fun i => some (chunk i))
      ⟨o, e - o⟩).length = e - o) :
    assembleValue ((touched chunkSize o e).map fun i => some (chunk i)) ⟨o, e - o⟩ =
      slice v o e := by
  have hle : o / chunkSize ≤ (e - 1) / chunkSize := Nat.div_le_div_right (by omega)
  have hstart : max o ((o / chunkSize + 0) * chunkSize) = o :=
    Nat.max_eq_left (Nat.div_mul_le_self o chunkSize)
  have h := (assembleLoop_cut hv he hoe hend hchunk ((e - 1) / chunkSize + 1 - o / chunkSize) 0 o
    (e - o) (by omega) rfl (by omega) rfl).2
  rw [hstart] at h
  exact h hlen

/-! ## Reading chunks that are cut -/

/-- What the level holds, as the loop of `read_file` shows it. -/
def readView (os : ChunkId → ReadOs) (d : DiskCache) : LevelView where
  descriptor := d.descriptors
  chunk id := fileChunk (some (readFile (os id) (d.files (chunkPath d.config id)) 0 0))

/-- A `get` returns what it reads there, and changes nothing. -/
theorem run_getIo (os : ChunkId → ReadOs) (now : Timestamp) (key : CacheKey) (opts : ReadOptions)
    (d : DiskCache) :
    (getIo os now key opts).run d = ((readView os d).read assembleValue now key opts, d) := by
  have hobserves : Observes (fun d' => d' = d) (readView os) (getIo os now key opts)
      fun w => w.read assembleValue now key opts :=
    observes_readValue assembleValue (fun _ _ hd => ⟨rfl, rfl, hd⟩)
      (fun _ _ hd => ⟨rfl, rfl, hd⟩) now key opts
  obtain ⟨hres, -, hsame⟩ := hobserves d rfl
  exact Prod.ext hres hsame

/-- The chunks that are held under the names of the value's chunks are beginnings of these. -/
def ServesCut (H : ByteBuffer → Hash128) (w : LevelView) (v : ByteBuffer) : Prop :=
  ∀ i < blockCount chunkSize v.length, ∀ c,
    w.chunk ⟨H (block chunkSize v i)⟩ = some c → c.data <+: block chunkSize v i

/-- The chunk that is found for block `i`. -/
def foundChunk (H : ByteBuffer → Hash128) (w : LevelView) (v : ByteBuffer) (i : Nat) : Chunk :=
  if i < blockCount chunkSize v.length then (w.chunk ⟨H (block chunkSize v i)⟩).getD ⟨[]⟩ else ⟨[]⟩

theorem ServesCut.foundChunk (h : ServesCut H w v) (i : Nat) :
    (foundChunk H w v i).data <+: block chunkSize v i := by
  rw [DiskCache.foundChunk]
  split
  · next hi =>
    cases hc : w.chunk ⟨H (block chunkSize v i)⟩ with
    | none => exact List.nil_prefix
    | some c => exact h i hi c hc
  · exact List.nil_prefix

/-- If every chunk was found, those that were found have been fetched. -/
theorem fetch_of_all (hd : Describes H d v) (allowPartial : Bool) {idxs : List Nat}
    (hi : ∀ i ∈ idxs, i < blockCount chunkSize v.length)
    (hall : (w.fetch d allowPartial idxs).2 = true) :
    (w.fetch d allowPartial idxs).1 = idxs.map fun i => some (foundChunk H w v i) := by
  induction idxs with
  | nil => rfl
  | cons idx rest ih =>
    have hlt := hi idx List.mem_cons_self
    rw [fetch_cons w allowPartial (hd.getElem?_chunks hlt)] at hall ⊢
    cases hc : w.chunk ⟨H (block chunkSize v idx)⟩ with
    | none =>
      rw [hc] at hall
      split at hall <;> cases hall
    | some c =>
      simp only [hc, Option.isNone_some, Bool.false_and, Bool.false_eq_true, if_false,
        Option.isSome_some, Bool.true_and, List.map_cons] at hall ⊢
      rw [ih (fun i h => hi i (List.mem_cons_of_mem _ h)) hall, foundChunk, if_pos hlt, hc]
      rfl

/-- A hit has the length that was asked for. -/
theorem length_of_finishRead_hit {assemble : List (Option Chunk) → Range → ByteBuffer}
    {desc : ValueDescriptor} {allowPartial : Bool} {range : Range}
    {fetched : List (Option Chunk) × Bool}
    (h : (finishRead assemble desc allowPartial range fetched).isHit = true) :
    (assemble fetched.1 range).length = range.length := by
  obtain ⟨hall, -⟩ := finishRead_hit h
  rw [finishRead] at h
  split at h
  · cases h
  · by_contra hne
    simp [ReadResult.isHit, hall, hne] at h

/-- Where a read ends in the value. -/
def readEnd (v : ByteBuffer) (opts : ReadOptions) : Nat :=
  let r := opts.range.getD ⟨0, v.length⟩
  min (r.offset + r.length) v.length

/-- A hit on chunks that may be cut, of a range that ends where a chunk or the value ends. -/
theorem read_hit_cut (hd : Describes H d v) (hv : v.length < 2 ^ 64) (hw : ServesCut H w v)
    {now : Timestamp} {key : CacheKey} {opts : ReadOptions} (hkey : w.descriptor key = some d)
    (hend : EndsWhole v (readEnd v opts))
    (hhit : (w.read assembleValue now key opts).isHit = true) :
    (w.read assembleValue now key opts).data = requested v opts := by
  rcases read_cases hd hkey assembleValue now opts with ⟨-, hdata⟩ | ⟨hlive, r, hr, ho, hlen⟩
  · exact hdata hhit
  · have hstop : readEnd v opts = r.offset + min r.length (v.length - r.offset) := by
      rw [readEnd, hr]
      omega
    rw [hstop] at hend
    rw [read_fetch hd hv hkey hlive hr ho hlen] at hhit ⊢
    rw [requested_eq hr ho]
    generalize hlength : min r.length (v.length - r.offset) = len at hhit hend ⊢
    have hle : r.offset + len ≤ v.length := by omega
    have hlt : r.offset < r.offset + len := by omega
    obtain ⟨hall, hdata⟩ := finishRead_hit hhit
    have hasked := length_of_finishRead_hit hhit
    have hfetch := fetch_of_all hd opts.allowPartial
      (fun i hi => lt_blockCount_of_mem_touched hlt hle hi) hall
    rw [hfetch] at hdata hasked
    rw [hdata]
    have hcut := assembleValue_cut hv hle hlt hend hw.foundChunk
    rw [Nat.add_sub_cancel_left] at hcut
    exact hcut hasked

theorem fileChunk_eq_some_iff {file : Option ByteBuffer} :
    fileChunk file = some c ↔ file.getD [] ≠ [] ∧ c = ⟨file.getD []⟩ := by
  simp only [fileChunk]
  split
  · next hempty => simpa using fun hne => absurd (List.isEmpty_iff.1 hempty) hne
  · next hne =>
    have hne' : file.getD [] ≠ [] := fun h => hne (List.isEmpty_iff.2 h)
    simp [hne', eq_comm]

/-- If the files of the value's chunks hold these chunks, what is read of them are beginnings. -/
theorem servesCut_readView {d : DiskCache} (hinj : Set.InjOn H K)
    (hv : { b | b ∈ blocks chunkSize v } ⊆ K) (h : ∀ id ∈ chunkIds H v, d.RightAt H K id)
    (os : ChunkId → ReadOs) : ServesCut H (readView os d) v := by
  intro i hi c hc
  have hmem : block chunkSize v i ∈ blocks chunkSize v := mem_blocks.2 ⟨i, hi, rfl⟩
  set id : ChunkId := ⟨H (block chunkSize v i)⟩
  have hread := isPrefix_readFile (os id) (d.files (chunkPath d.config id))
  obtain ⟨hne, rfl⟩ := fileChunk_eq_some_iff.1 hc
  -- what is read is not empty, so the file is not
  have hfile : d.view.chunk id = some ⟨(d.files (chunkPath d.config id)).getD []⟩ := by
    refine fileChunk_eq_some_iff.2 ⟨fun hnil => hne ?_, rfl⟩
    rw [hnil] at hread
    exact List.prefix_nil.1 hread
  obtain ⟨hid, hK⟩ := h id (List.mem_map_of_mem hmem) _ hfile
  have hdata := hinj (hv hmem) hK (congrArg ChunkId.hash hid)
  rw [hdata]
  exact hread

/-! ## Runs -/

/-- A call of the level over the loops of the file store. -/
inductive IoCall where
  | put (os : PutOs) (p : Put)
  | get (os : ChunkId → ReadOs) (now : Timestamp) (key : CacheKey) (opts : ReadOptions)
  | remove (key : CacheKey)
  | evict (bytesNeeded : Nat)

namespace IoCall

/-- The call executed alone, with the record of the last puts that reported success. -/
def exec (H : ByteBuffer → Hash128) (call : IoCall) (s : Logged) : Logged :=
  match call with
  | put os p =>
    let r := (putIo H os p).run s.cache
    ⟨r.2, if r.1.isOk then Function.update s.last p.key (some p) else s.last⟩
  | get os now key opts => ⟨((getIo os now key opts).run s.cache).2, s.last⟩
  | remove key => ⟨((DiskCache.remove key).run s.cache).2, s.last⟩
  | evict bytesNeeded => ⟨((DiskCache.evict bytesNeeded).run s.cache).2, s.last⟩

/-- The call in which files are written with one outcome each and read as a whole. -/
def whole (H : ByteBuffer → Hash128) : IoCall → Call
  | put os p => .put (os.env H p) p
  | get _ now key opts => .get now key opts
  | remove key => .remove key
  | evict bytesNeeded => .evict bytesNeeded

/-- No call of `pwrite` returns 0. -/
def Transfers : IoCall → Prop
  | put os _ => ∀ i k, (os.write i).pwrite k ≠ .ok 0
  | _ => True

/-- A hit returns the bytes that the read asks for, of the last put that succeeded, if no read fails
or if it ends where a chunk or the value ends. -/
def HitSound (call : IoCall) (s : Logged) : Prop :=
  match call with
  | get os now key opts =>
    let r := ((getIo os now key opts).run s.cache).1
    r.isHit = true → ∃ p, s.last key = some p ∧
      ((∀ id, (os id).Works) ∨ EndsWhole p.value.bytes (readEnd p.value.bytes opts) →
        r.data = requested p.value.bytes opts)
  | _ => True

/-- The loops do what the whole writes do. -/
theorem exec_eq (call : IoCall) (s : Logged) : call.exec H s = s.exec H (call.whole H) := by
  cases call with
  | put os p => simp only [exec, whole, Logged.exec, DiskCache.exec, putIo_eq]
  | get os now key opts =>
    have hget := (observes_get (fun d => d = s.cache) now key opts s.cache rfl).2.2
    simp only [exec, whole, Logged.exec, DiskCache.exec, run_getIo, hget]
  | remove key => rfl
  | evict bytesNeeded => rfl

theorem keyed_whole (call : IoCall) : (call.whole H).Keyed := by
  cases call <;> trivial

end IoCall

/-- A write that never transfers nothing is reported if it fails. -/
theorem reported_outcome {os : WriteOs} (h : ∀ k, os.pwrite k ≠ .ok 0) (size : Nat) :
    (os.outcome size).Reported := by
  have hloop : ∀ i total, (outcomeLoop size os.allocates os.pwrite i total).Reported := by
    intro i total
    induction hn : size - total using Nat.strongRecOn generalizing i total with
    | ind n ih =>
      rw [outcomeLoop]
      split
      · cases hk : os.pwrite i with
        | error reason => trivial
        | ok k =>
          cases k with
          | zero => exact absurd hk (h i)
          | succ k => exact ih _ (by omega) (i + 1) _ rfl
      · trivial
  rw [WriteOs.outcome]
  cases os.openError with
  | some reason => trivial
  | none => exact hloop 0 0

theorem IoCall.Transfers.reported {call : IoCall} (h : call.Transfers) :
    (call.whole H).Reported := by
  cases call with
  | put os p => exact fun i => reported_outcome (h i) _
  | _ => trivial

/-- On a sound level every hit is sound, whichever reads fail. -/
theorem Sound.hitSound_io {s : Logged} (h : Sound H K s) (hinj : Set.InjOn H K) (call : IoCall) :
    call.HitSound s := by
  cases call with
  | get os now key opts =>
    intro hhit
    rw [run_getIo] at hhit ⊢
    cases hd : s.cache.descriptors key with
    | none =>
      rw [read_none (w := readView os s.cache) hd] at hhit
      cases hhit
    | some desc =>
      obtain ⟨p, hlast, rfl, hK⟩ := h.last key desc hd
      have hright : ∀ id ∈ chunkIds H p.value.bytes, s.cache.RightAt H K id := by
        refine fun id hid => h.right id fun hun => hun key _ hd ?_
        rw [(p.describes H).chunks]
        exact hid
      refine ⟨p, hlast, ?_⟩
      rintro (hworks | hend)
      · have hview : readView os s.cache = s.cache.view := by
          simp only [readView, readFile_eq (hworks _), view]
          rfl
        rw [hview] at hhit ⊢
        exact read_hit exactAssembly (p.describes H) p.value.size_lt
          (serves_of_rightAt hinj hK hright) hd hhit
      · exact read_hit_cut (p.describes H) p.value.size_lt
          (servesCut_readView hinj hK hright os) hd hend hhit
  | _ => trivial

/-- **Hits are right whatever `pread` and `pwrite` answer.** Take any run of calls on an empty level
in which every file is written and read by the loops over `pwrite` and `pread`, with any short or
failing calls, except that `pwrite` does not return 0. If the hash is injective on the chunks and no
failed write tears one that a stored descriptor names, then every hit returns exactly the requested
bytes of the last put of the key that succeeded, if no `pread` fails or if the read ends where a
chunk or the value ends. -/
theorem io_hits_sound (H : ByteBuffer → Hash128) (config : DiskCacheConfig) (calls : List IoCall)
    (htransfers : ∀ c ∈ calls, c.Transfers)
    (hinj : Set.InjOn H (runChunks (calls.map (IoCall.whole H))))
    (huntorn : EveryStep (IoCall.exec H) (fun call => Logged.Untorn H (call.whole H)) calls
      ⟨{ config := config }, fun _ => none⟩) :
    EveryStep (IoCall.exec H) IoCall.HitSound calls ⟨{ config := config }, fun _ => none⟩ := by
  refine huntorn.imp (I := Sound H (runChunks (calls.map (IoCall.whole H)))) ⟨?_, ?_⟩
    fun call hcall s hs hsafe => ?_
  · intro key desc hk
    cases hk
  · intro id hid c hc
    cases hc
  · refine ⟨hs.hitSound_io hinj call, ?_⟩
    rw [IoCall.exec_eq]
    refine hs.exec call.keyed_whole (htransfers call hcall).reported ?_ hsafe
    exact fun b hb => ⟨call.whole H, List.mem_map_of_mem hcall, hb⟩

/-- A put of two bytes, each of which takes a call of `pwrite`. -/
def bytewisePut : IoCall :=
  .put ⟨fun _ => 0, fun _ => { pwrite := fun _ => .ok 1 }, { pwrite := fun _ => .ok 1 }⟩
    (pairPut 1)

/-- The bytes are put, and each of them read with a call of `pread`. -/
def bytewiseRun : List IoCall := [bytewisePut, .get (fun _ => { pread := fun _ => 1 }) 0 ⟨[1]⟩ {}]

/-- Reads that return a byte at a time find the bytes of the put. -/
theorem io_hits_sound_bytewise :
    EveryStep (IoCall.exec sampleHash) IoCall.HitSound bytewiseRun ⟨{ config := {} },
      fun _ => none⟩ := by
  refine io_hits_sound sampleHash {} bytewiseRun ?_ ?_ ⟨fun _ j c _ _ => ?_, trivial, trivial⟩
  · intro call hcall
    simp only [bytewiseRun, List.mem_cons, List.not_mem_nil, or_false] at hcall
    rcases hcall with rfl | rfl
    · exact fun _ _ h => absurd (Except.ok.inj h) one_ne_zero
    · trivial
  · have honly : ∀ x ∈ runChunks (bytewiseRun.map (IoCall.whole sampleHash)), x = [7, 8] := by
      rintro x ⟨call, hcall, hx⟩
      simp only [bytewiseRun, List.map_cons, List.map_nil, List.mem_cons, List.not_mem_nil,
        or_false] at hcall
      rcases hcall with rfl | rfl
      · have hmem : x ∈ blocks chunkSize ([7, 8] : ByteBuffer) := hx
        rw [blocks_pair] at hmem
        exact List.mem_singleton.1 hmem
      · cases hx
    exact fun x hx y hy _ => (honly x hx).trans (honly y hy).symm
  · have hworks : WriteOs.Works { pwrite := fun _ => .ok 1 } := ⟨rfl, fun _ => ⟨0, rfl⟩⟩
    simp only [PutOs.env, hworks.outcome]
    trivial

end DiskCache

end ElCache
