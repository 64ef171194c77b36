import ElCache.Disk.Recovery
import ElCache.Disk.Steps
import ElCache.Disk.Torn
import ElCache.Lib.Part

/-!
# Restarts

A server may stop at any moment, in the middle of any number of calls, and be started again on the
directory it leaves; it may do so many times (`Directory`). Whatever it leaves are files of chunks,
some of them torn or no longer in the index, so the next start always succeeds, with an index that
has exactly the files that are there (`restart`).

Descriptors are written to files but never read back. So no value survives a restart: every key is
absent until it is put again. In return nothing that is left behind can do harm: in every later run,
hits return what was put since the start, even if a file that is left is torn.
-/

namespace ElCache

namespace DiskCache

variable {H : ByteBuffer → Hash128} {config : DiskCacheConfig}
  {files : FilePath → Option ByteBuffer} {clock : List Char × List Char → TimePoint}

/-- A call as a program; what it answers is dropped. -/
def Call.prog (H : ByteBuffer → Hash128) : Call → Prog DiskCache Unit
  | .put env p => do let _ ← DiskCache.put H env p
  | .get now key opts => do let _ ← DiskCache.get now key opts
  | .remove key => do let _ ← DiskCache.remove key
  | .putChunk now outcome chunk => do let _ ← DiskCache.putChunk H now outcome chunk
  | .removeChunk id => do let _ ← DiskCache.removeChunk id
  | .evict bytesNeeded => do let _ ← DiskCache.evict bytesNeeded

/-- The files a server can find when it starts: none at first, or those left by calls on a cache
that was started before, stopped after any interleaving of their steps. -/
inductive Directory (H : ByteBuffer → Hash128) (config : DiskCacheConfig) :
    (FilePath → Option ByteBuffer) → Prop
  | empty : Directory H config fun _ => none
  | stopped {files : FilePath → Option ByteBuffer} (h : Directory H config files)
      (clock : List Char × List Char → TimePoint) {scan : Scan}
      (hscan : scan.Shows (chunksDir config) files) {d : DiskCache}
      (hstart : start clock scan config files = .ok d) (calls : Nat → Call)
      {P : Pool Nat DiskCache Unit}
      (hreach : Pool.Reach (fun _ _ => False) (.start d fun t => (calls t).prog H) P) :
      Directory H config P.shared.files

/-! ## What is left behind -/

/-- Every file is in the place of a chunk. -/
def OnlyChunks (config : DiskCacheConfig) (files : FilePath → Option ByteBuffer) : Prop :=
  ∀ path, (files path).isSome = true → ∃ id, chunkPath config id = path

theorem OnlyChunks.update (h : OnlyChunks config files) (id : ChunkId) (file : Option ByteBuffer) :
    OnlyChunks config (Function.update files (chunkPath config id) file) := by
  intro path hpath
  by_cases he : path = chunkPath config id
  · exact ⟨id, he.symm⟩
  · rw [Function.update_of_ne he] at hpath
    exact h path hpath

theorem OnlyChunks.delete (h : OnlyChunks config files) (path : FilePath) :
    OnlyChunks config (Function.update files path none) := by
  intro path' hpath'
  by_cases he : path' = path
  · rw [he, Function.update_self] at hpath'
    cases hpath'
  · rw [Function.update_of_ne he] at hpath'
    exact h path' hpath'

theorem OnlyChunks.step {P : Set CacheKey} {d d' : DiskCache} (hstep : Step P d d')
    (h : d.config = config ∧ OnlyChunks config d.files) :
    d'.config = config ∧ OnlyChunks config d'.files := by
  obtain ⟨rfl, hfiles⟩ := h
  cases hstep with
  | writeFile id file => exact ⟨rfl, hfiles.update id file⟩
  | deleteFile path => exact ⟨rfl, hfiles.delete path⟩
  | _ => exact ⟨rfl, hfiles⟩

theorem steps_prog (call : Call) : (call.prog H).Guarantees (Step Set.univ) := by
  cases call with
  | put env p => exact (steps_put (Set.mem_univ _) env).bind fun _ => Prog.guarantees_pure _
  | get now key opts => exact (steps_get now key opts).bind fun _ => Prog.guarantees_pure _
  | remove key => exact (steps_remove key).bind fun _ => Prog.guarantees_pure _
  | putChunk now outcome chunk =>
    exact (steps_putChunk now outcome chunk).bind fun _ => Prog.guarantees_pure _
  | removeChunk id => exact (steps_removeChunk id).bind fun _ => Prog.guarantees_pure _
  | evict bytesNeeded => exact (steps_evict bytesNeeded).bind fun _ => Prog.guarantees_pure _

/-! ## Starting on it -/

theorem descriptors_indexFile {now : TimePoint} {e : List Char × List Char} {d d' : DiskCache}
    (h : indexFile now e d = .ok d') : d'.descriptors = d.descriptors := by
  rw [indexFile] at h
  split at h
  · cases hhash : Hash128.fromHex (stem e.2) with
    | error err =>
      rw [hhash] at h
      cases h
    | ok hash =>
      rw [hhash] at h
      cases h
      rfl
  · cases h
    rfl

/-- The scan of a directory adds chunks only. -/
theorem descriptors_loadDirectory {dir : List Char} {names : List (List Char)} {d d' : DiskCache}
    (h : loadDirectory clock dir names d = .ok d') : d'.descriptors = d.descriptors := by
  induction names generalizing d with
  | nil =>
    cases h
    rfl
  | cons name names ih =>
    rw [loadDirectory] at h
    cases hfile : indexFile (clock (dir, name)) (dir, name) d with
    | error err =>
      rw [hfile] at h
      cases h
    | ok d₁ =>
      rw [hfile] at h
      exact (ih h).trans (descriptors_indexFile hfile)

/-- No descriptor is loaded. -/
theorem descriptors_loadIndex {scan : Scan} {d d' : DiskCache}
    (h : loadIndex clock scan d = .ok d') : d'.descriptors = d.descriptors := by
  induction scan generalizing d with
  | nil =>
    cases h
    rfl
  | cons s scan ih =>
    obtain ⟨dir, names⟩ := s
    rw [loadIndex] at h
    cases hdir : loadDirectory clock dir names d with
    | error err =>
      rw [hdir] at h
      cases h
    | ok d₁ =>
      rw [hdir] at h
      exact (ih h).trans (descriptors_loadDirectory hdir)

/-- A start on files of chunks succeeds: the chunks that are indexed are those of the files, and
nothing but the index is changed. -/
theorem start_of_onlyChunks (h : OnlyChunks config files)
    (clock : List Char × List Char → TimePoint) {scan : Scan}
    (hscan : scan.Shows (chunksDir config) files) :
    ∃ d ids, start clock scan config files = .ok d ∧ ids.map chunkEntry = scan.entries ∧
      Adds { config := config, files := files } ids d ∧ d.descriptors = fun _ => none := by
  obtain ⟨ids, hids⟩ : scan.entries ∈ Set.range (List.map chunkEntry) := by
    rw [Set.range_list_map]
    intro e he
    obtain ⟨id, hid⟩ := h _ ((hscan.mem_iff e).1 he)
    rw [chunkPath_eq] at hid
    have htail := List.append_cancel_left hid
    simp only [List.cons.injEq, and_true] at htail
    exact ⟨id, Prod.ext htail.1 htail.2⟩
  obtain ⟨d, hd, hadds⟩ := loadIndex_spec clock hids { config := config, files := files }
  exact ⟨d, ids, hd, hids, hadds, descriptors_loadIndex hd⟩

/-- Whatever is left behind are files of chunks. -/
theorem Directory.onlyChunks (h : Directory H config files) : OnlyChunks config files := by
  induction h with
  | empty =>
    intro path hpath
    cases hpath
  | @stopped files _ clock scan hscan d hstart calls P hreach ih =>
    obtain ⟨d', ids, hd', -, hadds, -⟩ := start_of_onlyChunks ih clock hscan
    cases hd'.symm.trans hstart
    have hsafe : ∀ t, ((calls t).prog H).Safe
        (fun d => d.config = config ∧ OnlyChunks config d.files) fun _ => True :=
      fun t => (steps_prog (calls t)).safe fun _ _ hI hstep => OnlyChunks.step hstep hI
    have hfound : d.config = config ∧ OnlyChunks config d.files := by
      refine ⟨hadds.config, ?_⟩
      rw [hadds.files]
      exact ih
    exact (hreach.inv (fun _ _ _ h => h.elim) (fun t => (hsafe t).from) hfound).1.2

/-- The size of all the files that are listed. -/
def listedSize (config : DiskCacheConfig) (files : FilePath → Option ByteBuffer) (scan : Scan) :
    Nat :=
  (scan.entries.map fun e => ((files (chunksDir config ++ [e.1, e.2])).getD []).length).sum

/-- **Restarts are safe, but keep no value.** On whatever earlier runs have left in the directory,
stopped at any step of any concurrent calls, with any failed writes, and restarted any number of
times, a start succeeds in whichever order the files are listed. Its index has exactly the chunks
whose files are there, with the sizes of the files. Every key is absent. In every run of calls by
key after it in which no write stops short unreported, no failed one tears a chunk that a stored
descriptor names and the hash is injective on the chunks, every hit returns exactly the requested
bytes of the last put of the key since the start that succeeded. -/
theorem restart (H : ByteBuffer → Hash128) (config : DiskCacheConfig)
    (files : FilePath → Option ByteBuffer) (h : Directory H config files)
    (clock : List Char × List Char → TimePoint) (scan : Scan)
    (hscan : scan.Shows (chunksDir config) files) :
    ∃ d, start clock scan config files = .ok d ∧
      (∀ id, ((hasChunk id).run d).1 = (files (chunkPath config id)).isSome) ∧
      d.sizeBytes = listedSize config files scan ∧
      (∀ now key opts, ((get now key opts).run d).1 = { result := .miss }) ∧
      ∀ calls : List Call, (∀ c ∈ calls, c.Keyed) → (∀ c ∈ calls, c.Reported) →
        Set.InjOn H (runChunks calls) →
        EveryStep (Logged.exec H) (Logged.Untorn H) calls ⟨d, fun _ => none⟩ →
        EveryStep (Logged.exec H) Logged.HitSound calls ⟨d, fun _ => none⟩ := by
  obtain ⟨d, ids, hd, hids, hadds, hnone⟩ := start_of_onlyChunks h.onlyChunks clock hscan
  refine ⟨d, hd, fun id => ?_, ?_, fun now key opts => ?_, fun calls hcalls hrep hinj huntorn => ?_⟩
  · have hmem : id ∈ ids ↔ (files (chunkPath config id)).isSome = true := by
      rw [← List.mem_map_of_injective chunkEntry_injective, hids, hscan.mem_iff, chunkPath_eq]
    rw [Bool.eq_iff_iff, ← hmem]
    exact (hadds.paths id).trans (or_iff_right Bool.false_ne_true)
  · rw [sizeBytes, hadds.size, listedSize, ← hids, List.map_map, Nat.zero_add]
    refine congrArg List.sum (List.map_congr_left fun id _ => ?_)
    rw [fileSize, chunkPath_eq]
    rfl
  · have hkey : d.descriptors key = none := by rw [hnone]
    simp [get, readValue, getDescriptor, hkey]
  · refine huntorn.imp (I := Sound H (runChunks calls)) ⟨?_, ?_⟩ fun call hcall s hs hsafe => ?_
    · intro key desc hk
      rw [hnone] at hk
      cases hk
    · -- no descriptor names a chunk, so no file that was found matters
      intro id hid
      refine absurd (fun key desc hk => ?_) hid
      rw [hnone] at hk
      cases hk
    · refine ⟨hs.hitSound hinj call, hs.exec (hcalls call hcall) (hrep call hcall) ?_ hsafe⟩
      exact fun b hb => ⟨call, hcall, hb⟩

/-- Two calls that write a chunk each. -/
def twoCalls : Nat → Call
  | 0 => .putChunk 0 .done (some ⟨[1, 2]⟩)
  | _ + 1 => .putChunk 1 .done (some ⟨[3]⟩)

/-- They leave their files. -/
theorem directory_two : Directory sampleHash {} (written sampleHash {} twoWrites).files := by
  have hscan : Scan.Shows [] (chunksDir {}) fun _ => none := by
    refine ⟨List.nodup_nil, fun e => iff_of_false List.not_mem_nil Bool.false_ne_true⟩
  obtain ⟨f, hfirst, -⟩ := Pool.reach_run (E := fun _ _ => False)
    (.start { config := {} } fun t => (twoCalls t).prog sampleHash) 0
  obtain ⟨g, hsecond, -⟩ := Pool.reach_run (E := fun _ _ => False) ⟨_, _⟩ 1
  exact .stopped .empty (fun _ => 0) hscan rfl twoCalls (hfirst.trans hsecond)

/-- After the restart three bytes are found, and no value. -/
theorem restart_two :
    ∃ d, start (fun _ => 0) twoScan {} (written sampleHash {} twoWrites).files = .ok d ∧
      d.sizeBytes = listedSize {} (written sampleHash {} twoWrites).files twoScan ∧
      ((get 0 ⟨[97]⟩ {}).run d).1 = { result := .miss } := by
  obtain ⟨d, hd, -, hsize, hmiss, -⟩ := restart sampleHash {} _ directory_two (fun _ => 0) twoScan
    twoScan_shows
  exact ⟨d, hd, hsize, hmiss 0 ⟨[97]⟩ {}⟩

end DiskCache

end ElCache
