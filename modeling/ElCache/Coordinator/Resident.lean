import ElCache.Coordinator.Answer

/-!
# Values that are fully resident

A value is resident in a level if the level has the descriptor of a put of the value, which has not
expired, and all its chunks. When every level that knows the key has all of the value, the answer to
a read depends on the range alone (`read_of_resident`).
-/

namespace ElCache

open Slice

/-- The level has the descriptor of a put of `v`, which has not expired, and every chunk of `v`. -/
structure LevelView.Resident (H : ByteBuffer → Hash128) (w : LevelView) (now : Timestamp)
    (key : CacheKey) (v : ByteBuffer) : Prop where
  descriptor : ∃ p : Put, p.value.bytes = v ∧ w.descriptor key = some (p.descriptor H) ∧
    (p.descriptor H).metadata.isExpired now = false
  chunk : ∀ i < blockCount chunkSize v.length,
    w.chunk ⟨H (block chunkSize v i)⟩ = some ⟨block chunkSize v i⟩

/-- The answer of a level to a read of a range of `v`, if it settles the read. A range that starts
behind the value is answered without data; an empty range inside it is a miss. -/
def residentAnswer (v : ByteBuffer) (metadata : CacheMetadata) (r : Range) : Option ReadResult :=
  if v.length ≤ r.offset then
    some { result := .hit, actualRange := ⟨r.offset, 0⟩, metadata := some metadata }
  else if r.length = 0 then none
  else
    let len := min r.length (v.length - r.offset)
    some { result := .hit, data := slice v r.offset (r.offset + len)
           actualRange := ⟨r.offset, len⟩, metadata := some metadata }

theorem residentAnswer_or (v : ByteBuffer) (m m' : CacheMetadata) (r : Range) :
    (residentAnswer v m r).or (residentAnswer v m' r) = residentAnswer v m r := by
  unfold residentAnswer
  split
  · rfl
  · split
    · rfl
    · rfl

/-- The answers to the reads of a range are those of a level that has all of `v`. -/
def AnswersResident (v : ByteBuffer) (answer : ReadOptions → Option ReadResult) : Prop :=
  ∃ m : CacheMetadata, m.totalSize = v.length ∧
    ∀ opts r, opts.range = some r → answer opts = residentAnswer v m r

/-- No read is settled, or each as a level does that has all of `v`. -/
def AnswersNothingElse (v : ByteBuffer) (answer : ReadOptions → Option ReadResult) : Prop :=
  (∀ opts, answer opts = none) ∨ AnswersResident v answer

section
variable {v : ByteBuffer} {answer answer' : ReadOptions → Option ReadResult}

theorem AnswersResident.or (h : AnswersResident v answer) (h' : AnswersNothingElse v answer') :
    AnswersResident v fun opts => (answer opts).or (answer' opts) := by
  obtain ⟨m, hm, hanswer⟩ := h
  refine ⟨m, hm, fun opts r hr => ?_⟩
  dsimp only
  rw [hanswer opts r hr]
  rcases h' with hnone | ⟨m', -, hanswer'⟩
  · rw [hnone, Option.or_none]
  · rw [hanswer' opts r hr, residentAnswer_or]

theorem AnswersNothingElse.or (h : AnswersNothingElse v answer) (h' : AnswersResident v answer') :
    AnswersResident v fun opts => (answer opts).or (answer' opts) := by
  rcases h with hnone | h
  · obtain ⟨m, hm, hanswer⟩ := h'
    refine ⟨m, hm, fun opts r hr => ?_⟩
    dsimp only
    rw [hnone, Option.none_or, hanswer opts r hr]
  · exact h.or (.inr h')

end

namespace LevelView.Resident

variable {H : ByteBuffer → Hash128} {w : LevelView} {now : Timestamp} {key : CacheKey}
  {v : ByteBuffer}

/-- No chunk is missing. -/
theorem holds_eq (h : w.Resident H now key v) {i : Nat} (hi : i < blockCount chunkSize v.length) :
    w.holds H v i = true := by
  rw [holds, h.chunk i hi]
  rfl

theorem serves (h : w.Resident H now key v) : w.Serves H v := by
  intro i hi
  rw [h.chunk i hi, held, if_pos (h.holds_eq hi)]

/-- The size of a value is a `size_t`. -/
theorem length_lt (h : w.Resident H now key v) : v.length < 2 ^ 64 := by
  obtain ⟨p, rfl, -⟩ := h.descriptor
  exact p.value.size_lt

/-- What the level answers. -/
theorem read_eq (h : w.Resident H now key v)
    {assemble : List (Option Chunk) → Range → ByteBuffer} (hexact : ExactAssembly assemble) :
    AnswersResident v fun opts =>
      (some (w.read assemble now key opts)).filter (CacheCoordinator.settles opts) := by
  obtain ⟨p, hp, hkey, hlive⟩ := h.descriptor
  have hdesc : Describes H (p.descriptor H) v := hp ▸ p.describes H
  refine ⟨(p.descriptor H).metadata, congrArg List.length hp, fun opts r hr => ?_⟩
  dsimp only
  have hrange : opts.range.getD ⟨0, v.length⟩ = r := by
    rw [hr]
    rfl
  rw [residentAnswer]
  split
  · next ho =>
    rw [read_past hkey hlive hdesc hrange ho]
    rfl
  · next ho =>
    have ho := Nat.lt_of_not_le ho
    split
    · next hlen =>
      rw [read_empty hkey hlive hdesc hrange ho hlen]
      rfl
    · next hlen =>
      have hneeded : (touched chunkSize r.offset
          (r.offset + min r.length (v.length - r.offset))).all (w.holds H v) = true := by
        refine List.all_eq_true.2 fun i hi => h.holds_eq ?_
        exact lt_blockCount_of_mem_touched (by omega) (by omega) hi
      rw [LevelView.read_eq hexact hdesc h.length_lt h.serves hkey hlive hrange ho
        (Nat.pos_of_ne_zero hlen)]
      dsimp only
      rw [if_pos hneeded]
      rfl

end LevelView.Resident

namespace CacheCoordinator

variable {H : ByteBuffer → Hash128} {env : ReadEnv} {key : CacheKey} {v : ByteBuffer}
  {c : CacheCoordinator}

/-- Every level that knows the key has all of `v`, and a level that is asked knows it. -/
structure Resident (H : ByteBuffer → Hash128) (env : ReadEnv) (key : CacheKey) (v : ByteBuffer)
    (c : CacheCoordinator) : Prop where
  memory : ∀ m, c.memory = some m →
    m.descriptors key = none ∨ m.view.Resident H env.memoryNow key v
  disk : ∀ d, c.disk = some d →
    d.descriptors key = none ∨ d.view.Resident H env.diskNow key v
  known : (c.config.cluster.preferLocal = true ∧
      ∃ m, c.memory = some m ∧ m.view.Resident H env.memoryNow key v) ∨
    ∃ d, c.disk = some d ∧ d.view.Resident H env.diskNow key v

section
variable {now : Timestamp} {assemble : List (Option Chunk) → Range → ByteBuffer}

theorem answersNothingElse_of_level (hexact : ExactAssembly assemble) {level : Option LevelView}
    (h : ∀ w, level = some w → w.descriptor key = none ∨ w.Resident H now key v) :
    AnswersNothingElse v fun opts =>
      (level.map fun w => w.read assemble now key opts).filter (settles opts) := by
  cases level with
  | none => exact .inl fun _ => rfl
  | some w =>
    rcases h w rfl with hnone | hresident
    · refine .inl fun opts => ?_
      dsimp only
      rw [Option.map_some, LevelView.read_none hnone]
      rfl
    · exact .inr (hresident.read_eq hexact)

end

/-- What `get` finds in the levels. -/
theorem Resident.read_eq (h : c.Resident H env key v) :
    AnswersResident v fun opts => c.views.read env key opts := by
  rcases h.known with ⟨hpref, m, hm, hresident⟩ | ⟨d, hd, hresident⟩
  · have hmemory : ∀ opts, c.views.fromMemory env.memoryNow key opts =
        some (m.view.read MemoryCache.assembleValue env.memoryNow key opts) := by
      intro opts
      simp [Views.fromMemory, views, hpref, hm]
    have hdisk : AnswersNothingElse v fun opts =>
        (c.views.fromDisk env.diskNow key opts).filter (settles opts) := by
      refine answersNothingElse_of_level (H := H) DiskCache.exactAssembly fun w hw => ?_
      obtain ⟨d, hd, rfl⟩ := Option.map_eq_some_iff.1 hw
      exact h.disk d hd
    have hall := (hresident.read_eq MemoryCache.exactAssembly).or hdisk
    simpa only [Views.read, hmemory] using hall
  · have hdisk : ∀ opts, c.views.fromDisk env.diskNow key opts =
        some (d.view.read DiskCache.assembleValue env.diskNow key opts) := by
      intro opts
      simp [Views.fromDisk, views, hd]
    have hmemory : AnswersNothingElse v fun opts =>
        (c.views.fromMemory env.memoryNow key opts).filter (settles opts) := by
      unfold Views.fromMemory
      cases c.views.config.cluster.preferLocal with
      | false => exact .inl fun _ => rfl
      | true =>
        refine answersNothingElse_of_level (H := H) MemoryCache.exactAssembly fun w hw => ?_
        obtain ⟨m, hm, rfl⟩ := Option.map_eq_some_iff.1 hw
        exact h.memory m hm
    have hall := hmemory.or (hresident.read_eq DiskCache.exactAssembly)
    simpa only [Views.read, hdisk] using hall

/-- The size of a resident value is a `size_t`. -/
theorem Resident.length_lt (h : c.Resident H env key v) : v.length < 2 ^ 64 := by
  rcases h.known with ⟨-, m, -, hresident⟩ | ⟨d, -, hresident⟩
  · exact hresident.length_lt
  · exact hresident.length_lt

end CacheCoordinator

end ElCache
