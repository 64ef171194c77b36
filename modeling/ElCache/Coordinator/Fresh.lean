import ElCache.Coordinator.Spec

/-!
# Fresh reads through the coordinator

A put that skips a level leaves there what the level has. `reads_fresh` says that this is the only
way to read a stale value: as long as every put that skips a level finds there nothing under its
key, or the same value, every hit returns the value of the most recent successful put. That no hit
follows a removal needs no such condition.
-/

namespace ElCache

open Slice

namespace CacheCoordinator

variable {H : ByteBuffer → Hash128} {K : Set ByteBuffer} {s : CacheCoordinator × History}
  {opts : ReadOptions} {key : CacheKey} {env : ReadEnv}

/-! ## Hits -/

/-- A read without a cluster that a level settles is a read of the memory or of the disk level.
Reference: `CacheCoordinator::get`, which returns what a level answers if it is good enough. -/
theorem read_cases {w : Views} {r : ReadResult} (hread : w.read env key opts = some r) :
    settles opts r = true ∧
      ((∃ m, w.memory = some m ∧ r = m.read MemoryCache.assembleValue env.memoryNow key opts) ∨
        ∃ d, w.disk = some d ∧ r = d.read DiskCache.assembleValue env.diskNow key opts) := by
  rw [Views.read, Option.or_eq_some_iff] at hread
  rcases hread with hmem | ⟨-, hdisk⟩
  · obtain ⟨hmem, hsettles⟩ := Option.filter_eq_some_iff.1 hmem
    refine ⟨hsettles, .inl ?_⟩
    rw [Views.fromMemory] at hmem
    split at hmem
    · obtain ⟨m, hm, rfl⟩ := Option.map_eq_some_iff.1 hmem
      exact ⟨m, hm, rfl⟩
    · cases hmem
  · obtain ⟨hdisk, hsettles⟩ := Option.filter_eq_some_iff.1 hdisk
    obtain ⟨d, hd, rfl⟩ := Option.map_eq_some_iff.1 hdisk
    exact ⟨hsettles, .inr ⟨d, hd, rfl⟩⟩

/-- Both levels are content-addressed, in terms of their views. -/
theorem Inv.consistent {c : CacheCoordinator} {P : Set Put} (hc : c.Inv H K P) :
    (∀ m, c.views.memory = some m → m.Consistent H K P) ∧
      ∀ d, c.views.disk = some d → d.Consistent H K P := by
  refine ⟨fun m hm => ?_, fun d hd => ?_⟩
  · obtain ⟨m₀, hm₀, rfl⟩ := Option.map_eq_some_iff.1 hm
    exact (hc.memory m₀ hm₀).consistent
  · obtain ⟨d₀, hd₀, rfl⟩ := Option.map_eq_some_iff.1 hd
    exact hc.disk d₀ hd₀

/-! ## Freshness -/

/-- Every hit without a cluster returns the requested bytes of the most recent successful put of its
key; in particular, none follows a removal without a put in between. -/
def FreshReads (H : ByteBuffer → Hash128) (s : CacheCoordinator × History) : Prop :=
  ∀ (env : ReadEnv) (key : CacheKey) (opts : ReadOptions), env.cluster = none →
    ((get H env key opts).run s.1).1.isHit = true →
    ∃ p, s.2 key = some p ∧
      ((get H env key opts).run s.1).1.data = LevelView.requested p.value.bytes opts

/-- No key that is not in the history is hit. -/
def ForgetsRemoved (H : ByteBuffer → Hash128) (s : CacheCoordinator × History) : Prop :=
  ∀ (env : ReadEnv) (key : CacheKey) (opts : ReadOptions), env.cluster = none → s.2 key = none →
    ((get H env key opts).run s.1).1.isHit = false

/-- A put that skips a level finds there no value under its key, or its own. -/
def Covers (H : ByteBuffer → Hash128) : Call → CacheCoordinator × History → Prop
  | .put p, s =>
    (p.opts.noMemory = true → ∀ m d, s.1.memory = some m → m.descriptors p.key = some d →
      Describes H d p.value.bytes) ∧
    (p.opts.noDisk = true → ∀ m d, s.1.disk = some m → m.descriptors p.key = some d →
      Describes H d p.value.bytes)
  | _, _ => True

/-- A put with default options skips no level. -/
theorem covers_default {p : PutCall} (hopts : p.opts = {}) (s : CacheCoordinator × History) :
    Covers H (.put p) s := by
  rw [Covers, hopts]
  refine ⟨fun hno => ?_, fun hno => ?_⟩
  · cases hno
  · cases hno

/-- What a level says about a key relates to the history by `Q`. -/
def LevelTracks (Q : ValueDescriptor → PutCall → Prop) (h : History) (w : LevelView) : Prop :=
  ∀ k d, w.descriptor k = some d → ∃ p, h k = some p ∧ Q d p

section
variable {Q : ValueDescriptor → PutCall → Prop} {h : History} {w w' : LevelView} {p : PutCall}

/-- A level that has taken a put. -/
theorem LevelTracks.put (hw : LevelTracks Q h w) {d' : ValueDescriptor}
    (hput : w'.descriptor = Function.update w.descriptor p.key (some d')) (hQ : Q d' p) :
    LevelTracks Q (Function.update h p.key (some p)) w' := by
  intro k d hd
  rw [hput] at hd
  by_cases hk : k = p.key
  · subst hk
    rw [Function.update_self] at hd ⊢
    cases hd
    exact ⟨p, rfl, hQ⟩
  · rw [Function.update_of_ne hk] at hd ⊢
    exact hw k d hd

/-- A level that a put has skipped. -/
theorem LevelTracks.skip (hw : LevelTracks Q h w)
    (hskip : ∀ d, w.descriptor p.key = some d → Q d p) :
    LevelTracks Q (Function.update h p.key (some p)) w := by
  intro k d hd
  by_cases hk : k = p.key
  · subst hk
    exact ⟨p, Function.update_self _ _ _, hskip d hd⟩
  · rw [Function.update_of_ne hk]
    exact hw k d hd

/-- A level from which a key was removed. -/
theorem LevelTracks.remove (hw : LevelTracks Q h w)
    (hrem : w'.descriptor = Function.update w.descriptor key none) :
    LevelTracks Q (Function.update h key none) w' := by
  intro k d hd
  rw [hrem] at hd
  by_cases hk : k = key
  · subst hk
    rw [Function.update_self] at hd
    cases hd
  · rw [Function.update_of_ne hk] at hd ⊢
    exact hw k d hd

end

/-- Both levels relate to the history by `Q`. -/
structure Tracks (H : ByteBuffer → Hash128) (K : Set ByteBuffer)
    (Q : ValueDescriptor → PutCall → Prop) (s : CacheCoordinator × History) : Prop where
  inv : s.1.Inv H K (allowedPuts K)
  history : ∀ k p, s.2 k = some p → p.memoryPut.chunks ⊆ K
  memory : ∀ w, s.1.views.memory = some w → LevelTracks Q s.2 w
  disk : ∀ w, s.1.views.disk = some w → LevelTracks Q s.2 w

variable {Q : ValueDescriptor → PutCall → Prop}

theorem tracks_init (config : Config) : Tracks H K Q (init config, fun _ => none) where
  inv := inv_init config
  history := fun k p hp => by cases hp
  memory := by
    intro w hw k d hd
    obtain ⟨m, hm, rfl⟩ := Option.map_eq_some_iff.1 hw
    rw [(memory_init hm : m = _)] at hd
    cases hd
  disk := by
    intro w hw k d hd
    obtain ⟨m, hm, rfl⟩ := Option.map_eq_some_iff.1 hw
    rw [(disk_init hm : m = _)] at hd
    cases hd

/-- A plain put keeps the relation, if `Q` holds between a put's descriptors and the put, and
between what the put finds in the levels it skips and the put. -/
theorem Tracks.put (ht : Tracks H K Q s) {p : PutCall} (henv : p.env.Clean)
    (hK : p.memoryPut.chunks ⊆ K) (hQm : Q (p.memoryPut.descriptor H) p)
    (hQd : Q (p.diskPut.descriptor H) p)
    (hskipm : p.opts.noMemory = true → ∀ w d, s.1.views.memory = some w →
      w.descriptor p.key = some d → Q d p)
    (hskipd : p.opts.noDisk = true → ∀ w d, s.1.views.disk = some w →
      w.descriptor p.key = some d → Q d p) : Tracks H K Q (exec H (.put p) s) := by
  have hinv : (exec H (.put p) s).1.Inv H K (allowedPuts K) := ht.inv.put henv hK hK hK
  rcases exec_put ht.inv henv with ⟨hsame, -⟩ | ⟨hexec, hmem, hdisk⟩
  · rwa [hsame]
  · rw [hexec] at hinv ⊢
    refine ⟨hinv, fun k q hq => ?_, fun w hw => ?_, fun w hw => ?_⟩
    · by_cases hk : k = p.key
      · subst hk
        simp only [Function.update_self, Option.some.injEq] at hq
        rwa [← hq]
      · simp only [Function.update_of_ne hk] at hq
        exact ht.history k q hq
    · rcases view_putMemory ht.inv hmem hw with ⟨hno, hw⟩ | ⟨w₀, hw₀, hput⟩
      · exact (ht.memory w hw).skip fun d => hskipm hno w d hw
      · exact (ht.memory w₀ hw₀).put hput hQm
    · rcases view_putDisk henv hdisk hw with ⟨hno, hw⟩ | ⟨w₀, hw₀, hput⟩
      · exact (ht.disk w hw).skip fun d => hskipd hno w d hw
      · exact (ht.disk w₀ hw₀).put hput hQd

theorem Tracks.get (ht : Tracks H K Q s) (henv : env.cluster = none) (key : CacheKey)
    (opts : ReadOptions) : Tracks H K Q (exec H (.get env key opts) s) := by
  obtain ⟨-, hviews, hinv⟩ := observes_get henv key opts s.1 ht.inv
  refine ⟨hinv, ht.history, ?_, ?_⟩
  · simp only [exec, hviews]
    exact ht.memory
  · simp only [exec, hviews]
    exact ht.disk

/-- After a removal neither level has a descriptor of the key. -/
theorem Tracks.remove (ht : Tracks H K Q s) (key : CacheKey) :
    Tracks H K Q (exec H (.remove key {}) s) := by
  have hrun := run_remove key {} s.1
  refine ⟨ht.inv.remove key {}, fun k p hp => ?_, fun w hw => ?_, fun w hw => ?_⟩
  · simp only [exec] at hp
    by_cases hk : k = key
    · subst hk
      rw [Function.update_self] at hp
      cases hp
    · rw [Function.update_of_ne hk] at hp
      exact ht.history k p hp
  · simp only [exec, hrun, views, if_true, Option.map_map, Option.map_eq_some_iff] at hw
    obtain ⟨m, hm, rfl⟩ := hw
    exact (ht.memory m.view (by simp only [views, hm, Option.map_some])).remove
      (MemoryCache.descriptors_remove (ht.inv.memory m hm).arc key)
  · simp only [exec, hrun, views, if_true, Option.map_map, Option.map_eq_some_iff] at hw
    obtain ⟨d, hd, rfl⟩ := hw
    exact (ht.disk d.view (by simp only [views, hd, Option.map_some])).remove
      (DiskCache.descriptors_remove d key)

/-- A read that a level settles is one of a value with a descriptor, and where the hash has no
collision the level has the chunks of the most recent put under their names. -/
theorem Tracks.read (ht : Tracks H K Q s) {r : ReadResult}
    (hread : s.1.views.read env key opts = some r) :
    ∃ (w : LevelView) (assemble : List (Option Chunk) → Range → ByteBuffer) (now : Timestamp)
      (d : ValueDescriptor) (p : PutCall),
      (s.1.views.memory = some w ∨ s.1.views.disk = some w) ∧ ExactAssembly assemble ∧
        OrderedAssembly assemble ∧ r = w.read assemble now key opts ∧
        w.descriptor key = some d ∧ s.2 key = some p ∧ Q d p ∧
        (Set.InjOn H K → w.Serves H p.value.bytes) := by
  obtain ⟨hmcons, hdcons⟩ := ht.inv.consistent
  obtain ⟨hsettles, hlevel⟩ := read_cases hread
  have hlevel' : ∃ (w : LevelView) (assemble : List (Option Chunk) → Range → ByteBuffer)
      (now : Timestamp), (s.1.views.memory = some w ∨ s.1.views.disk = some w) ∧
        ExactAssembly assemble ∧ OrderedAssembly assemble ∧ r = w.read assemble now key opts ∧
        w.Consistent H K (allowedPuts K) ∧ LevelTracks Q s.2 w := by
    rcases hlevel with ⟨m, hm, hr⟩ | ⟨d, hd, hr⟩
    · exact ⟨m, _, _, .inl hm, MemoryCache.exactAssembly, MemoryCache.orderedAssembly, hr,
        hmcons m hm, ht.memory m hm⟩
    · exact ⟨d, _, _, .inr hd, DiskCache.exactAssembly, DiskCache.orderedAssembly, hr,
        hdcons d hd, ht.disk d hd⟩
  obtain ⟨w, assemble, now, hw, hexact, hordered, rfl, hcons, htracks⟩ := hlevel'
  cases hd : w.descriptor key with
  | none => rw [LevelView.read_none hd] at hsettles; cases hsettles
  | some d =>
    obtain ⟨p, hp, hQ⟩ := htracks key d hd
    exact ⟨w, assemble, now, d, p, hw, hexact, hordered, rfl, hd, hp, hQ,
      fun hinj => hcons.serves hinj (ht.history key p hp)⟩

/-- A level that tracks the history returns, in a hit, the bytes of the most recent put. -/
theorem Tracks.hit (ht : Tracks H K Q s) (henv : env.cluster = none)
    (hhit : ((CacheCoordinator.get H env key opts).run s.1).1.isHit = true) :
    ∃ p d, s.2 key = some p ∧ Q d p ∧ (Set.InjOn H K → Describes H d p.value.bytes →
      ((CacheCoordinator.get H env key opts).run s.1).1.data =
        LevelView.requested p.value.bytes opts) := by
  rw [run_get ht.inv henv] at hhit ⊢
  cases hread : s.1.views.read env key opts with
  | none => rw [hread] at hhit; cases hhit
  | some r =>
    obtain ⟨w, assemble, now, d, p, -, hexact, -, rfl, hd, hp, hQ, hserves⟩ := ht.read hread
    rw [hread] at hhit
    exact ⟨p, d, hp, hQ, fun hinj hdesc =>
      LevelView.read_hit hexact hdesc p.value.size_lt (hserves hinj) hd hhit⟩

/-- In every state of every run of plain calls, no read hits a key that was removed and not put
since, or never put. If the hash is injective on the chunks of the run, and every put that skips a
level finds there no value under its key or its own, then in every state every hit returns the
requested bytes of the most recent successful put. -/
theorem reads_fresh (H : ByteBuffer → Hash128) (config : Config) (calls : List Call)
    (hplain : ∀ call ∈ calls, call.Plain) :
    EveryState (exec H) (ForgetsRemoved H) calls (init config, fun _ => none) ∧
    (Set.InjOn H (runChunks calls) →
      EveryStep (exec H) (Covers H) calls (init config, fun _ => none) →
      EveryState (exec H) (FreshReads H) calls (init config, fun _ => none)) := by
  refine ⟨?_, fun hinj hcovers => ?_⟩
  · refine everyState_of_inv (I := Tracks H (runChunks calls) fun _ _ => True) (tracks_init config)
      (fun s ht env key opts henv hnone => ?_) fun call hcall s ht => ?_
    · cases hhit : ((get H env key opts).run s.1).1.isHit with
      | false => rfl
      | true =>
        obtain ⟨p, -, hp, -⟩ := ht.hit henv hhit
        rw [hnone] at hp
        cases hp
    · have hcall' := hplain call hcall
      cases call with
      | put p =>
        exact ht.put hcall' (fun b hb => ⟨_, hcall, hb⟩) trivial trivial (fun _ _ _ _ _ => trivial)
          fun _ _ _ _ _ => trivial
      | get env key opts => exact ht.get hcall' key opts
      | remove key opts =>
        cases (show opts = {} from hcall')
        exact ht.remove key
  · refine hcovers.everyState
      (I := Tracks H (runChunks calls) fun d p => Describes H d p.value.bytes) (tracks_init config)
      (fun s ht env key opts henv hhit => ?_) fun call hcall s ht hcover => ?_
    · obtain ⟨p, d, hp, hQ, hdata⟩ := ht.hit henv hhit
      exact ⟨p, hp, hdata hinj hQ⟩
    · have hcall' := hplain call hcall
      cases call with
      | put p =>
        refine ht.put hcall' (fun b hb => ⟨_, hcall, hb⟩) (p.memoryPut.describes H)
          (p.diskPut.describes H) (fun hno w d hw => ?_) fun hno w d hw => ?_
        · obtain ⟨m, hm, rfl⟩ := Option.map_eq_some_iff.1 hw
          exact hcover.1 hno m d hm
        · obtain ⟨m, hm, rfl⟩ := Option.map_eq_some_iff.1 hw
          exact hcover.2 hno m d hm
      | get env key opts => exact ht.get hcall' key opts
      | remove key opts =>
        cases (show opts = {} from hcall')
        exact ht.remove key

/-- Two puts of one key, both into all levels. -/
def freshCalls : List Call :=
  [.put ⟨0, 0, { tick := fun _ => 0 }, ⟨[1]⟩, .single 7, {}⟩,
    .put ⟨0, 0, { tick := fun _ => 1 }, ⟨[1]⟩, .single 8, {}⟩]

/-- The same puts, the second of which skips the memory level. -/
def staleCalls : List Call :=
  [.put ⟨0, 0, { tick := fun _ => 0 }, ⟨[1]⟩, .single 7, {}⟩,
    .put ⟨0, 0, { tick := fun _ => 1 }, ⟨[1]⟩, .single 8,
      { noMemory := true }⟩]

/-- Neither put skips a level, so reads return the byte of the second one. -/
theorem reads_fresh_overwritten : FreshReads sampleHash (after sampleHash {} freshCalls) := by
  have hplain : ∀ call ∈ freshCalls, call.Plain := by
    intro call hcall
    simp only [freshCalls, List.mem_cons, List.not_mem_nil, or_false] at hcall
    rcases hcall with rfl | rfl
    · exact ⟨fun _ => rfl, rfl⟩
    · exact ⟨fun _ => rfl, rfl⟩
  refine ((reads_fresh sampleHash {} freshCalls hplain).2 ?_ ?_).last
  · have hchunks : ∀ b ∈ runChunks freshCalls, b = [7] ∨ b = [8] := by
      rintro b ⟨call, hcall, hb⟩
      simp only [freshCalls, List.mem_cons, List.not_mem_nil, or_false] at hcall
      rcases hcall with rfl | rfl
      · have hb' : b ∈ blocks chunkSize [7] := hb
        rw [blocks_byte, List.mem_singleton] at hb'
        exact .inl hb'
      · have hb' : b ∈ blocks chunkSize [8] := hb
        rw [blocks_byte, List.mem_singleton] at hb'
        exact .inr hb'
    intro a ha b hb hab
    rcases hchunks a ha with rfl | rfl
    · rcases hchunks b hb with rfl | rfl
      · rfl
      · exact absurd hab (by decide)
    · rcases hchunks b hb with rfl | rfl
      · exact absurd hab (by decide)
      · rfl
  · exact ⟨covers_default rfl _, covers_default rfl _, trivial⟩

/-- After the second put, the first value is read from the memory level. -/
theorem stale_read : (∀ call ∈ staleCalls, call.Plain) ∧
    ¬ FreshReads sampleHash (after sampleHash {} staleCalls) := by
  refine ⟨fun call hcall => ?_, fun h => ?_⟩
  · simp only [staleCalls, List.mem_cons, List.not_mem_nil, or_false] at hcall
    rcases hcall with rfl | rfl
    · exact ⟨fun _ => rfl, rfl⟩
    · exact ⟨fun _ => rfl, rfl⟩
  · have hread : ((get sampleHash ⟨0, 0, 0, none⟩ ⟨[1]⟩ {}).run
        (after sampleHash {} staleCalls).1).1.isHit = true ∧
      ((get sampleHash ⟨0, 0, 0, none⟩ ⟨[1]⟩ {}).run
        (after sampleHash {} staleCalls).1).1.data = [7] ∧
      ((after sampleHash {} staleCalls).2 ⟨[1]⟩).map (fun p => p.value.bytes) = some [8] := by
      decide +kernel
    obtain ⟨p, hp, hdata⟩ := h ⟨0, 0, 0, none⟩ ⟨[1]⟩ {} rfl hread.1
    have hvalue : p.value.bytes = [8] := by
      have := hread.2.2
      rw [hp] at this
      exact Option.some.inj this
    rw [hread.2.1, hvalue] at hdata
    exact absurd hdata (by decide)

end CacheCoordinator

end ElCache
