import ElCache.Config.Sections

/-!
# Writing and reading the configuration

What `load_json` makes of the text that `to_json` produces (`loadJson_toJson`). In the text of a
configuration whose strings do not interfere with the layout, every key is found at its own member,
and every string, number and list comes back. Three things are lost. A boolean that is false comes
back as true if the next one of its section is true, an empty path becomes the default path, and a
watermark of which only the sign is taken makes the conversion throw. The fields come back exactly
if none of these happens (`round_trip_iff`).
-/

namespace ElCache.ConfigFile

open Text SimpleJson

section
variable {D : Type} (io : DoubleText D) {c : Config D}

/-! ## The whole configuration -/

def Config.sizes (c : Config D) : List UInt64 :=
  c.memory.sizes ++ (c.disk.sizes ++ (c.network.sizes ++ (c.cluster.sizes ++
    (c.pool.sizes ++ c.perf.sizes))))

def Config.strings (c : Config D) : List ByteBuffer :=
  c.nodeName :: c.disk.path :: (c.network.strings ++ c.cluster.strings)

/-- The sizes are below `2 ^ 63`, and the strings do not interfere with the layout of the text. -/
structure Config.WellFormed (c : Config D) : Prop where
  sizes : ∀ n ∈ c.sizes, n.toNat < 2 ^ 63
  strings : ∀ w ∈ c.strings, IsPlain w

/-- A search for a section passes over the others. -/
theorem Config.legible_members (hc : c.WellFormed) : Legible (c.members io) := by
  obtain ⟨hnode, hrest⟩ := List.forall_mem_cons.1 hc.strings
  obtain ⟨hpath, hrest⟩ := List.forall_mem_cons.1 hrest
  obtain ⟨hnetwork, hcluster⟩ := List.forall_mem_append.1 hrest
  have hnames : ∀ m ∈ c.members io, m.1 ∈ sectionNames := by
    simp [Config.members, sectionNames]
  have hname : ∀ key ∈ sectionNames, IsName key := fun key hkey =>
    isName_of_mem_keyNames key (List.mem_append_left _ hkey)
  have hover : ∀ key ∈ sectionNames, ∀ m ∈ c.members io, PassesOver key m.2 := by
    intro key hkey
    have hnode' : PassesOver key (quoted c.nodeName) :=
      (isValue_quoted hnode).passesOver key (List.mem_append_left _ hkey)
    simp only [Config.members, List.forall_mem_cons]
    exact ⟨hnode', (c.memory.isSection_members io).passesOver hkey,
      (DiskCacheConfig.isSection_members io hpath).passesOver hkey,
      (NetworkConfig.isSection_members hnetwork).passesOver hkey,
      (ClusterConfig.isSection_members hcluster).passesOver hkey,
      c.pool.isSection_members.passesOver hkey, c.perf.isSection_members.passesOver hkey,
      List.forall_mem_nil _⟩
  intro m hm
  exact ⟨hname m.1 (hnames m hm), fun m' hm' =>
    ⟨hname m'.1 (hnames m' hm'), hover m.1 (hnames m hm) m' hm'⟩⟩

/-- What a configuration is read back as. -/
def Config.reread (c : Config D) (memoryHigh memoryLow diskHigh diskLow : D) : Config D where
  nodeName := c.nodeName
  memory := { c.memory with highWatermark := memoryHigh, lowWatermark := memoryLow }
  disk := { c.disk with
    path := if c.disk.path.isEmpty then ascii "/var/cache/elcache" else c.disk.path
    useDirectIo := c.disk.useDirectIo || c.disk.useFallocate
    highWatermark := diskHigh
    lowWatermark := diskLow }
  network := c.network
  cluster := c.cluster
  pool := { c.pool with
    acceptRemoteReads := c.pool.acceptRemoteReads || c.pool.acceptRemoteWrites }
  perf := { c.perf with metricsInterval := 60 }

/-- The text is read back section by section, with what is left of the watermarks. -/
theorem loadJson_toJson (hc : c.WellFormed) :
    loadJson io (c.toJson io) = (do
      let memoryHigh ← io.reread c.memory.highWatermark (io.literal 0.95)
      let memoryLow ← io.reread c.memory.lowWatermark (io.literal 0.85)
      let diskHigh ← io.reread c.disk.highWatermark (io.literal 0.90)
      let diskLow ← io.reread c.disk.lowWatermark (io.literal 0.80)
      return c.reread memoryHigh memoryLow diskHigh diskLow) := by
  have hsizes := hc.sizes
  simp only [Config.sizes, List.forall_mem_append] at hsizes
  obtain ⟨hmemory, hdisk, hnetwork, hcluster, hpool, hperf⟩ := hsizes
  obtain ⟨hnode, hrest⟩ := List.forall_mem_cons.1 hc.strings
  obtain ⟨hpath, hrest⟩ := List.forall_mem_cons.1 hrest
  obtain ⟨haddresses, hnames⟩ := List.forall_mem_append.1 hrest
  have hms : Legible (c.members io) := c.legible_members io hc
  have hnodeName : getString (c.toJson io) "node_name" [] = c.nodeName :=
    getString_block hnode.notMem.1 hms rfl []
  rw [loadJson, hnodeName, Config.toJson,
    getObject_sectionText (c.memory.isSection_members io) hms "memory" rfl,
    getObject_sectionText (DiskCacheConfig.isSection_members io hpath) hms "disk" rfl,
    getObject_sectionText (NetworkConfig.isSection_members haddresses) hms "network" rfl,
    getObject_sectionText (ClusterConfig.isSection_members hnames) hms "cluster" rfl,
    getObject_sectionText c.pool.isSection_members hms "pool" rfl,
    getObject_sectionText c.perf.isSection_members hms "performance" rfl,
    loadMemory_sectionText io c.memory hmemory, loadDisk_sectionText io hpath hdisk,
    loadNetwork_sectionText hnetwork haddresses, loadCluster_sectionText hcluster hnames,
    loadPool_sectionText c.pool hpool, loadPerformance_sectionText c.perf hperf]
  simp only [bind_assoc, pure_bind]
  rfl

/-- The two configurations agree on the fields that are read, except for the watermarks. -/
structure Config.Agrees (c c' : Config D) : Prop where
  nodeName : c.nodeName = c'.nodeName
  memory : c.memory.maxSize = c'.memory.maxSize ∧ c.memory.arcGhostSize = c'.memory.arcGhostSize
  disk : c.disk.path = c'.disk.path ∧ c.disk.maxSize = c'.disk.maxSize ∧
    c.disk.useDirectIo = c'.disk.useDirectIo ∧ c.disk.useFallocate = c'.disk.useFallocate
  network : c.network = c'.network
  cluster : c.cluster = c'.cluster
  pool : c.pool = c'.pool
  perf : { c.perf with metricsInterval := c'.perf.metricsInterval } = c'.perf

/-- The configuration does not depend on what is lost in the text: of two booleans in a row the
second is true only if the first is, the path is not empty, and no watermark is negative infinity
or a negative NaN. -/
structure Config.Restorable (c : Config D) : Prop where
  useDirectIo : c.disk.useFallocate = true → c.disk.useDirectIo = true
  acceptRemoteReads : c.pool.acceptRemoteWrites = true → c.pool.acceptRemoteReads = true
  path : c.disk.path ≠ []
  watermarks : ∀ d ∈ [c.memory.highWatermark, c.memory.lowWatermark, c.disk.highWatermark,
    c.disk.lowWatermark], (io.shown d).isNegativeSpecial = false

/-- What must hold for the three fields that the getters may change. -/
theorem Config.reread_agrees_iff (c : Config D) (memoryHigh memoryLow diskHigh diskLow : D) :
    (c.reread memoryHigh memoryLow diskHigh diskLow).Agrees c ↔
      (c.disk.useFallocate = true → c.disk.useDirectIo = true) ∧
        (c.pool.acceptRemoteWrites = true → c.pool.acceptRemoteReads = true) ∧
          c.disk.path ≠ [] := by
  have hpath : (if c.disk.path.isEmpty then ascii "/var/cache/elcache" else c.disk.path) =
      c.disk.path ↔ c.disk.path ≠ [] := by
    cases c.disk.path with
    | nil => decide
    | cons b rest => exact ⟨fun _ => List.cons_ne_nil b rest, fun _ => rfl⟩
  constructor
  · intro h
    exact ⟨Bool.or_eq_left_iff_imp.1 h.disk.2.2.1,
      Bool.or_eq_left_iff_imp.1 (congrArg PoolConfig.acceptRemoteReads h.pool),
      hpath.1 h.disk.1⟩
  · rintro ⟨hdirect, hreads, hne⟩
    have hpool : (c.reread memoryHigh memoryLow diskHigh diskLow).pool = c.pool := by
      rw [Config.reread, Bool.or_eq_left_iff_imp.2 hreads]
    exact ⟨rfl, ⟨rfl, rfl⟩, ⟨hpath.2 hne, rfl, Bool.or_eq_left_iff_imp.2 hdirect, rfl⟩, rfl, rfl,
      hpool, rfl⟩

/-- The text is accepted exactly if all four watermarks are, and what comes back does not depend on
them except for the watermarks. -/
theorem exists_loadJson_agrees_iff (hc : c.WellFormed) :
    (∃ c', loadJson io (c.toJson io) = .ok c' ∧ c'.Agrees c) ↔
      (∃ memoryHigh, io.reread c.memory.highWatermark (io.literal 0.95) = .ok memoryHigh ∧
        ∃ memoryLow, io.reread c.memory.lowWatermark (io.literal 0.85) = .ok memoryLow ∧
          ∃ diskHigh, io.reread c.disk.highWatermark (io.literal 0.90) = .ok diskHigh ∧
            ∃ diskLow, io.reread c.disk.lowWatermark (io.literal 0.80) = .ok diskLow ∧
              (c.reread memoryHigh memoryLow diskHigh diskLow).Agrees c) := by
  have hlast : ∀ x : Config D, (∃ b, (pure x : Except StdException (Config D)) = .ok b ∧
      b.Agrees c) ↔ x.Agrees c := by
    intro x
    refine ⟨?_, fun h => ⟨x, rfl, h⟩⟩
    rintro ⟨b, hb, h⟩
    cases hb
    exact h
  rw [loadJson_toJson io hc]
  simp only [exists_bind_eq_ok, hlast]

/-- Of a configuration with sizes and strings that can be written, the fields that are read come
back exactly if the configuration is restorable. -/
theorem round_trip_iff (c : Config D) (hc : c.WellFormed) :
    (∃ c', loadJson io (c.toJson io) = .ok c' ∧ c'.Agrees c) ↔ c.Restorable io := by
  rw [exists_loadJson_agrees_iff io hc]
  constructor
  · rintro ⟨a, ha, b, hb, d, hd, e, he, hagrees⟩
    obtain ⟨hdirect, hreads, hpath⟩ := (c.reread_agrees_iff a b d e).1 hagrees
    refine ⟨hdirect, hreads, hpath, ?_⟩
    simp only [List.forall_mem_cons]
    exact ⟨(io.reread_eq_ok_iff _ _).1 ⟨a, ha⟩, (io.reread_eq_ok_iff _ _).1 ⟨b, hb⟩,
      (io.reread_eq_ok_iff _ _).1 ⟨d, hd⟩, (io.reread_eq_ok_iff _ _).1 ⟨e, he⟩,
      List.forall_mem_nil _⟩
  · intro h
    have hwatermarks := h.watermarks
    simp only [List.forall_mem_cons] at hwatermarks
    obtain ⟨ha, hb, hd, he, _⟩ := hwatermarks
    obtain ⟨a, ha⟩ := (io.reread_eq_ok_iff _ (io.literal 0.95)).2 ha
    obtain ⟨b, hb⟩ := (io.reread_eq_ok_iff _ (io.literal 0.85)).2 hb
    obtain ⟨d, hd⟩ := (io.reread_eq_ok_iff _ (io.literal 0.90)).2 hd
    obtain ⟨e, he⟩ := (io.reread_eq_ok_iff _ (io.literal 0.80)).2 he
    exact ⟨a, ha, b, hb, d, hd, e, he,
      (c.reread_agrees_iff a b d e).2 ⟨h.useDirectIo, h.acceptRemoteReads, h.path⟩⟩

end

/-! ## Decimal fractions -/

def digitsOf (s : ByteBuffer) : List (Fin 10) := s.map fun c => Fin.ofNat 10 (c.toNat - 48)

/-- `std::stod` on a text without a name and without an exponent. -/
def decimalStod (run : ByteBuffer) : Except StdException Shown :=
  let digits := if run.head? = some 45 then run.drop 1 else run
  let whole := digits.takeWhile isDigit
  match digitsOf whole with
  | [] => .error .invalidArgument
  | lead :: rest =>
    .ok (.number (run.head? = some 45) lead rest
      (digitsOf ((digits.drop (whole.length + 1)).takeWhile isDigit)) none)

/-- The mantissa of a number has a digit in front, so it is accepted. -/
theorem decimalStod_mantissa {s : Shown} (hs : s.isNumber = true) :
    ∃ x, decimalStod s.mantissa = .ok x := by
  have hok : ∀ {run : ByteBuffer} {c : UInt8} {rest : ByteBuffer}, isDigit c = true →
      (if run.head? = some 45 then run.drop 1 else run) = c :: rest →
        ∃ x, decimalStod run = .ok x := by
    intro run c rest hdigit hrun
    rw [decimalStod]
    simp only [hrun, List.takeWhile_cons_of_pos hdigit]
    exact ⟨_, rfl⟩
  cases s with
  | nan negative => cases hs
  | inf negative => cases hs
  | number negative lead whole fraction exponent =>
    have hlead : isDigit (UInt8.ofNat (48 + lead.val)) = true :=
      isDigit_of_mem_digitText (List.mem_map_of_mem (List.mem_singleton_self lead))
    cases negative with
    | true => exact hok hlead rfl
    | false =>
      refine hok hlead (if_neg fun h => ?_)
      rw [show UInt8.ofNat (48 + lead.val) = 45 from Option.some.inj h] at hlead
      cases hlead

/-- Numbers that are what is printed for them. -/
def decimals : DoubleText Shown where
  shown := id
  stod := decimalStod
  literal q := .number false 0 [] (digitsOf (decimal (q * 100).num.toNat)) none
  stod_minus := rfl
  stod_mantissa _ := decimalStod_mantissa

/-- The default configuration of a node with two seeds. -/
def twoSeeds : Config Shown where
  nodeName := ascii "node-1"
  memory := .default decimals
  disk := .default decimals
  cluster := { seedNodes := [ascii "10.0.0.1:7890", ascii "10.0.0.2:7890"] }

/-- A configuration that only differs in `use_direct_io`. -/
def noDirectIo : Config Shown :=
  { twoSeeds with disk := { twoSeeds.disk with useDirectIo := false } }

theorem twoSeeds_wellFormed : twoSeeds.WellFormed where
  sizes := by
    have hall : twoSeeds.sizes.all (fun n => n.toNat < 2 ^ 63) = true := by decide
    exact fun n hn => of_decide_eq_true (List.all_eq_true.1 hall n hn)
  strings := by decide +kernel

theorem noDirectIo_wellFormed : noDirectIo.WellFormed :=
  ⟨twoSeeds_wellFormed.sizes, twoSeeds_wellFormed.strings⟩

theorem round_trip_two_seeds : twoSeeds.WellFormed ∧
    ∃ c', loadJson decimals (twoSeeds.toJson decimals) = .ok c' ∧ c'.Agrees twoSeeds :=
  ⟨twoSeeds_wellFormed, (round_trip_iff decimals twoSeeds twoSeeds_wellFormed).2
    ⟨by decide, by decide, by decide, by decide⟩⟩

theorem round_trip_no_direct_io : noDirectIo.WellFormed ∧
    ¬ ∃ c', loadJson decimals (noDirectIo.toJson decimals) = .ok c' ∧ c'.Agrees noDirectIo := by
  refine ⟨noDirectIo_wellFormed, ?_⟩
  rw [exists_loadJson_agrees_iff decimals noDirectIo_wellFormed]
  rintro ⟨a, _, b, _, d, _, e, _, hagrees⟩
  have h := ((noDirectIo.reread_agrees_iff a b d e).1 hagrees).1 rfl
  cases h

end ElCache.ConfigFile
