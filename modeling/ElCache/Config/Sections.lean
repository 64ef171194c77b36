import ElCache.Config.File

/-!
# The sections of the configuration file

The text of a section is legible: every key is found at its own member, since no value looks like a
key (`IsValue`, `IsSection.legible`). So each section is read back as it was written, except for
what the getters lose: `loadDisk_sectionText` and `loadPool_sectionText` say which of the booleans
change, and the watermarks come back as what is left of them in the text (`DoubleText.reread`).
-/

namespace ElCache.ConfigFile

variable {c : UInt8} {ws : List ByteBuffer} {w : ByteBuffer}

open Text SimpleJson

/-! ## Keys and strings -/

/-- The keys of the outer object. -/
def sectionNames : List String :=
  ["node_name", "memory", "disk", "network", "cluster", "pool", "performance"]

/-- The keys of the sections. -/
def fieldNames : List String :=
  ["max_size", "arc_ghost_size", "high_watermark", "low_watermark", "path", "use_direct_io",
   "use_fallocate", "bind_address", "cluster_port", "http_port", "sdk_port", "unix_socket_path",
   "shm_path", "shm_size", "max_connections", "cluster_name", "seed_nodes", "gossip_interval_ms",
   "failure_detection_timeout_ms", "gossip_fanout", "replication_factor", "prefer_local",
   "virtual_nodes", "memory_contribution", "disk_contribution", "accept_remote_reads",
   "accept_remote_writes", "io_threads", "worker_threads", "max_concurrent_disk_ops",
   "max_concurrent_network_ops", "prefetch_chunks", "enable_metrics", "metrics_interval_s"]

def keyNames : List String := sectionNames ++ fieldNames

/-- Every key is a name. -/
theorem isName_of_mem_keyNames : ∀ key ∈ keyNames, IsName key := by decide +kernel

/-- No field is named like a section. -/
theorem ne_of_mem_fieldNames : ∀ name ∈ fieldNames, ∀ key ∈ sectionNames, name ≠ key := by
  decide +kernel

/-- A string without a quote, a backslash, a bracket or a brace that is not a key. -/
def IsPlain (w : ByteBuffer) : Prop :=
  (∀ c ∈ ascii "\"\\[]\x7b\x7d", c ∉ w) ∧ ∀ key ∈ keyNames, w ≠ ascii key

instance decidableIsPlain (w : ByteBuffer) : Decidable (IsPlain w) :=
  @instDecidableAnd _ _ (List.decidableBAll _ _) (List.decidableBAll _ _)

/-! ## What a number in floating point prints -/

theorem isDigit_of_mem_digitText {ds : List (Fin 10)} (hc : c ∈ digitText ds) :
    isDigit c = true := by
  have hall : ∀ d : Fin 10, isDigit (UInt8.ofNat (48 + d.val)) = true := by decide
  obtain ⟨d, _, rfl⟩ := List.mem_map.1 hc
  exact hall d

theorem eq_of_mem_minusText {negative : Bool} (hc : c ∈ minusText negative) : c = 45 := by
  cases negative with
  | true => exact List.mem_singleton.1 hc
  | false => cases hc

/-- `get_double` takes signs, digits and points. -/
theorem Shown.isDoubleChar_of_mem_mantissa {s : Shown} (hc : c ∈ s.mantissa) :
    isDoubleChar c = true := by
  have hminus : ∀ {negative}, c ∈ minusText negative → isDoubleChar c = true := by
    intro negative h
    rw [eq_of_mem_minusText h]
    rfl
  have hdigit : ∀ {ds}, c ∈ digitText ds → isDoubleChar c = true := by
    intro ds h
    rw [isDoubleChar, isDigit_of_mem_digitText h]
    rfl
  cases s with
  | nan negative => exact hminus hc
  | inf negative => exact hminus hc
  | number negative lead whole fraction exponent =>
    rcases List.mem_append.1 hc with h | h
    · exact hminus h
    · rcases List.mem_append.1 h with h | h
      · exact hdigit h
      · rw [pointText] at h
        split at h
        · cases h
        · rcases List.mem_cons.1 h with rfl | h
          · rfl
          · exact hdigit h

/-- `get_double` takes the part in front of a name or an exponent. -/
theorem Shown.takeWhile_text (s : Shown) : s.text.takeWhile isDoubleChar = s.mantissa := by
  have hending : s.ending.takeWhile isDoubleChar = [] := by
    cases s with
    | nan negative => rfl
    | inf negative => rfl
    | number negative lead whole fraction exponent =>
      cases exponent with
      | none => rfl
      | some e => rfl
  rw [Shown.text, List.takeWhile_append_of_pos fun c hc => isDoubleChar_of_mem_mantissa hc, hending,
    List.append_nil]

/-- The characters of numbers of every kind. -/
def isNumberChar (c : UInt8) : Bool := isDigit c || decide (c ∈ ascii "+-.aefin")

theorem isNumberChar_of_isDigit (h : isDigit c = true) : isNumberChar c = true := by
  rw [isNumberChar, h, Bool.true_or]

/-- Whatever its form, a number has the characters of numbers only. -/
theorem Shown.isNumberChar_of_mem_text {s : Shown} (hc : c ∈ s.text) : isNumberChar c = true := by
  rcases List.mem_append.1 hc with h | h
  · have hdouble := isDoubleChar_of_mem_mantissa h
    rw [isDoubleChar, Bool.or_eq_true, Bool.or_eq_true, decide_eq_true_eq, decide_eq_true_eq]
      at hdouble
    rcases hdouble with (hdigit | rfl) | rfl
    · exact isNumberChar_of_isDigit hdigit
    · rfl
    · rfl
  · cases s with
    | nan negative =>
      have hname : (ascii "nan").all isNumberChar = true := by decide
      exact List.all_eq_true.1 hname c h
    | inf negative =>
      have hname : (ascii "inf").all isNumberChar = true := by decide
      exact List.all_eq_true.1 hname c h
    | number negative lead whole fraction exponent =>
      cases exponent with
      | none => cases h
      | some e =>
        have hsign : isNumberChar (if e.1 then 45 else 43) = true := by
          cases e.1 with
          | true => rfl
          | false => rfl
        rcases List.mem_cons.1 h with rfl | h
        · rfl
        · rcases List.mem_cons.1 h with rfl | h
          · exact hsign
          · exact isNumberChar_of_isDigit (isDigit_of_mem_digitText h)

/-- No number is printed as nothing. -/
theorem Shown.text_ne_nil (s : Shown) : s.text ≠ [] := by
  intro h
  obtain ⟨hmantissa, hending⟩ := List.append_eq_nil_iff.1 h
  cases s with
  | nan negative => cases hending
  | inf negative => cases hending
  | number negative lead whole fraction exponent =>
    cases (List.append_eq_nil_iff.1 (List.append_eq_nil_iff.1 hmantissa).2).1

/-! ## Values -/

/-- The text of a value of a section: the search for a key passes over it, and it has no brace. -/
structure IsValue (t : ByteBuffer) : Prop where
  passesOver : ∀ key ∈ keyNames, PassesOver key t
  notMem_open : 123 ∉ t
  notMem_close : 125 ∉ t

theorem notMem_of_isNumberChar {t : ByteBuffer} (ht : ∀ c ∈ t, isNumberChar c = true)
    (hc : isNumberChar c = false) : c ∉ t := by
  intro hmem
  rw [ht c hmem] at hc
  cases hc

/-- Numbers have no quote, so they look like no key, and no brace. -/
theorem isValue_of_isNumberChar {t : ByteBuffer} (ht : ∀ c ∈ t, isNumberChar c = true) :
    IsValue t where
  passesOver _ _ := passesOver_of_notMem (notMem_of_isNumberChar ht rfl)
  notMem_open := notMem_of_isNumberChar ht rfl
  notMem_close := notMem_of_isNumberChar ht rfl

theorem isNumberChar_of_mem_sizeText {n : UInt64} (hc : c ∈ sizeText n) :
    isNumberChar c = true :=
  isNumberChar_of_isDigit (isDigit_of_mem_decimal hc)

theorem isNumberChar_of_mem_countText {n : Int64} (hc : c ∈ countText n) :
    isNumberChar c = true := by
  rcases mem_decimalInt hc with hdigit | rfl
  · exact isNumberChar_of_isDigit hdigit
  · rfl

@[simp] theorem isValue_sizeText (n : UInt64) : IsValue (sizeText n) :=
  isValue_of_isNumberChar fun _ => isNumberChar_of_mem_sizeText

@[simp] theorem isValue_portText (p : UInt16) : IsValue (portText p) :=
  isValue_of_isNumberChar fun _ hc => isNumberChar_of_isDigit (isDigit_of_mem_decimal hc)

@[simp] theorem isValue_countText (n : Int64) : IsValue (countText n) :=
  isValue_of_isNumberChar fun _ => isNumberChar_of_mem_countText

@[simp] theorem isValue_text {D : Type} (io : DoubleText D) (d : D) : IsValue (io.text d) :=
  isValue_of_isNumberChar fun _ => Shown.isNumberChar_of_mem_text

@[simp] theorem isValue_boolText (b : Bool) : IsValue (boolText b) := by
  cases b with
  | true => exact ⟨fun _ _ => passesOver_of_notMem (by decide), by decide, by decide⟩
  | false => exact ⟨fun _ _ => passesOver_of_notMem (by decide), by decide, by decide⟩

/-- The characters that a plain string does not have. -/
theorem IsPlain.notMem (hw : IsPlain w) : 34 ∉ w ∧ 93 ∉ w ∧ 123 ∉ w ∧ 125 ∉ w :=
  ⟨hw.1 34 (by decide), hw.1 93 (by decide), hw.1 123 (by decide), hw.1 125 (by decide)⟩

@[simp] theorem isValue_quoted (hw : IsPlain w) : IsValue (quoted w) := by
  obtain ⟨hquote, _, hopen, hclose⟩ := hw.notMem
  exact ⟨fun key hkey => passesOver_quoted (isName_of_mem_keyNames key hkey) hquote (hw.2 key hkey),
    notMem_quoted hopen (by decide), notMem_quoted hclose (by decide)⟩

/-- A list has the characters of its strings and of the layout. -/
theorem notMem_listText (hws : ∀ w ∈ ws, c ∉ w) (hc : c ∉ ascii "[\", ]") : c ∉ listText ws := by
  have hpart : ∀ {t : ByteBuffer}, t ⊆ ascii "[\", ]" → c ∉ t := fun ht h => hc (ht h)
  have hjoined : c ∉ joined (ascii ", ") (ws.map quoted) := by
    refine notMem_joined (hpart (by decide)) fun x hx => ?_
    obtain ⟨w, hw, rfl⟩ := List.mem_map.1 hx
    exact notMem_quoted (hws w hw) fun h => hc (h ▸ by decide)
  rw [listText, List.mem_append, List.mem_append]
  rintro (h | h | h)
  · exact hpart (by decide) h
  · exact hjoined h
  · exact hpart (by decide) h

/-- A list of plain strings is a value. -/
theorem isValue_listText (hws : ∀ w ∈ ws, IsPlain w) :
    IsValue (listText ws) where
  passesOver key hkey := passesOver_listText (isName_of_mem_keyNames key hkey) fun w hw =>
    ⟨(hws w hw).notMem.1, (hws w hw).2 key hkey⟩
  notMem_open := notMem_listText (fun w hw => (hws w hw).notMem.2.2.1) (by decide)
  notMem_close := notMem_listText (fun w hw => (hws w hw).notMem.2.2.2) (by decide)

/-! ## Sections -/

/-- The members of a section. -/
structure IsSection (ms : List (String × ByteBuffer)) : Prop where
  names : ∀ m ∈ ms, m.1 ∈ fieldNames
  values : ∀ m ∈ ms, IsValue m.2

section
variable {ms : List (String × ByteBuffer)}

theorem IsSection.isName (hms : IsSection ms) {m : String × ByteBuffer} (hm : m ∈ ms) :
    IsName m.1 :=
  isName_of_mem_keyNames m.1 (List.mem_append_right _ (hms.names m hm))

/-- A search for any key passes over the values of a section. -/
theorem IsSection.passes (hms : IsSection ms) {key : String} (hkey : key ∈ keyNames) :
    Passes key ms := by
  intro m hm
  exact ⟨hms.isName hm, (hms.values m hm).passesOver key hkey⟩

/-- So every key of a section is found at its own member. -/
theorem IsSection.legible (hms : IsSection ms) : Legible ms := by
  intro m hm
  exact ⟨hms.isName hm, hms.passes (List.mem_append_right _ (hms.names m hm))⟩

/-- A search for another section passes over a section. -/
theorem IsSection.passesOver (hms : IsSection ms) {key : String} (hkey : key ∈ sectionNames) :
    PassesOver key (sectionText ms) := by
  have hkey' : key ∈ keyNames := List.mem_append_left _ hkey
  exact passesOver_block (isName_of_mem_keyNames key hkey') (hms.passes hkey')
    (fun m hm => ne_of_mem_fieldNames m.1 (hms.names m hm) key hkey) (by decide) 4

/-- A section without the braces. -/
def sectionBody (ms : List (String × ByteBuffer)) : ByteBuffer :=
  ascii "\n" ++ (joined (ascii ",\n") (ms.map fun m => member 4 m.1 m.2) ++ ascii "\n  ")

/-- A section is its body in braces. -/
theorem sectionText_eq (ms : List (String × ByteBuffer)) :
    sectionText ms = 123 :: (sectionBody ms ++ [125]) := by
  rw [sectionText, block, sectionBody, List.append_assoc, List.append_assoc]
  rfl

/-- A section has no brace inside. -/
theorem IsSection.notMem_sectionBody (hms : IsSection ms) (hc : c = 123 ∨ c = 125) :
    c ∉ sectionBody ms := by
  have hlayout : c ∉ ascii "\n,\": " ∧ isNameChar c = false := by
    rcases hc with rfl | rfl
    · decide
    · decide
  have hpart : ∀ {t : ByteBuffer}, t ⊆ ascii "\n,\": " → c ∉ t := fun ht h => hlayout.1 (ht h)
  have hvalue : ∀ m ∈ ms, c ∉ m.2 := by
    intro m hm
    rcases hc with rfl | rfl
    · exact (hms.values m hm).notMem_open
    · exact (hms.values m hm).notMem_close
  have hmember : ∀ m ∈ ms, c ∉ member 4 m.1 m.2 := by
    intro m hm
    rw [member, List.mem_append, List.mem_append, List.mem_append]
    rintro (h | h | h | h)
    · exact hpart (by decide) h
    · exact notMem_quoted ((hms.isName hm).notMem hlayout.2) (fun h => hlayout.1 (h ▸ by decide)) h
    · exact hpart (by decide) h
    · exact hvalue m hm h
  rw [sectionBody, List.mem_append, List.mem_append]
  rintro (h | h | h)
  · exact hpart (by decide) h
  · refine notMem_joined (hpart (by decide)) (fun x hx => ?_) h
    obtain ⟨m, hm, rfl⟩ := List.mem_map.1 hx
    exact hmember m hm
  · exact hpart (by decide) h

/-- A section is read back. -/
theorem getObject_sectionText (hms : IsSection ms) {json l : List (String × ByteBuffer)}
    (hjson : Legible json) (key : String) (hlook : lookup key json = some (sectionText ms, l))
    {indent : Nat} {close : ByteBuffer} :
    getObject (block indent close json) key = sectionText ms := by
  rw [sectionText_eq] at hlook ⊢
  exact getObject_block (hms.notMem_sectionBody (.inl rfl)) (hms.notMem_sectionBody (.inr rfl))
    hjson hlook

/-! ## The getters on a section -/

variable {l : List (String × ByteBuffer)} (hms : IsSection ms) (key : String)

include hms

/-- A string is read back. -/
theorem getString_sectionText (hw : 34 ∉ w) (hlook : lookup key ms = some (quoted w, l))
    (dflt : ByteBuffer) :
    getString (sectionText ms) key dflt = w :=
  getString_block hw hms.legible hlook dflt

/-- An integer of 64 bits is read back. -/
theorem getInt_sectionText {z : Int} (hz : IsInt64 z)
    (hlook : lookup key ms = some (decimalInt z, l)) (dflt : Int) :
    getInt (sectionText ms) key dflt = .ok z :=
  getInt_block hz rfl hms.legible hlook dflt

/-- A size is read back if it is no larger than a signed integer. -/
theorem getSize_sectionText {n : UInt64} (hn : n.toNat < 2 ^ 63)
    (hlook : lookup key ms = some (sizeText n, l)) (dflt : UInt64) :
    getSize (sectionText ms) key dflt = .ok n := by
  have hz : IsInt64 (n.toNat : Int) := by
    rw [IsInt64]
    omega
  rw [sizeText, ← decimalInt_natCast] at hlook
  rw [getSize, getInt_sectionText hms key hz hlook, Except.map, UInt64.ofInt,
    Int.emod_eq_of_lt (by omega) (by omega), Int.toNat_natCast, UInt64.ofNat_toNat]

/-- A port is read back. -/
theorem getPort_sectionText {n : UInt16} (hlook : lookup key ms = some (portText n, l))
    (dflt : UInt16) : getPort (sectionText ms) key dflt = .ok n := by
  have hn := n.toNat_lt
  have hz : IsInt64 (n.toNat : Int) := by
    rw [IsInt64]
    omega
  rw [portText, ← decimalInt_natCast] at hlook
  rw [getPort, getInt_sectionText hms key hz hlook, Except.map, UInt16.ofInt,
    Int.emod_eq_of_lt (by omega) (by omega), Int.toNat_natCast, UInt16.ofNat_toNat]

/-- A count is read back. -/
theorem getCount_sectionText {n : Int64} (hlook : lookup key ms = some (countText n, l))
    (dflt : Int64) : getCount (sectionText ms) key dflt = .ok n := by
  rw [getCount, getInt_sectionText hms key ⟨n.le_toInt, n.toInt_lt⟩ hlook, Except.map,
    Int64.ofInt_toInt]

/-- A boolean is read as true also if `true` stands behind it in the section. -/
theorem getBool_sectionText {b : Bool} (hlook : lookup key ms = some (boolText b, l))
    (dflt : Bool) : getBool (sectionText ms) key dflt = (b || trueBehind 4 sectionEnd l) :=
  getBool_block hms.legible hlook dflt

/-- A list of plain strings is read back. -/
theorem getStringArray_sectionText (hws : ∀ w ∈ ws, IsPlain w)
    (hlook : lookup key ms = some (listText ws, l)) :
    getStringArray (sectionText ms) key = ws :=
  getStringArray_block (fun w hw => (hws w hw).notMem.1) (fun w hw => (hws w hw).notMem.2.1)
    hms.legible hlook

omit hms

variable {D : Type}

/-- What a number in floating point is read back as. -/
def DoubleText.reread (io : DoubleText D) (d dflt : D) : Except StdException D :=
  if (io.shown d).mantissa.isEmpty then .ok dflt else io.stod (io.shown d).mantissa

/-- Only the sign of a negative special value is taken, and that is not accepted. -/
theorem DoubleText.reread_eq_ok_iff (io : DoubleText D) (d dflt : D) :
    (∃ x, io.reread d dflt = .ok x) ↔ (io.shown d).isNegativeSpecial = false := by
  have hspecial : ∀ negative, (io.shown d).mantissa = minusText negative →
      ((∃ x, io.reread d dflt = .ok x) ↔ negative = false) := by
    intro negative h
    rw [DoubleText.reread, h]
    cases negative with
    | true =>
      refine ⟨?_, fun h => by cases h⟩
      rintro ⟨x, hx⟩
      rw [minusText, if_pos rfl, if_neg (by decide), io.stod_minus] at hx
      cases hx
    | false => exact ⟨fun _ => rfl, fun _ => ⟨dflt, rfl⟩⟩
  cases h : io.shown d with
  | nan negative => exact hspecial negative (by rw [h, Shown.mantissa])
  | inf negative => exact hspecial negative (by rw [h, Shown.mantissa])
  | number negative lead whole fraction exponent =>
    refine ⟨fun _ => rfl, fun _ => ?_⟩
    obtain ⟨x, hx⟩ := io.stod_mantissa d (by rw [h, Shown.isNumber])
    have hne : (io.shown d).mantissa.isEmpty = false := by
      rw [h, Shown.mantissa]
      simp [digitText]
    exact ⟨x, by rw [DoubleText.reread, hne, if_neg Bool.false_ne_true, hx]⟩

include hms in
/-- `get_double` reads back what the text leaves of a number. -/
theorem getDouble_sectionText (io : DoubleText D) {d : D}
    (hlook : lookup key ms = some (io.text d, l)) (dflt : D) :
    getDouble io.stod (sectionText ms) key dflt = io.reread d dflt := by
  have hhead : ∃ c ∈ (io.text d).head?, isSpace c = false := by
    obtain ⟨c, t, hct⟩ := List.exists_cons_of_ne_nil (io.shown d).text_ne_nil
    refine ⟨c, by rw [DoubleText.text, hct]; rfl, ?_⟩
    have hc := Shown.isNumberChar_of_mem_text (hct ▸ List.mem_cons_self)
    rw [isNumberChar, Bool.or_eq_true, decide_eq_true_eq] at hc
    rcases hc with hc | hc
    · exact isSpace_of_isDigit hc
    · have hall : (ascii "+-.aefin").all (fun c => !isSpace c) = true := by decide
      exact Bool.not_inj (List.all_eq_true.1 hall c hc)
  rw [sectionText, getDouble_block io.stod hhead rfl hms.legible hlook, DoubleText.text,
    Shown.takeWhile_text]
  rfl

end

/-! ## The sections are read back -/

section
variable {D : Type} (io : DoubleText D) {disk : DiskCacheConfig D} {network : NetworkConfig}
  {cluster : ClusterConfig}

def MemoryCacheConfig.sizes (memory : MemoryCacheConfig D) : List UInt64 :=
  [memory.maxSize, memory.arcGhostSize]

def DiskCacheConfig.sizes (disk : DiskCacheConfig D) : List UInt64 := [disk.maxSize]

def NetworkConfig.sizes (network : NetworkConfig) : List UInt64 :=
  [network.shmSize, network.maxConnections]

def NetworkConfig.strings (network : NetworkConfig) : List ByteBuffer :=
  [network.bindAddress, network.unixSocketPath, network.shmPath]

def ClusterConfig.sizes (cluster : ClusterConfig) : List UInt64 :=
  [cluster.gossipFanout, cluster.replicationFactor, cluster.virtualNodes]

def ClusterConfig.strings (cluster : ClusterConfig) : List ByteBuffer :=
  cluster.clusterName :: cluster.seedNodes

def PoolConfig.sizes (pool : PoolConfig) : List UInt64 :=
  [pool.memoryContribution, pool.diskContribution]

def PerformanceConfig.sizes (perf : PerformanceConfig) : List UInt64 :=
  [perf.ioThreads, perf.workerThreads, perf.maxConcurrentDiskOps, perf.maxConcurrentNetworkOps,
   perf.prefetchChunks]

/-- Every section has the keys and values of a section. -/
theorem MemoryCacheConfig.isSection_members (memory : MemoryCacheConfig D) :
    IsSection (memory.members io) where
  names := by simp [MemoryCacheConfig.members, fieldNames]
  values := by simp [MemoryCacheConfig.members]

/-- The memory section is read back, with what is left of the watermarks. -/
theorem loadMemory_sectionText (memory : MemoryCacheConfig D)
    (hsizes : ∀ n ∈ memory.sizes, n.toNat < 2 ^ 63) :
    loadMemory io (sectionText (memory.members io)) = (do
      let highWatermark ← io.reread memory.highWatermark (io.literal 0.95)
      let lowWatermark ← io.reread memory.lowWatermark (io.literal 0.85)
      return { memory with highWatermark, lowWatermark }) := by
  have hms := memory.isSection_members io
  simp only [MemoryCacheConfig.sizes, List.forall_mem_cons] at hsizes
  obtain ⟨hmax, hghost, _⟩ := hsizes
  rw [loadMemory,
    getSize_sectionText hms "max_size" hmax rfl,
    getSize_sectionText hms "arc_ghost_size" hghost rfl,
    getDouble_sectionText hms "high_watermark" io rfl,
    getDouble_sectionText hms "low_watermark" io rfl]
  rfl

theorem DiskCacheConfig.isSection_members (hpath : IsPlain disk.path) :
    IsSection (disk.members io) where
  names := by simp [DiskCacheConfig.members, fieldNames]
  values := by simp [DiskCacheConfig.members, hpath]

/-- No watermark is printed as `true`. -/
theorem trueBehind_watermarks (high low : D) : trueBehind 4 sectionEnd
    [("high_watermark", io.text high), ("low_watermark", io.text low)] = false := by
  have hnumber : ∀ d, 116 ∉ io.text d := fun d =>
    notMem_of_isNumberChar (fun c => Shown.isNumberChar_of_mem_text) rfl
  rw [trueBehind_cons (hnumber high) (by decide), trueBehind_cons (hnumber low) (by decide),
    trueBehind_nil (by decide)]

/-- The search for the value of `use_direct_io` goes on to that of `use_fallocate`. -/
theorem loadDisk_sectionText (hpath : IsPlain disk.path)
    (hsizes : ∀ n ∈ disk.sizes, n.toNat < 2 ^ 63) :
    loadDisk io (sectionText (disk.members io)) = (do
      let highWatermark ← io.reread disk.highWatermark (io.literal 0.90)
      let lowWatermark ← io.reread disk.lowWatermark (io.literal 0.80)
      return { disk with
        path := if disk.path.isEmpty then ascii "/var/cache/elcache" else disk.path
        useDirectIo := disk.useDirectIo || disk.useFallocate
        highWatermark
        lowWatermark }) := by
  have hms := DiskCacheConfig.isSection_members io hpath
  simp only [DiskCacheConfig.sizes, List.forall_mem_cons] at hsizes
  rw [loadDisk,
    getString_sectionText hms "path" hpath.notMem.1 rfl,
    getSize_sectionText hms "max_size" hsizes.1 rfl,
    getBool_sectionText hms "use_direct_io" rfl,
    getBool_sectionText hms "use_fallocate" rfl,
    getDouble_sectionText hms "high_watermark" io rfl,
    getDouble_sectionText hms "low_watermark" io rfl,
    trueBehind_cons_bool (by decide),
    trueBehind_watermarks,
    Bool.or_false]
  rfl

theorem NetworkConfig.isSection_members (hstrings : ∀ w ∈ network.strings, IsPlain w) :
    IsSection network.members where
  names := by simp [NetworkConfig.members, fieldNames]
  values := by
    simp only [NetworkConfig.strings, List.forall_mem_cons] at hstrings
    simp [NetworkConfig.members, hstrings]

/-- The network section is read back as it was written. -/
theorem loadNetwork_sectionText (hsizes : ∀ n ∈ network.sizes, n.toNat < 2 ^ 63)
    (hstrings : ∀ w ∈ network.strings, IsPlain w) :
    loadNetwork (sectionText network.members) = .ok network := by
  have hms := NetworkConfig.isSection_members hstrings
  simp only [NetworkConfig.sizes, List.forall_mem_cons] at hsizes
  simp only [NetworkConfig.strings, List.forall_mem_cons] at hstrings
  obtain ⟨hsize, hconnections, _⟩ := hsizes
  obtain ⟨hbind, hsocket, hshm, _⟩ := hstrings
  rw [loadNetwork,
    getString_sectionText hms "bind_address" hbind.notMem.1 rfl,
    getPort_sectionText hms "cluster_port" rfl,
    getPort_sectionText hms "http_port" rfl,
    getPort_sectionText hms "sdk_port" rfl,
    getString_sectionText hms "unix_socket_path" hsocket.notMem.1 rfl,
    getString_sectionText hms "shm_path" hshm.notMem.1 rfl,
    getSize_sectionText hms "shm_size" hsize rfl,
    getSize_sectionText hms "max_connections" hconnections rfl]
  rfl

theorem ClusterConfig.isSection_members (hstrings : ∀ w ∈ cluster.strings, IsPlain w) :
    IsSection cluster.members where
  names := by simp [ClusterConfig.members, fieldNames]
  values := by
    obtain ⟨hname, hseeds⟩ := List.forall_mem_cons.1 hstrings
    simp [ClusterConfig.members, hname, isValue_listText hseeds]

/-- So is the cluster section. -/
theorem loadCluster_sectionText (hsizes : ∀ n ∈ cluster.sizes, n.toNat < 2 ^ 63)
    (hstrings : ∀ w ∈ cluster.strings, IsPlain w) :
    loadCluster (sectionText cluster.members) = .ok cluster := by
  have hms := ClusterConfig.isSection_members hstrings
  have hnumber : 116 ∉ sizeText cluster.virtualNodes :=
    notMem_of_isNumberChar (fun c => isNumberChar_of_mem_sizeText) rfl
  simp only [ClusterConfig.sizes, List.forall_mem_cons] at hsizes
  obtain ⟨hfanout, hreplication, hnodes, _⟩ := hsizes
  obtain ⟨hname, hseeds⟩ := List.forall_mem_cons.1 hstrings
  rw [loadCluster,
    getString_sectionText hms "cluster_name" hname.notMem.1 rfl,
    getStringArray_sectionText hms "seed_nodes" hseeds rfl,
    getCount_sectionText hms "gossip_interval_ms" rfl,
    getCount_sectionText hms "failure_detection_timeout_ms" rfl,
    getSize_sectionText hms "gossip_fanout" hfanout rfl,
    getSize_sectionText hms "replication_factor" hreplication rfl,
    getBool_sectionText hms "prefer_local" rfl,
    getSize_sectionText hms "virtual_nodes" hnodes rfl,
    trueBehind_cons hnumber (by decide),
    trueBehind_nil (by decide),
    Bool.or_false]
  rfl

theorem PoolConfig.isSection_members (pool : PoolConfig) : IsSection pool.members where
  names := by simp [PoolConfig.members, fieldNames]
  values := by simp [PoolConfig.members]

/-- The search for the value of `accept_remote_reads` goes on to that of
`accept_remote_writes`. -/
theorem loadPool_sectionText (pool : PoolConfig) (hsizes : ∀ n ∈ pool.sizes, n.toNat < 2 ^ 63) :
    loadPool (sectionText pool.members) =
      .ok { pool with acceptRemoteReads := pool.acceptRemoteReads || pool.acceptRemoteWrites } := by
  have hms := pool.isSection_members
  simp only [PoolConfig.sizes, List.forall_mem_cons] at hsizes
  obtain ⟨hmemory, hdisk, _⟩ := hsizes
  rw [loadPool,
    getSize_sectionText hms "memory_contribution" hmemory rfl,
    getSize_sectionText hms "disk_contribution" hdisk rfl,
    getBool_sectionText hms "accept_remote_reads" rfl,
    getBool_sectionText hms "accept_remote_writes" rfl,
    trueBehind_cons_bool (by decide),
    trueBehind_nil (by decide),
    Bool.or_false]
  rfl

theorem PerformanceConfig.isSection_members (perf : PerformanceConfig) :
    IsSection perf.members where
  names := by simp [PerformanceConfig.members, fieldNames]
  values := by simp [PerformanceConfig.members]

/-- The interval of the metrics is not read back; its default takes its place. -/
theorem loadPerformance_sectionText (perf : PerformanceConfig)
    (hsizes : ∀ n ∈ perf.sizes, n.toNat < 2 ^ 63) :
    loadPerformance (sectionText perf.members) = .ok { perf with metricsInterval := 60 } := by
  have hms := perf.isSection_members
  have hnumber : 116 ∉ countText perf.metricsInterval :=
    notMem_of_isNumberChar (fun c => isNumberChar_of_mem_countText) rfl
  simp only [PerformanceConfig.sizes, List.forall_mem_cons] at hsizes
  obtain ⟨hio, hworker, hdisk, hnetwork, hprefetch, _⟩ := hsizes
  rw [loadPerformance,
    getSize_sectionText hms "io_threads" hio rfl,
    getSize_sectionText hms "worker_threads" hworker rfl,
    getSize_sectionText hms "max_concurrent_disk_ops" hdisk rfl,
    getSize_sectionText hms "max_concurrent_network_ops" hnetwork rfl,
    getSize_sectionText hms "prefetch_chunks" hprefetch rfl,
    getBool_sectionText hms "enable_metrics" rfl,
    trueBehind_cons hnumber (by decide),
    trueBehind_nil (by decide),
    Bool.or_false]
  rfl

end

end ElCache.ConfigFile
