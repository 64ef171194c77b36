import ElCache.Http.Handler

/-!
# Numbers in requests

Which numbers a handler converts, as texts cut out of the request (`Endpoint.numbers`), and what
becomes of a text that is no number. `handle_sparse_create` and `handle_sparse_write` catch what the
conversion throws and answer 400; in the other handlers it leaves the handler
(`handlers_answer_iff`).
-/

namespace ElCache

open Text

/-! ## What the parsers convert -/

/-- The texts `parse_range_header` converts, behind the equals sign. -/
def boundsNumbers (rangeVal : ByteBuffer) : List ByteBuffer :=
  match find (ascii "-") rangeVal with
  | none => []
  | some dash =>
    (if 0 < dash then [rangeVal.take dash] else []) ++
      if dash < rangeVal.length - 1 then [rangeVal.drop (dash + 1)] else []

/-- The texts `parse_range_header` converts. -/
def rangeNumbers (rangeStr : ByteBuffer) : List ByteBuffer :=
  match find (ascii "=") rangeStr with
  | none => []
  | some eq => boundsNumbers (rangeStr.drop (eq + 1))

/-- The texts of a query parameter that `handle_get` converts. -/
def pairNumbers (rangeStr : ByteBuffer) : List ByteBuffer :=
  match find (ascii "-") rangeStr with
  | none => []
  | some dash => [rangeStr.take dash, rangeStr.drop (dash + 1)]

/-- The texts of the query that `handle_get` converts. -/
def queryNumbers (query : ByteBuffer) : List ByteBuffer :=
  match find (ascii "range=") query with
  | none => []
  | some rangePos => pairNumbers (query.drop (rangePos + 6))

/-- The texts of a `Content-Range` that `handle_sparse_write` converts, behind the unit. -/
def rangePartNumbers (rangePart : ByteBuffer) : List ByteBuffer :=
  match find (ascii "-") rangePart with
  | none => []
  | some dashPos => [rangePart.take dashPos]

/-- The texts `handle_sparse_write` converts. -/
def offsetNumbers (req : HttpRequest) : List ByteBuffer :=
  if (req.header "Content-Range").isEmpty then
    match find (ascii "offset=") req.query with
    | none => []
    | some offsetPos => [req.query.drop (offsetPos + 7)]
  else
    match find (ascii "bytes ") (req.header "Content-Range") with
    | none => []
    | some bytesPos => rangePartNumbers ((req.header "Content-Range").drop (bytesPos + 6))

section
variable {ε α β γ : Type}

/-- Two conversions, one after the other. -/
theorem exists_bind_bind_eq_ok {x : Except ε α} {y : Except ε β} {g : α → β → γ} :
    (∃ c, (x >>= fun a => y >>= fun b => .ok (g a b)) = .ok c) ↔
      (∃ a, x = .ok a) ∧ ∃ b, y = .ok b := by
  constructor
  · rintro ⟨c, hc⟩
    obtain ⟨a, ha, hc⟩ := exists_of_bind_eq_ok hc
    obtain ⟨b, hb, -⟩ := exists_of_bind_eq_ok hc
    exact ⟨⟨a, ha⟩, b, hb⟩
  · rintro ⟨⟨a, rfl⟩, b, rfl⟩
    exact ⟨_, rfl⟩

theorem exists_map_eq_ok {x : Except ε α} {f : α → β} :
    (∃ b, x.map f = .ok b) ↔ ∃ a, x = .ok a := by
  cases x with
  | ok a => exact ⟨fun _ => ⟨a, rfl⟩, fun _ => ⟨f a, rfl⟩⟩
  | error e =>
    constructor
    · rintro ⟨b, hb⟩
      cases hb
    · rintro ⟨a, ha⟩
      cases ha

/-- All elements of a list that is there under a condition. -/
theorem forall_mem_ite {p : Prop} [Decidable p] {a : α} {Q : α → Prop} :
    (∀ t ∈ (if p then [a] else []), Q t) ↔ (p → Q a) := by
  split
  · next hp => simp [hp]
  · next hp => simp [hp]

end

theorem exists_numberOr_eq_ok (p : Prop) [Decidable p] (text : ByteBuffer) (n : Nat) :
    (∃ m, numberOr (decide p) (.ok text) n = .ok m) ↔ (p → Unsigned text) := by
  unfold numberOr
  split
  · next hp => exact isOk_stoull_iff.trans (imp_iff_right (of_decide_eq_true hp)).symm
  · next hp => exact ⟨fun _ h => absurd (decide_eq_true h) hp, fun _ => ⟨n, rfl⟩⟩

theorem exists_parseBounds_eq_ok {rangeVal : ByteBuffer} {totalSize : Nat} :
    (∃ r, parseBounds rangeVal totalSize = .ok r) ↔
      ∀ t ∈ boundsNumbers rangeVal, Unsigned t := by
  unfold parseBounds boundsNumbers
  cases hdash : find (ascii "-") rangeVal with
  | none => simp
  | some dash =>
    have hbehind : substr rangeVal (dash + 1) = .ok (rangeVal.drop (dash + 1)) := substr_find hdash
    simp only [hbehind, substrN_zero]
    rw [exists_bind_bind_eq_ok, exists_numberOr_eq_ok, exists_numberOr_eq_ok,
      List.forall_mem_append, forall_mem_ite, forall_mem_ite]

/-- `parse_range_header` returns if the texts it converts are numbers. -/
theorem exists_parseRange_eq_ok {rangeStr : ByteBuffer} {totalSize : Nat} :
    (∃ r, parseRange rangeStr totalSize = .ok r) ↔ ∀ t ∈ rangeNumbers rangeStr, Unsigned t := by
  unfold parseRange rangeNumbers
  cases heq : find (ascii "=") rangeStr with
  | none => simp
  | some eq =>
    have hval : substr rangeStr (eq + 1) = .ok (rangeStr.drop (eq + 1)) := substr_find heq
    simp only [hval]
    exact exists_parseBounds_eq_ok

theorem exists_parsePair_eq_ok {rangeStr : ByteBuffer} :
    (∃ r, parsePair rangeStr = .ok r) ↔ ∀ t ∈ pairNumbers rangeStr, Unsigned t := by
  unfold parsePair pairNumbers
  cases hdash : find (ascii "-") rangeStr with
  | none => simp
  | some dash =>
    have hbehind : substr rangeStr (dash + 1) = .ok (rangeStr.drop (dash + 1)) := substr_find hdash
    simp only [hbehind, substrN_zero]
    rw [exists_bind_bind_eq_ok, List.forall_mem_cons, List.forall_mem_singleton]
    exact and_congr isOk_stoull_iff isOk_stoull_iff

/-- The query is parsed if the texts to convert are numbers. -/
theorem exists_parseQueryRange_eq_ok {query : ByteBuffer} :
    (∃ r, parseQueryRange query = .ok r) ↔ ∀ t ∈ queryNumbers query, Unsigned t := by
  unfold parseQueryRange queryNumbers
  cases hpos : find (ascii "range=") query with
  | none => simp
  | some rangePos =>
    have hval : substr query (rangePos + 6) = .ok (query.drop (rangePos + 6)) := substr_find hpos
    simp only [hval]
    exact exists_parsePair_eq_ok

/-! ## Endpoints -/

/-- The handlers that convert numbers. -/
inductive Endpoint where
  | get | put | sparseCreate | sparseWrite | sparseFinalize
  deriving DecidableEq, Repr

/-- A text to be converted. -/
inductive NumberText where
  | unsigned (text : ByteBuffer)
  | signed (text : ByteBuffer)

/-- The conversion succeeds. -/
def NumberText.Parses : NumberText → Prop
  | unsigned text => Unsigned text
  | signed text => Signed text

/-- The descriptor that `metadata` looks at: that of the memory level, or else that of the disk
level. -/
def CacheCoordinator.descriptor (c : CacheCoordinator) (key : CacheKey) : Option ValueDescriptor :=
  (c.memory.bind fun m => m.descriptors key).or (c.disk.bind fun d => d.descriptors key)

/-- The upload of the key is there and complete. -/
def SparseCache.ready (s : SparseCache) (key : ByteBuffer) : Bool :=
  (s.entries key).any SparseEntry.isComplete

/-- A header field that is converted unless it is empty. -/
def fieldNumber (kind : ByteBuffer → NumberText) (text : ByteBuffer) : List NumberText :=
  if text.isEmpty then [] else [kind text]

namespace Endpoint

/-- The path of a request for a key. -/
def path (key : ByteBuffer) : Endpoint → ByteBuffer
  | get => ascii "/cache/" ++ key
  | put => ascii "/cache/" ++ key
  | sparseCreate => ascii "/sparse/" ++ key
  | sparseWrite => ascii "/sparse/" ++ key
  | sparseFinalize => ascii "/sparse/" ++ (key ++ ascii "/finalize")

/-- The handler. -/
def handler (H : ByteBuffer → Hash128) (env : HttpEnv) (req : HttpRequest) :
    Endpoint → Handling HttpResponse
  | get => HttpHandler.handleGet H env req
  | put => HttpHandler.handlePut H env req
  | sparseCreate => HttpHandler.handleSparseCreate req
  | sparseWrite => HttpHandler.handleSparseWrite env req
  | sparseFinalize => HttpHandler.handleSparseFinalize H env req

/-- The texts a handler converts, for a key that is not empty. -/
def numbers (key : ByteBuffer) (req : HttpRequest) (s : HttpHandler) : Endpoint → List NumberText
  | get =>
    ((if req.hasRangeHeader && (s.cache.descriptor ⟨key⟩).isSome
        then rangeNumbers (req.header "Range") else []) ++
      queryNumbers req.query).map .unsigned
  | put =>
    if maxKeySize < key.length then []
    else fieldNumber .signed (req.header "X-ElCache-TTL") ++
      fieldNumber .unsigned (req.header "X-ElCache-Flags")
  | sparseCreate => fieldNumber .unsigned (req.header "X-ElCache-Size")
  | sparseWrite => (offsetNumbers req).map .unsigned
  | sparseFinalize =>
    if s.sparse.ready key then fieldNumber .signed (req.header "X-ElCache-TTL") else []

/-- One of the texts the handler converts is no number. -/
def Malformed (key : ByteBuffer) (req : HttpRequest) (s : HttpHandler) (e : Endpoint) : Prop :=
  key ≠ [] ∧ ∃ t ∈ e.numbers key req s, ¬ t.Parses

/-- The handler catches what a conversion throws. -/
def Guarded : Endpoint → Prop
  | sparseCreate => True
  | sparseWrite => True
  | _ => False

/-- The handler answers, with a 400 if a number cannot be converted. -/
def Answers (H : ByteBuffer → Hash128) (env : HttpEnv) (key : ByteBuffer) (req : HttpRequest)
    (s : HttpHandler) (e : Endpoint) : Prop :=
  ∃ resp, (Handling.outcome (e.handler H env req) s).1 = .ok resp ∧
    (e.Malformed key req s → resp.statusCode = 400)

end Endpoint

/-! ## Handlers that let a conversion error through -/

theorem substr_path_cache (key : ByteBuffer) : substr (ascii "/cache/" ++ key) 7 = .ok key :=
  substr_append (ascii "/cache/") key

theorem substr_path_sparse (key : ByteBuffer) : substr (ascii "/sparse/" ++ key) 8 = .ok key :=
  substr_append (ascii "/sparse/") key

/-- `metadata` changes nothing. -/
theorem CacheCoordinator.run_metadata (key : CacheKey) (c : CacheCoordinator) :
    (metadata key).run c = ((c.descriptor key).map ValueDescriptor.metadata, c) := by
  obtain ⟨config, memory, disk⟩ := c
  have hmem : (onMemory (MemoryCache.metadata key)).run ⟨config, memory, disk⟩ =
      (memory.map fun m => (m.descriptors key).map ValueDescriptor.metadata,
        ⟨config, memory, disk⟩) := by
    cases memory with
    | none => rfl
    | some m => rfl
  have hdisk : (onDisk (DiskCache.metadata key)).run ⟨config, memory, disk⟩ =
      (disk.map fun d => (d.descriptors key).map ValueDescriptor.metadata,
        ⟨config, memory, disk⟩) := by
    cases disk with
    | none => rfl
    | some d => rfl
  have hjoin : ∀ {σ : Type} (level : Option σ) (f : σ → Option ValueDescriptor),
      (level.map fun l => (f l).map ValueDescriptor.metadata).join =
        (level.bind f).map ValueDescriptor.metadata := by
    intro σ level f
    cases level with
    | none => rfl
    | some l => rfl
  rw [metadata, descriptor, Prog.run_bind, hmem, hjoin]
  cases memory.bind fun m => m.descriptors key with
  | some d => rfl
  | none =>
    simp only [Option.map_none, Prog.run_bind, hdisk, hjoin]
    rfl

namespace HttpHandler

open Handling Endpoint

variable {H : ByteBuffer → Hash128} {env : HttpEnv} {key : ByteBuffer} {req : HttpRequest}
  {s : HttpHandler}

/-- The range the header field asks for, if the size of the value is known. -/
def rangeFor (req : HttpRequest) : Option Nat → Except StdException (Option Range)
  | none => .ok none
  | some size =>
    if req.hasRangeHeader then (parseRange (req.header "Range") size).map some else .ok none

/-- The range of the header, which needs the size of the value. -/
theorem outcome_headerRange (key : ByteBuffer) (req : HttpRequest) (s : HttpHandler) :
    outcome (headerRange key req) s =
      (rangeFor req ((s.cache.descriptor ⟨key⟩).map fun d => d.metadata.totalSize), s) := by
  unfold headerRange
  split
  · next hheader =>
    have hne : (req.header "Range").isEmpty = false := by
      simpa [HttpRequest.hasRangeHeader] using hheader
    rw [outcome_bind_ok (outcome_onCache _ s), CacheCoordinator.run_metadata]
    cases s.cache.descriptor ⟨key⟩ with
    | none => rfl
    | some d =>
      simp only [Option.map_some, rangeFor, hheader, if_true, HttpRequest.parseRangeHeader, hne,
        Bool.false_eq_true, if_false]
      cases hparse : parseRange (req.header "Range") d.metadata.totalSize with
      | error e => rfl
      | ok range => rfl
  · next hheader =>
    cases s.cache.descriptor ⟨key⟩ with
    | none => rfl
    | some d => exact congrArg (·, s) (if_neg hheader).symm

theorem exists_rangeFor_eq_ok {req : HttpRequest} {size : Option Nat} :
    (∃ r, rangeFor req size = .ok r) ↔
      ∀ t ∈ (if req.hasRangeHeader && size.isSome then rangeNumbers (req.header "Range") else []),
        Unsigned t := by
  cases size with
  | none => simp [rangeFor]
  | some n =>
    unfold rangeFor
    cases req.hasRangeHeader with
    | false => simp
    | true => exact exists_map_eq_ok.trans exists_parseRange_eq_ok

/-- A field is converted if it is empty or a number. -/
theorem exists_optionalNumber_eq_ok {α : Type} {convert : ByteBuffer → Except StdException α}
    {kind : ByteBuffer → NumberText}
    (hconvert : ∀ text, (∃ n, convert text = .ok n) ↔ (kind text).Parses) (text : ByteBuffer) :
    (∃ n, optionalNumber convert text = .ok n) ↔ ∀ t ∈ fieldNumber kind text, t.Parses := by
  unfold optionalNumber fieldNumber
  split
  · simp
  · rw [exists_map_eq_ok, hconvert, List.forall_mem_singleton]

theorem forall_mem_unsigned {texts : List ByteBuffer} :
    (∀ t ∈ texts.map NumberText.unsigned, t.Parses) ↔ ∀ t ∈ texts, Unsigned t :=
  List.forall_mem_map

theorem returns_readValueOf (H : ByteBuffer → Hash128) (env : HttpEnv) (req : HttpRequest)
    (key : ByteBuffer) (fromHeader : Option Range) (s : HttpHandler) :
    Returns (readValueOf H env req key fromHeader) s ↔
      ∃ r, parseQueryRange req.query = .ok r := by
  unfold readValueOf
  rw [returns_orThrow_bind]
  exact exists_congr fun r => and_iff_left (returns_onCache_bind.2 (returns_pure _ _))

theorem returns_handleGet (H : ByteBuffer → Hash128) (env : HttpEnv) (s : HttpHandler)
    (hpath : req.path = Endpoint.path key .get) (hkey : key ≠ []) :
    Returns (handleGet H env req) s ↔ ∀ t ∈ Endpoint.numbers key req s .get, t.Parses := by
  have hempty : ¬ key.isEmpty = true := by simpa using hkey
  unfold handleGet
  rw [hpath, Endpoint.path, substr_path_cache, orThrow_ok_bind, if_neg hempty, Endpoint.numbers,
    forall_mem_unsigned, List.forall_mem_append, ← exists_parseQueryRange_eq_ok, returns_bind,
    outcome_headerRange]
  simp only [returns_readValueOf, exists_and_right, exists_rangeFor_eq_ok, Option.isSome_map]

/-- Storing a value throws nothing. -/
theorem returns_writeValueOf (H : ByteBuffer → Hash128) (env : HttpEnv) (req : HttpRequest)
    (key : ByteBuffer) (ttl : Option Int) (flags : Option Nat) (s : HttpHandler) :
    Returns (writeValueOf H env req key ttl flags) s := by
  unfold writeValueOf
  rw [returns_onCache_bind]
  split
  · exact returns_pure _ _
  · exact returns_pure _ _

theorem returns_handlePut (H : ByteBuffer → Hash128) (env : HttpEnv) (s : HttpHandler)
    (hpath : req.path = Endpoint.path key .put) (hkey : key ≠ []) :
    Returns (handlePut H env req) s ↔ ∀ t ∈ Endpoint.numbers key req s .put, t.Parses := by
  have hempty : ¬ key.isEmpty = true := by simpa using hkey
  unfold handlePut
  rw [hpath, Endpoint.path, substr_path_cache, orThrow_ok_bind, if_neg hempty, Endpoint.numbers]
  split
  · simp [returns_pure]
  · rw [List.forall_mem_append, ← exists_optionalNumber_eq_ok fun _ => isOk_stoll_iff,
      ← exists_optionalNumber_eq_ok fun _ => isOk_stoull_iff]
    simp only [returns_orThrow_bind, returns_writeValueOf, and_true, exists_and_right]

/-- The handler of a finalize request finds the key in the path. -/
theorem handleSparseFinalize_eq (H : ByteBuffer → Hash128) (env : HttpEnv)
    (hpath : req.path = Endpoint.path key .sparseFinalize) :
    handleSparseFinalize H env req =
      if key.isEmpty then pure (.badRequest "Missing key") else finalizeUpload H env req key := by
  have hpos : rfind (ascii "/finalize") req.path = some (8 + key.length) := by
    have h := rfind_append (show ascii "/finalize" ≠ [] by decide) (ascii "/sparse/" ++ key)
    rw [List.length_append, List.append_assoc] at h
    rw [hpath]
    exact h
  have hcut : substrN req.path 8 (keyLength (8 + key.length)) = .ok key := by
    have hlength : keyLength (8 + key.length) = key.length := by
      rw [keyLength, if_neg (by omega), Nat.add_sub_cancel_left]
    rw [hpath, hlength, Endpoint.path, substrN, substr_path_sparse]
    exact congrArg Except.ok List.take_left
  unfold handleSparseFinalize
  simp only [hpos, hcut, orThrow_ok_bind]

theorem returns_storeUpload (H : ByteBuffer → Hash128) (env : HttpEnv) (key data : ByteBuffer)
    (ttl : Option Int) (s : HttpHandler) : Returns (storeUpload H env key data ttl) s := by
  unfold storeUpload
  rw [returns_onCache_bind]
  split
  · exact returns_pure _ _
  · exact returns_pure _ _

/-- A finalize throws exactly if the time to live is no number. -/
theorem returns_handleSparseFinalize (H : ByteBuffer → Hash128) (env : HttpEnv) (s : HttpHandler)
    (hpath : req.path = Endpoint.path key .sparseFinalize) (hkey : key ≠ []) :
    Returns (handleSparseFinalize H env req) s ↔
      ∀ t ∈ Endpoint.numbers key req s .sparseFinalize, t.Parses := by
  have hempty : ¬ key.isEmpty = true := by simpa using hkey
  rw [handleSparseFinalize_eq H env hpath, if_neg hempty, finalizeUpload, returns_onSparse_bind,
    Endpoint.numbers, SparseCache.ready, SparseCache.finalize]
  cases s.sparse.entries key with
  | none => simp [afterFinalize, returns_pure]
  | some e =>
    cases hcomplete : e.isComplete with
    | false => simp [afterFinalize, hcomplete, returns_onSparse_bind, returns_pure]
    | true =>
      simp only [hcomplete, Option.any_some, if_true, afterFinalize]
      rw [if_neg (by decide), if_neg (by decide), returns_orThrow_bind,
        ← exists_optionalNumber_eq_ok fun _ => isOk_stoll_iff]
      simp only [returns_storeUpload, and_true]

/-! ## Handlers that catch it -/

theorem returns_createUpload (key : ByteBuffer) (totalSize : Nat) (s : HttpHandler) :
    Returns (createUpload key totalSize) s := by
  unfold createUpload
  split
  · exact returns_pure _ _
  · rw [returns_onSparse_bind]
    split
    · exact returns_pure _ _
    · exact returns_pure _ _

theorem returns_writeUpload (env : HttpEnv) (key : ByteBuffer) (offset : Nat) (body : ByteBuffer)
    (s : HttpHandler) : Returns (writeUpload env key offset body) s := by
  unfold writeUpload
  split
  · exact returns_pure _ _
  · rw [returns_onSparse_bind]
    split
    · exact returns_onSparse_bind.2 (returns_pure _ _)
    · rw [returns_onSparse_bind]
      split
      · exact returns_pure _ _
      · exact returns_pure _ _

/-- A create answers a malformed size instead of throwing. -/
theorem answers_handleSparseCreate (H : ByteBuffer → Hash128) (env : HttpEnv) (s : HttpHandler)
    (hpath : req.path = Endpoint.path key .sparseCreate) :
    Endpoint.Answers H env key req s .sparseCreate := by
  rw [Endpoint.Answers, Endpoint.handler, handleSparseCreate, hpath, Endpoint.path,
    substr_path_sparse, orThrow_ok_bind]
  split
  · exact ⟨_, rfl, fun _ => rfl⟩
  · split
    · exact ⟨_, rfl, fun _ => rfl⟩
    · next hsize =>
      cases hparse : stoull (req.header "X-ElCache-Size") with
      | error e => exact ⟨_, rfl, fun _ => rfl⟩
      | ok totalSize =>
        obtain ⟨resp, hresp⟩ := returns_createUpload key totalSize s
        refine ⟨resp, hresp, ?_⟩
        rintro ⟨-, t, ht, hbad⟩
        rw [Endpoint.numbers, fieldNumber, if_neg hsize, List.mem_singleton] at ht
        rw [ht] at hbad
        exact absurd (isOk_stoull_iff.1 ⟨totalSize, hparse⟩) hbad

/-- What becomes of a conversion inside a `try`. -/
theorem caught_cases (text : ByteBuffer) (msg : String) :
    (∃ n, caught (stoull text) msg = .ok n ∧ Unsigned text) ∨
      caught (stoull text) msg = .error (.badRequest msg) := by
  cases hparse : stoull text with
  | ok n => exact .inl ⟨n, rfl, isOk_stoull_iff.1 ⟨n, hparse⟩⟩
  | error e => exact .inr rfl

/-- The offset of a write is parsed, or refused with a 400. -/
theorem outcome_writeOffset (req : HttpRequest) (s : HttpHandler) :
    ∃ parsed, outcome (writeOffset req) s = (.ok parsed, s) ∧
      ((∃ n, parsed = .ok n ∧ ∀ t ∈ offsetNumbers req, Unsigned t) ∨
        ∃ msg, parsed = .error (.badRequest msg)) := by
  unfold writeOffset offsetNumbers
  split
  · cases hpos : find (ascii "offset=") req.query with
    | none => exact ⟨.ok 0, rfl, .inl ⟨0, rfl, by simp⟩⟩
    | some pos =>
      have hcut : substr req.query (pos + 7) = .ok (req.query.drop (pos + 7)) := substr_find hpos
      refine ⟨caught (stoull (req.query.drop (pos + 7))) "Invalid offset parameter", ?_, ?_⟩
      · simp only [hcut]
        rfl
      · rcases caught_cases (req.query.drop (pos + 7)) "Invalid offset parameter" with
          ⟨n, hn, hgood⟩ | hbad
        · exact .inl ⟨n, hn, by simpa using hgood⟩
        · exact .inr ⟨_, hbad⟩
  · cases hpos : find (ascii "bytes ") (req.header "Content-Range") with
    | none => exact ⟨.ok 0, rfl, .inl ⟨0, rfl, by simp⟩⟩
    | some pos =>
      have hcut : substr (req.header "Content-Range") (pos + 6) =
          .ok ((req.header "Content-Range").drop (pos + 6)) := substr_find hpos
      simp only [hcut, orThrow_ok_bind]
      refine ⟨_, rfl, ?_⟩
      unfold rangePartOffset rangePartNumbers
      cases find (ascii "-") ((req.header "Content-Range").drop (pos + 6)) with
      | none => exact .inl ⟨0, rfl, by simp⟩
      | some dash =>
        rcases caught_cases (((req.header "Content-Range").drop (pos + 6)).take dash)
          "Invalid Content-Range" with ⟨n, hn, hgood⟩ | hbad
        · exact .inl ⟨n, hn, by simpa using hgood⟩
        · exact .inr ⟨_, hbad⟩

/-- A write answers a malformed offset instead of throwing. -/
theorem answers_handleSparseWrite (H : ByteBuffer → Hash128) (env : HttpEnv) (s : HttpHandler)
    (hpath : req.path = Endpoint.path key .sparseWrite) :
    Endpoint.Answers H env key req s .sparseWrite := by
  rw [Endpoint.Answers, Endpoint.handler, handleSparseWrite, hpath, Endpoint.path,
    substr_path_sparse, orThrow_ok_bind]
  split
  · exact ⟨_, rfl, fun _ => rfl⟩
  · obtain ⟨parsed, hparsed, hcases⟩ := outcome_writeOffset req s
    rw [outcome_bind_ok hparsed]
    rcases hcases with ⟨n, rfl, hgood⟩ | ⟨msg, rfl⟩
    · obtain ⟨resp, hresp⟩ := returns_writeUpload env key n req.body.bytes s
      refine ⟨resp, hresp, ?_⟩
      rintro ⟨-, t, ht, hbad⟩
      exact absurd (forall_mem_unsigned.2 hgood t ht) hbad
    · exact ⟨_, rfl, fun _ => rfl⟩

end HttpHandler

/-! ## All handlers -/

namespace Endpoint

open Handling HttpHandler

variable {H : ByteBuffer → Hash128} {env : HttpEnv} {key : ByteBuffer} {req : HttpRequest}
  {s : HttpHandler} {e : Endpoint}

/-- A request without a key is refused. -/
theorem outcome_missing_key (H : ByteBuffer → Hash128) (env : HttpEnv) (s : HttpHandler)
    (hpath : req.path = e.path []) :
    ∃ msg, outcome (e.handler H env req) s = (.ok (.badRequest msg), s) := by
  cases e with
  | get => exact ⟨"Missing cache key", by rw [handler, handleGet, hpath]; rfl⟩
  | put => exact ⟨"Missing cache key", by rw [handler, handlePut, hpath]; rfl⟩
  | sparseCreate => exact ⟨"Missing key", by rw [handler, handleSparseCreate, hpath]; rfl⟩
  | sparseWrite => exact ⟨"Missing key", by rw [handler, handleSparseWrite, hpath]; rfl⟩
  | sparseFinalize =>
    exact ⟨"Missing key", by rw [handler, handleSparseFinalize_eq H env hpath]; rfl⟩

/-- The handlers without a `try` return if every number they convert is one. -/
theorem returns_iff (hpath : req.path = e.path key) (hkey : key ≠ []) (he : ¬ e.Guarded) :
    Returns (e.handler H env req) s ↔ ∀ t ∈ e.numbers key req s, t.Parses := by
  cases e with
  | get => exact returns_handleGet H env s hpath hkey
  | put => exact returns_handlePut H env s hpath hkey
  | sparseFinalize => exact returns_handleSparseFinalize H env s hpath hkey
  | sparseCreate => exact absurd trivial he
  | sparseWrite => exact absurd trivial he

theorem answers_of_guarded (hpath : req.path = e.path key) (he : e.Guarded) :
    e.Answers H env key req s := by
  cases e with
  | sparseCreate => exact answers_handleSparseCreate H env s hpath
  | sparseWrite => exact answers_handleSparseWrite H env s hpath
  | get => cases he
  | put => cases he
  | sparseFinalize => cases he

/-- A request is answered, with a 400 if a number in it is malformed, exactly if it has no malformed
number or the handler catches what the conversion throws. -/
theorem handlers_answer_iff (H : ByteBuffer → Hash128) (env : HttpEnv) (e : Endpoint)
    (key : ByteBuffer) (req : HttpRequest) (hpath : req.path = e.path key) (s : HttpHandler) :
    e.Answers H env key req s ↔ (e.Malformed key req s → e.Guarded) := by
  classical
  rcases em e.Guarded with he | he
  · exact ⟨fun _ _ => he, fun _ => answers_of_guarded hpath he⟩
  · constructor
    · rintro ⟨resp, hresp, -⟩ ⟨hkey, t, ht, hbad⟩
      exact absurd ((returns_iff hpath hkey he).1 ⟨resp, hresp⟩ t ht) hbad
    · intro hgood
      have hwell : ¬ e.Malformed key req s := fun h => he (hgood h)
      obtain ⟨resp, hresp⟩ : Returns (e.handler H env req) s := by
        rcases eq_or_ne key [] with rfl | hkey
        · obtain ⟨msg, hmsg⟩ := outcome_missing_key H env s hpath
          exact ⟨_, congrArg Prod.fst hmsg⟩
        · refine (returns_iff hpath hkey he).2 fun t ht => ?_
          by_contra hbad
          exact hwell ⟨hkey, t, ht, hbad⟩
      exact ⟨resp, hresp, fun h => absurd h hwell⟩

end Endpoint

/-- Clocks at zero, no cluster, and writes that succeed. -/
def HttpEnv.quiet : HttpEnv where
  read := { memoryNow := 0, diskNow := 0 }
  memoryNow := 0
  diskNow := 0
  write := { tick := fun _ => 0 }
  formatDouble := fun _ => []

/-- A handler with an empty cache and no uploads. -/
def HttpHandler.empty : HttpHandler := ⟨.init {}, {}⟩

/-- A put of one byte with a time to live. -/
def putRequest (ttl : String) : HttpRequest where
  path := ascii "/cache/k"
  headers := (∅ : Headers).insert (ascii "X-ElCache-TTL") (ascii ttl)
  body := .single 7

/-- A put with a time to live of a minute is answered. -/
theorem handlers_answer_iff_minute :
    Endpoint.put.Answers sampleHash .quiet (ascii "k") (putRequest "60") .empty := by
  refine (Endpoint.handlers_answer_iff sampleHash .quiet .put (ascii "k") (putRequest "60") rfl
    .empty).2 ?_
  rintro ⟨-, t, ht, hbad⟩
  have ht' : t = .signed (ascii "60") := by
    rw [show Endpoint.put.numbers (ascii "k") (putRequest "60") .empty =
      [.signed (ascii "60")] from rfl] at ht
    exact List.mem_singleton.1 ht
  rw [ht'] at hbad
  exact absurd (isOk_stoll_iff.1 ⟨60, rfl⟩) hbad

/-- A put whose time to live is a word ends in an exception. -/
theorem put_word_escapes :
    (Handling.outcome (HttpHandler.handlePut sampleHash .quiet (putRequest "soon")) .empty).1 =
        .error .invalidArgument ∧
      ¬ Endpoint.put.Answers sampleHash .quiet (ascii "k") (putRequest "soon") .empty := by
  have hthrow : (Handling.outcome (HttpHandler.handlePut sampleHash .quiet (putRequest "soon"))
      .empty).1 = .error .invalidArgument := rfl
  refine ⟨hthrow, ?_⟩
  rintro ⟨resp, hresp, -⟩
  cases hresp.symm.trans hthrow

end ElCache
