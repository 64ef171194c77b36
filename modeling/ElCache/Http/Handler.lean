import ElCache.Coordinator.Cache
import ElCache.Http.Message
import ElCache.Sparse.Cache

/-!
# The HTTP handlers

The handlers of `http_api.cpp` that read and write values. They share the coordinator and the table
of sparse uploads. A handler is a program over both that answers with a response or ends in an
exception; each operation of the coordinator or the table is one step.

What the outside contributes is a parameter: the clocks, the cluster and how disk writes end
(`HttpEnv`), and the text `std::to_string` makes of a floating-point number.
-/

namespace ElCache

open Text

/-- What a handler meets. -/
structure HttpEnv where
  read : ReadEnv
  memoryNow : Timestamp
  diskNow : Timestamp
  write : WriteEnv
  formatDouble : Rat → ByteBuffer

/-- `HttpHandler`, with the global table of sparse uploads. -/
structure HttpHandler where
  cache : CacheCoordinator
  sparse : SparseCache

/-- A part of a handler: a program that may throw. -/
abbrev Handling := ExceptT StdException (Prog HttpHandler)

namespace Handling

variable {α β : Type} {k : α → Handling β} {s : HttpHandler} {h : Handling α}

/-- What a handler that runs alone answers or throws, and the state it leaves. -/
def outcome (h : Handling α) (s : HttpHandler) : Except StdException α × HttpHandler :=
  (ExceptT.run h).run s

/-- A conversion: what it throws leaves the handler. -/
def orThrow (x : Except StdException α) : Handling α := ExceptT.mk (pure x)

/-- An operation of the coordinator. -/
def onCache (p : Prog CacheCoordinator α) : Handling α :=
  ExceptT.mk (.atomic fun s => (.ok (p.run s.cache).1, { s with cache := (p.run s.cache).2 }))

/-- An operation of the table of uploads. -/
def onSparse (f : SparseCache → α × SparseCache) : Handling α :=
  ExceptT.mk (.atomic fun s => (.ok (f s.sparse).1, { s with sparse := (f s.sparse).2 }))

@[simp] theorem outcome_onCache (p : Prog CacheCoordinator α) (s : HttpHandler) :
    outcome (onCache p) s = (.ok (p.run s.cache).1, { s with cache := (p.run s.cache).2 }) := rfl

@[simp] theorem outcome_onSparse (f : SparseCache → α × SparseCache) (s : HttpHandler) :
    outcome (onSparse f) s = (.ok (f s.sparse).1, { s with sparse := (f s.sparse).2 }) := rfl

/-- A conversion that succeeds leaves no trace. -/
theorem orThrow_ok_bind (a : α) (k : α → Handling β) : orThrow (.ok a) >>= k = k a := rfl

/-- What follows runs in the state left. -/
theorem outcome_bind_ok {s' : HttpHandler} {a : α} (hh : outcome h s = (.ok a, s')) :
    outcome (h >>= k) s = outcome (k a) s' := by
  simp only [outcome, ExceptT.run_bind, Prog.run_bind] at hh ⊢
  rw [hh]

/-- Nothing follows what was thrown. -/
theorem outcome_bind_error {s' : HttpHandler} {e : StdException}
    (hh : outcome h s = (.error e, s')) : outcome (h >>= k) s = (.error e, s') := by
  simp only [outcome, ExceptT.run_bind, Prog.run_bind] at hh ⊢
  rw [hh]
  rfl

/-- What a sequence answers is what its second part answers, if the first has thrown nothing. -/
theorem outcome_bind_eq_ok_iff {b : β} :
    (outcome (h >>= k) s).1 = .ok b ↔
      ∃ a, (outcome h s).1 = .ok a ∧ (outcome (k a) (outcome h s).2).1 = .ok b := by
  obtain ⟨⟨result, s'⟩, hh⟩ : ∃ r, outcome h s = r := ⟨_, rfl⟩
  rw [hh]
  cases result with
  | ok a =>
    rw [outcome_bind_ok hh]
    refine ⟨fun h => ⟨a, rfl, h⟩, ?_⟩
    rintro ⟨a', ha, h⟩
    cases ha
    exact h
  | error e =>
    rw [outcome_bind_error hh]
    constructor
    · intro hb
      cases hb
    · rintro ⟨a, ha, -⟩
      cases ha

/-- A handler that runs alone ends without an exception. -/
def Returns (h : Handling α) (s : HttpHandler) : Prop := ∃ a, (outcome h s).1 = .ok a

theorem returns_pure (a : α) (s : HttpHandler) : Returns (pure a) s := ⟨a, rfl⟩

theorem returns_bind :
    Returns (h >>= k) s ↔ ∃ a, (outcome h s).1 = .ok a ∧ Returns (k a) (outcome h s).2 := by
  constructor
  · rintro ⟨b, hb⟩
    obtain ⟨a, ha, hb⟩ := outcome_bind_eq_ok_iff.1 hb
    exact ⟨a, ha, b, hb⟩
  · rintro ⟨a, ha, b, hb⟩
    exact ⟨b, outcome_bind_eq_ok_iff.2 ⟨a, ha, hb⟩⟩

/-- A conversion is the only thing that throws. -/
theorem returns_orThrow_bind {x : Except StdException α} :
    Returns (orThrow x >>= k) s ↔ ∃ a, x = .ok a ∧ Returns (k a) s := returns_bind

theorem returns_onCache_bind {p : Prog CacheCoordinator α} :
    Returns (onCache p >>= k) s ↔
      Returns (k (p.run s.cache).1) { s with cache := (p.run s.cache).2 } := by
  rw [returns_bind]
  refine ⟨?_, fun h => ⟨_, rfl, h⟩⟩
  rintro ⟨a, ha, h⟩
  cases ha
  exact h

theorem returns_onSparse_bind {f : SparseCache → α × SparseCache} : Returns (onSparse f >>= k) s ↔
      Returns (k (f s.sparse).1) { s with sparse := (f s.sparse).2 } := by
  rw [returns_bind]
  refine ⟨?_, fun h => ⟨_, rfl, h⟩⟩
  rintro ⟨a, ha, h⟩
  cases ha
  exact h

end Handling

namespace HttpHandler

open Handling

/-- A vector as the span that is passed on. No vector has more elements than `size_t` counts. -/
def viewOf (data : ByteBuffer) : ByteView :=
  if h : data.length < 2 ^ 64 then ⟨data, h⟩ else ⟨[], Nat.two_pow_pos 64⟩

/-! ## /cache/{key} -/

/-- The range of the header field in `handle_get`. Without metadata it is not looked at. -/
def headerRange (key : ByteBuffer) (req : HttpRequest) : Handling (Option Range) :=
  if req.hasRangeHeader then do
    let metadata ← onCache (CacheCoordinator.metadata ⟨key⟩)
    match metadata with
    | none => pure none
    | some m => do
      let range ← orThrow (req.parseRangeHeader m.totalSize)
      pure (some range)
  else pure none

/-- What `X-ElCache-Hit` says. -/
def hitSource : CacheResult → ByteBuffer
  | .hit => ascii "hit"
  | .partialHit => ascii "partial"
  | _ => ascii "miss"

/-- The two fields `handle_get` adds when the result has metadata. -/
def setMetadata (resp : HttpResponse) : Option CacheMetadata → HttpResponse
  | none => resp
  | some m => (resp.setHeader "X-ElCache-Size" (decimal m.totalSize)).setHeader
      "X-ElCache-Chunks" (decimal m.chunkCount)

/-- The end of `handle_get`: the response to the result of the read. -/
def getResponse (opts : ReadOptions) (result : ReadResult) : HttpResponse :=
  if result.result = .miss then .notFound "Key not found"
  else
    let resp : HttpResponse :=
      if result.result = .partialHit ∨ opts.range.isSome then
        .partialContent result.data result.actualRange
          ((result.metadata.map CacheMetadata.totalSize).getD result.data.length)
      else .ok result.data
    let resp := setMetadata (resp.setHeader "X-ElCache-Hit" (hitSource result.result))
      result.metadata
    (resp.setContentType "application/octet-stream").setContentLength resp.body.length

/-- The part of `handle_get` after the header: a range in the query takes the place of one in the
header. -/
def readValueOf (H : ByteBuffer → Hash128) (env : HttpEnv) (req : HttpRequest) (key : ByteBuffer)
    (fromHeader : Option Range) : Handling HttpResponse := do
  let fromQuery ← orThrow (parseQueryRange req.query)
  let opts : ReadOptions := { allowPartial := true, range := fromQuery.or fromHeader }
  let result ← onCache (CacheCoordinator.get H env.read ⟨key⟩ opts)
  pure (getResponse opts result)

/-- `HttpHandler::handle_get`. -/
def handleGet (H : ByteBuffer → Hash128) (env : HttpEnv) (req : HttpRequest) :
    Handling HttpResponse := do
  let key ← orThrow (substr req.path 7)
  if key.isEmpty then pure (.badRequest "Missing cache key")
  else do
    let fromHeader ← headerRange key req
    readValueOf H env req key fromHeader

/-- A header field with a number, which is left alone when it is empty. -/
def optionalNumber {α : Type} (convert : ByteBuffer → Except StdException α) (text : ByteBuffer) :
    Except StdException (Option α) :=
  if text.isEmpty then .ok none else (convert text).map some

/-- Whether a header field is set to `true`. -/
def flagged (req : HttpRequest) (name : String) : Bool := req.header name = ascii "true"

/-- The call of the coordinator that `handle_put` makes, with the numbers of the header. The flags
are cut to 32 bits. -/
def putCall (env : HttpEnv) (req : HttpRequest) (key : ByteBuffer) (ttl : Option Int)
    (flags : Option Nat) : PutCall :=
  ⟨env.memoryNow, env.diskNow, env.write, ⟨key⟩, req.body,
    { ttl := ttl
      flags := UInt32.ofNat (flags.getD 0)
      noMemory := flagged req "X-ElCache-No-Memory"
      noDisk := flagged req "X-ElCache-No-Disk"
      noCluster := flagged req "X-ElCache-No-Cluster" }⟩

/-- The part of `handle_put` after the options have been parsed. -/
def writeValueOf (H : ByteBuffer → Hash128) (env : HttpEnv) (req : HttpRequest) (key : ByteBuffer)
    (ttl : Option Int) (flags : Option Nat) : Handling HttpResponse := do
  let status ← onCache (CacheCoordinator.put H (putCall env req key ttl flags))
  if status.isOk then pure .created else pure (.internalError status.message)

/-- `HttpHandler::handle_put`. -/
def handlePut (H : ByteBuffer → Hash128) (env : HttpEnv) (req : HttpRequest) :
    Handling HttpResponse := do
  let key ← orThrow (substr req.path 7)
  if key.isEmpty then pure (.badRequest "Missing cache key")
  else if maxKeySize < key.length then pure (.badRequest "Key too large")
  else do
    let ttl ← orThrow (optionalNumber stoll (req.header "X-ElCache-TTL"))
    let flags ← orThrow (optionalNumber stoull (req.header "X-ElCache-Flags"))
    writeValueOf H env req key ttl flags

/-! ## /sparse/{key} -/

/-- The part of `handle_sparse_create` after the size has been parsed. -/
def createUpload (key : ByteBuffer) (totalSize : Nat) : Handling HttpResponse :=
  if totalSize = 0 then pure (.badRequest "Size must be greater than 0")
  else do
    let created ← onSparse (SparseCache.create key totalSize)
    if created then pure (HttpResponse.created.setHeader "X-ElCache-Size" (decimal totalSize))
    else pure (.conflict "Sparse entry already exists")

/-- `HttpHandler::handle_sparse_create`. What `stoull` throws is caught. -/
def handleSparseCreate (req : HttpRequest) : Handling HttpResponse := do
  let key ← orThrow (substr req.path 8)
  if key.isEmpty then pure (.badRequest "Missing key")
  else if (req.header "X-ElCache-Size").isEmpty then
    pure (.badRequest "X-ElCache-Size header required")
  else
    match stoull (req.header "X-ElCache-Size") with
    | .error _ => pure (.badRequest "Invalid X-ElCache-Size value")
    | .ok totalSize => createUpload key totalSize

/-- A conversion inside a `try`: what it throws becomes a refusal. -/
def caught (x : Except StdException Nat) (msg : String) : Except HttpResponse Nat :=
  match x with
  | .error _ => .error (.badRequest msg)
  | .ok n => .ok n

/-- The offset in the part of `Content-Range` behind the unit, in `handle_sparse_write`. -/
def rangePartOffset (rangePart : ByteBuffer) : Except HttpResponse Nat :=
  match find (ascii "-") rangePart with
  | none => .ok 0
  | some dashPos => caught (substrN rangePart 0 dashPos >>= stoull) "Invalid Content-Range"

/-- The offset of `handle_sparse_write`, 0 if there is none, or the refusal. -/
def writeOffset (req : HttpRequest) : Handling (Except HttpResponse Nat) :=
  if (req.header "Content-Range").isEmpty then
    match find (ascii "offset=") req.query with
    | none => pure (.ok 0)
    | some offsetPos =>
      pure (caught (substr req.query (offsetPos + 7) >>= stoull) "Invalid offset parameter")
  else
    match find (ascii "bytes ") (req.header "Content-Range") with
    | none => pure (.ok 0)
    | some bytesPos => do
      let rangePart ← orThrow (substr (req.header "Content-Range") (bytesPos + 6))
      pure (rangePartOffset rangePart)

/-- The percentage in `X-ElCache-Completion`. -/
def completionText (env : HttpEnv) (percent : Rat) : ByteBuffer :=
  env.formatDouble percent ++ ascii "%"

/-- The part of `handle_sparse_write` after the offset has been parsed. -/
def writeUpload (env : HttpEnv) (key : ByteBuffer) (offset : Nat) (body : ByteBuffer) :
    Handling HttpResponse :=
  if body.isEmpty then pure (.badRequest "Request body is empty")
  else do
    let success ← onSparse (SparseCache.writeRange key offset body)
    if success then do
      let percent ← onSparse fun s => (s.getCompletion key, s)
      pure (HttpResponse.setHeader { statusCode := 202, statusText := ascii "Accepted" }
        "X-ElCache-Completion" (completionText env percent))
    else do
      let found ← onSparse fun s => (s.existsKey key, s)
      if found then pure (.badRequest "Invalid range (offset + size exceeds total)")
      else pure (.notFound "Sparse entry not found")

/-- `HttpHandler::handle_sparse_write`. -/
def handleSparseWrite (env : HttpEnv) (req : HttpRequest) : Handling HttpResponse := do
  let key ← orThrow (substr req.path 8)
  if key.isEmpty then pure (.badRequest "Missing key")
  else do
    let parsed ← writeOffset req
    match parsed with
    | .error refusal => pure refusal
    | .ok offset => writeUpload env key offset req.body.bytes

/-- The put of an upload. -/
def uploadPut (env : HttpEnv) (key data : ByteBuffer) (ttl : Option Int) : PutCall :=
  ⟨env.memoryNow, env.diskNow, env.write, ⟨key⟩, viewOf data, { ttl := ttl }⟩

/-- The end of `handle_sparse_finalize`. -/
def storeUpload (H : ByteBuffer → Hash128) (env : HttpEnv) (key data : ByteBuffer)
    (ttl : Option Int) : Handling HttpResponse := do
  let status ← onCache (CacheCoordinator.put H (uploadPut env key data ttl))
  if status.isOk then pure .created
  else pure (.internalError ("Failed to store finalized data: " ++ status.message))

/-- The part of `handle_sparse_finalize` after the return code of `finalize`. The upload is no
longer in the table when the options are parsed. -/
def afterFinalize (H : ByteBuffer → Hash128) (env : HttpEnv) (req : HttpRequest) (key : ByteBuffer)
    (code : Nat) (data : Option ByteBuffer) : Handling HttpResponse :=
  if code = 1 then pure (.notFound "Sparse entry not found")
  else if code = 2 then do
    let percent ← onSparse fun s => (s.getCompletion key, s)
    pure ((HttpResponse.conflict "Not all ranges written").setHeader "X-ElCache-Completion"
      (completionText env percent))
  else do
    let ttl ← orThrow (optionalNumber stoll (req.header "X-ElCache-TTL"))
    storeUpload H env key (data.getD []) ttl

/-- The part of `handle_sparse_finalize` after the key has been found. -/
def finalizeUpload (H : ByteBuffer → Hash128) (env : HttpEnv) (req : HttpRequest)
    (key : ByteBuffer) : Handling HttpResponse := do
  let result ← onSparse fun s => (((s.finalize key).1, (s.finalize key).2.1), (s.finalize key).2.2)
  afterFinalize H env req key result.1 result.2

/-- The length of the key in the path of a finalize request, a difference of positions that
wraps. -/
def keyLength (finalizePos : Nat) : Nat :=
  if finalizePos < 8 then 2 ^ 64 + finalizePos - 8 else finalizePos - 8

/-- `HttpHandler::handle_sparse_finalize`. -/
def handleSparseFinalize (H : ByteBuffer → Hash128) (env : HttpEnv) (req : HttpRequest) :
    Handling HttpResponse :=
  match rfind (ascii "/finalize") req.path with
  | none => pure (.badRequest "Invalid path")
  | some finalizePos => do
    let key ← orThrow (substrN req.path 8 (keyLength finalizePos))
    if key.isEmpty then pure (.badRequest "Missing key") else finalizeUpload H env req key

end HttpHandler

end ElCache
