import ElCache.Http.Finalize

/-!
# The HTTP service

The other handlers of `http_api.cpp` that look at the cache or at the uploads, and the routes under
which `build_router` has them all. A request reaches the handler of its route with a path that
spells the route and the key (`HttpCall`).

The routes `/stats`, `/health`, `/metrics` and `/cluster` change neither the cache nor an upload and
are left out.
-/

namespace ElCache

open Text

/-- `HttpResponse::no_content`. -/
def HttpResponse.noContent : HttpResponse := { statusCode := 204, statusText := ascii "No Content" }

/-- `SparseCache::get_total_size`. -/
def SparseCache.getTotalSize (key : ByteBuffer) (s : SparseCache) : Nat :=
  match s.entries key with
  | none => 0
  | some e => e.totalSize

namespace HttpHandler

open Handling

/-! ## /cache/{key} -/

/-- `HttpHandler::handle_delete`. -/
def handleDelete (req : HttpRequest) : Handling HttpResponse := do
  let key ← orThrow (substr req.path 7)
  if key.isEmpty then pure (.badRequest "Missing cache key")
  else do
    let status ← onCache (CacheCoordinator.remove ⟨key⟩ {})
    if status.isOk then pure .noContent
    else if status.code = .notFound then pure (.notFound "Key not found")
    else pure (.internalError status.message)

/-- The end of `handle_head`. -/
def headResponse (metadata : CacheMetadata) : HttpResponse :=
  let resp : HttpResponse := {}
  let resp := resp.setHeader "X-ElCache-Size" (decimal metadata.totalSize)
  let resp := resp.setHeader "X-ElCache-Chunks" (decimal metadata.chunkCount)
  let resp := resp.setHeader "Accept-Ranges" (ascii "bytes")
  resp.setContentLength metadata.totalSize

/-- `HttpHandler::handle_head`. -/
def handleHead (req : HttpRequest) : Handling HttpResponse := do
  let key ← orThrow (substr req.path 7)
  if key.isEmpty then pure (.badRequest "Missing cache key")
  else do
    let metadata ← onCache (CacheCoordinator.metadata ⟨key⟩)
    match metadata with
    | none => pure (.notFound "Key not found")
    | some m => pure (headResponse m)

/-- `HttpHandler::handle_options`. -/
def handleOptions : Handling HttpResponse :=
  let resp : HttpResponse := {}
  let resp := resp.setHeader "Allow" (ascii "GET, PUT, POST, DELETE, HEAD, OPTIONS")
  pure (resp.setHeader "Accept-Ranges" (ascii "bytes"))

/-! ## /sparse/{key} -/

/-- The body of `handle_sparse_status`. -/
def statusText (showDouble : Rat → ByteBuffer) (key : ByteBuffer) (totalSize : Nat)
    (completion : Rat) : ByteBuffer :=
  ascii "\x7b\n  \"key\": \"" ++ key ++ ascii "\",\n  \"total_size\": " ++ decimal totalSize ++
    ascii ",\n  \"completion_percent\": " ++ showDouble completion ++
    ascii ",\n  \"complete\": " ++ ascii (if 100 ≤ completion then "true" else "false") ++
    ascii "\n\x7d\n"

/-- `HttpHandler::handle_sparse_status`. It asks the table of uploads three times; `showDouble` is
what a stream makes of a floating-point number. -/
def handleSparseStatus (showDouble : Rat → ByteBuffer) (req : HttpRequest) :
    Handling HttpResponse := do
  let key ← orThrow (substr req.path 8)
  if key.isEmpty then pure (.badRequest "Missing key")
  else do
    let found ← onSparse fun s => (s.existsKey key, s)
    if found then do
      let totalSize ← onSparse fun s => (s.getTotalSize key, s)
      let completion ← onSparse fun s => (s.getCompletion key, s)
      pure ((HttpResponse.ok (statusText showDouble key totalSize completion)).setContentType
        "application/json")
    else pure (.notFound "Sparse entry not found")

/-- The handler of `DELETE /sparse/:key` in `build_router`. -/
def abortUpload (req : HttpRequest) : Handling HttpResponse := do
  let key ← orThrow (substr req.path 8)
  let _ ← onSparse (SparseCache.remove key)
  pure .noContent

end HttpHandler

/-! ## Routes -/

/-- The routes of `build_router` for a key. -/
inductive Route where
  | endpoint (e : Endpoint)
  | delete
  | head
  | options
  | sparseStatus
  | sparseAbort
  deriving DecidableEq

/-- The path of a request for a key. -/
def Route.path (key : ByteBuffer) : Route → ByteBuffer
  | endpoint e => e.path key
  | delete | head | options => ascii "/cache/" ++ key
  | sparseStatus | sparseAbort => ascii "/sparse/" ++ key

/-- A request that the router passes on, with what its handler meets. -/
structure HttpCall where
  route : Route
  key : ByteBuffer
  req : HttpRequest
  path_eq : req.path = route.path key
  env : HttpEnv
  showDouble : Rat → ByteBuffer

namespace HttpCall

open HttpHandler Handling

/-- The handler of the route. -/
def handler (H : ByteBuffer → Hash128) (call : HttpCall) : Handling HttpResponse :=
  match call.route with
  | .endpoint e => e.handler H call.env call.req
  | .delete => handleDelete call.req
  | .head => handleHead call.req
  | .options => handleOptions
  | .sparseStatus => handleSparseStatus call.showDouble call.req
  | .sparseAbort => abortUpload call.req

/-- The request answered alone: the response, or what is thrown, and the state it leaves. -/
def serve (H : ByteBuffer → Hash128) (call : HttpCall) (s : HttpHandler) :
    Except StdException HttpResponse × HttpHandler :=
  outcome (call.handler H) s

end HttpCall

/-! ## What the handlers do -/

/-- The request is answered with this status. -/
def HasStatus (resp : Except StdException HttpResponse) (code : Nat) : Prop :=
  ∃ r, resp = .ok r ∧ r.statusCode = code

namespace HttpHandler

open Handling

variable {H : ByteBuffer → Hash128} {env : HttpEnv} {key : ByteBuffer} {req : HttpRequest}

/-- The offset of a write. -/
def offsetOf (req : HttpRequest) : Except HttpResponse Nat :=
  if (req.header "Content-Range").isEmpty then
    match find (ascii "offset=") req.query with
    | none => .ok 0
    | some pos => caught (stoull (req.query.drop (pos + 7))) "Invalid offset parameter"
  else
    match find (ascii "bytes ") (req.header "Content-Range") with
    | none => .ok 0
    | some pos => rangePartOffset ((req.header "Content-Range").drop (pos + 6))

/-- The offset is read without a step. -/
theorem outcome_writeOffset_eq (req : HttpRequest) (s : HttpHandler) :
    outcome (writeOffset req) s = (.ok (offsetOf req), s) := by
  unfold writeOffset offsetOf
  split
  · cases hpos : find (ascii "offset=") req.query with
    | none => rfl
    | some pos =>
      have hcut : substr req.query (pos + 7) = .ok (req.query.drop (pos + 7)) := substr_find hpos
      simp only [hcut]
      rfl
  · cases hpos : find (ascii "bytes ") (req.header "Content-Range") with
    | none => rfl
    | some pos =>
      have hcut : substr (req.header "Content-Range") (pos + 6) =
          .ok ((req.header "Content-Range").drop (pos + 6)) := substr_find hpos
      simp only [hcut, orThrow_ok_bind]
      rfl

/-- The offset is parsed, or refused with a 400. -/
theorem offsetOf_cases (req : HttpRequest) :
    (∃ n, offsetOf req = .ok n) ∨ ∃ msg, offsetOf req = .error (.badRequest msg) := by
  obtain ⟨parsed, hparsed, hcases⟩ := outcome_writeOffset req ⟨.init {}, {}⟩
  have heq : offsetOf req = parsed := by
    have h := (outcome_writeOffset_eq req ⟨.init {}, {}⟩).symm.trans hparsed
    exact Except.ok.inj (congrArg Prod.fst h)
  rw [heq]
  rcases hcases with ⟨n, hn, -⟩ | hrefused
  · exact .inl ⟨n, hn⟩
  · exact .inr hrefused

/-- A delete is answered with 204, whether the key was there or not: `remove` drops what the levels
answer. -/
theorem outcome_handleDelete (hpath : req.path = ascii "/cache/" ++ key) (hkey : key ≠ [])
    (s : HttpHandler) : outcome (handleDelete req) s =
      (.ok .noContent, { s with cache := ((CacheCoordinator.remove ⟨key⟩ {}).run s.cache).2 }) := by
  have hempty : ¬ key.isEmpty = true := by simpa using hkey
  rw [handleDelete, hpath, substr_path_cache, orThrow_ok_bind, if_neg hempty,
    outcome_bind_ok (outcome_onCache _ s)]
  rfl

theorem outcome_handleHead (hpath : req.path = ascii "/cache/" ++ key) (hkey : key ≠ [])
    (s : HttpHandler) : outcome (handleHead req) s =
      (.ok ((s.cache.descriptor ⟨key⟩).elim (.notFound "Key not found") fun d =>
        headResponse d.metadata), s) := by
  have hempty : ¬ key.isEmpty = true := by simpa using hkey
  rw [handleHead, hpath, substr_path_cache, orThrow_ok_bind, if_neg hempty,
    outcome_bind_ok (outcome_onCache _ s), CacheCoordinator.run_metadata]
  cases s.cache.descriptor ⟨key⟩ with
  | none => rfl
  | some d => rfl

/-- The status shows the size and the percentage. -/
theorem outcome_handleSparseStatus (showDouble : Rat → ByteBuffer)
    (hpath : req.path = ascii "/sparse/" ++ key) (hkey : key ≠ []) (s : HttpHandler) :
    outcome (handleSparseStatus showDouble req) s =
      (.ok ((s.sparse.entries key).elim (.notFound "Sparse entry not found") fun e =>
        (HttpResponse.ok (statusText showDouble key e.totalSize
          e.completionPercent)).setContentType "application/json"), s) := by
  have hempty : ¬ key.isEmpty = true := by simpa using hkey
  rw [handleSparseStatus, hpath, substr_path_sparse, orThrow_ok_bind, if_neg hempty,
    outcome_bind_ok (outcome_onSparse _ s)]
  cases he : s.sparse.entries key with
  | none =>
    simp only [SparseCache.existsKey, he]
    rfl
  | some e =>
    simp only [SparseCache.existsKey, he, Option.isSome_some, if_true]
    rw [outcome_bind_ok (outcome_onSparse _ s), outcome_bind_ok (outcome_onSparse _ s)]
    simp only [SparseCache.getTotalSize, SparseCache.getCompletion, he]
    rfl

theorem outcome_abortUpload (hpath : req.path = ascii "/sparse/" ++ key) (s : HttpHandler) :
    outcome (abortUpload req) s =
      (.ok .noContent, { s with sparse := (s.sparse.remove key).2 }) := by
  rw [abortUpload, hpath, substr_path_sparse, orThrow_ok_bind,
    outcome_bind_ok (outcome_onSparse _ s)]
  rfl

end HttpHandler

end ElCache
