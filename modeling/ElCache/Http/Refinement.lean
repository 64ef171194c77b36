import ElCache.Coordinator.Absent
import ElCache.Coordinator.Fresh
import ElCache.Http.Ranges
import ElCache.Http.Service
import ElCache.Unix.Store

/-!
# What the HTTP service is for

The service and the Unix server are for the same thing, the values and uploads of a `Store`, but the
service may lose a value, as its levels evict, and it may refuse one. `HttpCall.Allows` says which
responses to a request a store explains and what becomes of the store. `service_refines_store`: in
every run from an empty cache every response is explained.

* A GET is answered with 404 or from the last value that a PUT or a finalized upload has left: with
  200 and all of it, with 206 and the bytes of the range asked for, or, where `X-ElCache-Hit` says
  `partial`, with 206 and some bytes behind the start of the range, in their order. It throws only
  if the range in the request cannot be parsed.
* A HEAD is answered with 404 or the length of that value.
* Uploads are never forgotten: create, write and status are answered by what the store has, and 400
  is the answer only to a request that is malformed or leaves the upload's range.

Needed are: no peer and no failing disk write; no put that skips a level, as the level would keep
what it has; writes inside the 64-bit range; and a hash without collisions on the chunks of the run.
-/

namespace ElCache

variable {d : ValueDescriptor} {p : PutCall}

open Text Unix Handling HttpHandler

/-! ## Responses that a store explains -/

/-- The store without the upload of a key. -/
def Unix.Store.dropUpload (key : ByteBuffer) (t : Store) : Store :=
  { t with upload := Function.update t.upload key none }

/-- The status of the response to a create. -/
def createStatus : Answer → Nat
  | .code 0 => 201
  | _ => 409

/-- The status of the response to a write. -/
def writeStatus : Answer → Nat
  | .code 0 => 202
  | .code 1 => 404
  | _ => 400

/-- The range that a GET asks for, of a value of this size: that of the query or else that of the
header field, which is not looked at where no size is known. -/
def wantedRange (req : HttpRequest) (size : Option Nat) : Except StdException (Option Range) := do
  let fromHeader ← rangeFor req size
  let fromQuery ← parseQueryRange req.query
  .ok (fromQuery.or fromHeader)

/-- The size of the upload that a request creates, if it names one that is not 0. -/
def askedSize (req : HttpRequest) : Option Nat :=
  match stoull (req.header "X-ElCache-Size") with
  | .ok size => if size = 0 then none else some size
  | .error _ => none

/-- The response brings the value, or the range of it that was asked for: all of the value, exactly
the bytes of the range, or some of the bytes from its start on, in their order and not more of them
than asked for. Which of the last two it is, the field `X-ElCache-Hit` says. -/
def HttpResponse.Serves (r : HttpResponse) (v : ByteBuffer) (range : Option Range) : Prop :=
  (r.statusCode = 200 ∧ range = none ∧ r.body = v) ∨
    (r.statusCode = 206 ∧ r.headers.lookup (ascii "X-ElCache-Hit") = some (ascii "hit") ∧
      range.isSome = true ∧ r.body = LevelView.requested v { range := range }) ∨
    (r.statusCode = 206 ∧ r.headers.lookup (ascii "X-ElCache-Hit") = some (ascii "partial") ∧
      r.body.Sublist (v.drop (range.getD ⟨0, v.length⟩).offset) ∧
      r.body.length ≤ (range.getD ⟨0, v.length⟩).length)

namespace HttpCall

/-- The response to a GET: the value that the store has, as far as it is asked for, or that there is
none. A store that has a value does not forbid a 404, and the range is then parsed without its size
or with it. -/
def AllowsGet (call : HttpCall) (resp : Except StdException HttpResponse) (t : Store) : Prop :=
  if call.key = [] then HasStatus resp 400
  else ∃ size, (size = none ∨ size = (t.value call.key).map List.length) ∧
    ((∃ e, wantedRange call.req size = .error e ∧ resp = .error e) ∨
      ∃ range, wantedRange call.req size = .ok range ∧
        (HasStatus resp 404 ∨ ∃ v r, t.value call.key = some v ∧ size = some v.length ∧
          resp = .ok r ∧ r.Serves v range))

/-- The response to a HEAD: the length of the value that the store has, or that there is none. -/
def AllowsHead (call : HttpCall) (resp : Except StdException HttpResponse) (t : Store) : Prop :=
  if call.key = [] then HasStatus resp 400
  else HasStatus resp 404 ∨ ∃ v r, t.value call.key = some v ∧ resp = .ok r ∧
    r.statusCode = 200 ∧ r.headers.lookup (ascii "Content-Length") = some (decimal v.length)

/-- The response to a request to create an upload, and what becomes of the store. -/
def AllowsCreate (call : HttpCall) (resp : Except StdException HttpResponse) (t t' : Store) :
    Prop :=
  if call.key = [] then HasStatus resp 400 ∧ t' = t
  else match askedSize call.req with
    | none => HasStatus resp 400 ∧ t' = t
    | some size => HasStatus resp (createStatus (t.answer (.createSparse call.key size)).1) ∧
        t' = (t.answer (.createSparse call.key size)).2

/-- The response to a write to an upload, and what becomes of the store. -/
def AllowsWrite (call : HttpCall) (resp : Except StdException HttpResponse) (t t' : Store) :
    Prop :=
  if call.key = [] ∨ call.req.body.bytes = [] then HasStatus resp 400 ∧ t' = t
  else match offsetOf call.req with
    | .error _ => HasStatus resp 400 ∧ t' = t
    | .ok offset =>
      HasStatus resp (writeStatus (t.answer (.writeRange call.key offset call.req.body.bytes)).1) ∧
        t' = (t.answer (.writeRange call.key offset call.req.body.bytes)).2

/-- The response to the request for the status of an upload: how much of it has been written, and
whether that is all of it. -/
def AllowsStatus (call : HttpCall) (resp : Except StdException HttpResponse) (t : Store) : Prop :=
  if call.key = [] then HasStatus resp 400
  else match t.upload call.key with
    | none => HasStatus resp 404
    | some u => (100 ≤ u.percent ↔ u.Complete) ∧ ∃ r, resp = .ok r ∧ r.statusCode = 200 ∧
        r.body = statusText call.showDouble call.key u.totalSize u.percent

/-- The response to a finalize, and what becomes of the store: a complete upload is gone in any
case. -/
def AllowsFinalize (call : HttpCall) (resp : Except StdException HttpResponse) (t t' : Store) :
    Prop :=
  if call.key = [] then HasStatus resp 400 ∧ t' = t
  else match t.upload call.key with
    | none => HasStatus resp 404 ∧ t' = t
    | some u =>
      if u.Complete then
        (HasStatus resp 201 ∧ t' = (t.answer (.finalize call.key)).2) ∨
          (¬ HasStatus resp 201 ∧ t' = t.dropUpload call.key)
      else HasStatus resp 409 ∧ t' = t

/-- The store explains the response, and becomes `t'`. -/
def Allows (call : HttpCall) (resp : Except StdException HttpResponse) (t t' : Store) : Prop :=
  match call.route with
  | .endpoint .get => t' = t ∧ call.AllowsGet resp t
  | .endpoint .put =>
    (HasStatus resp 201 ∧ t' = (t.answer (.put call.key call.req.body.bytes)).2) ∨
      (¬ HasStatus resp 201 ∧ t' = t)
  | .endpoint .sparseCreate => call.AllowsCreate resp t t'
  | .endpoint .sparseWrite => call.AllowsWrite resp t t'
  | .endpoint .sparseFinalize => call.AllowsFinalize resp t t'
  | .delete =>
    if call.key = [] then HasStatus resp 400 ∧ t' = t
    else HasStatus resp 204 ∧ t' = (t.answer (.delete call.key)).2
  | .head => t' = t ∧ call.AllowsHead resp t
  | .options => t' = t ∧ HasStatus resp 200
  | .sparseStatus => t' = t ∧ call.AllowsStatus resp t
  | .sparseAbort => HasStatus resp 204 ∧ t' = t.dropUpload call.key

/-- What is needed of a request: its handler meets no peer and no failing write, its put skips no
level, and its write stays in the 64-bit range. -/
structure Plain (call : HttpCall) : Prop where
  alone : call.env.read.cluster = none
  clean : call.env.write.Clean
  memory : flagged call.req "X-ElCache-No-Memory" = false
  disk : flagged call.req "X-ElCache-No-Disk" = false
  inRange : ∀ offset, offsetOf call.req = .ok offset →
    offset + call.req.body.bytes.length < 2 ^ 64

/-- The chunk contents that a request brings into the cache: those of its body, or of the upload
that it finalizes. -/
def chunks (call : HttpCall) (s : HttpHandler) : Set ByteBuffer :=
  match call.route with
  | .endpoint .put => { b | b ∈ Slice.blocks chunkSize call.req.body.bytes }
  | .endpoint .sparseFinalize =>
    { b | ∃ e, s.sparse.entries call.key = some e ∧ b ∈ Slice.blocks chunkSize e.data }
  | _ => ∅

end HttpCall

/-- Every response is explained, from one store to the next. -/
def Explains : Store → List (HttpCall × Except StdException HttpResponse) → Prop
  | _, [] => True
  | t, (call, resp) :: rest => ∃ t', call.Allows resp t t' ∧ Explains t' rest

/-! ## States and stores -/

/-- The descriptor is the one that a level keeps for the put. -/
def DescriptorOf (H : ByteBuffer → Hash128) (d : ValueDescriptor) (p : PutCall) : Prop :=
  d = p.memoryPut.descriptor H ∨ d = p.diskPut.descriptor H

theorem DescriptorOf.describes {H : ByteBuffer → Hash128} (h : DescriptorOf H d p) :
    Describes H d p.value.bytes := by
  rcases h with rfl | rfl
  · exact p.memoryPut.describes H
  · exact p.diskPut.describes H

theorem DescriptorOf.totalSize {H : ByteBuffer → Hash128} (h : DescriptorOf H d p) :
    d.metadata.totalSize = p.value.bytes.length := by
  rcases h with rfl | rfl
  · rfl
  · rfl

/-- The state has the values and the uploads of the store: what a level holds of a value comes from
the put that the store has. -/
structure Implements (H : ByteBuffer → Hash128) (K : Set ByteBuffer) (s : HttpHandler) (t : Store) :
    Prop where
  cache : ∃ history, CacheCoordinator.Tracks H K (DescriptorOf H) (s.cache, history) ∧
    ∀ key, t.value key = (history ⟨key⟩).map fun p => p.value.bytes
  uploads : SparseCache.Tracks (s.sparse, t.upload)
  sized : ∀ key u, t.upload key = some u → u.totalSize < 2 ^ 64

section
variable {H : ByteBuffer → Hash128} {K : Set ByteBuffer} {s : HttpHandler} {t : Store}
  {result : ReadResult} {opts : ReadOptions} {c : CacheCoordinator}

theorem implements_start (config : Config) : Implements H K ⟨.init config, {}⟩ {} where
  cache := ⟨fun _ => none, CacheCoordinator.tracks_init config, fun _ => rfl⟩
  uploads _ := .none
  sized _ _ hu := by cases hu

theorem Implements.same (h : Implements H K s t)
    (hc : ∀ history, CacheCoordinator.Tracks H K (DescriptorOf H) (s.cache, history) →
      CacheCoordinator.Tracks H K (DescriptorOf H) (c, history)) :
    Implements H K { s with cache := c } t := by
  obtain ⟨history, htracks, hvalue⟩ := h.cache
  exact ⟨⟨history, hc history htracks, hvalue⟩, h.uploads, h.sized⟩

/-- An upload is created, written to or gone. -/
theorem Implements.setUpload (h : Implements H K s t) (key : ByteBuffer) {e : Option SparseEntry}
    {u : Option Upload} (hrel : Option.Rel SparseEntry.Represents e u)
    (hsize : ∀ u', u = some u' → u'.totalSize < 2 ^ 64) :
    Implements H K { s with sparse := ⟨Function.update s.sparse.entries key e⟩ }
      { t with upload := Function.update t.upload key u } where
  cache := h.cache
  uploads := SparseCache.Tracks.update (s := (s.sparse, t.upload)) h.uploads key hrel
  sized k u' hu' := by
    by_cases hk : k = key
    · subst hk
      simp only [Function.update_self] at hu'
      exact hsize u' hu'
    · simp only [Function.update_of_ne hk] at hu'
      exact h.sized k u' hu'

/-! ## The cache -/

/-- A put, taken or refused. -/
theorem Implements.put (h : Implements H K s t) {key : ByteBuffer} (hkey : p.key = ⟨key⟩)
    (hclean : p.env.Clean) (hmemory : p.opts.noMemory = false) (hdisk : p.opts.noDisk = false)
    (hK : p.memoryPut.chunks ⊆ K) :
    Implements H K { s with cache := ((CacheCoordinator.put H p).run s.cache).2 }
      (if ((CacheCoordinator.put H p).run s.cache).1.isOk
        then (t.answer (.put key p.value.bytes)).2 else t) := by
  obtain ⟨history, htracks, hvalue⟩ := h.cache
  have hput := htracks.put hclean hK (.inl rfl) (.inr rfl)
    (fun hno => absurd (hmemory.symm.trans hno) Bool.false_ne_true)
    fun hno => absurd (hdisk.symm.trans hno) Bool.false_ne_true
  unfold CacheCoordinator.exec at hput
  dsimp only at hput
  split at hput
  · next hok =>
    rw [if_pos hok]
    refine ⟨⟨_, hput, fun k => ?_⟩, h.uploads, h.sized⟩
    by_cases hk : k = key
    · subst hk
      rw [hkey, Function.update_self]
      exact Function.update_self ..
    · have hne : (⟨k⟩ : CacheKey) ≠ p.key := by
        rw [hkey]
        exact fun heq => hk (CacheKey.mk.inj heq)
      rw [Function.update_of_ne hne, ← hvalue]
      exact Function.update_of_ne hk _ _
  · next hbad =>
    rw [if_neg hbad]
    exact ⟨⟨history, hput, hvalue⟩, h.uploads, h.sized⟩

theorem Implements.delete (h : Implements H K s t) (key : ByteBuffer) :
    Implements H K { s with cache := ((CacheCoordinator.remove ⟨key⟩ {}).run s.cache).2 }
      (t.answer (.delete key)).2 := by
  obtain ⟨history, htracks, hvalue⟩ := h.cache
  refine ⟨⟨_, htracks.remove ⟨key⟩, fun k => ?_⟩, h.uploads, h.sized⟩
  by_cases hk : k = key
  · subst hk
    rw [Function.update_self]
    exact Function.update_self ..
  · have hne : (⟨k⟩ : CacheKey) ≠ ⟨key⟩ := fun heq => hk (CacheKey.mk.inj heq)
    rw [Function.update_of_ne hne, ← hvalue]
    exact Function.update_of_ne hk _ _

/-- A descriptor is that of a value of the store. -/
theorem Implements.descriptor (h : Implements H K s t) {key : ByteBuffer}
    (hd : s.cache.descriptor ⟨key⟩ = some d) :
    ∃ v, t.value key = some v ∧ d.metadata.totalSize = v.length := by
  obtain ⟨history, htracks, hvalue⟩ := h.cache
  have hput : ∃ p, history ⟨key⟩ = some p ∧ DescriptorOf H d p := by
    rcases Option.or_eq_some_iff.1 hd with hm | ⟨-, hdisk⟩
    · obtain ⟨m, hm, hdesc⟩ := Option.bind_eq_some_iff.1 hm
      have hw : s.cache.views.memory = some m.view := by rw [CacheCoordinator.views, hm]; rfl
      exact htracks.memory _ hw ⟨key⟩ d hdesc
    · obtain ⟨m, hm, hdesc⟩ := Option.bind_eq_some_iff.1 hdisk
      have hw : s.cache.views.disk = some m.view := by rw [CacheCoordinator.views, hm]; rfl
      exact htracks.disk _ hw ⟨key⟩ d hdesc
  obtain ⟨p, hp, hdesc⟩ := hput
  exact ⟨p.value.bytes, by rw [hvalue, hp]; rfl, hdesc.totalSize⟩

theorem Implements.get (h : Implements H K s t) {env : ReadEnv} (henv : env.cluster = none)
    (key : CacheKey) (opts : ReadOptions) :
    Implements H K { s with cache := ((CacheCoordinator.get H env key opts).run s.cache).2 } t :=
  h.same fun _ htracks => htracks.get henv key opts

/-- A level that has a descriptor of a key makes the coordinator find one, its own or that of the
level above. -/
theorem descriptor_of_level {w : LevelView} {key : CacheKey}
    (hw : c.views.memory = some w ∨ c.views.disk = some w) (hd : w.descriptor key = some d) :
    ∃ d', c.descriptor key = some d' := by
  unfold CacheCoordinator.descriptor
  rcases hw with hw | hw
  · obtain ⟨m, hm, rfl⟩ := Option.map_eq_some_iff.1 hw
    rw [hm, Option.bind_some, show m.descriptors key = some d from hd]
    exact ⟨d, rfl⟩
  · obtain ⟨m, hm, rfl⟩ := Option.map_eq_some_iff.1 hw
    rw [hm, Option.bind_some, show m.descriptors key = some d from hd]
    cases c.memory.bind fun m => m.descriptors key with
    | none => exact ⟨d, rfl⟩
    | some d' => exact ⟨d', rfl⟩

/-- The fields of the response to a read that is not a miss. Reference: the end of `handle_get`. -/
theorem getResponse_found (opts : ReadOptions) (hr : result.result ≠ .miss) :
    (getResponse opts result).statusCode =
        (if result.result = .partialHit ∨ opts.range.isSome = true then 206 else 200) ∧
      (getResponse opts result).body = result.data ∧
      (getResponse opts result).headers.lookup (ascii "X-ElCache-Hit") =
        some (hitSource result.result) := by
  rw [getResponse, if_neg hr]
  dsimp only
  obtain ⟨hstatus, hbody, hheader⟩ := setMetadata_fields
    ((if result.result = .partialHit ∨ opts.range.isSome = true then
        HttpResponse.partialContent result.data result.actualRange
          ((result.metadata.map CacheMetadata.totalSize).getD result.data.length)
      else .ok result.data).setHeader "X-ElCache-Hit" (hitSource result.result)) result.metadata
  refine ⟨hstatus.trans ?_, hbody.trans ?_, ?_⟩
  · split
    · rfl
    · rfl
  · split
    · rfl
    · rfl
  · rw [HttpResponse.setContentLength, lookup_setHeader (by decide), HttpResponse.setContentType,
      lookup_setHeader (by decide)]
    exact (hheader _ (by decide) (by decide)).trans (AList.lookup_insert _)

/-- The response to a hit brings what was asked for. -/
theorem serves_of_hit {v : ByteBuffer} (hhit : result.isHit = true)
    (hdata : result.data = LevelView.requested v opts) :
    (getResponse opts result).Serves v opts.range := by
  have hresult : result.result = .hit := of_decide_eq_true hhit
  have hfound : result.result ≠ .miss := by rw [hresult]; decide
  obtain ⟨hstatus, hbody, hheader⟩ := getResponse_found opts hfound
  rw [hresult] at hstatus hheader
  rw [hdata] at hbody
  cases hrange : opts.range with
  | none =>
    rw [hrange, if_neg (by decide)] at hstatus
    refine .inl ⟨hstatus, rfl, hbody.trans ?_⟩
    simp [LevelView.requested, hrange, Slice.slice_zero_length]
  | some range =>
    rw [hrange, if_pos (.inr rfl)] at hstatus
    refine .inr (.inl ⟨hstatus, hheader, rfl, hbody.trans ?_⟩)
    rw [LevelView.requested, LevelView.requested, hrange]

/-- The response to a partial hit brings what the level had of it. -/
theorem serves_of_partial {v : ByteBuffer} (hpart : result.isPartial = true)
    (hdata : result.data.Sublist (v.drop (opts.range.getD ⟨0, v.length⟩).offset) ∧
      result.data.length ≤ (opts.range.getD ⟨0, v.length⟩).length) :
    (getResponse opts result).Serves v opts.range := by
  have hresult : result.result = .partialHit := of_decide_eq_true hpart
  have hfound : result.result ≠ .miss := by rw [hresult]; decide
  obtain ⟨hstatus, hbody, hheader⟩ := getResponse_found opts hfound
  rw [hresult] at hstatus hheader
  rw [if_pos (.inl rfl)] at hstatus
  rw [← hbody] at hdata
  exact .inr (.inr ⟨hstatus, hheader, hdata⟩)

/-- A read is answered with 404, or with bytes of the value that the store has; the coordinator then
finds a descriptor of it. -/
theorem Implements.response (h : Implements H K s t) (hinj : Set.InjOn H K) {env : ReadEnv}
    (henv : env.cluster = none) (key : ByteBuffer) (opts : ReadOptions)
    (hresult : ((CacheCoordinator.get H env ⟨key⟩ opts).run s.cache).1 = result) :
    (getResponse opts result).statusCode = 404 ∨
      ∃ v, t.value key = some v ∧ (∃ d, s.cache.descriptor ⟨key⟩ = some d) ∧
        (getResponse opts result).Serves v opts.range := by
  obtain ⟨history, htracks, hvalue⟩ := h.cache
  rw [CacheCoordinator.run_get htracks.inv henv] at hresult
  cases hread : s.cache.views.read env ⟨key⟩ opts with
  | none =>
    rw [hread] at hresult
    subst hresult
    exact .inl rfl
  | some r =>
    rw [hread] at hresult
    cases (show r = result from hresult)
    obtain ⟨hsettles, -⟩ := CacheCoordinator.read_cases hread
    obtain ⟨w, assemble, now, d, p, hw, hexact, hordered, rfl, hd, hp, hdesc, hserves⟩ :=
      htracks.read hread
    have hp' : history ⟨key⟩ = some p := hp
    refine .inr ⟨p.value.bytes, by rw [hvalue, hp']; rfl, descriptor_of_level hw hd, ?_⟩
    rcases Bool.or_eq_true_iff.1 hsettles with hhit | hsettled
    · exact serves_of_hit hhit
        (LevelView.read_hit hexact hdesc.describes p.value.size_lt (hserves hinj) hd hhit)
    · have hpartial := (Bool.and_eq_true_iff.1 hsettled).1
      exact serves_of_partial hpartial (LevelView.read_partial hexact hordered hdesc.describes
        p.value.size_lt (hserves hinj) hd hpartial)

end

/-! ## One request -/

section
variable {H : ByteBuffer → Hash128} {K : Set ByteBuffer} {s : HttpHandler} {t : Store}
  {key : ByteBuffer} {env : HttpEnv} {req : HttpRequest} {r : Except StdException HttpResponse × _}

/-- The handler of a GET: it throws what the parsing of the range throws and leaves the state, or it
reads the range. -/
theorem outcome_handleGet (H : ByteBuffer → Hash128) (env : HttpEnv)
    (hpath : req.path = ascii "/cache/" ++ key) (hkey : key ≠ []) (s : HttpHandler)
    {size : Option Nat} (hsize : (s.cache.descriptor ⟨key⟩).map
      (fun d => d.metadata.totalSize) = size) :
    (∃ e, wantedRange req size = .error e ∧ outcome (handleGet H env req) s = (.error e, s)) ∨
      ∃ range, wantedRange req size = .ok range ∧ ∃ opts : ReadOptions, opts.range = range ∧
        outcome (handleGet H env req) s =
          (.ok (getResponse opts ((CacheCoordinator.get H env.read ⟨key⟩ opts).run s.cache).1),
            { s with cache := ((CacheCoordinator.get H env.read ⟨key⟩ opts).run s.cache).2 }) := by
  have hempty : ¬ key.isEmpty = true := by simpa using hkey
  rw [handleGet, hpath, substr_path_cache, orThrow_ok_bind, if_neg hempty]
  have hrange := outcome_headerRange key req s
  rw [hsize] at hrange
  unfold wantedRange
  cases hfor : rangeFor req size with
  | error e =>
    rw [hfor] at hrange
    exact .inl ⟨e, rfl, outcome_bind_error hrange⟩
  | ok fromHeader =>
    rw [hfor] at hrange
    rw [outcome_bind_ok hrange, readValueOf]
    cases parseQueryRange req.query with
    | error e => exact .inl ⟨e, rfl, rfl⟩
    | ok fromQuery =>
      exact .inr ⟨_, rfl, { allowPartial := true, range := fromQuery.or fromHeader }, rfl, rfl⟩

/-- The handler of a PUT: it is refused or throws and leaves the state, or it puts. -/
theorem outcome_handlePut (H : ByteBuffer → Hash128) (env : HttpEnv)
    (hpath : req.path = ascii "/cache/" ++ key) (s : HttpHandler) :
    (¬ HasStatus (outcome (handlePut H env req) s).1 201 ∧
        (outcome (handlePut H env req) s).2 = s) ∨
      ∃ ttl flags, outcome (handlePut H env req) s =
        outcome (writeValueOf H env req key ttl flags) s := by
  have hthrow : ∀ e : StdException, ¬ HasStatus (.error e) 201 := by
    rintro e ⟨r, hr, -⟩
    cases hr
  have hbad : ∀ msg : String, ¬ HasStatus (.ok (.badRequest msg)) 201 := by
    rintro msg ⟨r, hr, hcode⟩
    cases hr
    cases hcode
  rw [handlePut, hpath, substr_path_cache, orThrow_ok_bind]
  split
  · exact .inl ⟨hbad _, rfl⟩
  · split
    · exact .inl ⟨hbad _, rfl⟩
    · cases optionalNumber stoll (req.header "X-ElCache-TTL") with
      | error e => exact .inl ⟨hthrow e, rfl⟩
      | ok ttl =>
        rw [orThrow_ok_bind]
        cases optionalNumber stoull (req.header "X-ElCache-Flags") with
        | error e => exact .inl ⟨hthrow e, rfl⟩
        | ok flags => exact .inr ⟨ttl, flags, rfl⟩

/-- What a put answers, and the state it leaves. -/
theorem Implements.writeValueOf (h : Implements H K s t) (hclean : env.write.Clean)
    (hmemory : flagged req "X-ElCache-No-Memory" = false)
    (hdisk : flagged req "X-ElCache-No-Disk" = false)
    (hK : ∀ b ∈ Slice.blocks chunkSize req.body.bytes, b ∈ K) (ttl : Option Int)
    (flags : Option Nat) :
    ∃ t', ((HasStatus (outcome (writeValueOf H env req key ttl flags) s).1 201 ∧
        t' = (t.answer (.put key req.body.bytes)).2) ∨
      (¬ HasStatus (outcome (writeValueOf H env req key ttl flags) s).1 201 ∧ t' = t)) ∧
      Implements H K (outcome (writeValueOf H env req key ttl flags) s).2 t' := by
  have hput := h.put (p := putCall env req key ttl flags) rfl hclean hmemory hdisk hK
  rw [HttpHandler.writeValueOf, outcome_bind_ok (outcome_onCache _ s)]
  split
  · next hok =>
    rw [if_pos hok] at hput
    exact ⟨_, .inl ⟨⟨_, rfl, rfl⟩, rfl⟩, hput⟩
  · next hbad =>
    rw [if_neg hbad] at hput
    refine ⟨_, .inr ⟨?_, rfl⟩, hput⟩
    rintro ⟨r, hr, hcode⟩
    cases hr
    cases hcode

/-- The store and the table agree on whether there is an upload. -/
theorem Implements.matches (h : Implements H K s t) (key : ByteBuffer) :
    (s.sparse.entries key = none ∧ t.upload key = none) ∨
      ∃ e u, s.sparse.entries key = some e ∧ t.upload key = some u ∧ e.Represents u := by
  cases hu : t.upload key with
  | none => exact .inl ⟨h.uploads.absent.2 hu, rfl⟩
  | some u =>
    obtain ⟨e, he, hrep⟩ := h.uploads.entry hu
    exact .inr ⟨e, u, he, rfl, hrep⟩

/-- A create opens an upload where the store does, and answers accordingly. -/
theorem Implements.createUpload (h : Implements H K s t) (key : ByteBuffer) {size : Nat}
    (hsize : size < 2 ^ 64) (hpos : size ≠ 0) :
    HasStatus (outcome (createUpload key size) s).1
        (createStatus (t.answer (.createSparse key size)).1) ∧
      Implements H K (outcome (createUpload key size) s).2
        (t.answer (.createSparse key size)).2 := by
  rw [HttpHandler.createUpload, if_neg hpos, outcome_bind_ok (outcome_onSparse _ s), Store.answer]
  rcases h.matches key with ⟨he, hu⟩ | ⟨e, u, he, hu, -⟩
  · simp only [hu, SparseCache.create_of_absent he, if_true]
    refine ⟨⟨_, rfl, rfl⟩, h.setUpload key (.some (SparseEntry.represents_init size)) ?_⟩
    intro u hu'
    cases hu'
    exact hsize
  · simp only [hu, SparseCache.create_of_entry he, Bool.false_eq_true, if_false]
    exact ⟨⟨_, rfl, rfl⟩, h⟩

/-- A write is applied and answered as in the store. The table refuses it exactly if there is no
upload or it leaves the value. -/
theorem Implements.writeUpload (h : Implements H K s t) (env : HttpEnv) (key : ByteBuffer)
    {offset : Nat} {body : ByteBuffer} (hrange : offset + body.length < 2 ^ 64)
    (hbody : body.isEmpty = false) :
    HasStatus (outcome (writeUpload env key offset body) s).1
        (writeStatus (t.answer (.writeRange key offset body)).1) ∧
      Implements H K (outcome (writeUpload env key offset body) s).2
        (t.answer (.writeRange key offset body)).2 := by
  have hne : ¬ body.isEmpty = true := by rw [hbody]; exact Bool.false_ne_true
  rw [HttpHandler.writeUpload, if_neg hne, outcome_bind_ok (outcome_onSparse _ s), Store.answer]
  rcases h.matches key with ⟨he, hu⟩ | ⟨e, u, he, hu, hrep⟩
  · simp only [hu, SparseCache.writeRange_of_absent he, Bool.false_eq_true, if_false]
    rw [outcome_bind_ok (outcome_onSparse _ s)]
    simp only [SparseCache.existsKey, he, Option.isSome_none, Bool.false_eq_true, if_false]
    exact ⟨⟨_, rfl, rfl⟩, h⟩
  · rcases e.writeRange_cases hrange with ⟨hlt, hfail⟩ | ⟨hle, hok⟩
    · have hfalse : (s.sparse.writeRange key offset body).1 = false := by
        rw [SparseCache.writeRange_of_entry he, hfail]
      have hsame := SparseCache.writeRange_failed hfalse
      rw [hrep.totalSize] at hlt
      simp only [hu, hfalse, hsame, if_pos hlt, Bool.false_eq_true, if_false]
      rw [outcome_bind_ok (outcome_onSparse _ s)]
      simp only [SparseCache.existsKey, he, Option.isSome_some, if_true]
      exact ⟨⟨_, rfl, rfl⟩, h⟩
    · have htrue : (s.sparse.writeRange key offset body).1 = true := by
        rw [SparseCache.writeRange_of_entry he, hok]
      have hnot : ¬ u.totalSize < offset + body.length := by
        rw [← hrep.totalSize]
        exact Nat.not_lt.2 hle
      simp only [hu, htrue, if_neg hnot, if_true]
      rw [outcome_bind_ok (outcome_onSparse _ _)]
      refine ⟨⟨_, rfl, rfl⟩, ?_⟩
      rw [SparseCache.writeRange_of_entry he]
      refine h.setUpload key (.some (hrep.writeRange hok)) ?_
      intro u' hu'
      cases hu'
      exact h.sized key u hu

/-- An upload that is gone. -/
theorem Implements.dropUpload (h : Implements H K s t) (key : ByteBuffer) :
    Implements H K { s with sparse := ⟨Function.update s.sparse.entries key none⟩ }
      (t.dropUpload key) :=
  h.setUpload key .none fun _ hu => by cases hu

theorem Implements.abort (h : Implements H K s t) (key : ByteBuffer) :
    Implements H K { s with sparse := (s.sparse.remove key).2 } (t.dropUpload key) := by
  rw [SparseCache.remove]
  cases he : s.sparse.entries key with
  | some e => exact h.dropUpload key
  | none =>
    have hsame := h.dropUpload key
    rwa [Function.update_eq_self_iff.2 he.symm] at hsame

theorem bytes_viewOf {data : ByteBuffer} (h : data.length < 2 ^ 64) :
    (viewOf data).bytes = data := by
  rw [viewOf, dif_pos h]

/-- What becomes of an upload that is complete: it is stored, or it is lost. -/
theorem Implements.afterFinalize (h : Implements H K s t) {u : Upload}
    (hu : t.upload key = some u) (hcomplete : u.Complete) (hclean : env.write.Clean)
    (hK : ∀ b ∈ Slice.blocks chunkSize u.bytes, b ∈ K)
    (hr : outcome (afterFinalize H env req key 0 (some u.bytes))
      { s with sparse := ⟨Function.update s.sparse.entries key none⟩ } = r) :
    ∃ t', ((HasStatus r.1 201 ∧ t' = (t.answer (.finalize key)).2) ∨
      (¬ HasStatus r.1 201 ∧ t' = t.dropUpload key)) ∧ Implements H K r.2 t' := by
  have hdrop := h.dropUpload key
  rw [HttpHandler.afterFinalize, if_neg (by decide), if_neg (by decide)] at hr
  cases httl : optionalNumber stoll (req.header "X-ElCache-TTL") with
  | error x =>
    rw [httl] at hr
    subst hr
    refine ⟨_, .inr ⟨?_, rfl⟩, hdrop⟩
    rintro ⟨resp, hresp, -⟩
    cases hresp
  | ok ttl =>
    have hbytes : (uploadPut env key u.bytes ttl).value.bytes = u.bytes :=
      bytes_viewOf (by rw [u.length_bytes]; exact h.sized key u hu)
    have hput := hdrop.put (p := uploadPut env key u.bytes ttl) rfl hclean rfl rfl fun b hb =>
      hK b (hbytes ▸ hb)
    have hanswer : (t.answer (.finalize key)).2 =
        ((t.dropUpload key).answer (.put key u.bytes)).2 := by
      simp only [Store.answer, hu, if_pos hcomplete]
      rfl
    rw [hbytes] at hput
    rw [httl, orThrow_ok_bind, Option.getD_some, storeUpload,
      outcome_bind_ok (outcome_onCache _ _)] at hr
    split at hr
    · next hok =>
      rw [if_pos hok] at hput
      subst hr
      exact ⟨_, .inl ⟨⟨_, rfl, rfl⟩, hanswer.symm⟩, hput⟩
    · next hbad =>
      rw [if_neg hbad] at hput
      subst hr
      refine ⟨_, .inr ⟨?_, rfl⟩, hput⟩
      rintro ⟨resp, hresp, hcode⟩
      cases hresp
      cases hcode

/-- A complete upload is taken. It becomes the value, or is lost if storing it fails; in all other
cases nothing changes. -/
theorem Implements.finalizeUpload (h : Implements H K s t) (hclean : env.write.Clean)
    (hK : ∀ e b, s.sparse.entries key = some e → b ∈ Slice.blocks chunkSize e.data → b ∈ K)
    (hr : outcome (finalizeUpload H env req key) s = r) :
    ∃ t', (match t.upload key with
      | none => HasStatus r.1 404 ∧ t' = t
      | some u =>
        if u.Complete then
          (HasStatus r.1 201 ∧ t' = (t.answer (.finalize key)).2) ∨
            (¬ HasStatus r.1 201 ∧ t' = t.dropUpload key)
        else HasStatus r.1 409 ∧ t' = t) ∧ Implements H K r.2 t' := by
  rw [HttpHandler.finalizeUpload, outcome_bind_ok (outcome_onSparse _ s),
    SparseCache.finalize] at hr
  rcases h.matches key with ⟨he, hu⟩ | ⟨e, u, he, hu, hrep⟩
  · simp only [he] at hr
    subst hr
    simp only [hu]
    exact ⟨t, ⟨⟨_, rfl, rfl⟩, rfl⟩, h⟩
  · simp only [hu]
    by_cases hcomplete : u.Complete
    · simp only [he, hrep.isComplete_iff.2 hcomplete, if_true, hrep.data] at hr
      simp only [if_pos hcomplete]
      exact h.afterFinalize hu hcomplete hclean (fun b hb => hK e b he (hrep.data ▸ hb)) hr
    · have hnot : e.isComplete = false :=
        Bool.eq_false_iff.2 fun hc => hcomplete (hrep.isComplete_iff.1 hc)
      simp only [he, hnot, Bool.false_eq_true, if_false] at hr
      rw [HttpHandler.afterFinalize, if_neg (by decide), if_pos rfl,
        outcome_bind_ok (outcome_onSparse _ s)] at hr
      subst hr
      simp only [if_neg hcomplete]
      exact ⟨t, ⟨⟨_, rfl, rfl⟩, rfl⟩, h⟩

/-! ## The handlers -/

/-- The handler of a GET answers from the store, and the levels it fills or touches keep what the
store has. -/
theorem HttpCall.allows_get (call : HttpCall) (h : Implements H K s t) (hinj : Set.InjOn H K)
    (hpath : call.req.path = ascii "/cache/" ++ call.key) (henv : call.env.read.cluster = none)
    (hr : outcome (handleGet H call.env call.req) s = r) :
    call.AllowsGet r.1 t ∧ Implements H K r.2 t := by
  rw [HttpCall.AllowsGet]
  rcases eq_or_ne call.key [] with hempty | hkey
  · rw [if_pos hempty]
    rw [HttpHandler.handleGet, hpath, substr_path_cache, orThrow_ok_bind, hempty,
      if_pos List.isEmpty_nil] at hr
    subst hr
    exact ⟨⟨_, rfl, rfl⟩, h⟩
  · rw [if_neg hkey]
    obtain ⟨size, hsize⟩ : ∃ size, (s.cache.descriptor ⟨call.key⟩).map
      (fun d => d.metadata.totalSize) = size := ⟨_, rfl⟩
    -- the size is that of the value, unless every level has forgotten it
    have hknown : ∀ d, s.cache.descriptor ⟨call.key⟩ = some d → ∃ v,
        t.value call.key = some v ∧ size = some v.length := by
      intro d hd
      obtain ⟨v, hv, htotal⟩ := h.descriptor hd
      rw [hd, Option.map_some, htotal] at hsize
      exact ⟨v, hv, hsize.symm⟩
    have hsizes : size = none ∨ size = (t.value call.key).map List.length := by
      cases hd : s.cache.descriptor ⟨call.key⟩ with
      | none =>
        rw [hd] at hsize
        exact .inl hsize.symm
      | some d =>
        obtain ⟨v, hv, hlength⟩ := hknown d hd
        exact .inr (by rw [hv, hlength, Option.map_some])
    rcases outcome_handleGet H call.env hpath hkey s hsize with
      ⟨e, he, hthrows⟩ | ⟨range, hrange, opts, rfl, hreads⟩
    · rw [hthrows] at hr
      subst hr
      exact ⟨⟨size, hsizes, .inl ⟨e, he, rfl⟩⟩, h⟩
    · rw [hreads] at hr
      subst hr
      refine ⟨⟨size, hsizes, .inr ⟨opts.range, hrange, ?_⟩⟩, h.get henv ⟨call.key⟩ opts⟩
      rcases h.response hinj henv call.key opts rfl with hmiss | ⟨v, hv, ⟨d, hd⟩, hserves⟩
      · exact .inl ⟨_, rfl, hmiss⟩
      · obtain ⟨v', hv', hlength⟩ := hknown d hd
        cases hv.symm.trans hv'
        exact .inr ⟨v, _, hv, hlength, rfl, hserves⟩

theorem Implements.handlePut (h : Implements H K s t) (hpath : req.path = ascii "/cache/" ++ key)
    (hclean : env.write.Clean) (hmemory : flagged req "X-ElCache-No-Memory" = false)
    (hdisk : flagged req "X-ElCache-No-Disk" = false)
    (hK : ∀ b ∈ Slice.blocks chunkSize req.body.bytes, b ∈ K) :
    ∃ t', ((HasStatus (outcome (handlePut H env req) s).1 201 ∧
        t' = (t.answer (.put key req.body.bytes)).2) ∨
      (¬ HasStatus (outcome (handlePut H env req) s).1 201 ∧ t' = t)) ∧
      Implements H K (outcome (handlePut H env req) s).2 t' := by
  rcases outcome_handlePut H env hpath s with ⟨hrefused, hsame⟩ | ⟨ttl, flags, heq⟩
  · rw [hsame]
    exact ⟨t, .inr ⟨hrefused, rfl⟩, h⟩
  · rw [heq]
    exact h.writeValueOf hclean hmemory hdisk hK ttl flags

/-- The handler of a HEAD answers from the store: a descriptor is that of the value it has. -/
theorem HttpCall.allows_head (call : HttpCall) (h : Implements H K s t)
    (hpath : call.req.path = ascii "/cache/" ++ call.key)
    (hr : outcome (handleHead call.req) s = r) : call.AllowsHead r.1 t ∧ Implements H K r.2 t := by
  rw [HttpCall.AllowsHead]
  rcases eq_or_ne call.key [] with hempty | hkey
  · rw [if_pos hempty]
    rw [HttpHandler.handleHead, hpath, substr_path_cache, orThrow_ok_bind, hempty,
      if_pos List.isEmpty_nil] at hr
    subst hr
    exact ⟨⟨_, rfl, rfl⟩, h⟩
  · rw [if_neg hkey]
    rw [outcome_handleHead hpath hkey] at hr
    subst hr
    refine ⟨?_, h⟩
    cases hd : s.cache.descriptor ⟨call.key⟩ with
    | none => exact .inl ⟨_, rfl, rfl⟩
    | some d =>
      obtain ⟨v, hv, hsize⟩ := h.descriptor hd
      refine .inr ⟨v, _, hv, rfl, rfl, ?_⟩
      rw [← hsize]
      exact AList.lookup_insert _

/-- The handler of a DELETE: the key is gone, whether it was there or not. -/
theorem Implements.handleDelete (h : Implements H K s t)
    (hpath : req.path = ascii "/cache/" ++ key) :
    ∃ t', (if key = [] then HasStatus (outcome (handleDelete req) s).1 400 ∧ t' = t
      else HasStatus (outcome (handleDelete req) s).1 204 ∧ t' = (t.answer (.delete key)).2) ∧
      Implements H K (outcome (handleDelete req) s).2 t' := by
  rcases eq_or_ne key [] with rfl | hkey
  · rw [HttpHandler.handleDelete, hpath, substr_path_cache, orThrow_ok_bind,
      if_pos List.isEmpty_nil]
    exact ⟨t, by rw [if_pos rfl]; exact ⟨⟨_, rfl, rfl⟩, rfl⟩, h⟩
  · rw [outcome_handleDelete hpath hkey]
    exact ⟨_, by rw [if_neg hkey]; exact ⟨⟨_, rfl, rfl⟩, rfl⟩, h.delete key⟩

/-- The handler that creates an upload refuses a request without a key or without a positive size,
and leaves the rest to the table of uploads. -/
theorem HttpCall.allows_create (call : HttpCall) (h : Implements H K s t)
    (hpath : call.req.path = ascii "/sparse/" ++ call.key) :
    ∃ t', call.AllowsCreate (outcome (handleSparseCreate call.req) s).1 t t' ∧
      Implements H K (outcome (handleSparseCreate call.req) s).2 t' := by
  rw [HttpHandler.handleSparseCreate, hpath, substr_path_sparse, orThrow_ok_bind]
  unfold HttpCall.AllowsCreate askedSize
  rcases eq_or_ne call.key [] with hempty | hkey
  · rw [hempty, if_pos List.isEmpty_nil]
    simp only [if_true]
    exact ⟨t, ⟨⟨_, rfl, rfl⟩, rfl⟩, h⟩
  · have hnonempty : ¬ call.key.isEmpty = true := by simpa using hkey
    rw [if_neg hnonempty]
    simp only [if_neg hkey]
    cases hparse : stoull (call.req.header "X-ElCache-Size") with
    | error e =>
      -- an empty field is refused before it is parsed, with the same status
      by_cases hfield : (call.req.header "X-ElCache-Size").isEmpty = true
      · rw [if_pos hfield]
        exact ⟨t, ⟨⟨_, rfl, rfl⟩, rfl⟩, h⟩
      · rw [if_neg hfield]
        exact ⟨t, ⟨⟨_, rfl, rfl⟩, rfl⟩, h⟩
    | ok size =>
      have hfield : ¬ (call.req.header "X-ElCache-Size").isEmpty = true := by
        intro hempty
        rw [List.isEmpty_iff.1 hempty] at hparse
        cases hparse
      rw [if_neg hfield]
      dsimp only
      rcases eq_or_ne size 0 with rfl | hpos
      · rw [HttpHandler.createUpload, if_pos rfl]
        exact ⟨t, ⟨⟨_, rfl, rfl⟩, rfl⟩, h⟩
      · obtain ⟨hstatus, himpl⟩ := h.createUpload call.key (stoull_lt hparse) hpos
        rw [if_neg hpos]
        exact ⟨_, ⟨hstatus, rfl⟩, himpl⟩

/-- The handler of a write refuses a request without a key, with an offset it cannot parse or
without a byte, and leaves the rest to the table of uploads. -/
theorem HttpCall.allows_write (call : HttpCall) (h : Implements H K s t)
    (hpath : call.req.path = ascii "/sparse/" ++ call.key)
    (hrange : ∀ offset, offsetOf call.req = .ok offset →
      offset + call.req.body.bytes.length < 2 ^ 64) :
    ∃ t', call.AllowsWrite (outcome (handleSparseWrite call.env call.req) s).1 t t' ∧
      Implements H K (outcome (handleSparseWrite call.env call.req) s).2 t' := by
  rw [HttpHandler.handleSparseWrite, hpath, substr_path_sparse, orThrow_ok_bind]
  unfold HttpCall.AllowsWrite
  rcases eq_or_ne call.key [] with hempty | hkey
  · rw [hempty, if_pos List.isEmpty_nil]
    simp only [true_or, if_true]
    exact ⟨t, ⟨⟨_, rfl, rfl⟩, rfl⟩, h⟩
  · have hnonempty : ¬ call.key.isEmpty = true := by simpa using hkey
    rw [if_neg hnonempty, outcome_bind_ok (outcome_writeOffset_eq call.req s)]
    simp only [hkey, false_or]
    rcases offsetOf_cases call.req with ⟨offset, hoffset⟩ | ⟨msg, hrefused⟩
    · simp only [hoffset]
      rcases eq_or_ne call.req.body.bytes [] with hbody | hbody
      · rw [HttpHandler.writeUpload, if_pos (List.isEmpty_iff.2 hbody)]
        simp only [if_pos hbody]
        exact ⟨t, ⟨⟨_, rfl, rfl⟩, rfl⟩, h⟩
      · obtain ⟨hstatus, himpl⟩ := h.writeUpload call.env call.key (hrange offset hoffset)
          (List.isEmpty_eq_false_iff.2 hbody)
        simp only [if_neg hbody]
        exact ⟨_, ⟨hstatus, rfl⟩, himpl⟩
    · simp only [hrefused]
      refine ⟨t, ?_, h⟩
      split
      · exact ⟨⟨_, rfl, rfl⟩, rfl⟩
      · exact ⟨⟨_, rfl, rfl⟩, rfl⟩

end

namespace HttpCall

variable {H : ByteBuffer → Hash128} {K : Set ByteBuffer} {s : HttpHandler} {t : Store}

/-- The status of an upload is read from its entry, which represents it. -/
theorem allows_status (call : HttpCall) (h : Implements H K s t)
    (hpath : call.req.path = ascii "/sparse/" ++ call.key) :
    call.AllowsStatus (outcome (handleSparseStatus call.showDouble call.req) s).1 t ∧
      (outcome (handleSparseStatus call.showDouble call.req) s).2 = s := by
  unfold AllowsStatus
  rcases eq_or_ne call.key [] with hempty | hkey
  · rw [handleSparseStatus, hpath, substr_path_sparse, orThrow_ok_bind, hempty,
      if_pos List.isEmpty_nil, if_pos rfl]
    exact ⟨⟨_, rfl, rfl⟩, rfl⟩
  · rw [outcome_handleSparseStatus _ hpath hkey, if_neg hkey]
    refine ⟨?_, rfl⟩
    rcases h.matches call.key with ⟨he, hu⟩ | ⟨e, u, he, hu, hrep⟩
    · rw [he, hu]
      exact ⟨_, rfl, rfl⟩
    · rw [he, hu]
      refine ⟨u.hundred_le_percent_iff, _, rfl, rfl, ?_⟩
      rw [← hrep.completionPercent, ← hrep.totalSize]
      rfl

/-- Every response to a request is one that the store explains, and the state it leaves has what
the store then has. -/
theorem step {call : HttpCall} (h : Implements H K s t) (hplain : call.Plain)
    (hinj : Set.InjOn H K) (hK : call.chunks s ⊆ K) :
    ∃ t', call.Allows (call.serve H s).1 t t' ∧ Implements H K (call.serve H s).2 t' := by
  obtain ⟨route, key, req, hpath, env, showDouble⟩ := call
  obtain ⟨halone, hclean, hmemory, hdisk, hrange⟩ := hplain
  unfold Allows serve handler
  cases route with
  | endpoint e =>
    cases e with
    | get =>
      obtain ⟨hallows, himpl⟩ := allows_get
        ⟨.endpoint .get, key, req, hpath, env, showDouble⟩ h hinj hpath halone rfl
      exact ⟨t, ⟨rfl, hallows⟩, himpl⟩
    | put => exact h.handlePut hpath hclean hmemory hdisk fun b hb => hK hb
    | sparseCreate =>
      exact allows_create ⟨.endpoint .sparseCreate, key, req, hpath, env, showDouble⟩ h hpath
    | sparseWrite =>
      exact allows_write ⟨.endpoint .sparseWrite, key, req, hpath, env, showDouble⟩ h hpath hrange
    | sparseFinalize =>
      dsimp only [Endpoint.handler]
      rw [handleSparseFinalize_eq H env hpath]
      unfold AllowsFinalize
      rcases eq_or_ne key [] with rfl | hkey
      · rw [if_pos List.isEmpty_nil]
        exact ⟨t, by rw [if_pos rfl]; exact ⟨⟨_, rfl, rfl⟩, rfl⟩, h⟩
      · rw [if_neg (by simpa using hkey)]
        obtain ⟨t', hallows, himpl⟩ :=
          h.finalizeUpload hclean (fun e b he hb => hK ⟨e, he, hb⟩) rfl
        exact ⟨t', by rw [if_neg hkey]; exact hallows, himpl⟩
  | delete => exact h.handleDelete hpath
  | head =>
    obtain ⟨hallows, himpl⟩ := allows_head
      ⟨.head, key, req, hpath, env, showDouble⟩ h hpath rfl
    exact ⟨t, ⟨rfl, hallows⟩, himpl⟩
  | options => exact ⟨t, ⟨rfl, _, rfl, rfl⟩, h⟩
  | sparseStatus =>
    obtain ⟨hallows, hsame⟩ := allows_status
      ⟨.sparseStatus, key, req, hpath, env, showDouble⟩ h hpath
    refine ⟨t, ⟨rfl, hallows⟩, ?_⟩
    dsimp only at hsame ⊢
    rw [hsame]
    exact h
  | sparseAbort =>
    dsimp only
    rw [outcome_abortUpload hpath s]
    exact ⟨_, ⟨⟨_, rfl, rfl⟩, rfl⟩, h.abort key⟩

end HttpCall

/-! ## Runs -/

/-- The requests of a run with their responses. -/
def responses (H : ByteBuffer → Hash128) (calls : List HttpCall) (s : HttpHandler) :
    List (HttpCall × Except StdException HttpResponse) :=
  calls.zip (replies (HttpCall.serve H) calls s)

/-- A request in a run without a clock and a failing write. -/
def sampleCall (route : Route) (req : HttpRequest) (hpath : req.path = route.path (ascii "k")) :
    HttpCall :=
  ⟨route, ascii "k", req, hpath, .quiet, fun _ => []⟩

/-- A request to create an upload. -/
def createRequest (size : String) : HttpRequest where
  path := ascii "/sparse/k"
  headers := (∅ : Headers).insert (ascii "X-ElCache-Size") (ascii size)
  body := .single 0

/-- A write of one byte to an upload, at the offset that the query names. -/
def writeRequest (query : String) (byte : UInt8) : HttpRequest where
  path := ascii "/sparse/k"
  query := ascii query
  body := .single byte

/-- A GET with a query. -/
def getRequest (query : String) : HttpRequest where
  path := ascii "/cache/k"
  query := ascii query
  body := .single 0

/-- An upload of two bytes in two writes, with a look at its status between them, and then a HEAD, a
GET of the value and a GET of its second byte. -/
def uploadCalls : List HttpCall :=
  [sampleCall (.endpoint .sparseCreate) (createRequest "2") rfl,
    sampleCall (.endpoint .sparseWrite) (writeRequest "offset=1" 8) rfl,
    sampleCall .sparseStatus { path := ascii "/sparse/k", body := .single 0 } rfl,
    sampleCall (.endpoint .sparseWrite) (writeRequest "" 7) rfl,
    sampleCall (.endpoint .sparseFinalize) (finalizeRequest "60") rfl,
    sampleCall .head (getRequest "") rfl,
    sampleCall (.endpoint .get) (getRequest "") rfl,
    sampleCall (.endpoint .get) (getRequest "range=1-1") rfl]

/-- A sample request with a body of one byte at one of the first two offsets is plain. -/
theorem plain_sampleCall {route : Route} {req : HttpRequest}
    {hpath : req.path = route.path (ascii "k")}
    (hmemory : flagged req "X-ElCache-No-Memory" = false)
    (hdisk : flagged req "X-ElCache-No-Disk" = false) {n : Nat} (hn : n < 2)
    (hoffset : offsetOf req = .ok n) (hbody : req.body.bytes.length = 1) :
    (sampleCall route req hpath).Plain where
  alone := rfl
  clean := ⟨fun _ => rfl, rfl⟩
  memory := hmemory
  disk := hdisk
  inRange offset h := by
    cases hoffset.symm.trans h
    show n + req.body.bytes.length < 2 ^ 64
    rw [hbody]
    omega

end ElCache
