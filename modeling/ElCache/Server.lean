import ElCache.Coordinator.Absent
import ElCache.Http.Service
import ElCache.Lib.Part
import ElCache.Unix.Server

/-!
# The two front ends of the server

`ElCacheServer` answers HTTP requests from the coordinator. The Unix socket gets the coordinator
too, but its handlers use a table of their own, `g_sync_cache`; only the table of uploads is shared.
So one server has two stores: in every interleaving of requests of both kinds, a key that was not
put or finalized through one front end is not found there, whatever is stored through the other
(`fronts_separate`).

A step is one call of the coordinator or of a table.
-/

namespace ElCache

open Text Unix

/-! ## What a handler keeps -/

namespace Handling

variable {α β : Type} {I : HttpHandler → Prop} {J : CacheCoordinator → Prop} {Q : α → Prop}
  {R : β → Prop}

/-- Every step of the handler keeps `I`, and what it answers, if it does not throw, satisfies
`Q`. -/
def Keeps (I : HttpHandler → Prop) (Q : α → Prop) (h : Handling α) : Prop :=
  (ExceptT.run h).Safe I fun r => ∀ a, r = .ok a → Q a

theorem keeps_pure {a : α} (h : Q a) : Keeps I Q (pure a) := by
  intro b hb
  cases hb
  exact h

theorem keeps_orThrow (x : Except StdException α) : Keeps I (fun _ => True) (orThrow x) :=
  fun _ _ => trivial

theorem Keeps.bind {h : Handling α} {k : α → Handling β} (hh : Keeps I Q h)
    (hk : ∀ a, Q a → Keeps I R (k a)) : Keeps I R (h >>= k) := by
  refine Prog.Safe.bind hh fun r hr => ?_
  cases r with
  | ok a => exact hk a (hr a rfl)
  | error e =>
    intro b hb
    cases hb

/-- An operation of the coordinator keeps what it keeps step by step. -/
theorem keeps_onCache {p : Prog CacheCoordinator α} (hp : p.Safe J Q) :
    Keeps (fun s => J s.cache) Q (onCache p) := by
  refine Prog.safe_atomic fun s hs => ⟨(hp.run hs).1, ?_⟩
  intro a ha
  cases ha
  exact (hp.run hs).2

/-- An operation of the table of uploads keeps what holds of the coordinator. -/
theorem keeps_onSparse (f : SparseCache → α × SparseCache) :
    Keeps (fun s => J s.cache) (fun _ => True) (onSparse f) :=
  Prog.safe_atomic fun _ hs => ⟨hs, fun _ _ => trivial⟩

end Handling

namespace HttpHandler

open Handling CacheCoordinator

variable {H : ByteBuffer → Hash128} {env : HttpEnv} {key key' : ByteBuffer} {req : HttpRequest}

/-- No level of the coordinator has the key. -/
def Absent (key : ByteBuffer) (s : HttpHandler) : Prop := s.cache.Absent ⟨key⟩

/-- A read for which no peer has anything. -/
def Unanswered (env : ReadEnv) (key : ByteBuffer) : Prop :=
  ∀ opts, (Operation.get env ⟨key⟩ opts).Unanswered

theorem keeps_headerRange (req : HttpRequest) :
    Keeps (Absent key) (fun _ => True) (headerRange key' req) := by
  rw [headerRange]
  split
  · refine (keeps_onCache (safe_metadata _)).bind fun metadata _ => ?_
    cases metadata with
    | none => exact keeps_pure trivial
    | some m => exact (keeps_orThrow _).bind fun _ _ => keeps_pure trivial
  · exact keeps_pure trivial

/-- A read of the key finds nothing. -/
theorem keeps_handleGet (hpath : req.path = ascii "/cache/" ++ key')
    (hun : Unanswered env.read key') :
    Keeps (Absent key) (fun resp => key' = key → key ≠ [] → resp.statusCode = 404)
      (handleGet H env req) := by
  rw [handleGet, hpath, substr_path_cache, orThrow_ok_bind]
  split
  · next hempty =>
    refine keeps_pure ?_
    rintro rfl hne
    exact absurd (List.isEmpty_iff.1 hempty) hne
  · refine (keeps_headerRange req).bind fun fromHeader _ => ?_
    refine (keeps_orThrow _).bind fun fromQuery _ => ?_
    refine (keeps_onCache (safe_get (hun _))).bind fun result hresult => keeps_pure ?_
    rintro rfl -
    rw [hresult rfl]
    rfl

/-- Neither does a request for its head. -/
theorem keeps_handleHead (hpath : req.path = ascii "/cache/" ++ key') :
    Keeps (Absent key) (fun resp => key' = key → key ≠ [] → resp.statusCode = 404)
      (handleHead req) := by
  rw [handleHead, hpath, substr_path_cache, orThrow_ok_bind]
  split
  · next hempty =>
    refine keeps_pure ?_
    rintro rfl hne
    exact absurd (List.isEmpty_iff.1 hempty) hne
  · refine (keeps_onCache (safe_metadata _)).bind fun metadata hmetadata => ?_
    cases metadata with
    | none => exact keeps_pure fun _ _ => rfl
    | some m =>
      refine keeps_pure ?_
      rintro rfl -
      cases hmetadata rfl

theorem keeps_handlePut (hpath : req.path = ascii "/cache/" ++ key') (hne : key' ≠ key) :
    Keeps (Absent key) (fun _ => True) (handlePut H env req) := by
  have hkey : (⟨key'⟩ : CacheKey) ≠ ⟨key⟩ := fun h => hne (congrArg CacheKey.data h)
  rw [handlePut, hpath, substr_path_cache, orThrow_ok_bind]
  split
  · exact keeps_pure trivial
  · split
    · exact keeps_pure trivial
    · refine (keeps_orThrow _).bind fun ttl _ => (keeps_orThrow _).bind fun flags _ => ?_
      refine (keeps_onCache (safe_put_of_ne hkey)).bind fun status _ => ?_
      split
      · exact keeps_pure trivial
      · exact keeps_pure trivial

theorem keeps_handleDelete (req : HttpRequest) :
    Keeps (Absent key) (fun _ => True) (handleDelete req) := by
  refine (keeps_orThrow _).bind fun key' _ => ?_
  split
  · exact keeps_pure trivial
  · refine (keeps_onCache (safe_remove _ _)).bind fun status _ => ?_
    split
    · exact keeps_pure trivial
    · split
      · exact keeps_pure trivial
      · exact keeps_pure trivial

/-- An upload is opened in the table, the levels are not touched. -/
theorem keeps_handleSparseCreate (req : HttpRequest) :
    Keeps (Absent key) (fun _ => True) (handleSparseCreate req) := by
  refine (keeps_orThrow _).bind fun key' _ => ?_
  split
  · exact keeps_pure trivial
  · split
    · exact keeps_pure trivial
    · split
      · exact keeps_pure trivial
      · rw [createUpload]
        split
        · exact keeps_pure trivial
        · refine (keeps_onSparse _).bind fun created _ => ?_
          split
          · exact keeps_pure trivial
          · exact keeps_pure trivial

/-- A write goes to the table only. -/
theorem keeps_handleSparseWrite (req : HttpRequest) :
    Keeps (Absent key) (fun _ => True) (handleSparseWrite env req) := by
  have hoffset : Keeps (Absent key) (fun _ => True) (writeOffset req) := by
    rw [writeOffset]
    split
    · split
      · exact keeps_pure trivial
      · exact keeps_pure trivial
    · split
      · exact keeps_pure trivial
      · exact (keeps_orThrow _).bind fun _ _ => keeps_pure trivial
  refine (keeps_orThrow _).bind fun key' _ => ?_
  split
  · exact keeps_pure trivial
  · refine hoffset.bind fun parsed _ => ?_
    cases parsed with
    | error refusal => exact keeps_pure trivial
    | ok offset =>
      dsimp only
      rw [writeUpload]
      split
      · exact keeps_pure trivial
      · refine (keeps_onSparse _).bind fun success _ => ?_
        split
        · exact (keeps_onSparse _).bind fun _ _ => keeps_pure trivial
        · refine (keeps_onSparse _).bind fun found _ => ?_
          split
          · exact keeps_pure trivial
          · exact keeps_pure trivial

/-- A finalize stores its value under another key. -/
theorem keeps_handleSparseFinalize (hpath : req.path = Endpoint.path key' .sparseFinalize)
    (hne : key' ≠ key) : Keeps (Absent key) (fun _ => True) (handleSparseFinalize H env req) := by
  have hkey : (⟨key'⟩ : CacheKey) ≠ ⟨key⟩ := fun h => hne (congrArg CacheKey.data h)
  rw [handleSparseFinalize_eq H env hpath]
  split
  · exact keeps_pure trivial
  · refine (keeps_onSparse _).bind fun result _ => ?_
    rw [afterFinalize]
    split
    · exact keeps_pure trivial
    · split
      · exact (keeps_onSparse _).bind fun _ _ => keeps_pure trivial
      · refine (keeps_orThrow _).bind fun ttl _ => ?_
        refine (keeps_onCache (safe_put_of_ne hkey)).bind fun status _ => ?_
        split
        · exact keeps_pure trivial
        · exact keeps_pure trivial

theorem keeps_handleSparseStatus (showDouble : Rat → ByteBuffer) (req : HttpRequest) :
    Keeps (Absent key) (fun _ => True) (handleSparseStatus showDouble req) := by
  refine (keeps_orThrow _).bind fun key' _ => ?_
  split
  · exact keeps_pure trivial
  · refine (keeps_onSparse _).bind fun found _ => ?_
    split
    · exact (keeps_onSparse _).bind fun _ _ => (keeps_onSparse _).bind fun _ _ => keeps_pure trivial
    · exact keeps_pure trivial

theorem keeps_abortUpload (req : HttpRequest) :
    Keeps (Absent key) (fun _ => True) (abortUpload req) :=
  (keeps_orThrow _).bind fun _ _ => (keeps_onSparse _).bind fun _ _ => keeps_pure trivial

end HttpHandler

namespace HttpCall

open HttpHandler Handling

/-- The request stores a value under the key. -/
def Stores (key : ByteBuffer) (call : HttpCall) : Prop :=
  (call.route = .endpoint .put ∨ call.route = .endpoint .sparseFinalize) ∧ call.key = key

/-- The request reads the value of the key. -/
def Reads (key : ByteBuffer) (call : HttpCall) : Prop :=
  (call.route = .endpoint .get ∨ call.route = .head) ∧ call.key = key

/-- A request that does not store the key leaves it absent, and one that reads it is answered with
404. -/
theorem keeps_handler (H : ByteBuffer → Hash128) {call : HttpCall} {key : ByteBuffer}
    (hstores : ¬ call.Stores key) (hun : Unanswered call.env.read call.key) :
    Keeps (Absent key) (fun resp => call.Reads key → key ≠ [] → resp.statusCode = 404)
      (call.handler H) := by
  obtain ⟨route, key', req, hpath, env, showDouble⟩ := call
  set call : HttpCall := ⟨route, key', req, hpath, env, showDouble⟩
  have hread : ∀ {h : Handling HttpResponse},
      Keeps (Absent key) (fun resp => key' = key → key ≠ [] → resp.statusCode = 404) h →
      Keeps (Absent key) (fun resp => call.Reads key → key ≠ [] → resp.statusCode = 404) h :=
    fun hh => Prog.Safe.mono hh fun _ hr a ha hreads => hr a ha hreads.2
  have hother : ∀ {h : Handling HttpResponse}, ¬ (route = .endpoint .get ∨ route = .head) →
      Keeps (Absent key) (fun _ => True) h →
      Keeps (Absent key) (fun resp => call.Reads key → key ≠ [] → resp.statusCode = 404) h :=
    fun hroute hh => Prog.Safe.mono hh fun _ _ _ _ hreads => absurd hreads.1 hroute
  cases route with
  | endpoint e =>
    cases e with
    | get => exact hread (keeps_handleGet hpath hun)
    | put =>
      exact hother (by simp) (keeps_handlePut hpath fun h => hstores ⟨.inl rfl, h⟩)
    | sparseCreate => exact hother (by simp) (keeps_handleSparseCreate req)
    | sparseWrite => exact hother (by simp) (keeps_handleSparseWrite req)
    | sparseFinalize =>
      exact hother (by simp) (keeps_handleSparseFinalize hpath fun h => hstores ⟨.inr rfl, h⟩)
  | delete => exact hother (by simp) (keeps_handleDelete req)
  | head => exact hread (keeps_handleHead hpath)
  | options => exact hother (by simp) (keeps_pure trivial)
  | sparseStatus => exact hother (by simp) (keeps_handleSparseStatus showDouble req)
  | sparseAbort => exact hother (by simp) (keeps_abortUpload req)

end HttpCall

namespace Unix

/-- The request stores a value under the key. -/
def Request.Stores (key : ByteBuffer) : Request → Prop
  | .put key' _ => key' = key
  | .finalize key' => key' = key
  | _ => False

/-- The key has no value in the table. -/
def Absent (key : ByteBuffer) (s : Server) : Prop := s.sync.data key = none

/-- The same for the Unix socket, whose values are in a table of their own. -/
theorem safe_handle {request : Request} {key : ByteBuffer} (hstores : ¬ request.Stores key) :
    (handle request).Safe (Absent key) fun answer =>
      ∀ hasRange offset length, request = .get key hasRange offset length →
        answer = .value none := by
  cases request with
  | get key' hasRange offset length =>
    refine Prog.Safe.bind (Q := fun found => key' = key → found = none)
      (Prog.safe_atomic fun s hs => ⟨hs, ?_⟩) fun found hfound => Prog.safe_pure ?_
    · rintro rfl
      exact hs
    · intro _ _ _ heq
      cases heq
      rw [hfound rfl]
      rfl
  | put key' value =>
    refine Prog.Safe.bind (Q := fun _ => True) (Prog.safe_atomic fun s hs => ⟨?_, trivial⟩)
      fun _ _ => Prog.safe_pure fun _ _ _ heq => (by cases heq)
    exact (Function.update_of_ne (fun h => hstores h.symm) _ _).trans hs
  | delete key' =>
    refine Prog.Safe.bind (Q := fun _ => True) (Prog.safe_atomic fun s hs => ⟨?_, trivial⟩)
      fun _ _ => Prog.safe_pure fun _ _ _ heq => (by cases heq)
    by_cases hk : key = key'
    · subst hk
      exact Function.update_self ..
    · exact (Function.update_of_ne hk _ _).trans hs
  | createSparse key' totalSize =>
    exact Prog.Safe.bind (Q := fun _ => True) (Prog.safe_atomic fun s hs => ⟨hs, trivial⟩)
      fun _ _ => Prog.safe_pure fun _ _ _ heq => (by cases heq)
  | writeRange key' offset data =>
    refine Prog.Safe.bind (Q := fun _ => True) (Prog.safe_atomic fun s hs => ⟨hs, trivial⟩)
      fun success _ => ?_
    split
    · exact Prog.safe_pure fun _ _ _ heq => (by cases heq)
    · exact Prog.Safe.bind (Q := fun _ => True) (Prog.safe_atomic fun s hs => ⟨hs, trivial⟩)
        fun _ _ => Prog.safe_pure fun _ _ _ heq => (by cases heq)
  | finalize key' =>
    refine Prog.Safe.bind (Q := fun _ => True) (Prog.safe_atomic fun s hs => ⟨hs, trivial⟩)
      fun result _ => ?_
    split
    · refine Prog.Safe.bind (Q := fun _ => True) (Prog.safe_atomic fun s hs => ⟨?_, trivial⟩)
        fun _ _ => Prog.safe_pure fun _ _ _ heq => (by cases heq)
      exact (Function.update_of_ne (fun h => hstores h.symm) _ _).trans hs
    · exact Prog.safe_pure fun _ _ _ heq => (by cases heq)

end Unix

/-! ## The server -/

/-- What the front ends of `ElCacheServer` work on. -/
structure ElCacheServer where
  coordinator : CacheCoordinator
  sync : SyncCache := {}
  sparse : SparseCache := {}

/-- A request to the server. -/
inductive ServerCall where
  | http (call : HttpCall)
  | unix (request : Request)

/-- What the server answers, or what a handler throws. -/
inductive ServerReply where
  | http (result : Except StdException HttpResponse)
  | unix (answer : Answer)

namespace ElCacheServer

/-- The server before any request. -/
def init (config : Config) : ElCacheServer := { coordinator := .init config }

/-- A handler of the HTTP server. -/
def onHttp {α : Type} (p : Prog HttpHandler α) : Prog ElCacheServer α :=
  p.zoom (fun s => ⟨s.coordinator, s.sparse⟩) fun x s =>
    { s with coordinator := x.cache, sparse := x.sparse }

/-- A handler of the Unix socket. -/
def onUnix {α : Type} (p : Prog Server α) : Prog ElCacheServer α :=
  p.zoom (fun s => ⟨s.sync, s.sparse⟩) fun x s => { s with sync := x.sync, sparse := x.sparse }

section
variable {α : Type} {Q : α → Prop} {J : CacheCoordinator → Prop} {K : SyncCache → Prop}

theorem safe_onHttp {p : Prog HttpHandler α} (hp : p.Safe (fun s => J s.cache) Q) :
    (onHttp p).Safe (fun s => J s.coordinator) Q :=
  hp.zoom (fun _ hs => hs) fun _ _ _ hx => hx

theorem safe_onUnix {p : Prog Server α} (hp : p.Safe (fun s => K s.sync) Q) :
    (onUnix p).Safe (fun s => K s.sync) Q :=
  hp.zoom (fun _ hs => hs) fun _ _ _ hx => hx

/-- The Unix socket leaves the coordinator alone. -/
theorem safe_coordinator_onUnix (p : Prog Server α) :
    (onUnix p).Safe (fun s => J s.coordinator) fun _ => True := by
  refine Prog.safe_zoom ?_ p
  exact fun _ _ hs => hs

/-- HTTP leaves the table of the Unix socket alone. -/
theorem safe_sync_onHttp (p : Prog HttpHandler α) :
    (onHttp p).Safe (fun s => K s.sync) fun _ => True := by
  refine Prog.safe_zoom ?_ p
  exact fun _ _ hs => hs

end

/-- The program that answers a request. -/
def serve (H : ByteBuffer → Hash128) : ServerCall → Prog ElCacheServer ServerReply
  | .http call => do pure (.http (← onHttp (ExceptT.run (call.handler H))))
  | .unix request => do pure (.unix (← onUnix (handle request)))

/-- All requests before the first step. -/
def startCalls {κ : Type} (H : ByteBuffer → Hash128) (config : Config) (calls : κ → ServerCall) :
    Pool κ ElCacheServer ServerReply :=
  .start (init config) fun t => serve H (calls t)

section
variable {H : ByteBuffer → Hash128} {key : ByteBuffer} {call : ServerCall}

/-- If HTTP does not store the key, the coordinator does not get it, and HTTP does not find it. -/
theorem safe_serve_http (hstores : ∀ c, call = .http c → ¬ c.Stores key)
    (hun : ∀ c, call = .http c → HttpHandler.Unanswered c.env.read c.key) :
    (serve H call).Safe (fun s => s.coordinator.Absent ⟨key⟩) fun reply =>
      ∀ c resp, call = .http c → c.Reads key → key ≠ [] → reply = .http (.ok resp) →
        resp.statusCode = 404 := by
  cases call with
  | http c =>
    have hkeeps := HttpCall.keeps_handler H (hstores c rfl) (hun c rfl)
    refine (safe_onHttp hkeeps).bind fun r hr => Prog.safe_pure ?_
    intro c' resp hc hreads hne heq
    cases hc
    cases heq
    exact hr resp rfl hreads hne
  | unix request =>
    refine (safe_coordinator_onUnix _).bind fun answer _ => Prog.safe_pure ?_
    intro c resp hc
    cases hc

/-- If the Unix socket does not store the key, its table does not get it, and the socket does not
find it. -/
theorem safe_serve_unix (hstores : ∀ r, call = .unix r → ¬ r.Stores key) :
    (serve H call).Safe (fun s => s.sync.data key = none) fun reply =>
      ∀ hasRange offset length, call = .unix (.get key hasRange offset length) →
        reply = .unix (.value none) := by
  cases call with
  | http c =>
    refine (safe_sync_onHttp (K := fun c => c.data key = none) _).bind fun r _ =>
      Prog.safe_pure ?_
    intro _ _ _ heq
    cases heq
  | unix request =>
    have hhandle := safe_handle (hstores request rfl)
    refine (safe_onUnix (K := fun c => c.data key = none) hhandle).bind fun answer hanswer =>
      Prog.safe_pure ?_
    intro hasRange offset length heq
    cases heq
    rw [hanswer hasRange offset length rfl]

end

variable {κ : Type} [DecidableEq κ]

/-- **The two front ends have separate stores.** Take any number of HTTP requests and of requests on
the Unix socket, in any interleaving of their steps, none of which finds anything at a peer. A key
that no HTTP request puts or finalizes is not found over HTTP: a GET or HEAD that is answered gets a
404. A key that no request on the Unix socket puts or finalizes is not found there. In both cases it
does not matter what is stored through the other front end. -/
theorem fronts_separate (H : ByteBuffer → Hash128) (config : Config) (calls : κ → ServerCall)
    (hun : ∀ t c, calls t = .http c → HttpHandler.Unanswered c.env.read c.key)
    {P : Pool κ ElCacheServer ServerReply}
    (hreach : Pool.Reach (fun _ _ => False) (startCalls H config calls) P) (key : ByteBuffer)
    (hkey : key ≠ []) :
    ((∀ t c, calls t = .http c → ¬ c.Stores key) → ∀ t c resp, calls t = .http c → c.Reads key →
      (P.threads t).prog = .ret (.http (.ok resp)) → resp.statusCode = 404) ∧
    ((∀ t r, calls t = .unix r → ¬ r.Stores key) → ∀ t hasRange offset length answer,
      calls t = .unix (.get key hasRange offset length) →
      (P.threads t).prog = .ret (.unix answer) → answer = .value none) := by
  constructor
  · intro hstores t c resp hc hreads hreturned
    exact hreach.result (fun _ _ _ h => h.elim) (fun t => safe_serve_http (hstores t) (hun t))
      (CacheCoordinator.absent_init config) hreturned c resp hc hreads hkey rfl
  · intro hstores t hasRange offset length answer hc hreturned
    have hreply := hreach.result (fun _ _ _ h => h.elim) (fun t => safe_serve_unix (hstores t)) rfl
      hreturned hasRange offset length hc
    cases hreply
    rfl

/-- A byte is put over HTTP, and the Unix socket is asked for it. -/
def pairCalls (asks : Bool) : ServerCall :=
  bif asks then .unix (.get (ascii "k") false 0 0)
  else .http ⟨.endpoint .put, ascii "k", { path := ascii "/cache/k", body := .single 7 }, rfl,
    ⟨{ memoryNow := 0, diskNow := 0 }, 0, 0, { tick := fun _ => 0 }, fun _ => []⟩, fun _ => []⟩

/-- The put is done when the socket is asked, which has nothing under the key. -/
theorem fronts_separate_pair : ∃ P answer, Pool.Reach (fun _ _ => False)
    (startCalls (fun _ => ⟨0, 0⟩) {} pairCalls) P ∧
    (P.threads true).prog = .ret (.unix answer) ∧ answer = .value none := by
  obtain ⟨P, hreach, -, hreturned⟩ := Pool.exists_reach_run_pair (E := fun _ _ => False)
    (init {}) (fun t => serve (fun _ => ⟨0, 0⟩) (pairCalls t)) (i := false) (j := true)
    (by decide) rfl
  refine ⟨P, _, hreach, hreturned, ?_⟩
  refine (fronts_separate _ {} pairCalls ?_ hreach (ascii "k") (by decide)).2 ?_ true false 0 0 _
    rfl hreturned
  · intro t c hc opts cluster hcluster
    cases t with
    | false =>
      cases hc
      cases hcluster
    | true => cases hc
  · intro t r hr
    cases t with
    | false => cases hr
    | true =>
      cases hr
      exact id

end ElCacheServer

end ElCache
