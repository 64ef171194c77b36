import ElCache.Coordinator.Outcome
import ElCache.Http.Numbers

/-!
# Finalizing an upload

`handle_sparse_finalize` takes a complete upload out of the table, then parses the options and only
then stores the value. When one of the later steps fails the upload is gone. `finalize_keeps_iff`
says exactly when a request that is not answered with 201 leaves the upload as it was.
-/

namespace ElCache

open Text Handling

namespace HttpHandler

variable {H : ByteBuffer → Hash128} {env : HttpEnv} {key : ByteBuffer} {req : HttpRequest}
  {s : HttpHandler}

/-- The request is answered with 201. -/
def Created (r : Except StdException HttpResponse) : Prop :=
  ∃ resp, r = .ok resp ∧ resp.statusCode = 201

/-- The upload of the key is as before, unless the request is answered with 201. -/
def KeepsUpload (H : ByteBuffer → Hash128) (env : HttpEnv) (key : ByteBuffer) (req : HttpRequest)
    (s : HttpHandler) : Prop :=
  let r := outcome (handleSparseFinalize H env req) s
  ¬ Created r.1 → r.2.sparse.entries key = s.sparse.entries key

/-- If the upload is complete, its time to live is absent or a number, and the cache takes its
data. -/
def Storable (env : HttpEnv) (key : ByteBuffer) (req : HttpRequest) (s : HttpHandler) : Prop :=
  ∀ e, s.sparse.entries key = some e → e.isComplete = true →
    (req.header "X-ElCache-TTL" = [] ∨ Signed (req.header "X-ElCache-TTL")) ∧
      s.cache.Stores (uploadPut env key e.data none)

/-- Whether a value is taken does not depend on its time to live. -/
theorem stores_uploadPut_iff {c : CacheCoordinator} {data : ByteBuffer} (ttl : Option Int) :
    c.Stores (uploadPut env key data ttl) ↔ c.Stores (uploadPut env key data none) :=
  ⟨fun h => ⟨h.some_level, h.memory, h.disk⟩, fun h => ⟨h.some_level, h.memory, h.disk⟩⟩

/-- An upload is answered with 201 if the cache takes it. -/
theorem created_storeUpload_iff (data : ByteBuffer) (ttl : Option Int) :
    Created (outcome (storeUpload H env key data ttl) s).1 ↔
      s.cache.Stores (uploadPut env key data none) := by
  rw [← stores_uploadPut_iff ttl, ← CacheCoordinator.isOk_put_iff H, storeUpload,
    outcome_bind_ok (outcome_onCache _ s)]
  split
  · next hok => exact ⟨fun _ => hok, fun _ => ⟨_, rfl, rfl⟩⟩
  · next hbad =>
    refine ⟨?_, fun h => absurd h hbad⟩
    rintro ⟨resp, hresp, hcode⟩
    cases hresp
    cases hcode

theorem exists_ttl_iff (text : ByteBuffer) :
    (∃ ttl, optionalNumber stoll text = .ok ttl) ↔ text = [] ∨ Signed text := by
  unfold optionalNumber
  split
  · next hempty => exact ⟨fun _ => .inl (List.isEmpty_iff.1 hempty), fun _ => ⟨none, rfl⟩⟩
  · next hne =>
    rw [exists_map_eq_ok, isOk_stoll_iff]
    exact ⟨.inr, fun h => h.resolve_left fun hnil => hne (List.isEmpty_iff.2 hnil)⟩

/-- What follows the removal of a complete upload is answered with 201 if nothing fails. -/
theorem created_afterFinalize_iff (data : ByteBuffer) :
    Created (outcome (afterFinalize H env req key 0 (some data)) s).1 ↔
      (req.header "X-ElCache-TTL" = [] ∨ Signed (req.header "X-ElCache-TTL")) ∧
        s.cache.Stores (uploadPut env key data none) := by
  rw [afterFinalize, if_neg (by decide), if_neg (by decide), ← exists_ttl_iff]
  cases httl : optionalNumber stoll (req.header "X-ElCache-TTL") with
  | error e =>
    constructor
    · rintro ⟨resp, hresp, -⟩
      cases hresp
    · rintro ⟨⟨ttl, h⟩, -⟩
      cases h
  | ok ttl =>
    rw [orThrow_ok_bind, Option.getD_some, created_storeUpload_iff]
    exact ⟨fun h => ⟨⟨ttl, rfl⟩, h⟩, fun h => h.2⟩

/-- Storing touches no upload. -/
theorem sparse_afterFinalize (data : ByteBuffer) :
    (outcome (afterFinalize H env req key 0 (some data)) s).2.sparse = s.sparse := by
  rw [afterFinalize, if_neg (by decide), if_neg (by decide)]
  cases optionalNumber stoll (req.header "X-ElCache-TTL") with
  | error e => rfl
  | ok ttl =>
    rw [orThrow_ok_bind, storeUpload, outcome_bind_ok (outcome_onCache _ s)]
    split
    · rfl
    · rfl

/-- A request to finalize that is not answered with 201 leaves the upload as it was, exactly if the
key is missing or a complete upload can be stored. -/
theorem finalize_keeps_iff (H : ByteBuffer → Hash128) (env : HttpEnv) (key : ByteBuffer)
    (req : HttpRequest) (hpath : req.path = Endpoint.path key .sparseFinalize) (s : HttpHandler) :
    KeepsUpload H env key req s ↔ key = [] ∨ Storable env key req s := by
  rw [KeepsUpload, handleSparseFinalize_eq H env hpath]
  rcases eq_or_ne key [] with rfl | hkey
  · exact ⟨fun _ => .inl rfl, fun _ _ => rfl⟩
  have hempty : ¬ key.isEmpty = true := by simpa using hkey
  have hcond : (key = [] ∨ Storable env key req s) ↔ Storable env key req s := or_iff_right hkey
  rw [if_neg hempty, finalizeUpload, hcond, outcome_bind_ok (outcome_onSparse _ s)]
  cases hentry : s.sparse.entries key with
  | none =>
    have hfinal : s.sparse.finalize key = (1, none, s.sparse) := by
      rw [SparseCache.finalize, hentry]
    simp only [hfinal]
    refine ⟨fun _ e he => ?_, fun _ _ => hentry⟩
    rw [hentry] at he
    cases he
  | some e =>
    cases hcomplete : e.isComplete with
    | false =>
      have hfinal : s.sparse.finalize key = (2, none, s.sparse) := by
        rw [SparseCache.finalize, hentry]
        exact if_neg (by rw [hcomplete]; exact Bool.false_ne_true)
      simp only [hfinal]
      refine ⟨fun _ e' he hc => ?_, fun _ _ => hentry⟩
      rw [hentry] at he
      cases he
      rw [hcomplete] at hc
      cases hc
    | true =>
      have hfinal : s.sparse.finalize key =
          (0, some e.data, ⟨Function.update s.sparse.entries key none⟩) := by
        rw [SparseCache.finalize, hentry]
        exact if_pos hcomplete
      -- the upload is gone, so the request has to be answered with 201
      simp only [hfinal, sparse_afterFinalize, Function.update_self, reduceCtorEq, imp_false,
        not_not, created_afterFinalize_iff]
      constructor
      · intro h e' he _
        rw [hentry] at he
        cases he
        exact h
      · intro h
        exact h e hentry hcomplete

/-- An empty cache and an upload of one byte that has been created and written. -/
def oneByteUpload : HttpHandler where
  cache := .init {}
  sparse := (SparseCache.writeRange (ascii "k") 0 [7] (SparseCache.create (ascii "k") 1 {}).2).2

/-- A request to finalize the upload with a time to live. -/
def finalizeRequest (ttl : String) : HttpRequest where
  path := ascii "/sparse/k/finalize"
  headers := (∅ : Headers).insert (ascii "X-ElCache-TTL") (ascii ttl)
  body := .single 0

/-- The upload can be finalized with a time to live of a minute. -/
theorem finalize_keeps_iff_minute :
    KeepsUpload sampleHash .quiet (ascii "k") (finalizeRequest "60") oneByteUpload := by
  have hentry : oneByteUpload.sparse.entries (ascii "k") = some ⟨1, [7], [true], false⟩ := rfl
  have hstores : oneByteUpload.cache.Stores (uploadPut .quiet (ascii "k") [7] none) :=
    ⟨.inl rfl, fun _ => by decide, fun _ => ⟨by decide, fun _ _ => rfl, rfl⟩⟩
  refine (finalize_keeps_iff sampleHash .quiet (ascii "k") (finalizeRequest "60") rfl
    oneByteUpload).2 (.inr fun e he _ => ?_)
  rw [hentry] at he
  cases he
  exact ⟨.inr (isOk_stoll_iff.1 ⟨60, rfl⟩), hstores⟩

/-- With a time to live that is a word the request ends in an exception, and the upload is gone. -/
theorem finalize_word_loses :
    (outcome (handleSparseFinalize sampleHash .quiet (finalizeRequest "soon")) oneByteUpload).1 =
        .error .invalidArgument ∧
      ¬ KeepsUpload sampleHash .quiet (ascii "k") (finalizeRequest "soon") oneByteUpload := by
  have hthrow : (outcome (handleSparseFinalize sampleHash .quiet (finalizeRequest "soon"))
      oneByteUpload).1 = .error .invalidArgument := rfl
  refine ⟨hthrow, fun h => ?_⟩
  have hkept := h fun hcreated => ?_
  · cases hkept
  · obtain ⟨resp, hresp, -⟩ := hcreated
    cases hresp.symm.trans hthrow

end HttpHandler

end ElCache
