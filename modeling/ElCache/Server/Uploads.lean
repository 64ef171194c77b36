import ElCache.Lib.Account
import ElCache.Server
import Mathlib.Algebra.BigOperators.Ring.Finset
import Mathlib.Tactic.FinCases

/-!
# Uploads of both front ends

The table of uploads is shared by HTTP and the Unix socket. An upload is opened by a create and
taken by a finalize, whichever front end either comes from. `uploads_conserved`: in every
interleaving no upload is taken twice or lost. The account of a request is what it has added to the
number of open uploads of a key, 0 or 1 for a create and 0 or -1 for a finalize or an abort.
-/

namespace ElCache

open Text Unix Finset

/-! ## The number of open uploads -/

open Classical in
/-- 1 if it is so, and 0 if not. -/
noncomputable def counted (p : Prop) : ℤ := if p then 1 else 0

theorem counted_true {p : Prop} (h : p) : counted p = 1 := if_pos h

theorem counted_false {p : Prop} (h : ¬ p) : counted p = 0 := if_neg h

theorem counted_and_of_not {p q : Prop} (h : ¬ p) : counted (p ∧ q) = 0 :=
  counted_false fun hpq => h hpq.1

theorem counted_nonneg (p : Prop) : 0 ≤ counted p := by
  rw [counted]
  split <;> decide

theorem counted_mono {p q : Prop} (h : p → q) : counted p ≤ counted q := by
  by_cases hp : p
  · rw [counted_true hp, counted_true (h hp)]
  · rw [counted_false hp]
    exact counted_nonneg q

namespace SparseCache

variable {key key' : ByteBuffer} {s : SparseCache}

/-- The number of open uploads of a key: 1 or 0. -/
noncomputable def openCount (key : ByteBuffer) (s : SparseCache) : ℤ :=
  counted ((s.entries key).isSome = true)

theorem openCount_update_of_ne (s : SparseCache) (entry : Option SparseEntry) (h : key' ≠ key) :
    openCount key ⟨Function.update s.entries key' entry⟩ = s.openCount key := by
  rw [openCount, openCount]
  dsimp only
  rw [Function.update_of_ne (Ne.symm h)]

theorem openCount_update_self (key : ByteBuffer) (s : SparseCache) (entry : Option SparseEntry) :
    openCount key ⟨Function.update s.entries key entry⟩ = counted (entry.isSome = true) := by
  rw [openCount]
  dsimp only
  rw [Function.update_self]

theorem openCount_some {e : SparseEntry} (h : s.entries key = some e) : s.openCount key = 1 :=
  counted_true (by rw [h, Option.isSome_some])

theorem openCount_none (h : s.entries key = none) : s.openCount key = 0 :=
  counted_false (by rw [h]; simp)

theorem openCount_create (key key' : ByteBuffer) (totalSize : Nat) (s : SparseCache) :
    openCount key (s.create key' totalSize).2 =
      s.openCount key + counted (key' = key ∧ (s.create key' totalSize).1 = true) := by
  rw [create]
  cases he : s.entries key' with
  | some e =>
    rw [counted_false (fun h => by cases h.2), add_zero]
  | none =>
    by_cases hk : key' = key
    · subst hk
      rw [openCount_none he, counted_true ⟨rfl, rfl⟩]
      exact (openCount_update_self ..).trans (counted_true rfl)
    · rw [counted_false fun h => hk h.1, add_zero]
      exact openCount_update_of_ne _ _ hk

theorem openCount_writeRange (key key' : ByteBuffer) (offset : Nat) (data : ByteBuffer)
    (s : SparseCache) : openCount key (s.writeRange key' offset data).2 = s.openCount key := by
  rw [writeRange]
  cases he : s.entries key' with
  | none => rfl
  | some e =>
    by_cases hk : key' = key
    · subst hk
      rw [openCount_some he]
      exact (openCount_update_self ..).trans (counted_true rfl)
    · exact openCount_update_of_ne _ _ hk

/-- An entry that is taken out of the table. -/
theorem openCount_take {e : SparseEntry} (key : ByteBuffer) (he : s.entries key' = some e) :
    openCount key ⟨Function.update s.entries key' none⟩ =
      s.openCount key - counted (key' = key) := by
  by_cases hk : key' = key
  · subst hk
    rw [openCount_some he, counted_true rfl, openCount_update_self]
    exact counted_false (by simp)
  · rw [counted_false hk, sub_zero, openCount_update_of_ne _ _ hk]

theorem openCount_finalize (key key' : ByteBuffer) (s : SparseCache) :
    openCount key (s.finalize key').2.2 =
      s.openCount key + -counted (key' = key ∧ (s.finalize key').1 = 0) := by
  rw [finalize]
  cases he : s.entries key' with
  | none =>
    rw [counted_false (fun h => by cases h.2), neg_zero, add_zero]
  | some e =>
    dsimp only
    split
    · simp only [and_true]
      exact openCount_take key he
    · rw [counted_false (fun h => by cases h.2), neg_zero, add_zero]

theorem finalize_code_le (key : ByteBuffer) (s : SparseCache) : (s.finalize key).1 ≤ 2 := by
  rw [finalize]
  cases s.entries key with
  | none => exact one_le_two
  | some e =>
    dsimp only
    split
    · exact zero_le_two
    · exact le_rfl

theorem openCount_remove (key key' : ByteBuffer) (s : SparseCache) :
    openCount key (s.remove key').2 =
      s.openCount key + -counted (key' = key ∧ (s.remove key').1 = true) := by
  rw [remove]
  cases he : s.entries key' with
  | none =>
    rw [counted_false (fun h => by cases h.2), neg_zero, add_zero]
  | some e =>
    simp only [and_true]
    exact openCount_take key he

end SparseCache

/-! ## The account of a request -/

namespace ServerCall

/-- The request is a create for the key. -/
def Creates (key : ByteBuffer) : ServerCall → Prop
  | .http call => call.route = .endpoint .sparseCreate ∧ call.key = key
  | .unix request => ∃ totalSize, request = .createSparse key totalSize

/-- The request is a finalize for the key. -/
def Finalizes (key : ByteBuffer) : ServerCall → Prop
  | .http call => call.route = .endpoint .sparseFinalize ∧ call.key = key
  | .unix request => request = .finalize key

/-- The request aborts the upload of the key, if there is one. -/
def Aborts (key : ByteBuffer) : ServerCall → Prop
  | .http call => call.route = .sparseAbort ∧ call.key = key
  | .unix _ => False

end ServerCall

namespace ServerReply

/-- The reply to a create says that an upload has been opened. -/
def Opened : ServerReply → Prop
  | .http result => HasStatus result 201
  | .unix answer => answer = .code 0

/-- The reply to a finalize says that an upload has been taken: the response is not that the request
is malformed, that there is no upload or that it is not complete. What fails after the upload has
been taken is answered with an error, or not at all. -/
def Taken : ServerReply → Prop
  | .http result => ¬ (HasStatus result 400 ∨ HasStatus result 404 ∨ HasStatus result 409)
  | .unix answer => answer = .code 0

end ServerReply

/-- What the account of a request is when it has been answered. Whether an abort dropped an upload
cannot be seen from the reply. -/
def ServerCall.Settles (key : ByteBuffer) (call : ServerCall) (reply : ServerReply) (x : ℤ) :
    Prop :=
  ∃ dropped, (dropped → call.Aborts key) ∧
    x = counted (call.Creates key ∧ reply.Opened) - counted (call.Finalizes key ∧ reply.Taken) -
      counted dropped

namespace Handling

variable {α β : Type} {key : ByteBuffer} {B : ℤ → Prop} {acc : ℤ}
  {F : Except StdException α → ℤ → Prop} {G : Except StdException β → ℤ → Prop} {k : α → Handling β}
  {h : Handling α} {f : SparseCache → α × SparseCache}

/-- The number of open uploads of a key. -/
noncomputable def uploads (key : ByteBuffer) (s : HttpHandler) : ℤ := s.sparse.openCount key

/-- The account of a handler. -/
def Adds (key : ByteBuffer) (B : ℤ → Prop) (F : Except StdException α → ℤ → Prop) (acc : ℤ)
    (h : Handling α) : Prop :=
  (ExceptT.run h).Adds (uploads key) B F acc

/-- An operation of the table of uploads. -/
theorem adds_onSparse_bind (hB : B acc)
    (h : ∀ s, ∃ d, (f s).2.openCount key = s.openCount key + d ∧
      Adds key B G (acc + d) (k (f s).1)) :
    Adds key B G acc (onSparse f >>= k) :=
  ⟨hB, fun s => h s.sparse⟩

theorem Adds.bind (hh : Adds key B F acc h) (hk : ∀ a x, B x → F (.ok a) x → Adds key B G x (k a))
    (herror : ∀ e x, F (.error e) x → G (.error e) x) : Adds key B G acc (h >>= k) := by
  refine Prog.Adds.bind hh fun r x hB hF => ?_
  cases r with
  | ok a => exact hk a x hB hF
  | error e => exact Prog.adds_pure hB (herror e x hF)

/-- The handler opens and takes no upload of the key. -/
def Still (key : ByteBuffer) (h : Handling α) : Prop :=
  ∀ (B : ℤ → Prop) (acc : ℤ), B acc → Adds key B (fun _ x => x = acc) acc h

theorem still_pure (a : α) : Still key (pure a) := fun _ _ hB => Prog.adds_pure hB rfl

theorem still_orThrow (x : Except StdException α) : Still key (orThrow x) :=
  fun _ _ hB => Prog.adds_pure hB rfl

theorem still_onCache (p : Prog CacheCoordinator α) : Still key (onCache p) :=
  fun _ _ hB => Prog.adds_atomic_same hB fun _ => ⟨rfl, rfl⟩

theorem still_onSparse (hf : ∀ s, (f s).2.openCount key = s.openCount key) :
    Still key (onSparse f) :=
  fun _ _ hB => Prog.adds_atomic_same hB fun s => ⟨hf s.sparse, rfl⟩

theorem Still.bind (hh : Still key h) (hk : ∀ a, Still key (k a)) : Still key (h >>= k) := by
  intro B acc hB
  refine Adds.bind (hh B acc hB) (fun a x hx he => ?_) fun _ _ he => he
  cases he
  exact hk a B acc hx

/-- What comes before may be passed over. -/
theorem Still.adds_bind (hh : Still key h) (hB : B acc) (hk : ∀ a, Adds key B G acc (k a))
    (herror : ∀ e, G (.error e) acc) : Adds key B G acc (h >>= k) := by
  refine Adds.bind (hh B acc hB) (fun a x _ he => ?_) fun e x he => ?_
  · cases he
    exact hk a
  · cases he
    exact herror e

end Handling

namespace HttpHandler

open Handling

variable {H : ByteBuffer → Hash128} {env : HttpEnv} {key key' : ByteBuffer} {req : HttpRequest}
  {resp : HttpResponse}

theorem still_handleGet : Still key (handleGet H env req) := by
  refine (still_orThrow _).bind fun key' => ?_
  split
  · exact still_pure _
  · refine Still.bind ?_ fun fromHeader => (still_orThrow _).bind fun fromQuery =>
      (still_onCache _).bind fun result => still_pure _
    rw [headerRange]
    split
    · refine (still_onCache _).bind fun metadata => ?_
      cases metadata with
      | none => exact still_pure _
      | some m => exact (still_orThrow _).bind fun _ => still_pure _
    · exact still_pure _

theorem still_handlePut : Still key (handlePut H env req) := by
  refine (still_orThrow _).bind fun key' => ?_
  split
  · exact still_pure _
  · split
    · exact still_pure _
    · refine (still_orThrow _).bind fun ttl => (still_orThrow _).bind fun flags => ?_
      refine (still_onCache _).bind fun status => ?_
      split
      · exact still_pure _
      · exact still_pure _

theorem still_handleDelete : Still key (handleDelete req) := by
  refine (still_orThrow _).bind fun key' => ?_
  split
  · exact still_pure _
  · refine (still_onCache _).bind fun status => ?_
    split
    · exact still_pure _
    · split
      · exact still_pure _
      · exact still_pure _

theorem still_handleHead : Still key (handleHead req) := by
  refine (still_orThrow _).bind fun key' => ?_
  split
  · exact still_pure _
  · refine (still_onCache _).bind fun metadata => ?_
    cases metadata with
    | none => exact still_pure _
    | some m => exact still_pure _

theorem still_handleSparseStatus (showDouble : Rat → ByteBuffer) :
    Still key (handleSparseStatus showDouble req) := by
  refine (still_orThrow _).bind fun key' => ?_
  split
  · exact still_pure _
  · refine (still_onSparse fun _ => rfl).bind fun found => ?_
    split
    · exact (still_onSparse fun _ => rfl).bind fun _ => (still_onSparse fun _ => rfl).bind fun _ =>
        still_pure _
    · exact still_pure _

/-- A write keeps the number of uploads. -/
theorem still_handleSparseWrite : Still key (handleSparseWrite env req) := by
  have hoffset : Still key (writeOffset req) := by
    rw [writeOffset]
    split
    · split
      · exact still_pure _
      · exact still_pure _
    · split
      · exact still_pure _
      · exact (still_orThrow _).bind fun _ => still_pure _
  refine (still_orThrow _).bind fun key' => ?_
  split
  · exact still_pure _
  · refine hoffset.bind fun parsed => ?_
    cases parsed with
    | error refusal => exact still_pure _
    | ok offset =>
      dsimp only
      rw [writeUpload]
      split
      · exact still_pure _
      · refine (still_onSparse fun s => s.openCount_writeRange key key' offset _).bind fun _ => ?_
        split
        · exact (still_onSparse fun _ => rfl).bind fun _ => still_pure _
        · refine (still_onSparse fun _ => rfl).bind fun found => ?_
          split
          · exact still_pure _
          · exact still_pure _

/-- The account of a create: 1 if it is answered with 201. -/
theorem adds_handleSparseCreate (hpath : req.path = ascii "/sparse/" ++ key') :
    Adds key (fun x => x ≤ counted (key' = key))
      (fun r x => x = counted (key' = key ∧ HasStatus r 201)) 0 (handleSparseCreate req) := by
  have hzero : 0 ≤ counted (key' = key) := counted_nonneg _
  have hrefused : ∀ resp : HttpResponse, resp.statusCode ≠ 201 →
      Adds key (fun x => x ≤ counted (key' = key))
        (fun r x => x = counted (key' = key ∧ HasStatus r 201)) 0 (pure resp) := by
    intro resp hresp
    refine Prog.adds_pure hzero (counted_false ?_).symm
    rintro ⟨-, r, hr, hcode⟩
    cases hr
    exact hresp hcode
  rw [handleSparseCreate, hpath, substr_path_sparse, orThrow_ok_bind]
  split
  · exact hrefused _ (by decide)
  · split
    · exact hrefused _ (by decide)
    · split
      · exact hrefused _ (by decide)
      · next totalSize _ =>
        rw [createUpload]
        split
        · exact hrefused _ (by decide)
        · refine adds_onSparse_bind hzero fun s =>
            ⟨_, s.openCount_create key key' totalSize, ?_⟩
          rw [zero_add]
          cases hcreated : (s.create key' totalSize).1 with
          | true =>
            refine Prog.adds_pure (counted_mono And.left) (congrArg counted (propext ?_))
            exact and_congr_right fun _ => ⟨fun _ => ⟨_, rfl, rfl⟩, fun _ => rfl⟩
          | false =>
            rw [counted_false (p := key' = key ∧ false = true) (by simp)]
            exact hrefused (.conflict "Sparse entry already exists") (by decide)

/-- The reply to a finalize says that the upload has been taken. -/
abbrev Taken (r : Except StdException HttpResponse) : Prop := (ServerReply.http r).Taken

theorem not_taken (h : resp.statusCode = 400 ∨ resp.statusCode = 404 ∨ resp.statusCode = 409) :
    ¬ Taken (.ok resp) := by
  refine not_not_intro ?_
  rcases h with h | h | h
  · exact .inl ⟨_, rfl, h⟩
  · exact .inr (.inl ⟨_, rfl, h⟩)
  · exact .inr (.inr ⟨_, rfl, h⟩)

theorem taken_of_status (h : resp.statusCode = 201 ∨ resp.statusCode = 500) : Taken (.ok resp) := by
  rintro (⟨r, hr, hcode⟩ | ⟨r, hr, hcode⟩ | ⟨r, hr, hcode⟩)
  all_goals
    cases hr
    omega

theorem taken_error (e : StdException) : Taken (.error e) := by
  rintro (⟨r, hr, -⟩ | ⟨r, hr, -⟩ | ⟨r, hr, -⟩) <;> cases hr

/-- The account of a finalize: -1 if the upload has been taken. -/
theorem adds_handleSparseFinalize (hpath : req.path = Endpoint.path key' .sparseFinalize) :
    Adds key (fun x => x ≤ 0) (fun r x => x = -counted (key' = key ∧ Taken r)) 0
      (handleSparseFinalize H env req) := by
  have hkept : ∀ resp : HttpResponse,
      resp.statusCode = 400 ∨ resp.statusCode = 404 ∨ resp.statusCode = 409 →
      Adds key (fun x => x ≤ 0) (fun r x => x = -counted (key' = key ∧ Taken r)) 0 (pure resp) := by
    intro resp hresp
    refine Prog.adds_pure le_rfl ?_
    rw [counted_false fun h => not_taken hresp h.2, neg_zero]
  rw [handleSparseFinalize_eq H env hpath]
  split
  · exact hkept _ (.inl rfl)
  · refine adds_onSparse_bind le_rfl fun s => ⟨_, s.openCount_finalize key key', ?_⟩
    rw [zero_add]
    dsimp only
    rw [afterFinalize]
    split
    · next h =>
      rw [h, counted_false (by simp), neg_zero]
      exact hkept _ (.inr (.inl rfl))
    · split
      · next h =>
        rw [h, counted_false (by simp), neg_zero]
        refine adds_onSparse_bind le_rfl fun s => ⟨0, (add_zero _).symm, ?_⟩
        exact hkept _ (.inr (.inr rfl))
      · next h1 h2 =>
        have hle := s.finalize_code_le key'
        have hcode : (s.finalize key').1 = 0 := by omega
        simp only [hcode, and_true]
        have hB : -counted (key' = key) ≤ 0 := neg_nonpos.2 (counted_nonneg _)
        -- from here on every outcome says that the upload is gone
        have hgone : ∀ r, Taken r → -counted (key' = key) = -counted (key' = key ∧ Taken r) := by
          intro r hr
          simp only [hr, and_true]
        refine (still_orThrow _).adds_bind hB (fun ttl => ?_) fun e => hgone _ (taken_error e)
        refine (still_onCache _).adds_bind hB (fun status => ?_) fun e => hgone _ (taken_error e)
        split
        · exact Prog.adds_pure hB (hgone _ (taken_of_status (.inl rfl)))
        · exact Prog.adds_pure hB (hgone _ (taken_of_status (.inr rfl)))

/-- The account of an abort. -/
theorem adds_abortUpload (hpath : req.path = ascii "/sparse/" ++ key') :
    Adds key (fun x => x ≤ 0) (fun _ x => ∃ p, (p → key' = key) ∧ x = -counted p) 0
      (abortUpload req) := by
  rw [abortUpload, hpath, substr_path_sparse, orThrow_ok_bind]
  refine adds_onSparse_bind le_rfl fun s => ⟨_, s.openCount_remove key key', ?_⟩
  rw [zero_add]
  exact Prog.adds_pure (neg_nonpos.2 (counted_nonneg _)) ⟨_, And.left, rfl⟩

end HttpHandler

namespace ServerCall

variable {key : ByteBuffer} {call : ServerCall} {reply : ServerReply} {x : ℤ}

theorem settles_create (hfinalize : ¬ call.Finalizes key)
    (hx : x = counted (call.Creates key ∧ reply.Opened)) : call.Settles key reply x := by
  refine ⟨False, False.elim, ?_⟩
  rw [hx, counted_and_of_not hfinalize, counted_false id, sub_zero, sub_zero]

theorem settles_finalize (hcreate : ¬ call.Creates key)
    (hx : x = -counted (call.Finalizes key ∧ reply.Taken)) : call.Settles key reply x := by
  refine ⟨False, False.elim, ?_⟩
  rw [hx, counted_and_of_not hcreate, counted_false id, sub_zero, zero_sub]

theorem settles_other (hcreate : ¬ call.Creates key) (hfinalize : ¬ call.Finalizes key) :
    call.Settles key reply 0 :=
  settles_create hfinalize (counted_and_of_not hcreate).symm

theorem settles_abort {dropped : Prop} (hcreate : ¬ call.Creates key)
    (hfinalize : ¬ call.Finalizes key) (hdropped : dropped → call.Aborts key) :
    call.Settles key reply (-counted dropped) := by
  refine ⟨dropped, hdropped, ?_⟩
  rw [counted_and_of_not hcreate, counted_and_of_not hfinalize, sub_zero, zero_sub]

end ServerCall

namespace HttpCall

open HttpHandler Handling ServerCall

/-- The account of an HTTP request. -/
theorem adds_handler (H : ByteBuffer → Hash128) (key : ByteBuffer) (call : HttpCall) :
    Adds key (fun x => x ≤ counted ((ServerCall.http call).Creates key))
      (fun r x => (ServerCall.http call).Settles key (.http r) x) 0 (call.handler H) := by
  obtain ⟨route, key', req, hpath, env, showDouble⟩ := call
  set call : ServerCall := .http ⟨route, key', req, hpath, env, showDouble⟩
  have hstill : ∀ {h : Handling HttpResponse}, ¬ call.Creates key → ¬ call.Finalizes key →
      Still key h → Adds key (fun x => x ≤ counted (call.Creates key))
        (fun r x => call.Settles key (.http r) x) 0 h := by
    intro h hcreate hfinalize hh
    refine Prog.Adds.mono (hh _ 0 (counted_nonneg _)) (fun _ hx => hx) ?_
    rintro r _ rfl
    exact settles_other hcreate hfinalize
  have hbound : ∀ x : ℤ, x ≤ 0 → x ≤ counted (call.Creates key) :=
    fun x hx => hx.trans (counted_nonneg _)
  cases route with
  | endpoint e =>
    cases e with
    | get => exact hstill (by simp [call, Creates]) (by simp [call, Finalizes]) still_handleGet
    | put => exact hstill (by simp [call, Creates]) (by simp [call, Finalizes]) still_handlePut
    | sparseCreate =>
      have hcreates : call.Creates key = (key' = key) := by simp [call, Creates]
      rw [hcreates]
      refine Prog.Adds.mono (adds_handleSparseCreate hpath) (fun _ hx => hx) fun r x hx => ?_
      refine settles_create (by simp [call, Finalizes]) ?_
      rw [hx, hcreates]
      rfl
    | sparseWrite =>
      exact hstill (by simp [call, Creates]) (by simp [call, Finalizes]) still_handleSparseWrite
    | sparseFinalize =>
      have hfinalizes : call.Finalizes key = (key' = key) := by simp [call, Finalizes]
      refine Prog.Adds.mono (adds_handleSparseFinalize hpath) hbound fun r x hx => ?_
      refine settles_finalize (by simp [call, Creates]) ?_
      rw [hx, hfinalizes]
  | delete => exact hstill (by simp [call, Creates]) (by simp [call, Finalizes]) still_handleDelete
  | head => exact hstill (by simp [call, Creates]) (by simp [call, Finalizes]) still_handleHead
  | options => exact hstill (by simp [call, Creates]) (by simp [call, Finalizes]) (still_pure _)
  | sparseStatus =>
    exact hstill (by simp [call, Creates]) (by simp [call, Finalizes])
      (still_handleSparseStatus showDouble)
  | sparseAbort =>
    refine Prog.Adds.mono (adds_abortUpload hpath) hbound ?_
    rintro r _ ⟨p, hp, rfl⟩
    exact settles_abort (by simp [call, Creates]) (by simp [call, Finalizes]) fun h => ⟨rfl, hp h⟩

end HttpCall

namespace Unix

open ServerCall

/-- The number of open uploads of a key. -/
noncomputable def uploads (key : ByteBuffer) (s : Server) : ℤ := s.sparse.openCount key

/-- The account of a request on the Unix socket. -/
theorem adds_handle (key : ByteBuffer) (request : Request) :
    (handle request).Adds (uploads key)
      (fun x => x ≤ counted ((ServerCall.unix request).Creates key))
      (fun answer x => (ServerCall.unix request).Settles key (.unix answer) x) 0 := by
  set call : ServerCall := .unix request with hcall
  have hzero : 0 ≤ counted (call.Creates key) := counted_nonneg _
  have hstill : ∀ {α : Type} {f : Server → α × Server},
      (∀ s, (f s).2.sparse.openCount key = s.sparse.openCount key) →
      (Prog.atomic f).Adds (uploads key) (fun x => x ≤ counted (call.Creates key))
        (fun _ x => x = 0) 0 :=
    fun hf => Prog.adds_atomic_same hzero fun s => ⟨hf s, rfl⟩
  cases request with
  | get key' hasRange offset length =>
    refine (hstill fun _ => rfl).bind fun found x hB hx => Prog.adds_pure hB ?_
    rw [hx]
    exact settles_other (by simp [call, Creates]) (by simp [call, Finalizes])
  | put key' value =>
    refine (hstill fun _ => rfl).bind fun found x hB hx => Prog.adds_pure hB ?_
    rw [hx]
    exact settles_other (by simp [call, Creates]) (by simp [call, Finalizes])
  | delete key' =>
    refine (hstill fun _ => rfl).bind fun found x hB hx => Prog.adds_pure hB ?_
    rw [hx]
    exact settles_other (by simp [call, Creates]) (by simp [call, Finalizes])
  | createSparse key' totalSize =>
    have hcreates : call.Creates key = (key' = key) := by simp [call, Creates]
    refine Prog.Adds.bind (F := fun created x => x = counted (key' = key ∧ created = true))
      (Prog.adds_atomic hzero fun s => ⟨_, s.sparse.openCount_create key key' totalSize, ?_, ?_⟩)
      fun created x hB hx => Prog.adds_pure hB ?_
    · rw [zero_add, hcreates]
      exact counted_mono And.left
    · rw [zero_add]
    · refine settles_create (by simp [call, Finalizes]) ?_
      rw [hx, hcreates]
      cases created <;> simp [ServerReply.Opened]
  | writeRange key' offset data =>
    refine (hstill fun s => s.sparse.openCount_writeRange key key' offset data).bind
      fun success x hB hx => ?_
    rw [hx]
    split
    · exact Prog.adds_pure hzero
        (settles_other (by simp [call, Creates]) (by simp [call, Finalizes]))
    · refine (hstill fun _ => rfl).bind fun found x hB hx => Prog.adds_pure hB ?_
      rw [hx]
      exact settles_other (by simp [call, Creates]) (by simp [call, Finalizes])
  | finalize key' =>
    have hfinalizes : call.Finalizes key = (key' = key) := by simp [call, Finalizes]
    have hsettles : ∀ code : Nat, call.Settles key (.unix (.code code))
        (-counted (key' = key ∧ code = 0)) := by
      intro code
      refine settles_finalize (by simp [call, Creates]) ?_
      rw [hfinalizes]
      simp [ServerReply.Taken]
    refine Prog.Adds.bind (F := fun result x => x = -counted (key' = key ∧ result.1 = 0))
      (Prog.adds_atomic hzero fun s => ⟨_, s.sparse.openCount_finalize key key', ?_, ?_⟩)
      fun result x hB hx => ?_
    · rw [zero_add]
      exact (neg_nonpos.2 (counted_nonneg _)).trans hzero
    · rw [zero_add]
    · rw [hx] at hB ⊢
      split
      · refine Prog.Adds.bind (F := fun _ x => x = -counted (key' = key ∧ 0 = 0))
          (Prog.adds_atomic_same hB fun s => ⟨rfl, rfl⟩) fun _ x hB hx => Prog.adds_pure hB ?_
        rw [hx]
        exact hsettles 0
      · exact Prog.adds_pure hB (hsettles _)

end Unix

namespace ElCacheServer

/-- The number of open uploads of a key. -/
noncomputable def uploads (key : ByteBuffer) (s : ElCacheServer) : ℤ := s.sparse.openCount key

/-- The account of a request to the server. -/
theorem adds_serve (H : ByteBuffer → Hash128) (key : ByteBuffer) (call : ServerCall) :
    (serve H call).Adds (uploads key) (fun x => x ≤ counted (call.Creates key))
      (fun reply x => call.Settles key reply x) 0 := by
  cases call with
  | http c =>
    refine Prog.Adds.bind (Prog.Adds.zoom (c.adds_handler H key) (fun _ => rfl) fun _ _ => rfl) ?_
    exact fun r x hB hx => Prog.adds_pure hB hx
  | unix request =>
    refine Prog.Adds.bind (Prog.Adds.zoom (adds_handle key request) (fun _ => rfl)
      fun _ _ => rfl) ?_
    exact fun answer x hB hx => Prog.adds_pure hB hx

/-! ## Every interleaving -/

section
variable {κ : Type} {calls : κ → ServerCall} {P : Pool κ ElCacheServer ServerReply}
  {key : ByteBuffer} {t : κ} {reply : ServerReply}

/-- The request is a create for the key that has not been refused: it has opened an upload, or it is
not answered yet. -/
def MayOpen (calls : κ → ServerCall) (P : Pool κ ElCacheServer ServerReply) (key : ByteBuffer)
    (t : κ) : Prop :=
  (calls t).Creates key ∧ ∀ reply, (P.threads t).prog = .ret reply → reply.Opened

/-- The request has been answered: it has taken an upload of the key. -/
def HasTaken (calls : κ → ServerCall) (P : Pool κ ElCacheServer ServerReply) (key : ByteBuffer)
    (t : κ) : Prop :=
  (calls t).Finalizes key ∧ ∃ reply, (P.threads t).prog = .ret reply ∧ reply.Taken

/-- Every request has been answered. -/
def AllAnswered (P : Pool κ ElCacheServer ServerReply) : Prop :=
  ∀ t, ∃ reply, (P.threads t).prog = .ret reply

theorem mayOpen_iff (h : (P.threads t).prog = .ret reply) :
    MayOpen calls P key t ↔ (calls t).Creates key ∧ reply.Opened := by
  refine and_congr_right fun _ => ⟨fun ho => ho reply h, fun ho r hr => ?_⟩
  rw [h] at hr
  cases hr
  exact ho

theorem hasTaken_iff (h : (P.threads t).prog = .ret reply) :
    HasTaken calls P key t ↔ (calls t).Finalizes key ∧ reply.Taken := by
  refine and_congr_right fun _ => ⟨?_, fun ht => ⟨reply, h, ht⟩⟩
  rintro ⟨r, hr, ht⟩
  rw [h] at hr
  cases hr
  exact ht

/-- The account of a request that has been answered. -/
theorem account_returned {x : ℤ} (h : (P.threads t).prog = .ret reply)
    (hx : (calls t).Settles key reply x) : ∃ dropped, (dropped → (calls t).Aborts key) ∧
      x = counted (MayOpen calls P key t) - counted (HasTaken calls P key t) - counted dropped := by
  obtain ⟨dropped, hdropped, hx⟩ := hx
  refine ⟨dropped, hdropped, ?_⟩
  rw [hx, propext (mayOpen_iff h), propext (hasTaken_iff h)]

/-- The account of any request, at any time. -/
theorem account_le {B : ℤ → Prop} {x : ℤ} (hB : ∀ x, B x → x ≤ counted ((calls t).Creates key))
    (hx : (P.threads t).prog.Adds (uploads key) B (fun r x => (calls t).Settles key r x) x) :
    x ≤ counted (MayOpen calls P key t) - counted (HasTaken calls P key t) := by
  cases hprog : (P.threads t).prog with
  | ret reply =>
    rw [hprog] at hx
    obtain ⟨dropped, -, hx⟩ := account_returned hprog hx.2
    have := counted_nonneg dropped
    omega
  | step u n =>
    have hle := hB x hx.bound
    have hmay : counted ((calls t).Creates key) ≤ counted (MayOpen calls P key t) := by
      refine counted_mono fun hc => ⟨hc, fun reply hreply => ?_⟩
      rw [hprog] at hreply
      cases hreply
    have htaken : counted (HasTaken calls P key t) = 0 := by
      refine counted_false ?_
      rintro ⟨-, reply, hreply, -⟩
      rw [hprog] at hreply
      cases hreply
    omega

end

open Classical in
theorem sum_counted {κ : Type} [Fintype κ] (p : κ → Prop) :
    ∑ t, counted (p t) = ((univ.filter p).card : ℤ) := by
  simp only [counted, sum_boole]

variable {κ : Type} [DecidableEq κ] [Fintype κ]

open Classical in
/-- **No upload is taken twice, and none is lost.** Take any requests to both front ends and any
interleaving of their steps. At every moment the finalizes that have taken an upload of a key are no
more than the creates for it that have not been refused, so each has taken an upload of its own,
whichever front ends the two come from. When all requests have been answered, every upload that was
opened has been taken by one finalize, has been dropped by one abort, or is the one still there. -/
theorem uploads_conserved (H : ByteBuffer → Hash128) (config : Config) (calls : κ → ServerCall)
    {P : Pool κ ElCacheServer ServerReply}
    (hreach : Pool.Reach (fun _ _ => False) (startCalls H config calls) P) (key : ByteBuffer) :
    (univ.filter (HasTaken calls P key)).card ≤ (univ.filter (MayOpen calls P key)).card ∧
    (AllAnswered P → ∃ dropped : Finset κ, (∀ t ∈ dropped, (calls t).Aborts key) ∧
      (univ.filter (MayOpen calls P key)).card =
        (univ.filter (HasTaken calls P key)).card + dropped.card +
          if (P.shared.sparse.entries key).isSome then 1 else 0) := by
  obtain ⟨acc, hacc, hsum⟩ := hreach.account fun t => adds_serve H key (calls t)
  have hinit : uploads key (init config) = 0 := counted_false (by simp [init])
  rw [hinit, zero_add] at hsum
  constructor
  · have hle : ∑ t, acc t ≤
        ∑ t, (counted (MayOpen calls P key t) - counted (HasTaken calls P key t)) :=
      sum_le_sum fun t _ => account_le (fun _ hx => hx) (hacc t)
    rw [sum_sub_distrib, sum_counted, sum_counted, ← hsum] at hle
    have hnonneg : 0 ≤ uploads key P.shared := counted_nonneg _
    omega
  · intro hall
    have hreturned : ∀ t, ∃ dropped : Prop, (dropped → (calls t).Aborts key) ∧
        acc t = counted (MayOpen calls P key t) - counted (HasTaken calls P key t) -
          counted dropped := by
      intro t
      obtain ⟨reply, hreply⟩ := hall t
      have ht := hacc t
      rw [hreply] at ht
      exact account_returned hreply ht.2
    choose dropped haborts hx using hreturned
    refine ⟨univ.filter dropped, fun t ht => haborts t (mem_filter.1 ht).2, ?_⟩
    rw [sum_congr rfl fun t _ => hx t, sum_sub_distrib, sum_sub_distrib, sum_counted, sum_counted,
      sum_counted, uploads, SparseCache.openCount] at hsum
    by_cases hopen : (P.shared.sparse.entries key).isSome = true
    · rw [counted_true hopen] at hsum
      rw [if_pos hopen]
      omega
    · rw [counted_false hopen] at hsum
      rw [if_neg hopen]
      omega

/-- A request over HTTP to create an upload of one byte. -/
def createByte : HttpCall where
  route := .endpoint .sparseCreate
  key := ascii "k"
  req := ⟨ascii "/sparse/k", [], (∅ : Headers).insert (ascii "X-ElCache-Size") (ascii "1"),
    .single 0⟩
  path_eq := rfl
  env := ⟨{ memoryNow := 0, diskNow := 0 }, 0, 0, { tick := fun _ => 0 }, fun _ => []⟩
  showDouble _ := []

/-- An upload of one byte that is opened over HTTP, and written and taken on the Unix socket. -/
def crossCalls : Fin 3 → ServerCall
  | 0 => .http createByte
  | 1 => .unix (.writeRange (ascii "k") 0 [7])
  | 2 => .unix (.finalize (ascii "k"))

open Classical in
/-- One after the other they open one upload and take it, and nothing is left. -/
theorem uploads_conserved_cross : ∃ P, Pool.Reach (fun _ _ => False)
    (startCalls (fun _ => ⟨0, 0⟩) {} crossCalls) P ∧
    MayOpen crossCalls P (ascii "k") 0 ∧ HasTaken crossCalls P (ascii "k") 2 ∧
    (univ.filter (HasTaken crossCalls P (ascii "k"))).card ≤
      (univ.filter (MayOpen crossCalls P (ascii "k"))).card ∧
    ∃ dropped : Finset (Fin 3), (∀ t ∈ dropped, (crossCalls t).Aborts (ascii "k")) ∧
      (univ.filter (MayOpen crossCalls P (ascii "k"))).card =
        (univ.filter (HasTaken crossCalls P (ascii "k"))).card + dropped.card +
          if (P.shared.sparse.entries (ascii "k")).isSome then 1 else 0 := by
  obtain ⟨P, hreach, -, -, hreturned⟩ := Pool.exists_reach_run_list (E := fun _ _ => False)
    (init {}) (fun t => serve (fun _ => ⟨0, 0⟩) (crossCalls t)) [0, 1, 2] (by decide)
  have hcreate := hreturned [] 0 [1, 2] rfl
  have hwrite := hreturned [0] 1 [2] rfl
  have hfinalize := hreturned [0, 1] 2 [] rfl
  obtain ⟨hle, hanswered⟩ := uploads_conserved (fun _ => ⟨0, 0⟩) {} crossCalls hreach (ascii "k")
  refine ⟨P, hreach, (mayOpen_iff hcreate).2 ⟨⟨rfl, rfl⟩, _, rfl, rfl⟩,
    (hasTaken_iff hfinalize).2 ⟨rfl, rfl⟩, hle, hanswered fun t => ?_⟩
  fin_cases t
  · exact ⟨_, hcreate⟩
  · exact ⟨_, hwrite⟩
  · exact ⟨_, hfinalize⟩

end ElCacheServer

end ElCache
