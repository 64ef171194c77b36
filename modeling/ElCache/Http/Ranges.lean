import ElCache.Coordinator.Resident
import ElCache.Http.Numbers

/-!
# Range requests

What a client is told about a part of a value: the interval in `Content-Range`, the body, and how
both relate to the range the request asked for. `ByteRange` is a range of the `Range` field as its
grammar has it; `parse_range_header` turns it into an offset and a length in 64-bit arithmetic
(`ByteRange.range`), which goes wrong when the range does not start inside the value.
`ranges_coherent_iff` says for which requests the response fits.
-/

namespace ElCache

open Slice Text

/-! ## Ranges as they are written -/

/-- A single range of a `Range` field. -/
inductive ByteRange where
  | fromTo (first last : Nat)
  | fromOn (first : Nat)
  | suffix (length : Nat)
  deriving DecidableEq, Repr

namespace ByteRange

/-- What stands in front of the dash and behind it. -/
def Writes : ByteRange → ByteBuffer → ByteBuffer → Prop
  | fromTo first last, front, back => Numeral front first ∧ Numeral back last ∧ first ≤ last
  | fromOn first, front, back => Numeral front first ∧ back = []
  | suffix length, front, back => front = [] ∧ Numeral back length

/-- The text is `bytes=a-b` with `a ≤ b`, `bytes=a-` or `bytes=-n`. -/
def Spells (r : ByteRange) (text : ByteBuffer) : Prop :=
  ∃ front back, text = ascii "bytes=" ++ (front ++ (ascii "-" ++ back)) ∧ r.Writes front back

/-- Byte `i` of a value of `size` bytes is one that the range asks for. -/
def Selects (size i : Nat) : ByteRange → Prop
  | fromTo first last => first ≤ i ∧ i ≤ last ∧ i < size
  | fromOn first => first ≤ i ∧ i < size
  | suffix length => size - min length size ≤ i ∧ i < size

/-- The offset and the length `parse_range_header` computes. -/
def range (size : Nat) : ByteRange → Range
  | fromTo first last => ⟨first, wrap64 (sub64 last first + 1)⟩
  | fromOn first => ⟨first, wrap64 (sub64 (sub64 size 1) first + 1)⟩
  | suffix length =>
    ⟨sub64 size length, wrap64 (sub64 (sub64 size 1) (sub64 size length) + 1)⟩

variable {r r' : ByteRange} {front back front' back' text : ByteBuffer}

/-- There is no dash in front of the dash. -/
theorem Writes.not_mem (h : r.Writes front back) : (45 : UInt8) ∉ front := by
  cases r with
  | fromTo first last => exact h.1.not_mem (by decide)
  | fromOn first => exact h.1.not_mem (by decide)
  | suffix length =>
    rw [h.1]
    exact List.not_mem_nil

/-- A range has one spelling at most. -/
theorem Writes.unique (h : r.Writes front back) (h' : r'.Writes front back) : r = r' := by
  cases r with
  | fromTo first last =>
    cases r' with
    | fromTo first' last' =>
      rw [← h.1.value, ← h.2.1.value, h'.1.value, h'.2.1.value]
    | fromOn first' => exact absurd h'.2 h.2.1.ne_nil
    | suffix length' => exact absurd h'.1 h.1.ne_nil
  | fromOn first =>
    cases r' with
    | fromTo first' last' => exact absurd h.2 h'.2.1.ne_nil
    | fromOn first' => rw [← h.1.value, h'.1.value]
    | suffix length' => exact absurd h'.1 h.1.ne_nil
  | suffix length =>
    cases r' with
    | fromTo first' last' => exact absurd h.1 h'.1.ne_nil
    | fromOn first' => exact absurd h.1 h'.1.ne_nil
    | suffix length' => rw [← h.2.value, h'.2.value]

/-- A text spells at most one range. -/
theorem Spells.unique (h : r.Spells text) (h' : r'.Spells text) : r = r' := by
  obtain ⟨front, back, rfl, hw⟩ := h
  obtain ⟨front', back', htext, hw'⟩ := h'
  have hrest : front ++ 45 :: back = front' ++ 45 :: back' := List.append_cancel_left htext
  -- the first dash is at the same place
  have hlength : front.length = front'.length := by
    have hdash := find_singleton hw.not_mem back
    rw [hrest, find_singleton hw'.not_mem back'] at hdash
    exact (Option.some.inj hdash).symm
  obtain ⟨rfl, hback⟩ := List.append_inj hrest hlength
  obtain rfl := (List.cons.inj hback).2
  exact hw.unique hw'

theorem Spells.writes (h : r.Spells text) : ∃ front back, r.Writes front back := by
  obtain ⟨front, back, -, hw⟩ := h
  exact ⟨front, back, hw⟩

/-- The number in front of the dash, or its default. -/
theorem numberOr_front {n m : Nat} (back : ByteBuffer) (h : front = [] ∧ m = n ∨ Numeral front m) :
    numberOr (0 < front.length) (substrN (front ++ 45 :: back) 0 front.length) n = .ok m := by
  rcases h with ⟨rfl, rfl⟩ | h
  · rfl
  · have hpos : 0 < front.length := List.length_pos_of_ne_nil h.ne_nil
    rw [numberOr, if_pos (decide_eq_true hpos), (substr_around front 45 back).1]
    exact h.stoull_eq

/-- The number behind the dash, or its default. -/
theorem numberOr_back {n m : Nat} (front : ByteBuffer) (h : back = [] ∧ m = n ∨ Numeral back m) :
    numberOr (front.length < (front ++ 45 :: back).length - 1)
      (substr (front ++ 45 :: back) (front.length + 1)) n = .ok m := by
  have hiff : front.length < (front ++ 45 :: back).length - 1 ↔ 0 < back.length := by
    rw [List.length_append, List.length_cons]
    omega
  rcases h with ⟨rfl, rfl⟩ | h
  · rw [numberOr, if_neg (by simp)]
  · have hpos : 0 < back.length := List.length_pos_of_ne_nil h.ne_nil
    rw [numberOr, if_pos (decide_eq_true (hiff.2 hpos)), (substr_around front 45 back).2]
    exact h.stoull_eq

/-- What `parse_range_header` makes of a range. -/
theorem Writes.parseBounds_eq (h : r.Writes front back) (size : Nat) :
    parseBounds (front ++ 45 :: back) size = .ok (r.range size) := by
  have hdash : find (ascii "-") (front ++ 45 :: back) = some front.length :=
    find_singleton h.not_mem back
  have hzero : front.length = 0 ↔ front = [] := List.length_eq_zero_iff
  unfold parseBounds
  rw [hdash]
  dsimp only
  cases r with
  | fromTo first last =>
    rw [numberOr_front back (.inr h.1), numberOr_back front (.inr h.2.1)]
    simp only [bind, Except.bind, hzero, h.1.ne_nil, if_false]
    rfl
  | fromOn first =>
    rw [numberOr_front back (.inr h.1), numberOr_back front (.inl ⟨h.2, rfl⟩)]
    simp only [bind, Except.bind, hzero, h.1.ne_nil, if_false]
    rfl
  | suffix length =>
    rw [numberOr_front back (.inl ⟨h.1, rfl⟩), numberOr_back front (.inr h.2)]
    simp only [bind, Except.bind, h.1]
    rfl

theorem Spells.parseRange_eq (h : r.Spells text) (size : Nat) :
    parseRange text size = .ok (r.range size) := by
  obtain ⟨front, back, rfl, hw⟩ := h
  have heq : find (ascii "=") (ascii "bytes=" ++ (front ++ (ascii "-" ++ back))) = some 5 :=
    find_singleton (s := ascii "bytes") (by decide) _
  have hcut : substr (ascii "bytes=" ++ (front ++ (ascii "-" ++ back))) (5 + 1) =
      .ok (front ++ 45 :: back) := substr_append (ascii "bytes=") _
  rw [parseRange, heq]
  dsimp only
  rw [hcut]
  exact hw.parseBounds_eq size

theorem Spells.offset_lt (h : r.Spells text) (size : Nat) : (r.range size).offset < 2 ^ 64 := by
  obtain ⟨front, back, hw⟩ := h.writes
  cases r with
  | fromTo first last => exact hw.1.lt
  | fromOn first => exact hw.1.lt
  | suffix length => exact Nat.mod_lt _ (Nat.two_pow_pos 64)

end ByteRange

/-- The query is `range=o-l`. -/
def QuerySpells (query : ByteBuffer) (r : Range) : Prop :=
  ∃ front back, query = ascii "range=" ++ (front ++ (ascii "-" ++ back)) ∧
    Numeral front r.offset ∧ Numeral back r.length

/-- A range in the query is read as it is spelled. -/
theorem QuerySpells.parseQueryRange_eq {query : ByteBuffer} {r : Range} (h : QuerySpells query r) :
    parseQueryRange query = .ok (some r) := by
  obtain ⟨front, back, rfl, hfront, hback⟩ := h
  have hpos : find (ascii "range=") (ascii "range=" ++ (front ++ (ascii "-" ++ back))) = some 0 :=
    find_append _ _
  have hcut : substr (ascii "range=" ++ (front ++ (ascii "-" ++ back))) (0 + 6) =
      .ok (front ++ 45 :: back) := substr_append (ascii "range=") _
  have hdash : find (ascii "-") (front ++ 45 :: back) = some front.length :=
    find_singleton (hfront.not_mem (by decide)) back
  obtain ⟨hcutFront, hcutBack⟩ := substr_around front 45 back
  rw [parseQueryRange, hpos]
  dsimp only
  rw [hcut]
  change parsePair (front ++ 45 :: back) = _
  rw [parsePair, hdash]
  dsimp only
  rw [hcutFront, hcutBack]
  simp only [bind, Except.bind, hfront.stoull_eq, hback.stoull_eq]

/-- The numbers of a query are 64-bit numbers. -/
theorem offset_lt_of_parseQueryRange {query : ByteBuffer} {r : Range}
    (h : parseQueryRange query = .ok (some r)) : r.offset < 2 ^ 64 := by
  have hpair : ∀ text, parsePair text = .ok (some r) → r.offset < 2 ^ 64 := by
    intro text h
    unfold parsePair at h
    split at h
    · cases h
    · obtain ⟨offset, hoffset, h⟩ := exists_of_bind_eq_ok h
      obtain ⟨length, -, h⟩ := exists_of_bind_eq_ok h
      obtain ⟨front, -, hoffset⟩ := exists_of_bind_eq_ok hoffset
      cases h
      exact stoull_lt hoffset
  unfold parseQueryRange at h
  split at h
  · cases h
  · obtain ⟨text, -, h⟩ := exists_of_bind_eq_ok h
    exact hpair text h

/-! ## Coherent responses -/

/-- The size of the value, as the response gives it. -/
def ReadResult.totalSize (r : ReadResult) : Nat :=
  (r.metadata.map CacheMetadata.totalSize).getD r.data.length

namespace HttpHandler

variable {b : ByteRange}

open Handling

/-- A response with status 206 gives an interval of the value and exactly the bytes of this
interval. If the request has a `Range` field, the interval is the part of the value that the field
asks for. -/
def Coherent (req : HttpRequest) (v : ByteBuffer) (resp : HttpResponse) : Prop :=
  resp.statusCode = 206 → ∃ x y,
    resp.headers.lookup (ascii "Content-Range") = some (contentRange x y v.length) ∧
    x ≤ y ∧ y < v.length ∧ resp.body = slice v x (y + 1) ∧
    ∀ b : ByteRange, b.Spells (req.header "Range") →
      ∀ i, x ≤ i ∧ i ≤ y ↔ b.Selects v.length i

/-- Whatever `handle_get` answers is coherent. -/
def AnswersCoherently (H : ByteBuffer → Hash128) (env : HttpEnv) (v : ByteBuffer)
    (req : HttpRequest) (s : HttpHandler) : Prop :=
  ∀ resp, (outcome (handleGet H env req) s).1 = .ok resp → Coherent req v resp

/-- A result that becomes a coherent response. -/
structure Fits (req : HttpRequest) (v : ByteBuffer) (r : ReadResult) : Prop where
  size : r.totalSize = v.length
  first_le : r.actualRange.offset ≤ r.actualRange.lastByte
  last_lt : r.actualRange.lastByte < v.length
  data : r.data = slice v r.actualRange.offset (r.actualRange.lastByte + 1)
  selects : ∀ b : ByteRange, b.Spells (req.header "Range") →
    ∀ i, r.actualRange.offset ≤ i ∧ i ≤ r.actualRange.lastByte ↔ b.Selects v.length i

variable {req : HttpRequest} {v : ByteBuffer} {opts : ReadOptions} {r : ReadResult}

theorem contentRange_inj {x y n x' y' n' : Nat} (h : contentRange x y n = contentRange x' y' n') :
    x = x' ∧ y = y' ∧ n = n' := by
  obtain ⟨hx, hrest⟩ := decimal_append_inj (c := 45) (by decide) (List.append_cancel_left h)
  obtain ⟨hy, hlast⟩ := decimal_append_inj (c := 47) (by decide) hrest
  have hsize : decimal n = decimal n' := hlast
  refine ⟨hx, hy, ?_⟩
  rw [← number_decimal n, hsize, number_decimal]

theorem lookup_setHeader {name name' : String} (hne : ascii name' ≠ ascii name)
    (resp : HttpResponse) (value : ByteBuffer) :
    (resp.setHeader name value).headers.lookup (ascii name') =
      resp.headers.lookup (ascii name') :=
  AList.lookup_insert_ne hne

/-- The metadata fields leave the others alone. -/
theorem setMetadata_fields (resp : HttpResponse) (m : Option CacheMetadata) :
    (setMetadata resp m).statusCode = resp.statusCode ∧ (setMetadata resp m).body = resp.body ∧
      ∀ name, ascii name ≠ ascii "X-ElCache-Size" → ascii name ≠ ascii "X-ElCache-Chunks" →
        (setMetadata resp m).headers.lookup (ascii name) = resp.headers.lookup (ascii name) := by
  cases m with
  | none => exact ⟨rfl, rfl, fun _ _ _ => rfl⟩
  | some m =>
    refine ⟨rfl, rfl, fun name hsize hchunks => ?_⟩
    rw [setMetadata, lookup_setHeader hchunks, lookup_setHeader hsize]

/-- The fields of the answer to a request with a range. -/
theorem getResponse_range (hr : r.result ≠ .miss) (hopts : opts.range.isSome) :
    (getResponse opts r).statusCode = 206 ∧ (getResponse opts r).body = r.data ∧
      (getResponse opts r).headers.lookup (ascii "Content-Range") =
        some (contentRange r.actualRange.offset r.actualRange.lastByte r.totalSize) := by
  rw [getResponse, if_neg hr]
  dsimp only
  rw [if_pos (.inr hopts)]
  obtain ⟨hstatus, hbody, hheader⟩ := setMetadata_fields
    ((HttpResponse.partialContent r.data r.actualRange r.totalSize).setHeader "X-ElCache-Hit"
      (hitSource r.result)) r.metadata
  refine ⟨hstatus, hbody, ?_⟩
  rw [HttpResponse.setContentLength, lookup_setHeader (by decide), HttpResponse.setContentType,
    lookup_setHeader (by decide)]
  refine (hheader _ (by decide) (by decide)).trans ?_
  rw [lookup_setHeader (by decide), HttpResponse.partialContent, HttpResponse.setRangeHeaders,
    lookup_setHeader (by decide)]
  exact AList.lookup_insert _

/-- The response is coherent if the result fits. -/
theorem coherent_getResponse_iff (hr : r.result ≠ .miss) (hopts : opts.range.isSome) :
    Coherent req v (getResponse opts r) ↔ Fits req v r := by
  obtain ⟨hstatus, hbody, hheader⟩ := getResponse_range hr hopts
  rw [Coherent, hbody, hheader]
  constructor
  · intro h
    obtain ⟨x, y, hlookup, hle, hlt, hdata, hselects⟩ := h hstatus
    obtain ⟨rfl, rfl, hsize⟩ := contentRange_inj (Option.some.inj hlookup)
    exact ⟨hsize, hle, hlt, hdata, hselects⟩
  · intro h _
    exact ⟨_, _, by rw [h.size], h.first_le, h.last_lt, h.data, h.selects⟩

/-! ## Requests that are answered coherently -/

section
variable {H : ByteBuffer → Hash128} {c : CacheCoordinator} {env : ReadEnv} {key : CacheKey}

/-- What a peer answers to a read of the range fits. -/
def PeersFit (req : HttpRequest) (v : ByteBuffer) (c : CacheCoordinator) (env : ReadEnv)
    (key : CacheKey) (r : Range) : Prop :=
  ∀ a, c.peerAnswer env key { allowPartial := true, range := some r } = some a → Fits req v a

/-- A read of a range fits: the range starts inside the value, a `Range` field asks for the same
bytes, and if the range is empty, what a peer answers fits. -/
structure RangeFits (req : HttpRequest) (v : ByteBuffer) (c : CacheCoordinator) (env : ReadEnv)
    (key : CacheKey) (r : Range) : Prop where
  offset_lt : r.offset < v.length
  selects : 0 < r.length → ∀ b : ByteRange, b.Spells (req.header "Range") →
    ∀ i, r.offset ≤ i ∧ i < min (r.offset + r.length) v.length ↔ b.Selects v.length i
  peers : r.length = 0 → PeersFit req v c env key r

/-- What a peer answers is no miss. -/
theorem ne_miss_of_peerAnswer {a : ReadResult} (h : c.peerAnswer env key opts = some a) :
    a.result ≠ .miss := by
  unfold CacheCoordinator.peerAnswer at h
  split at h
  · cases h
  · obtain ⟨cluster, -, hfind⟩ := Option.bind_eq_some_iff.1 h
    have hsettles := List.find?_some hfind
    intro hmiss
    rw [CacheCoordinator.settles, ReadResult.isHit, ReadResult.isPartial, hmiss] at hsettles
    cases hsettles

/-- An empty answer behind the value does not fit: its last byte is in front of its first. -/
theorem not_fits_past {o : Nat} (hpos : 0 < o) (hlt : o < 2 ^ 64) (m : CacheMetadata) :
    ¬ Fits req v { result := .hit, actualRange := ⟨o, 0⟩, metadata := some m } := by
  intro h
  have hle : o ≤ sub64 (o + 0) 1 := h.first_le
  rw [Nat.add_zero, sub64_of_le hpos hlt] at hle
  omega

/-- The bytes of a range that starts inside the value fit if they are those a `Range` field asks
for. -/
theorem fits_inside_iff {m : CacheMetadata} (hm : m.totalSize = v.length) (hv : v.length < 2 ^ 64)
    {o len : Nat} (hlen : 0 < len) (hle : o + len ≤ v.length) :
    Fits req v { result := .hit, data := slice v o (o + len), actualRange := ⟨o, len⟩
                 metadata := some m } ↔
      ∀ b : ByteRange, b.Spells (req.header "Range") →
        ∀ i, o ≤ i ∧ i < o + len ↔ b.Selects v.length i := by
  have hlast : (⟨o, len⟩ : Range).lastByte = o + len - 1 :=
    sub64_of_le (show 1 ≤ o + len by omega) (show o + len < 2 ^ 64 by omega)
  have hmem : ∀ i, o ≤ i ∧ i ≤ o + len - 1 ↔ o ≤ i ∧ i < o + len := by
    intro i
    omega
  constructor
  · intro h b hb i
    have hselects := h.selects b hb i
    dsimp only at hselects
    rwa [hlast, hmem] at hselects
  · intro h
    refine ⟨hm, ?_, ?_, ?_, fun b hb i => ?_⟩
    · dsimp only
      rw [hlast]
      omega
    · dsimp only
      rw [hlast]
      omega
    · dsimp only
      rw [hlast, Nat.sub_add_cancel (by omega)]
    · dsimp only
      rw [hlast, hmem]
      exact h b hb i

/-- The response to a read of a range of a resident value. -/
theorem coherent_read_iff (hc : CacheCoordinator.MemoryInv H c)
    (hv : v ≠ []) (hresident : c.Resident H env key v) {r : Range} (hr : r.offset < 2 ^ 64) :
    Coherent req v (getResponse { allowPartial := true, range := some r }
        ((CacheCoordinator.get H env key { allowPartial := true, range := some r }).run c).1) ↔
      RangeFits req v c env key r := by
  obtain ⟨m, hm, hanswer⟩ := hresident.read_eq
  have hread := hanswer { allowPartial := true, range := some r } r rfl
  dsimp only at hread
  have hpos : 0 < v.length := List.length_pos_of_ne_nil hv
  rw [CacheCoordinator.run_get_eq hc, hread, residentAnswer]
  split
  · next ho =>
    rw [Option.some_or, Option.getD_some, coherent_getResponse_iff CacheResult.noConfusion rfl]
    exact iff_of_false (not_fits_past (by omega) hr m) fun h =>
      absurd h.offset_lt (Nat.not_lt.2 ho)
  · next ho =>
    have ho := Nat.lt_of_not_le ho
    split
    · next hlen =>
      rw [Option.none_or]
      cases hpeer : c.peerAnswer env key { allowPartial := true, range := some r } with
      | none =>
        refine iff_of_true (fun h206 => ?_) ⟨ho, fun h => ?_, fun _ a ha => ?_⟩
        · cases h206
        · omega
        · rw [hpeer] at ha
          cases ha
      | some a =>
        rw [Option.getD_some, coherent_getResponse_iff (ne_miss_of_peerAnswer hpeer) rfl]
        refine ⟨fun h => ⟨ho, fun hpos => ?_, fun _ a' ha => ?_⟩, fun h => h.peers hlen a hpeer⟩
        · omega
        · rw [hpeer] at ha
          cases ha
          exact h
    · next hlen =>
      have hend : r.offset + min r.length (v.length - r.offset) =
          min (r.offset + r.length) v.length := by omega
      rw [Option.some_or, Option.getD_some, coherent_getResponse_iff CacheResult.noConfusion rfl,
        fits_inside_iff hm hresident.length_lt (by omega) (by omega), hend]
      exact ⟨fun h => ⟨ho, fun _ => h, fun h0 => absurd h0 hlen⟩,
        fun h => h.selects (Nat.pos_of_ne_zero hlen)⟩

/-- The ranges of a `Range` field that are served as the field asks: those that start inside the
value, and suffixes that are neither empty nor longer than the value. The range of all 64-bit
numbers has the length 0 and is left to the peers. -/
def Served (req : HttpRequest) (v : ByteBuffer) (c : CacheCoordinator) (env : ReadEnv)
    (key : CacheKey) : ByteRange → Prop
  | .fromTo first last => first < v.length ∧
      (first = 0 ∧ last = 2 ^ 64 - 1 → PeersFit req v c env key ⟨0, 0⟩)
  | .fromOn first => first < v.length
  | .suffix length => 0 < length ∧ length ≤ v.length

/-- A range that starts inside the value, is not empty and selects what the field asks for. -/
theorem rangeFits_of_selects (hb : b.Spells (req.header "Range")) {r : Range}
    (ho : r.offset < v.length) (hlen : 0 < r.length)
    (h : ∀ i, r.offset ≤ i ∧ i < min (r.offset + r.length) v.length ↔ b.Selects v.length i) :
    RangeFits req v c env key r := by
  refine ⟨ho, fun _ b' hb' => ?_, fun h0 => ?_⟩
  · rw [hb'.unique hb]
    exact h
  · omega

/-- By cases on the form of the range. -/
theorem rangeFits_range_iff (hb : b.Spells (req.header "Range")) (hv : v ≠ [])
    (hlt : v.length < 2 ^ 64) :
    RangeFits req v c env key (b.range v.length) ↔ Served req v c env key b := by
  have hpos : 0 < v.length := List.length_pos_of_ne_nil hv
  have hone : sub64 v.length 1 = v.length - 1 := sub64_of_le hpos hlt
  obtain ⟨front, back, hw⟩ := hb.writes
  cases b with
  | fromTo first last =>
    obtain ⟨-, hlast, hle⟩ := hw
    have hlast := hlast.lt
    rw [ByteRange.range, sub64_of_le hle hlast, Served]
    rcases em (first = 0 ∧ last = 2 ^ 64 - 1) with ⟨rfl, rfl⟩ | hsome
    · -- the length wraps around to 0
      have hwrap : wrap64 (2 ^ 64 - 1 - 0 + 1) = 0 := rfl
      rw [hwrap]
      exact ⟨fun h => ⟨hpos, fun _ => h.peers rfl⟩,
        fun h => ⟨hpos, fun h0 => absurd h0 (lt_irrefl 0), fun _ => h.2 ⟨rfl, rfl⟩⟩⟩
    · rw [wrap64_of_lt (by omega)]
      refine ⟨fun h => ⟨h.offset_lt, fun h' => absurd h' hsome⟩, fun h => ?_⟩
      refine rangeFits_of_selects hb h.1 (Nat.succ_pos _) fun i => ?_
      dsimp only [ByteRange.Selects]
      omega
  | fromOn first =>
    rw [ByteRange.range, hone, Served]
    refine ⟨fun h => h.offset_lt, fun h => ?_⟩
    rw [sub64_of_le (by omega) (by omega), wrap64_of_lt (by omega)]
    refine rangeFits_of_selects hb h (Nat.succ_pos _) fun i => ?_
    dsimp only [ByteRange.Selects]
    omega
  | suffix length =>
    have hlength := hw.2.lt
    rw [ByteRange.range, hone, Served]
    constructor
    · intro h
      -- a suffix that is empty or too long starts at the end of the value or behind it
      have ho : sub64 v.length length < v.length := h.offset_lt
      unfold sub64 at ho
      omega
    · intro h
      rw [sub64_of_le h.2 hlt, sub64_of_le (by omega) (by omega), wrap64_of_lt (by omega)]
      refine rangeFits_of_selects hb (Nat.sub_lt hpos h.1) (Nat.succ_pos _) fun i => ?_
      dsimp only [ByteRange.Selects]
      omega

end

/-- A level that knows the key knows the size of the value. -/
theorem totalSize_of_level {σ : Type} {H : ByteBuffer → Hash128} {level : Option σ}
    (view : σ → LevelView) {now : Timestamp} {key : CacheKey} {d : ValueDescriptor}
    (h : ∀ l, level = some l →
      (view l).descriptor key = none ∨ (view l).Resident H now key v)
    (hd : (level.bind fun l => (view l).descriptor key) = some d) :
    d.metadata.totalSize = v.length := by
  obtain ⟨l, hl, hd⟩ := Option.bind_eq_some_iff.1 hd
  rcases h l hl with hnone | hresident
  · rw [hnone] at hd
    cases hd
  · obtain ⟨p, rfl, hp, -⟩ := hresident.descriptor
    rw [hp] at hd
    cases hd
    rfl

/-- `metadata` knows the size of a resident value. -/
theorem size_of_resident {H : ByteBuffer → Hash128} {c : CacheCoordinator} {env : ReadEnv}
    {key : CacheKey} (h : c.Resident H env key v) :
    (c.descriptor key).map (fun d => d.metadata.totalSize) = some v.length := by
  rw [CacheCoordinator.descriptor]
  cases hfound : c.memory.bind fun m => m.descriptors key with
  | some d => exact congrArg some (totalSize_of_level MemoryCache.view h.memory hfound)
  | none =>
    rcases h.known with ⟨-, m, hm, hresident⟩ | ⟨l, hl, hresident⟩
    · obtain ⟨p, -, hp, -⟩ := hresident.descriptor
      rw [hm, Option.bind_some] at hfound
      cases hfound.symm.trans hp
    · obtain ⟨p, -, hp, -⟩ := hresident.descriptor
      have hd : (c.disk.bind fun l => l.descriptors key) = some (p.descriptor H) := by
        rw [hl]
        exact hp
      rw [Option.none_or, hd]
      exact congrArg some (totalSize_of_level DiskCache.view h.disk hd)

/-- The requests with a range that are answered coherently: those that are not answered at all,
because the key is missing or a number is malformed; those whose query has a range that fits; and
those without one whose `Range` field is served. -/
def Servable (env : ReadEnv) (key : ByteBuffer) (v : ByteBuffer) (req : HttpRequest)
    (s : HttpHandler) : Prop :=
  key = [] ∨ Endpoint.get.Malformed key req s ∨
    (∀ r, parseQueryRange req.query = .ok (some r) → RangeFits req v s.cache env ⟨key⟩ r) ∧
      (parseQueryRange req.query = .ok none → ∀ b : ByteRange, b.Spells (req.header "Range") →
        Served req v s.cache env ⟨key⟩ b)

/-- What `handle_get` answers. -/
theorem outcome_handleGet_iff (H : ByteBuffer → Hash128) (env : HttpEnv) {key : ByteBuffer}
    (s : HttpHandler) (hpath : req.path = Endpoint.path key .get) (hkey : key ≠ [])
    {resp : HttpResponse} :
    (outcome (handleGet H env req) s).1 = .ok resp ↔ ∃ fromHeader fromQuery,
      rangeFor req ((s.cache.descriptor ⟨key⟩).map fun d => d.metadata.totalSize) =
          .ok fromHeader ∧
        parseQueryRange req.query = .ok fromQuery ∧
        resp = getResponse { allowPartial := true, range := fromQuery.or fromHeader }
          ((CacheCoordinator.get H env.read ⟨key⟩
            { allowPartial := true, range := fromQuery.or fromHeader }).run s.cache).1 := by
  have hempty : ¬ key.isEmpty = true := by simpa using hkey
  unfold handleGet
  rw [hpath, Endpoint.path, substr_path_cache, orThrow_ok_bind, if_neg hempty]
  rw [outcome_bind_eq_ok_iff, outcome_headerRange]
  constructor
  · rintro ⟨fromHeader, hheader, hresp⟩
    obtain ⟨fromQuery, hquery, hresp⟩ := outcome_bind_eq_ok_iff.1 hresp
    cases hresp
    exact ⟨fromHeader, fromQuery, hheader, hquery, rfl⟩
  · rintro ⟨fromHeader, fromQuery, hheader, hquery, rfl⟩
    exact ⟨fromHeader, hheader, outcome_bind_eq_ok_iff.2 ⟨fromQuery, hquery, rfl⟩⟩

theorem rangeFor_of_spells (hb : b.Spells (req.header "Range")) (size : Nat) :
    rangeFor req (some size) = .ok (some (b.range size)) := by
  have hheader : req.hasRangeHeader = true := by
    obtain ⟨front, back, htext, -⟩ := hb
    rw [HttpRequest.hasRangeHeader, htext]
    rfl
  rw [rangeFor, if_pos hheader, hb.parseRange_eq]
  rfl

/-- The answer is coherent if the range of the query fits, or without one that of the field. -/
theorem coherent_answer_iff {H : ByteBuffer → Hash128} {c : CacheCoordinator} {env : ReadEnv}
    {key : CacheKey} (hc : CacheCoordinator.MemoryInv H c) (hv : v ≠ [])
    (hresident : c.Resident H env key v)
    (hrange : (∃ b : ByteRange, b.Spells (req.header "Range")) ∨ ∃ r, QuerySpells req.query r)
    {fromHeader fromQuery : Option Range}
    (hheader : rangeFor req (some v.length) = .ok fromHeader)
    (hquery : parseQueryRange req.query = .ok fromQuery) :
    Coherent req v (getResponse { allowPartial := true, range := fromQuery.or fromHeader }
        ((CacheCoordinator.get H env key
          { allowPartial := true, range := fromQuery.or fromHeader }).run c).1) ↔
      (∀ r, parseQueryRange req.query = .ok (some r) → RangeFits req v c env key r) ∧
        (parseQueryRange req.query = .ok none → ∀ b : ByteRange, b.Spells (req.header "Range") →
          Served req v c env key b) := by
  cases fromQuery with
  | some r =>
    rw [Option.some_or, coherent_read_iff hc hv hresident (offset_lt_of_parseQueryRange hquery)]
    simp only [hquery, Except.ok.injEq, Option.some.injEq, forall_eq', reduceCtorEq,
      false_implies, and_true]
  | none =>
    obtain ⟨b, hb⟩ : ∃ b : ByteRange, b.Spells (req.header "Range") := by
      rcases hrange with hb | ⟨r, hr⟩
      · exact hb
      · rw [hr.parseQueryRange_eq] at hquery
        cases hquery
    rw [rangeFor_of_spells hb] at hheader
    obtain rfl : some (b.range v.length) = fromHeader := Except.ok.inj hheader
    rw [Option.none_or, coherent_read_iff hc hv hresident (hb.offset_lt v.length),
      rangeFits_range_iff hb hv hresident.length_lt]
    refine ⟨fun h => ⟨fun r hr => ?_, fun _ b' hb' => ?_⟩, fun h => h.2 hquery b hb⟩
    · rw [hquery] at hr
      cases hr
    · rw [hb'.unique hb]
      exact h

/-- Whatever was called before: a request with a range for a value that is fully resident gets no
206 but a coherent one, exactly under `Servable`. -/
theorem ranges_coherent_iff (H : ByteBuffer → Hash128) (config : Config)
    (calls : List CacheCoordinator.Call) (sparse : SparseCache) (env : HttpEnv) (key : ByteBuffer)
    (v : ByteBuffer) (hv : v ≠ [])
    (hresident : (CacheCoordinator.after H config calls).1.Resident H env.read ⟨key⟩ v)
    (req : HttpRequest) (hpath : req.path = Endpoint.path key .get)
    (hrange : (∃ b : ByteRange, b.Spells (req.header "Range")) ∨ ∃ r, QuerySpells req.query r) :
    AnswersCoherently H env v req ⟨(CacheCoordinator.after H config calls).1, sparse⟩ ↔
      Servable env.read key v req ⟨(CacheCoordinator.after H config calls).1, sparse⟩ := by
  have hc := CacheCoordinator.memoryInv_after (H := H) config calls
  generalize (CacheCoordinator.after H config calls).1 = c at hresident hc ⊢
  rcases eq_or_ne key [] with rfl | hkey
  · obtain ⟨msg, hmsg⟩ := Endpoint.outcome_missing_key (e := .get) H env ⟨c, sparse⟩ hpath
    refine iff_of_true (fun resp hresp => ?_) (.inl rfl)
    rw [Endpoint.handler] at hmsg
    rw [hmsg] at hresp
    cases hresp
    intro h206
    cases h206
  rcases em (Endpoint.get.Malformed key req ⟨c, sparse⟩) with hbad | hgood
  · refine iff_of_true (fun resp hresp => ?_) (.inr (.inl hbad))
    obtain ⟨-, t, ht, hbad⟩ := hbad
    exact absurd ((returns_handleGet H env ⟨c, sparse⟩ hpath hkey).1 ⟨resp, hresp⟩ t ht) hbad
  -- the request is answered, and the range decides
  obtain ⟨resp, hresp⟩ : Returns (handleGet H env req) ⟨c, sparse⟩ := by
    refine (returns_handleGet H env ⟨c, sparse⟩ hpath hkey).2 fun t ht => ?_
    by_contra hbad
    exact hgood ⟨hkey, t, ht, hbad⟩
  obtain ⟨fromHeader, fromQuery, hheader, hquery, rfl⟩ :=
    (outcome_handleGet_iff H env ⟨c, sparse⟩ hpath hkey).1 hresp
  rw [size_of_resident hresident] at hheader
  rw [AnswersCoherently, hresp, Servable, or_iff_right hkey, or_iff_right hgood]
  simp only [Except.ok.injEq, forall_eq']
  exact coherent_answer_iff hc hv hresident hrange hheader hquery

/-- A put of one byte that goes to the memory level only. -/
def onePut : PutCall := { PutCall.byte (ascii "k") 7 with opts := { noDisk := true } }

/-- The coordinator after the put. -/
def oneState : CacheCoordinator := (CacheCoordinator.after sampleHash {} [.put onePut]).1

/-- A request for a range of the value. -/
def rangeRequest (range : String) : HttpRequest where
  path := ascii "/cache/k"
  headers := (∅ : Headers).insert (ascii "Range") (ascii range)
  body := .single 0

/-- The memory level has the byte, the disk level nothing under the key. -/
theorem resident_oneState : oneState.Resident sampleHash HttpEnv.quiet.read ⟨ascii "k"⟩ [7] := by
  have hdescriptor : (oneState.memory.map fun m => m.descriptors ⟨ascii "k"⟩) =
      some (some (onePut.memoryPut.descriptor sampleHash)) := by decide +kernel
  have hchunk : (oneState.memory.map fun m => m.chunkCache.lookup ⟨sampleHash [7]⟩) =
      some (some ⟨[7]⟩) := by decide +kernel
  have hdisk : (oneState.disk.map fun d => d.descriptors ⟨ascii "k"⟩) = some none := by
    decide +kernel
  have hcount : blockCount chunkSize 1 = 1 := by decide +kernel
  have hblock : block chunkSize ([7] : ByteBuffer) 0 = [7] := by decide +kernel
  have hmemory : ∀ m, oneState.memory = some m →
      m.view.Resident sampleHash HttpEnv.quiet.read.memoryNow ⟨ascii "k"⟩ [7] := by
    intro m hm
    rw [hm, Option.map_some, Option.some.injEq] at hdescriptor hchunk
    refine ⟨⟨onePut.memoryPut, rfl, hdescriptor, rfl⟩, fun i hi => ?_⟩
    obtain rfl : i = 0 := Nat.lt_one_iff.1 (hcount ▸ hi)
    rw [hblock]
    exact hchunk
  obtain ⟨m, hm, -⟩ := Option.map_eq_some_iff.1 hdescriptor
  refine ⟨fun m hm => .inr (hmemory m hm), fun d hd => .inl ?_, .inl ⟨rfl, m, hm, hmemory m hm⟩⟩
  rw [hd, Option.map_some, Option.some.injEq] at hdisk
  exact hdisk

/-- The first byte of the value is served. -/
theorem ranges_coherent_iff_first :
    AnswersCoherently sampleHash .quiet [7] (rangeRequest "bytes=0-0")
      ⟨(CacheCoordinator.after sampleHash {} [.put onePut]).1, {}⟩ := by
  have hzero : Numeral (ascii "0") 0 := ⟨by decide, List.all_eq_true.1 rfl, rfl, Nat.two_pow_pos 64⟩
  have hspell : (ByteRange.fromTo 0 0).Spells ((rangeRequest "bytes=0-0").header "Range") :=
    ⟨ascii "0", ascii "0", rfl, hzero, hzero, le_rfl⟩
  refine (ranges_coherent_iff sampleHash {} [.put onePut] {} .quiet (ascii "k") [7] (by decide)
    resident_oneState (rangeRequest "bytes=0-0") rfl (.inl ⟨_, hspell⟩)).2
    (.inr (.inr ⟨fun r hr => ?_, fun _ b hb => ?_⟩))
  · cases hr
  · rw [hb.unique hspell]
    refine ⟨Nat.one_pos, ?_⟩
    rintro ⟨-, h⟩
    cases h

/-- The last two bytes of a value of one byte are answered with no bytes and an interval that starts
behind the value. -/
theorem suffix_too_long :
    oneState.Resident sampleHash HttpEnv.quiet.read ⟨ascii "k"⟩ [7] ∧
      (ByteRange.suffix 2).Spells ((rangeRequest "bytes=-2").header "Range") ∧
      ∃ resp, (outcome (handleGet sampleHash .quiet (rangeRequest "bytes=-2"))
          ⟨oneState, {}⟩).1 = .ok resp ∧ resp.statusCode = 206 ∧ resp.body = [] ∧
        ¬ Coherent (rangeRequest "bytes=-2") [7] resp := by
  have hspell : (ByteRange.suffix 2).Spells ((rangeRequest "bytes=-2").header "Range") :=
    ⟨[], ascii "2", rfl, rfl, by decide, List.all_eq_true.1 rfl, rfl, by omega⟩
  have hfrom := rangeFor_of_spells hspell 1
  have hpath : (rangeRequest "bytes=-2").path = Endpoint.path (ascii "k") .get := rfl
  have hsize := size_of_resident resident_oneState
  have hanswer := (outcome_handleGet_iff sampleHash .quiet ⟨oneState, {}⟩ hpath (by decide)).2
    ⟨_, none, (congrArg _ hsize).trans hfrom, rfl, rfl⟩
  refine ⟨resident_oneState, hspell, _, hanswer, by decide +kernel, by decide +kernel,
    fun h => ?_⟩
  have hserved := (coherent_answer_iff (CacheCoordinator.memoryInv_after _ _) (by decide)
    resident_oneState (.inl ⟨_, hspell⟩) hfrom rfl).1 h
  exact absurd (hserved.2 rfl _ hspell).2 (by decide)

end HttpHandler

end ElCache
