import ElCache.Types
import ElCache.Lib.Text
import Mathlib.Data.List.AList

/-!
# HTTP messages

`HttpRequest` and `HttpResponse` of `http_api.cpp`, with the texts they carry as byte strings. The
header fields are a map from names to values; the order of its entries is the order in which the
case-insensitive search of `header` goes through them. The method and the fields that no handler
reads are left out.

The numbers a client sends are cut out of these texts and converted by functions that throw, so the
parsers return in `Except`.
-/

namespace ElCache

open Text

/-- Header fields by name. -/
abbrev Headers := AList fun _ : ByteBuffer => ByteBuffer

/-! ## Requests -/

/-- `HttpRequest`. -/
structure HttpRequest where
  path : ByteBuffer
  query : ByteBuffer := []
  headers : Headers := ∅
  body : ByteView

/-- A number cut out of a text, if it is there. -/
def numberOr (present : Bool) (text : Except StdException ByteBuffer) (default : Nat) :
    Except StdException Nat :=
  if present then text >>= stoull else .ok default

/-- The end of `HttpRequest::parse_range_header`, from the text behind the equals sign. Of a suffix
range the number behind the dash is a length; other ranges are given by their first and last
byte. -/
def parseBounds (rangeVal : ByteBuffer) (totalSize : Nat) : Except StdException Range :=
  match find (ascii "-") rangeVal with
  | none => .ok ⟨0, totalSize⟩
  | some dash => do
    let start ← numberOr (0 < dash) (substrN rangeVal 0 dash) 0
    let last ← numberOr (dash < rangeVal.length - 1) (substr rangeVal (dash + 1))
      (sub64 totalSize 1)
    let bounds := if dash = 0 then (sub64 totalSize last, sub64 totalSize 1) else (start, last)
    .ok ⟨bounds.1, wrap64 (sub64 bounds.2 bounds.1 + 1)⟩

/-- `HttpRequest::parse_range_header` for a field that is not empty. -/
def parseRange (rangeStr : ByteBuffer) (totalSize : Nat) : Except StdException Range :=
  match find (ascii "=") rangeStr with
  | none => .ok ⟨0, totalSize⟩
  | some eq => do
    let rangeVal ← substr rangeStr (eq + 1)
    parseBounds rangeVal totalSize

/-- The end of the query parsing in `handle_get`: an offset and a length. -/
def parsePair (rangeStr : ByteBuffer) : Except StdException (Option Range) :=
  match find (ascii "-") rangeStr with
  | none => .ok none
  | some dash => do
    let offset ← substrN rangeStr 0 dash >>= stoull
    let length ← substr rangeStr (dash + 1) >>= stoull
    .ok (some ⟨offset, length⟩)

/-- The query parsing in `handle_get`. -/
def parseQueryRange (query : ByteBuffer) : Except StdException (Option Range) :=
  match find (ascii "range=") query with
  | none => .ok none
  | some rangePos => do
    let rangeStr ← substr query (rangePos + 6)
    parsePair rangeStr

namespace HttpRequest

/-- `HttpRequest::header`: the field of this very name, or else the first whose name differs in case
only. -/
def header (req : HttpRequest) (name : String) : ByteBuffer :=
  match req.headers.lookup (ascii name) with
  | some value => value
  | none =>
    match req.headers.entries.find? fun e => e.1.map toLower = (ascii name).map toLower with
    | some e => e.2
    | none => []

/-- `HttpRequest::has_range_header`. -/
def hasRangeHeader (req : HttpRequest) : Bool := !(req.header "Range").isEmpty

/-- `HttpRequest::parse_range_header`. -/
def parseRangeHeader (req : HttpRequest) (totalSize : Nat) : Except StdException Range :=
  if (req.header "Range").isEmpty then .ok ⟨0, totalSize⟩
  else parseRange (req.header "Range") totalSize

end HttpRequest

/-! ## Responses -/

/-- `HttpResponse`. -/
structure HttpResponse where
  statusCode : Nat := 200
  statusText : ByteBuffer := ascii "OK"
  headers : Headers := ∅
  body : ByteBuffer := []

/-- The value of `Content-Range` for the bytes from `first` to `last`. -/
def contentRange (first last total : Nat) : ByteBuffer :=
  ascii "bytes " ++ (decimal first ++ (ascii "-" ++ (decimal last ++ (ascii "/" ++ decimal total))))

/-- The last byte of a range, as `set_range_headers` computes it. -/
def Range.lastByte (r : Range) : Nat := sub64 (r.offset + r.length) 1

namespace HttpResponse

def setHeader (resp : HttpResponse) (name : String) (value : ByteBuffer) : HttpResponse :=
  { resp with headers := resp.headers.insert (ascii name) value }

/-- `HttpResponse::set_content_type`. -/
def setContentType (resp : HttpResponse) (type : String) : HttpResponse :=
  resp.setHeader "Content-Type" (ascii type)

/-- `HttpResponse::set_content_length`. -/
def setContentLength (resp : HttpResponse) (len : Nat) : HttpResponse :=
  resp.setHeader "Content-Length" (decimal len)

/-- `HttpResponse::set_range_headers`. -/
def setRangeHeaders (resp : HttpResponse) (range : Range) (total : Nat) : HttpResponse :=
  (resp.setHeader "Content-Range" (contentRange range.offset range.lastByte total)).setHeader
    "Accept-Ranges" (ascii "bytes")

/-- `HttpResponse::ok`. -/
def ok (body : ByteBuffer) : HttpResponse := { body := body }

/-- `HttpResponse::created`. -/
def created : HttpResponse := { statusCode := 201, statusText := ascii "Created" }

/-- `HttpResponse::partial_content`. -/
def partialContent (body : ByteBuffer) (range : Range) (total : Nat) : HttpResponse :=
  ({ statusCode := 206, statusText := ascii "Partial Content", body := body } :
    HttpResponse).setRangeHeaders range total

/-- A response with a message as plain text. -/
def plain (statusCode : Nat) (statusText msg : String) : HttpResponse :=
  ({ statusCode := statusCode, statusText := ascii statusText, body := ascii msg } :
    HttpResponse).setContentType "text/plain"

/-- `HttpResponse::not_found`. -/
def notFound (msg : String) : HttpResponse := plain 404 "Not Found" msg

/-- `HttpResponse::bad_request`. -/
def badRequest (msg : String) : HttpResponse := plain 400 "Bad Request" msg

/-- The conflict the sparse handlers answer. -/
def conflict (msg : String) : HttpResponse := plain 409 "Conflict" msg

/-- `HttpResponse::internal_error`. -/
def internalError (msg : String) : HttpResponse := plain 500 "Internal Server Error" msg

end HttpResponse

end ElCache
