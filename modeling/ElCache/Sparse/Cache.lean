import ElCache.Types
import ElCache.Lib.Overlay

/-!
# Sparse uploads

`sparse_cache.hpp`: a value uploaded in pieces, at any positions and in any order. An entry has a
byte and a flag for every position; `finalize` hands out the bytes once all flags are set. Every
operation of `SparseCache` takes the mutex, so it is one atomic step.
-/

namespace ElCache

open Overlay

/-- `SparseEntry`. -/
structure SparseEntry where
  totalSize : Nat
  data : ByteBuffer
  written : List Bool
  finalized : Bool
  deriving DecidableEq, Repr

namespace SparseEntry

/-- `SparseEntry::SparseEntry`. -/
def init (size : Nat) : SparseEntry where
  totalSize := size
  data := List.replicate size 0
  written := List.replicate size false
  finalized := false

/-- `SparseEntry::write_range`. The end of the range is computed in 64 bits. -/
def writeRange (e : SparseEntry) (offset : Nat) (buf : ByteBuffer) : Bool × SparseEntry :=
  if e.totalSize < wrap64 (offset + buf.length) then (false, e)
  else (true, { e with
    data := overwrite e.data offset buf
    written := overwrite e.written offset (List.replicate buf.length true) })

/-- `SparseEntry::is_complete`. -/
def isComplete (e : SparseEntry) : Bool := e.written.all id

/-- `SparseEntry::completion_percent`, as an exact rational. -/
def completionPercent (e : SparseEntry) : Rat :=
  if e.totalSize = 0 then 100 else (e.written.count true : Rat) / e.totalSize * 100

end SparseEntry

/-- `SparseCache`, with keys as byte strings. -/
structure SparseCache where
  entries : ByteBuffer → Option SparseEntry := fun _ => none

namespace SparseCache

/-- `SparseCache::create`. -/
def create (key : ByteBuffer) (totalSize : Nat) (s : SparseCache) : Bool × SparseCache :=
  match s.entries key with
  | some _ => (false, s)
  | none => (true, ⟨Function.update s.entries key (some (.init totalSize))⟩)

/-- `SparseCache::write_range`. -/
def writeRange (key : ByteBuffer) (offset : Nat) (data : ByteBuffer) (s : SparseCache) :
    Bool × SparseCache :=
  match s.entries key with
  | none => (false, s)
  | some e =>
    let r := e.writeRange offset data
    (r.1, ⟨Function.update s.entries key (some r.2)⟩)

/-- `SparseCache::finalize`: the return code, the data handed out, if any, and what is left. -/
def finalize (key : ByteBuffer) (s : SparseCache) : Nat × Option ByteBuffer × SparseCache :=
  match s.entries key with
  | none => (1, none, s)
  | some e =>
    if e.isComplete then (0, some e.data, ⟨Function.update s.entries key none⟩) else (2, none, s)

/-- `SparseCache::exists`. -/
def existsKey (key : ByteBuffer) (s : SparseCache) : Bool := (s.entries key).isSome

/-- `SparseCache::get_completion`. -/
def getCompletion (key : ByteBuffer) (s : SparseCache) : Rat :=
  match s.entries key with
  | none => 0
  | some e => e.completionPercent

/-- `SparseCache::remove`. -/
def remove (key : ByteBuffer) (s : SparseCache) : Bool × SparseCache :=
  match s.entries key with
  | none => (false, s)
  | some _ => (true, ⟨Function.update s.entries key none⟩)

end SparseCache

end ElCache
