import ElCache.Types
import ElCache.Arc.Lists
import Mathlib.Data.Rat.Floor

/-!
# The ARC cache

`arc_cache.hpp`: an adaptive replacement cache over two recency lists with values, `t1` (seen once)
and `t2` (seen again), and two ghost lists with keys only, `b1` and `b2`. The adaptation parameter
`p` is an exact rational.

The source adds up sizes in a `size_t`. A size is whatever the size function says, so a sum of sizes
can wrap. The model is written over the arithmetic of sizes `S`: `ARCCache K V UInt64` is the
source's cache, and `ARCCache K V ℕ` is the cache with exact sums, which the source's cache is as
long as no sum wraps (`ElCache.Arc.Exact`). Lengths of lists count objects in memory and are exact.

Each public operation runs under the cache's mutex, so it is one function from states to states.
-/

namespace ElCache

/-- `ARCCache`, with sizes in `S`. -/
structure ARCCache (K V S : Type*) [Counter S] where
  capacity : S
  sizeFn : V → S
  t1 : LRUList K V S := {}
  t2 : LRUList K V S := {}
  b1 : GhostList K := {}
  b2 : GhostList K := {}
  p : ℚ := 0
  currentSize : S := 0

namespace ARCCache

open Counter

variable {K V S : Type*} [Counter S]

/-- `contains`. -/
def contains (c : ARCCache K V S) (key : K) : Bool := c.t1.contains key || c.t2.contains key

/-- `clear`. -/
def clear (c : ARCCache K V S) : ARCCache K V S :=
  { c with t1 := {}, t2 := {}, b1 := {}, b2 := {}, p := 0, currentSize := 0 }

section
variable [DecidableEq K]

/-- `get_impl`. A hit in `t1` moves the entry to `t2`. -/
def get (c : ARCCache K V S) (key : K) : Option V × ARCCache K V S :=
  match c.t1.find key with
  | some n =>
    let t2 := c.t2.pushFront key n.entry
    (t2.get key, { c with t1 := c.t1.eraseNode n, t2 := t2 })
  | none =>
    match c.t2.find key with
    | some n => (some n.entry.value, { c with t2 := c.t2.moveToFront n })
    | none => (none, c)

/-- `evict_one`: the evicted pair, if any. The last entry of `t1` goes when `t1` is larger than its
target `p`, or when `t2` has nothing to give. -/
def evictOne (c : ARCCache K V S) : List (K × V) × ARCCache K V S :=
  if !c.t1.empty && (decide (⌊c.p⌋.toNat < toNat c.t1.totalSize) || c.t2.empty) then
    match c.t1.popBack with
    | some (n, t1) =>
      ([(n.key, n.entry.value)],
        { c with t1 := t1, currentSize := c.currentSize - n.entry.size,
                 b1 := c.b1.pushFront n.key () })
    | none => ([], c)
  else
    match c.t2.popBack with
    | some (n, t2) =>
      ([(n.key, n.entry.value)],
        { c with t2 := t2, currentSize := c.currentSize - n.entry.size,
                 b2 := c.b2.pushFront n.key () })
    | none => ([], c)

/-- The loop of `evict_for_size`. Each round takes one entry off `t1` or `t2`, so their number of
entries is enough fuel. -/
def evictLoop (needed : S) : Nat → ARCCache K V S → List (K × V) × ARCCache K V S
  | 0, c => ([], c)
  | fuel + 1, c =>
    if c.capacity < c.currentSize + needed ∧ (c.t1.empty = false ∨ c.t2.empty = false) then
      let one := c.evictOne
      let rest := evictLoop needed fuel one.2
      (one.1 ++ rest.1, rest.2)
    else ([], c)

/-- `evict_for_size`. -/
def evictForSize (c : ARCCache K V S) (needed : S) : List (K × V) × ARCCache K V S :=
  evictLoop needed (c.t1.size + c.t2.size) c

/-- The end of cases 3 and 4 of `put_impl`: make room and push on `t2`. -/
def admitT2 (c : ARCCache K V S) (key : K) (value : V) : List (K × V) × ARCCache K V S :=
  let r := c.evictForSize (c.sizeFn value)
  (r.1, { r.2 with t2 := r.2.t2.pushFront key ⟨value, c.sizeFn value⟩,
                   currentSize := r.2.currentSize + c.sizeFn value })

/-- The end of case 5 of `put_impl`: make room and push on `t1`. -/
def admitT1 (c : ARCCache K V S) (key : K) (value : V) : List (K × V) × ARCCache K V S :=
  let r := c.evictForSize (c.sizeFn value)
  (r.1, { r.2 with t1 := r.2.t1.pushFront key ⟨value, c.sizeFn value⟩,
                   currentSize := r.2.currentSize + c.sizeFn value })

/-- Case 3 of `put_impl` before the eviction: a hit in `b1` raises the target for `t1`. -/
def adaptB1 (c : ARCCache K V S) (key : K) : ARCCache K V S :=
  let delta : ℚ := if c.b1.size ≤ c.b2.size then 1 else (c.b2.size : ℚ) / c.b1.size
  { c with p := min (c.p + delta) (toNat c.capacity), b1 := c.b1.erase key }

/-- Case 4 of `put_impl` before the eviction: a hit in `b2` lowers the target for `t1`. -/
def adaptB2 (c : ARCCache K V S) (key : K) : ARCCache K V S :=
  let delta : ℚ := if c.b2.size ≤ c.b1.size then 1 else (c.b1.size : ℚ) / c.b2.size
  { c with p := max (c.p - delta) 0, b2 := c.b2.erase key }

/-- Case 5 of `put_impl` before the eviction: trim the ghost lists. -/
def trimGhosts (c : ARCCache K V S) : ARCCache K V S :=
  if toNat c.capacity ≤ c.t1.size + c.b1.size then
    match c.b1.popBack with
    | some (_, b1) => { c with b1 := b1 }
    | none => c
  else if wrap64 (toNat c.capacity * 2) ≤ c.t1.size + c.t2.size + (c.b1.size + c.b2.size) then
    match c.b2.popBack with
    | some (_, b2) => { c with b2 := b2 }
    | none => c
  else c

/-- `put_impl`: the evicted pairs and the new state. -/
def put (c : ARCCache K V S) (key : K) (value : V) : List (K × V) × ARCCache K V S :=
  match c.t1.find key with
  | some n =>
    -- case 1: update and move to `t2`
    ([], { c with t1 := c.t1.eraseNode n, t2 := c.t2.pushFront key ⟨value, c.sizeFn value⟩,
                  currentSize := c.currentSize - n.entry.size + c.sizeFn value })
  | none =>
    match c.t2.find key with
    | some n =>
      -- case 2: update in place and move to the front
      let entry : Entry V S := ⟨value, c.sizeFn value⟩
      ([], { c with t2 := (c.t2.assign n entry).moveToFront { n with entry := entry },
                    currentSize := c.currentSize - n.entry.size + c.sizeFn value })
    | none =>
      if c.b1.contains key then (c.adaptB1 key).admitT2 key value
      else if c.b2.contains key then (c.adaptB2 key).admitT2 key value
      else c.trimGhosts.admitT1 key value

/-- `remove_impl`. -/
def remove (c : ARCCache K V S) (key : K) : Bool × ARCCache K V S :=
  match c.t1.find key with
  | some n => (true, { c with t1 := c.t1.eraseNode n, currentSize := c.currentSize - n.entry.size })
  | none =>
    match c.t2.find key with
    | some n =>
      (true, { c with t2 := c.t2.eraseNode n, currentSize := c.currentSize - n.entry.size })
    | none => (false, { c with b1 := c.b1.erase key, b2 := c.b2.erase key })

end

/-! ## Contents and invariant -/

/-- The value stored under a key. -/
def lookup (c : ARCCache K V S) (key : K) : Option V := (c.t1.get key).or (c.t2.get key)

/-- The entries of both value lists. -/
def entries (c : ARCCache K V S) : Multiset (K × Entry V S) := c.t1.pairs + c.t2.pairs

/-- The stored keys with their values. -/
def contents (c : ARCCache K V S) : Multiset (K × V) := c.entries.map fun x => (x.1, x.2.value)

/-- The keys of all four lists. -/
def directory (c : ARCCache K V S) : Multiset K := c.t1.keys + c.t2.keys + (c.b1.keys + c.b2.keys)

/-- The total size of the stored values, in the arithmetic of sizes. -/
def weight (c : ARCCache K V S) : S := (c.contents.map fun x => c.sizeFn x.2).sum

/-- The representation invariant: the lists are well-formed and share no key, every stored size is
the size of the stored value, `currentSize` is the sum of the sizes, and `p` is a target for `t1`
that the capacity allows. -/
structure Inv (c : ARCCache K V S) : Prop where
  t1 : c.t1.WF
  t2 : c.t2.WF
  b1 : c.b1.WF
  b2 : c.b2.WF
  nodup : c.directory.Nodup
  sizes : ∀ x ∈ c.entries, x.2.size = c.sizeFn x.2.value
  currentSize : c.currentSize = c.weight
  p_nonneg : 0 ≤ c.p
  p_le : c.p ≤ toNat c.capacity

end ARCCache

end ElCache
