import Mathlib.Logic.Function.Basic
import RebuildTheWheel.Data.ByteRegion

namespace RebuildTheWheel.Nginx

open Data

/-! `ngx_hash_init` and `ngx_hash_find`, with pointers of 8 bytes. -/

/-- For `a` a power of two. -/
def ngxAlign (d a : Nat) : Nat := (d + (a - 1)) / a * a

/-- `ngx_cacheline_size`. -/
def Cacheline := { size : Nat // ∃ k ≤ 8, size = 8 * 2 ^ k }

def ngxTolower (c : UInt8) : UInt8 := if 65 ≤ c ∧ c ≤ 90 then c ||| 0x20 else c

def ngxHashKey (data : Bytes) : UInt64 := data.foldl (fun key c => key * 31 + c.toUInt64) 0

/-- `ngx_hash_key_t`; `isNull` tells that `key.data` is `NULL`. -/
structure HashKey where
  key : Bytes
  isNull : Bool
  keyHash : UInt64
  value : UInt64

/-- `NGX_HASH_ELT_SIZE` -/
def HashKey.eltSize (name : HashKey) : Nat := 8 + ngxAlign (name.key.length + 2) 8

/-- What is written for an element: `value`, `len` and `name`. -/
def HashKey.elt (name : HashKey) : Bytes :=
  littleEndian 8 name.value.toNat ++ littleEndian 2 name.key.length ++ name.key.map ngxTolower

structure HashInit where
  /-- `hash` is `NULL`. -/
  alone : Bool
  maxSize : UInt64
  bucketSize : UInt64

/-- The table with the memory that its buckets point to. -/
structure HashTable where
  size : Nat
  buckets : Nat → Option Nat
  elts : Region

inductive Fault where
  | divisionByZero
  | outside
  deriving DecidableEq

namespace Hash

def live (names : List HashKey) : List HashKey := names.filter (!·.isNull)

def bucket (size : Nat) (name : HashKey) : Nat := name.keyHash.toNat % size

/-- `test[key] = (u_short) (test[key] + NGX_HASH_ELT_SIZE(&names[n]))` -/
def grow (size : Nat) (test : Nat → UInt16) (name : HashKey) : Nat → UInt16 :=
  Function.update test (bucket size name)
    (test (bucket size name) + UInt16.ofNat name.eltSize)

/-- The elements fit in the buckets, as far as the sums of 16 bits tell. -/
def fits (bucketSize : UInt64) (size : Nat) : (Nat → UInt16) → List HashKey → Bool
  | _, [] => true
  | test, name :: names =>
      if bucketSize.toUInt16 < grow size test name (bucket size name) then false
      else fits bucketSize size (grow size test name) names

/-- The sizes are tried from `size` on; there are `n` of them. -/
def firstFit (bucketSize : UInt64) (names : List HashKey) : Nat → Nat → Option Nat
  | 0, _ => none
  | n + 1, size =>
      if fits bucketSize size (fun _ => 0) (live names) then some size
      else firstFit bucketSize names n (size + 1)

/-- `size` at `found`. -/
def bucketCount (hinit : HashInit) (names : List HashKey) : Nat :=
  let bucketSize := hinit.bucketSize - 8
  let nelts := names.length
  let maxSize := hinit.maxSize.toNat
  let start := nelts / (bucketSize / 16).toNat
  let start := if start = 0 then 1 else start
  let start := if 10000 < maxSize ∧ nelts ≠ 0 ∧ maxSize / nelts < 100 then maxSize - 1000 else start
  (firstFit bucketSize names (maxSize + 1 - start) start).getD maxSize

/-- The room of each bucket, or 8 where there are no elements. -/
def rooms (line : Cacheline) (size : Nat) (names : List HashKey) (i : Nat) : UInt16 :=
  let test := (live names).foldl (grow size) (fun _ => 8)
  if test i = 8 then 8 else UInt16.ofNat (ngxAlign (test i).toNat line.1)

/-- The sum of the rooms of the first `size` buckets. -/
def roomsBefore (test : Nat → UInt16) : Nat → Nat
  | 0 => 0
  | i + 1 => roomsBefore test i + if test i = 8 then 0 else (test i).toNat

/-- The loop that points the buckets from `i` on to their elements; `n` buckets are left. -/
def pointBuckets (test : Nat → UInt16) : Nat → Nat → Nat → (Nat → Option Nat) → Nat → Option Nat
  | 0, _, _, buckets => buckets
  | n + 1, i, elts, buckets =>
      if test i = 8 then pointBuckets test n (i + 1) elts buckets
      else pointBuckets test n (i + 1) (elts + (test i).toNat)
        (Function.update buckets i (some elts))

def place (size : Nat) (buckets : Nat → Option Nat) :
    (Nat → UInt16) → Region → List HashKey → Except Fault ((Nat → UInt16) × Region)
  | test, m, [] => .ok (test, m)
  | test, m, name :: names =>
      match buckets (bucket size name) with
      | none => .error .outside
      | some b =>
          match m.write (b + (test (bucket size name)).toNat) name.elt with
          | none => .error .outside
          | some m => place size buckets (grow size test name) m names

/-- The null pointers after the elements of the buckets from `i` on; `n` buckets are left. -/
def terminate (buckets : Nat → Option Nat) (test : Nat → UInt16) :
    Nat → Nat → Region → Except Fault Region
  | 0, _, m => .ok m
  | n + 1, i, m =>
      match buckets i with
      | none => terminate buckets test n (i + 1) m
      | some b =>
          match m.write (b + (test i).toNat) (littleEndian 8 0) with
          | none => .error .outside
          | some m => terminate buckets test n (i + 1) m

def rejected (hinit : HashInit) (names : List HashKey) : Bool :=
  hinit.maxSize = 0 || names.any fun name => hinit.bucketSize.toNat < name.eltSize + 8

/-- The bytes of the block for the buckets: with `ngx_hash_wildcard_t` in front if there is no
`hash` yet. -/
def bucketsBytes (hinit : HashInit) (size : Nat) : Nat := (if hinit.alone then 24 else 0) + 8 * size

end Hash

open Hash

/-- `none` is `NGX_ERROR`. `addr` is where the block for the elements comes to lie and `garbage`
what is in it. The sizes that are tried are not larger than the last one, so that one check covers
all accesses to `test`. -/
def hashInit (line : Cacheline) (hinit : HashInit) (addr : Nat) (garbage : Nat → UInt8)
    (names : List HashKey) : Except Fault (Option HashTable) :=
  if rejected hinit names then .ok none
  else if (hinit.bucketSize - 8) / 16 = 0 then .error .divisionByZero
  else
    let size := bucketCount hinit names
    if (2 * hinit.maxSize.toNat) % 2 ^ 64 < 2 * size then .error .outside
    else if bucketsBytes hinit size % 2 ^ 64 < bucketsBytes hinit size then .error .outside
    else
      let test := rooms line size names
      let len := roomsBefore test size % 2 ^ 64
      let m : Region := ⟨addr, (len + line.1) % 2 ^ 64, garbage⟩
      let buckets := pointBuckets test size 0 (ngxAlign addr line.1) (fun _ => none)
      match place size buckets (fun _ => 0) m (live names) with
      | .error fault => .error fault
      | .ok (test, m) =>
          match terminate buckets test size 0 m with
          | .error fault => .error fault
          | .ok m => .ok (some ⟨size, buckets, m⟩)

/-- The elements from `elt` on; each is at least 10 bytes long, so `fuel` may be the bytes left. -/
def hashFindFrom (m : Region) (name : Bytes) : Nat → Nat → Option UInt64
  | 0, _ => none
  | fuel + 1, elt => do
      let value ← (m.read elt 8).map ofLittleEndian
      if value = 0 then some 0
      else
        let len ← (m.read (elt + 8) 2).map ofLittleEndian
        let next := ngxAlign (elt + 10 + len) 8
        if name.length ≠ len then hashFindFrom m name fuel next
        else if name ≠ (← m.read (elt + 10) len) then hashFindFrom m name fuel next
        else some (UInt64.ofNat value)

/-- `none` when the memory is read outside. -/
def hashFind (hash : HashTable) (key : UInt64) (name : Bytes) : Option UInt64 :=
  match hash.buckets (key.toNat % hash.size) with
  | none => some 0
  | some elt => hashFindFrom hash.elts name (hash.elts.start + hash.elts.size - elt) elt

end RebuildTheWheel.Nginx

namespace RebuildTheWheel.Nginx

open Data
open Data.Ascii (point)

/-! `ngx_hash_wildcard_init` and `ngx_hash_find_wc_head`. -/

def ngxHashKeyLc (data : Bytes) : UInt64 :=
  data.foldl (fun key c => key * 31 + (ngxTolower c).toUInt64) 0

/-- `ngx_hash_wildcard_t`, with the names that `ngx_hash_init` was called with. -/
structure WildcardTable where
  hash : HashTable
  value : UInt64
  names : List HashKey

/-- What the calls of the allocator return, in their order: where the tables and the elements come
to lie, and what is in the memory of the elements. -/
structure Pool where
  address : Nat → UInt64
  elts : Nat → Nat
  garbage : Nat → Nat → UInt8

/-- The tables in memory, and how many calls there have been. -/
structure WildcardHeap where
  tables : UInt64 → Option WildcardTable
  allocated : Nat

/-- `ngx_hash_key_t` without a hash. -/
structure WildcardName where
  key : Bytes
  value : UInt64

namespace Wildcard

/-- `ngx_strncmp(s, t, n) == 0` for strings that end with a NUL. -/
def strncmpEq : Nat → Bytes → Bytes → Bool
  | 0, _, _ => true
  | n + 1, s, t =>
      s.headD 0 = t.headD 0 && (s.headD 0 = 0 || strncmpEq n s.tail t.tail)

def label (key : Bytes) : Bytes := key.takeWhile (· ≠ point)

def hasDot (key : Bytes) : Bool := point ∈ key

/-- `len` after the dot has been counted. -/
def labelLen (key : Bytes) : Nat := (label key).length + if hasDot key then 1 else 0

/-- The loop over the names that begin with the label of `first`: they are left without it. The
names after them come second. -/
def nextNames (first : WildcardName) :
    List WildcardName → Except Fault (List WildcardName × List WildcardName)
  | [] => .ok ([], [])
  | name :: names =>
      let len := labelLen first.key
      let dotLen := (label first.key).length + 1
      if !strncmpEq len first.key name.key then .ok ([], name :: names)
      else if !hasDot first.key && len < name.key.length && name.key.getD len 0 ≠ point then
        .ok ([], name :: names)
      else if name.key.length < dotLen then .error .outside
      else
        match nextNames first names with
        | .error fault => .error fault
        | .ok (next, rest) => .ok (⟨name.key.drop dotLen, name.value⟩ :: next, rest)

/-- What is left of `first` itself. -/
def remainder (first : WildcardName) : List WildcardName :=
  if first.key.length ≠ labelLen first.key then
    [⟨first.key.drop (labelLen first.key), first.value⟩]
  else []

def setValue (heap : WildcardHeap) (p value : UInt64) : WildcardHeap :=
  let wdc := (heap.tables p).map fun wdc => { wdc with value := value }
  { heap with tables := Function.update heap.tables p wdc }

/-- Calls of `ngx_hash_wildcard_init` return the table's address. -/
abbrev Init := List WildcardName → WildcardHeap → Except Fault (Option (WildcardHeap × UInt64))

/-- The value that `curr_names` gets for the label of `first`. -/
def labelValue (init : Init) (first : WildcardName) (next : List WildcardName)
    (heap : WildcardHeap) : Except Fault (Option (WildcardHeap × UInt64)) :=
  if next.isEmpty then
    .ok (some (heap, if hasDot first.key then first.value ||| 1 else first.value))
  else
    match init next heap with
    | .error fault => .error fault
    | .ok none => .ok none
    | .ok (some (heap, wdc)) =>
        let heap := if first.key.length = labelLen first.key then setValue heap wdc first.value else heap
        .ok (some (heap, wdc ||| if hasDot first.key then 3 else 2))

/-- The loop that fills `curr_names`; there are no more rounds than names. -/
def currNames (init : Init) :
    Nat → List WildcardName → WildcardHeap → Except Fault (Option (WildcardHeap × List HashKey))
  | _, [], heap => .ok (some (heap, []))
  | 0, _ :: _, _ => .error .outside
  | n + 1, first :: names, heap =>
      match nextNames first names with
      | .error fault => .error fault
      | .ok (next, rest) =>
          match labelValue init first (remainder first ++ next) heap with
          | .error fault => .error fault
          | .ok none => .ok none
          | .ok (some (heap, value)) =>
              match currNames init n rest heap with
              | .error fault => .error fault
              | .ok none => .ok none
              | .ok (some (heap, curr)) =>
                  let label := label first.key
                  .ok (some (heap, ⟨label, false, ngxHashKeyLc label, value⟩ :: curr))

/-- The call of `ngx_hash_init`, which allocates the table. -/
def build (line : Cacheline) (hinit : HashInit) (pool : Pool) (curr : List HashKey) (heap : WildcardHeap) :
    Except Fault (Option (WildcardHeap × UInt64)) :=
  let n := heap.allocated
  match hashInit line { hinit with alone := true } (pool.elts n) (pool.garbage n) curr with
  | .error fault => .error fault
  | .ok none => .ok none
  | .ok (some hash) =>
      .ok (some (⟨Function.update heap.tables (pool.address n) (some ⟨hash, 0, curr⟩), n + 1⟩,
        pool.address n))

/-- The keys get shorter with every level, so that `fuel` may be one more than the longest. -/
def init (line : Cacheline) (hinit : HashInit) (pool : Pool) : Nat → Init
  | 0, _, _ => .error .outside
  | fuel + 1, names, heap =>
      match currNames (init line hinit pool fuel) names.length names heap with
      | .error fault => .error fault
      | .ok none => .ok none
      | .ok (some (heap, curr)) => build line hinit pool curr heap

end Wildcard

open Wildcard

/-- `none` is `NGX_ERROR`. -/
def hashWildcardInit (line : Cacheline) (hinit : HashInit) (pool : Pool)
    (names : List WildcardName) : Except Fault (Option (WildcardHeap × UInt64)) :=
  init line hinit pool ((names.map fun name => name.key.length).foldl max 0 + 1) names
    ⟨fun _ => none, 0⟩

/-- The part of a name after the last dot. -/
def lastLabel (name : Bytes) : Bytes := (name.reverse.takeWhile (· ≠ point)).reverse

/-- What follows the lookup of the last label, which gives `value`; `n` bytes come before it, and
`find` looks for the rest of them. -/
def ofValue (tables : UInt64 → Option WildcardTable) (find : WildcardTable → Option UInt64)
    (hwc : WildcardTable) (n : Nat) (value : UInt64) : Option UInt64 :=
  if value = 0 then some hwc.value
  else if value &&& 2 ≠ 0 then do
    let inner ← tables (value &&& ~~~3)
    if n = 0 then
      if value &&& 1 ≠ 0 then some 0 else some inner.value
    else
      let found ← find inner
      if found ≠ 0 then some found else some inner.value
  else if value &&& 1 ≠ 0 then
    if n = 0 then some 0 else some (value &&& ~~~3)
  else some value

/-- The names get shorter, so that `fuel` may be one more than the length. -/
def wcHeadFind (tables : UInt64 → Option WildcardTable) :
    Nat → WildcardTable → Bytes → Option UInt64
  | 0, _, _ => none
  | fuel + 1, hwc, name => do
      let label := lastLabel name
      let n := name.length - label.length
      let value ← hashFind hwc.hash (ngxHashKey label) label
      ofValue tables (fun inner => wcHeadFind tables fuel inner (name.take (n - 1))) hwc n value

/-- `ngx_hash_find_wc_head` with the table at `p`. -/
def hashFindWcHead (tables : UInt64 → Option WildcardTable) (p : UInt64) (name : Bytes) :
    Option UInt64 := do
  let hwc ← tables p
  wcHeadFind tables (name.length + 1) hwc name

end RebuildTheWheel.Nginx
