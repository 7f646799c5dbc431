import Mathlib.Logic.Function.Basic
import RebuildTheWheel.Data.ByteRegion
import Mathlib.Tactic.SplitIfs
import RebuildTheWheel.Data.Circular

namespace RebuildTheWheel.Nginx

open Data

/-! `ngx_http_v2_table.c`: the tables of HPACK. -/

/-- `ngx_http_v2_header_t` with the bytes of its strings. -/
structure Http2Header where
  name : Bytes
  value : Bytes
deriving DecidableEq

inductive HpackResult where
  | ok
  | error
deriving DecidableEq

inductive HpackFault where
  | null
  | garbage
  | outside
  | endless
deriving DecidableEq

/-- A string in the storage, from its byte `data` on. -/
structure HpackString where
  len : Nat
  data : Nat

structure HpackEntry where
  name : HpackString
  value : HpackString

/-- `ngx_http_v2_hpack_t`. The descriptors that have been allocated are those of `cells` below
`fresh`, and `pos` is counted from the start of the storage. -/
structure Hpack where
  entries : Option (Nat → Option Nat)
  allocated : Nat
  added : Nat
  deleted : Nat
  reused : Nat
  size : Nat
  free : Nat
  storage : Option Region
  pos : Nat
  cells : Nat → HpackEntry
  fresh : Nat

namespace Hpack

/-- `NGX_HTTP_V2_TABLE_SIZE` -/
abbrev tableSizeLimit : Nat := 4096

def text (name value : String) : Http2Header :=
  ⟨name.toList.map fun c => UInt8.ofNat c.toNat, value.toList.map fun c => UInt8.ofNat c.toNat⟩

/-- `ngx_http_v2_static_table` -/
def staticTable : List Http2Header :=
  List.map (fun entry => text entry.1 entry.2)
  [(":authority", ""), (":method", "GET"), (":method", "POST"), (":path", "/"),
    (":path", "/index.html"), (":scheme", "http"), (":scheme", "https"), (":status", "200"),
    (":status", "204"), (":status", "206"), (":status", "304"), (":status", "400"),
    (":status", "404"), (":status", "500"), ("accept-charset", ""),
    ("accept-encoding", "gzip, deflate"), ("accept-language", ""), ("accept-ranges", ""),
    ("accept", ""), ("access-control-allow-origin", ""), ("age", ""), ("allow", ""),
    ("authorization", ""), ("cache-control", ""), ("content-disposition", ""),
    ("content-encoding", ""), ("content-language", ""), ("content-length", ""),
    ("content-location", ""), ("content-range", ""), ("content-type", ""), ("cookie", ""),
    ("date", ""), ("etag", ""), ("expect", ""), ("expires", ""), ("from", ""), ("host", ""),
    ("if-match", ""), ("if-modified-since", ""), ("if-none-match", ""), ("if-range", ""),
    ("if-unmodified-since", ""), ("last-modified", ""), ("link", ""), ("location", ""),
    ("max-forwards", ""), ("proxy-authenticate", ""), ("proxy-authorization", ""), ("range", ""),
    ("referer", ""), ("refresh", ""), ("retry-after", ""), ("server", ""), ("set-cookie", ""),
    ("strict-transport-security", ""), ("transfer-encoding", ""), ("user-agent", ""), ("vary", ""),
    ("via", ""), ("www-authenticate", "")]

/-- `entries[k % allocated]` -/
def entryAt (hpack : Hpack) (k : Nat) : Except HpackFault Nat :=
  match hpack.entries with
  | none => throw .null
  | some entries =>
      match entries (k % hpack.allocated) with
      | none => throw .garbage
      | some entry => return entry

def evict (hpack : Hpack) : Except HpackFault Hpack := do
  let entry ← hpack.entryAt hpack.deleted
  return { hpack with
    deleted := hpack.deleted + 1
    free := hpack.free + (32 + (hpack.cells entry).name.len + (hpack.cells entry).value.len) }

/-- `while (needed > (ssize_t) h2c->hpack.free)`, with at most `n` entries. -/
def evictWhile (needed : Int) : Nat → Hpack → Except HpackFault Hpack
  | 0, hpack => if (hpack.free : Int) < needed then throw .endless else return hpack
  | n + 1, hpack =>
      if (hpack.free : Int) < needed then do
        let hpack ← hpack.evict
        evictWhile needed n hpack
      else return hpack

/-- `ngx_http_v2_table_account`; `false` is `NGX_DECLINED`. -/
def tableAccount (hpack : Hpack) (size : Nat) : Except HpackFault (Bool × Hpack) :=
  let size := size + 32
  if size ≤ hpack.free then return (true, { hpack with free := hpack.free - size })
  else if hpack.size < size then
    return (false, { hpack with deleted := hpack.added, free := hpack.size })
  else do
    let hpack ← hpack.evict
    let hpack ← evictWhile size (hpack.added - hpack.deleted) hpack
    return (true, { hpack with free := hpack.free - size })

/-- The first use of the table: how many of the `allocs` allocations are left, if enough succeed. -/
def setUp (allocs : Nat) (garbage : Nat → UInt8) (hpack : Hpack) : Option Nat × Hpack :=
  match hpack.entries with
  | some _ => (some allocs, hpack)
  | none =>
      let hpack := { hpack with allocated := 64, size := tableSizeLimit, free := tableSizeLimit }
      match allocs with
      | 0 => (none, hpack)
      | 1 => (none, { hpack with entries := some fun _ => none })
      | allocs + 2 => (some allocs, { hpack with
          entries := some fun _ => none
          storage := some ⟨0, tableSizeLimit, garbage⟩
          pos := 0 })

/-- The descriptor for a new entry. -/
def takeEntry (allocs : Nat) (hpack : Hpack) : Except HpackFault (Option (Nat × Nat) × Hpack) :=
  if hpack.reused = hpack.deleted then
    match allocs with
    | 0 => return (none, hpack)
    | allocs + 1 => return (some (allocs, hpack.fresh), { hpack with fresh := hpack.fresh + 1 })
  else do
    let entry ← hpack.entryAt hpack.reused
    return (some (allocs, entry), { hpack with reused := hpack.reused + 1 })

def write (hpack : Hpack) (a : Nat) (bytes : Bytes) : Except HpackFault Hpack :=
  match hpack.storage with
  | none => throw .null
  | some storage =>
      match storage.write a bytes with
      | none => throw .outside
      | some storage => return { hpack with storage := some storage }

/-- A string is copied to `pos`, or around the end of the storage if fewer than its bytes are
available; the last component is `avail` after it. -/
def copyIn (hpack : Hpack) (avail : Nat) (bytes : Bytes) :
    Except HpackFault (Hpack × HpackString × Nat) := do
  if bytes.length ≤ avail then
    let hpack' ← hpack.write hpack.pos bytes
    return ({ hpack' with pos := hpack.pos + bytes.length }, ⟨bytes.length, hpack.pos⟩,
      avail - bytes.length)
  else
    let hpack' ← hpack.write hpack.pos (bytes.take avail)
    let hpack' ← hpack'.write 0 (bytes.drop avail)
    return ({ hpack' with pos := bytes.length - avail }, ⟨bytes.length, hpack.pos⟩,
      tableSizeLimit - bytes.length)

/-- The two copies into a larger array. -/
def grown (allocated index : Nat) (entries : Nat → Option Nat) (i : Nat) : Option Nat :=
  if i < allocated - index then entries (index + i)
  else if i < allocated then entries (i - (allocated - index))
  else none

def grow (hpack : Hpack) : Hpack :=
  { hpack with
    entries := hpack.entries.map (grown hpack.allocated (hpack.deleted % hpack.allocated))
    added := hpack.allocated
    deleted := 0
    reused := 0
    allocated := hpack.allocated + 64 }

/-- `entries[added++ % allocated] = entry` -/
def enter (hpack : Hpack) (entry : Nat) : Hpack :=
  { hpack with
    entries := hpack.entries.map fun entries =>
      Function.update entries (hpack.added % hpack.allocated) (some entry)
    added := hpack.added + 1 }

/-- A new entry for which there is room. -/
def storeEntry (hpack : Hpack) (allocs : Nat) (header : Http2Header) :
    Except HpackFault (HpackResult × Hpack) := do
  match ← hpack.takeEntry allocs with
  | (none, hpack) => return (.error, hpack)
  | (some (allocs, entry), hpack) =>
      let (hpack, name, avail) ← hpack.copyIn (tableSizeLimit - hpack.pos) header.name
      let (hpack, value, _) ← hpack.copyIn avail header.value
      let hpack := { hpack with cells := Function.update hpack.cells entry ⟨name, value⟩ }
      if hpack.allocated = hpack.added - hpack.deleted then
        if allocs = 0 then return (.error, hpack)
        else return (.ok, hpack.grow.enter entry)
      else return (.ok, hpack.enter entry)

/-- What `ngx_http_v2_add_header` does with a table that is set up. -/
def store (hpack : Hpack) (allocs : Nat) (header : Http2Header) :
    Except HpackFault (HpackResult × Hpack) := do
  let (fits, hpack) ← hpack.tableAccount (header.name.length + header.value.length)
  if fits then hpack.storeEntry allocs header
  else return (.ok, hpack)

/-- `ngx_http_v2_add_header`; only `allocs` allocations succeed, and `garbage` is what the storage
has in it at first. -/
def addHeader (allocs : Nat) (garbage : Nat → UInt8) (hpack : Hpack) (header : Http2Header) :
    Except HpackFault (HpackResult × Hpack) :=
  match setUp allocs garbage hpack with
  | (none, hpack) => return (.error, hpack)
  | (some allocs, hpack) => hpack.store allocs header

/-- `ngx_http_v2_table_size` -/
def tableSize (hpack : Hpack) (size : Nat) : Except HpackFault (HpackResult × Hpack) :=
  if tableSizeLimit < size then return (.error, hpack)
  else do
    let needed : Int := hpack.size - size
    let hpack ← evictWhile needed (hpack.added - hpack.deleted) hpack
    return (.ok, { hpack with size := size, free := (hpack.free - needed).toNat })

def read (hpack : Hpack) (a n : Nat) : Except HpackFault Bytes :=
  match hpack.storage with
  | none => throw .null
  | some storage =>
      match storage.read a n with
      | none => throw .outside
      | some bytes => return bytes

/-- A string is copied out of the storage. -/
def copyOut (hpack : Hpack) (s : HpackString) : Except HpackFault Bytes :=
  let rest := tableSizeLimit - s.data
  if rest < s.len then do
    let first ← hpack.read s.data rest
    let second ← hpack.read 0 (s.len - rest)
    return first ++ second
  else hpack.read s.data s.len

/-- `ngx_http_v2_get_indexed_header` with `state.header`. -/
def getIndexedHeader (allocs : Nat) (hpack : Hpack) (header : Http2Header) (index : Nat)
    (nameOnly : Bool) : Except HpackFault (HpackResult × Http2Header) :=
  if index = 0 then return (.error, header)
  else
    let index := index - 1
    match staticTable[index]? with
    | some header => return (.ok, header)
    | none =>
        let index := index - staticTable.length
        if index < hpack.added - hpack.deleted then do
          let entry ← hpack.entryAt (hpack.added - index - 1)
          if allocs = 0 then return (.error, header)
          let name ← hpack.copyOut (hpack.cells entry).name
          let header := { header with name := name }
          if nameOnly then return (.ok, header)
          if allocs = 1 then return (.error, header)
          let value ← hpack.copyOut (hpack.cells entry).value
          return (.ok, { header with value := value })
        else return (.error, header)

end Hpack

end RebuildTheWheel.Nginx

namespace RebuildTheWheel.Nginx

open Data

/-! Strings around the storage of a table. -/

namespace Hpack

variable {hpack hpack' : Hpack} {storage : Region} {bytes : Nat → UInt8} {s : Bytes} {a pos n avail : Nat}

/-- The storage is there. -/
def Stores (hpack : Hpack) (bytes : Nat → UInt8) : Prop := hpack.storage = some ⟨0, tableSizeLimit, bytes⟩

/-- The string is written from `pos` on and around the end, and nothing else. -/
structure Wrote (old new : Nat → UInt8) (pos : Nat) (s : Bytes) : Prop where
  inside : ∀ j (hj : j < s.length), new ((pos + j) % tableSizeLimit) = s[j]
  outside : ∀ y < tableSizeLimit, (∀ j < s.length, y ≠ (pos + j) % tableSizeLimit) → new y = old y

theorem write_eq (h : hpack.Stores bytes) (hfits : a + s.length ≤ tableSizeLimit) :
    hpack.write a s = .ok { hpack with
      storage := some ⟨0, tableSizeLimit, ((⟨0, tableSizeLimit, bytes⟩ : Region).put a s).bytes⟩ } := by
  have hcontains : (⟨0, tableSizeLimit, bytes⟩ : Region).Contains a s.length :=
    ⟨Nat.zero_le a, by simpa using hfits⟩
  rw [Stores] at h
  rw [write, h]
  simp only [Region.write_of_contains hcontains]
  rfl

theorem put_inside {m : Region} {j : Nat} (hj : j < s.length) : (m.put a s).bytes (a + j) = s[j] := by
  simp [Region.put, hj]

theorem put_outside {m : Region} {y : Nat} (h : y < a ∨ a + s.length ≤ y) :
    (m.put a s).bytes y = m.bytes y := by
  have hne : ¬ (a ≤ y ∧ y < a + s.length) := by omega
  exact if_neg hne

theorem wrote_put (hfits : pos + s.length ≤ tableSizeLimit) :
    Wrote bytes ((⟨0, tableSizeLimit, bytes⟩ : Region).put pos s).bytes pos s where
  inside j hj := by
    rw [Nat.mod_eq_of_lt (by omega)]
    exact put_inside hj
  outside y _ hy := by
    refine put_outside ?_
    by_contra hin
    refine hy (y - pos) (by omega) ?_
    rw [Nat.mod_eq_of_lt (by omega)]
    omega

/-- A string that goes around the end is written in two parts. -/
theorem wrote_put_put (hpos : pos ≤ tableSizeLimit) (havail : avail = tableSizeLimit - pos)
    (hmore : avail < s.length) (hlength : s.length ≤ tableSizeLimit) :
    Wrote bytes (((⟨0, tableSizeLimit, bytes⟩ : Region).put pos (s.take avail)).put 0
      (s.drop avail)).bytes pos s where
  inside j hj := by
    have htake : (s.take avail).length = avail := by
      rw [List.length_take, Nat.min_eq_left (Nat.le_of_lt hmore)]
    have hdrop : (s.drop avail).length = s.length - avail := List.length_drop
    by_cases hfirst : j < avail
    · rw [Nat.mod_eq_of_lt (by omega), put_outside (by omega), put_inside (by omega), List.getElem_take]
    · have hmod : (pos + j) % tableSizeLimit = 0 + (j - avail) := by
        rw [show pos + j = (j - avail) + tableSizeLimit by omega, Nat.add_mod_right,
          Nat.mod_eq_of_lt (by omega), Nat.zero_add]
      rw [hmod, put_inside (by omega), List.getElem_drop]
      congr 1
      omega
  outside y hlt hy := by
    have htake : (s.take avail).length = avail := by
      rw [List.length_take, Nat.min_eq_left (Nat.le_of_lt hmore)]
    have hdrop : (s.drop avail).length = s.length - avail := List.length_drop
    have hsecond : s.length - avail ≤ y := by
      by_contra hin
      refine hy (y + avail) (by omega) ?_
      rw [show pos + (y + avail) = y + tableSizeLimit by omega, Nat.add_mod_right, Nat.mod_eq_of_lt hlt]
    have hfirst : y < pos := by
      by_contra hin
      refine hy (y - pos) (by omega) ?_
      rw [Nat.mod_eq_of_lt (by omega)]
      omega
    rw [put_outside (by omega), put_outside (by omega)]

/-- Two strings that are written one after the other. -/
theorem Wrote.append {old mid new : Nat → UInt8} {pos' : Nat} {t : Bytes} (hs : Wrote old mid pos s)
    (ht : Wrote mid new pos' t) (hpos : pos' % tableSizeLimit = (pos + s.length) % tableSizeLimit)
    (hlength : s.length + t.length ≤ tableSizeLimit) : Wrote old new pos (s ++ t) := by
  have hplace (j : Nat) : (pos' + j) % tableSizeLimit = (pos + (s.length + j)) % tableSizeLimit := by
    rw [← Nat.mod_add_mod, hpos, Nat.mod_add_mod, Nat.add_assoc]
  refine ⟨fun j hj => ?_, fun y hlt hy => ?_⟩
  · by_cases hfirst : j < s.length
    · rw [List.getElem_append_left hfirst, ← hs.inside j hfirst]
      refine ht.outside _ (Nat.mod_lt _ (by decide)) fun k hk heq => ?_
      rw [hplace] at heq
      have hsame := add_mod_inj heq (by omega) (by omega)
      omega
    · rw [List.length_append] at hj
      rw [List.getElem_append_right (Nat.not_lt.mp hfirst), ← ht.inside (j - s.length) (by omega), hplace,
        Nat.add_sub_cancel' (Nat.not_lt.mp hfirst)]
  · rw [List.length_append] at hy
    rw [ht.outside y hlt fun j hj => by rw [hplace]; exact hy _ (by omega),
      hs.outside y hlt fun j hj => hy j (by omega)]

/-- What is in the storage stays if the string comes after it. -/
theorem Wrote.around {old new : Nat → UInt8} {d : Nat} {xs : Bytes} (hs : Wrote old new pos s)
    (h : Around tableSizeLimit (fun i => some (old i)) (d % tableSizeLimit) xs)
    (hpos : pos % tableSizeLimit = (d + xs.length) % tableSizeLimit)
    (hlength : xs.length + s.length ≤ tableSizeLimit) :
    Around tableSizeLimit (fun i => some (new i)) (d % tableSizeLimit) (xs ++ s) := by
  have hplace (j : Nat) : (pos + j) % tableSizeLimit =
      (d % tableSizeLimit + (xs.length + j)) % tableSizeLimit := by
    rw [← Nat.mod_add_mod, hpos, Nat.mod_add_mod, Nat.mod_add_mod, Nat.add_assoc]
  have hlt : d % tableSizeLimit < tableSizeLimit := Nat.mod_lt _ (by decide)
  refine (h.congr hlt fun j hj => congrArg some ?_).append hlt fun j hj => ?_
  · refine hs.outside _ (Nat.mod_lt _ (by decide)) fun k hk heq => ?_
    rw [hplace] at heq
    have hsame := add_mod_inj heq (by omega) (by omega)
    omega
  · rw [← hplace, hs.inside j hj]

/-- What a copy does: `avail` may be less than what is there, if it is enough. -/
theorem copyIn_spec (h : hpack.Stores bytes) (hpos : hpack.pos ≤ tableSizeLimit)
    (havail : avail ≤ tableSizeLimit - hpack.pos)
    (henough : s.length ≤ avail ∨ avail = tableSizeLimit - hpack.pos) (hlength : s.length ≤ tableSizeLimit) :
    ∃ bytes' pos' avail', hpack.copyIn avail s =
        .ok ({ hpack with storage := some ⟨0, tableSizeLimit, bytes'⟩, pos := pos' },
          ⟨s.length, hpack.pos⟩, avail') ∧
      Wrote bytes bytes' hpack.pos s ∧ pos' ≤ tableSizeLimit ∧
      pos' % tableSizeLimit = (hpack.pos + s.length) % tableSizeLimit ∧
      (avail = tableSizeLimit - hpack.pos → avail' ≤ tableSizeLimit - pos' ∧
        (avail' = tableSizeLimit - pos' ∨ avail' = tableSizeLimit - s.length)) := by
  rw [copyIn]
  by_cases hfits : s.length ≤ avail
  · have hend : hpack.pos + s.length ≤ tableSizeLimit := by omega
    rw [if_pos hfits, write_eq h hend]
    exact ⟨_, _, _, rfl, wrote_put hend, hend, rfl, fun _ => ⟨by omega, .inl (by omega)⟩⟩
  · have havail' : avail = tableSizeLimit - hpack.pos := henough.resolve_left hfits
    have htake : (s.take avail).length = avail := by
      rw [List.length_take, Nat.min_eq_left (by omega)]
    have hdrop : (s.drop avail).length = s.length - avail := List.length_drop
    have hmod : (s.length - avail) % tableSizeLimit = (hpack.pos + s.length) % tableSizeLimit := by
      rw [show hpack.pos + s.length = (s.length - avail) + tableSizeLimit by omega, Nat.add_mod_right]
    rw [if_neg hfits, write_eq h (by omega)]
    have hsecond : ({ hpack with storage := some ⟨0, tableSizeLimit,
        ((⟨0, tableSizeLimit, bytes⟩ : Region).put hpack.pos (s.take avail)).bytes⟩ } : Hpack).write 0
          (s.drop avail) = _ := write_eq rfl (by omega)
    refine ⟨_, s.length - avail, tableSizeLimit - s.length, ?_,
      wrote_put_put hpos havail' (by omega) hlength, by omega, hmod, fun _ => ⟨by omega, .inr rfl⟩⟩
    change (Hpack.write _ 0 (s.drop avail) >>= _) = _
    rw [hsecond]
    rfl

theorem read_eq (h : hpack.Stores bytes) (hfits : a + n ≤ tableSizeLimit) :
    hpack.read a n = .ok ((List.range n).map fun i => bytes (a + i)) := by
  have hcontains : (⟨0, tableSizeLimit, bytes⟩ : Region).Contains a n :=
    ⟨Nat.zero_le a, by simpa using hfits⟩
  rw [Stores] at h
  rw [read, h]
  simp only [Region.read, if_pos hcontains]
  rfl

/-- A string that is in the storage is copied out. -/
theorem copyOut_eq (h : hpack.Stores bytes) (hpos : pos ≤ tableSizeLimit) (hlength : s.length ≤ tableSizeLimit)
    (hbytes : ∀ j (hj : j < s.length), bytes ((pos + j) % tableSizeLimit) = s[j]) :
    hpack.copyOut ⟨s.length, pos⟩ = .ok s := by
  have hpart (a i n : Nat) (hin : i + n ≤ s.length) (ha : a + n ≤ tableSizeLimit)
      (hsame : ∀ j < n, (pos + (i + j)) % tableSizeLimit = a + j) :
      ((List.range n).map fun j => bytes (a + j)) = (s.drop i).take n := by
    refine List.ext_getElem (by simp; omega) fun j hj _ => ?_
    have hjn : j < n := by simpa using hj
    rw [List.getElem_map, List.getElem_range, List.getElem_take, List.getElem_drop, ← hsame j hjn]
    exact hbytes (i + j) (by omega)
  rw [copyOut]
  by_cases hrest : tableSizeLimit - pos < s.length
  · simp only [if_pos hrest]
    rw [read_eq h (by omega), hpart pos 0 _ (by omega) (by omega) (fun j hj => by
      rw [Nat.zero_add, Nat.mod_eq_of_lt (by omega)])]
    change (Hpack.read _ 0 (s.length - (tableSizeLimit - pos)) >>= _) = _
    rw [read_eq h (by omega), hpart 0 (tableSizeLimit - pos) _ (by omega) (by omega) (fun j hj => by
      rw [show pos + (tableSizeLimit - pos + j) = j + tableSizeLimit by omega, Nat.add_mod_right,
        Nat.mod_eq_of_lt (by omega), Nat.zero_add])]
    refine congrArg Except.ok ?_
    rw [List.drop_zero, ← List.length_drop, List.take_length, List.take_append_drop]
  · simp only [if_neg hrest]
    rw [read_eq h (by omega), hpart pos 0 _ (by omega) (by omega) (fun j hj => by
      rw [Nat.zero_add, Nat.mod_eq_of_lt (by omega)])]
    rw [List.drop_zero, List.take_length]

end Hpack

end RebuildTheWheel.Nginx
