import RebuildTheWheel.Nginx.HpackEntries

namespace RebuildTheWheel.Nginx

open Data

/-! The calls that change a table, and what can be got from it. -/

namespace Hpack

variable {hpack : Hpack} {live : List Http2Header} {header : Http2Header} {ptrs : List Nat}
  {d n allocs : Nat} {slots : Nat → Option Nat} {bytes : Nat → UInt8}

/-- The table has these entries, the oldest one first. -/
def Holds (hpack : Hpack) (live : List Http2Header) : Prop :=
  ∃ ptrs d slots bytes, Table 0 hpack live ptrs d slots bytes

/-- The table has not been used. -/
structure Unused (hpack : Hpack) : Prop where
  entries : hpack.entries = none
  added : hpack.added = 0
  deleted : hpack.deleted = 0
  reused : hpack.reused = 0

/-- What is in a table of some size after an entry has been added. -/
def inserted (size : Nat) (live : List Http2Header) (header : Http2Header) : List Http2Header :=
  if size < header.size then [] else evictTo (size - header.size) live ++ [header]

/-- The strings are stored and the entry is entered, unless there is no memory. -/
theorem Table.storeEntry (h : Table header.size hpack live ptrs d slots bytes) (allocs : Nat) :
    ∃ result hpack', hpack.storeEntry allocs header = .ok (result, hpack') ∧
      (result = .ok → Holds hpack' (live ++ [header]) ∧ hpack'.size = hpack.size) ∧
      (2 ≤ allocs → result = .ok) := by
  have hsize : header.size ≤ tableSizeLimit := by
    have hfree := h.free
    have hle := h.size_le
    omega
  rw [Hpack.storeEntry]
  rcases h.takeEntry allocs with ⟨hzero, htake⟩ | ⟨hpack₁, ptrs₁, p, left, htake, hleft, htable, hspare, hsize₁⟩
  · rw [htake]
    exact ⟨.error, hpack, rfl, nofun, by omega⟩
  · obtain ⟨bytes₁, pos₁, avail₁, name, bytes₂, pos₂, avail₂, value, hname, hvalue, hwrote, hpos_le, hpos,
      hdescribes⟩ := copyIn_header htable hsize
    rw [htake]
    change ∃ result hpack', (Hpack.copyIn _ _ header.name >>= _) = _ ∧ _
    rw [hname]
    change ∃ result hpack', (Hpack.copyIn _ _ header.value >>= _) = _ ∧ _
    rw [hvalue]
    change ∃ result hpack', (if hpack₁.allocated = hpack₁.added - hpack₁.deleted then
      if left = 0 then _ else _ else _) = _ ∧ _
    by_cases hfull : hpack₁.allocated = hpack₁.added - hpack₁.deleted
    · rw [if_pos hfull]
      by_cases hleft' : left = 0
      · rw [if_pos hleft']
        exact ⟨_, _, rfl, nofun, by omega⟩
      · obtain ⟨hgrown, hroom⟩ := htable.grow hfull
        rw [if_neg hleft']
        have hentered := hgrown.enter ⟨hspare.apart, hspare.known, .inl hroom⟩ hroom hwrote hpos_le hpos
          hdescribes
        exact ⟨.ok, _, rfl, fun _ => ⟨⟨_, _, _, _, hentered⟩, hsize₁⟩, fun _ => rfl⟩
    · have hroom : ptrs₁.length < hpack₁.allocated := by
        rcases hspare.room with hroom | hsame
        · exact hroom
        · have hwindow := htable.window
          have hle := htable.room
          omega
      rw [if_neg hfull]
      have hentered := htable.enter hspare hroom hwrote hpos_le hpos hdescribes
      exact ⟨.ok, _, rfl, fun _ => ⟨⟨_, _, _, _, hentered⟩, hsize₁⟩, fun _ => rfl⟩

/-- An entry is added, or the table emptied if it is too large. -/
theorem Table.store (h : Table 0 hpack live ptrs d slots bytes) (allocs : Nat) (header : Http2Header) :
    ∃ result hpack', hpack.store allocs header = .ok (result, hpack') ∧
      (result = .ok → Holds hpack' (inserted hpack.size live header) ∧ hpack'.size = hpack.size) ∧
      (2 ≤ allocs → result = .ok) := by
  have hsum : header.name.length + header.value.length + 32 = header.size := by
    rw [Http2Header.size]
    omega
  rw [inserted]
  by_cases hlarge : hpack.size < header.size
  · obtain ⟨hpack₁, d₁, haccount, htable, hsize⟩ := h.account_declined (hsum.symm ▸ hlarge)
    refine ⟨.ok, hpack₁, ?_, fun _ => ?_, fun _ => rfl⟩
    · rw [Hpack.store, haccount]
      rfl
    · rw [if_pos hlarge]
      exact ⟨⟨ptrs, d₁, slots, bytes, htable⟩, hsize⟩
  · obtain ⟨hpack₁, d₁, haccount, htable₁, hsize₁⟩ := h.account (hsum.symm ▸ Nat.not_lt.mp hlarge)
    rw [hsum] at htable₁
    obtain ⟨result, hpack', hstore, hok, hallocs⟩ := htable₁.storeEntry allocs
    rw [if_neg hlarge, Hpack.store, haccount]
    rw [hsize₁] at hok
    exact ⟨result, hpack', hstore, hok, hallocs⟩

theorem Unused.table (h : Unused hpack) (garbage : Nat → UInt8) (allocs : Nat) :
    (allocs < 2 ∧ (setUp allocs garbage hpack).1 = none) ∨
      ∃ left hpack' ptrs d slots bytes, setUp allocs garbage hpack = (some left, hpack') ∧
        allocs = left + 2 ∧ Table 0 hpack' [] ptrs d slots bytes ∧ hpack'.size = tableSizeLimit := by
  rw [setUp.eq_def, h.entries]
  match allocs with
  | 0 => exact .inl ⟨by decide, rfl⟩
  | 1 => exact .inl ⟨by decide, rfl⟩
  | left + 2 =>
      refine .inr ⟨left, _, [], 0, fun _ => none, garbage, rfl, rfl, ?_, rfl⟩
      exact {
        entries := rfl
        stores := rfl
        allocated := Nat.succ_pos 63
        window := by
          change hpack.reused + 0 = hpack.added
          rw [h.reused, h.added]
        room := Nat.zero_le _
        order := by
          change hpack.reused ≤ hpack.deleted
          rw [h.reused, h.deleted]
        alive := by
          change hpack.deleted + 0 = hpack.added
          rw [h.deleted, h.added]
        around := trivial
        distinct := List.nodup_nil
        known := nofun
        described := by
          rw [List.drop_nil]
          trivial
        packed := trivial
        pos_le := Nat.zero_le _
        pos := rfl
        size_le := Nat.le_refl _
        free := rfl }

/-! Resizing. -/

theorem Table.resize (h : Table 0 hpack live ptrs d slots bytes) (hn : n ≤ tableSizeLimit) :
    ∃ hpack', hpack.tableSize n = .ok (.ok, hpack') ∧ Holds hpack' (evictTo n live) ∧ hpack'.size = n := by
  have halive := h.alive
  have hlimit : (n : Int) + (hpack.size - n : Int) + (0 : Nat) = hpack.size := by omega
  obtain ⟨hpack₁, d₁, hwhile, htable, hsize⟩ :=
    h.evictWhile hlimit (n := hpack.added - hpack.deleted) (by omega)
  have hfree := htable.free
  have htotal := total_evictTo_le n live
  rw [tableSize, if_neg (Nat.not_lt.mpr hn)]
  simp only [hwhile]
  refine ⟨_, rfl, ⟨ptrs, d₁, slots, bytes, { htable with size_le := hn, free := ?_ }⟩, rfl⟩
  change (hpack₁.free - ((hpack.size : Int) - n)).toNat + total (evictTo n live) + 0 = n
  omega

theorem Unused.resize (h : Unused hpack) (hfree : hpack.free = hpack.size) (hn : n ≤ tableSizeLimit) :
    ∃ hpack', hpack.tableSize n = .ok (.ok, hpack') ∧ Unused hpack' ∧ hpack'.free = hpack'.size := by
  have hwhile : evictWhile ((hpack.size : Int) - n) (hpack.added - hpack.deleted) hpack = .ok hpack := by
    rw [h.added, h.deleted, evictWhile, if_neg (by omega)]
    rfl
  rw [tableSize, if_neg (Nat.not_lt.mpr hn)]
  simp only [hwhile]
  refine ⟨_, rfl, ⟨h.entries, h.added, h.deleted, h.reused⟩, ?_⟩
  change (hpack.free - ((hpack.size : Int) - n)).toNat = n
  omega

/-! The entries that can be got. -/

theorem length_staticTable : staticTable.length = 61 := rfl

theorem Described.get {cells : Nat → HpackEntry} {j : Nat} (h : Described cells d ptrs live)
    (hj : j < live.length) : ∃ hp : j < ptrs.length,
      Describes (cells ptrs[j]) (d + (blob (live.take j)).length) live[j] := by
  induction live generalizing d ptrs j with
  | nil => exact absurd hj (Nat.not_lt_zero _)
  | cons header live ih =>
      cases ptrs with
      | nil => exact h.elim
      | cons p ptrs =>
          cases j with
          | zero => exact ⟨Nat.succ_pos _, h.1⟩
          | succ j =>
              obtain ⟨hp, hdescribes⟩ := ih h.2 (Nat.lt_of_succ_lt_succ hj)
              refine ⟨Nat.succ_lt_succ hp, ?_⟩
              rw [List.take_succ_cons, blob, List.flatMap_cons, List.length_append, ← Nat.add_assoc]
              exact hdescribes

/-- A string that the storage holds is copied out. -/
theorem copyOut_around {s : Bytes} {p data : Nat} (hstores : hpack.Stores bytes)
    (haround : Around tableSizeLimit (fun i => some (bytes i)) (p % tableSizeLimit) s)
    (hdata : data % tableSizeLimit = p % tableSizeLimit) (hle : data ≤ tableSizeLimit)
    (hlength : s.length ≤ tableSizeLimit) : hpack.copyOut ⟨s.length, data⟩ = .ok s := by
  refine copyOut_eq hstores hle hlength fun j hj => ?_
  have hget := haround.get (Nat.mod_lt _ (by decide)) hj
  rw [← hdata, Nat.mod_add_mod] at hget
  exact Option.some.inj hget

theorem blob_split {j : Nat} (hj : j < live.length) : blob live =
    blob (live.take j) ++ (live[j].name ++ (live[j].value ++ blob (live.drop (j + 1)))) := by
  conv_lhs => rw [← List.take_append_drop j live, List.drop_eq_getElem_cons hj]
  rw [blob, List.flatMap_append, List.flatMap_cons, Http2Header.bytes, List.append_assoc]
  rfl

/-- The strings of an entry that is alive. -/
theorem Table.strings (h : Table 0 hpack live ptrs d slots bytes) {j : Nat} (hj : j < live.length) :
    ∃ entry, hpack.entryAt (hpack.deleted + j) = .ok entry ∧
      hpack.copyOut (hpack.cells entry).name = .ok live[j].name ∧
      hpack.copyOut (hpack.cells entry).value = .ok live[j].value := by
  obtain ⟨hp, hdescribes⟩ := h.described.get hj
  rw [List.length_drop] at hp
  have hentry := h.entryAt (k := hpack.deleted - hpack.reused + j) (by omega)
  rw [← Nat.add_assoc, Nat.add_sub_cancel' h.order] at hentry
  rw [List.getElem_drop] at hdescribes
  have hpacked := h.packed
  have hlength := length_blob live
  have hfree := h.free
  have hsize := h.size_le
  rw [blob_split hj] at hpacked hlength
  simp only [List.length_append] at hlength
  have hfrom := hpacked.right (Nat.mod_lt _ (by decide))
  rw [Nat.mod_add_mod] at hfrom
  have hvalue := (hfrom.right (Nat.mod_lt _ (by decide))).left
  rw [Nat.mod_add_mod] at hvalue
  have hsame (s : HpackString) {n : Nat} (hlen : s.len = n) : s = ⟨n, s.data⟩ := by
    rw [← hlen]
  refine ⟨_, hentry, ?_, ?_⟩
  · rw [hsame _ hdescribes.name_len]
    exact copyOut_around h.stores hfrom.left hdescribes.name_data hdescribes.name_le (by omega)
  · rw [hsame _ hdescribes.value_len]
    exact copyOut_around h.stores hvalue hdescribes.value_data hdescribes.value_le (by omega)

/-- The `i`-th most recent entry, or its name only. -/
theorem Table.get (h : Table 0 hpack live ptrs d slots bytes) {i : Nat} (hi : i < live.length)
    (state : Http2Header) (nameOnly : Bool) (hallocs : 2 ≤ allocs) :
    hpack.getIndexedHeader allocs state (62 + i) nameOnly = .ok (.ok,
      if nameOnly then { state with name := live[live.length - 1 - i].name }
      else live[live.length - 1 - i]) := by
  have hj : live.length - 1 - i < live.length := by omega
  obtain ⟨entry, hentry, hname, hvalue⟩ := h.strings hj
  have halive := h.alive
  have hnone : staticTable[62 + i - 1]? = none :=
    List.getElem?_eq_none (by rw [length_staticTable]; omega)
  have hplace : hpack.added - (62 + i - 1 - 61) - 1 = hpack.deleted + (live.length - 1 - i) := by omega
  obtain ⟨left, rfl⟩ := Nat.exists_eq_add_of_le' hallocs
  rw [getIndexedHeader, if_neg (by omega)]
  simp only [hnone, length_staticTable]
  rw [if_pos (by omega), hplace, hentry]
  change (Hpack.copyOut _ _ >>= _) = _
  rw [hname]
  cases nameOnly with
  | true => rfl
  | false =>
      change (Hpack.copyOut _ _ >>= _) = _
      rw [hvalue]
      rfl

theorem Table.get_beyond (h : Table 0 hpack live ptrs d slots bytes) {i : Nat} (hi : live.length ≤ i)
    (state : Http2Header) (nameOnly : Bool) :
    hpack.getIndexedHeader allocs state (62 + i) nameOnly = .ok (.error, state) := by
  have halive := h.alive
  have hnone : staticTable[62 + i - 1]? = none :=
    List.getElem?_eq_none (by rw [length_staticTable]; omega)
  rw [getIndexedHeader, if_neg (by omega)]
  simp only [hnone, length_staticTable]
  rw [if_neg (by omega)]
  rfl

end Hpack

end RebuildTheWheel.Nginx
