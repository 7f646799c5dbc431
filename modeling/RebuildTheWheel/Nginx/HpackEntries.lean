import RebuildTheWheel.Nginx.HpackTable

namespace RebuildTheWheel.Nginx

open Data

namespace Http2Header

/-- The bytes of an entry in the storage. -/
def bytes (header : Http2Header) : Bytes := header.name ++ header.value

/-- What an entry counts for. -/
def size (header : Http2Header) : Nat := 32 + header.name.length + header.value.length

end Http2Header

namespace Hpack

/-! The entries of a table, the oldest one first. -/

def total (live : List Http2Header) : Nat := (live.map Http2Header.size).sum

def blob (live : List Http2Header) : Bytes := live.flatMap Http2Header.bytes

/-- The oldest entries are left out until the others are no more than `limit`. -/
def evictTo (limit : Nat) : List Http2Header → List Http2Header
  | [] => []
  | header :: live => if total (header :: live) ≤ limit then header :: live else evictTo limit live

/-- The descriptor of an entry whose bytes begin at `d`. -/
structure Describes (entry : HpackEntry) (d : Nat) (header : Http2Header) : Prop where
  name_len : entry.name.len = header.name.length
  name_le : entry.name.data ≤ tableSizeLimit
  name_data : entry.name.data % tableSizeLimit = d % tableSizeLimit
  value_len : entry.value.len = header.value.length
  value_le : entry.value.data ≤ tableSizeLimit
  value_data : entry.value.data % tableSizeLimit = (d + header.name.length) % tableSizeLimit

/-- The descriptors of entries whose bytes follow one another from `d` on. -/
def Described (cells : Nat → HpackEntry) : Nat → List Nat → List Http2Header → Prop
  | _, [], [] => True
  | d, p :: ps, header :: live =>
      Describes (cells p) d header ∧ Described cells (d + header.bytes.length) ps live
  | _, _, _ => False

/-- A table that is in use: `ptrs` are the descriptors from `reused` on, `d` is where the bytes of the
oldest entry begin, and `reserve` of the size is set aside. -/
structure Table (reserve : Nat) (hpack : Hpack) (live : List Http2Header) (ptrs : List Nat) (d : Nat)
    (slots : Nat → Option Nat) (bytes : Nat → UInt8) : Prop where
  entries : hpack.entries = some slots
  stores : hpack.Stores bytes
  allocated : 0 < hpack.allocated
  window : hpack.reused + ptrs.length = hpack.added
  room : ptrs.length ≤ hpack.allocated
  order : hpack.reused ≤ hpack.deleted
  alive : hpack.deleted + live.length = hpack.added
  around : Around hpack.allocated slots (hpack.reused % hpack.allocated) ptrs
  distinct : ptrs.Nodup
  known : ∀ p ∈ ptrs, p < hpack.fresh
  described : Described hpack.cells d (ptrs.drop (hpack.deleted - hpack.reused)) live
  packed : Around tableSizeLimit (fun i => some (bytes i)) (d % tableSizeLimit) (blob live)
  pos_le : hpack.pos ≤ tableSizeLimit
  pos : hpack.pos % tableSizeLimit = (d + (blob live).length) % tableSizeLimit
  size_le : hpack.size ≤ tableSizeLimit
  free : hpack.free + total live + reserve = hpack.size

variable {hpack hpack' : Hpack} {live : List Http2Header} {header : Http2Header} {ptrs : List Nat}
  {d k n reserve limit : Nat} {needed : Int} {slots : Nat → Option Nat} {bytes : Nat → UInt8}
  {cells : Nat → HpackEntry}

@[simp] theorem total_nil : total [] = 0 := rfl

@[simp] theorem total_cons : total (header :: live) = header.size + total live := rfl

theorem total_append : total (live ++ [header]) = total live + header.size := by
  rw [total, List.map_append, List.sum_append]
  rfl

theorem length_bytes (header : Http2Header) : header.bytes.length + 32 = header.size := by
  rw [Http2Header.bytes, List.length_append, Http2Header.size]
  omega

/-- The slack of 32 bytes for each entry. -/
theorem length_blob (live : List Http2Header) : (blob live).length + 32 * live.length = total live := by
  induction live with
  | nil => rfl
  | cons header live ih =>
      have hbytes := length_bytes header
      rw [blob] at ih
      rw [blob, List.flatMap_cons, List.length_append, List.length_cons, total_cons]
      omega

theorem Table.entryAt (h : Table reserve hpack live ptrs d slots bytes) (hk : k < ptrs.length) :
    hpack.entryAt (hpack.reused + k) = .ok ptrs[k] := by
  have hget := h.around.get (Nat.mod_lt _ h.allocated) hk
  rw [Nat.mod_add_mod] at hget
  rw [Hpack.entryAt, h.entries]
  simp only [hget]
  rfl

theorem Table.deleted_lt (h : Table reserve hpack (header :: live) ptrs d slots bytes) :
    hpack.deleted - hpack.reused < ptrs.length := by
  have hwindow := h.window
  have horder := h.order
  have halive := h.alive
  rw [List.length_cons] at halive
  omega

/-- The oldest entry is evicted. -/
theorem Table.evict (h : Table reserve hpack (header :: live) ptrs d slots bytes) :
    ∃ hpack', hpack.evict = .ok hpack' ∧
      Table reserve hpack' live ptrs (d + header.bytes.length) slots bytes ∧
      hpack'.size = hpack.size ∧ hpack'.added = hpack.added := by
  have hlt := h.deleted_lt
  have hentry := h.entryAt hlt
  have hdescribed := h.described
  rw [List.drop_eq_getElem_cons hlt] at hdescribed
  obtain ⟨hheader, hrest⟩ := hdescribed
  have hpacked := h.packed
  rw [blob, List.flatMap_cons] at hpacked
  have hright := hpacked.right (Nat.mod_lt _ (by decide))
  rw [Nat.mod_add_mod] at hright
  have halive := h.alive
  have hfree := h.free
  rw [List.length_cons] at halive
  rw [total_cons, Http2Header.size] at hfree
  rw [Nat.add_sub_cancel' h.order] at hentry
  rw [Hpack.evict, hentry]
  refine ⟨_, rfl, ?_, rfl, rfl⟩
  exact {
    entries := h.entries
    stores := h.stores
    allocated := h.allocated
    window := h.window
    room := h.room
    order := Nat.le_succ_of_le h.order
    alive := by change hpack.deleted + 1 + live.length = hpack.added; omega
    around := h.around
    distinct := h.distinct
    known := h.known
    described := by
      change Described _ _ (ptrs.drop (hpack.deleted + 1 - hpack.reused)) live
      rw [Nat.succ_sub h.order]
      exact hrest
    packed := hright
    pos_le := h.pos_le
    pos := by
      have hpos := h.pos
      rw [blob, List.flatMap_cons, List.length_append, ← Nat.add_assoc] at hpos
      exact hpos
    size_le := h.size_le
    free := by
      change hpack.free + (32 + (hpack.cells ptrs[_]).name.len + (hpack.cells ptrs[_]).value.len) +
        total live + reserve = hpack.size
      rw [hheader.name_len, hheader.value_len]
      omega }

theorem evictTo_of_le (h : total live ≤ limit) : evictTo limit live = live := by
  cases live with
  | nil => rfl
  | cons header live => exact if_pos h

theorem evictTo_of_lt (h : limit < total (header :: live)) :
    evictTo limit (header :: live) = evictTo limit live := if_neg (Nat.not_le.mpr h)

theorem total_evictTo_le (limit : Nat) (live : List Http2Header) : total (evictTo limit live) ≤ limit := by
  induction live with
  | nil => exact Nat.zero_le _
  | cons header live ih =>
      rw [evictTo]
      split_ifs with h
      · exact h
      · exact ih

/-- The loop that evicts until there is enough room. -/
theorem Table.evictWhile (h : Table reserve hpack live ptrs d slots bytes)
    (hlimit : (limit : Int) + needed + reserve = hpack.size) (hn : live.length ≤ n) :
    ∃ hpack' d', evictWhile needed n hpack = .ok hpack' ∧
      Table reserve hpack' (evictTo limit live) ptrs d' slots bytes ∧ hpack'.size = hpack.size := by
  induction n generalizing hpack live d with
  | zero =>
      obtain rfl := List.eq_nil_of_length_eq_zero (Nat.le_zero.mp hn)
      have hfree := h.free
      rw [total_nil] at hfree
      rw [Hpack.evictWhile, if_neg (by omega)]
      exact ⟨hpack, d, rfl, h, rfl⟩
  | succ n ih =>
      have hfree := h.free
      rw [Hpack.evictWhile]
      by_cases hmore : (hpack.free : Int) < needed
      · rw [if_pos hmore]
        cases live with
        | nil =>
            rw [total_nil] at hfree
            omega
        | cons header live =>
            obtain ⟨hpack₁, hevict, htable, hsize, -⟩ := h.evict
            obtain ⟨hpack', d', hwhile, htable', hsize'⟩ :=
              ih htable (hsize ▸ hlimit) (Nat.le_of_succ_le_succ hn)
            rw [evictTo_of_lt (by omega), hevict]
            exact ⟨hpack', d', hwhile, htable', hsize'.trans hsize⟩
      · rw [if_neg hmore, evictTo_of_le (by omega)]
        exact ⟨hpack, d, rfl, h, rfl⟩

theorem Table.setAside (h : Table 0 hpack live ptrs d slots bytes) (hn : n ≤ hpack.free) :
    Table n { hpack with free := hpack.free - n } live ptrs d slots bytes :=
  { h with
    free := by
      have hfree := h.free
      change hpack.free - n + total live + n = hpack.size
      omega }

/-- Room is made for a new entry. -/
theorem Table.account (h : Table 0 hpack live ptrs d slots bytes) (hsize : n + 32 ≤ hpack.size) :
    ∃ hpack' d', hpack.tableAccount n = .ok (true, hpack') ∧
      Table (n + 32) hpack' (evictTo (hpack.size - (n + 32)) live) ptrs d' slots bytes ∧
      hpack'.size = hpack.size := by
  have hfree := h.free
  rw [tableAccount]
  by_cases hfits : n + 32 ≤ hpack.free
  · rw [evictTo_of_le (by omega)]
    exact ⟨_, d, if_pos hfits, h.setAside hfits, rfl⟩
  · cases live with
    | nil =>
        rw [total_nil] at hfree
        omega
    | cons header live =>
        obtain ⟨hpack₁, hevict, htable, hsize₁, hadded⟩ := h.evict
        have hlimit : ((hpack.size - (n + 32) : Nat) : Int) + (n + 32 : Nat) + (0 : Nat) = hpack₁.size := by
          omega
        have halive := htable.alive
        obtain ⟨hpack', d', hwhile, htable', hsize'⟩ :=
          htable.evictWhile hlimit (n := hpack₁.added - hpack₁.deleted) (by omega)
        have hroom : n + 32 ≤ hpack'.free := by
          have hfree' := htable'.free
          have htotal := total_evictTo_le (hpack.size - (n + 32)) live
          omega
        rw [evictTo_of_lt (by omega)]
        refine ⟨_, d', ?_, htable'.setAside hroom, hsize'.trans hsize₁⟩
        rw [if_neg hfits, if_neg (by omega), hevict]
        change (Hpack.evictWhile _ _ _ >>= _) = _
        rw [hwhile]
        rfl

/-- The entry is too large, and nothing is left. -/
theorem Table.account_declined (h : Table 0 hpack live ptrs d slots bytes) (hsize : hpack.size < n + 32) :
    ∃ hpack' d', hpack.tableAccount n = .ok (false, hpack') ∧
      Table 0 hpack' [] ptrs d' slots bytes ∧ hpack'.size = hpack.size := by
  have hfree := h.free
  have hwindow := h.window
  rw [tableAccount]
  refine ⟨{ hpack with deleted := hpack.added, free := hpack.size }, hpack.pos, ?_, ?_, rfl⟩
  · rw [if_neg (by omega), if_pos hsize]
    rfl
  · have hnone : ptrs.drop (hpack.added - hpack.reused) = [] :=
      List.drop_eq_nil_of_le (by omega)
    exact { h with
      order := by change hpack.reused ≤ hpack.added; omega
      alive := rfl
      described := by
        change Described _ _ (ptrs.drop (hpack.added - hpack.reused)) []
        rw [hnone]
        trivial
      packed := trivial
      pos := rfl
      free := rfl }

/-! A new entry. -/

/-- The descriptor for a new entry is not in use. -/
structure Spare (hpack : Hpack) (ptrs : List Nat) (p : Nat) : Prop where
  apart : p ∉ ptrs
  known : p < hpack.fresh
  room : ptrs.length < hpack.allocated ∨ hpack.reused = hpack.deleted

theorem Table.takeFresh (h : Table reserve hpack live ptrs d slots bytes)
    (hsame : hpack.reused = hpack.deleted) :
    Table reserve { hpack with fresh := hpack.fresh + 1 } live ptrs d slots bytes ∧
      Spare { hpack with fresh := hpack.fresh + 1 } ptrs hpack.fresh := by
  refine ⟨{ h with known := fun p hp => Nat.lt_succ_of_lt (h.known p hp) },
    fun hmem => ?_, Nat.lt_succ_self _, .inr hsame⟩
  exact Nat.lt_irrefl _ (h.known _ hmem)

theorem Table.takeReused {p : Nat} (h : Table reserve hpack live (p :: ptrs) d slots bytes)
    (hlt : hpack.reused < hpack.deleted) :
    Table reserve { hpack with reused := hpack.reused + 1 } live ptrs d slots bytes ∧
      Spare { hpack with reused := hpack.reused + 1 } ptrs p := by
  have hdistinct := List.nodup_cons.mp h.distinct
  refine ⟨{ h with
    window := ?_
    room := Nat.le_of_succ_le h.room
    order := hlt
    around := ?_
    distinct := hdistinct.2
    known := fun q hq => h.known q (List.mem_cons_of_mem _ hq)
    described := ?_ }, hdistinct.1, h.known p List.mem_cons_self, .inl h.room⟩
  · have hwindow := h.window
    rw [List.length_cons] at hwindow
    change hpack.reused + 1 + ptrs.length = hpack.added
    omega
  · change Around hpack.allocated slots ((hpack.reused + 1) % hpack.allocated) ptrs
    rw [← Nat.mod_add_mod]
    exact h.around.2
  · have hdescribed := h.described
    rw [show hpack.deleted - hpack.reused = (hpack.deleted - (hpack.reused + 1)) + 1 by omega,
      List.drop_succ_cons] at hdescribed
    exact hdescribed

theorem Table.takeEntry (h : Table reserve hpack live ptrs d slots bytes) (allocs : Nat) :
    (allocs = 0 ∧ hpack.takeEntry allocs = .ok (none, hpack)) ∨
      ∃ hpack' ptrs' p left, hpack.takeEntry allocs = .ok (some (left, p), hpack') ∧
        allocs ≤ left + 1 ∧ Table reserve hpack' live ptrs' d slots bytes ∧ Spare hpack' ptrs' p ∧
        hpack'.size = hpack.size := by
  rw [Hpack.takeEntry.eq_def]
  by_cases hsame : hpack.reused = hpack.deleted
  · rw [if_pos hsame]
    cases allocs with
    | zero => exact .inl ⟨rfl, rfl⟩
    | succ left =>
        obtain ⟨htable, hspare⟩ := h.takeFresh hsame
        exact .inr ⟨_, ptrs, hpack.fresh, left, rfl, Nat.le_refl _, htable, hspare, rfl⟩
  · have hlt : hpack.reused < hpack.deleted := Nat.lt_of_le_of_ne h.order hsame
    cases ptrs with
    | nil =>
        have hwindow := h.window
        have halive := h.alive
        rw [List.length_nil] at hwindow
        omega
    | cons p ptrs =>
        obtain ⟨htable, hspare⟩ := h.takeReused hlt
        have hentry := h.entryAt (k := 0) (Nat.succ_pos _)
        rw [Nat.add_zero] at hentry
        rw [if_neg hsame, hentry]
        exact .inr ⟨_, ptrs, p, allocs, rfl, Nat.le_succ _, htable, hspare, rfl⟩

theorem Described.congr {cells' : Nat → HpackEntry} (h : Described cells d ptrs live)
    (hcells : ∀ p ∈ ptrs, cells' p = cells p) : Described cells' d ptrs live := by
  induction ptrs generalizing d live with
  | nil =>
      cases live with
      | nil => trivial
      | cons header live => exact h
  | cons p ptrs ih =>
      cases live with
      | nil => exact h
      | cons header live =>
          obtain ⟨hp, hptrs⟩ := List.forall_mem_cons.mp hcells
          exact ⟨hp ▸ h.1, ih h.2 hptrs⟩

theorem Described.append {p : Nat} (h : Described cells d ptrs live)
    (hp : Describes (cells p) (d + (blob live).length) header) :
    Described cells d (ptrs ++ [p]) (live ++ [header]) := by
  induction ptrs generalizing d live with
  | nil =>
      cases live with
      | nil => exact ⟨hp, trivial⟩
      | cons header live => exact h.elim
  | cons q ptrs ih =>
      cases live with
      | nil => exact h.elim
      | cons header' live =>
          refine ⟨h.1, ih h.2 ?_⟩
          rw [blob, List.flatMap_cons, List.length_append, ← Nat.add_assoc] at hp
          exact hp

theorem Describes.congr {entry : HpackEntry} {d' : Nat} (h : Describes entry d header)
    (hd : d % tableSizeLimit = d' % tableSizeLimit) : Describes entry d' header :=
  { h with
    name_data := h.name_data.trans hd
    value_data := h.value_data.trans (Nat.ModEq.add_right _ hd) }

/-- The new entry is stored and entered. -/
theorem Table.enter {p pos' : Nat} {entry : HpackEntry} {bytes' : Nat → UInt8}
    (h : Table header.size hpack live ptrs d slots bytes) (hspare : Spare hpack ptrs p)
    (hroom : ptrs.length < hpack.allocated) (hwrote : Wrote bytes bytes' hpack.pos header.bytes)
    (hpos_le : pos' ≤ tableSizeLimit)
    (hpos : pos' % tableSizeLimit = (hpack.pos + header.bytes.length) % tableSizeLimit)
    (hentry : Describes entry hpack.pos header) :
    Table 0 (Hpack.enter { hpack with
        storage := some ⟨0, tableSizeLimit, bytes'⟩
        pos := pos'
        cells := Function.update hpack.cells p entry } p)
      (live ++ [header]) (ptrs ++ [p]) d
      (Function.update slots (hpack.added % hpack.allocated) (some p)) bytes' := by
  have hblob := length_blob live
  have hbytes := length_bytes header
  have hfree := h.free
  have hsize := h.size_le
  have hblob' : blob (live ++ [header]) = blob live ++ header.bytes := by
    rw [blob, List.flatMap_append, List.flatMap_singleton]
    rfl
  have hplace : (hpack.reused % hpack.allocated + ptrs.length) % hpack.allocated =
      hpack.added % hpack.allocated := by
    rw [Nat.mod_add_mod, h.window]
  have hpush := h.around.push (Nat.mod_lt _ h.allocated) hroom p
  rw [hplace] at hpush
  have hdrop : (ptrs ++ [p]).drop (hpack.deleted - hpack.reused) =
      ptrs.drop (hpack.deleted - hpack.reused) ++ [p] := by
    have hwindow := h.window
    have halive := h.alive
    exact List.drop_append_of_le_length (by omega)
  have hcells : ∀ q ∈ ptrs, Function.update hpack.cells p entry q = hpack.cells q := by
    intro q hq
    have hne : q ≠ p := by
      rintro rfl
      exact hspare.apart hq
    exact Function.update_of_ne hne _ _
  exact {
    entries := by
      change Option.map _ hpack.entries = _
      rw [h.entries]
      rfl
    stores := rfl
    allocated := h.allocated
    window := by
      have hwindow := h.window
      change hpack.reused + (ptrs ++ [p]).length = hpack.added + 1
      rw [List.length_append, List.length_singleton]
      omega
    room := by
      change (ptrs ++ [p]).length ≤ hpack.allocated
      rw [List.length_append]
      exact hroom
    order := h.order
    alive := by
      have halive := h.alive
      change hpack.deleted + (live ++ [header]).length = hpack.added + 1
      rw [List.length_append, List.length_singleton]
      omega
    around := hpush
    distinct := by
      rw [List.nodup_append]
      refine ⟨h.distinct, List.nodup_cons.mpr ⟨List.not_mem_nil, List.nodup_nil⟩, ?_⟩
      rintro q hq r hr rfl
      exact hspare.apart (List.mem_singleton.mp hr ▸ hq)
    known := by
      intro q hq
      rcases List.mem_append.mp hq with hq | hq
      · exact h.known q hq
      · exact (List.mem_singleton.mp hq) ▸ hspare.known
    described := by
      change Described _ d ((ptrs ++ [p]).drop (hpack.deleted - hpack.reused)) _
      rw [hdrop]
      refine (h.described.congr fun q hq => hcells q (List.mem_of_mem_drop hq)).append ?_
      rw [Function.update_self]
      exact hentry.congr h.pos
    packed := by
      rw [hblob']
      exact hwrote.around h.packed h.pos (by omega)
    pos_le := hpos_le
    pos := by
      change pos' % tableSizeLimit = _
      rw [hblob', List.length_append, hpos, ← Nat.mod_add_mod, h.pos, Nat.mod_add_mod, Nat.add_assoc]
    size_le := h.size_le
    free := by
      change hpack.free + total (live ++ [header]) + 0 = hpack.size
      rw [total_append]
      omega }

theorem grown_eq {allocated index i : Nat} (hindex : index < allocated) (hi : i < allocated) :
    grown allocated index slots i = slots ((index + i) % allocated) := by
  rw [grown]
  split_ifs with hfirst
  · rw [Nat.mod_eq_of_lt (by omega)]
  · rw [show index + i = (i - (allocated - index)) + allocated by omega, Nat.add_mod_right,
      Nat.mod_eq_of_lt (by omega)]

/-- The array of entries is replaced by a larger one when all of it is in use. -/
theorem Table.grow (h : Table reserve hpack live ptrs d slots bytes)
    (hfull : hpack.allocated = hpack.added - hpack.deleted) :
    Table reserve hpack.grow live ptrs d
        (grown hpack.allocated (hpack.deleted % hpack.allocated) slots) bytes ∧
      ptrs.length < hpack.grow.allocated := by
  have hwindow := h.window
  have halive := h.alive
  have horder := h.order
  have hroom := h.room
  have hsame : hpack.reused = hpack.deleted := by omega
  have hlength : ptrs.length = hpack.allocated := by omega
  have hdescribed := h.described
  have haround := h.around
  rw [hsame, Nat.sub_self] at hdescribed
  rw [hsame] at haround
  have hindex := Nat.mod_lt hpack.deleted h.allocated
  refine ⟨{ h with
    entries := ?_
    allocated := Nat.succ_pos _
    window := ?_
    room := ?_
    order := Nat.le_refl 0
    alive := ?_
    around := ?_
    described := hdescribed }, ?_⟩
  · change Option.map _ hpack.entries = _
    rw [h.entries]
    rfl
  · change 0 + ptrs.length = hpack.allocated
    omega
  · change ptrs.length ≤ hpack.allocated + 64
    omega
  · change 0 + live.length = hpack.allocated
    omega
  · change Around (hpack.allocated + 64) _ (0 % (hpack.allocated + 64)) ptrs
    rw [Nat.zero_mod]
    refine around_of_get (Nat.succ_pos _) fun j hj => ?_
    rw [Nat.zero_add, Nat.mod_eq_of_lt (show j < hpack.allocated + 64 by omega),
      grown_eq hindex (by omega)]
    exact haround.get hindex hj
  · change ptrs.length < hpack.allocated + 64
    omega

/-- The strings of a new entry are copied around the storage. -/
theorem copyIn_header {reserve : Nat} (h : Table reserve hpack live ptrs d slots bytes)
    (hsize : header.size ≤ tableSizeLimit) :
    ∃ bytes₁ pos₁ avail₁ name bytes₂ pos₂ avail₂ value,
      hpack.copyIn (tableSizeLimit - hpack.pos) header.name =
        .ok ({ hpack with storage := some ⟨0, tableSizeLimit, bytes₁⟩, pos := pos₁ }, name, avail₁) ∧
      Hpack.copyIn { hpack with storage := some ⟨0, tableSizeLimit, bytes₁⟩, pos := pos₁ } avail₁
          header.value =
        .ok ({ hpack with storage := some ⟨0, tableSizeLimit, bytes₂⟩, pos := pos₂ }, value, avail₂) ∧
      Wrote bytes bytes₂ hpack.pos header.bytes ∧ pos₂ ≤ tableSizeLimit ∧
      pos₂ % tableSizeLimit = (hpack.pos + header.bytes.length) % tableSizeLimit ∧
      Describes ⟨name, value⟩ hpack.pos header := by
  rw [Http2Header.size] at hsize
  obtain ⟨bytes₁, pos₁, avail₁, hname, hwrote₁, hpos_le₁, hpos₁, havail₁⟩ :=
    copyIn_spec h.stores h.pos_le (Nat.le_refl _) (.inr rfl) (show header.name.length ≤ _ by omega)
  obtain ⟨havail_le, havail⟩ := havail₁ rfl
  have henough : header.value.length ≤ avail₁ ∨ avail₁ = tableSizeLimit - pos₁ := by
    rcases havail with havail | havail
    · exact .inr havail
    · exact .inl (by omega)
  obtain ⟨bytes₂, pos₂, avail₂, hvalue, hwrote₂, hpos_le₂, hpos₂, -⟩ :=
    copyIn_spec (show Stores { hpack with storage := some ⟨0, tableSizeLimit, bytes₁⟩, pos := pos₁ }
      bytes₁ from rfl) hpos_le₁ havail_le henough (show header.value.length ≤ _ by omega)
  refine ⟨bytes₁, pos₁, avail₁, _, bytes₂, pos₂, avail₂, _, hname, hvalue,
    hwrote₁.append hwrote₂ hpos₁ (by omega), hpos_le₂, ?_, ?_⟩
  · rw [hpos₂, Http2Header.bytes, List.length_append, ← Nat.mod_add_mod, hpos₁, Nat.mod_add_mod,
      Nat.add_assoc]
  · exact ⟨rfl, h.pos_le, rfl, rfl, hpos_le₁, hpos₁⟩

end Hpack

end RebuildTheWheel.Nginx
