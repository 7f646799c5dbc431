import RebuildTheWheel.Nginx.HpackRuns

namespace RebuildTheWheel.Nginx

open Data Hpack

/-! The dynamic table of RFC 7541. -/

/-- The table, the oldest entry first. -/
structure DynamicTable where
  max : Nat
  entries : List Http2Header

namespace DynamicTable

/-- Old entries are evicted until there is room, and an entry that is larger than the table empties
it. -/
def add (table : DynamicTable) (header : Http2Header) : DynamicTable :=
  { table with entries := inserted table.max table.entries header }

def resize (table : DynamicTable) (n : Nat) : DynamicTable :=
  if n ≤ tableSizeLimit then ⟨n, evictTo n table.entries⟩ else table

/-- The entries by their indices: those of the static table come first, and then the most recent
ones. -/
def lookup (table : DynamicTable) (index : Nat) : Option Http2Header :=
  if index = 0 then none else (staticTable ++ table.entries.reverse)[index - 1]?

end DynamicTable

namespace Hpack

/-- The table of a connection, all zeroes. -/
structure Fresh (hpack : Hpack) : Prop where
  unused : Unused hpack
  size : hpack.size = 0
  free : hpack.free = 0

/-- Calls on a new connection, with the dynamic table that they make. The first entry is not added
while another size than 4096 has been set. -/
inductive Run : Hpack → DynamicTable → Prop where
  | fresh : Fresh hpack → Run hpack ⟨tableSizeLimit, []⟩
  | add : Run hpack table → (hpack.entries = none → table.max = tableSizeLimit) → 4 ≤ allocs →
      addHeader allocs garbage hpack header = .ok (result, hpack') → Run hpack' (table.add header)
  | size : Run hpack table → hpack.tableSize n = .ok (result, hpack') → Run hpack' (table.resize n)

/-- The table is still to be set up, or it has the entries of the dynamic table. -/
inductive Agrees (hpack : Hpack) (table : DynamicTable) : Prop where
  | unused : Unused hpack → hpack.free = hpack.size → table.entries = [] → Agrees hpack table
  | used : Holds hpack table.entries → hpack.size = table.max → Agrees hpack table

/-- What is found by an index, in full or by its name only. -/
def Finds (hpack : Hpack) (index : Nat) : Option Http2Header → Prop
  | none => ∀ allocs state nameOnly,
      hpack.getIndexedHeader allocs state index nameOnly = .ok (.error, state)
  | some header => ∀ allocs state nameOnly, 2 ≤ allocs → ∃ header',
      hpack.getIndexedHeader allocs state index nameOnly = .ok (.ok, header') ∧
        header'.name = header.name ∧ (nameOnly = false → header' = header)

variable {hpack hpack' : Hpack} {table : DynamicTable} {header state : Http2Header} {n allocs : Nat}
  {garbage : Nat → UInt8}

theorem setUp_some {slots : Nat → Option Nat} (h : hpack.entries = some slots) :
    setUp allocs garbage hpack = (some allocs, hpack) := by
  rw [setUp.eq_def, h]

/-- No call finds the table in disorder; it fails only without memory. -/
theorem Holds.addHeader {live : List Http2Header} (h : Holds hpack live) (allocs : Nat)
    (garbage : Nat → UInt8) (header : Http2Header) :
    ∃ result hpack', addHeader allocs garbage hpack header = .ok (result, hpack') ∧
      (result = .ok → Holds hpack' (inserted hpack.size live header) ∧ hpack'.size = hpack.size) ∧
      (2 ≤ allocs → result = .ok) := by
  obtain ⟨ptrs, d, slots, bytes, htable⟩ := h
  rw [Hpack.addHeader, setUp_some htable.entries]
  exact htable.store allocs header

theorem Unused.addHeader (h : Unused hpack) (allocs : Nat) (garbage : Nat → UInt8) (header : Http2Header) :
    ∃ result hpack', addHeader allocs garbage hpack header = .ok (result, hpack') ∧
      (result = .ok → Holds hpack' (inserted tableSizeLimit [] header) ∧ hpack'.size = tableSizeLimit) ∧
      (4 ≤ allocs → result = .ok) := by
  rw [Hpack.addHeader]
  rcases h.table garbage allocs with ⟨hfew, hnone⟩ | ⟨left, hpack₁, ptrs, d, slots, bytes, hsetUp, rfl, htable, hsize⟩
  · cases hsetUp : setUp allocs garbage hpack with
    | mk left hpack₁ =>
        rw [hsetUp] at hnone
        obtain rfl : left = none := hnone
        exact ⟨.error, hpack₁, rfl, nofun, by omega⟩
  · obtain ⟨result, hpack', hstore, hok, hallocs⟩ := htable.store left header
    rw [hsetUp]
    rw [hsize] at hok
    exact ⟨result, hpack', hstore, hok, fun hfour => hallocs (by omega)⟩

theorem Agrees.add (h : Agrees hpack table) (hfirst : hpack.entries = none → table.max = tableSizeLimit)
    (hallocs : 4 ≤ allocs) (garbage : Nat → UInt8) (header : Http2Header) :
    ∃ hpack', addHeader allocs garbage hpack header = .ok (.ok, hpack') ∧ Agrees hpack' (table.add header) := by
  cases h with
  | unused hunused hfree hnil =>
      obtain ⟨result, hpack', hadd, hok, hresult⟩ := hunused.addHeader allocs garbage header
      obtain rfl := hresult hallocs
      obtain ⟨hholds, hsize⟩ := hok rfl
      have hmax := hfirst hunused.entries
      refine ⟨hpack', hadd, .used ?_ (hsize.trans hmax.symm)⟩
      rw [DynamicTable.add, hnil, hmax]
      exact hholds
  | used hholds hsize =>
      obtain ⟨result, hpack', hadd, hok, hresult⟩ := hholds.addHeader allocs garbage header
      obtain rfl := hresult (by omega)
      obtain ⟨hholds', hsize'⟩ := hok rfl
      refine ⟨hpack', hadd, .used ?_ (hsize'.trans hsize)⟩
      rw [DynamicTable.add, ← hsize]
      exact hholds'

theorem tableSize_ok {result : HpackResult} (hn : n ≤ tableSizeLimit)
    (h : hpack.tableSize n = .ok (result, hpack')) : result = .ok := by
  rw [tableSize, if_neg (Nat.not_lt.mpr hn)] at h
  dsimp only at h
  cases hwhile : evictWhile ((hpack.size : Int) - n) (hpack.added - hpack.deleted) hpack with
  | error fault =>
      rw [hwhile] at h
      cases h
  | ok hpack₁ =>
      rw [hwhile] at h
      exact (Prod.mk.inj (Except.ok.inj h)).1.symm

theorem Agrees.resize (h : Agrees hpack table) (n : Nat) :
    ∃ result hpack', hpack.tableSize n = .ok (result, hpack') ∧ Agrees hpack' (table.resize n) := by
  rw [DynamicTable.resize]
  split_ifs with hn
  · cases h with
    | unused hunused hfree hnil =>
        obtain ⟨hpack', hsize, hunused', hfree'⟩ := hunused.resize hfree hn
        rw [hnil]
        exact ⟨.ok, hpack', hsize, .unused hunused' hfree' rfl⟩
    | used hholds hsize =>
        obtain ⟨ptrs, d, slots, bytes, htable⟩ := hholds
        obtain ⟨hpack', hcall, hholds', hsize'⟩ := htable.resize hn
        exact ⟨.ok, hpack', hcall, .used hholds' hsize'⟩
  · refine ⟨.error, hpack, ?_, h⟩
    rw [tableSize, if_pos (Nat.not_le.mp hn)]
    rfl

theorem Run.agrees (h : Run hpack table) : Agrees hpack table := by
  induction h with
  | fresh hfresh => exact .unused hfresh.unused (hfresh.free.trans hfresh.size.symm) rfl
  | @add hpack table allocs garbage header result hpack' _ hfirst hallocs hadd ih =>
      obtain ⟨hpack₁, hsame, hagrees⟩ := ih.add hfirst hallocs garbage header
      obtain ⟨-, rfl⟩ := Prod.mk.inj (Except.ok.inj (hadd.symm.trans hsame))
      exact hagrees
  | @size hpack table n result hpack' _ hsize ih =>
      obtain ⟨result₁, hpack₁, hsame, hagrees⟩ := ih.resize n
      obtain ⟨-, rfl⟩ := Prod.mk.inj (Except.ok.inj (hsize.symm.trans hsame))
      exact hagrees

/-! Indices. -/

theorem finds_zero (hpack : Hpack) : hpack.Finds 0 none :=
  fun _ _ _ => rfl

theorem finds_static (hpack : Hpack) {i : Nat} {header : Http2Header} (h : staticTable[i]? = some header) :
    hpack.Finds (i + 1) (some header) := by
  intro allocs state nameOnly _
  refine ⟨header, ?_, rfl, fun _ => rfl⟩
  rw [getIndexedHeader, if_neg (Nat.succ_ne_zero i), Nat.add_sub_cancel]
  simp only [h]
  rfl

theorem Unused.finds (h : Unused hpack) (i : Nat) : hpack.Finds (62 + i) none := by
  intro allocs state nameOnly
  have hnone : staticTable[62 + i - 1]? = none :=
    List.getElem?_eq_none (by rw [length_staticTable]; omega)
  rw [getIndexedHeader, if_neg (by omega)]
  simp only [hnone]
  rw [if_neg (by rw [h.added, h.deleted]; omega)]
  rfl

theorem Holds.finds {live : List Http2Header} (h : Holds hpack live) (i : Nat) :
    hpack.Finds (62 + i) live.reverse[i]? := by
  obtain ⟨ptrs, d, slots, bytes, htable⟩ := h
  by_cases hi : i < live.length
  · have hsome : live.reverse[i]? = some live[live.length - 1 - i] := by
      rw [List.getElem?_reverse hi, List.getElem?_eq_getElem]
    rw [hsome]
    intro allocs state nameOnly hallocs
    refine ⟨_, htable.get hi state nameOnly hallocs, ?_, ?_⟩
    · cases nameOnly with
      | true => rfl
      | false => rfl
    · rintro rfl
      rfl
  · have hnone : live.reverse[i]? = none :=
      List.getElem?_eq_none (by rw [List.length_reverse]; omega)
    rw [hnone]
    intro allocs state nameOnly
    exact htable.get_beyond (Nat.not_lt.mp hi) state nameOnly

theorem Agrees.finds (h : Agrees hpack table) (index : Nat) : hpack.Finds index (table.lookup index) := by
  rw [DynamicTable.lookup]
  cases index with
  | zero => exact finds_zero hpack
  | succ i =>
      rw [if_neg (Nat.succ_ne_zero i), Nat.add_sub_cancel]
      by_cases hi : i < staticTable.length
      · rw [List.getElem?_append_left hi, List.getElem?_eq_getElem hi]
        exact finds_static hpack (List.getElem?_eq_getElem hi)
      · rw [length_staticTable] at hi
        obtain ⟨k, rfl⟩ := Nat.exists_eq_add_of_le (show 61 ≤ i by omega)
        rw [List.getElem?_append_right (by rw [length_staticTable]; omega), length_staticTable,
          Nat.add_sub_cancel_left, show 61 + k + 1 = 62 + k by omega]
        cases h with
        | unused hunused _ hnil =>
            rw [hnil]
            exact hunused.finds k
        | used hholds _ => exact hholds.finds k

/-- Along every run an index finds what it finds in the dynamic table, and the next call succeeds. -/
theorem hpack_dynamicTable (h : Run hpack table) :
    (∀ index, hpack.Finds index (table.lookup index)) ∧
      (∀ allocs garbage header, (hpack.entries = none → table.max = tableSizeLimit) → 4 ≤ allocs →
        ∃ hpack', addHeader allocs garbage hpack header = .ok (.ok, hpack') ∧ Run hpack' (table.add header)) ∧
      ∀ n, n ≤ tableSizeLimit →
        ∃ hpack', hpack.tableSize n = .ok (.ok, hpack') ∧ Run hpack' (table.resize n) := by
  have hagrees := h.agrees
  refine ⟨hagrees.finds, fun allocs garbage header hfirst hallocs => ?_, fun n hn => ?_⟩
  · obtain ⟨hpack', hadd, -⟩ := hagrees.add hfirst hallocs garbage header
    exact ⟨hpack', hadd, h.add hfirst hallocs hadd⟩
  · obtain ⟨result, hpack', hsize, -⟩ := hagrees.resize n
    obtain rfl := tableSize_ok hn hsize
    exact ⟨hpack', hsize, h.size hsize⟩

/-- A new connection. -/
def newTable : Hpack := ⟨none, 0, 0, 0, 0, 0, 0, none, 0, fun _ => ⟨⟨0, 0⟩, ⟨0, 0⟩⟩, 0⟩

theorem fresh_newTable : Fresh newTable := ⟨⟨rfl, rfl, rfl, rfl⟩, rfl, rfl⟩

/-- The first entry of a new connection. -/
theorem hpack_dynamicTable_first : ∃ hpack, addHeader 4 (fun _ => 0) newTable ⟨[97], [98]⟩ = .ok (.ok, hpack) ∧
    hpack.Finds 62 (some ⟨[97], [98]⟩) := by
  obtain ⟨hpack, hadd, hrun⟩ := (hpack_dynamicTable (.fresh fresh_newTable)).2.1 4 (fun _ => 0)
    ⟨[97], [98]⟩ (fun _ => rfl) (Nat.le_refl 4)
  exact ⟨hpack, hadd, (hpack_dynamicTable hrun).1 62⟩

/-- The first entry is kept though the maximum has been set to 0. -/
theorem hpack_lazySetUp : ∃ hpack hpack', newTable.tableSize 0 = .ok (.ok, hpack) ∧
    addHeader 4 (fun _ => 0) hpack ⟨[97], [98]⟩ = .ok (.ok, hpack') ∧
    ((DynamicTable.resize ⟨tableSizeLimit, []⟩ 0).add ⟨[97], [98]⟩).lookup 62 = none ∧
    hpack'.getIndexedHeader 2 ⟨[], []⟩ 62 false = .ok (.ok, ⟨[97], [98]⟩) := by
  obtain ⟨hpack, hsize, hunused, -⟩ := fresh_newTable.unused.resize rfl (Nat.zero_le tableSizeLimit)
  obtain ⟨result, hpack', hadd, hok, hresult⟩ := hunused.addHeader 4 (fun _ => 0) ⟨[97], [98]⟩
  obtain rfl := hresult (Nat.le_refl 4)
  obtain ⟨header, hget, -, hsame⟩ := (hok rfl).1.finds 0 2 ⟨[], []⟩ false (Nat.le_refl 2)
  obtain rfl := hsame rfl
  exact ⟨hpack, hpack', hsize, hadd, by decide, hget⟩

end Hpack

end RebuildTheWheel.Nginx

namespace RebuildTheWheel.Nginx

open Data Hpack

namespace Hpack

/-! The entries that are alive are what has been added. -/

/-- Calls that have succeeded, with all that they have entered, the most recent entry first. The size
is not changed before the first entry is added. -/
inductive Kept : Hpack → List Http2Header → Prop where
  | fresh : Fresh hpack → Kept hpack []
  | add : Kept hpack log → addHeader allocs garbage hpack header = .ok (.ok, hpack') →
      Kept hpack' (if (setUp allocs garbage hpack).2.size < header.size then log else header :: log)
  | size : Kept hpack log → hpack.entries ≠ none → hpack.tableSize n = .ok (result, hpack') →
      Kept hpack' log

/-- The table is still to be set up, or it has the most recent entries. -/
inductive Recent (hpack : Hpack) (log : List Http2Header) : Prop where
  | unused : Unused hpack → log = [] → Recent hpack log
  | used (live : List Http2Header) : Holds hpack live → live.reverse <+: log → Recent hpack log

variable {hpack hpack' : Hpack} {log live : List Http2Header} {header : Http2Header} {limit n allocs : Nat}
  {garbage : Nat → UInt8} {result : HpackResult}

theorem evictTo_suffix (limit : Nat) (live : List Http2Header) : evictTo limit live <:+ live := by
  induction live with
  | nil => exact List.suffix_rfl
  | cons header live ih =>
      rw [evictTo]
      split_ifs with hfits
      · exact List.suffix_rfl
      · exact ih.trans (List.suffix_cons header live)

/-- What remains of the entries is the most recent ones. -/
theorem inserted_recent (size : Nat) (header : Http2Header) (h : live.reverse <+: log) :
    (inserted size live header).reverse <+: (if size < header.size then log else header :: log) := by
  rw [inserted]
  split_ifs with hlarge
  · exact List.nil_prefix
  · rw [List.reverse_append, List.reverse_singleton, List.singleton_append, List.cons_prefix_cons]
    exact ⟨rfl, (evictTo_suffix _ live).reverse.trans h⟩

theorem Unused.size_setUp (h : Unused hpack) (allocs : Nat) (garbage : Nat → UInt8) :
    (setUp allocs garbage hpack).2.size = tableSizeLimit := by
  rw [setUp.eq_def, h.entries]
  rcases allocs with _ | _ | allocs
  · rfl
  · rfl
  · rfl

theorem Holds.size_setUp (h : Holds hpack live) (allocs : Nat) (garbage : Nat → UInt8) :
    (setUp allocs garbage hpack).2.size = hpack.size := by
  obtain ⟨ptrs, d, slots, bytes, htable⟩ := h
  rw [setUp_some htable.entries]

theorem Recent.add (h : Recent hpack log) (allocs : Nat) (garbage : Nat → UInt8) (header : Http2Header) :
    ∃ result hpack', addHeader allocs garbage hpack header = .ok (result, hpack') ∧
      (result = .ok → Recent hpack'
        (if (setUp allocs garbage hpack).2.size < header.size then log else header :: log)) := by
  cases h with
  | unused hunused hlog =>
      obtain ⟨result, hpack', hadd, hok, -⟩ := hunused.addHeader allocs garbage header
      refine ⟨result, hpack', hadd, fun hresult => .used _ (hok hresult).1 ?_⟩
      rw [hunused.size_setUp, hlog]
      exact inserted_recent tableSizeLimit header List.nil_prefix
  | used live hholds hrecent =>
      obtain ⟨result, hpack', hadd, hok, -⟩ := hholds.addHeader allocs garbage header
      refine ⟨result, hpack', hadd, fun hresult => .used _ (hok hresult).1 ?_⟩
      rw [hholds.size_setUp]
      exact inserted_recent hpack.size header hrecent

theorem Recent.resize (h : Recent hpack log) (hentries : hpack.entries ≠ none) (n : Nat) :
    ∃ result hpack', hpack.tableSize n = .ok (result, hpack') ∧ Recent hpack' log := by
  cases h with
  | unused hunused _ => exact absurd hunused.entries hentries
  | used live hholds hrecent =>
      by_cases hn : n ≤ tableSizeLimit
      · obtain ⟨ptrs, d, slots, bytes, htable⟩ := hholds
        obtain ⟨hpack', hsize, hholds', -⟩ := htable.resize hn
        exact ⟨.ok, hpack', hsize, .used _ hholds' ((evictTo_suffix n live).reverse.trans hrecent)⟩
      · exact ⟨.error, hpack, if_pos (Nat.not_le.mp hn), .used live hholds hrecent⟩

theorem Kept.recent (h : Kept hpack log) : Recent hpack log := by
  induction h with
  | fresh hfresh => exact .unused hfresh.unused rfl
  | @add hpack log allocs garbage header hpack' _ hadd ih =>
      obtain ⟨result, hpack₁, hsame, hrecent⟩ := ih.add allocs garbage header
      obtain ⟨rfl, rfl⟩ := Prod.mk.inj (Except.ok.inj (hadd.symm.trans hsame))
      exact hrecent rfl
  | @size hpack log n result hpack' _ hentries hsize ih =>
      obtain ⟨result₁, hpack₁, hsame, hrecent⟩ := ih.resize hentries n
      obtain ⟨-, rfl⟩ := Prod.mk.inj (Except.ok.inj (hsize.symm.trans hsame))
      exact hrecent

theorem Holds.alive (h : Holds hpack live) : hpack.added - hpack.deleted = live.length := by
  obtain ⟨ptrs, d, slots, bytes, htable⟩ := h
  have halive := htable.alive
  omega

theorem Recent.get (h : Recent hpack log) {i : Nat} (hi : i < hpack.added - hpack.deleted) :
    ∃ header, log[i]? = some header ∧ hpack.Finds (62 + i) (some header) := by
  cases h with
  | unused hunused _ =>
      rw [hunused.added, hunused.deleted] at hi
      omega
  | used live hholds hrecent =>
      rw [hholds.alive, ← List.length_reverse] at hi
      have hsome := List.getElem?_eq_getElem hi
      refine ⟨live.reverse[i], ?_, ?_⟩
      · obtain ⟨older, rfl⟩ := hrecent
        rw [List.getElem?_append_left hi, hsome]
      · rw [← hsome]
        exact hholds.finds i

/-- Nothing is written or read outside of the storage, and each of the entries that are alive is
got as it was added. -/
theorem hpack_storage (h : Kept hpack log) :
    (∀ allocs garbage header, ∃ result hpack',
      addHeader allocs garbage hpack header = .ok (result, hpack')) ∧
      (hpack.entries ≠ none → ∀ n, ∃ result hpack', hpack.tableSize n = .ok (result, hpack')) ∧
      ∀ i, i < hpack.added - hpack.deleted →
        ∃ header, log[i]? = some header ∧ hpack.Finds (62 + i) (some header) := by
  have hrecent := h.recent
  refine ⟨fun allocs garbage header => ?_, fun hentries n => ?_, fun i hi => hrecent.get hi⟩
  · obtain ⟨result, hpack', hadd, -⟩ := hrecent.add allocs garbage header
    exact ⟨result, hpack', hadd⟩
  · obtain ⟨result, hpack', hsize, -⟩ := hrecent.resize hentries n
    exact ⟨result, hpack', hsize⟩

/-- The first entry of a new connection. -/
theorem hpack_storage_first : ∃ hpack, addHeader 4 (fun _ => 0) newTable ⟨[97], [98]⟩ = .ok (.ok, hpack) ∧
    ∀ i, i < hpack.added - hpack.deleted →
      ∃ header, [Http2Header.mk [97] [98]][i]? = some header ∧ hpack.Finds (62 + i) (some header) := by
  obtain ⟨result, hpack, hadd, -, hresult⟩ :=
    fresh_newTable.unused.addHeader 4 (fun _ => 0) ⟨[97], [98]⟩
  obtain rfl := hresult (Nat.le_refl 4)
  exact ⟨hpack, hadd, (hpack_storage (.add (.fresh fresh_newTable) hadd)).2.2⟩

end Hpack

end RebuildTheWheel.Nginx
