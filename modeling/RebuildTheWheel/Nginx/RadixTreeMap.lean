import RebuildTheWheel.Nginx.RadixTree
import Mathlib.Logic.Function.Basic

namespace RebuildTheWheel.Nginx

/-! How the bits of a key and of a mask are read. -/

/-- The bits of a key, the first one at the root. -/
def bits32 (key : UInt32) : List Bool := (List.range 32).map key.toBitVec.getMsbD

def bits128 (key : Vector UInt8 16) : List Bool :=
  (List.range 128).map fun n => key[n / 8]!.toBitVec.getMsbD (n % 8)

namespace Radix

/-- A contiguous mask takes as many bits as it is long. -/
theorem taken_contiguous (n m : Nat) (bits : List Bool) :
    taken ((List.replicate n true ++ List.replicate m false).zip bits) = bits.take n := by
  induction n generalizing bits with
  | zero =>
      cases m <;> cases bits <;> rfl
  | succ n ih =>
      cases bits with
      | nil => rfl
      | cons b bits => exact congrArg (b :: ·) (ih bits)

/-- The positions of a cursor in a key of `n` bits. -/
structure Cursor.Steps {σ : Type} (cursor : Cursor σ) (state : Nat → σ) (n : Nat)
    (mask key : Nat → Bool) : Prop where
  start : cursor.start = state 0
  next : ∀ i < n, cursor.next (state i) = state (i + 1)
  masked : ∀ i < n, cursor.masked (state i) = .ok (mask i)
  right : ∀ i < n, cursor.right (state i) = .ok (key i)

variable {σ : Type} {cursor : Cursor σ} {state : Nat → σ} {n i k : Nat} {mask key : Nat → Bool}

theorem Cursor.Steps.spells (h : cursor.Steps state n mask key) (hi : i + k = n) :
    Spells cursor (state i) ((List.range' i k).map key) (state n) := by
  induction k generalizing i with
  | zero =>
      obtain rfl : i = n := hi
      exact .nil
  | succ k ih =>
      have hlt : i < n := by omega
      refine .cons (h.right i hlt) ?_
      rw [h.next i hlt]
      exact ih (by omega)

/-- The loops end where the mask has no more bits. -/
theorem Cursor.Steps.reads (h : cursor.Steps state n mask key)
    (hlast : ∀ i < n, cursor.last (state i) = false) (hend : cursor.masked (state n) = .ok false)
    (hi : i + k = n) :
    Reads cursor (state i) ((List.range' i k).map fun i => (mask i, key i)) := by
  induction k generalizing i with
  | zero =>
      obtain rfl : i = n := hi
      exact .done hend
  | succ k ih =>
      have hlt : i < n := by omega
      refine .more (h.masked i hlt) (h.right i hlt) (hlast i hlt) ?_
      rw [h.next i hlt]
      exact ih (by omega)

/-- The loops end after the last bit. -/
theorem Cursor.Steps.reads_last (h : cursor.Steps state n mask key)
    (hlast : ∀ i < n, cursor.last (state i) = decide (i + 1 = n)) (hi : i + (k + 1) = n) :
    Reads cursor (state i) ((List.range' i (k + 1)).map fun i => (mask i, key i)) := by
  induction k generalizing i with
  | zero =>
      have hlt : i < n := by omega
      exact .last (h.masked i hlt) (h.right i hlt) ((hlast i hlt).trans (decide_eq_true hi))
  | succ k ih =>
      have hlt : i < n := by omega
      have hmore : cursor.last (state i) = false :=
        (hlast i hlt).trans (decide_eq_false (by omega))
      refine .more (h.masked i hlt) (h.right i hlt) hmore ?_
      rw [h.next i hlt]
      exact ih (by omega)

/-! One bit of a word. -/

theorem twoPow_and_ne_zero {w i : Nat} (x : BitVec w) (hi : i < w) :
    (BitVec.twoPow w (w - 1 - i) &&& x ≠ 0) ↔ x.getMsbD i = true := by
  rw [BitVec.twoPow_and, BitVec.getMsbD_eq_getLsbD, decide_eq_true hi, Bool.true_and]
  have hne : BitVec.twoPow w (w - 1 - i) ≠ 0 := by
    intro hzero
    have hbit := congrArg (BitVec.getLsbD · (w - 1 - i)) hzero
    simp only [BitVec.getLsbD_twoPow, decide_true, Bool.and_true] at hbit
    have hlt : w - 1 - i < w := by omega
    simp [hlt] at hbit
  split_ifs with hbit
  · exact ⟨fun _ => hbit, fun _ => hne⟩
  · exact ⟨fun h => absurd rfl h, fun h => absurd h hbit⟩

/-- The bit that is read in the `i`-th place. -/
def bitOf32 (i : Nat) : UInt32 := UInt32.ofBitVec (0x80000000#32 >>> i)

def bitOf8 (i : Nat) : UInt8 := UInt8.ofBitVec (0x80#8 >>> i)

theorem bitOf32_and {i : Nat} (x : UInt32) (hi : i < 32) :
    decide (bitOf32 i &&& x ≠ 0) = x.toBitVec.getMsbD i := by
  have hpow : ∀ i < 32, 0x80000000#32 >>> i = BitVec.twoPow 32 (31 - i) := by decide
  have hbit := twoPow_and_ne_zero x.toBitVec hi
  rw [← hpow i hi] at hbit
  have hword : (bitOf32 i &&& x ≠ 0) ↔ (0x80000000#32 >>> i &&& x.toBitVec ≠ 0) :=
    not_congr UInt32.toBitVec_inj.symm
  exact Bool.eq_iff_iff.mpr (decide_eq_true_iff.trans (hword.trans hbit))

theorem bitOf8_and {i : Nat} (x : UInt8) (hi : i < 8) :
    decide (bitOf8 i &&& x ≠ 0) = x.toBitVec.getMsbD i := by
  have hpow : ∀ i < 8, 0x80#8 >>> i = BitVec.twoPow 8 (7 - i) := by decide
  have hbit := twoPow_and_ne_zero x.toBitVec hi
  rw [← hpow i hi] at hbit
  have hword : (bitOf8 i &&& x ≠ 0) ↔ (0x80#8 >>> i &&& x.toBitVec ≠ 0) :=
    not_congr UInt8.toBitVec_inj.symm
  exact Bool.eq_iff_iff.mpr (decide_eq_true_iff.trans (hword.trans hbit))

theorem steps32 (key mask : UInt32) : (cursor32 key mask).Steps bitOf32 32 mask.toBitVec.getMsbD
    key.toBitVec.getMsbD where
  start := rfl
  next := by
    have hnext : ∀ i < 32, bitOf32 i >>> 1 = bitOf32 (i + 1) := by decide
    exact hnext
  masked i hi := congrArg Except.ok (bitOf32_and mask hi)
  right i hi := by
    rw [← bitOf32_and key hi, UInt32.and_comm]
    rfl

def stateOf128 (n : Nat) : Nat × UInt8 := (n / 8, bitOf8 (n % 8))

theorem byteAt_eq {key : Vector UInt8 16} {n : Nat} (hn : n < 128) :
    byteAt key (n / 8) = .ok key[n / 8]! := by
  have hlt : n / 8 < 16 := by omega
  rw [byteAt, dif_pos hlt, getElem!_pos key (n / 8) hlt]
  rfl

theorem steps128 (key mask : Vector UInt8 16) : (cursor128 key mask).Steps stateOf128 128
    (fun n => mask[n / 8]!.toBitVec.getMsbD (n % 8)) (fun n => key[n / 8]!.toBitVec.getMsbD (n % 8)) where
  start := rfl
  next := by
    have hnext : ∀ n < 128, (cursor128 (Vector.replicate 16 0) (Vector.replicate 16 0)).next (stateOf128 n) =
        stateOf128 (n + 1) := by decide
    exact hnext
  masked n hn := by
    have hmod : n % 8 < 8 := Nat.mod_lt _ (by decide)
    change (do return decide (bitOf8 (n % 8) &&& (← byteAt mask (n / 8)) ≠ 0)) = _
    rw [byteAt_eq hn]
    exact congrArg Except.ok (bitOf8_and _ hmod)
  right n hn := by
    have hmod : n % 8 < 8 := Nat.mod_lt _ (by decide)
    change (do return decide ((← byteAt key (n / 8)) &&& bitOf8 (n % 8) ≠ 0)) = _
    rw [byteAt_eq hn, ← bitOf8_and _ hmod, UInt8.and_comm]
    rfl

theorem spells32 (key mask : UInt32) :
    Spells (cursor32 key mask) 0x80000000 (bits32 key) (bitOf32 32) := by
  rw [bits32, List.range_eq_range']
  exact (steps32 key mask).spells (i := 0) (k := 32) rfl

theorem spells128 (key mask : Vector UInt8 16) :
    Spells (cursor128 key mask) (0, 0x80) (bits128 key) (stateOf128 128) := by
  rw [bits128, List.range_eq_range']
  exact (steps128 key mask).spells (i := 0) (k := 128) rfl

/-! The keys as a whole. -/

theorem reads32 (key mask : UInt32) : Reads (cursor32 key mask) (cursor32 key mask).start
    ((bits32 mask).zip (bits32 key)) := by
  have hsteps := steps32 key mask
  rw [bits32, bits32, List.zip_map', List.range_eq_range', hsteps.start]
  have hend : ¬ bitOf32 32 &&& mask ≠ 0 := fun hne => hne UInt32.zero_and
  exact hsteps.reads (fun _ _ => rfl) (congrArg Except.ok (decide_eq_false hend)) rfl

theorem reads128 (key mask : Vector UInt8 16) : Reads (cursor128 key mask) (cursor128 key mask).start
    ((bits128 mask).zip (bits128 key)) := by
  have hsteps := steps128 key mask
  have hlast : ∀ n < 128, (cursor128 (Vector.replicate 16 0) (Vector.replicate 16 0)).last (stateOf128 n) =
      decide (n + 1 = 128) := by decide
  rw [bits128, bits128, List.zip_map', List.range_eq_range', hsteps.start]
  exact hsteps.reads_last (k := 127) hlast rfl

end Radix

end RebuildTheWheel.Nginx

namespace RebuildTheWheel.Nginx

/-! Radix trees as maps from prefixes to values. -/

open Radix BitTrie

inductive RadixCall (κ : Type) where
  | insert (pages : Nat) (key mask : κ) (value : UInt64)
  | delete (key mask : κ)
  | find (key : κ)

inductive RadixOutcome where
  | result (result : RadixResult)
  | value (value : UInt64)

/-- The functions for one kind of keys. `bits` are those of a key, and `overreads` tells that a search
reads one more byte below a node that has all of them. -/
structure RadixFunctions (κ : Type) where
  insert : Nat → RadixTree → κ → κ → UInt64 → Except RadixFault (RadixResult × RadixTree)
  delete : RadixTree → κ → κ → Except RadixFault (RadixResult × RadixTree)
  find : RadixTree → κ → Except RadixFault UInt64
  bits : κ → List Bool
  overreads : Bool

def radix32 : RadixFunctions UInt32 where
  insert := radix32treeInsert
  delete := radix32treeDelete
  find := radix32treeFind
  bits := bits32
  overreads := false

def radix128 : RadixFunctions (Vector UInt8 16) where
  insert := radix128treeInsert
  delete := radix128treeDelete
  find := radix128treeFind
  bits := bits128
  overreads := true

namespace RadixFunctions

variable {κ : Type}

/-- The bits of the key under the mask. -/
def prefixOf (functions : RadixFunctions κ) (key mask : κ) : List Bool :=
  taken ((functions.bits mask).zip (functions.bits key))

def call (functions : RadixFunctions κ) (radix : RadixTree) :
    RadixCall κ → Except RadixFault (RadixOutcome × RadixTree)
  | .insert pages key mask value => do
      let (result, radix) ← functions.insert pages radix key mask value
      return (.result result, radix)
  | .delete key mask => do
      let (result, radix) ← functions.delete radix key mask
      return (.result result, radix)
  | .find key => do
      let value ← functions.find radix key
      return (.value value, radix)

/-- What a call makes of a map. -/
def apply (functions : RadixFunctions κ) (values : List Bool → Option UInt64) :
    RadixCall κ → List Bool → Option UInt64
  | .insert _ key mask value =>
      if values (functions.prefixOf key mask) = none then
        Function.update values (functions.prefixOf key mask) (some value)
      else values
  | .delete key mask => Function.update values (functions.prefixOf key mask) none
  | .find _ => values

/-- What a call returns for a map. -/
def Returns (functions : RadixFunctions κ) (values : List Bool → Option UInt64) :
    RadixCall κ → RadixOutcome → Prop
  | .insert _ key mask _, outcome =>
      outcome = .result (if values (functions.prefixOf key mask) = none then .ok else .busy)
  | .delete key mask, outcome =>
      outcome = .result (if values (functions.prefixOf key mask) = none then .error else .ok)
  | .find key, outcome =>
      ∃ value, outcome = .value value ∧ Longest values (functions.bits key) radixNoValue value

/-- A new value is a value and there is memory for it, the empty prefix is deleted only while there
are others, and no search comes to a node with all bits of the key if it would read on. -/
def Allowed (functions : RadixFunctions κ) (radix : RadixTree) (values : List Bool → Option UInt64) :
    RadixCall κ → Prop
  | .insert pages key mask value => values (functions.prefixOf key mask) = none →
      value ≠ radixNoValue ∧
        radix.root.missing (functions.prefixOf key mask) ≤ room ⟨radix.free, radix.size, pages⟩
  | .delete key mask => functions.prefixOf key mask = [] → ∃ p, p ≠ [] ∧ values p ≠ none
  | .find key => functions.overreads = true → values (functions.bits key) = none

/-- Calls on a new tree, with the map that they make. -/
inductive Run (functions : RadixFunctions κ) : RadixTree → (List Bool → Option UInt64) → Prop where
  | create : radixTreeCreate pages = some radix → Run functions radix fun _ => none
  | call : Run functions radix values → functions.Allowed radix values request →
      functions.call radix request = .ok (outcome, radix') →
      Run functions radix' (functions.apply values request)

/-- A call ends without a fault, returns what the map says, and leaves a tree with the values of the
map. -/
def BehavesAsMap (functions : RadixFunctions κ) (radix : RadixTree)
    (values : List Bool → Option UInt64) : Prop :=
  ∀ request, functions.Allowed radix values request →
    ∃ outcome radix', functions.call radix request = .ok (outcome, radix') ∧
      functions.Returns values request outcome ∧
      ∀ p, radix'.root.get radixNoValue p = functions.apply values request p

/-- The functions in terms of a cursor; `first` and `last` are where a search starts, and where it is
after all bits of the key. -/
structure Implements {σ : Type} (functions : RadixFunctions κ) (cursor : κ → κ → Cursor σ) (n : Nat)
    (zero : κ) (first last : σ) : Prop where
  insert : ∀ pages radix key mask value, functions.insert pages radix key mask value =
    Radix.insert (cursor key mask) (n + 1) value pages radix
  delete : ∀ radix key mask, functions.delete radix key mask = Radix.delete (cursor key mask) radix
  find : ∀ radix key, functions.find radix key =
    Radix.find (cursor key zero) first radixNoValue radix.root
  length : ∀ key, (functions.bits key).length = n + 1
  reads : ∀ key mask, Reads (cursor key mask) (cursor key mask).start
    ((functions.bits mask).zip (functions.bits key))
  spells : ∀ key, Spells (cursor key zero) first (functions.bits key) last
  ends : functions.overreads = false → ∀ key, ∃ b, (cursor key zero).right last = .ok b

theorem radix32_implements : radix32.Implements cursor32 31 0 0x80000000 (bitOf32 32) where
  insert _ _ _ _ _ := rfl
  delete _ _ _ := rfl
  find _ _ := rfl
  length _ := (List.length_map ..).trans List.length_range
  reads := reads32
  spells key := spells32 key 0
  ends _ _ := ⟨_, rfl⟩

theorem radix128_implements :
    radix128.Implements cursor128 127 (Vector.replicate 16 0) (0, 0x80) (stateOf128 128) where
  insert _ _ _ _ _ := rfl
  delete _ _ _ := rfl
  find _ _ := rfl
  length _ := (List.length_map ..).trans List.length_range
  reads := reads128
  spells key := spells128 key _
  ends h := nomatch h

/-- The tree has the values of the map. -/
structure Represents (n : Nat) (radix : RadixTree) (values : List Bool → Option UInt64) : Prop where
  rooted : radix.root.Rooted radixNoValue
  get : ∀ p, radix.root.get radixNoValue p = values p
  within : ∀ p, values p ≠ none → p.length ≤ n + 1

variable {σ : Type} {functions : RadixFunctions κ} {cursor : κ → κ → Cursor σ} {n pages : Nat} {zero : κ}
  {first last : σ} {radix : RadixTree} {values : List Bool → Option UInt64} {request : RadixCall κ}

theorem Represents.create (h : radixTreeCreate pages = some radix) : Represents n radix fun _ => none := by
  obtain ⟨memory, -, rfl⟩ := Option.map_eq_some_iff.mp h
  exact ⟨⟨trivial, trivial⟩, fun p => get_blank, fun p hp => absurd rfl hp⟩

theorem Implements.length_zip (h : functions.Implements cursor n zero first last) (key mask : κ) :
    ((functions.bits mask).zip (functions.bits key)).length = n + 1 := by
  rw [List.length_zip, h.length, h.length, Nat.min_self]

theorem Implements.length_prefixOf (h : functions.Implements cursor n zero first last) (key mask : κ) :
    (functions.prefixOf key mask).length ≤ n + 1 := by
  rw [prefixOf, taken, List.length_map, ← h.length_zip key mask]
  exact (List.takeWhile_sublist _).length_le

theorem Represents.call (himplements : functions.Implements cursor n zero first last)
    (h : Represents n radix values) (hallowed : functions.Allowed radix values request) :
    ∃ outcome radix', functions.call radix request = .ok (outcome, radix') ∧
      functions.Returns values request outcome ∧
      Represents n radix' (functions.apply values request) := by
  obtain ⟨hrooted, hget, hwithin⟩ := h
  cases request with
  | insert pages key mask value =>
      have hreads := himplements.reads key mask
      have hbits := Nat.le_of_eq (himplements.length_zip key mask)
      simp only [RadixFunctions.call, himplements.insert, Returns, apply]
      by_cases habsent : values (functions.prefixOf key mask) = none
      · obtain ⟨hvalue, hroom⟩ := hallowed habsent
        obtain ⟨radix', hinsert, hstored⟩ := insert_absent hreads hbits hrooted hvalue
          ((hget _).trans habsent) hroom
        rw [hinsert, if_pos habsent, if_pos habsent]
        refine ⟨_, radix', rfl, rfl, hstored.rooted, fun p => ?_, fun p hp => ?_⟩
        · rw [hstored.get, hget, Function.update_apply]
          rfl
        · by_cases hsame : p = functions.prefixOf key mask
          · rw [hsame]
            exact himplements.length_prefixOf key mask
          · rw [Function.update_of_ne hsame] at hp
            exact hwithin p hp
      · have hpresent : radix.root.get radixNoValue (functions.prefixOf key mask) ≠ none := by
          rwa [hget]
        rw [insert_present hreads hbits hrooted hpresent, if_neg habsent, if_neg habsent]
        exact ⟨_, radix, rfl, rfl, hrooted, hget, hwithin⟩
  | delete key mask =>
      have hreads := himplements.reads key mask
      have hroot : functions.prefixOf key mask = [] →
          ∃ p, p ≠ [] ∧ radix.root.get radixNoValue p ≠ none := fun hempty => by
        obtain ⟨p, hne, hp⟩ := hallowed hempty
        exact ⟨p, hne, by rwa [hget]⟩
      simp only [RadixFunctions.call, himplements.delete, Returns, apply]
      by_cases habsent : values (functions.prefixOf key mask) = none
      · rw [delete_absent hreads hrooted ((hget _).trans habsent) hroot, if_pos habsent]
        have hsame : Function.update values (functions.prefixOf key mask) none = values := by
          rw [← habsent, Function.update_eq_self]
        rw [hsame]
        exact ⟨_, radix, rfl, rfl, hrooted, hget, hwithin⟩
      · have hpresent : radix.root.get radixNoValue (functions.prefixOf key mask) ≠ none := by
          rwa [hget]
        obtain ⟨radix', hdelete, hremoved⟩ := delete_present hreads hrooted hpresent hroot
        rw [hdelete, if_neg habsent]
        refine ⟨_, radix', rfl, rfl, hremoved.rooted, fun p => ?_, fun p hp => ?_⟩
        · rw [hremoved.get, hget, Function.update_apply]
          rfl
        · by_cases hsame : p = functions.prefixOf key mask
          · rw [hsame, Function.update_self] at hp
            exact absurd rfl hp
          · rw [Function.update_of_ne hsame] at hp
            exact hwithin p hp
  | find key =>
      obtain ⟨b, bits, hbits⟩ : ∃ b bits, functions.bits key = b :: bits :=
        List.exists_cons_of_length_eq_add_one (himplements.length key)
      have hlength : n = bits.length := by
        have := himplements.length key
        rw [hbits, List.length_cons] at this
        omega
      have hend : (∃ b, (cursor key zero).right last = .ok b) ∨
          radix.root.get radixNoValue (b :: bits) = none := by
        cases hover : functions.overreads with
        | false => exact .inl (himplements.ends hover key)
        | true => exact .inr ((hget _).trans (hbits ▸ hallowed hover))
      have hspells := himplements.spells key
      rw [hbits] at hspells
      obtain ⟨value, hfind, hlongest⟩ := find_longest hspells hrooted
        (fun p hp => by rw [← hlength]; exact hwithin p (hget p ▸ hp)) hend
      simp only [RadixFunctions.call, himplements.find, Returns, apply, hbits]
      rw [hfind]
      have hvalues : radix.root.get radixNoValue = values := funext hget
      exact ⟨_, radix, rfl, ⟨value, rfl, hvalues ▸ hlongest⟩, hrooted, hget, hwithin⟩

theorem Run.represents (himplements : functions.Implements cursor n zero first last)
    (h : functions.Run radix values) : Represents n radix values := by
  induction h with
  | create hcreate => exact .create hcreate
  | call _ hallowed hcall ih =>
      obtain ⟨outcome, radix', hsame, -, hrepresents⟩ := ih.call himplements hallowed
      obtain ⟨-, rfl⟩ := Prod.mk.inj (Except.ok.inj (hcall.symm.trans hsame))
      exact hrepresents

theorem Run.behavesAsMap (himplements : functions.Implements cursor n zero first last)
    (h : functions.Run radix values) : functions.BehavesAsMap radix values := by
  intro request hallowed
  obtain ⟨outcome, radix', hcall, hreturns, hrepresents⟩ :=
    (h.represents himplements).call himplements hallowed
  exact ⟨outcome, radix', hcall, hreturns, hrepresents.get⟩

end RadixFunctions

/-- A new tree has one node of its first page. -/
def emptyRadixTree : RadixTree := ⟨.node radixNoValue .null .null, 0, 4064⟩

/-- A key, and the mask that takes all of it. -/
def fullKey : Vector UInt8 16 := Vector.replicate 16 255

/-- The tree with that key alone. -/
def fullRadixTree : RadixTree :=
  match radix128treeInsert 1 emptyRadixTree fullKey fullKey 7 with
  | .ok (_, radix) => radix
  | .error _ => emptyRadixTree

end RebuildTheWheel.Nginx
