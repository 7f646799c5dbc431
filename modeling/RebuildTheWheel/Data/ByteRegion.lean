import Mathlib.Algebra.Group.Nat.Defs
import Mathlib.Data.Nat.Basic
import RebuildTheWheel.Data.Ascii

namespace RebuildTheWheel.Data

/-! A block of memory, byte by byte, and the numbers and records that it holds. -/

/-- The number in bytes, the lowest first. -/
def littleEndian : Nat → Nat → Bytes
  | 0, _ => []
  | n + 1, v => UInt8.ofNat v :: littleEndian n (v / 256)

def ofLittleEndian : Bytes → Nat
  | [] => 0
  | b :: bs => b.toNat + 256 * ofLittleEndian bs

@[simp] theorem length_littleEndian (n v : Nat) : (littleEndian n v).length = n := by
  induction n generalizing v with
  | zero => rfl
  | succ n ih => rw [littleEndian, List.length_cons, ih]

theorem ofLittleEndian_littleEndian {n v : Nat} (h : v < 256 ^ n) :
    ofLittleEndian (littleEndian n v) = v := by
  induction n generalizing v with
  | zero =>
      have hzero : v = 0 := by simpa using h
      rw [hzero]
      rfl
  | succ n ih =>
      have hlt : v / 256 < 256 ^ n := by
        rw [Nat.pow_succ] at h
        exact Nat.div_lt_of_lt_mul (Nat.mul_comm _ _ ▸ h)
      rw [littleEndian, ofLittleEndian, ih hlt, UInt8.toNat_ofNat']
      exact Nat.mod_add_div v 256

structure Region where
  start : Nat
  size : Nat
  bytes : Nat → UInt8

namespace Region

def Contains (m : Region) (a n : Nat) : Prop := m.start ≤ a ∧ a + n ≤ m.start + m.size

instance (m : Region) (a n : Nat) : Decidable (m.Contains a n) := inferInstanceAs (Decidable (_ ∧ _))

def read (m : Region) (a n : Nat) : Option Bytes :=
  if m.Contains a n then some ((List.range n).map fun i => m.bytes (a + i)) else none

/-- The bytes `bs` from `a` on. -/
def put (m : Region) (a : Nat) (bs : Bytes) : Region :=
  { m with bytes := fun y => if a ≤ y ∧ y < a + bs.length then bs.getD (y - a) 0 else m.bytes y }

def write (m : Region) (a : Nat) (bs : Bytes) : Option Region :=
  if m.Contains a bs.length then some (m.put a bs) else none

def Holds (m : Region) (a : Nat) (bs : Bytes) : Prop := m.read a bs.length = some bs

variable {m : Region} {a b n : Nat} {bs cs : Bytes}

theorem write_of_contains (h : m.Contains a bs.length) : m.write a bs = some (m.put a bs) := if_pos h

theorem write_eq_some {m' : Region} :
    m.write a bs = some m' ↔ m.Contains a bs.length ∧ m' = m.put a bs := by
  unfold write
  split_ifs with h
  · simp [h, eq_comm]
  · simp [h]

theorem holds_iff : m.Holds a bs ↔
    m.Contains a bs.length ∧ ∀ i (h : i < bs.length), m.bytes (a + i) = bs[i] := by
  unfold Holds read
  split_ifs with hcontains
  · rw [Option.some.injEq, and_iff_right hcontains]
    constructor
    · intro h i hi
      have := List.getElem_of_eq h (by simpa using hi)
      simpa using this
    · intro h
      apply List.ext_getElem (by simp)
      intro i _ hi
      simpa using h i hi
  · simp [hcontains]

theorem holds_put (h : m.Contains a bs.length) : (m.put a bs).Holds a bs := by
  refine holds_iff.mpr ⟨h, fun i hi => ?_⟩
  simp [put, hi]

/-- What is written elsewhere does not matter. -/
theorem Holds.put_of_apart (h : m.Holds b cs) (hapart : b + cs.length ≤ a ∨ a + bs.length ≤ b) :
    (m.put a bs).Holds b cs := by
  obtain ⟨hcontains, hbytes⟩ := holds_iff.mp h
  refine holds_iff.mpr ⟨hcontains, fun i hi => ?_⟩
  have hne : ¬(a ≤ b + i ∧ b + i < a + bs.length) := by omega
  change (if a ≤ b + i ∧ b + i < a + bs.length then _ else m.bytes (b + i)) = cs[i]
  rw [if_neg hne]
  exact hbytes i hi

/-- What is written behind bytes is held after them. -/
theorem Holds.put_behind (h : m.Holds a bs) (hcontains : m.Contains (a + bs.length) cs.length) :
    (m.put (a + bs.length) cs).Holds a (bs ++ cs) := by
  have hkept : (m.put (a + bs.length) cs).Holds a bs := h.put_of_apart (.inl (Nat.le_refl _))
  obtain ⟨⟨hstart, -⟩, hbs⟩ := holds_iff.mp hkept
  obtain ⟨⟨-, hend⟩, hcs⟩ := holds_iff.mp (holds_put hcontains)
  refine holds_iff.mpr ⟨⟨hstart, ?_⟩, fun i hi => ?_⟩
  · rwa [List.length_append, ← Nat.add_assoc]
  · rw [List.length_append] at hi
    by_cases hlt : i < bs.length
    · rw [List.getElem_append_left hlt, hbs i hlt]
    · have hat := hcs (i - bs.length) (by omega)
      rw [Nat.add_assoc, Nat.add_sub_cancel' (Nat.not_lt.mp hlt)] at hat
      rw [List.getElem_append_right (Nat.not_lt.mp hlt), hat]

theorem Holds.append (h : m.Holds a (bs ++ cs)) : m.Holds a bs ∧ m.Holds (a + bs.length) cs := by
  obtain ⟨⟨hstart, hend⟩, hbytes⟩ := holds_iff.mp h
  have hlength : (bs ++ cs).length = bs.length + cs.length := List.length_append
  rw [hlength] at hend
  refine ⟨holds_iff.mpr ⟨⟨hstart, by omega⟩, fun i hi => ?_⟩,
    holds_iff.mpr ⟨⟨by omega, by omega⟩, fun i hi => ?_⟩⟩
  · rw [hbytes i (by omega), List.getElem_append_left hi]
  · rw [Nat.add_assoc, hbytes (bs.length + i) (by omega), List.getElem_append_right (by omega)]
    simp

/-- A number is read back. -/
theorem Holds.number {v : Nat} (h : m.Holds a (littleEndian n v)) (hlt : v < 256 ^ n) :
    (m.read a n).map ofLittleEndian = some v := by
  have hread : m.read a (littleEndian n v).length = some (littleEndian n v) := h
  rw [length_littleEndian] at hread
  rw [hread, Option.map_some, ofLittleEndian_littleEndian hlt]

end Region

end RebuildTheWheel.Data
