import Mathlib.Algebra.Group.Nat.Defs
import RebuildTheWheel.Data.Ascii

namespace RebuildTheWheel.Data

/-! The first bits of an address, and the masks that keep them. -/

namespace AddressPrefix

open Ascii

/-- The bits of an address, from the highest one of its first byte on -/
def bit (address : Bytes) (i : Nat) : Bool := (address.getD (i / 8) 0).toNat.testBit (7 - i % 8)

/-- Two addresses have the same first `p` bits. -/
def Agrees (p : Nat) (a b : Bytes) : Prop := ∀ i < p, bit a i = bit b i

/-- The first `s` bits of a byte -/
def byteMask (s : Nat) : UInt8 := UInt8.ofNat (255 * 2 ^ (8 - s))

/-- The first `p` bits of `n` bytes -/
def prefixMask : Nat → Nat → Bytes
  | 0, _ => []
  | n + 1, p => byteMask (min p 8) :: prefixMask n (p - 8)

def masked (address mask : Bytes) : Bytes := List.zipWith (· &&& ·) address mask

variable {a b : Bytes} {x y : UInt8} {n p s i : Nat}

theorem length_prefixMask (n p : Nat) : (prefixMask n p).length = n := by
  induction n generalizing p with
  | zero => rfl
  | succ n ih => rw [prefixMask, List.length_cons, ih]

theorem testBit_byteMask :
    ∀ s < 9, ∀ k < 8, (byteMask s).toNat.testBit k = decide (8 - s ≤ k) := by
  decide

theorem masked_byte_eq_iff (hs : s ≤ 8) :
    x &&& byteMask s = y &&& byteMask s ↔
      ∀ i < s, x.toNat.testBit (7 - i) = y.toNat.testBit (7 - i) := by
  rw [← UInt8.toNat_inj, UInt8.toNat_and, UInt8.toNat_and]
  constructor
  · intro h i hi
    have hbit := congrArg (·.testBit (7 - i)) h
    have hmask : (byteMask s).toNat.testBit (7 - i) = true := by
      rw [testBit_byteMask s (by omega) _ (by omega)]
      exact decide_eq_true (by omega)
    simpa only [Nat.testBit_and, hmask, Bool.and_true] using hbit
  · intro h
    refine Nat.eq_of_testBit_eq fun k => ?_
    rw [Nat.testBit_and, Nat.testBit_and]
    rcases Nat.lt_or_ge k 8 with hk | hk
    · rw [testBit_byteMask s (by omega) k hk]
      by_cases hkept : 8 - s ≤ k
      · have hbit := h (7 - k) (by omega)
        rw [show 7 - (7 - k) = k by omega] at hbit
        rw [hbit]
      · rw [decide_eq_false hkept, Bool.and_false, Bool.and_false]
    · have hhigh : ∀ z : UInt8, z.toNat.testBit k = false := fun z =>
        Nat.testBit_lt_two_pow (Nat.lt_of_lt_of_le z.toNat_lt (Nat.pow_le_pow_right (by decide) hk))
      rw [hhigh x, hhigh y]

theorem bit_cons (hi : i < 8) : bit (x :: a) i = x.toNat.testBit (7 - i) := by
  rw [bit, Nat.div_eq_of_lt hi, Nat.mod_eq_of_lt hi]
  rfl

theorem bit_cons_add (x : UInt8) (a : Bytes) (i : Nat) : bit (x :: a) (i + 8) = bit a i := by
  rw [bit, Nat.add_div_right i (by decide), Nat.add_mod_right]
  rfl

theorem agrees_cons :
    Agrees p (x :: a) (y :: b) ↔
      (∀ i < min p 8, x.toNat.testBit (7 - i) = y.toNat.testBit (7 - i)) ∧ Agrees (p - 8) a b := by
  constructor
  · intro h
    constructor
    · intro i hi
      have hbit := h i (by omega)
      rwa [bit_cons (by omega), bit_cons (by omega)] at hbit
    · intro i hi
      have hbit := h (i + 8) (by omega)
      rwa [bit_cons_add, bit_cons_add] at hbit
  · intro ⟨hfirst, hrest⟩ i hi
    rcases Nat.lt_or_ge i 8 with hlt | hge
    · rw [bit_cons hlt, bit_cons hlt]
      exact hfirst i (by omega)
    · obtain ⟨j, rfl⟩ := Nat.exists_eq_add_of_le' hge
      rw [bit_cons_add, bit_cons_add]
      exact hrest j (by omega)

/-- A mask keeps the first bits. -/
theorem masked_eq_iff (ha : a.length = n) (hb : b.length = n) (p : Nat) :
    masked a (prefixMask n p) = masked b (prefixMask n p) ↔ Agrees p a b := by
  induction n generalizing a b p with
  | zero =>
      obtain rfl := List.length_eq_zero_iff.mp ha
      obtain rfl := List.length_eq_zero_iff.mp hb
      exact iff_of_true rfl fun _ _ => rfl
  | succ n ih =>
      obtain ⟨x, a, rfl⟩ := List.exists_cons_of_length_eq_add_one ha
      obtain ⟨y, b, rfl⟩ := List.exists_cons_of_length_eq_add_one hb
      rw [List.length_cons, Nat.add_right_cancel_iff] at ha hb
      rw [agrees_cons, ← ih ha hb, ← masked_byte_eq_iff (Nat.min_le_right p 8)]
      exact List.cons_eq_cons

theorem and_byteMask_eight : ∀ x : UInt8, x &&& byteMask 8 = x := by
  apply forall_byte
  decide

/-- The mask of all bits -/
theorem masked_full (ha : a.length = n) : masked a (prefixMask n (8 * n)) = a := by
  induction n generalizing a with
  | zero => exact (List.length_eq_zero_iff.mp ha).symm ▸ rfl
  | succ n ih =>
      obtain ⟨x, a, rfl⟩ := List.exists_cons_of_length_eq_add_one ha
      rw [prefixMask, Nat.min_eq_right (by omega), show 8 * (n + 1) - 8 = 8 * n by omega]
      exact List.cons_eq_cons.mpr ⟨and_byteMask_eight x, ih (Nat.succ.inj ha)⟩

end AddressPrefix

end RebuildTheWheel.Data
