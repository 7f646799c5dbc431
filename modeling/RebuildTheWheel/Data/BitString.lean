import Mathlib.Algebra.Group.Nat.Defs
import Mathlib.Data.List.Basic
import RebuildTheWheel.Data.Ascii

namespace RebuildTheWheel.Data.BitString

/-! The bits of words and of bytes, the highest first. -/

/-- The low `n` bits of `v` -/
def bits : Nat → Nat → List Bool
  | 0, _ => []
  | n + 1, v => v.testBit n :: bits n v

def byteBits (bytes : Bytes) : List Bool := bytes.flatMap fun b => bits 8 b.toNat

/-- The low `n` bytes of `v` -/
def bigEndian : Nat → Nat → Bytes
  | 0, _ => []
  | n + 1, v => UInt8.ofNat (v >>> (8 * n)) :: bigEndian n v

/-- Whole bytes, the rest of the last one filled with one bits -/
def padded (bs : List Bool) : List Bool := bs ++ List.replicate ((8 - bs.length % 8) % 8) true

variable {m n v w : Nat}

@[simp] theorem length_bits (n v : Nat) : (bits n v).length = n := by
  induction n with
  | zero => rfl
  | succ n ih => rw [bits, List.length_cons, ih]

@[simp] theorem length_bigEndian (n v : Nat) : (bigEndian n v).length = n := by
  induction n with
  | zero => rfl
  | succ n ih => rw [bigEndian, List.length_cons, ih]

theorem bits_congr (h : ∀ i < n, v.testBit i = w.testBit i) : bits n v = bits n w := by
  induction n with
  | zero => rfl
  | succ n ih =>
      rw [bits, bits, h n (Nat.lt_succ_self n), ih fun i hi => h i (Nat.lt_succ_of_lt hi)]

theorem bits_mod (h : n ≤ m) (v : Nat) : bits n (v % 2 ^ m) = bits n v := by
  apply bits_congr
  intro i hi
  rw [Nat.testBit_mod_two_pow, decide_eq_true (Nat.lt_of_lt_of_le hi h), Bool.true_and]

/-- The bits are split anywhere. -/
theorem bits_add (m n v : Nat) : bits (m + n) v = bits m (v >>> n) ++ bits n v := by
  induction m with
  | zero => rw [Nat.zero_add, bits, List.nil_append]
  | succ m ih =>
      rw [Nat.add_right_comm, bits, bits, ih, Nat.testBit_shiftRight, Nat.add_comm n m,
        List.cons_append]

theorem bits_zero (n : Nat) : bits n 0 = List.replicate n false := by
  induction n with
  | zero => rfl
  | succ n ih => rw [bits, ih, Nat.zero_testBit, List.replicate_succ]

theorem bits_ones (n : Nat) : bits n (2 ^ n - 1) = List.replicate n true := by
  have hall : ∀ k ≤ n, bits k (2 ^ n - 1) = List.replicate k true := by
    intro k hk
    induction k with
    | zero => rfl
    | succ k ih =>
        rw [bits, ih (Nat.le_of_succ_le hk), Nat.testBit_two_pow_sub_one,
          decide_eq_true (Nat.lt_of_succ_le hk), List.replicate_succ]
  exact hall n (Nat.le_refl n)

theorem ones_shiftRight (m n : Nat) : (2 ^ (m + n) - 1) >>> m = 2 ^ n - 1 := by
  apply Nat.eq_of_testBit_eq
  intro i
  rw [Nat.testBit_shiftRight, Nat.testBit_two_pow_sub_one, Nat.testBit_two_pow_sub_one]
  simp only [Nat.add_lt_add_iff_left]

theorem bits_or (n v w : Nat) : bits n (v ||| w) = List.zipWith or (bits n v) (bits n w) := by
  induction n with
  | zero => rfl
  | succ n ih => rw [bits, bits, bits, Nat.testBit_or, ih, List.zipWith_cons_cons]

/-- High bits that are not there are zero. -/
theorem bits_of_lt (h : v < 2 ^ n) (m : Nat) :
    bits (m + n) v = List.replicate m false ++ bits n v := by
  rw [bits_add, Nat.shiftRight_eq_div_pow, Nat.div_eq_of_lt h, bits_zero]

theorem bits_shiftLeft (m n v : Nat) :
    bits (m + n) (v <<< n) = bits m v ++ List.replicate n false := by
  have hlow : bits n (v <<< n) = bits n 0 := by
    apply bits_congr
    intro i hi
    rw [Nat.testBit_shiftLeft, decide_eq_false (Nat.not_le.mpr hi), Bool.false_and,
      Nat.zero_testBit]
  rw [bits_add, Nat.shiftLeft_shiftRight, hlow, bits_zero]

theorem zipWith_or_false (bs : List Bool) :
    List.zipWith or bs (List.replicate bs.length false) = bs := by
  induction bs with
  | nil => rfl
  | cons b bs ih =>
      rw [List.length_cons, List.replicate_succ, List.zipWith_cons_cons, ih, Bool.or_false]

theorem zipWith_false_or (bs : List Bool) :
    List.zipWith or (List.replicate bs.length false) bs = bs := by
  induction bs with
  | nil => rfl
  | cons b bs ih =>
      rw [List.length_cons, List.replicate_succ, List.zipWith_cons_cons, ih, Bool.false_or]

/-- A word with room behind its bits takes more of them. -/
theorem bits_or_append {bs cs : List Bool}
    (hv : bits (m + n) v = bs ++ List.replicate n false)
    (hw : bits (m + n) w = List.replicate m false ++ cs) (hm : bs.length = m) (hn : cs.length = n) :
    bits (m + n) (v ||| w) = bs ++ cs := by
  rw [bits_or, hv, hw, ← hm, ← hn, List.zipWith_append List.length_replicate.symm, zipWith_or_false,
    zipWith_false_or]

theorem byteBits_append (bs cs : Bytes) : byteBits (bs ++ cs) = byteBits bs ++ byteBits cs :=
  List.flatMap_append

theorem length_byteBits (bytes : Bytes) : (byteBits bytes).length = 8 * bytes.length := by
  induction bytes with
  | nil => rfl
  | cons b bytes ih =>
      change (bits 8 b.toNat ++ byteBits bytes).length = _
      rw [List.length_append, length_bits, ih, List.length_cons]
      omega

theorem byteBits_bigEndian (n v : Nat) : byteBits (bigEndian n v) = bits (8 * n) v := by
  induction n with
  | zero => rfl
  | succ n ih =>
      change bits 8 (UInt8.ofNat (v >>> (8 * n))).toNat ++ byteBits (bigEndian n v) = _
      rw [ih, UInt8.toNat_ofNat', bits_mod (Nat.le_refl 8), Nat.mul_succ, Nat.add_comm, bits_add]

theorem length_padded (bs : List Bool) : (padded bs).length = (bs.length + 7) / 8 * 8 := by
  rw [padded, List.length_append, List.length_replicate]
  omega

/-- Whole bytes in front do not change what is filled in. -/
theorem padded_append {bs : List Bool} (h : bs.length % 8 = 0) (cs : List Bool) :
    padded (bs ++ cs) = bs ++ padded cs := by
  have hlength : (bs ++ cs).length % 8 = cs.length % 8 := by
    rw [List.length_append]
    omega
  rw [padded, padded, hlength, List.append_assoc]

end RebuildTheWheel.Data.BitString
