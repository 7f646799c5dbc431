import Mathlib.Algebra.Group.Nat.Defs
import Mathlib.Data.List.Basic
import RebuildTheWheel.Data.Ascii

namespace RebuildTheWheel.Data

/-! UTF-8 from 0x80 on, with the encodings that surrogates would have. -/

namespace Utf8Encoding

/-- The `k`th digit of a value, in base 64. -/
def tail (v k : Nat) : UInt8 := UInt8.ofNat (0x80 + v / 64 ^ k % 64)

def tails (v : Nat) : Nat → Bytes
  | 0 => []
  | k + 1 => tail v k :: tails v k

/-- The mark of a lead byte with `k` bytes behind it. -/
def mark : Nat → Nat
  | 1 => 0xc0
  | 2 => 0xe0
  | _ => 0xf0

/-- How many bytes follow the lead byte. -/
def trail (v : Nat) : Nat := if v < 0x800 then 1 else if v < 0x10000 then 2 else 3

def encode (v : Nat) : Bytes :=
  UInt8.ofNat (mark (trail v) + v / 64 ^ trail v) :: tails v (trail v)

def IsTail (b : UInt8) : Prop := 0x80 ≤ b ∧ b < 0xc0

instance (b : UInt8) : Decidable (IsTail b) := inferInstanceAs (Decidable (_ ∧ _))

/-- The value of the digits of tails, behind the bits `u`. -/
def value (u : Nat) (p : Bytes) : Nat := p.foldl (fun u b => u * 64 + b.toNat % 64) u

theorem length_tails (v : Nat) : ∀ k, (tails v k).length = k
  | 0 => rfl
  | k + 1 => congrArg Nat.succ (length_tails v k)

theorem length_encode (v : Nat) : (encode v).length = trail v + 1 :=
  congrArg Nat.succ (length_tails v _)

theorem toNat_tail (v k : Nat) : (tail v k).toNat = 0x80 + v / 64 ^ k % 64 := by
  rw [tail, UInt8.toNat_ofNat_of_lt']
  have hlt := Nat.mod_lt (v / 64 ^ k) (show 0 < 64 by decide)
  change _ < 256
  omega

theorem isTail_tail (v k : Nat) : IsTail (tail v k) := by
  have hlt := Nat.mod_lt (v / 64 ^ k) (show 0 < 64 by decide)
  rw [IsTail, UInt8.le_iff_toNat_le, UInt8.lt_iff_toNat_lt, toNat_tail]
  constructor
  · change 128 ≤ _
    omega
  · change _ < 192
    omega

theorem isTail_of_mem_tails {v k : Nat} {b : UInt8} (h : b ∈ tails v k) : IsTail b := by
  induction k with
  | zero => cases h
  | succ k ih =>
      rcases List.mem_cons.mp h with rfl | h
      · exact isTail_tail v k
      · exact ih h

theorem tail_eq_iff {v k : Nat} {b : UInt8} (h : IsTail b) :
    b = tail v k ↔ b.toNat % 64 = v / 64 ^ k % 64 := by
  rw [IsTail, UInt8.le_iff_toNat_le, UInt8.lt_iff_toNat_lt] at h
  obtain ⟨hge, hlt⟩ := h
  change 128 ≤ _ at hge
  change _ < 192 at hlt
  rw [← UInt8.toNat_inj, toNat_tail]
  omega

/-- Only the digits of a value have that value. -/
theorem value_eq_iff {v u : Nat} {p : Bytes} (h : ∀ b ∈ p, IsTail b) :
    value u p = v ↔ u = v / 64 ^ p.length ∧ p = tails v p.length := by
  induction p generalizing u with
  | nil =>
      rw [List.length_nil, Nat.pow_zero, Nat.div_one]
      exact (and_iff_left rfl).symm
  | cons b p ih =>
      obtain ⟨hb, hp⟩ := List.forall_mem_cons.mp h
      have hdigit : u * 64 + b.toNat % 64 = v / 64 ^ p.length ↔
          u = v / 64 ^ (p.length + 1) ∧ b.toNat % 64 = v / 64 ^ p.length % 64 := by
        rw [Nat.pow_succ, ← Nat.div_div_eq_div_mul]
        omega
      change value (u * 64 + b.toNat % 64) p = v ↔ _
      rw [ih hp, hdigit, List.length_cons, tails, List.cons.injEq, tail_eq_iff hb, and_assoc]

theorem trail_le (v : Nat) : 1 ≤ trail v ∧ trail v ≤ 3 := by
  unfold trail
  split_ifs <;> decide

/-- The least and the greatest value with `k` bytes behind the lead byte -/
theorem trail_eq_iff {v k : Nat} (hk : 1 ≤ k ∧ k ≤ 3) :
    trail v = k ↔ (k = 1 ∨ 2 ^ (5 * k + 1) ≤ v) ∧ (k = 3 ∨ v < 2 ^ (5 * k + 6)) := by
  unfold trail
  obtain rfl | rfl | rfl : k = 1 ∨ k = 2 ∨ k = 3 := by omega
  · split_ifs <;> simp <;> omega
  · split_ifs <;> simp <;> omega
  · split_ifs <;> simp <;> omega

theorem lt_of_char (c : Char) : c.toNat < 0x110000 := by
  have hvalid := c.valid
  simp only [UInt32.isValidChar, Nat.isValidChar] at hvalid
  change c.val.toNat < _
  omega

/-- The surrogates have no character. -/
theorem exists_char_iff {v : Nat} :
    (∃ c : Char, c.toNat = v) ↔ v < 0xd800 ∨ 0xdfff < v ∧ v < 0x110000 := by
  constructor
  · rintro ⟨c, rfl⟩
    exact c.valid
  · intro h
    exact ⟨Char.ofNatAux v h, rfl⟩

/-- The encoding of a character -/
theorem encode_toNat {c : Char} (h : 0x80 ≤ c.toNat) : encode c.toNat = String.utf8EncodeChar c := by
  have hlt := lt_of_char c
  change c.val.toNat < _ at hlt
  change 0x80 ≤ c.val.toNat at h
  change encode c.val.toNat = _
  unfold String.utf8EncodeChar
  revert h hlt
  generalize c.val.toNat = v
  intro h hlt
  rw [if_neg (by omega)]
  by_cases htwo : v < 0x800
  · have hlead : 0xc0 + v / 64 = v / 64 % 0x20 + 0xc0 := by omega
    rw [if_pos (by omega), encode, trail, if_pos htwo]
    simp only [tails, tail, mark, Nat.reducePow, Nat.div_one, Nat.add_comm 0x80, hlead]
  by_cases hthree : v < 0x10000
  · have hlead : 0xe0 + v / 4096 = v / 4096 % 0x10 + 0xe0 := by omega
    rw [if_neg (by omega), if_pos (by omega), encode, trail, if_neg htwo, if_pos hthree]
    simp only [tails, tail, mark, Nat.reducePow, Nat.div_one, Nat.add_comm 0x80, hlead]
  · have hlead : 0xf0 + v / 262144 = v / 262144 % 0x08 + 0xf0 := by omega
    rw [if_neg (by omega), if_neg (by omega), encode, trail, if_neg htwo, if_neg hthree]
    simp only [tails, tail, mark, Nat.reducePow, Nat.div_one, Nat.add_comm 0x80, hlead]

end Utf8Encoding

end RebuildTheWheel.Data
