import Mathlib.Data.BitVec
import Mathlib.Order.Basic

namespace RebuildTheWheel.Data

/-! Words that count in a cycle. No order agrees with the sign of a difference on the whole cycle,
but on a window of less than half of it the distance from the start of the window does. -/

namespace CyclicWindow

variable {w : Nat} {base k k' : BitVec w} {n : Nat}

def offset (base k : BitVec w) : Nat := (k - base).toNat

/-- `k` comes before `k'`, when the two are not far apart. -/
def Precedes (k k' : BitVec w) : Prop := (k - k').toInt < 0

instance (k k' : BitVec w) : Decidable (Precedes k k') :=
  inferInstanceAs (Decidable ((k - k').toInt < 0))

theorem offset_injective (base : BitVec w) : Function.Injective (offset base) := by
  intro k k' h
  have hsub : k - base = k' - base := BitVec.eq_of_toNat_eq h
  have hadd := congrArg (· + base) hsub
  simpa [BitVec.sub_add_cancel] using hadd

/-- The order of the words from `base` on. -/
abbrev windowOrder (base : BitVec w) : LinearOrder (BitVec w) :=
  LinearOrder.lift' (offset base) (offset_injective base)

theorem toInt_sub_of_small {x y : BitVec w} (hx : x.toNat < 2 ^ (w - 1))
    (hy : y.toNat < 2 ^ (w - 1)) :
    (x - y).toInt = (x.toNat : Int) - y.toNat := by
  cases w with
  | zero =>
      obtain rfl := BitVec.eq_nil x
      obtain rfl := BitVec.eq_nil y
      rfl
  | succ w =>
      have hpow : 2 ^ (w + 1) = 2 * 2 ^ w := Nat.pow_succ'
      rw [Nat.add_sub_cancel] at hx hy
      rw [BitVec.toInt_sub, BitVec.toInt_eq_toNat_of_lt (by omega),
        BitVec.toInt_eq_toNat_of_lt (by omega)]
      exact Int.bmod_eq_of_le_mul_two (by omega) (by omega)

theorem precedes_iff (hn : n ≤ 2 ^ (w - 1)) (hk : offset base k < n) (hk' : offset base k' < n) :
    Precedes k k' ↔ offset base k < offset base k' := by
  have hdiff := toInt_sub_of_small (lt_of_lt_of_le hk hn) (lt_of_lt_of_le hk' hn)
  rw [sub_sub_sub_cancel_right] at hdiff
  rw [Precedes, hdiff, offset, offset]
  omega

end CyclicWindow

end RebuildTheWheel.Data
