import Mathlib.Data.Int.Log
import Mathlib.Data.Rat.Floor
import Mathlib.Algebra.Order.Field.Power
import Mathlib.Tactic.Linarith
import Mathlib.Tactic.NormNum
import Mathlib.Tactic.Positivity

namespace RebuildTheWheel.Data

/-! IEEE 754 binary64 arithmetic, rounding to nearest with ties to even. A
finite value is the rational it denotes, so the two zeros are one value. -/

/-- A significand of at most 53 bits at an exponent binary64 has. -/
def Representable (q : ℚ) : Prop :=
  ∃ m e : ℤ, |m| < 2 ^ 53 ∧ -1074 ≤ e ∧ e ≤ 971 ∧ q = m * 2 ^ e

inductive Binary64 where
  | nan
  | infinity (negative : Bool)
  | finite (q : ℚ) (representable : Representable q)

theorem representable_intCast {n : ℤ} (h : |n| < 2 ^ 53) : Representable n :=
  ⟨n, 0, h, by norm_num, by norm_num, by simp⟩

theorem Representable.neg {q : ℚ} : Representable q → Representable (-q)
  | ⟨m, e, hm, hlow, hhigh, hq⟩ =>
      ⟨-m, e, by rwa [abs_neg], hlow, hhigh, by rw [hq]; push_cast; ring⟩

theorem Representable.abs {q : ℚ} (h : Representable q) : Representable |q| := by
  rcases abs_choice q with hq | hq
  · rwa [hq]
  · rw [hq]
    exact h.neg

theorem Representable.abs_lt {q : ℚ} : Representable q → |q| < 2 ^ 1024
  | ⟨m, e, hm, hlow, hhigh, hq⟩ => by
      have hm' : |(m : ℚ)| < 2 ^ 53 := by exact_mod_cast hm
      have he : (2 : ℚ) ^ e ≤ 2 ^ (971 : ℤ) := zpow_le_zpow_right₀ (by norm_num) hhigh
      rw [hq, abs_mul, abs_of_pos (by positivity : (0 : ℚ) < 2 ^ e)]
      calc |(m : ℚ)| * 2 ^ e < 2 ^ 53 * 2 ^ e := by
            exact mul_lt_mul_of_pos_right hm' (by positivity)
        _ ≤ 2 ^ 53 * 2 ^ (971 : ℤ) := by
            exact mul_le_mul_of_nonneg_left he (by positivity)
        _ = 2 ^ 1024 := by
            rw [← zpow_natCast, ← zpow_natCast, ← zpow_add₀ (by norm_num)]
            norm_num

theorem Representable.le_abs {q : ℚ} (hq0 : q ≠ 0) :
    Representable q → (2 : ℚ) ^ (-1074 : ℤ) ≤ |q|
  | ⟨m, e, hm, hlow, hhigh, hq⟩ => by
      have hm0 : m ≠ 0 := by
        rintro rfl
        exact hq0 (by simpa using hq)
      have hm1 : (1 : ℚ) ≤ |(m : ℚ)| := by exact_mod_cast Int.one_le_abs hm0
      have he : (2 : ℚ) ^ (-1074 : ℤ) ≤ 2 ^ e := zpow_le_zpow_right₀ (by norm_num) hlow
      rw [hq, abs_mul, abs_of_pos (by positivity : (0 : ℚ) < 2 ^ e)]
      calc (2 : ℚ) ^ (-1074 : ℤ) ≤ 2 ^ e := he
        _ ≤ |(m : ℚ)| * 2 ^ e := le_mul_of_one_le_left (by positivity) hm1

/-- Rounding to an integer, ties to even. -/
def roundEven (q : ℚ) : ℤ :=
  if q - ⌊q⌋ < 1 / 2 then ⌊q⌋
  else if 1 / 2 < q - ⌊q⌋ then ⌊q⌋ + 1
  else if ⌊q⌋ % 2 = 0 then ⌊q⌋ else ⌊q⌋ + 1

@[simp] theorem roundEven_intCast (n : ℤ) : roundEven n = n := by
  simp [roundEven]

theorem roundEven_le {q : ℚ} {n : ℤ} (h : q ≤ n) : roundEven q ≤ n := by
  have hfloor : ⌊q⌋ ≤ n := by
    have := Int.floor_le_floor h
    rwa [Int.floor_intCast] at this
  unfold roundEven
  split_ifs with h1 h2 h3
  · exact hfloor
  · rcases hfloor.lt_or_eq with hlt | heq
    · omega
    · rw [heq] at h2
      linarith
  · exact hfloor
  · rcases hfloor.lt_or_eq with hlt | heq
    · omega
    · rw [heq] at h1
      linarith

theorem le_roundEven {q : ℚ} {n : ℤ} (h : (n : ℚ) ≤ q) : n ≤ roundEven q := by
  have hfloor : n ≤ ⌊q⌋ := Int.le_floor.mpr h
  unfold roundEven
  split_ifs <;> omega

namespace Binary64

/-- The exponent of the last place of the doubles around `q`. -/
def ulpExponent (q : ℚ) : ℤ := max (Int.log 2 |q| - 52) (-1074)

/-- The significand `q` rounds to at that exponent. -/
def significand (q : ℚ) : ℤ := roundEven (q / 2 ^ ulpExponent q)

theorem abs_significand_le (q : ℚ) : |significand q| ≤ 2 ^ 53 := by
  have hpos : (0 : ℚ) < 2 ^ ulpExponent q := by positivity
  have hq : |q| < 2 ^ (53 : ℤ) * 2 ^ ulpExponent q := by
    rw [← zpow_add₀ (by norm_num)]
    refine (Int.lt_zpow_succ_log_self (by norm_num : 1 < 2) |q|).trans_le ?_
    apply zpow_le_zpow_right₀ (by norm_num)
    unfold ulpExponent
    omega
  have hdiv : |q / 2 ^ ulpExponent q| ≤ 2 ^ 53 := by
    rw [abs_div, abs_of_pos hpos, div_le_iff₀ hpos]
    exact_mod_cast hq.le
  rw [abs_le] at hdiv ⊢
  exact ⟨le_roundEven (by exact_mod_cast hdiv.1), roundEven_le (by exact_mod_cast hdiv.2)⟩

/-- Above the least exponent the significand uses all its bits. -/
theorem le_abs_significand {q : ℚ} (hq0 : q ≠ 0) (h : -1074 < ulpExponent q) :
    2 ^ 52 ≤ |significand q| := by
  have hpos : (0 : ℚ) < 2 ^ ulpExponent q := by positivity
  have hlog : Int.log 2 |q| = 52 + ulpExponent q := by
    unfold ulpExponent at h ⊢
    omega
  have hdiv : (2 : ℚ) ^ 52 ≤ |q / 2 ^ ulpExponent q| := by
    have hle := Int.zpow_log_le_self (b := 2) (by norm_num) (abs_pos.mpr hq0)
    rw [hlog, Nat.cast_ofNat, zpow_add₀ (by norm_num)] at hle
    rw [abs_div, abs_of_pos hpos, le_div_iff₀ hpos]
    exact_mod_cast hle
  rcases le_abs.mp hdiv with hge | hle
  · exact le_abs.mpr (Or.inl (le_roundEven (by exact_mod_cast hge)))
  · have hbound : significand q ≤ -2 ^ 52 := by
      apply roundEven_le
      push_cast
      linarith
    exact le_abs.mpr (Or.inr (by linarith))

theorem representable_significand {q : ℚ}
    (h : |(significand q : ℚ) * 2 ^ ulpExponent q| < 2 ^ 1024) :
    Representable (significand q * 2 ^ ulpExponent q) := by
  have hlow : -1074 ≤ ulpExponent q := le_max_right _ _
  have habs : |(significand q : ℚ) * 2 ^ ulpExponent q| =
      (|significand q| : ℤ) * 2 ^ ulpExponent q := by
    rw [abs_mul, abs_of_pos (by positivity : (0 : ℚ) < 2 ^ ulpExponent q), Int.cast_abs]
  rw [habs] at h
  have hscale : ∀ k : ℕ, (2 : ℤ) ^ k ≤ |significand q| → ulpExponent q + k < 1024 := by
    intro k hk
    have hk' : (2 : ℚ) ^ (k : ℤ) ≤ (|significand q| : ℤ) := by
      rw [zpow_natCast]
      exact_mod_cast hk
    have hlt : (2 : ℚ) ^ (k + ulpExponent q) < 2 ^ (1024 : ℤ) := by
      rw [zpow_add₀ (by norm_num)]
      exact (mul_le_mul_of_nonneg_right hk' (by positivity)).trans_lt (by exact_mod_cast h)
    have := (zpow_lt_zpow_iff_right₀ (by norm_num : (1 : ℚ) < 2)).mp hlt
    omega
  have hhigh : ulpExponent q ≤ 971 := by
    by_cases hq0 : q = 0
    · subst hq0
      rw [ulpExponent, abs_zero, Int.log_of_right_le_zero 2 le_rfl]
      norm_num
    · by_cases hleast : -1074 < ulpExponent q
      · have := hscale 52 (le_abs_significand hq0 hleast)
        omega
      · omega
  rcases (abs_significand_le q).lt_or_eq with hlt | heq
  · exact ⟨significand q, ulpExponent q, hlt, hlow, hhigh, rfl⟩
  · -- the carry out of the significand moves to the next exponent
    have hnext := hscale 53 heq.ge
    have hcarry : ∀ m : ℤ, significand q = 2 * m → |m| < 2 ^ 53 →
        Representable (significand q * 2 ^ ulpExponent q) := by
      intro m hm hlt
      refine ⟨m, ulpExponent q + 1, hlt, by omega, by omega, ?_⟩
      rw [hm, zpow_add_one₀ (by norm_num)]
      push_cast
      ring
    rcases abs_choice (significand q) with habs | habs
    · exact hcarry (2 ^ 52) (by rw [← habs, heq]; norm_num) (by norm_num)
    · exact hcarry (-2 ^ 52) (by linarith) (by norm_num)

/-- The double nearest to `q`. -/
def round (q : ℚ) : Binary64 :=
  if h : |(significand q : ℚ) * 2 ^ ulpExponent q| < 2 ^ 1024 then
    .finite _ (representable_significand h)
  else .infinity (q < 0)

/-- Rounding at most doubles a value from 1 on. -/
theorem round_eq_finite {q : ℚ} (h1 : 1 ≤ q) (h2 : 2 * q < 2 ^ 1024) :
    ∃ r hr, round q = .finite r hr ∧ r ≤ 2 * q := by
  have hq : |q| = q := abs_of_pos (by linarith)
  have hulp : (2 : ℚ) ^ ulpExponent q ≤ q := by
    have hlog : 0 ≤ Int.log 2 q := by
      rw [← Int.zpow_le_iff_le_log (by norm_num) (by linarith)]
      simpa using h1
    refine le_trans (zpow_le_zpow_right₀ (by norm_num) ?_)
      (Int.zpow_log_le_self (b := 2) (by norm_num) (by linarith))
    unfold ulpExponent
    rw [hq]
    omega
  have hpos : (0 : ℚ) < 2 ^ ulpExponent q := by positivity
  have hnonneg : 0 ≤ significand q :=
    le_roundEven (by rw [Int.cast_zero]; exact div_nonneg (by linarith) hpos.le)
  have hceil : (significand q : ℚ) ≤ q / 2 ^ ulpExponent q + 1 := by
    have hle : significand q ≤ ⌈q / 2 ^ ulpExponent q⌉ := roundEven_le (Int.le_ceil _)
    have hle' : (significand q : ℚ) ≤ ⌈q / 2 ^ ulpExponent q⌉ := by exact_mod_cast hle
    linarith [Int.ceil_lt_add_one (q / 2 ^ ulpExponent q)]
  have hbound : (significand q : ℚ) * 2 ^ ulpExponent q ≤ 2 * q := by
    calc (significand q : ℚ) * 2 ^ ulpExponent q
        ≤ (q / 2 ^ ulpExponent q + 1) * 2 ^ ulpExponent q :=
          mul_le_mul_of_nonneg_right hceil hpos.le
      _ = q + 2 ^ ulpExponent q := by
          rw [add_mul, div_mul_cancel₀ _ hpos.ne', one_mul]
      _ ≤ 2 * q := by linarith
  have hlt : |(significand q : ℚ) * 2 ^ ulpExponent q| < 2 ^ 1024 := by
    rw [abs_of_nonneg (mul_nonneg (by exact_mod_cast hnonneg) hpos.le)]
    exact hbound.trans_lt h2
  exact ⟨_, _, dif_pos hlt, hbound⟩

def ofInt (n : ℤ) : Binary64 := round n

def neg : Binary64 → Binary64
  | .nan => .nan
  | .infinity negative => .infinity !negative
  | .finite q h => .finite (-q) h.neg

def add : Binary64 → Binary64 → Binary64
  | .nan, _ | _, .nan => .nan
  | .infinity a, .infinity b => if a = b then .infinity a else .nan
  | .infinity a, .finite _ _ | .finite _ _, .infinity a => .infinity a
  | .finite p _, .finite q _ => round (p + q)

def sub (a b : Binary64) : Binary64 := add a b.neg

def mul : Binary64 → Binary64 → Binary64
  | .nan, _ | _, .nan => .nan
  | .infinity a, .infinity b => .infinity (a != b)
  | .infinity a, .finite q _ | .finite q _, .infinity a =>
      if q = 0 then .nan else .infinity (a != (decide (q < 0)))
  | .finite p _, .finite q _ => round (p * q)

def abs : Binary64 → Binary64
  | .nan => .nan
  | .infinity _ => .infinity false
  | .finite q h => if q < 0 then .finite (-q) h.neg else .finite q h

def floor : Binary64 → Binary64
  | .finite q _ => round ⌊q⌋
  | d => d

def le : Binary64 → Binary64 → Bool
  | .nan, _ | _, .nan => false
  | .infinity a, .infinity b => a || !b
  | .infinity a, .finite _ _ => a
  | .finite _ _, .infinity b => !b
  | .finite p _, .finite q _ => p ≤ q

def lt : Binary64 → Binary64 → Bool
  | .nan, _ | _, .nan => false
  | .infinity a, .infinity b => a && !b
  | .infinity a, .finite _ _ => a
  | .finite _ _, .infinity b => !b
  | .finite p _, .finite q _ => p < q

def isZero : Binary64 → Bool
  | .finite q _ => q = 0
  | _ => false

/-- `DBL_EPSILON` -/
def epsilon : Binary64 := round (2 ^ (-52 : ℤ))

/-- `pow(10.0, k)` for an integral `k`. -/
def tenPow (k : ℤ) : Binary64 := round (10 ^ k)

/-- Conversion to a 32-bit integer, towards zero. Outside the range the source
language leaves it undefined; the value is then that of the x86 instruction. -/
def toInt32 : Binary64 → Int32
  | .finite q _ =>
      let n := if 0 ≤ q then ⌊q⌋ else ⌈q⌉
      if -2 ^ 31 ≤ n ∧ n < 2 ^ 31 then Int32.ofInt n else Int32.minValue
  | _ => Int32.minValue

/-! Integers of at most 53 bits are doubles, and arithmetic on them is exact. -/

theorem round_intCast {n : ℤ} (h : |n| < 2 ^ 53) :
    round n = .finite n (representable_intCast h) := by
  have hexp : ulpExponent n ≤ 0 := by
    have hlog : Int.log 2 |(n : ℚ)| ≤ 52 := by
      by_cases hn : n = 0
      · simp [hn]
      · have hle := Int.zpow_log_le_self (b := 2) (R := ℚ) (by norm_num)
          (abs_pos.mpr (Int.cast_ne_zero.mpr hn))
        have hn53 : |(n : ℚ)| < 2 ^ (53 : ℤ) := by
          have hcast : ((|n| : ℤ) : ℚ) < 2 ^ (53 : ℤ) := by exact_mod_cast h
          rwa [Int.cast_abs] at hcast
        have hlt : (2 : ℚ) ^ Int.log 2 |(n : ℚ)| < 2 ^ (53 : ℤ) := hle.trans_lt hn53
        have := (zpow_lt_zpow_iff_right₀ (by norm_num : (1 : ℚ) < 2)).mp hlt
        omega
    unfold ulpExponent
    omega
  obtain ⟨k, hk⟩ : ∃ k : ℕ, ulpExponent n = -k := ⟨(-ulpExponent n).toNat, by omega⟩
  have hsig : (significand n : ℚ) * 2 ^ ulpExponent n = n := by
    have hint : (n : ℚ) / 2 ^ ulpExponent n = (n * 2 ^ k : ℤ) := by
      rw [hk, zpow_neg, zpow_natCast, div_inv_eq_mul]
      push_cast
      rfl
    rw [significand, hint, roundEven_intCast, hk, zpow_neg, zpow_natCast]
    push_cast
    field_simp
  have hlt : |(significand n : ℚ) * 2 ^ ulpExponent n| < 2 ^ 1024 := by
    rw [hsig]
    exact (representable_intCast h).abs_lt
  rw [round, dif_pos hlt]
  congr

theorem ofInt_eq {n : ℤ} (h : |n| < 2 ^ 53) :
    ofInt n = .finite n (representable_intCast h) :=
  round_intCast h

theorem finite_congr {p q : ℚ} (hpq : p = q) {hp : Representable p} {hq : Representable q} :
    finite p hp = finite q hq := by
  subst hpq
  rfl

theorem add_ofInt {m n : ℤ} (hm : |m| < 2 ^ 53) (hn : |n| < 2 ^ 53) :
    add (ofInt m) (ofInt n) = ofInt (m + n) := by
  rw [ofInt_eq hm, ofInt_eq hn, add, ofInt]
  push_cast
  rfl

theorem mul_ofInt {m n : ℤ} (hm : |m| < 2 ^ 53) (hn : |n| < 2 ^ 53) :
    mul (ofInt m) (ofInt n) = ofInt (m * n) := by
  rw [ofInt_eq hm, ofInt_eq hn, mul, ofInt]
  push_cast
  rfl

theorem abs_finite {q : ℚ} (h : Representable q) : abs (.finite q h) = .finite |q| h.abs := by
  rw [abs]
  split
  · next hq => exact finite_congr (abs_of_neg hq).symm
  · next hq => exact finite_congr (abs_of_nonneg (not_lt.mp hq)).symm

theorem sub_self_ofInt {n : ℤ} (hn : |n| < 2 ^ 53) : sub (ofInt n) (ofInt n) = ofInt 0 := by
  rw [ofInt_eq hn, sub, neg, add, add_neg_cancel, ofInt, Int.cast_zero]

theorem isZero_ofInt {n : ℤ} (hn : |n| < 2 ^ 53) : isZero (ofInt n) = decide (n = 0) := by
  rw [ofInt_eq hn, isZero]
  simp only [Int.cast_eq_zero]

theorem abs_ofInt_zero : abs (ofInt 0) = ofInt 0 := by
  rw [ofInt_eq (by norm_num), abs]
  exact if_neg (by simp)

theorem le_ofInt {m n : ℤ} (hm : |m| < 2 ^ 53) (hn : |n| < 2 ^ 53) :
    le (ofInt m) (ofInt n) = decide (m ≤ n) := by
  rw [ofInt_eq hm, ofInt_eq hn, le]
  simp only [Int.cast_le]

theorem zero_le_round {q : ℚ} (hq : 0 ≤ q) : le (ofInt 0) (round q) = true := by
  have hsig : 0 ≤ significand q :=
    le_roundEven (by rw [Int.cast_zero]; exact div_nonneg hq (by positivity))
  have hvalue : (0 : ℚ) ≤ significand q * 2 ^ ulpExponent q :=
    mul_nonneg (by exact_mod_cast hsig) (by positivity)
  rw [ofInt_eq (by norm_num), round]
  split
  · simpa [le] using hvalue
  · simpa [le] using hq

theorem tenPow_zero : tenPow 0 = ofInt 1 := by
  simp [tenPow, ofInt]

theorem abs_toInt_lt (n : Int32) : |n.toInt| < 2 ^ 53 := by
  have hlow := Int32.le_toInt n
  have hhigh := Int32.toInt_lt n
  rw [abs_lt]
  constructor <;> omega

theorem toInt32_ofInt (n : Int32) : toInt32 (ofInt n.toInt) = n := by
  rw [ofInt_eq (abs_toInt_lt n), toInt32, Int.floor_intCast, Int.ceil_intCast, ite_self,
    Int32.ofInt_toInt]
  exact if_pos ⟨Int32.le_toInt n, Int32.toInt_lt n⟩

end Binary64

end RebuildTheWheel.Data
