import Mathlib.Data.Nat.Digits.Defs
import Mathlib.Data.Nat.Digits.Lemmas
import RebuildTheWheel.Data.Ascii
import RebuildTheWheel.Data.Binary64

namespace RebuildTheWheel.Data

/-! Decimal texts as C's formatted output writes them. -/

namespace Decimal

open Ascii

def digitByte (d : Nat) : UInt8 := UInt8.ofNat (48 + d)

def digitVal (b : UInt8) : Nat := b.toNat - 48

def value (digits : Bytes) : Nat :=
  digits.foldl (fun n b => n * 10 + digitVal b) 0

def decimal (n : Nat) : Bytes :=
  if n = 0 then [48] else (Nat.digits 10 n).reverse.map digitByte

/-- `%d` -/
def signed (z : ℤ) : Bytes :=
  if z < 0 then 45 :: decimal z.natAbs else decimal z.natAbs

def hexByte (d : Nat) : UInt8 := UInt8.ofNat (if d < 10 then 48 + d else 87 + d)

/-- `%04x` for a value of at most 16 bits -/
def hex4 (n : Nat) : Bytes :=
  [hexByte (n / 4096 % 16), hexByte (n / 256 % 16), hexByte (n / 16 % 16), hexByte (n % 16)]

theorem digitVal_digitByte {d : Nat} (h : d < 10) : digitVal (digitByte d) = d := by
  simp only [digitVal, digitByte, UInt8.toNat_ofNat']
  omega

theorem isDigit_digitByte {d : Nat} (h : d < 10) : isDigit (digitByte d) = true := by
  simp only [isDigit, digitByte, Bool.and_eq_true, decide_eq_true_eq, UInt8.le_iff_toNat_le,
    UInt8.toNat_ofNat']
  change 48 ≤ (48 + d) % 2 ^ 8 ∧ (48 + d) % 2 ^ 8 ≤ 57
  omega

theorem isDigit_of_mem_decimal {n : Nat} {b : UInt8} (hb : b ∈ decimal n) :
    isDigit b = true := by
  unfold decimal at hb
  split at hb
  · obtain rfl := List.mem_singleton.mp hb
    rfl
  · obtain ⟨d, hd, rfl⟩ := List.mem_map.mp hb
    exact isDigit_digitByte (Nat.digits_lt_base (by norm_num) (List.mem_reverse.mp hd))

theorem value_decimal (n : Nat) : value (decimal n) = n := by
  unfold decimal
  split
  · next h => simp [h, value, digitVal]
  · have hfold : ∀ ds : List Nat, (∀ d ∈ ds, d < 10) →
        value (ds.reverse.map digitByte) = Nat.ofDigits 10 ds := by
      intro ds hds
      rw [value, List.foldl_map, List.foldl_reverse]
      induction ds with
      | nil => rfl
      | cons d ds ih =>
          rw [List.foldr_cons, ih fun d' hd' => hds d' (List.mem_cons_of_mem _ hd'),
            digitVal_digitByte (hds d List.mem_cons_self), Nat.ofDigits_cons]
          ring
    rw [hfold _ fun d hd => Nat.digits_lt_base (by norm_num) hd, Nat.ofDigits_digits]

theorem decimal_ne_nil (n : Nat) : decimal n ≠ [] := by
  unfold decimal
  split
  · simp
  · next h => simpa [Nat.digits_eq_nil_iff_eq_zero] using h

theorem length_decimal_le {n k : Nat} (hk : 0 < k) (h : n < 10 ^ k) :
    (decimal n).length ≤ k := by
  unfold decimal
  split
  · exact hk
  · rw [List.length_map, List.length_reverse]
    exact (Nat.digits_length_le_iff (by norm_num) n).mpr h

/-- The first digit of a positive number is not zero. -/
theorem head?_decimal_ne {n : Nat} (hn : n ≠ 0) : (decimal n).head? ≠ some 48 := by
  rw [decimal, if_neg hn, List.head?_map, List.head?_reverse,
    List.getLast?_eq_some_getLast (Nat.digits_ne_nil_iff_ne_zero.mpr hn), Option.map_some]
  intro h
  have hlast := Nat.getLast_digit_ne_zero 10 hn
  have hlt := Nat.digits_lt_base (b := 10) (m := n) (by norm_num)
    (List.getLast_mem (Nat.digits_ne_nil_iff_ne_zero.mpr hn))
  have hval := congrArg digitVal (Option.some.inj h)
  rw [digitVal_digitByte hlt] at hval
  exact hlast (by simpa [digitVal] using hval)

def sign (q : ℚ) : Bytes := if q < 0 then [45] else []

def padLeft (width : Nat) (digits : Bytes) : Bytes :=
  List.replicate (width - digits.length) 48 ++ digits

/-- `%.<precision>f` -/
def fixed (precision : Nat) (q : ℚ) : Bytes :=
  let scaled := (roundEven (|q| * 10 ^ precision)).toNat
  sign q ++ decimal (scaled / 10 ^ precision) ++
    if precision = 0 then []
    else 46 :: padLeft precision (decimal (scaled % 10 ^ precision))

/-- `%e`: seven significant digits, one of them before the point. -/
def scientific (q : ℚ) : Bytes :=
  let exponent := Int.log 10 |q|
  let scaled := (roundEven (|q| / 10 ^ (exponent - 6))).toNat
  let (scaled, exponent) :=
    if scaled = 10 ^ 7 then (10 ^ 6, exponent + 1) else (scaled, exponent)
  sign q ++ decimal (scaled / 10 ^ 6) ++ 46 :: padLeft 6 (decimal (scaled % 10 ^ 6)) ++
    101 :: (if exponent < 0 then 45 else 43) :: padLeft 2 (decimal exponent.natAbs)

theorem length_sign_le (q : ℚ) : (sign q).length ≤ 1 := by
  unfold sign
  split <;> simp

theorem length_padLeft (width : Nat) (digits : Bytes) :
    (padLeft width digits).length = max width digits.length := by
  simp only [padLeft, List.length_append, List.length_replicate]
  omega

theorem length_padLeft_decimal {width n : Nat} (hwidth : 0 < width) (h : n < 10 ^ width) :
    (padLeft width (decimal n)).length = width := by
  rw [length_padLeft, max_eq_left (length_decimal_le hwidth h)]

theorem length_fixed_le {precision k n : Nat} {q : ℚ} (hk : 0 < k)
    (hq : |q| * 10 ^ precision ≤ n) (hn : n < 10 ^ (k + precision)) :
    (fixed precision q).length ≤ 1 + k + if precision = 0 then 0 else precision + 1 := by
  have hscaled : (roundEven (|q| * 10 ^ precision)).toNat ≤ n :=
    Int.toNat_le.mpr (roundEven_le (by exact_mod_cast hq))
  have hint : (decimal ((roundEven (|q| * 10 ^ precision)).toNat / 10 ^ precision)).length ≤ k := by
    apply length_decimal_le hk
    rw [Nat.div_lt_iff_lt_mul (by positivity), ← pow_add]
    omega
  have hsign := length_sign_le q
  simp only [fixed, List.length_append]
  split
  · simp only [List.length_nil]
    omega
  · next hprec =>
      rw [List.length_cons, length_padLeft_decimal (Nat.pos_of_ne_zero hprec)
        (Nat.mod_lt _ (by positivity))]
      omega

theorem two_zpow_lt : (2 : ℚ) ^ (1088 : ℤ) < 10 ^ (384 : ℤ) := by
  rw [show (1088 : ℤ) = (17 * 64 : ℕ) from rfl, show (384 : ℤ) = (6 * 64 : ℕ) from rfl,
    zpow_natCast, zpow_natCast, pow_mul, pow_mul]
  exact pow_lt_pow_left₀ (by norm_num) (by norm_num) (by norm_num)

theorem log_bounds {q : ℚ} (h : Representable q) (hq : q ≠ 0) :
    -400 < Int.log 10 |q| ∧ Int.log 10 |q| < 400 := by
  have hpos : 0 < |q| := abs_pos.mpr hq
  constructor
  · have hlt := Int.lt_zpow_succ_log_self (b := 10) (by norm_num) |q|
    have hle := h.le_abs hq
    have hsmall : (10 : ℚ) ^ (-384 : ℤ) < 2 ^ (-1074 : ℤ) := by
      refine lt_of_lt_of_le ?_ (zpow_le_zpow_right₀ (by norm_num) (by norm_num : -1088 ≤ -1074))
      rw [zpow_neg, zpow_neg]
      exact inv_strictAnti₀ (by positivity) two_zpow_lt
    have := (zpow_lt_zpow_iff_right₀ (by norm_num : (1 : ℚ) < 10)).mp
      ((hsmall.trans_le hle).trans hlt)
    omega
  · have hle := Int.zpow_log_le_self (b := 10) (by norm_num) hpos
    have hbig : (2 : ℚ) ^ 1024 < 10 ^ (384 : ℤ) := by
      rw [← zpow_natCast]
      exact lt_of_le_of_lt (zpow_le_zpow_right₀ (by norm_num) (by norm_num)) two_zpow_lt
    have := (zpow_lt_zpow_iff_right₀ (by norm_num : (1 : ℚ) < 10)).mp
      ((hle.trans_lt h.abs_lt).trans hbig)
    omega

theorem length_scientific_le {q : ℚ} (h : Representable q) (hq : q ≠ 0) :
    (scientific q).length ≤ 14 := by
  obtain ⟨hlow, hhigh⟩ := log_bounds h hq
  have hscaled : (roundEven (|q| / 10 ^ (Int.log 10 |q| - 6))).toNat ≤ 10 ^ 7 := by
    apply Int.toNat_le.mpr
    apply roundEven_le
    rw [div_le_iff₀ (by positivity)]
    have hlt := Int.lt_zpow_succ_log_self (b := 10) (by norm_num) |q|
    refine hlt.le.trans (le_of_eq ?_)
    rw [show Int.log 10 |q| + 1 = 7 + (Int.log 10 |q| - 6) by ring, Nat.cast_ofNat,
      zpow_add₀ (by norm_num)]
    norm_num
  -- after the carry the leading digit is a digit and the exponent has three
  have hbody : ∀ (scaled : Nat) (exponent : ℤ), scaled < 10 ^ 7 → exponent.natAbs < 10 ^ 3 →
      (sign q ++ decimal (scaled / 10 ^ 6) ++ 46 :: padLeft 6 (decimal (scaled % 10 ^ 6)) ++
        101 :: (if exponent < 0 then 45 else 43) ::
          padLeft 2 (decimal exponent.natAbs)).length ≤ 14 := by
    intro scaled exponent hs he
    have hsign := length_sign_le q
    have hlead : (decimal (scaled / 10 ^ 6)).length ≤ 1 :=
      length_decimal_le (by norm_num) (by omega)
    have hexp := length_decimal_le (k := 3) (by norm_num) he
    simp only [List.length_append, List.length_cons, length_padLeft]
    rw [max_eq_left (length_decimal_le (by norm_num) (Nat.mod_lt _ (by positivity)))]
    omega
  simp only [scientific]
  split
  · exact hbody _ _ (by norm_num) (by omega)
  · exact hbody _ _ (by omega) (by omega)

/-! No text has a NUL in it. -/

theorem nul_not_mem_decimal (n : Nat) : 0 ∉ decimal n := by
  intro h
  exact absurd (isDigit_of_mem_decimal h) (by decide)

theorem nul_not_mem_signed (z : ℤ) : 0 ∉ signed z := by
  unfold signed
  split <;> simp [nul_not_mem_decimal]

theorem nul_not_mem_sign (q : ℚ) : 0 ∉ sign q := by
  unfold sign
  split <;> simp

theorem nul_not_mem_padLeft (width n : Nat) : 0 ∉ padLeft width (decimal n) := by
  simp [padLeft, nul_not_mem_decimal]

theorem nul_not_mem_fixed (precision : Nat) (q : ℚ) : 0 ∉ fixed precision q := by
  simp only [fixed, List.mem_append, not_or]
  refine ⟨⟨nul_not_mem_sign q, nul_not_mem_decimal _⟩, ?_⟩
  split
  · simp
  · simp [nul_not_mem_padLeft]

theorem nul_not_mem_scientific (q : ℚ) : 0 ∉ scientific q := by
  have hsign : ∀ z : ℤ, (0 : UInt8) ≠ if z < 0 then 45 else 43 := by
    intro z
    split <;> decide
  simp [scientific, nul_not_mem_sign, nul_not_mem_decimal, nul_not_mem_padLeft, hsign]

theorem length_signed_le (n : Int32) : (signed n.toInt).length ≤ 11 := by
  have hlow := Int32.le_toInt n
  have hhigh := Int32.toInt_lt n
  have hdigits : (decimal n.toInt.natAbs).length ≤ 10 :=
    length_decimal_le (by norm_num) (by omega)
  unfold signed
  split
  · rw [List.length_cons]
    omega
  · omega

end Decimal

end RebuildTheWheel.Data

namespace RebuildTheWheel.Data

/-! Hexadecimal texts as C's formatted output writes them. -/

namespace Hexadecimal

open Ascii Decimal

/-- `%x` -/
def hexadecimal (n : Nat) : Bytes :=
  if n = 0 then [48] else (Nat.digits 16 n).reverse.map hexByte

def value (digits : List Nat) : Nat := digits.foldl (fun n d => n * 16 + d) 0

variable {n k : Nat}

/-- The digits, and the number that they stand for -/
theorem exists_digits (n : Nat) :
    ∃ digits : List Nat, hexadecimal n = digits.map hexByte ∧ digits ≠ [] ∧
      (∀ d ∈ digits, d < 16) ∧ value digits = n ∧ ∀ k, 0 < k → n < 16 ^ k → digits.length ≤ k := by
  unfold hexadecimal
  split_ifs with hn
  · exact ⟨[0], rfl, List.cons_ne_nil _ _, by simp, hn.symm, fun k hk _ => hk⟩
  · refine ⟨(Nat.digits 16 n).reverse, rfl, ?_, fun d hd => ?_, ?_, fun k _ hk => ?_⟩
    · rw [ne_eq, List.reverse_eq_nil_iff, Nat.digits_eq_nil_iff_eq_zero]
      exact hn
    · exact Nat.digits_lt_base (by decide) (List.mem_reverse.mp hd)
    · have hfold : ∀ ds : List Nat, value ds.reverse = Nat.ofDigits 16 ds := by
        intro ds
        rw [value, List.foldl_reverse]
        induction ds with
        | nil => rfl
        | cons d ds ih =>
            rw [List.foldr_cons, ih, Nat.ofDigits_cons, Nat.mul_comm, Nat.add_comm]
      rw [hfold, Nat.ofDigits_digits]
    · rw [List.length_reverse]
      exact (Nat.digits_length_le_iff (by decide) n).mpr hk

theorem length_hexadecimal_le (hk : 0 < k) (h : n < 16 ^ k) : (hexadecimal n).length ≤ k := by
  obtain ⟨digits, heq, _, _, _, hlength⟩ := exists_digits n
  rw [heq, List.length_map]
  exact hlength k hk h

end Hexadecimal

end RebuildTheWheel.Data
