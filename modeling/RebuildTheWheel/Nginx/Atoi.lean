import Mathlib.Algebra.Order.Field.Rat
import RebuildTheWheel.Data.Numeral
import RebuildTheWheel.Nginx.Cidr

namespace RebuildTheWheel.Nginx

open Data Data.Ascii Data.Numeral
open Cidr (error)

/-! `ngx_atoi` and its relatives, with every signed operation checked: `none` stands for an
overflow. -/

namespace Atoi

/-- The size of a signed type in bytes, as `auto/types/sizeof` finds it -/
inductive Size where
  | four
  | eight
  deriving DecidableEq, Repr

namespace Size

/-- `NGX_MAX_INT_T_VALUE` and the like -/
def maxValue : Size → Nat
  | four => 2147483647
  | eight => 9223372036854775807

variable (size : Size)

def check (x : Int) : Option Int :=
  if -size.maxValue - 1 ≤ x ∧ x ≤ size.maxValue then some x else none

def cutoff : Int := size.maxValue / 10

def cutlim : Int := size.maxValue % 10

end Size

variable (size : Size)

def decimalLoop (value : Int) : Bytes → Option Int
  | [] => some value
  | c :: line =>
      if c < zero ∨ 57 < c then some error
      else if size.cutoff ≤ value ∧ (size.cutoff < value ∨ size.cutlim < c.toNat - 48) then
        some error
      else do
        let product ← size.check (value * 10)
        let value ← size.check (product + (c.toNat - 48))
        decimalLoop value line

def decimal (line : Bytes) : Option Int := if line = [] then some error else decimalLoop size 0 line

/-- The loop `while (point--)` -/
def scale (value : Int) : Nat → Option Int
  | 0 => some value
  | point + 1 =>
      if size.cutoff < value then some error
      else do
        let value ← size.check (value * 10)
        scale value point

def fixedLoop (value : Int) (dot : Bool) (point : Nat) : Bytes → Option Int
  | [] => scale size value point
  | c :: line =>
      if point = 0 then some error
      else if c = Ascii.point then
        if dot then some error else fixedLoop value true point line
      else if c < zero ∨ 57 < c then some error
      else if size.cutoff ≤ value ∧ (size.cutoff < value ∨ size.cutlim < c.toNat - 48) then
        some error
      else do
        let product ← size.check (value * 10)
        let value ← size.check (product + (c.toNat - 48))
        fixedLoop value dot (point - dot.toNat) line

def hexLoop (value : Int) : Bytes → Option Int
  | [] => some value
  | ch :: line =>
      if size.maxValue / 16 < value then some error
      else if zero ≤ ch ∧ ch ≤ 57 then do
        let product ← size.check (value * 16)
        let value ← size.check (product + (ch.toNat - 48))
        hexLoop value line
      else
        let c := ch ||| 0x20
        if 97 ≤ c ∧ c ≤ 102 then do
          let product ← size.check (value * 16)
          let value ← size.check (product + (c.toNat - 97 + 10))
          hexLoop value line
        else some error

end Atoi

open Atoi

/-- Of `ngx_int_t` -/
def atoi : Size → Bytes → Option Int := decimal

/-- Of `ssize_t` -/
def atosz : Size → Bytes → Option Int := decimal

/-- Of `off_t` -/
def atoof : Size → Bytes → Option Int := decimal

/-- Of `time_t` -/
def atotm : Size → Bytes → Option Int := decimal

def atofp (size : Size) (line : Bytes) (point : Nat) : Option Int :=
  if line = [] then some error else fixedLoop size 0 false point line

def hextoi (size : Size) (line : Bytes) : Option Int :=
  if line = [] then some error else hexLoop size 0 line

namespace Atoi

variable {size : Size}

theorem Size.check_natCast {n : Nat} (h : n ≤ size.maxValue) : size.check n = some (n : Int) :=
  if_pos ⟨by omega, by omega⟩

theorem isDigit_of_not_or {c : UInt8} (h : ¬(c < zero ∨ 57 < c)) : isDigit c = true := by
  rw [not_or, UInt8.not_lt, UInt8.not_lt] at h
  exact isDigit_iff.mpr h

theorem decimal?_of_isDigit {c : UInt8} (h : isDigit c = true) :
    decimal? c = some (Decimal.digitVal c) ∧ (c.toNat : Int) - 48 = Decimal.digitVal c ∧
      Decimal.digitVal c < 10 := by
  rw [decimal?, if_pos h]
  rw [isDigit_iff, UInt8.le_iff_toNat_le, UInt8.le_iff_toNat_le] at h
  obtain ⟨hlow, hhigh⟩ := h
  change 48 ≤ _ at hlow
  change _ ≤ 57 at hhigh
  rw [Decimal.digitVal]
  exact ⟨rfl, by omega, by omega⟩

theorem decimal?_of_or {c : UInt8} (h : c < zero ∨ 57 < c) : decimal? c = none := by
  rw [decimal?, if_neg]
  intro hdigit
  obtain ⟨hlow, hhigh⟩ := isDigit_iff.mp hdigit
  exact h.elim (UInt8.not_lt.mpr hlow) (UInt8.not_lt.mpr hhigh)

/-- The guard before a digit is exact. -/
theorem guard_iff {n d : Nat} (hd : d < 10) :
    (size.cutoff ≤ n ∧ (size.cutoff < n ∨ size.cutlim < (d : Int))) ↔
      ¬(n * 10 + d ≤ size.maxValue) := by
  rw [Size.cutoff, Size.cutlim]
  omega

theorem append_digit {n d : Nat} (h : n * 10 + d ≤ size.maxValue) :
    size.check ((n : Int) * 10) = some (↑(n * 10) : Int) ∧
      size.check ((↑(n * 10) : Int) + d) = some (↑(n * 10 + d) : Int) := by
  have hproduct : ((n : Int) * 10) = ↑(n * 10) := by omega
  have hsum : ((↑(n * 10) : Int) + d) = ↑(n * 10 + d) := by omega
  rw [hproduct, hsum]
  exact ⟨Size.check_natCast (by omega), Size.check_natCast h⟩

theorem decimalLoop_guarded (size : Size) :
    GuardedLoop size.maxValue 10 decimal? (decimalLoop size) where
  nil := fun _ => rfl
  cons := by
    intro n c s _
    rw [decimalLoop]
    by_cases hc : c < zero ∨ 57 < c
    · rw [if_pos hc, decimal?_of_or hc]
    · obtain ⟨hdigit, hvalue, hlt⟩ := decimal?_of_isDigit (isDigit_of_not_or hc)
      rw [if_neg hc, hdigit, hvalue]
      dsimp only
      by_cases hle : n * 10 + Decimal.digitVal c ≤ size.maxValue
      · obtain ⟨hproduct, hsum⟩ := append_digit hle
        rw [if_neg (mt (guard_iff hlt).mp (not_not.mpr hle)), if_pos hle, hproduct]
        simp only [Option.bind_eq_bind, Option.bind_some, hsum]
      · rw [if_pos ((guard_iff hlt).mpr hle), if_neg hle]

theorem scale_spec {n : Nat} (hn : n ≤ size.maxValue) (point : Nat) :
    scale size n point = some (bounded size.maxValue (some (n * 10 ^ point))) := by
  induction point generalizing n with
  | zero => rw [scale, Nat.pow_zero, Nat.mul_one, bounded_some_of_le hn]
  | succ point ih =>
      rw [scale, Nat.pow_succ', ← Nat.mul_assoc]
      by_cases hle : n * 10 ≤ size.maxValue
      · have hguard : ¬size.cutoff < n := by
          rw [Size.cutoff]
          omega
        have hproduct : ((n : Int) * 10) = ↑(n * 10) := by omega
        rw [if_neg hguard, hproduct, Size.check_natCast hle, Option.bind_eq_bind, Option.bind_some,
          ih hle]
      · have hguard : size.cutoff < n := by
          rw [Size.cutoff]
          omega
        have hpos := Nat.pow_pos (n := point) (show 0 < 10 by decide)
        rw [if_pos hguard, bounded_some_of_lt]
        exact Nat.lt_of_lt_of_le (Nat.not_le.mp hle) (Nat.le_mul_of_pos_right _ hpos)

theorem hexVal?_eq : ∀ ch : UInt8, hexVal? ch =
    if zero ≤ ch ∧ ch ≤ 57 then some (ch.toNat - 48)
    else if 97 ≤ ch ||| 0x20 ∧ ch ||| 0x20 ≤ 102 then some ((ch ||| 0x20).toNat - 97 + 10)
    else none := by
  apply forall_byte
  decide

/-- The cutoff leaves room for every digit, as the maximum ends in a digit 15. -/
theorem append_hexDigit {n d : Nat} (hn : ¬(size.maxValue : Int) / 16 < n) (hd : d < 16) :
    n * 16 + d ≤ size.maxValue ∧ size.check ((n : Int) * 16) = some (↑(n * 16) : Int) ∧
      size.check ((↑(n * 16) : Int) + d) = some (↑(n * 16 + d) : Int) := by
  have hmax : size.maxValue % 16 = 15 := by cases size <;> decide
  have hproduct : ((n : Int) * 16) = ↑(n * 16) := by omega
  have hsum : ((↑(n * 16) : Int) + d) = ↑(n * 16 + d) := by omega
  rw [hproduct, hsum]
  exact ⟨by omega, Size.check_natCast (by omega), Size.check_natCast (by omega)⟩

theorem hexLoop_guarded (size : Size) : GuardedLoop size.maxValue 16 hexVal? (hexLoop size) where
  nil := fun _ => rfl
  cons := by
    intro n ch s _
    rw [hexLoop]
    by_cases hcutoff : (size.maxValue : Int) / 16 < n
    · rw [if_pos hcutoff]
      cases hexVal? ch with
      | none => rfl
      | some d =>
          dsimp only
          rw [if_neg (by omega)]
    · rw [if_neg hcutoff, hexVal?_eq]
      by_cases hdigit : zero ≤ ch ∧ ch ≤ 57
      · have hlow := UInt8.le_iff_toNat_le.mp hdigit.1
        have hhigh := UInt8.le_iff_toNat_le.mp hdigit.2
        change 48 ≤ _ at hlow
        change _ ≤ 57 at hhigh
        obtain ⟨hle, hproduct, hsum⟩ := append_hexDigit hcutoff (d := ch.toNat - 48) (by omega)
        have hvalue : (ch.toNat : Int) - 48 = ↑(ch.toNat - 48) := by omega
        rw [if_pos hdigit, if_pos hdigit, hvalue, hproduct]
        simp only [Option.bind_eq_bind, Option.bind_some, hsum, if_pos hle]
      · rw [if_neg hdigit, if_neg hdigit]
        dsimp only
        by_cases hletter : 97 ≤ ch ||| 0x20 ∧ ch ||| 0x20 ≤ 102
        · have hlow := UInt8.le_iff_toNat_le.mp hletter.1
          have hhigh := UInt8.le_iff_toNat_le.mp hletter.2
          change 97 ≤ _ at hlow
          change _ ≤ 102 at hhigh
          obtain ⟨hle, hproduct, hsum⟩ :=
            append_hexDigit hcutoff (d := (ch ||| 0x20).toNat - 97 + 10) (by omega)
          have hvalue : ((ch ||| 0x20).toNat : Int) - 97 + 10 =
              ↑((ch ||| 0x20).toNat - 97 + 10) := by omega
          rw [if_pos hletter, if_pos hletter, hvalue, hproduct]
          simp only [Option.bind_eq_bind, Option.bind_some, hsum, if_pos hle]
        · rw [if_neg hletter, if_neg hletter]

/-! The fixed point numbers. -/

/-- What the loop over the digits of a fixed point number computes behind the dot -/
def behindDot (point n : Nat) (s : Bytes) : Option Nat :=
  if s.length ≤ point then (numeral 10 decimal? n s).map (· * 10 ^ (point - s.length)) else none

/-- The number with `point` digits behind the dot -/
def fixed (point : Nat) : Nat → Bytes → Option Nat
  | n, [] => some (n * 10 ^ point)
  | n, c :: s =>
      if c = Ascii.point then behindDot point n s
      else (decimal? c).bind fun d => fixed point (n * 10 + d) s

theorem le_of_behindDot {point n m : Nat} {s : Bytes} (h : behindDot point n s = some m) :
    n ≤ m := by
  rw [behindDot] at h
  split at h
  · obtain ⟨k, hk, rfl⟩ := Option.map_eq_some_iff.mp h
    have hpos := Nat.pow_pos (n := point - s.length) (show 0 < 10 by decide)
    exact Nat.le_trans (le_of_numeral (by decide) hk) (Nat.le_mul_of_pos_right k hpos)
  · cases h

theorem le_of_fixed {point n m : Nat} {s : Bytes} (h : fixed point n s = some m) : n ≤ m := by
  induction s generalizing n with
  | nil =>
      obtain rfl := Option.some.inj h
      exact Nat.le_mul_of_pos_right n (Nat.pow_pos (by decide))
  | cons c s ih =>
      rw [fixed] at h
      split at h
      · exact le_of_behindDot h
      · obtain ⟨d, -, hs⟩ := Option.bind_eq_some_iff.mp h
        have hle := ih hs
        omega

theorem bounded_of_lt {max n : Nat} {v : Option Nat} (hn : max < n) (h : ∀ m ∈ v, n ≤ m) :
    bounded max v = -1 := by
  cases v with
  | none => rfl
  | some m => exact bounded_some_of_lt (Nat.lt_of_lt_of_le hn (h m rfl))

theorem behindDot_cons {point n d : Nat} {c : UInt8} {s : Bytes} (hc : decimal? c = some d) :
    behindDot (point + 1) n (c :: s) = behindDot point (n * 10 + d) s := by
  rw [behindDot, behindDot, numeral, hc, Option.bind_some, List.length_cons, Nat.add_sub_add_right]
  simp only [Nat.add_le_add_iff_right]

theorem decimal?_point : decimal? Ascii.point = none := by decide

theorem fixedLoop_dot {n point : Nat} (hn : n ≤ size.maxValue) (s : Bytes) :
    fixedLoop size n true point s = some (bounded size.maxValue (behindDot point n s)) := by
  induction s generalizing n point with
  | nil =>
      have hnil : behindDot point n [] = some (n * 10 ^ point) := if_pos (Nat.zero_le point)
      rw [fixedLoop, scale_spec hn, hnil]
  | cons c s ih =>
      rw [fixedLoop]
      cases point with
      | zero =>
          have hnone : behindDot 0 n (c :: s) = none := if_neg (Nat.not_succ_le_zero s.length)
          rw [if_pos rfl, hnone]
          rfl
      | succ point =>
          rw [if_neg (Nat.succ_ne_zero point)]
          by_cases hpoint : c = Ascii.point
          · rw [if_pos hpoint, if_pos rfl, behindDot, numeral, hpoint, decimal?_point]
            split <;> rfl
          by_cases hc : c < zero ∨ 57 < c
          · rw [if_neg hpoint, if_pos hc, behindDot, numeral, decimal?_of_or hc]
            split <;> rfl
          obtain ⟨hdigit, hvalue, hlt⟩ := decimal?_of_isDigit (isDigit_of_not_or hc)
          rw [if_neg hpoint, if_neg hc, hvalue, behindDot_cons hdigit]
          by_cases hle : n * 10 + Decimal.digitVal c ≤ size.maxValue
          · obtain ⟨hproduct, hsum⟩ := append_digit hle
            rw [if_neg (mt (guard_iff hlt).mp (not_not.mpr hle)), hproduct]
            simp only [Option.bind_eq_bind, Option.bind_some, hsum]
            exact ih hle
          · rw [if_pos ((guard_iff hlt).mpr hle),
              bounded_of_lt (Nat.not_le.mp hle) fun m hm => le_of_behindDot hm]

theorem fixedLoop_spec {n point : Nat} (hn : n ≤ size.maxValue) (s : Bytes) :
    fixedLoop size n false (point + 1) s =
      some (bounded size.maxValue (fixed (point + 1) n s)) := by
  induction s generalizing n with
  | nil => exact scale_spec hn _
  | cons c s ih =>
      rw [fixedLoop, if_neg (Nat.succ_ne_zero point), fixed]
      by_cases hpoint : c = Ascii.point
      · rw [if_pos hpoint, if_neg Bool.false_ne_true, if_pos hpoint]
        exact fixedLoop_dot hn s
      rw [if_neg hpoint, if_neg hpoint]
      by_cases hc : c < zero ∨ 57 < c
      · rw [if_pos hc, decimal?_of_or hc]
        rfl
      obtain ⟨hdigit, hvalue, hlt⟩ := decimal?_of_isDigit (isDigit_of_not_or hc)
      rw [if_neg hc, hvalue, hdigit, Option.bind_some]
      by_cases hle : n * 10 + Decimal.digitVal c ≤ size.maxValue
      · obtain ⟨hproduct, hsum⟩ := append_digit hle
        rw [if_neg (mt (guard_iff hlt).mp (not_not.mpr hle)), hproduct]
        simp only [Option.bind_eq_bind, Option.bind_some, hsum]
        exact ih hle
      · rw [if_pos ((guard_iff hlt).mpr hle),
          bounded_of_lt (Nat.not_le.mp hle) fun m hm => le_of_fixed hm]

/-- `v` is the value of the decimal digits. -/
def DecimalText (s : Bytes) (v : Nat) : Prop :=
  s ≠ [] ∧ (∀ c ∈ s, isDigit c) ∧ v = Decimal.value s

/-- `v` is the value of the hexadecimal digits. -/
def HexText (s : Bytes) (v : Nat) : Prop :=
  s ≠ [] ∧ ∃ digits : List Nat, s.map hexVal? = digits.map some ∧ v = Hexadecimal.value digits

/-- Digits with at most one dot and at most `point` of them behind it, whose value times
`10 ^ point` is `v` -/
def FixedText (point : Nat) (s : Bytes) (v : Nat) : Prop :=
  s ≠ [] ∧ ∃ whole frac : Bytes, (∀ c ∈ whole ++ frac, isDigit c) ∧
    (s = whole ∧ frac = [] ∨ s = whole ++ Ascii.point :: frac) ∧ frac.length ≤ point ∧
      (v : ℚ) = (Decimal.value whole + Decimal.value frac / 10 ^ frac.length) * 10 ^ point

/-- No operation overflows, and the result is the number `v` with `p v`, or `NGX_ERROR` if there
is none. -/
def Returns (r : Option Int) (p : Nat → Prop) : Prop :=
  ∃ x, r = some x ∧ (x = error ∨ ∃ v : Nat, x = v) ∧ ∀ v : Nat, x = v ↔ p v

theorem returns_bounded {r : Option Int} {v : Option Nat} {p : Nat → Prop}
    (hr : r = some (bounded size.maxValue v)) (hp : ∀ n, v = some n ↔ p n) :
    Returns r fun n => p n ∧ n ≤ size.maxValue := by
  refine ⟨_, hr, bounded_neg_or _ _, fun n => ?_⟩
  rw [bounded_eq_natCast_iff, hp]

theorem foldl_append_digits (n : Nat) (s : Bytes) :
    s.foldl (fun n c => n * 10 + Decimal.digitVal c) n = n * 10 ^ s.length + Decimal.value s := by
  rw [Decimal.value]
  induction s generalizing n with
  | nil => simp
  | cons c s ih =>
      rw [List.foldl_cons, List.foldl_cons, ih, ih (0 * 10 + _), List.length_cons, Nat.pow_succ']
      ring

theorem decimalText_iff {s : Bytes} {v : Nat} (hs : s ≠ []) :
    numeral 10 decimal? 0 s = some v ↔ DecimalText s v := by
  rw [numeral_decimal_iff, DecimalText, and_iff_right hs]
  rfl

theorem fixed_append {point n : Nat} {whole : Bytes} (hwhole : ∀ c ∈ whole, isDigit c) (s : Bytes) :
    fixed point n (whole ++ s) =
      fixed point (n * 10 ^ whole.length + Decimal.value whole) s := by
  rw [← foldl_append_digits]
  induction whole generalizing n with
  | nil => rfl
  | cons c whole ih =>
      obtain ⟨hc, hwhole⟩ := List.forall_mem_cons.mp hwhole
      have hne : c ≠ Ascii.point := by
        rintro rfl
        exact absurd hc (by decide)
      rw [List.cons_append, fixed, if_neg hne, (decimal?_of_isDigit hc).1, Option.bind_some, ih hwhole]
      rfl

theorem behindDot_digits {point n : Nat} {frac : Bytes} (hfrac : ∀ c ∈ frac, isDigit c)
    (hle : frac.length ≤ point) : behindDot point n frac =
      some ((n * 10 ^ frac.length + Decimal.value frac) * 10 ^ (point - frac.length)) := by
  rw [behindDot, if_pos hle, numeral_decimal_iff.mpr ⟨hfrac, rfl⟩, foldl_append_digits]
  rfl

theorem exists_of_fixed {point n v : Nat} {s : Bytes} (h : fixed point n s = some v) :
    ∃ whole frac : Bytes, (∀ c ∈ whole ++ frac, isDigit c) ∧
      (s = whole ∧ frac = [] ∨ s = whole ++ Ascii.point :: frac) ∧ frac.length ≤ point := by
  induction s generalizing n with
  | nil => exact ⟨[], [], fun c hc => absurd hc List.not_mem_nil, .inl ⟨rfl, rfl⟩, Nat.zero_le _⟩
  | cons c s ih =>
      rw [fixed] at h
      by_cases hpoint : c = Ascii.point
      · rw [if_pos hpoint, behindDot] at h
        by_cases hle : s.length ≤ point
        · rw [if_pos hle] at h
          obtain ⟨m, hm, -⟩ := Option.map_eq_some_iff.mp h
          exact ⟨[], s, (numeral_decimal_iff.mp hm).1, .inr (congrArg (· :: s) hpoint), hle⟩
        · rw [if_neg hle] at h
          cases h
      · rw [if_neg hpoint] at h
        obtain ⟨d, hd, hs⟩ := Option.bind_eq_some_iff.mp h
        obtain ⟨whole, frac, hall, hsplit, hle⟩ := ih hs
        have hc : isDigit c = true := by
          by_contra hnot
          rw [decimal?, if_neg hnot] at hd
          cases hd
        refine ⟨c :: whole, frac, List.forall_mem_cons.mpr ⟨hc, hall⟩, ?_, hle⟩
        exact hsplit.imp (And.imp_left (congrArg (c :: ·))) (congrArg (c :: ·))

theorem fixedText_iff {point v : Nat} {s : Bytes} (hs : s ≠ []) :
    fixed point 0 s = some v ↔ FixedText point s v := by
  have hvalue : ∀ whole frac : Bytes, (∀ c ∈ whole ++ frac, isDigit c) →
      (s = whole ∧ frac = [] ∨ s = whole ++ Ascii.point :: frac) → frac.length ≤ point →
      (fixed point 0 s = some v ↔
        (v : ℚ) = (Decimal.value whole + Decimal.value frac / 10 ^ frac.length) * 10 ^ point) := by
    intro whole frac hall hsplit hle
    obtain ⟨hwhole, hfrac⟩ := List.forall_mem_append.mp hall
    have hfixed : fixed point 0 s = some ((Decimal.value whole * 10 ^ frac.length +
        Decimal.value frac) * 10 ^ (point - frac.length)) := by
      rcases hsplit with ⟨rfl, rfl⟩ | rfl
      · have happend : fixed point 0 (s ++ []) = fixed point _ [] := fixed_append hwhole []
        rw [List.append_nil] at happend
        rw [happend, fixed]
        simp [Decimal.value]
      · rw [fixed_append hwhole, fixed, if_pos rfl, behindDot_digits hfrac hle, Nat.zero_mul,
          Nat.zero_add]
    have hpow : (10 : ℚ) ^ point = 10 ^ frac.length * 10 ^ (point - frac.length) := by
      rw [← pow_add, Nat.add_sub_cancel' hle]
    have hrational : (Decimal.value whole + Decimal.value frac / 10 ^ frac.length : ℚ) * 10 ^ point =
        ((Decimal.value whole * 10 ^ frac.length + Decimal.value frac) *
          10 ^ (point - frac.length) : Nat) := by
      have hne : (10 : ℚ) ^ frac.length ≠ 0 := pow_ne_zero _ (by norm_num)
      rw [hpow]
      push_cast
      field_simp
    rw [hfixed, hrational, Option.some.injEq, Nat.cast_inj, eq_comm]
  constructor
  · intro h
    obtain ⟨whole, frac, hall, hsplit, hle⟩ := exists_of_fixed h
    exact ⟨hs, whole, frac, hall, hsplit, hle, (hvalue whole frac hall hsplit hle).mp h⟩
  · rintro ⟨-, whole, frac, hall, hsplit, hle, hv⟩
    exact (hvalue whole frac hall hsplit hle).mpr hv

theorem hexText_iff {s : Bytes} {v : Nat} (hs : s ≠ []) :
    numeral 16 hexVal? 0 s = some v ↔ HexText s v := by
  rw [numeral_eq_some_iff, HexText, and_iff_right hs]
  rfl

/-- The empty text is refused, every other one is read by the loop. -/
theorem returns_number {line : Bytes} {loop : Option Int} {number : Option Nat} {text : Nat → Prop}
    (hloop : loop = some (bounded size.maxValue number))
    (hnumber : line ≠ [] → ∀ v, number = some v ↔ text v) (hnil : ∀ v, text v → line ≠ []) :
    Returns (if line = [] then some error else loop) fun v => text v ∧ v ≤ size.maxValue := by
  by_cases hline : line = []
  · rw [if_pos hline]
    refine returns_bounded (v := none) rfl fun v => ?_
    exact ⟨fun h => absurd h.symm (Option.some_ne_none v), fun h => absurd hline (hnil v h)⟩
  · rw [if_neg hline]
    exact returns_bounded hloop (hnumber hline)

/-- All of them, on either size of their types -/
theorem atoi_exact (size : Size) (line : Bytes) :
    (∀ f ∈ [atoi, atosz, atoof, atotm],
      Returns (f size line) fun v => DecimalText line v ∧ v ≤ size.maxValue) ∧
    Returns (hextoi size line) (fun v => HexText line v ∧ v ≤ size.maxValue) ∧
    ∀ point, Returns (atofp size line (point + 1))
      fun v => FixedText (point + 1) line v ∧ v ≤ size.maxValue := by
  have hdecimal : Returns (decimal size line) fun v => DecimalText line v ∧ v ≤ size.maxValue :=
    returns_number ((decimalLoop_guarded size).eq (by decide) (Nat.zero_le _) line)
      (fun hline _ => decimalText_iff hline) fun _ h => h.1
  refine ⟨fun f hf => ?_, ?_, fun point => ?_⟩
  · simp only [List.mem_cons, List.not_mem_nil, or_false] at hf
    rcases hf with rfl | rfl | rfl | rfl <;> exact hdecimal
  · exact returns_number ((hexLoop_guarded size).eq (by decide) (Nat.zero_le _) line)
      (fun hline _ => hexText_iff hline) fun _ h => h.1
  · exact returns_number (fixedLoop_spec (Nat.zero_le _) line)
      (fun hline _ => fixedText_iff hline) fun _ h => h.1

/-- With eight bytes this is the function that the other models call. -/
theorem atoi_eight (line : Bytes) : atoi .eight line = some (Cidr.atoi line) := by
  have hloop : ∀ (s : Bytes) (n : Nat), n ≤ Size.eight.maxValue →
      decimalLoop .eight n s = some (Cidr.atoiLoop n s) := by
    intro s
    induction s with
    | nil => exact fun _ _ => rfl
    | cons c s ih =>
        intro n hn
        rw [decimalLoop, Cidr.atoiLoop]
        by_cases hc : c < zero ∨ 57 < c
        · rw [if_pos hc, if_pos hc]
        obtain ⟨-, hvalue, hlt⟩ := decimal?_of_isDigit (isDigit_of_not_or hc)
        have hguard : _ ↔ ¬(n * 10 + Decimal.digitVal c ≤ Size.eight.maxValue) := guard_iff hlt
        rw [if_neg hc, if_neg hc, hvalue]
        by_cases hle : n * 10 + Decimal.digitVal c ≤ Size.eight.maxValue
        · obtain ⟨hproduct, hsum⟩ := append_digit hle
          rw [if_neg (mt hguard.mp (not_not.mpr hle)), hproduct]
          simp only [Option.bind_eq_bind, Option.bind_some, hsum]
          rw [ih _ hle, Nat.cast_add, Nat.cast_mul]
          exact (congrArg some (if_neg (mt hguard.mp (not_not.mpr hle)))).symm
        · rw [if_pos (hguard.mpr hle)]
          exact (congrArg some (if_pos (hguard.mpr hle))).symm
  rw [atoi, decimal, Cidr.atoi]
  split
  · rfl
  · exact hloop line 0 (Nat.zero_le _)

end Atoi

end RebuildTheWheel.Nginx
