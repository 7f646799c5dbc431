import Mathlib.Data.List.Basic

namespace RebuildTheWheel.Data

abbrev Bytes := List UInt8

/-- A string in memory, without its NUL. -/
abbrev CString := { s : Bytes // 0 ∉ s }

namespace Ascii

abbrev tab : UInt8 := 9
abbrev newline : UInt8 := 10
abbrev carriageReturn : UInt8 := 13
abbrev space : UInt8 := 32
abbrev quote : UInt8 := 34
abbrev hash : UInt8 := 35
abbrev percent : UInt8 := 37
abbrev asterisk : UInt8 := 42
abbrev plus : UInt8 := 43
abbrev comma : UInt8 := 44
abbrev minus : UInt8 := 45
abbrev point : UInt8 := 46
abbrev slash : UInt8 := 47
abbrev zero : UInt8 := 48
abbrev colon : UInt8 := 58
abbrev question : UInt8 := 63
abbrev upperE : UInt8 := 69
abbrev lbracket : UInt8 := 91
abbrev backslash : UInt8 := 92
abbrev rbracket : UInt8 := 93
abbrev lowerB : UInt8 := 98
abbrev lowerE : UInt8 := 101
abbrev lowerF : UInt8 := 102
abbrev lowerN : UInt8 := 110
abbrev lowerR : UInt8 := 114
abbrev lowerT : UInt8 := 116
abbrev lowerU : UInt8 := 117
abbrev lbrace : UInt8 := 123
abbrev rbrace : UInt8 := 125

def nullText : Bytes := [110, 117, 108, 108]
def falseText : Bytes := [102, 97, 108, 115, 101]
def trueText : Bytes := [116, 114, 117, 101]

def nanText : Bytes := [110, 97, 110]
def infText : Bytes := [105, 110, 102]

def isDigit (b : UInt8) : Bool := 48 ≤ b && b ≤ 57

theorem isDigit_iff {b : UInt8} : isDigit b = true ↔ zero ≤ b ∧ b ≤ 57 := by
  rw [isDigit, Bool.and_eq_true, decide_eq_true_iff, decide_eq_true_iff]

/-- The value of a hexadecimal digit of either case. -/
def hexVal? (b : UInt8) : Option Nat :=
  if 48 ≤ b && b ≤ 57 then some (b.toNat - 48)
  else if 65 ≤ b && b ≤ 70 then some (10 + b.toNat - 65)
  else if 97 ≤ b && b ≤ 102 then some (10 + b.toNat - 97)
  else none

/-- A property of all bytes is decided byte by byte. -/
theorem forall_byte {p : UInt8 → Prop}
    (h : ∀ a < 16, ∀ b < 16, p (UInt8.ofNat (16 * a + b))) (c : UInt8) : p c := by
  have hlt := c.toNat_lt
  have hparts : 16 * (c.toNat / 16) + c.toNat % 16 = c.toNat := Nat.div_add_mod _ 16
  have hc := h (c.toNat / 16) (by omega) (c.toNat % 16) (by omega)
  rwa [hparts, UInt8.ofNat_toNat] at hc

theorem hexVal?_lt : ∀ (c : UInt8), ∀ a ∈ hexVal? c, a < 16 := by
  apply forall_byte
  decide

theorem zero_or_nonzero_digit :
    ∀ d : UInt8, isDigit d = true → d = zero ∨ (d ≠ zero ∧ 49 ≤ d ∧ d ≤ 57) := by
  apply forall_byte
  decide

theorem isDigit_ne_minus {d : UInt8} (h : isDigit d = true) : d ≠ minus := by
  rintro rfl
  exact absurd h (by decide)

end Ascii

end RebuildTheWheel.Data
