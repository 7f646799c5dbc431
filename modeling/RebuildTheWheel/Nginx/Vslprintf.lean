import Mathlib.Algebra.Group.Nat.Defs
import RebuildTheWheel.Data.Ascii

namespace RebuildTheWheel.Nginx

open Data Data.Ascii

/-! `ngx_vslprintf` and `ngx_sprintf_num` on a 64-bit system. -/

/-- What `va_arg` reads; none is a `double`, so there is no `%f`. -/
inductive PrintArg where
  /-- `ngx_str_t *` -/
  | string (data : Bytes)
  /-- `ngx_variable_value_t *` -/
  | variable (data : Bytes)
  /-- `u_char *`, with what may be read there -/
  | chars (data : Bytes)
  | int32 (x : UInt32)
  | int64 (x : UInt64)

inductive PrintFault where
  /-- `va_arg` with another type -/
  | argument
  /-- A string is read behind its end. -/
  | string
  /-- The format is read behind its end. -/
  | format
  /-- A write at or beyond `last`, or in front of `temp` -/
  | outside
  deriving DecidableEq

inductive Hexadecimal where
  | no
  | lower
  | upper
  deriving DecidableEq

namespace Vslprintf

abbrev Result := Except PrintFault

/-- The variables that a conversion begins with -/
structure Directive where
  zero : UInt8
  width : UInt64
  sign : Bool
  hex : Hexadecimal
  maxWidth : Bool
  slen : UInt64

/-- `NGX_INT64_LEN` -/
abbrev int64Len : Nat := 20

/-! `ngx_sprintf_num` -/

def radix : Hexadecimal → Nat
  | .no => 10
  | _ => 16

def digit : Hexadecimal → Nat → UInt8
  | .no, d => UInt8.ofNat (d + 48)
  | .lower, d => "0123456789abcdef".toUTF8.data.toList.getD d 0
  | .upper, d => "0123456789ABCDEF".toUTF8.data.toList.getD d 0

theorem div_radix_lt {hex : Hexadecimal} {x : Nat} (h : x / radix hex ≠ 0) :
    x / radix hex < x := by
  have hradix : 1 < radix hex := by cases hex <;> decide
  exact Nat.div_lt_self (Nat.pos_of_ne_zero fun hx => h (by rw [hx, Nat.zero_div])) hradix

/-- The loops `do { *--p = ... } while (ui64)`, with the bytes from `p` on -/
def digits (hex : Hexadecimal) (x : Nat) (temp : Bytes) : Result Bytes :=
  if temp.length < int64Len then
    let temp := digit hex (x % radix hex) :: temp
    if _h : x / radix hex ≠ 0 then digits hex (x / radix hex) temp else return temp
  else throw .outside
termination_by x
decreasing_by exact div_radix_lt _h

/-- `while (len++ < width && buf < last)` -/
def pad (n : Nat) (zero : UInt8) (width len : Nat) (out : Bytes) : Bytes :=
  if len < width ∧ out.length < n then pad n zero width (len + 1) (out ++ [zero]) else out
termination_by width - len

/-- `*buf++ = c` with `n` bytes in front of `last`, `out` being those in front of `buf` -/
def put (n : Nat) (out : Bytes) (c : UInt8) : Result Bytes :=
  if out.length < n then return out ++ [c] else throw .outside

/-- `ngx_cpymem` -/
def cpymem (n : Nat) (out src : Bytes) (len : Nat) : Result Bytes :=
  if src.length < len then throw .string
  else if n < out.length + len then throw .outside
  else return out ++ src.take len

def sprintfNum (n : Nat) (out : Bytes) (ui64 : UInt64) (zero : UInt8) (hex : Hexadecimal)
    (width : UInt64) : Result Bytes := do
  let p ← digits hex ui64.toNat []
  let out := pad n zero width.toNat p.length out
  let len := if n < out.length + p.length then n - out.length else p.length
  cpymem n out p len

/-! `ngx_vslprintf` -/

def scanWidth (width : UInt64) : Bytes → UInt64 × Bytes
  | [] => (width, [])
  | c :: fmt =>
      if isDigit c then scanWidth (width * 10 + (c - zero).toUInt64) fmt else (width, c :: fmt)

/-! `va_arg` -/

def int32 : List PrintArg → Result (UInt32 × List PrintArg)
  | .int32 x :: args => return (x, args)
  | _ => throw .argument

def int64 : List PrintArg → Result (UInt64 × List PrintArg)
  | .int64 x :: args => return (x, args)
  | _ => throw .argument

def string : List PrintArg → Result (Bytes × List PrintArg)
  | .string v :: args => return (v, args)
  | _ => throw .argument

def variableValue : List PrintArg → Result (Bytes × List PrintArg)
  | .variable vv :: args => return (vv, args)
  | _ => throw .argument

def chars : List PrintArg → Result (Bytes × List PrintArg)
  | .chars p :: args => return (p, args)
  | _ => throw .argument

def scanModifiers : Bytes → Directive → List PrintArg → Result (Directive × Bytes × List PrintArg)
  | [], d, args => return (d, [], args)
  | c :: fmt, d, args =>
      if c = 117 then scanModifiers fmt { d with sign := false } args
      else if c = 109 then scanModifiers fmt { d with maxWidth := true } args
      else if c = 88 then scanModifiers fmt { d with hex := .upper, sign := false } args
      else if c = 120 then scanModifiers fmt { d with hex := .lower, sign := false } args
      else if c = point then return (d, fmt.dropWhile isDigit, args)
      else if c = asterisk then do
        let (slen, args) ← int64 args
        scanModifiers fmt { d with slen := slen } args
      else return (d, c :: fmt, args)

/-- What stands between the `%` and the conversion -/
def scanDirective (fmt : Bytes) (args : List PrintArg) :
    Result (Directive × Bytes × List PrintArg) :=
  scanModifiers (scanWidth 0 fmt).2
    ⟨if fmt.head? = some zero then zero else space, (scanWidth 0 fmt).1, true, .no, false, -1⟩ args

/-- `(int64_t)` of an `int` -/
def signExtend (x : UInt32) : UInt64 := x.toInt32.toInt64.toUInt64

/-- The conversions of numbers: `i64` if `sign` is set, and `ui64` otherwise -/
def number (d : Directive) (c : UInt8) (args : List PrintArg) :
    Result (Option (Directive × UInt64 × List PrintArg)) :=
  if c = 79 ∨ c = 84 ∨ c = 114 then do
    let (x, args) ← int64 args
    return some ({ d with sign := true }, x, args)
  else if c = 80 then do
    let (x, args) ← int32 args
    return some ({ d with sign := true }, signExtend x, args)
  else if c = 77 then do
    let (ms, args) ← int64 args
    return some ({ d with sign := ms == -1 }, ms, args)
  else if c = 122 ∨ c = 108 ∨ c = 76 then do
    let (x, args) ← int64 args
    return some (d, x, args)
  else if c = 105 ∨ c = 65 then do
    let (x, args) ← int64 args
    return some ({ d with width := if d.maxWidth then 20 else d.width }, x, args)
  else if c = 100 ∨ c = 68 then do
    let (x, args) ← int32 args
    return some (d, if d.sign then signExtend x else x.toUInt64, args)
  else if c = 112 then do
    let (x, args) ← int64 args
    return some ({ d with hex := .upper, sign := false, zero := zero, width := 16 }, x, args)
  else return none

/-- The end of the loop; `-i64` wraps around at the smallest number. -/
def printNumber (n : Nat) (out : Bytes) (d : Directive) (x : UInt64) : Result Bytes :=
  if d.sign = true ∧ x.toInt64 < 0 then do
    let out ← put n out minus
    sprintfNum n out (-x) d.zero d.hex d.width
  else sprintfNum n out x d.zero d.hex d.width

/-- `while (*p && buf < last)` -/
def copyChars (n : Nat) : Bytes → Bytes → Result Bytes
  | _, [] => throw .string
  | out, c :: p => if c ≠ 0 ∧ out.length < n then copyChars n (out ++ [c]) p else return out

/-- `ngx_min(((size_t) (last - buf)), len)` bytes -/
def copyClipped (n : Nat) (out data : Bytes) (len : Nat) : Result Bytes :=
  cpymem n out data (min (n - out.length) len)

/-- `switch (*fmt)` -/
def convert (n : Nat) (out : Bytes) (d : Directive) (c : UInt8) (args : List PrintArg) :
    Result (Bytes × List PrintArg) := do
  match ← number d c args with
  | some (d, x, args) => return (← printNumber n out d x, args)
  | none =>
      if c = 86 then
        let (v, args) ← string args
        return (← copyClipped n out v v.length, args)
      else if c = 118 then
        let (vv, args) ← variableValue args
        return (← copyClipped n out vv vv.length, args)
      else if c = 115 then
        let (p, args) ← chars args
        if d.slen = -1 then return (← copyChars n out p, args)
        else return (← copyClipped n out p d.slen.toNat, args)
      else if c = 102 then throw .argument
      else if c = 99 then do
        let (x, args) ← int32 args
        return (← put n out x.toUInt8, args)
      else if c = 90 then return (← put n out 0, args)
      else if c = 78 then return (← put n out newline, args)
      else return (← put n out c, args)

theorem length_scanWidth (width : UInt64) (fmt : Bytes) :
    (scanWidth width fmt).2.length ≤ fmt.length := by
  induction fmt generalizing width with
  | nil => exact Nat.le_refl 0
  | cons c fmt ih =>
      rw [scanWidth]
      split
      · exact Nat.le_succ_of_le (ih _)
      · exact Nat.le_refl _

theorem length_scanModifiers {fmt rest : Bytes} {d d' : Directive} {args args' : List PrintArg}
    (h : scanModifiers fmt d args = .ok (d', rest, args')) : rest.length ≤ fmt.length := by
  induction fmt generalizing d args with
  | nil =>
      cases h
      exact Nat.le_refl 0
  | cons c fmt ih =>
      rw [scanModifiers] at h
      split at h
      · exact Nat.le_succ_of_le (ih h)
      split at h
      · exact Nat.le_succ_of_le (ih h)
      split at h
      · exact Nat.le_succ_of_le (ih h)
      split at h
      · exact Nat.le_succ_of_le (ih h)
      split at h
      · cases h
        exact Nat.le_succ_of_le (List.dropWhile_suffix _).length_le
      split at h
      · cases hint : int64 args with
        | error e =>
            rw [hint] at h
            cases h
        | ok taken =>
            rw [hint] at h
            exact Nat.le_succ_of_le (ih h)
      · cases h
        exact Nat.le_refl _

theorem length_scanDirective {fmt rest : Bytes} {d : Directive} {args args' : List PrintArg}
    (h : scanDirective fmt args = .ok (d, rest, args')) : rest.length ≤ fmt.length :=
  Nat.le_trans (length_scanModifiers h) (length_scanWidth 0 fmt)

/-- `while (*fmt && buf < last)` -/
def loop (n : Nat) (fmt : Bytes) (args : List PrintArg) (out : Bytes) : Result Bytes :=
  match fmt with
  | [] => return out
  | c :: fmt =>
      if out.length < n then
        if c = percent then
          match _h : scanDirective fmt args with
          | .error e => throw e
          | .ok (_, [], _) => do
              -- the default case copies the NUL, and `*fmt` is read behind it
              let _ ← put n out 0
              throw .format
          | .ok (d, c :: rest, args) => do
              let (out, args) ← convert n out d c args
              loop n rest args out
        else do
          let out ← put n out c
          loop n fmt args out
      else return out
termination_by fmt.length
decreasing_by
  · have := length_scanDirective _h
    simp only [List.length_cons] at this ⊢
    omega
  · exact Nat.lt_succ_self _

end Vslprintf

/-- `ngx_vslprintf`: what is written from `buf` on, with `n` bytes up to `last` -/
def vslprintf (n : Nat) (fmt : Bytes) (args : List PrintArg) : Except PrintFault Bytes :=
  Vslprintf.loop n fmt args []

namespace Vslprintf

/-! What a format expects of its arguments. -/

/-- What has been read of a conversion -/
inductive Scan where
  | text
  | width
  | modifiers
  | fraction
  deriving DecidableEq

namespace Scan

/-- `u`, `m`, `X`, `x` -/
def isLetter (c : UInt8) : Bool := c = 117 || c = 109 || c = 88 || c = 120

def afterModifier (c : UInt8) : Scan :=
  if isLetter c || c = asterisk then .modifiers else if c = point then .fraction else .text

def next : Scan → UInt8 → Scan
  | .text, c => if c = percent then .width else .text
  | .width, c => if isDigit c then .width else afterModifier c
  | .modifiers, c => afterModifier c
  | .fraction, c => if isDigit c then .fraction else .text

end Scan

/-- The format does not end inside a conversion. -/
def Complete (fmt : Bytes) : Prop := fmt.foldl Scan.next .text = .text

instance (fmt : Bytes) : Decidable (Complete fmt) := inferInstanceAs (Decidable (_ = _))

/-- What a conversion takes, behind a `*` that has given `slen` -/
inductive Accepts : UInt8 → UInt64 → List PrintArg → Prop where
  | string : Accepts 86 slen [.string v]
  | variable : Accepts 118 slen [.variable vv]
  | terminated : slen = -1 → 0 ∈ p → Accepts 115 slen [.chars p]
  | chars : slen ≠ -1 → slen.toNat ≤ p.length → Accepts 115 slen [.chars p]
  | int64 : c ∈ ([79, 84, 114, 77, 122, 108, 76, 105, 65, 112] : Bytes) →
      Accepts c slen [.int64 x]
  | int32 : c ∈ ([80, 100, 68, 99] : Bytes) → Accepts c slen [.int32 x]
  | none : c ∉ ([86, 118, 115, 79, 84, 114, 77, 122, 108, 76, 105, 65, 112, 80, 100, 68, 99,
      102] : Bytes) → Accepts c slen []

/-- The arguments match what is left of the format. -/
inductive Matches : Scan → UInt64 → Bytes → List PrintArg → Prop where
  | nil : Matches state slen [] []
  | text : Matches (Scan.next .text c) (-1) fmt args → Matches .text slen (c :: fmt) args
  | conversion : state ≠ .text → state.next c = .text → Accepts c slen taken →
      Matches .text (-1) fmt args → Matches state slen (c :: fmt) (taken ++ args)
  | star : state ≠ .text → state.next asterisk ≠ .text →
      Matches (state.next asterisk) given fmt args →
      Matches state slen (asterisk :: fmt) (.int64 given :: args)
  | skip : state ≠ .text → state.next c ≠ .text → c ≠ asterisk →
      Matches (state.next c) slen fmt args → Matches state slen (c :: fmt) args

/-! Writers that stop at `last` -/

/-- Whatever has been written, a writer appends its text as far as there is room. -/
def Fits (write : Nat → Bytes → Result Bytes) (text : Bytes) : Prop :=
  ∀ n out, out.length ≤ n → write n out = .ok ((out ++ text).take n)

/-- The same of a writer that needs room for a byte. -/
def FitsRoom (write : Nat → Bytes → Result Bytes) (text : Bytes) : Prop :=
  ∀ n out, out.length < n → write n out = .ok ((out ++ text).take n)

theorem take_append_take (n : Nat) (out text : Bytes) :
    ((out.take n) ++ text).take n = (out ++ text).take n := by
  rw [List.take_append, List.take_append, List.take_take, Nat.min_self, List.length_take]
  congr 2
  omega

theorem take_of_le {n : Nat} {out : Bytes} (h : out.length ≤ n) (text : Bytes) :
    (out ++ text).take n = out ++ text.take (n - out.length) := by
  rw [List.take_append, List.take_of_length_le h]

theorem Fits.room {write : Nat → Bytes → Result Bytes} {text : Bytes} (h : Fits write text) :
    FitsRoom write text := fun n out hout => h n out (Nat.le_of_lt hout)

/-- One writer behind another -/
theorem FitsRoom.bind {first second : Nat → Bytes → Result Bytes} {text text' : Bytes}
    (h : FitsRoom first text) (h' : Fits second text') :
    FitsRoom (fun n out => first n out >>= second n) (text ++ text') := by
  intro n out hout
  change first n out >>= second n = _
  rw [h n out hout]
  change second n ((out ++ text).take n) = _
  rw [h' n _ (List.length_take_le _ _), take_append_take, List.append_assoc]

theorem fits_put (c : UInt8) : FitsRoom (fun n out => put n out c) [c] := by
  intro n out hout
  change put n out c = _
  rw [put, if_pos hout, List.take_of_length_le (by rw [List.length_append]; exact hout)]
  rfl

theorem fits_cpymem {src : Bytes} {len : Nat} (h : len ≤ src.length) :
    Fits (fun n out => cpymem n out src (min (n - out.length) len)) (src.take len) := by
  intro n out hout
  change cpymem n out src (min (n - out.length) len) = _
  rw [cpymem, if_neg (by omega), if_neg (by omega), take_of_le hout, List.take_take]
  rfl

theorem fits_copyClipped {data : Bytes} {len : Nat} (h : len ≤ data.length) :
    Fits (fun n out => copyClipped n out data len) (data.take len) := fits_cpymem h

theorem fits_copyChars {p : Bytes} (h : 0 ∈ p) :
    Fits (fun n out => copyChars n out p) (p.takeWhile (· ≠ 0)) := by
  induction p with
  | nil => cases h
  | cons c p ih =>
      intro n out hout
      change copyChars n out (c :: p) = _
      rw [copyChars]
      by_cases hc : c = 0
      · rw [if_neg (fun hand => hand.1 hc), List.takeWhile_cons_of_neg (by simpa using hc),
          List.append_nil, List.take_of_length_le hout]
        rfl
      have htail := ih ((List.mem_cons.mp h).resolve_left (Ne.symm hc))
      rw [List.takeWhile_cons_of_pos (by simpa using hc)]
      by_cases hroom : out.length < n
      · rw [if_pos ⟨hc, hroom⟩]
        change (fun n out => copyChars n out p) n (out ++ [c]) = _
        rw [htail n _ (by rw [List.length_append]; exact hroom), List.append_assoc]
        rfl
      · rw [if_neg (fun hand => hroom hand.2), take_of_le hout,
          Nat.sub_eq_zero_of_le (Nat.not_lt.mp hroom), List.take_zero, List.append_nil]
        rfl

/-! Numbers -/

def numeral (hex : Hexadecimal) (x : Nat) : Bytes :=
  if _h : x / radix hex ≠ 0 then numeral hex (x / radix hex) ++ [digit hex (x % radix hex)]
  else [digit hex (x % radix hex)]
termination_by x
decreasing_by exact div_radix_lt _h

def padded (zero : UInt8) (width : Nat) (text : Bytes) : Bytes :=
  List.replicate (width - text.length) zero ++ text

theorem length_numeral_le {hex : Hexadecimal} {k x : Nat} (h : x < radix hex ^ (k + 1)) :
    (numeral hex x).length ≤ k + 1 := by
  induction k generalizing x with
  | zero =>
      rw [Nat.zero_add, Nat.pow_one] at h
      rw [numeral, dif_neg (not_not.mpr (Nat.div_eq_of_lt h))]
      exact Nat.le_refl 1
  | succ k ih =>
      rw [numeral]
      split
      · rw [List.length_append]
        apply Nat.succ_le_succ
        apply ih
        rw [Nat.pow_succ, Nat.mul_comm] at h
        exact Nat.div_lt_of_lt_mul h
      · exact Nat.succ_le_succ (Nat.zero_le _)

theorem length_numeral_uint64 (hex : Hexadecimal) (x : UInt64) :
    (numeral hex x.toNat).length ≤ int64Len := by
  apply length_numeral_le (k := 19)
  have hx := x.toNat_lt
  cases hex with
  | no => exact Nat.lt_trans hx (by decide)
  | lower => exact Nat.lt_trans hx (by decide)
  | upper => exact Nat.lt_trans hx (by decide)

theorem digits_eq {hex : Hexadecimal} {x : Nat} {temp : Bytes}
    (h : (numeral hex x).length + temp.length ≤ int64Len) :
    digits hex x temp = .ok (numeral hex x ++ temp) := by
  induction x using Nat.strongRecOn generalizing temp with
  | ind x ih =>
      rw [numeral] at h ⊢
      rw [digits]
      split at h
      · next hmore =>
        rw [List.length_append, List.length_singleton] at h
        rw [if_pos (by omega), dif_pos hmore, dif_pos hmore, ih _ (div_radix_lt hmore)]
        · rw [List.append_assoc]
          rfl
        · rw [List.length_cons]
          omega
      · next hlast =>
        rw [List.length_singleton] at h
        rw [if_pos (by omega), dif_neg hlast, dif_neg hlast]
        rfl

theorem pad_eq (n : Nat) (zero : UInt8) {width len : Nat} {out : Bytes} (h : out.length ≤ n) :
    pad n zero width len out = (out ++ List.replicate (width - len) zero).take n := by
  generalize hmore : width - len = more
  induction more generalizing len out with
  | zero =>
      rw [pad, if_neg (by omega), List.replicate_zero, List.append_nil, List.take_of_length_le h]
  | succ more ih =>
      rw [pad]
      by_cases hroom : out.length < n
      · rw [if_pos ⟨by omega, hroom⟩, ih (by rw [List.length_append]; exact hroom) (by omega),
          List.replicate_succ, List.append_assoc]
        rfl
      · rw [if_neg (fun hand => hroom hand.2), take_of_le h,
          Nat.sub_eq_zero_of_le (Nat.not_lt.mp hroom), List.take_zero, List.append_nil]

theorem fits_sprintfNum (ui64 : UInt64) (zero : UInt8) (hex : Hexadecimal) (width : UInt64) :
    Fits (fun n out => sprintfNum n out ui64 zero hex width)
      (padded zero width.toNat (numeral hex ui64.toNat)) := by
  intro n out hout
  have hlength := length_numeral_uint64 hex ui64
  change sprintfNum n out ui64 zero hex width = _
  rw [sprintfNum, digits_eq (by rw [List.length_nil]; exact hlength), List.append_nil]
  generalize numeral hex ui64.toNat = p
  change cpymem n (pad n zero width.toNat p.length out) p _ = _
  rw [pad_eq n zero hout]
  have hle := List.length_take_le n (out ++ List.replicate (width.toNat - p.length) zero)
  generalize hpadded : (out ++ List.replicate (width.toNat - p.length) zero).take n = out' at hle
  have hlen : (if n < out'.length + p.length then n - out'.length else p.length) =
      min (n - out'.length) p.length := by
    split <;> omega
  have hcopy := fits_cpymem (Nat.le_refl p.length) n out' hle
  rw [hlen]
  refine hcopy.trans ?_
  rw [List.take_length, ← hpadded, take_append_take, padded, List.append_assoc]

/-- The text of a number, of which `x` are the 64 bits -/
def numberText (d : Directive) (x : UInt64) : Bytes :=
  if d.sign = true ∧ x.toInt64 < 0 then
    minus :: padded d.zero d.width.toNat (numeral d.hex (-x).toNat)
  else padded d.zero d.width.toNat (numeral d.hex x.toNat)

theorem fits_printNumber (d : Directive) (x : UInt64) :
    FitsRoom (fun n out => printNumber n out d x) (numberText d x) := by
  intro n out hout
  change printNumber n out d x = _
  rw [printNumber, numberText]
  split
  · exact (fits_put minus).bind (fits_sprintfNum _ _ _ _) n out hout
  · exact fits_sprintfNum _ _ _ _ n out (Nat.le_of_lt hout)

/-! The conversions -/

theorem convert_number {d d' : Directive} {c : UInt8} {args rest : List PrintArg} {x : UInt64}
    (h : number d c args = .ok (some (d', x, rest))) {n : Nat} {out : Bytes} (hout : out.length < n) :
    convert n out d c args = .ok ((out ++ numberText d' x).take n, rest) := by
  rw [convert, h]
  change printNumber n out d' x >>= (fun out => pure (out, rest)) = _
  have hprint := fits_printNumber d' x n out hout
  change printNumber n out d' x = _ at hprint
  rw [hprint]
  rfl

theorem number_none {d : Directive} {c : UInt8} (args : List PrintArg)
    (h : c ∉ ([79, 84, 114, 77, 122, 108, 76, 105, 65, 112, 80, 100, 68] : Bytes)) :
    number d c args = .ok none := by
  simp only [List.mem_cons, List.not_mem_nil, or_false, not_or] at h
  simp only [number, h, or_self, if_false]
  rfl

theorem convert_other {d : Directive} {c : UInt8} {args rest : List PrintArg} {text : Bytes}
    {write : Nat → Bytes → Result Bytes} (hwrite : FitsRoom write text)
    (h : ∀ n out, convert n out d c args = write n out >>= fun out => pure (out, rest))
    {n : Nat} {out : Bytes} (hout : out.length < n) :
    convert n out d c args = .ok ((out ++ text).take n, rest) := by
  rw [h, hwrite n out hout]
  rfl

/-- A conversion writes the same text wherever it is cut off. -/
theorem convert_spec {d : Directive} {c : UInt8} {taken : List PrintArg}
    (h : Accepts c d.slen taken) :
    ∃ text, ∀ n out args, out.length < n →
      convert n out d c (taken ++ args) = .ok ((out ++ text).take n, args) := by
  generalize hslen : d.slen = slen at h
  cases h with
  | @string _ v =>
      refine ⟨_, fun n out args => convert_other (fits_copyClipped (Nat.le_refl v.length)).room ?_⟩
      intro n out
      rfl
  | @«variable» _ vv =>
      refine ⟨_, fun n out args => convert_other (fits_copyClipped (Nat.le_refl vv.length)).room ?_⟩
      intro n out
      rfl
  | terminated hall hnul =>
      refine ⟨_, fun n out args => convert_other (fits_copyChars hnul).room ?_⟩
      intro n out
      exact if_pos (hslen.trans hall)
  | chars hlen hle =>
      refine ⟨_, fun n out args => convert_other (fits_copyClipped (hslen ▸ hle)).room ?_⟩
      intro n out
      exact if_neg fun hall => hlen (hslen.symm.trans hall)
  | int64 hc =>
      have hnumber : ∀ x, ∃ d' x', ∀ args, number d c (.int64 x :: args) = .ok (some (d', x', args)) := by
        intro x
        simp only [List.mem_cons, List.not_mem_nil, or_false] at hc
        rcases hc with rfl | rfl | rfl | rfl | rfl | rfl | rfl | rfl | rfl | rfl <;>
          exact ⟨_, _, fun args => rfl⟩
      obtain ⟨d', x', hx⟩ := hnumber _
      exact ⟨_, fun n out args => convert_number (hx args)⟩
  | @int32 _ _ x hc =>
      by_cases hchar : c = 99
      · subst hchar
        refine ⟨_, fun n out args => convert_other (fits_put x.toUInt8) ?_⟩
        intro n out
        rfl
      have hnumber : ∃ d' x', ∀ args, number d c (.int32 x :: args) = .ok (some (d', x', args)) := by
        simp only [List.mem_cons, List.not_mem_nil, or_false] at hc
        rcases hc with rfl | rfl | rfl | rfl
        · exact ⟨_, _, fun args => rfl⟩
        · exact ⟨_, _, fun args => rfl⟩
        · exact ⟨_, _, fun args => rfl⟩
        · exact absurd rfl hchar
      obtain ⟨d', x', hx⟩ := hnumber
      exact ⟨_, fun n out args => convert_number (hx args)⟩
  | none hc =>
      have hnone := fun args => number_none (d := d) args fun hmem => hc (by
        simp only [List.mem_cons, List.not_mem_nil, or_false] at hmem ⊢
        tauto)
      simp only [List.mem_cons, List.not_mem_nil, or_false, not_or] at hc
      refine ⟨_, fun n out args => convert_other (fits_put (if c = 90 then 0 else if c = 78 then newline else c)) ?_⟩
      intro n out
      rw [List.nil_append, convert, hnone]
      change (if c = 86 then _ else if c = 118 then _ else if c = 115 then _ else if c = 102 then _
        else if c = 99 then _ else _) = _
      simp only [hc, if_false]
      split
      · rfl
      split
      · rfl
      · rfl

/-! The loop -/

theorem fits_nil (args : List PrintArg) : Fits (fun n out => loop n [] args out) [] := by
  intro n out hout
  change loop n [] args out = _
  rw [loop, List.append_nil, List.take_of_length_le hout]
  rfl

theorem loop_full {n : Nat} {out : Bytes} (h : out.length = n) (fmt : Bytes) (args : List PrintArg) :
    loop n fmt args out = .ok out := by
  cases fmt with
  | nil => rw [loop]; rfl
  | cons c fmt =>
      rw [loop, if_neg (Nat.not_lt.mpr (Nat.le_of_eq h.symm))]
      rfl

/-- A loop that is not at its end needs room. -/
theorem FitsRoom.loop {fmt text : Bytes} {args : List PrintArg}
    (h : FitsRoom (fun n out => Vslprintf.loop n fmt args out) text) :
    Fits (fun n out => Vslprintf.loop n fmt args out) text := by
  intro n out hout
  rcases Nat.lt_or_eq_of_le hout with hlt | heq
  · exact h n out hlt
  · change Vslprintf.loop n fmt args out = _
    rw [loop_full heq, take_of_le hout, heq, Nat.sub_self, List.take_zero, List.append_nil]

theorem fits_text {c : UInt8} {fmt text : Bytes} {args : List PrintArg} (hc : c ≠ percent)
    (h : Fits (fun n out => loop n fmt args out) text) :
    Fits (fun n out => loop n (c :: fmt) args out) (c :: text) := by
  apply FitsRoom.loop
  intro n out hout
  change loop n (c :: fmt) args out = _
  rw [loop, if_pos hout, if_neg hc]
  exact (fits_put c).bind h n out hout

theorem fits_conversion {d : Directive} {c : UInt8} {fmt rest text text' : Bytes}
    {args args' args'' : List PrintArg} (hscan : scanDirective fmt args = .ok (d, c :: rest, args'))
    (hconvert : ∀ n out, out.length < n → convert n out d c args' = .ok ((out ++ text).take n, args''))
    (h : Fits (fun n out => loop n rest args'' out) text') :
    Fits (fun n out => loop n (percent :: fmt) args out) (text ++ text') := by
  apply FitsRoom.loop
  intro n out hout
  change loop n (percent :: fmt) args out = _
  rw [loop, if_pos hout, if_pos rfl]
  split
  · next e herror => cases hscan.symm.trans herror
  · next hend => cases hscan.symm.trans hend
  · next d₁ c₁ rest₁ args₁ hmore =>
    cases hscan.symm.trans hmore
    rw [hconvert n out hout]
    change loop n rest args'' _ = _
    have hrest := h n _ (List.length_take_le n (out ++ text))
    rw [take_append_take, List.append_assoc] at hrest
    exact hrest

/-! What is scanned of a conversion -/

/-- Where the scan of a conversion stops, in a format that is read from `state` on -/
inductive Stops (state : Scan) (fmt : Bytes) (slen : UInt64) : Bytes → List PrintArg → Prop where
  | conversion : Accepts c slen taken → Matches .text (-1) rest args →
      (fmt.foldl Scan.next state = .text ↔ Complete rest) →
      Stops state fmt slen (c :: rest) (taken ++ args)
  | ended : fmt.foldl Scan.next state ≠ .text → Stops state fmt slen [] []

theorem Stops.cons {state : Scan} {c : UInt8} {fmt rest : Bytes} {slen : UInt64}
    {args : List PrintArg} (h : Stops (state.next c) fmt slen rest args) :
    Stops state (c :: fmt) slen rest args := by
  cases h with
  | conversion haccepts hmatches hiff => exact .conversion haccepts hmatches hiff
  | ended hne => exact .ended hne

theorem stops_fraction {fmt : Bytes} {slen : UInt64} {args : List PrintArg}
    (h : Matches .fraction slen fmt args) :
    Stops .fraction fmt slen (fmt.dropWhile isDigit) args := by
  induction fmt with
  | nil =>
      cases h
      exact .ended (by decide)
  | cons c fmt ih =>
      by_cases hdigit : isDigit c = true
      · have hnext : Scan.next .fraction c = .fraction := if_pos hdigit
        rw [List.dropWhile_cons_of_pos hdigit]
        cases h with
        | conversion _ hend _ _ => cases hnext.symm.trans hend
        | star _ _ _ => cases hdigit
        | skip _ _ _ hrest =>
            rw [hnext] at hrest
            apply Stops.cons
            rw [hnext]
            exact ih hrest
      · have hnext : Scan.next .fraction c = .text := if_neg hdigit
        rw [List.dropWhile_cons_of_neg hdigit]
        cases h with
        | conversion _ _ haccepts hrest =>
            refine .conversion haccepts hrest ?_
            rw [List.foldl_cons, hnext]
            exact Iff.rfl
        | star _ hmore _ => exact absurd hnext hmore
        | skip _ hmore _ _ => exact absurd hnext hmore

theorem stops_modifiers {fmt : Bytes} {d : Directive} {args : List PrintArg}
    (h : Matches .modifiers d.slen fmt args) :
    ∃ d' rest args', scanModifiers fmt d args = .ok (d', rest, args') ∧
      Stops .modifiers fmt d'.slen rest args' := by
  induction fmt generalizing d args with
  | nil =>
      cases h
      exact ⟨d, [], [], rfl, .ended (by decide)⟩
  | cons c fmt ih =>
      by_cases hstar : c = asterisk
      · subst hstar
        cases h with
        | conversion _ hend _ _ => cases hend
        | star _ _ hrest =>
            obtain ⟨d', rest, args', hscan, hstops⟩ := ih (d := { d with slen := _ }) hrest
            exact ⟨d', rest, args', hscan, .cons hstops⟩
        | skip _ _ hne _ => exact absurd rfl hne
      by_cases hletter : Scan.isLetter c = true
      · have hnext : Scan.next .modifiers c = .modifiers := by
          rw [Scan.next, Scan.afterModifier, hletter]
          rfl
        have hrest : Matches .modifiers d.slen fmt args := by
          cases h with
          | conversion _ hend _ _ => cases hnext.symm.trans hend
          | star _ _ _ => exact absurd rfl hstar
          | skip _ _ _ hrest => rwa [hnext] at hrest
        have hmore : ∃ d₁, d₁.slen = d.slen ∧
            scanModifiers (c :: fmt) d args = scanModifiers fmt d₁ args := by
          simp only [Scan.isLetter, Bool.or_eq_true, decide_eq_true_eq] at hletter
          rcases hletter with ((rfl | rfl) | rfl) | rfl
          · exact ⟨{ d with sign := false }, rfl, rfl⟩
          · exact ⟨{ d with maxWidth := true }, rfl, rfl⟩
          · exact ⟨{ d with hex := .upper, sign := false }, rfl, rfl⟩
          · exact ⟨{ d with hex := .lower, sign := false }, rfl, rfl⟩
        obtain ⟨d₁, hslen, hscan₁⟩ := hmore
        obtain ⟨d', rest, args', hscan, hstops⟩ := ih (d := d₁) (hslen.symm ▸ hrest)
        refine ⟨d', rest, args', hscan₁.trans hscan, .cons ?_⟩
        rwa [hnext]
      by_cases hpoint : c = point
      · subst hpoint
        have hrest : Matches .fraction d.slen fmt args := by
          cases h with
          | conversion _ hend _ _ => cases hend
          | skip _ _ _ hrest => exact hrest
        exact ⟨d, _, args, rfl, .cons (stops_fraction hrest)⟩
      · have hnext : Scan.next .modifiers c = .text := by
          simp [Scan.next, Scan.afterModifier, hletter, hstar, hpoint]
        have hscan : scanModifiers (c :: fmt) d args = .ok (d, c :: fmt, args) := by
          simp only [Scan.isLetter, Bool.or_eq_true, decide_eq_true_eq, not_or] at hletter
          obtain ⟨⟨⟨hu, hm⟩, hX⟩, hx⟩ := hletter
          rw [scanModifiers, if_neg hu, if_neg hm, if_neg hX, if_neg hx, if_neg hpoint,
            if_neg hstar]
          rfl
        refine ⟨d, c :: fmt, args, hscan, ?_⟩
        cases h with
        | conversion _ _ haccepts hrest =>
            refine .conversion haccepts hrest ?_
            rw [List.foldl_cons, hnext]
            exact Iff.rfl
        | star _ hmore _ => exact absurd hnext hmore
        | skip _ hmore _ _ => exact absurd hnext hmore

/-- Behind the width -/
theorem matches_width {fmt : Bytes} {slen : UInt64} {args : List PrintArg} (width : UInt64)
    (h : Matches .width slen fmt args) :
    Matches .modifiers slen (scanWidth width fmt).2 args ∧
      (fmt.foldl Scan.next .width = .text ↔
        (scanWidth width fmt).2.foldl Scan.next .modifiers = .text) := by
  induction fmt generalizing width with
  | nil =>
      cases h
      exact ⟨.nil, iff_of_false (by decide) (show Scan.modifiers ≠ .text by decide)⟩
  | cons c fmt ih =>
      by_cases hdigit : isDigit c = true
      · have hnext : Scan.next .width c = .width := if_pos hdigit
        rw [scanWidth, if_pos hdigit, List.foldl_cons, hnext]
        apply ih
        cases h with
        | conversion _ hend _ _ => cases hnext.symm.trans hend
        | star _ _ _ => cases hdigit
        | skip _ _ _ hrest => rwa [hnext] at hrest
      · have hnext : Scan.next .width c = Scan.next .modifiers c := if_neg hdigit
        rw [scanWidth, if_neg hdigit, List.foldl_cons, hnext]
        refine ⟨?_, Iff.rfl⟩
        cases h with
        | conversion _ hend haccepts hrest => exact .conversion (by decide) (hnext ▸ hend) haccepts hrest
        | star _ hmore hrest => exact .star (by decide) hmore hrest
        | skip _ hmore hne hrest => exact .skip (by decide) (hnext ▸ hmore) hne (hnext ▸ hrest)

theorem stops_directive {fmt : Bytes} {args : List PrintArg} (h : Matches .width (-1) fmt args) :
    ∃ d rest args', scanDirective fmt args = .ok (d, rest, args') ∧
      Stops .width fmt d.slen rest args' := by
  obtain ⟨hmatches, hiff⟩ := matches_width 0 h
  obtain ⟨d, rest, args', hscan, hstops⟩ := stops_modifiers
    (d := ⟨if fmt.head? = some zero then zero else space, (scanWidth 0 fmt).1, true, .no, false, -1⟩)
    hmatches
  refine ⟨d, rest, args', hscan, ?_⟩
  cases hstops with
  | conversion haccepts hrest hcomplete => exact .conversion haccepts hrest (hiff.trans hcomplete)
  | ended hne => exact .ended (mt hiff.mp hne)

theorem matches_cons {c : UInt8} {fmt : Bytes} {args : List PrintArg} {slen : UInt64}
    (h : Matches .text slen (c :: fmt) args) : Matches (Scan.next .text c) (-1) fmt args := by
  cases h with
  | text hrest => exact hrest
  | conversion hne _ _ _ => exact absurd rfl hne
  | star hne _ _ => exact absurd rfl hne
  | skip hne _ _ _ => exact absurd rfl hne

/-- A complete format has a text, and the call writes as much of it as there is room for. -/
theorem fits_complete {fmt : Bytes} {args : List PrintArg} (h : Matches .text (-1) fmt args)
    (hcomplete : Complete fmt) : ∃ text, Fits (fun n out => loop n fmt args out) text := by
  induction hlength : fmt.length using Nat.strongRecOn generalizing fmt args with
  | ind length ih =>
      cases fmt with
      | nil => exact ⟨[], fits_nil args⟩
      | cons c fmt =>
          have hrest := matches_cons h
          rw [List.length_cons] at hlength
          by_cases hc : c = percent
          · subst hc
            obtain ⟨d, rest, args', hscan, hstops⟩ := stops_directive hrest
            have hle := length_scanDirective hscan
            cases hstops with
            | @conversion c taken rest args'' haccepts hmatches hiff =>
                rw [List.length_cons] at hle
                obtain ⟨text, hconvert⟩ := convert_spec haccepts
                obtain ⟨text', hfits⟩ := ih _ (by omega) hmatches (hiff.mp hcomplete) rfl
                exact ⟨text ++ text',
                  fits_conversion hscan (fun n out => hconvert n out args'') hfits⟩
            | ended hne => exact absurd hcomplete hne
          · have hnext : Scan.next .text c = .text := if_neg hc
            rw [hnext] at hrest
            have hcomplete : (c :: fmt).foldl Scan.next .text = .text := hcomplete
            rw [List.foldl_cons, hnext] at hcomplete
            obtain ⟨text, hfits⟩ := ih _ (by omega) hrest hcomplete rfl
            exact ⟨c :: text, fits_text hc hfits⟩

/-- A call that returns before `last` has read the whole format. -/
theorem complete_of_room {n : Nat} {fmt out out' : Bytes} {args : List PrintArg}
    (hmatches : Matches .text (-1) fmt args) (h : loop n fmt args out = .ok out')
    (hroom : out'.length < n) : Complete fmt := by
  induction hlength : fmt.length using Nat.strongRecOn generalizing fmt args out with
  | ind length ih =>
      cases fmt with
      | nil => exact rfl
      | cons c fmt =>
          have hrest := matches_cons hmatches
          rw [List.length_cons] at hlength
          rw [loop] at h
          by_cases hout : out.length < n
          · rw [if_pos hout] at h
            by_cases hc : c = percent
            · subst hc
              rw [if_pos rfl] at h
              obtain ⟨d, rest, args', hscan, hstops⟩ := stops_directive hrest
              have hle := length_scanDirective hscan
              split at h
              · next e herror => cases hscan.symm.trans herror
              · next hend =>
                rw [put, if_pos hout] at h
                cases h
              · next d₁ c₁ rest₁ args₁ hmore =>
                cases hscan.symm.trans hmore
                cases hstops with
                | @conversion c taken rest args'' haccepts hmatches hiff =>
                    rw [List.length_cons] at hle
                    obtain ⟨text, hconvert⟩ := convert_spec haccepts
                    rw [hconvert n out args'' hout] at h
                    exact hiff.mpr (ih _ (by omega) hmatches h rfl)
            · have hnext : Scan.next .text c = .text := if_neg hc
              rw [if_neg hc, put, if_pos hout] at h
              rw [hnext] at hrest
              have htail := ih _ (by omega) hrest h rfl
              rw [Complete, List.foldl_cons, hnext]
              exact htail
          · rw [if_neg hout] at h
            cases h
            exact absurd hroom hout

/-- The text of a call is cut off at `last`, unless the format ends inside a conversion. -/
theorem vslprintf_clips_iff {fmt : Bytes} {args : List PrintArg}
    (h : Matches .text (-1) fmt args) :
    (∃ text : Bytes, ∀ n, vslprintf n fmt args = .ok (text.take n)) ↔ Complete fmt := by
  constructor
  · rintro ⟨text, hall⟩
    apply complete_of_room h (hall (text.length + 1))
    rw [List.length_take]
    omega
  · intro hcomplete
    obtain ⟨text, hfits⟩ := fits_complete h hcomplete
    exact ⟨text, fun n => hfits n [] (Nat.zero_le n)⟩

/-- `%2d` with 7 -/
theorem vslprintf_clips_number :
    (∃ text : Bytes, ∀ n, vslprintf n [37, 50, 100] [.int32 7] = .ok (text.take n)) ↔
      Complete [37, 50, 100] := by
  apply vslprintf_clips_iff
  apply Matches.text
  apply Matches.skip (by decide) (by decide) (by decide)
  have haccepts : Accepts 100 (-1) [.int32 7] := .int32 (by decide)
  exact .conversion (by decide) (by decide) haccepts .nil

/-- `%` alone: the byte behind the format is read. -/
theorem vslprintf_percent :
    Matches .text (-1) [37] [] ∧
      ¬∃ text : Bytes, ∀ n, vslprintf n [37] [] = .ok (text.take n) := by
  refine ⟨.text .nil, ?_⟩
  rintro ⟨text, hall⟩
  exact absurd (complete_of_room (.text .nil) (hall (text.length + 1)) (by
    rw [List.length_take]
    omega)) (by decide)

end Vslprintf

end RebuildTheWheel.Nginx
