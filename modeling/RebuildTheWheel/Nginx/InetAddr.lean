import RebuildTheWheel.Data.Decimal

namespace RebuildTheWheel.Nginx

open Data Data.Ascii Data.Decimal

/-! `ngx_inet_addr`. A number in network order is its four bytes. -/

namespace Inet

def htonl (x : Nat) : Bytes :=
  [UInt8.ofNat (x / 2 ^ 24), UInt8.ofNat (x / 2 ^ 16), UInt8.ofNat (x / 2 ^ 8), UInt8.ofNat x]

def ntohl (bytes : Bytes) : Nat := bytes.foldl (fun x b => x * 2 ^ 8 + b.toNat) 0

/-- `INADDR_NONE` -/
def inaddrNone : Bytes := [255, 255, 255, 255]

def inetAddrLoop (addr octet n : Nat) : Bytes → Bytes
  | [] => if n = 3 then htonl ((addr * 2 ^ 8 + octet) % 2 ^ 32) else inaddrNone
  | c :: p =>
      if zero ≤ c ∧ c ≤ 57 then
        let octet := octet * 10 + (c.toNat - 48)
        if 255 < octet then inaddrNone else inetAddrLoop addr octet n p
      else if c = point then inetAddrLoop ((addr * 2 ^ 8 + octet) % 2 ^ 32) 0 (n + 1) p
      else inaddrNone

end Inet

open Inet in
def inetAddr (text : Bytes) : Bytes := inetAddrLoop 0 0 0 text

namespace Inet

/-- `%ud.%ud.%ud.%ud` -/
def quad (b₀ b₁ b₂ b₃ : UInt8) : Bytes :=
  decimal b₀.toNat ++ point :: (decimal b₁.toNat ++ point :: (decimal b₂.toNat ++ point ::
    decimal b₃.toNat))

variable {addr octet n : Nat} {digits rest : Bytes}

theorem length_inetAddrLoop (addr octet n : Nat) (p : Bytes) :
    (inetAddrLoop addr octet n p).length = 4 := by
  induction p generalizing addr octet n with
  | nil =>
      unfold inetAddrLoop
      split_ifs <;> rfl
  | cons c p ih =>
      unfold inetAddrLoop
      dsimp only
      split_ifs
      · rfl
      · exact ih _ _ _
      · exact ih _ _ _
      · rfl

theorem length_inetAddr (text : Bytes) : (inetAddr text).length = 4 := length_inetAddrLoop _ _ _ _

theorem le_foldl (digits : Bytes) (octet : Nat) :
    octet ≤ digits.foldl (fun n b => n * 10 + digitVal b) octet := by
  induction digits generalizing octet with
  | nil => exact le_rfl
  | cons c digits ih =>
      have hle : octet ≤ octet * 10 + digitVal c := by omega
      exact hle.trans (ih _)

theorem inetAddrLoop_digits (hdigits : ∀ c ∈ digits, isDigit c = true)
    (h : digits.foldl (fun n b => n * 10 + digitVal b) octet ≤ 255) (addr n : Nat) (rest : Bytes) :
    inetAddrLoop addr octet n (digits ++ rest) =
      inetAddrLoop addr (digits.foldl (fun n b => n * 10 + digitVal b) octet) n rest := by
  induction digits generalizing octet with
  | nil => rfl
  | cons c digits ih =>
      obtain ⟨hc, hdigits⟩ := List.forall_mem_cons.mp hdigits
      have hle : ¬255 < octet * 10 + (c.toNat - 48) :=
        Nat.not_lt.mpr (le_trans (le_foldl digits _) h)
      rw [List.cons_append, inetAddrLoop, if_pos (isDigit_iff.mp hc)]
      dsimp only
      rw [if_neg hle]
      exact ih hdigits h

theorem inetAddrLoop_decimal (b : UInt8) (addr n : Nat) (rest : Bytes) :
    inetAddrLoop addr 0 n (decimal b.toNat ++ rest) = inetAddrLoop addr b.toNat n rest := by
  have hvalue : (decimal b.toNat).foldl (fun n b => n * 10 + digitVal b) 0 = b.toNat :=
    value_decimal b.toNat
  have hlt := b.toNat_lt
  rw [inetAddrLoop_digits (fun c => isDigit_of_mem_decimal) (by omega), hvalue]

theorem inetAddrLoop_point (addr octet n : Nat) (rest : Bytes) :
    inetAddrLoop addr octet n (point :: rest) =
      inetAddrLoop ((addr * 2 ^ 8 + octet) % 2 ^ 32) 0 (n + 1) rest := by
  rw [inetAddrLoop, if_neg (by decide), if_pos rfl]

/-- The text of an address reads back. -/
theorem inetAddr_quad (b₀ b₁ b₂ b₃ : UInt8) : inetAddr (quad b₀ b₁ b₂ b₃) = [b₀, b₁, b₂, b₃] := by
  have h₀ := b₀.toNat_lt
  have h₁ := b₁.toNat_lt
  have h₂ := b₂.toNat_lt
  have h₃ := b₃.toNat_lt
  rw [inetAddr, quad, inetAddrLoop_decimal, inetAddrLoop_point, inetAddrLoop_decimal,
    inetAddrLoop_point, inetAddrLoop_decimal, inetAddrLoop_point,
    ← List.append_nil (decimal b₃.toNat), inetAddrLoop_decimal, inetAddrLoop, if_pos rfl]
  simp only [htonl, List.cons.injEq, ← UInt8.toNat_inj, UInt8.toNat_ofNat', and_true]
  omega

end Inet

end RebuildTheWheel.Nginx

namespace RebuildTheWheel.Nginx

open Data Data.Ascii Data.Hexadecimal Inet

/-! `ngx_inet6_addr` and `ngx_inet6_ntop`. -/

namespace Inet6

def digit? (c : UInt8) : Option Nat :=
  if Ascii.zero ≤ c ∧ c ≤ 57 then some (c.toNat - 48)
  else
    let c := c ||| 0x20
    if 97 ≤ c ∧ c ≤ 102 then some (c.toNat - 97 + 10) else none

structure State where
  /-- the bytes in front of `addr` -/
  addr : Bytes
  zero : Option Nat
  /-- the text behind the last colon -/
  digit : Option Bytes
  nibbles : Nat
  word : Nat
  n : Nat

def State.store (s : State) : Bytes :=
  s.addr ++ [UInt8.ofNat (s.word / 2 ^ 8), UInt8.ofNat s.word]

/-- The loop; `NGX_ERROR` is `none`. -/
def parse (s : State) : Bytes → Option State
  | [] => some s
  | c :: p =>
      if c = colon then
        if s.nibbles ≠ 0 then
          if s.n - 1 ≠ 0 then parse ⟨s.store, s.zero, some p, 0, 0, s.n - 1⟩ p else none
        else if s.zero = none then
          parse { s with digit := some p, zero := some s.addr.length } p
        else none
      else if c = point ∧ s.nibbles ≠ 0 then
        match s.digit with
        | none => none
        | some digit =>
            if s.n < 2 then none
            else if inetAddr digit = inaddrNone then none
            else
              let word := ntohl (inetAddr digit)
              let stored := [UInt8.ofNat (word / 2 ^ 24), UInt8.ofNat (word / 2 ^ 16)]
              some { s with addr := s.addr ++ stored, word := word, n := s.n - 1 }
      else if 4 < s.nibbles + 1 then none
      else
        match digit? c with
        | some d => parse { s with nibbles := s.nibbles + 1, word := s.word * 16 + d } p
        | none => none

/-- `while (s >= zero) { *d-- = *s--; }`, when `k` bytes are left -/
def moveUp (z n : Nat) : Nat → Bytes → Bytes
  | 0, buffer => buffer
  | k + 1, buffer => moveUp z n k (buffer.set (z + k + n) (buffer.getD (z + k) 0))

def memzero (z n : Nat) (buffer : Bytes) : Bytes :=
  buffer.take z ++ (List.replicate n 0 ++ buffer.drop (z + n))

/-- What follows the last store -/
def expand (buffer addr : Bytes) (zero : Option Nat) (n : Nat) : Option Bytes :=
  let buffer := addr ++ buffer.drop addr.length
  if n ≠ 0 then
    zero.map fun z => memzero z (n * 2) (moveUp z (n * 2) (addr.length - z) buffer)
  else if zero = none then some buffer
  else none

/-- What follows the loop -/
def finish (buffer : Bytes) (s : State) : Option Bytes :=
  if s.nibbles = 0 ∧ s.zero = none then none
  else expand buffer s.store s.zero (s.n - 1)

/-- `ngx_inet6_ntop` looks for the longest run of words that are zero. The index `-1` is `none`. -/
structure Scan where
  zero : Option Nat
  last : Option Nat
  max : Nat
  n : Nat

def Scan.update (s : Scan) : Scan :=
  if s.max < s.n then { s with zero := s.last, max := s.n } else s

def scanWord (p : Bytes) (s : Scan) (i : Nat) : Scan :=
  if p.getD i 0 ≠ 0 ∨ p.getD (i + 1) 0 ≠ 0 then { s.update with n := 0 }
  else { s with last := if s.n = 0 then some i else s.last, n := s.n + 1 }

def scan (p : Bytes) : Scan :=
  ((List.range 8).foldl (fun s j => scanWord p s (2 * j)) ⟨none, none, 1, 0⟩).update

/-- The last four bytes are written as an IPv4 address. -/
def EndsInQuad (p : Bytes) (s : Scan) : Prop :=
  s.zero = some 0 ∧
    (s.max = 5 ∧ p.getD 10 0 = 0xff ∧ p.getD 11 0 = 0xff ∨ s.max = 6 ∨
      s.max = 7 ∧ p.getD 14 0 ≠ 0 ∧ p.getD 15 0 ≠ 1)

instance (p : Bytes) (s : Scan) : Decidable (EndsInQuad p s) :=
  inferInstanceAs (Decidable (_ ∧ _))

/-- The number that `%xd` writes -/
def wordAt (p : Bytes) (i : Nat) : Nat := (p.getD i 0).toNat * 256 + (p.getD (i + 1) 0).toNat

def words (p : Bytes) (s : Scan) (n : Nat) : Nat → Nat → Bytes
  | 0, _ => []
  | fuel + 1, i =>
      if i < n then
        if s.zero = some i then colon :: words p s n fuel (i + (s.max - 1) * 2 + 2)
        else
          hexadecimal (wordAt p i) ++ ((if i < 14 then [colon] else []) ++
            words p s n fuel (i + 2))
      else []

/-- `NGX_INET6_ADDRSTRLEN` -/
abbrev addrStrLen : Nat := 45

end Inet6

open Inet6

/-- The address that is parsed into a buffer -/
def inet6Addr (p buffer : Bytes) : Option Bytes :=
  if p = [] then none
  else
    (parse ⟨[], none, none, 0, 0, 8⟩ (if p.head? = some colon then p.tail else p)).bind
      (finish buffer)

/-- The text that is written for an address of 16 bytes into `len` bytes -/
def inet6Ntop (p : Bytes) (len : Nat) : Bytes :=
  if len < addrStrLen then []
  else
    let s := scan p
    (if s.zero = some 0 then [colon] else []) ++
      if EndsInQuad p s then
        words p s 12 8 0 ++ quad (p.getD 12 0) (p.getD 13 0) (p.getD 14 0) (p.getD 15 0)
      else words p s 16 8 0

end RebuildTheWheel.Nginx
