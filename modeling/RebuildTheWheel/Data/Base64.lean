import Mathlib.Data.List.Basic
import RebuildTheWheel.Data.Ascii

namespace RebuildTheWheel.Data

/-! Base 64: bytes as digits of six bits, three bytes in four digits. -/

namespace Base64

def sextets : Bytes → List Nat
  | a :: b :: c :: s =>
      a.toNat / 4 :: (a.toNat % 4 * 16 + b.toNat / 16) :: (b.toNat % 16 * 4 + c.toNat / 64) ::
        c.toNat % 64 :: sextets s
  | [a, b] => [a.toNat / 4, a.toNat % 4 * 16 + b.toNat / 16, b.toNat % 16 * 4]
  | [a] => [a.toNat / 4, a.toNat % 4 * 16]
  | [] => []

def octets : List Nat → Bytes
  | a :: b :: c :: d :: l =>
      UInt8.ofNat (a * 4 + b / 16) :: UInt8.ofNat (b % 16 * 16 + c / 4) ::
        UInt8.ofNat (c % 4 * 64 + d) :: octets l
  | [a, b, c] => [UInt8.ofNat (a * 4 + b / 16), UInt8.ofNat (b % 16 * 16 + c / 4)]
  | [a, b] => [UInt8.ofNat (a * 4 + b / 16)]
  | _ => []

theorem lt_of_mem_sextets {s : Bytes} {i : Nat} (h : i ∈ sextets s) : i < 64 := by
  induction s using sextets.induct with
  | case1 a b c s ih =>
      have ha := a.toNat_lt
      have hb := b.toNat_lt
      have hc := c.toNat_lt
      simp only [sextets, List.mem_cons] at h
      rcases h with rfl | rfl | rfl | rfl | h
      · omega
      · omega
      · omega
      · omega
      · exact ih h
  | case2 a b =>
      have ha := a.toNat_lt
      have hb := b.toNat_lt
      simp only [sextets, List.mem_cons, List.not_mem_nil, or_false] at h
      omega
  | case3 a =>
      have ha := a.toNat_lt
      simp only [sextets, List.mem_cons, List.not_mem_nil, or_false] at h
      omega
  | case4 => cases h

theorem length_sextets (s : Bytes) : (sextets s).length = (4 * s.length + 2) / 3 := by
  induction s using sextets.induct with
  | case1 a b c s ih =>
      simp only [sextets, List.length_cons, ih]
      omega
  | case2 a b => simp [sextets]
  | case3 a => simp [sextets]
  | case4 => rfl

theorem length_octets (l : List Nat) : (octets l).length = 3 * l.length / 4 := by
  induction l using octets.induct with
  | case1 a b c d l ih =>
      simp only [octets, List.length_cons, ih]
      omega
  | case2 a b c => simp [octets]
  | case3 a b => simp [octets]
  | case4 l h4 h3 h2 =>
      rcases l with _ | ⟨a, _ | ⟨b, l⟩⟩
      · rfl
      · simp [octets]
      · rcases l with _ | ⟨c, _ | ⟨d, l⟩⟩
        · exact (h2 a b rfl).elim
        · exact (h3 a b c rfl).elim
        · exact (h4 a b c d l rfl).elim

theorem octets_sextets (s : Bytes) : octets (sextets s) = s := by
  have hbyte {a : UInt8} {n : Nat} (h : n = a.toNat) : UInt8.ofNat n = a := by
    rw [h, UInt8.ofNat_toNat]
  induction s using sextets.induct with
  | case1 a b c s ih =>
      have ha := a.toNat_lt
      have hb := b.toNat_lt
      have hc := c.toNat_lt
      rw [sextets, octets, ih, hbyte (a := a) (by omega), hbyte (a := b) (by omega),
        hbyte (a := c) (by omega)]
  | case2 a b =>
      have ha := a.toNat_lt
      have hb := b.toNat_lt
      rw [sextets, octets, hbyte (a := a) (by omega), hbyte (a := b) (by omega)]
  | case3 a =>
      have ha := a.toNat_lt
      rw [sextets, octets, hbyte (a := a) (by omega)]
  | case4 => rfl

end Base64

end RebuildTheWheel.Data
