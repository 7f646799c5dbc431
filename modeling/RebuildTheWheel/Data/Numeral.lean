import Mathlib.Data.List.Basic
import RebuildTheWheel.Data.Decimal

namespace RebuildTheWheel.Data

open Ascii

/-! The number that a text of digits denotes, and loops that compute it up to a maximum. -/

namespace Numeral

variable {base : Nat} {digit? : UInt8 → Option Nat}

/-- The number denoted by `n` and the digits behind it; `none` where a byte is no digit -/
def numeral (base : Nat) (digit? : UInt8 → Option Nat) : Nat → Bytes → Option Nat
  | n, [] => some n
  | n, c :: s => (digit? c).bind fun d => numeral base digit? (n * base + d) s

def decimal? (c : UInt8) : Option Nat := if isDigit c then some (Decimal.digitVal c) else none

theorem le_of_numeral (hbase : 0 < base) {n m : Nat} {s : Bytes}
    (h : numeral base digit? n s = some m) : n ≤ m := by
  induction s generalizing n with
  | nil =>
      obtain rfl := Option.some.inj h
      exact Nat.le_refl n
  | cons c s ih =>
      obtain ⟨d, -, hs⟩ := Option.bind_eq_some_iff.mp h
      exact Nat.le_trans (Nat.le_add_right_of_le (Nat.le_mul_of_pos_right n hbase)) (ih hs)

/-- The number is the digits' by Horner's rule. -/
theorem numeral_eq_some_iff {n v : Nat} {s : Bytes} :
    numeral base digit? n s = some v ↔
      ∃ ds : List Nat, s.map digit? = ds.map some ∧ v = ds.foldl (fun n d => n * base + d) n := by
  induction s generalizing n with
  | nil =>
      rw [numeral, Option.some.injEq]
      constructor
      · rintro rfl
        exact ⟨[], rfl, rfl⟩
      · rintro ⟨ds, hds, rfl⟩
        rw [List.map_eq_nil_iff.mp hds.symm]
        rfl
  | cons c s ih =>
      rw [numeral, Option.bind_eq_some_iff]
      constructor
      · rintro ⟨d, hd, hs⟩
        obtain ⟨ds, hds, rfl⟩ := ih.mp hs
        exact ⟨d :: ds, by rw [List.map_cons, List.map_cons, hd, hds], rfl⟩
      · rintro ⟨ds, hds, rfl⟩
        cases ds with
        | nil => cases hds
        | cons d ds =>
            obtain ⟨hd, hs⟩ := List.cons.inj hds
            exact ⟨d, hd, ih.mpr ⟨ds, hs, rfl⟩⟩

theorem numeral_decimal_iff {n v : Nat} {s : Bytes} :
    numeral 10 decimal? n s = some v ↔
      (∀ c ∈ s, isDigit c) ∧ v = s.foldl (fun n c => n * 10 + Decimal.digitVal c) n := by
  induction s generalizing n with
  | nil =>
      rw [numeral, Option.some.injEq, eq_comm]
      exact (and_iff_right fun c hc => absurd hc List.not_mem_nil).symm
  | cons c s ih =>
      rw [numeral, decimal?, List.forall_mem_cons, and_assoc]
      by_cases hc : isDigit c = true
      · rw [if_pos hc, Option.bind_some, ih, and_iff_right hc]
        rfl
      · rw [if_neg hc]
        exact iff_of_false (Option.some_ne_none v).symm fun h => hc h.1

theorem numeral_append {n : Nat} {s t : Bytes} :
    numeral base digit? n (s ++ t) =
      (numeral base digit? n s).bind fun m => numeral base digit? m t := by
  induction s generalizing n with
  | nil => rfl
  | cons c s ih =>
      rw [List.cons_append, numeral, numeral, Option.bind_assoc]
      simp only [ih]

/-- A number up to the maximum, or -1 -/
def bounded (max : Nat) : Option Nat → Int
  | some n => if n ≤ max then n else -1
  | none => -1

theorem bounded_some_of_le {max n : Nat} (h : n ≤ max) : bounded max (some n) = n := if_pos h

theorem bounded_some_of_lt {max n : Nat} (h : max < n) : bounded max (some n) = -1 :=
  if_neg (Nat.not_le.mpr h)

theorem bounded_eq_natCast_iff {max v : Nat} {n : Option Nat} :
    bounded max n = v ↔ n = some v ∧ v ≤ max := by
  rcases n with _ | n
  · exact ⟨fun h => absurd h (by change (-1 : Int) ≠ v; omega), fun h => absurd h.1 (by simp)⟩
  · by_cases hn : n ≤ max
    · rw [bounded_some_of_le hn, Int.natCast_inj, Option.some.injEq]
      exact ⟨fun h => ⟨h, h ▸ hn⟩, And.left⟩
    · rw [bounded_some_of_lt (Nat.not_le.mp hn), Option.some.injEq]
      exact ⟨fun h => by omega, fun h => absurd (h.1 ▸ h.2) hn⟩

theorem bounded_neg_or (max : Nat) (n : Option Nat) :
    bounded max n = -1 ∨ ∃ v : Nat, bounded max n = v := by
  rcases n with _ | n
  · exact .inl rfl
  · by_cases hn : n ≤ max
    · exact .inr ⟨n, bounded_some_of_le hn⟩
    · exact .inl (bounded_some_of_lt (Nat.not_le.mp hn))

/-- A loop over digits that stops before its number exceeds the maximum -/
structure GuardedLoop (max base : Nat) (digit? : UInt8 → Option Nat)
    (loop : Int → Bytes → Option Int) : Prop where
  nil : ∀ n : Nat, loop n [] = some (n : Int)
  cons : ∀ (n : Nat) (c : UInt8) (s : Bytes), n ≤ max → loop n (c :: s) =
    match digit? c with
    | none => some (-1)
    | some d => if n * base + d ≤ max then loop ↑(n * base + d) s else some (-1)

theorem GuardedLoop.eq {max : Nat} {loop : Int → Bytes → Option Int}
    (h : GuardedLoop max base digit? loop) (hbase : 0 < base) {n : Nat} (hn : n ≤ max) (s : Bytes) :
    loop n s = some (bounded max (numeral base digit? n s)) := by
  induction s generalizing n with
  | nil => rw [h.nil, numeral, bounded_some_of_le hn]
  | cons c s ih =>
      rw [h.cons n c s hn, numeral]
      cases digit? c with
      | none => rfl
      | some d =>
          dsimp only
          rw [Option.bind_some]
          by_cases hle : n * base + d ≤ max
          · rw [if_pos hle, ih hle]
          · rw [if_neg hle]
            rcases hs : numeral base digit? (n * base + d) s with _ | m
            · rfl
            · have hlt := Nat.lt_of_lt_of_le (Nat.not_le.mp hle) (le_of_numeral hbase hs)
              rw [bounded_some_of_lt hlt]

end Numeral

end RebuildTheWheel.Data
