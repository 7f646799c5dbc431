import Mathlib.Data.List.Lex
import Mathlib.Order.Lattice
import Mathlib.Tactic.SplitIfs

namespace RebuildTheWheel.TinySTL

/-! `compare` and the relational operators of `string`. Whether a `char` is signed depends on the
platform, so the order of its values is a parameter. -/

namespace StringCompare

variable {C : Type} [LinearOrder C]

/-- The loop of `compare_aux`. A read outside a string has no result. -/
def compareLoop (s : List C) (pos len : Nat) (cit : List C) (subpos sublen : Nat) :
    Nat → Nat → Nat → Option Int
  | 0, _, _ => none
  | fuel + 1, i, j =>
      if i ≠ len ∧ j ≠ sublen then do
        let x ← s[pos + i]?
        let y ← cit[subpos + j]?
        if x < y then return -1
        else if x > y then return 1
        else compareLoop s pos len cit subpos sublen fuel (i + 1) (j + 1)
      else if i = len ∧ j = sublen then some 0
      else if i = len then some (-1)
      else some 1

def compareAux (s : List C) (pos len : Nat) (cit : List C) (subpos sublen : Nat) : Option Int :=
  compareLoop s pos len cit subpos sublen (len + 1) 0 0

def compare (s str : List C) : Option Int := compareAux s 0 s.length str 0 str.length

/-! A pair of iterators is what lies between them. -/

def equalLoop : List C → List C → Bool
  | x :: xs, y :: ys => if x ≠ y then false else equalLoop xs ys
  | _, _ => true

/-- `operator==`, and the others below. -/
def equal (lhs rhs : List C) : Bool :=
  if lhs.length = rhs.length then equalLoop lhs rhs else false

def notEqual (lhs rhs : List C) : Bool := !equal lhs rhs

def lessEqualAux : List C → List C → Bool
  | x :: xs, y :: ys => if x < y then true else if x > y then false else lessEqualAux xs ys
  | xs, ys => (xs.isEmpty && ys.isEmpty) || xs.isEmpty

def greaterEqualAux : List C → List C → Bool
  | x :: xs, y :: ys => if x > y then true else if x < y then false else greaterEqualAux xs ys
  | xs, ys => (xs.isEmpty && ys.isEmpty) || ys.isEmpty

def lessEqual (lhs rhs : List C) : Bool := lessEqualAux lhs rhs

def greater (lhs rhs : List C) : Bool := !lessEqual lhs rhs

def greaterEqual (lhs rhs : List C) : Bool := greaterEqualAux lhs rhs

def less (lhs rhs : List C) : Bool := !greaterEqual lhs rhs

/-- The sign of `v` says how `xs` and `ys` are ordered. -/
structure SignOf (v : Int) (xs ys : List C) : Prop where
  negative : v < 0 ↔ xs < ys
  zero : v = 0 ↔ xs = ys
  positive : 0 < v ↔ ys < xs

variable {s cit zs ws xs ys : List C} {pos len subpos sublen : Nat} {v : Int} {x y : C}

theorem sign_of_lt (h : xs < ys) : SignOf (-1) xs ys where
  negative := iff_of_true (by decide) h
  zero := iff_of_false (by decide) (ne_of_lt h)
  positive := iff_of_false (by decide) (lt_asymm h)

theorem sign_of_gt (h : ys < xs) : SignOf 1 xs ys where
  negative := iff_of_false (by decide) (lt_asymm h)
  zero := iff_of_false (by decide) (ne_of_gt h)
  positive := iff_of_true (by decide) h

theorem SignOf.cons (h : SignOf v xs ys) (x : C) : SignOf v (x :: xs) (x :: ys) where
  negative := h.negative.trans List.cons_lt_cons_self.symm
  zero := by
    rw [h.zero]
    simp
  positive := h.positive.trans List.cons_lt_cons_self.symm

omit [LinearOrder C] in
theorem getElem?_of_drop {i : Nat} (h : s.drop i = x :: xs) : s[i]? = some x := by
  rw [← Nat.add_zero i, ← List.getElem?_drop, h]
  rfl

omit [LinearOrder C] in
theorem drop_succ_of_drop {i : Nat} (h : s.drop i = x :: xs) : s.drop (i + 1) = xs := by
  rw [← List.drop_drop, h]
  rfl

/-- The loop compares what is left of the two parts. -/
theorem compareLoop_spec {fuel i j : Nat} (hs : s.drop (pos + i) = xs ++ zs)
    (hcit : cit.drop (subpos + j) = ys ++ ws) (hlen : i + xs.length = len)
    (hsublen : j + ys.length = sublen) (hfuel : xs.length < fuel) :
    ∃ v, compareLoop s pos len cit subpos sublen fuel i j = some v ∧ SignOf v xs ys := by
  induction fuel generalizing xs ys i j with
  | zero => exact absurd hfuel (Nat.not_lt_zero _)
  | succ fuel ih =>
      rw [compareLoop]
      match xs, ys with
      | [], [] =>
          have hi : i = len := hlen
          have hj : j = sublen := hsublen
          rw [if_neg (fun h => h.1 hi), if_pos ⟨hi, hj⟩]
          exact ⟨0, rfl, ⟨by simp, by simp, by simp⟩⟩
      | [], y :: ys =>
          have hi : i = len := hlen
          rw [List.length_cons] at hsublen
          rw [if_neg (fun h => h.1 hi), if_neg (by omega), if_pos hi]
          exact ⟨-1, rfl, sign_of_lt (List.nil_lt_cons y ys)⟩
      | x :: xs, [] =>
          have hj : j = sublen := hsublen
          rw [List.length_cons] at hlen
          rw [if_neg (fun h => h.2 hj), if_neg (by omega), if_neg (by omega)]
          exact ⟨1, rfl, sign_of_gt (List.nil_lt_cons x xs)⟩
      | x :: xs, y :: ys =>
          rw [List.length_cons] at hlen hsublen hfuel
          rw [if_pos (by omega), getElem?_of_drop hs, getElem?_of_drop hcit]
          simp only [Option.bind_eq_bind, Option.bind_some]
          split_ifs with hlt hgt
          · exact ⟨-1, rfl, sign_of_lt (List.cons_lt_cons_iff.mpr (.inl hlt))⟩
          · exact ⟨1, rfl, sign_of_gt (List.cons_lt_cons_iff.mpr (.inl hgt))⟩
          · obtain rfl : x = y := le_antisymm (not_lt.mp hgt) (not_lt.mp hlt)
            obtain ⟨v, hrun, hsign⟩ := ih (i := i + 1) (j := j + 1) (drop_succ_of_drop hs)
              (drop_succ_of_drop hcit) (by omega) (by omega) (by omega)
            exact ⟨v, hrun, hsign.cons x⟩

theorem compare_sign (a b : List C) : ∃ v, compare a b = some v ∧ SignOf v a b :=
  compareLoop_spec (List.append_nil a).symm (List.append_nil b).symm (Nat.zero_add _)
    (Nat.zero_add _) (Nat.lt_succ_self _)

theorem equalLoop_iff (h : xs.length = ys.length) : equalLoop xs ys = true ↔ xs = ys := by
  induction xs generalizing ys with
  | nil =>
      obtain rfl := List.eq_nil_of_length_eq_zero h.symm
      simp [equalLoop]
  | cons x xs ih =>
      cases ys with
      | nil => cases h
      | cons y ys =>
          rw [equalLoop, List.cons.injEq]
          split_ifs with hne
          · simp [hne]
          · rw [ih (Nat.succ.inj h), not_not.mp hne]
            exact ⟨fun heq => ⟨rfl, heq⟩, And.right⟩

theorem equal_iff (a b : List C) : equal a b = true ↔ a = b := by
  rw [equal]
  split_ifs with hlength
  · exact equalLoop_iff hlength
  · exact iff_of_false not_false fun heq => hlength (congrArg List.length heq)

theorem lessEqual_iff (a b : List C) : lessEqual a b = true ↔ a ≤ b := by
  rw [lessEqual]
  induction a generalizing b with
  | nil => exact iff_of_true (by simp [lessEqualAux]) (not_lt.mp (List.not_lt_nil b))
  | cons x a ih =>
      cases b with
      | nil => exact iff_of_false Bool.false_ne_true (not_le.mpr (List.nil_lt_cons x a))
      | cons y b =>
          rw [lessEqualAux, ← not_lt, List.cons_lt_cons_iff]
          split_ifs with hlt hgt
          · simp [not_lt_of_gt hlt, ne_of_gt hlt]
          · simp [hgt]
          · rw [ih, ← not_lt, le_antisymm (not_lt.mp hgt) (not_lt.mp hlt)]
            simp

theorem greaterEqualAux_eq (a b : List C) : greaterEqualAux a b = lessEqualAux b a := by
  induction a generalizing b with
  | nil => cases b <;> simp [greaterEqualAux, lessEqualAux]
  | cons x a ih =>
      cases b with
      | nil => simp [greaterEqualAux, lessEqualAux]
      | cons y b => rw [greaterEqualAux, lessEqualAux, ih]

theorem greaterEqual_iff (a b : List C) : greaterEqual a b = true ↔ b ≤ a := by
  rw [greaterEqual, greaterEqualAux_eq]
  exact lessEqual_iff b a

/-- Each operator decides its relation of the lexicographic order. -/
structure Decides (a b : List C) : Prop where
  equal : equal a b = decide (a = b)
  notEqual : notEqual a b = decide (a ≠ b)
  less : less a b = decide (a < b)
  lessEqual : lessEqual a b = decide (a ≤ b)
  greater : greater a b = decide (b < a)
  greaterEqual : greaterEqual a b = decide (b ≤ a)

theorem decides (a b : List C) : Decides a b where
  equal := by rw [Bool.eq_iff_iff, equal_iff, decide_eq_true_iff]
  notEqual := by
    rw [notEqual, Bool.eq_iff_iff, Bool.not_eq_true', ← Bool.not_eq_true, equal_iff,
      decide_eq_true_iff]
  less := by
    rw [less, Bool.eq_iff_iff, Bool.not_eq_true', ← Bool.not_eq_true, greaterEqual_iff, not_le,
      decide_eq_true_iff]
  lessEqual := by rw [Bool.eq_iff_iff, lessEqual_iff, decide_eq_true_iff]
  greater := by
    rw [greater, Bool.eq_iff_iff, Bool.not_eq_true', ← Bool.not_eq_true, lessEqual_iff, not_le,
      decide_eq_true_iff]
  greaterEqual := by rw [Bool.eq_iff_iff, greaterEqual_iff, decide_eq_true_iff]

/-- One of `a < b`, `a == b` and `a > b` holds alone. -/
def ExactlyOne (p q r : Bool) : Prop :=
  (p = true ∧ q = false ∧ r = false) ∨ (p = false ∧ q = true ∧ r = false) ∨
    (p = false ∧ q = false ∧ r = true)

/-- `compare` and the operators follow one total order. -/
theorem string_order (a b c : List C) :
    (∃ v, compare a b = some v ∧ SignOf v a b) ∧ Decides a b ∧
      ExactlyOne (less a b) (equal a b) (greater a b) ∧
      lessEqual a b = (less a b || equal a b) ∧
      (less a b && less b c → less a c) := by
  refine ⟨compare_sign a b, decides a b, ?_, ?_, ?_⟩
  · rw [(decides a b).less, (decides a b).equal, (decides a b).greater]
    rcases lt_trichotomy a b with hlt | rfl | hgt
    · exact .inl ⟨decide_eq_true hlt, decide_eq_false hlt.ne, decide_eq_false hlt.asymm⟩
    · exact .inr (.inl ⟨decide_eq_false (lt_irrefl a), decide_eq_true rfl,
        decide_eq_false (lt_irrefl a)⟩)
    · exact .inr (.inr ⟨decide_eq_false hgt.asymm, decide_eq_false hgt.ne', decide_eq_true hgt⟩)
  · rw [(decides a b).lessEqual, (decides a b).less, (decides a b).equal, ← Bool.decide_or]
    exact decide_eq_decide.mpr le_iff_lt_or_eq
  · rw [(decides a b).less, (decides b c).less, (decides a c).less]
    simpa using fun hab hbc => lt_trans hab hbc

end StringCompare

end RebuildTheWheel.TinySTL
