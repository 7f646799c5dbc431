import Mathlib.Algebra.BigOperators.Ring.Finset
import Mathlib.Algebra.Order.BigOperators.Group.Finset
import Mathlib.Tactic.Linarith
import Mathlib.Tactic.Ring

namespace RebuildTheWheel.Data

/-! Smooth weighted choice: everybody gets its weight, and the one that has the most pays the sum of
the weights and is chosen. -/

namespace SmoothWeights

variable {ι : Type} [Fintype ι] [DecidableEq ι]

def total (w : ι → Int) : Int := ∑ i, w i

def Leads (w c : ι → Int) (i : ι) : Prop := ∀ j, c j + w j ≤ c i + w i

def pay (w c : ι → Int) (i j : ι) : Int := c j + w j - if j = i then total w else 0

structure Balanced (w c : ι → Int) : Prop where
  sum : ∑ i, c i = 0
  above : ∀ i, -total w < c i

/-- The choices and what everybody has after them. -/
inductive Run (w : ι → Int) : List ι → (ι → Int) → Prop where
  | start : Run w [] fun _ => 0
  | choose : Run w chosen c → Leads w c i → Run w (i :: chosen) (pay w c i)

variable {w c : ι → Int} {i : ι} {chosen : List ι}

omit [DecidableEq ι] in
theorem total_pos (hw : ∀ i, 0 < w i) (i : ι) : 0 < total w :=
  Finset.sum_pos (fun j _ => hw j) ⟨i, Finset.mem_univ i⟩

theorem sum_pay (w c : ι → Int) (i : ι) : ∑ j, pay w c i j = ∑ j, c j := by
  simp only [pay, Finset.sum_sub_distrib, Finset.sum_add_distrib, Finset.sum_ite_eq', Finset.mem_univ,
    if_true]
  rw [total]
  omega

omit [DecidableEq ι] in
/-- The one that has the most has something, since all have the sum of the weights together. -/
theorem Balanced.lead_pos (h : Balanced w c) (hw : ∀ i, 0 < w i) (hi : Leads w c i) :
    0 < c i + w i := by
  by_contra hnone
  have hsum : ∑ j, (c j + w j) ≤ 0 :=
    Finset.sum_nonpos fun j _ => Int.le_trans (hi j) (Int.not_lt.mp hnone)
  rw [Finset.sum_add_distrib, h.sum] at hsum
  have hpos := total_pos hw i
  rw [total] at hpos
  omega

theorem Balanced.pay (h : Balanced w c) (hw : ∀ i, 0 < w i) (hi : Leads w c i) :
    Balanced w (pay w c i) where
  sum := (sum_pay w c i).trans h.sum
  above j := by
    have hj := h.above j
    have hpos := hw j
    have hlead := h.lead_pos hw hi
    rw [SmoothWeights.pay]
    split_ifs with hji
    · subst hji
      omega
    · omega

omit [DecidableEq ι] in
theorem balanced_start (hw : ∀ i, 0 < w i) : Balanced w fun _ => 0 where
  sum := Finset.sum_const_zero
  above i := by
    have := total_pos hw i
    omega

theorem Run.balanced (h : Run w chosen c) (hw : ∀ i, 0 < w i) : Balanced w c := by
  induction h with
  | start => exact balanced_start hw
  | choose _ hi ih => exact ih.pay hw hi

theorem Run.count (h : Run w chosen c) (j : ι) :
    c j = chosen.length * w j - total w * chosen.count j := by
  induction h with
  | start => simp
  | @choose chosen c i _ _ ih =>
      rw [pay, ih, List.length_cons, List.count_cons]
      by_cases hji : j = i
      · subst hji
        simp only [if_true, beq_self_eq_true]
        push_cast
        ring
      · have hne : (i == j) = false := beq_false_of_ne (Ne.symm hji)
        simp only [if_neg hji, hne, Bool.false_eq_true, if_false]
        push_cast
        ring

/-- In a round of as many choices as the sum of the weights everybody is chosen as often as its
weight says, and all have nothing again. -/
theorem Run.proportional (h : Run w chosen c) (hw : ∀ i, 0 < w i)
    (hround : (chosen.length : Int) = total w) (j : ι) : chosen.count j = w j ∧ c j = 0 := by
  have htotal := total_pos hw j
  have hc (i : ι) : c i = total w * (w i - chosen.count i) := by
    rw [h.count i, hround]
    ring
  have hle (i : ι) : (chosen.count i : Int) ≤ w i := by
    have habove := (h.balanced hw).above i
    rw [hc i] at habove
    have : -1 < w i - chosen.count i := by
      refine lt_of_mul_lt_mul_left ?_ (Int.le_of_lt htotal)
      rwa [Int.mul_neg, Int.mul_one]
    omega
  have hzero : ∑ i, (w i - (chosen.count i : Int)) = 0 := by
    have hsum := (h.balanced hw).sum
    simp only [hc, ← Finset.mul_sum] at hsum
    exact (Int.mul_eq_zero.mp hsum).resolve_left (ne_of_gt htotal)
  have heach := (Finset.sum_eq_zero_iff_of_nonneg fun i _ => Int.sub_nonneg_of_le (hle i)).mp hzero j
    (Finset.mem_univ j)
  refine ⟨by omega, ?_⟩
  rw [hc j, heach, Int.mul_zero]

/-- Nobody has more than all others can lack. -/
theorem Balanced.le (h : Balanced w c) (i : ι) : c i ≤ (Fintype.card ι - 1) * total w := by
  have hsplit := Finset.add_sum_erase Finset.univ c (Finset.mem_univ i)
  rw [h.sum] at hsplit
  have hothers : ∑ j ∈ Finset.univ.erase i, -total w ≤ ∑ j ∈ Finset.univ.erase i, c j :=
    Finset.sum_le_sum fun j _ => Int.le_of_lt (h.above j)
  rw [Finset.sum_const, Finset.card_erase_of_mem (Finset.mem_univ i), Finset.card_univ] at hothers
  have hcard : 1 ≤ Fintype.card ι := Fintype.card_pos_iff.mpr ⟨i⟩
  rw [nsmul_eq_mul, Nat.cast_sub hcard] at hothers
  push_cast at hothers
  linarith

end SmoothWeights

end RebuildTheWheel.Data
