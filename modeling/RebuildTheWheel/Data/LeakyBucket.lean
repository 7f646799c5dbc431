import Mathlib.Data.List.Chain

namespace RebuildTheWheel

/-! A bucket that leaks `rate` every `period` and takes units of a fixed amount while the level stays
within its size. -/

/-- A unit that has been let in, with the level right after it. -/
structure Drop where
  time : Nat
  level : Nat

/-- Between two units the bucket has lost no more than it leaks in that time. -/
structure Drop.Follows (unit rate period : Nat) (new old : Drop) : Prop where
  later : old.time ≤ new.time
  kept : old.level + unit ≤ new.level + rate * (new.time - old.time) / period

/-- The units of a run, the last one first. -/
structure LeakyBucket (unit rate period size : Nat) (log : List Drop) : Prop where
  chain : log.IsChain (Drop.Follows unit rate period)
  within : ∀ drop ∈ log, drop.level ≤ size

namespace LeakyBucket

variable {unit rate period size start span : Nat} {log : List Drop} {new drop : Drop}

theorem tail (h : LeakyBucket unit rate period size (drop :: log)) :
    LeakyBucket unit rate period size log where
  chain := h.chain.tail
  within old hold := h.within old (List.mem_cons_of_mem _ hold)

theorem cons (h : LeakyBucket unit rate period size log) (hlevel : new.level ≤ size)
    (hfollows : ∀ old ∈ log.head?, Drop.Follows unit rate period new old) :
    LeakyBucket unit rate period size (new :: log) where
  chain := h.chain.cons hfollows
  within drop hdrop := by
    rcases List.mem_cons.mp hdrop with rfl | hold
    · exact hlevel
    · exact h.within drop hold

/-- Nothing is later than the last unit. -/
theorem time_le (h : LeakyBucket unit rate period size (drop :: log)) :
    ∀ old ∈ log, old.time ≤ drop.time := by
  induction log generalizing drop with
  | nil => exact nofun
  | cons next log ih =>
      have hnext := (List.isChain_cons_cons.mp h.chain).1.later
      intro old hold
      rcases List.mem_cons.mp hold with rfl | hold
      · exact hnext
      · exact Nat.le_trans (ih h.tail old hold) hnext

/-- What has come in from `start` to before the last unit is still there or has leaked. -/
theorem since (h : LeakyBucket unit rate period size (drop :: log)) (hstart : start ≤ drop.time) :
    unit * log.countP (start ≤ ·.time) ≤ drop.level + rate * (drop.time - start) / period := by
  induction log generalizing drop with
  | nil => exact Nat.zero_le _
  | cons next log ih =>
      obtain ⟨hlater, hkept⟩ := (List.isChain_cons_cons.mp h.chain).1
      by_cases hnext : start ≤ next.time
      · have hrest := ih h.tail hnext
        have hleak : rate * (next.time - start) / period + rate * (drop.time - next.time) / period ≤
            rate * (drop.time - start) / period := by
          refine Nat.le_trans Nat.div_add_div_le_add_div (Nat.le_of_eq ?_)
          rw [← Nat.mul_add]
          congr 2
          omega
        rw [List.countP_cons, if_pos (decide_eq_true hnext), Nat.mul_add, Nat.mul_one]
        omega
      · have hnone : log.countP (start ≤ ·.time) = 0 := by
          refine List.countP_eq_zero.mpr fun old hold hlate => hnext ?_
          exact Nat.le_trans (of_decide_eq_true hlate) (h.tail.time_le old hold)
        rw [List.countP_cons_of_neg (by simpa using hnext), hnone]
        exact Nat.zero_le _

/-- The units that have come in during any span of time. -/
theorem window (h : LeakyBucket unit rate period size log) (start span : Nat) :
    unit * (log.countP (fun drop => start ≤ drop.time ∧ drop.time ≤ start + span) - 1) ≤
      size + rate * span / period := by
  induction log with
  | nil => exact Nat.zero_le _
  | cons drop log ih =>
      by_cases hin : start ≤ drop.time ∧ drop.time ≤ start + span
      · have hbefore : log.countP (fun drop => start ≤ drop.time ∧ drop.time ≤ start + span) =
            log.countP (start ≤ ·.time) := by
          refine List.countP_congr fun old hold => ?_
          have := h.time_le old hold
          simp only [decide_eq_true_eq]
          omega
        have hleak : rate * (drop.time - start) / period ≤ rate * span / period :=
          Nat.div_le_div_right (Nat.mul_le_mul_left _ (by omega))
        have hlevel := h.within drop List.mem_cons_self
        have hsince := h.since hin.1
        rw [List.countP_cons, if_pos (decide_eq_true hin), hbefore, Nat.add_sub_cancel]
        omega
      · rw [List.countP_cons_of_neg (by simpa using hin)]
        exact ih h.tail

end LeakyBucket

end RebuildTheWheel
