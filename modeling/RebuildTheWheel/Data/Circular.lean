import Mathlib.Data.Nat.ModEq
import Mathlib.Logic.Function.Basic

namespace RebuildTheWheel.Data

/-! Lists stored around a circle of `N` cells. -/

variable {T : Type*} {N i j k : Nat} {cells cells' : Nat → Option T} {x : T} {xs : List T}

/-- The cells from `i` on hold the list. -/
def Around (N : Nat) (cells : Nat → Option T) : Nat → List T → Prop
  | _, [] => True
  | i, x :: xs => cells i = some x ∧ Around N cells ((i + 1) % N) xs

theorem add_mod_inj (h : (i + j) % N = (i + k) % N) (hj : j < N) (hk : k < N) : j = k := by
  have hmod : j ≡ k [MOD N] := Nat.ModEq.add_left_cancel' i h
  exact hmod.eq_of_lt_of_lt hj hk

theorem succ_mod_add_mod (N i j : Nat) : ((i + 1) % N + j) % N = (i + (j + 1)) % N := by
  rw [Nat.mod_add_mod, Nat.add_assoc, Nat.add_comm 1 j]

theorem Around.congr (h : Around N cells i xs) (hi : i < N)
    (hcells : ∀ j < xs.length, cells' ((i + j) % N) = cells ((i + j) % N)) :
    Around N cells' i xs := by
  induction xs generalizing i with
  | nil => trivial
  | cons x xs ih =>
      have hfirst := hcells 0 (Nat.succ_pos _)
      rw [Nat.add_zero, Nat.mod_eq_of_lt hi] at hfirst
      refine ⟨hfirst.trans h.1, ih h.2 (Nat.mod_lt _ (Nat.zero_lt_of_lt hi)) ?_⟩
      intro j hj
      rw [succ_mod_add_mod]
      exact hcells (j + 1) (Nat.succ_lt_succ hj)

theorem Around.concat (h : Around N cells i xs) (hi : i < N)
    (hlast : cells ((i + xs.length) % N) = some x) : Around N cells i (xs ++ [x]) := by
  induction xs generalizing i with
  | nil =>
      rw [List.length_nil, Nat.add_zero, Nat.mod_eq_of_lt hi] at hlast
      exact ⟨hlast, trivial⟩
  | cons y xs ih =>
      refine ⟨h.1, ih h.2 (Nat.mod_lt _ (Nat.zero_lt_of_lt hi)) ?_⟩
      rw [succ_mod_add_mod]
      exact hlast

theorem Around.get (h : Around N cells i xs) (hi : i < N) (hj : j < xs.length) :
    cells ((i + j) % N) = some xs[j] := by
  induction xs generalizing i j with
  | nil => cases hj
  | cons x xs ih =>
      cases j with
      | zero =>
          rw [Nat.add_zero, Nat.mod_eq_of_lt hi]
          exact h.1
      | succ j =>
          rw [← succ_mod_add_mod]
          exact ih h.2 (Nat.mod_lt _ (Nat.zero_lt_of_lt hi)) (Nat.lt_of_succ_lt_succ hj)

theorem around_of_get (hi : i < N)
    (h : ∀ j (hj : j < xs.length), cells ((i + j) % N) = some xs[j]) : Around N cells i xs := by
  induction xs generalizing i with
  | nil => trivial
  | cons x xs ih =>
      have hfirst := h 0 (Nat.succ_pos _)
      rw [Nat.add_zero, Nat.mod_eq_of_lt hi] at hfirst
      refine ⟨hfirst, ih (Nat.mod_lt _ (Nat.zero_lt_of_lt hi)) ?_⟩
      intro j hj
      rw [succ_mod_add_mod]
      exact h (j + 1) (Nat.succ_lt_succ hj)

theorem Around.right {ys : List T} (h : Around N cells i (xs ++ ys)) (hi : i < N) :
    Around N cells ((i + xs.length) % N) ys := by
  induction xs generalizing i with
  | nil =>
      rw [List.length_nil, Nat.add_zero, Nat.mod_eq_of_lt hi]
      exact h
  | cons x xs ih =>
      rw [List.length_cons, ← succ_mod_add_mod]
      exact ih h.2 (Nat.mod_lt _ (Nat.zero_lt_of_lt hi))

theorem Around.left {ys : List T} (h : Around N cells i (xs ++ ys)) : Around N cells i xs := by
  induction xs generalizing i with
  | nil => trivial
  | cons x xs ih => exact ⟨h.1, ih h.2⟩

theorem Around.append {ys : List T} (h : Around N cells i xs) (hi : i < N)
    (hys : ∀ j (hj : j < ys.length), cells ((i + (xs.length + j)) % N) = some ys[j]) :
    Around N cells i (xs ++ ys) := by
  refine around_of_get hi fun j hj => ?_
  by_cases hfirst : j < xs.length
  · rw [List.getElem_append_left hfirst]
    exact h.get hi hfirst
  · rw [List.getElem_append_right (Nat.not_lt.mp hfirst)]
    have hlast := hys (j - xs.length) (by rw [List.length_append] at hj; omega)
    rwa [Nat.add_sub_cancel' (Nat.not_lt.mp hfirst)] at hlast

/-! One cell is written. -/

theorem Around.push (h : Around N cells i xs) (hi : i < N) (hroom : xs.length < N) (x : T) :
    Around N (Function.update cells ((i + xs.length) % N) (some x)) i (xs ++ [x]) := by
  refine Around.concat (h.congr hi ?_) hi (Function.update_self ..)
  intro j hj
  refine Function.update_of_ne (fun heq => ?_) _ _
  exact (Nat.ne_of_lt hj) (add_mod_inj heq (hj.trans hroom) hroom)

theorem Around.pop (h : Around N cells i (x :: xs)) (hi : i < N) (hroom : xs.length < N)
    (c : Option T) : Around N (Function.update cells i c) ((i + 1) % N) xs := by
  refine h.2.congr (Nat.mod_lt _ (Nat.zero_lt_of_lt hi)) ?_
  intro j hj
  rw [succ_mod_add_mod]
  refine Function.update_of_ne (fun heq => ?_) _ _
  have hzero : (i + (j + 1)) % N = (i + 0) % N := by
    rw [heq, Nat.add_zero, Nat.mod_eq_of_lt hi]
  exact Nat.succ_ne_zero j (add_mod_inj hzero (by omega) (by omega))

end RebuildTheWheel.Data
