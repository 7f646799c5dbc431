import Mathlib.Logic.Basic

namespace RebuildTheWheel.Data

/-! Loops that stop at the first index which passes a test. A loop whose test fails to give a
result has none. -/

namespace Scan

/-- `n` turns, the index going up from `i`. -/
def up (test : Nat → Option Bool) : Nat → Nat → Option (Option Nat)
  | _, 0 => some none
  | i, n + 1 => do
      let passed ← test i
      if passed then return some i else up test (i + 1) n

/-- `n` turns, the index going down to 0. -/
def down (test : Nat → Option Bool) : Nat → Option (Option Nat)
  | 0 => some none
  | n + 1 => do
      let passed ← test n
      if passed then return some n else down test n

variable {test test' : Nat → Option Bool} {i k n : Nat} {r : Option Nat}

theorem up_step (h : test i = some false) : up test i (n + 1) = up test (i + 1) n := by
  rw [up, h]
  rfl

theorem up_stop (h : test i ≠ some false) :
    up test i (n + 1) = (test i).map fun _ => some i := by
  rw [up]
  match hi : test i with
  | none => rfl
  | some true => rfl
  | some false => exact absurd hi h

theorem down_step (h : test n = some false) : down test (n + 1) = down test n := by
  rw [down, h]
  rfl

theorem down_stop (h : test n ≠ some false) :
    down test (n + 1) = (test n).map fun _ => some n := by
  rw [down]
  match hn : test n with
  | none => rfl
  | some true => rfl
  | some false => exact absurd hn h

theorem up_none (h : ∀ k, i ≤ k → k < i + n → test k = some false) : up test i n = some none := by
  induction n generalizing i with
  | zero => rfl
  | succ n ih =>
      rw [up_step (h i (Nat.le_refl i) (by omega))]
      exact ih fun k hk hlt => h k (by omega) (by omega)

theorem up_first (hik : i ≤ k) (hk : k < i + n) (hstop : test k ≠ some false)
    (hbefore : ∀ l, i ≤ l → l < k → test l = some false) :
    up test i n = (test k).map fun _ => some k := by
  induction n generalizing i with
  | zero => omega
  | succ n ih =>
      rcases Nat.eq_or_lt_of_le hik with rfl | hlt
      · exact up_stop hstop
      · rw [up_step (hbefore i (Nat.le_refl i) hlt)]
        exact ih hlt (by omega) fun l hl => hbefore l (by omega)

theorem down_none (h : ∀ k < n, test k = some false) : down test n = some none := by
  induction n with
  | zero => rfl
  | succ n ih =>
      rw [down_step (h n (Nat.lt_succ_self n))]
      exact ih fun k hk => h k (Nat.lt_succ_of_lt hk)

theorem down_last (hk : k < n) (hstop : test k ≠ some false)
    (hbehind : ∀ l, k < l → l < n → test l = some false) :
    down test n = (test k).map fun _ => some k := by
  induction n with
  | zero => exact absurd hk (Nat.not_lt_zero k)
  | succ n ih =>
      rcases Nat.lt_succ_iff_lt_or_eq.mp hk with hlt | rfl
      · rw [down_step (hbehind n hlt (Nat.lt_succ_self n))]
        exact ih hlt fun l hl hln => hbehind l hl (Nat.lt_succ_of_lt hln)
      · exact down_stop hstop

/-! A test that has more results. -/

theorem up_mono (h : ∀ i passed, test i = some passed → test' i = some passed)
    (hrun : up test i n = some r) : up test' i n = some r := by
  induction n generalizing i with
  | zero => exact hrun
  | succ n ih =>
      rw [up] at hrun ⊢
      obtain ⟨passed, hpassed, hrest⟩ := Option.bind_eq_some_iff.mp hrun
      rw [h i passed hpassed]
      cases passed with
      | true => exact hrest
      | false => exact ih hrest

theorem down_mono (h : ∀ i passed, test i = some passed → test' i = some passed)
    (hrun : down test n = some r) : down test' n = some r := by
  induction n with
  | zero => exact hrun
  | succ n ih =>
      rw [down] at hrun ⊢
      obtain ⟨passed, hpassed, hrest⟩ := Option.bind_eq_some_iff.mp hrun
      rw [h n passed hpassed]
      cases passed with
      | true => exact hrest
      | false => exact ih hrest

/-! Where a loop stops, if it does. -/

theorem exists_first (p : Nat → Prop) (i n : Nat) :
    (∀ k, i ≤ k → k < i + n → p k) ∨
      ∃ k, i ≤ k ∧ k < i + n ∧ ¬p k ∧ ∀ l, i ≤ l → l < k → p l := by
  induction n with
  | zero => exact .inl fun k hk hlt => absurd hlt (Nat.not_lt_of_le hk)
  | succ n ih =>
      rcases ih with hall | ⟨k, hik, hk, hstop, hbefore⟩
      · rcases Classical.em (p (i + n)) with hp | hp
        · refine .inl fun k hk hlt => ?_
          rcases Nat.lt_succ_iff_lt_or_eq.mp hlt with hlt | rfl
          · exact hall k hk hlt
          · exact hp
        · exact .inr ⟨i + n, Nat.le_add_right i n, Nat.lt_succ_self _, hp, hall⟩
      · exact .inr ⟨k, hik, Nat.lt_succ_of_lt hk, hstop, hbefore⟩

theorem exists_last (p : Nat → Prop) (n : Nat) :
    (∀ k < n, p k) ∨ ∃ k < n, ¬p k ∧ ∀ l, k < l → l < n → p l := by
  induction n with
  | zero => exact .inl fun k hk => absurd hk (Nat.not_lt_zero k)
  | succ n ih =>
      rcases Classical.em (p n) with hp | hp
      · rcases ih with hall | ⟨k, hk, hstop, hbehind⟩
        · refine .inl fun k hk => ?_
          rcases Nat.lt_succ_iff_lt_or_eq.mp hk with hlt | rfl
          · exact hall k hlt
          · exact hp
        · refine .inr ⟨k, Nat.lt_succ_of_lt hk, hstop, fun l hl hlt => ?_⟩
          rcases Nat.lt_succ_iff_lt_or_eq.mp hlt with hlt | rfl
          · exact hbehind l hl hlt
          · exact hp
      · exact .inr ⟨n, Nat.lt_succ_self n, hp, fun l hl hlt => by omega⟩

/-! The first index with a property. -/

variable {P P' : Nat → Prop} {p q : Nat} {r' : Option Nat}

/-- The first of the indices from `p` on that have a property. -/
def First (P : Nat → Prop) (p : Nat) : Option Nat → Prop
  | none => ∀ q, p ≤ q → ¬P q
  | some q => p ≤ q ∧ P q ∧ ∀ j, p ≤ j → j < q → ¬P j

theorem First.extend (h : First P (q + 1) r) (hpq : p ≤ q)
    (hbefore : ∀ j, p ≤ j → j ≤ q → ¬P j) : First P p r := by
  have hall : ∀ k, p ≤ k → (q + 1 ≤ k → ¬P k) → ¬P k := fun k hk hlater => by
    rcases Nat.lt_or_ge q k with hlt | hge
    · exact hlater hlt
    · exact hbefore k hk hge
  cases r with
  | none => exact fun k hk => hall k hk (h k)
  | some i =>
      obtain ⟨hle, hi, hfirst⟩ := h
      exact ⟨by omega, hi, fun j hj hlt => hall j hj fun hj' => hfirst j hj' hlt⟩

theorem First.of_succ (h : First P (p + 1) r) (hp : ¬P p) : First P p r :=
  h.extend (Nat.le_refl _) fun _ hj hle => Nat.le_antisymm hle hj ▸ hp

theorem First.unique (h : First P p r) (h' : First P p r') : r = r' := by
  cases r with
  | none =>
      cases r' with
      | none => rfl
      | some q => exact absurd h'.2.1 (h q h'.1)
  | some q =>
      cases r' with
      | none => exact absurd h.2.1 (h' q h.1)
      | some q' =>
          have hle : q ≤ q' := Nat.le_of_not_lt fun hlt => h.2.2 q' h'.1 hlt h'.2.1
          have hge : q' ≤ q := Nat.le_of_not_lt fun hlt => h'.2.2 q h.1 hlt h.2.1
          rw [Nat.le_antisymm hle hge]

theorem First.shift (h : First P' 0 r) (hshift : ∀ j, P (k + j) ↔ P' j)
    (hbefore : ∀ j, j < k → ¬P j) : First P 0 (r.map (k + ·)) := by
  have hsub : ∀ j, k ≤ j → (P j ↔ P' (j - k)) := fun j hj => by
    rw [← hshift, Nat.add_sub_cancel' hj]
  cases r with
  | none =>
      intro j _ hj
      rcases Nat.lt_or_ge j k with hlt | hge
      · exact hbefore j hlt hj
      · exact h _ (Nat.zero_le _) ((hsub j hge).mp hj)
  | some q =>
      obtain ⟨_, hq, hfirst⟩ := h
      refine ⟨Nat.zero_le _, (hshift q).mpr hq, fun j _ hlt hj => ?_⟩
      rcases Nat.lt_or_ge j k with hbelow | hge
      · exact hbefore j hbelow hj
      · have hbefore : j - k < q := Nat.sub_lt_left_of_lt_add hge hlt
        exact hfirst _ (Nat.zero_le _) hbefore ((hsub j hge).mp hj)

end Scan

end RebuildTheWheel.Data
