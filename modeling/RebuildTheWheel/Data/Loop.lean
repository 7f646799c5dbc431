import Mathlib.Logic.Basic

namespace RebuildTheWheel.Data

/-! Counting loops whose body may fail, and the invariant rule for each. -/

namespace Loop

variable {σ : Type}

/-- `n` rounds, the counter going up from `i`. -/
def up (body : Nat → σ → Option σ) : Nat → Nat → σ → Option σ
  | _, 0, s => some s
  | i, n + 1, s => do
      let s ← body i s
      up body (i + 1) n s

/-- `n` rounds, the counter going down to 0. -/
def down (body : Nat → σ → Option σ) : Nat → σ → Option σ
  | 0, s => some s
  | n + 1, s => do
      let s ← body n s
      down body n s

variable {body : Nat → σ → Option σ}

theorem up_spec {Q : σ → Prop} (I : Nat → σ → Prop) (hs : I m s)
    (hstep : ∀ i s, m ≤ i → i < m + n → I i s → ∃ s', body i s = some s' ∧ I (i + 1) s')
    (hQ : ∀ s, I (m + n) s → Q s) : ∃ s', up body m n s = some s' ∧ Q s' := by
  induction n generalizing m s with
  | zero => exact ⟨s, rfl, hQ s hs⟩
  | succ n ih =>
      obtain ⟨s₁, hbody, hs₁⟩ := hstep m s (Nat.le_refl m) (Nat.lt_add_of_pos_right n.succ_pos) hs
      obtain ⟨s₂, hup, hs₂⟩ := ih hs₁
        (fun i s hi hlt => hstep i s (Nat.le_of_succ_le hi) (by omega))
        (fun s h => hQ s (by rwa [Nat.add_succ, ← Nat.succ_add]))
      refine ⟨s₂, ?_, hs₂⟩
      rw [up, hbody]
      exact hup

theorem up_defined (h : ∀ i s, m ≤ i → i < m + n → ∃ s', body i s = some s') (s : σ) :
    ∃ s', up body m n s = some s' := by
  obtain ⟨s', hup, -⟩ := up_spec (fun _ _ => True) trivial
    (fun i s hi hlt _ => (h i s hi hlt).imp fun s' hbody => ⟨hbody, trivial⟩)
    (fun s (_ : True) => trivial) (s := s)
  exact ⟨s', hup⟩

theorem down_spec {Q : σ → Prop} (I : Nat → σ → Prop) (hs : I n s)
    (hstep : ∀ i s, i < n → I (i + 1) s → ∃ s', body i s = some s' ∧ I i s')
    (hQ : ∀ s, I 0 s → Q s) : ∃ s', down body n s = some s' ∧ Q s' := by
  induction n generalizing s with
  | zero => exact ⟨s, rfl, hQ s hs⟩
  | succ n ih =>
      obtain ⟨s₁, hbody, hs₁⟩ := hstep n s n.lt_succ_self hs
      obtain ⟨s₂, hdown, hs₂⟩ := ih hs₁ fun i s hi => hstep i s (Nat.lt_succ_of_lt hi)
      refine ⟨s₂, ?_, hs₂⟩
      rw [down, hbody]
      exact hdown

/-! What a loop keeps when it ends at all, and what two loops keep between them. -/

theorem up_partial (I : Nat → σ → Prop) (hs : I m s)
    (hstep : ∀ i s s', m ≤ i → i < m + n → body i s = some s' → I i s → I (i + 1) s')
    (h : up body m n s = some s') : I (m + n) s' := by
  induction n generalizing m s with
  | zero =>
      cases h
      exact hs
  | succ n ih =>
      obtain ⟨s₁, hbody, hup⟩ := Option.bind_eq_some_iff.mp h
      have hend := ih (hstep m s s₁ (Nat.le_refl m) (by omega) hbody hs)
        (fun i s s' hi hlt => hstep i s s' (by omega) (by omega)) hup
      rwa [Nat.succ_add] at hend

theorem down_partial (I : Nat → σ → Prop) (hs : I n s)
    (hstep : ∀ i s s', i < n → body i s = some s' → I (i + 1) s → I i s')
    (h : down body n s = some s') : I 0 s' := by
  induction n generalizing s with
  | zero =>
      cases h
      exact hs
  | succ n ih =>
      obtain ⟨s₁, hbody, hdown⟩ := Option.bind_eq_some_iff.mp h
      exact ih (hstep n s s₁ n.lt_succ_self hbody hs)
        (fun i s s' hi => hstep i s s' (Nat.lt_succ_of_lt hi)) hdown

theorem up_simulates {body' : Nat → σ → Option σ} (R : Nat → σ → σ → Prop) (hs : R m s t)
    (hstep : ∀ i s t s', m ≤ i → i < m + n → R i s t → body i s = some s' →
      ∃ t', body' i t = some t' ∧ R (i + 1) s' t')
    (h : up body m n s = some s') :
    ∃ t', up body' m n t = some t' ∧ R (m + n) s' t' := by
  induction n generalizing m s t with
  | zero =>
      cases h
      exact ⟨t, rfl, hs⟩
  | succ n ih =>
      obtain ⟨s₁, hbody, hup⟩ := Option.bind_eq_some_iff.mp h
      obtain ⟨t₁, hbody', hst⟩ := hstep m s t s₁ (Nat.le_refl m) (by omega) hs hbody
      obtain ⟨t', hup', hend⟩ := ih hst
        (fun i s t s' hi hlt => hstep i s t s' (by omega) (by omega)) hup
      refine ⟨t', ?_, ?_⟩
      · rw [up, hbody']
        exact hup'
      · rwa [Nat.succ_add] at hend

end Loop

end RebuildTheWheel.Data
