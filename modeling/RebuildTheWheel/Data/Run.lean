import Mathlib.Data.Finset.Insert
import Mathlib.Data.Finset.Basic
import Mathlib.Logic.Relation

namespace RebuildTheWheel.Data

/-! Runs of a machine whose steps may fail, and the two rules by which a fact
about one step becomes a fact about every run. -/

namespace Run

variable {σ τ ω : Type*}

/-- Each step of the run is taken in a state that `guard` admits. -/
def Guarded (step : σ → ω → Option σ) (guard : σ → ω → Prop) :
    σ → List ω → Prop
  | _, [] => True
  | state, op :: ops =>
      guard state op ∧
        ∀ next, step state op = some next → Guarded step guard next ops

theorem guarded_append {step : σ → ω → Option σ} {guard : σ → ω → Prop} {ops rest : List ω}
    {state : σ} :
    Guarded step guard state (ops ++ rest) ↔ Guarded step guard state ops ∧
      ∀ final, ops.foldlM step state = some final → Guarded step guard final rest := by
  induction ops generalizing state with
  | nil =>
      constructor
      · intro h
        exact ⟨trivial, fun final hfinal => Option.some.inj hfinal ▸ h⟩
      · intro h
        exact h.2 state rfl
  | cons op ops ih =>
      constructor
      · intro ⟨hop, hrest⟩
        refine ⟨⟨hop, fun next hnext => (ih.mp (hrest next hnext)).1⟩, fun final hrun => ?_⟩
        rw [List.foldlM_cons] at hrun
        obtain ⟨next, hnext, hfinal⟩ := Option.bind_eq_some_iff.mp hrun
        exact (ih.mp (hrest next hnext)).2 final hfinal
      · intro ⟨⟨hop, hops⟩, hrest⟩
        refine ⟨hop, fun next hnext => ih.mpr ⟨hops next hnext, fun final hfinal => ?_⟩⟩
        refine hrest final ?_
        rw [List.foldlM_cons, hnext]
        exact hfinal

/-- The simulation rule for guarded runs: a relation that every admitted step
carries from the machine to its specification relates the ends of runs. -/
theorem simulates_of_guarded (R : σ → τ → Prop) {step : σ → ω → Option σ}
    {spec : τ → ω → τ} {guard : σ → ω → Prop}
    (hstep : ∀ state abstract op, R state abstract → guard state op →
      ∃ next, step state op = some next ∧ R next (spec abstract op))
    (ops : List ω) {state : σ} {abstract : τ} (hR : R state abstract)
    (hguard : Guarded step guard state ops) :
    ∃ final, ops.foldlM step state = some final ∧ R final (ops.foldl spec abstract) := by
  induction ops generalizing state abstract with
  | nil => exact ⟨state, rfl, hR⟩
  | cons op ops ih =>
      obtain ⟨next, hnext, hRnext⟩ := hstep state abstract op hR hguard.1
      obtain ⟨final, hfinal, hRfinal⟩ := ih hRnext (hguard.2 next hnext)
      refine ⟨final, ?_, hRfinal⟩
      simp [List.foldlM_cons, hnext, hfinal]

/-- The same rule, with guards that only look at the specification. -/
theorem simulates_of_admitted (R : σ → τ → Prop) {step : σ → ω → Option σ}
    {spec : τ → ω → τ} {admits : τ → ω → Prop}
    (hstep : ∀ state abstract op, R state abstract → admits abstract op →
      ∃ next, step state op = some next ∧ R next (spec abstract op))
    (ops : List ω) {state : σ} {abstract : τ} (hR : R state abstract)
    (hadmits : Guarded (fun abstract op => some (spec abstract op)) admits abstract ops) :
    ∃ final, ops.foldlM step state = some final ∧ R final (ops.foldl spec abstract) := by
  induction ops generalizing state abstract with
  | nil => exact ⟨state, rfl, hR⟩
  | cons op ops ih =>
      obtain ⟨next, hnext, hRnext⟩ := hstep state abstract op hR hadmits.1
      obtain ⟨final, hfinal, hRfinal⟩ := ih hRnext (hadmits.2 _ rfl)
      refine ⟨final, ?_, hRfinal⟩
      simp [List.foldlM_cons, hnext, hfinal]

/-- Where the steps that the guard refuses have no result, the runs with a result are those
that are guarded. -/
theorem isSome_iff_guarded (R : σ → τ → Prop) {step : σ → ω → Option σ} {spec : τ → ω → τ}
    {guard : σ → ω → Prop} {admits : τ → ω → Prop}
    (hstep : ∀ state abstract op, R state abstract → admits abstract op → guard state op →
      ∃ next, step state op = some next ∧ R next (spec abstract op))
    (hstuck : ∀ state abstract op, R state abstract → ¬guard state op → step state op = none)
    (ops : List ω) {state : σ} {abstract : τ} (hR : R state abstract)
    (hadmits : Guarded (fun abstract op => some (spec abstract op)) admits abstract ops) :
    (ops.foldlM step state).isSome ↔ Guarded step guard state ops := by
  induction ops generalizing state abstract with
  | nil => exact iff_of_true rfl trivial
  | cons op ops ih =>
      rw [List.foldlM_cons]
      by_cases hguard : guard state op
      · obtain ⟨next, hnext, hRnext⟩ := hstep state abstract op hR hadmits.1 hguard
        have hrest := ih hRnext (hadmits.2 _ rfl)
        simp only [hnext, Option.bind_eq_bind, Option.bind_some, hrest]
        constructor
        · intro h
          exact ⟨hguard, fun next' hnext' => Option.some.inj (hnext.symm.trans hnext') ▸ h⟩
        · intro h
          exact h.2 next hnext
      · rw [hstuck state abstract op hR hguard]
        exact iff_of_false Bool.false_ne_true fun h => hguard h.1

theorem guarded_true (step : σ → ω → Option σ) :
    ∀ (ops : List ω) (state : σ), Guarded step (fun _ _ => True) state ops
  | [], _ => trivial
  | _ :: ops, _ => ⟨trivial, fun next _ => guarded_true step ops next⟩

theorem simulates (R : σ → τ → Prop) {step : σ → ω → Option σ} {spec : τ → ω → τ}
    (hstep : ∀ state abstract op, R state abstract →
      ∃ next, step state op = some next ∧ R next (spec abstract op))
    (ops : List ω) {state : σ} {abstract : τ} (hR : R state abstract) :
    ∃ final, ops.foldlM step state = some final ∧ R final (ops.foldl spec abstract) :=
  simulates_of_guarded R (fun state abstract op h _ => hstep state abstract op h)
    ops hR (guarded_true step ops state)

/-- The invariant rule for guarded runs whose steps are all defined. -/
theorem defined_of_guarded {step : σ → ω → Option σ} {guard : σ → ω → Prop} {good : σ → Prop}
    (hstep : ∀ state op, good state → guard state op →
      ∃ next, step state op = some next ∧ good next)
    (ops : List ω) {state : σ} (hgood : good state) (hguard : Guarded step guard state ops) :
    ∃ final, ops.foldlM step state = some final ∧ good final := by
  induction ops generalizing state with
  | nil => exact ⟨state, rfl, hgood⟩
  | cons op ops ih =>
      obtain ⟨next, hnext, hgood'⟩ := hstep state op hgood hguard.1
      obtain ⟨final, hfinal, hgood''⟩ := ih hgood' (hguard.2 next hnext)
      refine ⟨final, ?_, hgood''⟩
      simp [List.foldlM_cons, hnext, hfinal]

/-- The invariant rule for guarded runs that may stop early. -/
theorem invariant_of_guarded {step : σ → ω → Option σ} {guard : σ → ω → Prop} {good : σ → Prop}
    (hstep : ∀ state op next, good state → guard state op → step state op = some next → good next)
    (ops : List ω) {state final : σ} (hgood : good state) (hguard : Guarded step guard state ops)
    (hrun : ops.foldlM step state = some final) : good final := by
  induction ops generalizing state with
  | nil =>
      obtain rfl : state = final := Option.some.inj hrun
      exact hgood
  | cons op ops ih =>
      rw [List.foldlM_cons] at hrun
      obtain ⟨next, hnext, hrest⟩ := Option.bind_eq_some_iff.mp hrun
      exact ih (hstep _ _ _ hgood hguard.1 hnext) (hguard.2 next hnext) hrest

/-! Properties of every state that a relation leads to. -/

section

variable {step : σ → σ → Prop} {good : σ → Prop}

def Always (step : σ → σ → Prop) (good : σ → Prop) (state : σ) : Prop :=
  ∀ state', Relation.ReflTransGen step state state' → good state'

/-- The invariant rule for a relation. -/
theorem always_of_invariant {inv : σ → Prop}
    (hstep : ∀ state next, inv state → step state next → inv next)
    (hgood : ∀ state, inv state → good state) {state : σ} (h : inv state) : Always step good state := by
  intro state' hreach
  refine hgood state' ?_
  induction hreach with
  | refl => exact h
  | tail _ hnext ih => exact hstep _ _ ih hnext

/-- Steps that keep an invariant and make a measure smaller lead to a state where none is taken. -/
theorem exists_stuck {inv : σ → Prop} (measure : σ → Nat)
    (hstep : ∀ state next, inv state → step state next → inv next ∧ measure next < measure state)
    {state : σ} (h : inv state) :
    ∃ last, Relation.ReflTransGen step state last ∧ inv last ∧ ∀ next, ¬step last next := by
  by_cases hstuck : ∃ next, step state next
  · obtain ⟨next, hnext⟩ := hstuck
    obtain ⟨hinv, hless⟩ := hstep state next h hnext
    obtain ⟨last, hreach, hlast, hnone⟩ := exists_stuck measure hstep hinv
    exact ⟨last, .head hnext hreach, hlast, hnone⟩
  · exact ⟨state, .refl, h, not_exists.mp hstuck⟩
termination_by measure state

theorem always_iff_of_step {state next : σ} (hstep : step state next)
    (hunique : ∀ state', step state state' → state' = next) :
    Always step good state ↔ good state ∧ Always step good next := by
  constructor
  · intro h
    exact ⟨h state .refl, fun state' hreach => h state' (.head hstep hreach)⟩
  · intro ⟨hstate, hnext⟩ state' hreach
    rcases hreach.cases_head with rfl | ⟨middle, hmiddle, hrest⟩
    · exact hstate
    · rw [hunique middle hmiddle] at hrest
      exact hnext state' hrest

theorem always_iff_of_stuck {state : σ} (hstuck : ∀ state', ¬step state state') :
    Always step good state ↔ good state := by
  constructor
  · intro h
    exact h state .refl
  · intro hstate state' hreach
    rcases hreach.cases_head with rfl | ⟨middle, hmiddle, _⟩
    · exact hstate
    · exact absurd hmiddle (hstuck middle)

end

end Run

theorem mem_foldl_insert {α : Type*} [DecidableEq α] (vals : List α) (s : Finset α) (k : α) :
    k ∈ vals.foldl (fun s val => insert val s) s ↔ k ∈ vals ∨ k ∈ s := by
  induction vals generalizing s with
  | nil => simp
  | cons val vals ih =>
      rw [List.foldl_cons, ih, Finset.mem_insert, List.mem_cons]
      tauto

/-! The abstract container the search trees implement: a finite set under
insertion and erasure. -/

inductive SetOp (α : Type*) where
  | insert (val : α)
  | erase (val : α)

namespace SetOp

variable {α : Type*} [DecidableEq α]

def apply (s : Finset α) : SetOp α → Finset α
  | .insert val => Insert.insert val s
  | .erase val => s.erase val

/-- The values inserted by `ops` and not erased since. -/
def contents (ops : List (SetOp α)) : Finset α :=
  ops.foldl apply ∅

end SetOp

end RebuildTheWheel.Data
