import Mathlib.Data.Set.Card
import Mathlib.Logic.Relation

namespace RebuildTheWheel.Data

/-! The classes that a list of links joins, and functions that pick one member of each. -/

namespace Classes

variable {α : Type*}

def Joined (links : List (α × α)) : α → α → Prop :=
  Relation.EqvGen fun x y => (x, y) ∈ links

structure Represents (rep : α → α) (links : List (α × α)) : Prop where
  idem : ∀ x, rep (rep x) = rep x
  same_iff : ∀ x y, rep x = rep y ↔ Joined links x y

theorem joined_nil_iff {x y : α} : Joined [] x y ↔ x = y := by
  constructor
  · intro h
    induction h with
    | rel _ _ hmem => cases hmem
    | refl => rfl
    | symm _ _ _ ih => exact ih.symm
    | trans _ _ _ _ _ ih₁ ih₂ => exact ih₁.trans ih₂
  · rintro rfl
    exact .refl x

theorem represents_id : Represents id ([] : List (α × α)) where
  idem := fun _ => rfl
  same_iff := fun _ _ => joined_nil_iff.symm

theorem Joined.cons {links : List (α × α)} (link : α × α) {x y : α} (h : Joined links x y) :
    Joined (link :: links) x y :=
  Relation.EqvGen.mono (fun _ _ hmem => List.mem_cons_of_mem _ hmem) _ _ h

variable [DecidableEq α]

/-- The class of `a` goes to `b`. -/
def merge (rep : α → α) (a b x : α) : α := if rep x = a then b else rep x

theorem merge_of_eq {rep : α → α} {a x : α} (b : α) (h : rep x = a) : merge rep a b x = b :=
  if_pos h

theorem merge_of_ne {rep : α → α} {a x : α} (b : α) (h : rep x ≠ a) :
    merge rep a b x = rep x :=
  if_neg h

theorem merge_eq_right_iff {rep : α → α} {a b x : α} :
    merge rep a b x = b ↔ rep x = a ∨ rep x = b := by
  by_cases h : rep x = a
  · simp [merge_of_eq b h, h]
  · simp [merge_of_ne b h, h]

theorem Represents.merge {rep : α → α} {links : List (α × α)} (h : Represents rep links)
    {x y a b : α} (hends : rep x = a ∧ rep y = b ∨ rep x = b ∧ rep y = a) :
    Represents (merge rep a b) ((x, y) :: links) where
  idem := by
    intro z
    have hb : rep b = b := by
      rcases hends with ⟨-, rfl⟩ | ⟨rfl, -⟩ <;> exact h.idem _
    by_cases hz : rep z = a
    · rw [merge_of_eq b hz, merge_eq_right_iff]
      exact .inr hb
    · rw [merge_of_ne b hz, Classes.merge, h.idem, if_neg hz]
  same_iff := by
    have hlink : Joined ((x, y) :: links) x y := .rel _ _ List.mem_cons_self
    -- Each element is joined to the member that now stands for it.
    have hjoined : ∀ z, ∃ w, rep w = Classes.merge rep a b z ∧ Joined ((x, y) :: links) z w := by
      intro z
      by_cases hz : rep z = a
      · rw [merge_of_eq b hz]
        rcases hends with ⟨hx, hy⟩ | ⟨hx, hy⟩
        · exact ⟨y, hy, (((h.same_iff z x).mp (hz.trans hx.symm)).cons _).trans _ _ _ hlink⟩
        · exact ⟨x, hx, (((h.same_iff z y).mp (hz.trans hy.symm)).cons _).trans _ _ _
            (hlink.symm _ _)⟩
      · exact ⟨z, (merge_of_ne b hz).symm, .refl z⟩
    intro u v
    constructor
    · intro heq
      obtain ⟨w, hw, huw⟩ := hjoined u
      obtain ⟨w', hw', hvw⟩ := hjoined v
      have hww := (h.same_iff w w').mp (hw.trans (heq.trans hw'.symm))
      exact (huw.trans _ _ _ (hww.cons _)).trans _ _ _ (hvw.symm _ _)
    · intro hjoin
      induction hjoin with
      | rel u v hmem =>
          rcases List.mem_cons.mp hmem with hhead | htail
          · obtain ⟨rfl, rfl⟩ := Prod.mk.inj hhead
            rcases hends with ⟨hu, hv⟩ | ⟨hu, hv⟩
            · rw [merge_of_eq b hu, eq_comm, merge_eq_right_iff]
              exact .inr hv
            · rw [merge_of_eq b hv, merge_eq_right_iff]
              exact .inr hu
          · rw [Classes.merge, Classes.merge, (h.same_iff u v).mpr (.rel _ _ htail)]
      | refl => rfl
      | symm _ _ _ ih => exact ih.symm
      | trans _ _ _ _ _ ih₁ ih₂ => exact ih₁.trans ih₂

/-- How many members of `s` the element `r` stands for. -/
def classSize (s : Finset α) (rep : α → α) (r : α) : Nat := (s.filter (rep · = r)).card

variable {s : Finset α} {rep : α → α}

theorem classSize_le_card (r : α) : classSize s rep r ≤ s.card := Finset.card_filter_le ..

theorem classSize_pos (rep : α → α) {x : α} (hx : x ∈ s) : 0 < classSize s rep (rep x) :=
  Finset.card_pos.mpr ⟨x, Finset.mem_filter.mpr ⟨hx, rfl⟩⟩

theorem classSize_merge (s : Finset α) (rep : α → α) {a b : α} (hab : a ≠ b) :
    classSize s (merge rep a b) b = classSize s rep a + classSize s rep b := by
  rw [classSize, classSize, classSize, ← Finset.card_union_of_disjoint]
  · rw [← Finset.filter_or]
    congr 1
    ext x
    simp only [Finset.mem_filter, merge_eq_right_iff]
  · rw [Finset.disjoint_filter]
    intro x _ ha hb
    exact hab (ha.symm.trans hb)

theorem classSize_merge_of_ne {a b r : α} (ha : r ≠ a) (hb : r ≠ b) :
    classSize s (merge rep a b) r = classSize s rep r := by
  rw [classSize, classSize]
  congr 1
  ext x
  simp only [Finset.mem_filter, and_congr_right_iff]
  intro _
  by_cases hx : rep x = a
  · rw [merge_of_eq b hx, hx]
    exact iff_of_false hb.symm ha.symm
  · rw [merge_of_ne b hx]

theorem Represents.ncard_eq {links : List (α × α)} (h : Represents rep links) (s : Finset α)
    (x : α) : {y | y ∈ s ∧ Joined links x y}.ncard = classSize s rep (rep x) := by
  rw [classSize, ← Set.ncard_coe_finset]
  congr 1
  ext y
  simp only [Set.mem_ofPred_eq, Finset.coe_filter]
  rw [← h.same_iff, eq_comm]

end Classes

end RebuildTheWheel.Data
