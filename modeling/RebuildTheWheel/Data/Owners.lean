import Mathlib.Data.Fintype.Card
import Mathlib.Logic.Function.Basic

namespace RebuildTheWheel.Data

/-! Names that each own at most one thing, and how the number of owners changes when one
name is set. -/

section

variable {α β : Type*} [Fintype α] [DecidableEq β]

def owners (f : α → Option β) (b : β) : Finset α := Finset.univ.filter fun a => f a = some b

theorem mem_owners {f : α → Option β} {b : β} {a : α} : a ∈ owners f b ↔ f a = some b := by
  simp [owners]

theorem card_owners_pos {f : α → Option β} {b : β} {a : α} (h : f a = some b) :
    0 < (owners f b).card :=
  Finset.card_pos.mpr ⟨a, mem_owners.mpr h⟩

theorem one_lt_card_owners_iff {f : α → Option β} {b : β} {a : α} (h : f a = some b) :
    1 < (owners f b).card ↔ ∃ a', a' ≠ a ∧ f a' = some b := by
  have hmem := mem_owners.mpr h
  constructor
  · intro hcard
    obtain ⟨a', ha', hne⟩ := Finset.exists_mem_ne hcard a
    exact ⟨a', hne, mem_owners.mp ha'⟩
  · rintro ⟨a', hne, ha'⟩
    exact Finset.one_lt_card.mpr ⟨a', mem_owners.mpr ha', a, hmem, hne⟩

variable [DecidableEq α]

theorem owners_update_self (f : α → Option β) (a : α) (b : β) :
    owners (Function.update f a (some b)) b = insert a (owners f b) := by
  ext x
  rw [Finset.mem_insert, mem_owners, mem_owners]
  by_cases hx : x = a
  · simp [hx]
  · simp [hx]

theorem owners_update_of_ne (f : α → Option β) (a : α) {v : Option β} {b : β} (hv : v ≠ some b) :
    owners (Function.update f a v) b = (owners f b).erase a := by
  ext x
  rw [Finset.mem_erase, mem_owners, mem_owners]
  by_cases hx : x = a
  · simp [hx, hv]
  · simp [hx]

theorem card_owners_insert {f : α → Option β} {a : α} {b : β} (h : f a ≠ some b) :
    (owners (Function.update f a (some b)) b).card = (owners f b).card + 1 := by
  rw [owners_update_self, Finset.card_insert_of_notMem fun hmem => h (mem_owners.mp hmem)]

theorem card_owners_erase {f : α → Option β} {a : α} {b : β} (h : f a = some b) {v : Option β}
    (hv : v ≠ some b) : (owners (Function.update f a v) b).card + 1 = (owners f b).card := by
  rw [owners_update_of_ne f a hv, Finset.card_erase_add_one (mem_owners.mpr h)]

theorem owners_update_other {f : α → Option β} {a : α} {b : β} (h : f a ≠ some b) {v : Option β}
    (hv : v ≠ some b) : owners (Function.update f a v) b = owners f b := by
  rw [owners_update_of_ne f a hv]
  exact Finset.erase_eq_of_notMem fun hmem => h (mem_owners.mp hmem)

end

end RebuildTheWheel.Data
