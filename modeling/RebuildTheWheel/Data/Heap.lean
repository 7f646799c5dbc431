import Mathlib.Logic.Equiv.Basic
import Mathlib.Order.Lattice

namespace RebuildTheWheel.Data

/-! Binary heaps in an array, as a function of the index, with the two ways to repair one
entry that stands wrong. -/

namespace Heap

variable {T : Type*} [LinearOrder T]

def parent (i : Nat) : Nat := (i - 1) / 2

theorem parent_lt {i : Nat} (hi : 0 < i) : parent i < i := by
  rw [parent]
  omega

theorem parent_eq_iff {i c : Nat} (hi : 0 < i) : parent i = c ↔ i = 2 * c + 1 ∨ i = 2 * c + 2 := by
  rw [parent]
  omega

/-- Each entry below `n` whose parent is not before `lo` is at most its parent. -/
def IsHeap (a : Nat → T) (lo n : Nat) : Prop :=
  ∀ i, 0 < i → i < n → lo ≤ parent i → a i ≤ a (parent i)

/-- The entry `c` may be too small. -/
structure SinksAt (a : Nat → T) (lo n c : Nat) : Prop where
  off : ∀ i, 0 < i → i < n → lo ≤ parent i → parent i ≠ c → a i ≤ a (parent i)
  grand : ∀ i, 0 < i → i < n → parent i = c → 0 < c → lo ≤ parent c → a i ≤ a (parent c)

/-- The entry `c` may be too large. -/
structure RisesAt (a : Nat → T) (n c : Nat) : Prop where
  off : ∀ i, 0 < i → i < n → i ≠ c → a i ≤ a (parent i)
  grand : ∀ i, 0 < i → i < n → parent i = c → 0 < c → a i ≤ a (parent c)

def swapped (a : Nat → T) (i j : Nat) : Nat → T := a ∘ Equiv.swap i j

section

omit [LinearOrder T]

variable (a : Nat → T) (i j : Nat)

@[simp] theorem swapped_left : swapped a i j i = a j := by
  simp [swapped]

@[simp] theorem swapped_right : swapped a i j j = a i := by
  simp [swapped]

@[simp] theorem swapped_of_ne {k : Nat} (hi : k ≠ i) (hj : k ≠ j) : swapped a i j k = a k := by
  simp [swapped, Equiv.swap_apply_of_ne_of_ne hi hj]

end

variable {a : Nat → T} {lo n c m : Nat}

theorem IsHeap.sinksAt (h : IsHeap a (c + 1) n) : SinksAt a c n c where
  off := by
    intro i hpos hlt hlo hne
    exact h i hpos hlt (Nat.lt_of_le_of_ne hlo hne.symm)
  grand := by
    intro i _ _ _ hc hle
    exact absurd (hle.trans_lt (parent_lt hc)) (Nat.lt_irrefl c)

/-- The entry stays where it is: the subtree below its larger child is a heap. -/
theorem SinksAt.pass (h : SinksAt a lo n c) (hm : 0 < m) (hchild : parent m = c)
    (hmax : ∀ i, 0 < i → i < n → parent i = c → a i ≤ a m) (hle : a m ≤ a c) :
    SinksAt a lo n m where
  off := by
    intro i hpos hlt hlo _
    by_cases hi : parent i = c
    · rw [hi]
      exact (hmax i hpos hlt hi).trans hle
    · exact h.off i hpos hlt hlo hi
  grand := by
    intro i hpos hlt hi _ hlo
    have hcm : c ≠ m := Nat.ne_of_lt (hchild ▸ parent_lt hm)
    have him := h.off i hpos hlt (hi ▸ (hlo.trans (Nat.le_of_lt (parent_lt hm)))) (hi ▸ hcm.symm)
    rw [hi] at him
    rw [hchild]
    exact him.trans hle

/-- The entry changes places with its larger child. -/
theorem SinksAt.swap (h : SinksAt a lo n c) (hc : lo ≤ c) (hm : 0 < m) (hmn : m < n)
    (hchild : parent m = c) (hmax : ∀ i, 0 < i → i < n → parent i = c → a i ≤ a m)
    (hlt : a c < a m) : SinksAt (swapped a c m) lo n m := by
  have hcm : c < m := hchild ▸ parent_lt hm
  constructor
  · intro i hpos hin hlo him
    by_cases hic : i = c
    · have hpc : parent i ≠ c := by
        rw [hic]
        exact Nat.ne_of_lt (parent_lt (hic ▸ hpos))
      rw [hic, swapped_left, swapped_of_ne a c m (hic ▸ hpc) (hic ▸ him)]
      exact h.grand m hm hmn hchild (hic ▸ hpos) (hic ▸ hlo)
    · by_cases hpc : parent i = c
      · rw [hpc, swapped_left]
        by_cases him' : i = m
        · rw [him', swapped_right]
          exact hlt.le
        · rw [swapped_of_ne a c m hic him']
          exact hmax i hpos hin hpc
      · have him' : i ≠ m := by
          rintro rfl
          exact hpc hchild
        rw [swapped_of_ne a c m hic him', swapped_of_ne a c m hpc him]
        exact h.off i hpos hin hlo hpc
  · intro i hpos hin hi _ _
    have himlt : m < i := hi ▸ parent_lt hpos
    rw [hchild, swapped_left, swapped_of_ne a c m (Nat.ne_of_gt (hcm.trans himlt)) (Nat.ne_of_gt himlt)]
    have hle := h.off i hpos hin (hi ▸ hc.trans hcm.le) (hi ▸ Nat.ne_of_gt hcm)
    rwa [hi] at hle

/-- The entry has no children. -/
theorem SinksAt.isHeap (h : SinksAt a lo n c) (hleaf : n ≤ 2 * c + 1) : IsHeap a lo n := by
  intro i hpos hlt hlo
  apply h.off i hpos hlt hlo
  intro hi
  rcases (parent_eq_iff hpos).mp hi with rfl | rfl <;> omega

/-- The entry stays where it is. -/
theorem RisesAt.pass (h : RisesAt a n c) (hpos : 0 < c) (hle : a c ≤ a (parent c)) :
    RisesAt a n (parent c) where
  off := by
    intro i hi hlt _
    by_cases hic : i = c
    · rw [hic]
      exact hle
    · exact h.off i hi hlt hic
  grand := by
    intro i hi hlt hparent hp
    have hup := h.off (parent c) hp (hparent ▸ (parent_lt hi).trans hlt)
      (Nat.ne_of_lt (parent_lt hpos))
    by_cases hic : i = c
    · rw [hic]
      exact hle.trans hup
    · have hstep := h.off i hi hlt hic
      rw [hparent] at hstep
      exact hstep.trans hup

/-- The entry changes places with its parent. -/
theorem RisesAt.swap (h : RisesAt a n c) (hpos : 0 < c) (hcn : c < n) (hlt : a (parent c) < a c) :
    RisesAt (swapped a (parent c) c) n (parent c) := by
  have hpc : parent c < c := parent_lt hpos
  constructor
  · intro i hi hin hne
    by_cases hic : i = c
    · rw [hic, swapped_right, swapped_left]
      exact hlt.le
    · rw [swapped_of_ne a _ _ hne hic]
      by_cases hip : parent i = parent c
      · rw [hip, swapped_left]
        have hstep := h.off i hi hin hic
        rw [hip] at hstep
        exact hstep.trans hlt.le
      · by_cases hic' : parent i = c
        · rw [hic', swapped_right]
          exact h.grand i hi hin hic' hpos
        · rw [swapped_of_ne a _ _ hip hic']
          exact h.off i hi hin hic
  · intro i hi hin hparent hp
    have hup : parent (parent c) < parent c := parent_lt hp
    have hstep := h.off (parent c) hp (hpc.trans hcn) (Nat.ne_of_lt hpc)
    rw [swapped_of_ne a _ _ (Nat.ne_of_lt hup) (Nat.ne_of_lt (hup.trans hpc))]
    by_cases hic : i = c
    · rw [hic, swapped_right]
      exact hstep
    · have hip : i ≠ parent c := Nat.ne_of_gt (hparent ▸ parent_lt hi)
      rw [swapped_of_ne a _ _ hip hic]
      have hle := h.off i hi hin hic
      rw [hparent] at hle
      exact hle.trans hstep

theorem RisesAt.isHeap (h : RisesAt a n 0) : IsHeap a 0 n :=
  fun i hpos hlt _ => h.off i hpos hlt (Nat.ne_of_gt hpos)

theorem IsHeap.risesAt (h : IsHeap a 0 n) : RisesAt a (n + 1) n where
  off := fun i hpos hlt hne => h i hpos (Nat.lt_of_le_of_ne (Nat.le_of_lt_succ hlt) hne) (Nat.zero_le _)
  grand := by
    intro i hpos hlt hparent _
    have hlt' := parent_lt hpos
    omega

/-- The root of a heap is its maximum. -/
theorem IsHeap.le_root (h : IsHeap a 0 n) : ∀ {i : Nat}, i < n → a i ≤ a 0 := by
  intro i
  induction i using Nat.strong_induction_on with
  | h i ih =>
      intro hlt
      rcases Nat.eq_zero_or_pos i with rfl | hpos
      · exact le_refl _
      · have hparent := parent_lt hpos
        exact (h i hpos hlt (Nat.zero_le _)).trans (ih (parent i) hparent (hparent.trans hlt))

theorem IsHeap.congr {b : Nat → T} (h : IsHeap a lo n) (hab : ∀ i < n, a i = b i) :
    IsHeap b lo n := by
  intro i hpos hlt hlo
  rw [← hab i hlt, ← hab (parent i) ((parent_lt hpos).trans hlt)]
  exact h i hpos hlt hlo

end Heap

end RebuildTheWheel.Data

namespace RebuildTheWheel.Data

open Heap

variable {T : Type*} {a b c : Nat → T} {i j lo hi : Nat}

/-! Elements that change places within a range of positions. -/

structure Rearranged (a b : Nat → T) (lo hi : Nat) : Prop where
  outside : ∀ i, i < lo ∨ hi ≤ i → b i = a i
  inside : ∀ i, lo ≤ i → i < hi → ∃ j, lo ≤ j ∧ j < hi ∧ b i = a j

namespace Rearranged

theorem refl (a : Nat → T) (lo hi : Nat) : Rearranged a a lo hi where
  outside := fun _ _ => rfl
  inside := fun i hlo hhi => ⟨i, hlo, hhi, rfl⟩

theorem trans (h : Rearranged a b lo hi) (h' : Rearranged b c lo hi) : Rearranged a c lo hi where
  outside := fun i hi => (h'.outside i hi).trans (h.outside i hi)
  inside := by
    intro i hlo hhi
    obtain ⟨j, hlo', hhi', hj⟩ := h'.inside i hlo hhi
    obtain ⟨k, hlo'', hhi'', hk⟩ := h.inside j hlo' hhi'
    exact ⟨k, hlo'', hhi'', hj.trans hk⟩

theorem mono {lo' hi' : Nat} (h : Rearranged a b lo hi) (hlo : lo' ≤ lo) (hhi : hi ≤ hi') :
    Rearranged a b lo' hi' where
  outside := fun i hi => h.outside i (by omega)
  inside := by
    intro i hilo hihi
    by_cases hin : lo ≤ i ∧ i < hi
    · obtain ⟨j, hjlo, hjhi, hj⟩ := h.inside i hin.1 hin.2
      exact ⟨j, hlo.trans hjlo, hjhi.trans_le hhi, hj⟩
    · exact ⟨i, hilo, hihi, h.outside i (by omega)⟩

theorem swapped (a : Nat → T) (hi' : lo ≤ i ∧ i < hi) (hj : lo ≤ j ∧ j < hi) :
    Rearranged a (swapped a i j) lo hi where
  outside := fun k hk => swapped_of_ne a i j (by omega) (by omega)
  inside := by
    intro k hlo hhi
    by_cases hik : k = i
    · exact ⟨j, hj.1, hj.2, hik ▸ swapped_left a i j⟩
    · by_cases hjk : k = j
      · exact ⟨i, hi'.1, hi'.2, hjk ▸ swapped_right a i j⟩
      · exact ⟨k, hlo, hhi, swapped_of_ne a i j hik hjk⟩

end Rearranged

end RebuildTheWheel.Data
