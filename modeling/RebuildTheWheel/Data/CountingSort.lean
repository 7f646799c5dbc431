import Mathlib.Data.Nat.Count
import Mathlib.Data.Fintype.EquivFin
import Mathlib.Data.List.OfFn
import Mathlib.Data.List.FinRange
import Mathlib.Order.Defs.LinearOrder

namespace RebuildTheWheel.Data

/-! The places to which a stable counting sort moves the items of a list, where `key i` is
the key of the item at the place `i`. -/

namespace CountingSort

variable {κ : Type*} [LinearOrder κ]

/-- The number of places before `n` with a smaller key. -/
def below (key : Nat → κ) (n : Nat) (c : κ) : Nat := Nat.count (fun k => key k < c) n

def equal (key : Nat → κ) (n : Nat) (c : κ) : Nat := Nat.count (fun k => key k = c) n

def slot (key : Nat → κ) (n i : Nat) : Nat := below key n (key i) + equal key i (key i)

variable {key : Nat → κ} {n i j : Nat} {c d : κ}

theorem below_add_equal_le (hcd : c < d) : below key n c + equal key n c ≤ below key n d := by
  induction n with
  | zero => exact Nat.le_refl 0
  | succ n ih =>
      simp only [below, equal, Nat.count_succ] at ih ⊢
      rcases lt_trichotomy (key n) c with h | h | h
      · rw [if_pos h, if_neg h.ne, if_pos (h.trans hcd)]
        omega
      · rw [if_neg (not_lt_of_ge h.ge), if_pos h, if_pos (h.trans_lt hcd)]
        omega
      · rw [if_neg h.asymm, if_neg h.ne']
        omega

theorem below_add_equal_le_length : below key n c + equal key n c ≤ n := by
  induction n with
  | zero => exact Nat.le_refl 0
  | succ n ih =>
      simp only [below, equal, Nat.count_succ] at ih ⊢
      split <;> split <;> first | omega | exact absurd ‹key n = c› (ne_of_lt ‹key n < c›)

theorem equal_lt (hij : i < j) : equal key i (key i) < equal key j (key i) :=
  Nat.count_strict_mono rfl hij

theorem slot_lt (hi : i < n) : slot key n i < n :=
  Nat.lt_of_lt_of_le (Nat.add_lt_add_left (equal_lt hi) _) below_add_equal_le_length

theorem slot_lt_slot (hi : i < n) (h : key i < key j ∨ key i = key j ∧ i < j) :
    slot key n i < slot key n j := by
  rcases h with hlt | ⟨heq, hij⟩
  · calc
      slot key n i < below key n (key i) + equal key n (key i) :=
        Nat.add_lt_add_left (equal_lt hi) _
      _ ≤ below key n (key j) := below_add_equal_le hlt
      _ ≤ slot key n j := Nat.le_add_right _ _
  · rw [slot, slot, ← heq]
    exact Nat.add_lt_add_left (equal_lt hij) _

theorem slot_order (hj : j < n) (h : slot key n i < slot key n j) :
    key i < key j ∨ key i = key j ∧ i < j := by
  by_contra hnot
  rcases lt_trichotomy (key i) (key j) with hlt | heq | hlt
  · exact hnot (.inl hlt)
  · rcases Nat.lt_trichotomy i j with hij | rfl | hij
    · exact hnot (.inr ⟨heq, hij⟩)
    · exact Nat.lt_irrefl _ h
    · exact Nat.lt_asymm h (slot_lt_slot hj (.inr ⟨heq.symm, hij⟩))
  · exact Nat.lt_asymm h (slot_lt_slot hj (.inl hlt))

theorem slot_inj (hi : i < n) (hj : j < n) (h : slot key n i = slot key n j) : i = j := by
  rcases lt_trichotomy (key i) (key j) with hlt | heq | hlt
  · exact absurd h (slot_lt_slot hi (.inl hlt)).ne
  · rcases Nat.lt_trichotomy i j with hij | hij | hij
    · exact absurd h (slot_lt_slot hi (.inr ⟨heq, hij⟩)).ne
    · exact hij
    · exact absurd h (slot_lt_slot hj (.inr ⟨heq.symm, hij⟩)).ne'
  · exact absurd h (slot_lt_slot hj (.inl hlt)).ne'

theorem count_congr {p q : Nat → Prop} [DecidablePred p] [DecidablePred q]
    (h : ∀ k < n, p k ↔ q k) : Nat.count p n = Nat.count q n := by
  rw [Nat.count_eq_card_filter_range, Nat.count_eq_card_filter_range]
  exact congrArg Finset.card (Finset.filter_congr fun k hk => h k (Finset.mem_range.mp hk))

theorem slot_congr {key' : Nat → κ} (h : ∀ k < n, key k = key' k) (hi : i < n) :
    slot key n i = slot key' n i := by
  rw [slot, slot, h i hi]
  congr 1
  · exact count_congr fun k hk => by rw [h k hk]
  · exact count_congr fun k hk => by rw [h k (hk.trans hi)]

/-- The place of each item, as a bijection. -/
noncomputable def places (key : Nat → κ) (n : Nat) : Equiv.Perm (Fin n) :=
  Equiv.ofBijective (fun i => ⟨slot key n i, slot_lt i.2⟩)
    (Finite.injective_iff_bijective.mp fun i j h =>
      Fin.ext (slot_inj i.2 j.2 (congrArg Fin.val h)))

theorem exists_slot {q : Nat} (hq : q < n) : ∃ i, i < n ∧ slot key n i = q := by
  obtain ⟨i, hi⟩ := (places key n).surjective ⟨q, hq⟩
  exact ⟨i, i.2, congrArg Fin.val hi⟩

variable {α : Type*}

structure StablePass (key : Nat → κ) (before after : List α) : Prop where
  length_eq : after.length = before.length
  moved : ∀ i, i < before.length → after[slot key before.length i]? = before[i]?

variable {before after : List α}

theorem StablePass.perm (h : StablePass key before after) : after.Perm before := by
  have hbefore : before = List.ofFn fun i : Fin before.length => before.get i := by simp
  have hafter : after = List.ofFn fun q : Fin before.length => after.get (q.cast h.length_eq.symm) :=
    List.ext_getElem (by simp [h.length_eq]) (by simp)
  have hmoved : (fun i : Fin before.length => before.get i) =
      (fun q => after.get (q.cast h.length_eq.symm)) ∘ places key before.length := by
    funext i
    have hi := h.moved i i.2
    have hslot : slot key before.length i < after.length := by
      rw [h.length_eq]
      exact slot_lt i.2
    rw [List.getElem?_eq_getElem hslot, List.getElem?_eq_getElem i.2] at hi
    exact (Option.some.inj hi).symm
  rw [hafter]
  conv_rhs => rw [hbefore, hmoved]
  exact (Equiv.Perm.ofFn_comp_perm _ _).symm

/-- The items are sorted by their keys, and items with one key stay in their order. -/
theorem StablePass.pairwise {R : α → α → Prop} {keyOf : α → κ} (h : StablePass key before after)
    (hkey : ∀ i a, before[i]? = some a → key i = keyOf a) (hbefore : before.Pairwise R) :
    after.Pairwise fun a b => keyOf a < keyOf b ∨ keyOf a = keyOf b ∧ R a b := by
  rw [List.pairwise_iff_getElem]
  intro p q hp hq hpq
  rw [h.length_eq] at hp hq
  obtain ⟨i, hi, rfl⟩ : ∃ i, i < before.length ∧ slot key before.length i = p := exists_slot hp
  obtain ⟨j, hj, rfl⟩ : ∃ j, j < before.length ∧ slot key before.length j = q := exists_slot hq
  have hat (i : Nat) (hi : i < before.length) (hlt : slot key before.length i < after.length) :
      after[slot key before.length i] = before[i] := by
    have hmoved := h.moved i hi
    rw [List.getElem?_eq_getElem hlt, List.getElem?_eq_getElem hi] at hmoved
    exact Option.some.inj hmoved
  rw [hat i hi, hat j hj, ← hkey i _ (List.getElem?_eq_getElem hi),
    ← hkey j _ (List.getElem?_eq_getElem hj)]
  exact (slot_order hj hpq).imp_right fun ⟨heq, hij⟩ =>
    ⟨heq, List.pairwise_iff_getElem.mp hbefore i j hi hj hij⟩

theorem StablePass.unique {key' : Nat → κ} {after' : List α} (h : StablePass key before after)
    (h' : StablePass key' before after') (hkey : ∀ i < before.length, key i = key' i) :
    after = after' := by
  refine List.ext_getElem? fun q => ?_
  by_cases hq : q < before.length
  · obtain ⟨i, hi, rfl⟩ : ∃ i, i < before.length ∧ slot key before.length i = q := exists_slot hq
    rw [h.moved i hi, slot_congr hkey hi, h'.moved i hi]
  · rw [List.getElem?_eq_none (by rw [h.length_eq]; omega),
      List.getElem?_eq_none (by rw [h'.length_eq]; omega)]

end CountingSort

end RebuildTheWheel.Data
