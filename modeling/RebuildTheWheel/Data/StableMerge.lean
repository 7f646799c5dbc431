import Mathlib.Data.List.Perm.Basic
import Mathlib.Order.Basic
import Mathlib.Order.Defs.Unbundled
import Mathlib.Order.Antisymmetrization

namespace RebuildTheWheel.Data

/-! Merging two lists that a strict weak order has sorted. -/

variable {T : Type*} {comp : T → T → Bool} {xs ys zs : List T} {a b c : T}

abbrev StrictWeakOrder (comp : T → T → Bool) : Prop :=
  IsStrictWeakOrder T fun a b => comp a b = true

/-- No element is in front of a smaller one. -/
def Sorted (comp : T → T → Bool) (xs : List T) : Prop := xs.Pairwise fun a b => comp b a = false

def equivalent (comp : T → T → Bool) (a b : T) : Bool := !comp a b && !comp b a

/-- `zs` is the stable merge of `xs` and `ys`. -/
structure StableMerge (comp : T → T → Bool) (xs ys zs : List T) : Prop where
  perm : zs.Perm (xs ++ ys)
  sorted : Sorted comp zs
  stable : ∀ a, zs.filter (equivalent comp a) =
    xs.filter (equivalent comp a) ++ ys.filter (equivalent comp a)

/-- `zs` is `xs` in order, and equivalent elements keep theirs. -/
structure StableSort (comp : T → T → Bool) (xs zs : List T) : Prop where
  perm : zs.Perm xs
  sorted : Sorted comp zs
  stable : ∀ a, zs.filter (equivalent comp a) = xs.filter (equivalent comp a)

namespace StrictWeakOrder

theorem asymm (h : StrictWeakOrder comp) (hab : comp a b = true) : comp b a = false := by
  cases hba : comp b a with
  | false => rfl
  | true => exact absurd (h.trans _ _ _ hab hba) (h.irrefl a)

theorem not_trans (h : StrictWeakOrder comp) (hab : comp a b = false) (hbc : comp b c = false) :
    comp a c = false := by
  cases hac : comp a c with
  | false => rfl
  | true =>
      have hba : comp b a = false := by
        cases hba : comp b a with
        | false => rfl
        | true => exact hbc ▸ (h.trans _ _ _ hba hac).symm
      have hcb : comp c b = false := by
        cases hcb : comp c b with
        | false => rfl
        | true => exact hab ▸ (h.trans _ _ _ hac hcb).symm
      have hincomp := h.incomp_trans a b c (by simp [hab, hba]) (by simp [hbc, hcb])
      exact absurd hac hincomp.1

theorem less [LinearOrder T] : StrictWeakOrder fun a b : T => decide (a < b) where
  irrefl a := by simp
  trans a b c hab hbc := by
    rw [decide_eq_true_eq] at hab hbc ⊢
    exact hab.trans hbc
  incomp_trans a b c hab hbc := by
    simp only [decide_eq_true_eq, not_lt] at hab hbc ⊢
    exact ⟨hbc.1.trans hab.1, hab.2.trans hbc.2⟩

theorem greater [LinearOrder T] : StrictWeakOrder fun a b : T => decide (a > b) where
  irrefl a := by simp
  trans a b c hab hbc := by
    rw [decide_eq_true_eq] at hab hbc ⊢
    exact hbc.trans hab
  incomp_trans a b c hab hbc := by
    simp only [decide_eq_true_eq, gt_iff_lt, not_lt] at hab hbc ⊢
    exact ⟨hab.1.trans hbc.1, hbc.2.trans hab.2⟩

end StrictWeakOrder

/-- What is sorted around a pivot is sorted. -/
theorem Sorted.pivot (h : StrictWeakOrder comp) (hxs : Sorted comp xs) (hys : Sorted comp ys)
    (hless : ∀ x ∈ xs, comp x a = true) (hnot : ∀ y ∈ ys, comp y a = false) :
    Sorted comp (xs ++ a :: ys) := by
  refine List.pairwise_append.mpr ⟨hxs, List.pairwise_cons.mpr ⟨hnot, hys⟩, ?_⟩
  intro x hx y hy
  have hax : comp a x = false := h.asymm (hless x hx)
  rcases List.mem_cons.mp hy with rfl | hy
  · exact hax
  · exact h.not_trans (hnot y hy) hax

theorem filter_equivalent_eq_nil (h : StrictWeakOrder comp) (hxs : Sorted comp (c :: xs))
    (hbc : comp b c = true) (hab : equivalent comp a b = true) :
    (c :: xs).filter (equivalent comp a) = [] := by
  simp only [equivalent, Bool.and_eq_true, Bool.not_eq_true'] at hab
  have hbelow : ∀ x ∈ c :: xs, comp b x = true := by
    intro x hx
    have hxc : comp x c = false := by
      rcases List.mem_cons.mp hx with rfl | hx
      · exact Bool.eq_false_iff.mpr (h.irrefl x)
      · exact List.rel_of_pairwise_cons hxs hx
    cases hbx : comp b x with
    | true => rfl
    | false => exact (h.not_trans hbx hxc).symm.trans hbc
  rw [List.filter_eq_nil_iff]
  intro x hx heq
  simp only [equivalent, Bool.and_eq_true, Bool.not_eq_true'] at heq
  have hbx := h.not_trans hab.2 heq.1
  rw [hbelow x hx] at hbx
  cases hbx

theorem merge_filter_equivalent (h : StrictWeakOrder comp) (hxs : Sorted comp xs) (a : T) :
    (xs.merge ys fun a b => !comp b a).filter (equivalent comp a) =
      xs.filter (equivalent comp a) ++ ys.filter (equivalent comp a) := by
  induction xs generalizing ys with
  | nil => rw [List.nil_merge, List.filter_nil, List.nil_append]
  | cons x xs ihx =>
      induction ys with
      | nil => rw [List.merge_right, List.filter_nil, List.append_nil]
      | cons y ys ihy =>
          by_cases hyx : comp y x = true
          · rw [List.cons_merge_cons_neg _ _ _ (by simp [hyx])]
            by_cases hay : equivalent comp a y = true
            · have hnil := filter_equivalent_eq_nil h hxs hyx hay
              rw [List.filter_cons_of_pos hay, List.filter_cons_of_pos hay, ihy, hnil]
              rfl
            · rw [List.filter_cons_of_neg hay, List.filter_cons_of_neg hay, ihy]
          · rw [List.cons_merge_cons_pos _ _ _ (by simp [hyx]), List.filter_cons, List.filter_cons,
              ihx hxs.tail]
            split_ifs <;> rfl

theorem sorted_iff : Sorted comp xs ↔ xs.Pairwise fun a b => (!comp b a) = true := by
  simp only [Sorted, Bool.not_eq_true']

theorem stableMerge_merge (h : StrictWeakOrder comp) (hxs : Sorted comp xs) (hys : Sorted comp ys) :
    StableMerge comp xs ys (xs.merge ys fun a b => !comp b a) := by
  refine ⟨List.merge_perm_append _, sorted_iff.mpr ?_, merge_filter_equivalent h hxs⟩
  refine List.pairwise_merge ?_ ?_ xs ys (sorted_iff.mp hxs) (sorted_iff.mp hys)
  · intro a b c hab hbc
    rw [Bool.not_eq_true'] at hab hbc ⊢
    exact h.not_trans hbc hab
  · intro a b
    cases hba : comp b a with
    | false => rfl
    | true => simp [h.asymm hba]

end RebuildTheWheel.Data

namespace RebuildTheWheel.Data

/-! A strict weak order compares keys from a linear order, the classes of its equivalent
elements. -/

universe u

variable {T : Type u} {comp : T → T → Bool}

structure Key (comp : T → T → Bool) (K : Type*) [LinearOrder K] where
  key : T → K
  comp_iff : ∀ x y, comp x y = true ↔ key x < key y

namespace StrictWeakOrder

abbrev preorder (h : StrictWeakOrder comp) : Preorder T where
  le x y := comp y x = false
  lt x y := comp x y = true
  le_refl x := Bool.eq_false_iff.mpr (h.irrefl x)
  le_trans _ _ _ hxy hyz := h.not_trans hyz hxy
  lt_iff_le_not_ge x y := by
    constructor
    · intro hxy
      exact ⟨h.asymm hxy, fun hyx => absurd (hyx.symm.trans hxy) Bool.false_ne_true⟩
    · intro hxy
      exact Bool.of_not_eq_false hxy.2

theorem exists_key (h : StrictWeakOrder comp) :
    ∃ (K : Type u) (order : LinearOrder K), Nonempty (@Key T comp K order) := by
  classical
  let _ : Preorder T := h.preorder
  have htotal : @Std.Total T (· ≤ ·) := by
    refine ⟨fun x y => ?_⟩
    cases hyx : comp y x with
    | false => exact .inl hyx
    | true => exact .inr (h.asymm hyx)
  exact ⟨Antisymmetrization T (· ≤ ·), inferInstance, ⟨toAntisymmetrization (· ≤ ·),
    fun _ _ => Iff.rfl⟩⟩

end StrictWeakOrder

namespace Key

variable {K : Type*} [LinearOrder K] (k : Key comp K) {x y : T}

theorem comp_eq_false_iff : comp x y = false ↔ k.key y ≤ k.key x := by
  rw [← not_lt, ← k.comp_iff, Bool.not_eq_true]

end Key

end RebuildTheWheel.Data
