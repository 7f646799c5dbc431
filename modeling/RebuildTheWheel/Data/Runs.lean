import Mathlib.Data.List.Destutter
import Mathlib.Data.List.SplitBy
import Mathlib.Data.List.Perm.Basic
import Mathlib.Data.List.Perm.Subperm

namespace RebuildTheWheel.Data

/-! Runs of equivalent consecutive elements. -/

variable {T : Type*} {pred : T → T → Bool} {a b : T} {vals : List T}

/-- The first element of every maximal run. -/
def firsts (pred : T → T → Bool) (vals : List T) : List T :=
  (vals.splitBy pred).filterMap List.head?

/-- An equivalence as a test. -/
abbrev EquivalenceTest (pred : T → T → Bool) : Prop := Equivalence fun a b => pred a b = true

/-- The first element, and each one that is not equivalent to the last one kept. -/
abbrev keepApart (pred : T → T → Bool) (a : T) (vals : List T) : List T :=
  vals.destutter' (fun a b => pred a b = false) a

theorem EquivalenceTest.congr (h : EquivalenceTest pred) (hab : pred a b = true) (c : T) :
    pred a c = pred b c := by
  rw [Bool.eq_iff_iff]
  exact ⟨fun hac => h.trans (h.symm hab) hac, fun hbc => h.trans hab hbc⟩

theorem firsts_ne_nil (pred : T → T → Bool) (h : vals ≠ []) : firsts pred vals ≠ [] := by
  obtain ⟨a, vals, rfl⟩ := List.exists_cons_of_ne_nil h
  cases hsplit : (a :: vals).splitBy pred with
  | nil => exact absurd (List.splitBy_eq_nil.mp hsplit) h
  | cons run runs =>
      have hrun : run ≠ [] := List.ne_nil_of_mem_splitBy (r := pred) (hsplit ▸ List.mem_cons_self)
      obtain ⟨b, run, rfl⟩ := List.exists_cons_of_ne_nil hrun
      rw [firsts, hsplit]
      exact List.cons_ne_nil _ _

theorem firsts_cons_apart (hab : pred a b = false) :
    firsts pred (a :: b :: vals) = a :: firsts pred (b :: vals) := by
  have hsplit := List.splitBy_append_cons (r := pred) (l := [a]) (a := b) vals (by simpa using hab)
  rw [List.singleton_append] at hsplit
  rw [firsts, hsplit, List.splitBy_of_isChain (List.cons_ne_nil a []) (.singleton a)]
  rfl

theorem splitBy_cons_together {run : List T} {runs : List (List T)} (hab : pred a b = true)
    (h : (b :: vals).splitBy pred = run :: runs) :
    (a :: b :: vals).splitBy pred = (a :: run) :: runs := by
  obtain ⟨hflat, hnil, hchain, hbreaks⟩ := List.splitBy_eq_iff.mp h
  obtain ⟨tail, rfl⟩ : ∃ tail, run = b :: tail := by
    cases run with
    | nil => exact absurd List.mem_cons_self hnil
    | cons c tail =>
        rw [List.flatten_cons, List.cons_append, List.cons.injEq] at hflat
        exact ⟨tail, by rw [hflat.1]⟩
  refine List.splitBy_eq_iff.mpr ⟨by rw [hflat]; rfl, ?_, ?_, ?_⟩
  · exact List.not_mem_cons_of_ne_of_not_mem (List.cons_ne_nil _ _).symm
      fun hmem => hnil (List.mem_cons_of_mem _ hmem)
  · intro run hrun
    rcases List.mem_cons.mp hrun with rfl | hrun
    · exact .cons_cons hab (hchain _ List.mem_cons_self)
    · exact hchain run (List.mem_cons_of_mem _ hrun)
  · cases runs with
    | nil => exact .singleton _
    | cons next runs =>
        obtain ⟨⟨_, hnext, hbreak⟩, hrest⟩ := List.isChain_cons_cons.mp hbreaks
        exact .cons_cons ⟨List.cons_ne_nil _ _, hnext, hbreak⟩ hrest

theorem firsts_cons_together (hab : pred a b = true) :
    firsts pred (a :: b :: vals) = a :: (firsts pred (b :: vals)).tail := by
  cases hsplit : (b :: vals).splitBy pred with
  | nil => exact absurd (List.splitBy_eq_nil.mp hsplit) (List.cons_ne_nil _ _)
  | cons run runs =>
      rw [firsts, firsts, splitBy_cons_together hab hsplit, hsplit]
      cases run with
      | nil => exact absurd (hsplit ▸ List.mem_cons_self) (List.nil_notMem_splitBy pred (b :: vals))
      | cons c tail => rfl

theorem keepApart_apart (hab : pred a b = false) :
    keepApart pred a (b :: vals) = a :: keepApart pred b vals :=
  if_pos hab

theorem keepApart_together (hab : pred a b = true) :
    keepApart pred a (b :: vals) = keepApart pred a vals :=
  if_neg (by simp [hab])

theorem keepApart_congr (h : EquivalenceTest pred) (hab : pred a b = true) (vals : List T) :
    keepApart pred a vals = a :: (keepApart pred b vals).tail := by
  induction vals with
  | nil => rfl
  | cons c vals ih =>
      have hcongr := h.congr hab c
      cases hbc : pred b c with
      | false => rw [keepApart_apart (hcongr.trans hbc), keepApart_apart hbc, List.tail_cons]
      | true => rw [keepApart_together (hcongr.trans hbc), keepApart_together hbc, ih]

theorem firsts_cons (h : EquivalenceTest pred) (a : T) (vals : List T) :
    firsts pred (a :: vals) = keepApart pred a vals := by
  induction vals generalizing a with
  | nil => rfl
  | cons b vals ih =>
      cases hab : pred a b with
      | false => rw [firsts_cons_apart hab, ih, keepApart_apart hab]
      | true => rw [firsts_cons_together hab, ih, keepApart_together hab, keepApart_congr h hab]

/-- The last element that is kept is equivalent to the last of all. -/
theorem keepApart_concat (h : EquivalenceTest pred) (a b : T) (vals : List T) :
    keepApart pred a (vals ++ [b]) =
      if pred ((a :: vals).getLast (List.cons_ne_nil _ _)) b = true then keepApart pred a vals
      else keepApart pred a vals ++ [b] := by
  induction vals generalizing a with
  | nil =>
      cases hab : pred a b with
      | false => simp [keepApart, hab]
      | true => simp [keepApart, hab]
  | cons c vals ih =>
      rw [List.cons_append, List.getLast_cons (List.cons_ne_nil c vals)]
      cases hac : pred a c with
      | false =>
          rw [keepApart_apart hac, keepApart_apart hac, ih]
          split
          · rfl
          · rfl
      | true =>
          have hlast : pred ((a :: vals).getLast (List.cons_ne_nil _ _)) b =
              pred ((c :: vals).getLast (List.cons_ne_nil _ _)) b := by
            cases vals with
            | nil => exact h.congr hac b
            | cons d vals => rfl
          rw [keepApart_together hac, keepApart_together hac, ih, hlast]

end RebuildTheWheel.Data

namespace RebuildTheWheel.Data

/-! Lists with the same elements up to an equivalence. -/

variable {T : Type*} {pred : T → T → Bool} {xs ys xs' ys' : List T}

/-- Some order of `xs` is equivalent to `ys`, place by place. -/
def Reordered (pred : T → T → Bool) (xs ys : List T) : Prop :=
  ∃ zs : List T, zs.Perm xs ∧ zs.Forall₂ (fun x y => pred x y = true) ys

namespace EquivalenceTest

variable (h : EquivalenceTest pred)

abbrev setoid : Setoid T := ⟨_, h⟩

def classes (xs : List T) : List (Quotient h.setoid) := xs.map (Quotient.mk h.setoid)

theorem forall₂_iff_classes :
    xs.Forall₂ (fun x y => pred x y = true) ys ↔ h.classes xs = h.classes ys := by
  rw [classes, classes, ← List.forall₂_eq_eq_eq, List.forall₂_map_left_iff,
    List.forall₂_map_right_iff]
  simp only [Quotient.eq]
  rfl

include h in
theorem reordered_iff_perm : Reordered pred xs ys ↔ (h.classes xs).Perm (h.classes ys) := by
  have hcomp : Relation.Comp (· = h.classes ·) List.Perm (h.classes ys) xs =
      (h.classes ys).Perm (h.classes xs) :=
    congrFun (congrFun (List.eq_map_comp_perm (Quotient.mk h.setoid)) (h.classes ys)) xs
  rw [List.perm_comm, ← hcomp]
  constructor
  · rintro ⟨zs, hperm, hzs⟩
    exact ⟨zs, (h.forall₂_iff_classes.mp hzs).symm, hperm⟩
  · rintro ⟨zs, hzs, hperm⟩
    exact ⟨zs, hperm, h.forall₂_iff_classes.mpr hzs.symm⟩

theorem count_classes [DecidableEq (Quotient h.setoid)] (x : T) (xs : List T) :
    (h.classes xs).count (Quotient.mk h.setoid x) = xs.countP (pred · x) := by
  rw [classes, List.count, List.countP_map]
  refine List.countP_congr fun y _ => ?_
  rw [Function.comp_apply, beq_iff_eq, Quotient.eq]
  rfl

include h

/-- Of two lists of one length the classes in the first one must be as large in the other. -/
theorem reordered_iff_count (hlength : xs.length = ys.length) :
    Reordered pred xs ys ↔ ∀ x ∈ xs, xs.countP (pred · x) = ys.countP (pred · x) := by
  classical
  rw [h.reordered_iff_perm]
  constructor
  · intro hperm x _
    rw [← h.count_classes, ← h.count_classes]
    exact hperm.count_eq _
  · intro hcount
    have hsub : (h.classes xs).Subperm (h.classes ys) := by
      refine List.subperm_ext_iff.mpr fun q hq => ?_
      obtain ⟨x, hx, rfl⟩ := List.mem_map.mp hq
      rw [h.count_classes, h.count_classes]
      exact (hcount x hx).le
    refine hsub.perm_of_length_le ?_
    rw [classes, classes, List.length_map, List.length_map]
    exact hlength.ge

theorem reordered_append_iff (hfront : xs.Forall₂ (fun x y => pred x y = true) ys) :
    Reordered pred (xs ++ xs') (ys ++ ys') ↔ Reordered pred xs' ys' := by
  have hsame := h.forall₂_iff_classes.mp hfront
  rw [h.reordered_iff_perm, h.reordered_iff_perm]
  simp only [classes, List.map_append] at hsame ⊢
  rw [hsame, List.perm_append_left_iff]

theorem countP_congr {x y : T} (hxy : pred x y = true) (xs : List T) :
    xs.countP (pred · x) = xs.countP (pred · y) := by
  refine List.countP_congr fun z _ => ?_
  exact ⟨fun hzx => h.trans hzx hxy, fun hzy => h.trans hzy (h.symm hxy)⟩

end EquivalenceTest

end RebuildTheWheel.Data
