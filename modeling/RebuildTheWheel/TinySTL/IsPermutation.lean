import RebuildTheWheel.Data.Runs

namespace RebuildTheWheel.TinySTL

open Data

namespace Algorithm

variable {T : Type}

/-! `is_permutation`. An iterator is the list of the elements from it on. The `operator==` of the
elements is `eq`. -/

/-- A read of the second range past its end has no result. -/
def mismatch (pred : T → T → Bool) : List T → List T → Option (List T × List T)
  | [], ys => some ([], ys)
  | _ :: _, [] => none
  | x :: xs, y :: ys => if pred x y then mismatch pred xs ys else some (x :: xs, y :: ys)

def count (eq : T → T → Bool) (xs : List T) (val : T) : Nat := xs.countP (eq · val)

/-- The elements in front of the iterator are `seen`, which `find_if` goes through. -/
def isPermutationLoop (pred eq : T → T → Bool) (ys : List T) : List T → List T → Bool
  | _, [] => true
  | seen, x :: xs =>
      if seen.findIdx (pred · x) = seen.length then
        let n := count eq ys x
        if n = 0 ∨ count eq (x :: xs) x ≠ n then
          false
        else
          isPermutationLoop pred eq ys (seen ++ [x]) xs
      else
        isPermutationLoop pred eq ys (seen ++ [x]) xs

def isPermutation (pred eq : T → T → Bool) (xs ys : List T) : Option Bool := do
  let (xs, ys) ← mismatch pred xs ys
  if xs.isEmpty then
    return true
  else if xs.length ≤ ys.length then
    return isPermutationLoop pred eq (ys.take xs.length) [] xs
  else
    none

/-- `is_permutation` tells whether some order of the first range is equivalent to the second. -/
def IsPermutationRight (pred eq : T → T → Bool) (xs ys : List T) : Prop :=
  ∃ b, isPermutation pred eq xs ys = some b ∧ (b = true ↔ Reordered pred xs ys)

variable {pred eq : T → T → Bool} {xs ys seen front back : List T} {x y : T}

theorem mismatch_spec (pred : T → T → Bool) (hlength : xs.length = ys.length) :
    ∃ ps qs xs' ys', mismatch pred xs ys = some (xs', ys') ∧ xs = ps ++ xs' ∧ ys = qs ++ ys' ∧
      ps.Forall₂ (fun x y => pred x y = true) qs ∧ xs'.length = ys'.length := by
  induction xs generalizing ys with
  | nil =>
      obtain rfl := List.length_eq_zero_iff.mp hlength.symm
      exact ⟨[], [], [], [], rfl, rfl, rfl, .nil, rfl⟩
  | cons x xs ih =>
      obtain ⟨y, ys, rfl⟩ := List.exists_cons_of_length_eq_add_one hlength.symm
      rw [mismatch]
      cases hpred : pred x y with
      | true =>
          obtain ⟨ps, qs, xs', ys', hrun, rfl, rfl, hfront, hrest⟩ := ih (Nat.succ.inj hlength)
          exact ⟨x :: ps, y :: qs, xs', ys', hrun, rfl, rfl, .cons hpred hfront, hrest⟩
      | false =>
          exact ⟨[], [], x :: xs, y :: ys, rfl, rfl, rfl, .nil, hlength⟩

theorem mismatch_of_forall₂ (hall : xs.Forall₂ (fun x y => pred x y = true) ys) :
    mismatch pred xs ys = some ([], []) := by
  induction hall with
  | nil => rfl
  | cons hxy _ ih => rw [mismatch, if_pos hxy, ih]

theorem isPermutation_eq (eq : T → T → Bool) {xs' ys' : List T}
    (hrun : mismatch pred xs ys = some (xs', ys')) (hlength : xs'.length = ys'.length) :
    isPermutation pred eq xs ys = some (isPermutationLoop pred eq ys' [] xs') := by
  rw [isPermutation, hrun]
  simp only [Option.bind_eq_bind, Option.bind_some, hlength, List.take_length, le_refl, if_true]
  cases xs' with
  | nil => rfl
  | cons x xs' => rfl

/-- `x`, in front of `back`, stands in the second range, and there as often as from here on. -/
structure Counted (eq : T → T → Bool) (ys : List T) (x : T) (back : List T) : Prop where
  found : count eq ys x ≠ 0
  same : count eq (x :: back) x = count eq ys x

theorem isPermutationLoop_cons :
    isPermutationLoop pred eq ys seen (x :: xs) = true ↔
      ((∀ z ∈ seen, pred z x = false) → Counted eq ys x xs) ∧
        isPermutationLoop pred eq ys (seen ++ [x]) xs = true := by
  rw [isPermutationLoop]
  by_cases hnew : seen.findIdx (pred · x) = seen.length
  · have hall := List.findIdx_eq_length.mp hnew
    simp only [if_pos hnew]
    split_ifs with hwrong
    · refine iff_of_false not_false fun hboth => ?_
      have hcounted := hboth.1 hall
      exact hwrong.elim hcounted.found fun hdiffers => hdiffers hcounted.same
    · rw [not_or, not_not] at hwrong
      exact (and_iff_right fun _ => ⟨hwrong.1, hwrong.2⟩).symm
  · rw [if_neg hnew]
    refine (and_iff_right fun hall => ?_).symm
    exact absurd (List.findIdx_eq_length.mpr hall) hnew

/-- The loop asks of each element that no one before it is equivalent to. -/
theorem isPermutationLoop_iff :
    isPermutationLoop pred eq ys seen xs = true ↔
      ∀ front x back, xs = front ++ x :: back → (∀ z ∈ seen ++ front, pred z x = false) →
        Counted eq ys x back := by
  induction xs generalizing seen with
  | nil =>
      refine iff_of_true rfl fun front x back hsplit => ?_
      exact absurd hsplit.symm (by simp)
  | cons x xs ih =>
      rw [isPermutationLoop_cons, ih]
      constructor
      · rintro ⟨hhead, htail⟩ front y back hsplit hnew
        cases front with
        | nil =>
            obtain ⟨rfl, rfl⟩ := List.cons.inj hsplit
            exact hhead (by simpa using hnew)
        | cons z front =>
            obtain ⟨rfl, hrest⟩ := List.cons.inj hsplit
            exact htail front y back hrest (by simpa using hnew)
      · intro hall
        refine ⟨fun hnew => hall [] x xs rfl (by simpa using hnew), fun front y back hsplit hnew => ?_⟩
        exact hall (x :: front) y back (congrArg (x :: ·) hsplit) (by simpa using hnew)

/-- The two kinds of counting agree where the two relations do. -/
theorem count_eq_countP (hagrees : ∀ y ∈ ys, eq y x = pred y x) :
    count eq ys x = ys.countP (pred · x) :=
  List.countP_congr fun y hy => by rw [hagrees y hy]

theorem isPermutationLoop_agrees (h : EquivalenceTest pred) (hlength : xs.length = ys.length)
    (hagrees : ∀ x ∈ xs, ∀ y ∈ xs ++ ys, eq y x = pred y x) :
    isPermutationLoop pred eq ys [] xs = true ↔ Reordered pred xs ys := by
  have hcounts : ∀ front x back, xs = front ++ x :: back → (∀ z ∈ front, pred z x = false) →
      count eq ys x = ys.countP (pred · x) ∧ count eq (x :: back) x = xs.countP (pred · x) := by
    rintro front x back rfl hnew
    have hx : x ∈ front ++ x :: back := List.mem_append_right front List.mem_cons_self
    have hfront : front.countP (pred · x) = 0 :=
      List.countP_eq_zero.mpr fun z hz => Bool.eq_false_iff.mp (hnew z hz)
    refine ⟨count_eq_countP fun y hy => hagrees x hx y (List.mem_append_right _ hy), ?_⟩
    rw [List.countP_append, hfront, Nat.zero_add]
    refine count_eq_countP fun y hy => hagrees x hx y ?_
    exact List.mem_append_left _ (List.mem_append_right front hy)
  rw [isPermutationLoop_iff, h.reordered_iff_count hlength]
  constructor
  · intro hall x hx
    -- the first element of the class of `x` speaks for it
    obtain ⟨z, hz⟩ : ∃ z, xs.find? (pred · x) = some z :=
      Option.isSome_iff_exists.mp (List.find?_isSome.mpr ⟨x, hx, h.refl x⟩)
    obtain ⟨hzx, front, back, hsplit, hfront⟩ := List.find?_eq_some_iff_append.mp hz
    have hnew : ∀ w ∈ front, pred w z = false := by
      intro w hw
      have hwx : pred w x = false := by simpa using hfront w hw
      exact Bool.eq_false_iff.mpr fun hwz => Bool.eq_false_iff.mp hwx (h.trans hwz hzx)
    obtain ⟨hys, hxs⟩ := hcounts front z back hsplit hnew
    have hcounted := hall front z back hsplit hnew
    rw [← h.countP_congr hzx, ← h.countP_congr hzx, ← hys, ← hxs]
    exact hcounted.same
  · intro hall front x back hsplit hnew
    obtain ⟨hys, hxs⟩ := hcounts front x back hsplit hnew
    have hx : x ∈ xs := hsplit ▸ List.mem_append_right front List.mem_cons_self
    have hsame := hall x hx
    refine ⟨?_, by rw [hys, hxs, hsame]⟩
    have hpos : 0 < xs.countP (pred · x) := List.countP_pos_iff.mpr ⟨x, hx, h.refl x⟩
    rw [hys, ← hsame]
    exact hpos.ne'

/-- The equivalent beginnings that `mismatch` passes do not matter. -/
theorem isPermutationRight_iff_of_mismatch (h : EquivalenceTest pred) (eq : T → T → Bool)
    {ps qs xs' ys' : List T} (hrun : mismatch pred (ps ++ xs') (qs ++ ys') = some (xs', ys'))
    (hlength : xs'.length = ys'.length) (hfront : ps.Forall₂ (fun x y => pred x y = true) qs) :
    IsPermutationRight pred eq (ps ++ xs') (qs ++ ys') ↔
      (isPermutationLoop pred eq ys' [] xs' = true ↔ Reordered pred xs' ys') := by
  rw [IsPermutationRight, isPermutation_eq eq hrun hlength, h.reordered_append_iff hfront]
  constructor
  · rintro ⟨b, hb, hright⟩
    exact Option.some.inj hb ▸ hright
  · intro hright
    exact ⟨_, rfl, hright⟩

theorem isPermutationRight_iff_apart (h : EquivalenceTest pred) (eq : T → T → Bool)
    (hxy : pred x y = false) (hlength : xs.length = ys.length) :
    IsPermutationRight pred eq (x :: xs) (y :: ys) ↔
      (isPermutationLoop pred eq (y :: ys) [] (x :: xs) = true ↔
        Reordered pred (x :: xs) (y :: ys)) := by
  have hrun : mismatch pred ([] ++ x :: xs) ([] ++ y :: ys) = some (x :: xs, y :: ys) :=
    if_neg (Bool.eq_false_iff.mp hxy)
  exact isPermutationRight_iff_of_mismatch h eq hrun (congrArg (· + 1) hlength) .nil

theorem isPermutationRight_of_agrees (h : EquivalenceTest pred) (hlength : xs.length = ys.length)
    (hagrees : ∀ x ∈ xs, ∀ y ∈ xs ++ ys, eq y x = pred y x) : IsPermutationRight pred eq xs ys := by
  obtain ⟨ps, qs, xs', ys', hrun, rfl, rfl, hfront, hrest⟩ := mismatch_spec pred hlength
  rw [isPermutationRight_iff_of_mismatch h eq hrun hrest hfront]
  refine isPermutationLoop_agrees h hrest fun x hx y hy => ?_
  refine hagrees x (List.mem_append_right ps hx) y ?_
  rcases List.mem_append.mp hy with hy | hy
  · exact List.mem_append_left _ (List.mem_append_right ps hy)
  · exact List.mem_append_right _ (List.mem_append_right qs hy)

theorem isPermutationRight_of_forall₂ (eq : T → T → Bool)
    (hall : xs.Forall₂ (fun x y => pred x y = true) ys) : IsPermutationRight pred eq xs ys := by
  refine ⟨true, ?_, iff_of_true rfl ⟨xs, .refl xs, hall⟩⟩
  exact isPermutation_eq eq (mismatch_of_forall₂ hall) rfl

/-! When `is_permutation` is right on all ranges of a length. -/

theorem isPermutationRight_one_iff (h : EquivalenceTest pred) (hxy : pred x y = false) :
    IsPermutationRight pred eq [x] [y] ↔ (eq x x = true → eq y x = false) := by
  have hnot : ¬Reordered pred [x] [y] := by
    rintro ⟨zs, hperm, hall⟩
    obtain rfl := List.perm_singleton.mp hperm
    cases hall with
    | cons hxy' _ => exact Bool.eq_false_iff.mp hxy hxy'
  rw [isPermutationRight_iff_apart h eq hxy rfl, iff_false_right hnot, isPermutationLoop_cons]
  constructor
  · intro hloop hx
    refine Bool.eq_false_iff.mpr fun hy => hloop ⟨fun _ => ⟨?_, ?_⟩, rfl⟩
    · simp [count, hy]
    · simp [count, hx, hy]
  · rintro hno ⟨hcounted, -⟩
    obtain ⟨hfound, hsame⟩ := hcounted nofun
    cases hx : eq x x <;> cases hy : eq y x <;> simp_all [count]

/-- A range that starts `c`, `a` against one that starts `b`, `c`. -/
theorem eq_of_isPermutationRight (h : EquivalenceTest pred) {a b c : T} {k : Nat}
    (hba : pred b a = true) (hca : pred c a = false)
    (hright : ∀ xs ys : List T, xs.length = k + 2 → ys.length = k + 2 →
      IsPermutationRight pred eq xs ys) : eq c a = false ∧ eq b a = true := by
  have hcounted : ∀ b, pred b a = true →
      Counted eq (b :: c :: List.replicate k c) a (List.replicate k c) := by
    intro b hba
    have hcb : pred c b = false :=
      Bool.eq_false_iff.mpr fun hcb => Bool.eq_false_iff.mp hca (h.trans hcb hba)
    have hreordered : Reordered pred (c :: a :: List.replicate k c) (b :: c :: List.replicate k c) :=
      ⟨a :: c :: List.replicate k c, .swap c a _, .cons (h.symm hba) (.cons (h.refl c)
        (List.forall₂_same.mpr fun x _ => h.refl x))⟩
    have hboth := hright (c :: a :: List.replicate k c) (b :: c :: List.replicate k c) (by simp)
      (by simp)
    have hlength : (a :: List.replicate k c).length = (c :: List.replicate k c).length := rfl
    rw [isPermutationRight_iff_apart h eq hcb hlength, isPermutationLoop_iff] at hboth
    exact hboth.mpr hreordered [c] a (List.replicate k c) rfl (by simpa using hca)
  have hca' : eq c a = false := by
    have hsame := (hcounted a (h.refl a)).same
    simp only [count, List.countP_cons, List.countP_replicate] at hsame
    refine Bool.eq_false_iff.mpr fun htrue => ?_
    rw [htrue] at hsame
    simp only [if_true] at hsame
    omega
  refine ⟨hca', ?_⟩
  have hfound := (hcounted b hba).found
  simp only [count, List.countP_cons, List.countP_replicate, hca', Bool.false_eq_true, if_false] at hfound
  by_contra hno
  exact hfound (by rw [if_neg hno])

/-- `is_permutation` is right on ranges of whose elements `operator==` says what the relation
says, and on all ranges of a length from two on only then, unless the relation holds of all
elements. -/
theorem isPermutation_iff (h : EquivalenceTest pred) (eq : T → T → Bool) :
    (∀ xs ys : List T, xs.length = ys.length →
        (∀ x ∈ xs, ∀ y ∈ xs ++ ys, eq y x = pred y x) → IsPermutationRight pred eq xs ys) ∧
      ∀ n, (∀ xs ys : List T, xs.length = n → ys.length = n → IsPermutationRight pred eq xs ys) ↔
        n = 0 ∨ (∀ x y, pred x y = true) ∨ (∀ x y, eq y x = pred y x) ∨
          n = 1 ∧ ∀ x y, pred x y = false → eq x x = true → eq y x = false := by
  refine ⟨fun xs ys hlength hagrees => isPermutationRight_of_agrees h hlength hagrees, fun n => ?_⟩
  constructor
  · intro hright
    match n with
    | 0 => exact .inl rfl
    | 1 =>
        refine .inr (.inr (.inr ⟨rfl, fun x y hxy => ?_⟩))
        exact (isPermutationRight_one_iff h hxy).mp (hright [x] [y] rfl rfl)
    | k + 2 =>
        by_cases hall : ∀ x y, pred x y = true
        · exact .inr (.inl hall)
        · refine .inr (.inr (.inl fun x y => ?_))
          obtain ⟨p, hp⟩ := not_forall.mp hall
          obtain ⟨q, hpq⟩ := not_forall.mp hp
          obtain ⟨c, hcx⟩ : ∃ c, pred c x = false := by
            by_contra! hno
            have hpx := Bool.of_not_eq_false (hno p)
            have hqx := Bool.of_not_eq_false (hno q)
            exact hpq (h.trans hpx (h.symm hqx))
          cases hyx : pred y x with
          | true => exact (eq_of_isPermutationRight h hyx hcx hright).2
          | false => exact (eq_of_isPermutationRight h (h.refl x) hyx hright).1
  · rintro hcases xs ys hxs hys
    have hlength := hxs.trans hys.symm
    rcases hcases with rfl | hall | hagrees | ⟨rfl, hone⟩
    · obtain rfl := List.length_eq_zero_iff.mp hxs
      exact isPermutationRight_of_agrees h hlength nofun
    · refine isPermutationRight_of_forall₂ eq (List.forall₂_iff_zip.mpr ⟨hlength, fun _ => hall _ _⟩)
    · exact isPermutationRight_of_agrees h hlength fun x _ y _ => hagrees x y
    · obtain ⟨x, rfl⟩ := List.length_eq_one_iff.mp hxs
      obtain ⟨y, rfl⟩ := List.length_eq_one_iff.mp hys
      cases hxy : pred x y with
      | true => exact isPermutationRight_of_forall₂ eq (.cons hxy .nil)
      | false => exact (isPermutationRight_one_iff h hxy).mpr (hone x y hxy)

def sameParity (x y : Nat) : Bool := x % 2 == y % 2

theorem sameParity_equivalence : EquivalenceTest sameParity where
  refl x := beq_self_eq_true (x % 2)
  symm h := by simp only [sameParity, beq_iff_eq] at h ⊢; exact h.symm
  trans h h' := by simp only [sameParity, beq_iff_eq] at h h' ⊢; exact h.trans h'

theorem isPermutation_iff_parity :
    (∀ xs ys : List Nat, xs.length = ys.length →
        (∀ x ∈ xs, ∀ y ∈ xs ++ ys, (y == x) = sameParity y x) →
        IsPermutationRight sameParity (· == ·) xs ys) ∧
      ∀ n, (∀ xs ys : List Nat, xs.length = n → ys.length = n →
          IsPermutationRight sameParity (· == ·) xs ys) ↔
        n = 0 ∨ (∀ x y, sameParity x y = true) ∨ (∀ x y : Nat, (y == x) = sameParity y x) ∨
          n = 1 ∧ ∀ x y : Nat, sameParity x y = false → (x == x) = true → (y == x) = false :=
  isPermutation_iff sameParity_equivalence (· == ·)

/-- `0, 1` in the other order is `3, 0` up to parity, but `1` does not stand in `3, 0`. -/
theorem isPermutation_parity :
    EquivalenceTest sameParity ∧ ¬IsPermutationRight sameParity (· == ·) [0, 1] [3, 0] := by
  refine ⟨sameParity_equivalence, ?_⟩
  rintro ⟨b, hrun, hb⟩
  have hfalse : isPermutation sameParity (· == ·) [0, 1] [3, 0] = some false := by decide
  have hreordered : Reordered sameParity [0, 1] [3, 0] :=
    ⟨[1, 0], .swap 0 1 [], .cons rfl (.cons rfl .nil)⟩
  rw [hfalse] at hrun
  obtain rfl := Option.some.inj hrun
  exact Bool.false_ne_true (hb.mpr hreordered)

end Algorithm

end RebuildTheWheel.TinySTL
