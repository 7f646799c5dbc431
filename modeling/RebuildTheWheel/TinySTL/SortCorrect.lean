import RebuildTheWheel.TinySTL.Algorithm

namespace RebuildTheWheel.TinySTL

open Data Data.Heap

namespace Algorithm

variable {T : Type} {pred : T → T → Bool} {xs : List T} {a : Nat → T} {i j k n p p1 p2 : Nat}
  {mid : T}

theorem Reads.sorted (h : Reads xs a)
    (ha : ∀ j k, j < k → k < xs.length → pred (a k) (a j) = false) : Sorted pred xs := by
  refine List.pairwise_iff_getElem.mpr fun j k hj hk hjk => ?_
  rw [h.getElem hj, h.getElem hk]
  exact ha j k hjk hk

theorem Reads.swapIf (h : Reads xs a) (pred : T → T → Bool) (hi : i < xs.length) (hj : j < xs.length) :
    ∃ xs' b, swapIf pred xs i j = some xs' ∧ xs'.Perm xs ∧ Reads xs' b ∧
      (pred (a i) (a j) = true ∧ b = swapped a i j ∨ pred (a i) (a j) = false ∧ b = a) := by
  rw [Algorithm.swapIf, h.load hi, h.load hj]
  simp only [Option.bind_eq_bind, Option.bind_some]
  cases hpred : pred (a i) (a j) with
  | true =>
      obtain ⟨xs', hrun, hperm, hreads⟩ := h.swap hi hj
      exact ⟨xs', _, hrun, hperm, hreads, .inl ⟨rfl, rfl⟩⟩
  | false => exact ⟨xs, a, if_neg Bool.false_ne_true, .refl _, h, .inr ⟨rfl, rfl⟩⟩

/-! The bubble sort. -/

/-- A pass carries the largest element up. -/
theorem Reads.bubblePass (hpred : StrictWeakOrder pred) (h : Reads xs a)
    (hfits : p + k < xs.length) (hmax : ∀ j < p, pred (a p) (a j) = false) (swaped : Bool) :
    ∃ xs' b swaped', bubblePass pred p k xs swaped = some (xs', swaped') ∧ xs'.Perm xs ∧
      Reads xs' b ∧ Rearranged a b p (p + k + 1) ∧
      (∀ j < p + k, pred (b (p + k)) (b j) = false) ∧
      (swaped' = false → swaped = false ∧ xs' = xs ∧
        ∀ j, p ≤ j → j < p + k → pred (a (j + 1)) (a j) = false) := by
  induction k generalizing p xs a swaped with
  | zero => exact ⟨xs, a, swaped, rfl, .refl _, h, .refl _ _ _, hmax, fun hno => ⟨hno, rfl, by omega⟩⟩
  | succ k ih =>
      have hshift : p + 1 + k = p + (k + 1) := by omega
      rw [Algorithm.bubblePass, h.load (by omega), h.load (by omega)]
      simp only [Option.bind_eq_bind, Option.bind_some]
      cases hless : pred (a (p + 1)) (a p) with
      | true =>
          obtain ⟨xs₁, hrun, hperm, hreads⟩ := h.swap (i := p + 1) (j := p) (by omega) (by omega)
          have hlength := hperm.length_eq
          have hmax' : ∀ j < p + 1,
              pred (swapped a (p + 1) p (p + 1)) (swapped a (p + 1) p j) = false := by
            intro j hj
            rw [swapped_left]
            by_cases hjp : j = p
            · rw [hjp, swapped_right]
              exact hpred.asymm hless
            · rw [swapped_of_ne a _ _ (by omega) hjp]
              exact hmax j (by omega)
          obtain ⟨xs', b, swaped', hrest, hperm', hreads', hrearranged, hlast, hflag⟩ :=
            ih hreads (by omega) hmax' true
          rw [hshift] at hlast hrearranged
          refine ⟨xs', b, swaped', ?_, hperm'.trans hperm, hreads', ?_, hlast, fun hno => ?_⟩
          · rw [if_pos rfl, hrun]
            exact hrest
          · have hswap : Rearranged a (swapped a (p + 1) p) p (p + (k + 1) + 1) :=
              .swapped a (by omega) (by omega)
            exact hswap.trans (hrearranged.mono (Nat.le_succ p) le_rfl)
          · exact absurd (hflag hno).1 nofun
      | false =>
          have hmax' : ∀ j < p + 1, pred (a (p + 1)) (a j) = false := by
            intro j hj
            by_cases hjp : j = p
            · exact hjp ▸ hless
            · exact hpred.not_trans hless (hmax j (by omega))
          obtain ⟨xs', b, swaped', hrest, hperm, hreads, hrearranged, hlast, hflag⟩ :=
            ih h (by omega) hmax' swaped
          rw [hshift] at hlast hrearranged
          refine ⟨xs', b, swaped', ?_, hperm, hreads, hrearranged.mono (Nat.le_succ p) le_rfl, hlast,
            fun hno => ?_⟩
          · rw [if_neg Bool.false_ne_true]
            exact hrest
          · obtain ⟨hswaped, hsame, hrest⟩ := hflag hno
            refine ⟨hswaped, hsame, fun j hle hlt => ?_⟩
            by_cases hjp : j = p
            · exact hjp ▸ hless
            · exact hrest j (by omega) (by omega)

theorem chain_sorted (hpred : StrictWeakOrder pred) (ha : ∀ j < n, pred (a (j + 1)) (a j) = false) :
    ∀ k ≤ n, ∀ j < k, pred (a k) (a j) = false := by
  intro k hk
  induction k with
  | zero => exact fun j hj => absurd hj (Nat.not_lt_zero j)
  | succ k ih =>
      intro j hj
      by_cases hjk : j = k
      · exact hjk ▸ ha k hk
      · exact hpred.not_trans (ha k hk) (ih (Nat.le_of_succ_le hk) j (by omega))

/-- The elements from `i` on have their places. -/
theorem Reads.bubbleLoop (hpred : StrictWeakOrder pred) (h : Reads xs a) (hi : i ≤ xs.length)
    (hplaced : ∀ j k, j < k → i ≤ k → k < xs.length → pred (a k) (a j) = false) :
    ∃ ys, bubbleLoop pred i xs = some ys ∧ ys.Perm xs ∧ Sorted pred ys := by
  induction i generalizing xs a with
  | zero => exact ⟨xs, rfl, .refl _, h.sorted fun j k hjk hk => hplaced j k hjk (Nat.zero_le k) hk⟩
  | succ i ih =>
      obtain ⟨xs₁, b, swaped, hrun, hperm, hreads, hrearranged, hlast, hflag⟩ :=
        h.bubblePass hpred (p := 0) (k := i) (by omega) (by omega) false
      rw [Nat.zero_add] at hrearranged hlast
      rw [Algorithm.bubbleLoop, hrun]
      simp only [Option.bind_eq_bind, Option.bind_some]
      have hlength := hperm.length_eq
      cases swaped with
      | true =>
          have hplaced' : ∀ j k, j < k → i ≤ k → k < xs₁.length → pred (b k) (b j) = false := by
            intro j k hjk hik hk
            by_cases hki : k = i
            · exact hki ▸ hlast j (hki ▸ hjk)
            · rw [hrearranged.outside k (.inr (by omega))]
              by_cases hji : j < i + 1
              · obtain ⟨j', -, hj', hbj⟩ := hrearranged.inside j (Nat.zero_le j) hji
                rw [hbj]
                exact hplaced j' k (by omega) (by omega) (by omega)
              · rw [hrearranged.outside j (.inr (by omega))]
                exact hplaced j k hjk (by omega) (by omega)
          obtain ⟨ys, hrest, hperm', hsorted⟩ := ih hreads (by omega) hplaced'
          exact ⟨ys, hrest, hperm'.trans hperm, hsorted⟩
      | false =>
          obtain ⟨-, hsame, hchain⟩ := hflag rfl
          have hfront := chain_sorted hpred (n := i) fun j hj => hchain j (Nat.zero_le j) (by omega)
          refine ⟨xs₁, rfl, hperm, hsame ▸ h.sorted fun j k hjk hk => ?_⟩
          by_cases hki : k ≤ i
          · exact hfront k hki j hjk
          · exact hplaced j k hjk (by omega) hk

theorem bubbleSort_sorted (hpred : StrictWeakOrder pred) (hne : xs ≠ []) :
    ∃ ys, bubbleSort pred xs = some ys ∧ ys.Perm xs ∧ Sorted pred ys := by
  obtain ⟨a, h⟩ := exists_reads hne
  exact h.bubbleLoop hpred le_rfl fun j k _ hle hlt => absurd hlt (Nat.not_lt.mpr hle)

/-! The partition. -/

theorem Reads.scanUp (h : Reads xs a) (pred : T → T → Bool) (mid : T) (hle : p1 ≤ p2) (hlt : p2 < xs.length) :
    ∃ p, scanUp pred xs mid p1 p2 = some p ∧ p1 ≤ p ∧ p ≤ p2 ∧
      (∀ i, p1 ≤ i → i < p → pred (a i) mid = true) ∧ (p < p2 → pred (a p) mid = false) := by
  induction hk : p2 - p1 generalizing p1 with
  | zero =>
      have hsame : p1 = p2 := by omega
      refine ⟨p1, ?_, le_rfl, hle, by omega, by omega⟩
      rw [Algorithm.scanUp, h.load (by omega), Option.bind_eq_bind, Option.bind_some,
        dif_neg (by omega)]
  | succ k ih =>
      rw [Algorithm.scanUp, h.load (by omega)]
      simp only [Option.bind_eq_bind, Option.bind_some]
      split_ifs with hmore
      · have hnext : p1 + 1 ≤ p2 := hmore.2
        obtain ⟨p, hrun, hp1, hp2, hless, hstop⟩ := ih hnext (by omega)
        refine ⟨p, hrun, by omega, hp2, fun i hi hip => ?_, hstop⟩
        by_cases hfirst : i = p1
        · exact hfirst ▸ hmore.1
        · exact hless i (by omega) hip
      · refine ⟨p1, rfl, le_rfl, hle, by omega, fun hp => ?_⟩
        exact Bool.eq_false_iff.mpr fun hless => hmore ⟨hless, hp⟩

theorem Reads.scanDown (h : Reads xs a) (pred : T → T → Bool) (mid : T) (hle : p1 ≤ p2) (hlt : p2 < xs.length) :
    ∃ p, scanDown pred xs mid p1 p2 = some p ∧ p1 ≤ p ∧ p ≤ p2 ∧
      (∀ i, p < i → i ≤ p2 → pred (a i) mid = false) ∧ (p1 < p → pred (a p) mid = true) := by
  induction hk : p2 - p1 generalizing p2 with
  | zero =>
      have hsame : p1 = p2 := by omega
      refine ⟨p2, ?_, hle, le_rfl, by omega, by omega⟩
      rw [Algorithm.scanDown, h.load hlt, Option.bind_eq_bind, Option.bind_some,
        dif_neg (by omega)]
  | succ k ih =>
      rw [Algorithm.scanDown, h.load hlt]
      simp only [Option.bind_eq_bind, Option.bind_some]
      split_ifs with hmore
      · have hnext : p1 ≤ p2 - 1 := by omega
        obtain ⟨p, hrun, hp1, hp2, hnot, hstop⟩ := ih hnext (by omega) (by omega)
        refine ⟨p, hrun, hp1, by omega, fun i hip hi => ?_, hstop⟩
        by_cases hlast : i = p2
        · exact hlast ▸ hmore.1
        · exact hnot i hip (by omega)
      · refine ⟨p2, rfl, hle, le_rfl, by omega, fun hp => ?_⟩
        cases hless : pred (a p2) mid with
        | true => rfl
        | false => exact absurd ⟨hless, hp⟩ hmore

/-- The elements in front of `p1` are less than the pivot, and those from `p2` to `last` are not. -/
structure Split (pred : T → T → Bool) (mid : T) (a : Nat → T) (p1 p2 last : Nat) : Prop where
  front : ∀ i < p1, pred (a i) mid = true
  back : ∀ i, p2 ≤ i → i ≤ last → pred (a i) mid = false

variable {last : Nat}

/-- The two scans and the exchange. -/
theorem Reads.partitionStep (h : Reads xs a) (hsplit : Split pred mid a p1 p2 last)
    (hmore : p1 < p2) (hlt : p2 < xs.length) (hlast : p2 ≤ last) :
    ∃ p q xs' b, Algorithm.scanUp pred xs mid p1 p2 = some p ∧
      Algorithm.scanDown pred xs mid p p2 = some q ∧
      (if p < q then Algorithm.swap xs p q else some xs) = some xs' ∧ xs'.Perm xs ∧ Reads xs' b ∧
      p1 ≤ p ∧ p ≤ q ∧ q ≤ p2 ∧ (q < p2 ∨ p = q) ∧ Rearranged a b p1 p2 ∧
      Split pred mid b p q last := by
  obtain ⟨p, hup, hp1, hp2, hless, hstop⟩ := h.scanUp pred mid hmore.le hlt
  obtain ⟨q, hdown, hpq, hq2, hnot, hstop'⟩ := h.scanDown pred mid hp2 hlt
  have hfront : ∀ i < p, pred (a i) mid = true := by
    intro i hi
    by_cases hi1 : i < p1
    · exact hsplit.front i hi1
    · exact hless i (by omega) hi
  have hback : ∀ i, q < i → i ≤ last → pred (a i) mid = false := by
    intro i hi hilast
    by_cases hi2 : i ≤ p2
    · exact hnot i hi hi2
    · exact hsplit.back i (by omega) hilast
  have hpivot := hsplit.back p2 le_rfl hlast
  by_cases hswap : p < q
  · have hbelow : q < p2 := by
      refine lt_of_le_of_ne hq2 fun hsame => ?_
      have hless' := hstop' hswap
      rw [hsame, hpivot] at hless'
      cases hless'
    obtain ⟨xs', hrun, hperm, hreads⟩ := h.swap (i := p) (j := q) (by omega) (by omega)
    refine ⟨p, q, xs', _, hup, hdown, (if_pos hswap).trans hrun, hperm, hreads, hp1, hpq, hq2,
      .inl hbelow, .swapped a (by omega) (by omega), fun i hi => ?_, fun i hi hilast => ?_⟩
    · rw [swapped_of_ne a _ _ (by omega) (by omega)]
      exact hfront i hi
    · by_cases hiq : i = q
      · rw [hiq, swapped_right]
        exact hstop (by omega)
      · rw [swapped_of_ne a _ _ (by omega) hiq]
        exact hback i (by omega) hilast
  · obtain rfl : p = q := by omega
    refine ⟨p, p, xs, a, hup, hdown, if_neg hswap, .refl _, h, hp1, le_rfl, hq2, .inr rfl,
      .refl _ _ _, hfront, fun i hi hilast => ?_⟩
    by_cases hip : i = p
    · rw [hip]
      by_cases hend : p = p2
      · exact hend ▸ hpivot
      · exact hstop (by omega)
    · exact hback i (by omega) hilast

theorem Reads.partitionLoop {fuel : Nat} (h : Reads xs a) (hsplit : Split pred mid a p1 p2 last)
    (hle : p1 ≤ p2) (hlt : p2 < xs.length) (hfuel : p2 - p1 < fuel) (hlast : p2 ≤ last) :
    ∃ p xs' b, partitionLoop pred mid fuel p1 p2 xs = some (p, xs') ∧ xs'.Perm xs ∧ Reads xs' b ∧
      p ≤ p2 ∧ Rearranged a b p1 p2 ∧ Split pred mid b p p last := by
  induction fuel generalizing p1 p2 xs a with
  | zero => exact absurd hfuel (Nat.not_lt_zero _)
  | succ fuel ih =>
      rw [Algorithm.partitionLoop]
      by_cases hmore : p1 < p2
      · obtain ⟨p, q, xs₁, b, hup, hdown, hrun, hperm, hreads, hp1, hpq, hq2, hnext, hmoved, hsplit'⟩ :=
          h.partitionStep hsplit hmore hlt hlast
        have hlength := hperm.length_eq
        obtain ⟨r, xs', c, hrest, hperm', hreads', hr, hmoved', hfinal⟩ :=
          ih hreads hsplit' hpq (by omega) (by omega) (by omega)
        refine ⟨r, xs', c, ?_, hperm'.trans hperm, hreads', by omega,
          hmoved.trans (hmoved'.mono hp1 hq2), hfinal⟩
        rw [if_pos hmore, hup]
        simp only [Option.bind_eq_bind, Option.bind_some, hdown, hrun]
        exact hrest
      · obtain rfl : p1 = p2 := by omega
        rw [if_neg hmore]
        exact ⟨p1, xs, a, rfl, .refl _, h, le_rfl, .refl _ _ _, hsplit⟩

/-- The median of three stands in front of the last element, which is not less. -/
theorem Reads.mid3 (hpred : StrictWeakOrder pred) (h : Reads xs a) (hlong : 20 < xs.length) :
    ∃ mid xs' b, mid3 pred xs 0 (xs.length - 1) = some (mid, xs') ∧ xs'.Perm xs ∧ Reads xs' b ∧
      b (xs.length - 2) = mid ∧ pred (b (xs.length - 1)) mid = false := by
  have hmid : 0 + (xs.length - 1 + 1 - 0) / 2 = xs.length / 2 := by omega
  have hprev : xs.length - 1 - 1 = xs.length - 2 := Nat.sub_sub _ 1 1
  obtain ⟨xs₁, a₁, hrun₁, hperm₁, hreads₁, hcase₁⟩ :=
    h.swapIf pred (i := xs.length / 2) (j := 0) (by omega) (by omega)
  have hlength₁ := hperm₁.length_eq
  have hfirst : pred (a₁ (xs.length / 2)) (a₁ 0) = false := by
    rcases hcase₁ with ⟨hless, rfl⟩ | ⟨hnot, rfl⟩
    · rw [swapped_left, swapped_right]
      exact hpred.asymm hless
    · exact hnot
  obtain ⟨xs₂, a₂, hrun₂, hperm₂, hreads₂, hcase₂⟩ :=
    hreads₁.swapIf pred (i := xs.length - 1) (j := xs.length / 2) (by omega) (by omega)
  have hlength₂ := hperm₂.length_eq
  have hlast : pred (a₂ (xs.length - 1)) (a₂ (xs.length / 2)) = false ∧
      pred (a₂ (xs.length - 1)) (a₂ 0) = false := by
    rcases hcase₂ with ⟨hless, rfl⟩ | ⟨hnot, rfl⟩
    · rw [swapped_left, swapped_right, swapped_of_ne a₁ _ _ (by omega) (by omega)]
      exact ⟨hpred.asymm hless, hfirst⟩
    · exact ⟨hnot, hpred.not_trans hnot hfirst⟩
  -- the third comparison never finds anything to exchange
  have hrun₃ : Algorithm.swapIf pred xs₂ (xs.length - 1) 0 = some xs₂ := by
    rw [Algorithm.swapIf, hreads₂.load (by omega), hreads₂.load (by omega)]
    simp only [Option.bind_eq_bind, Option.bind_some, hlast.2, Bool.false_eq_true, if_false]
  obtain ⟨xs', hrun, hperm, hreads⟩ :=
    hreads₂.swap (i := xs.length / 2) (j := xs.length - 2) (by omega) (by omega)
  refine ⟨a₂ (xs.length / 2), xs', _, ?_, hperm.trans (hperm₂.trans hperm₁), hreads,
    swapped_right a₂ _ _, ?_⟩
  · rw [Algorithm.mid3, hmid, hprev, hrun₁]
    simp only [Option.bind_eq_bind, Option.bind_some, hrun₂, hrun₃]
    rw [hreads₂.load (by omega)]
    simp only [Option.bind_some, hrun]
  · rw [swapped_of_ne a₂ _ _ (by omega) (by omega)]
    exact hlast.1

/-! The recursion. -/

/-- The range around the pivot, which has its place. -/
theorem Reads.pivot (hpred : StrictWeakOrder pred) (h : Reads xs a) (hlong : 20 < xs.length) :
    ∃ mid xs₁ p xs₂ left right, Algorithm.mid3 pred xs 0 (xs.length - 1) = some (mid, xs₁) ∧
      Algorithm.partitionLoop pred mid xs.length 0 (xs.length - 2) xs₁ = some (p, xs₂) ∧
      Algorithm.swap xs₂ p (xs.length - 2 : Nat) = some (left ++ mid :: right) ∧
      (left ++ mid :: right).Perm xs ∧ left.length = p ∧
      (∀ x ∈ left, pred x mid = true) ∧ ∀ y ∈ right, pred y mid = false := by
  obtain ⟨mid, xs₁, b, hmid, hperm₁, hreads₁, hpivot, hend⟩ := h.mid3 hpred hlong
  have hlength₁ := hperm₁.length_eq
  have hsplit : Split pred mid b 0 (xs.length - 2) (xs.length - 2) := by
    refine ⟨fun i hi => absurd hi (Nat.not_lt_zero i), fun i hle hle' => ?_⟩
    rw [Nat.le_antisymm hle' hle, hpivot]
    exact Bool.eq_false_iff.mpr (hpred.irrefl mid)
  have hfuel : xs.length - 2 - 0 < xs.length := by omega
  obtain ⟨p, xs₂, c, hpartition, hperm₂, hreads₂, hp, hmoved, hsplit'⟩ :=
    hreads₁.partitionLoop hsplit (Nat.zero_le _) (by omega) hfuel le_rfl
  have hlength₂ := hperm₂.length_eq
  obtain ⟨xs₃, hswap, hperm₃, hreads₃⟩ :=
    hreads₂.swap (i := p) (j := xs.length - 2) (by omega) (by omega)
  have hlength₃ := hperm₃.length_eq
  have hplace : p < xs₃.length := by omega
  have hatPivot : xs₃[p] = mid := by
    rw [hreads₃.getElem hplace, swapped_left, hmoved.outside _ (.inr le_rfl), hpivot]
  have hparts : xs₃ = xs₃.take p ++ mid :: xs₃.drop (p + 1) := by
    rw [← hatPivot, ← List.drop_eq_getElem_cons hplace, List.take_append_drop]
  refine ⟨mid, xs₁, p, xs₂, xs₃.take p, xs₃.drop (p + 1), hmid, hpartition, hparts ▸ hswap,
    hparts ▸ hperm₃.trans (hperm₂.trans hperm₁), ?_, fun x hx => ?_, fun y hy => ?_⟩
  · rw [List.length_take, Nat.min_eq_left hplace.le]
  · obtain ⟨i, hi, rfl⟩ := List.mem_take_iff_getElem.mp hx
    rw [hreads₃.getElem, swapped_of_ne c _ _ (by omega) (by omega)]
    exact hsplit'.front i (by omega)
  · obtain ⟨i, hi, rfl⟩ := List.mem_drop_iff_getElem.mp hy
    rw [hreads₃.getElem]
    by_cases hback : p + 1 + i = xs.length - 2
    · rw [hback, swapped_right]
      exact hsplit'.back p le_rfl hp
    · rw [swapped_of_ne c _ _ (by omega) hback]
      by_cases hlast : p + 1 + i = xs.length - 1
      · rw [hlast, hmoved.outside _ (.inr (by omega))]
        exact hend
      · exact hsplit'.back _ (by omega) (by omega)

/-- `sort` reads inside its range, gives it sorted, and nests no more calls than there are
elements and one. -/
theorem sort_sorted (hpred : StrictWeakOrder pred) (xs : List T) {fuel : Nat}
    (hfuel : xs.length < fuel) :
    ∃ ys, sort pred fuel xs = some ys ∧ ys.Perm xs ∧ Sorted pred ys := by
  induction fuel generalizing xs with
  | zero => exact absurd hfuel (Nat.not_lt_zero _)
  | succ fuel ih =>
      rw [Algorithm.sort]
      split_ifs with hone hshort
      · refine ⟨xs, rfl, .refl _, ?_⟩
        match xs, hone with
        | [], _ => exact .nil
        | [x], _ => exact List.pairwise_singleton _ x
      · exact bubbleSort_sorted hpred (List.ne_nil_of_length_pos (by omega))
      · obtain ⟨a, h⟩ := exists_reads (List.ne_nil_of_length_pos (show 0 < xs.length by omega))
        obtain ⟨mid, xs₁, p, xs₂, left, right, hmid, hpartition, hswap, hperm, rfl, hless, hnot⟩ :=
          h.pivot hpred (by omega)
        have hlength := hperm.length_eq
        rw [List.length_append, List.length_cons] at hlength
        obtain ⟨left', hleft, hpermLeft, hsortedLeft⟩ := ih left (by omega)
        obtain ⟨right', hright, hpermRight, hsortedRight⟩ := ih right (by omega)
        have hpartLeft : onPart (sort pred fuel) (left ++ mid :: right) 0 left.length =
            some (left' ++ mid :: right) := by
          have hpart : onPart (sort pred fuel) ([] ++ left ++ mid :: right) ([] : List T).length
              (([] : List T).length + left.length) = some ([] ++ left' ++ mid :: right) :=
            onPart_append hleft
          rwa [List.nil_append, List.length_nil, Nat.zero_add] at hpart
        have hpartRight : onPart (sort pred fuel) (left' ++ mid :: right) (left.length + 1)
            xs.length = some (left' ++ mid :: right') := by
          have hpart : onPart (sort pred fuel) (left' ++ [mid] ++ right ++ []) (left' ++ [mid]).length
              ((left' ++ [mid]).length + right.length) = some (left' ++ [mid] ++ right' ++ []) :=
            onPart_append hright
          have hfront : (left' ++ [mid]).length = left.length + 1 := by
            rw [List.length_append, hpermLeft.length_eq]
            rfl
          have hend : left.length + 1 + right.length = xs.length := by omega
          rwa [hfront, hend, List.append_nil, List.append_nil, List.append_assoc,
            List.append_assoc] at hpart
        refine ⟨left' ++ mid :: right', ?_, ?_, ?_⟩
        · simp only [Option.bind_eq_bind, Option.bind_some, hmid, hpartition, hswap, hpartLeft,
            hpartRight]
        · exact (hpermLeft.append (hpermRight.cons mid)).trans hperm
        · exact hsortedLeft.pivot hpred hsortedRight
            (fun x hx => hless x (hpermLeft.mem_iff.mp hx))
            (fun y hy => hnot y (hpermRight.mem_iff.mp hy))

theorem sort_sorted_three : ∃ ys, sort (fun a b : Nat => decide (a < b)) 4 [3, 1, 2] = some ys ∧
    ys.Perm [3, 1, 2] ∧ Sorted (fun a b : Nat => decide (a < b)) ys :=
  sort_sorted StrictWeakOrder.less [3, 1, 2] (by decide)

end Algorithm

end RebuildTheWheel.TinySTL
