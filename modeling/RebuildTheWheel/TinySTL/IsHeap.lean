import RebuildTheWheel.TinySTL.HeapOrder

namespace RebuildTheWheel.TinySTL

open Data Data.Heap

namespace Algorithm

variable {T : Type}

/-! `is_heap`, on a range as the list of its elements. The `operator>` of the elements is
`greater`. -/

def isHeapLoopBy (greater : T → T → Bool) (null : Bool) (xs : List T) :
    Nat → Int → Int → Option Bool
  | 0, _, _ => none
  | fuel + 1, cur, index =>
      if xs.isEmpty && null || decide (0 ≤ cur) then do
        let left ← load xs (index * 2 + 1)
        let x ← load xs cur
        -- the end of the range passes the second test too
        let larger ← (if greater left x then
            some true
          else if index * 2 + 2 ≤ xs.length then do
            let right ← load xs (index * 2 + 2)
            return greater right x
          else
            some false)
        if larger then
          return false
        else if cur = 0 then
          return true
        else
          isHeapLoopBy greater null xs fuel (cur - 1) (index - 1)
      else
        some true

/-- The comparison is a parameter that the function does not use. -/
def isHeapBy (_comp greater : T → T → Bool) (null : Bool) (xs : List T) : Option Bool :=
  isHeapLoopBy greater null xs (xs.length + 2) (xs.length / 2 - 1 : Int) (xs.length / 2 - 1 : Int)

/-- `is_heap` reads inside the range and tells whether it is a heap for the comparison. -/
def IsHeapRight (comp greater : T → T → Bool) (null : Bool) (xs : List T) : Prop :=
  ∃ b, isHeapBy comp greater null xs = some b ∧ (b = true ↔ IsHeapOf comp xs)

/-- The ranges of an odd length, and those whose last element is larger than its parent, if
`operator>` finds an element that is larger than its parent where the comparison does. -/
structure Checkable (comp greater : T → T → Bool) (null : Bool) (xs : List T) : Prop where
  first : xs = [] → null = false
  last : xs.length % 2 = 1 ∨
    ∀ x y, xs[xs.length / 2 - 1]? = some x → xs[xs.length - 1]? = some y → greater y x = true
  finds : IsHeapOf (fun x y => greater y x) xs ↔ IsHeapOf comp xs

variable {comp greater : T → T → Bool} {null : Bool} {xs : List T} {a : Nat → T} {c n fuel : Nat}

/-- Where there is a left child, the place of the right one is at most the end of the range. -/
theorem Reads.isHeapLoopBy_succ (h : Reads xs a) (hc : 2 * c + 1 < xs.length) :
    isHeapLoopBy greater null xs (fuel + 1) c c =
      (if greater (a (2 * c + 1)) (a c) then some true
        else (Algorithm.load xs (2 * c + 2 : Nat)).bind fun right =>
          some (greater right (a c))).bind fun larger =>
        if larger then some false
        else if c = 0 then some true
        else isHeapLoopBy greater null xs fuel (c - 1 : Int) (c - 1 : Int) := by
  have hcast : (c : Int) * 2 + 1 = ((2 * c + 1 : Nat) : Int) := by omega
  have hcast' : (c : Int) * 2 + 2 = ((2 * c + 2 : Nat) : Int) := by omega
  rw [isHeapLoopBy, if_pos (by simp), hcast, hcast', h.load hc, h.load (by omega)]
  simp only [Option.bind_eq_bind, Option.bind_some, Option.pure_def, Int.natCast_eq_zero]
  rw [if_pos (Int.ofNat_le.mpr hc)]

/-- The loop down from `c`, when its entries have two children each. -/
theorem Reads.isHeapLoopBy (h : Reads xs a) (greater : T → T → Bool) (null : Bool)
    (hc : 2 * c + 2 < xs.length) (hfuel : c < fuel) :
    ∃ b, isHeapLoopBy greater null xs fuel c c = some b ∧
      (b = true ↔ ∀ i j, i ≤ c → j = 2 * i + 1 ∨ j = 2 * i + 2 → greater (a j) (a i) = false) := by
  induction fuel generalizing c with
  | zero => exact absurd hfuel (Nat.not_lt_zero c)
  | succ fuel ih =>
      have hstep : Algorithm.isHeapLoopBy greater null xs (fuel + 1) c c =
          if greater (a (2 * c + 1)) (a c) || greater (a (2 * c + 2)) (a c) then some false
          else if c = 0 then some true
          else Algorithm.isHeapLoopBy greater null xs fuel (c - 1 : Int) (c - 1 : Int) := by
        rw [h.isHeapLoopBy_succ (by omega), h.load hc]
        cases greater (a (2 * c + 1)) (a c) <;> rfl
      rw [hstep]
      by_cases hlarger : greater (a (2 * c + 1)) (a c) || greater (a (2 * c + 2)) (a c)
      · refine ⟨false, if_pos hlarger, iff_of_false Bool.false_ne_true fun hall => ?_⟩
        rw [hall c _ le_rfl (.inl rfl), hall c _ le_rfl (.inr rfl)] at hlarger
        cases hlarger
      · rw [if_neg hlarger]
        simp only [Bool.or_eq_true, not_or, Bool.not_eq_true] at hlarger
        have hhere : ∀ j, j = 2 * c + 1 ∨ j = 2 * c + 2 → greater (a j) (a c) = false := by
          rintro j (rfl | rfl)
          · exact hlarger.1
          · exact hlarger.2
        cases c with
        | zero =>
            refine ⟨true, if_pos rfl, iff_of_true rfl fun i j hi hij => ?_⟩
            obtain rfl := Nat.le_zero.mp hi
            exact hhere j hij
        | succ c =>
            obtain ⟨b, hrun, hb⟩ := ih (c := c) (by omega) (by omega)
            have hprev : ((c + 1 : Nat) : Int) - 1 = c := by omega
            refine ⟨b, ?_, hb.trans ⟨fun hall i j hi hij => ?_, fun hall i j hi => ?_⟩⟩
            · rw [if_neg (Nat.succ_ne_zero c), hprev]
              exact hrun
            · rcases Nat.le_succ_iff.mp hi with hle | rfl
              · exact hall i j hle hij
              · exact hhere j hij
            · exact hall i j (hi.trans (Nat.le_succ c))

theorem isHeapBy_nil (comp greater : T → T → Bool) (null : Bool) :
    isHeapBy comp greater null [] = if null then none else some true := by
  cases null <;> simp [isHeapBy, Algorithm.isHeapLoopBy, load]

theorem isHeapBy_odd (comp greater : T → T → Bool) (null : Bool) (hodd : xs.length % 2 = 1) :
    ∃ b, isHeapBy comp greater null xs = some b ∧
      (b = true ↔ IsHeapOf (fun x y => greater y x) xs) := by
  have hne : xs ≠ [] := List.ne_nil_of_length_pos (by omega)
  obtain ⟨a, h⟩ := exists_reads hne
  rw [isHeapBy]
  by_cases hone : xs.length = 1
  · refine ⟨true, ?_, iff_of_true rfl ?_⟩
    · rw [Algorithm.isHeapLoopBy, if_neg]
      rw [List.isEmpty_eq_false_iff.mpr hne, hone, Bool.false_and, Bool.false_or]
      decide
    · exact h.isHeapOf_iff.mpr fun i j hij hj => absurd hj (by omega)
  · have hcast : (xs.length : Int) / 2 - 1 = ((xs.length / 2 - 1 : Nat) : Int) := by omega
    rw [hcast, h.isHeapOf_iff]
    have hfuel : xs.length / 2 - 1 < xs.length + 2 := by omega
    obtain ⟨b, hrun, hb⟩ := h.isHeapLoopBy greater null (by omega) hfuel
    refine ⟨b, hrun, hb.trans ⟨fun hall i j hij hj => ?_, fun hall i j hi hij => ?_⟩⟩
    · exact hall i j (by omega) hij
    · exact hall i j hij (by omega)

theorem Reads.isHeapBy_even (h : Reads xs a) (comp greater : T → T → Bool) (null : Bool)
    (hne : xs ≠ []) (heven : xs.length % 2 = 0) :
    Algorithm.isHeapBy comp greater null xs =
      if greater (a (xs.length - 1)) (a (xs.length / 2 - 1)) then some false else none := by
  have hpos := List.length_pos_iff.mpr hne
  have hcast : (xs.length : Int) / 2 - 1 = ((xs.length / 2 - 1 : Nat) : Int) := by omega
  have hleft : 2 * (xs.length / 2 - 1) + 1 = xs.length - 1 := by omega
  have hright : Algorithm.load xs (2 * (xs.length / 2 - 1) + 2 : Nat) = none := by
    rw [Algorithm.load, if_pos (Int.natCast_nonneg _)]
    exact List.getElem?_eq_none (by omega)
  rw [Algorithm.isHeapBy, hcast, h.isHeapLoopBy_succ (by omega), hleft, hright]
  cases greater (a (xs.length - 1)) (a (xs.length / 2 - 1)) <;> rfl

theorem isHeapRight_nil_iff :
    IsHeapRight comp greater null [] ↔ Checkable comp greater null [] := by
  rw [IsHeapRight, isHeapBy_nil]
  constructor
  · rintro ⟨b, hrun, -⟩
    refine ⟨fun _ => ?_, .inr (fun x _ hx => nomatch hx), iff_of_true isHeapOf_nil isHeapOf_nil⟩
    cases null with
    | false => rfl
    | true => cases hrun
  · intro hcheck
    rw [hcheck.first rfl]
    exact ⟨true, rfl, iff_of_true rfl isHeapOf_nil⟩

theorem isHeapRight_odd_iff (hodd : xs.length % 2 = 1) :
    IsHeapRight comp greater null xs ↔ Checkable comp greater null xs := by
  have hne : xs ≠ [] := List.ne_nil_of_length_pos (by omega)
  obtain ⟨b, hrun, hb⟩ := isHeapBy_odd comp greater null hodd
  rw [IsHeapRight, hrun]
  constructor
  · rintro ⟨b', hsame, hb'⟩
    obtain rfl := Option.some.inj hsame
    exact ⟨fun hnil => absurd hnil hne, .inl hodd, hb.symm.trans hb'⟩
  · intro hcheck
    exact ⟨b, rfl, hb.trans hcheck.finds⟩

/-- Unless the last element is larger than its parent, `is_heap` reads the end of the range. -/
theorem isHeapRight_even_iff (hne : xs ≠ []) (heven : xs.length % 2 = 0) :
    IsHeapRight comp greater null xs ↔ Checkable comp greater null xs := by
  obtain ⟨a, h⟩ := exists_reads hne
  have hpos := List.length_pos_iff.mpr hne
  have hparent := h.entry (xs.length / 2 - 1) (by omega)
  have hend := h.entry (xs.length - 1) (by omega)
  rw [IsHeapRight, h.isHeapBy_even comp greater null hne heven]
  cases hlarger : greater (a (xs.length - 1)) (a (xs.length / 2 - 1)) with
  | true =>
      have hfound : ¬IsHeapOf (fun x y => greater y x) xs := by
        intro hheap
        have hlast := hheap _ _ _ _ (.inl (by omega)) hparent hend
        exact absurd (hlast.symm.trans hlarger) Bool.false_ne_true
      constructor
      · rintro ⟨b, hrun, hb⟩
        obtain rfl := Option.some.inj hrun
        have hnot : ¬IsHeapOf comp xs := fun hheap => Bool.false_ne_true (hb.mpr hheap)
        refine ⟨fun hnil => absurd hnil hne, .inr fun x y hx hy => ?_, iff_of_false hfound hnot⟩
        obtain rfl := Option.some.inj (hparent.symm.trans hx)
        obtain rfl := Option.some.inj (hend.symm.trans hy)
        exact hlarger
      · intro hcheck
        exact ⟨false, rfl, iff_of_false Bool.false_ne_true fun hheap =>
          hfound (hcheck.finds.mpr hheap)⟩
  | false =>
      constructor
      · rintro ⟨b, hrun, -⟩
        cases hrun
      · intro hcheck
        have hlast := hcheck.last.resolve_left (by omega) _ _ hparent hend
        exact absurd (hlarger.symm.trans hlast) Bool.false_ne_true

theorem isHeapRight_iff_checkable :
    IsHeapRight comp greater null xs ↔ Checkable comp greater null xs := by
  rcases eq_or_ne xs [] with rfl | hne
  · exact isHeapRight_nil_iff
  · rcases Nat.mod_two_eq_zero_or_one xs.length with heven | hodd
    · exact isHeapRight_even_iff hne heven
    · exact isHeapRight_odd_iff hodd

/-! When `is_heap` is right on every range of a length. -/

theorem isHeapOf_short (hshort : xs.length ≤ 1) : IsHeapOf comp xs := by
  intro i j x y hij _ hy
  obtain ⟨hj, -⟩ := List.getElem?_eq_some_iff.mp hy
  omega

/-- Equal elements in front of one that has no children. -/
theorem isHeapOf_leaf_iff (comp : T → T → Bool) {x y : T} (hn : 1 < n) (hx : comp x x = false) :
    IsHeapOf comp ((List.range n).map fun i => if i = n - 1 then y else x) ↔ comp x y = false := by
  rw [(reads_range _ n).isHeapOf_iff, List.length_map, List.length_range]
  constructor
  · intro hheap
    have hleaf := hheap ((n - 2) / 2) (n - 1) (by omega) (by omega)
    rwa [if_pos rfl, if_neg (by omega)] at hleaf
  · intro hxy i j hij hj
    rw [if_neg (by omega)]
    split_ifs
    · exact hxy
    · exact hx

theorem odd_and_irrefl (hcomp : StrictWeakOrder comp) (hn : 1 < n) (x : T)
    (hcheck : Checkable comp greater null (List.replicate n x)) :
    n % 2 = 1 ∧ greater x x = false := by
  have hheap := hcheck.finds.mpr (isHeapOf_constant hcomp x n)
  have hfirst : (List.replicate n x)[0]? = some x :=
    List.getElem?_replicate_of_lt (Nat.zero_lt_of_lt hn)
  have hsecond : (List.replicate n x)[1]? = some x := List.getElem?_replicate_of_lt hn
  have hirrefl : greater x x = false := hheap 0 1 x x (.inl rfl) hfirst hsecond
  refine ⟨?_, hirrefl⟩
  have hlast := hcheck.last
  rw [List.length_replicate] at hlast
  refine hlast.resolve_right fun hlarger => ?_
  have hxx := hlarger x x (List.getElem?_replicate_of_lt (by omega))
    (List.getElem?_replicate_of_lt (by omega))
  exact absurd (hirrefl.symm.trans hxx) Bool.false_ne_true

theorem checkable_of_length_iff (hcomp : StrictWeakOrder comp) (greater : T → T → Bool)
    (null : Bool) (n : Nat) :
    (∀ xs : List T, xs.length = n → Checkable comp greater null xs) ↔
      (n = 0 → null = false) ∧ (n ≤ 1 ∨ ∀ x y : T, n % 2 = 1 ∧ greater y x = comp x y) := by
  constructor
  · intro hcheck
    refine ⟨fun hzero => (hcheck [] hzero.symm).first rfl, ?_⟩
    rcases Nat.lt_or_ge 1 n with hn | hshort
    · refine .inr fun x y => ?_
      obtain ⟨hodd, hirrefl⟩ :=
        odd_and_irrefl hcomp hn x (hcheck (List.replicate n x) List.length_replicate)
      have hlength : ((List.range n).map fun i => if i = n - 1 then y else x).length = n := by simp
      have hleaf := (hcheck _ hlength).finds
      rw [isHeapOf_leaf_iff (fun x y => greater y x) hn hirrefl,
        isHeapOf_leaf_iff comp hn (Bool.eq_false_iff.mpr (hcomp.irrefl x))] at hleaf
      exact ⟨hodd, Bool.eq_iff_iff.mpr (by simpa using not_congr hleaf)⟩
    · exact .inl hshort
  · rintro ⟨hnull, hagrees⟩ xs rfl
    refine ⟨fun hnil => hnull (hnil ▸ rfl), ?_, ?_⟩
    · match xs with
      | [] => exact .inr (fun x _ hx => nomatch hx)
      | [x] => exact .inl rfl
      | x :: y :: xs => exact .inl (hagrees.resolve_left (by simp) x y).1
    · rcases hagrees with hshort | hagrees
      · exact iff_of_true (isHeapOf_short hshort) (isHeapOf_short hshort)
      · have hsame : (fun x y => greater y x) = comp := funext fun x => funext fun y => (hagrees x y).2
        rw [hsame]

/-- `is_heap` is right on the ranges that `Checkable` describes. It is right on all of a length
from two on when the length is odd and `operator>` is the comparison. -/
theorem isHeapRight_iff (hcomp : StrictWeakOrder comp) (greater : T → T → Bool) (null : Bool) :
    (∀ xs : List T, IsHeapRight comp greater null xs ↔ Checkable comp greater null xs) ∧
      ∀ n, (∀ xs : List T, xs.length = n → IsHeapRight comp greater null xs) ↔
        (n = 0 → null = false) ∧ (n ≤ 1 ∨ ∀ x y : T, n % 2 = 1 ∧ greater y x = comp x y) := by
  refine ⟨fun xs => isHeapRight_iff_checkable, fun n => ?_⟩
  simp only [isHeapRight_iff_checkable]
  exact checkable_of_length_iff hcomp greater null n

theorem isHeapRight_iff_less :
    (∀ xs : List Nat, IsHeapRight (fun x y => decide (x < y)) (fun x y => decide (x > y)) false xs ↔
        Checkable (fun x y => decide (x < y)) (fun x y => decide (x > y)) false xs) ∧
      ∀ n, (∀ xs : List Nat, xs.length = n →
          IsHeapRight (fun x y => decide (x < y)) (fun x y => decide (x > y)) false xs) ↔
        (n = 0 → false = false) ∧
          (n ≤ 1 ∨ ∀ x y : Nat, n % 2 = 1 ∧ decide (y > x) = decide (x < y)) :=
  isHeapRight_iff StrictWeakOrder.less (fun x y => decide (x > y)) false

/-- A heap of two elements, and a heap for `greater`. -/
theorem isHeap_wrong :
    ¬IsHeapRight (fun x y : Nat => decide (x < y)) (fun x y => decide (x > y)) false [2, 1] ∧
      StrictWeakOrder (fun x y : Nat => decide (x > y)) ∧
      ¬IsHeapRight (fun x y : Nat => decide (x > y)) (fun x y => decide (x > y)) false [1, 2, 3] := by
  refine ⟨?_, StrictWeakOrder.greater, ?_⟩
  · rintro ⟨b, hrun, -⟩
    have hnone : isHeapBy (fun x y : Nat => decide (x < y)) (fun x y => decide (x > y)) false
        [2, 1] = none := by decide
    rw [hnone] at hrun
    cases hrun
  · rintro ⟨b, hrun, hb⟩
    have hfalse : isHeapBy (fun x y : Nat => decide (x > y)) (fun x y => decide (x > y)) false
        [1, 2, 3] = some false := by decide
    have hheap : IsHeapOf (fun x y : Nat => decide (x > y)) [1, 2, 3] := by
      refine (reads_range (fun i => i + 1) 3).isHeapOf_iff.mpr fun i j hij _ => ?_
      exact decide_eq_false (by omega)
    rw [hfalse] at hrun
    obtain rfl := Option.some.inj hrun
    exact Bool.false_ne_true (hb.mpr hheap)

end Algorithm

end RebuildTheWheel.TinySTL
