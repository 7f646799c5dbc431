import RebuildTheWheel.TinySTL.HeapCompare

namespace RebuildTheWheel.TinySTL

open Data Data.Heap

namespace Algorithm

variable {T : Type}

/-- No element is smaller than one of its children. -/
def IsHeapOf (comp : T → T → Bool) (xs : List T) : Prop :=
  ∀ i j x y, j = 2 * i + 1 ∨ j = 2 * i + 2 → xs[i]? = some x → xs[j]? = some y → comp x y = false

/-- What the four algorithms are for. -/
structure HeapRight (comp greater : T → T → Bool) (null : Bool) (xs : List T) : Prop where
  make : ∃ ys, makeHeapBy comp greater null xs = some ys ∧ ys.Perm xs ∧ IsHeapOf comp ys
  push : xs ≠ [] → IsHeapOf comp xs.dropLast →
    ∃ ys, pushHeapBy comp xs = some ys ∧ ys.Perm xs ∧ IsHeapOf comp ys
  pop : xs ≠ [] → IsHeapOf comp xs →
    ∃ ys y, popHeapBy comp greater xs = some (ys ++ [y]) ∧ (ys ++ [y]).Perm xs ∧
      (∀ x ∈ xs, comp y x = false) ∧ IsHeapOf comp ys
  sort : IsHeapOf comp xs →
    ∃ ys, sortHeapBy comp greater xs = some ys ∧ ys.Perm xs ∧ Sorted comp ys

variable {comp greater : T → T → Bool} {null : Bool} {xs ys zs : List T} {a : Nat → T}
  {c n fuel : Nat}

theorem Reads.isHeapOf_iff (h : Reads xs a) :
    IsHeapOf comp xs ↔
      ∀ i j, j = 2 * i + 1 ∨ j = 2 * i + 2 → j < xs.length → comp (a i) (a j) = false := by
  constructor
  · intro hheap i j hij hj
    exact hheap i j _ _ hij (h.entry i (by omega)) (h.entry j hj)
  · intro hheap i j x y hij hx hy
    obtain ⟨hj, -⟩ := List.getElem?_eq_some_iff.mp hy
    obtain rfl := Option.some.inj ((h.entry i (by omega)).symm.trans hx)
    obtain rfl := Option.some.inj ((h.entry j hj).symm.trans hy)
    exact hheap i j hij hj

theorem Reads.isHeapOf_iff_isHeap {K : Type} [LinearOrder K] (k : Key comp K) (h : Reads xs a) :
    IsHeapOf comp xs ↔ IsHeap (k.key ∘ a) 0 xs.length := by
  rw [h.isHeapOf_iff]
  constructor
  · intro hheap i hpos hlt _
    exact k.comp_eq_false_iff.mp (hheap (parent i) i ((parent_eq_iff hpos).mp rfl) hlt)
  · intro hheap i j hij hj
    have hpos : 0 < j := by omega
    have hparent : parent j = i := (parent_eq_iff hpos).mpr hij
    exact k.comp_eq_false_iff.mpr (hparent ▸ hheap j hpos hj (Nat.zero_le _))

theorem isHeapOf_nil : IsHeapOf comp [] := fun _ _ _ _ _ hx => nomatch hx

theorem Reads.dropLast (h : Reads xs a) : Reads xs.dropLast a := by
  refine ⟨fun i hi => ?_⟩
  rw [List.length_dropLast] at hi
  rw [List.getElem?_dropLast, if_pos hi]
  exact h.entry i (by omega)

theorem Reads.dropLast_append (h : Reads xs a) (hn : xs.length = n + 1) :
    xs.dropLast ++ [a n] = xs := by
  have hne : xs ≠ [] := List.ne_nil_of_length_eq_add_one hn
  have hlast : xs.getLast hne = a n := by
    rw [List.getLast_eq_getElem, h.getElem, hn, Nat.add_sub_cancel]
  rw [← hlast, List.dropLast_append_getLast]

/-! The algorithms on a range of which `operator>` and the comparison say the same. -/

theorem makeHeapBy_right (hcomp : StrictWeakOrder comp)
    (hagrees : xs.length ≤ 2 ∨ Agrees comp greater) (hne : xs ≠ []) :
    ∃ ys, makeHeapBy comp greater null xs = some ys ∧ ys.Perm xs ∧ IsHeapOf comp ys := by
  obtain ⟨K, order, ⟨k⟩⟩ := hcomp.exists_key
  obtain ⟨a, h⟩ := exists_reads hne
  obtain ⟨ys, b, hrun, hperm, hreads, hheap⟩ := h.makeHeapBy k null hagrees hne
  rw [← hperm.length_eq] at hheap
  exact ⟨ys, hrun, hperm, (hreads.isHeapOf_iff_isHeap k).mpr hheap⟩

theorem pushHeapBy_right (hcomp : StrictWeakOrder comp) (hne : xs ≠ []) (hint : xs.length ≤ 2 ^ 31)
    (hheap : IsHeapOf comp xs.dropLast) :
    ∃ ys, pushHeapBy comp xs = some ys ∧ ys.Perm xs ∧ IsHeapOf comp ys := by
  obtain ⟨K, order, ⟨k⟩⟩ := hcomp.exists_key
  obtain ⟨a, h⟩ := exists_reads hne
  have hpos := List.length_pos_iff.mpr hne
  have hfront := (h.dropLast.isHeapOf_iff_isHeap k).mp hheap
  rw [List.length_dropLast] at hfront
  obtain ⟨ys, b, hrun, hperm, hreads, hheap'⟩ :=
    h.pushHeapBy k (n := xs.length - 1) (by omega) (by omega) hfront
  rw [← hperm.length_eq] at hheap'
  exact ⟨ys, hrun, hperm, (hreads.isHeapOf_iff_isHeap k).mpr hheap'⟩

theorem popHeapBy_right (hcomp : StrictWeakOrder comp)
    (hagrees : xs.length ≤ 2 ∨ Agrees comp greater) (hne : xs ≠ []) (hheap : IsHeapOf comp xs) :
    ∃ ys y, popHeapBy comp greater xs = some (ys ++ [y]) ∧ (ys ++ [y]).Perm xs ∧
      (∀ x ∈ xs, comp y x = false) ∧ IsHeapOf comp ys := by
  obtain ⟨K, order, ⟨k⟩⟩ := hcomp.exists_key
  obtain ⟨a, h⟩ := exists_reads hne
  obtain ⟨n, hn⟩ : ∃ n, xs.length = n + 1 :=
    Nat.exists_eq_add_one.mpr (List.length_pos_iff.mpr hne)
  have hroot := (h.isHeapOf_iff_isHeap k).mp hheap
  obtain ⟨ys, b, hrun, hperm, hreads, hheap', hlast⟩ :=
    h.popHeapBy k (hagrees.imp_left (by omega)) hn (hn ▸ hroot)
  have hparts := hreads.dropLast_append (hperm.length_eq.trans hn)
  refine ⟨ys.dropLast, b n, hparts.symm ▸ hrun, hparts.symm ▸ hperm, fun x hx => ?_, ?_⟩
  · obtain ⟨i, hi, rfl⟩ := List.getElem_of_mem hx
    rw [h.getElem hi, hlast]
    exact k.comp_eq_false_iff.mpr (hroot.le_root hi)
  · rw [hreads.dropLast.isHeapOf_iff_isHeap k, List.length_dropLast, hperm.length_eq, hn]
    exact hheap'

/-- The heap shrinks in front of the elements that have their places. -/
theorem sortHeapLoopBy_right (hcomp : StrictWeakOrder comp)
    (hagrees : xs.length ≤ 2 ∨ Agrees comp greater) (hheap : IsHeapOf comp xs)
    (hsorted : Sorted comp zs) (hle : ∀ x ∈ xs, ∀ z ∈ zs, comp z x = false) :
    ∃ ys, sortHeapLoopBy comp greater xs.length (xs ++ zs) = some ys ∧ ys.Perm (xs ++ zs) ∧
      Sorted comp ys := by
  induction hn : xs.length generalizing xs zs with
  | zero =>
      obtain rfl := List.length_eq_zero_iff.mp hn
      exact ⟨zs, rfl, .refl _, hsorted⟩
  | succ n ih =>
      obtain ⟨ys, y, hrun, hperm, hmax, hheap'⟩ :=
        popHeapBy_right hcomp hagrees (List.ne_nil_of_length_eq_add_one hn) hheap
      have hlength : ys.length = n := by
        have hboth := hperm.length_eq
        rw [List.length_append, List.length_singleton] at hboth
        omega
      have hpart : onPart (popHeapBy comp greater) (xs ++ zs) 0 (n + 1) =
          some (ys ++ y :: zs) := by
        have hwhole : onPart (popHeapBy comp greater) ([] ++ xs ++ zs) ([] : List T).length
            (([] : List T).length + xs.length) = some ([] ++ (ys ++ [y]) ++ zs) := onPart_append hrun
        rwa [List.nil_append, List.nil_append, List.length_nil, Nat.zero_add, hn,
          List.append_assoc] at hwhole
      have hmem : ∀ x ∈ ys, x ∈ xs := fun x hx =>
        hperm.mem_iff.mp (List.mem_append_left _ hx)
      have hy : y ∈ xs := hperm.mem_iff.mp (List.mem_append_right _ (List.mem_singleton_self y))
      have hsorted' : Sorted comp (y :: zs) := List.pairwise_cons.mpr ⟨hle y hy, hsorted⟩
      have hle' : ∀ x ∈ ys, ∀ z ∈ y :: zs, comp z x = false := by
        intro x hx z hz
        rcases List.mem_cons.mp hz with rfl | hz
        · exact hmax x (hmem x hx)
        · exact hle x (hmem x hx) z hz
      obtain ⟨ws, hrest, hperm', hfinal⟩ :=
        ih (hagrees.imp_left (by omega)) hheap' hsorted' hle' hlength
      refine ⟨ws, ?_, hperm'.trans ?_, hfinal⟩
      · rw [sortHeapLoopBy, hpart]
        exact hrest
      · rw [List.append_cons]
        exact hperm.append_right zs

theorem sortHeapBy_right (hcomp : StrictWeakOrder comp)
    (hagrees : xs.length ≤ 2 ∨ Agrees comp greater) (hheap : IsHeapOf comp xs) :
    ∃ ys, sortHeapBy comp greater xs = some ys ∧ ys.Perm xs ∧ Sorted comp ys := by
  have hnil : Sorted comp ([] : List T) := .nil
  have hspec := sortHeapLoopBy_right hcomp hagrees hheap hnil nofun
  rwa [List.append_nil] at hspec

/-! The ranges on which they go wrong. -/

theorem downLoopBy_same {last : Nat} (h : Reads xs a) (hlast : last < xs.length)
    (hsame : ∀ c, 2 * c + 1 ≤ last → comp (a c) (a (chosen greater a last c)) = false)
    (hrun : downLoopBy comp greater last fuel c xs = some ys) : ys = xs := by
  induction fuel generalizing c with
  | zero => cases hrun
  | succ fuel ih =>
      by_cases hchild : 2 * c + 1 ≤ last
      · rw [h.downLoopBy_succ hlast hchild, hsame c hchild, if_neg Bool.false_ne_true,
          Option.bind_some] at hrun
        exact ih hrun
      · rw [downLoopBy_leaf (by omega)] at hrun
        exact (Option.some.inj hrun).symm

theorem makeHeapLoopBy_same (h : Reads xs a) (hc : c < xs.length)
    (hsame : ∀ c, 2 * c + 1 < xs.length →
      comp (a c) (a (chosen greater a (xs.length - 1) c)) = false)
    (hrun : makeHeapLoopBy comp greater null fuel c xs = some ys) : ys = xs := by
  have hcast : ((xs.length : Int) - 1) = ((xs.length - 1 : Nat) : Int) := by omega
  induction fuel generalizing c with
  | zero => cases hrun
  | succ fuel ih =>
      rw [makeHeapLoopBy, if_pos (by simp), hcast] at hrun
      obtain ⟨zs, hdown, hrest⟩ := Option.bind_eq_some_iff.mp hrun
      have hzs : zs = xs := by
        rw [downBy] at hdown
        split_ifs at hdown
        · exact downLoopBy_same h (by omega) (fun c hchild => hsame c (by omega)) hdown
        · exact (Option.some.inj hdown).symm
      subst hzs
      cases c with
      | zero => exact (Option.some.inj hrest).symm
      | succ c =>
          have hprev : ((c + 1 : Nat) : Int) - 1 = c := by omega
          rw [if_neg (by omega), hprev] at hrest
          exact ih (by omega) hrest

/-- `make_heap` leaves a range as it is when every entry is as large as the child that is
chosen below it. -/
theorem makeHeapBy_same (h : Reads xs a) (hlength : 2 ≤ xs.length)
    (hsame : ∀ c, 2 * c + 1 < xs.length →
      comp (a c) (a (chosen greater a (xs.length - 1) c)) = false)
    (hrun : makeHeapBy comp greater null xs = some ys) : ys = xs := by
  have hcast : (xs.length : Int) / 2 - 1 = ((xs.length / 2 - 1 : Nat) : Int) := by omega
  rw [makeHeapBy, hcast] at hrun
  exact makeHeapLoopBy_same h (by omega) hsame hrun

theorem reads_range (a : Nat → T) (n : Nat) : Reads ((List.range n).map a) a := by
  refine ⟨fun i hi => ?_⟩
  rw [List.length_map, List.length_range] at hi
  rw [List.getElem?_map, List.getElem?_range hi, Option.map_some]

/-- Two elements of which `operator>` takes the wrong one, at the root. -/
theorem exists_not_make (null : Bool) (hcomp : StrictWeakOrder comp) (hn : 3 ≤ n)
    (hagrees : ¬Agrees comp greater) : ∃ xs, xs.length = n ∧ ¬HeapRight comp greater null xs := by
  -- the child that is not chosen is larger than the root, and nothing else is out of order
  have hwrong : ∀ a : Nat → T, ∀ j, j = 1 ∨ j = 2 → comp (a 0) (a j) = true →
      (∀ c, 2 * c + 1 < n → comp (a c) (a (chosen greater a (n - 1) c)) = false) →
      ∃ xs, xs.length = n ∧ ¬HeapRight comp greater null xs := by
    intro a j hj hless hsame
    have h := reads_range a n
    have hlength : ((List.range n).map a).length = n := by simp
    refine ⟨(List.range n).map a, hlength, fun hright => ?_⟩
    obtain ⟨ys, hrun, -, hheap⟩ := hright.make
    rw [← hlength] at hsame
    rw [makeHeapBy_same h (by omega) hsame hrun, h.isHeapOf_iff] at hheap
    have hroot := hheap 0 j (by omega) (by omega)
    rw [hless] at hroot
    cases hroot
  have hirrefl : ∀ x, comp x x = false := fun x => Bool.eq_false_iff.mpr (hcomp.irrefl x)
  have hchild : ∀ (a : Nat → T) c, 0 < c → 3 ≤ chosen greater a (n - 1) c := by
    intro a c hpos
    rw [chosen]
    split_ifs <;> omega
  simp only [Agrees, not_forall, Classical.not_and_iff_not_or_not, Bool.not_eq_false,
    Bool.not_eq_true] at hagrees
  obtain ⟨x, y, ⟨htaken, hless⟩ | ⟨hless, hleft⟩⟩ := hagrees
  · refine hwrong (fun i => if i = 1 then x else y) 1 (.inl rfl) hless fun c _ => ?_
    rcases Nat.eq_zero_or_pos c with rfl | hpos
    · have hroot : chosen greater (fun i => if i = 1 then x else y) (n - 1) 0 = 2 :=
        if_pos ⟨by omega, htaken⟩
      rw [hroot]
      exact hirrefl y
    · have hthree := hchild (fun i => if i = 1 then x else y) c hpos
      simp only [if_neg (show chosen greater (fun i => if i = 1 then x else y) (n - 1) c ≠ 1 by omega)]
      split_ifs
      · exact hcomp.asymm hless
      · exact hirrefl y
  · refine hwrong (fun i => if i = 2 then y else x) 2 (.inr rfl) hless fun c _ => ?_
    rcases Nat.eq_zero_or_pos c with rfl | hpos
    · have hroot : chosen greater (fun i => if i = 2 then y else x) (n - 1) 0 = 1 :=
        if_neg fun hboth => absurd (hleft.symm.trans hboth.2) Bool.false_ne_true
      rw [hroot]
      exact hirrefl x
    · have hthree := hchild (fun i => if i = 2 then y else x) c hpos
      simp only [if_neg (show chosen greater (fun i => if i = 2 then y else x) (n - 1) c ≠ 2 by omega)]
      split_ifs
      · exact hcomp.asymm hless
      · exact hirrefl x

/-! The `int` that holds the index of `up`. -/

theorem toInt_lt (i : Int) : toInt i < 2 ^ 31 := by
  rw [toInt, BitVec.toInt_ofInt, Int.bmod_def]
  split_ifs <;> omega

theorem toInt_le (c : Nat) : toInt c ≤ c := by
  rw [toInt, BitVec.toInt_ofInt, Int.bmod_def]
  split_ifs <;> omega

theorem toInt_wraps (hc : 2 ^ 31 ≤ c) : toInt c ≤ c - 2 ^ 32 := by
  rw [toInt, BitVec.toInt_ofInt, Int.bmod_def]
  split_ifs <;> omega

theorem tdiv_two_eq {i : Int} {p : Nat} (hp : i.tdiv 2 = p) : p = 0 ∨ 2 * (p : Int) ≤ i := by
  rw [Int.tdiv_eq_ediv, Int.sign_eq_one_of_pos (by omega)] at hp
  split_ifs at hp <;> omega

/-- `up` leaves a range as it is when it exchanges none of the entries it comes by. -/
theorem upLoopBy_same (visits : Nat → Prop) (h : Reads xs a)
    (hvisits : ∀ c, visits c → c < xs.length)
    (hup : ∀ c p : Nat, visits c → p = 0 ∨ 2 * (p : Int) + 1 ≤ toInt c → visits p)
    (hsame : ∀ c p, visits c → visits p → comp (a p) (a c) = false)
    (hc : visits c) (hint : toInt c ≠ -2 ^ 31) (hfuel : c < fuel) :
    upLoopBy comp fuel c (toInt c) xs = some xs := by
  induction fuel generalizing c with
  | zero => exact absurd hfuel (Nat.not_lt_zero c)
  | succ fuel ih =>
      have hlow : -2 ^ 31 ≤ toInt c - 1 := by
        have hge : -2 ^ 31 ≤ toInt c := by
          rw [toInt, BitVec.toInt_ofInt, Int.bmod_def]
          split_ifs <;> omega
        omega
      have hhigh := toInt_lt c
      rw [upLoopBy, parentIndex, if_pos hlow]
      simp only [Option.bind_eq_bind, Option.bind_some]
      split_ifs with hmore
      · obtain ⟨p, hp⟩ := Int.eq_ofNat_of_zero_le hmore.1
        have hstep : p = 0 ∨ 2 * (p : Int) + 1 ≤ toInt c :=
          (tdiv_two_eq hp).imp_right fun hle => by omega
        have hpvisits := hup c p hc hstep
        have hle := toInt_le c
        have hpint : toInt p = p := toInt_natCast (by omega)
        have hpc : p < c := by omega
        rw [hp, h.load (hvisits p hpvisits), h.load (hvisits c hc)]
        simp only [Option.bind_some, hsame c p hc hpvisits, Bool.false_eq_true, if_false]
        exact ih hpvisits (by rw [hpint]; omega) (by omega)
      · rfl

/-- An index of `2 ^ 31` and its wraps is the least `int`, below which there is none. -/
theorem upLoopBy_overflows (hint : toInt c = -2 ^ 31) :
    upLoopBy comp fuel c (toInt c) xs = none := by
  cases fuel with
  | zero => rfl
  | succ fuel =>
      rw [upLoopBy, parentIndex, if_neg (by omega)]
      rfl

theorem toInt_eq_min_iff (c : Nat) : toInt c = -2 ^ 31 ↔ c % 2 ^ 32 = 2 ^ 31 := by
  rw [toInt, BitVec.toInt_ofInt, Int.bmod_def]
  split_ifs <;> omega

theorem pushHeapBy_eq (hlength : xs.length = n) (htwo : 2 ≤ n) :
    pushHeapBy comp xs = upLoopBy comp (n + 1) (n - 1 : Nat) (toInt (n - 1 : Nat)) xs := by
  have hcast : (xs.length : Int) - 1 = (n - 1 : Nat) := by omega
  rw [pushHeapBy, hcast, upBy, if_pos (by omega), hlength]

theorem pushHeapBy_flat (hflat : ∀ x y, comp x y = false) (hlong : 2 ^ 31 < xs.length)
    (hint : (xs.length - 1) % 2 ^ 32 ≠ 2 ^ 31) : pushHeapBy comp xs = some xs := by
  obtain ⟨a, h⟩ := exists_reads (List.ne_nil_of_length_pos (show 0 < xs.length by omega))
  rw [pushHeapBy_eq rfl (by omega)]
  refine upLoopBy_same (fun c => c < xs.length) h (fun _ hc => hc) (fun c p hc hp => ?_)
    (fun _ _ _ _ => hflat _ _) (by omega) (mt (toInt_eq_min_iff _).mp hint) (by omega)
  have hle := toInt_le c
  omega

/-- A heap that ends with a maximal element, where the wrapped index leads past its parent. -/
theorem exists_not_push (greater : T → T → Bool) (null : Bool) (hlong : 2 ^ 31 < n)
    (hcomp : StrictWeakOrder comp) {x y : T} (hless : comp x y = true) :
    ∃ xs, xs.length = n ∧ ¬HeapRight comp greater null xs := by
  let a : Nat → T := fun i => if (n - 2) / 2 ≤ i ∧ i < n - 1 then x else y
  have h := reads_range a n
  have hlength : ((List.range n).map a).length = n := by simp
  have hne : (List.range n).map a ≠ [] := List.ne_nil_of_length_pos (by omega)
  have hirrefl : ∀ x, comp x x = false := fun x => Bool.eq_false_iff.mpr (hcomp.irrefl x)
  refine ⟨(List.range n).map a, hlength, fun hright => ?_⟩
  have hfront : IsHeapOf comp ((List.range n).map a).dropLast := by
    rw [h.dropLast.isHeapOf_iff, List.length_dropLast, hlength]
    intro i j hij hj
    by_cases hi : (n - 2) / 2 ≤ i
    · have hai : a i = x := if_pos ⟨hi, by omega⟩
      have haj : a j = x := if_pos ⟨by omega, hj⟩
      rw [hai, haj]
      exact hirrefl x
    · have hai : a i = y := if_neg fun hboth => hi hboth.1
      rw [hai]
      simp only [a]
      split_ifs
      · exact hcomp.asymm hless
      · exact hirrefl y
  obtain ⟨ys, hrun, -, hheap⟩ := hright.push hne hfront
  rw [pushHeapBy_eq hlength (by omega)] at hrun
  by_cases hint : toInt (n - 1 : Nat) = -2 ^ 31
  · rw [upLoopBy_overflows hint] at hrun
    cases hrun
  · have hvisited : ∀ c, c < (n - 2) / 2 ∨ c = n - 1 → a c = y := by
      intro c hc
      exact if_neg (by omega)
    have hsame : upLoopBy comp (n + 1) (n - 1 : Nat) (toInt (n - 1 : Nat)) ((List.range n).map a) = some ((List.range n).map a) := by
      refine upLoopBy_same (fun c => c < (n - 2) / 2 ∨ c = n - 1) h
        (fun c hc => by omega) (fun c p hc hp => ?_) (fun c p hc hp => ?_) (.inr rfl) hint
        (by omega)
      · left
        rcases hc with hc | rfl
        · have hle := toInt_le c
          omega
        · have hwraps := toInt_wraps (c := n - 1) (by omega)
          omega
      · rw [hvisited c hc, hvisited p hp]
        exact hirrefl y
    rw [hsame] at hrun
    obtain rfl := Option.some.inj hrun
    have hlast := h.isHeapOf_iff.mp hheap ((n - 2) / 2) (n - 1) (by omega) (by omega)
    have hparent : a ((n - 2) / 2) = x := if_pos ⟨le_rfl, by omega⟩
    have hend : a (n - 1) = y := hvisited (n - 1) (.inr rfl)
    rw [hparent, hend, hless] at hlast
    cases hlast

/-! When the algorithms are right on every range of a length. -/

theorem makeHeapBy_nil (null : Bool) :
    makeHeapBy comp greater null [] = if null then none else some [] := by
  cases null <;> simp [makeHeapBy, makeHeapLoopBy, downBy, downLoopBy, load]

theorem pushHeapBy_constant_overflows (x : T) (hlong : 2 ^ 31 < n)
    (hint : (n - 1) % 2 ^ 32 = 2 ^ 31) : pushHeapBy comp (List.replicate n x) = none := by
  rw [pushHeapBy_eq List.length_replicate (by omega)]
  exact upLoopBy_overflows ((toInt_eq_min_iff _).mpr hint)

theorem isHeapOf_constant (hcomp : StrictWeakOrder comp) (x : T) (n : Nat) :
    IsHeapOf comp (List.replicate n x) := by
  intro i j y z _ hy hz
  rw [List.eq_of_mem_replicate (List.mem_of_getElem? hy),
    List.eq_of_mem_replicate (List.mem_of_getElem? hz)]
  exact Bool.eq_false_iff.mpr (hcomp.irrefl x)

/-- The comparison must say of two elements what `operator>` says as soon as there are two
children to compare, and the index of the last element must be an `int` unless there is nothing
to exchange. -/
theorem heapRight_iff (hcomp : StrictWeakOrder comp) (greater : T → T → Bool) (null : Bool)
    (n : Nat) :
    (∀ xs : List T, xs.length = n → HeapRight comp greater null xs) ↔
      (n = 0 → null = false) ∧ (n ≤ 2 ∨ Agrees comp greater) ∧
        (n ≤ 2 ^ 31 ∨ ∀ x y : T, comp x y = false ∧ (n - 1) % 2 ^ 32 ≠ 2 ^ 31) := by
  constructor
  · intro hright
    refine ⟨fun hzero => ?_, ?_, ?_⟩
    · obtain ⟨ys, hrun, -⟩ := (hright [] hzero.symm).make
      rw [makeHeapBy_nil] at hrun
      cases null with
      | false => rfl
      | true => cases hrun
    · by_contra! hno
      obtain ⟨xs, hlength, hwrong⟩ := exists_not_make null hcomp hno.1 hno.2
      exact hwrong (hright xs hlength)
    · rcases Nat.lt_or_ge (2 ^ 31) n with hlong | hshort
      · refine .inr fun x y => ⟨?_, fun hint => ?_⟩
        · refine Bool.eq_false_iff.mpr fun hless => ?_
          obtain ⟨xs, hlength, hwrong⟩ := exists_not_push greater null hlong hcomp hless
          exact hwrong (hright xs hlength)
        · have hpush := (hright (List.replicate n x) List.length_replicate).push
            (List.ne_nil_of_length_pos (by rw [List.length_replicate]; omega))
          rw [List.dropLast_replicate, pushHeapBy_constant_overflows x hlong hint] at hpush
          obtain ⟨ys, hrun, -⟩ := hpush (isHeapOf_constant hcomp x (n - 1))
          cases hrun
      · exact .inl hshort
  · rintro ⟨hnull, hagrees, hint⟩ xs rfl
    refine ⟨?_, fun hne hheap => ?_, popHeapBy_right hcomp hagrees, sortHeapBy_right hcomp hagrees⟩
    · rcases List.eq_nil_or_concat xs with rfl | ⟨_, _, rfl⟩
      · rw [makeHeapBy_nil, hnull rfl]
        exact ⟨[], rfl, .nil, isHeapOf_nil⟩
      · exact makeHeapBy_right hcomp hagrees (by simp)
    · rcases hint with hshort | hflat
      · exact pushHeapBy_right hcomp hne hshort hheap
      · rcases Nat.lt_or_ge (2 ^ 31) xs.length with hlong | hshort
        · obtain ⟨x, -⟩ := List.exists_mem_of_ne_nil xs hne
          exact ⟨xs, pushHeapBy_flat (fun x y => (hflat x y).1) hlong (hflat x x).2, .refl _,
            fun _ _ y z _ _ _ => (hflat y z).1⟩
        · exact pushHeapBy_right hcomp hne hshort hheap

theorem heapRight_iff_three :
    (∀ xs : List Nat, xs.length = 3 →
        HeapRight (fun x y => decide (x < y)) (fun x y => decide (x > y)) false xs) ↔
      (3 = 0 → false = false) ∧
        (3 ≤ 2 ∨ Agrees (fun x y : Nat => decide (x < y)) fun x y => decide (x > y)) ∧
        (3 ≤ 2 ^ 31 ∨ ∀ x y : Nat, decide (x < y) = false ∧ (3 - 1) % 2 ^ 32 ≠ 2 ^ 31) :=
  heapRight_iff StrictWeakOrder.less (fun x y => decide (x > y)) false 3

/-- A heap for `greater` has its least element at the root, and `make_heap` leaves a child that is
smaller. -/
theorem makeHeap_greater_three :
    StrictWeakOrder (fun x y : Nat => decide (x > y)) ∧
      ¬HeapRight (fun x y : Nat => decide (x > y)) (fun x y => decide (x > y)) false [3, 1, 2] := by
  refine ⟨StrictWeakOrder.greater, fun hright => ?_⟩
  obtain ⟨ys, hrun, -, hheap⟩ := hright.make
  have hmade : makeHeapBy (fun x y : Nat => decide (x > y)) (fun x y => decide (x > y)) false
      [3, 1, 2] = some [2, 1, 3] := by decide
  rw [hmade] at hrun
  obtain rfl := Option.some.inj hrun
  have hchild := hheap 0 1 2 1 (.inl rfl) rfl rfl
  exact absurd hchild (by decide)

end Algorithm

end RebuildTheWheel.TinySTL
