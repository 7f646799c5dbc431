import RebuildTheWheel.Data.StableMerge
import RebuildTheWheel.TinySTL.Algorithm

namespace RebuildTheWheel.TinySTL

open Data Data.Heap

namespace Algorithm

/-! The heap algorithms with a comparison `comp`, on a range as the list of its elements. The
`operator>` of the elements is `greater`. -/

section

variable {T : Type} (comp greater : T → T → Bool)

def upLoopBy : Nat → Int → Int → List T → Option (List T)
  | 0, _, _, _ => none
  | fuel + 1, cur, index, xs => do
      let parent ← parentIndex index
      if 0 ≤ parent ∧ cur ≠ 0 then
        let p ← load xs parent
        let c ← load xs cur
        let xs ← (if comp p c then swap xs parent cur else some xs)
        upLoopBy fuel parent (toInt parent) xs
      else
        return xs

def upBy (first last : Int) (xs : List T) : Option (List T) :=
  if first ≠ last then upLoopBy comp (xs.length + 1) last (toInt last) xs else some xs

def downLoopBy (last : Int) : Nat → Int → List T → Option (List T)
  | 0, _, _ => none
  | fuel + 1, cur, xs =>
      let leftChildIndex := cur * 2 + 1
      if leftChildIndex < last + 1 ∧ cur < last then do
        let left ← load xs leftChildIndex
        -- the children are compared by `operator>`, whatever the comparison is
        let child ← (if leftChildIndex + 1 ≤ last then do
            let right ← load xs (leftChildIndex + 1)
            return if greater right left then leftChildIndex + 1 else leftChildIndex
          else
            some leftChildIndex)
        let x ← load xs cur
        let y ← load xs child
        let xs ← (if comp x y then swap xs cur child else some xs)
        downLoopBy last fuel child xs
      else
        some xs

def downBy (first last : Int) (xs : List T) : Option (List T) :=
  if first ≠ last then downLoopBy comp greater last (xs.length + 1) first xs else some xs

/-- Below the null pointer, which is the beginning of some empty ranges, addresses wrap. -/
def makeHeapLoopBy (null : Bool) : Nat → Int → List T → Option (List T)
  | 0, _, _ => none
  | fuel + 1, cur, xs =>
      if xs.isEmpty && null || decide (0 ≤ cur) then do
        let xs ← downBy comp greater cur (xs.length - 1) xs
        if cur = 0 then return xs else makeHeapLoopBy null fuel (cur - 1) xs
      else
        some xs

def makeHeapBy (null : Bool) (xs : List T) : Option (List T) :=
  makeHeapLoopBy comp greater null (xs.length + 2) (xs.length / 2 - 1 : Int) xs

def pushHeapBy (xs : List T) : Option (List T) := upBy comp 0 (xs.length - 1) xs

def popHeapBy (xs : List T) : Option (List T) := do
  let xs ← swap xs 0 (xs.length - 1)
  if 2 ≤ xs.length then downBy comp greater 0 (xs.length - 2) xs else return xs

def sortHeapLoopBy : Nat → List T → Option (List T)
  | 0, xs => some xs
  | cur + 1, xs => do
      let xs ← onPart (popHeapBy comp greater) xs 0 (cur + 1)
      sortHeapLoopBy cur xs

def sortHeapBy (xs : List T) : Option (List T) := sortHeapLoopBy comp greater xs.length xs

/-- Of two elements `operator>` never takes the smaller one. -/
def Agrees : Prop :=
  ∀ x y, (greater y x = true → comp y x = false) ∧ (comp x y = true → greater y x = true)

/-- The child that `down` goes on with. -/
def chosen (a : Nat → T) (last c : Nat) : Nat :=
  if 2 * c + 2 ≤ last ∧ greater (a (2 * c + 2)) (a (2 * c + 1)) = true then 2 * c + 2
  else 2 * c + 1

end

variable {T : Type} {comp greater : T → T → Bool} {xs ys : List T} {a b : Nat → T}
  {last c lo n fuel : Nat}

theorem parent_chosen (greater : T → T → Bool) (a : Nat → T) (last c : Nat) :
    parent (chosen greater a last c) = c := by
  rw [chosen]
  split_ifs
  · exact (parent_eq_iff (by omega)).mpr (.inr rfl)
  · exact (parent_eq_iff (by omega)).mpr (.inl rfl)

theorem chosen_pos (greater : T → T → Bool) (a : Nat → T) (last c : Nat) :
    0 < chosen greater a last c := by
  rw [chosen]
  split_ifs <;> omega

theorem chosen_le (hchild : 2 * c + 1 ≤ last) : chosen greater a last c ≤ last := by
  rw [chosen]
  split_ifs with hright
  · exact hright.1
  · exact hchild

/-- The child that is chosen, as the code computes it once the left one is read. -/
theorem Reads.chosen (h : Reads xs a) (greater : T → T → Bool) (hlast : last < xs.length) :
    (if (c : Int) * 2 + 1 + 1 ≤ last then do
        let right ← Algorithm.load xs ((c : Int) * 2 + 1 + 1)
        return if greater right (a (2 * c + 1)) then (c : Int) * 2 + 1 + 1 else (c : Int) * 2 + 1
      else
        some ((c : Int) * 2 + 1)) = some (chosen greater a last c : Int) := by
  have hright : (c : Int) * 2 + 1 + 1 = ((2 * c + 2 : Nat) : Int) := by omega
  have hleft : (c : Int) * 2 + 1 = ((2 * c + 1 : Nat) : Int) := by omega
  rw [hright, hleft, Algorithm.chosen]
  simp only [Option.bind_eq_bind, Int.ofNat_le]
  by_cases hin : 2 * c + 2 ≤ last
  · rw [if_pos hin, h.load (by omega), Option.bind_some]
    cases hgreater : greater (a (2 * c + 2)) (a (2 * c + 1)) <;> simp [hin]
  · rw [if_neg hin, if_neg fun hboth => hin hboth.1]

theorem Reads.downLoopBy_succ (h : Reads xs a) (hlast : last < xs.length)
    (hchild : 2 * c + 1 ≤ last) :
    Algorithm.downLoopBy comp greater last (fuel + 1) c xs =
      (if comp (a c) (a (Algorithm.chosen greater a last c)) then
          Algorithm.swap xs c (Algorithm.chosen greater a last c) else some xs).bind
        (Algorithm.downLoopBy comp greater last fuel (Algorithm.chosen greater a last c)) := by
  have hcast : (c : Int) * 2 + 1 = ((2 * c + 1 : Nat) : Int) := by omega
  have hload : Algorithm.load xs ((c : Int) * 2 + 1) = some (a (2 * c + 1)) :=
    hcast ▸ h.load (by omega)
  have hm : Algorithm.chosen greater a last c < xs.length := (chosen_le hchild).trans_lt hlast
  have hchosen := h.chosen greater (c := c) hlast
  simp only [Option.bind_eq_bind] at hchosen
  rw [Algorithm.downLoopBy, if_pos ⟨by omega, by omega⟩]
  simp only [Option.bind_eq_bind, hload, Option.bind_some, hchosen]
  rw [h.load (by omega), h.load hm]
  rfl

theorem downLoopBy_leaf (hleaf : last < 2 * c + 1) :
    downLoopBy comp greater last (fuel + 1) c xs = some xs := by
  rw [downLoopBy, if_neg fun hcond => absurd hcond.1 (by omega)]

/-! The comparison is that of keys. The child that is chosen has the larger one when the range
has no right child, or `operator>` agrees. -/

section

variable {K : Type} [LinearOrder K] (k : Key comp K)

theorem key_le_chosen (hagrees : last < 2 ∨ Agrees comp greater) {i : Nat} (hpos : 0 < i)
    (hlt : i < last + 1) (hparent : parent i = c) :
    k.key (a i) ≤ k.key (a (chosen greater a last c)) := by
  rw [chosen]
  split_ifs with hright
  · obtain ⟨htaken, -⟩ := hagrees.resolve_left (by omega) (a (2 * c + 1)) (a (2 * c + 2))
    rcases (parent_eq_iff hpos).mp hparent with rfl | rfl
    · exact k.comp_eq_false_iff.mp (htaken hright.2)
    · exact le_rfl
  · rcases (parent_eq_iff hpos).mp hparent with rfl | rfl
    · exact le_rfl
    · have hin : 2 * c + 2 ≤ last := Nat.le_of_lt_succ hlt
      obtain ⟨-, hneeded⟩ := hagrees.resolve_left (by omega) (a (2 * c + 1)) (a (2 * c + 2))
      refine k.comp_eq_false_iff.mp (Bool.eq_false_iff.mpr fun hless => ?_)
      exact hright ⟨hin, hneeded hless⟩

/-- What `down` does to a range whose entry `c` may be too small. -/
theorem Reads.downLoopBy (hagrees : last < 2 ∨ Agrees comp greater) (h : Reads xs a)
    (hlast : last < xs.length) (hsinks : SinksAt (k.key ∘ a) lo (last + 1) c) (hlo : lo ≤ c)
    (hc : c ≤ last) (hfuel : xs.length < fuel + c) :
    ∃ ys b, downLoopBy comp greater last fuel c xs = some ys ∧ ys.Perm xs ∧ Reads ys b ∧
      IsHeap (k.key ∘ b) lo (last + 1) ∧ ∀ i, last < i → b i = a i := by
  induction fuel generalizing c xs a with
  | zero => omega
  | succ fuel ih =>
      by_cases hchild : 2 * c + 1 ≤ last
      · have hm : Algorithm.chosen greater a last c ≤ last := chosen_le hchild
        have hparent := parent_chosen greater a last c
        have hcm : c < Algorithm.chosen greater a last c := by
          have hless := parent_lt (chosen_pos greater a last c)
          rwa [hparent] at hless
        have hmax := fun i hpos hlt hi => key_le_chosen k (a := a) (i := i) (c := c) hagrees hpos hlt hi
        rw [h.downLoopBy_succ hlast hchild]
        cases hless : comp (a c) (a (Algorithm.chosen greater a last c)) with
        | true =>
            obtain ⟨zs, hswap, hperm, hreads⟩ :=
              h.swap (i := c) (j := Algorithm.chosen greater a last c) (by omega) (by omega)
            have hlength := hperm.length_eq
            obtain ⟨ys, b, hrun, hperm', hreads', hheap, hframe⟩ := ih hreads (by omega)
              (hsinks.swap hlo (chosen_pos greater a last c) (Nat.lt_succ_of_le hm) hparent hmax
                ((k.comp_iff _ _).mp hless)) (hlo.trans hcm.le) hm (by omega)
            refine ⟨ys, b, ?_, hperm'.trans hperm, hreads', hheap, fun i hi => ?_⟩
            · rw [if_pos rfl, hswap]
              exact hrun
            · rw [hframe i hi, swapped_of_ne a _ _ (by omega) (by omega)]
        | false =>
            obtain ⟨ys, b, hrun, hrest⟩ := ih h hlast
              (hsinks.pass (chosen_pos greater a last c) hparent hmax
                (k.comp_eq_false_iff.mp hless)) (hlo.trans hcm.le) hm (by omega)
            refine ⟨ys, b, ?_, hrest⟩
            rw [if_neg Bool.false_ne_true]
            exact hrun
      · exact ⟨xs, a, downLoopBy_leaf (by omega), .refl xs, h, hsinks.isHeap (by omega),
          fun _ _ => rfl⟩

theorem Reads.downBy (hagrees : last < 2 ∨ Agrees comp greater) (h : Reads xs a)
    (hlast : last < xs.length) (hsinks : SinksAt (k.key ∘ a) lo (last + 1) c) (hlo : lo ≤ c)
    (hc : c ≤ last) :
    ∃ ys b, downBy comp greater c last xs = some ys ∧ ys.Perm xs ∧ Reads ys b ∧
      IsHeap (k.key ∘ b) lo (last + 1) ∧ ∀ i, last < i → b i = a i := by
  rw [Algorithm.downBy]
  by_cases hsame : (c : Int) ≠ last
  · rw [if_pos hsame]
    exact h.downLoopBy k hagrees hlast hsinks hlo hc (by omega)
  · rw [if_neg hsame]
    exact ⟨xs, a, rfl, .refl xs, h, hsinks.isHeap (by omega), fun _ _ => rfl⟩

/-- `make_heap` goes backwards over the entries that have children. -/
theorem Reads.makeHeapLoopBy {null : Bool} (hagrees : xs.length ≤ 2 ∨ Agrees comp greater)
    (h : Reads xs a) (hheap : IsHeap (k.key ∘ a) (c + 1) xs.length) (hc : c < xs.length)
    (hfuel : c < fuel) :
    ∃ ys b, makeHeapLoopBy comp greater null fuel c xs = some ys ∧ ys.Perm xs ∧ Reads ys b ∧
      IsHeap (k.key ∘ b) 0 xs.length := by
  induction fuel generalizing c xs a with
  | zero => exact absurd hfuel (Nat.not_lt_zero c)
  | succ fuel ih =>
      have hlast : xs.length - 1 + 1 = xs.length := Nat.succ_pred_eq_of_pos (Nat.zero_lt_of_lt hc)
      have hcast : ((xs.length : Int) - 1) = ((xs.length - 1 : Nat) : Int) := by omega
      have hsinks : SinksAt (k.key ∘ a) c (xs.length - 1 + 1) c := by
        rw [hlast]
        exact hheap.sinksAt
      obtain ⟨ys, b, hdown, hperm, hreads, hheap', -⟩ :=
        h.downBy k (hagrees.imp_left (by omega)) (by omega) hsinks le_rfl (Nat.le_sub_one_of_lt hc)
      have hlength := hperm.length_eq
      rw [hlast] at hheap'
      rw [Algorithm.makeHeapLoopBy, if_pos (by simp), hcast, hdown]
      simp only [Option.bind_eq_bind, Option.bind_some]
      cases c with
      | zero => exact ⟨ys, b, rfl, hperm, hreads, hheap'⟩
      | succ c =>
          obtain ⟨zs, b', hrun, hperm', hrest⟩ := ih (hlength ▸ hagrees) hreads (hlength ▸ hheap')
            (by omega) (Nat.lt_of_succ_lt_succ hfuel)
          refine ⟨zs, b', ?_, hperm'.trans hperm, hlength ▸ hrest⟩
          have hprev : ((c + 1 : Nat) : Int) - 1 = c := by omega
          rw [if_neg (by omega), hprev]
          exact hrun

theorem Reads.makeHeapBy (null : Bool) (hagrees : xs.length ≤ 2 ∨ Agrees comp greater)
    (h : Reads xs a) (hne : xs ≠ []) :
    ∃ ys b, makeHeapBy comp greater null xs = some ys ∧ ys.Perm xs ∧ Reads ys b ∧
      IsHeap (k.key ∘ b) 0 xs.length := by
  have hpos := List.length_pos_iff.mpr hne
  rw [Algorithm.makeHeapBy]
  by_cases hone : xs.length = 1
  · refine ⟨xs, a, ?_, .refl xs, h, ?_⟩
    · rw [Algorithm.makeHeapLoopBy, if_neg]
      rw [List.isEmpty_eq_false_iff.mpr hne, hone, Bool.false_and, Bool.false_or]
      decide
    · rw [hone]
      exact fun i hi hlt => absurd hlt (Nat.not_lt_of_le hi)
  · have hcast : (xs.length : Int) / 2 - 1 = ((xs.length / 2 - 1 : Nat) : Int) := by omega
    rw [hcast]
    exact h.makeHeapLoopBy k hagrees (isHeap_leaves _ (by omega)) (by omega) (by omega)

/-- What `up` does to a range whose entry `c` may be too large. -/
theorem Reads.upLoopBy (h : Reads xs a) (hrises : RisesAt (k.key ∘ a) xs.length c)
    (hc : c < xs.length) (hint : c < 2 ^ 31) (hfuel : c < fuel) :
    ∃ ys b, upLoopBy comp fuel c c xs = some ys ∧ ys.Perm xs ∧ Reads ys b ∧
      IsHeap (k.key ∘ b) 0 xs.length := by
  induction fuel generalizing c xs a with
  | zero => exact absurd hfuel (Nat.not_lt_zero c)
  | succ fuel ih =>
      rw [Algorithm.upLoopBy]
      cases Nat.eq_zero_or_pos c with
      | inl hzero =>
          subst hzero
          exact ⟨xs, a, rfl, .refl xs, h, hrises.isHeap⟩
      | inr hpos =>
          have hparent := parent_lt hpos
          have hfuel' : parent c < fuel := by omega
          simp only [parentIndex_natCast hpos, Option.bind_eq_bind, Option.bind_some]
          rw [if_pos ⟨Int.natCast_nonneg _, by omega⟩, toInt_natCast (hparent.trans hint),
            h.load (hparent.trans hc), h.load hc]
          simp only [Option.bind_some]
          cases hless : comp (a (parent c)) (a c) with
          | true =>
              obtain ⟨zs, hswap, hperm, hreads⟩ := h.swap (hparent.trans hc) hc
              have hlength := hperm.length_eq
              have hrises' : RisesAt (k.key ∘ swapped a (parent c) c) zs.length (parent c) :=
                hlength ▸ hrises.swap hpos hc ((k.comp_iff _ _).mp hless)
              obtain ⟨ys, b, hrun, hperm', hrest⟩ :=
                ih hreads hrises' (by omega) (hparent.trans hint) hfuel'
              refine ⟨ys, b, ?_, hperm'.trans hperm, hlength ▸ hrest⟩
              rw [if_pos rfl, hswap]
              exact hrun
          | false =>
              obtain ⟨ys, b, hrun, hrest⟩ :=
                ih h (hrises.pass hpos (k.comp_eq_false_iff.mp hless)) (hparent.trans hc)
                  (hparent.trans hint) hfuel'
              refine ⟨ys, b, ?_, hrest⟩
              rw [if_neg Bool.false_ne_true]
              exact hrun

theorem Reads.pushHeapBy (h : Reads xs a) (hn : xs.length = n + 1) (hint : n < 2 ^ 31)
    (hheap : IsHeap (k.key ∘ a) 0 n) :
    ∃ ys b, pushHeapBy comp xs = some ys ∧ ys.Perm xs ∧ Reads ys b ∧
      IsHeap (k.key ∘ b) 0 xs.length := by
  have hcast : (xs.length : Int) - 1 = n := by omega
  have hrises : RisesAt (k.key ∘ a) xs.length n := hn ▸ hheap.risesAt
  rw [Algorithm.pushHeapBy, hcast, Algorithm.upBy, toInt_natCast hint]
  by_cases hzero : n = 0
  · subst hzero
    exact ⟨xs, a, rfl, .refl xs, h, hrises.isHeap⟩
  · rw [if_pos (by omega)]
    exact h.upLoopBy k hrises (by omega) hint (by omega)

/-- The root goes to the end, and the entries before it are a heap again. -/
theorem Reads.popHeapBy (hagrees : n ≤ 2 ∨ Agrees comp greater) (h : Reads xs a)
    (hn : xs.length = n + 1) (hheap : IsHeap (k.key ∘ a) 0 (n + 1)) :
    ∃ ys b, popHeapBy comp greater xs = some ys ∧ ys.Perm xs ∧ Reads ys b ∧
      IsHeap (k.key ∘ b) 0 n ∧ b n = a 0 := by
  have hcast : (xs.length : Int) - 1 = n := by omega
  obtain ⟨zs, hswap, hperm, hreads⟩ := h.swap (i := 0) (j := n) (by omega) (by omega)
  have hlen := hperm.length_eq
  have hswap' : Algorithm.swap xs 0 n = some zs := hswap
  rw [Algorithm.popHeapBy, hcast, hswap']
  simp only [Option.bind_eq_bind, Option.bind_some]
  by_cases htwo : 2 ≤ zs.length
  · have hlast : (zs.length : Int) - 2 = ((n - 1 : Nat) : Int) := by omega
    have hsucc : n - 1 + 1 = n := by omega
    have hsinks : SinksAt (k.key ∘ swapped a 0 n) 0 (n - 1 + 1) 0 := by
      rw [hsucc]
      refine ⟨fun i hpos hlt _ hne => ?_, fun _ _ _ _ hc => absurd hc (Nat.lt_irrefl 0)⟩
      have hplt := parent_lt hpos
      rw [Function.comp_apply, Function.comp_apply, swapped_of_ne a 0 n (Nat.ne_of_gt hpos) (by omega),
        swapped_of_ne a 0 n hne (by omega)]
      exact hheap i hpos (by omega) (Nat.zero_le _)
    obtain ⟨ys, b, hdown, hperm', hreads', hheap', hframe⟩ :=
      hreads.downBy k (c := 0) (hagrees.imp_left (by omega)) (by omega) hsinks le_rfl (Nat.zero_le _)
    rw [hsucc] at hheap'
    refine ⟨ys, b, ?_, hperm'.trans hperm, hreads', hheap', ?_⟩
    · rw [if_pos htwo, hlast]
      exact hdown
    · rw [hframe n (by omega), swapped_right]
  · rw [if_neg htwo]
    refine ⟨zs, _, rfl, hperm, hreads, ?_, swapped_right a 0 n⟩
    intro i hpos hlt
    omega

end

/-! The algorithms without a comparison are those with `less`. -/

section

variable {T : Type} [LinearOrder T] {xs : List T} {a : Nat → T} {n : Nat}

def lessKey : Key (fun x y : T => decide (x < y)) T where
  key := id
  comp_iff _ _ := decide_eq_true_iff

theorem agrees_less :
    Agrees (fun x y : T => decide (x < y)) (fun x y : T => decide (x > y)) := by
  intro x y
  simp only [gt_iff_lt, decide_eq_true_eq, decide_eq_false_iff_not, not_lt]
  exact ⟨le_of_lt, id⟩

theorem upLoop_eq (fuel : Nat) (cur index : Int) (xs : List T) :
    upLoop fuel cur index xs = upLoopBy (fun x y => decide (x < y)) fuel cur index xs := by
  induction fuel generalizing cur index xs with
  | zero => rfl
  | succ fuel ih => simp only [upLoop, upLoopBy, ih, decide_eq_true_eq]

theorem downLoop_eq (last : Int) (fuel : Nat) (cur : Int) (xs : List T) :
    downLoop last fuel cur xs =
      downLoopBy (fun x y => decide (x < y)) (fun x y => decide (x > y)) last fuel cur xs := by
  induction fuel generalizing cur xs with
  | zero => rfl
  | succ fuel ih => simp only [downLoop, downLoopBy, ih, decide_eq_true_eq]

theorem down_eq (first last : Int) (xs : List T) :
    down first last xs =
      downBy (fun x y => decide (x < y)) (fun x y => decide (x > y)) first last xs := by
  rw [down, downBy, downLoop_eq]

theorem makeHeapLoop_eq (fuel : Nat) (cur : Int) (xs : List T) :
    makeHeapLoop fuel cur xs =
      makeHeapLoopBy (fun x y => decide (x < y)) (fun x y => decide (x > y)) true fuel cur xs := by
  induction fuel generalizing cur xs with
  | zero => rfl
  | succ fuel ih => simp only [makeHeapLoop, makeHeapLoopBy, atLeastFirst, Bool.and_true, down_eq, ih]

theorem Reads.makeHeap (h : Reads xs a) (hne : xs ≠ []) :
    ∃ ys b, makeHeap xs = some ys ∧ ys.Perm xs ∧ Reads ys b ∧ IsHeap b 0 xs.length := by
  rw [Algorithm.makeHeap, makeHeapLoop_eq]
  exact h.makeHeapBy lessKey true (.inr agrees_less) hne

theorem Reads.pushHeap (h : Reads xs a) (hn : xs.length = n + 1) (hint : n < 2 ^ 31)
    (hheap : IsHeap a 0 n) :
    ∃ ys b, pushHeap xs = some ys ∧ ys.Perm xs ∧ Reads ys b ∧ IsHeap b 0 xs.length := by
  rw [Algorithm.pushHeap, up, upLoop_eq]
  exact h.pushHeapBy lessKey hn hint hheap

theorem Reads.popHeap (h : Reads xs a) (hn : xs.length = n + 1) (hheap : IsHeap a 0 (n + 1)) :
    ∃ ys b, popHeap xs = some ys ∧ ys.Perm xs ∧ Reads ys b ∧ IsHeap b 0 n ∧ b n = a 0 := by
  simp only [Algorithm.popHeap, down_eq]
  exact h.popHeapBy lessKey (.inr agrees_less) hn hheap

end

end Algorithm

end RebuildTheWheel.TinySTL
