import Mathlib.Algebra.BigOperators.Group.Finset.Basic
import Mathlib.Data.Fintype.Sum
import Mathlib.Logic.Equiv.Basic
import Mathlib.Tactic.DeriveFintype
import RebuildTheWheel.TinySTL.LinkedListRun

namespace RebuildTheWheel.TinySTL

open Data NodeHeap

namespace LinkedList

/-! `sort`. -/

/-- The lists of a call: the list itself, `carry`, and the array `counter`. -/
inductive Slot where
  | self
  | carry
  | counter (i : Fin 64)
  deriving DecidableEq, Fintype

/-- Why a call has no result. -/
inductive SortHalt where
  /-- `counter[i]` is outside the array. -/
  | counter (i : Int)
  /-- A pointer to no node is used, or the bound of the model is used up. -/
  | fault
  deriving DecidableEq

abbrev SortRun (α : Type) := Except SortHalt α

def counterAt (i : Int) : SortRun Slot :=
  if h : 0 ≤ i ∧ i < 64 then .ok (.counter ⟨i.toNat, by omega⟩) else .error (.counter i)

def orFault {α : Type} : Option α → SortRun α
  | some a => .ok a
  | none => .error .fault

variable {T : Type}

/-- `list()`, `n` times. -/
def construct [Inhabited T] : Nat → NodeHeap T → NodeHeap T
  | 0, m => m
  | n + 1, m => construct n (m.newNode default).1

namespace World

/-- `list carry; list counter[64];` -/
def locals [Inhabited T] (m : NodeHeap T) (l : LinkedList) : World Slot T where
  heap := construct 65 m
  lists
    | .self => l
    | .carry => ⟨m.top, m.top⟩
    | .counter i => ⟨m.top + 1 + i, m.top + 1 + i⟩

/-- `carry.splice(carry.begin(), *this, begin());` -/
def takeFirst (w : World Slot T) : Option (World Slot T) := do
  let next ← w.heap.loadNext (w.lists .self).head
  let (m, l, x) ← LinkedList.splice w.heap (w.lists .carry) (w.lists .carry).head (w.lists .self)
    (w.lists .self).head next
  some ((w.put .carry (m, l)).put .self (m, x))

variable {ι : Type} [DecidableEq ι]

def swap (w : World ι T) (k j : ι) : World ι T :=
  { w with lists := Function.update (Function.update w.lists k (w.lists j)) j (w.lists k) }

variable [Inhabited T]

/-- `while (i < fill && !counter[i].empty())`, which makes fewer than `fuel` rounds. -/
def carryLoop (comp : T → T → Bool) (fill : Int) :
    Nat → World Slot T → Int → SortRun (World Slot T × Int)
  | 0, _, _ => .error .fault
  | fuel + 1, w, i =>
      if i < fill then do
        let k ← counterAt i
        if (w.lists k).empty then .ok (w, i)
        else
          let w ← orFault (w.step (.merge k .carry comp))
          carryLoop comp fill fuel (w.swap .carry k) (i + 1)
      else .ok (w, i)

/-- `while (!empty())`, which makes fewer than `fuel` rounds. -/
def distribute (comp : T → T → Bool) : Nat → World Slot T → Int → SortRun (World Slot T × Int)
  | 0, _, _ => .error .fault
  | fuel + 1, w, fill =>
      if (w.lists .self).empty then .ok (w, fill)
      else do
        let w ← orFault w.takeFirst
        let (w, i) ← carryLoop comp fill 65 w 0
        let k ← counterAt i
        distribute comp fuel (w.swap .carry k) (if i = fill then fill + 1 else fill)

/-- `for (int i = 0; i != fill; ++i)`, which makes fewer than `fuel` rounds. -/
def collect (comp : T → T → Bool) (fill : Int) : Nat → World Slot T → Int → SortRun (World Slot T)
  | 0, _, _ => .error .fault
  | fuel + 1, w, i =>
      if i ≠ fill then do
        let k ← counterAt i
        let j ← counterAt (i - 1)
        let w ← orFault (w.step (.merge k j comp))
        collect comp fill fuel w (i + 1)
      else .ok w

end World

/-- The locals are destroyed when the call ends; no call with a result has any. -/
def sort [Inhabited T] (m : NodeHeap T) (l : LinkedList) (comp : T → T → Bool) :
    SortRun (NodeHeap T × LinkedList) := do
  if l.empty then .ok (m, l)
  else
    let second ← orFault (m.loadNext l.head)
    if second = l.tail then .ok (m, l)
    else
      let (w, fill) ← World.distribute comp (m.top + 1) (World.locals m l) 0
      let w ← World.collect comp fill 65 w 0
      let k ← counterAt (fill - 1)
      .ok (w.heap, w.lists k)

/-! What the steps make of the sequences that the lists hold. -/

variable {m : NodeHeap T} {l : LinkedList} {cells : List Nat}

theorem Rep.empty_iff (h : Rep m l cells) : l.empty = true ↔ contents m cells = [] := by
  obtain ⟨ys, rfl⟩ := h.exists_cons
  have hfront : Rep m l ([] ++ l.head :: ys) := h
  rw [LinkedList.empty, beq_iff_eq]
  cases ys with
  | nil => exact ⟨fun _ => rfl, fun _ => Rep.tail_of_singleton hfront⟩
  | cons d ys =>
      have hne := hfront.ne_tail
      exact ⟨fun heq => absurd heq hne, fun heq => by cases heq⟩

namespace World

section

variable {ι : Type} {w : World ι T} {c : ι → List T} {k j : ι}

theorem Holds.empty_iff (h : w.Holds c) : (w.lists k).empty = true ↔ c k = [] := by
  obtain ⟨cells, howns⟩ := h
  rw [← howns.vals k]
  exact (howns.rep k).empty_iff

variable [DecidableEq ι]

theorem Holds.swap (h : w.Holds c) (k j : ι) :
    (w.swap k j).Holds (Function.update (Function.update c k (c j)) j (c k)) := by
  obtain ⟨cells, howns⟩ := h
  let σ := Equiv.swap k j
  have hσ : ∀ {α : Type} (f : ι → α) (i : ι),
      Function.update (Function.update f k (f j)) j (f k) i = f (σ i) := by
    intro α f i
    rw [Equiv.swap_apply_def, Function.update_apply, Function.update_apply]
    split_ifs with hj hk hk
    · rw [← hk, hj]
    · rfl
    · rfl
    · rfl
  refine ⟨fun i => cells (σ i), ?_, ?_, ?_, howns.bounded⟩
  · intro i
    have hlists : (w.swap k j).lists i = w.lists (σ i) := hσ w.lists i
    rw [hlists]
    exact howns.rep (σ i)
  · intro i i' hne
    exact howns.apart _ _ (σ.injective.ne hne)
  · intro i
    rw [hσ c i]
    exact howns.vals (σ i)

theorem Holds.merge [Inhabited T] (h : w.Holds c) (hkj : k ≠ j) (comp : T → T → Bool) :
    ∃ next, w.step (.merge k j comp) = some next ∧ next.Holds (Op.apply c (.merge k j comp)) := by
  obtain ⟨cells, howns⟩ := h
  obtain ⟨m', l', cells', hrun, hmerged⟩ :=
    (howns.rep k).merge (howns.rep j) (howns.apart j k hkj.symm) howns.bounded comp
  rw [howns.vals, howns.vals] at hmerged
  exact ⟨_, by rw [step, hrun]; rfl, howns.merge hkj hmerged⟩

end

/-- The first element goes to the front of `carry`. -/
theorem Holds.takeFirst {w : World Slot T} {c : Slot → List T} (h : w.Holds c) {a : T}
    {rest : List T} (ha : c .self = a :: rest) :
    ∃ next, w.takeFirst = some next ∧
      next.Holds (Function.update (Function.update c .carry (a :: c .carry)) .self rest) := by
  obtain ⟨cells, howns⟩ := h
  obtain ⟨ys, hcarry⟩ := (howns.rep .carry).exists_cons
  obtain ⟨zs, hself⟩ := (howns.rep .self).exists_cons
  have hvals := howns.vals .self
  have hl := howns.rep .carry
  have hx := howns.rep .self
  rw [hcarry] at hl
  rw [ha, hself] at hvals
  rw [hself] at hx
  cases zs with
  | nil => cases hvals
  | cons g gs =>
      rw [contents_cons] at hvals
      obtain ⟨hdata, hrest⟩ := List.cons.inj hvals
      have hl' : Rep w.heap (w.lists .carry) ([] ++ (w.lists .carry).head :: ys) := hl
      have hx' : Rep w.heap (w.lists .self) ([(w.lists .self).head] ++ g :: gs) := hx
      have hnext : w.heap.loadNext (w.lists .self).head = some g :=
        (loadNext_eq hx.live_head).trans
          (Rep.next_eq (show Rep w.heap (w.lists .self) ([] ++ (w.lists .self).head :: g :: gs) from hx))
      have hapart : ∀ y ∈ [(w.lists .self).head] ++ g :: gs, y ∉ [] ++ (w.lists .carry).head :: ys := by
        intro y hy
        rw [List.nil_append, ← hcarry]
        exact howns.apart .self .carry (by decide) y (hself ▸ hy)
      obtain ⟨m', hrun, hs⟩ := splice_front hl' hx' rfl rfl hapart
      have hjoins := hs.joins hl' hx' rfl rfl hapart
      have hleaves := hs.leaves hx' rfl rfl hapart
      have hmoved : Rearranged w.heap m' ([] ++ (w.lists .carry).head :: ys ++
          ([(w.lists .self).head] ++ g :: gs)) := hs.rearranged rfl rfl
      have hhere : Rearranged w.heap m' (cells .carry ++ cells .self) := by
        rw [hcarry, hself]
        exact hmoved
      refine ⟨_, ?_, _, howns.exchange (by decide) hhere hjoins hleaves ?_ ?_ ?_ ?_ ?_⟩
      · rw [World.takeFirst, hnext]
        simp [hrun]
      · rw [hhere.contents, List.nil_append, List.singleton_append, contents_cons, hdata,
          ← hcarry, howns.vals]
      · rw [hhere.contents, hrest]
      · rw [hcarry, hself]
        intro y hy
        simp only [List.mem_append, List.mem_cons, List.not_mem_nil, or_false, false_or] at hy ⊢
        tauto
      · rw [hself]
        exact fun y hy => List.mem_append_right _ (List.mem_cons_of_mem _ hy)
      · intro y hy hmem
        simp only [List.mem_append, List.mem_cons, List.not_mem_nil, or_false, false_or] at hmem
        rcases hmem with rfl | hmem
        · exact (List.nodup_cons.mp hx.nodup).1 hy
        · refine hapart y (List.mem_append_right _ hy) ?_
          simpa using hmem

/-! The lengths of the lists. -/

def total (c : Slot → List T) : Nat := ∑ k, (c k).length

theorem total_eq (c : Slot → List T) {k j : Slot} (hkj : k ≠ j) :
    total c = (c k).length +
      ((c j).length + ∑ i ∈ (Finset.univ.erase k).erase j, (c i).length) := by
  have hj : j ∈ Finset.univ.erase k := Finset.mem_erase.mpr ⟨hkj.symm, Finset.mem_univ j⟩
  rw [Finset.add_sum_erase _ (fun i => (c i).length) hj,
    Finset.add_sum_erase _ (fun i => (c i).length) (Finset.mem_univ k), total]

theorem carry_le_total (c : Slot → List T) : (c .carry).length ≤ total c := by
  have hself : Slot.carry ≠ .self := by decide
  rw [total_eq c hself]
  exact Nat.le_add_right _ _

theorem total_update {c : Slot → List T} {k j : Slot} (hkj : k ≠ j) {xs ys : List T}
    (h : xs.length + ys.length = (c k).length + (c j).length) :
    total (Function.update (Function.update c k xs) j ys) = total c := by
  have hrest : ∑ i ∈ (Finset.univ.erase k).erase j,
      (Function.update (Function.update c k xs) j ys i).length =
        ∑ i ∈ (Finset.univ.erase k).erase j, (c i).length := by
    refine Finset.sum_congr rfl fun i hi => ?_
    obtain ⟨hij, hi⟩ := Finset.mem_erase.mp hi
    rw [Function.update_of_ne hij, Function.update_of_ne (Finset.mem_erase.mp hi).1]
  rw [total_eq _ hkj, total_eq c hkj, hrest, Function.update_self, Function.update_of_ne hkj,
    Function.update_self]
  omega

/-- While an element is taken in: `carry` has `2 ^ i` elements, and a counter none or the power
of two of its index. -/
structure Carrying (c : Slot → List T) (fill i : Nat) : Prop where
  carry : (c .carry).length = 2 ^ i
  below : ∀ j : Fin 64, j.1 < i → c (.counter j) = []
  counter : ∀ j : Fin 64, j.1 < fill → c (.counter j) = [] ∨ (c (.counter j)).length = 2 ^ j.1
  above : ∀ j : Fin 64, fill ≤ j.1 → c (.counter j) = []
  le : i ≤ fill

/-- Between two elements. -/
structure Filled (c : Slot → List T) (fill : Nat) : Prop where
  carry : c .carry = []
  counter : ∀ j : Fin 64, j.1 < fill → c (.counter j) = [] ∨ (c (.counter j)).length = 2 ^ j.1
  above : ∀ j : Fin 64, fill ≤ j.1 → c (.counter j) = []

theorem counterAt_eq {i : Nat} (hi : i < 64) : counterAt i = .ok (.counter ⟨i, hi⟩) := by
  have hi' : (0 : Int) ≤ i ∧ (i : Int) < 64 := by omega
  rw [counterAt, dif_pos hi']
  rfl

/-- `carry` and a counter, when both have got new contents. -/
theorem update_slots (c : Slot → List T) (i : Fin 64) (xs ys : List T) :
    let c' := Function.update (Function.update c .carry xs) (.counter i) ys
    c' .carry = xs ∧ c' (.counter i) = ys ∧ c' .self = c .self ∧
      ∀ j, j ≠ i → c' (.counter j) = c (.counter j) := by
  refine ⟨?_, ?_, ?_, fun j hj => ?_⟩
  · simp
  · simp
  · simp
  · simp [hj]

variable [Inhabited T]

/-- One round of the inner loop: a counter that is not empty goes into `carry`. -/
theorem Carrying.round {w : World Slot T} {c : Slot → List T} {fill i : Nat} (h : Carrying c fill i)
    (hw : w.Holds c) (comp : T → T → Bool) (hi : i < 64) (hfill : i < fill)
    (hfull : c (.counter ⟨i, hi⟩) ≠ []) :
    ∃ next c', w.step (.merge (.counter ⟨i, hi⟩) .carry comp) = some next ∧
      (next.swap .carry (.counter ⟨i, hi⟩)).Holds c' ∧ Carrying c' fill (i + 1) ∧
      total c' = total c ∧ c' .self = c .self := by
  have hne : Slot.counter ⟨i, hi⟩ ≠ .carry := fun heq => nomatch heq
  obtain ⟨next, hrun, hnext⟩ := hw.merge hne comp
  let merged := (c (.counter ⟨i, hi⟩)).merge (c .carry) fun a b => !comp b a
  have hlength : merged.length = (c (.counter ⟨i, hi⟩)).length + (c .carry).length :=
    List.length_merge ..
  have hpower : (c (.counter ⟨i, hi⟩)).length = 2 ^ i := (h.counter ⟨i, hi⟩ hfill).resolve_left hfull
  have hcarry := h.carry
  obtain ⟨c', hc', hswapped⟩ : ∃ c',
      c' = Function.update (Function.update c .carry merged) (.counter ⟨i, hi⟩) [] ∧
      (next.swap .carry (.counter ⟨i, hi⟩)).Holds c' := by
    refine ⟨_, rfl, ?_⟩
    have hboth := hnext.swap .carry (.counter ⟨i, hi⟩)
    simpa [Op.apply, merged, hne, Function.update_comm hne] using hboth
  obtain ⟨hatCarry, hat, hself, hother⟩ := update_slots c ⟨i, hi⟩ merged []
  rw [← hc'] at hatCarry hat hself hother
  refine ⟨next, c', hrun, hswapped, ⟨?_, ?_, ?_, ?_, hfill⟩, ?_, hself⟩
  · rw [hatCarry, hlength, hpower, hcarry]
    omega
  · intro j hj
    by_cases hji : j = ⟨i, hi⟩
    · rw [hji, hat]
    · have hlt : j.1 < i := by
        have hne : j.1 ≠ i := fun heq => hji (Fin.ext heq)
        omega
      rw [hother j hji, h.below j hlt]
  · intro j hj
    by_cases hji : j = ⟨i, hi⟩
    · exact .inl (hji ▸ hat)
    · rw [hother j hji]
      exact h.counter j hj
  · intro j hj
    have hji : j ≠ ⟨i, hi⟩ := by
      rintro rfl
      exact absurd hj (Nat.not_le.mpr hfill)
    rw [hother j hji, h.above j hj]
  · rw [hc']
    refine total_update hne.symm ?_
    rw [hlength, List.length_nil]
    omega

/-- The inner loop stops at an empty counter, inside the array. -/
theorem Carrying.loop {w : World Slot T} {c : Slot → List T} {fill i : Nat} (h : Carrying c fill i)
    (hw : w.Holds c) (comp : T → T → Bool) (htotal : total c < 2 ^ 64) {fuel : Nat}
    (hfuel : fill - i < fuel) :
    ∃ (next : World Slot T) (c' : Slot → List T) (i' : Nat) (hi' : i' < 64),
      carryLoop comp fill fuel w i = .ok (next, (i' : Int)) ∧ next.Holds c' ∧ Carrying c' fill i' ∧
      c' (.counter ⟨i', hi'⟩) = [] ∧ total c' = total c ∧ c' .self = c .self := by
  induction fuel generalizing w c i with
  | zero => omega
  | succ fuel ih =>
      have hi : i < 64 := by
        have hcarry := carry_le_total c
        rw [h.carry] at hcarry
        exact (Nat.pow_lt_pow_iff_right (Nat.one_lt_two)).mp (hcarry.trans_lt htotal)
      rw [carryLoop]
      by_cases hfill : i < fill
      · rw [if_pos (by exact_mod_cast hfill), counterAt_eq hi]
        by_cases hempty : c (.counter ⟨i, hi⟩) = []
        · refine ⟨w, c, i, hi, ?_, hw, h, hempty, rfl, rfl⟩
          exact if_pos (hw.empty_iff.mpr hempty)
        · obtain ⟨next, c', hrun, hnext, hround, hsum, hself⟩ := h.round hw comp hi hfill hempty
          obtain ⟨final, c'', i', hi', hloop, hrest⟩ :=
            ih hround hnext (hsum.trans_lt htotal) (by omega)
          rw [hsum, hself] at hrest
          refine ⟨final, c'', i', hi', ?_, hrest⟩
          have hnot : ¬(w.lists (.counter ⟨i, hi⟩)).empty = true := fun heq =>
            hempty (hw.empty_iff.mp heq)
          rw [Int.natCast_succ] at hloop
          change (if (w.lists (.counter ⟨i, hi⟩)).empty = true then _ else _) = _
          rw [if_neg hnot, hrun]
          exact hloop
      · have habove : c (.counter ⟨i, hi⟩) = [] := h.above ⟨i, hi⟩ (Nat.le_of_not_lt hfill)
        exact ⟨w, c, i, hi, if_neg (by omega), hw, h, habove, rfl, rfl⟩

/-- One round of the outer loop. -/
theorem Filled.round {w : World Slot T} {c : Slot → List T} {fill : Nat} (h : Filled c fill)
    (hw : w.Holds c) (comp : T → T → Bool) (htotal : total c < 2 ^ 64) (hle : fill ≤ 64) {a : T}
    {rest : List T} (ha : c .self = a :: rest) :
    ∃ (taken next : World Slot T) (c' : Slot → List T) (i : Nat) (hi : i < 64),
      w.takeFirst = some taken ∧ carryLoop comp fill 65 taken 0 = .ok (next, (i : Int)) ∧
      (next.swap .carry (.counter ⟨i, hi⟩)).Holds c' ∧ i ≤ fill ∧
      Filled c' (if i = fill then fill + 1 else fill) ∧ total c' = total c ∧ c' .self = rest := by
  obtain ⟨taken, htake, htaken⟩ := hw.takeFirst ha
  rw [h.carry] at htaken
  have hne : Slot.carry ≠ .self := by decide
  have hcarrying : Carrying (Function.update (Function.update c .carry [a]) .self rest) fill 0 :=
    ⟨by simp, fun j hj => (nomatch hj), fun j hj => by simpa using h.counter j hj,
      fun j hj => by simpa using h.above j hj, Nat.zero_le _⟩
  have hsum : total (Function.update (Function.update c .carry [a]) .self rest) = total c := by
    refine total_update hne ?_
    rw [h.carry, ha, List.length_cons, List.length_nil, List.length_cons]
    omega
  obtain ⟨next, c₁, i, hi, hloop, hnext, hcarried, hempty, hsum₁, hself₁⟩ :=
    hcarrying.loop htaken comp (hsum.trans_lt htotal) (show fill - 0 < 65 by omega)
  obtain ⟨c', hc', hswapped⟩ : ∃ c',
      c' = Function.update (Function.update c₁ .carry []) (.counter ⟨i, hi⟩) (c₁ .carry) ∧
      (next.swap .carry (.counter ⟨i, hi⟩)).Holds c' := by
    refine ⟨_, rfl, ?_⟩
    have hboth := hnext.swap .carry (.counter ⟨i, hi⟩)
    rwa [hempty] at hboth
  obtain ⟨hatCarry, hat, hself, hother⟩ := update_slots c₁ ⟨i, hi⟩ [] (c₁ .carry)
  rw [← hc'] at hatCarry hat hself hother
  refine ⟨taken, next, c', i, hi, htake, hloop, hswapped, hcarried.le, ⟨hatCarry, ?_, ?_⟩, ?_, ?_⟩
  · intro j hj
    by_cases hji : j = ⟨i, hi⟩
    · right
      rw [hji, hat, hcarried.carry]
    · rw [hother j hji]
      refine hcarried.counter j ?_
      have hne : j.1 ≠ i := fun heq => hji (Fin.ext heq)
      split_ifs at hj <;> omega
  · intro j hj
    have hle := hcarried.le
    have hji : j ≠ ⟨i, hi⟩ := by
      rintro rfl
      change (if i = fill then fill + 1 else fill) ≤ i at hj
      split_ifs at hj <;> omega
    rw [hother j hji]
    refine hcarried.above j ?_
    split_ifs at hj <;> omega
  · have hne' : Slot.carry ≠ .counter ⟨i, hi⟩ := fun heq => nomatch heq
    have hlengths : ([] : List T).length + (c₁ .carry).length =
        (c₁ .carry).length + (c₁ (.counter ⟨i, hi⟩)).length := by
      rw [hempty, Nat.add_comm]
    rw [hc', ← hsum, ← hsum₁]
    exact total_update hne' hlengths
  · rw [hself, hself₁]
    simp

theorem Filled.distribute {w : World Slot T} {c : Slot → List T} {fill : Nat} (h : Filled c fill)
    (hw : w.Holds c) (comp : T → T → Bool) (htotal : total c < 2 ^ 64) (hle : fill ≤ 64) {fuel : Nat}
    (hfuel : (c .self).length < fuel) :
    ∃ (next : World Slot T) (fill' : Nat), distribute comp fuel w fill =
      .ok (next, (fill' : Int)) := by
  induction fuel generalizing w c fill with
  | zero => cases hfuel
  | succ fuel ih =>
      rw [World.distribute]
      cases hself : c .self with
      | nil =>
          have hempty := hw.empty_iff.mpr hself
          exact ⟨w, fill, if_pos hempty⟩
      | cons a rest =>
          have hnot : ¬(w.lists .self).empty = true := by
            rw [hw.empty_iff, hself]
            exact fun heq => nomatch heq
          obtain ⟨taken, next, c', i, hi, htake, hloop, hnext, hifill, hfilled, hsum, hrest⟩ :=
            h.round hw comp htotal hle hself
          have hle' : (if i = fill then fill + 1 else fill) ≤ 64 := by
            split_ifs <;> omega
          obtain ⟨final, fill', hrun⟩ := ih hfilled hnext (hsum.trans_lt htotal) hle' (by
            rw [hrest]
            rw [hself] at hfuel
            exact Nat.lt_of_succ_lt_succ hfuel)
          refine ⟨final, fill', ?_⟩
          have hcast : (if (i : Int) = fill then (fill : Int) + 1 else fill) =
              ((if i = fill then fill + 1 else fill : Nat) : Int) := by
            split_ifs <;> omega
          rw [if_neg hnot, htake]
          change (carryLoop comp fill 65 taken 0 >>= _) = _
          rw [hloop]
          change (counterAt i >>= _) = _
          rw [counterAt_eq hi]
          change World.distribute comp fuel _ (if (i : Int) = fill then (fill : Int) + 1 else fill) = _
          rw [hcast]
          exact hrun

end World

/-! The locals. -/

section

variable [Inhabited T]

theorem construct_kept (n : Nat) {m : NodeHeap T} {y : Nat} (hy : y < m.top) :
    Kept m (construct n m) y := by
  induction n generalizing m with
  | zero => exact ⟨rfl, rfl, rfl, rfl⟩
  | succ n ih =>
      have hnode : Kept m (m.newNode default).1 y := by
        refine ⟨?_, ?_, ?_, ?_⟩ <;> exact if_neg hy.ne
      have hlater : y < (m.newNode default).1.top := Nat.lt_succ_of_lt hy
      exact hnode.trans (ih hlater)

theorem construct_new (n : Nat) {m : NodeHeap T} {y : Nat} (hy : m.top ≤ y)
    (hlt : y < m.top + n) :
    (construct n m).live y = true ∧ (construct n m).prev y = none := by
  induction n generalizing m with
  | zero => omega
  | succ n ih =>
      have htop : (m.newNode default).1.top = m.top + 1 := rfl
      by_cases heq : y = m.top
      · have hkept := construct_kept n (show y < (m.newNode default).1.top by omega)
        rw [construct, hkept.live, hkept.prev]
        exact ⟨if_pos heq, if_pos heq⟩
      · rw [construct]
        exact ih (by omega) (by omega)

theorem construct_bounded (n : Nat) {m : NodeHeap T} (hm : Bounded m) :
    Bounded (construct n m) := by
  induction n generalizing m with
  | zero => exact hm
  | succ n ih =>
      refine ih fun y hy => ?_
      have hy' : (if y = m.top then true else m.live y) = true := hy
      split_ifs at hy' with heq
      · exact heq ▸ Nat.lt_succ_self _
      · exact (hm y hy').trans (Nat.lt_succ_self _)

theorem Rep.construct (m : NodeHeap T) {n p : Nat} (hp : m.top ≤ p) (hlt : p < m.top + n) :
    Rep (construct n m) ⟨p, p⟩ [p] := by
  obtain ⟨hlive, hprev⟩ := construct_new n hp hlt
  refine ⟨⟨rfl, hprev, if_pos rfl, trivial⟩, rfl, fun y hy => ?_⟩
  rw [List.mem_singleton.mp hy]
  exact hlive

/-- The lists of a call at its start. -/
theorem Rep.locals (h : Rep m l cells) (hm : Bounded m) :
    (World.locals m l).Holds fun k => if k = .self then contents m cells else [] := by
  have hkept : ∀ y ∈ cells, Kept m (LinkedList.construct 65 m) y := fun y hy =>
    construct_kept 65 (hm y (h.live y hy))
  let dummy : Slot → Nat := fun k => match k with
    | .counter i => m.top + 1 + i
    | _ => m.top
  refine ⟨fun k => if k = .self then cells else [dummy k], ?_, ?_, ?_, construct_bounded 65 hm⟩
  · intro k
    cases k with
    | self => exact h.congr hkept
    | carry => exact Rep.construct m le_rfl (by omega)
    | counter i => exact Rep.construct m (by omega) (by omega)
  · intro j k hne y hy hmem
    have hold : ∀ y ∈ cells, y < m.top := fun y hy => hm y (h.live y hy)
    have hnew : ∀ k, m.top ≤ dummy k := by
      intro k
      cases k <;> simp only [dummy] <;> omega
    by_cases hj : j = .self
    · have hk : k ≠ .self := fun heq => hne (hj.trans heq.symm)
      rw [if_pos hj] at hy
      rw [if_neg hk, List.mem_singleton] at hmem
      exact absurd (hold y hy) (hmem ▸ hnew k).not_gt
    · rw [if_neg hj, List.mem_singleton] at hy
      by_cases hk : k = .self
      · rw [if_pos hk] at hmem
        exact absurd (hold y hmem) (hy ▸ hnew j).not_gt
      · rw [if_neg hk, List.mem_singleton, hy] at hmem
        cases j with
        | self => exact hj rfl
        | carry =>
            cases k with
            | self => exact hk rfl
            | carry => exact hne rfl
            | counter i =>
                change m.top = m.top + 1 + i at hmem
                omega
        | counter i =>
            cases k with
            | self => exact hk rfl
            | carry =>
                change m.top + 1 + i = m.top at hmem
                omega
            | counter i' =>
                change m.top + 1 + i.1 = m.top + 1 + i'.1 at hmem
                exact hne (congrArg _ (Fin.ext (by omega)))
  · intro k
    cases k with
    | self => exact contents_congr hkept
    | carry => rfl
    | counter i => rfl

/-- The last part of the call. -/
def finish (comp : T → T → Bool) (w : World Slot T) (fill : Int) :
    SortRun (NodeHeap T × LinkedList) := do
  let w ← World.collect comp fill 65 w 0
  let k ← counterAt (fill - 1)
  .ok (w.heap, w.lists k)

/-- Its first round reads `counter[-1]`, and without a round `counter[fill - 1]` is the same. -/
theorem finish_eq (comp : T → T → Bool) (w : World Slot T) (fill : Int) :
    finish comp w fill = .error (.counter (-1)) := by
  rw [finish, World.collect]
  by_cases hfill : (0 : Int) ≠ fill
  · rw [if_pos hfill]
    rfl
  · rw [if_neg hfill, ← of_not_not hfill]
    rfl

theorem Rep.sort_eq (h : Rep m l cells) (comp : T → T → Bool)
    (htwo : 2 ≤ (contents m cells).length) :
    sort m l comp =
      World.distribute comp (m.top + 1) (World.locals m l) 0 >>= fun r => finish comp r.1 r.2 := by
  obtain ⟨ys, rfl⟩ := h.exists_cons
  match ys, h, htwo with
  | d :: e :: ys, h, _ =>
      have hfront : Rep m l ([] ++ l.head :: d :: e :: ys) := h
      have hnext : m.loadNext l.head = some d := (loadNext_eq h.live_head).trans hfront.next_eq
      have hempty : ¬l.empty = true := by
        rw [LinkedList.empty, beq_iff_eq]
        exact hfront.ne_tail
      have hsecond : Rep m l ([l.head] ++ d :: e :: ys) := h
      have hd : d ≠ l.tail := hsecond.ne_tail
      rw [sort, if_neg hempty, hnext]
      change (if d = l.tail then _ else _) = _
      rw [if_neg hd]
      rfl

/-- A list of two or more elements, up to the number that the array is made for, is distributed
over the counters, and then the code reads `counter[-1]`. -/
theorem Rep.sort_halts (h : Rep m l cells) (hm : Bounded m) (comp : T → T → Bool)
    (htwo : 2 ≤ (contents m cells).length) (hlt : (contents m cells).length < 2 ^ 64) :
    sort m l comp = .error (.counter (-1)) := by
  have hw := h.locals hm
  have htotal : World.total (fun k : Slot => if k = .self then contents m cells else []) =
      (contents m cells).length := by
    rw [World.total, Finset.sum_eq_single Slot.self]
    · rw [if_pos rfl]
    · intro k _ hk
      rw [if_neg hk, List.length_nil]
    · exact fun hself => absurd (Finset.mem_univ _) hself
  have hfilled : World.Filled (fun k : Slot => if k = .self then contents m cells else []) 0 :=
    ⟨rfl, fun j hj => (nomatch hj), fun j _ => rfl⟩
  have hfuel : (contents m cells).length < m.top + 1 := by
    have hlength := h.length_le hm
    rw [length_contents]
    omega
  obtain ⟨w, fill, hrun⟩ := hfilled.distribute hw comp (htotal.trans_lt hlt) (Nat.zero_le _) hfuel
  have hzero : ((0 : Nat) : Int) = 0 := rfl
  rw [hzero] at hrun
  rw [h.sort_eq comp htwo, hrun]
  exact finish_eq comp w fill

theorem Rep.sort_short (h : Rep m l cells) (comp : T → T → Bool)
    (hshort : (contents m cells).length ≤ 1) : sort m l comp = .ok (m, l) := by
  obtain ⟨ys, rfl⟩ := h.exists_cons
  have hfront : Rep m l ([] ++ l.head :: ys) := h
  cases ys with
  | nil =>
      have hempty : l.empty = true := h.empty_iff.mpr rfl
      exact if_pos hempty
  | cons d ys =>
      cases ys with
      | nil =>
          have hempty : ¬l.empty = true := by
            rw [LinkedList.empty, beq_iff_eq]
            exact hfront.ne_tail
          have hnext : m.loadNext l.head = some d := (loadNext_eq h.live_head).trans hfront.next_eq
          have hsecond : Rep m l ([l.head] ++ [d]) := h
          have hd : d = l.tail := hsecond.tail_of_singleton
          rw [sort, if_neg hempty, hnext]
          exact if_pos hd
      | cons e ys =>
          simp only [contents, List.dropLast_cons_cons, List.map_cons, List.length_cons] at hshort
          omega

/-- The call stays in the array and leaves the list well formed, with its elements in a stable
order. -/
def SortsStably (m : NodeHeap T) (l : LinkedList) (comp : T → T → Bool) (vals : List T) : Prop :=
  ∃ m' l' cells', sort m l comp = .ok (m', l') ∧ Rep m' l' cells' ∧
    StableSort comp vals (contents m' cells')

theorem sort_iff (m : NodeHeap T) (l : LinkedList) (cells : List Nat) (comp : T → T → Bool)
    (h : Rep m l cells) : SortsStably m l comp (contents m cells) ↔
      (contents m cells).length ≤ 1 := by
  constructor
  · rintro ⟨m', l', cells', hrun, -, -⟩
    by_contra hlong
    rw [h.sort_eq comp (by omega)] at hrun
    cases hdistribute : World.distribute comp (m.top + 1) (World.locals m l) 0 with
    | error e =>
        rw [hdistribute] at hrun
        cases hrun
    | ok r =>
        rw [hdistribute] at hrun
        change finish comp r.1 r.2 = _ at hrun
        rw [finish_eq] at hrun
        cases hrun
  · intro hshort
    refine ⟨m, l, cells, h.sort_short comp hshort, h, List.Perm.refl _, ?_, fun a => rfl⟩
    match hvals : contents m cells, hshort with
    | [], _ => exact List.Pairwise.nil
    | [a], _ => exact List.pairwise_singleton _ a

end

/-- The list of 2 and 1. -/
def twoOne : NodeHeap Nat where
  live := fun y => decide (y < 3)
  data := fun y => 2 - y
  prev := fun y => if y = 0 then none else some (y - 1)
  next := fun y => if y < 2 then some (y + 1) else none
  top := 3

theorem twoOne_rep : Rep twoOne ⟨0, 2⟩ [0, 1, 2] :=
  ⟨⟨rfl, rfl, rfl, rfl, rfl, rfl, rfl, trivial⟩, rfl, by simp [twoOne]⟩

/-- Its part from the node 1 on is the list of 1. -/
theorem sort_iff_one : SortsStably (twoOne.setPrev 1 none) ⟨1, 2⟩ (fun a b => a < b) [1] ↔
    [1].length ≤ 1 :=
  sort_iff (twoOne.setPrev 1 none) ⟨1, 2⟩ [1, 2] (fun a b => a < b)
    ⟨⟨rfl, rfl, rfl, rfl, rfl, trivial⟩, rfl, by simp [twoOne, setPrev]⟩

theorem sort_twoOne_fails :
    Rep twoOne ⟨0, 2⟩ [0, 1, 2] ∧
      sort twoOne ⟨0, 2⟩ (fun a b => a < b) = .error (.counter (-1)) ∧
      ¬SortsStably twoOne ⟨0, 2⟩ (fun a b => a < b) [2, 1] := by
  have hrun : sort twoOne ⟨0, 2⟩ (fun a b => a < b) = .error (.counter (-1)) :=
    twoOne_rep.sort_halts (fun y hy => of_decide_eq_true hy) _ (by decide) (by decide)
  refine ⟨twoOne_rep, hrun, ?_⟩
  rintro ⟨m', l', cells', hok, -, -⟩
  rw [hrun] at hok
  cases hok

end LinkedList

end RebuildTheWheel.TinySTL
