import RebuildTheWheel.Data.Runs
import RebuildTheWheel.TinySTL.LinkedListOps

namespace RebuildTheWheel.TinySTL

open Data NodeHeap

namespace LinkedList

variable {T : Type}

/-! `unique`. -/

/-- The loop of `unique`, which compares fewer than `fuel` times. -/
def uniqueLoop (binaryPred : T → T → Bool) :
    Nat → NodeHeap T → LinkedList → Nat → Option (NodeHeap T × LinkedList)
  | 0, _, _, _ => none
  | fuel + 1, m, l, curNode => do
      if curNode = l.tail then some (m, l)
      else
        let nextNode ← m.loadNext curNode
        let a ← m.loadData curNode
        let b ← m.loadData nextNode
        if binaryPred a b then
          if nextNode = l.tail then
            let m ← m.storeNext curNode none
            let m ← m.deleteNode nextNode
            uniqueLoop binaryPred fuel m { l with tail := curNode } curNode
          else
            let next ← m.loadNext nextNode
            let m ← m.storeNext curNode (some next)
            let m ← m.storePrev next (some curNode)
            let m ← m.deleteNode nextNode
            uniqueLoop binaryPred fuel m l curNode
        else uniqueLoop binaryPred fuel m l nextNode

/-- `unique(binary_pred)` -/
def uniqueBy (m : NodeHeap T) (l : LinkedList) (binaryPred : T → T → Bool) :
    Option (NodeHeap T × LinkedList) :=
  uniqueLoop binaryPred (m.top + 1) m l l.head

/-- `unique()` -/
def unique [BEq T] (m : NodeHeap T) (l : LinkedList) : Option (NodeHeap T × LinkedList) :=
  uniqueBy m l fun a b => a == b

end LinkedList

namespace NodeHeap

variable {T : Type} {m m' : NodeHeap T} {p : Nat} {q : Option Nat}

theorem data_storePrev (h : m.storePrev p q = some m') : m'.data = m.data := by
  unfold storePrev at h
  split at h
  · exact Option.some.inj h ▸ rfl
  · cases h

theorem data_storeNext (h : m.storeNext p q = some m') : m'.data = m.data := by
  unfold storeNext at h
  split at h
  · exact Option.some.inj h ▸ rfl
  · cases h

theorem data_deleteNode (h : m.deleteNode p = some m') : m'.data = m.data := by
  obtain ⟨m₁, hprev, hrest⟩ := Option.bind_eq_some_iff.mp h
  obtain ⟨m₂, hnext, hkill⟩ := Option.bind_eq_some_iff.mp hrest
  rw [← Option.some.inj hkill, ← data_storePrev hprev, ← data_storeNext hnext]
  rfl

end NodeHeap

namespace LinkedList

variable {T : Type} {m m' : NodeHeap T} {l l' : LinkedList} {cells xs ys : List Nat} {c d e : Nat}
  {pred : T → T → Bool} {fuel : Nat}

theorem data_popBack (h : popBack m l = some (m', l')) : m'.data = m.data := by
  obtain ⟨newTail, -, h⟩ := Option.bind_eq_some_iff.mp h
  obtain ⟨m₁, hnext, h⟩ := Option.bind_eq_some_iff.mp h
  obtain ⟨m₂, hdelete, h⟩ := Option.bind_eq_some_iff.mp h
  obtain ⟨rfl, -⟩ := Prod.mk.inj (Option.some.inj h)
  rw [data_deleteNode hdelete, data_storeNext hnext]

theorem data_erase (h : erase m l c = some (m', l', d)) (hhead : c ≠ l.head) :
    m'.data = m.data := by
  rw [erase, if_neg hhead] at h
  obtain ⟨prev, -, h⟩ := Option.bind_eq_some_iff.mp h
  obtain ⟨next, -, h⟩ := Option.bind_eq_some_iff.mp h
  obtain ⟨m₁, hnext, h⟩ := Option.bind_eq_some_iff.mp h
  obtain ⟨m₂, hprev, h⟩ := Option.bind_eq_some_iff.mp h
  obtain ⟨m₃, hdelete, h⟩ := Option.bind_eq_some_iff.mp h
  obtain ⟨rfl, -⟩ := Prod.mk.inj (Option.some.inj h)
  rw [data_deleteNode hdelete, data_storePrev hprev, data_storeNext hnext]

/-- The dummy node goes, and the last node stands for it. -/
theorem uniqueLoop_last (h : Rep m l (xs ++ [c, d])) (hpred : pred (m.data c) (m.data d) = true) :
    uniqueLoop pred (fuel + 1) m l c = (popBack m l).bind fun (m, l) => uniqueLoop pred fuel m l c := by
  have hmoved : Rep m l ((xs ++ [c]) ++ [d]) := List.append_cons xs c [d] ▸ h
  have htail : d = l.tail := (List.mem_singleton.mp hmoved.tail_mem).symm
  have hprev : m.prev d = some c := by
    rw [hmoved.prev_eq, List.getLast?_concat]
  have hlc : m.live c = true := h.live c (List.mem_append_right xs List.mem_cons_self)
  have hld : m.live d = true := hmoved.live d (List.mem_append_right _ List.mem_cons_self)
  rw [uniqueLoop, if_neg h.ne_tail, loadNext_eq hlc, h.next_eq]
  simp only [Option.bind_eq_bind, Option.bind_some, loadData_eq hlc, loadData_eq hld, hpred, if_true,
    popBack, ← htail, loadPrev_eq hld, hprev, Option.bind_assoc]

theorem uniqueLoop_middle (h : Rep m l (xs ++ c :: d :: e :: ys))
    (hpred : pred (m.data c) (m.data d) = true) :
    uniqueLoop pred (fuel + 1) m l c =
      (erase m l d).bind fun (m, l, _) => uniqueLoop pred fuel m l c := by
  have hmoved : Rep m l ((xs ++ [c]) ++ d :: e :: ys) := List.append_cons xs c _ ▸ h
  have hhead : d ≠ l.head := fun heq =>
    absurd (hmoved.head_eq_iff.mp heq.symm) (List.append_ne_nil_of_right_ne_nil _ (List.cons_ne_nil c []))
  have hprev : m.prev d = some c := by
    rw [hmoved.prev_eq, List.getLast?_concat]
  have hlc : m.live c = true := h.live c (List.mem_append_right xs List.mem_cons_self)
  have hld : m.live d = true := hmoved.live d (List.mem_append_right _ List.mem_cons_self)
  rw [uniqueLoop, if_neg h.ne_tail, loadNext_eq hlc, h.next_eq]
  simp only [Option.bind_eq_bind, Option.bind_some, loadData_eq hlc, loadData_eq hld, hpred, if_true,
    if_neg hmoved.ne_tail, erase, if_neg hhead, loadPrev_eq hld, loadNext_eq hld, hprev,
    hmoved.next_eq, Option.bind_assoc]

theorem contents_eq_dropLast (m : NodeHeap T) (cells : List Nat) :
    contents m cells = (cells.map m.data).dropLast := List.map_dropLast

/-- The loop keeps a value apart from the one before it, and the value of the dummy node too. -/
theorem Rep.uniqueLoop (fuel : Nat) (h : Rep m l (xs ++ c :: ys)) (hm : Bounded m)
    (hfuel : (c :: ys).length ≤ fuel) :
    ∃ m' l' cells', LinkedList.uniqueLoop pred fuel m l c = some (m', l') ∧
      Change m m' l' (xs ++ c :: ys) cells'
        (xs.map m.data ++ keepApart pred (m.data c) (ys.map m.data)).dropLast := by
  induction fuel generalizing m l xs c ys with
  | zero => cases hfuel
  | succ fuel ih =>
      cases ys with
      | nil =>
          have hc : c = l.tail := (List.mem_singleton.mp h.tail_mem).symm
          have hchange := Change.refl h hm
          rw [contents_eq_dropLast, List.map_append] at hchange
          refine ⟨m, l, xs ++ [c], ?_, hchange⟩
          rw [LinkedList.uniqueLoop, if_pos hc]
      | cons d ys =>
          have hfuel' : (d :: ys).length ≤ fuel := Nat.le_of_succ_le_succ hfuel
          have hmoved : Rep m l ((xs ++ [c]) ++ d :: ys) := List.append_cons xs c (d :: ys) ▸ h
          cases hpred : pred (m.data c) (m.data d) with
          | false =>
              obtain ⟨m', l', cells', hloop, hrest⟩ := ih hmoved hm hfuel'
              refine ⟨m', l', cells', ?_, ?_⟩
              · have hlc : m.live c = true := h.live c (List.mem_append_right xs List.mem_cons_self)
                have hld : m.live d = true :=
                  hmoved.live d (List.mem_append_right _ List.mem_cons_self)
                rw [LinkedList.uniqueLoop, if_neg h.ne_tail, loadNext_eq hlc, h.next_eq]
                simp only [Option.bind_eq_bind, Option.bind_some, loadData_eq hlc, loadData_eq hld,
                  hpred, Bool.false_eq_true, if_false]
                exact hloop
              · rw [← List.append_cons, List.map_append, List.append_assoc] at hrest
                rw [List.map_cons, keepApart_apart hpred]
                exact hrest
          | true =>
              rw [List.map_cons, keepApart_together hpred]
              cases ys with
              | nil =>
                  obtain ⟨m₁, l₁, hpop, hchange⟩ := h.popBack hm
                  have hdata := data_popBack hpop
                  obtain ⟨m', l', cells', hloop, hrest⟩ := ih hchange.rep hchange.bounded hfuel'
                  refine ⟨m', l', cells', ?_, ?_⟩
                  · rw [uniqueLoop_last h hpred, hpop]
                    exact hloop
                  · rw [hdata] at hrest
                    exact hchange.trans hrest
              | cons e ys =>
                  obtain ⟨m₁, herase, hchange⟩ := hmoved.erase_middle hm
                    (List.append_ne_nil_of_right_ne_nil _ (List.cons_ne_nil c []))
                  have hhead : d ≠ l.head := fun heq => absurd (hmoved.head_eq_iff.mp heq.symm)
                    (List.append_ne_nil_of_right_ne_nil _ (List.cons_ne_nil c []))
                  have hdata := data_erase herase hhead
                  have hrep : Rep m₁ l (xs ++ c :: e :: ys) :=
                    List.append_cons xs c (e :: ys) ▸ hchange.rep
                  obtain ⟨m', l', cells', hloop, hrest⟩ := ih hrep hchange.bounded hfuel'
                  refine ⟨m', l', cells', ?_, ?_⟩
                  · rw [uniqueLoop_middle h hpred, herase]
                    exact hloop
                  · rw [hdata] at hrest
                    rw [List.append_cons xs c (d :: e :: ys)]
                    rw [List.append_cons xs c (e :: ys)] at hrest
                    exact hchange.trans hrest

/-- What the loop keeps is the firsts, but for the last one where the dummy node is equivalent
to it. -/
theorem Rep.dropLast_keepApart (h : Rep m l (c :: ys)) (hpred : EquivalenceTest pred) :
    (keepApart pred (m.data c) (ys.map m.data)).dropLast =
      if ∃ val ∈ (contents m (c :: ys)).getLast?, pred val (m.data l.tail) = true then
        (firsts pred (contents m (c :: ys))).dropLast
      else firsts pred (contents m (c :: ys)) := by
  rcases List.eq_nil_or_concat' ys with rfl | ⟨zs, t, rfl⟩
  · rfl
  · have htail : l.tail = t := by
      have hlast := h.last
      rw [← List.cons_append, List.getLast?_concat] at hlast
      exact (Option.some.inj hlast).symm
    have hvals : contents m (c :: (zs ++ [t])) = m.data c :: zs.map m.data := by
      rw [contents, ← List.cons_append, List.dropLast_concat, List.map_cons]
    rw [List.map_append, List.map_singleton, keepApart_concat hpred, hvals, firsts_cons hpred, htail,
      List.getLast?_eq_some_getLast (List.cons_ne_nil _ _)]
    simp only [Option.mem_def, Option.some.injEq, exists_eq_left']
    split
    · rfl
    · exact List.dropLast_concat

theorem Rep.uniqueBy (h : Rep m l cells) (hm : Bounded m) (hpred : EquivalenceTest pred) :
    ∃ m' l' cells', LinkedList.uniqueBy m l pred = some (m', l') ∧
      Change m m' l' cells cells'
        (if ∃ val ∈ (contents m cells).getLast?, pred val (m.data l.tail) = true then
          (firsts pred (contents m cells)).dropLast
        else firsts pred (contents m cells)) := by
  have hlength := h.length_le hm
  obtain ⟨ys, rfl⟩ := h.exists_cons
  have hfront : Rep m l ([] ++ l.head :: ys) := h
  obtain ⟨m', l', cells', hloop, hchange⟩ :=
    hfront.uniqueLoop (m.top + 1) hm (hlength.trans (Nat.le_succ _))
  rw [List.map_nil, List.nil_append, List.nil_append, h.dropLast_keepApart hpred] at hchange
  exact ⟨m', l', cells', hloop, hchange⟩

theorem Rep.cells_unique {cells cells' : List Nat} (h : Rep m l cells) (h' : Rep m l cells') :
    cells = cells' :=
  h.chain.2.eq_of_head? h'.chain.2 (h.chain.1.symm.trans h'.chain.1)

/-- `unique` with `pred` leaves a well-formed list of the first element of each run. -/
def LeavesFirsts (pred : T → T → Bool) (m : NodeHeap T) (cells : List Nat)
    (result : Option (NodeHeap T × LinkedList)) : Prop :=
  ∃ m' l' cells', result = some (m', l') ∧
    Change m m' l' cells cells' (firsts pred (contents m cells))

theorem leavesFirsts_iff (h : Rep m l cells) (hm : Bounded m) (hpred : EquivalenceTest pred) :
    LeavesFirsts pred m cells (LinkedList.uniqueBy m l pred) ↔
      ∀ val ∈ (contents m cells).getLast?, pred val (m.data l.tail) = false := by
  obtain ⟨m', l', cells', hrun, hchange⟩ := h.uniqueBy hm hpred
  by_cases hlast : ∃ val ∈ (contents m cells).getLast?, pred val (m.data l.tail) = true
  · rw [if_pos hlast] at hchange
    obtain ⟨val, hval, htrue⟩ := hlast
    constructor
    · rintro ⟨m'', l'', cells'', hrun', hchange'⟩
      rw [hrun] at hrun'
      obtain ⟨rfl, rfl⟩ := Prod.mk.inj (Option.some.inj hrun')
      have hvals := hchange.vals
      rw [hchange.rep.cells_unique hchange'.rep, hchange'.vals] at hvals
      have hne : contents m cells ≠ [] := fun hnil => by
        rw [hnil] at hval
        cases hval
      have hlength := congrArg List.length hvals
      rw [List.length_dropLast] at hlength
      have hpos := List.length_pos_iff.mpr (firsts_ne_nil pred hne)
      omega
    · intro hall
      rw [hall val hval] at htrue
      cases htrue
  · rw [if_neg hlast] at hchange
    refine ⟨fun _ val hval => ?_, fun _ => ⟨m', l', cells', hrun, hchange⟩⟩
    cases htrue : pred val (m.data l.tail) with
    | false => rfl
    | true => exact absurd ⟨val, hval, htrue⟩ hlast

/-- The dummy node is compared with the last run too. -/
theorem unique_iff [BEq T] (m : NodeHeap T) (l : LinkedList) (cells : List Nat)
    (h : Rep m l cells) (hm : Bounded m) :
    (∀ pred : T → T → Bool, EquivalenceTest pred →
      (LeavesFirsts pred m cells (LinkedList.uniqueBy m l pred) ↔
        ∀ val ∈ (contents m cells).getLast?, pred val (m.data l.tail) = false)) ∧
    (EquivalenceTest (fun a b : T => a == b) →
      (LeavesFirsts (fun a b => a == b) m cells (unique m l) ↔
        ∀ val ∈ (contents m cells).getLast?, (val == m.data l.tail) = false)) :=
  ⟨fun _ hpred => leavesFirsts_iff h hm hpred, fun hpred => leavesFirsts_iff h hm hpred⟩

/-- The list of 1 and 0, its dummy node with the value 0. -/
def oneZero : NodeHeap Nat where
  live := fun y => decide (y < 3)
  data := fun y => if y = 0 then 1 else 0
  prev := fun y => if y = 0 then none else some (y - 1)
  next := fun y => if y < 2 then some (y + 1) else none
  top := 3

theorem oneZero_rep : Rep oneZero ⟨0, 2⟩ [0, 1, 2] :=
  ⟨⟨rfl, rfl, rfl, rfl, rfl, rfl, rfl, trivial⟩, rfl, by simp [oneZero]⟩

theorem oneZero_bounded : Bounded oneZero := fun _ hy => of_decide_eq_true hy

theorem equal_equivalence : EquivalenceTest fun a b : Nat => a == b :=
  ⟨fun a => beq_self_eq_true a, fun hab => by simpa using Eq.symm (by simpa using hab),
    fun hab hbc => by simp_all⟩

theorem unique_iff_oneZero :
    (∀ pred : Nat → Nat → Bool, EquivalenceTest pred →
      (LeavesFirsts pred oneZero [0, 1, 2] (LinkedList.uniqueBy oneZero ⟨0, 2⟩ pred) ↔
        ∀ val ∈ (contents oneZero [0, 1, 2]).getLast?, pred val (oneZero.data 2) = false)) ∧
    (EquivalenceTest (fun a b : Nat => a == b) →
      (LeavesFirsts (fun a b => a == b) oneZero [0, 1, 2] (unique oneZero ⟨0, 2⟩) ↔
        ∀ val ∈ (contents oneZero [0, 1, 2]).getLast?, (val == oneZero.data 2) = false)) :=
  unique_iff oneZero ⟨0, 2⟩ [0, 1, 2] oneZero_rep oneZero_bounded

/-- The last element is lost. -/
theorem unique_oneZero_fails :
    Rep oneZero ⟨0, 2⟩ [0, 1, 2] ∧ contents oneZero [0, 1, 2] = [1, 0] ∧
      (∃ m' l' cells', unique oneZero ⟨0, 2⟩ = some (m', l') ∧
        Rep m' l' cells' ∧ contents m' cells' = [1]) ∧
      ¬LeavesFirsts (fun a b => a == b) oneZero [0, 1, 2] (unique oneZero ⟨0, 2⟩) := by
  refine ⟨oneZero_rep, rfl, ?_, ?_⟩
  · obtain ⟨m', l', cells', hrun, hchange⟩ :=
      oneZero_rep.uniqueBy oneZero_bounded equal_equivalence
    exact ⟨m', l', cells', hrun, hchange.rep, hchange.vals⟩
  · intro h
    have hlast := (leavesFirsts_iff oneZero_rep oneZero_bounded equal_equivalence).mp h
    exact absurd (hlast 0 rfl) (by decide)

end LinkedList

end RebuildTheWheel.TinySTL
