import RebuildTheWheel.TinySTL.LinkedListRun

namespace RebuildTheWheel.TinySTL

open Data NodeHeap

namespace LinkedList

variable {T : Type}

/-! `splice(position, x)`. It copies the nodes of `x` and moves its head to its dummy node,
whose back link goes on to point to the nodes that are left behind. -/

/-- The loop of `insert_aux`, which inserts at most `fuel` values. The last round is the call
behind the loop. -/
def insertAuxLoop [Inhabited T] (first : Nat) :
    Nat → NodeHeap T → LinkedList → Nat → Nat → Option (NodeHeap T × LinkedList)
  | 0, _, _, _, _ => none
  | fuel + 1, m, l, position, last => do
      let val ← m.loadData last
      let (m, l, position) ← insert m l position val
      if first ≠ last then
        let last ← m.loadPrev last
        insertAuxLoop first fuel m l position last
      else some (m, l)

def insertAux [Inhabited T] (m : NodeHeap T) (l : LinkedList) (position first last : Nat) :
    Option (NodeHeap T × LinkedList) := do
  let last ← m.loadPrev last
  insertAuxLoop first (m.top + 1) m l position last

def spliceAll [Inhabited T] (m : NodeHeap T) (l : LinkedList) (position : Nat) (x : LinkedList) :
    Option (NodeHeap T × LinkedList × LinkedList) := do
  let (m, l) ← insertAux m l position x.head x.tail
  some (m, l, { x with head := x.tail })

/-! A list whose first node may point back to anything. -/

def Loose (m : NodeHeap T) (l : LinkedList) (cells : List Nat) : Prop :=
  Rep (m.setPrev l.head none) l cells

variable {m m' : NodeHeap T} {l l' : LinkedList} {cells cells' xs ys : List Nat} {c d : Nat}
  {vals : List T} {b : Option Nat}

theorem setPrev_setPrev (m : NodeHeap T) (p : Nat) (q q' : Option Nat) :
    (m.setPrev p q).setPrev p q' = m.setPrev p q' := by
  simp only [setPrev, NodeHeap.mk.injEq, true_and, and_true]
  funext y
  split_ifs <;> rfl

theorem setPrev_self {p : Nat} {q : Option Nat} (h : m.prev p = q) : m.setPrev p q = m := by
  obtain ⟨live, data, prev, next, top⟩ := m
  simp only [setPrev, NodeHeap.mk.injEq, true_and, and_true]
  funext y
  split_ifs with hy
  · rw [hy, ← h]
  · rfl

theorem setPrev_comm (m : NodeHeap T) {p r : Nat} (h : p ≠ r) (q q' : Option Nat) :
    (m.setPrev p q).setPrev r q' = (m.setPrev r q').setPrev p q := by
  simp only [setPrev, NodeHeap.mk.injEq, true_and, and_true]
  funext y
  split_ifs with hp hr
  · exact absurd (hr.symm.trans hp) h
  · rfl
  · rfl
  · rfl

theorem restore (m : NodeHeap T) (p : Nat) : (m.setPrev p none).setPrev p (m.prev p) = m := by
  rw [setPrev_setPrev, setPrev_self rfl]

theorem Rep.prev_head (h : Rep m l cells) : m.prev l.head = none := by
  obtain ⟨ys, rfl⟩ := h.exists_cons
  exact h.chain.2.1

theorem Rep.loose (h : Rep m l cells) : Loose m l cells := by
  rw [Loose, setPrev_self h.prev_head]
  exact h

/-! What the operations do with the back link. -/

section

variable (m : NodeHeap T) {p r : Nat} (q q' : Option Nat) (val : T)

theorem newNode_setPrev (h : p ≠ m.top) :
    (m.setPrev p q).newNode val = ((m.newNode val).1.setPrev p q, m.top) := by
  refine congrArg (fun prev => (NodeHeap.mk _ _ prev _ _, m.top)) (funext fun y => ?_)
  by_cases htop : y = m.top
  · simp [newNode, setPrev, htop, h.symm]
  · simp [newNode, setPrev, htop]

theorem live_setPrev : (m.setPrev p q).live = m.live := rfl

theorem storeNext_setPrev :
    (m.setPrev p q).storeNext r q' = (m.storeNext r q').map (setPrev · p q) := by
  rw [storeNext, storeNext, live_setPrev]
  split_ifs <;> rfl

theorem storeData_setPrev :
    (m.setPrev p q).storeData r val = (m.storeData r val).map (setPrev · p q) := by
  rw [storeData, storeData, live_setPrev]
  split_ifs <;> rfl

theorem storePrev_setPrev_self : (m.setPrev p q).storePrev p q' = m.storePrev p q' := by
  simp only [storePrev, setPrev_setPrev]
  rfl

theorem storePrev_setPrev (h : p ≠ r) :
    (m.setPrev p q).storePrev r q' = (m.storePrev r q').map (setPrev · p q) := by
  rw [storePrev, storePrev, live_setPrev, setPrev_comm m h]
  split_ifs <;> rfl

theorem loadPrev_setPrev (h : p ≠ r) : (m.setPrev p q).loadPrev r = m.loadPrev r := by
  simp only [loadPrev, setPrev, if_neg h.symm]

theorem deleteNode_setPrev_self : (m.setPrev p q).deleteNode p = m.deleteNode p := by
  rw [deleteNode, storePrev_setPrev_self]
  rfl

theorem deleteNode_setPrev (h : p ≠ r) :
    (m.setPrev p q).deleteNode r = (m.deleteNode r).map (setPrev · p q) := by
  rw [deleteNode, storePrev_setPrev m q _ h, deleteNode]
  cases m.storePrev r none with
  | none => rfl
  | some m =>
      simp only [Option.map_some, Option.bind_eq_bind, Option.bind_some, storeNext_setPrev]
      cases m.storeNext r none <;> rfl

end

section

variable (m : NodeHeap T) (l : LinkedList) (q : Option Nat) (val : T)

theorem pushFront_setPrev (htop : l.head ≠ m.top) :
    pushFront (m.setPrev l.head q) l val = pushFront m l val := by
  simp only [pushFront, newNode_setPrev m q val htop, storePrev_setPrev_self]
  rfl

theorem popFront_setPrev (hnext : m.next l.head ≠ some l.head) :
    popFront (m.setPrev l.head q) l = popFront m l := by
  have hload : (m.setPrev l.head q).loadNext l.head = m.loadNext l.head := rfl
  rw [popFront, popFront, hload]
  cases hd : m.loadNext l.head with
  | none => rfl
  | some d =>
      have hne : l.head ≠ d := by
        rintro rfl
        unfold loadNext at hd
        split_ifs at hd
        exact hnext hd
      simp only [Option.bind_eq_bind, Option.bind_some, storePrev_setPrev m q none hne]
      cases m.storePrev d none with
      | none => rfl
      | some m => simp only [Option.map_some, Option.bind_some, deleteNode_setPrev_self]

theorem popBack_setPrev (htail : l.head ≠ l.tail) :
    popBack (m.setPrev l.head q) l =
      (popBack m l).map fun r => (r.1.setPrev l.head q, r.2) := by
  simp only [popBack, loadPrev_setPrev m q htail]
  cases m.loadPrev l.tail with
  | none => rfl
  | some newTail =>
      simp only [Option.bind_eq_bind, Option.bind_some, storeNext_setPrev]
      cases m.storeNext newTail none with
      | none => rfl
      | some m₁ =>
          simp only [Option.map_some, Option.bind_some, deleteNode_setPrev m₁ q htail]
          cases m₁.deleteNode l.tail <;> rfl

variable [Inhabited T]

theorem pushBack_setPrev (htop : l.head ≠ m.top) :
    pushBack (m.setPrev l.head q) l val =
      (pushBack m l val).map fun r => (r.1.setPrev l.head q, r.2) := by
  simp only [pushBack, newNode_setPrev m q default htop, storeData_setPrev]
  have hnode : (m.newNode default).2 = m.top := rfl
  rw [hnode]
  cases (m.newNode default).1.storeData l.tail val with
  | none => rfl
  | some m₁ =>
      simp only [Option.map_some, Option.bind_eq_bind, Option.bind_some, storeNext_setPrev]
      cases m₁.storeNext l.tail (some m.top) with
      | none => rfl
      | some m₂ =>
          simp only [Option.map_some, Option.bind_some, storePrev_setPrev m₂ q _ htop]
          cases m₂.storePrev m.top (some l.tail) <;> rfl

theorem insert_setPrev {c : Nat} (hhead : c ≠ l.head) (htail : c ≠ l.tail)
    (htop : l.head ≠ m.top) :
    insert (m.setPrev l.head q) l c val =
      (insert m l c val).map fun r => (r.1.setPrev l.head q, r.2) := by
  simp only [insert, if_neg hhead, if_neg htail, newNode_setPrev m q val htop]
  have hnode : (m.newNode val).2 = m.top := rfl
  rw [hnode, loadPrev_setPrev _ q hhead.symm]
  cases (m.newNode val).1.loadPrev c with
  | none => rfl
  | some prev =>
      simp only [Option.bind_eq_bind, Option.bind_some, storeNext_setPrev]
      cases (m.newNode val).1.storeNext m.top (some c) with
      | none => rfl
      | some m₁ =>
          simp only [Option.map_some, Option.bind_some, storePrev_setPrev m₁ q _ htop]
          cases m₁.storePrev m.top (some prev) with
          | none => rfl
          | some m₂ =>
              simp only [Option.map_some, Option.bind_some, storeNext_setPrev]
              cases m₂.storeNext prev (some m.top) with
              | none => rfl
              | some m₃ =>
                  simp only [Option.map_some, Option.bind_some,
                    storePrev_setPrev m₃ q _ hhead.symm]
                  cases m₃.storePrev c (some m.top) <;> rfl

end

/-! What an operation on one list does. -/

structure LooseChange (m m' : NodeHeap T) (l l' : LinkedList) (cells cells' : List Nat)
    (vals : List T) : Prop where
  rep : Loose m' l' cells'
  vals : contents m' cells' = vals
  bounded : Bounded m'
  kept : ∀ y, y ∉ cells → y < m.top → Kept m m' y
  used : ∀ y ∈ cells', y ∈ cells ∨ m.top ≤ y
  top : m.top ≤ m'.top
  back : m'.prev l'.head = none ∨ m'.prev l'.head = m.prev l.head

theorem Loose.live_head (h : Loose m l cells) : m.live l.head = true := by
  have hrep : Rep (m.setPrev l.head none) l cells := h
  exact hrep.live_head

theorem Loose.head_mem (h : Loose m l cells) : l.head ∈ cells :=
  List.mem_of_mem_head? h.chain.1.symm

theorem Change.loosen (h : Change (m.setPrev l.head none) m' l' cells cells' vals)
    (hl : Loose m l cells) (hb : b = none ∨ b = m.prev l.head) :
    LooseChange m (m'.setPrev l'.head b) l l' cells cells' vals := by
  have hback : (m'.setPrev l'.head b).prev l'.head = b := if_pos rfl
  refine ⟨?_, h.vals, h.bounded, ?_, h.used, h.top, ?_⟩
  · rw [Loose, setPrev_setPrev, setPrev_self h.rep.prev_head]
    exact h.rep
  · intro y hy hlt
    have hne : y ≠ l.head := fun heq => hy (heq ▸ hl.head_mem)
    have hne' : y ≠ l'.head := by
      intro heq
      have hmem : l'.head ∈ cells' := Loose.head_mem h.rep.loose
      rcases h.used _ hmem with hold | hnew
      · exact hy (heq ▸ hold)
      · exact absurd hlt (heq ▸ hnew).not_gt
    obtain ⟨hlive, hdata, hprev, hnext⟩ := h.kept y hy hlt
    refine ⟨hlive, hdata, ?_, hnext⟩
    have hold : (m.setPrev l.head none).prev y = m.prev y := if_neg hne
    have hnew : (m'.setPrev l'.head b).prev y = m'.prev y := if_neg hne'
    rw [hnew, hprev, hold]
  · rw [hback]
    exact hb

theorem Change.loosen_none (h : Change (m.setPrev l.head none) m' l' cells cells' vals)
    (hl : Loose m l cells) : LooseChange m m' l l' cells cells' vals := by
  have hloose := h.loosen hl (.inl rfl)
  rwa [setPrev_self h.rep.prev_head] at hloose

theorem Loose.pushFront (h : Loose m l cells) (hm : Bounded m) (val : T) :
    ∃ m' l', LinkedList.pushFront m l val = some (m', l') ∧ l'.head = m.top ∧
      LooseChange m m' l l' cells (m.top :: cells) (val :: contents m cells) := by
  obtain ⟨m', l', hrun, hhead, hchange⟩ := Rep.pushFront h hm val
  rw [pushFront_setPrev m l none val (hm _ h.live_head).ne] at hrun
  exact ⟨m', l', hrun, hhead, hchange.loosen_none h⟩

theorem Loose.popFront (h : Loose m l (c :: d :: ys)) (hm : Bounded m) :
    ∃ m' l', LinkedList.popFront m l = some (m', l') ∧
      LooseChange m m' l l' (c :: d :: ys) (d :: ys) (contents m (d :: ys)) := by
  obtain ⟨m', l', hrun, -, hchange⟩ := Rep.popFront h hm
  have hnext : m.next l.head ≠ some l.head := by
    have hfront : Rep (m.setPrev l.head none) l ([] ++ c :: d :: ys) := h
    have hc : l.head = c := hfront.head_eq_iff.mpr rfl
    have hcd : m.next c = some d := hfront.next_eq
    rw [hc, hcd]
    rintro ⟨⟩
    exact (List.nodup_cons.mp (Rep.nodup h)).1 List.mem_cons_self
  rw [popFront_setPrev m l none hnext] at hrun
  exact ⟨m', l', hrun, hchange.loosen_none h⟩

theorem Rep.head_eq_of_append (h : Rep m l (xs ++ ys)) (h' : Rep m' l' (xs ++ cells))
    (hxs : xs ≠ []) : l'.head = l.head := by
  have hhead := h.chain.1
  have hhead' := h'.chain.1
  rw [List.head?_append_of_ne_nil _ hxs] at hhead hhead'
  exact Option.some.inj (hhead'.trans hhead.symm)

theorem Loose.pushBack [Inhabited T] (h : Loose m l cells) (hm : Bounded m) (val : T) :
    ∃ m' l', LinkedList.pushBack m l val = some (m', l') ∧
      LooseChange m m' l l' cells (cells ++ [m.top]) (contents m cells ++ [val]) := by
  obtain ⟨m', l', hrun, hchange⟩ := Rep.pushBack h hm val
  have hrep : Rep (m.setPrev l.head none) l (cells ++ []) := by
    rw [List.append_nil]
    exact h
  have hhead : l'.head = l.head :=
    hrep.head_eq_of_append hchange.rep (List.ne_nil_of_mem h.head_mem)
  have hrun' := pushBack_setPrev (m.setPrev l.head none) l (m.prev l.head) val
    (hm _ h.live_head).ne
  rw [restore, hrun, Option.map_some] at hrun'
  have hloose := hchange.loosen h (.inr rfl)
  rw [hhead] at hloose
  exact ⟨_, l', hrun', hloose⟩

theorem Loose.popBack (h : Loose m l (xs ++ [d, c])) (hm : Bounded m) :
    ∃ m' l', LinkedList.popBack m l = some (m', l') ∧
      LooseChange m m' l l' (xs ++ [d, c]) (xs ++ [d]) (xs.map m.data) := by
  obtain ⟨m', l', hrun, hchange⟩ := Rep.popBack h hm
  have hcells : xs ++ [d, c] = (xs ++ [d]) ++ [c] := List.append_cons xs d [c]
  have hne : xs ++ [d] ≠ [] := List.append_ne_nil_of_right_ne_nil _ (List.cons_ne_nil d [])
  have hsplit : Rep (m.setPrev l.head none) l ((xs ++ [d]) ++ c :: []) := hcells ▸ h
  have hrep' : Rep m' l' ((xs ++ [d]) ++ []) := by
    rw [List.append_nil]
    exact hchange.rep
  have hhead : l'.head = l.head := hsplit.head_eq_of_append hrep' hne
  have htail : l.head ≠ l.tail := by
    have hmem : l.head ∈ xs ++ [d] := by
      have hstart := hsplit.chain.1
      rw [List.head?_append_of_ne_nil _ hne] at hstart
      exact List.mem_of_mem_head? hstart.symm
    exact fun heq => hsplit.tail_not_mem (heq ▸ hmem)
  have hrun' := popBack_setPrev (m.setPrev l.head none) l (m.prev l.head) htail
  rw [restore, hrun, Option.map_some] at hrun'
  have hloose := hchange.loosen h (.inr rfl)
  rw [hhead] at hloose
  exact ⟨_, l', hrun', hloose⟩

/-- The position that `insert` gives back is the node of the value. -/
theorem Loose.insert [Inhabited T] (h : Loose m l (xs ++ c :: ys)) (hm : Bounded m) (val : T) :
    ∃ m' l' p ys', LinkedList.insert m l c val = some (m', l', p) ∧
      LooseChange m m' l l' (xs ++ c :: ys) (xs ++ p :: ys')
        (xs.map m.data ++ val :: contents m (c :: ys)) := by
  by_cases hxs : xs = []
  · subst hxs
    obtain ⟨m', l', hrun, hhead, hchange⟩ := h.pushFront hm val
    refine ⟨m', l', m.top, _, ?_, hchange⟩
    rw [LinkedList.insert, if_pos (Rep.head_eq_iff h |>.mpr rfl).symm, hrun]
    exact congrArg (fun p => some (m', l', p)) hhead
  · have hhead : c ≠ l.head := fun heq => hxs (Rep.head_eq_iff h |>.mp heq.symm)
    by_cases hc : c = l.tail
    · obtain rfl : ys = [] := by
        cases ys with
        | nil => rfl
        | cons d ys => exact absurd hc (Rep.ne_tail h)
      obtain ⟨m', l', hrun, hchange⟩ := h.pushBack hm val
      have hvals : contents m (xs ++ [c]) ++ [val] = xs.map m.data ++ val :: contents m [c] := by
        rw [contents_append, List.append_assoc]
        rfl
      rw [← List.append_cons, hvals] at hchange
      refine ⟨m', l', c, _, ?_, hchange⟩
      rw [LinkedList.insert, if_neg hhead, if_pos hc, hrun]
      rfl
    · obtain ⟨m', hrun, hchange⟩ := Rep.insert_middle h hm hxs hc val
      have hrun' := insert_setPrev (m.setPrev l.head none) l (m.prev l.head) val hhead hc
        (hm _ h.live_head).ne
      rw [restore, hrun, Option.map_some] at hrun'
      exact ⟨_, l, m.top, _, hrun', hchange.loosen h (.inr rfl)⟩

end LinkedList

end RebuildTheWheel.TinySTL
