import RebuildTheWheel.TinySTL.LinkedList

namespace RebuildTheWheel.TinySTL

open Data NodeHeap

namespace NodeHeap

variable {T : Type}

/-- The next pointers, up to the dummy node `t`. -/
def nextTo (m : NodeHeap T) (t : Nat) (y : Nat) : Option Nat := if y = t then none else m.next y

/-- A node that an operation leaves alone. -/
structure Kept (m m' : NodeHeap T) (y : Nat) : Prop where
  live : m'.live y = m.live y
  data : m'.data y = m.data y
  prev : m'.prev y = m.prev y
  next : m'.next y = m.next y

theorem Kept.trans {m m₁ m₂ : NodeHeap T} {y : Nat} (h : Kept m m₁ y) (h' : Kept m₁ m₂ y) :
    Kept m m₂ y :=
  ⟨h'.live.trans h.live, h'.data.trans h.data, h'.prev.trans h.prev, h'.next.trans h.next⟩

def Bounded (m : NodeHeap T) : Prop := ∀ y, m.live y = true → y < m.top

end NodeHeap

namespace LinkedList

variable {T : Type}

/-- The list is well formed, and `cells` are its nodes, the dummy node at the end. -/
structure Rep (m : NodeHeap T) (l : LinkedList) (cells : List Nat) : Prop where
  chain : Chain (m.nextTo l.tail) m.prev (some l.head) cells
  last : cells.getLast? = some l.tail
  live : ∀ y ∈ cells, m.live y = true

def contents (m : NodeHeap T) (cells : List Nat) : List T := cells.dropLast.map m.data

variable {m m' : NodeHeap T} {l : LinkedList} {cells xs ys : List Nat} {c d x y : Nat} {val : T}

theorem Rep.nodup (h : Rep m l cells) : cells.Nodup := h.chain.nodup

theorem Rep.live_head (h : Rep m l cells) : m.live l.head = true :=
  h.live _ (List.mem_of_mem_head? h.chain.1.symm)

theorem Rep.live_tail (h : Rep m l cells) : m.live l.tail = true :=
  h.live _ (List.mem_of_mem_getLast? h.last)

theorem Rep.tail_mem (h : Rep m l (xs ++ c :: ys)) : l.tail ∈ c :: ys := by
  have hlast := h.last
  rw [List.getLast?_append_of_ne_nil _ (List.cons_ne_nil c ys)] at hlast
  exact List.mem_of_mem_getLast? hlast

theorem Rep.tail_not_mem (h : Rep m l (xs ++ c :: ys)) : l.tail ∉ xs := by
  intro hmem
  exact (List.nodup_append.mp h.nodup).2.2 _ hmem _ h.tail_mem rfl

theorem Rep.ne_tail (h : Rep m l (xs ++ c :: d :: ys)) : c ≠ l.tail := by
  intro heq
  rw [List.append_cons] at h
  exact h.tail_not_mem (heq ▸ List.mem_append_right xs List.mem_cons_self)

theorem Rep.prev_eq (h : Rep m l (xs ++ c :: ys)) : m.prev c = xs.getLast? := h.chain.split.2.2.1

theorem Rep.next_eq (h : Rep m l (xs ++ c :: d :: ys)) : m.next c = some d := by
  have hnext := h.chain.split.2.2.2.1
  rw [nextTo, if_neg h.ne_tail] at hnext
  exact hnext

theorem Rep.head_eq_iff (h : Rep m l (xs ++ c :: ys)) : l.head = c ↔ xs = [] := by
  rw [← h.chain.start_eq_iff, Option.some.injEq]

theorem Rep.prev_ne_tail (h : Rep m l (xs ++ c :: ys)) : m.prev c ≠ some l.tail := by
  rw [h.prev_eq]
  intro heq
  exact h.tail_not_mem (List.mem_of_mem_getLast? heq)

theorem Rep.congr (h : Rep m l cells) (hkept : ∀ y ∈ cells, Kept m m' y) : Rep m' l cells := by
  refine ⟨⟨h.chain.1, h.chain.2.congr ?_ ?_⟩, h.last, ?_⟩
  · intro y hy
    rw [nextTo, nextTo, (hkept y hy).next]
  · intro y hy
    exact (hkept y hy).prev
  · intro y hy
    rw [(hkept y hy).live]
    exact h.live y hy

theorem contents_congr (hkept : ∀ y ∈ cells, Kept m m' y) : contents m' cells = contents m cells :=
  List.map_congr_left fun y hy => (hkept y (List.mem_of_mem_dropLast hy)).data

/-! A node comes in, and a node goes. -/

/-- `x` is linked in front of `c`. -/
theorem Rep.link (h : Rep m l (xs ++ c :: ys))
    (hnext : ∀ y ∈ xs ++ c :: ys, m'.next y = if m.prev c = some y then some x else m.next y)
    (hprev : ∀ y ∈ xs ++ c :: ys, m'.prev y = if y = c then some x else m.prev y)
    (hnextX : m'.next x = some c) (hprevX : m'.prev x = m.prev c)
    (hlive : ∀ y ∈ xs ++ x :: c :: ys, m'.live y = true) (hx : x ≠ l.tail) :
    Rep m' { l with head := if l.head = c then x else l.head } (xs ++ x :: c :: ys) := by
  refine ⟨?_, ?_, hlive⟩
  · have hchain : Chain (m'.nextTo l.tail) m'.prev
        (if some l.head = some c then some x else some l.head) (xs ++ x :: c :: ys) := by
      refine h.chain.insert ?_ hprev ?_ hprevX
      · intro y hy
        rw [nextTo, nextTo, hnext y hy]
        split_ifs with htail hbefore
        · rw [htail] at hbefore
          exact absurd hbefore h.prev_ne_tail
        · rfl
        · rfl
        · rfl
      · rw [nextTo, if_neg hx]
        exact hnextX
    simp only [Option.some.injEq, ← apply_ite some] at hchain
    exact hchain
  · have hlast := h.last
    rw [List.getLast?_append_of_ne_nil _ (List.cons_ne_nil _ _)] at hlast ⊢
    rw [List.getLast?_cons_cons]
    exact hlast

/-- `c` is taken out. -/
theorem Rep.unlink (h : Rep m l (xs ++ c :: d :: ys))
    (hnext : ∀ y ∈ xs ++ d :: ys, m'.next y = if m.prev c = some y then some d else m.next y)
    (hprev : ∀ y ∈ xs ++ d :: ys, m'.prev y = if y = d then m.prev c else m.prev y)
    (hlive : ∀ y ∈ xs ++ d :: ys, m'.live y = true) :
    Rep m' { l with head := if l.head = c then d else l.head } (xs ++ d :: ys) := by
  have hc : m.nextTo l.tail c = some d := by
    rw [nextTo, if_neg h.ne_tail, h.next_eq]
  refine ⟨?_, ?_, hlive⟩
  · have hchain : Chain (m'.nextTo l.tail) m'.prev
        (if some l.head = some c then m.nextTo l.tail c else some l.head) (xs ++ d :: ys) := by
      refine h.chain.remove ?_ ?_
      · intro y hy
        rw [hc, nextTo, nextTo, hnext y hy]
        split_ifs with htail hbefore
        · rw [htail] at hbefore
          exact absurd hbefore h.prev_ne_tail
        · rfl
        · rfl
        · rfl
      · intro y hy
        rw [hc, hprev y hy]
        simp only [Option.some.injEq, eq_comm]
    simp only [hc, Option.some.injEq, ← apply_ite some] at hchain
    exact hchain
  · have hlast := h.last
    rw [List.getLast?_append_of_ne_nil _ (List.cons_ne_nil _ _)] at hlast ⊢
    rw [List.getLast?_cons_cons] at hlast
    exact hlast

/-- What an operation on one list does: it changes no other node, and takes new ones only
from those never used. -/
structure Change (m m' : NodeHeap T) (l' : LinkedList) (cells cells' : List Nat) (vals : List T) :
    Prop where
  rep : Rep m' l' cells'
  vals : contents m' cells' = vals
  bounded : Bounded m'
  kept : ∀ y, y ∉ cells → y < m.top → Kept m m' y
  used : ∀ y ∈ cells', y ∈ cells ∨ m.top ≤ y
  top : m.top ≤ m'.top

theorem contents_append (m : NodeHeap T) (xs ys : List Nat) (c : Nat) :
    contents m (xs ++ c :: ys) = xs.map m.data ++ contents m (c :: ys) := by
  rw [contents, contents, List.dropLast_append_of_ne_nil (List.cons_ne_nil c ys), List.map_append]

theorem contents_cons (m : NodeHeap T) (c d : Nat) (ys : List Nat) :
    contents m (c :: d :: ys) = m.data c :: contents m (d :: ys) := rfl

theorem contents_data (hdata : ∀ y ∈ cells, m'.data y = m.data y) :
    contents m' cells = contents m cells :=
  List.map_congr_left fun y hy => hdata y (List.mem_of_mem_dropLast hy)

theorem Rep.before_mem (h : Rep m l (xs ++ c :: ys)) (hy : m.prev c = some y) : y ∈ xs := by
  rw [h.prev_eq] at hy
  exact List.mem_of_mem_getLast? hy

/-- A new node is linked in front of `c`. -/
theorem Rep.linkNew (h : Rep m l (xs ++ c :: ys)) (hm : Bounded m)
    (hnext : ∀ y, m'.next y = if y = m.top then some c
      else if m.prev c = some y then some m.top else m.next y)
    (hprev : ∀ y, m'.prev y = if y = m.top then m.prev c
      else if y = c then some m.top else m.prev y)
    (hdata : ∀ y, m'.data y = if y = m.top then val else m.data y)
    (hlive : ∀ y, m'.live y = if y = m.top then true else m.live y) (htop : m'.top = m.top + 1) :
    Change m m' { l with head := if l.head = c then m.top else l.head } (xs ++ c :: ys)
      (xs ++ m.top :: c :: ys) (xs.map m.data ++ val :: contents m (c :: ys)) := by
  have hold : ∀ y ∈ xs ++ c :: ys, y ≠ m.top := fun y hy => (hm y (h.live y hy)).ne
  have hdata' : ∀ y ∈ xs ++ c :: ys, m'.data y = m.data y := fun y hy => by
    rw [hdata, if_neg (hold y hy)]
  refine ⟨h.link ?_ ?_ ?_ ?_ ?_ ?_, ?_, ?_, ?_, ?_, ?_⟩
  · intro y hy
    rw [hnext, if_neg (hold y hy)]
  · intro y hy
    rw [hprev, if_neg (hold y hy)]
  · rw [hnext, if_pos rfl]
  · rw [hprev, if_pos rfl]
  · intro y hy
    rw [hlive]
    split_ifs with heq
    · rfl
    · rw [List.mem_append, List.mem_cons] at hy
      exact h.live y (List.mem_append.mpr (hy.imp_right fun hy => hy.resolve_left heq))
  · exact (hold _ (List.mem_append_right xs h.tail_mem)).symm
  · have hxs : xs.map m'.data = xs.map m.data :=
      List.map_congr_left fun y hy => hdata' y (List.mem_append_left _ hy)
    have hys : contents m' (c :: ys) = contents m (c :: ys) :=
      contents_data fun y hy => hdata' y (List.mem_append_right xs hy)
    rw [contents_append, contents_cons, hxs, hys, hdata, if_pos rfl]
  · intro y hy
    rw [hlive] at hy
    rw [htop]
    split_ifs at hy with heq
    · omega
    · exact (hm y hy).trans (Nat.lt_succ_self _)
  · intro y hy hlt
    have hbefore : m.prev c ≠ some y := fun hbefore =>
      hy (List.mem_append_left _ (h.before_mem hbefore))
    have hyc : y ≠ c := fun heq => hy (List.mem_append_right xs (heq ▸ List.mem_cons_self))
    refine ⟨?_, ?_, ?_, ?_⟩
    · rw [hlive, if_neg hlt.ne]
    · rw [hdata, if_neg hlt.ne]
    · rw [hprev, if_neg hlt.ne, if_neg hyc]
    · rw [hnext, if_neg hlt.ne, if_neg hbefore]
  · intro y hy
    rw [List.mem_append, List.mem_cons] at hy
    rcases hy with hy | rfl | hy
    · exact .inl (List.mem_append_left _ hy)
    · exact .inr le_rfl
    · exact .inl (List.mem_append_right xs hy)
  · omega

/-- A node is taken out and deleted. -/
theorem Rep.unlinkOld (h : Rep m l (xs ++ c :: d :: ys)) (hm : Bounded m)
    (hnext : ∀ y, y ≠ c → m'.next y = if m.prev c = some y then some d else m.next y)
    (hprev : ∀ y, y ≠ c → m'.prev y = if y = d then m.prev c else m.prev y)
    (hdata : m'.data = m.data)
    (hlive : ∀ y, m'.live y = if y = c then false else m.live y) (htop : m'.top = m.top) :
    Change m m' { l with head := if l.head = c then d else l.head } (xs ++ c :: d :: ys)
      (xs ++ d :: ys) (xs.map m.data ++ contents m (d :: ys)) := by
  have hother : ∀ y ∈ xs ++ d :: ys, y ≠ c := by
    intro y hy heq
    have hnodup := List.nodup_middle.mp h.nodup
    exact (List.nodup_cons.mp hnodup).1 (heq ▸ hy)
  have hsub : ∀ y ∈ xs ++ d :: ys, y ∈ xs ++ c :: d :: ys := by
    intro y hy
    rw [List.mem_append] at hy ⊢
    exact hy.imp_right (List.mem_cons_of_mem c)
  refine ⟨h.unlink ?_ ?_ ?_, ?_, ?_, ?_, ?_, htop.ge⟩
  · intro y hy
    exact hnext y (hother y hy)
  · intro y hy
    exact hprev y (hother y hy)
  · intro y hy
    rw [hlive, if_neg (hother y hy)]
    exact h.live y (hsub y hy)
  · rw [contents_append, contents, contents, hdata]
  · intro y hy
    rw [hlive] at hy
    split_ifs at hy
    rw [htop]
    exact hm y hy
  · intro y hy _
    have hyc : y ≠ c := fun heq => hy (List.mem_append_right xs (heq ▸ List.mem_cons_self))
    have hyd : y ≠ d := fun heq =>
      hy (List.mem_append_right xs (List.mem_cons_of_mem c (heq ▸ List.mem_cons_self)))
    have hbefore : m.prev c ≠ some y := fun hbefore =>
      hy (List.mem_append_left _ (h.before_mem hbefore))
    refine ⟨?_, congrFun hdata y, ?_, ?_⟩
    · rw [hlive, if_neg hyc]
    · rw [hprev y hyc, if_neg hyd]
    · rw [hnext y hyc, if_neg hbefore]
  · intro y hy
    exact .inl (hsub y hy)

/-! The operations on one list. -/

theorem Rep.exists_cons (h : Rep m l cells) : ∃ ys, cells = l.head :: ys := by
  cases cells with
  | nil => cases h.last
  | cons c ys =>
      obtain rfl : l.head = c := Option.some.inj h.chain.1
      exact ⟨ys, rfl⟩

theorem Rep.pushFront (h : Rep m l cells) (hm : Bounded m) (val : T) :
    ∃ m' l', pushFront m l val = some (m', l') ∧ l'.head = m.top ∧
      Change m m' l' cells (m.top :: cells) (val :: contents m cells) := by
  obtain ⟨ys, rfl⟩ := h.exists_cons
  have hfront : Rep m l ([] ++ l.head :: ys) := h
  have hprev : m.prev l.head = none := hfront.prev_eq
  let m' := ((m.newNode val).1.setPrev l.head (some m.top)).setNext m.top (some l.head)
  have hrun : LinkedList.pushFront m l val = some (m', { l with head := m.top }) := by
    simp [LinkedList.pushFront, m', newNode, storePrev, storeNext, setPrev, h.live_head]
  have hchange : Change m m' { l with head := if l.head = l.head then m.top else l.head }
      (l.head :: ys) (m.top :: l.head :: ys) (val :: contents m (l.head :: ys)) := by
    refine hfront.linkNew hm ?_ ?_ (fun y => rfl) (fun y => rfl) rfl
    · intro y
      simp only [m', setNext, setPrev, newNode, hprev]
      split_ifs <;> simp_all
    · intro y
      simp only [m', setNext, setPrev, newNode, hprev]
      have hne : l.head ≠ m.top := (hm _ h.live_head).ne
      split_ifs <;> simp_all
  rw [if_pos rfl] at hchange
  exact ⟨m', _, hrun, rfl, hchange⟩

theorem Rep.popFront (h : Rep m l (c :: d :: ys)) (hm : Bounded m) :
    ∃ m' l', popFront m l = some (m', l') ∧ l'.head = d ∧
      Change m m' l' (c :: d :: ys) (d :: ys) (contents m (d :: ys)) := by
  have hfront : Rep m l ([] ++ c :: d :: ys) := h
  obtain rfl : l.head = c := hfront.head_eq_iff.mpr rfl
  have hprev : m.prev l.head = none := hfront.prev_eq
  have hnext : m.next l.head = some d := hfront.next_eq
  have hd : m.live d = true := h.live d (List.mem_cons_of_mem _ List.mem_cons_self)
  let m' := (((m.setPrev d none).setPrev l.head none).setNext l.head none).kill l.head
  have hrun : LinkedList.popFront m l = some (m', { l with head := d }) := by
    simp [LinkedList.popFront, m', loadNext, deleteNode, storePrev, storeNext, setPrev, hd,
      h.live_head, hnext]
  have hchange : Change m m' { l with head := if l.head = l.head then d else l.head }
      (l.head :: d :: ys) (d :: ys) (contents m (d :: ys)) := by
    refine hfront.unlinkOld hm ?_ ?_ rfl (fun y => rfl) rfl
    · intro y hy
      simp [m', setNext, setPrev, kill, hprev, hy]
    · intro y hy
      simp [m', setNext, setPrev, kill, hprev, hy]
  rw [if_pos rfl] at hchange
  exact ⟨m', _, hrun, rfl, hchange⟩

/-- A node between two others is linked in. -/
theorem Rep.insert_middle [Inhabited T] (h : Rep m l (xs ++ c :: ys)) (hm : Bounded m)
    (hxs : xs ≠ []) (hc : c ≠ l.tail) (val : T) :
    ∃ m', insert m l c val = some (m', l, m.top) ∧
      Change m m' l (xs ++ c :: ys) (xs ++ m.top :: c :: ys)
        (xs.map m.data ++ val :: contents m (c :: ys)) := by
  obtain ⟨b, hb⟩ : ∃ b, xs.getLast? = some b := by
    cases hlast : xs.getLast? with
    | none => exact absurd (List.getLast?_eq_none_iff.mp hlast) hxs
    | some b => exact ⟨b, rfl⟩
  have hprev : m.prev c = some b := h.prev_eq.trans hb
  have hhead : l.head ≠ c := fun heq => hxs (h.head_eq_iff.mp heq)
  have hlb : m.live b = true := h.live b (List.mem_append_left _ (List.mem_of_mem_getLast? hb))
  have hlc : m.live c = true := h.live c (List.mem_append_right xs List.mem_cons_self)
  have hbt : b ≠ m.top := (hm b hlb).ne
  have hct : c ≠ m.top := (hm c hlc).ne
  let m' := ((((m.newNode val).1.setNext m.top (some c)).setPrev m.top (some b)).setNext b
    (some m.top)).setPrev c (some m.top)
  have hrun : LinkedList.insert m l c val = some (m', l, m.top) := by
    simp [LinkedList.insert, m', newNode, loadPrev, storePrev, storeNext, setPrev, setNext, hlb,
      hlc, hc, Ne.symm hhead, hct, hprev]
  have hchange : Change m m' { l with head := if l.head = c then m.top else l.head }
      (xs ++ c :: ys) (xs ++ m.top :: c :: ys) (xs.map m.data ++ val :: contents m (c :: ys)) := by
    refine h.linkNew hm ?_ ?_ (fun y => rfl) (fun y => rfl) rfl
    · intro y
      by_cases hy : y = m.top
      · simp [m', setNext, setPrev, newNode, hy, hbt.symm]
      · simp [m', setNext, setPrev, newNode, hprev, hy, eq_comm (a := y)]
    · intro y
      by_cases hy : y = m.top
      · simp [m', setNext, setPrev, newNode, hprev, hy, hct.symm]
      · simp [m', setNext, setPrev, newNode, hy]
  rw [if_neg hhead] at hchange
  exact ⟨m', hrun, hchange⟩

/-- A node with others on both sides is taken out. -/
theorem Rep.erase_middle (h : Rep m l (xs ++ c :: d :: ys)) (hm : Bounded m) (hxs : xs ≠ []) :
    ∃ m', erase m l c = some (m', l, d) ∧
      Change m m' l (xs ++ c :: d :: ys) (xs ++ d :: ys)
        (xs.map m.data ++ contents m (d :: ys)) := by
  obtain ⟨b, hb⟩ : ∃ b, xs.getLast? = some b := by
    cases hlast : xs.getLast? with
    | none => exact absurd (List.getLast?_eq_none_iff.mp hlast) hxs
    | some b => exact ⟨b, rfl⟩
  have hprev : m.prev c = some b := h.prev_eq.trans hb
  have hnext : m.next c = some d := h.next_eq
  have hhead : l.head ≠ c := fun heq => hxs (h.head_eq_iff.mp heq)
  have hlb : m.live b = true := h.live b (List.mem_append_left _ (List.mem_of_mem_getLast? hb))
  have hlc : m.live c = true := h.live c (List.mem_append_right xs List.mem_cons_self)
  have hld : m.live d = true :=
    h.live d (List.mem_append_right xs (List.mem_cons_of_mem c List.mem_cons_self))
  let m' := ((((m.setNext b (some d)).setPrev d (some b)).setPrev c none).setNext c none).kill c
  have hrun : LinkedList.erase m l c = some (m', l, d) := by
    simp [LinkedList.erase, m', loadPrev, loadNext, deleteNode, storePrev, storeNext, setPrev,
      setNext, hlb, hlc, hld, Ne.symm hhead, hprev, hnext]
  have hchange : Change m m' { l with head := if l.head = c then d else l.head }
      (xs ++ c :: d :: ys) (xs ++ d :: ys) (xs.map m.data ++ contents m (d :: ys)) := by
    refine h.unlinkOld hm ?_ ?_ rfl (fun y => rfl) rfl
    · intro y hy
      simp [m', setNext, setPrev, kill, hprev, hy, eq_comm (a := y)]
    · intro y hy
      simp [m', setNext, setPrev, kill, hprev, hy]
  rw [if_neg hhead] at hchange
  exact ⟨m', hrun, hchange⟩

theorem Rep.pushBack [Inhabited T] (h : Rep m l cells) (hm : Bounded m) (val : T) :
    ∃ m' l', pushBack m l val = some (m', l') ∧
      Change m m' l' cells (cells ++ [m.top]) (contents m cells ++ [val]) := by
  have hold : ∀ y ∈ cells, y ≠ m.top := fun y hy => (hm y (h.live y hy)).ne
  have htail : l.tail ≠ m.top := (hm _ h.live_tail).ne
  let m' := (((m.newNode default).1.setData l.tail val).setNext l.tail (some m.top)).setPrev m.top
    (some l.tail)
  have hrun : LinkedList.pushBack m l val = some (m', { l with tail := m.top }) := by
    simp [LinkedList.pushBack, m', newNode, storeData, storePrev, storeNext, setData, setNext,
      h.live_tail]
  have hdata : ∀ y ∈ cells.dropLast, m'.data y = m.data y := by
    intro y hy
    have hmem := List.mem_of_mem_dropLast hy
    have hyt : y ≠ l.tail := by
      have hnodup := h.nodup
      rw [← List.dropLast_append_getLast? _ h.last] at hnodup
      intro heq
      exact (List.nodup_append.mp hnodup).2.2 y hy l.tail List.mem_cons_self heq
    simp [m', setData, setNext, setPrev, newNode, hyt, hold y hmem]
  refine ⟨m', _, hrun, ⟨?_, ?_, ?_⟩, ?_, ?_, ?_, ?_, Nat.le_succ _⟩
  · have hchain : Chain (m'.nextTo m.top) m'.prev ((some l.head).or (some m.top))
        (cells ++ [m.top]) := by
      refine h.chain.append ?_ ?_ (if_pos rfl) ?_
      · intro y hy
        simp only [h.last, Option.some.injEq, nextTo, if_neg (hold y hy)]
        by_cases hyt : y = l.tail
        · simp [m', setNext, setPrev, hyt]
        · simp [m', setData, setNext, setPrev, newNode, hyt, hold y hy, eq_comm (a := l.tail)]
      · intro y hy
        simp [m', setData, setNext, setPrev, newNode, hold y hy]
      · rw [h.last]
        exact if_pos rfl
    exact hchain
  · simp
  · intro y hy
    rcases List.mem_append.mp hy with hy | hy
    · exact (if_neg (hold y hy)).trans (h.live y hy)
    · exact if_pos (List.mem_singleton.mp hy)
  · have hsplit : cells = cells.dropLast ++ [l.tail] :=
      (List.dropLast_append_getLast? _ h.last).symm
    rw [contents, contents, List.dropLast_concat, hsplit, List.map_append, List.dropLast_concat,
      List.map_congr_left hdata]
    simp [m', setData, setNext, setPrev]
  · intro y hy
    have hy' : (if y = m.top then true else m.live y) = true := hy
    split_ifs at hy' with heq
    · rw [heq]
      exact Nat.lt_succ_self _
    · exact (hm y hy').trans (Nat.lt_succ_self _)
  · intro y hy hlt
    have hyt : y ≠ l.tail := fun heq => hy (heq ▸ List.mem_of_mem_getLast? h.last)
    refine ⟨?_, ?_, ?_, ?_⟩ <;>
      simp [m', setData, setNext, setPrev, newNode, hlt.ne, hyt]
  · intro y hy
    rcases List.mem_append.mp hy with hy | hy
    · exact .inl hy
    · exact .inr (List.mem_singleton.mp hy).ge

theorem Rep.popBack (h : Rep m l (xs ++ [d, c])) (hm : Bounded m) :
    ∃ m' l', popBack m l = some (m', l') ∧
      Change m m' l' (xs ++ [d, c]) (xs ++ [d]) (xs.map m.data) := by
  have htail : l.tail = c := by
    have hlast := h.last
    rw [List.getLast?_append_of_ne_nil _ (List.cons_ne_nil d [c])] at hlast
    exact (Option.some.inj hlast).symm
  have hd : d ≠ c := htail ▸ h.ne_tail
  have hld : m.live d = true := h.live d (List.mem_append_right xs List.mem_cons_self)
  have hlc : m.live c = true := htail ▸ h.live_tail
  have hcells : xs ++ [d, c] = xs ++ [d] ++ [c] := List.append_cons xs d [c]
  have hprev : m.prev c = some d := by
    rw [hcells] at h
    rw [h.prev_eq, List.getLast?_concat]
  have hc : c ∉ xs ++ [d] := by
    rw [hcells] at h
    exact htail ▸ h.tail_not_mem
  let m' := (((m.setNext d none).setPrev c none).setNext c none).kill c
  have hrun : LinkedList.popBack m l = some (m', { l with tail := d }) := by
    simp [LinkedList.popBack, m', loadPrev, deleteNode, storePrev, storeNext, setPrev, setNext,
      htail, hlc, hld, hprev]
  have hother : ∀ y ∈ xs ++ [d], y ≠ c := fun y hy heq => hc (heq ▸ hy)
  have hlinked : Linked (m.nextTo c) m.prev none (xs ++ [d]) (some c) := by
    have hchain := h.chain.2
    rw [hcells, htail] at hchain
    exact ((linked_append _ _ _ _ _ _).mp hchain).1
  have hnodup : (xs ++ [d]).Nodup := by
    have hnodup := h.nodup
    rw [hcells] at hnodup
    exact (List.nodup_append.mp hnodup).1
  refine ⟨m', _, hrun, ⟨⟨?_, ?_⟩, ?_, ?_⟩, ?_, ?_, ?_, ?_, le_rfl⟩
  · rw [h.chain.1, hcells, List.head?_append_of_ne_nil _ (List.append_ne_nil_of_right_ne_nil _ (List.cons_ne_nil d []))]
  · refine hlinked.relink_after hnodup ?_ ?_
    · intro y hy
      rw [List.getLast?_concat]
      by_cases hyd : y = d
      · simp [nextTo, hyd]
      · simp [m', nextTo, setNext, setPrev, kill, hyd, hother y hy, eq_comm (a := d)]
    · intro y hy
      simp [m', setNext, setPrev, kill, hother y hy]
  · simp
  · intro y hy
    exact (if_neg (hother y hy)).trans (h.live y (hcells ▸ List.mem_append_left [c] hy))
  · rw [contents, List.dropLast_concat]
    rfl
  · intro y hy
    have hy' : (if y = c then false else m.live y) = true := hy
    split_ifs at hy'
    exact hm y hy'
  · intro y hy _
    have hyd : y ≠ d := fun heq => hy (by simp [heq])
    have hyc : y ≠ c := fun heq => hy (by simp [heq])
    refine ⟨?_, ?_, ?_, ?_⟩ <;> simp [m', setNext, setPrev, kill, hyd, hyc]
  · intro y hy
    exact .inl (hcells ▸ List.mem_append_left [c] hy)

theorem Rep.insert [Inhabited T] (h : Rep m l (xs ++ c :: ys)) (hm : Bounded m) (val : T) :
    ∃ m' l' p cells', insert m l c val = some (m', l', p) ∧
      Change m m' l' (xs ++ c :: ys) cells' (xs.map m.data ++ val :: contents m (c :: ys)) := by
  by_cases hxs : xs = []
  · subst hxs
    obtain ⟨m', l', hrun, -, hchange⟩ := h.pushFront hm val
    refine ⟨m', l', l'.head, _, ?_, hchange⟩
    rw [LinkedList.insert, if_pos (h.head_eq_iff.mpr rfl).symm, hrun]
    rfl
  · by_cases hc : c = l.tail
    · obtain rfl : ys = [] := by
        cases ys with
        | nil => rfl
        | cons d ys => exact absurd hc h.ne_tail
      obtain ⟨m', l', hrun, hchange⟩ := h.pushBack hm val
      have hvals : contents m (xs ++ [c]) ++ [val] = xs.map m.data ++ val :: contents m [c] := by
        rw [contents_append, List.append_assoc]
        rfl
      refine ⟨m', l', c, _, ?_, hvals ▸ hchange⟩
      rw [LinkedList.insert, if_neg fun heq => hxs (h.head_eq_iff.mp heq.symm), if_pos hc, hrun]
      rfl
    · obtain ⟨m', hrun, hchange⟩ := h.insert_middle hm hxs hc val
      exact ⟨m', l, m.top, _, hrun, hchange⟩

theorem Rep.erase (h : Rep m l (xs ++ c :: d :: ys)) (hm : Bounded m) :
    ∃ m' l', erase m l c = some (m', l', d) ∧
      Change m m' l' (xs ++ c :: d :: ys) (xs ++ d :: ys)
        (xs.map m.data ++ contents m (d :: ys)) := by
  by_cases hxs : xs = []
  · subst hxs
    obtain ⟨m', l', hrun, hhead, hchange⟩ := Rep.popFront h hm
    refine ⟨m', l', ?_, hchange⟩
    rw [LinkedList.erase, if_pos (h.head_eq_iff.mpr rfl).symm, hrun, ← hhead]
    rfl
  · obtain ⟨m', hrun, hchange⟩ := h.erase_middle hm hxs
    exact ⟨m', l, hrun, hchange⟩

/-! `remove_if`. -/

theorem Change.trans {m₁ m₂ : NodeHeap T} {l₁ l₂ : LinkedList} {cells₁ cells₂ : List Nat}
    {vals₁ vals₂ : List T} (h : Change m m₁ l₁ cells cells₁ vals₁)
    (h' : Change m₁ m₂ l₂ cells₁ cells₂ vals₂) : Change m m₂ l₂ cells cells₂ vals₂ := by
  refine ⟨h'.rep, h'.vals, h'.bounded, ?_, ?_, h.top.trans h'.top⟩
  · intro y hy hlt
    refine (h.kept y hy hlt).trans (h'.kept y ?_ (hlt.trans_le h.top))
    intro hmem
    rcases h.used y hmem with hold | hnew
    · exact hy hold
    · omega
  · intro y hy
    rcases h'.used y hy with hold | hnew
    · exact h.used y hold
    · exact .inr (h.top.trans hnew)

theorem Change.refl (h : Rep m l cells) (hm : Bounded m) :
    Change m m l cells cells (contents m cells) :=
  ⟨h, rfl, hm, fun _ _ _ => ⟨rfl, rfl, rfl, rfl⟩, fun _ hy => .inl hy, le_rfl⟩

theorem Rep.length_le (h : Rep m l cells) (hm : Bounded m) : cells.length ≤ m.top := by
  have hsub : cells ⊆ List.range m.top := fun y hy => List.mem_range.mpr (hm y (h.live y hy))
  have hle := (List.subperm_of_subset h.nodup hsub).length_le
  rwa [List.length_range] at hle

/-- The values in front of an erased node stay. -/
theorem Change.split {vals : List T} (h : Change m m' l cells (xs ++ d :: ys)
    (xs.map m.data ++ vals)) : xs.map m'.data = xs.map m.data ∧ contents m' (d :: ys) = vals := by
  have hvals := h.vals
  rw [contents_append] at hvals
  exact List.append_inj hvals (by simp)

theorem Rep.removeLoop (pred : T → Bool) (fuel : Nat) (h : Rep m l (xs ++ c :: ys))
    (hm : Bounded m) (hfuel : (c :: ys).length ≤ fuel) :
    ∃ m' l' cells', removeLoop pred fuel m l c = some (m', l') ∧
      Change m m' l' (xs ++ c :: ys) cells'
        (xs.map m.data ++ (contents m (c :: ys)).filter fun val => !pred val) := by
  induction fuel generalizing m l xs c ys with
  | zero => cases hfuel
  | succ fuel ih =>
      rw [LinkedList.removeLoop]
      cases ys with
      | nil =>
          have hc : c = l.tail := (List.mem_singleton.mp h.tail_mem).symm
          have hchange := Change.refl h hm
          rw [contents_append] at hchange
          exact ⟨m, l, xs ++ [c], if_pos hc, hchange⟩
      | cons d ys =>
          have hlive : m.live c = true := h.live c (List.mem_append_right xs List.mem_cons_self)
          have hfuel' : (d :: ys).length ≤ fuel := Nat.le_of_succ_le_succ hfuel
          rw [if_neg h.ne_tail, loadData_eq hlive, contents_cons]
          simp only [Option.bind_eq_bind, Option.bind_some]
          by_cases hpred : pred (m.data c) = true
          · obtain ⟨m₁, l₁, herase, hchange⟩ := h.erase hm
            obtain ⟨hfront, hback⟩ := hchange.split
            obtain ⟨m', l', cells', hloop, hrest⟩ := ih hchange.rep hchange.bounded hfuel'
            rw [hfront, hback] at hrest
            refine ⟨m', l', cells', ?_, ?_⟩
            · rw [if_pos hpred, herase]
              exact hloop
            · rw [List.filter_cons_of_neg (by simp [hpred])]
              exact hchange.trans hrest
          · have hmoved : Rep m l ((xs ++ [c]) ++ d :: ys) := List.append_cons xs c (d :: ys) ▸ h
            obtain ⟨m', l', cells', hloop, hrest⟩ := ih hmoved hm hfuel'
            rw [← List.append_cons, List.map_append, List.append_assoc] at hrest
            refine ⟨m', l', cells', ?_, ?_⟩
            · rw [if_neg hpred, loadNext_eq hlive, h.next_eq]
              exact hloop
            · rw [List.filter_cons_of_pos (by simp [hpred])]
              exact hrest

theorem Rep.removeIf (h : Rep m l cells) (hm : Bounded m) (pred : T → Bool) :
    ∃ m' l' cells', removeIf m l pred = some (m', l') ∧
      Change m m' l' cells cells' ((contents m cells).filter fun val => !pred val) := by
  have hlength := h.length_le hm
  obtain ⟨ys, rfl⟩ := h.exists_cons
  have hfront : Rep m l ([] ++ l.head :: ys) := h
  exact hfront.removeLoop pred (m.top + 1) hm (hlength.trans (Nat.le_succ _))

end LinkedList

end RebuildTheWheel.TinySTL
