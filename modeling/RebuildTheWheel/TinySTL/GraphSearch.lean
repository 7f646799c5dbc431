import RebuildTheWheel.Data.GraphSearch
import RebuildTheWheel.TinySTL.Graph
import RebuildTheWheel.TinySTL.LinkedListOps
import RebuildTheWheel.TinySTL.UnorderedSetRun
import RebuildTheWheel.TinySTL.VectorRun

namespace RebuildTheWheel.TinySTL

open Data Data.GraphSearch NodeHeap

/-! `DFS` and `BFS` of a graph whose lists of edges stand in memory. -/

namespace LinkedList

/-- The elements from the iterator `p` up to `end()`. -/
def valuesFrom {T : Type} (m : NodeHeap T) (l : LinkedList) : Nat → Nat → Option (List T)
  | 0, _ => none
  | fuel + 1, p =>
      if p = l.tail then some []
      else do
        let x ← m.loadData p
        let q ← m.loadNext p
        let rest ← valuesFrom m l fuel q
        return x :: rest

end LinkedList

/-- The `nodes_` of a graph, with the nodes of the lists. -/
structure StoredGraph (Index Value : Type) where
  heap : NodeHeap (Index × Value)
  nodes : List ((Index × Value) × LinkedList)

/-- The set `visited`, and the nodes that `func` was called on. -/
structure Visit (Index Value : Type) where
  visited : UnorderedSet Index
  calls : List (Index × Value)

variable {Index Value : Type}

/-- What a level of `_BFS` changes: the visit, and the vector `temp` in its memory. -/
structure Level (Index Value : Type) where
  visit : Visit Index Value
  memory : RawMemory (Index × Value)
  temp : Vector

namespace StoredGraph

section

variable (ops : KeyOps Index) (exceeds : Nat → Nat → Bool) (g : StoredGraph Index Value)

/-- For an absent index the result is the static `empty_node`. -/
def getNode [Inhabited Index] [Inhabited Value] (index : Index) : Index × Value :=
  match g.nodes.find? fun pair => ops.equal pair.1.1 index with
  | some pair => pair.1
  | none => default

/-- The vector of the copies from `begin(index)` up to `end(index)`. -/
def adjacentNodes (index : Index) : Option (List (Index × Value)) :=
  match g.nodes.find? fun pair => ops.equal pair.1.1 index with
  | some pair => pair.2.valuesFrom g.heap (g.heap.top + 1) pair.2.head
  | none => some []

/-- `func(node)` and `visited.insert(node.first)`. Tables of more than 28 sizes do not occur. -/
def enter (node : Index × Value) (v : Visit Index Value) : Option (Visit Index Value) := do
  let (visited, _) ← v.visited.insert ops exceeds 29 node.1
  return ⟨visited, v.calls ++ [node]⟩

/-- `_DFS` -/
def dfsFrom : Nat → Index × Value → Visit Index Value → Option (Visit Index Value)
  | 0, _, _ => none
  | fuel + 1, node, v => do
      let nodes ← g.adjacentNodes ops node.1
      let v ← enter ops exceeds node v
      nodes.foldlM (fun v n => do
        let count ← v.visited.count ops n.1
        if count = 0 then dfsFrom fuel n v else return v) v

/-- `DFS`, with the nodes in the order of the calls of `func`. -/
def dfs [Inhabited Index] [Inhabited Value] (fuel : Nat) (index : Index) :
    Option (List (Index × Value)) := do
  let v ← g.dfsFrom ops exceeds fuel (g.getNode ops index) ⟨UnorderedSet.create 7, []⟩
  return v.calls

/-- One turn of the inner loop of `_BFS`. -/
def bfsStep (l : Level Index Value) (node : Index × Value) : Option (Level Index Value) := do
  let count ← l.visit.visited.count ops node.1
  if count = 0 then do
    let visit ← enter ops exceeds node l.visit
    let s ← g.adjacentNodes ops node.1
    let (memory, temp) ← l.temp.insertRange l.memory l.temp.finish s
    return ⟨visit, memory, temp⟩
  else
    return l

/-- The copies of the elements of a vector. -/
def copies (memory : RawMemory (Index × Value)) (temp : Vector) : Option (List (Index × Value)) :=
  (List.range temp.size).mapM fun i => temp.at? memory i

/-- The outer loop of `_BFS`. At the end of a turn `temp` is destroyed. -/
def bfsLoop : Nat → List (Index × Value) → Visit Index Value → RawMemory (Index × Value) →
    Option (Visit Index Value)
  | 0, _, _, _ => none
  | fuel + 1, nodes, v, memory => do
      let l ← nodes.foldlM (g.bfsStep ops exceeds) ⟨v, memory, Vector.new⟩
      let nodes ← copies l.memory l.temp
      if nodes.isEmpty then return l.visit
      else bfsLoop fuel nodes l.visit (Vector.destroyAndDeallocateAll l.memory l.temp)

/-- `_BFS` -/
def bfsFrom (fuel : Nat) (node : Index × Value) (v : Visit Index Value)
    (memory : RawMemory (Index × Value)) : Option (Visit Index Value) := do
  let nodes ← g.adjacentNodes ops node.1
  let v ← enter ops exceeds node v
  g.bfsLoop ops exceeds fuel nodes v memory

/-- `BFS` -/
def bfs [Inhabited Index] [Inhabited Value] (fuel : Nat) (index : Index)
    (memory : RawMemory (Index × Value)) : Option (List (Index × Value)) := do
  let v ← g.bfsFrom ops exceeds fuel (g.getNode ops index) ⟨UnorderedSet.create 7, []⟩ memory
  return v.calls

end

/-- The lists in memory are those of `g`, a graph in the sense of the class. -/
structure Stores (ops : KeyOps Index) (sg : StoredGraph Index Value)
    (g : DirectedGraph Index Value) : Prop where
  bounded : Bounded sg.heap
  lists : List.Forall₂ (fun stored pair => stored.1 = pair.1 ∧
    ∃ cells, LinkedList.Rep sg.heap stored.2 cells ∧
      LinkedList.contents sg.heap cells = pair.2) sg.nodes g.nodes
  distinct : g.nodes.Pairwise fun a b => ops.equal a.1.1 b.1.1 = false
  closed : ∀ node ∈ g.edges, ∃ pair ∈ g.nodes, ops.equal pair.1.1 node.1 = true

/-- The class of the index of a node. -/
def nodeClass (ops : KeyOps Index) (node : Index × Value) : ops.Class := ops.cls node.1

/-- An edge leads from a node with the one index to a node with the other. -/
def Leads (ops : KeyOps Index) (g : DirectedGraph Index Value) (c d : ops.Class) : Prop :=
  ∃ pair ∈ g.nodes, nodeClass ops pair.1 = c ∧ ∃ node ∈ pair.2, nodeClass ops node = d

/-- The classes of the indices of the graph. -/
def classes (ops : KeyOps Index) (g : DirectedGraph Index Value) : List ops.Class :=
  g.nodes.map fun pair => nodeClass ops pair.1

theorem valuesFrom_eq {T : Type} {m : NodeHeap T} {l : LinkedList} {xs ys : List Nat} {c fuel : Nat}
    (h : LinkedList.Rep m l (xs ++ c :: ys)) (hfuel : ys.length < fuel) :
    l.valuesFrom m fuel c = some (LinkedList.contents m (c :: ys)) := by
  induction fuel generalizing xs c ys with
  | zero => exact absurd hfuel (Nat.not_lt_zero _)
  | succ fuel ih =>
      rw [LinkedList.valuesFrom]
      cases ys with
      | nil =>
          have hlast := h.tail_mem
          rw [List.mem_singleton] at hlast
          rw [if_pos hlast.symm]
          rfl
      | cons d ys =>
          have hlive := h.live c (List.mem_append_right xs List.mem_cons_self)
          have hnext := h.next_eq
          rw [if_neg h.ne_tail, loadData_eq hlive, loadNext_eq hlive, hnext]
          rw [List.append_cons] at h
          simp only [Option.bind_eq_bind, Option.bind_some,
            ih h (Nat.lt_of_succ_lt_succ hfuel)]
          rfl

variable {ops : KeyOps Index} {exceeds : Nat → Nat → Bool} {sg : StoredGraph Index Value}
  {g : DirectedGraph Index Value} {v : Visit Index Value} {order : List ops.Class}
  {node : Index × Value} {index : Index} {fuel : Nat}

theorem Stores.classes_nodup (h : Stores ops sg g) : (classes ops g).Nodup := by
  refine List.pairwise_map.mpr (h.distinct.imp fun {a b} hab heq => ?_)
  rw [KeyOps.cls_eq.mp heq] at hab
  cases hab

/-- What the search for an index of the graph finds. -/
theorem Stores.find (h : Stores ops sg g) (hindex : ops.cls index ∈ classes ops g) :
    ∃ stored pair, (sg.nodes.find? fun stored => ops.equal stored.1.1 index) = some stored ∧
      pair ∈ g.nodes ∧ nodeClass ops pair.1 = ops.cls index ∧ stored.1 = pair.1 ∧
      ∃ cells, LinkedList.Rep sg.heap stored.2 cells ∧
        LinkedList.contents sg.heap cells = pair.2 := by
  obtain ⟨pair, hpair, hclass⟩ := List.mem_map.mp hindex
  have hlists := h.lists
  have hequal := KeyOps.cls_eq.mp hclass
  clear hclass hindex
  revert hpair
  generalize sg.nodes = stored at hlists ⊢
  generalize g.nodes = pairs at hlists ⊢
  induction hlists with
  | nil => exact nofun
  | cons hab hrest ih =>
      rename_i stored pair' rest rest'
      intro hpair
      rw [List.find?_cons]
      cases hfound : ops.equal stored.1.1 index with
      | true =>
          refine ⟨stored, pair', rfl, List.mem_cons_self, ?_, hab.1, hab.2⟩
          exact KeyOps.cls_eq.mpr (hab.1 ▸ hfound)
      | false =>
          have hne : pair ≠ pair' := by
            rintro rfl
            rw [hab.1, hequal] at hfound
            cases hfound
          obtain ⟨stored', pair₁, hfind, hmem, hspec⟩ :=
            ih ((List.mem_cons.mp hpair).resolve_left hne)
          exact ⟨stored', pair₁, hfind, List.mem_cons_of_mem _ hmem, hspec⟩

/-- The neighbours of a node are read off its list. -/
theorem Stores.adjacentNodes (h : Stores ops sg g) (hindex : ops.cls index ∈ classes ops g) :
    ∃ nodes, sg.adjacentNodes ops index = some nodes ∧
      (∀ n ∈ nodes, nodeClass ops n ∈ classes ops g) ∧
      ∀ d, (∃ n ∈ nodes, nodeClass ops n = d) ↔ Leads ops g (ops.cls index) d := by
  obtain ⟨stored, pair, hfind, hpair, hclass, -, cells, hrep, hcontents⟩ := h.find hindex
  obtain ⟨ys, rfl⟩ := hrep.exists_cons
  have hlength := hrep.length_le h.bounded
  rw [List.length_cons] at hlength
  have hfirst : LinkedList.Rep sg.heap stored.2 ([] ++ stored.2.head :: ys) := hrep
  have hvalues := valuesFrom_eq hfirst (Nat.lt_succ_of_lt hlength)
  refine ⟨pair.2, ?_, fun n hn => ?_, fun d => ⟨fun ⟨n, hn, hd⟩ => ⟨pair, hpair, hclass, n, hn, hd⟩,
    fun ⟨pair', hpair', hclass', n, hn, hd⟩ => ?_⟩⟩
  · rw [StoredGraph.adjacentNodes, hfind]
    simp only [hvalues, hcontents]
  · obtain ⟨pair', hpair', hequal⟩ := h.closed n (List.mem_flatMap.mpr ⟨pair, hpair, hn⟩)
    exact List.mem_map.mpr ⟨pair', hpair', KeyOps.cls_eq.mpr hequal⟩
  · obtain rfl : pair' = pair :=
      List.inj_on_of_nodup_map h.classes_nodup hpair' hpair (hclass'.trans hclass.symm)
    exact ⟨n, hn, hd⟩

theorem Stores.getNode [Inhabited Index] [Inhabited Value] (h : Stores ops sg g)
    (hindex : ops.cls index ∈ classes ops g) :
    nodeClass ops (sg.getNode ops index) = ops.cls index := by
  obtain ⟨stored, pair, hfind, -, hclass, heq, -⟩ := h.find hindex
  rw [StoredGraph.getNode, hfind]
  rw [← heq] at hclass
  exact hclass

/-! The set and the calls of `func` follow one order. -/

structure Shows (ops : KeyOps Index) (v : Visit Index Value) (order : List ops.Class) : Prop where
  set : UnorderedSet.Rep ops v.visited order.toFinset
  calls : v.calls.map (nodeClass ops) = order

theorem Shows.count_of_mem (h : Shows ops v order) (hin : nodeClass ops node ∈ order) :
    v.visited.count ops node.1 = some 1 := by
  rw [h.set.count]
  exact congrArg some (if_pos (List.mem_toFinset.mpr hin))

theorem Shows.count_of_new (h : Shows ops v order) (hnew : nodeClass ops node ∉ order) :
    v.visited.count ops node.1 = some 0 := by
  rw [h.set.count]
  exact congrArg some (if_neg fun hin => hnew (List.mem_toFinset.mp hin))

theorem Shows.enter (h : Shows ops v order) (exceeds : Nat → Nat → Bool)
    (node : Index × Value) :
    ∃ v', StoredGraph.enter ops exceeds node v = some v' ∧
      Shows ops v' (order ++ [nodeClass ops node]) := by
  have hset : ∃ s' p, v.visited.insert ops exceeds 29 node.1 =
        some (s', p, decide (ops.cls node.1 ∉ order.toFinset)) ∧
      UnorderedSet.Rep ops s' (Insert.insert (ops.cls node.1) order.toFinset) :=
    h.set.insert exceeds node.1
  obtain ⟨visited, p, hinsert, hrep⟩ := hset
  refine ⟨⟨visited, v.calls ++ [node]⟩, ?_, ?_, ?_⟩
  · rw [StoredGraph.enter, hinsert]
    rfl
  · rw [List.toFinset_append, Finset.union_comm]
    exact hrep
  · rw [List.map_append, h.calls]
    rfl

theorem shows_create : Shows ops (⟨UnorderedSet.create 7, []⟩ : Visit Index Value) [] where
  set := UnorderedSet.rep_create ops 7
  calls := rfl

/-- What a search has done from the order `l` on: it came to the nodes of `r` in turn, and
followed all their edges. -/
structure Explored (ops : KeyOps Index) (g : DirectedGraph Index Value) (start : ops.Class)
    (l r : List ops.Class) : Prop where
  found : Found (Leads ops g) start (l ++ r)
  known : ∀ c ∈ l ++ r, c ∈ classes ops g
  closed : ∀ c ∈ r, ∀ d, Leads ops g c d → d ∈ l ++ r

variable {start : ops.Class} {l r t : List ops.Class}

/-- A search has never come to more nodes than there are. -/
theorem Explored.length_le (h : Explored ops g start l r) : (l ++ r).length ≤ g.nodes.length := by
  have hle := (List.subperm_of_subset h.found.nodup h.known).length_le
  rwa [classes, List.length_map] at hle

theorem explored_nil : Explored ops g start [] [] where
  found := found_nil
  known := nofun
  closed := nofun

theorem Explored.open_nil (h : Explored ops g start l r) : Explored ops g start (l ++ r) [] where
  found := (List.append_nil _).symm ▸ h.found
  known := (List.append_nil _).symm ▸ h.known
  closed := nofun

theorem Explored.trans (h : Explored ops g start l r) (h' : Explored ops g start (l ++ r) t) :
    Explored ops g start l (r ++ t) where
  found := List.append_assoc l r t ▸ h'.found
  known := List.append_assoc l r t ▸ h'.known
  closed := fun c hc d hd => by
    rw [← List.append_assoc]
    rcases List.mem_append.mp hc with hc | hc
    · exact List.mem_append_left t (h.closed c hc d hd)
    · exact h'.closed c hc d hd

/-- A new node is entered. -/
theorem Explored.enter {c : ops.Class} (h : Explored ops g start l []) (hc : c ∈ classes ops g)
    (hnew : c ∉ l) (hadj : c = start ∨ ∃ y ∈ l, Leads ops g y c) :
    Explored ops g start (l ++ [c]) [] := by
  have hfound := h.found
  rw [List.append_nil] at hfound
  refine ⟨?_, fun d hd => ?_, nofun⟩
  · rw [List.append_nil]
    exact hfound.concat hnew hadj
  · rw [List.append_nil] at hd
    rcases List.mem_append.mp hd with hd | hd
    · exact h.known d (List.mem_append_left [] hd)
    · rw [List.mem_singleton.mp hd]
      exact hc

/-! Depth first. -/

/-- What a call of `_DFS` for a new node does, when it has come to at least `k` nodes. -/
def Enters (ops : KeyOps Index) (g : DirectedGraph Index Value) (start : ops.Class) (k : Nat)
    (visit : Index × Value → Visit Index Value → Option (Visit Index Value)) : Prop :=
  ∀ node v l, k ≤ l.length → Shows ops v l → Explored ops g start l [] →
    nodeClass ops node ∈ classes ops g → nodeClass ops node ∉ l →
    (nodeClass ops node = start ∨ ∃ c ∈ l, Leads ops g c (nodeClass ops node)) →
    ∃ v' r, visit node v = some v' ∧ Shows ops v' (l ++ nodeClass ops node :: r) ∧
      Explored ops g start l (nodeClass ops node :: r)

theorem Enters.neighbours {k : Nat} {c : ops.Class}
    {visit : Index × Value → Visit Index Value → Option (Visit Index Value)}
    (h : Enters ops g start k visit) (nodes : List (Index × Value))
    (hnodes : ∀ n ∈ nodes, nodeClass ops n ∈ classes ops g ∧ Leads ops g c (nodeClass ops n))
    (hc : c ∈ l) (hk : k ≤ l.length) (hv : Shows ops v l) (hl : Explored ops g start l []) :
    ∃ v' r, nodes.foldlM (fun v n => do
        let count ← v.visited.count ops n.1
        if count = 0 then visit n v else return v) v = some v' ∧
      Shows ops v' (l ++ r) ∧ Explored ops g start l r ∧ ∀ n ∈ nodes, nodeClass ops n ∈ l ++ r := by
  induction nodes generalizing v l with
  | nil => exact ⟨v, [], rfl, (List.append_nil l).symm ▸ hv, hl, nofun⟩
  | cons n nodes ih =>
      have hrest := fun m hm => hnodes m (List.mem_cons_of_mem n hm)
      obtain ⟨hknown, hleads⟩ := hnodes n List.mem_cons_self
      rw [List.foldlM_cons]
      by_cases hin : nodeClass ops n ∈ l
      · rw [hv.count_of_mem hin]
        obtain ⟨v', r, hrun, hshows, hexplored, hall⟩ := ih hrest hc hk hv hl
        refine ⟨v', r, hrun, hshows, hexplored, fun m hm => ?_⟩
        rcases List.mem_cons.mp hm with rfl | hm
        · exact List.mem_append_left r hin
        · exact hall m hm
      · rw [hv.count_of_new hin]
        obtain ⟨v₁, r₁, hvisit, hshows₁, hexplored₁⟩ :=
          h n v l hk hv hl hknown hin (.inr ⟨c, hc, hleads⟩)
        have hk₁ : k ≤ (l ++ nodeClass ops n :: r₁).length := by
          rw [List.length_append]
          omega
        obtain ⟨v', r, hrun, hshows, hexplored, hall⟩ :=
          ih hrest (List.mem_append_left _ hc) hk₁ hshows₁ hexplored₁.open_nil
        refine ⟨v', (nodeClass ops n :: r₁) ++ r, ?_, ?_, hexplored₁.trans hexplored,
          fun m hm => ?_⟩
        · simp only [Option.bind_eq_bind, Option.bind_some, ↓reduceIte, hvisit]
          exact hrun
        · rwa [← List.append_assoc]
        · rw [← List.append_assoc]
          rcases List.mem_cons.mp hm with rfl | hm
          · exact List.mem_append_left r (List.mem_append_right l List.mem_cons_self)
          · exact hall m hm

/-- Each call enters a node more, so the calls end. -/
theorem Stores.enters (h : Stores ops sg g) (exceeds : Nat → Nat → Bool) {k : Nat}
    (hfuel : g.nodes.length < fuel + k) :
    Enters ops g start k (sg.dfsFrom ops exceeds fuel) := by
  induction fuel generalizing k with
  | zero =>
      intro node v l hk hv hl
      have hle := hl.length_le
      rw [List.append_nil] at hle
      omega
  | succ fuel ih =>
      intro node v l hk hv hl hknown hnew hadj
      obtain ⟨nodes, hnodes, hmem, hleads⟩ := h.adjacentNodes hknown
      obtain ⟨v₁, henter, hshows₁⟩ := hv.enter exceeds node
      have hentered := hl.enter hknown hnew hadj
      have hk₁ : k + 1 ≤ (l ++ [nodeClass ops node]).length := by
        rw [List.length_append]
        exact Nat.succ_le_succ hk
      obtain ⟨v', r, hrun, hshows, hexplored, hall⟩ :=
        (ih (k := k + 1) (by omega)).neighbours nodes
          (fun n hn => ⟨hmem n hn, (hleads _).mp ⟨n, hn, rfl⟩⟩)
          (List.mem_append_right l List.mem_cons_self) hk₁ hshows₁ hentered
      rw [List.append_assoc, List.singleton_append] at hshows
      refine ⟨v', r, ?_, hshows, ?_, ?_, fun c hc d hd => ?_⟩
      · rw [StoredGraph.dfsFrom, hnodes, henter]
        exact hrun
      · have hfound := hexplored.found
        rwa [List.append_assoc, List.singleton_append] at hfound
      · have hknown' := hexplored.known
        rwa [List.append_assoc, List.singleton_append] at hknown'
      · have heq : l ++ nodeClass ops node :: r = l ++ [nodeClass ops node] ++ r := by
          rw [List.append_assoc, List.singleton_append]
        rw [heq]
        rcases List.mem_cons.mp hc with rfl | hc
        · obtain ⟨n, hn, rfl⟩ := (hleads d).mpr hd
          exact hall n hn
        · exact hexplored.closed c hc d hd

/-- What a search that followed all edges has come to. -/
theorem Explored.mem_iff (h : Explored ops g start [] order) (hstart : start ∈ order)
    {c : ops.Class} : c ∈ order ↔ Relation.ReflTransGen (Leads ops g) start c := by
  have hfound : Found (Leads ops g) start order := h.found
  exact hfound.mem_iff hstart h.closed

def natOps : KeyOps Nat where
  hash := id
  equal := fun x y => x == y
  equivalence := ⟨beq_self_eq_true, fun h => beq_iff_eq.mpr (beq_iff_eq.mp h).symm,
    fun h h' => beq_iff_eq.mpr ((beq_iff_eq.mp h).trans (beq_iff_eq.mp h'))⟩
  consistent := fun _ _ h => beq_iff_eq.mp h

def cycle : StoredGraph Nat Unit where
  heap := {
    live := fun y => y < 4
    data := fun y => (if y = 0 then 1 else 0, ())
    prev := fun y => if y % 2 = 1 then some (y - 1) else none
    next := fun y => if y % 2 = 0 then some (y + 1) else none
    top := 4 }
  nodes := [((0, ()), ⟨0, 1⟩), ((1, ()), ⟨2, 3⟩)]

def cycleGraph : DirectedGraph Nat Unit where
  nodes := [((0, ()), [(1, ())]), ((1, ()), [(0, ())])]
  size := 2

theorem stores_cycle : Stores natOps cycle cycleGraph where
  bounded := fun y hy => of_decide_eq_true hy
  lists := .cons ⟨rfl, [0, 1], ⟨⟨rfl, rfl, rfl, rfl, rfl, trivial⟩, rfl, by decide⟩, rfl⟩
    (.cons ⟨rfl, [2, 3], ⟨⟨rfl, rfl, rfl, rfl, rfl, trivial⟩, rfl, by decide⟩, rfl⟩ .nil)
  distinct := by decide
  closed := by decide

end StoredGraph

end RebuildTheWheel.TinySTL
