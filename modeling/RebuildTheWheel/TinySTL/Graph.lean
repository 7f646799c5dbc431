import Mathlib.Data.List.Basic
import RebuildTheWheel.Data.Run

namespace RebuildTheWheel.TinySTL

open Data

/-! `directed_graph<Index, Value, EqualFunc>`. Each node is stored with the list of the
nodes its edges lead to, which are copies. -/

structure DirectedGraph (Index Value : Type) where
  nodes : List ((Index × Value) × List (Index × Value))
  size : Nat

namespace DirectedGraph

variable {Index Value : Type}

def new : DirectedGraph Index Value where
  nodes := []
  size := 0

section

variable [BEq Index]

def isContained (g : DirectedGraph Index Value) (index : Index) : Bool :=
  g.nodes.any fun pair => pair.1.1 == index

/-- For an absent index the result is the static `empty_node`. -/
def getNode [Inhabited Index] [Inhabited Value] (g : DirectedGraph Index Value) (index : Index) :
    Index × Value :=
  match g.nodes.find? fun pair => pair.1.1 == index with
  | some pair => pair.1
  | none => default

/-- The pointer `l` of `add_node_helper`: how many nodes stand behind the one whose list it
points to, which no `push_front` changes. It starts without a value, and the loop goes on
after a node was found. -/
def findList (index : Index) :
    List ((Index × Value) × List (Index × Value)) → Option Nat → Option Nat
  | [], l => l
  | pair :: rest, l =>
      findList index rest (if pair.1.1 == index then some rest.length else l)

def pushFront (g : DirectedGraph Index Value) (l : Nat) (item : Index × Value) :
    DirectedGraph Index Value :=
  { g with
    nodes := g.nodes.modify (g.nodes.length - 1 - l) fun pair => (pair.1, item :: pair.2) }

/-- `add_node` up to its call of `add_node_helper`, which returns at once for an empty set. -/
def insertNode (g : DirectedGraph Index Value) (n : Index × Value) : DirectedGraph Index Value :=
  if !g.isContained n.1 then
    { nodes := (n, []) :: g.nodes, size := g.size + 1 }
  else
    g

def pushNodes (l : Nat) : List (Index × Value) → DirectedGraph Index Value →
    DirectedGraph Index Value
  | [], g => g
  | item :: items, g =>
      let g := g.pushFront l item
      pushNodes l items (if !g.isContained item.1 then g.insertNode item else g)

/-- There is no result when the pointer is used without a value. -/
def addNodeHelper (g : DirectedGraph Index Value) (index : Index) (nodes : List (Index × Value)) :
    Option (DirectedGraph Index Value) :=
  if nodes.isEmpty then
    some g
  else do
    let l ← findList index g.nodes none
    return pushNodes l nodes g

def addNode (g : DirectedGraph Index Value) (n : Index × Value) (nodes : List (Index × Value)) :
    Option (DirectedGraph Index Value) :=
  (g.insertNode n).addNodeHelper n.1 nodes

/-- The overload for the index of a node in the graph. -/
def addNodeAt (g : DirectedGraph Index Value) (index : Index) (nodes : List (Index × Value)) :
    Option (DirectedGraph Index Value) :=
  g.addNodeHelper index nodes

def deleteEdges (index : Index) : List (Index × Value) → List (Index × Value)
  | [] => []
  | node :: l => if node.1 == index then deleteEdges index l else node :: deleteEdges index l

def deleteLoop (index : Index) :
    List ((Index × Value) × List (Index × Value)) → List ((Index × Value) × List (Index × Value))
  | [] => []
  | pair :: rest =>
      if pair.1.1 == index then
        deleteLoop index rest
      else
        (pair.1, deleteEdges index pair.2) :: deleteLoop index rest

def deleteNode (g : DirectedGraph Index Value) (index : Index) : DirectedGraph Index Value :=
  { g with nodes := deleteLoop index g.nodes }

def makeEdge [Inhabited Index] [Inhabited Value] (g : DirectedGraph Index Value)
    (index1 index2 : Index) : DirectedGraph Index Value :=
  let node2 := g.getNode index2
  { g with
    nodes := g.nodes.map fun pair =>
      if pair.1.1 == index1 then (pair.1, node2 :: pair.2) else pair }

end

inductive Op (Index Value : Type) where
  | addNode (n : Index × Value) (nodes : List (Index × Value))
  | addNodeAt (index : Index) (nodes : List (Index × Value))
  | deleteNode (index : Index)
  | makeEdge (index1 index2 : Index)

def step [BEq Index] [Inhabited Index] [Inhabited Value] (g : DirectedGraph Index Value) :
    Op Index Value → Option (DirectedGraph Index Value)
  | .addNode n nodes => g.addNode n nodes
  | .addNodeAt index nodes => g.addNodeAt index nodes
  | .deleteNode index => some (g.deleteNode index)
  | .makeEdge index1 index2 => some (g.makeEdge index1 index2)

/-! The graph as the indices of its nodes and the edges between them. -/

def indices (g : DirectedGraph Index Value) : List Index := g.nodes.map fun pair => pair.1.1

def edges (g : DirectedGraph Index Value) : List (Index × Value) := g.nodes.flatMap Prod.snd

theorem indices_pushFront (g : DirectedGraph Index Value) (l : Nat) (item : Index × Value) :
    (g.pushFront l item).indices = g.indices := by
  apply List.ext_getElem?
  intro i
  simp only [indices, pushFront, List.getElem?_map, List.getElem?_modify]
  cases g.nodes[i]? with
  | none => rfl
  | some pair =>
      simp only [Option.map_some]
      split <;> rfl

theorem mem_edges_pushFront {g : DirectedGraph Index Value} {l : Nat} {item node : Index × Value}
    (h : node ∈ (g.pushFront l item).edges) : node = item ∨ node ∈ g.edges := by
  obtain ⟨pair, hpair, hnode⟩ := List.mem_flatMap.mp h
  obtain ⟨i, hi⟩ := List.mem_iff_getElem?.mp hpair
  simp only [pushFront, List.getElem?_modify] at hi
  obtain ⟨old, hold, hmodify⟩ := Option.map_eq_some_iff.mp hi
  have hmem := List.mem_of_getElem? hold
  subst hmodify
  split at hnode
  · rcases List.mem_cons.mp hnode with rfl | hnode
    · exact .inl rfl
    · exact .inr (List.mem_flatMap.mpr ⟨old, hmem, hnode⟩)
  · exact .inr (List.mem_flatMap.mpr ⟨old, hmem, hnode⟩)

variable [BEq Index]

structure Sound (g : DirectedGraph Index Value) : Prop where
  size : g.size = g.nodes.length
  distinct : g.indices.Pairwise fun a b => (a == b) = false
  closed : ∀ node ∈ g.edges, g.isContained node.1 = true

/-- The calls that the operations were written for. A deletion leaves the count behind, an
edge to an absent node leads to `empty_node`, and edges cannot be added to an absent node. -/
def Keeps [Inhabited Index] (g : DirectedGraph Index Value) : Op Index Value → Prop
  | .addNode _ _ => True
  | .addNodeAt index nodes => nodes = [] ∨ g.isContained index = true
  | .deleteNode index => g.isContained index = false
  | .makeEdge index1 index2 =>
      g.isContained index1 = true →
        g.isContained index2 = true ∨ g.isContained (default : Index) = true

theorem isContained_iff {g : DirectedGraph Index Value} {index : Index} :
    g.isContained index = true ↔ ∃ key ∈ g.indices, (key == index) = true := by
  simp [isContained, indices]

theorem new_sound : (new : DirectedGraph Index Value).Sound where
  size := rfl
  distinct := .nil
  closed := fun _ hnode => nomatch hnode

theorem isContained_pushFront (g : DirectedGraph Index Value) (l : Nat) (item : Index × Value)
    (index : Index) : (g.pushFront l item).isContained index = g.isContained index := by
  rw [Bool.eq_iff_iff, isContained_iff, isContained_iff, indices_pushFront]

theorem Sound.pushFront {g : DirectedGraph Index Value} (h : g.Sound) (l : Nat)
    {item : Index × Value} (hitem : g.isContained item.1 = true) : (g.pushFront l item).Sound where
  size := by
    rw [DirectedGraph.pushFront, List.length_modify]
    exact h.size
  distinct := by
    rw [indices_pushFront]
    exact h.distinct
  closed := by
    intro node hnode
    rw [isContained_pushFront]
    rcases mem_edges_pushFront hnode with rfl | hold
    · exact hitem
    · exact h.closed node hold

theorem insertNode_edges (g : DirectedGraph Index Value) (n : Index × Value) :
    (g.insertNode n).edges = g.edges := by
  rw [insertNode]
  split <;> rfl

section

variable [EquivBEq Index]

theorem isContained_insertNode (g : DirectedGraph Index Value) (n : Index × Value)
    (index : Index) :
    (g.insertNode n).isContained index = (g.isContained index || n.1 == index) := by
  rw [insertNode]
  by_cases hcontained : g.isContained n.1 = true
  · rw [if_neg (by simp [hcontained]), Bool.eq_iff_iff, Bool.or_eq_true]
    refine ⟨.inl, fun h => h.elim id fun heq => ?_⟩
    obtain ⟨key, hkey, hsame⟩ := isContained_iff.mp hcontained
    exact isContained_iff.mpr ⟨key, hkey, BEq.trans hsame heq⟩
  · rw [if_pos (by simp [hcontained]), Bool.or_comm]
    rfl

/-- The edges of the graph may already lead to the node that is added. -/
theorem insertNode_sound {g : DirectedGraph Index Value} {n : Index × Value}
    (hsize : g.size = g.nodes.length) (hdistinct : g.indices.Pairwise fun a b => (a == b) = false)
    (hclosed : ∀ node ∈ g.edges, g.isContained node.1 = true ∨ node = n) :
    (g.insertNode n).Sound where
  size := by
    rw [insertNode]
    split
    · exact congrArg (· + 1) hsize
    · exact hsize
  distinct := by
    rw [insertNode]
    split
    · rename_i hnew
      refine List.pairwise_cons.mpr ⟨fun key hkey => ?_, hdistinct⟩
      by_contra hsame
      have hcontained := isContained_iff.mpr
        ⟨key, hkey, BEq.symm (Bool.eq_true_of_not_eq_false hsame)⟩
      rw [hcontained] at hnew
      exact Bool.false_ne_true hnew
    · exact hdistinct
  closed := by
    intro node hnode
    rw [insertNode_edges] at hnode
    rw [isContained_insertNode, Bool.or_eq_true]
    rcases hclosed node hnode with hold | rfl
    · exact .inl hold
    · exact .inr BEq.rfl

theorem pushNodes_sound (l : Nat) : ∀ (items : List (Index × Value))
    {g : DirectedGraph Index Value}, g.Sound → (pushNodes l items g).Sound
  | [], _, h => h
  | item :: items, g, h => by
      rw [pushNodes]
      apply pushNodes_sound l items
      split
      · apply insertNode_sound
        · rw [DirectedGraph.pushFront, List.length_modify]
          exact h.size
        · rw [indices_pushFront]
          exact h.distinct
        · intro node hnode
          rw [isContained_pushFront]
          rcases mem_edges_pushFront hnode with rfl | hold
          · exact .inr rfl
          · exact .inl (h.closed node hold)
      · rename_i hold
        apply h.pushFront
        rw [isContained_pushFront] at hold
        simpa using hold

end

theorem findList_isSome (index : Index) :
    ∀ (nodes : List ((Index × Value) × List (Index × Value))) (l : Option Nat),
      (findList index nodes l).isSome =
        (l.isSome || nodes.any fun pair => pair.1.1 == index)
  | [], l => by simp [findList]
  | pair :: rest, l => by
      rw [findList, findList_isSome index rest, List.any_cons]
      cases pair.1.1 == index <;> simp

/-- New edges can be added exactly to a node of the graph. -/
theorem addNodeHelper_isSome (g : DirectedGraph Index Value) (index : Index)
    (nodes : List (Index × Value)) :
    (g.addNodeHelper index nodes).isSome = true ↔ nodes = [] ∨ g.isContained index = true := by
  rw [addNodeHelper]
  cases nodes with
  | nil => simp
  | cons item items =>
      have hfind := findList_isSome index g.nodes none
      rw [← isContained] at hfind
      cases hl : findList index g.nodes none <;> simp_all

/-! Each operation on a sound graph. -/

section

variable [EquivBEq Index] {g g' : DirectedGraph Index Value}

theorem Sound.addNodeHelper (h : g.Sound) {index : Index} {nodes : List (Index × Value)}
    (hrun : g.addNodeHelper index nodes = some g') : g'.Sound := by
  rw [DirectedGraph.addNodeHelper] at hrun
  split at hrun
  · obtain rfl := Option.some.inj hrun
    exact h
  · obtain ⟨l, -, hl⟩ := Option.bind_eq_some_iff.mp hrun
    obtain rfl := Option.some.inj hl
    exact pushNodes_sound l nodes h

theorem Sound.insertNode (h : g.Sound) (n : Index × Value) : (g.insertNode n).Sound :=
  insertNode_sound h.size h.distinct fun node hnode => .inl (h.closed node hnode)

theorem addNode_isSome (g : DirectedGraph Index Value) (n : Index × Value)
    (nodes : List (Index × Value)) : (g.addNode n nodes).isSome = true := by
  apply (addNodeHelper_isSome _ _ _).mpr
  right
  rw [isContained_insertNode, BEq.rfl, Bool.or_true]

end

theorem deleteEdges_eq_self {index : Index} : ∀ {l : List (Index × Value)},
    (∀ node ∈ l, (node.1 == index) = false) → deleteEdges index l = l
  | [], _ => rfl
  | node :: l, h => by
      rw [deleteEdges, if_neg (by simp [h node List.mem_cons_self]),
        deleteEdges_eq_self fun other hother => h other (List.mem_cons_of_mem _ hother)]

theorem deleteLoop_eq_self {index : Index} :
    ∀ {nodes : List ((Index × Value) × List (Index × Value))},
      (∀ pair ∈ nodes, (pair.1.1 == index) = false) →
      (∀ pair ∈ nodes, ∀ node ∈ pair.2, (node.1 == index) = false) →
      deleteLoop index nodes = nodes
  | [], _, _ => rfl
  | pair :: rest, hkeys, hedges => by
      rw [deleteLoop, if_neg (by simp [hkeys pair List.mem_cons_self]),
        deleteEdges_eq_self (hedges pair List.mem_cons_self),
        deleteLoop_eq_self (fun other hother => hkeys other (List.mem_cons_of_mem _ hother))
          fun other hother => hedges other (List.mem_cons_of_mem _ hother)]

theorem deleteLoop_length_le (index : Index) :
    ∀ nodes : List ((Index × Value) × List (Index × Value)),
      (deleteLoop index nodes).length ≤ nodes.length
  | [] => Nat.le_refl _
  | pair :: rest => by
      have hrest := deleteLoop_length_le index rest
      rw [deleteLoop]
      split
      · exact Nat.le_succ_of_le hrest
      · exact Nat.succ_le_succ hrest

theorem deleteLoop_length_lt {index : Index} :
    ∀ {nodes : List ((Index × Value) × List (Index × Value))},
      (nodes.any fun pair => pair.1.1 == index) = true →
        (deleteLoop index nodes).length < nodes.length
  | [], h => nomatch h
  | pair :: rest, h => by
      rw [deleteLoop]
      split
      · exact Nat.lt_succ_of_le (deleteLoop_length_le index rest)
      · rename_i hpair
        rw [List.any_cons, Bool.or_eq_true] at h
        exact Nat.succ_lt_succ (deleteLoop_length_lt (h.resolve_left hpair))

/-- The deletion of a node of the graph leaves the count behind. -/
theorem Sound.deleteNode_iff [EquivBEq Index] {g : DirectedGraph Index Value} (h : g.Sound)
    (index : Index) : (g.deleteNode index).Sound ↔ g.isContained index = false := by
  constructor
  · intro hsound
    by_contra hcontained
    have hlt := deleteLoop_length_lt (Bool.eq_true_of_not_eq_false hcontained)
    have hsize : g.size = (deleteLoop index g.nodes).length := hsound.size
    have hold := h.size
    omega
  · intro hcontained
    have hself : g.deleteNode index = g := by
      rw [deleteNode, deleteLoop_eq_self]
      · intro pair hpair
        by_contra hsame
        rw [isContained_iff.mpr ⟨pair.1.1, List.mem_map_of_mem hpair,
          Bool.eq_true_of_not_eq_false hsame⟩] at hcontained
        cases hcontained
      · intro pair hpair node hnode
        by_contra hsame
        obtain ⟨key, hkey, hkeyNode⟩ := isContained_iff.mp
          (h.closed node (List.mem_flatMap.mpr ⟨pair, hpair, hnode⟩))
        rw [isContained_iff.mpr ⟨key, hkey,
          BEq.trans hkeyNode (Bool.eq_true_of_not_eq_false hsame)⟩] at hcontained
        cases hcontained
    rw [hself]
    exact h

section

variable [Inhabited Index] [Inhabited Value]

theorem isContained_getNode [EquivBEq Index] (g : DirectedGraph Index Value) (index : Index) :
    g.isContained (g.getNode index).1 =
      (g.isContained index || g.isContained (default : Index)) := by
  rw [getNode]
  cases hfind : g.nodes.find? fun pair => pair.1.1 == index with
  | none =>
      have hnone : g.isContained index = false := by
        rw [isContained, List.any_eq_false]
        exact List.find?_eq_none.mp hfind
      rw [hnone, Bool.false_or]
      rfl
  | some pair =>
      have hmem := List.mem_map_of_mem (f := fun pair => pair.1.1) (List.mem_of_find?_eq_some hfind)
      have hsame := List.find?_some hfind
      have hcontained : g.isContained index = true := isContained_iff.mpr ⟨_, hmem, hsame⟩
      have hself : g.isContained pair.1.1 = true := isContained_iff.mpr ⟨_, hmem, BEq.rfl⟩
      rw [hcontained, Bool.true_or]
      exact hself

theorem indices_makeEdge (g : DirectedGraph Index Value) (index1 index2 : Index) :
    (g.makeEdge index1 index2).indices = g.indices := by
  rw [indices, makeEdge, List.map_map]
  apply List.map_congr_left
  intro pair _
  simp only [Function.comp_apply]
  split <;> rfl

theorem isContained_makeEdge (g : DirectedGraph Index Value) (index1 index2 index : Index) :
    (g.makeEdge index1 index2).isContained index = g.isContained index := by
  rw [Bool.eq_iff_iff, isContained_iff, isContained_iff, indices_makeEdge]

theorem mem_edges_makeEdge {g : DirectedGraph Index Value} {index1 index2 : Index}
    {node : Index × Value} :
    node ∈ (g.makeEdge index1 index2).edges ↔
      node ∈ g.edges ∨ node = g.getNode index2 ∧ g.isContained index1 = true := by
  simp only [edges, makeEdge, List.mem_flatMap, List.mem_map, isContained, List.any_eq_true]
  constructor
  · rintro ⟨-, ⟨pair, hpair, rfl⟩, hnode⟩
    split at hnode
    · rename_i hsame
      rcases List.mem_cons.mp hnode with rfl | hnode
      · exact .inr ⟨rfl, pair, hpair, hsame⟩
      · exact .inl ⟨pair, hpair, hnode⟩
    · exact .inl ⟨pair, hpair, hnode⟩
  · rintro (⟨pair, hpair, hnode⟩ | ⟨rfl, pair, hpair, hsame⟩)
    · refine ⟨_, ⟨pair, hpair, rfl⟩, ?_⟩
      split
      · exact List.mem_cons_of_mem _ hnode
      · exact hnode
    · refine ⟨_, ⟨pair, hpair, rfl⟩, ?_⟩
      rw [if_pos hsame]
      exact List.mem_cons_self

/-- An edge to an absent node leads to `empty_node`. -/
theorem Sound.makeEdge_iff [EquivBEq Index] {g : DirectedGraph Index Value} (h : g.Sound)
    (index1 index2 : Index) :
    (g.makeEdge index1 index2).Sound ↔
      (g.isContained index1 = true →
        g.isContained index2 = true ∨ g.isContained (default : Index) = true) := by
  rw [← Bool.or_eq_true, ← isContained_getNode]
  constructor
  · intro hsound hcontained
    rw [← isContained_makeEdge g index1 index2]
    exact hsound.closed _ (mem_edges_makeEdge.mpr (.inr ⟨rfl, hcontained⟩))
  · intro hkeeps
    refine ⟨?_, ?_, ?_⟩
    · rw [makeEdge, List.length_map]
      exact h.size
    · rw [indices_makeEdge]
      exact h.distinct
    · intro node hnode
      rw [isContained_makeEdge]
      rcases mem_edges_makeEdge.mp hnode with hold | ⟨rfl, hcontained⟩
      · exact h.closed node hold
      · exact hkeeps hcontained

/-- A step is sound exactly when its call is one that the operation was written for. -/
theorem step_sound_iff [EquivBEq Index] {g : DirectedGraph Index Value} (h : g.Sound)
    (op : Op Index Value) : (∃ g', g.step op = some g' ∧ g'.Sound) ↔ g.Keeps op := by
  cases op with
  | addNode n nodes =>
      obtain ⟨g', hrun⟩ := Option.isSome_iff_exists.mp (g.addNode_isSome n nodes)
      exact iff_of_true ⟨g', hrun, (h.insertNode n).addNodeHelper hrun⟩ trivial
  | addNodeAt index nodes =>
      refine Iff.trans ?_ (g.addNodeHelper_isSome index nodes)
      rw [Option.isSome_iff_exists]
      exact exists_congr fun g' => and_iff_left_of_imp h.addNodeHelper
  | deleteNode index =>
      refine Iff.trans ?_ (h.deleteNode_iff index)
      simp [step]
  | makeEdge index1 index2 =>
      refine Iff.trans ?_ (h.makeEdge_iff index1 index2)
      simp [step]

/-- Runs whose calls the operations were written for keep the graph sound. -/
theorem directed_graph_run [EquivBEq Index] (ops : List (Op Index Value))
    (hops : Run.Guarded step Keeps new ops) :
    ∃ g, ops.foldlM step (new : DirectedGraph Index Value) = some g ∧ g.Sound :=
  Run.defined_of_guarded (fun _ op h hkeeps => (step_sound_iff h op).mpr hkeeps)
    ops new_sound hops

end

theorem directed_graph_run_pair : ∃ g,
    [Op.addNode (1, 10) [(2, 20)], .makeEdge 2 1, .deleteNode 3].foldlM step
      (new : DirectedGraph Nat Nat) = some g ∧ g.Sound := by
  refine directed_graph_run _ ⟨trivial, fun g hg => ?_⟩
  obtain rfl := Option.some.inj hg
  refine ⟨fun _ => .inl rfl, fun g hg => ?_⟩
  obtain rfl := Option.some.inj hg
  exact ⟨rfl, fun _ _ => trivial⟩

/-- A node is added and deleted again: the graph is empty, and its size is 1. -/
theorem size_after_delete :
    ¬∃ g, [Op.addNode (1, 10) [], .deleteNode 1].foldlM step
      (new : DirectedGraph Nat Nat) = some g ∧ g.Sound := by
  rintro ⟨g, hrun, hsound⟩
  obtain rfl := Option.some.inj hrun
  cases hsound.size

end DirectedGraph

end RebuildTheWheel.TinySTL
