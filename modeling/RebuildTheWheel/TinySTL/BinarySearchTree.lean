import Mathlib.Data.Finset.Max
import Mathlib.Order.Bounds.Basic
import RebuildTheWheel.Data.Run
import RebuildTheWheel.Data.SearchTree

namespace RebuildTheWheel.TinySTL

open RebuildTheWheel.Data
open RebuildTheWheel.Data.SearchTree

/-! `binary_search_tree<T>`. A node pointer is the subtree it points to, the
null pointer is `nil`, and a reference parameter `node *&ptr` is the subtree
returned in its place. `none` stands for a null dereference. -/

structure BinarySearchTree (T : Type*) where
  root : BinaryTree T
  size : Nat

namespace BinarySearchTree

variable {T : Type*} [LinearOrder T]

def findMinAux (ptr : BinaryTree T) : BinaryTree T := leftmost ptr

def findMaxAux (ptr : BinaryTree T) : BinaryTree T := rightmost ptr

def findAux (val : T) : BinaryTree T → BinaryTree T
  | .nil => .nil
  | .node data left right =>
      if val = data then .node data left right
      else if val < data then findAux val left
      else findAux val right

def insertElem (val : T) : BinaryTree T → Nat → BinaryTree T × Nat
  | .nil, size => (.node val .nil .nil, size + 1)
  | .node data left right, size =>
      if val < data then
        let (left, size) := insertElem val left size
        (.node data left right, size)
      else if val > data then
        let (right, size) := insertElem val right size
        (.node data left right, size)
      else (.node data left right, size)

def eraseElem (val : T) : BinaryTree T → Nat → Option (BinaryTree T × Nat)
  | .nil, size => some (.nil, size)
  | .node data left right, size =>
      if data ≠ val then
        if val < data then do
          let (left, size) ← eraseElem val left size
          some (.node data left right, size)
        else do
          let (right, size) ← eraseElem val right size
          some (.node data left right, size)
      else if !isNil left && !isNil right then
        if size % 2 = 0 then do
          let pos ← root? (findMinAux right)
          let (right, size) ← eraseElem pos right size
          some (.node pos left right, size)
        else do
          let pos ← root? (findMaxAux left)
          let (left, size) ← eraseElem pos left size
          some (.node pos left right, size)
      else if isNil left then some (right, size - 1)
      else some (left, size - 1)

def empty : BinarySearchTree T := ⟨.nil, 0⟩

def insert (tree : BinarySearchTree T) (val : T) : BinarySearchTree T :=
  let (root, size) := insertElem val tree.root tree.size
  ⟨root, size⟩

def erase (tree : BinarySearchTree T) (val : T) : Option (BinarySearchTree T) := do
  let (root, size) ← eraseElem val tree.root tree.size
  some ⟨root, size⟩

def find (tree : BinarySearchTree T) (val : T) : BinaryTree T :=
  findAux val tree.root

def findMin (tree : BinarySearchTree T) : BinaryTree T :=
  findMinAux tree.root

def findMax (tree : BinarySearchTree T) : BinaryTree T :=
  findMaxAux tree.root

/-! Recursive calls, one lemma for each. -/

theorem ordered_insertElem (val : T) (ptr : BinaryTree T) (size : Nat)
    (hptr : Ordered id ptr) :
    Ordered id (insertElem val ptr size).1 ∧
      ∀ k, k ∈ keys id (insertElem val ptr size).1 ↔ k = val ∨ k ∈ keys id ptr := by
  induction ptr generalizing size with
  | nil => simp [insertElem, Ordered]
  | node data left right ihLeft ihRight =>
      rcases lt_trichotomy val data with hlt | rfl | hgt
      · obtain ⟨hord, hmem⟩ := ihLeft size hptr.left
        simp only [insertElem, if_pos hlt]
        constructor
        · rw [ordered_node]
          refine ⟨hord, hptr.right, fun k hk => ?_, hptr.root_lt⟩
          rcases (hmem k).mp hk with rfl | hk
          · exact hlt
          · exact hptr.lt_root k hk
        · intro k
          simp only [keys_node, List.mem_append, hmem k, or_assoc]
      · simp [insertElem, hptr]
      · obtain ⟨hord, hmem⟩ := ihRight size hptr.right
        simp only [insertElem, if_neg (lt_asymm hgt), if_pos hgt]
        constructor
        · rw [ordered_node]
          refine ⟨hptr.left, hord, hptr.lt_root, fun k hk => ?_⟩
          rcases (hmem k).mp hk with rfl | hk
          · exact hgt
          · exact hptr.root_lt k hk
        · intro k
          simp only [keys_node, List.mem_append, List.mem_cons, hmem k]
          tauto

theorem size_insertElem (val : T) (ptr : BinaryTree T) (size : Nat) :
    (insertElem val ptr size).2 + ptr.numNodes =
      size + (insertElem val ptr size).1.numNodes := by
  induction ptr generalizing size with
  | nil => simp [insertElem]
  | node data left right ihLeft ihRight =>
      have hleft := ihLeft size
      have hright := ihRight size
      simp only [insertElem]
      split_ifs <;> simp only [BinaryTree.numNodes] <;> omega

/-- `erase_elem` never dereferences null, drops exactly `val` and keeps the
order of the rest, and moves `size_` as it moves the number of nodes. -/
theorem eraseElem_spec (val : T) (ptr : BinaryTree T) (size : Nat)
    (hptr : Ordered id ptr) (hsize : ptr.numNodes ≤ size) :
    ∃ ptr' size', eraseElem val ptr size = some (ptr', size') ∧
      keys id ptr' = (keys id ptr).filter (· ≠ val) ∧
      size' + ptr.numNodes = size + ptr'.numNodes := by
  induction ptr generalizing val size with
  | nil => exact ⟨.nil, size, rfl, rfl, rfl⟩
  | node data left right ihLeft ihRight =>
      simp only [BinaryTree.numNodes] at hsize
      rcases lt_trichotomy val data with hlt | rfl | hgt
      · obtain ⟨left', size', herase, hkeys, hcount⟩ :=
          ihLeft val size hptr.left (by omega)
        refine ⟨.node data left' right, size', ?_, ?_, ?_⟩
        · simp [eraseElem, hlt.ne', hlt, herase]
        · rw [hptr.filter_ne_left hlt, keys_node, hkeys]
        · simp only [BinaryTree.numNodes]
          omega
      · have hfilter : (keys id (.node val left right)).filter (· ≠ val) =
            keys id left ++ keys id right := hptr.filter_ne_root
        by_cases hleft : left = .nil
        · subst hleft
          refine ⟨right, size - 1, by simp [eraseElem], hfilter.symm, ?_⟩
          simp only [BinaryTree.numNodes] at hsize ⊢
          omega
        by_cases hright : right = .nil
        · subst hright
          refine ⟨left, size - 1, by simp [eraseElem, hleft], ?_, ?_⟩
          · simpa using hfilter.symm
          · simp only [BinaryTree.numNodes] at hsize ⊢
            omega
        · by_cases hchoose : size % 2 = 0
          · -- the successor moves up and is erased from the right subtree
            have hroot := map_root?_leftmost id right
            rw [Option.map_id, id] at hroot
            obtain ⟨pos, hpos⟩ : ∃ pos, (keys id right).head? = some pos :=
              Option.isSome_iff_exists.mp (by simpa [keys_eq_nil] using hright)
            obtain ⟨right', size', herase, hkeys, hcount⟩ :=
              ihRight pos size hptr.right (by omega)
            refine ⟨.node pos left right', size', ?_, ?_, ?_⟩
            · simp [eraseElem, hleft, hright, hchoose, findMinAux, hroot, hpos, herase]
            · rw [hfilter, keys_node, hkeys]
              exact congrArg (keys id left ++ ·)
                (cons_filter_ne_of_head? hptr.right.nodup hpos)
            · simp only [BinaryTree.numNodes]
              omega
          · have hroot := map_root?_rightmost id left
            rw [Option.map_id, id] at hroot
            obtain ⟨pos, hpos⟩ : ∃ pos, (keys id left).getLast? = some pos :=
              Option.isSome_iff_exists.mp (by simpa [keys_eq_nil] using hleft)
            obtain ⟨left', size', herase, hkeys, hcount⟩ :=
              ihLeft pos size hptr.left (by omega)
            refine ⟨.node pos left' right, size', ?_, ?_, ?_⟩
            · simp [eraseElem, hleft, hright, hchoose, findMaxAux, hroot, hpos, herase]
            · rw [hfilter, keys_node, hkeys]
              have hlast := filter_ne_append_of_getLast? hptr.left.nodup hpos
              calc (keys id left).filter (· ≠ pos) ++ id pos :: keys id right
                  = ((keys id left).filter (· ≠ pos) ++ [pos]) ++ keys id right := by simp
                _ = keys id left ++ keys id right := by rw [hlast]
            · simp only [BinaryTree.numNodes]
              omega
      · obtain ⟨right', size', herase, hkeys, hcount⟩ :=
          ihRight val size hptr.right (by omega)
        refine ⟨.node data left right', size', ?_, ?_, ?_⟩
        · simp [eraseElem, hgt.ne, lt_asymm hgt, herase]
        · rw [hptr.filter_ne_right hgt, keys_node, hkeys]
        · simp only [BinaryTree.numNodes]
          omega

theorem root?_findAux (val : T) (ptr : BinaryTree T) (hptr : Ordered id ptr) :
    root? (findAux val ptr) = if val ∈ keys id ptr then some val else none := by
  induction ptr with
  | nil => simp [findAux, root?]
  | node data left right ihLeft ihRight =>
      rcases lt_trichotomy val data with hlt | rfl | hgt
      · rw [findAux, if_neg hlt.ne, if_pos hlt, ihLeft hptr.left]
        simp only [hptr.mem_of_lt (k := val) hlt]
      · simp [findAux, root?]
      · rw [findAux, if_neg hgt.ne', if_neg (lt_asymm hgt), ihRight hptr.right]
        simp only [hptr.mem_of_gt (k := val) hgt]

/-- What the tree stores, as a set: the abstraction under which `insert` and
`erase` are the operations of a finite set. -/
structure Represents (tree : BinarySearchTree T) (s : Finset T) : Prop where
  ordered : Ordered id tree.root
  mem_keys : ∀ k, k ∈ keys id tree.root ↔ k ∈ s
  size_eq : tree.size = tree.root.numNodes

def step (tree : BinarySearchTree T) : SetOp T → Option (BinarySearchTree T)
  | .insert val => some (tree.insert val)
  | .erase val => tree.erase val

namespace Represents

variable {tree : BinarySearchTree T} {s : Finset T}

theorem empty : Represents (BinarySearchTree.empty : BinarySearchTree T) ∅ :=
  ⟨List.Pairwise.nil, by simp [BinarySearchTree.empty], rfl⟩

theorem insert (h : Represents tree s) (val : T) :
    Represents (tree.insert val) (Insert.insert val s) := by
  obtain ⟨hord, hmem⟩ := ordered_insertElem val tree.root tree.size h.ordered
  refine ⟨hord, fun k => ?_, ?_⟩
  · rw [Finset.mem_insert, ← h.mem_keys]
    exact hmem k
  · have hcount := size_insertElem val tree.root tree.size
    have hsize := h.size_eq
    simp only [BinarySearchTree.insert]
    omega

theorem erase (h : Represents tree s) (val : T) :
    ∃ tree', tree.erase val = some tree' ∧ Represents tree' (s.erase val) := by
  obtain ⟨root, size, herase, hkeys, hcount⟩ :=
    eraseElem_spec val tree.root tree.size h.ordered h.size_eq.ge
  refine ⟨⟨root, size⟩, by simp [BinarySearchTree.erase, herase], ?_, ?_, ?_⟩
  · exact h.ordered.of_filter hkeys
  · intro k
    simp only [hkeys, List.mem_filter, decide_eq_true_eq, h.mem_keys, Finset.mem_erase]
    exact and_comm
  · have hsize := h.size_eq
    dsimp only
    omega

theorem step (h : Represents tree s) (op : SetOp T) :
    ∃ tree', tree.step op = some tree' ∧ Represents tree' (op.apply s) := by
  cases op with
  | insert val => exact ⟨tree.insert val, rfl, h.insert val⟩
  | erase val => exact h.erase val

theorem find (h : Represents tree s) (val : T) :
    root? (tree.find val) = if val ∈ s then some val else none := by
  rw [BinarySearchTree.find, root?_findAux val tree.root h.ordered]
  simp only [h.mem_keys]

theorem isLeast_findMin (h : Represents tree s) (m : T) :
    root? tree.findMin = some m ↔ IsLeast (s : Set T) m := by
  have hset : {k | k ∈ keys id tree.root} = (s : Set T) := Set.ext h.mem_keys
  have hleast := h.ordered.isLeast_leftmost m
  rwa [Option.map_id, id, hset] at hleast

theorem isGreatest_findMax (h : Represents tree s) (m : T) :
    root? tree.findMax = some m ↔ IsGreatest (s : Set T) m := by
  have hset : {k | k ∈ keys id tree.root} = (s : Set T) := Set.ext h.mem_keys
  have hgreatest := h.ordered.isGreatest_rightmost m
  rwa [Option.map_id, id, hset] at hgreatest

theorem size_eq_card (h : Represents tree s) : tree.size = s.card := by
  have hset : (keys id tree.root).toFinset = s := by
    ext k
    rw [List.mem_toFinset, h.mem_keys]
  rw [h.size_eq, ← length_keys id, ← hset, List.toFinset_card_of_nodup h.ordered.nodup]

end Represents

/-- Along every run of `insert` and `erase` from the empty tree, the tree is a
search tree without duplicates and answers as the finite set of its contents. -/
theorem refines_finset (ops : List (SetOp T)) :
    ∃ tree, ops.foldlM step empty = some tree ∧
      Ordered id tree.root ∧
      (∀ k, k ∈ keys id tree.root ↔ k ∈ SetOp.contents ops) ∧
      (∀ val, root? (tree.find val) =
        if val ∈ SetOp.contents ops then some val else none) ∧
      (∀ m, root? tree.findMin = some m ↔ IsLeast (SetOp.contents ops : Set T) m) ∧
      (∀ m, root? tree.findMax = some m ↔ IsGreatest (SetOp.contents ops : Set T) m) ∧
      tree.size = (SetOp.contents ops).card := by
  obtain ⟨tree, hrun, htree⟩ :=
    Run.simulates Represents (fun _ _ op h => h.step op) ops Represents.empty
  exact ⟨tree, hrun, htree.ordered, htree.mem_keys, htree.find, htree.isLeast_findMin,
    htree.isGreatest_findMax, htree.size_eq_card⟩

example : (([.insert 2, .insert 1, .insert 3, .erase 2] : List (SetOp Nat)).foldlM
    step empty).map (fun tree => keys id tree.root) = some [1, 3] := by decide

end BinarySearchTree

end RebuildTheWheel.TinySTL
