import RebuildTheWheel.TinySTL.BinarySearchTree

namespace RebuildTheWheel.TinySTL

open RebuildTheWheel.Data
open RebuildTheWheel.Data.SearchTree

/-! `avl_tree<T>`. As for `binary_search_tree`, a node pointer is the subtree it
points to and `none` is a null dereference. Heights are `size_t` in the source
and natural numbers here; a difference compared with 2 is the same in both. -/

namespace AvlTree

/-- `avl_tree<T>::node` without its links. -/
structure NodeData (T : Type*) where
  data : T
  height : Nat

end AvlTree

structure AvlTree (T : Type*) where
  root : BinaryTree (AvlTree.NodeData T)
  size : Nat

namespace AvlTree

variable {T : Type*}

abbrev Node (T : Type*) := BinaryTree (NodeData T)

def getHeight : Node T → Nat
  | .nil => 0
  | .node x _ _ => x.height

def updateHeight : Node T → Node T
  | .nil => .nil
  | .node x left right =>
      .node { x with height := max (getHeight left) (getHeight right) + 1 } left right

def singleLeftLeftRotate : Node T → Option (Node T)
  | .node k2 (.node k1 left middle) right =>
      some (updateHeight (.node k1 left (updateHeight (.node k2 middle right))))
  | _ => none

def singleRightRightRotate : Node T → Option (Node T)
  | .node k2 left (.node k1 middle right) =>
      some (updateHeight (.node k1 (updateHeight (.node k2 left middle)) right))
  | _ => none

def doubleLeftRightRotate : Node T → Option (Node T)
  | .node k3 left right => do
      let left ← singleRightRightRotate left
      singleLeftLeftRotate (.node k3 left right)
  | .nil => none

def doubleRightLeftRotate : Node T → Option (Node T)
  | .node k3 left right => do
      let right ← singleLeftLeftRotate right
      singleRightRightRotate (.node k3 left right)
  | .nil => none

variable [LinearOrder T]

def findMinAux (ptr : Node T) : Node T := leftmost ptr

def findMaxAux (ptr : Node T) : Node T := rightmost ptr

def findAux (val : T) : Node T → Node T
  | .nil => .nil
  | .node x left right =>
      if x.data < val then findAux val right
      else if x.data > val then findAux val left
      else .node x left right

/-- `insert_elem` after its recursive call on the right child. -/
def insertRebalanceRight (val : T) (x : NodeData T) (left right : Node T) :
    Option (Node T) :=
  if getHeight right - getHeight left = 2 then do
    let child ← root? right
    if val > child.data then singleRightRightRotate (.node x left right)
    else doubleRightLeftRotate (.node x left right)
  else some (.node x left right)

/-- `insert_elem` after its recursive call on the left child. -/
def insertRebalanceLeft (val : T) (x : NodeData T) (left right : Node T) :
    Option (Node T) :=
  if getHeight left - getHeight right = 2 then do
    let child ← root? left
    if val < child.data then singleLeftLeftRotate (.node x left right)
    else doubleLeftRightRotate (.node x left right)
  else some (.node x left right)

def insertElem (val : T) : Node T → Nat → Option (Node T × Nat)
  | .nil, size => some (updateHeight (.node ⟨val, 1⟩ .nil .nil), size + 1)
  | .node x left right, size =>
      if x.data < val then do
        let (right, size) ← insertElem val right size
        let p ← insertRebalanceRight val x left right
        some (updateHeight p, size)
      else if x.data > val then do
        let (left, size) ← insertElem val left size
        let p ← insertRebalanceLeft val x left right
        some (updateHeight p, size)
      else some (updateHeight (.node x left right), size)

/-- The tail of `erase_elem`, reached in the one call that unlinked a node. The
root a rotation returns is dropped: the slot goes on holding the old root, which
the rotation has made a child of the new one. -/
def eraseRebalance : Node T → Option (Node T)
  | .nil => some .nil
  | .node x left right =>
      let p := updateHeight (.node x left right)
      if getHeight left - getHeight right = 2 then
        match left with
        | .nil => none
        | .node _ _ inner =>
            (if isNil inner then singleLeftLeftRotate p else doubleLeftRightRotate p).map
              BinaryTree.right
      else if getHeight right - getHeight left = 2 then
        match right with
        | .nil => none
        | .node _ inner _ =>
            (if isNil inner then singleRightRightRotate p else doubleRightLeftRotate p).map
              BinaryTree.left
      else some p

/-- The recursive calls are `return` statements, so only the call that unlinks
a node reaches `eraseRebalance`. -/
def eraseElem (val : T) : Node T → Nat → Option (Node T × Nat)
  | .nil, size => some (.nil, size)
  | .node x left right, size =>
      if x.data ≠ val then
        if val < x.data then do
          let (left, size) ← eraseElem val left size
          some (.node x left right, size)
        else do
          let (right, size) ← eraseElem val right size
          some (.node x left right, size)
      else if !isNil left && !isNil right then
        if size % 2 = 0 then do
          let pos ← root? (findMinAux right)
          let (right, size) ← eraseElem pos.data right size
          some (.node { x with data := pos.data } left right, size)
        else do
          let pos ← root? (findMaxAux left)
          let (left, size) ← eraseElem pos.data left size
          some (.node { x with data := pos.data } left right, size)
      else do
        let p ← eraseRebalance (if isNil left then right else left)
        some (p, size - 1)

def empty : AvlTree T := ⟨.nil, 0⟩

def insert (tree : AvlTree T) (val : T) : Option (AvlTree T) := do
  let (root, size) ← insertElem val tree.root tree.size
  some ⟨root, size⟩

def erase (tree : AvlTree T) (val : T) : Option (AvlTree T) := do
  let (root, size) ← eraseElem val tree.root tree.size
  some ⟨root, size⟩

/-! The invariant: cached heights are heights, and siblings differ by at most
one. -/

def HeightsCorrect (tree : Node T) : Prop :=
  Every (fun x left right => x.height = 1 + max left.height right.height) tree

def Balanced (tree : Node T) : Prop :=
  Every (fun _ left right =>
    left.height ≤ right.height + 1 ∧ right.height ≤ left.height + 1) tree

structure IsAvl (tree : Node T) : Prop where
  heights : HeightsCorrect tree
  balanced : Balanced tree

omit [LinearOrder T] in
@[simp] theorem isAvl_nil : IsAvl (.nil : Node T) := ⟨trivial, trivial⟩

omit [LinearOrder T] in
theorem isAvl_node {x : NodeData T} {left right : Node T} :
    IsAvl (.node x left right) ↔
      x.height = 1 + max left.height right.height ∧
        left.height ≤ right.height + 1 ∧ right.height ≤ left.height + 1 ∧
        IsAvl left ∧ IsAvl right := by
  constructor
  · rintro ⟨⟨hx, hl, hr⟩, ⟨hlr, hrl⟩, bl, br⟩
    exact ⟨hx, hlr, hrl, ⟨hl, bl⟩, ⟨hr, br⟩⟩
  · rintro ⟨hx, hlr, hrl, ⟨hl, bl⟩, ⟨hr, br⟩⟩
    exact ⟨⟨hx, hl, hr⟩, ⟨hlr, hrl⟩, bl, br⟩

omit [LinearOrder T] in
theorem getHeight_eq {tree : Node T} (h : HeightsCorrect tree) :
    getHeight tree = tree.height := by
  cases tree with
  | nil => rfl
  | node x left right =>
      rw [getHeight, h.1, BinaryTree.height]
      omega

omit [LinearOrder T] in
@[simp] theorem height_updateHeight (tree : Node T) :
    (updateHeight tree).height = tree.height := by
  cases tree <;> rfl

omit [LinearOrder T] in
@[simp] theorem keys_updateHeight (tree : Node T) :
    keys NodeData.data (updateHeight tree) = keys NodeData.data tree := by
  cases tree <;> rfl

omit [LinearOrder T] in
theorem isAvl_updateHeight {x : NodeData T} {left right : Node T}
    (hleft : IsAvl left) (hright : IsAvl right)
    (hlr : left.height ≤ right.height + 1) (hrl : right.height ≤ left.height + 1) :
    IsAvl (updateHeight (.node x left right)) := by
  rw [updateHeight, isAvl_node, getHeight_eq hleft.heights, getHeight_eq hright.heights]
  exact ⟨Nat.add_comm _ _, hlr, hrl, hleft, hright⟩

omit [LinearOrder T] in
/-- Setting the height of a node that already has the right one. -/
theorem updateHeight_eq_self {tree : Node T} (h : HeightsCorrect tree) :
    updateHeight tree = tree := by
  cases tree with
  | nil => rfl
  | node x left right =>
      obtain ⟨hx, hleft, hright⟩ := h
      rw [updateHeight, getHeight_eq hleft, getHeight_eq hright, Nat.add_comm, ← hx]

end AvlTree

end RebuildTheWheel.TinySTL
