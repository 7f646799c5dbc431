import RebuildTheWheel.TinySTL.AvlTree

namespace RebuildTheWheel.TinySTL

open RebuildTheWheel.Data
open RebuildTheWheel.Data.SearchTree

namespace AvlTree

variable {T : Type*}

/-! Rotations leave the in-order key list alone. -/

theorem keys_singleLeftLeftRotate {p q : Node T} (h : singleLeftLeftRotate p = some q) :
    keys NodeData.data q = keys NodeData.data p := by
  match p with
  | .node k2 (.node k1 left middle) right =>
      cases h
      simp [updateHeight]

theorem keys_singleRightRightRotate {p q : Node T} (h : singleRightRightRotate p = some q) :
    keys NodeData.data q = keys NodeData.data p := by
  match p with
  | .node k2 left (.node k1 middle right) =>
      cases h
      simp [updateHeight]

theorem keys_doubleLeftRightRotate {p q : Node T} (h : doubleLeftRightRotate p = some q) :
    keys NodeData.data q = keys NodeData.data p := by
  match p with
  | .node k3 left right =>
      obtain ⟨left', hinner, houter⟩ := Option.bind_eq_some_iff.mp h
      rw [keys_singleLeftLeftRotate houter, keys_node, keys_node,
        keys_singleRightRightRotate hinner]

theorem keys_doubleRightLeftRotate {p q : Node T} (h : doubleRightLeftRotate p = some q) :
    keys NodeData.data q = keys NodeData.data p := by
  match p with
  | .node k3 left right =>
      obtain ⟨right', hinner, houter⟩ := Option.bind_eq_some_iff.mp h
      rw [keys_singleRightRightRotate houter, keys_node, keys_node,
        keys_singleLeftLeftRotate hinner]

/-! A rotation repairs a node one of whose subtrees is two levels higher than
the other and leans outwards (single) or inwards (double). The repaired subtree
is as high as the node was before its higher subtree grew. -/

theorem isAvl_singleLeftLeftRotate {x y : NodeData T} {ll lr right : Node T}
    (hll : IsAvl ll) (hlr : IsAvl lr) (hright : IsAvl right)
    (hlean : ll.height = lr.height + 1) (hdiff : ll.height = right.height + 1) :
    ∃ q, singleLeftLeftRotate (.node x (.node y ll lr) right) = some q ∧
      IsAvl q ∧ q.height = ll.height + 1 := by
  have hk2 := isAvl_updateHeight (x := x) hlr hright (by omega) (by omega)
  refine ⟨_, rfl, isAvl_updateHeight hll hk2 ?_ ?_, ?_⟩ <;>
    simp only [height_updateHeight, BinaryTree.height] <;> omega

theorem isAvl_singleRightRightRotate {x y : NodeData T} {left rl rr : Node T}
    (hleft : IsAvl left) (hrl : IsAvl rl) (hrr : IsAvl rr)
    (hlean : rr.height = rl.height + 1) (hdiff : rr.height = left.height + 1) :
    ∃ q, singleRightRightRotate (.node x left (.node y rl rr)) = some q ∧
      IsAvl q ∧ q.height = rr.height + 1 := by
  have hk2 := isAvl_updateHeight (x := x) hleft hrl (by omega) (by omega)
  refine ⟨_, rfl, isAvl_updateHeight hk2 hrr ?_ ?_, ?_⟩ <;>
    simp only [height_updateHeight, BinaryTree.height] <;> omega

theorem isAvl_doubleLeftRightRotate {x y : NodeData T} {ll lr right : Node T}
    (hll : IsAvl ll) (hlr : IsAvl lr) (hright : IsAvl right)
    (hlean : lr.height = ll.height + 1) (hdiff : lr.height = right.height + 1) :
    ∃ q, doubleLeftRightRotate (.node x (.node y ll lr) right) = some q ∧
      IsAvl q ∧ q.height = lr.height + 1 := by
  match lr with
  | .nil => simp at hlean
  | .node z inner outer =>
      obtain ⟨-, hio, hoi, hinner, houter⟩ := isAvl_node.mp hlr
      simp only [BinaryTree.height] at hlean hdiff
      have hk1 := isAvl_updateHeight (x := y) hll hinner (by omega) (by omega)
      have hk3 := isAvl_updateHeight (x := x) houter hright (by omega) (by omega)
      refine ⟨_, rfl, isAvl_updateHeight hk1 hk3 ?_ ?_, ?_⟩ <;>
        simp only [height_updateHeight, BinaryTree.height] <;> omega

theorem isAvl_doubleRightLeftRotate {x y : NodeData T} {left rl rr : Node T}
    (hleft : IsAvl left) (hrl : IsAvl rl) (hrr : IsAvl rr)
    (hlean : rl.height = rr.height + 1) (hdiff : rl.height = left.height + 1) :
    ∃ q, doubleRightLeftRotate (.node x left (.node y rl rr)) = some q ∧
      IsAvl q ∧ q.height = rl.height + 1 := by
  match rl with
  | .nil => simp at hlean
  | .node z outer inner =>
      obtain ⟨-, hio, hoi, houter, hinner⟩ := isAvl_node.mp hrl
      simp only [BinaryTree.height] at hlean hdiff
      have hk3 := isAvl_updateHeight (x := x) hleft houter (by omega) (by omega)
      have hk1 := isAvl_updateHeight (x := y) hinner hrr (by omega) (by omega)
      refine ⟨_, rfl, isAvl_updateHeight hk3 hk1 ?_ ?_, ?_⟩ <;>
        simp only [height_updateHeight, BinaryTree.height] <;> omega

variable [LinearOrder T]

/-- A tree that has just grown by one level leans towards the side on which
`val` went in; only a fresh leaf leans to neither. -/
def Leaning (val : T) : Node T → Prop
  | .nil => False
  | .node x left right =>
      (val < x.data ∧ left.height = right.height + 1) ∨
        (x.data < val ∧ right.height = left.height + 1) ∨
        (val = x.data ∧ left.height = 0 ∧ right.height = 0)

/-- What `insert_elem` does to a node whose right subtree had height `m` before `val` went in. -/
theorem isAvl_insertRebalanceRight {val : T} {x : NodeData T} {left right : Node T} {m : Nat}
    (hgt : x.data < val) (hleft : IsAvl left) (hright : IsAvl right)
    (hlr : left.height ≤ m + 1) (hrl : m ≤ left.height + 1)
    (hgrown : right.height = m ∨ right.height = m + 1 ∧ Leaning val right) :
    ∃ p, insertRebalanceRight val x left right = some p ∧ IsAvl (updateHeight p) ∧
      ((updateHeight p).height = max left.height m + 1 ∨
        (updateHeight p).height = max left.height m + 2 ∧ Leaning val (updateHeight p)) := by
  by_cases hdiff : right.height - left.height = 2
  · obtain ⟨hgrew, hlean⟩ : right.height = m + 1 ∧ Leaning val right := by
      rcases hgrown with hsame | hgrew
      · omega
      · exact hgrew
    match right, hright, hlean with
    | .node y rl rr, hright, hlean =>
        obtain ⟨hy, -, -, hrlAvl, hrrAvl⟩ := isAvl_node.mp hright
        simp only [BinaryTree.height] at hdiff hgrew
        -- `val` went below `y`, on the side the single or double rotation serves
        rcases hlean with ⟨hval, hlean⟩ | ⟨hval, hlean⟩ | ⟨-, hl0, hr0⟩
        · obtain ⟨q, hrot, hq, hheight⟩ := isAvl_doubleRightLeftRotate (x := x) (y := y)
            hleft hrlAvl hrrAvl hlean (by omega)
          refine ⟨q, ?_, ?_, Or.inl ?_⟩
          · simp [insertRebalanceRight, getHeight_eq hright.heights, getHeight_eq hleft.heights,
              hdiff, root?, lt_asymm hval, hrot]
          · rwa [updateHeight_eq_self hq.heights]
          · rw [updateHeight_eq_self hq.heights, hheight]
            omega
        · obtain ⟨q, hrot, hq, hheight⟩ := isAvl_singleRightRightRotate (x := x) (y := y)
            hleft hrlAvl hrrAvl hlean (by omega)
          refine ⟨q, ?_, ?_, Or.inl ?_⟩
          · simp [insertRebalanceRight, getHeight_eq hright.heights, getHeight_eq hleft.heights,
              hdiff, root?, hval, hrot]
          · rwa [updateHeight_eq_self hq.heights]
          · rw [updateHeight_eq_self hq.heights, hheight]
            omega
        · omega
  · refine ⟨.node x left right, ?_, isAvl_updateHeight hleft hright (by omega) (by omega), ?_⟩
    · simp [insertRebalanceRight, getHeight_eq hright.heights, getHeight_eq hleft.heights, hdiff]
    · rw [height_updateHeight, BinaryTree.height]
      by_cases hsame : right.height ≤ left.height
      · exact Or.inl (by omega)
      · by_cases hleftSmall : left.height < m
        · exact Or.inl (by omega)
        · exact Or.inr ⟨by omega, Or.inr (Or.inl ⟨hgt, by omega⟩)⟩

theorem isAvl_insertRebalanceLeft {val : T} {x : NodeData T} {left right : Node T} {m : Nat}
    (hlt : val < x.data) (hleft : IsAvl left) (hright : IsAvl right)
    (hlr : m ≤ right.height + 1) (hrl : right.height ≤ m + 1)
    (hgrown : left.height = m ∨ left.height = m + 1 ∧ Leaning val left) :
    ∃ p, insertRebalanceLeft val x left right = some p ∧ IsAvl (updateHeight p) ∧
      ((updateHeight p).height = max m right.height + 1 ∨
        (updateHeight p).height = max m right.height + 2 ∧ Leaning val (updateHeight p)) := by
  by_cases hdiff : left.height - right.height = 2
  · obtain ⟨hgrew, hlean⟩ : left.height = m + 1 ∧ Leaning val left := by
      rcases hgrown with hsame | hgrew
      · omega
      · exact hgrew
    match left, hleft, hlean with
    | .node y ll lr, hleft, hlean =>
        obtain ⟨hy, -, -, hllAvl, hlrAvl⟩ := isAvl_node.mp hleft
        simp only [BinaryTree.height] at hdiff hgrew
        rcases hlean with ⟨hval, hlean⟩ | ⟨hval, hlean⟩ | ⟨-, hl0, hr0⟩
        · obtain ⟨q, hrot, hq, hheight⟩ := isAvl_singleLeftLeftRotate (x := x) (y := y)
            hllAvl hlrAvl hright hlean (by omega)
          refine ⟨q, ?_, ?_, Or.inl ?_⟩
          · simp [insertRebalanceLeft, getHeight_eq hleft.heights, getHeight_eq hright.heights,
              hdiff, root?, hval, hrot]
          · rwa [updateHeight_eq_self hq.heights]
          · rw [updateHeight_eq_self hq.heights, hheight]
            omega
        · obtain ⟨q, hrot, hq, hheight⟩ := isAvl_doubleLeftRightRotate (x := x) (y := y)
            hllAvl hlrAvl hright hlean (by omega)
          refine ⟨q, ?_, ?_, Or.inl ?_⟩
          · simp [insertRebalanceLeft, getHeight_eq hleft.heights, getHeight_eq hright.heights,
              hdiff, root?, lt_asymm hval, hrot]
          · rwa [updateHeight_eq_self hq.heights]
          · rw [updateHeight_eq_self hq.heights, hheight]
            omega
        · omega
  · refine ⟨.node x left right, ?_, isAvl_updateHeight hleft hright (by omega) (by omega), ?_⟩
    · simp [insertRebalanceLeft, getHeight_eq hleft.heights, getHeight_eq hright.heights, hdiff]
    · rw [height_updateHeight, BinaryTree.height]
      by_cases hsame : left.height ≤ right.height
      · exact Or.inl (by omega)
      · by_cases hrightSmall : right.height < m
        · exact Or.inl (by omega)
        · exact Or.inr ⟨by omega, Or.inl ⟨hlt, by omega⟩⟩

/-- The balance part of `insert_elem`: no null dereference, an AVL tree again,
and growth by at most one level. -/
theorem isAvl_insertElem (val : T) (ptr : Node T) (size : Nat) (hptr : IsAvl ptr) :
    ∃ ptr' size', insertElem val ptr size = some (ptr', size') ∧ IsAvl ptr' ∧
      (ptr'.height = ptr.height ∨ ptr'.height = ptr.height + 1 ∧ Leaning val ptr') := by
  induction ptr generalizing size with
  | nil =>
      refine ⟨_, _, rfl, isAvl_updateHeight isAvl_nil isAvl_nil (by simp) (by simp), ?_⟩
      exact Or.inr ⟨rfl, Or.inr (Or.inr ⟨rfl, rfl, rfl⟩)⟩
  | node x left right ihLeft ihRight =>
      obtain ⟨hx, hlr, hrl, hleft, hright⟩ := isAvl_node.mp hptr
      rcases lt_trichotomy x.data val with hgt | heq | hlt
      · obtain ⟨right', size', hins, hright', hgrown⟩ := ihRight size hright
        obtain ⟨p, hp, havl, hheight⟩ :=
          isAvl_insertRebalanceRight hgt hleft hright' hlr hrl hgrown
        refine ⟨updateHeight p, size', ?_, havl, hheight⟩
        simp [insertElem, hgt, hins, hp]
      · refine ⟨.node x left right, size, ?_, hptr, Or.inl rfl⟩
        simp [insertElem, heq, updateHeight_eq_self hptr.heights]
      · obtain ⟨left', size', hins, hleft', hgrown⟩ := ihLeft size hleft
        obtain ⟨p, hp, havl, hheight⟩ :=
          isAvl_insertRebalanceLeft hlt hleft' hright hlr hrl hgrown
        refine ⟨updateHeight p, size', ?_, havl, hheight⟩
        simp [insertElem, hlt, lt_asymm hlt, hins, hp]

/-- The set part of `insert_elem`: forget the heights, and the keys and `size_`
are those of the unbalanced tree's insertion. -/
theorem keys_insertElem (val : T) (ptr : Node T) (size : Nat) {ptr' : Node T} {size' : Nat}
    (h : insertElem val ptr size = some (ptr', size')) :
    keys NodeData.data ptr' =
        keys id (BinarySearchTree.insertElem val (ptr.map NodeData.data) size).1 ∧
      size' = (BinarySearchTree.insertElem val (ptr.map NodeData.data) size).2 := by
  induction ptr generalizing ptr' size' with
  | nil =>
      cases h
      exact ⟨rfl, rfl⟩
  | node x left right ihLeft ihRight =>
      have hkeys (tree : Node T) :
          keys id (tree.map NodeData.data) = keys NodeData.data tree := keys_map id _ tree
      rcases lt_trichotomy x.data val with hgt | heq | hlt
      · rw [insertElem, if_pos hgt] at h
        obtain ⟨⟨right', _⟩, hrec, h⟩ := Option.bind_eq_some_iff.mp h
        obtain ⟨p, hp, h⟩ := Option.bind_eq_some_iff.mp h
        have hpKeys : keys NodeData.data p = keys NodeData.data (.node x left right') := by
          rw [insertRebalanceRight] at hp
          split at hp
          · obtain ⟨child, -, hp⟩ := Option.bind_eq_some_iff.mp hp
            split at hp
            · exact keys_singleRightRightRotate hp
            · exact keys_doubleRightLeftRotate hp
          · cases hp
            rfl
        cases h
        obtain ⟨ihKeys, ihSize⟩ := ihRight hrec
        rw [keys_updateHeight, hpKeys]
        simp [BinaryTree.map, BinarySearchTree.insertElem, lt_asymm hgt, hgt, ihKeys, ihSize,
          hkeys]
      · rw [insertElem, if_neg heq.not_lt, if_neg heq.not_gt] at h
        cases h
        simp [BinaryTree.map, BinarySearchTree.insertElem, heq, hkeys]
      · rw [insertElem, if_neg (lt_asymm hlt), if_pos hlt] at h
        obtain ⟨⟨left', _⟩, hrec, h⟩ := Option.bind_eq_some_iff.mp h
        obtain ⟨p, hp, h⟩ := Option.bind_eq_some_iff.mp h
        have hpKeys : keys NodeData.data p = keys NodeData.data (.node x left' right) := by
          rw [insertRebalanceLeft] at hp
          split at hp
          · obtain ⟨child, -, hp⟩ := Option.bind_eq_some_iff.mp hp
            split at hp
            · exact keys_singleLeftLeftRotate hp
            · exact keys_doubleLeftRightRotate hp
          · cases hp
            rfl
        cases h
        obtain ⟨ihKeys, ihSize⟩ := ihLeft hrec
        rw [keys_updateHeight, hpKeys]
        simp [BinaryTree.map, BinarySearchTree.insertElem, hlt, ihKeys, ihSize, hkeys]

/-- The tree is an AVL search tree for the set `s`. -/
structure Represents (tree : AvlTree T) (s : Finset T) : Prop where
  avl : IsAvl tree.root
  ordered : Ordered NodeData.data tree.root
  mem_keys : ∀ k, k ∈ keys NodeData.data tree.root ↔ k ∈ s
  size_eq : tree.size = tree.root.numNodes

namespace Represents

variable {tree : AvlTree T} {s : Finset T}

theorem empty : Represents (AvlTree.empty : AvlTree T) ∅ :=
  ⟨isAvl_nil, List.Pairwise.nil, by simp [AvlTree.empty], rfl⟩

theorem insert (h : Represents tree s) (val : T) :
    ∃ tree', tree.insert val = some tree' ∧ Represents tree' (Insert.insert val s) := by
  obtain ⟨root, size, hins, hroot, -⟩ := isAvl_insertElem val tree.root tree.size h.avl
  obtain ⟨hkeys, hsize⟩ := keys_insertElem val tree.root tree.size hins
  have hold : keys id (tree.root.map NodeData.data) = keys NodeData.data tree.root :=
    keys_map id _ _
  have hordOld : Ordered id (tree.root.map NodeData.data) := by
    rw [Ordered, hold]
    exact h.ordered
  obtain ⟨hord, hmem⟩ := BinarySearchTree.ordered_insertElem val _ tree.size hordOld
  refine ⟨⟨root, size⟩, by simp [AvlTree.insert, hins], hroot, ?_, ?_, ?_⟩
  · rw [Ordered, hkeys]
    exact hord
  · intro k
    rw [hkeys, hmem, hold, h.mem_keys, Finset.mem_insert]
  · have hcount := BinarySearchTree.size_insertElem val (tree.root.map NodeData.data) tree.size
    rw [← length_keys id, ← length_keys id, ← hkeys, hold, length_keys, length_keys] at hcount
    have := h.size_eq
    dsimp only
    omega

end Represents

/-- Every tree that insertions build from the empty tree is an AVL search tree
of exactly the inserted values. -/
theorem insert_run (vals : List T) :
    ∃ tree, vals.foldlM insert empty = some tree ∧
      Ordered NodeData.data tree.root ∧
      HeightsCorrect tree.root ∧ Balanced tree.root ∧
      tree.size = tree.root.numNodes ∧
      ∀ k, k ∈ keys NodeData.data tree.root ↔ k ∈ vals := by
  obtain ⟨tree, hrun, htree⟩ :=
    Run.simulates Represents (fun _ _ val h => h.insert val) vals Represents.empty
  refine ⟨tree, hrun, htree.ordered, htree.avl.heights, htree.avl.balanced, htree.size_eq,
    fun k => ?_⟩
  simpa using (htree.mem_keys k).trans (mem_foldl_insert vals ∅ k)

end AvlTree

end RebuildTheWheel.TinySTL
