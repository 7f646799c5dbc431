import RebuildTheWheel.TinySTL.AvlTreeInsert

namespace RebuildTheWheel.TinySTL

open RebuildTheWheel.Data
open RebuildTheWheel.Data.SearchTree

namespace AvlTree

variable {T : Type*} [LinearOrder T]

/-! Deletion never rebalances: on an AVL tree the node that reaches
`eraseRebalance` is already in order, and the ancestors are not revisited. -/

omit [LinearOrder T] in
theorem eraseRebalance_eq_self {ptr : Node T} (h : IsAvl ptr) :
    eraseRebalance ptr = some ptr := by
  cases ptr with
  | nil => rfl
  | node x left right =>
      obtain ⟨-, hlr, hrl, hleft, hright⟩ := isAvl_node.mp h
      have hnotLeft : ¬ left.height - right.height = 2 := by omega
      have hnotRight : ¬ right.height - left.height = 2 := by omega
      simp [eraseRebalance, getHeight_eq hleft.heights, getHeight_eq hright.heights,
        hnotLeft, hnotRight, updateHeight_eq_self h.heights]

/-- On an AVL tree `erase_elem` is, heights aside, the unbalanced tree's. -/
theorem eraseElem_map (val : T) (ptr : Node T) (size : Nat) (h : IsAvl ptr) :
    (eraseElem val ptr size).map (fun r => (r.1.map NodeData.data, r.2)) =
      BinarySearchTree.eraseElem val (ptr.map NodeData.data) size := by
  induction ptr generalizing val size with
  | nil => rfl
  | node x left right ihLeft ihRight =>
      obtain ⟨-, -, -, hleft, hright⟩ := isAvl_node.mp h
      simp only [eraseElem, BinaryTree.map, BinarySearchTree.eraseElem, isNil_map,
        BinarySearchTree.findMinAux, BinarySearchTree.findMaxAux, leftmost_map,
        rightmost_map, root?_map, findMinAux, findMaxAux]
      split_ifs
      · rw [← ihLeft val size hleft]
        cases eraseElem val left size <;> rfl
      · rw [← ihRight val size hright]
        cases eraseElem val right size <;> rfl
      · cases root? (leftmost right) with
        | none => rfl
        | some pos =>
            simp only [Option.map_some, Option.bind_eq_bind, Option.bind_some]
            rw [← ihRight pos.data size hright]
            cases eraseElem pos.data right size <;> rfl
      · cases root? (rightmost left) with
        | none => rfl
        | some pos =>
            simp only [Option.map_some, Option.bind_eq_bind, Option.bind_some]
            rw [← ihLeft pos.data size hleft]
            cases eraseElem pos.data left size <;> rfl
      · rw [eraseRebalance_eq_self hright]
        rfl
      · rw [eraseRebalance_eq_self hleft]
        rfl

/-! The node that leaves the tree, and the condition on its surroundings. -/

/-- The value of the node that `erase_elem` unlinks: the node of `val`, or the
neighbour whose value it takes over when it has two children. -/
def unlinked (val : T) (ptr : Node T) (size : Nat) : Option T :=
  match findAux val ptr with
  | .nil => none
  | .node x left right =>
      if !isNil left && !isNil right then
        (root? (if size % 2 = 0 then findMinAux right else findMaxAux left)).map
          NodeData.data
      else some x.data

/-- The pointer is to the node of `val`. -/
def Holds (val : T) (ptr : Node T) : Prop :=
  (root? ptr).map NodeData.data = some val

instance (val : T) (ptr : Node T) : Decidable (Holds val ptr) :=
  inferInstanceAs (Decidable (_ = _))

/-- Where a child holds `val`, the two children are equally high. -/
def SiblingsLevel (val : T) (ptr : Node T) : Prop :=
  Every (fun _ left right => Holds val left ∨ Holds val right →
    left.height = right.height) ptr

instance (val : T) (ptr : Node T) : Decidable (SiblingsLevel val ptr) :=
  inferInstanceAs (Decidable (Every _ _))

omit [LinearOrder T] in
theorem not_holds_of_not_mem {val : T} {ptr : Node T}
    (h : val ∉ keys NodeData.data ptr) : ¬ Holds val ptr := by
  intro hholds
  obtain ⟨x, hx, rfl⟩ := Option.map_eq_some_iff.mp hholds
  exact h (mem_keys_of_root? hx)

omit [LinearOrder T] in
theorem siblingsLevel_of_not_mem {val : T} {ptr : Node T}
    (h : val ∉ keys NodeData.data ptr) : SiblingsLevel val ptr := by
  induction ptr with
  | nil => trivial
  | node x left right ihLeft ihRight =>
      simp only [keys_node, List.mem_append, List.mem_cons, not_or] at h
      refine ⟨?_, ihLeft h.1, ihRight h.2.2⟩
      rintro (hleft | hright)
      · exact absurd hleft (not_holds_of_not_mem h.1)
      · exact absurd hright (not_holds_of_not_mem h.2.2)

/-- What unlinking `val` somewhere in `ptr` did to its shape. -/
structure Unlinks (val : T) (ptr ptr' : Node T) : Prop where
  mem : val ∈ keys NodeData.data ptr
  avl_iff : IsAvl ptr' ↔ SiblingsLevel val ptr
  height_eq : IsAvl ptr' → ptr'.height + (if Holds val ptr then 1 else 0) = ptr.height

theorem unlinked_of_lt {val : T} {x : NodeData T} (left right : Node T) (size : Nat)
    (h : val < x.data) : unlinked val (.node x left right) size = unlinked val left size := by
  simp [unlinked, findAux, lt_asymm h, h]

theorem unlinked_of_gt {val : T} {x : NodeData T} (left right : Node T) (size : Nat)
    (h : x.data < val) : unlinked val (.node x left right) size = unlinked val right size := by
  simp [unlinked, findAux, h]

/-- The least node has no left child, so it is itself unlinked. -/
theorem unlinked_leftmost {ptr : Node T} {pos : NodeData T} (size : Nat)
    (hord : Ordered NodeData.data ptr) (hpos : root? (leftmost ptr) = some pos) :
    unlinked pos.data ptr size = some pos.data := by
  induction ptr with
  | nil => cases hpos
  | node x left right ihLeft _ =>
      cases left with
      | nil =>
          cases hpos
          simp [unlinked, findAux]
      | node y ll lr =>
          have hleft : root? (leftmost (.node y ll lr)) = some pos := by
            simpa [leftmost] using hpos
          have hmem : pos.data ∈ keys NodeData.data (.node y ll lr) := by
            have hmap := map_root?_leftmost NodeData.data (.node y ll lr)
            rw [hleft] at hmap
            exact List.mem_of_mem_head? hmap.symm
          rw [unlinked_of_lt _ _ _ (hord.lt_root _ hmem)]
          exact ihLeft hord.left hleft

theorem unlinked_rightmost {ptr : Node T} {pos : NodeData T} (size : Nat)
    (hord : Ordered NodeData.data ptr) (hpos : root? (rightmost ptr) = some pos) :
    unlinked pos.data ptr size = some pos.data := by
  induction ptr with
  | nil => cases hpos
  | node x left right _ ihRight =>
      cases right with
      | nil =>
          cases hpos
          simp [unlinked, findAux]
      | node y rl rr =>
          have hright : root? (rightmost (.node y rl rr)) = some pos := by
            simpa [rightmost] using hpos
          have hmem : pos.data ∈ keys NodeData.data (.node y rl rr) := by
            have hmap := map_root?_rightmost NodeData.data (.node y rl rr)
            rw [hright] at hmap
            exact List.mem_of_getLast? hmap.symm
          rw [unlinked_of_gt _ _ _ (hord.root_lt _ hmem)]
          exact ihRight hord.right hright

/-- One level up on the left: the parent keeps its cached height, so it stays in
order exactly when the unlinked child had a sibling of its own height. -/
theorem Unlinks.of_left {val : T} {x : NodeData T} {left left' right : Node T} (data : T)
    (h : Unlinks val left left') (hptr : IsAvl (.node x left right))
    (hord : Ordered NodeData.data (.node x left right)) :
    Unlinks val (.node x left right) (.node { x with data := data } left' right) := by
  obtain ⟨hx, hlr, hrl, -, hright⟩ := isAvl_node.mp hptr
  have hlt := hord.lt_root val h.mem
  have hnotRight : val ∉ keys NodeData.data right :=
    fun hmem => lt_asymm hlt (hord.root_lt val hmem)
  have hroot : ¬ Holds val (.node x left right) := by
    simp [Holds, root?, hlt.ne']
  have hsiblings : SiblingsLevel val (.node x left right) ↔
      (Holds val left → left.height = right.height) ∧ SiblingsLevel val left := by
    simp only [SiblingsLevel, every_node, or_iff_left (not_holds_of_not_mem hnotRight)]
    exact and_congr_right fun _ => and_iff_left (siblingsLevel_of_not_mem hnotRight)
  refine ⟨by simp [h.mem], ?_, ?_⟩
  · rw [isAvl_node, hsiblings]
    dsimp only
    constructor
    · rintro ⟨hx', hlr', hrl', hleft', -⟩
      have hheight := h.height_eq hleft'
      refine ⟨fun hholds => ?_, h.avl_iff.mp hleft'⟩
      rw [if_pos hholds] at hheight
      omega
    · rintro ⟨hlevel, hs⟩
      have hleft' := h.avl_iff.mpr hs
      have hheight := h.height_eq hleft'
      by_cases hholds : Holds val left
      · have := hlevel hholds
        rw [if_pos hholds] at hheight
        exact ⟨by omega, by omega, by omega, hleft', hright⟩
      · rw [if_neg hholds] at hheight
        exact ⟨by omega, by omega, by omega, hleft', hright⟩
  · intro hptr'
    obtain ⟨hx', -⟩ := isAvl_node.mp hptr'
    dsimp only at hx'
    rw [if_neg hroot, BinaryTree.height, BinaryTree.height]
    omega

theorem Unlinks.of_right {val : T} {x : NodeData T} {left right right' : Node T} (data : T)
    (h : Unlinks val right right') (hptr : IsAvl (.node x left right))
    (hord : Ordered NodeData.data (.node x left right)) :
    Unlinks val (.node x left right) (.node { x with data := data } left right') := by
  obtain ⟨hx, hlr, hrl, hleft, -⟩ := isAvl_node.mp hptr
  have hgt := hord.root_lt val h.mem
  have hnotLeft : val ∉ keys NodeData.data left :=
    fun hmem => lt_asymm hgt (hord.lt_root val hmem)
  have hroot : ¬ Holds val (.node x left right) := by
    simp [Holds, root?, hgt.ne]
  have hsiblings : SiblingsLevel val (.node x left right) ↔
      (Holds val right → left.height = right.height) ∧ SiblingsLevel val right := by
    simp only [SiblingsLevel, every_node, or_iff_right (not_holds_of_not_mem hnotLeft)]
    exact and_congr_right fun _ => and_iff_right (siblingsLevel_of_not_mem hnotLeft)
  refine ⟨by simp [h.mem], ?_, ?_⟩
  · rw [isAvl_node, hsiblings]
    dsimp only
    constructor
    · rintro ⟨hx', hlr', hrl', -, hright'⟩
      have hheight := h.height_eq hright'
      refine ⟨fun hholds => ?_, h.avl_iff.mp hright'⟩
      rw [if_pos hholds] at hheight
      omega
    · rintro ⟨hlevel, hs⟩
      have hright' := h.avl_iff.mpr hs
      have hheight := h.height_eq hright'
      by_cases hholds : Holds val right
      · have := hlevel hholds
        rw [if_pos hholds] at hheight
        exact ⟨by omega, by omega, by omega, hleft, hright'⟩
      · rw [if_neg hholds] at hheight
        exact ⟨by omega, by omega, by omega, hleft, hright'⟩
  · intro hptr'
    obtain ⟨hx', -⟩ := isAvl_node.mp hptr'
    dsimp only at hx'
    rw [if_neg hroot, BinaryTree.height, BinaryTree.height]
    omega

/-- A root with at most one child gives way to that child. -/
theorem Unlinks.of_root {x : NodeData T} {left right child : Node T}
    (hptr : IsAvl (.node x left right)) (hord : Ordered NodeData.data (.node x left right))
    (hchild : left = .nil ∧ child = right ∨ right = .nil ∧ child = left) :
    Unlinks x.data (.node x left right) child := by
  obtain ⟨hx, hlr, hrl, hleft, hright⟩ := isAvl_node.mp hptr
  have hnotLeft : x.data ∉ keys NodeData.data left :=
    fun hmem => lt_irrefl _ (hord.lt_root _ hmem)
  have hnotRight : x.data ∉ keys NodeData.data right :=
    fun hmem => lt_irrefl _ (hord.root_lt _ hmem)
  have hsiblings : SiblingsLevel x.data (.node x left right) :=
    ⟨fun h => absurd h (not_or.mpr
      ⟨not_holds_of_not_mem hnotLeft, not_holds_of_not_mem hnotRight⟩),
      siblingsLevel_of_not_mem hnotLeft, siblingsLevel_of_not_mem hnotRight⟩
  have hroot : Holds x.data (.node x left right) := rfl
  rcases hchild with ⟨rfl, rfl⟩ | ⟨rfl, rfl⟩
  · exact ⟨by simp, ⟨fun _ => hsiblings, fun _ => hright⟩, fun _ => by
      rw [if_pos hroot]; simp⟩
  · exact ⟨by simp, ⟨fun _ => hsiblings, fun _ => hleft⟩, fun _ => by
      rw [if_pos hroot]; simp⟩

/-- The shape part of `erase_elem` on an AVL search tree. -/
theorem eraseElem_unlinks (val : T) (ptr : Node T) (size : Nat) (hptr : IsAvl ptr)
    (hord : Ordered NodeData.data ptr) :
    ∃ ptr' size', eraseElem val ptr size = some (ptr', size') ∧
      (unlinked val ptr size = none → ptr' = ptr) ∧
      ∀ gone, unlinked val ptr size = some gone → Unlinks gone ptr ptr' := by
  induction ptr generalizing val size with
  | nil =>
      refine ⟨.nil, size, rfl, fun _ => rfl, fun gone hgone => ?_⟩
      cases hgone
  | node x left right ihLeft ihRight =>
      obtain ⟨-, -, -, hleft, hright⟩ := isAvl_node.mp hptr
      rcases lt_trichotomy val x.data with hlt | rfl | hgt
      · obtain ⟨left', size', herase, hnone, hsome⟩ := ihLeft val size hleft hord.left
        refine ⟨.node x left' right, size', ?_, ?_, ?_⟩
        · simp [eraseElem, hlt.ne', hlt, herase]
        · rw [unlinked_of_lt _ _ _ hlt]
          exact fun h => by rw [hnone h]
        · rw [unlinked_of_lt _ _ _ hlt]
          exact fun gone h => (hsome gone h).of_left x.data hptr hord
      · by_cases hone : left = .nil ∨ right = .nil
        · have hchild : ∃ child, IsAvl child ∧
              (left = .nil ∧ child = right ∨ right = .nil ∧ child = left) ∧
              (if isNil left then right else left) = child := by
            by_cases hl : left = .nil
            · exact ⟨right, hright, Or.inl ⟨hl, rfl⟩, by simp [hl]⟩
            · exact ⟨left, hleft, Or.inr ⟨hone.resolve_left hl, rfl⟩, by simp [hl]⟩
          obtain ⟨child, hchildAvl, hcases, hpick⟩ := hchild
          have hfew : (!isNil left && !isNil right) = false := by
            rcases hone with rfl | rfl <;> simp
          have hunlinked : unlinked x.data (.node x left right) size = some x.data := by
            simp [unlinked, findAux, hfew]
          refine ⟨child, size - 1, ?_, ?_, ?_⟩
          · simp [eraseElem, hfew, hpick, eraseRebalance_eq_self hchildAvl]
          · simp [hunlinked]
          · rw [hunlinked]
            rintro _ ⟨⟩
            exact Unlinks.of_root hptr hord hcases
        · rw [not_or] at hone
          have hboth : (!isNil left && !isNil right) = true := by simp [hone]
          by_cases hchoose : size % 2 = 0
          · obtain ⟨pos, hpos⟩ : ∃ pos, root? (leftmost right) = some pos := by
              apply Option.isSome_iff_exists.mp
              rw [← Option.isSome_map (f := NodeData.data), map_root?_leftmost]
              simpa [keys_eq_nil] using hone.2
            obtain ⟨right', size', herase, -, hsome⟩ :=
              ihRight pos.data size hright hord.right
            have hunlinked : unlinked x.data (.node x left right) size = some pos.data := by
              simp [unlinked, findAux, hboth, hchoose, findMinAux, hpos]
            refine ⟨.node { x with data := pos.data } left right', size', ?_, ?_, ?_⟩
            · simp [eraseElem, hboth, hchoose, findMinAux, hpos, herase]
            · simp [hunlinked]
            · rw [hunlinked]
              rintro _ ⟨⟩
              exact (hsome _ (unlinked_leftmost size hord.right hpos)).of_right pos.data
                hptr hord
          · obtain ⟨pos, hpos⟩ : ∃ pos, root? (rightmost left) = some pos := by
              apply Option.isSome_iff_exists.mp
              rw [← Option.isSome_map (f := NodeData.data), map_root?_rightmost]
              simpa [keys_eq_nil] using hone.1
            obtain ⟨left', size', herase, -, hsome⟩ :=
              ihLeft pos.data size hleft hord.left
            have hunlinked : unlinked x.data (.node x left right) size = some pos.data := by
              simp [unlinked, findAux, hboth, hchoose, findMaxAux, hpos]
            refine ⟨.node { x with data := pos.data } left' right, size', ?_, ?_, ?_⟩
            · simp [eraseElem, hboth, hchoose, findMaxAux, hpos, herase]
            · simp [hunlinked]
            · rw [hunlinked]
              rintro _ ⟨⟩
              exact (hsome _ (unlinked_rightmost size hord.left hpos)).of_left pos.data
                hptr hord
      · obtain ⟨right', size', herase, hnone, hsome⟩ := ihRight val size hright hord.right
        refine ⟨.node x left right', size', ?_, ?_, ?_⟩
        · simp [eraseElem, hgt.ne, lt_asymm hgt, herase]
        · rw [unlinked_of_gt _ _ _ hgt]
          exact fun h => by rw [hnone h]
        · rw [unlinked_of_gt _ _ _ hgt]
          exact fun gone h => (hsome gone h).of_right x.data hptr hord

/-- The node that `erase(val)` unlinks, if any, is the root or has a sibling
subtree as high as its own. -/
def ErasesLevel (tree : AvlTree T) (val : T) : Prop :=
  ∀ gone, unlinked val tree.root tree.size = some gone → SiblingsLevel gone tree.root

/-- `erase(val)` removes exactly `val` and leaves an AVL search tree. -/
def EraseCorrect (tree : AvlTree T) (val : T) : Prop :=
  ∃ tree', tree.erase val = some tree' ∧
    (∀ k, k ∈ keys NodeData.data tree'.root ↔
      k ∈ keys NodeData.data tree.root ∧ k ≠ val) ∧
    Ordered NodeData.data tree'.root ∧
    HeightsCorrect tree'.root ∧ Balanced tree'.root ∧
    tree'.size = tree'.root.numNodes

namespace Represents

variable {tree : AvlTree T} {s : Finset T}

/-- Whatever the shape, `erase` is right about order, contents and size; heights
and balance survive exactly under `ErasesLevel`. -/
theorem erase (h : Represents tree s) (val : T) :
    ∃ tree', tree.erase val = some tree' ∧
      Ordered NodeData.data tree'.root ∧
      (∀ k, k ∈ keys NodeData.data tree'.root ↔ k ∈ s.erase val) ∧
      tree'.size = tree'.root.numNodes ∧
      (IsAvl tree'.root ↔ ErasesLevel tree val) := by
  obtain ⟨root, size, herase, hnone, hsome⟩ :=
    eraseElem_unlinks val tree.root tree.size h.avl h.ordered
  have hold : keys id (tree.root.map NodeData.data) = keys NodeData.data tree.root :=
    keys_map id _ _
  have hnew : keys id (root.map NodeData.data) = keys NodeData.data root := keys_map id _ _
  have hcountOld : (tree.root.map NodeData.data).numNodes = tree.root.numNodes := by
    rw [← length_keys id, hold, length_keys]
  have hordOld : Ordered id (tree.root.map NodeData.data) := by
    rw [Ordered, hold]
    exact h.ordered
  obtain ⟨plain, size', hplain, hkeys, hcount⟩ :=
    BinarySearchTree.eraseElem_spec val _ tree.size hordOld (by rw [hcountOld, h.size_eq])
  rw [← eraseElem_map val tree.root tree.size h.avl, herase] at hplain
  cases hplain
  rw [hnew, hold] at hkeys
  rw [hcountOld, ← length_keys id (root.map NodeData.data), hnew, length_keys] at hcount
  refine ⟨⟨root, size⟩, by simp [AvlTree.erase, herase], h.ordered.of_filter hkeys, ?_, ?_, ?_⟩
  · intro k
    simp only [hkeys, List.mem_filter, decide_eq_true_eq, h.mem_keys, Finset.mem_erase]
    exact and_comm
  · have := h.size_eq
    dsimp only at hcount ⊢
    omega
  · unfold ErasesLevel
    cases hgone : unlinked val tree.root tree.size with
    | none =>
        rw [hnone hgone]
        simp [h.avl]
    | some gone => simpa using (hsome gone hgone).avl_iff

theorem eraseCorrect_iff (h : Represents tree s) (val : T) :
    EraseCorrect tree val ↔ ErasesLevel tree val := by
  obtain ⟨tree', herase, hord, hmem, hsize, havl⟩ := h.erase val
  rw [← havl]
  constructor
  · rintro ⟨tree'', herase', -, -, hheights, hbalanced, -⟩
    obtain rfl : tree' = tree'' := Option.some.inj (herase.symm.trans herase')
    exact ⟨hheights, hbalanced⟩
  · intro hroot
    refine ⟨tree', herase, fun k => ?_, hord, hroot.heights, hroot.balanced, hsize⟩
    rw [hmem, Finset.mem_erase, h.mem_keys]
    exact and_comm

end Represents

def step (tree : AvlTree T) : SetOp T → Option (AvlTree T)
  | .insert val => tree.insert val
  | .erase val => tree.erase val

/-- Insertions are always admitted, erasures when they unlink level nodes. -/
def Admits (tree : AvlTree T) : SetOp T → Prop
  | .insert _ => True
  | .erase val => ErasesLevel tree val

theorem Represents.step {tree : AvlTree T} {s : Finset T} (h : Represents tree s)
    (op : SetOp T) (hop : Admits tree op) :
    ∃ tree', tree.step op = some tree' ∧ Represents tree' (op.apply s) := by
  cases op with
  | insert val => exact h.insert val
  | erase val =>
      obtain ⟨tree', herase, hord, hmem, hsize, havl⟩ := h.erase val
      exact ⟨tree', herase, havl.mpr hop, hord, hmem, hsize⟩

/-- Two insertions and the erasure of the leaf they end with: the parent keeps
the height it had with the leaf. -/
theorem erase_stale_height :
    ∃ tree, ([.insert 1, .insert 2] : List (SetOp Nat)).foldlM step empty = some tree ∧
      ¬ EraseCorrect tree 2 := by
  refine ⟨_, rfl, ?_⟩
  rintro ⟨tree', herase, -, -, hheights, -⟩
  cases herase
  exact absurd hheights.1 (by decide)

/-- Along a run whose erasures all unlink level nodes the tree stays an AVL
search tree of its contents, and at each state reached the next erasure is
correct exactly when it unlinks a level node. -/
theorem erase_run (ops : List (SetOp T)) (hops : Run.Guarded step Admits empty ops) :
    ∃ tree, ops.foldlM step empty = some tree ∧
      Ordered NodeData.data tree.root ∧
      (∀ k, k ∈ keys NodeData.data tree.root ↔ k ∈ SetOp.contents ops) ∧
      HeightsCorrect tree.root ∧ Balanced tree.root ∧
      tree.size = tree.root.numNodes ∧
      ∀ val, EraseCorrect tree val ↔ ErasesLevel tree val := by
  obtain ⟨tree, hrun, htree⟩ :=
    Run.simulates_of_guarded Represents (fun _ _ op h hop => h.step op hop) ops
      Represents.empty hops
  exact ⟨tree, hrun, htree.ordered, htree.mem_keys, htree.avl.heights, htree.avl.balanced,
    htree.size_eq, htree.eraseCorrect_iff⟩

/-- Erasing one of two leaves below the root. -/
theorem erase_run_leaf :
    ∃ tree, ([.insert 2, .insert 1, .insert 3, .erase 3] : List (SetOp Nat)).foldlM
      step empty = some tree ∧ HeightsCorrect tree.root := by
  have hops : Run.Guarded step Admits (empty : AvlTree Nat)
      [.insert 2, .insert 1, .insert 3, .erase 3] := by
    refine ⟨trivial, fun t1 h1 => ⟨trivial, fun t2 h2 => ⟨trivial, fun t3 h3 => ⟨?_, ?_⟩⟩⟩⟩
    · cases h1
      cases h2
      cases h3
      rintro gone ⟨⟩
      decide
    · exact fun _ _ => trivial
  obtain ⟨tree, hrun, -, -, hheights, -⟩ := erase_run _ hops
  exact ⟨tree, hrun, hheights⟩

end AvlTree

end RebuildTheWheel.TinySTL
