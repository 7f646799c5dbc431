import Mathlib.Data.Tree.Basic
import Mathlib.Order.Bounds.Basic
import Mathlib.Data.List.Basic

namespace RebuildTheWheel.Data

/-! Search trees over payloads of any type, ordered by a key read from the
payload. Order is stated on the in-order key list, so that a rotation, which
leaves that list alone, needs no argument about order. -/

namespace SearchTree

variable {ι α : Type*}

def isNil : BinaryTree ι → Bool
  | .nil => true
  | .node _ _ _ => false

def root? : BinaryTree ι → Option ι
  | .nil => none
  | .node x _ _ => some x

def keys (key : ι → α) : BinaryTree ι → List α
  | .nil => []
  | .node x left right => keys key left ++ key x :: keys key right

def Ordered [LT α] (key : ι → α) (tree : BinaryTree ι) : Prop :=
  (keys key tree).Pairwise (· < ·)

/-- `Every P tree`: `P` holds of each node, read with its payload and its two
subtrees. -/
def Every (P : ι → BinaryTree ι → BinaryTree ι → Prop) : BinaryTree ι → Prop
  | .nil => True
  | .node x left right => P x left right ∧ Every P left ∧ Every P right

/-- The node a walk along left links ends at. -/
def leftmost : BinaryTree ι → BinaryTree ι
  | .nil => .nil
  | .node x left right =>
      if isNil left then .node x left right else leftmost left

/-- The node a walk along right links ends at. -/
def rightmost : BinaryTree ι → BinaryTree ι
  | .nil => .nil
  | .node x left right =>
      if isNil right then .node x left right else rightmost right

@[simp] theorem isNil_nil : isNil (.nil : BinaryTree ι) = true := rfl

@[simp] theorem isNil_node (x : ι) (left right : BinaryTree ι) :
    isNil (.node x left right) = false := rfl

@[simp] theorem isNil_eq_true {tree : BinaryTree ι} :
    isNil tree = true ↔ tree = .nil := by
  cases tree <;> simp

@[simp] theorem isNil_eq_false {tree : BinaryTree ι} :
    isNil tree = false ↔ tree ≠ .nil := by
  cases tree <;> simp

@[simp] theorem keys_nil (key : ι → α) : keys key .nil = [] := rfl

@[simp] theorem keys_node (key : ι → α) (x : ι) (left right : BinaryTree ι) :
    keys key (.node x left right) = keys key left ++ key x :: keys key right := rfl

@[simp] theorem every_nil (P : ι → BinaryTree ι → BinaryTree ι → Prop) :
    Every P .nil := trivial

@[simp] theorem every_node (P : ι → BinaryTree ι → BinaryTree ι → Prop)
    (x : ι) (left right : BinaryTree ι) :
    Every P (.node x left right) ↔ P x left right ∧ Every P left ∧ Every P right :=
  Iff.rfl

instance decidableEvery (P : ι → BinaryTree ι → BinaryTree ι → Prop)
    [∀ x left right, Decidable (P x left right)] :
    ∀ tree : BinaryTree ι, Decidable (Every P tree)
  | .nil => isTrue trivial
  | .node x left right =>
      have := decidableEvery P left
      have := decidableEvery P right
      inferInstanceAs (Decidable (P x left right ∧ Every P left ∧ Every P right))

theorem length_keys (key : ι → α) (tree : BinaryTree ι) :
    (keys key tree).length = tree.numNodes := by
  induction tree with
  | nil => rfl
  | node x left right ihLeft ihRight =>
      simp only [keys_node, List.length_append, List.length_cons, ihLeft, ihRight,
        BinaryTree.numNodes]
      omega

theorem keys_map {β : Type*} (key : β → α) (f : ι → β) (tree : BinaryTree ι) :
    keys key (tree.map f) = keys (fun x => key (f x)) tree := by
  induction tree with
  | nil => rfl
  | node x left right ihLeft ihRight =>
      simp only [BinaryTree.map, keys_node, ihLeft, ihRight]

@[simp] theorem isNil_map {β : Type*} (f : ι → β) (tree : BinaryTree ι) :
    isNil (tree.map f) = isNil tree := by
  cases tree <;> rfl

theorem root?_map {β : Type*} (f : ι → β) (tree : BinaryTree ι) :
    root? (tree.map f) = (root? tree).map f := by
  cases tree <;> rfl

theorem leftmost_map {β : Type*} (f : ι → β) (tree : BinaryTree ι) :
    leftmost (tree.map f) = (leftmost tree).map f := by
  induction tree with
  | nil => rfl
  | node x left right ihLeft _ =>
      simp only [BinaryTree.map, leftmost, isNil_map]
      split
      · rfl
      · exact ihLeft

theorem rightmost_map {β : Type*} (f : ι → β) (tree : BinaryTree ι) :
    rightmost (tree.map f) = (rightmost tree).map f := by
  induction tree with
  | nil => rfl
  | node x left right _ ihRight =>
      simp only [BinaryTree.map, rightmost, isNil_map]
      split
      · rfl
      · exact ihRight

theorem mem_keys_of_root? {key : ι → α} {tree : BinaryTree ι} {x : ι}
    (h : root? tree = some x) : key x ∈ keys key tree := by
  cases tree with
  | nil => cases h
  | node y left right =>
      cases h
      simp

theorem keys_eq_nil {key : ι → α} {tree : BinaryTree ι} :
    keys key tree = [] ↔ tree = .nil := by
  cases tree <;> simp

theorem map_root?_leftmost (key : ι → α) (tree : BinaryTree ι) :
    (root? (leftmost tree)).map key = (keys key tree).head? := by
  induction tree with
  | nil => rfl
  | node x left right ihLeft _ =>
      cases left with
      | nil => rfl
      | node y ll lr =>
          rw [leftmost, isNil_node, if_neg Bool.false_ne_true, ihLeft]
          simp

theorem map_root?_rightmost (key : ι → α) (tree : BinaryTree ι) :
    (root? (rightmost tree)).map key = (keys key tree).getLast? := by
  induction tree with
  | nil => rfl
  | node x left right _ ihRight =>
      cases right with
      | nil => simp [rightmost, root?]
      | node y rl rr =>
          rw [rightmost, isNil_node, if_neg Bool.false_ne_true, ihRight]
          simp [List.getLast?_append, List.getLast?_cons]

theorem cons_filter_ne_of_head? [DecidableEq α] {ks : List α} {k : α}
    (hnodup : ks.Nodup) (hhead : ks.head? = some k) :
    k :: ks.filter (· ≠ k) = ks := by
  cases ks with
  | nil => simp at hhead
  | cons a rest =>
      obtain rfl : a = k := by simpa using hhead
      have hrest : rest.filter (· ≠ a) = rest := by
        rw [List.filter_eq_self]
        intro b hb
        have hne : b ≠ a := fun hba => (List.nodup_cons.mp hnodup).1 (hba ▸ hb)
        simpa using hne
      rw [List.filter_cons_of_neg (by simp), hrest]

theorem filter_ne_append_of_getLast? [DecidableEq α] {ks : List α} {k : α}
    (hnodup : ks.Nodup) (hlast : ks.getLast? = some k) :
    ks.filter (· ≠ k) ++ [k] = ks := by
  obtain ⟨front, rfl⟩ := List.getLast?_eq_some_iff.mp hlast
  have hfront : front.filter (· ≠ k) = front := by
    rw [List.filter_eq_self]
    intro b hb
    have hne : b ≠ k := fun hbk =>
      (List.nodup_append.mp hnodup).2.2 b hb k (by simp) hbk
    simpa using hne
  rw [List.filter_append, hfront]
  simp

section Order

variable [LinearOrder α] {key : ι → α}

theorem ordered_node {x : ι} {left right : BinaryTree ι} :
    Ordered key (.node x left right) ↔
      Ordered key left ∧ Ordered key right ∧
        (∀ k ∈ keys key left, k < key x) ∧ (∀ k ∈ keys key right, key x < k) := by
  simp only [Ordered, keys_node, List.pairwise_append, List.pairwise_cons,
    List.mem_cons]
  constructor
  · rintro ⟨hleft, ⟨hx, hright⟩, hcross⟩
    exact ⟨hleft, hright, fun k hk => hcross k hk _ (Or.inl rfl), hx⟩
  · rintro ⟨hleft, hright, hl, hr⟩
    refine ⟨hleft, ⟨hr, hright⟩, ?_⟩
    rintro k hk k' (rfl | hk')
    · exact hl k hk
    · exact lt_trans (hl k hk) (hr k' hk')

theorem Ordered.left {x : ι} {left right : BinaryTree ι}
    (h : Ordered key (.node x left right)) : Ordered key left :=
  (ordered_node.mp h).1

theorem Ordered.right {x : ι} {left right : BinaryTree ι}
    (h : Ordered key (.node x left right)) : Ordered key right :=
  (ordered_node.mp h).2.1

theorem Ordered.lt_root {x : ι} {left right : BinaryTree ι}
    (h : Ordered key (.node x left right)) : ∀ k ∈ keys key left, k < key x :=
  (ordered_node.mp h).2.2.1

theorem Ordered.root_lt {x : ι} {left right : BinaryTree ι}
    (h : Ordered key (.node x left right)) : ∀ k ∈ keys key right, key x < k :=
  (ordered_node.mp h).2.2.2

theorem Ordered.nodup {tree : BinaryTree ι} (h : Ordered key tree) :
    (keys key tree).Nodup :=
  h.imp fun hlt => ne_of_lt hlt

/-- The side of the root on which a key that differs from the root's can be. -/
theorem Ordered.mem_of_lt {x : ι} {left right : BinaryTree ι}
    (h : Ordered key (.node x left right)) {k : α} (hk : k < key x) :
    k ∈ keys key (.node x left right) ↔ k ∈ keys key left := by
  simp only [keys_node, List.mem_append, List.mem_cons]
  constructor
  · rintro (hleft | rfl | hright)
    · exact hleft
    · exact absurd hk (lt_irrefl _)
    · exact absurd (h.root_lt k hright) (lt_asymm hk)
  · exact Or.inl

theorem Ordered.mem_of_gt {x : ι} {left right : BinaryTree ι}
    (h : Ordered key (.node x left right)) {k : α} (hk : key x < k) :
    k ∈ keys key (.node x left right) ↔ k ∈ keys key right := by
  simp only [keys_node, List.mem_append, List.mem_cons]
  constructor
  · rintro (hleft | rfl | hright)
    · exact absurd (h.lt_root k hleft) (lt_asymm hk)
    · exact absurd hk (lt_irrefl _)
    · exact hright
  · exact fun hright => Or.inr (Or.inr hright)

theorem Ordered.filter_ne_left {x : ι} {left right : BinaryTree ι}
    (h : Ordered key (.node x left right)) {k : α} (hk : k < key x) :
    (keys key (.node x left right)).filter (· ≠ k) =
      (keys key left).filter (· ≠ k) ++ key x :: keys key right := by
  have hright : (keys key right).filter (· ≠ k) = keys key right := by
    rw [List.filter_eq_self]
    intro a ha
    simpa using ne_of_gt (lt_trans hk (h.root_lt a ha))
  rw [keys_node, List.filter_append, List.filter_cons_of_pos (by simpa using ne_of_gt hk),
    hright]

theorem Ordered.filter_ne_right {x : ι} {left right : BinaryTree ι}
    (h : Ordered key (.node x left right)) {k : α} (hk : key x < k) :
    (keys key (.node x left right)).filter (· ≠ k) =
      keys key left ++ key x :: (keys key right).filter (· ≠ k) := by
  have hleft : (keys key left).filter (· ≠ k) = keys key left := by
    rw [List.filter_eq_self]
    intro a ha
    simpa using ne_of_lt (lt_trans (h.lt_root a ha) hk)
  rw [keys_node, List.filter_append, List.filter_cons_of_pos (by simpa using ne_of_lt hk),
    hleft]

theorem Ordered.filter_ne_root {x : ι} {left right : BinaryTree ι}
    (h : Ordered key (.node x left right)) :
    (keys key (.node x left right)).filter (· ≠ key x) =
      keys key left ++ keys key right := by
  have hleft : (keys key left).filter (· ≠ key x) = keys key left := by
    rw [List.filter_eq_self]
    intro a ha
    simpa using ne_of_lt (h.lt_root a ha)
  have hright : (keys key right).filter (· ≠ key x) = keys key right := by
    rw [List.filter_eq_self]
    intro a ha
    simpa using ne_of_gt (h.root_lt a ha)
  rw [keys_node, List.filter_append, List.filter_cons_of_neg (by simp), hleft, hright]

/-- A tree whose keys are some of those of an ordered tree, in their order, is
ordered. -/
theorem Ordered.of_filter {tree tree' : BinaryTree ι} {p : α → Bool}
    (h : Ordered key tree) (hkeys : keys key tree' = (keys key tree).filter p) :
    Ordered key tree' := by
  rw [Ordered, hkeys]
  exact h.filter p

theorem isLeast_head? {ks : List α} (hks : ks.Pairwise (· < ·)) (m : α) :
    ks.head? = some m ↔ IsLeast {k | k ∈ ks} m := by
  cases ks with
  | nil => simp [IsLeast]
  | cons a rest =>
      obtain ⟨ha, -⟩ := List.pairwise_cons.mp hks
      have hleast : IsLeast {k | k ∈ a :: rest} a := by
        refine ⟨by simp, fun k hk => ?_⟩
        rcases List.mem_cons.mp hk with rfl | hk
        · exact le_rfl
        · exact (ha k hk).le
      rw [List.head?_cons, Option.some.injEq]
      constructor
      · rintro rfl
        exact hleast
      · exact fun hm => hleast.unique hm

theorem isGreatest_getLast? {ks : List α} (hks : ks.Pairwise (· < ·)) (m : α) :
    ks.getLast? = some m ↔ IsGreatest {k | k ∈ ks} m := by
  rcases List.eq_nil_or_concat ks with rfl | ⟨front, a, rfl⟩
  · simp [IsGreatest]
  · rw [List.concat_eq_append] at hks ⊢
    have hgreatest : IsGreatest {k | k ∈ front ++ [a]} a := by
      refine ⟨by simp, fun k hk => ?_⟩
      rcases List.mem_append.mp hk with hk | hk
      · exact ((List.pairwise_append.mp hks).2.2 k hk a (by simp)).le
      · exact (List.mem_singleton.mp hk).le
    rw [List.getLast?_append, List.getLast?_singleton, Option.some_or, Option.some.injEq]
    constructor
    · rintro rfl
      exact hgreatest
    · exact fun hm => hgreatest.unique hm

theorem Ordered.isLeast_leftmost {tree : BinaryTree ι} (h : Ordered key tree) (m : α) :
    (root? (leftmost tree)).map key = some m ↔ IsLeast {k | k ∈ keys key tree} m := by
  rw [map_root?_leftmost, isLeast_head? h]

theorem Ordered.isGreatest_rightmost {tree : BinaryTree ι} (h : Ordered key tree) (m : α) :
    (root? (rightmost tree)).map key = some m ↔ IsGreatest {k | k ∈ keys key tree} m := by
  rw [map_root?_rightmost, isGreatest_getLast? h]

end Order

end SearchTree

end RebuildTheWheel.Data

namespace RebuildTheWheel.Data.ThreadedTree

open SearchTree

/-! Binary trees in memory by the links of their nodes. The right link of the last node
leaves the tree: for a whole tree it is `nil`, for a threaded one the node that comes after
the tree. -/

variable {ι : Type*} {left right left' right' : ι → ι} {nil p q r x : ι} {t l m : BinaryTree ι}

def Spans (left right : ι → ι) (nil : ι) : ι → ι → BinaryTree ι → Prop
  | after, r, .nil => r = after
  | after, r, .node x l m =>
      r = x ∧ x ≠ nil ∧ Spans left right nil nil (left x) l ∧
        Spans left right nil after (right x) m

def nodes (t : BinaryTree ι) : List ι := keys id t

@[simp] theorem nodes_nil : nodes (.nil : BinaryTree ι) = [] := rfl

@[simp] theorem nodes_node (x : ι) (l m : BinaryTree ι) :
    nodes (.node x l m) = nodes l ++ x :: nodes m := rfl

def preorder : BinaryTree ι → List ι
  | .nil => []
  | .node x l m => x :: (preorder l ++ preorder m)

/-- The node at the end of the right links from `x`, below which `t` hangs. -/
def lastFrom (x : ι) : BinaryTree ι → ι
  | .nil => x
  | .node y _ m => lastFrom y m

theorem lastFrom_mem (x : ι) (l m : BinaryTree ι) :
    lastFrom x m ∈ nodes (.node x l m) := by
  induction m generalizing x l with
  | nil => simp [lastFrom]
  | node y l' m _ ih =>
      have hmem := ih y l'
      rw [nodes_node, lastFrom]
      exact List.mem_append_right _ (List.mem_cons_of_mem x hmem)

theorem Spans.ne_nil (h : Spans left right nil q r t) : nil ∉ nodes t := by
  induction t generalizing q r with
  | nil => exact List.not_mem_nil
  | node x l m ihl ihm =>
      obtain ⟨-, hx, hl, hm⟩ := h
      simp [ihl hl, ihm hm, hx.symm]

theorem Spans.congr (h : Spans left right nil q r t) (hleft : ∀ y ∈ nodes t, left' y = left y)
    (hright : ∀ y ∈ nodes t, right' y = right y) : Spans left' right' nil q r t := by
  induction t generalizing q r with
  | nil => exact h
  | node x l m ihl ihm =>
      obtain ⟨hr, hx, hl, hm⟩ := h
      simp only [nodes_node, List.mem_append, List.mem_cons] at hleft hright
      refine ⟨hr, hx, ?_, ?_⟩
      · rw [hleft x (.inr (.inl rfl))]
        exact ihl hl (fun y hy => hleft y (.inl hy)) fun y hy => hright y (.inl hy)
      · rw [hright x (.inr (.inl rfl))]
        exact ihm hm (fun y hy => hleft y (.inr (.inr hy))) fun y hy => hright y (.inr (.inr hy))

theorem Spans.right_last (h : Spans left right nil q r (.node x l m)) :
    right (lastFrom x m) = q := by
  induction m generalizing r x l with
  | nil => exact h.2.2.2
  | node y l' m _ ih => exact ih h.2.2.2

/-- The right link of the last node is set. -/
theorem Spans.rethread (h : Spans left right nil q r (.node x l m))
    (hnodup : (nodes (.node x l m)).Nodup) (hleft : ∀ y, left' y = left y)
    (hlast : right' (lastFrom x m) = p) (hright : ∀ y, y ≠ lastFrom x m → right' y = right y) :
    Spans left' right' nil p r (.node x l m) := by
  induction m generalizing r x l with
  | nil =>
      obtain ⟨hr, hx, hl, -⟩ := h
      refine ⟨hr, hx, ?_, hlast⟩
      rw [hleft]
      refine hl.congr (fun y _ => hleft y) fun y hy => hright y ?_
      rintro rfl
      rw [nodes_node] at hnodup
      exact (List.nodup_append.mp hnodup).2.2 _ hy _ List.mem_cons_self rfl
  | node z l' m _ ih =>
      obtain ⟨hr, hx, hl, hm⟩ := h
      rw [nodes_node] at hnodup
      obtain ⟨-, hxm, hapart⟩ := List.nodup_append.mp hnodup
      obtain ⟨hxnot, hm'⟩ := List.nodup_cons.mp hxm
      have hmem : lastFrom z m ∈ nodes (.node z l' m) := lastFrom_mem z l' m
      refine ⟨hr, hx, ?_, ?_⟩
      · rw [hleft]
        refine hl.congr (fun y _ => hleft y) fun y hy => hright y ?_
        rintro rfl
        exact hapart _ hy _ (List.mem_cons_of_mem x hmem) rfl
      · have hne : x ≠ lastFrom z m := fun heq => hxnot (heq ▸ hmem)
        rw [hright x hne]
        exact ih hm hm' hlast hright

end RebuildTheWheel.Data.ThreadedTree
