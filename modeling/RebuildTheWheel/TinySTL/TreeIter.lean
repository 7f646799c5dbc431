import RebuildTheWheel.TinySTL.AvlTree

namespace RebuildTheWheel.TinySTL

open RebuildTheWheel.Data
open RebuildTheWheel.Data.SearchTree

/-! The iterators `bst_iter` and `avl_iter`, one code over two kinds of nodes. A node
pointer is the subtree it points to, the null pointer is `nil`. -/

/-- The top of `parent_` comes first. -/
structure TreeIter (ι : Type*) where
  ptr : BinaryTree ι
  parent : List (BinaryTree ι)
  visited : List (BinaryTree ι)

namespace TreeIter

variable {ι α : Type*} (key : ι → α)

section

variable [DecidableEq ι] [LinearOrder α]

/-- The loop of the constructor, for a pointer to a node with the value `k`. -/
def trace (ptr : BinaryTree ι) (k : α) : BinaryTree ι → List (BinaryTree ι) →
    List (BinaryTree ι) → TreeIter ι
  | .nil, parent, visited => ⟨ptr, parent, visited⟩
  | .node x left right, parent, visited =>
      if BinaryTree.node x left right ≠ ptr ∧ key x ≠ k then
        if key x < k then
          trace ptr k right (.node x left right :: parent) (.node x left right :: visited)
        else trace ptr k left (.node x left right :: parent) visited
      else ⟨ptr, parent, visited⟩

def make (root : BinaryTree ι) : BinaryTree ι → TreeIter ι
  | .nil => ⟨.nil, [], []⟩
  | .node x left right => trace key (.node x left right) (key x) root [] []

end

/-- `while (ptr_ && ptr_->left_)` -/
def descend (visited : List (BinaryTree ι)) : BinaryTree ι → List (BinaryTree ι) → TreeIter ι
  | .nil, parent => ⟨.nil, parent, visited⟩
  | .node x left right, parent =>
      if isNil left then ⟨.node x left right, parent, visited⟩
      else descend visited left (.node x left right :: parent)

/-- `while (!parent_.empty())` -/
def climb [DecidableEq ι] (visited : List (BinaryTree ι)) : List (BinaryTree ι) → TreeIter ι
  | [] => ⟨.nil, [], visited⟩
  | a :: parent => if a ∈ visited then climb visited parent else ⟨a, parent, a :: visited⟩

/-- `operator++` -/
def next [DecidableEq ι] (it : TreeIter ι) : Option (TreeIter ι) :=
  match it.ptr with
  | .nil => none
  | .node x left right =>
      let visited := .node x left right :: it.visited
      if isNil right then some (climb visited it.parent)
      else some (descend visited right (.node x left right :: it.parent))

/-- The values of `for (; it != cend(); ++it)`, which takes fewer than `fuel` steps. -/
def collect [DecidableEq ι] : Nat → TreeIter ι → Option (List α)
  | 0, _ => none
  | fuel + 1, it =>
      match it.ptr with
      | .nil => some []
      | .node x _ _ => it.next.bind fun it => (collect fuel it).map (key x :: ·)

/-! What an iterator still yields. -/

/-- The value of a node and those on its right. -/
def future : BinaryTree ι → List α
  | .nil => []
  | .node x _ right => key x :: keys key right

variable {key} {a ptr root : BinaryTree ι} {parent visited path : List (BinaryTree ι)}
  {x : ι} {k : α}

theorem future_eq_cons (key : ι → α) (h : root? a = some x) : ∃ ks, future key a = key x :: ks := by
  cases a with
  | nil => cases h
  | node y left right =>
      cases h
      exact ⟨_, rfl⟩

theorem root?_of_ne_nil (h : a ≠ .nil) : ∃ x, root? a = some x := by
  cases a with
  | nil => exact absurd rfl h
  | node x left right => exact ⟨x, rfl⟩

/-- The way down the left links. -/
theorem descend_spec (key : ι → α) (hright : a ≠ .nil) (visited parent : List (BinaryTree ι)) :
    ∃ path ptr, descend visited a parent = ⟨ptr, path ++ parent, visited⟩ ∧ ptr ≠ .nil ∧
      future key ptr ++ path.flatMap (future key) = keys key a ∧
      ∀ b ∈ path, ∃ x, root? b = some x ∧ key x ∈ keys key a := by
  induction a generalizing parent with
  | nil => exact absurd rfl hright
  | node x left right ihLeft _ =>
      rw [descend]
      split
      · next hleft =>
          rw [isNil_eq_true.mp hleft]
          exact ⟨[], _, rfl, (nomatch ·), by simp [future], by simp⟩
      · next hleft =>
          obtain ⟨path, ptr, hrun, hptr, hkeys, hpath⟩ := ihLeft (fun heq => hleft (by simp [heq]))
            (.node x left right :: parent)
          refine ⟨path ++ [.node x left right], ptr, ?_, hptr, ?_, ?_⟩
          · rw [hrun, List.append_assoc]
            rfl
          · rw [List.flatMap_append, ← List.append_assoc, hkeys]
            simp [future]
          · intro b hb
            rcases List.mem_append.mp hb with hb | hb
            · obtain ⟨y, hy, hmem⟩ := hpath b hb
              exact ⟨y, hy, List.mem_append_left _ hmem⟩
            · obtain rfl := List.mem_singleton.mp hb
              exact ⟨x, rfl, List.mem_append_right _ List.mem_cons_self⟩

def IsNode (ptr : BinaryTree ι) : BinaryTree ι → Prop
  | .nil => False
  | .node x left right => ptr = .node x left right ∨ IsNode ptr left ∨ IsNode ptr right

theorem IsNode.mem_keys {left right : BinaryTree ι} (h : IsNode (.node x left right) root) :
    key x ∈ keys key root := by
  induction root with
  | nil => exact h.elim
  | node y l r ihl ihr =>
      rw [keys_node, List.mem_append, List.mem_cons]
      rcases h with heq | h | h
      · cases heq
        exact .inr (.inl rfl)
      · exact .inl (ihl h)
      · exact .inr (.inr (ihr h))

theorem isNode_leftmost (hroot : root ≠ .nil) :
    ∃ x left right, leftmost root = .node x left right ∧ IsNode (.node x left right) root := by
  induction root with
  | nil => exact absurd rfl hroot
  | node y l r ihl _ =>
      rw [leftmost]
      split
      · exact ⟨y, l, r, rfl, .inl rfl⟩
      · next hl =>
          obtain ⟨x, left, right, hrun, hnode⟩ := ihl fun heq => hl (by simp [heq])
          exact ⟨x, left, right, hrun, .inr (.inl hnode)⟩

section

variable [DecidableEq ι]

def pending (key : ι → α) (visited parent : List (BinaryTree ι)) : List α :=
  (parent.filter (· ∉ visited)).flatMap (future key)

def yields (key : ι → α) (it : TreeIter ι) : List α := future key it.ptr ++ pending key it.visited it.parent

theorem pending_cons (a : BinaryTree ι) (visited parent : List (BinaryTree ι)) :
    pending key visited (a :: parent) =
      (if a ∈ visited then [] else future key a) ++ pending key visited parent := by
  by_cases ha : a ∈ visited <;> simp [pending, ha]

theorem pending_append (visited path parent : List (BinaryTree ι)) :
    pending key visited (path ++ parent) = pending key visited path ++ pending key visited parent := by
  simp [pending]

/-- A node that is not to come may be marked. -/
theorem pending_mark (h : ∀ x, root? a = some x → key x ∉ pending key visited parent)
    (hparent : ∀ a ∈ parent, a ≠ .nil) :
    pending key (a :: visited) parent = pending key visited parent := by
  induction parent with
  | nil => rfl
  | cons b parent ih =>
      rw [pending_cons, pending_cons]
      simp only [pending_cons, List.mem_append, not_or] at h
      rw [ih (fun x hx => (h x hx).2) fun a ha => hparent a (List.mem_cons_of_mem b ha)]
      by_cases hb : b ∈ visited
      · rw [if_pos hb, if_pos (List.mem_cons_of_mem a hb)]
      · have hne : b ≠ a := by
          rintro rfl
          obtain ⟨x, hx⟩ := root?_of_ne_nil (hparent b List.mem_cons_self)
          obtain ⟨ks, hks⟩ := future_eq_cons key hx
          have hout := (h x hx).1
          rw [if_neg hb, hks] at hout
          exact hout List.mem_cons_self
        rw [if_neg hb, if_neg fun hmem => (List.mem_cons.mp hmem).elim hne hb]

variable [LinearOrder α]

/-- Everything still to come is in order, and above what has been visited. -/
structure Sound (key : ι → α) (it : TreeIter ι) : Prop where
  sorted : (it.yields key).Pairwise (· < ·)
  seen : ∀ v ∈ it.visited, ∀ x, root? v = some x → ∀ k ∈ (it.yields key).tail, key x < k
  parent : ∀ a ∈ it.parent, a ≠ .nil
  ended : it.ptr = .nil → it.parent = []

/-- The way up to the nearest node that is not marked. -/
theorem climb_spec (hsorted : (pending key visited parent).Pairwise (· < ·))
    (hparent : ∀ a ∈ parent, a ≠ .nil) :
    (climb visited parent).yields key = pending key visited parent ∧
      (∀ v ∈ (climb visited parent).visited, v ∈ visited ∨ v = (climb visited parent).ptr) ∧
      (∀ a ∈ (climb visited parent).parent, a ≠ .nil) ∧
      ((climb visited parent).ptr = .nil → (climb visited parent).parent = []) := by
  induction parent with
  | nil => exact ⟨rfl, fun v hv => .inl hv, hparent, fun _ => rfl⟩
  | cons a parent ih =>
      have hrest : ∀ b ∈ parent, b ≠ .nil := fun b hb => hparent b (List.mem_cons_of_mem a hb)
      rw [pending_cons] at hsorted ⊢
      by_cases ha : a ∈ visited
      · rw [if_pos ha] at hsorted ⊢
        rw [climb, if_pos ha]
        exact ih hsorted hrest
      · rw [if_neg ha] at hsorted ⊢
        rw [climb, if_neg ha]
        refine ⟨congrArg _ (pending_mark ?_ hrest), ?_, hrest,
          fun heq => absurd heq (hparent a List.mem_cons_self)⟩
        · intro x hx hmem
          obtain ⟨ks, hks⟩ := future_eq_cons key hx
          rw [hks] at hsorted
          exact lt_irrefl _ ((List.pairwise_append.mp hsorted).2.2 _ List.mem_cons_self _ hmem)
        · intro v hv
          exact (List.mem_cons.mp hv).symm

/-- `operator++` moves on by one value. -/
theorem Sound.next {it : TreeIter ι} {left right : BinaryTree ι} (h : it.Sound key)
    (hptr : it.ptr = .node x left right) :
    ∃ it', it.next = some it' ∧ it'.Sound key ∧ it.yields key = key x :: it'.yields key := by
  have hyields : it.yields key =
      key x :: (keys key right ++ pending key it.visited it.parent) := by
    rw [yields, hptr, future]
    rfl
  obtain ⟨hroot, hsorted⟩ := List.pairwise_cons.mp (hyields ▸ h.sorted)
  -- what is marked from now on is below all that is to come
  have hseen : ∀ v ∈ BinaryTree.node x left right :: it.visited, ∀ y, root? v = some y →
      ∀ k ∈ keys key right ++ pending key it.visited it.parent, key y < k := by
    intro v hv y hy k hk
    rcases List.mem_cons.mp hv with rfl | hv
    · cases hy
      exact hroot k hk
    · refine h.seen v hv y hy k ?_
      rw [hyields]
      exact hk
  have hmark : pending key (.node x left right :: it.visited) it.parent =
      pending key it.visited it.parent := by
    refine pending_mark ?_ h.parent
    intro y hy hmem
    exact lt_irrefl _ (hseen _ List.mem_cons_self y hy _ (List.mem_append_right _ hmem))
  cases right with
  | nil =>
      rw [keys_nil, List.nil_append, ← hmark] at hyields hsorted hseen
      obtain ⟨hrest, hvisited, hparent, hended⟩ := climb_spec hsorted h.parent
      refine ⟨_, by rw [TreeIter.next, hptr]; rfl, ⟨?_, ?_, hparent, hended⟩, ?_⟩
      · rw [hrest]
        exact hsorted
      · intro v hv y hy k hk
        rw [hrest] at hk
        rcases hvisited v hv with hv | rfl
        · exact hseen v hv y hy k (List.mem_of_mem_tail hk)
        · obtain ⟨ks, hks⟩ := future_eq_cons key hy
          rw [yields, hks, List.cons_append] at hrest
          rw [← hrest] at hk hsorted
          exact (List.pairwise_cons.mp hsorted).1 k hk
      · rw [hyields, hrest]
  | node y rl rr =>
      obtain ⟨path, ptr, hrun, hne, hkeys, hpath⟩ := descend_spec key
        (fun heq => nomatch heq : BinaryTree.node y rl rr ≠ .nil)
        (.node x left (.node y rl rr) :: it.visited) (.node x left (.node y rl rr) :: it.parent)
      have hunmarked : ∀ b ∈ path, b ∉ BinaryTree.node x left (.node y rl rr) :: it.visited := by
        intro b hb hmem
        obtain ⟨z, hz, hz'⟩ := hpath b hb
        exact lt_irrefl _ (hseen b hmem z hz _ (List.mem_append_left _ hz'))
      have hpathPending : pending key (.node x left (.node y rl rr) :: it.visited) path =
          path.flatMap (future key) := by
        rw [pending, List.filter_eq_self.mpr]
        intro b hb
        exact decide_eq_true (hunmarked b hb)
      have hrest : (TreeIter.mk ptr (path ++ .node x left (.node y rl rr) :: it.parent)
          (.node x left (.node y rl rr) :: it.visited)).yields key =
            keys key (.node y rl rr) ++ pending key it.visited it.parent := by
        rw [yields, pending_append, pending_cons, if_pos List.mem_cons_self, hmark, hpathPending,
          List.nil_append, ← List.append_assoc, hkeys]
      refine ⟨_, by rw [TreeIter.next, hptr]; exact congrArg some hrun,
        ⟨?_, ?_, ?_, fun heq => absurd heq hne⟩, ?_⟩
      · rw [hrest]
        exact hsorted
      · intro v hv z hz k hk
        rw [hrest] at hk
        exact hseen v hv z hz k (List.mem_of_mem_tail hk)
      · intro b hb
        rcases List.mem_append.mp hb with hb | hb
        · obtain ⟨z, hz, -⟩ := hpath b hb
          rintro rfl
          cases hz
        · rcases List.mem_cons.mp hb with rfl | hb
          · exact fun heq => nomatch heq
          · exact h.parent b hb
      · rw [hrest, hyields]

theorem Sound.collect {it : TreeIter ι} (h : it.Sound key) {fuel : Nat}
    (hfuel : (it.yields key).length < fuel) : collect key fuel it = some (it.yields key) := by
  induction fuel generalizing it with
  | zero => cases hfuel
  | succ fuel ih =>
      rw [TreeIter.collect]
      cases hptr : it.ptr with
      | nil => rw [yields, hptr, h.ended hptr]; rfl
      | node x left right =>
          obtain ⟨it', hnext, hsound, hyields⟩ := h.next hptr
          rw [hyields, List.length_cons] at hfuel
          simp only [hnext, Option.bind_some, ih hsound (Nat.lt_of_succ_lt_succ hfuel),
            Option.map_some, hyields]

/-! The constructor. -/

def above (key : ι → α) (k : α) (a : BinaryTree ι) : Bool :=
  match a with
  | .nil => false
  | .node x _ _ => k < key x

theorem filter_le_of_lt {ks : List α} (h : ∀ k' ∈ ks, k' < k) :
    ks.filter (k ≤ ·) = [] :=
  List.filter_eq_nil_iff.mpr fun k' hk' => by simp [h k' hk']

theorem filter_le_of_gt {ks : List α} (h : ∀ k' ∈ ks, k < k') :
    ks.filter (k ≤ ·) = ks :=
  List.filter_eq_self.mpr fun k' hk' => by simp [(h k' hk').le]

/-- The loop goes down to the node, past the nodes in `path`. -/
theorem trace_spec {left right : BinaryTree ι} (hroot : Ordered key root)
    (hnode : IsNode (.node x left right) root) (parent visited : List (BinaryTree ι)) :
    ∃ path, trace key (.node x left right) (key x) root parent visited =
        ⟨.node x left right, path ++ parent, path.filter (!above key (key x) ·) ++ visited⟩ ∧
      future key (.node x left right) ++
          (path.filter (above key (key x))).flatMap (future key) =
        (keys key root).filter (key x ≤ ·) ∧
      ∀ a ∈ path, a ≠ .nil := by
  induction root generalizing parent visited with
  | nil => exact hnode.elim
  | node y l r ihl ihr =>
      rw [keys_node, List.filter_append, trace]
      rcases hnode with heq | hnode | hnode
      · cases heq
        refine ⟨[], if_neg fun hne => hne.1 rfl, ?_, fun a ha => nomatch ha⟩
        rw [filter_le_of_lt hroot.lt_root, List.filter_cons_of_pos (by simp),
          filter_le_of_gt hroot.root_lt]
        exact List.append_nil _
      · have hlt : key x < key y := hroot.lt_root _ hnode.mem_keys
        obtain ⟨path, hrun, hkeys, hpath⟩ := ihl hroot.left hnode (.node y l r :: parent) visited
        refine ⟨path ++ [.node y l r], ?_, ?_, ?_⟩
        · have hne : BinaryTree.node y l r ≠ .node x left right := by
            rintro ⟨⟩
            exact lt_irrefl _ hlt
          rw [if_pos ⟨hne, hlt.ne'⟩, if_neg hlt.not_gt, hrun]
          simp [above, hlt]
        · rw [List.filter_cons_of_pos (by simp [hlt.le]),
            filter_le_of_gt fun k hk => hlt.trans (hroot.root_lt k hk), ← hkeys]
          simp [above, hlt, future]
        · intro a ha
          rcases List.mem_append.mp ha with ha | ha
          · exact hpath a ha
          · rw [List.mem_singleton.mp ha]
            exact fun heq => nomatch heq
      · have hlt : key y < key x := hroot.root_lt _ hnode.mem_keys
        obtain ⟨path, hrun, hkeys, hpath⟩ := ihr hroot.right hnode (.node y l r :: parent)
          (.node y l r :: visited)
        refine ⟨path ++ [.node y l r], ?_, ?_, ?_⟩
        · have hne : BinaryTree.node y l r ≠ .node x left right := by
            rintro ⟨⟩
            exact lt_irrefl _ hlt
          rw [if_pos ⟨hne, hlt.ne⟩, if_pos hlt, hrun]
          simp [above, hlt.not_gt]
        · rw [List.filter_cons_of_neg (by simp [hlt]),
            filter_le_of_lt fun k hk => (hroot.lt_root k hk).trans hlt, ← hkeys]
          simp [above, hlt.not_gt]
        · intro a ha
          rcases List.mem_append.mp ha with ha | ha
          · exact hpath a ha
          · rw [List.mem_singleton.mp ha]
            exact fun heq => nomatch heq

/-- An iterator made at a node yields its value and those above it. -/
theorem make_spec {left right : BinaryTree ι} (hroot : Ordered key root)
    (hnode : IsNode (.node x left right) root) :
    (make key root (.node x left right)).Sound key ∧
      (make key root (.node x left right)).yields key =
        (keys key root).filter (key x ≤ ·) := by
  obtain ⟨path, hrun, hkeys, hpath⟩ := trace_spec hroot hnode [] []
  rw [List.append_nil, List.append_nil] at hrun
  have hfilter : path.filter (· ∉ path.filter (!above key (key x) ·)) =
      path.filter (above key (key x)) := by
    refine List.filter_congr fun a ha => ?_
    cases habove : above key (key x) a <;> simp [ha, habove]
  have hyields : (make key root (.node x left right)).yields key =
      (keys key root).filter (key x ≤ ·) := by
    rw [make, hrun, yields, pending, hfilter, hkeys]
  have hsorted : ((make key root (.node x left right)).yields key).Pairwise (· < ·) := by
    rw [hyields]
    exact hroot.filter _
  refine ⟨⟨hsorted, ?_, ?_, ?_⟩, hyields⟩
  · intro v hv y hy k hk
    have hx : key x < k := by
      rw [make, hrun] at hsorted hk
      exact (List.pairwise_cons.mp hsorted).1 k hk
    have hv' : v ∈ path.filter (!above key (key x) ·) := by
      rw [make, hrun] at hv
      exact hv
    have habove := (List.mem_filter.mp hv').2
    cases v with
    | nil => cases hy
    | node z _ _ =>
        cases hy
        have hle : key y ≤ key x := by simpa [above] using habove
        exact hle.trans_lt hx
  · rw [make, hrun]
    exact hpath
  · rw [make, hrun]
    exact fun heq => nomatch heq

theorem make_nil_sound (root : BinaryTree ι) : (make key root .nil).Sound key :=
  ⟨List.Pairwise.nil, fun _ hv => (nomatch hv), fun _ ha => (nomatch ha), fun _ => rfl⟩

/-- From the first node on, everything is yielded. -/
theorem make_leftmost_spec (hroot : Ordered key root) :
    (make key root (leftmost root)).Sound key ∧
      (make key root (leftmost root)).yields key = keys key root := by
  by_cases hne : root = .nil
  · subst hne
    exact ⟨make_nil_sound _, rfl⟩
  · obtain ⟨x, left, right, hleftmost, hnode⟩ := isNode_leftmost hne
    have hhead := map_root?_leftmost key root
    obtain ⟨hsound, hyields⟩ := make_spec hroot hnode
    rw [hleftmost]
    refine ⟨hsound, hyields.trans (List.filter_eq_self.mpr fun k hk => decide_eq_true ?_)⟩
    rw [hleftmost, root?, Option.map_some] at hhead
    obtain ⟨ks, hks⟩ := List.head?_eq_some_iff.mp hhead.symm
    have hsorted : (key x :: ks).Pairwise (· < ·) := hks ▸ hroot
    rw [hks] at hk
    rcases List.mem_cons.mp hk with rfl | hk
    · exact le_rfl
    · exact ((List.pairwise_cons.mp hsorted).1 k hk).le

end

end TreeIter

namespace BinarySearchTree

variable {T : Type*} [LinearOrder T]

theorem isNode_findAux {root : BinaryTree T} {v : T} (h : Ordered id root) (hv : v ∈ keys id root) :
    ∃ left right, findAux v root = .node v left right ∧
      TreeIter.IsNode (.node v left right) root := by
  induction root with
  | nil => cases hv
  | node x l r ihl ihr =>
      rw [findAux]
      rcases lt_trichotomy v x with hlt | rfl | hgt
      · rw [if_neg hlt.ne, if_pos hlt]
        obtain ⟨left, right, hfind, hnode⟩ := ihl h.left ((h.mem_of_lt hlt).mp hv)
        exact ⟨left, right, hfind, .inr (.inl hnode)⟩
      · exact ⟨l, r, if_pos rfl, .inl rfl⟩
      · rw [if_neg hgt.ne', if_neg hgt.not_gt]
        obtain ⟨left, right, hfind, hnode⟩ := ihr h.right ((h.mem_of_gt hgt).mp hv)
        exact ⟨left, right, hfind, .inr (.inr hnode)⟩

/-- `find(v)` as an iterator. -/
def findIter (tree : BinarySearchTree T) (v : T) : TreeIter T :=
  TreeIter.make id tree.root (tree.find v)

def cbegin (tree : BinarySearchTree T) : TreeIter T := TreeIter.make id tree.root tree.findMin

end BinarySearchTree

namespace AvlTree

deriving instance DecidableEq for NodeData

variable {T : Type*} [LinearOrder T]

theorem isNode_findAux {root : Node T} {v : T} (h : Ordered NodeData.data root)
    (hv : v ∈ keys NodeData.data root) :
    ∃ x left right, x.data = v ∧ findAux v root = .node x left right ∧
      TreeIter.IsNode (.node x left right) root := by
  induction root with
  | nil => cases hv
  | node x l r ihl ihr =>
      rw [findAux]
      rcases lt_trichotomy v x.data with hlt | rfl | hgt
      · rw [if_neg hlt.not_gt, if_pos hlt]
        obtain ⟨y, left, right, hy, hfind, hnode⟩ := ihl h.left ((h.mem_of_lt hlt).mp hv)
        exact ⟨y, left, right, hy, hfind, .inr (.inl hnode)⟩
      · rw [if_neg (lt_irrefl _), if_neg (lt_irrefl _)]
        exact ⟨x, l, r, rfl, rfl, .inl rfl⟩
      · rw [if_pos hgt]
        obtain ⟨y, left, right, hy, hfind, hnode⟩ := ihr h.right ((h.mem_of_gt hgt).mp hv)
        exact ⟨y, left, right, hy, hfind, .inr (.inr hnode)⟩

/-- `find(v)` as an iterator. -/
def findIter (tree : AvlTree T) (v : T) : TreeIter (NodeData T) :=
  TreeIter.make NodeData.data tree.root (findAux v tree.root)

def cbegin (tree : AvlTree T) : TreeIter (NodeData T) :=
  TreeIter.make NodeData.data tree.root (findMinAux tree.root)

end AvlTree

namespace TreeIter

variable {ι α T : Type*} [DecidableEq ι] [LinearOrder α] [LinearOrder T]

/-- The iterator from `find(v)` passes the values above `v`, in order and once each, before
it equals `cend()`, and the one from `cbegin()` passes them all. -/
def Visits (key : ι → α) (root : BinaryTree ι) (find : α → TreeIter ι) (cbegin : TreeIter ι) :
    Prop :=
  ∀ fuel, root.numNodes < fuel →
    (∀ v ∈ keys key root, ∃ values, collect key fuel (find v) = some (v :: values) ∧
      values.Pairwise (· < ·) ∧ ∀ k, k ∈ values ↔ k ∈ keys key root ∧ v < k) ∧
    collect key fuel cbegin = some (keys key root)

theorem visits_of_isNode {key : ι → α} {root : BinaryTree ι} (hroot : Ordered key root)
    {ptr : α → BinaryTree ι}
    (hptr : ∀ v ∈ keys key root, ∃ x left right, key x = v ∧ ptr v = .node x left right ∧
      IsNode (.node x left right) root) :
    Visits key root (fun v => make key root (ptr v)) (make key root (leftmost root)) := by
  intro fuel hfuel
  rw [← length_keys key] at hfuel
  constructor
  · intro v hv
    obtain ⟨x, left, right, rfl, hfind, hnode⟩ := hptr v hv
    obtain ⟨hsound, hyields⟩ := make_spec hroot hnode
    have hlength := List.length_filter_le (key x ≤ ·) (keys key root)
    have hcollect := hsound.collect (hyields ▸ hlength.trans_lt hfuel)
    obtain ⟨values, hvalues⟩ : ∃ values, (make key root (.node x left right)).yields key =
        key x :: values := by
      obtain ⟨path, hrun, -⟩ := trace_spec hroot hnode [] []
      rw [make, hrun]
      exact ⟨_, rfl⟩
    have hsorted := hvalues ▸ hsound.sorted
    refine ⟨values, ?_, (List.pairwise_cons.mp hsorted).2, fun k => ?_⟩
    · simp only [hfind, hcollect, hvalues]
    · have hmem : k ∈ key x :: values ↔ k ∈ keys key root ∧ key x ≤ k := by
        rw [← hvalues, hyields, List.mem_filter, decide_eq_true_iff]
      constructor
      · intro hk
        have hlt := (List.pairwise_cons.mp hsorted).1 k hk
        exact ⟨(hmem.mp (List.mem_cons_of_mem _ hk)).1, hlt⟩
      · rintro ⟨hk, hlt⟩
        exact (List.mem_cons.mp (hmem.mpr ⟨hk, hlt.le⟩)).resolve_left hlt.ne'
  · obtain ⟨hsound, hyields⟩ := make_leftmost_spec hroot
    rw [hsound.collect (hyields ▸ hfuel), hyields]

theorem iter_visits (bst : BinarySearchTree T) (avl : AvlTree T) (hbst : Ordered id bst.root)
    (havl : Ordered AvlTree.NodeData.data avl.root) :
    Visits id bst.root bst.findIter bst.cbegin ∧
      Visits AvlTree.NodeData.data avl.root avl.findIter avl.cbegin := by
  constructor
  · refine visits_of_isNode hbst fun v hv => ?_
    obtain ⟨left, right, hfind, hnode⟩ := BinarySearchTree.isNode_findAux hbst hv
    exact ⟨v, left, right, rfl, hfind, hnode⟩
  · exact visits_of_isNode havl fun v hv => AvlTree.isNode_findAux havl hv

theorem iter_visits_three :
    Visits id (BinaryTree.node 2 (.node 1 .nil .nil) (.node 3 .nil .nil))
        (BinarySearchTree.mk (.node 2 (.node 1 .nil .nil) (.node 3 .nil .nil)) 3).findIter
        (BinarySearchTree.mk (.node 2 (.node 1 .nil .nil) (.node 3 .nil .nil)) 3).cbegin ∧
      Visits AvlTree.NodeData.data (BinaryTree.node ⟨2, 1⟩ .nil .nil)
        (AvlTree.mk (.node ⟨2, 1⟩ .nil .nil) 1).findIter
        (AvlTree.mk (.node ⟨2, 1⟩ .nil .nil) 1).cbegin :=
  iter_visits ⟨.node 2 (.node 1 .nil .nil) (.node 3 .nil .nil), 3⟩ ⟨.node ⟨2, 1⟩ .nil .nil, 1⟩
    (by simp [Ordered]) (by simp [Ordered])

end TreeIter

end RebuildTheWheel.TinySTL
