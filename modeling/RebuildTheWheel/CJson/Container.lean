import RebuildTheWheel.CJson.Links
import Mathlib.Data.List.Perm.Subperm

namespace RebuildTheWheel.CJson.Heap

open RebuildTheWheel.Data

/-! Arrays and objects as the list of their children. -/

/-- A well-formed container and its children. -/
structure HasChildren (h : Heap) (array : Ref) (children : List Ref) : Prop where
  node : h.isNode array
  chain : Chain h.next h.prev (h.child array) children
  nodes : ∀ c ∈ children, h.isNode c

structure Detached (h : Heap) (x : Ref) : Prop where
  node : h.isNode x
  next : h.next x = none
  prev : h.prev x = none

/-- `h'` is `h` with other links in `spine` and another first child of `array`. -/
structure Relinked (array : Ref) (spine : List Ref) (h h' : Heap) : Prop where
  fresh : h'.fresh = h.fresh
  fails : h'.fails = h.fails
  outside : ∀ r, r ≠ array → r ∉ spine → h'.cells r = h.cells r
  texts : ∀ r s, h.cells r = some (.text s) → h'.cells r = some (.text s)
  nodes : ∀ r n, h.node r = some n → ∃ next prev child,
    h'.node r = some { n with next := next, prev := prev, child := child } ∧
      (r ≠ array → child = n.child)

variable {h h' h'' : Heap} {array x c : Ref} {children xs ys spine : List Ref}

theorem Relinked.refl (array : Ref) (spine : List Ref) (h : Heap) : Relinked array spine h h where
  fresh := rfl
  fails := rfl
  outside := fun _ _ _ => rfl
  texts := fun _ _ hr => hr
  nodes := fun _ n hn => ⟨n.next, n.prev, n.child, hn, fun _ => rfl⟩

theorem Relinked.trans (hl : Relinked array spine h h') (hr : Relinked array spine h' h'') :
    Relinked array spine h h'' where
  fresh := hr.fresh.trans hl.fresh
  fails := hr.fails.trans hl.fails
  outside := fun r harray hspine =>
    (hr.outside r harray hspine).trans (hl.outside r harray hspine)
  texts := fun r s hs => hr.texts r s (hl.texts r s hs)
  nodes := by
    intro r n hn
    obtain ⟨_, _, child, hn', hchild⟩ := hl.nodes r n hn
    obtain ⟨next, prev, child', hn'', hchild'⟩ := hr.nodes r _ hn'
    exact ⟨next, prev, child', hn'', fun hne => (hchild' hne).trans (hchild hne)⟩

theorem relinked_modify (hr : r = array ∨ r ∈ spine) {f : Node → Node}
    (hf : ∀ n, ∃ next prev child, f n = { n with next := next, prev := prev, child := child } ∧
      (r ≠ array → child = n.child)) : Relinked array spine h (h.modify r f) where
  fresh := rfl
  fails := rfl
  outside := by
    intro p harray hspine
    have hne : p ≠ r := by
      rintro rfl
      exact hr.elim harray hspine
    simp only [modify, if_neg hne]
  texts := by
    intro p s hs
    by_cases hp : p = r
    · subst p
      simp only [modify, if_true, hs]
    · simpa only [modify, if_neg hp] using hs
  nodes := by
    intro p n hn
    rw [node_modify]
    by_cases hp : p = r
    · subst p
      obtain ⟨next, prev, child, heq, hchild⟩ := hf n
      rw [if_pos rfl, hn, Option.map_some, heq]
      exact ⟨next, prev, child, rfl, hchild⟩
    · rw [if_neg hp]
      exact ⟨n.next, n.prev, n.child, hn, fun _ => rfl⟩

theorem relinked_setNext (hr : r ∈ spine) (v : Option Ref) :
    Relinked array spine h (h.setNext r v) :=
  relinked_modify (Or.inr hr) fun n => ⟨v, n.prev, n.child, rfl, fun _ => rfl⟩

theorem relinked_setPrev (hr : r ∈ spine) (v : Option Ref) :
    Relinked array spine h (h.setPrev r v) :=
  relinked_modify (Or.inr hr) fun n => ⟨n.next, v, n.child, rfl, fun _ => rfl⟩

theorem relinked_setChild (v : Option Ref) : Relinked array spine h (h.setChild array v) :=
  relinked_modify (Or.inl rfl) fun n => ⟨n.next, n.prev, v, rfl, fun hne => absurd rfl hne⟩

theorem relinked_setNextIf {p : Option Ref} (hp : ∀ r, p = some r → r ∈ spine) (v : Option Ref) :
    Relinked array spine h (h.setNextIf p v) := by
  cases p with
  | none => exact .refl _ _ _
  | some r => exact relinked_setNext (hp r rfl) v

theorem relinked_setPrevIf {p : Option Ref} (hp : ∀ r, p = some r → r ∈ spine) (v : Option Ref) :
    Relinked array spine h (h.setPrevIf p v) := by
  cases p with
  | none => exact .refl _ _ _
  | some r => exact relinked_setPrev (hp r rfl) v

/-! The loops that walk along the children. -/

theorem HasChildren.length_le (hc : HasChildren h array children) : children.length ≤ h.fresh := by
  have hsub : children ⊆ List.range h.fresh := by
    intro c hmem
    exact List.mem_range.mpr (isNode_lt_fresh (hc.nodes c hmem))
  have hle := (List.subperm_of_subset hc.chain.nodup hsub).length_le
  rwa [List.length_range] at hle

theorem nthFrom_eq (hlinked : Linked h.next h.prev before children none)
    (hnodes : ∀ c ∈ children, h.isNode c) (n : Nat) :
    nthFrom n h children.head? = some children[n]? := by
  induction children generalizing before n with
  | nil => cases n <;> rfl
  | cons c children ih =>
      cases n with
      | zero => rfl
      | succ n =>
          obtain ⟨_, hnext, hrest⟩ := hlinked
          rw [List.head?_cons, nthFrom, loadNext_eq (hnodes c List.mem_cons_self), hnext,
            Option.or_none]
          exact ih hrest (fun d hd => hnodes d (List.mem_cons_of_mem c hd)) n

theorem HasChildren.itemAt_eq (hc : HasChildren h array children) (which : Int32) :
    h.itemAt array which = some children[which.toInt.toNat]? := by
  rw [itemAt, loadChild_eq hc.node, hc.chain.1]
  exact nthFrom_eq hc.chain.2 hc.nodes _

theorem lastOf_eq (hlinked : Linked h.next h.prev before (c :: children) none)
    (hnodes : ∀ d ∈ c :: children, h.isNode d) (hfuel : children.length < fuel) :
    lastOf fuel h c = (c :: children).getLast? := by
  induction children generalizing before c fuel with
  | nil =>
      obtain ⟨_, hnext, _⟩ := hlinked
      obtain ⟨fuel, rfl⟩ := Nat.exists_eq_succ_of_ne_zero (Nat.ne_of_gt hfuel)
      rw [lastOf, loadNext_eq (hnodes c List.mem_cons_self), hnext]
      rfl
  | cons d children ih =>
      obtain ⟨_, hnext, hrest⟩ := hlinked
      obtain ⟨fuel, rfl⟩ := Nat.exists_eq_succ_of_ne_zero (Nat.ne_of_gt (Nat.zero_lt_of_lt hfuel))
      rw [lastOf, loadNext_eq (hnodes c List.mem_cons_self), hnext]
      exact ih hrest (fun e he => hnodes e (List.mem_cons_of_mem c he)) (Nat.lt_of_succ_lt_succ hfuel)

/-! What the operations do to a well-formed container. -/

theorem HasChildren.addItemToArray (hc : HasChildren h array children) (hx : Detached h x)
    (hmem : x ∉ children) :
    ∃ h', h.addItemToArray array (some x) = some h' ∧ HasChildren h' array (children ++ [x]) ∧
      Relinked array (x :: children) h h' := by
  cases children with
  | nil =>
      have hchild : h.child array = none := hc.chain.1
      refine ⟨h.setChild array (some x), ?_, ⟨?_, ?_, ?_⟩, relinked_setChild _⟩
      · simp [Heap.addItemToArray, loadChild_eq hc.node, hchild, storeChild_eq hc.node]
      · simpa using hc.node
      · refine ⟨?_, ?_, ?_, trivial⟩
        · simp [child_setChild hc.node]
        · simpa using hx.prev
        · simpa using hx.next
      · simpa using hx.node
  | cons c rest =>
      have hchild : h.child array = some c := hc.chain.1
      obtain ⟨last, hlast⟩ : ∃ last, (c :: rest).getLast? = some last :=
        Option.isSome_iff_exists.mp (by simp)
      have hwalk : lastOf h.fresh h c = some last := by
        rw [lastOf_eq hc.chain.2 hc.nodes hc.length_le, hlast]
      have hlastNode := hc.nodes last (List.mem_of_mem_getLast? hlast)
      have hxNode : (h.setNext last (some x)).isNode x := by simpa using hx.node
      have hne : x ≠ last := by
        rintro rfl
        exact hmem (List.mem_of_mem_getLast? hlast)
      refine ⟨(h.setNext last (some x)).setPrev x (some last), ?_, ⟨?_, ?_, ?_⟩, ?_⟩
      · simp [Heap.addItemToArray, loadChild_eq hc.node, hchild, hwalk, suffixObject,
          storeNext_eq hlastNode, storePrev_eq hxNode]
      · simpa using hc.node
      · have hchain := hc.chain
        rw [hchild] at hchain
        rw [child_setPrev, child_setNext, hchild]
        apply hchain.append
        · intro d _
          rw [next_setPrev, next_setNext hlastNode, hlast]
          simp only [Option.some.injEq, eq_comm]
        · intro d hd
          rw [prev_setPrev hxNode, prev_setNext, if_neg]
          rintro rfl
          exact hmem hd
        · rw [next_setPrev, next_setNext hlastNode, if_neg hne, hx.next]
        · rw [prev_setPrev hxNode, if_pos rfl, hlast]
      · intro d hd
        rw [isNode_setPrev, isNode_setNext]
        rcases List.mem_append.mp hd with hd | hd
        · exact hc.nodes d hd
        · rw [List.mem_singleton.mp hd]
          exact hx.node
      · apply (relinked_setNext _ _).trans (relinked_setPrev List.mem_cons_self _)
        exact List.mem_cons_of_mem x (List.mem_of_mem_getLast? hlast)

/-- `c` is taken out of the links and of the container. -/
def unlink (h : Heap) (array c : Ref) : Heap :=
  let h₁ := (h.setNextIf (h.prev c) (h.next c)).setPrevIf (h.next c) (h.prev c)
  let h₂ := if h.child array = some c then h₁.setChild array (h.next c) else h₁
  (h₂.setNext c none).setPrev c none

theorem HasChildren.neighbours (hc : HasChildren h array (xs ++ c :: ys)) :
    (∀ p, h.prev c = some p → p ∈ xs) ∧ (∀ p, h.next c = some p → p ∈ ys) ∧ c ∉ xs ∧ c ∉ ys := by
  obtain ⟨_, _, hprev, hnext, _⟩ := hc.chain.split
  obtain ⟨_, _, _, _, hxs, hys⟩ := apart_of_nodup hc.chain.nodup
  refine ⟨?_, ?_, hxs, hys⟩
  · intro p hp
    exact List.mem_of_mem_getLast? (hprev ▸ hp)
  · intro p hp
    exact List.mem_of_mem_head? (hnext ▸ hp)

theorem HasChildren.detachItemFromArray (hc : HasChildren h array (xs ++ c :: ys))
    (hitem : h.itemAt array which = some (some c)) :
    h.detachItemFromArray array which = some (some c, h.unlink array c) := by
  obtain ⟨hprev, hnext, hxs, hys⟩ := hc.neighbours
  have hcNode := hc.nodes c (List.mem_append_right xs List.mem_cons_self)
  have hprevNode : ∀ p, h.prev c = some p → h.isNode p := fun p hp =>
    hc.nodes p (List.mem_append_left _ (hprev p hp))
  have hnextNode : ∀ p, h.next c = some p → h.isNode p := fun p hp =>
    hc.nodes p (List.mem_append_right xs (List.mem_cons_of_mem c (hnext p hp)))
  have hprevNe : h.prev c ≠ some c := fun hp => hxs (hprev c hp)
  have hnextNe : h.next c ≠ some c := fun hp => hys (hnext c hp)
  have harray := hc.node
  have hfirst := storeNextIf_eq hprevNode (h.next c)
  have hsecond : (h.setNextIf (h.prev c) (h.next c)).storePrevIf (h.next c) (h.prev c) = some _ :=
    storePrevIf_eq (by simpa using hnextNode) _
  simp only [Heap.detachItemFromArray, hitem, unlink]
  by_cases hchild : h.child array = some c
  · simp [loadPrev_eq, loadNext_eq, loadChild_eq, hfirst, hsecond, storeNext_eq, storePrev_eq,
      storeChild_eq, hcNode, harray, next_setNextIf hprevNode, hprevNe, hchild]
  · simp [loadPrev_eq, loadNext_eq, loadChild_eq, hfirst, hsecond, storeNext_eq, storePrev_eq,
      hcNode, harray, next_setNextIf hprevNode, hprevNe, hchild]

theorem isNode_unlink (h : Heap) (array c p : Ref) : (h.unlink array c).isNode p = h.isNode p := by
  unfold unlink
  split <;> simp

theorem HasChildren.next_unlink (hc : HasChildren h array (xs ++ c :: ys)) (p : Ref) :
    (h.unlink array c).next p =
      if p = c then none else if h.prev c = some p then h.next c else h.next p := by
  have hcNode := hc.nodes c (List.mem_append_right xs List.mem_cons_self)
  have hprevNode : ∀ p, h.prev c = some p → h.isNode p := fun p hp =>
    hc.nodes p (List.mem_append_left _ (hc.neighbours.1 p hp))
  unfold unlink
  split <;> simp [next_setNext, hcNode, next_setNextIf hprevNode]

theorem HasChildren.prev_unlink (hc : HasChildren h array (xs ++ c :: ys)) (p : Ref) :
    (h.unlink array c).prev p =
      if p = c then none else if h.next c = some p then h.prev c else h.prev p := by
  have hcNode := hc.nodes c (List.mem_append_right xs List.mem_cons_self)
  have hnextNode : ∀ p, h.next c = some p → (h.setNextIf (h.prev c) (h.next c)).isNode p := by
    intro p hp
    rw [isNode_setNextIf]
    exact hc.nodes p (List.mem_append_right xs (List.mem_cons_of_mem c (hc.neighbours.2.1 p hp)))
  unfold unlink
  split <;> simp [prev_setPrev, hcNode, prev_setPrevIf hnextNode]

theorem HasChildren.child_unlink (hc : HasChildren h array (xs ++ c :: ys)) :
    (h.unlink array c).child array =
      if h.child array = some c then h.next c else h.child array := by
  have harray := hc.node
  unfold unlink
  split <;> simp [child_setChild, harray]

theorem HasChildren.relinked_unlink (hc : HasChildren h array (xs ++ c :: ys)) :
    Relinked array (xs ++ c :: ys) h (h.unlink array c) := by
  obtain ⟨hprev, hnext, _, _⟩ := hc.neighbours
  have hmem : c ∈ xs ++ c :: ys := List.mem_append_right xs List.mem_cons_self
  have hxs : ∀ p, h.prev c = some p → p ∈ xs ++ c :: ys := fun p hp =>
    List.mem_append_left _ (hprev p hp)
  have hys : ∀ p, h.next c = some p → p ∈ xs ++ c :: ys := fun p hp =>
    List.mem_append_right xs (List.mem_cons_of_mem c (hnext p hp))
  have hlinks : Relinked array (xs ++ c :: ys) h _ :=
    (relinked_setNextIf hxs (h.next c)).trans (relinked_setPrevIf hys (h.prev c))
  unfold unlink
  apply Relinked.trans _ (relinked_setPrev hmem none)
  apply Relinked.trans _ (relinked_setNext hmem none)
  split
  · exact hlinks.trans (relinked_setChild _)
  · exact hlinks

theorem HasChildren.unlink (hc : HasChildren h array (xs ++ c :: ys)) :
    HasChildren (h.unlink array c) array (xs ++ ys) ∧ Detached (h.unlink array c) c := by
  obtain ⟨_, _, hxs, hys⟩ := hc.neighbours
  have hne : ∀ p ∈ xs ++ ys, p ≠ c := by
    rintro p hp rfl
    exact (List.mem_append.mp hp).elim hxs hys
  constructor
  · constructor
    · rw [isNode_unlink]
      exact hc.node
    · rw [hc.child_unlink]
      apply hc.chain.remove
      · intro p hp
        rw [hc.next_unlink, if_neg (hne p hp)]
      · intro p hp
        rw [hc.prev_unlink, if_neg (hne p hp)]
    · intro p hp
      rw [isNode_unlink]
      apply hc.nodes
      rcases List.mem_append.mp hp with hp | hp
      · exact List.mem_append_left _ hp
      · exact List.mem_append_right xs (List.mem_cons_of_mem c hp)
  · constructor
    · rw [isNode_unlink]
      exact hc.nodes c (List.mem_append_right xs List.mem_cons_self)
    · rw [hc.next_unlink, if_pos rfl]
    · rw [hc.prev_unlink, if_pos rfl]

/-- `x` is linked in front of `c`. -/
def linkBefore (h : Heap) (array c x : Ref) : Heap :=
  let h₁ := ((h.setNext x (some c)).setPrev x (h.prev c)).setPrev c (some x)
  if h.child array = some c then h₁.setChild array (some x)
  else h₁.setNextIf (h.prev c) (some x)

theorem HasChildren.prev_of_first (hc : HasChildren h array (xs ++ c :: ys)) :
    h.child array = some c ↔ h.prev c = none := by
  obtain ⟨_, _, hprev, _, _⟩ := hc.chain.split
  rw [hc.chain.start_eq_iff, hprev, List.getLast?_eq_none_iff]

theorem HasChildren.insertItemInArray (hc : HasChildren h array (xs ++ c :: ys))
    (hx : h.isNode x) (hmem : x ∉ xs ++ c :: ys) (hitem : h.itemAt array which = some (some c)) :
    h.insertItemInArray array which x = some (h.linkBefore array c x) := by
  have hcMem : c ∈ xs ++ c :: ys := List.mem_append_right xs List.mem_cons_self
  have hcNode := hc.nodes c hcMem
  have harray := hc.node
  have hne : x ≠ c := by
    rintro rfl
    exact hmem hcMem
  simp only [Heap.insertItemInArray, hitem, linkBefore]
  by_cases hchild : h.child array = some c
  · simp [loadPrev_eq, loadChild_eq, storeNext_eq, storePrev_eq, storeChild_eq, hcNode, hx,
      harray, hchild]
  · obtain ⟨p, hp⟩ : ∃ p, h.prev c = some p := by
      rw [hc.prev_of_first] at hchild
      exact Option.ne_none_iff_exists'.mp hchild
    have hpNode := hc.nodes p (List.mem_append_left _ (hc.neighbours.1 p hp))
    simp [loadPrev_eq, loadChild_eq, storeNext_eq, storePrev_eq, hcNode, hx, harray, hchild,
      prev_setPrev, hne, hp, hpNode, setNextIf]

theorem isNode_linkBefore (h : Heap) (array c x p : Ref) :
    (h.linkBefore array c x).isNode p = h.isNode p := by
  unfold Heap.linkBefore
  split <;> simp

theorem HasChildren.next_linkBefore (hc : HasChildren h array (xs ++ c :: ys)) (hx : h.isNode x)
    (p : Ref) :
    (h.linkBefore array c x).next p =
      if h.prev c = some p then some x else if p = x then some c else h.next p := by
  have hprevNode : ∀ p, h.prev c = some p →
      (((h.setNext x (some c)).setPrev x (h.prev c)).setPrev c (some x)).isNode p := by
    intro p hp
    simpa using hc.nodes p (List.mem_append_left _ (hc.neighbours.1 p hp))
  unfold Heap.linkBefore
  split
  · next hchild => simp [next_setNext, hx, hc.prev_of_first.mp hchild]
  · simp [next_setNextIf hprevNode, next_setNext, hx]

theorem HasChildren.prev_linkBefore (hc : HasChildren h array (xs ++ c :: ys)) (hx : h.isNode x)
    (p : Ref) :
    (h.linkBefore array c x).prev p =
      if p = c then some x else if p = x then h.prev c else h.prev p := by
  have hcNode := hc.nodes c (List.mem_append_right xs List.mem_cons_self)
  unfold Heap.linkBefore
  split <;> simp [prev_setPrev, hx, hcNode]

theorem HasChildren.child_linkBefore (hc : HasChildren h array (xs ++ c :: ys)) (x : Ref) :
    (h.linkBefore array c x).child array =
      if h.child array = some c then some x else h.child array := by
  have harray := hc.node
  unfold Heap.linkBefore
  split <;> simp [child_setChild, harray]

theorem HasChildren.linkBefore (hc : HasChildren h array (xs ++ c :: ys)) (hx : h.isNode x)
    (hmem : x ∉ xs ++ c :: ys) :
    HasChildren (h.linkBefore array c x) array (xs ++ x :: c :: ys) := by
  have hcMem : c ∈ xs ++ c :: ys := List.mem_append_right xs List.mem_cons_self
  have hneX : ∀ p ∈ xs ++ c :: ys, p ≠ x := by
    rintro p hp rfl
    exact hmem hp
  constructor
  · rw [isNode_linkBefore]
    exact hc.node
  · rw [hc.child_linkBefore]
    apply hc.chain.insert
    · intro p hp
      rw [hc.next_linkBefore hx, if_neg (hneX p hp)]
    · intro p hp
      rw [hc.prev_linkBefore hx, if_neg (hneX p hp)]
    · rw [hc.next_linkBefore hx, if_neg, if_pos rfl]
      intro hlast
      exact hmem (List.mem_append_left _ (hc.neighbours.1 x hlast))
    · rw [hc.prev_linkBefore hx, if_neg (hneX c hcMem).symm, if_pos rfl]
  · intro p hp
    rw [isNode_linkBefore]
    rcases List.mem_append.mp hp with hp | hp
    · exact hc.nodes p (List.mem_append_left _ hp)
    · rcases List.mem_cons.mp hp with rfl | hp
      · exact hx
      · exact hc.nodes p (List.mem_append_right xs hp)

/-- `x` takes the place of `c`. -/
def substitute (h : Heap) (array c x : Ref) : Heap :=
  let h₁ := ((h.setNext x (h.next c)).setPrev x (h.prev c)).setPrevIf (h.next c) (some x)
  let h₂ := if h.child array = some c then h₁.setChild array (some x)
    else h₁.setNextIf (h.prev c) (some x)
  (h₂.setPrev c none).setNext c none

theorem isNode_substitute (h : Heap) (array c x p : Ref) :
    (h.substitute array c x).isNode p = h.isNode p := by
  unfold Heap.substitute
  split <;> simp

theorem HasChildren.next_substitute (hc : HasChildren h array (xs ++ c :: ys)) (hx : h.isNode x)
    (p : Ref) :
    (h.substitute array c x).next p =
      if p = c then none else if h.prev c = some p then some x
        else if p = x then h.next c else h.next p := by
  have hcNode := hc.nodes c (List.mem_append_right xs List.mem_cons_self)
  have hprevNode : ∀ p, h.prev c = some p → (((h.setNext x (h.next c)).setPrev x
      (h.prev c)).setPrevIf (h.next c) (some x)).isNode p := by
    intro p hp
    simpa using hc.nodes p (List.mem_append_left _ (hc.neighbours.1 p hp))
  unfold Heap.substitute
  split
  · next hchild => simp [next_setNext, hx, hcNode, hc.prev_of_first.mp hchild]
  · simp [next_setNextIf hprevNode, next_setNext, hx, hcNode]

theorem HasChildren.prev_substitute (hc : HasChildren h array (xs ++ c :: ys)) (hx : h.isNode x)
    (p : Ref) :
    (h.substitute array c x).prev p =
      if p = c then none else if h.next c = some p then some x
        else if p = x then h.prev c else h.prev p := by
  have hcNode := hc.nodes c (List.mem_append_right xs List.mem_cons_self)
  have hnextNode : ∀ p, h.next c = some p →
      ((h.setNext x (h.next c)).setPrev x (h.prev c)).isNode p := by
    intro p hp
    simpa using
      hc.nodes p (List.mem_append_right xs (List.mem_cons_of_mem c (hc.neighbours.2.1 p hp)))
  unfold Heap.substitute
  split <;> simp [prev_setPrevIf hnextNode, prev_setPrev, hx, hcNode]

theorem HasChildren.child_substitute (hc : HasChildren h array (xs ++ c :: ys)) (x : Ref) :
    (h.substitute array c x).child array =
      if h.child array = some c then some x else h.child array := by
  have harray := hc.node
  unfold Heap.substitute
  split <;> simp [child_setChild, harray]

theorem HasChildren.relinked_substitute (hc : HasChildren h array (xs ++ c :: ys)) (x : Ref) :
    Relinked array (x :: (xs ++ c :: ys)) h (h.substitute array c x) := by
  obtain ⟨hprev, hnext, _, _⟩ := hc.neighbours
  have hspine : ∀ p, p ∈ xs ++ c :: ys → p ∈ x :: (xs ++ c :: ys) := fun p =>
    List.mem_cons_of_mem x
  have hmem : c ∈ x :: (xs ++ c :: ys) := hspine c (List.mem_append_right xs List.mem_cons_self)
  have hxs : ∀ p, h.prev c = some p → p ∈ x :: (xs ++ c :: ys) := fun p hp =>
    hspine p (List.mem_append_left _ (hprev p hp))
  have hys : ∀ p, h.next c = some p → p ∈ x :: (xs ++ c :: ys) := fun p hp =>
    hspine p (List.mem_append_right xs (List.mem_cons_of_mem c (hnext p hp)))
  have hlinks : Relinked array (x :: (xs ++ c :: ys)) h _ :=
    ((relinked_setNext List.mem_cons_self (h.next c)).trans
      (relinked_setPrev List.mem_cons_self (h.prev c))).trans (relinked_setPrevIf hys (some x))
  unfold Heap.substitute
  apply Relinked.trans _ (relinked_setNext hmem none)
  apply Relinked.trans _ (relinked_setPrev hmem none)
  split
  · exact hlinks.trans (relinked_setChild _)
  · exact hlinks.trans (relinked_setNextIf hxs _)

section

variable (hc : HasChildren h array (xs ++ c :: ys)) (hx : h.isNode x) (hmem : x ∉ xs ++ c :: ys)

include hc hx hmem

theorem HasChildren.replaceItemInArray (hitem : h.itemAt array which = some (some c)) :
    h.replaceItemInArray array which x = (h.substitute array c x).delete (some c) := by
  obtain ⟨hprev, hnext, hxs, hys⟩ := hc.neighbours
  have hcMem : c ∈ xs ++ c :: ys := List.mem_append_right xs List.mem_cons_self
  have hcNode := hc.nodes c hcMem
  have harray := hc.node
  have hnextNode : ∀ p, h.next c = some p → h.isNode p := fun p hp =>
    hc.nodes p (List.mem_append_right xs (List.mem_cons_of_mem c (hnext p hp)))
  have hnextNe : h.next c ≠ some x := fun hp =>
    hmem (List.mem_append_right xs (List.mem_cons_of_mem c (hnext x hp)))
  have hnextSelf : h.next c ≠ some c := fun hp => hys (hnext c hp)
  have hnextNode' : ∀ p, h.next c = some p →
      ((h.setNext x (h.next c)).setPrev x (h.prev c)).isNode p := by
    simpa using hnextNode
  have hsecond := storePrevIf_eq hnextNode' (some x)
  simp only [Heap.replaceItemInArray, hitem, substitute]
  by_cases hchild : h.child array = some c
  · simp [loadPrev_eq, loadNext_eq, loadChild_eq, storeNext_eq, storePrev_eq, storeChild_eq, hcNode,
      hx, harray, hchild, next_setNext, hsecond]
  · obtain ⟨p, hp⟩ : ∃ p, h.prev c = some p := by
      rw [hc.prev_of_first] at hchild
      exact Option.ne_none_iff_exists'.mp hchild
    rw [hp] at hsecond hnextNode'
    have hpNode := hc.nodes p (List.mem_append_left _ (hprev p hp))
    simp [loadPrev_eq, loadNext_eq, loadChild_eq, storeNext_eq, storePrev_eq, hcNode, hx, harray,
      hchild, next_setNext, prev_setPrev, prev_setPrevIf hnextNode', hsecond, hp, hpNode,
      hnextNe, setNextIf]

theorem HasChildren.substitute :
    HasChildren (h.substitute array c x) array (xs ++ x :: ys) ∧
      Detached (h.substitute array c x) c ∧
      Relinked array (x :: (xs ++ c :: ys)) h (h.substitute array c x) := by
  obtain ⟨hprevMem, hnextMem, hxs, hys⟩ := hc.neighbours
  have hcMem : c ∈ xs ++ c :: ys := List.mem_append_right xs List.mem_cons_self
  have hprevSpine : ∀ p, h.prev c = some p → p ∈ xs ++ c :: ys := fun p hp =>
    List.mem_append_left _ (hprevMem p hp)
  have hnextSpine : ∀ p, h.next c = some p → p ∈ xs ++ c :: ys := fun p hp =>
    List.mem_append_right xs (List.mem_cons_of_mem c (hnextMem p hp))
  have hneX : ∀ p ∈ xs ++ c :: ys, p ≠ x := by
    rintro p hp rfl
    exact hmem hp
  have hneC : ∀ p ∈ xs ++ ys, p ≠ c := by
    rintro p hp rfl
    exact (List.mem_append.mp hp).elim hxs hys
  have hsub : ∀ p ∈ xs ++ ys, p ∈ xs ++ c :: ys := by
    intro p hp
    rcases List.mem_append.mp hp with hp | hp
    · exact List.mem_append_left _ hp
    · exact List.mem_append_right xs (List.mem_cons_of_mem c hp)
  refine ⟨⟨?_, ?_, ?_⟩, ⟨?_, ?_, ?_⟩, hc.relinked_substitute x⟩
  · rw [isNode_substitute]
    exact hc.node
  · rw [hc.child_substitute]
    apply hc.chain.replace
    · intro p hp
      rw [hc.next_substitute hx, if_neg (hneC p hp), if_neg (hneX p (hsub p hp))]
    · intro p hp
      rw [hc.prev_substitute hx, if_neg (hneC p hp), if_neg (hneX p (hsub p hp))]
    · rw [hc.next_substitute hx, if_neg (hneX c hcMem).symm,
        if_neg fun hp => hmem (hprevSpine x hp), if_pos rfl]
    · rw [hc.prev_substitute hx, if_neg (hneX c hcMem).symm,
        if_neg fun hp => hmem (hnextSpine x hp), if_pos rfl]
  · intro p hp
    rw [isNode_substitute]
    rcases List.mem_append.mp hp with hp | hp
    · exact hc.nodes p (List.mem_append_left _ hp)
    · rcases List.mem_cons.mp hp with rfl | hp
      · exact hx
      · exact hc.nodes p (List.mem_append_right xs (List.mem_cons_of_mem c hp))
  · rw [isNode_substitute]
    exact hc.nodes c hcMem
  · rw [hc.next_substitute hx, if_pos rfl]
  · rw [hc.prev_substitute hx, if_pos rfl]

end

end RebuildTheWheel.CJson.Heap
