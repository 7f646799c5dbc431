import RebuildTheWheel.CJson.Heap
import RebuildTheWheel.Data.LinkedList

namespace RebuildTheWheel.CJson.Heap

open RebuildTheWheel.Data

/-! The links of a heap as functions of the node, and the stores that set them. -/

def next (h : Heap) (r : Ref) : Option Ref := (h.node r).bind Node.next

def prev (h : Heap) (r : Ref) : Option Ref := (h.node r).bind Node.prev

def child (h : Heap) (r : Ref) : Option Ref := (h.node r).bind Node.child

def setNext (h : Heap) (r : Ref) (next : Option Ref) : Heap :=
  h.modify r fun n => { n with next := next }

def setPrev (h : Heap) (r : Ref) (prev : Option Ref) : Heap :=
  h.modify r fun n => { n with prev := prev }

def setChild (h : Heap) (r : Ref) (child : Option Ref) : Heap :=
  h.modify r fun n => { n with child := child }

def setNextIf (h : Heap) (p next : Option Ref) : Heap :=
  match p with
  | some r => h.setNext r next
  | none => h

def setPrevIf (h : Heap) (p prev : Option Ref) : Heap :=
  match p with
  | some r => h.setPrev r prev
  | none => h

theorem cells_of_isNode {h : Heap} {r : Ref} (hr : h.isNode r) : ∃ n, h.cells r = some (.node n) := by
  unfold isNode node at hr
  split at hr
  · next n hcell => exact ⟨n, hcell⟩
  · cases hr

theorem node_of_isNode {h : Heap} {r : Ref} (hr : h.isNode r) : ∃ n, h.node r = some n :=
  Option.isSome_iff_exists.mp hr

theorem lt_fresh {h : Heap} {r : Ref} (hr : (h.cells r).isSome) : r < h.fresh := by
  by_contra hle
  rw [h.bounded r (Nat.le_of_not_lt hle)] at hr
  cases hr

theorem isNode_lt_fresh {h : Heap} {r : Ref} (hr : h.isNode r) : r < h.fresh := by
  obtain ⟨n, hn⟩ := cells_of_isNode hr
  apply lt_fresh
  rw [hn]
  rfl

theorem cells_modify {h : Heap} {r : Ref} {n : Node} (hr : h.cells r = some (.node n))
    (f : Node → Node) (p : Ref) :
    (h.modify r f).cells p = if p = r then some (.node (f n)) else h.cells p := by
  simp only [modify, hr]

theorem node_modify (h : Heap) (r : Ref) (f : Node → Node) (p : Ref) :
    (h.modify r f).node p = if p = r then (h.node r).map f else h.node p := by
  by_cases hp : p = r
  · subst p
    simp only [node, modify, if_true]
    rcases h.cells r with _ | ⟨_⟩ | ⟨_⟩ <;> rfl
  · simp only [node, modify, if_neg hp]

@[simp] theorem isNode_modify (h : Heap) (r : Ref) (f : Node → Node) (p : Ref) :
    (h.modify r f).isNode p = h.isNode p := by
  rw [isNode, node_modify]
  split
  · next hp =>
      subst p
      rw [Option.isSome_map]
      rfl
  · rfl

@[simp] theorem isNode_setNext (h : Heap) (r : Ref) (v : Option Ref) (p : Ref) :
    (h.setNext r v).isNode p = h.isNode p :=
  isNode_modify ..

@[simp] theorem isNode_setPrev (h : Heap) (r : Ref) (v : Option Ref) (p : Ref) :
    (h.setPrev r v).isNode p = h.isNode p :=
  isNode_modify ..

@[simp] theorem isNode_setChild (h : Heap) (r : Ref) (v : Option Ref) (p : Ref) :
    (h.setChild r v).isNode p = h.isNode p :=
  isNode_modify ..

theorem bind_modify_same {g : Node → Option Ref} (hf : ∀ n, g (f n) = g n) (h : Heap) (r p : Ref) :
    ((h.modify r f).node p).bind g = (h.node p).bind g := by
  rw [node_modify]
  split
  · next hp =>
      subst p
      cases h.node r with
      | none => rfl
      | some n => exact hf n
  · rfl

theorem bind_modify_set {h : Heap} {r : Ref} (hr : h.isNode r) {g : Node → Option Ref}
    (hf : ∀ n, g (f n) = v) (p : Ref) :
    ((h.modify r f).node p).bind g = if p = r then v else (h.node p).bind g := by
  obtain ⟨n, hn⟩ := node_of_isNode hr
  rw [node_modify]
  split
  · rw [hn]
    exact hf n
  · rfl

section

variable (h : Heap) (r : Ref) (v : Option Ref)

@[simp] theorem next_setPrev : (h.setPrev r v).next = h.next := by
  funext p
  apply bind_modify_same
  intro n
  rfl

@[simp] theorem next_setChild : (h.setChild r v).next = h.next := by
  funext p
  apply bind_modify_same
  intro n
  rfl

@[simp] theorem prev_setNext : (h.setNext r v).prev = h.prev := by
  funext p
  apply bind_modify_same
  intro n
  rfl

@[simp] theorem prev_setChild : (h.setChild r v).prev = h.prev := by
  funext p
  apply bind_modify_same
  intro n
  rfl

@[simp] theorem child_setNext : (h.setNext r v).child = h.child := by
  funext p
  apply bind_modify_same
  intro n
  rfl

@[simp] theorem child_setPrev : (h.setPrev r v).child = h.child := by
  funext p
  apply bind_modify_same
  intro n
  rfl

end

section

variable {h : Heap} {r : Ref} (hr : h.isNode r) (v : Option Ref)

include hr

theorem next_setNext (p : Ref) : (h.setNext r v).next p = if p = r then v else h.next p := by
  apply bind_modify_set hr
  intro n
  rfl

theorem prev_setPrev (p : Ref) : (h.setPrev r v).prev p = if p = r then v else h.prev p := by
  apply bind_modify_set hr
  intro n
  rfl

theorem child_setChild (p : Ref) : (h.setChild r v).child p = if p = r then v else h.child p := by
  apply bind_modify_set hr
  intro n
  rfl

theorem loadNext_eq : h.loadNext r = some (h.next r) := by
  obtain ⟨n, hn⟩ := node_of_isNode hr
  rw [loadNext, next, hn]
  rfl

theorem loadPrev_eq : h.loadPrev r = some (h.prev r) := by
  obtain ⟨n, hn⟩ := node_of_isNode hr
  rw [loadPrev, prev, hn]
  rfl

theorem loadChild_eq : h.loadChild r = some (h.child r) := by
  obtain ⟨n, hn⟩ := node_of_isNode hr
  rw [loadChild, child, hn]
  rfl

theorem store_eq (f : Node → Node) : h.store r f = some (h.modify r f) := if_pos hr

theorem storeNext_eq : h.storeNext r v = some (h.setNext r v) := store_eq hr _

theorem storePrev_eq : h.storePrev r v = some (h.setPrev r v) := store_eq hr _

theorem storeChild_eq : h.storeChild r v = some (h.setChild r v) := store_eq hr _

end

section

variable {h : Heap} {p : Option Ref} (hp : ∀ r, p = some r → h.isNode r) (v : Option Ref)

include hp

theorem storeNextIf_eq : h.storeNextIf p v = some (h.setNextIf p v) := by
  cases p with
  | none => rfl
  | some r => exact storeNext_eq (hp r rfl) v

theorem storePrevIf_eq : h.storePrevIf p v = some (h.setPrevIf p v) := by
  cases p with
  | none => rfl
  | some r => exact storePrev_eq (hp r rfl) v

theorem next_setNextIf (q : Ref) :
    (h.setNextIf p v).next q = if p = some q then v else h.next q := by
  cases p with
  | none => rfl
  | some r =>
      rw [setNextIf, next_setNext (hp r rfl)]
      simp only [Option.some.injEq, eq_comm]

theorem prev_setPrevIf (q : Ref) :
    (h.setPrevIf p v).prev q = if p = some q then v else h.prev q := by
  cases p with
  | none => rfl
  | some r =>
      rw [setPrevIf, prev_setPrev (hp r rfl)]
      simp only [Option.some.injEq, eq_comm]

end

section

variable (h : Heap) (p v : Option Ref)

@[simp] theorem isNode_setNextIf (r : Ref) : (h.setNextIf p v).isNode r = h.isNode r := by
  cases p with
  | none => rfl
  | some q => exact isNode_setNext ..

@[simp] theorem isNode_setPrevIf (r : Ref) : (h.setPrevIf p v).isNode r = h.isNode r := by
  cases p with
  | none => rfl
  | some q => exact isNode_setPrev ..

@[simp] theorem prev_setNextIf : (h.setNextIf p v).prev = h.prev := by
  cases p with
  | none => rfl
  | some q => exact prev_setNext ..

@[simp] theorem child_setNextIf : (h.setNextIf p v).child = h.child := by
  cases p with
  | none => rfl
  | some q => exact child_setNext ..

@[simp] theorem next_setPrevIf : (h.setPrevIf p v).next = h.next := by
  cases p with
  | none => rfl
  | some q => exact next_setPrev ..

@[simp] theorem child_setPrevIf : (h.setPrevIf p v).child = h.child := by
  cases p with
  | none => rfl
  | some q => exact child_setPrev ..

end

end RebuildTheWheel.CJson.Heap
