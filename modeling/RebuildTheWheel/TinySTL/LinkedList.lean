import RebuildTheWheel.Data.LinkedList

namespace RebuildTheWheel.TinySTL

open Data

/-! `list<T>`. The nodes are kept field by field, and only live ones may be touched. Each
pointer that is read is used as the address of a node before the function ends, so that a
null pointer has no result. -/

structure NodeHeap (T : Type) where
  live : Nat → Bool
  data : Nat → T
  prev : Nat → Option Nat
  next : Nat → Option Nat
  top : Nat

namespace NodeHeap

variable {T : Type}

def loadData (m : NodeHeap T) (p : Nat) : Option T := if m.live p then some (m.data p) else none

def loadPrev (m : NodeHeap T) (p : Nat) : Option Nat := if m.live p then m.prev p else none

def loadNext (m : NodeHeap T) (p : Nat) : Option Nat := if m.live p then m.next p else none

def setData (m : NodeHeap T) (p : Nat) (val : T) : NodeHeap T :=
  { m with data := fun y => if y = p then val else m.data y }

def setPrev (m : NodeHeap T) (p : Nat) (q : Option Nat) : NodeHeap T :=
  { m with prev := fun y => if y = p then q else m.prev y }

def setNext (m : NodeHeap T) (p : Nat) (q : Option Nat) : NodeHeap T :=
  { m with next := fun y => if y = p then q else m.next y }

def storeData (m : NodeHeap T) (p : Nat) (val : T) : Option (NodeHeap T) :=
  if m.live p then some (m.setData p val) else none

def storePrev (m : NodeHeap T) (p : Nat) (q : Option Nat) : Option (NodeHeap T) :=
  if m.live p then some (m.setPrev p q) else none

def storeNext (m : NodeHeap T) (p : Nat) (q : Option Nat) : Option (NodeHeap T) :=
  if m.live p then some (m.setNext p q) else none

/-- The nodes from `top` on have never been used. -/
def newNode (m : NodeHeap T) (val : T) : NodeHeap T × Nat :=
  ({ live := fun y => if y = m.top then true else m.live y
     data := fun y => if y = m.top then val else m.data y
     prev := fun y => if y = m.top then none else m.prev y
     next := fun y => if y = m.top then none else m.next y
     top := m.top + 1 }, m.top)

def kill (m : NodeHeap T) (p : Nat) : NodeHeap T :=
  { m with live := fun y => if y = p then false else m.live y }

def deleteNode (m : NodeHeap T) (p : Nat) : Option (NodeHeap T) := do
  let m ← m.storePrev p none
  let m ← m.storeNext p none
  some (m.kill p)

variable {m : NodeHeap T} {p : Nat}

theorem loadData_eq (h : m.live p = true) : m.loadData p = some (m.data p) := if_pos h

theorem loadPrev_eq (h : m.live p = true) : m.loadPrev p = m.prev p := if_pos h

theorem loadNext_eq (h : m.live p = true) : m.loadNext p = m.next p := if_pos h

theorem storePrev_eq (h : m.live p = true) (q : Option Nat) :
    m.storePrev p q = some (m.setPrev p q) := if_pos h

end NodeHeap

/-- The iterators `head` and `tail`. -/
structure LinkedList where
  head : Nat
  tail : Nat

namespace LinkedList

open NodeHeap

variable {T : Type}

def empty (l : LinkedList) : Bool := l.head == l.tail

def pushFront (m : NodeHeap T) (l : LinkedList) (val : T) : Option (NodeHeap T × LinkedList) := do
  let (m, node) := m.newNode val
  let m ← m.storePrev l.head (some node)
  let m ← m.storeNext node (some l.head)
  some (m, { l with head := node })

def popFront (m : NodeHeap T) (l : LinkedList) : Option (NodeHeap T × LinkedList) := do
  let head ← m.loadNext l.head
  let m ← m.storePrev head none
  let m ← m.deleteNode l.head
  some (m, { l with head := head })

/-- The old dummy node takes the value. -/
def pushBack [Inhabited T] (m : NodeHeap T) (l : LinkedList) (val : T) :
    Option (NodeHeap T × LinkedList) := do
  let (m, node) := m.newNode default
  let m ← m.storeData l.tail val
  let m ← m.storeNext l.tail (some node)
  let m ← m.storePrev node (some l.tail)
  some (m, { l with tail := node })

/-- The last node becomes the dummy node. -/
def popBack (m : NodeHeap T) (l : LinkedList) : Option (NodeHeap T × LinkedList) := do
  let newTail ← m.loadPrev l.tail
  let m ← m.storeNext newTail none
  let m ← m.deleteNode l.tail
  some (m, { l with tail := newTail })

def insert [Inhabited T] (m : NodeHeap T) (l : LinkedList) (position : Nat) (val : T) :
    Option (NodeHeap T × LinkedList × Nat) := do
  if position = l.head then
    let (m, l) ← pushFront m l val
    some (m, l, l.head)
  else if position = l.tail then
    let (m, l) ← pushBack m l val
    some (m, l, position)
  else
    let (m, node) := m.newNode val
    let prev ← m.loadPrev position
    let m ← m.storeNext node (some position)
    let m ← m.storePrev node (some prev)
    let m ← m.storeNext prev (some node)
    let m ← m.storePrev position (some node)
    some (m, l, node)

def erase (m : NodeHeap T) (l : LinkedList) (position : Nat) :
    Option (NodeHeap T × LinkedList × Nat) := do
  if position = l.head then
    let (m, l) ← popFront m l
    some (m, l, l.head)
  else
    let prev ← m.loadPrev position
    let next ← m.loadNext position
    let m ← m.storeNext prev (some next)
    let m ← m.storePrev next (some prev)
    let m ← m.deleteNode position
    some (m, l, next)

/-- The loop of `remove_if`, which visits fewer than `fuel` nodes. -/
def removeLoop (pred : T → Bool) :
    Nat → NodeHeap T → LinkedList → Nat → Option (NodeHeap T × LinkedList)
  | 0, _, _, _ => none
  | fuel + 1, m, l, it => do
      if it = l.tail then some (m, l)
      else
        let x ← m.loadData it
        if pred x then
          let (m, l, it) ← erase m l it
          removeLoop pred fuel m l it
        else
          let it ← m.loadNext it
          removeLoop pred fuel m l it

def removeIf (m : NodeHeap T) (l : LinkedList) (pred : T → Bool) :
    Option (NodeHeap T × LinkedList) :=
  removeLoop pred (m.top + 1) m l l.head

/-- The loop of `reverse`, which moves at most `fuel` nodes behind the head. -/
def reverseLoop : Nat → NodeHeap T → LinkedList → Nat → Option (NodeHeap T × LinkedList)
  | 0, _, _, _ => none
  | fuel + 1, m, l, curNode => do
      let nextNode ← m.loadNext curNode
      let first ← m.loadNext l.head
      let m ← m.storeNext curNode (some first)
      let m ← m.storePrev first (some curNode)
      let m ← m.storeNext l.head (some curNode)
      let m ← m.storePrev curNode (some l.head)
      if nextNode = l.head then some (m, l) else reverseLoop fuel m l nextNode

def reverse (m : NodeHeap T) (l : LinkedList) : Option (NodeHeap T × LinkedList) := do
  if l.empty then some (m, l)
  else
    let second ← m.loadNext l.head
    if second = l.tail then some (m, l)
    else
      let curNode := l.head
      let head ← m.loadPrev l.tail
      let m ← m.storePrev head none
      reverseLoop (m.top + 1) m { l with head := head } curNode

/-- The nodes `[first, last)` of `x` move in front of `position`. -/
def splice (m : NodeHeap T) (l : LinkedList) (position : Nat) (x : LinkedList) (first last : Nat) :
    Option (NodeHeap T × LinkedList × LinkedList) := do
  if first = last then some (m, l, x)
  else
    let tailNode ← m.loadPrev last
    let (m, x) ← (if x.head = first then do
        let m ← m.storePrev last none
        some (m, { x with head := last })
      else do
        let prev ← m.loadPrev first
        let m ← m.storeNext prev (some last)
        let m ← m.storePrev last (some prev)
        some (m, x))
    if position = l.head then
      let m ← m.storePrev first none
      let m ← m.storeNext tailNode (some l.head)
      let m ← m.storePrev l.head (some tailNode)
      some (m, { l with head := first }, x)
    else
      let prev ← m.loadPrev position
      let m ← m.storeNext prev (some first)
      let m ← m.storePrev first (some prev)
      let m ← m.storeNext tailNode (some position)
      let m ← m.storePrev position (some tailNode)
      some (m, l, x)

/-- The loop of `merge`, which visits fewer than `fuel` nodes. -/
def mergeLoop (comp : T → T → Bool) : Nat → NodeHeap T → LinkedList → LinkedList → Nat → Nat →
    Option (NodeHeap T × LinkedList × LinkedList)
  | 0, _, _, _, _, _ => none
  | fuel + 1, m, l, x, it1, it2 => do
      if it1 ≠ l.tail ∧ it2 ≠ x.tail then
        let a ← m.loadData it1
        let b ← m.loadData it2
        if comp b a then
          let next ← m.loadNext it2
          let (m, l, x) ← splice m l it1 x it2 next
          mergeLoop comp fuel m l x it1 next
        else
          let it1 ← m.loadNext it1
          mergeLoop comp fuel m l x it1 it2
      else if it1 = l.tail then splice m l it1 x it2 x.tail
      else some (m, l, x)

def merge (m : NodeHeap T) (l x : LinkedList) (comp : T → T → Bool) :
    Option (NodeHeap T × LinkedList × LinkedList) :=
  mergeLoop comp (m.top + 1) m l x l.head x.head

end LinkedList

end RebuildTheWheel.TinySTL
