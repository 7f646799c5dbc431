import RebuildTheWheel.Data.ParentTree

namespace RebuildTheWheel.TinySTL

open Data Data.RedBlack

/-! The red-black tree of `stl_tree.hpp`. Address 0 is `nullptr`, address 1 the node
`NIL` that all trees share. A load or a store at an address that holds no node is
undefined behaviour and has no result here. -/

def nullptr : Nat := 0

def NIL : Nat := 1

structure RbTree (κ β : Type) where
  links : Links Nat (κ × β)
  live : Nat → Bool
  /-- The address the next `new` gives; no node is at or above it. -/
  fresh : Nat

namespace RbTree

variable {κ β : Type}

def empty [Inhabited κ] [Inhabited β] : RbTree κ β where
  links :=
    { root := NIL, parent := fun _ => nullptr, child := fun _ _ => nullptr,
      color := fun _ => .black, data := fun _ => default }
  live := fun a => a == NIL
  fresh := NIL + 1

def loadParent (s : RbTree κ β) (a : Nat) : Option Nat :=
  if s.live a then some (s.links.parent a) else none

def loadChild (s : RbTree κ β) (d : Dir) (a : Nat) : Option Nat :=
  if s.live a then some (s.links.child d a) else none

def loadColor (s : RbTree κ β) (a : Nat) : Option Color :=
  if s.live a then some (s.links.color a) else none

def loadKey (s : RbTree κ β) (a : Nat) : Option κ :=
  if s.live a then some (s.links.data a).1 else none

def loadValue (s : RbTree κ β) (a : Nat) : Option β :=
  if s.live a then some (s.links.data a).2 else none

def storeParent (s : RbTree κ β) (a v : Nat) : Option (RbTree κ β) :=
  if s.live a then some { s with links := s.links.setParent a v } else none

def storeChild (s : RbTree κ β) (d : Dir) (a v : Nat) : Option (RbTree κ β) :=
  if s.live a then some { s with links := s.links.setChild d a v } else none

def storeColor (s : RbTree κ β) (a : Nat) (c : Color) : Option (RbTree κ β) :=
  if s.live a then some { s with links := s.links.setColor a c } else none

def storeValue (s : RbTree κ β) (a : Nat) (v : β) : Option (RbTree κ β) :=
  if s.live a then some { s with links := s.links.setData a ((s.links.data a).1, v) } else none

def setRoot (s : RbTree κ β) (a : Nat) : RbTree κ β := { s with links := s.links.setRoot a }

/-- `new __rb_tree_node(c, k, v)`. -/
def newNode (s : RbTree κ β) (c : Color) (k : κ) (v : β) : RbTree κ β where
  links :=
    ((((s.links.setParent s.fresh nullptr).setChild .left s.fresh nullptr).setChild
      .right s.fresh nullptr).setColor s.fresh c).setData s.fresh (k, v)
  live := fun a => if a = s.fresh then true else s.live a
  fresh := s.fresh + 1

def delete (s : RbTree κ β) (a : Nat) : Option (RbTree κ β) :=
  if s.live a then some { s with live := fun b => if b = a then false else s.live b } else none

/-- `p->parent` gets `t` in the place of `p`. -/
def hang (s : RbTree κ β) (p t : Nat) : Option (RbTree κ β) := do
  let q ← s.loadParent p
  if q = NIL then some (s.setRoot t)
  else
    if p = (← s.loadChild .left q) then s.storeChild .left q t
    else s.storeChild .right q t

/-- The two rotations, which differ in the side only. -/
def rotate (d : Dir) (s : RbTree κ β) (p : Nat) : Option (RbTree κ β) := do
  let t ← s.loadChild d.other p
  let s ← s.storeChild d.other p (← s.loadChild d t)
  let b ← s.loadChild d t
  let s ← if b = NIL then some s else s.storeParent b p
  let s ← if t = NIL then some s else s.storeParent t (← s.loadParent p)
  let s ← s.hang p t
  let s ← s.storeChild d t p
  if p = NIL then some s else s.storeParent p t

def left_rotate (s : RbTree κ β) (p : Nat) : Option (RbTree κ β) := rotate .left s p

def right_rotate (s : RbTree κ β) (p : Nat) : Option (RbTree κ β) := rotate .right s p

/-- `if (p == p->parent->right) { p = p->parent; left_rotate(p); }`, and its mirror image. -/
def turnInner (d : Dir) (s : RbTree κ β) (p : Nat) : Option (RbTree κ β × Nat) := do
  let q ← s.loadParent p
  if p = (← s.loadChild d.other q) then
    let s ← rotate d s q
    some (s, q)
  else some (s, p)

/-- One half of the loop of `insert_fixup`: the parent of `p` is a child on the side
`d`, and the grandparent is painted `c` before it is turned down. -/
def insertFixupHalf (d : Dir) (c : Color) (s : RbTree κ β) (p : Nat) :
    Option (RbTree κ β × Nat) := do
  let q ← s.loadParent p
  let g ← s.loadParent q
  let t ← s.loadChild d.other g
  if (← s.loadColor t) = .red then
    let s ← s.storeColor q .black
    let s ← s.storeColor t .black
    let s ← s.storeColor g .red
    some (s, g)
  else
    let (s, p) ← turnInner d s p
    let q ← s.loadParent p
    let s ← s.storeColor q .black
    let g ← s.loadParent q
    let s ← s.storeColor g c
    let s ← rotate d.other s g
    some (s, p)

/-- The half for a parent that is a left child. -/
def insertFixupLeft (s : RbTree κ β) (p : Nat) : Option (RbTree κ β × Nat) :=
  insertFixupHalf .left .red s p

/-- The half for a parent that is a right child, which paints the grandparent black. -/
def insertFixupRight (s : RbTree κ β) (p : Nat) : Option (RbTree κ β × Nat) :=
  insertFixupHalf .right .black s p

def insertFixupLoop : Nat → RbTree κ β → Nat → Option (RbTree κ β)
  | 0, _, _ => none
  | fuel + 1, s, p => do
      if p = s.links.root then s.storeColor s.links.root .black
      else
        let q ← s.loadParent p
        if (← s.loadColor q) = .red then
          let g ← s.loadParent q
          let (s, p) ← if q = (← s.loadChild .left g) then insertFixupLeft s p
            else insertFixupRight s p
          insertFixupLoop fuel s p
        else s.storeColor s.links.root .black

def insert_fixup (s : RbTree κ β) (p : Nat) : Option (RbTree κ β) :=
  insertFixupLoop s.fresh s p

section Keys

variable [LinearOrder κ]

/-- `while (cur != NIL) { pre = cur; ... }`: the node below which `k` belongs. -/
def descend (s : RbTree κ β) (k : κ) : Nat → Nat → Nat → Option Nat
  | 0, _, _ => none
  | fuel + 1, cur, pre => do
      if cur = NIL then some pre
      else
        let d : Dir := if k < (← s.loadKey cur) then .left else .right
        s.descend k fuel (← s.loadChild d cur) cur

def insert (s : RbTree κ β) (k : κ) (v : β) : Option (RbTree κ β) := do
  let node := s.fresh
  let s := s.newNode .red k v
  if s.links.root = NIL then
    let s := s.setRoot node
    let s ← s.storeChild .right node NIL
    let s ← s.storeChild .left node NIL
    let s ← s.storeParent node NIL
    s.storeColor node .black
  else
    let pre ← s.descend k s.fresh s.links.root NIL
    let s ← s.storeParent node pre
    let s ← s.storeChild .right node NIL
    let s ← s.storeChild .left node NIL
    let d : Dir := if k < (← s.loadKey pre) then .left else .right
    let s ← s.storeChild d pre node
    insert_fixup s node

def findLoop (s : RbTree κ β) (k : κ) : Nat → Nat → Option Nat
  | 0, _ => none
  | fuel + 1, p => do
      if p = NIL then some NIL
      else
        let key ← s.loadKey p
        if key < k then s.findLoop k fuel (← s.loadChild .right p)
        else if k < key then s.findLoop k fuel (← s.loadChild .left p)
        else some p

/-- The node of the iterator that `find` gives. -/
def find (s : RbTree κ β) (k : κ) : Option Nat :=
  s.findLoop k s.fresh s.links.root

end Keys

/-! Removal. -/

/-- `if (w->right->color == _BLACK) { ... right_rotate(w); w = p->parent->right; }`, and
its mirror image: the red child of `w` is brought to the far side. -/
def turnOuter (d : Dir) (s : RbTree κ β) (p w : Nat) : Option (RbTree κ β × Nat) := do
  if (← s.loadColor (← s.loadChild d.other w)) = .black then
    let s ← s.storeColor (← s.loadChild d w) .black
    let s ← s.storeColor w .red
    let s ← rotate d.other s w
    let w ← s.loadChild d.other (← s.loadParent p)
    some (s, w)
  else some (s, w)

/-- `if (w->color == _RED) { ... left_rotate(p->parent); w = p->parent->right; }`, and its
mirror image. -/
def turnSibling (d : Dir) (s : RbTree κ β) (p w : Nat) : Option (RbTree κ β × Nat) := do
  if (← s.loadColor w) = .red then
    let s ← s.storeColor w .black
    let s ← s.storeColor (← s.loadParent p) .red
    let s ← rotate d s (← s.loadParent p)
    let w ← s.loadChild d.other (← s.loadParent p)
    some (s, w)
  else some (s, w)

/-- `w->color = p->parent->color; ... left_rotate(p->parent);`, and its mirror image. -/
def turnParent (d : Dir) (s : RbTree κ β) (p w : Nat) : Option (RbTree κ β) := do
  let s ← s.storeColor w (← s.loadColor (← s.loadParent p))
  let s ← s.storeColor (← s.loadParent p) .black
  let s ← s.storeColor (← s.loadChild d.other w) .black
  rotate d s (← s.loadParent p)

/-- One half of the loop of `remove_fixup`: `p` is a child on the side `d`. -/
def removeFixupHalf (d : Dir) (s : RbTree κ β) (p : Nat) : Option (RbTree κ β × Nat) := do
  let w ← s.loadChild d.other (← s.loadParent p)
  let (s, w) ← turnSibling d s p w
  let near ← s.loadColor (← s.loadChild d w)
  let far ← s.loadColor (← s.loadChild d.other w)
  if near = .black ∧ far = .black then
    let s ← s.storeColor w .red
    some (s, ← s.loadParent p)
  else
    let (s, w) ← turnOuter d s p w
    let s ← turnParent d s p w
    some (s, s.links.root)

def removeFixupLoop : Nat → RbTree κ β → Nat → Option (RbTree κ β)
  | 0, _, _ => none
  | fuel + 1, s, p => do
      if p = s.links.root then s.storeColor p .black
      else if (← s.loadColor p) = .black then
        let q ← s.loadParent p
        let (s, p) ← if p = (← s.loadChild .left q) then removeFixupHalf .left s p
          else removeFixupHalf .right s p
        removeFixupLoop fuel s p
      else s.storeColor p .black

def remove_fixup (s : RbTree κ β) (p : Nat) : Option (RbTree κ β) :=
  removeFixupLoop s.fresh s p

/-- `while (y->left != nil) y = y->left;` -/
def leftmost (s : RbTree κ β) : Nat → Nat → Option Nat
  | 0, _ => none
  | fuel + 1, y => do
      let l ← s.loadChild .left y
      if l = NIL then some y else s.leftmost fuel l

/-- `y` has at most one child, which is put in the place of `y`. -/
def spliceOut (s : RbTree κ β) (y : Nat) : Option (RbTree κ β × Nat) := do
  let l ← s.loadChild .left y
  let x ← if l = NIL then s.loadChild .right y else some l
  let s ← s.storeParent x (← s.loadParent y)
  let s ← s.hang y x
  some (s, x)

/-- Take out `y`, which holds the entry to remove or, if it is not `cur`, the next one. -/
def unlink (s : RbTree κ β) (cur y : Nat) : Option (RbTree κ β) := do
  let (s, x) ← s.spliceOut y
  let s ← if y = cur then some s else s.storeValue cur (← s.loadValue y)
  let s ← if (← s.loadColor y) = .black then remove_fixup s x else some s
  s.delete y

section Keys

variable [LinearOrder κ]

def locate (s : RbTree κ β) (k : κ) : Nat → Nat → Option Nat
  | 0, _ => none
  | fuel + 1, cur => do
      if cur = NIL then some NIL
      else
        let key ← s.loadKey cur
        if k < key then s.locate k fuel (← s.loadChild .left cur)
        else if key < k then s.locate k fuel (← s.loadChild .right cur)
        else some cur

def remove (s : RbTree κ β) (k : κ) : Option (RbTree κ β) := do
  let cur ← s.locate k s.fresh s.links.root
  let l ← s.loadChild .left cur
  let r ← s.loadChild .right cur
  if l = NIL ∨ r = NIL then s.unlink cur cur
  else s.unlink cur (← s.leftmost s.fresh r)

end Keys

end RbTree

end RebuildTheWheel.TinySTL
