import RebuildTheWheel.Data.ParentTree

namespace RebuildTheWheel.Nginx

open Data Data.RedBlack

/-! `ngx_rbtree.c`. The nodes belong to the caller, and the links join them. Address 0 is `NULL`,
where no load and no store has a result, and address 1 the sentinel. The comments of the source
call the stores after a removal debug stuff. -/

def NULL : Nat := 0

def sentinel : Nat := 1

/-- `tree->root` and the fields of all nodes. -/
abbrev Rbtree (κ : Type) := Links Nat κ

namespace Rbtree

variable {κ : Type}

def loadParent (s : Rbtree κ) (a : Nat) : Option Nat := if a = NULL then none else some (s.parent a)

def loadChild (s : Rbtree κ) (d : Dir) (a : Nat) : Option Nat :=
  if a = NULL then none else some (s.child d a)

def loadColor (s : Rbtree κ) (a : Nat) : Option Color :=
  if a = NULL then none else some (s.color a)

def loadKey (s : Rbtree κ) (a : Nat) : Option κ := if a = NULL then none else some (s.data a)

def storeParent (s : Rbtree κ) (a v : Nat) : Option (Rbtree κ) :=
  if a = NULL then none else some (s.setParent a v)

def storeChild (s : Rbtree κ) (d : Dir) (a v : Nat) : Option (Rbtree κ) :=
  if a = NULL then none else some (s.setChild d a v)

def storeColor (s : Rbtree κ) (a : Nat) (c : Color) : Option (Rbtree κ) :=
  if a = NULL then none else some (s.setColor a c)

def storeKey (s : Rbtree κ) (a : Nat) (k : κ) : Option (Rbtree κ) :=
  if a = NULL then none else some (s.setData a k)

/-- `node->parent` gets `temp` as its child in the place of `node`, which is looked for on the side
`d` first. -/
def hangBelow (d : Dir) (s : Rbtree κ) (node temp : Nat) : Option (Rbtree κ) := do
  let p ← s.loadParent node
  if node = (← s.loadChild d p) then s.storeChild d p temp else s.storeChild d.other p temp

def hang (d : Dir) (s : Rbtree κ) (node temp : Nat) : Option (Rbtree κ) :=
  if node = s.root then some (s.setRoot temp) else hangBelow d s node temp

/-- The two rotations, which differ in the side only. -/
def rotate (d : Dir) (s : Rbtree κ) (node : Nat) : Option (Rbtree κ) := do
  let temp ← s.loadChild d.other node
  let s ← s.storeChild d.other node (← s.loadChild d temp)
  let inner ← s.loadChild d temp
  let s ← if inner ≠ sentinel then s.storeParent inner node else some s
  let s ← s.storeParent temp (← s.loadParent node)
  let s ← hang d s node temp
  let s ← s.storeChild d temp node
  s.storeParent node temp

def left_rotate (s : Rbtree κ) (node : Nat) : Option (Rbtree κ) := rotate .left s node

def right_rotate (s : Rbtree κ) (node : Nat) : Option (Rbtree κ) := rotate .right s node

/-! Insertion. -/

/-- `if (node == node->parent->right) { node = node->parent; ngx_rbtree_left_rotate(..); }`, and
its mirror image. -/
def turnInner (d : Dir) (s : Rbtree κ) (node : Nat) : Option (Rbtree κ × Nat) := do
  let p ← s.loadParent node
  if node = (← s.loadChild d.other p) then
    let s ← rotate d s p
    some (s, p)
  else some (s, node)

/-- One half of the loop of `ngx_rbtree_insert`: the parent of `node` is a child on the side `d`. -/
def insertFixupHalf (d : Dir) (s : Rbtree κ) (node : Nat) : Option (Rbtree κ × Nat) := do
  let p ← s.loadParent node
  let g ← s.loadParent p
  let temp ← s.loadChild d.other g
  if (← s.loadColor temp) = .red then
    let s ← s.storeColor p .black
    let s ← s.storeColor temp .black
    let s ← s.storeColor g .red
    some (s, g)
  else
    let (s, node) ← turnInner d s node
    let p ← s.loadParent node
    let s ← s.storeColor p .black
    let g ← s.loadParent p
    let s ← s.storeColor g .red
    let s ← rotate d.other s g
    some (s, node)

def insertFixup : Nat → Rbtree κ → Nat → Option (Rbtree κ)
  | 0, _, _ => none
  | fuel + 1, s, node => do
      if node = s.root then s.storeColor s.root .black
      else
        let p ← s.loadParent node
        if (← s.loadColor p) = .red then
          let g ← s.loadParent p
          let (s, node) ← if p = (← s.loadChild .left g) then insertFixupHalf .left s node
            else insertFixupHalf .right s node
          insertFixup fuel s node
        else s.storeColor s.root .black

section Keys

variable [LinearOrder κ]

def insert_value : Nat → Rbtree κ → Nat → Nat → Option (Rbtree κ)
  | 0, _, _, _ => none
  | fuel + 1, s, temp, node => do
      let d : Dir := if (← s.loadKey node) < (← s.loadKey temp) then .left else .right
      let p ← s.loadChild d temp
      if p = sentinel then
        let s ← s.storeChild d temp node
        let s ← s.storeParent node temp
        let s ← s.storeChild .left node sentinel
        let s ← s.storeChild .right node sentinel
        s.storeColor node .red
      else insert_value fuel s p node

/-- `ngx_rbtree_insert`, with `ngx_rbtree_insert_value`. -/
def insert (fuel : Nat) (s : Rbtree κ) (node : Nat) : Option (Rbtree κ) := do
  if s.root = sentinel then
    let s ← s.storeParent node NULL
    let s ← s.storeChild .left node sentinel
    let s ← s.storeChild .right node sentinel
    let s ← s.storeColor node .black
    some (s.setRoot node)
  else
    let s ← insert_value fuel s s.root node
    insertFixup fuel s node

end Keys

/-! Removal. -/

def min (s : Rbtree κ) : Nat → Nat → Option Nat
  | 0, _ => none
  | fuel + 1, node => do
      let l ← s.loadChild .left node
      if l ≠ sentinel then s.min fuel l else some node

/-- The node `subst` that leaves its place, and its child `temp` that takes it. -/
def chooseSubst (fuel : Nat) (s : Rbtree κ) (node : Nat) : Option (Nat × Nat) := do
  let l ← s.loadChild .left node
  let r ← s.loadChild .right node
  if l = sentinel then some (node, r)
  else if r = sentinel then some (node, l)
  else
    let subst ← s.min fuel r
    let l ← s.loadChild .left subst
    if l ≠ sentinel then some (subst, l)
    else
      let r ← s.loadChild .right subst
      some (subst, r)

/-- `if (subst->left != sentinel) { subst->left->parent = subst; }`, and the same for the right. -/
def adopt (d : Dir) (s : Rbtree κ) (subst : Nat) : Option (Rbtree κ) := do
  let c ← s.loadChild d subst
  if c ≠ sentinel then s.storeParent c subst else some s

/-- `subst` gets the links and the colour of `node`, and takes its place. -/
def replace (s : Rbtree κ) (node subst : Nat) : Option (Rbtree κ) := do
  let s ← s.storeChild .left subst (← s.loadChild .left node)
  let s ← s.storeChild .right subst (← s.loadChild .right node)
  let s ← s.storeParent subst (← s.loadParent node)
  let s ← s.storeColor subst (← s.loadColor node)
  let s ← hang .left s node subst
  let s ← adopt .left s subst
  adopt .right s subst

def unlink (s : Rbtree κ) (node subst temp : Nat) : Option (Rbtree κ) := do
  let s ← hangBelow .left s subst temp
  let p ← s.loadParent subst
  if subst = node then s.storeParent temp p
  else
    let s ← if p = node then s.storeParent temp subst else s.storeParent temp p
    s.replace node subst

def clear [Zero κ] (s : Rbtree κ) (node : Nat) : Option (Rbtree κ) := do
  let s ← s.storeChild .left node NULL
  let s ← s.storeChild .right node NULL
  let s ← s.storeParent node NULL
  s.storeKey node 0

/-- `if (ngx_rbt_is_red(w)) { ... w = temp->parent->right; }`, and its mirror image. -/
def turnSibling (d : Dir) (s : Rbtree κ) (temp w : Nat) : Option (Rbtree κ × Nat) := do
  if (← s.loadColor w) = .red then
    let s ← s.storeColor w .black
    let s ← s.storeColor (← s.loadParent temp) .red
    let s ← rotate d s (← s.loadParent temp)
    let w ← s.loadChild d.other (← s.loadParent temp)
    some (s, w)
  else some (s, w)

/-- `if (ngx_rbt_is_black(w->right)) { ... w = temp->parent->right; }`, and its mirror image. -/
def turnOuter (d : Dir) (s : Rbtree κ) (temp w : Nat) : Option (Rbtree κ × Nat) := do
  if (← s.loadColor (← s.loadChild d.other w)) = .black then
    let s ← s.storeColor (← s.loadChild d w) .black
    let s ← s.storeColor w .red
    let s ← rotate d.other s w
    let w ← s.loadChild d.other (← s.loadParent temp)
    some (s, w)
  else some (s, w)

/-- `ngx_rbt_copy_color(w, temp->parent); ... ngx_rbtree_left_rotate(..);`, and its mirror image. -/
def turnParent (d : Dir) (s : Rbtree κ) (temp w : Nat) : Option (Rbtree κ) := do
  let s ← s.storeColor w (← s.loadColor (← s.loadParent temp))
  let s ← s.storeColor (← s.loadParent temp) .black
  let s ← s.storeColor (← s.loadChild d.other w) .black
  rotate d s (← s.loadParent temp)

/-- One half of the loop of `ngx_rbtree_delete`: `temp` is a child on the side `d`. -/
def deleteFixupHalf (d : Dir) (s : Rbtree κ) (temp : Nat) : Option (Rbtree κ × Nat) := do
  let w ← s.loadChild d.other (← s.loadParent temp)
  let (s, w) ← turnSibling d s temp w
  let near ← s.loadColor (← s.loadChild d w)
  let far ← s.loadColor (← s.loadChild d.other w)
  if near = .black ∧ far = .black then
    let s ← s.storeColor w .red
    some (s, ← s.loadParent temp)
  else
    let (s, w) ← turnOuter d s temp w
    let s ← turnParent d s temp w
    some (s, s.root)

def deleteFixup : Nat → Rbtree κ → Nat → Option (Rbtree κ)
  | 0, _, _ => none
  | fuel + 1, s, temp => do
      if temp = s.root then s.storeColor temp .black
      else if (← s.loadColor temp) = .black then
        let p ← s.loadParent temp
        let (s, temp) ← if temp = (← s.loadChild .left p) then deleteFixupHalf .left s temp
          else deleteFixupHalf .right s temp
        deleteFixup fuel s temp
      else s.storeColor temp .black

def delete [Zero κ] (fuel : Nat) (s : Rbtree κ) (node : Nat) : Option (Rbtree κ) := do
  let (subst, temp) ← s.chooseSubst fuel node
  if subst = s.root then
    let s ← storeColor (s.setRoot temp) temp .black
    s.clear node
  else
    let c ← s.loadColor subst
    let s ← s.unlink node subst temp
    let s ← s.clear node
    if c = .red then some s else deleteFixup fuel s temp

/-! Iteration. -/

def nextUp (s : Rbtree κ) : Nat → Nat → Option Nat
  | 0, _ => none
  | fuel + 1, node => do
      let parent ← s.loadParent node
      if node = s.root then some NULL
      else if node = (← s.loadChild .left parent) then some parent
      else s.nextUp fuel parent

def next (fuel : Nat) (s : Rbtree κ) (node : Nat) : Option Nat := do
  let r ← s.loadChild .right node
  if r ≠ sentinel then s.min fuel r else s.nextUp fuel node

/-- `node` and the nodes that `ngx_rbtree_next` gives after it, until it returns `NULL`. -/
def walk (fuel : Nat) (s : Rbtree κ) : Nat → Nat → Option (List Nat)
  | 0, _ => none
  | n + 1, node => do
      if node = NULL then some []
      else
        let rest ← walk fuel s n (← s.next fuel node)
        some (node :: rest)

/-- All nodes from `ngx_rbtree_min` on. An empty tree has no first node. -/
def visit (fuel : Nat) (s : Rbtree κ) : Option (List Nat) := do
  if s.root = sentinel then some [] else walk fuel s fuel (← s.min fuel s.root)

/-! What callers do with a tree. -/

/-- `ngx_rbtree_init`, whatever the memory holds before. -/
def init (s : Rbtree κ) : Rbtree κ := (s.setColor sentinel .black).setRoot sentinel

inductive Op (κ : Type) where
  -- the key is set before
  | insert (node : Nat) (key : κ)
  | delete (node : Nat)

def step [LinearOrder κ] [Zero κ] (fuel : Nat) (s : Rbtree κ) : Op κ → Option (Rbtree κ)
  | .insert node key => do
      let s ← s.storeKey node key
      s.insert fuel node
  | .delete node => s.delete fuel node

end Rbtree

end RebuildTheWheel.Nginx
