import RebuildTheWheel.Data.SearchTree

namespace RebuildTheWheel.Data

/-! Red-black trees, and trees with a hole. The two sides of a node are told apart
by a direction, so that mirrored cases are one. -/

inductive Color where
  | red
  | black
  deriving DecidableEq

inductive Dir where
  | left
  | right
  deriving DecidableEq

def Dir.other : Dir → Dir
  | .left => .right
  | .right => .left

@[simp] theorem Dir.other_other (d : Dir) : d.other.other = d := by
  cases d <;> rfl

theorem Dir.other_ne (d : Dir) : d.other ≠ d := by
  cases d <;> decide

theorem Dir.eq_or_eq_other (d e : Dir) : e = d ∨ e = d.other := by
  cases d <;> cases e <;> decide

/-- A node of the address `addr`. -/
structure Cell (ι δ : Type*) where
  color : Color
  addr : ι
  data : δ

def Cell.paint {ι δ : Type*} (x : Cell ι δ) (c : Color) : Cell ι δ :=
  ⟨c, x.addr, x.data⟩

@[simp] theorem Cell.paint_addr {ι δ : Type*} (x : Cell ι δ) (c : Color) :
    (x.paint c).addr = x.addr :=
  rfl

@[simp] theorem Cell.paint_data {ι δ : Type*} (x : Cell ι δ) (c : Color) :
    (x.paint c).data = x.data :=
  rfl

@[simp] theorem Cell.paint_color {ι δ : Type*} (x : Cell ι δ) (c : Color) :
    (x.paint c).color = c :=
  rfl

namespace RedBlack

open SearchTree

variable {ι δ : Type*}

abbrev Tree (ι δ : Type*) := BinaryTree (Cell ι δ)

/-- The node with `near` on its side `d` and `far` on the other. -/
def join (d : Dir) (x : Cell ι δ) (near far : Tree ι δ) : Tree ι δ :=
  match d with
  | .left => .node x near far
  | .right => .node x far near

theorem join_other (d : Dir) (x : Cell ι δ) (near far : Tree ι δ) :
    join d.other x near far = join d x far near := by
  cases d <;> rfl

theorem exists_join (d : Dir) (x : Cell ι δ) (left right : Tree ι δ) :
    ∃ near far, BinaryTree.node x left right = join d x near far := by
  cases d with
  | left => exact ⟨left, right, rfl⟩
  | right => exact ⟨right, left, rfl⟩

/-- What is left of a tree around a hole: the node above the hole, on which side
of it the hole is, and what is on the other side. -/
structure Frame (ι δ : Type*) where
  dir : Dir
  cell : Cell ι δ
  sibling : Tree ι δ

/-- The frames around a hole, from the hole up. -/
abbrev Context (ι δ : Type*) := List (Frame ι δ)

def plug : Context ι δ → Tree ι δ → Tree ι δ
  | [], t => t
  | f :: fs, t => plug fs (join f.dir f.cell t f.sibling)

theorem plug_append (fs gs : Context ι δ) (t : Tree ι δ) :
    plug (fs ++ gs) t = plug gs (plug fs t) := by
  induction fs generalizing t with
  | nil => rfl
  | cons f fs ih => exact ih _

def rootColor : Tree ι δ → Color
  | .nil => .black
  | .node x _ _ => x.color

def setRootColor (c : Color) : Tree ι δ → Tree ι δ
  | .nil => .nil
  | .node x left right => .node (x.paint c) left right

@[simp] theorem rootColor_join (d : Dir) (x : Cell ι δ) (near far : Tree ι δ) :
    rootColor (join d x near far) = x.color := by
  cases d <;> rfl

theorem setRootColor_join (c : Color) (d : Dir) (x : Cell ι δ) (near far : Tree ι δ) :
    setRootColor c (join d x near far) = join d (x.paint c) near far := by
  cases d <;> rfl

/-! The nodes in order. -/

def entry (x : Cell ι δ) : ι × δ := (x.addr, x.data)

def entries (t : Tree ι δ) : List (ι × δ) := keys entry t

/-- What stands on one side of a node, put on the left or the right of `middle`. -/
def beside (d : Dir) (middle side : List (ι × δ)) : List (ι × δ) :=
  match d with
  | .left => middle ++ side
  | .right => side ++ middle

theorem entries_join (d : Dir) (x : Cell ι δ) (near far : Tree ι δ) :
    entries (join d x near far) = beside d (entries near) (beside d [entry x] (entries far)) := by
  cases d <;> simp [entries, join, beside]

/-- The nodes of the context that come before and after the hole. -/
def beforeHole : Context ι δ → List (ι × δ)
  | [] => []
  | f :: fs =>
      match f.dir with
      | .left => beforeHole fs
      | .right => beforeHole fs ++ entries f.sibling ++ [entry f.cell]

def afterHole : Context ι δ → List (ι × δ)
  | [] => []
  | f :: fs =>
      match f.dir with
      | .left => entry f.cell :: entries f.sibling ++ afterHole fs
      | .right => afterHole fs

theorem entries_plug (fs : Context ι δ) (t : Tree ι δ) :
    entries (plug fs t) = beforeHole fs ++ entries t ++ afterHole fs := by
  induction fs generalizing t with
  | nil => simp [plug, beforeHole, afterHole]
  | cons f fs ih =>
      obtain ⟨d, x, sibling⟩ := f
      rw [plug, ih, entries_join]
      cases d <;> simp [beside, beforeHole, afterHole]

theorem beforeHole_eq_nil {fs : Context ι δ} (h : ∀ f ∈ fs, f.dir = .left) :
    beforeHole fs = [] := by
  induction fs with
  | nil => rfl
  | cons f fs ih =>
      rw [beforeHole, h f List.mem_cons_self]
      exact ih fun g hg => h g (List.mem_cons_of_mem _ hg)

theorem entries_plug_congr {t t' : Tree ι δ} (h : entries t = entries t') (fs : Context ι δ) :
    entries (plug fs t) = entries (plug fs t') := by
  rw [entries_plug, entries_plug, h]

theorem entries_recolor (d : Dir) (x : Cell ι δ) (c : Color) (near far : Tree ι δ) :
    entries (join d (x.paint c) near far) = entries (join d x near far) := by
  cases d <;> simp [entries, join, entry]

theorem entries_join_congr (d : Dir) (x : Cell ι δ) {near near' far far' : Tree ι δ}
    (hnear : entries near = entries near') (hfar : entries far = entries far') :
    entries (join d x near far) = entries (join d x near' far') := by
  rw [entries_join, entries_join, hnear, hfar]

theorem entries_setRootColor (c : Color) (t : Tree ι δ) :
    entries (setRootColor c t) = entries t := by
  cases t <;> rfl

/-- A rotation keeps the order. -/
theorem entries_rotate (d : Dir) (x y : Cell ι δ) (a b c : Tree ι δ) :
    entries (join d y (join d x a b) c) = entries (join d x a (join d y b c)) := by
  cases d <;> simp [entries, join]

/-! Balance: `Balanced t c n` if the root of `t` has the colour `c`, no red node has
a red child and every path has `n` black nodes. -/

inductive Balanced : Tree ι δ → Color → Nat → Prop where
  | nil : Balanced .nil .black 0
  | red : x.color = .red → Balanced a .black n → Balanced b .black n →
      Balanced (.node x a b) .red n
  | black : x.color = .black → Balanced a c n → Balanced b c' n →
      Balanced (.node x a b) .black (n + 1)

/-- The hole may be filled with a tree of this colour and height. -/
inductive Fits : Context ι δ → Color → Nat → Prop where
  | top : Fits [] .black n
  | red : f.cell.color = .red → Balanced f.sibling .black n → Fits fs .red n →
      Fits (f :: fs) .black n
  | black : f.cell.color = .black → Balanced f.sibling c' n → Fits fs .black (n + 1) →
      Fits (f :: fs) c n

theorem Balanced.rootColor_eq {t : Tree ι δ} (h : Balanced t c n) : rootColor t = c := by
  cases h with
  | nil => rfl
  | red hx _ _ => exact hx
  | black hx _ _ => exact hx

theorem Balanced.join_red {x : Cell ι δ} {a b : Tree ι δ} (hx : x.color = .red)
    (ha : Balanced a .black n) (hb : Balanced b .black n) (d : Dir) :
    Balanced (join d x a b) .red n := by
  cases d with
  | left => exact .red hx ha hb
  | right => exact .red hx hb ha

theorem Balanced.join_black {x : Cell ι δ} {a b : Tree ι δ} (hx : x.color = .black)
    (ha : Balanced a c n) (hb : Balanced b c' n) (d : Dir) :
    Balanced (join d x a b) .black (n + 1) := by
  cases d with
  | left => exact .black hx ha hb
  | right => exact .black hx hb ha

theorem Balanced.of_join_red {x : Cell ι δ} {a b : Tree ι δ} {d : Dir} (hx : x.color = .red)
    (h : Balanced (join d x a b) c n) :
    c = .red ∧ Balanced a .black n ∧ Balanced b .black n := by
  cases d with
  | left =>
      cases h with
      | red _ ha hb => exact ⟨rfl, ha, hb⟩
      | black hx' _ _ => rw [hx] at hx'; cases hx'
  | right =>
      cases h with
      | red _ hb ha => exact ⟨rfl, ha, hb⟩
      | black hx' _ _ => rw [hx] at hx'; cases hx'

theorem Balanced.of_join_black {x : Cell ι δ} {a b : Tree ι δ} {d : Dir} (hx : x.color = .black)
    (h : Balanced (join d x a b) c n) :
    ∃ m c₁ c₂, n = m + 1 ∧ c = .black ∧ Balanced a c₁ m ∧ Balanced b c₂ m := by
  cases d with
  | left =>
      cases h with
      | red hx' _ _ => rw [hx] at hx'; cases hx'
      | black _ ha hb => exact ⟨_, _, _, rfl, rfl, ha, hb⟩
  | right =>
      cases h with
      | red hx' _ _ => rw [hx] at hx'; cases hx'
      | black _ hb ha => exact ⟨_, _, _, rfl, rfl, ha, hb⟩

/-- The data do not matter. -/
theorem Balanced.recell {x x' : Cell ι δ} {a b : Tree ι δ} {d : Dir} (hx : x'.color = x.color)
    (h : Balanced (join d x a b) c n) : Balanced (join d x' a b) c n := by
  cases hcolor : x.color with
  | red =>
      obtain ⟨rfl, ha, hb⟩ := h.of_join_red hcolor
      exact ha.join_red (hx.trans hcolor) hb d
  | black =>
      obtain ⟨n, c₁, c₂, rfl, rfl, ha, hb⟩ := h.of_join_black hcolor
      exact ha.join_black (hx.trans hcolor) hb d

/-- A red tree, seen from either side. -/
theorem Balanced.exists_join {t : Tree ι δ} (h : Balanced t .red n) (d : Dir) :
    ∃ x a b, t = join d x a b ∧ x.color = .red ∧ Balanced a .black n ∧ Balanced b .black n := by
  cases h with
  | red hx ha hb =>
      cases d with
      | left => exact ⟨_, _, _, rfl, hx, ha, hb⟩
      | right => exact ⟨_, _, _, rfl, hx, hb, ha⟩

/-- A black tree that is not empty, seen from either side. -/
theorem Balanced.exists_join_black {t : Tree ι δ} (h : Balanced t .black (n + 1)) (d : Dir) :
    ∃ x a b c c', t = join d x a b ∧ x.color = .black ∧ Balanced a c n ∧ Balanced b c' n := by
  cases h with
  | black hx ha hb =>
      cases d with
      | left => exact ⟨_, _, _, _, _, rfl, hx, ha, hb⟩
      | right => exact ⟨_, _, _, _, _, rfl, hx, hb, ha⟩

theorem Balanced.setRootColor_black {t : Tree ι δ} (h : Balanced t c n) :
    ∃ m, Balanced (setRootColor .black t) .black m := by
  cases h with
  | nil => exact ⟨_, .nil⟩
  | red _ ha hb => exact ⟨_, .black rfl ha hb⟩
  | black _ ha hb => exact ⟨_, .black rfl ha hb⟩

theorem Balanced.setRootColor_red {t : Tree ι δ} (h : Balanced t .red n) :
    Balanced (setRootColor .black t) .black (n + 1) := by
  cases h with
  | red _ ha hb => exact .black rfl ha hb

theorem Balanced.black_of_rootColor {t : Tree ι δ} (h : Balanced t c n)
    (hcolor : rootColor t = .black) : Balanced t .black n := by
  rw [← hcolor, h.rootColor_eq]
  exact h

theorem Balanced.red_of_rootColor {t : Tree ι δ} (h : Balanced t c n)
    (hcolor : rootColor t = .red) : Balanced t .red n := by
  rw [← hcolor, h.rootColor_eq]
  exact h

/-- What stands in a hole below a red node may stand below a black one. -/
theorem Fits.black_of_red {fs : Context ι δ} (h : Fits fs .red n) : Fits fs .black n := by
  cases h with
  | black hf hsibling hfs => exact .black hf hsibling hfs

/-- Only a black node may have a red child. -/
theorem Fits.of_red {fs : Context ι δ} (h : Fits fs .red n) :
    ∃ f gs c, fs = f :: gs ∧ f.cell.color = .black ∧ Balanced f.sibling c n ∧
      Fits gs .black (n + 1) := by
  cases h with
  | black hf hsibling hfs => exact ⟨_, _, _, rfl, hf, hsibling, hfs⟩

theorem Fits.plug {fs : Context ι δ} (hfs : Fits fs c n) {t : Tree ι δ} (ht : Balanced t c n) :
    ∃ m, Balanced (plug fs t) .black m := by
  induction hfs generalizing t with
  | top => exact ⟨_, ht⟩
  | red hf hsibling _ ih => exact ih (ht.join_red hf hsibling _)
  | black hf hsibling _ ih => exact ih (ht.join_black hf hsibling _)

theorem setRootColor_rootColor (t : Tree ι δ) : setRootColor (rootColor t) t = t := by
  cases t <;> rfl

theorem Fits.setRootColor_plug {fs : Context ι δ} (hfs : Fits fs c n) {t : Tree ι δ}
    (ht : Balanced t c n) : setRootColor .black (RedBlack.plug fs t) = RedBlack.plug fs t := by
  obtain ⟨m, hm⟩ := hfs.plug ht
  rw [← hm.rootColor_eq, setRootColor_rootColor]

/-- Every subtree of a balanced tree stands in a hole that it fits. -/
theorem Balanced.of_plug {fs : Context ι δ} {t : Tree ι δ} (h : Balanced (plug fs t) .black m) :
    ∃ c n, Balanced t c n ∧ Fits fs c n := by
  induction fs generalizing t with
  | nil => exact ⟨_, _, h, .top⟩
  | cons f fs ih =>
      obtain ⟨c, n, hjoin, hfits⟩ := ih h
      cases hcolor : f.cell.color with
      | red =>
          obtain ⟨rfl, ht, hsibling⟩ := hjoin.of_join_red hcolor
          exact ⟨_, _, ht, .red hcolor hsibling hfits⟩
      | black =>
          obtain ⟨n, c₁, c₂, rfl, rfl, ht, hsibling⟩ := hjoin.of_join_black hcolor
          exact ⟨_, _, ht, .black hcolor hsibling hfits⟩

theorem Balanced.plug_recell {inner fs : Context ι δ} {f : Frame ι δ} {x : Cell ι δ}
    {t : Tree ι δ} (hx : x.color = f.cell.color)
    (h : Balanced (plug (inner ++ f :: fs) t) .black m) :
    ∃ m, Balanced (plug (inner ++ ⟨f.dir, x, f.sibling⟩ :: fs) t) .black m := by
  rw [plug_append, RedBlack.plug] at h ⊢
  obtain ⟨c, n, hjoin, hfits⟩ := h.of_plug
  exact hfits.plug (hjoin.recell hx)

end RedBlack

end RebuildTheWheel.Data
