import RebuildTheWheel.Data.RedBlack

namespace RebuildTheWheel.Data

open RedBlack SearchTree

/-! Binary trees in memory with links to the children and to the parent. The
absent child is the address `nil` and the parent of the root is the address `top`. -/

structure Links (ι δ : Type*) where
  root : ι
  parent : ι → ι
  child : Dir → ι → ι
  color : ι → Color
  data : ι → δ

namespace Links

variable {ι δ : Type*}

section Updates

variable [DecidableEq ι]

def setRoot (s : Links ι δ) (v : ι) : Links ι δ := { s with root := v }

def setParent (s : Links ι δ) (a v : ι) : Links ι δ :=
  { s with parent := fun p => if p = a then v else s.parent p }

def setChild (s : Links ι δ) (d : Dir) (a v : ι) : Links ι δ :=
  { s with child := fun e p => if e = d ∧ p = a then v else s.child e p }

def setColor (s : Links ι δ) (a : ι) (c : Color) : Links ι δ :=
  { s with color := fun p => if p = a then c else s.color p }

def setData (s : Links ι δ) (a : ι) (v : δ) : Links ι δ :=
  { s with data := fun p => if p = a then v else s.data p }

@[simp] theorem setParent_data (s : Links ι δ) (a v : ι) : (s.setParent a v).data = s.data := rfl

@[simp] theorem setChild_data (s : Links ι δ) (d : Dir) (a v : ι) :
    (s.setChild d a v).data = s.data :=
  rfl

/-- Put `new` where `old` hangs below `p`, or at the root. -/
def hang (s : Links ι δ) (atTop : Bool) (p old new : ι) : Links ι δ :=
  if atTop then s.setRoot new
  else if old = s.child .left p then s.setChild .left p new
  else s.setChild .right p new

/-- Turn the node `x` to its side `d`: its child on the other side comes above it. -/
def rotate (s : Links ι δ) (nil : ι) (atTop : Bool) (d : Dir) (x : ι) : Links ι δ :=
  let y := s.child d.other x
  let b := s.child d y
  let p := s.parent x
  let lowered := s.setChild d.other x b
  let moved := if b = nil then lowered else lowered.setParent b x
  (((moved.setParent y p).hang atTop p x y).setChild d y x).setParent x y

end Updates

/-- The node at `a` is as the cell says. -/
structure Holds (s : Links ι δ) (p : ι) (x : Cell ι δ) : Prop where
  parent : s.parent x.addr = p
  color : s.color x.addr = x.color
  data : s.data x.addr = x.data

/-- The tree at `r`, below `p`. -/
def Rep (s : Links ι δ) (nil : ι) : ι → ι → Tree ι δ → Prop
  | _, r, .nil => r = nil
  | p, r, .node x left right =>
      r = x.addr ∧ x.addr ≠ nil ∧ s.Holds p x ∧
        s.Rep nil x.addr (s.child .left x.addr) left ∧
        s.Rep nil x.addr (s.child .right x.addr) right

/-- The nodes around a hole that `r` is put into, below `p`. -/
def RepContext (s : Links ι δ) (nil top : ι) : Context ι δ → ι → ι → Prop
  | [], p, r => p = top ∧ s.root = r
  | f :: fs, p, r =>
      p = f.cell.addr ∧ f.cell.addr ≠ nil ∧ s.Holds (s.parent p) f.cell ∧ s.child f.dir p = r ∧
        s.Rep nil p (s.child f.dir.other p) f.sibling ∧
        s.RepContext nil top fs (s.parent p) p

def addrs (t : Tree ι δ) : List ι := (entries t).map Prod.fst

variable {s s' : Links ι δ} {nil top p p' r r' : ι} {t : Tree ι δ} {fs : Context ι δ}

theorem rep_join (d : Dir) (x : Cell ι δ) (near far : Tree ι δ) :
    s.Rep nil p r (join d x near far) ↔
      r = x.addr ∧ x.addr ≠ nil ∧ s.Holds p x ∧ s.Rep nil x.addr (s.child d x.addr) near ∧
        s.Rep nil x.addr (s.child d.other x.addr) far := by
  cases d with
  | left => rfl
  | right =>
      simp only [join, Rep, Dir.other]
      tauto

theorem Rep.unique {t t' : Tree ι δ} (h : s.Rep nil p r t) (h' : s.Rep nil p r t') : t = t' := by
  induction t generalizing p r t' with
  | nil =>
      obtain rfl : r = nil := h
      cases t' with
      | nil => rfl
      | node x _ _ => exact absurd h'.1.symm h'.2.1
  | node x left right ihLeft ihRight =>
      obtain ⟨rfl, hnil, hholds, hleft, hright⟩ := h
      cases t' with
      | nil => exact absurd h' hnil
      | node y left' right' =>
          obtain ⟨haddr, _, hholds', hleft', hright'⟩ := h'
          have hxy : x = y := by
            obtain ⟨c, a, v⟩ := x
            obtain ⟨c', a', v'⟩ := y
            obtain rfl : a = a' := haddr
            have hcolor := hholds.color.symm.trans hholds'.color
            have hdata := hholds.data.symm.trans hholds'.data
            simp only at hcolor hdata
            rw [hcolor, hdata]
          subst hxy
          rw [ihLeft hleft hleft', ihRight hright hright']

/-! What a change of the links leaves alone. -/

/-- The node at `a` is the same in both, but for its parent. -/
structure SameBelow (s s' : Links ι δ) (a : ι) : Prop where
  child : ∀ d, s'.child d a = s.child d a
  color : s'.color a = s.color a
  data : s'.data a = s.data a

structure Same (s s' : Links ι δ) (a : ι) : Prop extends SameBelow s s' a where
  parent : s'.parent a = s.parent a

theorem Same.holds {x : Cell ι δ} (h : Same s s' x.addr) (hx : s.Holds p x) : s'.Holds p x :=
  ⟨h.parent.trans hx.parent, h.color.trans hx.color, h.data.trans hx.data⟩

theorem addrs_node (x : Cell ι δ) (left right : Tree ι δ) :
    addrs (.node x left right) = addrs left ++ x.addr :: addrs right := by
  simp [addrs, entries, entry]

theorem Rep.congr (h : s.Rep nil p r t) (hsame : ∀ a ∈ addrs t, Same s s' a) :
    s'.Rep nil p r t := by
  induction t generalizing p r with
  | nil => exact h
  | node x left right ihLeft ihRight =>
      rw [addrs_node] at hsame
      obtain ⟨rfl, hnil, hholds, hleft, hright⟩ := h
      have hx := hsame x.addr (by simp)
      refine ⟨rfl, hnil, hx.holds hholds, ?_, ?_⟩
      · rw [hx.child]
        apply ihLeft hleft
        intro a ha
        exact hsame a (List.mem_append_left _ ha)
      · rw [hx.child]
        apply ihRight hright
        intro a ha
        exact hsame a (List.mem_append_right _ (List.mem_cons_of_mem _ ha))

/-- A tree is hung below another node. -/
theorem Rep.reparent (h : s.Rep nil p r t) (hnodup : (addrs t).Nodup)
    (hsame : ∀ a ∈ addrs t, SameBelow s s' a) (hparent : ∀ a ∈ addrs t, a ≠ r →
      s'.parent a = s.parent a) (hroot : r ≠ nil → s'.parent r = p') : s'.Rep nil p' r t := by
  cases t with
  | nil => exact h
  | node x left right =>
      rw [addrs_node] at hsame hparent hnodup
      obtain ⟨rfl, hnil, hholds, hleft, hright⟩ := h
      obtain ⟨_, hrest, hapart⟩ := List.nodup_append.mp hnodup
      have hx := hsame x.addr (by simp)
      refine ⟨rfl, hnil, ⟨hroot hnil, hx.color.trans hholds.color, hx.data.trans hholds.data⟩,
        ?_, ?_⟩
      · rw [hx.child]
        apply hleft.congr
        intro a ha
        have hmem := List.mem_append_left (x.addr :: addrs right) ha
        exact ⟨hsame a hmem, hparent a hmem (hapart a ha x.addr List.mem_cons_self)⟩
      · rw [hx.child]
        apply hright.congr
        intro a ha
        have hmem := List.mem_append_right (addrs left) (List.mem_cons_of_mem x.addr ha)
        refine ⟨hsame a hmem, hparent a hmem ?_⟩
        rintro rfl
        exact (List.nodup_cons.mp hrest).1 ha

def contextAddrs : Context ι δ → List ι
  | [] => []
  | f :: fs => f.cell.addr :: addrs f.sibling ++ contextAddrs fs

theorem RepContext.congr (h : s.RepContext nil top fs p r) (hroot : s'.root = s.root)
    (hsame : ∀ a ∈ contextAddrs fs, Same s s' a) : s'.RepContext nil top fs p r := by
  induction fs generalizing p r with
  | nil => exact ⟨h.1, hroot.trans h.2⟩
  | cons f fs ih =>
      obtain ⟨rfl, hnil, hholds, rfl, hsibling, hfs⟩ := h
      have hf := hsame f.cell.addr (by simp [contextAddrs])
      have hfsSame : ∀ a ∈ contextAddrs fs, Same s s' a := fun a ha =>
        hsame a (by simp [contextAddrs, ha])
      refine ⟨rfl, hnil, ?_, hf.child _, ?_, ?_⟩
      · rw [hf.parent]
        exact hf.holds hholds
      · rw [hf.child]
        apply hsibling.congr
        intro a ha
        exact hsame a (by simp [contextAddrs, ha])
      · rw [hf.parent]
        exact ih hfs hfsSame

/-- The hole is filled with another address. -/
theorem RepContext.refill (h : s.RepContext nil top fs p r)
    (hroot : s'.root = if fs = [] then r' else s.root)
    (hchild : ∀ f gs, fs = f :: gs → s'.child f.dir p = r' ∧
      s'.child f.dir.other p = s.child f.dir.other p ∧ s'.color p = s.color p ∧
      s'.data p = s.data p ∧ s'.parent p = s.parent p)
    (hnodup : (contextAddrs fs).Nodup) (hsame : ∀ a ∈ contextAddrs fs, a ≠ p → Same s s' a) :
    s'.RepContext nil top fs p r' := by
  cases fs with
  | nil => exact ⟨h.1, hroot⟩
  | cons f fs =>
      obtain ⟨rfl, hnil, hholds, rfl, hsibling, hfs⟩ := h
      obtain ⟨hdir, hother, hcolor, hdata, hparent⟩ := hchild f fs rfl
      rw [contextAddrs, List.cons_append, List.nodup_cons, List.mem_append, not_or] at hnodup
      refine ⟨rfl, hnil, ?_, hdir, ?_, ?_⟩
      · exact ⟨rfl, hcolor.trans hholds.color, hdata.trans hholds.data⟩
      · rw [hother]
        apply hsibling.congr
        intro a ha
        apply hsame a (by simp [contextAddrs, ha])
        rintro rfl
        exact hnodup.1.1 ha
      · rw [hparent]
        apply hfs.congr
        · rw [hroot, if_neg (List.cons_ne_nil f fs)]
        · intro a ha
          apply hsame a (by simp [contextAddrs, ha])
          rintro rfl
          exact hnodup.1.2 ha

/-! A tree in its context. -/

theorem addrs_join_perm (d : Dir) (x : Cell ι δ) (near far : Tree ι δ) :
    (addrs (join d x near far)).Perm (x.addr :: (addrs near ++ addrs far)) := by
  cases d with
  | left =>
      rw [join, addrs_node]
      exact List.perm_middle
  | right =>
      rw [join, addrs_node]
      exact List.perm_middle.trans (.cons _ List.perm_append_comm)

theorem mem_addrs_join {d : Dir} {x : Cell ι δ} {near far : Tree ι δ} {a : ι} :
    a ∈ addrs (join d x near far) ↔ a = x.addr ∨ a ∈ addrs near ∨ a ∈ addrs far := by
  rw [(addrs_join_perm d x near far).mem_iff, List.mem_cons, List.mem_append]

theorem addrs_rotate (d : Dir) (x y : Cell ι δ) (a b c : Tree ι δ) :
    addrs (join d y (join d x a b) c) = addrs (join d x a (join d y b c)) :=
  congrArg (List.map Prod.fst) (entries_rotate d x y a b c)

theorem Rep.ne_nil (h : s.Rep nil p r t) {a : ι} (ha : a ∈ addrs t) : a ≠ nil := by
  induction t generalizing p r with
  | nil => cases ha
  | node x left right ihLeft ihRight =>
      obtain ⟨rfl, hnil, _, hleft, hright⟩ := h
      rw [addrs_node, List.mem_append, List.mem_cons] at ha
      rcases ha with ha | rfl | ha
      · exact ihLeft hleft ha
      · exact hnil
      · exact ihRight hright ha

theorem Rep.root_mem (h : s.Rep nil p r t) (hr : r ≠ nil) : r ∈ addrs t := by
  cases t with
  | nil => exact absurd h hr
  | node x left right =>
      rw [addrs_node, h.1]
      exact List.mem_append_right _ List.mem_cons_self

/-- The tree `t` stands at `r`, below `p`, in the context `fs`. -/
structure Focus (s : Links ι δ) (nil top : ι) (fs : Context ι δ) (t : Tree ι δ) (p r : ι) :
    Prop where
  context : s.RepContext nil top fs p r
  tree : s.Rep nil p r t
  nodup : (addrs t ++ contextAddrs fs).Nodup

theorem addrs_up_perm (f : Frame ι δ) (fs : Context ι δ) (t : Tree ι δ) :
    (addrs (join f.dir f.cell t f.sibling) ++ contextAddrs fs).Perm
      (addrs t ++ contextAddrs (f :: fs)) := by
  have hjoin := (addrs_join_perm f.dir f.cell t f.sibling).append_right (contextAddrs fs)
  refine hjoin.trans ?_
  rw [contextAddrs, List.cons_append, List.append_assoc, List.cons_append]
  exact List.perm_middle.symm

theorem contextAddrs_append (fs gs : Context ι δ) :
    contextAddrs (fs ++ gs) = contextAddrs fs ++ contextAddrs gs := by
  induction fs with
  | nil => rfl
  | cons f fs ih => simp [contextAddrs, ih]

theorem addrs_plug_perm (fs : Context ι δ) (t : Tree ι δ) :
    (addrs (plug fs t)).Perm (addrs t ++ contextAddrs fs) := by
  induction fs generalizing t with
  | nil => simp [plug, contextAddrs]
  | cons f fs ih => exact (ih _).trans (addrs_up_perm f fs t)

theorem Focus.up {f : Frame ι δ} (h : s.Focus nil top (f :: fs) t p r) :
    s.Focus nil top fs (join f.dir f.cell t f.sibling) (s.parent p) p := by
  obtain ⟨⟨rfl, hnil, hholds, rfl, hsibling, hfs⟩, htree, hnodup⟩ := h
  refine ⟨hfs, (rep_join _ _ _ _).mpr ⟨rfl, hnil, hholds, htree, hsibling⟩, ?_⟩
  exact (addrs_up_perm f fs t).nodup_iff.mpr hnodup

theorem Focus.down {d : Dir} {x : Cell ι δ} {near far : Tree ι δ}
    (h : s.Focus nil top fs (join d x near far) p r) :
    s.Focus nil top (⟨d, x, far⟩ :: fs) near r (s.child d r) := by
  obtain ⟨hfs, htree, hnodup⟩ := h
  obtain ⟨rfl, hnil, hholds, hnear, hfar⟩ := (rep_join _ _ _ _).mp htree
  obtain rfl := hholds.parent
  exact ⟨⟨rfl, hnil, hholds, rfl, hfar, hfs⟩, hnear,
    (addrs_up_perm ⟨d, x, far⟩ fs near).nodup_iff.mp hnodup⟩

theorem Focus.parent_eq {f : Frame ι δ} (h : s.Focus nil top (f :: fs) t p r) :
    p = f.cell.addr :=
  h.context.1

theorem Focus.child_eq {f : Frame ι δ} (h : s.Focus nil top (f :: fs) t p r) :
    s.child f.dir p = r :=
  h.context.2.2.2.1

theorem Focus.ne_sibling {f : Frame ι δ} (h : s.Focus nil top (f :: fs) t p r) (hr : r ≠ nil) :
    r ≠ s.child f.dir.other p := by
  intro heq
  obtain ⟨⟨_, _, _, _, hsibling, _⟩, htree, hnodup⟩ := h
  rw [← heq] at hsibling
  obtain ⟨_, _, hapart⟩ := List.nodup_append.mp hnodup
  refine hapart r (htree.root_mem hr) r ?_ rfl
  simp [contextAddrs, hsibling.root_mem hr]

/-- The side of its parent a node hangs on, as its links tell. -/
theorem Focus.eq_dir_iff {f : Frame ι δ} (h : s.Focus nil top (f :: fs) t p r) (hr : r ≠ nil)
    (e : Dir) : e = f.dir ↔ (e = .left ↔ r = s.child .left p) := by
  have hne := h.ne_sibling hr
  have heq := h.child_eq
  cases hd : f.dir with
  | left =>
      rw [hd] at heq
      simp [heq]
  | right =>
      rw [hd] at hne
      cases e with
      | left => simpa [Dir.other] using hne
      | right => simpa [Dir.other] using hne

section Rotation

variable [DecidableEq ι] {atTop : Bool} {d e : Dir} {x old new q : ι}

@[simp] theorem hang_parent : (s.hang atTop p old new).parent = s.parent := by
  simp only [hang, setRoot, setChild]
  split_ifs <;> rfl

@[simp] theorem hang_color : (s.hang atTop p old new).color = s.color := by
  simp only [hang, setRoot, setChild]
  split_ifs <;> rfl

@[simp] theorem hang_data : (s.hang atTop p old new).data = s.data := by
  simp only [hang, setRoot, setChild]
  split_ifs <;> rfl

theorem hang_root : (s.hang atTop p old new).root = if atTop then new else s.root := by
  simp only [hang, setRoot, setChild]
  split_ifs <;> rfl

theorem hang_child : (s.hang atTop p old new).child e q =
    if atTop = false ∧ q = p ∧ (e = .left ↔ old = s.child .left p) then new
    else s.child e q := by
  simp only [hang, setRoot, setChild]
  grind [cases Dir]

@[simp] theorem rotate_color : (s.rotate nil atTop d x).color = s.color := by
  simp only [rotate, setParent, setChild, hang_color]
  split_ifs <;> rfl

@[simp] theorem rotate_data : (s.rotate nil atTop d x).data = s.data := by
  simp only [rotate, setParent, setChild, hang_data]
  split_ifs <;> rfl

theorem rotate_root :
    (s.rotate nil atTop d x).root = if atTop then s.child d.other x else s.root := by
  simp only [rotate, setParent, setChild, hang_root]
  split_ifs <;> rfl

theorem rotate_parent : (s.rotate nil atTop d x).parent q =
    if q = x then s.child d.other x
    else if q = s.child d.other x then s.parent x
    else if q ≠ nil ∧ q = s.child d (s.child d.other x) then x
    else s.parent q := by
  simp only [rotate, setParent, setChild, hang_parent]
  grind

theorem rotate_child (hp : atTop = false → s.parent x ≠ x) : (s.rotate nil atTop d x).child e q =
    if e = d ∧ q = s.child d.other x then x
    else if atTop = false ∧ q = s.parent x ∧ (e = .left ↔ x = s.child .left (s.parent x)) then
      s.child d.other x
    else if e = d.other ∧ q = x then s.child d (s.child d.other x)
    else s.child e q := by
  simp only [rotate, setParent, setChild, hang_child]
  grind

theorem rotate_same (hp : atTop = false → s.parent x ≠ x) (hx : q ≠ x)
    (hy : q ≠ s.child d.other x) (hq : atTop = false → q ≠ s.parent x) :
    SameBelow s (s.rotate nil atTop d x) q := by
  refine ⟨fun e => ?_, by rw [rotate_color], by rw [rotate_data]⟩
  rw [rotate_child hp, if_neg (by simp [hy]), if_neg (fun h => hq h.1 h.2.1), if_neg (by simp [hx])]

theorem Focus.rotate {x y : Cell ι δ} {a b c : Tree ι δ}
    (h : s.Focus nil top fs (join d x a (join d y b c)) p r) (htop : atTop = true ↔ fs = []) :
    (s.rotate nil atTop d r).Focus nil top fs (join d y (join d x a b) c) p y.addr := by
  obtain ⟨hfs, htree, hnodup⟩ := h
  obtain ⟨rfl, hxNil, hx, ha, hright⟩ := (rep_join _ _ _ _).mp htree
  obtain ⟨hchild, hyNil, hy, hb, hc⟩ := (rep_join _ _ _ _).mp hright
  have hperm := (addrs_join_perm d x a (join d y b c)).append_right (contextAddrs fs)
  have hperm' := ((addrs_join_perm d y b c).append_left (addrs a)).cons x.addr |>.append_right
    (contextAddrs fs)
  have hparts := (hperm.trans hperm').nodup_iff.mp hnodup
  simp only [List.cons_append, List.append_assoc, List.nodup_cons, List.nodup_append,
    List.mem_append, List.mem_cons, not_or] at hparts
  have hpCtx : atTop = false → p ∈ contextAddrs fs := by
    intro hfalse
    cases fs with
    | nil => simp [htop.mpr rfl] at hfalse
    | cons f fs => simp [contextAddrs, hfs.1]
  have hparent := hx.parent
  have hpx : atTop = false → s.parent x.addr ≠ x.addr := by grind
  have same : ∀ q, q ≠ x.addr → q ≠ y.addr → (atTop = false → q ≠ p) →
      SameBelow s (s.rotate nil atTop d x.addr) q := by
    intro q hqx hqy hqp
    exact rotate_same hpx hqx (hchild ▸ hqy) (hparent ▸ hqp)
  have sameAll : ∀ q, q ≠ x.addr → q ≠ y.addr → (atTop = false → q ≠ p) → q ∉ addrs b →
      Same s (s.rotate nil atTop d x.addr) q := by
    intro q hqx hqy hqp hqb
    refine ⟨same q hqx hqy hqp, ?_⟩
    rw [rotate_parent, if_neg hqx, hchild, if_neg hqy, if_neg]
    rintro ⟨hqNil, rfl⟩
    exact hqb (hb.root_mem hqNil)
  have hyx : y.addr ≠ x.addr := by grind
  have hyp : atTop = false → y.addr ≠ p := by grind
  refine ⟨?_, ?_, ?_⟩
  · apply hfs.refill
    · rw [rotate_root, hchild]
      cases fs <;> simp_all
    · intro f gs hf
      subst hf
      have hfalse : atTop = false := by simpa using htop
      have hpx' : p ≠ x.addr := by grind
      have hpy' : p ≠ y.addr := by grind
      have hp := hfs.1
      have hdir := (Focus.eq_dir_iff ⟨hfs, htree, hnodup⟩ hxNil)
      have hother := f.dir.other_ne
      refine ⟨?_, ?_, by rw [rotate_color], by rw [rotate_data], ?_⟩
      · rw [rotate_child hpx, hchild, hparent, if_neg (by simp [hpy']),
          if_pos ⟨hfalse, rfl, (hdir _).mp rfl⟩]
      · rw [rotate_child hpx, hchild, hparent, if_neg (by simp [hpy']), if_neg, if_neg (by simp [hpx'])]
        rintro ⟨_, _, hside⟩
        exact hother ((hdir _).mpr hside)
      · rw [rotate_parent, hchild, if_neg hpx', if_neg hpy', if_neg]
        rintro ⟨hpNil, hpb⟩
        have := hb.root_mem (hpb ▸ hpNil)
        grind
    · grind
    · intro q hq hqp
      apply sameAll q <;> grind
  · refine (rep_join _ _ _ _).mpr ⟨rfl, hyNil, ⟨?_, ?_, ?_⟩, ?_, ?_⟩
    · rw [rotate_parent, hchild, if_neg hyx, if_pos rfl, hparent]
    · rw [rotate_color, hy.color]
    · rw [rotate_data, hy.data]
    · rw [rotate_child hpx, hchild, if_pos ⟨rfl, rfl⟩]
      refine (rep_join _ _ _ _).mpr ⟨rfl, hxNil, ⟨?_, ?_, ?_⟩, ?_, ?_⟩
      · rw [rotate_parent, if_pos rfl, hchild]
      · rw [rotate_color, hx.color]
      · rw [rotate_data, hx.data]
      · rw [rotate_child hpx, hchild, if_neg (by simp [hyx.symm]), if_neg (by grind),
          if_neg (by simp [d.other_ne.symm])]
        apply ha.congr
        intro q hq
        apply sameAll q <;> grind
      · rw [rotate_child hpx, hchild, if_neg (by simp [hyx.symm]), if_neg (by grind),
          if_pos ⟨rfl, rfl⟩]
        apply hb.reparent
        · grind
        · intro q hq
          apply same q <;> grind
        · intro q hq hroot
          rw [rotate_parent, hchild, if_neg (by grind), if_neg (by grind), if_neg]
          rintro ⟨_, hq'⟩
          exact hroot hq'
        · intro hroot
          have := hb.root_mem hroot
          rw [rotate_parent, hchild, if_neg (by grind), if_neg (by grind), if_pos ⟨hroot, rfl⟩]
    · rw [rotate_child hpx, hchild, if_neg (by simp [d.other_ne]), if_neg (by grind),
        if_neg (by simp [hyx])]
      apply hc.congr
      intro q hq
      apply sameAll q <;> grind
  · rwa [addrs_rotate]

end Rotation

/-! Other changes at the place in view. -/

theorem Focus.congr (h : s.Focus nil top fs t p r) (hroot : s'.root = s.root)
    (hsame : ∀ a ∈ addrs t ++ contextAddrs fs, Same s s' a) : s'.Focus nil top fs t p r := by
  refine ⟨h.context.congr hroot ?_, h.tree.congr ?_, h.nodup⟩
  · intro a ha
    exact hsame a (List.mem_append_right _ ha)
  · intro a ha
    exact hsame a (List.mem_append_left _ ha)

/-- The contents of the node in view are changed. -/
theorem Focus.recell {d : Dir} {x x' : Cell ι δ} {near far : Tree ι δ}
    (h : s.Focus nil top fs (join d x near far) p r) (haddr : x'.addr = x.addr)
    (hroot : s'.root = s.root) (hchild : s'.child = s.child) (hparent : s'.parent = s.parent)
    (hcolor : s'.color r = x'.color) (hdata : s'.data r = x'.data)
    (hsame : ∀ a, a ≠ r → s'.color a = s.color a ∧ s'.data a = s.data a) :
    s'.Focus nil top fs (join d x' near far) p r := by
  obtain ⟨hfs, htree, hnodup⟩ := h
  obtain ⟨rfl, hnil, hholds, hnear, hfar⟩ := (rep_join _ _ _ _).mp htree
  have hperm := (addrs_join_perm d x near far).append_right (contextAddrs fs)
  have hperm' := (addrs_join_perm d x' near far).append_right (contextAddrs fs)
  rw [haddr] at hperm'
  have hparts := hperm.nodup_iff.mp hnodup
  rw [List.cons_append, List.nodup_cons, List.mem_append, List.mem_append, not_or, not_or] at hparts
  obtain ⟨⟨⟨hxNear, hxFar⟩, hxCtx⟩, _⟩ := hparts
  have same : ∀ a, a ≠ x.addr → Same s s' a := fun a ha =>
    ⟨⟨fun d => by rw [hchild], (hsame a ha).1, (hsame a ha).2⟩, by rw [hparent]⟩
  refine ⟨hfs.congr hroot ?_, ?_, (hperm'.trans hperm.symm).nodup_iff.mpr hnodup⟩
  · intro a ha
    exact same a (by rintro rfl; exact hxCtx ha)
  · refine (rep_join _ _ _ _).mpr ⟨haddr.symm, haddr ▸ hnil, ?_, ?_, ?_⟩
    · rw [← haddr] at hcolor hdata
      exact ⟨by rw [hparent, haddr, hholds.parent], hcolor, hdata⟩
    · rw [hchild, haddr]
      apply hnear.congr
      intro a ha
      exact same a (by rintro rfl; exact hxNear ha)
    · rw [hchild, haddr]
      apply hfar.congr
      intro a ha
      exact same a (by rintro rfl; exact hxFar ha)

theorem Focus.setColor [DecidableEq ι] {d : Dir} {x : Cell ι δ} {near far : Tree ι δ}
    (h : s.Focus nil top fs (join d x near far) p r) (c : Color) :
    (s.setColor r c).Focus nil top fs (join d (x.paint c) near far) p r := by
  have hx := ((rep_join _ _ _ _).mp h.tree)
  refine h.recell rfl rfl rfl rfl ?_ ?_ ?_
  · simp [Links.setColor]
  · rw [hx.1]
    exact hx.2.2.1.data
  · intro a ha
    simp [Links.setColor, ha]

theorem Focus.setData [DecidableEq ι] {d : Dir} {x : Cell ι δ} {near far : Tree ι δ}
    (h : s.Focus nil top fs (join d x near far) p r) (v : δ) :
    (s.setData r v).Focus nil top fs (join d { x with data := v } near far) p r := by
  have hx := ((rep_join _ _ _ _).mp h.tree)
  refine h.recell rfl rfl rfl rfl ?_ ?_ ?_
  · rw [hx.1]
    exact hx.2.2.1.color
  · simp [Links.setData]
  · intro a ha
    simp [Links.setData, ha]

/-- A new leaf is put where there was none. -/
theorem Focus.grow {f : Frame ι δ} {x : Cell ι δ} (h : s.Focus nil top (f :: fs) .nil p r)
    (hnil : x.addr ≠ nil) (hnew : x.addr ∉ contextAddrs (f :: fs)) (hx : s'.Holds p x)
    (hleaf : ∀ d, s'.child d x.addr = nil) (hroot : s'.root = s.root)
    (hp : s'.child f.dir p = x.addr ∧ s'.child f.dir.other p = s.child f.dir.other p ∧
      s'.color p = s.color p ∧ s'.data p = s.data p ∧ s'.parent p = s.parent p)
    (hsame : ∀ a, a ≠ x.addr → a ≠ p → Same s s' a) :
    s'.Focus nil top (f :: fs) (.node x .nil .nil) p x.addr := by
  obtain ⟨hfs, _, hnodup⟩ := h
  have hctx : (contextAddrs (f :: fs)).Nodup := by simpa [addrs, entries] using hnodup
  refine ⟨hfs.refill (by simpa using hroot) ?_ hctx ?_, ?_, ?_⟩
  · intro g gs hg
    obtain ⟨rfl, rfl⟩ := List.cons.inj hg
    exact hp
  · intro a ha hap
    exact hsame a (by rintro rfl; exact hnew ha) hap
  · exact ⟨rfl, hnil, hx, hleaf .left, hleaf .right⟩
  · simpa [addrs, entries, entry] using ⟨hnew, hctx⟩

theorem RepContext.ne_nil (h : s.RepContext nil top fs p r) {a : ι} (ha : a ∈ contextAddrs fs) :
    a ≠ nil := by
  induction fs generalizing p r with
  | nil => cases ha
  | cons f fs ih =>
      obtain ⟨rfl, hnil, _, rfl, hsibling, hfs⟩ := h
      simp only [contextAddrs, List.cons_append, List.mem_cons, List.mem_append] at ha
      rcases ha with rfl | ha | ha
      · exact hnil
      · exact hsibling.ne_nil ha
      · exact ih hfs ha

/-- A node with at most one child is taken out, and the child hung in its place. -/
theorem Focus.splice [DecidableEq ι] {d : Dir} {y : Cell ι δ} {near : Tree ι δ} {atTop : Bool}
    (h : s.Focus nil top fs (join d y near .nil) p r) (htop : atTop = true ↔ fs = []) :
    ((s.setParent (s.child d r) p).hang atTop p r (s.child d r)).Focus nil top fs near p
      (s.child d r) := by
  have hside : ∀ f gs, fs = f :: gs → r ≠ nil → ∀ e, e = f.dir ↔ (e = .left ↔ r = s.child .left p) := by
    rintro f gs rfl hr e
    exact h.eq_dir_iff hr e
  obtain ⟨hfs, htree, hnodup⟩ := h
  obtain ⟨rfl, hnil, _, hnear, _⟩ := (rep_join _ _ _ _).mp htree
  have hperm := (addrs_join_perm d y near .nil).append_right (contextAddrs fs)
  have hparts := hperm.nodup_iff.mp hnodup
  have hnearFs : (addrs near ++ contextAddrs fs).Nodup := by
    have := (List.nodup_cons.mp hparts).2
    simpa [addrs, entries] using this
  have hyNear : y.addr ∉ addrs near ∧ y.addr ∉ contextAddrs fs := by
    have := (List.nodup_cons.mp hparts).1
    simpa [addrs, entries] using this
  have hapart := (List.nodup_append.mp hnearFs).2.2
  have hctxChild : ∀ a ∈ contextAddrs fs, a ≠ s.child d y.addr := by
    rintro a ha rfl
    exact hapart _ (hnear.root_mem (hfs.ne_nil ha)) _ ha rfl
  have hpCtx : atTop = false → p ∈ contextAddrs fs := by
    intro hfalse
    cases fs with
    | nil => simp [htop.mpr rfl] at hfalse
    | cons f fs => simp [contextAddrs, hfs.1]
  have same : ∀ a, a ≠ s.child d y.addr → (atTop = false → a ≠ p) → Same s
      ((s.setParent (s.child d y.addr) p).hang atTop p y.addr (s.child d y.addr)) a := by
    intro a hachild hap
    refine ⟨⟨fun e => ?_, by rw [hang_color]; rfl, by rw [hang_data]; rfl⟩, ?_⟩
    · rw [hang_child, if_neg (fun h => hap h.1 h.2.1)]
      rfl
    · rw [hang_parent]
      exact if_neg hachild
  refine ⟨hfs.refill ?_ ?_ (List.nodup_append.mp hnodup).2.1 ?_, ?_, hnearFs⟩
  · rw [hang_root]
    cases fs <;> simp_all [Links.setParent]
  · intro f gs hf
    have hfalse : atTop = false := by simpa [hf] using htop
    have hp := hpCtx hfalse
    have hdir := hside f gs hf hnil
    refine ⟨?_, ?_, by rw [hang_color]; rfl, by rw [hang_data]; rfl, ?_⟩
    · rw [hang_child, if_pos ⟨hfalse, rfl, (hdir _).mp rfl⟩]
    · rw [hang_child, if_neg]
      · rfl
      · rintro ⟨_, _, h⟩
        exact f.dir.other_ne ((hdir _).mpr h)
    · rw [hang_parent]
      exact if_neg (hctxChild p hp)
  · intro a ha hap
    exact same a (hctxChild a ha) fun _ => hap
  · apply hnear.reparent (List.nodup_append.mp hnearFs).1
    · intro a ha
      refine ⟨fun e => ?_, by rw [hang_color]; rfl, by rw [hang_data]; rfl⟩
      rw [hang_child, if_neg]
      · rfl
      · rintro ⟨hfalse, rfl, _⟩
        exact hapart _ ha _ (hpCtx hfalse) rfl
    · intro a ha hroot
      rw [hang_parent]
      exact if_neg hroot
    · intro _
      rw [hang_parent]
      exact if_pos rfl

/-! The addresses the links hold, told from the tree and its context alone. -/

def addr (nil : ι) : Tree ι δ → ι
  | .nil => nil
  | .node x _ _ => x.addr

def above (top : ι) : Context ι δ → ι
  | [] => top
  | f :: _ => f.cell.addr

@[simp] theorem addr_node (nil : ι) (x : Cell ι δ) (left right : Tree ι δ) :
    addr nil (.node x left right) = x.addr :=
  rfl

@[simp] theorem addr_join (nil : ι) (d : Dir) (x : Cell ι δ) (near far : Tree ι δ) :
    addr nil (join d x near far) = x.addr := by
  cases d <;> rfl

theorem Rep.addr_eq (h : s.Rep nil p r t) : r = addr nil t := by
  cases t with
  | nil => exact h
  | node x left right => exact h.1

theorem root_mem_contextAddrs (nil : ι) (f : Frame ι δ) (fs : Context ι δ) (t : Tree ι δ) :
    addr nil (plug (f :: fs) t) ∈ contextAddrs (f :: fs) := by
  induction fs generalizing f t with
  | nil => simp [plug, contextAddrs]
  | cons g fs ih =>
      rw [plug, contextAddrs]
      exact List.mem_append_right _ (ih g _)

theorem length_le_contextAddrs (fs : Context ι δ) : fs.length ≤ (contextAddrs fs).length := by
  induction fs with
  | nil => exact le_rfl
  | cons f fs ih =>
      simp only [contextAddrs, List.length_cons, List.length_append]
      omega

theorem RepContext.above_eq (h : s.RepContext nil top fs p r) : p = above top fs := by
  cases fs with
  | nil => exact h.1
  | cons f fs => exact h.1

end Links

end RebuildTheWheel.Data

namespace RebuildTheWheel.Data

open RedBlack SearchTree

/-! A node of a tree with parent links gives its place to a node from outside. -/

namespace Links

variable {ι δ : Type*} {s s' : Links ι δ} {nil top p r : ι} {t near far : Tree ι δ}
  {fs : Context ι δ} {d : Dir} {x y : Cell ι δ}

theorem Focus.parts (h : s.Focus nil top fs (join d x near far) p r) :
    r = x.addr ∧ x.addr ≠ nil ∧ s.Holds p x ∧ s.Rep nil x.addr (s.child d x.addr) near ∧
      s.Rep nil x.addr (s.child d.other x.addr) far :=
  (rep_join _ _ _ _).mp h.tree

/-- The children of a node are below it. -/
theorem Focus.child_mem (h : s.Focus nil top fs (join d x near far) p r) {e : Dir}
    (he : s.child e x.addr ≠ nil) : s.child e x.addr ∈ addrs near ++ addrs far := by
  obtain ⟨-, -, -, hnear, hfar⟩ := h.parts
  rcases d.eq_or_eq_other e with rfl | rfl
  · exact List.mem_append_left _ (hnear.root_mem he)
  · exact List.mem_append_right _ (hfar.root_mem he)

theorem Focus.nodup_parts (h : s.Focus nil top fs (join d x near far) p r) :
    (x.addr :: (addrs near ++ addrs far ++ contextAddrs fs)).Nodup :=
  ((addrs_join_perm d x near far).append_right (contextAddrs fs)).nodup_iff.mp h.nodup

/-- What `y` must hold when it has taken the place of `x`, and what stays. -/
structure Replaces (s s' : Links ι δ) (nil p : ι) (fs : Context ι δ) (x y : ι) : Prop where
  root : s'.root = if fs = [] then y else s.root
  child : ∀ e, s'.child e y = s.child e x
  adopts : ∀ e, s.child e x ≠ nil → s'.parent (s.child e x) = y
  above : ∀ f gs, fs = f :: gs → s'.child f.dir p = y ∧
    s'.child f.dir.other p = s.child f.dir.other p ∧ s'.color p = s.color p ∧
    s'.data p = s.data p ∧ s'.parent p = s.parent p
  below : ∀ a, a ≠ y → (fs ≠ [] → a ≠ p) → SameBelow s s' a
  parent : ∀ a, a ≠ y → (∀ e, s.child e x ≠ nil → a ≠ s.child e x) → a ≠ nil →
    s'.parent a = s.parent a

theorem Focus.replace (h : s.Focus nil top fs (join d x near far) p r) (hnil : y.addr ≠ nil)
    (hnew : y.addr ∉ addrs near ++ addrs far ++ contextAddrs fs) (hy : s'.Holds p y)
    (hreplaces : Replaces s s' nil p fs x.addr y.addr) :
    s'.Focus nil top fs (join d y near far) p y.addr := by
  obtain ⟨rfl, hxNil, hx, hnear, hfar⟩ := h.parts
  have hnodup := (List.nodup_cons.mp h.nodup_parts).2
  obtain ⟨hbelow, hcontext, hapart⟩ := List.nodup_append.mp hnodup
  obtain ⟨hnearNodup, hfarNodup, hsides⟩ := List.nodup_append.mp hbelow
  have hctxP : fs ≠ [] → p ∈ contextAddrs fs := by
    intro hfs
    cases fs with
    | nil => exact absurd rfl hfs
    | cons f fs => simp [contextAddrs, h.parent_eq]
  have hsameBelow : ∀ a ∈ addrs near ++ addrs far, SameBelow s s' a := by
    intro a ha
    refine hreplaces.below a ?_ fun hfs => hapart a ha p (hctxP hfs)
    rintro rfl
    exact hnew (List.mem_append_left _ ha)
  have hsubtree : ∀ e u, s.Rep nil x.addr (s.child e x.addr) u → (addrs u).Nodup →
      (∀ a ∈ addrs u, a ∈ addrs near ++ addrs far) →
      (∀ a ∈ addrs u, s.child e.other x.addr ≠ nil → a ≠ s.child e.other x.addr) →
      s'.Rep nil y.addr (s'.child e y.addr) u := by
    intro e u hu hunodup hmem hother
    rw [hreplaces.child e]
    refine hu.reparent hunodup (fun a ha => hsameBelow a (hmem a ha)) ?_ (hreplaces.adopts e)
    intro a ha hroot
    refine hreplaces.parent a ?_ ?_ (hu.ne_nil ha)
    · rintro rfl
      exact hnew (List.mem_append_left _ (hmem _ ha))
    · intro e' he'
      rcases e.eq_or_eq_other e' with rfl | rfl
      · exact hroot
      · exact hother a ha he'
  refine ⟨h.context.refill hreplaces.root hreplaces.above hcontext ?_, ?_, ?_⟩
  · intro a ha hap
    have hay : a ≠ y.addr := by
      rintro rfl
      exact hnew (List.mem_append_right _ ha)
    refine ⟨hreplaces.below a hay fun _ => hap, hreplaces.parent a hay ?_ (h.context.ne_nil ha)⟩
    rintro e he rfl
    exact hapart _ (h.child_mem he) _ ha rfl
  · refine (rep_join _ _ _ _).mpr ⟨rfl, hnil, hy, hsubtree d near hnear hnearNodup ?_ ?_,
      hsubtree d.other far hfar hfarNodup ?_ ?_⟩
    · exact fun a ha => List.mem_append_left _ ha
    · exact fun a ha he heq => hsides a ha _ (hfar.root_mem he) heq
    · exact fun a ha => List.mem_append_right _ ha
    · rw [Dir.other_other]
      exact fun a ha he heq => hsides _ (hnear.root_mem he) a ha heq.symm
  · refine ((addrs_join_perm d y near far).append_right (contextAddrs fs)).nodup_iff.mpr ?_
    exact List.nodup_cons.mpr ⟨hnew, hnodup⟩

end Links

end RebuildTheWheel.Data
