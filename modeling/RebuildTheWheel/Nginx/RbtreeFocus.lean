import RebuildTheWheel.Nginx.Rbtree

namespace RebuildTheWheel.Nginx

open Data Data.RedBlack Data.Links

namespace Rbtree

variable {κ : Type}

/-! A tree in memory, seen at one of its places, and what the operations do there. -/

abbrev Node (κ : Type) := Cell Nat κ

abbrev Shape (κ : Type) := Tree Nat κ

abbrev Around (κ : Type) := Context Nat κ

/-- The tree `t` stands in memory, in the context `fs`. The parent field of the root, `top`, may
have any value. -/
structure At (s : Rbtree κ) (top : Nat) (fs : Around κ) (t : Shape κ) : Prop where
  focus : s.Focus sentinel top fs t (above top fs) (addr sentinel t)
  ne_null : ∀ a ∈ addrs t ++ contextAddrs fs, a ≠ NULL
  black : s.color sentinel = .black

/-- The parent field of the sentinel, which says where `temp` is in `ngx_rbtree_delete`, stays. -/
def KeepsParent (s s' : Rbtree κ) : Prop := s'.parent sentinel = s.parent sentinel

theorem KeepsParent.trans {s s' s'' : Rbtree κ} (h : KeepsParent s s') (h' : KeepsParent s' s'') :
    KeepsParent s s'' :=
  Eq.trans h' h

variable {s s' : Rbtree κ} {top : Nat} {fs : Around κ} {t near far : Shape κ} {d : Dir}
  {x y : Node κ} {f : Frame Nat κ}

theorem sentinel_ne : sentinel ≠ NULL := by decide

theorem At.up (h : s.At top (f :: fs) t) : s.At top fs (join f.dir f.cell t f.sibling) := by
  have hup := h.focus.up
  rw [hup.context.above_eq] at hup
  refine ⟨by rwa [addr_join], fun a ha => ?_, h.black⟩
  exact h.ne_null a ((addrs_up_perm f fs t).mem_iff.mp ha)

theorem At.down (h : s.At top fs (join d x near far)) : s.At top (⟨d, x, far⟩ :: fs) near := by
  have hdown := h.focus.down
  rw [hdown.tree.addr_eq, addr_join] at hdown
  refine ⟨hdown, fun a ha => ?_, h.black⟩
  exact h.ne_null a ((addrs_up_perm ⟨d, x, far⟩ fs near).mem_iff.mpr ha)

theorem At.downOther (h : s.At top fs (join d x near far)) :
    s.At top (⟨d.other, x, near⟩ :: fs) far := by
  rw [← join_other] at h
  exact h.down

theorem At.whole (h : s.At top fs t) : s.At top [] (plug fs t) := by
  induction fs generalizing t with
  | nil => exact h
  | cons f fs ih => exact ih h.up

theorem At.downThrough {inner : Around κ} (h : s.At top fs (plug inner t)) :
    s.At top (inner ++ fs) t := by
  induction inner generalizing t with
  | nil => exact h
  | cons f inner ih => exact (ih h).down

theorem At.upThrough {inner : Around κ} (h : s.At top (inner ++ fs) t) :
    s.At top fs (plug inner t) := by
  induction inner generalizing t with
  | nil => exact h
  | cons f inner ih => exact ih h.up

theorem At.root (h : s.At top [] t) : s.root = addr sentinel t := h.focus.context.2

theorem At.parts (h : s.At top fs (join d x near far)) :
    x.addr ≠ sentinel ∧ s.Holds (above top fs) x ∧
      s.Rep sentinel x.addr (s.child d x.addr) near ∧
      s.Rep sentinel x.addr (s.child d.other x.addr) far :=
  ((rep_join _ _ _ _).mp h.focus.tree).2

theorem At.ne_sentinel (h : s.At top fs (join d x near far)) : x.addr ≠ sentinel := h.parts.1

theorem At.addr_ne_null (h : s.At top fs t) : addr sentinel t ≠ NULL := by
  cases t with
  | nil => exact sentinel_ne
  | node x left right =>
      apply h.ne_null
      rw [addrs_node]
      simp [addr]

theorem At.node_ne_null (h : s.At top fs (join d x near far)) : x.addr ≠ NULL := by
  have := h.addr_ne_null
  rwa [addr_join] at this

theorem At.loadColor (h : s.At top fs t) : s.loadColor (addr sentinel t) = some (rootColor t) := by
  rw [Rbtree.loadColor, if_neg h.addr_ne_null]
  cases t with
  | nil => exact congrArg some h.black
  | node x left right => exact congrArg some h.focus.tree.2.2.1.color

theorem At.loadParent (h : s.At top fs (join d x near far)) :
    s.loadParent x.addr = some (above top fs) := by
  rw [Rbtree.loadParent, if_neg h.node_ne_null, h.parts.2.1.parent]

theorem At.loadChild (h : s.At top fs (join d x near far)) :
    s.loadChild d x.addr = some (addr sentinel near) := by
  rw [Rbtree.loadChild, if_neg h.node_ne_null, h.parts.2.2.1.addr_eq]

theorem At.loadOther (h : s.At top fs (join d x near far)) :
    s.loadChild d.other x.addr = some (addr sentinel far) := by
  rw [Rbtree.loadChild, if_neg h.node_ne_null, h.parts.2.2.2.addr_eq]

theorem At.loadKey (h : s.At top fs (join d x near far)) : s.loadKey x.addr = some x.data := by
  rw [Rbtree.loadKey, if_neg h.node_ne_null, h.parts.2.1.data]

theorem At.storeColor (h : s.At top fs (join d x near far)) (c : Color) :
    ∃ s', s.storeColor x.addr c = some s' ∧ s'.At top fs (join d (x.paint c) near far) ∧
      KeepsParent s s' := by
  have hfocus := h.focus
  rw [addr_join] at hfocus
  refine ⟨_, if_neg h.node_ne_null, ⟨?_, fun a ha => ?_, ?_⟩, rfl⟩
  · rw [addr_join]
    exact hfocus.setColor c
  · apply h.ne_null
    rw [List.mem_append, mem_addrs_join] at ha ⊢
    exact ha
  · exact (if_neg h.ne_sentinel.symm).trans h.black

theorem At.blackenHere (h : s.At top fs t) :
    ∃ s', s.storeColor (addr sentinel t) .black = some s' ∧
      s'.At top fs (setRootColor .black t) ∧ KeepsParent s s' := by
  cases t with
  | node x left right => exact At.storeColor (d := .left) h .black
  | nil =>
      refine ⟨_, if_neg sentinel_ne, ⟨h.focus.congr rfl fun a ha => ?_, h.ne_null, ?_⟩, rfl⟩
      · exact ⟨⟨fun _ => rfl, if_neg (h.focus.context.ne_nil ha), rfl⟩, rfl⟩
      · simp [Links.setColor, addr]

theorem At.addr_ne_root (h : s.At top (f :: fs) t) : addr sentinel t ≠ s.root := by
  rw [h.whole.root]
  have hroot : addr sentinel (plug (f :: fs) t) ∈ contextAddrs (f :: fs) :=
    root_mem_contextAddrs sentinel f fs t
  intro heq
  rw [← heq] at hroot
  have ht := h.focus.tree.root_mem (h.focus.context.ne_nil hroot)
  exact (List.nodup_append.mp h.focus.nodup).2.2 _ ht _ hroot rfl

theorem At.eq_root_iff (h : s.At top fs t) : addr sentinel t = s.root ↔ fs = [] := by
  cases fs with
  | nil => exact iff_of_true h.root.symm rfl
  | cons f fs => exact iff_of_false h.addr_ne_root (List.cons_ne_nil f fs)

/-- `node == node->parent->left`, and the same for the right. -/
theorem At.is_child (h : s.At top (f :: fs) t) (ht : addr sentinel t ≠ sentinel) (e : Dir) :
    ∃ c, s.loadChild e f.cell.addr = some c ∧ (addr sentinel t = c ↔ f.dir = e) := by
  have hchild : s.child f.dir f.cell.addr = addr sentinel t := h.focus.child_eq
  have hsibling : addr sentinel t ≠ s.child f.dir.other f.cell.addr := h.focus.ne_sibling ht
  refine ⟨_, if_neg h.up.node_ne_null, ?_⟩
  rcases f.dir.eq_or_eq_other e with rfl | rfl
  · exact iff_of_true hchild.symm rfl
  · exact iff_of_false hsibling (f.dir.other_ne).symm

/-- `ngx_rbt_black(*root);` -/
theorem At.blacken (h : s.At top fs t) :
    ∃ s', s.storeColor s.root .black = some s' ∧
      s'.At top [] (setRootColor .black (plug fs t)) := by
  have htop := h.whole
  rw [htop.root]
  obtain ⟨s', hs', hat, -⟩ := htop.blackenHere
  exact ⟨s', hs', hat⟩

/-! Rotations. -/

/-- Which side is looked at first does not matter for a child. -/
theorem hangBelow_eq (d : Dir) {node p : Nat} (temp : Nat) (hnode : node ≠ NULL) (hp : p ≠ NULL)
    (hparent : s.parent node = p) (hside : node = s.child .left p ↔ node ≠ s.child .right p) :
    hangBelow d s node temp = some (Links.hang s false p node temp) := by
  simp only [hangBelow, Rbtree.loadParent, if_neg hnode, hparent, Rbtree.loadChild, if_neg hp,
    Rbtree.storeChild, Option.bind_eq_bind, Option.bind_some, Links.hang, Bool.false_eq_true,
    if_false]
  cases d with
  | left => split_ifs <;> rfl
  | right =>
      by_cases hleft : node = s.child .left p
      · rw [if_neg (hside.mp hleft), if_pos hleft]
        rfl
      · rw [if_pos (not_not.mp fun hright => hleft (hside.mpr hright)), if_neg hleft]

theorem hang_eq (d : Dir) {node p : Nat} (temp : Nat) (hnode : node ≠ NULL) (hparent : s.parent node = p)
    (hp : node ≠ s.root → p ≠ NULL)
    (hside : node ≠ s.root → (node = s.child .left p ↔ node ≠ s.child .right p)) :
    Rbtree.hang d s node temp = some (Links.hang s (node = s.root) p node temp) := by
  rw [Rbtree.hang]
  split_ifs with hroot
  · simp only [hroot, decide_true, Links.hang, if_true]
  · rw [hangBelow_eq d temp hnode (hp hroot) hparent (hside hroot), decide_eq_false hroot]

theorem rotate_eq {x y b p : Nat} (hx : x ≠ NULL) (hy : s.child d.other x = y) (hyNull : y ≠ NULL)
    (hyx : y ≠ x) (hb : s.child d y = b) (hbNull : b ≠ NULL) (hbx : b ≠ x) (hparent : s.parent x = p)
    (hp : x ≠ s.root → p ≠ NULL ∧ p ≠ x)
    (hside : x ≠ s.root → (x = s.child .left p ↔ x ≠ s.child .right p)) :
    rotate d s x = some (Links.rotate s sentinel (x = s.root) d x) := by
  have hchild : (s.setChild d.other x b).child d y = b := by
    rw [← hb]
    exact if_neg fun h => hyx h.2
  generalize hlinks : (if b = sentinel then s.setChild d.other x b
      else (s.setChild d.other x b).setParent b x) = links
  have hroot : links.root = s.root := by
    rw [← hlinks]
    split_ifs <;> rfl
  have hlinksParent : links.parent x = p := by
    rw [← hparent, ← hlinks]
    split_ifs
    · rfl
    · exact if_neg hbx.symm
  have hlinksChild : x ≠ s.root → ∀ e, links.child e p = s.child e p := by
    intro hne e
    rw [← hlinks]
    split_ifs <;> exact if_neg fun h => (hp hne).2 h.2
  have hhang := hang_eq (s := links.setParent y p) d y hx
    ((if_neg hyx.symm).trans hlinksParent) (fun hne => (hp (hroot ▸ hne)).1) (by
      intro hne
      have hne : x ≠ s.root := hroot ▸ hne
      have hleft : (links.setParent y p).child .left p = s.child .left p := hlinksChild hne .left
      have hright : (links.setParent y p).child .right p = s.child .right p := hlinksChild hne .right
      rw [hleft, hright]
      exact hside hne)
  have hrootP : (links.setParent y p).root = s.root := hroot
  rw [hrootP] at hhang
  by_cases hbNil : b = sentinel
  · subst hbNil
    rw [if_pos rfl] at hlinks
    rw [hlinks] at hchild
    simp only [rotate, Rbtree.loadChild, Rbtree.storeChild, Rbtree.loadParent, Rbtree.storeParent,
      if_neg hx, hy, if_neg hyNull, hb, hchild, Option.bind_eq_bind, Option.bind_some, ne_eq,
      not_true_eq_false, if_false, if_true, hlinks, hlinksParent, hhang, Links.rotate, hparent]
  · rw [if_neg hbNil] at hlinks
    simp only [rotate, Rbtree.loadChild, Rbtree.storeChild, Rbtree.loadParent, Rbtree.storeParent,
      if_neg hx, hy, if_neg hyNull, hb, hchild, Option.bind_eq_bind, Option.bind_some, ne_eq,
      hbNil, not_false_eq_true, if_true, if_neg hbNull, if_false, hlinks, hlinksParent, hhang,
      Links.rotate, hparent]

/-- The side of a child, as both of its parent's links tell. -/
theorem At.child_iff (h : s.At top fs (join d x near far)) (hroot : x.addr ≠ s.root) :
    above top fs ≠ NULL ∧ above top fs ≠ x.addr ∧
      (x.addr = s.child .left (above top fs) ↔ x.addr ≠ s.child .right (above top fs)) := by
  cases fs with
  | nil =>
      rw [h.root, addr_join] at hroot
      exact absurd rfl hroot
  | cons f fs =>
      have hne : addr sentinel (join d x near far) ≠ sentinel := by
        rw [addr_join]
        exact h.ne_sentinel
      have hchild : s.child f.dir f.cell.addr = x.addr := by
        rw [← addr_join sentinel d x near far]
        exact h.focus.child_eq
      have hsibling : x.addr ≠ s.child f.dir.other f.cell.addr := by
        rw [← addr_join sentinel d x near far]
        exact h.focus.ne_sibling hne
      refine ⟨h.up.node_ne_null, ?_, ?_⟩
      · intro heq
        have hmem : x.addr ∈ addrs (join d x near far) := mem_addrs_join.mpr (.inl rfl)
        refine (List.nodup_append.mp h.focus.nodup).2.2 _ hmem _ ?_ heq.symm
        exact List.mem_cons_self
      · cases hdir : f.dir with
        | left =>
            rw [hdir] at hchild hsibling
            exact iff_of_true hchild.symm hsibling
        | right =>
            rw [hdir] at hchild hsibling
            exact iff_of_false hsibling (not_not.mpr hchild.symm)

theorem At.rotate {a b c : Shape κ} (h : s.At top fs (join d x a (join d y b c))) :
    ∃ s', Rbtree.rotate d s x.addr = some s' ∧ s'.At top fs (join d y (join d x a b) c) ∧
      KeepsParent s s' := by
  have hfocus := h.focus
  rw [addr_join] at hfocus
  obtain ⟨hxNil, hx, -, hright⟩ := h.parts
  obtain ⟨hy, hyNil, -, hb, -⟩ := (rep_join _ _ _ _).mp hright
  have hperm := (addrs_join_perm d x a (join d y b c)).append_right (contextAddrs fs)
  have hperm' := ((addrs_join_perm d y b c).append_left (addrs a)).cons x.addr |>.append_right
    (contextAddrs fs)
  have hparts := (hperm.trans hperm').nodup_iff.mp hfocus.nodup
  simp only [List.cons_append, List.append_assoc, List.nodup_cons, List.mem_append,
    List.mem_cons, not_or] at hparts
  obtain ⟨⟨-, hxy, hxb, -, -⟩, -⟩ := hparts
  have hbx : addr sentinel b ≠ x.addr := by
    intro heq
    rw [← hb.addr_eq] at heq
    exact hxb (heq ▸ hb.root_mem (heq ▸ hxNil))
  have htop : decide (x.addr = s.root) = true ↔ fs = [] := by
    rw [decide_eq_true_iff, ← h.eq_root_iff, addr_join]
  have hgoal := rotate_eq h.node_ne_null hy h.downOther.node_ne_null (Ne.symm hxy) hb.addr_eq
    h.downOther.down.addr_ne_null hbx hx.parent
    (fun hroot => ⟨(h.child_iff hroot).1, (h.child_iff hroot).2.1⟩)
    (fun hroot => (h.child_iff hroot).2.2)
  refine ⟨_, hgoal, ⟨?_, ?_, ?_⟩, ?_⟩
  · rw [addr_join]
    exact hfocus.rotate htop
  · rw [addrs_rotate]
    exact h.ne_null
  · rw [rotate_color]
    exact h.black
  · rw [KeepsParent, rotate_parent, if_neg hxNil.symm, hy, if_neg hyNil.symm, if_neg (fun h => h.1 rfl)]

end Rbtree

end RebuildTheWheel.Nginx
