import Mathlib.Data.List.Perm.Subperm
import RebuildTheWheel.TinySTL.RbTree

namespace RebuildTheWheel.TinySTL

open Data Data.RedBlack Data.Links

namespace RbTree

variable {κ β : Type}

/-! A tree in memory, seen at one of its places, and what the operations do there. -/

abbrev Node (κ β : Type) := Cell Nat (κ × β)

abbrev Shape (κ β : Type) := Tree Nat (κ × β)

abbrev Around (κ β : Type) := Context Nat (κ × β)

/-- What is stored at an address. -/
def nodeAt (s : RbTree κ β) (a : Nat) : Color × (κ × β) × Nat × Nat × Nat :=
  (s.links.color a, s.links.data a, s.links.parent a, s.links.child .left a, s.links.child .right a)

structure Sentinel (s : RbTree κ β) : Prop where
  nil : s.live NIL = true
  null : s.live nullptr = false
  color : s.links.color NIL = .black
  child : ∀ d, s.links.child d NIL = nullptr
  fresh : ∀ a, s.live a = true → a < s.fresh

/-- The tree `t` stands in memory, in the context `fs`. -/
structure At (s : RbTree κ β) (fs : Around κ β) (t : Shape κ β) : Prop where
  focus : s.links.Focus NIL NIL fs t (above NIL fs) (addr NIL t)
  live : ∀ a ∈ addrs t ++ contextAddrs fs, s.live a = true
  sentinel : s.Sentinel

/-- What an operation that allocates and frees nothing leaves as it is. -/
structure Relinked (s s' : RbTree κ β) : Prop where
  live : s'.live = s.live
  fresh : s'.fresh = s.fresh
  parent : s'.links.parent NIL = s.links.parent NIL

theorem Relinked.trans {s s' s'' : RbTree κ β} (h : Relinked s s') (h' : Relinked s' s'') :
    Relinked s s'' :=
  ⟨h'.live.trans h.live, h'.fresh.trans h.fresh, h'.parent.trans h.parent⟩

variable {s : RbTree κ β} {fs : Around κ β} {t near far : Shape κ β} {d : Dir} {x y : Node κ β}

theorem At.up {f : Frame Nat (κ × β)} (h : s.At (f :: fs) t) :
    s.At fs (join f.dir f.cell t f.sibling) := by
  have hup := h.focus.up
  have hp := hup.context.above_eq
  rw [hp] at hup
  refine ⟨?_, ?_, h.sentinel⟩
  · rwa [addr_join]
  · intro a ha
    exact h.live a ((addrs_up_perm f fs t).mem_iff.mp ha)

theorem At.down (h : s.At fs (join d x near far)) : s.At (⟨d, x, far⟩ :: fs) near := by
  have hdown := h.focus.down
  have hr := hdown.tree.addr_eq
  rw [hr, addr_join] at hdown
  refine ⟨hdown, ?_, h.sentinel⟩
  intro a ha
  exact h.live a ((addrs_up_perm ⟨d, x, far⟩ fs near).mem_iff.mpr ha)

theorem At.downOther (h : s.At fs (join d x near far)) : s.At (⟨d.other, x, near⟩ :: fs) far := by
  rw [← join_other] at h
  exact h.down

theorem At.top (h : s.At fs t) : s.At [] (plug fs t) := by
  induction fs generalizing t with
  | nil => exact h
  | cons f fs ih => exact ih h.up

theorem At.root (h : s.At [] t) : s.links.root = addr NIL t :=
  h.focus.context.2

theorem At.ne_nil (h : s.At fs (join d x near far)) : x.addr ≠ NIL :=
  ((rep_join _ _ _ _).mp h.focus.tree).2.1

theorem At.live_addr (h : s.At fs t) : s.live (addr NIL t) = true := by
  cases t with
  | nil => exact h.sentinel.nil
  | node x left right =>
      apply h.live
      rw [addrs_node]
      simp [addr]

theorem At.live_node (h : s.At fs (join d x near far)) : s.live x.addr = true := by
  have := h.live_addr
  rwa [addr_join] at this

theorem At.loadColor (h : s.At fs t) : s.loadColor (addr NIL t) = some (rootColor t) := by
  rw [RbTree.loadColor, if_pos h.live_addr]
  cases t with
  | nil => exact congrArg some h.sentinel.color
  | node x left right => exact congrArg some h.focus.tree.2.2.1.color

theorem At.loadParent (h : s.At fs (join d x near far)) :
    s.loadParent x.addr = some (above NIL fs) := by
  rw [RbTree.loadParent, if_pos h.live_node]
  exact congrArg some ((rep_join _ _ _ _).mp h.focus.tree).2.2.1.parent

theorem At.loadChild (h : s.At fs (join d x near far)) :
    s.loadChild d x.addr = some (addr NIL near) := by
  rw [RbTree.loadChild, if_pos h.live_node]
  exact congrArg some ((rep_join _ _ _ _).mp h.focus.tree).2.2.2.1.addr_eq

theorem At.loadOther (h : s.At fs (join d x near far)) :
    s.loadChild d.other x.addr = some (addr NIL far) := by
  rw [← join_other] at h
  exact h.loadChild

theorem At.loadKey (h : s.At fs (join d x near far)) : s.loadKey x.addr = some x.data.1 := by
  rw [RbTree.loadKey, if_pos h.live_node]
  rw [((rep_join _ _ _ _).mp h.focus.tree).2.2.1.data]

theorem Sentinel.setLinks (h : s.Sentinel) {links : Links Nat (κ × β)}
    (hcolor : links.color NIL = s.links.color NIL)
    (hchild : ∀ d, links.child d NIL = s.links.child d NIL) :
    Sentinel { s with links := links } :=
  ⟨h.nil, h.null, hcolor.trans h.color, fun d => (hchild d).trans (h.child d), h.fresh⟩

theorem At.storeColor (h : s.At fs (join d x near far)) (c : Color) :
    ∃ s', s.storeColor x.addr c = some s' ∧ s'.At fs (join d (x.paint c) near far) ∧
      Relinked s s' := by
  have hfocus := h.focus
  rw [addr_join] at hfocus
  refine ⟨_, if_pos h.live_node, ⟨?_, ?_, ?_⟩, rfl, rfl, rfl⟩
  · rw [addr_join]
    exact hfocus.setColor c
  · intro a ha
    apply h.live
    rw [List.mem_append, mem_addrs_join] at ha ⊢
    exact ha
  · refine h.sentinel.setLinks ?_ fun _ => rfl
    simp [Links.setColor, h.ne_nil.symm]

theorem At.storeValue (h : s.At fs (join d x near far)) (v : β) :
    ∃ s', s.storeValue x.addr v = some s' ∧
      s'.At fs (join d { x with data := (x.data.1, v) } near far) ∧ Relinked s s' := by
  have hfocus := h.focus
  rw [addr_join] at hfocus
  have hdata := ((rep_join _ _ _ _).mp h.focus.tree).2.2.1.data
  refine ⟨_, if_pos h.live_node, ⟨?_, ?_, ?_⟩, rfl, rfl, rfl⟩
  · rw [addr_join, hdata]
    exact hfocus.setData _
  · intro a ha
    apply h.live
    rw [List.mem_append, mem_addrs_join] at ha ⊢
    exact ha
  · exact h.sentinel.setLinks rfl fun _ => rfl

theorem At.blackenHere (h : s.At fs t) :
    ∃ s', s.storeColor (addr NIL t) .black = some s' ∧ s'.At fs (setRootColor .black t) ∧
      Relinked s s' := by
  cases t with
  | node x left right => exact At.storeColor (d := .left) h .black
  | nil =>
      refine ⟨_, if_pos h.sentinel.nil, ⟨h.focus.congr rfl ?_, h.live, ?_⟩, rfl, rfl, rfl⟩
      · intro a ha
        have hnil : a ≠ NIL := h.focus.context.ne_nil ha
        refine ⟨⟨fun _ => rfl, ?_, rfl⟩, rfl⟩
        exact if_neg hnil
      · refine h.sentinel.setLinks ?_ fun _ => rfl
        rw [h.sentinel.color]
        simp [Links.setColor, addr]

theorem At.downThrough {inner : Around κ β} (h : s.At fs (plug inner t)) : s.At (inner ++ fs) t := by
  induction inner generalizing t with
  | nil => exact h
  | cons f inner ih => exact (ih h).down

theorem At.upThrough {inner : Around κ β} (h : s.At (inner ++ fs) t) : s.At fs (plug inner t) := by
  induction inner generalizing t with
  | nil => exact h
  | cons f inner ih => exact ih h.up

/-! Rotations. -/

theorem hang_eq {p t : Nat} (hp : s.live p = true)
    (hq : s.links.parent p ≠ NIL → s.live (s.links.parent p) = true) :
    s.hang p t = some { s with
      links := s.links.hang (s.links.parent p = NIL) (s.links.parent p) p t } := by
  by_cases hnil : s.links.parent p = NIL
  · simp [RbTree.hang, RbTree.loadParent, hp, hnil, RbTree.setRoot, Links.hang]
  · simp only [RbTree.hang, RbTree.loadParent, RbTree.loadChild, RbTree.storeChild, hp, hq hnil,
      hnil, Links.hang, if_true, if_false, Option.bind_eq_bind, Option.bind_some, decide_false,
      Bool.false_eq_true]
    split_ifs <;> rfl

theorem rotate_eq {p t b : Nat} (hp : s.live p = true) (hpNil : p ≠ NIL)
    (ht : s.links.child d.other p = t) (htLive : s.live t = true) (htNil : t ≠ NIL)
    (htp : t ≠ p) (hb : s.links.child d t = b) (hbLive : b ≠ NIL → s.live b = true) (hbp : b ≠ p)
    (hq : s.links.parent p ≠ NIL → s.live (s.links.parent p) = true) :
    rotate d s p = some { s with
      links := s.links.rotate NIL (s.links.parent p = NIL) d p } := by
  have hchild : (s.links.setChild d.other p b).child d t = b := by
    rw [← hb]
    exact if_neg fun h => htp h.2
  generalize hlinks : (if b = NIL then s.links.setChild d.other p b
      else (s.links.setChild d.other p b).setParent b p) = links
  have hparent : links.parent p = s.links.parent p := by
    rw [← hlinks]
    split_ifs
    · rfl
    · exact if_neg hbp.symm
  have hparent' : (links.setParent t (s.links.parent p)).parent p = s.links.parent p :=
    (if_neg htp.symm).trans hparent
  have hhang := hang_eq (s := { s with links := links.setParent t (s.links.parent p) }) (t := t)
    hp (by simpa only [hparent'] using hq)
  simp only [hparent'] at hhang
  simp only [rotate, RbTree.loadChild, RbTree.storeChild, RbTree.loadParent, RbTree.storeParent, hp,
    hpNil, htLive, htNil, ht, hb, hchild, if_true, if_false, Option.bind_eq_bind, Option.bind_some]
  by_cases hbNil : b = NIL
  · rw [if_pos hbNil] at hlinks
    simp only [hbNil, if_true, Links.rotate, ht, hb]
    rw [hbNil] at hlinks
    simp only [hlinks, hparent, hhang, Option.bind_some, htLive, hp, if_true]
  · rw [if_neg hbNil] at hlinks
    simp only [hbNil, if_false, hbLive hbNil, if_true, Option.bind_some, Links.rotate, ht, hb,
      hlinks, hparent, hhang, htLive, hp]

theorem At.above_live (h : s.At fs t) (hfs : above NIL fs ≠ NIL) :
    s.live (above NIL fs) = true := by
  cases fs with
  | nil => exact absurd rfl hfs
  | cons f fs => exact h.live _ (by simp [contextAddrs, above])

theorem At.above_eq_nil_iff (h : s.At fs t) : above NIL fs = NIL ↔ fs = [] := by
  cases fs with
  | nil => simp [above]
  | cons f fs => simpa [above] using h.focus.context.ne_nil (by simp [contextAddrs])

theorem At.rotate {a b c : Shape κ β} (h : s.At fs (join d x a (join d y b c))) :
    ∃ s', RbTree.rotate d s x.addr = some s' ∧ s'.At fs (join d y (join d x a b) c) ∧
      Relinked s s' := by
  have hfocus := h.focus
  rw [addr_join] at hfocus
  obtain ⟨_, hxNil, hx, _, hright⟩ := (rep_join _ _ _ _).mp hfocus.tree
  obtain ⟨hy, hyNil, _, hb, _⟩ := (rep_join _ _ _ _).mp hright
  have hperm := (addrs_join_perm d x a (join d y b c)).append_right (contextAddrs fs)
  have hperm' := ((addrs_join_perm d y b c).append_left (addrs a)).cons x.addr |>.append_right
    (contextAddrs fs)
  have hparts := (hperm.trans hperm').nodup_iff.mp hfocus.nodup
  simp only [List.cons_append, List.append_assoc, List.nodup_cons, List.mem_append,
    List.mem_cons, not_or] at hparts
  obtain ⟨⟨_, hxy, hxb, _, hxCtx⟩, _⟩ := hparts
  have hlive := h.downOther.down.live_addr
  have hbx : addr NIL b ≠ x.addr := by
    intro heq
    rw [← hb.addr_eq] at heq
    exact hxb (heq ▸ hb.root_mem (heq ▸ hxNil))
  have htop : decide (above NIL fs = NIL) = true ↔ fs = [] := by
    rw [decide_eq_true_iff, h.above_eq_nil_iff]
  have hparent := hx.parent
  have hturn := hfocus.rotate htop
  have hgoal := rotate_eq h.live_node hxNil hy h.downOther.live_node hyNil (Ne.symm hxy)
    hb.addr_eq (fun _ => hlive) hbx (by rw [hparent]; exact h.above_live)
  rw [hparent] at hgoal
  refine ⟨_, hgoal, ⟨?_, ?_, ?_⟩, rfl, rfl, ?_⟩
  · rwa [addr_join]
  · rw [addrs_rotate]
    exact h.live
  · have haboveNil : decide (above NIL fs = NIL) = false → NIL ≠ s.links.parent x.addr := by
      rw [hparent, decide_eq_false_iff_not]
      exact Ne.symm
    have haboveX : decide (above NIL fs = NIL) = false → s.links.parent x.addr ≠ x.addr := by
      rw [hparent, decide_eq_false_iff_not, h.above_eq_nil_iff]
      intro hfs heq
      apply hxCtx
      cases fs with
      | nil => exact absurd rfl hfs
      | cons f fs => simp [← heq, above, contextAddrs]
    exact h.sentinel.setLinks (by rw [rotate_color])
      (rotate_same haboveX hxNil.symm (hy ▸ hyNil.symm) haboveNil).child
  · show (s.links.rotate NIL _ d x.addr).parent NIL = s.links.parent NIL
    rw [rotate_parent, if_neg hxNil.symm, hy, if_neg hyNil.symm, if_neg (fun h => h.1 rfl)]

theorem At.addr_ne_root {f : Frame Nat (κ × β)} (h : s.At (f :: fs) t) :
    addr NIL t ≠ s.links.root := by
  rw [h.top.root]
  have hroot : addr NIL (plug (f :: fs) t) ∈ contextAddrs (f :: fs) :=
    root_mem_contextAddrs NIL f fs t
  intro heq
  rw [← heq] at hroot
  have ht := h.focus.tree.root_mem (h.focus.context.ne_nil hroot)
  exact (List.nodup_append.mp h.focus.nodup).2.2 _ ht _ hroot rfl

theorem At.root_ne_nil {f : Frame Nat (κ × β)} (h : s.At (f :: fs) t) : s.links.root ≠ NIL := by
  rw [h.top.root]
  exact h.focus.context.ne_nil (root_mem_contextAddrs NIL f fs t)

/-- `p == p->parent->left` -/
theorem At.is_left {f : Frame Nat (κ × β)} (h : s.At (f :: fs) t) (ht : addr NIL t ≠ NIL) :
    ∃ l, s.loadChild .left f.cell.addr = some l ∧ (addr NIL t = l ↔ f.dir = .left) := by
  have hleft : s.loadChild .left f.cell.addr = some (s.links.child .left f.cell.addr) :=
    if_pos h.up.live_node
  refine ⟨_, hleft, ?_⟩
  have hside := h.focus.eq_dir_iff ht .left
  simp only [above, true_iff] at hside
  rw [← hside]
  exact eq_comm

/-- `root->color = _BLACK;` -/
theorem At.blacken (h : s.At fs t) (hroot : s.links.root ≠ NIL) :
    ∃ s', s.storeColor s.links.root .black = some s' ∧
      s'.At [] (setRootColor .black (plug fs t)) ∧ Relinked s s' := by
  have htop := h.top
  rw [htop.root] at hroot ⊢
  cases hplug : plug fs t with
  | nil => exact absurd (congrArg (addr NIL) hplug) hroot
  | node x left right =>
      rw [hplug] at htop
      exact At.storeColor (d := .left) htop .black

theorem At.nodup_nil (h : s.At fs t) :
    (nullptr :: NIL :: (addrs t ++ contextAddrs fs)).Nodup := by
  have hnull : nullptr ∉ addrs t ++ contextAddrs fs := by
    intro hmem
    have := h.live _ hmem
    rw [h.sentinel.null] at this
    cases this
  have hnil : NIL ∉ addrs t ++ contextAddrs fs := by
    intro hmem
    rcases List.mem_append.mp hmem with ha | ha
    · exact h.focus.tree.ne_nil ha rfl
    · exact h.focus.context.ne_nil ha rfl
  rw [List.nodup_cons, List.nodup_cons, List.mem_cons, not_or]
  exact ⟨⟨by decide, hnull⟩, hnil, h.focus.nodup⟩

/-- There are not more nodes than addresses given out. -/
theorem At.length_le (h : s.At fs t) :
    (addrs t ++ contextAddrs fs).length + 2 ≤ s.fresh := by
  have hfresh := h.sentinel.fresh _ h.sentinel.nil
  have hsub : nullptr :: NIL :: (addrs t ++ contextAddrs fs) ⊆ List.range s.fresh := by
    intro a ha
    rw [List.mem_range]
    rcases List.mem_cons.mp ha with rfl | ha
    · exact lt_trans (by decide) hfresh
    · rcases List.mem_cons.mp ha with rfl | ha
      · exact hfresh
      · exact h.sentinel.fresh a (h.live a ha)
  have hlength := (List.subperm_of_subset h.nodup_nil hsub).length_le
  rwa [List.length_cons, List.length_cons, List.length_range] at hlength

theorem At.unique {t' : Shape κ β} (h : s.At [] t) (h' : s.At [] t') : t = t' := by
  have hroot := h.root.symm.trans h'.root
  have ht' := h'.focus.tree
  rw [← hroot] at ht'
  exact h.focus.tree.unique ht'

theorem length_addrs_node (x : Node κ β) (left right : Shape κ β) :
    (addrs (.node x left right)).length = (addrs left).length + (addrs right).length + 1 := by
  rw [addrs_node, List.length_append, List.length_cons, Nat.add_assoc]

end RbTree

end RebuildTheWheel.TinySTL
