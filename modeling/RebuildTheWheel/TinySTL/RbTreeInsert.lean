import RebuildTheWheel.Data.Run
import RebuildTheWheel.TinySTL.RbTreeFocus

namespace RebuildTheWheel.TinySTL

open Data Data.RedBlack Data.Links

namespace RbTree

variable {κ β : Type} {s : RbTree κ β} {fs : Around κ β} {t near far : Shape κ β} {d e : Dir}
  {x y g : Node κ β} {f₁ f₂ : Frame Nat (κ × β)} {n fuel : Nat}

/-! The three cases of the loop of `insert_fixup`. -/

theorem At.recolor_uncle {uncle : Shape κ β} (h : s.At fs (join d x near uncle))
    (huncle : rootColor uncle = .red) :
    ∃ s', s.storeColor (addr NIL uncle) .black = some s' ∧
      s'.At fs (join d x near (setRootColor .black uncle)) ∧ Relinked s s' := by
  cases uncle with
  | nil => cases huncle
  | node y left right =>
      obtain ⟨s', hs', hat, hsame⟩ := At.storeColor (d := .left) h.downOther .black
      refine ⟨s', hs', ?_, hsame⟩
      have hup := hat.up
      rwa [join_other] at hup

theorem insertFixupHalf_recolor (h : s.At (f₁ :: f₂ :: fs) (join e x near far))
    (huncle : rootColor f₂.sibling = .red) (c : Color) :
    ∃ s', insertFixupHalf f₂.dir c s x.addr = some (s', f₂.cell.addr) ∧
      s'.At fs (join f₂.dir (f₂.cell.paint .red)
        (join f₁.dir (f₁.cell.paint .black) (join e x near far) f₁.sibling)
        (setRootColor .black f₂.sibling)) ∧ Relinked s s' := by
  obtain ⟨s₁, hs₁, hat₁, hsame₁⟩ := h.up.storeColor .black
  obtain ⟨s₂, hs₂, hat₂, hsame₂⟩ := hat₁.up.recolor_uncle huncle
  obtain ⟨s₃, hs₃, hat₃, hsame₃⟩ := hat₂.storeColor .red
  have huncleColor := h.up.up.downOther.loadColor
  rw [huncle] at huncleColor
  refine ⟨s₃, ?_, hat₃, (hsame₁.trans hsame₂).trans hsame₃⟩
  simp only [insertFixupHalf, h.loadParent, h.up.loadParent, above, h.up.up.loadOther, huncleColor,
    Option.bind_eq_bind, Option.bind_some, if_true, hs₁, hs₂, hs₃]

/-- After the inner turn the red parent `y` and its red child `t'` are on one side. -/
theorem turnInner_spec (h : s.At (f₁ :: fs) t) (ht : Balanced t .red n)
    (hred : f₁.cell.color = .red) (hsibling : Balanced f₁.sibling .black n) (d : Dir) :
    ∃ s' y t' z, turnInner d s (addr NIL t) = some (s', addr NIL t') ∧
      s'.At (⟨d, y, z⟩ :: fs) t' ∧ y.color = .red ∧ Balanced t' .red n ∧ Balanced z .black n ∧
      entries (join d y t' z) = entries (join f₁.dir f₁.cell t f₁.sibling) ∧
      Relinked s s' := by
  obtain ⟨e, q, sibling⟩ := f₁
  obtain ⟨x, a, b, rfl, hx, ha, hb⟩ := ht.exists_join d
  have hparent := h.loadParent
  rw [addr_join]
  rcases d.eq_or_eq_other e with rfl | rfl
  · have hother := h.up.loadOther
    have hne : x.addr ≠ addr NIL sibling := by
      have := h.focus.ne_sibling (by rw [addr_join]; exact h.ne_nil)
      rw [addr_join] at this
      intro heq
      apply this
      rw [heq]
      exact (((rep_join _ _ _ _).mp h.up.focus.tree).2.2.2.2.addr_eq).symm
    refine ⟨s, q, _, sibling, ?_, h, hred, ht, hsibling, rfl, rfl, rfl, rfl⟩
    simp only [turnInner, hparent, above, hother, Option.bind_eq_bind, Option.bind_some, hne,
      if_false, addr_join]
  · have hup := h.up
    have hchild := hup.loadChild
    simp only [join_other] at hup
    obtain ⟨s', hs', hat, hsame⟩ := hup.rotate
    refine ⟨s', x, join d q sibling a, b, ?_, hat.down, hx, ?_, hb, ?_, hsame⟩
    · simp only [turnInner, hparent, above, hchild, Option.bind_eq_bind, Option.bind_some, if_true,
        hs', addr_join]
    · exact Balanced.join_red hred hsibling ha d
    · rw [entries_rotate, join_other]

theorem turnGrand {z uncle : Shape κ β} (h : s.At (⟨d, y, z⟩ :: ⟨d, g, uncle⟩ :: fs) t)
    (c : Color) :
    ∃ s₁ s₂ s', s.storeColor y.addr .black = some s₁ ∧ s₁.loadParent y.addr = some g.addr ∧
      s₁.storeColor g.addr c = some s₂ ∧ rotate d.other s₂ g.addr = some s' ∧
      s'.At fs (join d (y.paint .black) t (join d (g.paint c) z uncle)) ∧
      Relinked s s' := by
  obtain ⟨s₁, hs₁, hat₁, hsame₁⟩ := h.up.storeColor .black
  obtain ⟨s₂, hs₂, hat₂, hsame₂⟩ := hat₁.up.storeColor c
  simp only at hat₂
  rw [← join_other, ← join_other d _ z t] at hat₂
  obtain ⟨s', hs', hat', hsame'⟩ := hat₂.rotate
  rw [join_other, join_other] at hat'
  exact ⟨s₁, s₂, s', hs₁, hat₁.loadParent, hs₂, hs', hat', (hsame₁.trans hsame₂).trans hsame'⟩

theorem insertFixupHalf_turn (h : s.At (f₁ :: f₂ :: fs) t) (ht : Balanced t .red n)
    (hred : f₁.cell.color = .red) (hsibling : Balanced f₁.sibling .black n)
    (huncle : rootColor f₂.sibling = .black) (c : Color) :
    ∃ s' y t' z, insertFixupHalf f₂.dir c s (addr NIL t) = some (s', addr NIL t') ∧
      s'.At fs (join f₂.dir (y.paint .black) t'
        (join f₂.dir (f₂.cell.paint c) z f₂.sibling)) ∧
      Balanced t' .red n ∧ Balanced z .black n ∧
      entries (join f₂.dir y t' z) = entries (join f₁.dir f₁.cell t f₁.sibling) ∧
      Relinked s s' := by
  obtain ⟨s₁, y, t', z, hs₁, hat₁, -, ht', hz, hentries, hsame₁⟩ :=
    turnInner_spec h ht hred hsibling f₂.dir
  obtain ⟨s₂, s₃, s', hs₂, hparent, hs₃, hs', hat', hsame'⟩ := turnGrand hat₁ c
  refine ⟨s', y, t', z, ?_, hat', ht', hz, hentries, hsame₁.trans hsame'⟩
  have huncleColor := h.up.up.downOther.loadColor
  rw [huncle] at huncleColor
  have hparent₀ : s.loadParent (addr NIL t) = some f₁.cell.addr := by
    obtain ⟨x, a, b, rfl, -⟩ := ht.exists_join .left
    rw [addr_join]
    exact h.loadParent
  have hparent₁ : s₁.loadParent (addr NIL t') = some y.addr := by
    obtain ⟨x, a, b, rfl, -⟩ := ht'.exists_join .left
    rw [addr_join]
    exact hat₁.loadParent
  simp only [insertFixupHalf, hparent₀, h.up.loadParent, above, h.up.up.loadOther, huncleColor,
    Option.bind_eq_bind, Option.bind_some, reduceCtorEq, if_false, hs₁, hparent₁, hs₂, hparent,
    hs₃, hs']

/-! The loop. -/

/-- The loop does not come to a halt below a red right child whose sibling is black. -/
def FixupStays : Around κ β → Prop
  | f₁ :: f₂ :: fs =>
      f₁.cell.color = .red →
        if rootColor f₂.sibling = .red then FixupStays fs else f₂.dir = .left
  | _ => True

/-- The tree at the end of a repair. -/
structure Repaired (s s' : RbTree κ β) (entries : List (Nat × κ × β)) : Prop where
  tree : ∃ t m, s'.At [] t ∧ Balanced t .black m ∧ RedBlack.entries t = entries
  same : Relinked s s'

theorem At.repaired (h : s.At fs t) (hroot : s.links.root ≠ NIL)
    (hbalanced : ∃ m, Balanced (setRootColor .black (plug fs t)) .black m) :
    ∃ s', s.storeColor s.links.root .black = some s' ∧ Repaired s s' (entries (plug fs t)) := by
  obtain ⟨m, hm⟩ := hbalanced
  obtain ⟨s', hs', hat, hsame⟩ := h.blacken hroot
  exact ⟨s', hs', ⟨_, m, hat, hm, entries_setRootColor _ _⟩, hsame⟩

theorem insertFixupLoop_root (fuel : Nat) (h : s.At [] t) (ht : Balanced t .red n) :
    ∃ s', insertFixupLoop (fuel + 1) s (addr NIL t) = some s' ∧ Repaired s s' (entries t) := by
  have hnil : s.links.root ≠ NIL := by
    obtain ⟨x, a, b, rfl, -⟩ := ht.exists_join .left
    rw [h.root, addr_join]
    exact h.ne_nil
  obtain ⟨s', hs', hrepaired⟩ := h.repaired hnil ⟨_, ht.setRootColor_red⟩
  refine ⟨s', ?_, hrepaired⟩
  rw [insertFixupLoop, if_pos h.root.symm, hs']

theorem At.loadParent_red {f : Frame Nat (κ × β)} (h : s.At (f :: fs) t)
    (ht : Balanced t .red n) : s.loadParent (addr NIL t) = some f.cell.addr := by
  obtain ⟨x, a, b, rfl, -⟩ := ht.exists_join .left
  rw [addr_join]
  exact h.loadParent

theorem At.loadColor_above {f : Frame Nat (κ × β)} (h : s.At (f :: fs) t) :
    s.loadColor f.cell.addr = some f.cell.color := by
  simpa using h.up.loadColor

theorem insertFixupLoop_black {f : Frame Nat (κ × β)} (fuel : Nat) (h : s.At (f :: fs) t)
    (ht : Balanced t .red n) (hfs : Fits (f :: fs) .red n) (hf : f.cell.color = .black) :
    ∃ s', insertFixupLoop (fuel + 1) s (addr NIL t) = some s' ∧
      Repaired s s' (entries (plug (f :: fs) t)) := by
  obtain ⟨m, hm⟩ := hfs.plug ht
  obtain ⟨s', hs', hrepaired⟩ := h.repaired h.root_ne_nil
    ⟨m, by rwa [hfs.setRootColor_plug ht]⟩
  refine ⟨s', ?_, hrepaired⟩
  simp only [insertFixupLoop, h.addr_ne_root, if_false, h.loadParent_red ht, h.loadColor_above, hf,
    reduceCtorEq, Option.bind_eq_bind, Option.bind_some, hs']

/-- One pass through the loop, with the colour the half paints the grandparent. -/
theorem insertFixupLoop_red (h : s.At (f₁ :: f₂ :: fs) t) (ht : Balanced t .red n)
    (hred : f₁.cell.color = .red) :
    insertFixupLoop (fuel + 1) s (addr NIL t) =
      (insertFixupHalf f₂.dir (if f₂.dir = .left then .red else .black) s (addr NIL t)).bind
        fun (s', p) => insertFixupLoop fuel s' p := by
  obtain ⟨l, hl, hside⟩ := h.up.is_left (by rw [addr_join]; exact h.up.ne_nil)
  rw [addr_join] at hside
  simp only [insertFixupLoop, h.addr_ne_root, if_false, h.loadParent_red ht, h.loadColor_above,
    hred, if_true, h.up.loadParent, above, hl, hside, Option.bind_eq_bind, Option.bind_some,
    insertFixupLeft, insertFixupRight]
  cases f₂.dir <;> rfl

theorem insertFixupLoop_turn (h : s.At (f₁ :: f₂ :: fs) t) (ht : Balanced t .red n)
    (hred : f₁.cell.color = .red) (hsibling : Balanced f₁.sibling .black n)
    (huncle : Balanced f₂.sibling c n) (hfs : Fits fs .black (n + 1))
    (hcolor : rootColor f₂.sibling = .black) (hleft : f₂.dir = .left)
    (hfuel : fs.length + 1 < fuel) :
    ∃ s', (insertFixupHalf f₂.dir (if f₂.dir = .left then .red else .black) s (addr NIL t)).bind
        (fun (s', p) => insertFixupLoop fuel s' p) = some s' ∧
      Repaired s s' (entries (plug (f₁ :: f₂ :: fs) t)) := by
  obtain ⟨s₁, y, t', z, hs₁, hat, ht', hz, hentries, hsame⟩ :=
    insertFixupHalf_turn h ht hred hsibling hcolor (if f₂.dir = .left then .red else .black)
  rw [if_pos hleft] at hs₁ hat ⊢
  have hgrand := Balanced.join_red (x := f₂.cell.paint .red) rfl hz
    (huncle.black_of_rootColor hcolor) f₂.dir
  obtain ⟨fuel, rfl⟩ := Nat.exists_eq_succ_of_ne_zero (Nat.ne_zero_of_lt hfuel)
  obtain ⟨s', hs', hrepaired⟩ := insertFixupLoop_black fuel hat.down ht'
    (.black rfl hgrand hfs) rfl
  refine ⟨s', by rw [hs₁]; exact hs', ?_⟩
  have hcells : entries (plug (f₁ :: f₂ :: fs) t) = entries (plug
      (⟨f₂.dir, y.paint .black,
        join f₂.dir (f₂.cell.paint .red) z f₂.sibling⟩ :: fs) t') := by
    rw [plug, plug, plug]
    apply entries_plug_congr
    rw [entries_recolor, entries_join_congr f₂.dir f₂.cell hentries.symm rfl, entries_rotate]
    exact entries_join_congr _ _ rfl (entries_recolor _ _ _ _ _).symm
  rw [hcells]
  exact ⟨hrepaired.tree, hsame.trans hrepaired.same⟩

theorem insertFixupLoop_recolor
    (ih : ∀ {s : RbTree κ β} {fs : Around κ β} {t : Shape κ β} {n : Nat}, s.At fs t →
      Balanced t .red n → Fits fs .black n → FixupStays fs → fs.length < fuel →
      ∃ s', insertFixupLoop fuel s (addr NIL t) = some s' ∧ Repaired s s' (entries (plug fs t)))
    (h : s.At (f₁ :: f₂ :: fs) t) (ht : Balanced t .red n)
    (hsibling : Balanced f₁.sibling .black n) (huncle : Balanced f₂.sibling c n)
    (hfs : Fits fs .black (n + 1)) (hcolor : rootColor f₂.sibling = .red)
    (hstays : FixupStays fs) (hfuel : fs.length + 1 < fuel) :
    ∃ s', (insertFixupHalf f₂.dir (if f₂.dir = .left then .red else .black) s (addr NIL t)).bind
        (fun (s', p) => insertFixupLoop fuel s' p) = some s' ∧
      Repaired s s' (entries (plug (f₁ :: f₂ :: fs) t)) := by
  obtain ⟨x, a, b, rfl, -⟩ := ht.exists_join .left
  obtain ⟨s₁, hs₁, hat, hsame⟩ := insertFixupHalf_recolor h hcolor
    (if f₂.dir = .left then .red else .black)
  obtain rfl : c = .red := by rw [← hcolor, huncle.rootColor_eq]
  have hparent := Balanced.join_black (x := f₁.cell.paint .black) rfl ht hsibling f₁.dir
  have hgrand := Balanced.join_red (x := f₂.cell.paint .red) rfl hparent
    huncle.setRootColor_red f₂.dir
  obtain ⟨s', hs', hrepaired⟩ := ih hat hgrand hfs hstays (by omega)
  rw [addr_join] at hs' ⊢
  refine ⟨s', by rw [hs₁]; exact hs', ?_⟩
  have hcells : entries (plug (f₁ :: f₂ :: fs) (join .left x a b)) = entries (plug fs
      (join f₂.dir (f₂.cell.paint .red) (join f₁.dir (f₁.cell.paint .black)
        (join .left x a b) f₁.sibling) (setRootColor .black f₂.sibling))) := by
    rw [plug, plug]
    apply entries_plug_congr
    rw [entries_recolor]
    exact entries_join_congr _ _ (entries_recolor _ _ _ _ _).symm (entries_setRootColor _ _).symm
  rw [hcells]
  exact ⟨hrepaired.tree, hsame.trans hrepaired.same⟩

theorem insertFixupLoop_spec (fuel : Nat) (h : s.At fs t) (ht : Balanced t .red n)
    (hfs : Fits fs .black n) (hstays : FixupStays fs) (hfuel : fs.length < fuel) :
    ∃ s', insertFixupLoop fuel s (addr NIL t) = some s' ∧
      Repaired s s' (entries (plug fs t)) := by
  induction fuel generalizing s fs t n with
  | zero => omega
  | succ fuel ih =>
      cases hfs with
      | top => exact insertFixupLoop_root fuel h ht
      | black hf hsibling hfs => exact insertFixupLoop_black fuel h ht (.black hf hsibling hfs) hf
      | red hred hsibling hfs =>
          obtain ⟨f₂, gs, c, rfl, -, huncle, hfs⟩ := hfs.of_red
          rw [insertFixupLoop_red h ht hred]
          rw [FixupStays, hred] at hstays
          cases hcolor : rootColor f₂.sibling with
          | red =>
              rw [hcolor, if_pos rfl] at hstays
              exact insertFixupLoop_recolor ih h ht hsibling huncle hfs hcolor (hstays rfl)
                (by simpa using hfuel)
          | black =>
              rw [hcolor, if_neg (by decide)] at hstays
              exact insertFixupLoop_turn h ht hred hsibling huncle hfs hcolor (hstays rfl)
                (by simpa using hfuel)

/-! The new node. -/

theorem At.fresh_not_mem (h : s.At fs t) : s.fresh ∉ addrs t ++ contextAddrs fs := by
  intro hmem
  exact lt_irrefl _ (h.sentinel.fresh _ (h.live _ hmem))

theorem Sentinel.fresh_ne (h : s.Sentinel) : NIL ≠ s.fresh :=
  (h.fresh NIL h.nil).ne

theorem Sentinel.newNode (h : s.Sentinel) (c : Color) (k : κ) (v : β) :
    (s.newNode c k v).Sentinel := by
  have hnil := h.fresh_ne
  have hnull : nullptr ≠ s.fresh := (lt_trans (by decide) (h.fresh NIL h.nil)).ne
  refine ⟨?_, ?_, ?_, ?_, ?_⟩
  · simp [RbTree.newNode, hnil, h.nil]
  · simp [RbTree.newNode, hnull, h.null]
  · simp [RbTree.newNode, Links.setData, Links.setColor, Links.setChild, Links.setParent, hnil,
      h.color]
  · intro d
    simp [RbTree.newNode, Links.setData, Links.setColor, Links.setChild, Links.setParent, hnil,
      h.child]
  · intro a ha
    simp only [RbTree.newNode] at ha ⊢
    split_ifs at ha with heq
    · omega
    · exact (h.fresh a ha).trans (Nat.lt_succ_self _)

theorem newNode_same (c : Color) (k : κ) (v : β) {a : Nat} (ha : a ≠ s.fresh) :
    Same s.links (s.newNode c k v).links a := by
  refine ⟨⟨fun d => ?_, ?_, ?_⟩, ?_⟩ <;>
    simp [RbTree.newNode, Links.setData, Links.setColor, Links.setChild, Links.setParent, ha]

theorem At.newNode (h : s.At fs t) (c : Color) (k : κ) (v : β) : (s.newNode c k v).At fs t := by
  refine ⟨h.focus.congr rfl ?_, ?_, h.sentinel.newNode c k v⟩
  · intro a ha
    apply newNode_same
    rintro rfl
    exact h.fresh_not_mem ha
  · intro a ha
    simp only [RbTree.newNode]
    split_ifs
    · rfl
    · exact h.live a ha

/-! The descent to the place of a new key. -/

variable [LinearOrder κ]

/-- The context of the place where `insert` puts the key `k`. -/
def descent (k : κ) : Shape κ β → Around κ β → Around κ β
  | .nil, fs => fs
  | .node x left right, fs =>
      if k < x.data.1 then descent k left (⟨.left, x, right⟩ :: fs)
      else descent k right (⟨.right, x, left⟩ :: fs)

theorem plug_descent (k : κ) (t : Shape κ β) (fs : Around κ β) :
    plug (descent k t fs) .nil = plug fs t := by
  induction t generalizing fs with
  | nil => rfl
  | node x left right ihLeft ihRight =>
      rw [descent]
      split_ifs
      · rw [ihLeft]
        rfl
      · rw [ihRight]
        rfl

theorem descend_spec (fuel : Nat) (h : s.At fs t) (k : κ) (hfuel : (addrs t).length < fuel) :
    s.descend k fuel (addr NIL t) (above NIL fs) = some (above NIL (descent k t fs)) ∧
      s.At (descent k t fs) .nil := by
  induction t generalizing fs fuel with
  | nil =>
      cases fuel with
      | zero => cases hfuel
      | succ fuel => exact ⟨if_pos rfl, h⟩
  | node x left right ihLeft ihRight =>
      rw [length_addrs_node] at hfuel
      cases fuel with
      | zero => cases hfuel
      | succ fuel =>
          have hnil : addr NIL (.node x left right) ≠ NIL := At.ne_nil (d := .left) h
          have hkey : s.loadKey (addr NIL (.node x left right)) = some x.data.1 :=
            At.loadKey (d := .left) h
          have hleft : s.loadChild .left (addr NIL (.node x left right)) = some (addr NIL left) :=
            At.loadChild (d := .left) h
          have hright : s.loadChild .right (addr NIL (.node x left right)) = some (addr NIL right) :=
            At.loadChild (d := .right) h
          simp only [descend, hnil, if_false, hkey, Option.bind_eq_bind, Option.bind_some, descent]
          split_ifs with hk
          · rw [hleft]
            exact ihLeft _ (At.down (d := .left) h) (by omega)
          · rw [hright]
            exact ihRight _ (At.down (d := .right) h) (by omega)

/-- The side on which the new node is hung is the side of the hole. -/
theorem descent_dir (k : κ) (t : Shape κ β) {fs : Around κ β}
    (hfs : ∀ f ∈ fs.head?, (if k < f.cell.data.1 then Dir.left else .right) = f.dir) :
    ∀ f ∈ (descent k t fs).head?, (if k < f.cell.data.1 then Dir.left else .right) = f.dir := by
  induction t generalizing fs with
  | nil => exact hfs
  | node x left right ihLeft ihRight =>
      rw [descent]
      split_ifs with hk
      · apply ihLeft
        simp [hk]
      · apply ihRight
        simp [hk]

theorem descent_ne_nil (k : κ) (t : Shape κ β) {fs : Around κ β} (hfs : fs ≠ []) :
    descent k t fs ≠ [] := by
  induction t generalizing fs with
  | nil => exact hfs
  | node x left right ihLeft ihRight =>
      rw [descent]
      split_ifs
      · exact ihLeft (List.cons_ne_nil _ _)
      · exact ihRight (List.cons_ne_nil _ _)

theorem descent_node_ne_nil (k : κ) (x : Node κ β) (left right : Shape κ β) (fs : Around κ β) :
    descent k (.node x left right) fs ≠ [] := by
  rw [descent]
  split_ifs
  · exact descent_ne_nil k left (List.cons_ne_nil _ _)
  · exact descent_ne_nil k right (List.cons_ne_nil _ _)

theorem entries_descent (k : κ) (t : Shape κ β) :
    entries t = beforeHole (descent k t []) ++ afterHole (descent k t []) := by
  have h := entries_plug (descent k t []) .nil
  rw [plug_descent] at h
  simpa [plug, entries] using h

/-! The order of the keys. -/

def Sorted (entries : List (Nat × κ × β)) : Prop :=
  entries.Pairwise fun a b => a.2.1 ≤ b.2.1

instance (entries : List (Nat × κ × β)) : Decidable (Sorted entries) :=
  inferInstanceAs (Decidable (entries.Pairwise _))

theorem descent_between {k : κ} {t : Shape κ β} {fs : Around κ β} (ht : Sorted (entries t))
    (hbefore : ∀ a ∈ beforeHole fs, a.2.1 ≤ k) (hafter : ∀ a ∈ afterHole fs, k ≤ a.2.1) :
    (∀ a ∈ beforeHole (descent k t fs), a.2.1 ≤ k) ∧
      ∀ a ∈ afterHole (descent k t fs), k ≤ a.2.1 := by
  induction t generalizing fs with
  | nil => exact ⟨hbefore, hafter⟩
  | node x left right ihLeft ihRight =>
      have hparts : Sorted (entries left ++ entry x :: entries right) := ht
      obtain ⟨hleft, hrest, hcross⟩ := List.pairwise_append.mp hparts
      obtain ⟨hx, hright⟩ := List.pairwise_cons.mp hrest
      rw [descent]
      split_ifs with hk
      · refine ihLeft hleft hbefore ?_
        intro a ha
        rw [afterHole, List.cons_append, List.mem_cons, List.mem_append] at ha
        rcases ha with rfl | ha | ha
        · exact hk.le
        · exact hk.le.trans (hx a ha)
        · exact hafter a ha
      · refine ihRight hright ?_ hafter
        intro a ha
        rw [beforeHole, List.mem_append, List.mem_append, List.mem_singleton] at ha
        rcases ha with (ha | ha) | rfl
        · exact hbefore a ha
        · exact (hcross a ha _ List.mem_cons_self).trans (not_lt.mp hk)
        · exact not_lt.mp hk

theorem Sorted.insert {before after : List (Nat × κ × β)} (h : Sorted (before ++ after))
    (a : Nat × κ × β) (hbefore : ∀ b ∈ before, b.2.1 ≤ a.2.1)
    (hafter : ∀ b ∈ after, a.2.1 ≤ b.2.1) : Sorted (before ++ a :: after) := by
  obtain ⟨hb, ha, hcross⟩ := List.pairwise_append.mp h
  refine List.pairwise_append.mpr ⟨hb, List.pairwise_cons.mpr ⟨hafter, ha⟩, ?_⟩
  intro b hb c hc
  rcases List.mem_cons.mp hc with rfl | hc
  · exact hbefore b hb
  · exact hcross b hb c hc

/-- The first node of a tree. -/
theorem insert_root (h : s.At [] (.nil : Shape κ β)) (k : κ) (v : β) :
    ∃ s', s.insert k v = some s' ∧
      s'.At [] (.node ⟨.black, s.fresh, k, v⟩ .nil .nil) := by
  have hroot : (s.newNode .red k v).links.root = NIL := h.root
  have hlive : (s.newNode .red k v).live s.fresh = true := if_pos rfl
  have hsentinel := h.sentinel.newNode .red k v
  have hnil := h.sentinel.fresh_ne
  simp only [insert, hroot, if_true, storeChild, storeParent, RbTree.storeColor, setRoot, hlive,
    Option.bind_eq_bind, Option.bind_some]
  refine ⟨_, rfl, ⟨⟨⟨rfl, rfl⟩, ⟨rfl, hnil.symm, ⟨?_, ?_, ?_⟩, ?_, ?_⟩, ?_⟩, ?_, ?_⟩⟩
  · simp [Links.setColor, Links.setParent, above]
  · simp [Links.setColor]
  · simp [Links.setColor, Links.setParent, Links.setChild, Links.setRoot, RbTree.newNode,
      Links.setData]
  · simp [Links.setColor, Links.setParent, Links.setChild, Links.Rep]
  · simp [Links.setColor, Links.setParent, Links.setChild, Links.Rep]
  · simp [addrs, entries, entry, contextAddrs]
  · simpa [addrs, entries, entry, contextAddrs] using hlive
  · refine hsentinel.setLinks ?_ fun d => ?_ <;>
      simp [Links.setColor, Links.setParent, Links.setChild, Links.setRoot, hnil]

/-- Any other node. -/
theorem insert_hang {f : Frame Nat (κ × β)} {x : Node κ β} {left right : Shape κ β} {k : κ}
    (h : s.At [] (.node x left right)) (hf : descent k (.node x left right) [] = f :: fs) (v : β) :
    ∃ s', s.insert k v = insert_fixup s' s.fresh ∧
      s'.At (f :: fs) (.node ⟨.red, s.fresh, k, v⟩ .nil .nil) ∧ s'.fresh = s.fresh + 1 := by
  have hnew := h.newNode .red k v
  have hlive : (s.newNode .red k v).live s.fresh = true := if_pos rfl
  have hlength := hnew.length_le
  obtain ⟨hdescend, hat⟩ := descend_spec (s.newNode .red k v).fresh hnew k (by
    rw [List.length_append] at hlength
    omega)
  rw [hf] at hat hdescend
  have hroot : (s.newNode .red k v).links.root ≠ NIL := by
    rw [hnew.root]
    exact At.ne_nil (d := .left) h
  have hsides : ∀ g ∈ (descent k (.node x left right) []).head?,
      (if k < g.cell.data.1 then Dir.left else .right) = g.dir := descent_dir k _ (by simp)
  have hat₀ := (descend_spec s.fresh h k (by
    have := h.length_le
    rw [List.length_append] at this
    omega)).2
  rw [hf] at hat₀
  have hfFresh : f.cell.addr ≠ s.fresh := by
    intro heq
    exact hat₀.fresh_not_mem (by simp [← heq, contextAddrs])
  have hfNode := (rep_join _ _ _ _).mp hat₀.up.focus.tree
  have hpLive := hat.up.live_node
  have hkey := hat.up.loadKey
  have hnil := h.sentinel.fresh_ne
  have hfNil := hat.up.ne_nil
  simp only [above] at hdescend hkey
  rw [← hnew.root] at hdescend
  have hother := f.dir.other_ne
  have hdir := hsides f (by simp [hf])
  have hdata : (s.newNode .red k v).links.data f.cell.addr = f.cell.data :=
    ((rep_join _ _ _ _).mp hat.up.focus.tree).2.2.1.data
  simp only [insert, hroot, if_false, hdescend, Option.bind_eq_bind, Option.bind_some, storeParent,
    storeChild, hlive, if_true, loadKey, hpLive, setChild_data, setParent_data, hdata, hdir]
  refine ⟨_, rfl, ⟨?_, ?_, ?_⟩, rfl⟩
  · apply hat₀.focus.grow
    · exact hnil.symm
    · intro hmem
      exact hat₀.fresh_not_mem (List.mem_append_right _ hmem)
    · refine ⟨?_, ?_, ?_⟩ <;>
        simp [Links.setParent, Links.setChild, RbTree.newNode, Links.setData, Links.setColor, above]
    · intro d
      cases d <;> cases f.dir <;> simp [Links.setParent, Links.setChild, hfFresh.symm]
    · rfl
    · simp [Links.setParent, Links.setChild, RbTree.newNode, Links.setData, Links.setColor, above,
        hfFresh, hother]
    · intro a ha hap
      simp only [above] at hap
      simp only at ha
      refine ⟨⟨fun d => ?_, ?_, ?_⟩, ?_⟩ <;>
        simp [Links.setParent, Links.setChild, RbTree.newNode, Links.setData, Links.setColor, ha,
          hap]
  · intro a ha
    rw [addrs_node, List.mem_append, List.mem_append, List.mem_cons] at ha
    rcases ha with (ha | rfl | ha) | ha
    · cases ha
    · exact hlive
    · cases ha
    · exact hat.live a (List.mem_append_right _ ha)
  · refine hnew.sentinel.setLinks rfl fun d => ?_
    simp [Links.setParent, Links.setChild, hnil, hfNil.symm]

/-! Insertion. -/

/-- The red-black tree `t`, sorted by its keys, is what the tree in memory stands for. -/
structure Stands (s : RbTree κ β) (t : Shape κ β) : Prop where
  at_root : s.At [] t
  balanced : ∃ n, Balanced t .black n
  sorted : Sorted (entries t)

def contents (t : Shape κ β) : Multiset (κ × β) := ((entries t).map Prod.snd : List (κ × β))

/-- The repair after the insertion of `k` does not run into the wrongly painted half. -/
def InsertStays (s : RbTree κ β) (k : κ) : Prop :=
  ∀ t, s.At [] t → FixupStays (descent k t [])

theorem insert_spec (h : s.At [] t) (hbalanced : Balanced t .black n) (k : κ) (v : β)
    (hstays : FixupStays (descent k t [])) :
    ∃ s' t' m, s.insert k v = some s' ∧ s'.At [] t' ∧ Balanced t' .black m ∧
      entries t' =
        beforeHole (descent k t []) ++ (s.fresh, k, v) :: afterHole (descent k t []) := by
  cases t with
  | nil =>
      obtain ⟨s', hs', hat⟩ := insert_root h k v
      exact ⟨s', _, _, hs', hat, .black rfl .nil .nil, rfl⟩
  | node x left right =>
      cases hf : descent k (.node x left right) [] with
      | nil =>
          exact absurd hf (descent_node_ne_nil k x left right [])
      | cons f fs =>
          obtain ⟨s₁, hs₁, hat, hfresh⟩ := insert_hang h hf v
          have hplug := plug_descent k (.node x left right) []
          rw [hf] at hplug hstays
          rw [plug.eq_1] at hplug
          rw [← hplug] at hbalanced
          obtain ⟨c, n, hnil, hfits⟩ := Balanced.of_plug hbalanced
          cases hnil with
          | nil =>
              have hlength := hat.length_le
              have hcontext := length_le_contextAddrs (f :: fs)
              rw [List.length_append] at hlength
              obtain ⟨s', hs', ⟨t', m, hat', ht', hentries⟩, -⟩ := insertFixupLoop_spec s₁.fresh hat
                (.red rfl .nil .nil) hfits hstays (by omega)
              refine ⟨s', t', m, hs₁.trans hs', hat', ht', ?_⟩
              rw [hentries, entries_plug]
              simp [entries, entry]

theorem Stands.insert (h : s.Stands t) (k : κ) (v : β) (hstays : s.InsertStays k) :
    ∃ s' t', s.insert k v = some s' ∧ s'.Stands t' ∧ contents t' = (k, v) ::ₘ contents t := by
  obtain ⟨hat, ⟨n, hbalanced⟩, hsorted⟩ := h
  obtain ⟨s', t', m, hs', hat', hbalanced', hentries⟩ :=
    insert_spec hat hbalanced k v (hstays t hat)
  obtain ⟨hbefore, hafter⟩ : (∀ a ∈ beforeHole (descent k t []), a.2.1 ≤ k) ∧
      ∀ a ∈ afterHole (descent k t []), k ≤ a.2.1 :=
    descent_between hsorted (by simp [beforeHole]) (by simp [afterHole])
  rw [entries_descent k t] at hsorted
  refine ⟨s', t', hs', ⟨hat', ⟨m, hbalanced'⟩, ?_⟩, ?_⟩
  · rw [hentries]
    exact hsorted.insert _ hbefore hafter
  · rw [contents, contents, hentries, entries_descent k t]
    simp

theorem stands_empty [Inhabited κ] [Inhabited β] : (empty : RbTree κ β).Stands .nil := by
  refine ⟨⟨⟨⟨rfl, rfl⟩, rfl, List.nodup_nil⟩, ?_, ?_⟩, ⟨0, .nil⟩, List.Pairwise.nil⟩
  · intro a ha
    cases ha
  · refine ⟨rfl, rfl, rfl, fun _ => rfl, ?_⟩
    intro a ha
    simp only [empty, beq_iff_eq] at ha ⊢
    omega

theorem insertStays_iff (h : s.At [] t) (k : κ) :
    s.InsertStays k ↔ FixupStays (descent k t []) := by
  constructor
  · intro hstays
    exact hstays t h
  · intro hstays t' ht'
    rwa [ht'.unique h]

/-- Every run of insertions whose repairs stay clear of the wrongly painted half. -/
theorem insert_stands [Inhabited κ] [Inhabited β] (ops : List (κ × β))
    (hstays : Run.Guarded (fun (s : RbTree κ β) op => s.insert op.1 op.2)
      (fun s op => s.InsertStays op.1) empty ops) :
    ∃ s, ops.foldlM (fun (s : RbTree κ β) op => s.insert op.1 op.2) empty = some s ∧
      ∃ t, s.Stands t ∧ contents t = (ops : Multiset (κ × β)) := by
  let R (s : RbTree κ β) (inserted : List (κ × β)) : Prop :=
    ∃ t, s.Stands t ∧ contents t = (inserted : Multiset (κ × β))
  have hstep : ∀ (s : RbTree κ β) (inserted : List (κ × β)) (op : κ × β), R s inserted →
      s.InsertStays op.1 → ∃ s', s.insert op.1 op.2 = some s' ∧ R s' (op :: inserted) := by
    rintro s inserted ⟨k, v⟩ ⟨t, ht, hcontents⟩ hguard
    obtain ⟨s', t', hs', ht', hcontents'⟩ := ht.insert k v hguard
    exact ⟨s', hs', t', ht', by rw [hcontents', hcontents, Multiset.cons_coe]⟩
  obtain ⟨s, hs, t, ht, hcontents⟩ : ∃ s, ops.foldlM (fun s op => s.insert op.1 op.2) empty = some s ∧
      R s (ops.foldl (fun inserted op => op :: inserted) []) :=
    Run.simulates_of_guarded R hstep ops ⟨.nil, stands_empty, rfl⟩ hstays
  refine ⟨s, hs, t, ht, hcontents.trans ?_⟩
  rw [List.foldl_flip_cons_eq_append', List.append_nil, Multiset.coe_reverse]

theorem insert_stands_pair : ∃ s,
    [(2, 20), (1, 10)].foldlM (fun (s : RbTree ℕ ℕ) op => s.insert op.1 op.2) empty = some s ∧
      ∃ t, s.Stands t ∧ contents t = ([(2, 20), (1, 10)] : Multiset (ℕ × ℕ)) := by
  apply insert_stands
  refine ⟨(insertStays_iff stands_empty.at_root _).mpr trivial, fun s hs => ⟨?_, ?_⟩⟩
  · obtain ⟨s', hs', hat⟩ := insert_root (stands_empty (κ := ℕ) (β := ℕ)).at_root 2 20
    obtain rfl : s = s' := Option.some.inj (hs.symm.trans hs')
    exact (insertStays_iff hat _).mpr trivial
  · intro s' _
    trivial

/-- Ascending keys turn the wrongly painted half: the root of the three nodes has one
black node on its left and none on its right. -/
theorem insert_unbalanced : ∃ s,
    [(1, 10), (2, 20), (3, 30)].foldlM (fun (s : RbTree ℕ ℕ) op => s.insert op.1 op.2) empty =
      some s ∧ ∀ t, ¬s.Stands t := by
  obtain ⟨s, hs, hroot, h₂, h₃, h₄⟩ : ∃ s,
      [(1, 10), (2, 20), (3, 30)].foldlM (fun (s : RbTree ℕ ℕ) op => s.insert op.1 op.2) empty =
        some s ∧ s.links.root = 3 ∧ s.nodeAt 2 = (.black, (1, 10), 3, 1, 1) ∧
        s.nodeAt 3 = (.black, (2, 20), 1, 2, 4) ∧ s.nodeAt 4 = (.red, (3, 30), 3, 1, 1) :=
    ⟨Option.get _ (by decide), (Option.some_get _).symm, by decide +kernel⟩
  refine ⟨s, hs, fun t h => ?_⟩
  simp only [nodeAt, Prod.mk.injEq] at h₂ h₃ h₄
  have hrep := h.at_root.focus.tree
  rw [← h.at_root.root, hroot] at hrep
  have hexpected : s.links.Rep NIL NIL 3 (.node ⟨.black, 3, 2, 20⟩
      (.node ⟨.black, 2, 1, 10⟩ .nil .nil) (.node ⟨.red, 4, 3, 30⟩ .nil .nil)) := by
    refine ⟨rfl, by decide, ⟨h₃.2.2.1, h₃.1, ?_⟩, ?_, ?_⟩
    · simp [h₃]
    · rw [h₃.2.2.2.1]
      refine ⟨rfl, by decide, ⟨h₂.2.2.1, h₂.1, ?_⟩, h₂.2.2.2.1, h₂.2.2.2.2⟩
      simp [h₂]
    · rw [h₃.2.2.2.2]
      refine ⟨rfl, by decide, ⟨h₄.2.2.1, h₄.1, ?_⟩, h₄.2.2.2.1, h₄.2.2.2.2⟩
      simp [h₄]
  obtain ⟨n, hbalanced⟩ := h.balanced
  rw [hrep.unique hexpected] at hbalanced
  cases hbalanced with
  | black _ hleft hright =>
      cases hright with
      | red _ hnil _ =>
          cases hnil
          cases hleft with
          | red hcolor _ _ => cases hcolor
      | black hcolor _ _ => cases hcolor

end RbTree

end RebuildTheWheel.TinySTL
