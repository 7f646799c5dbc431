import RebuildTheWheel.TinySTL.RbTreeInsert

namespace RebuildTheWheel.TinySTL

open Data Data.RedBlack Data.Links

namespace RbTree

variable {κ β : Type} {s : RbTree κ β} {fs : Around κ β} {t a b sibling : Shape κ β} {d : Dir}
  {q w : Node κ β} {f : Frame Nat (κ × β)} {n fuel : Nat}

/-! The loop of `remove_fixup`. The place in view may be `NIL`, whose parent field then
says where it is. -/

/-- The parent field of the root of `t`, of `NIL` as well. -/
structure Hangs (s : RbTree κ β) (fs : Around κ β) (t : Shape κ β) : Prop where
  stands : s.At fs t
  parent : s.links.parent (addr NIL t) = above NIL fs

theorem Hangs.of_node {x : Node κ β} (h : s.At fs (join d x a b)) : Hangs s fs (join d x a b) := by
  refine ⟨h, ?_⟩
  rw [addr_join]
  exact ((rep_join _ _ _ _).mp h.focus.tree).2.2.1.parent

theorem Hangs.loadParent (h : Hangs s (f :: fs) t) :
    s.loadParent (addr NIL t) = some f.cell.addr := by
  rw [RbTree.loadParent, if_pos h.stands.live_addr, h.parent]
  rfl

theorem Hangs.relinked {s' : RbTree κ β} {fs' : Around κ β} (h : Hangs s (f :: fs) t)
    (hsame : Relinked s s') (hat : s'.At (f' :: fs') t) (hf : f'.cell.addr = f.cell.addr) :
    Hangs s' (f' :: fs') t := by
  refine ⟨hat, ?_⟩
  cases t with
  | nil => exact hsame.parent.trans (h.parent.trans hf.symm)
  | node x left right => exact (Hangs.of_node (d := .left) hat).parent

theorem Hangs.loadSibling (h : Hangs s (⟨d, q, sibling⟩ :: fs) t) :
    s.loadChild d.other q.addr = some (addr NIL sibling) :=
  h.stands.up.loadOther

/-- `w` is red: its black child on the inside becomes the sibling. -/
theorem turnSibling_spec (h : Hangs s (⟨d, q, sibling⟩ :: fs) t)
    (hfits : Fits (⟨d, q, sibling⟩ :: fs) .black (n + 1)) :
    ∃ s' q' sibling' fs', turnSibling d s (addr NIL t) (addr NIL sibling) =
        some (s', addr NIL sibling') ∧
      Hangs s' (⟨d, q', sibling'⟩ :: fs') t ∧ q'.addr = q.addr ∧
      Fits (⟨d, q', sibling'⟩ :: fs') .black (n + 1) ∧ Balanced sibling' .black (n + 1) ∧
      (fs' = fs ∨ q'.color = .red) ∧
      entries (plug (⟨d, q', sibling'⟩ :: fs') t) = entries (plug (⟨d, q, sibling⟩ :: fs) t) ∧
      Relinked s s' := by
  have hcolor := h.stands.up.downOther.loadColor
  cases hsibling : rootColor sibling with
  | black =>
      rw [hsibling] at hcolor
      refine ⟨s, q, sibling, fs, ?_, h, rfl, hfits, ?_, .inl rfl, rfl, rfl, rfl, rfl⟩
      · simp only [turnSibling, hcolor, Option.bind_eq_bind, Option.bind_some, reduceCtorEq,
          if_false]
      · cases hfits with
        | red _ hb _ => exact hb
        | black _ hb _ => exact hb.black_of_rootColor hsibling
  | red =>
      rw [hsibling] at hcolor
      obtain ⟨hq, hred, hfs⟩ : q.color = .black ∧ Balanced sibling .red (n + 1) ∧
          Fits fs .black (n + 2) := by
        cases hfits with
        | red _ hb _ => rw [hb.rootColor_eq] at hsibling; cases hsibling
        | black hq hb hfs => exact ⟨hq, hsibling ▸ hb.rootColor_eq ▸ hb, hfs⟩
      obtain ⟨w, wl, wr, rfl, hw, hwl, hwr⟩ := hred.exists_join d
      obtain ⟨s₁, hs₁, hat₁, hsame₁⟩ := h.stands.up.downOther.storeColor .black
      have hat₁' := hat₁.up
      simp only [join_other] at hat₁'
      have h₁ := h.relinked hsame₁ hat₁'.down rfl
      obtain ⟨s₂, hs₂, hat₂, hsame₂⟩ := hat₁'.storeColor .red
      have h₂ := h₁.relinked hsame₂ hat₂.down rfl
      obtain ⟨s₃, hs₃, hat₃, hsame₃⟩ := hat₂.rotate
      have h₃ := h₂.relinked hsame₃ hat₃.down.down rfl
      refine ⟨s₃, q.paint .red, wl, ⟨d, w.paint .black, wr⟩ :: fs, ?_, h₃, rfl, ?_, hwl, .inr rfl,
        ?_, (hsame₁.trans hsame₂).trans hsame₃⟩
      · simp only [addr_join] at hcolor ⊢
        have hp₁ := h₁.loadParent
        have hp₂ := h₂.loadParent
        have hp₃ := h₃.loadParent
        have hw₃ := h₃.loadSibling
        simp only [Cell.paint_addr] at hp₁ hp₂ hs₃ hp₃ hw₃
        simp only [turnSibling, hcolor, Option.bind_eq_bind, Option.bind_some, if_true, hs₁, hp₁,
          hs₂, hp₂, hs₃, hp₃, hw₃]
      · exact .red rfl hwl (.black rfl hwr hfs)
      · rw [plug, plug, plug]
        apply entries_plug_congr
        simp only
        rw [entries_recolor, entries_join_congr d w (entries_recolor d q _ _ _) rfl,
          entries_rotate]

/-- One of the two children of `w` is red: it is brought to the outside. -/
theorem turnOuter_spec (h : Hangs s (⟨d, q, join d w a b⟩ :: fs) t) (ha : Balanced a c n)
    (hb : Balanced b c' n) (hred : rootColor a = .red ∨ rootColor b = .red) :
    ∃ s' w' a' b' c'', turnOuter d s (addr NIL t) w.addr = some (s', w'.addr) ∧
      Hangs s' (⟨d, q, join d w' a' b'⟩ :: fs) t ∧ Balanced a' c'' n ∧ Balanced b' .red n ∧
      entries (join d w' a' b') = entries (join d w a b) ∧ Relinked s s' := by
  have hfar := h.stands.up.downOther.loadOther
  have hcolor := h.stands.up.downOther.downOther.loadColor
  cases hb' : rootColor b with
  | red =>
      rw [hb'] at hcolor
      refine ⟨s, w, a, b, c, ?_, h, ha, hb.red_of_rootColor hb', rfl, rfl, rfl, rfl⟩
      simp only [turnOuter, hfar, hcolor, Option.bind_eq_bind, Option.bind_some, reduceCtorEq,
        if_false]
  | black =>
      rw [hb'] at hcolor
      have hared : rootColor a = .red := by
        rcases hred with hred | hred
        · exact hred
        · rw [hb'] at hred
          cases hred
      obtain ⟨y, a₁, a₂, rfl, hy, ha₁, ha₂⟩ := (ha.red_of_rootColor hared).exists_join d
      have hnear := h.stands.up.downOther.loadChild
      obtain ⟨s₁, hs₁, hat₁, hsame₁⟩ := h.stands.up.downOther.down.storeColor .black
      obtain ⟨s₂, hs₂, hat₂, hsame₂⟩ := hat₁.up.storeColor .red
      simp only at hat₂
      rw [← join_other d (w.paint .red), ← join_other d (y.paint .black)] at hat₂
      obtain ⟨s₃, hs₃, hat₃, hsame₃⟩ := hat₂.rotate
      rw [join_other, join_other] at hat₃
      have hat' := hat₃.up
      simp only [join_other] at hat'
      have hsame := (hsame₁.trans hsame₂).trans hsame₃
      have h' := h.relinked hsame hat'.down rfl
      refine ⟨s₃, y.paint .black, a₁, join d (w.paint .red) a₂ b, .black, ?_, h', ha₁,
        ha₂.join_red rfl (hb.black_of_rootColor hb') d, ?_, hsame⟩
      · have hp := h'.loadParent
        have hw := h'.loadSibling
        simp only [addr_join, Cell.paint_addr] at hnear hs₃ hp hw
        simp only [turnOuter, hfar, hcolor, Option.bind_eq_bind, Option.bind_some, if_true, hnear,
          hs₁, hs₂, hs₃, hp, hw, Cell.paint_addr]
      · rw [← entries_rotate, entries_recolor]
        exact entries_join_congr _ _ (entries_recolor _ _ _ _ _) rfl

theorem turnParent_spec (h : Hangs s (⟨d, q, join d w a b⟩ :: fs) t) (ht : Balanced t .black n)
    (ha : Balanced a c n) (hb : Balanced b .red n)
    (hfits : Fits (⟨d, q, sibling⟩ :: fs) .black (n + 1)) :
    ∃ s' t' m, turnParent d s (addr NIL t) w.addr = some s' ∧ s'.At [] t' ∧
      Balanced t' .black m ∧
      entries t' = entries (plug (⟨d, q, join d w a b⟩ :: fs) t) ∧ Relinked s s' := by
  have hq : s.loadColor q.addr = some q.color := h.stands.loadColor_above
  obtain ⟨s₁, hs₁, hat₁, hsame₁⟩ := h.stands.up.downOther.storeColor q.color
  have hat₁' := hat₁.up
  simp only [join_other] at hat₁'
  have h₁ := h.relinked hsame₁ hat₁'.down rfl
  obtain ⟨s₂, hs₂, hat₂, hsame₂⟩ := hat₁'.storeColor .black
  have h₂ := h₁.relinked hsame₂ hat₂.down rfl
  have hfar := hat₂.downOther.loadOther
  obtain ⟨s₃, hs₃, hat₃, hsame₃⟩ := hat₂.downOther.downOther.blackenHere
  have hat₃' := hat₃.up.up
  simp only [join_other] at hat₃'
  have hsame := (hsame₁.trans hsame₂).trans hsame₃
  have h₃ := h.relinked hsame hat₃'.down rfl
  obtain ⟨s', hs', hat', hsame'⟩ := hat₃'.rotate
  have hinner : Balanced (join d (q.paint .black) t a) .black (n + 1) := ht.join_black rfl ha d
  have houter := hb.setRootColor_red
  obtain ⟨m, hm⟩ : ∃ m, Balanced (plug fs (join d (w.paint q.color)
      (join d (q.paint .black) t a) (setRootColor .black b))) .black m := by
    cases hfits with
    | red hcolor _ hfs =>
        exact hfs.plug (Balanced.join_red (x := w.paint q.color) hcolor hinner houter d)
    | black hcolor _ hfs =>
        exact hfs.plug (Balanced.join_black (x := w.paint q.color) hcolor hinner houter d)
  refine ⟨s', _, m, ?_, hat'.top, hm, ?_, hsame.trans hsame'⟩
  · have hp := h.loadParent
    have hp₁ := h₁.loadParent
    have hp₃ := h₃.loadParent
    simp only [Cell.paint_addr] at hp hp₁ hfar hp₃ hs'
    simp only [turnParent, hp, hq, hs₁, hp₁, hs₂, hfar, hs₃, hp₃, hs', Option.bind_eq_bind,
      Option.bind_some]
  · rw [plug]
    apply entries_plug_congr
    rw [entries_recolor, entries_join_congr d w (entries_recolor d q _ _ _)
      (entries_setRootColor _ _), entries_rotate]

/-- `t` is one black node short of what its place asks for, which the loop still has
`fuel` rounds to make up for; or it has a red root, which has only to be blackened. -/
def Lacks (fuel : Nat) (fs : Around κ β) (t : Shape κ β) : Prop :=
  (∃ n, Balanced t .black n ∧ Fits fs .black (n + 1) ∧ fs.length < fuel) ∨
    ∃ n, rootColor t = .red ∧ Balanced (setRootColor .black t) .black n ∧ Fits fs .black n ∧
      0 < fuel

/-- What one round of the loop leaves to do. -/
inductive Round (s' : RbTree κ β) (p fuel : Nat) (nodes : List (Nat × κ × β)) : Prop where
  | more (gs : Around κ β) (u : Shape κ β) : p = addr NIL u → Hangs s' gs u → Lacks fuel gs u →
      entries (plug gs u) = nodes → Round s' p fuel nodes
  | done (u : Shape κ β) (m : Nat) : p = s'.links.root → s'.At [] u → Balanced u .black m →
      entries u = nodes → Round s' p fuel nodes

theorem removeFixupHalf_spec (h : Hangs s (⟨d, q, sibling⟩ :: fs) t) (ht : Balanced t .black n)
    (hfits : Fits (⟨d, q, sibling⟩ :: fs) .black (n + 1)) (hfuel : fs.length < fuel) :
    ∃ s' p, removeFixupHalf d s (addr NIL t) = some (s', p) ∧
      Round s' p fuel (entries (plug (⟨d, q, sibling⟩ :: fs) t)) ∧ Relinked s s' := by
  obtain ⟨s₁, q₁, sibling₁, fs₁, hs₁, h₁, hq₁, hfits₁, hsibling₁, hfs₁, hentries₁, hsame₁⟩ :=
    turnSibling_spec h hfits
  obtain ⟨w, a, b, c, c', rfl, hw, ha, hb⟩ := hsibling₁.exists_join_black d
  have hp := h.loadParent
  have hsib := h.loadSibling
  have hnear := h₁.stands.up.downOther.down.loadColor
  have hfar := h₁.stands.up.downOther.downOther.loadColor
  have hnearAddr := h₁.stands.up.downOther.loadChild
  have hfarAddr := h₁.stands.up.downOther.loadOther
  rw [addr_join] at hs₁
  by_cases hblack : rootColor a = .black ∧ rootColor b = .black
  · obtain ⟨s₂, hs₂, hat₂, hsame₂⟩ := h₁.stands.up.downOther.storeColor .red
    have hat₂' := hat₂.up
    simp only [join_other] at hat₂'
    have h₂ := h₁.relinked hsame₂ hat₂'.down rfl
    have hp₂ := h₂.loadParent
    simp only at hp₂
    refine ⟨s₂, q₁.addr, ?_, ?_, hsame₁.trans hsame₂⟩
    · simp only [removeFixupHalf, hp, hsib, hs₁, hnearAddr, hnear, hfarAddr, hfar, hblack,
        and_self, if_true, hs₂, hp₂, Option.bind_eq_bind, Option.bind_some]
    · refine .more fs₁ _ (addr_join _ _ _ _ _).symm (.of_node hat₂') ?_ ?_
      · have hlower := ha.black_of_rootColor hblack.1 |>.join_red (x := w.paint .red) rfl
          (hb.black_of_rootColor hblack.2) d
        cases hfits₁ with
        | red hcolor _ hfs =>
            refine .inr ⟨n + 1, by rw [rootColor_join, hcolor], ?_, hfs.black_of_red,
              Nat.zero_lt_of_lt hfuel⟩
            rw [setRootColor_join]
            exact ht.join_black rfl hlower d
        | black hcolor _ hfs =>
            rcases hfs₁ with rfl | hred
            · exact .inl ⟨n + 1, ht.join_black hcolor hlower d, hfs, hfuel⟩
            · rw [hcolor] at hred
              cases hred
      · rw [← hentries₁, plug]
        apply entries_plug_congr
        exact entries_join_congr _ _ rfl (entries_recolor _ _ _ _ _)
  · have hred : rootColor a = .red ∨ rootColor b = .red := by
      cases ha' : rootColor a with
      | red => exact .inl rfl
      | black =>
          cases hb' : rootColor b with
          | red => exact .inr rfl
          | black => exact absurd ⟨ha', hb'⟩ hblack
    obtain ⟨s₂, w', a', b', c'', hs₂, h₂, ha', hb', hentries₂, hsame₂⟩ :=
      turnOuter_spec h₁ ha hb hred
    obtain ⟨s', t', m, hs', hat', ht', hentries', hsame'⟩ :=
      turnParent_spec h₂ ht ha' hb' hfits₁
    refine ⟨s', s'.links.root, ?_, .done t' m rfl hat' ht' ?_, (hsame₁.trans hsame₂).trans hsame'⟩
    · simp only [removeFixupHalf, hp, hsib, hs₁, hnearAddr, hnear, hfarAddr, hfar, hblack,
        if_false, hs₂, hs', Option.bind_eq_bind, Option.bind_some]
    · rw [hentries', ← hentries₁, plug, plug]
      apply entries_plug_congr
      exact entries_join_congr _ _ rfl hentries₂

theorem Hangs.is_left (h : Hangs s (f :: fs) t) (hsibling : f.sibling ≠ .nil) :
    ∃ l, s.loadChild .left f.cell.addr = some l ∧ (addr NIL t = l ↔ f.dir = .left) := by
  by_cases hnil : addr NIL t = NIL
  · obtain ⟨d, q, sibling⟩ := f
    cases d with
    | left => exact ⟨_, h.stands.up.loadChild, by simp⟩
    | right =>
        refine ⟨_, h.loadSibling, ?_⟩
        cases sibling with
        | nil => exact absurd rfl hsibling
        | node x left right =>
            have hx := At.ne_nil (d := .left) h.stands.up.downOther
            simp only [hnil, reduceCtorEq, iff_false]
            exact hx.symm
  · exact h.stands.is_left hnil

theorem removeFixupLoop_stop (fuel : Nat) (h : s.At fs t)
    (hbalanced : Balanced (setRootColor .black t) .black n) (hfits : Fits fs .black n)
    (hstop : addr NIL t = s.links.root ∨ rootColor t = .red) :
    ∃ s', removeFixupLoop (fuel + 1) s (addr NIL t) = some s' ∧
      Repaired s s' (entries (plug fs t)) := by
  obtain ⟨s', hs', hat, hsame⟩ := h.blackenHere
  obtain ⟨m, hm⟩ := hfits.plug hbalanced
  refine ⟨s', ?_, ⟨_, m, hat.top, hm, ?_⟩, hsame⟩
  · rw [removeFixupLoop]
    split_ifs with hroot
    · exact hs'
    · have hred := hstop.resolve_left hroot
      simp only [h.loadColor, hred, Option.bind_eq_bind, Option.bind_some, reduceCtorEq, if_false,
        hs']
  · exact entries_plug_congr (entries_setRootColor _ _) fs

theorem removeFixupLoop_round (h : Hangs s (f :: fs) t) (ht : Balanced t .black n)
    (hfits : Fits (f :: fs) .black (n + 1)) :
    removeFixupLoop (fuel + 1) s (addr NIL t) =
      (removeFixupHalf f.dir s (addr NIL t)).bind fun (s', p) => removeFixupLoop fuel s' p := by
  have hsibling : f.sibling ≠ .nil := by
    intro hnil
    cases hfits with
    | red _ hb _ => rw [hnil] at hb; cases hb
    | black _ hb _ => rw [hnil] at hb; cases hb
  obtain ⟨l, hl, hside⟩ := h.is_left hsibling
  simp only [removeFixupLoop, h.stands.addr_ne_root, if_false, h.stands.loadColor, ht.rootColor_eq,
    if_true, h.loadParent, hl, hside, Option.bind_eq_bind, Option.bind_some]
  cases f.dir <;> rfl

theorem removeFixupLoop_spec (fuel : Nat) (h : Hangs s fs t) (hlacks : Lacks fuel fs t) :
    ∃ s', removeFixupLoop fuel s (addr NIL t) = some s' ∧
      Repaired s s' (entries (plug fs t)) := by
  induction fuel generalizing s fs t with
  | zero =>
      rcases hlacks with ⟨_, _, _, hfuel⟩ | ⟨_, _, _, _, hfuel⟩
      · exact absurd hfuel (Nat.not_lt_zero _)
      · exact absurd hfuel (Nat.not_lt_zero _)
  | succ fuel ih =>
      rcases hlacks with ⟨n, ht, hfits, hfuel⟩ | ⟨n, hred, hbalanced, hfits, _⟩
      · cases fs with
        | nil =>
            obtain ⟨m, hm⟩ := ht.setRootColor_black
            exact removeFixupLoop_stop fuel h.stands hm .top (.inl h.stands.root.symm)
        | cons f fs =>
            have hfuel' : fs.length < fuel := by simpa using hfuel
            obtain ⟨s₁, p, hs₁, hround, hsame₁⟩ := removeFixupHalf_spec h ht hfits hfuel'
            rw [removeFixupLoop_round h ht hfits, hs₁, Option.bind_some]
            cases hround with
            | more gs u hp hu hlacks hnodes =>
                obtain ⟨s', hs', htree, hsame⟩ := ih hu hlacks
                rw [hnodes] at htree
                exact ⟨s', hp ▸ hs', htree, hsame₁.trans hsame⟩
            | done u m hp hu hm hnodes =>
                obtain ⟨fuel, rfl⟩ := Nat.exists_eq_succ_of_ne_zero (Nat.ne_zero_of_lt hfuel')
                obtain ⟨k, hk⟩ := hm.setRootColor_black
                obtain ⟨s', hs', htree, hsame⟩ :=
                  removeFixupLoop_stop fuel hu hk .top (.inl hu.root.symm)
                rw [plug, hnodes] at htree
                exact ⟨s', by rw [hp, hu.root]; exact hs', htree, hsame₁.trans hsame⟩
      · exact removeFixupLoop_stop fuel h.stands hbalanced hfits (.inr hred)

/-! The leftmost node of a tree. -/

/-- The way to the leftmost node of the tree with the root `x`, and what it holds on the
right. -/
def firstNode : Shape κ β → Node κ β → Shape κ β → Around κ β → Around κ β × Node κ β × Shape κ β
  | .nil, x, right, fs => (fs, x, right)
  | .node y l r, x, right, fs => firstNode l y r (⟨.left, x, right⟩ :: fs)

theorem firstNode_spec (left : Shape κ β) (x : Node κ β) (right : Shape κ β) (fs : Around κ β) :
    ∃ inner y rest, firstNode left x right fs = (inner ++ fs, y, rest) ∧
      plug inner (.node y .nil rest) = .node x left right ∧ ∀ f ∈ inner, f.dir = .left := by
  induction left generalizing x right fs with
  | nil => exact ⟨[], x, right, rfl, rfl, by simp⟩
  | node y l r ihLeft _ =>
      obtain ⟨inner, z, rest, hfirst, hplug, hdir⟩ := ihLeft y r (⟨.left, x, right⟩ :: fs)
      refine ⟨inner ++ [⟨.left, x, right⟩], z, rest, ?_, ?_, ?_⟩
      · rw [firstNode, hfirst, List.append_assoc, List.singleton_append]
      · rw [plug_append, hplug]
        rfl
      · intro f hf
        rcases List.mem_append.mp hf with hf | hf
        · exact hdir f hf
        · rw [List.mem_singleton.mp hf]

theorem leftmost_spec (left : Shape κ β) (x : Node κ β) (right : Shape κ β)
    (h : s.At fs (.node x left right)) (hfuel : (addrs left).length < fuel) :
    s.leftmost fuel x.addr = some (firstNode left x right fs).2.1.addr := by
  induction left generalizing x right fs fuel with
  | nil =>
      cases fuel with
      | zero => cases hfuel
      | succ fuel =>
          have hleft := At.loadChild (d := .left) h
          simp only [leftmost, hleft, addr, Option.bind_eq_bind, Option.bind_some, if_true]
          rfl
  | node y l r ihLeft _ =>
      cases fuel with
      | zero => cases hfuel
      | succ fuel =>
          rw [length_addrs_node] at hfuel
          have hleft := At.loadChild (d := .left) h
          have hdown := At.down (d := .left) h
          have hnil := At.ne_nil (d := .left) hdown
          simp only [leftmost, hleft, addr, Option.bind_eq_bind, Option.bind_some, hnil, if_false]
          exact ihLeft y r hdown (by omega)

/-! Taking a node out. -/

theorem spliceOut_child {y : Node κ β} (h : s.At fs (join d y t .nil)) (hd : d = .left → t ≠ .nil) :
    ∃ l r, s.loadChild .left y.addr = some l ∧ s.loadChild .right y.addr = some r ∧
      (if l = NIL then r else l) = addr NIL t := by
  cases d with
  | left =>
      refine ⟨_, _, h.loadChild, h.loadOther, if_neg ?_⟩
      cases t with
      | nil => exact absurd rfl (hd rfl)
      | node x left right => exact At.ne_nil (d := .left) h.down
  | right => exact ⟨_, _, h.loadOther, h.loadChild, if_pos rfl⟩

theorem spliceOut_spec {y : Node κ β} (h : s.At fs (join d y t .nil)) (hd : d = .left → t ≠ .nil) :
    ∃ s', s.spliceOut y.addr = some (s', addr NIL t) ∧ Hangs s' fs t ∧ s'.live = s.live ∧
      s'.fresh = s.fresh ∧ s'.links.color = s.links.color ∧ s'.links.data = s.links.data := by
  obtain ⟨l, r, hl, hr, hx⟩ := spliceOut_child h hd
  have hfocus := h.focus
  rw [addr_join] at hfocus
  have htop : decide (above NIL fs = NIL) = true ↔ fs = [] := by
    rw [decide_eq_true_iff, h.above_eq_nil_iff]
  have hsplice := hfocus.splice htop
  have hnear := (rep_join _ _ _ _).mp hfocus.tree
  rw [hnear.2.2.2.1.addr_eq] at hsplice
  have hyx : y.addr ≠ addr NIL t := by
    intro heq
    have hmem : addr NIL t ∈ addrs t := by
      rw [← hnear.2.2.2.1.addr_eq]
      exact hnear.2.2.2.1.root_mem (by rw [hnear.2.2.2.1.addr_eq, ← heq]; exact h.ne_nil)
    have hnodup := (addrs_join_perm d y t .nil).nodup_iff.mp (List.nodup_append.mp hfocus.nodup).1
    exact (List.nodup_cons.mp hnodup).1 (List.mem_append_left _ (heq ▸ hmem))
  have hparent : (s.links.setParent (addr NIL t) (above NIL fs)).parent y.addr = above NIL fs :=
    (if_neg hyx).trans hnear.2.2.1.parent
  have hhang := hang_eq (s := { s with links := s.links.setParent (addr NIL t) (above NIL fs) })
    (t := addr NIL t) h.live_node (by rw [hparent]; exact h.above_live)
  simp only [hparent] at hhang
  let links := (s.links.setParent (addr NIL t) (above NIL fs)).hang (above NIL fs = NIL)
    (above NIL fs) y.addr (addr NIL t)
  refine ⟨{ s with links := links }, ?_, ⟨⟨hsplice, ?_, ?_⟩, ?_⟩, rfl, rfl, ?_, ?_⟩
  · have hlive := h.down.live_addr
    simp only [spliceOut, hl, hr, h.loadParent, Option.bind_eq_bind, Option.bind_some]
    split_ifs at hx ⊢ with hleft <;>
      simp only [hx, storeParent, hlive, if_true, Option.bind_some, hhang] <;> rfl
  · intro a ha
    apply h.live
    rw [List.mem_append] at ha ⊢
    rw [mem_addrs_join]
    tauto
  · refine h.sentinel.setLinks ?_ fun e => ?_
    · rw [hang_color]
      rfl
    · rw [hang_child, if_neg]
      · rfl
      · rintro ⟨hfalse, hnil, -⟩
        rw [← hnil] at hfalse
        simp at hfalse
  · show (Links.hang _ _ _ _ _).parent _ = _
    rw [hang_parent]
    exact if_pos rfl
  · show (Links.hang _ _ _ _ _).color = _
    rw [hang_color]
    rfl
  · show (Links.hang _ _ _ _ _).data = _
    rw [hang_data]
    rfl

/-- A node further up gets another value. -/
theorem Hangs.storeValue {inner : Around κ β} (h : Hangs s (inner ++ f :: fs) t) (v : β) :
    ∃ s', s.storeValue f.cell.addr v = some s' ∧
      Hangs s' (inner ++ ⟨f.dir, { f.cell with data := (f.cell.data.1, v) }, f.sibling⟩ :: fs) t ∧
      Relinked s s' ∧ s'.links.color = s.links.color := by
  obtain ⟨s', hs', hat, hsame⟩ := h.stands.upThrough.up.storeValue v
  have hlinks := hs'
  rw [RbTree.storeValue, if_pos h.stands.upThrough.up.live_node] at hlinks
  obtain rfl := Option.some.inj hlinks
  refine ⟨_, hs', ⟨hat.down.downThrough, ?_⟩, hsame, rfl⟩
  have habove : above NIL (inner ++ ⟨f.dir, { f.cell with data := (f.cell.data.1, v) },
      f.sibling⟩ :: fs) = above NIL (inner ++ f :: fs) := by
    cases inner <;> rfl
  rw [habove]
  exact h.parent

theorem At.delete (h : s.At fs t) {y : Nat} (hy : y ∉ addrs t ++ contextAddrs fs) (hnil : y ≠ NIL)
    (hlive : s.live y = true) : ∃ s', s.delete y = some s' ∧ s'.At fs t := by
  refine ⟨_, if_pos hlive, ⟨h.focus, ?_, ⟨?_, ?_, h.sentinel.color, h.sentinel.child, ?_⟩⟩⟩
  · intro a ha
    have hay : a ≠ y := by
      rintro rfl
      exact hy ha
    simp only [hay, if_false]
    exact h.live a ha
  · simp only [hnil.symm, if_false]
    exact h.sentinel.nil
  · simp only
    split_ifs
    · rfl
    · exact h.sentinel.null
  · intro a ha
    simp only at ha
    split_ifs at ha
    exact h.sentinel.fresh a ha

/-- The repair that follows the removal of a node of the colour `c`. -/
theorem fixup_spec {y : Node κ β} {gs : Around κ β} (h : Hangs s gs t)
    (hbalanced : Balanced (plug gs (join d y t .nil)) .black m) (hfuel : gs.length < s.fresh) :
    ∃ s', (if y.color = .black then remove_fixup s (addr NIL t) else some s) = some s' ∧
      Repaired s s' (entries (plug gs t)) := by
  obtain ⟨c, n, hjoin, hfits⟩ := hbalanced.of_plug
  cases hcolor : y.color with
  | red =>
      obtain ⟨rfl, ht, -⟩ := hjoin.of_join_red hcolor
      obtain ⟨m, hm⟩ := hfits.black_of_red.plug ht
      exact ⟨s, if_neg (by decide), ⟨_, m, h.stands.top, hm, rfl⟩, rfl, rfl, rfl⟩
  | black =>
      obtain ⟨n, c₁, c₂, rfl, rfl, ht, hnil⟩ := hjoin.of_join_black hcolor
      rw [if_pos rfl]
      apply removeFixupLoop_spec _ h
      cases hroot : rootColor t with
      | black => exact .inl ⟨n, ht.black_of_rootColor hroot, hfits, hfuel⟩
      | red =>
          exact .inr ⟨n + 1, hroot, (ht.red_of_rootColor hroot).setRootColor_red, hfits,
            Nat.zero_lt_of_lt hfuel⟩

/-- A valid tree in memory that holds the entries `nodes`. -/
def Holding (s : RbTree κ β) (nodes : List (Nat × κ × β)) : Prop :=
  ∃ t m, s.At [] t ∧ Balanced t .black m ∧ entries t = nodes

theorem delete_spec {y : Node κ β} {gs : Around κ β} (h : Hangs s gs t)
    (hbalanced : Balanced (plug gs (join d y t .nil)) .black m)
    (hy : s.live y.addr = true) (hnil : y.addr ≠ NIL)
    (hout : y.addr ∉ addrs t ++ contextAddrs gs) :
    ∃ s₁ s', (if y.color = .black then remove_fixup s (addr NIL t) else some s) = some s₁ ∧
      s₁.delete y.addr = some s' ∧ s'.Holding (entries (plug gs t)) := by
  have hlength := h.stands.length_le
  have hcontext := length_le_contextAddrs gs
  rw [List.length_append] at hlength
  obtain ⟨s₁, hs₁, ⟨t', m', hat, ht', hentries⟩, hsame⟩ := fixup_spec h hbalanced (by omega)
  have haddrs : addrs t' = addrs (plug gs t) := congrArg (List.map Prod.fst) hentries
  obtain ⟨s', hs', hat'⟩ := hat.delete (y := y.addr)
    (by rwa [haddrs, contextAddrs, List.append_nil, (addrs_plug_perm gs t).mem_iff]) hnil
    (by rwa [hsame.live])
  exact ⟨s₁, s', hs₁, hs', t', m', hat', ht', hentries⟩

theorem At.not_mem_of_join {y : Node κ β} (h : s.At fs (join d y t .nil)) :
    y.addr ∉ addrs t ++ contextAddrs fs := by
  have hperm := (addrs_join_perm d y t .nil).append_right (contextAddrs fs)
  have hnodup := List.nodup_cons.mp (hperm.nodup_iff.mp h.focus.nodup)
  simpa [addrs, entries] using hnodup.1

/-- The node in which the search ends has at most one child, and goes itself. -/
theorem unlink_self {y : Node κ β} (h : s.At fs (join d y t .nil)) (hd : d = .left → t ≠ .nil)
    (hbalanced : Balanced (plug fs (join d y t .nil)) .black m) :
    ∃ s', s.unlink y.addr y.addr = some s' ∧ s'.Holding (entries (plug fs t)) := by
  obtain ⟨s₁, hs₁, h₁, hlive₁, -, hcolor₁, -⟩ := spliceOut_spec h hd
  have hcolor : s₁.links.color y.addr = y.color := by
    rw [hcolor₁]
    exact ((rep_join _ _ _ _).mp h.focus.tree).2.2.1.color
  have hlive : s₁.live y.addr = true := by
    rw [hlive₁]
    exact h.live_node
  obtain ⟨s₂, s', hs₂, hs', hholding⟩ :=
    delete_spec h₁ hbalanced hlive h.ne_nil h.not_mem_of_join
  refine ⟨s', ?_, hholding⟩
  simp only [unlink, hs₁, loadColor, hlive, hcolor, if_true, Option.bind_eq_bind, Option.bind_some]
  split_ifs at hs₂ ⊢ with hblack
  · rw [hs₂, Option.bind_some, hs']
  · rw [Option.some.inj hs₂, hs']

/-- The next node in order has at most one child: its value is kept, and it goes. -/
theorem unlink_next {y : Node κ β} {inner : Around κ β}
    (h : s.At (inner ++ f :: fs) (join d y t .nil)) (hd : d = .left → t ≠ .nil)
    (hbalanced : Balanced (plug (inner ++ f :: fs) (join d y t .nil)) .black m) :
    ∃ s', s.unlink f.cell.addr y.addr = some s' ∧ s'.Holding (entries (plug
      (inner ++ ⟨f.dir, { f.cell with data := (f.cell.data.1, y.data.2) }, f.sibling⟩ :: fs) t)) := by
  obtain ⟨s₁, hs₁, h₁, hlive₁, -, hcolor₁, hdata₁⟩ := spliceOut_spec h hd
  have hy := (rep_join _ _ _ _).mp h.focus.tree
  have hlive : s₁.live y.addr = true := by
    rw [hlive₁]
    exact h.live_node
  have hvalue : s₁.loadValue y.addr = some y.data.2 := by
    rw [RbTree.loadValue, if_pos hlive, hdata₁, hy.2.2.1.data]
  have hne : y.addr ≠ f.cell.addr := by
    have hf : f.cell.addr ∈ contextAddrs (inner ++ f :: fs) := by
      simp [contextAddrs_append, contextAddrs]
    intro heq
    exact h.not_mem_of_join (heq ▸ List.mem_append_right _ hf)
  obtain ⟨s₂, hs₂, h₂, hsame₂, hcolor₂⟩ := h₁.storeValue y.data.2
  have hlive' : s₂.live y.addr = true := by rwa [hsame₂.live]
  have hcolor : s₂.links.color y.addr = y.color := by
    rw [hcolor₂, hcolor₁, hy.2.2.1.color]
  have hout : y.addr ∉ addrs t ++ contextAddrs (inner ++
      ⟨f.dir, { f.cell with data := (f.cell.data.1, y.data.2) }, f.sibling⟩ :: fs) := by
    have hmem := h.not_mem_of_join
    rw [contextAddrs_append, contextAddrs] at hmem ⊢
    exact hmem
  obtain ⟨m', hbalanced'⟩ := Balanced.plug_recell
    (x := { f.cell with data := (f.cell.data.1, y.data.2) }) rfl hbalanced
  obtain ⟨s₃, s', hs₃, hs', hholding⟩ := delete_spec h₂ hbalanced' hlive' h.ne_nil hout
  refine ⟨s', ?_, hholding⟩
  simp only [unlink, hs₁, hne, if_false, hvalue, hs₂, loadColor, hlive', hcolor, if_true,
    Option.bind_eq_bind, Option.bind_some]
  split_ifs at hs₃ ⊢ with hblack
  · rw [hs₃, Option.bind_some, hs']
  · rw [Option.some.inj hs₃, hs']

theorem contents_cons {t' : Shape κ β} (before after : List (Nat × κ × β)) {a : Nat × κ × β}
    (ht : entries t = before ++ a :: after) (ht' : entries t' = before ++ after) :
    contents t = a.2 ::ₘ contents t' := by
  rw [contents, contents, ht, ht', Multiset.cons_coe, Multiset.coe_eq_coe, List.map_append,
    List.map_append, List.map_cons]
  exact List.perm_middle

/-! The search for the key. -/

variable [LinearOrder κ]

/-- The place where the search of `remove` for the key `k` stops. -/
def search (k : κ) : Shape κ β → Around κ β → Around κ β × Shape κ β
  | .nil, fs => (fs, .nil)
  | .node x left right, fs =>
      if k < x.data.1 then search k left (⟨.left, x, right⟩ :: fs)
      else if x.data.1 < k then search k right (⟨.right, x, left⟩ :: fs)
      else (fs, .node x left right)

theorem plug_search (k : κ) (t : Shape κ β) (fs : Around κ β) :
    plug (search k t fs).1 (search k t fs).2 = plug fs t := by
  induction t generalizing fs with
  | nil => rfl
  | node x left right ihLeft ihRight =>
      rw [search]
      split_ifs
      · rw [ihLeft]
        rfl
      · rw [ihRight]
        rfl
      · rfl

theorem locate_spec (fuel : Nat) (h : s.At fs t) (k : κ) (hfuel : (addrs t).length < fuel) :
    s.locate k fuel (addr NIL t) = some (addr NIL (search k t fs).2) ∧
      s.At (search k t fs).1 (search k t fs).2 := by
  induction t generalizing fs fuel with
  | nil =>
      cases fuel with
      | zero => cases hfuel
      | succ fuel => exact ⟨if_pos rfl, h⟩
  | node x left right ihLeft ihRight =>
      rw [length_addrs_node] at hfuel
      cases fuel with
      | zero => cases hfuel
      | succ fuel =>
          have hnil : addr NIL (.node x left right) ≠ NIL := At.ne_nil (d := .left) h
          have hkey : s.loadKey (addr NIL (.node x left right)) = some x.data.1 :=
            At.loadKey (d := .left) h
          have hleft : s.loadChild .left (addr NIL (.node x left right)) = some (addr NIL left) :=
            At.loadChild (d := .left) h
          have hright : s.loadChild .right (addr NIL (.node x left right)) = some (addr NIL right) :=
            At.loadChild (d := .right) h
          simp only [locate, hnil, if_false, hkey, Option.bind_eq_bind, Option.bind_some, search]
          split_ifs
          · rw [hleft]
            exact ihLeft _ (At.down (d := .left) h) (by omega)
          · rw [hright]
            exact ihRight _ (At.down (d := .right) h) (by omega)
          · exact ⟨rfl, h⟩

theorem search_key {k : κ} {x : Node κ β} {left right : Shape κ β} {gs : Around κ β}
    (h : search k t fs = (gs, .node x left right)) : x.data.1 = k := by
  induction t generalizing fs with
  | nil => simp [search] at h
  | node y l r ihLeft ihRight =>
      rw [search] at h
      split_ifs at h with hlt hgt
      · exact ihLeft h
      · exact ihRight h
      · obtain ⟨-, rfl, -, -⟩ : fs = gs ∧ y = x ∧ l = left ∧ r = right := by simpa using h
        exact le_antisymm (not_lt.mp hlt) (not_lt.mp hgt)

/-! What `remove` does, by the place where the search stops. -/

theorem At.locate (h : s.At [] t) (k : κ) :
    s.locate k s.fresh s.links.root = some (addr NIL (search k t []).2) ∧
      s.At (search k t []).1 (search k t []).2 := by
  have hlength := h.length_le
  rw [List.length_append] at hlength
  rw [h.root]
  exact locate_spec _ h k (by omega)

/-- Without the key, `NIL->right` is taken for a node. -/
theorem remove_absent {k : κ} {gs : Around κ β} (h : s.At [] t)
    (hsearch : search k t [] = (gs, .nil)) : s.remove k = none := by
  obtain ⟨hlocate, -⟩ := h.locate k
  rw [hsearch] at hlocate
  have hchild : ∀ d, s.loadChild d NIL = some nullptr := fun d => by
    rw [loadChild, if_pos h.sentinel.nil, h.sentinel.child]
  have hnull : s.loadChild .left nullptr = none := by
    rw [loadChild, h.sentinel.null]
    rfl
  have hleftmost : s.leftmost s.fresh nullptr = none := by
    cases s.fresh with
    | zero => rfl
    | succ fuel => simp only [leftmost, hnull, Option.bind_eq_bind, Option.bind_none]
  simp only [remove, hlocate, addr, hchild, Option.bind_eq_bind, Option.bind_some, hleftmost]
  rfl

theorem remove_one_child {k : κ} {gs : Around κ β} {x : Node κ β} {left right : Shape κ β}
    (h : s.At [] t) (ht : Balanced t .black m)
    (hsearch : search k t [] = (gs, .node x left right)) (hchild : left = .nil ∨ right = .nil) :
    ∃ s', s.remove k = some s' ∧
      s'.Holding (beforeHole gs ++ (entries left ++ entries right) ++ afterHole gs) := by
  obtain ⟨hlocate, hat⟩ := h.locate k
  have hplug := plug_search k t []
  rw [hsearch] at hlocate hat hplug
  rw [plug.eq_1] at hplug
  rw [← hplug] at ht
  have hleft := At.loadChild (d := .left) hat
  have hright := At.loadChild (d := .right) hat
  have hone : addr NIL left = NIL ∨ addr NIL right = NIL := by
    rcases hchild with rfl | rfl
    · exact .inl rfl
    · exact .inr rfl
  have hremove : s.remove k = s.unlink x.addr x.addr := by
    simp only [remove, hlocate, addr_node, hleft, hright, hone, if_true, Option.bind_eq_bind,
      Option.bind_some]
  rw [hremove]
  cases hl : left with
  | nil =>
      subst hl
      obtain ⟨s', hs', hholding⟩ := unlink_self (d := .right) hat (by simp) ht
      rw [entries_plug] at hholding
      exact ⟨s', hs', hholding⟩
  | node y l r =>
      obtain rfl := hchild.resolve_left (by rw [hl]; simp)
      rw [hl] at hat ht
      obtain ⟨s', hs', hholding⟩ := unlink_self (d := .left) hat (by simp) ht
      rw [entries_plug, ← List.append_nil (entries (.node y l r))] at hholding
      exact ⟨s', hs', hholding⟩

theorem remove_two_children {k : κ} {gs : Around κ β} {x : Node κ β} {left right : Shape κ β}
    (h : s.At [] t) (ht : Balanced t .black m)
    (hsearch : search k t [] = (gs, .node x left right)) (hleft : left ≠ .nil)
    (hright : right ≠ .nil) :
    ∃ s' y rest, entries right = entry y :: rest ∧ s.remove k = some s' ∧
      s'.Holding (beforeHole gs ++ (entries left ++ (x.addr, x.data.1, y.data.2) :: rest) ++
        afterHole gs) := by
  obtain ⟨hlocate, hat⟩ := h.locate k
  have hplug := plug_search k t []
  rw [hsearch] at hlocate hat hplug
  rw [plug.eq_1] at hplug
  rw [← hplug] at ht
  obtain ⟨z, l, r, rfl⟩ : ∃ z l r, right = .node z l r := by
    cases right with
    | nil => exact absurd rfl hright
    | node z l r => exact ⟨z, l, r, rfl⟩
  have hloadLeft := At.loadChild (d := .left) hat
  have hloadRight := At.loadChild (d := .right) hat
  have hdown := At.down (d := .right) hat
  obtain ⟨inner, y, rest, hfirst, hinner, hdirs⟩ := firstNode_spec l z r (⟨.right, x, left⟩ :: gs)
  have hmost : s.leftmost s.fresh z.addr = _ := leftmost_spec l z r hdown (by
    have := hdown.length_le
    rw [List.length_append, length_addrs_node] at this
    omega)
  rw [hfirst] at hmost
  have hnil : addr NIL left ≠ NIL := by
    cases left with
    | nil => exact absurd rfl hleft
    | node w _ _ => exact At.ne_nil (d := .left) (At.down (d := .left) hat)
  have hremove : s.remove k = s.unlink x.addr y.addr := by
    have hzNil : z.addr ≠ NIL := At.ne_nil (d := .left) hdown
    simp only [remove, hlocate, addr_node, hloadLeft, hloadRight, hnil, hzNil, or_self, if_false,
      hmost, Option.bind_eq_bind, Option.bind_some]
  rw [← hinner] at hdown
  have hbalanced : Balanced (plug (inner ++ ⟨.right, x, left⟩ :: gs) (join .right y rest .nil))
      .black m := by
    have hinner' : plug inner (join .right y rest .nil) = .node z l r := hinner
    rw [plug_append, hinner']
    exact ht
  obtain ⟨s', hs', hholding⟩ := unlink_next (d := .right) hdown.downThrough (by simp) hbalanced
  have hentries : entries (.node z l r) = entry y :: (entries rest ++ afterHole inner) := by
    rw [← hinner, entries_plug, beforeHole_eq_nil hdirs]
    rfl
  refine ⟨s', y, _, hentries, hremove.trans hs', ?_⟩
  have hnodes : entries (plug (inner ++ ⟨.right, { x with data := (x.data.1, y.data.2) }, left⟩ ::
      gs) rest) = beforeHole gs ++ (entries left ++ (x.addr, x.data.1, y.data.2) ::
        (entries rest ++ afterHole inner)) ++ afterHole gs := by
    rw [plug_append, entries_plug, entries_plug, beforeHole_eq_nil hdirs]
    simp [beforeHole, afterHole, entry]
  rwa [← hnodes]

/-! Removal. -/

/-- The tree `t` in memory has lost one entry of the key `k`, or none if it has none. -/
def RemovesOne (s : RbTree κ β) (t : Shape κ β) (k : κ) : Prop :=
  ∃ s' t', s.remove k = some s' ∧ s'.Stands t' ∧
    ((∃ v, (k, v) ∈ contents t) → ∃ v, contents t = (k, v) ::ₘ contents t') ∧
    ((∀ v, (k, v) ∉ contents t) → t' = t)

/-- The tree has the key `k`, and the node where the search for it stops has at most one
child, or is followed by a node of the same key. -/
def RemoveKeeps (k : κ) (t : Shape κ β) : Prop :=
  match (search k t []).2 with
  | .nil => False
  | .node _ left right =>
      left = .nil ∨ right = .nil ∨ ∃ a ∈ (entries right).head?, a.2.1 = k

theorem Holding.stands {nodes : List (Nat × κ × β)} (h : s.Holding nodes) (hsorted : Sorted nodes) :
    ∃ t, s.Stands t ∧ entries t = nodes := by
  obtain ⟨t, m, hat, ht, rfl⟩ := h
  exact ⟨t, ⟨hat, ⟨m, ht⟩, hsorted⟩, rfl⟩

theorem Sorted.sublist {nodes nodes' : List (Nat × κ × β)} (h : Sorted nodes)
    (hkeys : (nodes'.map fun a => a.2.1).Sublist (nodes.map fun a => a.2.1)) : Sorted nodes' :=
  List.pairwise_map.mp ((List.pairwise_map.mpr h : (nodes.map fun a => a.2.1).Pairwise (· ≤ ·)).sublist
    hkeys)

theorem entries_search {k : κ} {gs : Around κ β} {x : Node κ β} {left right : Shape κ β}
    (hsearch : search k t [] = (gs, .node x left right)) :
    entries t = beforeHole gs ++ (entries left ++ entry x :: entries right) ++ afterHole gs := by
  have hplug := plug_search k t []
  rw [hsearch, plug.eq_1] at hplug
  rw [← hplug, entries_plug]
  rfl

theorem not_removesOne_of_absent {k : κ} {gs : Around κ β} (h : s.Stands t)
    (hsearch : search k t [] = (gs, .nil)) : ¬RemovesOne s t k := by
  rintro ⟨s', t', hs', -⟩
  rw [remove_absent h.at_root hsearch] at hs'
  cases hs'

theorem removesOne_of_cons {s' : RbTree κ β} {t' : Shape κ β} {k : κ} {v : β}
    (hs' : s.remove k = some s') (ht' : s'.Stands t')
    (hcontents : contents t = (k, v) ::ₘ contents t') : RemovesOne s t k := by
  refine ⟨s', t', hs', ht', fun _ => ⟨v, hcontents⟩, fun habsent => ?_⟩
  exact absurd (hcontents ▸ Multiset.mem_cons_self _ _) (habsent v)

theorem removesOne_of_one_child {k : κ} {gs : Around κ β} {x : Node κ β} {left right : Shape κ β}
    (h : s.Stands t) (hsearch : search k t [] = (gs, .node x left right))
    (hchild : left = .nil ∨ right = .nil) : RemovesOne s t k := by
  obtain ⟨hat, ⟨m, ht⟩, hsorted⟩ := h
  obtain ⟨s', hs', hholding⟩ := remove_one_child hat ht hsearch hchild
  have hentries := entries_search hsearch
  obtain ⟨t', hstands, ht'⟩ := hholding.stands (hsorted.sublist (by
    rw [hentries]
    simp))
  have hcontents : contents t = (entry x).2 ::ₘ contents t' :=
    contents_cons (beforeHole gs ++ entries left) (entries right ++ afterHole gs)
      (by simp [hentries]) (by simp [ht'])
  have hkey : (entry x).2 = (k, x.data.2) := Prod.ext (search_key hsearch) rfl
  exact removesOne_of_cons hs' hstands (hkey ▸ hcontents)

theorem removesOne_two_iff {k : κ} {gs : Around κ β} {x : Node κ β} {left right : Shape κ β}
    (h : s.Stands t) (hsearch : search k t [] = (gs, .node x left right)) (hleft : left ≠ .nil)
    (hright : right ≠ .nil) :
    RemovesOne s t k ↔ ∃ a ∈ (entries right).head?, a.2.1 = k := by
  obtain ⟨hat, ⟨m, ht⟩, hsorted⟩ := h
  obtain ⟨s', y, rest, hnext, hs', hholding⟩ := remove_two_children hat ht hsearch hleft hright
  have hentries := entries_search hsearch
  have hkey := search_key hsearch
  obtain ⟨t', hstands, ht'⟩ := hholding.stands (hsorted.sublist (by
    rw [hentries, hnext]
    simp [entry]))
  have hnodes : ∃ before after : List (Nat × κ × β),
      entries t = before ++ entry x :: entry y :: after ∧
        entries t' = before ++ (x.addr, k, y.data.2) :: after :=
    ⟨beforeHole gs ++ entries left, rest ++ afterHole gs, by simp [hentries, hnext],
      by simp [ht', hkey]⟩
  obtain ⟨before, after, hbefore, hafter⟩ := hnodes
  have hhead : (∃ a ∈ (entries right).head?, a.2.1 = k) ↔ y.data.1 = k := by
    simp [hnext, entry]
  have hx : (entry x).2 = (k, x.data.2) := Prod.ext hkey rfl
  rw [hhead]
  constructor
  · rintro ⟨s'', t'', hs'', hstands', hone, -⟩
    obtain rfl := Option.some.inj (hs'.symm.trans hs'')
    obtain rfl := hstands.at_root.unique hstands'.at_root
    have hmem : (k, x.data.2) ∈ contents t := by
      rw [← hx, contents, hbefore]
      exact List.mem_map_of_mem (by simp)
    obtain ⟨v, hv⟩ := hone ⟨_, hmem⟩
    have hcount := congrArg (fun m => (m.map Prod.fst).count k) hv
    by_contra hne
    simp [contents, hbefore, hafter, entry, hkey, hne] at hcount
  · intro hy
    have hcontents : contents t = (entry x).2 ::ₘ contents t' := by
      have hy' : (k, y.data.2) = (entry y).2 := Prod.ext hy.symm rfl
      simp only [contents, hbefore, hafter, List.map_append, List.map_cons, hy', Multiset.cons_coe]
      exact Multiset.coe_eq_coe.mpr List.perm_middle
    exact removesOne_of_cons hs' hstands (hx ▸ hcontents)

/-- The tree after the insertions of 2, 1 and 3, with ten times the key as the value. -/
def threeNodes : RbTree ℕ ℕ where
  links :=
    { root := 2
      parent := fun a => if a = 2 then NIL else if a = NIL then nullptr else 2
      child := fun d a =>
        if a = 2 then (if d = .left then 3 else 4) else if a = NIL then nullptr else NIL
      color := fun a => if a = 3 ∨ a = 4 then .red else .black
      data := fun a => if a = 2 then (2, 20) else if a = 3 then (1, 10) else (3, 30) }
  live := fun a => decide (NIL ≤ a ∧ a ≤ 4)
  fresh := 5

def threeNodesShape : Shape ℕ ℕ :=
  .node ⟨.black, 2, 2, 20⟩ (.node ⟨.red, 3, 1, 10⟩ .nil .nil) (.node ⟨.red, 4, 3, 30⟩ .nil .nil)

theorem stands_threeNodes : threeNodes.Stands threeNodesShape := by
  refine ⟨⟨⟨⟨rfl, rfl⟩, ?_, by decide⟩, by decide, ⟨rfl, rfl, rfl, fun _ => rfl, ?_⟩⟩,
    ⟨1, .black rfl (.red rfl .nil .nil) (.red rfl .nil .nil)⟩, by decide⟩
  · exact ⟨rfl, by decide, ⟨rfl, rfl, rfl⟩, ⟨rfl, by decide, ⟨rfl, rfl, rfl⟩, rfl, rfl⟩,
      ⟨rfl, by decide, ⟨rfl, rfl, rfl⟩, rfl, rfl⟩⟩
  · intro a ha
    have := of_decide_eq_true ha
    exact Nat.lt_succ_of_le this.2

end RbTree

end RebuildTheWheel.TinySTL
