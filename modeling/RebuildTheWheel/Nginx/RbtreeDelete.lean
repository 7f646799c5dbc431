import RebuildTheWheel.Data.ParentTree
import RebuildTheWheel.Nginx.RbtreeInsert

namespace RebuildTheWheel.Nginx

open Data Data.RedBlack Data.Links

namespace Rbtree

variable {κ : Type} {s : Rbtree κ} {top n fuel : Nat} {fs : Around κ} {t a b sibling : Shape κ}
  {d : Dir} {q w : Node κ} {f : Frame Nat κ}

/-! The loop of `ngx_rbtree_delete`. The place in view may be `sentinel`, whose parent field then
says where it is. -/

/-- The parent field of the root of `t`, of `sentinel` as well. -/
structure Hangs (s : Rbtree κ) (top : Nat) (fs : Around κ) (t : Shape κ) : Prop where
  stands : s.At top fs t
  parent : s.parent (addr sentinel t) = above top fs

theorem Hangs.of_node {x : Node κ} (h : s.At top fs (join d x a b)) : Hangs s top fs (join d x a b) := by
  refine ⟨h, ?_⟩
  rw [addr_join]
  exact ((rep_join _ _ _ _).mp h.focus.tree).2.2.1.parent

theorem Hangs.loadParent (h : Hangs s top (f :: fs) t) :
    s.loadParent (addr sentinel t) = some f.cell.addr := by
  rw [Rbtree.loadParent, if_neg h.stands.addr_ne_null, h.parent]
  rfl

theorem Hangs.relinked {s' : Rbtree κ} {fs' : Around κ} (h : Hangs s top (f :: fs) t)
    (hsame : KeepsParent s s') (hat : s'.At top (f' :: fs') t) (hf : f'.cell.addr = f.cell.addr) :
    Hangs s' top (f' :: fs') t := by
  refine ⟨hat, ?_⟩
  cases t with
  | nil => exact Eq.trans hsame (h.parent.trans hf.symm)
  | node x left right => exact (Hangs.of_node (d := .left) hat).parent

theorem Hangs.loadSibling (h : Hangs s top (⟨d, q, sibling⟩ :: fs) t) :
    s.loadChild d.other q.addr = some (addr sentinel sibling) :=
  h.stands.up.loadOther

/-- `w` is red: its black child on the inside becomes the sibling. -/
theorem turnSibling_spec (h : Hangs s top (⟨d, q, sibling⟩ :: fs) t)
    (hfits : Fits (⟨d, q, sibling⟩ :: fs) .black (n + 1)) :
    ∃ s' q' sibling' fs', turnSibling d s (addr sentinel t) (addr sentinel sibling) =
        some (s', addr sentinel sibling') ∧
      Hangs s' top (⟨d, q', sibling'⟩ :: fs') t ∧ q'.addr = q.addr ∧
      Fits (⟨d, q', sibling'⟩ :: fs') .black (n + 1) ∧ Balanced sibling' .black (n + 1) ∧
      (fs' = fs ∨ q'.color = .red) ∧
      entries (plug (⟨d, q', sibling'⟩ :: fs') t) = entries (plug (⟨d, q, sibling⟩ :: fs) t) ∧
      KeepsParent s s' := by
  have hcolor := h.stands.up.downOther.loadColor
  cases hsibling : rootColor sibling with
  | black =>
      rw [hsibling] at hcolor
      refine ⟨s, q, sibling, fs, ?_, h, rfl, hfits, ?_, .inl rfl, rfl, rfl⟩
      · simp only [turnSibling, hcolor, Option.bind_eq_bind, Option.bind_some, reduceCtorEq,
          if_false]
      · cases hfits with
        | red _ hb _ => exact hb
        | black _ hb _ => exact hb.black_of_rootColor hsibling
  | red =>
      rw [hsibling] at hcolor
      obtain ⟨hq, hred, hfs⟩ : q.color = .black ∧ Balanced sibling .red (n + 1) ∧
          Fits fs .black (n + 2) := by
        cases hfits with
        | red _ hb _ => rw [hb.rootColor_eq] at hsibling; cases hsibling
        | black hq hb hfs => exact ⟨hq, hsibling ▸ hb.rootColor_eq ▸ hb, hfs⟩
      obtain ⟨w, wl, wr, rfl, hw, hwl, hwr⟩ := hred.exists_join d
      obtain ⟨s₁, hs₁, hat₁, hsame₁⟩ := h.stands.up.downOther.storeColor .black
      have hat₁' := hat₁.up
      simp only [join_other] at hat₁'
      have h₁ := h.relinked hsame₁ hat₁'.down rfl
      obtain ⟨s₂, hs₂, hat₂, hsame₂⟩ := hat₁'.storeColor .red
      have h₂ := h₁.relinked hsame₂ hat₂.down rfl
      obtain ⟨s₃, hs₃, hat₃, hsame₃⟩ := hat₂.rotate
      have h₃ := h₂.relinked hsame₃ hat₃.down.down rfl
      refine ⟨s₃, q.paint .red, wl, ⟨d, w.paint .black, wr⟩ :: fs, ?_, h₃, rfl, ?_, hwl, .inr rfl,
        ?_, (hsame₁.trans hsame₂).trans hsame₃⟩
      · simp only [addr_join] at hcolor ⊢
        have hp₁ := h₁.loadParent
        have hp₂ := h₂.loadParent
        have hp₃ := h₃.loadParent
        have hw₃ := h₃.loadSibling
        simp only [Cell.paint_addr] at hp₁ hp₂ hs₃ hp₃ hw₃
        simp only [turnSibling, hcolor, Option.bind_eq_bind, Option.bind_some, if_true, hs₁, hp₁,
          hs₂, hp₂, hs₃, hp₃, hw₃]
      · exact .red rfl hwl (.black rfl hwr hfs)
      · rw [plug, plug, plug]
        apply entries_plug_congr
        simp only
        rw [entries_recolor, entries_join_congr d w (entries_recolor d q _ _ _) rfl,
          entries_rotate]

/-- One of the two children of `w` is red: it is brought to the outside. -/
theorem turnOuter_spec (h : Hangs s top (⟨d, q, join d w a b⟩ :: fs) t) (ha : Balanced a c n)
    (hb : Balanced b c' n) (hred : rootColor a = .red ∨ rootColor b = .red) :
    ∃ s' w' a' b' c'', turnOuter d s (addr sentinel t) w.addr = some (s', w'.addr) ∧
      Hangs s' top (⟨d, q, join d w' a' b'⟩ :: fs) t ∧ Balanced a' c'' n ∧ Balanced b' .red n ∧
      entries (join d w' a' b') = entries (join d w a b) ∧ KeepsParent s s' := by
  have hfar := h.stands.up.downOther.loadOther
  have hcolor := h.stands.up.downOther.downOther.loadColor
  cases hb' : rootColor b with
  | red =>
      rw [hb'] at hcolor
      refine ⟨s, w, a, b, c, ?_, h, ha, hb.red_of_rootColor hb', rfl, rfl⟩
      simp only [turnOuter, hfar, hcolor, Option.bind_eq_bind, Option.bind_some, reduceCtorEq,
        if_false]
  | black =>
      rw [hb'] at hcolor
      have hared : rootColor a = .red := by
        rcases hred with hred | hred
        · exact hred
        · rw [hb'] at hred
          cases hred
      obtain ⟨y, a₁, a₂, rfl, hy, ha₁, ha₂⟩ := (ha.red_of_rootColor hared).exists_join d
      have hnear := h.stands.up.downOther.loadChild
      obtain ⟨s₁, hs₁, hat₁, hsame₁⟩ := h.stands.up.downOther.down.storeColor .black
      obtain ⟨s₂, hs₂, hat₂, hsame₂⟩ := hat₁.up.storeColor .red
      simp only at hat₂
      rw [← join_other d (w.paint .red), ← join_other d (y.paint .black)] at hat₂
      obtain ⟨s₃, hs₃, hat₃, hsame₃⟩ := hat₂.rotate
      rw [join_other, join_other] at hat₃
      have hat' := hat₃.up
      simp only [join_other] at hat'
      have hsame := (hsame₁.trans hsame₂).trans hsame₃
      have h' := h.relinked hsame hat'.down rfl
      refine ⟨s₃, y.paint .black, a₁, join d (w.paint .red) a₂ b, .black, ?_, h', ha₁,
        ha₂.join_red rfl (hb.black_of_rootColor hb') d, ?_, hsame⟩
      · have hp := h'.loadParent
        have hw := h'.loadSibling
        simp only [addr_join, Cell.paint_addr] at hnear hs₃ hp hw
        simp only [turnOuter, hfar, hcolor, Option.bind_eq_bind, Option.bind_some, if_true, hnear,
          hs₁, hs₂, hs₃, hp, hw, Cell.paint_addr]
      · rw [← entries_rotate, entries_recolor]
        exact entries_join_congr _ _ (entries_recolor _ _ _ _ _) rfl

theorem turnParent_spec (h : Hangs s top (⟨d, q, join d w a b⟩ :: fs) t) (ht : Balanced t .black n)
    (ha : Balanced a c n) (hb : Balanced b .red n)
    (hfits : Fits (⟨d, q, sibling⟩ :: fs) .black (n + 1)) :
    ∃ s' t' m, turnParent d s (addr sentinel t) w.addr = some s' ∧ s'.At top [] t' ∧
      Balanced t' .black m ∧ entries t' = entries (plug (⟨d, q, join d w a b⟩ :: fs) t) := by
  have hq : s.loadColor q.addr = some q.color := h.stands.loadColor_above
  obtain ⟨s₁, hs₁, hat₁, hsame₁⟩ := h.stands.up.downOther.storeColor q.color
  have hat₁' := hat₁.up
  simp only [join_other] at hat₁'
  have h₁ := h.relinked hsame₁ hat₁'.down rfl
  obtain ⟨s₂, hs₂, hat₂, hsame₂⟩ := hat₁'.storeColor .black
  have h₂ := h₁.relinked hsame₂ hat₂.down rfl
  have hfar := hat₂.downOther.loadOther
  obtain ⟨s₃, hs₃, hat₃, hsame₃⟩ := hat₂.downOther.downOther.blackenHere
  have hat₃' := hat₃.up.up
  simp only [join_other] at hat₃'
  have hsame := (hsame₁.trans hsame₂).trans hsame₃
  have h₃ := h.relinked hsame hat₃'.down rfl
  obtain ⟨s', hs', hat', -⟩ := hat₃'.rotate
  have hinner : Balanced (join d (q.paint .black) t a) .black (n + 1) := ht.join_black rfl ha d
  have houter := hb.setRootColor_red
  obtain ⟨m, hm⟩ : ∃ m, Balanced (plug fs (join d (w.paint q.color)
      (join d (q.paint .black) t a) (setRootColor .black b))) .black m := by
    cases hfits with
    | red hcolor _ hfs =>
        exact hfs.plug (Balanced.join_red (x := w.paint q.color) hcolor hinner houter d)
    | black hcolor _ hfs =>
        exact hfs.plug (Balanced.join_black (x := w.paint q.color) hcolor hinner houter d)
  refine ⟨s', _, m, ?_, hat'.whole, hm, ?_⟩
  · have hp := h.loadParent
    have hp₁ := h₁.loadParent
    have hp₃ := h₃.loadParent
    simp only [Cell.paint_addr] at hp hp₁ hfar hp₃ hs'
    simp only [turnParent, hp, hq, hs₁, hp₁, hs₂, hfar, hs₃, hp₃, hs', Option.bind_eq_bind,
      Option.bind_some]
  · rw [plug]
    apply entries_plug_congr
    rw [entries_recolor, entries_join_congr d w (entries_recolor d q _ _ _)
      (entries_setRootColor _ _), entries_rotate]

/-- `t` is one black node short of what its place asks for, which the loop still has
`fuel` rounds to make up for; or it has a red root, which has only to be blackened. -/
def Lacks (fuel : Nat) (fs : Around κ) (t : Shape κ) : Prop :=
  (∃ n, Balanced t .black n ∧ Fits fs .black (n + 1) ∧ fs.length < fuel) ∨
    ∃ n, rootColor t = .red ∧ Balanced (setRootColor .black t) .black n ∧ Fits fs .black n ∧
      0 < fuel

/-- What one round of the loop leaves to do. -/
inductive Round (s' : Rbtree κ) (top p fuel : Nat) (nodes : List (Nat × κ)) : Prop where
  | more (gs : Around κ) (u : Shape κ) : p = addr sentinel u → Hangs s' top gs u → Lacks fuel gs u →
      entries (plug gs u) = nodes → Round s' top p fuel nodes
  | done (u : Shape κ) (m : Nat) : p = s'.root → s'.At top [] u → Balanced u .black m →
      entries u = nodes → Round s' top p fuel nodes

theorem deleteFixupHalf_spec (h : Hangs s top (⟨d, q, sibling⟩ :: fs) t) (ht : Balanced t .black n)
    (hfits : Fits (⟨d, q, sibling⟩ :: fs) .black (n + 1)) (hfuel : fs.length < fuel) :
    ∃ s' p, deleteFixupHalf d s (addr sentinel t) = some (s', p) ∧
      Round s' top p fuel (entries (plug (⟨d, q, sibling⟩ :: fs) t)) := by
  obtain ⟨s₁, q₁, sibling₁, fs₁, hs₁, h₁, hq₁, hfits₁, hsibling₁, hfs₁, hentries₁, hsame₁⟩ :=
    turnSibling_spec h hfits
  obtain ⟨w, a, b, c, c', rfl, hw, ha, hb⟩ := hsibling₁.exists_join_black d
  have hp := h.loadParent
  have hsib := h.loadSibling
  have hnear := h₁.stands.up.downOther.down.loadColor
  have hfar := h₁.stands.up.downOther.downOther.loadColor
  have hnearAddr := h₁.stands.up.downOther.loadChild
  have hfarAddr := h₁.stands.up.downOther.loadOther
  rw [addr_join] at hs₁
  by_cases hblack : rootColor a = .black ∧ rootColor b = .black
  · obtain ⟨s₂, hs₂, hat₂, hsame₂⟩ := h₁.stands.up.downOther.storeColor .red
    have hat₂' := hat₂.up
    simp only [join_other] at hat₂'
    have h₂ := h₁.relinked hsame₂ hat₂'.down rfl
    have hp₂ := h₂.loadParent
    simp only at hp₂
    refine ⟨s₂, q₁.addr, ?_, ?_⟩
    · simp only [deleteFixupHalf, hp, hsib, hs₁, hnearAddr, hnear, hfarAddr, hfar, hblack,
        and_self, if_true, hs₂, hp₂, Option.bind_eq_bind, Option.bind_some]
    · refine .more fs₁ _ (addr_join _ _ _ _ _).symm (.of_node hat₂') ?_ ?_
      · have hlower := ha.black_of_rootColor hblack.1 |>.join_red (x := w.paint .red) rfl
          (hb.black_of_rootColor hblack.2) d
        cases hfits₁ with
        | red hcolor _ hfs =>
            refine .inr ⟨n + 1, by rw [rootColor_join, hcolor], ?_, hfs.black_of_red,
              Nat.zero_lt_of_lt hfuel⟩
            rw [setRootColor_join]
            exact ht.join_black rfl hlower d
        | black hcolor _ hfs =>
            rcases hfs₁ with rfl | hred
            · exact .inl ⟨n + 1, ht.join_black hcolor hlower d, hfs, hfuel⟩
            · rw [hcolor] at hred
              cases hred
      · rw [← hentries₁, plug]
        apply entries_plug_congr
        exact entries_join_congr _ _ rfl (entries_recolor _ _ _ _ _)
  · have hred : rootColor a = .red ∨ rootColor b = .red := by
      cases ha' : rootColor a with
      | red => exact .inl rfl
      | black =>
          cases hb' : rootColor b with
          | red => exact .inr rfl
          | black => exact absurd ⟨ha', hb'⟩ hblack
    obtain ⟨s₂, w', a', b', c'', hs₂, h₂, ha', hb', hentries₂, hsame₂⟩ :=
      turnOuter_spec h₁ ha hb hred
    obtain ⟨s', t', m, hs', hat', ht', hentries'⟩ :=
      turnParent_spec h₂ ht ha' hb' hfits₁
    refine ⟨s', s'.root, ?_, .done t' m rfl hat' ht' ?_⟩
    · simp only [deleteFixupHalf, hp, hsib, hs₁, hnearAddr, hnear, hfarAddr, hfar, hblack,
        if_false, hs₂, hs', Option.bind_eq_bind, Option.bind_some]
    · rw [hentries', ← hentries₁, plug, plug]
      apply entries_plug_congr
      exact entries_join_congr _ _ rfl hentries₂

theorem Hangs.is_left (h : Hangs s top (f :: fs) t) (hsibling : f.sibling ≠ .nil) :
    ∃ l, s.loadChild .left f.cell.addr = some l ∧ (addr sentinel t = l ↔ f.dir = .left) := by
  by_cases hnil : addr sentinel t = sentinel
  · obtain ⟨d, q, sibling⟩ := f
    cases d with
    | left => exact ⟨_, h.stands.up.loadChild, by simp⟩
    | right =>
        refine ⟨_, h.loadSibling, ?_⟩
        cases sibling with
        | nil => exact absurd rfl hsibling
        | node x left right =>
            have hx := At.ne_sentinel (d := .left) h.stands.up.downOther
            simp only [hnil, reduceCtorEq, iff_false]
            exact hx.symm
  · exact h.stands.is_child hnil .left

theorem deleteFixup_stop (fuel : Nat) (h : s.At top fs t)
    (hbalanced : Balanced (setRootColor .black t) .black n) (hfits : Fits fs .black n)
    (hstop : addr sentinel t = s.root ∨ rootColor t = .red) :
    ∃ s', deleteFixup (fuel + 1) s (addr sentinel t) = some s' ∧
      s'.Holding (entries (plug fs t)) := by
  obtain ⟨s', hs', hat, -⟩ := h.blackenHere
  obtain ⟨m, hm⟩ := hfits.plug hbalanced
  refine ⟨s', ?_, top, _, m, hat.whole, hm, ?_⟩
  · rw [deleteFixup]
    split_ifs with hroot
    · exact hs'
    · have hred := hstop.resolve_left hroot
      simp only [h.loadColor, hred, Option.bind_eq_bind, Option.bind_some, reduceCtorEq, if_false,
        hs']
  · exact entries_plug_congr (entries_setRootColor _ _) fs

theorem deleteFixup_round (h : Hangs s top (f :: fs) t) (ht : Balanced t .black n)
    (hfits : Fits (f :: fs) .black (n + 1)) :
    deleteFixup (fuel + 1) s (addr sentinel t) =
      (deleteFixupHalf f.dir s (addr sentinel t)).bind fun (s', p) => deleteFixup fuel s' p := by
  have hsibling : f.sibling ≠ .nil := by
    intro hnil
    cases hfits with
    | red _ hb _ => rw [hnil] at hb; cases hb
    | black _ hb _ => rw [hnil] at hb; cases hb
  obtain ⟨l, hl, hside⟩ := h.is_left hsibling
  simp only [deleteFixup, h.stands.addr_ne_root, if_false, h.stands.loadColor, ht.rootColor_eq,
    if_true, h.loadParent, hl, hside, Option.bind_eq_bind, Option.bind_some]
  cases f.dir <;> rfl

theorem deleteFixup_spec (fuel : Nat) (h : Hangs s top fs t) (hlacks : Lacks fuel fs t) :
    ∃ s', deleteFixup fuel s (addr sentinel t) = some s' ∧
      s'.Holding (entries (plug fs t)) := by
  induction fuel generalizing s fs t with
  | zero =>
      rcases hlacks with ⟨_, _, _, hfuel⟩ | ⟨_, _, _, _, hfuel⟩
      · exact absurd hfuel (Nat.not_lt_zero _)
      · exact absurd hfuel (Nat.not_lt_zero _)
  | succ fuel ih =>
      rcases hlacks with ⟨n, ht, hfits, hfuel⟩ | ⟨n, hred, hbalanced, hfits, _⟩
      · cases fs with
        | nil =>
            obtain ⟨m, hm⟩ := ht.setRootColor_black
            exact deleteFixup_stop fuel h.stands hm .top (.inl h.stands.root.symm)
        | cons f fs =>
            have hfuel' : fs.length < fuel := by simpa using hfuel
            obtain ⟨s₁, p, hs₁, hround⟩ := deleteFixupHalf_spec h ht hfits hfuel'
            rw [deleteFixup_round h ht hfits, hs₁, Option.bind_some]
            cases hround with
            | more gs u hp hu hlacks hnodes =>
                obtain ⟨s', hs', hholding⟩ := ih hu hlacks
                exact ⟨s', hp ▸ hs', hnodes ▸ hholding⟩
            | done u m hp hu hm hnodes =>
                obtain ⟨fuel, rfl⟩ := Nat.exists_eq_succ_of_ne_zero (Nat.ne_zero_of_lt hfuel')
                obtain ⟨k, hk⟩ := hm.setRootColor_black
                obtain ⟨s', hs', hholding⟩ :=
                  deleteFixup_stop fuel hu hk .top (.inl hu.root.symm)
                rw [plug, hnodes] at hholding
                exact ⟨s', by rw [hp, hu.root]; exact hs', hholding⟩
      · exact deleteFixup_stop fuel h.stands hbalanced hfits (.inr hred)

/-! The node that leaves its place. -/

theorem min_spec (fuel : Nat) {x : Node κ} {left right : Shape κ}
    (h : s.At top fs (.node x left right)) (hfuel : (addrs left).length < fuel) :
    ∃ inner y rest, s.min fuel x.addr = some y.addr ∧
      plug inner (join .right y rest .nil) = .node x left right ∧ ∀ f ∈ inner, f.dir = .left := by
  induction left generalizing x right fs fuel with
  | nil =>
      obtain ⟨fuel, rfl⟩ := Nat.exists_eq_succ_of_ne_zero (Nat.ne_zero_of_lt hfuel)
      have hleft := At.loadChild (d := .left) h
      refine ⟨[], x, right, ?_, rfl, by simp⟩
      simp only [Rbtree.min, hleft, addr, Option.bind_eq_bind, Option.bind_some, ne_eq,
        not_true_eq_false, if_false]
  | node y l r ihLeft _ =>
      obtain ⟨fuel, rfl⟩ := Nat.exists_eq_succ_of_ne_zero (Nat.ne_zero_of_lt hfuel)
      rw [addrs_node, List.length_append, List.length_cons] at hfuel
      have hleft := At.loadChild (d := .left) h
      have hdown := At.down (d := .left) h
      have hne : y.addr ≠ sentinel := At.ne_sentinel (d := .left) hdown
      obtain ⟨inner, z, rest, hmin, hplug, hdir⟩ := ihLeft fuel hdown (by omega)
      refine ⟨inner ++ [⟨.left, x, right⟩], z, rest, ?_, ?_, ?_⟩
      · simp only [Rbtree.min, hleft, addr, Option.bind_eq_bind, Option.bind_some, ne_eq, hne,
          not_false_eq_true, if_true, hmin]
      · rw [plug_append, hplug]
        rfl
      · intro f hf
        rcases List.mem_append.mp hf with hf | hf
        · exact hdir f hf
        · rw [List.mem_singleton.mp hf]

theorem setParent_hang (s : Rbtree κ) (a v p old new : Nat) :
    Links.hang (s.setParent a v) false p old new = (Links.hang s false p old new).setParent a v := by
  have hleft : (s.setParent a v).child .left p = s.child .left p := rfl
  simp only [Links.hang, Bool.false_eq_true, if_false, hleft]
  split_ifs <;> rfl

/-- `subst` has at most one child, which gets its place. -/
theorem hangBelow_spec (h : s.At top (f :: fs) (join d q t .nil)) :
    hangBelow .left s q.addr (addr sentinel t) =
        some (Links.hang s false f.cell.addr q.addr (addr sentinel t)) ∧
      Hangs ((Links.hang s false f.cell.addr q.addr (addr sentinel t)).setParent (addr sentinel t)
        f.cell.addr) top (f :: fs) t := by
  have hroot : q.addr ≠ s.root := by
    rw [← addr_join sentinel d q t .nil]
    exact h.addr_ne_root
  have hside := h.child_iff hroot
  have hfocus := h.focus
  rw [addr_join] at hfocus
  have hsplice := hfocus.splice (show false = true ↔ f :: fs = [] by simp)
  rw [h.parts.2.2.1.addr_eq, setParent_hang] at hsplice
  refine ⟨hangBelow_eq .left _ h.node_ne_null hside.1 h.parts.2.1.parent hside.2.2, ⟨hsplice, ?_, ?_⟩,
    if_pos rfl⟩
  · intro a ha
    apply h.ne_null
    rw [List.mem_append] at ha ⊢
    rw [mem_addrs_join]
    tauto
  · exact (congrFun hang_color sentinel).trans h.black

theorem adopt_eq {y : Nat} (e : Dir) (hy : y ≠ NULL) (hchild : s.child e y ≠ NULL) :
    adopt e s y = some { s with
      parent := fun a => if a = s.child e y ∧ a ≠ sentinel then y else s.parent a } := by
  simp only [adopt, Rbtree.loadChild, if_neg hy, Option.bind_eq_bind, Option.bind_some]
  split_ifs with hne
  · have hparent : (fun a => if a = s.child e y then y else s.parent a) =
        fun a => if a = s.child e y ∧ a ≠ sentinel then y else s.parent a := by
      funext a
      by_cases ha : a = s.child e y
      · rw [if_pos ha, if_pos ⟨ha, ha ▸ hne⟩]
      · rw [if_neg ha, if_neg fun h => ha h.1]
    rw [storeParent, if_neg hchild, Links.setParent, hparent]
  · have hparent : (fun a => if a = s.child e y ∧ a ≠ sentinel then y else s.parent a) =
        s.parent := by
      funext a
      rw [if_neg]
      rintro ⟨rfl, ha⟩
      exact hne ha
    rw [hparent]

/-- The stores of `replace`, for a node `x` with the parent `p`. -/
theorem replace_eq {x y p : Nat} (hx : x ≠ NULL) (hy : y ≠ NULL) (hyx : y ≠ x)
    (hchild : ∀ e, s.child e x ≠ NULL) (hparent : s.parent x = p)
    (hp : x ≠ s.root → p ≠ NULL ∧ p ≠ y)
    (hside : x ≠ s.root → (x = s.child .left p ↔ x ≠ s.child .right p)) :
    ∃ s', s.replace x y = some s' ∧ s'.root = (if x = s.root then y else s.root) ∧
      (∀ e, s'.child e y = s.child e x) ∧
      (∀ e a, a ≠ y → s'.child e a = if x ≠ s.root ∧ a = p ∧ s.child e p = x then y else s.child e a) ∧
      (∀ a, s'.color a = if a = y then s.color x else s.color a) ∧ s'.data = s.data ∧
      ∀ a, s'.parent a = if (a = s.child .left x ∨ a = s.child .right x) ∧ a ≠ sentinel then y
        else if a = y then p else s.parent a := by
  let u := (((s.setChild .left y (s.child .left x)).setChild .right y (s.child .right x)).setParent
    y p).setColor y (s.color x)
  have huParent : u.parent x = p := (if_neg hyx.symm).trans hparent
  have huChild : ∀ e a, a ≠ y → u.child e a = s.child e a := by
    intro e a ha
    simp [u, Links.setChild, Links.setParent, Links.setColor, ha]
  have huChildY : ∀ e, u.child e y = s.child e x := by
    intro e
    cases e <;> simp [u, Links.setChild, Links.setParent, Links.setColor]
  have hhang : Rbtree.hang .left u x y = some (Links.hang u (x = s.root) p x y) :=
    hang_eq (s := u) .left y hx huParent (fun hroot => (hp hroot).1) fun hroot => by
      rw [huChild _ _ (hp hroot).2, huChild _ _ (hp hroot).2]
      exact hside hroot
  generalize hv : Links.hang u (x = s.root) p x y = v at hhang
  have hvChildY : ∀ e, v.child e y = s.child e x := by
    intro e
    rw [← hv, hang_child, if_neg, huChildY]
    rintro ⟨hroot, rfl, -⟩
    exact (hp (of_decide_eq_false hroot)).2 rfl
  have hreplace : s.replace x y = some { v with
      parent := fun a => if a = s.child .right x ∧ a ≠ sentinel then y
        else if a = s.child .left x ∧ a ≠ sentinel then y else v.parent a } := by
    have hright : (s.setChild .left y (s.child .left x)).child .right x = s.child .right x := by
      simp [Links.setChild]
    have hparentX : ((s.setChild .left y (s.child .left x)).setChild .right y
        (s.child .right x)).parent x = p := hparent
    have hadopt := adopt_eq (s := v) .left hy (by rw [hvChildY]; exact hchild .left)
    have hadopt' := adopt_eq (s := { v with
      parent := fun a => if a = v.child .left y ∧ a ≠ sentinel then y else v.parent a }) .right hy
      (by rw [hvChildY]; exact hchild .right)
    simp only [hvChildY] at hadopt hadopt'
    simp only [Rbtree.replace, Rbtree.loadChild, Rbtree.storeChild, Rbtree.loadParent, storeParent,
      Rbtree.loadColor, Rbtree.storeColor, if_neg hx, if_neg hy, Option.bind_eq_bind,
      Option.bind_some, hright, hparentX]
    change (Rbtree.hang .left u x y).bind _ = _
    rw [hhang, Option.bind_some, hadopt, Option.bind_some, hadopt']
  have hvParent : ∀ a, v.parent a = if a = y then p else s.parent a := by
    intro a
    rw [← hv, hang_parent]
    rfl
  refine ⟨_, hreplace, ?_, hvChildY, ?_, ?_, ?_, ?_⟩
  · simp only [← hv, hang_root, decide_eq_true_eq]
    rfl
  · intro e a ha
    simp only [← hv, hang_child, decide_eq_false_iff_not, huChild _ _ ha]
    by_cases hroot : x = s.root
    · rw [if_neg fun h => h.1 hroot, if_neg fun h => h.1 hroot]
    · have hdir : (e = .left ↔ x = s.child .left p) ↔ s.child e p = x := by
        cases e with
        | left => simp [eq_comm]
        | right => simpa [eq_comm] using not_congr (hside hroot)
      simp only [huChild _ _ (hp hroot).2, hdir, ne_eq]
  · intro a
    simp only [← hv, hang_color]
    rfl
  · simp only [← hv, hang_data]
    rfl
  · intro a
    simp only [hvParent]
    grind

/-- The same tree in both, but for the parents of the children of `x`. -/
structure SameButChildren (s u : Rbtree κ) (x : Nat) : Prop where
  root : u.root = s.root
  child : u.child = s.child
  color : u.color = s.color
  data : u.data = s.data
  parent : ∀ a, a ≠ sentinel → (∀ e, a ≠ s.child e x) → u.parent a = s.parent a

theorem replace_spec {u : Rbtree κ} {gs : Around κ} {x y : Node κ} {near far : Shape κ}
    (h : s.At top gs (join d x near far)) (hu : SameButChildren s u x.addr) (hyNull : y.addr ≠ NULL)
    (hyNil : y.addr ≠ sentinel) (hy : y.addr ∉ addrs near ++ addrs far ++ contextAddrs gs)
    (hyx : y.addr ≠ x.addr) (hcolor : y.color = x.color) (hdata : y.data = s.data y.addr) :
    ∃ s', u.replace x.addr y.addr = some s' ∧ s'.At top gs (join d y near far) ∧
      s'.parent sentinel = u.parent sentinel := by
  have hfocus := h.focus
  rw [addr_join] at hfocus
  obtain ⟨hxNil, hx, hnear, hfar⟩ := h.parts
  have hmem : ∀ e, s.child e x.addr ≠ sentinel → s.child e x.addr ∈ addrs near ++ addrs far :=
    fun e he => hfocus.child_mem he
  have hnodup := List.nodup_cons.mp hfocus.nodup_parts
  have hxChild : ∀ e, x.addr ≠ s.child e x.addr := by
    intro e heq
    exact hnodup.1 (List.mem_append_left _ (heq ▸ hmem e (heq ▸ hxNil)))
  have hyChild : ∀ e, y.addr ≠ s.child e x.addr := by
    intro e heq
    exact hy (List.mem_append_left _ (heq ▸ hmem e (heq ▸ hyNil)))
  have hnull : ∀ e, s.child e x.addr ≠ NULL := by
    intro e
    by_cases he : s.child e x.addr = sentinel
    · rw [he]
      exact sentinel_ne
    · apply h.ne_null
      rw [List.mem_append, mem_addrs_join]
      exact .inl (.inr (List.mem_append.mp (hmem e he)))
  have hxParent : u.parent x.addr = above top gs := (hu.parent _ hxNil hxChild).trans hx.parent
  have hroot : x.addr = s.root ↔ gs = [] := by rw [← h.eq_root_iff, addr_join]
  have habove : ∀ f fs, gs = f :: fs → above top gs ∈ contextAddrs gs := by
    rintro f fs rfl
    simp [above, contextAddrs]
  have hyAbove : x.addr ≠ s.root → above top gs ≠ y.addr := by
    rintro hne heq
    cases gs with
    | nil => exact hne (hroot.mpr rfl)
    | cons f fs => exact hy (List.mem_append_right _ (heq ▸ habove f fs rfl))
  have hchildNull : ∀ e, u.child e x.addr ≠ NULL := by rwa [hu.child]
  obtain ⟨s', hs', hroot', hchildY, hchild, hcolors, hdatas, hparents⟩ :=
    replace_eq h.node_ne_null hyNull hyx hchildNull hxParent
      (fun hne => ⟨(h.child_iff (hu.root ▸ hne)).1, hyAbove (hu.root ▸ hne)⟩)
      (fun hne => by rw [hu.child]; exact (h.child_iff (hu.root ▸ hne)).2.2)
  simp only [hu.root, hu.child, hu.color, hu.data] at hroot' hchildY hchild hcolors hdatas hparents
  have hparentY : s'.parent y.addr = above top gs := by
    rw [hparents, if_neg, if_pos rfl]
    rintro ⟨heq | heq, -⟩
    · exact hyChild _ heq
    · exact hyChild _ heq
  have hother : ∀ a, a ≠ y.addr → (∀ e, a ≠ s.child e x.addr) → s'.parent a = u.parent a := by
    intro a hay hchildren
    rw [hparents, if_neg, if_neg hay]
    rintro ⟨heq | heq, -⟩
    · exact hchildren _ heq
    · exact hchildren _ heq
  have hplace : Replaces s s' sentinel (above top gs) gs x.addr y.addr := by
    refine ⟨?_, hchildY, ?_, ?_, ?_, ?_⟩
    · rw [hroot']
      split_ifs <;> simp_all
    · intro e he
      rw [hparents, if_pos]
      cases e <;> simp [he]
    · rintro f fs rfl
      have hne : x.addr ≠ s.root := fun heq => List.cons_ne_nil _ _ (hroot.mp heq)
      have hdir : s.child f.dir f.cell.addr = x.addr := hfocus.child_eq
      have hsibling : s.child f.dir.other f.cell.addr ≠ x.addr := (hfocus.ne_sibling hxNil).symm
      have hf : f.cell.addr ≠ y.addr := hyAbove hne
      have hchildren : ∀ e, f.cell.addr ≠ s.child e x.addr := by
        intro e heq
        have hfNil := h.up.ne_sentinel
        exact (List.nodup_append.mp hnodup.2).2.2 _ (hmem e (heq ▸ hfNil)) _
          (habove f fs rfl) heq.symm
      simp only [above]
      refine ⟨?_, ?_, ?_, by rw [hdatas], ?_⟩
      · rw [hchild _ _ hf, if_pos ⟨hne, rfl, hdir⟩]
      · rw [hchild _ _ hf, if_neg fun h => hsibling h.2.2]
      · rw [hcolors, if_neg hf]
      · rw [hother _ hf hchildren, hu.parent _ h.up.ne_sentinel hchildren]
    · intro a hay hap
      refine ⟨fun e => ?_, by rw [hcolors, if_neg hay], by rw [hdatas]⟩
      rw [hchild _ _ hay, if_neg]
      rintro ⟨hne, heq, -⟩
      exact hap (fun hgs => hne (hroot.mpr hgs)) heq
    · intro a hay hchildren hnil
      have hchildren : ∀ e, a ≠ s.child e x.addr := by
        intro e heq
        exact hchildren e (heq ▸ hnil) heq
      rw [hother a hay hchildren, hu.parent a hnil hchildren]
  refine ⟨s', hs', ⟨?_, ?_, ?_⟩, ?_⟩
  · rw [addr_join]
    refine hfocus.replace hyNil hy ⟨hparentY, ?_, by rw [hdatas, hdata]⟩ hplace
    rw [hcolors, if_pos rfl, hx.color, hcolor]
  · intro a ha
    rw [List.mem_append, mem_addrs_join, or_assoc] at ha
    rcases ha with rfl | ha
    · exact hyNull
    · apply h.ne_null
      rw [List.mem_append, mem_addrs_join, or_assoc]
      exact .inr ha
  · rw [hcolors, if_neg hyNil.symm]
    exact h.black
  · rw [hparents, if_neg (fun h => h.2 rfl), if_neg hyNil.symm]

theorem At.notMem_of_join (h : s.At top fs (join d q t .nil)) :
    q.addr ∉ addrs t ++ contextAddrs fs := by
  have hfocus := h.focus
  rw [addr_join] at hfocus
  simpa [addrs, entries] using (List.nodup_cons.mp hfocus.nodup_parts).1

/-- The node has at most one child, and leaves its place itself. -/
theorem unlink_self (h : s.At top (f :: fs) (join d q t .nil)) :
    ∃ s', s.unlink q.addr q.addr (addr sentinel t) = some s' ∧ Hangs s' top (f :: fs) t := by
  obtain ⟨hhang, hangs⟩ := hangBelow_spec h
  refine ⟨_, ?_, hangs⟩
  have hparent : (Links.hang s false f.cell.addr q.addr (addr sentinel t)).parent q.addr =
      f.cell.addr := by
    rw [hang_parent]
    exact h.parts.2.1.parent
  simp only [unlink, hhang, Option.bind_eq_bind, Option.bind_some, Rbtree.loadParent,
    if_neg h.node_ne_null, hparent, if_true, storeParent, if_neg hangs.stands.addr_ne_null]

/-- The next node has no left child. It leaves its place, and takes that of the node `x`. -/
theorem unlink_next {inner gs : Around κ} {x y : Node κ} {left : Shape κ}
    (h : s.At top (inner ++ ⟨.right, x, left⟩ :: gs) (join .right y t .nil)) :
    ∃ s', s.unlink x.addr y.addr (addr sentinel t) = some s' ∧
      Hangs s' top (inner ++ ⟨.right, ⟨x.color, y.addr, y.data⟩, left⟩ :: gs) t := by
  obtain ⟨f, fs, hfs⟩ : ∃ f fs, inner ++ ⟨.right, x, left⟩ :: gs = f :: fs := by
    cases inner with
    | nil => exact ⟨_, _, rfl⟩
    | cons f inner => exact ⟨_, _, rfl⟩
  have hout := h.notMem_of_join
  have hp : f.cell.addr = x.addr ↔ inner = [] := by
    cases inner with
    | nil =>
        obtain ⟨rfl, -⟩ := List.cons.inj hfs
        exact iff_of_true rfl rfl
    | cons g inner =>
        obtain ⟨rfl, -⟩ := List.cons.inj hfs
        refine iff_of_false (fun heq => ?_) (List.cons_ne_nil _ _)
        have hnodup := (List.nodup_append.mp h.focus.nodup).2.1
        rw [List.cons_append, contextAddrs, List.cons_append, List.nodup_cons] at hnodup
        apply hnodup.1
        simp [heq, contextAddrs_append, contextAddrs]
  have hyx : y.addr ≠ x.addr := by
    intro heq
    apply hout
    simp [heq, contextAddrs_append, contextAddrs]
  have hyData := h.parts.2.1.data
  rw [hfs] at h
  obtain ⟨hhang, hangs⟩ := hangBelow_spec h
  have hdata₁ : (Links.hang s false f.cell.addr y.addr (addr sentinel t)).data = s.data := hang_data
  have hparent₁ : (Links.hang s false f.cell.addr y.addr (addr sentinel t)).parent y.addr =
      f.cell.addr := by
    rw [hang_parent]
    exact h.parts.2.1.parent
  generalize Links.hang s false f.cell.addr y.addr (addr sentinel t) = s₁ at *
  have hstands := hangs.stands
  rw [← hfs] at hstands
  have hup := hstands.upThrough.up
  have hsame : SameButChildren (s₁.setParent (addr sentinel t) f.cell.addr)
      (s₁.setParent (addr sentinel t) (if inner = [] then y.addr else f.cell.addr)) x.addr := by
    refine ⟨rfl, rfl, rfl, rfl, fun a _ hchildren => ?_⟩
    by_cases ha : a = addr sentinel t
    · have hinner : inner ≠ [] := by
        rintro rfl
        obtain ⟨rfl, -⟩ := List.cons.inj hfs
        exact hchildren .right (ha.trans hstands.focus.child_eq.symm)
      rw [if_neg hinner]
    · exact (if_neg ha).trans (if_neg ha).symm
  have hyOut : y.addr ∉ addrs (plug inner t) ++ addrs left ++ contextAddrs gs := by
    intro hmem
    apply hout
    simp only [List.mem_append, (addrs_plug_perm inner t).mem_iff, contextAddrs_append, contextAddrs,
      List.cons_append, List.mem_cons] at hmem ⊢
    tauto
  obtain ⟨s', hs', hat, hparent⟩ := replace_spec (y := ⟨x.color, y.addr, y.data⟩) hup hsame
    h.node_ne_null h.ne_sentinel hyOut hyx rfl (by rw [← hyData, ← hdata₁]; rfl)
  refine ⟨s', ?_, hat.down.downThrough, ?_⟩
  · simp only [unlink, hhang, Option.bind_eq_bind, Option.bind_some, Rbtree.loadParent,
      if_neg h.node_ne_null, hparent₁, if_neg hyx, storeParent, if_neg hangs.stands.addr_ne_null]
    by_cases hinner : inner = []
    · rw [if_pos hinner] at hs'
      rwa [if_pos (hp.mpr hinner)]
    · rw [if_neg hinner] at hs'
      rwa [if_neg fun heq => hinner (hp.mp heq)]
  · cases t with
    | node z l r => exact (Hangs.of_node (d := .left) hat.down.downThrough).parent
    | nil =>
        have hparent : s'.parent sentinel = if inner = [] then y.addr else f.cell.addr := by
          rw [hparent]
          simp [Links.setParent, addr]
        rw [addr, hparent]
        cases inner with
        | nil => rfl
        | cons g inner =>
            obtain ⟨rfl, -⟩ := List.cons.inj hfs
            rfl

theorem At.clear [Zero κ] {a : Nat} (h : s.At top fs t) (ha : a ∉ addrs t ++ contextAddrs fs)
    (hnull : a ≠ NULL) (hnil : a ≠ sentinel) :
    ∃ s', s.clear a = some s' ∧ s'.At top fs t ∧ KeepsParent s s' := by
  simp only [Rbtree.clear, storeChild, storeParent, storeKey, if_neg hnull, Option.bind_eq_bind,
    Option.bind_some]
  refine ⟨_, rfl, ⟨h.focus.congr rfl fun b hb => ?_, h.ne_null, h.black⟩, if_neg hnil.symm⟩
  have hba : b ≠ a := by
    rintro rfl
    exact ha hb
  refine ⟨⟨fun d => ?_, rfl, if_neg hba⟩, if_neg hba⟩
  simp [Links.setData, Links.setParent, Links.setChild, hba]

theorem Hangs.clear [Zero κ] {a : Nat} (h : Hangs s top (f :: fs) t)
    (ha : a ∉ addrs t ++ contextAddrs (f :: fs)) (hnull : a ≠ NULL) (hnil : a ≠ sentinel) :
    ∃ s', s.clear a = some s' ∧ Hangs s' top (f :: fs) t := by
  obtain ⟨s', hs', hat, hsame⟩ := h.stands.clear ha hnull hnil
  exact ⟨s', hs', h.relinked hsame hat rfl⟩

/-- The repair that follows the removal of a node of the colour `c`. -/
theorem fixup_spec (h : Hangs s top fs t) {m : Nat}
    (hbalanced : Balanced (plug fs (join d q t .nil)) .black m) (hfuel : fs.length < fuel) :
    ∃ s', (if q.color = .red then some s else deleteFixup fuel s (addr sentinel t)) = some s' ∧
      s'.Holding (entries (plug fs t)) := by
  obtain ⟨c, n, hjoin, hfits⟩ := hbalanced.of_plug
  cases hcolor : q.color with
  | red =>
      obtain ⟨rfl, ht, -⟩ := hjoin.of_join_red hcolor
      obtain ⟨m, hm⟩ := hfits.black_of_red.plug ht
      exact ⟨s, if_pos rfl, top, _, m, h.stands.whole, hm, rfl⟩
  | black =>
      obtain ⟨n, c₁, c₂, rfl, rfl, ht, hnil⟩ := hjoin.of_join_black hcolor
      rw [if_neg (by decide)]
      apply deleteFixup_spec _ h
      cases hroot : rootColor t with
      | black => exact .inl ⟨n, ht.black_of_rootColor hroot, hfits, hfuel⟩
      | red =>
          exact .inr ⟨n + 1, hroot, (ht.red_of_rootColor hroot).setRootColor_red, hfits,
            Nat.zero_lt_of_lt hfuel⟩

/-! Removal. -/

section Delete

variable [Zero κ] {m : Nat}

/-- The root has at most one child, which becomes the root. -/
theorem delete_root (h : s.At top [] (join d q t .nil)) (hbalanced : Balanced (join d q t .nil) .black m)
    (hchoose : s.chooseSubst fuel q.addr = some (q.addr, addr sentinel t)) :
    ∃ s', s.delete fuel q.addr = some s' ∧ s'.Holding (entries t) := by
  have hroot : q.addr = s.root := by
    rw [h.root, addr_join]
  have hout := h.notMem_of_join
  obtain ⟨-, -, ht, -⟩ := h.parts
  have hmem : ∀ a ∈ addrs t, a ∈ addrs (join d q t .nil) := fun a ha =>
    mem_addrs_join.mpr (.inr (.inl ha))
  have hfocus := h.focus
  rw [addr_join] at hfocus
  have hat : At (s.setRoot (addr sentinel t)) q.addr [] t := by
    rw [ht.addr_eq] at ht
    refine ⟨⟨⟨rfl, rfl⟩, ht.congr fun a _ => ⟨⟨fun _ => rfl, rfl, rfl⟩, rfl⟩, ?_⟩,
      fun a ha => h.ne_null a ?_, h.black⟩
    · simpa [addrs, entries] using (List.nodup_cons.mp hfocus.nodup_parts).2
    · exact List.mem_append_left _ (hmem a (by simpa [contextAddrs] using ha))
  obtain ⟨s₁, hs₁, hat₁, -⟩ := hat.blackenHere
  have haddrs : addrs (setRootColor .black t) = addrs t :=
    congrArg (List.map Prod.fst) (entries_setRootColor .black t)
  obtain ⟨s', hs', hat', -⟩ := hat₁.clear (by rwa [haddrs]) h.node_ne_null h.ne_sentinel
  obtain ⟨c, n, ht⟩ : ∃ c n, Balanced t c n := by
    cases hcolor : q.color with
    | red => exact ⟨_, _, (hbalanced.of_join_red hcolor).2.1⟩
    | black =>
        obtain ⟨_, _, _, -, -, ht, -⟩ := hbalanced.of_join_black hcolor
        exact ⟨_, _, ht⟩
  obtain ⟨k, hk⟩ := ht.setRootColor_black
  refine ⟨s', ?_, q.addr, _, k, hat', hk, entries_setRootColor _ _⟩
  simp only [delete, hchoose, Option.bind_eq_bind, Option.bind_some, if_pos hroot, hs₁]
  exact hs'

/-- A node that leaves its place itself. -/
theorem delete_self (h : s.At top fs (join d q t .nil))
    (hbalanced : Balanced (plug fs (join d q t .nil)) .black m) (hfuel : fs.length < fuel)
    (hchoose : s.chooseSubst fuel q.addr = some (q.addr, addr sentinel t)) :
    ∃ s', s.delete fuel q.addr = some s' ∧ s'.Holding (entries (plug fs t)) := by
  cases fs with
  | nil => exact delete_root h hbalanced hchoose
  | cons f fs =>
      have hroot : q.addr ≠ s.root := by
        rw [← addr_join sentinel d q t .nil]
        exact h.addr_ne_root
      have hcolor := h.loadColor
      rw [addr_join, rootColor_join] at hcolor
      obtain ⟨s₁, hs₁, h₁⟩ := unlink_self h
      obtain ⟨s₂, hs₂, h₂⟩ := h₁.clear h.notMem_of_join h.node_ne_null h.ne_sentinel
      obtain ⟨s', hs', hholding⟩ := fixup_spec h₂ hbalanced hfuel
      refine ⟨s', ?_, hholding⟩
      simp only [delete, hchoose, Option.bind_eq_bind, Option.bind_some, if_neg hroot, hcolor, hs₁,
        hs₂, hs']

/-- A node whose place the next node takes. -/
theorem delete_next {inner gs : Around κ} {x y : Node κ} {left : Shape κ}
    (h : s.At top (inner ++ ⟨.right, x, left⟩ :: gs) (join .right y t .nil))
    (hbalanced : Balanced (plug (inner ++ ⟨.right, x, left⟩ :: gs) (join .right y t .nil)) .black m)
    (hfuel : (inner ++ ⟨.right, x, left⟩ :: gs).length < fuel)
    (hchoose : s.chooseSubst fuel x.addr = some (y.addr, addr sentinel t)) :
    ∃ s', s.delete fuel x.addr = some s' ∧ s'.Holding
      (entries (plug (inner ++ ⟨.right, ⟨x.color, y.addr, y.data⟩, left⟩ :: gs) t)) := by
  have hx := h.upThrough.up
  have hroot : y.addr ≠ s.root := by
    rw [← addr_join sentinel .right y t .nil]
    have hne := h.eq_root_iff
    exact fun heq => List.append_ne_nil_of_right_ne_nil _ (List.cons_ne_nil _ _) (hne.mp heq)
  have hcolor := h.loadColor
  rw [addr_join, rootColor_join] at hcolor
  obtain ⟨s₁, hs₁, h₁⟩ := unlink_next h
  obtain ⟨m', hbalanced'⟩ := Balanced.plug_recell (x := ⟨x.color, y.addr, y.data⟩) rfl hbalanced
  obtain ⟨f, fs, hfs⟩ : ∃ f fs, inner ++ ⟨.right, ⟨x.color, y.addr, y.data⟩, left⟩ :: gs = f :: fs := by
    cases inner with
    | nil => exact ⟨_, _, rfl⟩
    | cons f inner => exact ⟨_, _, rfl⟩
  have hout : x.addr ∉ addrs t ++
      contextAddrs (inner ++ ⟨.right, ⟨x.color, y.addr, y.data⟩, left⟩ :: gs) := by
    have hfocus := hx.focus
    rw [addr_join] at hfocus
    have hnotMem := (List.nodup_cons.mp hfocus.nodup_parts).1
    simp only [List.mem_append, (addrs_plug_perm inner _).mem_iff, mem_addrs_join] at hnotMem
    simp only [contextAddrs_append, contextAddrs, List.cons_append, List.mem_append, List.mem_cons]
    tauto
  rw [hfs] at h₁ hout
  obtain ⟨s₂, hs₂, h₂⟩ := h₁.clear hout hx.node_ne_null hx.ne_sentinel
  rw [← hfs] at h₂
  obtain ⟨s', hs', hholding⟩ := fixup_spec h₂ hbalanced' (by simpa using hfuel)
  refine ⟨s', ?_, hholding⟩
  simp only [delete, hchoose, Option.bind_eq_bind, Option.bind_some, if_neg hroot, hcolor, hs₁,
    hs₂, hs']

end Delete

end Rbtree

end RebuildTheWheel.Nginx
