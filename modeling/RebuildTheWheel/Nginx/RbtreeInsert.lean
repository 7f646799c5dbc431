import RebuildTheWheel.Nginx.RbtreeFocus

namespace RebuildTheWheel.Nginx

open Data Data.RedBlack Data.Links

namespace Rbtree

variable {κ : Type} {s : Rbtree κ} {top n fuel : Nat} {fs : Around κ} {t near far : Shape κ}
  {d e : Dir} {x y g : Node κ} {f₁ f₂ : Frame Nat κ}

/-- A red-black tree in memory that holds the entries `nodes`. -/
def Holding (s : Rbtree κ) (nodes : List (Nat × κ)) : Prop :=
  ∃ top t m, s.At top [] t ∧ Balanced t .black m ∧ entries t = nodes

/-! The three cases of the loop of `ngx_rbtree_insert`. -/

theorem insertFixupHalf_recolor (h : s.At top (f₁ :: f₂ :: fs) (join e x near far))
    (huncle : rootColor f₂.sibling = .red) :
    ∃ s', insertFixupHalf f₂.dir s x.addr = some (s', f₂.cell.addr) ∧
      s'.At top fs (join f₂.dir (f₂.cell.paint .red)
        (join f₁.dir (f₁.cell.paint .black) (join e x near far) f₁.sibling)
        (setRootColor .black f₂.sibling)) := by
  obtain ⟨s₁, hs₁, hat₁, -⟩ := h.up.storeColor .black
  obtain ⟨s₂, hs₂, hat₂, -⟩ := hat₁.up.downOther.blackenHere
  have hat₂' := hat₂.up
  rw [join_other] at hat₂'
  obtain ⟨s₃, hs₃, hat₃, -⟩ := hat₂'.storeColor .red
  have huncleColor := h.up.up.downOther.loadColor
  rw [huncle] at huncleColor
  refine ⟨s₃, ?_, hat₃⟩
  simp only [insertFixupHalf, h.loadParent, h.up.loadParent, above, h.up.up.loadOther, huncleColor,
    Option.bind_eq_bind, Option.bind_some, if_true, hs₁, hs₂, hs₃]

/-- After the inner turn the red parent `y` and its red child `t'` are on one side. -/
theorem turnInner_spec (h : s.At top (f₁ :: fs) t) (ht : Balanced t .red n)
    (hred : f₁.cell.color = .red) (hsibling : Balanced f₁.sibling .black n) (d : Dir) :
    ∃ s' y t' z, turnInner d s (addr sentinel t) = some (s', addr sentinel t') ∧
      s'.At top (⟨d, y, z⟩ :: fs) t' ∧ Balanced t' .red n ∧ Balanced z .black n ∧
      entries (join d y t' z) = entries (join f₁.dir f₁.cell t f₁.sibling) := by
  obtain ⟨x, a, b, rfl, hx, ha, hb⟩ := ht.exists_join d
  obtain ⟨c, hc, hside⟩ := h.is_child (by rw [addr_join]; exact h.ne_sentinel) d.other
  have hparent := h.loadParent
  rw [addr_join] at hside ⊢
  obtain ⟨e, q, sibling⟩ := f₁
  rcases d.eq_or_eq_other e with rfl | rfl
  · refine ⟨s, q, _, sibling, ?_, h, ht, hsibling, rfl⟩
    have hne : x.addr ≠ c := fun heq => e.other_ne (hside.mp heq).symm
    simp only [turnInner, hparent, above, hc, Option.bind_eq_bind, Option.bind_some, hne, if_false,
      addr_join]
  · have hup := h.up
    simp only [join_other] at hup
    rw [← hside.mpr rfl] at hc
    obtain ⟨s', hs', hat, -⟩ := hup.rotate
    refine ⟨s', x, join d q sibling a, b, ?_, hat.down, ?_, hb, ?_⟩
    · simp only [turnInner, hparent, above, hc, Option.bind_eq_bind, Option.bind_some, if_true,
        hs', addr_join]
    · exact Balanced.join_red hred hsibling ha d
    · rw [entries_rotate, join_other]

theorem turnGrand {z uncle : Shape κ} (h : s.At top (⟨d, y, z⟩ :: ⟨d, g, uncle⟩ :: fs) t) :
    ∃ s₁ s₂ s', s.storeColor y.addr .black = some s₁ ∧ s₁.loadParent y.addr = some g.addr ∧
      s₁.storeColor g.addr .red = some s₂ ∧ rotate d.other s₂ g.addr = some s' ∧
      s'.At top fs (join d (y.paint .black) t (join d (g.paint .red) z uncle)) := by
  obtain ⟨s₁, hs₁, hat₁, -⟩ := h.up.storeColor .black
  obtain ⟨s₂, hs₂, hat₂, -⟩ := hat₁.up.storeColor .red
  simp only at hat₂
  rw [← join_other, ← join_other d _ z t] at hat₂
  obtain ⟨s', hs', hat', -⟩ := hat₂.rotate
  rw [join_other, join_other] at hat'
  exact ⟨s₁, s₂, s', hs₁, hat₁.loadParent, hs₂, hs', hat'⟩

theorem At.loadParent_red (h : s.At top (f₁ :: fs) t) (ht : Balanced t .red n) :
    s.loadParent (addr sentinel t) = some f₁.cell.addr := by
  obtain ⟨x, a, b, rfl, -⟩ := ht.exists_join .left
  rw [addr_join]
  exact h.loadParent

theorem At.loadColor_above (h : s.At top (f₁ :: fs) t) :
    s.loadColor f₁.cell.addr = some f₁.cell.color := by
  simpa using h.up.loadColor

theorem insertFixupHalf_turn (h : s.At top (f₁ :: f₂ :: fs) t) (ht : Balanced t .red n)
    (hred : f₁.cell.color = .red) (hsibling : Balanced f₁.sibling .black n)
    (huncle : rootColor f₂.sibling = .black) :
    ∃ s' y t' z, insertFixupHalf f₂.dir s (addr sentinel t) = some (s', addr sentinel t') ∧
      s'.At top fs (join f₂.dir (y.paint .black) t'
        (join f₂.dir (f₂.cell.paint .red) z f₂.sibling)) ∧
      Balanced t' .red n ∧ Balanced z .black n ∧
      entries (join f₂.dir y t' z) = entries (join f₁.dir f₁.cell t f₁.sibling) := by
  obtain ⟨s₁, y, t', z, hs₁, hat₁, ht', hz, hentries⟩ := turnInner_spec h ht hred hsibling f₂.dir
  obtain ⟨s₂, s₃, s', hs₂, hparent, hs₃, hs', hat'⟩ := turnGrand hat₁
  refine ⟨s', y, t', z, ?_, hat', ht', hz, hentries⟩
  have huncleColor := h.up.up.downOther.loadColor
  rw [huncle] at huncleColor
  simp only [insertFixupHalf, h.loadParent_red ht, h.up.loadParent, above, h.up.up.loadOther,
    huncleColor, Option.bind_eq_bind, Option.bind_some, reduceCtorEq, if_false, hs₁,
    hat₁.loadParent_red ht', hs₂, hparent, hs₃, hs']

/-! The loop. -/

theorem At.holding (h : s.At top fs t)
    (hbalanced : ∃ m, Balanced (setRootColor .black (plug fs t)) .black m) :
    ∃ s', s.storeColor s.root .black = some s' ∧ s'.Holding (entries (plug fs t)) := by
  obtain ⟨m, hm⟩ := hbalanced
  obtain ⟨s', hs', hat⟩ := h.blacken
  exact ⟨s', hs', top, _, m, hat, hm, entries_setRootColor _ _⟩

theorem insertFixup_root (fuel : Nat) (h : s.At top [] t) (ht : Balanced t .red n) :
    ∃ s', insertFixup (fuel + 1) s (addr sentinel t) = some s' ∧ s'.Holding (entries t) := by
  obtain ⟨s', hs', hholding⟩ := h.holding ⟨_, ht.setRootColor_red⟩
  exact ⟨s', by rw [insertFixup, if_pos h.root.symm, hs'], hholding⟩

theorem insertFixup_black (fuel : Nat) (h : s.At top (f₁ :: fs) t) (ht : Balanced t .red n)
    (hfs : Fits (f₁ :: fs) .red n) (hblack : f₁.cell.color = .black) :
    ∃ s', insertFixup (fuel + 1) s (addr sentinel t) = some s' ∧
      s'.Holding (entries (plug (f₁ :: fs) t)) := by
  obtain ⟨m, hm⟩ := hfs.plug ht
  obtain ⟨s', hs', hholding⟩ := h.holding ⟨m, by rwa [hfs.setRootColor_plug ht]⟩
  refine ⟨s', ?_, hholding⟩
  simp only [insertFixup, h.addr_ne_root, if_false, h.loadParent_red ht, h.loadColor_above, hblack,
    reduceCtorEq, Option.bind_eq_bind, Option.bind_some, hs']

/-- One pass through the loop. -/
theorem insertFixup_red (h : s.At top (f₁ :: f₂ :: fs) t) (ht : Balanced t .red n)
    (hred : f₁.cell.color = .red) :
    insertFixup (fuel + 1) s (addr sentinel t) =
      (insertFixupHalf f₂.dir s (addr sentinel t)).bind fun (s', p) => insertFixup fuel s' p := by
  obtain ⟨l, hl, hside⟩ := h.up.is_child (by rw [addr_join]; exact h.up.ne_sentinel) .left
  rw [addr_join] at hside
  simp only [insertFixup, h.addr_ne_root, if_false, h.loadParent_red ht, h.loadColor_above,
    hred, if_true, h.up.loadParent, above, hl, hside, Option.bind_eq_bind, Option.bind_some]
  cases f₂.dir <;> rfl

theorem insertFixup_turn (h : s.At top (f₁ :: f₂ :: fs) t) (ht : Balanced t .red n)
    (hred : f₁.cell.color = .red) (hsibling : Balanced f₁.sibling .black n)
    (huncle : Balanced f₂.sibling c n) (hfs : Fits fs .black (n + 1))
    (hcolor : rootColor f₂.sibling = .black) (hfuel : fs.length + 1 < fuel) :
    ∃ s', (insertFixupHalf f₂.dir s (addr sentinel t)).bind
        (fun (s', p) => insertFixup fuel s' p) = some s' ∧
      s'.Holding (entries (plug (f₁ :: f₂ :: fs) t)) := by
  obtain ⟨s₁, y, t', z, hs₁, hat, ht', hz, hentries⟩ := insertFixupHalf_turn h ht hred hsibling hcolor
  have hgrand := Balanced.join_red (x := f₂.cell.paint .red) rfl hz
    (huncle.black_of_rootColor hcolor) f₂.dir
  obtain ⟨fuel, rfl⟩ := Nat.exists_eq_succ_of_ne_zero (Nat.ne_zero_of_lt hfuel)
  obtain ⟨s', hs', hholding⟩ := insertFixup_black fuel hat.down ht' (.black rfl hgrand hfs) rfl
  refine ⟨s', by rw [hs₁]; exact hs', ?_⟩
  have hcells : entries (plug (f₁ :: f₂ :: fs) t) = entries (plug
      (⟨f₂.dir, y.paint .black,
        join f₂.dir (f₂.cell.paint .red) z f₂.sibling⟩ :: fs) t') := by
    rw [plug, plug, plug]
    apply entries_plug_congr
    rw [entries_recolor, entries_join_congr f₂.dir f₂.cell hentries.symm rfl, entries_rotate]
    exact entries_join_congr _ _ rfl (entries_recolor _ _ _ _ _).symm
  rw [hcells]
  exact hholding

theorem insertFixup_spec (fuel : Nat) (h : s.At top fs t) (ht : Balanced t .red n)
    (hfs : Fits fs .black n) (hfuel : fs.length < fuel) :
    ∃ s', insertFixup fuel s (addr sentinel t) = some s' ∧ s'.Holding (entries (plug fs t)) := by
  induction fuel generalizing s fs t n with
  | zero => omega
  | succ fuel ih =>
      cases hfs with
      | top => exact insertFixup_root fuel h ht
      | black hf hsibling hfs => exact insertFixup_black fuel h ht (.black hf hsibling hfs) hf
      | red hred hsibling hfs =>
          obtain ⟨f₂, gs, c, rfl, -, huncle, hfs⟩ := hfs.of_red
          rw [insertFixup_red h ht hred]
          have hfuel : gs.length + 1 < fuel := by simpa using hfuel
          cases hcolor : rootColor f₂.sibling with
          | black => exact insertFixup_turn h ht hred hsibling huncle hfs hcolor hfuel
          | red =>
              obtain ⟨x, a, b, rfl, -⟩ := ht.exists_join .left
              obtain ⟨s₁, hs₁, hat⟩ := insertFixupHalf_recolor h hcolor
              obtain rfl := hcolor.symm.trans huncle.rootColor_eq
              obtain ⟨s', hs', hholding⟩ := ih hat (.join_red rfl (.join_black rfl ht hsibling _)
                huncle.setRootColor_red _) hfs (by omega)
              rw [addr_join] at hs' ⊢
              refine ⟨s', by rw [hs₁]; exact hs', ?_⟩
              convert hholding using 1
              rw [plug, plug]
              apply entries_plug_congr
              rw [entries_recolor]
              exact entries_join_congr _ _ (entries_recolor _ _ _ _ _).symm
                (entries_setRootColor _ _).symm

/-! The new node. -/

/-- A node outside of the tree. -/
structure Outside (a : Nat) (nodes : List (Nat × κ)) : Prop where
  ne_null : a ≠ NULL
  ne_sentinel : a ≠ sentinel
  notMem : a ∉ nodes.map Prod.fst

theorem At.grow {a : Nat} (h : s.At top (f₁ :: fs) .nil)
    (hout : Outside a (entries (plug (f₁ :: fs) .nil))) :
    ∃ s', (do
        let s ← s.storeChild f₁.dir f₁.cell.addr a
        let s ← s.storeParent a f₁.cell.addr
        let s ← s.storeChild .left a sentinel
        let s ← s.storeChild .right a sentinel
        s.storeColor a .red) = some s' ∧
      s'.At top (f₁ :: fs) (.node ⟨.red, a, s.data a⟩ .nil .nil) := by
  have hmem : a ∉ contextAddrs (f₁ :: fs) := fun hmem =>
    hout.notMem ((addrs_plug_perm (f₁ :: fs) .nil).mem_iff.mpr hmem)
  have hne : f₁.cell.addr ≠ a := fun heq => hmem (heq ▸ List.mem_cons_self)
  have hother := f₁.dir.other_ne
  simp only [storeChild, storeParent, Rbtree.storeColor, if_neg h.up.node_ne_null,
    if_neg hout.ne_null, Option.bind_eq_bind, Option.bind_some]
  refine ⟨_, rfl, ⟨h.focus.grow hout.ne_sentinel hmem ⟨?_, ?_, rfl⟩ ?_ rfl ?_ ?_, ?_, ?_⟩⟩
  · simp [Links.setParent, Links.setChild, Links.setColor, above]
  · simp [Links.setColor]
  · intro d
    cases d <;> simp [Links.setParent, Links.setChild, Links.setColor]
  · simp [Links.setParent, Links.setChild, Links.setColor, above, hne, hother]
  · intro b hb hbp
    simp only [above] at hbp
    simp only at hb
    refine ⟨⟨fun d => ?_, ?_, ?_⟩, ?_⟩ <;>
      simp [Links.setParent, Links.setChild, Links.setColor, hb, hbp]
  · intro b hb
    rw [addrs_node, List.mem_append, List.mem_append, List.mem_cons] at hb
    rcases hb with (hb | rfl | hb) | hb
    · exact absurd hb List.not_mem_nil
    · exact hout.ne_null
    · exact absurd hb List.not_mem_nil
    · exact h.ne_null b (List.mem_append_right _ hb)
  · exact (if_neg hout.ne_sentinel.symm).trans h.black

section Keys

variable [LinearOrder κ]

def Sorted (nodes : List (Nat × κ)) : Prop := nodes.Pairwise fun a b => a.2 ≤ b.2

/-- The key `k` belongs into the hole of the context. -/
structure Between (k : κ) (fs : Around κ) : Prop where
  before : ∀ b ∈ beforeHole fs, b.2 ≤ k
  after : ∀ b ∈ afterHole fs, k ≤ b.2

theorem Sorted.insert {before after : List (Nat × κ)} (h : Sorted (before ++ after))
    (a : Nat × κ) (hbefore : ∀ b ∈ before, b.2 ≤ a.2) (hafter : ∀ b ∈ after, a.2 ≤ b.2) :
    Sorted (before ++ a :: after) := by
  obtain ⟨hb, ha, hcross⟩ := List.pairwise_append.mp h
  refine List.pairwise_append.mpr ⟨hb, List.pairwise_cons.mpr ⟨hafter, ha⟩, fun b hb c hc => ?_⟩
  rcases List.mem_cons.mp hc with rfl | hc
  · exact hbefore b hb
  · exact hcross b hb c hc

theorem Between.down {k : κ} (h : Between k fs) (hsorted : Sorted (entries (join d x near far)))
    (hd : (if k < x.data then Dir.left else .right) = d) :
    Sorted (entries near) ∧ Between k (⟨d, x, far⟩ :: fs) := by
  rw [Sorted, entries_join] at hsorted
  split_ifs at hd with hk
  · subst hd
    obtain ⟨hnear, hrest, -⟩ := List.pairwise_append.mp hsorted
    obtain ⟨hx, -⟩ := List.pairwise_cons.mp hrest
    refine ⟨hnear, h.before, fun b hb => ?_⟩
    rw [afterHole, List.cons_append, List.mem_cons, List.mem_append] at hb
    rcases hb with rfl | hb | hb
    · exact hk.le
    · exact hk.le.trans (hx b hb)
    · exact h.after b hb
  · subst hd
    obtain ⟨hrest, hnear, -⟩ := List.pairwise_append.mp hsorted
    obtain ⟨-, -, hcross⟩ := List.pairwise_append.mp hrest
    refine ⟨hnear, fun b hb => ?_, h.after⟩
    rw [beforeHole, List.mem_append, List.mem_append, List.mem_singleton] at hb
    rcases hb with (hb | hb) | rfl
    · exact h.before b hb
    · exact (hcross b hb _ (List.mem_singleton_self _)).trans (not_lt.mp hk)
    · exact not_lt.mp hk

theorem insert_value_spec (fuel : Nat) {left right : Shape κ} {a : Nat} (h : s.At top fs (.node x left right))
    (hout : Outside a (entries (plug fs (.node x left right))))
    (hsorted : Sorted (entries (.node x left right))) (hbetween : Between (s.data a) fs)
    (hfuel : (addrs (.node x left right)).length ≤ fuel) :
    ∃ s' gs, insert_value fuel s x.addr a = some s' ∧ gs ≠ [] ∧
      s'.At top gs (.node ⟨.red, a, s.data a⟩ .nil .nil) ∧
      plug gs .nil = plug fs (.node x left right) ∧ Between (s.data a) gs := by
  induction fuel generalizing fs x left right with
  | zero =>
      rw [addrs_node, List.length_append, List.length_cons] at hfuel
      omega
  | succ fuel ih =>
      obtain ⟨d, hd⟩ : ∃ d, (if s.data a < x.data then Dir.left else .right) = d := ⟨_, rfl⟩
      obtain ⟨near, far, hjoin⟩ := exists_join d x left right
      rw [hjoin] at h hout hsorted hfuel ⊢
      obtain ⟨hnear, hdown⟩ := hbetween.down hsorted hd
      have hkey : s.loadKey a = some (s.data a) := if_neg hout.ne_null
      simp only [insert_value, hkey, h.loadKey, Option.bind_eq_bind, Option.bind_some, hd,
        h.loadChild]
      cases near with
      | nil =>
          obtain ⟨s', hs', hat⟩ := h.down.grow hout
          exact ⟨s', ⟨d, x, far⟩ :: fs, by rw [addr, if_pos rfl]; exact hs', List.cons_ne_nil _ _,
            hat, rfl, hdown⟩
      | node y l r =>
          have hne : y.addr ≠ sentinel := At.ne_sentinel (d := .left) h.down
          rw [addr_node, if_neg hne]
          refine ih h.down hout hnear hdown ?_
          have hlength := (addrs_join_perm d x (.node y l r) far).length_eq
          rw [List.length_cons, List.length_append] at hlength
          omega

theorem insert_root {a : Nat} (fuel : Nat) (h : s.At top [] (.nil : Shape κ))
    (hout : Outside a (entries (.nil : Shape κ))) :
    ∃ s', s.insert fuel a = some s' ∧ s'.At NULL [] (.node ⟨.black, a, s.data a⟩ .nil .nil) := by
  have hroot : s.root = sentinel := h.root
  simp only [Rbtree.insert, hroot, if_true, storeChild, storeParent, Rbtree.storeColor,
    if_neg hout.ne_null, Option.bind_eq_bind, Option.bind_some]
  refine ⟨_, rfl, ⟨⟨⟨rfl, rfl⟩, ⟨rfl, hout.ne_sentinel, ⟨?_, ?_, rfl⟩, ?_, ?_⟩, ?_⟩, ?_, ?_⟩⟩
  · simp [Links.setColor, Links.setParent, Links.setChild, Links.setRoot, above]
  · simp [Links.setColor, Links.setRoot]
  · simp [Links.setColor, Links.setParent, Links.setChild, Links.setRoot, Links.Rep]
  · simp [Links.setColor, Links.setParent, Links.setChild, Links.setRoot, Links.Rep]
  · simp [addrs, entries, entry, contextAddrs]
  · simpa [addrs, entries, entry, contextAddrs] using hout.ne_null
  · exact (if_neg hout.ne_sentinel.symm).trans h.black

theorem insert_spec {nodes : List (Nat × κ)} {a : Nat} (h : s.Holding nodes)
    (hsorted : Sorted nodes) (hout : Outside a nodes) (hfuel : nodes.length < fuel) :
    ∃ s' before after, s.insert fuel a = some s' ∧ nodes = before ++ after ∧
      s'.Holding (before ++ (a, s.data a) :: after) ∧
      Sorted (before ++ (a, s.data a) :: after) := by
  obtain ⟨top, t, m, hat, hbalanced, rfl⟩ := h
  cases t with
  | nil =>
      obtain ⟨s', hs', hat'⟩ := insert_root fuel hat hout
      exact ⟨s', [], [], hs', rfl, ⟨_, _, _, hat', .black rfl .nil .nil, rfl⟩,
        List.pairwise_singleton _ _⟩
  | node x left right =>
      have hroot : s.root = x.addr := hat.root
      have hne : x.addr ≠ sentinel := At.ne_sentinel (d := .left) hat
      obtain ⟨s₁, gs, hs₁, hgs, hat₁, hplug, hbetween⟩ := insert_value_spec fuel hat hout
        hsorted ⟨by simp [beforeHole], by simp [afterHole]⟩ (by
          rw [addrs, List.length_map]
          exact hfuel.le)
      rw [plug.eq_1] at hplug
      have hnodes := entries_plug gs .nil
      rw [hplug] at hnodes
      rw [← hplug] at hbalanced
      obtain ⟨c, n, hnil, hfits⟩ := Balanced.of_plug hbalanced
      cases hnil with
      | nil =>
          have hlength : gs.length < fuel := by
            have hperm : (addrs (plug gs .nil)).Perm (contextAddrs gs) := addrs_plug_perm gs .nil
            have hle := length_le_contextAddrs gs
            rw [← hperm.length_eq, hplug, addrs, List.length_map] at hle
            exact hle.trans_lt hfuel
          obtain ⟨s', hs', hholding⟩ :=
            insertFixup_spec fuel hat₁ (.red rfl .nil .nil) hfits hlength
          rw [entries_plug, List.append_assoc] at hholding
          refine ⟨s', beforeHole gs, afterHole gs, ?_, by simpa [entries] using hnodes, hholding, ?_⟩
          · simp only [Rbtree.insert, hroot, if_neg hne, hs₁, Option.bind_eq_bind, Option.bind_some]
            exact hs'
          · refine Sorted.insert ?_ _ hbetween.before hbetween.after
            rw [hnodes] at hsorted
            simpa [entries] using hsorted

end Keys

end Rbtree

end RebuildTheWheel.Nginx
