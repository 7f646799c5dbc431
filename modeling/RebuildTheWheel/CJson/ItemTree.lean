import RebuildTheWheel.CJson.Container

namespace RebuildTheWheel.CJson

open RebuildTheWheel.Data

/-- The children an item deletes with itself. -/
def Node.ownedChild (n : Node) : Option Ref := if n.type.isReference then none else n.child

/-- The strings an item deletes with itself. -/
def Node.ownedTexts (n : Node) : List Ref :=
  (if n.type.isReference then [] else n.valuestring.toList) ++
    match n.string with
    | some (.block r) => if n.type.stringIsConst then [] else [r]
    | _ => []

/-- A constant name is marked as such. -/
def Node.KeyMarked (n : Node) : Prop :=
  ∀ s, n.string = some (.constant s) → n.type.stringIsConst = true

/-! The tree of blocks that belong to an item. -/

inductive ItemTree where
  | node (addr : Ref) (texts : List Ref) (kids : List ItemTree)

namespace ItemTree

def addr : ItemTree → Ref
  | .node a _ _ => a

def kids : ItemTree → List ItemTree
  | .node _ _ ts => ts

mutual

def blocks : ItemTree → List Ref
  | .node a texts kids => a :: (texts ++ blocksOf kids)

def blocksOf : List ItemTree → List Ref
  | [] => []
  | t :: ts => t.blocks ++ blocksOf ts

end

mutual

/-- The blocks of the tree are allocated and linked as the tree says. -/
def Owned (h : Heap) : ItemTree → Prop
  | .node a texts kids => ∃ n, h.node a = some n ∧ n.ownedTexts = texts ∧ n.KeyMarked ∧
      (∀ s ∈ texts, (h.text s).isSome) ∧ Chain h.next h.prev n.ownedChild (kids.map addr) ∧
      OwnedAll h kids

def OwnedAll (h : Heap) : List ItemTree → Prop
  | [] => True
  | t :: ts => t.Owned h ∧ OwnedAll h ts

end

variable {h h' : Heap}

theorem mem_blocksOf {r : Ref} {ts : List ItemTree} :
    r ∈ blocksOf ts ↔ ∃ t ∈ ts, r ∈ t.blocks := by
  induction ts with
  | nil => simp [blocksOf]
  | cons t ts ih => simp [blocksOf, ih]

theorem addr_mem_blocks (t : ItemTree) : t.addr ∈ t.blocks := by
  cases t
  rw [blocks]
  exact List.mem_cons_self

theorem map_addr_subset_blocksOf (ts : List ItemTree) : ts.map addr ⊆ blocksOf ts := by
  intro r hr
  obtain ⟨t, ht, rfl⟩ := List.mem_map.mp hr
  exact mem_blocksOf.mpr ⟨t, ht, t.addr_mem_blocks⟩

theorem node_congr {r : Ref} (hr : h'.cells r = h.cells r) : h'.node r = h.node r := by
  rw [Heap.node, Heap.node, hr]

theorem next_congr {r : Ref} (hr : h'.cells r = h.cells r) : h'.next r = h.next r := by
  rw [Heap.next, Heap.next, node_congr hr]

theorem prev_congr {r : Ref} (hr : h'.cells r = h.cells r) : h'.prev r = h.prev r := by
  rw [Heap.prev, Heap.prev, node_congr hr]

theorem chain_congr {start : Option Ref} {rs : List Ref} (hc : Chain h.next h.prev start rs)
    (hcells : ∀ r ∈ rs, h'.cells r = h.cells r) : Chain h'.next h'.prev start rs :=
  ⟨hc.1, hc.2.congr (fun r hr => next_congr (hcells r hr)) fun r hr => prev_congr (hcells r hr)⟩

mutual

theorem Owned.congr : ∀ {t : ItemTree}, t.Owned h → (∀ r ∈ t.blocks, h'.cells r = h.cells r) →
    t.Owned h'
  | .node a texts kids, ⟨n, hn, htexts, hkey, hlive, hchain, hkids⟩, hcells => by
      have hall : ∀ r ∈ blocksOf kids, h'.cells r = h.cells r := by
        intro r hr
        apply hcells
        rw [blocks]
        exact List.mem_cons_of_mem a (List.mem_append_right texts hr)
      refine ⟨n, ?_, htexts, hkey, ?_, ?_, OwnedAll.congr hkids hall⟩
      · rw [node_congr (hcells a (addr_mem_blocks (.node a texts kids))), hn]
      · intro s hs
        have hmem : s ∈ (ItemTree.node a texts kids).blocks := by
          rw [blocks]
          exact List.mem_cons_of_mem a (List.mem_append_left _ hs)
        rw [Heap.text, hcells s hmem]
        exact hlive s hs
      · exact chain_congr hchain fun r hr => hall r (map_addr_subset_blocksOf kids hr)

theorem OwnedAll.congr : ∀ {ts : List ItemTree}, OwnedAll h ts →
    (∀ r ∈ blocksOf ts, h'.cells r = h.cells r) → OwnedAll h' ts
  | [], _, _ => trivial
  | t :: ts, ⟨ht, hts⟩, hcells => by
      constructor
      · apply Owned.congr ht
        intro r hr
        exact hcells r (List.mem_append_left _ hr)
      · apply OwnedAll.congr hts
        intro r hr
        exact hcells r (List.mem_append_right _ hr)

end

end ItemTree

namespace Heap

/-! `cJSON_Delete` frees the blocks of the tree and no other. -/

def eraseAll (h : Heap) (rs : List Ref) : Heap where
  cells := fun r => if r ∈ rs then none else h.cells r
  fresh := h.fresh
  fails := h.fails
  bounded := fun r hr => by
    split
    · rfl
    · exact h.bounded r hr

theorem eraseAll_congr (h : Heap) {rs rs' : List Ref} (hmem : ∀ r, r ∈ rs ↔ r ∈ rs') :
    h.eraseAll rs = h.eraseAll rs' := by
  simp only [eraseAll, hmem]

theorem eraseAll_eraseAll (h : Heap) (rs rs' : List Ref) :
    (h.eraseAll rs).eraseAll rs' = h.eraseAll (rs ++ rs') := by
  simp only [eraseAll, List.mem_append, mk.injEq, and_true]
  funext r
  by_cases hl : r ∈ rs <;> by_cases hr : r ∈ rs' <;> simp [hl, hr]

theorem eraseAll_nil (h : Heap) : h.eraseAll [] = h := by
  simp [eraseAll]

theorem erase_eq_eraseAll (h : Heap) (r : Ref) : h.erase r = h.eraseAll [r] := by
  simp only [erase, eraseAll, List.mem_singleton]

theorem cells_eraseAll_of_notMem {h : Heap} {rs : List Ref} {r : Ref} (hr : r ∉ rs) :
    (h.eraseAll rs).cells r = h.cells r :=
  if_neg hr

theorem free_eq {h : Heap} {r : Ref} (hr : (h.cells r).isSome) :
    h.free r = some (h.eraseAll [r]) := by
  rw [free, if_pos hr, erase_eq_eraseAll]

theorem isSome_cells_of_text {h : Heap} {r : Ref} (hr : (h.text r).isSome) :
    (h.cells r).isSome := by
  cases hcell : h.cells r with
  | none =>
      rw [text, hcell] at hr
      cases hr
  | some _ => rfl

theorem isSome_cells_of_node {h : Heap} {r : Ref} (hr : h.node r = some n) :
    (h.cells r).isSome := by
  cases hcell : h.cells r with
  | none =>
      rw [node, hcell] at hr
      cases hr
  | some _ => rfl

theorem freeValuestring_eq {h : Heap} {n : Node} (hlive : ∀ s ∈ n.ownedTexts, (h.text s).isSome) :
    h.freeValuestring n =
      some (h.eraseAll (if n.type.isReference then [] else n.valuestring.toList)) := by
  cases hvalue : n.valuestring with
  | none => simp [freeValuestring, hvalue, eraseAll_nil]
  | some s =>
      cases href : n.type.isReference with
      | true => simp [freeValuestring, hvalue, href, eraseAll_nil]
      | false =>
          have hmem : s ∈ n.ownedTexts := by simp [Node.ownedTexts, hvalue, href]
          simp only [freeValuestring, hvalue, href]
          exact free_eq (isSome_cells_of_text (hlive s hmem))

/-- The name an item deletes with itself. -/
def ownedName (n : Node) : List Ref :=
  match n.string with
  | some (.block r) => if n.type.stringIsConst then [] else [r]
  | _ => []

theorem freeString_eq {h : Heap} {n : Node} (hkey : n.KeyMarked)
    (hlive : ∀ s ∈ ownedName n, (h.cells s).isSome) :
    h.freeString n = some (h.eraseAll (ownedName n)) := by
  cases hstring : n.string with
  | none => simp [freeString, ownedName, hstring, eraseAll_nil]
  | some key =>
      cases hconst : n.type.stringIsConst with
      | true => cases key <;> simp [freeString, ownedName, hstring, hconst, eraseAll_nil]
      | false =>
          cases key with
          | constant s => exact absurd (hkey s hstring) (by simp [hconst])
          | block r =>
              have hmem : r ∈ ownedName n := by simp [ownedName, hstring, hconst]
              simp only [freeString, ownedName, hstring, hconst]
              exact free_eq (hlive r hmem)

theorem freeTexts_eq {h : Heap} {n : Node} (hkey : n.KeyMarked)
    (hlive : ∀ s ∈ n.ownedTexts, (h.text s).isSome) (hnodup : n.ownedTexts.Nodup) :
    (h.freeValuestring n >>= fun h => h.freeString n) = some (h.eraseAll n.ownedTexts) := by
  obtain ⟨_, _, hdisjoint⟩ := List.nodup_append.mp hnodup
  rw [freeValuestring_eq hlive]
  change Heap.freeString _ n = _
  rw [freeString_eq hkey, eraseAll_eraseAll]
  · rfl
  · intro s hs
    rw [cells_eraseAll_of_notMem fun hmem => hdisjoint s hmem s hs rfl]
    exact isSome_cells_of_text (hlive s (List.mem_append_right _ hs))

end Heap

namespace ItemTree

theorem deleteChain_eq : ∀ (ts : List ItemTree) {fuel : Nat} {h : Heap} {before : Option Ref},
    Linked h.next h.prev before (ts.map addr) none → OwnedAll h ts → (blocksOf ts).Nodup →
    (blocksOf ts).length ≤ fuel →
    Heap.deleteChain fuel h (ts.map addr).head? = some (h.eraseAll (blocksOf ts))
  | [], fuel, h, _, _, _, _, _ => by
      cases fuel <;> exact congrArg some (Heap.eraseAll_nil h).symm
  | .node a texts kids :: ts, 0, h, _, _, _, _, hfuel => by
      simp [blocksOf, blocks] at hfuel
  | .node a texts kids :: ts, fuel + 1, h, before, hlinked, howned, hnodup, hfuel => by
      obtain ⟨⟨n, hn, htexts, hkey, hlive, hchain, hkids⟩, hrest⟩ := howned
      obtain ⟨_, hnext, hrestLinked⟩ := hlinked
      rw [Option.or_none] at hnext
      rw [blocksOf, blocks] at hnodup hfuel ⊢
      simp only [List.cons_append, List.append_assoc, List.length_cons, List.length_append]
        at hnodup hfuel
      obtain ⟨ha, hnodup⟩ := List.nodup_cons.mp hnodup
      obtain ⟨htextsNodup, hrestNodup, htextsApart⟩ := List.nodup_append.mp hnodup
      obtain ⟨hkidsNodup, htsNodup, hkidsApart⟩ := List.nodup_append.mp hrestNodup
      rw [List.mem_append, List.mem_append, not_or, not_or] at ha
      obtain ⟨haTexts, haKids, haTs⟩ := ha
      have hdelete := deleteChain_eq kids hchain.2 hkids hkidsNodup (by omega : _ ≤ fuel)
      have hlive' : ∀ s ∈ n.ownedTexts, ((h.eraseAll (blocksOf kids)).text s).isSome := by
        intro s hs
        rw [htexts] at hs
        rw [Heap.text, Heap.cells_eraseAll_of_notMem]
        · exact hlive s hs
        · intro hmem
          exact htextsApart s hs s (List.mem_append_left _ hmem) rfl
      have hfreeTexts := Heap.freeTexts_eq hkey hlive' (htexts ▸ htextsNodup)
      rw [Heap.eraseAll_eraseAll, htexts] at hfreeTexts
      have hapart : a ∉ blocksOf kids ++ texts := by
        rw [List.mem_append]
        exact fun hmem => hmem.elim haKids haTexts
      have hfree : (h.eraseAll (blocksOf kids ++ texts)).free a =
          some (h.eraseAll (blocksOf kids ++ texts ++ [a])) := by
        rw [← Heap.eraseAll_eraseAll h (blocksOf kids ++ texts)]
        apply Heap.free_eq
        rw [Heap.cells_eraseAll_of_notMem hapart]
        exact Heap.isSome_cells_of_node hn
      have hsame : ∀ r ∈ blocksOf ts,
          (h.eraseAll (blocksOf kids ++ texts ++ [a])).cells r = h.cells r := by
        intro r hr
        apply Heap.cells_eraseAll_of_notMem
        simp only [List.mem_append, List.mem_singleton, not_or]
        refine ⟨⟨?_, ?_⟩, ?_⟩
        · intro hmem
          exact hkidsApart r hmem r hr rfl
        · intro hmem
          exact htextsApart r hmem r (List.mem_append_right _ hr) rfl
        · rintro rfl
          exact haTs hr
      have hrestDelete := deleteChain_eq ts
        (hrestLinked.congr
          (fun r hr => next_congr (hsame r (map_addr_subset_blocksOf ts hr)))
          fun r hr => prev_congr (hsame r (map_addr_subset_blocksOf ts hr)))
        (hrest.congr hsame) htsNodup (by omega : _ ≤ fuel)
      have hnextEq : n.next = (ts.map addr).head? := by
        rw [← hnext, addr, Heap.next, hn]
        rfl
      rw [← hchain.1] at hdelete
      rw [← hnextEq] at hrestDelete
      obtain ⟨h', hvalue, hstring⟩ := Option.bind_eq_some_iff.mp hfreeTexts
      rw [List.map_cons, List.head?_cons, addr, Heap.deleteChain]
      change (do
        let n ← h.node a
        let h ← Heap.deleteChain fuel h n.ownedChild
        let h ← h.freeValuestring n
        let h ← h.freeString n
        let h ← h.free a
        Heap.deleteChain fuel h n.next) = _
      simp only [hn, hdelete, hvalue, hstring, hfree, hrestDelete, Option.bind_eq_bind,
        Option.bind_some, Heap.eraseAll_eraseAll]
      apply congrArg some
      apply Heap.eraseAll_congr
      intro r
      simp only [List.mem_append, List.mem_cons]
      tauto

mutual

theorem Owned.live : ∀ {t : ItemTree}, t.Owned h → ∀ r ∈ t.blocks, (h.cells r).isSome
  | .node a texts kids, ⟨n, hn, _, _, htexts, _, hkids⟩, r, hr => by
      rw [blocks, List.mem_cons, List.mem_append] at hr
      rcases hr with rfl | hr | hr
      · exact Heap.isSome_cells_of_node hn
      · exact Heap.isSome_cells_of_text (htexts r hr)
      · exact OwnedAll.live hkids r hr

theorem OwnedAll.live : ∀ {ts : List ItemTree}, OwnedAll h ts →
    ∀ r ∈ blocksOf ts, (h.cells r).isSome
  | [], _, _, hr => nomatch hr
  | _ :: _, ⟨ht, hts⟩, r, hr => by
      rcases List.mem_append.mp hr with hr | hr
      · exact Owned.live ht r hr
      · exact OwnedAll.live hts r hr

end

theorem Owned.delete_eq {t : ItemTree} (ht : t.Owned h) (hnodup : t.blocks.Nodup)
    (hnext : h.next t.addr = none) :
    h.delete (some t.addr) = some (h.eraseAll t.blocks) := by
  have hblocks : blocksOf [t] = t.blocks := by simp [blocksOf]
  have hsub : t.blocks ⊆ List.range h.fresh := fun r hr =>
    List.mem_range.mpr (Heap.lt_fresh (ht.live r hr))
  have hle := (List.subperm_of_subset hnodup hsub).length_le
  rw [List.length_range] at hle
  have hlinked : Linked h.next h.prev (h.prev t.addr) [t.addr] none := ⟨rfl, hnext, trivial⟩
  rw [← hblocks] at hnodup hle ⊢
  exact deleteChain_eq [t] hlinked ⟨ht, trivial⟩ hnodup hle

/-- The links of its root are not part of a tree. -/
theorem Owned.relinked {t : ItemTree} {array : Ref} {spine : List Ref} (ht : t.Owned h)
    (hrel : Heap.Relinked array spine h h') (hnodup : t.blocks.Nodup) (hroot : t.addr ≠ array)
    (hrest : ∀ r ∈ t.blocks, r ≠ t.addr → r ≠ array ∧ r ∉ spine) : t.Owned h' := by
  cases t with
  | node a texts kids =>
      obtain ⟨n, hn, htexts, hkey, hlive, hchain, hkids⟩ := ht
      rw [blocks, List.nodup_cons, List.mem_append, not_or] at hnodup
      have hsame : ∀ r ∈ blocksOf kids, h'.cells r = h.cells r := by
        intro r hr
        have hne : r ≠ a := by
          rintro rfl
          exact hnodup.1.2 hr
        obtain ⟨harray, hspine⟩ := hrest r
          (List.mem_cons_of_mem a (List.mem_append_right texts hr)) hne
        exact hrel.outside r harray hspine
      obtain ⟨next, prev, child, hn', hchild⟩ := hrel.nodes a n hn
      refine ⟨_, hn', htexts, hkey, ?_, ?_, hkids.congr hsame⟩
      · intro s hs
        have hmem : s ∈ (node a texts kids).blocks :=
          List.mem_cons_of_mem a (List.mem_append_left _ hs)
        have hne : s ≠ a := by
          rintro rfl
          exact hnodup.1.1 hs
        obtain ⟨harray, hspine⟩ := hrest s hmem hne
        rw [Heap.text, hrel.outside s harray hspine]
        exact hlive s hs
      · have hchildEq : child = n.child := hchild hroot
        subst hchildEq
        exact chain_congr hchain fun r hr => hsame r (map_addr_subset_blocksOf kids hr)

end ItemTree

end RebuildTheWheel.CJson
