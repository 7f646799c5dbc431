import RebuildTheWheel.CJson.Duplicate

namespace RebuildTheWheel.CJson

open RebuildTheWheel.Data

/-! Where `cJSON_Duplicate` puts the copy. -/

namespace ItemData

/-- The number of blocks of an item. -/
def blockCount (data : ItemData) : Nat := data.texts.length + 1

def valuestringAt (data : ItemData) (r : Nat) : Option Nat :=
  if data.valuestring.isSome then some (r + 1) else none

def stringAt (data : ItemData) (r : Nat) : Option Nat :=
  if data.string.isSome then some (r + data.texts.length) else none

end ItemData

/-- The copies of an item and its right siblings, with the blocks that `cJSON_Delete` frees,
when the first block is at `r`. -/
def place : Nat → Item → List ItemTree
  | _, .null => []
  | r, .node data child next =>
      .node r (Allocation.freed (r + 1) data.texts) (place (r + data.blockCount) child) ::
        place (r + data.blockCount + child.allocations.length) next

/-- The addresses of the siblings of a copy. -/
def roots (r : Nat) (item : Item) : List Ref := (place r item).map ItemTree.addr

theorem length_allocations_node (data : ItemData) (child next : Item) :
    (Item.node data child next).allocations.length =
      data.blockCount + (child.allocations.length + next.allocations.length) := by
  rw [Item.allocations, List.length_cons, List.length_append, List.length_append,
    ItemData.blockCount]
  omega

theorem blocksOf_place (r : Nat) (item : Item) :
    ItemTree.blocksOf (place r item) = Allocation.freed r item.allocations := by
  induction item generalizing r with
  | null => rfl
  | node data child next ihChild ihNext =>
      have hfreed : Allocation.freed r (Item.node data child next).allocations =
          r :: Allocation.freed (r + 1) (data.texts ++ (child.allocations ++ next.allocations)) :=
        rfl
      have hcount : r + 1 + data.texts.length = r + data.blockCount := by
        rw [ItemData.blockCount]
        omega
      rw [place, ItemTree.blocksOf, ItemTree.blocks, ihChild, ihNext, hfreed,
        Allocation.freed_append, Allocation.freed_append, hcount, List.cons_append,
        List.append_assoc]

theorem blocks_node (r : Nat) (data : ItemData) (child : Item) :
    (ItemTree.node r (Allocation.freed (r + 1) data.texts) (place (r + data.blockCount) child)).blocks =
      Allocation.freed r (Item.node data child .null).allocations := by
  rw [← blocksOf_place, place, place, ItemTree.blocksOf, ItemTree.blocksOf, List.append_nil]

theorem place_append (r : Nat) (front back : Item) :
    place r (front.append back) = place r front ++ place (r + front.allocations.length) back := by
  induction front generalizing r with
  | null => rfl
  | node data child next _ ih =>
      have hcount : r + data.blockCount + child.allocations.length + next.allocations.length =
          r + (Item.node data child next).allocations.length := by
        rw [length_allocations_node]
        omega
      rw [Item.append, place, place, ih, hcount, List.cons_append]

theorem allocations_append (front back : Item) :
    (front.append back).allocations = front.allocations ++ back.allocations := by
  induction front with
  | null => rfl
  | node data child next _ ih =>
      rw [Item.append, Item.allocations, Item.allocations, ih, List.cons_append, List.append_assoc,
        List.append_assoc]

theorem append_assoc (x y z : Item) : (x.append y).append z = x.append (y.append z) := by
  induction x with
  | null => rfl
  | node data child next _ ih =>
      rw [Item.append, Item.append, Item.append, ih]

theorem append_null (x : Item) : x.append .null = x := by
  induction x with
  | null => rfl
  | node data child next _ ih => rw [Item.append, ih]

theorem roots_append_node (r : Nat) (front : Item) (data : ItemData) (child : Item) :
    roots r (front.append (.node data child .null)) =
      roots r front ++ [r + front.allocations.length] := by
  rw [roots, place_append, List.map_append]
  rfl

theorem mem_roots_bounds {r p : Nat} {item : Item} (h : p ∈ roots r item) :
    r ≤ p ∧ p < r + item.allocations.length := by
  have hblock := ItemTree.map_addr_subset_blocksOf (place r item) h
  rw [blocksOf_place] at hblock
  exact Allocation.mem_freed_bounds hblock

/-- The fields of the copy of an item at `r`. -/
structure Placed (h : Heap) (r : Nat) (n : Node) (data : ItemData) : Prop where
  spells : n.Spells h data.unreferenced
  valuestring : n.valuestring = data.valuestringAt r
  string : n.string = (data.stringAt r).map Key.block

/-- The copies are in the heap, and each has its children; the links of the siblings at the
top are left open. -/
def CopiedAt (h : Heap) : Nat → Item → Prop
  | _, .null => True
  | r, .node data child next =>
      (∃ n, h.node r = some n ∧ Placed h r n data ∧
        Chain h.next h.prev n.child (roots (r + data.blockCount) child)) ∧
      CopiedAt h (r + data.blockCount) child ∧
      CopiedAt h (r + data.blockCount + child.allocations.length) next

variable {h h' : Heap}

theorem texts_bounds {data : ItemData} {r p : Nat}
    (hp : data.valuestringAt r = some p ∨ data.stringAt r = some p) :
    r < p ∧ p < r + data.blockCount := by
  cases hvalue : data.valuestring <;> cases hstring : data.string <;>
    simp [ItemData.valuestringAt, ItemData.stringAt, ItemData.blockCount, ItemData.texts, hvalue,
      hstring] at hp ⊢ <;> omega

/-- The fields of a copy are kept when its strings are. -/
theorem Placed.congr {r : Nat} {n : Node} {data : ItemData} (hn : Placed h r n data)
    (hcells : ∀ p : Nat, r < p → p < r + data.blockCount → h'.cells p = h.cells p) :
    Placed h' r n data := by
  have hvalue : h'.readText n.valuestring = h.readText n.valuestring := by
    rw [hn.valuestring]
    cases hat : data.valuestringAt r with
    | none => rfl
    | some p =>
        obtain ⟨hlt, hcount⟩ := texts_bounds (Or.inl hat)
        rw [Heap.readText, Heap.readText, text_congr (hcells p hlt hcount)]
  have hstring : h'.readKey n.string = h.readKey n.string := by
    rw [hn.string]
    cases hat : data.stringAt r with
    | none => rfl
    | some p =>
        obtain ⟨hlt, hcount⟩ := texts_bounds (Or.inr hat)
        rw [Option.map_some, Heap.readKey, Heap.readKey, text_congr (hcells p hlt hcount)]
  obtain ⟨htype, hint, hdouble, hvalueEq, hstringEq⟩ := hn.spells
  exact ⟨⟨htype, hint, hdouble, hvalue ▸ hvalueEq, hstring ▸ hstringEq⟩, hn.valuestring, hn.string⟩

theorem CopiedAt.congr {r : Nat} {item : Item} (hcopied : CopiedAt h r item)
    (hcells : ∀ p : Nat, r ≤ p → p < r + item.allocations.length → h'.cells p = h.cells p) :
    CopiedAt h' r item := by
  induction item generalizing r with
  | null => trivial
  | node data child next ihChild ihNext =>
      obtain ⟨⟨n, hn, hplaced, hchain⟩, hchild, hnext⟩ := hcopied
      rw [length_allocations_node] at hcells
      have hcount : 0 < data.blockCount := Nat.succ_pos _
      have hnode : h'.node r = some n := by
        rw [ItemTree.node_congr (hcells r (by omega) (by omega)), hn]
      refine ⟨⟨n, hnode, hplaced.congr ?_, ItemTree.chain_congr hchain ?_⟩, ihChild hchild ?_,
        ihNext hnext ?_⟩
      · intro p hlt hle
        exact hcells p (by omega) (by omega)
      · intro p hp
        obtain ⟨hle, hlt⟩ := mem_roots_bounds hp
        exact hcells p (by omega) (by omega)
      · intro p hle hlt
        exact hcells p (by omega) (by omega)
      · intro p hle hlt
        exact hcells p (by omega) (by omega)

theorem roots_node (r : Nat) (data : ItemData) (child next : Item) :
    roots r (.node data child next) =
      r :: roots (r + data.blockCount + child.allocations.length) next := rfl

/-- The top siblings may get other links. -/
theorem CopiedAt.relinked {array r : Nat} {spine : List Ref} {item : Item}
    (hcopied : CopiedAt h r item) (hrel : Heap.Relinked array spine h h') (harray : array < r)
    (hspine : ∀ p : Nat, r ≤ p → p < r + item.allocations.length → p ∉ roots r item → p ∉ spine) :
    CopiedAt h' r item := by
  induction item generalizing r with
  | null => trivial
  | node data child next ihChild ihNext =>
      obtain ⟨⟨n, hn, hplaced, hchain⟩, hchild, hnext⟩ := hcopied
      rw [length_allocations_node, roots_node] at hspine
      have hcount : 0 < data.blockCount := Nat.succ_pos _
      have hinner : ∀ p : Nat, r < p → p < r + data.blockCount + child.allocations.length →
          h'.cells p = h.cells p := by
        intro p hlt hle
        apply hrel.outside p (Nat.ne_of_gt (harray.trans hlt))
        apply hspine p (Nat.le_of_lt hlt) (by omega)
        rw [List.mem_cons, not_or]
        refine ⟨Nat.ne_of_gt hlt, ?_⟩
        intro hroot
        have hbounds := mem_roots_bounds hroot
        omega
      obtain ⟨nextLink, prevLink, childLink, hnode, hsame⟩ := hrel.nodes r n hn
      obtain rfl := hsame (Nat.ne_of_gt harray)
      have hplaced' : Placed h' r n data := hplaced.congr fun p hlt hle =>
        hinner p hlt (by omega)
      refine ⟨⟨_, hnode, ⟨⟨hplaced'.spells.1, hplaced'.spells.2, hplaced'.spells.3,
        hplaced'.spells.4, hplaced'.spells.5⟩, hplaced'.valuestring, hplaced'.string⟩,
        ItemTree.chain_congr hchain ?_⟩, hchild.congr ?_, ihNext hnext (by omega) ?_⟩
      · intro p hp
        obtain ⟨hle, hlt⟩ := mem_roots_bounds hp
        exact hinner p (by omega) (by omega)
      · intro p hle hlt
        exact hinner p (by omega) (by omega)
      · intro p hle hlt hroot
        refine hspine p (by omega) (by omega) ?_
        rw [List.mem_cons, not_or]
        exact ⟨by omega, hroot⟩

theorem Placed.ownedTexts {r : Nat} {n : Node} {data : ItemData} (hn : Placed h r n data) :
    n.ownedTexts = Allocation.freed (r + 1) data.texts := by
  have htype := hn.spells.type
  rw [Node.ownedTexts, hn.valuestring, hn.string, htype]
  cases hvalue : data.valuestring <;> cases hstring : data.string <;>
    cases hconst : data.type.stringIsConst <;>
    simp [ItemData.valuestringAt, ItemData.stringAt, ItemData.texts, ItemData.unreferenced, hvalue,
      hstring, hconst, Allocation.freed, Allocation.isLost]

theorem Placed.live {r : Nat} {n : Node} {data : ItemData} (hn : Placed h r n data) {p : Nat}
    (hp : p ∈ Allocation.freed (r + 1) data.texts) : (h.text p).isSome := by
  rw [← hn.ownedTexts, Node.ownedTexts, List.mem_append] at hp
  obtain hp | hp := hp
  · have hvalue := hn.spells.valuestring
    split at hp
    · cases hp
    · rw [Option.mem_toList] at hp
      rw [hp, Heap.readText] at hvalue
      cases htext : h.text p with
      | none =>
          rw [htext] at hvalue
          cases hvalue
      | some s => rfl
  · have hstring := hn.spells.string
    cases hkey : n.string with
    | none =>
        rw [hkey] at hp
        cases hp
    | some key =>
        cases key with
        | constant s =>
            rw [hkey] at hp
            cases hp
        | block b =>
            rw [hkey] at hp
            dsimp only at hp
            split at hp
            · cases hp
            · obtain rfl := List.mem_singleton.mp hp
              rw [hkey, Heap.readKey] at hstring
              cases htext : h.text p with
              | none =>
                  rw [htext] at hstring
                  cases hstring
              | some s => rfl

theorem CopiedAt.owned {r : Nat} {item : Item} (hcopied : CopiedAt h r item) :
    ItemTree.OwnedAll h (place r item) := by
  induction item generalizing r with
  | null => trivial
  | node data child next ihChild ihNext =>
      obtain ⟨⟨n, hn, hplaced, hchain⟩, hchild, hnext⟩ := hcopied
      have hmarked : n.KeyMarked := by
        intro s hs
        rw [hplaced.string] at hs
        cases hat : data.stringAt r with
        | none =>
            rw [hat] at hs
            cases hs
        | some p =>
            rw [hat] at hs
            cases hs
      have hreference : n.type.isReference = false := by
        rw [hplaced.spells.type]
        rfl
      refine ⟨⟨n, hn, hplaced.ownedTexts, hmarked, fun p hp => hplaced.live hp, ?_,
        ihChild hchild⟩, ihNext hnext⟩
      rw [Node.ownedChild, hreference]
      exact hchain

theorem texts_range (data : ItemData) (r : Nat) :
    (data.valuestringAt r).toList ++ (data.stringAt r).toList =
      List.range' (r + 1) data.texts.length := by
  cases hvalue : data.valuestring <;> cases hstring : data.string <;>
    simp [ItemData.valuestringAt, ItemData.stringAt, ItemData.texts, hvalue, hstring,
      List.range'_succ]

/-- The blocks of the copies are those from `r` on. -/
theorem CopiedAt.holdsOwn {r : Nat} {item : Item} {prev : Option Ref}
    (hcopied : CopiedAt h r item) (hlinked : Linked h.next h.prev prev (roots r item) none) :
    h.HoldsOwn prev (roots r item).head? item.unreferenced
      (List.range' r item.allocations.length) := by
  induction item generalizing r prev with
  | null => exact rfl
  | node data child next ihChild ihNext =>
      obtain ⟨⟨n, hn, hplaced, hchain⟩, hchild, hnext⟩ := hcopied
      rw [roots_node] at hlinked
      obtain ⟨hprevLink, hnextLink, hrest⟩ := hlinked
      rw [Option.or_none] at hnextLink
      have hprev : n.prev = prev := by
        rw [← hprevLink, Heap.prev, hn]
        rfl
      have hnextEq : n.next = (roots (r + data.blockCount + child.allocations.length) next).head? := by
        rw [← hnextLink, Heap.next, hn]
        rfl
      have hchildHeld := ihChild hchild hchain.2
      have hnextHeld := ihNext hnext hrest
      rw [← hchain.1] at hchildHeld
      rw [← hnextEq] at hnextHeld
      refine ⟨n, data.stringAt r, _, _, hn, hprev, hplaced.spells, hplaced.string, hchildHeld,
        hnextHeld, ?_⟩
      have hcount : r + data.blockCount = r + 1 + data.texts.length := by
        rw [ItemData.blockCount]
        omega
      have hlength : (Item.node data child next).allocations.length =
          data.texts.length + (child.allocations.length + next.allocations.length) + 1 := by
        rw [length_allocations_node, ItemData.blockCount]
        omega
      rw [hplaced.valuestring, texts_range, hlength, List.range'_succ, ← List.range'_append_1,
        ← List.range'_append_1, hcount]
      rfl

/-- `h` is `h0` with the copy of an item and its children in the blocks allocated since. -/
structure Copied (h0 : Heap) (item : Item) (h : Heap) : Prop where
  fresh : h.top = h0.top + item.allocations.length
  fails : h.fails = h0.fails
  before : ∀ r : Nat, r < h0.top → h.cells r = h0.cells r
  live : ∀ r : Nat, h0.top ≤ r → r < h.top → (h.cells r).isSome
  copied : CopiedAt h h0.top item
  linked : Linked h.next h.prev none (roots h0.top item) none

/-- Of the blocks allocated since `h0` only `keys` are left. -/
structure Leaves (h0 h : Heap) (keys : List Ref) : Prop where
  outside : ∀ r, r ∉ keys → h.cells r = h0.cells r
  keys : ∀ r ∈ keys, (h.cells r).isSome ∧ h0.top ≤ r

variable {h0 h1 : Heap}

/-- `cJSON_Delete` on a copy after the failure of a further allocation. -/
theorem Copied.discard {data : ItemData} {child : Item} {keys : List Ref}
    (hcopied : Copied h0 (.node data child .null) h) (hleaves : Leaves h h1 keys) :
    ∃ h', h1.discard h0.top = some (none, h') ∧
      Leaves h0 h' (Allocation.lost h0.top (Item.node data child .null).allocations ++ keys) := by
  have hblocks := blocks_node h0.top data child
  have hfresh := hcopied.fresh
  have hlive := hcopied.live
  have hcount : 0 < (Item.node data child .null).allocations.length := Nat.succ_pos _
  have hself : h0.top ∈ Allocation.freed h0.top (Item.node data child .null).allocations :=
    List.mem_cons_self
  generalize (Item.node data child .null).allocations = allocations at *
  have hapart : ∀ r ∈ Allocation.freed h0.top allocations, r ∉ keys := by
    intro r hr hkey
    have hlt := (Allocation.mem_freed_bounds hr).2
    rw [← hfresh] at hlt
    exact absurd (hleaves.keys r hkey).2 (Nat.not_le_of_gt hlt)
  have htree := (hcopied.copied.owned).1.congr fun r hr =>
    hleaves.outside r (hapart r (hblocks ▸ hr))
  have hroot : h1.next h0.top = none := by
    rw [ItemTree.next_congr (hleaves.outside h0.top (hapart _ hself))]
    exact hcopied.linked.2.1
  have hnodup := Allocation.nodup_freed h0.top allocations
  rw [← hblocks] at hnodup
  have hdelete := htree.delete_eq hnodup hroot
  rw [hblocks] at hdelete
  refine ⟨h1.eraseAll (Allocation.freed h0.top allocations), ?_, ?_, ?_⟩
  · rw [Heap.discard]
    exact congrArg (· >>= _) hdelete
  · intro r hr
    rw [List.mem_append, not_or, Allocation.mem_lost_iff] at hr
    by_cases hfreed : r ∈ Allocation.freed h0.top allocations
    · have hnone : h0.cells r = none := h0.bounded r (Allocation.mem_freed_bounds hfreed).1
      rw [hnone]
      exact if_pos hfreed
    · rw [Heap.cells_eraseAll_of_notMem hfreed, hleaves.outside r hr.2]
      by_cases hlt : r < h0.top
      · exact hcopied.before r hlt
      · have hrange : h.top ≤ r := by
          rw [hfresh]
          by_contra hin
          exact hr.1 ⟨⟨Nat.le_of_not_lt hlt, Nat.lt_of_not_le hin⟩, hfreed⟩
        rw [h.bounded r hrange, h0.bounded r (Nat.le_of_not_lt hlt)]
  · intro r hr
    obtain hlost | hkey := List.mem_append.mp hr
    · obtain ⟨⟨hle, hlt⟩, hfreed⟩ := Allocation.mem_lost_iff.mp hlost
      rw [← hfresh] at hlt
      have hkey : r ∉ keys := fun hkey => absurd (hleaves.keys r hkey).2 (Nat.not_le_of_gt hlt)
      rw [Heap.cells_eraseAll_of_notMem hfreed, hleaves.outside r hkey]
      exact ⟨hlive r hle hlt, hle⟩
    · have hfreed : r ∉ Allocation.freed h0.top allocations := fun hmem => hapart r hmem hkey
      rw [Heap.cells_eraseAll_of_notMem hfreed]
      refine ⟨(hleaves.keys r hkey).1, ?_⟩
      exact le_trans (by rw [hfresh]; exact Nat.le_add_right _ _) (hleaves.keys r hkey).2

/-! A finished child is linked behind the others. -/

theorem copiedAt_append {r : Nat} {front back : Item} :
    CopiedAt h r (front.append back) ↔
      CopiedAt h r front ∧ CopiedAt h (r + front.allocations.length) back := by
  induction front generalizing r with
  | null => exact (and_iff_right trivial).symm
  | node data child next _ ih =>
      have hcount : r + data.blockCount + child.allocations.length + next.allocations.length =
          r + (Item.node data child next).allocations.length := by
        rw [length_allocations_node]
        omega
      rw [Item.append, CopiedAt, CopiedAt, ih, hcount, and_assoc, and_assoc]

theorem isNode_of_copiedAt {r p : Nat} {item : Item} (hcopied : CopiedAt h r item)
    (hp : p ∈ roots r item) : h.isNode p := by
  induction item generalizing r with
  | null => cases hp
  | node data child next _ ih =>
      obtain ⟨⟨n, hn, -, -⟩, -, hnext⟩ := hcopied
      obtain rfl | hp := List.mem_cons.mp hp
      · exact Option.isSome_iff_exists.mpr ⟨n, hn⟩
      · exact ih hnext hp

theorem Copied.hasChildren {data : ItemData} {done : Item}
    (hcopied : Copied h0 (.node data done .null) h) :
    h.HasChildren h0.top (roots (h0.top + data.blockCount) done) := by
  obtain ⟨⟨n, hn, -, hchain⟩, hdone, -⟩ := hcopied.copied
  refine ⟨Option.isSome_iff_exists.mpr ⟨n, hn⟩, ?_, fun p hp => isNode_of_copiedAt hdone hp⟩
  rw [Heap.child, hn]
  exact hchain

theorem Copied.top_eq {data : ItemData} {done : Item} (hcopied : Copied h0 (.node data done .null) h) :
    h.top = h0.top + data.blockCount + done.allocations.length := by
  have hfresh := hcopied.fresh
  rw [length_allocations_node] at hfresh
  change h.top = h0.top + (data.blockCount + (done.allocations.length + 0)) at hfresh
  omega

/-- The children are copied behind the item. -/
theorem Copied.root_bounds {data : ItemData} {done : Item} {p : Nat}
    (hcopied : Copied h0 (.node data done .null) h)
    (hp : p ∈ roots (h0.top + data.blockCount) done) : h0.top < p ∧ p < h.top := by
  have htop := hcopied.top_eq
  have hcount : 0 < data.blockCount := Nat.succ_pos _
  obtain ⟨hle, hlt⟩ := mem_roots_bounds hp
  constructor <;> omega

theorem Copied.linkChild {data d : ItemData} {done c : Item}
    (hcopied : Copied h0 (.node data done .null) h) (hchild : Copied h (.node d c .null) h1) :
    ∃ h2, h1.linkChild h0.top h.top (roots (h0.top + data.blockCount) done).getLast? = some h2 ∧
      Copied h0 (.node data (done.append (.node d c .null)) .null) h2 := by
  have hend := hcopied.top_eq.symm
  have hcount : 0 < data.blockCount := Nat.succ_pos _
  have hgrows : h0.top < h.top := by omega
  have hsame : ∀ r : Nat, r < h.top → h1.cells r = h.cells r := hchild.before
  have hbelow : ∀ p : Nat, p ∈ roots (h0.top + data.blockCount) done → h0.top < p ∧ p < h.top :=
    fun _ hp => hcopied.root_bounds hp
  have hc : h1.HasChildren h0.top (roots (h0.top + data.blockCount) done) := by
    apply hcopied.hasChildren.congr
    intro p hp
    obtain rfl | hp := List.mem_cons.mp hp
    · exact hsame _ (by omega)
    · exact hsame p (hbelow p hp).2
  have hx : h1.Detached h.top := by
    obtain ⟨⟨n, hn, -, -⟩, -⟩ := hchild.copied
    exact ⟨Option.isSome_iff_exists.mpr ⟨n, hn⟩, hchild.linked.2.1, hchild.linked.1⟩
  have hmem : h.top ∉ roots (h0.top + data.blockCount) done := fun hp =>
    Nat.lt_irrefl _ (hbelow _ hp).2
  have hself : h0.top ∉ roots (h0.top + data.blockCount) done := fun hp =>
    Nat.lt_irrefl _ (hbelow _ hp).1
  obtain ⟨h2, hadd, hc2, hrel, hnext, hprev⟩ :=
    linkChild_spec hc hx hmem (Nat.ne_of_gt hgrows) hself
  obtain ⟨⟨n, hn, hplaced, -⟩, hdone, -⟩ := hcopied.copied
  have hn1 : h1.node h0.top = some n := by
    rw [ItemTree.node_congr (hsame h0.top (by omega)), hn]
  obtain ⟨next, prev, child, hn2, -⟩ := hrel.nodes h0.top n hn1
  have htext : ∀ p : Nat, h0.top < p → p < h0.top + data.blockCount → h2.cells p = h.cells p := by
    intro p hlt hle
    have hp : p < h.top := by omega
    rw [hrel.outside p (Nat.ne_of_gt hlt), hsame p hp]
    rw [List.mem_cons, not_or]
    refine ⟨Nat.ne_of_lt hp, ?_⟩
    intro hroot
    have hbounds := mem_roots_bounds hroot
    omega
  have hplaced2 := hplaced.congr htext
  have hdone2 : CopiedAt h2 (h0.top + data.blockCount) done := by
    have hdone1 : CopiedAt h1 (h0.top + data.blockCount) done := hdone.congr fun p hle hlt =>
      hsame p (by omega)
    apply hdone1.relinked hrel (by omega)
    intro p hle hlt hp
    have hbefore : p < h.top := by omega
    rw [List.mem_cons, not_or]
    exact ⟨Nat.ne_of_lt hbefore, hp⟩
  have hlast2 : CopiedAt h2 h.top (.node d c .null) := by
    apply hchild.copied.relinked hrel (by omega)
    intro p hle hlt hp
    rw [roots_node, List.mem_cons, not_or] at hp
    rw [List.mem_cons, not_or]
    refine ⟨hp.1, ?_⟩
    intro hmem'
    have hbounds := hbelow p hmem'
    omega
  have hlength : (done.append (.node d c .null)).allocations.length =
      done.allocations.length + (Item.node d c .null).allocations.length := by
    rw [allocations_append, List.length_append]
  refine ⟨h2, hadd, ?_, ?_, ?_, ?_, ⟨⟨_, hn2, ⟨⟨hplaced2.spells.1, hplaced2.spells.2, hplaced2.spells.3,
    hplaced2.spells.4, hplaced2.spells.5⟩, hplaced2.valuestring, hplaced2.string⟩, ?_⟩, ?_,
    trivial⟩, ?_⟩
  · have hgrown := hchild.fresh
    have htop2 : h2.top = h1.top := hrel.fresh
    rw [length_allocations_node data]
    change h2.top = _ + (_ + (_ + 0))
    omega
  · rw [hrel.fails, hchild.fails, hcopied.fails]
  · intro r hr
    have hlt : r < h.top := by omega
    rw [hrel.outside r (Nat.ne_of_lt hr), hsame r hlt, hcopied.before r hr]
    rw [List.mem_cons, not_or]
    refine ⟨Nat.ne_of_lt hlt, ?_⟩
    intro hp
    have hbounds := hbelow r hp
    omega
  · intro r hle hlt
    apply hrel.live
    have htop2 : h2.top = h1.top := hrel.fresh
    by_cases hr : r < h.top
    · rw [hsame r hr]
      exact hcopied.live r hle hr
    · exact hchild.live r (Nat.le_of_not_lt hr) (by omega)
  · have hchain := hc2.chain
    rw [Heap.child, hn2] at hchain
    rw [roots_append_node, hend]
    exact hchain
  · rw [copiedAt_append, hend]
    exact ⟨hdone2, hlast2⟩
  · have hlinked := hcopied.linked
    have hcell := hsame h0.top hgrows
    exact ⟨hprev.trans ((ItemTree.prev_congr hcell).trans hlinked.1),
      hnext.trans ((ItemTree.next_congr hcell).trans hlinked.2.1), trivial⟩

end RebuildTheWheel.CJson
