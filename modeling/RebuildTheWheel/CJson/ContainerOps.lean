import RebuildTheWheel.CJson.ItemTree

namespace RebuildTheWheel.CJson.Heap

open RebuildTheWheel.Data

/-! The container operations as operations on the list of children. -/

variable {h h' : Heap} {array x c : Ref} {children : List Ref}

theorem child_congr {r : Ref} (hr : h'.cells r = h.cells r) : h'.child r = h.child r := by
  rw [child, child, ItemTree.node_congr hr]

theorem isNode_congr {r : Ref} (hr : h'.cells r = h.cells r) : h'.isNode r = h.isNode r := by
  rw [isNode, isNode, ItemTree.node_congr hr]

theorem HasChildren.congr (hc : HasChildren h array children)
    (hcells : ∀ r ∈ array :: children, h'.cells r = h.cells r) :
    HasChildren h' array children := by
  have harray := hcells array List.mem_cons_self
  have hrest : ∀ r ∈ children, h'.cells r = h.cells r := fun r hr =>
    hcells r (List.mem_cons_of_mem array hr)
  constructor
  · rw [isNode_congr harray]
    exact hc.node
  · rw [child_congr harray]
    exact ItemTree.chain_congr hc.chain hrest
  · intro r hr
    rw [isNode_congr (hrest r hr)]
    exact hc.nodes r hr

/-- The blocks of the item `c` form a tree that none of `others` is in. -/
def OwnsApart (h : Heap) (c : Ref) (others : List Ref) : Prop :=
  ∃ t : ItemTree, t.addr = c ∧ t.Owned h ∧ t.blocks.Nodup ∧ ∀ r ∈ others, r ∉ t.blocks

/-- The call returns, and the container has the children. -/
def Becomes (result : Option Heap) (array : Ref) (children : List Ref) : Prop :=
  ∃ h', result = some h' ∧ HasChildren h' array children

/-- The call returns the item, detached. -/
def DetachesTo (result : Option (Option Ref × Heap)) (item : Option Ref) (array : Ref)
    (children : List Ref) : Prop :=
  ∃ h', result = some (item, h') ∧ HasChildren h' array children ∧
    ∀ c, item = some c → Detached h' c

theorem split_at {n : Nat} (hn : children[n]? = some c) :
    children = children.take n ++ c :: children.drop (n + 1) := by
  obtain ⟨hlt, rfl⟩ := List.getElem?_eq_some_iff.mp hn
  rw [← List.drop_eq_getElem_cons hlt, List.take_append_drop]

theorem drop_of_split {n : Nat} (hn : children[n]? = some c) :
    children.drop n = c :: children.drop (n + 1) := by
  obtain ⟨hlt, rfl⟩ := List.getElem?_eq_some_iff.mp hn
  exact List.drop_eq_getElem_cons hlt

theorem length_le_of_none {n : Nat} (hn : children[n]? = none) : children.length ≤ n :=
  List.getElem?_eq_none_iff.mp hn

theorem insert_becomes (hc : HasChildren h array children) (hx : Detached h x)
    (hmem : x ∉ children) (which : Int32) :
    Becomes (h.insertItemInArray array which x) array
      (children.take which.toInt.toNat ++ x :: children.drop which.toInt.toNat) := by
  have hitem := hc.itemAt_eq which
  generalize which.toInt.toNat = n at hitem ⊢
  cases hn : children[n]? with
  | none =>
      have hlength := length_le_of_none hn
      obtain ⟨h', hadd, hc', _⟩ := hc.addItemToArray hx hmem
      refine ⟨h', ?_, ?_⟩
      · simp only [insertItemInArray, hitem, hn]
        exact hadd
      · rw [List.take_of_length_le hlength, List.drop_of_length_le hlength]
        exact hc'
  | some c =>
      have hsplit := split_at hn
      rw [hsplit] at hc hmem
      rw [drop_of_split hn]
      exact ⟨_, hc.insertItemInArray hx.node hmem (hitem.trans (congrArg some hn)),
        hc.linkBefore hx.node hmem⟩

theorem detach_becomes (hc : HasChildren h array children) (which : Int32) :
    DetachesTo (h.detachItemFromArray array which) children[which.toInt.toNat]? array
      (children.eraseIdx which.toInt.toNat) := by
  have hitem := hc.itemAt_eq which
  generalize which.toInt.toNat = n at hitem ⊢
  cases hn : children[n]? with
  | none =>
      refine ⟨h, ?_, ?_, ?_⟩
      · simp [detachItemFromArray, hitem, hn]
      · rw [List.eraseIdx_of_length_le (length_le_of_none hn)]
        exact hc
      · rintro c ⟨⟩
  | some c =>
      have hsplit := split_at hn
      rw [hsplit] at hc
      refine ⟨_, hc.detachItemFromArray (hitem.trans (congrArg some hn)), ?_, ?_⟩
      · rw [List.eraseIdx_eq_take_drop_succ]
        exact hc.unlink.1
      · rintro _ ⟨⟩
        exact hc.unlink.2

/-- Deleting an item that is out of the container leaves the container alone. -/
theorem HasChildren.delete {t : ItemTree} {spine : List Ref} (hc : HasChildren h' array children)
    (hx : Detached h' t.addr) (hrel : Relinked array spine h h') (ht : t.Owned h)
    (hnodup : t.blocks.Nodup) (hapart : ∀ r ∈ array :: children, r ∉ t.blocks)
    (hspine : ∀ r ∈ spine, r ≠ t.addr → r ∉ t.blocks) :
    Becomes (h'.delete (some t.addr)) array children := by
  have harray := hapart array List.mem_cons_self
  have ht' : t.Owned h' := by
    apply ht.relinked hrel hnodup
    · intro heq
      exact harray (heq ▸ t.addr_mem_blocks)
    · intro r hr hne
      refine ⟨?_, fun hmem => hspine r hmem hne hr⟩
      rintro rfl
      exact harray hr
  refine ⟨_, ht'.delete_eq hnodup hx.next, hc.congr ?_⟩
  intro r hr
  exact cells_eraseAll_of_notMem (hapart r hr)

theorem delete_becomes (hc : HasChildren h array children) (which : Int32)
    (howns : ∀ c, children[which.toInt.toNat]? = some c →
      OwnsApart h c (array :: children.eraseIdx which.toInt.toNat)) :
    Becomes (h.deleteItemFromArray array which) array
      (children.eraseIdx which.toInt.toNat) := by
  have hitem := hc.itemAt_eq which
  generalize which.toInt.toNat = n at hitem howns ⊢
  cases hn : children[n]? with
  | none =>
      refine ⟨h, ?_, ?_⟩
      · simp [deleteItemFromArray, detachItemFromArray, hitem, hn, delete, deleteChain]
      · rw [List.eraseIdx_of_length_le (length_le_of_none hn)]
        exact hc
  | some c =>
      obtain ⟨t, rfl, ht, hnodup, hapart⟩ := howns c hn
      rw [List.eraseIdx_eq_take_drop_succ] at hapart ⊢
      rw [split_at hn] at hc
      have hdetach := hc.detachItemFromArray (hitem.trans (congrArg some hn))
      rw [deleteItemFromArray, hdetach]
      apply hc.unlink.1.delete hc.unlink.2 hc.relinked_unlink ht hnodup hapart
      intro r hr hne
      apply hapart r (List.mem_cons_of_mem array _)
      simp only [List.mem_append, List.mem_cons] at hr ⊢
      tauto

theorem replace_becomes (hc : HasChildren h array children) (hx : h.isNode x)
    (hmem : x ∉ children) (which : Int32)
    (howns : ∀ c, children[which.toInt.toNat]? = some c →
      OwnsApart h c (x :: array :: children.eraseIdx which.toInt.toNat)) :
    Becomes (h.replaceItemInArray array which x) array (children.set which.toInt.toNat x) := by
  have hitem := hc.itemAt_eq which
  generalize which.toInt.toNat = n at hitem howns ⊢
  cases hn : children[n]? with
  | none =>
      refine ⟨h, ?_, ?_⟩
      · simp [replaceItemInArray, hitem, hn]
      · rw [List.set_eq_of_length_le (length_le_of_none hn)]
        exact hc
  | some c =>
      obtain ⟨t, rfl, ht, hnodup, hapart⟩ := howns c hn
      have hlt := (List.getElem?_eq_some_iff.mp hn).1
      rw [List.eraseIdx_eq_take_drop_succ] at hapart
      rw [List.set_eq_take_append_cons_drop, if_pos hlt]
      rw [split_at hn] at hc hmem
      rw [hc.replaceItemInArray hx hmem (hitem.trans (congrArg some hn))]
      obtain ⟨hchildren, hdetached, hrel⟩ := hc.substitute hx hmem
      apply hchildren.delete hdetached hrel ht hnodup
      · intro r hr
        apply hapart
        simp only [List.mem_append, List.mem_cons] at hr ⊢
        tauto
      · intro r hr hne
        apply hapart
        simp only [List.mem_append, List.mem_cons] at hr ⊢
        tauto

/-! The operations that take a name. -/

theorem findName_eq {before : Option Ref} {fuel : Nat} {string : Option CString} {i j : Int32}
    {found : Option Ref} (hlinked : Linked h.next h.prev before children none)
    (hfound : findName fuel h string children.head? i = some (found, j)) :
    ∀ c, found = some c → ∃ k, children[k]? = some c ∧ j = i + Int32.ofNat k := by
  induction children generalizing before fuel i with
  | nil =>
      cases fuel <;> cases hfound <;> rintro c ⟨⟩
  | cons d children ih =>
      cases fuel with
      | zero => cases hfound
      | succ fuel =>
          obtain ⟨_, hnext, hrest⟩ := hlinked
          rw [List.head?_cons, findName] at hfound
          obtain ⟨n, hn, hfound⟩ := Option.bind_eq_some_iff.mp hfound
          obtain ⟨name, _, hfound⟩ := Option.bind_eq_some_iff.mp hfound
          have hnextEq : n.next = children.head? := by
            rw [Option.or_none] at hnext
            rw [← hnext, next, hn]
            rfl
          split at hfound
          · rw [hnextEq] at hfound
            intro c hc
            obtain ⟨k, hk, rfl⟩ := ih hrest hfound c hc
            refine ⟨k + 1, hk, ?_⟩
            rw [Int32.add_assoc]
            congr 1
            rw [Int32.ofNat_add, Int32.add_comm]
            rfl
          · cases hfound
            rintro c ⟨⟩
            exact ⟨0, rfl, (Int32.add_zero j).symm⟩

theorem toNat_ofNat {k : Nat} (hk : k < 2 ^ 31) : (Int32.ofNat k).toInt.toNat = k := by
  rw [Int32.toInt_ofNat', Int.bmod_eq_of_le]
  · exact Int.toNat_natCast k
  · have : (0 : Int) ≤ k := Int.natCast_nonneg k
    omega
  · simp only [Int32.size]
    omega

theorem HasChildren.itemNamed_eq (hc : HasChildren h array children)
    (hget : h.getObjectItem array string = some (some c)) :
    ∃ k, children[k]? = some c ∧ h.itemNamed array string = some (some c, Int32.ofNat k) := by
  obtain ⟨⟨_, j⟩, hnamed, hfound⟩ := Option.bind_eq_some_iff.mp hget
  cases hfound
  rw [hnamed]
  rw [itemNamed, loadChild_eq hc.node, hc.chain.1] at hnamed
  obtain ⟨k, hk, rfl⟩ := findName_eq hc.chain.2 hnamed c rfl
  refine ⟨k, hk, ?_⟩
  rw [Int32.zero_add]

theorem HasChildren.itemNamed_none (hget : h.getObjectItem array string = some none) :
    ∃ j, h.itemNamed array string = some (none, j) := by
  obtain ⟨⟨_, j⟩, hnamed, hfound⟩ := Option.bind_eq_some_iff.mp hget
  cases hfound
  exact ⟨j, hnamed⟩

theorem HasChildren.idxOf_eq (hc : HasChildren h array children) {k : Nat}
    (hk : children[k]? = some c) : children.idxOf c = k := by
  obtain ⟨hlt, rfl⟩ := List.getElem?_eq_some_iff.mp hk
  exact hc.chain.nodup.idxOf_getElem k hlt

theorem HasChildren.modify (hc : HasChildren h array children) {r : Ref} {f : Node → Node}
    (hf : ∀ n, (f n).next = n.next ∧ (f n).prev = n.prev ∧ (f n).child = n.child) :
    HasChildren (h.modify r f) array children := by
  have hnext : (h.modify r f).next = h.next :=
    funext fun p => bind_modify_same (fun n => (hf n).1) h r p
  have hprev : (h.modify r f).prev = h.prev :=
    funext fun p => bind_modify_same (fun n => (hf n).2.1) h r p
  have hchild : (h.modify r f).child = h.child :=
    funext fun p => bind_modify_same (fun n => (hf n).2.2) h r p
  constructor
  · rw [isNode_modify]
    exact hc.node
  · rw [hnext, hprev, hchild]
    exact hc.chain
  · intro d hd
    rw [isNode_modify]
    exact hc.nodes d hd

theorem cells_malloc {r : Ref} (hr : (h.cells r).isSome) (block : Block) :
    (h.malloc block).2.cells r = h.cells r := by
  rw [malloc]
  split
  · rfl
  · exact if_neg (Nat.ne_of_lt (lt_fresh hr))

theorem cells_modify_of_ne {r p : Ref} (hp : p ≠ r) (f : Node → Node) :
    (h.modify r f).cells p = h.cells p :=
  if_neg hp

theorem isSome_cells_of_isNode {r : Ref} (hr : h.isNode r) : (h.cells r).isSome := by
  obtain ⟨n, hn⟩ := node_of_isNode hr
  exact isSome_cells_of_node hn

theorem OwnsApart.congr {others : List Ref} (howns : OwnsApart h c others)
    (hcells : ∀ r, (h.cells r).isSome → r ∉ others → h'.cells r = h.cells r) :
    OwnsApart h' c others := by
  obtain ⟨t, htc, ht, hnodup, hapart⟩ := howns
  refine ⟨t, htc, ht.congr ?_, hnodup, hapart⟩
  intro r hr
  exact hcells r (ht.live r hr) fun hmem => hapart r hmem hr

theorem HasChildren.erase_eq (hc : HasChildren h array children) {k : Nat}
    (hk : children[k]? = some c) : children.erase c = children.eraseIdx k := by
  rw [← hc.idxOf_eq hk]
  exact List.erase_eq_eraseIdx_of_idxOf rfl

theorem replaceNamed_becomes (hc : HasChildren h array children) (hx : h.isNode x)
    (hmem : x ∉ children) (name : CString) {k : Nat}
    (hnamed : h.itemNamed array (some name) = some (some c, Int32.ofNat k))
    (hk : children[k]? = some c) (hlt : k < 2 ^ 31)
    (howns : OwnsApart h c (x :: array :: children.erase c)) :
    Becomes (h.replaceItemInObject array (some name) x) array (children.set k x) := by
  have hcells : ∀ r, h.isNode r → (h.strdup name).2.cells r = h.cells r := fun r hr =>
    cells_malloc (isSome_cells_of_isNode hr) _
  have hxNode : (h.strdup name).2.isNode x := by
    rw [isNode_congr (hcells x hx)]
    exact hx
  have hc' : HasChildren (h.strdup name).2 array children := by
    apply hc.congr
    intro r hr
    rcases List.mem_cons.mp hr with rfl | hr
    · exact hcells r hc.node
    · exact hcells r (hc.nodes r hr)
  obtain ⟨f, hf, hreplace⟩ : ∃ f : Node → Node,
      (∀ n, (f n).next = n.next ∧ (f n).prev = n.prev ∧ (f n).child = n.child) ∧
      h.replaceItemInObject array (some name) x =
        ((h.strdup name).2.modify x f).replaceItemInArray array (Int32.ofNat k) x := by
    refine ⟨fun n => { n with string := (h.strdup name).1.map Key.block }, ?_, ?_⟩
    · exact fun n => ⟨rfl, rfl, rfl⟩
    · simp [replaceItemInObject, hnamed, store_eq hxNode]
  rw [hreplace]
  have hindex := toNat_ofNat hlt
  rw [hc.erase_eq hk] at howns
  have hc'' : HasChildren ((h.strdup name).2.modify x f) array children := hc'.modify hf
  have hset := replace_becomes hc'' ?_ hmem (Int32.ofNat k) ?_
  · rwa [hindex] at hset
  · rw [isNode_modify]
    exact hxNode
  · intro d hd
    rw [hindex] at hd ⊢
    obtain rfl := Option.some.inj (hd.symm.trans hk)
    apply howns.congr
    intro r hr hother
    have hne : r ≠ x := by
      rintro rfl
      exact hother List.mem_cons_self
    rw [cells_modify_of_ne hne]
    exact cells_malloc hr _

/-- On a well-formed container the operations are those of a list. -/
theorem containerOps_list (hc : HasChildren h array children) (hx : Detached h x)
    (hmem : x ∉ children) :
    Becomes (h.addItemToArray array (some x)) array (children ++ [x]) ∧
    (∀ which : Int32,
      Becomes (h.insertItemInArray array which x) array
        (children.take which.toInt.toNat ++ x :: children.drop which.toInt.toNat) ∧
      ((∀ c, children[which.toInt.toNat]? = some c →
          OwnsApart h c (x :: array :: children.eraseIdx which.toInt.toNat)) →
        Becomes (h.replaceItemInArray array which x) array
          (children.set which.toInt.toNat x)) ∧
      DetachesTo (h.detachItemFromArray array which) children[which.toInt.toNat]? array
        (children.eraseIdx which.toInt.toNat) ∧
      ((∀ c, children[which.toInt.toNat]? = some c →
          OwnsApart h c (array :: children.eraseIdx which.toInt.toNat)) →
        Becomes (h.deleteItemFromArray array which) array
          (children.eraseIdx which.toInt.toNat))) ∧
    (∀ string c, h.getObjectItem array string = some (some c) → children.idxOf c < 2 ^ 31 →
      DetachesTo (h.detachItemFromObject array string) (some c) array (children.erase c) ∧
      (OwnsApart h c (array :: children.erase c) →
        Becomes (h.deleteItemFromObject array string) array (children.erase c)) ∧
      (∀ name, string = some name → OwnsApart h c (x :: array :: children.erase c) →
        Becomes (h.replaceItemInObject array string x) array
          (children.set (children.idxOf c) x))) ∧
    (∀ string, h.getObjectItem array string = some none →
      h.detachItemFromObject array string = some (none, h) ∧
      h.deleteItemFromObject array string = some h ∧
      h.replaceItemInObject array string x = some h) := by
  refine ⟨?_, ?_, ?_, ?_⟩
  · obtain ⟨h', hadd, hc', _⟩ := hc.addItemToArray hx hmem
    exact ⟨h', hadd, hc'⟩
  · intro which
    exact ⟨insert_becomes hc hx hmem which, replace_becomes hc hx.node hmem which,
      detach_becomes hc which, delete_becomes hc which⟩
  · intro string c hget hlt
    obtain ⟨k, hk, hnamed⟩ := hc.itemNamed_eq hget
    rw [hc.idxOf_eq hk] at hlt ⊢
    rw [hc.erase_eq hk]
    have hindex := toNat_ofNat hlt
    have hdetach : h.detachItemFromObject array string =
        h.detachItemFromArray array (Int32.ofNat k) := by
      simp [detachItemFromObject, hnamed]
    have hdelete : h.deleteItemFromObject array string =
        h.deleteItemFromArray array (Int32.ofNat k) := by
      rw [deleteItemFromObject, hdetach]
      rfl
    refine ⟨?_, ?_, ?_⟩
    · have hbecomes := detach_becomes hc (Int32.ofNat k)
      rwa [hindex, hk, ← hdetach] at hbecomes
    · intro howns
      have hbecomes := delete_becomes hc (Int32.ofNat k)
      rw [hindex, ← hdelete] at hbecomes
      apply hbecomes
      intro d hd
      obtain rfl := Option.some.inj (hd.symm.trans hk)
      exact howns
    · rintro name rfl howns
      rw [← hc.erase_eq hk] at howns
      exact replaceNamed_becomes hc hx.node hmem name hnamed hk hlt howns
  · intro string hget
    obtain ⟨j, hnamed⟩ := HasChildren.itemNamed_none hget
    simp [detachItemFromObject, deleteItemFromObject, replaceItemInObject, hnamed, delete,
      deleteChain]

/-- The container at 0 has the children 1 and 2; 3 is detached. -/
def pairHeap : Heap where
  cells := fun r =>
    if r = 0 then some (.node { child := some 1 })
    else if r = 1 then some (.node { next := some 2 })
    else if r = 2 then some (.node { prev := some 1 })
    else if r = 3 then some (.node {})
    else none
  fresh := 4
  fails := fun _ => false
  bounded := by
    intro r hr
    rw [if_neg, if_neg, if_neg, if_neg] <;>
    · rintro rfl
      exact absurd hr (by decide)

theorem containerOps_list_pair :
    HasChildren pairHeap 0 [1, 2] ∧ Detached pairHeap 3 ∧ 3 ∉ [1, 2] ∧
      Becomes (pairHeap.addItemToArray 0 (some 3)) 0 [1, 2, 3] ∧
      Becomes (pairHeap.insertItemInArray 0 1 3) 0 [1, 3, 2] ∧
      DetachesTo (pairHeap.detachItemFromArray 0 1) (some 2) 0 [1] := by
  have hc : HasChildren pairHeap 0 [1, 2] := by
    refine ⟨rfl, ⟨rfl, rfl, rfl, rfl, rfl, trivial⟩, ?_⟩
    intro c hmem
    rcases List.mem_cons.mp hmem with rfl | hmem
    · rfl
    · obtain rfl := List.mem_singleton.mp hmem
      rfl
  have hx : Detached pairHeap 3 := ⟨rfl, rfl, rfl⟩
  have hmem : 3 ∉ [1, 2] := by decide
  have h := containerOps_list hc hx hmem
  exact ⟨hc, hx, hmem, h.1, (h.2.1 1).1, (h.2.1 1).2.2.1⟩

/-! Containers of any length, whose last child is the only one named `b`. -/

def nameA : CString := ⟨[97], by decide⟩

def nameB : CString := ⟨[98], by decide⟩

/-- The container is at 0 and its children are at 1 to `n`. -/
def rowCells (n r : Ref) : Option Block :=
  if r = 0 then some (.node { child := some 1 })
  else if r ≤ n then
    some (.node
      { next := if r < n then some (r + 1) else none
        prev := if 1 < r then some (r - 1) else none
        string := some (.constant (if r < n then nameA else nameB)) })
  else none

def rowHeap (n : Nat) : Heap where
  cells := rowCells n
  fresh := n + 1
  fails := fun _ => false
  bounded := by
    intro r hr
    rw [rowCells, if_neg (Nat.ne_of_gt (Nat.zero_lt_of_lt hr)), if_neg (Nat.not_le.mpr hr)]

theorem node_rowHeap {n r : Nat} (hpos : 0 < r) (hr : r ≤ n) :
    (rowHeap n).node r = some
      { next := if r < n then some (r + 1) else none
        prev := if 1 < r then some (r - 1) else none
        string := some (.constant (if r < n then nameA else nameB)) } := by
  simp [node, rowHeap, rowCells, hr, Nat.ne_of_gt hpos]

theorem linked_rowHeap (n : Nat) : ∀ length first : Nat, 0 < first → first + length = n + 1 →
    Linked (rowHeap n).next (rowHeap n).prev (if 1 < first then some (first - 1) else none)
      (List.range' first length) none
  | 0, _, _, _ => trivial
  | length + 1, first, hpos, hlength => by
      have hnode := node_rowHeap (n := n) hpos (by omega)
      refine ⟨?_, ?_, ?_⟩
      · rw [prev, hnode]
        rfl
      · rw [next, hnode]
        cases length with
        | zero => simp; omega
        | succ length =>
            have hlt : first < n := by omega
            simp [List.range'_succ, hlt]
      · have hrest := linked_rowHeap n length (first + 1) (by omega) (by omega)
        rw [if_pos (by omega), Nat.add_sub_cancel] at hrest
        exact hrest

theorem hasChildren_rowHeap {n : Nat} (hn : 0 < n) :
    HasChildren (rowHeap n) 0 (List.range' 1 n) where
  node := rfl
  chain := by
    obtain ⟨n, rfl⟩ := Nat.exists_eq_succ_of_ne_zero (Nat.ne_of_gt hn)
    exact ⟨rfl, linked_rowHeap (n + 1) (n + 1) 1 Nat.one_pos (Nat.add_comm 1 _)⟩
  nodes := by
    intro r hr
    rw [List.mem_range'_1] at hr
    rw [isNode, node_rowHeap hr.1 (by omega)]
    rfl

theorem findName_skip {before : Option Ref} {string : Option CString} {xs ys : List Ref}
    (hlinked : Linked h.next h.prev before (xs ++ ys) none)
    (hnames : ∀ r ∈ xs, ∃ n name, h.node r = some n ∧ h.readKey n.string = some name ∧
      strcasecmp name string ≠ 0) (fuel : Nat) (i : Int32) :
    findName (xs.length + fuel) h string (xs ++ ys).head? i =
      findName fuel h string ys.head? (i + Int32.ofNat xs.length) := by
  induction xs generalizing before i with
  | nil =>
      rw [List.length_nil, Nat.zero_add, List.nil_append]
      exact congrArg _ (Int32.add_zero i).symm
  | cons x xs ih =>
      rw [List.cons_append] at hlinked
      obtain ⟨_, hnext, hrest⟩ := hlinked
      obtain ⟨n, name, hn, hname, hne⟩ := hnames x List.mem_cons_self
      have hnextEq : n.next = (xs ++ ys).head? := by
        rw [Option.or_none] at hnext
        rw [← hnext, next, hn]
        rfl
      have hstep : ∀ fuel i, findName (fuel + 1) h string (x :: (xs ++ ys)).head? i =
          findName fuel h string (xs ++ ys).head? (i + 1) := by
        intro fuel i
        rw [List.head?_cons, findName, hn]
        simp [hname, hne, hnextEq]
      rw [List.length_cons, Nat.add_right_comm, List.cons_append, hstep,
        ih hrest fun r hr => hnames r (List.mem_cons_of_mem x hr)]
      congr 1
      rw [Int32.add_assoc, Int32.ofNat_add]
      congr 1
      rw [Int32.add_comm]
      rfl

theorem itemNamed_rowHeap (n : Nat) :
    (rowHeap (n + 1)).itemNamed 0 (some nameB) = some (some (n + 1), Int32.ofNat n) := by
  have hlinked := linked_rowHeap (n + 1) (n + 1) 1 Nat.one_pos (Nat.add_comm 1 _)
  rw [List.range'_1_concat] at hlinked
  have hnames : ∀ r ∈ List.range' 1 n, ∃ m name, (rowHeap (n + 1)).node r = some m ∧
      (rowHeap (n + 1)).readKey m.string = some name ∧ strcasecmp name (some nameB) ≠ 0 := by
    intro r hr
    rw [List.mem_range'_1] at hr
    have hlt : r < n + 1 := by omega
    refine ⟨_, some nameA, node_rowHeap hr.1 (Nat.le_of_lt hlt), ?_, by decide⟩
    simp [readKey, hlt]
  have hskip := findName_skip hlinked hnames 2 0
  rw [List.length_range', List.head?_cons, Int32.zero_add] at hskip
  have hlast : findName 2 (rowHeap (n + 1)) (some nameB) (some (1 + n)) (Int32.ofNat n) =
      some (some (n + 1), Int32.ofNat n) := by
    have hnode := node_rowHeap (Nat.succ_pos n) (Nat.le_refl (n + 1))
    have hcmp : strcasecmp (some nameB) (some nameB) = 0 := by decide
    rw [Nat.add_comm 1 n, findName, hnode]
    simp [readKey, hcmp]
  have hchild : (List.range' 1 n ++ [1 + n]).head? = some 1 := by
    rw [← List.range'_1_concat]
    rfl
  rw [hlast, hchild] at hskip
  exact hskip

/-- With 2 ^ 31 children in front of it, an item is named but the first one detached. -/
theorem detach_wrong_item :
    ∃ (h : Heap) (array : Ref) (children : List Ref) (string : Option CString) (c d : Ref)
      (h' : Heap), HasChildren h array children ∧
        h.getObjectItem array string = some (some c) ∧
        h.detachItemFromObject array string = some (some d, h') ∧ d ≠ c := by
  have hwrap : ∀ n, n = 2 ^ 31 → (Int32.ofNat n).toInt.toNat = 0 := by
    rintro n rfl
    decide
  obtain ⟨n, hn⟩ : ∃ n : Nat, n = 2 ^ 31 := ⟨_, rfl⟩
  have hnamed := itemNamed_rowHeap n
  have hchildren := hasChildren_rowHeap (Nat.succ_pos n)
  obtain ⟨h', hdetach, _⟩ := detach_becomes hchildren (Int32.ofNat n)
  rw [hwrap n hn] at hdetach
  refine ⟨_, 0, _, some nameB, n + 1, 1, h', hchildren, ?_, ?_, ?_⟩
  · rw [getObjectItem, hnamed]
    rfl
  · rw [detachItemFromObject, hnamed]
    exact hdetach
  · intro heq
    have : 1 = n + 1 := heq
    omega

end RebuildTheWheel.CJson.Heap
