import RebuildTheWheel.CJson.ContainerOps

namespace RebuildTheWheel.CJson

open RebuildTheWheel.Data

/-! A new item as the last child. -/

/-- The next address, as a number. -/
abbrev Heap.top (h : Heap) : Nat := h.fresh

namespace Heap

/-- `newchild` becomes the last child of `newitem`; `nptr` is the one before it. -/
def linkChild (h : Heap) (newitem newchild : Ref) (nptr : Option Ref) : Option Heap :=
  match nptr with
  | some nptr => h.suffixObject nptr newchild
  | none => h.storeChild newitem (some newchild)

end Heap

variable {h h' : Heap}

/-! A new block, at the next address. -/

theorem Heap.cells_push_of_lt (h : Heap) (block : Block) {r : Nat} (hr : r < h.top) :
    (h.push block).cells r = h.cells r := if_neg (Nat.ne_of_lt hr)

theorem Heap.cells_push_top (h : Heap) (block : Block) : (h.push block).cells h.top = some block :=
  if_pos rfl

theorem Heap.node_push_top (h : Heap) (n : Node) : (h.push (.node n)).node h.top = some n := by
  rw [Heap.node, Heap.cells_push_top]

theorem Heap.text_push_top (h : Heap) (s : CString) : (h.push (.text s)).text h.top = some s := by
  rw [Heap.text, Heap.cells_push_top]

theorem Heap.detached_push (h : Heap) : (h.push (.node {})).Detached h.top := by
  refine ⟨Option.isSome_iff_exists.mpr ⟨_, h.node_push_top {}⟩, ?_, ?_⟩
  · rw [Heap.next, h.node_push_top]
    rfl
  · rw [Heap.prev, h.node_push_top]
    rfl

theorem text_congr {r : Ref} (hr : h'.cells r = h.cells r) : h'.text r = h.text r := by
  rw [Heap.text, Heap.text, hr]

theorem linkChild_eq {array : Ref} {children : List Ref} (hc : h.HasChildren array children)
    (x : Ref) :
    h.linkChild array x children.getLast? = h.addItemToArray array (some x) := by
  cases children with
  | nil =>
      have hchild : h.child array = none := hc.chain.1
      rw [Heap.addItemToArray, Heap.loadChild_eq hc.node, hchild]
      rfl
  | cons c rest =>
      have hchild : h.child array = some c := hc.chain.1
      obtain ⟨last, hlast⟩ : ∃ last, (c :: rest).getLast? = some last :=
        Option.isSome_iff_exists.mp (by simp)
      have hwalk : Heap.lastOf h.fresh h c = some last := by
        rw [Heap.lastOf_eq hc.chain.2 hc.nodes hc.length_le, hlast]
      rw [Heap.addItemToArray, Heap.loadChild_eq hc.node, hchild, hlast]
      change _ = Heap.lastOf h.fresh h c >>= _
      rw [hwalk]
      rfl

/-- The links of the new item itself stay as they are. -/
theorem linkChild_root {array x : Ref} {nptr : Option Ref} (hlink : h.linkChild array x nptr = some h')
    (harray : h.isNode array) (hx : x ≠ array) (hnptr : nptr ≠ some array) :
    h'.next array = h.next array ∧ h'.prev array = h.prev array := by
  cases nptr with
  | none =>
      rw [Heap.linkChild, Heap.storeChild_eq harray] at hlink
      obtain rfl := Option.some.inj hlink
      rw [Heap.next_setChild, Heap.prev_setChild]
      exact ⟨rfl, rfl⟩
  | some p =>
      have hp : array ≠ p := fun h => hnptr (congrArg some h.symm)
      rw [Heap.linkChild, Heap.suffixObject] at hlink
      obtain ⟨h1, hnext, hprev⟩ := Option.bind_eq_some_iff.mp hlink
      rw [Heap.storeNext, Heap.store, Option.ite_none_right_eq_some] at hnext
      rw [Heap.storePrev, Heap.store, Option.ite_none_right_eq_some] at hprev
      obtain ⟨hpNode, hnext⟩ := hnext
      obtain ⟨hxNode, hprev⟩ := hprev
      obtain rfl := Option.some.inj hnext
      obtain rfl := Option.some.inj hprev
      constructor
      · exact ((Heap.next_setPrev ..).symm ▸ Heap.next_setNext hpNode _ array).trans (if_neg hp)
      · exact ((Heap.prev_setPrev hxNode _ array).trans (if_neg (Ne.symm hx))).trans
          (congrFun (Heap.prev_setNext h p (some x)) array)

theorem Heap.Relinked.live {array : Ref} {spine : List Ref} (hrel : Heap.Relinked array spine h h')
    {r : Ref} (hr : (h.cells r).isSome) : (h'.cells r).isSome := by
  obtain ⟨block, hblock⟩ := Option.isSome_iff_exists.mp hr
  cases block with
  | text s =>
      rw [hrel.texts r s hblock]
      rfl
  | node n =>
      have hn : h.node r = some n := by
        rw [Heap.node, hblock]
      obtain ⟨_, _, _, hn', _⟩ := hrel.nodes r n hn
      exact Heap.isSome_cells_of_node hn'

/-- Relinking the nodes of a list allocates and frees nothing. -/
theorem Heap.Relinked.live_iff {array : Ref} {spine : List Ref}
    (hrel : Heap.Relinked array spine h h') (harray : h.isNode array)
    (hspine : ∀ r ∈ spine, h.isNode r) (r : Ref) : (h'.cells r).isSome ↔ (h.cells r).isSome := by
  refine ⟨fun hr => ?_, hrel.live⟩
  by_contra hdead
  have hne : r ≠ array := fun heq => hdead (heq ▸ Heap.isSome_cells_of_isNode harray)
  have hout : r ∉ spine := fun hmem => hdead (Heap.isSome_cells_of_isNode (hspine r hmem))
  rw [hrel.outside r hne hout] at hr
  exact hdead hr

theorem linkChild_spec {array x : Ref} {children : List Ref} (hc : h.HasChildren array children)
    (hx : h.Detached x) (hmem : x ∉ children) (hself : x ≠ array) (harray : array ∉ children) :
    ∃ h', h.linkChild array x children.getLast? = some h' ∧
      h'.HasChildren array (children ++ [x]) ∧ Heap.Relinked array (x :: children) h h' ∧
      h'.next array = h.next array ∧ h'.prev array = h.prev array := by
  obtain ⟨h', hadd, hc', hrel⟩ := hc.addItemToArray hx hmem
  rw [← linkChild_eq hc] at hadd
  exact ⟨h', hadd, hc', hrel, linkChild_root hadd hc.node hself fun hlast =>
    harray (List.mem_of_mem_getLast? hlast)⟩

end RebuildTheWheel.CJson
