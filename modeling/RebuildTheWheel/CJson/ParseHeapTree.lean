import RebuildTheWheel.CJson.ParseHeap

namespace RebuildTheWheel.CJson

open RebuildTheWheel.Data
open ItemTree

/-! The tree below an item while it is parsed. -/

/-- An item as the parser makes it. -/
structure Node.Plain (n : Node) : Prop where
  isReference : n.type.isReference = false
  stringIsConst : n.type.stringIsConst = false
  string : ∃ key, n.string = Option.map Key.block key

theorem Node.Plain.ownedTexts {n : Node} (hn : n.Plain) :
    n.ownedTexts = n.valuestring.toList ++ Heap.ownedName n := by
  rw [Node.ownedTexts, hn.isReference]
  rfl

theorem Node.Plain.keyMarked {n : Node} (hn : n.Plain) : n.KeyMarked := by
  intro s hs
  obtain ⟨key, hkey⟩ := hn.string
  rw [hkey] at hs
  cases key <;> cases hs

/-- `h` is `h0` with `item` filled in: the blocks allocated since and not freed are its string
and those of its children. -/
structure Fills (h0 h : Heap) (item : Nat) (n0 n : Node) (kids : List ItemTree) : Prop where
  top : h0.top ≤ h.top
  fails : h.fails = h0.fails
  frame : ∀ r : Nat, r < h0.top → r ≠ item → h.cells r = h0.cells r
  before : h0.node item = some n0
  node : h.node item = some n
  plain : n.Plain
  next : n.next = n0.next
  prev : n.prev = n0.prev
  string : n.string = n0.string
  chain : Chain h.next h.prev n.child (kids.map addr)
  owned : OwnedAll h kids
  text : ∀ v, n.valuestring = some v → (h.text v).isSome
  nodup : (n.valuestring.toList ++ blocksOf kids).Nodup
  mem_iff : ∀ r : Nat, r ∈ n.valuestring.toList ++ blocksOf kids ↔
    h0.top ≤ r ∧ (h.cells r).isSome

variable {h h' h0 : Heap} {item c : Nat} {n n' n0 m m' m0 : Node} {kids kids' : List ItemTree}

/-- An item without children and without a string of its own. -/
structure Blank (h : Heap) (item : Nat) (n : Node) : Prop where
  node : h.node item = some n
  plain : n.Plain
  child : n.child = none
  valuestring : n.valuestring = none
  name : ∀ r ∈ Heap.ownedName n, (h.text r).isSome

theorem Blank.fills (hn : Blank h item n) : Fills h h item n n [] where
  top := le_rfl
  fails := rfl
  frame _ _ _ := rfl
  before := hn.node
  node := hn.node
  plain := hn.plain
  next := rfl
  prev := rfl
  string := rfl
  chain := ⟨hn.child, trivial⟩
  owned := trivial
  text v hv := nomatch hn.valuestring.symm.trans hv
  nodup := by
    rw [hn.valuestring]
    exact List.nodup_nil
  mem_iff r := by
    rw [hn.valuestring]
    refine iff_of_false List.not_mem_nil ?_
    rintro ⟨hle, hlive⟩
    rw [h.bounded r hle] at hlive
    cases hlive

namespace Fills

variable (hf : Fills h0 h item n0 n kids)

include hf

theorem item_lt : item < h0.top := Heap.lt_fresh (Heap.isSome_cells_of_node hf.before)

theorem le_of_mem {r : Nat} (hr : r ∈ blocksOf kids) : h0.top ≤ r :=
  ((hf.mem_iff r).mp (List.mem_append_right _ hr)).1

theorem lt_of_mem {r : Nat} (hr : r ∈ blocksOf kids) : r < h.top :=
  Heap.lt_fresh ((hf.mem_iff r).mp (List.mem_append_right _ hr)).2

theorem ne_of_mem {r : Nat} (hr : r ∈ blocksOf kids) : r ≠ item :=
  Nat.ne_of_gt (hf.item_lt.trans_le (hf.le_of_mem hr))

/-- The fields of the item that are not links may change, and its string. -/
theorem update (htop : h.top ≤ h'.top) (hfails : h'.fails = h.fails)
    (hcells : ∀ r : Nat, r < h.top → r ≠ item → h'.cells r = h.cells r)
    (hnode : h'.node item = some n') (hplain : n'.Plain)
    (hlinks : n'.next = n.next ∧ n'.prev = n.prev ∧ n'.child = n.child)
    (hstring : n'.string = n.string) (htext : ∀ v, n'.valuestring = some v → (h'.text v).isSome)
    (hnodup : (n'.valuestring.toList ++ blocksOf kids).Nodup)
    (hmem : ∀ r : Nat, r ∈ n'.valuestring.toList ++ blocksOf kids ↔
      h0.top ≤ r ∧ (h'.cells r).isSome) : Fills h0 h' item n0 n' kids where
  top := hf.top.trans htop
  fails := hfails.trans hf.fails
  frame r hr hne := (hcells r (hr.trans_le hf.top) hne).trans (hf.frame r hr hne)
  before := hf.before
  node := hnode
  plain := hplain
  next := hlinks.1.trans hf.next
  prev := hlinks.2.1.trans hf.prev
  string := hstring.trans hf.string
  chain := by
    rw [hlinks.2.2]
    apply chain_congr hf.chain
    intro r hr
    have hmem := map_addr_subset_blocksOf kids hr
    exact hcells r (hf.lt_of_mem hmem) (hf.ne_of_mem hmem)
  owned := hf.owned.congr fun r hr => hcells r (hf.lt_of_mem hr) (hf.ne_of_mem hr)
  text := htext
  nodup := hnodup
  mem_iff := hmem

/-- A store to the item. -/
theorem modify {f : Node → Node} (hplain : (f n).Plain)
    (hlinks : (f n).next = n.next ∧ (f n).prev = n.prev ∧ (f n).child = n.child)
    (hstring : (f n).string = n.string) (hvalue : (f n).valuestring = n.valuestring) :
    h.store item f = some (h.modify item f) ∧ Fills h0 (h.modify item f) item n0 (f n) kids := by
  have hnode : h.isNode item := Option.isSome_iff_exists.mpr ⟨n, hf.node⟩
  have hcells : ∀ r : Nat, r ≠ item → (h.modify item f).cells r = h.cells r := fun r hr =>
    Heap.cells_modify_of_ne hr f
  have hnew : (h.modify item f).node item = some (f n) := by
    rw [Heap.node_modify, if_pos rfl, hf.node]
    rfl
  refine ⟨Heap.store_eq hnode f, hf.update le_rfl rfl (fun r _ hr => hcells r hr) hnew hplain hlinks
    hstring ?_ ?_ ?_⟩
  · intro v hv
    rw [hvalue] at hv
    have hle := ((hf.mem_iff v).mp (List.mem_append_left _ (by rw [hv]; exact List.mem_singleton_self v))).1
    rw [text_congr (hcells v (Nat.ne_of_gt (hf.item_lt.trans_le hle)))]
    exact hf.text v hv
  · rw [hvalue]
    exact hf.nodup
  · intro r
    rw [hvalue, hf.mem_iff]
    by_cases hr : r = item
    · have hlt := hf.item_lt
      constructor <;>
      · rintro ⟨hle, -⟩
        omega
    · rw [hcells r hr]

/-- An allocation fails. -/
theorem skipAddress : Fills h0 h.skipAddress item n0 n kids :=
  hf.update (Nat.le_succ _) rfl (fun _ _ _ => rfl) hf.node hf.plain ⟨rfl, rfl, rfl⟩ rfl hf.text hf.nodup
    hf.mem_iff

/-- The item gets a new block as its string. -/
theorem addText (hnone : n.valuestring = none) (s : CString) (f : Node → Node) (hplain : (f n).Plain)
    (hlinks : (f n).next = n.next ∧ (f n).prev = n.prev ∧ (f n).child = n.child)
    (hstring : (f n).string = n.string) (hvalue : (f n).valuestring = some h.fresh) :
    (h.push (.text s)).store item f = some ((h.push (.text s)).modify item f) ∧
      Fills h0 ((h.push (.text s)).modify item f) item n0 (f n) kids := by
  have hitem : item < h.top := hf.item_lt.trans_le hf.top
  have hpush : ∀ r : Nat, r < h.top → (h.push (.text s)).cells r = h.cells r := fun _ hr =>
    h.cells_push_of_lt _ hr
  have hnode : (h.push (.text s)).node item = some n := by
    rw [node_congr (hpush item hitem), hf.node]
  have hcells : ∀ r : Nat, r ≠ item →
      ((h.push (.text s)).modify item f).cells r = (h.push (.text s)).cells r := fun r hr =>
    Heap.cells_modify_of_ne hr f
  have hnew : ((h.push (.text s)).modify item f).node item = some (f n) := by
    rw [Heap.node_modify, if_pos rfl, hnode]
    rfl
  have hlast : ((h.push (.text s)).modify item f).text h.top = some s := by
    rw [text_congr (hcells h.top (Nat.ne_of_gt hitem)), h.text_push_top]
  have hnodup := hf.nodup
  rw [hnone] at hnodup
  refine ⟨Heap.store_eq (Option.isSome_iff_exists.mpr ⟨n, hnode⟩) f, hf.update (Nat.le_succ _) rfl
    (fun r hlt hr => (hcells r hr).trans (hpush r hlt)) hnew hplain hlinks hstring ?_ ?_ ?_⟩
  · intro v hv
    obtain rfl := Option.some.inj (hvalue.symm.trans hv)
    rw [hlast]
    rfl
  · rw [hvalue]
    refine List.nodup_cons.mpr ⟨?_, hnodup⟩
    intro hr
    exact Nat.lt_irrefl _ (hf.lt_of_mem hr)
  · intro r
    have hmem := hf.mem_iff r
    rw [hnone] at hmem
    rw [hvalue]
    change r ∈ h.top :: blocksOf kids ↔ _
    rw [List.mem_cons, show r ∈ blocksOf kids ↔ _ from hmem]
    have hlt := hf.item_lt
    have htop := hf.top
    by_cases hlatest : r = h.top
    · subst hlatest
      exact iff_of_true (Or.inl rfl) ⟨htop, Heap.isSome_cells_of_text (by rw [hlast]; rfl)⟩
    · by_cases hr : r = item
      · constructor
        · rintro (hbad | ⟨hle, -⟩)
          · exact absurd hbad hlatest
          · omega
        · rintro ⟨hle, -⟩
          omega
      · rw [hcells r hr]
        have hsame : (h.push (.text s)).cells r = h.cells r := if_neg hlatest
        rw [hsame]
        exact or_iff_right hlatest

end Fills

theorem cells_of_text {r : Ref} {s : CString} (hr : h.text r = some s) :
    h.cells r = some (.text s) := by
  unfold Heap.text at hr
  split at hr
  · next t hcell => rw [hcell, Option.some.inj hr]
  · cases hr

theorem ne_of_text_of_node {r p : Ref} (hr : (h.text r).isSome) (hp : h.node p = some n) : r ≠ p := by
  rintro rfl
  obtain ⟨s, hs⟩ := Option.isSome_iff_exists.mp hr
  rw [Heap.node, cells_of_text hs] at hp
  cases hp

/-- The inner blocks of a tree are apart from the roots of its list. -/
theorem inner_notMem_roots {ts : List ItemTree} (hnodup : (blocksOf ts).Nodup) {t : ItemTree}
    (ht : t ∈ ts) {r : Ref} (hr : r ∈ t.blocks) (hne : r ≠ t.addr) : r ∉ ts.map addr := by
  induction ts with
  | nil => cases ht
  | cons t' ts ih =>
      obtain ⟨ht', hts, hapart⟩ := List.nodup_append.mp hnodup
      rw [List.map_cons, List.mem_cons, not_or]
      obtain rfl | ht := List.mem_cons.mp ht
      · exact ⟨hne, fun hmem => hapart r hr r (map_addr_subset_blocksOf ts hmem) rfl⟩
      · refine ⟨?_, ih hts ht⟩
        rintro rfl
        exact hapart _ t'.addr_mem_blocks _ (mem_blocksOf.mpr ⟨t, ht, hr⟩) rfl

theorem ownedAll_iff {ts : List ItemTree} : OwnedAll h ts ↔ ∀ t ∈ ts, t.Owned h := by
  induction ts with
  | nil => simp [OwnedAll]
  | cons t ts ih => simp [OwnedAll, ih]

theorem nodup_of_mem_blocksOf {ts : List ItemTree} (hnodup : (blocksOf ts).Nodup) {t : ItemTree}
    (ht : t ∈ ts) : t.blocks.Nodup := by
  induction ts with
  | nil => cases ht
  | cons t' ts ih =>
      obtain ⟨ht', hts, -⟩ := List.nodup_append.mp hnodup
      obtain rfl | ht := List.mem_cons.mp ht
      · exact ht'
      · exact ih hts ht

theorem blocksOf_append (ts ts' : List ItemTree) :
    blocksOf (ts ++ ts') = blocksOf ts ++ blocksOf ts' := by
  induction ts with
  | nil => rfl
  | cons t ts ih => rw [List.cons_append, blocksOf, blocksOf, ih, List.append_assoc]

namespace Fills

theorem hasChildren (hf : Fills h0 h item n0 n kids) : h.HasChildren item (kids.map addr) := by
  refine ⟨Option.isSome_iff_exists.mpr ⟨n, hf.node⟩, ?_, ?_⟩
  · rw [Heap.child, hf.node]
    exact hf.chain
  · intro r hr
    obtain ⟨t, ht, rfl⟩ := List.mem_map.mp hr
    have howned := ownedAll_iff.mp hf.owned t ht
    cases t with
    | node a texts kids =>
        obtain ⟨n, hn, -⟩ := howned
        exact Option.isSome_iff_exists.mpr ⟨n, hn⟩

/-- A new item without fields becomes the last child. -/
theorem newChild (hf : Fills h0 h item n0 n kids) :
    ∃ h2 n2 m, (h.push (.node {})).linkChild item h.fresh (kids.map addr).getLast? = some h2 ∧
      Fills h0 h2 item n0 n2 (kids ++ [.node h.fresh [] []]) ∧ Blank h2 h.top m ∧
      m.string = none := by
  have hitem : item < h.top := hf.item_lt.trans_le hf.top
  have hpush : ∀ r : Nat, r < h.top → (h.push (.node {})).cells r = h.cells r := fun _ hr =>
    h.cells_push_of_lt _ hr
  have hnew : (h.push (.node {})).node h.fresh = some {} := h.node_push_top {}
  have hroots : ∀ r : Nat, r ∈ kids.map addr → h0.top ≤ r ∧ r < h.top := fun r hr =>
    have hmem := map_addr_subset_blocksOf kids hr
    ⟨hf.le_of_mem hmem, hf.lt_of_mem hmem⟩
  have hc : (h.push (.node {})).HasChildren item (kids.map addr) := by
    apply hf.hasChildren.congr
    intro r hr
    obtain rfl | hr := List.mem_cons.mp hr
    · exact hpush _ hitem
    · exact hpush r (hroots r hr).2
  have hmem : h.fresh ∉ kids.map addr := fun hr => Nat.lt_irrefl _ (hroots _ hr).2
  have hself : item ∉ kids.map addr := fun hr =>
    absurd (hroots _ hr).1 (Nat.not_le_of_gt hf.item_lt)
  obtain ⟨h2, hlink, hc2, hrel, hnext, hprev⟩ :=
    linkChild_spec hc h.detached_push hmem (Nat.ne_of_gt hitem) hself
  have hitem1 : (h.push (.node {})).node item = some n := by
    rw [node_congr (hpush item hitem), hf.node]
  obtain ⟨next2, prev2, child2, hn2, -⟩ := hrel.nodes item n hitem1
  obtain ⟨nextM, prevM, childM, hm2, hchildM⟩ := hrel.nodes h.fresh _ hnew
  have hchildM : childM = none := hchildM (Nat.ne_of_gt hitem)
  refine ⟨h2, { n with next := next2, prev := prev2, child := child2 }, _, hlink, ?_,
    ⟨hm2, ⟨rfl, rfl, none, rfl⟩, hchildM, rfl, fun r hr => by cases hr⟩, rfl⟩
  have hspine : ∀ r : Nat, r < h0.top → r ∉ h.fresh :: kids.map addr := by
    intro r hr
    rw [List.mem_cons, not_or]
    exact ⟨Nat.ne_of_lt (hr.trans_le hf.top), fun hmem => absurd (hroots r hmem).1 (Nat.not_le_of_gt hr)⟩
  have hnodup : (blocksOf kids).Nodup := (List.nodup_append.mp hf.nodup).2.1
  have hliveIff : ∀ r : Nat, (h2.cells r).isSome ↔ ((h.push (.node {})).cells r).isSome :=
    hrel.live_iff hc.node
      (List.forall_mem_cons.mpr ⟨Option.isSome_iff_exists.mpr ⟨_, hnew⟩, hc.nodes⟩)
  have htextKept : ∀ v, (h.text v).isSome → (h2.text v).isSome := by
    intro v hv
    obtain ⟨s, hs⟩ := Option.isSome_iff_exists.mp hv
    have hlt : v < h.top := Heap.lt_fresh (Heap.isSome_cells_of_text hv)
    have hcell : (h.push (.node {})).cells v = some (.text s) := by
      rw [hpush v hlt, cells_of_text hs]
    rw [Heap.text, hrel.texts v s hcell]
    rfl
  refine
    { top := ?_, fails := hrel.fails.trans hf.fails, frame := ?_, before := hf.before, node := hn2
      plain := ⟨hf.plain.1, hf.plain.2, hf.plain.3⟩, next := ?_, prev := ?_, string := hf.string
      chain := ?_, owned := ?_, text := fun v hv => htextKept v (hf.text v hv), nodup := ?_
      mem_iff := ?_ }
  · have hfresh : h2.top = h.top + 1 := hrel.fresh
    have htop := hf.top
    omega
  · intro r hr hne
    rw [hrel.outside r hne (hspine r hr), hpush r (hr.trans_le hf.top), hf.frame r hr hne]
  · rw [Heap.next, hn2, Heap.next, hitem1] at hnext
    exact Eq.trans hnext hf.next
  · rw [Heap.prev, hn2, Heap.prev, hitem1] at hprev
    exact Eq.trans hprev hf.prev
  · have hchain := hc2.chain
    rw [Heap.child, hn2] at hchain
    rw [List.map_append]
    exact hchain
  · rw [ownedAll_iff]
    intro t ht
    obtain ht | ht := List.mem_append.mp ht
    · have hsame : ∀ r ∈ t.blocks, (h.push (.node {})).cells r = h.cells r := fun r hr =>
        hpush r (hf.lt_of_mem (mem_blocksOf.mpr ⟨t, ht, hr⟩))
      apply ((ownedAll_iff.mp hf.owned t ht).congr hsame).relinked hrel
        (nodup_of_mem_blocksOf hnodup ht)
      · exact hf.ne_of_mem (mem_blocksOf.mpr ⟨t, ht, t.addr_mem_blocks⟩)
      · intro r hr hne
        refine ⟨hf.ne_of_mem (mem_blocksOf.mpr ⟨t, ht, hr⟩), ?_⟩
        rw [List.mem_cons, not_or]
        exact ⟨Nat.ne_of_lt (hf.lt_of_mem (mem_blocksOf.mpr ⟨t, ht, hr⟩)),
          inner_notMem_roots hnodup ht hr hne⟩
    · obtain rfl := List.mem_singleton.mp ht
      refine ⟨_, hm2, rfl, fun s hs => (by cases hs), fun r hr => (by cases hr), ?_, trivial⟩
      exact ⟨hchildM, trivial⟩
  · have hold := hf.nodup
    rw [blocksOf_append, ← List.append_assoc, List.nodup_append]
    refine ⟨hold, List.nodup_singleton _, ?_⟩
    rintro r hr _ hlast rfl
    have hlt := Heap.lt_fresh ((hf.mem_iff r).mp hr).2
    obtain rfl : r = h.top := List.mem_singleton.mp hlast
    exact Nat.lt_irrefl _ hlt
  · intro r
    rw [blocksOf_append, ← List.append_assoc, List.mem_append, hf.mem_iff, hliveIff]
    change _ ∨ r ∈ [h.top] ↔ _
    rw [List.mem_singleton]
    have htop := hf.top
    by_cases hlatest : r = h.top
    · subst hlatest
      exact iff_of_true (Or.inr rfl) ⟨htop, Heap.isSome_cells_of_node hnew⟩
    · have hsame : (h.push (.node {})).cells r = h.cells r := if_neg hlatest
      rw [hsame]
      exact or_iff_left hlatest

/-- Two stages one after another: the blocks of both are what lives since the first began. -/
theorem mem_append_iff {olds news : List Ref} (htop : h0.top ≤ h.top)
    (hold : ∀ r : Nat, r ∈ olds ↔ h0.top ≤ r ∧ (h.cells r).isSome)
    (hnew : ∀ r : Nat, r ∈ news ↔ h.top ≤ r ∧ (h'.cells r).isSome)
    (hlive : ∀ r : Nat, r < h.top → ((h'.cells r).isSome ↔ (h.cells r).isSome)) (r : Nat) :
    r ∈ olds ++ news ↔ h0.top ≤ r ∧ (h'.cells r).isSome := by
  rw [List.mem_append, hold, hnew]
  by_cases hr : r < h.top
  · rw [hlive r hr]
    exact or_iff_left fun hbad => absurd hr (Nat.not_lt_of_ge hbad.1)
  · have hdead : ¬(h.cells r).isSome := fun hsome => hr (Heap.lt_fresh hsome)
    constructor
    · rintro (⟨-, hbad⟩ | ⟨hge, hsome⟩)
      · exact absurd hbad hdead
      · exact ⟨htop.trans hge, hsome⟩
    · exact fun hsome => Or.inr ⟨Nat.le_of_not_lt hr, hsome.2⟩

/-- The last child is filled in. -/
theorem child {texts : List Ref} (hf : Fills h0 h item n0 n (kids ++ [.node c texts []]))
    (hm : Blank h c m0) (hc : Fills h h' c m0 m kids') :
    Fills h0 h' item n0 n (kids ++ [.node c m.ownedTexts kids']) := by
  have hall := blocksOf_append kids [.node c texts []]
  have hmemChild : c ∈ blocksOf (kids ++ [.node c texts []]) := by
    rw [hall]
    exact List.mem_append_right _ List.mem_cons_self
  have hle : h0.top ≤ c := hf.le_of_mem hmemChild
  have hlt : c < h.top := hf.lt_of_mem hmemChild
  have hitem := hf.item_lt
  have hcells : ∀ r : Nat, r < h.top → r ≠ c → h'.cells r = h.cells r := hc.frame
  have hitemNe : item ≠ c := by omega
  have hnodupOld := hf.nodup
  have hownedOld := ownedAll_iff.mp hf.owned
  obtain ⟨m1, hm1, htexts, -⟩ := hownedOld (.node c texts [])
    (List.mem_append_right _ (List.mem_singleton_self _))
  obtain rfl : m0 = m1 := Option.some.inj (hm.node.symm.trans hm1)
  have hnames : texts = Heap.ownedName m0 := by
    rw [← htexts, hm.plain.ownedTexts, hm.valuestring]
    rfl
  have hnamesSame : Heap.ownedName m = Heap.ownedName m0 := by
    rw [Heap.ownedName, Heap.ownedName, hc.string, hc.plain.stringIsConst, hm.plain.stringIsConst]
  have htextKept : ∀ v, (h.text v).isSome → (h'.text v).isSome := by
    intro v hv
    have hcell := hcells v (Heap.lt_fresh (Heap.isSome_cells_of_text hv))
      (ne_of_text_of_node hv hm.node)
    rwa [text_congr hcell]
  have hleaf : blocksOf [.node c texts []] = c :: texts := by
    simp [blocksOf, blocks]
  have hfilled : blocksOf [.node c m.ownedTexts kids'] =
      c :: (m.valuestring.toList ++ texts ++ blocksOf kids') := by
    simp [blocksOf, blocks, hc.plain.ownedTexts, hnamesSame, hnames]
  have hperm : (n.valuestring.toList ++ blocksOf (kids ++ [.node c m.ownedTexts kids'])).Perm
      (n.valuestring.toList ++ blocksOf (kids ++ [.node c texts []]) ++
        (m.valuestring.toList ++ blocksOf kids')) := by
    rw [blocksOf_append, blocksOf_append, hleaf, hfilled]
    simp only [List.append_assoc, List.cons_append]
    refine (List.Perm.refl _).append ((List.Perm.refl _).append (List.Perm.cons c ?_))
    exact List.perm_append_comm_assoc _ _ _
  have hkidsNe : ∀ r ∈ blocksOf kids, r ≠ c := by
    rintro r hr rfl
    have hnodup := (List.nodup_append.mp hf.nodup).2.1
    rw [hall, hleaf] at hnodup
    exact (List.nodup_append.mp hnodup).2.2 _ hr _ List.mem_cons_self rfl
  have hkidsLt : ∀ r : Nat, r ∈ blocksOf kids → r < h.top := fun r hr =>
    hf.lt_of_mem (by rw [hall]; exact List.mem_append_left _ hr)
  have hlive : ∀ r : Nat, r < h.top → ((h'.cells r).isSome ↔ (h.cells r).isSome) := by
    intro r hr
    by_cases hrc : r = c
    · subst hrc
      exact iff_of_true (Heap.isSome_cells_of_node hc.node) (Heap.isSome_cells_of_node hm.node)
    · rw [hcells r hr hrc]
  refine
    { top := hf.top.trans hc.top, fails := hc.fails.trans hf.fails, frame := ?_, before := hf.before
      node := ?_, plain := hf.plain, next := hf.next, prev := hf.prev, string := hf.string
      chain := ?_, owned := ?_, text := fun v hv => htextKept v (hf.text v hv), nodup := ?_
      mem_iff := ?_ }
  · intro r hr hne
    rw [hcells r (hr.trans_le hf.top) (by omega), hf.frame r hr hne]
  · rw [node_congr (hcells item (hitem.trans_le hf.top) hitemNe), hf.node]
  · have hlinks : ∀ r ∈ (kids ++ [ItemTree.node c texts []]).map addr,
        h'.next r = h.next r ∧ h'.prev r = h.prev r := by
      intro r hr
      by_cases hrc : r = c
      · subst hrc
        rw [Heap.next, Heap.next, Heap.prev, Heap.prev, hc.node, hm.node]
        exact ⟨hc.next, hc.prev⟩
      · have hcell := hcells r (hf.lt_of_mem (map_addr_subset_blocksOf _ hr)) hrc
        exact ⟨next_congr hcell, prev_congr hcell⟩
    have hchain := hf.chain
    rw [List.map_append] at hchain hlinks ⊢
    exact ⟨hchain.1, hchain.2.congr (fun r hr => (hlinks r hr).1) fun r hr => (hlinks r hr).2⟩
  · rw [ownedAll_iff]
    intro t ht
    obtain ht | ht := List.mem_append.mp ht
    · apply (hownedOld t (List.mem_append_left _ ht)).congr
      intro r hr
      have hmem := mem_blocksOf.mpr ⟨t, ht, hr⟩
      exact hcells r (hkidsLt r hmem) (hkidsNe r hmem)
    · obtain rfl := List.mem_singleton.mp ht
      refine ⟨m, hc.node, rfl, hc.plain.keyMarked, ?_, ?_, hc.owned⟩
      · intro s hs
        rw [hc.plain.ownedTexts, hnamesSame, List.mem_append, Option.mem_toList] at hs
        obtain hs | hs := hs
        · exact hc.text s hs
        · exact htextKept s (hm.name s hs)
      · rw [Node.ownedChild, hc.plain.isReference]
        exact hc.chain
  · rw [hperm.nodup_iff, List.nodup_append]
    refine ⟨hf.nodup, hc.nodup, ?_⟩
    rintro r hr _ hnew rfl
    exact absurd (Heap.lt_fresh ((hf.mem_iff r).mp hr).2) (Nat.not_lt_of_ge ((hc.mem_iff r).mp hnew).1)
  · intro r
    rw [hperm.mem_iff]
    exact mem_append_iff hf.top hf.mem_iff hc.mem_iff hlive r

/-- The string of the last child becomes its name. -/
theorem moveKey {texts : List Ref} (hf : Fills h0 h item n0 n (kids ++ [.node c texts []]))
    (hnode : h.node c = some m) (hplain : m.Plain) (hchild : m.child = none)
    (hstring : m.string = none) :
    ∃ h' m', h.store c (fun n => { n with string := n.valuestring.map Key.block, valuestring := none }) =
        some h' ∧ Fills h0 h' item n0 n (kids ++ [.node c texts []]) ∧ Blank h' c m' := by
  let f : Node → Node := fun n => { n with string := n.valuestring.map Key.block, valuestring := none }
  have hmem : c ∈ blocksOf (kids ++ [.node c texts []]) := by
    rw [blocksOf_append]
    exact List.mem_append_right _ List.mem_cons_self
  have hcells : ∀ r : Nat, r ≠ c → (h.modify c f).cells r = h.cells r := fun r hr =>
    Heap.cells_modify_of_ne hr f
  have hnew : (h.modify c f).node c = some (f m) := by
    rw [Heap.node_modify, if_pos rfl, hnode]
    rfl
  have hitemNe : item ≠ c := (hf.ne_of_mem hmem).symm
  obtain ⟨m1, hm1, htexts, -, hlive, -⟩ := ownedAll_iff.mp hf.owned (.node c texts [])
    (List.mem_append_right _ (List.mem_singleton_self _))
  obtain rfl : m = m1 := Option.some.inj (hnode.symm.trans hm1)
  have hplain' : (f m).Plain := ⟨hplain.isReference, hplain.stringIsConst, m.valuestring, rfl⟩
  have hvalue : texts = m.valuestring.toList := by
    rw [← htexts, hplain.ownedTexts, Heap.ownedName, hstring, List.append_nil]
  have hname : Heap.ownedName (f m) = texts := by
    have hconst : (f m).type.stringIsConst = false := hplain.stringIsConst
    have hmoved : (f m).string = m.valuestring.map Key.block := rfl
    rw [hvalue, Heap.ownedName, hconst, hmoved]
    cases m.valuestring <;> rfl
  have htextKept : ∀ v, (h.text v).isSome → ((h.modify c f).text v).isSome := by
    intro v hv
    rwa [text_congr (hcells v (ne_of_text_of_node hv hnode))]
  have hliveIff : ∀ r : Nat, ((h.modify c f).cells r).isSome ↔ (h.cells r).isSome := by
    intro r
    by_cases hrc : r = c
    · subst hrc
      exact iff_of_true (Heap.isSome_cells_of_node hnew) (Heap.isSome_cells_of_node hnode)
    · rw [hcells r hrc]
  have hlinks : ∀ r, (h.modify c f).next r = h.next r ∧ (h.modify c f).prev r = h.prev r := by
    intro r
    constructor <;>
    · apply Heap.bind_modify_same
      intro n
      rfl
  refine ⟨h.modify c f, f m, Heap.store_eq (Option.isSome_iff_exists.mpr ⟨m, hnode⟩) f,
    { top := hf.top, fails := hf.fails, frame := ?_, before := hf.before, node := ?_
      plain := hf.plain, next := hf.next, prev := hf.prev, string := hf.string, chain := ?_
      owned := ?_, text := fun v hv => htextKept v (hf.text v hv), nodup := hf.nodup
      mem_iff := fun r => (hf.mem_iff r).trans (and_congr_right fun _ => (hliveIff r).symm) },
    ⟨hnew, hplain', hchild, rfl, ?_⟩⟩
  · intro r hr hne
    rw [hcells r (Nat.ne_of_lt (hr.trans_le (hf.le_of_mem hmem))), hf.frame r hr hne]
  · rw [node_congr (hcells item hitemNe), hf.node]
  · exact ⟨hf.chain.1, hf.chain.2.congr (fun r _ => (hlinks r).1) fun r _ => (hlinks r).2⟩
  · rw [ownedAll_iff]
    intro t ht
    have hnodup := (List.nodup_append.mp hf.nodup).2.1
    rw [blocksOf_append] at hnodup
    obtain hkid | hlast := List.mem_append.mp ht
    · apply (ownedAll_iff.mp hf.owned t ht).congr
      intro r hr
      apply hcells
      have hkidBlock := mem_blocksOf.mpr ⟨t, hkid, hr⟩
      exact (List.nodup_append.mp hnodup).2.2 r hkidBlock c List.mem_cons_self
    · obtain rfl := List.mem_singleton.mp hlast
      refine ⟨f m, hnew, ?_, hplain'.keyMarked, fun s hs => htextKept s (hlive s hs), ?_, trivial⟩
      · rw [hplain'.ownedTexts, hname]
        rfl
      · rw [Node.ownedChild, hplain'.isReference]
        exact ⟨hchild, trivial⟩
  · intro r hr
    rw [hname] at hr
    exact htextKept r (hlive r hr)

end Fills

end RebuildTheWheel.CJson
