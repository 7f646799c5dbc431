import RebuildTheWheel.CJson.DuplicatePlaced

namespace RebuildTheWheel.CJson

open RebuildTheWheel.Data

variable {h h' h0 h1 : Heap}

/-! The fields of the new item. -/

/-- `set` stores a new string as one more block of the item. -/
structure Adds (set : Option Ref → Node → Node) (data data' : ItemData) (s : CString) : Prop where
  texts : data'.texts.length = data.texts.length + 1
  links : ∀ copy n, (set copy n).next = n.next ∧ (set copy n).prev = n.prev ∧
    (set copy n).child = n.child
  /-- The field is empty before. -/
  empty : ∀ {h r n}, Placed h r n data → set none n = n
  placed : ∀ {h h' : Heap} {r n}, Placed h r n data →
    (∀ p : Nat, r < p → p < r + data.blockCount → h'.cells p = h.cells p) →
    h'.text (r + data.blockCount) = some s →
    Placed h' r (set (some (r + data.blockCount)) n) data'

theorem allocations_single (data : ItemData) :
    (Item.node data .null .null).allocations.length = data.blockCount := by
  rw [length_allocations_node]
  rfl

theorem copyText_fails {data data' : ItemData} {set : Option Ref → Node → Node} {s : CString}
    (hcopied : Copied h0 (.node data .null .null) h) (hadds : Adds set data data' s)
    (hfails : h.fails h.fresh = true) :
    ∃ h', h.copyText h0.fresh set (some s) = some (false, h') ∧ Leaves h h' [] := by
  obtain ⟨⟨n, hn, hplaced, -⟩, -⟩ := hcopied.copied
  have hnode : h.skipAddress.isNode h0.fresh := Option.isSome_iff_exists.mpr ⟨n, hn⟩
  refine ⟨h.skipAddress.modify h0.fresh (set none), ?_, ?_, fun r hr => by cases hr⟩
  · rw [Heap.copyText, Heap.strdup, Heap.malloc, if_pos hfails]
    change h.skipAddress.store h0.fresh (set none) >>= _ = _
    rw [Heap.store_eq hnode]
    rfl
  · intro r _
    have hcell : h.skipAddress.cells h0.fresh = some (Block.node n) := by
      obtain ⟨n', hcell⟩ := Heap.cells_of_isNode hnode
      rw [Heap.node, show h.cells h0.fresh = some (Block.node n') from hcell] at hn
      obtain rfl := Option.some.inj hn
      exact hcell
    rw [Heap.cells_modify hcell]
    split
    · next hr =>
        rw [hr, hadds.empty hplaced]
        exact hcell.symm
    · rfl

theorem copyText_some {data data' : ItemData} {set : Option Ref → Node → Node} {s : CString}
    (hcopied : Copied h0 (.node data .null .null) h) (hadds : Adds set data data' s)
    (hfails : h.fails h.fresh = false) :
    ∃ h', h.copyText h0.fresh set (some s) = some (true, h') ∧
      Copied h0 (.node data' .null .null) h' := by
  obtain ⟨⟨n, hn, hplaced, hchain⟩, -⟩ := hcopied.copied
  have htop : h.top = h0.top + data.blockCount := hcopied.fresh.trans (by rw [allocations_single])
  have hcount : 0 < data.blockCount := Nat.succ_pos _
  have hself : h0.top < h.top := by omega
  have hpush : ∀ r : Nat, r < h.top → (h.push (.text s)).cells r = h.cells r := fun _ hr =>
    h.cells_push_of_lt _ hr
  have hn1 : (h.push (.text s)).node h0.fresh = some n := by
    rw [ItemTree.node_congr (hpush h0.top hself), hn]
  have hnode : (h.push (.text s)).isNode h0.fresh := Option.isSome_iff_exists.mpr ⟨n, hn1⟩
  refine ⟨(h.push (.text s)).modify h0.fresh (set (some h.fresh)), ?_, ?_⟩
  · rw [Heap.copyText, Heap.strdup, Heap.malloc, if_neg (by rw [hfails]; decide)]
    change (h.push (.text s)).store h0.fresh (set (some h.fresh)) >>= _ = _
    rw [Heap.store_eq hnode]
    rfl
  · generalize hfinal : (h.push (.text s)).modify h0.fresh (set (some h.fresh)) = h'
    have hcells : ∀ r : Nat, r ≠ h0.top → h'.cells r = (h.push (.text s)).cells r := by
      intro r hr
      rw [← hfinal]
      exact if_neg hr
    have hn' : h'.node h0.fresh = some (set (some h.fresh) n) := by
      rw [← hfinal, Heap.node_modify, if_pos rfl, hn1]
      rfl
    have htext : h'.text (h0.top + data.blockCount) = some s := by
      rw [← htop, text_congr (hcells _ (Nat.ne_of_gt hself)), h.text_push_top]
    have hplaced' := hadds.placed hplaced (fun p hlt hle => by
      rw [hcells p (Nat.ne_of_gt hlt), hpush p (by omega)]) htext
    rw [← htop] at hplaced'
    obtain ⟨hnext, hprev, hchild⟩ := hadds.links (some h.fresh) n
    refine ⟨?_, ?_, ?_, ?_, ⟨⟨_, hn', hplaced', ?_⟩, trivial, trivial⟩, ?_⟩
    · have hgrown : h'.top = h.top + 1 := by rw [← hfinal]; rfl
      have hcount' : data'.blockCount = data.blockCount + 1 := congrArg (· + 1) hadds.texts
      rw [allocations_single]
      omega
    · rw [← hfinal]
      exact hcopied.fails
    · intro r hr
      rw [hcells r (Nat.ne_of_lt hr), hpush r (by omega), hcopied.before r hr]
    · intro r hle hlt
      have hgrown : h'.top = h.top + 1 := by rw [← hfinal]; rfl
      by_cases hr : r = h0.top
      · rw [hr]
        exact Heap.isSome_cells_of_node hn'
      · rw [hcells r hr]
        by_cases hlast : r < h.top
        · rw [hpush r hlast]
          exact hcopied.live r hle hlast
        · obtain rfl : r = h.top := by omega
          exact congrArg Option.isSome (if_pos rfl)
    · have hchildEq : n.child = none := hchain.1
      rw [hchild, hchildEq]
      exact ⟨rfl, trivial⟩
    · have hlinked := hcopied.linked
      refine ⟨?_, ?_, trivial⟩
      · have hold : h.prev h0.fresh = none := hlinked.1
        rw [Heap.prev, hn] at hold
        change h'.prev h0.fresh = none
        rw [Heap.prev, hn']
        exact hprev.trans hold
      · have hold : h.next h0.fresh = none := hlinked.2.1
        rw [Heap.next, hn] at hold
        change h'.next h0.fresh = none
        rw [Heap.next, hn']
        exact hnext.trans hold

/-- One of the two lines that copy a string: it is done, or the copy fails. -/
theorem Copied.copyText {data data' : ItemData} {set : Option Ref → Node → Node}
    {s : Option CString} (hcopied : Copied h0 (.node data .null .null) h)
    (hnone : s = none → data' = data) (hsome : ∀ t, s = some t → Adds set data data' t) :
    (∃ h', h.copyText h0.fresh set s = some (true, h') ∧ Copied h0 (.node data' .null .null) h' ∧
      (s.isSome → h0.fails h.fresh = false)) ∨
    ∃ h', h.copyText h0.fresh set s = some (false, h') ∧ Leaves h h' [] ∧ s.isSome ∧
      h0.fails h.fresh = true := by
  cases s with
  | none =>
      left
      rw [hnone rfl]
      exact ⟨h, rfl, hcopied, fun hs => nomatch hs⟩
  | some t =>
      rw [← hcopied.fails]
      cases hfails : h.fails h.fresh with
      | false =>
          left
          obtain ⟨h', hrun, hcopied'⟩ := copyText_some hcopied (hsome t rfl) hfails
          exact ⟨h', hrun, hcopied', fun _ => rfl⟩
      | true =>
          right
          obtain ⟨h', hrun, hleaves⟩ := copyText_fails hcopied (hsome t rfl) hfails
          exact ⟨h', hrun, hleaves, rfl, rfl⟩

theorem adds_valuestring (data : ItemData) (s : CString) :
    Adds (fun copy c => { c with valuestring := copy })
      { data with valuestring := none, string := none }
      { data with valuestring := some s.1, string := none } s where
  texts := rfl
  links _ _ := ⟨rfl, rfl, rfl⟩
  empty {h r n} hn := by
    have hvalue : n.valuestring = none := hn.valuestring
    rw [← hvalue]
  placed {h h' r n} hn _ htext := by
    have hstring : n.string = none := hn.string
    obtain ⟨htype, hint, hdouble, -, -⟩ := hn.spells
    refine ⟨⟨htype, hint, hdouble, ?_, ?_⟩, rfl, hn.string⟩
    · change ((h'.text (r + 1)).map some).map _ = _
      rw [show h'.text (r + 1) = some s from htext]
      rfl
    · change (h'.readKey n.string).map _ = _
      rw [hstring]
      rfl

theorem adds_string (data : ItemData) (s : CString) :
    Adds (fun copy c => { c with string := copy.map Key.block })
      { data with string := none } { data with string := some s.1 } s where
  texts := by simp [ItemData.texts]
  links _ _ := ⟨rfl, rfl, rfl⟩
  empty {h r n} hn := by
    have hstring : n.string = none := hn.string
    rw [Option.map_none, ← hstring]
  placed {h h' r n} hn hcells htext := by
    have hcount : r + ({ data with string := some s.1 } : ItemData).texts.length =
        r + ({ data with string := none } : ItemData).blockCount := by
      simp [ItemData.texts, ItemData.blockCount]
    obtain ⟨htype, hint, hdouble, hvalue, -⟩ := (hn.congr hcells).spells
    refine ⟨⟨htype, hint, hdouble, hvalue, ?_⟩, hn.valuestring, ?_⟩
    · change ((h'.text _).map some).map _ = _
      rw [htext]
      rfl
    · rw [ItemData.stringAt, hcount]
      rfl

/-- The new item with its fields that are not strings. -/
theorem copied_newItem {n : Node} {data : ItemData} (hspells : n.Spells h data) :
    Copied h (.node { data with valuestring := none, string := none } .null .null)
      ((h.push (.node {})).modify h.fresh fun c =>
        { c with
          type := { n.type with isReference := false }
          valueint := n.valueint
          valuedouble := n.valuedouble }) := by
  have hnode : (h.push (.node {})).node h.fresh = some {} := h.node_push_top {}
  generalize hfinal : (h.push (.node {})).modify h.fresh _ = h'
  have hn' : h'.node h.fresh = some
      { type := { n.type with isReference := false }
        valueint := n.valueint
        valuedouble := n.valuedouble } := by
    rw [← hfinal, Heap.node_modify, if_pos rfl, hnode]
    rfl
  have hcells : ∀ r : Nat, r < h.top → h'.cells r = h.cells r := by
    intro r hr
    rw [← hfinal]
    exact (if_neg (Nat.ne_of_lt hr)).trans (h.cells_push_of_lt _ hr)
  have hgrown : h'.top = h.top + 1 := by rw [← hfinal]; rfl
  refine ⟨hgrown, by rw [← hfinal]; rfl, hcells, ?_, ⟨⟨_, hn', ⟨⟨?_, hspells.valueint,
    hspells.valuedouble, rfl, rfl⟩, rfl, rfl⟩, rfl, trivial⟩, trivial, trivial⟩, ?_, ?_, trivial⟩
  · intro r hle hlt
    obtain rfl : r = h.top := by omega
    exact Heap.isSome_cells_of_node hn'
  · rw [hspells.type]
    rfl
  · change h'.prev h.fresh = none
    rw [Heap.prev, hn']
    rfl
  · change h'.next h.fresh = none
    rw [Heap.next, hn']
    rfl

theorem text_of_before {v : Ref} {s : CString} (hcells : ∀ r : Nat, r < h.top → h'.cells r = h.cells r)
    (htext : h.text v = some s) : h'.text v = some s := by
  have hlive : (h.cells v).isSome := Heap.isSome_cells_of_text (by rw [htext]; rfl)
  rw [text_congr (hcells v (Heap.lt_fresh hlive)), htext]

theorem readText_of_before {v : Option Ref} {s : Option CString}
    (hcells : ∀ r : Nat, r < h.top → h'.cells r = h.cells r) (hread : h.readText v = some s) :
    h'.readText v = some s := by
  cases v with
  | none => exact hread
  | some v =>
      obtain ⟨t, htext, rfl⟩ := Option.map_eq_some_iff.mp hread
      rw [Heap.readText, text_of_before hcells htext]
      rfl

theorem readKey_of_before {key : Option Key} {s : Option CString}
    (hcells : ∀ r : Nat, r < h.top → h'.cells r = h.cells r) (hread : h.readKey key = some s) :
    h'.readKey key = some s := by
  cases key with
  | none => exact hread
  | some key =>
      cases key with
      | constant _ => exact hread
      | block v =>
          obtain ⟨t, htext, rfl⟩ := Option.map_eq_some_iff.mp hread
          rw [Heap.readKey, text_of_before hcells htext]
          rfl

theorem lostAtFailure_texts (fails : Nat → Bool) (r : Nat) (value name constant : Bool) :
    Allocation.lostAtFailure fails r ((if value then [.valuestring] else []) ++
        if name then [.string constant] else []) =
      if value && fails r then some []
      else if name && fails (r + if value then 1 else 0) then some []
      else none := by
  cases value with
  | false =>
      cases name with
      | false => rfl
      | true => cases hfails : fails r <;> simp [Allocation.lostAtFailure, hfails]
  | true =>
      cases hfirst : fails r with
      | true => simp [Allocation.lostAtFailure, hfirst]
      | false =>
          cases name with
          | false => simp [Allocation.lostAtFailure, hfirst]
          | true =>
              cases hfails : fails (r + 1) <;>
                simp [Allocation.lostAtFailure, Allocation.isLost, hfirst, hfails]

/-- The strings of an item are copied, or a copy fails and nothing will be lost. -/
theorem copyStrings_spec {n : Node} {data : ItemData} (hspells : n.Spells h data)
    (hstart : Copied h (.node { data with valuestring := none, string := none } .null .null) h1) :
    (∃ h', Allocation.lostAtFailure h.fails (h.top + 1) data.texts = none ∧
      Copied h (.node data .null .null) h' ∧ h1.copyStrings n h.fresh = some (true, h')) ∨
    ∃ data' h2 h', Allocation.lostAtFailure h.fails (h.top + 1) data.texts = some [] ∧
      Copied h (.node data' .null .null) h2 ∧
      Allocation.lost h.top (Item.node data' .null .null).allocations = [] ∧ Leaves h2 h' [] ∧
      h1.copyStrings n h.fresh = some (false, h') := by
  obtain ⟨value, hreadValue, hvalue⟩ := Option.map_eq_some_iff.mp hspells.valuestring
  obtain ⟨name, hreadName, hname⟩ := Option.map_eq_some_iff.mp hspells.string
  have hdata1 : ({ data with string := none } : ItemData) =
      { data with valuestring := value.map Subtype.val, string := none } := by rw [hvalue]
  have hnone1 : value = none → ({ data with string := none } : ItemData) =
      { data with valuestring := none, string := none } := by
    intro hnone
    rw [hdata1, hnone]
    rfl
  have hset1 : ∀ t, value = some t → Adds (fun copy c => { c with valuestring := copy })
      { data with valuestring := none, string := none } { data with string := none } t := by
    rintro t rfl
    rw [hdata1]
    exact adds_valuestring data t
  have hnone2 : name = none → data = { data with string := none } := by
    rintro rfl
    rw [show none = data.string from hname]
  have hset2 : ∀ t, name = some t → Adds (fun copy c => { c with string := copy.map Key.block })
      { data with string := none } data t := by
    rintro t rfl
    have hadds := adds_string data t
    rwa [show some t.1 = data.string from hname] at hadds
  have htexts : data.texts = (if value.isSome then [.valuestring] else []) ++
      if name.isSome then [.string data.type.stringIsConst] else [] := by
    rw [ItemData.texts, ← hvalue, ← hname, Option.isSome_map, Option.isSome_map]
  have hrun : h1.copyStrings n h.fresh =
      (h1.copyText h.fresh (fun copy c => { c with valuestring := copy }) value).bind fun r =>
        if r.1 then r.2.copyString n h.fresh else some (false, r.2) := by
    rw [Heap.copyStrings, Heap.copyValuestring, readText_of_before hstart.before hreadValue]
    rfl
  have htop1 : h1.top = h.top + 1 := hstart.fresh
  obtain ⟨h2, hrun1, hcopied2, hok1⟩ | ⟨h2, hrun1, hleaves, hsome1, hfails1⟩ :=
    hstart.copyText hnone1 hset1
  · have hlost : Allocation.lost h.top
        (Item.node { data with string := none } .null .null).allocations = [] := by
      cases data.valuestring <;> rfl
    have htop2 : h2.top = h1.top + (if value.isSome then 1 else 0) := by
      have hgrown := hcopied2.fresh
      rw [allocations_single, hdata1] at hgrown
      rw [hgrown, htop1]
      cases value <;> rfl
    have hfirst : (value.isSome && h.fails h1.top) = false := by
      cases hsome : value.isSome with
      | false => rfl
      | true => exact hok1 hsome
    have hrun2 : h1.copyStrings n h.fresh =
        h2.copyText h.fresh (fun copy c => { c with string := copy.map Key.block }) name := by
      rw [hrun, hrun1]
      change h2.copyString n h.fresh = _
      rw [Heap.copyString, readKey_of_before hcopied2.before hreadName]
      rfl
    obtain ⟨h3, hrun3, hcopied3, hok2⟩ | ⟨h3, hrun3, hleaves, hsome2, hfails2⟩ :=
      hcopied2.copyText hnone2 hset2
    · refine Or.inl ⟨h3, ?_, hcopied3, hrun2.trans hrun3⟩
      rw [htexts, lostAtFailure_texts, ← htop1, ← htop2, hfirst, if_neg Bool.false_ne_true]
      cases hsome : name.isSome with
      | false => rfl
      | true =>
          rw [hok2 hsome]
          rfl
    · refine Or.inr ⟨_, h2, h3, ?_, hcopied2, hlost, hleaves, hrun2.trans hrun3⟩
      rw [htexts, lostAtFailure_texts, ← htop1, ← htop2, hfirst, if_neg Bool.false_ne_true, hsome2,
        hfails2]
      rfl
  · refine Or.inr ⟨_, h1, h2, ?_, hstart, rfl, hleaves, ?_⟩
    · rw [htexts, hsome1, if_pos rfl, List.singleton_append, Allocation.lostAtFailure, ← htop1,
        if_pos hfails1]
    · rw [hrun, hrun1]
      rfl

/-- A call of `cJSON_Duplicate` up to the loop over the children. -/
theorem duplicate_item (fuel : Nat) {n : Node} {data : ItemData} {item : Ref}
    (hn : h.node item = some n) (hspells : n.Spells h data) :
    (∃ h', Allocation.lostAtFailure h.fails h.top (.item :: data.texts) = none ∧
      Copied h (.node data .null .null) h' ∧
      h.duplicate (fuel + 1) (some item) true = h'.duplicateChildren fuel h.fresh none n.child) ∨
    ∃ h', Allocation.lostAtFailure h.fails h.top (.item :: data.texts) = some [] ∧
      Leaves h h' [] ∧ h.duplicate (fuel + 1) (some item) true = some (none, h') := by
  rw [Allocation.lostAtFailure]
  cases hitem : h.fails h.fresh with
  | true =>
      refine Or.inr ⟨h.skipAddress, if_pos rfl, ⟨fun r _ => rfl, fun r hr => by cases hr⟩, ?_⟩
      rw [Heap.duplicate, Heap.newItem, Heap.malloc, if_pos hitem]
  | false =>
      have hstart := copied_newItem hspells
      have hpush : (h.push (.node {})).isNode h.fresh := by
        rw [← Heap.isNode_modify]
        obtain ⟨⟨n', hn', -⟩, -⟩ := hstart.copied
        exact Option.isSome_iff_exists.mpr ⟨n', hn'⟩
      have hitemCell : (h.push (.node {})).node item = some n := by
        rw [ItemTree.node_congr, hn]
        exact if_neg (Nat.ne_of_lt (Heap.lt_fresh (Heap.isSome_cells_of_node hn)))
      generalize hfinal : (h.push (.node {})).modify h.fresh _ = h1 at hstart
      have hrun : h.duplicate (fuel + 1) (some item) true =
          (h1.copyStrings n h.fresh).bind fun r =>
            if !r.1 then r.2.discard h.fresh
            else r.2.duplicateChildren fuel h.fresh none n.child := by
        rw [Heap.duplicate, Heap.newItem, Heap.malloc, if_neg (by rw [hitem]; decide)]
        simp only [hitemCell, Option.bind_eq_bind, Option.bind_some, Heap.store_eq hpush, hfinal]
        rfl
      rw [if_neg Bool.false_ne_true]
      obtain ⟨h2, hlost, hcopied, hstrings⟩ | ⟨data', h2, h3, hlost, hcopied, hnone, hleaves, hstrings⟩ :=
        copyStrings_spec hspells hstart
      · refine Or.inl ⟨h2, by rw [hlost]; rfl, hcopied, ?_⟩
        rw [hrun, hstrings]
        rfl
      · obtain ⟨h4, hdiscard, hleaves4⟩ := hcopied.discard hleaves
        rw [hnone] at hleaves4
        refine Or.inr ⟨h4, by rw [hlost]; rfl, hleaves4, ?_⟩
        rw [hrun, hstrings]
        exact hdiscard

/-! The original is only read. -/

theorem Node.Spells.of_before {n : Node} {data : ItemData} (hspells : n.Spells h data)
    (hcells : ∀ r : Nat, r < h.top → h'.cells r = h.cells r) : n.Spells h' data := by
  obtain ⟨htype, hint, hdouble, hvalue, hname⟩ := hspells
  obtain ⟨value, hreadValue, hvalueEq⟩ := Option.map_eq_some_iff.mp hvalue
  obtain ⟨name, hreadName, hnameEq⟩ := Option.map_eq_some_iff.mp hname
  refine ⟨htype, hint, hdouble, ?_, ?_⟩
  · rw [readText_of_before hcells hreadValue]
    exact congrArg some hvalueEq
  · rw [readKey_of_before hcells hreadName]
    exact congrArg some hnameEq

theorem holds_of_before {start : Option Ref} {item : Item} (hholds : h.Holds start item)
    (hcells : ∀ r : Nat, r < h.top → h'.cells r = h.cells r) : h'.Holds start item := by
  induction item generalizing start with
  | null => cases start <;> exact hholds
  | node data child next ihChild ihNext =>
      cases start with
      | none => exact hholds
      | some r =>
          obtain ⟨n, hn, hspells, hchild, hnext⟩ := hholds
          have hcell := hcells r (Heap.lt_fresh (Heap.isSome_cells_of_node hn))
          exact ⟨n, by rw [ItemTree.node_congr hcell, hn], hspells.of_before hcells,
            ihChild hchild, ihNext hnext⟩

/-! The whole call: the loop over the children calls it again. -/

/-- What a call or the rest of a loop does, by the allocations it makes: it returns a copy of
`item`, or it returns NULL and `front` and the blocks it loses are left. -/
def Copies (h0 h : Heap) (item : Item) (front : List Ref) (allocations : List Allocation)
    (result : Option (Option Ref × Heap)) : Prop :=
  (∃ h', Allocation.lostAtFailure h.fails h.top allocations = none ∧ Copied h0 item h' ∧
    result = some (some h0.fresh, h')) ∨
  ∃ h' keys, Allocation.lostAtFailure h.fails h.top allocations = some keys ∧
    Leaves h0 h' (front ++ keys) ∧ result = some (none, h')

theorem duplicate_node (fuel : Nat) {data : ItemData} {child next : Item} {item : Ref}
    (hholds : h.Holds (some item) (.node data child next))
    (hloop : ∀ {h' : Heap} {start : Option Ref}, h.Holds start child →
      Copied h (.node data .null .null) h' →
      Copies h h' (.node data child .null)
        (Allocation.lost h.top (Item.node data .null .null).allocations) child.allocations (h'.duplicateChildren fuel h.fresh none start)) :
    Copies h h (.node data child .null) [] (Item.node data child .null).allocations
      (h.duplicate (fuel + 1) (some item) true) := by
  obtain ⟨n, hn, hspells, hchild, -⟩ := hholds
  have hsingle : (Item.node data .null .null).allocations = .item :: data.texts :=
    congrArg (List.cons _) (List.append_nil _)
  have hsplit : (Item.node data child .null).allocations =
      (.item :: data.texts) ++ child.allocations := by
    rw [Item.allocations, Item.allocations, List.append_nil]
    rfl
  rw [Copies, hsplit, Allocation.lostAtFailure_append]
  obtain ⟨h1, hlost, hcopied, hrun⟩ | ⟨h1, hlost, hleaves, hrun⟩ := duplicate_item fuel hn hspells
  · have hloop1 := hloop hchild hcopied
    have htop : h1.top = h.top + (Allocation.item :: data.texts).length := by
      have hfresh := hcopied.fresh
      rwa [allocations_single] at hfresh
    rw [Copies, hcopied.fails, htop, hsingle] at hloop1
    rw [hlost, hrun]
    obtain ⟨h2, hnone, hcopied2, hrun2⟩ | ⟨h2, keys, hsome, hleaves, hrun2⟩ := hloop1
    · exact Or.inl ⟨h2, by rw [hnone]; rfl, hcopied2, hrun2⟩
    · exact Or.inr ⟨h2, _, by rw [hsome]; rfl, hleaves, hrun2⟩
  · rw [hlost]
    exact Or.inr ⟨h1, [], rfl, hleaves, hrun⟩

theorem allocations_front (data : ItemData) (child next : Item) :
    (Item.node data child next).allocations =
      (Item.node data child .null).allocations ++ next.allocations := by
  rw [Item.allocations, Item.allocations, Item.allocations, List.append_nil, List.cons_append,
    List.append_assoc]

/-- The loop over the children `rest`, after those of `done`. -/
theorem duplicate_loop (rest : Item) {fuel : Nat} {data : ItemData} {done : Item}
    {start : Option Ref} (hholds : h0.Holds start rest)
    (hcopied : Copied h0 (.node data done .null) h) (hfuel : 2 * rest.size ≤ fuel) :
    Copies h0 h (.node data (done.append rest) .null)
      (Allocation.lost h0.top (Item.node data done .null).allocations) rest.allocations
      (h.duplicateChildren fuel h0.fresh (roots (h0.top + data.blockCount) done).getLast? start) := by
  induction rest generalizing h0 h fuel data done start with
  | null =>
      cases start with
      | some r => exact hholds.elim
      | none =>
          rw [append_null]
          exact Or.inl ⟨h, rfl, hcopied, by rw [Heap.duplicateChildren]⟩
  | node d c next ihChild ihNext =>
      cases start with
      | none => exact hholds.elim
      | some r =>
          rw [Item.size] at hfuel
          obtain ⟨fuel, rfl⟩ : ∃ f, fuel = f + 2 := ⟨fuel - 2, by omega⟩
          have hchildFuel : 2 * c.size ≤ fuel := by omega
          have hnextFuel : 2 * next.size ≤ fuel + 1 := by omega
          have hnode := duplicate_node fuel (holds_of_before hholds hcopied.before)
            fun hstart hnew => ihChild hstart hnew hchildFuel
          obtain ⟨n, hn, -, -, hnext⟩ := hholds
          rw [Copies, allocations_front, Allocation.lostAtFailure_append]
          obtain ⟨h1, hnone, hchild, hcall⟩ | ⟨h1, keys, hsome, hleaves, hcall⟩ := hnode
          · obtain ⟨h2, hlink, hcopied2⟩ := hcopied.linkChild hchild
            have hn2 : h2.loadNext r = some n.next := by
              have hlive := Heap.isSome_cells_of_node hn
              rw [Heap.loadNext, ItemTree.node_congr (hcopied2.before r (Heap.lt_fresh hlive)), hn]
              rfl
            have hloop := ihNext hnext hcopied2 hnextFuel
            have htop : h.top = h0.top + data.blockCount + done.allocations.length := by
              rw [hcopied.fresh, length_allocations_node, Nat.add_assoc]
              rfl
            have hfront : (Item.node data (done.append (.node d c .null)) .null).allocations =
                (Item.node data done .null).allocations ++ (Item.node d c .null).allocations := by
              simp only [Item.allocations, allocations_append, List.append_nil, List.cons_append,
                List.append_assoc]
            have htop1 : h1.top = h.top + (Item.node d c .null).allocations.length := hchild.fresh
            have htop2 : h2.top = h1.top := by
              rw [hcopied2.fresh, hfront, List.length_append, ← Nat.add_assoc, ← hcopied.fresh, htop1]
            rw [Copies, append_assoc, roots_append_node, List.getLast?_concat, ← htop, hcopied2.fails,
              ← hcopied.fails, htop2, htop1, hfront, Allocation.lost_append, ← hcopied.fresh] at hloop
            rw [hnone]
            have hcontinue : h.duplicateChildren (fuel + 2) h0.fresh
                (roots (h0.top + data.blockCount) done).getLast? (some r) =
                h2.duplicateChildren (fuel + 1) h0.fresh (some h.fresh) n.next := by
              rw [Heap.duplicateChildren, hcall]
              simp only [Option.bind_eq_bind, Option.bind_some, hlink, hn2]
            rw [hcontinue]
            obtain ⟨h3, hrest, hcopied3, hend⟩ | ⟨h3, keys, hrest, hleaves, hend⟩ := hloop
            · exact Or.inl ⟨h3, by rw [hrest]; rfl, hcopied3, hend⟩
            · refine Or.inr ⟨h3, _, by rw [hrest]; rfl, ?_, hend⟩
              rwa [List.append_assoc] at hleaves
          · obtain ⟨h2, hdiscard, hleaves2⟩ := hcopied.discard hleaves
            rw [hsome]
            refine Or.inr ⟨h2, keys, rfl, hleaves2, ?_⟩
            rw [Heap.duplicateChildren, hcall]
            exact hdiscard

/-- The result of `cJSON_Duplicate` in the heap `h`: a copy in blocks of its own, or NULL and
no block that was not there before. -/
def Heap.Duplicates (h : Heap) (item : Item) : Option (Option Ref × Heap) → Prop
  | none => False
  | some (none, h') => h'.cells = h.cells
  | some (some r, h') =>
      (∃ blocks, h'.HoldsOwn none (some r) item.unreferenced blocks ∧ blocks.Nodup ∧
        ∀ b ∈ blocks, h.cells b = none) ∧
      ∀ p, (h.cells p).isSome → h'.cells p = h.cells p

theorem duplicate_iff {r : Ref} {data : ItemData} {child next : Item} {fuel : Nat}
    (hholds : h.Holds (some r) (.node data child next)) (hfuel : 2 * child.size < fuel) :
    h.Duplicates (.node data child .null) (h.duplicate fuel (some r) true) ↔
      ¬Allocation.LosesKey h.fails h.fresh (Item.node data child .null).allocations := by
  obtain ⟨fuel, rfl⟩ : ∃ f, fuel = f + 1 := ⟨fuel - 1, by omega⟩
  have hcopies := duplicate_node fuel hholds fun hstart hnew =>
    duplicate_loop child hstart hnew (Nat.le_of_lt_succ hfuel)
  obtain ⟨h', hnone, hcopied, hrun⟩ | ⟨h', keys, hsome, hleaves, hrun⟩ := hcopies
  · rw [hrun]
    refine iff_of_true ⟨⟨_, hcopied.copied.holdsOwn hcopied.linked, List.nodup_range', ?_⟩, ?_⟩ ?_
    · intro b hb
      exact h.bounded b (List.mem_range'_1.mp hb).1
    · intro p hp
      exact hcopied.before p (Heap.lt_fresh hp)
    · intro hloses
      obtain ⟨_, _, hkeys, _⟩ := Allocation.losesKey_iff.mp hloses
      exact nomatch hnone.symm.trans hkeys
  · rw [hrun, Allocation.losesKey_iff]
    change h'.cells = h.cells ↔ _
    constructor
    · rintro hcells ⟨p, keys', hkeys, hp⟩
      obtain rfl := Option.some.inj (hsome.symm.trans hkeys)
      obtain ⟨hlive, hle⟩ := hleaves.keys p hp
      rw [hcells, h.bounded p hle] at hlive
      cases hlive
    · intro hloses
      funext p
      apply hleaves.outside
      intro hp
      exact hloses ⟨p, keys, hsome, hp⟩

/-- An object named `a` by a constant string, with one child. -/
def constantKeyItem : Item :=
  .node { type := ⟨.object, false, true⟩, string := some [97] } (.node {} .null .null) .null

def constantKeyHeap (fails : Ref → Bool) : Heap where
  cells := fun r =>
    if r = 0 then some (.node
      { type := ⟨.object, false, true⟩, child := some 1, string := some (.constant Heap.nameA) })
    else if r = 1 then some (.node {})
    else none
  fresh := 2
  fails := fails
  bounded := by
    intro r hr
    rw [if_neg, if_neg] <;>
    · rintro rfl
      exact absurd hr (by decide)

theorem holds_constantKeyHeap (fails : Ref → Bool) :
    (constantKeyHeap fails).Holds (some 0) constantKeyItem :=
  ⟨_, rfl, ⟨rfl, rfl, rfl, rfl, rfl⟩, ⟨_, rfl, ⟨rfl, rfl, rfl, rfl, rfl⟩, trivial, trivial⟩, trivial⟩

/-- The copy of the child fails, and the copied name is not freed. -/
theorem duplicate_loses_key :
    (constantKeyHeap (· == 4)).Holds (some 0) constantKeyItem ∧
      ¬(constantKeyHeap (· == 4)).Duplicates constantKeyItem
        ((constantKeyHeap (· == 4)).duplicate 3 (some 0) true) := by
  refine ⟨holds_constantKeyHeap _, ?_⟩
  have hrun : ((constantKeyHeap (· == 4)).duplicate 3 (some 0) true).map
      (fun p => (p.1, (p.2.cells 3).isSome)) = some (none, true) := by rfl
  obtain ⟨⟨result, h'⟩, hcall, hp⟩ := Option.map_eq_some_iff.mp hrun
  obtain ⟨rfl, hleft⟩ := Prod.mk.inj hp
  rw [hcall]
  intro hcells
  rw [show h'.cells = _ from hcells] at hleft
  cases hleft

theorem duplicate_iff_enoughMemory :
    (constantKeyHeap fun _ => false).Duplicates constantKeyItem
      ((constantKeyHeap fun _ => false).duplicate 3 (some 0) true) :=
  (duplicate_iff (holds_constantKeyHeap _) (by decide)).mpr
    fun ⟨_, _, _, _, _, hfails, _⟩ => nomatch hfails

end RebuildTheWheel.CJson
