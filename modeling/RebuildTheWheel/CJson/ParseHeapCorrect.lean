import RebuildTheWheel.CJson.ParseHeapTree
import RebuildTheWheel.CJson.ParseOverrun

namespace RebuildTheWheel.CJson

open RebuildTheWheel.Data
open RebuildTheWheel.Data.Ascii
open ItemTree

/-! What the parse functions do to the tree and to `ep`, whichever allocations fail. -/

/-- The call reads inside the text and the heap, and what it returns meets `P`. -/
def Returns (P : Option α → ParseState → Prop) : Except Fault (Option α × ParseState) → Prop
  | .error e => e = .outside ∨ e = .overflow
  | .ok (returned, s) => P returned s

theorem Returns.bind {P : Option α → ParseState → Prop} {Q : Option β → ParseState → Prop}
    {x : Except Fault (Option α × ParseState)}
    {f : Option α × ParseState → Except Fault (Option β × ParseState)} (hx : Returns P x)
    (hf : ∀ returned s, P returned s → Returns Q (f (returned, s))) : Returns Q (x >>= f) := by
  cases x with
  | error e => exact hx
  | ok result => exact hf result.1 result.2 hx

theorem Returns.imp {P Q : Option α → ParseState → Prop}
    {x : Except Fault (Option α × ParseState)} (hx : Returns P x)
    (hf : ∀ returned s, P returned s → Q returned s) : Returns Q x := by
  cases x with
  | error e => exact hx
  | ok result => exact hf result.1 result.2 hx

/-- A call that returns 0 has set `ep` or failed to allocate, any other leaves `ep`. -/
structure Reports (s s' : ParseState) (returned : Bool) : Prop where
  top : s.heap.top ≤ s'.heap.top
  fails : s'.heap.fails = s.heap.fails
  kept : returned = true → s'.ep = s.ep
  reported : returned = false → s'.ep.isSome ∨
    ∃ r : Nat, (s.heap.top ≤ r ∧ r < s'.heap.top) ∧ s.heap.fails r = true

variable {s s' s'' : ParseState}

theorem Reports.refl (s : ParseState) : Reports s s true :=
  ⟨le_rfl, rfl, fun _ => rfl, fun h => nomatch h⟩

theorem Reports.onHeap {h : Heap} (htop : s.heap.top ≤ h.top) (hfails : h.fails = s.heap.fails) :
    Reports s { s with heap := h } true :=
  ⟨htop, hfails, fun _ => rfl, fun h => nomatch h⟩

theorem Reports.fail (s : ParseState) (value : Bytes) :
    Reports s { s with ep := some value } false :=
  ⟨le_rfl, rfl, fun h => (nomatch h), fun _ => Or.inl rfl⟩

theorem Reports.skipAddress (hfails : s.heap.fails s.heap.fresh = true) :
    Reports s { s with heap := s.heap.skipAddress } false :=
  ⟨Nat.le_succ _, rfl, fun h => (nomatch h),
    fun _ => Or.inr ⟨s.heap.top, ⟨le_rfl, Nat.lt_succ_self _⟩, hfails⟩⟩

theorem Reports.trans {returned : Bool} (h : Reports s s' true) (h' : Reports s' s'' returned) :
    Reports s s'' returned where
  top := h.top.trans h'.top
  fails := h'.fails.trans h.fails
  kept hr := (h'.kept hr).trans (h.kept rfl)
  reported hr := by
    obtain hep | ⟨r, ⟨hle, hlt⟩, hfails⟩ := h'.reported hr
    · exact Or.inl hep
    · rw [h.fails] at hfails
      exact Or.inr ⟨r, ⟨h.top.trans hle, hlt⟩, hfails⟩

variable {h0 : Heap} {item c : Nat} {n n0 m : Node} {kids : List ItemTree}

/-- An item is filled in and the pointer has moved on in `value`. -/
def Parses (h0 : Heap) (item : Nat) (n0 : Node) (s : ParseState) (value : Bytes)
    (returned : Option Bytes) (s' : ParseState) : Prop :=
  (∃ n kids, Fills h0 s'.heap item n0 n kids) ∧ Reports s s' returned.isSome ∧
    ∀ rest, returned = some rest → rest.length ≤ value.length

theorem onHeap_eq {h : Heap} {step : Heap → Option Heap} (hstep : step s.heap = some h) :
    s.onHeap step = .ok { s with heap := h } := by
  rw [ParseState.onHeap, hstep]

theorem store_returns (hf : Fills h0 s.heap item n0 n kids) {f : Node → Node}
    (hplain : (f n).Plain)
    (hlinks : (f n).next = n.next ∧ (f n).prev = n.prev ∧ (f n).child = n.child)
    (hstring : (f n).string = n.string) (hvalue : (f n).valuestring = n.valuestring) :
    ∃ s', s.onHeap (·.store item f) = .ok s' ∧ Fills h0 s'.heap item n0 (f n) kids ∧
      Reports s s' true := by
  obtain ⟨hstore, hfills⟩ := hf.modify hplain hlinks hstring hvalue
  exact ⟨{ s with heap := s.heap.modify item f }, onHeap_eq hstore, hfills, .onHeap le_rfl rfl⟩

theorem finish_returns (hf : Fills h0 s.heap item n0 n kids) {f : Node → Node} {value rest : Bytes}
    (hplain : (f n).Plain)
    (hlinks : (f n).next = n.next ∧ (f n).prev = n.prev ∧ (f n).child = n.child)
    (hstring : (f n).string = n.string) (hvalue : (f n).valuestring = n.valuestring)
    (hrest : rest.length ≤ value.length) :
    Returns (Parses h0 item n0 s value) (s.finish item f rest) := by
  obtain ⟨s', hrun, hfills, hreports⟩ := store_returns hf hplain hlinks hstring hvalue
  rw [ParseState.finish, hrun]
  refine ⟨⟨_, _, hfills⟩, hreports, ?_⟩
  rintro _ ⟨⟩
  exact hrest

theorem tail_length_le (text : Bytes) : text.tail.length ≤ text.length := by
  rw [List.length_tail]
  exact Nat.sub_le _ _

/-- `parse_string` on an item without a string and without children. -/
theorem parseString_returns (hf : Fills h0 s.heap item n0 n []) (hnone : n.valuestring = none)
    (str : Bytes) :
    Returns (fun returned s' => (∃ n', Fills h0 s'.heap item n0 n' []) ∧
      Reports s s' returned.isSome ∧ ∀ rest, returned = some rest → rest.length ≤ str.length)
      (s.parseString item str) := by
  rw [ParseState.parseString]
  split
  · exact ⟨⟨n, hf⟩, .fail s str, fun _ h => nomatch h⟩
  split
  · exact Or.inl rfl
  split
  · cases hfails : s.heap.fails s.heap.fresh with
    | true =>
        have hdup : ∀ t, s.heap.strdup t = (none, s.heap.skipAddress) := fun t => if_pos hfails
        simp only [hdup]
        exact ⟨⟨n, hf.skipAddress⟩, .skipAddress hfails, fun _ h => nomatch h⟩
    | false =>
        have hdup : ∀ t, s.heap.strdup t = (some s.heap.fresh, s.heap.push (.text t)) := fun t =>
          if_neg (by rw [hfails]; decide)
        simp only [hdup]
        cases hdecoded : decodeChars 0 str.tail with
        | error e => exact Or.inl rfl
        | ok decoded =>
            obtain ⟨out, ptr⟩ := decoded
            let f : Node → Node := fun n =>
              { n with valuestring := some s.heap.fresh, type := ⟨.string, false, false⟩ }
            obtain ⟨hstore, hfills⟩ := hf.addText hnone (textOf out) f ⟨rfl, rfl, hf.plain.string⟩
              ⟨rfl, rfl, rfl⟩ rfl rfl
            have hrun : ParseState.onHeap { s with heap := s.heap.push (.text (textOf out)) }
                (·.store item f) =
                .ok { s with heap := (s.heap.push (.text (textOf out))).modify item f } :=
              onHeap_eq hstore
            change Returns _ (ParseState.onHeap { s with heap := s.heap.push (.text (textOf out)) }
              (·.store item f) >>= _)
            rw [hrun]
            refine ⟨⟨_, hfills⟩, .onHeap (Nat.le_succ _) rfl, ?_⟩
            rintro _ ⟨⟩
            have hptr := (decodeChars_suffix hdecoded).length_le
            have htail := tail_length_le str
            split
            · exact (tail_length_le ptr).trans (hptr.trans htail)
            · exact hptr.trans htail
  · exact Or.inr rfl

theorem parseNumber_returns (hm : Blank s.heap item m) (value : Bytes) :
    Returns (Parses s.heap item m s value) (s.parseNumber item value) := by
  have hle : (CJson.parseNumber value).2.length ≤ value.length := by
    rw [parseNumber_rest]
    exact (afterNumber_suffix value).length_le
  rw [ParseState.parseNumber]
  generalize CJson.parseNumber value = number at hle
  exact finish_returns hm.fills ⟨rfl, rfl, hm.plain.string⟩ ⟨rfl, rfl, rfl⟩ rfl rfl hle

theorem Parses.of_reports {value value' : Bytes} {returned : Option Bytes} (hreports : Reports s s' true)
    (hle : value'.length ≤ value.length) (h : Parses h0 item n0 s' value' returned s'') :
    Parses h0 item n0 s value returned s'' :=
  ⟨h.1, hreports.trans h.2.1, fun rest hrest => (h.2.2 rest hrest).trans hle⟩

theorem fail_returns (hf : Fills h0 s.heap item n0 n kids) (value stop : Bytes) :
    Returns (Parses h0 item n0 s value) (s.fail stop) :=
  ⟨⟨n, kids, hf⟩, .fail s stop, fun _ h => nomatch h⟩

theorem close_returns (hf : Fills h0 s.heap item n0 n kids) (bracket : UInt8) (value : Bytes) :
    Returns (Parses h0 item n0 s value) (s.close bracket value) := by
  rw [ParseState.close]
  split
  · refine ⟨⟨n, kids, hf⟩, .refl s, ?_⟩
    rintro _ ⟨⟩
    exact tail_length_le value
  · exact fail_returns hf value value

/-- The item has a new last child, or the allocation failed. -/
def AddsChild (h0 : Heap) (item : Nat) (n0 : Node) (kids : List ItemTree) (s : ParseState) :
    Option Nat → ParseState → Prop
  | none, s' => (∃ n, Fills h0 s'.heap item n0 n kids) ∧ Reports s s' false
  | some c, s' => ∃ n m, Fills h0 s'.heap item n0 n (kids ++ [.node c [] []]) ∧
      Blank s'.heap c m ∧ m.string = none ∧ Reports s s' true

theorem newItem_of_fails {h : Heap} (hfails : h.fails h.fresh = true) :
    h.newItem = (none, h.skipAddress) :=
  if_pos hfails

theorem newItem_of_not_fails {h : Heap} (hfails : h.fails h.fresh = false) :
    h.newItem = (some h.fresh, h.push (.node {})) :=
  if_neg (by rw [hfails]; exact Bool.false_ne_true)

theorem linked_adds {h : Heap} (hf : Fills h0 s.heap item n0 n kids)
    (hlink : (s.heap.push (.node {})).linkChild item s.heap.fresh (kids.map addr).getLast? = some h) :
    AddsChild h0 item n0 kids s (some s.heap.top) { s with heap := h } := by
  obtain ⟨h2, n2, m, hlink2, hfills, hblank, hstring⟩ := hf.newChild
  obtain rfl := Option.some.inj (hlink2.symm.trans hlink)
  refine ⟨n2, m, hfills, hblank, hstring, .onHeap ?_ (hfills.fails.trans hf.fails.symm)⟩
  exact (Heap.lt_fresh (Heap.isSome_cells_of_node hblank.node)).le

theorem firstChild_returns (hf : Fills h0 s.heap item n0 n []) :
    Returns (AddsChild h0 item n0 [] s) (s.firstChild item) := by
  rw [ParseState.firstChild]
  cases hfails : s.heap.fails s.heap.fresh with
  | true =>
      rw [newItem_of_fails hfails]
      obtain ⟨hstore, hfills⟩ := hf.skipAddress.modify (f := fun n => { n with child := none })
        ⟨hf.plain.1, hf.plain.2, hf.plain.3⟩ ⟨rfl, rfl, hf.chain.1.symm⟩ rfl rfl
      have hrun : ParseState.onHeap { s with heap := s.heap.skipAddress } (·.storeChild item none) =
          .ok { s with heap := s.heap.skipAddress.modify item fun n => { n with child := none } } :=
        onHeap_eq hstore
      change Returns _ (ParseState.onHeap { s with heap := s.heap.skipAddress }
        (·.storeChild item none) >>= _)
      rw [hrun]
      exact ⟨⟨_, hfills⟩, Nat.le_succ _, rfl, fun h => (nomatch h), (Reports.skipAddress hfails).4⟩
  | false =>
      rw [newItem_of_not_fails hfails]
      obtain ⟨h2, n2, m, hlink, -⟩ := hf.newChild
      have hrun : ParseState.onHeap { s with heap := s.heap.push (.node {}) }
          (·.storeChild item (some s.heap.fresh)) = .ok { s with heap := h2 } :=
        onHeap_eq hlink
      change Returns _ (ParseState.onHeap { s with heap := s.heap.push (.node {}) }
        (·.storeChild item (some s.heap.fresh)) >>= _)
      rw [hrun]
      exact linked_adds hf hlink

theorem nextChild_returns (hf : Fills h0 s.heap item n0 n kids)
    (hlast : (kids.map addr).getLast? = some c) :
    Returns (AddsChild h0 item n0 kids s) (s.nextChild c) := by
  rw [ParseState.nextChild]
  cases hfails : s.heap.fails s.heap.fresh with
  | true =>
      rw [newItem_of_fails hfails]
      exact ⟨⟨n, hf.skipAddress⟩, .skipAddress hfails⟩
  | false =>
      rw [newItem_of_not_fails hfails]
      obtain ⟨h2, n2, m, hlink, -⟩ := hf.newChild
      have hrun : ParseState.onHeap { s with heap := s.heap.push (.node {}) }
          (·.suffixObject c s.heap.fresh) = .ok { s with heap := h2 } := by
        rw [hlast] at hlink
        exact onHeap_eq hlink
      change Returns _ (ParseState.onHeap { s with heap := s.heap.push (.node {}) }
        (·.suffixObject c s.heap.fresh) >>= _)
      rw [hrun]
      exact linked_adds hf hlink

/-- The name of the last child is read and a colon follows, or the object is given up. -/
def Names (h0 : Heap) (item : Nat) (n0 : Node) (kids : List ItemTree) (c : Nat) (s' : ParseState) :
    Option Bytes → Prop
  | none => ∃ n kids, Fills h0 s'.heap item n0 n kids
  | some _ => ∃ n m texts, Fills h0 s'.heap item n0 n (kids ++ [.node c texts []]) ∧
      Blank s'.heap c m

theorem parseKey_returns (hf : Fills h0 s.heap item n0 n (kids ++ [.node c [] []]))
    (hm : Blank s.heap c m) (hstring : m.string = none) (value : Bytes) :
    Returns (fun returned s' => Names h0 item n0 kids c s' returned ∧
      Reports s s' returned.isSome ∧ ∀ rest, returned = some rest → rest.length ≤ value.length)
      (s.parseKey c value) := by
  rw [ParseState.parseKey]
  refine (parseString_returns hm.fills hm.valuestring value).bind ?_
  rintro (_ | stop) s1 ⟨⟨m1, hm1⟩, hreports, hle⟩
  · exact ⟨⟨n, _, hf.child hm hm1⟩, hreports, hle⟩
  · obtain ⟨h2, m2, hstore, hfills, hblank⟩ :=
      (hf.child hm hm1).moveKey hm1.node hm1.plain hm1.chain.1 (hm1.string.trans hstring)
    have hrun : s1.moveKey c = .ok { s1 with heap := h2 } := onHeap_eq hstore
    have hkept : Reports s1 { s1 with heap := h2 } true :=
      .onHeap (by
        have hstep := hstore
        rw [Heap.store, Option.ite_none_right_eq_some] at hstep
        obtain ⟨-, hstep⟩ := hstep
        obtain rfl := Option.some.inj hstep
        exact le_rfl) (hfills.fails.trans (hf.child hm hm1).fails.symm)
    have hstop : (skip stop).tail.length ≤ value.length :=
      (tail_length_le _).trans ((skip_length_le stop).trans (hle stop rfl))
    change Returns _ (s1.moveKey c >>= _)
    rw [hrun]
    change Returns _ (if peek (skip stop) ≠ colon then _ else _)
    split
    · exact ⟨⟨n, _, hfills⟩, (hreports.trans hkept).trans (.fail _ _), fun _ h => by cases h⟩
    · refine ⟨⟨n, m2, _, hfills, hblank⟩, hreports.trans hkept, ?_⟩
      rintro _ ⟨⟩
      exact hstop

/-- The last child is filled in, and `c` is still the last. -/
theorem childValue_returns {texts : List Ref} {value : Bytes} {x : Call}
    (hf : Fills h0 s.heap item n0 n (kids ++ [.node c texts []])) (hm : Blank s.heap c m)
    (hx : Returns (Parses s.heap c m s value) x) :
    Returns (fun returned s' => (∃ n kids, Fills h0 s'.heap item n0 n kids ∧
        (kids.map addr).getLast? = some c) ∧ Reports s s' returned.isSome ∧
      ∀ rest, returned = some rest → rest.length ≤ value.length) x := by
  apply hx.imp
  rintro returned s' ⟨⟨m', kids', hchild⟩, hreports, hle⟩
  refine ⟨⟨n, _, hf.child hm hchild, ?_⟩, hreports, hle⟩
  rw [List.map_append]
  exact List.getLast?_concat

def ValueSpec (fuel : Nat) : Prop :=
  ∀ {s : ParseState} {item : Nat} {m : Node} {value : Bytes}, Blank s.heap item m →
    2 * value.length + 1 ≤ fuel → Returns (Parses s.heap item m s value) (s.parseValue fuel item value)

/-- The specification of `parseArray` and `parseObject`. -/
def ContainerSpec (parse : ParseState → Ref → Bytes → Call) (fuel : Nat) : Prop :=
  ∀ {s : ParseState} {item : Nat} {m : Node} {value : Bytes}, Blank s.heap item m → value ≠ [] →
    2 * value.length ≤ fuel → Returns (Parses s.heap item m s value) (parse s item value)

/-- The specification of the loops behind the first child. -/
def LoopSpec (parse : ParseState → Ref → Bytes → Call) (fuel : Nat) : Prop :=
  ∀ {h0 : Heap} {s : ParseState} {item c : Nat} {n n0 : Node} {kids : List ItemTree} {value : Bytes},
    Fills h0 s.heap item n0 n kids → (kids.map addr).getLast? = some c →
    2 * value.length + 1 ≤ fuel → Returns (Parses h0 item n0 s value) (parse s c value)

theorem parseValue_returns {fuel : Nat} (harray : ContainerSpec (ParseState.parseArray fuel) fuel)
    (hobject : ContainerSpec (ParseState.parseObject fuel) fuel) : ValueSpec (fuel + 1) := by
  intro s item m value hm hfuel
  have hdrop : ∀ k, (value.drop k).length ≤ value.length := fun k => by
    rw [List.length_drop]
    exact Nat.sub_le _ _
  have hne : ∀ {c : UInt8}, c ≠ 0 → peek value = c → value ≠ [] := by
    rintro c hc hpeek rfl
    exact hc hpeek.symm
  rw [ParseState.parseValue]
  split
  · exact finish_returns hm.fills ⟨rfl, rfl, hm.plain.string⟩ ⟨rfl, rfl, rfl⟩ rfl rfl (hdrop 4)
  split
  · exact finish_returns hm.fills ⟨rfl, rfl, hm.plain.string⟩ ⟨rfl, rfl, rfl⟩ rfl rfl (hdrop 5)
  split
  · exact finish_returns hm.fills ⟨rfl, rfl, hm.plain.string⟩ ⟨rfl, rfl, rfl⟩ rfl rfl (hdrop 4)
  split
  · apply (parseString_returns hm.fills hm.valuestring value).imp
    rintro returned s' ⟨⟨n, hfills⟩, hrest⟩
    exact ⟨⟨n, [], hfills⟩, hrest⟩
  split
  · exact parseNumber_returns hm value
  split
  · next hpeek => exact harray hm (hne (by decide) hpeek) (by omega)
  split
  · next hpeek => exact hobject hm (hne (by decide) hpeek) (by omega)
  · exact fail_returns hm.fills value value

theorem parseArray_returns {fuel : Nat} (hvalue : ValueSpec fuel)
    (hloop : LoopSpec (ParseState.parseElements fuel) fuel) :
    ContainerSpec (ParseState.parseArray (fuel + 1)) (fuel + 1) := by
  intro s item m value hm hne hfuel
  obtain ⟨s1, hrun, hfills, hreports⟩ := store_returns hm.fills
    (f := fun n => { n with type := ⟨.array, false, false⟩ }) ⟨rfl, rfl, hm.plain.string⟩
    ⟨rfl, rfl, rfl⟩ rfl rfl
  have htail : value.tail.length + 1 = value.length := by
    rw [List.length_tail]
    exact Nat.sub_add_cancel (List.length_pos_of_ne_nil hne)
  have hskip := skip_length_le value.tail
  have hstart := skip_length_le (skip value.tail)
  rw [ParseState.parseArray, hrun]
  change Returns _ (if peek (skip value.tail) = rbracket then _ else _)
  split
  · refine ⟨⟨_, _, hfills⟩, hreports, ?_⟩
    rintro _ ⟨⟩
    exact (tail_length_le _).trans (hskip.trans (by omega))
  refine (firstChild_returns hfills).bind ?_
  rintro (_ | c) s2 hadds
  · obtain ⟨⟨n, hfills⟩, hadds⟩ := hadds
    exact ⟨⟨n, _, hfills⟩, hreports.trans hadds, fun _ h => by cases h⟩
  obtain ⟨n, m1, hfills, hblank, -, hadds⟩ := hadds
  have hreports := hreports.trans hadds
  refine (childValue_returns hfills hblank (hvalue hblank (by omega))).bind ?_
  rintro (_ | stop) s3 ⟨⟨n, kids, hfills, hlast⟩, hparse, hle⟩
  · exact ⟨⟨n, _, hfills⟩, hreports.trans hparse, fun _ h => by cases h⟩
  have hreports := hreports.trans hparse
  have hstop := (skip_length_le stop).trans (hle stop rfl)
  refine (hloop hfills hlast (by omega : 2 * (skip stop).length + 1 ≤ fuel)).bind ?_
  rintro (_ | stop) s4 ⟨⟨n, kids, hfills⟩, hparse, hle⟩
  · exact ⟨⟨n, _, hfills⟩, hreports.trans hparse, fun _ h => by cases h⟩
  · have hlen := hle stop rfl
    exact (close_returns hfills rbracket stop).imp fun _ _ =>
      Parses.of_reports (hreports.trans hparse) (by omega)

theorem parseElements_returns {fuel : Nat} (hvalue : ValueSpec fuel)
    (hloop : LoopSpec (ParseState.parseElements fuel) fuel) :
    LoopSpec (ParseState.parseElements (fuel + 1)) (fuel + 1) := by
  intro h0 s item c n n0 kids value hfills hlast hfuel
  rw [ParseState.parseElements]
  split
  · next hcomma =>
    have hne : value ≠ [] := by
      rintro rfl
      exact absurd hcomma (by decide)
    have htail : value.tail.length + 1 = value.length := by
      rw [List.length_tail]
      exact Nat.sub_add_cancel (List.length_pos_of_ne_nil hne)
    have hskip := skip_length_le value.tail
    refine (nextChild_returns hfills hlast).bind ?_
    rintro (_ | c) s1 hadds
    · obtain ⟨⟨n, hfills⟩, hreports⟩ := hadds
      exact ⟨⟨n, _, hfills⟩, hreports, fun _ h => by cases h⟩
    obtain ⟨n, m, hfills, hblank, -, hreports⟩ := hadds
    refine (childValue_returns hfills hblank (hvalue hblank (by omega))).bind ?_
    rintro (_ | stop) s2 ⟨⟨n, kids, hfills, hlast⟩, hparse, hle⟩
    · exact ⟨⟨n, _, hfills⟩, hreports.trans hparse, fun _ h => by cases h⟩
    have hstop := (skip_length_le stop).trans (hle stop rfl)
    exact (hloop hfills hlast (by omega)).imp fun _ _ =>
      Parses.of_reports (hreports.trans hparse) (by omega)
  · refine ⟨⟨n, kids, hfills⟩, .refl s, ?_⟩
    rintro _ ⟨⟩
    exact le_rfl

/-- A member of an object: its name and its value. -/
theorem member_returns {fuel : Nat} (x : ParseState → Bytes → Call) (value : Bytes)
    (hvalue : ValueSpec fuel) (hf : Fills h0 s.heap item n0 n (kids ++ [.node c [] []]))
    (hm : Blank s.heap c m) (hstring : m.string = none) (hfuel : 2 * value.length + 1 ≤ fuel)
    (hx : ∀ {s' n kids stop}, Fills h0 s'.heap item n0 n kids →
      (kids.map addr).getLast? = some c → stop.length ≤ value.length →
      Returns (Parses h0 item n0 s' value) (x s' stop)) :
    Returns (Parses h0 item n0 s value) (do
      let (value, s) ← s.parseKey c value
      match value with
      | none => .ok (none, s)
      | some value => do
          let (value, s) ← s.parseValue fuel c (skip value)
          match value with
          | none => .ok (none, s)
          | some value => x s (skip value)) := by
  refine (parseKey_returns hf hm hstring value).bind ?_
  rintro (_ | stop) s1 ⟨hnames, hreports, hle⟩
  · exact ⟨hnames, hreports, fun _ h => nomatch h⟩
  obtain ⟨n, m, texts, hfills, hblank⟩ := hnames
  have hstop := (skip_length_le stop).trans (hle stop rfl)
  refine (childValue_returns hfills hblank (hvalue hblank (by omega))).bind ?_
  rintro (_ | stop) s2 ⟨⟨n, kids, hfills, hlast⟩, hparse, hle⟩
  · exact ⟨⟨n, _, hfills⟩, hreports.trans hparse, fun _ h => nomatch h⟩
  exact (hx hfills hlast (by have := skip_length_le stop; have := hle stop rfl; omega)).imp
    fun _ _ => Parses.of_reports (hreports.trans hparse) le_rfl

theorem parseObject_returns {fuel : Nat} (hvalue : ValueSpec fuel)
    (hloop : LoopSpec (ParseState.parseMembers fuel) fuel) :
    ContainerSpec (ParseState.parseObject (fuel + 1)) (fuel + 1) := by
  intro s item m value hm hne hfuel
  obtain ⟨s1, hrun, hfills, hreports⟩ := store_returns hm.fills
    (f := fun n => { n with type := ⟨.object, false, false⟩ }) ⟨rfl, rfl, hm.plain.string⟩
    ⟨rfl, rfl, rfl⟩ rfl rfl
  have htail : value.tail.length + 1 = value.length := by
    rw [List.length_tail]
    exact Nat.sub_add_cancel (List.length_pos_of_ne_nil hne)
  have hskip := skip_length_le value.tail
  have hstart := skip_length_le (skip value.tail)
  rw [ParseState.parseObject, hrun]
  change Returns _ (if peek (skip value.tail) = rbrace then _ else _)
  split
  · refine ⟨⟨_, _, hfills⟩, hreports, ?_⟩
    rintro _ ⟨⟩
    exact (tail_length_le _).trans (hskip.trans (by omega))
  refine (firstChild_returns hfills).bind ?_
  rintro (_ | c) s2 hadds
  · obtain ⟨⟨n, hfills⟩, hadds⟩ := hadds
    exact ⟨⟨n, _, hfills⟩, hreports.trans hadds, fun _ h => by cases h⟩
  obtain ⟨n, m1, hfills, hblank, hstring, hadds⟩ := hadds
  have hle : (skip (skip value.tail)).length ≤ value.length := by omega
  let x : ParseState → Bytes → Call := fun s value => do
    let (value, s) ← s.parseMembers fuel c value
    match value with
    | none => .ok (none, s)
    | some value => s.close rbrace value
  refine Returns.imp (member_returns x _ hvalue hfills hblank hstring (by omega) ?_) fun _ _ =>
    Parses.of_reports (hreports.trans hadds) hle
  intro s3 n kids stop hfills hlast hstop
  refine (hloop hfills hlast (by omega)).bind ?_
  rintro (_ | stop') s4 ⟨⟨n, kids, hfills⟩, hparse, hle⟩
  · exact ⟨⟨n, _, hfills⟩, hparse, fun _ h => by cases h⟩
  · have hlen := hle stop' rfl
    exact (close_returns hfills rbrace stop').imp fun _ _ => Parses.of_reports hparse (by omega)

theorem parseMembers_returns {fuel : Nat} (hvalue : ValueSpec fuel)
    (hloop : LoopSpec (ParseState.parseMembers fuel) fuel) :
    LoopSpec (ParseState.parseMembers (fuel + 1)) (fuel + 1) := by
  intro h0 s item c n n0 kids value hfills hlast hfuel
  rw [ParseState.parseMembers]
  split
  · next hcomma =>
    have hne : value ≠ [] := by
      rintro rfl
      exact absurd hcomma (by decide)
    have htail : value.tail.length + 1 = value.length := by
      rw [List.length_tail]
      exact Nat.sub_add_cancel (List.length_pos_of_ne_nil hne)
    have hskip := skip_length_le value.tail
    refine (nextChild_returns hfills hlast).bind ?_
    rintro (_ | c) s1 hadds
    · obtain ⟨⟨n, hfills⟩, hreports⟩ := hadds
      exact ⟨⟨n, _, hfills⟩, hreports, fun _ h => by cases h⟩
    obtain ⟨n, m, hfills, hblank, hstring, hreports⟩ := hadds
    have hle : (skip value.tail).length ≤ value.length := by omega
    let x : ParseState → Bytes → Call := fun s value => s.parseMembers fuel c value
    refine Returns.imp (member_returns x _ hvalue hfills hblank hstring (by omega) ?_) fun _ _ =>
      Parses.of_reports hreports hle
    intro s2 n kids stop hfills hlast hstop
    exact (hloop hfills hlast (by omega)).imp fun _ _ => Parses.of_reports (.refl s2) hstop
  · refine ⟨⟨n, kids, hfills⟩, .refl s, ?_⟩
    rintro _ ⟨⟩
    exact le_rfl

theorem loopSpec_zero (parse : ParseState → Ref → Bytes → Call) : LoopSpec parse 0 :=
  fun _ _ hfuel => absurd hfuel (Nat.not_succ_le_zero _)

theorem containerSpec_zero (parse : ParseState → Ref → Bytes → Call) : ContainerSpec parse 0 :=
  fun _ hne hfuel => absurd (List.length_pos_of_ne_nil hne) (by omega)

/-- The parse functions meet their specifications at each bound. -/
theorem specs (fuel : Nat) :
    ValueSpec fuel ∧ ContainerSpec (ParseState.parseArray fuel) fuel ∧
      ContainerSpec (ParseState.parseObject fuel) fuel ∧
      LoopSpec (ParseState.parseElements fuel) fuel ∧
      LoopSpec (ParseState.parseMembers fuel) fuel := by
  induction fuel with
  | zero =>
      exact ⟨fun _ hfuel => absurd hfuel (Nat.not_succ_le_zero _), containerSpec_zero _,
        containerSpec_zero _, loopSpec_zero _, loopSpec_zero _⟩
  | succ fuel ih =>
      obtain ⟨hvalue, harray, hobject, helements, hmembers⟩ := ih
      exact ⟨parseValue_returns harray hobject, parseArray_returns hvalue helements,
        parseObject_returns hvalue hmembers, parseElements_returns hvalue helements,
        parseMembers_returns hvalue hmembers⟩

/-- An unfinished root is freed with all that was allocated for it. -/
theorem giveUp_eq {h : Heap} (hf : Fills (h.push (.node {})) s.heap h.fresh {} n kids) :
    ∃ h', s.giveUp h.fresh = .ok (none, { s with heap := h' }) ∧ h'.top = s.heap.top ∧
      h'.cells = h.cells := by
  have hname : Heap.ownedName n = [] := by
    rw [Heap.ownedName, hf.string]
  have howned : (ItemTree.node h.fresh n.ownedTexts kids).Owned s.heap := by
    refine ⟨n, hf.node, rfl, hf.plain.keyMarked, ?_, ?_, hf.owned⟩
    · intro v hv
      rw [hf.plain.ownedTexts, hname, List.append_nil, Option.mem_toList] at hv
      exact hf.text v hv
    · rw [Node.ownedChild, hf.plain.isReference]
      exact hf.chain
  have hblocks : (ItemTree.node h.fresh n.ownedTexts kids).blocks =
      h.fresh :: (n.valuestring.toList ++ blocksOf kids) := by
    rw [blocks, hf.plain.ownedTexts, hname, List.append_nil]
  have hnodup : (ItemTree.node h.fresh n.ownedTexts kids).blocks.Nodup := by
    rw [hblocks]
    refine List.nodup_cons.mpr ⟨fun hmem => ?_, hf.nodup⟩
    exact Nat.not_succ_le_self _ ((hf.mem_iff _).mp hmem).1
  have hnext : s.heap.next h.fresh = none := by
    rw [Heap.next, hf.node]
    exact hf.next
  refine ⟨s.heap.eraseAll (ItemTree.node h.fresh n.ownedTexts kids).blocks, ?_, rfl, ?_⟩
  · rw [ParseState.giveUp, onHeap_eq (howned.delete_eq hnodup hnext)]
    rfl
  funext r
  rw [hblocks]
  by_cases hmem : r ∈ h.fresh :: (n.valuestring.toList ++ blocksOf kids)
  · have hle : h.top ≤ r := by
      obtain rfl | hr := List.mem_cons.mp hmem
      · exact le_rfl
      · exact (Nat.le_succ _).trans ((hf.mem_iff r).mp hr).1
    rw [h.bounded r hle]
    exact if_pos hmem
  · rw [Heap.cells_eraseAll_of_notMem hmem]
    rw [List.mem_cons, not_or] at hmem
    obtain ⟨hne, hmem⟩ := hmem
    by_cases hlt : r < (h.push (.node {})).top
    · rw [hf.frame r hlt hne]
      exact if_neg hne
    · rw [hf.mem_iff, not_and] at hmem
      have hdead := hmem (Nat.le_of_not_lt hlt)
      rw [h.bounded r ((Nat.le_succ _).trans (Nat.le_of_not_lt hlt))]
      exact Option.not_isSome_iff_eq_none.mp hdead

/-- No allocation between the two states failed. -/
def NoneFails (s s' : ParseState) : Prop :=
  ∀ r : Nat, s.heap.top ≤ r → r < s'.heap.top → s.heap.fails r = false

/-- A text that is not accepted leaves no block behind, and it sets `ep` unless an allocation
failed. -/
theorem parseWithOpts_returns (s : ParseState) (value : CString) (requireNullTerminated : Bool) :
    Returns (fun returned s' => (returned = none → s'.heap.cells = s.heap.cells) ∧
        (NoneFails s s' → (s'.ep.isSome ↔ returned = none)))
      (s.parseWithOpts value.1 requireNullTerminated) := by
  rw [ParseState.parseWithOpts]
  cases hfails : s.heap.fails s.heap.fresh with
  | true =>
      rw [newItem_of_fails hfails]
      refine ⟨fun _ => rfl, fun hnone => ?_⟩
      have hok := hnone s.heap.fresh le_rfl (Nat.lt_succ_self _)
      rw [hfails] at hok
      cases hok
  | false =>
      rw [newItem_of_not_fails hfails]
      let s1 : ParseState := { heap := s.heap.push (.node {}), ep := none }
      have hnode : s1.heap.node s.heap.fresh = some {} := s.heap.node_push_top {}
      have hblank : Blank s1.heap s.heap.top {} :=
        ⟨hnode, ⟨rfl, rfl, none, rfl⟩, rfl, rfl, fun _ hr => nomatch hr⟩
      have hfuel : 2 * (skip value.1).length + 1 ≤ fuelFor value.1 := by
        have hle := skip_length_le value.1
        rw [fuelFor]
        omega
      have hspec := (specs (fuelFor value.1)).1 hblank hfuel
      have hfirst : s1.heap.top = s.heap.top + 1 := rfl
      have hclear : ∀ {s2 : ParseState}, NoneFails s s2 → ¬∃ r : Nat,
          (s1.heap.top ≤ r ∧ r < s2.heap.top) ∧ s1.heap.fails r = true := by
        rintro s2 hnone ⟨r, ⟨hle, hlt⟩, hbad⟩
        have hok : s1.heap.fails r = false := hnone r (by omega) hlt
        rw [hok] at hbad
        cases hbad
      refine hspec.bind ?_
      rintro (_ | stop) s2 ⟨⟨n, kids, hfills⟩, hreports, -⟩
      · obtain ⟨h', hrun, htop, hcells⟩ := giveUp_eq hfills
        change Returns _ (s2.giveUp s.heap.fresh)
        rw [hrun]
        refine ⟨fun _ => hcells, fun hnone => iff_of_true ?_ rfl⟩
        have hnone' : NoneFails s s2 := fun r hle hlt => hnone r hle (hlt.trans_eq htop.symm)
        exact (hreports.reported rfl).resolve_right (hclear hnone')
      · have haccepts : ∀ stop : Bytes, Returns
            (fun returned s' => (returned = none → s'.heap.cells = s.heap.cells) ∧
              (NoneFails s s' → (s'.ep.isSome ↔ returned = none)))
            (.ok (some (s.heap.fresh, stop), s2) : Parsed) := by
          refine fun stop => ⟨fun h => (nomatch h), fun _ => ?_⟩
          rw [hreports.kept rfl]
          exact iff_of_false Bool.false_ne_true (Option.some_ne_none _)
        change Returns _ (if requireNullTerminated = true then
          if peek (skip stop) ≠ 0 then _ else _ else _)
        split
        · split
          · obtain ⟨h', hrun, -, hcells⟩ := giveUp_eq hfills
            rw [hrun]
            exact ⟨fun _ => hcells, fun _ => iff_of_true rfl rfl⟩
          · exact haccepts _
        · exact haccepts _

end RebuildTheWheel.CJson
