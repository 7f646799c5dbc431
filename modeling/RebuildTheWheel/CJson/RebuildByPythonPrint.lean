import RebuildTheWheel.CJson.RebuildByPython

namespace RebuildTheWheel.CJson

open Data

/-! The printer of `rebuild_by_python`. -/

namespace RebuildByPython

/-- What one call of `print` prints. -/
inductive Line where
  | brace
  | close
  | comma
  | object (key : Option (List Char))
  | string (key value : Option (List Char))
  | number (key : Option (List Char)) (value : Option Binary64)
  | quoted (key : Option (List Char)) (value : Option Binary64)

/-- The field of a format. -/
def field (text : Option (List Char)) : List Char := text.getD "None".toList

/-- The characters of a line, when `str` gives those of a double. -/
def Line.text (str : Binary64 → List Char) : Line → List Char
  | .brace => ['{']
  | .close => ['}']
  | .comma => [',']
  | .object key => " \"".toList ++ field key ++ "\":   \x7b".toList
  | .string key value => " \"".toList ++ field key ++ "\":\"".toList ++ field value ++ ['"']
  | .number key value => " \"".toList ++ field key ++ "\":".toList ++ field (value.map str)
  | .quoted key value =>
      " \"".toList ++ field key ++ "\":\"".toList ++ field (value.map str) ++ ['"']

/-- The test for a number behind the loop over the siblings of a string, of which `currnet` is
the last. -/
def printAgain (currnet : Option Item) : List Line :=
  match currnet with
  | some ⟨some .number, _, valuedouble, string, _⟩ => [.quoted string valuedouble]
  | _ => []

mutual

/-- The three cases inside the loops of `print_object`. -/
def printMember : Item → Option (List Line)
  | ⟨some .string, valuestring, _, string, _⟩ => some [.string string valuestring]
  | ⟨some .number, _, valuedouble, string, _⟩ => some [.number string valuedouble]
  | ⟨some .object, _, _, string, child⟩ => do
      let lines ← printObject child
      return .object string :: lines ++ [.close]
  | ⟨none, _, _, _, _⟩ => some []

/-- The loop over the items behind the current one. -/
def printSiblings : List Item → Option (List Line)
  | [] => some []
  | currnet :: rest => do
      let lines ← printMember currnet
      let after ← printSiblings rest
      return .comma :: lines ++ after

/-- `print_object` of the first of the items. -/
def printObject : List Item → Option (List Line)
  | [] => none
  | ⟨some .object, _, _, string, child⟩ :: _ => do
      let lines ← printObject child
      return .object string :: lines ++ [.close]
  | ⟨some .string, valuestring, _, string, _⟩ :: rest => do
      let lines ← printSiblings rest
      return .string string valuestring :: lines ++ printAgain rest.getLast?
  | ⟨some .number, _, valuedouble, string, _⟩ :: rest => do
      let lines ← printSiblings rest
      return .quoted string valuedouble :: lines
  | ⟨none, _, _, _, _⟩ :: _ => some []

end

def prettyPrint (c : Item) : Option (List Line) :=
  match c.type with
  | some .object => do
      let lines ← printObject c.child
      return .brace :: lines ++ [.close]
  | _ => some []

/-! What should be printed. -/

/-- The first number of an object may stand in quotes. -/
def Line.plain : Line → Line
  | .quoted key value => .number key value
  | line => line

mutual

def shown : Item → List Line
  | ⟨some .string, valuestring, _, string, _⟩ => [.string string valuestring]
  | ⟨some .number, _, valuedouble, string, _⟩ => [.number string valuedouble]
  | ⟨some .object, _, _, string, child⟩ => .object string :: shownMembers child ++ [.close]
  | ⟨none, _, _, _, _⟩ => []

def shownSiblings : List Item → List Line
  | [] => []
  | item :: rest => .comma :: shown item ++ shownSiblings rest

/-- Every member in order, with a comma between consecutive ones. -/
def shownMembers : List Item → List Line
  | [] => []
  | item :: rest => shown item ++ shownSiblings rest

end

/-- An item is in the tree of the other. -/
inductive Within (root : Item) : Item → Prop
  | root : Within root root
  | member {item child : Item} : Within root item → item.type = some .object →
      child ∈ item.child → Within root child

/-- The members of an object that `print_object` does not lose or repeat. -/
def Orderly : List Item → Prop
  | [] => False
  | [_] => True
  | first :: rest => first.type = some .number ∨
      first.type = some .string ∧ ∀ last, rest.getLast? = some last → last.type ≠ some .number

def Typed (root : Item) : Prop := ∀ item, Within root item → item.type ≠ none

def Good (root : Item) : Prop :=
  ∀ item, Within root item → item.type = some .object → Orderly item.child

variable {item root child : Item} {items rest : List Item} {lines lines' expected expected' : List Line}
  {P Q : Prop}

theorem Item.induction {motive : Item → Prop}
    (h : ∀ item, (∀ child ∈ item.child, motive child) → motive item) (item : Item) : motive item :=
  @Item.rec motive (fun items => ∀ child ∈ items, motive child)
    (fun _ _ _ _ _ ih => h _ ih) nofun
    (fun _ _ hfirst hrest => List.forall_mem_cons.mpr ⟨hfirst, hrest⟩) item

theorem Within.of_child (h : Within child item) (hroot : root.type = some .object)
    (hchild : child ∈ root.child) : Within root item := by
  induction h with
  | root => exact .member .root hroot hchild
  | member _ hobject hmem ih => exact .member ih hobject hmem

theorem within_iff : Within root item ↔
    item = root ∨ root.type = some .object ∧ ∃ child ∈ root.child, Within child item := by
  constructor
  · intro h
    induction h with
    | root => exact .inl rfl
    | member _ hobject hmem ih =>
        rcases ih with rfl | ⟨hroot, child, hchild, hwithin⟩
        · exact .inr ⟨hobject, _, hmem, .root⟩
        · exact .inr ⟨hroot, child, hchild, .member hwithin hobject hmem⟩
  · rintro (rfl | ⟨hroot, child, hchild, hwithin⟩)
    · exact .root
    · exact hwithin.of_child hroot hchild

theorem Typed.of_child (h : Typed root) (hroot : root.type = some .object)
    (hchild : child ∈ root.child) : Typed child :=
  fun item hwithin => h item (hwithin.of_child hroot hchild)

theorem good_iff : Good root ↔
    (root.type = some .object → Orderly root.child ∧ ∀ child ∈ root.child, Good child) := by
  constructor
  · intro h hroot
    exact ⟨h root .root hroot, fun child hchild item hwithin =>
      h item (hwithin.of_child hroot hchild)⟩
  · intro h item hwithin hobject
    rcases within_iff.mp hwithin with rfl | ⟨hroot, child, hchild, hbelow⟩
    · exact (h hobject).1
    · exact (h hroot).2 child hchild item hbelow hobject

theorem good_of_ne (h : root.type ≠ some .object) : Good root :=
  good_iff.mpr fun hobject => absurd hobject h

/-! A member that is lost takes a comma with it; without one, a member that comes again is one
line more. -/

def Line.isComma : Line → Bool
  | .comma => true
  | _ => false

/-- The lines are no more than expected, and as many only when `P` holds. -/
structure Reveals (lines expected : List Line) (P : Prop) : Prop where
  commas : lines.countP Line.isComma ≤ expected.countP Line.isComma
  length : lines.countP Line.isComma = expected.countP Line.isComma →
    expected.length ≤ lines.length
  holds : lines.countP Line.isComma = expected.countP Line.isComma →
    lines.length = expected.length → P

theorem Reveals.append (h : Reveals lines expected P) (h' : Reveals lines' expected' Q) :
    Reveals (lines ++ lines') (expected ++ expected') (P ∧ Q) := by
  have hcommas := h.commas
  have hcommas' := h'.commas
  refine ⟨?_, ?_, ?_⟩
  all_goals simp only [List.countP_append, List.length_append]
  · omega
  · intro heq
    have hlength := h.length (by omega)
    have hlength' := h'.length (by omega)
    omega
  · intro heq hsame
    have hlength := h.length (by omega)
    have hlength' := h'.length (by omega)
    exact ⟨h.holds (by omega) (by omega), h'.holds (by omega) (by omega)⟩

theorem Reveals.mono (h : Reveals lines expected P) (himp : P → Q) : Reveals lines expected Q :=
  ⟨h.commas, h.length, fun heq hsame => himp (h.holds heq hsame)⟩

theorem reveals_line (line line' : Line) (h : line.isComma = line'.isComma) :
    Reveals [line] [line'] True where
  commas := by rw [List.countP_singleton, List.countP_singleton, h]
  length := fun _ => Nat.le_refl 1
  holds := fun _ _ => trivial

theorem Reveals.cons (line line' : Line) (hline : line.isComma = line'.isComma)
    (h : Reveals lines expected P) : Reveals (line :: lines) (line' :: expected) P :=
  ((reveals_line line line' hline).append h).mono And.right

theorem Reveals.close (h : Reveals lines expected P) :
    Reveals (lines ++ [.close]) (expected ++ [.close]) P :=
  (h.append (reveals_line .close .close rfl)).mono And.left

theorem reveals_nil : Reveals [] [] True := ⟨Nat.le_refl 0, fun _ => Nat.le_refl 0, fun _ _ => trivial⟩

theorem printSiblings_reveals (h : ∀ item ∈ items, ∀ lines, printMember item = some lines →
      Reveals lines (shown item) (Good item)) (hprint : printSiblings items = some lines) :
    Reveals lines (shownSiblings items) (∀ item ∈ items, Good item) := by
  induction items generalizing lines with
  | nil =>
      obtain rfl := Option.some.inj hprint
      exact reveals_nil.mono fun _ => nofun
  | cons item rest ih =>
      rw [printSiblings] at hprint
      obtain ⟨first, hfirst, hafter⟩ := Option.bind_eq_some_iff.mp hprint
      obtain ⟨after, hrest, heq⟩ := Option.bind_eq_some_iff.mp hafter
      obtain rfl := Option.some.inj heq
      have hreveals := h item List.mem_cons_self first hfirst
      have hothers := ih (fun x hx => h x (List.mem_cons_of_mem item hx)) hrest
      exact ((hreveals.append hothers).cons .comma .comma rfl).mono List.forall_mem_cons.mpr

theorem printAgain_eq {last : Item} (h : last.type = some .number) :
    ∃ line, printAgain (some last) = [line] ∧ line.isComma = false := by
  obtain ⟨type, valuestring, valuedouble, string, child⟩ := last
  obtain rfl := h
  exact ⟨_, rfl, rfl⟩

theorem printAgain_of_ne {last : Option Item}
    (h : ∀ item, last = some item → item.type ≠ some .number) : printAgain last = [] := by
  cases last with
  | none => rfl
  | some last =>
      obtain ⟨_ | _ | _ | _, valuestring, valuedouble, string, child⟩ := last
      · rfl
      · rfl
      · rfl
      · exact absurd rfl (h _ rfl)

/-- A number behind the others is printed once more. -/
theorem reveals_again (h : Reveals lines expected P) (last : Option Item) :
    Reveals (lines ++ printAgain last) expected
      (P ∧ ∀ item, last = some item → item.type ≠ some .number) := by
  cases last with
  | none =>
      have hnone : ∀ item : Item, none = some item → item.type ≠ some .number :=
        fun _ heq => nomatch heq
      rw [printAgain_of_ne hnone, List.append_nil]
      exact h.mono fun hp => ⟨hp, hnone⟩
  | some last =>
      by_cases htype : last.type = some .number
      · obtain ⟨line, hline, hcomma⟩ := printAgain_eq htype
        rw [hline]
        refine ⟨?_, ?_, ?_⟩
        all_goals simp only [List.countP_append, List.countP_singleton, hcomma, List.length_append,
          List.length_singleton, Bool.false_eq_true, if_false, Nat.add_zero]
        · exact h.commas
        · intro heq
          exact Nat.le_succ_of_le (h.length heq)
        · intro heq hsame
          have hlength := h.length heq
          omega
      · have hne : ∀ item, some last = some item → item.type ≠ some .number := by
          intro item heq
          obtain rfl := Option.some.inj heq
          exact htype
        rw [printAgain_of_ne hne, List.append_nil]
        exact h.mono fun hp => ⟨hp, hne⟩

/-- Members that are not printed take their commas with them. -/
theorem Reveals.lost (h : Reveals lines expected P)
    (hcomma : 0 < expected'.countP Line.isComma) : Reveals lines (expected ++ expected') Q := by
  have hcommas := h.commas
  refine ⟨?_, ?_, ?_⟩
  all_goals rw [List.countP_append]
  · omega
  · intro heq
    omega
  · intro heq
    omega

theorem commas_siblings (item : Item) (rest : List Item) :
    0 < (shownSiblings (item :: rest)).countP Line.isComma := by
  rw [shownSiblings, List.cons_append, List.countP_cons_of_pos rfl]
  exact Nat.succ_pos _

theorem printObject_reveals (h : ∀ item ∈ items, ∀ lines, printMember item = some lines →
      Reveals lines (shown item) (Good item)) (htyped : ∀ item ∈ items, item.type ≠ none)
    (hprint : printObject items = some lines) :
    Reveals lines (shownMembers items) (Orderly items ∧ ∀ item ∈ items, Good item) := by
  cases items with
  | nil => cases hprint
  | cons first rest =>
      have hrest := fun x hx => h x (List.mem_cons_of_mem first hx)
      rw [shownMembers]
      obtain ⟨_ | _ | _ | _, valuestring, valuedouble, string, child⟩ := first
      · exact absurd rfl (htyped _ List.mem_cons_self)
      · have hmember : printMember ⟨some .object, valuestring, valuedouble, string, child⟩ =
            some lines := by
          rw [printObject] at hprint
          rw [printMember, hprint]
        have hreveals := h _ List.mem_cons_self lines hmember
        cases rest with
        | nil =>
            rw [shownSiblings, List.append_nil]
            exact hreveals.mono fun hgood => ⟨trivial, List.forall_mem_singleton.mpr hgood⟩
        | cons next rest => exact hreveals.lost (commas_siblings next rest)
      · rw [printObject] at hprint
        obtain ⟨others, hothers, heq⟩ := Option.bind_eq_some_iff.mp hprint
        obtain rfl := Option.some.inj heq
        have hsiblings := reveals_again (printSiblings_reveals hrest hothers) rest.getLast?
        refine (hsiblings.cons (.string string valuestring) (.string string valuestring) rfl).mono
          fun ⟨hgood, hlast⟩ => ⟨?_, List.forall_mem_cons.mpr ⟨good_of_ne nofun, hgood⟩⟩
        cases rest with
        | nil => exact trivial
        | cons next rest => exact .inr ⟨rfl, hlast⟩
      · rw [printObject] at hprint
        obtain ⟨others, hothers, heq⟩ := Option.bind_eq_some_iff.mp hprint
        obtain rfl := Option.some.inj heq
        have hsiblings := printSiblings_reveals hrest hothers
        refine (hsiblings.cons (.quoted string valuedouble) (.number string valuedouble) rfl).mono
          fun hgood => ⟨?_, List.forall_mem_cons.mpr ⟨good_of_ne nofun, hgood⟩⟩
        cases rest with
        | nil => exact trivial
        | cons next rest => exact .inl rfl

theorem printMember_reveals (item : Item) (htyped : Typed item) (lines : List Line)
    (hprint : printMember item = some lines) : Reveals lines (shown item) (Good item) := by
  induction item using Item.induction generalizing lines with
  | h item ih =>
      obtain ⟨_ | _ | _ | _, valuestring, valuedouble, string, child⟩ := item
      · exact absurd rfl (htyped _ .root)
      · rw [printMember] at hprint
        obtain ⟨inner, hinner, heq⟩ := Option.bind_eq_some_iff.mp hprint
        obtain rfl := Option.some.inj heq
        have hchild : ∀ x ∈ child, Typed x := fun x hx => htyped.of_child rfl hx
        have hreveals := printObject_reveals (fun x hx lines => ih x hx (hchild x hx) lines)
          (fun x hx => hchild x hx x .root) hinner
        rw [shown]
        exact ((hreveals.cons (.object string) (.object string) rfl).close).mono fun hgood =>
          good_iff.mpr fun _ => hgood
      · obtain rfl := Option.some.inj hprint
        exact (reveals_line _ _ rfl).mono fun _ => good_of_ne nofun
      · obtain rfl := Option.some.inj hprint
        exact (reveals_line _ _ rfl).mono fun _ => good_of_ne nofun

/-! In an orderly tree nothing is lost. -/

/-- The lines are those expected. -/
def Prints (r : Option (List Line)) (expected : List Line) : Prop :=
  ∃ lines, r = some lines ∧ lines.map Line.plain = expected

theorem printSiblings_prints (h : ∀ item ∈ items, Prints (printMember item) (shown item)) :
    Prints (printSiblings items) (shownSiblings items) := by
  induction items with
  | nil => exact ⟨[], rfl, rfl⟩
  | cons item rest ih =>
      obtain ⟨first, hfirst, hshown⟩ := h item List.mem_cons_self
      obtain ⟨after, hafter, hothers⟩ := ih fun x hx => h x (List.mem_cons_of_mem item hx)
      refine ⟨.comma :: first ++ after, ?_, ?_⟩
      · rw [printSiblings, hfirst, hafter]
        rfl
      · rw [List.map_append, List.map_cons, hshown, hothers]
        rfl

theorem printObject_prints (h : ∀ item ∈ items, Prints (printMember item) (shown item))
    (htyped : ∀ item ∈ items, item.type ≠ none) (horderly : Orderly items) :
    Prints (printObject items) (shownMembers items) := by
  cases items with
  | nil => exact horderly.elim
  | cons first rest =>
      obtain ⟨others, hothers, hshown⟩ :=
        printSiblings_prints fun x hx => h x (List.mem_cons_of_mem first hx)
      rw [shownMembers]
      obtain ⟨_ | _ | _ | _, valuestring, valuedouble, string, child⟩ := first
      · exact absurd rfl (htyped _ List.mem_cons_self)
      · cases rest with
        | nil =>
            have hmember := h _ List.mem_cons_self
            rw [printMember] at hmember
            rw [printObject, shownSiblings, List.append_nil]
            exact hmember
        | cons next rest => rcases horderly with hfirst | ⟨hfirst, -⟩ <;> cases hfirst
      · have hlast : ∀ item, rest.getLast? = some item → item.type ≠ some .number := by
          cases rest with
          | nil => exact fun _ heq => nomatch heq
          | cons next rest =>
              rcases horderly with hfirst | ⟨-, hlast⟩
              · cases hfirst
              · exact hlast
        refine ⟨.string string valuestring :: others, ?_, ?_⟩
        · rw [printObject, hothers, printAgain_of_ne hlast]
          simp only [Option.bind_eq_bind, Option.bind_some, List.append_nil]
          rfl
        · rw [List.map_cons, hshown]
          rfl
      · refine ⟨.quoted string valuedouble :: others, ?_, ?_⟩
        · rw [printObject, hothers]
          rfl
        · rw [List.map_cons, hshown]
          rfl

theorem printMember_prints (item : Item) (htyped : Typed item) (hgood : Good item) :
    Prints (printMember item) (shown item) := by
  induction item using Item.induction with
  | h item ih =>
      obtain ⟨_ | _ | _ | _, valuestring, valuedouble, string, child⟩ := item
      · exact absurd rfl (htyped _ .root)
      · obtain ⟨horderly, hbelow⟩ := good_iff.mp hgood rfl
        have hchild : ∀ x ∈ child, Typed x := fun x hx => htyped.of_child rfl hx
        obtain ⟨lines, hlines, hshown⟩ := printObject_prints
          (fun x hx => ih x hx (hchild x hx) (hbelow x hx)) (fun x hx => hchild x hx x .root) horderly
        refine ⟨.object string :: lines ++ [.close], ?_, ?_⟩
        · rw [printMember, hlines]
          rfl
        · rw [List.map_append, List.map_cons, hshown]
          rfl
      · exact ⟨_, rfl, rfl⟩
      · exact ⟨_, rfl, rfl⟩

theorem Reveals.of_plain (h : Reveals lines expected P) (hplain : lines.map Line.plain = expected) :
    P := by
  have hcomma : ∀ line ∈ lines, (Line.isComma ∘ Line.plain) line = line.isComma := by
    intro line _
    cases line <;> rfl
  subst hplain
  refine h.holds ?_ (List.length_map _).symm
  rw [List.countP_map]
  exact (List.countP_congr fun line hline => by rw [hcomma line hline]).symm

theorem prettyPrint_shows_iff (c : Item) (hobject : c.type = some .object)
    (htyped : ∀ item, Within c item → item.type ≠ none) :
    (∃ lines, prettyPrint c = some lines ∧
        lines.map Line.plain = .brace :: shownMembers c.child ++ [.close]) ↔
      ∀ item, Within c item → item.type = some .object → Orderly item.child := by
  have hchild : ∀ child ∈ c.child, Typed child := fun child hmem =>
    Typed.of_child htyped hobject hmem
  have htypes : ∀ child ∈ c.child, child.type ≠ none := fun child hmem => hchild child hmem child .root
  rw [prettyPrint, hobject]
  constructor
  · intro ⟨lines, hprint, hshown⟩
    obtain ⟨inner, hinner, heq⟩ := Option.bind_eq_some_iff.mp hprint
    obtain rfl := Option.some.inj heq
    rw [List.map_append, List.map_cons] at hshown
    have hplain := List.append_cancel_right (List.cons.inj hshown).2
    have hreveals := printObject_reveals
      (fun child hmem lines => printMember_reveals child (hchild child hmem) lines) htypes hinner
    exact good_iff.mpr fun _ => hreveals.of_plain hplain
  · intro hgood
    obtain ⟨horderly, hbelow⟩ := good_iff.mp hgood hobject
    obtain ⟨inner, hinner, hshown⟩ := printObject_prints
      (fun child hmem => printMember_prints child (hchild child hmem) (hbelow child hmem)) htypes
      horderly
    refine ⟨.brace :: inner ++ [.close], ?_, ?_⟩
    · rw [hinner]
      rfl
    · rw [List.map_append, List.map_cons, hshown]
      rfl

mutual

theorem typed_treeOf : ∀ (key : Option (List Char)) (v : JsonText.Value), Typed (treeOf key v)
  | _, .string _ => fun item hwithin => by
      rcases within_iff.mp hwithin with rfl | ⟨hobject, -⟩
      · exact nofun
      · cases hobject
  | _, .number _ => fun item hwithin => by
      rcases within_iff.mp hwithin with rfl | ⟨hobject, -⟩
      · exact nofun
      · cases hobject
  | _, .object members => fun item hwithin => by
      rcases within_iff.mp hwithin with rfl | ⟨-, child, hchild, hbelow⟩
      · exact nofun
      · exact typed_treesOf members child hchild item hbelow

theorem typed_treesOf : ∀ (members : List (List Char × JsonText.Value)), ∀ item ∈ treesOf members,
    Typed item
  | [] => nofun
  | (_, v) :: members => List.forall_mem_cons.mpr ⟨typed_treeOf _ v, typed_treesOf members⟩

end

/-- The tree of `{"a":{"x":"1"},"b":"2"}`. -/
def twoMembers : Item :=
  treeOf none (.object [(['a'], .object [(['x'], .string ['1'])]), (['b'], .string ['2'])])

theorem prettyPrint_loses_member :
    twoMembers.type = some .object ∧ (∀ item, Within twoMembers item → item.type ≠ none) ∧
      ¬∃ lines, prettyPrint twoMembers = some lines ∧
        lines.map Line.plain = .brace :: shownMembers twoMembers.child ++ [.close] := by
  refine ⟨rfl, typed_treeOf _ _, fun ⟨lines, hprint, hshown⟩ => ?_⟩
  obtain rfl := Option.some.inj hprint
  exact absurd (congrArg List.length hshown) (by decide)

/-- The tree of `{"b":"2","a":{"x":"1"}}`. -/
def stringFirst : Item :=
  treeOf none (.object [(['b'], .string ['2']), (['a'], .object [(['x'], .string ['1'])])])

theorem prettyPrint_shows_stringFirst :
    (∃ lines, prettyPrint stringFirst = some lines ∧
        lines.map Line.plain = .brace :: shownMembers stringFirst.child ++ [.close]) ↔
      ∀ item, Within stringFirst item → item.type = some .object → Orderly item.child :=
  prettyPrint_shows_iff stringFirst rfl (typed_treeOf _ _)

end RebuildByPython

end RebuildTheWheel.CJson
