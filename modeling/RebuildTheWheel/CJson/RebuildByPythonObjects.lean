import RebuildTheWheel.CJson.RebuildByPython

namespace RebuildTheWheel.CJson

open Data Data.JsonText

namespace RebuildByPython

/-! What each function does at the first character. -/

theorem parseValue_quote (fuel : Nat) (c : Item) (rest : List Char) :
    parseValue (fuel + 1) c ('"' :: rest) =
      some ({ c with valuestring := some (plain rest), type := some .string },
        .text (rest.drop ((plain rest).length + 1))) := by
  rw [parseValue, if_neg (by decide), if_neg (by decide), if_neg (by decide), if_pos rfl,
    parseString_quote]
  rfl

theorem parseValue_brace (fuel : Nat) (c : Item) (rest : List Char) :
    parseValue (fuel + 1) c ('{' :: rest) = parseObject fuel c ('{' :: rest) := by
  rw [parseValue, if_neg (by decide), if_pos rfl]

theorem parseValue_number (h : RendersNumber n text) (hrest : Follows rest) (fuel : Nat)
    (c : Item) :
    parseValue (fuel + 1) c (text ++ rest) =
      some ({ c with valuedouble := some (double n), type := some .number }, .text rest) := by
  have hread := parseNumber_renders h hrest c
  obtain ⟨d, digits, rfl, hd⟩ := RendersNumber.head h
  have hother : d ≠ '[' ∧ d ≠ '{' := by
    constructor <;> (rintro rfl; exact absurd hd (by decide))
  rw [List.cons_append] at hread ⊢
  rw [parseValue, if_neg hother.1, if_neg hother.2, if_pos hd, hread]
  rfl

/-- White space before a value hides it. -/
theorem parseValue_other {w : Char} (hw : IsSpace w ∨ w = ':') (fuel : Nat) (c : Item)
    (rest : List Char) (item : Item) (after : List Char) :
    parseValue fuel c (w :: rest) ≠ some (item, .text after) := by
  cases fuel with
  | zero => exact fun h => nomatch h
  | succ fuel =>
      rcases hw with (rfl | rfl | rfl | rfl) | rfl
      all_goals
        rw [parseValue, if_neg (by decide), if_neg (by decide), if_neg (by decide),
          if_neg (by decide)]
        exact fun h => nomatch h

theorem skip_colon {text : List Char} (h : Whitespace text) (rest : List Char) :
    ∃ w others, skip (text ++ ':' :: rest) = w :: others ∧ (IsSpace w ∨ w = ':') := by
  by_cases hgap : readable.gap text
  · exact ⟨':', rest, skip_gap hgap (by decide) rest, .inr rfl⟩
  · obtain ⟨w, others, hskip, hw, -⟩ := skip_whitespace h hgap (':' :: rest)
    exact ⟨w, _, hskip, .inl hw⟩

theorem not_isSpace_quote : ¬IsSpace '"' := by
  unfold IsSpace
  decide

theorem not_isSpace_colon : ¬IsSpace ':' := by
  unfold IsSpace
  decide

theorem parseKey_quote (hbefore : readable.gap before) (rest : List Char) :
    parseKey (before ++ '"' :: rest) =
      some ({ Item.new with valuestring := some (plain rest), type := some .string },
        skip (rest.drop ((plain rest).length + 1))) := by
  rw [parseKey, skip_gap hbefore (by decide), parseString_quote]
  rfl

theorem parseKey_none {value : List Char} (h : skip value = c :: rest) (hc : c ≠ '"') :
    parseKey value = none := by
  rw [parseKey, h, parseString, if_pos hc]
  rfl

theorem parseMember_colon {fuel : Nat} {child : Item} {rest value : List Char} :
    parseMember (fuel + 1) child (':' :: rest) = some (item, value) ↔
      ∃ after, parseValue fuel { child with string := child.valuestring, valuestring := none }
        (skip rest) = some (item, .text after) ∧ skip after = value := by
  rw [parseMember, if_pos rfl]
  rcases parseValue fuel { child with string := child.valuestring, valuestring := none }
    (skip rest) with _ | ⟨child', _ | _ | _⟩
  all_goals simp [skipReturned]

theorem parseMember_whitespace {w : Char} (hw : IsSpace w) (h : Whitespace others) (fuel : Nat)
    (child : Item) (rest : List Char) :
    parseMember fuel child (w :: (others ++ ':' :: rest)) = none := by
  cases fuel with
  | zero => rfl
  | succ fuel =>
      rw [parseMember, if_neg (IsSpace.ne hw not_isSpace_colon)]
      have hws : Whitespace (w :: others) := List.forall_mem_cons.mpr ⟨hw, h⟩
      obtain ⟨w', others', hskip, hw'⟩ := skip_colon hws rest
      rw [List.cons_append] at hskip
      rw [hskip]
      have hother := parseValue_other hw' fuel
        { child with string := child.valuestring, valuestring := none } others'
      rcases hvalue : parseValue fuel
        { child with string := child.valuestring, valuestring := none } (w' :: others')
        with _ | ⟨child', _ | _ | _⟩
      · rfl
      · exact absurd hvalue (hother _ _)
      all_goals rfl

/-- A key and what follows it. -/
def member (fuel : Nat) (value : List Char) : Option (Item × List Char) := do
  let (child, value) ← parseKey value
  parseMember fuel child value

theorem parseMember_nil (fuel : Nat) (child : Item) : parseMember fuel child [] = none := by
  cases fuel <;> rfl

theorem parseMembers_nil (fuel : Nat) (item : Item) (children : List Item) :
    parseMembers fuel item children [] = none := by
  cases fuel <;> rfl

theorem parseObject_text {fuel : Nat} {item : Item} {ch : Char} {rest : List Char}
    (hch : ch ≠ '}') :
    parseObject (fuel + 1) item ('{' :: ch :: rest) = some (item', .text after) ↔
      ∃ child value, member fuel (ch :: rest) = some (child, value) ∧
        parseMembers fuel { item with type := some .object } [child] value =
          some (item', .text after) := by
  rw [parseObject, if_neg (not_not.mpr rfl)]
  simp only [if_neg hch, member]
  rcases hkey : parseKey (ch :: rest) with _ | ⟨child, value⟩
  · simp
  · rcases hmember : parseMember fuel child value with _ | ⟨child', value'⟩
    · simp [hmember]
    · by_cases hnil : value' = []
      · simp [hmember, hnil, parseMembers_nil]
      · simp [hmember, hnil]

theorem parseMembers_text {fuel : Nat} {item : Item} {children : List Item} {value : List Char} :
    parseMembers fuel item children value = some (item', .text after) ↔
      ∃ n, fuel = n + 1 ∧
        (value = '}' :: after ∧ item' = { item with child := children } ∨
          ∃ rest child value', value = ',' :: rest ∧ member n rest = some (child, value') ∧
            parseMembers n item (children ++ [child]) value' = some (item', .text after)) := by
  cases fuel with
  | zero => simp [parseMembers]
  | succ n =>
      cases value with
      | nil => simp [parseMembers]
      | cons ch rest =>
          rw [parseMembers]
          by_cases hcomma : ch = ','
          · subst hcomma
            simp only [if_pos, member]
            rcases hkey : parseKey rest with _ | ⟨child, value⟩
            · simp [hkey]
            · by_cases hnil : value = []
              · simp [hkey, hnil, parseMember_nil]
              · rcases hmember : parseMember n child value with _ | ⟨child', value'⟩
                · simp [hkey, hnil, hmember]
                · by_cases hnil' : value' = []
                  · simp [hkey, hnil, hmember, hnil', parseMembers_nil]
                  · simp [hkey, hnil, hmember, hnil']
          · rw [if_neg hcomma]
            by_cases hbrace : ch = '}'
            · subst hbrace
              simp [eq_comm, and_comm]
            · simp [hbrace, hcomma]

/-! What stands behind a member. -/

def Ends (rest : List Char) : Prop := ∃ c tail, rest = c :: tail ∧ (c = ',' ∨ c = '}')

theorem ends_comma (tail : List Char) : Ends (',' :: tail) := ⟨',', tail, rfl, .inl rfl⟩

theorem ends_brace (tail : List Char) : Ends ('}' :: tail) := ⟨'}', tail, rfl, .inr rfl⟩

theorem Ends.skip_gap (h : Ends rest) (hgap : readable.gap text) : skip (text ++ rest) = rest := by
  obtain ⟨c, tail, rfl, rfl | rfl⟩ := h
  all_goals exact RebuildByPython.skip_gap hgap (by decide) tail

theorem readable_whitespace (h : readable.gap text) : Whitespace text := by
  rcases h with rfl | ⟨c, rfl, hc, -⟩
  · exact fun _ hc => nomatch hc
  · exact List.forall_mem_singleton.mpr hc

theorem Ends.follows (h : Ends rest) (hws : Whitespace text) : Follows (text ++ rest) := by
  intro c hc
  cases text with
  | nil =>
      obtain ⟨c', tail, rfl, hc'⟩ := h
      obtain rfl : c' = c := Option.some.inj hc
      rcases hc' with rfl | rfl <;> decide
  | cons c' text =>
      obtain rfl : c' = c := Option.some.inj hc
      rcases hws c' List.mem_cons_self with rfl | rfl | rfl | rfl <;> decide

theorem Ends.not_isSpace (h : Ends (c :: rest)) : ¬IsSpace c := by
  obtain ⟨c', tail, heq, hc⟩ := h
  cases heq
  unfold IsSpace
  rcases hc with rfl | rfl <;> decide

/-- Only a comma or a brace is read behind a member. -/
theorem Ends.of_parseMembers
    (h : parseMembers fuel item children rest = some (item', .text after)) : Ends rest := by
  obtain ⟨n, -, ⟨rfl, -⟩ | ⟨tail, child, value, rfl, -⟩⟩ := parseMembers_text.mp h
  · exact ends_brace after
  · exact ends_comma tail

theorem rfcLexicon_whitespace (h : rfcLexicon.gap text) : Whitespace text := h

theorem members_head {lexicon : Lexicon} (hgap : ∀ {text}, lexicon.gap text → Whitespace text)
    (h : RendersMembers lexicon members text) (rest : List Char) :
    ∃ ch tail, text ++ rest = ch :: tail ∧ ch ≠ '}' := by
  have hmember : ∃ m text' tail, RendersMember lexicon m text' ∧ text = text' ++ tail := by
    cases h with
    | last hm => exact ⟨_, _, [], hm, (List.append_nil _).symm⟩
    | more hm _ => exact ⟨_, _, _, hm, rfl⟩
  obtain ⟨m, text', tail, hm, rfl⟩ := hmember
  cases hm with
  | @intro before _ _ _ _ _ _ _ hbefore =>
      cases before with
      | nil => exact ⟨'"', _, rfl, by decide⟩
      | cons w before =>
          refine ⟨w, _, rfl, IsSpace.ne (hgap hbefore w List.mem_cons_self) ?_⟩
          unfold IsSpace
          decide

theorem renders_head {lexicon : Lexicon} (h : Renders lexicon v text) :
    ∃ c tail, text = c :: tail ∧ 32 ≤ c.toNat := by
  cases h with
  | number h =>
      obtain ⟨d, digits, rfl, hd⟩ := RendersNumber.head h
      refine ⟨d, digits, rfl, ?_⟩
      rcases hd with rfl | ⟨hd, -⟩
      · decide
      · exact Nat.le_trans (by decide) (Char.le_def.mp hd)
  | _ => exact ⟨_, _, rfl, by decide⟩

/-! A text without long gaps, escapes and empty objects is read. -/

mutual

theorem parseValue_renders :
    Renders readable v text → ∀ (fuel : Nat) (rest : List Char) (type : Option ItemType)
      (key : Option (List Char)), 4 * text.length ≤ fuel →
      (∀ n, v = .number n → Follows rest) →
      parseValue fuel { Item.new with type := type, string := key } (text ++ rest) =
        some (treeOf key v, .text rest)
  | .string ⟨hbody, hall⟩, fuel + 1, rest, type, key, hfuel, hrest => by
      subst hbody
      rw [List.cons_append, List.append_assoc, List.singleton_append, parseValue_quote,
        plain_append fun hmem => (hall _ hmem).2.1 rfl, List.drop_append]
      simp [treeOf]
  | .number h, 0, rest, type, key, hfuel, hrest => by
      obtain ⟨d, digits, rfl, -⟩ := RendersNumber.head h
      simp at hfuel
  | .number h, fuel + 1, rest, type, key, hfuel, hrest => by
      rw [parseValue_number h (hrest _ rfl), treeOf]
  | .object hmembers, fuel + 2, rest, type, key, hfuel, hrest => by
      simp only [List.length_cons, List.length_append] at hfuel
      obtain ⟨child, value, hmember, hmore⟩ := parseMembers_renders hmembers fuel rest
        { Item.new with type := some .object, string := key } [] (by omega)
      obtain ⟨ch, tail, hhead, hch⟩ := members_head readable_whitespace hmembers ('}' :: rest)
      rw [hhead] at hmember
      rw [List.cons_append, List.append_assoc, List.singleton_append, hhead, parseValue_brace,
        treeOf]
      exact (parseObject_text hch).mpr ⟨child, value, hmember, hmore⟩

theorem member_renders :
    RendersMember readable m text → ∀ (fuel : Nat) (rest : List Char),
      4 * text.length ≤ fuel → Ends rest →
      member fuel (text ++ rest) = some (treeOf (some m.1) m.2, rest)
  | .intro .., 0, rest, hfuel, hrest => by simp at hfuel
  | @RendersMember.intro _ _ _ _ _ _ _ text after hbefore ⟨hname, hall⟩ hleft hright hvalue
      hafter, fuel + 1, rest, hfuel, hrest => by
      subst hname
      simp only [List.length_append, List.length_cons] at hfuel
      have hread := parseValue_renders hvalue fuel (after ++ rest) (some .string) (some m.1)
        (by omega) (fun _ _ => hrest.follows (readable_whitespace hafter))
      obtain ⟨c, tail, htext, hc⟩ := renders_head hvalue
      simp only [List.append_assoc, List.cons_append]
      rw [member, parseKey_quote hbefore, plain_append fun hmem => (hall _ hmem).2.1 rfl,
        List.drop_length_add_append]
      show parseMember (fuel + 1) _ (skip _) = _
      rw [List.drop_one, List.tail_cons, skip_gap hleft (by decide)]
      refine parseMember_colon.mpr ⟨after ++ rest, ?_, hrest.skip_gap hafter⟩
      rw [htext, List.cons_append, skip_gap hright hc, ← List.cons_append, ← htext]
      exact hread

theorem parseMembers_renders :
    RendersMembers readable members text → ∀ (fuel : Nat) (rest : List Char) (item : Item)
      (children : List Item), 4 * text.length < fuel →
      ∃ child value, member fuel (text ++ '}' :: rest) = some (child, value) ∧
        parseMembers fuel item (children ++ [child]) value =
          some ({ item with child := children ++ treesOf members }, .text rest)
  | .last hm, fuel, rest, item, children, hfuel => by
      refine ⟨_, _, member_renders hm _ _ (Nat.le_of_lt hfuel) (ends_brace rest), ?_⟩
      exact parseMembers_text.mpr ⟨fuel - 1, by omega, .inl ⟨rfl, rfl⟩⟩
  | @RendersMembers.more _ m _ _ more hm hmembers, fuel + 1, rest, item, children, hfuel => by
      simp only [List.length_append, List.length_cons] at hfuel
      have hfirst := member_renders hm (fuel + 1) _ (by omega) (ends_comma (more ++ '}' :: rest))
      obtain ⟨child, value, hmember, hmore⟩ := parseMembers_renders hmembers fuel rest item
        (children ++ [treeOf (some m.1) m.2]) (by omega)
      rw [List.append_assoc, List.cons_append]
      refine ⟨_, _, hfirst, ?_⟩
      refine parseMembers_text.mpr ⟨fuel, rfl, .inr ⟨_, child, value, rfl, hmember, ?_⟩⟩
      rw [hmore, List.append_assoc]
      rfl

end

/-! What the items keep while they are read. -/

theorem parseMembers_append {fuel : Nat} {item : Item} {children : List Item} {value : List Char}
    (h : parseMembers fuel item children value = some (item', .text after)) :
    ∃ more, item' = { item with child := children ++ more } := by
  induction fuel generalizing children value with
  | zero => cases h
  | succ fuel ih =>
      obtain ⟨n, hn, ⟨-, rfl⟩ | ⟨rest, child, value', -, -, hmore⟩⟩ := parseMembers_text.mp h
      · exact ⟨[], by rw [List.append_nil]⟩
      · obtain rfl : fuel = n := Nat.succ.inj hn
        obtain ⟨more, rfl⟩ := ih hmore
        exact ⟨child :: more, by rw [List.append_assoc]; rfl⟩

theorem parseObject_string {fuel : Nat} {item : Item} {value : List Char}
    (h : parseObject fuel item value = some (item', .text after)) :
    item'.string = item.string := by
  cases fuel with
  | zero => cases h
  | succ fuel =>
      match value with
      | [] => cases h
      | [first] =>
          rw [parseObject] at h
          split at h <;> cases h
      | first :: ch :: rest =>
          by_cases hfirst : first = '{'
          · subst hfirst
            by_cases hch : ch = '}'
            · subst hch
              cases h
              rfl
            · obtain ⟨child, value, -, hmembers⟩ := (parseObject_text hch).mp h
              obtain ⟨more, rfl⟩ := parseMembers_append hmembers
              rfl
          · rw [parseObject, if_pos hfirst] at h
            cases h

theorem parseNumber_string {value : List Char} (h : parseNumber item value = some (item', after)) :
    item'.string = item.string := by
  cases value with
  | nil => cases h
  | cons first rest =>
      obtain ⟨num, -, hitem⟩ := Option.bind_eq_some_iff.mp h
      cases hitem
      rfl

theorem parseValue_string {fuel : Nat} {item : Item} {value : List Char}
    (h : parseValue fuel item value = some (item', .text after)) :
    item'.string = item.string := by
  cases fuel with
  | zero => cases h
  | succ fuel =>
      cases value with
      | nil => cases h
      | cons ch rest =>
          rw [parseValue] at h
          split at h
          · cases h
          split at h
          · exact parseObject_string h
          split at h
          · obtain ⟨⟨item'', rest'⟩, hnumber, heq⟩ := Option.map_eq_some_iff.mp h
            cases heq
            exact parseNumber_string hnumber
          split at h
          · rename_i hquote
            subst hquote
            rw [parseString_quote] at h
            cases h
            rfl
          · cases h

theorem parseMember_string {fuel : Nat} {child : Item} {value : List Char}
    (h : parseMember fuel child value = some (item, value')) :
    item.string = child.valuestring := by
  cases fuel with
  | zero => cases h
  | succ fuel =>
      cases value with
      | nil => cases h
      | cons ch rest =>
          obtain ⟨⟨item', returned⟩, hvalue, hrest⟩ := Option.bind_eq_some_iff.mp h
          obtain ⟨value'', hskip, heq⟩ := Option.bind_eq_some_iff.mp hrest
          cases heq
          cases returned with
          | text rest => exact parseValue_string hvalue
          | _ => cases hskip

theorem treeOf_string (key : Option (List Char)) (v : Value) : (treeOf key v).string = key := by
  cases v <;> rw [treeOf]

/-- The first of the children that are read is the first of all. -/
theorem child_eq {children : List Item} {value : List Char}
    (h : parseMembers n item (children ++ [child]) value = some (item', .text after))
    (heq : item'.child = children ++ treesOf (m :: members)) : child = treeOf (some m.1) m.2 := by
  obtain ⟨more, rfl⟩ := parseMembers_append h
  rw [List.append_assoc] at heq
  have hcons := List.append_cancel_left heq
  rw [treesOf] at hcons
  exact (List.cons.inj hcons).1

/-! A text that is read right has no long gap, escape or empty object. -/

theorem before_of_member (h : Whitespace before) (hc : 32 ≤ c.toNat)
    (hmember : member fuel (before ++ c :: rest) = some p) :
    readable.gap before ∧ c = '"' := by
  by_cases hgap : readable.gap before
  · refine ⟨hgap, ?_⟩
    by_contra hquote
    rw [member, parseKey_none (RebuildByPython.skip_gap hgap hc rest) hquote] at hmember
    cases hmember
  · obtain ⟨w, others, hskip, hw, -⟩ := skip_whitespace h hgap (c :: rest)
    rw [member, parseKey_none hskip (IsSpace.ne hw not_isSpace_quote)] at hmember
    cases hmember

mutual

theorem renders_of_parseValue :
    Renders rfcLexicon v text → ∀ {fuel : Nat} {item : Item} {rest after : List Char}
      {key : Option (List Char)}, item.type ≠ some .object →
      (∀ n, v = .number n → Follows rest) →
      parseValue fuel item (text ++ rest) = some (treeOf key v, .text after) →
      Renders readable v text ∧ after = rest
  | _, 0, item, rest, after, key, htype, hrest, h => nomatch h
  | @Renders.string _ s body hbody, fuel + 1, item, rest, after, key, htype, hrest, h => by
      rw [List.cons_append, List.append_assoc, List.singleton_append, parseValue_quote, treeOf] at h
      obtain ⟨hitem, hafter⟩ := Prod.mk.inj (Option.some.inj h)
      have hplain : plain (body ++ '"' :: rest) = s :=
        Option.some.inj (congrArg Item.valuestring hitem)
      have hread := (plain_eq_iff hbody rest).mp hplain
      refine ⟨.string hread, ?_⟩
      rw [hplain, ← hread.1, List.drop_length_add_append] at hafter
      exact (Returned.text.inj hafter).symm
  | .number hnumber, fuel + 1, item, rest, after, key, htype, hrest, h => by
      rw [parseValue_number hnumber (hrest _ rfl)] at h
      exact ⟨.number hnumber, (Returned.text.inj (Prod.mk.inj (Option.some.inj h)).2).symm⟩
  | @Renders.emptyObject _ ws hws, fuel + 1, item, rest, after, key, htype, hrest, h => by
      rw [List.cons_append, List.append_assoc, List.singleton_append, parseValue_brace] at h
      cases fuel with
      | zero => cases h
      | succ fuel =>
          cases ws with
          | nil =>
              obtain ⟨hitem, -⟩ := Prod.mk.inj (Option.some.inj h)
              exact absurd (congrArg Item.type hitem) htype
          | cons w ws =>
              have hw : w ≠ '}' := by
                refine IsSpace.ne (hws w List.mem_cons_self) ?_
                unfold IsSpace
                decide
              obtain ⟨child, value, hmember, -⟩ := (parseObject_text hw).mp h
              exact absurd (before_of_member hws (by decide) hmember).2 (by decide)
  | .object hmembers, fuel + 1, item, rest, after, key, htype, hrest, h => by
      obtain ⟨ch, tail, hhead, hch⟩ := members_head rfcLexicon_whitespace hmembers ('}' :: rest)
      rw [List.cons_append, List.append_assoc, List.singleton_append, hhead, parseValue_brace] at h
      cases fuel with
      | zero => cases h
      | succ fuel =>
          obtain ⟨child, value, hmember, hmore⟩ := (parseObject_text hch).mp h
          rw [← hhead] at hmember
          have hmore' : parseMembers fuel _ ([] ++ [child]) value = _ := hmore
          obtain ⟨hread, rfl⟩ := renders_of_parseMembers hmembers hmember hmore'
            (by rw [treeOf]; rfl)
          exact ⟨.object hread, rfl⟩

theorem renders_of_member :
    RendersMember rfcLexicon m text → ∀ {fuel : Nat} {rest value : List Char}, Ends rest →
      Ends value → member fuel (text ++ rest) = some (treeOf (some m.1) m.2, value) →
      RendersMember readable m text ∧ value = rest
  | _, 0, rest, value, hrest, hends, h => by
      obtain ⟨p, -, hmember⟩ := Option.bind_eq_some_iff.mp h
      cases hmember
  | @RendersMember.intro _ _ _ _ left right _ text after hbefore hname hleft hright hvalue hafter,
      fuel + 1, rest, value, hrest, hends, h => by
      obtain ⟨c, tail, htext, hc⟩ := renders_head hvalue
      simp only [List.append_assoc, List.cons_append] at h
      obtain ⟨hbefore, -⟩ := before_of_member hbefore (by decide) h
      rw [member, parseKey_quote hbefore] at h
      replace h : parseMember (fuel + 1) _ (skip _) = _ := h
      have hstring := parseMember_string h
      rw [treeOf_string] at hstring
      have hplain := (Option.some.inj hstring).symm
      have hkey := (plain_eq_iff hname _).mp hplain
      rw [hplain, ← hkey.1, List.drop_length_add_append, List.drop_one, List.tail_cons] at h
      have hleft : readable.gap left := by
        by_contra hgap
        obtain ⟨w, others, hskip, hw, hothers⟩ := skip_whitespace hleft hgap
          (':' :: (right ++ (text ++ (after ++ rest))))
        rw [hskip, parseMember_whitespace hw hothers] at h
        cases h
      rw [skip_gap hleft (by decide)] at h
      obtain ⟨rest', hread, rfl⟩ := parseMember_colon.mp h
      have hright : readable.gap right := by
        by_contra hgap
        obtain ⟨w, others, hskip, hw, -⟩ := skip_whitespace hright hgap (text ++ (after ++ rest))
        rw [hskip] at hread
        exact parseValue_other (.inl hw) _ _ _ _ _ hread
      rw [htext, List.cons_append, skip_gap hright hc, ← List.cons_append, ← htext] at hread
      obtain ⟨hvalue, rfl⟩ := renders_of_parseValue hvalue (by exact fun h => nomatch h)
        (fun _ _ => hrest.follows hafter) hread
      have hafter : readable.gap after := by
        by_contra hgap
        obtain ⟨w, others, hskip, hw, -⟩ := skip_whitespace hafter hgap rest
        rw [hskip] at hends
        exact hends.not_isSpace hw
      exact ⟨.intro hbefore hkey hleft hright hvalue hafter, hrest.skip_gap hafter⟩

theorem renders_of_parseMembers :
    RendersMembers rfcLexicon members text → ∀ {fuel n : Nat} {rest after value : List Char}
      {item item' child : Item} {children : List Item},
      member fuel (text ++ '}' :: rest) = some (child, value) →
      parseMembers n item (children ++ [child]) value = some (item', .text after) →
      item'.child = children ++ treesOf members →
      RendersMembers readable members text ∧ after = rest
  | .last hm, fuel, n, rest, after, value, item, item', child, children, hmember, hmore, heq => by
      obtain rfl := child_eq hmore heq
      obtain ⟨hread, rfl⟩ := renders_of_member hm (ends_brace rest) (.of_parseMembers hmore) hmember
      obtain ⟨n', -, ⟨hrest, -⟩ | ⟨tail, child, value, hrest, -⟩⟩ := parseMembers_text.mp hmore
      · cases hrest
        exact ⟨.last hread, rfl⟩
      · cases hrest
  | .more hm hmembers, fuel, n, rest, after, value, item, item', child, children, hmember, hmore,
      heq => by
      obtain rfl := child_eq hmore heq
      rw [List.append_assoc, List.cons_append] at hmember
      obtain ⟨hread, rfl⟩ := renders_of_member hm (ends_comma _) (.of_parseMembers hmore) hmember
      obtain ⟨n', -, ⟨hrest, -⟩ | ⟨tail, child', value', hrest, hmember', hmore'⟩⟩ :=
        parseMembers_text.mp hmore
      · cases hrest
      · cases hrest
        obtain ⟨hreads, rfl⟩ := renders_of_parseMembers hmembers hmember' hmore'
          (by rw [heq, treesOf, List.append_assoc]; rfl)
        exact ⟨.more hread hreads, rfl⟩

end

/-- The parser builds the tree of an object exactly for the texts with at most one character
between two tokens, which is no blank, without escapes and without empty objects. -/
theorem parse_value_object {members : List (List Char × Value)} {text before rest : List Char}
    {fuel : Nat} (htext : Renders rfcLexicon (.object members) text) (hbefore : Whitespace before)
    (hfuel : fuelFor (before ++ (text ++ rest)) ≤ fuel) :
    parseValue fuel .new (skip (before ++ (text ++ rest))) =
        some (treeOf none (.object members), .text rest) ↔
      readable.gap before ∧ Renders readable (.object members) text := by
  obtain ⟨c, tail, hhead, hc⟩ := renders_head htext
  constructor
  · intro h
    have hgap : readable.gap before := by
      by_contra hgap
      obtain ⟨w, others, hskip, hw, -⟩ := skip_whitespace hbefore hgap (text ++ rest)
      rw [hskip] at h
      exact parseValue_other (.inl hw) _ _ _ _ _ h
    rw [hhead, List.cons_append, skip_gap hgap hc, ← List.cons_append, ← hhead] at h
    have htype : Item.new.type ≠ some .object := fun h => nomatch h
    exact ⟨hgap, (renders_of_parseValue htext htype (fun _ hv => nomatch hv) h).1⟩
  · rintro ⟨hgap, hread⟩
    rw [hhead, List.cons_append, skip_gap hgap hc, ← List.cons_append, ← hhead]
    simp only [fuelFor, List.length_append] at hfuel
    exact parseValue_renders hread _ _ none none (by omega) (fun _ h => nomatch h)

theorem parse_value_object_pair :
    parseValue 100 .new (skip ['\t', '{', '"', 'a', '"', ':', '"', 'b', '"', '}']) =
      some (treeOf none (.object [(['a'], .string ['b'])]), .text []) := by
  have ha : Unescaped 'a' := ⟨by decide, by decide, by decide⟩
  have hb : Unescaped 'b' := ⟨by decide, by decide, by decide⟩
  have htext (lexicon : Lexicon) (hgap : lexicon.gap []) (ha : lexicon.string ['a'] ['a'])
      (hb : lexicon.string ['b'] ['b']) :
      Renders lexicon (.object [(['a'], .string ['b'])])
        ['{', '"', 'a', '"', ':', '"', 'b', '"', '}'] :=
    .object (.last (.intro hgap ha hgap hgap (.string hb) hgap))
  have hrfc := htext rfcLexicon (fun _ h => nomatch h) (.cons (.unescaped ha) .nil)
    (.cons (.unescaped hb) .nil)
  have hreadable := htext readable (.inl rfl) ⟨rfl, List.forall_mem_singleton.mpr ha⟩
    ⟨rfl, List.forall_mem_singleton.mpr hb⟩
  have htab : IsSpace '\t' := .inr (.inl rfl)
  have hbefore : Whitespace ['\t'] := List.forall_mem_singleton.mpr htab
  have hfuel : fuelFor (['\t'] ++ (['{', '"', 'a', '"', ':', '"', 'b', '"', '}'] ++ [])) ≤ 100 := by
    decide
  exact (parse_value_object hrfc hbefore hfuel).mpr ⟨.inr ⟨'\t', rfl, htab, by decide⟩, hreadable⟩

/-- A blank behind the brace, and the parser exits. -/
theorem blank_not_skipped :
    Renders rfcLexicon (.object [(['a'], .string ['b'])])
        ['{', ' ', '"', 'a', '"', ':', '"', 'b', '"', '}'] ∧
      ¬∃ fuel, parseValue fuel .new
          (skip ['{', ' ', '"', 'a', '"', ':', '"', 'b', '"', '}']) =
        some (treeOf none (.object [(['a'], .string ['b'])]), .text []) := by
  have ha : rfcLexicon.string ['a'] ['a'] :=
    RendersChars.cons (.unescaped ⟨by decide, by decide, by decide⟩) .nil
  have hb : rfcLexicon.string ['b'] ['b'] :=
    RendersChars.cons (.unescaped ⟨by decide, by decide, by decide⟩) .nil
  have hblank : rfcLexicon.gap [' '] := List.forall_mem_singleton.mpr (.inl rfl)
  have hnil : rfcLexicon.gap [] := fun _ h => nomatch h
  refine ⟨.object (.last (.intro hblank ha hnil hnil (.string hb) hnil)), ?_⟩
  rintro ⟨fuel | fuel | fuel, h⟩
  · cases h
  · cases h
  · have hchar : ' ' ≠ '}' := by decide
    have hobject : parseObject (fuel + 1) .new
        ('{' :: ' ' :: ['"', 'a', '"', ':', '"', 'b', '"', '}']) = _ := h
    obtain ⟨child, value, hmember, -⟩ := (parseObject_text hchar).mp hobject
    cases hmember

end RebuildByPython

end RebuildTheWheel.CJson
