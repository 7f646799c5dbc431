import RebuildTheWheel.CJson.ParseTokens

namespace RebuildTheWheel.CJson

open RebuildTheWheel.Data
open RebuildTheWheel.Data.Ascii
open RebuildTheWheel.Data.Json (Lexicon Renders RendersElements RendersMembers RendersText)

/-! The parser reads a text of a grammar token by token, whatever the tokens stand for. -/

section

variable (number : ν → Binary64) (string : σ → Parse Bytes)

mutual

/-- The item for a value whose numbers and strings are read by `number` and `string`. -/
def readItem : Json ν σ → Parse Item
  | .null => .ok (.node { type := ⟨.null, false, false⟩ } .null .null)
  | .false => .ok (.node { type := ⟨.false, false, false⟩ } .null .null)
  | .true => .ok (.node { type := ⟨.true, false, false⟩, valueint := 1 } .null .null)
  | .number n =>
      .ok (.node { type := ⟨.number, false, false⟩, valueint := (number n).toInt32,
                   valuedouble := number n } .null .null)
  | .string s => (string s).map fun out =>
      .node { type := ⟨.string, false, false⟩, valuestring := some out } .null .null
  | .array elements => (readElements elements).map fun items =>
      .node { type := ⟨.array, false, false⟩ } items .null
  | .object members => (readMembers members).map fun items =>
      .node { type := ⟨.object, false, false⟩ } items .null

def readElements : List (Json ν σ) → Parse Item
  | [] => .ok .null
  | v :: elements => do
      let child ← readItem v
      let items ← readElements elements
      .ok (child.setNext items)

def readMembers : List (σ × Json ν σ) → Parse Item
  | [] => .ok .null
  | (key, v) :: members => do
      let key ← string key
      let child ← readItem v
      let items ← readMembers members
      .ok ((child.setString key).setNext items)

end

end

structure Reads (number : ν → Binary64) (string : σ → Parse Bytes) (lexicon : Lexicon ν σ) : Prop where
  number : ∀ {n text rest}, lexicon.number n text → Follows rest →
    parseNumber (text ++ rest) = (number n, rest)
  number_head : ∀ {n text}, lexicon.number n text →
    ∃ d digits, text = d :: digits ∧ (d = minus ∨ isDigit d = true)
  string : ∀ {s text rest}, lexicon.string s text →
    parseString (text ++ rest) = (string s).map (·, rest)
  string_head : ∀ {s text}, lexicon.string s text → ∃ body, text = quote :: body
  gap : ∀ {text}, lexicon.gap text → ∀ b ∈ text, b ≤ 32

variable {number : ν → Binary64} {string : σ → Parse Bytes}

theorem skip_gap (h : ∀ b ∈ text, b ≤ (32 : UInt8)) (rest : Bytes) :
    skip (text ++ rest) = skip rest := by
  induction text with
  | nil => rfl
  | cons b text ih =>
      rw [List.cons_append, skip, if_pos (h b List.mem_cons_self)]
      exact ih fun b' hb' => h b' (List.mem_cons_of_mem _ hb')

theorem follows_gap {text : Bytes} (h : ∀ b ∈ text, b ≤ (32 : UInt8)) (hrest : Follows rest) :
    Follows (text ++ rest) := by
  cases text with
  | nil => exact hrest
  | cons c text =>
      intro b hb
      obtain rfl := Option.some.inj hb
      exact Or.inl (h c List.mem_cons_self)

theorem skip_head {c : UInt8} {text : Bytes} (htext : text = c :: body) (hc : 32 < c)
    (rest : Bytes) : skip (text ++ rest) = text ++ rest := by
  rw [htext, List.cons_append, skip_of_lt hc]

theorem renders_head {lexicon : Lexicon ν σ} (hlex : Reads number string lexicon) (h : Renders lexicon v text) :
    ∃ c body, text = c :: body ∧ 32 < c ∧ c ≠ rbracket := by
  cases h with
  | number h =>
      obtain ⟨d, digits, rfl, hd⟩ := hlex.number_head h
      exact ⟨d, digits, rfl, numberByte_printable d hd⟩
  | string h =>
      obtain ⟨body, rfl⟩ := hlex.string_head h
      exact ⟨quote, body, rfl, by decide⟩
  | _ => exact ⟨_, _, rfl, by decide⟩

/-! What each function does at the first byte of a text. -/

theorem parseValue_quote (fuel : Nat) (rest : Bytes) :
    parseValue (fuel + 1) (quote :: rest) = (parseString (quote :: rest)).map fun p =>
      (.node { type := ⟨.string, false, false⟩, valuestring := some p.1 } .null .null, p.2) := by
  rw [parseValue]
  cases parseString (quote :: rest) <;> rfl

theorem parseValue_number (fuel : Nat) {c : UInt8} (hc : c = minus ∨ isDigit c = true)
    (rest : Bytes) :
    parseValue (fuel + 1) (c :: rest) =
      let (n, num) := parseNumber (c :: rest)
      .ok (.node { type := ⟨.number, false, false⟩, valueint := n.toInt32, valuedouble := n }
        .null .null, num) := by
  obtain ⟨hn, hf, ht, hquote⟩ := numberByte_other c hc
  have hnumber : (decide (peek (c :: rest) = minus) || isDigit (peek (c :: rest))) = true := by
    rcases hc with rfl | hc
    · rfl
    · rw [peek_cons, hc, Bool.or_true]
  rw [parseValue, if_neg, if_neg, if_neg, if_neg, if_pos hnumber]
  · exact hquote
  · simp [trueText, ht.symm]
  · simp [falseText, hf.symm]
  · simp [nullText, hn.symm]

theorem parseValue_lbracket (fuel : Nat) (rest : Bytes) :
    parseValue (fuel + 1) (lbracket :: rest) = parseArray fuel (lbracket :: rest) := by
  rw [parseValue]
  rfl

theorem parseValue_lbrace (fuel : Nat) (rest : Bytes) :
    parseValue (fuel + 1) (lbrace :: rest) = parseObject fuel (lbrace :: rest) := by
  rw [parseValue]
  rfl

theorem parseElements_comma (fuel : Nat) (rest : Bytes) :
    parseElements (fuel + 1) (comma :: rest) = elementsFrom fuel rest := by
  rw [parseElements_eq]
  rfl

theorem parseMembers_comma (fuel : Nat) (rest : Bytes) :
    parseMembers (fuel + 1) (comma :: rest) = membersFrom fuel rest := by
  rw [parseMembers_eq]
  rfl

theorem parseElements_end (fuel : Nat) {c : UInt8} (hc : c ≠ comma) (rest : Bytes) :
    parseElements (fuel + 1) (c :: rest) = .ok (.null, c :: rest) := by
  rw [parseElements_eq, peek_cons, if_neg hc]

theorem parseMembers_end (fuel : Nat) {c : UInt8} (hc : c ≠ comma) (rest : Bytes) :
    parseMembers (fuel + 1) (c :: rest) = .ok (.null, c :: rest) := by
  rw [parseMembers_eq, peek_cons, if_neg hc]

theorem parseArray_empty (fuel : Nat) {body rest : Bytes} (hbody : skip body = rbracket :: rest) :
    parseArray (fuel + 1) (lbracket :: body) =
      .ok (.node { type := ⟨.array, false, false⟩ } .null .null, rest) := by
  rw [parseArray_eq, List.tail_cons, hbody]
  rfl

theorem parseObject_empty (fuel : Nat) {body rest : Bytes} (hbody : skip body = rbrace :: rest) :
    parseObject (fuel + 1) (lbrace :: body) =
      .ok (.node { type := ⟨.object, false, false⟩ } .null .null, rest) := by
  rw [parseObject_eq, List.tail_cons, hbody]
  rfl

theorem parseArray_elements {body rest : Bytes} {items : Parse Item} (hbody : peek (skip body) ≠ rbracket)
    (h : elementsFrom fuel body = items.map (·, rbracket :: rest)) :
    parseArray (fuel + 1) (lbracket :: body) =
      items.map fun items => (.node { type := ⟨.array, false, false⟩ } items .null, rest) := by
  rw [parseArray_eq, List.tail_cons, if_neg hbody, h]
  cases items <;> rfl

theorem parseObject_members {body rest : Bytes} {items : Parse Item} (hbody : peek (skip body) ≠ rbrace)
    (h : membersFrom fuel body = items.map (·, rbrace :: rest)) :
    parseObject (fuel + 1) (lbrace :: body) =
      items.map fun items => (.node { type := ⟨.object, false, false⟩ } items .null, rest) := by
  rw [parseObject_eq, List.tail_cons, if_neg hbody, h]
  cases items <;> rfl

theorem follows_comma (rest : Bytes) : Follows (comma :: rest) := by
  intro b hb
  exact Or.inr (Or.inl (Option.some.inj hb).symm)

theorem follows_rbracket (rest : Bytes) : Follows (rbracket :: rest) := by
  intro b hb
  exact Or.inr (Or.inr (Or.inl (Option.some.inj hb).symm))

theorem follows_rbrace (rest : Bytes) : Follows (rbrace :: rest) := by
  intro b hb
  exact Or.inr (Or.inr (Or.inr (Option.some.inj hb).symm))

theorem elementsFrom_eq {child items : Parse Item}
    (hvalue : parseValue fuel (skip value) = child.map (·, behind))
    (hrest : parseElements fuel (skip behind) = items.map (·, rest)) :
    elementsFrom fuel value = (do
      let child ← child
      let items ← items
      .ok (child.setNext items) : Parse Item).map (·, rest) := by
  rw [elementsFrom, hvalue]
  cases child with
  | error e => rfl
  | ok child =>
      change (parseElements fuel (skip behind) >>= _) = _
      rw [hrest]
      cases items <;> rfl

theorem membersFrom_eq {key : Parse Bytes} {child items : Parse Item}
    (hkey : parseString (skip value) = key.map (·, afterKey))
    (hcolon : skip afterKey = colon :: afterColon)
    (hvalue : parseValue fuel (skip afterColon) = child.map (·, behind))
    (hrest : parseMembers fuel (skip behind) = items.map (·, rest)) :
    membersFrom fuel value = (do
      let key ← key
      let child ← child
      let items ← items
      .ok ((child.setString key).setNext items) : Parse Item).map (·, rest) := by
  rw [membersFrom, hkey]
  cases key with
  | error e => rfl
  | ok key =>
      change (if peek (skip afterKey) ≠ colon then _ else _) = _
      rw [hcolon, peek_cons, if_neg (not_not_intro rfl)]
      change (parseValue fuel (skip afterColon) >>= _) = _
      rw [hvalue]
      cases child with
      | error e => rfl
      | ok child =>
          change (parseMembers fuel (skip behind) >>= _) = _
          rw [hrest]
          cases items <;> rfl

section

variable {lexicon : Lexicon ν σ} (hlex : Reads number string lexicon)

include hlex

theorem elements_head (h : RendersElements lexicon elements body) (rest : Bytes) :
    peek (skip (body ++ rest)) ≠ rbracket := by
  cases h with
  | last hbefore hvalue hafter =>
      obtain ⟨c, text, rfl, hc, hne⟩ := renders_head hlex hvalue
      rw [List.append_assoc, skip_gap (hlex.gap hbefore), List.cons_append, List.cons_append,
        skip_of_lt hc]
      exact hne
  | more hbefore hvalue hafter _ =>
      obtain ⟨c, text, rfl, hc, hne⟩ := renders_head hlex hvalue
      rw [List.append_assoc, skip_gap (hlex.gap hbefore), List.cons_append, List.cons_append,
        skip_of_lt hc]
      exact hne

theorem members_head (h : RendersMembers lexicon members body) (rest : Bytes) :
    peek (skip (body ++ rest)) ≠ rbrace := by
  cases h with
  | last hbefore hkey =>
      obtain ⟨text, rfl⟩ := hlex.string_head hkey
      rw [List.append_assoc, skip_gap (hlex.gap hbefore), List.cons_append, List.cons_append,
        skip_of_lt (by decide), peek_cons]
      decide
  | more hbefore hkey =>
      obtain ⟨text, rfl⟩ := hlex.string_head hkey
      rw [List.append_assoc, skip_gap (hlex.gap hbefore), List.cons_append, List.cons_append,
        skip_of_lt (by decide), peek_cons]
      decide

mutual

theorem parseValue_renders :
    Renders lexicon v text → ∀ {fuel : Nat} {rest : Bytes}, 2 * text.length ≤ fuel →
      Follows rest → parseValue fuel (text ++ rest) = (readItem number string v).map (·, rest)
  | .null, fuel + 1, rest, hfuel, hrest => rfl
  | .false, fuel + 1, rest, hfuel, hrest => rfl
  | .true, fuel + 1, rest, hfuel, hrest => rfl
  | .number h, 0, rest, hfuel, hrest => by
      obtain ⟨d, digits, rfl, _⟩ := hlex.number_head h
      simp at hfuel
  | .number h, fuel + 1, rest, hfuel, hrest => by
      have hread := hlex.number h hrest
      obtain ⟨d, digits, rfl, hd⟩ := hlex.number_head h
      rw [List.cons_append] at hread ⊢
      rw [parseValue_number fuel hd, hread]
      rfl
  | .string h, 0, rest, hfuel, hrest => by
      obtain ⟨body, rfl⟩ := hlex.string_head h
      simp at hfuel
  | .string h, fuel + 1, rest, hfuel, hrest => by
      have hread : parseString (_ ++ rest) = _ := hlex.string h
      obtain ⟨body, rfl⟩ := hlex.string_head h
      rw [List.cons_append] at hread ⊢
      rw [parseValue_quote, hread, readItem, except_map_map, except_map_map]
  | .emptyArray hws, fuel + 2, rest, hfuel, hrest => by
      rw [List.cons_append, List.append_assoc, parseValue_lbracket]
      apply parseArray_empty
      rw [skip_gap (hlex.gap hws)]
      rfl
  | .array helements, fuel + 2, rest, hfuel, hrest => by
      rw [List.cons_append, List.append_assoc, parseValue_lbracket]
      rw [readItem, except_map_map]
      apply parseArray_elements
      · exact elements_head hlex helements _
      · apply elementsFrom_renders helements
        simp at hfuel
        omega
  | .emptyObject hws, fuel + 2, rest, hfuel, hrest => by
      rw [List.cons_append, List.append_assoc, parseValue_lbrace]
      apply parseObject_empty
      rw [skip_gap (hlex.gap hws)]
      rfl
  | .object hmembers, fuel + 2, rest, hfuel, hrest => by
      rw [List.cons_append, List.append_assoc, parseValue_lbrace]
      rw [readItem, except_map_map]
      apply parseObject_members
      · exact members_head hlex hmembers _
      · apply membersFrom_renders hmembers
        simp at hfuel
        omega

theorem elementsFrom_renders :
    RendersElements lexicon elements text → ∀ {fuel : Nat} {rest : Bytes},
      2 * text.length < fuel →
      elementsFrom fuel (text ++ rbracket :: rest) =
        (readElements number string elements).map (·, rbracket :: rest)
  | .last hbefore hvalue hafter, fuel + 1, rest, hfuel => by
      obtain ⟨c, body, htext, hc, _⟩ := renders_head hlex hvalue
      simp only [List.append_assoc, List.length_append] at hfuel ⊢
      apply elementsFrom_eq
      · rw [skip_gap (hlex.gap hbefore), skip_head htext hc]
        exact parseValue_renders hvalue (by omega)
          (follows_gap (hlex.gap hafter) (follows_rbracket rest))
      · rw [skip_gap (hlex.gap hafter), skip_of_lt (by decide)]
        exact parseElements_end _ (by decide) _
  | .more hbefore hvalue hafter helements, fuel + 1, rest, hfuel => by
      obtain ⟨c, body, htext, hc, _⟩ := renders_head hlex hvalue
      simp only [List.append_assoc, List.length_append, List.cons_append,
        List.length_cons] at hfuel ⊢
      apply elementsFrom_eq
      · rw [skip_gap (hlex.gap hbefore), skip_head htext hc]
        exact parseValue_renders hvalue (by omega)
          (follows_gap (hlex.gap hafter) (follows_comma _))
      · rw [skip_gap (hlex.gap hafter), skip_of_lt (by decide), parseElements_comma]
        exact elementsFrom_renders helements (by omega)

theorem membersFrom_renders :
    RendersMembers lexicon members text → ∀ {fuel : Nat} {rest : Bytes},
      2 * text.length < fuel →
      membersFrom fuel (text ++ rbrace :: rest) =
        (readMembers number string members).map (·, rbrace :: rest)
  | .last hbefore hkey hleft hright hvalue hafter, fuel + 1, rest, hfuel => by
      obtain ⟨c, body, htext, hc, _⟩ := renders_head hlex hvalue
      obtain ⟨name, hname⟩ := hlex.string_head hkey
      simp only [List.append_assoc, List.length_append, List.cons_append,
        List.length_cons] at hfuel ⊢
      apply membersFrom_eq
      · rw [skip_gap (hlex.gap hbefore), skip_head hname (by decide)]
        exact hlex.string hkey
      · rw [skip_gap (hlex.gap hleft), skip_of_lt (by decide)]
      · rw [skip_gap (hlex.gap hright), skip_head htext hc]
        exact parseValue_renders hvalue (by omega)
          (follows_gap (hlex.gap hafter) (follows_rbrace rest))
      · rw [skip_gap (hlex.gap hafter), skip_of_lt (by decide)]
        exact parseMembers_end _ (by decide) _
  | .more hbefore hkey hleft hright hvalue hafter hmembers, fuel + 1, rest, hfuel => by
      obtain ⟨c, body, htext, hc, _⟩ := renders_head hlex hvalue
      obtain ⟨name, hname⟩ := hlex.string_head hkey
      simp only [List.append_assoc, List.length_append, List.cons_append,
        List.length_cons] at hfuel ⊢
      apply membersFrom_eq
      · rw [skip_gap (hlex.gap hbefore), skip_head hname (by decide)]
        exact hlex.string hkey
      · rw [skip_gap (hlex.gap hleft), skip_of_lt (by decide)]
      · rw [skip_gap (hlex.gap hright), skip_head htext hc]
        exact parseValue_renders hvalue (by omega)
          (follows_gap (hlex.gap hafter) (follows_comma _))
      · rw [skip_gap (hlex.gap hafter), skip_of_lt (by decide), parseMembers_comma]
        exact membersFrom_renders hmembers (by omega)

end

theorem parseWithOpts_renders (h : RendersText lexicon v text) :
    parseWithOpts text true = (readItem number string v).map (·, []) := by
  cases h with
  | @intro before body after hbefore hvalue hafter =>
      obtain ⟨c, _, hbody, hc, _⟩ := renders_head hlex hvalue
      have hskip : skip (before ++ (body ++ after)) = body ++ after := by
        rw [skip_gap (hlex.gap hbefore), skip_head hbody hc]
      have hend : skip after = [] := by
        simpa [skip] using skip_gap (hlex.gap hafter) []
      have hfollows : Follows after := by
        have hnil : Follows [] := by simp [Follows]
        simpa using follows_gap (hlex.gap hafter) hnil
      have hfuel : 2 * body.length ≤ fuelFor (before ++ (body ++ after)) := by
        simp only [fuelFor, List.length_append]
        omega
      have hread := parseValue_renders hlex hvalue hfuel hfollows
      rw [parseWithOpts, hskip, hread]
      cases readItem number string v with
      | error e => rfl
      | ok item =>
          change (if peek (skip after) ≠ 0 then .error (.failed (skip after)) else
            .ok (item, skip after) : Parse (Item × Bytes)) = _
          rw [hend]
          rfl

end

end RebuildTheWheel.CJson
