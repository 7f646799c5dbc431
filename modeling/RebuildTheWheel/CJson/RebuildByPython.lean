import Mathlib.Data.List.TakeWhile
import RebuildTheWheel.Data.Binary64
import RebuildTheWheel.Data.JsonText

namespace RebuildTheWheel.CJson

open Data Data.JsonText

/-! The parser of `rebuild_by_python`. A string is the list of its characters. -/

namespace RebuildByPython

inductive ItemType where
  | object
  | string
  | number

/-- The class `cJSON`: the children are the items that `child` and `next` link, in order. -/
structure Item where
  type : Option ItemType
  valuestring : Option (List Char)
  valuedouble : Option Binary64
  string : Option (List Char)
  child : List Item

def Item.new : Item where
  type := none
  valuestring := none
  valuedouble := none
  string := none
  child := []

/-- What a parsing function returns: the rest of the text, or a value that is no string. -/
inductive Returned where
  | text (rest : List Char)
  | zero
  | none

/-! A function has no result when it raises an exception or exits. -/

/-- The loop of `skip` over the characters, with `index=+1` in it. -/
def skipIndex : List Char → Nat → Nat
  | [], index => index
  | i :: rest, index => if i.toNat < 32 then skipIndex rest 1 else index

def skip (value : List Char) : List Char := value.drop (skipIndex value 0)

/-- `skip` of what a parsing function returned. -/
def skipReturned : Returned → Option (List Char)
  | .text rest => some (skip rest)
  | .zero => none
  | .none => none

def digitsOnly (s : List Char) : Bool := s.all Char.isDigit

/-- `float` of a text of digits and points. -/
def float (s : List Char) : Option Binary64 :=
  match s.splitOn '.' with
  | [digits] =>
      if digits ≠ [] ∧ digitsOnly digits then some (Binary64.round (JsonText.value digits)) else none
  | [digits, fraction] =>
      if digits ++ fraction ≠ [] ∧ digitsOnly (digits ++ fraction) then
        some (Binary64.round (JsonText.value (digits ++ fraction) / 10 ^ fraction.length))
      else
        none
  | _ => none

/-- The loop of `parse_number` over the characters. -/
def numberIndex : List Char → Nat → Nat
  | [], index => index
  | i :: rest, index =>
      if ('0' ≤ i ∧ i ≤ '9') ∨ i = '.' then numberIndex rest (index + 1) else index

def parseNumber (c : Item) : List Char → Option (Item × List Char)
  | [] => none
  | first :: rest => do
      let value := first :: rest
      let index := numberIndex rest 0
      let num ← (if first = '-' then
          (float ((value.drop 1).take index)).map Binary64.neg
        else
          float (value.take (index + 1)))
      return ({ c with valuedouble := some num, type := some .number }, value.drop (index + 1))

/-- The loop of `parse_string` over the characters. -/
def stringIndex : List Char → Nat → Nat
  | [], index => index
  | i :: rest, index => if i ≠ '"' then stringIndex rest (index + 1) else index

def parseString (c : Item) : List Char → Option (Item × List Char)
  | [] => none
  | first :: rest =>
      if first ≠ '"' then
        none
      else
        let value := first :: rest
        let index := stringIndex rest 0
        some ({ c with valuestring := some ((value.drop 1).take index), type := some .string },
          value.drop (index + 2))

/-- `skip(parse_string(child,skip(value)))`, for a new child. -/
def parseKey (value : List Char) : Option (Item × List Char) := do
  let (child, rest) ← parseString .new (skip value)
  return (child, skip rest)

mutual

def parseValue : Nat → Item → List Char → Option (Item × Returned)
  | 0, _, _ => none
  | _ + 1, _, [] => none
  | fuel + 1, c, ch :: rest =>
      if ch = '[' then
        some (c, .none)
      else if ch = '{' then
        parseObject fuel c (ch :: rest)
      else if ch = '-' ∨ '0' ≤ ch ∧ ch ≤ '9' then
        (parseNumber c (ch :: rest)).map fun (c, rest) => (c, .text rest)
      else if ch = '"' then
        (parseString c (ch :: rest)).map fun (c, rest) => (c, .text rest)
      else
        some (c, .none)

/-- From the assignment of the key to the `skip` behind the value. -/
def parseMember : Nat → Item → List Char → Option (Item × List Char)
  | 0, _, _ => none
  | _ + 1, _, [] => none
  | fuel + 1, child, ch :: rest => do
      let child := { child with string := child.valuestring, valuestring := none }
      let value := if ch = ':' then rest else ch :: rest
      let (child, returned) ← parseValue fuel child (skip value)
      let value ← skipReturned returned
      return (child, value)

def parseObject : Nat → Item → List Char → Option (Item × Returned)
  | 0, _, _ => none
  | _ + 1, _, [] => none
  | fuel + 1, item, first :: value =>
      if first ≠ '{' then
        none
      else
        match value with
        | [] => none
        | ch :: rest =>
            if ch = '}' then
              some (item, .text rest)
            else do
              let item := { item with type := some .object }
              let (child, value) ← parseKey (ch :: rest)
              let (child, value) ← parseMember fuel child value
              if value = [] then
                return ({ item with child := [child] }, .zero)
              else
                parseMembers fuel item [child] value

/-- The loop of `parse_object`, with the children so far. -/
def parseMembers : Nat → Item → List Item → List Char → Option (Item × Returned)
  | 0, _, _, _ => none
  | _ + 1, _, _, [] => none
  | fuel + 1, item, children, ch :: rest =>
      if ch = ',' then do
        let (child, value) ← parseKey rest
        if value = [] then
          return ({ item with child := children ++ [child] }, .zero)
        else
          let (child, value) ← parseMember fuel child value
          if value = [] then
            return ({ item with child := children ++ [child] }, .zero)
          else
            parseMembers fuel item (children ++ [child]) value
      else if ch = '}' then
        some ({ item with child := children }, .text rest)
      else
        some ({ item with child := children }, .none)

end

/-- The depth of the recursion that a text can need. -/
def fuelFor (text : List Char) : Nat := 4 * text.length + 4

/-! The tree that stands for a value. -/

/-- The double that Python reads for a number. -/
def double (n : Number) : Binary64 :=
  if n.negative then (Binary64.round n.magnitude).neg else Binary64.round n.magnitude

mutual

def treeOf (key : Option (List Char)) : Value → Item
  | .string s => { Item.new with type := some .string, valuestring := some s, string := key }
  | .number n => { Item.new with type := some .number, valuedouble := some (double n), string := key }
  | .object members =>
      { Item.new with type := some .object, string := key, child := treesOf members }

def treesOf : List (List Char × Value) → List Item
  | [] => []
  | (key, v) :: members => treeOf (some key) v :: treesOf members

end

/-! The texts that the parser reads: a gap is at most one character, which is no blank, and
no object is empty. -/

def readable : Lexicon where
  string s body := body = s ∧ ∀ c ∈ s, Unescaped c
  gap text := text = [] ∨ ∃ c, text = [c] ∧ IsSpace c ∧ c ≠ ' '
  emptyGap _ := False

theorem skipIndex_one : ∀ value : List Char, skipIndex value 1 = 1
  | [] => rfl
  | i :: rest => by
      rw [skipIndex]
      split
      · exact skipIndex_one rest
      · rfl

theorem skip_of_le {c : Char} (hc : 32 ≤ c.toNat) (rest : List Char) :
    skip (c :: rest) = c :: rest := by
  rw [skip, skipIndex, if_neg (Nat.not_lt_of_le hc)]
  rfl

theorem skip_of_lt {c : Char} (hc : c.toNat < 32) (rest : List Char) : skip (c :: rest) = rest := by
  rw [skip, skipIndex, if_pos hc, skipIndex_one]
  rfl

theorem IsSpace.cases {c : Char} (h : IsSpace c) : c = ' ' ∨ c.toNat < 32 := by
  rcases h with rfl | rfl | rfl | rfl
  · exact .inl rfl
  all_goals exact .inr (by decide)

theorem IsSpace.ne {c d : Char} (h : IsSpace c) (hd : ¬IsSpace d) : c ≠ d := fun heq => hd (heq ▸ h)

theorem skip_gap {text : List Char} (h : readable.gap text) {c : Char} (hc : 32 ≤ c.toNat)
    (rest : List Char) : skip (text ++ c :: rest) = c :: rest := by
  rcases h with rfl | ⟨w, rfl, hw, hne⟩
  · exact skip_of_le hc rest
  · exact skip_of_lt ((IsSpace.cases hw).resolve_left hne) _

/-- A gap that is too long leaves white space behind. -/
theorem skip_whitespace {text : List Char} (h : Whitespace text) (hgap : ¬readable.gap text)
    (rest : List Char) :
    ∃ w others, skip (text ++ rest) = w :: (others ++ rest) ∧ IsSpace w ∧ Whitespace others := by
  cases text with
  | nil => exact absurd (.inl rfl) hgap
  | cons w others =>
      have hw := h w List.mem_cons_self
      have hothers : Whitespace others := fun c hc => h c (List.mem_cons_of_mem w hc)
      rcases IsSpace.cases hw with rfl | hlt
      · exact ⟨' ', others, skip_of_le (by decide) _, hw, hothers⟩
      · rw [List.cons_append, skip_of_lt hlt]
        cases others with
        | nil =>
            refine absurd (.inr ⟨w, rfl, hw, ?_⟩) hgap
            rintro rfl
            exact absurd hlt (by decide)
        | cons w' others =>
            exact ⟨w', others, rfl, hothers w' List.mem_cons_self,
              fun c hc => hothers c (List.mem_cons_of_mem w' hc)⟩

/-! Strings. -/

def plain (rest : List Char) : List Char := rest.takeWhile (· ≠ '"')

theorem stringIndex_eq : ∀ (rest : List Char) (n : Nat), stringIndex rest n = n + (plain rest).length
  | [], _ => rfl
  | i :: rest, n => by
      rw [stringIndex, plain]
      by_cases hi : i ≠ '"'
      · rw [if_pos hi, stringIndex_eq rest, List.takeWhile_cons_of_pos (by simpa using hi), plain,
          List.length_cons]
        omega
      · rw [if_neg hi, List.takeWhile_cons_of_neg (by simpa using hi)]
        rfl

theorem parseString_quote (c : Item) (rest : List Char) :
    parseString c ('"' :: rest) =
      some ({ c with valuestring := some (plain rest), type := some .string },
        rest.drop ((plain rest).length + 1)) := by
  have htake : rest.take (plain rest).length = plain rest :=
    (List.prefix_iff_eq_take.mp (List.takeWhile_prefix _)).symm
  rw [parseString, if_neg (not_not.mpr rfl), stringIndex_eq]
  simp only [Nat.zero_add, List.drop_succ_cons, List.drop_zero, htake]

theorem plain_append {body : List Char} (h : '"' ∉ body) (rest : List Char) :
    plain (body ++ '"' :: rest) = body := by
  rw [plain, List.takeWhile_append_of_pos, List.takeWhile_cons_of_neg (by simp), List.append_nil]
  intro c hc
  exact decide_eq_true fun heq => h (heq ▸ hc)

theorem quote_notMem_plain (rest : List Char) : '"' ∉ plain rest := by
  intro hmem
  have := List.mem_takeWhile_imp hmem
  simp at this

/-- The parser reads a string right exactly when it has no escapes. -/
theorem plain_eq_iff {chars body : List Char} (h : RendersChars chars body) (rest : List Char) :
    plain (body ++ '"' :: rest) = chars ↔ readable.string chars body := by
  constructor
  · intro heq
    have hquote : '"' ∉ body := by
      intro hmem
      have hmem' := h.quote_mem hmem
      rw [← heq] at hmem'
      exact quote_notMem_plain _ hmem'
    rw [plain_append hquote] at heq
    exact h.eq_of_length_le.2 (Nat.le_of_eq (congrArg List.length heq))
  · rintro ⟨rfl, hall⟩
    exact plain_append (fun hmem => (hall _ hmem).2.1 rfl) rest

/-! Numbers. -/

/-- What may stand behind a number. -/
def Follows (rest : List Char) : Prop := ∀ c ∈ rest.head?, c.isDigit = false ∧ c ≠ '.'

theorem isDigit_iff {c : Char} : c.isDigit = true ↔ '0' ≤ c ∧ c ≤ '9' := by
  rw [Char.isDigit_iff_toNat]
  rfl

theorem numberIndex_append {text rest : List Char} (htext : ∀ c ∈ text, c.isDigit = true ∨ c = '.')
    (hrest : Follows rest) (n : Nat) : numberIndex (text ++ rest) n = n + text.length := by
  induction text generalizing n with
  | nil =>
      cases rest with
      | nil => rfl
      | cons c rest =>
          obtain ⟨hdigit, hpoint⟩ := hrest c rfl
          rw [List.nil_append, numberIndex, if_neg]
          · rfl
          · rintro (hc | hc)
            · exact Bool.false_ne_true (hdigit.symm.trans (isDigit_iff.mpr hc))
            · exact hpoint hc
  | cons c text ih =>
      have hc : ('0' ≤ c ∧ c ≤ '9') ∨ c = '.' :=
        (htext c List.mem_cons_self).imp_left isDigit_iff.mp
      rw [List.cons_append, numberIndex, if_pos hc,
        ih (fun c' hc' => htext c' (List.mem_cons_of_mem c hc')), List.length_cons]
      omega

theorem point_notMem {digits : List Char} (h : ∀ c ∈ digits, c.isDigit = true) : '.' ∉ digits :=
  fun hmem => absurd (h '.' hmem) (by decide)

theorem digitsOnly_iff {s : List Char} : digitsOnly s = true ↔ ∀ c ∈ s, c.isDigit = true :=
  List.all_eq_true

theorem RendersMagnitude.isDigit_or (h : RendersMagnitude q text) :
    ∀ c ∈ text, c.isDigit = true ∨ c = '.' := by
  intro c hc
  cases h with
  | integer hdigits => exact .inl (hdigits.isDigit c hc)
  | fraction hdigits _ hfraction =>
      rcases List.mem_append.mp hc with hc | hc
      · exact .inl (hdigits.isDigit c hc)
      · rcases List.mem_cons.mp hc with hc | hc
        · exact .inr hc
        · exact .inl (hfraction c hc)

theorem RendersMagnitude.head (h : RendersMagnitude q text) :
    ∃ d digits, text = d :: digits ∧ d.isDigit = true := by
  cases h with
  | @integer digits hdigits =>
      obtain ⟨d, rest, rfl⟩ := List.exists_cons_of_ne_nil hdigits.ne_nil
      exact ⟨d, rest, rfl, hdigits.isDigit d List.mem_cons_self⟩
  | @fraction digits fraction hdigits =>
      obtain ⟨d, rest, rfl⟩ := List.exists_cons_of_ne_nil hdigits.ne_nil
      exact ⟨d, rest ++ '.' :: fraction, rfl, hdigits.isDigit d List.mem_cons_self⟩

theorem float_magnitude (h : RendersMagnitude q text) : float text = some (Binary64.round q) := by
  cases h with
  | integer hdigits =>
      rw [float, List.splitOn_eq_singleton (point_notMem hdigits.isDigit)]
      exact if_pos ⟨hdigits.ne_nil, digitsOnly_iff.mpr hdigits.isDigit⟩
  | @fraction digits fraction hdigits hne hfraction =>
      rw [float, List.splitOn_append_cons_self_of_not_mem (point_notMem hdigits.isDigit),
        List.splitOn_eq_singleton (point_notMem hfraction)]
      refine if_pos ⟨List.append_ne_nil_of_left_ne_nil hdigits.ne_nil fraction, ?_⟩
      rw [digitsOnly_iff]
      intro c hc
      exact (List.mem_append.mp hc).elim (hdigits.isDigit c) (hfraction c)

theorem parseNumber_renders (h : RendersNumber n text) (hrest : Follows rest) (c : Item) :
    parseNumber c (text ++ rest) =
      some ({ c with valuedouble := some (double n), type := some .number }, rest) := by
  cases h with
  | plain hmagnitude =>
      have hfloat := float_magnitude hmagnitude
      have hdigits := RendersMagnitude.isDigit_or hmagnitude
      obtain ⟨d, digits, rfl, hd⟩ := RendersMagnitude.head hmagnitude
      have hminus : d ≠ '-' := fun heq => absurd (heq ▸ hd) (by decide)
      have hindex := numberIndex_append
        (fun c' hc' => hdigits c' (List.mem_cons_of_mem d hc')) hrest 0
      rw [List.cons_append, parseNumber, hindex, if_neg hminus]
      simp only [Nat.zero_add, List.take_succ_cons, List.take_left, List.drop_succ_cons,
        List.drop_left, hfloat]
      rfl
  | @negative q text hmagnitude =>
      have hindex := numberIndex_append (RendersMagnitude.isDigit_or hmagnitude) hrest 0
      rw [List.cons_append, parseNumber, hindex, if_pos rfl]
      simp only [Nat.zero_add, List.drop_succ_cons, List.drop_zero, List.take_left,
        List.drop_left, float_magnitude hmagnitude]
      rfl

theorem RendersNumber.head (h : RendersNumber n text) :
    ∃ d digits, text = d :: digits ∧ (d = '-' ∨ '0' ≤ d ∧ d ≤ '9') := by
  cases h with
  | plain hmagnitude =>
      obtain ⟨d, digits, rfl, hd⟩ := RendersMagnitude.head hmagnitude
      exact ⟨d, digits, rfl, .inr (isDigit_iff.mp hd)⟩
  | negative => exact ⟨'-', _, rfl, .inl rfl⟩

end RebuildByPython

end RebuildTheWheel.CJson
