import Mathlib.Data.Rat.Defs
import Mathlib.Tactic.NormNum

namespace RebuildTheWheel.Data

/-! JSON objects of strings, decimal numbers and objects, and the grammar of their texts
as sequences of characters, RFC 8259. -/

namespace JsonText

/-- A decimal number, by its sign and its magnitude. -/
structure Number where
  negative : Bool
  magnitude : ℚ

inductive Value where
  | string (s : List Char)
  | number (n : Number)
  | object (members : List (List Char × Value))

/-- What the grammar of the values leaves open. -/
structure Lexicon where
  /-- A string and what stands between its quotes. -/
  string : List Char → List Char → Prop
  /-- What may stand between two tokens. -/
  gap : List Char → Prop
  /-- What may stand in an object without members. -/
  emptyGap : List Char → Prop

/-! Numbers without an exponent. -/

def value (digits : List Char) : Nat :=
  digits.foldl (fun n c => n * 10 + (c.toNat - '0'.toNat)) 0

structure RendersNatural (digits : List Char) : Prop where
  ne_nil : digits ≠ []
  isDigit : ∀ c ∈ digits, c.isDigit = true
  no_leading_zero : digits.head? = some '0' → digits = ['0']

inductive RendersMagnitude : ℚ → List Char → Prop where
  | integer : RendersNatural digits → RendersMagnitude (value digits) digits
  | fraction : RendersNatural digits → fraction ≠ [] → (∀ c ∈ fraction, c.isDigit = true) →
      RendersMagnitude (value (digits ++ fraction) / 10 ^ fraction.length)
        (digits ++ '.' :: fraction)

inductive RendersNumber : Number → List Char → Prop where
  | plain : RendersMagnitude q text → RendersNumber ⟨false, q⟩ text
  | negative : RendersMagnitude q text → RendersNumber ⟨true, q⟩ ('-' :: text)

mutual

inductive Renders (lexicon : Lexicon) : Value → List Char → Prop where
  | string : lexicon.string s body → Renders lexicon (.string s) ('"' :: (body ++ ['"']))
  | number : RendersNumber n text → Renders lexicon (.number n) text
  | emptyObject : lexicon.emptyGap ws → Renders lexicon (.object []) ('{' :: (ws ++ ['}']))
  | object : RendersMembers lexicon members body →
      Renders lexicon (.object members) ('{' :: (body ++ ['}']))

inductive RendersMember (lexicon : Lexicon) : List Char × Value → List Char → Prop where
  | intro : lexicon.gap before → lexicon.string key name → lexicon.gap left →
      lexicon.gap right → Renders lexicon v text → lexicon.gap after →
      RendersMember lexicon (key, v)
        (before ++ '"' :: (name ++ '"' :: (left ++ ':' :: (right ++ (text ++ after)))))

/-- One member or more. -/
inductive RendersMembers (lexicon : Lexicon) : List (List Char × Value) → List Char → Prop where
  | last : RendersMember lexicon m text → RendersMembers lexicon [m] text
  | more : RendersMember lexicon m text → RendersMembers lexicon members rest →
      RendersMembers lexicon (m :: members) (text ++ ',' :: rest)

end

/-! The tokens of RFC 8259. -/

def IsSpace (c : Char) : Prop := c = ' ' ∨ c = '\t' ∨ c = '\n' ∨ c = '\r'

def Whitespace (text : List Char) : Prop := ∀ c ∈ text, IsSpace c

def hexVal? (c : Char) : Option Nat :=
  if c.isDigit then some (c.toNat - '0'.toNat)
  else if 'a' ≤ c ∧ c ≤ 'f' then some (c.toNat - 'a'.toNat + 10)
  else if 'A' ≤ c ∧ c ≤ 'F' then some (c.toNat - 'A'.toNat + 10)
  else none

/-- The four digits of a `\u` escape. -/
inductive Hex4 : Nat → List Char → Prop where
  | intro : hexVal? a = some x → hexVal? b = some y → hexVal? c = some z → hexVal? d = some w →
      Hex4 (((x * 16 + y) * 16 + z) * 16 + w) [a, b, c, d]

/-- The character a one-letter escape stands for. -/
def shortEscape? : Char → Option Char
  | '"' => some '"'
  | '\\' => some '\\'
  | '/' => some '/'
  | 'b' => some '\x08'
  | 'f' => some '\x0c'
  | 'n' => some '\n'
  | 'r' => some '\r'
  | 't' => some '\t'
  | _ => none

/-- A character that stands for itself in a string. -/
def Unescaped (c : Char) : Prop := 32 ≤ c.toNat ∧ c ≠ '"' ∧ c ≠ '\\'

inductive RendersChar : Char → List Char → Prop where
  | unescaped : Unescaped c → RendersChar c [c]
  | short : shortEscape? e = some c → RendersChar c ['\\', e]
  | unicode : Hex4 c.toNat digits → RendersChar c ('\\' :: 'u' :: digits)
  | surrogates : Hex4 (0xD800 + high) first → Hex4 (0xDC00 + low) second →
      high < 0x400 → low < 0x400 → c.toNat = 0x10000 + high * 0x400 + low →
      RendersChar c ('\\' :: 'u' :: (first ++ '\\' :: 'u' :: second))

inductive RendersChars : List Char → List Char → Prop where
  | nil : RendersChars [] []
  | cons : RendersChar c text → RendersChars chars rest →
      RendersChars (c :: chars) (text ++ rest)

def rfcLexicon : Lexicon where
  string := RendersChars
  gap := Whitespace
  emptyGap := Whitespace

theorem hexVal?_quote : hexVal? '"' = none := rfl

theorem Hex4.quote_notMem (h : Hex4 n digits) : '"' ∉ digits := by
  cases h with
  | intro ha hb hc hd =>
      intro hmem
      simp only [List.mem_cons, List.not_mem_nil, or_false] at hmem
      rcases hmem with rfl | rfl | rfl | rfl
      · cases hexVal?_quote.symm.trans ha
      · cases hexVal?_quote.symm.trans hb
      · cases hexVal?_quote.symm.trans hc
      · cases hexVal?_quote.symm.trans hd

theorem shortEscape?_quote : shortEscape? '"' = some '"' := rfl

/-- A character is written as itself, or as a longer text with a quote only for a quote. -/
theorem RendersChar.cases_on_length (h : RendersChar c text) :
    text = [c] ∧ Unescaped c ∨ 2 ≤ text.length ∧ ('"' ∈ text → c = '"') := by
  cases h with
  | unescaped hc => exact .inl ⟨rfl, hc⟩
  | @short e _ he =>
      refine .inr ⟨Nat.le_refl 2, fun hmem => ?_⟩
      simp only [List.mem_cons, List.not_mem_nil, or_false] at hmem
      rcases hmem with hmem | rfl
      · exact absurd hmem (by decide)
      · exact (Option.some.inj (shortEscape?_quote.symm.trans he)).symm
  | unicode hdigits =>
      have hquote := hdigits.quote_notMem
      refine .inr ⟨Nat.le_add_left 2 _, fun hmem => ?_⟩
      simp [hquote] at hmem
  | surrogates hfirst hsecond =>
      have hquote₁ := hfirst.quote_notMem
      have hquote₂ := hsecond.quote_notMem
      refine .inr ⟨Nat.le_add_left 2 _, fun hmem => ?_⟩
      simp [hquote₁, hquote₂] at hmem

/-- A string text without escapes is the string. -/
theorem RendersChars.eq_of_length_le (h : RendersChars chars body) :
    chars.length ≤ body.length ∧
      (body.length ≤ chars.length → body = chars ∧ ∀ c ∈ chars, Unescaped c) := by
  induction h with
  | nil => exact ⟨Nat.le_refl 0, fun _ => ⟨rfl, fun _ hc => nomatch hc⟩⟩
  | @cons c text chars rest hchar hrest ih =>
      obtain ⟨hle, heq⟩ := ih
      simp only [List.length_cons, List.length_append]
      rcases hchar.cases_on_length with ⟨rfl, hc⟩ | ⟨htwo, -⟩
      · refine ⟨by simp only [List.length_singleton]; omega, fun hlen => ?_⟩
        simp only [List.length_singleton] at hlen
        obtain ⟨rfl, hall⟩ := heq (by omega)
        exact ⟨rfl, List.forall_mem_cons.mpr ⟨hc, hall⟩⟩
      · exact ⟨by omega, fun hlen => by omega⟩

/-- A quote in a string text stands for a quote. -/
theorem RendersChars.quote_mem (h : RendersChars chars body) (hmem : '"' ∈ body) :
    '"' ∈ chars := by
  induction h with
  | nil => cases hmem
  | cons hchar hrest ih =>
      rcases List.mem_append.mp hmem with hmem | hmem
      · rcases hchar.cases_on_length with ⟨rfl, hc⟩ | ⟨-, hquote⟩
        · exact absurd (List.mem_singleton.mp hmem).symm hc.2.1
        · rw [hquote hmem]
          exact List.mem_cons_self
      · exact List.mem_cons_of_mem _ (ih hmem)

end JsonText

end RebuildTheWheel.Data
