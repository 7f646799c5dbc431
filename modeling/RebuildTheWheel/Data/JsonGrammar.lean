import RebuildTheWheel.Data.Decimal
import Mathlib.Tactic.FieldSimp
import Mathlib.Tactic.Ring
import Mathlib.Data.Rat.Cast.Lemmas

namespace RebuildTheWheel.Data

/-! JSON values and the grammar of their texts, RFC 8259. -/

inductive Json (ν σ : Type) where
  | null
  | false
  | true
  | number (n : ν)
  | string (s : σ)
  | array (elements : List (Json ν σ))
  | object (members : List (σ × Json ν σ))

namespace Json

open Ascii

/-- What the grammar of the values leaves open. -/
structure Lexicon (ν σ : Type) where
  number : ν → Bytes → Prop
  string : σ → Bytes → Prop
  /-- What may stand between two tokens. -/
  gap : Bytes → Prop

mutual

inductive Renders (lexicon : Lexicon ν σ) : Json ν σ → Bytes → Prop where
  | null : Renders lexicon .null nullText
  | false : Renders lexicon .false falseText
  | true : Renders lexicon .true trueText
  | number : lexicon.number n text → Renders lexicon (.number n) text
  | string : lexicon.string s text → Renders lexicon (.string s) text
  | emptyArray : lexicon.gap ws →
      Renders lexicon (.array []) (lbracket :: (ws ++ [rbracket]))
  | array : RendersElements lexicon elements body →
      Renders lexicon (.array elements) (lbracket :: (body ++ [rbracket]))
  | emptyObject : lexicon.gap ws →
      Renders lexicon (.object []) (lbrace :: (ws ++ [rbrace]))
  | object : RendersMembers lexicon members body →
      Renders lexicon (.object members) (lbrace :: (body ++ [rbrace]))

/-- One element or more. -/
inductive RendersElements (lexicon : Lexicon ν σ) : List (Json ν σ) → Bytes → Prop where
  | last : lexicon.gap before → Renders lexicon v text → lexicon.gap after →
      RendersElements lexicon [v] (before ++ (text ++ after))
  | more : lexicon.gap before → Renders lexicon v text → lexicon.gap after →
      RendersElements lexicon elements rest →
      RendersElements lexicon (v :: elements) (before ++ (text ++ (after ++ comma :: rest)))

/-- One member or more. -/
inductive RendersMembers (lexicon : Lexicon ν σ) : List (σ × Json ν σ) → Bytes → Prop where
  | last : lexicon.gap before → lexicon.string key name → lexicon.gap left →
      lexicon.gap right → Renders lexicon v text → lexicon.gap after →
      RendersMembers lexicon [(key, v)]
        (before ++ (name ++ (left ++ colon :: (right ++ (text ++ after)))))
  | more : lexicon.gap before → lexicon.string key name → lexicon.gap left →
      lexicon.gap right → Renders lexicon v text → lexicon.gap after →
      RendersMembers lexicon members rest →
      RendersMembers lexicon ((key, v) :: members)
        (before ++ (name ++ (left ++ colon :: (right ++ (text ++ (after ++ comma :: rest))))))

end

/-- A whole JSON text. -/
inductive RendersText (lexicon : Lexicon ν σ) (v : Json ν σ) : Bytes → Prop where
  | intro : lexicon.gap before → Renders lexicon v text → lexicon.gap after →
      RendersText lexicon v (before ++ (text ++ after))

/-! The tokens of RFC 8259, in UTF-8. -/

def Whitespace (text : Bytes) : Prop :=
  ∀ b ∈ text, b = space ∨ b = tab ∨ b = newline ∨ b = carriageReturn

structure RendersNatural (n : Nat) (digits : Bytes) : Prop where
  ne_nil : digits ≠ []
  isDigit : ∀ d ∈ digits, isDigit d = Bool.true
  no_leading_zero : digits.head? = some zero → digits = [zero]
  value_eq : Decimal.value digits = n

/-- A number without a fraction and an exponent. -/
inductive RendersInteger : Int → Bytes → Prop where
  | plain : RendersNatural n digits → RendersInteger n digits
  | negative : RendersNatural n digits → RendersInteger (-n) (minus :: digits)

theorem RendersInteger.head (h : RendersInteger n text) :
    ∃ d digits, text = d :: digits ∧ (d = minus ∨ isDigit d = Bool.true) := by
  cases h with
  | @plain n _ hn =>
      cases text with
      | nil => exact absurd rfl hn.ne_nil
      | cons d digits => exact ⟨d, digits, rfl, Or.inr (hn.isDigit d List.mem_cons_self)⟩
  | negative _ => exact ⟨minus, _, rfl, Or.inl rfl⟩

/-- The four digits of a `\u` escape. -/
inductive Hex4 : Nat → Bytes → Prop where
  | intro : hexVal? a = some x → hexVal? b = some y → hexVal? c = some z → hexVal? d = some w →
      Hex4 (((x * 16 + y) * 16 + z) * 16 + w) [a, b, c, d]

theorem hexVal?_plain :
    ∀ b : UInt8, hexVal? b ≠ none → b ≠ quote ∧ b ≠ backslash := by
  apply forall_byte
  decide

theorem Hex4.length_eq (h : Hex4 n digits) : digits.length = 4 := by
  cases h
  rfl

theorem Hex4.plain (h : Hex4 n digits) : ∀ b ∈ digits, b ≠ quote ∧ b ≠ backslash := by
  cases h with
  | intro ha hb hc hd =>
      intro b hb'
      apply hexVal?_plain
      simp only [List.mem_cons, List.not_mem_nil, or_false] at hb'
      rcases hb' with rfl | rfl | rfl | rfl <;> simp_all

theorem hexVal?_hexByte : ∀ d < 16, hexVal? (Decimal.hexByte d) = some d := by decide

theorem hex4_digits {n : Nat} (h : n < 2 ^ 16) : Hex4 n (Decimal.hex4 n) := by
  have hdigit : ∀ m, hexVal? (Decimal.hexByte (m % 16)) = some (m % 16) := by
    intro m
    exact hexVal?_hexByte _ (Nat.mod_lt _ (by norm_num))
  have hn : n = (((n / 4096 % 16) * 16 + n / 256 % 16) * 16 + n / 16 % 16) * 16 + n % 16 := by
    omega
  have hhex := Hex4.intro (hdigit (n / 4096)) (hdigit (n / 256)) (hdigit (n / 16)) (hdigit n)
  rwa [← hn] at hhex

theorem rendersNatural_decimal (n : Nat) : RendersNatural n (Decimal.decimal n) where
  ne_nil := Decimal.decimal_ne_nil n
  isDigit _ := Decimal.isDigit_of_mem_decimal
  no_leading_zero h := by
    by_cases hn : n = 0
    · rw [hn]
      rfl
    · exact absurd h (Decimal.head?_decimal_ne hn)
  value_eq := Decimal.value_decimal n

theorem rendersInteger_signed (z : Int) : RendersInteger z (Decimal.signed z) := by
  unfold Decimal.signed
  split
  · next hneg =>
      have h := RendersInteger.negative (rendersNatural_decimal z.natAbs)
      rwa [show -(z.natAbs : Int) = z by omega] at h
  · next hnonneg =>
      have h := RendersInteger.plain (rendersNatural_decimal z.natAbs)
      rwa [show (z.natAbs : Int) = z by omega] at h

/-- The character a one-letter escape stands for. -/
def shortEscape? (e : UInt8) : Option Char :=
  if e = quote then some '"'
  else if e = backslash then some '\\'
  else if e = slash then some '/'
  else if e = lowerB then some '\x08'
  else if e = lowerF then some '\x0c'
  else if e = lowerN then some '\n'
  else if e = lowerR then some '\r'
  else if e = lowerT then some '\t'
  else none

inductive RendersChar : Char → Bytes → Prop where
  | unescaped : 32 ≤ c.toNat → c ≠ '"' → c ≠ '\\' → RendersChar c (String.utf8EncodeChar c)
  | short : shortEscape? e = some c → RendersChar c [backslash, e]
  | unicode : Hex4 c.toNat digits → RendersChar c (backslash :: lowerU :: digits)
  | surrogates : Hex4 (0xD800 + high) first → Hex4 (0xDC00 + low) second →
      high < 0x400 → low < 0x400 → c.toNat = 0x10000 + high * 0x400 + low →
      RendersChar c (backslash :: lowerU :: (first ++ backslash :: lowerU :: second))

inductive RendersChars : List Char → Bytes → Prop where
  | nil : RendersChars [] []
  | cons : RendersChar c text → RendersChars chars rest →
      RendersChars (c :: chars) (text ++ rest)

def RendersString (chars : List Char) (text : Bytes) : Prop :=
  ∃ body, text = quote :: (body ++ [quote]) ∧ RendersChars chars body

end Json

end RebuildTheWheel.Data

namespace RebuildTheWheel.Data

namespace Json

open Ascii

/-! The number literals of RFC 8259, by their parts. -/

inductive ExponentSign where
  | none
  | plus
  | minus

namespace ExponentSign

def text : ExponentSign → Bytes
  | .none => []
  | .plus => [Ascii.plus]
  | .minus => [Ascii.minus]

def factor : ExponentSign → Int
  | .none => 1
  | .plus => 1
  | .minus => -1

end ExponentSign

/-- `exp` -/
structure Exponent where
  letter : UInt8
  letter_eq : letter = lowerE ∨ letter = upperE
  sign : ExponentSign
  digits : Bytes
  digits_ne_nil : digits ≠ []
  digits_isDigit : ∀ d ∈ digits, isDigit d = Bool.true

namespace Exponent

def text (e : Exponent) : Bytes :=
  e.letter :: (e.sign.text ++ e.digits)

def value (e : Exponent) : Int :=
  e.sign.factor * Decimal.value e.digits

end Exponent

/-- `-?int frac? exp?`; without `frac` there are no digits behind the point. -/
structure NumberLiteral where
  negative : Bool
  integral : Bytes
  integral_natural : RendersNatural (Decimal.value integral) integral
  fraction : Bytes
  fraction_isDigit : ∀ d ∈ fraction, isDigit d = Bool.true
  exponent : Option Exponent

namespace NumberLiteral

def signText (l : NumberLiteral) : Bytes :=
  if l.negative then [minus] else []

def fractionText (l : NumberLiteral) : Bytes :=
  if l.fraction = [] then [] else point :: l.fraction

def exponentText (l : NumberLiteral) : Bytes :=
  l.exponent.elim [] Exponent.text

def text (l : NumberLiteral) : Bytes :=
  l.signText ++ (l.integral ++ (l.fractionText ++ l.exponentText))

def sign (l : NumberLiteral) : Int :=
  if l.negative then -1 else 1

def exponentValue (l : NumberLiteral) : Int :=
  l.exponent.elim 0 Exponent.value

/-- The digits of the exponent as a number. -/
def exponentMagnitude (l : NumberLiteral) : Nat :=
  l.exponent.elim 0 fun e => Decimal.value e.digits

def value (l : NumberLiteral) : ℚ :=
  l.sign * (Decimal.value l.integral + Decimal.value l.fraction / 10 ^ l.fraction.length) *
    10 ^ l.exponentValue

end NumberLiteral

end Json

namespace Decimal

theorem foldl_value (digits : Bytes) (n : Nat) :
    digits.foldl (fun n b => n * 10 + digitVal b) n = n * 10 ^ digits.length + value digits := by
  induction digits generalizing n with
  | nil => simp [value]
  | cons d digits ih =>
      have hcons : value (d :: digits) =
          (0 * 10 + digitVal d) * 10 ^ digits.length + value digits := ih (0 * 10 + digitVal d)
      rw [List.foldl_cons, ih, List.length_cons, hcons]
      ring

theorem value_append (front back : Bytes) :
    value (front ++ back) = value front * 10 ^ back.length + value back := by
  rw [value, List.foldl_append]
  exact foldl_value back (value front)

end Decimal

namespace Json.NumberLiteral

/-- The digits on both sides of the point are one integer, scaled down. -/
theorem value_eq (l : NumberLiteral) :
    l.value = l.sign * Decimal.value (l.integral ++ l.fraction) *
      (10 : ℚ) ^ (-(l.fraction.length : Int) + l.exponentValue) := by
  have hten : (10 : ℚ) ≠ 0 := by norm_num
  rw [value, Decimal.value_append, zpow_add₀ hten, zpow_neg, zpow_natCast]
  push_cast
  field_simp

end Json.NumberLiteral

end RebuildTheWheel.Data

namespace RebuildTheWheel.Data

namespace Json

open Ascii

theorem NumberLiteral.head (l : NumberLiteral) :
    ∃ d digits, l.text = d :: digits ∧ (d = minus ∨ isDigit d = Bool.true) := by
  rw [NumberLiteral.text, NumberLiteral.signText]
  cases l.negative with
  | true => exact ⟨minus, _, rfl, Or.inl rfl⟩
  | false =>
      obtain ⟨d, digits, hdigits⟩ := List.exists_cons_of_ne_nil l.integral_natural.ne_nil
      rw [hdigits]
      exact ⟨d, _, rfl, Or.inr (l.integral_natural.isDigit d (hdigits ▸ List.mem_cons_self))⟩

/-! JSON texts by their tokens: the numbers and strings of a value are the texts that stand
for them. -/

/-- What stands between the quotes of a string literal. -/
inductive LiteralChars : Bytes → Prop where
  | nil : LiteralChars []
  | plain : 32 ≤ b → b ≠ quote → b ≠ backslash → LiteralChars rest → LiteralChars (b :: rest)
  | short : (shortEscape? e).isSome → LiteralChars rest → LiteralChars (backslash :: e :: rest)
  | unicode : Hex4 n digits → LiteralChars rest →
      LiteralChars (backslash :: lowerU :: (digits ++ rest))

def StringLiteral (text : Bytes) : Prop :=
  ∃ body, text = quote :: (body ++ [quote]) ∧ LiteralChars body

/-- The tokens of RFC 8259, with `gap` between them. -/
def lexemes (gap : Bytes → Prop) : Lexicon Bytes Bytes where
  number n text := text = n ∧ ∃ l : NumberLiteral, l.text = n
  string s text := text = s ∧ StringLiteral s
  gap := gap

variable {lexicon : Lexicon ν σ}

mutual

/-- A grammar with one text for each token and gap has one text for each value. -/
theorem Renders.unique (hnumber : ∀ {n t t'}, lexicon.number n t → lexicon.number n t' → t = t')
    (hstring : ∀ {s t t'}, lexicon.string s t → lexicon.string s t' → t = t')
    (hgap : ∀ {t t'}, lexicon.gap t → lexicon.gap t' → t = t') :
    ∀ {v : Json ν σ} {t t' : Bytes}, Renders lexicon v t → Renders lexicon v t' → t = t'
  | _, _, _, .null, .null => rfl
  | _, _, _, .false, .false => rfl
  | _, _, _, .true, .true => rfl
  | _, _, _, .number h, .number h' => hnumber h h'
  | _, _, _, .string h, .string h' => hstring h h'
  | _, _, _, .emptyArray h, .emptyArray h' => by rw [hgap h h']
  | _, _, _, .array h, .array h' => by rw [RendersElements.unique hnumber hstring hgap h h']
  | _, _, _, .emptyObject h, .emptyObject h' => by rw [hgap h h']
  | _, _, _, .object h, .object h' => by rw [RendersMembers.unique hnumber hstring hgap h h']

theorem RendersElements.unique
    (hnumber : ∀ {n t t'}, lexicon.number n t → lexicon.number n t' → t = t')
    (hstring : ∀ {s t t'}, lexicon.string s t → lexicon.string s t' → t = t')
    (hgap : ∀ {t t'}, lexicon.gap t → lexicon.gap t' → t = t') :
    ∀ {elements : List (Json ν σ)} {t t' : Bytes}, RendersElements lexicon elements t →
      RendersElements lexicon elements t' → t = t'
  | _, _, _, .last hb h ha, .last hb' h' ha' => by
      rw [hgap hb hb', Renders.unique hnumber hstring hgap h h', hgap ha ha']
  | _, _, _, .more hb h ha hrest, .more hb' h' ha' hrest' => by
      rw [hgap hb hb', Renders.unique hnumber hstring hgap h h', hgap ha ha',
        RendersElements.unique hnumber hstring hgap hrest hrest']

theorem RendersMembers.unique
    (hnumber : ∀ {n t t'}, lexicon.number n t → lexicon.number n t' → t = t')
    (hstring : ∀ {s t t'}, lexicon.string s t → lexicon.string s t' → t = t')
    (hgap : ∀ {t t'}, lexicon.gap t → lexicon.gap t' → t = t') :
    ∀ {members : List (σ × Json ν σ)} {t t' : Bytes}, RendersMembers lexicon members t →
      RendersMembers lexicon members t' → t = t'
  | _, _, _, .last hb hk hl hr h ha, .last hb' hk' hl' hr' h' ha' => by
      rw [hgap hb hb', hstring hk hk', hgap hl hl', hgap hr hr',
        Renders.unique hnumber hstring hgap h h', hgap ha ha']
  | _, _, _, .more hb hk hl hr h ha hrest, .more hb' hk' hl' hr' h' ha' hrest' => by
      rw [hgap hb hb', hstring hk hk', hgap hl hl', hgap hr hr',
        Renders.unique hnumber hstring hgap h h', hgap ha ha',
        RendersMembers.unique hnumber hstring hgap hrest hrest']

end

theorem rendersText_lexemes_unique {gap : Bytes → Prop} (hgap : ∀ {t t'}, gap t → gap t' → t = t')
    {v : Json Bytes Bytes} {t t' : Bytes} (h : RendersText (lexemes gap) v t)
    (h' : RendersText (lexemes gap) v t') : t = t' := by
  have hnumber : ∀ {n t t'}, (lexemes gap).number n t → (lexemes gap).number n t' → t = t' :=
    fun h h' => h.1.trans h'.1.symm
  have hstring : ∀ {s t t'}, (lexemes gap).string s t → (lexemes gap).string s t' → t = t' :=
    fun h h' => h.1.trans h'.1.symm
  cases h with
  | intro hb h ha =>
      cases h' with
      | intro hb' h' ha' => rw [hgap hb hb', h.unique hnumber hstring hgap h', hgap ha ha']

/-! The bytes that a string literal denotes, which need not be UTF-8. -/

inductive Denotes : Bytes → Bytes → Prop where
  | nil : Denotes [] []
  | plain : 32 ≤ b → b ≠ quote → b ≠ backslash → Denotes rest s → Denotes (b :: rest) (b :: s)
  | short : shortEscape? e = some c → Denotes rest s →
      Denotes (backslash :: e :: rest) (String.utf8EncodeChar c ++ s)
  | unicode : {c : Char} → Hex4 c.toNat digits → Denotes rest s →
      Denotes (backslash :: lowerU :: (digits ++ rest)) (String.utf8EncodeChar c ++ s)
  | surrogates : {c : Char} → Hex4 (0xD800 + high) first → Hex4 (0xDC00 + low) second →
      high < 0x400 → low < 0x400 → c.toNat = 0x10000 + high * 0x400 + low → Denotes rest s →
      Denotes (backslash :: lowerU :: (first ++ backslash :: lowerU :: (second ++ rest)))
        (String.utf8EncodeChar c ++ s)

theorem Hex4.unique {digits : Bytes} (h : Hex4 n digits) (h' : Hex4 m digits) : n = m := by
  cases h with
  | intro ha hb hc hd =>
      cases h' with
      | intro ha' hb' hc' hd' =>
          cases ha.symm.trans ha'
          cases hb.symm.trans hb'
          cases hc.symm.trans hc'
          cases hd.symm.trans hd'
          rfl

theorem Hex4.split {first second : Bytes} (h : Hex4 n first) (h' : Hex4 m second)
    (heq : first ++ rest = second ++ rest') : n = m ∧ rest = rest' := by
  obtain ⟨rfl, hrest⟩ := List.append_inj heq (h.length_eq.trans h'.length_eq.symm)
  exact ⟨h.unique h', hrest⟩

theorem shortEscape?_lowerU : shortEscape? lowerU = none := by decide

/-- Half a pair is not a character. -/
theorem toNat_ne_surrogate (c : Char) (hlow : low < 0x800) : c.toNat ≠ 0xD800 + low := by
  intro h
  have hvalid : c.toNat < 0xD800 ∨ 0xDFFF < c.toNat ∧ c.toNat < 0x110000 := c.valid
  omega

theorem Denotes.literalChars {text s : Bytes} (h : Denotes text s) : LiteralChars text := by
  induction h with
  | nil => exact .nil
  | plain hb hquote hback _ ih => exact .plain hb hquote hback ih
  | short he _ ih => exact .short (Option.isSome_of_eq_some he) ih
  | unicode hhex _ ih => exact .unicode hhex ih
  | surrogates hfirst hsecond _ _ _ _ ih => exact .unicode hfirst (.unicode hsecond ih)

/-- A text denotes one string at most. -/
theorem Denotes.unique {text s s' : Bytes} (h : Denotes text s) (h' : Denotes text s') :
    s = s' := by
  induction h generalizing s' with
  | nil =>
      cases h'
      rfl
  | plain hb hquote hback hrest ih =>
      cases h' with
      | plain _ _ _ hrest' => rw [ih hrest']
      | short _ _ => exact absurd rfl hback
      | unicode _ _ => exact absurd rfl hback
      | surrogates _ _ _ _ _ _ => exact absurd rfl hback
  | short he hrest ih =>
      cases h' with
      | plain _ _ hback _ => exact absurd rfl hback
      | short he' hrest' =>
          cases he.symm.trans he'
          rw [ih hrest']
      | unicode _ _ => cases he.symm.trans shortEscape?_lowerU
      | surrogates _ _ _ _ _ _ => cases he.symm.trans shortEscape?_lowerU
  | @unicode digits rest s c hhex hrest ih =>
      generalize htext : digits ++ rest = text at h'
      cases h' with
      | plain _ _ hback _ => exact absurd rfl hback
      | short he' _ => cases he'.symm.trans shortEscape?_lowerU
      | @unicode _ _ _ c' hhex' hrest' =>
          obtain ⟨hcode, rfl⟩ := hhex.split hhex' htext
          rw [Char.toNat_inj.mp hcode, ih hrest']
      | surrogates hfirst _ hhigh _ _ _ =>
          obtain ⟨hcode, -⟩ := hhex.split hfirst htext
          exact absurd hcode (toNat_ne_surrogate c (by omega))
  | @surrogates high first low second rest s c hfirst hsecond hhigh hlow hcode hrest ih =>
      generalize htext : first ++ backslash :: lowerU :: (second ++ rest) = text at h'
      cases h' with
      | plain _ _ hback _ => exact absurd rfl hback
      | short he' _ => cases he'.symm.trans shortEscape?_lowerU
      | @unicode _ _ _ c' hhex' _ =>
          obtain ⟨hcode', -⟩ := hhex'.split hfirst htext.symm
          exact absurd hcode' (toNat_ne_surrogate c' (by omega))
      | surrogates hfirst' hsecond' _ _ hcode' hrest' =>
          obtain ⟨hhigh', htail⟩ := hfirst.split hfirst' htext
          have hbehind := List.tail_eq_of_cons_eq (List.tail_eq_of_cons_eq htail)
          obtain ⟨hlow', rfl⟩ := hsecond.split hsecond' hbehind
          rw [Nat.add_left_cancel hhigh', Nat.add_left_cancel hlow', ← hcode'] at hcode
          rw [Char.toNat_inj.mp hcode, ih hrest']

end Json

end RebuildTheWheel.Data
