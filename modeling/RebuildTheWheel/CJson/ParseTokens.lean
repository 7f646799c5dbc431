import RebuildTheWheel.CJson.Parse
import RebuildTheWheel.Data.JsonGrammar

namespace RebuildTheWheel.CJson

open RebuildTheWheel.Data
open RebuildTheWheel.Data.Ascii

/-! Numbers: the digits are added up in `double` arithmetic, which is exact as
long as the value is below 2^53. -/

/-- What the grammar has behind a value. -/
def Follows (rest : Bytes) : Prop :=
  ∀ b ∈ rest.head?, b ≤ 32 ∨ b = comma ∨ b = rbracket ∨ b = rbrace

theorem not_numberByte :
    ∀ b : UInt8, b ≤ 32 ∨ b = comma ∨ b = rbracket ∨ b = rbrace →
      isDigit b = false ∧ b ≠ point ∧ b ≠ lowerE ∧ b ≠ upperE := by
  apply forall_byte
  decide

theorem Follows.peek {rest : Bytes} (h : Follows rest) :
    isDigit (peek rest) = false ∧ peek rest ≠ point ∧ peek rest ≠ lowerE ∧ peek rest ≠ upperE := by
  cases rest with
  | nil => decide
  | cons b rest => exact not_numberByte b (h b rfl)

theorem le_foldl_digits (digits : Bytes) (n : Nat) :
    n ≤ digits.foldl (fun n d => n * 10 + Decimal.digitVal d) n := by
  induction digits generalizing n with
  | nil => exact le_rfl
  | cons d digits ih => exact le_trans (by omega) (ih (n * 10 + Decimal.digitVal d))

theorem readDigits_append {rest : Bytes} (hrest : isDigit (peek rest) = false) :
    ∀ (digits : Bytes) (n : Nat), (∀ d ∈ digits, isDigit d = true) →
      digits.foldl (fun n d => n * 10 + Decimal.digitVal d) n < 2 ^ 53 →
      readDigits (Binary64.ofInt n) (digits ++ rest) =
        (Binary64.ofInt (digits.foldl (fun n d => n * 10 + Decimal.digitVal d) n : Nat),
          digits.length, rest)
  | [], n, _, _ => by
      cases rest with
      | nil => rfl
      | cons b rest =>
          simp only [peek] at hrest
          simp [readDigits, hrest]
  | d :: digits, n, hdigits, hbound => by
      have hd := hdigits d List.mem_cons_self
      have hle := le_foldl_digits digits (n * 10 + Decimal.digitVal d)
      rw [List.foldl_cons] at hbound ⊢
      have hstep : Binary64.add (Binary64.mul (Binary64.ofInt n) (Binary64.ofInt 10))
          (Binary64.ofInt (Decimal.digitVal d)) =
            Binary64.ofInt ((n * 10 + Decimal.digitVal d : Nat) : Int) := by
        rw [Binary64.mul_ofInt, Binary64.add_ofInt]
        · push_cast
          rfl
        all_goals
          rw [abs_lt]
          constructor <;> omega
      have ih := readDigits_append hrest digits _ (fun d' h => hdigits d' (List.mem_cons_of_mem _ h))
        hbound
      simp only [List.cons_append, readDigits, hd, if_true, hstep, ih, List.length_cons]

theorem not_nonzero_digit {b : UInt8} (h : isDigit b = false) : ¬(49 ≤ b && b ≤ 57) = true := by
  simp only [isDigit, Bool.and_eq_false_iff, decide_eq_false_iff_not, Bool.and_eq_true,
    decide_eq_true_eq, UInt8.le_iff_toNat_le, UInt8.reduceToNat] at h ⊢
  omega

theorem readIntegral_natural {n : Nat} {digits rest : Bytes} (h : Json.RendersNatural n digits)
    (hn : n < 2 ^ 53) (hrest : isDigit (peek rest) = false) :
    readIntegral (digits ++ rest) = (Binary64.ofInt n, rest) := by
  obtain ⟨hne, hdigits, hlead, rfl⟩ := h
  cases digits with
  | nil => exact absurd rfl hne
  | cons d digits =>
      rcases zero_or_nonzero_digit d (hdigits d List.mem_cons_self) with rfl | ⟨hd, hlow, hhigh⟩
      · obtain rfl : digits = [] := (List.cons.inj (hlead rfl)).2
        simp only [readIntegral, List.singleton_append, peek_cons, if_true, List.tail_cons,
          if_neg (not_nonzero_digit hrest)]
        rfl
      · have hread := readDigits_append hrest (d :: digits) 0 hdigits hn
        simp only [readIntegral, List.cons_append, peek_cons, hd, if_false, hlow, hhigh, decide_true,
          Bool.and_self, if_true]
        rw [List.cons_append] at hread
        rw [show (Binary64.ofInt 0) = Binary64.ofInt ((0 : Nat) : Int) from rfl, hread]
        rfl

theorem parseNumber_tail (sign : Int) {text num rest : Bytes} {n : Nat}
    (hsign : |sign| = 1) (hn : n < 2 ^ 53) (hrest : Follows rest)
    (hnum : readIntegral num = (Binary64.ofInt n, rest)) (htext : readSign text = (sign, num)) :
    parseNumber text = (Binary64.ofInt (sign * n), rest) := by
  obtain ⟨hdigit, hpoint, hlower, hupper⟩ := hrest.peek
  have hfraction : ∀ d, readFraction d rest = (d, 0, rest) := by
    intro d
    simp [readFraction, hpoint]
  have hexponent : readExponent rest = (0, rest) := by
    simp [readExponent, hlower, hupper]
  have hsmall : |(n : Int)| < 2 ^ 53 := by
    rw [abs_lt]
    constructor <;> omega
  simp only [parseNumber, htext, hnum, hfraction, hexponent, add_zero, Binary64.tenPow_zero]
  rw [Binary64.mul_ofInt _ hsmall, Binary64.mul_ofInt _ (by norm_num), mul_one]
  · rwa [abs_mul, hsign, one_mul]
  · rw [hsign]
    norm_num

theorem parseNumber_integer {z : Int} {text rest : Bytes} (h : Json.RendersInteger z text)
    (hz : |z| < 2 ^ 53) (hrest : Follows rest) :
    parseNumber (text ++ rest) = (Binary64.ofInt z, rest) := by
  cases h with
  | @plain n _ hn =>
      rw [Nat.abs_cast] at hz
      have hread := readIntegral_natural hn (by exact_mod_cast hz) hrest.peek.1
      rw [parseNumber_tail 1 (by norm_num) (by exact_mod_cast hz) hrest hread, one_mul]
      cases text with
      | nil => exact absurd rfl hn.ne_nil
      | cons d digits =>
          have hd := isDigit_ne_minus (hn.isDigit d List.mem_cons_self)
          simp [readSign, hd]
  | @negative n digits hn =>
      rw [abs_neg, Nat.abs_cast] at hz
      have hread := readIntegral_natural hn (by exact_mod_cast hz) hrest.peek.1
      rw [parseNumber_tail (-1) (by norm_num) (by exact_mod_cast hz) hrest hread,
        neg_one_mul]
      simp [readSign]

theorem numberByte_printable :
    ∀ d : UInt8, d = minus ∨ isDigit d = true → 32 < d ∧ d ≠ rbracket := by
  apply forall_byte
  decide

theorem numberByte_other :
    ∀ d : UInt8, d = minus ∨ isDigit d = true → d ≠ 110 ∧ d ≠ 102 ∧ d ≠ 116 ∧ d ≠ quote := by
  apply forall_byte
  decide

/-! Strings: a literal is read piece by piece, and what a piece stores does not
depend on what stands behind it. -/

/-- Both loops of `parse_string` pass over `text`: the first counts `count`
characters, the second stores `stored`. -/
structure Decodes (text stored : Bytes) (count : Nat) : Prop where
  count_eq : ∀ rest, countChars (text ++ rest) = (countChars rest).map (· + count)
  decode_eq : ∀ rest,
    decodeChars 0 (text ++ rest) = (decodeChars 0 rest).map fun p => (stored ++ p.1, p.2)

theorem except_map_id (x : Except ε α) : x.map (fun a => a) = x := by
  cases x <;> rfl

theorem except_map_map (f : α → β) (g : β → γ) (x : Except ε α) :
    (x.map f).map g = x.map fun a => g (f a) := by
  cases x <;> rfl

theorem Decodes.nil : Decodes [] [] 0 where
  count_eq _ := (except_map_id _).symm
  decode_eq _ := (except_map_id _).symm

theorem Decodes.append (h : Decodes text stored count) (h' : Decodes text' stored' count') :
    Decodes (text ++ text') (stored ++ stored') (count' + count) where
  count_eq rest := by
    rw [List.append_assoc, h.count_eq, h'.count_eq, except_map_map]
    simp only [Nat.add_assoc]
  decode_eq rest := by
    rw [List.append_assoc, h.decode_eq, h'.decode_eq, except_map_map]
    simp only [List.append_assoc]

theorem decodes_raw {c : UInt8} (hquote : c ≠ quote) (hbackslash : c ≠ backslash) :
    Decodes [c] [c] 1 where
  count_eq rest := countChars_char hquote hbackslash rest
  decode_eq rest := decodeChars_char hquote hbackslash rest

theorem decodes_raws :
    ∀ text : Bytes, (∀ b ∈ text, b ≠ quote ∧ b ≠ backslash) → Decodes text text text.length
  | [], _ => Decodes.nil
  | b :: text, h => by
      obtain ⟨hquote, hbackslash⟩ := h b List.mem_cons_self
      exact (decodes_raw hquote hbackslash).append
        (decodes_raws text fun b' hb' => h b' (List.mem_cons_of_mem _ hb'))

theorem decodes_short {e : UInt8} (he : e ≠ lowerU) :
    Decodes [backslash, e] [unescape e] 1 where
  count_eq rest := countChars_escape e rest
  decode_eq rest := decodeChars_short he rest

theorem decodeChars_pending (skipped rest : Bytes) :
    decodeChars skipped.length (skipped ++ rest) = decodeChars 0 rest := by
  induction skipped with
  | nil => rfl
  | cons b skipped ih => exact ih

theorem parseHex4_digits (h : Json.Hex4 n digits) (rest : Bytes) :
    parseHex4 (digits ++ rest) = n := by
  cases h with
  | intro ha hb hc hd =>
      simp [parseHex4, ha, hb, hc, hd, Nat.shiftLeft_eq]

/-- A `\u` escape that stores `stored` and jumps over exactly its own text. -/
theorem decodes_unicode {escape stored : Bytes}
    (hcount : ∀ rest, countChars (escape ++ rest) = (countChars rest).map (· + count))
    (hescape : ∀ rest, unicodeEscape (escape ++ rest) = (stored, escape.length)) :
    Decodes (backslash :: lowerU :: escape) stored (count + 1) where
  count_eq rest := by
    rw [List.cons_append, List.cons_append, countChars_escape, hcount, except_map_map]
    rfl
  decode_eq rest := by
    rw [List.cons_append, List.cons_append, decodeChars_unicode, hescape, decodeChars_pending]

theorem parseString_literal {body stored rest : Bytes} {count : Nat}
    (h : Decodes body stored count) (hcount : count + 1 ≤ intMax) :
    parseString (quote :: (body ++ quote :: rest)) = .ok (stored, rest) := by
  have hlen : countChars (body ++ quote :: rest) = .ok count := by
    rw [h.count_eq]
    simp [Except.map]
  have hout : decodeChars 0 (body ++ quote :: rest) = .ok (stored, quote :: rest) := by
    rw [h.decode_eq]
    simp [Except.map]
  simp only [parseString, peek_cons, ne_eq, not_true, if_false, List.tail_cons, hlen]
  change (if count + 1 ≤ intMax then _ else _) = _
  rw [if_pos hcount, hout]
  simp [bind, Except.bind]

end RebuildTheWheel.CJson
