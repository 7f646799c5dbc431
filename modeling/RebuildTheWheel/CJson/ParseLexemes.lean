import RebuildTheWheel.CJson.ParseLiteral
import RebuildTheWheel.CJson.ParseNumber
import RebuildTheWheel.CJson.ParseReads
import RebuildTheWheel.Data.JsonGrammar

namespace RebuildTheWheel.CJson

open RebuildTheWheel.Data
open RebuildTheWheel.Data.Ascii
open RebuildTheWheel.Data.Json (Hex4 LiteralChars StringLiteral lexemes)

/-! What the parser makes of a token does not depend on the text behind it. -/

theorem peek_append {text rest : Bytes} {b : UInt8} (hb : b ≠ 0) (hrest : peek rest ≠ b) :
    peek (text ++ rest) = b ↔ peek text = b := by
  cases text with
  | nil => exact iff_of_false hrest (Ne.symm hb)
  | cons c text => rfl

theorem isDigit_peek_append {text rest : Bytes} (hrest : isDigit (peek rest) = false) :
    isDigit (peek (text ++ rest)) = isDigit (peek text) := by
  cases text with
  | nil => exact hrest
  | cons c text => rfl

theorem tail_append {text rest : Bytes} {b : UInt8} (hpeek : peek text = b) (hb : b ≠ 0) :
    (text ++ rest).tail = text.tail ++ rest := by
  rw [eq_cons_of_peek hpeek hb]
  rfl

section

variable {rest : Bytes}

theorem readDigits_stable (hrest : isDigit (peek rest) = false) (text : Bytes) (n : Binary64) :
    readDigits n (text ++ rest) =
      ((readDigits n text).1, (readDigits n text).2.1, (readDigits n text).2.2 ++ rest) := by
  induction text generalizing n with
  | nil =>
      cases rest with
      | nil => rfl
      | cons c rest =>
          rw [peek_cons] at hrest
          simp [readDigits, hrest]
  | cons c text ih =>
      rw [List.cons_append, readDigits, readDigits]
      split
      · rw [ih]
      · rfl

theorem readSubscale_stable (hrest : isDigit (peek rest) = false) (text : Bytes) (n : Int32) :
    readSubscale n (text ++ rest) = ((readSubscale n text).1, (readSubscale n text).2 ++ rest) := by
  induction text generalizing n with
  | nil =>
      cases rest with
      | nil => rfl
      | cons c rest =>
          rw [peek_cons] at hrest
          simp [readSubscale, hrest]
  | cons c text ih =>
      rw [List.cons_append, readSubscale, readSubscale]
      split
      · rw [ih]
      · rfl

theorem readSign_stable (hrest : peek rest ≠ minus) (text : Bytes) :
    readSign (text ++ rest) = ((readSign text).1, (readSign text).2 ++ rest) := by
  rw [readSign, readSign]
  by_cases hminus : peek text = minus
  · rw [if_pos ((peek_append (by decide) hrest).mpr hminus), if_pos hminus,
      tail_append hminus (by decide)]
  · rw [if_neg (fun h => hminus ((peek_append (by decide) hrest).mp h)), if_neg hminus]

theorem readIntegral_stable (hrest : isDigit (peek rest) = false) (text : Bytes) :
    readIntegral (text ++ rest) = ((readIntegral text).1, (readIntegral text).2 ++ rest) := by
  have hzero : peek rest ≠ zero := by
    intro h
    rw [h] at hrest
    cases hrest
  have hskip : (if peek (text ++ rest) = zero then (text ++ rest).tail else text ++ rest) =
      (if peek text = zero then text.tail else text) ++ rest := by
    by_cases hz : peek text = zero
    · rw [if_pos ((peek_append (by decide) hzero).mpr hz), if_pos hz, tail_append hz (by decide)]
    · rw [if_neg (fun h => hz ((peek_append (by decide) hzero).mp h)), if_neg hz]
  simp only [readIntegral, hskip]
  generalize (if peek text = zero then text.tail else text) = num
  have hdigit : (decide (49 ≤ peek (num ++ rest)) && decide (peek (num ++ rest) ≤ 57)) =
      (decide (49 ≤ peek num) && decide (peek num ≤ 57)) := by
    cases num with
    | nil => exact Bool.eq_false_iff.mpr (not_nonzero_digit hrest)
    | cons c num => rfl
  rw [hdigit]
  split
  · rw [readDigits_stable hrest]
  · rfl

theorem readFraction_stable (hrest : isDigit (peek rest) = false) (hpoint : peek rest ≠ point)
    (n : Binary64) (text : Bytes) :
    readFraction n (text ++ rest) =
      ((readFraction n text).1, (readFraction n text).2.1, (readFraction n text).2.2 ++ rest) := by
  rw [readFraction, readFraction]
  by_cases hp : peek text = point
  · rw [tail_append hp (by decide), isDigit_peek_append hrest]
    simp only [(peek_append (by decide) hpoint).mpr hp, hp]
    split
    · rw [readDigits_stable hrest]
    · rfl
  · have hp' : peek (text ++ rest) ≠ point := fun h => hp ((peek_append (by decide) hpoint).mp h)
    simp [hp, hp']

theorem follows_not_sign (h : Follows rest) : peek rest ≠ plus ∧ peek rest ≠ minus := by
  have hbyte : ∀ b : UInt8, b ≤ 32 ∨ b = comma ∨ b = rbracket ∨ b = rbrace → b ≠ plus ∧ b ≠ minus := by
    apply forall_byte
    decide
  cases rest with
  | nil => decide
  | cons b rest => exact hbyte b (h b rfl)

theorem readSignsubscale_stable (hrest : Follows rest) (text : Bytes) :
    readSignsubscale (text ++ rest) = ((readSignsubscale text).1, (readSignsubscale text).2 ++ rest) := by
  obtain ⟨hplus, hminus⟩ := follows_not_sign hrest
  have hp : peek (text ++ rest) = plus ↔ peek text = plus := peek_append (by decide) hplus
  have hm : peek (text ++ rest) = minus ↔ peek text = minus := peek_append (by decide) hminus
  simp only [readSignsubscale, hp, hm]
  split
  · next h => rw [tail_append h (by decide)]
  split
  · next h => rw [tail_append h (by decide)]
  · rfl

theorem readExponent_stable (hrest : Follows rest) (text : Bytes) :
    readExponent (text ++ rest) = ((readExponent text).1, (readExponent text).2 ++ rest) := by
  obtain ⟨hdigit, -, hlower, hupper⟩ := hrest.peek
  have hl : peek (text ++ rest) = lowerE ↔ peek text = lowerE := peek_append (by decide) hlower
  have hu : peek (text ++ rest) = upperE ↔ peek text = upperE := peek_append (by decide) hupper
  simp only [readExponent_eq, hl, hu]
  split
  · next h =>
    have htail : (text ++ rest).tail = text.tail ++ rest := by
      rw [Bool.or_eq_true, decide_eq_true_eq, decide_eq_true_eq] at h
      obtain h | h := h
      · exact tail_append h (by decide)
      · exact tail_append h (by decide)
    rw [htail, readSignsubscale_stable hrest]
    dsimp only
    rw [readSubscale_stable hdigit]
  · rfl

theorem parseNumber_stable (hrest : Follows rest) (text : Bytes) :
    parseNumber (text ++ rest) = ((parseNumber text).1, (parseNumber text).2 ++ rest) := by
  obtain ⟨hdigit, hpoint, -⟩ := hrest.peek
  simp only [parseNumber, readSign_stable (follows_not_sign hrest).2, readIntegral_stable hdigit,
    readFraction_stable hdigit hpoint, readExponent_stable hrest]

end

theorem readExponent_rest (l : Json.NumberLiteral) : (readExponent l.exponentText).2 = [] := by
  rw [Json.NumberLiteral.exponentText]
  cases l.exponent with
  | none => rfl
  | some e =>
      have hsign := readSignsubscale_text e.sign [] e.digits_ne_nil e.digits_isDigit
      have hread := readSubscale_append numberEnds_nil.not_digit e.digits 0 e.digits_isDigit
      have hletter : (e.letter = lowerE || e.letter = upperE) = true := by
        simpa using e.letter_eq
      rw [List.append_nil] at hsign hread
      rw [Option.elim_some, Json.Exponent.text, readExponent_eq, peek_cons, if_pos hletter,
        List.tail_cons, hsign]
      change (readSubscale (Int32.ofNat 0) e.digits).2 = []
      rw [hread]

/-- The parser reads a number literal to its end. -/
theorem parseNumber_literal_rest (l : Json.NumberLiteral) : (parseNumber l.text).2 = [] := by
  obtain ⟨hdigit, hpoint⟩ := peek_exponentText l numberEnds_nil
  have hsign := readSign_text l (l.fractionText ++ (l.exponentText ++ []))
  have hintegral := exactIntegral_natural l.integral_natural (not_digit_fractionText l hdigit)
  have hfraction := exactFraction_text l hdigit hpoint (Decimal.value l.integral)
  rw [List.append_nil] at hsign hintegral hfraction
  rw [parseNumber_scan_rest]
  simp only [scanNumber, Json.NumberLiteral.text, hsign, hintegral, hfraction]
  exact readExponent_rest l

theorem parseNumber_token (l : Json.NumberLiteral) {rest : Bytes} (hrest : Follows rest) :
    parseNumber (l.text ++ rest) = ((parseNumber l.text).1, rest) := by
  rw [parseNumber_stable hrest, parseNumber_literal_rest, List.nil_append]

/-! String literals. -/

/-- What is stored for the escape of `uc` when no second half follows. -/
def storedAlone (uc : Nat) : Bytes :=
  if (0xDC00 ≤ uc && uc ≤ 0xDFFF) || uc = 0 then []
  else if 0xD800 ≤ uc && uc ≤ 0xDBFF then []
  else storeUtf8 uc

theorem unicodeEscape_alone {uc : Nat} {digits ptr : Bytes} (h : Hex4 uc digits)
    (hptr : ¬(peek ptr = backslash ∧ peek ptr.tail = lowerU)) :
    unicodeEscape (digits ++ ptr) = (storedAlone uc, 4) := by
  have hdrop : (digits ++ ptr).drop 4 = ptr := by
    rw [← h.length_eq, List.drop_left]
  have hmissing : (decide (peek ptr ≠ backslash) || decide (peek ptr.tail ≠ lowerU)) = true := by
    rw [Bool.or_eq_true, decide_eq_true_eq, decide_eq_true_eq]
    exact not_and_or.mp hptr
  simp only [unicodeEscape, parseHex4_digits h, hdrop, storedAlone]
  split
  · rfl
  split
  · rfl
  · rfl

/-- The escape of `uc` in front of the escape of `uc2`: both are taken or only the first. -/
theorem unicodeEscape_pair {uc uc2 : Nat} {digits digits2 : Bytes} (h : Hex4 uc digits)
    (h2 : Hex4 uc2 digits2) :
    ∃ stored, (∀ rest, unicodeEscape (digits ++ backslash :: lowerU :: (digits2 ++ rest)) = (stored, 4)) ∨
      ∀ rest, unicodeEscape (digits ++ backslash :: lowerU :: (digits2 ++ rest)) = (stored, 10) := by
  have hdrop : ∀ ptr, (digits ++ ptr).drop 4 = ptr := fun ptr => by
    rw [← h.length_eq, List.drop_left]
  have hfound : ∀ rest : Bytes, (decide (peek (backslash :: lowerU :: (digits2 ++ rest)) ≠ backslash) ||
      decide (peek (backslash :: lowerU :: (digits2 ++ rest)).tail ≠ lowerU)) = false := fun _ => rfl
  have hskip : ∀ rest : Bytes, (backslash :: lowerU :: (digits2 ++ rest)).drop 2 = digits2 ++ rest :=
    fun _ => rfl
  simp only [unicodeEscape, parseHex4_digits h, hdrop, hfound, hskip, parseHex4_digits h2,
    Bool.false_eq_true, if_false]
  split
  · exact ⟨[], Or.inl fun _ => rfl⟩
  split
  · split
    · exact ⟨[], Or.inr fun _ => rfl⟩
    · exact ⟨_, Or.inr fun _ => rfl⟩
  · exact ⟨_, Or.inl fun _ => rfl⟩

theorem countChars_literal {body : Bytes} (h : LiteralChars body) :
    ∃ count, ∀ rest, countChars (body ++ quote :: rest) = .ok count := by
  induction h with
  | nil => exact ⟨0, fun rest => countChars_quote rest⟩
  | plain _ hquote hbackslash _ ih =>
      obtain ⟨count, hcount⟩ := ih
      refine ⟨count + 1, fun rest => ?_⟩
      rw [List.cons_append, countChars_char hquote hbackslash, hcount]
      rfl
  | short _ _ ih =>
      obtain ⟨count, hcount⟩ := ih
      refine ⟨count + 1, fun rest => ?_⟩
      rw [List.cons_append, List.cons_append, countChars_escape, hcount]
      rfl
  | @unicode n digits _ hdigits _ ih =>
      obtain ⟨count, hcount⟩ := ih
      refine ⟨count + digits.length + 1, fun rest => ?_⟩
      rw [List.cons_append, List.cons_append, countChars_escape, List.append_assoc,
        (decodes_raws digits hdigits.plain).count_eq, hcount]
      rfl

theorem decodeChars_literal {body : Bytes} (h : LiteralChars body) :
    ∃ stored, ∀ rest, decodeChars 0 (body ++ quote :: rest) = .ok (stored, quote :: rest) := by
  -- a surrogate takes two escapes at once
  induction hlength : body.length using Nat.strong_induction_on generalizing body with
  | h size ih =>
  subst hlength
  cases h with
  | nil => exact ⟨[], fun rest => decodeChars_quote rest⟩
  | @plain b tail _ hquote hbackslash h =>
      obtain ⟨stored, hstored⟩ := ih _ (Nat.lt_succ_self _) h rfl
      refine ⟨b :: stored, fun rest => ?_⟩
      rw [List.cons_append, decodeChars_char hquote hbackslash, hstored]
      rfl
  | @short e tail he h =>
      obtain ⟨stored, hstored⟩ := ih tail.length (by simp) h rfl
      have hne : e ≠ lowerU := by
        rintro rfl
        exact absurd he (by decide)
      refine ⟨unescape e :: stored, fun rest => ?_⟩
      rw [List.cons_append, List.cons_append, decodeChars_short hne, hstored]
      rfl
  | @unicode n digits tail hdigits h =>
      obtain ⟨stored, hstored⟩ := ih tail.length (by simp; omega) h rfl
      have hfour : ∀ first, (∀ rest, unicodeEscape (digits ++ (tail ++ quote :: rest)) = (first, 4)) →
          ∃ stored, ∀ rest, decodeChars 0 (backslash :: lowerU :: (digits ++ tail) ++ quote :: rest) =
            .ok (stored, quote :: rest) := by
        intro first hfirst
        refine ⟨first ++ stored, fun rest => ?_⟩
        rw [List.cons_append, List.cons_append, List.append_assoc, decodeChars_unicode, hfirst]
        change (decodeChars 4 (digits ++ (tail ++ quote :: rest))).map _ = _
        rw [← hdigits.length_eq, decodeChars_pending, hstored]
        rfl
      have halone : (∀ rest, ¬(peek (tail ++ quote :: rest) = backslash ∧
          peek (tail ++ quote :: rest).tail = lowerU)) → ∃ stored, ∀ rest,
          decodeChars 0 (backslash :: lowerU :: (digits ++ tail) ++ quote :: rest) =
            .ok (stored, quote :: rest) := fun hno =>
        hfour (storedAlone n) fun rest => unicodeEscape_alone hdigits (hno rest)
      cases h with
      | nil => exact halone fun rest hno => absurd hno.1 (show quote ≠ backslash by decide)
      | plain _ _ hbackslash => exact halone fun rest hno => hbackslash hno.1
      | short he =>
          apply halone
          rintro rest ⟨-, rfl⟩
          exact absurd he (by decide)
      | @unicode m digits2 tail hdigits2 h =>
          obtain ⟨first, hfirst | hfirst⟩ := unicodeEscape_pair hdigits hdigits2
          · apply hfour first
            intro rest
            rw [List.cons_append, List.cons_append, List.append_assoc]
            exact hfirst _
          · obtain ⟨stored2, hstored2⟩ := ih tail.length (by simp; omega) h rfl
            refine ⟨first ++ stored2, fun rest => ?_⟩
            have hten : (digits ++ backslash :: lowerU :: digits2).length = 10 := by
              simp [hdigits.length_eq, hdigits2.length_eq]
            have hsplit : digits ++ (backslash :: lowerU :: (digits2 ++ tail)) ++ quote :: rest =
                (digits ++ backslash :: lowerU :: digits2) ++ (tail ++ quote :: rest) := by simp
            have hwhole : digits ++ (backslash :: lowerU :: (digits2 ++ tail)) ++ quote :: rest =
                digits ++ backslash :: lowerU :: (digits2 ++ (tail ++ quote :: rest)) := by simp
            rw [List.cons_append, List.cons_append, decodeChars_unicode, hwhole, hfirst, ← hwhole]
            change (decodeChars 10 _).map _ = _
            rw [hsplit, ← hten, decodeChars_pending, hstored2]
            rfl

/-- What is read from a string literal. -/
def readLiteral (text : Bytes) : Parse Bytes := (parseString text).map Prod.fst

theorem parseString_token {text : Bytes} (h : StringLiteral text) (rest : Bytes) :
    parseString (text ++ rest) = (readLiteral text).map (·, rest) := by
  obtain ⟨body, rfl, hbody⟩ := h
  obtain ⟨count, hcount⟩ := countChars_literal hbody
  obtain ⟨stored, hstored⟩ := decodeChars_literal hbody
  have hread : ∀ rest, parseString (quote :: (body ++ quote :: rest)) =
      if count + 1 ≤ intMax then .ok (stored, rest) else .error .overflow := by
    intro rest
    rw [parseString, peek_cons, if_neg (not_not_intro rfl), List.tail_cons, hcount]
    change (if count + 1 ≤ intMax then _ else _) = _
    rw [hstored]
    rfl
  rw [List.cons_append, List.append_assoc, readLiteral]
  change parseString (quote :: (body ++ quote :: rest)) = _
  rw [hread, hread]
  split <;> rfl

/-- The parser reads RFC 8259, with any bytes up to 32 between the tokens. -/
theorem reads_lexemes {gap : Bytes → Prop} (hgap : ∀ {text}, gap text → ∀ b ∈ text, b ≤ 32) :
    Reads (fun n => (parseNumber n).1) readLiteral (lexemes gap) where
  number h hrest := by
    obtain ⟨rfl, l, rfl⟩ := h
    exact parseNumber_token l hrest
  number_head h := by
    obtain ⟨rfl, l, rfl⟩ := h
    exact l.head
  string h := by
    obtain ⟨rfl, h⟩ := h
    exact parseString_token h _
  string_head h := by
    obtain ⟨rfl, body, rfl, -⟩ := h
    exact ⟨_, rfl⟩
  gap := hgap

end RebuildTheWheel.CJson
