import RebuildTheWheel.CJson.ParseTokens
import RebuildTheWheel.Data.JsonGrammar

namespace RebuildTheWheel.CJson

open RebuildTheWheel.Data
open RebuildTheWheel.Data.Ascii

/-! `parse_number` with `n` an exact integer. A `double` counts `scale` exactly,
`subscale` is an `int`. -/

/-- The loops that add digits to `n`, with the number of digits. -/
def addDigits (n : Nat) : Bytes → Nat × Nat × Bytes
  | [] => (n, 0, [])
  | c :: rest =>
      if isDigit c then
        let (n, count, rest) := addDigits (n * 10 + Decimal.digitVal c) rest
        (n, count + 1, rest)
      else (n, 0, c :: rest)

def exactIntegral (num : Bytes) : Nat × Bytes :=
  let num := if peek num = zero then num.tail else num
  if 49 ≤ peek num && peek num ≤ 57 then
    let (n, _, num) := addDigits 0 num
    (n, num)
  else (0, num)

def exactFraction (n : Nat) (num : Bytes) : Nat × Int × Bytes :=
  if peek num = point && isDigit (peek num.tail) then
    let (n, count, num) := addDigits n num.tail
    (n, -(count : Int), num)
  else (n, 0, num)

/-- `signsubscale`, and the pointer behind the sign. -/
def readSignsubscale (num : Bytes) : Int32 × Bytes :=
  if peek num = plus then (1, num.tail)
  else if peek num = minus then (-1, num.tail)
  else (1, num)

theorem readExponent_eq (num : Bytes) :
    readExponent num =
      if peek num = lowerE || peek num = upperE then
        let (signsubscale, num) := readSignsubscale num.tail
        let (subscale, num) := readSubscale 0 num
        ((subscale * signsubscale).toInt, num)
      else (0, num) := rfl

/-- The variables of `parse_number` before the call of `pow`. -/
structure NumberVars where
  sign : Int
  n : Nat
  scale : Int
  /-- `subscale*signsubscale` -/
  exponent : Int

/-- `sign*n*pow(10.0,(scale+subscale*signsubscale))` -/
def NumberVars.value (v : NumberVars) : ℚ :=
  v.sign * v.n * 10 ^ (v.scale + v.exponent)

def scanNumber (num : Bytes) : NumberVars × Bytes :=
  let (sign, num) := readSign num
  let (n, num) := exactIntegral num
  let (n, scale, num) := exactFraction n num
  let (exponent, num) := readExponent num
  (⟨sign, n, scale, exponent⟩, num)

/-- What the loop of the exponent assigns to `subscale`, as exact integers. -/
def subscaleSums (subscale : Int32) : Bytes → List Int
  | [] => []
  | c :: rest =>
      if isDigit c then
        (subscale.toInt * 10 + Decimal.digitVal c) ::
          subscaleSums (subscale * 10 + Int32.ofNat (Decimal.digitVal c)) rest
      else []

/-- All values assigned to `subscale` in a call of `parse_number`. -/
def assignedSubscales (num : Bytes) : List Int :=
  let (_, num) := readSign num
  let (n, num) := exactIntegral num
  let (_, _, num) := exactFraction n num
  if peek num = lowerE || peek num = upperE then
    subscaleSums 0 (readSignsubscale num.tail).2
  else []

/-! The exact reading and the one in `double` arithmetic take the same bytes, and they
agree on `n` below 2^53. -/

theorem readDigits_addDigits (text : Bytes) (n : Nat) (x : Binary64) :
    (readDigits x text).2 = (addDigits n text).2 := by
  induction text generalizing n x with
  | nil => rfl
  | cons c text ih =>
      rw [readDigits, addDigits]
      split
      · simp only [ih (n * 10 + Decimal.digitVal c)]
      · rfl

theorem le_addDigits (text : Bytes) (n : Nat) : n ≤ (addDigits n text).1 := by
  induction text generalizing n with
  | nil => exact le_rfl
  | cons c text ih =>
      rw [addDigits]
      split
      · exact (by omega : n ≤ n * 10 + Decimal.digitVal c).trans (ih _)
      · exact le_rfl

theorem readDigits_exact (text : Bytes) (n : Nat) (h : (addDigits n text).1 < 2 ^ 53) :
    readDigits (Binary64.ofInt n) text =
      (Binary64.ofInt (addDigits n text).1, (addDigits n text).2) := by
  induction text generalizing n with
  | nil => rfl
  | cons c text ih =>
      rw [addDigits] at h ⊢
      rw [readDigits]
      split
      · next hc =>
          rw [if_pos hc] at h
          have hle := (le_addDigits text (n * 10 + Decimal.digitVal c)).trans_lt h
          have hstep : Binary64.add (Binary64.mul (Binary64.ofInt n) (Binary64.ofInt 10))
              (Binary64.ofInt (Decimal.digitVal c)) =
                Binary64.ofInt ((n * 10 + Decimal.digitVal c : Nat) : Int) := by
            rw [Binary64.mul_ofInt, Binary64.add_ofInt]
            · push_cast
              rfl
            all_goals
              rw [abs_lt]
              constructor <;> omega
          simp only [hstep, ih _ h]
      · rfl

/-! A literal is read part by part. -/

/-- What may stand behind a literal that it does not continue. -/
structure NumberEnds (rest : Bytes) : Prop where
  not_digit : isDigit (peek rest) = false
  ne_point : peek rest ≠ point
  ne_lowerE : peek rest ≠ lowerE
  ne_upperE : peek rest ≠ upperE

theorem addDigits_append {rest : Bytes} (hrest : isDigit (peek rest) = false) (digits : Bytes)
    (n : Nat) (hdigits : ∀ d ∈ digits, isDigit d = true) :
    addDigits n (digits ++ rest) =
      (n * 10 ^ digits.length + Decimal.value digits, digits.length, rest) := by
  rw [← Decimal.foldl_value]
  induction digits generalizing n with
  | nil =>
      cases rest with
      | nil => rfl
      | cons b rest =>
          rw [peek_cons] at hrest
          simp [addDigits, hrest]
  | cons d digits ih =>
      have htail : ∀ d' ∈ digits, isDigit d' = true := fun d' h =>
        hdigits d' (List.mem_cons_of_mem d h)
      simp only [List.cons_append, addDigits, hdigits d List.mem_cons_self, if_true, ih _ htail,
        List.foldl_cons, List.length_cons]

theorem exactIntegral_natural {digits rest : Bytes} (h : Json.RendersNatural n digits)
    (hrest : isDigit (peek rest) = false) : exactIntegral (digits ++ rest) = (n, rest) := by
  obtain ⟨hne, hdigits, hlead, rfl⟩ := h
  cases digits with
  | nil => exact absurd rfl hne
  | cons d digits =>
      rcases zero_or_nonzero_digit d (hdigits d List.mem_cons_self) with rfl | ⟨hd, hlow, hhigh⟩
      · obtain rfl : digits = [] := (List.cons.inj (hlead rfl)).2
        simp only [exactIntegral, List.singleton_append, peek_cons, if_true, List.tail_cons,
          if_neg (not_nonzero_digit hrest)]
        rfl
      · have hread := addDigits_append hrest (d :: digits) 0 hdigits
        rw [List.cons_append, zero_mul, zero_add] at hread
        simp only [exactIntegral, List.cons_append, peek_cons, hd, if_false, hlow, hhigh,
          decide_true, Bool.and_self, if_true, hread]

theorem exactFraction_text (l : Json.NumberLiteral) {rest : Bytes}
    (hdigit : isDigit (peek rest) = false) (hpoint : peek rest ≠ point) (n : Nat) :
    exactFraction n (l.fractionText ++ rest) =
      (n * 10 ^ l.fraction.length + Decimal.value l.fraction, -(l.fraction.length : Int), rest) := by
  rw [Json.NumberLiteral.fractionText]
  split
  · next hnone =>
      simp only [List.nil_append, exactFraction, hpoint, decide_false, Bool.false_and, hnone]
      simp [Decimal.value]
  · next hsome =>
      obtain ⟨d, digits, hdigits⟩ := List.exists_cons_of_ne_nil hsome
      have hd : isDigit d = true := l.fraction_isDigit d (hdigits ▸ List.mem_cons_self)
      have hread := addDigits_append hdigit l.fraction n l.fraction_isDigit
      have hfirst : isDigit (peek (l.fraction ++ rest)) = true := by
        rw [hdigits]
        exact hd
      simp only [exactFraction, List.cons_append, peek_cons, List.tail_cons, hfirst, decide_true,
        Bool.and_self, if_true, hread]

theorem subscale_step (k d : Nat) :
    Int32.ofNat k * 10 + Int32.ofNat d = Int32.ofNat (k * 10 + d) := by
  rw [Int32.ofNat_add, Int32.ofNat_mul]
  rfl

theorem readSubscale_append {rest : Bytes} (hrest : isDigit (peek rest) = false) (digits : Bytes)
    (k : Nat) (hdigits : ∀ d ∈ digits, isDigit d = true) :
    readSubscale (Int32.ofNat k) (digits ++ rest) =
      (Int32.ofNat (digits.foldl (fun n d => n * 10 + Decimal.digitVal d) k), rest) := by
  induction digits generalizing k with
  | nil =>
      cases rest with
      | nil => rfl
      | cons b rest =>
          rw [peek_cons] at hrest
          simp [readSubscale, hrest]
  | cons d digits ih =>
      have htail : ∀ d' ∈ digits, isDigit d' = true := fun d' h =>
        hdigits d' (List.mem_cons_of_mem d h)
      rw [List.cons_append, readSubscale, if_pos (hdigits d List.mem_cons_self), subscale_step,
        ih _ htail, List.foldl_cons]

/-- The range of `int`. -/
def InIntRange (v : Int) : Prop := -2 ^ 31 ≤ v ∧ v ≤ intMax

/-- The first sum that is too large is still computed from the exact value. -/
theorem subscaleSums_inIntRange_iff {rest : Bytes} (hrest : isDigit (peek rest) = false)
    (digits : Bytes) (k : Nat) (hdigits : ∀ d ∈ digits, isDigit d = true) (hk : k ≤ intMax) :
    (∀ v ∈ subscaleSums (Int32.ofNat k) (digits ++ rest), InIntRange v) ↔
      digits.foldl (fun n d => n * 10 + Decimal.digitVal d) k ≤ intMax := by
  induction digits generalizing k with
  | nil =>
      have hnone : subscaleSums (Int32.ofNat k) rest = [] := by
        cases rest with
        | nil => rfl
        | cons b rest =>
            rw [peek_cons] at hrest
            simp [subscaleSums, hrest]
      simp [hnone, hk]
  | cons d digits ih =>
      have htail : ∀ d' ∈ digits, isDigit d' = true := fun d' h =>
        hdigits d' (List.mem_cons_of_mem d h)
      have hsum : (Int32.ofNat k).toInt * 10 + Decimal.digitVal d =
          ((k * 10 + Decimal.digitVal d : Nat) : Int) := by
        rw [Int32.toInt_ofNat_of_lt (Nat.lt_succ_of_le hk)]
        push_cast
        rfl
      rw [List.cons_append, subscaleSums, if_pos (hdigits d List.mem_cons_self), subscale_step, hsum,
        List.forall_mem_cons, List.foldl_cons]
      by_cases hfits : k * 10 + Decimal.digitVal d ≤ intMax
      · have hrange : InIntRange ((k * 10 + Decimal.digitVal d : Nat) : Int) := by
          constructor <;> omega
        rw [and_iff_right hrange]
        exact ih _ htail hfits
      · have hle := le_foldl_digits digits (k * 10 + Decimal.digitVal d)
        constructor
        · intro hrange
          exact absurd (by exact_mod_cast hrange.1.2) hfits
        · intro h
          exact absurd (hle.trans h) hfits

theorem readSignsubscale_text (sign : Json.ExponentSign) (rest : Bytes) {digits : Bytes}
    (hne : digits ≠ []) (hdigits : ∀ d ∈ digits, isDigit d = true) :
    readSignsubscale (sign.text ++ (digits ++ rest)) =
      (Int32.ofInt sign.factor, digits ++ rest) := by
  cases sign with
  | plus => rfl
  | minus => rfl
  | none =>
      obtain ⟨d, digits, rfl⟩ := List.exists_cons_of_ne_nil hne
      have hd := hdigits d List.mem_cons_self
      have hplus : d ≠ plus := by
        rintro rfl
        exact absurd hd (by decide)
      rw [readSignsubscale]
      simp only [Json.ExponentSign.text, List.nil_append, List.cons_append, peek_cons, hplus,
        isDigit_ne_minus hd, if_false]
      rfl

theorem signed_subscale (sign : Json.ExponentSign) {k : Nat} (hk : k ≤ intMax) :
    (Int32.ofNat k * Int32.ofInt sign.factor).toInt = sign.factor * k := by
  have hnat : (Int32.ofNat k).toInt = k := Int32.toInt_ofNat_of_lt (Nat.lt_succ_of_le hk)
  have hmax : k ≤ 2147483647 := hk
  have hfactor : (Int32.ofInt sign.factor).toInt = sign.factor := by cases sign <;> rfl
  have hcases : sign.factor = 1 ∨ sign.factor = -1 := by cases sign <;> decide
  rw [Int32.toInt_mul, hnat, hfactor, mul_comm]
  obtain h | h := hcases
  · rw [h, Int.bmod_eq_of_le] <;> omega
  · rw [h, Int.bmod_eq_of_le] <;> omega

/-- The exponent of a literal, where its digits stay in the range of `subscale`. -/
theorem readExponent_text (l : Json.NumberLiteral) {rest : Bytes} (hrest : NumberEnds rest)
    (hfits : l.exponentMagnitude ≤ intMax) :
    readExponent (l.exponentText ++ rest) = (l.exponentValue, rest) := by
  rw [Json.NumberLiteral.exponentText, Json.NumberLiteral.exponentValue]
  rw [Json.NumberLiteral.exponentMagnitude] at hfits
  revert hfits
  cases l.exponent with
  | none => simp [readExponent, hrest.ne_lowerE, hrest.ne_upperE]
  | some e =>
      intro hfits
      have hsign := readSignsubscale_text e.sign rest e.digits_ne_nil e.digits_isDigit
      have hread := readSubscale_append hrest.not_digit e.digits 0 e.digits_isDigit
      have hletter : (e.letter = lowerE || e.letter = upperE) = true := by
        simpa using e.letter_eq
      have hvalue := signed_subscale e.sign hfits
      rw [Option.elim_some, Json.Exponent.text, List.cons_append, List.append_assoc,
        readExponent_eq, peek_cons, if_pos hletter, List.tail_cons, hsign]
      change ((readSubscale (Int32.ofNat 0) (e.digits ++ rest)).1 * _ |>.toInt,
        (readSubscale (Int32.ofNat 0) (e.digits ++ rest)).2) = _
      rw [hread]
      exact Prod.ext hvalue rfl

theorem peek_exponentText (l : Json.NumberLiteral) {rest : Bytes} (hrest : NumberEnds rest) :
    isDigit (peek (l.exponentText ++ rest)) = false ∧ peek (l.exponentText ++ rest) ≠ point := by
  rw [Json.NumberLiteral.exponentText]
  cases l.exponent with
  | none => exact ⟨hrest.not_digit, hrest.ne_point⟩
  | some e =>
      change isDigit e.letter = false ∧ e.letter ≠ point
      obtain h | h := e.letter_eq <;> rw [h] <;> decide

theorem not_digit_fractionText (l : Json.NumberLiteral) {rest : Bytes}
    (hrest : isDigit (peek rest) = false) : isDigit (peek (l.fractionText ++ rest)) = false := by
  rw [Json.NumberLiteral.fractionText]
  split
  · exact hrest
  · rfl

theorem readSign_text (l : Json.NumberLiteral) (rest : Bytes) :
    readSign (l.signText ++ (l.integral ++ rest)) = (l.sign, l.integral ++ rest) := by
  rw [readSign, Json.NumberLiteral.signText, Json.NumberLiteral.sign]
  cases l.negative with
  | true => rfl
  | false =>
      obtain ⟨d, digits, hdigits⟩ := List.exists_cons_of_ne_nil l.integral_natural.ne_nil
      have hd : d ≠ minus :=
        isDigit_ne_minus (l.integral_natural.isDigit d (hdigits ▸ List.mem_cons_self))
      simp [hdigits, hd]

/-- The variables of `parse_number` at the end of a literal. -/
theorem scanNumber_text (l : Json.NumberLiteral) {rest : Bytes} (hrest : NumberEnds rest)
    (hfits : l.exponentMagnitude ≤ intMax) :
    scanNumber (l.text ++ rest) =
      (⟨l.sign, Decimal.value (l.integral ++ l.fraction), -(l.fraction.length : Int),
        l.exponentValue⟩, rest) := by
  obtain ⟨hdigit, hpoint⟩ := peek_exponentText l hrest
  have hsign := readSign_text l (l.fractionText ++ (l.exponentText ++ rest))
  have hintegral := exactIntegral_natural l.integral_natural (not_digit_fractionText l hdigit)
  have hfraction := exactFraction_text l hdigit hpoint (Decimal.value l.integral)
  simp only [scanNumber, Json.NumberLiteral.text, List.append_assoc, hsign, hintegral, hfraction,
    readExponent_text l hrest hfits, Decimal.value_append]

theorem assignedSubscales_text (l : Json.NumberLiteral) {rest : Bytes} (hrest : NumberEnds rest) :
    (∀ v ∈ assignedSubscales (l.text ++ rest), InIntRange v) ↔ l.exponentMagnitude ≤ intMax := by
  obtain ⟨hdigit, hpoint⟩ := peek_exponentText l hrest
  have hsign := readSign_text l (l.fractionText ++ (l.exponentText ++ rest))
  have hintegral := exactIntegral_natural l.integral_natural (not_digit_fractionText l hdigit)
  have hfraction := exactFraction_text l hdigit hpoint (Decimal.value l.integral)
  simp only [assignedSubscales, Json.NumberLiteral.text, List.append_assoc, hsign, hintegral,
    hfraction]
  rw [Json.NumberLiteral.exponentText, Json.NumberLiteral.exponentMagnitude]
  cases l.exponent with
  | none => simp [hrest.ne_lowerE, hrest.ne_upperE]
  | some e =>
      have hletter : (e.letter = lowerE || e.letter = upperE) = true := by
        simpa using e.letter_eq
      have hread := readSignsubscale_text e.sign rest e.digits_ne_nil e.digits_isDigit
      simp only [Option.elim_some, Json.Exponent.text, List.cons_append, List.append_assoc,
        peek_cons, hletter, if_true, List.tail_cons, hread]
      exact subscaleSums_inIntRange_iff hrest.not_digit e.digits 0 e.digits_isDigit (Nat.zero_le _)

theorem scanNumber_value (l : Json.NumberLiteral) {rest : Bytes} (hrest : NumberEnds rest)
    (hfits : l.exponentMagnitude ≤ intMax) : (scanNumber (l.text ++ rest)).1.value = l.value := by
  rw [scanNumber_text l hrest hfits, NumberVars.value, l.value_eq]

/-! In `double` arithmetic the parser stops where the exact reading stops, and below 2^53
it starts to round only at the call of `pow`. -/

theorem readIntegral_rest (num : Bytes) : (readIntegral num).2 = (exactIntegral num).2 := by
  simp only [readIntegral, exactIntegral]
  split_ifs
  all_goals first
    | rfl
    | exact congrArg Prod.snd (readDigits_addDigits _ 0 _)

theorem readFraction_rest (num : Bytes) (x : Binary64) (n : Nat) :
    (readFraction x num).2 = (exactFraction n num).2 := by
  rw [readFraction, exactFraction]
  split
  · have hdigits := readDigits_addDigits num.tail n x
    revert hdigits
    obtain ⟨y, count, rest⟩ := readDigits x num.tail
    obtain ⟨m, count', rest'⟩ := addDigits n num.tail
    intro hdigits
    obtain ⟨rfl, rfl⟩ := Prod.mk.inj hdigits
    rfl
  · rfl

theorem parseNumber_scan_rest (num : Bytes) : (parseNumber num).2 = (scanNumber num).2 := by
  unfold parseNumber scanNumber
  obtain ⟨sign, num⟩ := readSign num
  have hintegral := readIntegral_rest num
  revert hintegral
  dsimp only
  obtain ⟨x, num'⟩ := readIntegral num
  obtain ⟨n, num''⟩ := exactIntegral num
  intro hintegral
  obtain rfl : num' = num'' := hintegral
  have hfraction := readFraction_rest num' x n
  revert hfraction
  dsimp only
  obtain ⟨y, scale, rest⟩ := readFraction x num'
  obtain ⟨m, scale', rest'⟩ := exactFraction n num'
  intro hfraction
  obtain ⟨rfl, rfl⟩ := Prod.mk.inj hfraction
  rfl

theorem readIntegral_exact (num : Bytes) (h : (exactIntegral num).1 < 2 ^ 53) :
    readIntegral num = (Binary64.ofInt (exactIntegral num).1, (exactIntegral num).2) := by
  revert h
  simp only [readIntegral, exactIntegral]
  split_ifs
  all_goals
    intro h
    first
    | rfl
    | exact congrArg (fun p => (p.1, p.2.2)) (readDigits_exact _ 0 h)

theorem le_exactFraction (n : Nat) (num : Bytes) : n ≤ (exactFraction n num).1 := by
  rw [exactFraction]
  split
  · exact le_addDigits num.tail n
  · exact le_rfl

theorem readFraction_exact (n : Nat) (num : Bytes) (h : (exactFraction n num).1 < 2 ^ 53) :
    readFraction (Binary64.ofInt n) num =
      (Binary64.ofInt (exactFraction n num).1, (exactFraction n num).2) := by
  revert h
  rw [readFraction, exactFraction]
  split
  · have hdigits := readDigits_exact num.tail n
    revert hdigits
    obtain ⟨m, count, rest⟩ := addDigits n num.tail
    intro hdigits hm
    rw [hdigits hm]
  · intro _
    rfl

theorem parseNumber_exact (num : Bytes) (h : (scanNumber num).1.n < 2 ^ 53) :
    parseNumber num =
      (Binary64.mul (Binary64.mul (Binary64.ofInt (scanNumber num).1.sign)
        (Binary64.ofInt (scanNumber num).1.n))
        (Binary64.tenPow ((scanNumber num).1.scale + (scanNumber num).1.exponent)),
      (scanNumber num).2) := by
  revert h
  unfold parseNumber scanNumber
  obtain ⟨sign, num⟩ := readSign num
  have hintegral := readIntegral_exact num
  revert hintegral
  dsimp only
  obtain ⟨n, num'⟩ := exactIntegral num
  intro hintegral
  have hfraction := readFraction_exact n num'
  have hle := le_exactFraction n num'
  revert hfraction hle
  dsimp only at hintegral ⊢
  obtain ⟨m, scale, rest⟩ := exactFraction n num'
  intro hfraction hle h
  rw [hintegral (hle.trans_lt h)]
  dsimp only
  rw [hfraction h]

/-- What a call of `parse_number` on a literal is meant to do. -/
structure ReadsLiteral (l : Json.NumberLiteral) (rest : Bytes) : Prop where
  stops : (parseNumber (l.text ++ rest)).2 = rest
  value_eq : (scanNumber (l.text ++ rest)).1.value = l.value
  in_range : ∀ v ∈ assignedSubscales (l.text ++ rest), InIntRange v

theorem parseNumber_literal_iff (l : Json.NumberLiteral) {rest : Bytes} (hrest : NumberEnds rest) :
    ReadsLiteral l rest ↔ l.exponentMagnitude ≤ intMax := by
  constructor
  · intro h
    exact (assignedSubscales_text l hrest).mp h.in_range
  · intro hfits
    have hstops : (parseNumber (l.text ++ rest)).2 = rest := by
      rw [parseNumber_scan_rest, scanNumber_text l hrest hfits]
    exact ⟨hstops, scanNumber_value l hrest hfits, (assignedSubscales_text l hrest).mpr hfits⟩

/-- `1e4294967297` -/
def wrappingLiteral : Json.NumberLiteral where
  negative := false
  integral := [49]
  integral_natural := ⟨by decide, List.all_eq_true.mp rfl, by decide, rfl⟩
  fraction := []
  fraction_isDigit := List.all_eq_true.mp rfl
  exponent := some
    { letter := lowerE
      letter_eq := Or.inl rfl
      sign := .none
      digits := [52, 50, 57, 52, 57, 54, 55, 50, 57, 55]
      digits_ne_nil := by decide
      digits_isDigit := List.all_eq_true.mp rfl }

theorem numberEnds_nil : NumberEnds [] := ⟨by decide, by decide, by decide, by decide⟩

/-- `subscale` wraps to 1: the number is read as 10. -/
theorem parseNumber_wraps :
    (scanNumber wrappingLiteral.text).1.value = 10 ∧ ¬ReadsLiteral wrappingLiteral [] := by
  constructor
  · have hscan : (scanNumber wrappingLiteral.text).1 = ⟨1, 1, 0, 1⟩ := by rfl
    rw [hscan, NumberVars.value]
    norm_num
  · intro h
    have hlarge : (4294967297 : Int) ∈ assignedSubscales (wrappingLiteral.text ++ []) := by decide
    exact absurd (h.in_range _ hlarge).2 (by decide)

/-- `12.5e-3` -/
theorem parseNumber_literal_iff_small :
    ReadsLiteral
      { wrappingLiteral with
        integral := [49, 50]
        integral_natural := ⟨by decide, List.all_eq_true.mp rfl, by decide, rfl⟩
        fraction := [53]
        fraction_isDigit := List.all_eq_true.mp rfl
        exponent := some
          { letter := lowerE
            letter_eq := Or.inl rfl
            sign := .minus
            digits := [51]
            digits_ne_nil := by decide
            digits_isDigit := List.all_eq_true.mp rfl } } [] :=
  (parseNumber_literal_iff _ numberEnds_nil).mpr (by decide)

end RebuildTheWheel.CJson
