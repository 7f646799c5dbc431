import RebuildTheWheel.CJson.Item

namespace RebuildTheWheel.CJson

open RebuildTheWheel.Data
open RebuildTheWheel.Data.Ascii

/-! The parser of `cJSON.c`. A pointer into the text is the suffix that begins
there; the empty suffix points to the terminating NUL. -/

/-- Why a call has no result. -/
inductive Halt where
  /-- A byte beyond the terminating NUL is read. -/
  | outside
  /-- The `int` that sizes an allocation overflows. -/
  | overflow
  /-- The call returns 0 with `ep` set. -/
  | failed (ep : Bytes)
  /-- The recursion bound of the model is used up. -/
  | stuck
  deriving DecidableEq

abbrev Parse (α : Type) := Except Halt α

/-- `skip` -/
def skip : Bytes → Bytes
  | [] => []
  | c :: rest => if c ≤ 32 then skip rest else c :: rest

theorem skip_of_lt {c : UInt8} (h : 32 < c) (rest : Bytes) : skip (c :: rest) = c :: rest := by
  rw [skip, if_neg (UInt8.not_le.mpr h)]

theorem skip_skip (text : Bytes) : skip (skip text) = skip text := by
  induction text with
  | nil => rfl
  | cons c text ih =>
      rw [skip]
      split
      · exact ih
      · next hc => rw [skip, if_neg hc]

theorem skip_suffix (text : Bytes) : skip text <:+ text := by
  induction text with
  | nil => exact List.suffix_refl []
  | cons c text ih =>
      rw [skip]
      split
      · exact ih.trans (List.suffix_cons c text)
      · exact List.suffix_refl _

theorem skip_length_le (text : Bytes) : (skip text).length ≤ text.length :=
  (skip_suffix text).length_le

/-- `*p`: the NUL at the end of the text. -/
def peek : Bytes → UInt8
  | [] => 0
  | c :: _ => c

@[simp] theorem peek_nil : peek [] = 0 := rfl

@[simp] theorem peek_cons (c : UInt8) (rest : Bytes) : peek (c :: rest) = c := rfl

theorem eq_cons_of_peek {c : UInt8} (h : peek text = c) (hc : c ≠ 0) :
    text = c :: text.tail := by
  cases text with
  | nil => exact absurd h.symm hc
  | cons _ _ => rw [← h, peek_cons, List.tail_cons]

/-- A run of digits added to `n` in `double` arithmetic, with their number. -/
def readDigits (n : Binary64) : Bytes → Binary64 × Nat × Bytes
  | [] => (n, 0, [])
  | c :: rest =>
      if isDigit c then
        let (n, count, rest) := readDigits
          (Binary64.add (Binary64.mul n (Binary64.ofInt 10)) (Binary64.ofInt (Decimal.digitVal c)))
          rest
        (n, count + 1, rest)
      else (n, 0, c :: rest)

def readSubscale (subscale : Int32) : Bytes → Int32 × Bytes
  | [] => (subscale, [])
  | c :: rest =>
      if isDigit c then readSubscale (subscale * 10 + Int32.ofNat (Decimal.digitVal c)) rest
      else (subscale, c :: rest)

def readSign (num : Bytes) : Int × Bytes :=
  if peek num = minus then (-1, num.tail) else (1, num)

def readIntegral (num : Bytes) : Binary64 × Bytes :=
  let num := if peek num = zero then num.tail else num
  if 49 ≤ peek num && peek num ≤ 57 then
    let (n, _, num) := readDigits (Binary64.ofInt 0) num
    (n, num)
  else (Binary64.ofInt 0, num)

/-- The fraction is added to `n`, and `scale` goes down by one a digit. -/
def readFraction (n : Binary64) (num : Bytes) : Binary64 × Int × Bytes :=
  if peek num = point && isDigit (peek num.tail) then
    let (n, count, num) := readDigits n num.tail
    (n, -(count : Int), num)
  else (n, 0, num)

/-- `subscale * signsubscale` -/
def readExponent (num : Bytes) : Int × Bytes :=
  if peek num = lowerE || peek num = upperE then
    let num := num.tail
    let (signsubscale, num) :=
      if peek num = plus then ((1 : Int32), num.tail)
      else if peek num = minus then (-1, num.tail)
      else (1, num)
    let (subscale, num) := readSubscale 0 num
    ((subscale * signsubscale).toInt, num)
  else (0, num)

/-- `parse_number`: the number and the pointer behind it. -/
def parseNumber (num : Bytes) : Binary64 × Bytes :=
  let (sign, num) := readSign num
  let (n, num) := readIntegral num
  let (n, scale, num) := readFraction n num
  let (exponent, num) := readExponent num
  (Binary64.mul (Binary64.mul (Binary64.ofInt sign) n) (Binary64.tenPow (scale + exponent)), num)

/-- `parse_hex4`: 0 at the first byte that is not a hexadecimal digit. -/
def parseHex4 (str : Bytes) : Nat :=
  match hexVal? (peek str) with
  | none => 0
  | some a =>
      match hexVal? (peek str.tail) with
      | none => 0
      | some b =>
          match hexVal? (peek str.tail.tail) with
          | none => 0
          | some c =>
              match hexVal? (peek str.tail.tail.tail) with
              | none => 0
              | some d => (((((a <<< 4) + b) <<< 4) + c) <<< 4) + d

/-- The bytes the inner `switch (len)` of `parse_string` stores for `uc`. -/
def storeUtf8 (uc : Nat) : Bytes :=
  let low (uc : Nat) : UInt8 := UInt8.ofNat ((uc ||| 0x80) &&& 0xBF)
  if uc < 0x80 then [UInt8.ofNat uc]
  else if uc < 0x800 then [UInt8.ofNat (uc >>> 6 ||| 0xC0), low uc]
  else if uc < 0x10000 then
    [UInt8.ofNat (uc >>> 6 >>> 6 ||| 0xE0), low (uc >>> 6), low uc]
  else
    [UInt8.ofNat (uc >>> 6 >>> 6 >>> 6 ||| 0xF0), low (uc >>> 6 >>> 6), low (uc >>> 6), low uc]

/-- What `parse_string` stores for a `\u` escape whose digits are at `str`, and by
how many bytes it moves on from there. -/
def unicodeEscape (str : Bytes) : Bytes × Nat :=
  let uc := parseHex4 str
  if (0xDC00 ≤ uc && uc ≤ 0xDFFF) || uc = 0 then ([], 4)
  else if 0xD800 ≤ uc && uc ≤ 0xDBFF then
    let ptr := str.drop 4
    if peek ptr ≠ backslash || peek ptr.tail ≠ lowerU then ([], 4)
    else
      let uc2 := parseHex4 (ptr.drop 2)
      if uc2 < 0xDC00 || 0xDFFF < uc2 then ([], 10)
      else (storeUtf8 (0x10000 + (((uc &&& 0x3FF) <<< 10) ||| (uc2 &&& 0x3FF))), 10)
  else (storeUtf8 uc, 4)

/-- The byte a one-letter escape stands for. -/
def unescape (c : UInt8) : UInt8 :=
  if c = lowerB then 8
  else if c = lowerF then 12
  else if c = lowerN then 10
  else if c = lowerR then 13
  else if c = lowerT then 9
  else c

/-- The first loop of `parse_string`, from behind the opening quote: the number
of characters, an escaped one counted once. -/
def countChars : Bytes → Parse Nat
  | [] => .ok 0
  | c :: rest =>
      if c = quote then .ok 0
      else if c = backslash then
        match rest with
        | [] => .error .outside
        | _ :: rest => (· + 1) <$> countChars rest
      else (· + 1) <$> countChars rest

/-- The second loop of `parse_string`: the stored bytes and the pointer to the
closing quote or the NUL. `pending` bytes are still to be jumped over. -/
def decodeChars : Nat → Bytes → Parse (Bytes × Bytes)
  | _ + 1, [] => .error .outside
  | pending + 1, _ :: rest => decodeChars pending rest
  | 0, [] => .ok ([], [])
  | 0, c :: rest =>
      if c = quote then .ok ([], c :: rest)
      else if c ≠ backslash then do
        let (out, ptr) ← decodeChars 0 rest
        .ok (c :: out, ptr)
      else
        match rest with
        -- the NUL is copied and stepped over
        | [] => .error .outside
        | e :: rest =>
            if e = lowerU then do
              let (stored, jump) := unicodeEscape rest
              let (out, ptr) ← decodeChars jump rest
              .ok (stored ++ out, ptr)
            else do
              let (out, ptr) ← decodeChars 0 rest
              .ok (unescape e :: out, ptr)

@[simp] theorem countChars_quote (rest : Bytes) : countChars (quote :: rest) = .ok 0 := by
  rw [countChars.eq_def]
  rfl

@[simp] theorem decodeChars_quote (rest : Bytes) :
    decodeChars 0 (quote :: rest) = .ok ([], quote :: rest) := by
  rw [decodeChars.eq_def]
  rfl

theorem countChars_char {c : UInt8} (hquote : c ≠ quote) (hbackslash : c ≠ backslash)
    (rest : Bytes) : countChars (c :: rest) = (countChars rest).map (· + 1) := by
  rw [countChars.eq_def]
  simp only [if_neg hquote, if_neg hbackslash]
  rfl

theorem countChars_escape (e : UInt8) (rest : Bytes) :
    countChars (backslash :: e :: rest) = (countChars rest).map (· + 1) := by
  rw [countChars.eq_def]
  rfl

theorem decodeChars_char {c : UInt8} (hquote : c ≠ quote) (hbackslash : c ≠ backslash)
    (rest : Bytes) :
    decodeChars 0 (c :: rest) = (decodeChars 0 rest).map fun p => (c :: p.1, p.2) := by
  rw [decodeChars.eq_def]
  simp only [if_neg hquote, ne_eq, hbackslash, not_false_eq_true, if_true]
  cases decodeChars 0 rest <;> rfl

theorem decodeChars_short {e : UInt8} (he : e ≠ lowerU) (rest : Bytes) :
    decodeChars 0 (backslash :: e :: rest) =
      (decodeChars 0 rest).map fun p => (unescape e :: p.1, p.2) := by
  rw [decodeChars.eq_def]
  simp only [if_neg he]
  cases decodeChars 0 rest <;> rfl

theorem decodeChars_unicode (digits : Bytes) :
    decodeChars 0 (backslash :: lowerU :: digits) =
      (decodeChars (unicodeEscape digits).2 digits).map fun p =>
        ((unicodeEscape digits).1 ++ p.1, p.2) := by
  rw [decodeChars.eq_def]
  change (decodeChars (unicodeEscape digits).2 digits >>= _) = _
  cases decodeChars (unicodeEscape digits).2 digits <;> rfl

/-- `parse_string`: `valuestring` and the pointer behind the closing quote. -/
def parseString (str : Bytes) : Parse (Bytes × Bytes) :=
  if peek str ≠ quote then .error (.failed str)
  else do
    let len ← countChars str.tail
    if len + 1 ≤ intMax then
      let (out, ptr) ← decodeChars 0 str.tail
      .ok (out, if peek ptr = quote then ptr.tail else ptr)
    else .error .overflow

mutual

/-- `parse_value` on a new item. -/
def parseValue : Nat → Bytes → Parse (Item × Bytes)
  | 0, _ => .error .stuck
  | fuel + 1, value =>
      if nullText.isPrefixOf value then
        .ok (.node { type := ⟨.null, false, false⟩ } .null .null, value.drop 4)
      else if falseText.isPrefixOf value then
        .ok (.node { type := ⟨.false, false, false⟩ } .null .null, value.drop 5)
      else if trueText.isPrefixOf value then
        .ok (.node { type := ⟨.true, false, false⟩, valueint := 1 } .null .null, value.drop 4)
      else if peek value = quote then do
        let (out, ptr) ← parseString value
        .ok (.node { type := ⟨.string, false, false⟩, valuestring := some out } .null .null, ptr)
      else if peek value = minus || isDigit (peek value) then
        let (n, num) := parseNumber value
        .ok (.node { type := ⟨.number, false, false⟩, valueint := n.toInt32, valuedouble := n }
          .null .null, num)
      else if peek value = lbracket then parseArray fuel value
      else if peek value = lbrace then parseObject fuel value
      else .error (.failed value)

/-- `parse_array` -/
def parseArray : Nat → Bytes → Parse (Item × Bytes)
  | 0, _ => .error .stuck
  | fuel + 1, value =>
      let value := skip value.tail
      if peek value = rbracket then
        .ok (.node { type := ⟨.array, false, false⟩ } .null .null, value.tail)
      else do
        let (child, value) ← parseValue fuel (skip value)
        let (rest, value) ← parseElements fuel (skip value)
        if peek value = rbracket then
          .ok (.node { type := ⟨.array, false, false⟩ } (child.setNext rest) .null, value.tail)
        else .error (.failed value)

/-- The loop of `parse_array`: the further items. -/
def parseElements : Nat → Bytes → Parse (Item × Bytes)
  | 0, _ => .error .stuck
  | fuel + 1, value =>
      if peek value = comma then do
        let (child, value) ← parseValue fuel (skip value.tail)
        let (rest, value) ← parseElements fuel (skip value)
        .ok (child.setNext rest, value)
      else .ok (.null, value)

/-- `parse_object` -/
def parseObject : Nat → Bytes → Parse (Item × Bytes)
  | 0, _ => .error .stuck
  | fuel + 1, value =>
      let value := skip value.tail
      if peek value = rbrace then
        .ok (.node { type := ⟨.object, false, false⟩ } .null .null, value.tail)
      else do
        let (key, value) ← parseString (skip value)
        let value := skip value
        if peek value ≠ colon then .error (.failed value)
        else
          let (child, value) ← parseValue fuel (skip value.tail)
          let (rest, value) ← parseMembers fuel (skip value)
          if peek value = rbrace then
            .ok (.node { type := ⟨.object, false, false⟩ } ((child.setString key).setNext rest)
              .null, value.tail)
          else .error (.failed value)

/-- The loop of `parse_object`: the further members. -/
def parseMembers : Nat → Bytes → Parse (Item × Bytes)
  | 0, _ => .error .stuck
  | fuel + 1, value =>
      if peek value = comma then do
        let (key, value) ← parseString (skip value.tail)
        let value := skip value
        if peek value ≠ colon then .error (.failed value)
        else
          let (child, value) ← parseValue fuel (skip value.tail)
          let (rest, value) ← parseMembers fuel (skip value)
          .ok ((child.setString key).setNext rest, value)
      else .ok (.null, value)

end

/-! The part of `parse_array` and of its loop that is the same. -/

/-- An element and the further ones behind it. -/
def elementsFrom (fuel : Nat) (value : Bytes) : Parse (Item × Bytes) := do
  let (child, value) ← parseValue fuel (skip value)
  let (rest, value) ← parseElements fuel (skip value)
  .ok (child.setNext rest, value)

/-- A member and the further ones behind it. -/
def membersFrom (fuel : Nat) (value : Bytes) : Parse (Item × Bytes) := do
  let (key, value) ← parseString (skip value)
  let value := skip value
  if peek value ≠ colon then .error (.failed value)
  else
    let (child, value) ← parseValue fuel (skip value.tail)
    let (rest, value) ← parseMembers fuel (skip value)
    .ok ((child.setString key).setNext rest, value)

def closeWith (kind : Kind) (bracket : UInt8) : Item × Bytes → Parse (Item × Bytes)
  | (items, value) =>
      if peek value = bracket then
        .ok (.node { type := ⟨kind, false, false⟩ } items .null, value.tail)
      else .error (.failed value)

theorem parseElements_eq (fuel : Nat) (value : Bytes) :
    parseElements (fuel + 1) value =
      if peek value = comma then elementsFrom fuel value.tail else .ok (.null, value) := by
  rw [parseElements]
  rfl

theorem parseMembers_eq (fuel : Nat) (value : Bytes) :
    parseMembers (fuel + 1) value =
      if peek value = comma then membersFrom fuel value.tail else .ok (.null, value) := by
  rw [parseMembers]
  rfl

theorem parseArray_eq (fuel : Nat) (value : Bytes) :
    parseArray (fuel + 1) value =
      if peek (skip value.tail) = rbracket then
        .ok (.node { type := ⟨.array, false, false⟩ } .null .null, (skip value.tail).tail)
      else elementsFrom fuel value.tail >>= closeWith .array rbracket := by
  simp only [parseArray, elementsFrom, skip_skip, bind_assoc]
  rfl

theorem parseObject_eq (fuel : Nat) (value : Bytes) :
    parseObject (fuel + 1) value =
      if peek (skip value.tail) = rbrace then
        .ok (.node { type := ⟨.object, false, false⟩ } .null .null, (skip value.tail).tail)
      else membersFrom fuel value.tail >>= closeWith .object rbrace := by
  simp only [parseObject, membersFrom, skip_skip, bind_assoc]
  split
  · rfl
  · congr 1
    funext name
    split
    · rfl
    · simp only [bind_assoc]
      rfl

/-- A bound that no parse of `text` uses up. -/
def fuelFor (text : Bytes) : Nat := 2 * text.length + 2

/-- `cJSON_ParseWithOpts`: the tree and the end pointer. -/
def parseWithOpts (value : Bytes) (requireNullTerminated : Bool) : Parse (Item × Bytes) := do
  let (c, stop) ← parseValue (fuelFor value) (skip value)
  if requireNullTerminated then
    let stop := skip stop
    if peek stop ≠ 0 then .error (.failed stop) else .ok (c, stop)
  else .ok (c, stop)

end RebuildTheWheel.CJson
