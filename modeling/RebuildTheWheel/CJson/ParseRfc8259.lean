import RebuildTheWheel.CJson.ParseReads
import RebuildTheWheel.CJson.ParseLiteral

namespace RebuildTheWheel.CJson

open RebuildTheWheel.Data
open RebuildTheWheel.Data.Ascii
open RebuildTheWheel.Data.Json (Lexicon RendersText)

/-! The parser reads every text of a grammar whose tokens it reads. `bytes` is
what a string of the grammar is in memory. -/

variable (bytes : σ → Bytes)

mutual

/-- The item that stands for a value. -/
def treeOf : Json Int32 σ → Item
  | .null => .node { type := ⟨.null, false, false⟩ } .null .null
  | .false => .node { type := ⟨.false, false, false⟩ } .null .null
  | .true => .node { type := ⟨.true, false, false⟩, valueint := 1 } .null .null
  | .number n =>
      .node { type := ⟨.number, false, false⟩, valueint := n,
              valuedouble := Binary64.ofInt n.toInt } .null .null
  | .string s =>
      .node { type := ⟨.string, false, false⟩, valuestring := some (bytes s) } .null .null
  | .array elements => .node { type := ⟨.array, false, false⟩ } (elementsOf elements) .null
  | .object members => .node { type := ⟨.object, false, false⟩ } (membersOf members) .null

def elementsOf : List (Json Int32 σ) → Item
  | [] => .null
  | v :: elements => (treeOf v).setNext (elementsOf elements)

def membersOf : List (σ × Json Int32 σ) → Item
  | [] => .null
  | (key, v) :: members => ((treeOf v).setString (bytes key)).setNext (membersOf members)

end

structure Readable (lexicon : Lexicon Int32 σ) : Prop where
  number : ∀ {n text rest}, lexicon.number n text → Follows rest →
    parseNumber (text ++ rest) = (Binary64.ofInt n.toInt, rest)
  number_head : ∀ {n text}, lexicon.number n text →
    ∃ d digits, text = d :: digits ∧ (d = minus ∨ isDigit d = true)
  string : ∀ {s text rest}, lexicon.string s text →
    parseString (text ++ rest) = .ok (bytes s, rest)
  string_head : ∀ {s text}, lexicon.string s text → ∃ body, text = quote :: body
  gap : ∀ {text}, lexicon.gap text → ∀ b ∈ text, b ≤ 32

theorem Readable.reads {lexicon : Lexicon Int32 σ} (hlex : Readable bytes lexicon) :
    Reads (fun n => Binary64.ofInt n.toInt) (fun s => .ok (bytes s)) lexicon where
  number := hlex.number
  number_head := hlex.number_head
  string := hlex.string
  string_head := hlex.string_head
  gap := hlex.gap

mutual

theorem readItem_eq : ∀ v : Json Int32 σ,
    readItem (fun n => Binary64.ofInt n.toInt) (fun s => .ok (bytes s)) v = .ok (treeOf bytes v)
  | .null => rfl
  | .false => rfl
  | .true => rfl
  | .number n => by
      rw [readItem, treeOf, Binary64.toInt32_ofInt]
  | .string s => rfl
  | .array elements => by
      rw [readItem, treeOf, readElements_eq elements]
      rfl
  | .object members => by
      rw [readItem, treeOf, readMembers_eq members]
      rfl

theorem readElements_eq : ∀ elements : List (Json Int32 σ),
    readElements (fun n => Binary64.ofInt n.toInt) (fun s => .ok (bytes s)) elements =
      .ok (elementsOf bytes elements)
  | [] => rfl
  | v :: elements => by
      rw [readElements, readItem_eq v, readElements_eq elements]
      rfl

theorem readMembers_eq : ∀ members : List (σ × Json Int32 σ),
    readMembers (fun n => Binary64.ofInt n.toInt) (fun s => .ok (bytes s)) members =
      .ok (membersOf bytes members)
  | [] => rfl
  | (key, v) :: members => by
      rw [readMembers, readItem_eq v, readMembers_eq members]
      rfl

end

theorem parseWithOpts_readable {bytes : σ → Bytes} {lexicon : Lexicon Int32 σ} {v : Json Int32 σ}
    (hlex : Readable bytes lexicon) (h : RendersText lexicon v text) :
    parseWithOpts text true = .ok (treeOf bytes v, []) := by
  rw [parseWithOpts_renders hlex.reads h, readItem_eq]
  rfl

end RebuildTheWheel.CJson

namespace RebuildTheWheel.CJson

open RebuildTheWheel.Data
open RebuildTheWheel.Data.Ascii
open RebuildTheWheel.Data.Json (Lexicon RendersChar RendersChars RendersText)

/-! The strings of RFC 8259 are sequences of characters; in memory they are
UTF-8. -/

theorem continuation_byte (n : Nat) : ((n ||| 0x80) &&& 0xBF) = n % 0x40 + 0x80 := by
  have hbyte : ∀ m < 2 ^ 8, ((m ||| 0x80) &&& 0xBF) = m % 0x40 + 0x80 := by decide +kernel
  have hmod : ((n ||| 0x80) &&& 0xBF) = ((n % 2 ^ 8 ||| 0x80) &&& 0xBF) := by
    have hle : ((n ||| 0x80) &&& 0xBF) < 2 ^ 8 := Nat.and_lt_two_pow _ (by norm_num)
    rw [← Nat.mod_eq_of_lt hle, Nat.and_mod_two_pow, Nat.or_mod_two_pow]
  rw [hmod, hbyte _ (Nat.mod_lt _ (by norm_num))]
  omega

theorem lead_byte (k mark : Nat) {n : Nat} (hn : n < 2 ^ k) : n ||| 2 ^ k * mark = n + 2 ^ k * mark := by
  rw [Nat.or_comm, ← Nat.two_pow_add_eq_or_of_lt hn, Nat.add_comm]

theorem storeUtf8_toNat (c : Char) : storeUtf8 c.toNat = String.utf8EncodeChar c := by
  have hvalid : c.val.toNat < 0x110000 := by
    have := c.valid
    simp only [UInt32.isValidChar, Nat.isValidChar] at this
    omega
  change storeUtf8 c.val.toNat = _
  unfold storeUtf8 String.utf8EncodeChar
  revert hvalid
  generalize c.val.toNat = n
  intro hvalid
  simp only [continuation_byte, Nat.shiftRight_eq_div_pow, Nat.div_div_eq_div_mul,
    Nat.reducePow, Nat.lt_succ_iff.symm]
  have h2 : n < 0x800 → n / 64 ||| 0xC0 = n / 64 % 0x20 + 0xC0 := by
    intro h
    rw [Nat.mod_eq_of_lt (by omega)]
    exact lead_byte 6 3 (by omega)
  have h3 : n < 0x10000 → n / 4096 ||| 0xE0 = n / 4096 % 0x10 + 0xE0 := by
    intro h
    rw [Nat.mod_eq_of_lt (by omega)]
    exact lead_byte 5 7 (by omega)
  have h4 : n / 262144 ||| 0xF0 = n / 262144 % 0x08 + 0xF0 := by
    rw [Nat.mod_eq_of_lt (by omega)]
    exact lead_byte 4 15 (by omega)
  split_ifs with hone htwo hthree
  · rfl
  · rw [h2 (by omega)]
  · rw [h3 (by omega)]
  · rw [h4]

theorem utf8_plain {c : Char} (hquote : c ≠ '"') (hbackslash : c ≠ '\\') :
    ∀ b ∈ String.utf8EncodeChar c, b ≠ quote ∧ b ≠ backslash := by
  have hsmall : ∀ d : Char, c ≠ d → c.val.toNat ≠ d.val.toNat := by
    intro d hd h
    exact hd (Char.ext (UInt32.toNat_inj.mp h))
  have h34 := hsmall '"' hquote
  have h92 := hsmall '\\' hbackslash
  change c.val.toNat ≠ 34 at h34
  change c.val.toNat ≠ 92 at h92
  unfold String.utf8EncodeChar
  revert h34 h92
  generalize c.val.toNat = n
  intro h34 h92 b hb
  have hquoteNat : quote.toNat = 34 := rfl
  have hbackslashNat : backslash.toNat = 92 := rfl
  simp only at hb
  split_ifs at hb <;>
    simp only [List.mem_cons, List.not_mem_nil, or_false] at hb <;>
    rcases hb with rfl | rfl | rfl | rfl <;>
    simp only [ne_eq, ← UInt8.toNat_inj, UInt8.toNat_ofNat', hquoteNat, hbackslashNat] <;>
    omega

theorem unescape_shortEscape (e : UInt8) (h : Json.shortEscape? e = some c) :
    e ≠ lowerU ∧ [unescape e] = String.utf8EncodeChar c := by
  unfold Json.shortEscape? at h
  split_ifs at h <;> cases h <;> subst e <;> exact ⟨by decide, rfl⟩

theorem not_surrogate (c : Char) : c.toNat < 0xD800 ∨ 0xDFFF < c.toNat := by
  have := c.valid
  simp only [UInt32.isValidChar, Nat.isValidChar] at this
  change c.val.toNat < _ ∨ _ < c.val.toNat
  omega

theorem unicodeEscape_char {c : Char} (hc : c.toNat ≠ 0) (h : Json.Hex4 c.toNat digits)
    (rest : Bytes) :
    unicodeEscape (digits ++ rest) = (String.utf8EncodeChar c, digits.length) := by
  have hplain := not_surrogate c
  rw [unicodeEscape, parseHex4_digits h, h.length_eq, ← storeUtf8_toNat]
  simp only [Bool.or_eq_true, Bool.and_eq_true, decide_eq_true_eq]
  rw [if_neg (by omega), if_neg (by omega)]

theorem and_mod {n : Nat} : n &&& 0x3FF = n % 0x400 :=
  Nat.and_two_pow_sub_one_eq_mod n 10

theorem unicodeEscape_surrogates {c : Char} {high low : Nat} {first second : Bytes}
    (hfirst : Json.Hex4 (0xD800 + high) first) (hsecond : Json.Hex4 (0xDC00 + low) second)
    (hhigh : high < 0x400) (hlow : low < 0x400)
    (hc : c.toNat = 0x10000 + high * 0x400 + low) (rest : Bytes) :
    unicodeEscape ((first ++ backslash :: lowerU :: second) ++ rest) =
      (String.utf8EncodeChar c, (first ++ backslash :: lowerU :: second).length) := by
  have hlength : (first ++ backslash :: lowerU :: second).length = 10 := by
    simp [hfirst.length_eq, hsecond.length_eq]
  have hdrop : ((first ++ backslash :: lowerU :: second) ++ rest).drop 4 =
      backslash :: lowerU :: (second ++ rest) := by
    rw [List.append_assoc, ← hfirst.length_eq, List.drop_left]
    rfl
  have huc : 0x10000 + (((0xD800 + high) &&& 0x3FF) <<< 10 ||| (0xDC00 + low) &&& 0x3FF) =
      c.toNat := by
    rw [and_mod, and_mod, Nat.shiftLeft_eq, Nat.mul_comm, ← Nat.two_pow_add_eq_or_of_lt (by omega)]
    omega
  have hread : parseHex4 ((first ++ backslash :: lowerU :: second) ++ rest) = 0xD800 + high := by
    rw [List.append_assoc]
    exact parseHex4_digits hfirst _
  rw [hlength, unicodeEscape, hread, hdrop]
  simp only [Bool.or_eq_true, Bool.and_eq_true, decide_eq_true_eq, peek_cons, List.tail_cons,
    ne_eq, not_true, or_self, if_false, List.drop_succ_cons, List.drop_zero,
    parseHex4_digits hsecond, huc, storeUtf8_toNat]
  rw [if_neg (by omega), if_pos (by omega), if_neg (by omega)]

theorem countChars_surrogates (hfirst : Json.Hex4 n first) (hsecond : Json.Hex4 m second)
    (rest : Bytes) :
    countChars ((first ++ backslash :: lowerU :: second) ++ rest) =
      (countChars rest).map (· + 9) := by
  rw [List.append_assoc, (decodes_raws _ hfirst.plain).count_eq, List.cons_append,
    List.cons_append, countChars_escape, (decodes_raws _ hsecond.plain).count_eq,
    hfirst.length_eq, hsecond.length_eq, except_map_map, except_map_map]

theorem decodes_char (hc : c.toNat ≠ 0) (h : RendersChar c text) :
    ∃ count, Decodes text (String.utf8EncodeChar c) count := by
  cases h with
  | unescaped _ hquote hbackslash =>
      exact ⟨_, decodes_raws _ (utf8_plain hquote hbackslash)⟩
  | short hshort =>
      obtain ⟨he, hstored⟩ := unescape_shortEscape _ hshort
      rw [← hstored]
      exact ⟨_, decodes_short he⟩
  | unicode hdigits =>
      exact ⟨_, decodes_unicode (decodes_raws _ hdigits.plain).count_eq
        (unicodeEscape_char hc hdigits)⟩
  | surrogates hfirst hsecond hhigh hlow hvalue =>
      exact ⟨_, decodes_unicode (countChars_surrogates hfirst hsecond)
        (unicodeEscape_surrogates hfirst hsecond hhigh hlow hvalue)⟩

/-- A string without U+0000. -/
abbrev Text := { s : List Char // Char.ofNat 0 ∉ s }

def Text.utf8 (s : Text) : Bytes := s.1.flatMap String.utf8EncodeChar

theorem decodes_chars (h : RendersChars chars text) (hnul : Char.ofNat 0 ∉ chars) :
    ∃ count, Decodes text (chars.flatMap String.utf8EncodeChar) count := by
  induction h with
  | nil => exact ⟨0, Decodes.nil⟩
  | @cons c text chars rest hc _ ih =>
      simp only [List.mem_cons, not_or] at hnul
      have hc0 : c.toNat ≠ 0 := by
        intro h0
        exact hnul.1 (Char.ext (UInt32.toNat_inj.mp h0.symm))
      obtain ⟨count, hfirst⟩ := decodes_char hc0 hc
      obtain ⟨count', hrest⟩ := ih hnul.2
      exact ⟨_, hfirst.append hrest⟩

/-! The grammar of RFC 8259 over the values the parser can represent. -/

/-- `admits` restricts the string literals by what stands between the quotes. -/
def rfc8259 (admits : Bytes → Prop) : Lexicon Int32 Text where
  number n text := Json.RendersInteger n.toInt text
  string s text := ∃ body, text = quote :: (body ++ [quote]) ∧ RendersChars s.1 body ∧ admits body
  gap := Json.Whitespace

/-- The characters between the quotes, an escape sequence's first two bytes
counted as one, and the NUL behind them have an `int` number. -/
def LiteralFits (body : Bytes) : Prop :=
  ∃ count, countChars (body ++ [quote]) = .ok count ∧ count + 1 ≤ intMax

theorem readable_rfc8259 : Readable Text.utf8 (rfc8259 LiteralFits) where
  number {n text rest} h hrest := parseNumber_integer h (Binary64.abs_toInt_lt n) hrest
  number_head h := Json.RendersInteger.head h
  string {s text rest} h := by
    obtain ⟨body, rfl, hchars, count, hcount, hfits⟩ := h
    obtain ⟨count', hdecodes⟩ := decodes_chars hchars s.2
    have hsame : count' = count := by
      have := hdecodes.count_eq [quote]
      rw [hcount, countChars_quote] at this
      exact (Except.ok.inj this).symm ▸ by simp
    rw [List.cons_append, List.append_assoc]
    exact parseString_literal hdecodes (hsame ▸ hfits)
  string_head h := by
    obtain ⟨body, rfl, _⟩ := h
    exact ⟨_, rfl⟩
  gap h b hb := by
    rcases h b hb with rfl | rfl | rfl | rfl <;> decide

theorem parseWithOpts_rfc8259 (v : Json Int32 Text) (text : Bytes)
    (h : RendersText (rfc8259 LiteralFits) v text) :
    parseWithOpts text true = .ok (treeOf Text.utf8 v, []) :=
  parseWithOpts_readable readable_rfc8259 h

/-- `[ 7 ]` -/
theorem parseWithOpts_rfc8259_array :
    parseWithOpts [lbracket, space, 55, space, rbracket] true =
      .ok (treeOf Text.utf8 (.array [.number 7]), []) := by
  have hseven : Json.RendersNatural 7 [55] :=
    ⟨by decide, List.forall_mem_singleton.mpr (by decide), by decide, rfl⟩
  have hspace : Json.Whitespace [space] := by
    intro b hb
    exact Or.inl (List.mem_singleton.mp hb)
  have hnil : Json.Whitespace [] := by
    intro b hb
    cases hb
  have helements : Json.RendersElements (rfc8259 LiteralFits) [.number 7]
      ([space] ++ ([55] ++ [space])) :=
    .last hspace (.number (.plain hseven)) hspace
  exact parseWithOpts_rfc8259 (.array [.number 7]) ([] ++ (_ ++ [])) (.intro hnil (.array helements) hnil)

theorem parseWithOpts_long_literal {body : Bytes} (hbody : ∀ b ∈ body, b ≠ quote ∧ b ≠ backslash)
    (hlong : intMax ≤ body.length) :
    parseWithOpts (quote :: (body ++ [quote])) true = .error .overflow := by
  have hcount : countChars (body ++ [quote]) = .ok body.length := by
    rw [(decodes_raws body hbody).count_eq, countChars_quote]
    simp [Except.map]
  have hstring : parseString (quote :: (body ++ [quote])) = .error .overflow := by
    simp only [parseString, peek_cons, ne_eq, not_true, if_false, List.tail_cons, hcount]
    exact if_neg (by omega)
  rw [parseWithOpts, skip_of_lt (by decide), fuelFor, parseValue_quote, hstring]
  rfl

def repeatedA (n : Nat) : Text :=
  ⟨List.replicate n 'a', fun h => absurd (List.eq_of_mem_replicate h) (by decide)⟩

theorem rendersChars_replicate (n : Nat) :
    RendersChars (List.replicate n 'a') (List.replicate n 97) := by
  induction n with
  | zero => exact .nil
  | succ n ih =>
      rw [List.replicate_succ, List.replicate_succ]
      have ha : RendersChar 'a' [97] := .unescaped (by decide) (by decide) (by decide)
      exact .cons ha ih

theorem rendersText_repeatedA (n : Nat) :
    RendersText (rfc8259 fun _ => True) (.string (repeatedA n))
      (quote :: (List.replicate n 97 ++ [quote])) := by
  have hnil : Json.Whitespace [] := by
    intro b hb
    cases hb
  have hstring : Json.Renders (rfc8259 fun _ => True) (.string (repeatedA n))
      (quote :: (List.replicate n 97 ++ [quote])) :=
    .string ⟨_, rfl, rendersChars_replicate n, trivial⟩
  simpa using RendersText.intro hnil hstring hnil

theorem parseWithOpts_repeatedA {n : Nat} (hn : intMax ≤ n) :
    parseWithOpts (quote :: (List.replicate n 97 ++ [quote])) true = .error .overflow := by
  apply parseWithOpts_long_literal
  · intro b hb
    obtain rfl := List.eq_of_mem_replicate hb
    decide
  · rwa [List.length_replicate]

theorem parseWithOpts_long_string :
    RendersText (rfc8259 fun _ => True) (.string (repeatedA (2 ^ 31 - 1)))
        (quote :: (List.replicate (2 ^ 31 - 1) 97 ++ [quote])) ∧
      parseWithOpts (quote :: (List.replicate (2 ^ 31 - 1) 97 ++ [quote])) true =
        .error .overflow :=
  ⟨rendersText_repeatedA _, parseWithOpts_repeatedA (Nat.le_refl _)⟩

end RebuildTheWheel.CJson

namespace RebuildTheWheel.CJson

open RebuildTheWheel.Data
open RebuildTheWheel.Data.Ascii
open RebuildTheWheel.Data.Json (RendersChar)

/-! Every way of writing a character in a literal. -/

/-- A character may also stand for itself where RFC 8259 wants an escape. -/
inductive Writes : Char → Bytes → Prop where
  | raw : c ≠ '"' → c ≠ '\\' → Writes c (String.utf8EncodeChar c)
  | escaped : RendersChar c text → Writes c text

inductive WritesText : List Char → Bytes → Prop where
  | nil : WritesText [] []
  | cons : Writes c text → WritesText chars rest → WritesText (c :: chars) (text ++ rest)

theorem decodes_written (hc : c.toNat ≠ 0) (h : Writes c text) :
    ∃ count, Decodes text (String.utf8EncodeChar c) count := by
  cases h with
  | raw hquote hbackslash => exact ⟨_, decodes_raws _ (utf8_plain hquote hbackslash)⟩
  | escaped h => exact decodes_char hc h

theorem decodes_writtenText (h : WritesText chars text) (hnul : Char.ofNat 0 ∉ chars) :
    ∃ count, Decodes text (chars.flatMap String.utf8EncodeChar) count := by
  induction h with
  | nil => exact ⟨0, Decodes.nil⟩
  | @cons c text chars rest hc _ ih =>
      simp only [List.mem_cons, not_or] at hnul
      have hc0 : c.toNat ≠ 0 := by
        intro h0
        exact hnul.1 (Char.ext (UInt32.toNat_inj.mp h0.symm))
      obtain ⟨count, hfirst⟩ := decodes_written hc0 hc
      obtain ⟨count', hrest⟩ := ih hnul.2
      exact ⟨_, hfirst.append hrest⟩

theorem countFits_iff (h : Decodes text stored count) (rest : Bytes) :
    CountFits (text ++ quote :: rest) ↔ count + 1 ≤ intMax := by
  have hcount := countChars_outcome (text ++ quote :: rest)
  rw [h.count_eq, countChars_quote] at hcount
  cases hcount with
  | ended _ hcount =>
      simp only [CountFits, ← hcount, Nat.zero_add]

/-- Behind the closing quote of a literal whose characters have an `int` number. -/
theorem parseString_written (h : WritesText chars body) (hnul : Char.ofNat 0 ∉ chars)
    (rest : Bytes) (hcount : CountFits (body ++ quote :: rest)) :
    parseString (quote :: (body ++ quote :: rest)) =
      .ok (chars.flatMap String.utf8EncodeChar, rest) := by
  obtain ⟨count, hdecodes⟩ := decodes_writtenText h hnul
  exact parseString_literal hdecodes ((countFits_iff hdecodes rest).mp hcount)

/-- U+1D11E as a surrogate pair. -/
theorem parseString_clef :
    parseString [quote, backslash, lowerU, 68, 56, 51, 52, backslash, lowerU, 100, 100, 49, 101,
        quote, 44] = .ok ([0xF0, 0x9D, 0x84, 0x9E], [44]) := by
  have hfirst : Json.Hex4 (((13 * 16 + 8) * 16 + 3) * 16 + 4) [68, 56, 51, 52] :=
    .intro rfl rfl rfl rfl
  have hsecond : Json.Hex4 (((13 * 16 + 13) * 16 + 1) * 16 + 14) [100, 100, 49, 101] :=
    .intro rfl rfl rfl rfl
  have hclef : Writes (Char.ofNat 0x1D11E) _ :=
    .escaped (.surrogates (show Json.Hex4 (0xD800 + 0x34) _ from hfirst)
      (show Json.Hex4 (0xDC00 + 0x11E) _ from hsecond) (by decide) (by decide) (by decide))
  have hcount : CountFits (([backslash, lowerU, 68, 56, 51, 52, backslash, lowerU, 100, 100, 49, 101] ++
      []) ++ [quote, 44]) := by
    rw [CountFits]
    decide
  exact parseString_written (.cons hclef .nil) (by decide) [44] hcount

theorem writesText_replicate (n : Nat) :
    WritesText (List.replicate n 'a') (List.replicate n 97) := by
  induction n with
  | zero => exact .nil
  | succ n ih =>
      rw [List.replicate_succ, List.replicate_succ]
      have ha : Writes 'a' [97] := .raw (by decide) (by decide)
      exact .cons ha ih

theorem parseString_replicate {n : Nat} (hn : intMax ≤ n) (rest : Bytes) :
    parseString (quote :: (List.replicate n 97 ++ quote :: rest)) = .error .overflow := by
  have hplain : ∀ b ∈ List.replicate n (97 : UInt8), b ≠ quote ∧ b ≠ backslash := by
    intro b hb
    obtain rfl := List.eq_of_mem_replicate hb
    decide
  have hcount : countChars (List.replicate n 97 ++ quote :: rest) = .ok n := by
    rw [(decodes_raws _ hplain).count_eq, countChars_quote, List.length_replicate]
    simp [Except.map]
  simp only [parseString, peek_cons, ne_eq, not_true, if_false, List.tail_cons, hcount]
  exact if_neg (by omega)

theorem parseString_too_long :
    WritesText (List.replicate (2 ^ 31 - 1) 'a') (List.replicate (2 ^ 31 - 1) 97) ∧
      parseString (quote :: (List.replicate (2 ^ 31 - 1) 97 ++ quote :: [])) = .error .overflow :=
  ⟨writesText_replicate _, parseString_replicate (Nat.le_refl _) []⟩

end RebuildTheWheel.CJson
