import RebuildTheWheel.Data.JsonGrammar

namespace RebuildTheWheel.Nginx

open Data Data.Ascii Data.Json

/-! `ngx_escape_html` and `ngx_escape_json`. -/

namespace EscapeText

abbrev lt : UInt8 := 60
abbrev gt : UInt8 := 62
abbrev ampersand : UInt8 := 38
abbrev backspace : UInt8 := 8
abbrev formFeed : UInt8 := 12

/-- `sizeof("&lt;") - 2` and its like -/
def htmlExtra (ch : UInt8) : Nat :=
  if ch = lt then 3
  else if ch = gt then 3
  else if ch = ampersand then 4
  else if ch = quote then 5
  else 0

/-- `&lt;`, `&gt;`, `&amp;`, `&quot;` -/
def htmlBytes (ch : UInt8) : Bytes :=
  if ch = lt then [ampersand, 108, 116, 59]
  else if ch = gt then [ampersand, 103, 116, 59]
  else if ch = ampersand then [ampersand, 97, 109, 112, 59]
  else if ch = quote then [ampersand, 113, 117, 111, 116, 59]
  else [ch]

/-- `sizeof("\\u001F") - 2` behind the short escapes -/
def jsonExtra (ch : UInt8) : Nat :=
  if ch = backslash ∨ ch = quote then 1
  else if ch ≤ 0x1f then
    if ch = newline ∨ ch = carriageReturn ∨ ch = tab ∨ ch = backspace ∨ ch = formFeed then 1 else 5
  else 0

/-- `u00XX` -/
def unicodeEscape (ch : UInt8) : Bytes :=
  let low := ch &&& 0xf
  [lowerU, zero, zero, zero + ch >>> 4, if low < 10 then zero + low else 65 + low - 10]

def jsonBytes (ch : UInt8) : Bytes :=
  if ch > 0x1f then
    if ch = backslash ∨ ch = quote then [backslash, ch] else [ch]
  else
    backslash ::
      if ch = newline then [lowerN]
      else if ch = carriageReturn then [lowerR]
      else if ch = tab then [lowerT]
      else if ch = backspace then [lowerB]
      else if ch = formFeed then [lowerF]
      else unicodeEscape ch

end EscapeText

open EscapeText

/-- The call with `dst == NULL` -/
def escapeHtmlSize : Bytes → Nat
  | [] => 0
  | ch :: src => htmlExtra ch + escapeHtmlSize src

def escapeHtml : Bytes → Bytes
  | [] => []
  | ch :: src => htmlBytes ch ++ escapeHtml src

/-- The call with `dst == NULL` -/
def escapeJsonSize : Bytes → Nat
  | [] => 0
  | ch :: src => jsonExtra ch + escapeJsonSize src

def escapeJson : Bytes → Bytes
  | [] => []
  | ch :: src => jsonBytes ch ++ escapeJson src

namespace EscapeText

theorem length_htmlBytes : ∀ ch : UInt8, (htmlBytes ch).length = 1 + htmlExtra ch := by
  apply forall_byte
  decide

theorem htmlBytes_plain :
    ∀ ch : UInt8, (htmlBytes ch).all fun c => c ≠ lt ∧ c ≠ gt ∧ c ≠ quote := by
  apply forall_byte
  decide

theorem length_escapeHtml (src : Bytes) :
    (escapeHtml src).length = src.length + escapeHtmlSize src := by
  induction src with
  | nil => rfl
  | cons ch src ih =>
      rw [escapeHtml, escapeHtmlSize, List.length_append, length_htmlBytes, ih, List.length_cons]
      omega

theorem length_jsonBytes : ∀ ch : UInt8, (jsonBytes ch).length = 1 + jsonExtra ch := by
  apply forall_byte
  decide

theorem jsonBytes_printable : ∀ ch : UInt8, (jsonBytes ch).all fun c => 32 ≤ c := by
  apply forall_byte
  decide

theorem length_escapeJson (src : Bytes) :
    (escapeJson src).length = src.length + escapeJsonSize src := by
  induction src with
  | nil => rfl
  | cons ch src ih =>
      rw [escapeJson, escapeJsonSize, List.length_append, length_jsonBytes, ih, List.length_cons]
      omega

theorem unicodeEscape_digits : ∀ ch : UInt8, ch ≤ 0x1f →
    ∃ digits, unicodeEscape ch = lowerU :: digits ∧ Hex4 ch.toNat digits := by
  intro ch hch
  have hhigh : ∀ ch : UInt8, ch ≤ 0x1f → hexVal? (zero + ch >>> 4) = some (ch.toNat / 16) := by
    apply forall_byte
    decide
  have hlow : ∀ ch : UInt8, hexVal? (if ch &&& 0xf < 10 then zero + (ch &&& 0xf)
      else 65 + (ch &&& 0xf) - 10) = some (ch.toNat % 16) := by
    apply forall_byte
    decide
  have hzero : hexVal? zero = some 0 := by decide
  have hhex := Hex4.intro hzero hzero (hhigh ch hch) (hlow ch)
  rw [show ((0 * 16 + 0) * 16 + ch.toNat / 16) * 16 + ch.toNat % 16 = ch.toNat by omega] at hhex
  exact ⟨_, rfl, hhex⟩

theorem utf8EncodeChar_control : ∀ ch : UInt8, ch ≤ 0x1f →
    (Char.ofNat ch.toNat).toNat = ch.toNat ∧ String.utf8EncodeChar (Char.ofNat ch.toNat) = [ch] := by
  apply forall_byte
  decide

theorem denotes_short {rest s : Bytes} {e : UInt8} {c : Char} (he : shortEscape? e = some c)
    {ch : UInt8} (hc : String.utf8EncodeChar c = [ch]) (h : Denotes rest s) :
    Denotes (backslash :: e :: rest) (ch :: s) := by
  have hshort := Denotes.short he h
  rwa [hc] at hshort

/-- The bytes for a byte denote it. -/
theorem denotes_jsonBytes (ch : UInt8) {rest s : Bytes} (h : Denotes rest s) :
    Denotes (jsonBytes ch ++ rest) (ch :: s) := by
  rw [jsonBytes]
  split
  · next hprintable =>
    split
    · next hescaped =>
      rcases hescaped with rfl | rfl
      · exact denotes_short (c := '\\') rfl (by decide) h
      · exact denotes_short (c := '"') rfl (by decide) h
    · next hplain =>
      obtain ⟨hback, hquote⟩ := not_or.mp hplain
      exact .plain (UInt8.lt_iff_toNat_lt.mp hprintable) hquote hback h
  · next hcontrol =>
    have hcontrol : ch ≤ 0x1f := UInt8.not_lt.mp hcontrol
    split_ifs with hn hr ht hb hf
    · exact hn ▸ denotes_short (c := '\n') rfl (by decide) h
    · exact hr ▸ denotes_short (c := '\r') rfl (by decide) h
    · exact ht ▸ denotes_short (c := '\t') rfl (by decide) h
    · exact hb ▸ denotes_short (c := '\x08') rfl (by decide) h
    · exact hf ▸ denotes_short (c := '\x0c') rfl (by decide) h
    · obtain ⟨digits, hdigits, hhex⟩ := unicodeEscape_digits ch hcontrol
      obtain ⟨hcode, hencode⟩ := utf8EncodeChar_control ch hcontrol
      rw [← hcode] at hhex
      have hunicode := Denotes.unicode hhex h
      rw [hencode] at hunicode
      rwa [hdigits]

theorem denotes_escapeJson (src : Bytes) : Denotes (escapeJson src) src := by
  induction src with
  | nil => exact .nil
  | cons ch src ih => exact denotes_jsonBytes ch ih

theorem escapeJson_eq (src : Bytes) : escapeJson src = src.flatMap jsonBytes := by
  induction src with
  | nil => rfl
  | cons ch src ih => rw [escapeJson, ih, List.flatMap_cons]

theorem escapeHtml_eq (src : Bytes) : escapeHtml src = src.flatMap htmlBytes := by
  induction src with
  | nil => rfl
  | cons ch src ih => rw [escapeHtml, ih, List.flatMap_cons]

/-- What holds of the bytes for each byte holds of the whole text. -/
theorem forall_mem_flatMap {f : UInt8 → Bytes} {p : UInt8 → Bool} (h : ∀ ch, (f ch).all p)
    (src : Bytes) : ∀ c ∈ src.flatMap f, p c := by
  intro c hc
  obtain ⟨ch, -, hmem⟩ := List.mem_flatMap.mp hc
  exact List.all_eq_true.mp (h ch) c hmem

theorem escapeJson_printable (src : Bytes) : ∀ c ∈ escapeJson src, 32 ≤ c := by
  intro c hc
  rw [escapeJson_eq] at hc
  exact of_decide_eq_true (forall_mem_flatMap jsonBytes_printable src c hc)

theorem escapeHtml_plain (src : Bytes) : ∀ c ∈ escapeHtml src, c ≠ lt ∧ c ≠ gt ∧ c ≠ quote := by
  intro c hc
  rw [escapeHtml_eq] at hc
  exact of_decide_eq_true (forall_mem_flatMap htmlBytes_plain src c hc)

/-- The passes agree, and the JSON text is what stands between the quotes of a literal for `src`
and for nothing else. -/
theorem escape_exact (src : Bytes) :
    ((escapeJson src).length = src.length + escapeJsonSize src ∧
      LiteralChars (escapeJson src) ∧ (∀ c ∈ escapeJson src, 32 ≤ c) ∧
      ∀ s, Denotes (escapeJson src) s ↔ s = src) ∧
    (escapeHtml src).length = src.length + escapeHtmlSize src ∧
      ∀ c ∈ escapeHtml src, c ≠ lt ∧ c ≠ gt ∧ c ≠ quote := by
  have hdenotes := denotes_escapeJson src
  refine ⟨⟨length_escapeJson src, hdenotes.literalChars, escapeJson_printable src,
    fun s => ⟨?_, ?_⟩⟩, length_escapeHtml src, escapeHtml_plain src⟩
  · intro h
    exact h.unique hdenotes
  · rintro rfl
    exact hdenotes

end EscapeText

end RebuildTheWheel.Nginx
