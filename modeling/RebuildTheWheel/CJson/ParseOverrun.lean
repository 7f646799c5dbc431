import RebuildTheWheel.CJson.ParseLiteral

namespace RebuildTheWheel.CJson

open RebuildTheWheel.Data
open RebuildTheWheel.Data.Ascii

/-! How many bytes the second loop of `parse_string` stores. The first loop takes a backslash and
the byte behind it for one character, and sizes the buffer by the characters; the second takes the
digits of `\u` along, whatever they are, and may so come past the closing quote. -/

def EndsAt (size : Bytes → Nat) (content stop : Bytes) : Prop :=
  Walks size content stop ∧ (stop = [] ∨ peek stop = quote)

/-- What is stored, with the NUL, fits in the buffer. -/
def Fits (content : Bytes) : Prop :=
  ∃ len out ptr, countChars content = .ok len ∧ decodeChars 0 content = .ok (out, ptr) ∧
    out.length + 1 ≤ len + 1

/-- The quote or the NUL that ends the literal for the second loop is not behind the one that ends
it for the first. -/
def EndsWithin (content : Bytes) : Prop :=
  ∃ stop stop', EndsAt pairLength content stop ∧ EndsAt escapeLength content stop' ∧ stop <:+ stop'

/-- Texts that differ at most behind the quote that closes the literal for the first loop. -/
def SameLiteral (content content' : Bytes) : Prop :=
  content' = content ∨ ∃ lit rest rest', Walks pairLength lit [] ∧ content = lit ++ quote :: rest ∧
    content' = lit ++ quote :: rest'

/-- Where the first loop stops. -/
def closing : Bytes → Bytes
  | [] => []
  | c :: rest =>
      if c = quote then c :: rest
      else if c = backslash then
        match rest with
        | [] => []
        | _ :: rest => closing rest
      else closing rest

@[simp] theorem closing_quote (rest : Bytes) : closing (quote :: rest) = quote :: rest := by
  rw [closing.eq_def]
  rfl

theorem closing_char {c : UInt8} (hquote : c ≠ quote) (hbackslash : c ≠ backslash) (rest : Bytes) :
    closing (c :: rest) = closing rest := by
  rw [closing.eq_def]
  simp only [if_neg hquote, if_neg hbackslash]

theorem closing_escape (e : UInt8) (rest : Bytes) :
    closing (backslash :: e :: rest) = closing rest := by
  rw [closing.eq_def]
  rfl

theorem characters_quote (rest : Bytes) : characters (quote :: rest) = 0 := by
  rw [characters.eq_def]
  rfl

theorem characters_char {c : UInt8} (hquote : c ≠ quote) (hbackslash : c ≠ backslash)
    (rest : Bytes) : characters (c :: rest) = characters rest + 1 := by
  rw [characters.eq_def]
  simp only [if_neg hquote, if_neg hbackslash]

theorem characters_escape (e : UInt8) (rest : Bytes) :
    characters (backslash :: e :: rest) = characters rest + 1 := by
  rw [characters.eq_def]
  rfl

/-- `n` bytes further the first loop is, or one byte more if it has taken a backslash before, with
a character for every two bytes; or it has stopped on the way. -/
theorem closing_drop (n : Nat) (text : Bytes) (hn : n ≤ text.length) :
    (text.drop n).length < (closing text).length ∨
      ∃ lag ≤ 1, closing text = closing (text.drop (n + lag)) ∧
        characters (text.drop (n + lag)) + (n + lag + 1) / 2 ≤ characters text := by
  match n, text with
  | 0, text => exact .inr ⟨0, Nat.zero_le 1, rfl, Nat.le_refl _⟩
  | n + 1, [] => exact absurd hn (Nat.not_succ_le_zero n)
  | n + 1, c :: rest =>
      rw [List.length_cons, Nat.succ_le_succ_iff] at hn
      by_cases hquote : c = quote
      · subst hquote
        refine .inl ?_
        rw [closing_quote, List.drop_succ_cons, List.length_drop, List.length_cons]
        omega
      · by_cases hbackslash : c = backslash
        · subst hbackslash
          cases rest with
          | nil =>
              obtain rfl : n = 0 := Nat.le_zero.mp hn
              exact .inr ⟨1, Nat.le_refl 1, rfl, by decide⟩
          | cons e rest =>
              rw [closing_escape, characters_escape]
              cases n with
              | zero => exact .inr ⟨1, Nat.le_refl 1, rfl, Nat.le_refl _⟩
              | succ n =>
                  rw [List.length_cons, Nat.succ_le_succ_iff] at hn
                  rcases closing_drop n rest hn with hstop | ⟨lag, hlag, hclosing, hcount⟩
                  · exact .inl hstop
                  · refine .inr ⟨lag, hlag, ?_, ?_⟩
                    · rw [hclosing, Nat.add_right_comm, List.drop_succ_cons, Nat.add_right_comm,
                        List.drop_succ_cons]
                    · rw [Nat.add_right_comm, List.drop_succ_cons, Nat.add_right_comm,
                        List.drop_succ_cons]
                      omega
        · rw [closing_char hquote hbackslash, characters_char hquote hbackslash]
          rcases closing_drop n rest hn with hstop | ⟨lag, hlag, hclosing, hcount⟩
          · exact .inl hstop
          · refine .inr ⟨lag, hlag, ?_, ?_⟩
            · rw [hclosing, Nat.add_right_comm, List.drop_succ_cons]
            · rw [Nat.add_right_comm, List.drop_succ_cons]
              omega

theorem parseHex4_lt (str : Bytes) : parseHex4 str < 0x10000 := by
  rw [parseHex4]
  split
  · decide
  rename_i a ha
  split
  · decide
  rename_i b hb
  split
  · decide
  rename_i c hc
  split
  · decide
  rename_i d hd
  have := hexVal?_lt _ a ha
  have := hexVal?_lt _ b hb
  have := hexVal?_lt _ c hc
  have := hexVal?_lt _ d hd
  simp only [Nat.shiftLeft_eq]
  omega

theorem length_storeUtf8 (uc : Nat) :
    (storeUtf8 uc).length ≤ 4 ∧ (uc < 0x10000 → (storeUtf8 uc).length ≤ 3) := by
  unfold storeUtf8
  dsimp only
  split_ifs with hone htwo hthree
  · simp
  · simp
  · simp
  · exact ⟨Nat.le_refl 4, fun h => absurd h hthree⟩

/-- Of six bytes at most three are stored, and of twelve at most four. -/
theorem length_unicodeEscape (digits : Bytes) :
    ((unicodeEscape digits).2 = 4 ∧ (unicodeEscape digits).1.length ≤ 3) ∨
      ((unicodeEscape digits).2 = 10 ∧ (unicodeEscape digits).1.length ≤ 4) := by
  have hfour := (length_storeUtf8 (parseHex4 digits)).2 (parseHex4_lt digits)
  unfold unicodeEscape
  dsimp only
  split_ifs
  · exact .inl ⟨rfl, Nat.zero_le 3⟩
  · exact .inl ⟨rfl, Nat.zero_le 3⟩
  · exact .inr ⟨rfl, Nat.zero_le 4⟩
  · exact .inr ⟨rfl, (length_storeUtf8 _).1⟩
  · exact .inl ⟨rfl, hfour⟩

theorem map_eq_ok {f : α → β} {x : Parse α} {b : β} (h : x.map f = .ok b) :
    ∃ a, x = .ok a ∧ f a = b := by
  cases x with
  | error e => exact nomatch h
  | ok a => exact ⟨a, rfl, Except.ok.inj h⟩

/-! What one round of the second loop has done when the decoding went well. -/

theorem of_decodeChars_char {c : UInt8} {rest out ptr : Bytes} (hquote : c ≠ quote)
    (hbackslash : c ≠ backslash) (h : decodeChars 0 (c :: rest) = .ok (out, ptr)) :
    ∃ out', decodeChars 0 rest = .ok (out', ptr) ∧ out = c :: out' := by
  rw [decodeChars_char hquote hbackslash] at h
  obtain ⟨⟨out', ptr'⟩, hrest, heq⟩ := map_eq_ok h
  obtain ⟨rfl, rfl⟩ := Prod.mk.inj heq
  exact ⟨out', hrest, rfl⟩

theorem of_decodeChars_short {e : UInt8} {rest out ptr : Bytes} (he : e ≠ lowerU)
    (h : decodeChars 0 (backslash :: e :: rest) = .ok (out, ptr)) :
    ∃ out', decodeChars 0 rest = .ok (out', ptr) ∧ out = unescape e :: out' := by
  rw [decodeChars_short he] at h
  obtain ⟨⟨out', ptr'⟩, hrest, heq⟩ := map_eq_ok h
  obtain ⟨rfl, rfl⟩ := Prod.mk.inj heq
  exact ⟨out', hrest, rfl⟩

theorem of_decodeChars_unicode {rest out ptr : Bytes}
    (h : decodeChars 0 (backslash :: lowerU :: rest) = .ok (out, ptr)) :
    (unicodeEscape rest).2 ≤ rest.length ∧
      ∃ out', decodeChars 0 (rest.drop (unicodeEscape rest).2) = .ok (out', ptr) ∧
        out = (unicodeEscape rest).1 ++ out' := by
  rw [decodeChars_unicode, decodeChars_pending_eq] at h
  obtain ⟨⟨out', ptr'⟩, hrest, heq⟩ := map_eq_ok h
  obtain ⟨rfl, rfl⟩ := Prod.mk.inj heq
  by_cases hinside : (unicodeEscape rest).2 ≤ rest.length
  · rw [if_pos hinside] at hrest
    exact ⟨hinside, out', hrest, rfl⟩
  · rw [if_neg hinside] at hrest
    exact nomatch hrest

theorem decodeChars_suffix {text out ptr : Bytes} (h : decodeChars 0 text = .ok (out, ptr)) :
    ptr <:+ text := by
  have hends := decodeChars_outcome text
  rw [h] at hends
  cases hends with
  | ended _ hends => exact hends.1.suffix

/-- Until the second loop is past the closing quote it stores no more than the first has counted.
`lag` is 1 where the first loop has taken a backslash that is behind for the second. -/
theorem decodeChars_length {text out ptr : Bytes} {lag : Nat} (hlag : lag ≤ 1)
    (h : decodeChars 0 text = .ok (out, ptr))
    (hclosing : (closing (text.drop lag)).length ≤ ptr.length) :
    out.length ≤ characters (text.drop lag) + lag := by
  induction hn : text.length using Nat.strongRecOn generalizing text out lag with
  | ind n ih =>
  subst hn
  cases text with
  | nil =>
      obtain ⟨rfl, -⟩ := Prod.mk.inj (Except.ok.inj h)
      exact Nat.zero_le _
  | cons c rest =>
      by_cases hquote : c = quote
      · subst hquote
        rw [decodeChars_quote] at h
        obtain ⟨rfl, -⟩ := Prod.mk.inj (Except.ok.inj h)
        exact Nat.zero_le _
      · by_cases hbackslash : c = backslash
        · subst hbackslash
          cases rest with
          | nil => exact nomatch h
          | cons e rest =>
              by_cases hunicode : e = lowerU
              · subst hunicode
                obtain ⟨hinside, out', hrest, rfl⟩ := of_decodeChars_unicode h
                have hplain : lowerU ≠ quote ∧ lowerU ≠ backslash := by decide
                have hclosing' : (closing rest).length ≤ ptr.length := by
                  rcases Nat.le_one_iff_eq_zero_or_eq_one.mp hlag with rfl | rfl
                  · rwa [List.drop_zero, closing_escape] at hclosing
                  · rwa [List.drop_succ_cons, List.drop_zero, closing_char hplain.1 hplain.2] at hclosing
                have hcount : characters rest + 1 ≤
                    characters ((backslash :: lowerU :: rest).drop lag) + lag := by
                  rcases Nat.le_one_iff_eq_zero_or_eq_one.mp hlag with rfl | rfl
                  · exact Nat.le_of_eq (characters_escape lowerU rest).symm
                  · exact Nat.le_succ_of_le (Nat.le_of_eq (characters_char hplain.1 hplain.2 rest).symm)
                have hptr := (decodeChars_suffix hrest).length_le
                rcases closing_drop _ rest hinside with hstop | ⟨lag', hlag', hsame, hchars⟩
                · omega
                · rw [hsame, ← List.drop_drop] at hclosing'
                  have hlength := ih _ (by simp only [List.length_drop, List.length_cons]; omega) hlag' hrest hclosing' rfl
                  rw [List.drop_drop] at hlength
                  rw [List.length_append]
                  have hstored := length_unicodeEscape rest
                  omega
              · obtain ⟨out', hrest, rfl⟩ := of_decodeChars_short hunicode h
                rw [List.length_cons]
                rcases Nat.le_one_iff_eq_zero_or_eq_one.mp hlag with rfl | rfl
                · rw [List.drop_zero, closing_escape] at hclosing
                  rw [List.drop_zero, characters_escape]
                  exact Nat.succ_le_succ (ih _ (by simp) (Nat.zero_le 1) hrest hclosing rfl)
                · rw [List.drop_succ_cons, List.drop_zero] at hclosing ⊢
                  by_cases hequote : e = quote
                  · subst hequote
                    have hptr := (decodeChars_suffix hrest).length_le
                    rw [closing_quote] at hclosing
                    exact absurd (Nat.le_trans hclosing hptr) (Nat.not_succ_le_self _)
                  · by_cases heslash : e = backslash
                    · subst heslash
                      cases rest with
                      | nil =>
                          obtain ⟨rfl, -⟩ := Prod.mk.inj (Except.ok.inj hrest)
                          exact Nat.succ_le_succ (Nat.zero_le _)
                      | cons z rest =>
                          rw [closing_escape] at hclosing
                          rw [characters_escape]
                          exact Nat.succ_le_succ (ih _ (by simp) (Nat.le_refl 1) hrest hclosing rfl)
                    · rw [closing_char hequote heslash] at hclosing
                      rw [characters_char hequote heslash]
                      exact Nat.le_succ_of_le
                        (Nat.succ_le_succ (ih _ (by simp) (Nat.zero_le 1) hrest hclosing rfl))
        · obtain ⟨out', hrest, rfl⟩ := of_decodeChars_char hquote hbackslash h
          rw [List.length_cons]
          rcases Nat.le_one_iff_eq_zero_or_eq_one.mp hlag with rfl | rfl
          · rw [List.drop_zero, closing_char hquote hbackslash] at hclosing
            rw [List.drop_zero, characters_char hquote hbackslash]
            exact Nat.succ_le_succ (ih _ (by simp) (Nat.zero_le 1) hrest hclosing rfl)
          · exact Nat.succ_le_succ (ih _ (by simp) (Nat.zero_le 1) hrest hclosing rfl)

theorem EndsAt.inside {size : Bytes → Nat} (h : EndsAt size content stop) :
    EscapesInside size content := by
  obtain ⟨hwalk, hstop⟩ := h
  induction hwalk with
  | refl =>
      rename_i text
      cases text with
      | nil => exact escapesInside_nil
      | cons c rest =>
          obtain rfl : c = quote := hstop.resolve_left (List.cons_ne_nil c rest)
          exact escapesInside_quote rest
  | char hquote hbackslash _ ih => exact (escapesInside_char hquote hbackslash _).mpr (ih hstop)
  | escape hsize _ ih => exact (escapesInside_escape size _).mpr ⟨hsize, ih hstop⟩

/-! A literal that the first loop comes through. -/

theorem Walks.closed {lit rest : Bytes} (h : Walks pairLength lit []) :
    Walks pairLength (lit ++ rest) rest ∧ closing (lit ++ quote :: rest) = quote :: rest ∧
      characters (lit ++ quote :: rest) = characters lit := by
  generalize hstop : ([] : Bytes) = stop at h
  induction h with
  | refl =>
      subst hstop
      exact ⟨.refl, closing_quote rest, characters_quote rest⟩
  | char hquote hbackslash _ ih =>
      obtain ⟨hwalk, hclosing, hcount⟩ := ih hstop
      refine ⟨.char hquote hbackslash hwalk, ?_, ?_⟩
      · rw [List.cons_append, closing_char hquote hbackslash, hclosing]
      · rw [List.cons_append, characters_char hquote hbackslash, hcount,
          characters_char hquote hbackslash]
  | @escape pair stop hsize _ ih =>
      obtain ⟨hwalk, hclosing, hcount⟩ := ih hstop
      cases pair with
      | nil => exact absurd hsize (Nat.not_succ_le_zero 0)
      | cons e pair =>
          refine ⟨.escape (Nat.succ_le_succ (Nat.zero_le _)) hwalk, ?_, ?_⟩
          · rw [List.cons_append, List.cons_append, closing_escape]
            exact hclosing
          · rw [List.cons_append, List.cons_append, characters_escape, characters_escape]
            exact congrArg (· + 1) hcount

theorem closing_split {text : Bytes} (h : EscapesInside pairLength text) :
    ∃ lit, text = lit ++ closing text ∧ Walks pairLength lit [] ∧
      (closing text = [] ∨ peek (closing text) = quote) := by
  fun_induction closing text with
  | case1 => exact ⟨[], rfl, .refl, .inl rfl⟩
  | case2 rest => exact ⟨[], rfl, .refl, .inr rfl⟩
  | case3 => exact absurd ((escapesInside_escape pairLength []).mp h).1 (Nat.not_succ_le_zero 0)
  | case4 e rest _ ih =>
      obtain ⟨lit, hlit, hwalk, hstop⟩ := ih ((escapesInside_escape pairLength _).mp h).2
      refine ⟨backslash :: e :: lit, ?_, .escape (Nat.succ_le_succ (Nat.zero_le _)) hwalk, hstop⟩
      rw [List.cons_append, List.cons_append, ← hlit]
  | case5 c rest hquote hbackslash ih =>
      obtain ⟨lit, hlit, hwalk, hstop⟩ := ih ((escapesInside_char hquote hbackslash rest).mp h)
      refine ⟨c :: lit, ?_, .char hquote hbackslash hwalk, hstop⟩
      rw [List.cons_append, ← hlit]

theorem closing_eq {content stop : Bytes} (h : EndsAt pairLength content stop) :
    closing content = stop := by
  obtain ⟨lit, hlit, hwalk, hstop⟩ := closing_split h.inside
  have hwalk' : Walks pairLength content (closing content) := by
    conv_lhs => rw [hlit]
    exact hwalk.closed.1
  exact hwalk'.eq_of_end h.1 hstop h.2

theorem ends_closing {content : Bytes} (h : EscapesInside pairLength content) :
    EndsAt pairLength content (closing content) := by
  obtain ⟨lit, hlit, hwalk, hstop⟩ := closing_split h
  refine ⟨?_, hstop⟩
  conv_lhs => rw [hlit]
  exact hwalk.closed.1

/-! What stands behind the closing quote does not matter before it. -/

theorem escapeLength_closed (lit rest rest' : Bytes) :
    escapeLength (lit ++ quote :: rest) = escapeLength (lit ++ quote :: rest') := by
  have hquote : hexVal? quote = none := by decide
  match lit with
  | [] => rfl
  | [e] => simp [escapeLength, parseHex4, hquote]
  | [e, a] => cases ha : hexVal? a <;> simp [escapeLength, parseHex4, hquote, ha]
  | [e, a, b] =>
      cases ha : hexVal? a <;> cases hb : hexVal? b <;> simp [escapeLength, parseHex4, hquote, ha, hb]
  | [e, a, b, c] =>
      cases ha : hexVal? a <;> cases hb : hexVal? b <;> cases hc : hexVal? c <;>
        simp [escapeLength, parseHex4, hquote, ha, hb, hc]
  | [e, a, b, c, d] => simp [escapeLength, parseHex4, show quote ≠ backslash by decide]
  | [e, a, b, c, d, f] => simp [escapeLength, parseHex4, show quote ≠ lowerU by decide]
  | e :: a :: b :: c :: d :: f :: g :: lit => simp [escapeLength, parseHex4]

theorem Walks.change_rest {lit lit' rest rest' : Bytes}
    (h : Walks escapeLength (lit ++ quote :: rest) (lit' ++ quote :: rest)) :
    Walks escapeLength (lit ++ quote :: rest') (lit' ++ quote :: rest') := by
  generalize htext : lit ++ quote :: rest = text at h
  generalize hstop : lit' ++ quote :: rest = stop at h
  induction h generalizing lit with
  | refl =>
      obtain rfl := List.append_cancel_right (hstop.trans htext.symm)
      exact .refl
  | char hquote hbackslash _ ih =>
      cases lit with
      | nil => exact absurd (List.cons.inj htext).1.symm hquote
      | cons c lit =>
          rw [List.cons_append] at htext ⊢
          obtain ⟨rfl, htail⟩ := List.cons.inj htext
          exact .char hquote hbackslash (ih htail hstop)
  | @escape text stop hsize hwalk ih =>
      cases lit with
      | nil => exact absurd (List.cons.inj htext).1 (by decide)
      | cons c lit =>
          rw [List.cons_append] at htext ⊢
          obtain ⟨rfl, rfl⟩ := List.cons.inj htext
          have hlength := hwalk.suffix.length_le
          rw [← hstop, List.length_drop] at hlength
          simp only [List.length_append, List.length_cons] at hlength hsize
          have hinside : escapeLength (lit ++ quote :: rest) ≤ lit.length := by omega
          have hsame := escapeLength_closed lit rest rest'
          refine .escape ?_ ?_
          · rw [← hsame, List.length_append]
            omega
          · rw [← hsame, List.drop_append_of_le_length hinside]
            exact ih (by rw [List.drop_append_of_le_length hinside]) hstop

theorem EndsWithin.change_rest {lit rest rest' : Bytes} (hlit : Walks pairLength lit [])
    (h : EndsWithin (lit ++ quote :: rest)) : EndsWithin (lit ++ quote :: rest') := by
  obtain ⟨stop, stop', hpair, ⟨hwalk, hend⟩, hsuffix⟩ := h
  have hclosing : closing (lit ++ quote :: rest) = quote :: rest := hlit.closed.2.1
  obtain rfl := hclosing.symm.trans (closing_eq hpair)
  obtain ⟨lit', rfl⟩ := hsuffix
  have hend' : peek (lit' ++ quote :: rest') = quote := by
    cases lit' with
    | nil => rfl
    | cons c lit' => exact hend.resolve_left (List.cons_ne_nil c _)
  exact ⟨quote :: rest', lit' ++ quote :: rest', ⟨hlit.closed.1, .inr rfl⟩,
    ⟨hwalk.change_rest, .inr hend'⟩, List.suffix_append lit' _⟩

theorem fits_of_endsWithin (h : EndsWithin content) : Fits content := by
  obtain ⟨stop, stop', hpair, hescape, hsuffix⟩ := h
  have hcount := countChars_outcome content
  have hdecode := decodeChars_outcome content
  generalize hlen : countChars content = counted at hcount
  generalize hout : decodeChars 0 content = decoded at hdecode
  cases hcount with
  | outside hcut => exact absurd hpair.inside hcut
  | ended _ hchars =>
      cases hdecode with
      | outside hcut => exact absurd hescape.inside hcut
      | @ended result _ hends =>
          obtain ⟨out, ptr⟩ := result
          have hptr : ptr = stop' := hends.1.eq_of_end hescape.1 hends.2 hescape.2
          refine ⟨_, out, ptr, hlen, hout, Nat.succ_le_succ ?_⟩
          rw [hchars]
          refine decodeChars_length (Nat.zero_le 1) hout ?_
          rw [List.drop_zero, closing_eq hpair, hptr]
          exact hsuffix.length_le

theorem decodeChars_replicate (n : Nat) :
    decodeChars 0 (List.replicate n 120) = .ok (List.replicate n 120, []) := by
  induction n with
  | zero => rfl
  | succ n ih =>
      rw [List.replicate_succ, decodeChars_char (by decide) (by decide), ih]
      rfl

theorem drop_past {lit : Bytes} {j : Nat} (hj : lit.length < j) (c : UInt8) (rest : Bytes) :
    (lit ++ c :: rest).drop j = rest.drop (j - (lit.length + 1)) := by
  have hlength : (lit ++ [c]).length = lit.length + 1 := by simp
  rw [List.append_cons, List.drop_append, hlength, List.drop_of_length_le (by omega), List.nil_append]

/-- A decoding that passes the closing quote goes on to the end of the text. -/
theorem overrun {lit rest out ptr : Bytes} (h : decodeChars 0 (lit ++ quote :: rest) = .ok (out, ptr))
    (hpast : ptr.length ≤ rest.length) {n : Nat} (hn : 10 ≤ n) :
    ∃ out', decodeChars 0 (lit ++ quote :: List.replicate n 120) = .ok (out', []) ∧
      n ≤ out'.length + 10 := by
  induction hlength : lit.length using Nat.strongRecOn generalizing lit out with
  | ind m ih =>
  subst hlength
  cases lit with
  | nil =>
      rw [List.nil_append, decodeChars_quote] at h
      obtain ⟨-, rfl⟩ := Prod.mk.inj (Except.ok.inj h)
      exact absurd hpast (Nat.not_succ_le_self _)
  | cons c lit =>
      rw [List.cons_append] at h ⊢
      by_cases hquote : c = quote
      · subst hquote
        rw [decodeChars_quote] at h
        obtain ⟨-, rfl⟩ := Prod.mk.inj (Except.ok.inj h)
        simp only [List.length_cons, List.length_append] at hpast
        omega
      by_cases hbackslash : c = backslash
      · subst hbackslash
        cases lit with
        | nil =>
            rw [List.nil_append, decodeChars_short (by decide), decodeChars_replicate]
            refine ⟨_, rfl, ?_⟩
            simp only [List.length_cons, List.length_replicate]
            omega
        | cons e lit =>
            rw [List.cons_append] at h ⊢
            by_cases hunicode : e = lowerU
            · subst hunicode
              have hjump : (unicodeEscape (lit ++ quote :: List.replicate n 120)).2 =
                  (unicodeEscape (lit ++ quote :: rest)).2 := by
                have hclosed := escapeLength_closed (lowerU :: lit) (List.replicate n 120) rest
                rw [List.cons_append, List.cons_append, unicodeEscape_jump, unicodeEscape_jump] at hclosed
                exact Nat.succ.inj hclosed
              have hten : (unicodeEscape (lit ++ quote :: rest)).2 ≤ 10 := by
                rcases length_unicodeEscape (lit ++ quote :: rest) with ⟨hfour, -⟩ | ⟨hten, -⟩ <;> omega
              obtain ⟨-, out₁, hrest, rfl⟩ := of_decodeChars_unicode h
              rw [decodeChars_unicode, decodeChars_pending_eq, hjump, if_pos (by
                simp only [List.length_append, List.length_cons, List.length_replicate]
                omega)]
              by_cases hinside : (unicodeEscape (lit ++ quote :: rest)).2 ≤ lit.length
              · rw [List.drop_append_of_le_length hinside] at hrest ⊢
                obtain ⟨out', hout', hlong⟩ := ih _ (by simp only [List.length_drop, List.length_cons]; omega)
                  hrest rfl
                rw [hout']
                refine ⟨_, rfl, ?_⟩
                change n ≤ (_ ++ out').length + 10
                rw [List.length_append]
                omega
              · rw [drop_past (Nat.lt_of_not_le hinside), List.drop_replicate, decodeChars_replicate]
                refine ⟨_, rfl, ?_⟩
                change n ≤ (_ ++ List.replicate _ _).length + 10
                rw [List.length_append, List.length_replicate]
                omega
            · rw [decodeChars_short hunicode]
              obtain ⟨out₁, hrest, rfl⟩ := of_decodeChars_short hunicode h
              obtain ⟨out', hout', hlong⟩ := ih _ (by simp) hrest rfl
              rw [hout']
              exact ⟨_, rfl, Nat.le_succ_of_le hlong⟩
      · rw [decodeChars_char hquote hbackslash]
        obtain ⟨out₁, hrest, rfl⟩ := of_decodeChars_char hquote hbackslash h
        obtain ⟨out', hout', hlong⟩ := ih _ (by simp) hrest rfl
        rw [hout']
        exact ⟨_, rfl, Nat.le_succ_of_le hlong⟩

end RebuildTheWheel.CJson
