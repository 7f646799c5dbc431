import RebuildTheWheel.CJson.Parse

namespace RebuildTheWheel.CJson

open RebuildTheWheel.Data
open RebuildTheWheel.Data.Ascii

/-! How far the two loops of `parse_string` go. Both walk over a literal from
behind its opening quote and differ in what they take for the length of an
escape sequence. -/

section Walk

variable (size : Bytes → Nat)

/-- The walk comes from one place to another; `size` is the length of what stands
behind a backslash. -/
inductive Walks : Bytes → Bytes → Prop where
  | refl : Walks text text
  | char : c ≠ quote → c ≠ backslash → Walks rest stop → Walks (c :: rest) stop
  | escape : size rest ≤ rest.length → Walks (rest.drop (size rest)) stop →
      Walks (backslash :: rest) stop

/-- Every escape sequence the walk comes to ends before the NUL. -/
def EscapesInside (text : Bytes) : Prop :=
  ∀ rest, Walks size text (backslash :: rest) → size rest ≤ rest.length

variable {size}

theorem Walks.eq_of_end {stop stop' : Bytes} (h : Walks size text stop)
    (h' : Walks size text stop') (hstop : stop = [] ∨ peek stop = quote)
    (hstop' : stop' = [] ∨ peek stop' = quote) : stop = stop' := by
  have hend : ∀ {text stop : Bytes}, (text = [] ∨ peek text = quote) → Walks size text stop →
      text = stop := by
    intro text stop htext hwalk
    cases hwalk with
    | refl => rfl
    | char hquote _ _ =>
        rcases htext with htext | htext
        · cases htext
        · exact absurd htext hquote
    | escape _ _ =>
        rcases htext with htext | htext
        · cases htext
        · rw [peek_cons] at htext
          exact absurd htext (by decide)
  induction h with
  | refl => exact hend hstop h'
  | char hquote hbackslash hrest ih =>
      cases h' with
      | refl => exact (hend hstop' (.char hquote hbackslash hrest)).symm
      | char _ _ hrest' => exact ih hrest' hstop
      | escape _ _ => exact absurd rfl hbackslash
  | escape hsize hrest ih =>
      cases h' with
      | refl => exact (hend hstop' (.escape hsize hrest)).symm
      | char _ hbackslash _ => exact absurd rfl hbackslash
      | escape _ hrest' => exact ih hrest' hstop

theorem Walks.suffix (h : Walks size text stop) : stop <:+ text := by
  induction h with
  | refl => exact List.suffix_refl _
  | char _ _ _ ih => exact ih.trans (List.suffix_cons _ _)
  | escape _ _ ih => exact (ih.trans (List.drop_suffix _ _)).trans (List.suffix_cons _ _)

theorem escapesInside_nil : EscapesInside size [] := by
  intro rest h
  cases h

theorem escapesInside_quote (rest : Bytes) : EscapesInside size (quote :: rest) := by
  intro rest' h
  cases h with
  | char hquote _ _ => exact absurd rfl hquote

theorem escapesInside_char {c : UInt8} (hquote : c ≠ quote) (hbackslash : c ≠ backslash)
    (rest : Bytes) : EscapesInside size (c :: rest) ↔ EscapesInside size rest := by
  constructor
  · intro h rest' hwalk
    exact h rest' (.char hquote hbackslash hwalk)
  · intro h rest' hwalk
    cases hwalk with
    | refl => exact absurd rfl hbackslash
    | char _ _ hwalk => exact h rest' hwalk
    | escape _ _ => exact absurd rfl hbackslash

theorem escapesInside_escape (size : Bytes → Nat) (rest : Bytes) :
    EscapesInside size (backslash :: rest) ↔
      size rest ≤ rest.length ∧ EscapesInside size (rest.drop (size rest)) := by
  constructor
  · intro h
    have hsize := h rest .refl
    exact ⟨hsize, fun rest' hwalk => h rest' (.escape hsize hwalk)⟩
  · intro ⟨hsize, h⟩ rest' hwalk
    cases hwalk with
    | refl => exact hsize
    | char _ hbackslash _ => exact absurd rfl hbackslash
    | escape _ hwalk => exact h rest' hwalk

end Walk

/-- The first loop takes a backslash and the byte behind it together. -/
def pairLength (_ : Bytes) : Nat := 1

/-- The second loop takes the four bytes behind `\u` with it, and six more for a
high surrogate that another `\u` follows. -/
def escapeLength : Bytes → Nat
  | [] => 1
  | e :: digits =>
      if e = lowerU then
        if 0xD800 ≤ parseHex4 digits ∧ parseHex4 digits ≤ 0xDBFF ∧
            peek (digits.drop 4) = backslash ∧ peek (digits.drop 5) = lowerU then 11
        else 5
      else 1

/-- The characters in front of the closing quote, an escaped one taken as one. -/
def characters : Bytes → Nat
  | [] => 0
  | c :: rest =>
      if c = quote then 0
      else if c = backslash then
        match rest with
        | [] => 1
        | _ :: rest => characters rest + 1
      else characters rest + 1

/-- The characters and a NUL have an `int` size. -/
def CountFits (content : Bytes) : Prop :=
  characters content + 1 ≤ intMax

/-- No escape sequence of the literal is cut off by the end of the text. -/
def LiteralInside (content : Bytes) : Prop :=
  EscapesInside pairLength content ∧ (CountFits content → EscapesInside escapeLength content)

/-- The literal is read up to `stop`, which is behind its closing quote if it has one. -/
def LiteralEnds (content stop : Bytes) : Prop :=
  CountFits content ∧ (Walks escapeLength content (quote :: stop) ∨
    (Walks escapeLength content [] ∧ stop = []))

theorem LiteralEnds.unique (h : LiteralEnds content stop) (h' : LiteralEnds content stop') :
    stop = stop' := by
  rcases h.2 with hwalk | ⟨hwalk, rfl⟩
  · rcases h'.2 with hwalk' | ⟨hwalk', _⟩
    · exact (List.cons.inj (hwalk.eq_of_end hwalk' (Or.inr rfl) (Or.inr rfl))).2
    · cases hwalk.eq_of_end hwalk' (Or.inr rfl) (Or.inl rfl)
  · rcases h'.2 with hwalk' | ⟨_, rfl⟩
    · cases hwalk.eq_of_end hwalk' (Or.inl rfl) (Or.inr rfl)
    · rfl

/-- A loop of `parse_string` reads outside exactly if an escape sequence is cut
off, and else has a result that `ended` describes. -/
inductive LoopOutcome (inside : Prop) (ended : α → Prop) : Parse α → Prop where
  | ended : inside → ended result → LoopOutcome inside ended (.ok result)
  | outside : ¬inside → LoopOutcome inside ended (.error .outside)

theorem LoopOutcome.map {inside inside' : Prop} {ended : α → Prop} {ended' : β → Prop}
    {result : Parse α} (h : LoopOutcome inside ended result) (hinside : inside' ↔ inside)
    (f : α → β) (hf : ∀ a, ended a → ended' (f a)) :
    LoopOutcome inside' ended' (result.map f) := by
  cases h with
  | ended hin hend => exact .ended (hinside.mpr hin) (hf _ hend)
  | outside hout => exact .outside fun hin => hout (hinside.mp hin)

theorem countChars_outcome (content : Bytes) :
    LoopOutcome (EscapesInside pairLength content) (· = characters content)
      (countChars content) := by
  fun_induction characters content with
  | case1 => exact .ended escapesInside_nil rfl
  | case2 rest =>
      rw [countChars_quote]
      exact .ended (escapesInside_quote rest) rfl
  | case3 =>
      apply LoopOutcome.outside
      intro h
      exact absurd ((escapesInside_escape _ []).mp h).1 (by decide)
  | case4 _ e rest ih =>
      rw [countChars_escape]
      apply ih.map _ _ fun _ hcount => congrArg (· + 1) hcount
      rw [escapesInside_escape]
      exact and_iff_right (Nat.succ_le_succ (Nat.zero_le _))
  | case5 c rest hquote hbackslash ih =>
      rw [countChars_char hquote hbackslash]
      exact ih.map (escapesInside_char hquote hbackslash rest) _
        fun _ hcount => congrArg (· + 1) hcount

theorem decodeChars_pending_eq (pending : Nat) (text : Bytes) :
    decodeChars pending text =
      if pending ≤ text.length then decodeChars 0 (text.drop pending) else .error .outside := by
  induction pending generalizing text with
  | zero => rw [if_pos (Nat.zero_le _), List.drop_zero]
  | succ pending ih =>
      cases text with
      | nil => rfl
      | cons c text =>
          rw [decodeChars, ih, List.length_cons, List.drop_succ_cons]
          simp only [Nat.add_le_add_iff_right]

theorem unicodeEscape_jump (digits : Bytes) :
    escapeLength (lowerU :: digits) = (unicodeEscape digits).2 + 1 := by
  have htail : (digits.drop 4).tail = digits.drop 5 := by
    rw [List.tail_drop]
  simp only [escapeLength, if_true, unicodeEscape, Bool.or_eq_true, Bool.and_eq_true,
    decide_eq_true_eq, htail]
  split_ifs <;> first | rfl | omega | simp_all

/-- The second loop stops at the closing quote or at the NUL. -/
def WalkEnds (content : Bytes) (result : Bytes × Bytes) : Prop :=
  Walks escapeLength content result.2 ∧ (result.2 = [] ∨ peek result.2 = quote)

theorem decodeChars_outcome (content : Bytes) :
    LoopOutcome (EscapesInside escapeLength content) (WalkEnds content)
      (decodeChars 0 content) := by
  match content with
  | [] => exact .ended escapesInside_nil ⟨.refl, Or.inl rfl⟩
  | c :: rest =>
      by_cases hquote : c = quote
      · subst c
        rw [decodeChars_quote]
        exact .ended (escapesInside_quote rest) ⟨.refl, Or.inr rfl⟩
      · by_cases hbackslash : c = backslash
        · subst c
          match rest with
          | [] =>
              apply LoopOutcome.outside
              intro h
              exact absurd ((escapesInside_escape _ []).mp h).1 (by decide)
          | e :: rest =>
              by_cases hunicode : e = lowerU
              · subst e
                rw [decodeChars_unicode, decodeChars_pending_eq]
                have hinside := escapesInside_escape escapeLength (lowerU :: rest)
                rw [unicodeEscape_jump, List.length_cons, List.drop_succ_cons,
                  Nat.add_le_add_iff_right] at hinside
                split
                · next hjump =>
                    have ih := decodeChars_outcome (rest.drop (unicodeEscape rest).2)
                    apply ih.map (hinside.trans (and_iff_right hjump))
                    intro result hend
                    refine ⟨.escape ?_ ?_, hend.2⟩
                    · rw [unicodeEscape_jump, List.length_cons]
                      exact Nat.succ_le_succ hjump
                    · rw [unicodeEscape_jump, List.drop_succ_cons]
                      exact hend.1
                · next hjump =>
                    apply LoopOutcome.outside
                    intro h
                    exact hjump (hinside.mp h).1
              · have ih := decodeChars_outcome rest
                have hlength : escapeLength (e :: rest) = 1 := if_neg hunicode
                have hinside := escapesInside_escape escapeLength (e :: rest)
                rw [hlength, List.drop_succ_cons, List.drop_zero] at hinside
                rw [decodeChars_short hunicode]
                apply ih.map (hinside.trans (and_iff_right (by simp)))
                intro result hend
                refine ⟨.escape ?_ ?_, hend.2⟩
                · rw [hlength]
                  simp
                · rw [hlength, List.drop_succ_cons]
                  exact hend.1
        · have ih := decodeChars_outcome rest
          rw [decodeChars_char hquote hbackslash]
          apply ih.map (escapesInside_char hquote hbackslash rest)
          intro result hend
          exact ⟨.char hquote hbackslash hend.1, hend.2⟩
termination_by content.length
decreasing_by all_goals simp [List.length_drop]; try omega

theorem parseString_cases (content : Bytes) :
    (¬LiteralInside content ∧ parseString (quote :: content) = .error .outside) ∨
      (LiteralInside content ∧ ¬CountFits content ∧
        parseString (quote :: content) = .error .overflow) ∨
      (LiteralInside content ∧ ∃ out stop, parseString (quote :: content) = .ok (out, stop) ∧
        LiteralEnds content stop) := by
  have hcount := countChars_outcome content
  have hdecode := decodeChars_outcome content
  simp only [parseString, peek_cons, ne_eq, not_true, if_false, List.tail_cons]
  cases hlen : countChars content with
  | error e =>
      rw [hlen] at hcount
      cases hcount with
      | outside hout => exact Or.inl ⟨fun h => hout h.1, rfl⟩
  | ok count =>
      rw [hlen] at hcount
      cases hcount with
      | ended hin hcount =>
          have hfits : CountFits content ↔ count + 1 ≤ intMax := by
            rw [CountFits, hcount]
          change (_ ∧ (if count + 1 ≤ intMax then _ else _) = _) ∨
            (_ ∧ _ ∧ (if count + 1 ≤ intMax then _ else _) = _) ∨
            (_ ∧ ∃ out stop, (if count + 1 ≤ intMax then _ else _) = _ ∧ _)
          by_cases hle : count + 1 ≤ intMax
          · simp only [if_pos hle]
            cases hresult : decodeChars 0 content with
            | error e =>
                rw [hresult] at hdecode
                cases hdecode with
                | outside hout => exact Or.inl ⟨fun h => hout (h.2 (hfits.mpr hle)), rfl⟩
            | ok result =>
                obtain ⟨out, ptr⟩ := result
                rw [hresult] at hdecode
                cases hdecode with
                | ended hinside hend =>
                    refine Or.inr (Or.inr ⟨⟨hin, fun _ => hinside⟩, out, _, rfl, hfits.mpr hle, ?_⟩)
                    rcases hend with ⟨hwalk, hnil | hquote⟩
                    · obtain rfl : ptr = [] := hnil
                      exact Or.inr ⟨hwalk, ite_self _⟩
                    · cases ptr with
                      | nil => exact Or.inr ⟨hwalk, ite_self _⟩
                      | cons c rest =>
                          obtain rfl : c = quote := hquote
                          exact Or.inl (by simpa using hwalk)
          · simp only [if_neg hle]
            refine Or.inr (Or.inl ⟨⟨hin, fun h => absurd (hfits.mp h) hle⟩, ?_, trivial⟩)
            exact fun h => hle (hfits.mp h)

theorem LiteralEnds.suffix (h : LiteralEnds content stop) : stop <:+ content := by
  rcases h.2 with hwalk | ⟨_, rfl⟩
  · exact (List.suffix_cons _ _).trans hwalk.suffix
  · exact List.nil_suffix

/-! Numbers. -/

def afterSign (num : Bytes) : Bytes := if peek num = minus then num.tail else num

def afterIntegral (num : Bytes) : Bytes :=
  let num := if peek num = zero then num.tail else num
  if 49 ≤ peek num && peek num ≤ 57 then num.dropWhile isDigit else num

def afterFraction (num : Bytes) : Bytes :=
  if peek num = point && isDigit (peek num.tail) then num.tail.dropWhile isDigit else num

def afterExponent (num : Bytes) : Bytes :=
  if peek num = lowerE || peek num = upperE then
    let num := num.tail
    let num := if peek num = plus || peek num = minus then num.tail else num
    num.dropWhile isDigit
  else num

/-- The text behind a number. -/
def afterNumber (num : Bytes) : Bytes :=
  afterExponent (afterFraction (afterIntegral (afterSign num)))

theorem readDigits_rest (text : Bytes) :
    ∀ n, (readDigits n text).2.2 = text.dropWhile isDigit := by
  induction text with
  | nil =>
      intro n
      rfl
  | cons c text ih =>
      intro n
      rw [readDigits, List.dropWhile_cons]
      split
      · exact ih _
      · rfl

theorem readSubscale_rest (text : Bytes) :
    ∀ subscale, (readSubscale subscale text).2 = text.dropWhile isDigit := by
  induction text with
  | nil =>
      intro subscale
      rfl
  | cons c text ih =>
      intro subscale
      rw [readSubscale, List.dropWhile_cons]
      split
      · exact ih _
      · rfl

theorem parseNumber_rest (num : Bytes) : (parseNumber num).2 = afterNumber num := by
  have hsign : (readSign num).2 = afterSign num := by
    rw [readSign, afterSign]
    split <;> rfl
  have hintegral : ∀ num, (readIntegral num).2 = afterIntegral num := by
    intro num
    simp only [readIntegral, afterIntegral]
    split_ifs
    · exact readDigits_rest _ _
    · rfl
    · exact readDigits_rest _ _
    · rfl
  have hfraction : ∀ n num, (readFraction n num).2.2 = afterFraction num := by
    intro n num
    simp only [readFraction, afterFraction]
    split
    · exact readDigits_rest _ _
    · rfl
  have hexponent : ∀ num, (readExponent num).2 = afterExponent num := by
    intro num
    simp only [readExponent, afterExponent]
    split
    · simp only [readSubscale_rest]
      split_ifs <;> simp_all
    · rfl
  simp only [parseNumber, hexponent, hfraction, hintegral, hsign, afterNumber]

theorem afterFraction_suffix (num : Bytes) : afterFraction num <:+ num := by
  unfold afterFraction
  split
  · exact (List.dropWhile_suffix _).trans (List.tail_suffix num)
  · exact List.suffix_refl num

theorem afterExponent_suffix (num : Bytes) : afterExponent num <:+ num := by
  simp only [afterExponent]
  split
  · apply (List.dropWhile_suffix _).trans
    split
    · exact (List.tail_suffix _).trans (List.tail_suffix num)
    · exact List.tail_suffix num
  · exact List.suffix_refl num

theorem afterIntegral_suffix (num : Bytes) : afterIntegral num <:+ num := by
  simp only [afterIntegral]
  split_ifs
  · exact (List.dropWhile_suffix _).trans (List.tail_suffix num)
  · exact List.tail_suffix num
  · exact List.dropWhile_suffix _
  · exact List.suffix_refl num

theorem afterNumber_suffix (num : Bytes) : afterNumber num <:+ num := by
  have hsign : afterSign num <:+ num := by
    rw [afterSign]
    split
    · exact List.tail_suffix num
    · exact List.suffix_refl num
  apply (afterExponent_suffix _).trans
  apply (afterFraction_suffix _).trans
  exact (afterIntegral_suffix _).trans hsign

end RebuildTheWheel.CJson
