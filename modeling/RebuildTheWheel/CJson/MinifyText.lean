import RebuildTheWheel.CJson.Minify
import RebuildTheWheel.CJson.Parse

namespace RebuildTheWheel.CJson

open RebuildTheWheel.Data
open RebuildTheWheel.Data.Ascii

namespace Minify

/-! What a run of `cJSON_Minify` keeps of a text, byte by byte. -/

/-- Where in the text a byte stands. -/
inductive Mode where
  | code
  | line
  | block
  /-- At the slash that closes a block comment. -/
  | closing
  | string
  | escape
  deriving DecidableEq

namespace Mode

/-- The mode behind a byte `c` with `d` behind it. A block comment may use the star that opens
it to close. -/
def next (c d : UInt8) : Mode → Mode
  | code =>
      if c = quote then string
      else if c = slash && d = slash then line
      else if c = slash && d = asterisk then block
      else code
  | line => if c = newline then code else line
  | block => if c = asterisk && d = slash then closing else block
  | closing => code
  | string => if c = quote then code else if c = backslash then escape else string
  | escape => string

def isBlank (c : UInt8) : Bool := c = space || c = tab || c = carriageReturn || c = newline

/-- Whether a byte `c` with `d` behind it stays in the text. -/
def keeps (c d : UInt8) : Mode → Bool
  | code => !isBlank c && !(c = slash && (d = slash || d = asterisk))
  | string => true
  | escape => true
  | _ => false

/-- A text may end here. -/
def isClosed : Mode → Bool
  | code => true
  | line => true
  | _ => false

end Mode

/-- The mode at the end of a text. -/
def endMode : Mode → Bytes → Mode
  | mode, [] => mode
  | mode, c :: rest => endMode (mode.next c (peek rest)) rest

/-- The bytes that stay, unless the text ends inside a string or a block comment. -/
def strip : Mode → Bytes → Option Bytes
  | mode, [] => if mode.isClosed then some [] else none
  | mode, c :: rest =>
      (strip (mode.next c (peek rest)) rest).map fun out =>
        if mode.keeps c (peek rest) then c :: out else out

theorem isSome_strip (mode : Mode) (text : Bytes) :
    (strip mode text).isSome = (endMode mode text).isClosed := by
  induction text generalizing mode with
  | nil =>
      rw [strip, endMode]
      cases mode.isClosed <;> rfl
  | cons c rest ih => rw [strip, endMode, Option.isSome_map, ih]

/-- `out` is written, and `rest` is still to be read. -/
def At (s : Minify) (out rest : Bytes) : Prop :=
  ∃ gap, s.buffer = out ++ (gap ++ (rest ++ [0])) ∧ s.into = out.length ∧
    s.json = out.length + gap.length

/-- `json` is behind the NUL. -/
def Past (s : Minify) : Prop := s.buffer.length ≤ s.json

variable {s s' : Minify} {out rest : Bytes} {c : UInt8}

theorem at_start (text : Bytes) : At ⟨text ++ [0], 0, 0⟩ [] text := ⟨[], rfl, rfl, rfl⟩

theorem At.rest_lt_rounds (hs : s.At out rest) : rest.length + 1 < s.rounds := by
  obtain ⟨gap, hbuffer, -, -⟩ := hs
  rw [rounds, hbuffer]
  simp only [List.length_append, List.length_singleton]
  omega

theorem At.load_eq (hs : s.At out rest) (i : Nat) (hi : i ≤ rest.length) :
    s.load i = .ok (rest.getD i 0) := by
  obtain ⟨gap, hbuffer, -, hjson⟩ := hs
  have hget : s.buffer[s.json + i]? = some (rest.getD i 0) := by
    rw [hbuffer, hjson, List.getElem?_append_right (by omega), List.getElem?_append_right (by omega),
      show out.length + gap.length + i - out.length - gap.length = i by omega,
      List.getD_eq_getElem?_getD]
    obtain hlt | rfl := Nat.lt_or_eq_of_le hi
    · rw [List.getElem?_append_left hlt, List.getElem?_eq_getElem hlt]
      rfl
    · rw [List.getElem?_concat_length, List.getElem?_eq_none le_rfl]
      rfl
  rw [load, hget]

theorem At.load_head (hs : s.At out (c :: rest)) : s.load 0 = .ok c := hs.load_eq 0 (Nat.zero_le _)

theorem At.load_nul (hs : s.At out []) : s.load 0 = .ok 0 := hs.load_eq 0 le_rfl

theorem At.load_peek (hs : s.At out (c :: rest)) : s.load 1 = .ok (peek rest) := by
  rw [hs.load_eq 1 (Nat.succ_le_succ (Nat.zero_le _))]
  cases rest <;> rfl

theorem At.advance (hs : s.At out (c :: rest)) : (s.advance 1).At out rest := by
  obtain ⟨gap, hbuffer, hinto, hjson⟩ := hs
  refine ⟨gap ++ [c], ?_, hinto, ?_⟩
  · rw [List.append_assoc]
    exact hbuffer
  · rw [List.length_append, List.length_singleton, ← Nat.add_assoc, ← hjson]
    rfl

theorem At.store_eq (hs : s.At out rest) (c : UInt8) :
    s.store c = .ok { s with buffer := s.buffer.set s.into c } := by
  obtain ⟨gap, hbuffer, hinto, -⟩ := hs
  rw [store, if_pos]
  rw [hbuffer, hinto]
  simp only [List.length_append, List.length_singleton]
  omega

theorem At.copy_eq (hs : s.At out rest) :
    s.copy = .ok { buffer := s.buffer.set s.into (peek rest), json := s.json + 1, into := s.into + 1 } := by
  have hload : s.load 0 = .ok (peek rest) := by
    rw [hs.load_eq 0 (Nat.zero_le _)]
    cases rest <;> rfl
  rw [copy, hload]
  change (s.store (peek rest) >>= _) = _
  rw [hs.store_eq]
  rfl

theorem At.copy (hs : s.At out (c :: rest)) : ∃ s', s.copy = .ok s' ∧ s'.At (out ++ [c]) rest := by
  refine ⟨_, hs.copy_eq, ?_⟩
  obtain ⟨gap, hbuffer, hinto, hjson⟩ := hs
  rw [hbuffer, hinto, hjson]
  cases gap with
  | nil =>
      refine ⟨[], ?_, ?_, ?_⟩
      · simp
      · simp
      · simp
  | cons b gap =>
      refine ⟨gap ++ [c], ?_, ?_, ?_⟩
      · simp
      · simp
      · simp only [List.length_append, List.length_cons, List.length_nil]
        omega

theorem At.copy_nul (hs : s.At out []) : ∃ s', s.copy = .ok s' ∧ s'.Past := by
  refine ⟨_, hs.copy_eq, ?_⟩
  obtain ⟨gap, hbuffer, -, hjson⟩ := hs
  rw [Past, List.length_set, hbuffer, hjson]
  simp only [List.length_append, List.length_nil, List.length_singleton]
  omega

theorem Past.load (hs : s.Past) (i : Nat) : s.load i = .error .outside := by
  rw [Minify.load, List.getElem?_eq_none (hs.trans (Nat.le_add_right _ i))]

/-! The inner loops. -/

theorem skipLine_spec : ∀ {fuel : Nat} {s : Minify} {rest : Bytes}, s.At out rest →
    (0 : UInt8) ∉ rest → rest.length < fuel → ∃ s' rest', skipLine fuel s = .ok s' ∧ s'.At out rest' ∧
      strip .line rest = strip .code rest' ∧ rest' <:+ rest
  | fuel + 1, s, [], hs, _, _ => by
      refine ⟨s, [], ?_, hs, rfl, List.suffix_refl []⟩
      rw [skipLine, hs.load_nul]
      rfl
  | fuel + 1, s, c :: rest, hs, hnul, hfuel => by
      rw [List.mem_cons, not_or] at hnul
      rw [skipLine, hs.load_head]
      change ∃ s' rest', (if (c ≠ 0 && c ≠ newline) = true then _ else _) = _ ∧ _
      by_cases hc : c = newline
      · subst hc
        exact ⟨s, newline :: rest, rfl, hs, rfl, List.suffix_refl _⟩
      · rw [if_pos (by simp [hc, Ne.symm hnul.1])]
        obtain ⟨s', rest', hrun, hat, hstrip, hsuffix⟩ :=
          skipLine_spec hs.advance hnul.2 (Nat.lt_of_succ_lt_succ hfuel)
        refine ⟨s', rest', hrun, hat, ?_, hsuffix.trans (List.suffix_cons c rest)⟩
        rw [strip, Mode.next, if_neg hc, hstrip]
        exact Option.map_id'

/-- A block comment ends, or the text does. -/
theorem skipBlock_spec : ∀ {fuel : Nat} {s : Minify} {rest : Bytes}, s.At out rest →
    (0 : UInt8) ∉ rest → rest.length < fuel → ∃ s', skipBlock fuel s = .ok s' ∧
      ((∃ rest', s'.At out (asterisk :: slash :: rest') ∧ strip .block rest = strip .code rest' ∧
          rest' <:+ rest) ∨ s'.At out [] ∧ strip .block rest = none)
  | fuel + 1, s, [], hs, _, _ => by
      refine ⟨s, ?_, Or.inr ⟨hs, rfl⟩⟩
      rw [skipBlock, hs.load_nul]
      rfl
  | fuel + 1, s, c :: rest, hs, hnul, hfuel => by
      rw [List.mem_cons, not_or] at hnul
      have hnext := skipBlock_spec hs.advance hnul.2 (Nat.lt_of_succ_lt_succ hfuel)
      have hgoes : ¬(c = asterisk ∧ peek rest = slash) →
          (∃ s', skipBlock fuel (s.advance 1) = .ok s' ∧
            ((∃ rest', s'.At out (asterisk :: slash :: rest') ∧
              strip .block (c :: rest) = strip .code rest' ∧ rest' <:+ c :: rest) ∨
              s'.At out [] ∧ strip .block (c :: rest) = none)) := by
        intro hgo
        have hstrip : strip .block (c :: rest) = strip .block rest := by
          rw [strip, Mode.next, if_neg (by simpa using hgo)]
          exact Option.map_id'
        obtain ⟨s', hrun, hends⟩ := hnext
        rw [hstrip]
        refine ⟨s', hrun, hends.imp_left ?_⟩
        rintro ⟨rest', hat, hclosed, hsuffix⟩
        exact ⟨rest', hat, hclosed, hsuffix.trans (List.suffix_cons c rest)⟩
      rw [skipBlock, hs.load_head]
      change ∃ s', (if c = 0 then _ else if c = asterisk then _ else _) = _ ∧ _
      rw [if_neg (Ne.symm hnul.1)]
      by_cases hc : c = asterisk
      · rw [if_pos hc, hs.load_peek]
        change ∃ s', (if peek rest = slash then _ else _) = _ ∧ _
        by_cases hd : peek rest = slash
        · rw [if_pos hd]
          subst hc
          cases rest with
          | nil => exact absurd hd (by decide)
          | cons d rest =>
              obtain rfl : d = slash := hd
              refine ⟨s, rfl, Or.inl ⟨rest, hs, ?_, ?_⟩⟩
              · have hid : ∀ o : Option Bytes, (o.map fun out => out).map (fun out => out) = o := by
                  intro o
                  cases o <;> rfl
                exact hid (strip .code rest)
              · exact (List.suffix_cons _ _).trans (List.suffix_cons _ _)
        · rw [if_neg hd]
          exact hgoes fun h => hd h.2
      · rw [if_neg hc]
        exact hgoes fun h => hc h.1

/-- The loop `x` over a string literal finds the quote behind it, or the text ends in it. -/
def CharsEnd (out rest : Bytes) (x : Run) : Prop :=
  (∃ s' body rest', x = .ok s' ∧ s'.At (out ++ body) (quote :: rest') ∧
      strip .string rest = (strip .code rest').map (body ++ quote :: ·) ∧ rest' <:+ rest) ∨
    strip .string rest = none ∧ ((∃ s' out', x = .ok s' ∧ s'.At out' []) ∨ x = .error .outside)

theorem CharsEnd.prepend {x : Run} (text : Bytes) (h : CharsEnd (out ++ text) rest x)
    (hstrip : strip .string (text ++ rest) = (strip .string rest).map (text ++ ·)) :
    CharsEnd out (text ++ rest) x := by
  rw [CharsEnd, hstrip]
  obtain ⟨s', body, rest', hrun, hat, hkept, hsuffix⟩ | ⟨hopen, hrun⟩ := h
  · refine Or.inl ⟨s', text ++ body, rest', hrun, ?_, ?_, hsuffix.trans (List.suffix_append text rest)⟩
    · rwa [List.append_assoc] at hat
    · rw [hkept, Option.map_map]
      refine congrArg (fun f => Option.map f (strip .code rest')) (funext fun o => ?_)
      exact (List.append_assoc text body _).symm
  · refine Or.inr ⟨?_, hrun⟩
    rw [hopen]
    rfl

theorem copyChars_spec : ∀ {fuel : Nat} {s : Minify} {out rest : Bytes}, s.At out rest →
    (0 : UInt8) ∉ rest → rest.length < fuel → CharsEnd out rest (copyChars fuel s)
  | fuel + 1, s, out, [], hs, _, _ => by
      refine Or.inr ⟨rfl, Or.inl ⟨s, out, ?_, hs⟩⟩
      rw [copyChars, hs.load_nul]
      rfl
  | fuel + 1, s, out, c :: rest, hs, hnul, hfuel => by
      rw [List.mem_cons, not_or] at hnul
      have hrest : rest.length < fuel := Nat.lt_of_succ_lt_succ hfuel
      rw [copyChars, hs.load_head]
      change CharsEnd out (c :: rest) (if (c ≠ 0 && c ≠ quote) = true then
        if c = backslash then s.copy >>= fun s => s.copy >>= copyChars fuel
        else .ok s >>= fun s => s.copy >>= copyChars fuel
        else .ok s)
      by_cases hquote : c = quote
      · subst hquote
        refine Or.inl ⟨s, [], rest, rfl, ?_, rfl, List.suffix_cons _ _⟩
        rwa [List.append_nil]
      rw [if_pos (by simp [hquote, Ne.symm hnul.1])]
      obtain ⟨s1, hcopy, hs1⟩ := hs.copy
      by_cases hescape : c = backslash
      · subst hescape
        rw [if_pos rfl, hcopy]
        change CharsEnd out (backslash :: rest) (s1.copy >>= copyChars fuel)
        cases rest with
        | nil =>
            -- the NUL behind the backslash is copied
            obtain ⟨s2, hcopy2, hpast⟩ := hs1.copy_nul
            refine Or.inr ⟨rfl, Or.inr ?_⟩
            rw [hcopy2]
            cases fuel with
            | zero => exact absurd hrest (Nat.not_lt_zero _)
            | succ fuel =>
                change copyChars (fuel + 1) s2 = _
                rw [copyChars, hpast.load]
                rfl
        | cons d rest =>
            rw [List.mem_cons, not_or] at hnul
            obtain ⟨s2, hcopy2, hs2⟩ := hs1.copy
            rw [hcopy2]
            rw [List.append_assoc] at hs2
            refine CharsEnd.prepend [backslash, d]
              (copyChars_spec hs2 hnul.2.2 (Nat.lt_of_succ_lt hrest)) ?_
            change ((strip .string rest).map (d :: ·)).map (backslash :: ·) = _
            rw [Option.map_map]
            rfl
      · rw [if_neg hescape]
        change CharsEnd out (c :: rest) (s.copy >>= copyChars fuel)
        rw [hcopy]
        refine CharsEnd.prepend [c] (copyChars_spec hs1 hnul.2 hrest) ?_
        change strip .string (c :: rest) = (strip .string rest).map (c :: ·)
        rw [strip, Mode.next, if_neg hquote, if_neg hescape]
        rfl

/-! The outer loop. -/

/-- The body `x` of the outer loop takes bytes from the text, or the text ends in it. -/
def RoundEnds (out rest : Bytes) (x : Run) : Prop :=
  (∃ s' body rest', x = .ok s' ∧ s'.At (out ++ body) rest' ∧
      strip .code rest = (strip .code rest').map (body ++ ·) ∧ rest' <:+ rest.tail) ∨
    strip .code rest = none ∧ ((∃ s', x = .ok s' ∧ s'.Past) ∨ x = .error .outside)

/-- Bytes are dropped. -/
theorem roundEnds_drop {rest' : Bytes} {x : Run} (hx : x = .ok s') (hs : s'.At out rest')
    (hstrip : strip .code rest = strip .code rest') (hsuffix : rest' <:+ rest.tail) :
    RoundEnds out rest x := by
  refine Or.inl ⟨s', [], rest', hx, ?_, ?_, hsuffix⟩
  · rwa [List.append_nil]
  · rw [hstrip]
    exact Option.map_id'.symm

theorem round_copy (hs : s.At out (c :: rest)) (hquote : c ≠ quote)
    (hkeeps : Mode.keeps c (peek rest) .code = true)
    (hcomment : (c = slash && (peek rest = slash || peek rest = asterisk)) = false) :
    RoundEnds out (c :: rest) s.copy := by
  obtain ⟨s', hcopy, hat⟩ := hs.copy
  refine Or.inl ⟨s', [c], rest, hcopy, hat, ?_, List.suffix_refl _⟩
  have hnext : Mode.next c (peek rest) .code = .code := by
    rw [Bool.and_or_distrib_left, Bool.or_eq_false_iff] at hcomment
    rw [Mode.next, if_neg hquote, hcomment.1, hcomment.2]
    rfl
  rw [strip, hkeeps, hnext]
  rfl

theorem round_slash (hs : s.At out (slash :: rest)) (hnul : (0 : UInt8) ∉ rest) :
    RoundEnds out (slash :: rest) (s.round slash) := by
  have hfuel : rest.length < s.buffer.length := Nat.lt_of_succ_lt (Nat.lt_of_succ_lt_succ hs.rest_lt_rounds)
  change RoundEnds out _ (s.load 1 >>= _)
  rw [hs.load_peek]
  change RoundEnds out _ (if peek rest = slash then _ else if peek rest = asterisk then _ else _)
  by_cases hline : peek rest = slash
  · rw [if_pos hline, rounds, skipLine, hs.load_head]
    change RoundEnds out _ (skipLine s.buffer.length (s.advance 1))
    obtain ⟨s', rest', hrun, hat, hstrip, hsuffix⟩ := skipLine_spec hs.advance hnul hfuel
    refine roundEnds_drop hrun hat ?_ hsuffix
    rw [← hstrip, strip, hline]
    exact Option.map_id'
  rw [if_neg hline]
  by_cases hblock : peek rest = asterisk
  · rw [if_pos hblock, rounds, skipBlock, hs.load_head]
    change RoundEnds out _ (skipBlock s.buffer.length (s.advance 1) >>= fun s => .ok (s.advance 2))
    have hstart : strip .code (slash :: rest) = strip .block rest := by
      rw [strip, hblock]
      exact Option.map_id'
    obtain ⟨s', hrun, ⟨rest', hat, hstrip, hsuffix⟩ | ⟨hat, hopen⟩⟩ := skipBlock_spec hs.advance hnul hfuel
    · rw [hrun]
      exact roundEnds_drop rfl hat.advance.advance (hstart.trans hstrip) hsuffix
    · rw [hrun]
      refine Or.inr ⟨hstart.trans hopen, Or.inl ⟨_, rfl, ?_⟩⟩
      obtain ⟨gap, hbuffer, -, hjson⟩ := hat
      rw [Past, Minify.advance, hbuffer, hjson]
      simp only [List.length_append, List.length_nil, List.length_singleton]
      omega
  · rw [if_neg hblock]
    have hcomment : (decide (slash = slash) && (decide (peek rest = slash) || decide (peek rest = asterisk))) =
        false := by simp [hline, hblock]
    exact round_copy hs (by decide) (by rw [Mode.keeps, hcomment]; rfl) hcomment

theorem round_quote (hs : s.At out (quote :: rest)) (hnul : (0 : UInt8) ∉ rest) :
    RoundEnds out (quote :: rest) (s.round quote) := by
  obtain ⟨s1, hcopy, hs1⟩ := hs.copy
  have hstart : strip .code (quote :: rest) = (strip .string rest).map (quote :: ·) := by
    rw [strip]
    rfl
  change RoundEnds out _ (s.copy >>= fun s => copyChars s.rounds s >>= fun s => s.copy)
  rw [hcopy]
  change RoundEnds out _ (copyChars s1.rounds s1 >>= fun s => s.copy)
  rw [RoundEnds, hstart]
  obtain ⟨s2, body, rest', hrun, hat, hkept, hsuffix⟩ | ⟨hopen, hrun⟩ :=
    copyChars_spec hs1 hnul (Nat.lt_of_succ_lt hs1.rest_lt_rounds)
  · obtain ⟨s3, hcopy3, hs3⟩ := hat.copy
    refine Or.inl ⟨s3, quote :: (body ++ [quote]), rest', ?_, ?_, ?_, hsuffix⟩
    · rw [hrun]
      exact hcopy3
    · rwa [List.append_assoc, List.append_assoc] at hs3
    · rw [hkept, Option.map_map]
      refine congrArg (fun f => Option.map f (strip .code rest')) (funext fun o => ?_)
      simp
  · refine Or.inr ⟨by rw [hopen]; rfl, ?_⟩
    obtain ⟨s2, out', hrun, hat⟩ | hrun := hrun
    · obtain ⟨s3, hcopy3, hpast⟩ := hat.copy_nul
      rw [hrun]
      exact Or.inl ⟨s3, hcopy3, hpast⟩
    · rw [hrun]
      exact Or.inr rfl

theorem Mode.next_blank (hblank : isBlank c = true) (d : UInt8) : next c d .code = .code := by
  simp only [isBlank, Bool.or_eq_true, decide_eq_true_eq] at hblank
  obtain ((rfl | rfl) | rfl) | rfl := hblank <;> rfl

theorem round_spec (hs : s.At out (c :: rest)) (hnul : (0 : UInt8) ∉ rest) :
    RoundEnds out (c :: rest) (s.round c) := by
  by_cases hblank : Mode.isBlank c = true
  · have hround : s.round c = .ok (s.advance 1) := if_pos hblank
    refine roundEnds_drop hround hs.advance ?_ (List.suffix_refl _)
    have hkeeps : Mode.keeps c (peek rest) .code = false := by
      rw [Mode.keeps, hblank]
      rfl
    rw [strip, hkeeps, Mode.next_blank hblank]
    exact Option.map_id'
  by_cases hslash : c = slash
  · subst hslash
    exact round_slash hs hnul
  by_cases hquote : c = quote
  · subst hquote
    exact round_quote hs hnul
  have hround : s.round c = s.copy := by
    rw [Minify.round, if_neg hslash, if_neg hquote]
    exact if_neg hblank
  rw [hround]
  have hcomment : (decide (c = slash) && (decide (peek rest = slash) || decide (peek rest = asterisk))) =
      false := by simp [hslash]
  refine round_copy hs hquote ?_ hcomment
  rw [Mode.keeps, hcomment, eq_false_of_ne_true hblank]
  rfl

theorem pass_spec : ∀ {fuel : Nat} {s : Minify} {out rest : Bytes}, s.At out rest →
    (0 : UInt8) ∉ rest → rest.length < fuel →
    (∃ s' body, pass fuel s = .ok s' ∧ s'.At (out ++ body) [] ∧ strip .code rest = some body) ∨
      pass fuel s = .error .outside ∧ strip .code rest = none
  | fuel + 1, s, out, [], hs, _, _ => by
      refine Or.inl ⟨s, [], ?_, ?_, rfl⟩
      · rw [pass, hs.load_nul]
        rfl
      · rwa [List.append_nil]
  | fuel + 1, s, out, c :: rest, hs, hnul, hfuel => by
      rw [List.mem_cons, not_or] at hnul
      have hrest : rest.length < fuel := Nat.lt_of_succ_lt_succ hfuel
      have hrun : pass (fuel + 1) s = s.round c >>= pass fuel := by
        rw [pass, hs.load_head]
        exact if_neg (Ne.symm hnul.1)
      rw [hrun]
      obtain ⟨s1, body, rest', hround, hat, hstrip, hsuffix⟩ | ⟨hopen, hround⟩ := round_spec hs hnul.2
      · rw [hround, hstrip]
        obtain ⟨s2, body', hpass, hat', hkept⟩ | ⟨hpass, hopen⟩ :=
          pass_spec hat (fun h => hnul.2 (hsuffix.mem h)) (hsuffix.length_le.trans_lt hrest)
        · refine Or.inl ⟨s2, body ++ body', hpass, ?_, ?_⟩
          · rwa [List.append_assoc] at hat'
          · rw [hkept]
            rfl
        · refine Or.inr ⟨hpass, ?_⟩
          rw [hopen]
          rfl
      · refine Or.inr ⟨?_, hopen⟩
        obtain ⟨s1, hround, hpast⟩ | hround := hround
        · rw [hround]
          cases fuel with
          | zero => exact absurd hrest (Nat.not_lt_zero _)
          | succ fuel =>
              change pass (fuel + 1) s1 = _
              rw [pass, hpast.load]
              rfl
        · rw [hround]
          rfl

end Minify

/-- The buffer after a run: the bytes that stay, a NUL, and what is left of the old text. -/
theorem minify_eq (text : CString) :
    (∃ kept left, Minify.strip .code text.1 = some kept ∧
        minify (text.1 ++ [0]) = .ok (kept ++ 0 :: left)) ∨
      Minify.strip .code text.1 = none ∧ minify (text.1 ++ [0]) = .error .outside := by
  have hstart := Minify.at_start text.1
  obtain ⟨s', kept, hpass, hat, hstrip⟩ | ⟨hpass, hopen⟩ :=
    Minify.pass_spec hstart text.2 (Nat.lt_of_succ_lt hstart.rest_lt_rounds)
  · have hstore := hat.store_eq 0
    obtain ⟨gap, hbuffer, hinto, -⟩ := hat
    have hset : s'.buffer.set s'.into 0 = kept ++ 0 :: (gap ++ [0]).tail := by
      rw [hbuffer, hinto]
      cases gap <;> simp
    refine Or.inl ⟨kept, (gap ++ [0]).tail, hstrip, ?_⟩
    rw [minify, hpass]
    change (s'.store 0 >>= fun s => .ok s.buffer) = _
    rw [hstore, ← hset]
    rfl
  · refine Or.inr ⟨hopen, ?_⟩
    rw [minify, hpass]
    rfl

namespace Minify

theorem strip_sublist {mode : Mode} {text kept : Bytes} (h : strip mode text = some kept) :
    kept.Sublist text := by
  induction text generalizing mode kept with
  | nil =>
      rw [strip] at h
      split at h
      · cases h
        exact List.Sublist.refl []
      · cases h
  | cons c rest ih =>
      rw [strip, Option.map_eq_some_iff] at h
      obtain ⟨out, hout, rfl⟩ := h
      have hsub := ih hout
      split
      · exact hsub.cons_cons c
      · exact hsub.cons c

/-- The text does not end inside a string literal or a block comment. -/
def Closed (text : Bytes) : Prop := (endMode .code text).isClosed = true

instance (text : Bytes) : Decidable (Closed text) := inferInstanceAs (Decidable (_ = true))

end Minify

/-- A buffer that holds a NUL-terminated text of at most `n` bytes. -/
def HoldsText (n : Nat) (buffer : Bytes) : Prop :=
  ∃ text left : Bytes, buffer = text ++ 0 :: left ∧ 0 ∉ text ∧ text.length ≤ n

/-- A run inside the buffer. -/
theorem minify_inside_iff (text : CString) :
    (∃ buffer, minify (text.1 ++ [0]) = .ok buffer ∧ HoldsText text.1.length buffer) ↔
      Minify.Closed text.1 := by
  rw [Minify.Closed, ← Minify.isSome_strip]
  obtain ⟨kept, left, hstrip, hrun⟩ | ⟨hopen, hrun⟩ := minify_eq text
  · rw [hstrip]
    have hsub := Minify.strip_sublist hstrip
    exact iff_of_true ⟨_, hrun, kept, left, rfl, fun h => text.2 (hsub.mem h), hsub.length_le⟩ rfl
  · rw [hopen]
    refine iff_of_false ?_ Bool.false_ne_true
    rintro ⟨buffer, hbuffer, -⟩
    rw [hrun] at hbuffer
    cases hbuffer

/-- Text that ends inside a string literal, behind a backslash in one, and inside a comment. -/
theorem minify_outside :
    minify [quote, 0] = .error .outside ∧ minify [quote, backslash, 0] = .error .outside ∧
      minify [slash, asterisk, 0] = .error .outside := by
  decide

end RebuildTheWheel.CJson
