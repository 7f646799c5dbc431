import RebuildTheWheel.CJson.MinifyText
import RebuildTheWheel.CJson.ParseLexemes
import RebuildTheWheel.Data.JsonComments

namespace RebuildTheWheel.CJson

open RebuildTheWheel.Data
open RebuildTheWheel.Data.Ascii
open RebuildTheWheel.Data.Json (CommentGap CommentedText Hex4 LiteralChars NumberLiteral Passes Rewrites
  Renders RendersText StringLiteral Whitespace blankComments lexemes not_closing
  rendersText_lexemes_unique)

namespace Minify

/-! `cJSON_Minify` keeps the tokens of a JSON text and drops what is between them. -/

theorem strip_plain {c : UInt8} (hquote : c ≠ quote) (hslash : c ≠ slash) (hc : 32 < c) :
    Passes (strip .code) [c] [c] := by
  intro rest
  have hblank : Mode.isBlank c = false := by
    have hbyte : ∀ b : UInt8, 32 < b → Mode.isBlank b = false := by
      apply forall_byte
      decide
    exact hbyte c hc
  have hnext : Mode.next c (peek rest) .code = .code := by simp [Mode.next, hquote, hslash]
  have hkeeps : Mode.keeps c (peek rest) .code = true := by simp [Mode.keeps, hblank, hslash]
  rw [List.singleton_append, strip, hnext, hkeeps]
  rfl

theorem strip_raw : ∀ (text rest : Bytes), (∀ b ∈ text, b ≠ quote ∧ b ≠ backslash) →
    strip .string (text ++ rest) = (strip .string rest).map (text ++ ·)
  | [], rest, _ => (Option.map_id' (x := strip .string rest)).symm
  | c :: text, rest, h => by
      obtain ⟨hquote, hbackslash⟩ := h c List.mem_cons_self
      have hnext : Mode.next c (peek (text ++ rest)) .string = .string := by
        simp [Mode.next, hquote, hbackslash]
      rw [List.cons_append, strip, hnext, strip_raw text rest fun b hb => h b (List.mem_cons_of_mem c hb),
        Option.map_map]
      rfl

theorem strip_chars {body : Bytes} (h : LiteralChars body) (rest : Bytes) :
    strip .string (body ++ quote :: rest) = (strip .code rest).map (body ++ quote :: ·) := by
  induction h with
  | nil => rfl
  | @plain b tail _ hquote hbackslash _ ih =>
      have hone := strip_raw [b] (tail ++ quote :: rest)
        (List.forall_mem_singleton.mpr ⟨hquote, hbackslash⟩)
      rw [ih, Option.map_map] at hone
      exact hone
  | @short e tail _ _ ih =>
      have htwo : strip .string (backslash :: e :: (tail ++ quote :: rest)) =
          (strip .string (tail ++ quote :: rest)).map fun out => backslash :: e :: out :=
        Option.map_map ..
      rw [List.cons_append, List.cons_append, htwo, ih, Option.map_map]
      rfl
  | @unicode n digits tail hdigits _ ih =>
      have htwo : strip .string (backslash :: lowerU :: (digits ++ (tail ++ quote :: rest))) =
          (strip .string (digits ++ (tail ++ quote :: rest))).map fun out =>
            backslash :: lowerU :: out := Option.map_map ..
      rw [List.cons_append, List.cons_append, List.append_assoc, htwo, strip_raw _ _ hdigits.plain, ih,
        Option.map_map, Option.map_map]
      refine congrArg (fun f => Option.map f (strip .code rest)) (funext fun out => ?_)
      simp

theorem strip_string {text : Bytes} (h : StringLiteral text) : Passes (strip .code) text text := by
  obtain ⟨body, rfl, hbody⟩ := h
  intro rest
  have hstart : strip .code (quote :: (body ++ quote :: rest)) =
      (strip .string (body ++ quote :: rest)).map (quote :: ·) := rfl
  rw [List.cons_append, List.append_assoc]
  change strip .code (quote :: (body ++ quote :: rest)) = _
  rw [hstart, strip_chars hbody, Option.map_map]
  refine congrArg (fun f => Option.map f (strip .code rest)) (funext fun out => ?_)
  simp

theorem strip_rewrites {gap : Bytes → Prop} (hgap : ∀ {text}, gap text → Passes (strip .code) text []) :
    Rewrites (strip .code) gap (· = []) where
  plain := strip_plain
  string := strip_string
  gap h := ⟨[], rfl, hgap h⟩

theorem strip_line {body : Bytes} (h : newline ∉ body) (rest : Bytes) :
    strip .line (body ++ rest) = strip .line rest := by
  induction body with
  | nil => rfl
  | cons c body ih =>
      rw [List.mem_cons, not_or] at h
      rw [List.cons_append, strip, Mode.next, if_neg (Ne.symm h.1), ih h.2]
      exact Option.map_id'

theorem strip_block {body : Bytes} (h : ¬[asterisk, slash] <:+: body) (rest : Bytes) :
    strip .block (body ++ asterisk :: slash :: rest) = strip .code rest := by
  induction body with
  | nil =>
      have hclosing : strip .closing (slash :: rest) = strip .code rest := Option.map_id'
      have hstart : strip .block (asterisk :: slash :: rest) = strip .closing (slash :: rest) :=
        Option.map_id'
      exact hstart.trans hclosing
  | cons c body ih =>
      obtain ⟨hgo, hbody⟩ := not_closing h (slash :: rest)
      have hpeek : peek (body ++ asterisk :: slash :: rest) =
          (body ++ asterisk :: slash :: rest).headD 0 := by
        cases body <;> rfl
      rw [List.cons_append, strip, Mode.next, hpeek, hgo, ← ih hbody]
      exact Option.map_id'

/-- A comment is no mistake for `cJSON_Minify` if `/*` has no slash behind it. -/
def OpensClear (body : Bytes) : Prop := body.head? ≠ some slash

theorem strip_gap {text : Bytes} (h : CommentGap OpensClear text) : Passes (strip .code) text [] := by
  have hdrop : ∀ text rest : Bytes, (∀ more, strip .code (text ++ more) = strip .code more) →
      Passes (strip .code) rest [] → Passes (strip .code) (text ++ rest) [] := fun text rest h hrest more => by
    rw [List.append_assoc, h, hrest]
  induction h with
  | nil => exact Passes.nil
  | @space b tail hb _ ih =>
      apply hdrop [b] tail _ ih
      intro more
      obtain rfl | rfl | rfl | rfl := hb <;> exact Option.map_id'
  | @line body tail hbody _ ih =>
      have hsplit : slash :: slash :: (body ++ newline :: tail) =
          slash :: slash :: (body ++ [newline]) ++ tail := by simp
      rw [hsplit]
      apply hdrop _ tail _ ih
      intro more
      have hstart : strip .code (slash :: slash :: (body ++ newline :: more)) =
          strip .line (slash :: (body ++ newline :: more)) := Option.map_id'
      have hslash : strip .line (slash :: body ++ newline :: more) = strip .line (newline :: more) :=
        strip_line (List.not_mem_cons_of_ne_of_not_mem (by decide) hbody) _
      have hnewline : strip .line (newline :: more) = strip .code more := Option.map_id'
      simpa using hstart.trans (hslash.trans hnewline)
  | @block body tail hbody hclear _ ih =>
      have hsplit : slash :: asterisk :: (body ++ asterisk :: slash :: tail) =
          slash :: asterisk :: (body ++ [asterisk, slash]) ++ tail := by simp
      rw [hsplit]
      apply hdrop _ tail _ ih
      intro more
      have hopen : ¬[asterisk, slash] <:+: asterisk :: body := by
        rw [List.infix_cons_iff, not_or]
        refine ⟨fun hfirst => ?_, hbody⟩
        obtain ⟨more, hmore⟩ := hfirst
        obtain rfl := (List.cons.inj hmore).2
        exact hclear rfl
      have hstart : strip .code (slash :: asterisk :: (body ++ asterisk :: slash :: more)) =
          strip .block (asterisk :: (body ++ asterisk :: slash :: more)) := Option.map_id'
      simpa using hstart.trans (strip_block hopen more)

end Minify

/-- The bytes of a text that are not inside string literals; `inside` if the text starts in one. -/
def outsideStrings (inside : Bool) : Bytes → Bytes
  | [] => []
  | c :: rest =>
      if inside then
        if c = quote then outsideStrings false rest
        else if c = backslash then
          match rest with
          | [] => []
          | _ :: rest => outsideStrings true rest
        else outsideStrings true rest
      else if c = quote then outsideStrings true rest
      else c :: outsideStrings false rest

namespace Minify

theorem outsideStrings_quote (inside : Bool) (rest : Bytes) :
    outsideStrings inside (quote :: rest) = outsideStrings (!inside) rest := by
  rw [outsideStrings.eq_def]
  cases inside <;> rfl

theorem outsideStrings_escape (rest : Bytes) :
    outsideStrings true (backslash :: rest) = outsideStrings true rest.tail := by
  cases rest <;> rfl

theorem outsideStrings_char {c : UInt8} (hquote : c ≠ quote) (hbackslash : c ≠ backslash)
    (rest : Bytes) : outsideStrings true (c :: rest) = outsideStrings true rest := by
  rw [outsideStrings.eq_def]
  simp [hquote, hbackslash]

theorem outsideStrings_plain {c : UInt8} (hquote : c ≠ quote) (rest : Bytes) :
    outsideStrings false (c :: rest) = c :: outsideStrings false rest := by
  rw [outsideStrings.eq_def]
  simp [hquote]

/-- What a run keeps from `mode` on has no whitespace outside strings. -/
def Clean (out : Bytes) : Mode → Prop
  | .string => ∀ b ∈ outsideStrings true out, Mode.isBlank b = false
  | .escape => ∀ b ∈ outsideStrings true out.tail, Mode.isBlank b = false
  | _ => ∀ b ∈ outsideStrings false out, Mode.isBlank b = false

theorem strip_clean {mode : Mode} {text kept : Bytes} (h : strip mode text = some kept) :
    Clean kept mode := by
  induction text generalizing mode kept with
  | nil =>
      rw [strip, Option.ite_none_right_eq_some] at h
      obtain ⟨-, h⟩ := h
      cases h
      cases mode <;> exact fun _ hb => by cases hb
  | cons c rest ih =>
      rw [strip, Option.map_eq_some_iff] at h
      obtain ⟨out, hout, rfl⟩ := h
      have hnext := ih hout
      cases mode with
      | code =>
          by_cases hquote : c = quote
          · subst hquote
            change ∀ b ∈ outsideStrings false (quote :: out), Mode.isBlank b = false
            rw [outsideStrings_quote]
            exact hnext
          have hgo : Mode.next c (peek rest) .code = .code ∨ Mode.next c (peek rest) .code = .line ∨
              Mode.next c (peek rest) .code = .block := by
            rw [Mode.next, if_neg hquote]
            split_ifs <;> simp
          have hout : ∀ b ∈ outsideStrings false out, Mode.isBlank b = false := by
            obtain hgo | hgo | hgo := hgo <;> rw [hgo] at hnext <;> exact hnext
          split
          · next hkeeps =>
            have hblank : Mode.isBlank c = false := by
              rw [Mode.keeps, Bool.and_eq_true, Bool.not_eq_true'] at hkeeps
              exact hkeeps.1
            change ∀ b ∈ outsideStrings false (c :: out), Mode.isBlank b = false
            rw [outsideStrings_plain hquote]
            exact List.forall_mem_cons.mpr ⟨hblank, hout⟩
          · exact hout
      | line =>
          rw [Mode.next] at hnext
          split at hnext <;> exact hnext
      | block =>
          rw [Mode.next] at hnext
          split at hnext <;> exact hnext
      | closing => exact hnext
      | string =>
          change Clean (c :: out) .string
          rw [Clean]
          by_cases hquote : c = quote
          · subst hquote
            rw [outsideStrings_quote]
            exact hnext
          by_cases hbackslash : c = backslash
          · subst hbackslash
            rw [outsideStrings_escape]
            exact hnext
          · rw [outsideStrings_char hquote hbackslash]
            rw [Mode.next, if_neg hquote, if_neg hbackslash] at hnext
            exact hnext
      | escape => exact hnext

end Minify

/-- The tokens of a text, without anything between them. -/
theorem strip_commented {v : Json Bytes Bytes} {text : Bytes}
    (h : CommentedText Minify.OpensClear v text) :
    ∃ kept, RendersText (lexemes (· = [])) v kept ∧ Minify.strip .code text = some kept := by
  have hrewrites := Minify.strip_rewrites Minify.strip_gap
  cases h with
  | text h =>
      obtain ⟨kept, hkept, hpasses⟩ := hrewrites.rendersText h
      have hstrip := hpasses []
      rw [List.append_nil] at hstrip
      refine ⟨kept, hkept, hstrip.trans ?_⟩
      exact congrArg some (List.append_nil kept)
  | @line text body h hbody =>
      obtain ⟨kept, hkept, hpasses⟩ := hrewrites.rendersText h
      have hline := Minify.strip_line hbody []
      have hstart : Minify.strip .code (slash :: slash :: body) = Minify.strip .line body :=
        Option.map_id'.trans Option.map_id'
      rw [List.append_nil] at hline
      refine ⟨kept, hkept, (hpasses _).trans ?_⟩
      rw [hstart, hline]
      exact congrArg some (List.append_nil kept)

theorem strip_kept {v : Json Bytes Bytes} {kept : Bytes} (h : RendersText (lexemes (· = [])) v kept) :
    Minify.strip .code kept = some kept := by
  have hrewrites : Rewrites (Minify.strip .code) (· = []) (· = []) := Minify.strip_rewrites fun h => by
    rw [h]
    exact Passes.nil
  obtain ⟨kept', h', hpasses⟩ := hrewrites.rendersText h
  have hstrip := hpasses []
  rw [List.append_nil] at hstrip
  obtain rfl : kept = kept' := rendersText_lexemes_unique (fun h h' => h.trans h'.symm) h h'
  exact hstrip.trans (congrArg some (List.append_nil kept))

/-- What `cJSON_Minify` should make of a text. -/
structure Minified (text kept : Bytes) : Prop where
  run : ∃ left, minify (text ++ [0]) = .ok (kept ++ 0 :: left)
  notMem : 0 ∉ kept
  same_tree : parseWithOpts kept true = parseWithOpts (blankComments text) true
  again : ∃ left, minify (kept ++ [0]) = .ok (kept ++ 0 :: left)
  no_blanks : ∀ b ∈ outsideStrings false kept, Minify.Mode.isBlank b = false

theorem whitespace_le {text : Bytes} (h : Whitespace text) : ∀ b ∈ text, b ≤ 32 := by
  intro b hb
  obtain rfl | rfl | rfl | rfl := h b hb <;> decide

/-- A text with comments, none of which opens with `/*/`. -/
theorem minify_commented (v : Json Bytes Bytes) (text : CString)
    (h : CommentedText Minify.OpensClear v text.1) : ∃ kept, Minified text.1 kept := by
  obtain ⟨kept, hkept, hstrip⟩ := strip_commented h
  have hnul : 0 ∉ kept := fun hmem => text.2 ((Minify.strip_sublist hstrip).mem hmem)
  have hrun : ∀ text : CString, Minify.strip .code text.1 = some kept →
      ∃ left, minify (text.1 ++ [0]) = .ok (kept ++ 0 :: left) := by
    intro text hstrip
    obtain ⟨kept', left, hstrip', hrun⟩ | ⟨hopen, -⟩ := minify_eq text
    · obtain rfl := Option.some.inj (hstrip.symm.trans hstrip')
      exact ⟨left, hrun⟩
    · rw [hstrip] at hopen
      cases hopen
  refine ⟨kept, hrun text hstrip, hnul, ?_, hrun ⟨kept, hnul⟩ (strip_kept hkept),
    Minify.strip_clean hstrip⟩
  have htight : Reads (fun n => (parseNumber n).1) readLiteral (lexemes (· = [])) :=
    reads_lexemes fun hgap => hgap ▸ fun _ hb => nomatch hb
  rw [parseWithOpts_renders htight hkept, parseWithOpts_renders (reads_lexemes whitespace_le) h.blank]

theorem rendersText_one {admits : Bytes → Prop} {gap : Bytes} (hgap : CommentGap admits gap) :
    RendersText (lexemes (CommentGap admits)) (.number [49]) (gap ++ [49]) := by
  let one : NumberLiteral :=
    { negative := false, integral := [49], integral_natural := ⟨by decide, List.all_eq_true.mp rfl, by decide, rfl⟩,
      fraction := [], fraction_isDigit := List.all_eq_true.mp rfl, exponent := none }
  have hnil : CommentGap admits [] := .nil
  have hone : Renders (lexemes (CommentGap admits)) (.number [49]) [49] := .number ⟨rfl, one, rfl⟩
  exact RendersText.intro hgap hone hnil

/-- `1// x` -/
theorem minify_commented_one : ∃ kept, Minified [49, slash, slash, space, 120] kept :=
  minify_commented (.number [49]) ⟨[49, slash, slash, space, 120], by decide⟩
    (.line (rendersText_one .nil) (by decide))

/-- `/*/ */1` -/
theorem minify_open_comment :
    CommentedText (fun _ => True) (.number [49]) [slash, asterisk, slash, space, asterisk, slash, 49] ∧
      ¬∃ kept, Minified [slash, asterisk, slash, space, asterisk, slash, 49] kept := by
  have hgap : CommentGap (fun _ => True) [slash, asterisk, slash, space, asterisk, slash] :=
    .block (show ¬[asterisk, slash] <:+: [slash, space] by decide) trivial .nil
  have htext : CommentedText (fun _ => True) (.number [49])
      [slash, asterisk, slash, space, asterisk, slash, 49] := .text (rendersText_one hgap)
  refine ⟨htext, ?_⟩
  rintro ⟨kept, hkept⟩
  obtain ⟨left, hrun⟩ := hkept.run
  have heval : minify [slash, asterisk, slash, space, asterisk, slash, 49, 0] =
      .ok ([asterisk, slash, 49] ++ 0 :: [asterisk, slash, 49, 0]) := by decide
  have hkeep : (kept ++ 0 :: left).takeWhile (· ≠ 0) = kept := by
    rw [List.takeWhile_append_of_pos]
    · simp
    · rintro b hb
      simpa using fun h : b = 0 => hkept.notMem (h ▸ hb)
  rw [Except.ok.inj (hrun.symm.trans heval)] at hkeep
  have htree := hkept.same_tree
  rw [← hkeep, parseWithOpts_renders (reads_lexemes whitespace_le) htext.blank] at htree
  cases htree

end RebuildTheWheel.CJson
