import RebuildTheWheel.Data.JsonGrammar

namespace RebuildTheWheel.Data

namespace Json

open Ascii

/-! JSON texts with comments between their tokens, and functions that rewrite such a text token
by token. -/

/-- Whitespace and comments. `admits` restricts what a block comment has between `/*` and `*/`. -/
inductive CommentGap (admits : Bytes → Prop) : Bytes → Prop where
  | nil : CommentGap admits []
  | space : b = space ∨ b = tab ∨ b = newline ∨ b = carriageReturn → CommentGap admits rest →
      CommentGap admits (b :: rest)
  | line : newline ∉ body → CommentGap admits rest →
      CommentGap admits (slash :: slash :: (body ++ newline :: rest))
  | block : ¬[asterisk, slash] <:+: body → admits body → CommentGap admits rest →
      CommentGap admits (slash :: asterisk :: (body ++ asterisk :: slash :: rest))

/-- A JSON text with comments; a line comment may end it. -/
inductive CommentedText (admits : Bytes → Prop) (v : Json Bytes Bytes) : Bytes → Prop where
  | text : RendersText (lexemes (CommentGap admits)) v text → CommentedText admits v text
  | line : RendersText (lexemes (CommentGap admits)) v text → newline ∉ body →
      CommentedText admits v (text ++ slash :: slash :: body)

/-! Comments are blanked out. -/

/-- Where a byte stands. -/
inductive Place where
  | token
  | line
  /-- At the star that opens a block comment. -/
  | opening
  | block
  /-- At the slash that closes one. -/
  | closing
  | string
  | escape

namespace Place

/-- The place behind a byte `c` with `d` behind it. -/
def next (c d : UInt8) : Place → Place
  | token =>
      if c = quote then string
      else if c = slash && d = slash then line
      else if c = slash && d = asterisk then opening
      else token
  | line => if c = newline then token else line
  | opening => block
  | block => if c = asterisk && d = slash then closing else block
  | closing => token
  | string => if c = quote then token else if c = backslash then escape else string
  | escape => string

def inComment (c d : UInt8) : Place → Bool
  | token => c = slash && (d = slash || d = asterisk)
  | line => c ≠ newline
  | opening => Bool.true
  | block => Bool.true
  | closing => Bool.true
  | string => Bool.false
  | escape => Bool.false

end Place

def blankFrom : Place → Bytes → Bytes
  | _, [] => []
  | place, c :: rest =>
      (if place.inComment c (rest.headD 0) then space else c) ::
        blankFrom (place.next c (rest.headD 0)) rest

/-- The text with spaces for its comments. -/
def blankComments (text : Bytes) : Bytes := blankFrom .token text

/-! A function that rewrites a text from left to right. -/

/-- `f` puts `text'` in the place of `text`. -/
def Passes (f : Bytes → Option Bytes) (text text' : Bytes) : Prop :=
  ∀ rest, f (text ++ rest) = (f rest).map (text' ++ ·)

variable {f : Bytes → Option Bytes} {a a' b b' : Bytes}

theorem Passes.nil : Passes f [] [] := fun rest => (Option.map_id' (x := f rest)).symm

theorem Passes.append (ha : Passes f a a') (hb : Passes f b b') : Passes f (a ++ b) (a' ++ b') := by
  intro rest
  rw [List.append_assoc, ha, hb, Option.map_map]
  refine congrArg (fun g => Option.map g (f rest)) (funext fun out => ?_)
  exact (List.append_assoc a' b' out).symm

theorem passes_of_forall (h : ∀ c ∈ a, Passes f [c] [c]) : Passes f a a := by
  induction a with
  | nil => exact Passes.nil
  | cons c a ih =>
      exact (h c List.mem_cons_self).append (ih fun d hd => h d (List.mem_cons_of_mem c hd))

/-- `f` keeps the tokens and rewrites what is between them. -/
structure Rewrites (f : Bytes → Option Bytes) (gap gap' : Bytes → Prop) : Prop where
  plain : ∀ {c : UInt8}, c ≠ quote → c ≠ slash → 32 < c → Passes f [c] [c]
  string : ∀ {text}, StringLiteral text → Passes f text text
  gap : ∀ {text}, gap text → ∃ text', gap' text' ∧ Passes f text text'

/-- The bytes of the tokens other than strings. -/
def PlainByte (b : UInt8) : Prop := b ≠ quote ∧ b ≠ slash ∧ 32 < b

instance (b : UInt8) : Decidable (PlainByte b) := inferInstanceAs (Decidable (_ ∧ _))

theorem plain_of_all {bytes : Bytes} (h : bytes.all (fun b => decide (PlainByte b)) = Bool.true) :
    ∀ b ∈ bytes, PlainByte b := fun b hb => of_decide_eq_true (List.all_eq_true.mp h b hb)

theorem isDigit_plain : ∀ b : UInt8, isDigit b = Bool.true → PlainByte b := by
  apply forall_byte
  decide

theorem NumberLiteral.plain (l : NumberLiteral) : ∀ b ∈ l.text, PlainByte b := by
  have hall : ∀ digits : Bytes, (∀ d ∈ digits, isDigit d = Bool.true) → ∀ b ∈ digits, PlainByte b :=
    fun _ h b hb => isDigit_plain b (h b hb)
  have hmark : ∀ b ∈ [minus, plus, point, lowerE, upperE], PlainByte b :=
    plain_of_all rfl
  rw [NumberLiteral.text]
  simp only [List.forall_mem_append]
  refine ⟨?_, hall _ l.integral_natural.isDigit, ?_, ?_⟩
  · rw [NumberLiteral.signText]
    split
    · exact List.forall_mem_singleton.mpr (hmark _ (by decide))
    · exact fun _ h => by cases h
  · rw [NumberLiteral.fractionText]
    split
    · exact fun _ h => by cases h
    · exact List.forall_mem_cons.mpr ⟨hmark _ (by decide), hall _ l.fraction_isDigit⟩
  · rw [NumberLiteral.exponentText]
    cases l.exponent with
    | none => exact fun _ h => by cases h
    | some e =>
        refine List.forall_mem_cons.mpr ⟨?_, List.forall_mem_append.mpr ⟨?_, hall _ e.digits_isDigit⟩⟩
        · obtain h | h := e.letter_eq <;> rw [h] <;> exact hmark _ (by decide)
        · cases e.sign with
          | none => exact fun _ h => by cases h
          | plus => exact List.forall_mem_singleton.mpr (hmark _ (by decide))
          | minus => exact List.forall_mem_singleton.mpr (hmark _ (by decide))

section

variable {gap gap' : Bytes → Prop} (hf : Rewrites f gap gap')

include hf

theorem Rewrites.plains (h : ∀ b ∈ a, PlainByte b) : Passes f a a :=
  passes_of_forall fun c hc => hf.plain (h c hc).1 (h c hc).2.1 (h c hc).2.2

theorem Rewrites.punctuation {c : UInt8} (hc : PlainByte c) : Passes f [c] [c] :=
  hf.plain hc.1 hc.2.1 hc.2.2

mutual

theorem Rewrites.renders : ∀ {v : Json Bytes Bytes} {text : Bytes}, Renders (lexemes gap) v text →
    ∃ text', Renders (lexemes gap') v text' ∧ Passes f text text'
  | _, _, .null => ⟨_, .null, hf.plains (plain_of_all rfl)⟩
  | _, _, .false => ⟨_, .false, hf.plains (plain_of_all rfl)⟩
  | _, _, .true => ⟨_, .true, hf.plains (plain_of_all rfl)⟩
  | _, _, .number h => by
      obtain ⟨rfl, l, rfl⟩ := h
      exact ⟨_, .number ⟨rfl, l, rfl⟩, hf.plains l.plain⟩
  | _, _, .string h => by
      obtain ⟨rfl, h⟩ := h
      exact ⟨_, .string ⟨rfl, h⟩, hf.string h⟩
  | _, _, .emptyArray h => by
      obtain ⟨ws, hws, hpasses⟩ := hf.gap h
      exact ⟨_, .emptyArray hws, (hf.punctuation (c := lbracket) (by decide)).append
        (hpasses.append (hf.punctuation (c := rbracket) (by decide)))⟩
  | _, _, .array h => by
      obtain ⟨body, hbody, hpasses⟩ := Rewrites.elements h
      exact ⟨_, .array hbody, (hf.punctuation (c := lbracket) (by decide)).append
        (hpasses.append (hf.punctuation (c := rbracket) (by decide)))⟩
  | _, _, .emptyObject h => by
      obtain ⟨ws, hws, hpasses⟩ := hf.gap h
      exact ⟨_, .emptyObject hws, (hf.punctuation (c := lbrace) (by decide)).append
        (hpasses.append (hf.punctuation (c := rbrace) (by decide)))⟩
  | _, _, .object h => by
      obtain ⟨body, hbody, hpasses⟩ := Rewrites.members h
      exact ⟨_, .object hbody, (hf.punctuation (c := lbrace) (by decide)).append
        (hpasses.append (hf.punctuation (c := rbrace) (by decide)))⟩

theorem Rewrites.elements : ∀ {elements : List (Json Bytes Bytes)} {text : Bytes},
    RendersElements (lexemes gap) elements text →
    ∃ text', RendersElements (lexemes gap') elements text' ∧ Passes f text text'
  | _, _, .last hbefore h hafter => by
      obtain ⟨before, hbefore, hfirst⟩ := hf.gap hbefore
      obtain ⟨text, h, hvalue⟩ := Rewrites.renders h
      obtain ⟨after, hafter, hlast⟩ := hf.gap hafter
      exact ⟨_, .last hbefore h hafter, hfirst.append (hvalue.append hlast)⟩
  | _, _, .more hbefore h hafter hrest => by
      obtain ⟨before, hbefore, hfirst⟩ := hf.gap hbefore
      obtain ⟨text, h, hvalue⟩ := Rewrites.renders h
      obtain ⟨after, hafter, hlast⟩ := hf.gap hafter
      obtain ⟨rest, hrest, hpasses⟩ := Rewrites.elements hrest
      exact ⟨_, .more hbefore h hafter hrest, hfirst.append (hvalue.append (hlast.append
        ((hf.punctuation (c := comma) (by decide)).append hpasses)))⟩

theorem Rewrites.members : ∀ {members : List (Bytes × Json Bytes Bytes)} {text : Bytes},
    RendersMembers (lexemes gap) members text →
    ∃ text', RendersMembers (lexemes gap') members text' ∧ Passes f text text'
  | _, _, .last hbefore hkey hleft hright h hafter => by
      obtain ⟨before, hbefore, hfirst⟩ := hf.gap hbefore
      obtain ⟨rfl, hkey⟩ := hkey
      obtain ⟨left, hleft, hleftPasses⟩ := hf.gap hleft
      obtain ⟨right, hright, hrightPasses⟩ := hf.gap hright
      obtain ⟨text, h, hvalue⟩ := Rewrites.renders h
      obtain ⟨after, hafter, hlast⟩ := hf.gap hafter
      exact ⟨_, .last hbefore ⟨rfl, hkey⟩ hleft hright h hafter, hfirst.append ((hf.string hkey).append
        (hleftPasses.append ((hf.punctuation (c := colon) (by decide)).append
          (hrightPasses.append (hvalue.append hlast)))))⟩
  | _, _, .more hbefore hkey hleft hright h hafter hrest => by
      obtain ⟨before, hbefore, hfirst⟩ := hf.gap hbefore
      obtain ⟨rfl, hkey⟩ := hkey
      obtain ⟨left, hleft, hleftPasses⟩ := hf.gap hleft
      obtain ⟨right, hright, hrightPasses⟩ := hf.gap hright
      obtain ⟨text, h, hvalue⟩ := Rewrites.renders h
      obtain ⟨after, hafter, hlast⟩ := hf.gap hafter
      obtain ⟨rest, hrest, hpasses⟩ := Rewrites.members hrest
      exact ⟨_, .more hbefore ⟨rfl, hkey⟩ hleft hright h hafter hrest, hfirst.append
        ((hf.string hkey).append (hleftPasses.append ((hf.punctuation (c := colon) (by decide)).append
          (hrightPasses.append (hvalue.append (hlast.append
            ((hf.punctuation (c := comma) (by decide)).append hpasses)))))))⟩

end

theorem Rewrites.rendersText {v : Json Bytes Bytes} {text : Bytes}
    (h : RendersText (lexemes gap) v text) :
    ∃ text', RendersText (lexemes gap') v text' ∧ Passes f text text' := by
  cases h with
  | intro hbefore h hafter =>
      obtain ⟨before, hbefore, hfirst⟩ := hf.gap hbefore
      obtain ⟨text, h, hvalue⟩ := hf.renders h
      obtain ⟨after, hafter, hlast⟩ := hf.gap hafter
      exact ⟨_, .intro hbefore h hafter, hfirst.append (hvalue.append hlast)⟩

end

/-! Comments and strings, byte by byte. -/

/-- Inside a block comment no star has a slash behind it. -/
theorem not_closing {c : UInt8} {body : Bytes} (h : ¬[asterisk, slash] <:+: c :: body) (rest : Bytes) :
    (c = asterisk && (body ++ asterisk :: rest).headD 0 = slash) = Bool.false ∧
      ¬[asterisk, slash] <:+: body := by
  refine ⟨?_, fun hwithin => h (hwithin.trans (List.suffix_cons c body).isInfix)⟩
  rw [Bool.and_eq_false_iff, decide_eq_false_iff_not, decide_eq_false_iff_not]
  by_contra hclose
  rw [not_or, not_not, not_not] at hclose
  obtain ⟨rfl, hslash⟩ := hclose
  cases body with
  | nil => exact absurd hslash (show asterisk ≠ slash by decide)
  | cons d body =>
      obtain rfl : d = slash := hslash
      exact h (List.prefix_append [asterisk, slash] body).isInfix

theorem blank_line {body : Bytes} (h : newline ∉ body) (rest : Bytes) :
    blankFrom .line (body ++ rest) = List.replicate body.length space ++ blankFrom .line rest := by
  induction body with
  | nil => rfl
  | cons c body ih =>
      rw [List.mem_cons, not_or] at h
      have hc : c ≠ newline := Ne.symm h.1
      simp [blankFrom, Place.inComment, Place.next, hc, ih h.2, List.replicate_succ]

theorem blank_block {body : Bytes} (h : ¬[asterisk, slash] <:+: body) (rest : Bytes) :
    blankFrom .block (body ++ asterisk :: slash :: rest) =
      List.replicate (body.length + 2) space ++ blankFrom .token rest := by
  induction body with
  | nil => rfl
  | cons c body ih =>
      obtain ⟨hgo, hbody⟩ := not_closing h (slash :: rest)
      rw [List.cons_append, blankFrom, Place.next, hgo, List.length_cons, Nat.succ_add,
        List.replicate_succ, List.cons_append, ← ih hbody]
      rfl

theorem blank_chars {body : Bytes} (h : LiteralChars body) (rest : Bytes) :
    blankFrom .string (body ++ quote :: rest) = body ++ quote :: blankFrom .token rest := by
  have hraw : ∀ (text rest : Bytes), (∀ b ∈ text, b ≠ quote ∧ b ≠ backslash) →
      blankFrom .string (text ++ rest) = text ++ blankFrom .string rest := by
    intro text rest htext
    induction text with
    | nil => rfl
    | cons c text ih =>
        obtain ⟨hquote, hbackslash⟩ := htext c List.mem_cons_self
        simp [blankFrom, Place.inComment, Place.next, hquote, hbackslash,
          ih fun b hb => htext b (List.mem_cons_of_mem c hb)]
  induction h with
  | nil => rfl
  | @plain b tail _ hquote hbackslash _ ih =>
      have hone := hraw [b] (tail ++ quote :: rest) (List.forall_mem_singleton.mpr ⟨hquote, hbackslash⟩)
      rw [List.cons_append, List.cons_append, ← ih]
      exact hone
  | @short e tail _ _ ih =>
      rw [List.cons_append, List.cons_append, List.cons_append, List.cons_append, ← ih]
      rfl
  | @unicode n digits tail hdigits _ ih =>
      have hstart : blankFrom .string (backslash :: lowerU :: (digits ++ (tail ++ quote :: rest))) =
          backslash :: lowerU :: blankFrom .string (digits ++ (tail ++ quote :: rest)) := rfl
      rw [List.cons_append, List.cons_append, List.append_assoc, hstart, hraw _ _ hdigits.plain, ih]
      simp

theorem whitespace_nil : Whitespace [] := fun _ hb => (nomatch hb)

theorem whitespace_replicate (n : Nat) : Whitespace (List.replicate n space) := fun _ hb =>
  Or.inl (List.eq_of_mem_replicate hb)

theorem Whitespace.append {a b : Bytes} (ha : Whitespace a) (hb : Whitespace b) : Whitespace (a ++ b) :=
  List.forall_mem_append.mpr ⟨ha, hb⟩

theorem Whitespace.cons {c : UInt8} {a : Bytes}
    (hc : c = space ∨ c = tab ∨ c = newline ∨ c = carriageReturn) (ha : Whitespace a) :
    Whitespace (c :: a) :=
  List.forall_mem_cons.mpr ⟨hc, ha⟩

variable {admits : Bytes → Prop}

theorem blank_gap {text : Bytes} (h : CommentGap admits text) :
    ∃ text', Whitespace text' ∧ Passes (fun t => some (blankFrom .token t)) text text' := by
  induction h with
  | nil => exact ⟨[], whitespace_nil, Passes.nil⟩
  | @space b tail hb _ ih =>
      obtain ⟨tail', htail, hpasses⟩ := ih
      have hone : Passes (fun t => some (blankFrom .token t)) [b] [b] := fun rest => by
        obtain rfl | rfl | rfl | rfl := hb <;> rfl
      exact ⟨b :: tail', htail.cons hb, hone.append hpasses⟩
  | @line body tail hbody _ ih =>
      obtain ⟨tail', htail, hpasses⟩ := ih
      refine ⟨space :: space :: (List.replicate body.length space ++ newline :: tail'), ?_, ?_⟩
      · exact ((whitespace_replicate _).append (htail.cons (by decide))).cons (by decide) |>.cons (by decide)
      · have hline : Passes (fun t => some (blankFrom .token t)) (slash :: slash :: (body ++ [newline]))
            (space :: space :: (List.replicate body.length space ++ [newline])) := by
          intro rest
          have hnewline : blankFrom .line (newline :: rest) = newline :: blankFrom .token rest := rfl
          have hstart : blankFrom .token (slash :: slash :: (body ++ newline :: rest)) =
              space :: space :: blankFrom .line (body ++ newline :: rest) := rfl
          simp [hstart, blank_line hbody, hnewline]
        simpa using hline.append hpasses
  | @block body tail hbody _ _ ih =>
      obtain ⟨tail', htail, hpasses⟩ := ih
      refine ⟨space :: space :: (List.replicate (body.length + 2) space ++ tail'), ?_, ?_⟩
      · exact ((whitespace_replicate _).append htail).cons (by decide) |>.cons (by decide)
      · have hblock : Passes (fun t => some (blankFrom .token t))
            (slash :: asterisk :: (body ++ [asterisk, slash]))
            (space :: space :: List.replicate (body.length + 2) space) := by
          intro rest
          have hstart : blankFrom .token (slash :: asterisk :: (body ++ asterisk :: slash :: rest)) =
              space :: space :: blankFrom .block (body ++ asterisk :: slash :: rest) := rfl
          simp [hstart, blank_block hbody]
        simpa using hblock.append hpasses

theorem blank_rewrites :
    Rewrites (fun t => some (blankFrom .token t)) (CommentGap admits) Whitespace where
  plain hquote hslash _ rest := by
    simp [blankFrom, Place.inComment, Place.next, hquote, hslash]
  string h rest := by
    obtain ⟨body, rfl, hbody⟩ := h
    have hstart : blankFrom .token (quote :: (body ++ quote :: rest)) =
        quote :: blankFrom .string (body ++ quote :: rest) := rfl
    simp [hstart, blank_chars hbody]
  gap h := blank_gap h

theorem rendersText_append {gap : Bytes → Prop} {v : Json Bytes Bytes} {text more : Bytes}
    (h : RendersText (lexemes gap) v text) (hgap : ∀ {after}, gap after → gap (after ++ more)) :
    RendersText (lexemes gap) v (text ++ more) := by
  cases h with
  | intro hbefore h hafter =>
      rw [List.append_assoc, List.append_assoc]
      exact .intro hbefore h (hgap hafter)

/-- What is left when the comments are blanked out is a JSON text of the same tokens. -/
theorem CommentedText.blank {v : Json Bytes Bytes} {text : Bytes} (h : CommentedText admits v text) :
    RendersText (lexemes Whitespace) v (blankComments text) := by
  cases h with
  | text h =>
      obtain ⟨text', h', hpasses⟩ := blank_rewrites.rendersText h
      have hblank := Option.some.inj (hpasses [])
      rw [List.append_nil] at hblank
      rw [blankComments, hblank]
      exact rendersText_append h' fun hafter => hafter.append whitespace_nil
  | @line text body h hbody =>
      obtain ⟨text', h', hpasses⟩ := blank_rewrites.rendersText h
      have hstart : blankFrom .token (slash :: slash :: body) =
          space :: space :: blankFrom .line body := rfl
      have hline := blank_line hbody []
      rw [List.append_nil] at hline
      rw [blankComments, Option.some.inj (hpasses _), hstart, hline]
      exact rendersText_append h' fun hafter =>
        hafter.append (((whitespace_replicate _).append whitespace_nil).cons (by decide)
          |>.cons (by decide))

end Json

end RebuildTheWheel.Data
