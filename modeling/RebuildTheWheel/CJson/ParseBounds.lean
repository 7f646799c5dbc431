import RebuildTheWheel.CJson.ParseLiteral
import RebuildTheWheel.Data.Run

namespace RebuildTheWheel.CJson

open RebuildTheWheel.Data
open RebuildTheWheel.Data.Ascii

/-! Where the parser comes to in a text. A point is a place of the JSON grammar,
the open arrays and objects around it and the text that is left, without the
whitespace in front. -/

inductive Place where
  | value
  | key
  | after
  deriving DecidableEq

inductive Container where
  | array
  | object

structure Point where
  place : Place
  stack : List Container
  rest : Bytes

/-- The text starts with a value that has no items, and `rest` is behind it. -/
inductive Scalar : Bytes → Bytes → Prop where
  | null : Scalar (nullText ++ rest) rest
  | false : Scalar (falseText ++ rest) rest
  | true : Scalar (trueText ++ rest) rest
  | number : c = minus ∨ isDigit c = Bool.true →
      Scalar (c :: digits) (afterNumber (c :: digits))
  | emptyArray : skip body = rbracket :: rest → Scalar (lbracket :: body) rest
  | emptyObject : skip body = rbrace :: rest → Scalar (lbrace :: body) rest

inductive Step : Point → Point → Prop where
  | scalar : Scalar text rest → Step ⟨.value, stack, text⟩ ⟨.after, stack, skip rest⟩
  | string : LiteralEnds content stop →
      Step ⟨.value, stack, quote :: content⟩ ⟨.after, stack, skip stop⟩
  | array : peek (skip body) ≠ rbracket →
      Step ⟨.value, stack, lbracket :: body⟩ ⟨.value, .array :: stack, skip body⟩
  | object : peek (skip body) ≠ rbrace →
      Step ⟨.value, stack, lbrace :: body⟩ ⟨.key, .object :: stack, skip body⟩
  | key : LiteralEnds content stop → skip stop = colon :: rest →
      Step ⟨.key, stack, quote :: content⟩ ⟨.value, stack, skip rest⟩
  | nextItem : Step ⟨.after, .array :: stack, comma :: rest⟩ ⟨.value, .array :: stack, skip rest⟩
  | nextMember : Step ⟨.after, .object :: stack, comma :: rest⟩ ⟨.key, .object :: stack, skip rest⟩
  | endArray : Step ⟨.after, .array :: stack, rbracket :: rest⟩ ⟨.after, stack, skip rest⟩
  | endObject : Step ⟨.after, .object :: stack, rbrace :: rest⟩ ⟨.after, stack, skip rest⟩

/-- In `text`, `content` is a string that the parser comes to: it stands behind its
opening quote. -/
def ComesTo (text content : Bytes) : Prop :=
  ∃ place stack, place ≠ Place.after ∧
    Relation.ReflTransGen Step ⟨.value, [], skip text⟩ ⟨place, stack, quote :: content⟩

theorem Scalar.unique (h : Scalar text rest) (h' : Scalar text rest') : rest = rest' := by
  generalize htext : text = text' at h'
  cases h <;> cases h' <;>
    simp_all [nullText, falseText, trueText, isDigit, minus, lbracket, lbrace] <;> grind

theorem Scalar.head_ne_quote (h : Scalar text rest) : peek text ≠ quote := by
  cases h with
  | null => exact (by decide : lowerN ≠ quote)
  | false => exact (by decide : lowerF ≠ quote)
  | true => exact (by decide : lowerT ≠ quote)
  | number hc =>
      rintro rfl
      exact absurd hc (by decide)
  | emptyArray _ => exact (by decide : lbracket ≠ quote)
  | emptyObject _ => exact (by decide : lbrace ≠ quote)

theorem Scalar.suffix (h : Scalar text rest) : rest <:+ text := by
  cases h with
  | null => exact List.suffix_append _ _
  | false => exact List.suffix_append _ _
  | true => exact List.suffix_append _ _
  | number _ => exact afterNumber_suffix _
  | emptyArray hbody =>
      exact ((List.suffix_cons _ _).trans (hbody ▸ skip_suffix _)).trans (List.suffix_cons _ _)
  | emptyObject hbody =>
      exact ((List.suffix_cons _ _).trans (hbody ▸ skip_suffix _)).trans (List.suffix_cons _ _)

theorem Scalar.array_empty (h : Scalar (lbracket :: body) rest) : peek (skip body) = rbracket := by
  generalize htext : lbracket :: body = text at h
  cases h <;> simp_all [nullText, falseText, trueText, isDigit, minus, lbracket, lbrace]
  grind

theorem Scalar.object_empty (h : Scalar (lbrace :: body) rest) : peek (skip body) = rbrace := by
  generalize htext : lbrace :: body = text at h
  cases h <;> simp_all [nullText, falseText, trueText, isDigit, minus, lbracket, lbrace]
  grind

/-- The parser has no choice. -/
theorem Step.unique (h : Step p q) (h' : Step p q') : q = q' := by
  generalize hp : p = p' at h'
  cases h <;> cases h' <;>
    grind [Scalar.unique, Scalar.head_ne_quote, peek_cons, Scalar.array_empty,
      Scalar.object_empty, LiteralEnds.unique]

/-- The string at the point, if there is one, is not cut off. -/
def ReadsInside (p : Point) : Prop :=
  p.place ≠ .after → ∀ content, p.rest = quote :: content → LiteralInside content

abbrev Safe : Point → Prop := Run.Always Step ReadsInside

theorem Step.safe (h : Step p q) : Safe p ↔ ReadsInside p ∧ Safe q :=
  Run.always_iff_of_step h fun _ h' => h'.unique h

theorem safe_of_stuck (hstuck : ∀ q, ¬Step p q) (h : ReadsInside p) : Safe p :=
  (Run.always_iff_of_stuck hstuck).mpr h

theorem safe_after (h : Step ⟨.after, stack, rest⟩ q) :
    Safe ⟨.after, stack, rest⟩ ↔ Safe q := by
  rw [h.safe]
  exact and_iff_right fun hplace => absurd rfl hplace

variable {place : Place}

theorem safe_head {c : UInt8} (hc : c ≠ quote) (h : Step ⟨place, stack, c :: rest⟩ q) :
    Safe ⟨place, stack, c :: rest⟩ ↔ Safe q := by
  rw [h.safe]
  apply and_iff_right
  intro _ content hcontent
  exact absurd (List.cons.inj hcontent).1 hc

theorem safe_literal (hplace : place ≠ .after) (h : Step ⟨place, stack, quote :: content⟩ q) :
    Safe ⟨place, stack, quote :: content⟩ ↔ LiteralInside content ∧ Safe q := by
  rw [h.safe]
  apply and_congr_left'
  constructor
  · intro hin
    exact hin hplace content rfl
  · intro hin _ content' hcontent
    rw [← (List.cons.inj hcontent).2]
    exact hin

/-- A call of the parser reads outside exactly if it is not safe where it begins,
and else has a result that `ended` describes. -/
inductive Outcome (safe : Prop) (ended : Bytes → Prop) : Parse (α × Bytes) → Prop where
  | ended : ended rest → Outcome safe ended (.ok (a, rest))
  | outside : ¬safe → Outcome safe ended (.error .outside)
  | overflow : safe → Outcome safe ended (.error .overflow)
  | failed : safe → Outcome safe ended (.error (.failed ep))

theorem Outcome.bind {ended ended' : Bytes → Prop} {result : Parse (α × Bytes)}
    {f : α × Bytes → Parse (β × Bytes)} (h : Outcome safe ended result) (hsafe : safe' ↔ safe)
    (hf : ∀ a rest, ended rest → Outcome safe' ended' (f (a, rest))) :
    Outcome safe' ended' (result >>= f) := by
  cases h with
  | ended hend => exact hf _ _ hend
  | outside hout => exact .outside fun hin => hout (hsafe.mp hin)
  | overflow hin => exact .overflow (hsafe.mpr hin)
  | failed hin => exact .failed (hsafe.mpr hin)

theorem Outcome.imp {ended ended' : Bytes → Prop} {result : Parse (α × Bytes)}
    (h : Outcome safe ended result) (hsafe : safe' ↔ safe) (hended : ∀ rest, ended rest → ended' rest) :
    Outcome safe' ended' result := by
  cases h with
  | ended hend => exact .ended (hended _ hend)
  | outside hout => exact .outside fun hin => hout (hsafe.mp hin)
  | overflow hin => exact .overflow (hsafe.mpr hin)
  | failed hin => exact .failed (hsafe.mpr hin)

/-- Whatever the parser goes on to read behind a value. -/
def ValueEnds (stack : List Container) (text rest : Bytes) : Prop :=
  rest <:+ text ∧ (Safe ⟨.value, stack, text⟩ ↔ Safe ⟨.after, stack, skip rest⟩)

/-- The loop of an array or object has come to its last item. -/
def ItemsEnd (container : Container) (stack : List Container) (start : Point)
    (rest : Bytes) : Prop :=
  rest <:+ start.rest ∧ peek rest ≠ comma ∧
    (Safe start ↔ Safe ⟨.after, container :: stack, rest⟩)

structure Tracks (fuel : Nat) : Prop where
  value : ∀ text stack, 2 * text.length + 1 ≤ fuel →
    Outcome (Safe ⟨.value, stack, text⟩) (ValueEnds stack text) (parseValue fuel text)
  array : ∀ body stack, 2 * body.length + 2 ≤ fuel →
    Outcome (Safe ⟨.value, stack, lbracket :: body⟩) (ValueEnds stack (lbracket :: body))
      (parseArray fuel (lbracket :: body))
  object : ∀ body stack, 2 * body.length + 2 ≤ fuel →
    Outcome (Safe ⟨.value, stack, lbrace :: body⟩) (ValueEnds stack (lbrace :: body))
      (parseObject fuel (lbrace :: body))
  elements : ∀ text stack, 2 * text.length + 1 ≤ fuel →
    Outcome (Safe ⟨.after, .array :: stack, text⟩)
      (ItemsEnd .array stack ⟨.after, .array :: stack, text⟩) (parseElements fuel text)
  members : ∀ text stack, 2 * text.length + 1 ≤ fuel →
    Outcome (Safe ⟨.after, .object :: stack, text⟩)
      (ItemsEnd .object stack ⟨.after, .object :: stack, text⟩) (parseMembers fuel text)

theorem elementsFrom_outcome (h : Tracks fuel) (body : Bytes) (stack : List Container)
    (hfuel : 2 * body.length + 1 ≤ fuel) :
    Outcome (Safe ⟨.value, .array :: stack, skip body⟩)
      (ItemsEnd .array stack ⟨.value, .array :: stack, skip body⟩) (elementsFrom fuel body) := by
  have hbody := skip_length_le body
  apply (h.value (skip body) (.array :: stack) (by omega)).bind Iff.rfl
  intro child rest ⟨hrest, hsafe⟩
  have hlength := hrest.length_le
  have hskip := skip_length_le rest
  apply (h.elements (skip rest) stack (by omega)).bind hsafe
  intro items final ⟨hfinal, hcomma, hsafe'⟩
  exact .ended ⟨(hfinal.trans (skip_suffix rest)).trans hrest, hcomma, hsafe.trans hsafe'⟩

/-- A literal without an `int` size ends the parse. -/
theorem Step.countFits (h : Step ⟨place, stack, quote :: content⟩ q) : CountFits content := by
  generalize hp : Point.mk place stack (quote :: content) = p at h
  cases h <;> grind [Scalar.head_ne_quote, peek_cons, LiteralEnds]

theorem parseString_outcome (hplace : place ≠ .after) (stack : List Container)
    (content : Bytes) :
    Outcome (Safe ⟨place, stack, quote :: content⟩)
      (fun stop => LiteralInside content ∧ LiteralEnds content stop)
      (parseString (quote :: content)) := by
  rcases parseString_cases content with ⟨hout, hresult⟩ | ⟨hin, hcount, hresult⟩ |
    ⟨hin, out, stop, hresult, hends⟩
  · rw [hresult]
    apply Outcome.outside
    intro hsafe
    exact hout (hsafe _ .refl hplace content rfl)
  · rw [hresult]
    apply Outcome.overflow
    apply safe_of_stuck fun q hstep => hcount hstep.countFits
    intro _ content' hcontent
    rw [← (List.cons.inj hcontent).2]
    exact hin
  · rw [hresult]
    exact .ended ⟨hin, hends⟩

theorem Step.key_head (h : Step ⟨.key, stack, text⟩ q) : peek text = quote := by
  cases h
  rfl

theorem Step.key_colon (h : Step ⟨.key, stack, quote :: content⟩ q)
    (hends : LiteralEnds content stop) : peek (skip stop) = colon := by
  generalize htext : quote :: content = text at h
  cases h with
  | key hends' hcolon =>
      rw [← (List.cons.inj htext).2] at hends'
      rw [hends.unique hends', hcolon]
      rfl

theorem readsInside_of_head (h : peek text ≠ quote) : ReadsInside ⟨place, stack, text⟩ := by
  intro _ content hcontent
  rw [show text = quote :: content from hcontent] at h
  exact absurd rfl h

theorem membersFrom_outcome (h : Tracks fuel) (body : Bytes) (stack : List Container)
    (hfuel : 2 * body.length + 1 ≤ fuel) :
    Outcome (Safe ⟨.key, .object :: stack, skip body⟩)
      (ItemsEnd .object stack ⟨.key, .object :: stack, skip body⟩) (membersFrom fuel body) := by
  have hbody := skip_length_le body
  rw [membersFrom]
  by_cases hquote : peek (skip body) = quote
  · rw [eq_cons_of_peek hquote (by decide)] at hbody ⊢
    generalize (skip body).tail = content at hbody ⊢
    apply (parseString_outcome (by decide) (.object :: stack) content).bind Iff.rfl
    rintro key stop ⟨hin, hends⟩
    dsimp only
    have hstop := hends.suffix
    by_cases hcolon : peek (skip stop) = colon
    · rw [if_neg (not_not.mpr hcolon)]
      have hskip := eq_cons_of_peek hcolon (by decide)
      have hstep : Step ⟨.key, .object :: stack, quote :: content⟩ _ := .key hends hskip
      have hsafe := (safe_literal (by decide) hstep).trans (and_iff_right hin)
      have hvalue : skip (skip stop).tail <:+ content :=
        (skip_suffix _).trans ((List.tail_suffix _).trans ((skip_suffix _).trans hstop))
      have hlength := hvalue.length_le
      rw [List.length_cons] at hbody
      apply (h.value _ (.object :: stack) (by omega)).bind hsafe
      rintro child rest ⟨hrest, hchild⟩
      have hrestLength := (skip_suffix rest).trans hrest |>.length_le
      apply (h.members (skip rest) stack (by omega)).bind (hsafe.trans hchild)
      rintro items final ⟨hfinal, hcomma, hitems⟩
      refine .ended ⟨?_, hcomma, (hsafe.trans hchild).trans hitems⟩
      have hmember := (hfinal.trans (skip_suffix rest)).trans (hrest.trans hvalue)
      exact hmember.trans (List.suffix_cons quote content)
    · rw [if_pos hcolon]
      apply Outcome.failed
      apply safe_of_stuck fun q hstep => hcolon (hstep.key_colon hends)
      intro _ content' hcontent
      rw [← (List.cons.inj hcontent).2]
      exact hin
  · rw [parseString, if_pos hquote]
    apply Outcome.failed
    exact safe_of_stuck (fun q hstep => hquote hstep.key_head) (readsInside_of_head hquote)

theorem closeWith_outcome (h : ItemsEnd container stack start rest) (hbracket : bracket ≠ 0)
    (hstep : ∀ rest, Step ⟨.after, container :: stack, bracket :: rest⟩ ⟨.after, stack, skip rest⟩)
    (hstuck : ∀ q, peek rest ≠ comma → peek rest ≠ bracket →
      ¬Step ⟨.after, container :: stack, rest⟩ q) (kind : Kind) (items : Item) :
    Outcome (Safe start)
      (fun rest => rest <:+ start.rest ∧ (Safe start ↔ Safe ⟨.after, stack, skip rest⟩))
      (closeWith kind bracket (items, rest)) := by
  obtain ⟨hrest, hcomma, hsafe⟩ := h
  rw [closeWith]
  split
  · next hpeek =>
      refine .ended ⟨(List.tail_suffix rest).trans hrest, ?_⟩
      rw [eq_cons_of_peek hpeek hbracket] at hsafe
      exact hsafe.trans (safe_after (hstep _))
  · next hpeek =>
      apply Outcome.failed
      apply hsafe.mpr
      exact safe_of_stuck (fun q => hstuck q hcomma hpeek) fun hplace => absurd rfl hplace

theorem parseArray_outcome (h : Tracks fuel) (body : Bytes) (stack : List Container)
    (hfuel : 2 * body.length + 1 ≤ fuel) :
    Outcome (Safe ⟨.value, stack, lbracket :: body⟩) (ValueEnds stack (lbracket :: body))
      (parseArray (fuel + 1) (lbracket :: body)) := by
  have hbody := (skip_suffix body).trans (List.suffix_cons lbracket body)
  rw [parseArray_eq, List.tail_cons]
  split
  · next hclose =>
      refine .ended ⟨(List.tail_suffix _).trans hbody, ?_⟩
      apply safe_head (by decide)
      exact .scalar (.emptyArray (eq_cons_of_peek hclose (by decide)))
  · next hopen =>
      have hstep : Step ⟨.value, stack, lbracket :: body⟩ _ := .array hopen
      have hsafe := safe_head (by decide) hstep
      apply (elementsFrom_outcome h body stack hfuel).bind hsafe
      intro items rest hitems
      have hclose := closeWith_outcome hitems (by decide) (fun _ => .endArray) ?_ .array items
      · apply hclose.imp hsafe
        intro final ⟨hfinal, hends⟩
        exact ⟨hfinal.trans hbody, hsafe.trans hends⟩
      · intro q hcomma hbracket hstep
        cases hstep with
        | nextItem => exact hcomma rfl
        | endArray => exact hbracket rfl

theorem parseObject_outcome (h : Tracks fuel) (body : Bytes) (stack : List Container)
    (hfuel : 2 * body.length + 1 ≤ fuel) :
    Outcome (Safe ⟨.value, stack, lbrace :: body⟩) (ValueEnds stack (lbrace :: body))
      (parseObject (fuel + 1) (lbrace :: body)) := by
  have hbody := (skip_suffix body).trans (List.suffix_cons lbrace body)
  rw [parseObject_eq, List.tail_cons]
  split
  · next hclose =>
      refine .ended ⟨(List.tail_suffix _).trans hbody, ?_⟩
      apply safe_head (by decide)
      exact .scalar (.emptyObject (eq_cons_of_peek hclose (by decide)))
  · next hopen =>
      have hstep : Step ⟨.value, stack, lbrace :: body⟩ _ := .object hopen
      have hsafe := safe_head (by decide) hstep
      apply (membersFrom_outcome h body stack hfuel).bind hsafe
      intro items rest hitems
      have hclose := closeWith_outcome hitems (by decide) (fun _ => .endObject) ?_ .object items
      · apply hclose.imp hsafe
        intro final ⟨hfinal, hends⟩
        exact ⟨hfinal.trans hbody, hsafe.trans hends⟩
      · intro q hcomma hbrace hstep
        cases hstep with
        | nextMember => exact hcomma rfl
        | endObject => exact hbrace rfl

theorem parseElements_outcome (h : Tracks fuel) (text : Bytes) (stack : List Container)
    (hfuel : 2 * text.length ≤ fuel) :
    Outcome (Safe ⟨.after, .array :: stack, text⟩)
      (ItemsEnd .array stack ⟨.after, .array :: stack, text⟩) (parseElements (fuel + 1) text) := by
  rw [parseElements_eq]
  split
  · next hcomma =>
      rw [eq_cons_of_peek hcomma (by decide)] at hfuel ⊢
      generalize text.tail = rest at hfuel ⊢
      rw [List.length_cons] at hfuel
      have hstep : Step ⟨.after, .array :: stack, comma :: rest⟩ _ := .nextItem
      have hsafe := safe_after hstep
      apply (elementsFrom_outcome h rest stack (by omega)).imp hsafe
      intro final ⟨hfinal, hend, hsafe'⟩
      refine ⟨?_, hend, hsafe.trans hsafe'⟩
      exact hfinal.trans ((skip_suffix rest).trans (List.suffix_cons comma rest))
  · next hcomma => exact .ended ⟨List.suffix_refl text, hcomma, Iff.rfl⟩

theorem parseMembers_outcome (h : Tracks fuel) (text : Bytes) (stack : List Container)
    (hfuel : 2 * text.length ≤ fuel) :
    Outcome (Safe ⟨.after, .object :: stack, text⟩)
      (ItemsEnd .object stack ⟨.after, .object :: stack, text⟩) (parseMembers (fuel + 1) text) := by
  rw [parseMembers_eq]
  split
  · next hcomma =>
      rw [eq_cons_of_peek hcomma (by decide)] at hfuel ⊢
      generalize text.tail = rest at hfuel ⊢
      rw [List.length_cons] at hfuel
      have hstep : Step ⟨.after, .object :: stack, comma :: rest⟩ _ := .nextMember
      have hsafe := safe_after hstep
      apply (membersFrom_outcome h rest stack (by omega)).imp hsafe
      intro final ⟨hfinal, hend, hsafe'⟩
      refine ⟨?_, hend, hsafe.trans hsafe'⟩
      exact hfinal.trans ((skip_suffix rest).trans (List.suffix_cons comma rest))
  · next hcomma => exact .ended ⟨List.suffix_refl text, hcomma, Iff.rfl⟩

theorem scalar_ends (h : Scalar text rest) : ValueEnds stack text rest := by
  refine ⟨h.suffix, ?_⟩
  have hstep : Step ⟨.value, stack, text⟩ ⟨.after, stack, skip rest⟩ := .scalar h
  rw [hstep.safe]
  exact and_iff_right (readsInside_of_head h.head_ne_quote)

theorem parseValue_outcome (h : Tracks fuel) (text : Bytes) (stack : List Container)
    (hfuel : 2 * text.length ≤ fuel) :
    Outcome (Safe ⟨.value, stack, text⟩) (ValueEnds stack text) (parseValue (fuel + 1) text) := by
  rw [parseValue]
  split
  · next hnull =>
      obtain ⟨rest, rfl⟩ := List.isPrefixOf_iff_prefix.mp hnull
      exact .ended (scalar_ends .null)
  split
  · next hfalse =>
      obtain ⟨rest, rfl⟩ := List.isPrefixOf_iff_prefix.mp hfalse
      exact .ended (scalar_ends .false)
  split
  · next htrue =>
      obtain ⟨rest, rfl⟩ := List.isPrefixOf_iff_prefix.mp htrue
      exact .ended (scalar_ends .true)
  split
  · next hquote =>
      rw [eq_cons_of_peek hquote (by decide)]
      generalize text.tail = content
      apply (parseString_outcome (by decide) stack content).bind Iff.rfl
      intro out stop ⟨hin, hends⟩
      refine .ended ⟨hends.suffix.trans (List.suffix_cons quote content), ?_⟩
      have hstep : Step ⟨.value, stack, quote :: content⟩ _ := .string hends
      exact (safe_literal (by decide) hstep).trans (and_iff_right hin)
  split
  · next hnumber =>
      rw [Bool.or_eq_true, decide_eq_true_eq] at hnumber
      cases text with
      | nil => exact absurd hnumber (by decide)
      | cons c digits =>
          have hends : ValueEnds stack (c :: digits) (parseNumber (c :: digits)).2 := by
            rw [parseNumber_rest]
            exact scalar_ends (.number hnumber)
          generalize parseNumber (c :: digits) = number at hends ⊢
          exact .ended hends
  split
  · next harray =>
      rw [eq_cons_of_peek harray (by decide)] at hfuel ⊢
      exact h.array _ stack hfuel
  split
  · next hobject =>
      rw [eq_cons_of_peek hobject (by decide)] at hfuel ⊢
      exact h.object _ stack hfuel
  · next hnull hfalse htrue hquote hnumber harray hobject =>
      apply Outcome.failed
      apply safe_of_stuck _ (readsInside_of_head hquote)
      intro q hstep
      cases hstep with
      | scalar hscalar =>
          cases hscalar with
          | null => exact hnull (List.isPrefixOf_iff_prefix.mpr (List.prefix_append _ _))
          | false => exact hfalse (List.isPrefixOf_iff_prefix.mpr (List.prefix_append _ _))
          | true => exact htrue (List.isPrefixOf_iff_prefix.mpr (List.prefix_append _ _))
          | number hc =>
              apply hnumber
              rwa [Bool.or_eq_true, decide_eq_true_eq]
          | emptyArray _ => exact harray rfl
          | emptyObject _ => exact hobject rfl
      | string _ => exact hquote rfl
      | array _ => exact harray rfl
      | object _ => exact hobject rfl

theorem tracks : ∀ fuel, Tracks fuel := by
  intro fuel
  induction fuel with
  | zero =>
      constructor <;>
      · intro _ _ hfuel
        omega
  | succ fuel ih =>
      constructor
      · intro text stack hfuel
        exact parseValue_outcome ih text stack (by omega)
      · intro body stack hfuel
        exact parseArray_outcome ih body stack (by omega)
      · intro body stack hfuel
        exact parseObject_outcome ih body stack (by omega)
      · intro text stack hfuel
        exact parseElements_outcome ih text stack (by omega)
      · intro text stack hfuel
        exact parseMembers_outcome ih text stack (by omega)

theorem parseWithOpts_outcome (text : Bytes) (requireNullTerminated : Bool) :
    Outcome (Safe ⟨.value, [], skip text⟩) (fun stop => Safe ⟨.value, [], skip text⟩ ∧ stop <:+ text)
      (parseWithOpts text requireNullTerminated) := by
  have hskip := skip_length_le text
  have hfuel : 2 * (skip text).length + 1 ≤ fuelFor text := by
    rw [fuelFor]
    omega
  apply ((tracks _).value (skip text) [] hfuel).bind Iff.rfl
  intro c stop ⟨hstop, hsafe⟩
  have hend := hstop.trans (skip_suffix text)
  have hdone : Safe ⟨.after, [], skip stop⟩ := by
    apply safe_of_stuck
    · intro q hstep
      cases hstep
    · exact fun hplace => absurd rfl hplace
  have hstart := hsafe.mpr hdone
  dsimp only
  split
  · split
    · exact .failed hstart
    · exact .ended ⟨hstart, (skip_suffix stop).trans hend⟩
  · exact .ended ⟨hstart, hend⟩

theorem safe_iff_comesTo (text : Bytes) :
    Safe ⟨.value, [], skip text⟩ ↔ ∀ content, ComesTo text content → LiteralInside content := by
  constructor
  · intro hsafe content ⟨place, stack, hplace, hreach⟩
    exact hsafe _ hreach hplace content rfl
  · intro h p hreach hplace content hcontent
    obtain ⟨place, stack, rest⟩ := p
    obtain rfl : rest = quote :: content := hcontent
    exact h content ⟨place, stack, hplace, hreach⟩

/-- A parse stays inside the text exactly if no string that it comes to is cut off
within an escape sequence. -/
theorem parseWithOpts_inside_iff (text : CString) (requireNullTerminated : Bool) :
    (parseWithOpts text.1 requireNullTerminated ≠ .error .outside ∧
      ∀ c stop, parseWithOpts text.1 requireNullTerminated = .ok (c, stop) → stop <:+ text.1) ↔
      ∀ content, ComesTo text.1 content → LiteralInside content := by
  have h := parseWithOpts_outcome text.1 requireNullTerminated
  rw [← safe_iff_comesTo]
  generalize parseWithOpts text.1 requireNullTerminated = result at h ⊢
  constructor
  · intro ⟨hinside, _⟩
    cases h with
    | ended hend => exact hend.1
    | outside _ => exact absurd rfl hinside
    | overflow hsafe => exact hsafe
    | failed hsafe => exact hsafe
  · intro hsafe
    constructor
    · rintro rfl
      cases h with
      | outside hout => exact hout hsafe
    · rintro c stop rfl
      cases h with
      | ended hend => exact hend.2

/-- The text ends within an escape sequence. -/
theorem parseWithOpts_outside :
    ∃ cut cutUnicode : CString,
      cut.1 = [quote, backslash] ∧ parseWithOpts cut.1 false = .error .outside ∧
      cutUnicode.1 = [quote, backslash, lowerU] ∧
      parseWithOpts cutUnicode.1 false = .error .outside :=
  ⟨⟨[quote, backslash], by decide⟩, ⟨[quote, backslash, lowerU], by decide⟩, rfl, rfl, rfl, rfl⟩

end RebuildTheWheel.CJson
