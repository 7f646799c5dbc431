import RebuildTheWheel.Data.Decimal

namespace RebuildTheWheel.Data

/-! Byte ranges of a content, and how a request writes them. -/

namespace ByteRanges

open Ascii Decimal

/-- The bytes of a content from `start` up to `stop` -/
structure Range (contentLength : Nat) where
  start : Nat
  stop : Nat
  nonempty : start < stop
  inside : stop ≤ contentLength

def Range.length {contentLength : Nat} (range : Range contentLength) : Nat :=
  range.stop - range.start

inductive Spec where
  | between (first last : Nat)
  | onwards (first : Nat)
  | suffix (length : Nat)
  deriving DecidableEq, Repr

/-- The bytes that a spec denotes, where it can be satisfied. -/
def Spec.range? (contentLength : Nat) : Spec → Option (Range contentLength)
  | .between first last =>
      if h : first ≤ last ∧ first < contentLength then
        some ⟨first, min (last + 1) contentLength, by omega, Nat.min_le_right _ _⟩
      else none
  | .onwards first =>
      if h : first < contentLength then some ⟨first, contentLength, h, le_rfl⟩ else none
  | .suffix length =>
      if h : 0 < length ∧ 0 < contentLength then
        some ⟨contentLength - length, contentLength, by omega, le_rfl⟩
      else none

def Blank (text : Bytes) : Prop := ∀ c ∈ text, c = space

/-- A number, with blanks around it -/
inductive Number : Nat → Bytes → Prop where
  | intro {before digits after : Bytes} (hbefore : Blank before) (hne : digits ≠ [])
      (hdigits : ∀ c ∈ digits, isDigit c = true) (hafter : Blank after) :
      Number (value digits) (before ++ digits ++ after)

/-- The numbers to the left and to the right of the minus -/
def Spec.bounds : Spec → Option Nat × Option Nat
  | .between first last => (some first, some last)
  | .onwards first => (some first, none)
  | .suffix length => (none, some length)

def Bound : Option Nat → Bytes → Prop
  | none, text => Blank text
  | some n, text => Number n text

/-- The texts of a spec -/
inductive Writes (spec : Spec) : Bytes → Prop where
  | intro {left right : Bytes} (hleft : Bound spec.bounds.1 left)
      (hright : Bound spec.bounds.2 right) : Writes spec (left ++ minus :: right)

/-- The specs that a text lists -/
def Denotes (text : Bytes) (specs : List Spec) : Prop :=
  List.Forall₂ Writes specs (text.splitOn comma)

variable {text left right left' right' : Bytes} {n n' : Nat} {spec spec' : Spec}
  {specs specs' : List Spec} {c : UInt8}

theorem Blank.filter (h : Blank text) : text.filter (· ≠ space) = [] :=
  List.filter_eq_nil_iff.mpr fun c hc => by simp [h c hc]

theorem Number.filter (h : Number n text) :
    ∃ digits, text.filter (· ≠ space) = digits ∧ digits ≠ [] ∧ value digits = n := by
  obtain ⟨hbefore, hne, hdigits, hafter⟩ := h
  refine ⟨_, ?_, hne, rfl⟩
  rw [List.filter_append, List.filter_append, hbefore.filter, hafter.filter, List.nil_append,
    List.append_nil]
  refine List.filter_eq_self.mpr fun c hc => decide_eq_true ?_
  rintro rfl
  exact absurd (hdigits _ hc) (by decide)

theorem Number.blanks_append {blanks : Bytes} (hblanks : Blank blanks) (h : Number n text) :
    Number n (blanks ++ text) := by
  obtain ⟨hbefore, hne, hdigits, hafter⟩ := h
  rw [← List.append_assoc, ← List.append_assoc]
  exact .intro (fun c hc => (List.mem_append.mp hc).elim (hblanks c) (hbefore c)) hne hdigits hafter

theorem Number.unique (h : Number n text) (h' : Number n' text) : n = n' := by
  obtain ⟨_, rfl, _, hvalue⟩ := h.filter
  obtain ⟨_, rfl, _, hvalue'⟩ := h'.filter
  exact hvalue.symm.trans hvalue'

theorem Number.not_blank (h : Number n text) : ¬Blank text := fun hblank => by
  obtain ⟨_, rfl, hne, _⟩ := h.filter
  exact hne hblank.filter

theorem Blank.notMem (h : Blank text) (hc : c ≠ space) : c ∉ text := fun hmem => hc (h c hmem)

theorem Number.notMem (h : Number n text) (hc : c ≠ space) (hdigit : isDigit c = false) :
    c ∉ text := by
  obtain ⟨hbefore, _, hdigits, hafter⟩ := h
  intro hmem
  rcases List.mem_append.mp hmem with hmem | hmem
  · rcases List.mem_append.mp hmem with hmem | hmem
    · exact hbefore.notMem hc hmem
    · exact Bool.false_ne_true (hdigit.symm.trans (hdigits c hmem))
  · exact hafter.notMem hc hmem

theorem Bound.notMem {bound : Option Nat} (h : Bound bound text) (hc : c ≠ space)
    (hdigit : isDigit c = false) : c ∉ text :=
  match bound, h with
  | none, h => Blank.notMem h hc
  | some _, h => Number.notMem h hc hdigit

theorem Bound.unique {bound bound' : Option Nat} (h : Bound bound text) (h' : Bound bound' text) :
    bound = bound' :=
  match bound, bound', h, h' with
  | none, none, _, _ => rfl
  | none, some _, h, h' => absurd h (Number.not_blank h')
  | some _, none, h, h' => absurd h' (Number.not_blank h)
  | some _, some _, h, h' => congrArg some (Number.unique h h')

theorem Spec.bounds_inj (h : spec.bounds = spec'.bounds) : spec = spec' := by
  cases spec <;> cases spec' <;> cases h <;> rfl

theorem Writes.notMem (h : Writes spec text) (hc : c ≠ space) (hminus : c ≠ minus)
    (hdigit : isDigit c = false) : c ∉ text := by
  obtain ⟨hleft, hright⟩ := h
  intro hmem
  rcases List.mem_append.mp hmem with hmem | hmem
  · exact hleft.notMem hc hdigit hmem
  · exact (List.mem_cons.mp hmem).elim hminus (hright.notMem hc hdigit)

/-- The sides of the first minus -/
theorem append_minus_inj (hleft : minus ∉ left) (hleft' : minus ∉ left')
    (h : left ++ minus :: right = left' ++ minus :: right') : left = left' ∧ right = right' := by
  induction left generalizing left' with
  | nil =>
      cases left' with
      | nil => exact ⟨rfl, (List.cons.inj h).2⟩
      | cons c left' => exact absurd ((List.cons.inj h).1 ▸ List.mem_cons_self) hleft'
  | cons c left ih =>
      cases left' with
      | nil => exact absurd ((List.cons.inj h).1 ▸ List.mem_cons_self) hleft
      | cons c' left' =>
          obtain ⟨rfl, htail⟩ := List.cons.inj h
          obtain ⟨rfl, rfl⟩ := ih (fun hmem => hleft (List.mem_cons_of_mem _ hmem))
            (fun hmem => hleft' (List.mem_cons_of_mem _ hmem)) htail
          exact ⟨rfl, rfl⟩

theorem Bound.minus_notMem {bound : Option Nat} (h : Bound bound text) : minus ∉ text :=
  h.notMem (by decide) (by decide)

/-- A text is the text of one spec at most. -/
theorem Writes.unique (h : Writes spec text) (h' : Writes spec' text) : spec = spec' := by
  generalize htext : text = text' at h'
  obtain ⟨hleft, hright⟩ := h
  obtain ⟨hleft', hright'⟩ := h'
  obtain ⟨rfl, rfl⟩ := append_minus_inj hleft.minus_notMem hleft'.minus_notMem htext
  exact Spec.bounds_inj (Prod.ext (hleft.unique hleft') (hright.unique hright'))

/-- A text lists one list of specs at most. -/
theorem Denotes.unique (h : Denotes text specs) (h' : Denotes text specs') : specs = specs' := by
  unfold Denotes at h h'
  generalize text.splitOn comma = texts at h h'
  induction h generalizing specs' with
  | nil => exact (List.forall₂_nil_right_iff.mp h').symm
  | cons hwrites _ ih =>
      obtain ⟨spec', specs', hwrites', hrest', rfl⟩ := List.forall₂_cons_right_iff.mp h'
      rw [hwrites.unique hwrites', ih hrest']

theorem Writes.comma_notMem (h : Writes spec text) : comma ∉ text :=
  h.notMem (by decide) (by decide) (by decide)

theorem Denotes.single (h : Writes spec text) : Denotes text [spec] := by
  rw [Denotes, List.splitOn_eq_singleton h.comma_notMem]
  exact .cons h .nil

theorem Denotes.cons (h : Writes spec left) (hrest : Denotes right specs) :
    Denotes (left ++ comma :: right) (spec :: specs) := by
  rw [Denotes, List.splitOn_append_cons_self_of_not_mem h.comma_notMem]
  exact .cons h hrest

end ByteRanges

end RebuildTheWheel.Data
