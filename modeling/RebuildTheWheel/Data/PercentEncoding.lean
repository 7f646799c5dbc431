import RebuildTheWheel.Data.Ascii

namespace RebuildTheWheel.Data

open Ascii

/-! Percent-encoding: an escape is `%` and two hexadecimal digits. -/

namespace PercentEncoding

def IsHexDigit (b : UInt8) : Prop := (hexVal? b).isSome

instance (b : UInt8) : Decidable (IsHexDigit b) := inferInstanceAs (Decidable (_ = true))

/-- A `%` that begins no escape stands for itself. -/
def unescape : Bytes → Bytes
  | c :: h :: l :: cs =>
      if c = percent then
        match hexVal? h, hexVal? l with
        | some a, some b => UInt8.ofNat (16 * a + b) :: unescape cs
        | _, _ => c :: unescape (h :: l :: cs)
      else c :: unescape (h :: l :: cs)
  | c :: cs => c :: unescape cs
  | [] => []

/-- Every `%` begins an escape. -/
def Escaped (path : Bytes) : Prop :=
  ∀ before after, path = before ++ percent :: after →
    ∃ h l rest, after = h :: l :: rest ∧ IsHexDigit h ∧ IsHexDigit l

variable {c h l : UInt8} {cs path : Bytes}

theorem unescape_cons (hc : c ≠ percent) (cs : Bytes) : unescape (c :: cs) = c :: unescape cs := by
  cases cs with
  | nil => rfl
  | cons h cs =>
      cases cs with
      | nil => rfl
      | cons l cs => rw [unescape, if_neg hc]

theorem unescape_escape (hh : hexVal? h = some a) (hl : hexVal? l = some b) (cs : Bytes) :
    unescape (percent :: h :: l :: cs) = UInt8.ofNat (16 * a + b) :: unescape cs := by
  rw [unescape, if_pos rfl, hh, hl]

theorem isHexDigit_ne_percent (h : IsHexDigit c) : c ≠ percent := by
  rintro rfl
  exact absurd h (by decide)

theorem Escaped.nil : Escaped [] := fun before _ h =>
  absurd h.symm (List.append_ne_nil_of_right_ne_nil before (List.cons_ne_nil _ _))

theorem Escaped.cons (hcs : Escaped cs) (hc : c ≠ percent) : Escaped (c :: cs) := by
  intro before after h
  cases before with
  | nil => exact absurd (List.cons.inj h).1 hc
  | cons x before => exact hcs before after (List.cons.inj h).2

theorem Escaped.escape (hcs : Escaped cs) (hh : IsHexDigit h) (hl : IsHexDigit l) :
    Escaped (percent :: h :: l :: cs) := by
  intro before after heq
  cases before with
  | nil => exact ⟨h, l, cs, (List.cons.inj heq).2.symm, hh, hl⟩
  | cons x before =>
      exact (hcs.cons (isHexDigit_ne_percent hl)).cons (isHexDigit_ne_percent hh) before after
        (List.cons.inj heq).2

theorem Escaped.of_cons (h : Escaped (c :: cs)) : Escaped cs :=
  fun before after hcs => h (c :: before) after (congrArg (c :: ·) hcs)

theorem Escaped.of_escape (h : Escaped (percent :: cs)) :
    ∃ h l rest, cs = h :: l :: rest ∧ IsHexDigit h ∧ IsHexDigit l ∧ Escaped rest := by
  obtain ⟨x, y, rest, rfl, hx, hy⟩ := h [] cs rfl
  refine ⟨x, y, rest, rfl, hx, hy, fun before after hrest => ?_⟩
  exact h (percent :: x :: y :: before) after (by rw [hrest]; rfl)

/-- An escape is cut off when one of the last two bytes begins it. -/
theorem Escaped.notMem_last (hpath : Escaped path) : percent ∉ path.reverse.take 2 := by
  intro hmem
  obtain ⟨back, front, hback⟩ := List.append_of_mem hmem
  have hreverse : path.reverse = back ++ percent :: (front ++ path.reverse.drop 2) := by
    rw [← List.cons_append, ← List.append_assoc, ← hback, List.take_append_drop]
  obtain ⟨h, l, rest, hrest, -, -⟩ :=
    hpath (front ++ path.reverse.drop 2).reverse back.reverse
      ((List.reverse_eq_iff.mp hreverse).trans (by simp))
  have hlength : back.length + 1 + front.length ≤ 2 := by
    have := congrArg List.length hback
    simp only [List.length_take, List.length_append, List.length_cons] at this
    omega
  have htwo := congrArg List.length hrest
  simp only [List.length_reverse, List.length_cons] at htwo
  omega

end PercentEncoding

end RebuildTheWheel.Data
