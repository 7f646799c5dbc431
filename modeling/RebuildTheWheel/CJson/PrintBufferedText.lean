import RebuildTheWheel.CJson.PrintBuffered

namespace RebuildTheWheel.CJson

open RebuildTheWheel.Data
open RebuildTheWheel.Data.Ascii

/-! Every text is free of NULs, and a number fits into the size it asks for. -/

theorem length_fixed_zero {q : ℚ} (h : Representable q)
    (hlt : (Binary64.finite |q| h.abs).lt (Binary64.tenPow 60) = true) :
    (Decimal.fixed 0 q).length ≤ 62 := by
  have hsmall : (2 : ℚ) * 10 ^ (60 : ℤ) < 2 ^ 1024 := by
    have hpow : (2 : ℚ) ^ 256 ≤ 2 ^ 1024 := pow_le_pow_right₀ (by norm_num) (by norm_num)
    exact lt_of_lt_of_le (by norm_num) hpow
  obtain ⟨r, hr, hround, hle⟩ := Binary64.round_eq_finite (by norm_num) hsmall
  rw [Binary64.tenPow, hround] at hlt
  have hq : |q| < r := by simpa [Binary64.lt] using hlt
  have hbound : |q| * 10 ^ 0 ≤ ((2 * 10 ^ 60 : ℕ) : ℚ) := by
    push_cast
    have h60 : (10 : ℚ) ^ (60 : ℤ) = 10 ^ 60 := by norm_cast
    rw [h60] at hle
    linarith
  have hlength := Decimal.length_fixed_le (k := 61) (by norm_num) hbound (by norm_num)
  simpa using hlength

theorem length_fixed_six {q : ℚ} (h : Representable q)
    (hle : (Binary64.tenPow 9).lt (Binary64.finite |q| h.abs) = false) :
    (Decimal.fixed 6 q).length ≤ 18 := by
  have hten : Binary64.tenPow 9 = Binary64.ofInt (10 ^ 9) := by
    rw [Binary64.tenPow, Binary64.ofInt]
    norm_num
  rw [hten, Binary64.ofInt_eq (by norm_num)] at hle
  have hq : |q| ≤ 1000000000 := by simpa [Binary64.lt] using hle
  have hbound : |q| * 10 ^ 6 ≤ ((10 ^ 15 : ℕ) : ℚ) := by
    push_cast
    linarith
  have hlength := Decimal.length_fixed_le (k := 10) (by norm_num) hbound (by norm_num)
  simpa using hlength

theorem length_printDouble {d : Binary64} (hd : d.isZero = false) : (printDouble d).length ≤ 62 := by
  cases d with
  | nan => simp [printDouble, formatDouble, nanText, Binary64.abs, Binary64.floor, Binary64.sub,
      Binary64.add, Binary64.neg, Binary64.le, Binary64.lt]
  | infinity negative =>
      simp only [printDouble, formatDouble, infText]
      split_ifs <;> simp
  | finite q h =>
      have hq : q ≠ 0 := by simpa [Binary64.isZero] using hd
      simp only [printDouble, formatDouble, Binary64.abs_finite h]
      split_ifs with hint hexp
      · simp only [Bool.and_eq_true] at hint
        exact length_fixed_zero h hint.2
      · exact (Decimal.length_scientific_le h hq).trans (by norm_num)
      · simp only [Bool.or_eq_true, not_or, Bool.not_eq_true] at hexp
        exact (length_fixed_six h hexp.2).trans (by norm_num)

theorem printNumber_length (item : ItemData) :
    (printNumber item).2.length < (printNumber item).1 := by
  simp only [printNumber]
  cases hzero : item.valuedouble.isZero with
  | true => simp
  | false =>
      simp only [if_neg Bool.false_ne_true]
      split
      · exact (Decimal.length_signed_le _).trans_lt (by norm_num)
      · exact (length_printDouble hzero).trans_lt (by norm_num)

theorem printDouble_ne_nil (d : Binary64) : printDouble d ≠ [] := by
  have hfixed : ∀ precision q, Decimal.fixed precision q ≠ [] := by
    intro precision q
    simp [Decimal.fixed, Decimal.decimal_ne_nil]
  have hscientific : ∀ q, Decimal.scientific q ≠ [] := by
    intro q
    simp [Decimal.scientific]
  have hformat : ∀ finite : ℚ → Bytes, (∀ q, finite q ≠ []) → formatDouble finite d ≠ [] := by
    intro finite hfinite
    cases d with
    | nan => simp [formatDouble, nanText]
    | infinity negative => cases negative <;> simp [formatDouble, infText]
    | finite q _ => exact hfinite q
  unfold printDouble
  split_ifs
  · exact hformat _ (hfixed 0)
  · exact hformat _ hscientific
  · exact hformat _ (hfixed 6)

/-- Of the sizes only that of a double exceeds what any text of it needs. -/
theorem printNumber_slack (item : ItemData) :
    (printNumber item).1 ≤ (printNumber item).2.length + 63 := by
  simp only [printNumber]
  split_ifs
  · decide
  · simp
  · have := List.length_pos_of_ne_nil (printDouble_ne_nil item.valuedouble)
    simp only
    omega

theorem nul_not_mem_formatDouble {finite : ℚ → Bytes} (h : ∀ q, 0 ∉ finite q) (d : Binary64) :
    0 ∉ formatDouble finite d := by
  cases d with
  | nan =>
      rw [formatDouble]
      decide
  | infinity negative =>
      rw [formatDouble]
      revert negative
      decide
  | finite q _ => exact h q

theorem nul_not_mem_printNumber (item : ItemData) : 0 ∉ (printNumber item).2 := by
  simp only [printNumber, printDouble]
  split_ifs
  · decide
  · exact Decimal.nul_not_mem_signed _
  · exact nul_not_mem_formatDouble (Decimal.nul_not_mem_fixed 0) _
  · exact nul_not_mem_formatDouble Decimal.nul_not_mem_scientific _
  · exact nul_not_mem_formatDouble (Decimal.nul_not_mem_fixed 6) _

theorem nul_not_mem_escape : ∀ c : UInt8, 0 ∉ escape c := by
  apply forall_byte
  decide

theorem nul_not_mem_literal (str : Bytes) : 0 ∉ literal str := by
  have hquote : (0 : UInt8) ≠ quote := by decide
  simp [literal, nul_not_mem_escape, hquote]

theorem nul_not_mem_indent (fmt : Bool) (depth : Nat) : 0 ∉ indent fmt depth := by
  have htab : (0 : UInt8) ≠ tab := by decide
  unfold indent
  split <;> simp [htab]

theorem nul_not_mem_lineBreak (fmt : Bool) : 0 ∉ lineBreak fmt := by
  cases fmt <;> decide

/-! What the loop over the children writes. -/

def beforeText (fmt object : Bool) (depth : Nat) (string : Option Bytes) : Bytes :=
  if object then
    indent fmt depth ++ (literal (string.getD []) ++ (colon :: if fmt then [tab] else []))
  else []

def afterText (fmt object last : Bool) : Bytes :=
  if object then (if last then [] else [comma]) ++ lineBreak fmt
  else if last then []
  else comma :: if fmt then [space] else []

def loopText (fmt object : Bool) (depth : Nat) : List Entry → Bytes
  | [] => []
  | entry :: entries =>
      beforeText fmt object depth entry.1 ++ (entry.2 ++
        (afterText fmt object entries.isEmpty ++ loopText fmt object depth entries))

theorem composeArray_eq_loopText (fmt : Bool) (depth : Nat) :
    ∀ entries : List Entry,
      composeArray fmt (entries.map Prod.snd) = loopText fmt false depth entries ++ [rbracket]
  | [] => rfl
  | [entry] => by simp [composeArray, loopText, beforeText, afterText]
  | entry :: entry' :: entries => by
      have ih := composeArray_eq_loopText fmt depth (entry' :: entries)
      rw [List.map_cons] at ih
      have hloop : loopText fmt false depth (entry :: entry' :: entries) =
          entry.2 ++ (comma :: ((if fmt then [space] else []) ++
            loopText fmt false depth (entry' :: entries))) := rfl
      rw [List.map_cons, List.map_cons, composeArray, ih, hloop]
      · simp
      · simp

theorem composeObject_eq_loopText (fmt : Bool) (depth : Nat) (entries : List Entry) :
    composeObject fmt depth (entries.map memberText) =
      loopText fmt true depth entries ++ (indent fmt (depth - 1) ++ [rbrace]) := by
  induction entries with
  | nil => rfl
  | cons entry entries ih =>
      simp [composeObject, loopText, beforeText, afterText, memberText, ih]

theorem nul_not_mem_loopText {fmt object : Bool} {depth : Nat} {entries : List Entry}
    (h : ∀ entry ∈ entries, 0 ∉ entry.2) : 0 ∉ loopText fmt object depth entries := by
  induction entries with
  | nil => exact List.not_mem_nil
  | cons entry entries ih =>
      have hbefore : 0 ∉ beforeText fmt object depth entry.1 := by
        have hcolon : (0 : UInt8) ∉ colon :: if fmt then [tab] else [] := by
          cases fmt <;> decide
        unfold beforeText
        split
        · simp only [List.mem_append, not_or]
          exact ⟨nul_not_mem_indent fmt depth, nul_not_mem_literal _, hcolon⟩
        · exact List.not_mem_nil
      have hafter : ∀ last, 0 ∉ afterText fmt object last := by
        cases fmt <;> cases object <;> decide
      simp only [loopText, List.mem_append, not_or]
      exact ⟨hbefore, h entry List.mem_cons_self, hafter _,
        ih fun entry' h' => h entry' (List.mem_cons_of_mem _ h')⟩

theorem nul_not_mem_nodeText {fmt : Bool} {depth : Nat} {item : ItemData} {entries : List Entry}
    (h : ∀ entry ∈ entries, 0 ∉ entry.2) : 0 ∉ nodeText fmt depth item entries := by
  unfold nodeText
  cases item.type.kind with
  | null => exact (by decide : 0 ∉ nullText)
  | false => exact (by decide : 0 ∉ falseText)
  | true => exact (by decide : 0 ∉ trueText)
  | number => exact nul_not_mem_printNumber item
  | string => exact nul_not_mem_literal _
  | array =>
      simp only [arrayText]
      split
      · decide
      · rw [composeArray_eq_loopText fmt depth]
        simp only [List.mem_cons, List.mem_append, not_or]
        exact ⟨by decide, nul_not_mem_loopText h, by decide⟩
  | object =>
      have hclose : ∀ depth, 0 ∉ indent fmt depth ++ [rbrace] := by
        intro depth
        simp only [List.mem_append, not_or]
        exact ⟨nul_not_mem_indent fmt depth, by decide⟩
      simp only [objectText]
      split
      · simp only [List.mem_cons, List.mem_append (s := lineBreak fmt), not_or]
        exact ⟨by decide, nul_not_mem_lineBreak fmt, hclose _⟩
      · rw [composeObject_eq_loopText]
        simp only [List.mem_cons, List.mem_append (s := lineBreak fmt),
          List.mem_append (s := loopText _ _ _ _), not_or]
        exact ⟨by decide, nul_not_mem_lineBreak fmt, nul_not_mem_loopText h, hclose _⟩

theorem nul_not_mem_chainEntries (fmt : Bool) (item : Item) :
    ∀ depth, ∀ entry ∈ chainEntries fmt depth item, 0 ∉ entry.2 := by
  induction item with
  | null =>
      intro depth entry h
      cases h
  | node data child next ihchild ihnext =>
      intro depth entry h
      rcases List.mem_cons.mp h with rfl | h
      · exact nul_not_mem_nodeText (ihchild (depth + 1))
      · exact ihnext depth entry h

end RebuildTheWheel.CJson
