import RebuildTheWheel.CJson.PrintBlock
import RebuildTheWheel.CJson.PrintBufferedCorrect

namespace RebuildTheWheel.CJson

open RebuildTheWheel.Data
open RebuildTheWheel.Data.Ascii

/-! What is stored into a block is one text, and a byte behind the pointer at most. -/

namespace PrintBuffer

theorem exists_split {p : PrintBuffer} {n : Nat} (h : p.offset + n ≤ p.length) :
    ∃ pre old rest, p.buffer = pre ++ (old ++ rest) ∧ p.offset = pre.length ∧ old.length = n := by
  rw [PrintBuffer.length] at h
  refine ⟨p.buffer.take p.offset, (p.buffer.drop p.offset).take n,
    (p.buffer.drop p.offset).drop n, ?_, ?_, ?_⟩
  · rw [List.take_append_drop, List.take_append_drop]
  · rw [List.length_take_of_le (by omega)]
  · rw [List.length_take_of_le (by rw [List.length_drop]; omega)]

theorem store_split {p : PrintBuffer} {bytes : Bytes} {pre old rest : List (Option UInt8)}
    (hbuffer : p.buffer = pre ++ (old ++ rest)) (hoffset : p.offset = pre.length)
    (hlength : old.length = bytes.length) :
    p.store bytes = some { p with buffer := pre ++ (bytes.map some ++ rest) } := by
  have hroom : p.offset + bytes.length ≤ p.length := by
    rw [PrintBuffer.length, hbuffer, hoffset, List.length_append, List.length_append]
    omega
  have hdrop : p.buffer.drop (p.offset + bytes.length) = rest := by
    rw [hbuffer, hoffset, ← hlength, ← List.append_assoc]
    exact List.drop_left' List.length_append
  rw [store, if_pos hroom, hdrop, hbuffer, hoffset, List.take_left]

theorem put_split {p : PrintBuffer} {bytes : Bytes} {pre old rest : List (Option UInt8)}
    (hbuffer : p.buffer = pre ++ (old ++ rest)) (hoffset : p.offset = pre.length)
    (hlength : old.length = bytes.length) :
    p.put bytes =
      some ⟨pre ++ (bytes.map some ++ rest), p.offset + bytes.length⟩ := by
  rw [put, store_split hbuffer hoffset hlength]
  rfl

theorem put_eq_none {p : PrintBuffer} {bytes : Bytes} (h : p.length < p.offset + bytes.length) :
    p.put bytes = none := by
  rw [put, store, if_neg (Nat.not_le.mpr h)]
  rfl

/-- Bytes that the pointer stays before are stored over. -/
theorem store_put (p : PrintBuffer) {s t bytes : Bytes} (h : t.length ≤ bytes.length) :
    ((p.store (s ++ t)).bind fun q =>
      PrintBuffer.put { q with offset := q.offset + s.length } bytes) = p.put (s ++ bytes) := by
  have hlength : (s ++ bytes).length = s.length + bytes.length := List.length_append
  by_cases hroom : p.offset + (s ++ bytes).length ≤ p.length
  · obtain ⟨pre, old, rest, hbuffer, hoffset, hold⟩ := exists_split hroom
    obtain ⟨first, tail, rfl, hfirst⟩ : ∃ first tail, old = first ++ tail ∧
        first.length = (s ++ t).length :=
      ⟨old.take (s ++ t).length, old.drop (s ++ t).length, (List.take_append_drop _ _).symm,
        List.length_take_of_le (by rw [hold, hlength, List.length_append]; omega)⟩
    have htail : t.length + tail.length = bytes.length := by
      simp only [List.length_append] at hold hfirst
      omega
    have hput : PrintBuffer.put ⟨pre ++ ((s ++ t).map some ++ (tail ++ rest)), p.offset + s.length⟩
        bytes = some ⟨pre ++ s.map some ++ (bytes.map some ++ rest),
          p.offset + s.length + bytes.length⟩ :=
      put_split (show _ = pre ++ s.map some ++ (t.map some ++ tail ++ rest) by simp)
        (by simp [hoffset]) (by simpa using htail)
    rw [store_split (by rw [hbuffer, List.append_assoc]) hoffset hfirst, Option.bind_some,
      put_split hbuffer hoffset hold,
      hput]
    simp [Nat.add_assoc]
  · rw [put_eq_none (Nat.not_le.mp hroom), store]
    split
    · rw [Option.bind_some, put_eq_none]
      simp only [PrintBuffer.length, List.length_append, List.length_take, List.length_map,
        List.length_drop] at *
      omega
    · rfl

theorem put_put (p : PrintBuffer) (first bytes : Bytes) :
    ((p.put first).bind fun q => q.put bytes) = p.put (first ++ bytes) := by
  rw [← store_put p (t := []) (Nat.zero_le _), List.append_nil, put, Option.bind_eq_bind,
    Option.bind_assoc]
  rfl

/-- `*ptr=0` before further stores. -/
theorem store_nul_put (p : PrintBuffer) {bytes : Bytes} (h : bytes ≠ []) :
    ((p.store [0]).bind fun q => q.put bytes) = p.put bytes :=
  store_put p (s := []) (t := [0]) (List.length_pos_of_ne_nil h)

/-- `strcpy` and the step of the pointer before further stores. -/
theorem strcpy_put (p : PrintBuffer) (str : Bytes) {bytes : Bytes} (h : bytes ≠ []) :
    ((p.store (str ++ [0])).bind fun q =>
      PrintBuffer.put { q with offset := q.offset + str.length } bytes) = p.put (str ++ bytes) :=
  store_put p (List.length_pos_of_ne_nil h)

theorem foldlM_put (escape : UInt8 → Bytes) (bytes : Bytes) (str : Bytes) :
    ∀ p : PrintBuffer,
      ((str.foldlM (fun (p : PrintBuffer) token => p.put (escape token)) p).bind fun q => q.put bytes) =
        p.put (str.flatMap escape ++ bytes) := by
  induction str with
  | nil =>
      intro p
      rfl
  | cons token str ih =>
      intro p
      rw [List.foldlM_cons, Option.bind_eq_bind, Option.bind_assoc, List.flatMap_cons,
        List.append_assoc, ← put_put]
      exact Option.bind_congr fun q _ => ih q

end PrintBuffer

open PrintBuffer

theorem withBlock_put (len : Int) {text : Bytes} (hnul : 0 ∉ text) :
    (withBlock len fun p => p.put (text ++ [0])) =
      if len < 0 then some none
      else if (text.length : Int) + 1 ≤ len then some (some text) else none := by
  rw [withBlock]
  split
  · rfl
  · next hlen =>
      have hsize : (List.replicate len.toNat (none : Option UInt8)).length = len.toNat :=
        List.length_replicate
      have htext : (text ++ [0]).length = text.length + 1 := List.length_append
      split
      · next hle =>
          obtain ⟨pre, old, rest, hbuffer, hoffset, hold⟩ := exists_split
            (p := ⟨List.replicate len.toNat none, 0⟩) (n := (text ++ [0]).length)
            (by rw [PrintBuffer.length, hsize, htext]; change 0 + _ ≤ len.toNat; omega)
          obtain rfl : pre = [] := List.length_eq_zero_iff.mp hoffset.symm
          rw [put_split hbuffer hoffset hold, Option.bind_eq_bind, Option.bind_some,
            List.nil_append, readString_append hnul]
          rfl
      · next hgt =>
          rw [put_eq_none (by rw [PrintBuffer.length, hsize, htext]; change len.toNat < 0 + _; omega)]
          rfl

theorem toInt_ofNat_fits {n : Nat} (h : n ≤ intMax) : (Int32.ofNat n).toInt = n :=
  Int32.toInt_ofNat_of_lt (by rw [intMax] at h; omega)

theorem toInt_ofNat_refused {n : Nat} (h : 2 ^ 31 ≤ n % 2 ^ 32) :
    (Int32.ofNat n).toInt = (n % 2 ^ 32 : Nat) - 2 ^ 32 := by
  rw [Int32.toInt_ofNat', Int.bmod_def]
  simp only [Int32.size]
  omega

theorem toInt_ofNat_overruns {n : Nat} (h : n % 2 ^ 32 < 2 ^ 31) :
    (Int32.ofNat n).toInt = (n % 2 ^ 32 : Nat) := by
  rw [Int32.toInt_ofNat', Int.bmod_def]
  simp only [Int32.size]
  omega

/-- A block of a converted size, where the size exceeds the text by less than the
conversion takes away. -/
theorem withBlock_ofNat {size : Nat} {text : Bytes} (hnul : 0 ∉ text)
    (hle : text.length + 1 ≤ size) (hlt : size < text.length + 1 + 2 ^ 32) :
    (withBlock (Int32.ofNat size).toInt fun p => p.put (text ++ [0])) =
      (SizeCheck.ofSize size).result text := by
  rw [withBlock_put _ hnul, SizeCheck.ofSize]
  by_cases hfits : size ≤ intMax
  · rw [toInt_ofNat_fits hfits, if_pos hfits, if_neg (by omega), if_pos (by omega)]
    rfl
  · have hbig : 2 ^ 31 ≤ size := Nat.not_le.mp hfits
    rw [if_neg hfits]
    by_cases hnegative : 2 ^ 31 ≤ size % 2 ^ 32
    · rw [toInt_ofNat_refused hnegative, if_pos hnegative, if_pos (by omega)]
      rfl
    · rw [toInt_ofNat_overruns (Nat.not_le.mp hnegative), if_neg hnegative, if_neg (by omega),
        if_neg (by omega)]
      rfl

theorem foldl_ofNat {α : Type} (size : α → Nat) (members : List α) :
    ∀ len : Nat, members.foldl (fun len member => len + Int32.ofNat (size member)) (Int32.ofNat len) =
      Int32.ofNat (len + (members.map size).sum) := by
  induction members with
  | nil =>
      intro len
      rfl
  | cons member members ih =>
      intro len
      rw [List.foldl_cons, ← Int32.ofNat_add, ih, List.map_cons, List.sum_cons, Nat.add_assoc]

/-! `print_string_ptr` -/

theorem foldlM_escapeSize (str : Bytes) :
    ∀ len, len ≤ intMax → (str.foldlM (fun len token => int? (len + escapeSize token)) len) =
      int? (len + (str.map escapeSize).sum) := by
  induction str with
  | nil =>
      intro len hlen
      exact (if_pos hlen).symm
  | cons token str ih =>
      intro len hlen
      rw [List.foldlM_cons, List.map_cons, List.sum_cons, ← Nat.add_assoc]
      by_cases hnext : len + escapeSize token ≤ intMax
      · rw [int?, if_pos hnext]
        exact ih _ hnext
      · rw [int?, if_neg hnext, int?, if_neg (by omega)]
        rfl

theorem advance_eq {p : PrintBuffer} {len : Int32} {n : Nat} (h : len.toInt = n) :
    p.advance len = some { p with offset := p.offset + n } := by
  simp only [advance, h]
  rw [if_pos (by omega), ← Nat.cast_add, Int.toNat_natCast]

theorem quoted_put {len : Int32} {str : Bytes} (h : len.toInt = str.length) (p : PrintBuffer) :
    ((p.put [quote]).bind fun p => (p.store (str ++ [0])).bind fun p => (p.advance len).bind fun p =>
      p.put [quote, 0]) = p.put (quote :: (str ++ [quote, 0])) := by
  simp only [advance_eq h, Option.bind_some]
  rw [show quote :: (str ++ [quote, 0]) = [quote] ++ (str ++ [quote, 0]) from rfl, ← put_put]
  exact Option.bind_congr fun q _ => strcpy_put q str (by simp)

/-- The copy of a string that is longer than its block. -/
theorem withBlock_short {len : Int} {str : Bytes} {rest : PrintBuffer → Option PrintBuffer}
    (h : len < str.length) :
    (withBlock len fun p => (p.put [quote]).bind fun p => (p.store (str ++ [0])).bind rest) =
      if len < 0 then some none else none := by
  rw [withBlock]
  split
  · rfl
  · have hstore : ∀ p : PrintBuffer, p.length < p.offset + (str ++ [0]).length →
        p.store (str ++ [0]) = none := fun p hp => if_neg (Nat.not_le.mpr hp)
    have hbody : ((PrintBuffer.put ⟨List.replicate len.toNat none, 0⟩ [quote]).bind fun p =>
        (p.store (str ++ [0])).bind rest) = none := by
      by_cases hone : 1 ≤ len.toNat
      · obtain ⟨pre, old, tail, hbuffer, hoffset, hold⟩ := exists_split
          (p := ⟨List.replicate len.toNat none, 0⟩) (n := 1)
          (by rw [PrintBuffer.length, List.length_replicate]; exact hone)
        have hlength := congrArg List.length hbuffer
        rw [List.length_replicate, List.length_append, List.length_append] at hlength
        rw [put_split hbuffer hoffset (by exact hold), Option.bind_some, hstore _ ?_,
          Option.bind_none]
        simp only [PrintBuffer.length, List.length_append, List.length_map, List.length_singleton]
        omega
      · rw [put_eq_none ?_, Option.bind_none]
        rw [PrintBuffer.length, List.length_replicate]
        exact Nat.lt_of_not_le hone
    rw [hbody]
    rfl

theorem writeStringPtr_eq (str : Option Bytes) :
    writeStringPtr str = (literalSizes str).result (literal (str.getD [])) := by
  cases str with
  | none => rfl
  | some str =>
      have hlength : (literal str).length = ((cstr str).map escapeSize).sum + 2 := by
        rw [literal, List.length_cons, List.length_append, length_flatMap_escape]
        rfl
      have hput : ∀ p : PrintBuffer, (p.put (quote :: ((cstr str).flatMap escape ++ [quote, 0]))) =
          p.put (literal str ++ [0]) := by
        intro p
        rw [literal, List.cons_append, List.append_assoc]
        rfl
      simp only [writeStringPtr, literalSizes, Option.getD_some, Option.bind_eq_bind,
        Option.bind_some]
      cases hflag : (cstr str).any needsEscape with
      | true =>
          simp only [Bool.not_true, Bool.false_eq_true, if_false, if_true]
          rw [foldlM_escapeSize _ 0 (Nat.zero_le _), Nat.zero_add, hlength]
          by_cases hfits : ((cstr str).map escapeSize).sum + 2 + 1 ≤ intMax
          · rw [if_pos hfits, int?, if_pos (by omega), Option.bind_some, int?, if_pos hfits,
              Option.bind_some]
            simp only [foldlM_put, put_put, List.singleton_append, hput]
            rw [withBlock_put _ (nul_not_mem_literal str), if_neg (by omega), if_pos (by omega)]
            rfl
          · rw [if_neg hfits]
            by_cases hcount : ((cstr str).map escapeSize).sum ≤ intMax
            · rw [int?, if_pos hcount, Option.bind_some, int?, if_neg hfits]
              rfl
            · rw [int?, if_neg hcount]
              rfl
      | false =>
          have hplain := flatMap_escape_plain (nul_not_mem_cstr str) hflag
          have hcount : ((cstr str).map escapeSize).sum = (cstr str).length := by
            rw [← length_flatMap_escape, hplain]
          rw [hcount] at hlength
          simp only [Bool.not_false, Bool.false_eq_true, if_false, if_true, hlength]
          by_cases hfits : (cstr str).length + 2 + 1 ≤ intMax
          · have hint := toInt_ofNat_fits (n := (cstr str).length) (by omega)
            rw [hint, if_pos hfits, if_pos (by omega)]
            simp only [quoted_put hint]
            have hliteral := hput
            rw [hplain] at hliteral
            simp only [hliteral]
            rw [withBlock_put _ (nul_not_mem_literal str), if_neg (by omega), if_pos (by omega)]
            rfl
          · have hmax : intMax = 2 ^ 31 - 1 := rfl
            rw [if_neg hfits]
            by_cases hnegative : 2 ^ 31 ≤ (cstr str).length % 2 ^ 32
            · rw [toInt_ofNat_refused hnegative, if_pos (by omega), withBlock_short (by omega)]
              by_cases hrefused : (cstr str).length % 2 ^ 32 + 3 < 2 ^ 32
              · rw [if_pos (by omega), if_pos ⟨hnegative, hrefused⟩]
                rfl
              · rw [if_neg (by omega), if_neg fun h => hrefused h.2]
                rfl
            · have hcheck : ¬(2 ^ 31 ≤ (cstr str).length % 2 ^ 32 ∧
                  (cstr str).length % 2 ^ 32 + 3 < 2 ^ 32) := fun h => hnegative h.1
              rw [toInt_ofNat_overruns (Nat.not_le.mp hnegative), if_neg hcheck]
              split
              · rw [withBlock_short (by omega), if_neg (by omega)]
                rfl
              · rfl

theorem writeNumber_eq (item : ItemData) :
    writeNumber item = some (some (printNumber item).2) := by
  have hlength := printNumber_length item
  have hput := withBlock_put (printNumber item).1 (nul_not_mem_printNumber item)
  rw [if_neg (by omega), if_pos (by omega)] at hput
  exact hput

/-! `print_array` -/

theorem composeArray_cons_cons (fmt : Bool) (entry entry' : Bytes) (entries : List Bytes) :
    composeArray fmt (entry :: entry' :: entries) =
      entry ++ ((comma :: if fmt then [space] else []) ++ composeArray fmt (entry' :: entries)) :=
  rfl

theorem writeElements_put (fmt : Bool) :
    ∀ (entries : List Bytes), entries ≠ [] → ∀ p : PrintBuffer,
      ((writeElements fmt entries p).bind fun p => p.put [rbracket, 0]) =
        p.put (composeArray fmt entries ++ [0])
  | [], h, _ => absurd rfl h
  | [entry], _, p => by
      rw [writeElements, put_put, composeArray, List.append_assoc]
      rfl
  | entry :: entry' :: entries, _, p => by
      have ih := writeElements_put fmt (entry' :: entries) (List.cons_ne_nil _ _)
      have hne : composeArray fmt (entry' :: entries) ++ [0] ≠ [] := by simp
      rw [composeArray_cons_cons, List.append_assoc, List.append_assoc, ← put_put]
      simp only [writeElements, Option.bind_eq_bind, Option.bind_assoc]
      refine Option.bind_congr fun q _ => ?_
      rw [← put_put]
      refine Option.bind_congr fun q _ => ?_
      rw [← store_nul_put q hne]
      exact Option.bind_congr fun q _ => ih q

theorem length_composeArray (fmt : Bool) :
    ∀ entries : List Bytes, entries ≠ [] →
      (entries.map (elementSize fmt)).sum =
        (composeArray fmt entries).length + entries.length + if fmt then 1 else 0
  | [], h => absurd rfl h
  | [entry], _ => by
      simp only [composeArray, elementSize, List.map_cons, List.map_nil, List.sum_cons,
        List.sum_nil, List.length_append, List.length_cons, List.length_nil]
      omega
  | entry :: entry' :: entries, _ => by
      have ih := length_composeArray fmt (entry' :: entries) (List.cons_ne_nil _ _)
      rw [List.map_cons, List.sum_cons, composeArray_cons_cons]
      rw [elementSize, List.length_append, List.length_append, List.length_cons (a := entry)]
      cases fmt <;> simp only [List.length_cons, List.length_nil, if_true, Bool.false_eq_true,
        if_false] at ih ⊢ <;> omega

theorem nul_not_mem_arrayText {fmt : Bool} {entries : List Entry}
    (h : ∀ entry ∈ entries, 0 ∉ entry.2) : 0 ∉ arrayText fmt entries := by
  have hnode : 0 ∉ nodeText fmt 0 { type := { kind := .array } } entries := nul_not_mem_nodeText h
  exact hnode

/-- The children as the composing loop of their container finds them. -/
def childTexts (object : Bool) (entries : List Entry) : List (Bytes × Bytes) :=
  if object then entries.map memberText else entries.map fun entry => ([], entry.2)

theorem arrayText_of_ne_nil {fmt : Bool} {entries : List Entry} (hne : entries ≠ []) :
    arrayText fmt entries = lbracket :: composeArray fmt (entries.map Prod.snd) := by
  rw [arrayText, List.isEmpty_eq_false_iff.mpr hne, if_neg Bool.false_ne_true]

/-- The three writes of a nonempty array are one. -/
theorem writeElements_text {fmt : Bool} {entries : List Entry} (hne : entries ≠ [])
    (p : PrintBuffer) :
    ((p.put [lbracket]).bind fun p => (p.store [0]).bind fun p =>
      (writeElements fmt (entries.map Prod.snd) p).bind fun p => p.put [rbracket, 0]) =
        p.put (arrayText fmt entries ++ [0]) := by
  have hmap : entries.map Prod.snd ≠ [] := fun h => hne (List.map_eq_nil_iff.mp h)
  rw [arrayText_of_ne_nil hne, List.cons_append,
    ← List.singleton_append (l := composeArray _ _ ++ [0]), ← put_put]
  refine Option.bind_congr fun q _ => ?_
  rw [← store_nul_put q (by simp)]
  exact Option.bind_congr fun q _ => writeElements_put fmt _ hmap q

theorem writeArray_eq {fmt : Bool} {entries : List Entry} {children : SizeCheck}
    (hnul : ∀ entry ∈ entries, 0 ∉ entry.2) :
    writeArray fmt entries.length (children.result (childTexts false entries)) =
      (arraySizes fmt entries children).result (arrayText fmt entries) := by
  rw [writeArray, arraySizes]
  by_cases hempty : entries = []
  · subst hempty
    have hput := withBlock_put 3 (show 0 ∉ [lbracket, rbracket] by decide)
    rwa [if_neg (by decide), if_pos (by decide)] at hput
  · have hcount : entries.length ≠ 0 := fun h => hempty (List.length_eq_zero_iff.mp h)
    have hisEmpty : entries.isEmpty = false := List.isEmpty_eq_false_iff.mpr hempty
    rw [hisEmpty, if_neg Bool.false_ne_true]
    by_cases hint : entries.length ≤ intMax
    · rw [int?, if_pos hint, if_neg (Nat.not_lt.mpr hint), Option.bind_eq_bind, Option.bind_some,
        if_neg hcount]
      cases children with
      | fits =>
          have hmap : entries.map Prod.snd ≠ [] := fun h => hempty (List.map_eq_nil_iff.mp h)
          have htexts : (childTexts false entries).map Prod.snd = entries.map Prod.snd := by
            simp [childTexts]
          have hlen := foldl_ofNat (elementSize fmt) (entries.map Prod.snd) 5
          have hsize : arraySize fmt (entries.map Prod.snd) =
              5 + ((entries.map Prod.snd).map (elementSize fmt)).sum := rfl
          have hlength := length_composeArray fmt _ hmap
          simp only [SizeCheck.result, Option.bind_some, htexts, SizeCheck.andThen,
            Option.bind_eq_bind, writeElements_text hempty]
          rw [hsize]
          change (withBlock (List.foldl _ (Int32.ofNat 5) _).toInt _) = _
          rw [hlen, withBlock_ofNat (nul_not_mem_arrayText hnul)]
          · rfl
          · rw [hlength, arrayText_of_ne_nil hempty, List.length_cons]
            omega
          · rw [hlength, arrayText_of_ne_nil hempty, List.length_cons, List.length_map]
            rw [intMax] at hint
            split <;> omega
      | refused => rfl
      | overruns => rfl
    · rw [int?, if_neg hint, if_pos (Nat.not_le.mp hint)]
      rfl

/-! `print_object` -/

theorem writeMembers_put (fmt : Bool) (depth : Nat) (members : List (Bytes × Bytes)) :
    ∀ p : PrintBuffer,
      ((writeMembers fmt depth members p).bind fun p =>
        p.put (indent fmt (depth - 1) ++ [rbrace] ++ [0])) =
          p.put (composeObject fmt depth members ++ [0]) := by
  induction members with
  | nil =>
      intro p
      rfl
  | cons member members ih =>
      intro p
      obtain ⟨name, entry⟩ := member
      have hne : composeObject fmt depth members ++ [0] ≠ [] := by simp
      simp only [writeMembers, composeObject, Option.bind_eq_bind, Option.bind_assoc,
        List.append_assoc, List.cons_append]
      rw [← put_put]
      refine Option.bind_congr fun q _ => ?_
      rw [← put_put]
      refine Option.bind_congr fun q _ => ?_
      rw [← List.cons_append (a := colon), ← put_put]
      refine Option.bind_congr fun q _ => ?_
      rw [← strcpy_put q entry (by simp)]
      refine Option.bind_congr fun q _ => ?_
      rw [← List.append_assoc, ← put_put _ (_ ++ lineBreak fmt)]
      refine Option.bind_congr fun q _ => ?_
      rw [← store_nul_put q hne]
      refine Option.bind_congr fun q _ => ?_
      rw [← ih q, List.append_assoc]
      rfl

theorem length_composeObject (fmt : Bool) (depth : Nat) (members : List (Bytes × Bytes)) :
    (members.map (memberSize fmt depth)).sum + (indent fmt (depth - 1)).length + 1 =
      (composeObject fmt depth members).length + if members.isEmpty then 0 else 1 := by
  induction members with
  | nil => simp [composeObject]
  | cons member members ih =>
      obtain ⟨name, entry⟩ := member
      rw [List.map_cons, List.sum_cons, composeObject]
      cases fmt <;> cases members <;>
        simp only [memberSize, indent, lineBreak, List.length_append, List.length_cons,
          List.length_nil, List.length_replicate, List.isEmpty_cons, List.isEmpty_nil, if_true,
          Bool.false_eq_true, if_false] at ih ⊢ <;> omega

theorem nul_not_mem_objectText {fmt : Bool} {depth : Nat} {entries : List Entry}
    (h : ∀ entry ∈ entries, 0 ∉ entry.2) : 0 ∉ objectText fmt depth entries := by
  have hnode : 0 ∉ nodeText fmt depth { type := { kind := .object } } entries :=
    nul_not_mem_nodeText h
  exact hnode

theorem objectText_of_ne_nil {fmt : Bool} {depth : Nat} {entries : List Entry}
    (hne : entries ≠ []) :
    objectText fmt depth entries =
      lbrace :: (lineBreak fmt ++ composeObject fmt (depth + 1) (entries.map memberText)) := by
  rw [objectText, List.isEmpty_eq_false_iff.mpr hne, if_neg Bool.false_ne_true]

/-- The three writes of a nonempty object are one. -/
theorem writeMembers_text {fmt : Bool} {depth : Nat} {entries : List Entry} (hne : entries ≠ [])
    (p : PrintBuffer) :
    ((p.put (lbrace :: lineBreak fmt)).bind fun p =>
      (p.store [0]).bind fun p =>
        (writeMembers fmt (depth + 1) (entries.map memberText) p).bind fun p =>
          p.put (indent fmt (depth + 1 - 1) ++ [rbrace] ++ [0])) =
        p.put (objectText fmt depth entries ++ [0]) := by
  rw [objectText_of_ne_nil hne, ← List.cons_append, List.append_assoc (lbrace :: lineBreak fmt),
    ← put_put p]
  refine Option.bind_congr fun q _ => ?_
  rw [← store_nul_put q (by simp)]
  exact Option.bind_congr fun q _ => writeMembers_put fmt _ _ q

theorem length_objectText {fmt : Bool} {depth : Nat} {entries : List Entry} (hne : entries ≠ []) :
    (objectText fmt depth entries).length + 1 + 5 =
      7 + (if fmt then depth + 1 else 0) +
        ((entries.map memberText).map (memberSize fmt (depth + 1))).sum := by
  have hlength := length_composeObject fmt (depth + 1) (entries.map memberText)
  rw [if_neg (by simpa using hne)] at hlength
  rw [objectText_of_ne_nil hne, List.length_cons, List.length_append]
  revert hlength
  cases fmt <;> simp [indent, lineBreak] <;> omega

theorem writeObject_nil (fmt : Bool) (depth : Nat) (children : SizeCheck) :
    writeObject fmt depth 0 (children.result (childTexts true [])) =
      (objectSizes fmt depth [] children).result (objectText fmt depth []) := by
  have hzero : int? 0 = some 0 := rfl
  rw [writeObject, objectSizes, hzero, Option.bind_eq_bind, Option.bind_some, if_pos rfl,
    if_pos List.isEmpty_nil]
  by_cases hsize : (if fmt then depth + 4 else 3) ≤ intMax
  · have htext : objectText fmt depth [] =
        lbrace :: (lineBreak fmt ++ (indent fmt (depth - 1) ++ [rbrace])) := rfl
    have hlength : ((objectText fmt depth []).length : Int) + 1 ≤
        (if fmt then depth + 4 else 3 : Nat) := by
      rw [htext]
      cases fmt
      · simp [lineBreak, indent]
      · simp only [lineBreak, indent, if_true, List.length_cons, List.length_append,
          List.length_nil, List.length_replicate]
        omega
    have hnul : 0 ∉ objectText fmt depth [] := nul_not_mem_objectText fun _ h =>
      absurd h List.not_mem_nil
    rw [if_pos hsize, int?, if_pos hsize, Option.bind_some, ← htext, withBlock_put _ hnul,
      if_neg (by omega), if_pos hlength]
    rfl
  · rw [if_neg hsize, int?, if_neg hsize]
    rfl

theorem writeObject_eq {fmt : Bool} {depth : Nat} {entries : List Entry} {children : SizeCheck}
    (hnul : ∀ entry ∈ entries, 0 ∉ entry.2) :
    writeObject fmt depth entries.length (children.result (childTexts true entries)) =
      (objectSizes fmt depth entries children).result (objectText fmt depth entries) := by
  by_cases hempty : entries = []
  · subst hempty
    exact writeObject_nil fmt depth children
  · have hcount : entries.length ≠ 0 := fun h => hempty (List.length_eq_zero_iff.mp h)
    have hisEmpty : entries.isEmpty = false := List.isEmpty_eq_false_iff.mpr hempty
    rw [writeObject, objectSizes, hisEmpty, if_neg Bool.false_ne_true]
    by_cases hints : intMax < entries.length ∨ intMax < 7 + (if fmt then depth + 1 else 0)
    · rw [if_pos hints]
      by_cases hint : entries.length ≤ intMax
      · have hdepth : ¬7 + (if fmt then depth + 1 else 0) ≤ intMax :=
          Nat.not_le.mpr (hints.resolve_left (Nat.not_lt.mpr hint))
        rw [int?, if_pos hint, Option.bind_eq_bind, Option.bind_some, if_neg hcount]
        simp only [int?, if_neg hdepth]
        rfl
      · rw [int?, if_neg hint]
        rfl
    · rw [if_neg hints]
      have hint : entries.length ≤ intMax := Nat.not_lt.mp fun h => hints (.inl h)
      have hdepth : 7 + (if fmt then depth + 1 else 0) ≤ intMax :=
        Nat.not_lt.mp fun h => hints (.inr h)
      rw [int?, if_pos hint, Option.bind_eq_bind, Option.bind_some, if_neg hcount]
      simp only [int?, if_pos hdepth]
      cases children with
      | fits =>
          have hmembers : childTexts true entries = entries.map memberText := rfl
          have hlen := foldl_ofNat (memberSize fmt (depth + 1)) (entries.map memberText)
            (7 + if fmt then depth + 1 else 0)
          have hsize : objectSize fmt (depth + 1) (entries.map memberText) =
              7 + (if fmt then depth + 1 else 0) +
                ((entries.map memberText).map (memberSize fmt (depth + 1))).sum := rfl
          have hlength := @length_objectText fmt depth entries hempty
          simp only [SizeCheck.result, Option.bind_some, hmembers, SizeCheck.andThen,
            Option.bind_eq_bind, writeMembers_text hempty, hlen]
          rw [← hsize, withBlock_ofNat (nul_not_mem_objectText hnul)]
          · rfl
          · omega
          · omega
      | refused => rfl
      | overruns => rfl

/-! The printer on the whole tree. -/

theorem length_chainEntries (fmt : Bool) (item : Item) :
    ∀ depth, (chainEntries fmt depth item).length = numEntries item := by
  induction item with
  | null =>
      intro depth
      rfl
  | node data child next _ ihnext =>
      intro depth
      rw [chainEntries, List.length_cons, ihnext, numEntries]

theorem writeNode_eq {fmt : Bool} {depth numentries : Nat} {item : ItemData} {entries : List Entry}
    {children : Bool → Option (Option (List (Bytes × Bytes)))} {sizes : Bool → SizeCheck}
    (hcount : entries.length = numentries) (hnul : ∀ entry ∈ entries, 0 ∉ entry.2)
    (hchildren : ∀ object, children object = (sizes object).result (childTexts object entries)) :
    writeNode fmt depth item numentries children =
      (nodeSizes fmt depth item entries sizes).result (nodeText fmt depth item entries) := by
  subst hcount
  unfold writeNode nodeSizes nodeText
  cases item.type.kind with
  | null => rfl
  | false => rfl
  | true => rfl
  | number => exact writeNumber_eq item
  | string => exact writeStringPtr_eq item.valuestring
  | array =>
      simp only [hchildren]
      exact writeArray_eq hnul
  | object =>
      simp only [hchildren]
      exact writeObject_eq hnul

theorem writeChain_eq (fmt : Bool) (item : Item) :
    ∀ depth object, writeChain fmt depth item object =
      (chainSizes fmt depth item object).result
        (childTexts object (chainEntries fmt depth item)) := by
  induction item with
  | null =>
      intro depth object
      cases object <;> rfl
  | node data child next ihchild ihnext =>
      intro depth object
      have hnode : writeNode fmt depth data _ _ = _ :=
        writeNode_eq (length_chainEntries fmt child (depth + 1))
          (nul_not_mem_chainEntries fmt child (depth + 1)) (ihchild (depth + 1))
      cases object with
      | true =>
          rw [writeChain, writeStringPtr_eq, hnode, ihnext, chainSizes]
          cases literalSizes data.string <;>
            cases nodeSizes fmt depth data (chainEntries fmt (depth + 1) child)
              (chainSizes fmt (depth + 1) child) <;>
            cases chainSizes fmt depth next true <;> rfl
      | false =>
          rw [writeChain, hnode, ihnext, chainSizes]
          cases nodeSizes fmt depth data (chainEntries fmt (depth + 1) child)
              (chainSizes fmt (depth + 1) child) <;>
            cases chainSizes fmt depth next false <;> rfl

theorem writeValue_eq (fmt : Bool) (depth : Nat) (item : Item) :
    writeValue fmt depth item = (valueSizes fmt depth item).result (valueText fmt depth item) := by
  cases item with
  | null => rfl
  | node data child next =>
      exact writeNode_eq (length_chainEntries fmt child (depth + 1))
        (nul_not_mem_chainEntries fmt child (depth + 1)) (writeChain_eq fmt child (depth + 1))

theorem ofSize_fits {size : Nat} (h : size ≤ intMax) : SizeCheck.ofSize size = .fits := if_pos h

theorem literalSizes_fits {str : Option Bytes} (h : LiteralSizeFits str) :
    literalSizes str = .fits := by
  obtain ⟨s, rfl, hfits⟩ := h
  exact if_pos hfits

theorem length_le_objectSize (fmt : Bool) (depth : Nat) (members : List (Bytes × Bytes)) :
    7 + (if fmt then depth else 0) + members.length ≤ objectSize fmt depth members := by
  have hsum := List.length_le_sum_of_one_le (members.map (memberSize fmt depth)) (by
    intro size hsize
    obtain ⟨member, _, rfl⟩ := List.mem_map.mp hsize
    rw [memberSize]
    omega)
  rw [List.length_map] at hsum
  have hsize : objectSize fmt depth members =
      7 + (if fmt then depth else 0) + (members.map (memberSize fmt depth)).sum := rfl
  omega

theorem arraySizes_fits {fmt : Bool} {entries : List Entry}
    (h : entries = [] ∨ arraySize fmt (entries.map Prod.snd) ≤ intMax) :
    arraySizes fmt entries .fits = .fits := by
  rw [arraySizes]
  cases entries with
  | nil => rfl
  | cons entry entries =>
      have hsize := h.resolve_left (List.cons_ne_nil _ _)
      have hlength := length_composeArray fmt ((entry :: entries).map Prod.snd)
        (List.cons_ne_nil _ _)
      have hsum : arraySize fmt ((entry :: entries).map Prod.snd) =
        5 + (((entry :: entries).map Prod.snd).map (elementSize fmt)).sum := rfl
      rw [List.length_map] at hlength
      rw [List.isEmpty_cons, if_neg Bool.false_ne_true, if_neg (by omega)]
      exact ofSize_fits hsize

theorem objectSizes_fits {fmt : Bool} {depth : Nat} {entries : List Entry} {children : SizeCheck}
    (hchildren : (∀ entry ∈ entries, LiteralSizeFits entry.1) → children = .fits)
    (h : ObjectSizeFits fmt depth entries) : objectSizes fmt depth entries children = .fits := by
  rw [ObjectSizeFits] at h
  rw [objectSizes]
  cases entries with
  | nil => exact if_pos h
  | cons entry entries =>
      rw [List.isEmpty_cons, if_neg Bool.false_ne_true] at h ⊢
      have hle := length_le_objectSize fmt (depth + 1) ((entry :: entries).map memberText)
      rw [List.length_map] at hle
      rw [hchildren h.1, if_neg (by omega)]
      exact ofSize_fits h.2

theorem nodeSizes_fits {fmt : Bool} {depth : Nat} {item : ItemData} {entries : List Entry}
    {childrenFit : Prop} {sizes : Bool → SizeCheck}
    (hchildren : childrenFit → ∀ object,
      (object = true → ∀ entry ∈ entries, LiteralSizeFits entry.1) → sizes object = .fits)
    (h : NodeSizeFits fmt depth item entries childrenFit) :
    nodeSizes fmt depth item entries sizes = .fits := by
  unfold NodeSizeFits at h
  unfold nodeSizes
  cases hkind : item.type.kind with
  | string =>
      simp only [hkind] at h
      exact literalSizes_fits h
  | array =>
      simp only [hkind] at h
      simp only [hchildren h.1 false nofun]
      exact arraySizes_fits h.2
  | object =>
      simp only [hkind] at h
      exact objectSizes_fits (fun hnames => hchildren h.1 true fun _ => hnames) h.2
  | _ => rfl

theorem chainSizes_fits (fmt : Bool) (item : Item) :
    ∀ depth, ChainSizesFit fmt depth item → ∀ object,
      (object = true → ∀ entry ∈ chainEntries fmt depth item, LiteralSizeFits entry.1) →
        chainSizes fmt depth item object = .fits := by
  induction item with
  | null =>
      intro depth _ object _
      rfl
  | node data child next ihchild ihnext =>
      intro depth h object hnames
      obtain ⟨hnode, hnext⟩ := h
      have hnode := nodeSizes_fits (ihchild (depth + 1)) hnode
      have hnext := ihnext depth hnext object fun hobject entry hentry =>
        hnames hobject entry (List.mem_cons_of_mem _ hentry)
      rw [chainSizes, hnode]
      cases object with
      | true =>
          rw [literalSizes_fits (hnames rfl _ List.mem_cons_self), hnext]
          rfl
      | false => exact hnext

/-- The printer on blocks returns the text of the printer that has none. -/
theorem writeValue_of_sizesFit {fmt : Bool} {depth : Nat} {item : Item}
    (h : SizesFit fmt depth item) : writeValue fmt depth item = some (printValue fmt depth item) := by
  rw [writeValue_eq, printValue_eq h]
  cases item with
  | null => exact h.elim
  | node data child next =>
      rw [valueSizes, nodeSizes_fits (chainSizes_fits fmt child (depth + 1)) h]
      rfl

/-- Every store is inside its block exactly where no size is smaller as an `int`. -/
theorem writeValue_inside_iff (fmt : Bool) (depth : Nat) (item : Item) :
    (∃ out, writeValue fmt depth item = some out) ↔ valueSizes fmt depth item ≠ .overruns := by
  rw [writeValue_eq]
  cases valueSizes fmt depth item with
  | fits => simp [SizeCheck.result]
  | refused => simp [SizeCheck.result]
  | overruns => simp [SizeCheck.result]

theorem literalSizes_replicate {n : Nat} (hbig : intMax < n) (hwrap : n % 2 ^ 32 = 0) :
    literalSizes (some (List.replicate n 97)) = .overruns := by
  have hcstr : cstr (List.replicate n 97) = List.replicate n 97 := by
    simp [cstr]
  have hplain : ¬(List.replicate n (97 : UInt8)).any needsEscape = true := by
    have hletter : needsEscape 97 = false := by decide
    simp [hletter]
  have hsize : ¬(literal (List.replicate n 97)).length + 1 ≤ intMax := by
    rw [literal_replicate]
    simp only [List.length_cons, List.length_append, List.length_replicate]
    omega
  rw [literalSizes, if_neg hsize, hcstr, if_neg hplain, List.length_replicate, hwrap,
    if_neg (by decide)]

/-- 2 ^ 32 letters are copied to a block of 3 bytes. -/
theorem writeValue_outside :
    writeValue false 0 (.node ⟨⟨.string, false, false⟩, some (List.replicate (2 ^ 32) 97), 0,
      Binary64.ofInt 0, none⟩ .null .null) = none := by
  rw [writeValue_eq]
  have hsizes := literalSizes_replicate (n := 2 ^ 32) (by norm_num) (by norm_num)
  rw [valueSizes, nodeSizes, hsizes]
  rfl

end RebuildTheWheel.CJson
