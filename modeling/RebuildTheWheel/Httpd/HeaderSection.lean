import Mathlib.Data.List.Induction
import RebuildTheWheel.Httpd.Connection

namespace RebuildTheWheel.Httpd

open Data Data.Ascii

/-! The header section of a request, and the loops that read it line by line. -/

structure HeaderLine where
  text : Bytes
  -- a carriage return stands in front of the newline
  carriage : Bool
  nonempty : text ≠ []
  noReturn : carriageReturn ∉ text
  noNewline : newline ∉ text

/-- The end of a line. -/
def lineEnd (carriage : Bool) : Bytes := if carriage then [carriageReturn, newline] else [newline]

/-- Header lines and the empty line. -/
def headerSection (lines : List HeaderLine) (carriage : Bool) : Bytes :=
  lines.flatMap (fun line => line.text ++ lineEnd line.carriage) ++ lineEnd carriage

/-- The loops go on behind this line. -/
def Continues (line : Bytes) : Prop := line.length > 0 ∧ cString line ≠ [newline]

/-- The lines that a loop reads and goes on behind, and what is left behind the one that ends it. -/
inductive Discards : Incoming → List Bytes → Incoming → Prop
  | stop {incoming rest : Incoming} {line : Bytes} :
      getLine (bufSize - 1) incoming = (line, rest) → ¬Continues line → Discards incoming [] rest
  | next {incoming incoming' rest : Incoming} {line : Bytes} {lines : List Bytes} :
      getLine (bufSize - 1) incoming = (line, incoming') → Continues line →
      Discards incoming' lines rest → Discards incoming (line :: lines) rest

/-- The pieces in which `get_line` returns a line. -/
def pieces (text : Bytes) : List Bytes :=
  if text.length < bufSize - 1 then [text ++ [newline]]
  else text.take (bufSize - 1) :: pieces (text.drop (bufSize - 1))
termination_by text.length
decreasing_by
  rw [List.length_drop]
  have hpos : 0 < bufSize - 1 := by decide
  omega

variable {incoming incoming' rest : Incoming} {line buf text : Bytes} {lines read : List Bytes}
  {fuel room : Nat} {carriage : Bool}

/-! The loops do as the relation says. -/

theorem next_lt (hline : getLine (bufSize - 1) incoming = (line, incoming'))
    (hnext : Continues line) (hfuel : incoming.length < fuel + 1) : incoming'.length < fuel := by
  have hlength := getLine_length (bufSize - 1) incoming
  have hpos := hnext.1
  rw [hline] at hlength
  simp only at hlength
  omega

theorem discardHeadersIn_stop (h : ¬Continues line) :
    discardHeadersIn fuel line incoming = incoming := by
  cases fuel with
  | zero => rfl
  | succ fuel => exact if_neg h

theorem discardHeadersIn_next {line' : Bytes} (h : Continues line)
    (hline : getLine (bufSize - 1) incoming = (line', incoming')) :
    discardHeadersIn (fuel + 1) line incoming = discardHeadersIn fuel line' incoming' := by
  rw [discardHeadersIn, hline]
  exact if_pos h

theorem Discards.discardHeadersIn (h : Discards incoming lines rest) (hline : Continues line)
    (hfuel : incoming.length < fuel) : discardHeadersIn fuel line incoming = rest := by
  induction h generalizing line fuel with
  | stop hlast hstop =>
      obtain ⟨fuel, rfl⟩ := Nat.exists_eq_add_one_of_ne_zero (Nat.ne_zero_of_lt hfuel)
      rw [discardHeadersIn_next hline hlast, discardHeadersIn_stop hstop]
  | next hread hnext _ ih =>
      obtain ⟨fuel, rfl⟩ := Nat.exists_eq_add_one_of_ne_zero (Nat.ne_zero_of_lt hfuel)
      rw [discardHeadersIn_next hline hread]
      exact ih hnext (next_lt hread hnext hfuel)

theorem continues_letter : Continues [65] := ⟨Nat.one_pos, by decide⟩

theorem Discards.discardHeaders (h : Discards incoming lines rest) :
    discardHeaders [65] incoming = rest :=
  h.discardHeadersIn continues_letter (by omega)

theorem cString_append_nul (text after : Bytes) : cString (text ++ 0 :: after) = cString text := by
  rw [cString, cString, List.takeWhile_append]
  split_ifs with hall
  · rw [List.takeWhile_cons_of_neg (by decide), List.append_nil]
    exact ((List.takeWhile_prefix _).eq_of_length hall).symm
  · rfl

theorem cString_fillBuf_eq (buf line : Bytes) : cString (fillBuf buf line) = cString line :=
  cString_append_nul line _

/-- The content length that the headers give, when the last line stood in `buf`. -/
def lengthRead (buf : Bytes) (contentLength : Int32) : List Bytes → Int32
  | [] => contentLength
  | line :: lines =>
      let buf := (fillBuf buf line).set 15 0
      lengthRead buf
        (if sameCase (cString buf) contentLengthName then atoi (cString (buf.drop 16))
          else contentLength) lines

theorem readHeadersIn_stop {contentLength : Int32} (h : ¬Continues line) :
    readHeadersIn fuel (fillBuf buf line) line contentLength incoming = (contentLength, incoming) := by
  cases fuel with
  | zero => rfl
  | succ fuel =>
      rw [Continues, ← cString_fillBuf_eq buf] at h
      exact if_neg h

theorem readHeadersIn_next {line' : Bytes} {contentLength : Int32} (h : Continues line)
    (hline : getLine (bufSize - 1) incoming = (line', incoming')) :
    readHeadersIn (fuel + 1) (fillBuf buf line) line contentLength incoming =
      readHeadersIn fuel (fillBuf ((fillBuf buf line).set 15 0) line') line'
        (if sameCase (cString ((fillBuf buf line).set 15 0)) contentLengthName then
            atoi (cString (((fillBuf buf line).set 15 0).drop 16))
          else contentLength) incoming' := by
  rw [Continues, ← cString_fillBuf_eq buf] at h
  rw [readHeadersIn, hline]
  exact if_pos h

theorem Discards.readHeadersIn {contentLength : Int32} (h : Discards incoming lines rest)
    (hline : Continues line) (hfuel : incoming.length < fuel) :
    readHeadersIn fuel (fillBuf buf line) line contentLength incoming =
      (lengthRead buf contentLength (line :: lines), rest) := by
  induction h generalizing line fuel buf contentLength with
  | stop hlast hstop =>
      obtain ⟨fuel, rfl⟩ := Nat.exists_eq_add_one_of_ne_zero (Nat.ne_zero_of_lt hfuel)
      rw [readHeadersIn_next hline hlast, readHeadersIn_stop hstop]
      rfl
  | next hread hnext _ ih =>
      obtain ⟨fuel, rfl⟩ := Nat.exists_eq_add_one_of_ne_zero (Nat.ne_zero_of_lt hfuel)
      rw [readHeadersIn_next hline hread]
      exact ih hnext (next_lt hread hnext hfuel)

theorem Discards.readHeaders (h : Discards incoming lines rest) (buf : Bytes) :
    readHeaders buf incoming = (lengthRead buf (-1) lines, rest) := by
  cases h with
  | stop hlast hstop =>
      rw [Httpd.readHeaders, hlast]
      exact readHeadersIn_stop hstop
  | next hread hnext hrest =>
      rw [Httpd.readHeaders, hread]
      exact hrest.readHeadersIn hnext (by omega)

/-! The lines of a header section. -/

theorem getLine_piece {incoming : Incoming} (hreturn : carriageReturn ∉ text)
    (hnewline : newline ∉ text) (hroom : room ≤ text.length) :
    getLine room (text.map some ++ incoming) =
      (text.take room, (text.drop room).map some ++ incoming) := by
  induction room generalizing text with
  | zero => rfl
  | succ room ih =>
      cases text with
      | nil => exact absurd hroom (Nat.not_succ_le_zero room)
      | cons c text =>
          rw [List.mem_cons, not_or] at hreturn hnewline
          rw [List.map_cons, List.cons_append, getLine, if_neg (Ne.symm hreturn.1),
            if_neg (Ne.symm hnewline.1), ih hreturn.2 hnewline.2 (Nat.le_of_succ_le_succ hroom)]
          rfl

theorem getLine_lineEnd (carriage : Bool) (incoming : Incoming) :
    getLine (room + 1) ((lineEnd carriage).map some ++ incoming) = ([newline], incoming) := by
  cases carriage <;> rfl

theorem getLine_last {incoming : Incoming} (hreturn : carriageReturn ∉ text)
    (hnewline : newline ∉ text) (hroom : text.length < room) :
    getLine room (text.map some ++ ((lineEnd carriage).map some ++ incoming)) =
      (text ++ [newline], incoming) := by
  induction text generalizing room with
  | nil =>
      obtain ⟨room, rfl⟩ := Nat.exists_eq_add_one_of_ne_zero (Nat.ne_zero_of_lt hroom)
      exact getLine_lineEnd carriage incoming
  | cons c text ih =>
      obtain ⟨room, rfl⟩ := Nat.exists_eq_add_one_of_ne_zero (Nat.ne_zero_of_lt hroom)
      rw [List.mem_cons, not_or] at hreturn hnewline
      rw [List.map_cons, List.cons_append, getLine, if_neg (Ne.symm hreturn.1),
        if_neg (Ne.symm hnewline.1), ih hreturn.2 hnewline.2 (Nat.lt_of_succ_lt_succ hroom)]
      rfl

theorem continues_of_head {c : UInt8} (hc : c ≠ newline) (line : Bytes) : Continues (c :: line) := by
  refine ⟨Nat.succ_pos _, fun heq => ?_⟩
  rw [cString, List.takeWhile_cons] at heq
  split_ifs at heq
  exact hc (List.cons.inj heq).1

theorem continues_append (hnewline : newline ∉ text) (hne : text ≠ []) (line : Bytes) :
    Continues (text ++ line) := by
  obtain ⟨c, text, rfl⟩ := List.exists_cons_of_ne_nil hne
  exact continues_of_head (fun heq => hnewline (heq ▸ List.mem_cons_self)) _

theorem not_continues_newline : ¬Continues [newline] := fun h => h.2 (by decide)

theorem discards_end (carriage : Bool) (incoming : Incoming) :
    Discards ((lineEnd carriage).map some ++ incoming) [] incoming :=
  .stop (getLine_lineEnd carriage incoming) not_continues_newline

theorem clean_drop {c : UInt8} (h : c ∉ text) (n : Nat) : c ∉ text.drop n :=
  fun hmem => h (List.mem_of_mem_drop hmem)

theorem continues_piece (hnewline : newline ∉ text) (hlength : ¬text.length < bufSize - 1) :
    Continues (text.take (bufSize - 1)) := by
  have hpos : 0 < bufSize - 1 := by decide
  have hne : text.take (bufSize - 1) ≠ [] := by
    refine List.ne_nil_of_length_pos ?_
    rw [List.length_take]
    omega
  have hclean : newline ∉ text.take (bufSize - 1) := fun hmem => hnewline (List.mem_of_mem_take hmem)
  have hcontinues := continues_append hclean hne []
  rwa [List.append_nil] at hcontinues

theorem dvd_drop (hlength : ¬text.length < bufSize - 1) :
    bufSize - 1 ∣ (text.drop (bufSize - 1)).length ↔ bufSize - 1 ∣ text.length := by
  have hsum : text.length - (bufSize - 1) + (bufSize - 1) = text.length :=
    Nat.sub_add_cancel (Nat.le_of_not_lt hlength)
  rw [List.length_drop]
  constructor
  · intro hdvd
    exact hsum ▸ Nat.dvd_add hdvd (Nat.dvd_refl _)
  · intro hdvd
    exact Nat.dvd_sub hdvd (Nat.dvd_refl _)

/-- A line of another length is discarded in its pieces. -/
theorem discards_line (hreturn : carriageReturn ∉ text) (hnewline : newline ∉ text)
    (hlength : ¬bufSize - 1 ∣ text.length) (h : Discards incoming lines rest) :
    Discards (text.map some ++ ((lineEnd carriage).map some ++ incoming)) (pieces text ++ lines)
      rest := by
  induction text using pieces.induct with
  | case1 text hshort =>
      have hne : text ≠ [] := by
        rintro rfl
        exact hlength (Nat.dvd_zero _)
      rw [pieces, if_pos hshort]
      exact .next (getLine_last hreturn hnewline hshort) (continues_append hnewline hne _) h
  | case2 text hlong ih =>
      rw [pieces, if_neg hlong]
      exact .next (getLine_piece hreturn hnewline (Nat.le_of_not_lt hlong))
        (continues_piece hnewline hlong) (ih (clean_drop hreturn _) (clean_drop hnewline _)
          (mt (dvd_drop hlong).mp hlength))

/-- A line whose last piece is its newline ends the loop. -/
theorem discards_cut (hne : text ≠ []) (hreturn : carriageReturn ∉ text) (hnewline : newline ∉ text)
    (hlength : bufSize - 1 ∣ text.length) (incoming : Incoming) :
    ∃ read, Discards (text.map some ++ ((lineEnd carriage).map some ++ incoming)) read incoming := by
  induction text using pieces.induct with
  | case1 text hshort =>
      exact absurd (Nat.eq_zero_of_dvd_of_lt hlength hshort) (mt List.length_eq_zero_iff.mp hne)
  | case2 text hlong ih =>
      have hpiece (incoming : Incoming) : getLine (bufSize - 1) (text.map some ++ incoming) =
          (text.take (bufSize - 1), (text.drop (bufSize - 1)).map some ++ incoming) :=
        getLine_piece hreturn hnewline (Nat.le_of_not_lt hlong)
      by_cases hend : text.drop (bufSize - 1) = []
      · refine ⟨[text.take (bufSize - 1)], .next (hpiece _) (continues_piece hnewline hlong) ?_⟩
        rw [hend]
        exact discards_end carriage incoming
      · obtain ⟨read, hread⟩ := ih hend (clean_drop hreturn _) (clean_drop hnewline _)
          ((dvd_drop hlong).mpr hlength)
        exact ⟨_, .next (hpiece _) (continues_piece hnewline hlong) hread⟩

theorem headerSection_cons (line : HeaderLine) (lines : List HeaderLine) (carriage : Bool)
    (body : Incoming) :
    (headerSection (line :: lines) carriage).map some ++ body =
      line.text.map some ++ ((lineEnd line.carriage).map some ++
        ((headerSection lines carriage).map some ++ body)) := by
  simp only [headerSection, List.flatMap_cons, List.map_append, List.append_assoc]

theorem discards_section {lines : List HeaderLine}
    (hlengths : ∀ line ∈ lines, ¬bufSize - 1 ∣ line.text.length) (carriage : Bool)
    (body : Incoming) :
    Discards ((headerSection lines carriage).map some ++ body)
      (lines.flatMap fun line => pieces line.text) body := by
  induction lines with
  | nil => exact discards_end carriage body
  | cons line lines ih =>
      rw [headerSection_cons, List.flatMap_cons]
      exact discards_line line.noReturn line.noNewline (hlengths line List.mem_cons_self)
        (ih fun line' hline' => hlengths line' (List.mem_cons_of_mem line hline'))

theorem discards_section_cut {lines : List HeaderLine}
    (hcut : ¬∀ line ∈ lines, ¬bufSize - 1 ∣ line.text.length) (carriage : Bool) (body : Incoming) :
    ∃ read rest, Discards ((headerSection lines carriage).map some ++ body) read rest ∧
      rest ≠ body := by
  induction lines with
  | nil => exact absurd nofun hcut
  | cons line lines ih =>
      rw [headerSection_cons]
      by_cases hline : bufSize - 1 ∣ line.text.length
      · obtain ⟨read, hread⟩ := discards_cut line.nonempty line.noReturn line.noNewline hline
          ((headerSection lines carriage).map some ++ body)
        refine ⟨read, _, hread, fun heq => ?_⟩
        have hlength := congrArg List.length heq
        have hend : 0 < (lineEnd carriage).length := by cases carriage <;> decide
        simp only [headerSection, List.length_append, List.length_map] at hlength
        omega
      · obtain ⟨read, rest, hread, hne⟩ := ih fun hall =>
          hcut (List.forall_mem_cons.mpr ⟨hline, hall⟩)
        exact ⟨_, rest, discards_line line.noReturn line.noNewline hline hread, hne⟩

/-- What the loops of `serve_file` and `execute_cgi` leave. -/
theorem discards_exactly_iff (lines : List HeaderLine) (carriage : Bool) (body : Incoming)
    (buf : Bytes) :
    (discardHeaders [65] ((headerSection lines carriage).map some ++ body) = body ↔
        ∀ line ∈ lines, ¬bufSize - 1 ∣ line.text.length) ∧
      ((readHeaders buf ((headerSection lines carriage).map some ++ body)).2 = body ↔
        ∀ line ∈ lines, ¬bufSize - 1 ∣ line.text.length) := by
  by_cases hlengths : ∀ line ∈ lines, ¬bufSize - 1 ∣ line.text.length
  · have hread := discards_section hlengths carriage body
    exact ⟨iff_of_true hread.discardHeaders hlengths,
      iff_of_true (congrArg Prod.snd (hread.readHeaders buf)) hlengths⟩
  · obtain ⟨read, rest, hread, hne⟩ := discards_section_cut hlengths carriage body
    refine ⟨iff_of_false (fun heq => hne ?_) hlengths, iff_of_false (fun heq => hne ?_) hlengths⟩
    · rw [← hread.discardHeaders, heq]
    · rw [← heq, hread.readHeaders buf]

/-- A line of 1023 characters. -/
def longLine : HeaderLine where
  text := List.replicate (bufSize - 1) 97
  carriage := true
  nonempty := fun heq => absurd (congrArg List.length heq) (by rw [List.length_replicate]; decide)
  noReturn := fun hmem => absurd (List.eq_of_mem_replicate hmem) (by decide)
  noNewline := fun hmem => absurd (List.eq_of_mem_replicate hmem) (by decide)

/-- The empty line is left to be read as the body. -/
theorem discardHeaders_longLine :
    ¬discardHeaders [65] ((headerSection [longLine] true).map some ++ []) = [] := by
  intro heq
  have hlength : bufSize - 1 ∣ longLine.text.length :=
    ⟨1, List.length_replicate.trans (Nat.mul_one _).symm⟩
  have hcut (incoming : Incoming) : ∃ read, Discards (longLine.text.map some ++
      ((lineEnd longLine.carriage).map some ++ incoming)) read incoming :=
    discards_cut longLine.nonempty longLine.noReturn longLine.noNewline hlength incoming
  obtain ⟨read, hread⟩ := hcut ((headerSection [] true).map some ++ [])
  rw [headerSection_cons] at heq
  exact absurd (hread.discardHeaders.symm.trans heq) (by decide)

end RebuildTheWheel.Httpd
