import Mathlib.Algebra.Group.Nat.Defs
import Mathlib.Algebra.Group.Int.Defs
import Mathlib.Data.List.TakeWhile
import Mathlib.Data.Nat.Basic
import Mathlib.Order.Basic
import RebuildTheWheel.Data.Ascii

namespace RebuildTheWheel.Httpd

open Data Data.Ascii

/-! What the rebuilt tinyhttpd reads from its clients. -/

/-- What the calls of `recv` for one byte return: the byte, or nothing on an error. At the end of
the list the client has closed the connection. -/
abbrev Incoming := List (Option UInt8)

/-- After a carriage return, the byte that `MSG_PEEK` shows is only read if it is the newline. -/
def afterReturn : Incoming → Incoming
  | some c :: incoming => if c = newline then incoming else some c :: incoming
  | none :: incoming => incoming
  | [] => []

/-- `get_line` for `room` characters besides the NUL, with the characters that it stores. -/
def getLine : Nat → Incoming → Bytes × Incoming
  | 0, incoming => ([], incoming)
  | _ + 1, [] => ([], [])
  | _ + 1, none :: incoming => ([], incoming)
  | room + 1, some c :: incoming =>
      if c = carriageReturn then ([newline], afterReturn incoming)
      else if c = newline then ([newline], incoming)
      else
        let (line, incoming) := getLine room incoming
        (c :: line, incoming)

/-- A buffer after `get_line` has stored a line in it. -/
def fillBuf (buf : Bytes) (line : Bytes) : Bytes := line ++ 0 :: buf.drop (line.length + 1)

/-- The string that a buffer holds. -/
def cString (buf : Bytes) : Bytes := buf.takeWhile (· ≠ 0)

/-- The size of the buffers for lines. -/
def bufSize : Nat := 1024

/-- `isspace`, which no byte above 127 satisfies. -/
def isspace (c : UInt8) : Bool := c = space || (9 ≤ c && c ≤ 13)

def tolower (c : UInt8) : UInt8 := if 65 ≤ c && c ≤ 90 then c + 32 else c

/-- `strcasecmp` returns 0. -/
def sameCase (s t : Bytes) : Bool := s.map tolower = t.map tolower

/-- The digits at the front of a string, as a number. -/
def digitsValue (s : Bytes) : Nat :=
  (s.takeWhile isDigit).foldl (fun n d => 10 * n + (d.toNat - 48)) 0

/-- `atoi`, which is `strtol` cut to an `int`. -/
def atoi (s : Bytes) : Int32 :=
  let s := s.dropWhile isspace
  let long := match s with
    | c :: rest =>
        if c = minus then max (-(digitsValue rest : Int)) (-2 ^ 63)
        else if c = plus then min (digitsValue rest : Int) (2 ^ 63 - 1)
        else min (digitsValue s : Int) (2 ^ 63 - 1)
    | [] => 0
  Int32.ofInt long

/-- The loops `while ((numchars > 0) && strcmp("\\n", buf))` that read and discard headers, from
the last line read. `fuel` bounds their turns. -/
def discardHeadersIn : Nat → Bytes → Incoming → Incoming
  | 0, _, incoming => incoming
  | fuel + 1, line, incoming =>
      if line.length > 0 ∧ cString line ≠ [newline] then
        let (line, incoming) := getLine (bufSize - 1) incoming
        discardHeadersIn fuel line incoming
      else incoming

def discardHeaders (line : Bytes) (incoming : Incoming) : Incoming :=
  discardHeadersIn (incoming.length + 2) line incoming

/-- `"Content-Length:"` -/
def contentLengthName : Bytes := [67, 111, 110, 116, 101, 110, 116, 45, 76, 101, 110, 103, 116, 104, 58]

/-- The loop of `execute_cgi` over the headers of a `POST`, with the buffer, the last line stored
in it and the content length so far. -/
def readHeadersIn : Nat → Bytes → Bytes → Int32 → Incoming → Int32 × Incoming
  | 0, _, _, contentLength, incoming => (contentLength, incoming)
  | fuel + 1, buf, line, contentLength, incoming =>
      if line.length > 0 ∧ cString buf ≠ [newline] then
        let buf := buf.set 15 0
        let contentLength :=
          if sameCase (cString buf) contentLengthName then atoi (cString (buf.drop 16))
          else contentLength
        let (line, incoming) := getLine (bufSize - 1) incoming
        readHeadersIn fuel (fillBuf buf line) line contentLength incoming
      else (contentLength, incoming)

def readHeaders (buf : Bytes) (incoming : Incoming) : Int32 × Incoming :=
  let (line, incoming) := getLine (bufSize - 1) incoming
  readHeadersIn (incoming.length + 2) (fillBuf buf line) line (-1) incoming

/-! The fuel is enough: each turn reads something, or is the last one. -/

theorem afterReturn_length (incoming : Incoming) :
    (afterReturn incoming).length ≤ incoming.length := by
  unfold afterReturn
  split
  · split_ifs
    · exact Nat.le_succ _
    · exact le_rfl
  · exact Nat.le_succ _
  · exact le_rfl

theorem getLine_length (room : Nat) (incoming : Incoming) :
    (getLine room incoming).1.length + (getLine room incoming).2.length ≤ incoming.length := by
  induction room generalizing incoming with
  | zero => exact (Nat.zero_add _).le
  | succ room ih =>
      match incoming with
      | [] => exact le_rfl
      | none :: incoming => exact (Nat.zero_add _).le.trans (Nat.le_succ _)
      | some c :: incoming =>
          have hreturn := afterReturn_length incoming
          have hrest := ih incoming
          rw [getLine]
          split_ifs <;> simp only [List.length_cons, List.length_nil] <;> omega

variable {fuel fuel' : Nat} {line buf : Bytes} {incoming : Incoming} {contentLength : Int32}

theorem discardHeadersIn_fuel (hfuel : incoming.length + min line.length 1 < fuel)
    (hle : fuel ≤ fuel') :
    discardHeadersIn fuel' line incoming = discardHeadersIn fuel line incoming := by
  induction fuel generalizing fuel' line incoming with
  | zero => cases hfuel
  | succ fuel ih =>
      obtain ⟨fuel', rfl⟩ := Nat.exists_eq_add_of_lt (Nat.lt_of_lt_of_le fuel.succ_pos hle)
      rw [Nat.zero_add] at hle ⊢
      rw [discardHeadersIn, discardHeadersIn]
      split_ifs with hmore
      · have hlength := getLine_length (bufSize - 1) incoming
        exact ih (by omega) (by omega)
      · rfl

theorem readHeadersIn_fuel (hfuel : incoming.length + min line.length 1 < fuel)
    (hle : fuel ≤ fuel') :
    readHeadersIn fuel' buf line contentLength incoming =
      readHeadersIn fuel buf line contentLength incoming := by
  induction fuel generalizing fuel' buf line contentLength incoming with
  | zero => cases hfuel
  | succ fuel ih =>
      obtain ⟨fuel', rfl⟩ := Nat.exists_eq_add_of_lt (Nat.lt_of_lt_of_le fuel.succ_pos hle)
      rw [Nat.zero_add] at hle ⊢
      rw [readHeadersIn, readHeadersIn]
      split_ifs with hmore
      · have hlength := getLine_length (bufSize - 1) incoming
        exact ih (by omega) (by omega)
      · rfl

/-! The number that `atoi` reads. -/

theorem digit_not_space (c : UInt8) : isDigit c = true →
    isspace c = false ∧ c ≠ minus ∧ c ≠ plus ∧ c ≠ 0 := by
  revert c
  apply forall_byte
  decide

theorem digitsValue_append {digits rest : Bytes} (hdigits : ∀ c ∈ digits, isDigit c = true)
    (hrest : ∀ c ∈ rest, isDigit c = false) : digitsValue (digits ++ rest) = digitsValue digits := by
  have hnone : rest.takeWhile isDigit = [] := by
    cases rest with
    | nil => rfl
    | cons c rest =>
        exact List.takeWhile_cons_of_neg (Bool.eq_false_iff.mp (hrest c List.mem_cons_self))
  rw [digitsValue, digitsValue, List.takeWhile_append_of_pos hdigits, hnone, List.append_nil,
    List.takeWhile_eq_self_iff.mpr hdigits]

theorem foldl_digits_lt {digits : Bytes} (hdigits : ∀ c ∈ digits, isDigit c = true) (n : Nat) :
    digits.foldl (fun n d => 10 * n + (d.toNat - 48)) n < (n + 1) * 10 ^ digits.length := by
  induction digits generalizing n with
  | nil => simp
  | cons d digits ih =>
      have hd : d.toNat - 48 < 10 := by
        have hdigit := hdigits d List.mem_cons_self
        simp only [isDigit, Bool.and_eq_true, decide_eq_true_eq, UInt8.le_iff_toNat_le] at hdigit
        change 48 ≤ d.toNat ∧ d.toNat ≤ 57 at hdigit
        omega
      rw [List.foldl_cons, List.length_cons, Nat.pow_succ]
      refine (ih (fun c hc => hdigits c (List.mem_cons_of_mem d hc)) _).trans_le ?_
      rw [Nat.mul_comm (10 ^ digits.length), ← Nat.mul_assoc]
      exact Nat.mul_le_mul_right _ (by omega)

theorem digitsValue_lt {digits : Bytes} (hdigits : ∀ c ∈ digits, isDigit c = true) :
    digitsValue digits < 10 ^ digits.length := by
  have hall : digits.takeWhile isDigit = digits := List.takeWhile_eq_self_iff.mpr hdigits
  have hlt := foldl_digits_lt hdigits 0
  rw [digitsValue, hall]
  rwa [Nat.zero_add, Nat.one_mul] at hlt

theorem atoi_blanks {blanks digits rest : Bytes} (hblanks : ∀ c ∈ blanks, isspace c = true)
    (hne : digits ≠ []) (hdigits : ∀ c ∈ digits, isDigit c = true)
    (hrest : ∀ c ∈ rest, isDigit c = false) (hvalue : digitsValue digits < 2 ^ 31) :
    (atoi (blanks ++ (digits ++ rest))).toInt = digitsValue digits := by
  have hnumber := digitsValue_append hdigits hrest
  obtain ⟨d, digits, rfl⟩ := List.exists_cons_of_ne_nil hne
  obtain ⟨hspace, hminus, hplus, -⟩ := digit_not_space d (hdigits d List.mem_cons_self)
  rw [atoi, List.dropWhile_append_of_pos hblanks, List.cons_append,
    List.dropWhile_cons_of_neg (Bool.eq_false_iff.mp hspace)]
  simp only [if_neg hminus, if_neg hplus]
  rw [← List.cons_append, hnumber, Int32.toInt_ofInt_of_le (by omega) (by omega)]
  omega

end RebuildTheWheel.Httpd

namespace RebuildTheWheel.Httpd

open Data Data.Ascii

/-! The lines that `get_line` makes of a stream. -/

/-- Calls of `get_line` until one returns 0, each for the whole of its buffer, and the buffers
after them. -/
def getLines : Nat → (Nat → Bytes) → Incoming → Option (List Bytes)
  | 0, _, _ => none
  | fuel + 1, bufs, incoming =>
      let (line, incoming) := getLine ((bufs 0).length - 1) incoming
      let buf := fillBuf (bufs 0) line
      if line.length = 0 then some [buf]
      else (getLines fuel (fun i => bufs (i + 1)) incoming).map (buf :: ·)

/-- A newline takes the place of a carriage return and of the newline that may follow it. -/
def newlines : Bytes → Bytes
  | [] => []
  | [c] => [if c = carriageReturn then newline else c]
  | c :: d :: stream =>
      if c = carriageReturn then
        if d = newline then newline :: newlines stream else newline :: newlines (d :: stream)
      else c :: newlines (d :: stream)

/-- What a call of `get_line` does to its buffer: it stores a line and a NUL inside it. -/
structure Stored (before buf : Bytes) : Prop where
  fits : (cString buf).length + 1 ≤ before.length
  rest : buf = fillBuf before (cString buf)
  newline : newline ∉ (cString buf).dropLast

/-- A line and the rest of the stream. -/
structure Takes (room : Nat) (stream line rest : Bytes) : Prop where
  newlines : newlines stream = line ++ newlines rest
  fits : line.length ≤ room
  newline : newline ∉ line.dropLast
  suffix : rest <:+ stream
  length : line.length + rest.length ≤ stream.length
  mem : ∀ c ∈ line, c ∈ stream ∨ c = Ascii.newline

variable {room fuel : Nat} {stream line rest buf : Bytes} {c : UInt8}

theorem newlines_cons (hc : c ≠ carriageReturn) (stream : Bytes) :
    newlines (c :: stream) = c :: newlines stream := by
  cases stream with
  | nil => exact congrArg (· :: []) (if_neg hc)
  | cons d stream => rw [newlines, if_neg hc]

/-- What is left behind a carriage return. -/
theorem afterReturn_stream (stream : Bytes) :
    ∃ rest, afterReturn (stream.map some) = rest.map some ∧
      Takes 1 (carriageReturn :: stream) [newline] rest := by
  have hmem : ∀ c ∈ [newline], c ∈ carriageReturn :: stream ∨ c = newline :=
    fun c hc => .inr (List.mem_singleton.mp hc)
  cases stream with
  | nil =>
      exact ⟨[], rfl, rfl, Nat.le_refl 1, List.not_mem_nil, List.nil_suffix, Nat.le_refl 1, hmem⟩
  | cons d stream =>
      by_cases hd : d = newline
      · refine ⟨stream, if_pos hd, ?_, Nat.le_refl 1, List.not_mem_nil,
          (List.suffix_cons d stream).trans (List.suffix_cons _ _), ?_, hmem⟩
        · rw [newlines, if_pos rfl, if_pos hd]
          rfl
        · simp only [List.length_cons, List.length_nil]
          omega
      · refine ⟨d :: stream, if_neg hd, ?_, Nat.le_refl 1, List.not_mem_nil,
          List.suffix_cons _ _, ?_, hmem⟩
        · rw [newlines, if_pos rfl, if_neg hd]
          rfl
        · simp only [List.length_cons, List.length_nil]
          omega

theorem getLine_stream (room : Nat) (stream : Bytes) :
    ∃ line rest, getLine room (stream.map some) = (line, rest.map some) ∧
      Takes room stream line rest ∧ (0 < room → stream ≠ [] → line ≠ []) := by
  induction room generalizing stream with
  | zero =>
      exact ⟨[], stream, rfl, ⟨rfl, Nat.le_refl 0, List.not_mem_nil, List.suffix_rfl,
        (Nat.zero_add _).le, fun _ hd => absurd hd List.not_mem_nil⟩, fun h => absurd h (Nat.lt_irrefl 0)⟩
  | succ room ih =>
      cases stream with
      | nil =>
          exact ⟨[], [], rfl, ⟨rfl, Nat.zero_le _, List.not_mem_nil, List.suffix_rfl,
            Nat.le_refl 0, fun _ hd => absurd hd List.not_mem_nil⟩, fun _ h => absurd rfl h⟩
      | cons c stream =>
          rw [List.map_cons, getLine]
          by_cases hreturn : c = carriageReturn
          · subst hreturn
            obtain ⟨rest, hrest, htakes⟩ := afterReturn_stream stream
            rw [if_pos rfl, hrest]
            exact ⟨[newline], rest, rfl, { htakes with fits := Nat.succ_pos room },
              fun _ _ => List.cons_ne_nil _ _⟩
          · rw [if_neg hreturn]
            by_cases hnewline : c = newline
            · rw [if_pos hnewline]
              refine ⟨[newline], stream, rfl, ⟨?_, Nat.succ_pos room, List.not_mem_nil,
                List.suffix_cons _ _, (Nat.add_comm _ _).le, fun d hd =>
                  .inr (List.mem_singleton.mp hd)⟩, fun _ _ => List.cons_ne_nil _ _⟩
              rw [newlines_cons hreturn, hnewline]
              rfl
            · rw [if_neg hnewline]
              obtain ⟨line, rest, hline, htakes, -⟩ := ih stream
              rw [hline]
              refine ⟨c :: line, rest, rfl, ⟨?_, Nat.succ_le_succ htakes.fits, ?_,
                htakes.suffix.trans (List.suffix_cons c stream), ?_, ?_⟩, fun _ _ => List.cons_ne_nil _ _⟩
              · rw [newlines_cons hreturn, htakes.newlines]
                rfl
              · cases line with
                | nil => exact List.not_mem_nil
                | cons d line =>
                    rw [List.dropLast_cons_cons]
                    exact List.not_mem_cons_of_ne_of_not_mem (Ne.symm hnewline) htakes.newline
              · have hlength := htakes.length
                simp only [List.length_cons]
                omega
              · intro d hd
                rcases List.mem_cons.mp hd with rfl | hd
                · exact .inl List.mem_cons_self
                · exact (htakes.mem d hd).imp_left (List.mem_cons_of_mem c)

theorem cString_fillBuf (h : 0 ∉ line) (buf : Bytes) : cString (fillBuf buf line) = line := by
  have hall : ∀ c ∈ line, decide (c ≠ 0) = true := fun c hc =>
    decide_eq_true fun heq => h (heq ▸ hc)
  rw [cString, fillBuf, List.takeWhile_append_of_pos hall, List.takeWhile_cons_of_neg (by decide),
    List.append_nil]

theorem Takes.stored (h : Takes room stream line rest) (hnul : 0 ∉ stream)
    (hroom : room < buf.length) : cString (fillBuf buf line) = line ∧ Stored buf (fillBuf buf line) := by
  have hline : 0 ∉ line := fun hmem => (h.mem 0 hmem).elim hnul (by decide)
  have hstring := cString_fillBuf hline buf
  refine ⟨hstring, ?_, ?_, ?_⟩
  all_goals rw [hstring]
  · exact Nat.lt_of_le_of_lt h.fits hroom
  · exact h.newline

end RebuildTheWheel.Httpd
