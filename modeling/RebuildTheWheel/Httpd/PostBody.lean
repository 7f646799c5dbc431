import Mathlib.Data.List.TakeWhile
import RebuildTheWheel.Httpd.Descriptors
import RebuildTheWheel.Httpd.HeaderSection
import RebuildTheWheel.Httpd.Request

namespace RebuildTheWheel.Httpd

open Data Data.Ascii

/-! What `execute_cgi` writes to the script for a `POST`. -/

/-- The bytes that the client sends before it closes the connection. -/
def received (body : Incoming) : Bytes := body.filterMap id

def Event.handedByte : Event → List UInt8
  | .toCgi c => [c]
  | _ => []

/-- What `recv` leaves in `c`. -/
def latest (c : UInt8) (body : Incoming) : UInt8 :=
  match body with
  | some d :: _ => d
  | _ => c

/-- The bytes that the loop over the body writes. -/
def copied : Nat → UInt8 → Incoming → Bytes
  | 0, _, _ => []
  | n + 1, c, body => latest c body :: copied n (latest c body) body.tail

/-- Where one of the first `n` calls of `recv` gives no byte, all the bytes still to come up to
the `n`th are the one before, which for the first call is `c`. -/
def Survives (n : Nat) (c : UInt8) (body : Incoming) : Prop :=
  ∀ (front : Bytes) (rest : Incoming), body = front.map some ++ rest → front.length < n →
    rest.head?.join = none →
    (received rest).take (n - front.length) =
      List.replicate (n - front.length) (front.getLast?.getD c)

variable {n i : Nat} {c d x : UInt8} {body rest : Incoming} {front : Bytes}

theorem length_copied (n : Nat) (c : UInt8) (body : Incoming) : (copied n c body).length = n := by
  induction n generalizing c body with
  | zero => rfl
  | succ n ih => rw [copied, List.length_cons, ih]

theorem latest_of_fails (h : body.head?.join = none) : latest c body = c := by
  match body with
  | [] => rfl
  | none :: body => rfl
  | some d :: body => cases h

theorem received_of_fails (h : body.head?.join = none) : received body.tail = received body := by
  match body with
  | [] => rfl
  | none :: body => rfl
  | some d :: body => cases h

theorem exists_tail (h : body.head?.join = some d) : ∃ tail, body = some d :: tail := by
  match body with
  | [] => cases h
  | none :: body => cases h
  | some d :: body =>
      obtain rfl := Option.some.inj h
      exact ⟨body, rfl⟩

/-- A byte written at `i` is `c`, or one that has come by then. -/
theorem copied_of (h : (copied n c body)[i]? = some x) :
    x = c ∨ ∃ j, j ≤ i ∧ (received body)[j]? = some x := by
  induction n generalizing i c body with
  | zero => cases h
  | succ n ih =>
      cases hhead : body.head?.join with
      | none =>
          rw [copied, latest_of_fails hhead] at h
          cases i with
          | zero => exact .inl (Option.some.inj h).symm
          | succ i =>
              rw [← received_of_fails hhead]
              exact (ih h).imp_right fun ⟨j, hj, hx⟩ => ⟨j, Nat.le_succ_of_le hj, hx⟩
      | some d =>
          obtain ⟨body, rfl⟩ := exists_tail hhead
          cases i with
          | zero => exact .inr ⟨0, Nat.le_refl 0, h⟩
          | succ i =>
              obtain rfl | ⟨j, hj, hx⟩ := ih h
              · exact .inr ⟨0, Nat.zero_le _, rfl⟩
              · exact .inr ⟨j + 1, Nat.succ_le_succ hj, hx⟩

/-- After a call that gives no byte. -/
theorem copied_iff_of_fails (hfails : body.head?.join = none) :
    copied (n + 1) c body = (received body).take (n + 1) ↔
      (received body).take (n + 1) = List.replicate (n + 1) c := by
  constructor
  · intro heq
    have hlength := congrArg List.length heq
    rw [length_copied] at hlength
    -- the bytes up to `i` are all `c`, by induction
    have hall : ∀ (i : Nat) x, (copied (n + 1) c body)[i]? = some x → x = c := by
      intro i
      induction i using Nat.strong_induction_on with
      | _ i ih =>
          intro x hx
          have hbound := List.getElem?_eq_some_iff.mp hx |>.1
          rw [length_copied] at hbound
          rw [copied, latest_of_fails hfails] at hx
          cases i with
          | zero => exact (Option.some.inj hx).symm
          | succ i =>
              obtain rfl | ⟨j, hj, hreceived⟩ := copied_of hx
              · rfl
              · refine ih j (Nat.lt_succ_of_le hj) x ?_
                rw [received_of_fails hfails] at hreceived
                rw [heq, List.getElem?_take_of_lt (by omega)]
                exact hreceived
    refine List.eq_replicate_iff.mpr ⟨hlength.symm, fun x hx => ?_⟩
    rw [← heq] at hx
    obtain ⟨i, hi⟩ := List.mem_iff_getElem?.mp hx
    exact hall i x hi
  · intro heq
    rw [heq]
    refine List.eq_replicate_iff.mpr ⟨length_copied _ _ _, fun x hx => ?_⟩
    obtain ⟨i, hi⟩ := List.mem_iff_getElem?.mp hx
    obtain rfl | ⟨j, hj, hreceived⟩ := copied_of hi
    · rfl
    · have hbound := (List.getElem?_eq_some_iff.mp hi).1
      rw [length_copied] at hbound
      have hmem : x ∈ (received body).take (n + 1) := by
        refine List.mem_iff_getElem?.mpr ⟨j, ?_⟩
        rw [List.getElem?_take_of_lt (by omega)]
        exact hreceived
      rw [heq] at hmem
      exact List.eq_of_mem_replicate hmem

theorem survives_succ : Survives (n + 1) c (some d :: body) ↔ Survives n d body := by
  constructor
  · intro h front rest heq hlt hfails
    have hmore := h (d :: front) rest (by rw [heq]; rfl) (Nat.succ_lt_succ hlt) hfails
    rw [List.length_cons, Nat.add_sub_add_right] at hmore
    rw [hmore]
    cases front with
    | nil => rfl
    | cons e front => rfl
  · intro h front rest heq hlt hfails
    cases front with
    | nil =>
        obtain rfl : rest = some d :: body := heq.symm
        cases hfails
    | cons e front =>
        obtain ⟨hhead, htail⟩ := List.cons.inj heq
        obtain rfl := Option.some.inj hhead
        have hless := h front rest htail (Nat.lt_of_succ_lt_succ hlt) hfails
        rw [List.length_cons, Nat.add_sub_add_right, hless]
        cases front with
        | nil => rfl
        | cons e front => rfl

theorem survives_of_fails (hfails : body.head?.join = none) :
    Survives (n + 1) c body ↔ (received body).take (n + 1) = List.replicate (n + 1) c := by
  constructor
  · intro h
    exact h [] body rfl (Nat.succ_pos n) hfails
  · intro h front rest heq hlt hrest
    cases front with
    | nil =>
        obtain rfl : rest = body := heq.symm
        exact h
    | cons d front =>
        rw [heq] at hfails
        cases hfails

theorem copied_iff : copied n c body = (received body).take n ↔ Survives n c body := by
  induction n generalizing c body with
  | zero => exact iff_of_true rfl fun _ _ _ hlt => absurd hlt (Nat.not_lt_zero _)
  | succ n ih =>
      cases hhead : body.head?.join with
      | none => rw [copied_iff_of_fails hhead, survives_of_fails hhead]
      | some d =>
          obtain ⟨body, rfl⟩ := exists_tail hhead
          rw [survives_succ, ← ih]
          exact List.cons_inj_right d

/-! The parent's side of `execute_cgi`. -/

theorem World.incoming_log (event : Event) (w : World) : (w.log event).incoming = w.incoming := rfl

theorem handed_copyBody (n : Nat) (c : UInt8) (w : World) :
    (copyBody n c w).shown Event.handedByte = w.shown Event.handedByte ++ copied n c w.incoming := by
  induction n generalizing c w with
  | zero => exact (List.append_nil _).symm
  | succ n ih =>
      have hlog : (({ w with incoming := w.incoming.tail } : World).log
          (.toCgi (latest c w.incoming))).shown Event.handedByte =
            w.shown Event.handedByte ++ [latest c w.incoming] := by
        rw [World.shown_log, World.shown_incoming]
        rfl
      rw [copyBody, ih, copied]
      refine (congrArg (· ++ _) hlog).trans ?_
      rw [List.append_assoc]
      rfl

theorem handed_startCgi {sys : System} (hpipes : sys.cgiOutputPipe = true ∧ sys.cgiInputPipe = true)
    (hfork : sys.fork = true) {method : Bytes} (hmethod : sameCase method post = true)
    (path query : Bytes) (contentLength : Int32) (w : World) :
    (startCgi sys path method query contentLength w).shown Event.handedByte =
      w.shown Event.handedByte ++ copied contentLength.toInt.toNat sys.letter w.incoming := by
  have hclient : ∀ c, Event.handedByte (.toClient c) = [] := fun _ => rfl
  simp [startCgi, hpipes, hfork, attendCgi, hmethod, shown_sendOutput hclient, handed_copyBody,
    Event.handedByte, World.incoming_log]

theorem copied_eq_take_iff {m : Nat} : copied m c body = (received body).take n ↔
    m = min n (received body).length ∧ Survives m c body := by
  rw [← copied_iff]
  constructor
  · intro heq
    have hlength := congrArg List.length heq
    rw [length_copied, List.length_take] at hlength
    refine ⟨hlength, ?_⟩
    rw [heq, hlength, ← List.take_eq_take_min]
  · intro ⟨hlength, heq⟩
    rw [heq, hlength, ← List.take_eq_take_min]

theorem not_get_of_post {method : Bytes} (h : sameCase method post = true) :
    sameCase method get = false := by
  have hpost : method.map tolower = post.map tolower := of_decide_eq_true h
  refine decide_eq_false fun hget => ?_
  exact absurd (hget.symm.trans hpost) (by decide)

theorem handed_executeCgi {sys : System}
    (hpipes : sys.cgiOutputPipe = true ∧ sys.cgiInputPipe = true) (hfork : sys.fork = true)
    {method : Bytes} (hmethod : sameCase method post = true) (path query : Bytes) (w : World)
    {contentLength : Int32} {body : Incoming}
    (hread : readHeaders (65 :: 0 :: sys.cgiBuf.drop 2) w.incoming = (contentLength, body)) :
    (executeCgi sys path method query w).shown Event.handedByte =
      w.shown Event.handedByte ++ copied contentLength.toInt.toNat sys.letter body := by
  rw [executeCgi, if_neg (Bool.eq_false_iff.mp (not_get_of_post hmethod)), if_pos hmethod, hread]
  by_cases hnone : contentLength = -1
  · have hzero : contentLength.toInt.toNat = 0 := by
      rw [hnone]
      decide
    rw [hzero]
    simp only [if_pos hnone, World.shown_log, World.shown_incoming]
    rfl
  · simp only [if_neg hnone]
    exact handed_startCgi hpipes hfork hmethod path query contentLength _

/-! The content length. -/

theorem cString_of_clean {text : Bytes} (h : 0 ∉ text) : cString text = text :=
  List.takeWhile_eq_self_iff.mpr fun _ hc => decide_eq_true fun heq => h (heq ▸ hc)

theorem cString_set_fillBuf (buf line : Bytes) :
    cString ((fillBuf buf line).set 15 0) = cString (line.take 15) := by
  rw [fillBuf]
  by_cases hlong : 15 < line.length
  · rw [List.set_append_left _ _ hlong, List.set_eq_take_append_cons_drop, if_pos hlong,
      List.append_assoc, List.cons_append, cString_append_nul]
  · have hshort : line.length ≤ 15 := Nat.le_of_not_lt hlong
    rw [List.set_append_right _ _ hshort, List.take_of_length_le hshort]
    cases 15 - line.length with
    | zero => exact cString_append_nul line _
    | succ i => exact cString_append_nul line _

theorem lower_mem {text : Bytes} (h : sameCase text contentLengthName = true) (hc : c ∈ text) :
    tolower c ∈ contentLengthName.map tolower := by
  have hmap : text.map tolower = contentLengthName.map tolower := of_decide_eq_true h
  rw [← hmap]
  exact List.mem_map_of_mem hc

theorem length_of_sameCase {text : Bytes} (h : sameCase text contentLengthName = true) :
    text.length = 15 := by
  have hmap : text.map tolower = contentLengthName.map tolower := of_decide_eq_true h
  have hlength := congrArg List.length hmap
  rwa [List.length_map] at hlength

/-- A name is compared with the first 15 characters of a line. -/
theorem sameCase_buf (buf line : Bytes) :
    sameCase (cString ((fillBuf buf line).set 15 0)) contentLengthName =
      sameCase (line.take 15) contentLengthName := by
  rw [cString_set_fillBuf]
  by_cases hnul : 0 ∈ line.take 15
  · have hwhole : sameCase (line.take 15) contentLengthName = false := by
      refine Bool.eq_false_iff.mpr fun h => ?_
      exact absurd (lower_mem h hnul) (by decide)
    have hstring : sameCase (cString (line.take 15)) contentLengthName = false := by
      refine Bool.eq_false_iff.mpr fun h => ?_
      have hstart : cString (line.take 15) <+: line.take 15 := List.takeWhile_prefix _
      have hle : (line.take 15).length ≤ (cString (line.take 15)).length := by
        rw [length_of_sameCase h, List.length_take]
        exact Nat.min_le_left _ _
      rw [hstart.eq_of_length_le hle, hwhole] at h
      cases h
    rw [hwhole, hstring]
  · rw [cString_of_clean hnul]

/-- What a line says of the content length. -/
def lengthOf (contentLength : Int32) (line : Bytes) : Int32 :=
  if sameCase (line.take 15) contentLengthName then atoi (cString (line.drop 16)) else contentLength

theorem lengthRead_eq {lines : List Bytes} (h : ∀ line ∈ lines,
      sameCase (line.take 15) contentLengthName = true → 16 ≤ line.length)
    (buf : Bytes) (contentLength : Int32) :
    lengthRead buf contentLength lines = lines.foldl lengthOf contentLength := by
  induction lines generalizing buf contentLength with
  | nil => rfl
  | cons line lines ih =>
      have hline := h line List.mem_cons_self
      rw [lengthRead, ih fun line' hline' => h line' (List.mem_cons_of_mem line hline'),
        List.foldl_cons, sameCase_buf, lengthOf]
      split_ifs with hname
      · rw [List.drop_set_of_lt (by decide), fillBuf, List.drop_append_of_le_length (hline hname),
          cString_append_nul]
      · rfl

theorem foldl_lengthOf {lines : List Bytes} (h : ∀ line ∈ lines,
      sameCase (line.take 15) contentLengthName = false) (contentLength : Int32) :
    lines.foldl lengthOf contentLength = contentLength := by
  induction lines with
  | nil => rfl
  | cons line lines ih =>
      rw [List.foldl_cons, lengthOf, h line List.mem_cons_self]
      exact ih fun line' hline' => h line' (List.mem_cons_of_mem line hline')

/-! The pieces of a line. -/

theorem pieces_cons (text : Bytes) :
    pieces text = (text ++ [newline]).take (bufSize - 1) :: (pieces text).tail := by
  rw [pieces]
  split_ifs with hshort
  · rw [List.take_of_length_le (by rw [List.length_append]; exact hshort)]
    rfl
  · rw [List.take_append_of_le_length (Nat.le_of_not_lt hshort)]
    rfl

theorem mem_of_pieces {text piece : Bytes} (hpiece : piece ∈ pieces text) (hc : c ∈ piece) :
    c ∈ text ∨ c = newline := by
  induction text using pieces.induct with
  | case1 text hshort =>
      rw [pieces, if_pos hshort, List.mem_singleton] at hpiece
      rw [hpiece] at hc
      exact (List.mem_append.mp hc).imp_right List.mem_singleton.mp
  | case2 text hlong ih =>
      rw [pieces, if_neg hlong] at hpiece
      rcases List.mem_cons.mp hpiece with rfl | hpiece
      · exact .inl (List.mem_of_mem_take hc)
      · exact (ih hpiece).imp_left List.mem_of_mem_drop

theorem mem_of_later {text piece : Bytes} (hpiece : piece ∈ (pieces text).tail) (hc : c ∈ piece) :
    c ∈ text.drop (bufSize - 1) ∨ c = newline := by
  rw [pieces] at hpiece
  split_ifs at hpiece
  · cases hpiece
  · exact mem_of_pieces hpiece hc

theorem piece_complete {text piece : Bytes} (hpiece : piece ∈ pieces text) :
    piece.length = bufSize - 1 ∨ newline ∈ piece := by
  induction text using pieces.induct with
  | case1 text hshort =>
      rw [pieces, if_pos hshort, List.mem_singleton] at hpiece
      rw [hpiece]
      exact .inr (List.mem_append_right text List.mem_cons_self)
  | case2 text hlong ih =>
      rw [pieces, if_neg hlong] at hpiece
      rcases List.mem_cons.mp hpiece with rfl | hpiece
      · exact .inl (by rw [List.length_take]; omega)
      · exact ih hpiece

theorem sixteen_le {text piece : Bytes} (hpiece : piece ∈ pieces text)
    (hname : sameCase (piece.take 15) contentLengthName = true) : 16 ≤ piece.length := by
  rcases piece_complete hpiece with hlength | hnewline
  · rw [hlength]
    decide
  · have htake := length_of_sameCase hname
    rw [List.length_take] at htake
    by_contra hshort
    rw [List.take_of_length_le (by omega)] at hname
    exact absurd (lower_mem hname hnewline) (by decide)

/-- A header field for the content length, with white space around the number. -/
structure LengthField where
  name : Bytes
  before : Bytes
  digits : Bytes
  after : Bytes
  isName : sameCase name contentLengthName = true
  blank : ∀ c ∈ before ++ after, c = space ∨ c = 9
  nonempty : digits ≠ []
  number : ∀ c ∈ digits, isDigit c = true

namespace LengthField

def text (field : LengthField) : Bytes := field.name ++ (field.before ++ (field.digits ++ field.after))

def value (field : LengthField) : Nat := digitsValue field.digits

end LengthField

/-- The number at offset 16 of the first piece of a line, none being less than 0. -/
def numberRead (text : Bytes) : Nat :=
  (atoi (cString (((text ++ [newline]).take (bufSize - 1)).drop 16))).toInt.toNat

theorem take_first (text : Bytes) :
    ((text ++ [newline]).take (bufSize - 1)).take 15 = (text ++ [newline]).take 15 := by
  rw [List.take_take]
  rfl

theorem other_first {text : Bytes} (h : sameCase (text.take 15) contentLengthName = false) :
    sameCase (((text ++ [newline]).take (bufSize - 1)).take 15) contentLengthName = false := by
  rw [take_first]
  by_cases hlong : 15 ≤ text.length
  · rwa [List.take_append_of_le_length hlong]
  · refine Bool.eq_false_iff.mpr fun hname => ?_
    have hall : (text ++ [newline]).take 15 = text ++ [newline] := by
      refine List.take_of_length_le ?_
      rw [List.length_append, List.length_singleton]
      omega
    rw [hall] at hname
    exact absurd (lower_mem hname (List.mem_append_right text List.mem_cons_self)) (by decide)

theorem other_pieces {text piece : Bytes} (h : sameCase (text.take 15) contentLengthName = false)
    (hlater : ∀ piece ∈ (pieces text).tail, sameCase (piece.take 15) contentLengthName = false)
    (hpiece : piece ∈ pieces text) : sameCase (piece.take 15) contentLengthName = false := by
  rw [pieces_cons] at hpiece
  rcases List.mem_cons.mp hpiece with rfl | hpiece
  · exact other_first h
  · exact hlater piece hpiece

theorem digit_lower (c : UInt8) : isDigit c = true → tolower c ≠ 99 := by
  revert c
  apply forall_byte
  decide

namespace LengthField

variable (field : LengthField) {piece : Bytes}

/-- What stands behind the name. -/
theorem behind_name (hc : c ∈ field.before ++ (field.digits ++ field.after)) :
    (c = space ∨ c = 9) ∨ isDigit c = true := by
  rcases List.mem_append.mp hc with hc | hc
  · exact .inl (field.blank c (List.mem_append_left _ hc))
  · rcases List.mem_append.mp hc with hc | hc
    · exact .inr (field.number c hc)
    · exact .inl (field.blank c (List.mem_append_right _ hc))

theorem take_name (rest : Bytes) : (field.name ++ rest).take 15 = field.name :=
  List.take_left' (length_of_sameCase field.isName)

theorem later (hpiece : piece ∈ (pieces field.text).tail) :
    sameCase (piece.take 15) contentLengthName = false := by
  refine Bool.eq_false_iff.mpr fun hname => ?_
  have hlength := length_of_sameCase hname
  obtain ⟨c, rest, hrest⟩ := List.exists_cons_of_length_pos (Nat.lt_of_lt_of_eq (by decide) hlength.symm)
  have hmap : (piece.take 15).map tolower = contentLengthName.map tolower := of_decide_eq_true hname
  rw [hrest] at hmap
  have hletter : tolower c = 99 := (List.cons.inj hmap).1
  have hc : c ∈ piece := List.mem_of_mem_take (hrest ▸ List.mem_cons_self)
  rcases mem_of_later hpiece hc with hmem | rfl
  · have hdrop : field.name.drop (bufSize - 1) = [] := by
      refine List.drop_eq_nil_of_le ?_
      rw [length_of_sameCase field.isName]
      decide
    rw [text, List.drop_append, hdrop, List.nil_append] at hmem
    rcases field.behind_name (List.mem_of_mem_drop hmem) with (rfl | rfl) | hdigit
    · exact absurd hletter (by decide)
    · exact absurd hletter (by decide)
    · exact digit_lower c hdigit hletter
  · exact absurd hletter (by decide)

theorem lengthOf_first (contentLength : Int32) :
    lengthOf contentLength ((field.text ++ [newline]).take (bufSize - 1)) =
      atoi (cString (((field.text ++ [newline]).take (bufSize - 1)).drop 16)) := by
  rw [lengthOf, take_first, text, List.append_assoc, take_name, if_pos field.isName]

end LengthField

/-! The number is read right when white space stands in front of it, and all of it in the first
piece. -/

theorem LengthField.numberRead_eq (field : LengthField) (hbefore : field.before ≠ [])
    (hfits : (field.name ++ (field.before ++ field.digits)).length ≤ bufSize - 1)
    (hvalue : field.value < 2 ^ 31) : numberRead field.text = field.value := by
  obtain ⟨b, blanks, hblanks⟩ := List.exists_cons_of_ne_nil hbefore
  -- what follows the number in the piece
  obtain ⟨rest, hrest⟩ : ∃ rest, rest = (field.after ++ [newline]).take
      (bufSize - 1 - (field.name ++ (field.before ++ field.digits)).length) := ⟨_, rfl⟩
  have hafter : ∀ c ∈ rest, (c = space ∨ c = 9) ∨ c = newline := by
    intro c hc
    rw [hrest] at hc
    exact (List.mem_append.mp (List.mem_of_mem_take hc)).imp
      (fun hmem => field.blank c (List.mem_append_right _ hmem)) List.mem_singleton.mp
  have hpiece : (field.text ++ [newline]).take (bufSize - 1) =
      field.name ++ (field.before ++ field.digits) ++ rest := by
    have htext : field.text ++ [newline] =
        field.name ++ (field.before ++ field.digits) ++ (field.after ++ [newline]) := by
      simp only [text, List.append_assoc]
    rw [htext, List.take_append, List.take_of_length_le hfits, hrest]
  have hdrop : ((field.text ++ [newline]).take (bufSize - 1)).drop 16 =
      blanks ++ (field.digits ++ rest) := by
    have hname : (field.name ++ [b]).length = 16 := by
      rw [List.length_append, length_of_sameCase field.isName]
      rfl
    have hsplit : field.name ++ (field.before ++ field.digits) ++ rest =
        (field.name ++ [b]) ++ (blanks ++ (field.digits ++ rest)) := by
      simp only [hblanks, List.append_assoc, List.cons_append, List.nil_append]
    rw [hpiece, hsplit, List.drop_left' hname]
  have hblank : ∀ c ∈ blanks, c = space ∨ c = 9 := fun c hc =>
    field.blank c (List.mem_append_left _ (hblanks ▸ List.mem_cons_of_mem b hc))
  have hclean : 0 ∉ blanks ++ (field.digits ++ rest) := by
    intro hmem
    rcases List.mem_append.mp hmem with hmem | hmem
    · exact absurd (hblank 0 hmem) (by decide)
    · rcases List.mem_append.mp hmem with hmem | hmem
      · exact (digit_not_space 0 (field.number 0 hmem)).2.2.2 rfl
      · exact absurd (hafter 0 hmem) (by decide)
  have hspaces : ∀ c ∈ blanks, isspace c = true := by
    intro c hc
    rcases hblank c hc with rfl | rfl <;> rfl
  have hbehind : ∀ c ∈ rest, isDigit c = false := by
    intro c hc
    rcases hafter c hc with (rfl | rfl) | rfl <;> rfl
  rw [numberRead, hdrop, cString_of_clean hclean,
    atoi_blanks hspaces field.nonempty field.number hbehind hvalue, Int.toNat_natCast, value]

/-- The field gives the length, when no line behind it has a piece that looks like another one. -/
theorem lengthRead_section (before : List HeaderLine) {after : List HeaderLine}
    {lengthLine : HeaderLine} (field : LengthField) (hfield : lengthLine.text = field.text)
    (hother : ∀ line ∈ after, sameCase (line.text.take 15) contentLengthName = false)
    (hlater : ∀ line ∈ after, ∀ piece ∈ (pieces line.text).tail,
      sameCase (piece.take 15) contentLengthName = false) (buf : Bytes) :
    (lengthRead buf (-1)
      ((before ++ lengthLine :: after).flatMap fun line => pieces line.text)).toInt.toNat =
        numberRead field.text := by
  have hcomplete : ∀ piece ∈ (before ++ lengthLine :: after).flatMap fun line => pieces line.text,
      sameCase (piece.take 15) contentLengthName = true → 16 ≤ piece.length := by
    intro piece hpiece
    obtain ⟨line, -, hpiece⟩ := List.mem_flatMap.mp hpiece
    exact sixteen_le hpiece
  have hbehind : ∀ piece ∈ after.flatMap fun line => pieces line.text,
      sameCase (piece.take 15) contentLengthName = false := by
    intro piece hpiece
    obtain ⟨line, hline, hpiece⟩ := List.mem_flatMap.mp hpiece
    exact other_pieces (hother line hline) (hlater line hline) hpiece
  rw [lengthRead_eq hcomplete, List.flatMap_append, List.flatMap_cons, List.foldl_append,
    List.foldl_append, foldl_lengthOf hbehind, hfield, pieces_cons, List.foldl_cons,
    foldl_lengthOf fun piece hpiece => field.later hpiece, field.lengthOf_first]
  rfl

/-- `Content-Length: 3` -/
def threeField : LengthField where
  name := contentLengthName
  before := [space]
  digits := [51]
  after := []
  isName := by decide
  blank := fun _ hc => .inl (List.mem_singleton.mp hc)
  nonempty := List.cons_ne_nil _ _
  number := fun _ hc => List.mem_singleton.mp hc ▸ rfl

def threeLine : HeaderLine where
  text := threeField.text
  carriage := true
  nonempty := List.cons_ne_nil _ _
  noReturn := by decide
  noNewline := by decide

end RebuildTheWheel.Httpd
