import RebuildTheWheel.Nginx.HeaderLine
import RebuildTheWheel.Nginx.RequestLine

namespace RebuildTheWheel.Nginx

open Data Data.Ascii Data.Resumable

/-! The parsers do not depend on how the bytes are cut into fragments. -/

namespace RequestLine

def Failed (code : Code) : Prop := code ≠ .ok ∧ code ≠ .invalid09Method

/-- An error saves nothing; the other codes move the position and go back to `sw_start`. -/
def Good (step : Step) : Prop := step.Moves Failed ∧ step.Saves Failed id

variable {state : Sw} {other : RequestLine → Step}

@[simp] theorem failed_invalidMethod : Failed .invalidMethod := ⟨nofun, nofun⟩

@[simp] theorem failed_invalidRequest : Failed .invalidRequest := ⟨nofun, nofun⟩

@[simp] theorem failed_invalidVersion : Failed .invalidVersion := ⟨nofun, nofun⟩

@[simp] theorem good_next (state : Sw) (r : RequestLine) : Good (.next state r) := ⟨trivial, trivial⟩

@[simp] theorem good_fail {code : Code} (h : Failed code) (r : RequestLine) : Good (fail code r) :=
  ⟨fun hnot => absurd h hnot, fun hnot => absurd h hnot⟩

@[simp] theorem good_done (p : Nat) (r : RequestLine) : Good (done p r) := by
  unfold done
  dsimp only
  split_ifs <;> exact ⟨fun _ => rfl, fun _ _ _ => rfl⟩

theorem good_expect (c : UInt8) (state : Sw) (ch : UInt8) (r : RequestLine) :
    Good (expect c state ch r) := by
  unfold expect
  split_ifs <;> simp

theorem good_afterUri (hother : ∀ r, Good (other r)) (state : Sw) (p : Nat) (ch : UInt8)
    (r : RequestLine) : Good (afterUri state other p ch r) := by
  unfold afterUri
  split_ifs <;> simp [hother]

theorem good_uriEnds (hother : ∀ r, Good (other r)) (state : Sw) (p : Nat) (ch : UInt8)
    (r : RequestLine) : Good (uriEnds state other p ch r) := by
  unfold uriEnds
  split_ifs <;> simp [hother]

theorem good_swMethod (before : Bytes) (ch : UInt8) (r : RequestLine) :
    Good (swMethod before ch r) := by
  unfold swMethod
  split_ifs <;> simp

theorem good_swHostEnd (p : Nat) (ch : UInt8) (r : RequestLine) : Good (swHostEnd p ch r) := by
  unfold swHostEnd
  dsimp only
  split_ifs <;> simp

theorem good_swHost (p : Nat) (ch : UInt8) (r : RequestLine) : Good (swHost p ch r) := by
  unfold swHost
  split_ifs <;> simp [good_swHostEnd]

theorem good_swHostStart (p : Nat) (ch : UInt8) (r : RequestLine) : Good (swHostStart p ch r) := by
  unfold swHostStart
  dsimp only
  split_ifs <;> simp [good_swHost]

theorem good_swHostIpLiteral (ch : UInt8) (r : RequestLine) : Good (swHostIpLiteral ch r) := by
  unfold swHostIpLiteral
  split_ifs <;> simp

theorem good_swPort (p : Nat) (ch : UInt8) (r : RequestLine) : Good (swPort p ch r) := by
  unfold swPort
  split_ifs <;> simp

theorem good_swAfterSlashInUri (p : Nat) (ch : UInt8) (r : RequestLine) :
    Good (swAfterSlashInUri p ch r) := by
  unfold swAfterSlashInUri
  split_ifs <;> simp [good_uriEnds]

theorem good_swCheckUri (p : Nat) (ch : UInt8) (r : RequestLine) : Good (swCheckUri p ch r) := by
  unfold swCheckUri
  split_ifs <;> simp [good_uriEnds]

theorem good_swUri (p : Nat) (ch : UInt8) (r : RequestLine) : Good (swUri p ch r) := by
  unfold swUri
  split_ifs <;> simp [good_uriEnds]

theorem good_swFirstMajorDigit (ch : UInt8) (r : RequestLine) : Good (swFirstMajorDigit ch r) := by
  unfold swFirstMajorDigit
  dsimp only
  split_ifs <;> simp

theorem good_swMajorDigit (ch : UInt8) (r : RequestLine) : Good (swMajorDigit ch r) := by
  unfold swMajorDigit
  dsimp only
  split_ifs <;> simp

theorem good_swFirstMinorDigit (ch : UInt8) (r : RequestLine) : Good (swFirstMinorDigit ch r) := by
  unfold swFirstMinorDigit
  split_ifs <;> simp

theorem good_swMinorDigit (p : Nat) (ch : UInt8) (r : RequestLine) : Good (swMinorDigit p ch r) := by
  unfold swMinorDigit
  split_ifs <;> simp

theorem good_machine (before : Bytes) (ch : UInt8) (state : Sw) (r : RequestLine) :
    Good (machine before ch state r) := by
  unfold machine
  cases state with
  | start =>
      dsimp only
      split_ifs <;> simp
  | method => exact good_swMethod before ch r
  | spacesBeforeUri =>
      dsimp only
      split_ifs <;> simp
  | schema =>
      dsimp only
      split_ifs <;> simp
  | hostStart => exact good_swHostStart before.length ch r
  | host => exact good_swHost before.length ch r
  | hostEnd => exact good_swHostEnd before.length ch r
  | hostIpLiteral => exact good_swHostIpLiteral ch r
  | port => exact good_swPort before.length ch r
  | hostHttp09 => exact good_afterUri (fun r => good_fail failed_invalidRequest r) _ _ ch r
  | afterSlashInUri => exact good_swAfterSlashInUri before.length ch r
  | checkUri => exact good_swCheckUri before.length ch r
  | checkUriHttp09 => exact good_afterUri (fun r => good_swCheckUri before.length ch _) _ _ ch r
  | uri => exact good_swUri before.length ch r
  | http09 => exact good_afterUri (fun r => good_swUri before.length ch _) _ _ ch r
  | firstMajorDigit => exact good_swFirstMajorDigit ch r
  | majorDigit => exact good_swMajorDigit ch r
  | firstMinorDigit => exact good_swFirstMinorDigit ch r
  | minorDigit => exact good_swMinorDigit before.length ch r
  | spacesAfterDigit =>
      dsimp only
      split_ifs <;> simp
  | almostDone =>
      dsimp only
      split_ifs <;> simp
  | schemaSlash | schemaSlashSlash | httpH | httpHT | httpHTT | httpHTTP => exact good_expect _ _ ch r

end RequestLine

namespace StatusLine

def Failed (code : Code) : Prop := code = .error

def Good (step : Step) : Prop := step.Moves Failed ∧ step.Saves Failed id

@[simp] theorem good_next (state : Sw) (r : StatusLine) : Good (.next state r) := ⟨trivial, trivial⟩

@[simp] theorem good_fail (r : StatusLine) : Good (fail r) :=
  ⟨fun hnot => absurd rfl hnot, fun hnot => absurd rfl hnot⟩

@[simp] theorem good_done (p : Nat) (r : StatusLine) : Good (done p r) :=
  ⟨fun _ => rfl, fun _ _ _ => rfl⟩

theorem good_expect (c : UInt8) (state : Sw) (ch : UInt8) (r : StatusLine) :
    Good (expect c state ch r) := by
  unfold expect
  split_ifs <;> simp

theorem good_swStatus (p : Nat) (ch : UInt8) (r : StatusLine) : Good (swStatus p ch r) := by
  unfold swStatus
  dsimp only
  split_ifs <;> simp

theorem good_machine (before : Bytes) (ch : UInt8) (state : Sw) (r : StatusLine) :
    Good (machine before ch state r) := by
  unfold machine
  cases state with
  | status => exact good_swStatus before.length ch r
  | start | h | ht | htt | http => exact good_expect _ _ ch r
  | firstMajorDigit | majorDigit | firstMinorDigit | minorDigit | spaceAfterStatus | statusText
  | almostDone =>
      dsimp only
      split_ifs <;> simp

end StatusLine

namespace HeaderLine

def Failed (code : Code) : Prop := code = .invalidHeader

def NotLine (code : Code) : Prop := code ≠ .ok

/-- Only a line that is parsed saves the hash and the index. -/
structure Good (step : Step) : Prop where
  moves : step.Moves Failed
  state : step.Saves Failed Locals.state
  saves : step.Saves NotLine id
  ends : ∀ advance update r, step = .stop .headerDone advance update r →
    ∀ l, update l = { l with state := .start }

@[simp] theorem good_next (l : Locals) (r : HeaderLine) : Good (.next l r) :=
  ⟨trivial, trivial, trivial, nofun⟩

@[simp] theorem good_fail (r : HeaderLine) : Good (fail r) :=
  ⟨fun hnot => absurd rfl hnot, fun hnot => absurd rfl hnot, fun hnot => absurd nofun hnot,
    nofun⟩

@[simp] theorem good_done (l : Locals) (r : HeaderLine) : Good (done l r) :=
  ⟨fun _ => rfl, fun _ _ _ => rfl, fun _ _ _ => rfl, nofun⟩

@[simp] theorem good_headerDone (r : HeaderLine) : Good (headerDone r) :=
  ⟨fun _ => rfl, fun _ _ _ => rfl, fun hnot => absurd nofun hnot,
    fun _ _ _ h _ => by obtain ⟨-, -, rfl, -⟩ := Resumable.Step.stop.inj h; rfl⟩

theorem good_swStart (allowUnderscores : Bool) (p : Nat) (ch : UInt8) (l : Locals)
    (r : HeaderLine) : Good (swStart allowUnderscores p ch l r) := by
  unfold swStart
  dsimp only
  split_ifs <;> simp [first]

theorem good_swName (allowUnderscores : Bool) (before : Bytes) (ch : UInt8) (l : Locals)
    (r : HeaderLine) : Good (swName allowUnderscores before ch l r) := by
  unfold swName
  dsimp only
  split_ifs <;> simp [append]

theorem good_swSpaceBeforeValue (p : Nat) (ch : UInt8) (l : Locals) (r : HeaderLine) :
    Good (swSpaceBeforeValue p ch l r) := by
  unfold swSpaceBeforeValue
  split_ifs <;> simp

theorem good_swValue (p : Nat) (ch : UInt8) (l : Locals) (r : HeaderLine) :
    Good (swValue p ch l r) := by
  unfold swValue
  split_ifs <;> simp

theorem good_swSpaceAfterValue (ch : UInt8) (l : Locals) (r : HeaderLine) :
    Good (swSpaceAfterValue ch l r) := by
  unfold swSpaceAfterValue
  split_ifs <;> simp

theorem good_machine (allowUnderscores : Bool) (before : Bytes) (ch : UInt8) (l : Locals)
    (r : HeaderLine) : Good (machine allowUnderscores before ch l r) := by
  obtain ⟨state, hash, i⟩ := l
  unfold machine
  cases state with
  | start => exact good_swStart allowUnderscores before.length ch _ r
  | name => exact good_swName allowUnderscores before ch _ r
  | spaceBeforeValue => exact good_swSpaceBeforeValue before.length ch _ r
  | value => exact good_swValue before.length ch _ r
  | spaceAfterValue => exact good_swSpaceAfterValue ch _ r
  | ignoreLine | almostDone | headerAlmostDone =>
      dsimp only
      split_ifs <;> simp

/-- The line is the empty one that ends the headers. -/
def EndsHeaders (l : Locals) (bytes : Bytes) : Prop :=
  l.state = .start ∧ ∃ ch ∈ bytes.head?, ch = carriageReturn ∨ ch = newline

theorem kept_of_endsHeaders {allowUnderscores : Bool} {before bytes xs : Bytes} {l entry : Locals}
    {r r' : HeaderLine} (h : EndsHeaders l bytes) (hxs : xs <+: bytes)
    (hsuspended : loop (machine allowUnderscores) before xs l r = .again entry r') :
    ({ entry with state := .start } : Locals) = { l with state := .start } := by
  obtain ⟨state, hash, i⟩ := l
  obtain ⟨hstate, ch, hhead, hch⟩ := h
  obtain rfl : state = .start := hstate
  obtain ⟨rest, rfl⟩ := List.head?_eq_some_iff.mp hhead
  cases xs with
  | nil =>
      obtain ⟨rfl, -⟩ := Ended.again.inj hsuspended
      rfl
  | cons c xs =>
      obtain ⟨rfl, -⟩ := List.cons_prefix_cons.mp hxs
      rcases hch with rfl | rfl
      · cases xs with
        | nil =>
            obtain ⟨rfl, -⟩ := Ended.again.inj hsuspended
            rfl
        | cons c xs =>
            -- after the carriage return, every byte ends the call
            simp only [loop, machine, swStart, if_true] at hsuspended
            split_ifs at hsuspended <;> cases hsuspended
      · cases hsuspended

/-- The replies are the same, but for what an error leaves behind, and for the hash and the index
when the headers end after a line that has been ignored. -/
structure Agrees (l : Locals) (bytes : Bytes) (reply reply' : Reply Code Locals HeaderLine) :
    Prop where
  code : reply.code = reply'.code
  r : reply.r = reply'.r
  pos : reply'.Holds Failed → reply.pos = reply'.pos
  state : reply'.Holds Failed → reply.saved.state = reply'.saved.state
  line : reply'.Holds NotLine → reply.saved = reply'.saved
  ends : EndsHeaders l bytes → reply'.code = some .headerDone → reply.saved = reply'.saved

theorem deliver_agrees (allowUnderscores : Bool) (before fragment : Bytes)
    (fragments : List Bytes) (l : Locals) (r : HeaderLine) :
    Agrees l (fragment ++ fragments.flatten)
      (deliver (machine allowUnderscores) before fragment fragments l r)
      (parseHeaderLine allowUnderscores before (fragment ++ fragments.flatten) l r) where
  code := deliver_code _ before fragment fragments l r
  r := deliver_r _ before fragment fragments l r
  pos := deliver_pos fun before ch l r => (good_machine allowUnderscores before ch l r).moves
  state := deliver_saved fun before ch l r => (good_machine allowUnderscores before ch l r).state
  line := deliver_saved fun before ch l r => (good_machine allowUnderscores before ch l r).saves
  ends := by
    intro hends hcode
    rw [parseHeaderLine, call] at hcode
    cases hloop : loop (machine allowUnderscores) before (fragment ++ fragments.flatten) l r with
    | again =>
        rw [hloop] at hcode
        cases hcode
    | stopped code advance update r₁ p =>
        rw [hloop] at hcode
        obtain rfl : code = .headerDone := Option.some.inj hcode
        obtain ⟨before₁, ch, l₁, r₂, hstop⟩ := exists_stop hloop
        have hupdate := (good_machine allowUnderscores before₁ ch l₁ r₂).ends _ _ _ hstop
        refine deliver_saved_of_kept hloop fun xs entry r' hxs hsuspended => ?_
        rw [hupdate, hupdate]
        exact kept_of_endsHeaders hends hxs hsuspended

end HeaderLine

/-- However the bytes are cut into fragments, the code and the fields are the same. So is the
rest of what the calls leave, unless the code is that of an error; at the end of the headers, only
the hash and the index of a line that has been ignored may differ. -/
theorem parsers_agree :
    (∀ before fragment fragments state r,
      (deliver RequestLine.machine before fragment fragments state r).Agrees RequestLine.Failed
        (parseRequestLine before (fragment ++ fragments.flatten) state r)) ∧
    (∀ allowUnderscores before fragment fragments l r,
      HeaderLine.Agrees l (fragment ++ fragments.flatten)
        (deliver (HeaderLine.machine allowUnderscores) before fragment fragments l r)
        (parseHeaderLine allowUnderscores before (fragment ++ fragments.flatten) l r)) ∧
    (∀ before fragment fragments state r,
      (deliver StatusLine.machine before fragment fragments state r).Agrees StatusLine.Failed
        (parseStatusLine before (fragment ++ fragments.flatten) state r)) := by
  refine ⟨fun before fragment fragments state r => ?_, HeaderLine.deliver_agrees,
    fun before fragment fragments state r => ?_⟩
  · exact Resumable.deliver_agrees (fun before ch state r => (RequestLine.good_machine before ch state r).1)
      fun before ch state r => (RequestLine.good_machine before ch state r).2
  · exact Resumable.deliver_agrees (fun before ch state r => (StatusLine.good_machine before ch state r).1)
      fun before ch state r => (StatusLine.good_machine before ch state r).2

def RequestLine.zero : RequestLine where
  requestStart := none
  requestEnd := none
  methodEnd := none
  method := .unknown
  schemaStart := none
  schemaEnd := none
  hostStart := none
  hostEnd := none
  portEnd := none
  uriStart := none
  uriEnd := none
  uriExt := none
  argsStart := none
  httpProtocol := none
  httpMajor := 0
  httpMinor := 0
  httpVersion := 0
  complexUri := false
  quotedUri := false
  plusInUri := false
  spaceInUri := false

def HeaderLine.zero (upstream : Bool) : HeaderLine where
  lowcaseHeader := .replicate 32 0
  headerNameStart := none
  headerNameEnd := none
  headerStart := none
  headerEnd := none
  invalidHeader := false
  upstream := upstream

/-- `G` and `1`, `a` and a NUL, and `HTTP/` and two line feeds. -/
theorem fragments_matter :
    (¬∀ before fragment fragments state r,
      (deliver RequestLine.machine before fragment fragments state r).pos =
        (parseRequestLine before (fragment ++ fragments.flatten) state r).pos) ∧
    (¬∀ allowUnderscores before fragment fragments l r,
      (deliver (HeaderLine.machine allowUnderscores) before fragment fragments l r).saved.hash =
        (parseHeaderLine allowUnderscores before (fragment ++ fragments.flatten) l r).saved.hash) ∧
    (¬∀ allowUnderscores before fragment fragments l r,
      (parseHeaderLine allowUnderscores before (fragment ++ fragments.flatten) l r).code =
          some .headerDone →
        (deliver (HeaderLine.machine allowUnderscores) before fragment fragments l r).saved.hash =
          (parseHeaderLine allowUnderscores before (fragment ++ fragments.flatten) l r).saved.hash) := by
  refine ⟨fun h => ?_, fun h => ?_, fun h => ?_⟩
  · exact absurd (h [] [71] [[49]] .start .zero) (by decide)
  · exact absurd (h false [] [97] [[0]] ⟨.start, 0, 0⟩ (.zero false)) (by decide)
  · exact absurd (h true [] [72, 84, 84, 80, 47] [[10, 10]] ⟨.start, 0, 0⟩ (.zero true) (by decide))
      (by decide)

end RebuildTheWheel.Nginx
