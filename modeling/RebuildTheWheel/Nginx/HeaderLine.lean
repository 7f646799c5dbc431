import RebuildTheWheel.Nginx.RequestLine

namespace RebuildTheWheel.Nginx

open Data Data.Ascii

/-- The fields of `ngx_http_parse_header_line` that are not held in locals; `upstream` tells
whether the request has one. -/
structure HeaderLine where
  lowcaseHeader : Vector UInt8 32
  headerNameStart : Place
  headerNameEnd : Place
  headerStart : Place
  headerEnd : Place
  invalidHeader : Bool
  upstream : Bool
  deriving DecidableEq

namespace HeaderLine

/-- `NGX_OK`, the end of the headers and the error. -/
inductive Code where
  | ok
  | headerDone
  | invalidHeader
  deriving DecidableEq

inductive Sw where
  | start
  | name
  | spaceBeforeValue
  | value
  | spaceAfterValue
  | ignoreLine
  | almostDone
  | headerAlmostDone
  deriving DecidableEq

/-- `state`, `header_hash` and `lowcase_index`. -/
structure Locals where
  state : Sw
  hash : UInt64
  i : Fin 32
  deriving DecidableEq

abbrev Step := Resumable.Step Code Locals HeaderLine

def fail (r : HeaderLine) : Step := .stop .invalidHeader false id r

def done (l : Locals) (r : HeaderLine) : Step := .stop .ok true (fun _ => { l with state := .start }) r

/-- The hash and the index are left as they were saved. -/
def headerDone (r : HeaderLine) : Step :=
  .stop .headerDone true (fun saved => { saved with state := .start }) r

def lowcase (ch : UInt8) : UInt8 :=
  if ch = minus || isDigit ch || (97 ≤ ch && ch ≤ 122) then ch
  else if 65 ≤ ch && ch ≤ 90 then ch ||| 0x20
  else 0

def ngxHash (key : UInt64) (c : UInt8) : UInt64 := key * 31 + c.toUInt64

def first (c : UInt8) (r : HeaderLine) : Step :=
  .next ⟨.name, ngxHash 0 c, 1⟩ { r with lowcaseHeader := r.lowcaseHeader.set 0 c }

def append (c : UInt8) (l : Locals) (r : HeaderLine) : Step :=
  .next ⟨.name, ngxHash l.hash c, l.i + 1⟩
    { r with lowcaseHeader := r.lowcaseHeader.set l.i c }

def underscore : UInt8 := 95

def swStart (allowUnderscores : Bool) (p : Nat) (ch : UInt8) (l : Locals) (r : HeaderLine) : Step :=
  let r := { r with headerNameStart := some p, invalidHeader := false }
  if ch = carriageReturn then
    .next { l with state := .headerAlmostDone } { r with headerEnd := some p }
  else if ch = newline then headerDone { r with headerEnd := some p }
  else if lowcase ch ≠ 0 then first (lowcase ch) r
  else if ch = underscore then
    if allowUnderscores then first ch r
    else .next { l with state := .name } { r with invalidHeader := true }
  else if ch = 0 then fail r
  else .next { l with state := .name } { r with invalidHeader := true }

/-- `HTTP` -/
def httpText : Bytes := [72, 84, 84, 80]

/-- `before` is what the buffer holds before `p`. -/
def swName (allowUnderscores : Bool) (before : Bytes) (ch : UInt8) (l : Locals) (r : HeaderLine) :
    Step :=
  let p := before.length
  let start := r.headerNameStart.getD 0
  if lowcase ch ≠ 0 then append (lowcase ch) l r
  else if ch = underscore then
    if allowUnderscores then append ch l r
    else .next l { r with invalidHeader := true }
  else if ch = colon then .next { l with state := .spaceBeforeValue } { r with headerNameEnd := some p }
  else if ch = carriageReturn then
    .next { l with state := .almostDone }
      { r with headerNameEnd := some p, headerStart := some p, headerEnd := some p }
  else if ch = newline then
    done l { r with headerNameEnd := some p, headerStart := some p, headerEnd := some p }
  else if ch = slash ∧ r.upstream ∧ p = start + 4 ∧ before.drop start = httpText then
    .next { l with state := .ignoreLine } r
  else if ch = 0 then fail r
  else .next l { r with invalidHeader := true }

def swSpaceBeforeValue (p : Nat) (ch : UInt8) (l : Locals) (r : HeaderLine) : Step :=
  if ch = space then .next l r
  else if ch = carriageReturn then
    .next { l with state := .almostDone } { r with headerStart := some p, headerEnd := some p }
  else if ch = newline then done l { r with headerStart := some p, headerEnd := some p }
  else if ch = 0 then fail r
  else .next { l with state := .value } { r with headerStart := some p }

def swValue (p : Nat) (ch : UInt8) (l : Locals) (r : HeaderLine) : Step :=
  if ch = space then .next { l with state := .spaceAfterValue } { r with headerEnd := some p }
  else if ch = carriageReturn then .next { l with state := .almostDone } { r with headerEnd := some p }
  else if ch = newline then done l { r with headerEnd := some p }
  else if ch = 0 then fail r
  else .next l r

def swSpaceAfterValue (ch : UInt8) (l : Locals) (r : HeaderLine) : Step :=
  if ch = space then .next l r
  else if ch = carriageReturn then .next { l with state := .almostDone } r
  else if ch = newline then done l r
  else if ch = 0 then fail r
  else .next { l with state := .value } r

def machine (allowUnderscores : Bool) : Resumable.Machine Code Locals HeaderLine :=
  fun before ch l r =>
    let p := before.length
    match l.state with
    | .start => swStart allowUnderscores p ch l r
    | .name => swName allowUnderscores before ch l r
    | .spaceBeforeValue => swSpaceBeforeValue p ch l r
    | .value => swValue p ch l r
    | .spaceAfterValue => swSpaceAfterValue ch l r
    | .ignoreLine => if ch = newline then .next { l with state := .start } r else .next l r
    | .almostDone =>
        if ch = newline then done l r
        else if ch = carriageReturn then .next l r
        else fail r
    | .headerAlmostDone => if ch = newline then headerDone r else fail r

end HeaderLine

/-- `ngx_http_parse_header_line`. -/
def parseHeaderLine (allowUnderscores : Bool) (before rest : Bytes) (l : HeaderLine.Locals)
    (r : HeaderLine) : Resumable.Reply HeaderLine.Code HeaderLine.Locals HeaderLine :=
  Resumable.call (HeaderLine.machine allowUnderscores) before rest l r

end RebuildTheWheel.Nginx
