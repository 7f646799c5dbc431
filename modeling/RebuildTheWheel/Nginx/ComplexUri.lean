import RebuildTheWheel.Nginx.RequestLine

namespace RebuildTheWheel.Nginx

open Data Data.Ascii

/-! `ngx_http_parse_complex_uri`. -/

/-- The fields of the request on return. A pointer into the URI is given as the bytes from it. -/
structure ComplexUri where
  uri : Bytes
  exten : Option Bytes
  argsStart : Option Bytes
  args : Option Bytes
  quotedUri : Bool
  plusInUri : Bool
  deriving DecidableEq

namespace ComplexUri

/-- The states that a character of the path is dispatched in. -/
inductive Sw where
  | usual
  | slash
  | dot
  | dotDot
  deriving DecidableEq

/-- The states of the machine; an escape keeps `quoted_state` and its first digit. -/
inductive State where
  | sw (state : Sw)
  | quoted (quotedState : Sw)
  | quotedSecond (quotedState : Sw) (decoded : UInt8)
  deriving DecidableEq

/-- What is written before the end: `out` holds the bytes before `u`, the last one first. -/
structure Writing where
  out : Bytes
  uriExt : Option Nat
  quotedUri : Bool
  plusInUri : Bool

/-- What a character leads to: the next one, the arguments, the end or an invalid request. -/
inductive Outcome where
  | next (state : State) (r : Writing)
  | args (r : Writing)
  | done (r : Writing)
  | invalid

def Writing.push (r : Writing) (ch : UInt8) : Writing := { r with out := ch :: r.out }

def Writing.plus (r : Writing) : Writing := { r with plusInUri := true }

/-- What `sw_slash`, `sw_dot` and `sw_dot_dot` share. -/
def leave (state : Sw) (ch : UInt8) (r : Writing) : Outcome :=
  if ch = percent then .next (.quoted state) r
  else if ch = question then .args r
  else if ch = hash then .done r
  else if ch = Ascii.plus then .next (.sw .usual) (r.plus.push ch)
  else .next (.sw .usual) (r.push ch)

def swUsual (ch : UInt8) (r : Writing) : Outcome :=
  if usual ch then .next (.sw .usual) (r.push ch)
  else if ch = slash then .next (.sw .slash) { r.push ch with uriExt := none }
  else if ch = point then .next (.sw .usual) { r.push ch with uriExt := some (r.out.length + 1) }
  else leave .usual ch r

def swSlash (mergeSlashes : Bool) (ch : UInt8) (r : Writing) : Outcome :=
  if usual ch then .next (.sw .usual) (r.push ch)
  else if ch = slash then .next (.sw .slash) (if mergeSlashes then r else r.push ch)
  else if ch = point then .next (.sw .dot) (r.push ch)
  else leave .slash ch r

def swDot (ch : UInt8) (r : Writing) : Outcome :=
  if usual ch then .next (.sw .usual) (r.push ch)
  else if ch = slash then .next (.sw .slash) { r with out := r.out.tail }
  else if ch = point then .next (.sw .dotDot) (r.push ch)
  else leave .dot ch r

/-- The bytes up to the last slash, `*u` being the first one. -/
def backToSlash : Bytes → Option Bytes
  | [] => none
  | c :: out => if c = slash then some (c :: out) else backToSlash out

def swDotDot (ch : UInt8) (r : Writing) : Outcome :=
  if usual ch then .next (.sw .usual) (r.push ch)
  else if ch = slash then
    -- `u -= 5`: four bytes are behind `u` then, and the fifth is `*u`
    match backToSlash (r.out.drop 4) with
    | none => .invalid
    | some out => .next (.sw .slash) { r with out }
  else leave .dotDot ch r

def dispatch (mergeSlashes : Bool) : Sw → UInt8 → Writing → Outcome
  | .usual => swUsual
  | .slash => swSlash mergeSlashes
  | .dot => swDot
  | .dotDot => swDotDot

def swQuoted (quotedState : Sw) (ch : UInt8) (r : Writing) : Outcome :=
  let r := { r with quotedUri := true }
  if isDigit ch then .next (.quotedSecond quotedState (ch - 48)) r
  else
    let c := ch ||| 0x20
    if 97 ≤ c ∧ c ≤ 102 then .next (.quotedSecond quotedState (c - 97 + 10)) r
    else .invalid

def swQuotedSecond (mergeSlashes : Bool) (quotedState : Sw) (decoded ch : UInt8) (r : Writing) :
    Outcome :=
  if isDigit ch then
    let ch := (decoded <<< 4) + (ch - 48)
    if ch = percent ∨ ch = hash then .next (.sw .usual) (r.push ch)
    else if ch = 0 then .invalid
    else dispatch mergeSlashes quotedState ch r
  else
    let c := ch ||| 0x20
    if 97 ≤ c ∧ c ≤ 102 then
      let ch := (decoded <<< 4) + (c - 97) + 10
      if ch = question then .next (.sw .usual) (r.push ch)
      else dispatch mergeSlashes quotedState ch (if ch = Ascii.plus then r.plus else r)
    else .invalid

def step (mergeSlashes : Bool) : State → UInt8 → Writing → Outcome
  | .sw state => dispatch mergeSlashes state
  | .quoted quotedState => swQuoted quotedState
  | .quotedSecond quotedState decoded => swQuotedSecond mergeSlashes quotedState decoded

def returnDone (r : Writing) : ComplexUri where
  uri := r.out.reverse
  exten := r.uriExt.map fun uriExt => r.out.reverse.drop uriExt
  argsStart := none
  args := none
  quotedUri := r.quotedUri
  plusInUri := r.plusInUri

/-- The arguments end at a fragment, or else with the URI. -/
def returnArgs (p : Bytes) (r : Writing) : ComplexUri :=
  if hash ∈ p then { returnDone r with args := some (p.takeWhile (· ≠ hash)) }
  else { returnDone r with argsStart := some p }

def loop (mergeSlashes : Bool) : Bytes → State → Writing → Option ComplexUri
  | [], _, r => some (returnDone r)
  | ch :: p, state, r =>
      match step mergeSlashes state ch r with
      | .next state r => loop mergeSlashes p state r
      | .args r => some (returnArgs p r)
      | .done r => some (returnDone r)
      | .invalid => none

end ComplexUri

open ComplexUri in
/-- `none` is `NGX_HTTP_PARSE_INVALID_REQUEST`. -/
def parseComplexUri (mergeSlashes : Bool) (uri : Bytes) : Option ComplexUri :=
  loop mergeSlashes uri (.sw .usual) ⟨[], none, false, false⟩

end RebuildTheWheel.Nginx
