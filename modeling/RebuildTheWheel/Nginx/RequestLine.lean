import RebuildTheWheel.Data.Resumable

namespace RebuildTheWheel.Nginx

open Data Data.Ascii

def usualWords : List Nat :=
  [0xffffdbfe, 0x7fff37d6, 0xffffffff, 0xffffffff, 0xffffffff, 0xffffffff, 0xffffffff, 0xffffffff]

def usual (ch : UInt8) : Bool := (usualWords.getD (ch.toNat / 32) 0).testBit (ch.toNat % 32)

def isLetter (ch : UInt8) : Bool := 97 ≤ ch ||| 0x20 && ch ||| 0x20 ≤ 122

inductive Method where
  | unknown
  | get
  | head
  | post
  | put
  | delete
  | mkcol
  | copy
  | move
  | options
  | propfind
  | proppatch
  | lock
  | unlock
  | patch
  | trace
  deriving DecidableEq

/-- A pointer into the buffer, which starts at 0; `none` is `NULL`. -/
abbrev Place := Option Nat

/-- The fields that `ngx_http_parse_request_line` sets, without `state`. -/
structure RequestLine where
  requestStart : Place
  requestEnd : Place
  methodEnd : Place
  method : Method
  schemaStart : Place
  schemaEnd : Place
  hostStart : Place
  hostEnd : Place
  portEnd : Place
  uriStart : Place
  uriEnd : Place
  uriExt : Place
  argsStart : Place
  httpProtocol : Place
  httpMajor : UInt16
  httpMinor : UInt16
  httpVersion : Nat
  complexUri : Bool
  quotedUri : Bool
  plusInUri : Bool
  spaceInUri : Bool
  deriving DecidableEq

namespace RequestLine

/-- `NGX_OK` and the errors. -/
inductive Code where
  | ok
  | invalidMethod
  | invalidRequest
  | invalidVersion
  | invalid09Method
  deriving DecidableEq

inductive Sw where
  | start
  | method
  | spacesBeforeUri
  | schema
  | schemaSlash
  | schemaSlashSlash
  | hostStart
  | host
  | hostEnd
  | hostIpLiteral
  | port
  | hostHttp09
  | afterSlashInUri
  | checkUri
  | checkUriHttp09
  | uri
  | http09
  | httpH
  | httpHT
  | httpHTT
  | httpHTTP
  | firstMajorDigit
  | majorDigit
  | firstMinorDigit
  | minorDigit
  | spacesAfterDigit
  | almostDone
  deriving DecidableEq

abbrev Step := Resumable.Step Code Sw RequestLine

/-- An error returns at once: neither the position nor the state is saved. -/
def fail (code : Code) (r : RequestLine) : Step := .stop code false id r

def done (p : Nat) (r : RequestLine) : Step :=
  let r := { r with
    requestEnd := r.requestEnd.or (some p)
    httpVersion := r.httpMajor.toNat * 1000 + r.httpMinor.toNat }
  if r.httpVersion = 9 ∧ r.method ≠ .get then .stop .invalid09Method true (fun _ => .start) r
  else .stop .ok true (fun _ => .start) r

def methods : List (Bytes × Method) :=
  [([71, 69, 84], .get), ([80, 85, 84], .put),
    ([80, 79, 83, 84], .post), ([67, 79, 80, 89], .copy), ([77, 79, 86, 69], .move),
    ([76, 79, 67, 75], .lock), ([72, 69, 65, 68], .head),
    ([77, 75, 67, 79, 76], .mkcol), ([80, 65, 84, 67, 72], .patch), ([84, 82, 65, 67, 69], .trace),
    ([68, 69, 76, 69, 84, 69], .delete), ([85, 78, 76, 79, 67, 75], .unlock),
    ([79, 80, 84, 73, 79, 78, 83], .options),
    ([80, 82, 79, 80, 70, 73, 78, 68], .propfind),
    ([80, 82, 79, 80, 80, 65, 84, 67, 72], .proppatch)]

def isMethodChar (ch : UInt8) : Bool :=
  (65 ≤ ch && ch ≤ 90) || ch = 95 || ch = minus

/-- `before` is what the buffer holds before `p`. -/
def swMethod (before : Bytes) (ch : UInt8) (r : RequestLine) : Step :=
  if ch = space then
    let name := before.drop (r.requestStart.getD 0)
    .next .spacesBeforeUri { r with
      methodEnd := some (before.length - 1)
      method := (methods.lookup name).getD r.method }
  else if isMethodChar ch then .next .method r
  else fail .invalidMethod r

def swHostEnd (p : Nat) (ch : UInt8) (r : RequestLine) : Step :=
  let r := { r with hostEnd := some p }
  if ch = colon then .next .port r
  else if ch = slash then .next .afterSlashInUri { r with uriStart := some p }
  else if ch = space then
    -- the single `/` of `://` stands for the URI
    .next .hostHttp09 { r with
      uriStart := r.schemaEnd.map (· + 1)
      uriEnd := r.schemaEnd.map (· + 2) }
  else fail .invalidRequest r

def swHost (p : Nat) (ch : UInt8) (r : RequestLine) : Step :=
  if isLetter ch then .next .host r
  else if isDigit ch || ch = point || ch = minus then .next .host r
  else swHostEnd p ch r

def swHostStart (p : Nat) (ch : UInt8) (r : RequestLine) : Step :=
  let r := { r with hostStart := some p }
  if ch = lbracket then .next .hostIpLiteral r
  else swHost p ch r

/-- `-._~` and `!$&'()*+,;=` -/
def ipLiteralChars : Bytes := [45, 46, 95, 126, 33, 36, 38, 39, 40, 41, 42, 43, 44, 59, 61]

def swHostIpLiteral (ch : UInt8) (r : RequestLine) : Step :=
  if isDigit ch then .next .hostIpLiteral r
  else if isLetter ch then .next .hostIpLiteral r
  else if ch = colon then .next .hostIpLiteral r
  else if ch = rbracket then .next .hostEnd r
  else if ch ∈ ipLiteralChars then .next .hostIpLiteral r
  else fail .invalidRequest r

def swPort (p : Nat) (ch : UInt8) (r : RequestLine) : Step :=
  if isDigit ch then .next .port r
  else if ch = slash then
    .next .afterSlashInUri { r with portEnd := some p, uriStart := some p }
  else if ch = space then
    .next .hostHttp09 { r with
      portEnd := some p
      uriStart := r.schemaEnd.map (· + 1)
      uriEnd := r.schemaEnd.map (· + 2) }
  else fail .invalidRequest r

/-- What follows the URI: more spaces, the end of a line without a version, or the version. -/
def afterUri (state : Sw) (other : RequestLine → Step) (p : Nat) (ch : UInt8) (r : RequestLine) :
    Step :=
  if ch = space then .next state r
  else if ch = carriageReturn then .next .almostDone { r with httpMinor := 9 }
  else if ch = newline then done p { r with httpMinor := 9 }
  else if ch = 72 then .next .httpH { r with httpProtocol := some p }
  else other r

/-- The end of the URI. -/
def uriEnds (state : Sw) (other : RequestLine → Step) (p : Nat) (ch : UInt8) (r : RequestLine) :
    Step :=
  if ch = space then .next state { r with uriEnd := some p }
  else if ch = carriageReturn then .next .almostDone { r with uriEnd := some p, httpMinor := 9 }
  else if ch = newline then done p { r with uriEnd := some p, httpMinor := 9 }
  else other r

def swHostHttp09 : Nat → UInt8 → RequestLine → Step := afterUri .hostHttp09 (fail .invalidRequest)

def swAfterSlashInUri (p : Nat) (ch : UInt8) (r : RequestLine) : Step :=
  if usual ch then .next .checkUri r
  else uriEnds .checkUriHttp09 (fun r =>
    if ch = point then .next .uri { r with complexUri := true }
    else if ch = percent then .next .uri { r with quotedUri := true }
    else if ch = slash then .next .uri { r with complexUri := true }
    else if ch = question then .next .uri { r with argsStart := some (p + 1) }
    else if ch = hash then .next .uri { r with complexUri := true }
    else if ch = plus then .next .afterSlashInUri { r with plusInUri := true }
    else if ch = 0 then fail .invalidRequest r
    else .next .checkUri r) p ch r

def swCheckUri (p : Nat) (ch : UInt8) (r : RequestLine) : Step :=
  if usual ch then .next .checkUri r
  else uriEnds .checkUriHttp09 (fun r =>
    if ch = slash then .next .afterSlashInUri { r with uriExt := none }
    else if ch = point then .next .checkUri { r with uriExt := some (p + 1) }
    else if ch = percent then .next .uri { r with quotedUri := true }
    else if ch = question then .next .uri { r with argsStart := some (p + 1) }
    else if ch = hash then .next .uri { r with complexUri := true }
    else if ch = plus then .next .checkUri { r with plusInUri := true }
    else if ch = 0 then fail .invalidRequest r
    else .next .checkUri r) p ch r

def swUri (p : Nat) (ch : UInt8) (r : RequestLine) : Step :=
  if usual ch then .next .uri r
  else uriEnds .http09 (fun r =>
    if ch = hash then .next .uri { r with complexUri := true }
    else if ch = 0 then fail .invalidRequest r
    else .next .uri r) p ch r

/-- After a space within the URI, `p--` reads the byte again as a part of it. -/
def swCheckUriHttp09 (p : Nat) (ch : UInt8) (r : RequestLine) : Step :=
  afterUri .checkUriHttp09 (fun r => swCheckUri p ch { r with spaceInUri := true }) p ch r

def swHttp09 (p : Nat) (ch : UInt8) (r : RequestLine) : Step :=
  afterUri .http09 (fun r => swUri p ch { r with spaceInUri := true }) p ch r

def expect (c : UInt8) (state : Sw) (ch : UInt8) (r : RequestLine) : Step :=
  if ch = c then .next state r else fail .invalidRequest r

def swFirstMajorDigit (ch : UInt8) (r : RequestLine) : Step :=
  if ch < 49 ∨ 57 < ch then fail .invalidRequest r
  else
    let r := { r with httpMajor := (ch - 48).toUInt16 }
    if 1 < r.httpMajor then fail .invalidVersion r else .next .majorDigit r

def swMajorDigit (ch : UInt8) (r : RequestLine) : Step :=
  if ch = point then .next .firstMinorDigit r
  else if !isDigit ch then fail .invalidRequest r
  else
    let r := { r with httpMajor := r.httpMajor * 10 + (ch - 48).toUInt16 }
    if 1 < r.httpMajor then fail .invalidVersion r else .next .majorDigit r

def swFirstMinorDigit (ch : UInt8) (r : RequestLine) : Step :=
  if !isDigit ch then fail .invalidRequest r
  else .next .minorDigit { r with httpMinor := (ch - 48).toUInt16 }

def swMinorDigit (p : Nat) (ch : UInt8) (r : RequestLine) : Step :=
  if ch = carriageReturn then .next .almostDone r
  else if ch = newline then done p r
  else if ch = space then .next .spacesAfterDigit r
  else if !isDigit ch then fail .invalidRequest r
  else if 99 < r.httpMinor then fail .invalidRequest r
  else .next .minorDigit { r with httpMinor := r.httpMinor * 10 + (ch - 48).toUInt16 }

def machine : Resumable.Machine Code Sw RequestLine := fun before ch state r =>
  let p := before.length
  match state with
  | .start =>
      let r := { r with requestStart := some p }
      if ch = carriageReturn ∨ ch = newline then .next .start r
      else if isMethodChar ch then .next .method r
      else fail .invalidMethod r
  | .method => swMethod before ch r
  | .spacesBeforeUri =>
      if ch = slash then .next .afterSlashInUri { r with uriStart := some p }
      else if isLetter ch then .next .schema { r with schemaStart := some p }
      else if ch = space then .next .spacesBeforeUri r
      else fail .invalidRequest r
  | .schema =>
      if isLetter ch then .next .schema r
      else if ch = colon then .next .schemaSlash { r with schemaEnd := some p }
      else fail .invalidRequest r
  | .schemaSlash => expect slash .schemaSlashSlash ch r
  | .schemaSlashSlash => expect slash .hostStart ch r
  | .hostStart => swHostStart p ch r
  | .host => swHost p ch r
  | .hostEnd => swHostEnd p ch r
  | .hostIpLiteral => swHostIpLiteral ch r
  | .port => swPort p ch r
  | .hostHttp09 => swHostHttp09 p ch r
  | .afterSlashInUri => swAfterSlashInUri p ch r
  | .checkUri => swCheckUri p ch r
  | .checkUriHttp09 => swCheckUriHttp09 p ch r
  | .uri => swUri p ch r
  | .http09 => swHttp09 p ch r
  | .httpH => expect 84 .httpHT ch r
  | .httpHT => expect 84 .httpHTT ch r
  | .httpHTT => expect 80 .httpHTTP ch r
  | .httpHTTP => expect slash .firstMajorDigit ch r
  | .firstMajorDigit => swFirstMajorDigit ch r
  | .majorDigit => swMajorDigit ch r
  | .firstMinorDigit => swFirstMinorDigit ch r
  | .minorDigit => swMinorDigit p ch r
  | .spacesAfterDigit =>
      if ch = space then .next .spacesAfterDigit r
      else if ch = carriageReturn then .next .almostDone r
      else if ch = newline then done p r
      else fail .invalidRequest r
  | .almostDone =>
      let r := { r with requestEnd := some (p - 1) }
      if ch = newline then done p r else fail .invalidRequest r

end RequestLine

/-- `ngx_http_parse_request_line`. -/
def parseRequestLine (before rest : Bytes) (state : RequestLine.Sw) (r : RequestLine) :
    Resumable.Reply RequestLine.Code RequestLine.Sw RequestLine :=
  Resumable.call RequestLine.machine before rest state r

end RebuildTheWheel.Nginx

namespace RebuildTheWheel.Nginx

open Data Data.Ascii

/-- The fields of the request and of `ngx_http_status_t` that `ngx_http_parse_status_line` sets,
without `state`. -/
structure StatusLine where
  httpMajor : UInt16
  httpMinor : UInt16
  httpVersion : Nat
  code : UInt64
  count : UInt64
  start : Place
  ending : Place
  deriving DecidableEq

namespace StatusLine

inductive Code where
  | ok
  | error
  deriving DecidableEq

inductive Sw where
  | start
  | h
  | ht
  | htt
  | http
  | firstMajorDigit
  | majorDigit
  | firstMinorDigit
  | minorDigit
  | status
  | spaceAfterStatus
  | statusText
  | almostDone
  deriving DecidableEq

abbrev Step := Resumable.Step Code Sw StatusLine

def fail (r : StatusLine) : Step := .stop .error false id r

def done (p : Nat) (r : StatusLine) : Step :=
  .stop .ok true (fun _ => .start) { r with
    ending := r.ending.or (some p)
    httpVersion := r.httpMajor.toNat * 1000 + r.httpMinor.toNat }

def expect (c : UInt8) (state : Sw) (ch : UInt8) (r : StatusLine) : Step :=
  if ch = c then .next state r else fail r

def swStatus (p : Nat) (ch : UInt8) (r : StatusLine) : Step :=
  if ch = space then .next .status r
  else if !isDigit ch then fail r
  else
    let r := { r with code := r.code * 10 + (ch - 48).toUInt64, count := r.count + 1 }
    if r.count = 3 then .next .spaceAfterStatus { r with start := some (p - 2) }
    else .next .status r

def machine : Resumable.Machine Code Sw StatusLine := fun before ch state r =>
  let p := before.length
  match state with
  | .start => expect 72 .h ch r
  | .h => expect 84 .ht ch r
  | .ht => expect 84 .htt ch r
  | .htt => expect 80 .http ch r
  | .http => expect slash .firstMajorDigit ch r
  | .firstMajorDigit =>
      if ch < 49 ∨ 57 < ch then fail r
      else .next .majorDigit { r with httpMajor := (ch - 48).toUInt16 }
  | .majorDigit =>
      if ch = point then .next .firstMinorDigit r
      else if !isDigit ch then fail r
      else if 99 < r.httpMajor then fail r
      else .next .majorDigit { r with httpMajor := r.httpMajor * 10 + (ch - 48).toUInt16 }
  | .firstMinorDigit =>
      if !isDigit ch then fail r
      else .next .minorDigit { r with httpMinor := (ch - 48).toUInt16 }
  | .minorDigit =>
      if ch = space then .next .status r
      else if !isDigit ch then fail r
      else if 99 < r.httpMinor then fail r
      else .next .minorDigit { r with httpMinor := r.httpMinor * 10 + (ch - 48).toUInt16 }
  | .status => swStatus p ch r
  | .spaceAfterStatus =>
      if ch = space ∨ ch = point then .next .statusText r
      else if ch = carriageReturn then .next .almostDone r
      else if ch = newline then done p r
      else fail r
  | .statusText =>
      if ch = carriageReturn then .next .almostDone r
      else if ch = newline then done p r
      else .next .statusText r
  | .almostDone =>
      let r := { r with ending := some (p - 1) }
      if ch = newline then done p r else fail r

end StatusLine

/-- `ngx_http_parse_status_line`. -/
def parseStatusLine (before rest : Bytes) (state : StatusLine.Sw) (r : StatusLine) :
    Resumable.Reply StatusLine.Code StatusLine.Sw StatusLine :=
  Resumable.call StatusLine.machine before rest state r

end RebuildTheWheel.Nginx
