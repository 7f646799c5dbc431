import RebuildTheWheel.Httpd.Connection

namespace RebuildTheWheel.Httpd

open Data Data.Ascii

/-! One request to the rebuilt tinyhttpd, from `accept_request` on, in the process of the server. -/

structure Stat where
  isDir : Bool
  executable : Bool

/-- What the system does, and what the stack holds before. -/
structure System where
  stat : Bytes → Option Stat
  fopen : Bytes → Bool
  cgiOutputPipe : Bool
  cgiInputPipe : Bool
  fork : Bool
  -- what the CGI script writes
  script : Bytes
  requestBuf : Bytes
  cgiBuf : Bytes
  letter : UInt8

inductive Fd where
  | client
  | cgiOutputRead
  | cgiOutputWrite
  | cgiInputRead
  | cgiInputWrite
deriving DecidableEq

inductive Reply where
  | unimplemented
  | notFound
  | badRequest
  | cannotExecute
  | ok
  | file
deriving DecidableEq

inductive Event where
  | stat (path : Bytes)
  | serveFile (path : Bytes)
  | executeCgi (path method query : Bytes)
  | reply (reply : Reply)
  | pipe (reading writing : Fd)
  | fork (path method query : Bytes) (contentLength : Int32)
  | toCgi (c : UInt8)
  | toClient (c : UInt8)
  | close (fd : Fd)
deriving DecidableEq

structure World where
  incoming : Incoming
  events : List Event

def World.log (w : World) (event : Event) : World := { w with events := w.events ++ [event] }

/-- The world when a function returns, or when the process ends in it. -/
abbrev Run := Except World World

def Run.world : Run → World
  | .ok w => w
  | .error w => w

/-- `"GET"` -/
def get : Bytes := [71, 69, 84]

/-- `"POST"` -/
def post : Bytes := [80, 79, 83, 84]

/-- `"htdocs"` -/
def htdocs : Bytes := [104, 116, 100, 111, 99, 115]

/-- `"index.html"` -/
def indexHtml : Bytes := [105, 110, 100, 101, 120, 46, 104, 116, 109, 108]

def question : UInt8 := 63

def serveFile (sys : System) (filename : Bytes) (w : World) : Run :=
  let w := { w with incoming := discardHeaders [65] w.incoming }
  if sys.fopen filename then
    .ok (w.log (.reply .file))
  else
    -- `fclose` of the null pointer
    .error (w.log (.reply .notFound))

/-- The loop over the body of a `POST`. A `recv` that fails leaves the last byte in `c`. -/
def copyBody : Nat → UInt8 → World → World
  | 0, _, w => w
  | n + 1, c, w =>
      let c := match w.incoming with
        | some d :: _ => d
        | _ => c
      copyBody n c ({ w with incoming := w.incoming.tail }.log (.toCgi c))

def sendOutput (output : Bytes) (w : World) : World :=
  output.foldl (fun w c => w.log (.toClient c)) w

/-- The parent's side of `execute_cgi` after the fork. -/
def attendCgi (sys : System) (method : Bytes) (contentLength : Int32) (w : World) : World :=
  let w := (w.log (.close .cgiOutputWrite)).log (.close .cgiInputRead)
  let w := if sameCase method post then copyBody contentLength.toInt.toNat sys.letter w else w
  let w := sendOutput sys.script w
  (w.log (.close .cgiOutputRead)).log (.close .cgiInputWrite)

/-- The pipes and the fork of `execute_cgi`. -/
def startCgi (sys : System) (path method query : Bytes) (contentLength : Int32) (w : World) :
    World :=
  if !sys.cgiOutputPipe then w.log (.reply .cannotExecute)
  else
    let w := w.log (.pipe .cgiOutputRead .cgiOutputWrite)
    if !sys.cgiInputPipe then w.log (.reply .cannotExecute)
    else
      let w := w.log (.pipe .cgiInputRead .cgiInputWrite)
      if !sys.fork then w.log (.reply .cannotExecute)
      else
        let w := w.log (.fork path method query contentLength)
        attendCgi sys method contentLength (w.log (.reply .ok))

def executeCgi (sys : System) (path method query : Bytes) (w : World) : World :=
  if sameCase method get then
    startCgi sys path method query (-1) { w with incoming := discardHeaders [65] w.incoming }
  else if sameCase method post then
    let (contentLength, incoming) := readHeaders (65 :: 0 :: sys.cgiBuf.drop 2) w.incoming
    let w := { w with incoming := incoming }
    if contentLength = -1 then w.log (.reply .badRequest)
    else startCgi sys path method query contentLength w
  else startCgi sys path method query (-1) w

/-! The parts of the request line, where the buffer holds `numchars` characters and a NUL. -/

def methodOf (buf : Bytes) : Bytes := (buf.take 254).takeWhile (!isspace ·)

def urlOf (buf : Bytes) (numchars : Nat) : Bytes :=
  ((((buf.take numchars).drop (methodOf buf).length).dropWhile isspace).takeWhile
    (!isspace ·)).take 254

/-- The part of the URL in `path`, and the one behind a question mark. -/
def splitQuery (method url : Bytes) : Bytes × Option Bytes :=
  if sameCase method get then
    (url.takeWhile (· ≠ question),
      if question ∈ url then some (url.dropWhile (· ≠ question)).tail else none)
  else (url, none)

/-- `sprintf(path, "htdocs%s", url)`, and the page of a directory. -/
def pathOf (url : Bytes) : Bytes :=
  let path := htdocs ++ url
  if path.getLast? = some slash then path ++ indexHtml else path

/-- What `accept_request` takes from the request line, with the path part of the URL. -/
structure Request where
  method : Bytes
  url : Bytes
  query : Option Bytes

def request (sys : System) (line : Bytes) : Request :=
  let buf := fillBuf sys.requestBuf line
  let method := cString (methodOf buf)
  let (url, query) := splitQuery method (cString (urlOf buf line.length))
  { method, url, query }

/-- From `stat` to before `close`. -/
def answer (sys : System) (r : Request) (line : Bytes) (w : World) : Run :=
  let path := pathOf r.url
  let w := w.log (.stat path)
  match sys.stat path with
  | none =>
      .ok ({ w with incoming := discardHeaders line w.incoming }.log (.reply .notFound))
  | some st =>
      let path := if st.isDir then path ++ slash :: indexHtml else path
      let cgi := sameCase r.method post || r.query.isSome || st.executable
      if !cgi then serveFile sys path (w.log (.serveFile path))
      else
        let query := r.query.getD []
        .ok (executeCgi sys path r.method query (w.log (.executeCgi path r.method query)))

def acceptRequest (sys : System) (incoming : Incoming) : Run :=
  let (line, incoming) := getLine (bufSize - 1) incoming
  let w : World := ⟨incoming, []⟩
  let r := request sys line
  if !sameCase r.method get && !sameCase r.method post then .ok (w.log (.reply .unimplemented))
  else do
    let w ← answer sys r line w
    .ok (w.log (.close .client))

/-! What is seen of the events of a world, by what `f` shows of each. -/

@[simp] theorem Run.world_ok (w : World) : Run.world (.ok w) = w := rfl

@[simp] theorem Run.world_error (w : World) : Run.world (.error w) = w := rfl

section Shown

variable {β : Type} {f : Event → List β}

def World.shown (f : Event → List β) (w : World) : List β := w.events.flatMap f

@[simp] theorem World.shown_incoming (incoming : Incoming) (w : World) :
    { w with incoming := incoming }.shown f = w.shown f := rfl

@[simp] theorem World.shown_log (event : Event) (w : World) :
    (w.log event).shown f = w.shown f ++ f event := by
  simp [World.shown, World.log]

theorem shown_copyBody (h : ∀ c, f (.toCgi c) = []) (n : Nat) (c : UInt8) (w : World) :
    (copyBody n c w).shown f = w.shown f := by
  induction n generalizing c w with
  | zero => rfl
  | succ n ih => simp [copyBody, ih, h]

theorem shown_sendOutput (h : ∀ c, f (.toClient c) = []) (output : Bytes) (w : World) :
    (sendOutput output w).shown f = w.shown f := by
  unfold sendOutput
  induction output generalizing w with
  | nil => rfl
  | cons c output ih => simp [ih, h]

theorem shown_attendCgi (hcgi : ∀ c, f (.toCgi c) = []) (hclient : ∀ c, f (.toClient c) = [])
    (sys : System) (method : Bytes) (contentLength : Int32) (w : World) :
    (attendCgi sys method contentLength w).shown f =
      w.shown f ++ f (.close .cgiOutputWrite) ++ f (.close .cgiInputRead) ++
        f (.close .cgiOutputRead) ++ f (.close .cgiInputWrite) := by
  unfold attendCgi
  split_ifs <;> simp [shown_copyBody hcgi, shown_sendOutput hclient]

end Shown

end RebuildTheWheel.Httpd
