import RebuildTheWheel.Data.StringBuffer
import RebuildTheWheel.Httpd.Connection

namespace RebuildTheWheel.Webbench

open Data Data.Ascii Data.StringBuffer Httpd

/-! `build_request` of the rebuilt webbench. A result is `none` where the source stores outside a
buffer, or reads a string that does not end in its buffer. -/

def METHOD_GET : Int := 0
def METHOD_HEAD : Int := 1
def METHOD_OPTIONS : Int := 2
def METHOD_TRACE : Int := 3

abbrev MAXHOSTNAMELEN : Nat := 64

abbrev REQUEST_SIZE : Nat := 2048

/-- `char tmp[10]` -/
abbrev tmpSize : Nat := 10

/-- `"://"` -/
def delimiter : Bytes := [58, 47, 47]

/-- `"http://"` -/
def scheme : Bytes := [104, 116, 116, 112, 58, 47, 47]

/-- `" HTTP/1.0"` -/
def protocol10 : Bytes := [32, 72, 84, 84, 80, 47, 49, 46, 48]

/-- `" HTTP/1.1"` -/
def protocol11 : Bytes := [32, 72, 84, 84, 80, 47, 49, 46, 49]

def crlf : Bytes := [carriageReturn, newline]

/-- `"User-Agent: WebBench 1.5\\r\\n"` -/
def userAgent : Bytes :=
  [85, 115, 101, 114, 45, 65, 103, 101, 110, 116, 58, 32, 87, 101, 98, 66, 101, 110, 99, 104, 32,
    49, 46, 53, 13, 10]

/-- `"Host: "` -/
def hostName : Bytes := [72, 111, 115, 116, 58, 32]

/-- `"Pragma: no-cache\\r\\n"` -/
def pragma : Bytes :=
  [80, 114, 97, 103, 109, 97, 58, 32, 110, 111, 45, 99, 97, 99, 104, 101, 13, 10]

/-- `"Connection: close\\r\\n"` -/
def connectionClose : Bytes :=
  [67, 111, 110, 110, 101, 99, 116, 105, 111, 110, 58, 32, 99, 108, 111, 115, 101, 13, 10]

/-- The globals that `build_request` reads. -/
structure Options where
  method : Int
  forceReload : Bool
  proxyhost : Option CString
  http10 : Int

/-- What it sets. A URL without a port leaves `tmp` alone. -/
structure Built where
  host : Bytes
  tmp : Option Bytes
  proxyport : Int32
  request : Bytes

/-- `http10`, after it is adjusted. -/
def Options.adjusted (o : Options) : Int :=
  let http10 := if o.forceReload ∧ o.proxyhost ≠ none ∧ o.http10 < 1 then 1 else o.http10
  let http10 := if o.method = METHOD_HEAD ∧ http10 < 1 then 1 else http10
  let http10 := if o.method = METHOD_OPTIONS ∧ http10 < 2 then 2 else http10
  if o.method = METHOD_TRACE ∧ http10 < 2 then 2 else http10

def Options.methodName (o : Options) : Bytes :=
  if o.method = METHOD_HEAD then [72, 69, 65, 68]
  else if o.method = METHOD_OPTIONS then [79, 80, 84, 73, 79, 78, 83]
  else if o.method = METHOD_TRACE then [84, 82, 65, 67, 69]
  else [71, 69, 84]

/-- The offset `i` of the host, when nothing is wrong with the URL. -/
def hostOffset (o : Options) (url : Bytes) : Option Nat :=
  match strstr url delimiter with
  | none => none
  | some i =>
      if 1500 < url.length then none
      else if o.proxyhost = none ∧ ¬sameCase scheme (url.take 7) then none
      else if strchr (url.drop (i + 3)) slash = none then none
      else some (i + 3)

/-- What is left of a string behind the number that `atoi` reads. -/
def pastNumber (s : Bytes) : Bytes :=
  let s := s.dropWhile isspace
  let s := match s with
    | c :: rest => if c = minus ∨ c = plus then rest else s
    | [] => []
  s.dropWhile isDigit

/-- `atoi` on a buffer. The byte after the number is read. -/
def atoiIn (buf : Bytes) : Option Int32 := if pastNumber buf = [] then none else some (atoi buf)

/-- `int proxyport=80`, which no option of the program changes. -/
def initialPort : Int32 := 80

/-- The host and the port of `url+i`, without a proxy. -/
def setHost (rest : Bytes) : Option (Bytes × Option Bytes × Int32) := do
  let host := bzero MAXHOSTNAMELEN
  let end_ ← strchr rest slash
  match (strchr rest colon).filter (· < end_) with
  | some colonAt => do
      let host ← strncpy host rest colonAt
      let tmp ← strncpy (bzero tmpSize) (rest.drop (colonAt + 1)) (end_ - colonAt - 1)
      let proxyport ← atoiIn tmp
      some (host, some tmp, if proxyport = 0 then 80 else proxyport)
  | none => do
      let host ← strncpy host rest (strcspn rest slash)
      some (host, none, initialPort)

def strcatIf (c : Prop) [Decidable c] (dst src : Bytes) : Option Bytes :=
  if c then strcat dst src else some dst

def addProtocol (http10 : Int) (request : Bytes) : Option Bytes :=
  if http10 = 1 then strcat request protocol10 else strcatIf (http10 = 2) request protocol11

def addHost (o : Options) (http10 : Int) (host request : Bytes) : Option Bytes :=
  if o.proxyhost = none ∧ http10 > 0 then do
    let request ← strcat request hostName
    let request ← strcat request (← string? host)
    strcat request crlf
  else some request

/-- What is appended behind the address. -/
def addHeaders (o : Options) (host request : Bytes) : Option Bytes := do
  let http10 := o.adjusted
  let request ← addProtocol http10 request
  let request ← strcat request crlf
  let request ← strcatIf (http10 > 0) request userAgent
  let request ← addHost o http10 host request
  let request ← strcatIf (o.forceReload ∧ o.proxyhost ≠ none) request pragma
  let request ← strcatIf (http10 > 1) request connectionClose
  strcatIf (http10 > 0) request crlf

/-- `build_request` where the host is at the offset `i`. -/
def buildAt (o : Options) (url : Bytes) (i : Nat) : Option Built := do
  let request ← strcpy (bzero REQUEST_SIZE) o.methodName
  let request ← strcat request [space]
  match o.proxyhost with
  | none => do
      let (host, tmp, proxyport) ← setHost (url.drop i)
      let request ← strcat request (url.drop (i + strcspn (url.drop i) slash))
      let request ← addHeaders o host request
      some { host, tmp, proxyport, request }
  | some _ => do
      let request ← strcat request url
      let request ← addHeaders o (bzero MAXHOSTNAMELEN) request
      some { host := bzero MAXHOSTNAMELEN, tmp := none, proxyport := initialPort, request }

inductive Result where
  -- `exit(2)`, with a message
  | exit
  | undefined
  | built (b : Built)

def buildRequest (o : Options) (url : CString) : Result :=
  match hostOffset o url.1 with
  | none => .exit
  | some i =>
      match buildAt o url.1 i with
      | none => .undefined
      | some b => .built b

end RebuildTheWheel.Webbench

namespace RebuildTheWheel.Webbench

open Data Data.Ascii Data.StringBuffer Httpd

/-! What `build_request` writes, and when it fits. -/

/-- The least level that a method is sent with. -/
def Options.level (o : Options) : Int :=
  if o.method = METHOD_HEAD then max 1 o.http10
  else if o.method = METHOD_OPTIONS ∨ o.method = METHOD_TRACE then max 2 o.http10
  else if o.forceReload ∧ o.proxyhost ≠ none then max 1 o.http10
  else o.http10

/-- The end of the request line and the headers behind it. -/
def Options.headerTexts (o : Options) (host : Bytes) : List Bytes :=
  (if o.adjusted = 1 then [protocol10] else if o.adjusted = 2 then [protocol11] else []) ++
    ([crlf] ++ ((if o.adjusted > 0 then [userAgent] else []) ++
      ((if o.proxyhost = none ∧ o.adjusted > 0 then [hostName, host, crlf] else []) ++
        ((if o.forceReload ∧ o.proxyhost ≠ none then [pragma] else []) ++
          ((if o.adjusted > 1 then [connectionClose] else []) ++
            if o.adjusted > 0 then [crlf] else [])))))

variable {o : Options} {size : Nat} {request s t host hostBuf address : Bytes} {url : CString}

theorem strcatIf_eq (c : Prop) [Decidable c] (dst src : Bytes) :
    strcatIf c dst src = (if c then [src] else []).foldlM strcat dst := by
  unfold strcatIf
  split_ifs
  · exact (bind_pure _).symm
  · rfl

theorem addProtocol_eq (http10 : Int) (request : Bytes) :
    addProtocol http10 request =
      (if http10 = 1 then [protocol10] else if http10 = 2 then [protocol11] else []).foldlM
        strcat request := by
  rw [addProtocol, strcatIf_eq]
  split_ifs <;> simp

/-- Without a proxy the host is read from its buffer. -/
theorem addHost_eq (http10 : Int) (hhost : o.proxyhost = none → string? hostBuf = some host)
    (request : Bytes) :
    addHost o http10 hostBuf request =
      (if o.proxyhost = none ∧ http10 > 0 then [hostName, host, crlf] else []).foldlM
        strcat request := by
  unfold addHost
  split_ifs with hdirect
  · simp [hhost hdirect.1]
  · rfl

theorem addHeaders_eq (hhost : o.proxyhost = none → string? hostBuf = some host) (request : Bytes) :
    addHeaders o hostBuf request = (o.headerTexts host).foldlM strcat request := by
  simp only [addHeaders, addProtocol_eq, addHost_eq o.adjusted hhost, strcatIf_eq,
    Options.headerTexts, List.foldlM_append]
  simp

theorem nul_notMem_headerTexts (hclean : 0 ∉ host) : ∀ t ∈ o.headerTexts host, 0 ∉ t := by
  have hprotocol10 : 0 ∉ protocol10 := by decide
  have hprotocol11 : 0 ∉ protocol11 := by decide
  have hcrlf : 0 ∉ crlf := by decide
  have huserAgent : 0 ∉ userAgent := by decide
  have hhostName : 0 ∉ hostName := by decide
  have hpragma : 0 ∉ pragma := by decide
  have hclose : 0 ∉ connectionClose := by decide
  intro t ht
  simp only [Options.headerTexts, List.mem_append, List.mem_ite_nil_right, List.mem_cons,
    List.not_mem_nil, or_false] at ht
  split_ifs at ht <;> grind

theorem length_headerTexts_le (o : Options) (host : Bytes) :
    (o.headerTexts host).flatten.length ≤ host.length + 84 := by
  simp only [Options.headerTexts, List.flatten_append, List.length_append]
  have hp : ((if o.adjusted = 1 then [protocol10] else if o.adjusted = 2 then [protocol11]
      else []) : List Bytes).flatten.length ≤ 9 := by
    split_ifs <;> decide
  have hh : ((if o.proxyhost = none ∧ o.adjusted > 0 then [hostName, host, crlf]
      else []) : List Bytes).flatten.length ≤ host.length + 8 := by
    split_ifs
    · simp [hostName, crlf]
    · simp
  have hlength : ∀ (c : Prop) [Decidable c] (t : Bytes),
      ((if c then [t] else []) : List Bytes).flatten.length ≤ t.length := by
    intro c _ t
    split_ifs <;> simp
  have h1 := hlength (o.adjusted > 0) userAgent
  have h2 := hlength (o.forceReload ∧ o.proxyhost ≠ none) pragma
  have h3 := hlength (o.adjusted > 1) connectionClose
  have h4 := hlength (o.adjusted > 0) crlf
  have : userAgent.length = 26 := rfl
  have : pragma.length = 18 := rfl
  have : connectionClose.length = 19 := rfl
  have : crlf.length = 2 := rfl
  have : [crlf].flatten.length = 2 := rfl
  omega

theorem methodName_bounds (o : Options) : 0 ∉ o.methodName ∧ o.methodName.length ≤ 7 := by
  unfold Options.methodName
  split_ifs <;> decide
/-- A part of the URL, in a buffer that was cleared. -/
def filled (size : Nat) (s : Bytes) : Bytes := s ++ List.replicate (size - s.length) 0

theorem strncpy_part (size : Nat) (s rest : Bytes) :
    strncpy (bzero size) (s ++ rest) s.length =
      if s.length ≤ size then some (filled size s) else none := by
  have hle : s.length ≤ (s ++ rest).length := by
    rw [List.length_append]
    exact Nat.le_add_right _ _
  rw [strncpy_bzero size hle, List.take_left, filled]

variable {h p rest : Bytes}

theorem setHost_plain (hslash : slash ∉ h) (hcolon : colon ∉ h) (rest : Bytes) :
    setHost (h ++ slash :: rest) =
      if h.length ≤ MAXHOSTNAMELEN then some (filled MAXHOSTNAMELEN h, none, initialPort)
      else none := by
  rw [setHost]
  simp only [strchr_append hslash, Option.bind_eq_bind, Option.bind_some, filter_strchr hcolon,
    strcspn_append hslash, strncpy_part]
  split_ifs <;> rfl

theorem setHost_port (hslash : slash ∉ h) (hcolon : colon ∉ h) (hport : slash ∉ p) (rest : Bytes) :
    setHost (h ++ colon :: (p ++ slash :: rest)) =
      if h.length ≤ MAXHOSTNAMELEN ∧ p.length ≤ tmpSize then
        (atoiIn (filled tmpSize p)).map fun port =>
          (filled MAXHOSTNAMELEN h, some (filled tmpSize p), if port = 0 then 80 else port)
      else none := by
  have hall : slash ∉ h ++ colon :: p := by
    rw [List.mem_append, List.mem_cons, not_or, not_or]
    exact ⟨hslash, by decide, hport⟩
  have hend : strchr (h ++ colon :: (p ++ slash :: rest)) slash = some (h.length + 1 + p.length) := by
    have := strchr_append hall rest
    simpa [Nat.add_assoc, Nat.add_comm 1] using this
  have hdrop : (h ++ colon :: (p ++ slash :: rest)).drop (h.length + 1) = p ++ slash :: rest := by
    rw [List.append_cons, List.drop_left' (by simp)]
  have hlength : h.length + 1 + p.length - h.length - 1 = p.length := by omega
  have hlt : h.length < h.length + 1 + p.length := by omega
  rw [setHost]
  simp only [hend, strchr_append hcolon, Option.bind_eq_bind, Option.bind_some, Option.filter_some,
    hlt, decide_true, if_true, strncpy_part, hdrop, hlength]
  by_cases hh : h.length ≤ MAXHOSTNAMELEN
  · by_cases hp : p.length ≤ tmpSize
    · rw [if_pos hh, if_pos hp, if_pos (And.intro hh hp), Option.map_eq_bind]
      rfl
    · have hboth : ¬(h.length ≤ MAXHOSTNAMELEN ∧ p.length ≤ tmpSize) := fun hboth => hp hboth.2
      rw [if_pos hh, if_neg hp, if_neg hboth]
      rfl
  · have hboth : ¬(h.length ≤ MAXHOSTNAMELEN ∧ p.length ≤ tmpSize) := fun hboth => hh hboth.1
    rw [if_neg hh, if_neg hboth]
    rfl

/-- Where the address is not shorter than the buffer, there is no room for the NUL. -/
theorem string_filled (hs : 0 ∉ s) (size : Nat) :
    string? (filled size s) = if s.length < size then some s else none := by
  split_ifs with hfits
  · exact (holds_filled hs hfits).string
  · rw [string?_eq_none, filled, Nat.sub_eq_zero_of_le (Nat.le_of_not_lt hfits)]
    simpa using hs

/-! The number in `tmp`. -/

theorem mem_dropWhile {q : UInt8 → Bool} (hmem : c ∈ s) (hc : q c = false) : c ∈ s.dropWhile q := by
  induction s with
  | nil => cases hmem
  | cons x s ih =>
      rw [List.dropWhile_cons]
      split_ifs with hx
      · rcases List.mem_cons.mp hmem with rfl | hmem
        · exact absurd hx (Bool.eq_false_iff.mp hc)
        · exact ih hmem
      · exact hmem

/-- A NUL ends every number. -/
theorem pastNumber_ne_nil (hmem : 0 ∈ s) : pastNumber s ≠ [] := by
  have hspaces : 0 ∈ s.dropWhile isspace := mem_dropWhile hmem rfl
  unfold pastNumber
  apply List.ne_nil_of_mem (a := (0 : UInt8))
  apply mem_dropWhile _ rfl
  cases hs : s.dropWhile isspace with
  | nil => exact absurd (hs ▸ hspaces) List.not_mem_nil
  | cons c rest =>
      rw [hs] at hspaces
      dsimp only
      split_ifs with hsign
      · rcases List.mem_cons.mp hspaces with rfl | hmem
        · exact absurd hsign (by decide)
        · exact hmem
      · exact hspaces

theorem atoiIn_filled (hfits : p.length < size) : atoiIn (filled size p) = some (atoi (filled size p)) := by
  have hmem : 0 ∈ filled size p := by
    rw [filled, List.mem_append, List.mem_replicate]
    exact .inr ⟨by omega, rfl⟩
  rw [atoiIn, if_neg (pastNumber_ne_nil hmem)]

theorem atoi_filled (hdigits : ∀ c ∈ p, isDigit c = true) (hfits : p.length < tmpSize) :
    (atoi (filled tmpSize p)).toInt = digitsValue p := by
  have hvalue : digitsValue p < 2 ^ 31 := by
    have hle : 10 ^ p.length ≤ 10 ^ 9 := Nat.pow_le_pow_right (by decide) (Nat.le_of_lt_succ hfits)
    have hlt := digitsValue_lt hdigits
    omega
  cases p with
  | nil =>
      have hfilled : filled tmpSize [] = 0 :: List.replicate 9 0 := rfl
      have hspace : ¬isspace 0 = true := by decide
      have hdigit : ¬isDigit 0 = true := by decide
      have hminus : ¬(0 : UInt8) = minus := by decide
      have hplus : ¬(0 : UInt8) = plus := by decide
      rw [hfilled, atoi, List.dropWhile_cons_of_neg hspace]
      simp only [digitsValue, List.takeWhile_cons_of_neg hdigit, if_neg hminus, if_neg hplus,
        List.takeWhile_nil, List.foldl_nil]
      rw [Int32.toInt_ofInt_of_le (by omega) (by omega)]
      omega
  | cons d p =>
      have hblanks : ∀ c ∈ ([] : Bytes), isspace c = true := fun c hc => absurd hc List.not_mem_nil
      have hrest : ∀ c ∈ List.replicate (tmpSize - (d :: p).length) (0 : UInt8), isDigit c = false := by
        intro c hc
        rw [List.eq_of_mem_replicate hc]
        rfl
      have hnumber := atoi_blanks hblanks (List.cons_ne_nil d p) hdigits hrest hvalue
      rw [List.nil_append] at hnumber
      rw [filled, hnumber]

/-! The request. -/

def Options.requestText (o : Options) (address host : Bytes) : Bytes :=
  (o.methodName :: [space] :: address :: o.headerTexts host).flatten

theorem length_requestText_le (o : Options) (address host : Bytes) :
    (o.requestText address host).length ≤ address.length + host.length + 92 := by
  have hmethod := (methodName_bounds o).2
  have hheaders := length_headerTexts_le o host
  simp only [Options.requestText, List.flatten_cons, List.length_append, List.length_singleton]
  omega

theorem writeRequest_holds (haddress : 0 ∉ address) (hclean : 0 ∉ host)
    (hhost : o.proxyhost = none → string? hostBuf = some host)
    (hfits : address.length + host.length + 92 < REQUEST_SIZE) :
    ∃ request, (do
        let request ← strcpy (bzero REQUEST_SIZE) o.methodName
        let request ← strcat request [space]
        let request ← strcat request address
        addHeaders o hostBuf request) = some request ∧
      Holds REQUEST_SIZE request (o.requestText address host) := by
  have hempty : Holds REQUEST_SIZE (bzero REQUEST_SIZE) [] := holds_bzero (by decide)
  have htexts : ∀ t ∈ o.methodName :: [space] :: address :: o.headerTexts host, 0 ∉ t := by
    refine List.forall_mem_cons.mpr ⟨(methodName_bounds o).1, List.forall_mem_cons.mpr ⟨by decide,
      List.forall_mem_cons.mpr ⟨haddress, nul_notMem_headerTexts hclean⟩⟩⟩
  have hfits := length_requestText_le o address host
  rw [Options.requestText] at hfits
  obtain ⟨request, hrequest, hholds⟩ :=
    hempty.strcats htexts (by simp only [List.length_nil]; omega)
  refine ⟨request, ?_, hholds⟩
  rw [strcpy_eq_strcat hempty]
  simp only [addHeaders_eq hhost]
  exact hrequest

/-! The address, which is the URL behind `://`. -/

def hostText (address : Bytes) : Bytes := address.takeWhile fun c => c ≠ slash && c ≠ colon

def portText (address : Bytes) : Bytes := ((address.takeWhile (· ≠ slash)).dropWhile (· ≠ colon)).tail

def pathText (address : Bytes) : Bytes := address.dropWhile (· ≠ slash)

/-- An address without a port, or with one. -/
inductive Address : Bytes → Prop where
  | plain (h rest : Bytes) : slash ∉ h → colon ∉ h → Address (h ++ slash :: rest)
  | port (h p rest : Bytes) : slash ∉ h → colon ∉ h → slash ∉ p →
      Address (h ++ colon :: (p ++ slash :: rest))

variable {h p : Bytes}

theorem address_of_slash (hmem : slash ∈ address) : Address address := by
  obtain ⟨authority, rest, rfl, hslash⟩ := List.eq_append_cons_of_mem hmem
  by_cases hcolon : colon ∈ authority
  · obtain ⟨h, p, rfl, hh⟩ := List.eq_append_cons_of_mem hcolon
    rw [List.mem_append, List.mem_cons, not_or, not_or] at hslash
    rw [List.append_assoc, List.cons_append]
    exact .port h p rest hslash.1 hh hslash.2.2
  · exact .plain authority rest hslash hcolon

theorem hostText_append (hslash : slash ∉ h) (hcolon : colon ∉ h) {c : UInt8}
    (hc : c = slash ∨ c = colon) (rest : Bytes) : hostText (h ++ c :: rest) = h := by
  have hall : ∀ x ∈ h, (x ≠ slash && x ≠ colon) = true := by
    intro x hx
    simp [ne_of_mem_of_not_mem hx hslash, ne_of_mem_of_not_mem hx hcolon]
  have hstop : ¬(c ≠ slash && c ≠ colon) = true := by
    rcases hc with rfl | rfl <;> decide
  rw [hostText, List.takeWhile_append_of_pos hall]
  exact (congrArg (h ++ ·) (List.takeWhile_cons_of_neg hstop)).trans (List.append_nil h)

theorem takeWhile_slash (hslash : slash ∉ h) (rest : Bytes) :
    (h ++ slash :: rest).takeWhile (· ≠ slash) = h := by
  have hall : ∀ x ∈ h, decide (x ≠ slash) = true := fun x hx =>
    decide_eq_true (ne_of_mem_of_not_mem hx hslash)
  rw [List.takeWhile_append_of_pos hall, List.takeWhile_cons_of_neg (by decide), List.append_nil]

theorem pathText_append (hslash : slash ∉ h) (rest : Bytes) :
    pathText (h ++ slash :: rest) = slash :: rest := by
  have hall : ∀ x ∈ h, decide (x ≠ slash) = true := fun x hx =>
    decide_eq_true (ne_of_mem_of_not_mem hx hslash)
  rw [pathText, List.dropWhile_append_of_pos hall, List.dropWhile_cons_of_neg (by decide)]

theorem portText_plain (hslash : slash ∉ h) (hcolon : colon ∉ h) (rest : Bytes) :
    portText (h ++ slash :: rest) = [] := by
  have hall : ∀ x ∈ h, decide (x ≠ colon) = true := fun x hx =>
    decide_eq_true (ne_of_mem_of_not_mem hx hcolon)
  rw [portText, takeWhile_slash hslash, List.dropWhile_eq_nil_iff.mpr hall]
  rfl

theorem notMem_authority (hslash : slash ∉ h) (hp : slash ∉ p) : slash ∉ h ++ colon :: p := by
  rw [List.mem_append, List.mem_cons, not_or, not_or]
  exact ⟨hslash, by decide, hp⟩

theorem portText_port (hslash : slash ∉ h) (hcolon : colon ∉ h) (hp : slash ∉ p) (rest : Bytes) :
    portText (h ++ colon :: (p ++ slash :: rest)) = p := by
  have hall : ∀ x ∈ h, decide (x ≠ colon) = true := fun x hx =>
    decide_eq_true (ne_of_mem_of_not_mem hx hcolon)
  have hauthority := takeWhile_slash (notMem_authority hslash hp) rest
  rw [List.append_assoc, List.cons_append] at hauthority
  rw [portText, hauthority, List.dropWhile_append_of_pos hall, List.dropWhile_cons_of_neg (by decide),
    List.tail_cons]

theorem setHost_defined (hmem : slash ∈ address) (hhost : (hostText address).length < MAXHOSTNAMELEN)
    (hport : (portText address).length < tmpSize) :
    ∃ tmp port, setHost address = some (filled MAXHOSTNAMELEN (hostText address), tmp, port) := by
  cases address_of_slash hmem with
  | plain h rest hslash hcolon =>
      rw [hostText_append hslash hcolon (.inl rfl)] at hhost ⊢
      rw [setHost_plain hslash hcolon, if_pos hhost.le]
      exact ⟨none, initialPort, rfl⟩
  | port h p rest hslash hcolon hp =>
      rw [hostText_append hslash hcolon (.inr rfl)] at hhost ⊢
      rw [portText_port hslash hcolon hp] at hport
      rw [setHost_port hslash hcolon hp, if_pos ⟨hhost.le, hport.le⟩, atoiIn_filled hport]
      exact ⟨_, _, rfl⟩

/-! The URL. -/

theorem tolower_scheme (c : UInt8) :
    (tolower c = 58 → c = 58) ∧ (tolower c = 47 → c = 47) ∧ (tolower c = 104 → 58 ≠ c) ∧
      (tolower c = 116 → 58 ≠ c) ∧ (tolower c = 112 → 58 ≠ c) := by
  revert c
  apply forall_byte
  decide

theorem strstr_scheme {text : Bytes} (hscheme : sameCase scheme (text.take 7) = true) :
    strstr text delimiter = some 4 := by
  have hmap : scheme.map tolower = (text.take 7).map tolower := of_decide_eq_true hscheme
  rcases text with _ | ⟨c₀, _ | ⟨c₁, _ | ⟨c₂, _ | ⟨c₃, _ | ⟨c₄, _ | ⟨c₅, _ | ⟨c₆, text⟩⟩⟩⟩⟩⟩⟩ <;>
    simp only [scheme, List.take_nil, List.take_succ_cons, List.take_zero, List.map_cons, List.map_nil,
      List.cons.injEq, reduceCtorEq, and_false, and_true] at hmap
  obtain ⟨h₀, h₁, h₂, h₃, h₄, h₅, h₆⟩ := hmap
  have h₀ := (tolower_scheme c₀).2.2.1 h₀.symm
  have h₁ := (tolower_scheme c₁).2.2.2.1 h₁.symm
  have h₂ := (tolower_scheme c₂).2.2.2.1 h₂.symm
  have h₃ := (tolower_scheme c₃).2.2.2.2 h₃.symm
  obtain rfl := (tolower_scheme c₄).1 h₄.symm
  obtain rfl := (tolower_scheme c₅).2.1 h₅.symm
  obtain rfl := (tolower_scheme c₆).2.1 h₆.symm
  rw [delimiter, strstr_cons_of_ne h₀, strstr_cons_of_ne h₁, strstr_cons_of_ne h₂,
    strstr_cons_of_ne h₃]
  have hend : strstr ([58, 47, 47] ++ text) [58, 47, 47] = some 0 := strstr_append _ _
  exact congrArg (Option.map _) (congrArg (Option.map _) (congrArg (Option.map _)
    (congrArg (Option.map _) hend)))

theorem hostOffset_some {text : Bytes} {i : Nat} (h : hostOffset o text = some i) :
    text.length ≤ 1500 ∧ slash ∈ text.drop i ∧ (o.proxyhost = none → i = 7) := by
  unfold hostOffset at h
  cases hdelimiter : strstr text delimiter with
  | none => rw [hdelimiter] at h; exact nomatch h
  | some k =>
      rw [hdelimiter] at h
      dsimp only at h
      split_ifs at h with hlength hscheme hslash
      obtain rfl := Option.some.inj h
      refine ⟨Nat.le_of_not_lt hlength, ?_, fun ho => ?_⟩
      · by_contra hmem
        exact hslash (strchr_eq_none.mpr hmem)
      · have hsame : sameCase scheme (text.take 7) = true := by
          by_contra hother
          exact hscheme ⟨ho, hother⟩
        rw [strstr_scheme hsame] at hdelimiter
        rw [← Option.some.inj hdelimiter]

theorem drop_strcspn (s : Bytes) (c : UInt8) : s.drop (strcspn s c) = s.dropWhile (· ≠ c) := by
  have hsplit := congrArg (List.drop (strcspn s c)) (List.takeWhile_append_dropWhile (p := (· ≠ c)) (l := s))
  rw [← hsplit, strcspn, List.drop_left]

theorem length_parts_le (hmem : slash ∈ address) :
    (pathText address).length + (hostText address).length ≤ address.length := by
  cases address_of_slash hmem with
  | plain h rest hslash hcolon =>
      rw [hostText_append hslash hcolon (.inl rfl), pathText_append hslash, List.length_append]
      exact Nat.le_of_eq (Nat.add_comm _ _)
  | port h p rest hslash hcolon hp =>
      have hpath := pathText_append (notMem_authority hslash hp) rest
      rw [List.append_assoc, List.cons_append] at hpath
      rw [hostText_append hslash hcolon (.inr rfl), hpath]
      simp only [List.length_append, List.length_cons]
      omega

theorem nul_notMem_part {part text : Bytes} (hclean : 0 ∉ text) (hpart : part.Sublist text) : 0 ∉ part :=
  fun hmem => hclean (hpart.subset hmem)

theorem pathText_sublist (address : Bytes) : (pathText address).Sublist address :=
  List.dropWhile_sublist _

theorem hostText_sublist (address : Bytes) : (hostText address).Sublist address :=
  List.takeWhile_sublist _

theorem buildAt_direct {text : Bytes} {i : Nat} {tmp : Option Bytes} {port : Int32}
    (ho : o.proxyhost = none) (hclean : 0 ∉ text) (hlength : text.length ≤ 1500)
    (hslash : slash ∈ text.drop i)
    (hhost : (hostText (text.drop i)).length < MAXHOSTNAMELEN)
    (hset : setHost (text.drop i) =
      some (filled MAXHOSTNAMELEN (hostText (text.drop i)), tmp, port)) :
    ∃ request, buildAt o text i =
        some ⟨filled MAXHOSTNAMELEN (hostText (text.drop i)), tmp, port, request⟩ ∧
      Holds REQUEST_SIZE request
        (o.requestText (pathText (text.drop i)) (hostText (text.drop i))) := by
  have haddress : 0 ∉ text.drop i := nul_notMem_part hclean (List.drop_sublist i text)
  have hhostClean := nul_notMem_part haddress (hostText_sublist _)
  have hpath : text.drop (i + strcspn (text.drop i) slash) = pathText (text.drop i) := by
    rw [← List.drop_drop, drop_strcspn, pathText]
  have hparts := length_parts_le hslash
  rw [List.length_drop] at hparts
  obtain ⟨request, hwrite, hholds⟩ := writeRequest_holds (o := o)
    (nul_notMem_part haddress (pathText_sublist _)) hhostClean
    (fun _ => (string_filled hhostClean MAXHOSTNAMELEN).trans (if_pos hhost)) (by show _ < 2048; omega)
  obtain ⟨r₁, hr₁, hwrite⟩ := Option.bind_eq_some_iff.mp hwrite
  obtain ⟨r₂, hr₂, hwrite⟩ := Option.bind_eq_some_iff.mp hwrite
  obtain ⟨r₃, hr₃, hwrite⟩ := Option.bind_eq_some_iff.mp hwrite
  refine ⟨request, ?_, hholds⟩
  simp only [buildAt, hr₁, hr₂, ho, hset, hpath, hr₃, hwrite, Option.bind_eq_bind, Option.bind_some]

theorem buildAt_proxy {text : Bytes} {proxy : CString} (ho : o.proxyhost = some proxy) (hclean : 0 ∉ text)
    (hlength : text.length ≤ 1500) (i : Nat) :
    ∃ request, buildAt o text i = some ⟨bzero MAXHOSTNAMELEN, none, initialPort, request⟩ := by
  have hhost : o.proxyhost = none → string? (bzero MAXHOSTNAMELEN) = some [] := fun hnone =>
    absurd (ho.symm.trans hnone) (Option.some_ne_none proxy)
  have hfits : text.length + ([] : Bytes).length + 92 < REQUEST_SIZE := by
    show text.length + 0 + 92 < 2048
    omega
  obtain ⟨request, hwrite, -⟩ := writeRequest_holds hclean List.not_mem_nil hhost hfits
  obtain ⟨r₁, hr₁, hwrite⟩ := Option.bind_eq_some_iff.mp hwrite
  obtain ⟨r₂, hr₂, hwrite⟩ := Option.bind_eq_some_iff.mp hwrite
  obtain ⟨r₃, hr₃, hwrite⟩ := Option.bind_eq_some_iff.mp hwrite
  refine ⟨request, ?_⟩
  simp only [buildAt, hr₁, hr₂, ho, hr₃, hwrite, Option.bind_eq_bind, Option.bind_some]

theorem isSome_string_filled (hs : 0 ∉ s) (size : Nat) :
    (string? (filled size s)).isSome ↔ s.length < size := by
  rw [string_filled hs]
  split_ifs with hfits <;> simp [hfits]

/-- What `setHost` has filled holds strings when there was room for their ends. -/
theorem setHost_strings {tmp : Option Bytes} {port : Int32} (hclean : 0 ∉ address)
    (hmem : slash ∈ address) (hset : setHost address = some (hostBuf, tmp, port)) :
    ((string? hostBuf).isSome ∧ ∀ t ∈ tmp, (string? t).isSome) ↔
      (hostText address).length < MAXHOSTNAMELEN ∧ (portText address).length < tmpSize := by
  have hhost := nul_notMem_part hclean (hostText_sublist address)
  cases address_of_slash hmem with
  | plain h rest hslash hcolon =>
      rw [hostText_append hslash hcolon (.inl rfl)] at hhost ⊢
      rw [setHost_plain hslash hcolon] at hset
      split_ifs at hset
      obtain ⟨rfl, rfl, -⟩ := hset
      rw [isSome_string_filled hhost, portText_plain hslash hcolon]
      exact and_congr_right fun _ => iff_of_true (fun t ht => nomatch ht) (by decide)
  | port h p rest hslash hcolon hp =>
      rw [hostText_append hslash hcolon (.inr rfl)] at hhost ⊢
      rw [setHost_port hslash hcolon hp] at hset
      split_ifs at hset
      obtain ⟨port', -, hport⟩ := Option.map_eq_some_iff.mp hset
      obtain ⟨rfl, rfl, -⟩ := hport
      have hpclean : 0 ∉ p := nul_notMem_part hclean
        (((List.sublist_append_left p _).cons _).trans (List.sublist_append_right _ _))
      rw [isSome_string_filled hhost, portText_port hslash hcolon hp, ← isSome_string_filled hpclean]
      simp only [Option.mem_some_iff, forall_eq']

theorem buildAt_set {text : Bytes} {i : Nat} {b : Built} (ho : o.proxyhost = none)
    (hbuilt : buildAt o text i = some b) :
    setHost (text.drop i) = some (b.host, b.tmp, b.proxyport) := by
  simp only [buildAt, ho, Option.bind_eq_bind, Option.bind_eq_some_iff] at hbuilt
  obtain ⟨_, -, _, -, ⟨host, tmp, port⟩, hset, _, -, _, -, hb⟩ := hbuilt
  rw [hset, ← Option.some.inj hb]

/-- No store is outside a buffer, and `host` and `tmp` hold strings. -/
def Result.Fits : Result → Prop
  | .built b => (string? b.host).isSome ∧ ∀ t ∈ b.tmp, (string? t).isSome
  | .exit => False
  | .undefined => False

theorem short_of_fits (ho : o.proxyhost = none) (hoffset : hostOffset o url.1 = some 7)
    (hfits : (buildRequest o url).Fits) :
    (hostText (url.1.drop 7)).length < MAXHOSTNAMELEN ∧
      (portText (url.1.drop 7)).length < tmpSize := by
  have hslash := (hostOffset_some hoffset).2.1
  have haddress : 0 ∉ url.1.drop 7 := nul_notMem_part url.2 (List.drop_sublist 7 url.1)
  rw [buildRequest, hoffset] at hfits
  dsimp only at hfits
  cases hbuilt : buildAt o url.1 7 with
  | none =>
      rw [hbuilt] at hfits
      exact hfits.elim
  | some b =>
      rw [hbuilt] at hfits
      exact (setHost_strings haddress hslash (buildAt_set ho hbuilt)).mp hfits

theorem fits_of_short (ho : o.proxyhost = none) (hoffset : hostOffset o url.1 = some 7)
    (hhost : (hostText (url.1.drop 7)).length < MAXHOSTNAMELEN)
    (hport : (portText (url.1.drop 7)).length < tmpSize) : (buildRequest o url).Fits := by
  obtain ⟨hlength, hslash, -⟩ := hostOffset_some hoffset
  have haddress : 0 ∉ url.1.drop 7 := nul_notMem_part url.2 (List.drop_sublist 7 url.1)
  obtain ⟨tmp, port, hset⟩ := setHost_defined hslash hhost hport
  obtain ⟨request, hbuilt, -⟩ := buildAt_direct ho url.2 hlength hslash hhost hset
  rw [buildRequest, hoffset]
  dsimp only
  rw [hbuilt]
  exact (setHost_strings haddress hslash hset).mpr ⟨hhost, hport⟩

/-- The buffers are large enough for a URL that is accepted if and only if its host and its port,
which are not checked, are short. With a proxy they are not copied. -/
theorem buildRequest_fits_iff (o : Options) (url : CString) (haccepted : buildRequest o url ≠ .exit) :
    (buildRequest o url).Fits ↔
      (o.proxyhost = none → (hostText (url.1.drop 7)).length < MAXHOSTNAMELEN ∧
        (portText (url.1.drop 7)).length < tmpSize) := by
  cases hoffset : hostOffset o url.1 with
  | none =>
      rw [buildRequest, hoffset] at haccepted
      exact absurd rfl haccepted
  | some i =>
      obtain ⟨hlength, -, hseven⟩ := hostOffset_some hoffset
      cases ho : o.proxyhost with
      | some proxy =>
          obtain ⟨request, hbuilt⟩ := buildAt_proxy ho url.2 hlength i
          have hempty : Holds MAXHOSTNAMELEN (bzero MAXHOSTNAMELEN) [] := holds_bzero (by decide)
          rw [buildRequest, hoffset]
          dsimp only
          rw [hbuilt]
          refine iff_of_true ⟨?_, fun t ht => nomatch ht⟩ fun hnone => nomatch hnone
          rw [hempty.string]
          rfl
      | none =>
          obtain rfl := hseven ho
          rw [imp_iff_right rfl]
          exact ⟨short_of_fits ho hoffset, fun hshort => fits_of_short ho hoffset hshort.1 hshort.2⟩

theorem accepted (hoffset : hostOffset o url.1 = some i) : buildRequest o url ≠ .exit := by
  rw [buildRequest, hoffset]
  dsimp only
  split <;> exact Result.noConfusion

/-- The host of a URL that is accepted is not measured. -/
theorem not_fits_of_long (ho : o.proxyhost = none) (hoffset : hostOffset o url.1 = some 7)
    (hlong : MAXHOSTNAMELEN ≤ (hostText (url.1.drop 7)).length) :
    ∃ o url, buildRequest o url ≠ .exit ∧ ¬(buildRequest o url).Fits := by
  refine ⟨o, url, accepted hoffset, fun hfits => ?_⟩
  exact Nat.not_lt_of_le hlong (short_of_fits ho hoffset hfits).1

def plainGet : Options := { method := METHOD_GET, forceReload := false, proxyhost := none, http10 := 1 }

/-- `http://a:8080/` -/
def shortUrl : CString := ⟨scheme ++ [97, 58, 56, 48, 56, 48, 47], by decide⟩

theorem buildRequest_fits_short : (buildRequest plainGet shortUrl).Fits := by
  have hoffset : hostOffset plainGet shortUrl.1 = some 7 := by decide
  rw [buildRequest_fits_iff plainGet shortUrl (accepted hoffset)]
  intro _
  decide

/-- `http://`, a host of 64 bytes and a slash. -/
def longUrl : CString := ⟨scheme ++ List.replicate 64 97 ++ [slash], by decide⟩

/-- The host fills its buffer, and is not terminated. -/
theorem buildRequest_fits_fails :
    ¬∀ (o : Options) (url : CString), buildRequest o url ≠ .exit → (buildRequest o url).Fits := by
  have hoffset : hostOffset plainGet longUrl.1 = some 7 := by decide
  have hhost : hostText (longUrl.1.drop 7) = List.replicate 64 97 :=
    hostText_append (by decide) (by decide) (.inl rfl) []
  have hlong : MAXHOSTNAMELEN ≤ (hostText (longUrl.1.drop 7)).length := by
    rw [hhost, List.length_replicate]
  obtain ⟨o, url, haccepted, hunfit⟩ := not_fits_of_long rfl hoffset hlong
  exact fun h => hunfit (h o url haccepted)

end RebuildTheWheel.Webbench
