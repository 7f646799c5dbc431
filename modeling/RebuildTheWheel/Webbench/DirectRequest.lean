import RebuildTheWheel.Webbench.BuildRequest

namespace RebuildTheWheel.Webbench

open Data Data.Ascii Data.StringBuffer Httpd

/-! The request that `build_request` sends to a host without a proxy. -/

/-- `http://host[:port]/rest`, where the port is a number. -/
structure DirectUrl where
  host : Bytes
  port : Option Bytes
  rest : Bytes
  slash_notMem : slash ∉ host
  colon_notMem : colon ∉ host
  host_short : host.length < MAXHOSTNAMELEN
  port_digits : ∀ p ∈ port, p.length ≤ 9 ∧ ∀ c ∈ p, isDigit c = true

def DirectUrl.address (u : DirectUrl) : Bytes :=
  match u.port with
  | none => u.host ++ slash :: u.rest
  | some p => u.host ++ colon :: (p ++ slash :: u.rest)

def DirectUrl.text (u : DirectUrl) : Bytes := scheme ++ u.address

/-- The port that is connected to. -/
def DirectUrl.portNumber (u : DirectUrl) : Nat :=
  match u.port with
  | none => 80
  | some p => if digitsValue p = 0 then 80 else digitsValue p

def protocolToken (level : Int) : Bytes :=
  if level = 1 then protocol10 else if level = 2 then protocol11 else []

/-- The headers of a level, and the empty line behind them. -/
def headers (level : Int) (host : Bytes) : Bytes :=
  if level > 0 then
    userAgent ++ hostName ++ host ++ crlf ++ (if level > 1 then connectionClose else []) ++ crlf
  else []

def DirectUrl.requestText (u : DirectUrl) (o : Options) : Bytes :=
  o.methodName ++ [space] ++ slash :: u.rest ++ protocolToken o.level ++ crlf ++
    headers o.level u.host

variable {o : Options} {u : DirectUrl}

theorem Options.adjusted_eq_level (o : Options) : o.adjusted = o.level := by
  have hhead : METHOD_HEAD ≠ METHOD_OPTIONS ∧ METHOD_HEAD ≠ METHOD_TRACE := by decide
  unfold Options.adjusted Options.level
  grind

theorem requestText_direct (ho : o.proxyhost = none) (u : DirectUrl) :
    o.requestText (slash :: u.rest) u.host = u.requestText o := by
  simp only [Options.requestText, Options.headerTexts, DirectUrl.requestText, headers, protocolToken,
    ← o.adjusted_eq_level, ho]
  split_ifs <;> simp_all
  omega

theorem digit_ne_slash {c : UInt8} (hc : isDigit c = true) : c ≠ slash := by
  rintro rfl
  exact absurd hc (by decide)

theorem DirectUrl.slash_notMem_port {p : Bytes} (hp : p ∈ u.port) : slash ∉ p := fun hmem =>
  digit_ne_slash ((u.port_digits p hp).2 slash hmem) rfl

theorem DirectUrl.slash_mem (u : DirectUrl) : slash ∈ u.address := by
  unfold DirectUrl.address
  split <;> simp

theorem DirectUrl.hostText_eq (u : DirectUrl) : hostText u.address = u.host := by
  unfold DirectUrl.address
  split
  · exact hostText_append u.slash_notMem u.colon_notMem (.inl rfl) u.rest
  · exact hostText_append u.slash_notMem u.colon_notMem (.inr rfl) _

theorem DirectUrl.pathText_eq (u : DirectUrl) : pathText u.address = slash :: u.rest := by
  unfold DirectUrl.address
  split
  · exact pathText_append u.slash_notMem u.rest
  · next p hp =>
      have hauthority := notMem_authority u.slash_notMem (u.slash_notMem_port hp)
      have hpath := pathText_append hauthority u.rest
      rwa [List.append_assoc, List.cons_append] at hpath

theorem hostOffset_direct (o : Options) (hlength : u.text.length ≤ 1500) :
    hostOffset o u.text = some 7 := by
  have hscheme : sameCase scheme (u.text.take 7) = true := by
    have htake : u.text.take 7 = scheme := List.take_left' rfl
    rw [htake]
    decide
  have hfound : strstr u.text delimiter = some 4 := strstr_scheme hscheme
  have hslash : strchr (u.text.drop (4 + 3)) slash ≠ none := by
    rw [ne_eq, strchr_eq_none, not_not]
    exact u.slash_mem
  rw [hostOffset, hfound]
  dsimp only
  rw [if_neg (Nat.not_lt_of_le hlength), if_neg (fun h => h.2 hscheme), if_neg hslash]

theorem setHost_direct (u : DirectUrl) :
    ∃ tmp port, setHost u.address = some (filled MAXHOSTNAMELEN u.host, tmp, port) ∧
      port.toInt = u.portNumber := by
  unfold DirectUrl.address DirectUrl.portNumber
  split
  · rw [setHost_plain u.slash_notMem u.colon_notMem, if_pos u.host_short.le]
    exact ⟨none, initialPort, rfl, rfl⟩
  · next p hp =>
      obtain ⟨hlength, hdigits⟩ := u.port_digits p hp
      have hfits : p.length < tmpSize := Nat.lt_succ_of_le hlength
      have hvalue := atoi_filled hdigits hfits
      rw [setHost_port u.slash_notMem u.colon_notMem (u.slash_notMem_port hp),
        if_pos ⟨u.host_short.le, hfits.le⟩, atoiIn_filled hfits]
      refine ⟨_, _, rfl, ?_⟩
      split_ifs with hport hzero hzero
      · rfl
      · rw [hport] at hvalue
        exact absurd (Int.natCast_inj.mp hvalue.symm) hzero
      · rw [hzero] at hvalue
        exact absurd (Int32.toInt_inj.mp hvalue) hport
      · exact hvalue

theorem headers_end {level : Int} (hlevel : 0 < level) (host before : Bytes) :
    crlf ++ crlf <:+ before ++ crlf ++ headers level host := by
  rw [headers, if_pos hlevel]
  split_ifs
  · exact ⟨before ++ crlf ++ userAgent ++ hostName ++ host ++ crlf ++ connectionClose.take 17, by
      simp [connectionClose, crlf]⟩
  · exact ⟨before ++ crlf ++ userAgent ++ hostName ++ host, by simp⟩

theorem Options.level_nonneg (h : 0 ≤ o.http10) : 0 ≤ o.level := by
  unfold Options.level
  split_ifs <;> omega

/-- For every URL, method and level, a request to the host itself. -/
theorem buildRequest_direct (o : Options) (u : DirectUrl) (ho : o.proxyhost = none)
    (hclean : 0 ∉ u.text) (hlength : u.text.length ≤ 1500) :
    ∃ b, buildRequest o ⟨u.text, hclean⟩ = .built b ∧
      Holds MAXHOSTNAMELEN b.host u.host ∧ b.proxyport.toInt = u.portNumber ∧
      Holds REQUEST_SIZE b.request (u.requestText o) ∧
      (0 ≤ o.http10 → o.level ≠ 0 → crlf ++ crlf <:+ u.requestText o) := by
  have hoffset := hostOffset_direct o hlength
  obtain ⟨tmp, port, hset, hport⟩ := setHost_direct u
  have hdrop : u.text.drop 7 = u.address := rfl
  have hslash : slash ∈ u.text.drop 7 := u.slash_mem
  have hshort : (hostText (u.text.drop 7)).length < MAXHOSTNAMELEN := by
    rw [hdrop, u.hostText_eq]
    exact u.host_short
  rw [← hdrop, ← u.hostText_eq, ← hdrop] at hset
  obtain ⟨request, hrequest, hholds⟩ := buildAt_direct ho hclean hlength hslash hshort hset
  rw [hdrop, u.hostText_eq, u.pathText_eq, requestText_direct ho] at hholds
  rw [hdrop, u.hostText_eq] at hrequest
  have hhost : 0 ∉ u.host := nul_notMem_part hclean
    (u.hostText_eq ▸ (hostText_sublist u.address).trans (List.sublist_append_right scheme _))
  refine ⟨⟨filled MAXHOSTNAMELEN u.host, tmp, port, request⟩, ?_, holds_filled hhost u.host_short,
    hport, hholds, fun hhttp10 hlevel => ?_⟩
  · rw [buildRequest, hoffset]
    dsimp only
    rw [hrequest]
  · have hpositive : 0 < o.level :=
      Int.lt_iff_le_and_ne.mpr ⟨Options.level_nonneg hhttp10, hlevel.symm⟩
    exact headers_end hpositive u.host _

def urlWithPort : DirectUrl where
  host := [97]
  port := some [56, 48, 56, 48]
  rest := [58, 47]
  slash_notMem := by decide
  colon_notMem := by decide
  host_short := by decide
  port_digits := fun p hp => by
    obtain rfl := Option.some.inj hp
    exact ⟨by decide, List.all_eq_true.mp (by decide)⟩

/-- `http://a:8080/:/` -/
theorem buildRequest_direct_port :
    ∃ b, buildRequest plainGet ⟨urlWithPort.text, by decide⟩ = .built b ∧
      Holds MAXHOSTNAMELEN b.host [97] ∧ b.proxyport.toInt = 8080 := by
  obtain ⟨b, hbuilt, hhost, hport, -⟩ :=
    buildRequest_direct plainGet urlWithPort rfl (by decide) (by decide)
  exact ⟨b, hbuilt, hhost, hport⟩

end RebuildTheWheel.Webbench
