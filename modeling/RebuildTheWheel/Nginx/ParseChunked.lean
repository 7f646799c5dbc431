import RebuildTheWheel.Data.ChunkedCoding

namespace RebuildTheWheel.Nginx

open Data Data.Ascii

/-! `ngx_http_parse_chunked` -/

namespace ParseChunked

inductive Code where
  | ok
  | again
  | done
  | error
deriving DecidableEq

inductive Sw where
  | chunkStart
  | chunkSize
  | chunkExtension
  | chunkExtensionAlmostDone
  | chunkData
  | afterData
  | afterDataAlmostDone
  | lastChunkExtension
  | lastChunkExtensionAlmostDone
  | trailer
  | trailerAlmostDone
  | trailerHeader
  | trailerHeaderAlmostDone
deriving DecidableEq

/-- `ngx_http_chunked_t` -/
structure Chunked where
  state : Sw
  size : Nat
  length : Nat
deriving DecidableEq

/-- `NGX_MAX_OFF_T_VALUE` -/
abbrev maxOff : Nat := 9223372036854775807

inductive Step where
  | next (state : Sw) (size : Nat)
  | data
  | done
  | invalid

def hexDigit? (ch : UInt8) : Option Nat :=
  if 48 ≤ ch ∧ ch ≤ 57 then some (ch.toNat - 48)
  else
    let c := ch ||| 0x20
    if 97 ≤ c ∧ c ≤ 102 then some (c.toNat - 97 + 10) else none

/-- The byte after the digits of a size. -/
def sizeEnd (size : Nat) (ch : UInt8) : Step :=
  if size = 0 then
    if ch = carriageReturn then .next .lastChunkExtensionAlmostDone size
    else if ch = newline then .next .trailer size
    else if ch = 59 ∨ ch = space ∨ ch = tab then .next .lastChunkExtension size
    else .invalid
  else
    if ch = carriageReturn then .next .chunkExtensionAlmostDone size
    else if ch = newline then .next .chunkData size
    else if ch = 59 ∨ ch = space ∨ ch = tab then .next .chunkExtension size
    else .invalid

/-- States that look for the end of a line. -/
def skipTo (almostDone ended state : Sw) (size : Nat) (ch : UInt8) : Step :=
  if ch = carriageReturn then .next almostDone size
  else if ch = newline then .next ended size
  else .next state size

def expectLf (state : Sw) (size : Nat) (ch : UInt8) : Step :=
  if ch = newline then .next state size else .invalid

def parseByte (state : Sw) (size : Nat) (ch : UInt8) : Step :=
  match state with
  | .chunkStart =>
      match hexDigit? ch with
      | some digit => .next .chunkSize digit
      | none => .invalid
  | .chunkSize =>
      if maxOff / 16 < size then .invalid
      else
        match hexDigit? ch with
        | some digit => .next .chunkSize (size * 16 + digit)
        | none => sizeEnd size ch
  | .chunkExtension => skipTo .chunkExtensionAlmostDone .chunkData .chunkExtension size ch
  | .chunkExtensionAlmostDone => expectLf .chunkData size ch
  | .chunkData => .data
  | .afterData => skipTo .afterDataAlmostDone .chunkStart .afterData size ch
  | .afterDataAlmostDone => expectLf .chunkStart size ch
  | .lastChunkExtension => skipTo .lastChunkExtensionAlmostDone .trailer .lastChunkExtension size ch
  | .lastChunkExtensionAlmostDone => expectLf .trailer size ch
  | .trailer =>
      if ch = carriageReturn then .next .trailerAlmostDone size
      else if ch = newline then .done
      else .next .trailerHeader size
  | .trailerAlmostDone => if ch = newline then .done else .invalid
  | .trailerHeader => skipTo .trailerHeaderAlmostDone .trailer .trailerHeader size ch
  | .trailerHeaderAlmostDone => expectLf .trailer size ch

/-- How the loop ends: at `data`, `done` or `invalid`, with the size that it leaves in the context
and the bytes from `pos` on. -/
inductive Ended where
  | data (rc : Code) (state : Sw) (size : Nat) (rest : Bytes)
  | done (size : Nat) (rest : Bytes)
  | invalid (size : Nat)

def loop (state : Sw) (size : Nat) : Bytes → Ended
  | [] => .data .again state size []
  | ch :: rest =>
      match parseByte state size ch with
      | .next state size => loop state size rest
      | .data => .data .ok state size (ch :: rest)
      | .done => .done size rest
      | .invalid => .invalid size

/-- `ctx->length` -/
def hint (size : Nat) : Sw → Nat
  | .chunkStart => 3
  | .chunkSize => 1 + if size = 0 then 1 else size + 4
  | .chunkExtension => 1 + size + 4
  | .chunkExtensionAlmostDone => 1 + size + 4
  | .chunkData => size + 4
  | .afterData => 4
  | .afterDataAlmostDone => 4
  | .lastChunkExtension => 2
  | .lastChunkExtensionAlmostDone => 2
  | .trailer => 1
  | .trailerAlmostDone => 1
  | .trailerHeader => 2
  | .trailerHeaderAlmostDone => 2

/-- The state that a call begins in. -/
def Chunked.resumed (ctx : Chunked) : Sw :=
  if ctx.state = .chunkData ∧ ctx.size = 0 then .afterData else ctx.state

/-- `ngx_http_parse_chunked`; a buffer is the bytes from `pos` to `last`. -/
def parseChunked (ctx : Chunked) (b : Bytes) : Code × Chunked × Bytes :=
  match loop ctx.resumed ctx.size b with
  | .data rc state size rest =>
      if maxOff - 5 < size then (.error, ⟨state, size, ctx.length⟩, rest)
      else (rc, ⟨state, size, hint size state⟩, rest)
  | .done size rest => (.done, ⟨.chunkStart, size, ctx.length⟩, rest)
  | .invalid size => (.error, ⟨ctx.state, size, ctx.length⟩, b)

/-- A caller, with the bytes that are left of its buffer, the buffers to come and the data that it
has taken. -/
structure Reader where
  ctx : Chunked
  rest : Bytes
  buffers : List Bytes
  data : Bytes

/-- What a caller does after a call. -/
def Reader.step (r : Reader) : Option Reader :=
  match parseChunked r.ctx r.rest, r.buffers with
  | (.ok, ctx, rest), buffers =>
      let n := min ctx.size rest.length
      some ⟨{ ctx with size := ctx.size - n }, rest.drop n, buffers, r.data ++ rest.take n⟩
  | (.again, ctx, _), b :: buffers => some ⟨ctx, b, buffers, r.data⟩
  | _, _ => none

/-- The context is all zeroes at first. -/
def Reader.start (b : Bytes) (buffers : List Bytes) : Reader := ⟨⟨.chunkStart, 0, 0⟩, b, buffers, []⟩

end ParseChunked

end RebuildTheWheel.Nginx

namespace RebuildTheWheel.Nginx

open Data Data.Ascii Data.ChunkedCoding

namespace ParseChunked

/-! What is left of a message in each state. -/

/-- The largest size of a chunk. -/
abbrev maxChunk : Nat := maxOff / 16

/-- What follows a size line. -/
inductive Follows : Nat → Bytes → Bytes → Prop where
  | last : Trailer rest → Follows 0 rest []
  | chunk : content ≠ [] → content.length ≤ maxChunk → LineEnd rest tail → Body maxChunk rest data →
      Follows content.length (content ++ tail) (content ++ data)

/-- In a state, with a size, these bytes and this data are left. -/
inductive Rest : Sw → Nat → Bytes → Bytes → Prop where
  | chunkStart : Body maxChunk bytes data → Rest .chunkStart 0 bytes data
  | chunkSize : SizeLine after size final bytes → Follows final after data →
      Rest .chunkSize size bytes data
  | chunkExtension : Line after bytes → size ≠ 0 → Follows size after data →
      Rest .chunkExtension size bytes data
  | chunkExtensionAlmostDone : size ≠ 0 → Follows size after data →
      Rest .chunkExtensionAlmostDone size (newline :: after) data
  | chunkData : size ≠ 0 → Follows size bytes data → Rest .chunkData size bytes data
  | afterData : LineEnd rest bytes → Body maxChunk rest data → Rest .afterData 0 bytes data
  | afterDataAlmostDone : Body maxChunk rest data →
      Rest .afterDataAlmostDone 0 (newline :: rest) data
  | lastChunkExtension : Line after bytes → Trailer after → Rest .lastChunkExtension 0 bytes []
  | lastChunkExtensionAlmostDone : Trailer after →
      Rest .lastChunkExtensionAlmostDone 0 (newline :: after) []
  | trailer : Trailer bytes → Rest .trailer 0 bytes []
  | trailerAlmostDone : Rest .trailerAlmostDone 0 [newline] []
  | trailerHeader : Line after bytes → Trailer after → Rest .trailerHeader 0 bytes []
  | trailerHeaderAlmostDone : Trailer after → Rest .trailerHeaderAlmostDone 0 (newline :: after) []

variable {bytes rest after data : Bytes} {size final : Nat} {state ended almostDone : Sw} {ch : UInt8}

theorem Follows.size_le (h : Follows size after data) : size ≤ maxChunk := by
  cases h with
  | last _ => exact Nat.zero_le _
  | chunk _ hle _ _ => exact hle

theorem Follows.length (h : Follows size after data) :
    (if size = 0 then 1 else size + 4) ≤ after.length := by
  cases h with
  | last htrailer => exact htrailer.length
  | chunk hne _ hend hbody =>
      have hcontent := List.length_pos_iff.mpr hne
      have hrest := hbody.length
      have htail := hend.length
      rw [if_neg (by omega), List.length_append]
      omega

theorem Rest.size_le (h : Rest state size bytes data) : size ≤ maxChunk := by
  cases h with
  | chunkSize hline hfollows => exact Nat.le_trans hline.size_le hfollows.size_le
  | chunkExtension _ _ hfollows => exact hfollows.size_le
  | chunkExtensionAlmostDone _ hfollows => exact hfollows.size_le
  | chunkData _ hfollows => exact hfollows.size_le
  | _ => exact Nat.zero_le _

/-- No message ends with fewer bytes than the hint. -/
theorem Rest.hint_le (h : Rest state size bytes data) : hint size state ≤ bytes.length := by
  cases h with
  | chunkStart hbody => exact hbody.length
  | chunkSize hline hfollows =>
      have hsize := hline.size_le
      have hbytes := hline.length
      have hafter := hfollows.length
      rw [hint]
      split_ifs at hafter ⊢ <;> omega
  | chunkExtension hline hsize hfollows =>
      have hbytes := hline.length
      have hafter := hfollows.length
      rw [if_neg hsize] at hafter
      rw [hint]
      omega
  | chunkExtensionAlmostDone hsize hfollows =>
      have hafter := hfollows.length
      rw [if_neg hsize] at hafter
      rw [hint, List.length_cons]
      omega
  | chunkData hsize hfollows =>
      have hafter := hfollows.length
      rw [if_neg hsize] at hafter
      exact hafter
  | afterData hend hbody =>
      have hbytes := hend.length
      have hrest := hbody.length
      rw [hint]
      omega
  | afterDataAlmostDone hbody => exact Nat.succ_le_succ hbody.length
  | lastChunkExtension hline htrailer => exact Nat.le_trans (Nat.succ_le_succ htrailer.length) hline.length
  | lastChunkExtensionAlmostDone htrailer => exact Nat.succ_le_succ htrailer.length
  | trailer htrailer => exact htrailer.length
  | trailerAlmostDone => exact Nat.le_refl 1
  | trailerHeader hline htrailer => exact Nat.le_trans (Nat.succ_le_succ htrailer.length) hline.length
  | trailerHeaderAlmostDone htrailer => exact Nat.succ_le_succ htrailer.length

theorem Rest.bytes_ne (h : Rest state size bytes data) : bytes ≠ [] := by
  rintro rfl
  have hhint := h.hint_le
  rw [List.length_nil] at hhint
  cases state with
  | chunkSize =>
      rw [hint] at hhint
      omega
  | _ =>
      simp only [hint] at hhint
      omega

theorem Rest.resumed {ctx : Chunked} (h : Rest ctx.state ctx.size bytes data) :
    ctx.resumed = ctx.state := by
  refine if_neg fun ⟨hstate, hsize⟩ => ?_
  rw [hstate] at h
  cases h with
  | chunkData hne _ => exact hne hsize

/-! One byte. -/

/-- A step that leaves these bytes and this data. -/
def Step.Leads (rest data : Bytes) : Step → Prop
  | .next state size => Rest state size rest data
  | .data => False
  | .done => rest = [] ∧ data = []
  | .invalid => False

theorem hexDigit?_eq : ∀ ch : UInt8, hexDigit? ch = hexVal? ch := by
  apply forall_byte
  decide

theorem skipTo_of_ne (hcr : ch ≠ carriageReturn) (hlf : ch ≠ newline) :
    skipTo almostDone ended state size ch = .next state size := by
  rw [skipTo, if_neg hcr, if_neg hlf]

theorem LineEnd.leads (h : LineEnd after bytes) (hended : Rest ended size after data)
    (halmostDone : Rest almostDone size (newline :: after) data) :
    ∃ ch rest, bytes = ch :: rest ∧ (skipTo almostDone ended state size ch).Leads rest data := by
  cases h with
  | lf => exact ⟨newline, after, rfl, hended⟩
  | crlf => exact ⟨carriageReturn, newline :: after, rfl, halmostDone⟩

theorem Line.leads (h : Line after bytes) (hline : ∀ bytes, Line after bytes → Rest state size bytes data)
    (hended : Rest ended size after data) (halmostDone : Rest almostDone size (newline :: after) data) :
    ∃ ch rest, bytes = ch :: rest ∧ (skipTo almostDone ended state size ch).Leads rest data := by
  cases h with
  | ending hend => exact LineEnd.leads hend hended halmostDone
  | @byte ch bytes hcr hlf hmore =>
      refine ⟨ch, bytes, rfl, ?_⟩
      rw [skipTo_of_ne hcr hlf]
      exact hline bytes hmore

/-- The bytes that end the digits, with the states that they lead to. -/
theorem SizeEnd.leads_of (h : SizeEnd after bytes)
    (hstep : ∀ ch, sizeEnd size ch =
      if ch = carriageReturn then .next almostDone size
      else if ch = newline then .next ended size
      else if ch = 59 ∨ ch = space ∨ ch = tab then .next state size
      else .invalid)
    (hline : ∀ bytes, Line after bytes → Rest state size bytes data) (hended : Rest ended size after data)
    (halmostDone : Rest almostDone size (newline :: after) data) :
    ∃ ch rest, bytes = ch :: rest ∧ hexDigit? ch = none ∧ (sizeEnd size ch).Leads rest data := by
  cases h with
  | ending hend =>
      cases hend with
      | lf =>
          refine ⟨newline, after, rfl, rfl, ?_⟩
          rw [hstep]
          exact hended
      | crlf =>
          refine ⟨carriageReturn, newline :: after, rfl, rfl, ?_⟩
          rw [hstep]
          exact halmostDone
  | @extension ch rest hch hmore =>
      refine ⟨ch, rest, rfl, ?_⟩
      rw [hstep]
      simp only [List.mem_cons, List.not_mem_nil, or_false] at hch
      rcases hch with rfl | rfl | rfl
      · exact ⟨rfl, hline rest hmore⟩
      · exact ⟨rfl, hline rest hmore⟩
      · exact ⟨rfl, hline rest hmore⟩

theorem Follows.trailer (h : Follows 0 after data) : Trailer after ∧ data = [] := by
  generalize hsize : 0 = size at h
  cases h with
  | last htrailer => exact ⟨htrailer, rfl⟩
  | chunk hne _ _ _ => exact absurd (List.length_eq_zero_iff.mp hsize.symm) hne

theorem SizeEnd.leads (h : SizeEnd after bytes) (hfollows : Follows size after data) :
    ∃ ch rest, bytes = ch :: rest ∧ hexDigit? ch = none ∧ (sizeEnd size ch).Leads rest data := by
  by_cases hsize : size = 0
  · obtain rfl := hsize
    obtain ⟨htrailer, rfl⟩ := hfollows.trailer
    exact SizeEnd.leads_of h (fun _ => rfl) (fun _ hmore => .lastChunkExtension hmore htrailer)
      (.trailer htrailer) (.lastChunkExtensionAlmostDone htrailer)
  · exact SizeEnd.leads_of h (fun _ => if_neg hsize)
      (fun _ hmore => .chunkExtension hmore hsize hfollows) (.chunkData hsize hfollows)
      (.chunkExtensionAlmostDone hsize hfollows)

theorem SizeLine.leads (h : SizeLine after size final bytes) (hfollows : Follows final after data) :
    ∃ ch rest, bytes = ch :: rest ∧ (parseByte .chunkSize size ch).Leads rest data := by
  have hsize : ¬maxOff / 16 < size :=
    Nat.not_lt.mpr (Nat.le_trans h.size_le hfollows.size_le)
  cases h with
  | ending hend =>
      obtain ⟨ch, rest, rfl, hdigit, hleads⟩ := SizeEnd.leads hend hfollows
      refine ⟨ch, rest, rfl, ?_⟩
      rw [parseByte, if_neg hsize, hdigit]
      exact hleads
  | @digit ch digit _ _ rest hdigit hline =>
      refine ⟨ch, rest, rfl, ?_⟩
      rw [parseByte, if_neg hsize, hexDigit?_eq, hdigit]
      exact .chunkSize hline hfollows

theorem Body.leads (h : Body maxChunk bytes data) :
    ∃ ch rest, bytes = ch :: rest ∧ (parseByte .chunkStart size ch).Leads rest data := by
  cases h with
  | @last ch digit _ rest hdigit hline htrailer =>
      refine ⟨ch, rest, rfl, ?_⟩
      rw [parseByte, hexDigit?_eq, hdigit]
      exact .chunkSize hline (.last htrailer)
  | @chunk ch digit _ _ rest _ _ hdigit hline hne hle hend hbody =>
      refine ⟨ch, rest, rfl, ?_⟩
      rw [parseByte, hexDigit?_eq, hdigit]
      exact .chunkSize hline (.chunk hne hle hend hbody)

theorem Trailer.leads (h : Trailer bytes) :
    ∃ ch rest, bytes = ch :: rest ∧ (parseByte .trailer 0 ch).Leads rest [] := by
  cases h with
  | last hend =>
      cases hend with
      | lf => exact ⟨newline, [], rfl, rfl, rfl⟩
      | crlf => exact ⟨carriageReturn, [newline], rfl, .trailerAlmostDone⟩
  | @field ch _ rest hcr hlf hline htrailer =>
      refine ⟨ch, rest, rfl, ?_⟩
      rw [parseByte, if_neg hcr, if_neg hlf]
      exact .trailerHeader hline htrailer

theorem Rest.step (h : Rest state size bytes data) (hstate : state ≠ .chunkData) :
    ∃ ch rest, bytes = ch :: rest ∧ (parseByte state size ch).Leads rest data := by
  cases h with
  | chunkStart hbody => exact Body.leads hbody
  | chunkSize hline hfollows => exact SizeLine.leads hline hfollows
  | chunkExtension hline hsize hfollows =>
      exact Line.leads hline (fun _ hmore => .chunkExtension hmore hsize hfollows)
        (.chunkData hsize hfollows) (.chunkExtensionAlmostDone hsize hfollows)
  | chunkExtensionAlmostDone hsize hfollows => exact ⟨newline, _, rfl, .chunkData hsize hfollows⟩
  | chunkData _ _ => exact absurd rfl hstate
  | afterData hend hbody => exact LineEnd.leads hend (.chunkStart hbody) (.afterDataAlmostDone hbody)
  | afterDataAlmostDone hbody => exact ⟨newline, _, rfl, .chunkStart hbody⟩
  | lastChunkExtension hline htrailer =>
      exact Line.leads hline (fun _ hmore => .lastChunkExtension hmore htrailer) (.trailer htrailer)
        (.lastChunkExtensionAlmostDone htrailer)
  | lastChunkExtensionAlmostDone htrailer => exact ⟨newline, _, rfl, .trailer htrailer⟩
  | trailer htrailer => exact Trailer.leads htrailer
  | trailerAlmostDone => exact ⟨newline, [], rfl, rfl, rfl⟩
  | trailerHeader hline htrailer =>
      exact Line.leads hline (fun _ hmore => .trailerHeader hmore htrailer) (.trailer htrailer)
        (.trailerHeaderAlmostDone htrailer)
  | trailerHeaderAlmostDone htrailer => exact ⟨newline, _, rfl, .trailer htrailer⟩

end ParseChunked

end RebuildTheWheel.Nginx
