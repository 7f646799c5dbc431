import RebuildTheWheel.Nginx.ParseChunkedBody

namespace RebuildTheWheel.Nginx

open Data Data.Ascii Data.ChunkedCoding

/-! What `ngx_http_parse_chunked` accepts. -/

namespace ParseChunked

/-- The size that a state is reached with. -/
def Sized (size : Nat) : Sw → Prop
  | .chunkSize => size ≤ maxOff
  | .chunkExtension => size ≠ 0 ∧ size ≤ maxChunk
  | .chunkExtensionAlmostDone => size ≠ 0 ∧ size ≤ maxChunk
  | .chunkData => size ≠ 0 ∧ size ≤ maxChunk
  | _ => size = 0

/-- Behind the data of a chunk, this byte does not end the line. -/
def Skipped (state : Sw) (ch : UInt8) : Prop :=
  state = .afterData ∧ ch ≠ carriageReturn ∧ ch ≠ newline

/-- The loop comes to a byte that is skipped. -/
def Skips (state : Sw) (size : Nat) : Bytes → Prop
  | [] => False
  | ch :: rest =>
      Skipped state ch ∨
        match parseByte state size ch with
        | .next state size => Skips state size rest
        | _ => False

/-- The sizes that a call computes. -/
def sizes (state : Sw) (size : Nat) : Bytes → List Nat
  | [] => []
  | ch :: rest =>
      match parseByte state size ch with
      | .next state size => size :: sizes state size rest
      | _ => []

/-- The size that is left. -/
def Ended.size : Ended → Nat
  | .data _ _ size _ => size
  | .done size _ => size
  | .invalid size => size

variable {bytes b rest after data : Bytes} {size size' : Nat} {state state' : Sw} {ch : UInt8}

theorem maxOff_eq : maxOff = 16 * maxChunk + 15 := rfl

theorem hexDigit?_le (h : hexDigit? ch = some digit) : digit ≤ 15 := by
  rw [hexDigit?_eq] at h
  exact Nat.le_of_lt_succ (hexVal?_lt ch digit h)

theorem skipTo_cases {almostDone ended s : Sw}
    (h : skipTo almostDone ended s size ch = .next state' size') :
    size = size' ∧ (ch = carriageReturn ∧ almostDone = state' ∨ ch = newline ∧ ended = state' ∨
      (ch ≠ carriageReturn ∧ ch ≠ newline) ∧ s = state') := by
  unfold skipTo at h
  split_ifs at h with hcr hlf
  · obtain ⟨rfl, rfl⟩ := h
    exact ⟨rfl, .inl ⟨hcr, rfl⟩⟩
  · obtain ⟨rfl, rfl⟩ := h
    exact ⟨rfl, .inr (.inl ⟨hlf, rfl⟩)⟩
  · obtain ⟨rfl, rfl⟩ := h
    exact ⟨rfl, .inr (.inr ⟨⟨hcr, hlf⟩, rfl⟩)⟩

theorem expectLf_eq {s : Sw} (h : expectLf s size ch = .next state' size') :
    ch = newline ∧ s = state' ∧ size = size' := by
  unfold expectLf at h
  split_ifs at h with hlf
  obtain ⟨rfl, rfl⟩ := h
  exact ⟨hlf, rfl, rfl⟩

/-- What comes after a byte makes what comes with it. -/
def Back (state : Sw) (size : Nat) (ch : UInt8) (state' : Sw) (size' : Nat) : Prop :=
  Sized size' state' ∧ ∀ bytes data, Rest state' size' bytes data → Rest state size (ch :: bytes) data

theorem body_of_size (hdigit : hexVal? ch = some digit) (h : Rest .chunkSize digit bytes data) :
    Body maxChunk (ch :: bytes) data := by
  cases h with
  | chunkSize hline hfollows =>
      cases hfollows with
      | last htrailer => exact .last hdigit hline htrailer
      | chunk hne hle hend hbody => exact .chunk hdigit hline hne hle hend hbody

/-- A size line that ends here. -/
theorem rest_of_end (h : SizeEnd after bytes) (hfollows : Follows size after data) :
    Rest .chunkSize size bytes data := .chunkSize (.ending h) hfollows

theorem sizeEnd_back (hsize : size ≤ maxChunk) (h : sizeEnd size ch = .next state' size') :
    Back .chunkSize size ch state' size' := by
  unfold sizeEnd at h
  split_ifs at h with hzero hcr hlf hext hcr hlf hext
  · obtain ⟨rfl, rfl⟩ := h
    subst hcr hzero
    refine ⟨rfl, fun bytes data hrest => ?_⟩
    cases hrest with
    | lastChunkExtensionAlmostDone htrailer => exact rest_of_end (.ending .crlf) (.last htrailer)
  · obtain ⟨rfl, rfl⟩ := h
    subst hlf hzero
    refine ⟨rfl, fun bytes data hrest => ?_⟩
    cases hrest with
    | trailer htrailer => exact rest_of_end (.ending .lf) (.last htrailer)
  · obtain ⟨rfl, rfl⟩ := h
    subst hzero
    refine ⟨rfl, fun bytes data hrest => ?_⟩
    have hmem : ch ∈ [semicolon, space, tab] := by simpa [semicolon] using hext
    cases hrest with
    | lastChunkExtension hline htrailer => exact rest_of_end (.extension hmem hline) (.last htrailer)
  · obtain ⟨rfl, rfl⟩ := h
    subst hcr
    refine ⟨⟨hzero, hsize⟩, fun bytes data hrest => ?_⟩
    cases hrest with
    | chunkExtensionAlmostDone _ hfollows => exact rest_of_end (.ending .crlf) hfollows
  · obtain ⟨rfl, rfl⟩ := h
    subst hlf
    refine ⟨⟨hzero, hsize⟩, fun bytes data hrest => ?_⟩
    cases hrest with
    | chunkData _ hfollows => exact rest_of_end (.ending .lf) hfollows
  · obtain ⟨rfl, rfl⟩ := h
    refine ⟨⟨hzero, hsize⟩, fun bytes data hrest => ?_⟩
    have hmem : ch ∈ [semicolon, space, tab] := by simpa [semicolon] using hext
    cases hrest with
    | chunkExtension hline _ hfollows => exact rest_of_end (.extension hmem hline) hfollows

theorem parseByte_back (hsized : Sized size state) (hskip : ¬Skipped state ch)
    (h : parseByte state size ch = .next state' size') : Back state size ch state' size' := by
  cases state with
  | chunkStart =>
      obtain rfl : size = 0 := hsized
      unfold parseByte at h
      dsimp only at h
      cases hdigit : hexDigit? ch with
      | none =>
          rw [hdigit] at h
          cases h
      | some digit =>
          rw [hdigit] at h
          obtain ⟨rfl, rfl⟩ := h
          have hle := hexDigit?_le hdigit
          rw [hexDigit?_eq] at hdigit
          have hmax := maxOff_eq
          refine ⟨show size' ≤ maxOff by omega, fun bytes data hrest => ?_⟩
          exact .chunkStart (body_of_size hdigit hrest)
  | chunkSize =>
      unfold parseByte at h
      dsimp only at h
      split_ifs at h with hlarge
      have hsmall : size ≤ maxChunk := Nat.le_of_not_lt hlarge
      cases hdigit : hexDigit? ch with
      | none =>
          rw [hdigit] at h
          exact sizeEnd_back hsmall h
      | some digit =>
          rw [hdigit] at h
          obtain ⟨rfl, rfl⟩ := h
          have hle := hexDigit?_le hdigit
          rw [hexDigit?_eq] at hdigit
          have hmax := maxOff_eq
          refine ⟨show size * 16 + digit ≤ maxOff by omega, fun bytes data hrest => ?_⟩
          cases hrest with
          | chunkSize hline hfollows => exact .chunkSize (.digit hdigit hline) hfollows
  | chunkExtension =>
      obtain ⟨rfl, ⟨rfl, rfl⟩ | ⟨rfl, rfl⟩ | ⟨⟨hcr, hlf⟩, rfl⟩⟩ := skipTo_cases h
      · refine ⟨hsized, fun bytes data hrest => ?_⟩
        cases hrest with
        | chunkExtensionAlmostDone hsize hfollows => exact .chunkExtension (.ending .crlf) hsize hfollows
      · refine ⟨hsized, fun bytes data hrest => ?_⟩
        cases hrest with
        | chunkData hsize hfollows => exact .chunkExtension (.ending .lf) hsize hfollows
      · refine ⟨hsized, fun bytes data hrest => ?_⟩
        cases hrest with
        | chunkExtension hline hsize hfollows => exact .chunkExtension (.byte hcr hlf hline) hsize hfollows
  | chunkExtensionAlmostDone =>
      obtain ⟨rfl, rfl, rfl⟩ := expectLf_eq h
      refine ⟨hsized, fun bytes data hrest => ?_⟩
      cases hrest with
      | chunkData hsize hfollows => exact .chunkExtensionAlmostDone hsize hfollows
  | chunkData => cases h
  | afterData =>
      obtain rfl : size = 0 := hsized
      obtain ⟨rfl, ⟨rfl, rfl⟩ | ⟨rfl, rfl⟩ | ⟨hother, rfl⟩⟩ := skipTo_cases h
      · refine ⟨rfl, fun bytes data hrest => ?_⟩
        cases hrest with
        | afterDataAlmostDone hbody => exact .afterData .crlf hbody
      · refine ⟨rfl, fun bytes data hrest => ?_⟩
        cases hrest with
        | chunkStart hbody => exact .afterData .lf hbody
      · exact absurd ⟨rfl, hother⟩ hskip
  | afterDataAlmostDone =>
      obtain rfl : size = 0 := hsized
      obtain ⟨rfl, rfl, rfl⟩ := expectLf_eq h
      refine ⟨rfl, fun bytes data hrest => ?_⟩
      cases hrest with
      | chunkStart hbody => exact .afterDataAlmostDone hbody
  | lastChunkExtension =>
      obtain rfl : size = 0 := hsized
      obtain ⟨rfl, ⟨rfl, rfl⟩ | ⟨rfl, rfl⟩ | ⟨⟨hcr, hlf⟩, rfl⟩⟩ := skipTo_cases h
      · refine ⟨rfl, fun bytes data hrest => ?_⟩
        cases hrest with
        | lastChunkExtensionAlmostDone htrailer => exact .lastChunkExtension (.ending .crlf) htrailer
      · refine ⟨rfl, fun bytes data hrest => ?_⟩
        cases hrest with
        | trailer htrailer => exact .lastChunkExtension (.ending .lf) htrailer
      · refine ⟨rfl, fun bytes data hrest => ?_⟩
        cases hrest with
        | lastChunkExtension hline htrailer => exact .lastChunkExtension (.byte hcr hlf hline) htrailer
  | lastChunkExtensionAlmostDone =>
      obtain rfl : size = 0 := hsized
      obtain ⟨rfl, rfl, rfl⟩ := expectLf_eq h
      refine ⟨rfl, fun bytes data hrest => ?_⟩
      cases hrest with
      | trailer htrailer => exact .lastChunkExtensionAlmostDone htrailer
  | trailer =>
      obtain rfl : size = 0 := hsized
      unfold parseByte at h
      dsimp only at h
      split_ifs at h with hcr hlf
      · obtain ⟨rfl, rfl⟩ := h
        subst hcr
        refine ⟨rfl, fun bytes data hrest => ?_⟩
        cases hrest with
        | trailerAlmostDone => exact .trailer (.last .crlf)
      · obtain ⟨rfl, rfl⟩ := h
        refine ⟨rfl, fun bytes data hrest => ?_⟩
        cases hrest with
        | trailerHeader hline htrailer => exact .trailer (.field hcr hlf hline htrailer)
  | trailerAlmostDone =>
      unfold parseByte at h
      dsimp only at h
      split_ifs at h
  | trailerHeader =>
      obtain rfl : size = 0 := hsized
      obtain ⟨rfl, ⟨rfl, rfl⟩ | ⟨rfl, rfl⟩ | ⟨⟨hcr, hlf⟩, rfl⟩⟩ := skipTo_cases h
      · refine ⟨rfl, fun bytes data hrest => ?_⟩
        cases hrest with
        | trailerHeaderAlmostDone htrailer => exact .trailerHeader (.ending .crlf) htrailer
      · refine ⟨rfl, fun bytes data hrest => ?_⟩
        cases hrest with
        | trailer htrailer => exact .trailerHeader (.ending .lf) htrailer
      · refine ⟨rfl, fun bytes data hrest => ?_⟩
        cases hrest with
        | trailerHeader hline htrailer => exact .trailerHeader (.byte hcr hlf hline) htrailer
  | trailerHeaderAlmostDone =>
      obtain rfl : size = 0 := hsized
      obtain ⟨rfl, rfl, rfl⟩ := expectLf_eq h
      refine ⟨rfl, fun bytes data hrest => ?_⟩
      cases hrest with
      | trailer htrailer => exact .trailerHeaderAlmostDone htrailer

theorem parseByte_done (hsized : Sized size state) (h : parseByte state size ch = .done) :
    Rest state size [ch] [] := by
  have hstate : ch = newline ∧ (state = .trailer ∨ state = .trailerAlmostDone) := by
    cases state <;> grind [parseByte, skipTo, expectLf, sizeEnd]
  obtain ⟨rfl, rfl | rfl⟩ := hstate
  · obtain rfl : size = 0 := hsized
    exact .trailer (.last .lf)
  · obtain rfl : size = 0 := hsized
    exact .trailerAlmostDone

/-! From the end of a run back to its start. -/

/-- Where the loop ends, and what it has read by then. -/
def Ended.Back (state : Sw) (size : Nat) (b : Bytes) : Ended → Prop
  | .data rc state' size' rest =>
      (rc = .again ∧ rest = [] ∨ rc = .ok ∧ state' = .chunkData) ∧ Sized size' state' ∧
        ∃ read, b = read ++ rest ∧
          ∀ bytes data, Rest state' size' bytes data → Rest state size (read ++ bytes) data
  | .done _ rest => ∃ read, b = read ++ rest ∧ Rest state size read []
  | .invalid _ => True

theorem Ended.Back.cons {ended : Ended} (h : ended.Back state' size' b)
    (hback : ParseChunked.Back state size ch state' size') : ended.Back state size (ch :: b) := by
  cases ended with
  | data rc state'' size'' rest =>
      obtain ⟨hrc, hsized, read, rfl, hrest⟩ := h
      exact ⟨hrc, hsized, ch :: read, rfl, fun bytes data hend => hback.2 _ _ (hrest bytes data hend)⟩
  | done size'' rest =>
      obtain ⟨read, rfl, hrest⟩ := h
      exact ⟨ch :: read, rfl, hback.2 _ _ hrest⟩
  | invalid size'' => trivial

theorem loop_back (hsized : Sized size state) (hskips : ¬Skips state size b) :
    (loop state size b).Back state size b := by
  induction b generalizing state size with
  | nil => exact ⟨.inl ⟨rfl, rfl⟩, hsized, [], rfl, fun _ _ hrest => hrest⟩
  | cons ch b ih =>
      obtain ⟨hskip, hlater⟩ := not_or.mp hskips
      rw [loop]
      cases hstep : parseByte state size ch with
      | next state' size' =>
          rw [hstep] at hlater
          have hback := parseByte_back hsized hskip hstep
          exact (ih hback.1 hlater).cons hback
      | data =>
          have hstate : state = .chunkData := by
            cases state <;> grind [parseByte, skipTo, expectLf, sizeEnd]
          exact ⟨.inr ⟨rfl, hstate⟩, hsized, [], rfl, fun _ _ hrest => hrest⟩
      | done => exact ⟨[ch], rfl, parseByte_done hsized hstep⟩
      | invalid => trivial

/-- A call comes to a byte that it skips. -/
def Reader.Skips (r : Reader) : Prop := ParseChunked.Skips r.ctx.resumed r.ctx.size r.rest

def Reader.Sized (r : Reader) : Prop := ParseChunked.Sized r.ctx.size r.ctx.resumed

variable {r r' : Reader} {tail : Bytes}

theorem resumed_of_sized {n : Nat} (h : Sized size state) :
    Chunked.resumed ⟨state, size, n⟩ = state := by
  refine if_neg fun ⟨hstate, hsize⟩ => ?_
  obtain rfl : state = .chunkData := hstate
  exact h.1 hsize

/-- The data that the caller takes is data of the chunk. -/
theorem Rest.untake {taken left : Bytes} {n : Nat} (hsize : size ≠ 0 ∧ size ≤ maxChunk)
    (htaken : taken.length ≤ size)
    (h : Rest (Chunked.resumed ⟨.chunkData, size - taken.length, n⟩) (size - taken.length) bytes left) :
    Rest .chunkData size (taken ++ bytes) (taken ++ left) := by
  obtain ⟨m, rfl⟩ := Nat.exists_eq_add_of_le htaken
  rw [Nat.add_sub_cancel_left] at h
  refine .chunkData hsize.1 ?_
  cases m with
  | zero =>
      have hafter : Chunked.resumed ⟨.chunkData, 0, n⟩ = .afterData := rfl
      rw [hafter] at h
      cases h with
      | afterData hend hbody =>
          exact .chunk (List.length_pos_iff.mp (Nat.pos_of_ne_zero hsize.1)) hsize.2 hend hbody
  | succ m =>
      have hdata : Chunked.resumed ⟨.chunkData, m + 1, n⟩ = .chunkData := rfl
      rw [hdata] at h
      cases h with
      | chunkData _ hfollows =>
          generalize hm : m + 1 = k at hfollows
          cases hfollows with
          | last _ => exact absurd hm (Nat.succ_ne_zero m)
          | @chunk content _ _ _ hne _ hend hbody =>
              rw [hm, ← List.length_append] at hsize
              rw [← List.length_append, ← List.append_assoc, ← List.append_assoc]
              exact .chunk (List.append_ne_nil_of_right_ne_nil taken hne) hsize.2 hend hbody

theorem sized_resumed {k n : Nat} (hsize : size ≠ 0 ∧ size ≤ maxChunk) :
    Sized (size - k) (Chunked.resumed ⟨.chunkData, size - k, n⟩) := by
  by_cases hzero : size - k = 0
  · have hafter : Chunked.resumed ⟨.chunkData, size - k, n⟩ = .afterData := if_pos ⟨rfl, hzero⟩
    rw [hafter]
    exact hzero
  · have hdata : Chunked.resumed ⟨.chunkData, size - k, n⟩ = .chunkData := if_neg fun h => hzero h.2
    rw [hdata]
    exact ⟨hzero, Nat.le_trans (Nat.sub_le _ _) hsize.2⟩

theorem Reader.Reads.back (hreads : r.Reads r') (hsized : r.Sized) (hskips : ¬r.Skips) :
    r'.Sized ∧ ∀ data, r'.Reading data tail → r.Reading data tail := by
  have hback : (loop r.ctx.resumed r.ctx.size r.rest).Back r.ctx.resumed r.ctx.size r.rest :=
    loop_back hsized hskips
  rw [Reader.Reads, Reader.step, parseChunked] at hreads
  generalize loop r.ctx.resumed r.ctx.size r.rest = ended at hback hreads
  cases ended with
  | done size rest => cases hreads
  | invalid size => cases hreads
  | data rc state size rest =>
      dsimp only at hreads
      obtain ⟨hrc, hsize, read, hread, hrest⟩ := hback
      split_ifs at hreads
      rcases hrc with ⟨rfl, rfl⟩ | ⟨rfl, rfl⟩
      · cases hbuffers : r.buffers with
        | nil =>
            rw [hbuffers] at hreads
            cases hreads
        | cons b buffers =>
            rw [hbuffers] at hreads
            obtain rfl := Option.some.inj hreads
            have hresumed := resumed_of_sized (n := hint size state) hsize
            refine ⟨?_, fun data hreading => ?_⟩
            · show ParseChunked.Sized size (Chunked.resumed ⟨state, size, hint size state⟩)
              rwa [hresumed]
            · obtain ⟨bytes, left, hleft, hstream, hdata⟩ := hreading
              have hleft : Rest (Chunked.resumed ⟨state, size, hint size state⟩) size bytes left :=
                hleft
              rw [hresumed] at hleft
              have hstream : b ++ buffers.flatten = bytes ++ tail := hstream
              refine ⟨read ++ bytes, left, hrest _ _ hleft, ?_, hdata⟩
              rw [hread, hbuffers, List.flatten_cons, List.append_nil, hstream, List.append_assoc]
      · obtain rfl := Option.some.inj hreads
        refine ⟨sized_resumed hsize, fun data hreading => ?_⟩
        obtain ⟨bytes, left, hleft, hstream, hdata⟩ := hreading
        have hlength : (rest.take (min size rest.length)).length = min size rest.length := by
          rw [List.length_take, Nat.min_eq_left (Nat.min_le_right _ _)]
        have htaken := @Rest.untake bytes size (rest.take (min size rest.length)) left
          (hint size .chunkData) hsize (by rw [hlength]; exact Nat.min_le_left _ _)
          (by rw [hlength]; exact hleft)
        have hstream : rest.drop (min size rest.length) ++ r.buffers.flatten = bytes ++ tail :=
          hstream
        refine ⟨_, _, hrest _ _ htaken, ?_, ?_⟩
        · rw [hread, List.append_assoc, List.append_assoc, List.append_assoc, ← hstream,
            ← List.append_assoc (rest.take _), List.take_append_drop]
        · rw [← List.append_assoc]
          exact hdata

/-- No size overflows, nor does the hint that is computed from one. -/
def Reader.Fits (r : Reader) : Prop :=
  (∀ size ∈ sizes r.ctx.resumed r.ctx.size r.rest, size ≤ maxOff) ∧
    (parseChunked r.ctx r.rest).2.1.length ≤ maxOff

theorem parseByte_size (hsize : size ≤ maxOff) (h : parseByte state size ch = .next state' size') :
    size' ≤ maxOff := by
  have hmax := maxOff_eq
  have hdigit : ∀ digit, hexDigit? ch = some digit → digit ≤ 15 := fun _ => hexDigit?_le
  cases state <;> grind [parseByte, skipTo, expectLf, sizeEnd]

theorem loop_sizes (hsize : size ≤ maxOff) :
    (∀ z ∈ sizes state size b, z ≤ maxOff) ∧ (loop state size b).size ≤ maxOff := by
  induction b generalizing state size with
  | nil => exact ⟨fun z hz => absurd hz List.not_mem_nil, hsize⟩
  | cons ch b ih =>
      rw [sizes, loop]
      cases hstep : parseByte state size ch with
      | next state' size' =>
          have hsize' := parseByte_size hsize hstep
          obtain ⟨hsizes, hended⟩ := @ih size' state' hsize'
          exact ⟨List.forall_mem_cons.mpr ⟨hsize', hsizes⟩, hended⟩
      | data => exact ⟨fun z hz => absurd hz List.not_mem_nil, hsize⟩
      | done => exact ⟨fun z hz => absurd hz List.not_mem_nil, hsize⟩
      | invalid => exact ⟨fun z hz => absurd hz List.not_mem_nil, hsize⟩

theorem hint_le_maxOff (hsize : ¬maxOff - 5 < size) (state : Sw) : hint size state ≤ maxOff := by
  have hmax : 5 ≤ maxOff := by decide
  cases state <;> grind [hint]

def Reader.Bounded (r : Reader) : Prop := r.ctx.size ≤ maxOff ∧ r.ctx.length ≤ maxOff

theorem parseChunked_bounded (h : r.Bounded) :
    (parseChunked r.ctx r.rest).2.1.size ≤ maxOff ∧ (parseChunked r.ctx r.rest).2.1.length ≤ maxOff := by
  have hloop := (@loop_sizes r.rest r.ctx.size r.ctx.resumed h.1).2
  rw [parseChunked]
  generalize loop r.ctx.resumed r.ctx.size r.rest = ended at hloop
  cases ended with
  | data rc state size rest =>
      dsimp only
      split_ifs with hlarge
      · exact ⟨hloop, h.2⟩
      · exact ⟨hloop, hint_le_maxOff hlarge state⟩
  | done size rest => exact ⟨hloop, h.2⟩
  | invalid size => exact ⟨hloop, h.2⟩

theorem Reader.Bounded.fits (h : r.Bounded) : r.Fits :=
  ⟨(loop_sizes h.1).1, (parseChunked_bounded h).2⟩

theorem Reader.Bounded.step (h : r.Bounded) (hreads : r.Reads r') : r'.Bounded := by
  obtain ⟨hsize, hlength⟩ := parseChunked_bounded h
  rw [Reader.Reads, Reader.step] at hreads
  generalize parseChunked r.ctx r.rest = reply at hsize hlength hreads
  obtain ⟨rc, ctx, rest⟩ := reply
  cases rc with
  | ok =>
      obtain rfl := Option.some.inj hreads
      exact ⟨Nat.le_trans (Nat.sub_le _ _) hsize, hlength⟩
  | again =>
      cases hbuffers : r.buffers with
      | nil =>
          rw [hbuffers] at hreads
          cases hreads
      | cons b buffers =>
          rw [hbuffers] at hreads
          obtain rfl := Option.some.inj hreads
          exact ⟨hsize, hlength⟩
  | done => cases hreads
  | error => cases hreads

/-- A reader of a message does not come to a byte that is skipped. -/
theorem Rest.not_skips (h : Rest state size bytes data) (hstream : b ++ after = bytes ++ tail) :
    ¬Skips state size b := by
  induction b generalizing state size bytes with
  | nil => exact id
  | cons ch b ih =>
      by_cases hstate : state = .chunkData
      · subst hstate
        exact not_or.mpr ⟨fun hskipped => Sw.noConfusion hskipped.1, id⟩
      · have hafter := h
        obtain ⟨ch', rest, rfl, hleads⟩ := h.step hstate
        obtain ⟨rfl, hstream'⟩ := List.cons.inj hstream
        refine not_or.mpr ⟨?_, ?_⟩
        · rintro ⟨rfl, hcr, hlf⟩
          cases hafter with
          | afterData hend _ =>
              cases hend with
              | lf => exact hlf rfl
              | crlf => exact hcr rfl
        · cases hstep : parseByte state size ch with
          | next state' size' =>
              rw [hstep] at hleads
              exact ih hleads hstream'
          | data => exact id
          | done => exact id
          | invalid => exact id

theorem reading_of_done {rest : Bytes} {ctx : Chunked} (hsized : r.Sized) (hskips : ¬r.Skips)
    (hdone : parseChunked r.ctx r.rest = (.done, ctx, rest)) :
    r.Reading r.data (rest ++ r.buffers.flatten) := by
  have hback : (loop r.ctx.resumed r.ctx.size r.rest).Back r.ctx.resumed r.ctx.size r.rest :=
    loop_back hsized hskips
  rw [parseChunked] at hdone
  generalize loop r.ctx.resumed r.ctx.size r.rest = ended at hback hdone
  cases ended with
  | data rc state size left =>
      dsimp only at hdone
      split_ifs at hdone
      · cases hdone
      · obtain rfl : rc = .done := congrArg Prod.fst hdone
        obtain ⟨⟨h, -⟩ | ⟨h, -⟩, -⟩ := hback
        · cases h
        · cases h
  | done size left =>
      obtain rfl : left = rest := congrArg (fun reply => reply.2.2) hdone
      obtain ⟨read, hread, hrest⟩ := hback
      exact ⟨read, [], hrest, by rw [hread, List.append_assoc], List.append_nil _⟩
  | invalid size => cases hdone

/-- Every reader of a run that skips nothing has yet to read what the last one has read. -/
theorem reading_of_run (hrun : Relation.ReflTransGen Reader.Reads r r') (hsized : r.Sized)
    (hclean : Run.Always Reader.Reads (fun r => ¬r.Skips) r)
    (hend : r'.Sized → ¬r'.Skips → r'.Reading data tail) : r.Reading data tail := by
  induction hrun using Relation.ReflTransGen.head_induction_on with
  | refl => exact hend hsized (hclean r' .refl)
  | @head r next hreads _ ih =>
      obtain ⟨hsized', hreading⟩ : next.Sized ∧ ∀ data, next.Reading data tail → r.Reading data tail :=
        hreads.back hsized (hclean r .refl)
      exact hreading data (ih hsized' fun r'' hreach => hclean r'' (.head hreads hreach))

theorem never_skips {first : Bytes} {buffers : List Bytes} (hbody : Body maxChunk bytes data)
    (hstream : first ++ buffers.flatten = bytes ++ tail) :
    Run.Always Reader.Reads (fun r => ¬r.Skips) (Reader.start first buffers) := by
  have hstep : ∀ s s' : Reader, s.Reading data tail → s.Reads s' → s'.Reading data tail :=
    fun _ _ h hreads => (h.step hreads).1
  have hgood : ∀ s : Reader, s.Reading data tail → ¬s.Skips :=
    fun _ ⟨_, _, hrest, hstream, _⟩ => hrest.not_skips hstream
  exact Run.always_of_invariant hstep hgood (reading_start hbody hstream)

/-- A reader that comes to the end of what it takes for a message has read one if and only if no
call has skipped a byte behind the data of a chunk. -/
theorem parseChunked_done_iff {first rest : Bytes} {buffers : List Bytes} {r : Reader} {ctx : Chunked}
    (hrun : Relation.ReflTransGen Reader.Reads (Reader.start first buffers) r)
    (hdone : parseChunked r.ctx r.rest = (.done, ctx, rest)) :
    ((∃ bytes, first ++ buffers.flatten = bytes ++ (rest ++ r.buffers.flatten) ∧
        Body (maxOff / 16) bytes r.data) ∧
      Run.Always Reader.Reads Reader.Fits (Reader.start first buffers)) ↔
      Run.Always Reader.Reads (fun r => ¬r.Skips) (Reader.start first buffers) := by
  have hstart : (Reader.start first buffers).Sized := rfl
  have hbounded : (Reader.start first buffers).Bounded := ⟨Nat.zero_le _, Nat.zero_le _⟩
  constructor
  · intro ⟨⟨bytes, hstream, hbody⟩, _⟩
    exact never_skips hbody hstream
  · intro hclean
    have hstep : ∀ s s' : Reader, s.Bounded → s.Reads s' → s'.Bounded := fun _ _ h hreads =>
      h.step hreads
    refine ⟨?_, Run.always_of_invariant hstep (fun _ h => h.fits) hbounded⟩
    obtain ⟨bytes, left, hrest, hstream, hdata⟩ := reading_of_run hrun hstart hclean
      fun hsized hskips => reading_of_done hsized hskips hdone
    cases hrest with
    | chunkStart hbody => exact ⟨bytes, hstream, hdata ▸ hbody⟩

/-- `x` stands between the data `a` and its line end. -/
def skipping : Bytes := [49, 10, 97, 120, 10, 48, 10, 10]

/-- The reader that has taken the data. -/
def skippingReader : Reader := ⟨⟨.chunkData, 0, 5⟩, [120, 10, 48, 10, 10], [], [97]⟩

theorem skipping_run : Relation.ReflTransGen Reader.Reads (Reader.start skipping []) skippingReader :=
  .single rfl

theorem skipping_done :
    parseChunked skippingReader.ctx skippingReader.rest = (.done, ⟨.chunkStart, 0, 5⟩, []) := by
  decide

theorem skipping_skips : skippingReader.Skips := .inl ⟨rfl, by decide, by decide⟩

/-- The run is over, and has read no message. -/
theorem parseChunked_done_iff_skipping :
    ¬((∃ bytes, skipping ++ ([] : List Bytes).flatten = bytes ++ ([] ++ ([] : List Bytes).flatten) ∧
        Body (maxOff / 16) bytes [97]) ∧
      Run.Always Reader.Reads Reader.Fits (Reader.start skipping [])) := fun h =>
  (parseChunked_done_iff skipping_run skipping_done).mp h skippingReader skipping_run skipping_skips

theorem parseChunked_done_not_body :
    ¬∀ (first rest : Bytes) (buffers : List Bytes) (r : Reader) (ctx : Chunked),
      Relation.ReflTransGen Reader.Reads (Reader.start first buffers) r →
      parseChunked r.ctx r.rest = (.done, ctx, rest) →
      ∃ bytes, first ++ buffers.flatten = bytes ++ (rest ++ r.buffers.flatten) ∧
        Body (maxOff / 16) bytes r.data := by
  intro h
  obtain ⟨bytes, hstream, hbody⟩ := h _ _ _ _ _ skipping_run skipping_done
  exact never_skips hbody hstream skippingReader skipping_run skipping_skips

end ParseChunked

end RebuildTheWheel.Nginx
