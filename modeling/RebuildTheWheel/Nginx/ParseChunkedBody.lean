import RebuildTheWheel.Data.Run
import RebuildTheWheel.Nginx.ParseChunked

namespace RebuildTheWheel.Nginx

open Data Data.Ascii Data.ChunkedCoding

/-! A message that comes in buffers. -/

namespace ParseChunked

/-- The loop leaves this data and the bytes before `tail`, or it has come to the end of the message. -/
inductive Leaves (b later tail data : Bytes) : Ended → Prop where
  | again : Rest state size bytes data → later = bytes ++ tail →
      Leaves b later tail data (.data .again state size [])
  | ok : Rest .chunkData size bytes data → rest ++ later = bytes ++ tail → rest ≠ [] →
      rest.length ≤ b.length → Leaves b later tail data (.data .ok .chunkData size rest)
  | done : data = [] → rest ++ later = tail → Leaves b later tail data (.done size rest)

/-- A caller has yet to read the bytes before `tail`, and they complete its data. -/
def Reader.Reading (data tail : Bytes) (r : Reader) : Prop :=
  ∃ bytes left, Rest r.ctx.resumed r.ctx.size bytes left ∧
    r.rest ++ r.buffers.flatten = bytes ++ tail ∧ r.data ++ left = data

/-- The calls of such a caller. -/
inductive Reader.Call (data tail : Bytes) (r : Reader) : Code × Chunked × Bytes → Prop where
  | again : Rest state size bytes left → r.buffers.flatten = bytes ++ tail → r.data ++ left = data →
      Reader.Call data tail r (.again, ⟨state, size, hint size state⟩, [])
  | ok : Rest .chunkData size bytes left → unread ++ r.buffers.flatten = bytes ++ tail →
      r.data ++ left = data → unread ≠ [] → unread.length ≤ r.rest.length →
      Reader.Call data tail r (.ok, ⟨.chunkData, size, hint size .chunkData⟩, unread)
  | done : r.data = data → unread ++ r.buffers.flatten = tail →
      Reader.Call data tail r (.done, chunked, unread)

/-- What a call returns: the bytes before `tail` are those of the message that are to come. -/
def Reader.Returns (data tail : Bytes) (r : Reader) : Prop :=
  match parseChunked r.ctx r.rest with
  | (.done, _, rest) => r.data = data ∧ rest ++ r.buffers.flatten = tail
  | (.error, _, _) => False
  | (_, ctx, rest) => ctx.length + tail.length ≤ rest.length + r.buffers.flatten.length

def Reader.Reads (r r' : Reader) : Prop := r.step = some r'

variable {bytes b later tail data : Bytes} {size n : Nat} {state : Sw} {r r' : Reader}

theorem Leaves.mono {ch : UInt8} {ended : Ended} (h : Leaves b later tail data ended) :
    Leaves (ch :: b) later tail data ended := by
  cases h with
  | again hrest hlater => exact .again hrest hlater
  | ok hrest hlater hne hle => exact .ok hrest hlater hne (Nat.le_succ_of_le hle)
  | done hdata htail => exact .done hdata htail

theorem Rest.loop (h : Rest state size bytes data) (hstream : b ++ later = bytes ++ tail) :
    Leaves b later tail data (loop state size b) := by
  induction b generalizing state size bytes with
  | nil => exact .again h hstream
  | cons ch b ih =>
      by_cases hstate : state = .chunkData
      · subst hstate
        exact .ok h hstream (List.cons_ne_nil ch b) (Nat.le_refl _)
      · obtain ⟨ch', rest, rfl, hleads⟩ := h.step hstate
        obtain ⟨rfl, hstream'⟩ := List.cons.inj hstream
        rw [ParseChunked.loop]
        cases hstep : parseByte state size ch with
        | next state' size' =>
            rw [hstep] at hleads
            exact (ih hleads hstream').mono
        | data => exact (hstep ▸ hleads).elim
        | done =>
            rw [hstep] at hleads
            obtain ⟨rfl, hdata⟩ := hleads
            exact .done hdata hstream'
        | invalid => exact (hstep ▸ hleads).elim

theorem Rest.size_small (h : Rest state size bytes data) : ¬maxOff - 5 < size := by
  have hsize : size ≤ maxOff / 16 := h.size_le
  omega

theorem Reader.Reading.call (h : r.Reading data tail) : r.Call data tail (parseChunked r.ctx r.rest) := by
  obtain ⟨bytes, left, hrest, hstream, hdata⟩ := h
  have hloop := hrest.loop hstream
  rw [parseChunked]
  generalize ParseChunked.loop r.ctx.resumed r.ctx.size r.rest = ended at hloop
  cases hloop with
  | again hrest' hlater =>
      dsimp only
      rw [if_neg hrest'.size_small]
      exact .again hrest' hlater hdata
  | ok hrest' hlater hne hle =>
      dsimp only
      rw [if_neg hrest'.size_small]
      exact .ok hrest' hlater hdata hne hle
  | done hleft htail =>
      rw [hleft, List.append_nil] at hdata
      exact .done hdata htail

theorem Reader.Reading.returns (h : r.Reading data tail) : r.Returns data tail := by
  have hcall := h.call
  rw [Reader.Returns]
  generalize parseChunked r.ctx r.rest = reply at hcall
  cases hcall with
  | again hrest hstream _ =>
      have hhint := hrest.hint_le
      have hlength := congrArg List.length hstream
      rw [List.length_append] at hlength
      change hint _ _ + tail.length ≤ 0 + _
      omega
  | @ok size _ _ unread hrest hstream _ _ _ =>
      have hhint := hrest.hint_le
      have hlength := congrArg List.length hstream
      rw [List.length_append, List.length_append] at hlength
      change hint size .chunkData + tail.length ≤ unread.length + r.buffers.flatten.length
      omega
  | done hdata htail => exact ⟨hdata, htail⟩

/-- A caller that has read all of the data of a chunk, or all of its buffer. -/
theorem Rest.take {rest left : Bytes} (h : Rest .chunkData size bytes left)
    (hstream : rest ++ later = bytes ++ tail) :
    ∃ bytes' left', Rest (Chunked.resumed ⟨.chunkData, size - min size rest.length, n⟩)
        (size - min size rest.length) bytes' left' ∧
      rest.drop (min size rest.length) ++ later = bytes' ++ tail ∧
      rest.take (min size rest.length) ++ left' = left := by
  cases h with
  | chunkData hsize hfollows =>
      cases hfollows with
      | last _ => exact absurd rfl hsize
      | @chunk content rest' tail' data hne hle hend hbody =>
          rw [List.append_assoc] at hstream
          rcases List.append_eq_append_iff.mp hstream with ⟨more, rfl, hlater⟩ | ⟨more, rfl, hafter⟩
          · by_cases hmore : more = []
            · subst hmore
              rw [List.append_nil, Nat.min_self, Nat.sub_self, List.drop_length, List.take_length]
              exact ⟨tail', data, .afterData hend hbody, hlater, rfl⟩
            · have hpos := List.length_pos_iff.mpr hmore
              rw [List.length_append, Nat.min_eq_right (Nat.le_add_right _ _), Nat.add_sub_cancel_left,
                List.drop_length, List.take_length]
              rw [List.length_append] at hle
              have hrest : Rest .chunkData more.length (more ++ tail') (more ++ data) :=
                .chunkData (by omega) (.chunk hmore (by omega) hend hbody)
              have hresumed : Chunked.resumed ⟨.chunkData, more.length, n⟩ = .chunkData :=
                Rest.resumed hrest
              refine ⟨more ++ tail', more ++ data, ?_, ?_, ?_⟩
              · rw [hresumed]
                exact hrest
              · rw [hlater, List.append_assoc]
                rfl
              · rw [List.append_assoc]
          · rw [List.length_append, Nat.min_eq_left (Nat.le_add_right _ _), Nat.sub_self,
              List.drop_left, List.take_left]
            exact ⟨tail', data, .afterData hend hbody, hafter.symm, rfl⟩

/-- What becomes fewer from call to call. -/
def Reader.toCome (r : Reader) : Nat := r.rest.length + r.buffers.flatten.length + r.buffers.length

theorem Rest.size_ne (h : Rest .chunkData size bytes data) : size ≠ 0 := by
  cases h with
  | chunkData hsize _ => exact hsize

theorem Reader.Reading.step (h : r.Reading data tail) (hreads : r.Reads r') :
    r'.Reading data tail ∧ r'.toCome < r.toCome := by
  have hcall := h.call
  rw [Reader.Reads, Reader.step] at hreads
  generalize parseChunked r.ctx r.rest = reply at hcall hreads
  cases hcall with
  | @again _ _ bytes left hrest hstream hdata =>
      cases hbuffers : r.buffers with
      | nil =>
          rw [hbuffers] at hreads
          exact nomatch hreads
      | cons b buffers =>
          rw [hbuffers] at hreads hstream
          obtain rfl := Option.some.inj hreads
          refine ⟨⟨bytes, left, ?_, hstream, hdata⟩, ?_⟩
          · rw [Rest.resumed hrest]
            exact hrest
          · rw [Reader.toCome, Reader.toCome, hbuffers, List.flatten_cons, List.length_append,
              List.length_cons]
            dsimp only
            omega
  | @ok size bytes left unread hrest hstream hdata hne hle =>
      obtain rfl := Option.some.inj hreads
      obtain ⟨bytes', left', hrest', hstream', hleft⟩ := hrest.take hstream
      refine ⟨⟨bytes', left', hrest', hstream', ?_⟩, ?_⟩
      · rw [List.append_assoc, hleft, hdata]
      · have hsize := hrest.size_ne
        have hunread := List.length_pos_iff.mpr hne
        rw [Reader.toCome, Reader.toCome, List.length_drop]
        dsimp only
        omega
  | done _ _ => exact nomatch hreads

/-- A caller goes on until the message has ended. -/
theorem Reader.Reading.done_of_stuck (h : r.Reading data tail) (hstuck : ∀ r', ¬r.Reads r') :
    (parseChunked r.ctx r.rest).1 = .done := by
  have hcall := h.call
  simp only [Reader.Reads, Reader.step] at hstuck
  generalize parseChunked r.ctx r.rest = reply at hcall hstuck
  cases hcall with
  | again hrest hstream _ =>
      cases hbuffers : r.buffers with
      | nil =>
          rw [hbuffers, List.flatten_nil] at hstream
          exact absurd (List.append_eq_nil_iff.mp hstream.symm).1 hrest.bytes_ne
      | cons b buffers =>
          rw [hbuffers] at hstuck
          exact absurd rfl (hstuck _)
  | ok => exact absurd rfl (hstuck _)
  | done _ _ => rfl

theorem reading_start {buffers : List Bytes} (h : Body maxChunk bytes data)
    (hstream : b ++ buffers.flatten = bytes ++ tail) : (Reader.start b buffers).Reading data tail :=
  ⟨bytes, data, .chunkStart h, hstream, rfl⟩

/-- However a message and what follows it are divided into buffers, each call before the last one hints
at no more bytes than are to come, and the last one finds the end of the message. -/
theorem parseChunked_body {first : Bytes} {buffers : List Bytes} (h : Body (maxOff / 16) bytes data)
    (hstream : first ++ buffers.flatten = bytes ++ tail) :
    Run.Always Reader.Reads (Reader.Returns data tail) (Reader.start first buffers) ∧
      ∃ r, Relation.ReflTransGen Reader.Reads (Reader.start first buffers) r ∧
        (parseChunked r.ctx r.rest).1 = .done := by
  have hstart := reading_start h hstream
  have hstep : ∀ r r', Reader.Reading data tail r → Reader.Reads r r' →
      Reader.Reading data tail r' ∧ r'.toCome < r.toCome := fun _ _ hreading hreads => hreading.step hreads
  have hreturns : ∀ r, Reader.Reading data tail r → Reader.Returns data tail r :=
    fun _ hreading => hreading.returns
  obtain ⟨r, hreach, hreading, hstuck⟩ := Run.exists_stuck Reader.toCome hstep hstart
  exact ⟨Run.always_of_invariant (fun r r' hreading hreads => (hstep r r' hreading hreads).1) hreturns hstart,
    r, hreach, hreading.done_of_stuck hstuck⟩

/-- The byte `x` in a message that is cut after its first byte and at the end of its data. -/
theorem parseChunked_body_cut :
    Run.Always Reader.Reads (Reader.Returns [120] [1]) (Reader.start [49] [[10, 120], [10, 48, 10, 10, 1]]) ∧
      ∃ r, Relation.ReflTransGen Reader.Reads (Reader.start [49] [[10, 120], [10, 48, 10, 10, 1]]) r ∧
        (parseChunked r.ctx r.rest).1 = .done := by
  have hbody : Body (maxOff / 16) [49, 10, 120, 10, 48, 10, 10] [120] := by
    have hlast : Body (maxOff / 16) [48, 10, 10] [] :=
      .last (v := 0) rfl (.ending (.ending .lf)) (.last .lf)
    have hline : SizeLine ([120] ++ [10, 48, 10, 10]) 1 [(120 : UInt8)].length [10, 120, 10, 48, 10, 10] :=
      .ending (.ending .lf)
    exact .chunk rfl hline (List.cons_ne_nil _ _) (by decide) .lf hlast
  exact parseChunked_body hbody rfl

/-- A chunk that is larger than the sizes that are taken, with the least such size. -/
def largeChunk : Bytes := List.replicate (maxOff / 16 + 1) 0

/-- Its size line. -/
def largeSize : Bytes := [56, 48, 48, 48, 48, 48, 48, 48, 48, 48, 48, 48, 48, 48, 48, 10]

theorem parse_largeSize (after : Bytes) :
    (parseChunked ⟨.chunkStart, 0, 0⟩ (largeSize ++ after)).1 = .error := rfl

theorem sizeLine_largeSize {content after : Bytes} (h : content.length = 576460752303423488) :
    SizeLine after 8 content.length (largeSize.tail ++ after) := by
  rw [h]
  iterate 14 refine .digit (v := 0) rfl ?_
  exact .ending (.ending .lf)

theorem parseChunked_largeChunk :
    Body (maxOff / 16 + 1) (largeSize ++ (largeChunk ++ [10, 48, 10, 10])) (largeChunk ++ []) ∧
      (parseChunked ⟨.chunkStart, 0, 0⟩ (largeSize ++ (largeChunk ++ [10, 48, 10, 10]))).1 = .error := by
  have hlength : largeChunk.length = 576460752303423488 := List.length_replicate
  have hlast : Body (maxOff / 16 + 1) [48, 10, 10] [] :=
    .last (v := 0) rfl (.ending (.ending .lf)) (.last .lf)
  refine ⟨.chunk (v := 8) rfl (sizeLine_largeSize hlength) ?_ (Nat.le_of_eq hlength) .lf hlast,
    parse_largeSize _⟩
  exact List.length_pos_iff.mp (hlength ▸ Nat.succ_pos _)

end ParseChunked

end RebuildTheWheel.Nginx
