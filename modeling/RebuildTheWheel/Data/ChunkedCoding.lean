import RebuildTheWheel.Data.Ascii

namespace RebuildTheWheel.Data

open Ascii

/-! The chunked transfer coding, with lines that end in LF or CRLF. A form relates what is left of a
message to what comes after the form in it. -/

namespace ChunkedCoding

inductive LineEnd (rest : Bytes) : Bytes → Prop where
  | lf : LineEnd rest (newline :: rest)
  | crlf : LineEnd rest (carriageReturn :: newline :: rest)

/-- The bytes of a line and its end. -/
inductive Line (rest : Bytes) : Bytes → Prop where
  | ending : LineEnd rest bytes → Line rest bytes
  | byte : c ≠ carriageReturn → c ≠ newline → Line rest bytes → Line rest (c :: bytes)

def semicolon : UInt8 := 59

/-- The end of a size line, which may have extensions. -/
inductive SizeEnd (rest : Bytes) : Bytes → Prop where
  | ending : LineEnd rest bytes → SizeEnd rest bytes
  | extension : c ∈ [semicolon, space, tab] → Line rest bytes → SizeEnd rest (c :: bytes)

/-- A size line after some digits: their value, and the size that the line gives. -/
inductive SizeLine (rest : Bytes) : Nat → Nat → Bytes → Prop where
  | ending : SizeEnd rest bytes → SizeLine rest size size bytes
  | digit : hexVal? c = some v → SizeLine rest (size * 16 + v) final bytes →
      SizeLine rest size final (c :: bytes)

/-- The trailer of a message, with the empty line that ends it. -/
inductive Trailer : Bytes → Prop where
  | last : LineEnd [] bytes → Trailer bytes
  | field : c ≠ carriageReturn → c ≠ newline → Line rest bytes → Trailer rest → Trailer (c :: bytes)

/-- A message and its data, with no chunk larger than `limit`. -/
inductive Body (limit : Nat) : Bytes → Bytes → Prop where
  | last : hexVal? c = some v → SizeLine rest v 0 bytes → Trailer rest → Body limit (c :: bytes) []
  | chunk : hexVal? c = some v → SizeLine (content ++ tail) v content.length bytes → content ≠ [] →
      content.length ≤ limit → LineEnd rest tail → Body limit rest data →
      Body limit (c :: bytes) (content ++ data)

variable {bytes rest data : Bytes} {size final limit : Nat}

/-! The shortest messages. -/

theorem LineEnd.length (h : LineEnd rest bytes) : rest.length + 1 ≤ bytes.length := by
  cases h with
  | lf => exact Nat.le_refl _
  | crlf => exact Nat.le_succ _

theorem Line.length (h : Line rest bytes) : rest.length + 1 ≤ bytes.length := by
  induction h with
  | ending hend => exact hend.length
  | byte _ _ _ ih => exact Nat.le_succ_of_le ih

theorem SizeEnd.length (h : SizeEnd rest bytes) : rest.length + 1 ≤ bytes.length := by
  cases h with
  | ending hend => exact hend.length
  | extension _ hline => exact Nat.le_succ_of_le hline.length

theorem SizeLine.length (h : SizeLine rest size final bytes) : rest.length + 1 ≤ bytes.length := by
  induction h with
  | ending hend => exact hend.length
  | digit _ _ ih => exact Nat.le_succ_of_le ih

theorem SizeLine.size_le (h : SizeLine rest size final bytes) : size ≤ final := by
  induction h with
  | ending _ => exact Nat.le_refl _
  | digit _ _ ih => omega

theorem Trailer.length (h : Trailer bytes) : 1 ≤ bytes.length := by
  cases h with
  | last hend => exact hend.length
  | field _ _ _ _ => exact Nat.succ_pos _

theorem Body.length (h : Body limit bytes data) : 3 ≤ bytes.length := by
  induction h with
  | last _ hline htrailer =>
      have hrest := htrailer.length
      have hbytes := hline.length
      rw [List.length_cons]
      omega
  | chunk _ hline _ _ hend _ ih =>
      have htail := hend.length
      have hbytes := hline.length
      rw [List.length_append] at hbytes
      rw [List.length_cons]
      omega

end ChunkedCoding

end RebuildTheWheel.Data
