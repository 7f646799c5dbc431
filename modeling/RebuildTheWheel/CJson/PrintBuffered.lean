import RebuildTheWheel.CJson.Print

namespace RebuildTheWheel.CJson

open RebuildTheWheel.Data
open RebuildTheWheel.Data.Ascii

/-! The printer of `cJSON.c` into a growing buffer. `none` is a result the source
does not have: a size overflows `int`, or a byte outside the block or not yet
written is used. -/

/-- `pow2gt` -/
def pow2gt (x : Nat) : Option Nat :=
  let x := x - 1
  let x := x ||| x >>> 1
  let x := x ||| x >>> 2
  let x := x ||| x >>> 4
  let x := x ||| x >>> 8
  let x := x ||| x >>> 16
  int? (x + 1)

/-- `printbuffer`; a byte of the block is `none` until it is written. -/
structure PrintBuffer where
  buffer : List (Option UInt8)
  offset : Nat

/-- The C string at a place of the block. -/
def readString : List (Option UInt8) → Option Bytes
  | some b :: rest => if b = 0 then some [] else (b :: ·) <$> readString rest
  | _ => none

namespace PrintBuffer

def length (p : PrintBuffer) : Nat := p.buffer.length

/-- `ensure` -/
def ensure (p : PrintBuffer) (needed : Nat) : Option PrintBuffer :=
  let needed := needed + p.offset
  if needed ≤ p.length then some p
  else do
    let newsize ← pow2gt needed
    some { p with buffer := p.buffer ++ List.replicate (newsize - p.length) none }

/-- Stores from `p->buffer + p->offset` on. -/
def store (p : PrintBuffer) (bytes : Bytes) : Option PrintBuffer :=
  if p.offset + bytes.length ≤ p.length then
    some { p with buffer := p.buffer.take p.offset ++
      (bytes.map some ++ p.buffer.drop (p.offset + bytes.length)) }
  else none

/-- `ensure`, the stores into the space and the step of `offset`. -/
def emit (p : PrintBuffer) (needed : Nat) (bytes : Bytes) (step : Nat) : Option PrintBuffer := do
  let p ← p.ensure needed
  let p ← p.store bytes
  some { p with offset := p.offset + step }

/-- `p->offset=update(p)` -/
def update (p : PrintBuffer) : Option PrintBuffer := do
  let str ← readString (p.buffer.drop p.offset)
  let offset ← int? (p.offset + str.length)
  some { p with offset := offset }

/-- `print_string_ptr` -/
def putString (p : PrintBuffer) (str : Option Bytes) : Option PrintBuffer := do
  let (size, text) := printStringPtr (← str)
  p.emit size (text ++ [0]) 0

def putIndent (p : PrintBuffer) (fmt : Bool) (depth : Nat) : Option PrintBuffer :=
  if fmt then p.emit depth (indent fmt depth) depth else some p

/-- What stands before a child in the loop of its container. -/
def putBefore (p : PrintBuffer) (fmt object : Bool) (depth : Nat) (child : ItemData) :
    Option PrintBuffer :=
  if object then do
    let p ← p.putIndent fmt depth
    let p ← p.putString child.string
    let p ← p.update
    let len := if fmt then 2 else 1
    p.emit len (colon :: if fmt then [tab] else []) len
  else some p

/-- What stands behind it. -/
def putAfter (p : PrintBuffer) (fmt object last : Bool) : Option PrintBuffer :=
  if object then
    let len := (if fmt then 1 else 0) + (if last then 0 else 1)
    p.emit (len + 1) ((if last then [] else [comma]) ++ lineBreak fmt ++ [0]) len
  else if last then some p
  else
    let len := if fmt then 2 else 1
    p.emit (len + 1) ((comma :: if fmt then [space] else []) ++ [0]) len

/-- `print_value` on an item whose children `children` prints, as the members of
an object or as the elements of an array. -/
def putNode (p : PrintBuffer) (fmt : Bool) (depth : Nat) (item : ItemData) (empty : Bool)
    (children : Bool → PrintBuffer → Option PrintBuffer) : Option PrintBuffer :=
  match item.type.kind with
  | .null => p.emit 5 (nullText ++ [0]) 0
  | .false => p.emit 6 (falseText ++ [0]) 0
  | .true => p.emit 5 (trueText ++ [0]) 0
  | .number =>
      let (size, text) := printNumber item
      p.emit size (text ++ [0]) 0
  | .string => p.putString item.valuestring
  | .array =>
      if empty then p.emit 3 ([lbracket, rbracket] ++ [0]) 0
      else do
        let p ← p.emit 1 [lbracket] 1
        let p ← children false p
        p.emit 2 ([rbracket] ++ [0]) 0
  | .object =>
      if empty then
        p.emit (if fmt then depth + 4 else 3)
          (lbrace :: (lineBreak fmt ++ (indent fmt (depth - 1) ++ [rbrace])) ++ [0]) 0
      else do
        let len := if fmt then 2 else 1
        let p ← p.emit (len + 1) (lbrace :: lineBreak fmt ++ [0]) len
        let p ← children true p
        p.emit (if fmt then depth + 2 else 2) (indent fmt depth ++ [rbrace] ++ [0]) 0

end PrintBuffer

/-- The loop over the children of a container. -/
def putChain (fmt : Bool) : Nat → Item → Bool → PrintBuffer → Option PrintBuffer
  | _, .null, _, p => some p
  | depth, .node data child next, object, p => do
      let p ← p.putBefore fmt object depth data
      let p ← p.putNode fmt depth data child.isNull (putChain fmt (depth + 1) child)
      let p ← p.update
      let p ← p.putAfter fmt object next.isNull
      putChain fmt depth next object p

/-- `cJSON_PrintBuffered` -/
def printBuffered (item : Item) (prebuffer : Nat) (fmt : Bool) : Option Bytes :=
  match item with
  | .null => none
  | .node data child _ => do
      let p : PrintBuffer := { buffer := List.replicate prebuffer none, offset := 0 }
      let p ← p.putNode fmt 0 data child.isNull (putChain fmt 1 child)
      readString p.buffer

/-! The text so far stands at the start of the block. -/

structure Holds (p : PrintBuffer) (text : Bytes) : Prop where
  offset_eq : p.offset = text.length
  buffer_eq : ∃ rest, p.buffer = text.map some ++ rest

/-- Behind it stands `out` with its NUL, not yet counted by `offset`. -/
structure Pending (p : PrintBuffer) (text out : Bytes) : Prop where
  offset_eq : p.offset = text.length
  buffer_eq : ∃ rest, p.buffer = (text ++ out ++ [0]).map some ++ rest

theorem pow2gt_eq {x : Nat} (hpos : 0 < x) (hx : x ≤ 2 ^ 30) : ∃ m, pow2gt x = some m ∧ x ≤ m := by
  have hgrow : ∀ {y : Nat} (k : Nat), x - 1 ≤ y ∧ y < 2 ^ 30 →
      x - 1 ≤ y ||| y >>> k ∧ y ||| y >>> k < 2 ^ 30 := by
    intro y k hy
    refine ⟨hy.1.trans Nat.left_le_or, Nat.or_lt_two_pow hy.2 ?_⟩
    exact (Nat.shiftRight_le y k).trans_lt hy.2
  have hall := hgrow 16 (hgrow 8 (hgrow 4 (hgrow 2 (hgrow 1 (y := x - 1) ⟨le_rfl, by omega⟩))))
  refine ⟨_, int?_eq_some.mpr ⟨?_, rfl⟩, ?_⟩
  · exact Nat.succ_le_of_lt (hall.2.trans (by norm_num))
  · omega

namespace Holds

theorem ensure_eq {p : PrintBuffer} (h : Holds p text) {needed : Nat} (hpos : 0 < needed)
    (hneeded : needed + text.length ≤ 2 ^ 30) :
    ∃ p', p.ensure needed = some p' ∧ Holds p' text ∧ needed + text.length ≤ p'.length := by
  simp only [PrintBuffer.ensure, h.offset_eq]
  split
  · next hle => exact ⟨p, rfl, h, hle⟩
  · next hlt =>
      obtain ⟨m, hm, hle⟩ := pow2gt_eq (by omega) hneeded
      obtain ⟨rest, hbuffer⟩ := h.buffer_eq
      refine ⟨⟨p.buffer ++ List.replicate (m - p.length) none, text.length⟩, by rw [hm]; rfl,
        ⟨rfl, ?_⟩, ?_⟩
      · exact ⟨rest ++ List.replicate (m - p.length) none, by rw [hbuffer, List.append_assoc]⟩
      · simp only [PrintBuffer.length, List.length_append, List.length_replicate] at hlt ⊢
        omega

theorem emit_eq {p : PrintBuffer} (h : Holds p text) {needed : Nat} (bytes : Bytes) (step : Nat)
    (hpos : 0 < needed) (hneeded : needed + text.length ≤ 2 ^ 30)
    (hbytes : bytes.length ≤ needed) :
    ∃ p', p.emit needed bytes step = some p' ∧ p'.offset = text.length + step ∧
      ∃ rest, p'.buffer = (text ++ bytes).map some ++ rest := by
  obtain ⟨p1, hensure, h1, hlength⟩ := h.ensure_eq hpos hneeded
  obtain ⟨rest, hbuffer⟩ := h1.buffer_eq
  have hstore : p1.store bytes = some { p1 with buffer := p1.buffer.take p1.offset ++
      (bytes.map some ++ p1.buffer.drop (p1.offset + bytes.length)) } := by
    apply if_pos
    rw [h1.offset_eq]
    omega
  have htake : p1.buffer.take p1.offset = text.map some := by
    rw [hbuffer, h1.offset_eq, ← List.length_map (f := some), List.take_left]
  refine ⟨_, by rw [PrintBuffer.emit, hensure, Option.bind_eq_bind, Option.bind_some, hstore]; rfl,
    by rw [h1.offset_eq], p1.buffer.drop (p1.offset + bytes.length), ?_⟩
  rw [htake, List.map_append, List.append_assoc]

/-- Stores without a NUL. -/
theorem emit_raw {p : PrintBuffer} (h : Holds p text) {needed step : Nat} {bytes : Bytes}
    (hpos : 0 < needed) (hneeded : needed + text.length ≤ 2 ^ 30)
    (hbytes : bytes.length ≤ needed) (hstep : step = bytes.length) :
    ∃ p', p.emit needed bytes step = some p' ∧ Holds p' (text ++ bytes) := by
  obtain ⟨p', hemit, hoffset, hbuffer⟩ := h.emit_eq bytes step hpos hneeded hbytes
  exact ⟨p', hemit, by rw [hoffset, hstep, List.length_append], hbuffer⟩

/-- Stores with a NUL that `offset` stays before. -/
theorem emit_terminated {p : PrintBuffer} (h : Holds p text) {needed step : Nat} {bytes : Bytes}
    (hneeded : needed + text.length ≤ 2 ^ 30) (hbytes : bytes.length < needed)
    (hstep : step = bytes.length) :
    ∃ p', p.emit needed (bytes ++ [0]) step = some p' ∧ Holds p' (text ++ bytes) := by
  obtain ⟨p', hemit, hoffset, rest, hbuffer⟩ :=
    h.emit_eq (bytes ++ [0]) step (by omega) hneeded (by simp; omega)
  refine ⟨p', hemit, by rw [hoffset, hstep, List.length_append], some 0 :: rest, ?_⟩
  rw [hbuffer]
  simp

theorem emit_pending {p : PrintBuffer} (h : Holds p text) {needed : Nat} {bytes : Bytes}
    (hneeded : needed + text.length ≤ 2 ^ 30) (hbytes : bytes.length < needed) :
    ∃ p', p.emit needed (bytes ++ [0]) 0 = some p' ∧ Pending p' text bytes := by
  obtain ⟨p', hemit, hoffset, rest, hbuffer⟩ :=
    h.emit_eq (bytes ++ [0]) 0 (by omega) hneeded (by simp; omega)
  refine ⟨p', hemit, by rw [hoffset, Nat.add_zero], rest, ?_⟩
  rw [hbuffer, List.append_assoc]

end Holds

theorem readString_append {str : Bytes} (hnul : 0 ∉ str) (rest : List (Option UInt8)) :
    readString ((str ++ [0]).map some ++ rest) = some str := by
  induction str with
  | nil => rfl
  | cons b str ih =>
      simp only [List.mem_cons, not_or] at hnul
      simp only [List.cons_append, List.map_cons, readString, if_neg (Ne.symm hnul.1), ih hnul.2]
      rfl

theorem Pending.update_eq {p : PrintBuffer} (h : Pending p text out) (hnul : 0 ∉ out)
    (hlength : text.length + out.length ≤ intMax) :
    ∃ p', p.update = some p' ∧ Holds p' (text ++ out) := by
  obtain ⟨rest, hbuffer⟩ := h.buffer_eq
  have hdrop : p.buffer.drop p.offset = (out ++ [0]).map some ++ rest := by
    rw [hbuffer, h.offset_eq, List.append_assoc, List.map_append, List.append_assoc,
      ← List.length_map (f := some), List.drop_left]
  refine ⟨{ p with offset := text.length + out.length }, ?_, by rw [List.length_append],
    some 0 :: rest, ?_⟩
  · rw [PrintBuffer.update, hdrop, readString_append hnul, h.offset_eq]
    simp [int?, hlength]
  · rw [hbuffer]
    simp

end RebuildTheWheel.CJson
