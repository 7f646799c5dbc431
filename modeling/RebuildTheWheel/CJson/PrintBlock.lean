import RebuildTheWheel.CJson.PrintBuffered

namespace RebuildTheWheel.CJson

open RebuildTheWheel.Data
open RebuildTheWheel.Data.Ascii

/-! The printer of `cJSON.c` without a buffer, store by store into the blocks it
allocates. The outer `none` is a result the source does not have: a store outside
the block, an `int` that overflows in a sum of `int`s, or a null string that is read.
The inner `none` is the null pointer the printer returns. -/

namespace PrintBuffer

/-- Stores with the pointer stepping over them. -/
def put (p : PrintBuffer) (bytes : Bytes) : Option PrintBuffer := do
  let p ← p.store bytes
  some { p with offset := p.offset + bytes.length }

/-- `ptr+len` -/
def advance (p : PrintBuffer) (len : Int32) : Option PrintBuffer :=
  let offset := p.offset + len.toInt
  if 0 ≤ offset then some { p with offset := offset.toNat } else none

end PrintBuffer

/-- `cJSON_malloc(len)` and the stores into the block. No block has the size a
negative `len` is converted to. -/
def withBlock (len : Int) (write : PrintBuffer → Option PrintBuffer) : Option (Option Bytes) :=
  if len < 0 then some none
  else do
    let p ← write { buffer := List.replicate len.toNat none, offset := 0 }
    let out ← readString p.buffer
    some (some out)

/-- `print_number` -/
def writeNumber (item : ItemData) : Option (Option Bytes) :=
  let (size, text) := printNumber item
  withBlock size fun p => p.put (text ++ [0])

/-- `print_string_ptr` -/
def writeStringPtr (str : Option Bytes) : Option (Option Bytes) := do
  let str := cstr (← str)
  if !str.any needsEscape then
    -- the pointer difference is converted to `int`
    let len := Int32.ofNat str.length
    if len.toInt + 3 ≤ intMax then
      withBlock (len.toInt + 3) fun p => do
        let p ← p.put [quote]
        let p ← p.store (str ++ [0])
        let p ← p.advance len
        p.put [quote, 0]
    else none
  else
    let len ← str.foldlM (fun len token => int? (len + escapeSize token)) 0
    let size ← int? (len + 3)
    withBlock size fun p => do
      let p ← p.put [quote]
      let p ← str.foldlM (fun p token => p.put (escape token)) p
      p.put [quote, 0]

/-- What the allocation loop of `print_array` adds to `len` for an element. -/
def elementSize (fmt : Bool) (ret : Bytes) : Nat := ret.length + 2 + if fmt then 1 else 0

/-- The composing loop of `print_array`. -/
def writeElements (fmt : Bool) : List Bytes → PrintBuffer → Option PrintBuffer
  | [], p => some p
  | [entry], p => p.put entry
  | entry :: entries, p => do
      let p ← p.put entry
      let p ← p.put (comma :: if fmt then [space] else [])
      let p ← p.store [0]
      writeElements fmt entries p

/-- `print_array` on `numentries` children that the first loop prints; that loop
ends at a null pointer, with `fail` set. -/
def writeArray (fmt : Bool) (numentries : Nat)
    (children : Option (Option (List (Bytes × Bytes)))) : Option (Option Bytes) := do
  let numentries ← int? numentries
  if numentries = 0 then withBlock 3 fun p => p.put [lbracket, rbracket, 0]
  else
    match ← children with
    | none => some none
    | some members =>
        let entries := members.map Prod.snd
        -- the sums are sums of `size_t`, converted to `int` at each step
        let len := entries.foldl (fun len ret => len + Int32.ofNat (elementSize fmt ret)) 5
        withBlock len.toInt fun p => do
          let p ← p.put [lbracket]
          let p ← p.store [0]
          let p ← writeElements fmt entries p
          p.put [rbracket, 0]

/-- What the allocation loop of `print_object` adds to `len` for a member. -/
def memberSize (fmt : Bool) (depth : Nat) (member : Bytes × Bytes) : Nat :=
  member.2.length + member.1.length + 2 + if fmt then 2 + depth else 0

/-- The composing loop of `print_object`. -/
def writeMembers (fmt : Bool) (depth : Nat) :
    List (Bytes × Bytes) → PrintBuffer → Option PrintBuffer
  | [], p => some p
  | (name, entry) :: members, p => do
      let p ← p.put (indent fmt depth)
      let p ← p.put name
      let p ← p.put (colon :: if fmt then [tab] else [])
      let p ← p.store (entry ++ [0])
      let p : PrintBuffer := { p with offset := p.offset + entry.length }
      let p ← p.put ((if members.isEmpty then [] else [comma]) ++ lineBreak fmt)
      let p ← p.store [0]
      writeMembers fmt depth members p

/-- `print_object` -/
def writeObject (fmt : Bool) (depth numentries : Nat)
    (children : Option (Option (List (Bytes × Bytes)))) : Option (Option Bytes) := do
  let numentries ← int? numentries
  if numentries = 0 then
    let size ← int? (if fmt then depth + 4 else 3)
    withBlock size fun p =>
      p.put (lbrace :: (lineBreak fmt ++ (indent fmt (depth - 1) ++ [rbrace])) ++ [0])
  else
    let depth := depth + 1
    let len ← int? (7 + if fmt then depth else 0)
    match ← children with
    | none => some none
    | some members =>
        let len := members.foldl (fun len member => len + Int32.ofNat (memberSize fmt depth member))
          (Int32.ofNat len)
        withBlock len.toInt fun p => do
          let p ← p.put (lbrace :: lineBreak fmt)
          let p ← p.store [0]
          let p ← writeMembers fmt depth members p
          p.put (indent fmt (depth - 1) ++ [rbrace] ++ [0])

/-- `print_value` on an item with `numentries` children that `children` prints, as
the members of an object or as the elements of an array. -/
def writeNode (fmt : Bool) (depth : Nat) (item : ItemData) (numentries : Nat)
    (children : Bool → Option (Option (List (Bytes × Bytes)))) : Option (Option Bytes) :=
  match item.type.kind with
  | .null => some (some nullText)
  | .false => some (some falseText)
  | .true => some (some trueText)
  | .number => writeNumber item
  | .string => writeStringPtr item.valuestring
  | .array => writeArray fmt numentries (children false)
  | .object => writeObject fmt depth numentries (children true)

/-- The count of the children. -/
def numEntries : Item → Nat
  | .null => 0
  | .node _ _ next => numEntries next + 1

/-- The loop that prints the children of a container: `entries` and, for an object,
`names`, or `none` where it sets `fail`. -/
def writeChain (fmt : Bool) : Nat → Item → Bool → Option (Option (List (Bytes × Bytes)))
  | _, .null, _ => some (some [])
  | depth, .node data child next, true => do
      let str ← writeStringPtr data.string
      let ret ← writeNode fmt depth data (numEntries child) (writeChain fmt (depth + 1) child)
      let members ← writeChain fmt depth next true
      some (do some ((← str, ← ret) :: (← members)))
  | depth, .node data child next, false => do
      let ret ← writeNode fmt depth data (numEntries child) (writeChain fmt (depth + 1) child)
      match ret with
      | none => some none
      | some ret => do
          let members ← writeChain fmt depth next false
          some (do some (([], ret) :: (← members)))

/-- `print_value` -/
def writeValue (fmt : Bool) (depth : Nat) : Item → Option (Option Bytes)
  | .null => some none
  | .node data child _ =>
      writeNode fmt depth data (numEntries child) (writeChain fmt (depth + 1) child)

/-! The sizes of the blocks as natural numbers, and what becomes of them in an
`int`. -/

inductive SizeCheck where
  /-- Every size is an `int`. -/
  | fits
  /-- One is negative as an `int`, and there is no block. -/
  | refused
  /-- One is smaller as an `int`, or its sum is not defined. -/
  | overruns
  deriving DecidableEq

namespace SizeCheck

/-- A size that is converted to `int`. -/
def ofSize (size : Nat) : SizeCheck :=
  if size ≤ intMax then .fits
  else if 2 ^ 31 ≤ size % 2 ^ 32 then .refused
  else .overruns

/-- The second is looked at where the first fits. -/
def andThen : SizeCheck → SizeCheck → SizeCheck
  | .fits, check => check
  | check, _ => check

/-- Both are looked at. -/
def both : SizeCheck → SizeCheck → SizeCheck
  | .fits, check => check
  | check, .fits => check
  | .refused, .refused => .refused
  | _, _ => .overruns

/-- What a printer with these sizes returns. -/
def result {α : Type} (check : SizeCheck) (text : α) : Option (Option α) :=
  match check with
  | .fits => some (some text)
  | .refused => some none
  | .overruns => none

end SizeCheck

/-- Without an escape only the conversion of the length is defined beyond `int`. -/
def literalSizes : Option Bytes → SizeCheck
  | none => .overruns
  | some str =>
      if (literal str).length + 1 ≤ intMax then .fits
      else if (cstr str).any needsEscape then .overruns
      else if 2 ^ 31 ≤ (cstr str).length % 2 ^ 32 ∧ (cstr str).length % 2 ^ 32 + 3 < 2 ^ 32 then
        .refused
      else .overruns

def arraySizes (fmt : Bool) (entries : List Entry) (children : SizeCheck) : SizeCheck :=
  if entries.isEmpty then .fits
  else if intMax < entries.length then .overruns
  else children.andThen (.ofSize (arraySize fmt (entries.map Prod.snd)))

def objectSizes (fmt : Bool) (depth : Nat) (entries : List Entry) (children : SizeCheck) :
    SizeCheck :=
  if entries.isEmpty then if (if fmt then depth + 4 else 3) ≤ intMax then .fits else .overruns
  else if intMax < entries.length ∨ intMax < 7 + (if fmt then depth + 1 else 0) then .overruns
  else children.andThen (.ofSize (objectSize fmt (depth + 1) (entries.map memberText)))

def nodeSizes (fmt : Bool) (depth : Nat) (item : ItemData) (entries : List Entry)
    (children : Bool → SizeCheck) : SizeCheck :=
  match item.type.kind with
  | .string => literalSizes item.valuestring
  | .array => arraySizes fmt entries (children false)
  | .object => objectSizes fmt depth entries (children true)
  | _ => .fits

/-- The sizes of the children, up to the first null pointer in an array. -/
def chainSizes (fmt : Bool) : Nat → Item → Bool → SizeCheck
  | _, .null, _ => .fits
  | depth, .node data child next, object =>
      let entry := nodeSizes fmt depth data (chainEntries fmt (depth + 1) child)
        (chainSizes fmt (depth + 1) child)
      if object then
        (literalSizes data.string).both (entry.both (chainSizes fmt depth next true))
      else entry.andThen (chainSizes fmt depth next false)

def valueSizes (fmt : Bool) (depth : Nat) : Item → SizeCheck
  | .null => .refused
  | .node data child _ =>
      nodeSizes fmt depth data (chainEntries fmt (depth + 1) child)
        (chainSizes fmt (depth + 1) child)

end RebuildTheWheel.CJson
