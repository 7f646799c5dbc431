import Mathlib.Data.List.TakeWhile
import RebuildTheWheel.CJson.Duplicate
import RebuildTheWheel.CJson.Parse

namespace RebuildTheWheel.CJson

open RebuildTheWheel.Data
open RebuildTheWheel.Data.Ascii

/-! The parser of `cJSON.c` with its memory: the blocks it allocates and the global `ep`. -/

/-- Why a call has no result. -/
inductive Fault where
  /-- A byte beyond the terminating NUL is read. -/
  | outside
  /-- The `int` that sizes an allocation overflows. -/
  | overflow
  /-- A pointer to a block that is not allocated is followed. -/
  | access
  /-- The recursion bound of the model is used up. -/
  | stuck
  deriving DecidableEq

structure ParseState where
  heap : Heap
  ep : Option Bytes

/-- The pointer a parse function returns, `none` for 0, and the state after the call. -/
abbrev Call := Except Fault (Option Bytes × ParseState)

namespace ParseState

/-- A step on the heap. -/
def onHeap (s : ParseState) (step : Heap → Option Heap) : Except Fault ParseState :=
  match step s.heap with
  | some h => .ok { s with heap := h }
  | none => .error .access

/-- `ep=value;return 0;` -/
def fail (s : ParseState) (value : Bytes) : Call := .ok (none, { s with ep := some value })

/-- The item gets its fields and the pointer behind the value is returned. -/
def finish (s : ParseState) (item : Ref) (f : Node → Node) (rest : Bytes) : Call := do
  let s ← s.onHeap (·.store item f)
  .ok (some rest, s)

end ParseState

/-- The string that a reader finds in a block with these bytes. -/
def textOf (bytes : Bytes) : CString :=
  ⟨bytes.takeWhile (· ≠ 0), fun h => by simpa using List.mem_takeWhile_imp h⟩

namespace ParseState

/-- `parse_string` -/
def parseString (s : ParseState) (item : Ref) (str : Bytes) : Call :=
  if peek str ≠ quote then s.fail str
  else
    match countChars str.tail with
    | .error _ => .error .outside
    | .ok len =>
        if len + 1 ≤ intMax then
          let decoded := decodeChars 0 str.tail
          -- the block is filled by the second loop
          match s.heap.strdup (textOf (decoded.toOption.elim [] Prod.fst)) with
          | (none, h) => .ok (none, { s with heap := h })
          | (some out, h) =>
              match decoded with
              | .error _ => .error .outside
              | .ok (_, ptr) =>
                  ParseState.finish { s with heap := h } item
                    (fun n => { n with valuestring := some out, type := ⟨.string, false, false⟩ })
                    (if peek ptr = quote then ptr.tail else ptr)
        else .error .overflow

/-- `parse_number` -/
def parseNumber (s : ParseState) (item : Ref) (value : Bytes) : Call :=
  let (n, num) := CJson.parseNumber value
  s.finish item
    (fun c => { c with valuedouble := n, valueint := n.toInt32, type := ⟨.number, false, false⟩ }) num

/-- `child->string=child->valuestring;child->valuestring=0;` -/
def moveKey (s : ParseState) (child : Ref) : Except Fault ParseState :=
  s.onHeap (·.store child fun n => { n with string := n.valuestring.map Key.block, valuestring := none })

/-- The name of a member, with the pointer behind the colon. -/
def parseKey (s : ParseState) (child : Ref) (value : Bytes) : Call := do
  let (value, s) ← s.parseString child value
  match value with
  | none => .ok (none, s)
  | some value => do
      let s ← s.moveKey child
      let value := skip value
      if peek value ≠ colon then s.fail value else .ok (some value.tail, s)

/-- `item->child=child=cJSON_New_Item()`, and 0 if it fails. -/
def firstChild (s : ParseState) (item : Ref) : Except Fault (Option Ref × ParseState) := do
  let (child, h) := s.heap.newItem
  let s ← ParseState.onHeap { s with heap := h } (·.storeChild item child)
  .ok (child, s)

/-- `new_item=cJSON_New_Item()` behind `child`, and 0 if it fails. -/
def nextChild (s : ParseState) (child : Ref) : Except Fault (Option Ref × ParseState) :=
  match s.heap.newItem with
  | (none, h) => .ok (none, { s with heap := h })
  | (some newItem, h) => do
      let s ← ParseState.onHeap { s with heap := h } (·.suffixObject child newItem)
      .ok (some newItem, s)

/-- The end of an array or object. -/
def close (s : ParseState) (bracket : UInt8) (value : Bytes) : Call :=
  if peek value = bracket then .ok (some value.tail, s) else s.fail value

mutual

/-- `parse_value`. `fuel` bounds the calls and passes in progress. -/
def parseValue : Nat → ParseState → Ref → Bytes → Call
  | 0, _, _, _ => .error .stuck
  | fuel + 1, s, item, value =>
      if nullText.isPrefixOf value then
        s.finish item (fun n => { n with type := ⟨.null, false, false⟩ }) (value.drop 4)
      else if falseText.isPrefixOf value then
        s.finish item (fun n => { n with type := ⟨.false, false, false⟩ }) (value.drop 5)
      else if trueText.isPrefixOf value then
        s.finish item (fun n => { n with type := ⟨.true, false, false⟩, valueint := 1 })
          (value.drop 4)
      else if peek value = quote then s.parseString item value
      else if peek value = minus || isDigit (peek value) then s.parseNumber item value
      else if peek value = lbracket then parseArray fuel s item value
      else if peek value = lbrace then parseObject fuel s item value
      else s.fail value

/-- `parse_array` -/
def parseArray : Nat → ParseState → Ref → Bytes → Call
  | 0, _, _, _ => .error .stuck
  | fuel + 1, s, item, value => do
      let s ← s.onHeap (·.store item fun n => { n with type := ⟨.array, false, false⟩ })
      let value := skip value.tail
      if peek value = rbracket then .ok (some value.tail, s)
      else do
        let (child, s) ← s.firstChild item
        match child with
        | none => .ok (none, s)
        | some child => do
            let (value, s) ← parseValue fuel s child (skip value)
            match value with
            | none => .ok (none, s)
            | some value => do
                let (value, s) ← parseElements fuel s child (skip value)
                match value with
                | none => .ok (none, s)
                | some value => s.close rbracket value

/-- The loop of `parse_array`: the pointer in front of the bracket. -/
def parseElements : Nat → ParseState → Ref → Bytes → Call
  | 0, _, _, _ => .error .stuck
  | fuel + 1, s, child, value =>
      if peek value = comma then do
        let (child, s) ← s.nextChild child
        match child with
        | none => .ok (none, s)
        | some child => do
            let (value, s) ← parseValue fuel s child (skip value.tail)
            match value with
            | none => .ok (none, s)
            | some value => parseElements fuel s child (skip value)
      else .ok (some value, s)

/-- `parse_object` -/
def parseObject : Nat → ParseState → Ref → Bytes → Call
  | 0, _, _, _ => .error .stuck
  | fuel + 1, s, item, value => do
      let s ← s.onHeap (·.store item fun n => { n with type := ⟨.object, false, false⟩ })
      let value := skip value.tail
      if peek value = rbrace then .ok (some value.tail, s)
      else do
        let (child, s) ← s.firstChild item
        match child with
        | none => .ok (none, s)
        | some child => do
            let (value, s) ← s.parseKey child (skip value)
            match value with
            | none => .ok (none, s)
            | some value => do
                let (value, s) ← parseValue fuel s child (skip value)
                match value with
                | none => .ok (none, s)
                | some value => do
                    let (value, s) ← parseMembers fuel s child (skip value)
                    match value with
                    | none => .ok (none, s)
                    | some value => s.close rbrace value

/-- The loop of `parse_object`. -/
def parseMembers : Nat → ParseState → Ref → Bytes → Call
  | 0, _, _, _ => .error .stuck
  | fuel + 1, s, child, value =>
      if peek value = comma then do
        let (child, s) ← s.nextChild child
        match child with
        | none => .ok (none, s)
        | some child => do
            let (value, s) ← s.parseKey child (skip value.tail)
            match value with
            | none => .ok (none, s)
            | some value => do
                let (value, s) ← parseValue fuel s child (skip value)
                match value with
                | none => .ok (none, s)
                | some value => parseMembers fuel s child (skip value)
      else .ok (some value, s)

end

end ParseState

/-- What `cJSON_ParseWithOpts` returns, with the end pointer. -/
abbrev Parsed := Except Fault (Option (Ref × Bytes) × ParseState)

/-- `cJSON_Delete(c);return 0;` -/
def ParseState.giveUp (s : ParseState) (c : Ref) : Parsed := do
  let s ← s.onHeap (·.delete (some c))
  .ok (none, s)

/-- `cJSON_ParseWithOpts` -/
def ParseState.parseWithOpts (s : ParseState) (value : Bytes) (requireNullTerminated : Bool) :
    Parsed :=
  let (c, h) := s.heap.newItem
  let s : ParseState := { heap := h, ep := none }
  match c with
  | none => .ok (none, s)
  | some c => do
      let (stop, s) ← s.parseValue (fuelFor value) c (skip value)
      match stop with
      | none => s.giveUp c
      | some stop =>
          if requireNullTerminated then
            let stop := skip stop
            if peek stop ≠ 0 then do
              let (_, s) ← s.giveUp c
              .ok (none, { s with ep := some stop })
            else .ok (some (c, stop), s)
          else .ok (some (c, stop), s)

end RebuildTheWheel.CJson
