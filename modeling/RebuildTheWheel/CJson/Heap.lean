import RebuildTheWheel.CJson.Item

namespace RebuildTheWheel.CJson

open RebuildTheWheel.Data

/-! The memory of the functions that build and change trees. Each node and each
string is a block of its own. -/

/-- The address of a block. -/
abbrev Ref := Nat

/-- What `string` points to: a block, or a constant string of the caller. -/
inductive Key where
  | block (r : Ref)
  | constant (s : CString)

/-- A `cJSON` structure. The defaults are what `cJSON_New_Item` leaves. -/
structure Node where
  next : Option Ref := none
  prev : Option Ref := none
  child : Option Ref := none
  type : ItemType := ⟨.false, Bool.false, Bool.false⟩
  valuestring : Option Ref := none
  valueint : Int32 := 0
  valuedouble : Binary64 := Binary64.ofInt 0
  string : Option Key := none

inductive Block where
  | node (n : Node)
  | text (s : CString)

/-- The blocks allocated and not freed. The allocator gives each block an address
of its own; `fails r` if the call that would give `r` returns 0. -/
structure Heap where
  cells : Ref → Option Block
  fresh : Ref
  fails : Ref → Bool
  bounded : ∀ r, fresh ≤ r → cells r = none

namespace Heap

def node (h : Heap) (r : Ref) : Option Node :=
  match h.cells r with
  | some (.node n) => some n
  | _ => none

def text (h : Heap) (r : Ref) : Option CString :=
  match h.cells r with
  | some (.text s) => some s
  | _ => none

def isNode (h : Heap) (r : Ref) : Bool := (h.node r).isSome

/-- The heap when the next address is used up. -/
def skipAddress (h : Heap) : Heap where
  cells := h.cells
  fresh := h.fresh + 1
  fails := h.fails
  bounded := fun r hr => h.bounded r (Nat.le_of_succ_le hr)

/-- The heap with a block at the next address. -/
def push (h : Heap) (block : Block) : Heap where
  cells := fun r => if r = h.fresh then some block else h.cells r
  fresh := h.fresh + 1
  fails := h.fails
  bounded := fun r hr => by
    rw [if_neg (Nat.ne_of_gt hr)]
    exact h.bounded r (Nat.le_of_succ_le hr)

/-- `cJSON_malloc`, with the block's first contents. -/
def malloc (h : Heap) (block : Block) : Option Ref × Heap :=
  if h.fails h.fresh then (none, h.skipAddress) else (some h.fresh, h.push block)

def erase (h : Heap) (r : Ref) : Heap where
  cells := fun p => if p = r then none else h.cells p
  fresh := h.fresh
  fails := h.fails
  bounded := fun p hp => by
    split
    · rfl
    · exact h.bounded p hp

/-- `cJSON_free`: fails unless the block is allocated. -/
def free (h : Heap) (r : Ref) : Option Heap :=
  if (h.cells r).isSome then some (h.erase r) else none

/-- `cJSON_free(item->string)`. A constant string is no block of `cJSON`. -/
def freeKey (h : Heap) : Key → Option Heap
  | .block r => h.free r
  | .constant _ => none

def modify (h : Heap) (r : Ref) (f : Node → Node) : Heap where
  cells := fun p =>
    if p = r then
      match h.cells r with
      | some (.node n) => some (.node (f n))
      | block => block
    else h.cells p
  fresh := h.fresh
  fails := h.fails
  bounded := fun p hp => by
    split
    · next heq =>
        subst heq
        rw [h.bounded p hp]
    · exact h.bounded p hp

/-- A store through a pointer to a node. -/
def store (h : Heap) (r : Ref) (f : Node → Node) : Option Heap :=
  if h.isNode r then some (h.modify r f) else none

def loadNext (h : Heap) (r : Ref) : Option (Option Ref) := (h.node r).map Node.next

def loadPrev (h : Heap) (r : Ref) : Option (Option Ref) := (h.node r).map Node.prev

def loadChild (h : Heap) (r : Ref) : Option (Option Ref) := (h.node r).map Node.child

def storeNext (h : Heap) (r : Ref) (next : Option Ref) : Option Heap :=
  h.store r fun n => { n with next := next }

def storePrev (h : Heap) (r : Ref) (prev : Option Ref) : Option Heap :=
  h.store r fun n => { n with prev := prev }

def storeChild (h : Heap) (r : Ref) (child : Option Ref) : Option Heap :=
  h.store r fun n => { n with child := child }

/-- `if (p) p->next=next;` -/
def storeNextIf (h : Heap) (p next : Option Ref) : Option Heap :=
  match p with
  | some r => h.storeNext r next
  | none => some h

/-- `if (p) p->prev=prev;` -/
def storePrevIf (h : Heap) (p prev : Option Ref) : Option Heap :=
  match p with
  | some r => h.storePrev r prev
  | none => some h

/-- The string a key points to; it fails if the block is freed. -/
def readKey (h : Heap) : Option Key → Option (Option CString)
  | none => some none
  | some (.constant s) => some (some s)
  | some (.block r) => (h.text r).map some

end Heap

/-- `tolower` -/
def tolower (c : UInt8) : UInt8 := if 65 ≤ c && c ≤ 90 then c + 32 else c

/-- The loop of `cJSON_strcasecmp`. -/
def compareChars : Bytes → Bytes → Int
  | [], [] => 0
  | [], c :: _ => -((tolower c).toNat : Int)
  | c :: _, [] => (tolower c).toNat
  | c :: s1, d :: s2 =>
      if tolower c = tolower d then compareChars s1 s2
      else (tolower c).toNat - (tolower d).toNat

/-- `cJSON_strcasecmp` -/
def strcasecmp (s1 s2 : Option CString) : Int :=
  match s1, s2 with
  | none, none => 0
  | none, some _ => 1
  | some _, none => 1
  | some s1, some s2 => compareChars s1.1 s2.1

namespace Heap

def newItem (h : Heap) : Option Ref × Heap := h.malloc (.node {})

def strdup (h : Heap) (s : CString) : Option Ref × Heap := h.malloc (.text s)

/-- `if (!(c->type&cJSON_IsReference) && c->valuestring) cJSON_free(c->valuestring);` -/
def freeValuestring (h : Heap) (n : Node) : Option Heap :=
  match n.valuestring with
  | some s => if n.type.isReference then some h else h.free s
  | none => some h

/-- `if (!(c->type&cJSON_StringIsConst) && c->string) cJSON_free(c->string);` -/
def freeString (h : Heap) (n : Node) : Option Heap :=
  match n.string with
  | some key => if n.type.stringIsConst then some h else h.freeKey key
  | none => some h

/-- `cJSON_Delete`. `fuel` bounds the calls in progress. -/
def deleteChain : Nat → Heap → Option Ref → Option Heap
  | _, h, none => some h
  | 0, _, some _ => none
  | fuel + 1, h, some c => do
      let n ← h.node c
      let h ← deleteChain fuel h (if n.type.isReference then none else n.child)
      let h ← h.freeValuestring n
      let h ← h.freeString n
      let h ← h.free c
      deleteChain fuel h n.next

def delete (h : Heap) (c : Option Ref) : Option Heap := deleteChain h.fresh h c

/-- `suffix_object` -/
def suffixObject (h : Heap) (prev item : Ref) : Option Heap := do
  let h ← h.storeNext prev (some item)
  h.storePrev item (some prev)

/-- `create_reference` -/
def createReference (h : Heap) (item : Ref) : Option (Option Ref × Heap) :=
  match h.newItem with
  | (none, h) => some (none, h)
  | (some ref, h) => do
      let n ← h.node item
      let h ← h.store ref fun _ =>
        { n with string := none, type := { n.type with isReference := true }, next := none
                 prev := none }
      some (some ref, h)

/-- `while (c && c->next) c=c->next;` -/
def lastOf : Nat → Heap → Ref → Option Ref
  | 0, _, _ => none
  | fuel + 1, h, c => do
      match ← h.loadNext c with
      | none => some c
      | some next => lastOf fuel h next

/-- `cJSON_AddItemToArray` -/
def addItemToArray (h : Heap) (array : Ref) (item : Option Ref) : Option Heap := do
  let child ← h.loadChild array
  match item with
  | none => some h
  | some item =>
      match child with
      | none => h.storeChild array (some item)
      | some c => do
          let c ← lastOf h.fresh h c
          h.suffixObject c item

/-- `cJSON_AddItemToObject` -/
def addItemToObject (h : Heap) (object : Ref) (string : CString) (item : Option Ref) :
    Option Heap :=
  match item with
  | none => some h
  | some item => do
      let n ← h.node item
      let h ← match n.string with
        | some key => h.freeKey key
        | none => some h
      let (copy, h) := h.strdup string
      let h ← h.store item fun n => { n with string := copy.map Key.block }
      h.addItemToArray object (some item)

/-- `cJSON_AddItemToObjectCS` -/
def addItemToObjectCS (h : Heap) (object : Ref) (string : CString) (item : Option Ref) :
    Option Heap :=
  match item with
  | none => some h
  | some item => do
      let n ← h.node item
      let h ← h.freeString n
      let h ← h.store item fun n =>
        { n with string := some (.constant string), type := { n.type with stringIsConst := true } }
      h.addItemToArray object (some item)

/-- `cJSON_AddItemReferenceToArray` -/
def addItemReferenceToArray (h : Heap) (array item : Ref) : Option Heap := do
  let (ref, h) ← h.createReference item
  h.addItemToArray array ref

/-- `cJSON_AddItemReferenceToObject` -/
def addItemReferenceToObject (h : Heap) (object : Ref) (string : CString) (item : Ref) :
    Option Heap := do
  let (ref, h) ← h.createReference item
  h.addItemToObject object string ref

/-- `while (c && which>0) c=c->next,which--;` -/
def nthFrom : Nat → Heap → Option Ref → Option (Option Ref)
  | 0, _, c => some c
  | _ + 1, _, none => some none
  | which + 1, h, some c => do
      let next ← h.loadNext c
      nthFrom which h next

/-- The item of `array` at `which`, the first one for a negative `which`. -/
def itemAt (h : Heap) (array : Ref) (which : Int32) : Option (Option Ref) := do
  let child ← h.loadChild array
  nthFrom which.toInt.toNat h child

/-- `cJSON_DetachItemFromArray` -/
def detachItemFromArray (h : Heap) (array : Ref) (which : Int32) :
    Option (Option Ref × Heap) := do
  match ← h.itemAt array which with
  | none => some (none, h)
  | some c => do
      let h ← h.storeNextIf (← h.loadPrev c) (← h.loadNext c)
      let h ← h.storePrevIf (← h.loadNext c) (← h.loadPrev c)
      let h ← if (← h.loadChild array) = some c then h.storeChild array (← h.loadNext c)
        else some h
      let h ← h.storeNext c none
      let h ← h.storePrev c none
      some (some c, h)

/-- `cJSON_DeleteItemFromArray` -/
def deleteItemFromArray (h : Heap) (array : Ref) (which : Int32) : Option Heap := do
  let (c, h) ← h.detachItemFromArray array which
  h.delete c

/-- The loop of the functions that take a name: the first item with that name and
the count `i` of those in front of it. -/
def findName : Nat → Heap → Option CString → Option Ref → Int32 → Option (Option Ref × Int32)
  | _, _, _, none, i => some (none, i)
  | 0, _, _, some _, _ => none
  | fuel + 1, h, string, some c, i => do
      let n ← h.node c
      let name ← h.readKey n.string
      if strcasecmp name string ≠ 0 then findName fuel h string n.next (i + 1)
      else some (some c, i)

def itemNamed (h : Heap) (object : Ref) (string : Option CString) :
    Option (Option Ref × Int32) := do
  let child ← h.loadChild object
  findName h.fresh h string child 0

/-- `cJSON_GetObjectItem` -/
def getObjectItem (h : Heap) (object : Ref) (string : Option CString) : Option (Option Ref) := do
  let (c, _) ← h.itemNamed object string
  some c

/-- `cJSON_DetachItemFromObject` -/
def detachItemFromObject (h : Heap) (object : Ref) (string : Option CString) :
    Option (Option Ref × Heap) := do
  let (c, i) ← h.itemNamed object string
  if c.isSome then h.detachItemFromArray object i else some (none, h)

/-- `cJSON_DeleteItemFromObject` -/
def deleteItemFromObject (h : Heap) (object : Ref) (string : Option CString) : Option Heap := do
  let (c, h) ← h.detachItemFromObject object string
  h.delete c

/-- `cJSON_InsertItemInArray` -/
def insertItemInArray (h : Heap) (array : Ref) (which : Int32) (newitem : Ref) : Option Heap := do
  match ← h.itemAt array which with
  | none => h.addItemToArray array (some newitem)
  | some c => do
      let h ← h.storeNext newitem (some c)
      let h ← h.storePrev newitem (← h.loadPrev c)
      let h ← h.storePrev c (some newitem)
      if (← h.loadChild array) = some c then h.storeChild array (some newitem)
      else do
        let prev ← ← h.loadPrev newitem
        h.storeNext prev (some newitem)

/-- `cJSON_ReplaceItemInArray` -/
def replaceItemInArray (h : Heap) (array : Ref) (which : Int32) (newitem : Ref) :
    Option Heap := do
  match ← h.itemAt array which with
  | none => some h
  | some c => do
      let h ← h.storeNext newitem (← h.loadNext c)
      let h ← h.storePrev newitem (← h.loadPrev c)
      let h ← h.storePrevIf (← h.loadNext newitem) (some newitem)
      let h ← if (← h.loadChild array) = some c then h.storeChild array (some newitem)
        else do
          let prev ← ← h.loadPrev newitem
          h.storeNext prev (some newitem)
      let h ← h.storePrev c none
      let h ← h.storeNext c none
      h.delete (some c)

/-- `cJSON_ReplaceItemInObject` -/
def replaceItemInObject (h : Heap) (object : Ref) (string : Option CString) (newitem : Ref) :
    Option Heap := do
  let (c, i) ← h.itemNamed object string
  if c.isSome then do
    let string ← string
    let (copy, h) := h.strdup string
    let h ← h.store newitem fun n => { n with string := copy.map Key.block }
    h.replaceItemInArray object i newitem
  else some h

end Heap

end RebuildTheWheel.CJson
