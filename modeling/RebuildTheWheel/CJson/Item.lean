import RebuildTheWheel.Data.Decimal

namespace RebuildTheWheel.CJson

open RebuildTheWheel.Data

/-! The `cJSON` structure. An item is followed to its children by `child` and to
its right sibling by `next`; `null` is the null pointer. The `prev` links carry
no data of their own and belong to the heap model. -/

/-- `type & 255`: `cJSON_False`, `cJSON_True`, `cJSON_NULL` and so on. -/
inductive Kind where
  | false
  | true
  | null
  | number
  | string
  | array
  | object
  deriving DecidableEq

/-- The `type` field: a kind with the bits `cJSON_IsReference` and
`cJSON_StringIsConst`. -/
structure ItemType where
  kind : Kind
  isReference : Bool := Bool.false
  stringIsConst : Bool := Bool.false
  deriving DecidableEq

/-- The fields of an item that are not links. The defaults are what
`cJSON_New_Item` leaves after its `memset`. -/
structure ItemData where
  type : ItemType := ⟨.false, Bool.false, Bool.false⟩
  valuestring : Option Bytes := none
  valueint : Int32 := 0
  valuedouble : Binary64 := Binary64.ofInt 0
  string : Option Bytes := none

inductive Item where
  | null
  | node (data : ItemData) (child next : Item)

namespace Item

def isNull : Item → Bool
  | .null => true
  | .node _ _ _ => false

def setNext : Item → Item → Item
  | .null, _ => .null
  | .node data child _, next => .node data child next

def setString : Item → Bytes → Item
  | .null, _ => .null
  | .node data child next, string => .node { data with string := some string } child next

end Item

/-- `INT_MAX` -/
abbrev intMax : Nat := 2 ^ 31 - 1

/-- An `int` that counts bytes: `none` when the count overflows it. -/
def int? (n : Nat) : Option Nat := if n ≤ intMax then some n else none

theorem int?_eq_some {n m : Nat} : int? n = some m ↔ n ≤ intMax ∧ n = m := by
  unfold int?
  split <;> simp_all

end RebuildTheWheel.CJson
