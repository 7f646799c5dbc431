import RebuildTheWheel.CJson.Item

namespace RebuildTheWheel.CJson

open RebuildTheWheel.Data
open RebuildTheWheel.Data.Ascii

/-! The printer of `cJSON.c` without a buffer. `none` is a result the source does
not have: a null pointer is followed, or a size overflows `int`. -/

/-- What `%f` and its relatives write for a double. -/
def formatDouble (finite : ℚ → Bytes) : Binary64 → Bytes
  | .nan => nanText
  | .infinity negative => if negative then minus :: infText else infText
  | .finite q _ => finite q

/-- The `sprintf` for a number that is not an `int`. -/
def printDouble (d : Binary64) : Bytes :=
  if (d.floor.sub d).abs.le Binary64.epsilon && d.abs.lt (Binary64.tenPow 60) then
    formatDouble (Decimal.fixed 0) d
  else if d.abs.lt (Binary64.tenPow (-6)) || (Binary64.tenPow 9).lt d.abs then
    formatDouble Decimal.scientific d
  else formatDouble (Decimal.fixed 6) d

/-- `print_number`: the size it asks for and the text. -/
def printNumber (item : ItemData) : Nat × Bytes :=
  let d := item.valuedouble
  if d.isZero then (2, [zero])
  else if ((Binary64.ofInt item.valueint.toInt).sub d).abs.le Binary64.epsilon &&
      d.le (Binary64.ofInt (2 ^ 31 - 1)) && (Binary64.ofInt (-2 ^ 31)).le d then
    (21, Decimal.signed item.valueint.toInt)
  else (64, printDouble d)

/-- The C string that begins with the bytes `str`. -/
def cstr (str : Bytes) : Bytes := str.takeWhile (· ≠ 0)

/-- The test of the first loop of `print_string_ptr`; a `char` from 128 on is
negative there. -/
def needsEscape (c : UInt8) : Bool :=
  (0 < c && c < 32) || c = quote || c = backslash

/-- What the counting loop adds to `len` for one byte. -/
def escapeSize (token : UInt8) : Nat :=
  if token = quote || token = backslash || token = 8 || token = 12 || token = newline ||
      token = carriageReturn || token = tab then 2
  else if token < 32 then 6
  else 1

def escape (token : UInt8) : Bytes :=
  if 31 < token && token ≠ quote && token ≠ backslash then [token]
  else if token = backslash then [backslash, backslash]
  else if token = quote then [backslash, quote]
  else if token = 8 then [backslash, lowerB]
  else if token = 12 then [backslash, lowerF]
  else if token = newline then [backslash, lowerN]
  else if token = carriageReturn then [backslash, lowerR]
  else if token = tab then [backslash, lowerT]
  else backslash :: lowerU :: Decimal.hex4 token.toNat

/-- `print_string_ptr`: the size it asks for and the text. -/
def printStringPtr (str : Bytes) : Nat × Bytes :=
  let str := cstr str
  if !str.any needsEscape then
    let len := str.length
    (len + 3, quote :: (str ++ [quote]))
  else
    let len := (str.map escapeSize).sum
    (len + 3, quote :: (str.flatMap escape ++ [quote]))

/-- A text in an allocation of its own. -/
def allocate : Nat × Bytes → Option Bytes
  | (size, text) => if size ≤ intMax then some text else none

/-- A child as its container prints it: its `string`, and what `print_value`
returns for it. -/
abbrev Entry := Option Bytes × Bytes

def indent (fmt : Bool) (depth : Nat) : Bytes := if fmt then List.replicate depth tab else []

def lineBreak (fmt : Bool) : Bytes := if fmt then [newline] else []

/-- The size `print_array` allocates. -/
def arraySize (fmt : Bool) (entries : List Bytes) : Nat :=
  5 + (entries.map fun entry => entry.length + 2 + if fmt then 1 else 0).sum

/-- What `print_array` writes behind the opening bracket. -/
def composeArray (fmt : Bool) : List Bytes → Bytes
  | [] => [rbracket]
  | [entry] => entry ++ [rbracket]
  | entry :: entries =>
      entry ++ (comma :: ((if fmt then [space] else []) ++ composeArray fmt entries))

/-- `print_array` -/
def printArray (fmt : Bool) (entries : List Bytes) : Option Bytes :=
  if entries.isEmpty then some [lbracket, rbracket]
  else allocate (arraySize fmt entries, lbracket :: composeArray fmt entries)

/-- The size `print_object` allocates for members at `depth`. -/
def objectSize (fmt : Bool) (depth : Nat) (members : List (Bytes × Bytes)) : Nat :=
  7 + (if fmt then depth else 0) +
    (members.map fun (name, entry) =>
      entry.length + name.length + 2 + if fmt then 2 + depth else 0).sum

/-- What `print_object` writes behind the opening brace and its line break. -/
def composeObject (fmt : Bool) (depth : Nat) : List (Bytes × Bytes) → Bytes
  | [] => indent fmt (depth - 1) ++ [rbrace]
  | (name, entry) :: members =>
      indent fmt depth ++ (name ++ (colon :: ((if fmt then [tab] else []) ++ (entry ++
        ((if members.isEmpty then [] else [comma]) ++
          (lineBreak fmt ++ composeObject fmt depth members))))))

def printMember : Entry → Option (Bytes × Bytes)
  | (none, _) => none
  | (some string, entry) => do some (← allocate (printStringPtr string), entry)

/-- `print_object` -/
def printObject (fmt : Bool) (depth : Nat) (entries : List Entry) : Option Bytes :=
  if entries.isEmpty then
    allocate (if fmt then depth + 4 else 3,
      lbrace :: (lineBreak fmt ++ (indent fmt (depth - 1) ++ [rbrace])))
  else do
    let members ← entries.mapM printMember
    allocate (objectSize fmt (depth + 1) members,
      lbrace :: (lineBreak fmt ++ composeObject fmt (depth + 1) members))

/-- `print_value` on an item whose children are printed as `children`. -/
def printNode (fmt : Bool) (depth : Nat) (item : ItemData) (children : Option (List Entry)) :
    Option Bytes :=
  match item.type.kind with
  | .null => some nullText
  | .false => some falseText
  | .true => some trueText
  | .number => allocate (printNumber item)
  | .string => do allocate (printStringPtr (← item.valuestring))
  | .array => do printArray fmt ((← children).map Prod.snd)
  | .object => do printObject fmt depth (← children)

/-- An item and the items behind it. -/
def printChain (fmt : Bool) : Nat → Item → Option (List Entry)
  | _, .null => some []
  | depth, .node data child next => do
      let entry ← printNode fmt depth data (printChain fmt (depth + 1) child)
      let entries ← printChain fmt depth next
      some ((data.string, entry) :: entries)

/-- `print_value`; `cJSON_Print` is `printValue true 0` and
`cJSON_PrintUnformatted` is `printValue false 0`. -/
def printValue (fmt : Bool) (depth : Nat) : Item → Option Bytes
  | .null => none
  | .node data child _ => printNode fmt depth data (printChain fmt (depth + 1) child)

end RebuildTheWheel.CJson

namespace RebuildTheWheel.CJson

open RebuildTheWheel.Data
open RebuildTheWheel.Data.Ascii

/-! The text of a tree, whatever its length, and when the `int` sizes of the
printer hold it. -/

/-- The literal of the C string `str`. -/
def literal (str : Bytes) : Bytes := quote :: ((cstr str).flatMap escape ++ [quote])

def memberText (entry : Entry) : Bytes × Bytes := (literal (entry.1.getD []), entry.2)

def arrayText (fmt : Bool) (entries : List Entry) : Bytes :=
  if entries.isEmpty then [lbracket, rbracket]
  else lbracket :: composeArray fmt (entries.map Prod.snd)

def objectText (fmt : Bool) (depth : Nat) (entries : List Entry) : Bytes :=
  if entries.isEmpty then lbrace :: (lineBreak fmt ++ (indent fmt (depth - 1) ++ [rbrace]))
  else lbrace :: (lineBreak fmt ++ composeObject fmt (depth + 1) (entries.map memberText))

def nodeText (fmt : Bool) (depth : Nat) (item : ItemData) (entries : List Entry) : Bytes :=
  match item.type.kind with
  | .null => nullText
  | .false => falseText
  | .true => trueText
  | .number => (printNumber item).2
  | .string => literal (item.valuestring.getD [])
  | .array => arrayText fmt entries
  | .object => objectText fmt depth entries

/-- The items of a chain with their texts. -/
def chainEntries (fmt : Bool) : Nat → Item → List Entry
  | _, .null => []
  | depth, .node data child next =>
      (data.string, nodeText fmt depth data (chainEntries fmt (depth + 1) child)) ::
        chainEntries fmt depth next

def valueText (fmt : Bool) (depth : Nat) : Item → Bytes
  | .null => []
  | .node data child _ => nodeText fmt depth data (chainEntries fmt (depth + 1) child)

/-- The allocation of a literal. -/
def LiteralSizeFits (str : Option Bytes) : Prop :=
  ∃ s, str = some s ∧ (literal s).length + 1 ≤ intMax

def ObjectSizeFits (fmt : Bool) (depth : Nat) (entries : List Entry) : Prop :=
  if entries.isEmpty then (if fmt then depth + 4 else 3) ≤ intMax
  else (∀ entry ∈ entries, LiteralSizeFits entry.1) ∧
    objectSize fmt (depth + 1) (entries.map memberText) ≤ intMax

/-- The sizes the printer computes for one item. -/
def NodeSizeFits (fmt : Bool) (depth : Nat) (item : ItemData) (entries : List Entry)
    (childrenFit : Prop) : Prop :=
  match item.type.kind with
  | .string => LiteralSizeFits item.valuestring
  | .array => childrenFit ∧ (entries = [] ∨ arraySize fmt (entries.map Prod.snd) ≤ intMax)
  | .object => childrenFit ∧ ObjectSizeFits fmt depth entries
  | _ => True

def ChainSizesFit (fmt : Bool) : Nat → Item → Prop
  | _, .null => True
  | depth, .node data child next =>
      NodeSizeFits fmt depth data (chainEntries fmt (depth + 1) child)
          (ChainSizesFit fmt (depth + 1) child) ∧
        ChainSizesFit fmt depth next

/-- No pointer is missing, and no size overflows `int`. -/
def SizesFit (fmt : Bool) (depth : Nat) : Item → Prop
  | .null => False
  | .node data child _ =>
      NodeSizeFits fmt depth data (chainEntries fmt (depth + 1) child)
        (ChainSizesFit fmt (depth + 1) child)

theorem escape_plain :
    ∀ c : UInt8, c ≠ 0 → needsEscape c = false → escape c = [c] := by
  apply forall_byte
  decide

theorem length_escape : ∀ c : UInt8, (escape c).length = escapeSize c := by
  apply forall_byte
  decide

theorem nul_not_mem_cstr (str : Bytes) : 0 ∉ cstr str := by
  intro h
  have hall := List.all_takeWhile (p := fun c : UInt8 => decide (c ≠ 0)) (l := str)
  simpa using List.all_eq_true.mp hall 0 h

theorem flatMap_escape_plain {str : Bytes} (hnul : 0 ∉ str) (h : str.any needsEscape = false) :
    str.flatMap escape = str := by
  induction str with
  | nil => rfl
  | cons c str ih =>
      simp only [List.mem_cons, not_or] at hnul
      simp only [List.any_cons, Bool.or_eq_false_iff] at h
      rw [List.flatMap_cons, escape_plain c (Ne.symm hnul.1) h.1, ih hnul.2 h.2]
      rfl

theorem length_flatMap_escape (str : Bytes) :
    (str.flatMap escape).length = (str.map escapeSize).sum := by
  rw [List.length_flatMap]
  simp only [length_escape]

theorem printStringPtr_eq (str : Bytes) :
    printStringPtr str = ((literal str).length + 1, literal str) := by
  have hlength : (literal str).length + 1 = ((cstr str).map escapeSize).sum + 3 := by
    rw [literal, List.length_cons, List.length_append, length_flatMap_escape]
    rfl
  simp only [printStringPtr]
  cases hflag : (cstr str).any needsEscape with
  | false =>
      rw [Bool.not_false, if_pos rfl, literal,
        flatMap_escape_plain (nul_not_mem_cstr str) hflag]
      simp
  | true =>
      rw [Bool.not_true, if_neg Bool.false_ne_true, hlength, literal]

theorem allocate_of_le {size : Nat} (h : size ≤ intMax) (text : Bytes) :
    allocate (size, text) = some text :=
  if_pos h

theorem printNumber_size_le (item : ItemData) : (printNumber item).1 ≤ intMax := by
  simp only [printNumber]
  split_ifs <;> norm_num

theorem printNumber_int {data : ItemData} {n : Int32} (hint : data.valueint = n)
    (hdouble : data.valuedouble = Binary64.ofInt n.toInt) :
    printNumber data = (if n.toInt = 0 then 2 else 21, Decimal.signed n.toInt) := by
  have hlow := Int32.le_toInt n
  have hhigh := Int32.toInt_lt n
  simp only [printNumber, hint, hdouble]
  revert hlow hhigh
  generalize n.toInt = z
  intro hlow hhigh
  have hz : |z| < 2 ^ 53 := by
    rw [abs_lt]
    constructor <;> omega
  have hepsilon : ((Binary64.ofInt z).sub (Binary64.ofInt z)).abs.le Binary64.epsilon = true := by
    rw [Binary64.sub_self_ofInt hz, Binary64.abs_ofInt_zero]
    exact Binary64.zero_le_round (by positivity)
  rw [Binary64.isZero_ofInt hz, hepsilon, Binary64.le_ofInt hz (by norm_num),
    Binary64.le_ofInt (by norm_num) hz]
  by_cases hz0 : z = 0
  · subst hz0
    rfl
  · rw [if_neg (by simpa using hz0), if_neg hz0, if_pos]
    simp only [Bool.true_and, Bool.and_eq_true, decide_eq_true_eq]
    omega

theorem mapM_printMember {entries : List Entry} (h : ∀ entry ∈ entries, LiteralSizeFits entry.1) :
    entries.mapM printMember = some (entries.map memberText) := by
  induction entries with
  | nil => rfl
  | cons entry entries ih =>
      obtain ⟨string, text⟩ := entry
      obtain ⟨s, hs, hfits⟩ := h _ List.mem_cons_self
      obtain rfl : string = some s := hs
      rw [List.mapM_cons, ih fun entry' h' => h entry' (List.mem_cons_of_mem _ h')]
      simp [printMember, printStringPtr_eq, allocate_of_le hfits, memberText]

theorem printArray_eq {fmt : Bool} {entries : List Entry}
    (h : entries = [] ∨ arraySize fmt (entries.map Prod.snd) ≤ intMax) :
    printArray fmt (entries.map Prod.snd) = some (arrayText fmt entries) := by
  cases entries with
  | nil => rfl
  | cons entry entries =>
      rcases h with h | h
      · cases h
      · exact allocate_of_le h _

theorem printObject_eq {fmt : Bool} {depth : Nat} {entries : List Entry}
    (h : ObjectSizeFits fmt depth entries) :
    printObject fmt depth entries = some (objectText fmt depth entries) := by
  cases entries with
  | nil => exact allocate_of_le h _
  | cons entry entries =>
      obtain ⟨hnames, hsize⟩ := h
      rw [printObject, if_neg (by simp), mapM_printMember hnames]
      exact allocate_of_le hsize _

theorem printNode_eq {fmt : Bool} {depth : Nat} {item : ItemData} {entries : List Entry}
    {children : Option (List Entry)} {childrenFit : Prop}
    (hchildren : childrenFit → children = some entries)
    (h : NodeSizeFits fmt depth item entries childrenFit) :
    printNode fmt depth item children = some (nodeText fmt depth item entries) := by
  unfold NodeSizeFits at h
  unfold printNode nodeText
  cases hkind : item.type.kind with
  | string =>
      rw [hkind] at h
      obtain ⟨s, hs, hfits⟩ := h
      simp [hs, printStringPtr_eq, allocate_of_le hfits]
  | array =>
      rw [hkind] at h
      simp [hchildren h.1, printArray_eq h.2]
  | object =>
      rw [hkind] at h
      simp [hchildren h.1, printObject_eq h.2]
  | number => exact allocate_of_le (printNumber_size_le item) _
  | _ => rfl

theorem printChain_eq (fmt : Bool) (item : Item) :
    ∀ depth, ChainSizesFit fmt depth item →
      printChain fmt depth item = some (chainEntries fmt depth item) := by
  induction item with
  | null =>
      intro depth _
      rfl
  | node data child next ihchild ihnext =>
      intro depth h
      rw [printChain, printNode_eq (ihchild (depth + 1)) h.1, ihnext depth h.2]
      rfl

theorem printValue_eq {fmt : Bool} {depth : Nat} {item : Item} (h : SizesFit fmt depth item) :
    printValue fmt depth item = some (valueText fmt depth item) := by
  cases item with
  | null => exact h.elim
  | node data child next => exact printNode_eq (printChain_eq fmt child (depth + 1)) h

end RebuildTheWheel.CJson
