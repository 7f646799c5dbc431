import Mathlib.Algebra.Group.Int.Defs
import RebuildTheWheel.Data.CountingSort
import RebuildTheWheel.Data.Loop
import RebuildTheWheel.Data.Suffixes

namespace RebuildTheWheel.TinySTL

open Data

/-! The class `suffix_array`. A text is the list of the values of `arr`, and an array a
function of the index whose bound each access checks. -/

namespace SuffixArray

abbrev Cells := Nat → ℤ

def load (bound : Nat) (cells : Cells) (i : ℤ) : Option ℤ :=
  if 0 ≤ i ∧ i < bound then some (cells i.toNat) else none

def store (bound : Nat) (cells : Cells) (i v : ℤ) : Option Cells :=
  if 0 ≤ i ∧ i < bound then some (Function.update cells i.toNat v) else none

/-- The length of `wa`, `wb`, `wv` and `ws`. -/
def workSize : Nat := 256

/-- `_suffix_array`, the arrays that `x` and `y` point to, `wv` and `ws`. -/
structure Work where
  suffixArray : Cells
  x : Cells
  y : Cells
  wv : Cells
  ws : Cells

/-- `for (i = 0; i < max_len; i++) ws[i] = 0;` -/
def clear (maxLen : Nat) (ws : Cells) : Option Cells :=
  Loop.up (fun i ws => store workSize ws i 0) 0 maxLen ws

/-- `ws[key]++` -/
def countKey (ws : Cells) (key : ℤ) : Option Cells := do
  let c ← load workSize ws key
  store workSize ws key (c + 1)

/-- `for (i = 0; i < len; i++) ws[x[i] = arr[i]]++;` -/
def countValues (arr : List ℤ) (x ws : Cells) : Option (Cells × Cells) :=
  Loop.up (fun i (x, ws) => do
    let v ← arr[i]?
    let x ← store workSize x i v
    let ws ← countKey ws v
    return (x, ws)) 0 arr.length (x, ws)

/-- `for (i = 0; i < len; i++) ws[wv[i]]++;` -/
def countKeys (len : Nat) (wv ws : Cells) : Option Cells :=
  Loop.up (fun i ws => do
    let key ← load workSize wv i
    countKey ws key) 0 len ws

/-- `for (i = 1; i < max_len; i++) ws[i] += ws[i - 1];` -/
def accumulate (maxLen : Nat) (ws : Cells) : Option Cells :=
  Loop.up (fun i ws => do
    let c ← load workSize ws i
    let before ← load workSize ws (i - 1)
    store workSize ws i (c + before)) 1 (maxLen - 1) ws

/-- `for (i = len - 1; i >= 0; i--) _suffix_array[--ws[keys[i]]] = item(i);` -/
def place (len : Nat) (keys : Cells) (item : Nat → Option ℤ) (ws suffixArray : Cells) :
    Option (Cells × Cells) :=
  Loop.down (fun i (ws, suffixArray) => do
    let key ← load workSize keys i
    let c ← load workSize ws key
    let ws ← store workSize ws key (c - 1)
    let v ← item i
    let suffixArray ← store len suffixArray (c - 1) v
    return (ws, suffixArray)) len (ws, suffixArray)

/-- The sort by the values, before the rounds. -/
def sortValues (arr : List ℤ) (maxLen : Nat) (work : Work) : Option Work := do
  let ws ← clear maxLen work.ws
  let (x, ws) ← countValues arr work.x ws
  let ws ← accumulate maxLen ws
  let (ws, suffixArray) ← place arr.length x (fun i => some i) ws work.suffixArray
  return { work with x := x, ws := ws, suffixArray := suffixArray }

/-- `for (p = 0, i = len - j; i < len; i++) y[p++] = i;`, where the counter starts below 0 for
a `j` above `len`, and is not below `len` as an unsigned number. -/
def pushEnds (len j : Nat) (y : Cells) : Option (Cells × ℤ) :=
  if j ≤ len then
    Loop.up (fun i (y, p) => do
      let y ← store workSize y p i
      return (y, p + 1)) (len - j) j (y, 0)
  else
    some (y, 0)

/-- `for (i = 0; i < len; i++) if (_suffix_array[i] >= j) y[p++] = _suffix_array[i] - j;` -/
def pushShifted (len j : Nat) (suffixArray y : Cells) (p : ℤ) : Option (Cells × ℤ) :=
  Loop.up (fun i (y, p) => do
    let s ← load len suffixArray i
    if s ≥ j then do
      let y ← store workSize y p (s - j)
      return (y, p + 1)
    else
      return (y, p)) 0 len (y, p)

/-- `for (i = 0; i < len; i++) wv[i] = x[y[i]];` -/
def gather (len : Nat) (x y wv : Cells) : Option Cells :=
  Loop.up (fun i wv => do
    let s ← load workSize y i
    let v ← load workSize x s
    store workSize wv i v) 0 len wv

/-- `cmp`, which reads the second letters only where the first agree. -/
def cmp (arr : Cells) (a b l : ℤ) : Option Bool := do
  let va ← load workSize arr a
  let vb ← load workSize arr b
  if va = vb then do
    let wa ← load workSize arr (a + l)
    let wb ← load workSize arr (b + l)
    return decide (wa = wb)
  else
    return false

/-- `x[_suffix_array[i]] = cmp(y, _suffix_array[i - 1], _suffix_array[i], j) ? p - 1 : p++;` -/
def renameStep (len j : Nat) (suffixArray y : Cells) (i : Nat) : Cells × ℤ → Option (Cells × ℤ)
  | (x, p) => do
      let before ← load len suffixArray (i - 1)
      let here ← load len suffixArray i
      if ← cmp y before here j then do
        let x ← store workSize x here (p - 1)
        return (x, p)
      else do
        let x ← store workSize x here p
        return (x, p + 1)

/-- The new ranks, `x`, from the old ones, `y`, with the number of different ones. -/
def rename (len j : Nat) (suffixArray x y : Cells) : Option (Cells × ℤ) := do
  let first ← load len suffixArray 0
  let x ← store workSize x first 0
  Loop.up (renameStep len j suffixArray y) 1 (len - 1) (x, 1)

def round (len j maxLen : Nat) (work : Work) : Option (Work × ℤ) := do
  let (y, p) ← pushEnds len j work.y
  let (y, _) ← pushShifted len j work.suffixArray y p
  let wv ← gather len work.x y work.wv
  let ws ← clear maxLen work.ws
  let ws ← countKeys len wv ws
  let ws ← accumulate maxLen ws
  let (ws, suffixArray) ← place len wv (fun i => load workSize y i) ws work.suffixArray
  -- The pointers are exchanged, and the new ranks go over the second keys.
  let (x, p) ← rename len j suffixArray y work.x
  return ({ suffixArray := suffixArray, x := x, y := work.x, wv := wv, ws := ws }, p)

/-- The rounds, at most as many as the fuel. -/
def rounds (len : Nat) : Nat → Nat → ℤ → Nat → Work → Option Work
  | fuel, j, p, maxLen, work =>
      if p < len then
        match fuel with
        | 0 => none
        | fuel + 1 => do
            let (work, p) ← round len j maxLen work
            rounds len fuel (j * 2) p p.toNat work
      else
        some work

/-- The vector `_suffix_array` has `len` zeros at first, the other arrays are not initialised. -/
def calSuffix (fuel : Nat) (arr : List ℤ) (maxLen : Nat) (work : Work) : Option Work := do
  let work ← sortValues arr maxLen { work with suffixArray := fun _ => 0 }
  rounds arr.length fuel 1 1 maxLen work

/-- `++i` for an `int`. -/
def increment (i : ℤ) : Option ℤ := if i < 2 ^ 31 - 1 then some (i + 1) else none

/-- `arr[i]`, where `past` is what can be read behind the array. -/
def loadText (arr : List ℤ) (past : Option ℤ) (i : ℤ) : Option ℤ :=
  if 0 ≤ i then (arr ++ past.toList)[i.toNat]? else none

/-- The inner loop of `calHeight`. -/
def commonLength (arr : List ℤ) (past : Option ℤ) : Nat → ℤ → ℤ → ℤ → Option ℤ
  | 0, _, _, _ => none
  | fuel + 1, j, k, n => do
      let v ← loadText arr past j
      let w ← loadText arr past k
      if v = w ∧ j ≠ arr.length ∧ k ≠ arr.length then
        let n ← increment n
        let j ← increment j
        let k ← increment k
        commonLength arr past fuel j k n
      else
        some n

/-- `_rank_array[_suffix_array[i]] = i;` and `++i` -/
def rankStep (len : Nat) (suffixArray : Cells) (i : Nat) (rankArray : Cells) : Option Cells := do
  let s ← load len suffixArray i
  let rankArray ← store len rankArray s i
  let _ ← increment i
  return rankArray

def calRank (len : Nat) (suffixArray : Cells) : Option Cells :=
  Loop.up (rankStep len suffixArray) 0 len (fun _ => 0)

def heightStep (arr : List ℤ) (past : Option ℤ) (suffixArray : Cells) (i : Nat)
    (heightArray : Cells) : Option Cells := do
  let j ← load arr.length suffixArray i
  let k ← load arr.length suffixArray (i + 1)
  let n ← commonLength arr past (arr.length + 1) j k 0
  let heightArray ← store (arr.length - 1) heightArray i n
  let _ ← increment i
  return heightArray

/-- For an empty array the new length of `_height_array` wraps round. -/
def calHeight (arr : List ℤ) (past : Option ℤ) (suffixArray : Cells) : Option Cells :=
  if arr.length = 0 then none
  else Loop.up (heightStep arr past suffixArray) 0 (arr.length - 1) (fun _ => 0)

/-- The vectors of an object. -/
structure Arrays where
  suffixArray : List ℤ
  rankArray : List ℤ
  heightArray : List ℤ

def vector (len : Nat) (cells : Cells) : List ℤ := (List.range len).map cells

/-- The constructor, without a result where it throws or leaves an array. -/
def new (fuel : Nat) (arr : List ℤ) (past : ℤ) (maxLen : Nat) (work : Work) : Option Arrays :=
  if maxLen > 256 then
    none
  else do
    let work ← calSuffix fuel arr maxLen work
    let rankArray ← calRank arr.length work.suffixArray
    let heightArray ← calHeight arr (some past) work.suffixArray
    return {
      suffixArray := vector arr.length work.suffixArray
      rankArray := vector arr.length rankArray
      heightArray := vector (arr.length - 1) heightArray
    }

end SuffixArray

end RebuildTheWheel.TinySTL
