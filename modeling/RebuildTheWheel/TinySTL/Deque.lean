import Mathlib.Algebra.Group.Nat.Defs
import Mathlib.Data.List.Basic
import Mathlib.Data.List.Nodup

namespace RebuildTheWheel.TinySTL

/-! `deque<T>`: buckets of 64 slots, and an array of pointers to them, the map. Buckets are
numbers, and a pointer is a bucket with an offset that may be out of it. -/

structure SlotPtr where
  bucket : Nat
  offset : Int
deriving DecidableEq

namespace SlotPtr

def add (p : SlotPtr) (n : Int) : SlotPtr := { p with offset := p.offset + n }

/-- The difference of two pointers is defined within one bucket. -/
def sub (p q : SlotPtr) : Option Int :=
  if p.bucket = q.bucket then some (p.offset - q.offset) else none

variable (p : SlotPtr) (a b : Int)

@[simp] theorem add_add : (p.add a).add b = p.add (a + b) := by
  simp [add, Int.add_assoc]

@[simp] theorem add_zero : p.add 0 = p := by
  simp [add]

@[simp] theorem add_inj : p.add a = p.add b ↔ a = b := by
  simp [add]

@[simp] theorem add_eq_self : p.add a = p ↔ a = 0 := by
  have hzero := p.add_inj a 0
  rwa [add_zero] at hzero

@[simp] theorem sub_add_add : (p.add a).sub (p.add b) = some (a - b) := by
  simp only [sub, add, if_true, Option.some.injEq]
  omega

@[simp] theorem sub_add : (p.add a).sub p = some a := by
  have hzero := p.sub_add_add a 0
  rwa [add_zero, Int.sub_zero] at hzero

@[simp] theorem sub_self : p.sub p = some 0 := by
  simp [sub]

end SlotPtr

/-- `dq_iter<T>`. The container is null or the deque. -/
structure DqIter where
  mapIndex : Nat
  cur : Option SlotPtr
  container : Bool
deriving DecidableEq

structure Deque (T : Type) where
  slots : Nat → Int → Option T
  nextBucket : Nat
  mapSize : Nat
  map : List Nat
  beg : DqIter
  end_ : DqIter

namespace Deque

variable {T : Type}

def buckSize : Nat := 64

/-- `deque()`, with `dq_iter()` for both ends. -/
def new : Deque T where
  slots := fun _ _ => none
  nextBucket := 0
  mapSize := 0
  map := []
  beg := ⟨2 ^ 64 - 1, none, false⟩
  end_ := ⟨2 ^ 64 - 1, none, false⟩

/-! The code also reads `map_[mapSize_]`, the word behind the array. What is found there, if
it can be read at all, is the parameter `beyond`. -/

variable (beyond : List Nat → Option SlotPtr) (d : Deque T) (it : DqIter)

/-- `map_[i]` -/
def bucketAt (i : Nat) : Option SlotPtr :=
  match d.map[i]? with
  | some bucket => some ⟨bucket, 0⟩
  | none => if i = d.map.length ∧ d.map ≠ [] then beyond d.map else none

def getBuckHead (mapIndex : Nat) : Option SlotPtr :=
  if it.container then d.bucketAt beyond mapIndex else none

def getBuckTail (mapIndex : Nat) : Option SlotPtr := do
  let head ← d.getBuckHead beyond it mapIndex
  some (head.add (buckSize - 1))

/-- `operator++` -/
def inc : Option DqIter := do
  let tail ← d.getBuckTail beyond it it.mapIndex
  if it.cur ≠ some tail then
    let cur ← it.cur
    some { it with cur := some (cur.add 1) }
  else if it.mapIndex + 1 < d.mapSize then
    let head ← d.getBuckHead beyond it (it.mapIndex + 1)
    some { it with mapIndex := it.mapIndex + 1, cur := some head }
  else
    let head ← d.getBuckHead beyond it d.mapSize
    some { it with mapIndex := d.mapSize, cur := some head }

/-- `operator--` -/
def dec : Option DqIter := do
  let head ← d.getBuckHead beyond it it.mapIndex
  if it.cur ≠ some head then
    let cur ← it.cur
    some { it with cur := some (cur.add (-1)) }
  else
    -- `mapIndex_ - 1 >= 0` holds of unsigned numbers, and the map has no entry at `0 - 1`
    match it.mapIndex with
    | 0 => none
    | mapIndex + 1 => do
        let tail ← d.getBuckTail beyond it mapIndex
        some { it with mapIndex := mapIndex, cur := some tail }

/-- `it + n` -/
def plus (n : Int) : Option DqIter := do
  let tail ← d.getBuckTail beyond it it.mapIndex
  let cur ← it.cur
  let m ← tail.sub cur
  if n ≤ m then some { it with cur := some (cur.add n) }
  else
    let n := (n - m).toNat
    let mapIndex := it.mapIndex + (n / buckSize + 1)
    let p ← d.getBuckHead beyond it mapIndex
    -- at `n % 64 = 0` the unsigned number wraps, and the pointer with it, to one before `p`
    some { it with mapIndex := mapIndex, cur := some (p.add ((n % buckSize : Nat) - 1)) }

/-- `it - n` -/
def minus (n : Int) : Option DqIter := do
  let head ← d.getBuckHead beyond it it.mapIndex
  let cur ← it.cur
  let m ← cur.sub head
  if n ≤ m then some { it with cur := some (cur.add (-n)) }
  else
    let n := (n - m).toNat
    if it.mapIndex < n / buckSize + 1 then none
    else
      let mapIndex := it.mapIndex - (n / buckSize + 1)
      let tail ← d.getBuckTail beyond it mapIndex
      some { it with mapIndex := mapIndex, cur := some (tail.add (1 - (n % buckSize : Nat))) }

/-- `it1 - it2` -/
def difference (it1 it2 : DqIter) : Option Int := do
  if it1.container = it2.container ∧ it1.container = false then some 0
  else
    let head ← d.getBuckHead beyond it1 it1.mapIndex
    let tail ← d.getBuckTail beyond it2 it2.mapIndex
    let cur1 ← it1.cur
    let cur2 ← it2.cur
    let before ← cur1.sub head
    let after ← tail.sub cur2
    some (buckSize * (it1.mapIndex - it2.mapIndex - 1) + before + after + 1)

/-- `*it` -/
def deref : Option T := do
  let cur ← it.cur
  d.slots cur.bucket cur.offset

def size : Option Int := d.difference beyond d.end_ d.beg

def empty : Bool := d.beg = d.end_

def front : Option T := d.deref d.beg

def back : Option T := do
  let it ← d.minus beyond d.end_ 1
  d.deref it

/-- No pointer to a bucket is null. -/
def backFull : Option Bool := do
  let _ ← d.bucketAt beyond (d.mapSize - 1)
  let last ← d.bucketAt beyond d.mapSize
  some (some last = d.end_.cur)

def frontFull : Option Bool := do
  let first ← d.bucketAt beyond 0
  some (some first = d.beg.cur)

/-- The buckets of `getANewMap(size)`. -/
def newMap (size : Nat) : List Nat := List.range' d.nextBucket size

def init : Deque T :=
  let map := d.newMap 2
  let last : DqIter := ⟨1, some ⟨d.nextBucket + 1, 0⟩, true⟩
  { d with nextBucket := d.nextBucket + 2, mapSize := 2, map := map, beg := last, end_ := last }

/-- A null pointer is the only one whose slots `clear` destroys. -/
def clear : Option (Deque T) := do
  let head ← d.bucketAt beyond 0
  some { d with mapSize := 0, beg := { d.beg with mapIndex := 0, cur := some head },
                end_ := { d.end_ with mapIndex := 0, cur := some head } }

def getNewMapSize (size : Nat) : Nat := if size = 0 then 2 else size * 2

/-- All slots of a bucket are copied, those that hold nothing too. -/
def copyBucket (slots : Nat → Int → Option T) (old new : Nat) : Nat → Int → Option T :=
  fun b j => if b = new ∧ 0 ≤ j ∧ j < buckSize then slots old j else slots b j

/-- The buckets of the one map are copied to those of the other, up to the first map's end. -/
def copyBuckets (slots : Nat → Int → Option T) : List Nat → List Nat → Nat → Int → Option T
  | old :: olds, new :: news => copyBuckets (copyBucket slots old new) olds news
  | _, _ => slots

def reallocateAndCopy : Option (Deque T) := do
  let newMapSize := getNewMapSize d.mapSize
  let newMap := d.newMap newMapSize
  let startIndex := newMapSize / 4
  let slots := copyBuckets d.slots (d.map.drop d.beg.mapIndex) (newMap.drop startIndex)
  let head ← d.bucketAt beyond d.beg.mapIndex
  let cur ← d.beg.cur
  let n ← cur.sub head
  let size ← d.size beyond
  let d ← d.clear beyond
  let start ← newMap[startIndex]?
  let beg : DqIter := ⟨startIndex, some ⟨start, n⟩, true⟩
  let d := { d with slots := slots, nextBucket := d.nextBucket + newMapSize,
                    mapSize := newMapSize, map := newMap, beg := beg }
  let end_ ← d.plus beyond beg size
  some { d with end_ := end_ }

/-- A pointer to a slot of a bucket that is there. -/
def inBucket (p : SlotPtr) : Bool :=
  0 ≤ p.offset ∧ p.offset < buckSize ∧ p.bucket < d.nextBucket

def put (p : SlotPtr) (val : Option T) : Deque T :=
  { d with slots := fun b j => if b = p.bucket ∧ j = p.offset then val else d.slots b j }

def construct (p : SlotPtr) (val : T) : Option (Deque T) :=
  if d.inBucket p then some (d.put p (some val)) else none

/-- There has to be an object to destroy. -/
def destroy (p : SlotPtr) : Option (Deque T) :=
  if d.inBucket p ∧ (d.slots p.bucket p.offset).isSome then some (d.put p none) else none

def pushBack (val : T) : Option (Deque T) := do
  let d ← (if d.empty then some d.init
    else do
      let full ← d.backFull beyond
      if full then d.reallocateAndCopy beyond else some d)
  let cur ← d.end_.cur
  let d ← d.construct cur val
  let end_ ← d.inc beyond d.end_
  some { d with end_ := end_ }

def pushFront (val : T) : Option (Deque T) := do
  let d ← (if d.empty then some d.init
    else do
      let full ← d.frontFull beyond
      if full then d.reallocateAndCopy beyond else some d)
  let beg ← d.dec beyond d.beg
  let cur ← beg.cur
  let d ← d.construct cur val
  some { d with beg := beg }

def popFront : Option (Deque T) := do
  let cur ← d.beg.cur
  let d ← d.destroy cur
  let beg ← d.inc beyond d.beg
  some { d with beg := beg }

def popBack : Option (Deque T) := do
  let end_ ← d.dec beyond d.end_
  let cur ← end_.cur
  let d ← d.destroy cur
  some { d with end_ := end_ }

/-- The elements from `it` to `end()`, which are fewer than `fuel`. -/
def walk : Nat → DqIter → Option (List T)
  | 0, _ => none
  | fuel + 1, it => do
      if it = d.end_ then some []
      else
        let x ← d.deref it
        let it ← d.inc beyond it
        let xs ← walk fuel it
        some (x :: xs)

end Deque

end RebuildTheWheel.TinySTL

namespace RebuildTheWheel.TinySTL

namespace Deque

variable {T : Type} {beyond : List Nat → Option SlotPtr} {d : Deque T} {it it' : DqIter} {p q : Nat}

/-! The slots of all buckets in a row: position `p` is slot `p % 64` of bucket `p / 64`, and
the last position is the word behind the map. -/

def Stands (beyond : List Nat → Option SlotPtr) (d : Deque T) (it : DqIter) (p : Nat) : Prop :=
  ∃ head, d.bucketAt beyond (p / 64) = some head ∧
    it = ⟨p / 64, some (head.add (p % 64 : Nat)), true⟩

theorem bucketAt_of_lt {i : Nat} (h : i < d.map.length) :
    d.bucketAt beyond i = some ⟨d.map[i], 0⟩ := by
  rw [bucketAt, List.getElem?_eq_getElem h]

theorem Stands.unique (h : d.Stands beyond it p) (h' : d.Stands beyond it' p) : it = it' := by
  obtain ⟨head, hhead, rfl⟩ := h
  obtain ⟨head', hhead', rfl⟩ := h'
  rw [hhead] at hhead'
  rw [Option.some.inj hhead']

theorem Stands.eq_iff (h : d.Stands beyond it p) (h' : d.Stands beyond it' q) :
    it = it' ↔ p = q := by
  constructor
  · rintro rfl
    obtain ⟨head, hhead, hit⟩ := h
    obtain ⟨head', hhead', hit'⟩ := h'
    rw [hit'] at hit
    simp only [DqIter.mk.injEq, SlotPtr.add, Option.some.injEq, SlotPtr.mk.injEq] at hit
    obtain ⟨hindex, ⟨-, hoffset⟩, -⟩ := hit
    rw [← hindex, hhead'] at hhead
    obtain rfl := Option.some.inj hhead
    omega
  · rintro rfl
    exact h.unique h'

theorem stands_of_bucketAt {head : SlotPtr} (h : d.bucketAt beyond (p / 64) = some head) :
    d.Stands beyond ⟨p / 64, some (head.add (p % 64 : Nat)), true⟩ p := ⟨head, h, rfl⟩

theorem Stands.inc (h : d.Stands beyond it p) (hsize : d.map.length = d.mapSize)
    (hp : p < 64 * d.mapSize)
    (hlast : p + 1 = 64 * d.mapSize → (d.bucketAt beyond d.mapSize).isSome) :
    ∃ it', d.inc beyond it = some it' ∧ d.Stands beyond it' (p + 1) := by
  obtain ⟨head, hhead, rfl⟩ := h
  by_cases hoff : p % 64 = 63
  · -- the last slot of a bucket
    have hdiv : (p + 1) / 64 = p / 64 + 1 := by omega
    have hmod : (p + 1) % 64 = 0 := by omega
    obtain ⟨head', hhead'⟩ : ∃ head', d.bucketAt beyond (p / 64 + 1) = some head' := by
      by_cases hmore : p / 64 + 1 < d.mapSize
      · exact ⟨_, bucketAt_of_lt (hsize ▸ hmore)⟩
      · have heq : p / 64 + 1 = d.mapSize := by omega
        rw [heq]
        exact Option.isSome_iff_exists.mp (hlast (by omega))
    refine ⟨_, ?_, stands_of_bucketAt (hdiv ▸ hhead')⟩
    by_cases hmore : p / 64 + 1 < d.mapSize
    · simp [Deque.inc, getBuckTail, getBuckHead, hhead, hhead', hoff, buckSize, hmore, hdiv, hmod]
    · have heq : d.mapSize = p / 64 + 1 := by omega
      simp [Deque.inc, getBuckTail, getBuckHead, hhead, heq, hhead', hoff, buckSize, hdiv, hmod]
  · have hdiv : (p + 1) / 64 = p / 64 := by omega
    have hmod : (p + 1) % 64 = p % 64 + 1 := by omega
    have hne : (p : Int) % 64 ≠ 63 := by omega
    refine ⟨_, ?_, stands_of_bucketAt (hdiv ▸ hhead)⟩
    simp [Deque.inc, getBuckTail, getBuckHead, hhead, buckSize, hdiv, hmod, hne]

theorem Stands.dec (h : d.Stands beyond it (p + 1)) (hsize : d.map.length = d.mapSize)
    (hp : p < 64 * d.mapSize) : ∃ it', d.dec beyond it = some it' ∧ d.Stands beyond it' p := by
  obtain ⟨head, hhead, rfl⟩ := h
  by_cases hoff : p % 64 = 63
  · -- back to the last slot of a bucket
    have hdiv : (p + 1) / 64 = p / 64 + 1 := by omega
    have hmod : (p + 1) % 64 = 0 := by omega
    have hhead' : d.bucketAt beyond (p / 64) = some _ := bucketAt_of_lt (by omega)
    refine ⟨_, ?_, stands_of_bucketAt hhead'⟩
    rw [hdiv] at hhead
    simp [Deque.dec, getBuckTail, getBuckHead, hdiv, hmod, hhead, hhead', hoff, buckSize]
  · have hdiv : (p + 1) / 64 = p / 64 := by omega
    have hmod : (p + 1) % 64 = p % 64 + 1 := by omega
    have hne : (p : Int) % 64 + 1 ≠ 0 := by omega
    rw [hdiv] at hhead
    refine ⟨_, ?_, stands_of_bucketAt hhead⟩
    simp [Deque.dec, getBuckHead, hdiv, hmod, hhead, hne, Int.add_assoc]

/-- Where `operator+` is right. -/
theorem Stands.plus {n : Nat} (h : d.Stands beyond it p)
    (hn : p % 64 + n < 64 ∨ (p + n) % 64 ≠ 63)
    (hsome : (d.bucketAt beyond ((p + n) / 64)).isSome) :
    ∃ it', d.plus beyond it n = some it' ∧ d.Stands beyond it' (p + n) := by
  obtain ⟨head, hhead, rfl⟩ := h
  obtain ⟨head', hhead'⟩ := Option.isSome_iff_exists.mp hsome
  refine ⟨_, ?_, stands_of_bucketAt hhead'⟩
  by_cases hin : p % 64 + n < 64
  · have hdiv : (p + n) / 64 = p / 64 := by omega
    have hmod : (p + n) % 64 = p % 64 + n := by omega
    have hle : (n : Int) ≤ 63 - p % 64 := by omega
    obtain rfl : head = head' := by
      rw [hdiv, hhead] at hhead'
      exact Option.some.inj hhead'
    simp [Deque.plus, getBuckTail, getBuckHead, hhead, buckSize, hdiv, hmod, hle]
  · have hnot : ¬(n : Int) ≤ 63 - p % 64 := by omega
    -- the rest that is left of `n` after this bucket
    have hrest : ((n : Int) - (63 - p % 64)).toNat = p % 64 + n - 63 := by omega
    have hdiv : p / 64 + ((p % 64 + n - 63) / 64 + 1) = (p + n) / 64 := by omega
    have hmod : ((p % 64 + n - 63 : Nat) : Int) % 64 - 1 = (p + n) % 64 := by omega
    simp [Deque.plus, getBuckTail, getBuckHead, hhead, buckSize, hnot, hrest, hdiv, hmod, hhead',
      -Int.ofNat_toNat]

theorem Stands.minus_one (h : d.Stands beyond it (p + 1)) (hsize : d.map.length = d.mapSize)
    (hp : p < 64 * d.mapSize) :
    ∃ it', d.minus beyond it 1 = some it' ∧ d.Stands beyond it' p := by
  obtain ⟨head, hhead, rfl⟩ := h
  by_cases hoff : p % 64 = 63
  · have hdiv : (p + 1) / 64 = p / 64 + 1 := by omega
    have hmod : (p + 1) % 64 = 0 := by omega
    have hhead' : d.bucketAt beyond (p / 64) = some _ := bucketAt_of_lt (by omega)
    refine ⟨_, ?_, stands_of_bucketAt hhead'⟩
    rw [hdiv] at hhead
    simp [Deque.minus, getBuckTail, getBuckHead, hdiv, hmod, hhead, hhead', hoff, buckSize,
      -Int.ofNat_toNat]
  · have hdiv : (p + 1) / 64 = p / 64 := by omega
    have hmod : (p + 1) % 64 = p % 64 + 1 := by omega
    have hle : (1 : Int) ≤ p % 64 + 1 := by omega
    rw [hdiv] at hhead
    refine ⟨_, ?_, stands_of_bucketAt hhead⟩
    simp [Deque.minus, getBuckHead, hdiv, hmod, hhead, hle, Int.add_assoc]

theorem Stands.difference (h : d.Stands beyond it p) (h' : d.Stands beyond it' q) :
    d.difference beyond it it' = some ((p : Int) - q) := by
  obtain ⟨head, hhead, rfl⟩ := h
  obtain ⟨head', hhead', rfl⟩ := h'
  have hp : (p : Int) = 64 * (p / 64 : Nat) + (p % 64 : Nat) := by omega
  have hq : (q : Int) = 64 * (q / 64 : Nat) + (q % 64 : Nat) := by omega
  simp [Deque.difference, getBuckTail, getBuckHead, hhead, hhead', buckSize]
  omega

end Deque

end RebuildTheWheel.TinySTL
