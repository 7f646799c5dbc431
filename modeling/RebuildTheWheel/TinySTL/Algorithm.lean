import Mathlib.Algebra.Order.Ring.Int
import Mathlib.Data.List.Perm.Basic
import RebuildTheWheel.Data.Heap
import RebuildTheWheel.Data.StableMerge

namespace RebuildTheWheel.TinySTL

open Data.Heap

/-! The heap algorithms of `Algorithm.h`, on the elements of a vector. An iterator is the
distance to `begin()`, which may leave the vector. The comparison is `less`. -/

namespace Algorithm

variable {T : Type} [LinearOrder T]

/-- A read of `*cur`, which has no result outside the vector. -/
def load (xs : List T) (cur : Int) : Option T :=
  if 0 ≤ cur then xs[cur.toNat]? else none

def swap (xs : List T) (i j : Int) : Option (List T) := do
  let x ← load xs i
  let y ← load xs j
  return (xs.set i.toNat y).set j.toNat x

/-- A function of a range, on the part from `first` to `last` of a longer one. -/
def onPart (f : List T → Option (List T)) (xs : List T) (first last : Nat) : Option (List T) := do
  let ys ← f ((xs.take last).drop first)
  some (xs.take first ++ ys ++ xs.drop last)

/-- The conversion of a distance to `int`. -/
def toInt (n : Int) : Int := (BitVec.ofInt 32 n).toInt

/-- `(index - 1) / 2` in `int`, which has no result when the subtraction overflows. -/
def parentIndex (index : Int) : Option Int :=
  if -2 ^ 31 ≤ index - 1 then some ((index - 1).tdiv 2) else none

def upLoop : Nat → Int → Int → List T → Option (List T)
  | 0, _, _, _ => none
  | fuel + 1, cur, index, xs => do
      let parent ← parentIndex index
      if 0 ≤ parent ∧ cur ≠ 0 then
        let p ← load xs parent
        let c ← load xs cur
        let xs ← (if p < c then swap xs parent cur else some xs)
        upLoop fuel parent (toInt parent) xs
      else
        return xs

/-- `up`, whose range `[first, last]` includes its last element. -/
def up (first last : Int) (xs : List T) : Option (List T) :=
  if first ≠ last then upLoop (xs.length + 1) last (toInt last) xs else some xs

def downLoop (last : Int) : Nat → Int → List T → Option (List T)
  | 0, _, _ => none
  | fuel + 1, cur, xs =>
      let leftChildIndex := cur * 2 + 1
      if leftChildIndex < last + 1 ∧ cur < last then do
        let left ← load xs leftChildIndex
        let child ← (if leftChildIndex + 1 ≤ last then do
            let right ← load xs (leftChildIndex + 1)
            return if right > left then leftChildIndex + 1 else leftChildIndex
          else
            some leftChildIndex)
        let x ← load xs cur
        let y ← load xs child
        let xs ← (if x < y then swap xs cur child else some xs)
        downLoop last fuel child xs
      else
        some xs

def down (first last : Int) (xs : List T) : Option (List T) :=
  if first ≠ last then downLoop last (xs.length + 1) first xs else some xs

/-- `cur >= first`. The iterators of an empty vector are null, and the addresses before the
null pointer wrap round. -/
def atLeastFirst (xs : List T) (cur : Int) : Bool := xs.isEmpty || decide (0 ≤ cur)

def makeHeapLoop : Nat → Int → List T → Option (List T)
  | 0, _, _ => none
  | fuel + 1, cur, xs =>
      if atLeastFirst xs cur then do
        let xs ← down cur (xs.length - 1) xs
        if cur = 0 then return xs else makeHeapLoop fuel (cur - 1) xs
      else
        some xs

def makeHeap (xs : List T) : Option (List T) :=
  makeHeapLoop (xs.length + 2) (xs.length / 2 - 1 : Int) xs

def pushHeap (xs : List T) : Option (List T) := up 0 (xs.length - 1) xs

def popHeap (xs : List T) : Option (List T) := do
  let xs ← swap xs 0 (xs.length - 1)
  if 2 ≤ xs.length then down 0 (xs.length - 2) xs else return xs

omit [LinearOrder T] in
theorem onPart_append {f : List T → Option (List T)} {xs ys zs ys' : List T} (hf : f ys = some ys') :
    onPart f (xs ++ ys ++ zs) xs.length (xs.length + ys.length) = some (xs ++ ys' ++ zs) := by
  have hlast : xs.length + ys.length = (xs ++ ys).length := List.length_append.symm
  have hpart : ((xs ++ ys ++ zs).take (xs.length + ys.length)).drop xs.length = ys := by
    rw [hlast, List.take_left, List.drop_left]
  have hfirst : (xs ++ ys ++ zs).take xs.length = xs := by
    rw [List.append_assoc, List.take_left]
  rw [onPart, hpart, hf, hfirst, hlast, List.drop_left]
  rfl

/-! The elements as a function of the index. -/

structure Reads (xs : List T) (a : Nat → T) : Prop where
  entry : ∀ i, i < xs.length → xs[i]? = some (a i)

omit [LinearOrder T] in
theorem Reads.load {xs : List T} {a : Nat → T} (h : Reads xs a) {i : Nat} (hi : i < xs.length) :
    load xs i = some (a i) := by
  rw [Algorithm.load, if_pos (Int.natCast_nonneg i)]
  exact h.entry i hi

omit [LinearOrder T] in
theorem Reads.getElem {xs : List T} {a : Nat → T} (h : Reads xs a) {i : Nat} (hi : i < xs.length) :
    xs[i] = a i :=
  Option.some.inj ((List.getElem?_eq_getElem hi).symm.trans (h.entry i hi))

omit [LinearOrder T] in
theorem exists_reads {xs : List T} (hne : xs ≠ []) : ∃ a, Reads xs a := by
  obtain ⟨x, -⟩ := List.exists_mem_of_ne_nil xs hne
  refine ⟨fun i => xs.getD i x, ⟨fun i hi => ?_⟩⟩
  simp [hi]

omit [LinearOrder T] in
theorem Reads.swap {xs : List T} {a : Nat → T} (h : Reads xs a) {i j : Nat} (hi : i < xs.length)
    (hj : j < xs.length) :
    ∃ xs', swap xs i j = some xs' ∧ xs'.Perm xs ∧ Reads xs' (swapped a i j) := by
  refine ⟨(xs.set i (a j)).set j (a i), ?_, ?_, ?_⟩
  · rw [Algorithm.swap, h.load hi, h.load hj]
    rfl
  · rw [← h.getElem hi, ← h.getElem hj]
    exact List.set_set_perm hi hj
  · refine ⟨fun k hk => ?_⟩
    simp only [List.length_set] at hk
    rw [List.getElem?_set, List.getElem?_set, List.length_set]
    by_cases hjk : j = k
    · rw [if_pos hjk, if_pos hj, ← hjk, swapped_right]
    · rw [if_neg hjk]
      by_cases hik : i = k
      · rw [if_pos hik, if_pos hi, ← hik, swapped_left]
      · rw [if_neg hik, swapped_of_ne a i j (Ne.symm hik) (Ne.symm hjk)]
        exact h.entry k hk

section

variable {a : Nat → T} {c : Nat}

/-- The leaves are heaps from the start. -/
theorem isHeap_leaves {n : Nat} (a : Nat → T) (hc : n ≤ 2 * c + 1) : IsHeap a c n := by
  intro i hpos hlt hle
  rcases (parent_eq_iff hpos).mp rfl with hi | hi <;> omega

end

theorem toInt_natCast {n : Nat} (hn : n < 2 ^ 31) : toInt n = n := by
  rw [toInt, BitVec.toInt_ofInt, Int.bmod_eq_of_le (by omega) (by omega)]

theorem parentIndex_natCast {c : Nat} (hpos : 0 < c) : parentIndex c = some (parent c : Int) := by
  have hcast : (c : Int) - 1 = ((c - 1 : Nat) : Int) := by omega
  rw [parentIndex, if_pos (by omega), hcast, parent]
  rfl

end Algorithm

end RebuildTheWheel.TinySTL

namespace RebuildTheWheel.TinySTL

open Data Data.Heap

namespace Algorithm

variable {T : Type} (pred : T → T → Bool)

/-! `sort(first, last, pred)`. A range is the list of its elements, and a position is the
distance to its beginning. Outside the range there is nothing to read. -/

/-- `if (pred(*i, *j)) swap(*i, *j)` -/
def swapIf (xs : List T) (i j : Nat) : Option (List T) := do
  let x ← load xs i
  let y ← load xs j
  if pred x y then swap xs i j else some xs

/-- The range `[first, last]` includes its last element. -/
def mid3 (xs : List T) (first last : Nat) : Option (T × List T) := do
  let mid := first + (last + 1 - first) / 2
  let xs ← swapIf pred xs mid first
  let xs ← swapIf pred xs last mid
  let xs ← swapIf pred xs last first
  let ret ← load xs mid
  let xs ← swap xs mid (last - 1 : Nat)
  some (ret, xs)

/-- The inner loop of `bubble_sort` from `p` on, with the number of its steps. -/
def bubblePass (p : Nat) : Nat → List T → Bool → Option (List T × Bool)
  | 0, xs, swaped => some (xs, swaped)
  | k + 1, xs, swaped => do
      let y ← load xs (p + 1 : Nat)
      let x ← load xs p
      if pred y x then
        let xs ← swap xs (p + 1 : Nat) p
        bubblePass (p + 1) k xs true
      else bubblePass (p + 1) k xs swaped

def bubbleLoop : Nat → List T → Option (List T)
  | 0, xs => some xs
  | i + 1, xs => do
      let (xs, swaped) ← bubblePass pred 0 i xs false
      if swaped then bubbleLoop i xs else some xs

def bubbleSort (xs : List T) : Option (List T) := bubbleLoop pred xs.length xs

/-- `while (pred(*p1, mid) && (p1 < p2)) ++p1` -/
def scanUp (xs : List T) (mid : T) (p1 p2 : Nat) : Option Nat := do
  let x ← load xs p1
  if h : pred x mid = true ∧ p1 < p2 then scanUp xs mid (p1 + 1) p2 else some p1
termination_by p2 - p1

/-- `while (!pred(*p2, mid) && (p1 < p2)) --p2` -/
def scanDown (xs : List T) (mid : T) (p1 p2 : Nat) : Option Nat := do
  let x ← load xs p2
  if h : pred x mid = false ∧ p1 < p2 then scanDown xs mid p1 (p2 - 1) else some p2
termination_by p2 - p1

/-- `while (p1 < p2)`, which ends with both at one place. -/
def partitionLoop (mid : T) : Nat → Nat → Nat → List T → Option (Nat × List T)
  | 0, _, _, _ => none
  | fuel + 1, p1, p2, xs =>
      if p1 < p2 then do
        let p1 ← scanUp pred xs mid p1 p2
        let p2 ← scanDown pred xs mid p1 p2
        let xs ← (if p1 < p2 then swap xs p1 p2 else some xs)
        partitionLoop mid fuel p1 p2 xs
      else some (p1, xs)

/-- The calls nest at most `fuel` deep. -/
def sort : Nat → List T → Option (List T)
  | 0, _ => none
  | fuel + 1, xs =>
      if xs.length ≤ 1 then some xs
      else if xs.length ≤ 20 then bubbleSort pred xs
      else do
        let last := xs.length
        let (mid, xs) ← mid3 pred xs 0 (last - 1)
        let (p, xs) ← partitionLoop pred mid last 0 (last - 2) xs
        let xs ← swap xs p (last - 2 : Nat)
        let xs ← onPart (sort fuel) xs 0 p
        onPart (sort fuel) xs (p + 1) last

end Algorithm

end RebuildTheWheel.TinySTL
