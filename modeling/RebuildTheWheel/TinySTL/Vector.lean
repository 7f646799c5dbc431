import RebuildTheWheel.Data.RawMemory

namespace RebuildTheWheel.TinySTL

open Data

/-! `Allocator.h` and `UninitializedFunctions.h`, over addresses, where 0 is the null pointer. -/

namespace Allocator

variable {T : Type}

def allocate (m : RawMemory T) (n : Nat) : RawMemory T × Nat :=
  if n = 0 then (m, 0) else m.allocate n

/-- For no elements nothing is given back. Then only the null pointer is one that `allocate`
gave for as many. -/
def deallocate (m : RawMemory T) (p n : Nat) : RawMemory T :=
  if n = 0 then { m with matched := m.matched && decide (p = 0) } else m.deallocate p n

def uninitializedCopy (m : RawMemory T) (first last result : Nat) :
    Option (RawMemory T × Nat) := do
  let m ← m.copyForward first result (last - first)
  some (m, result + (last - first))

/-- The overloads of `fill_n` in `Algorithm.h`. Those for every type and for `char` store the
value, and the one for `wchar_t` calls `memset` with the lowest byte. -/
inductive Overload : Type → Type 1 where
  | generic {T : Type} : Overload T
  | wchar (size : Nat) : Overload (BitVec (8 * size))

def Overload.stored : Overload T → T → T
  | .generic, value => value
  | .wchar size, value => (value.setWidth 8).replicate size

def uninitializedFillN (overload : Overload T) (m : RawMemory T) (first n : Nat) (value : T) :
    Option (RawMemory T × Nat) := do
  let m ← m.fill first n (overload.stored value)
  some (m, first + n)

variable {m : RawMemory T} {first last result n : Nat} {xs : List T} {value : T}

theorem allocate_fresh (h : m.Bounded) (n : Nat) :
    m.Fresh (allocate m n).1 (allocate m n).2 n := by
  unfold allocate
  split_ifs with hn
  · rw [hn]
    exact RawMemory.fresh_null h
  · exact RawMemory.allocate_fresh h n

theorem uninitializedCopy_eq (hreads : m.Reads first xs) (hlast : last = first + xs.length)
    (hsrc : m.Live first xs.length) (hdst : m.Live result xs.length)
    (hover : result ≤ first ∨ last ≤ result) :
    uninitializedCopy m first last result = some (m.write result xs, result + xs.length) := by
  have hlength : last - first = xs.length := by omega
  rw [uninitializedCopy, hlength, RawMemory.copyForward_eq hreads hsrc hdst (by omega)]
  rfl

theorem uninitializedFillN_eq {overload : Overload T} (hstored : overload.stored value = value)
    (hlive : m.Live first n) :
    uninitializedFillN overload m first n value =
      some (m.write first (List.replicate n value), first + n) := by
  rw [uninitializedFillN, hstored, RawMemory.fill_eq hlive]
  rfl

end Allocator

end RebuildTheWheel.TinySTL

namespace RebuildTheWheel.TinySTL

open Data

/-! The `vector<T>` of `Vector.h`. A range to insert or copy is given by its values. -/

structure Vector where
  start : Nat
  finish : Nat
  endOfStorage : Nat

namespace Vector

open Allocator

variable {T : Type}

def new : Vector := ⟨0, 0, 0⟩

def size (v : Vector) : Nat := v.finish - v.start

def capacity (v : Vector) : Nat := v.endOfStorage - v.start

def getNewCapacity (v : Vector) (len : Nat) : Nat :=
  if v.capacity ≠ 0 then v.capacity + max v.capacity len else len

def destroyAndDeallocateAll (m : RawMemory T) (v : Vector) : RawMemory T :=
  if v.capacity ≠ 0 then deallocate (m.destroy v.start v.size) v.start v.capacity else m

def allocateAndFillN (overload : Overload T) (m : RawMemory T) (n : Nat) (value : T) :
    Option (RawMemory T × Vector) := do
  let (m, start) := allocate m n
  let (m, _) ← uninitializedFillN overload m start n value
  some (m, ⟨start, start + n, start + n⟩)

def allocateAndCopy (m : RawMemory T) (xs : List T) : Option (RawMemory T × Vector) := do
  let (m, start) := allocate m xs.length
  let m ← m.storeList start xs
  some (m, ⟨start, start + xs.length, start + xs.length⟩)

def resize (overload : Overload T) (m : RawMemory T) (v : Vector) (n : Nat) (val : T) :
    Option (RawMemory T × Vector) :=
  if n < v.size then
    some (m.destroy (v.start + n) (v.finish - (v.start + n)), { v with finish := v.start + n })
  else if n > v.size ∧ n ≤ v.capacity then do
    let (m, finish) ← uninitializedFillN overload m v.finish (n - v.size) val
    some (m, { v with finish := finish })
  else if n > v.capacity then do
    let (m, newStart) := allocate m (v.getNewCapacity (n - v.size))
    let (m, newFinish) ← uninitializedCopy m v.start v.finish newStart
    let (m, newFinish) ← uninitializedFillN overload m newFinish (n - v.size) val
    some (destroyAndDeallocateAll m v, ⟨newStart, newFinish, newStart + n⟩)
  else some (m, v)

def reserve (m : RawMemory T) (v : Vector) (n : Nat) : Option (RawMemory T × Vector) :=
  if n ≤ v.capacity then some (m, v)
  else do
    let (m, newStart) := allocate m n
    let (m, newFinish) ← uninitializedCopy m v.start v.finish newStart
    some (destroyAndDeallocateAll m v, ⟨newStart, newFinish, newStart + n⟩)

/-- The loop assigns, and no element is destroyed. -/
def erase (m : RawMemory T) (v : Vector) (first last : Nat) : Option (RawMemory T × Vector) :=
  -- a negative number of elements to move never gets to 0
  if v.finish < last then none
  else do
    let lenOfTail := v.finish - last
    let lenOfRemoved := last - first
    let m ← m.copyForward last (last - lenOfRemoved) lenOfTail
    some (m, { v with finish := v.finish - lenOfRemoved })

def reallocateAndCopy (m : RawMemory T) (v : Vector) (position : Nat) (xs : List T) :
    Option (RawMemory T × Vector) := do
  let newCapacity := v.getNewCapacity xs.length
  let (m, newStart) := allocate m newCapacity
  let (m, newFinish) ← uninitializedCopy m v.start position newStart
  let m ← m.storeList newFinish xs
  let (m, newFinish) ← uninitializedCopy m position v.finish (newFinish + xs.length)
  some (destroyAndDeallocateAll m v, ⟨newStart, newFinish, newStart + newCapacity⟩)

def reallocateAndFillN (overload : Overload T) (m : RawMemory T) (v : Vector) (position n : Nat)
    (val : T) : Option (RawMemory T × Vector) := do
  let newCapacity := v.getNewCapacity n
  let (m, newStart) := allocate m newCapacity
  let (m, newFinish) ← uninitializedCopy m v.start position newStart
  let (m, newFinish) ← uninitializedFillN overload m newFinish n val
  let (m, newFinish) ← uninitializedCopy m position v.finish newFinish
  some (destroyAndDeallocateAll m v, ⟨newStart, newFinish, newStart + newCapacity⟩)

/-- `insert(position, first, last)` -/
def insertRange (m : RawMemory T) (v : Vector) (position : Nat) (xs : List T) :
    Option (RawMemory T × Vector) := do
  let locationLeft := v.endOfStorage - v.finish
  let locationNeed := xs.length
  let tail := v.finish - position
  if locationLeft ≥ locationNeed then
    if tail > locationNeed then
      let (m, _) ← uninitializedCopy m (v.finish - locationNeed) v.finish v.finish
      let m ← m.copyBackward position (position + locationNeed) (tail - locationNeed)
      let m ← m.storeList position xs
      some (m, { v with finish := v.finish + locationNeed })
    else
      let m ← m.storeList v.finish (xs.drop tail)
      let temp := v.finish + (xs.drop tail).length
      let (m, _) ← uninitializedCopy m position v.finish temp
      let m ← m.storeList position (xs.take tail)
      some (m, { v with finish := v.finish + locationNeed })
  else
    reallocateAndCopy m v position xs

/-- `insert(position, n, val)` -/
def insertFill (overload : Overload T) (m : RawMemory T) (v : Vector) (position n : Nat) (val : T) :
    Option (RawMemory T × Vector) := do
  -- `assert(n != 0)`
  if n = 0 then none
  else
    let locationLeft := v.endOfStorage - v.finish
    if locationLeft ≥ n then
      -- from `end() - 1` down to `position`
      let m ← m.copyBackward position (position + n) (v.finish - position)
      let (m, _) ← uninitializedFillN overload m position n val
      some (m, { v with finish := v.finish + n })
    else
      reallocateAndFillN overload m v position n val

def pushBack (overload : Overload T) (m : RawMemory T) (v : Vector) (value : T) :
    Option (RawMemory T × Vector) :=
  insertFill overload m v v.finish 1 value

def popBack (m : RawMemory T) (v : Vector) : RawMemory T × Vector :=
  (m.destroy (v.finish - 1) 1, { v with finish := v.finish - 1 })

def clear (m : RawMemory T) (v : Vector) : RawMemory T × Vector :=
  (m.destroy v.start v.size, { v with finish := v.start })

def shrinkToFit (m : RawMemory T) (v : Vector) : Option (RawMemory T × Vector) := do
  let (m, t) := allocate m v.size
  let (m, finish) ← uninitializedCopy m v.start v.finish t
  some (deallocate m v.start v.capacity, ⟨t, finish, finish⟩)

/-- `operator[]` -/
def at? (m : RawMemory T) (v : Vector) (i : Nat) : Option T := m.load (v.start + i)

end Vector

end RebuildTheWheel.TinySTL
