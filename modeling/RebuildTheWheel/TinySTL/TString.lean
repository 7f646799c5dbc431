import RebuildTheWheel.TinySTL.Vector

namespace RebuildTheWheel.TinySTL

open Data

/-! The storage of the `string` of `String.h`. A range to insert or copy is given by its
characters. -/

structure TString where
  start : Nat
  finish : Nat
  endOfStorage : Nat

namespace TString

open Allocator

/-- The memory of the characters. -/
abbrev Memory := RawMemory UInt8

def new : TString := ⟨0, 0, 0⟩

def size (s : TString) : Nat := s.finish - s.start

def capacity (s : TString) : Nat := s.endOfStorage - s.start

def getNewCapacity (s : TString) (len : Nat) : Nat := s.capacity + max s.capacity len

/-- `fill_n` calls `memset` for characters. -/
def fillN (m : Memory) (first n : Nat) (c : UInt8) : Option (Memory × Nat) :=
  uninitializedFillN .generic m first n c

def allocateAndFillN (m : Memory) (n : Nat) (c : UInt8) : Option (Memory × TString) := do
  let (m, start) := allocate m n
  let (m, finish) ← fillN m start n c
  some (m, ⟨start, finish, finish⟩)

def allocateAndCopy (m : Memory) (chars : List UInt8) : Option (Memory × TString) := do
  let (m, start) := allocate m chars.length
  let m ← m.storeList start chars
  some (m, ⟨start, start + chars.length, start + chars.length⟩)

def destroyAndDeallocate (m : Memory) (s : TString) : Memory :=
  deallocate (m.destroy s.start s.size) s.start s.capacity

def assignCopy (m : Memory) (s : TString) (chars : List UInt8) : Option (Memory × TString) :=
  allocateAndCopy (destroyAndDeallocate m s) chars

def assignChar (m : Memory) (s : TString) (c : UInt8) : Option (Memory × TString) :=
  allocateAndFillN (destroyAndDeallocate m s) 1 c

def resize (m : Memory) (s : TString) (n : Nat) (c : UInt8) : Option (Memory × TString) :=
  if n < s.size then
    some (m.destroy (s.start + n) (s.finish - (s.start + n)), { s with finish := s.start + n })
  else if n > s.size ∧ n ≤ s.capacity then do
    let (m, finish) ← fillN m s.finish (n - s.size) c
    some (m, { s with finish := finish })
  else if n > s.capacity then do
    let (m, newStart) := allocate m (s.getNewCapacity (n - s.size))
    let (m, newFinish) ← uninitializedCopy m s.start s.finish newStart
    let (m, newFinish) ← fillN m newFinish (n - s.size) c
    some (destroyAndDeallocate m s, ⟨newStart, newFinish, newStart + n⟩)
  else some (m, s)

def reserve (m : Memory) (s : TString) (n : Nat) : Option (Memory × TString) :=
  if n ≤ s.capacity then some (m, s)
  else do
    let (m, newStart) := allocate m n
    let (m, newFinish) ← uninitializedCopy m s.start s.finish newStart
    some (destroyAndDeallocate m s, ⟨newStart, newFinish, newStart + n⟩)

/-- The loop of `insert`, from `finish_ - 1` down to `p`, which moves each character by `n`.
No pointer is below the null pointer, so there the loop leaves the memory. -/
def moveBack (m : Memory) (s : TString) (p n : Nat) : Option Memory :=
  if p = 0 then none else m.copyBackward p (p + n) (s.finish - p)

def insertAuxCopy (m : Memory) (s : TString) (p : Nat) (chars : List UInt8) :
    Option (Memory × TString) := do
  let newCapacity := s.getNewCapacity chars.length
  let (m, newStart) := allocate m newCapacity
  let (m, newFinish) ← uninitializedCopy m s.start p newStart
  let m ← m.storeList newFinish chars
  let (m, newFinish) ← uninitializedCopy m p s.finish (newFinish + chars.length)
  some (destroyAndDeallocate m s, ⟨newStart, newFinish, newStart + newCapacity⟩)

def insertAuxFilln (m : Memory) (s : TString) (p n : Nat) (c : UInt8) :
    Option (Memory × TString) := do
  let newCapacity := s.getNewCapacity n
  let (m, newStart) := allocate m newCapacity
  let (m, newFinish) ← uninitializedCopy m s.start p newStart
  let (m, newFinish) ← fillN m newFinish n c
  let (m, newFinish) ← uninitializedCopy m p s.finish newFinish
  some (destroyAndDeallocate m s, ⟨newStart, newFinish, newStart + newCapacity⟩)

def insertRange (m : Memory) (s : TString) (p : Nat) (chars : List UInt8) :
    Option (Memory × TString) := do
  if chars.length ≤ s.capacity - s.size then
    let m ← moveBack m s p chars.length
    let m ← m.storeList p chars
    some (m, { s with finish := s.finish + chars.length })
  else
    insertAuxCopy m s p chars

def insertFill (m : Memory) (s : TString) (p n : Nat) (c : UInt8) : Option (Memory × TString) := do
  if n ≤ s.capacity - s.size then
    let m ← moveBack m s p n
    let (m, _) ← fillN m p n c
    some (m, { s with finish := s.finish + n })
  else
    insertAuxFilln m s p n c

/-- `append` of a range and of `n` characters. -/
def append (m : Memory) (s : TString) (chars : List UInt8) : Option (Memory × TString) :=
  insertRange m s s.finish chars

def appendFill (m : Memory) (s : TString) (n : Nat) (c : UInt8) : Option (Memory × TString) :=
  insertFill m s s.finish n c

def erase (m : Memory) (s : TString) (first last : Nat) : Option (Memory × TString) :=
  -- past the end the number of characters to move is as good as endless
  if s.finish < last then none
  else do
    let lengthOfMove := s.finish - last
    let m ← m.copyForward last first lengthOfMove
    let finish := first + lengthOfMove
    some (m.destroy finish (s.finish - finish), { s with finish := finish })

def clear (m : Memory) (s : TString) : Memory × TString :=
  (m.destroy s.start s.size, { s with start := s.finish })

def shrinkToFit (m : Memory) (s : TString) : Memory × TString :=
  (deallocate m s.finish (s.endOfStorage - s.finish), { s with endOfStorage := s.finish })

end TString

end RebuildTheWheel.TinySTL
