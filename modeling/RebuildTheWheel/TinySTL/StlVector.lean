import RebuildTheWheel.Data.RawMemory

namespace RebuildTheWheel.TinySTL

open Data

/-! The `vector<T>` of `stl_vector.hpp`. -/

/-- Addresses, and 0 for the null pointer. -/
structure StlVector where
  start : Nat
  finish : Nat
  endOfStorage : Nat

namespace StlVector

variable {T : Type}

def size (v : StlVector) : Nat := v.finish - v.start

/-- `data_allocator::allocate(n)`, which looks outside its table for no bytes. -/
def allocate (m : RawMemory T) (n : Nat) : Option (RawMemory T × Nat) :=
  if n = 0 then none else some (m.allocate n)

def uninitializedCopy (m : RawMemory T) (first last result : Nat) :
    Option (RawMemory T × Nat) := do
  if last < first then none
  else
    let m ← m.copyForward first result (last - first)
    some (m, result + (last - first))

def deallocate (m : RawMemory T) (v : StlVector) : RawMemory T :=
  if v.start ≠ 0 then m.deallocate v.start (v.endOfStorage - v.start) else m

def fillInitialize (m : RawMemory T) (n : Nat) (val : T) : Option (RawMemory T × StlVector) := do
  let (m, start) ← allocate m n
  let m ← m.fill start n val
  some (m, ⟨start, start + n, start + n⟩)

/-- The loop of `insert_aux`, from `it` down to `position`. There is no cell at 0. -/
def moveLoop (m : RawMemory T) (position : Nat) : Nat → Option (RawMemory T)
  | 0 => if position = 0 then some m else none
  | it + 1 => do
      if it + 1 = position then some m
      else
        let x ← m.load (it + 1)
        let m ← m.store (it + 2) x
        moveLoop m position it

/-- The room for `insert_aux`. -/
def grow (m : RawMemory T) (v : StlVector) (position : Nat) :
    Option (RawMemory T × StlVector × Nat) := do
  if v.finish = v.endOfStorage then
    let diff := position - v.start
    let oldSize := v.endOfStorage - v.start
    -- `0 ? 1 : 2 * old_size`
    let newSize := 2 * oldSize
    let (m, newStart) ← allocate m newSize
    let (m, newFinish) ← uninitializedCopy m v.start v.finish newStart
    let m := m.destroy v.start (v.finish - v.start)
    let m := deallocate m v
    some (m, ⟨newStart, newFinish, newStart + newSize⟩, newStart + diff)
  else some (m, v, position)

def insertAux (m : RawMemory T) (v : StlVector) (position : Nat) (x : T) :
    Option (RawMemory T × StlVector × Nat) := do
  let (m, v, position) ← grow m v position
  if v.finish = 0 then none
  else
    let m ← moveLoop m position (v.finish - 1)
    let m ← m.store position x
    some (m, v, position)

def pushBack (m : RawMemory T) (v : StlVector) (val : T) : Option (RawMemory T × StlVector) := do
  let (m, v, _) ← insertAux m v v.finish val
  some (m, v)

def insert (m : RawMemory T) (v : StlVector) (position : Nat) (val : T) :
    Option (RawMemory T × StlVector × Nat) :=
  insertAux m v position val

/-! `finish` stays where it is. -/

variable {m m' : RawMemory T} {v v' : StlVector} {position position' it : Nat} {x : T} {xs : List T}

/-- The new `finish` and the new position are as far from `start` as the old ones. -/
theorem grow_eq (h : grow m v position = some (m', v', position')) :
    v'.size = v.size ∧ (position = v.finish → position' = v'.finish) := by
  rw [grow] at h
  split_ifs at h with hfull
  · obtain ⟨⟨m₁, newStart⟩, -, h⟩ := Option.bind_eq_some_iff.mp h
    obtain ⟨⟨m₂, newFinish⟩, hcopy, h⟩ := Option.bind_eq_some_iff.mp h
    rw [uninitializedCopy] at hcopy
    split_ifs at hcopy with hlt
    obtain ⟨m₃, -, hcopy⟩ := Option.bind_eq_some_iff.mp hcopy
    obtain ⟨-, rfl⟩ := Prod.mk.inj (Option.some.inj hcopy)
    obtain ⟨-, hv⟩ := Prod.mk.inj (Option.some.inj h)
    obtain ⟨rfl, rfl⟩ := Prod.mk.inj hv
    exact ⟨Nat.add_sub_cancel_left _ _, fun hend => hend ▸ rfl⟩
  · obtain ⟨-, hv⟩ := Prod.mk.inj (Option.some.inj h)
    obtain ⟨rfl, rfl⟩ := Prod.mk.inj hv
    exact ⟨rfl, id⟩

theorem insertAux_size (h : insertAux m v position x = some (m', v', position')) :
    v'.size = v.size := by
  rw [insertAux] at h
  obtain ⟨⟨m₁, v₁, position₁⟩, hgrow, h⟩ := Option.bind_eq_some_iff.mp h
  simp only at h
  split_ifs at h with hnull
  obtain ⟨m₂, -, h⟩ := Option.bind_eq_some_iff.mp h
  obtain ⟨m₃, -, h⟩ := Option.bind_eq_some_iff.mp h
  obtain ⟨-, hv⟩ := Prod.mk.inj (Option.some.inj h)
  obtain ⟨rfl, -⟩ := Prod.mk.inj hv
  exact (grow_eq hgrow).1

/-- From below `position` the loop never gets there. -/
theorem moveLoop_below (h : it < position) : moveLoop m position it = none := by
  induction it generalizing m with
  | zero => exact if_neg h.ne'
  | succ it ih =>
      rw [moveLoop, if_neg h.ne]
      cases hload : m.load (it + 1) with
      | none => rfl
      | some y =>
          cases hstore : m.store (it + 2) y with
          | none => simp [hstore]
          | some m₁ => simpa [hstore] using ih (Nat.lt_of_succ_lt h)

theorem pushBack_eq_none (m : RawMemory T) (v : StlVector) (val : T) :
    pushBack m v val = none := by
  rw [pushBack, insertAux]
  cases hgrow : grow m v v.finish with
  | none => rfl
  | some r =>
      obtain ⟨m₁, v₁, position⟩ := r
      obtain rfl := (grow_eq hgrow).2 rfl
      simp only [Option.bind_eq_bind, Option.bind_some]
      by_cases hnull : v₁.finish = 0
      · rw [if_pos hnull]
        rfl
      · rw [if_neg hnull, moveLoop_below (Nat.sub_one_lt hnull)]
        rfl

/-- What is to come of `val` at `position`. -/
structure Inserted (m m' : RawMemory T) (v v' : StlVector) (i : Nat) (val : T) : Prop where
  contents : ∀ xs : List T, xs.length = v.size → m.Reads v.start xs →
    m'.Reads v'.start (xs.insertIdx i val)
  size : v'.size = v.size + 1
  order : v'.start ≤ v'.finish ∧ v'.finish ≤ v'.endOfStorage
  inside : ∀ y, m'.written y = true → m.written y = true ∨
    v.start ≤ y ∧ y < v.endOfStorage ∨ v'.start ≤ y ∧ y < v'.endOfStorage

/-- In no state does either operation do what it should. -/
theorem never_inserted (m : RawMemory T) (v : StlVector) (i : Nat) (val : T) :
    (¬∃ m' v' position', insert m v (v.start + i) val = some (m', v', position') ∧
        Inserted m m' v v' i val) ∧
      ¬∃ m' v', pushBack m v val = some (m', v') ∧ Inserted m m' v v' v.size val := by
  constructor
  · rintro ⟨m', v', position', hrun, hinserted⟩
    have hsame := insertAux_size hrun
    have hmore := hinserted.size
    omega
  · rintro ⟨m', v', hrun, -⟩
    rw [pushBack_eq_none] at hrun
    cases hrun

/-- A 7 is inserted in front of two 5s. -/
theorem insert_front : ∃ m v, fillInitialize RawMemory.new 2 5 = some (m, v) ∧
    ¬∃ m' v' position', insert m v v.start 7 = some (m', v', position') ∧
      Inserted m m' v v' 0 7 := by
  refine ⟨_, _, rfl, ?_⟩
  rintro ⟨m', v', position', hrun, hinserted⟩
  obtain ⟨-, hv⟩ := Prod.mk.inj (Option.some.inj hrun)
  obtain ⟨rfl, -⟩ := Prod.mk.inj hv
  exact absurd hinserted.size (by decide)

end StlVector

end RebuildTheWheel.TinySTL
