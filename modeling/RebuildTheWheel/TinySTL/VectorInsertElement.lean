import RebuildTheWheel.TinySTL.VectorRun

namespace RebuildTheWheel.TinySTL

open Data

namespace Vector

open Allocator

variable {T : Type}

/-! `insert` of a value that is an element of the vector, read through its reference while the
storage changes. -/

/-- The branch of `uninitialized_fill_n`: `fill_n` for the types of `is_POD_type`, and for the
others a loop that constructs. -/
inductive FillN : Type → Type 1 where
  | pod {T : Type} (overload : Overload T) : FillN T
  | construct {T : Type} : FillN T

def FillN.overload : FillN T → Overload T
  | .pod overload => overload
  | .construct => .generic

def FillN.constructs : FillN T → Bool
  | .pod _ => false
  | .construct => true

/-- Where an object is constructed, the one that was there is gone. -/
def fillLoop (constructs : Bool) (m : RawMemory T) (first value : Nat) :
    Nat → Option (RawMemory T)
  | 0 => some m
  | n + 1 => do
      let m := if constructs then m.destroy first 1 else m
      let x ← m.load value
      let m ← m.store first x
      fillLoop constructs m (first + 1) value n

/-- `uninitialized_fill_n(first, n, value)` with the address of the value. -/
def uninitializedFillReference :
    {T : Type} → FillN T → RawMemory T → Nat → Nat → Nat → Option (RawMemory T × Nat)
  | _, .pod .generic, m, first, n, value => do
      let m ← fillLoop false m first value n
      some (m, first + n)
  | _, .pod (.wchar size), m, first, n, value => do
      let x ← m.load value
      uninitializedFillN (.wchar size) m first n x
  | _, .construct, m, first, n, value => do
      let m ← fillLoop true m first value n
      some (m, first + n)

def reallocateAndFillReference (fillN : FillN T) (m : RawMemory T) (v : Vector)
    (position n value : Nat) : Option (RawMemory T × Vector) := do
  let newCapacity := v.getNewCapacity n
  let (m, newStart) := allocate m newCapacity
  let (m, newFinish) ← uninitializedCopy m v.start position newStart
  let (m, newFinish) ← uninitializedFillReference fillN m newFinish n value
  let (m, newFinish) ← uninitializedCopy m position v.finish newFinish
  some (destroyAndDeallocateAll m v, ⟨newStart, newFinish, newStart + newCapacity⟩)

/-- `insert(position, const size_type& n, const value_type& val)` -/
def insertReference (fillN : FillN T) (m : RawMemory T) (v : Vector) (position n value : Nat) :
    Option (RawMemory T × Vector) := do
  -- `assert(n != 0)`
  if n = 0 then none
  else
    let locationLeft := v.endOfStorage - v.finish
    if locationLeft ≥ n then
      let m ← m.copyBackward position (position + n) (v.finish - position)
      let (m, _) ← uninitializedFillReference fillN m position n value
      some (m, { v with finish := v.finish + n })
    else
      reallocateAndFillReference fillN m v position n value

/-- `insert(position, n, v[k])`. Where `n` and the elements have one integral type other than
`size_type`, the call means the template `insert(position, first, last)`, which copies its
arguments. -/
def insertElement (copies : Bool) (fillN : FillN T) (m : RawMemory T) (v : Vector)
    (position n k : Nat) : Option (RawMemory T × Vector) :=
  if copies then do
    let value ← v.at? m k
    insertFill fillN.overload m v position n value
  else insertReference fillN m v position n (v.start + k)

variable {m : RawMemory T} {v : Vector} {xs ys : List T} {fillN : FillN T} {copies : Bool}
  {first value i k n : Nat} {x : T}

theorem destroy_write (m : RawMemory T) (first : Nat) (x : T) :
    (m.destroy first 1).write first [x] = m.write first [x] := by
  simp only [RawMemory.write, RawMemory.destroy, RawMemory.mk.injEq, and_true]
  refine funext fun y => ?_
  by_cases hy : first ≤ y ∧ y < first + [x].length
  · rw [if_pos hy, if_pos hy]
  · rw [if_neg hy, if_neg hy]
    exact if_neg hy

theorem load_write (hload : m.load value = some x) : (m.write first [x]).load value = some x := by
  have hlive : m.live value = true := by
    by_contra hdead
    exact absurd ((if_neg hdead).symm.trans hload) nofun
  have hcell : m.cells value = some x := (if_pos hlive).symm.trans hload
  refine (if_pos hlive).trans ?_
  by_cases hy : first ≤ value ∧ value < first + 1
  · have hsame : value - first = 0 := by omega
    refine (if_pos hy).trans ?_
    rw [hsame]
    rfl
  · exact (if_neg hy).trans hcell

/-- One step of the loop, where the value can be read after the old object is gone. -/
theorem fillLoop_succ {constructs : Bool} (hload : m.load value = some x)
    (hkept : constructs = true → value ≠ first) (hlive : m.live first = true) :
    fillLoop constructs m first value (n + 1) =
      fillLoop constructs (m.write first [x]) (first + 1) value n := by
  cases constructs with
  | false =>
      simp only [fillLoop, Bool.false_eq_true, if_false, hload, RawMemory.store_eq hlive,
        Option.bind_eq_bind, Option.bind_some]
  | true =>
      have hne : ¬(first ≤ value ∧ value < first + 1) := by
        have hvalue := hkept rfl
        omega
      have hload' : (m.destroy first 1).load value = some x := by
        rw [← hload]
        exact congrArg (fun c => if m.live value then c else none) (if_neg hne)
      have hlive' : (m.destroy first 1).live first = true := hlive
      simp only [fillLoop, if_true, hload', RawMemory.store_eq hlive', destroy_write,
        Option.bind_eq_bind, Option.bind_some]

theorem fillLoop_eq {constructs : Bool} (hload : m.load value = some x)
    (hkept : constructs = true → value < first ∨ first + n ≤ value) (hlive : m.Live first n) :
    fillLoop constructs m first value n = some (m.write first (List.replicate n x)) := by
  induction n generalizing m first with
  | zero => rw [fillLoop, List.replicate_zero, RawMemory.write_nil]
  | succ n ih =>
      have hrest : (m.write first [x]).Live (first + 1) n := hlive.mono (Nat.le_succ _) (by omega)
      have hwrite := RawMemory.write_write m first [x] (List.replicate n x)
      rw [fillLoop_succ hload (fun h => by have := hkept h; omega) (hlive first le_rfl (by omega)),
        ih (load_write hload) (fun h => by have := hkept h; omega) hrest]
      exact congrArg some hwrite

/-- An object constructed from itself has no value. -/
theorem fillLoop_self (hload : m.load value = some x) (hlive : m.Live first n)
    (hle : first ≤ value) (hlt : value < first + n) : fillLoop true m first value n = none := by
  induction n generalizing m first with
  | zero => omega
  | succ n ih =>
      by_cases hsame : value = first
      · have hgone : (m.destroy first 1).load value = none := by
          rw [RawMemory.load]
          split_ifs
          · exact if_pos (by omega)
          · rfl
        simp only [fillLoop, if_true, hgone, Option.bind_eq_bind, Option.bind_none]
      · have hrest : (m.write first [x]).Live (first + 1) n :=
          hlive.mono (Nat.le_succ _) (by omega)
        rw [fillLoop_succ hload (fun _ => hsame) (hlive first le_rfl (by omega))]
        exact ih (load_write hload) hrest (by omega) (by omega)

theorem uninitializedFillReference_eq (hload : m.load value = some x)
    (hkept : fillN.constructs = true → value < first ∨ first + n ≤ value) (hlive : m.Live first n) :
    uninitializedFillReference fillN m first n value =
      some (m.write first (List.replicate n (fillN.overload.stored x)), first + n) := by
  cases fillN with
  | pod overload =>
      cases overload with
      | generic =>
          have hloop : fillLoop false m first value n = some (m.write first (List.replicate n x)) :=
            fillLoop_eq hload nofun hlive
          rw [uninitializedFillReference, hloop]
          rfl
      | wchar size =>
          rw [uninitializedFillReference, hload, Option.bind_eq_bind, Option.bind_some,
            uninitializedFillN, RawMemory.fill_eq hlive]
          rfl
  | construct =>
      have hloop : fillLoop true m first value n = some (m.write first (List.replicate n x)) :=
        fillLoop_eq hload hkept hlive
      rw [uninitializedFillReference, hloop]
      rfl

theorem Holds.load (h : Holds m v xs) (hx : xs[k]? = some x) : m.load (v.start + k) = some x := by
  obtain ⟨hk, -⟩ := List.getElem?_eq_some_iff.mp hx
  exact (h.shows.elements k hk).trans hx

/-- The old block is there until the elements are copied. -/
theorem Holds.reallocateAndFillReference (h : Holds m v xs) (hi : i ≤ xs.length)
    (hx : xs[k]? = some x) :
    v.reallocateAndFillReference fillN m (v.start + i) n (v.start + k) =
      v.reallocateAndCopy m (v.start + i) (List.replicate n (fillN.overload.stored x)) := by
  obtain ⟨hk, -⟩ := List.getElem?_eq_some_iff.mp hx
  have hcapacity := le_getNewCapacity h n
  have hfits := h.length_le
  have hbelow := h.below
  have hcount : (List.replicate n (fillN.overload.stored x)).length = n := List.length_replicate
  have hfresh := allocate_fresh h.bounded (v.getNewCapacity n)
  rw [Vector.reallocateAndFillReference, Vector.reallocateAndCopy, hcount]
  generalize allocate m (v.getNewCapacity n) = r at hfresh
  have hapart : v.start + xs.length ≤ r.2 := by
    have hplace := hfresh.apart
    omega
  have hlive : (r.1.write r.2 (xs.take i)).Live (r.2 + i) n :=
    hfresh.live.mono (Nat.le_add_right _ _) (by omega)
  have hload : (r.1.write r.2 (xs.take i)).load (v.start + k) = some x := by
    have hreads : (r.1.write r.2 (xs.take i)).Reads v.start xs :=
      (hfresh.oldReads (by omega) h.reads).write (.inl hapart)
    have hold : r.1.Live v.start xs.length := hfresh.oldLive (h.liveAt le_rfl (by omega))
    have hcell : (r.1.write r.2 (xs.take i)).live (v.start + k) = true :=
      hold _ (Nat.le_add_right _ _) (by omega)
    exact ((if_pos hcell).trans (hreads k hk)).trans hx
  have hfill : Vector.uninitializedFillReference fillN (r.1.write r.2 (xs.take i)) (r.2 + i) n
      (v.start + k) = _ :=
    uninitializedFillReference_eq hload (fun _ => .inl (by omega)) hlive
  have hstore : (r.1.write r.2 (xs.take i)).storeList (r.2 + i)
      (List.replicate n (fillN.overload.stored x)) =
        some ((r.1.write r.2 (xs.take i)).write (r.2 + i)
          (List.replicate n (fillN.overload.stored x))) :=
    RawMemory.storeList_eq (hcount.symm ▸ hlive)
  simp only [h.copy_front hfresh hi (by omega), hfill, hstore, Option.bind_eq_bind,
    Option.bind_some]

/-- The index of the element that stands at the reference once the tail is moved. -/
def shifted (i n k : Nat) : Nat := if i + n ≤ k then k - n else k

/-- The shifted elements, seen from the place of the old ones. -/
theorem Holds.load_moved (h : Holds m v xs) (hi : i ≤ xs.length) (hk : k < xs.length) :
    (m.write (v.start + i + n) (xs.drop i)).load (v.start + k) = xs[shifted i n k]? := by
  have hfinish := h.finish
  have hfits := h.room
  have hlength : (xs.drop i).length = xs.length - i := List.length_drop
  have hlive : m.live (v.start + k) = true := h.liveAt (n := 1) (by omega) (by omega) _ le_rfl (by omega)
  refine (if_pos hlive).trans ?_
  unfold shifted
  split_ifs with hbehind
  · refine (if_pos (by omega)).trans ?_
    rw [List.getElem?_drop]
    congr 1
    omega
  · refine (if_neg (by omega)).trans ?_
    exact h.reads k hk

/-- With room, the value is read from the moved elements. -/
theorem Holds.insertReference_room (h : Holds m v xs) (hi : i ≤ xs.length) (hn : n ≠ 0)
    (hroom : n ≤ v.endOfStorage - v.finish) (hk : k < xs.length)
    (hx : xs[shifted i n k]? = some x)
    (hself : fillN.constructs = true → k < i ∨ i + n ≤ k) :
    Yields m (v.insertReference fillN m (v.start + i) n (v.start + k))
      (xs.take i ++ List.replicate n (fillN.overload.stored x) ++ xs.drop i) := by
  have hfinish := h.finish
  have hfits := h.room
  have hcount : (List.replicate n (fillN.overload.stored x)).length = n := List.length_replicate
  have hfill : uninitializedFillReference fillN (m.write (v.start + i + n) (xs.drop i))
      (v.start + i) n (v.start + k) =
        some (m.write (v.start + i) (List.replicate n (fillN.overload.stored x) ++ xs.drop i),
          v.start + i + n) := by
    have hlive : (m.write (v.start + i + n) (xs.drop i)).Live (v.start + i) n :=
      h.liveAt (by omega) (by omega)
    have hwrite := RawMemory.write_write_front m (v.start + i)
      (List.replicate n (fillN.overload.stored x)) (xs.drop i)
    rw [hcount] at hwrite
    have hload := (h.load_moved hi hk).trans hx
    rw [uninitializedFillReference_eq hload (fun hc => by have := hself hc; omega) hlive, hwrite]
  have hyields := h.insert_yields (List.replicate n (fillN.overload.stored x)) hi
    (hcount.symm ▸ hroom)
  rw [hcount] at hyields
  rw [Vector.insertReference, if_neg hn]
  simp only [ge_iff_le, if_pos hroom, h.moveTail hi hroom, hfill, Option.bind_eq_bind,
    Option.bind_some]
  exact hyields

theorem Holds.insertReference_self (h : Holds m v xs) (hi : i ≤ xs.length)
    (hroom : n ≤ v.endOfStorage - v.finish) (hk : k < xs.length) (hle : i ≤ k) (hlt : k < i + n) :
    v.insertReference .construct m (v.start + i) n (v.start + k) = none := by
  have hfinish := h.finish
  have hfits := h.room
  have hload : (m.write (v.start + i + n) (xs.drop i)).load (v.start + k) = some xs[k] := by
    rw [h.load_moved hi hk, shifted, if_neg (by omega), List.getElem?_eq_getElem hk]
  have hlive : (m.write (v.start + i + n) (xs.drop i)).Live (v.start + i) n :=
    h.liveAt (by omega) (by omega)
  have hloop := fillLoop_self hload hlive (by omega) (by omega)
  rw [insertReference]
  simp only [ge_iff_le, if_pos hroom, h.moveTail hi hroom, uninitializedFillReference, hloop,
    Option.bind_eq_bind, Option.bind_some, Option.bind_none, ite_self]

/-- Without room, the value is read from the old block. -/
theorem Holds.insertReference_full (h : Holds m v xs) (hi : i ≤ xs.length) (hn : n ≠ 0)
    (hroom : ¬n ≤ v.endOfStorage - v.finish) (hx : xs[k]? = some x) :
    Yields m (v.insertReference fillN m (v.start + i) n (v.start + k))
      (xs.take i ++ List.replicate n (fillN.overload.stored x) ++ xs.drop i) := by
  rw [insertReference, if_neg hn]
  simp only [ge_iff_le, if_neg hroom]
  rw [h.reallocateAndFillReference hi hx]
  exact h.reallocateAndCopy hi

theorem insertFill_stored (overload : Overload T) (m : RawMemory T) (v : Vector)
    (position n : Nat) (value : T) :
    v.insertFill overload m position n value =
      v.insertFill .generic m position n (overload.stored value) := rfl

/-- The call reads the value where another element has been moved to. -/
def ReadsMoved (copies : Bool) (v : Vector) (i n k : Nat) : Prop :=
  copies = false ∧ n ≤ v.endOfStorage - v.finish ∧ i + n ≤ k

/-- The call constructs the element from itself. -/
def ConstructsSelf (copies : Bool) (fillN : FillN T) (v : Vector) (i n k : Nat) : Prop :=
  copies = false ∧ fillN.constructs = true ∧ n ≤ v.endOfStorage - v.finish ∧ i ≤ k ∧ k < i + n

instance : Decidable (ReadsMoved copies v i n k) :=
  inferInstanceAs (Decidable (_ ∧ _))

theorem Holds.insertElement_yields (h : Holds m v xs) (hi : i ≤ xs.length) (hn : n ≠ 0)
    (hk : k < xs.length) (hself : ¬ConstructsSelf copies fillN v i n k)
    (hx : xs[if ReadsMoved copies v i n k then k - n else k]? = some x) :
    Yields m (v.insertElement copies fillN m (v.start + i) n k)
      (xs.take i ++ List.replicate n (fillN.overload.stored x) ++ xs.drop i) := by
  rw [insertElement]
  cases copies with
  | true =>
      have hsame : xs[k]? = some x := by rwa [if_neg (fun hmoved => nomatch hmoved.1)] at hx
      rw [if_pos rfl, at?, h.load hsame, Option.bind_eq_bind, Option.bind_some, insertFill_stored]
      exact h.insertFill hi hn rfl
  | false =>
      rw [if_neg Bool.false_ne_true]
      by_cases hroom : n ≤ v.endOfStorage - v.finish
      · have hsource : (if ReadsMoved false v i n k then k - n else k) = shifted i n k := by
          unfold ReadsMoved shifted
          simp only [true_and, hroom]
        rw [hsource] at hx
        refine h.insertReference_room hi hn hroom hk hx fun hconstructs => ?_
        by_contra hinside
        exact hself ⟨rfl, hconstructs, hroom, by omega, by omega⟩
      · rw [if_neg (fun hmoved => hroom hmoved.2.1)] at hx
        exact h.insertReference_full hi hn hroom hx

theorem Holds.insertElement_self (h : Holds m v xs) (hi : i ≤ xs.length) (hk : k < xs.length)
    (hself : ConstructsSelf copies fillN v i n k) :
    v.insertElement copies fillN m (v.start + i) n k = none := by
  obtain ⟨rfl, hconstructs, hroom, hle, hlt⟩ := hself
  cases fillN with
  | pod overload => exact absurd hconstructs Bool.false_ne_true
  | construct =>
      rw [insertElement, if_neg Bool.false_ne_true]
      exact h.insertReference_self hi hroom hk hle hlt

theorem Holds.unique (h : Holds m v xs) (h' : Holds m v ys) : xs = ys := by
  have hlength : xs.length = ys.length := by
    have hxs := h.finish
    have hys := h'.finish
    omega
  refine List.ext_getElem? fun i => ?_
  by_cases hi : i < xs.length
  · rw [← h.reads i hi, h'.reads i (hlength ▸ hi)]
  · rw [List.getElem?_eq_none (by omega), List.getElem?_eq_none (by omega)]

theorem Yields.unique {r : Option (RawMemory T × Vector)} (h : Yields m r xs)
    (h' : Yields m r ys) : xs = ys := by
  obtain ⟨m₁, v₁, rfl, hholds, -⟩ := h
  obtain ⟨m₂, v₂, hsame, hholds', -⟩ := h'
  obtain ⟨rfl, rfl⟩ := Prod.mk.inj (Option.some.inj hsame)
  exact hholds.unique hholds'

/-- Two elements in a block of four. -/
theorem holds_four :
    Holds ((RawMemory.new.allocate 4).1.write 1 [1, 2]) ⟨1, 3, 5⟩ [1, 2] :=
  holds_placed (RawMemory.allocate_fresh RawMemory.bounded_new 4) (by decide) le_rfl

end Vector

end RebuildTheWheel.TinySTL
