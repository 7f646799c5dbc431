import Mathlib.Data.List.DropRight
import Mathlib.Data.List.Forall2
import RebuildTheWheel.Data.Circular
import RebuildTheWheel.Data.Run

namespace RebuildTheWheel.TinySTL

open Data

/-! `circular_buffer<T, N>`. A cell holds an object or none. There is no result where an
`int` passes `INT_MAX`, or memory beyond the buffer or the source is touched. -/

structure CircularBuffer (T : Type) where
  cells : Nat → Option T
  indexOfHead : Nat
  indexOfTail : Nat
  size : Nat

namespace CircularBuffer

def intMax : Nat := 2 ^ 31 - 1

variable {T : Type} (N : Nat)

def full (cb : CircularBuffer T) : Bool := cb.size == N

def empty (cb : CircularBuffer T) : Bool := cb.size == 0

def front (cb : CircularBuffer T) : Option T := cb.cells cb.indexOfHead

def back (cb : CircularBuffer T) : Option T := cb.cells cb.indexOfTail

def nextIndex (index : Nat) : Option Nat :=
  if index < intMax then some ((index + 1) % N) else none

def construct (cb : CircularBuffer T) (i : Nat) (val : T) : CircularBuffer T :=
  { cb with cells := Function.update cb.cells i (some val) }

def destroy (cb : CircularBuffer T) (i : Nat) : CircularBuffer T :=
  { cb with cells := Function.update cb.cells i none }

/-- The `N` cells behind a construction: the elements, and default values after them. -/
def filled (xs : List T) (default : T) (i : Nat) : Option T :=
  if i < N then some ((xs[i]?).getD default) else none

/-- The constructor of `n` copies, where `n` is a positive `int`. -/
def allocateAndFillN (n : Nat) (val default : T) : Option (CircularBuffer T) :=
  if N ≤ n then some ⟨filled N (List.replicate N val) default, 0, N - 1, N⟩
  else some ⟨filled N (List.replicate n val) default, 0, n - 1, n⟩

/-- `int n = last - first`, as the `size_t` it is compared as. -/
def intDistance (k : Nat) : Nat :=
  if k % 2 ^ 32 ≤ intMax then k % 2 ^ 32 else 2 ^ 64 - 2 ^ 32 + k % 2 ^ 32

/-- The constructor from the range of `xs`. -/
def allocateAndCopy (xs : List T) (default : T) : Option (CircularBuffer T) :=
  let n := intDistance xs.length
  if N ≤ n then
    if N ≤ xs.length ∧ N ≤ intMax then some ⟨filled N (xs.take N) default, 0, N - 1, N⟩ else none
  else if xs.length = n then some ⟨filled N xs default, 0, n - 1, n⟩ else none

def pushBack (cb : CircularBuffer T) (val : T) : Option (CircularBuffer T) := do
  let tail ← nextIndex N cb.indexOfTail
  if cb.full N then
    let head ← nextIndex N cb.indexOfHead
    some { cb.construct tail val with indexOfTail := tail, indexOfHead := head }
  else if cb.size < intMax then
    some { cb.construct tail val with indexOfTail := tail, size := cb.size + 1 }
  else none

def popFront (cb : CircularBuffer T) : Option (CircularBuffer T) := do
  if cb.empty then none
  else
    let head ← nextIndex N cb.indexOfHead
    some { cb.destroy cb.indexOfHead with indexOfHead := head, size := cb.size - 1 }

/-- The loop of `clear`, with `k` elements left. -/
def clearLoop : Nat → CircularBuffer T → Option (CircularBuffer T)
  | 0, cb => some { cb with size := 0 }
  | k + 1, cb => do
      let head ← nextIndex N cb.indexOfHead
      clearLoop k { cb.destroy cb.indexOfHead with indexOfHead := head }

def clear (cb : CircularBuffer T) : Option (CircularBuffer T) := do
  let cb ← clearLoop N cb.size cb
  some { cb with indexOfHead := 0, indexOfTail := 0 }

/-- The copy has all cells of the source, and is taken to be full. -/
def clone (cb : CircularBuffer T) : Option (CircularBuffer T) :=
  if N ≤ intMax then some { cb with size := N } else none

/-! Several buffers of the same type. -/

inductive Op (T : Type) where
  | fill (n : Nat) (val : T)
  | build (xs : List T)
  | pushBack (i : Nat) (val : T)
  | popFront (i : Nat)
  | clear (i : Nat)
  | copy (i : Nat)
  | assign (i j : Nat)

def change (cbs : List (CircularBuffer T)) (i : Nat)
    (f : CircularBuffer T → Option (CircularBuffer T)) : Option (List (CircularBuffer T)) := do
  let cb ← cbs[i]?
  let cb ← f cb
  some (cbs.set i cb)

def step (default : T) (cbs : List (CircularBuffer T)) : Op T → Option (List (CircularBuffer T))
  | .fill n val => do
      let cb ← allocateAndFillN N n val default
      some (cbs ++ [cb])
  | .build xs => do
      let cb ← allocateAndCopy N xs default
      some (cbs ++ [cb])
  | .pushBack i val => change cbs i (pushBack N · val)
  | .popFront i => change cbs i (popFront N)
  | .clear i => change cbs i (clear N)
  | .copy i => do
      let cb ← cbs[i]?
      let cb ← clone N cb
      some (cbs ++ [cb])
  | .assign i j => if i = j then some cbs else do
      let cb ← cbs[j]?
      change cbs i fun _ => clone N cb

/-- The bounded queues that the buffers stand for: what is pushed last is kept. -/
def apply (queues : List (List T)) : Op T → List (List T)
  | .fill n val => queues ++ [(List.replicate n val).take N]
  | .build xs => queues ++ [xs.take N]
  | .pushBack i val => queues.set i ((queues.getD i [] ++ [val]).rtake N)
  | .popFront i => queues.set i (queues.getD i []).tail
  | .clear i => queues.set i []
  | .copy i => queues ++ [queues.getD i []]
  | .assign i j => queues.set i (queues.getD j [])

/-- The proper uses under which the buffers are bounded queues. A cleared buffer of more than
one cell is not pushed to, and only a full buffer is copied. -/
def Proper (cbs : List (CircularBuffer T)) : Op T → Prop
  | .fill n _ => 1 ≤ n ∧ n ≤ intMax
  | .build xs => xs ≠ [] ∧
      (xs.length ≤ intMax ∨ N ≤ intMax ∧ N ≤ xs.length % 2 ^ 32)
  | .pushBack i _ => ∃ cb, cbs[i]? = some cb ∧
      (cb.size = 0 → (cb.indexOfTail + 1) % N = cb.indexOfHead) ∧
      (N ≤ intMax ∨ cb.indexOfTail < intMax ∧ cb.size < intMax)
  | .popFront i => ∃ cb, cbs[i]? = some cb ∧ cb.size ≠ 0 ∧
      (N ≤ intMax ∨ cb.indexOfHead < intMax)
  | .clear i => ∃ cb, cbs[i]? = some cb ∧ (N ≤ intMax ∨ cb.indexOfHead + cb.size ≤ intMax)
  | .copy i => ∃ cb, cbs[i]? = some cb ∧ cb.size = N
  | .assign i j => i < cbs.length ∧ ∃ cb, cbs[j]? = some cb ∧ (i = j ∨ cb.size = N)

/-- What is seen of a buffer. -/
structure Shows (cb : CircularBuffer T) (xs : List T) : Prop where
  size : cb.size = xs.length
  elements : (List.range cb.size).map (fun j => cb.cells ((cb.indexOfHead + j) % N)) = xs.map some
  front : xs ≠ [] → cb.front = xs.head?
  back : xs ≠ [] → cb.back = xs.getLast?

structure Rep (cb : CircularBuffer T) (xs : List T) : Prop where
  size : cb.size = xs.length
  bound : xs.length ≤ N
  fits : xs.length ≤ intMax
  head : cb.indexOfHead < N
  tail : cb.indexOfTail < N
  around : Around N cb.cells cb.indexOfHead xs
  last : xs ≠ [] → (cb.indexOfTail + 1) % N = (cb.indexOfHead + xs.length) % N

variable {N} {cb : CircularBuffer T} {xs : List T} {x val default : T} {n k : Nat}

theorem nextIndex_eq (h : n < intMax) : nextIndex N n = some ((n + 1) % N) := if_pos h

theorem Rep.shows (h : Rep N cb xs) : Shows N cb xs := by
  refine ⟨h.size, ?_, ?_, ?_⟩
  · refine List.ext_getElem (by simp [h.size]) ?_
    intro j hj hj'
    rw [List.length_map] at hj'
    rw [List.getElem_map, List.getElem_map, List.getElem_range]
    exact h.around.get h.head hj'
  · intro hne
    cases xs with
    | nil => exact absurd rfl hne
    | cons x xs => exact h.around.1
  · intro hne
    have hpos : 0 < xs.length := List.length_pos_iff.mpr hne
    have hlast : cb.indexOfTail = (cb.indexOfHead + (xs.length - 1)) % N := by
      have hnext := h.last hne
      have hmod : cb.indexOfTail + 1 ≡ cb.indexOfHead + (xs.length - 1) + 1 [MOD N] := by
        rw [Nat.add_assoc, Nat.sub_add_cancel hpos]
        exact hnext
      have hcancel := Nat.ModEq.add_right_cancel' 1 hmod
      rw [Nat.ModEq, Nat.mod_eq_of_lt h.tail] at hcancel
      exact hcancel
    rw [back, hlast, h.around.get h.head (Nat.sub_lt hpos Nat.one_pos), List.getLast?_eq_getElem?,
      List.getElem?_eq_getElem (Nat.sub_lt hpos Nat.one_pos)]

theorem rtake_concat_of_lt (h : xs.length < N) : (xs ++ [val]).rtake N = xs ++ [val] := by
  rw [List.rtake, List.length_append, List.length_singleton, Nat.sub_eq_zero_of_le h, List.drop_zero]

theorem rtake_concat_cons (h : (x :: xs).length = N) :
    (x :: xs ++ [val]).rtake N = xs ++ [val] := by
  rw [List.rtake, List.length_append, List.length_singleton, h, Nat.add_sub_cancel_left]
  rfl

/-- The cell of the oldest element is written. -/
theorem Rep.pushBack_full (h : Rep N cb (x :: xs)) (hlength : (x :: xs).length = N)
    (hfits : N ≤ intMax) (val : T) :
    ∃ cb', cb.pushBack N val = some cb' ∧ Rep N cb' (xs ++ [val]) := by
  have hN : 0 < N := Nat.zero_lt_of_lt h.head
  have hsize : (cb.size == N) = true := beq_iff_eq.mpr (h.size.trans hlength)
  have htail : (cb.indexOfTail + 1) % N = cb.indexOfHead := by
    rw [h.last (List.cons_ne_nil x xs), hlength, Nat.add_mod_right, Nat.mod_eq_of_lt h.head]
  have hwrap : ((cb.indexOfHead + 1) % N + xs.length) % N = cb.indexOfHead := by
    rw [succ_mod_add_mod, ← List.length_cons, hlength, Nat.add_mod_right, Nat.mod_eq_of_lt h.head]
  have hroom : xs.length < N := by
    rw [← hlength]
    exact Nat.lt_succ_self _
  have hhead : (cb.indexOfHead + 1) % N < N := Nat.mod_lt _ hN
  have haround := (h.around.pop h.head hroom (some val)).push hhead hroom val
  rw [hwrap, Function.update_idem] at haround
  rw [CircularBuffer.pushBack, nextIndex_eq (h.tail.trans_le hfits), htail]
  simp only [Option.bind_eq_bind, Option.bind_some, full, hsize, if_true,
    nextIndex_eq (h.head.trans_le hfits)]
  refine ⟨_, rfl, ?_, ?_, ?_, hhead, h.head, haround, ?_⟩
  · rw [List.length_append]
    exact h.size
  · rw [List.length_append]
    exact hroom
  · rw [List.length_append]
    exact h.fits
  · intro _
    rw [List.length_append, List.length_singleton, ← List.length_cons, hlength, Nat.add_mod_right,
      Nat.mod_mod]

theorem Rep.pushBack (h : Rep N cb xs)
    (hempty : cb.size = 0 → (cb.indexOfTail + 1) % N = cb.indexOfHead)
    (hfits : N ≤ intMax ∨ cb.indexOfTail < intMax ∧ cb.size < intMax) (val : T) :
    ∃ cb', cb.pushBack N val = some cb' ∧ Rep N cb' ((xs ++ [val]).rtake N) := by
  have hN : 0 < N := Nat.zero_lt_of_lt h.head
  have hsize := h.size
  have hbound := h.bound
  have htail := h.tail
  by_cases hlength : xs.length = N
  · cases xs with
    | nil => exact absurd hlength hN.ne
    | cons x xs =>
        rw [rtake_concat_cons hlength]
        exact h.pushBack_full hlength (by omega) val
  · have hnext : (cb.indexOfTail + 1) % N = (cb.indexOfHead + xs.length) % N := by
      cases xs with
      | nil =>
          rw [hempty hsize]
          exact (Nat.mod_eq_of_lt h.head).symm
      | cons x xs => exact h.last (List.cons_ne_nil x xs)
    have hroom : xs.length < N := lt_of_le_of_ne hbound hlength
    have hfull : (cb.size == N) = false := beq_false_of_ne (hsize ▸ hlength)
    rw [rtake_concat_of_lt hroom, CircularBuffer.pushBack, nextIndex_eq (by omega), hnext]
    simp only [Option.bind_eq_bind, Option.bind_some, full, hfull, Bool.false_eq_true, if_false]
    rw [if_pos (by omega)]
    refine ⟨_, rfl, ?_, ?_, ?_, h.head, ?_, h.around.push h.head hroom val, ?_⟩
    · rw [List.length_append]
      exact congrArg (· + 1) hsize
    · rw [List.length_append]
      exact hroom
    · rw [List.length_append, List.length_singleton]
      omega
    · exact Nat.mod_lt _ hN
    · intro _
      rw [Nat.mod_add_mod, Nat.add_assoc, List.length_append]
      rfl

theorem Rep.popFront (h : Rep N cb (x :: xs)) (hfits : N ≤ intMax ∨ cb.indexOfHead < intMax) :
    ∃ cb', cb.popFront N = some cb' ∧ Rep N cb' xs := by
  have hhead := h.head
  have hempty : (cb.size == 0) = false := beq_false_of_ne (h.size ▸ Nat.succ_ne_zero _)
  have hbound := h.bound
  rw [CircularBuffer.popFront, empty, hempty, nextIndex_eq (by omega)]
  refine ⟨_, rfl, ?_, ?_, ?_, ?_, h.tail, h.around.pop hhead hbound none, ?_⟩
  · rw [h.size]
    rfl
  · exact (Nat.le_succ _).trans hbound
  · exact (Nat.le_succ _).trans h.fits
  · exact Nat.mod_lt _ (Nat.zero_lt_of_lt hhead)
  · intro _
    rw [succ_mod_add_mod]
    exact h.last (List.cons_ne_nil x xs)

theorem clearLoop_defined (hN : 0 < N)
    (hfits : ∀ j < k, (cb.indexOfHead + j) % N < intMax) (hhead : cb.indexOfHead < N) :
    ∃ cb', clearLoop N k cb = some cb' ∧ cb'.size = 0 := by
  induction k generalizing cb with
  | zero => exact ⟨_, rfl, rfl⟩
  | succ k ih =>
      have hfirst := hfits 0 (Nat.succ_pos k)
      rw [Nat.add_zero, Nat.mod_eq_of_lt hhead] at hfirst
      rw [clearLoop, nextIndex_eq hfirst]
      refine ih ?_ (Nat.mod_lt _ hN)
      intro j hj
      rw [succ_mod_add_mod]
      exact hfits (j + 1) (Nat.succ_lt_succ hj)

theorem Rep.clear (h : Rep N cb xs) (hfits : N ≤ intMax ∨ cb.indexOfHead + cb.size ≤ intMax) :
    ∃ cb', cb.clear N = some cb' ∧ Rep N cb' [] := by
  have hN : 0 < N := Nat.zero_lt_of_lt h.head
  have hindexes : ∀ j < cb.size, (cb.indexOfHead + j) % N < intMax := by
    intro j hj
    rcases hfits with hfits | hfits
    · exact (Nat.mod_lt _ hN).trans_le hfits
    · exact (Nat.mod_le _ _).trans_lt (by omega)
  obtain ⟨cb', hloop, hsize⟩ := clearLoop_defined hN hindexes h.head
  rw [CircularBuffer.clear, hloop]
  exact ⟨_, rfl, hsize, Nat.zero_le _, Nat.zero_le _, hN, hN, trivial, fun hne => absurd rfl hne⟩

theorem Rep.clone (h : Rep N cb xs) (hfull : cb.size = N) :
    ∃ cb', cb.clone N = some cb' ∧ Rep N cb' xs := by
  have hlength : xs.length = N := h.size.symm.trans hfull
  refine ⟨_, if_pos (hlength ▸ h.fits), hlength.symm, h.bound, h.fits, h.head, h.tail, h.around,
    h.last⟩

theorem rep_filled (hne : xs ≠ []) (hbound : xs.length ≤ N) (hfits : xs.length ≤ intMax)
    (default : T) : Rep N ⟨filled N xs default, 0, xs.length - 1, xs.length⟩ xs := by
  have hpos : 0 < xs.length := List.length_pos_iff.mpr hne
  have hN : 0 < N := hpos.trans_le hbound
  refine ⟨rfl, hbound, hfits, hN, by simp only; omega, around_of_get hN ?_, ?_⟩
  · intro j hj
    rw [Nat.zero_add, Nat.mod_eq_of_lt (hj.trans_le hbound)]
    change (if j < N then some (xs[j]?.getD default) else none) = some xs[j]
    rw [if_pos (hj.trans_le hbound), List.getElem?_eq_getElem hj]
    rfl
  · intro _
    simp only
    rw [Nat.sub_add_cancel hpos, Nat.zero_add]

theorem rep_replicate (hk : 0 < k) (hbound : k ≤ N) (hfits : k ≤ intMax) (val default : T) :
    Rep N ⟨filled N (List.replicate k val) default, 0, k - 1, k⟩ (List.replicate k val) := by
  have hlength : (List.replicate k val).length = k := List.length_replicate
  have hne : List.replicate k val ≠ [] := List.ne_nil_of_length_pos (hk.trans_eq hlength.symm)
  have hrep := rep_filled hne (hlength.trans_le hbound) (hlength.trans_le hfits) default
  rw [hlength] at hrep
  exact hrep

theorem rep_fill (hN : 0 < N) (hn : 1 ≤ n) (hfits : n ≤ intMax) (val default : T) :
    ∃ cb, allocateAndFillN N n val default = some cb ∧ Rep N cb ((List.replicate n val).take N) := by
  rw [allocateAndFillN, List.take_replicate]
  split_ifs with hle
  · rw [Nat.min_eq_left hle]
    exact ⟨_, rfl, rep_replicate hN le_rfl (hle.trans hfits) val default⟩
  · rw [Nat.min_eq_right (Nat.le_of_not_le hle)]
    exact ⟨_, rfl, rep_replicate hn (Nat.le_of_not_le hle) hfits val default⟩

theorem intDistance_eq (h : k ≤ intMax) : intDistance k = k := by
  rw [intMax] at h
  rw [intDistance, Nat.mod_eq_of_lt (by omega), if_pos (by rw [intMax]; exact h)]

theorem mod_le_intDistance (k : Nat) : k % 2 ^ 32 ≤ intDistance k := by
  rw [intDistance]
  split_ifs
  · exact le_rfl
  · exact Nat.le_add_left _ _

theorem rep_copy (hN : 0 < N) (hne : xs ≠ [])
    (hfits : xs.length ≤ intMax ∨ N ≤ intMax ∧ N ≤ xs.length % 2 ^ 32) (default : T) :
    ∃ cb, allocateAndCopy N xs default = some cb ∧ Rep N cb (xs.take N) := by
  by_cases hle : N ≤ intDistance xs.length
  · have hroom : N ≤ xs.length ∧ N ≤ intMax := by
      rcases hfits with hfits | ⟨hmax, hmod⟩
      · rw [intDistance_eq hfits] at hle
        exact ⟨hle, hle.trans hfits⟩
      · exact ⟨hmod.trans (Nat.mod_le _ _), hmax⟩
    have hlength : (xs.take N).length = N := by
      rw [List.length_take, Nat.min_eq_left hroom.1]
    have hne' : xs.take N ≠ [] := by
      intro h
      rw [h] at hlength
      exact hN.ne hlength
    have hrep := rep_filled hne' hlength.le (hlength.le.trans hroom.2) default
    rw [hlength] at hrep
    refine ⟨_, ?_, hrep⟩
    rw [allocateAndCopy, if_pos hle, if_pos hroom]
  · have hfits' : xs.length ≤ intMax :=
      hfits.resolve_right fun h => hle (h.2.trans (mod_le_intDistance _))
    have hn := intDistance_eq hfits'
    have hbound : xs.length ≤ N := by omega
    rw [List.take_of_length_le hbound]
    refine ⟨_, ?_, rep_filled hne hbound hfits' default⟩
    rw [allocateAndCopy, if_neg hle, if_pos hn.symm, hn]

/-! The buffers together. -/

variable {cbs : List (CircularBuffer T)} {queues : List (List T)} {i : Nat}

theorem forall₂_getElem? {α β : Type*} {R : α → β → Prop} {as : List α} {bs : List β} {a : α}
    (h : List.Forall₂ R as bs) (ha : as[i]? = some a) : ∃ b, bs[i]? = some b ∧ R a b := by
  induction h generalizing i with
  | nil => cases ha
  | cons hhead _ ih =>
      cases i with
      | zero =>
          obtain rfl := Option.some.inj ha
          exact ⟨_, rfl, hhead⟩
      | succ i => exact ih ha

theorem forall₂_set {α β : Type*} {R : α → β → Prop} {as : List α} {bs : List β} {a : α} {b : β}
    (h : List.Forall₂ R as bs) (hab : R a b) : List.Forall₂ R (as.set i a) (bs.set i b) := by
  induction h generalizing i with
  | nil => exact .nil
  | cons hhead htail ih =>
      cases i with
      | zero => exact .cons hab htail
      | succ i => exact .cons hhead ih

theorem forall₂_concat {α β : Type*} {R : α → β → Prop} {as : List α} {bs : List β} {a : α} {b : β}
    (h : List.Forall₂ R as bs) (hab : R a b) : List.Forall₂ R (as ++ [a]) (bs ++ [b]) :=
  List.rel_append h (.cons hab .nil)

theorem change_spec {f : CircularBuffer T → Option (CircularBuffer T)} {ys : List T}
    (h : List.Forall₂ (Rep N) cbs queues) (hcb : cbs[i]? = some cb)
    (hf : ∃ cb', f cb = some cb' ∧ Rep N cb' ys) :
    ∃ cbs', change cbs i f = some cbs' ∧ List.Forall₂ (Rep N) cbs' (queues.set i ys) := by
  obtain ⟨cb', hrun, hrep⟩ := hf
  refine ⟨cbs.set i cb', ?_, forall₂_set h hrep⟩
  simp [change, hcb, hrun]

theorem step_spec (hN : 0 < N) (default : T) (h : List.Forall₂ (Rep N) cbs queues) (op : Op T)
    (hproper : Proper N cbs op) :
    ∃ cbs', step N default cbs op = some cbs' ∧ List.Forall₂ (Rep N) cbs' (apply N queues op) := by
  cases op with
  | fill n val =>
      obtain ⟨cb, hrun, hrep⟩ := rep_fill hN hproper.1 hproper.2 val default
      refine ⟨cbs ++ [cb], ?_, forall₂_concat h hrep⟩
      simp [step, hrun]
  | build xs =>
      obtain ⟨cb, hrun, hrep⟩ := rep_copy hN hproper.1 hproper.2 default
      refine ⟨cbs ++ [cb], ?_, forall₂_concat h hrep⟩
      simp [step, hrun]
  | pushBack i val =>
      obtain ⟨cb, hcb, hempty, hfits⟩ := hproper
      obtain ⟨xs, hxs, hrep⟩ := forall₂_getElem? h hcb
      rw [apply, List.getD_eq_getElem?_getD, hxs]
      exact change_spec h hcb (hrep.pushBack hempty hfits val)
  | popFront i =>
      obtain ⟨cb, hcb, hsize, hfits⟩ := hproper
      obtain ⟨xs, hxs, hrep⟩ := forall₂_getElem? h hcb
      rw [apply, List.getD_eq_getElem?_getD, hxs]
      cases xs with
      | nil => exact absurd hrep.size hsize
      | cons x xs => exact change_spec h hcb (hrep.popFront hfits)
  | clear i =>
      obtain ⟨cb, hcb, hfits⟩ := hproper
      obtain ⟨xs, -, hrep⟩ := forall₂_getElem? h hcb
      exact change_spec h hcb (hrep.clear hfits)
  | copy i =>
      obtain ⟨cb, hcb, hfull⟩ := hproper
      obtain ⟨xs, hxs, hrep⟩ := forall₂_getElem? h hcb
      obtain ⟨cb', hrun, hrep'⟩ := hrep.clone hfull
      rw [apply, List.getD_eq_getElem?_getD, hxs]
      refine ⟨cbs ++ [cb'], ?_, forall₂_concat h hrep'⟩
      simp [step, hcb, hrun]
  | assign i j =>
      obtain ⟨hi, cb, hcb, hcase⟩ := hproper
      obtain ⟨xs, hxs, hrep⟩ := forall₂_getElem? h hcb
      rw [apply, List.getD_eq_getElem?_getD, hxs, step]
      split_ifs with heq
      · subst heq
        obtain ⟨hi', rfl⟩ := List.getElem?_eq_some_iff.mp hxs
        refine ⟨cbs, rfl, ?_⟩
        rw [Option.getD_some, List.set_getElem_self]
        exact h
      · have hfull : cb.size = N := hcase.resolve_left heq
        simp only [hcb, Option.bind_eq_bind, Option.bind_some]
        exact change_spec h (List.getElem?_eq_getElem hi) (hrep.clone hfull)

end CircularBuffer

end RebuildTheWheel.TinySTL
