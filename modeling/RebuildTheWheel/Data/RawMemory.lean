import Mathlib.Data.List.Induction
import Mathlib.Data.Nat.Basic
import Mathlib.Order.Basic

namespace RebuildTheWheel.Data

/-! Memory for arrays. Cells have addresses, come in blocks, and hold an element or nothing.
The last two fields only record: whether each block was given back with the count it was
asked for with, and which cells were written to. -/

structure RawMemory (T : Type) where
  cells : Nat → Option T
  live : Nat → Bool
  extent : Nat → Nat
  top : Nat
  matched : Bool
  written : Nat → Bool

namespace RawMemory

variable {T : Type}

/-- Address 0 is no cell. -/
def new : RawMemory T where
  cells := fun _ => none
  live := fun _ => false
  extent := fun _ => 0
  top := 1
  matched := true
  written := fun _ => false

/-- The cells from `top` on have never been used. -/
def allocate (m : RawMemory T) (n : Nat) : RawMemory T × Nat :=
  ({ m with
      cells := fun y => if m.top ≤ y ∧ y < m.top + n then none else m.cells y
      live := fun y => if m.top ≤ y ∧ y < m.top + n then true else m.live y
      extent := fun y => if y = m.top then n else m.extent y
      top := m.top + n }, m.top)

def deallocate (m : RawMemory T) (p n : Nat) : RawMemory T :=
  { m with
      live := fun y => if p ≤ y ∧ y < p + m.extent p then false else m.live y
      extent := fun y => if y = p then 0 else m.extent y
      matched := m.matched && decide (m.extent p = n) }

/-- The elements end, and the cells stay. -/
def destroy (m : RawMemory T) (p n : Nat) : RawMemory T :=
  { m with cells := fun y => if p ≤ y ∧ y < p + n then none else m.cells y }

def load (m : RawMemory T) (p : Nat) : Option T := if m.live p then m.cells p else none

/-- The cells from `p` on take the elements of a list. -/
def write (m : RawMemory T) (p : Nat) (xs : List T) : RawMemory T :=
  { m with
      cells := fun y => if p ≤ y ∧ y < p + xs.length then xs[y - p]? else m.cells y
      written := fun y => if p ≤ y ∧ y < p + xs.length then true else m.written y }

def store (m : RawMemory T) (p : Nat) (x : T) : Option (RawMemory T) :=
  if m.live p then some (m.write p [x]) else none

/-! The loops over arrays. -/

def storeList (m : RawMemory T) (dst : Nat) : List T → Option (RawMemory T)
  | [] => some m
  | x :: xs => do
      let m ← m.store dst x
      storeList m (dst + 1) xs

def fill (m : RawMemory T) (dst n : Nat) (x : T) : Option (RawMemory T) :=
  m.storeList dst (List.replicate n x)

def copyForward (m : RawMemory T) (src dst : Nat) : Nat → Option (RawMemory T)
  | 0 => some m
  | n + 1 => do
      let x ← m.load src
      let m ← m.store dst x
      copyForward m (src + 1) (dst + 1) n

/-- The last cells first. -/
def copyBackward (m : RawMemory T) (src dst : Nat) : Nat → Option (RawMemory T)
  | 0 => some m
  | n + 1 => do
      let x ← m.load (src + n)
      let m ← m.store (dst + n) x
      copyBackward m src dst n

/-! What the cells hold. -/

def Live (m : RawMemory T) (p n : Nat) : Prop := ∀ y, p ≤ y → y < p + n → m.live y = true

def Reads (m : RawMemory T) (p : Nat) (xs : List T) : Prop :=
  ∀ i, i < xs.length → m.cells (p + i) = xs[i]?

variable {m m' : RawMemory T} {p src dst n k : Nat} {x : T} {xs ys : List T}

theorem Live.mono (h : m.Live p n) {q : Nat} (hp : p ≤ q) (hk : q + k ≤ p + n) : m.Live q k :=
  fun y hy hlt => h y (hp.trans hy) (hlt.trans_le hk)

theorem reads_nil (m : RawMemory T) (p : Nat) : m.Reads p [] := by
  intro i hi
  cases hi

theorem Reads.congr (h : m.Reads p xs)
    (hcells : ∀ y, p ≤ y → y < p + xs.length → m'.cells y = m.cells y) : m'.Reads p xs := by
  intro i hi
  rw [hcells _ (Nat.le_add_right p i) (Nat.add_lt_add_left hi p)]
  exact h i hi

theorem reads_append : m.Reads p (xs ++ ys) ↔ m.Reads p xs ∧ m.Reads (p + xs.length) ys := by
  constructor
  · intro h
    refine ⟨fun i hi => ?_, fun i hi => ?_⟩
    · rw [h i (by rw [List.length_append]; omega), List.getElem?_append_left hi]
    · rw [Nat.add_assoc, h _ (by rw [List.length_append]; omega),
        List.getElem?_append_right (Nat.le_add_right _ i), Nat.add_sub_cancel_left]
  · intro h i hi
    rw [List.length_append] at hi
    by_cases hlt : i < xs.length
    · rw [List.getElem?_append_left hlt, h.1 i hlt]
    · have hle : xs.length ≤ i := Nat.le_of_not_lt hlt
      have hcell := h.2 (i - xs.length) (by omega)
      rw [Nat.add_assoc, Nat.add_sub_cancel' hle] at hcell
      rw [List.getElem?_append_right hle, hcell]

theorem reads_write (m : RawMemory T) (p : Nat) (xs : List T) : (m.write p xs).Reads p xs := by
  intro i hi
  refine (if_pos ⟨Nat.le_add_right p i, Nat.add_lt_add_left hi p⟩).trans ?_
  rw [Nat.add_sub_cancel_left]

theorem Reads.write (h : m.Reads p xs) (hapart : p + xs.length ≤ dst ∨ dst + ys.length ≤ p) :
    (m.write dst ys).Reads p xs := by
  refine h.congr fun y hy hlt => if_neg ?_
  omega

theorem Reads.load (h : m.Reads p (x :: xs)) (hlive : m.live p = true) : m.load p = some x := by
  rw [RawMemory.load, if_pos hlive]
  exact h 0 (Nat.succ_pos _)

theorem write_write (m : RawMemory T) (p : Nat) (xs ys : List T) :
    (m.write p xs).write (p + xs.length) ys = m.write p (xs ++ ys) := by
  simp only [write, RawMemory.mk.injEq, true_and]
  refine ⟨funext fun y => ?_, funext fun y => ?_⟩
  · rw [List.length_append]
    by_cases hfirst : p ≤ y ∧ y < p + xs.length
    · rw [if_neg (by omega), if_pos hfirst, if_pos (by omega), List.getElem?_append_left (by omega)]
    · rw [if_neg hfirst]
      by_cases hsecond : p + xs.length ≤ y ∧ y < p + xs.length + ys.length
      · rw [if_pos hsecond, if_pos (by omega), List.getElem?_append_right (by omega),
          Nat.sub_sub]
      · rw [if_neg hsecond, if_neg (by omega)]
  · rw [List.length_append]
    split_ifs <;> first | rfl | omega

theorem write_nil (m : RawMemory T) (p : Nat) : m.write p [] = m := by
  have hnot : ∀ y, ¬(p ≤ y ∧ y < p) := by omega
  simp [write, hnot]

/-- Two lists are written in the other order. -/
theorem write_write_front (m : RawMemory T) (p : Nat) (xs ys : List T) :
    (m.write (p + xs.length) ys).write p xs = m.write p (xs ++ ys) := by
  rw [← write_write]
  simp only [write, RawMemory.mk.injEq, true_and]
  refine ⟨funext fun y => ?_, funext fun y => ?_⟩ <;> split_ifs <;> first | rfl | omega

theorem store_eq (h : m.live p = true) (x : T) : m.store p x = some (m.write p [x]) := if_pos h

theorem storeList_eq (hlive : m.Live dst xs.length) :
    m.storeList dst xs = some (m.write dst xs) := by
  induction xs generalizing m dst with
  | nil => rw [write_nil, storeList]
  | cons x xs ih =>
      have hfirst : m.live dst = true := hlive dst le_rfl (Nat.lt_add_of_pos_right (Nat.succ_pos _))
      have hrest : (m.write dst [x]).Live (dst + 1) xs.length :=
        hlive.mono (Nat.le_succ _) (by rw [List.length_cons]; omega)
      rw [storeList, store_eq hfirst]
      simp only [Option.bind_eq_bind, Option.bind_some]
      rw [ih hrest]
      exact congrArg some (write_write m dst [x] xs)

theorem fill_eq (hlive : m.Live dst n) (x : T) :
    m.fill dst n x = some (m.write dst (List.replicate n x)) :=
  storeList_eq ((List.length_replicate (n := n) (a := x)).symm ▸ hlive)

theorem copyForward_eq (hreads : m.Reads src xs) (hsrc : m.Live src xs.length)
    (hdst : m.Live dst xs.length) (hover : dst ≤ src ∨ src + xs.length ≤ dst) :
    m.copyForward src dst xs.length = some (m.write dst xs) := by
  induction xs generalizing m src dst with
  | nil => rw [write_nil, List.length_nil, copyForward]
  | cons x xs ih =>
      rw [List.length_cons] at hsrc hdst hover
      have hload := hreads.load (hsrc src le_rfl (by omega))
      have hsplit : m.Reads src ([x] ++ xs) := hreads
      have hrest : m.Reads (src + 1) xs := (reads_append.mp hsplit).2
      have hreads' : (m.write dst [x]).Reads (src + 1) xs := hrest.write (by
        rw [List.length_singleton]
        omega)
      rw [List.length_cons, copyForward, hload, Option.bind_eq_bind, Option.bind_some,
        store_eq (hdst dst le_rfl (by omega)), Option.bind_eq_bind, Option.bind_some,
        ih hreads' (hsrc.mono (Nat.le_succ _) (by omega)) (hdst.mono (Nat.le_succ _) (by omega))
          (by omega)]
      exact congrArg some (write_write m dst [x] xs)

theorem copyBackward_eq (hreads : m.Reads src xs) (hsrc : m.Live src xs.length)
    (hdst : m.Live dst xs.length) (hover : src ≤ dst ∨ dst + xs.length ≤ src) :
    m.copyBackward src dst xs.length = some (m.write dst xs) := by
  induction xs using List.reverseRecOn generalizing m with
  | nil => rw [write_nil, List.length_nil, copyBackward]
  | append_singleton xs x ih =>
      rw [List.length_append, List.length_singleton] at hsrc hdst hover ⊢
      obtain ⟨hinit, hlast⟩ := reads_append.mp hreads
      have hload := hlast.load (hsrc _ (by omega) (by omega))
      have hreads' : (m.write (dst + xs.length) [x]).Reads src xs := hinit.write (by
        rw [List.length_singleton]
        omega)
      rw [copyBackward, hload, Option.bind_eq_bind, Option.bind_some,
        store_eq (hdst _ (by omega) (by omega)), Option.bind_eq_bind, Option.bind_some,
        ih hreads' (hsrc.mono le_rfl (by omega)) (hdst.mono le_rfl (by omega)) (by omega)]
      exact congrArg some (write_write_front m dst xs [x])

/-! Blocks. -/

/-- The blocks end below `top`. -/
def Bounded (m : RawMemory T) : Prop := ∀ p, m.extent p ≠ 0 → p + m.extent p ≤ m.top

theorem bounded_new : (new : RawMemory T).Bounded := fun _ h => absurd rfl h

/-- What a new block of `n` cells at `p` changes. -/
structure Fresh (m m' : RawMemory T) (p n : Nat) : Prop where
  bounded : m'.Bounded
  live : m'.Live p n
  fits : p + n ≤ m'.top
  apart : p = 0 ∧ n = 0 ∨ m.top ≤ p
  top : m.top ≤ m'.top
  oldLive : ∀ {q k}, m.Live q k → m'.Live q k
  oldReads : ∀ {q} {xs : List T}, q + xs.length ≤ m.top → m.Reads q xs → m'.Reads q xs
  extent : ∀ q, q < m.top → m'.extent q = m.extent q
  matched : m'.matched = m.matched
  written : m'.written = m.written

theorem fresh_null (h : m.Bounded) : Fresh m m 0 0 where
  bounded := h
  live := fun y _ hlt => absurd hlt (Nat.not_lt_zero y)
  fits := Nat.zero_le _
  apart := .inl ⟨rfl, rfl⟩
  top := le_rfl
  oldLive := id
  oldReads := fun _ => id
  extent := fun _ _ => rfl
  matched := rfl
  written := rfl

theorem allocate_fresh (h : m.Bounded) (n : Nat) :
    Fresh m (m.allocate n).1 (m.allocate n).2 n where
  bounded := by
    intro p hp
    change (if p = m.top then n else m.extent p) ≠ 0 at hp
    change p + (if p = m.top then n else m.extent p) ≤ m.top + n
    split_ifs at hp ⊢ with heq
    · exact (congrArg (· + n) heq).le
    · exact (h p hp).trans (Nat.le_add_right _ n)
  live := fun _ hle hlt => if_pos ⟨hle, hlt⟩
  fits := le_rfl
  apart := .inr le_rfl
  top := Nat.le_add_right _ n
  oldLive := by
    intro q k hlive y hle hlt
    change (if m.top ≤ y ∧ y < m.top + n then true else m.live y) = true
    split_ifs
    · rfl
    · exact hlive y hle hlt
  oldReads := by
    intro q xs hq hreads
    exact hreads.congr fun y _ hlt => if_neg fun hnew => by omega
  extent := fun _ hq => if_neg hq.ne
  matched := rfl
  written := rfl

theorem Bounded.deallocate (h : m.Bounded) (p n : Nat) : (m.deallocate p n).Bounded := by
  intro q hq
  change (if q = p then 0 else m.extent q) ≠ 0 at hq
  change q + (if q = p then 0 else m.extent q) ≤ m.top
  split_ifs at hq ⊢
  · exact absurd rfl hq
  · exact h q hq

/-- The cells of other blocks stay live. -/
theorem Live.deallocate {q : Nat} (h : m.Live q k) (hapart : p + m.extent p ≤ q) (n : Nat) :
    (m.deallocate p n).Live q k :=
  fun y hle hlt => (if_neg fun hfreed => by omega).trans (h y hle hlt)

theorem Reads.destroy {q : Nat} (h : m.Reads q xs) (hapart : p + n ≤ q ∨ q + xs.length ≤ p) :
    (m.destroy p n).Reads q xs :=
  h.congr fun y hle hlt => if_neg fun hold => by omega

end RawMemory

end RebuildTheWheel.Data
