import RebuildTheWheel.TinySTL.CircularBuffer

namespace RebuildTheWheel.TinySTL

/-! `cb_iter<T, N>`. The pointer is its distance from `start_`. There is no result where an
`int` or a `ptrdiff_t` passes its range. -/

structure CbIter where
  ptr : Int
  index : Int
deriving DecidableEq

namespace CbIter

def intMax : Int := CircularBuffer.intMax

/-- The conversions to `int`, `size_t` and `ptrdiff_t`. -/
def toInt (x : Int) : Int := (x + 2 ^ 31) % 2 ^ 32 - 2 ^ 31

def toSize (x : Int) : Int := x % 2 ^ 64

def toPtrdiff (x : Int) : Int := (x + 2 ^ 63) % 2 ^ 64 - 2 ^ 63

variable (N : Nat)

def nextIndex (index : Int) : Option Int :=
  if index < intMax then some (toInt (toSize (index + 1) % N)) else none

def prevIndex (index : Int) : Option Int :=
  if -intMax - 1 < index then
    let index := index - 1
    some (toInt (toSize (if index = -1 then index + N else index)))
  else none

/-- `operator++` -/
def inc (cit : CbIter) : Option CbIter := do
  let index ← nextIndex N cit.index
  some ⟨index, index⟩

/-- `operator--` -/
def dec (cit : CbIter) : Option CbIter := do
  let index ← prevIndex N cit.index
  some ⟨index, index⟩

/-- `cit + i` -/
def plus (cit : CbIter) (i : Int) : Option CbIter :=
  let real := toInt (i.tmod (toPtrdiff N))
  let real := if real < 0 then toInt (toSize (real + N)) else real
  let index := cit.index + real
  if -intMax - 1 ≤ index ∧ index ≤ intMax then some ⟨cit.ptr + index, index⟩ else none

/-- `cit - i` -/
def minus (cit : CbIter) (i : Int) : Option CbIter :=
  if i = -2 ^ 63 then none else plus N cit (-i)

def times (f : CbIter → Option CbIter) : Nat → CbIter → Option CbIter
  | 0, cit => some cit
  | n + 1, cit => do
      let cit ← f cit
      times f n cit

/-- As many increments, or for a negative number decrements. -/
def moved (cit : CbIter) : Int → Option CbIter
  | .ofNat n => times (inc N) n cit
  | .negSucc n => times (dec N) (n + 1) cit

end CbIter

namespace CircularBuffer

variable {T : Type}

def first (cb : CircularBuffer T) : CbIter := ⟨cb.indexOfHead, cb.indexOfHead⟩

def last (cb : CircularBuffer T) : CbIter := ⟨cb.indexOfTail, cb.indexOfTail⟩

inductive Obtained (N : Nat) (cb : CircularBuffer T) : CbIter → Prop
  | first : Obtained N cb cb.first
  | last : Obtained N cb cb.last
  | inc {cit cit' : CbIter} (h : Obtained N cb cit) (hinc : cit.inc N = some cit') :
      Obtained N cb cit'
  | dec {cit cit' : CbIter} (h : Obtained N cb cit) (hdec : cit.dec N = some cit') :
      Obtained N cb cit'

end CircularBuffer

namespace CbIter

variable {N n : Nat} {cit cit' : CbIter} {k : Int}

theorem toInt_eq (hlow : -2 ^ 31 ≤ k) (hhigh : k < 2 ^ 31) : toInt k = k := by
  rw [toInt, Int.emod_eq_of_lt (by omega) (by omega), Int.add_sub_cancel]

theorem toSize_eq (hlow : 0 ≤ k) (hhigh : k < 2 ^ 64) : toSize k = k :=
  Int.emod_eq_of_lt hlow hhigh

theorem emod_le_self (hlow : 0 ≤ k) (N : Nat) : k % N ≤ k := by
  obtain ⟨j, rfl⟩ := Int.eq_ofNat_of_zero_le hlow
  exact Int.ofNat_le.mpr (Nat.mod_le j N)

theorem inc_eq (hN : 0 < N) (hlow : 0 ≤ k) (hk : k < intMax) (p : Int) :
    inc N ⟨p, k⟩ = some ⟨(k + 1) % N, (k + 1) % N⟩ := by
  have hmax : intMax = 2 ^ 31 - 1 := rfl
  have hmod := Int.emod_nonneg (k + 1) (Int.natCast_ne_zero.mpr hN.ne')
  have hle := emod_le_self (Int.le_add_one hlow) N
  have hsize : toSize (k + 1) = k + 1 := toSize_eq (by omega) (by omega)
  have hint : toInt ((k + 1) % N) = (k + 1) % N := toInt_eq (by omega) (by omega)
  rw [inc, nextIndex, if_pos hk, hsize, hint]
  rfl

theorem dec_eq (hfits : (N : Int) ≤ intMax) (hlow : 0 ≤ k) (hk : k < N) (p : Int) :
    dec N ⟨p, k⟩ = some ⟨(k - 1) % N, (k - 1) % N⟩ := by
  have hmax : intMax = 2 ^ 31 - 1 := rfl
  have hindex : (if k - 1 = -1 then k - 1 + N else k - 1) = (k - 1) % N := by
    split_ifs with hzero
    · rw [← Int.add_emod_right, Int.emod_eq_of_lt (by omega) (by omega)]
    · rw [Int.emod_eq_of_lt (by omega) (by omega)]
  have hmod := Int.emod_nonneg (k - 1) (show (N : Int) ≠ 0 by omega)
  have hlt := Int.emod_lt_of_pos (k - 1) (show (0 : Int) < N by omega)
  rw [dec, prevIndex, if_pos (by simp only; omega)]
  simp only [hindex]
  rw [toSize_eq (by omega) (by omega), toInt_eq (by omega) (by omega)]
  rfl

/-- Steps by `a` around the buffer. -/
theorem times_eq {f : CbIter → Option CbIter} {a : Int}
    (hf : ∀ k : Int, 0 ≤ k → k < N → f ⟨k, k⟩ = some ⟨(k + a) % N, (k + a) % N⟩)
    (hlow : 0 ≤ k) (hk : k < N) :
    times f n ⟨k, k⟩ = some ⟨(k + a * n) % N, (k + a * n) % N⟩ := by
  induction n generalizing k with
  | zero =>
      have hsame : (k + a * (0 : Nat)) % N = k := by
        rw [Int.ofNat_zero, Int.mul_zero, Int.add_zero, Int.emod_eq_of_lt hlow hk]
      rw [hsame, times]
  | succ n ih =>
      have hN : (N : Int) ≠ 0 := by omega
      have hnext := ih (Int.emod_nonneg (k + a) hN) (Int.emod_lt_of_pos (k + a) (by omega))
      rw [Int.emod_add_emod] at hnext
      have hsum : k + a + a * n = k + a * (n + 1 : Nat) := by
        rw [Int.natCast_succ, Int.mul_add, Int.mul_one]
        omega
      rw [times, hf k hlow hk, Option.bind_eq_bind, Option.bind_some, hnext, hsum]

theorem moved_zero (hN : 0 < N) (hfits : (N : Int) ≤ intMax) (i : Int) :
    moved N ⟨0, 0⟩ i = some ⟨i % N, i % N⟩ := by
  have hpos : (0 : Int) < N := Int.natCast_pos.mpr hN
  cases i with
  | ofNat n =>
      have hinc := times_eq (n := n) (fun k hlow hk => inc_eq hN hlow (by omega) k) le_rfl hpos
      rw [Int.one_mul, Int.zero_add] at hinc
      exact hinc
  | negSucc n =>
      have hdec := times_eq (n := n + 1) (a := -1) (fun k hlow hk => dec_eq hfits hlow hk k) le_rfl hpos
      rw [Int.neg_mul, Int.one_mul, Int.zero_add] at hdec
      exact hdec

/-- The offset that `operator+` adds to the first index is the remainder. -/
theorem plus_zero (hN : 0 < N) (hfits : (N : Int) ≤ intMax) (i : Int) :
    plus N ⟨0, 0⟩ i = some ⟨i % N, i % N⟩ := by
  have hmax : intMax = 2 ^ 31 - 1 := rfl
  have hpos : (0 : Int) < N := Int.natCast_pos.mpr hN
  have hcast : toPtrdiff N = N := by
    rw [toPtrdiff, Int.emod_eq_of_lt (by omega) (by omega), Int.add_sub_cancel]
  have hmod := Int.emod_nonneg i hpos.ne'
  have hlt := Int.emod_lt_of_pos i hpos
  have htmod : i.tmod N = i % N ∨ i.tmod N = i % N - N ∧ i % N ≠ 0 := by
    rw [Int.tmod_eq_emod]
    split_ifs with hsign
    · exact .inl (Int.sub_zero _)
    · exact .inr ⟨rfl, fun hzero => hsign (.inr (Int.dvd_of_emod_eq_zero hzero))⟩
  have hint : toInt (i.tmod N) = i.tmod N := toInt_eq (by omega) (by omega)
  have hreal : (if i.tmod N < 0 then toInt (toSize (i.tmod N + N)) else i.tmod N) = i % N := by
    split_ifs with hneg
    · have hback : i.tmod N + N = i % N := by omega
      rw [hback, toSize_eq (by omega) (by omega), toInt_eq (by omega) (by omega)]
    · omega
  rw [plus, hcast]
  simp only [hint, hreal, Int.zero_add]
  rw [if_pos (by omega)]

/-! Which additions are right. -/

/-- `cit + i` is the iterator moved by `i`, with its index below `N` and its pointer there. -/
def PlusRight (N : Nat) (cit : CbIter) (i : Int) : Prop :=
  ∃ cit', plus N cit i = some cit' ∧ moved N cit i = some cit' ∧
    0 ≤ cit'.index ∧ cit'.index < N ∧ cit'.ptr = cit'.index

theorem ptr_eq_of_obtained {T : Type} {cb : CircularBuffer T} (h : cb.Obtained N cit) :
    cit.ptr = cit.index := by
  cases h with
  | first => rfl
  | last => rfl
  | inc _ hinc =>
      obtain ⟨index, -, hcit⟩ := Option.bind_eq_some_iff.mp hinc
      obtain rfl := Option.some.inj hcit
      rfl
  | dec _ hdec =>
      obtain ⟨index, -, hcit⟩ := Option.bind_eq_some_iff.mp hdec
      obtain rfl := Option.some.inj hcit
      rfl

/-- The pointer moves by the new index. -/
theorem plus_ptr {i : Int} (hplus : plus N cit i = some cit') :
    cit'.ptr = cit.ptr + cit'.index := by
  unfold plus at hplus
  obtain ⟨-, hcit⟩ := Option.ite_none_right_eq_some.mp hplus
  obtain rfl := Option.some.inj hcit
  rfl

theorem index_of_plusRight {T : Type} {cb : CircularBuffer T} {i : Int} (h : cb.Obtained N cit)
    (hright : PlusRight N cit i) : cit.index = 0 := by
  obtain ⟨cit', hplus, -, -, -, hptr⟩ := hright
  have hmoved := plus_ptr hplus
  have hstart := ptr_eq_of_obtained h
  omega

/-- A buffer of more cells than `INT_MAX` has an index that cannot be incremented. -/
theorem times_inc_overflow (hN : intMax < N) (hlow : 0 ≤ k) (hk : k ≤ intMax) (hn : intMax < k + n) :
    times (inc N) n ⟨k, k⟩ = none := by
  have hmax : intMax = 2 ^ 31 - 1 := rfl
  induction n generalizing k with
  | zero => omega
  | succ n ih =>
      by_cases hlast : k < intMax
      · have hnext : (k + 1) % N = k + 1 := Int.emod_eq_of_lt (by omega) (by omega)
        rw [times, inc_eq (by omega) hlow hlast, hnext]
        exact ih (by omega) (by omega) (by omega)
      · have hnone : inc N ⟨k, k⟩ = none := by
          rw [inc, nextIndex, if_neg hlast]
          rfl
        rw [times, hnone]
        rfl

theorem eq_zero_of_obtained {T : Type} {cb : CircularBuffer T} (h : cb.Obtained N cit)
    (hzero : cit.index = 0) : cit = ⟨0, 0⟩ := by
  have hptr := ptr_eq_of_obtained h
  rw [hzero] at hptr
  cases cit with
  | mk ptr index => exact congr (congrArg CbIter.mk hptr) hzero

/-- The additions to an iterator, and its subtractions in terms of them. -/
theorem plusRight_iff {T : Type} {cb : CircularBuffer T} (hN : 0 < N) (h : cb.Obtained N cit) :
    ((N : Int) ≤ intMax → ∀ i, PlusRight N cit i ↔ cit.index = 0) ∧
      (intMax < N → ∃ i : Int, -2 ^ 63 ≤ i ∧ i < 2 ^ 63 ∧ ¬PlusRight N cit i) ∧
      ∀ i : Int, -2 ^ 63 < i → minus N cit i = plus N cit (-i) := by
  refine ⟨fun hfits i => ⟨index_of_plusRight h, fun hzero => ?_⟩, fun hmax => ?_, fun i hi => ?_⟩
  · obtain rfl := eq_zero_of_obtained h hzero
    have hpos : (0 : Int) < N := Int.natCast_pos.mpr hN
    exact ⟨_, plus_zero hN hfits i, moved_zero hN hfits i, Int.emod_nonneg i hpos.ne',
      Int.emod_lt_of_pos i hpos, rfl⟩
  · refine ⟨2 ^ 31, by omega, by omega, fun hright => ?_⟩
    obtain rfl := eq_zero_of_obtained h (index_of_plusRight h hright)
    obtain ⟨_, -, hmoved, -⟩ := hright
    have hnone : moved N ⟨0, 0⟩ (2 ^ 31) = none :=
      times_inc_overflow (n := 2 ^ 31) hmax le_rfl (by decide) (by decide)
    exact absurd (hnone.symm.trans hmoved) nofun
  · exact if_neg (by omega)

/-- A buffer of three cells with one element. -/
theorem plusRight_first : PlusRight 3 (⟨fun _ => some 5, 0, 0, 1⟩ : CircularBuffer Nat).first (-4) :=
  ((plusRight_iff (Nat.succ_pos 2) .first).1 (by decide) (-4)).mpr rfl

/-- In a buffer of three cells, `cit + 1` at index 1 has index 2, and its pointer is behind the
buffer. -/
theorem plus_one_outside :
    plus 3 (⟨fun _ => some 5, 0, 1, 2⟩ : CircularBuffer Nat).last 1 = some ⟨3, 2⟩ ∧
      moved 3 (⟨fun _ => some 5, 0, 1, 2⟩ : CircularBuffer Nat).last 1 = some ⟨2, 2⟩ ∧
      ¬PlusRight 3 (⟨fun _ => some 5, 0, 1, 2⟩ : CircularBuffer Nat).last 1 :=
  ⟨rfl, rfl, fun hright => absurd (index_of_plusRight .last hright) (by decide)⟩

end CbIter

end RebuildTheWheel.TinySTL
