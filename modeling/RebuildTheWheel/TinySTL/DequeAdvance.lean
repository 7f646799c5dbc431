import RebuildTheWheel.TinySTL.DequeRun

namespace RebuildTheWheel.TinySTL

namespace Deque

variable {T : Type} {beyond : List Nat → Option SlotPtr} {d : Deque T} {it it' : DqIter}
  {n p : Nat}

/-! `it + n` and `it - n` against as many steps of `++` and `--`. -/

def increments (beyond : List Nat → Option SlotPtr) (d : Deque T) : Nat → DqIter → Option DqIter
  | 0, it => some it
  | n + 1, it => do
      let it ← d.inc beyond it
      increments beyond d n it

def decrements (beyond : List Nat → Option SlotPtr) (d : Deque T) : Nat → DqIter → Option DqIter
  | 0, it => some it
  | n + 1, it => do
      let it ← d.dec beyond it
      decrements beyond d n it

theorem Stands.increments (h : d.Stands beyond it p) (hsize : d.map.length = d.mapSize)
    (hlast : p + n < 64 * d.mapSize) :
    ∃ it', d.increments beyond n it = some it' ∧ d.Stands beyond it' (p + n) := by
  induction n generalizing it p with
  | zero => exact ⟨it, rfl, h⟩
  | succ n ih =>
      obtain ⟨next, hinc, hnext⟩ := h.inc hsize (by omega) fun heq => by omega
      have hshift : p + (n + 1) = p + 1 + n := by omega
      obtain ⟨it', hrest, hit'⟩ := ih hnext (by omega)
      refine ⟨it', ?_, hshift ▸ hit'⟩
      rw [Deque.increments, hinc]
      exact hrest

theorem Stands.decrements (h : d.Stands beyond it (p + n)) (hsize : d.map.length = d.mapSize)
    (hlast : p + n ≤ 64 * d.mapSize) :
    ∃ it', d.decrements beyond n it = some it' ∧ d.Stands beyond it' p := by
  induction n generalizing it with
  | zero => exact ⟨it, rfl, h⟩
  | succ n ih =>
      obtain ⟨next, hdec, hnext⟩ := Stands.dec (p := p + n) h hsize (by omega)
      obtain ⟨it', hrest, hit'⟩ := ih hnext (by omega)
      refine ⟨it', ?_, hit'⟩
      rw [Deque.decrements, hdec]
      exact hrest

theorem Stands.mapIndex (h : d.Stands beyond it p) : it.mapIndex = p / 64 := by
  obtain ⟨head, -, rfl⟩ := h
  rfl

/-- At the last slot of a later bucket the addition takes one bucket too many. -/
theorem Stands.plus_wrong (h : d.Stands beyond it p) (hout : 64 ≤ p % 64 + n)
    (hoff : (p + n) % 64 = 63) (hplus : d.plus beyond it n = some it') :
    it'.mapIndex = (p + n) / 64 + 1 := by
  obtain ⟨head, hhead, rfl⟩ := h
  have hnot : ¬(n : Int) ≤ 63 - p % 64 := by omega
  have hrest : ((n : Int) - (63 - p % 64)).toNat = p % 64 + n - 63 := by omega
  have hindex : p / 64 + ((p % 64 + n - 63) / 64 + 1) = (p + n) / 64 + 1 := by omega
  simp [Deque.plus, getBuckTail, getBuckHead, hhead, buckSize, hnot, hrest, hindex,
    -Int.ofNat_toNat, Option.bind_eq_some_iff] at hplus
  obtain ⟨_, -, rfl⟩ := hplus
  rfl

theorem Stands.minus (h : d.Stands beyond it (p + n)) (hsize : d.map.length = d.mapSize)
    (hlast : p + n ≤ 64 * d.mapSize) (hn : n ≤ (p + n) % 64 ∨ p % 64 ≠ 0) :
    ∃ it', d.minus beyond it n = some it' ∧ d.Stands beyond it' p := by
  obtain ⟨head, hhead, rfl⟩ := h
  by_cases hin : n ≤ (p + n) % 64
  · have hdiv : (p + n) / 64 = p / 64 := by omega
    have hmod : (((p + n) % 64 : Nat) : Int) = (p % 64 : Nat) + n := by omega
    have hle : (n : Int) ≤ (p % 64 : Nat) + n := by omega
    rw [hdiv] at hhead
    refine ⟨_, ?_, stands_of_bucketAt hhead⟩
    rw [Deque.minus, getBuckHead, hdiv, hmod, if_pos rfl, hhead]
    simp only [SlotPtr.sub_add, SlotPtr.add_add, Option.bind_eq_bind, Option.bind_some, if_pos hle,
      Int.add_neg_cancel_right]
  · have hnot : ¬(n : Int) ≤ ((p + n) % 64 : Nat) := by omega
    -- the rest that is left of `n` before this bucket
    have hrest : ((n : Int) - ((p + n) % 64 : Nat)).toNat = n - (p + n) % 64 := by omega
    have hindex : (p + n) / 64 - ((n - (p + n) % 64) / 64 + 1) = p / 64 := by omega
    have hlow : ¬(p + n) / 64 < (n - (p + n) % 64) / 64 + 1 := by omega
    have hoffset : ((64 : Nat) : Int) - 1 + (1 - ((n - (p + n) % 64) % 64 : Nat)) = (p % 64 : Nat) := by
      omega
    have hhead' : d.bucketAt beyond (p / 64) = some _ := bucketAt_of_lt (by omega)
    refine ⟨_, ?_, stands_of_bucketAt hhead'⟩
    rw [Deque.minus, getBuckHead, if_pos rfl, hhead]
    simp only [SlotPtr.sub_add, SlotPtr.add_add, Option.bind_eq_bind, Option.bind_some, if_neg hnot,
      hrest, buckSize, if_neg hlow, hindex, getBuckTail, getBuckHead, if_true, hhead', hoffset]

/-- At the first slot of an earlier bucket the subtraction takes one bucket too many. -/
theorem Stands.minus_wrong (h : d.Stands beyond it (p + n)) (hout : (p + n) % 64 < n)
    (hoff : p % 64 = 0) (hminus : d.minus beyond it n = some it') :
    it'.mapIndex + 1 = p / 64 := by
  obtain ⟨head, hhead, rfl⟩ := h
  have hnot : ¬(n : Int) ≤ ((p + n) % 64 : Nat) := by omega
  have hrest : ((n : Int) - ((p + n) % 64 : Nat)).toNat = n - (p + n) % 64 := by omega
  rw [Deque.minus, getBuckHead, if_pos rfl, hhead] at hminus
  simp only [SlotPtr.sub_add, Option.bind_eq_bind, Option.bind_some, if_neg hnot, hrest] at hminus
  split_ifs at hminus with hlow
  obtain ⟨tail, -, hsome⟩ := Option.bind_eq_some_iff.mp hminus
  obtain rfl := Option.some.inj hsome
  show (p + n) / 64 - ((n - (p + n) % 64) / 64 + 1) + 1 = p / 64
  have hfits : (n - (p + n) % 64) / 64 + 1 ≤ (p + n) / 64 := Nat.le_of_not_lt hlow
  omega

/-- What the addition has to give. -/
def PlusRight (beyond : List Nat → Option SlotPtr) (d : Deque T) (it : DqIter) (n : Nat) : Prop :=
  d.plus beyond it n = d.increments beyond n it ∧
    ∃ it', d.plus beyond it n = some it' ∧ d.difference beyond it' it = some (n : Int)

theorem Stands.plusRight (h : d.Stands beyond it p) (hsize : d.map.length = d.mapSize)
    (hlast : p + n < 64 * d.mapSize) :
    PlusRight beyond d it n ↔ p % 64 + n < 64 ∨ (p + n) % 64 ≠ 63 := by
  obtain ⟨it₁, hincrements, hit₁⟩ := h.increments hsize hlast
  constructor
  · intro hplus
    by_contra hwrong
    have hindex := h.plus_wrong (by omega) (by omega) (hplus.1.trans hincrements)
    rw [hit₁.mapIndex] at hindex
    omega
  · intro hright
    have hbucket : d.bucketAt beyond ((p + n) / 64) = some _ := bucketAt_of_lt (by omega)
    obtain ⟨it', hplus, hit'⟩ := h.plus hright (Option.isSome_of_eq_some hbucket)
    refine ⟨?_, it', hplus, ?_⟩
    · rw [hplus, hincrements, hit'.unique hit₁]
    · rw [hit'.difference h, Option.some.injEq]
      omega

theorem Stands.minus_iff (h : d.Stands beyond it (p + n)) (hsize : d.map.length = d.mapSize)
    (hlast : p + n ≤ 64 * d.mapSize) :
    d.minus beyond it n = d.decrements beyond n it ↔ n ≤ (p + n) % 64 ∨ p % 64 ≠ 0 := by
  obtain ⟨it₁, hdecrements, hit₁⟩ := h.decrements hsize hlast
  constructor
  · intro hsame
    by_contra hwrong
    have hindex := h.minus_wrong (by omega) (by omega) (hsame.trans hdecrements)
    rw [hit₁.mapIndex] at hindex
    omega
  · intro hright
    obtain ⟨it', hminus, hit'⟩ := h.minus hsize hlast hright
    rw [hminus, hdecrements, hit'.unique hit₁]

/-- The iterator at position `p`, moved inside the map's buckets. -/
theorem advance_iff (h : d.Stands beyond it p) (hsize : d.map.length = d.mapSize)
    (hp : p ≤ 64 * d.mapSize) (n : Nat) :
    (p + n < 64 * d.mapSize →
      (PlusRight beyond d it n ↔ p % 64 + n < 64 ∨ (p + n) % 64 ≠ 63)) ∧
    (n ≤ p → (d.minus beyond it n = d.decrements beyond n it ↔ n ≤ p % 64 ∨ (p - n) % 64 ≠ 0)) := by
  refine ⟨h.plusRight hsize, fun hn => ?_⟩
  obtain ⟨q, rfl⟩ : ∃ q, p = q + n := ⟨p - n, by omega⟩
  rw [Nat.add_sub_cancel]
  exact h.minus_iff hsize hp

theorem advance_iff_init :
    PlusRight (fun _ => none) (new : Deque Nat).init ⟨0, some ⟨0, 63⟩, true⟩ 63 ∧
      (new : Deque Nat).init.minus (fun _ => none) ⟨0, some ⟨0, 63⟩, true⟩ 63 =
        (new : Deque Nat).init.decrements (fun _ => none) 63 ⟨0, some ⟨0, 63⟩, true⟩ := by
  have hstands : (new : Deque Nat).init.Stands (fun _ => none) ⟨0, some ⟨0, 63⟩, true⟩ 63 :=
    ⟨⟨0, 0⟩, rfl, rfl⟩
  have hfits : 63 + 63 < 64 * 2 := by decide
  have h := advance_iff hstands rfl (Nat.le_of_add_right_le hfits.le) 63
  exact ⟨(h.1 hfits).mpr (.inr (by decide)), (h.2 le_rfl).mpr (.inl le_rfl)⟩

/-- After one `push_front`, 64 increments of `begin()` end at the last slot of the map, and
`begin() + 64` reads behind the map. -/
theorem begin_plus_fails : ∃ d : Deque Nat, [Op.pushFront 0].foldlM (step fun _ => none) new = some d ∧
    d.plus (fun _ => none) d.beg 64 = none ∧
    (d.increments (fun _ => none) 64 d.beg).map DqIter.mapIndex = some 1 :=
  ⟨_, rfl, rfl, rfl⟩

end Deque

end RebuildTheWheel.TinySTL
