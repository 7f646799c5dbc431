import Mathlib.Algebra.Order.Ring.Nat
import Mathlib.Data.Fintype.EquivFin
import RebuildTheWheel.Data.Owners
import RebuildTheWheel.Data.Run

namespace RebuildTheWheel.TinySTL

open Data

/-! The control blocks `ref_t` of `shared_ptr`. A pointer is a number, the null pointer is 0;
only the identity of a deleter matters. -/

theorem neZero_addresses : NeZero (2 ^ 64) := ⟨by decide⟩

attribute [local instance] neZero_addresses

/-- Where an object lives, which is what the comparison of `this` with `&sp` looks at. -/
abbrev Address := { a : Fin (2 ^ 64) // a ≠ 0 }

theorem card_address_lt : Fintype.card Address < 2 ^ 64 := by
  have hlt := Fintype.card_subtype_lt (p := fun a : Fin (2 ^ 64) => a ≠ 0) (not_not.mpr rfl)
  rwa [Fintype.card_fin] at hlt

structure RefT (D : Type) where
  ncount : BitVec 64
  data : Nat
  deleter : D

/-- The control blocks by their addresses, with the calls of deleters, the last one first. -/
structure RefHeap (D : Type) where
  refs : Nat → Option (RefT D)
  next : Nat
  deleted : List (D × Nat)

namespace RefHeap

variable {D : Type}

def init : RefHeap D where
  refs := fun _ => none
  next := 0
  deleted := []

def set (h : RefHeap D) (r : Nat) (t : Option (RefT D)) : RefHeap D :=
  { h with refs := Function.update h.refs r t }

/-- `new ref_t(p, pfunc)`, at the address `next`. -/
def newRef (h : RefHeap D) (p : Nat) (pfunc : D) : RefHeap D :=
  { h.set h.next (some { ncount := if p ≠ 0 then 1 else 0, data := p, deleter := pfunc }) with
    next := h.next + 1 }

/-- `++(*r)`. A control block that was deleted has no result. -/
def increase (h : RefHeap D) (r : Nat) : Option (RefHeap D) := do
  let t ← h.refs r
  return h.set r (some { t with ncount := t.ncount + 1 })

def decrease (h : RefHeap D) (r : Nat) : Option (RefHeap D) := do
  let t ← h.refs r
  return h.set r (some { t with ncount := t.ncount - 1 })

/-- `delete r`: the destructor counts down once more before it looks at the count. -/
def deleteRef (h : RefHeap D) (r : Nat) : Option (RefHeap D) := do
  let t ← h.refs r
  return { h.set r none with
    deleted := if t.ncount - 1 = 0 then (t.deleter, t.data) :: h.deleted else h.deleted }

def count (h : RefHeap D) (r : Nat) : Option (BitVec 64) := (h.refs r).map RefT.ncount

def getData (h : RefHeap D) (r : Nat) : Option Nat := (h.refs r).map RefT.data

/-! The private members of `shared_ptr`. -/

def decreaseRef (h : RefHeap D) (r : Nat) : Option (RefHeap D) := do
  let p ← h.getData r
  if p ≠ 0 then
    let h ← h.decrease r
    let n ← h.count r
    if n = 0 then h.deleteRef r else return h
  else
    return h

/-- `copy_ref`, which leaves the address in the member `ref_`. -/
def copyRef (h : RefHeap D) (r : Nat) : Option (RefHeap D) := h.increase r

@[simp] theorem set_refs_self (h : RefHeap D) (r : Nat) (t : Option (RefT D)) :
    (h.set r t).refs r = t := Function.update_self ..

@[simp] theorem set_refs_of_ne (h : RefHeap D) {r r' : Nat} (hr : r' ≠ r) (t : Option (RefT D)) :
    (h.set r t).refs r' = h.refs r' := Function.update_of_ne hr ..

@[simp] theorem set_set (h : RefHeap D) (r : Nat) (t t' : Option (RefT D)) :
    (h.set r t).set r t' = h.set r t' := by
  simp [set]

@[simp] theorem newRef_refs_next (h : RefHeap D) (p : Nat) (pfunc : D) :
    (h.newRef p pfunc).refs h.next =
      some { ncount := if p ≠ 0 then 1 else 0, data := p, deleter := pfunc } :=
  h.set_refs_self ..

@[simp] theorem newRef_refs_of_ne (h : RefHeap D) {r : Nat} (hr : r ≠ h.next) (p : Nat)
    (pfunc : D) : (h.newRef p pfunc).refs r = h.refs r :=
  h.set_refs_of_ne hr _

section

variable {h : RefHeap D} {r : Nat} {t : RefT D}

theorem copyRef_eq (ht : h.refs r = some t) :
    h.copyRef r = some (h.set r (some { t with ncount := t.ncount + 1 })) := by
  rw [copyRef, increase, ht]
  rfl

theorem decreaseRef_shared (ht : h.refs r = some t) (hp : t.data ≠ 0) (hn : t.ncount ≠ 1) :
    h.decreaseRef r = some (h.set r (some { t with ncount := t.ncount - 1 })) := by
  have hne : t.ncount - 1 ≠ 0 := by bv_omega
  simp [decreaseRef, getData, decrease, count, ht, hp]
  exact fun hzero => absurd hzero hne

/-- The last release deletes the block, but its deleter is not called. -/
theorem decreaseRef_last (ht : h.refs r = some t) (hp : t.data ≠ 0) (hn : t.ncount = 1) :
    h.decreaseRef r = some (h.set r none) := by
  simp [decreaseRef, decrease, getData, count, deleteRef, ht, hp, hn]
  rfl

theorem decreaseRef_null (ht : h.refs r = some t) (hp : t.data = 0) :
    h.decreaseRef r = some h := by
  simp [decreaseRef, getData, ht, hp]

theorem set_eq_self (ht : h.refs r = some t) : h.set r (some t) = h := by
  rw [set, ← ht, Function.update_eq_self]

/-- A count that goes up and down again. -/
theorem copyRef_decreaseRef (ht : h.refs r = some t) (hp : t.data ≠ 0) (hn : t.ncount ≠ 0) :
    (h.copyRef r).bind (fun h => h.decreaseRef r) = some h := by
  have hone : t.ncount + 1 ≠ 1 := by bv_omega
  have hback : t.ncount + 1 - 1 = t.ncount := by bv_omega
  have hset := set_refs_self h r (some { t with ncount := t.ncount + 1 })
  rw [copyRef_eq ht, Option.bind_some, decreaseRef_shared hset hp hone]
  simp only [hback, set_set]
  exact congrArg some (set_eq_self ht)

theorem newRef_set (h : RefHeap D) (hr : r ≠ h.next) (p : Nat) (pfunc : D)
    (v : Option (RefT D)) : (h.newRef p pfunc).set r v = (h.set r v).newRef p pfunc := by
  simp only [newRef, set]
  rw [Function.update_comm hr.symm]

/-- The release of an older block does not depend on a new one. -/
theorem decreaseRef_newRef {h' : RefHeap D} (hr : r ≠ h.next) (p : Nat) (pfunc : D)
    (hrun : h.decreaseRef r = some h') :
    (h.newRef p pfunc).decreaseRef r = some (h'.newRef p pfunc) := by
  cases ht : h.refs r with
  | none =>
      rw [decreaseRef, getData, ht] at hrun
      cases hrun
  | some t =>
      have ht' : (h.newRef p pfunc).refs r = some t := (newRef_refs_of_ne h hr ..).trans ht
      by_cases hp : t.data = 0
      · rw [decreaseRef_null ht hp] at hrun
        rw [decreaseRef_null ht' hp, ← Option.some.inj hrun]
      · by_cases hn : t.ncount = 1
        · rw [decreaseRef_last ht hp hn] at hrun
          rw [decreaseRef_last ht' hp hn, ← Option.some.inj hrun, newRef_set h hr]
        · rw [decreaseRef_shared ht hp hn] at hrun
          rw [decreaseRef_shared ht' hp hn, ← Option.some.inj hrun, newRef_set h hr]

theorem getData_set (ht : h.refs r = some t) (n : BitVec 64) :
    (h.set r (some { t with ncount := n })).getData = h.getData := by
  funext r'
  rw [getData, getData]
  by_cases hr : r' = r
  · subst hr
    rw [set_refs_self, ht]
    rfl
  · rw [set_refs_of_ne h hr]

end

/-! Control blocks whose counts agree with their owners, in a sense that `agrees` gives. -/

def AgreesAt (agrees : RefT D → Nat → Prop) : Option (RefT D) → Nat → Prop
  | none, n => n = 0
  | some t, n => agrees t n

structure Counted (agrees : RefT D → Nat → Prop) (h : RefHeap D)
    (objects : Address → Option Nat) : Prop where
  fresh : ∀ r, h.next ≤ r → h.refs r = none
  count : ∀ r, AgreesAt agrees (h.refs r) (owners objects r).card

section

variable {agrees : RefT D → Nat → Prop} {h : RefHeap D} {objects : Address → Option Nat}
  {x : Address} {r : Nat}

theorem counted_init (agrees : RefT D → Nat → Prop) : Counted agrees init fun _ => none where
  fresh := fun _ _ => rfl
  count := by
    intro r
    change (owners _ r).card = 0
    rw [Finset.card_eq_zero, Finset.eq_empty_iff_forall_notMem]
    exact fun x hx => nomatch mem_owners.mp hx

theorem Counted.live (hc : Counted agrees h objects) (hx : objects x = some r) :
    ∃ t, h.refs r = some t := by
  have hcount := hc.count r
  cases ht : h.refs r with
  | none =>
      rw [ht] at hcount
      exact absurd hcount (Nat.ne_of_gt (card_owners_pos hx))
  | some t => exact ⟨t, rfl⟩

theorem Counted.of_refs (hc : Counted agrees h objects) {t : RefT D} (ht : h.refs r = some t) :
    agrees t (owners objects r).card := by
  have hcount := hc.count r
  rwa [ht] at hcount

theorem Counted.lt_next (hc : Counted agrees h objects) {t : RefT D} (ht : h.refs r = some t) :
    r < h.next := by
  by_contra hle
  rw [hc.fresh r (Nat.le_of_not_lt hle)] at ht
  cases ht

/-- One more owner for a block. -/
theorem Counted.insert (hc : Counted agrees h objects) (hx : objects x = none) {t t' : RefT D}
    (ht : h.refs r = some t) (hagrees : agrees t' ((owners objects r).card + 1)) :
    Counted agrees (h.set r (some t')) (Function.update objects x (some r)) where
  fresh := by
    intro r' hr'
    rw [set_refs_of_ne h (Nat.ne_of_gt ((hc.lt_next ht).trans_le hr'))]
    exact hc.fresh r' hr'
  count := by
    intro r'
    have hne : objects x ≠ some r' := by
      rw [hx]
      exact (Option.some_ne_none r').symm
    by_cases hr : r' = r
    · subst hr
      rw [set_refs_self, card_owners_insert hne]
      exact hagrees
    · rw [set_refs_of_ne h hr, owners_update_other hne fun heq => hr (Option.some.inj heq).symm]
      exact hc.count r'

/-- One owner less for a block, which may be deleted with the last one. -/
theorem Counted.erase (hc : Counted agrees h objects) (hx : objects x = some r)
    {t' : Option (RefT D)} (hagrees : AgreesAt agrees t' ((owners objects r).card - 1)) :
    Counted agrees (h.set r t') (Function.update objects x none) where
  fresh := by
    intro r' hr'
    obtain ⟨t, ht⟩ := hc.live hx
    rw [set_refs_of_ne h (Nat.ne_of_gt ((hc.lt_next ht).trans_le hr'))]
    exact hc.fresh r' hr'
  count := by
    intro r'
    by_cases hr : r' = r
    · subst hr
      have hcard := card_owners_erase hx (Option.some_ne_none r').symm
      rw [set_refs_self]
      rwa [← hcard, Nat.add_sub_cancel] at hagrees
    · have hne : objects x ≠ some r' := by
        rw [hx]
        exact fun heq => hr (Option.some.inj heq).symm
      rw [set_refs_of_ne h hr, owners_update_other hne (Option.some_ne_none r').symm]
      exact hc.count r'

/-- A new block without an owner. -/
theorem Counted.leak (hc : Counted agrees h objects) {p : Nat} {del : D}
    (hagrees : agrees { ncount := if p ≠ 0 then 1 else 0, data := p, deleter := del } 0) :
    Counted agrees (h.newRef p del) objects where
  fresh := by
    intro r hr
    have hlt := Nat.lt_of_succ_le hr
    rw [newRef_refs_of_ne h (Nat.ne_of_gt hlt)]
    exact hc.fresh r (Nat.le_of_lt hlt)
  count := by
    intro r
    by_cases hr : r = h.next
    · subst hr
      have hzero := hc.count h.next
      rw [hc.fresh h.next (Nat.le_refl _)] at hzero
      rw [newRef_refs_next, show (owners objects h.next).card = 0 from hzero]
      exact hagrees
    · rw [newRef_refs_of_ne h hr]
      exact hc.count r

/-- A new block with its first owner. -/
theorem Counted.new (hc : Counted agrees h objects) (hx : objects x = none) {p : Nat} {del : D}
    (hagrees : agrees { ncount := if p ≠ 0 then 1 else 0, data := p, deleter := del } 1) :
    Counted agrees (h.newRef p del) (Function.update objects x (some h.next)) where
  fresh := by
    intro r hr
    have hlt := Nat.lt_of_succ_le hr
    rw [newRef_refs_of_ne h (Nat.ne_of_gt hlt)]
    exact hc.fresh r (Nat.le_of_lt hlt)
  count := by
    intro r
    have hne : objects x ≠ some r := by
      rw [hx]
      exact (Option.some_ne_none r).symm
    by_cases hr : r = h.next
    · subst hr
      have hzero := hc.count h.next
      rw [hc.fresh h.next (Nat.le_refl _)] at hzero
      rw [newRef_refs_next, card_owners_insert hne, show (owners objects h.next).card = 0 from hzero]
      exact hagrees
    · rw [newRef_refs_of_ne h hr, owners_update_other hne fun heq => hr (Option.some.inj heq).symm]
      exact hc.count r

end

end RefHeap

end RebuildTheWheel.TinySTL
