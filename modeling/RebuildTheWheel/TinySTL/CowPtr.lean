import RebuildTheWheel.TinySTL.Ref

namespace RebuildTheWheel.TinySTL

open Data

attribute [local instance] neZero_addresses

/-- The live objects of `cow_ptr`, with the members `ref_` of their `shared_ptr`, and the
objects of the element type by their addresses. -/
structure CowPtr (T : Type) where
  heap : RefHeap Unit
  ptrs : Address → Option Nat
  values : Nat → Option T
  nextValue : Nat

namespace CowPtr

variable {T : Type}

def init : CowPtr T where
  heap := .init
  ptrs := fun _ => none
  values := fun _ => none
  nextValue := 1

/-- `new T(val)`, at the address `nextValue`. -/
def newValue (s : CowPtr T) (val : T) : CowPtr T :=
  { s with values := Function.update s.values s.nextValue (some val), nextValue := s.nextValue + 1 }

/-- `cow_ptr(new T(val))`, and `make_cow`. -/
def create (s : CowPtr T) (x : Address) (val : T) : CowPtr T :=
  { s.newValue val with
    heap := s.heap.newRef s.nextValue ()
    ptrs := Function.update s.ptrs x (some s.heap.next) }

/-- `shared_ptr::operator=` on the member `ptr_`, from another object that holds `r`. -/
def assignPtr (s : CowPtr T) (x : Address) (r : Nat) : Option (CowPtr T) := do
  let old ← s.ptrs x
  let heap ← s.heap.decreaseRef old
  let heap ← heap.copyRef r
  return { s with heap := heap, ptrs := Function.update s.ptrs x (some r) }

/-- The copy constructor: `ptr_` is null before it is assigned. -/
def copyConstruct (s : CowPtr T) (x cp : Address) : Option (CowPtr T) := do
  let r ← s.ptrs cp
  let s := { s with
    heap := s.heap.newRef 0 ()
    ptrs := Function.update s.ptrs x (some s.heap.next) }
  s.assignPtr x r

def assign (s : CowPtr T) (x cp : Address) : Option (CowPtr T) :=
  if x ≠ cp then do
    let old ← s.ptrs x
    let heap ← s.heap.decreaseRef old
    let r ← s.ptrs cp
    { s with heap := heap }.assignPtr x r
  else
    some s

def destroy (s : CowPtr T) (x : Address) : Option (CowPtr T) := do
  let r ← s.ptrs x
  let heap ← s.heap.decreaseRef r
  return { s with heap := heap, ptrs := Function.update s.ptrs x none }

/-- `*(cp_->ptr_)`. -/
def read (s : CowPtr T) (x : Address) : Option T := do
  let r ← s.ptrs x
  let p ← s.heap.getData r
  s.values p

def useCount (s : CowPtr T) (x : Address) : Option (BitVec 64) := (s.ptrs x).bind s.heap.count

/-- `proxy::operator=`: the temporary of `make_shared` is destroyed after the assignment. -/
def proxyAssign (s : CowPtr T) (x : Address) (val : T) : Option (CowPtr T) := do
  let r := s.heap.next
  let s := { s.newValue val with heap := s.heap.newRef s.nextValue () }
  let s ← s.assignPtr x r
  let heap ← s.heap.decreaseRef r
  return { s with heap := heap }

/-- `proxy::operator*` and `proxy::operator->`, and what the caller then does with the object
through the reference. -/
def proxyDeref (s : CowPtr T) (x : Address) (f : T → T) : Option (CowPtr T) := do
  let t ← s.read x
  let s ← s.proxyAssign x t
  let r ← s.ptrs x
  let p ← s.heap.getData r
  let t ← s.values p
  return { s with values := Function.update s.values p (some (f t)) }

inductive Op (T : Type) where
  | create (x : Address) (val : T)
  | copyConstruct (x cp : Address)
  | assign (x cp : Address)
  | proxyAssign (x : Address) (val : T)
  | proxyDeref (x : Address) (f : T → T)
  | destroy (x : Address)

def step (s : CowPtr T) : Op T → Option (CowPtr T)
  | .create x val => some (s.create x val)
  | .copyConstruct x cp => s.copyConstruct x cp
  | .assign x cp => s.assign x cp
  | .proxyAssign x val => s.proxyAssign x val
  | .proxyDeref x f => s.proxyDeref x f
  | .destroy x => s.destroy x

/-- The objects as independent values. -/
def Op.apply (vals : Address → Option T) : Op T → Address → Option T
  | .create x val => Function.update vals x (some val)
  | .copyConstruct x cp => Function.update vals x (vals cp)
  | .assign x cp => Function.update vals x (vals cp)
  | .proxyAssign x val => Function.update vals x (some val)
  | .proxyDeref x f => Function.update vals x ((vals x).map f)
  | .destroy x => Function.update vals x none

/-- The count of `x` can go down by `n` without reaching 0. -/
def Spares (s : CowPtr T) (x : Address) (n : Nat) : Prop :=
  ∃ c, s.useCount x = some c ∧ n < c.toNat

/-- No other object refers to the object of `x`. -/
def Alone (s : CowPtr T) (x : Address) : Prop := ∀ y, y ≠ x → s.ptrs y ≠ s.ptrs x

/-- Objects are created where none lives. An assignment counts down twice; a write or a
destruction counts down once. -/
def Admits (s : CowPtr T) : Op T → Prop
  | .create x _ => s.ptrs x = none
  | .copyConstruct x cp => s.ptrs x = none ∧ s.ptrs cp ≠ none
  | .assign x cp => s.ptrs x ≠ none ∧ s.ptrs cp ≠ none ∧ (x ≠ cp → s.Spares x 2)
  | .proxyAssign x _ => s.ptrs x ≠ none ∧ (s.Spares x 1 ∨ s.Alone x)
  | .proxyDeref x _ => s.ptrs x ≠ none ∧ (s.Spares x 1 ∨ s.Alone x)
  | .destroy x => s.ptrs x ≠ none ∧ (s.Spares x 1 ∨ s.Alone x)

/-! The invariant: a block that has owners is counted, but perhaps not each of them. -/

def AtMost (t : RefT Unit) (n : Nat) : Prop :=
  t.data = 0 ∧ n = 0 ∨ t.data ≠ 0 ∧ 0 < t.ncount.toNat ∧ t.ncount.toNat ≤ n

structure Holds (s : CowPtr T) (vals : Address → Option T) : Prop where
  counted : s.heap.Counted AtMost s.ptrs
  pos : 0 < s.nextValue
  bound : ∀ r p, s.heap.getData r = some p → p < s.nextValue
  value : ∀ p, 0 < p → p < s.nextValue → s.values p ≠ none
  read : ∀ x, s.read x = vals x

theorem init_holds : (init : CowPtr T).Holds fun _ => none where
  counted := RefHeap.counted_init AtMost
  pos := Nat.one_pos
  bound := fun _ _ hr => nomatch hr
  value := fun _ hp hlt => absurd (Nat.lt_of_lt_of_le hp (Nat.le_of_lt_succ hlt)) (Nat.lt_irrefl 0)
  read := fun _ => rfl

section

variable {s : CowPtr T} {vals : Address → Option T} {x : Address} {r : Nat}

theorem Holds.block (h : s.Holds vals) (hx : s.ptrs x = some r) :
    ∃ t, s.heap.refs r = some t ∧ t.data ≠ 0 ∧ 0 < t.ncount.toNat ∧
      t.ncount.toNat ≤ (owners s.ptrs r).card := by
  obtain ⟨t, ht⟩ := h.counted.live hx
  rcases h.counted.of_refs ht with ⟨-, hzero⟩ | hcounted
  · exact absurd hzero (Nat.ne_of_gt (card_owners_pos hx))
  · exact ⟨t, ht, hcounted⟩

/-- One object changes, and the blocks of the others keep their pointers. -/
theorem Holds.update (h : s.Holds vals) {heap : RefHeap Unit} {w : Option Nat} {v : Option T}
    (hcounted : heap.Counted AtMost (Function.update s.ptrs x w))
    (hbound : ∀ r p, heap.getData r = some p → p < s.nextValue)
    (hother : ∀ y r, y ≠ x → s.ptrs y = some r → heap.getData r = s.heap.getData r)
    (hv : (w.bind fun r => (heap.getData r).bind s.values) = v) :
    Holds { s with heap := heap, ptrs := Function.update s.ptrs x w }
      (Function.update vals x v) where
  counted := hcounted
  pos := h.pos
  bound := hbound
  value := h.value
  read := by
    intro y
    rw [CowPtr.read]
    by_cases hy : y = x
    · subst hy
      simp only [Function.update_self]
      exact hv
    · simp only [Function.update_of_ne hy]
      rw [← h.read y, CowPtr.read]
      cases hptr : s.ptrs y with
      | none => rfl
      | some r =>
          simp only [Option.bind_eq_bind, Option.bind_some]
          rw [hother y r hy hptr]

theorem Holds.newValue (h : s.Holds vals) (val : T) : (s.newValue val).Holds vals where
  counted := h.counted
  pos := Nat.succ_pos _
  bound := fun r p hr => Nat.lt_succ_of_lt (h.bound r p hr)
  value := by
    intro p hp hlt
    rw [CowPtr.newValue]
    by_cases hnew : p = s.nextValue
    · subst hnew
      simp
    · simp only [Function.update_of_ne hnew]
      exact h.value p hp (Nat.lt_of_le_of_ne (Nat.le_of_lt_succ hlt) hnew)
  read := by
    intro y
    rw [← h.read y, CowPtr.read, CowPtr.read]
    change (s.ptrs y).bind _ = (s.ptrs y).bind _
    congr 1
    funext r
    change (s.heap.getData r).bind _ = (s.heap.getData r).bind _
    cases hdata : s.heap.getData r with
    | none => rfl
    | some p => exact Function.update_of_ne (Nat.ne_of_lt (h.bound r p hdata)) _ _

theorem getData_newRef_next (heap : RefHeap Unit) (p : Nat) :
    (heap.newRef p ()).getData heap.next = some p := by
  rw [RefHeap.getData, RefHeap.newRef_refs_next]
  rfl

theorem getData_newRef_of_ne (heap : RefHeap Unit) (p : Nat) (hr : r ≠ heap.next) :
    (heap.newRef p ()).getData r = heap.getData r := by
  rw [RefHeap.getData, RefHeap.newRef_refs_of_ne _ hr]
  rfl

theorem Holds.create (h : s.Holds vals) (hx : s.ptrs x = none) (val : T) :
    (s.create x val).Holds (Function.update vals x (some val)) := by
  have hnew := h.newValue val
  have hatMost : AtMost ⟨if s.nextValue ≠ 0 then 1 else 0, s.nextValue, ()⟩ 1 := by
    rw [if_pos (Nat.ne_of_gt h.pos)]
    exact .inr ⟨Nat.ne_of_gt h.pos, Nat.one_pos, Nat.le_refl 1⟩
  refine hnew.update (h.counted.new hx hatMost) ?_ ?_ ?_
  · intro r p hr
    by_cases hnext : r = s.heap.next
    · rw [hnext, getData_newRef_next] at hr
      rw [← Option.some.inj hr]
      exact Nat.lt_succ_self _
    · rw [getData_newRef_of_ne _ _ hnext] at hr
      exact Nat.lt_succ_of_lt (h.bound r p hr)
  · intro y r _ hy
    obtain ⟨t, ht⟩ := h.counted.live hy
    exact getData_newRef_of_ne _ _ (Nat.ne_of_lt (h.counted.lt_next ht))
  · rw [Option.bind_some, getData_newRef_next, Option.bind_some]
    exact Function.update_self ..

theorem Spares.block {n : Nat} (hspares : s.Spares x n) {t : RefT Unit} (hx : s.ptrs x = some r)
    (ht : s.heap.refs r = some t) : n < t.ncount.toNat := by
  obtain ⟨c, hc, hlt⟩ := hspares
  rw [useCount, hx, Option.bind_some, RefHeap.count, ht] at hc
  obtain rfl := Option.some.inj hc
  exact hlt

theorem Alone.card (halone : s.Alone x) (hx : s.ptrs x = some r) :
    (owners s.ptrs r).card ≤ 1 := by
  by_contra hlt
  obtain ⟨y, hne, hy⟩ := (one_lt_card_owners_iff hx).mp (Nat.lt_of_not_le hlt)
  exact halone y hne (hy.trans hx.symm)

/-- One owner less, with a count that stays positive or an object that nobody else reads. -/
theorem Holds.release (h : s.Holds vals) (hx : s.ptrs x ≠ none)
    (hkeeps : s.Spares x 1 ∨ s.Alone x) :
    ∃ r t heap, s.ptrs x = some r ∧ s.heap.refs r = some t ∧ s.heap.decreaseRef r = some heap ∧
      heap.next = s.heap.next ∧
      Holds { s with heap := heap, ptrs := Function.update s.ptrs x none }
        (Function.update vals x none) := by
  obtain ⟨r, hr⟩ := Option.ne_none_iff_exists'.mp hx
  obtain ⟨t, ht, hdata, hpos, hle⟩ := h.block hr
  by_cases hone : t.ncount = 1
  · have halone : s.Alone x := by
      refine hkeeps.resolve_left fun hspares => ?_
      have hlt := hspares.block hr ht
      rw [hone] at hlt
      exact absurd hlt (by decide)
    have hzero : (owners s.ptrs r).card - 1 = 0 := Nat.sub_eq_zero_of_le (halone.card hr)
    refine ⟨r, t, _, hr, ht, RefHeap.decreaseRef_last ht hdata hone, rfl, ?_⟩
    have hdataNone : ∀ r' ≠ r, (s.heap.set r none).getData r' = s.heap.getData r' := by
      intro r' hr'
      rw [RefHeap.getData, RefHeap.set_refs_of_ne _ hr']
      rfl
    refine h.update (h.counted.erase hr hzero) ?_ ?_ rfl
    · intro r' p hp
      by_cases hr' : r' = r
      · rw [hr', RefHeap.getData, RefHeap.set_refs_self] at hp
        cases hp
      · rw [hdataNone r' hr'] at hp
        exact h.bound r' p hp
    · intro y r' hne hy
      refine hdataNone r' ?_
      rintro rfl
      exact halone y hne (hy.trans hr.symm)
  · have hlt : 1 < t.ncount.toNat := by
      have hne : t.ncount.toNat ≠ 1 := fun heq => hone (BitVec.eq_of_toNat_eq heq)
      omega
    have hsub : (t.ncount - 1).toNat = t.ncount.toNat - 1 := by
      apply BitVec.toNat_sub_of_le
      rw [BitVec.le_def]
      exact Nat.le_of_lt hlt
    have hatMost : AtMost { t with ncount := t.ncount - 1 } ((owners s.ptrs r).card - 1) := by
      refine .inr ⟨hdata, ?_, ?_⟩ <;> rw [hsub] <;> omega
    have hsame := RefHeap.getData_set ht (t.ncount - 1)
    refine ⟨r, t, _, hr, ht, RefHeap.decreaseRef_shared ht hdata hone, rfl, ?_⟩
    refine h.update (h.counted.erase hr hatMost) ?_ ?_ rfl
    · simp only [hsame]
      exact h.bound
    · intro y r' _ _
      rw [hsame]

/-- The first write to an object that another one shares gives it an object of its own. -/
theorem Holds.proxyAssign (h : s.Holds vals) (hx : s.ptrs x ≠ none)
    (hkeeps : s.Spares x 1 ∨ s.Alone x) (val : T) :
    ∃ s₀ : CowPtr T, s₀.ptrs x = none ∧ s₀.nextValue = s.nextValue ∧
      s.proxyAssign x val = some (s₀.create x val) ∧ s₀.Holds (Function.update vals x none) := by
  obtain ⟨r, t, heap, hr, ht, hrun, hnext, hreleased⟩ := h.release hx hkeeps
  refine ⟨{ s with heap := heap, ptrs := Function.update s.ptrs x none },
    Function.update_self .., rfl, ?_, hreleased⟩
  have hne := Nat.ne_of_lt (h.counted.lt_next ht)
  have hblock : (heap.newRef s.nextValue ()).refs s.heap.next = some ⟨1, s.nextValue, ()⟩ := by
    rw [← hnext, RefHeap.newRef_refs_next, if_pos (Nat.ne_of_gt h.pos)]
  have hback := RefHeap.copyRef_decreaseRef hblock (Nat.ne_of_gt h.pos)
    (show (1 : BitVec 64) ≠ 0 by decide)
  rw [RefHeap.copyRef_eq hblock, Option.bind_some] at hback
  simp only [CowPtr.proxyAssign, assignPtr, CowPtr.newValue, hr, Option.bind_eq_bind,
    Option.bind_some, RefHeap.decreaseRef_newRef hne _ _ hrun, RefHeap.copyRef_eq hblock,
    Option.pure_def, hback]
  simp [CowPtr.create, CowPtr.newValue, hnext]

theorem Holds.proxyDeref (h : s.Holds vals) (hx : s.ptrs x ≠ none)
    (hkeeps : s.Spares x 1 ∨ s.Alone x) (f : T → T) :
    ∃ s', s.proxyDeref x f = some s' ∧
      s'.Holds (Function.update vals x ((vals x).map f)) := by
  obtain ⟨val, hval⟩ : ∃ val, vals x = some val := by
    obtain ⟨r, hr⟩ := Option.ne_none_iff_exists'.mp hx
    obtain ⟨t, ht, hdata, -⟩ := h.block hr
    have hp : s.heap.getData r = some t.data := by
      rw [RefHeap.getData, ht]
      rfl
    have hvalue := h.value t.data (Nat.pos_of_ne_zero hdata) (h.bound r _ hp)
    obtain ⟨val, hval⟩ := Option.ne_none_iff_exists'.mp hvalue
    refine ⟨val, ?_⟩
    rw [← h.read x, CowPtr.read, hr]
    simp only [Option.bind_eq_bind, Option.bind_some, hp]
    exact hval
  obtain ⟨s₀, hnone, hnext, hrun, hholds⟩ := h.proxyAssign hx hkeeps val
  refine ⟨s₀.create x (f val), ?_, ?_⟩
  · have hread : s.read x = some val := (h.read x).trans hval
    have hptr : (s₀.create x val).ptrs x = some s₀.heap.next := Function.update_self ..
    have hdata : (s₀.create x val).heap.getData s₀.heap.next = some s₀.nextValue :=
      getData_newRef_next ..
    have hvalue : (s₀.create x val).values s₀.nextValue = some val := Function.update_self ..
    rw [CowPtr.proxyDeref]
    simp only [hread, hrun, hptr, hdata, hvalue, Option.bind_eq_bind, Option.bind_some]
    simp [CowPtr.create, CowPtr.newValue]
  · have hcreate := hholds.create hnone (f val)
    rwa [Function.update_idem, ← Option.map_some, ← hval] at hcreate

/-- One owner more for the object of another one. -/
theorem Holds.adopt (h : s.Holds vals) {cp : Address} (hx : s.ptrs x = none)
    (hr : s.ptrs cp = some r) :
    ∃ heap, s.heap.copyRef r = some heap ∧
      Holds { s with heap := heap, ptrs := Function.update s.ptrs x (some r) }
        (Function.update vals x (vals cp)) := by
  obtain ⟨t, ht, hdata, hpos, hle⟩ := h.block hr
  have hne : s.ptrs x ≠ some r := by
    rw [hx]
    exact (Option.some_ne_none r).symm
  have hcard := (Finset.card_le_univ (owners (Function.update s.ptrs x (some r)) r)).trans_lt
    card_address_lt
  rw [card_owners_insert hne] at hcard
  have hadd : (t.ncount + 1).toNat = t.ncount.toNat + 1 := by
    rw [BitVec.toNat_add]
    exact Nat.mod_eq_of_lt (Nat.lt_of_le_of_lt (Nat.succ_le_succ hle) hcard)
  have hatMost : AtMost { t with ncount := t.ncount + 1 } ((owners s.ptrs r).card + 1) := by
    refine .inr ⟨hdata, ?_, ?_⟩ <;> rw [hadd] <;> omega
  have hsame := RefHeap.getData_set ht (t.ncount + 1)
  refine ⟨_, RefHeap.copyRef_eq ht, h.update (h.counted.insert hx ht hatMost) ?_ ?_ ?_⟩
  · simp only [hsame]
    exact h.bound
  · intro y r' _ _
    rw [hsame]
  · rw [← h.read cp, CowPtr.read, hr, hsame]
    rfl

/-- The null block that the copy constructor leaves behind has no owner. -/
theorem Holds.leak (h : s.Holds vals) : Holds { s with heap := s.heap.newRef 0 () } vals where
  counted := h.counted.leak (.inl ⟨rfl, rfl⟩)
  pos := h.pos
  bound := by
    intro r p hr
    by_cases hnext : r = s.heap.next
    · rw [hnext, getData_newRef_next] at hr
      rw [← Option.some.inj hr]
      exact h.pos
    · rw [getData_newRef_of_ne _ _ hnext] at hr
      exact h.bound r p hr
  value := h.value
  read := by
    intro y
    rw [← h.read y, CowPtr.read, CowPtr.read]
    cases hptr : s.ptrs y with
    | none => rfl
    | some r =>
        obtain ⟨t, ht⟩ := h.counted.live hptr
        have hne := Nat.ne_of_lt (h.counted.lt_next ht)
        simp only [Option.bind_eq_bind, Option.bind_some, getData_newRef_of_ne _ _ hne]

theorem Holds.copyConstruct (h : s.Holds vals) {cp : Address} (hx : s.ptrs x = none)
    (hcp : s.ptrs cp ≠ none) :
    ∃ s', s.copyConstruct x cp = some s' ∧ s'.Holds (Function.update vals x (vals cp)) := by
  obtain ⟨r, hr⟩ := Option.ne_none_iff_exists'.mp hcp
  have hleak := h.leak
  obtain ⟨heap, hrun, hholds⟩ := hleak.adopt hx hr
  refine ⟨_, ?_, hholds⟩
  have hnull : (s.heap.newRef 0 ()).decreaseRef s.heap.next = some (s.heap.newRef 0 ()) :=
    RefHeap.decreaseRef_null (RefHeap.newRef_refs_next ..) rfl
  have hcopy : (s.heap.newRef 0 ()).copyRef r = some heap := hrun
  simp [CowPtr.copyConstruct, hr, assignPtr, hnull, hcopy]

/-- The count goes down twice, by more than the owners of the block. -/
theorem Holds.assign (h : s.Holds vals) {cp : Address} (hx : s.ptrs x ≠ none)
    (hcp : s.ptrs cp ≠ none) (hspares : x ≠ cp → s.Spares x 2) :
    ∃ s', s.assign x cp = some s' ∧ s'.Holds (Function.update vals x (vals cp)) := by
  by_cases hself : x = cp
  · subst hself
    refine ⟨s, if_neg (not_not.mpr rfl), ?_⟩
    rw [Function.update_eq_self]
    exact h
  · obtain ⟨old, hold⟩ := Option.ne_none_iff_exists'.mp hx
    obtain ⟨r, hr⟩ := Option.ne_none_iff_exists'.mp hcp
    obtain ⟨t, ht, hdata, hpos, hle⟩ := h.block hold
    have hlt := (hspares hself).block hold ht
    have hne : t.ncount ≠ 1 := by bv_omega
    have hne' : t.ncount - 1 ≠ 1 := by bv_omega
    have hsub : (t.ncount - 1 - 1).toNat = t.ncount.toNat - 2 := by bv_omega
    have hatMost : AtMost { t with ncount := t.ncount - 1 - 1 } ((owners s.ptrs old).card - 1) := by
      refine .inr ⟨hdata, ?_, ?_⟩ <;> rw [hsub] <;> omega
    have hsame := RefHeap.getData_set ht (t.ncount - 1 - 1)
    have hcounted : (s.heap.set old (some { t with ncount := t.ncount - 1 - 1 })).Counted AtMost
        (Function.update s.ptrs x none) := h.counted.erase hold hatMost
    have hbound : ∀ r p, (s.heap.set old (some { t with ncount := t.ncount - 1 - 1 })).getData r =
        some p → p < s.nextValue := by
      rw [hsame]
      exact h.bound
    have hreleased := h.update hcounted hbound (fun _ _ _ _ => by rw [hsame]) rfl
    have hr' : Function.update s.ptrs x none cp = some r := by
      rwa [Function.update_of_ne (Ne.symm hself)]
    obtain ⟨heap, hcopy, hholds⟩ := hreleased.adopt (Function.update_self ..) hr'
    simp only [Function.update_idem, Function.update_of_ne (Ne.symm hself)] at hholds
    refine ⟨{ s with heap := heap, ptrs := Function.update s.ptrs x (some r) }, ?_, hholds⟩
    have hset := RefHeap.set_refs_self s.heap old (some { t with ncount := t.ncount - 1 })
    have hagain := RefHeap.decreaseRef_shared hset hdata hne'
    simp only [RefHeap.set_set] at hagain
    simp only at hcopy
    simp only [CowPtr.assign, hself, hold, hr, assignPtr, RefHeap.decreaseRef_shared ht hdata hne,
      hagain, hcopy, ne_eq, not_false_eq_true, if_true, Option.bind_eq_bind, Option.bind_some,
      Option.pure_def]

end

theorem step_holds {s : CowPtr T} {vals : Address → Option T} (h : s.Holds vals) (op : Op T)
    (hop : s.Admits op) : ∃ s', s.step op = some s' ∧ s'.Holds (op.apply vals) := by
  cases op with
  | create x val => exact ⟨_, rfl, h.create hop val⟩
  | copyConstruct x cp => exact h.copyConstruct hop.1 hop.2
  | assign x cp => exact h.assign hop.1 hop.2.1 hop.2.2
  | proxyAssign x val =>
      obtain ⟨s₀, hnone, -, hrun, hholds⟩ := h.proxyAssign hop.1 hop.2 val
      have hcreate := hholds.create hnone val
      rw [Function.update_idem] at hcreate
      exact ⟨_, hrun, hcreate⟩
  | proxyDeref x f => exact h.proxyDeref hop.1 hop.2 f
  | destroy x =>
      obtain ⟨r, t, heap, hr, -, hrun, -, hholds⟩ := h.release hop.1 hop.2
      refine ⟨_, ?_, hholds⟩
      rw [step, destroy, hr, Option.bind_eq_bind, Option.bind_some, hrun]
      rfl

/-! What a client sees: independent values, and no object that is released too early. -/

structure Shows (s : CowPtr T) (vals : Address → Option T) : Prop where
  read : ∀ x, s.read x = vals x
  held : ∀ x, s.ptrs x ≠ none → ∃ n, s.useCount x = some n ∧ n ≠ 0

theorem Holds.shows {s : CowPtr T} {vals : Address → Option T} (h : s.Holds vals) :
    s.Shows vals where
  read := h.read
  held := by
    intro x hx
    obtain ⟨r, hr⟩ := Option.ne_none_iff_exists'.mp hx
    obtain ⟨t, ht, -, hpos, -⟩ := h.block hr
    refine ⟨t.ncount, ?_, ?_⟩
    · rw [useCount, hr, Option.bind_some, RefHeap.count, ht]
      rfl
    · rintro hzero
      rw [hzero] at hpos
      exact absurd hpos (by decide)

/-- Runs whose steps keep the counts positive show independent values. -/
theorem cow_ptr_run (ops : List (Op T)) (hops : Run.Guarded step Admits init ops) :
    ∃ s, ops.foldlM step (init : CowPtr T) = some s ∧
      s.Shows (ops.foldl Op.apply fun _ => none) := by
  obtain ⟨s, hrun, hholds⟩ := Run.simulates_of_guarded Holds
    (fun _ _ op h hop => step_holds h op hop) ops init_holds hops
  exact ⟨s, hrun, hholds.shows⟩

theorem cow_ptr_run_write : ∃ s,
    [Op.create ⟨1, by decide⟩ 10, .copyConstruct ⟨2, by decide⟩ ⟨1, by decide⟩,
      .proxyAssign ⟨2, by decide⟩ 20].foldlM step (init : CowPtr Nat) = some s ∧
    s.Shows ([Op.create ⟨1, by decide⟩ 10, .copyConstruct ⟨2, by decide⟩ ⟨1, by decide⟩,
      .proxyAssign ⟨2, by decide⟩ 20].foldl Op.apply fun _ => none) := by
  apply cow_ptr_run
  refine ⟨rfl, fun s hs => ?_⟩
  obtain rfl := Option.some.inj hs
  refine ⟨⟨rfl, fun hnone => nomatch hnone⟩, fun s hs => ?_⟩
  obtain rfl := Option.some.inj hs
  exact ⟨⟨(fun hnone => nomatch hnone), .inl ⟨2, rfl, by decide⟩⟩, fun _ _ => trivial⟩

/-- Two objects share a value, and one of them is assigned to. -/
def assignShared : List (Op Nat) :=
  [.create ⟨1, by decide⟩ 10, .copyConstruct ⟨2, by decide⟩ ⟨1, by decide⟩,
    .create ⟨3, by decide⟩ 30, .assign ⟨1, by decide⟩ ⟨3, by decide⟩]

/-- The block of the other one is deleted. -/
theorem assign_releases_shared : ¬∃ s, assignShared.foldlM step init = some s ∧
    s.Shows (assignShared.foldl Op.apply fun _ => none) := by
  rintro ⟨s, hrun, hshows⟩
  have hblock : (assignShared.foldlM step init).map
      (fun s => (s.ptrs ⟨2, by decide⟩, s.useCount ⟨2, by decide⟩)) = some (some 0, none) := by
    decide
  rw [hrun] at hblock
  obtain ⟨hptr, hcount⟩ := Prod.mk.inj (Option.some.inj hblock)
  obtain ⟨n, hn, -⟩ := hshows.held ⟨2, by decide⟩ (by rw [hptr]; exact Option.some_ne_none 0)
  rw [hcount] at hn
  cases hn

end CowPtr

end RebuildTheWheel.TinySTL
