import RebuildTheWheel.TinySTL.Ref

namespace RebuildTheWheel.TinySTL

open Data

/-- The live objects of `shared_ptr`, with their members `ref_`. -/
structure SharedPtr (D : Type) where
  heap : RefHeap D
  objects : Address → Option Nat

namespace SharedPtr

variable {D : Type}

def init : SharedPtr D where
  heap := .init
  objects := fun _ => none

def construct (s : SharedPtr D) (x : Address) (p : Nat) (del : D) : SharedPtr D where
  heap := s.heap.newRef p del
  objects := Function.update s.objects x (some s.heap.next)

def copyConstruct (s : SharedPtr D) (x sp : Address) : Option (SharedPtr D) := do
  let r ← s.objects sp
  let heap ← s.heap.copyRef r
  return { heap := heap, objects := Function.update s.objects x (some r) }

def assign (s : SharedPtr D) (x sp : Address) : Option (SharedPtr D) :=
  if x ≠ sp then do
    let old ← s.objects x
    let heap ← s.heap.decreaseRef old
    let r ← s.objects sp
    let heap ← heap.copyRef r
    return { heap := heap, objects := Function.update s.objects x (some r) }
  else
    some s

def destroy (s : SharedPtr D) (x : Address) : Option (SharedPtr D) := do
  let r ← s.objects x
  let heap ← s.heap.decreaseRef r
  return { heap := heap, objects := Function.update s.objects x none }

def get (s : SharedPtr D) (x : Address) : Option Nat := (s.objects x).bind s.heap.getData

def useCount (s : SharedPtr D) (x : Address) : Option (BitVec 64) :=
  (s.objects x).bind s.heap.count

inductive Op (D : Type) where
  | construct (x : Address) (p : Nat) (del : D)
  | copyConstruct (x sp : Address)
  | assign (x sp : Address)
  | destroy (x : Address)

def step (s : SharedPtr D) : Op D → Option (SharedPtr D)
  | .construct x p del => some (s.construct x p del)
  | .copyConstruct x sp => s.copyConstruct x sp
  | .assign x sp => s.assign x sp
  | .destroy x => s.destroy x

/-- What the objects are for: the pointer that each live object owns, and the pointers that
were handed over, each with its deleter. -/
structure Ownership (D : Type) where
  owner : Address → Option Nat
  made : List (D × Nat)

namespace Ownership

def init : Ownership D where
  owner := fun _ => none
  made := []

def apply (a : Ownership D) : Op D → Ownership D
  | .construct x p del =>
      { owner := Function.update a.owner x (some p), made := (del, p) :: a.made }
  | .copyConstruct x sp => { a with owner := Function.update a.owner x (a.owner sp) }
  | .assign x sp => { a with owner := Function.update a.owner x (a.owner sp) }
  | .destroy x => { a with owner := Function.update a.owner x none }

def Shared (a : Ownership D) (x : Address) : Prop := ∃ y, y ≠ x ∧ a.owner y = a.owner x

/-- Objects are constructed where none lives, from new pointers, and no step takes the last
owner away from a pointer. -/
def Admits (a : Ownership D) : Op D → Prop
  | .construct x p _ => a.owner x = none ∧ p ≠ 0 ∧ ∀ m ∈ a.made, m.2 ≠ p
  | .copyConstruct x sp => a.owner x = none ∧ a.owner sp ≠ none
  | .assign x sp => a.owner x ≠ none ∧ a.owner sp ≠ none ∧ (x ≠ sp → a.Shared x)
  | .destroy x => a.owner x ≠ none ∧ a.Shared x

end Ownership

/-! The invariant: exact counts, and one block for each pointer that was handed over. -/

def Exact (t : RefT D) (n : Nat) : Prop := t.data ≠ 0 ∧ 0 < n ∧ t.ncount.toNat = n

structure Holds (s : SharedPtr D) (a : Ownership D) : Prop where
  counted : s.heap.Counted Exact s.objects
  get : ∀ x, s.get x = a.owner x
  distinct : ∀ r r' p, s.heap.getData r = some p → s.heap.getData r' = some p → r = r'
  data : ∀ r p, s.heap.getData r = some p → ∃ m ∈ a.made, m.2 = p
  made : ∀ m ∈ a.made, ∃ r, s.heap.getData r = some m.2
  deleted : s.heap.deleted = []

section

variable {s : SharedPtr D} {a : Ownership D} {x : Address} {r : Nat} {t : RefT D}

theorem init_holds : (init : SharedPtr D).Holds .init where
  counted := RefHeap.counted_init Exact
  get := fun _ => rfl
  distinct := fun _ _ _ hr => nomatch hr
  data := fun _ _ hr => nomatch hr
  made := fun _ hm => nomatch hm
  deleted := rfl

/-- The data of a block does not depend on its count. -/
theorem get_of_getData {s' : SharedPtr D} (hdata : s'.heap.getData = s.heap.getData) (x : Address) :
    s'.get x = (s'.objects x).bind s.heap.getData := by
  rw [get, hdata]

theorem Holds.objects_none (h : s.Holds a) (hx : a.owner x = none) : s.objects x = none := by
  cases hobj : s.objects x with
  | none => rfl
  | some r =>
      obtain ⟨t, ht⟩ := h.counted.live hobj
      have hget := h.get x
      rw [hx, SharedPtr.get, hobj, Option.bind_some, RefHeap.getData, ht] at hget
      cases hget

theorem Holds.objects_some (h : s.Holds a) (hx : a.owner x ≠ none) :
    ∃ r t, s.objects x = some r ∧ s.heap.refs r = some t ∧ a.owner x = some t.data := by
  cases hobj : s.objects x with
  | none =>
      rw [← h.get x, SharedPtr.get, hobj] at hx
      exact absurd rfl hx
  | some r =>
      obtain ⟨t, ht⟩ := h.counted.live hobj
      refine ⟨r, t, rfl, ht, ?_⟩
      rw [← h.get x, SharedPtr.get, hobj, Option.bind_some, RefHeap.getData, ht]
      rfl

/-- Objects with the same pointer share its block. -/
theorem Holds.owners_eq (h : s.Holds a) (ht : s.heap.refs r = some t) :
    owners a.owner t.data = owners s.objects r := by
  ext y
  rw [mem_owners, mem_owners, ← h.get y, SharedPtr.get]
  have hdata : s.heap.getData r = some t.data := by
    rw [RefHeap.getData, ht]
    rfl
  constructor
  · intro hy
    obtain ⟨r', hr', hdata'⟩ := Option.bind_eq_some_iff.mp hy
    rw [hr', h.distinct r' r _ hdata' hdata]
  · intro hy
    rw [hy, Option.bind_some, hdata]

theorem Holds.shared (h : s.Holds a) (hx : s.objects x = some r) (ht : s.heap.refs r = some t)
    (hshared : a.Shared x) : 1 < (owners s.objects r).card := by
  obtain ⟨y, hne, hy⟩ := hshared
  have hown : a.owner x = some t.data := by
    rw [← h.get x, SharedPtr.get, hx, Option.bind_some, RefHeap.getData, ht]
    rfl
  rw [← h.owners_eq ht]
  exact (one_lt_card_owners_iff hown).mpr ⟨y, hne, hy.trans hown⟩

/-- A step that changes one count and one object keeps everything but the owner. -/
theorem Holds.recount (h : s.Holds a) (ht : s.heap.refs r = some t) {n : BitVec 64}
    {v : Option Nat} {p : Option Nat} (hv : v.bind s.heap.getData = p)
    (hcounted : (s.heap.set r (some { t with ncount := n })).Counted Exact
      (Function.update s.objects x v)) :
    Holds { heap := s.heap.set r (some { t with ncount := n })
            objects := Function.update s.objects x v }
      { a with owner := Function.update a.owner x p } := by
  have hdata := RefHeap.getData_set ht n
  refine ⟨hcounted, ?_, ?_, ?_, ?_, h.deleted⟩
  · intro y
    rw [get_of_getData hdata]
    by_cases hy : y = x
    · subst hy
      simp only [Function.update_self]
      exact hv
    · simp only [Function.update_of_ne hy]
      exact h.get y
  · simp only [hdata]
    exact h.distinct
  · simp only [hdata]
    exact h.data
  · simp only [hdata]
    exact h.made

theorem Holds.construct (h : s.Holds a) (hx : a.owner x = none) {p : Nat} (hp : p ≠ 0) (del : D)
    (hfresh : ∀ m ∈ a.made, m.2 ≠ p) :
    (s.construct x p del).Holds (a.apply (.construct x p del)) := by
  have hobj := h.objects_none hx
  have hnext : (s.heap.newRef p del).getData s.heap.next = some p := by
    rw [RefHeap.getData, RefHeap.newRef_refs_next]
    rfl
  have hother : ∀ r ≠ s.heap.next, (s.heap.newRef p del).getData r = s.heap.getData r := by
    intro r hr
    rw [RefHeap.getData, RefHeap.newRef_refs_of_ne _ hr]
    rfl
  have hold : ∀ {r q}, s.heap.getData r = some q → r ≠ s.heap.next := by
    rintro r q hr rfl
    rw [RefHeap.getData, h.counted.fresh _ (Nat.le_refl _)] at hr
    cases hr
  refine ⟨?_, ?_, ?_, ?_, ?_, h.deleted⟩
  · apply h.counted.new hobj
    refine ⟨hp, Nat.one_pos, ?_⟩
    rw [if_pos hp]
    rfl
  · intro y
    rw [SharedPtr.get, SharedPtr.construct, Ownership.apply]
    by_cases hy : y = x
    · subst hy
      simp only [Function.update_self]
      exact hnext
    · simp only [Function.update_of_ne hy]
      rw [← h.get y, SharedPtr.get]
      cases hobj' : s.objects y with
      | none => rfl
      | some r =>
          obtain ⟨t, ht⟩ := h.counted.live hobj'
          exact hother r (Nat.ne_of_lt (h.counted.lt_next ht))
  · intro r r' q hr hr'
    by_cases hrn : r = s.heap.next <;> by_cases hrn' : r' = s.heap.next
    · exact hrn.trans hrn'.symm
    · rw [SharedPtr.construct, hrn, hnext] at hr
      rw [SharedPtr.construct, hother r' hrn'] at hr'
      obtain rfl := Option.some.inj hr
      obtain ⟨m, hm, heq⟩ := h.data r' _ hr'
      exact absurd heq (hfresh m hm)
    · rw [SharedPtr.construct, hrn', hnext] at hr'
      rw [SharedPtr.construct, hother r hrn] at hr
      obtain rfl := Option.some.inj hr'
      obtain ⟨m, hm, heq⟩ := h.data r _ hr
      exact absurd heq (hfresh m hm)
    · rw [SharedPtr.construct, hother r hrn] at hr
      rw [SharedPtr.construct, hother r' hrn'] at hr'
      exact h.distinct r r' q hr hr'
  · intro r q hr
    by_cases hrn : r = s.heap.next
    · rw [SharedPtr.construct, hrn, hnext] at hr
      exact ⟨(del, p), List.mem_cons_self, Option.some.inj hr⟩
    · rw [SharedPtr.construct, hother r hrn] at hr
      obtain ⟨m, hm, heq⟩ := h.data r q hr
      exact ⟨m, List.mem_cons_of_mem _ hm, heq⟩
  · intro m hm
    rcases List.mem_cons.mp hm with rfl | hm
    · exact ⟨s.heap.next, hnext⟩
    · obtain ⟨r, hr⟩ := h.made m hm
      exact ⟨r, (hother r (hold hr)).trans hr⟩

theorem Holds.copyConstruct (h : s.Holds a) {sp : Address} (hx : a.owner x = none)
    (hsp : a.owner sp ≠ none) :
    ∃ s', s.copyConstruct x sp = some s' ∧ s'.Holds (a.apply (.copyConstruct x sp)) := by
  obtain ⟨r, t, hobj, ht, hown⟩ := h.objects_some hsp
  obtain ⟨hdata, hpos, hcount⟩ := h.counted.of_refs ht
  have hnone := h.objects_none hx
  have hexact : Exact { t with ncount := t.ncount + 1 } ((owners s.objects r).card + 1) := by
    refine ⟨hdata, Nat.succ_pos _, ?_⟩
    have hne : s.objects x ≠ some r := by
      rw [hnone]
      exact (Option.some_ne_none r).symm
    have hle := (Finset.card_le_univ (owners (Function.update s.objects x (some r)) r)).trans_lt
      card_address_lt
    rw [card_owners_insert hne] at hle
    rw [BitVec.toNat_add, hcount]
    exact Nat.mod_eq_of_lt hle
  refine ⟨_, ?_, h.recount ht (v := some r) ?_ (h.counted.insert hnone ht hexact)⟩
  · rw [SharedPtr.copyConstruct, hobj, Option.bind_eq_bind, Option.bind_some,
      RefHeap.copyRef_eq ht]
    rfl
  · rw [hown, Option.bind_some, RefHeap.getData, ht]
    rfl

/-- The destruction of an object that is not the last owner, and the first half of the
assignment to it. -/
theorem Holds.release (h : s.Holds a) (hx : a.owner x ≠ none) (hshared : a.Shared x) :
    ∃ r heap, s.objects x = some r ∧ s.heap.decreaseRef r = some heap ∧
      Holds { heap := heap, objects := Function.update s.objects x none }
        (a.apply (.destroy x)) := by
  obtain ⟨r, t, hobj, ht, -⟩ := h.objects_some hx
  obtain ⟨hdata, hpos, hcount⟩ := h.counted.of_refs ht
  have hcard := h.shared hobj ht hshared
  have hne : t.ncount ≠ 1 := by
    intro hone
    rw [hone] at hcount
    exact Nat.ne_of_gt hcard hcount.symm
  have hexact : Exact { t with ncount := t.ncount - 1 } ((owners s.objects r).card - 1) := by
    refine ⟨hdata, Nat.sub_pos_of_lt hcard, ?_⟩
    rw [← hcount]
    apply BitVec.toNat_sub_of_le
    rw [BitVec.le_def, hcount]
    exact hpos
  exact ⟨r, _, hobj, RefHeap.decreaseRef_shared ht hdata hne,
    h.recount ht rfl (h.counted.erase hobj hexact)⟩

theorem Holds.destroy (h : s.Holds a) (hx : a.owner x ≠ none) (hshared : a.Shared x) :
    ∃ s', s.destroy x = some s' ∧ s'.Holds (a.apply (.destroy x)) := by
  obtain ⟨r, heap, hobj, hrun, hholds⟩ := h.release hx hshared
  refine ⟨_, ?_, hholds⟩
  rw [SharedPtr.destroy, hobj, Option.bind_eq_bind, Option.bind_some, hrun]
  rfl

/-- An assignment releases the old pointer and then copies the new one. -/
theorem Holds.assign (h : s.Holds a) {sp : Address} (hx : a.owner x ≠ none)
    (hsp : a.owner sp ≠ none) (hshared : x ≠ sp → a.Shared x) :
    ∃ s', s.assign x sp = some s' ∧ s'.Holds (a.apply (.assign x sp)) := by
  by_cases hself : x = sp
  · subst hself
    refine ⟨s, if_neg (not_not.mpr rfl), ?_⟩
    rw [Ownership.apply, Function.update_eq_self]
    exact h
  · obtain ⟨old, heap, hobj, hrun, hreleased⟩ := h.release hx (hshared hself)
    have hsp' : (a.apply (.destroy x)).owner sp ≠ none := by
      change Function.update a.owner x none sp ≠ none
      rwa [Function.update_of_ne (Ne.symm hself)]
    obtain ⟨s', hcopy, hholds⟩ := hreleased.copyConstruct (Function.update_self ..) hsp'
    refine ⟨s', ?_, ?_⟩
    · rw [SharedPtr.assign, if_pos hself, hobj, Option.bind_eq_bind, Option.bind_some, hrun]
      rw [SharedPtr.copyConstruct] at hcopy
      simpa [Function.update_of_ne (Ne.symm hself)] using hcopy
    · simpa [Ownership.apply, Function.update_of_ne (Ne.symm hself)] using hholds

end

theorem step_holds {s : SharedPtr D} {a : Ownership D} (h : s.Holds a) (op : Op D)
    (hop : a.Admits op) : ∃ s', s.step op = some s' ∧ s'.Holds (a.apply op) := by
  cases op with
  | construct x p del => exact ⟨_, rfl, h.construct hop.1 hop.2.1 del hop.2.2⟩
  | copyConstruct x sp => exact h.copyConstruct hop.1 hop.2
  | assign x sp => exact h.assign hop.1 hop.2.1 hop.2.2
  | destroy x => exact h.destroy hop.1 hop.2

/-! What a client sees. -/

structure Shows [DecidableEq D] (s : SharedPtr D) (a : Ownership D) : Prop where
  get : ∀ x, s.get x = a.owner x
  useCount : ∀ x p, a.owner x = some p →
    ∃ n, s.useCount x = some n ∧ n.toNat = (owners a.owner p).card
  kept : ∀ m ∈ a.made, (∃ x, a.owner x = some m.2) → s.heap.deleted.count m = 0
  released : ∀ m ∈ a.made, (¬∃ x, a.owner x = some m.2) → s.heap.deleted.count m = 1

theorem Holds.shows [DecidableEq D] {s : SharedPtr D} {a : Ownership D} (h : s.Holds a) :
    s.Shows a where
  get := h.get
  useCount := by
    intro x p hx
    obtain ⟨r, t, hobj, ht, hown⟩ := h.objects_some (by rw [hx]; exact Option.some_ne_none p)
    obtain rfl := Option.some.inj (hx.symm.trans hown)
    refine ⟨t.ncount, ?_, ?_⟩
    · rw [SharedPtr.useCount, hobj, Option.bind_some, RefHeap.count, ht]
      rfl
    · rw [h.owners_eq ht]
      exact (h.counted.of_refs ht).2.2
  kept := by
    intro m _ _
    rw [h.deleted]
    rfl
  released := by
    intro m hm hnone
    obtain ⟨r, hr⟩ := h.made m hm
    obtain ⟨t, ht, hdata⟩ := Option.map_eq_some_iff.mp hr
    obtain ⟨x, hx⟩ := Finset.card_pos.mp (h.counted.of_refs ht).2.1
    refine absurd ⟨x, ?_⟩ hnone
    rw [← h.get x, SharedPtr.get, mem_owners.mp hx, Option.bind_some]
    exact hr

/-- Runs that never take the last owner away from a pointer count the owners right. -/
theorem shared_ptr_run [DecidableEq D] (ops : List (Op D))
    (hops : Run.Guarded (fun a op => some (a.apply op)) Ownership.Admits Ownership.init ops) :
    ∃ s, ops.foldlM step (init : SharedPtr D) = some s ∧
      s.Shows (ops.foldl Ownership.apply Ownership.init) := by
  obtain ⟨s, hrun, hholds⟩ := Run.simulates_of_admitted Holds
    (fun _ _ op h hop => step_holds h op hop) ops init_holds hops
  exact ⟨s, hrun, hholds.shows⟩

theorem shared_ptr_run_pair : ∃ s,
    [Op.construct ⟨1, by decide⟩ 100 7, .copyConstruct ⟨2, by decide⟩ ⟨1, by decide⟩,
      .destroy ⟨1, by decide⟩].foldlM step (init : SharedPtr Nat) = some s ∧
    s.Shows ([Op.construct ⟨1, by decide⟩ 100 7, .copyConstruct ⟨2, by decide⟩ ⟨1, by decide⟩,
      .destroy ⟨1, by decide⟩].foldl Ownership.apply Ownership.init) := by
  apply shared_ptr_run
  refine ⟨⟨rfl, by decide, fun _ hm => nomatch hm⟩, fun a ha => ?_⟩
  obtain rfl := Option.some.inj ha
  refine ⟨⟨rfl, fun hnone => nomatch hnone⟩, fun a ha => ?_⟩
  obtain rfl := Option.some.inj ha
  exact ⟨⟨(fun hnone => nomatch hnone), ⟨2, by decide⟩, by decide, rfl⟩, fun _ _ => trivial⟩

/-- The only owner of a pointer is destroyed, and its deleter is not called. -/
theorem deleter_not_called : ¬∃ s,
    [Op.construct ⟨1, by decide⟩ 100 7, .destroy ⟨1, by decide⟩].foldlM step
      (init : SharedPtr Nat) = some s ∧
    s.Shows ([Op.construct ⟨1, by decide⟩ 100 7, .destroy ⟨1, by decide⟩].foldl
      Ownership.apply Ownership.init) := by
  rintro ⟨s, hrun, hshows⟩
  obtain rfl := Option.some.inj hrun
  have hnone : ¬∃ x, (Function.update (Function.update (fun _ => none) (⟨1, by decide⟩ : Address)
      (some 100)) ⟨1, by decide⟩ none) x = some 100 := by
    rw [Function.update_idem, Function.update_eq_self]
    rintro ⟨x, hx⟩
    cases hx
  have hcount := hshows.released (7, 100) List.mem_cons_self hnone
  cases hcount

end SharedPtr

end RebuildTheWheel.TinySTL
