import Mathlib.Logic.Function.Basic
import RebuildTheWheel.Data.RawMemory

namespace RebuildTheWheel.Data

namespace RawMemory

/-! Objects that each own one block, or nothing, and the memory that they share. An object is
its pointer and its count of cells, and 0 for both when it owns nothing. -/

variable {T ι : Type} {m m' m'' : RawMemory T} {p n p' n' src dst k : Nat} {xs : List T} {x : T}

structure SameBlocks (m m' : RawMemory T) : Prop where
  extent : m'.extent = m.extent
  top : m'.top = m.top
  matched : m'.matched = m.matched

theorem SameBlocks.refl (m : RawMemory T) : SameBlocks m m := ⟨rfl, rfl, rfl⟩

theorem SameBlocks.trans (h : SameBlocks m m') (h' : SameBlocks m' m'') : SameBlocks m m'' :=
  ⟨h'.extent.trans h.extent, h'.top.trans h.top, h'.matched.trans h.matched⟩

theorem sameBlocks_write (m : RawMemory T) (p : Nat) (xs : List T) :
    SameBlocks m (m.write p xs) := ⟨rfl, rfl, rfl⟩

theorem sameBlocks_destroy (m : RawMemory T) (p n : Nat) : SameBlocks m (m.destroy p n) :=
  ⟨rfl, rfl, rfl⟩

theorem sameBlocks_store (h : m.store p x = some m') : SameBlocks m m' := by
  unfold store at h
  split_ifs at h
  obtain rfl := Option.some.inj h
  exact sameBlocks_write m p [x]

theorem sameBlocks_storeList (h : m.storeList dst xs = some m') : SameBlocks m m' := by
  induction xs generalizing m dst with
  | nil => exact Option.some.inj h ▸ .refl m
  | cons x xs ih =>
      obtain ⟨m₁, hstore, hrest⟩ := Option.bind_eq_some_iff.mp h
      exact (sameBlocks_store hstore).trans (ih hrest)

theorem sameBlocks_copyForward (h : m.copyForward src dst k = some m') : SameBlocks m m' := by
  induction k generalizing m src dst with
  | zero => exact Option.some.inj h ▸ .refl m
  | succ k ih =>
      obtain ⟨x, -, h⟩ := Option.bind_eq_some_iff.mp h
      obtain ⟨m₁, hstore, hrest⟩ := Option.bind_eq_some_iff.mp h
      exact (sameBlocks_store hstore).trans (ih hrest)

theorem sameBlocks_copyBackward (h : m.copyBackward src dst k = some m') : SameBlocks m m' := by
  induction k generalizing m with
  | zero => exact Option.some.inj h ▸ .refl m
  | succ k ih =>
      obtain ⟨x, -, h⟩ := Option.bind_eq_some_iff.mp h
      obtain ⟨m₁, hstore, hrest⟩ := Option.bind_eq_some_iff.mp h
      exact (sameBlocks_store hstore).trans (ih hrest)

theorem Bounded.sameBlocks (h : m.Bounded) (hsame : SameBlocks m m') : m'.Bounded := by
  intro p hp
  rw [hsame.extent] at hp ⊢
  rw [hsame.top]
  exact h p hp

/-! One object. -/

def Owned (m : RawMemory T) (p n : Nat) : Prop := p = 0 ∧ n = 0 ∨ n ≠ 0 ∧ m.extent p = n

/-- The object with the block at `p` has another afterwards, and no other block is touched. -/
structure Keeps (m m' : RawMemory T) (p n p' n' : Nat) : Prop where
  bounded : m'.Bounded
  matched : m'.matched = true
  owned : m'.Owned p' n'
  others : ∀ q, m.extent q ≠ 0 → (n ≠ 0 → q ≠ p) → m'.extent q = m.extent q
  fresh : n' ≠ 0 → n ≠ 0 ∧ p' = p ∨ m.extent p' = 0

/-- The state of one object and the memory. -/
structure OwnedIn (m : RawMemory T) (p n : Nat) : Prop where
  bounded : m.Bounded
  matched : m.matched = true
  owned : m.Owned p n

theorem OwnedIn.same (h : OwnedIn m p n) (hsame : SameBlocks m m') : Keeps m m' p n p n where
  bounded := h.bounded.sameBlocks hsame
  matched := hsame.matched.trans h.matched
  owned := by
    rw [Owned, hsame.extent]
    exact h.owned
  others := fun _ _ _ => congrFun hsame.extent _
  fresh := fun hn => .inl ⟨hn, rfl⟩

theorem Keeps.trans {p₁ n₁ p₂ n₂ : Nat} (h : Keeps m m' p n p₁ n₁)
    (h' : Keeps m' m'' p₁ n₁ p₂ n₂) : Keeps m m'' p n p₂ n₂ where
  bounded := h'.bounded
  matched := h'.matched
  owned := h'.owned
  others := by
    intro q hq hother
    have hfirst := h.others q hq hother
    rw [h'.others q (hfirst ▸ hq) fun hn₁ heq => ?_, hfirst]
    rcases h.fresh hn₁ with ⟨hn, hsame⟩ | hnew
    · exact hother hn (heq.trans hsame)
    · exact hq (heq ▸ hnew)
  fresh := by
    intro hn₂
    rcases h'.fresh hn₂ with ⟨hn₁, rfl⟩ | hnew
    · exact h.fresh hn₁
    · by_cases hold : m.extent p₂ = 0
      · exact .inr hold
      · refine .inl (by_contra fun hother => hold ?_)
        rw [← h.others p₂ hold fun hn heq => hother ⟨hn, heq⟩, hnew]

/-- The block is left behind. -/
theorem OwnedIn.forget (h : OwnedIn m p n) : Keeps m m p n 0 0 where
  bounded := h.bounded
  matched := h.matched
  owned := .inl ⟨rfl, rfl⟩
  others := fun _ _ _ => rfl
  fresh := fun hn => absurd rfl hn

theorem OwnedIn.take (h : OwnedIn m 0 0) (hfresh : m.Fresh m' p k) (howned : m'.Owned p k)
    (hsame : SameBlocks m' m'') : Keeps m m'' 0 0 p k where
  bounded := hfresh.bounded.sameBlocks hsame
  matched := by rw [hsame.matched, hfresh.matched, h.matched]
  owned := by
    rw [Owned, hsame.extent]
    exact howned
  others := by
    intro q hq _
    have hbelow := h.bounded q hq
    rw [hsame.extent, hfresh.extent q (by omega)]
  fresh := by
    intro hk
    refine .inr (by_contra fun hold => ?_)
    have hbelow := h.bounded p hold
    rcases hfresh.apart with ⟨-, hnone⟩ | hapart <;> omega

theorem OwnedIn.free (h : OwnedIn m p n) (hn : n ≠ 0) : Keeps m (m.deallocate p n) p n 0 0 where
  bounded := h.bounded.deallocate p n
  matched := by
    have hextent := (h.owned.resolve_left fun hnull => hn hnull.2).2
    simp [deallocate, h.matched, hextent]
  owned := .inl ⟨rfl, rfl⟩
  others := fun _ _ hother => if_neg (hother hn)
  fresh := fun hzero => absurd rfl hzero

/-- A new block is taken, and then the old one is given back. -/
theorem OwnedIn.replace (h : OwnedIn m p n) (hn : n ≠ 0) (hfresh : m.Fresh m' p' k)
    (howned : m'.Owned p' k) (hsame : SameBlocks m' m'') :
    Keeps m (m''.deallocate p n) p n p' k := by
  have hold : m.extent p = n := (h.owned.resolve_left fun hnull => hn hnull.2).2
  have hbelow := h.bounded p (hold ▸ hn)
  have hextent : m''.extent p = n := by
    rw [hsame.extent, hfresh.extent p (by omega), hold]
  have hnew : k = 0 ∨ p' ≠ p := by
    rcases hfresh.apart with ⟨-, hzero⟩ | hapart
    · exact .inl hzero
    · exact .inr (by omega)
  refine ⟨(hfresh.bounded.sameBlocks hsame).deallocate p n, ?_, ?_, ?_, ?_⟩
  · have hmatched : m''.matched = true := by rw [hsame.matched, hfresh.matched, h.matched]
    simp [deallocate, hmatched, hextent]
  · rcases howned with hnull | ⟨hk, hblock⟩
    · exact .inl hnull
    · refine .inr ⟨hk, ?_⟩
      have hother : p' ≠ p := hnew.resolve_left hk
      rw [← hblock, ← hsame.extent]
      exact if_neg hother
  · intro q hq hother
    have hqbelow := h.bounded q hq
    have hkept : (m''.deallocate p n).extent q = m''.extent q := if_neg (hother hn)
    rw [hkept, hsame.extent, hfresh.extent q (by omega)]
  · intro hk
    refine .inr (by_contra fun hsome => ?_)
    have hqbelow := h.bounded p' hsome
    rcases hfresh.apart with ⟨-, hzero⟩ | hapart <;> omega

/-! All objects. -/

structure Owning (m : RawMemory T) (blocks : ι → Nat × Nat) : Prop where
  bounded : m.Bounded
  matched : m.matched = true
  owned : ∀ a, m.Owned (blocks a).1 (blocks a).2
  apart : ∀ a b, a ≠ b → (blocks a).2 ≠ 0 → (blocks b).2 ≠ 0 → (blocks a).1 ≠ (blocks b).1

variable {blocks : ι → Nat × Nat}

theorem owning_new : Owning (new : RawMemory T) fun _ : ι => (0, 0) where
  bounded := bounded_new
  matched := rfl
  owned := fun _ => .inl ⟨rfl, rfl⟩
  apart := fun _ _ _ hn => absurd rfl hn

theorem Owning.object (h : Owning m blocks) (a : ι) : OwnedIn m (blocks a).1 (blocks a).2 :=
  ⟨h.bounded, h.matched, h.owned a⟩

variable [DecidableEq ι]

theorem Owning.update (h : Owning m blocks) (a : ι)
    (hkeeps : Keeps m m' (blocks a).1 (blocks a).2 p n) :
    Owning m' (Function.update blocks a (p, n)) := by
  have hother : ∀ b, b ≠ a → (blocks b).2 ≠ 0 → m.extent (blocks b).1 = (blocks b).2 ∧
      m'.extent (blocks b).1 = m.extent (blocks b).1 := by
    intro b hne hn
    have hextent := ((h.owned b).resolve_left fun hnull => hn hnull.2).2
    exact ⟨hextent, hkeeps.others _ (hextent ▸ hn) fun ha => h.apart b a hne hn ha⟩
  have hapart : ∀ b, b ≠ a → n ≠ 0 → (blocks b).2 ≠ 0 → (blocks b).1 ≠ p := by
    intro b hne hn hb heq
    rcases hkeeps.fresh hn with ⟨ha, rfl⟩ | hnone
    · exact h.apart b a hne hb ha heq
    · rw [← heq, (hother b hne hb).1] at hnone
      exact hb hnone
  refine ⟨hkeeps.bounded, hkeeps.matched, fun b => ?_, fun b c hne hb hc => ?_⟩
  · by_cases hba : b = a
    · subst hba
      rw [Function.update_self]
      exact hkeeps.owned
    · rw [Function.update_of_ne hba]
      rcases h.owned b with hnull | ⟨hn, hextent⟩
      · exact .inl hnull
      · exact .inr ⟨hn, by rw [(hother b hba hn).2, hextent]⟩
  · by_cases hba : b = a
    · subst hba
      have hcb : c ≠ b := hne.symm
      rw [Function.update_self, Function.update_of_ne hcb] at *
      exact fun heq => hapart c hcb hb hc heq.symm
    · rw [Function.update_of_ne hba] at hb ⊢
      by_cases hca : c = a
      · subst hca
        rw [Function.update_self] at hc ⊢
        exact hapart b hba hc hb
      · rw [Function.update_of_ne hca] at hc ⊢
        exact h.apart b c hne hb hc

/-- One object takes over the block of another. -/
theorem Owning.move (h : Owning m blocks) {a b : ι} (hab : a ≠ b) :
    Owning m (Function.update (Function.update blocks a (blocks b)) b (0, 0)) := by
  have hat : ∀ c, c ≠ b → Function.update (Function.update blocks a (blocks b)) b (0, 0) c =
      if c = a then blocks b else blocks c := by
    intro c hc
    rw [Function.update_of_ne hc, Function.update_apply]
  have hatb : Function.update (Function.update blocks a (blocks b)) b (0, 0) b = (0, 0) :=
    Function.update_self ..
  refine ⟨h.bounded, h.matched, fun c => ?_, fun c d hne hc hd => ?_⟩
  · by_cases hcb : c = b
    · rw [hcb, hatb]
      exact .inl ⟨rfl, rfl⟩
    · rw [hat c hcb]
      split_ifs
      · exact h.owned b
      · exact h.owned c
  · have hcb : c ≠ b := by
      rintro rfl
      rw [hatb] at hc
      exact hc rfl
    have hdb : d ≠ b := by
      rintro rfl
      rw [hatb] at hd
      exact hd rfl
    rw [hat c hcb] at hc ⊢
    rw [hat d hdb] at hd ⊢
    split_ifs at hc hd ⊢ with hca hda hda
    · exact absurd (hca.trans hda.symm) hne
    · exact h.apart b d (Ne.symm hdb) hc hd
    · exact h.apart c b hcb hc hd
    · exact h.apart c d hne hc hd

/-! The calls that a program makes on its objects, where a move leaves a null object. -/

structure ObjectClass (T O I P : Type) where
  null : O
  block : O → Nat × Nat
  construct : RawMemory T → I → Option (RawMemory T × O)
  operate : RawMemory T → O → P → Option (RawMemory T × O)
  beforeMove : RawMemory T → O → RawMemory T
  destruct : RawMemory T → O → RawMemory T

inductive Call (ι I P : Type) where
  | construct (a : ι) (init : I)
  | moveConstruct (a b : ι)
  | moveAssign (a b : ι)
  | operate (a : ι) (op : P)
  | destruct (a : ι)

namespace ObjectClass

variable {O I P : Type} (C : ObjectClass T O I P)

/-- A call on an object that is not there has no result. -/
def call : RawMemory T × (ι → Option O) → Call ι I P → Option (RawMemory T × (ι → Option O))
  | (m, objects), .construct a init =>
      match objects a with
      | some _ => none
      | none => do
          let (m, o) ← C.construct m init
          some (m, Function.update objects a (some o))
  | (m, objects), .moveConstruct a b =>
      match objects a, objects b with
      | none, some o =>
          some (m, Function.update (Function.update objects a (some o)) b (some C.null))
      | _, _ => none
  | (m, objects), .moveAssign a b =>
      match objects a, objects b with
      | some old, some o =>
          if a = b then some (m, objects)
          else some (C.beforeMove m old,
            Function.update (Function.update objects a (some o)) b (some C.null))
      | _, _ => none
  | (m, objects), .operate a op =>
      match objects a with
      | some o => do
          let (m, o) ← C.operate m o op
          some (m, Function.update objects a (some o))
      | none => none
  | (m, objects), .destruct a =>
      match objects a with
      | some o => some (C.destruct m o, Function.update objects a none)
      | none => none

def blockOf : Option O → Nat × Nat
  | some o => C.block o
  | none => (0, 0)

def Admits (guard : O → P → Prop) (objects : ι → Option O) : Call ι I P → Prop
  | .operate a op => ∀ o, objects a = some o → guard o op
  | _ => True

/-- Each function keeps the blocks of other objects. -/
structure Keeping (guard : O → P → Prop) : Prop where
  null : C.block C.null = (0, 0)
  construct : ∀ {m init r}, OwnedIn m 0 0 → C.construct m init = some r →
    Keeps m r.1 0 0 (C.block r.2).1 (C.block r.2).2
  operate : ∀ {m o op r}, OwnedIn m (C.block o).1 (C.block o).2 → guard o op →
    C.operate m o op = some r →
      Keeps m r.1 (C.block o).1 (C.block o).2 (C.block r.2).1 (C.block r.2).2
  beforeMove : ∀ {m o}, OwnedIn m (C.block o).1 (C.block o).2 →
    Keeps m (C.beforeMove m o) (C.block o).1 (C.block o).2 0 0
  destruct : ∀ {m o}, OwnedIn m (C.block o).1 (C.block o).2 →
    Keeps m (C.destruct m o) (C.block o).1 (C.block o).2 0 0

variable {C} {guard : O → P → Prop} {objects objects' : ι → Option O} {a : ι}

theorem owning_update {o' : Option O} (h : Owning m (C.blockOf ∘ objects))
    (hkeeps : Keeps m m' (C.blockOf (objects a)).1 (C.blockOf (objects a)).2 (C.blockOf o').1
      (C.blockOf o').2) : Owning m' (C.blockOf ∘ Function.update objects a o') := by
  rw [Function.comp_update]
  exact h.update a hkeeps

theorem owning_move {b : ι} {o : O} (hkeeping : C.Keeping guard)
    (h : Owning m (Function.update (C.blockOf ∘ objects) a (0, 0))) (hab : a ≠ b)
    (hb : objects b = some o) :
    Owning m (C.blockOf ∘ Function.update (Function.update objects a (some o)) b (some C.null)) := by
  have hmoved := h.move hab
  rw [Function.update_of_ne hab.symm, Function.update_idem] at hmoved
  have hblock : (C.blockOf ∘ objects) b = C.blockOf (some o) := congrArg C.blockOf hb
  have hnull : C.blockOf (some C.null) = (0, 0) := hkeeping.null
  rw [Function.comp_update, Function.comp_update, hnull, ← hblock]
  exact hmoved

theorem call_owning (hkeeping : C.Keeping guard) (h : Owning m (C.blockOf ∘ objects))
    {c : Call ι I P} (hadmits : Admits guard objects c)
    (hcall : C.call (m, objects) c = some (m', objects')) :
    Owning m' (C.blockOf ∘ objects') := by
  cases c with
  | construct a init =>
      cases ha : objects a with
      | some o => simp [call, ha] at hcall
      | none =>
          simp only [call, ha, Option.bind_eq_bind, Option.bind_eq_some_iff, Option.some.injEq,
            Prod.mk.injEq] at hcall
          obtain ⟨r, hr, rfl, rfl⟩ := hcall
          have hobject := h.object a
          rw [Function.comp_apply, ha] at hobject
          refine owning_update h ?_
          rw [ha]
          exact hkeeping.construct hobject hr
  | moveConstruct a b =>
      cases ha : objects a with
      | some o => simp [call, ha] at hcall
      | none =>
          cases hb : objects b with
          | none => simp [call, ha, hb] at hcall
          | some o =>
              simp only [call, ha, hb, Option.some.injEq, Prod.mk.injEq] at hcall
              obtain ⟨rfl, rfl⟩ := hcall
              have hab : a ≠ b := by
                rintro rfl
                rw [ha] at hb
                cases hb
              have hnone : Function.update (C.blockOf ∘ objects) a (0, 0) = C.blockOf ∘ objects := by
                refine Function.update_eq_self_iff.mpr ?_
                rw [Function.comp_apply, ha]
                rfl
              exact owning_move hkeeping (hnone.symm ▸ h) hab hb
  | moveAssign a b =>
      cases ha : objects a with
      | none => simp [call, ha] at hcall
      | some old =>
          cases hb : objects b with
          | none => simp [call, ha, hb] at hcall
          | some o =>
              simp only [call, ha, hb] at hcall
              split_ifs at hcall with hab
              · obtain ⟨rfl, rfl⟩ := Prod.mk.inj (Option.some.inj hcall)
                exact h
              · obtain ⟨rfl, rfl⟩ := Prod.mk.inj (Option.some.inj hcall)
                have hobject := h.object a
                rw [Function.comp_apply, ha] at hobject
                have hkeeps := hkeeping.beforeMove hobject
                refine owning_move hkeeping (h.update a ?_) hab hb
                rw [Function.comp_apply, ha]
                exact hkeeps
  | operate a op =>
      cases ha : objects a with
      | none => simp [call, ha] at hcall
      | some o =>
          simp only [call, ha, Option.bind_eq_bind, Option.bind_eq_some_iff, Option.some.injEq,
            Prod.mk.injEq] at hcall
          obtain ⟨r, hr, rfl, rfl⟩ := hcall
          have hobject := h.object a
          rw [Function.comp_apply, ha] at hobject
          refine owning_update h ?_
          rw [ha]
          exact hkeeping.operate hobject (hadmits o ha) hr
  | destruct a =>
      cases ha : objects a with
      | none => simp [call, ha] at hcall
      | some o =>
          simp only [call, ha, Option.some.injEq, Prod.mk.injEq] at hcall
          obtain ⟨rfl, rfl⟩ := hcall
          have hobject := h.object a
          rw [Function.comp_apply, ha] at hobject
          refine owning_update h ?_
          rw [ha]
          exact hkeeping.destruct hobject

end ObjectClass

end RawMemory

end RebuildTheWheel.Data
