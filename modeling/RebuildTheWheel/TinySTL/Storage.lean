import RebuildTheWheel.Data.BlockOwners
import RebuildTheWheel.TinySTL.TString
import RebuildTheWheel.TinySTL.VectorRun

namespace RebuildTheWheel.TinySTL

open Data

/-! The blocks of vectors and strings: which calls of `deallocate` give back what `allocate` gave. -/

namespace Allocator

open RawMemory (SameBlocks OwnedIn Keeps)

variable {T : Type} {m m' m'' : RawMemory T} {first last result n k p p' : Nat} {value : T}

theorem allocate_owned (m : RawMemory T) (n : Nat) : (allocate m n).1.Owned (allocate m n).2 n := by
  unfold allocate
  split_ifs with hn
  · exact .inl ⟨rfl, hn⟩
  · exact .inr ⟨hn, if_pos rfl⟩

theorem sameBlocks_uninitializedCopy {r : RawMemory T × Nat}
    (h : uninitializedCopy m first last result = some r) : SameBlocks m r.1 := by
  obtain ⟨m₁, hcopy, hr⟩ := Option.bind_eq_some_iff.mp h
  exact Option.some.inj hr ▸ RawMemory.sameBlocks_copyForward hcopy

theorem sameBlocks_uninitializedFillN {overload : Overload T} {r : RawMemory T × Nat}
    (h : uninitializedFillN overload m first n value = some r) : SameBlocks m r.1 := by
  obtain ⟨m₁, hfill, hr⟩ := Option.bind_eq_some_iff.mp h
  exact Option.some.inj hr ▸ RawMemory.sameBlocks_storeList hfill

theorem free (h : OwnedIn m p n) : Keeps m (deallocate m p n) p n 0 0 := by
  by_cases hn : n = 0
  · have hp : p = 0 := by
      rcases h.owned with hnull | hblock
      · exact hnull.1
      · exact absurd hn hblock.1
    subst hn hp
    refine h.same ⟨rfl, rfl, ?_⟩
    simp [deallocate, h.matched]
  · rw [deallocate, if_neg hn]
    exact h.free hn

/-- A new block is taken, filled, and the old one given back. -/
theorem replace (h : OwnedIn m p n) (k : Nat) (hsame : SameBlocks (allocate m k).1 m') :
    Keeps m (deallocate m' p n) p n (allocate m k).2 k := by
  have hfresh := allocate_fresh h.bounded k
  have howned := allocate_owned m k
  by_cases hn : n = 0
  · have hp : p = 0 := by
      rcases h.owned with hnull | hblock
      · exact hnull.1
      · exact absurd hn hblock.1
    subst hn hp
    have htaken := h.take hfresh howned hsame
    refine h.take hfresh howned (hsame.trans ⟨rfl, rfl, ?_⟩)
    simp [deallocate, htaken.matched]
  · rw [deallocate, if_neg hn]
    exact h.replace hn hfresh howned hsame

theorem take (h : OwnedIn m p n) (k : Nat) (hsame : SameBlocks (allocate m k).1 m') :
    Keeps m m' p n (allocate m k).2 k := by
  have hnull : OwnedIn m 0 0 := ⟨h.bounded, h.matched, .inl ⟨rfl, rfl⟩⟩
  exact h.forget.trans (hnull.take (allocate_fresh h.bounded k) (allocate_owned m k) hsame)

end Allocator

namespace Vector

open Allocator
open RawMemory (SameBlocks OwnedIn Keeps sameBlocks_destroy sameBlocks_storeList
  sameBlocks_copyForward sameBlocks_copyBackward)

variable {T : Type} {m m' m₁ : RawMemory T} {v v' : Vector} {overload : Overload T}
  {r : RawMemory T × Vector} {n : Nat} {val : T} {xs : List T} {position : Nat}

/-- A vector with its block in memory. -/
def Stored (m : RawMemory T) (v : Vector) : Prop := OwnedIn m v.start v.capacity

/-- A step of one vector, which touches no other block. -/
def Steps (m : RawMemory T) (v : Vector) (r : RawMemory T × Vector) : Prop :=
  Keeps m r.1 v.start v.capacity r.2.start r.2.capacity

theorem Stored.inPlace (h : Stored m v) (hsame : SameBlocks m m') (finish : Nat) :
    Steps m v (m', { v with finish := finish }) := h.same hsame

theorem Stored.relocate (h : Stored m v) (k finish : Nat) (hsame : SameBlocks (allocate m k).1 m') :
    Steps m v (destroyAndDeallocateAll m' v,
      ⟨(allocate m k).2, finish, (allocate m k).2 + k⟩) := by
  have hcapacity : (⟨(allocate m k).2, finish, (allocate m k).2 + k⟩ : Vector).capacity = k :=
    Nat.add_sub_cancel_left ..
  unfold Steps destroyAndDeallocateAll
  rw [hcapacity]
  split_ifs with hzero
  · exact replace h k (hsame.trans (sameBlocks_destroy _ _ _))
  · exact take h k hsame

theorem Stored.construct {init : Init T} (h : OwnedIn m 0 0)
    (hr : construct overload m init = some r) : Keeps m r.1 0 0 r.2.start r.2.capacity := by
  cases init with
  | default => exact Option.some.inj hr ▸ h.same (.refl m)
  | fillN n value =>
      simp only [Vector.construct, allocateAndFillN, Option.bind_eq_bind, Option.bind_eq_some_iff,
        Option.some.injEq] at hr
      obtain ⟨⟨m₁, finish⟩, hfill, rfl⟩ := hr
      rw [capacity, Nat.add_sub_cancel_left]
      exact take h n (sameBlocks_uninitializedFillN hfill)
  | copy xs =>
      simp only [Vector.construct, allocateAndCopy, Option.bind_eq_bind, Option.bind_eq_some_iff,
        Option.some.injEq] at hr
      obtain ⟨m₁, hstore, rfl⟩ := hr
      rw [capacity, Nat.add_sub_cancel_left]
      exact take h xs.length (sameBlocks_storeList hstore)

/-- A `resize` that needs a new block gets as many elements as it asks for. -/
def Exact (v : Vector) (n : Nat) : Prop :=
  v.capacity < n → v.getNewCapacity (n - v.size) = n

theorem Stored.resize (h : Stored m v) (hexact : v.Exact n)
    (hr : v.resize overload m n val = some r) : Steps m v r := by
  unfold Vector.resize at hr
  split_ifs at hr with hless hroom hmore
  · exact Option.some.inj hr ▸ h.inPlace (sameBlocks_destroy m _ _) _
  · obtain ⟨⟨m₁, finish⟩, hfill, hr⟩ := Option.bind_eq_some_iff.mp hr
    exact Option.some.inj hr ▸ h.inPlace (sameBlocks_uninitializedFillN hfill) _
  · simp only [hexact hmore, Option.bind_eq_bind, Option.bind_eq_some_iff,
      Option.some.injEq] at hr
    obtain ⟨⟨m₁, middle⟩, hcopy, ⟨m₂, finish⟩, hfill, rfl⟩ := hr
    exact h.relocate n finish
      ((sameBlocks_uninitializedCopy hcopy).trans (sameBlocks_uninitializedFillN hfill))
  · exact Option.some.inj hr ▸ h.inPlace (.refl m) _

theorem Stored.reserve (h : Stored m v) (hr : v.reserve m n = some r) : Steps m v r := by
  unfold Vector.reserve at hr
  split_ifs at hr
  · exact Option.some.inj hr ▸ h.inPlace (.refl m) _
  · simp only [Option.bind_eq_bind, Option.bind_eq_some_iff, Option.some.injEq] at hr
    obtain ⟨⟨m₁, finish⟩, hcopy, rfl⟩ := hr
    exact h.relocate n finish (sameBlocks_uninitializedCopy hcopy)

theorem Stored.erase {first last : Nat} (h : Stored m v) (hr : v.erase m first last = some r) :
    Steps m v r := by
  unfold Vector.erase at hr
  split_ifs at hr
  obtain ⟨m₁, hcopy, hr⟩ := Option.bind_eq_some_iff.mp hr
  exact Option.some.inj hr ▸ h.inPlace (sameBlocks_copyForward hcopy) _

theorem Stored.reallocateAndCopy (h : Stored m v)
    (hr : v.reallocateAndCopy m position xs = some r) : Steps m v r := by
  simp only [Vector.reallocateAndCopy, Option.bind_eq_bind, Option.bind_eq_some_iff,
    Option.some.injEq] at hr
  obtain ⟨⟨m₁, middle⟩, hfront, m₂, hstore, ⟨m₃, finish⟩, hback, rfl⟩ := hr
  exact h.relocate (v.getNewCapacity xs.length) finish (((sameBlocks_uninitializedCopy hfront).trans
    (sameBlocks_storeList hstore)).trans (sameBlocks_uninitializedCopy hback))

theorem Stored.reallocateAndFillN (h : Stored m v)
    (hr : v.reallocateAndFillN overload m position n val = some r) : Steps m v r := by
  simp only [Vector.reallocateAndFillN, Option.bind_eq_bind, Option.bind_eq_some_iff,
    Option.some.injEq] at hr
  obtain ⟨⟨m₁, middle⟩, hfront, ⟨m₂, behind⟩, hfill, ⟨m₃, finish⟩, hback, rfl⟩ := hr
  exact h.relocate (v.getNewCapacity n) finish (((sameBlocks_uninitializedCopy hfront).trans
    (sameBlocks_uninitializedFillN hfill)).trans (sameBlocks_uninitializedCopy hback))

theorem Stored.insertRange (h : Stored m v) (hr : v.insertRange m position xs = some r) :
    Steps m v r := by
  unfold Vector.insertRange at hr
  simp only at hr
  split_ifs at hr
  · simp only [Option.bind_eq_bind, Option.bind_eq_some_iff, Option.some.injEq] at hr
    obtain ⟨⟨m₁, middle⟩, hcopy, m₂, hmove, m₃, hstore, rfl⟩ := hr
    exact h.inPlace (((sameBlocks_uninitializedCopy hcopy).trans
      (sameBlocks_copyBackward hmove)).trans (sameBlocks_storeList hstore)) _
  · simp only [Option.bind_eq_bind, Option.bind_eq_some_iff, Option.some.injEq] at hr
    obtain ⟨m₁, hback, ⟨m₂, behind⟩, hcopy, m₃, hfront, rfl⟩ := hr
    exact h.inPlace (((sameBlocks_storeList hback).trans
      (sameBlocks_uninitializedCopy hcopy)).trans (sameBlocks_storeList hfront)) _
  · exact h.reallocateAndCopy hr

theorem Stored.insertFill (h : Stored m v)
    (hr : v.insertFill overload m position n val = some r) : Steps m v r := by
  unfold Vector.insertFill at hr
  simp only at hr
  split_ifs at hr
  · simp only [Option.bind_eq_bind, Option.bind_eq_some_iff, Option.some.injEq] at hr
    obtain ⟨m₁, hmove, ⟨m₂, behind⟩, hfill, rfl⟩ := hr
    exact h.inPlace ((sameBlocks_copyBackward hmove).trans (sameBlocks_uninitializedFillN hfill)) _
  · exact h.reallocateAndFillN hr

theorem Stored.shrinkToFit (h : Stored m v) (hr : v.shrinkToFit m = some r) : Steps m v r := by
  simp only [Vector.shrinkToFit, uninitializedCopy, Option.bind_eq_bind, Option.bind_eq_some_iff,
    Option.some.injEq] at hr
  obtain ⟨⟨m₁, finish⟩, ⟨m₂, hcopy, hpair⟩, rfl⟩ := hr
  obtain ⟨rfl, rfl⟩ := Prod.mk.inj hpair
  have hreplaced := replace h v.size (sameBlocks_copyForward hcopy)
  show Keeps m (deallocate m₂ v.start v.capacity) v.start v.capacity (allocate m v.size).2
    ((allocate m v.size).2 + (v.finish - v.start) - (allocate m v.size).2)
  rw [Nat.add_sub_cancel_left]
  exact hreplaced

inductive Call (T : Type) where
  | assign (xs : List T)
  | op (op : Op T)

/-- A copy assignment does not give back the old storage. -/
def perform (overload : Overload T) (m : RawMemory T) (v : Vector) :
    Call T → Option (RawMemory T × Vector)
  | .assign xs => allocateAndCopy m xs
  | .op op => step overload (m, v) op

def objectClass (overload : Overload T) : RawMemory.ObjectClass T Vector (Init T) (Call T) where
  null := new
  block := fun v => (v.start, v.capacity)
  construct := construct overload
  operate := perform overload
  beforeMove := destroyAndDeallocateAll
  destruct := destroyAndDeallocateAll

def Call.Exact (v : Vector) : Call T → Prop
  | .op (.resize n _) => v.Exact n
  | _ => True

theorem Stored.assign (h : Stored m v) (hr : allocateAndCopy m xs = some r) : Steps m v r := by
  simp only [allocateAndCopy, Option.bind_eq_bind, Option.bind_eq_some_iff,
    Option.some.injEq] at hr
  obtain ⟨m₁, hstore, rfl⟩ := hr
  rw [Steps, capacity, capacity, Nat.add_sub_cancel_left]
  exact take h xs.length (sameBlocks_storeList hstore)

theorem Stored.step (h : Stored m v) {op : Op T} (hexact : (Call.op op).Exact v)
    (hr : step overload (m, v) op = some r) : Steps m v r := by
  cases op with
  | pushBack val =>
      have hinsert : v.insertFill overload m v.finish 1 val = some r := hr
      exact h.insertFill hinsert
  | popBack => exact Option.some.inj hr ▸ h.inPlace (sameBlocks_destroy m _ _) _
  | insertFill i n val => exact h.insertFill hr
  | insertRange i xs => exact h.insertRange hr
  | erase i j => exact h.erase hr
  | resize n val => exact h.resize hexact hr
  | reserve n => exact h.reserve hr
  | shrinkToFit => exact h.shrinkToFit hr
  | clear => exact Option.some.inj hr ▸ h.inPlace (sameBlocks_destroy m _ _) _

theorem Stored.free (h : Stored m v) :
    Keeps m (destroyAndDeallocateAll m v) v.start v.capacity 0 0 := by
  unfold destroyAndDeallocateAll
  split_ifs
  · have hstored : OwnedIn (m.destroy v.start v.size) v.start v.capacity :=
      ⟨h.bounded, h.matched, h.owned⟩
    have hfreed := Allocator.free hstored
    exact ⟨hfreed.bounded, hfreed.matched, hfreed.owned, hfreed.others, hfreed.fresh⟩
  · exact h.forget

theorem keeping (overload : Overload T) :
    (objectClass overload).Keeping fun v c => Call.Exact v c where
  null := rfl
  construct := Stored.construct
  operate := by
    intro m v c r h hexact hr
    cases c with
    | assign xs => exact Stored.assign h hr
    | op op => exact Stored.step h hexact hr
  beforeMove := Stored.free
  destruct := Stored.free

end Vector

namespace TString

open Allocator
open RawMemory (SameBlocks OwnedIn Keeps sameBlocks_destroy sameBlocks_storeList
  sameBlocks_copyForward sameBlocks_copyBackward)

variable {m m' : Memory} {s : TString} {r : Memory × TString} {n p : Nat} {c : UInt8}
  {chars : List UInt8}

inductive Init where
  | default
  | fillN (n : Nat) (c : UInt8)
  | copy (chars : List UInt8)

def construct (m : Memory) : Init → Option (Memory × TString)
  | .default => some (m, new)
  | .fillN n c => allocateAndFillN m n c
  | .copy chars => allocateAndCopy m chars

inductive Op where
  | assignCopy (chars : List UInt8)
  | assignChar (c : UInt8)
  | resize (n : Nat) (c : UInt8)
  | reserve (n : Nat)
  | insertRange (pos : Nat) (chars : List UInt8)
  | insertFill (pos n : Nat) (c : UInt8)
  | append (chars : List UInt8)
  | appendFill (n : Nat) (c : UInt8)
  | erase (i j : Nat)
  | clear
  | shrinkToFit

def step (m : Memory) (s : TString) : Op → Option (Memory × TString)
  | .assignCopy chars => assignCopy m s chars
  | .assignChar c => assignChar m s c
  | .resize n c => resize m s n c
  | .reserve n => reserve m s n
  | .insertRange pos chars => insertRange m s (s.start + pos) chars
  | .insertFill pos n c => insertFill m s (s.start + pos) n c
  | .append chars => append m s chars
  | .appendFill n c => appendFill m s n c
  | .erase i j => erase m s (s.start + i) (s.start + j)
  | .clear => some (clear m s)
  | .shrinkToFit => some (shrinkToFit m s)

/-- A move assignment leaves the old storage where it is. -/
def objectClass : RawMemory.ObjectClass UInt8 TString Init Op where
  null := new
  block := fun s => (s.start, s.capacity)
  construct := construct
  operate := step
  beforeMove := fun m _ => m
  destruct := destroyAndDeallocate

/-- A `resize` that needs a new block gets as many characters as it asks for, `clear` has nothing
to do, and `shrink_to_fit` finds no storage. -/
def Op.Exact (s : TString) : Op → Prop
  | .resize n _ => s.capacity < n → s.getNewCapacity (n - s.size) = n
  | .clear => s.finish = s.start
  | .shrinkToFit => s = new
  | _ => True

def Stored (m : Memory) (s : TString) : Prop := OwnedIn m s.start s.capacity

def Steps (m : Memory) (s : TString) (r : Memory × TString) : Prop :=
  Keeps m r.1 s.start s.capacity r.2.start r.2.capacity

theorem Stored.inPlace (h : Stored m s) (hsame : SameBlocks m m') (finish : Nat) :
    Steps m s (m', { s with finish := finish }) := h.same hsame

theorem Stored.relocate (h : Stored m s) (k finish : Nat) (hsame : SameBlocks (allocate m k).1 m') :
    Steps m s (destroyAndDeallocate m' s,
      ⟨(allocate m k).2, finish, (allocate m k).2 + k⟩) := by
  unfold Steps destroyAndDeallocate
  rw [show (⟨(allocate m k).2, finish, (allocate m k).2 + k⟩ : TString).capacity = k from
    Nat.add_sub_cancel_left ..]
  exact replace h k (hsame.trans (sameBlocks_destroy _ _ _))

theorem Stored.free (h : Stored m s) :
    Keeps m (destroyAndDeallocate m s) s.start s.capacity 0 0 := by
  have hstored : OwnedIn (m.destroy s.start s.size) s.start s.capacity :=
    ⟨h.bounded, h.matched, h.owned⟩
  have hfreed := Allocator.free hstored
  exact ⟨hfreed.bounded, hfreed.matched, hfreed.owned, hfreed.others, hfreed.fresh⟩

theorem fillN_finish {q : Nat} {r : Memory × Nat} (h : fillN m q n c = some r) :
    r.2 = q + n ∧ SameBlocks m r.1 := by
  refine ⟨?_, sameBlocks_uninitializedFillN h⟩
  obtain ⟨m₁, -, hr⟩ := Option.bind_eq_some_iff.mp h
  exact (congrArg Prod.snd (Option.some.inj hr)).symm

theorem allocateAndFillN_keeps (h : OwnedIn m 0 0) (hr : allocateAndFillN m n c = some r) :
    Keeps m r.1 0 0 r.2.start r.2.capacity := by
  simp only [allocateAndFillN, Option.bind_eq_bind, Option.bind_eq_some_iff,
    Option.some.injEq] at hr
  obtain ⟨⟨m₁, finish⟩, hfill, rfl⟩ := hr
  obtain ⟨hfinish, hsame⟩ := fillN_finish hfill
  simp only at hfinish
  rw [capacity, hfinish, Nat.add_sub_cancel_left]
  exact take h n hsame

theorem allocateAndCopy_keeps (h : OwnedIn m 0 0) (hr : allocateAndCopy m chars = some r) :
    Keeps m r.1 0 0 r.2.start r.2.capacity := by
  simp only [allocateAndCopy, Option.bind_eq_bind, Option.bind_eq_some_iff,
    Option.some.injEq] at hr
  obtain ⟨m₁, hstore, rfl⟩ := hr
  rw [capacity, Nat.add_sub_cancel_left]
  exact take h chars.length (sameBlocks_storeList hstore)

theorem Stored.construct {init : Init} (h : OwnedIn m 0 0) (hr : construct m init = some r) :
    Keeps m r.1 0 0 r.2.start r.2.capacity := by
  cases init with
  | default => exact Option.some.inj hr ▸ h.same (.refl m)
  | fillN n c => exact allocateAndFillN_keeps h hr
  | copy chars => exact allocateAndCopy_keeps h hr

theorem Stored.resize (h : Stored m s) (hexact : (Op.resize n c).Exact s)
    (hr : resize m s n c = some r) : Steps m s r := by
  unfold TString.resize at hr
  split_ifs at hr with hless hroom hmore
  · exact Option.some.inj hr ▸ h.inPlace (sameBlocks_destroy m _ _) _
  · obtain ⟨⟨m₁, finish⟩, hfill, hr⟩ := Option.bind_eq_some_iff.mp hr
    exact Option.some.inj hr ▸ h.inPlace (fillN_finish hfill).2 _
  · simp only [hexact hmore, Option.bind_eq_bind, Option.bind_eq_some_iff,
      Option.some.injEq] at hr
    obtain ⟨⟨m₁, middle⟩, hcopy, ⟨m₂, finish⟩, hfill, rfl⟩ := hr
    exact h.relocate n finish ((sameBlocks_uninitializedCopy hcopy).trans (fillN_finish hfill).2)
  · exact Option.some.inj hr ▸ h.inPlace (.refl m) _

theorem Stored.reserve (h : Stored m s) (hr : reserve m s n = some r) : Steps m s r := by
  unfold TString.reserve at hr
  split_ifs at hr
  · exact Option.some.inj hr ▸ h.inPlace (.refl m) _
  · simp only [Option.bind_eq_bind, Option.bind_eq_some_iff, Option.some.injEq] at hr
    obtain ⟨⟨m₁, finish⟩, hcopy, rfl⟩ := hr
    exact h.relocate n finish (sameBlocks_uninitializedCopy hcopy)

theorem sameBlocks_moveBack (h : moveBack m s p n = some m') : SameBlocks m m' := by
  unfold moveBack at h
  split_ifs at h
  exact sameBlocks_copyBackward h

theorem Stored.insertRange (h : Stored m s) (hr : insertRange m s p chars = some r) :
    Steps m s r := by
  unfold TString.insertRange at hr
  split_ifs at hr
  · simp only [Option.bind_eq_bind, Option.bind_eq_some_iff, Option.some.injEq] at hr
    obtain ⟨m₁, hmove, m₂, hstore, rfl⟩ := hr
    exact h.inPlace ((sameBlocks_moveBack hmove).trans (sameBlocks_storeList hstore)) _
  · simp only [insertAuxCopy, Option.bind_eq_bind, Option.bind_eq_some_iff,
      Option.some.injEq] at hr
    obtain ⟨⟨m₁, middle⟩, hfront, m₂, hstore, ⟨m₃, finish⟩, hback, rfl⟩ := hr
    exact h.relocate (s.getNewCapacity chars.length) finish
      (((sameBlocks_uninitializedCopy hfront).trans (sameBlocks_storeList hstore)).trans
        (sameBlocks_uninitializedCopy hback))

theorem Stored.insertFill (h : Stored m s) (hr : insertFill m s p n c = some r) :
    Steps m s r := by
  unfold TString.insertFill at hr
  split_ifs at hr
  · simp only [Option.bind_eq_bind, Option.bind_eq_some_iff, Option.some.injEq] at hr
    obtain ⟨m₁, hmove, ⟨m₂, behind⟩, hfill, rfl⟩ := hr
    exact h.inPlace ((sameBlocks_moveBack hmove).trans (fillN_finish hfill).2) _
  · simp only [insertAuxFilln, Option.bind_eq_bind, Option.bind_eq_some_iff,
      Option.some.injEq] at hr
    obtain ⟨⟨m₁, middle⟩, hfront, ⟨m₂, behind⟩, hfill, ⟨m₃, finish⟩, hback, rfl⟩ := hr
    exact h.relocate (s.getNewCapacity n) finish
      (((sameBlocks_uninitializedCopy hfront).trans (fillN_finish hfill).2).trans
        (sameBlocks_uninitializedCopy hback))

theorem Stored.erase {first last : Nat} (h : Stored m s) (hr : erase m s first last = some r) :
    Steps m s r := by
  unfold TString.erase at hr
  split_ifs at hr
  obtain ⟨m₁, hcopy, hr⟩ := Option.bind_eq_some_iff.mp hr
  exact Option.some.inj hr ▸
    h.inPlace ((sameBlocks_copyForward hcopy).trans (sameBlocks_destroy _ _ _)) _

theorem Stored.step (h : Stored m s) {op : Op} (hexact : op.Exact s)
    (hr : step m s op = some r) : Steps m s r := by
  have hfree := h.free
  have hnull : OwnedIn (destroyAndDeallocate m s) 0 0 :=
    ⟨hfree.bounded, hfree.matched, hfree.owned⟩
  cases op with
  | assignCopy chars => exact hfree.trans (allocateAndCopy_keeps hnull hr)
  | assignChar c =>
      have hfill : allocateAndFillN (destroyAndDeallocate m s) 1 c = some r := hr
      exact hfree.trans (allocateAndFillN_keeps hnull hfill)
  | resize n c => exact h.resize hexact hr
  | reserve n => exact h.reserve hr
  | insertRange pos chars => exact h.insertRange hr
  | insertFill pos n c => exact h.insertFill hr
  | append chars => exact h.insertRange hr
  | appendFill n c => exact h.insertFill hr
  | erase i j => exact h.erase hr
  | clear =>
      have hstart : s.finish = s.start := hexact
      obtain rfl := Option.some.inj hr
      rw [TString.clear, hstart]
      exact h.inPlace (sameBlocks_destroy m _ _) s.finish
  | shrinkToFit =>
      have hnew : s = new := hexact
      subst hnew
      obtain rfl := Option.some.inj hr
      exact Allocator.free h

theorem keeping : objectClass.Keeping fun s op => Op.Exact s op where
  null := rfl
  construct := Stored.construct
  operate := by
    intro m s op r h hexact hr
    exact Stored.step h hexact hr
  beforeMove := fun h => h.forget
  destruct := Stored.free

end TString

/-! Programs with vectors and strings. -/

structure World (T ι κ : Type) where
  vectors : RawMemory T × (ι → Option Vector)
  strings : TString.Memory × (κ → Option TString)

namespace World

open RawMemory (Call ObjectClass Owning)
open Allocator (Overload)

variable {T ι κ : Type}

def new : World T ι κ := ⟨(RawMemory.new, fun _ => none), (RawMemory.new, fun _ => none)⟩

abbrev Step (T ι κ : Type) : Type :=
  Call ι (Vector.Init T) (Vector.Call T) ⊕ Call κ TString.Init TString.Op

variable [DecidableEq ι] [DecidableEq κ]

def step (overload : Overload T) (w : World T ι κ) : Step T ι κ → Option (World T ι κ)
  | .inl c => do
      let vectors ← (Vector.objectClass overload).call w.vectors c
      some { w with vectors := vectors }
  | .inr c => do
      let strings ← TString.objectClass.call w.strings c
      some { w with strings := strings }

/-- Each `deallocate` so far gave back a live block, with the count it was allocated with. -/
def Matched (w : World T ι κ) : Prop := w.vectors.1.matched = true ∧ w.strings.1.matched = true

def Exact (w : World T ι κ) : Step T ι κ → Prop
  | .inl c => ObjectClass.Admits (fun v c => Vector.Call.Exact v c) w.vectors.2 c
  | .inr c => ObjectClass.Admits (fun s op => TString.Op.Exact s op) w.strings.2 c

/-- Every object owns its block. -/
structure Owns (overload : Overload T) (w : World T ι κ) : Prop where
  vectors : Owning w.vectors.1 ((Vector.objectClass overload).blockOf ∘ w.vectors.2)
  strings : Owning w.strings.1 (TString.objectClass.blockOf ∘ w.strings.2)

omit [DecidableEq ι] [DecidableEq κ] in
theorem owns_new (overload : Overload T) : Owns overload (new : World T ι κ) :=
  ⟨RawMemory.owning_new, RawMemory.owning_new⟩

theorem Owns.step {overload : Overload T} {w w' : World T ι κ} (h : Owns overload w)
    {c : Step T ι κ} (hexact : Exact w c) (hstep : step overload w c = some w') :
    Owns overload w' := by
  cases c with
  | inl c =>
      obtain ⟨vectors, hcall, hw'⟩ := Option.bind_eq_some_iff.mp hstep
      obtain rfl := Option.some.inj hw'
      exact ⟨ObjectClass.call_owning (Vector.keeping overload) h.vectors hexact hcall, h.strings⟩
  | inr c =>
      obtain ⟨strings, hcall, hw'⟩ := Option.bind_eq_some_iff.mp hstep
      obtain rfl := Option.some.inj hw'
      exact ⟨h.vectors, ObjectClass.call_owning TString.keeping h.strings hexact hcall⟩

def shortProgram : List (Step Nat Nat Nat) :=
  [.inl (.construct 0 (.fillN 2 5)), .inl (.operate 0 (.op (.resize 4 7))),
    .inr (.construct 0 (.copy [97, 98])), .inr (.operate 0 (.append [99])),
    .inl (.destruct 0), .inr (.destruct 0)]

end World

end RebuildTheWheel.TinySTL
