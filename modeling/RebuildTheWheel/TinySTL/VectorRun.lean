import RebuildTheWheel.Data.Run
import RebuildTheWheel.TinySTL.Vector

namespace RebuildTheWheel.TinySTL

open Data

namespace Vector

open Allocator

variable {T : Type} {m m' m₁ : RawMemory T} {v v' : Vector} {xs ys : List T} {e i n p : Nat}

/-- The elements are those of a list. -/
structure Holds (m : RawMemory T) (v : Vector) (xs : List T) : Prop where
  bounded : m.Bounded
  finish : v.finish = v.start + xs.length
  room : v.finish ≤ v.endOfStorage
  live : m.Live v.start v.capacity
  below : v.endOfStorage ≤ m.top
  reads : m.Reads v.start xs

theorem Holds.size (h : Holds m v xs) : v.size = xs.length := by
  have hfinish := h.finish
  rw [Vector.size]
  omega

theorem Holds.length_le (h : Holds m v xs) : v.start + xs.length ≤ v.endOfStorage :=
  h.finish ▸ h.room

theorem Holds.liveAt (h : Holds m v xs) (hle : v.start ≤ p) (hfits : p + n ≤ v.endOfStorage) :
    m.Live p n := by
  refine h.live.mono hle ?_
  rw [capacity]
  omega

theorem Holds.split (h : Holds m v xs) (hi : i ≤ xs.length) :
    m.Reads v.start (xs.take i) ∧ m.Reads (v.start + i) (xs.drop i) := by
  have hreads := h.reads
  rw [← List.take_append_drop i xs, RawMemory.reads_append, List.length_take,
    Nat.min_eq_left hi] at hreads
  exact hreads

theorem holds_new (h : m.Bounded) : Holds m new [] where
  bounded := h
  finish := rfl
  room := le_rfl
  live := fun y _ hlt => absurd hlt (Nat.not_lt_zero y)
  below := Nat.zero_le _
  reads := RawMemory.reads_nil m 0

/-- The elements from index `i` on are written anew. -/
theorem Holds.overwrite (h : Holds m v xs) (hi : i ≤ xs.length)
    (hfits : v.start + i + ys.length ≤ v.endOfStorage) :
    Holds (m.write (v.start + i) ys) { v with finish := v.start + i + ys.length }
      (xs.take i ++ ys) where
  bounded := h.bounded
  finish := by
    show v.start + i + ys.length = v.start + (xs.take i ++ ys).length
    rw [List.length_append, List.length_take, Nat.min_eq_left hi, Nat.add_assoc]
  room := hfits
  live := h.live
  below := h.below
  reads := by
    rw [RawMemory.reads_append, List.length_take, Nat.min_eq_left hi]
    refine ⟨(h.split hi).1.write (.inl ?_), RawMemory.reads_write m _ ys⟩
    rw [List.length_take, Nat.min_eq_left hi]

/-- Elements at the end are destroyed. -/
theorem Holds.truncate (h : Holds m v xs) (hi : i ≤ xs.length) :
    Holds (m.destroy (v.start + i) (xs.length - i)) { v with finish := v.start + i }
      (xs.take i) where
  bounded := h.bounded
  finish := by
    show v.start + i = v.start + (xs.take i).length
    rw [List.length_take, Nat.min_eq_left hi]
  room := by
    have hfits := h.length_le
    show v.start + i ≤ v.endOfStorage
    omega
  live := h.live
  below := h.below
  reads := (h.split hi).1.destroy (.inr (by rw [List.length_take, Nat.min_eq_left hi]))

/-- The elements stand in a new block. -/
theorem holds_placed (hfresh : m.Fresh m₁ p n) (hys : ys.length ≤ e) (he : e ≤ n) :
    Holds (m₁.write p ys) ⟨p, p + ys.length, p + e⟩ ys where
  bounded := hfresh.bounded
  finish := rfl
  room := Nat.add_le_add_left hys p
  live := by
    refine hfresh.live.mono le_rfl (Nat.add_le_add_left ?_ p)
    rw [capacity, Nat.add_sub_cancel_left]
    exact he
  below := (Nat.add_le_add_left he p).trans hfresh.fits
  reads := RawMemory.reads_write m₁ p ys

/-- The old block goes, and the elements of the new one stay. -/
theorem Holds.deallocate (h : Holds m v xs) (hfresh : m.Fresh m₁ p n) (hm' : m'.extent = m₁.extent)
    (hp : v'.start = p) (hcapacity : v'.capacity ≤ n) (h' : Holds m' v' ys) :
    Holds (Allocator.deallocate m' v.start v.capacity) v' ys := by
  unfold Allocator.deallocate
  split_ifs with hzero
  · exact ⟨h'.bounded, h'.finish, h'.room, h'.live, h'.below, h'.reads⟩
  · refine ⟨h'.bounded.deallocate _ _, h'.finish, h'.room, ?_, h'.below, h'.reads⟩
    have hroom := h.room
    have hfinish := h.finish
    have hbelow := h.below
    have hstart : v.start < m.top := by
      rw [capacity] at hzero
      omega
    have hextent : v.start + m'.extent v.start ≤ m.top := by
      rw [hm', hfresh.extent _ hstart]
      by_cases hnone : m.extent v.start = 0
      · omega
      · exact h.bounded _ hnone
    rcases hfresh.apart with ⟨-, rfl⟩ | hapart
    · intro y hle hlt
      omega
    · exact h'.live.deallocate (by omega) v.capacity

theorem Holds.relocate (h : Holds m v xs) (hfresh : m.Fresh m₁ p n) (hys : ys.length ≤ e)
    (he : e ≤ n) :
    Holds (destroyAndDeallocateAll (m₁.write p ys) v) ⟨p, p + ys.length, p + e⟩ ys := by
  have hplaced : Holds (m₁.write p ys) ⟨p, p + ys.length, p + e⟩ ys := holds_placed hfresh hys he
  have hcapacity : (⟨p, p + ys.length, p + e⟩ : Vector).capacity ≤ n := by
    rw [capacity, Nat.add_sub_cancel_left]
    exact he
  unfold destroyAndDeallocateAll
  split_ifs
  · have hapart := hfresh.apart
    have hfits := h.length_le
    have hbelow := h.below
    have hsize := h.size
    have hdestroyed : Holds ((m₁.write p ys).destroy v.start v.size)
        ⟨p, p + ys.length, p + e⟩ ys :=
      ⟨hplaced.bounded, hplaced.finish, hplaced.room, hplaced.live, hplaced.below,
        hplaced.reads.destroy (by simp only; omega)⟩
    exact h.deallocate hfresh rfl rfl hcapacity hdestroyed
  · exact hplaced

/-! The operations, none of which writes outside the storage of its result. -/

def Yields (m : RawMemory T) (r : Option (RawMemory T × Vector)) (ys : List T) : Prop :=
  ∃ m' v', r = some (m', v') ∧ Holds m' v' ys ∧
    ∀ y, m'.written y = true → m.written y = true ∨ v'.start ≤ y ∧ y < v'.endOfStorage

theorem Holds.yields (h : Holds m' v' ys) (hwritten : m'.written = m.written) :
    Yields m (some (m', v')) ys :=
  ⟨m', v', rfl, h, fun _ hy => .inl (hwritten ▸ hy)⟩

theorem written_write {y : Nat} (h : (m.write p ys).written y = true) :
    m.written y = true ∨ p ≤ y ∧ y < p + ys.length := by
  by_cases hy : p ≤ y ∧ y < p + ys.length
  · exact .inr hy
  · exact .inl ((if_neg hy).symm.trans h)

theorem destroyAndDeallocateAll_written (m : RawMemory T) (v : Vector) :
    (destroyAndDeallocateAll m v).written = m.written := by
  unfold destroyAndDeallocateAll Allocator.deallocate
  split_ifs <;> rfl

theorem Holds.overwrite_yields (h : Holds m v xs) (ys : List T) (hi : i ≤ xs.length)
    (hfits : v.start + i + ys.length ≤ v.endOfStorage) :
    Yields m (some (m.write (v.start + i) ys, { v with finish := v.start + i + ys.length }))
      (xs.take i ++ ys) := by
  refine ⟨_, _, rfl, h.overwrite hi hfits, fun y hy => ?_⟩
  refine (written_write hy).imp_right fun hnew => ?_
  show v.start ≤ y ∧ y < v.endOfStorage
  omega

theorem Holds.relocate_yields (h : Holds m v xs) (ys : List T) (hfresh : m.Fresh m₁ p n)
    (hys : ys.length ≤ e) (he : e ≤ n) :
    Yields m (some (destroyAndDeallocateAll (m₁.write p ys) v, ⟨p, p + ys.length, p + e⟩)) ys := by
  refine ⟨_, _, rfl, h.relocate hfresh hys he, fun y hy => ?_⟩
  rw [destroyAndDeallocateAll_written] at hy
  rw [← hfresh.written]
  refine (written_write hy).imp_right fun hnew => ?_
  show p ≤ y ∧ y < p + e
  omega

/-- The elements in front of an index are copied to a new block. -/
theorem Holds.copy_front (h : Holds m v xs) (hfresh : m.Fresh m₁ p n) (hi : i ≤ xs.length)
    (hn : i ≤ n) :
    uninitializedCopy m₁ v.start (v.start + i) p = some (m₁.write p (xs.take i), p + i) := by
  have hlength : (xs.take i).length = i := by rw [List.length_take, Nat.min_eq_left hi]
  have hfits := h.length_le
  have hbelow := h.below
  have hapart := hfresh.apart
  have hreads := hfresh.oldReads (by omega) (h.split hi).1
  have hsrc := hfresh.oldLive (h.liveAt (n := i) le_rfl (by omega))
  have hdst : m₁.Live p i := hfresh.live.mono le_rfl (Nat.add_le_add_left hn p)
  rw [← hlength] at hsrc hdst
  rw [uninitializedCopy_eq hreads (by omega) hsrc hdst (by omega), hlength]

/-- The elements from an index on are copied behind those that are there. -/
theorem Holds.copy_rest (h : Holds m v xs) (ys : List T) (hfresh : m.Fresh m₁ p n) (hi : i ≤ xs.length)
    (hn : ys.length + (xs.length - i) ≤ n) :
    uninitializedCopy (m₁.write p ys) (v.start + i) v.finish (p + ys.length) =
      some (m₁.write p (ys ++ xs.drop i), p + (ys ++ xs.drop i).length) := by
  have hlength : (xs.drop i).length = xs.length - i := List.length_drop
  have hfits := h.length_le
  have hbelow := h.below
  have hfinish := h.finish
  have hapart := hfresh.apart
  have hreads : (m₁.write p ys).Reads (v.start + i) (xs.drop i) :=
    (hfresh.oldReads (by omega) (h.split hi).2).write (by omega)
  have hsrc : (m₁.write p ys).Live (v.start + i) (xs.drop i).length :=
    hfresh.oldLive (h.liveAt (by omega) (by omega))
  have hdst : (m₁.write p ys).Live (p + ys.length) (xs.drop i).length :=
    hfresh.live.mono (Nat.le_add_right _ _) (by omega)
  rw [uninitializedCopy_eq hreads (by omega) hsrc hdst (by omega), RawMemory.write_write,
    List.length_append, Nat.add_assoc]

theorem Holds.copy_all (h : Holds m v xs) (hfresh : m.Fresh m₁ p n) (hn : xs.length ≤ n) :
    uninitializedCopy m₁ v.start v.finish p = some (m₁.write p xs, p + xs.length) := by
  rw [h.finish, h.copy_front hfresh le_rfl hn, List.take_length]

variable {overload : Overload T} {val : T}

theorem le_getNewCapacity (h : Holds m v xs) (len : Nat) :
    xs.length + len ≤ v.getNewCapacity len ∧ v.capacity ≤ v.getNewCapacity len := by
  have hfits := h.length_le
  unfold getNewCapacity capacity
  split_ifs <;> omega

theorem Holds.resize (h : Holds m v xs) (hstored : xs.length < n → overload.stored val = val) :
    Yields m (v.resize overload m n val) (xs.take n ++ List.replicate (n - xs.length) val) := by
  have hsize := h.size
  have hfinish := h.finish
  have hfits := h.length_le
  rw [Vector.resize, hsize]
  split_ifs with hless hroom hmore
  · have hlength : v.finish - (v.start + n) = xs.length - n := by omega
    rw [hlength, Nat.sub_eq_zero_of_le hless.le, List.replicate_zero, List.append_nil]
    exact (h.truncate hless.le).yields rfl
  · have hlive : m.Live v.finish (n - xs.length) := h.liveAt (by omega) (by
      rw [capacity] at hroom
      omega)
    have hover := h.overwrite_yields (List.replicate (n - xs.length) val) le_rfl (by
      rw [List.length_replicate]
      rw [capacity] at hroom
      omega)
    rw [List.length_replicate, ← hfinish, List.take_length] at hover
    rw [uninitializedFillN_eq (hstored hroom.1) hlive, List.take_of_length_le hroom.1.le]
    exact hover
  · have hlonger : xs.length < n := by
      rw [capacity] at hmore
      omega
    have hcapacity := le_getNewCapacity h (n - xs.length)
    have hfresh := allocate_fresh h.bounded (v.getNewCapacity (n - xs.length))
    generalize allocate m (v.getNewCapacity (n - xs.length)) = r at hfresh
    have hlive : (r.1.write r.2 xs).Live (r.2 + xs.length) (n - xs.length) :=
      hfresh.live.mono (Nat.le_add_right _ _) (by omega)
    have hmoved := h.relocate_yields (xs ++ List.replicate (n - xs.length) val) (e := n)
      hfresh (by rw [List.length_append, List.length_replicate]; omega) (by omega)
    rw [List.length_append, List.length_replicate, ← Nat.add_assoc,
      ← RawMemory.write_write] at hmoved
    simp only [h.copy_all hfresh (by omega), uninitializedFillN_eq (hstored hlonger) hlive,
      Option.bind_eq_bind, Option.bind_some]
    rw [List.take_of_length_le hlonger.le]
    exact hmoved
  · have hsame : n = xs.length := by
      rw [capacity] at hroom hmore
      omega
    rw [hsame, Nat.sub_self, List.take_length, List.replicate_zero, List.append_nil]
    exact h.yields rfl

theorem Holds.reserve (h : Holds m v xs) (n : Nat) : Yields m (v.reserve m n) xs := by
  have hfits := h.length_le
  rw [Vector.reserve]
  split_ifs with hroom
  · exact h.yields rfl
  · have hn : xs.length ≤ n := by
      rw [capacity] at hroom
      omega
    have hfresh := allocate_fresh h.bounded n
    generalize allocate m n = r at hfresh
    simp only [h.copy_all hfresh hn, Option.bind_eq_bind, Option.bind_some]
    exact h.relocate_yields xs hfresh hn le_rfl

theorem Holds.shrinkToFit (h : Holds m v xs) : Yields m (v.shrinkToFit m) xs := by
  have hfresh := allocate_fresh h.bounded v.size
  have hsize := h.size
  rw [Vector.shrinkToFit]
  generalize allocate m v.size = r at hfresh
  simp only [h.copy_all hfresh hsize.ge, Option.bind_eq_bind, Option.bind_some]
  have hplaced := holds_placed (e := xs.length) hfresh le_rfl hsize.ge
  refine ⟨_, _, rfl, h.deallocate hfresh rfl rfl ?_ hplaced, fun y hy => ?_⟩
  · rw [capacity, Nat.add_sub_cancel_left]
    exact hsize.ge
  · have hsame (k : Nat) : (Allocator.deallocate (r.1.write r.2 xs) v.start k).written =
        (r.1.write r.2 xs).written := by
      unfold Allocator.deallocate
      split_ifs <;> rfl
    rw [hsame] at hy
    rw [← hfresh.written]
    exact written_write hy

theorem Holds.erase {j : Nat} (h : Holds m v xs) (hij : i ≤ j) (hj : j ≤ xs.length) :
    Yields m (v.erase m (v.start + i) (v.start + j)) (xs.take i ++ xs.drop j) := by
  have hfinish := h.finish
  have hfits := h.length_le
  have hlength : (xs.drop j).length = xs.length - j := List.length_drop
  have hsrc : m.Live (v.start + j) (xs.drop j).length := h.liveAt (by omega) (by omega)
  have hdst : m.Live (v.start + i) (xs.drop j).length := h.liveAt (by omega) (by omega)
  have hcopy := RawMemory.copyForward_eq (h.split hj).2 hsrc hdst (.inl (by omega))
  have htail : v.finish - (v.start + j) = (xs.drop j).length := by omega
  have hfront : v.start + j - (v.start + j - (v.start + i)) = v.start + i := by omega
  have hend : v.finish - (v.start + j - (v.start + i)) =
      v.start + i + (xs.drop j).length := by omega
  have hlast : ¬v.finish < v.start + j := by omega
  rw [Vector.erase, if_neg hlast]
  simp only [htail, hfront, hend, hcopy, Option.bind_eq_bind, Option.bind_some]
  exact h.overwrite_yields (xs.drop j) (hij.trans hj) (by omega)

/-- With room, the elements behind the position are written after the new ones. -/
theorem Holds.insert_yields (h : Holds m v xs) (ys : List T) (hi : i ≤ xs.length)
    (hroom : ys.length ≤ v.endOfStorage - v.finish) :
    Yields m (some (m.write (v.start + i) (ys ++ xs.drop i),
      { v with finish := v.finish + ys.length })) (xs.take i ++ ys ++ xs.drop i) := by
  have hfinish := h.finish
  have hfits := h.room
  have hlength : (ys ++ xs.drop i).length = ys.length + (xs.length - i) := by
    rw [List.length_append, List.length_drop]
  have hend : v.start + i + (ys ++ xs.drop i).length = v.finish + ys.length := by omega
  have hover := h.overwrite_yields (ys ++ xs.drop i) hi (by omega)
  rwa [hend, ← List.append_assoc] at hover

/-- The path of a tail longer than the range. -/
theorem Holds.insertRange_long (h : Holds m v xs) (hi : i ≤ xs.length)
    (hroom : ys.length ≤ v.endOfStorage - v.finish)
    (htail : v.finish - (v.start + i) > ys.length) :
    Yields m (v.insertRange m (v.start + i) ys) (xs.take i ++ ys ++ xs.drop i) := by
  have hfinish := h.finish
  have hfits := h.room
  -- the tail is `front ++ back`, where `back` is as long as the range
  obtain ⟨front, hfront⟩ : ∃ front, front = (xs.drop i).take (xs.length - i - ys.length) := ⟨_, rfl⟩
  obtain ⟨back, hback⟩ : ∃ back, back = (xs.drop i).drop (xs.length - i - ys.length) := ⟨_, rfl⟩
  have htails : front ++ back = xs.drop i := by rw [hfront, hback, List.take_append_drop]
  have hfrontLength : front.length = xs.length - i - ys.length := by
    rw [hfront, List.length_take, List.length_drop]
    omega
  have hbackLength : back.length = ys.length := by
    rw [hback, List.length_drop, List.length_drop]
    omega
  have hreads := (h.split hi).2
  rw [← htails, RawMemory.reads_append] at hreads
  have hbackStart : v.start + i + front.length = v.finish - ys.length := by omega
  rw [hbackStart] at hreads
  have hcopy : uninitializedCopy m (v.finish - ys.length) v.finish v.finish =
      some (m.write v.finish back, v.finish + back.length) :=
    uninitializedCopy_eq hreads.2 (by omega) (h.liveAt (by omega) (by omega))
      (h.liveAt (by omega) (by omega)) (.inr le_rfl)
  have hmoved : (m.write v.finish back).copyBackward (v.start + i) (v.start + i + ys.length)
      (v.finish - (v.start + i) - ys.length) =
        some (m.write (v.start + i + ys.length) (front ++ back)) := by
    have hsrc : (m.write v.finish back).Live (v.start + i) front.length :=
      h.liveAt (by omega) (by omega)
    have hdst : (m.write v.finish back).Live (v.start + i + ys.length) front.length :=
      h.liveAt (by omega) (by omega)
    have hfrontReads : (m.write v.finish back).Reads (v.start + i) front :=
      hreads.1.write (.inl (by omega))
    have hback := RawMemory.copyBackward_eq hfrontReads hsrc hdst (.inl (by omega))
    have hend : v.finish = v.start + i + ys.length + front.length := by omega
    have hsteps : v.finish - (v.start + i) - ys.length = front.length := by omega
    rw [hsteps, hback, ← RawMemory.write_write_front, ← hend]
  have hstore : (m.write (v.start + i + ys.length) (front ++ back)).storeList (v.start + i) ys =
      some (m.write (v.start + i) (ys ++ (front ++ back))) := by
    have hlive : (m.write (v.start + i + ys.length) (front ++ back)).Live (v.start + i)
      ys.length := h.liveAt (by omega) (by omega)
    rw [RawMemory.storeList_eq hlive, RawMemory.write_write_front]
  rw [Vector.insertRange]
  simp only [ge_iff_le, if_pos hroom, if_pos htail, hcopy, hmoved, hstore, Option.bind_eq_bind,
    Option.bind_some]
  rw [htails]
  exact h.insert_yields ys hi hroom

/-- The path of a tail that is not longer. -/
theorem Holds.insertRange_short (h : Holds m v xs) (hi : i ≤ xs.length)
    (hroom : ys.length ≤ v.endOfStorage - v.finish)
    (htail : ¬v.finish - (v.start + i) > ys.length) :
    Yields m (v.insertRange m (v.start + i) ys) (xs.take i ++ ys ++ xs.drop i) := by
  have hfinish := h.finish
  have hfits := h.room
  have hdropped : (xs.drop i).length = xs.length - i := List.length_drop
  have htails : v.finish - (v.start + i) = xs.length - i := by omega
  have hfront : (ys.take (xs.length - i)).length = xs.length - i := by
    rw [List.length_take]
    omega
  have hback : (ys.drop (xs.length - i)).length = ys.length - (xs.length - i) := List.length_drop
  have hend : v.finish = v.start + i + (ys.take (xs.length - i)).length := by omega
  have hstoreBack : m.storeList v.finish (ys.drop (xs.length - i)) =
      some (m.write v.finish (ys.drop (xs.length - i))) :=
    RawMemory.storeList_eq (h.liveAt (by omega) (by omega))
  have hcopy : uninitializedCopy (m.write v.finish (ys.drop (xs.length - i))) (v.start + i) v.finish
      (v.finish + (ys.drop (xs.length - i)).length) =
        some (m.write v.finish (ys.drop (xs.length - i) ++ xs.drop i),
          v.finish + (ys.drop (xs.length - i)).length + (xs.drop i).length) := by
    have hsrc : (m.write v.finish (ys.drop (xs.length - i))).Live (v.start + i)
      (xs.drop i).length := h.liveAt (by omega) (by omega)
    have hdst : (m.write v.finish (ys.drop (xs.length - i))).Live
      (v.finish + (ys.drop (xs.length - i)).length) (xs.drop i).length :=
        h.liveAt (by omega) (by omega)
    rw [uninitializedCopy_eq ((h.split hi).2.write (.inl (by omega))) (by omega) hsrc hdst
      (.inr (by omega)), RawMemory.write_write]
  have hstoreFront : (m.write v.finish (ys.drop (xs.length - i) ++ xs.drop i)).storeList
      (v.start + i) (ys.take (xs.length - i)) =
        some (m.write (v.start + i) (ys ++ xs.drop i)) := by
    have hlive : (m.write v.finish (ys.drop (xs.length - i) ++ xs.drop i)).Live (v.start + i)
      (ys.take (xs.length - i)).length := h.liveAt (by omega) (by omega)
    rw [RawMemory.storeList_eq hlive, hend, RawMemory.write_write_front, ← List.append_assoc,
      List.take_append_drop]
  rw [htails] at htail
  rw [Vector.insertRange]
  simp only [ge_iff_le, if_pos hroom, htails, if_neg htail, hstoreBack, hcopy, hstoreFront,
    Option.bind_eq_bind, Option.bind_some]
  exact h.insert_yields ys hi hroom

theorem Holds.reallocateAndCopy (h : Holds m v xs) (hi : i ≤ xs.length) :
    Yields m (v.reallocateAndCopy m (v.start + i) ys) (xs.take i ++ ys ++ xs.drop i) := by
  have hcapacity := le_getNewCapacity h ys.length
  have hlength : (xs.take i).length = i := by rw [List.length_take, Nat.min_eq_left hi]
  have hfront : (xs.take i ++ ys).length = i + ys.length := by rw [List.length_append, hlength]
  have htotal : (xs.take i ++ ys ++ xs.drop i).length = xs.length + ys.length := by
    rw [List.length_append, hfront, List.length_drop]
    omega
  have hfresh := allocate_fresh h.bounded (v.getNewCapacity ys.length)
  rw [Vector.reallocateAndCopy]
  generalize allocate m (v.getNewCapacity ys.length) = r at hfresh
  have hstore : (r.1.write r.2 (xs.take i)).storeList (r.2 + i) ys =
      some (r.1.write r.2 (xs.take i ++ ys)) := by
    have hlive : (r.1.write r.2 (xs.take i)).Live (r.2 + i) ys.length :=
      hfresh.live.mono (Nat.le_add_right _ _) (by omega)
    have hwrite := RawMemory.write_write r.1 r.2 (xs.take i) ys
    rw [hlength] at hwrite
    rw [RawMemory.storeList_eq hlive, hwrite]
  have hrest := h.copy_rest (xs.take i ++ ys) hfresh hi (by omega)
  rw [hfront, ← Nat.add_assoc] at hrest
  simp only [h.copy_front hfresh hi (by omega), hstore, hrest, Option.bind_eq_bind,
    Option.bind_some]
  exact h.relocate_yields _ hfresh (by omega) le_rfl

theorem Holds.insertRange (h : Holds m v xs) (hi : i ≤ xs.length) :
    Yields m (v.insertRange m (v.start + i) ys) (xs.take i ++ ys ++ xs.drop i) := by
  by_cases hroom : ys.length ≤ v.endOfStorage - v.finish
  · by_cases htail : v.finish - (v.start + i) > ys.length
    · exact h.insertRange_long hi hroom htail
    · exact h.insertRange_short hi hroom htail
  · rw [Vector.insertRange]
    simp only [ge_iff_le, if_neg hroom]
    exact h.reallocateAndCopy hi

theorem reallocateAndFillN_eq (hstored : overload.stored val = val) (position : Nat) :
    v.reallocateAndFillN overload m position n val =
      v.reallocateAndCopy m position (List.replicate n val) := by
  simp [Vector.reallocateAndFillN, Vector.reallocateAndCopy, uninitializedFillN, RawMemory.fill,
    hstored, Option.bind_assoc]

/-- With room, the loop from `end() - 1` down moves the elements behind the position. -/
theorem Holds.moveTail (h : Holds m v xs) (hi : i ≤ xs.length)
    (hroom : n ≤ v.endOfStorage - v.finish) :
    m.copyBackward (v.start + i) (v.start + i + n) (v.finish - (v.start + i)) =
      some (m.write (v.start + i + n) (xs.drop i)) := by
  have hfinish := h.finish
  have hfits := h.room
  have hlength : (xs.drop i).length = xs.length - i := List.length_drop
  have hsteps : v.finish - (v.start + i) = (xs.drop i).length := by omega
  rw [hsteps]
  exact RawMemory.copyBackward_eq (h.split hi).2 (h.liveAt (by omega) (by omega))
    (h.liveAt (by omega) (by omega)) (.inl (by omega))

theorem Holds.insertFill (h : Holds m v xs) (hi : i ≤ xs.length) (hn : n ≠ 0)
    (hstored : overload.stored val = val) :
    Yields m (v.insertFill overload m (v.start + i) n val)
      (xs.take i ++ List.replicate n val ++ xs.drop i) := by
  rw [Vector.insertFill, if_neg hn]
  by_cases hroom : n ≤ v.endOfStorage - v.finish
  · have hfinish := h.finish
    have hfits := h.room
    have hcount : (List.replicate n val).length = n := List.length_replicate
    have hfill : uninitializedFillN overload (m.write (v.start + i + n) (xs.drop i))
        (v.start + i) n val =
          some (m.write (v.start + i) (List.replicate n val ++ xs.drop i), v.start + i + n) := by
      have hlive : (m.write (v.start + i + n) (xs.drop i)).Live (v.start + i) n :=
        h.liveAt (by omega) (by omega)
      have hwrite := RawMemory.write_write_front m (v.start + i) (List.replicate n val) (xs.drop i)
      rw [hcount] at hwrite
      rw [uninitializedFillN_eq hstored hlive, hwrite]
    have hyields := h.insert_yields (List.replicate n val) hi (hcount.symm ▸ hroom)
    rw [hcount] at hyields
    simp only [ge_iff_le, if_pos hroom, h.moveTail hi hroom, hfill, Option.bind_eq_bind,
      Option.bind_some]
    exact hyields
  · simp only [ge_iff_le, if_neg hroom]
    rw [reallocateAndFillN_eq hstored]
    exact h.reallocateAndCopy hi

theorem Holds.pushBack (h : Holds m v xs) (hstored : overload.stored val = val) :
    Yields m (v.pushBack overload m val) (xs ++ [val]) := by
  have hinsert := h.insertFill (n := 1) le_rfl Nat.one_ne_zero hstored
  rwa [← h.finish, List.take_length, List.drop_length, List.append_nil] at hinsert

theorem Holds.popBack (h : Holds m v xs) (hne : xs ≠ []) :
    Yields m (some (v.popBack m)) xs.dropLast := by
  have hpos := List.length_pos_iff.mpr hne
  have hfinish := h.finish
  have hlast : v.finish - 1 = v.start + (xs.length - 1) := by omega
  have hone : xs.length - (xs.length - 1) = 1 := by omega
  have htruncated := h.truncate (i := xs.length - 1) (Nat.sub_le _ _)
  rw [hone] at htruncated
  rw [Vector.popBack, hlast, List.dropLast_eq_take]
  exact htruncated.yields rfl

theorem Holds.clear (h : Holds m v xs) : Yields m (some (v.clear m)) [] := by
  have htruncated := h.truncate (Nat.zero_le _)
  rw [Vector.clear, h.size]
  exact htruncated.yields rfl

/-! Runs. -/

inductive Init (T : Type) where
  | default
  | fillN (n : Nat) (value : T)
  | copy (xs : List T)

def construct (overload : Overload T) (m : RawMemory T) : Init T → Option (RawMemory T × Vector)
  | .default => some (m, new)
  | .fillN n value => allocateAndFillN overload m n value
  | .copy xs => allocateAndCopy m xs

def Init.contents : Init T → List T
  | .default => []
  | .fillN n value => List.replicate n value
  | .copy xs => xs

def Init.Kept (overload : Overload T) : Init T → Prop
  | .default | .copy _ => True
  | .fillN _ value => overload.stored value = value

inductive Op (T : Type) where
  | pushBack (val : T)
  | popBack
  | insertFill (i n : Nat) (val : T)
  | insertRange (i : Nat) (xs : List T)
  | erase (i j : Nat)
  | resize (n : Nat) (val : T)
  | reserve (n : Nat)
  | shrinkToFit
  | clear

def step (overload : Overload T) : RawMemory T × Vector → Op T → Option (RawMemory T × Vector)
  | (m, v), .pushBack val => v.pushBack overload m val
  | (m, v), .popBack => some (v.popBack m)
  | (m, v), .insertFill i n val => v.insertFill overload m (v.start + i) n val
  | (m, v), .insertRange i xs => v.insertRange m (v.start + i) xs
  | (m, v), .erase i j => v.erase m (v.start + i) (v.start + j)
  | (m, v), .resize n val => v.resize overload m n val
  | (m, v), .reserve n => v.reserve m n
  | (m, v), .shrinkToFit => v.shrinkToFit m
  | (m, v), .clear => some (v.clear m)

def Op.apply (xs : List T) : Op T → List T
  | .pushBack val => xs ++ [val]
  | .popBack => xs.dropLast
  | .insertFill i n val => xs.take i ++ List.replicate n val ++ xs.drop i
  | .insertRange i ys => xs.take i ++ ys ++ xs.drop i
  | .erase i j => xs.take i ++ xs.drop j
  | .resize n val => xs.take n ++ List.replicate (n - xs.length) val
  | .reserve _ | .shrinkToFit => xs
  | .clear => []

/-- The positions are those of elements, or the end. -/
def Op.Valid (xs : List T) : Op T → Prop
  | .popBack => xs ≠ []
  | .insertFill i n _ => i ≤ xs.length ∧ n ≠ 0
  | .insertRange i _ => i ≤ xs.length
  | .erase i j => i ≤ j ∧ j ≤ xs.length
  | _ => True

/-- `fill_n` stores the value that it is given. -/
def Op.Kept (overload : Overload T) (xs : List T) : Op T → Prop
  | .pushBack val | .insertFill _ _ val => overload.stored val = val
  | .resize n val => xs.length < n → overload.stored val = val
  | _ => True

theorem construct_yields (h : m.Bounded) {init : Init T} (hinit : init.Kept overload) :
    Yields m (construct overload m init) init.contents := by
  have hempty : Holds m new [] := holds_new h
  cases init with
  | default => exact hempty.yields rfl
  | fillN n value =>
      have hfresh := allocate_fresh h n
      rw [construct, allocateAndFillN]
      generalize allocate m n = r at hfresh
      have hplaced := hempty.relocate_yields (List.replicate n value) (e := n) hfresh
        List.length_replicate.le le_rfl
      rw [List.length_replicate] at hplaced
      simp only [uninitializedFillN_eq hinit hfresh.live, Option.bind_eq_bind, Option.bind_some]
      exact hplaced
  | copy xs =>
      have hfresh := allocate_fresh h xs.length
      rw [construct, allocateAndCopy]
      generalize allocate m xs.length = r at hfresh
      simp only [RawMemory.storeList_eq hfresh.live, Option.bind_eq_bind, Option.bind_some]
      exact hempty.relocate_yields xs hfresh le_rfl le_rfl

theorem Holds.step (h : Holds m v xs) (op : Op T) (hvalid : op.Valid xs)
    (hkept : op.Kept overload xs) : Yields m (step overload (m, v) op) (op.apply xs) := by
  cases op with
  | pushBack val => exact h.pushBack hkept
  | popBack => exact h.popBack hvalid
  | insertFill i n val => exact h.insertFill hvalid.1 hvalid.2 hkept
  | insertRange i ys => exact h.insertRange hvalid
  | erase i j => exact h.erase hvalid.1 hvalid.2
  | resize n val => exact h.resize hkept
  | reserve n => exact h.reserve n
  | shrinkToFit => exact h.shrinkToFit
  | clear => exact h.clear

structure Shows (m : RawMemory T) (v : Vector) (xs : List T) : Prop where
  start : v.start ≤ v.finish
  finish : v.finish ≤ v.endOfStorage
  size : v.size = xs.length
  elements : ∀ i < xs.length, at? m v i = xs[i]?

/-- What is written is written inside the storage. -/
def Sound (m : RawMemory T) (r : Option (RawMemory T × Vector)) (xs : List T) : Prop :=
  ∃ m' v', r = some (m', v') ∧ Shows m' v' xs ∧
    ∀ y, m'.written y = true → m.written y = true ∨ v'.start ≤ y ∧ y < v'.endOfStorage

theorem Holds.shows (h : Holds m v xs) : Shows m v xs where
  start := h.finish ▸ Nat.le_add_right _ _
  finish := h.room
  size := h.size
  elements := by
    intro i hi
    have hfits := h.length_le
    have hlive := h.liveAt (p := v.start + i) (n := 1) (Nat.le_add_right _ _) (by omega)
    rw [at?, RawMemory.load, if_pos (hlive _ le_rfl (Nat.lt_succ_self _))]
    exact h.reads i hi

theorem Yields.sound {r : Option (RawMemory T × Vector)} (h : Yields m r xs) : Sound m r xs := by
  obtain ⟨m', v', hr, hholds, hinside⟩ := h
  exact ⟨m', v', hr, hholds.shows, hinside⟩

end Vector

end RebuildTheWheel.TinySTL
