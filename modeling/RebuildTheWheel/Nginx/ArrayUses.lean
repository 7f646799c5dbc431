import RebuildTheWheel.Nginx.Palloc

namespace RebuildTheWheel.Nginx

open Data Block NgxPool

/-! Arrays that grow in a pool beside other allocations. -/

/-- An array with the values that have been written to its elements. -/
structure ArrayUse where
  array : NgxArray
  values : List (Option Bytes)

namespace ArrayUse

/-- The memory for the elements. -/
def elements (a : ArrayUse) : Block := ⟨a.array.elts, a.array.nalloc * a.array.size⟩

/-- The memory that an array has. -/
def blocks (a : ArrayUse) : List Block := [a.elements, ⟨a.array.addr, NgxArray.arraySize⟩]

/-- The place of an element. -/
def place (a : ArrayUse) (k : Nat) : Nat := a.array.elts + a.array.size * k

structure Sound (memory : Memory) (a : ArrayUse) : Prop where
  size : 0 < a.array.size
  nalloc : 0 < a.array.nalloc
  nelts : a.array.nelts = a.values.length
  room : a.array.nelts ≤ a.array.nalloc
  dvd : alignment ∣ a.array.addr ∧ alignment ∣ a.array.elts
  holds : ∀ k value, a.values[k]? = some (some value) →
    value.length = a.array.size ∧ memory.read (a.place k) a.array.size = value

variable {a : ArrayUse} {memory memory' : Memory} {k : Nat}

theorem place_within (a : ArrayUse) (hk : k < a.array.nalloc) :
    Within ⟨a.place k, a.array.size⟩ a.elements := by
  refine ⟨Nat.le_add_right _ _, ?_⟩
  have hle : (k + 1) * a.array.size ≤ a.array.nalloc * a.array.size := Nat.mul_le_mul_right _ hk
  rw [Nat.succ_mul, Nat.mul_comm k] at hle
  change a.array.elts + a.array.size * k + a.array.size ≤ a.array.elts + a.array.nalloc * a.array.size
  omega

theorem place_apart {j : Nat} (a : ArrayUse) (hne : j ≠ k) :
    Apart ⟨a.place j, a.array.size⟩ ⟨a.place k, a.array.size⟩ := by
  have hsucc (i : Nat) : a.place (i + 1) = a.place i + a.array.size := by
    rw [place, place, Nat.mul_succ, Nat.add_assoc]
  have hmono {i i' : Nat} (h : i ≤ i') : a.place i ≤ a.place i' :=
    Nat.add_le_add_left (Nat.mul_le_mul_left _ h) _
  rw [Apart, Set.disjoint_left]
  intro x hx hx'
  rcases Nat.lt_or_gt_of_ne hne with hlt | hgt
  · exact absurd (Nat.lt_of_lt_of_le hx.2 (hsucc j ▸ hmono hlt)) (Nat.not_lt.mpr hx'.1)
  · exact absurd (Nat.lt_of_lt_of_le hx'.2 (hsucc k ▸ hmono hgt)) (Nat.not_lt.mpr hx.1)

/-- The values only depend on the memory of the elements. -/
theorem Sound.congr (h : a.Sound memory) (hsame : ∀ x ∈ a.elements.bytes, memory' x = memory x) :
    a.Sound memory' :=
  { h with
    holds := fun k value hvalue => by
      obtain ⟨hlength, hread⟩ := h.holds k value hvalue
      obtain ⟨hk, -⟩ := List.getElem?_eq_some_iff.mp hvalue
      have hsub := (a.place_within (Nat.lt_of_lt_of_le (h.nelts ▸ hk) h.room)).bytes_subset
      refine ⟨hlength, (Memory.read_congr fun x hlow hhigh => ?_).trans hread⟩
      exact hsame x (hsub ⟨hlow, hhigh⟩) }

/-- Bytes are written apart from the elements. -/
theorem Sound.write {p : Nat} {bytes : Bytes} (h : a.Sound memory)
    (hapart : Apart a.elements ⟨p, bytes.length⟩) : a.Sound (memory.write p bytes) := by
  refine h.congr fun x hx => Memory.write_of_outside ?_
  by_contra hinside
  refine Set.disjoint_left.mp hapart hx ?_
  simp only [Block.bytes, Set.mem_Ico]
  omega

end ArrayUse

/-- A pool that has handed out these blocks, and these arrays. -/
structure Held (psize : Nat) (pool : NgxPool) (memory : Memory) (blocks : List Block)
    (arrays : List ArrayUse) : Prop where
  pool : pool.Sound psize (blocks ++ arrays.flatMap ArrayUse.blocks)
  arrays : ∀ a ∈ arrays, a.Sound memory

namespace Held

variable {alloc : SystemAlloc} {psize n : Nat} {pool pool' : NgxPool} {memory memory' : Memory}
  {blocks : List Block} {arrays arrays' others : List ArrayUse} {a a' : ArrayUse} {b : Block}

theorem perm (h : Held psize pool memory blocks arrays) (hperm : arrays.Perm arrays') :
    Held psize pool memory blocks arrays' where
  pool := h.pool.perm ((hperm.flatMap_right _).append_left blocks)
  arrays := fun a ha => h.arrays a (hperm.mem_iff.mpr ha)

/-- The elements of one array before all other memory. -/
theorem perm_elements : (blocks ++ (a :: others).flatMap ArrayUse.blocks).Perm
    (a.elements :: (blocks ++ ⟨a.array.addr, NgxArray.arraySize⟩ :: others.flatMap ArrayUse.blocks)) := by
  rw [List.flatMap_cons]
  exact List.perm_middle

theorem front (h : Held psize pool memory blocks (a :: others)) : pool.Sound psize
    (a.elements :: (blocks ++ ⟨a.array.addr, NgxArray.arraySize⟩ :: others.flatMap ArrayUse.blocks)) :=
  h.pool.perm perm_elements

theorem back (a : ArrayUse) (h : pool.Sound psize
    (a.elements :: (blocks ++ ⟨a.array.addr, NgxArray.arraySize⟩ :: others.flatMap ArrayUse.blocks))) :
    pool.Sound psize (blocks ++ (a :: others).flatMap ArrayUse.blocks) :=
  h.perm perm_elements.symm

theorem elements_mem (ha : a ∈ arrays) : a.elements ∈ arrays.flatMap ArrayUse.blocks :=
  List.mem_flatMap.mpr ⟨a, ha, List.mem_cons_self⟩

/-- What is written to the elements of one array is not written to the others. -/
theorem write_elements {p : Nat} {bytes : Bytes} (h : Held psize pool memory blocks (a :: others))
    (hwithin : Within ⟨p, bytes.length⟩ a.elements) :
    ∀ a' ∈ others, a'.Sound (memory.write p bytes) := by
  intro a' ha'
  refine (h.arrays a' (List.mem_cons_of_mem a ha')).write ?_
  have hmem : a'.elements ∈ blocks ++ ⟨a.array.addr, NgxArray.arraySize⟩ :: others.flatMap ArrayUse.blocks :=
    List.mem_append_right _ (List.mem_cons_of_mem _ (elements_mem ha'))
  exact ((h.front.apart hmem).within hwithin).symm

/-- An element of an array is written. -/
theorem write {k : Nat} {value : Bytes} (h : Held psize pool memory blocks (a :: others))
    (hk : k < a.array.nelts) (hlength : value.length = a.array.size) :
    Held psize pool (memory.write (a.place k) value) blocks
      (⟨a.array, a.values.set k (some value)⟩ :: others) := by
  have hsound := h.arrays a List.mem_cons_self
  have hwithin : Within ⟨a.place k, value.length⟩ a.elements := by
    rw [hlength]
    exact a.place_within (Nat.lt_of_lt_of_le hk hsound.room)
  refine ⟨h.pool, fun a' ha' => ?_⟩
  rcases List.mem_cons.mp ha' with rfl | ha'
  · refine { hsound with nelts := ?_, holds := fun j value' hvalue' => ?_ }
    · rw [List.length_set]
      exact hsound.nelts
    · by_cases hj : j = k
      · subst hj
        have hj' : j < a.values.length := hsound.nelts ▸ hk
        rw [List.getElem?_set_self hj', Option.some.injEq, Option.some.injEq] at hvalue'
        subst hvalue'
        refine ⟨hlength, ?_⟩
        have hself := Memory.read_write_self memory (a.place j) value
        rwa [hlength] at hself
      · rw [List.getElem?_set_ne (Ne.symm hj)] at hvalue'
        obtain ⟨hlength', hread⟩ := hsound.holds j value' hvalue'
        refine ⟨hlength', (Memory.read_write ?_).trans hread⟩
        rw [hlength]
        exact a.place_apart hj
  · exact h.write_elements hwithin a' ha'

/-- Other memory is written. -/
theorem store {p : Nat} {bytes : Bytes} (h : Held psize pool memory blocks arrays) (hb : b ∈ blocks)
    (hwithin : Within ⟨p, bytes.length⟩ b) : Held psize pool (memory.write p bytes) blocks arrays := by
  refine ⟨h.pool, fun a ha => (h.arrays a ha).write ?_⟩
  have hseparate := (List.pairwise_append.mp h.pool.separate_live).2.1
  have hapart := (List.pairwise_append.mp hseparate).2.2 b hb _ (elements_mem ha)
  exact (hapart.within hwithin).symm

/-- The last array of the pool is made larger in place. -/
theorem growInPlace (h : Held psize pool memory blocks (a :: others))
    (hlast : a.array.lastInPool pool (n * a.array.size)) :
    Held psize (pool.setLast (pool.d.last + n * a.array.size)) memory blocks
      (⟨{ a.array with nalloc := a.array.nalloc + n }, a.values⟩ :: others) := by
  have hsound := h.arrays a List.mem_cons_self
  have hfront := h.front
  obtain ⟨hend, hroom⟩ := hlast
  rw [Nat.mul_comm] at hend
  have hextend := Sound.extend hfront (Nat.mul_pos hsound.nalloc hsound.size) hend hroom
  rw [← Nat.add_mul] at hextend
  refine ⟨back ⟨{ a.array with nalloc := a.array.nalloc + n }, a.values⟩ hextend, fun a' ha' => ?_⟩
  rcases List.mem_cons.mp ha' with rfl | ha'
  · exact { hsound with
      nalloc := Nat.add_pos_left hsound.nalloc n
      room := Nat.le_trans hsound.room (Nat.le_add_right _ n) }
  · exact h.arrays a' (List.mem_cons_of_mem a ha')

/-- The elements are copied to new memory. -/
theorem move {new nalloc kept : Nat} (h : Held psize pool memory blocks (a :: others))
    (hgives : Gives psize pool (blocks ++ (a :: others).flatMap ArrayUse.blocks) (nalloc * a.array.size) true
      (new, pool'))
    (hpos : 0 < nalloc) (hkept : a.array.nelts * a.array.size ≤ kept) (hroom : kept ≤ nalloc * a.array.size) :
    Held psize pool' (memory.copy new a.array.elts kept) blocks
      (⟨{ a.array with elts := new, nalloc := nalloc }, a.values⟩ :: others) := by
  have hsound := h.arrays a List.mem_cons_self
  have hnew := hgives.sound
  have hfront : pool'.Sound psize (⟨new, nalloc * a.array.size⟩ ::
      (blocks ++ ⟨a.array.addr, NgxArray.arraySize⟩ :: others.flatMap ArrayUse.blocks)) :=
    (hnew.perm ((perm_elements.cons _).trans (.swap _ _ _))).forget
  refine ⟨back ⟨{ a.array with elts := new, nalloc := nalloc }, a.values⟩ hfront, fun a' ha' => ?_⟩
  rcases List.mem_cons.mp ha' with rfl | ha'
  · refine { hsound with
      nalloc := hpos
      room := Nat.le_of_mul_le_mul_right (Nat.le_trans hkept hroom) hsound.size
      dvd := ⟨hsound.dvd.1, hgives.dvd rfl⟩
      holds := fun k value hvalue => ?_ }
    obtain ⟨hlength, hread⟩ := hsound.holds k value hvalue
    refine ⟨hlength, ?_⟩
    obtain ⟨hk, -⟩ := List.getElem?_eq_some_iff.mp hvalue
    have hle : (k + 1) * a.array.size ≤ a.array.nelts * a.array.size :=
      Nat.mul_le_mul_right _ (hsound.nelts ▸ hk)
    rw [Nat.succ_mul, Nat.mul_comm k] at hle
    exact (Memory.read_copy_part memory new a.array.elts (Nat.le_trans hle hkept)).trans hread
  · refine (h.arrays a' (List.mem_cons_of_mem a ha')).write ?_
    have hmem : a'.elements ∈ blocks ++ ⟨a.array.addr, NgxArray.arraySize⟩ :: others.flatMap ArrayUse.blocks :=
      List.mem_append_right _ (List.mem_cons_of_mem _ (elements_mem ha'))
    have hcopied : Within ⟨new, (memory.read a.array.elts kept).length⟩ ⟨new, nalloc * a.array.size⟩ := by
      rw [Memory.length_read]
      exact ⟨Nat.le_refl _, Nat.add_le_add_left hroom new⟩
    exact ((hfront.apart hmem).within hcopied).symm

/-- A full array gets room for more elements. -/
theorem grow (h : Held psize pool memory blocks (a :: others)) (hfresh : alloc.Fresh) {nalloc kept : Nat}
    (hpos : 0 < nalloc) (hkept : a.array.nelts * a.array.size ≤ kept)
    (hroom : kept ≤ nalloc * a.array.size) {array' : NgxArray}
    (hgrow : a.array.grow alloc pool memory n nalloc kept = (array', pool', memory')) :
    Held psize pool' memory' blocks (⟨array', a.values⟩ :: others) ∧ array'.nelts = a.array.nelts ∧
      array'.size = a.array.size ∧ (array'.nalloc = a.array.nalloc + n ∨ array'.nalloc = nalloc) := by
  rw [NgxArray.grow] at hgrow
  by_cases hlast : a.array.lastInPool pool (n * a.array.size)
  · rw [if_pos hlast] at hgrow
    simp only [Prod.mk.injEq] at hgrow
    obtain ⟨rfl, rfl, rfl⟩ := hgrow
    exact ⟨h.growInPlace hlast, rfl, rfl, .inl rfl⟩
  · rw [if_neg hlast] at hgrow
    have hgives := Sound.palloc h.pool hfresh (nalloc * a.array.size)
    cases hpalloc : pool.palloc alloc (nalloc * a.array.size) with
    | mk new pool₁ =>
        rw [hpalloc] at hgrow hgives
        simp only [Prod.mk.injEq] at hgrow
        obtain ⟨rfl, rfl, rfl⟩ := hgrow
        exact ⟨h.move hgives hpos hkept hroom, rfl, rfl, .inr rfl⟩

/-- The new elements have not been written yet. -/
theorem append (h : Held psize pool memory blocks (a :: others)) (hroom : a.array.nelts + n ≤ a.array.nalloc) :
    Held psize pool memory blocks
      (⟨{ a.array with nelts := a.array.nelts + n }, a.values ++ List.replicate n none⟩ :: others) := by
  have hsound := h.arrays a List.mem_cons_self
  refine ⟨h.pool, fun a' ha' => ?_⟩
  rcases List.mem_cons.mp ha' with rfl | ha'
  · refine { hsound with nelts := ?_, room := hroom, holds := fun k value hvalue => ?_ }
    · rw [List.length_append, List.length_replicate, ← hsound.nelts]
    · by_cases hk : k < a.values.length
      · rw [List.getElem?_append_left hk] at hvalue
        exact hsound.holds k value hvalue
      · rw [List.getElem?_append_right (Nat.not_lt.mp hk), List.getElem?_replicate] at hvalue
        split_ifs at hvalue
        exact nomatch hvalue
  · exact h.arrays a' (List.mem_cons_of_mem a ha')

theorem push (h : Held psize pool memory blocks (a :: others)) (hfresh : alloc.Fresh) {elt : Nat}
    {array' : NgxArray} (hpush : a.array.push alloc pool memory = (elt, array', pool', memory')) :
    Held psize pool' memory' blocks (⟨array', a.values ++ List.replicate 1 none⟩ :: others) ∧
      elt = array'.elts + array'.size * a.values.length ∧ array'.size = a.array.size := by
  have hsound := h.arrays a List.mem_cons_self
  have hnalloc := hsound.nalloc
  rw [NgxArray.push] at hpush
  by_cases hfull : a.array.nelts = a.array.nalloc
  · rw [if_pos hfull] at hpush
    cases hgrow : a.array.grow alloc pool memory 1 (2 * a.array.nalloc) (a.array.size * a.array.nalloc) with
    | mk array₁ found =>
        obtain ⟨pool₁, memory₁⟩ := found
        rw [hgrow] at hpush
        simp only [Prod.mk.injEq] at hpush
        obtain ⟨rfl, rfl, rfl, rfl⟩ := hpush
        have hkept : a.array.nelts * a.array.size ≤ a.array.size * a.array.nalloc := by
          rw [hfull, Nat.mul_comm]
        have hroom : a.array.size * a.array.nalloc ≤ 2 * a.array.nalloc * a.array.size := by
          rw [Nat.mul_comm]
          exact Nat.mul_le_mul_right _ (by omega)
        obtain ⟨hheld, hnelts, hsize, hmore⟩ := h.grow hfresh (by omega) hkept hroom hgrow
        refine ⟨hheld.append (n := 1) (by dsimp only; omega), ?_, hsize⟩
        rw [hnelts, hsound.nelts]
  · have hroom := hsound.room
    rw [if_neg hfull] at hpush
    simp only [Prod.mk.injEq] at hpush
    obtain ⟨rfl, rfl, rfl, rfl⟩ := hpush
    refine ⟨h.append (n := 1) (by omega), ?_, rfl⟩
    rw [hsound.nelts]

theorem pushN (h : Held psize pool memory blocks (a :: others)) (hfresh : alloc.Fresh) {elt : Nat}
    {array' : NgxArray} (hpush : a.array.pushN alloc pool memory n = (elt, array', pool', memory')) :
    Held psize pool' memory' blocks (⟨array', a.values ++ List.replicate n none⟩ :: others) ∧
      elt = array'.elts + array'.size * a.values.length ∧ array'.size = a.array.size := by
  have hsound := h.arrays a List.mem_cons_self
  have hnalloc := hsound.nalloc
  have hnelts := hsound.room
  rw [NgxArray.pushN] at hpush
  by_cases hfull : a.array.nalloc < a.array.nelts + n
  · rw [if_pos hfull] at hpush
    have hlarger : a.array.nelts + n ≤ 2 * if a.array.nalloc ≤ n then n else a.array.nalloc := by
      split_ifs <;> omega
    cases hgrow : a.array.grow alloc pool memory n (2 * if a.array.nalloc ≤ n then n else a.array.nalloc)
        (a.array.nelts * a.array.size) with
    | mk array₁ found =>
        obtain ⟨pool₁, memory₁⟩ := found
        rw [hgrow] at hpush
        simp only [Prod.mk.injEq] at hpush
        obtain ⟨rfl, rfl, rfl, rfl⟩ := hpush
        obtain ⟨hheld, hsame, hsize, hmore⟩ := h.grow hfresh (by omega) (Nat.le_refl _)
          (Nat.mul_le_mul_right _ (by omega)) hgrow
        refine ⟨hheld.append (by dsimp only; omega), ?_, hsize⟩
        rw [hsame, hsound.nelts]
  · rw [if_neg hfull] at hpush
    simp only [Prod.mk.injEq] at hpush
    obtain ⟨rfl, rfl, rfl, rfl⟩ := hpush
    refine ⟨h.append (Nat.not_lt.mp hfull), ?_, rfl⟩
    rw [hsound.nelts]

theorem create {size : Nat} (h : Held psize pool memory blocks arrays) (hfresh : alloc.Fresh) (hn : 0 < n)
    (hsize : 0 < size) {array : NgxArray} (hcreate : NgxArray.create alloc pool n size = (array, pool')) :
    Held psize pool' memory blocks (⟨array, []⟩ :: arrays) := by
  have hstruct := Sound.palloc h.pool hfresh NgxArray.arraySize
  rw [NgxArray.create] at hcreate
  cases hpalloc : pool.palloc alloc NgxArray.arraySize with
  | mk addr pool₁ =>
      rw [hpalloc] at hcreate hstruct
      have helts := Sound.palloc hstruct.sound hfresh (n * size)
      cases hpalloc' : pool₁.palloc alloc (n * size) with
      | mk elts pool₂ =>
          simp only [hpalloc'] at hcreate
          rw [hpalloc'] at helts
          simp only [Prod.mk.injEq] at hcreate
          obtain ⟨rfl, rfl⟩ := hcreate
          refine ⟨back ⟨⟨addr, elts, 0, size, n⟩, []⟩ ?_, fun a' ha' => ?_⟩
          · exact helts.sound.perm (List.perm_middle.symm.cons _)
          · rcases List.mem_cons.mp ha' with rfl | ha'
            · exact ⟨hsize, hn, rfl, Nat.zero_le _, ⟨hstruct.dvd rfl, helts.dvd rfl⟩, nofun⟩
            · exact h.arrays a' ha'

end Held

end RebuildTheWheel.Nginx
