import Mathlib.Algebra.GroupWithZero.Nat
import Mathlib.Algebra.Order.BigOperators.Group.List
import Mathlib.Algebra.Order.Group.Nat
import Mathlib.Data.List.Range
import RebuildTheWheel.Data.Memory

namespace RebuildTheWheel.TinySTL

open Data Data.Block

/-! Both allocators of the library keep sixteen free lists, for blocks of 8, 16, .., 128
bytes, and a pool they cut new blocks from. They differ in `chunk_alloc` only. Memory is
flat: the link of a free block is the word at its address. -/

def ALIGN : Nat := 8

def MAXBYTES : Nat := 128

def NFREELISTS : Nat := 16

def NOBJS : Nat := 20

/-- What `malloc` answers to a request, after the calls in the list, the last call first. -/
abbrev Malloc := List Block → Nat → Nat

structure SizeClasses where
  freeList : Nat → Nat
  next : Nat → Nat
  startFree : Nat
  endFree : Nat
  heapSize : Nat
  calls : List Block

namespace SizeClasses

def init : SizeClasses where
  freeList := fun _ => 0
  next := fun _ => 0
  startFree := 0
  endFree := 0
  heapSize := 0
  calls := []

/-- `ROUND_UP`, and `round_up`: the three low bits are cleared after the addition. -/
def roundUp (bytes : Nat) : Nat := (bytes + ALIGN - 1) / ALIGN * ALIGN

/-- `FREELIST_INDEX`, and `free_list_index`, in the arithmetic of `size_t`. -/
def freeListIndex (bytes : Nat) : Nat := ((bytes + ALIGN - 1) / ALIGN + (2 ^ 64 - 1)) % 2 ^ 64

/-- A read of `free_list[i]`, which has no result beyond the array. -/
def loadFree (s : SizeClasses) (i : Nat) : Option Nat :=
  if i < NFREELISTS then some (s.freeList i) else none

def storeFree (s : SizeClasses) (i p : Nat) : Option SizeClasses :=
  if i < NFREELISTS then
    some { s with freeList := fun j => if j = i then p else s.freeList j }
  else none

def setNext (s : SizeClasses) (p q : Nat) : SizeClasses :=
  { s with next := fun x => if x = p then q else s.next x }

/-- `p->next = free_list[i]; free_list[i] = p;` -/
def push (s : SizeClasses) (i p : Nat) : Option SizeClasses := do
  let head ← s.loadFree i
  (s.setNext p head).storeFree i p

/-- A call of `malloc`. -/
def callMalloc (s : SizeClasses) (malloc : Malloc) (size : Nat) : SizeClasses × Nat :=
  ({ s with calls := ⟨malloc s.calls size, size⟩ :: s.calls }, malloc s.calls size)

/-- The pool becomes the `size` bytes from `start_free` on. -/
def renew (s : SizeClasses) (size : Nat) : SizeClasses :=
  { s with
    heapSize := (s.heapSize + size) % 2 ^ 64
    endFree := s.startFree + size }

/-- What is left of the pool goes to the free list of the class of `bytes`. -/
def fileTail (s : SizeClasses) (bytes : Nat) : Option SizeClasses :=
  if 0 < s.endFree - s.startFree then s.push (freeListIndex bytes) s.startFree else some s

/-- The search through the free lists when `malloc` has failed, over the values of `i`. A
block that is found becomes the pool. -/
def recycle (s : SizeClasses) : List Nat → Option (Option SizeClasses)
  | [] => some none
  | i :: is => do
      let p ← s.loadFree (freeListIndex i)
      if p ≠ 0 then
        let s ← s.storeFree (freeListIndex i) (s.next p)
        some (some { s with startFree := p, endFree := p + i })
      else recycle s is

/-- The two cases of `chunk_alloc` in which the pool has room, for all objects or for some. -/
def fromPool (s : SizeClasses) (bytes nobjs : Nat) : Option (SizeClasses × Nat × Nat) :=
  let totalBytes := bytes * nobjs
  let bytesLeft := s.endFree - s.startFree
  if totalBytes ≤ bytesLeft then
    some ({ s with startFree := s.startFree + totalBytes }, s.startFree, nobjs)
  else if bytes ≤ bytesLeft then
    let nobjs := bytesLeft / bytes
    let totalBytes := nobjs * bytes
    some ({ s with startFree := s.startFree + totalBytes }, s.startFree, nobjs)
  else none

/-- The loop of `refill`, from the node `current` on, with `k` more to come after it. -/
def linkLoop (bytes : Nat) : Nat → SizeClasses → Nat → SizeClasses
  | 0, s, current => s.setNext current 0
  | k + 1, s, current => linkLoop bytes k (s.setNext current (current + bytes)) (current + bytes)

section

variable (chunkAlloc : SizeClasses → Nat → Nat → Option (SizeClasses × Nat × Nat))

def refill (s : SizeClasses) (bytes : Nat) : Option (SizeClasses × Nat) := do
  let (s, chunk, nobjs) ← chunkAlloc s bytes NOBJS
  if nobjs = 1 then some (s, chunk)
  else
    let s ← s.storeFree (freeListIndex bytes) (chunk + bytes)
    some (linkLoop bytes (nobjs - 2) s (chunk + bytes), chunk)

def allocate (malloc : Malloc) (s : SizeClasses) (bytes : Nat) : Option (SizeClasses × Nat) := do
  if MAXBYTES < bytes then some (s.callMalloc malloc bytes)
  else
    let index := freeListIndex bytes
    let list ← s.loadFree index
    if list ≠ 0 then
      let s ← s.storeFree index (s.next list)
      some (s, list)
    else refill chunkAlloc s (roundUp bytes)

end

/-- A large block goes back to `malloc`, which neither the lists nor the pool see. -/
def deallocate (s : SizeClasses) (p bytes : Nat) : Option SizeClasses :=
  if MAXBYTES < bytes then some s else s.push (freeListIndex bytes) p

/-- The classes of the sizes up to `MAXBYTES`. -/
theorem exists_class {n : Nat} (hn : 1 ≤ n) (hmax : n ≤ MAXBYTES) :
    ∃ i < NFREELISTS, freeListIndex n = i ∧ roundUp n = ALIGN * (i + 1) := by
  simp only [MAXBYTES, NFREELISTS, freeListIndex, roundUp, ALIGN] at hmax ⊢
  exact ⟨(n + 7) / 8 - 1, by omega, by omega, by omega⟩

theorem freeListIndex_class {i : Nat} (hi : i < NFREELISTS) :
    freeListIndex (ALIGN * (i + 1)) = i := by
  simp only [NFREELISTS, freeListIndex, ALIGN] at hi ⊢
  omega

theorem le_roundUp (n : Nat) : n ≤ roundUp n := by
  simp only [roundUp, ALIGN]
  omega

/-! The layout of memory: the blocks in other hands, the free blocks and the pool. -/

def pool (s : SizeClasses) : Block := ⟨s.startFree, s.endFree - s.startFree⟩

/-- The blocks of the free list of the class `i`. -/
def classBlocks (free : Nat → List Nat) (i : Nat) : List Block :=
  (free i).map fun p => ⟨p, ALIGN * (i + 1)⟩

def freeBlocks (free : Nat → List Nat) : List Block :=
  (List.range NFREELISTS).flatMap (classBlocks free)

structure Layout (s : SizeClasses) (held : List Block) (free : Nat → List Nat) : Prop where
  threaded : ∀ i < NFREELISTS, Threaded s.next (s.freeList i) (free i)
  separate : Separate (s.pool :: (held ++ freeBlocks free))
  inside : ∀ b ∈ s.pool :: (held ++ freeBlocks free), b.Inside s.calls
  aligned : ∀ b ∈ s.pool :: (held ++ freeBlocks free), ALIGN ∣ b.addr
  order : s.startFree ≤ s.endFree
  real : ∀ r ∈ s.calls, r.addr ≠ 0

def setFree (free : Nat → List Nat) (i : Nat) (xs : List Nat) : Nat → List Nat :=
  fun j => if j = i then xs else free j

variable {s : SizeClasses} {held : List Block} {free : Nat → List Nat} {i p : Nat}

theorem range_split (hi : i < NFREELISTS) : ∃ before after,
    List.range NFREELISTS = before ++ i :: after ∧ i ∉ before ∧ i ∉ after := by
  obtain ⟨before, after, hsplit⟩ := List.append_of_mem (List.mem_range.mpr hi)
  have hnodup : (before ++ i :: after).Nodup := hsplit ▸ List.nodup_range
  obtain ⟨_, hafter, hapart⟩ := List.nodup_append.mp hnodup
  exact ⟨before, after, hsplit, fun h => hapart i h i List.mem_cons_self rfl,
    (List.nodup_cons.mp hafter).1⟩

theorem classBlocks_setFree_ne {j : Nat} (h : j ≠ i) (xs : List Nat) :
    classBlocks (setFree free i xs) j = classBlocks free j := by
  rw [classBlocks, setFree, if_neg h, classBlocks]

theorem flatMap_setFree {is : List Nat} (hi : i ∉ is) (xs : List Nat) :
    is.flatMap (classBlocks (setFree free i xs)) = is.flatMap (classBlocks free) := by
  induction is with
  | nil => rfl
  | cons j is ih =>
      rw [List.flatMap_cons, List.flatMap_cons, ih (fun h => hi (List.mem_cons_of_mem j h)),
        classBlocks_setFree_ne (List.ne_of_not_mem_cons hi).symm]

/-- The blocks of one class, set apart from the other classes. -/
theorem freeBlocks_setFree (free : Nat → List Nat) (hi : i < NFREELISTS) (xs : List Nat) :
    (freeBlocks (setFree free i xs)).Perm
      ((xs.map fun p => ⟨p, ALIGN * (i + 1)⟩) ++ freeBlocks (setFree free i [])) := by
  obtain ⟨before, after, hsplit, hbefore, hafter⟩ := range_split hi
  simp only [freeBlocks, hsplit, List.flatMap_append, List.flatMap_cons, flatMap_setFree hbefore,
    flatMap_setFree hafter]
  have hclass : ∀ ys, classBlocks (setFree free i ys) i = ys.map fun p => ⟨p, ALIGN * (i + 1)⟩ := by
    intro ys
    rw [classBlocks, setFree, if_pos rfl]
  rw [hclass, hclass, List.map_nil, List.nil_append, ← List.append_assoc, ← List.append_assoc]
  exact List.perm_append_comm.append_right _

theorem setFree_self (free : Nat → List Nat) (i : Nat) : setFree free i (free i) = free := by
  funext j
  simp only [setFree]
  split_ifs with h
  · rw [h]
  · rfl

variable {s' : SizeClasses} {held' rest : List Block} {free' : Nat → List Nat} {a m n : Nat}

/-- Blocks change hands. -/
theorem Layout.rearrange (h : Layout s held free) (hpool : s'.pool = s.pool)
    (hcalls : s'.calls = s.calls) (horder : s'.startFree ≤ s'.endFree)
    (hperm : (held' ++ freeBlocks free').Perm (held ++ freeBlocks free))
    (hthreaded : ∀ i < NFREELISTS, Threaded s'.next (s'.freeList i) (free' i)) :
    Layout s' held' free' := by
  have hall : (s.pool :: (held ++ freeBlocks free)).Perm (s'.pool :: (held' ++ freeBlocks free')) := by
    rw [hpool]
    exact hperm.symm.cons _
  refine ⟨hthreaded, h.separate.perm hall, ?_, ?_, horder, hcalls ▸ h.real⟩
  · intro b hb
    rw [hcalls]
    exact h.inside b (hall.mem_iff.mpr hb)
  · intro b hb
    exact h.aligned b (hall.mem_iff.mpr hb)

theorem Layout.perm (h : Layout s held free) (hperm : held'.Perm held) : Layout s held' free :=
  h.rearrange rfl rfl h.order (hperm.append_right _) h.threaded

/-- Fewer blocks are held, or smaller ones. -/
theorem Layout.weaken (h : Layout s held free)
    (hseparate : Separate (s.pool :: (held' ++ freeBlocks free)))
    (hwithin : ∀ b ∈ held', ∃ c ∈ held, Within b c) (haligned : ∀ b ∈ held', ALIGN ∣ b.addr) :
    Layout s held' free := by
  refine ⟨h.threaded, hseparate, ?_, ?_, h.order, h.real⟩
  · intro b hb
    rw [List.mem_cons, List.mem_append] at hb
    rcases hb with rfl | hb | hb
    · exact h.inside _ List.mem_cons_self
    · obtain ⟨c, hc, hbc⟩ := hwithin b hb
      exact (h.inside c (List.mem_cons_of_mem _ (List.mem_append_left _ hc))).within hbc
    · exact h.inside b (List.mem_cons_of_mem _ (List.mem_append_right _ hb))
  · intro b hb
    rw [List.mem_cons, List.mem_append] at hb
    rcases hb with rfl | hb | hb
    · exact h.aligned _ List.mem_cons_self
    · exact haligned b hb
    · exact h.aligned b (List.mem_cons_of_mem _ (List.mem_append_right _ hb))

theorem Layout.aligned_held (h : Layout s held free) {b : Block} (hb : b ∈ held) : ALIGN ∣ b.addr :=
  h.aligned b (List.mem_cons_of_mem _ (List.mem_append_left _ hb))

theorem Layout.inside_held (h : Layout s held free) {b : Block} (hb : b ∈ held) :
    b.Inside s.calls :=
  h.inside b (List.mem_cons_of_mem _ (List.mem_append_left _ hb))

/-- A block is cut into pieces. -/
theorem Layout.cut {k : Nat} (h : Layout s (⟨a, n * k⟩ :: held) free) (hn : ALIGN ∣ n) :
    Layout s (pieces a n k ++ held) free := by
  apply h.weaken
  · have hswap := h.separate.perm (.swap _ _ _)
    refine hswap.cut.perm ?_
    rw [List.append_assoc]
    exact List.perm_middle
  · intro b hb
    rcases List.mem_append.mp hb with hb | hb
    · exact ⟨_, List.mem_cons_self, within_of_mem_pieces hb⟩
    · exact ⟨b, List.mem_cons_of_mem _ hb, le_rfl, le_rfl⟩
  · intro b hb
    rcases List.mem_append.mp hb with hb | hb
    · obtain ⟨p, hp, rfl⟩ := List.mem_map.mp hb
      exact dvd_of_mem_addrsFrom (h.aligned_held List.mem_cons_self) hn p hp
    · exact h.aligned_held (List.mem_cons_of_mem _ hb)

theorem Layout.ne_zero (h : Layout s held free) {b : Block} (hb : b ∈ held) (hsize : 0 < b.size) :
    b.addr ≠ 0 := by
  rcases h.inside_held hb with hzero | ⟨r, hr, hlow, _⟩
  · omega
  · have := h.real r hr
    omega

theorem mem_freeBlocks (hi : i < NFREELISTS) (hp : p ∈ free i) :
    (⟨p, ALIGN * (i + 1)⟩ : Block) ∈ freeBlocks free :=
  List.mem_flatMap.mpr ⟨i, List.mem_range.mpr hi, List.mem_map.mpr ⟨p, hp, rfl⟩⟩

/-- No free block starts where the pool does. -/
theorem Layout.pool_ne_free (h : Layout s held free) (hsize : 0 < s.endFree - s.startFree)
    (hi : i < NFREELISTS) (hp : p ∈ free i) : p ≠ s.startFree := by
  have happ := (List.pairwise_cons.mp h.separate).1 _
    (List.mem_append_right held (mem_freeBlocks hi hp))
  exact (happ.addr_ne hsize (by simp [ALIGN])).symm

/-- No free block starts where a held block does. -/
theorem Layout.held_ne_free (h : Layout s held free) {b : Block} (hb : b ∈ held)
    (hsize : 0 < b.size) (hi : i < NFREELISTS) (hp : p ∈ free i) : p ≠ b.addr := by
  have hmem := mem_freeBlocks hi hp
  have happ := (List.pairwise_append.mp (List.pairwise_cons.mp h.separate).2).2.2 b hb _ hmem
  exact (happ.addr_ne hsize (by simp [ALIGN])).symm

/-! The moves of the two allocators. -/

theorem Layout.pop {xs : List Nat} (h : Layout s held free) (hi : i < NFREELISTS)
    (hfree : free i = p :: xs) :
    ∃ s', s.storeFree i (s.next p) = some s' ∧
      Layout s' (⟨p, ALIGN * (i + 1)⟩ :: held) (setFree free i xs) ∧ s'.endFree = s.endFree := by
  refine ⟨_, if_pos hi, h.rearrange rfl rfl h.order ?_ ?_, rfl⟩
  · have hfront := freeBlocks_setFree free hi (p :: xs)
    have hback := freeBlocks_setFree free hi xs
    rw [← hfree, setFree_self, hfree] at hfront
    have hall := hfront.trans (hback.symm.cons _)
    exact List.perm_middle.symm.trans (hall.symm.append_left held)
  · intro j hj
    have hj' := h.threaded j hj
    simp only [setFree]
    split_ifs with heq
    · rw [heq, hfree] at hj'
      exact hj'.2.2
    · exact hj'

theorem push_eq (hi : i < NFREELISTS) : s.push i p = some { s with
    freeList := fun j => if j = i then p else s.freeList j
    next := fun x => if x = p then s.freeList i else s.next x } := by
  simp [push, loadFree, storeFree, hi, setNext]

theorem Layout.push (h : Layout s (⟨p, ALIGN * (i + 1)⟩ :: held) free) (hi : i < NFREELISTS) :
    ∃ s', s.push i p = some s' ∧ Layout s' held (setFree free i (p :: free i)) ∧
      s'.endFree = s.endFree := by
  have hsize : 0 < ALIGN * (i + 1) := by simp [ALIGN]
  have hother : ∀ j < NFREELISTS, ∀ q ∈ free j, q ≠ p := fun j hj q hq =>
    h.held_ne_free List.mem_cons_self hsize hj hq
  refine ⟨_, push_eq hi, h.rearrange rfl rfl h.order ?_ ?_, rfl⟩
  · have hfront := freeBlocks_setFree free hi (p :: free i)
    have hback := freeBlocks_setFree free hi (free i)
    rw [setFree_self] at hback
    have hall := hfront.trans (hback.symm.cons _)
    exact (hall.append_left held).trans List.perm_middle
  · intro j hj
    have hnext : Threaded (fun x => if x = p then s.freeList i else s.next x) (s.freeList j)
        (free j) := (h.threaded j hj).congr fun x hx => if_neg (hother j hj x hx)
    simp only [setFree]
    split_ifs with heq
    · subst heq
      refine ⟨rfl, h.ne_zero List.mem_cons_self hsize, ?_⟩
      simp only [if_true]
      exact hnext
    · exact hnext

/-- The front of the pool is cut off. -/
theorem Layout.take (h : Layout s held free) (hm : m ≤ s.endFree - s.startFree)
    (halign : ALIGN ∣ m) :
    Layout { s with startFree := s.startFree + m } (⟨s.startFree, m⟩ :: held) free := by
  have hpool : s.pool = ⟨s.startFree, m + (s.endFree - (s.startFree + m))⟩ := by
    rw [pool, Block.mk.injEq]
    omega
  have hseparate := h.separate
  rw [hpool] at hseparate
  have horder := h.order
  refine ⟨h.threaded, hseparate.split.perm (.swap _ _ _), ?_, ?_, by simp only; omega, h.real⟩
  · intro b hb
    simp only [pool, List.cons_append, List.mem_cons] at hb
    have hin := h.inside s.pool List.mem_cons_self
    rcases hb with rfl | rfl | hb
    · exact hin.within ⟨by simp [pool], by simp only [pool]; omega⟩
    · exact hin.within ⟨by simp [pool], by simp only [pool]; omega⟩
    · exact h.inside b (List.mem_cons_of_mem _ hb)
  · intro b hb
    simp only [pool, List.cons_append, List.mem_cons] at hb
    have hstart : ALIGN ∣ s.startFree := h.aligned s.pool List.mem_cons_self
    rcases hb with rfl | rfl | hb
    · exact Nat.dvd_add hstart halign
    · exact hstart
    · exact h.aligned b (List.mem_cons_of_mem _ hb)

/-- The answer of `malloc` is a block of its own. -/
structure Fresh (calls : List Block) (b : Block) : Prop where
  ne_zero : b.addr ≠ 0
  aligned : ALIGN ∣ b.addr
  apart : ∀ r ∈ calls, Apart b r

/-- A `malloc` that takes its blocks one behind the other. -/
def bump : Malloc := fun calls _ => ALIGN * ((calls.map fun r => r.addr + r.size).sum + 1)

theorem fresh_bump (calls : List Block) (size : Nat) : Fresh calls ⟨bump calls size, size⟩ := by
  refine ⟨?_, Nat.dvd_mul_right _ _, ?_⟩
  · simp only [bump, ALIGN]
    omega
  · intro r hr
    have hend : r.addr + r.size ≤ (calls.map fun r => r.addr + r.size).sum :=
      List.single_le_sum (fun _ _ => Nat.zero_le _) _ (List.mem_map_of_mem hr)
    refine Block.Apart.symm ?_
    rw [Apart, bytes, bytes, Set.disjoint_left]
    intro x hx hx'
    have hlow := hx'.1
    simp only [bump, ALIGN] at hlow
    have hhigh := hx.2
    omega

theorem Fresh.apart_inside {b c : Block} {calls : List Block} (h : Fresh calls b)
    (hc : c.Inside calls) : Apart b c := by
  rcases hc with hzero | ⟨r, hr, hwithin⟩
  · exact (apart_of_size_zero hzero b).symm
  · exact ((h.apart r hr).symm.within hwithin).symm

/-- What is left of the pool is given up for a new one. -/
theorem Layout.renew {b : Block} (h : Layout s held free) (hfresh : Fresh s.calls b)
    (hstart : s'.startFree = b.addr) (hend : s'.endFree = b.addr + b.size)
    (hcalls : s'.calls = b :: s.calls)
    (hthreaded : ∀ i < NFREELISTS, Threaded s'.next (s'.freeList i) (free i)) :
    Layout s' held free := by
  have hpool : s'.pool = b := by
    rw [pool, hstart, hend, Nat.add_sub_cancel_left]
  have hrest : ∀ c ∈ held ++ freeBlocks free, c.Inside s.calls := fun c hc =>
    h.inside c (List.mem_cons_of_mem _ hc)
  refine ⟨hthreaded, ?_, ?_, ?_, by omega, ?_⟩
  · rw [hpool]
    exact List.pairwise_cons.mpr ⟨fun c hc => hfresh.apart_inside (hrest c hc),
      (List.pairwise_cons.mp h.separate).2⟩
  · intro c hc
    rw [hcalls]
    rcases List.mem_cons.mp hc with rfl | hc
    · exact .inr ⟨b, List.mem_cons_self, hpool ▸ ⟨le_rfl, le_rfl⟩⟩
    · exact (hrest c hc).cons b
  · intro c hc
    rcases List.mem_cons.mp hc with rfl | hc
    · rw [hpool]
      exact hfresh.aligned
    · exact h.aligned c (List.mem_cons_of_mem _ hc)
  · intro r hr
    rw [hcalls] at hr
    rcases List.mem_cons.mp hr with rfl | hr
    · exact hfresh.ne_zero
    · exact h.real r hr

/-! `refill`. -/

@[simp] theorem linkLoop_fields (bytes k : Nat) (s : SizeClasses) (current : Nat) :
    (linkLoop bytes k s current).freeList = s.freeList ∧
      (linkLoop bytes k s current).startFree = s.startFree ∧
      (linkLoop bytes k s current).endFree = s.endFree ∧
      (linkLoop bytes k s current).calls = s.calls := by
  induction k generalizing s current with
  | zero => exact ⟨rfl, rfl, rfl, rfl⟩
  | succ k ih => exact ih _ _

theorem linkLoop_next_of_not_mem {bytes k current x : Nat}
    (hx : x ∉ addrsFrom current bytes (k + 1)) :
    (linkLoop bytes k s current).next x = s.next x := by
  induction k generalizing s current with
  | zero =>
      rw [addrsFrom, List.mem_cons, not_or] at hx
      exact if_neg hx.1
  | succ k ih =>
      rw [addrsFrom, List.mem_cons, not_or] at hx
      rw [linkLoop, ih hx.2]
      exact if_neg hx.1

theorem lt_of_mem_addrsFrom {a n k x : Nat} (hn : 0 < n) (hx : x ∈ addrsFrom (a + n) n k) : a < x := by
  induction k generalizing a with
  | zero => cases hx
  | succ k ih =>
      rcases List.mem_cons.mp hx with rfl | hx
      · omega
      · have := ih hx
        omega

theorem linkLoop_threaded {bytes k current : Nat} (hbytes : 0 < bytes) (hcurrent : current ≠ 0) :
    Threaded (linkLoop bytes k s current).next current (addrsFrom current bytes (k + 1)) := by
  induction k generalizing s current with
  | zero =>
      refine ⟨rfl, hcurrent, ?_⟩
      exact if_pos rfl
  | succ k ih =>
      have hrest := @ih (s.setNext current (current + bytes)) (current + bytes) (by omega)
      refine ⟨rfl, hcurrent, ?_⟩
      have hnext : (linkLoop bytes (k + 1) s current).next current = current + bytes := by
        rw [linkLoop, linkLoop_next_of_not_mem]
        · exact if_pos rfl
        · intro hmem
          exact lt_irrefl _ (lt_of_mem_addrsFrom hbytes hmem)
      rw [hnext]
      exact hrest

theorem setFree_empty (h : free i = []) : setFree free i [] = free := by
  rw [← h, setFree_self]

/-- The heads of the free lists, but for the class `i`. -/
def clear (s : SizeClasses) (i : Nat) : SizeClasses :=
  { s with freeList := fun j => if j = i then 0 else s.freeList j }

theorem Layout.clear (h : Layout s held free) (hempty : free i = []) :
    Layout (s.clear i) held free := by
  refine h.rearrange rfl rfl h.order (.refl _) ?_
  intro j hj
  simp only [SizeClasses.clear]
  split_ifs with heq
  · rw [heq, hempty]
    rfl
  · exact h.threaded j hj

/-- The pieces of a chunk become the free list of their class, whatever the list was. -/
theorem Layout.fill {xs : List Nat} (hi : i < NFREELISTS)
    (h : Layout (s.clear i) ((xs.map fun p => ⟨p, ALIGN * (i + 1)⟩) ++ held) free)
    (hempty : free i = []) (hpool : s'.pool = s.pool) (hcalls : s'.calls = s.calls)
    (horder : s'.startFree ≤ s'.endFree) (hlist : Threaded s'.next (s'.freeList i) xs)
    (hother : ∀ j, j ≠ i → s'.freeList j = s.freeList j)
    (hnext : ∀ x, x ∉ xs → s'.next x = s.next x) : Layout s' held (setFree free i xs) := by
  refine h.rearrange hpool hcalls horder ?_ ?_
  · have hblocks := freeBlocks_setFree free hi xs
    rw [setFree_empty hempty] at hblocks
    refine (hblocks.append_left held).trans ?_
    rw [← List.append_assoc]
    exact List.perm_append_comm.append_right _
  · intro j hj
    simp only [setFree]
    split_ifs with heq
    · rw [heq]
      exact hlist
    · have hthreaded := h.threaded j hj
      simp only [SizeClasses.clear, heq, if_false] at hthreaded
      rw [hother j heq]
      refine hthreaded.congr fun x hx => hnext x fun hmem => ?_
      have hheld : (⟨x, ALIGN * (i + 1)⟩ : Block) ∈
          (xs.map fun p => (⟨p, ALIGN * (i + 1)⟩ : Block)) ++ held :=
        List.mem_append_left _ (List.mem_map.mpr ⟨x, hmem, rfl⟩)
      exact h.held_ne_free hheld (by simp [ALIGN]) hj hx rfl

/-- What `refill` needs of `chunk_alloc`: a chunk for up to twenty blocks. The list of the
class is overwritten afterwards. -/
structure Chunk (s' : SizeClasses) (held : List Block) (free' : Nat → List Nat) (i chunk nobjs : Nat) :
    Prop where
  pos : 0 < nobjs
  layout : Layout (s'.clear i) (⟨chunk, ALIGN * (i + 1) * nobjs⟩ :: held) free'
  empty : free' i = []

/-- The rest of `refill`. A chunk of one block leaves the list alone, which must be intact. -/
theorem Chunk.refill {chunk nobjs : Nat} (h : Chunk s' held free' i chunk nobjs)
    (hi : i < NFREELISTS) (hone : nobjs = 1 → s'.freeList i = 0) :
    ∃ s'' free'', (if nobjs = 1 then some (s', chunk) else do
        let s ← s'.storeFree i (chunk + ALIGN * (i + 1))
        some (linkLoop (ALIGN * (i + 1)) (nobjs - 2) s (chunk + ALIGN * (i + 1)), chunk)) =
        some (s'', chunk) ∧
      Layout s'' (⟨chunk, ALIGN * (i + 1)⟩ :: held) free'' ∧ s''.endFree = s'.endFree := by
  have hsize : 0 < ALIGN * (i + 1) := by simp [ALIGN]
  obtain ⟨k, rfl⟩ : ∃ k, nobjs = k + 1 := ⟨nobjs - 1, by have := h.pos; omega⟩
  have hcut := h.layout.cut (Nat.dvd_mul_right ALIGN (i + 1))
  cases k with
  | zero =>
      have hthreaded : ∀ j < NFREELISTS, Threaded s'.next (s'.freeList j) (free' j) := by
        intro j hj
        have hj' := hcut.threaded j hj
        simp only [SizeClasses.clear] at hj'
        split_ifs at hj' with heq
        · rw [heq, hone rfl]
          rwa [heq] at hj'
        · exact hj'
      exact ⟨s', free', if_pos rfl, hcut.rearrange rfl rfl hcut.order (.refl _) hthreaded, rfl⟩
  | succ k =>
      let start := { s' with freeList := fun j => if j = i then chunk + ALIGN * (i + 1) else s'.freeList j }
      obtain ⟨hlist, hstart, hend, hcalls⟩ :=
        linkLoop_fields (ALIGN * (i + 1)) k start (chunk + ALIGN * (i + 1))
      have hthreaded : Threaded (linkLoop (ALIGN * (i + 1)) k start (chunk + ALIGN * (i + 1))).next
          (chunk + ALIGN * (i + 1)) (addrsFrom (chunk + ALIGN * (i + 1)) (ALIGN * (i + 1)) (k + 1)) :=
        linkLoop_threaded hsize (by omega)
      have hpieces : Layout (s'.clear i) ((addrsFrom (chunk + ALIGN * (i + 1)) (ALIGN * (i + 1))
          (k + 1)).map (fun p => ⟨p, ALIGN * (i + 1)⟩) ++ ⟨chunk, ALIGN * (i + 1)⟩ :: held) free' :=
        hcut.perm List.perm_middle
      refine ⟨linkLoop (ALIGN * (i + 1)) k start (chunk + ALIGN * (i + 1)), _, ?_,
        hpieces.fill hi h.empty ?_ hcalls ?_ ?_ ?_ ?_, hend⟩
      · rw [if_neg (by omega), storeFree, if_pos hi]
        rfl
      · rw [pool, pool, hstart, hend]
      · rw [hstart, hend]
        exact hcut.order
      · rw [hlist]
        simp only [start, if_true]
        exact hthreaded
      · intro j hj
        rw [hlist]
        exact if_neg hj
      · intro x hx
        exact linkLoop_next_of_not_mem hx

theorem Layout.fromPool (h : Layout (s.clear i) held free) (hempty : free i = [])
    (hleft : ALIGN * (i + 1) ≤ s.endFree - s.startFree) :
    ∃ s' chunk nobjs, s.fromPool (ALIGN * (i + 1)) NOBJS = some (s', chunk, nobjs) ∧
      Chunk s' held free i chunk nobjs ∧ s'.freeList = s.freeList ∧ s'.endFree = s.endFree ∧
      (ALIGN * (i + 1) * NOBJS ≤ s.endFree - s.startFree → nobjs = NOBJS) := by
  have hsize : 0 < ALIGN * (i + 1) := by simp [ALIGN]
  rw [SizeClasses.fromPool]
  simp only
  split_ifs with htotal
  · have htake := h.take htotal (Nat.dvd_mul_right_of_dvd (Nat.dvd_mul_right ALIGN (i + 1)) NOBJS)
    exact ⟨_, _, _, rfl, ⟨by decide, htake, hempty⟩, rfl, rfl, fun _ => rfl⟩
  · have hle : (s.endFree - s.startFree) / (ALIGN * (i + 1)) * (ALIGN * (i + 1)) ≤
        s.endFree - s.startFree := Nat.div_mul_le_self _ _
    have htake := h.take hle (Nat.dvd_mul_left_of_dvd (Nat.dvd_mul_right ALIGN (i + 1)) _)
    refine ⟨_, _, _, rfl, ⟨Nat.div_pos hleft hsize, ?_, hempty⟩, rfl, rfl, fun h => absurd h htotal⟩
    rw [Nat.mul_comm (ALIGN * (i + 1))]
    exact htake

theorem fromPool_eq_none {bytes nobjs : Nat} (hleft : s.endFree - s.startFree < bytes)
    (hnobjs : 0 < nobjs) : s.fromPool bytes nobjs = none := by
  have htotal : bytes ≤ bytes * nobjs := Nat.le_mul_of_pos_right bytes hnobjs
  rw [SizeClasses.fromPool]
  simp only
  rw [if_neg (by omega), if_neg (by omega)]

/-- The state behind a call of `malloc` that has not failed. -/
def renewed (s : SizeClasses) (malloc : Malloc) (size : Nat) : SizeClasses :=
  { s with
    startFree := malloc s.calls size
    endFree := malloc s.calls size + size
    heapSize := (s.heapSize + size) % 2 ^ 64
    calls := ⟨malloc s.calls size, size⟩ :: s.calls }

/-- `allocate` for an allocator that keeps the condition `ends` on the end of its pool. -/
theorem Layout.allocate {chunkAlloc : SizeClasses → Nat → Nat → Option (SizeClasses × Nat × Nat)}
    {malloc : Malloc} (ends : Nat → Prop) (h : Layout s held free) (hends : ends s.endFree)
    (hn : 1 ≤ n) (hmax : n ≤ MAXBYTES)
    (hchunk : ∀ i < NFREELISTS, freeListIndex n = i → roundUp n = ALIGN * (i + 1) → free i = [] →
      ∃ s' chunk nobjs free', chunkAlloc s (ALIGN * (i + 1)) NOBJS = some (s', chunk, nobjs) ∧
        Chunk s' held free' i chunk nobjs ∧ (nobjs = 1 → s'.freeList i = 0) ∧ ends s'.endFree) :
    ∃ s' p free', SizeClasses.allocate chunkAlloc malloc s n = some (s', p) ∧
      Layout s' (⟨p, roundUp n⟩ :: held) free' ∧ ends s'.endFree := by
  obtain ⟨i, hi, hindex, hround⟩ := exists_class hn hmax
  have hthreaded := h.threaded i hi
  rw [SizeClasses.allocate, if_neg (Nat.not_lt.mpr hmax), hindex, hround]
  simp only [loadFree, hi, if_true, Option.bind_eq_bind, Option.bind_some]
  cases hfree : free i with
  | nil =>
      rw [hfree] at hthreaded
      obtain ⟨s', chunk, nobjs, free', hrun, hspec, hone, hends'⟩ := hchunk i hi hindex hround hfree
      obtain ⟨s'', free'', hrefill, hlayout, hend⟩ := hspec.refill hi hone
      have hzero : s.freeList i = 0 := hthreaded
      refine ⟨s'', chunk, free'', ?_, hlayout, hend ▸ hends'⟩
      rw [if_neg (not_not_intro hzero), SizeClasses.refill, hrun]
      simp only [Option.bind_eq_bind, Option.bind_some, freeListIndex_class hi]
      exact hrefill
  | cons p xs =>
      rw [hfree] at hthreaded
      obtain ⟨s', hstore, hlayout, hend⟩ := h.pop hi hfree
      have hhead : s.freeList i = p := hthreaded.1
      refine ⟨s', p, _, ?_, hlayout, hend ▸ hends⟩
      rw [hhead, if_pos hthreaded.2.1, hstore]
      rfl

theorem Layout.deallocate (hn : 1 ≤ n) (hmax : n ≤ MAXBYTES)
    (h : Layout s (⟨p, roundUp n⟩ :: held) free) :
    ∃ s' free', s.deallocate p n = some s' ∧ Layout s' held free' ∧ s'.endFree = s.endFree := by
  obtain ⟨i, hi, hindex, hround⟩ := exists_class hn hmax
  rw [hround] at h
  obtain ⟨s', hpush, hlayout, hend⟩ := h.push hi
  refine ⟨s', _, ?_, hlayout, hend⟩
  rw [SizeClasses.deallocate, if_neg (Nat.not_lt.mpr hmax), hindex]
  exact hpush

/-! A client of the allocator, with the blocks it has and the sizes it asked for. -/

structure Client where
  state : SizeClasses
  live : List (Nat × Nat)

inductive Request where
  | allocate (n : Nat)
  | deallocate (p n : Nat)

namespace Client

def start : Client := ⟨init, []⟩

def blocks (c : Client) : List Block := c.live.map fun x => ⟨x.1, roundUp x.2⟩

def step (alloc : SizeClasses → Nat → Option (SizeClasses × Nat)) (c : Client) :
    Request → Option Client
  | .allocate n => do
      let (s, p) ← alloc c.state n
      some ⟨s, if p = 0 then c.live else (p, n) :: c.live⟩
  | .deallocate p n => do
      let s ← c.state.deallocate p n
      some ⟨s, c.live.erase (p, n)⟩

/-- A small request, or a live block given back with its size. -/
def Proper (c : Client) : Request → Prop
  | .allocate n => 1 ≤ n ∧ n ≤ MAXBYTES
  | .deallocate p n => (p, n) ∈ c.live

structure Valid (ends : Nat → Prop) (c : Client) : Prop where
  layout : ∃ free, Layout c.state c.blocks free
  ends : ends c.state.endFree
  sizes : ∀ x ∈ c.live, 1 ≤ x.2 ∧ x.2 ≤ MAXBYTES

variable {alloc : SizeClasses → Nat → Option (SizeClasses × Nat)} {ends : Nat → Prop} {c : Client}

theorem valid_start (h : ends 0) : Valid ends start := by
  refine ⟨⟨fun _ => [], ?_⟩, h, by simp [start]⟩
  have hfree : freeBlocks (fun _ => []) = [] := by
    simp [freeBlocks, classBlocks]
  refine ⟨fun i _ => rfl, ?_, ?_, ?_, le_rfl, by simp [start, init]⟩
  · simp [hfree, blocks, start, Separate]
  · simp [hfree, blocks, start, Inside, pool, init]
  · simp [hfree, blocks, start, pool, init]

theorem Valid.allocate (h : Valid ends c) (hn : 1 ≤ n) (hmax : n ≤ MAXBYTES)
    (halloc : ∃ s' p free', alloc c.state n = some (s', p) ∧
      Layout s' (⟨p, roundUp n⟩ :: c.blocks) free' ∧ ends s'.endFree) :
    ∃ c', c.step alloc (.allocate n) = some c' ∧ Valid ends c' := by
  obtain ⟨s', p, free', hrun, hlayout, hends⟩ := halloc
  have hp : p ≠ 0 := hlayout.ne_zero List.mem_cons_self (hn.trans (le_roundUp n))
  refine ⟨⟨s', (p, n) :: c.live⟩, ?_, ⟨free', hlayout⟩, hends, ?_⟩
  · simp [step, hrun, hp]
  · intro x hx
    rcases List.mem_cons.mp hx with rfl | hx
    · exact ⟨hn, hmax⟩
    · exact h.sizes x hx

theorem Valid.deallocate (h : Valid ends c) (hlive : (p, n) ∈ c.live) :
    ∃ c', c.step alloc (.deallocate p n) = some c' ∧ Valid ends c' := by
  obtain ⟨free, hlayout⟩ := h.layout
  have hperm : (⟨p, roundUp n⟩ :: (c.live.erase (p, n)).map fun x => ⟨x.1, roundUp x.2⟩).Perm
      c.blocks :=
    ((List.perm_cons_erase hlive).map fun x : Nat × Nat => (⟨x.1, roundUp x.2⟩ : Block)).symm
  obtain ⟨hn, hmax⟩ := h.sizes _ hlive
  obtain ⟨s', free', hrun, hlayout', hend⟩ := Layout.deallocate hn hmax (hlayout.perm hperm)
  refine ⟨⟨s', c.live.erase (p, n)⟩, ?_, ⟨free', hlayout'⟩, hend ▸ h.ends, ?_⟩
  · simp [step, hrun]
  · intro x hx
    exact h.sizes x (List.mem_of_mem_erase hx)

end Client

end SizeClasses

end RebuildTheWheel.TinySTL
