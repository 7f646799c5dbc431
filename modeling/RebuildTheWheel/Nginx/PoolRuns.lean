import RebuildTheWheel.Data.Run
import RebuildTheWheel.Nginx.ArrayUses

namespace RebuildTheWheel.Nginx

open Data Block NgxPool

/-! Callers that use a pool and its arrays. -/

/-- A pool with what it has handed out: the blocks of `ngx_palloc` and of `ngx_pnalloc`, and the
arrays. -/
structure PoolUse where
  pool : NgxPool
  memory : Memory
  aligned : List Block
  unaligned : List Block
  arrays : List ArrayUse

/-- Arrays are named by their numbers in order of creation. The caller writes `value`, if there is one,
to the first of the elements that it has pushed. -/
inductive PoolCall where
  | palloc (size : Nat)
  | pnalloc (size : Nat)
  | arrayCreate (n size : Nat)
  | arrayPush (i : Nat) (value : Option Bytes)
  | arrayPushN (i n : Nat) (value : Option Bytes)
  | write (i k : Nat) (value : Bytes)
  | store (p : Nat) (bytes : Bytes)

namespace PoolUse

def blocks (use : PoolUse) : List Block := use.aligned ++ use.unaligned

/-- All memory that has been handed out and not been superseded. -/
def live (use : PoolUse) : List Block := use.blocks ++ use.arrays.flatMap ArrayUse.blocks

def start (alloc : SystemAlloc) (pagesize size : Nat) (memory : Memory) : PoolUse :=
  ⟨.create alloc pagesize size, memory, [], [], []⟩

/-- What is written through a pointer. -/
def writeTo (memory : Memory) (p : Nat) : Option Bytes → Memory
  | none => memory
  | some value => memory.write p value

/-- The values of `n` new elements. -/
def newValues (n : Nat) (value : Option Bytes) : List (Option Bytes) := (List.replicate n none).set 0 value

def step (alloc : SystemAlloc) (use : PoolUse) : PoolCall → Option PoolUse
  | .palloc size =>
      let (p, pool) := use.pool.palloc alloc size
      some { use with pool := pool, aligned := ⟨p, size⟩ :: use.aligned }
  | .pnalloc size =>
      let (p, pool) := use.pool.pnalloc alloc size
      some { use with pool := pool, unaligned := ⟨p, size⟩ :: use.unaligned }
  | .arrayCreate n size =>
      let (array, pool) := NgxArray.create alloc use.pool n size
      some { use with pool := pool, arrays := use.arrays ++ [⟨array, []⟩] }
  | .arrayPush i value => do
      let a ← use.arrays[i]?
      let (elt, array, pool, memory) := a.array.push alloc use.pool use.memory
      some { use with
        pool := pool
        memory := writeTo memory elt value
        arrays := use.arrays.set i ⟨array, a.values ++ newValues 1 value⟩ }
  | .arrayPushN i n value => do
      let a ← use.arrays[i]?
      let (elt, array, pool, memory) := a.array.pushN alloc use.pool use.memory n
      some { use with
        pool := pool
        memory := writeTo memory elt value
        arrays := use.arrays.set i ⟨array, a.values ++ newValues n value⟩ }
  | .write i k value => do
      let a ← use.arrays[i]?
      some { use with
        memory := use.memory.write (a.place k) value
        arrays := use.arrays.set i ⟨a.array, a.values.set k (some value)⟩ }
  | .store p bytes => some { use with memory := use.memory.write p bytes }

/-- Arrays have room for an element at first, elements are written in full, and other bytes are only
written to memory that was asked for. -/
def Allowed (use : PoolUse) : PoolCall → Prop
  | .palloc _ => True
  | .pnalloc _ => True
  | .arrayCreate n size => 0 < n ∧ 0 < size
  | .arrayPush i value => ∃ a, use.arrays[i]? = some a ∧ ∀ bytes ∈ value, bytes.length = a.array.size
  | .arrayPushN i n value => ∃ a, use.arrays[i]? = some a ∧
      ∀ bytes ∈ value, 0 < n ∧ bytes.length = a.array.size
  | .write i k value => ∃ a, use.arrays[i]? = some a ∧ k < a.array.nelts ∧ value.length = a.array.size
  | .store p bytes => ∃ b ∈ use.blocks, Within ⟨p, bytes.length⟩ b

/-- No byte is in two pieces of the memory, those of `ngx_palloc` are aligned, and every array has its
values. -/
structure Sound (use : PoolUse) : Prop where
  separate : Separate (use.pool.own ++ use.live)
  within : ∀ b ∈ use.live, ∃ r ∈ use.pool.regions, b.Within r
  aligned : ∀ b ∈ use.aligned, alignment ∣ b.addr
  arrays : ∀ a ∈ use.arrays, a.Sound use.memory

/-- The invariant of all calls. -/
structure Keeps (psize : Nat) (use : PoolUse) : Prop where
  held : Held psize use.pool use.memory use.blocks use.arrays
  aligned : ∀ b ∈ use.aligned, alignment ∣ b.addr

variable {alloc : SystemAlloc} {psize n i : Nat} {use : PoolUse} {call : PoolCall} {a : ArrayUse}

theorem Keeps.sound (h : Keeps psize use) : use.Sound where
  separate := h.held.pool.separate_live
  within := fun b hb => h.held.pool.within b (List.mem_append_right _ hb)
  aligned := h.aligned
  arrays := h.held.arrays

theorem newValues_none (n : Nat) : newValues n none = List.replicate n none := by
  cases n with
  | zero => rfl
  | succ n => rfl

/-- One array before the others. -/
theorem Keeps.front (h : Keeps psize use) (ha : use.arrays[i]? = some a) :
    Held psize use.pool use.memory use.blocks (a :: use.arrays.eraseIdx i) := by
  obtain ⟨hi, rfl⟩ := List.getElem?_eq_some_iff.mp ha
  exact h.held.perm (List.getElem_cons_eraseIdx_perm hi).symm

theorem held_set {pool : NgxPool} {memory : Memory} {blocks : List Block} {arrays : List ArrayUse}
    {a' : ArrayUse} (ha : arrays[i]? = some a) (h : Held psize pool memory blocks (a' :: arrays.eraseIdx i)) :
    Held psize pool memory blocks (arrays.set i a') := by
  obtain ⟨hi, -⟩ := List.getElem?_eq_some_iff.mp ha
  exact h.perm (List.set_perm_cons_eraseIdx hi a').symm

/-- The caller writes to the first of the new elements. -/
theorem held_writeTo {pool : NgxPool} {memory : Memory} {blocks : List Block} {others : List ArrayUse}
    {array : NgxArray} {values : List (Option Bytes)} {value : Option Bytes}
    (h : Held psize pool memory blocks (⟨array, values ++ List.replicate n none⟩ :: others))
    (hvalue : ∀ bytes ∈ value, 0 < n ∧ bytes.length = array.size) :
    Held psize pool (writeTo memory (array.elts + array.size * values.length) value) blocks
      (⟨array, values ++ newValues n value⟩ :: others) := by
  cases value with
  | none =>
      rw [newValues_none]
      exact h
  | some bytes =>
      obtain ⟨hn, hlength⟩ := hvalue bytes rfl
      have hnelts : array.nelts = (values ++ List.replicate n none).length :=
        (h.arrays _ List.mem_cons_self).nelts
      rw [List.length_append, List.length_replicate] at hnelts
      have hwrite := h.write (k := values.length) (by dsimp only; omega) hlength
      rw [List.set_append_right _ _ (Nat.le_refl _), Nat.sub_self] at hwrite
      exact hwrite

theorem Keeps.step (h : Keeps psize use) (hfresh : alloc.Fresh) (hallowed : use.Allowed call) :
    ∃ use', use.step alloc call = some use' ∧ Keeps psize use' := by
  cases call with
  | palloc size =>
      have hgives := Sound.palloc h.held.pool hfresh size
      refine ⟨_, rfl, ⟨hgives.sound, h.held.arrays⟩, fun b hb => ?_⟩
      rcases List.mem_cons.mp hb with rfl | hb
      · exact hgives.dvd rfl
      · exact h.aligned b hb
  | pnalloc size =>
      have hgives := Sound.pnalloc h.held.pool hfresh size
      refine ⟨_, rfl, ⟨hgives.sound.perm ?_, h.held.arrays⟩, h.aligned⟩
      rw [blocks, blocks, List.append_assoc, List.append_assoc]
      exact List.perm_middle.symm
  | arrayCreate n size =>
      cases hcreate : NgxArray.create alloc use.pool n size with
      | mk array pool =>
          have hheld := h.held.create hfresh hallowed.1 hallowed.2 hcreate
          refine ⟨{ use with pool := pool, arrays := use.arrays ++ [⟨array, []⟩] }, ?_,
            hheld.perm (List.perm_append_singleton _ _).symm, h.aligned⟩
          rw [PoolUse.step, hcreate]
  | arrayPush i value =>
      obtain ⟨a, ha, hvalue⟩ := hallowed
      cases hpush : a.array.push alloc use.pool use.memory with
      | mk elt found =>
          obtain ⟨array, pool, memory⟩ := found
          obtain ⟨hheld, helt, hsize⟩ := (h.front ha).push hfresh hpush
          have hwritten := held_writeTo (n := 1) hheld fun bytes hbytes =>
            ⟨Nat.one_pos, (hvalue bytes hbytes).trans hsize.symm⟩
          rw [← helt] at hwritten
          refine ⟨{ use with
            pool := pool
            memory := writeTo memory elt value
            arrays := use.arrays.set i ⟨array, a.values ++ newValues 1 value⟩ }, ?_, held_set ha hwritten, h.aligned⟩
          rw [PoolUse.step, ha, Option.bind_eq_bind, Option.bind_some, hpush]
  | arrayPushN i n value =>
      obtain ⟨a, ha, hvalue⟩ := hallowed
      cases hpush : a.array.pushN alloc use.pool use.memory n with
      | mk elt found =>
          obtain ⟨array, pool, memory⟩ := found
          obtain ⟨hheld, helt, hsize⟩ := (h.front ha).pushN hfresh hpush
          have hwritten := held_writeTo hheld fun bytes hbytes =>
            ⟨(hvalue bytes hbytes).1, (hvalue bytes hbytes).2.trans hsize.symm⟩
          rw [← helt] at hwritten
          refine ⟨{ use with
            pool := pool
            memory := writeTo memory elt value
            arrays := use.arrays.set i ⟨array, a.values ++ newValues n value⟩ }, ?_, held_set ha hwritten, h.aligned⟩
          rw [PoolUse.step, ha, Option.bind_eq_bind, Option.bind_some, hpush]
  | write i k value =>
      obtain ⟨a, ha, hk, hlength⟩ := hallowed
      refine ⟨{ use with
        memory := use.memory.write (a.place k) value
        arrays := use.arrays.set i ⟨a.array, a.values.set k (some value)⟩ }, ?_,
        held_set ha ((h.front ha).write hk hlength), h.aligned⟩
      rw [PoolUse.step, ha, Option.bind_eq_bind, Option.bind_some]
  | store p bytes =>
      obtain ⟨b, hb, hwithin⟩ := hallowed
      exact ⟨_, rfl, h.held.store hb hwithin, h.aligned⟩

theorem keeps_start (hfresh : alloc.Fresh) (pagesize : Nat) {size : Nat} (memory : Memory) (hdvd : 16 ∣ size)
    (hroom : poolSize + largeSize ≤ size) : Keeps size (start alloc pagesize size memory) :=
  ⟨⟨sound_create hfresh pagesize hdvd (Nat.add_comm poolSize largeSize ▸ hroom), nofun⟩, nofun⟩

/-- Whatever a pool and its arrays are used for, each call goes through, and afterwards all memory is
apart and the arrays have the values that were last written. -/
theorem pool_separate (hfresh : alloc.Fresh) {pagesize size : Nat} {memory : Memory} (hdvd : 16 ∣ size)
    (hroom : poolSize + largeSize ≤ size) {calls : List PoolCall}
    (hallowed : Run.Guarded (step alloc) Allowed (start alloc pagesize size memory) calls) :
    ∃ use, calls.foldlM (step alloc) (start alloc pagesize size memory) = some use ∧ use.Sound := by
  have hstep : ∀ use call, Keeps size use → use.Allowed call →
      ∃ use', use.step alloc call = some use' ∧ Keeps size use' := fun _ _ hkeeps => hkeeps.step hfresh
  obtain ⟨use, hrun, hkeeps⟩ :=
    Run.defined_of_guarded hstep calls (keeps_start hfresh pagesize memory hdvd hroom) hallowed
  exact ⟨use, hrun, hkeeps.sound⟩

/-! A system allocator that goes upwards. -/

def top (regions : List Block) : Nat := regions.foldr (fun r top => max (r.addr + r.size) top) 0

theorem le_top {regions : List Block} {r : Block} (hr : r ∈ regions) : r.addr + r.size ≤ top regions := by
  induction regions with
  | nil => exact nomatch hr
  | cons first regions ih =>
      rcases List.mem_cons.mp hr with rfl | hr
      · exact Nat.le_max_left _ _
      · exact Nat.le_trans (ih hr) (Nat.le_max_right _ _)

def upwards : SystemAlloc := fun regions _ => (top regions + 15) / 16 * 16

theorem fresh_upwards : upwards.Fresh where
  dvd _ _ := Nat.dvd_mul_left ..
  apart regions size r hr := by
    have htop := le_top hr
    refine (apart_of_le ?_).symm
    change r.addr + r.size ≤ (top regions + 15) / 16 * 16
    omega

/-- An array whose first element is written, and two other allocations. -/
theorem pool_separate_array : ∃ use,
    [.arrayCreate 1 2, .arrayPush 0 (some [1, 2]), .pnalloc 5, .palloc 5000].foldlM (step upwards)
      (start upwards 4096 1024 fun _ => 0) = some use ∧ use.Sound := by
  refine pool_separate fresh_upwards (by decide) (by decide)
    ⟨⟨Nat.one_pos, Nat.two_pos⟩, fun use huse => ?_⟩
  obtain rfl := Option.some.inj huse
  refine ⟨⟨_, rfl, fun bytes hbytes => ?_⟩, fun _ _ => ⟨trivial, fun _ _ => ⟨trivial, fun _ _ => trivial⟩⟩⟩
  obtain rfl := Option.some.inj hbytes
  rfl

end PoolUse

end RebuildTheWheel.Nginx
