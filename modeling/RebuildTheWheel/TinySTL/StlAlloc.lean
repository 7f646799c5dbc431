import RebuildTheWheel.Data.Run
import RebuildTheWheel.TinySTL.SizeClasses

namespace RebuildTheWheel.TinySTL

open Data Data.Block SizeClasses

/-! `__malloc_alloc_template` and `__default_alloc_template` of `stl_alloc.hpp`. -/

namespace StlAlloc

/-- `malloc_alloc::allocate`. There is no result when the process exits. -/
def mallocAllocate (malloc : Malloc) (s : SizeClasses) (n : Nat) : Option (SizeClasses × Nat) :=
  if malloc s.calls n = 0 then none else some (s.callMalloc malloc n)

/-- The sizes from `n` below `__MAX_BYTES`. -/
def largerSizes (n : Nat) : List Nat :=
  (List.range ((MAXBYTES - n + ALIGN - 1) / ALIGN)).map (n + ALIGN * ·)

/-- `chunk_alloc`, which calls itself at most `depth` times. The rest of the pool is filed
under the class of the request, whatever its own size. -/
def chunkAlloc (malloc : Malloc) :
    Nat → SizeClasses → Nat → Nat → Option (SizeClasses × Nat × Nat)
  | 0, _, _, _ => none
  | depth + 1, s, n, nobjs =>
      match s.fromPool n nobjs with
      | some served => some served
      | none => do
          let s ← s.fileTail n
          let size := 2 * (n * nobjs) + (s.heapSize >>> 4)
          let (s, p) := s.callMalloc malloc size
          let s := { s with startFree := p }
          if p = 0 then
            match ← recycle s (largerSizes n) with
            | some s => chunkAlloc malloc depth s n nobjs
            | none => do
                let (s, p) ← mallocAllocate malloc { s with endFree := 0 } size
                some (s, p, nobjs)
          else chunkAlloc malloc depth (s.renew size) n nobjs

def allocate (malloc : Malloc) (depth : Nat) (s : SizeClasses) (n : Nat) :
    Option (SizeClasses × Nat) :=
  if MAXBYTES < n then mallocAllocate malloc s n
  else SizeClasses.allocate (chunkAlloc malloc depth) malloc s n

variable {malloc : Malloc} {s : SizeClasses} {held : List Block} {free : Nat → List Nat}
  {depth i n : Nat}

/-! The list that the tail is put in front of is empty, and `refill` overwrites its head: the
tail is lost. Its link is written where the pool starts, at a multiple of 8, so that it meets
no other block even if it is longer than the tail. -/

theorem fileTail_spec (h : Layout s held free) (hi : i < NFREELISTS) (hempty : free i = []) :
    ∃ s₁, s.fileTail (ALIGN * (i + 1)) = some s₁ ∧ Layout (s₁.clear i) held free ∧
      s₁.calls = s.calls ∧ s₁.heapSize = s.heapSize := by
  by_cases hpos : 0 < s.endFree - s.startFree
  · rw [fileTail, if_pos hpos, freeListIndex_class hi, push_eq hi]
    refine ⟨_, rfl, ?_, rfl, rfl⟩
    refine (h.clear hempty).rearrange rfl rfl h.order (.refl _) ?_
    intro j hj
    have hthreaded := (h.clear hempty).threaded j hj
    simp only [SizeClasses.clear] at hthreaded ⊢
    have hhead : (if j = i then 0 else if j = i then s.startFree else s.freeList j) =
        if j = i then 0 else s.freeList j := by
      split_ifs <;> rfl
    rw [hhead]
    refine hthreaded.congr fun x hx => if_neg ?_
    exact h.pool_ne_free hpos hj hx
  · exact ⟨s, if_neg hpos, h.clear hempty, rfl, rfl⟩

/-- The new pool holds the twenty objects. -/
theorem chunkAlloc_spec (h : Layout s held free) (hi : i < NFREELISTS) (hempty : free i = [])
    (hmalloc : ∀ calls size, Fresh calls ⟨malloc calls size, size⟩) :
    ∃ s' chunk nobjs free', chunkAlloc malloc (depth + 2) s (ALIGN * (i + 1)) NOBJS =
        some (s', chunk, nobjs) ∧
      Chunk s' held free' i chunk nobjs ∧ (nobjs = 1 → s'.freeList i = 0) := by
  by_cases hleft : ALIGN * (i + 1) ≤ s.endFree - s.startFree
  · obtain ⟨s', chunk, nobjs, hrun, hchunk, hlist, -, -⟩ := (h.clear hempty).fromPool hempty hleft
    refine ⟨s', chunk, nobjs, free, ?_, hchunk, fun _ => ?_⟩
    · rw [chunkAlloc, hrun]
    · rw [hlist]
      exact (h.threaded i hi).eq_nil_iff.mp hempty
  · obtain ⟨s₁, htail, hlayout, -, -⟩ := fileTail_spec h hi hempty
    set size := 2 * (ALIGN * (i + 1) * NOBJS) + (s₁.heapSize >>> 4) with hsize
    have hnew := hmalloc s₁.calls size
    have hnext : Layout ((renewed s₁ malloc size).clear i) held free :=
      hlayout.renew (b := ⟨malloc s₁.calls size, size⟩) hnew rfl rfl rfl hlayout.threaded
    have htotal : ALIGN * (i + 1) * NOBJS ≤ (renewed s₁ malloc size).endFree -
        (renewed s₁ malloc size).startFree := by
      simp only [renewed]
      omega
    have hone : ALIGN * (i + 1) ≤ ALIGN * (i + 1) * NOBJS := Nat.le_mul_of_pos_right _ (by decide)
    obtain ⟨s', chunk, nobjs, hrun, hchunk, -, -, hnobjs⟩ :=
      hnext.fromPool hempty (hone.trans htotal)
    refine ⟨s', chunk, nobjs, free, ?_, hchunk, fun h => ?_⟩
    · rw [chunkAlloc, fromPool_eq_none (Nat.not_le.mp hleft) (by decide)]
      simp only [htail, Option.bind_eq_bind, Option.bind_some, callMalloc, ← hsize]
      rw [if_neg hnew.ne_zero, chunkAlloc]
      change (match (renewed s₁ malloc size).fromPool _ _ with
        | some served => some served
        | none => _) = _
      rw [hrun]
    · rw [hnobjs htotal] at h
      cases h

theorem allocate_spec (h : Layout s held free) (hn : 1 ≤ n) (hmax : n ≤ MAXBYTES)
    (hmalloc : ∀ calls size, Fresh calls ⟨malloc calls size, size⟩) :
    ∃ s' p free', allocate malloc (depth + 2) s n = some (s', p) ∧
      Layout s' (⟨p, roundUp n⟩ :: held) free' := by
  obtain ⟨s', p, free', hrun, hlayout, -⟩ : ∃ s' p free',
      SizeClasses.allocate (chunkAlloc malloc (depth + 2)) malloc s n = some (s', p) ∧
        Layout s' (⟨p, roundUp n⟩ :: held) free' ∧ True := by
    refine h.allocate (fun _ => True) trivial hn hmax fun i hi _ _ hempty => ?_
    obtain ⟨s', chunk, nobjs, free', hrun, hchunk, hone⟩ :=
      chunkAlloc_spec h hi hempty hmalloc
    exact ⟨s', chunk, nobjs, free', hrun, hchunk, hone, trivial⟩
  exact ⟨s', p, free', (if_neg (Nat.not_lt.mpr hmax)).trans hrun, hlayout⟩

abbrev step (malloc : Malloc) (depth : Nat) : Client → Request → Option Client :=
  Client.step (allocate malloc depth)

end StlAlloc

end RebuildTheWheel.TinySTL
