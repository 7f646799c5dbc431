import RebuildTheWheel.Data.Run
import RebuildTheWheel.TinySTL.SizeClasses

namespace RebuildTheWheel.TinySTL

open Data Data.Block SizeClasses

/-! `alloc` of `Alloc.h` and `Alloc.cpp`. -/

namespace Alloc

/-- The size of the next request to `malloc`. -/
def bytesToGet (s : SizeClasses) (totalBytes : Nat) : Nat :=
  2 * totalBytes + roundUp (s.heapSize >>> 4)

/-- `chunk_alloc`, which calls itself at most `depth` times. -/
def chunkAlloc (malloc : Malloc) :
    Nat → SizeClasses → Nat → Nat → Option (SizeClasses × Nat × Nat)
  | 0, _, _, _ => none
  | depth + 1, s, bytes, nobjs =>
      match s.fromPool bytes nobjs with
      | some served => some served
      | none => do
          let size := bytesToGet s (bytes * nobjs)
          let s ← s.fileTail (s.endFree - s.startFree)
          let (s, p) := s.callMalloc malloc size
          let s := { s with startFree := p }
          let found ← (if p = 0 then
              recycle s ((List.range (MAXBYTES / ALIGN + 1)).map (ALIGN * ·))
            else some none)
          match found with
          | some s => chunkAlloc malloc depth s bytes nobjs
          | none => chunkAlloc malloc depth (s.renew size) bytes nobjs

def allocate (malloc : Malloc) (depth : Nat) (s : SizeClasses) (bytes : Nat) :
    Option (SizeClasses × Nat) :=
  SizeClasses.allocate (chunkAlloc malloc depth) malloc s bytes

variable {malloc : Malloc} {s : SizeClasses} {held : List Block} {free : Nat → List Nat}
  {depth i n : Nat}

/-! One call of `chunk_alloc` for the class `i`, whose list is empty. -/

/-- The layout, with a pool of whole classes. -/
structure Sound (s : SizeClasses) (held : List Block) (free : Nat → List Nat) : Prop
    extends Layout s held free where
  ends : ALIGN ∣ s.endFree

/-- What is left of the pool is filed in its own class. -/
theorem Sound.tail (h : Sound s held free) (hi : i < NFREELISTS)
    (hleft : s.endFree - s.startFree < ALIGN * (i + 1)) :
    ∃ s₁ free₁, s.fileTail (s.endFree - s.startFree) = some s₁ ∧
      Layout { s₁ with startFree := s.endFree } held free₁ ∧ free₁ i = free i ∧
      s₁.calls = s.calls ∧ s₁.endFree = s.endFree ∧ s₁.heapSize = s.heapSize := by
  have hstart : ALIGN ∣ s.startFree := h.aligned s.pool List.mem_cons_self
  have hend := h.ends
  have horder := h.order
  by_cases hpos : 0 < s.endFree - s.startFree
  · obtain ⟨j, hj⟩ : ∃ j, s.endFree - s.startFree = ALIGN * (j + 1) := by
      obtain ⟨k, hk⟩ := Nat.dvd_sub hend hstart
      refine ⟨k - 1, ?_⟩
      simp only [ALIGN] at hk ⊢
      omega
    have hji : j < i := by
      simp only [ALIGN] at hj hleft
      omega
    have hj16 : j < NFREELISTS := hji.trans hi
    have htake := h.take le_rfl (Nat.dvd_sub hend hstart)
    rw [hj] at htake
    obtain ⟨s₁, hs₁, hlayout, -⟩ := htake.push hj16
    rw [push_eq hj16] at hs₁
    obtain rfl := Option.some.inj hs₁
    rw [fileTail, if_pos hpos, hj, freeListIndex_class hj16, push_eq hj16]
    refine ⟨_, setFree free j (s.startFree :: free j), rfl, ?_, ?_, rfl, rfl, rfl⟩
    · have hsum : s.startFree + ALIGN * (j + 1) = s.endFree := by omega
      rw [hsum] at hlayout
      exact hlayout
    · exact if_neg hji.ne'
  · have heq : s.startFree = s.endFree := by omega
    have hsame : { s with startFree := s.endFree } = s := by
      cases s
      simp_all
    refine ⟨s, free, if_neg hpos, ?_, rfl, rfl, rfl, rfl⟩
    rw [hsame]
    exact h.toLayout

/-- The pool serves the request. -/
theorem chunkAlloc_pool (h : Sound s held free) (hi : i < NFREELISTS) (hempty : free i = [])
    (hleft : ALIGN * (i + 1) ≤ s.endFree - s.startFree) :
    ∃ s' chunk nobjs, chunkAlloc malloc (depth + 1) s (ALIGN * (i + 1)) NOBJS =
        some (s', chunk, nobjs) ∧
      Chunk s' held free i chunk nobjs ∧ s'.freeList i = 0 ∧ ALIGN ∣ s'.endFree := by
  obtain ⟨s', chunk, nobjs, hrun, hchunk, hlist, hend, -⟩ :=
    (h.toLayout.clear hempty).fromPool hempty hleft
  refine ⟨s', chunk, nobjs, ?_, hchunk, ?_, hend ▸ h.ends⟩
  · rw [chunkAlloc, hrun]
  · rw [hlist]
    exact (h.threaded i hi).eq_nil_iff.mp hempty

/-- The pool is too small and `malloc` is asked. When it fails, the first list that the
search looks at does not exist. -/
theorem chunkAlloc_short {bytes nobjs : Nat} {s₁ : SizeClasses}
    (hleft : s.endFree - s.startFree < bytes) (hnobjs : 0 < nobjs)
    (htail : s.fileTail (s.endFree - s.startFree) = some s₁) :
    chunkAlloc malloc (depth + 1) s bytes nobjs =
      if malloc s₁.calls (bytesToGet s (bytes * nobjs)) = 0 then none
      else chunkAlloc malloc depth (renewed s₁ malloc (bytesToGet s (bytes * nobjs))) bytes nobjs := by
  have hfirst : (List.range (MAXBYTES / ALIGN + 1)).map (ALIGN * ·) =
      0 :: ((List.range (MAXBYTES / ALIGN)).map fun k => ALIGN * (k + 1)) := by decide
  have hrecycle : ∀ s' : SizeClasses,
      recycle s' ((List.range (MAXBYTES / ALIGN + 1)).map (ALIGN * ·)) = none := by
    intro s'
    rw [hfirst]
    rfl
  rw [chunkAlloc, fromPool_eq_none hleft hnobjs]
  simp only [htail, Option.bind_eq_bind, Option.bind_some, callMalloc, hrecycle]
  split_ifs <;> rfl

theorem le_bytesToGet (s : SizeClasses) (totalBytes : Nat) :
    totalBytes ≤ bytesToGet s totalBytes := by
  simp only [bytesToGet]
  omega

theorem dvd_roundUp (n : Nat) : ALIGN ∣ roundUp n := Nat.dvd_mul_left _ _

/-- The chunk comes from the pool, or from a new one. -/
theorem chunkAlloc_spec (h : Sound s held free) (hi : i < NFREELISTS) (hempty : free i = [])
    (hfresh : s.endFree - s.startFree < ALIGN * (i + 1) →
      Fresh s.calls ⟨malloc s.calls (bytesToGet s (ALIGN * (i + 1) * NOBJS)),
        bytesToGet s (ALIGN * (i + 1) * NOBJS)⟩) :
    ∃ s' chunk nobjs free', chunkAlloc malloc (depth + 2) s (ALIGN * (i + 1)) NOBJS =
        some (s', chunk, nobjs) ∧
      Chunk s' held free' i chunk nobjs ∧ s'.freeList i = 0 ∧ ALIGN ∣ s'.endFree := by
  by_cases hleft : ALIGN * (i + 1) ≤ s.endFree - s.startFree
  · obtain ⟨s', chunk, nobjs, hrun, hchunk, hlist, hend⟩ :=
      chunkAlloc_pool h hi hempty hleft
    exact ⟨s', chunk, nobjs, free, hrun, hchunk, hlist, hend⟩
  · rw [Nat.not_le] at hleft
    obtain ⟨s₁, free₁, htail, hlayout, hclass, hcalls, hend, hheap⟩ := h.tail hi hleft
    have hnew := hfresh hleft
    rw [chunkAlloc_short hleft (by decide) htail, hcalls, if_neg hnew.ne_zero]
    set size := bytesToGet s (ALIGN * (i + 1) * NOBJS)
    have hsize : ALIGN * (i + 1) ≤ size :=
      (Nat.le_mul_of_pos_right _ (by decide)).trans (le_bytesToGet s _)
    have hsound : Sound (renewed s₁ malloc size) held free₁ := by
      rw [← hcalls] at hnew
      refine ⟨?_, ?_⟩
      · exact hlayout.renew (b := ⟨malloc s₁.calls size, size⟩) hnew rfl rfl rfl hlayout.threaded
      · refine Nat.dvd_add hnew.aligned (Nat.dvd_add ?_ (dvd_roundUp _))
        exact Nat.dvd_mul_left_of_dvd (Nat.dvd_mul_right_of_dvd (Nat.dvd_mul_right _ _) _) 2
    have hpool : ALIGN * (i + 1) ≤ (renewed s₁ malloc size).endFree -
        (renewed s₁ malloc size).startFree := by
      simp only [renewed]
      omega
    obtain ⟨s', chunk, nobjs, hrun, hchunk, hlist, hend'⟩ :=
      chunkAlloc_pool hsound hi (hclass.trans hempty) hpool
    exact ⟨s', chunk, nobjs, free₁, hrun, hchunk, hlist, hend'⟩

/-- Neither the list of the class nor the pool has a block of `n` bytes. -/
def AsksMalloc (s : SizeClasses) (n : Nat) : Prop :=
  s.freeList (freeListIndex n) = 0 ∧ s.endFree - s.startFree < roundUp n

/-- The size that is asked for then. -/
def request (s : SizeClasses) (n : Nat) : Nat := bytesToGet s (roundUp n * NOBJS)

theorem allocate_spec (h : Sound s held free) (hn : 1 ≤ n) (hmax : n ≤ MAXBYTES)
    (hfresh : AsksMalloc s n → Fresh s.calls ⟨malloc s.calls (request s n), request s n⟩) :
    ∃ s' p free', allocate malloc (depth + 2) s n = some (s', p) ∧
      Layout s' (⟨p, roundUp n⟩ :: held) free' ∧ ALIGN ∣ s'.endFree := by
  refine h.toLayout.allocate (ALIGN ∣ ·) h.ends hn hmax ?_
  intro i hi hindex hround hempty
  have hlist : s.freeList i = 0 := (h.threaded i hi).eq_nil_iff.mp hempty
  have hfresh' : s.endFree - s.startFree < ALIGN * (i + 1) →
      Fresh s.calls ⟨malloc s.calls (bytesToGet s (ALIGN * (i + 1) * NOBJS)),
        bytesToGet s (ALIGN * (i + 1) * NOBJS)⟩ := by
    intro hleft
    rw [← hround] at hleft ⊢
    exact hfresh ⟨hindex ▸ hlist, hleft⟩
  obtain ⟨s', chunk, nobjs, free', hrun, hchunk, hlist', hends⟩ :=
    chunkAlloc_spec h hi hempty hfresh'
  exact ⟨s', chunk, nobjs, free', hrun, hchunk, fun _ => hlist', hends⟩

/-- The search through the free lists starts in front of the first one. -/
theorem allocate_fails (h : Sound s held free) (hn : 1 ≤ n) (hmax : n ≤ MAXBYTES)
    (hasks : AsksMalloc s n) (hnull : malloc s.calls (request s n) = 0) (depth : Nat) :
    allocate malloc depth s n = none := by
  obtain ⟨i, hi, hindex, hround⟩ := exists_class hn hmax
  obtain ⟨hlist, hleft⟩ := hasks
  rw [hindex] at hlist
  rw [request, hround] at hnull
  rw [hround] at hleft
  have hchunk : chunkAlloc malloc depth s (ALIGN * (i + 1)) NOBJS = none := by
    cases depth with
    | zero => rfl
    | succ depth =>
        obtain ⟨s₁, free₁, htail, -, -, hcalls, -⟩ := h.tail hi hleft
        rw [chunkAlloc_short hleft (by decide) htail, hcalls, if_pos hnull]
  rw [allocate, SizeClasses.allocate, if_neg (Nat.not_lt.mpr hmax), hindex, hround]
  simp only [loadFree, hi, if_true, Option.bind_eq_bind, Option.bind_some, hlist, ne_eq,
    not_true_eq_false, if_false, refill, hchunk, Option.bind_none]

abbrev step (malloc : Malloc) (depth : Nat) : Client → Request → Option Client :=
  Client.step (allocate malloc depth)

abbrev Valid (c : Client) : Prop := c.Valid (ALIGN ∣ ·)

theorem valid_start : Valid Client.start := Client.valid_start (Nat.dvd_zero _)

theorem Valid.sound {c : Client} (h : Valid c) : ∃ free, Sound c.state c.blocks free := by
  obtain ⟨free, hlayout⟩ := h.layout
  exact ⟨free, hlayout, h.ends⟩

theorem Valid.step {c : Client} (h : Valid c) {r : Request} (hproper : c.Proper r)
    (hfresh : ∀ n, r = .allocate n → AsksMalloc c.state n →
      Fresh c.state.calls ⟨malloc c.state.calls (request c.state n), request c.state n⟩) :
    ∃ c', Alloc.step malloc (depth + 2) c r = some c' ∧ Valid c' := by
  cases r with
  | allocate n =>
      obtain ⟨free, hsound⟩ := h.sound
      exact Client.Valid.allocate h hproper.1 hproper.2
        (allocate_spec hsound hproper.1 hproper.2 (hfresh n rfl))
  | deallocate p n => exact Client.Valid.deallocate h hproper

/-- `malloc` fails when it is asked. -/
def Fails (malloc : Malloc) (s : SizeClasses) (n : Nat) : Prop :=
  AsksMalloc s n ∧ malloc s.calls (request s n) = 0

/-- A run may have gone through every answer of `malloc` that it survives. -/
theorem valid_of_run
    (hmalloc : ∀ calls size, malloc calls size = 0 ∨ Fresh calls ⟨malloc calls size, size⟩)
    {requests : List Request}
    (hproper : Run.Guarded (step malloc (depth + 2)) Client.Proper Client.start requests)
    {c : Client} (hrun : requests.foldlM (step malloc (depth + 2)) Client.start = some c) :
    Valid c := by
  refine Run.invariant_of_guarded ?_ requests valid_start hproper hrun
  intro c r c' hvalid hproper hstep
  have hfresh : ∀ n, r = .allocate n → AsksMalloc c.state n →
      Fresh c.state.calls ⟨malloc c.state.calls (request c.state n), request c.state n⟩ := by
    rintro n rfl hasks
    rcases hmalloc c.state.calls (request c.state n) with hnull | hfresh
    · obtain ⟨free, hsound⟩ := hvalid.sound
      simp only [Alloc.step, Client.step,
        allocate_fails hsound hproper.1 hproper.2 hasks hnull] at hstep
      cases hstep
    · exact hfresh
  obtain ⟨c'', hstep', hvalid'⟩ := hvalid.step hproper hfresh
  obtain rfl : c'' = c' := Option.some.inj (hstep'.symm.trans hstep)
  exact hvalid'

/-- A call of `allocate` that terminates without leaving the array of free lists, and
returns NULL or a block in memory from `malloc` that overlaps no live block. -/
def Serves (malloc : Malloc) (c : Client) (n : Nat) : Prop :=
  ∃ depth s' p, allocate malloc depth c.state n = some (s', p) ∧
    (p = 0 ∨ (∃ r ∈ s'.calls, r.addr ≠ 0 ∧ Within ⟨p, n⟩ r) ∧ ∀ b ∈ c.blocks, Apart ⟨p, n⟩ b)

theorem Valid.serves {c : Client} (h : Valid c) (hn : 1 ≤ n) (hmax : n ≤ MAXBYTES)
    (hfresh : AsksMalloc c.state n →
      Fresh c.state.calls ⟨malloc c.state.calls (request c.state n), request c.state n⟩) :
    Serves malloc c n := by
  obtain ⟨free, hsound⟩ := h.sound
  obtain ⟨s', p, free', hrun, hlayout, -⟩ := allocate_spec hsound hn hmax hfresh
  have hpart : Within ⟨p, n⟩ ⟨p, roundUp n⟩ := ⟨le_rfl, Nat.add_le_add_left (le_roundUp n) p⟩
  refine ⟨0 + 2, s', p, hrun, .inr ⟨?_, ?_⟩⟩
  · rcases (hlayout.inside_held List.mem_cons_self).within hpart with hzero | ⟨r, hr, hwithin⟩
    · exact absurd hzero (Nat.ne_of_gt hn)
    · exact ⟨r, hr, hlayout.real r hr, hwithin⟩
  · intro b hb
    have happ := (List.pairwise_cons.mp hlayout.separate).2
    exact ((List.pairwise_cons.mp happ).1 b (List.mem_append_left _ hb)).within hpart

end Alloc

end RebuildTheWheel.TinySTL
