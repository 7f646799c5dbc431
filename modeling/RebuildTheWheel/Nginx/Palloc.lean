import RebuildTheWheel.Data.Memory

namespace RebuildTheWheel.Nginx

open Data

/-! `ngx_palloc.c` and `ngx_array.c`: pools of memory, and arrays that grow in them. -/

/-- The system allocator: the address of new memory, given what it has handed out before. -/
abbrev SystemAlloc := List Block → Nat → Nat

/-- `ngx_pool_data_t` at the address `start`. -/
structure NgxPoolData where
  start : Nat
  last : Nat
  ending : Nat
  failed : Nat

/-- `ngx_pool_large_t` at the address `addr`. -/
structure NgxPoolLarge where
  addr : Nat
  alloc : Option Nat

/-- `ngx_pool_t`: the blocks before the current one, that one and those after it. `regions` is the
memory of the system, and `own` is what the pool keeps for itself. -/
structure NgxPool where
  max : Nat
  passed : List NgxPoolData
  current : NgxPoolData
  rest : List NgxPoolData
  large : List NgxPoolLarge
  regions : List Block
  own : List Block

namespace NgxPool

/-- `sizeof(ngx_pool_t)` -/
abbrev poolSize : Nat := 80

/-- `sizeof(ngx_pool_data_t)` -/
abbrev dataSize : Nat := 32

/-- `sizeof(ngx_pool_large_t)` -/
abbrev largeSize : Nat := 16

/-- `NGX_ALIGNMENT` -/
abbrev alignment : Nat := 8

/-- `ngx_align_ptr` -/
def alignPtr (p : Nat) : Nat := (p + (alignment - 1)) / alignment * alignment

def chain (pool : NgxPool) : List NgxPoolData := pool.passed ++ pool.current :: pool.rest

/-- The data of the pool itself. -/
def d (pool : NgxPool) : NgxPoolData := pool.passed.headD pool.current

def setLast (pool : NgxPool) (last : Nat) : NgxPool :=
  match pool.passed with
  | [] => { pool with current := { pool.current with last := last } }
  | block :: passed => { pool with passed := { block with last := last } :: passed }

/-- `ngx_create_pool` -/
def create (alloc : SystemAlloc) (pagesize size : Nat) : NgxPool :=
  let p := alloc [] size
  { max := if size - poolSize < pagesize - 1 then size - poolSize else pagesize - 1
    passed := []
    current := ⟨p, p + poolSize, p + size, 0⟩
    rest := []
    large := []
    regions := [⟨p, size⟩]
    own := [⟨p, poolSize⟩] }

/-- One round of the loop of `ngx_palloc_small`. The difference of the pointers is unsigned: past the
end of the block it is larger than every size. -/
def takeFrom (p : NgxPoolData) (size : Nat) (align : Bool) : Option (Nat × NgxPoolData) :=
  let m := if align then alignPtr p.last else p.last
  if p.ending < m ∨ size ≤ p.ending - m then some (m, { p with last := m + size }) else none

/-- The loop of `ngx_palloc_small`, from `p` on. -/
def takeFirst (size : Nat) (align : Bool) :
    NgxPoolData → List NgxPoolData → Option (Nat × NgxPoolData × List NgxPoolData)
  | p, rest =>
      match takeFrom p size align with
      | some (m, p) => some (m, p, rest)
      | none =>
          match rest with
          | [] => none
          | next :: rest => (takeFirst size align next rest).map fun (m, next, rest) => (m, p, next :: rest)

/-- The loop of `ngx_palloc_block`, with `p` after the blocks `between` from `current` on. -/
def failOver (new : NgxPoolData) :
    List NgxPoolData → List NgxPoolData → NgxPoolData → List NgxPoolData → List NgxPoolData × NgxPoolData × List NgxPoolData
  | passed, between, p, next :: rest =>
      if 4 < p.failed then
        failOver new (passed ++ between ++ [{ p with failed := p.failed + 1 }]) [] next rest
      else failOver new passed (between ++ [{ p with failed := p.failed + 1 }]) next rest
  | passed, [], p, [] => (passed, p, [new])
  | passed, current :: between, p, [] => (passed, current, between ++ [p, new])

/-- `ngx_palloc_block` -/
def pallocBlock (alloc : SystemAlloc) (pool : NgxPool) (size : Nat) : Nat × NgxPool :=
  let psize := pool.d.ending - pool.d.start
  let start := alloc pool.regions psize
  let m := alignPtr (start + dataSize)
  let new : NgxPoolData := ⟨start, m + size, start + psize, 0⟩
  let (passed, current, rest) := failOver new pool.passed [] pool.current pool.rest
  (m, { pool with
    passed := passed
    current := current
    rest := rest
    regions := ⟨start, psize⟩ :: pool.regions
    own := ⟨start, dataSize⟩ :: pool.own })

/-- `ngx_palloc_small` -/
def pallocSmall (alloc : SystemAlloc) (pool : NgxPool) (size : Nat) (align : Bool) : Nat × NgxPool :=
  match takeFirst size align pool.current pool.rest with
  | some (m, current, rest) => (m, { pool with current := current, rest := rest })
  | none => pallocBlock alloc pool size

/-- The loop of `ngx_palloc_large` looks for a list node without memory, and not far. -/
def reuse (p : Nat) : Nat → List NgxPoolLarge → Option (List NgxPoolLarge)
  | _, [] => none
  | n, large :: rest =>
      match large.alloc with
      | none => some ({ large with alloc := some p } :: rest)
      | some _ => if 3 < n then none else (reuse p (n + 1) rest).map (large :: ·)

/-- `ngx_palloc_large` -/
def pallocLarge (alloc : SystemAlloc) (pool : NgxPool) (size : Nat) : Nat × NgxPool :=
  let p := alloc pool.regions size
  let pool := { pool with regions := ⟨p, size⟩ :: pool.regions }
  match reuse p 0 pool.large with
  | some large => (p, { pool with large := large })
  | none =>
      let (large, pool) := pool.pallocSmall alloc largeSize true
      (p, { pool with large := ⟨large, some p⟩ :: pool.large, own := ⟨large, largeSize⟩ :: pool.own })

/-- `ngx_palloc` -/
def palloc (alloc : SystemAlloc) (pool : NgxPool) (size : Nat) : Nat × NgxPool :=
  if size ≤ pool.max then pool.pallocSmall alloc size true else pool.pallocLarge alloc size

/-- `ngx_pnalloc` -/
def pnalloc (alloc : SystemAlloc) (pool : NgxPool) (size : Nat) : Nat × NgxPool :=
  if size ≤ pool.max then pool.pallocSmall alloc size false else pool.pallocLarge alloc size

end NgxPool

/-- `ngx_array_t` at the address `addr`. -/
structure NgxArray where
  addr : Nat
  elts : Nat
  nelts : Nat
  size : Nat
  nalloc : Nat

namespace NgxArray

/-- `sizeof(ngx_array_t)` -/
abbrev arraySize : Nat := 40

/-- `ngx_array_create` with `ngx_array_init`. -/
def create (alloc : SystemAlloc) (pool : NgxPool) (n size : Nat) : NgxArray × NgxPool :=
  let (a, pool) := pool.palloc alloc arraySize
  let (elts, pool) := pool.palloc alloc (n * size)
  (⟨a, elts, 0, size, n⟩, pool)

/-- The array is the last allocation of the pool, and there is space for `size` more bytes. -/
def lastInPool (a : NgxArray) (pool : NgxPool) (size : Nat) : Prop :=
  a.elts + a.size * a.nalloc = pool.d.last ∧ pool.d.last + size ≤ pool.d.ending

instance (a : NgxArray) (pool : NgxPool) (size : Nat) : Decidable (a.lastInPool pool size) :=
  inferInstanceAs (Decidable (_ ∧ _))

/-- A full array gets room for `n` more elements, in place or as `nalloc` elements with a copy of the
first `kept` bytes. -/
def grow (alloc : SystemAlloc) (pool : NgxPool) (m : Memory) (a : NgxArray) (n nalloc kept : Nat) :
    NgxArray × NgxPool × Memory :=
  if a.lastInPool pool (n * a.size) then
    ({ a with nalloc := a.nalloc + n }, pool.setLast (pool.d.last + n * a.size), m)
  else
    let (new, pool) := pool.palloc alloc (nalloc * a.size)
    ({ a with elts := new, nalloc := nalloc }, pool, m.copy new a.elts kept)

/-- `ngx_array_push`; the first result is the address of the new element. -/
def push (alloc : SystemAlloc) (pool : NgxPool) (m : Memory) (a : NgxArray) :
    Nat × NgxArray × NgxPool × Memory :=
  let (a, pool, m) :=
    if a.nelts = a.nalloc then a.grow alloc pool m 1 (2 * a.nalloc) (a.size * a.nalloc) else (a, pool, m)
  (a.elts + a.size * a.nelts, { a with nelts := a.nelts + 1 }, pool, m)

/-- `ngx_array_push_n`; the first result is the address of the first new element. -/
def pushN (alloc : SystemAlloc) (pool : NgxPool) (m : Memory) (a : NgxArray) (n : Nat) :
    Nat × NgxArray × NgxPool × Memory :=
  let (a, pool, m) :=
    if a.nalloc < a.nelts + n then
      a.grow alloc pool m n (2 * if a.nalloc ≤ n then n else a.nalloc) (a.nelts * a.size)
    else (a, pool, m)
  (a.elts + a.size * a.nelts, { a with nelts := a.nelts + n }, pool, m)

end NgxArray

end RebuildTheWheel.Nginx

namespace RebuildTheWheel.Nginx

open Data Block

/-! What the pool has handed out is apart from what is still free. -/

/-- The system allocator succeeds with fresh memory that is aligned to 16 bytes. -/
structure SystemAlloc.Fresh (alloc : SystemAlloc) : Prop where
  dvd : ∀ regions size, 16 ∣ alloc regions size
  apart : ∀ regions size, ∀ r ∈ regions, Apart ⟨alloc regions size, size⟩ r

def NgxPoolData.free (p : NgxPoolData) : Block := ⟨p.last, p.ending - p.last⟩

/-- A block of `psize` bytes. -/
structure NgxPoolData.Sound (psize : Nat) (regions : List Block) (p : NgxPoolData) : Prop where
  region : ⟨p.start, psize⟩ ∈ regions
  ending : p.ending = p.start + psize
  start : p.start < p.last
  last : p.last ≤ p.ending
  dvd : NgxPool.alignment ∣ p.ending

namespace NgxPool

/-- A pool whose blocks have `psize` bytes; `live` is the memory that others have from it. -/
structure Sound (psize : Nat) (pool : NgxPool) (live : List Block) : Prop where
  regions : Separate pool.regions
  separate : Separate (pool.chain.map NgxPoolData.free ++ (pool.own ++ live))
  within : ∀ b ∈ pool.own ++ live, ∃ r ∈ pool.regions, b.Within r
  chain : ∀ p ∈ pool.chain, p.Sound psize pool.regions
  max : pool.max + poolSize ≤ psize
  room : largeSize + poolSize ≤ psize
  dvd : alignment ∣ psize

variable {alloc : SystemAlloc} {pool pool' : NgxPool} {live live' : List Block} {p q : NgxPoolData}
  {before after : List NgxPoolData} {regions : List Block} {psize size m n : Nat} {align : Bool}

theorem d_mem (pool : NgxPool) : pool.d ∈ pool.chain := by
  rw [d, chain]
  cases pool.passed with
  | nil => exact List.mem_cons_self
  | cons block passed => exact List.mem_cons_self

theorem le_alignPtr (p : Nat) : p ≤ alignPtr p := by
  rw [alignPtr, alignment]
  omega

theorem dvd_alignPtr (p : Nat) : alignment ∣ alignPtr p := Nat.dvd_mul_left ..

theorem alignPtr_le (hle : m ≤ n) (hn : alignment ∣ n) : alignPtr m ≤ n := by
  obtain ⟨k, rfl⟩ := hn
  change (m + 7) / 8 * 8 ≤ 8 * k
  change m ≤ 8 * k at hle
  omega

theorem Sound.perm (h : Sound psize pool live) (hperm : live.Perm live') : Sound psize pool live' :=
  { h with
    separate := h.separate.perm ((hperm.append_left _).append_left _)
    within := fun b hb => h.within b ((hperm.append_left pool.own).mem_iff.mpr hb) }

/-- No two pieces of the memory have a byte in common. -/
theorem Sound.separate_live (h : Sound psize pool live) : Separate (pool.own ++ live) :=
  (List.pairwise_append.mp h.separate).2.1

theorem Sound.apart {b c : Block} (h : Sound psize pool (b :: live)) (hc : c ∈ live) : Apart b c :=
  (List.pairwise_cons.mp (List.pairwise_append.mp h.separate_live).2.1).1 c hc

/-- Some memory is not needed any more. -/
theorem Sound.forget {b : Block} (h : Sound psize pool (b :: live)) : Sound psize pool live :=
  { h with
    separate := h.separate.sublist (((List.sublist_cons_self b live).append_left _).append_left _)
    within := fun c hc => h.within c (((List.sublist_cons_self b live).append_left _).subset hc) }

/-- The free part of one block before the rest. -/
theorem perm_free {b : Block} {xs ys zs : List Block} :
    (xs ++ b :: ys ++ zs).Perm (b :: (xs ++ ys ++ zs)) := by
  rw [List.append_assoc, List.append_assoc]
  exact List.perm_middle

/-- The memory that is taken, and the free part that it was taken from. -/
theorem perm_taken {b c : Block} {xs ys zs live : List Block} :
    (xs ++ c :: ys ++ (zs ++ b :: live)).Perm (b :: c :: (xs ++ ys ++ (zs ++ live))) := by
  rw [← List.append_assoc]
  refine List.perm_middle.trans (.cons b ?_)
  rw [List.append_assoc]
  exact perm_free

/-- Bytes from `m` on are taken from the free part of a block. -/
theorem Sound.carve (h : Sound psize pool live) (hchain : pool.chain = before ++ p :: after)
    (hlast : p.last ≤ m) (hending : m + size ≤ p.ending)
    (hchain' : pool'.chain = before ++ { p with last := m + size } :: after)
    (hregions : pool'.regions = pool.regions) (hown : pool'.own = pool.own) (hmax : pool'.max = pool.max) :
    Sound psize pool' (⟨m, size⟩ :: live) := by
  have hp : p ∈ pool.chain := by
    rw [hchain]
    exact List.mem_append_right _ List.mem_cons_self
  have hsound := h.chain p hp
  refine ⟨hregions ▸ h.regions, ?_, ?_, ?_, hmax ▸ h.max, h.room, h.dvd⟩
  · have hseparate := h.separate
    rw [hchain, List.map_append, List.map_cons] at hseparate
    have hcut : Within ⟨m, size + (p.ending - (m + size))⟩ p.free := by
      refine ⟨hlast, ?_⟩
      change m + (size + (p.ending - (m + size))) ≤ p.last + (p.ending - p.last)
      omega
    have htaken := ((hseparate.perm perm_free).shrink hcut).split
    rw [hchain', hown, List.map_append, List.map_cons]
    exact htaken.perm perm_taken.symm
  · rw [hown, hregions]
    intro b hb
    rcases List.mem_append.mp hb with hb | hb
    · exact h.within b (List.mem_append_left _ hb)
    · rcases List.mem_cons.mp hb with rfl | hb
      · refine ⟨_, hsound.region, ?_, ?_⟩
        · exact Nat.le_trans (Nat.le_of_lt hsound.start) hlast
        · exact Nat.le_trans hending (Nat.le_of_eq hsound.ending)
      · exact h.within b (List.mem_append_right _ hb)
  · rw [hchain', hregions]
    intro q hq
    rcases List.mem_append.mp hq with hq | hq
    · exact h.chain q (hchain ▸ List.mem_append_left _ hq)
    · rcases List.mem_cons.mp hq with rfl | hq
      · exact { hsound with
          start := Nat.lt_of_lt_of_le hsound.start (Nat.le_trans hlast (Nat.le_add_right m size))
          last := hending }
      · exact h.chain q (hchain ▸ List.mem_append_right _ (List.mem_cons_of_mem _ hq))

/-! `ngx_palloc_small` -/

/-- Where bytes may be taken from a block. -/
structure Fits (p : NgxPoolData) (size : Nat) (align : Bool) (m : Nat) : Prop where
  last : p.last ≤ m
  ending : m + size ≤ p.ending
  dvd : align = true → alignment ∣ m

/-- The place that a round tries. -/
theorem place_le (hsound : p.Sound psize regions) (align : Bool) :
    p.last ≤ (if align then alignPtr p.last else p.last) ∧
      (if align then alignPtr p.last else p.last) ≤ p.ending ∧
      (align = true → alignment ∣ if align then alignPtr p.last else p.last) := by
  cases align with
  | true => exact ⟨le_alignPtr p.last, alignPtr_le hsound.last hsound.dvd, fun _ => dvd_alignPtr p.last⟩
  | false => exact ⟨Nat.le_refl _, hsound.last, nofun⟩

theorem fits_of_takeFrom (hsound : p.Sound psize regions) (h : takeFrom p size align = some (m, q)) :
    Fits p size align m ∧ q = { p with last := m + size } := by
  obtain ⟨hlast, hending, hdvd⟩ := place_le hsound align
  rw [takeFrom] at h
  generalize (if align then alignPtr p.last else p.last) = place at h hlast hending hdvd
  by_cases hfits : p.ending < place ∨ size ≤ p.ending - place
  · rw [if_pos hfits] at h
    obtain ⟨rfl, rfl⟩ := Prod.mk.inj (Option.some.inj h)
    exact ⟨⟨hlast, by omega, hdvd⟩, rfl⟩
  · rw [if_neg hfits] at h
    exact nomatch h

/-- The loop takes the bytes from one of the blocks. -/
theorem exists_of_takeFirst {current : NgxPoolData} {rest rest' : List NgxPoolData}
    (hsound : ∀ q ∈ current :: rest, q.Sound psize regions)
    (h : takeFirst size align current rest = some (m, p, rest')) :
    ∃ before q after, current :: rest = before ++ q :: after ∧ Fits q size align m ∧
      p :: rest' = before ++ { q with last := m + size } :: after := by
  induction rest generalizing current m p rest' with
  | nil =>
      rw [takeFirst] at h
      cases htake : takeFrom current size align with
      | some found =>
          obtain ⟨m', q⟩ := found
          rw [htake] at h
          simp only [Option.some.injEq, Prod.mk.injEq] at h
          obtain ⟨rfl, rfl, rfl⟩ := h
          obtain ⟨hfits, rfl⟩ := fits_of_takeFrom (hsound _ List.mem_cons_self) htake
          exact ⟨[], current, [], rfl, hfits, rfl⟩
      | none =>
          rw [htake] at h
          exact nomatch h
  | cons next rest ih =>
      rw [takeFirst] at h
      cases htake : takeFrom current size align with
      | some found =>
          obtain ⟨m', q⟩ := found
          rw [htake] at h
          simp only [Option.some.injEq, Prod.mk.injEq] at h
          obtain ⟨rfl, rfl, rfl⟩ := h
          obtain ⟨hfits, rfl⟩ := fits_of_takeFrom (hsound _ List.mem_cons_self) htake
          exact ⟨[], current, next :: rest, rfl, hfits, rfl⟩
      | none =>
          rw [htake] at h
          obtain ⟨⟨m', p', rest₁⟩, hnext, hsame⟩ := Option.map_eq_some_iff.mp h
          simp only [Prod.mk.injEq] at hsame
          obtain ⟨rfl, rfl, rfl⟩ := hsame
          obtain ⟨before, q, after, hchain, hfits, hchain'⟩ :=
            ih (fun q hq => hsound q (List.mem_cons_of_mem _ hq)) hnext
          refine ⟨current :: before, q, after, ?_, hfits, ?_⟩
          · rw [hchain, List.cons_append]
          · rw [hchain', List.cons_append]

/-! `ngx_palloc_block` -/

theorem alignPtr_eq (h : alignment ∣ n) : alignPtr n = n :=
  Nat.le_antisymm (alignPtr_le (Nat.le_refl n) h) (le_alignPtr n)

/-- A block as if it had never failed. -/
def cleared (p : NgxPoolData) : NgxPoolData := { p with failed := 0 }

theorem sound_of_cleared (h : p.Sound psize regions) (hsame : cleared q = cleared p) :
    q.Sound psize regions := by
  obtain ⟨hstart, hlast, hending, -⟩ := NgxPoolData.mk.inj hsame
  obtain ⟨hregion, hend, hfirst, hle, hdvd⟩ := h
  refine ⟨?_, ?_, ?_, ?_, ?_⟩
  · rw [hstart]
    exact hregion
  · rw [hstart, hending]
    exact hend
  · rw [hstart, hlast]
    exact hfirst
  · rw [hlast, hending]
    exact hle
  · rw [hending]
    exact hdvd

/-- Failures are counted, and nothing else changes. -/
theorem failOver_chain (new : NgxPoolData) (passed between : List NgxPoolData) (p : NgxPoolData)
    (rest : List NgxPoolData) {passed' : List NgxPoolData} {current : NgxPoolData}
    {rest' : List NgxPoolData} (h : failOver new passed between p rest = (passed', current, rest')) :
    (passed' ++ current :: rest').map cleared = (passed ++ between ++ p :: rest ++ [new]).map cleared := by
  induction rest generalizing passed between p with
  | nil =>
      cases between with
      | nil =>
          obtain ⟨rfl, rfl, rfl⟩ : passed = passed' ∧ p = current ∧ [new] = rest' := by
            simpa only [failOver, Prod.mk.injEq] using h
          simp only [List.append_nil, List.append_assoc, List.cons_append, List.nil_append]
      | cons first between =>
          obtain ⟨rfl, rfl, rfl⟩ : passed = passed' ∧ first = current ∧ between ++ [p, new] = rest' := by
            simpa only [failOver, Prod.mk.injEq] using h
          simp only [List.append_assoc, List.cons_append, List.nil_append]
  | cons next rest ih =>
      rw [failOver] at h
      split_ifs at h with hmany
      · rw [ih _ _ _ h]
        simp only [List.map_append, List.map_cons, List.append_assoc, List.cons_append, List.nil_append,
          List.append_nil, List.map_nil, cleared]
      · rw [ih _ _ _ h]
        simp only [List.map_append, List.map_cons, List.append_assoc, List.cons_append, List.nil_append,
          List.map_nil, cleared]

theorem map_free_of_cleared {xs ys : List NgxPoolData} (h : xs.map cleared = ys.map cleared) :
    xs.map NgxPoolData.free = ys.map NgxPoolData.free := by
  have hfree := congrArg (List.map NgxPoolData.free) h
  rwa [List.map_map, List.map_map] at hfree

/-- The pool does not depend on the counts of failures. -/
theorem Sound.congr (h : Sound psize pool live) (hchain : pool'.chain.map cleared = pool.chain.map cleared)
    (hregions : pool'.regions = pool.regions) (hown : pool'.own = pool.own) (hmax : pool'.max = pool.max) :
    Sound psize pool' live := by
  refine ⟨hregions ▸ h.regions, ?_, ?_, fun p hp => ?_, hmax ▸ h.max, h.room, h.dvd⟩
  · rw [map_free_of_cleared hchain, hown]
    exact h.separate
  · rw [hown, hregions]
    exact h.within
  · have hmem : cleared p ∈ pool.chain.map cleared := hchain ▸ List.mem_map_of_mem hp
    obtain ⟨q, hq, hsame⟩ := List.mem_map.mp hmem
    rw [hregions]
    exact sound_of_cleared (h.chain q hq) hsame.symm

/-- A new block after the others, with its first bytes given out. -/
def addBlock (pool : NgxPool) (start psize size : Nat) : NgxPool :=
  { pool with
    rest := pool.rest ++ [⟨start, start + dataSize + size, start + psize, 0⟩]
    regions := ⟨start, psize⟩ :: pool.regions
    own := ⟨start, dataSize⟩ :: pool.own }

theorem Sound.psize_eq (h : Sound psize pool live) : pool.d.ending - pool.d.start = psize := by
  have hending := (h.chain _ pool.d_mem).ending
  omega

/-- Everything that is known of the pool is in the memory of the system. -/
theorem Sound.within_regions (h : Sound psize pool live) :
    ∀ b ∈ pool.chain.map NgxPoolData.free ++ (pool.own ++ live), ∃ r ∈ pool.regions, b.Within r := by
  intro b hb
  rcases List.mem_append.mp hb with hb | hb
  · obtain ⟨p, hp, rfl⟩ := List.mem_map.mp hb
    have hsound := h.chain p hp
    have hlast := hsound.last
    have hending := hsound.ending
    refine ⟨_, hsound.region, Nat.le_of_lt hsound.start, ?_⟩
    change p.last + (p.ending - p.last) ≤ p.start + psize
    omega
  · exact h.within b hb

theorem Sound.addRegion (h : Sound psize pool live) (hfresh : alloc.Fresh) (size : Nat) :
    Separate (⟨alloc pool.regions size, size⟩ :: (pool.chain.map NgxPoolData.free ++ (pool.own ++ live))) ∧
      Separate (⟨alloc pool.regions size, size⟩ :: pool.regions) :=
  ⟨h.separate.cons_of_within h.within_regions (hfresh.apart _ _),
    List.pairwise_cons.mpr ⟨hfresh.apart _ _, h.regions⟩⟩

theorem Sound.addBlock (h : Sound psize pool live) (hfresh : alloc.Fresh)
    (hsize : dataSize + size ≤ psize) :
    Sound psize (pool.addBlock (alloc pool.regions psize) psize size)
      (⟨alloc pool.regions psize + dataSize, size⟩ :: live) := by
  obtain ⟨hseparate, hregions⟩ := h.addRegion hfresh psize
  have hdvd := hfresh.dvd pool.regions psize
  generalize alloc pool.regions psize = start at hseparate hregions hdvd
  have hchain : (pool.addBlock start psize size).chain =
      pool.chain ++ [⟨start, start + dataSize + size, start + psize, 0⟩] := by
    rw [NgxPool.chain, NgxPool.chain, List.append_assoc]
    rfl
  refine ⟨hregions, ?_, ?_, ?_, h.max, h.room, h.dvd⟩
  · rw [show psize = dataSize + (size + (psize - (dataSize + size))) by omega] at hseparate
    have hcut := (hseparate.split.perm (.swap _ _ _)).split
    have hfree : NgxPoolData.free ⟨start, start + dataSize + size, start + psize, 0⟩ =
        ⟨start + dataSize + size, psize - (dataSize + size)⟩ := by
      rw [NgxPoolData.free, Block.mk.injEq]
      exact ⟨rfl, by dsimp only; omega⟩
    rw [hchain, List.map_append, List.map_singleton, hfree]
    refine hcut.perm ?_
    have htaken : (pool.chain.map NgxPoolData.free ++
        [Block.mk (start + dataSize + size) (psize - (dataSize + size))] ++
          (Block.mk start dataSize :: pool.own ++ Block.mk (start + dataSize) size :: live)).Perm
        (Block.mk (start + dataSize) size :: Block.mk (start + dataSize + size) (psize - (dataSize + size)) ::
          (pool.chain.map NgxPoolData.free ++ [] ++ (Block.mk start dataSize :: pool.own ++ live))) :=
      perm_taken
    refine (htaken.trans (.cons _ (.cons _ ?_))).symm
    rw [List.append_nil]
    exact List.perm_middle
  · intro b hb
    rcases List.mem_append.mp hb with hb | hb
    · rcases List.mem_cons.mp hb with rfl | hb
      · refine ⟨_, List.mem_cons_self, Nat.le_refl _, ?_⟩
        change start + 32 ≤ start + psize
        change 32 + size ≤ psize at hsize
        omega
      · obtain ⟨r, hr, hwithin⟩ := h.within b (List.mem_append_left _ hb)
        exact ⟨r, List.mem_cons_of_mem _ hr, hwithin⟩
    · rcases List.mem_cons.mp hb with rfl | hb
      · refine ⟨_, List.mem_cons_self, Nat.le_add_right _ _, ?_⟩
        change start + 32 + size ≤ start + psize
        change 32 + size ≤ psize at hsize
        omega
      · obtain ⟨r, hr, hwithin⟩ := h.within b (List.mem_append_right _ hb)
        exact ⟨r, List.mem_cons_of_mem _ hr, hwithin⟩
  · intro p hp
    rw [hchain] at hp
    rcases List.mem_append.mp hp with hp | hp
    · have hsound := h.chain p hp
      exact { hsound with region := List.mem_cons_of_mem _ hsound.region }
    · rw [List.mem_singleton.mp hp]
      refine ⟨List.mem_cons_self, rfl, ?_, ?_, ?_⟩
      · change start < start + 32 + size
        omega
      · change start + 32 + size ≤ start + psize
        change 32 + size ≤ psize at hsize
        omega
      · exact Nat.dvd_add (Nat.dvd_trans (by decide) hdvd) h.dvd

/-- The header of a block is smaller than that of the pool. -/
theorem dataSize_add_le (h : size + poolSize ≤ psize) : dataSize + size ≤ psize := by
  change size + 80 ≤ psize at h
  change 32 + size ≤ psize
  omega

/-- What an allocation gives. -/
structure Gives (psize : Nat) (pool : NgxPool) (live : List Block) (size : Nat) (align : Bool)
    (given : Nat × NgxPool) : Prop where
  sound : Sound psize given.2 (⟨given.1, size⟩ :: live)
  dvd : align = true → alignment ∣ given.1
  max : given.2.max = pool.max

theorem Sound.pallocBlock (h : Sound psize pool live) (hfresh : alloc.Fresh)
    (hsize : dataSize + size ≤ psize) (align : Bool) :
    Gives psize pool live size align (pallocBlock alloc pool size) := by
  have hdvd : alignment ∣ alloc pool.regions psize + dataSize :=
    Nat.dvd_add (Nat.dvd_trans (by decide) (hfresh.dvd pool.regions psize)) (by decide)
  have hadd := h.addBlock hfresh hsize
  rw [NgxPool.pallocBlock, h.psize_eq]
  dsimp only
  rw [alignPtr_eq hdvd]
  cases hfail : failOver ⟨alloc pool.regions psize, alloc pool.regions psize + dataSize + size,
      alloc pool.regions psize + psize, 0⟩ pool.passed [] pool.current pool.rest with
  | mk passed found =>
      obtain ⟨current, rest⟩ := found
      have hcleared := failOver_chain _ _ _ _ _ hfail
      refine ⟨hadd.congr ?_ rfl rfl rfl, fun _ => hdvd, rfl⟩
      rw [NgxPool.chain, hcleared, List.append_nil, List.append_assoc]
      rfl

theorem Sound.pallocSmall (h : Sound psize pool live) (hfresh : alloc.Fresh)
    (hsize : dataSize + size ≤ psize) (align : Bool) :
    Gives psize pool live size align (pallocSmall alloc pool size align) := by
  rw [NgxPool.pallocSmall]
  cases htake : takeFirst size align pool.current pool.rest with
  | none => exact h.pallocBlock hfresh hsize align
  | some found =>
      obtain ⟨m, current, rest⟩ := found
      obtain ⟨before, q, after, hchain, hfits, hchain'⟩ :=
        exists_of_takeFirst (fun p hp => h.chain p (List.mem_append_right _ hp)) htake
      have hwhole : pool.chain = (pool.passed ++ before) ++ q :: after := by
        rw [NgxPool.chain, hchain, List.append_assoc]
      refine ⟨h.carve hwhole hfits.last hfits.ending ?_ rfl rfl rfl, hfits.dvd, rfl⟩
      change pool.passed ++ current :: rest = _
      rw [hchain', List.append_assoc]

/-! `ngx_palloc_large` -/

theorem Sound.addLarge (h : Sound psize pool live) (hfresh : alloc.Fresh) (size : Nat) :
    Sound psize { pool with regions := ⟨alloc pool.regions size, size⟩ :: pool.regions }
      (⟨alloc pool.regions size, size⟩ :: live) := by
  obtain ⟨hseparate, hregions⟩ := h.addRegion hfresh size
  refine ⟨hregions, hseparate.perm ?_, fun b hb => ?_, fun p hp => ?_, h.max, h.room, h.dvd⟩
  · rw [← List.append_assoc, ← List.append_assoc]
    exact List.perm_middle.symm
  · rcases List.mem_cons.mp (List.perm_middle.mem_iff.mp hb) with rfl | hb
    · exact ⟨_, List.mem_cons_self, Nat.le_refl _, Nat.le_refl _⟩
    · obtain ⟨r, hr, hwithin⟩ := h.within b hb
      exact ⟨r, List.mem_cons_of_mem _ hr, hwithin⟩
  · have hsound := h.chain p hp
    exact { hsound with region := List.mem_cons_of_mem _ hsound.region }

/-- The pool keeps for itself what it has taken. -/
theorem Sound.keep {b : Block} (h : Sound psize pool (b :: live)) (large : List NgxPoolLarge) :
    Sound psize { pool with large := large, own := b :: pool.own } live :=
  { h with
    separate := h.separate.perm (List.perm_middle.append_left _)
    within := fun c hc => h.within c (List.perm_middle.mem_iff.mpr hc) }

theorem Sound.pallocLarge (h : Sound psize pool live) (hfresh : alloc.Fresh) (size : Nat) (align : Bool) :
    Gives psize pool live size align (pallocLarge alloc pool size) := by
  have hdvd : alignment ∣ alloc pool.regions size :=
    Nat.dvd_trans (by decide) (hfresh.dvd pool.regions size)
  have hlarge := h.addLarge hfresh size
  have hgives := hlarge.pallocSmall hfresh (dataSize_add_le h.room) true
  rw [NgxPool.pallocLarge]
  dsimp only
  cases reuse (alloc pool.regions size) 0 pool.large with
  | some large => exact ⟨{ hlarge with }, fun _ => hdvd, rfl⟩
  | none => exact ⟨hgives.sound.keep _, fun _ => hdvd, hgives.max⟩

theorem Sound.palloc (h : Sound psize pool live) (hfresh : alloc.Fresh) (size : Nat) :
    Gives psize pool live size true (palloc alloc pool size) := by
  rw [NgxPool.palloc]
  split_ifs with hsize
  · exact h.pallocSmall hfresh (dataSize_add_le (Nat.le_trans (Nat.add_le_add_right hsize _) h.max)) true
  · exact h.pallocLarge hfresh size true

theorem Sound.pnalloc (h : Sound psize pool live) (hfresh : alloc.Fresh) (size : Nat) :
    Gives psize pool live size false (pnalloc alloc pool size) := by
  rw [NgxPool.pnalloc]
  split_ifs with hsize
  · exact h.pallocSmall hfresh (dataSize_add_le (Nat.le_trans (Nat.add_le_add_right hsize _) h.max)) false
  · exact h.pallocLarge hfresh size false

/-! A new pool, and the last allocation of one. -/

theorem sound_create (hfresh : alloc.Fresh) (pagesize : Nat) (hdvd : 16 ∣ size)
    (hroom : largeSize + poolSize ≤ size) : Sound size (create alloc pagesize size) [] := by
  have hsize : alignment ∣ size := Nat.dvd_trans (by decide) hdvd
  have hstart := hfresh.dvd [] size
  change 16 + 80 ≤ size at hroom
  rw [create]
  generalize alloc [] size = start at hstart
  refine ⟨List.pairwise_singleton _ _, ?_, fun b hb => ?_, fun p hp => ?_, ?_, hroom, hsize⟩
  · have hseparate : Separate [⟨start, 80 + (size - 80)⟩] := List.pairwise_singleton _ _
    have hfree : NgxPoolData.free ⟨start, start + poolSize, start + size, 0⟩ = ⟨start + 80, size - 80⟩ := by
      rw [NgxPoolData.free, Block.mk.injEq]
      exact ⟨rfl, by change start + size - (start + 80) = size - 80; omega⟩
    change Separate [NgxPoolData.free ⟨start, start + poolSize, start + size, 0⟩, ⟨start, poolSize⟩]
    rw [hfree]
    exact hseparate.split.perm (.swap _ _ _)
  · rw [List.append_nil] at hb
    refine ⟨_, List.mem_cons_self, ?_⟩
    rw [List.mem_singleton.mp hb]
    refine ⟨Nat.le_refl _, ?_⟩
    change start + 80 ≤ start + size
    omega
  · rw [List.mem_singleton.mp hp]
    refine ⟨List.mem_cons_self, rfl, ?_, ?_, Nat.dvd_add (Nat.dvd_trans (by decide) hstart) hsize⟩
    · change start < start + 80
      omega
    · change start + 80 ≤ start + size
      omega
  · change (if size - 80 < pagesize - 1 then size - 80 else pagesize - 1) + 80 ≤ size
    split_ifs <;> omega

theorem setLast_regions (pool : NgxPool) (last : Nat) : (pool.setLast last).regions = pool.regions := by
  rw [setLast]
  split <;> rfl

theorem setLast_own (pool : NgxPool) (last : Nat) : (pool.setLast last).own = pool.own := by
  rw [setLast]
  split <;> rfl

theorem setLast_max (pool : NgxPool) (last : Nat) : (pool.setLast last).max = pool.max := by
  rw [setLast]
  split <;> rfl

theorem exists_chain_setLast (pool : NgxPool) (last : Nat) : ∃ after, pool.chain = pool.d :: after ∧
    (pool.setLast last).chain = { pool.d with last := last } :: after := by
  rw [chain, chain, setLast, d]
  cases pool.passed with
  | nil => exact ⟨pool.rest, rfl, rfl⟩
  | cons block passed => exact ⟨passed ++ pool.current :: pool.rest, rfl, rfl⟩

/-- Two pieces of memory that follow one another become one. -/
theorem Sound.merge (h : Sound psize pool (⟨m, size⟩ :: ⟨m + size, n⟩ :: live))
    (hwithin : ∃ r ∈ pool.regions, Within ⟨m, size + n⟩ r) : Sound psize pool (⟨m, size + n⟩ :: live) := by
  refine { h with separate := ?_, within := fun b hb => ?_ }
  · have hseparate := h.separate
    rw [← List.append_assoc] at hseparate ⊢
    have hfront := hseparate.perm (List.perm_middle.trans (.cons _ List.perm_middle))
    exact hfront.merge.perm List.perm_middle.symm
  · rcases List.mem_cons.mp (List.perm_middle.mem_iff.mp hb) with rfl | hb
    · exact hwithin
    · refine h.within b ?_
      rcases List.mem_append.mp hb with hb | hb
      · exact List.mem_append_left _ hb
      · exact List.mem_append_right _ (List.mem_cons_of_mem _ (List.mem_cons_of_mem _ hb))

/-- The last allocation of the first block is made larger in place. -/
theorem Sound.extend (h : Sound psize pool (⟨m, size⟩ :: live)) (hpos : 0 < size)
    (hlast : m + size = pool.d.last) (hending : pool.d.last + n ≤ pool.d.ending) :
    Sound psize (pool.setLast (pool.d.last + n)) (⟨m, size + n⟩ :: live) := by
  obtain ⟨after, hchain, hchain'⟩ := pool.exists_chain_setLast (pool.d.last + n)
  have hfirst : pool.chain = [] ++ pool.d :: after := hchain
  have hd := h.chain _ pool.d_mem
  have hstart := hd.start
  have hend := hd.ending
  have hcarve : Sound psize (pool.setLast (pool.d.last + n)) (⟨m + size, n⟩ :: ⟨m, size⟩ :: live) := by
    rw [hlast]
    exact h.carve hfirst (Nat.le_refl _) hending hchain' (pool.setLast_regions _)
      (pool.setLast_own _) (pool.setLast_max _)
  obtain ⟨r, hr, hwithin⟩ := h.within ⟨m, size⟩ (List.mem_append_right _ List.mem_cons_self)
  -- the last byte of the allocation is in the first block
  have hsame : r = ⟨pool.d.start, psize⟩ := by
    have hbyte : pool.d.last - 1 ∈ Block.bytes ⟨m, size⟩ := by
      simp only [Block.bytes, Set.mem_Ico]
      omega
    have hbyte' : pool.d.last - 1 ∈ Block.bytes ⟨pool.d.start, psize⟩ := by
      simp only [Block.bytes, Set.mem_Ico]
      omega
    exact h.regions.eq_of_mem hr hd.region (hwithin.bytes_subset hbyte) hbyte'
  refine (hcarve.perm (.swap _ _ _)).merge ⟨r, ?_, hwithin.1, ?_⟩
  · rw [setLast_regions]
    exact hr
  · rw [hsame]
    change m + (size + n) ≤ pool.d.start + psize
    omega

end NgxPool

end RebuildTheWheel.Nginx
