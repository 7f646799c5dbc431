import RebuildTheWheel.Nginx.HashFind
import RebuildTheWheel.Nginx.HashWildcardKeys

namespace RebuildTheWheel.Nginx

open Data Data.Pattern Hash
open Data.Ascii (point)

/-! The tables that `ngx_hash_wildcard_init` builds represent the patterns. -/

/-- What the allocator promises for the first `n` calls: different tables, aligned to 4 bytes. -/
structure Pool.Sound (pool : Pool) (n : Nat) : Prop where
  apart : ∀ i < n, ∀ j < n, pool.address i = pool.address j → i = j
  aligned : ∀ i < n, pool.address i &&& 3 = 0

/-- All buckets of the tables, rounded up to the cache line, are smaller than 65536 bytes. -/
def WildcardHeap.Small (line : Cacheline) (hinit : HashInit) (pool : Pool) (heap : WildcardHeap) :
    Prop :=
  ∀ i < heap.allocated, ∀ t, heap.tables (pool.address i) = some t →
    ∀ k, inBucket (bucketCount { hinit with alone := true } t.names) k (live t.names) ≠ [] →
      need line (bucketCount { hinit with alone := true } t.names) t.names k < 65536

namespace Wildcard

variable {line : Cacheline} {hinit : HashInit} {pool : Pool} {N : Nat}
  {heap heap' heap₁ : WildcardHeap} {value : UInt64}

/-- New tables are added and those before them stay. -/
structure Grows (pool : Pool) (N : Nat) (heap heap' : WildcardHeap) : Prop where
  le : heap.allocated ≤ heap'.allocated
  kept : heap'.allocated ≤ N →
    ∀ i < heap.allocated, heap'.tables (pool.address i) = heap.tables (pool.address i)

theorem Grows.refl (heap : WildcardHeap) : Grows pool N heap heap := ⟨Nat.le_refl _, fun _ _ _ => rfl⟩

theorem Grows.trans (h : Grows pool N heap heap₁) (h' : Grows pool N heap₁ heap') :
    Grows pool N heap heap' where
  le := Nat.le_trans h.le h'.le
  kept hN i hi := (h'.kept hN i (Nat.lt_of_lt_of_le hi h.le)).trans
    (h.kept (Nat.le_trans h'.le hN) i hi)

theorem Grows.small (h : Grows pool N heap heap') (hN : heap'.allocated ≤ N)
    (hsmall : heap'.Small line hinit pool) : heap.Small line hinit pool := by
  intro i hi t ht
  exact hsmall i (Nat.lt_of_lt_of_le hi h.le) t ((h.kept hN i hi).trans ht)

theorem setValue_self (heap : WildcardHeap) (p value : UInt64) : (setValue heap p value).tables p =
    (heap.tables p).map fun wdc => { wdc with value := value } :=
  Function.update_self p _ _

theorem setValue_of_ne {a p : UInt64} (hne : a ≠ p) (heap : WildcardHeap) (value : UInt64) :
    (setValue heap p value).tables a = heap.tables a :=
  Function.update_of_ne hne _ _

/-- The value of the newest table does not touch the others. -/
theorem Grows.setValue {n : Nat} (hpool : pool.Sound N) (h : Grows pool N heap heap')
    (hn : heap.allocated ≤ n) (hnew : heap'.allocated = n + 1) (value : UInt64) :
    Grows pool N heap (setValue heap' (pool.address n) value) where
  le := h.le
  kept hN i hi := by
    have hN' : heap'.allocated ≤ N := hN
    rw [← h.kept hN i hi, setValue_of_ne]
    intro heq
    have := hpool.apart i (by omega) n (by omega) heq
    omega

theorem small_of_setValue {p : UInt64} (hsmall : (setValue heap p value).Small line hinit pool) :
    heap.Small line hinit pool := by
  intro i hi t ht
  by_cases hp : pool.address i = p
  · refine hsmall i hi { t with value := value } ?_
    rw [hp, setValue_self, ← hp, ht]
    rfl
  · refine hsmall i hi t ?_
    rw [setValue_of_ne hp, ht]

/-! What calls that return have done. -/

variable {init : Init} {names : List WildcardName} {first : WildcardName} {next : List WildcardName}
  {curr : List HashKey} {n : Nat} {p : UInt64}

theorem labelValue_cases (h : labelValue init first next heap = .ok (some (heap', value))) :
    (next = [] ∧ heap' = heap ∧
        value = if hasDot first.key then first.value ||| 1 else first.value) ∨
      (next ≠ [] ∧ ∃ heap₁ wdc, init next heap = .ok (some (heap₁, wdc)) ∧
        heap' = (if first.key.length = labelLen first.key then setValue heap₁ wdc first.value
          else heap₁) ∧
        value = wdc ||| if hasDot first.key then 3 else 2) := by
  rw [labelValue] at h
  by_cases hnext : next.isEmpty = true
  · rw [if_pos hnext] at h
    obtain ⟨rfl, rfl⟩ := Prod.mk.inj (Option.some.inj (Except.ok.inj h))
    exact .inl ⟨List.isEmpty_iff.mp hnext, rfl, rfl⟩
  · rw [if_neg hnext] at h
    split at h
    · exact nomatch h
    · exact nomatch h
    · rename_i heap₁ wdc hinner
      obtain ⟨rfl, rfl⟩ := Prod.mk.inj (Option.some.inj (Except.ok.inj h))
      exact .inr ⟨fun hnil => hnext (List.isEmpty_iff.mpr hnil), heap₁, wdc, hinner, rfl, rfl⟩

theorem currNames_cons
    (h : currNames init (n + 1) (first :: names) heap = .ok (some (heap', curr))) :
    ∃ next rest heap₁ value curr', nextNames first names = .ok (next, rest) ∧
      labelValue init first (remainder first ++ next) heap = .ok (some (heap₁, value)) ∧
      currNames init n rest heap₁ = .ok (some (heap', curr')) ∧
      curr = ⟨label first.key, false, ngxHashKeyLc (label first.key), value⟩ :: curr' := by
  rw [currNames] at h
  split at h
  · exact nomatch h
  rename_i next rest hnext
  split at h
  · exact nomatch h
  · exact nomatch h
  rename_i heap₁ value hvalue
  split at h
  · exact nomatch h
  · exact nomatch h
  rename_i heap₂ curr' hrest
  obtain ⟨rfl, rfl⟩ := Prod.mk.inj (Option.some.inj (Except.ok.inj h))
  exact ⟨next, rest, heap₁, value, curr', hnext, hvalue, hrest, rfl⟩

theorem build_cases (h : build line hinit pool curr heap = .ok (some (heap', p))) :
    ∃ hash, hashInit line { hinit with alone := true } (pool.elts heap.allocated)
        (pool.garbage heap.allocated) curr = .ok (some hash) ∧
      heap' = ⟨Function.update heap.tables (pool.address heap.allocated) (some ⟨hash, 0, curr⟩),
        heap.allocated + 1⟩ ∧ p = pool.address heap.allocated := by
  simp only [build] at h
  split at h
  · exact nomatch h
  · exact nomatch h
  rename_i hash hhash
  obtain ⟨rfl, rfl⟩ := Prod.mk.inj (Option.some.inj (Except.ok.inj h))
  exact ⟨hash, hhash, rfl, rfl⟩

theorem init_succ (h : Wildcard.init line hinit pool (n + 1) names heap = .ok (some (heap', p))) :
    ∃ heap₁ curr,
      currNames (Wildcard.init line hinit pool n) names.length names heap = .ok (some (heap₁, curr)) ∧
      build line hinit pool curr heap₁ = .ok (some (heap', p)) := by
  rw [Wildcard.init] at h
  split at h
  · exact nomatch h
  · exact nomatch h
  rename_i heap₁ curr hcurr
  exact ⟨heap₁, curr, hcurr, h⟩

/-! The tables in memory. -/

/-- A call of `ngx_hash_wildcard_init` has added tables, the new one last. -/
structure Added (pool : Pool) (N : Nat) (heap heap' : WildcardHeap) (p : UInt64) : Prop where
  grows : Grows pool N heap heap'
  last : ∃ n, heap.allocated ≤ n ∧ heap'.allocated = n + 1 ∧ p = pool.address n

theorem labelValue_grows (hpool : pool.Sound N)
    (hadds : ∀ names heap heap' p, init names heap = .ok (some (heap', p)) → Added pool N heap heap' p)
    (h : labelValue init first next heap = .ok (some (heap', value))) : Grows pool N heap heap' := by
  rcases labelValue_cases h with ⟨-, rfl, -⟩ | ⟨-, heap₁, wdc, hinner, rfl, -⟩
  · exact Grows.refl heap'
  · obtain ⟨hgrows, n, hn, hnew, rfl⟩ := hadds _ _ _ _ hinner
    split_ifs
    · exact hgrows.setValue hpool hn hnew _
    · exact hgrows

theorem currNames_grows (hpool : pool.Sound N)
    (hadds : ∀ names heap heap' p, init names heap = .ok (some (heap', p)) → Added pool N heap heap' p)
    (h : currNames init n names heap = .ok (some (heap', curr))) : Grows pool N heap heap' := by
  induction n generalizing names heap curr with
  | zero =>
      cases names with
      | nil =>
          obtain ⟨rfl, -⟩ := Prod.mk.inj (Option.some.inj (Except.ok.inj h))
          exact Grows.refl heap
      | cons first names => exact nomatch h
  | succ n ih =>
      cases names with
      | nil =>
          obtain ⟨rfl, -⟩ := Prod.mk.inj (Option.some.inj (Except.ok.inj h))
          exact Grows.refl heap
      | cons first names =>
          obtain ⟨next, rest, heap₁, value, curr', -, hvalue, hrest, -⟩ := currNames_cons h
          exact (labelValue_grows hpool hadds hvalue).trans (ih hrest)

theorem build_added (hpool : pool.Sound N)
    (h : build line hinit pool curr heap = .ok (some (heap', p))) : Added pool N heap heap' p := by
  obtain ⟨hash, -, rfl, rfl⟩ := build_cases h
  refine ⟨⟨Nat.le_succ _, fun hN i hi => Function.update_of_ne (fun heq => ?_) _ _⟩,
    heap.allocated, Nat.le_refl _, rfl, rfl⟩
  have hN' : heap.allocated + 1 ≤ N := hN
  have := hpool.apart i (by omega) heap.allocated (by omega) heq
  omega

theorem init_added (hpool : pool.Sound N)
    (h : Wildcard.init line hinit pool n names heap = .ok (some (heap', p))) :
    Added pool N heap heap' p := by
  induction n generalizing names heap heap' p with
  | zero => exact nomatch h
  | succ n ih =>
      obtain ⟨heap₁, curr, hcurr, hbuild⟩ := init_succ h
      have hgrows := currNames_grows hpool (fun _ _ _ _ hinner => ih hinner) hcurr
      obtain ⟨hadds, m, hm, hnew, hp⟩ := build_added hpool hbuild
      exact ⟨hgrows.trans hadds, m, Nat.le_trans hgrows.le hm, hnew, hp⟩

/-! Tables that represent patterns. -/

variable {tables tables' : UInt64 → Option WildcardTable} {address : Nat → UInt64}
  {bound bound' depth : Nat} {r : Bytes → Bytes → Prop} {ps ps' : List HostPattern} {l : Bytes}
  {t t' : WildcardTable} {code : UInt64}

theorem Represents.congr (hhash : t'.hash = t.hash) (h : Represents tables address bound depth ps t) :
    Represents tables address bound depth ps t' := by
  cases depth with
  | zero => exact h.elim
  | succ depth =>
      intro l
      rw [hhash]
      exact h l

theorem Coded.imp {represents represents' : List HostPattern → WildcardTable → Prop}
    (hle : bound ≤ bound') (htables : ∀ i < bound, tables' (address i) = tables (address i))
    (himp : ∀ ps t, represents ps t → represents' ps t)
    (h : Coded tables address bound represents ps l code) :
    Coded tables' address bound' represents' ps l code where
  flat := h.flat
  table hdeeper := by
    obtain ⟨i, hi, t, ht, hvalue, hcode, hinner⟩ := h.table hdeeper
    exact ⟨i, Nat.lt_of_lt_of_le hi hle, t, (htables i hi).trans ht, hvalue, hcode, himp _ _ hinner⟩

/-- More tables may be added. -/
theorem Represents.grows (hle : bound ≤ bound')
    (htables : ∀ i < bound, tables' (address i) = tables (address i))
    (h : Represents tables address bound depth ps t) :
    Represents tables' address bound' depth ps t := by
  induction depth generalizing ps t with
  | zero => exact h.elim
  | succ depth ih =>
      intro l
      obtain ⟨code, hcode, hcoded⟩ := h l
      exact ⟨code, hcode, hcoded.imp hle htables fun _ _ => ih⟩

/-- Only what begins with the label counts. -/
theorem Coded.congr {represents : List HostPattern → WildcardTable → Prop}
    (hdeeper : deeper l ps' = deeper l ps) (hexact : exact l ps' = exact l ps)
    (h : Coded tables address bound represents ps l code) :
    Coded tables address bound represents ps' l code := by
  obtain ⟨hflat, htable⟩ := h
  refine ⟨?_, ?_⟩
  · rw [hdeeper, hexact]
    exact hflat
  · rw [hdeeper, best, tableMark, hexact]
    exact htable

theorem Coded.grows (hgrows : Grows pool N heap heap') (hN : heap'.allocated ≤ N)
    (h : Coded heap.tables pool.address heap.allocated
      (Represents heap.tables pool.address heap.allocated depth) ps l code) :
    Coded heap'.tables pool.address heap'.allocated
      (Represents heap'.tables pool.address heap'.allocated depth) ps l code :=
  h.imp hgrows.le (hgrows.kept hN) fun _ _ => .grows hgrows.le (hgrows.kept hN)

/-- What the calls build for patterns. -/
def Builds (line : Cacheline) (hinit : HashInit) (pool : Pool) (N : Nat) (r : Bytes → Bytes → Prop)
    (depth : Nat) (init : Init) : Prop :=
  ∀ ps heap heap' p, init (ps.map toName) heap = .ok (some (heap', p)) → Listed r ps →
    heap'.allocated ≤ N → heap'.Small line hinit pool →
    ∃ n t, heap'.allocated = n + 1 ∧ heap'.tables p = some t ∧ t.value = 0 ∧
      Represents heap'.tables pool.address n depth ps t

theorem labelValue_spec {first : HostPattern} {ls : List Bytes} (hpool : pool.Sound N)
    (hadds : ∀ names heap heap' p, init names heap = .ok (some (heap', p)) → Added pool N heap heap' p)
    (hbuilds : Builds line hinit pool N r depth init) (hps : Listed r (first :: ps))
    (hfirst : first.labels = l :: ls)
    (h : labelValue init (toName first) ((Pattern.deeper l (first :: ps)).map toName) heap =
      .ok (some (heap', value)))
    (hN : heap'.allocated ≤ N) (hsmall : heap'.Small line hinit pool) :
    value ≠ 0 ∧ Coded heap'.tables pool.address heap'.allocated
      (Represents heap'.tables pool.address heap'.allocated depth) (first :: ps) l value := by
  have hlabels := hps.labels first List.mem_cons_self
  rw [hfirst, List.forall_mem_cons] at hlabels
  obtain ⟨hl, hls⟩ := hlabels
  have hmarked := hps.marked first List.mem_cons_self
  have hexact := exact_cons hps.sorted (headIs_iff.mpr ⟨ls, hfirst⟩)
  have hdot : hasDot (toName first).key = true ↔ ls ≠ [] ∨ first.strict = true := by
    rw [toName, hfirst, hasDot_headKey hl.point]
  rcases labelValue_cases h with ⟨hnil, rfl, hvalue⟩ | ⟨hne, heap₁, wdc, hinner, hheap, hvalue⟩
  · have hdeeper := List.map_eq_nil_iff.mp hnil
    cases ls with
    | cons k ls =>
        have hmem : { first with labels := k :: ls } ∈ Pattern.deeper l (first :: ps) :=
          mem_deeper.mpr ⟨first, List.mem_cons_self, k, ls, hfirst, rfl⟩
        rw [hdeeper] at hmem
        exact absurd hmem List.not_mem_nil
    | nil =>
        rw [if_pos hfirst] at hexact
        have hcode : value = if first.strict then first.value ||| 1 else first.value := by
          rw [hvalue]
          simp only [hdot]
          simp [toName]
        refine ⟨?_, fun _ => by rw [hexact, hcode]; rfl, fun hne => absurd hdeeper hne⟩
        rw [hcode]
        split_ifs
        · exact fun hzero => hmarked.value (UInt64.or_eq_zero_iff.mp hzero).1
        · exact hmarked.value
  · have hlength : (toName first).key.length = labelLen (toName first).key ↔ ls = [] := by
      rw [toName, hfirst, length_headKey_eq hl.point fun m hm => (hls m hm).nonempty]
    simp only [hlength] at hheap
    have hmark : value = wdc ||| tableMark l (first :: ps) := by
      rw [hvalue, tableMark, hexact, hfirst]
      simp only [hdot]
      cases ls <;> cases hstrict : first.strict <;> simp [hstrict]
    have hallocated : heap'.allocated = heap₁.allocated := by
      rw [hheap]
      split_ifs <;> rfl
    have hsmall₁ : heap₁.Small line hinit pool := by
      rw [hheap] at hsmall
      split_ifs at hsmall
      · exact small_of_setValue hsmall
      · exact hsmall
    obtain ⟨-, n, -, hn, rfl⟩ := hadds _ _ _ _ hinner
    obtain ⟨n', t, hn', ht, hzero, hrep⟩ := hbuilds _ _ _ _ hinner (hps.deeper l) (hallocated ▸ hN)
      hsmall₁
    obtain rfl : n' = n := by omega
    have hkept : ∀ i < n', heap'.tables (pool.address i) = heap₁.tables (pool.address i) := by
      intro i hi
      rw [hheap]
      split_ifs
      · refine setValue_of_ne (fun heq => ?_) _ _
        have := hpool.apart i (by omega) n' (by omega) heq
        omega
      · rfl
    have htable : ∃ t', heap'.tables (pool.address n') = some t' ∧ t'.hash = t.hash ∧
        t'.value = best l (first :: ps) 0 := by
      rw [hheap, best, hexact, hfirst]
      cases ls with
      | nil =>
          rw [if_pos rfl, if_pos rfl, setValue_self, ht]
          exact ⟨_, rfl, rfl, rfl⟩
      | cons k ls =>
          rw [if_neg (List.cons_ne_nil k ls), if_neg (by simp)]
          exact ⟨t, ht, rfl, hzero⟩
    obtain ⟨t', ht', hhash, hbest⟩ := htable
    refine ⟨fun hzero => ?_, fun hnil => absurd (List.map_eq_nil_iff.mpr hnil) hne, fun _ => ?_⟩
    · rw [hmark] at hzero
      have := (UInt64.or_eq_zero_iff.mp hzero).2
      exact absurd (tableMark_two l (first :: ps)) (by rw [this]; decide)
    · exact ⟨n', by omega, t', ht', hbest, hmark, (hrep.grows (by omega) hkept).congr hhash⟩

/-- The names of the table for the patterns, as they are passed to `ngx_hash_init`. -/
structure Named (ps : List HostPattern) (curr : List HashKey) : Prop where
  nodup : (curr.map (·.key)).Nodup
  heads : ∀ name ∈ curr, ∃ p ∈ ps, headIs name.key p = true
  labels : ∀ name ∈ curr, Label name.key
  named : ∀ name ∈ curr, name.isNull = false ∧ name.keyHash = ngxHashKeyLc name.key ∧ name.value ≠ 0

theorem valueOf_cons (name : HashKey) (curr : List HashKey) (l : Bytes) :
    valueOf (name :: curr) l = if name.key = l then name.value else valueOf curr l := by
  by_cases hkey : name.key = l <;> simp [valueOf, hkey]

theorem Named.cons {first : HostPattern} {ls : List Bytes} (hps : Listed r (first :: ps))
    (hfirst : first.labels = l :: ls) (h : Named (ps.dropWhile (headIs l)) curr) (hvalue : value ≠ 0) :
    Named (first :: ps) (⟨l, false, ngxHashKeyLc l, value⟩ :: curr) where
  nodup := by
    rw [List.map_cons, List.nodup_cons]
    refine ⟨fun hmem => ?_, h.nodup⟩
    obtain ⟨name, hname, hkey⟩ := List.mem_map.mp hmem
    obtain ⟨q, hq, hhead⟩ := h.heads name hname
    have hother := hps.sorted.dropWhile (headIs_iff.mpr ⟨ls, hfirst⟩)
      (fun q hq => hps.nonempty q (List.mem_cons_of_mem first hq)) q hq
    rw [hkey, hother] at hhead
    exact nomatch hhead
  heads name hname := by
    rcases List.mem_cons.mp hname with rfl | hname
    · exact ⟨first, List.mem_cons_self, headIs_iff.mpr ⟨ls, hfirst⟩⟩
    · obtain ⟨q, hq, hhead⟩ := h.heads name hname
      exact ⟨q, List.mem_cons_of_mem first ((List.dropWhile_sublist _).subset hq), hhead⟩
  labels := by
    refine List.forall_mem_cons.mpr ⟨?_, h.labels⟩
    exact hps.labels first List.mem_cons_self l (by rw [hfirst]; exact List.mem_cons_self)
  named := List.forall_mem_cons.mpr ⟨⟨rfl, rfl, hvalue⟩, h.named⟩

theorem currNames_spec (hpool : pool.Sound N)
    (hadds : ∀ names heap heap' p, init names heap = .ok (some (heap', p)) → Added pool N heap heap' p)
    (hbuilds : Builds line hinit pool N r depth init) (hps : Listed r ps)
    (h : currNames init n (ps.map toName) heap = .ok (some (heap', curr)))
    (hN : heap'.allocated ≤ N) (hsmall : heap'.Small line hinit pool) :
    Named ps curr ∧ ∀ l, Coded heap'.tables pool.address heap'.allocated
      (Represents heap'.tables pool.address heap'.allocated depth) ps l (valueOf curr l) := by
  have hempty (heap : WildcardHeap) : Named [] [] ∧ ∀ l, Coded heap.tables pool.address heap.allocated
      (Represents heap.tables pool.address heap.allocated depth) [] l (valueOf [] l) :=
    ⟨⟨List.nodup_nil, nofun, nofun, nofun⟩, fun _ => ⟨fun _ => rfl, fun hne => absurd rfl hne⟩⟩
  induction n generalizing ps heap curr with
  | zero =>
      cases ps with
      | nil =>
          obtain ⟨rfl, rfl⟩ := Prod.mk.inj (Option.some.inj (Except.ok.inj h))
          exact hempty heap
      | cons first ps => exact nomatch h
  | succ n ih =>
      cases ps with
      | nil =>
          obtain ⟨rfl, rfl⟩ := Prod.mk.inj (Option.some.inj (Except.ok.inj h))
          exact hempty heap
      | cons first ps =>
          obtain ⟨l, ls, hfirst⟩ := List.exists_cons_of_ne_nil (hps.nonempty first List.mem_cons_self)
          have hhead : headIs l first = true := headIs_iff.mpr ⟨ls, hfirst⟩
          have hlabels := hps.labels first List.mem_cons_self
          have hl := hlabels l (by rw [hfirst]; exact List.mem_cons_self)
          have hnonempty : ∀ q ∈ ps, q.labels ≠ [] :=
            fun q hq => hps.nonempty q (List.mem_cons_of_mem first hq)
          have hkey : label (toName first).key = l := by
            rw [toName, hfirst, label_headKey hl.point]
          have hrestListed : Listed r (ps.dropWhile (headIs l)) :=
            hps.sublist ((List.dropWhile_sublist _).trans (List.sublist_cons_self first ps))
          obtain ⟨next, rest, heap₁, value, curr', hnext, hvalue, hrest, rfl⟩ := currNames_cons h
          rw [nextNames_spec hfirst hl hnonempty (fun q hq => hps.sorted.ne_single hhead hq)
            fun q hq => hps.labels q (List.mem_cons_of_mem first hq)] at hnext
          obtain ⟨rfl, rfl⟩ := Prod.mk.inj (Except.ok.inj hnext)
          rw [remainder_toName hfirst hlabels, ← List.map_append,
            ← deeper_cons hps.sorted hhead hnonempty] at hvalue
          have hgrows := currNames_grows hpool hadds hrest
          obtain ⟨hnamed, hcoded⟩ := ih hrestListed hrest
          obtain ⟨hne, hfirstCoded⟩ := labelValue_spec hpool hadds hbuilds hps hfirst hvalue
            (Nat.le_trans hgrows.le hN) (hgrows.small hN hsmall)
          rw [hkey]
          refine ⟨hnamed.cons hps hfirst hne, fun m => ?_⟩
          rw [valueOf_cons]
          split_ifs with hm
          · obtain rfl : l = m := hm
            exact hfirstCoded.grows hgrows hN
          · exact (hcoded m).congr (deeper_dropWhile hhead (Ne.symm hm))
              (exact_dropWhile hhead (Ne.symm hm))

/-! The hash table for the names. -/

theorem eltSize_le_total {name : HashKey} (hname : name ∈ curr) : name.eltSize ≤ total curr := by
  induction curr with
  | nil => exact absurd hname List.not_mem_nil
  | cons first curr ih =>
      rw [total]
      rcases List.mem_cons.mp hname with rfl | hname
      · exact Nat.le_add_right _ _
      · exact Nat.le_trans (ih hname) (Nat.le_add_left _ _)

theorem length_of_room {size : Nat} {name : HashKey} (hname : name ∈ live curr)
    (hroom : ∀ k, inBucket size k (live curr) ≠ [] → need line size curr k < 65536) :
    name.key.length < 65536 := by
  have hbucket : name ∈ inBucket size (bucket size name) (live curr) :=
    List.mem_filter.mpr ⟨hname, decide_eq_true rfl⟩
  have hneed := hroom _ (List.ne_nil_of_mem hbucket)
  have htotal := eltSize_le_total hbucket
  have helt := le_ngxAlign (name.key.length + 2) (a := 8) (by decide)
  have hline := le_ngxAlign (8 + total (inBucket size (bucket size name) (live curr))) line.pos
  rw [need] at hneed
  rw [HashKey.eltSize] at htotal
  omega

theorem ngxHashKeyLc_of_lower (hl : l.map ngxTolower = l) : ngxHashKeyLc l = ngxHashKey l := by
  rw [ngxHashKey, ← hl, List.foldl_map, ngxHashKeyLc, hl]

theorem Named.keys (h : Named ps curr) {size : Nat}
    (hroom : ∀ k, inBucket size k (live curr) ≠ [] → need line size curr k < 65536) :
    Keys ngxHashKey curr where
  nodup := h.nodup
  valid name hname := by
    obtain ⟨hnull, -, hvalue⟩ := h.named name hname
    have hlive : name ∈ live curr := List.mem_filter.mpr ⟨hname, by rw [hnull]; rfl⟩
    exact ⟨hvalue, length_of_room hlive hroom, (h.labels name hname).lower⟩
  named name hname := ⟨(h.labels name hname).nonempty, (h.named name hname).1⟩
  hashed name hname := by
    rw [(h.named name hname).2.1, ngxHashKeyLc_of_lower (h.labels name hname).lower]

theorem init_builds (hpool : pool.Sound N) (fuel : Nat) :
    Builds line hinit pool N r fuel (Wildcard.init line hinit pool fuel) := by
  induction fuel with
  | zero => exact fun _ _ _ _ h => nomatch h
  | succ fuel ih =>
      intro ps heap heap' p h hps hN hsmall
      obtain ⟨heap₁, curr, hcurr, hbuild⟩ := init_succ h
      rw [List.length_map] at hcurr
      have hgrows := (build_added hpool hbuild).grows
      obtain ⟨hnamed, hcoded⟩ := currNames_spec hpool (fun _ _ _ _ => init_added hpool) ih hps hcurr
        (Nat.le_trans hgrows.le hN) (hgrows.small hN hsmall)
      have hkept := hgrows.kept hN
      obtain ⟨hash, hhash, rfl, rfl⟩ := build_cases hbuild
      have htable : Function.update heap₁.tables (pool.address heap₁.allocated)
          (some ⟨hash, 0, curr⟩) (pool.address heap₁.allocated) = some ⟨hash, 0, curr⟩ :=
        Function.update_self _ _ _
      have hroom := hsmall heap₁.allocated (Nat.lt_succ_self _) _ htable
      refine ⟨heap₁.allocated, _, rfl, htable, rfl, fun l => ⟨valueOf curr l, ?_, ?_⟩⟩
      · exact hashFind_of_fits (hnamed.keys hroom) (fits_of_ok hhash hroom) hhash l
      · exact (hcoded l).imp (Nat.le_refl _) hkept fun _ _ => .grows (Nat.le_refl _) hkept

/-! More rounds change nothing. -/

theorem currNames_congr {init₁ init₂ : Init} (hps : Listed r ps)
    (h : ∀ l, Pattern.deeper l ps ≠ [] → ∀ heap,
      init₁ ((Pattern.deeper l ps).map toName) heap = init₂ ((Pattern.deeper l ps).map toName) heap)
    (n : Nat) (heap : WildcardHeap) :
    currNames init₁ n (ps.map toName) heap = currNames init₂ n (ps.map toName) heap := by
  induction n generalizing ps heap with
  | zero => cases ps <;> rfl
  | succ n ih =>
      cases ps with
      | nil => rfl
      | cons first ps =>
          obtain ⟨l, ls, hfirst⟩ := List.exists_cons_of_ne_nil (hps.nonempty first List.mem_cons_self)
          have hhead : headIs l first = true := headIs_iff.mpr ⟨ls, hfirst⟩
          have hlabels := hps.labels first List.mem_cons_self
          have hl := hlabels l (by rw [hfirst]; exact List.mem_cons_self)
          have hnonempty : ∀ q ∈ ps, q.labels ≠ [] :=
            fun q hq => hps.nonempty q (List.mem_cons_of_mem first hq)
          have hrestListed : Listed r (ps.dropWhile (headIs l)) :=
            hps.sublist ((List.dropWhile_sublist _).trans (List.sublist_cons_self first ps))
          have hrest (heap : WildcardHeap) := ih hrestListed (fun m hne heap => by
            by_cases hm : m = l
            · subst hm
              refine absurd (List.filterMap_eq_nil_iff.mpr fun q hq => tail?_of_headIs ?_) hne
              exact hps.sorted.dropWhile hhead hnonempty q hq
            · rw [← deeper_dropWhile hhead hm] at hne ⊢
              exact h m hne heap) heap
          have hvalue : labelValue init₁ (toName first) ((Pattern.deeper l (first :: ps)).map toName) heap =
              labelValue init₂ (toName first) ((Pattern.deeper l (first :: ps)).map toName) heap := by
            by_cases hdeeper : Pattern.deeper l (first :: ps) = []
            · rw [hdeeper]
              rfl
            · rw [labelValue, labelValue, h l hdeeper]
          rw [List.map_cons, currNames, currNames, nextNames_spec hfirst hl hnonempty
            (fun q hq => hps.sorted.ne_single hhead hq)
            fun q hq => hps.labels q (List.mem_cons_of_mem first hq)]
          simp only [remainder_toName hfirst hlabels, ← List.map_append]
          rw [← deeper_cons hps.sorted hhead hnonempty, hvalue]
          simp only [hrest]

theorem init_fuel (hps : Listed r ps) {fuel : Nat} (hfuel : ∀ p ∈ ps, p.labels.length ≤ fuel)
    (k : Nat) (heap : WildcardHeap) :
    Wildcard.init line hinit pool (fuel + 1 + k) (ps.map toName) heap =
      Wildcard.init line hinit pool (fuel + 1) (ps.map toName) heap := by
  induction fuel generalizing ps heap with
  | zero =>
      cases ps with
      | nil =>
          rw [Nat.add_right_comm, Wildcard.init, Wildcard.init]
          rfl
      | cons first ps =>
          have hlength := hfuel first List.mem_cons_self
          exact absurd (List.length_eq_zero_iff.mp (Nat.le_zero.mp hlength))
            (hps.nonempty first List.mem_cons_self)
  | succ fuel ih =>
      rw [Nat.add_right_comm, Wildcard.init, Wildcard.init]
      rw [currNames_congr hps fun l _ heap => ih (hps.deeper l) (fun q hq => ?_) heap]
      obtain ⟨p, hp, k, ls, hlabels, rfl⟩ := mem_deeper.mp hq
      have := hfuel p hp
      rw [hlabels] at this
      exact Nat.le_of_succ_le_succ this

theorem length_le_headKey {ls : List Bytes} (hls : ∀ l ∈ ls, l ≠ []) (strict : Bool) :
    ls.length ≤ (headKey strict ls).length := by
  induction ls with
  | nil => exact Nat.zero_le _
  | cons l ls ih =>
      rw [List.forall_mem_cons] at hls
      have hl := List.length_pos_iff.mpr hls.1
      have hrest := ih hls.2
      rcases alone_or_dot strict ls with ⟨rfl, rfl⟩ | hdot
      · rw [headKey_alone]
        exact hl
      · rw [headKey_dot hdot, List.length_append, List.length_cons, List.length_cons]
        omega

theorem le_foldl_max {n start : Nat} {ns : List Nat} (h : n ≤ start ∨ n ∈ ns) :
    n ≤ ns.foldl max start := by
  induction ns generalizing start with
  | nil => exact h.elim id fun hmem => absurd hmem List.not_mem_nil
  | cons m ns ih =>
      refine ih ?_
      rcases h with hle | hmem
      · exact .inl (Nat.le_trans hle (Nat.le_max_left _ _))
      · rcases List.mem_cons.mp hmem with rfl | hmem
        · exact .inl (Nat.le_max_right _ _)
        · exact .inr hmem

theorem length_le_hostName {h : List Bytes} (hh : ∀ l ∈ h, l ≠ []) : h.length ≤ (hostName h).length := by
  induction h with
  | nil => exact Nat.zero_le _
  | cons l h ih =>
      rw [List.forall_mem_cons] at hh
      have hl := List.length_pos_iff.mpr hh.1
      have hrest := ih hh.2
      cases h with
      | nil => exact hl
      | cons k h =>
          simp only [hostName, List.length_append, List.length_cons] at hrest ⊢
          omega

end Wildcard

open Wildcard

/-- The recursion ends: it may as well go deeper. -/
theorem hashWildcardInit_fuel (line : Cacheline) (hinit : HashInit) (pool : Pool)
    {r : Bytes → Bytes → Prop} {ps : List HostPattern} (hps : Listed r ps) :
    ∃ fuel, ∀ k, init line hinit pool (fuel + k) (ps.map toName) ⟨fun _ => none, 0⟩ =
      hashWildcardInit line hinit pool (ps.map toName) := by
  refine ⟨_, fun k => init_fuel hps (fun p hp => ?_) k _⟩
  refine Nat.le_trans (length_le_headKey (fun l hl => (hps.labels p hp l hl).nonempty) p.strict)
    (le_foldl_max (.inr ?_))
  rw [List.map_map]
  exact List.mem_map_of_mem (f := fun p => (toName p).key.length) hp

/-- The value of the pattern with the longest suffix is found. -/
theorem findWcHead_longest {line : Cacheline} {hinit : HashInit} {pool : Pool}
    {r : Bytes → Bytes → Prop} {ps : List HostPattern} {heap : WildcardHeap} {p : UInt64}
    (hps : Listed r ps)
    (hbuilt : hashWildcardInit line hinit pool (ps.map toName) = .ok (some (heap, p)))
    (hpool : pool.Sound heap.allocated) (hsmall : heap.Small line hinit pool) {h : List Bytes}
    (hne : h ≠ []) (hlabels : ∀ l ∈ h, l ≠ [] ∧ point ∉ l) :
    ∃ x, hashFindWcHead heap.tables p (hostName h) = some x ∧ Longest ps 0 h x := by
  obtain ⟨n, t, hn, ht, hzero, hrep⟩ := init_builds hpool _ ps _ heap p hbuilt hps (Nat.le_refl _)
    hsmall
  have hlength := length_le_hostName fun l hl => (hlabels l hl).1
  have hfuel : h.length < (hostName h).length + 1 := Nat.lt_succ_of_le hlength
  obtain ⟨x, hx, hresolves⟩ := wcHeadFind_spec (fun i hi => hpool.aligned i (by omega)) hrep hps.marked
    hne (fun l hl => (hlabels l hl).2) hfuel
  have hproper : Proper ps := ⟨hps.nonempty, hps.sorted.nodup⟩
  refine ⟨x, ?_, ?_⟩
  · rw [hashFindWcHead, ht]
    exact hx
  · have hpick : pick ps 0 h = x := by
      rw [hzero, Resolves] at hresolves
      rw [hresolves]
      split_ifs with hx0
      · exact hx0.symm
      · rfl
    rw [← hpick]
    exact pick_longest hproper 0 h

/-! `.a` -/

def suffixA : HostPattern := ⟨[[97]], false, 4⟩

def suffixPool : Pool := ⟨fun n => 4096 * UInt64.ofNat n, fun n => 8192 * n, fun _ _ => 170⟩

def suffixNames : List HashKey := [keyOf [97] 4]

theorem suffixNames_fits : Fits line64 ⟨true, 1, 64⟩ suffixNames where
  test := by decide
  buckets := by decide
  elts := by decide
  room := by
    have hcount : bucketCount ⟨true, 1, 64⟩ suffixNames = 1 := by decide
    rw [hcount]
    intro k hk
    obtain rfl : k = 0 := Nat.lt_one_iff.mp (lt_of_inBucket Nat.one_pos hk)
    decide

theorem suffixA_listed : Listed (fun a b => a.length < b.length) [suffixA] where
  nonempty := by decide
  labels := by
    refine List.forall_mem_singleton.mpr (List.forall_mem_singleton.mpr ⟨?_, ?_, ?_, ?_⟩) <;> decide
  marked := List.forall_mem_singleton.mpr ⟨by decide, by decide⟩
  sorted := ⟨fun _ _ => Nat.lt_asymm, List.pairwise_singleton _ _⟩

theorem suffixA_built : ∃ hash, hashWildcardInit line64 ⟨true, 1, 64⟩ suffixPool
    ([suffixA].map toName) =
      .ok (some (⟨Function.update (fun _ => none) 0 (some ⟨hash, 0, suffixNames⟩), 1⟩, 0)) := by
  obtain ⟨hash, hhash⟩ : ∃ hash, hashInit line64 ⟨true, 1, 64⟩ 0 (fun _ => 170) suffixNames =
      .ok (some hash) := by
    obtain ⟨m, hhash, -⟩ := hashInit_of_fits 0 (fun _ => 170) (by decide) (by decide) suffixNames_fits
    exact ⟨_, hhash⟩
  have hcurr (init : Init) : currNames init 1 ([suffixA].map toName) ⟨fun _ => none, 0⟩ =
      .ok (some (⟨fun _ => none, 0⟩, suffixNames)) := rfl
  have hbuild : build line64 ⟨true, 1, 64⟩ suffixPool suffixNames ⟨fun _ => none, 0⟩ = .ok (some
      (⟨Function.update (fun _ => none) 0 (some ⟨hash, 0, suffixNames⟩), 1⟩, 0)) := by
    simp only [build, suffixPool, hhash]
    rfl
  refine ⟨hash, ?_⟩
  have hrun : hashWildcardInit line64 ⟨true, 1, 64⟩ suffixPool ([suffixA].map toName) =
      init line64 ⟨true, 1, 64⟩ suffixPool 2 ([suffixA].map toName) ⟨fun _ => none, 0⟩ := rfl
  rw [hrun, init, List.length_map, List.length_singleton, hcurr]
  exact hbuild

theorem findWcHead_suffixA : ∃ heap p x,
    hashWildcardInit line64 ⟨true, 1, 64⟩ suffixPool ([suffixA].map toName) = .ok (some (heap, p)) ∧
      hashFindWcHead heap.tables p (hostName [[97], [98]]) = some x ∧
      Longest [suffixA] 0 [[97], [98]] x := by
  obtain ⟨hash, hbuilt⟩ := suffixA_built
  have hsound : suffixPool.Sound 1 :=
    ⟨fun i hi j hj _ => by omega, fun i hi => by rw [Nat.lt_one_iff.mp hi]; decide⟩
  obtain ⟨x, hx, hlongest⟩ := findWcHead_longest suffixA_listed hbuilt hsound
    (fun i hi t ht => by
      obtain rfl : i = 0 := Nat.lt_one_iff.mp hi
      obtain rfl : _ = t := Option.some.inj ((Function.update_self (f := fun _ => none) 0 _).symm.trans ht)
      exact suffixNames_fits.room)
    (h := [[97], [98]]) (List.cons_ne_nil _ _) (by decide)
  exact ⟨_, _, x, hbuilt, hx, hlongest⟩

end RebuildTheWheel.Nginx
