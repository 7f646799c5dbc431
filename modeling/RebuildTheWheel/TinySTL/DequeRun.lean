import RebuildTheWheel.Data.Run
import RebuildTheWheel.TinySTL.Deque

namespace RebuildTheWheel.TinySTL

open Data

namespace Deque

variable {T : Type} {beyond : List Nat → Option SlotPtr} {d d' : Deque T} {it : DqIter}
  {b n p q : Nat} {xs : List T} {val : T}

def slotAt (d : Deque T) (p : Nat) : Option T := do
  let bucket ← d.map[p / 64]?
  d.slots bucket (p % 64 : Nat)

/-- The elements are at the `n` positions from `b`. -/
structure Ready (beyond : List Nat → Option SlotPtr) (d : Deque T) (b n : Nat) : Prop where
  size : d.map.length = d.mapSize
  even : ∃ k, 0 < k ∧ d.mapSize = 2 * k
  nodup : d.map.Nodup
  fresh : ∀ i ∈ d.map, i < d.nextBucket
  beg : d.Stands beyond d.beg b
  end_ : d.Stands beyond d.end_ (b + n)
  fits : b + n ≤ 64 * d.mapSize

def Filled (d : Deque T) (b : Nat) (xs : List T) : Prop :=
  ∀ i, i < xs.length → d.slotAt (b + i) = xs[i]?

theorem Stands.exists_slot (h : d.Stands beyond it p) (hp : p / 64 < d.map.length) :
    it.cur = some ⟨d.map[p / 64], (p % 64 : Nat)⟩ := by
  obtain ⟨head, hhead, rfl⟩ := h
  rw [bucketAt_of_lt hp] at hhead
  obtain rfl := Option.some.inj hhead
  simp [SlotPtr.add]

theorem slotAt_of_lt (hp : p / 64 < d.map.length) :
    d.slotAt p = d.slots d.map[p / 64] (p % 64 : Nat) := by
  rw [slotAt, List.getElem?_eq_getElem hp]
  rfl

theorem Stands.deref (h : d.Stands beyond it p) (hp : p / 64 < d.map.length) :
    d.deref it = d.slotAt p := by
  rw [Deque.deref, h.exists_slot hp, slotAt_of_lt hp]
  rfl

theorem slotAt_put (hnodup : d.map.Nodup) (hp : p / 64 < d.map.length) (val : Option T) (q : Nat) :
    (d.put ⟨d.map[p / 64], (p % 64 : Nat)⟩ val).slotAt q =
      if q = p ∧ q / 64 < d.map.length then val else d.slotAt q := by
  by_cases hq : q / 64 < d.map.length
  · have hput : (d.put ⟨d.map[p / 64], (p % 64 : Nat)⟩ val).slotAt q =
        if d.map[q / 64] = d.map[p / 64] ∧ ((q % 64 : Nat) : Int) = (p % 64 : Nat) then val
        else d.slots d.map[q / 64] (q % 64 : Nat) := by
      rw [slotAt_of_lt (d := d.put _ val) hq]
      rfl
    rw [hput, slotAt_of_lt hq]
    have hiff : q / 64 = p / 64 ∧ ((q % 64 : Nat) : Int) = (p % 64 : Nat) ↔
        q = p ∧ q / 64 < d.map.length := by omega
    simp only [hnodup.getElem_inj_iff, hiff]
  · have hnone : d.slotAt q = none := by
      rw [slotAt, List.getElem?_eq_none (Nat.le_of_not_lt hq)]
      rfl
    rw [if_neg (fun h => hq h.2), hnone, slotAt]
    simp [put, List.getElem?_eq_none (Nat.le_of_not_lt hq)]

theorem Ready.lt (h : d.Ready beyond b n) (hp : p < 64 * d.mapSize) : p / 64 < d.map.length := by
  have hsize := h.size
  omega

theorem Ready.inBucket (h : d.Ready beyond b n) (hp : p / 64 < d.map.length) :
    d.inBucket ⟨d.map[p / 64], (p % 64 : Nat)⟩ = true := by
  have hfresh := h.fresh _ (List.getElem_mem hp)
  refine decide_eq_true ⟨?_, ?_, hfresh⟩
  · exact Int.natCast_nonneg _
  · exact Int.ofNat_lt.mpr (Nat.mod_lt p (by decide))

/-- A slot is written to. -/
theorem Ready.construct (h : d.Ready beyond b n) (hit : d.Stands beyond it p)
    (hp : p < 64 * d.mapSize) (val : T) :
    ∃ cur d', it.cur = some cur ∧ d.construct cur val = some d' ∧ d' = d.put cur (some val) ∧
      ∀ q, q < 64 * d.mapSize → d'.slotAt q = if q = p then some val else d.slotAt q := by
  have hlt := h.lt hp
  refine ⟨_, _, hit.exists_slot hlt, if_pos (h.inBucket hlt), rfl, ?_⟩
  intro q hq
  rw [slotAt_put h.nodup hlt]
  simp [h.lt hq]

/-- An element is destroyed. -/
theorem Ready.destroy (h : d.Ready beyond b n) (hit : d.Stands beyond it p)
    (hp : p < 64 * d.mapSize) (hsome : (d.slotAt p).isSome) :
    ∃ cur d', it.cur = some cur ∧ d.destroy cur = some d' ∧ d' = d.put cur none ∧
      ∀ q, q ≠ p → d'.slotAt q = d.slotAt q := by
  have hlt := h.lt hp
  rw [slotAt_of_lt hlt] at hsome
  refine ⟨_, _, hit.exists_slot hlt, if_pos ⟨h.inBucket hlt, hsome⟩, rfl, ?_⟩
  intro q hne
  rw [slotAt_put h.nodup hlt, if_neg fun heq => hne heq.1]

theorem Ready.pos (h : d.Ready beyond b n) : 0 < d.mapSize := by
  obtain ⟨k, hk, hsize⟩ := h.even
  omega

theorem Ready.empty_iff (h : d.Ready beyond b n) : d.empty = true ↔ n = 0 := by
  rw [empty, decide_eq_true_eq, h.beg.eq_iff h.end_]
  omega

theorem Ready.size_eq (h : d.Ready beyond b n) : d.size beyond = some (n : Int) := by
  rw [Deque.size, h.end_.difference h.beg]
  congr 1
  omega

/-- `init` makes both ends of a fresh map. -/
theorem init_ready (beyond : List Nat → Option SlotPtr) (d : Deque T) :
    d.init.Ready beyond 64 0 := by
  have hstands : d.init.Stands beyond ⟨1, some ⟨d.nextBucket + 1, 0⟩, true⟩ 64 :=
    ⟨⟨d.nextBucket + 1, 0⟩, rfl, rfl⟩
  refine ⟨rfl, ⟨1, Nat.one_pos, rfl⟩, List.nodup_range', ?_, hstands, hstands, ?_⟩
  · intro i hi
    have hmem := List.mem_range'_1.mp hi
    exact hmem.2
  · show 64 + 0 ≤ 64 * 2
    decide

theorem filled_nil (d : Deque T) (b : Nat) : d.Filled b [] := by
  intro i hi
  cases hi

/-! The two ends, when there is room. -/

theorem Ready.putBack (h : d.Ready beyond b xs.length) (hfill : d.Filled b xs)
    (hroom : b + xs.length < 64 * d.mapSize)
    (hlast : b + xs.length + 1 = 64 * d.mapSize → (d.bucketAt beyond d.mapSize).isSome)
    (val : T) :
    ∃ cur d₁ it', d.end_.cur = some cur ∧ d.construct cur val = some d₁ ∧
      d₁.inc beyond d₁.end_ = some it' ∧
      ({ d₁ with end_ := it' } : Deque T).Ready beyond b (xs ++ [val]).length ∧
      ({ d₁ with end_ := it' } : Deque T).Filled b (xs ++ [val]) := by
  obtain ⟨cur, d₁, hcur, hrun, rfl, hslots⟩ := h.construct h.end_ hroom val
  obtain ⟨it', hinc, hit'⟩ := h.end_.inc h.size hroom hlast
  refine ⟨cur, _, it', hcur, hrun, hinc, ⟨h.size, h.even, h.nodup, h.fresh, h.beg, ?_, ?_⟩, ?_⟩
  · rw [List.length_append, ← Nat.add_assoc]
    exact hit'
  · rw [List.length_append, ← Nat.add_assoc]
    exact hroom
  · intro i hi
    rw [List.length_append, List.length_singleton] at hi
    refine (hslots (b + i) (by omega)).trans ?_
    split_ifs with heq
    · obtain rfl : i = xs.length := by omega
      rw [List.getElem?_concat_length]
    · have hlt : i < xs.length := by omega
      rw [hfill i hlt, List.getElem?_append_left hlt]

theorem Ready.putFront (h : d.Ready beyond (b + 1) xs.length) (hfill : d.Filled (b + 1) xs)
    (val : T) :
    ∃ it' cur d₁, d.dec beyond d.beg = some it' ∧ it'.cur = some cur ∧
      d.construct cur val = some d₁ ∧
      ({ d₁ with beg := it' } : Deque T).Ready beyond b (val :: xs).length ∧
      ({ d₁ with beg := it' } : Deque T).Filled b (val :: xs) := by
  have hfits := h.fits
  have hroom : b < 64 * d.mapSize := by omega
  obtain ⟨it', hdec, hit'⟩ := h.beg.dec h.size hroom
  obtain ⟨cur, d₁, hcur, hrun, rfl, hslots⟩ := h.construct hit' hroom val
  refine ⟨it', cur, _, hdec, hcur, hrun, ⟨h.size, h.even, h.nodup, h.fresh, hit', ?_, ?_⟩, ?_⟩
  · rw [List.length_cons, Nat.add_comm xs.length, ← Nat.add_assoc]
    exact h.end_
  · rw [List.length_cons, Nat.add_comm xs.length, ← Nat.add_assoc]
    exact hfits
  · intro i hi
    rw [List.length_cons] at hi
    refine (hslots (b + i) (by omega)).trans ?_
    cases i with
    | zero => exact if_pos rfl
    | succ i =>
        have hshift : b + (i + 1) = b + 1 + i := by omega
        rw [if_neg (by omega), hshift, hfill i (by omega), List.getElem?_cons_succ]

theorem Ready.bucketAt_end (h : d.Ready beyond b n) :
    (d.bucketAt beyond ((b + n) / 64)).isSome := by
  obtain ⟨head, hhead, -⟩ := h.end_
  rw [hhead]
  rfl

theorem Ready.popFront {x : T} (h : d.Ready beyond b (x :: xs).length)
    (hfill : d.Filled b (x :: xs)) :
    ∃ d', d.popFront beyond = some d' ∧ d'.Ready beyond (b + 1) xs.length ∧ d'.Filled (b + 1) xs := by
  have hlength : (x :: xs).length = xs.length + 1 := rfl
  have hfits := h.fits
  have hfirst : d.slotAt b = some x := hfill 0 (Nat.succ_pos _)
  have hroom : b < 64 * d.mapSize := by omega
  obtain ⟨cur, d₁, hcur, hrun, rfl, hslots⟩ := h.destroy h.beg hroom (hfirst ▸ rfl)
  have hlast : b + 1 = 64 * d.mapSize → (d.bucketAt beyond d.mapSize).isSome := by
    intro heq
    have hsome := h.bucketAt_end
    have hend : (b + (x :: xs).length) / 64 = d.mapSize := by omega
    rwa [hend] at hsome
  obtain ⟨it', hinc, hit'⟩ := h.beg.inc h.size hroom hlast
  have hshift : b + (x :: xs).length = b + 1 + xs.length := by omega
  refine ⟨{ d.put cur none with beg := it' }, ?_,
    ⟨h.size, h.even, h.nodup, h.fresh, hit', hshift ▸ h.end_, hshift ▸ hfits⟩, ?_⟩
  · rw [Deque.popFront, hcur]
    simp only [Option.bind_eq_bind, Option.bind_some, hrun]
    show (d.inc beyond d.beg).bind _ = _
    rw [hinc]
    rfl
  · intro i hi
    have hnext := hfill (i + 1) (Nat.succ_lt_succ hi)
    rw [List.getElem?_cons_succ] at hnext
    have heq : b + 1 + i = b + (i + 1) := by omega
    rw [heq, ← hnext]
    exact hslots _ (by omega)

theorem Ready.popBack {x : T} (h : d.Ready beyond b (xs ++ [x]).length)
    (hfill : d.Filled b (xs ++ [x])) :
    ∃ d', d.popBack beyond = some d' ∧ d'.Ready beyond b xs.length ∧ d'.Filled b xs := by
  have hlength : (xs ++ [x]).length = xs.length + 1 := List.length_append
  have hfits := h.fits
  have hroom : b + xs.length < 64 * d.mapSize := by omega
  have hend : d.Stands beyond d.end_ (b + xs.length + 1) := by
    have hend := h.end_
    rwa [hlength, ← Nat.add_assoc] at hend
  obtain ⟨it', hdec, hit'⟩ := hend.dec h.size hroom
  have hlast : d.slotAt (b + xs.length) = some x := by
    rw [hfill xs.length (by omega), List.getElem?_concat_length]
  obtain ⟨cur, d₁, hcur, hrun, rfl, hslots⟩ := h.destroy hit' hroom (hlast ▸ rfl)
  refine ⟨{ d.put cur none with end_ := it' }, ?_,
    ⟨h.size, h.even, h.nodup, h.fresh, h.beg, hit', hroom.le⟩, ?_⟩
  · rw [Deque.popBack, hdec]
    simp only [Option.bind_eq_bind, Option.bind_some, hcur, hrun]
  · intro i hi
    have hold := hfill i (by omega)
    rw [List.getElem?_append_left hi] at hold
    rw [← hold]
    exact hslots _ (by omega)

/-! The tests for a full end. -/

theorem Ready.bucketAt_size (h : d.Ready beyond b n) :
    d.bucketAt beyond d.mapSize = beyond d.map := by
  have hpos := h.pos
  have hne : d.map ≠ [] := List.ne_nil_of_length_pos (h.size ▸ hpos)
  rw [bucketAt, List.getElem?_eq_none h.size.le]
  exact if_pos ⟨h.size.symm, hne⟩

theorem Ready.backFull {last : SlotPtr} (h : d.Ready beyond b n) (hlast : beyond d.map = some last)
    (hout : last.bucket ∉ d.map) : d.backFull beyond = some (decide (b + n = 64 * d.mapSize)) := by
  have hpos := h.pos
  have hfits := h.fits
  have hsize := h.size
  have hbehind := h.bucketAt_size.trans hlast
  have hprev : d.bucketAt beyond (d.mapSize - 1) = some _ := bucketAt_of_lt (by omega)
  rw [Deque.backFull, hprev, hbehind]
  simp only [Option.bind_eq_bind, Option.bind_some, Option.some.injEq, decide_eq_decide]
  by_cases hfull : b + n = 64 * d.mapSize
  · obtain ⟨head, hhead, hend⟩ := h.end_
    have hdiv : (b + n) / 64 = d.mapSize := by omega
    have hmod : (b + n) % 64 = 0 := by omega
    rw [hdiv, hbehind] at hhead
    rw [hend, hmod, Option.some.inj hhead]
    simp [hfull]
  · have hlt : b + n < 64 * d.mapSize := by omega
    rw [h.end_.exists_slot (h.lt hlt)]
    simp only [Option.some.injEq, hfull, iff_false]
    intro heq
    exact hout (heq ▸ List.getElem_mem (h.lt hlt))

theorem Ready.frontFull (h : d.Ready beyond b n) (hn : 0 < n) :
    d.frontFull beyond = some (decide (b = 0)) := by
  have hfits := h.fits
  have hlt : b / 64 < d.map.length := h.lt (by omega)
  have hfirst : d.bucketAt beyond 0 = some _ := bucketAt_of_lt (Nat.zero_lt_of_lt hlt)
  rw [Deque.frontFull, hfirst, h.beg.exists_slot hlt]
  simp only [Option.bind_eq_bind, Option.bind_some, Option.some.injEq, decide_eq_decide,
    SlotPtr.mk.injEq, h.nodup.getElem_inj_iff]
  omega

/-! Reallocation. -/

theorem copyBuckets_of_not_mem {slots : Nat → Int → Option T} {olds news : List Nat} {i : Nat}
    (hi : i ∉ news) (j : Int) : copyBuckets slots olds news i j = slots i j := by
  induction olds generalizing slots news with
  | nil => rfl
  | cons old olds ih =>
      cases news with
      | nil => rfl
      | cons new news =>
          rw [List.mem_cons, not_or] at hi
          rw [copyBuckets, ih hi.2, copyBucket, if_neg fun heq => hi.1 heq.1]

theorem copyBuckets_getElem {s : Nat → Int → Option T} {olds news : List Nat}
    (hnodup : news.Nodup) (hapart : ∀ i ∈ olds, i ∉ news) {m : Nat} (hold : m < olds.length)
    (hnew : m < news.length) {j : Nat} (hj : j < 64) :
    copyBuckets s olds news news[m] j = s olds[m] j := by
  induction olds generalizing s news m with
  | nil => cases hold
  | cons old olds ih =>
      cases news with
      | nil => cases hnew
      | cons new news =>
          obtain ⟨hfirst, hnodup'⟩ := List.nodup_cons.mp hnodup
          rw [copyBuckets]
          cases m with
          | zero =>
              rw [List.getElem_cons_zero, List.getElem_cons_zero, copyBuckets_of_not_mem hfirst]
              exact if_pos ⟨rfl, Int.natCast_nonneg j, Int.ofNat_lt.mpr hj⟩
          | succ m =>
              have hapart' : ∀ i ∈ olds, i ∉ news := fun i hi hmem =>
                hapart i (List.mem_cons_of_mem _ hi) (List.mem_cons_of_mem _ hmem)
              rw [List.getElem_cons_succ, List.getElem_cons_succ,
                ih hnodup' hapart' (Nat.lt_of_succ_lt_succ hold) (Nat.lt_of_succ_lt_succ hnew)]
              refine if_neg fun heq => ?_
              refine hapart new ?_ List.mem_cons_self
              rw [← heq.1]
              exact List.mem_cons_of_mem old (List.getElem_mem _)

/-- The elements keep their places in the buckets when the buckets are copied to row `k` of a
new map. -/
theorem Filled.copyBuckets {d₁ : Deque T} {k : Nat} (hfill : d.Filled b xs)
    (hfresh : ∀ i ∈ d.map, i < d.nextBucket) (hold : b + xs.length ≤ 64 * d.map.length)
    (hnew : d.map.length + k ≤ (d.newMap (4 * k)).length)
    (hmap : d₁.map = d.newMap (4 * k))
    (hslots : d₁.slots =
      Deque.copyBuckets d.slots (d.map.drop (b / 64)) ((d.newMap (4 * k)).drop k)) :
    d₁.Filled (64 * k + b % 64) xs := by
  intro i hi
  have holdRow : (b + i) / 64 < d.map.length := by omega
  have hslot := hfill i hi
  rw [slotAt_of_lt holdRow] at hslot
  have hrow : (b + i) / 64 = b / 64 + (b % 64 + i) / 64 := by omega
  have hrow' : (64 * k + b % 64 + i) / 64 = k + (b % 64 + i) / 64 := by omega
  have hoffset : (64 * k + b % 64 + i) % 64 = (b + i) % 64 := by omega
  -- the new buckets were never in the old map
  have hapart : ∀ j ∈ d.map.drop (b / 64), j ∉ (d.newMap (4 * k)).drop k := by
    intro j hj hmem
    have hbelow := hfresh j (List.mem_of_mem_drop hj)
    have habove := (List.mem_range'_1.mp (List.mem_of_mem_drop hmem)).1
    omega
  have hlt : (b % 64 + i) / 64 < (d.map.drop (b / 64)).length := by
    rw [List.length_drop]
    omega
  have hlt' : (b % 64 + i) / 64 < ((d.newMap (4 * k)).drop k).length := by
    rw [List.length_drop]
    omega
  have hnodup : ((d.newMap (4 * k)).drop k).Nodup :=
    (List.drop_sublist k _).nodup List.nodup_range'
  have hcopy := copyBuckets_getElem (s := d.slots) hnodup hapart hlt hlt'
    (Nat.mod_lt (b + i) (by decide))
  rw [List.getElem_drop, List.getElem_drop] at hcopy
  have hlength : (64 * k + b % 64 + i) / 64 < d₁.map.length := by
    rw [hmap]
    omega
  refine (slotAt_of_lt hlength).trans ?_
  rw [← hslot, hoffset]
  simp only [hslots, hmap, hrow', hrow]
  exact hcopy

/-- The elements are copied to the middle of a map of twice the size. -/
theorem Ready.reallocateAndCopy (h : d.Ready beyond b xs.length) (hfill : d.Filled b xs)
    (hne : xs ≠ []) (hend : b % 64 + xs.length < 64 ∨ (b + xs.length) % 64 ≠ 63) :
    ∃ d' b', d.reallocateAndCopy beyond = some d' ∧ d'.Ready beyond b' xs.length ∧
      d'.Filled b' xs ∧ 0 < b' ∧ b' + xs.length < 64 * d'.mapSize ∧
      (b' + xs.length + 1 ≠ 64 * d'.mapSize) := by
  have hn : 0 < xs.length := List.length_pos_iff.mpr hne
  have hfits := h.fits
  have hsize := h.size
  obtain ⟨k, hk, htwice⟩ := h.even
  have hnew : getNewMapSize d.mapSize = 4 * k := by
    rw [getNewMapSize, if_neg (by omega), htwice]
    omega
  have hstart : 4 * k / 4 = k := Nat.mul_div_cancel_left k (by decide)
  have hb : b / 64 < d.map.length := h.lt (by omega)
  have hcur := h.beg.exists_slot hb
  have hindex : d.beg.mapIndex = b / 64 := by
    obtain ⟨head, -, hbeg⟩ := h.beg
    rw [hbeg]
  have hhead : d.bucketAt beyond (b / 64) = some ⟨d.map[b / 64], 0⟩ := bucketAt_of_lt hb
  have hfirst : d.bucketAt beyond 0 = some _ := bucketAt_of_lt (Nat.zero_lt_of_lt hb)
  have hlength : (d.newMap (4 * k)).length = 4 * k := List.length_range'
  have hk' : k < (d.newMap (4 * k)).length := by omega
  obtain ⟨d₁, hd₁⟩ : ∃ d₁ : Deque T, d₁ =
      { slots := copyBuckets d.slots (d.map.drop (b / 64)) ((d.newMap (4 * k)).drop k)
        nextBucket := d.nextBucket + 4 * k
        mapSize := 4 * k
        map := d.newMap (4 * k)
        beg := ⟨k, some ⟨(d.newMap (4 * k))[k], (b % 64 : Nat)⟩, true⟩
        end_ := { d.end_ with mapIndex := 0, cur := some ⟨d.map[0], 0⟩ } } := ⟨_, rfl⟩
  have hmap : d₁.map = d.newMap (4 * k) := by rw [hd₁]
  have hmapSize : d₁.mapSize = 4 * k := by rw [hd₁]
  have hdiv : (64 * k + b % 64) / 64 = k := by omega
  have hmod : (64 * k + b % 64) % 64 = b % 64 := by omega
  have hbeg : d₁.Stands beyond d₁.beg (64 * k + b % 64) := by
    refine ⟨⟨(d.newMap (4 * k))[k], 0⟩, ?_, ?_⟩
    · rw [hdiv, bucketAt_of_lt (hmap ▸ hk')]
      simp [hmap]
    · rw [hdiv, hmod, hd₁]
      simp [SlotPtr.add]
  obtain ⟨it, hplus, hit⟩ := hbeg.plus (n := xs.length) (by omega) (by
    rw [bucketAt_of_lt (by rw [hmap, hlength]; omega)]
    rfl)
  refine ⟨{ d₁ with end_ := it }, 64 * k + b % 64, ?_, ⟨?_, ?_, ?_, ?_, hbeg, hit, ?_⟩, ?_, ?_, ?_, ?_⟩
  · rw [Deque.reallocateAndCopy, hnew, hstart, hindex, hhead, hcur, h.size_eq, Deque.clear, hfirst,
      List.getElem?_eq_getElem hk']
    rw [hd₁] at hplus ⊢
    simp only [SlotPtr.sub, Option.bind_eq_bind, Option.bind_some, ↓reduceIte, Int.sub_zero, hplus]
  · rw [hd₁]
    exact hlength
  · exact ⟨2 * k, by omega, hmapSize.trans (by omega)⟩
  · rw [hd₁]
    exact List.nodup_range'
  · rw [hd₁]
    exact fun i hi => (List.mem_range'_1.mp hi).2
  · show 64 * k + b % 64 + xs.length ≤ 64 * d₁.mapSize
    omega
  · exact hfill.copyBuckets h.fresh (by omega) (by omega) hmap (by rw [hd₁])
  · omega
  · show 64 * k + b % 64 + xs.length < 64 * d₁.mapSize
    omega
  · show 64 * k + b % 64 + xs.length + 1 ≠ 64 * d₁.mapSize
    omega

/-! Runs. -/

inductive Op (T : Type) where
  | pushBack (val : T)
  | pushFront (val : T)
  | popBack
  | popFront

def step (beyond : List Nat → Option SlotPtr) (d : Deque T) : Op T → Option (Deque T)
  | .pushBack val => d.pushBack beyond val
  | .pushFront val => d.pushFront beyond val
  | .popBack => d.popBack beyond
  | .popFront => d.popFront beyond

/-- A back end that is looked at has a word behind the map that can be read and points to
none of the deque's buckets. A full front end does not move 127, 191, 255, .. elements. -/
def Admits (beyond : List Nat → Option SlotPtr) (d : Deque T) : Op T → Prop
  | .pushBack _ => d.empty = false → ∃ last, beyond d.map = some last ∧ last.bucket ∉ d.map
  | .pushFront _ => d.empty = false → d.frontFull beyond = some true →
      ∀ size, d.size beyond = some size → size ≤ 63 ∨ size % 64 ≠ 63
  | .popBack | .popFront => d.empty = false

def Op.apply (xs : List T) : Op T → List T
  | .pushBack val => xs ++ [val]
  | .pushFront val => val :: xs
  | .popBack => xs.dropLast
  | .popFront => xs.tail

def Holds (beyond : List Nat → Option SlotPtr) (d : Deque T) (xs : List T) : Prop :=
  d = new ∧ xs = [] ∨ ∃ b, d.Ready beyond b xs.length ∧ d.Filled b xs

theorem Holds.empty_iff (h : d.Holds beyond xs) : d.empty = true ↔ xs = [] := by
  rcases h with ⟨rfl, rfl⟩ | ⟨b, hready, -⟩
  · exact iff_of_true (decide_eq_true rfl) rfl
  · rw [hready.empty_iff, List.length_eq_zero_iff]

theorem Holds.ready (h : d.Holds beyond xs) (hne : xs ≠ []) :
    ∃ b, d.Ready beyond b xs.length ∧ d.Filled b xs :=
  h.resolve_left fun hnew => hne hnew.2

theorem Holds.empty_eq_false (h : d.Holds beyond xs) (hne : xs ≠ []) : d.empty = false :=
  Bool.eq_false_iff.mpr fun hempty => hne (h.empty_iff.mp hempty)

theorem Holds.pushBack (h : d.Holds beyond xs) (hadmits : Admits beyond d (.pushBack val)) :
    ∃ d', d.pushBack beyond val = some d' ∧ d'.Holds beyond (xs ++ [val]) := by
  -- the deque, with room at its end
  obtain ⟨d₀, b, hroom, hready, hfill, hlt, hlast⟩ : ∃ d₀ b,
      (if d.empty then some d.init
        else do
          let full ← d.backFull beyond
          if full then d.reallocateAndCopy beyond else some d) = some d₀ ∧
        d₀.Ready beyond b xs.length ∧ d₀.Filled b xs ∧ b + xs.length < 64 * d₀.mapSize ∧
        (b + xs.length + 1 = 64 * d₀.mapSize → (d₀.bucketAt beyond d₀.mapSize).isSome) := by
    by_cases hxs : xs = []
    · subst hxs
      have hinit := init_ready beyond d
      refine ⟨d.init, 64, if_pos (h.empty_iff.mpr rfl), hinit, filled_nil _ _, ?_, ?_⟩
      · show 64 < 64 * 2
        decide
      · show 64 + 0 + 1 = 64 * 2 → _
        omega
    · obtain ⟨b, hready, hfill⟩ := h.ready hxs
      have hempty := h.empty_eq_false hxs
      obtain ⟨last, hlast, hout⟩ := hadmits hempty
      rw [hempty, if_neg Bool.false_ne_true, hready.backFull hlast hout]
      simp only [Option.bind_eq_bind, Option.bind_some, decide_eq_true_eq]
      by_cases hfull : b + xs.length = 64 * d.mapSize
      · obtain ⟨d₀, b', hrun, hready', hfill', -, hlt, hmore⟩ :=
          hready.reallocateAndCopy hfill hxs (.inr (by omega))
        refine ⟨d₀, b', ?_, hready', hfill', hlt, fun heq => absurd heq hmore⟩
        rw [if_pos hfull, hrun]
      · have hfits := hready.fits
        refine ⟨d, b, if_neg hfull, hready, hfill, by omega, fun _ => ?_⟩
        rw [hready.bucketAt_size, hlast]
        rfl
  obtain ⟨cur, d₁, it', hcur, hrun, hinc, hready', hfill'⟩ := hready.putBack hfill hlt hlast val
  refine ⟨{ d₁ with end_ := it' }, ?_, .inr ⟨b, hready', hfill'⟩⟩
  rw [Deque.pushBack, hroom]
  simp only [Option.bind_eq_bind, Option.bind_some, hcur, hrun, hinc]

theorem Holds.pushFront (h : d.Holds beyond xs) (hadmits : Admits beyond d (.pushFront val)) :
    ∃ d', d.pushFront beyond val = some d' ∧ d'.Holds beyond (val :: xs) := by
  -- the deque, with room in front
  obtain ⟨d₀, b, hroom, hready, hfill⟩ : ∃ d₀ b,
      (if d.empty then some d.init
        else do
          let full ← d.frontFull beyond
          if full then d.reallocateAndCopy beyond else some d) = some d₀ ∧
        d₀.Ready beyond (b + 1) xs.length ∧ d₀.Filled (b + 1) xs := by
    by_cases hxs : xs = []
    · subst hxs
      exact ⟨d.init, 63, if_pos (h.empty_iff.mpr rfl), init_ready beyond d, filled_nil _ _⟩
    · obtain ⟨b, hready, hfill⟩ := h.ready hxs
      have hempty := h.empty_eq_false hxs
      have hfront := hready.frontFull (List.length_pos_iff.mpr hxs)
      rw [hempty, if_neg Bool.false_ne_true, hfront]
      simp only [Option.bind_eq_bind, Option.bind_some, decide_eq_true_eq]
      cases b with
      | zero =>
          have hsize := hadmits hempty hfront _ hready.size_eq
          obtain ⟨d₀, b', hrun, hready', hfill', hpos, -⟩ :=
            hready.reallocateAndCopy hfill hxs (by omega)
          obtain ⟨b, rfl⟩ : ∃ b, b' = b + 1 := ⟨b' - 1, by omega⟩
          refine ⟨d₀, b, ?_, hready', hfill'⟩
          rw [if_pos rfl, hrun]
      | succ b => exact ⟨d, b, if_neg (Nat.succ_ne_zero b), hready, hfill⟩
  obtain ⟨it', cur, d₁, hdec, hcur, hrun, hready', hfill'⟩ := hready.putFront hfill val
  refine ⟨{ d₁ with beg := it' }, ?_, .inr ⟨b, hready', hfill'⟩⟩
  rw [Deque.pushFront, hroom]
  simp only [Option.bind_eq_bind, Option.bind_some, hcur, hrun, hdec]

theorem step_holds (h : d.Holds beyond xs) (op : Op T) (hop : Admits beyond d op) :
    ∃ d', d.step beyond op = some d' ∧ d'.Holds beyond (op.apply xs) := by
  cases op with
  | pushBack val => exact h.pushBack hop
  | pushFront val => exact h.pushFront hop
  | popBack =>
      have hxs : xs ≠ [] := fun hnil => Bool.false_ne_true (hop.symm.trans (h.empty_iff.mpr hnil))
      obtain ⟨b, hready, hfill⟩ := h.ready hxs
      rw [← List.dropLast_append_getLast hxs] at hready hfill
      obtain ⟨d', hrun, hready', hfill'⟩ := hready.popBack hfill
      exact ⟨d', hrun, .inr ⟨b, hready', hfill'⟩⟩
  | popFront =>
      have hxs : xs ≠ [] := fun hnil => Bool.false_ne_true (hop.symm.trans (h.empty_iff.mpr hnil))
      obtain ⟨b, hready, hfill⟩ := h.ready hxs
      cases xs with
      | nil => exact absurd rfl hxs
      | cons x xs =>
          obtain ⟨d', hrun, hready', hfill'⟩ := hready.popFront hfill
          exact ⟨d', hrun, .inr ⟨b + 1, hready', hfill'⟩⟩

/-! What a client sees. -/

structure Shows (beyond : List Nat → Option SlotPtr) (d : Deque T) (xs : List T) : Prop where
  walk : ∀ fuel, xs.length < fuel → d.walk beyond fuel d.beg = some xs
  size : d.size beyond = some (xs.length : Int)
  front : ∀ x, xs.head? = some x → d.front = some x
  back : ∀ x, xs.getLast? = some x → d.back beyond = some x

theorem Ready.walk {fuel i : Nat} (h : d.Ready beyond b xs.length) (hfill : d.Filled b xs)
    (hit : d.Stands beyond it (b + i)) (hi : i ≤ xs.length) (hfuel : xs.length < fuel + i) :
    d.walk beyond fuel it = some (xs.drop i) := by
  induction fuel generalizing it i with
  | zero => omega
  | succ fuel ih =>
      rw [Deque.walk]
      have hiff := hit.eq_iff h.end_
      by_cases hend : i = xs.length
      · subst hend
        rw [if_pos (hiff.mpr rfl), List.drop_length]
      · have hfits := h.fits
        have hlt : i < xs.length := by omega
        have hlast : b + i + 1 = 64 * d.mapSize → (d.bucketAt beyond d.mapSize).isSome := by
          intro heq
          have hsome := h.bucketAt_end
          have hdiv : (b + xs.length) / 64 = d.mapSize := by omega
          rwa [hdiv] at hsome
        obtain ⟨it', hinc, hit'⟩ := hit.inc h.size (by omega) hlast
        rw [if_neg fun heq => hend (by have := hiff.mp heq; omega),
          hit.deref (h.lt (by omega)), hfill i hlt, List.getElem?_eq_getElem hlt, hinc]
        simp only [Option.bind_eq_bind, Option.bind_some]
        rw [ih hit' hlt (by omega), List.drop_eq_getElem_cons hlt]
        rfl

theorem Holds.shows (h : d.Holds beyond xs) : d.Shows beyond xs := by
  rcases h with ⟨rfl, rfl⟩ | ⟨b, hready, hfill⟩
  · refine ⟨?_, rfl, ?_, ?_⟩
    · intro fuel hfuel
      cases fuel with
      | zero => cases hfuel
      | succ fuel => exact if_pos rfl
    · intro x hx
      cases hx
    · intro x hx
      cases hx
  · have hfits := hready.fits
    refine ⟨?_, hready.size_eq, ?_, ?_⟩
    · intro fuel hfuel
      exact hready.walk hfill hready.beg (Nat.zero_le _) hfuel
    · intro x hx
      rw [List.head?_eq_getElem?] at hx
      obtain ⟨hlt, -⟩ := List.getElem?_eq_some_iff.mp hx
      rw [Deque.front, hready.beg.deref (hready.lt (by omega)), ← hx]
      exact hfill 0 hlt
    · intro x hx
      rw [List.getLast?_eq_getElem?] at hx
      obtain ⟨hlt, -⟩ := List.getElem?_eq_some_iff.mp hx
      have hend : d.Stands beyond d.end_ (b + (xs.length - 1) + 1) := by
        have heq : b + (xs.length - 1) + 1 = b + xs.length := by omega
        rw [heq]
        exact hready.end_
      obtain ⟨it', hminus, hit'⟩ := hend.minus_one hready.size (by omega)
      rw [Deque.back, hminus, ← hx, ← hfill _ hlt]
      exact hit'.deref (hready.lt (by omega))

/-- After 127 elements were moved the end is in front of a bucket, and the last element cannot
be removed. -/
def wrongEnd : List (Op Nat) :=
  List.replicate 64 (.pushFront 0) ++ .popBack :: List.replicate 65 (.pushFront 0) ++ [.popBack]

end Deque

end RebuildTheWheel.TinySTL
