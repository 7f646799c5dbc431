import RebuildTheWheel.TinySTL.DequeRun

namespace RebuildTheWheel.TinySTL

open Data

namespace Deque

variable {T : Type} {d d' : Deque T} {it : DqIter} {b n p : Nat} {xs : List T}

/-! The operations without the elements, which neither read the map nor move an iterator. An
access of the map behind its last entry has no result. -/

def noEntry : List Nat → Option SlotPtr := fun _ => none

def pushBackMap (d : Deque T) : Option (Deque T) := do
  let d ← (if d.empty then some d.init
    else do
      let full ← d.backFull noEntry
      if full then d.reallocateAndCopy noEntry else some d)
  let end_ ← d.inc noEntry d.end_
  some { d with end_ := end_ }

def pushFrontMap (d : Deque T) : Option (Deque T) := do
  let d ← (if d.empty then some d.init
    else do
      let full ← d.frontFull noEntry
      if full then d.reallocateAndCopy noEntry else some d)
  let beg ← d.dec noEntry d.beg
  some { d with beg := beg }

def popFrontMap (d : Deque T) : Option (Deque T) := do
  let beg ← d.inc noEntry d.beg
  some { d with beg := beg }

def popBackMap (d : Deque T) : Option (Deque T) := do
  let end_ ← d.dec noEntry d.end_
  some { d with end_ := end_ }

def stepMap (d : Deque T) : Op T → Option (Deque T)
  | .pushBack _ => d.pushBackMap
  | .pushFront _ => d.pushFrontMap
  | .popBack => d.popBackMap
  | .popFront => d.popFrontMap

/-! What the slots hold makes no difference. -/

variable (slots : Nat → Int → Option T)

theorem clear_slots (h : d.clear noEntry = some d') :
    ({ d with slots := slots } : Deque T).clear noEntry = some { d' with slots := slots } := by
  simp only [Deque.clear, Option.bind_eq_bind, Option.bind_eq_some_iff] at h ⊢
  obtain ⟨head, hhead, hd'⟩ := h
  exact ⟨head, hhead, by rw [← Option.some.inj hd']⟩

theorem reallocateAndCopy_slots (h : d.reallocateAndCopy noEntry = some d') :
    ∃ slots', ({ d with slots := slots } : Deque T).reallocateAndCopy noEntry =
      some { d' with slots := slots' } := by
  simp only [reallocateAndCopy, Option.bind_eq_bind, Option.bind_eq_some_iff] at h ⊢
  obtain ⟨head, hhead, cur, hcur, n, hn, size, hsize, e, he, start, hstart, end_, hend, hd'⟩ := h
  refine ⟨copyBuckets slots (d.map.drop d.beg.mapIndex)
      ((d.newMap (getNewMapSize d.mapSize)).drop (getNewMapSize d.mapSize / 4)),
    head, hhead, cur, hcur, n, hn, size, hsize, _, clear_slots slots he, start, hstart, end_, hend, ?_⟩
  rw [← Option.some.inj hd']
  rfl

theorem room_slots {full : Option Bool} {d₀ : Deque T}
    (h : (if d.empty then some d.init
      else do
        let full ← full
        if full then d.reallocateAndCopy noEntry else some d) = some d₀) :
    ∃ slots', (if d.empty then some ({ d with slots := slots } : Deque T).init
      else do
        let full ← full
        if full then ({ d with slots := slots } : Deque T).reallocateAndCopy noEntry
          else some { d with slots := slots }) = some { d₀ with slots := slots' } := by
  cases hempty : d.empty with
  | true =>
      rw [hempty, if_pos rfl] at h
      refine ⟨slots, ?_⟩
      rw [if_pos rfl, ← Option.some.inj h]
      rfl
  | false =>
      simp only [hempty, Bool.false_eq_true, if_false, Option.bind_eq_bind,
        Option.bind_eq_some_iff] at h ⊢
      obtain ⟨full, hfull, h⟩ := h
      cases full with
      | true =>
          obtain ⟨slots', hrun⟩ := reallocateAndCopy_slots slots h
          exact ⟨slots', true, hfull, hrun⟩
      | false => exact ⟨slots, false, hfull, by rw [← Option.some.inj h]; rfl⟩

/-- The map and the iterators of a step are those of the step without the elements. -/
theorem stepMap_of_step {op : Op T} (h : d.step noEntry op = some d') :
    ∃ slots', ({ d with slots := slots } : Deque T).stepMap op =
      some { d' with slots := slots' } := by
  cases op with
  | pushBack val =>
      simp only [step, pushBack, Option.bind_eq_bind, Option.bind_eq_some_iff] at h
      obtain ⟨d₀, hroom, cur, hcur, d₁, hrun, it', hinc, hd'⟩ := h
      obtain ⟨slots', hroom'⟩ := room_slots slots hroom
      obtain ⟨-, hput⟩ := Option.ite_none_right_eq_some.mp hrun
      obtain rfl := Option.some.inj hput
      refine ⟨slots', Option.bind_eq_some_iff.mpr ⟨_, hroom', Option.bind_eq_some_iff.mpr ⟨_, hinc, ?_⟩⟩⟩
      rw [← Option.some.inj hd']
      rfl
  | pushFront val =>
      simp only [step, pushFront, Option.bind_eq_bind, Option.bind_eq_some_iff] at h
      obtain ⟨d₀, hroom, it', hdec, cur, hcur, d₁, hrun, hd'⟩ := h
      obtain ⟨slots', hroom'⟩ := room_slots slots hroom
      obtain ⟨-, hput⟩ := Option.ite_none_right_eq_some.mp hrun
      obtain rfl := Option.some.inj hput
      refine ⟨slots', Option.bind_eq_some_iff.mpr ⟨_, hroom', Option.bind_eq_some_iff.mpr ⟨_, hdec, ?_⟩⟩⟩
      rw [← Option.some.inj hd']
      rfl
  | popBack =>
      simp only [step, popBack, Option.bind_eq_bind, Option.bind_eq_some_iff] at h
      obtain ⟨it', hdec, cur, hcur, d₁, hrun, hd'⟩ := h
      obtain ⟨-, hput⟩ := Option.ite_none_right_eq_some.mp hrun
      obtain rfl := Option.some.inj hput
      refine ⟨slots, Option.bind_eq_some_iff.mpr ⟨_, hdec, ?_⟩⟩
      rw [← Option.some.inj hd']
      rfl
  | popFront =>
      simp only [step, popFront, Option.bind_eq_bind, Option.bind_eq_some_iff] at h
      obtain ⟨cur, hcur, d₁, hrun, it', hinc, hd'⟩ := h
      obtain ⟨-, hput⟩ := Option.ite_none_right_eq_some.mp hrun
      obtain rfl := Option.some.inj hput
      refine ⟨slots, Option.bind_eq_some_iff.mpr ⟨_, hinc, ?_⟩⟩
      rw [← Option.some.inj hd']
      rfl

theorem runMap_of_run {ops : List (Op T)} (h : ops.foldlM (step noEntry) d = some d') :
    ∃ slots', ops.foldlM stepMap { d with slots := slots } = some { d' with slots := slots' } := by
  induction ops generalizing d slots with
  | nil => exact ⟨slots, by rw [← Option.some.inj h]; rfl⟩
  | cons op ops ih =>
      rw [List.foldlM_cons] at h
      obtain ⟨d₁, hstep, hrest⟩ := Option.bind_eq_some_iff.mp h
      obtain ⟨slots₁, hstep'⟩ := stepMap_of_step slots hstep
      obtain ⟨slots', hrest'⟩ := ih slots₁ hrest
      refine ⟨slots', ?_⟩
      rw [List.foldlM_cons, hstep']
      exact hrest'

/-! Where the iterators point. The pointer of an end that is in front of its bucket does not
matter for the map. -/

def Points (d : Deque T) (it : DqIter) (p : Nat) : Prop :=
  ∃ (j : Nat) (head : SlotPtr) (o : Int), d.bucketAt noEntry j = some head ∧
    it = ⟨j, some (head.add o), true⟩ ∧ o ≤ 63 ∧ 64 * (j : Int) + o = p

theorem bucketAt_isSome {j : Nat} : (d.bucketAt noEntry j).isSome ↔ j < d.map.length := by
  constructor
  · intro hsome
    by_contra hnot
    rw [bucketAt, List.getElem?_eq_none (Nat.le_of_not_lt hnot)] at hsome
    cases hsome.symm.trans (congrArg Option.isSome (ite_self none))
  · intro hlt
    rw [bucketAt_of_lt hlt]
    rfl

theorem Stands.points (h : d.Stands noEntry it p) : d.Points it p := by
  obtain ⟨head, hhead, rfl⟩ := h
  exact ⟨p / 64, head, (p % 64 : Nat), hhead, rfl, by omega, by omega⟩

theorem Points.dec (h : d.Points it (p + 1)) :
    ∃ it', d.dec noEntry it = some it' ∧ d.Points it' p := by
  obtain ⟨j, head, o, hhead, rfl, ho, hsum⟩ := h
  by_cases hfirst : o = 0
  · subst hfirst
    obtain ⟨i, rfl⟩ : ∃ i, j = i + 1 := ⟨j - 1, by omega⟩
    have hlt := bucketAt_isSome.mp (Option.isSome_of_eq_some hhead)
    have hprev : d.bucketAt noEntry i = some _ := bucketAt_of_lt (by omega)
    refine ⟨_, ?_, i, _, 63, hprev, rfl, le_rfl, by omega⟩
    simp [Deque.dec, getBuckTail, getBuckHead, hhead, hprev, buckSize]
  · refine ⟨_, ?_, j, head, o + -1, hhead, rfl, by omega, by omega⟩
    simp [Deque.dec, getBuckHead, hhead, hfirst]

theorem Points.difference {q : Nat} {it' : DqIter} (h : d.Points it p)
    (h' : d.Stands noEntry it' q) : d.difference noEntry it it' = some ((p : Int) - q) := by
  obtain ⟨j, head, o, hhead, rfl, -, hsum⟩ := h
  obtain ⟨head', hhead', rfl⟩ := h'
  have hq : (q : Int) = 64 * (q / 64 : Nat) + (q % 64 : Nat) := by omega
  simp [Deque.difference, getBuckTail, getBuckHead, hhead, hhead', buckSize]
  omega

/-- The start of a bucket plus as many positions as leave a bucket behind. -/
theorem Stands.plus_points {k : Nat} (h : d.Stands noEntry it (64 * k))
    (hlast : k + n / 64 + 1 < d.map.length) :
    ∃ it', d.plus noEntry it n = some it' ∧ d.Points it' (64 * k + n) := by
  obtain ⟨head, hhead, rfl⟩ := h
  have hk : 64 * k / 64 = k := Nat.mul_div_cancel_left k (by decide)
  rw [hk] at hhead
  by_cases hin : n ≤ 63
  · have hle : (n : Int) ≤ 63 := by omega
    refine ⟨_, ?_, k, head, n, hhead, rfl, hle, by omega⟩
    simp [Deque.plus, getBuckTail, getBuckHead, hhead, buckSize, hk, hle]
  · have hnot : ¬(n : Int) ≤ 63 := by omega
    have hrest : ((n : Int) - 63).toNat = n - 63 := by omega
    have hnext : d.bucketAt noEntry (k + ((n - 63) / 64 + 1)) = some _ := bucketAt_of_lt (by omega)
    refine ⟨_, ?_, _, _, ((n - 63) % 64 : Nat) - 1, hnext, rfl, by omega, by omega⟩
    simp [Deque.plus, getBuckTail, getBuckHead, hhead, hnext, buckSize, hk, hnot, hrest,
      -Int.ofNat_toNat]

/-- The `n` elements from position `b` on end in the first half of the map. -/
structure Within (d : Deque T) (b n : Nat) : Prop where
  size : d.map.length = d.mapSize
  even : ∃ k, 0 < k ∧ d.mapSize = 2 * k
  nodup : d.map.Nodup
  beg : d.Stands noEntry d.beg b
  end_ : d.Points d.end_ (b + n)
  fits : b + n ≤ 32 * d.mapSize + 1

theorem Within.beg_lt (h : d.Within b n) : b / 64 < d.map.length := by
  obtain ⟨k, hk, htwice⟩ := h.even
  have hsize := h.size
  have hfits := h.fits
  omega

theorem Within.count_of_empty (h : d.Within b n) (hempty : d.empty = true) : n = 0 := by
  have hsame : d.beg = d.end_ := of_decide_eq_true hempty
  have hsize := h.end_.difference h.beg
  have hzero := h.beg.points.difference h.beg
  rw [← hsame, hzero, Option.some.injEq] at hsize
  omega

theorem init_within (d : Deque T) : d.init.Within 64 0 where
  size := rfl
  even := ⟨1, Nat.one_pos, rfl⟩
  nodup := List.nodup_range'
  beg := (init_ready noEntry d).beg
  end_ := (init_ready noEntry d).end_.points
  fits := Nat.le_succ 64

theorem Within.frontFull (h : d.Within b n) : d.frontFull noEntry = some (decide (b = 0)) := by
  have hlt := h.beg_lt
  have hfirst : d.bucketAt noEntry 0 = some _ := bucketAt_of_lt (Nat.zero_lt_of_lt hlt)
  rw [Deque.frontFull, hfirst, h.beg.exists_slot hlt]
  simp only [Option.bind_eq_bind, Option.bind_some, Option.some.injEq, decide_eq_decide,
    SlotPtr.mk.injEq, h.nodup.getElem_inj_iff]
  omega

/-- The test for a full end reads the entry behind the last one. -/
theorem Within.backFull (h : d.Within b n) : d.backFull noEntry = none := by
  have hbehind : d.bucketAt noEntry d.mapSize = none := by
    rw [bucketAt, List.getElem?_eq_none h.size.le]
    exact ite_self none
  rw [Deque.backFull, hbehind]
  exact Option.bind_eq_none_iff.mpr fun _ _ => rfl

theorem Within.reallocateAndCopy (h : d.Within 0 n) :
    ∃ d' b', d.reallocateAndCopy noEntry = some d' ∧ d'.Within (b' + 1) n := by
  have hsize := h.size
  have hfits := h.fits
  obtain ⟨k, hk, htwice⟩ := h.even
  have hnew : getNewMapSize d.mapSize = 4 * k := by
    rw [getNewMapSize, if_neg (by omega), htwice]
    omega
  have hstart : 4 * k / 4 = k := Nat.mul_div_cancel_left k (by decide)
  have hlength : (d.newMap (4 * k)).length = 4 * k := List.length_range'
  have hk' : k < (d.newMap (4 * k)).length := by omega
  obtain ⟨head, hhead, hbeg⟩ : ∃ head, d.bucketAt noEntry 0 = some head ∧
    d.beg = ⟨0, some (head.add 0), true⟩ := h.beg
  have hcount : d.size noEntry = some (n : Int) := by
    rw [Deque.size, h.end_.difference h.beg, Option.some.injEq]
    omega
  obtain ⟨d₁, hd₁⟩ : ∃ d₁ : Deque T, d₁ =
      { slots := copyBuckets d.slots (d.map.drop 0) ((d.newMap (4 * k)).drop k)
        nextBucket := d.nextBucket + 4 * k
        mapSize := 4 * k
        map := d.newMap (4 * k)
        beg := ⟨k, some ⟨(d.newMap (4 * k))[k], 0⟩, true⟩
        end_ := { d.end_ with mapIndex := 0, cur := some head } } := ⟨_, rfl⟩
  have hmap : d₁.map = d.newMap (4 * k) := by rw [hd₁]
  have hmapSize : d₁.mapSize = 4 * k := by rw [hd₁]
  have hbegin : d₁.Stands noEntry d₁.beg (64 * k) := by
    have hdiv : 64 * k / 64 = k := Nat.mul_div_cancel_left k (by decide)
    have hbucket : d₁.map[k]? = some (d.newMap (4 * k))[k] := by
      rw [hmap, List.getElem?_eq_getElem hk']
    refine ⟨⟨(d.newMap (4 * k))[k], 0⟩, ?_, ?_⟩
    · rw [hdiv, bucketAt, hbucket]
    · rw [hdiv, Nat.mul_mod_right, hd₁]
      rfl
  obtain ⟨it, hplus, hit⟩ := hbegin.plus_points (n := n) (by rw [hmap, hlength]; omega)
  refine ⟨{ d₁ with end_ := it }, 64 * k - 1, ?_, ?_⟩
  · rw [Deque.reallocateAndCopy, hnew, hstart, hcount, hbeg, hhead, Deque.clear, hhead,
      List.getElem?_eq_getElem hk']
    rw [hd₁] at hplus ⊢
    simp only [SlotPtr.sub_add, Option.bind_eq_bind, Option.bind_some, hplus]
  · have hprev : 64 * k - 1 + 1 = 64 * k := by omega
    rw [hprev]
    refine ⟨?_, ⟨2 * k, by omega, ?_⟩, ?_, hbegin, hit, ?_⟩
    · rw [hmapSize, hmap, hlength]
    · show d₁.mapSize = 2 * (2 * k)
      omega
    · rw [hmap]
      exact List.nodup_range'
    · show 64 * k + n ≤ 32 * d₁.mapSize + 1
      omega

theorem Within.popBackMap (h : d.Within b (n + 1)) :
    ∃ d', d.popBackMap = some d' ∧ d'.Within b n := by
  obtain ⟨it', hdec, hit'⟩ := Points.dec (p := b + n) h.end_
  refine ⟨_, Option.bind_eq_some_iff.mpr ⟨it', hdec, rfl⟩, ?_⟩
  exact ⟨h.size, h.even, h.nodup, h.beg, hit', Nat.le_of_succ_le h.fits⟩

theorem Within.popFrontMap (h : d.Within b (n + 1)) :
    ∃ d', d.popFrontMap = some d' ∧ d'.Within (b + 1) n := by
  have hfits := h.fits
  obtain ⟨k, hk, htwice⟩ := h.even
  have hshift : b + 1 + n = b + (n + 1) := by omega
  obtain ⟨it', hinc, hit'⟩ := h.beg.inc h.size (by omega) fun hlast => by omega
  refine ⟨_, Option.bind_eq_some_iff.mpr ⟨it', hinc, rfl⟩, ?_⟩
  exact ⟨h.size, h.even, h.nodup, hit', hshift ▸ h.end_, hshift ▸ hfits⟩

theorem Within.decBeg (h : d.Within (b + 1) n) :
    ∃ it', d.dec noEntry d.beg = some it' ∧ ({ d with beg := it' } : Deque T).Within b (n + 1) := by
  have hfits := h.fits
  obtain ⟨k, hk, htwice⟩ := h.even
  have hshift : b + (n + 1) = b + 1 + n := by omega
  obtain ⟨it', hdec, hit'⟩ := h.beg.dec h.size (by omega)
  exact ⟨it', hdec, h.size, h.even, h.nodup, hit', hshift ▸ h.end_, hshift ▸ hfits⟩

theorem Within.pushFrontMap (h : d.Within b n) :
    ∃ d' b', d.pushFrontMap = some d' ∧ d'.Within b' (n + 1) := by
  -- the deque, with room in front
  obtain ⟨d₀, b', hroom, hwithin⟩ : ∃ d₀ b',
      (if d.empty then some d.init
        else do
          let full ← d.frontFull noEntry
          if full then d.reallocateAndCopy noEntry else some d) = some d₀ ∧
        d₀.Within (b' + 1) n := by
    cases hempty : d.empty with
    | true =>
        obtain rfl := h.count_of_empty hempty
        exact ⟨d.init, 63, if_pos rfl, init_within d⟩
    | false =>
        rw [if_neg Bool.false_ne_true, h.frontFull, Option.bind_eq_bind, Option.bind_some]
        cases b with
        | zero =>
            obtain ⟨d₀, b', hrun, hwithin⟩ := h.reallocateAndCopy
            exact ⟨d₀, b', hrun, hwithin⟩
        | succ b => exact ⟨d, b, if_neg (by simp), h⟩
  obtain ⟨it', hdec, hwithin'⟩ := hwithin.decBeg
  refine ⟨_, b', Option.bind_eq_some_iff.mpr ⟨d₀, hroom, ?_⟩, hwithin'⟩
  exact Option.bind_eq_some_iff.mpr ⟨it', hdec, rfl⟩

/-! Runs. -/

/-- An element is removed from a deque that has one. -/
def Op.Valid (xs : List T) : Op T → Prop
  | .popBack | .popFront => xs ≠ []
  | .pushBack _ | .pushFront _ => True

/-- An element is pushed back when `empty()` holds. -/
def Inside (d : Deque T) : Op T → Prop
  | .pushBack _ => d.empty = true
  | .pushFront _ | .popBack | .popFront => True

def Tracks (d : Deque T) (xs : List T) : Prop :=
  d = new ∧ xs = [] ∨ ∃ b, d.Within b xs.length

theorem init_pushBackMap (d : Deque T) : ∃ end_,
    d.init.inc noEntry d.init.end_ = some end_ ∧ ({ d.init with end_ := end_ } : Deque T).Within 64 1 := by
  have hinit := init_within d
  obtain ⟨it', hinc, hit'⟩ := (init_ready noEntry d).end_.inc rfl (show 64 < 64 * 2 by decide)
    (show 64 + 1 = 64 * 2 → _ by omega)
  exact ⟨it', hinc, hinit.size, hinit.even, hinit.nodup, hinit.beg, hit'.points, le_rfl⟩

theorem stepMap_tracks (op : Op T) (h : d.Tracks xs) (hvalid : op.Valid xs) (hop : Inside d op) :
    ∃ d', d.stepMap op = some d' ∧ d'.Tracks (op.apply xs) := by
  cases op with
  | pushBack val =>
      have hempty : d.empty = true := hop
      have hnil : xs = [] := by
        rcases h with ⟨-, hnil⟩ | ⟨b, hwithin⟩
        · exact hnil
        · exact List.length_eq_zero_iff.mp (hwithin.count_of_empty hempty)
      subst hnil
      obtain ⟨it', hinc, hwithin⟩ := init_pushBackMap d
      refine ⟨_, Option.bind_eq_some_iff.mpr ⟨d.init, if_pos hempty, ?_⟩, .inr ⟨64, hwithin⟩⟩
      exact Option.bind_eq_some_iff.mpr ⟨it', hinc, rfl⟩
  | pushFront val =>
      rcases h with ⟨hnew, rfl⟩ | ⟨b, hwithin⟩
      · have hempty : d.empty = true := hnew ▸ rfl
        obtain ⟨it', hdec, hwithin⟩ := (init_within d).decBeg
        refine ⟨_, Option.bind_eq_some_iff.mpr ⟨d.init, if_pos hempty, ?_⟩, .inr ⟨63, hwithin⟩⟩
        exact Option.bind_eq_some_iff.mpr ⟨it', hdec, rfl⟩
      · obtain ⟨d', b', hrun, hwithin'⟩ := hwithin.pushFrontMap
        exact ⟨d', hrun, .inr ⟨b', hwithin'⟩⟩
  | popBack =>
      obtain ⟨b, hwithin⟩ := h.resolve_left fun hnew => hvalid hnew.2
      have hlength : xs.length = xs.dropLast.length + 1 := by
        rw [List.length_dropLast, Nat.sub_add_cancel (List.length_pos_iff.mpr hvalid)]
      rw [hlength] at hwithin
      obtain ⟨d', hrun, hwithin'⟩ := hwithin.popBackMap
      exact ⟨d', hrun, .inr ⟨b, hwithin'⟩⟩
  | popFront =>
      obtain ⟨b, hwithin⟩ := h.resolve_left fun hnew => hvalid hnew.2
      have hlength : xs.length = xs.tail.length + 1 := by
        rw [List.length_tail, Nat.sub_add_cancel (List.length_pos_iff.mpr hvalid)]
      rw [hlength] at hwithin
      obtain ⟨d', hrun, hwithin'⟩ := hwithin.popFrontMap
      exact ⟨d', hrun, .inr ⟨b + 1, hwithin'⟩⟩

theorem stepMap_stuck (op : Op T) (h : d.Tracks xs) (hop : ¬Inside d op) :
    d.stepMap op = none := by
  cases op with
  | pushBack val =>
      have hempty : d.empty = false := Bool.eq_false_iff.mpr hop
      rcases h with ⟨rfl, -⟩ | ⟨b, hwithin⟩
      · cases hempty
      · rw [stepMap, pushBackMap, hempty, if_neg Bool.false_ne_true, hwithin.backFull]
        rfl
  | pushFront val => exact absurd trivial hop
  | popBack => exact absurd trivial hop
  | popFront => exact absurd trivial hop

/-- No access of the map leaves it if and only if elements are pushed back to empty deques. -/
theorem mapIndex_iff (ops : List (Op T))
    (hops : Run.Guarded (fun xs op => some (Op.apply xs op)) Op.Valid [] ops) :
    (ops.foldlM stepMap new).isSome ↔ Run.Guarded stepMap Inside new ops :=
  Run.isSome_iff_guarded Tracks (fun _ _ op => stepMap_tracks op) (fun _ _ op => stepMap_stuck op)
    ops (.inl ⟨rfl, rfl⟩) hops

theorem mapIndex_iff_short :
    ([Op.pushBack 1, .pushFront 0, .popBack].foldlM stepMap new).isSome ↔
      Run.Guarded stepMap Inside new [Op.pushBack 1, .pushFront 0, .popBack] := by
  refine mapIndex_iff [Op.pushBack 1, .pushFront 0, .popBack] ⟨trivial, fun xs hxs => ?_⟩
  obtain rfl := Option.some.inj hxs
  refine ⟨trivial, fun xs hxs => ?_⟩
  obtain rfl := Option.some.inj hxs
  exact ⟨List.cons_ne_nil 0 [1], fun _ _ => trivial⟩

/-- The second `push_back` reads `map_[2]`, where the map has two entries. There is a result
only if something stands there. -/
theorem pushBack_twice_outside :
    ([Op.pushBack 0].foldlM stepMap new).map Deque.mapSize = some 2 ∧
      [Op.pushBack 0, .pushBack 1].foldlM stepMap new = none ∧
      ([Op.pushBack 0, .pushBack 1].foldlM (step fun _ => some ⟨1000, 0⟩) new).isSome = true :=
  ⟨rfl, rfl, rfl⟩

end Deque

end RebuildTheWheel.TinySTL
