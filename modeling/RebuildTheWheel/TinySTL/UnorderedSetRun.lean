import Mathlib.Data.Finset.Card
import Mathlib.Data.Finset.Insert
import RebuildTheWheel.TinySTL.UnorderedSet

namespace RebuildTheWheel.TinySTL

open Data

namespace KeyOps

variable {Key : Type} (ops : KeyOps Key)

def setoid : Setoid Key := ⟨fun x y => ops.equal x y = true, ops.equivalence⟩

/-- The keys, up to their equality. -/
abbrev Class := Quotient ops.setoid

def cls (x : Key) : ops.Class := Quotient.mk ops.setoid x

instance : DecidableEq ops.Class :=
  haveI : ∀ x y : Key, Decidable (ops.setoid x y) := fun x y =>
    inferInstanceAs (Decidable (ops.equal x y = true))
  Quotient.decidableEq

variable {ops}

theorem cls_eq {x y : Key} : ops.cls x = ops.cls y ↔ ops.equal x y = true :=
  Quotient.eq (r := ops.setoid)

end KeyOps

/-- Buckets are the one at `i` and a rest. -/
theorem flatten_set_perm {α : Type*} {bs : List (List α)} {b : List α} {i : Nat}
    (h : bs[i]? = some b) :
    ∃ rest, bs.flatten.Perm (b ++ rest) ∧ ∀ c, (bs.set i c).flatten.Perm (c ++ rest) := by
  induction bs generalizing i with
  | nil => cases h
  | cons a bs ih =>
      cases i with
      | zero =>
          obtain rfl := Option.some.inj h
          exact ⟨bs.flatten, .refl _, fun c => .refl _⟩
      | succ i =>
          obtain ⟨rest, hbs, hset⟩ := ih h
          refine ⟨a ++ rest, ?_, fun c => ?_⟩
          · exact (hbs.append_left a).trans (List.perm_append_comm_assoc _ _ _)
          · exact ((hset c).append_left a).trans (List.perm_append_comm_assoc _ _ _)

namespace UnorderedSet

variable {Key : Type}

/-- The table holds one key of each class in `S`, in its bucket. -/
structure Rep (ops : KeyOps Key) (s : UnorderedSet Key) (S : Finset ops.Class) : Prop where
  prime : s.buckets.length ∈ primeList
  keys : (s.buckets.flatten.map ops.cls : Multiset ops.Class) = S.val
  size : s.size = s.buckets.flatten.length
  placed : ∀ i b, s.buckets[i]? = some b → ∀ x ∈ b, s.bucketIndex ops x = i

variable {ops : KeyOps Key} {s : UnorderedSet Key} {S : Finset ops.Class} {key val x : Key}
  {b : List Key} {p : Position} {i n : Nat}

theorem pos_of_prime (h : n ∈ primeList) : 0 < n := by
  have hall : ∀ p ∈ primeList, 0 < p := by decide
  exact hall n h

theorem Rep.buckets_ne_nil (h : Rep ops s S) : s.buckets ≠ [] :=
  List.ne_nil_of_length_pos (pos_of_prime h.prime)

theorem Rep.mem_iff (h : Rep ops s S) :
    ops.cls key ∈ S ↔ ∃ x ∈ s.buckets.flatten, ops.equal key x = true := by
  rw [← Finset.mem_val, ← h.keys, Multiset.mem_coe, List.mem_map]
  constructor
  · rintro ⟨x, hx, heq⟩
    exact ⟨x, hx, KeyOps.cls_eq.mp heq.symm⟩
  · rintro ⟨x, hx, heq⟩
    exact ⟨x, hx, (KeyOps.cls_eq.mpr heq).symm⟩

theorem bucketIndex_congr (heq : ops.equal key x = true) :
    s.bucketIndex ops key = s.bucketIndex ops x := by
  rw [bucketIndex, bucketIndex, ops.consistent key x heq]

/-- The bucket of a key decides whether it is there. -/
theorem Rep.bucket (h : Rep ops s S) (key : Key) :
    ∃ b, s.buckets[s.bucketIndex ops key]? = some b ∧
      (ops.cls key ∈ S ↔ ∃ x ∈ b, ops.equal key x = true) := by
  have hlt : s.bucketIndex ops key < s.buckets.length := Nat.mod_lt _ (pos_of_prime h.prime)
  refine ⟨_, List.getElem?_eq_getElem hlt, h.mem_iff.trans ⟨?_, ?_⟩⟩
  · rintro ⟨x, hx, heq⟩
    obtain ⟨b, hb, hxb⟩ := List.mem_flatten.mp hx
    obtain ⟨i, hi, rfl⟩ := List.getElem_of_mem hb
    have hplace := h.placed i _ (List.getElem?_eq_getElem hi) x hxb
    rw [← bucketIndex_congr heq] at hplace
    subst hplace
    exact ⟨x, hxb, heq⟩
  · rintro ⟨x, hx, heq⟩
    exact ⟨x, List.mem_flatten.mpr ⟨_, List.getElem_mem hlt, hx⟩, heq⟩

theorem at_of_bucket (hb : s.buckets[p.bucket]? = some b) (hp : p.index < b.length) :
    ∃ rest, s.At p (b[p.index] :: rest) :=
  ⟨_, .inr ⟨b, _, _, hb, List.drop_eq_getElem_cons hp, rfl⟩⟩

/-- What `find` finds. -/
theorem Rep.find (h : Rep ops s S) (key : Key) :
    (ops.cls key ∉ S ∧ ∃ p, s.find ops key = some p ∧ s.endPosition = some p) ∨
      (ops.cls key ∈ S ∧ ∃ p b, s.find ops key = some p ∧ s.buckets[p.bucket]? = some b ∧
        ∃ hp : p.index < b.length, ops.equal key b[p.index] = true) := by
  obtain ⟨b, hb, hmem⟩ := h.bucket key
  rw [UnorderedSet.find, hb]
  simp only [Option.bind_eq_bind, Option.bind_some]
  cases hfind : b.findIdx? (ops.equal key) with
  | none =>
      obtain ⟨p, hend⟩ := endPosition_defined h.buckets_ne_nil
      refine .inl ⟨fun hin => ?_, p, hend, hend⟩
      obtain ⟨x, hx, heq⟩ := hmem.mp hin
      rw [List.findIdx?_eq_none_iff.mp hfind x hx] at heq
      cases heq
  | some i =>
      obtain ⟨hi, heq, -⟩ := List.findIdx?_eq_some_iff_getElem.mp hfind
      exact .inr ⟨hmem.mpr ⟨_, List.getElem_mem hi, heq⟩, _, b, rfl, hb, hi, heq⟩

theorem Rep.count (h : Rep ops s S) (key : Key) :
    s.count ops key = some (if ops.cls key ∈ S then 1 else 0) := by
  obtain ⟨last, hlast⟩ := endPosition_defined h.buckets_ne_nil
  rcases h.find key with ⟨hout, p, hfind, hend⟩ | ⟨hin, p, b, hfind, hb, hp, -⟩
  · obtain rfl : p = last := Option.some.inj (hend.symm.trans hlast)
    rw [UnorderedSet.count, hfind, hlast, if_neg hout]
    simp
  · obtain ⟨rest, hat⟩ := at_of_bucket hb hp
    have hne : p ≠ last := fun heq => hat.ne_end (heq ▸ hlast)
    rw [UnorderedSet.count, hfind, hlast, if_pos hin]
    simp [hne]

theorem Rep.hasKey (h : Rep ops s S) (key : Key) :
    s.hasKey ops key = some (decide (ops.cls key ∈ S)) := by
  obtain ⟨b, hb, hmem⟩ := h.bucket key
  rw [UnorderedSet.hasKey, hb]
  simp only [Option.bind_eq_bind, Option.bind_some, List.findIdx?_isSome, Option.some.injEq]
  rw [Bool.eq_iff_iff, List.any_eq_true, decide_eq_true_iff]
  exact hmem.symm

/-! Changes of one bucket. -/

theorem Rep.pushFront (h : Rep ops s S) (hnew : ops.cls val ∉ S) :
    ∃ s', s.pushFront (s.bucketIndex ops val) val = some s' ∧
      Rep ops s' (Insert.insert (ops.cls val) S) ∧ s'.buckets.length = s.buckets.length := by
  obtain ⟨b, hb, -⟩ := h.bucket val
  obtain ⟨rest, hflat, hset⟩ := flatten_set_perm hb
  have hperm : (s.buckets.set (s.bucketIndex ops val) (val :: b)).flatten.Perm
      (val :: s.buckets.flatten) := (hset (val :: b)).trans (hflat.symm.cons val)
  have hlength : (s.buckets.set (s.bucketIndex ops val) (val :: b)).length = s.buckets.length :=
    List.length_set
  refine ⟨⟨s.buckets.set (s.bucketIndex ops val) (val :: b), s.size + 1⟩, ?_,
    ⟨hlength ▸ h.prime, ?_, ?_, ?_⟩, hlength⟩
  · rw [UnorderedSet.pushFront, hb]
    rfl
  · rw [Finset.insert_val_of_notMem hnew, ← h.keys]
    exact Multiset.coe_eq_coe.mpr (hperm.map ops.cls)
  · rw [hperm.length_eq, List.length_cons, ← h.size]
  · intro i c hc x hx
    rw [bucketIndex, hlength]
    rw [List.getElem?_set] at hc
    split_ifs at hc with heq hlt
    · obtain rfl := Option.some.inj hc
      rcases List.mem_cons.mp hx with rfl | hx
      · exact heq
      · rw [← heq]
        exact h.placed _ b hb x hx
    · exact h.placed i c hc x hx

theorem Rep.eraseAt (h : Rep ops s S) (hb : s.buckets[p.bucket]? = some b)
    (hp : p.index < b.length) :
    ∃ s' q, s.eraseAt p = some (s', q) ∧ Rep ops s' (S.erase (ops.cls b[p.index])) := by
  obtain ⟨rest, hat⟩ := at_of_bucket hb hp
  obtain ⟨q, hnext, -⟩ := hat.next
  obtain ⟨others, hflat, hset⟩ := flatten_set_perm hb
  have hperm : s.buckets.flatten.Perm
      (b[p.index] :: (s.buckets.set p.bucket (b.eraseIdx p.index)).flatten) := by
    refine hflat.trans (((List.getElem_cons_eraseIdx_perm hp).symm.append_right others).trans ?_)
    exact ((hset (b.eraseIdx p.index)).symm).cons _
  have hlength : (s.buckets.set p.bucket (b.eraseIdx p.index)).length = s.buckets.length :=
    List.length_set
  refine ⟨⟨s.buckets.set p.bucket (b.eraseIdx p.index), s.size - 1⟩,
    if q.bucket = p.bucket then ⟨q.bucket, q.index - 1⟩ else q, ?_,
    ⟨hlength ▸ h.prime, ?_, ?_, ?_⟩⟩
  · rw [UnorderedSet.eraseAt, hnext, hb]
    rfl
  · rw [Finset.erase_val, ← h.keys, Multiset.coe_eq_coe.mpr (hperm.map ops.cls), List.map_cons,
      ← Multiset.cons_coe, Multiset.erase_cons_head]
  · rw [h.size, hperm.length_eq, List.length_cons, Nat.add_sub_cancel]
  · intro i c hc x hx
    rw [bucketIndex, hlength]
    rw [List.getElem?_set] at hc
    split_ifs at hc with heq hlt
    · obtain rfl := Option.some.inj hc
      rw [← heq]
      exact h.placed _ b hb x (List.mem_of_mem_eraseIdx hx)
    · exact h.placed i c hc x hx

theorem Rep.erase (h : Rep ops s S) (key : Key) :
    ∃ s', s.erase ops key = some (s', if ops.cls key ∈ S then 1 else 0) ∧
      Rep ops s' (S.erase (ops.cls key)) := by
  obtain ⟨last, hlast⟩ := endPosition_defined h.buckets_ne_nil
  rcases h.find key with ⟨hout, p, hfind, hend⟩ | ⟨hin, p, b, hfind, hb, hp, heq⟩
  · obtain rfl : p = last := Option.some.inj (hend.symm.trans hlast)
    refine ⟨s, ?_, ?_⟩
    · rw [UnorderedSet.erase, hfind, hlast, if_neg hout]
      simp
    · rw [Finset.erase_eq_of_notMem hout]
      exact h
  · obtain ⟨rest, hat⟩ := at_of_bucket hb hp
    have hne : p ≠ last := fun heq => hat.ne_end (heq ▸ hlast)
    obtain ⟨s', q, hrun, hrep⟩ := h.eraseAt hb hp
    rw [← KeyOps.cls_eq.mpr heq] at hrep
    refine ⟨s', ?_, hrep⟩
    rw [UnorderedSet.erase, hfind, hlast, if_pos hin]
    simp [hne, hrun]

/-! The tables that `rehash` builds have ever more buckets, until the primes are used up. -/

theorem nextPrime_mem (n : Nat) : nextPrime n ∈ primeList := by
  rw [nextPrime]
  cases hfind : primeList.find? (n ≤ ·) with
  | none => decide
  | some p => exact List.mem_of_find?_eq_some hfind

theorem le_nextPrime (n : Nat) : min n 4294967291 ≤ nextPrime n := by
  rw [nextPrime]
  cases hfind : primeList.find? (n ≤ ·) with
  | none => exact Nat.min_le_right _ _
  | some p =>
      have hle := List.find?_some hfind
      rw [decide_eq_true_iff] at hle
      exact (Nat.min_le_left _ _).trans hle

theorem nextPrime_of_prime (h : n ∈ primeList) : nextPrime n = n := by
  have hall : ∀ p ∈ primeList, nextPrime p = p := by decide
  exact hall n h

theorem le_of_prime (h : n ∈ primeList) : n ≤ 4294967291 := by
  have hall : ∀ p ∈ primeList, p ≤ 4294967291 := by decide
  exact hall n h

/-- The number of larger primes. -/
def rank (n : Nat) : Nat := primeList.countP (n < ·)

theorem rank_le {m n : Nat} (h : m ≤ n) : rank n ≤ rank m := by
  refine List.countP_mono_left fun p _ hp => ?_
  exact decide_eq_true (h.trans_lt (of_decide_eq_true hp))

theorem rank_lt {m n : Nat} (h : m < n) (hn : n ∈ primeList) : rank n < rank m := by
  have hall : ∀ p ∈ primeList, rank p < rank (p - 1) := by decide
  exact (hall n hn).trans_le (rank_le (Nat.le_sub_one_of_lt h))

theorem rank_prime (h : n ∈ primeList) : rank n < 28 := by
  have hall : ∀ p ∈ primeList, rank p < 28 := by decide
  exact hall n h

theorem rep_create (ops : KeyOps Key) (n : Nat) : Rep ops (create n) ∅ := by
  have hflat : (List.replicate (nextPrime n) ([] : List Key)).flatten = [] := by
    simp
  refine ⟨?_, ?_, ?_, ?_⟩
  · rw [create, List.length_replicate]
    exact nextPrime_mem n
  · rw [create, hflat]
    rfl
  · rw [create, hflat]
    rfl
  · intro i b hb x hx
    obtain rfl := List.eq_of_mem_replicate (List.mem_of_getElem? hb)
    cases hx

variable {depth : Nat} (exceeds : Nat → Nat → Bool)

theorem Rep.insertWith {rehash' : UnorderedSet Key → Nat → Option (UnorderedSet Key)}
    (h : Rep ops s S) (val : Key)
    (hrehash : ∃ s', rehash' s (nextPrime s.size) = some s' ∧ Rep ops s' S ∧
      s.buckets.length ≤ s'.buckets.length) :
    ∃ s' p, insertWith ops exceeds rehash' s val = some (s', p, decide (ops.cls val ∉ S)) ∧
      Rep ops s' (Insert.insert (ops.cls val) S) ∧ s.buckets.length ≤ s'.buckets.length := by
  rw [UnorderedSet.insertWith, h.hasKey val]
  simp only [Option.bind_eq_bind, Option.bind_some, decide_eq_true_eq]
  by_cases hin : ops.cls val ∈ S
  · obtain ⟨last, hlast⟩ := endPosition_defined h.buckets_ne_nil
    refine ⟨s, last, ?_, ?_, le_rfl⟩
    · rw [if_pos hin, hlast]
      simp [hin]
    · rw [Finset.insert_eq_of_mem hin]
      exact h
  · obtain ⟨s₁, hs₁, hrep₁, hle₁⟩ : ∃ s₁, (if exceeds s.size s.buckets.length then
        rehash' s (nextPrime s.size) else some s) = some s₁ ∧ Rep ops s₁ S ∧
        s.buckets.length ≤ s₁.buckets.length := by
      split_ifs
      · exact hrehash
      · exact ⟨s, rfl, h, le_rfl⟩
    obtain ⟨s', hpush, hrep', hlength⟩ := hrep₁.pushFront hin
    refine ⟨s', ⟨s₁.bucketIndex ops val, 0⟩, ?_, hrep', hlength ▸ hle₁⟩
    rw [if_neg hin, hs₁]
    simp [hpush, hin]

/-- The loop of `rehash`, over the keys that are left. -/
theorem Rep.refill {temp : UnorderedSet Key} {T : Finset ops.Class} (h : Rep ops temp T)
    {rehash' : UnorderedSet Key → Nat → Option (UnorderedSet Key)} {bound : Nat}
    (hbound : bound ≤ temp.buckets.length)
    (hrehash : ∀ (t : UnorderedSet Key) (T : Finset ops.Class), Rep ops t T →
      bound ≤ t.buckets.length → ∃ t', rehash' t (nextPrime t.size) = some t' ∧ Rep ops t' T ∧
        t.buckets.length ≤ t'.buckets.length) (vals : List Key) :
    ∃ temp', vals.foldlM (fun temp val => do
        let (temp, _) ← UnorderedSet.insertWith ops exceeds rehash' temp val
        some temp) temp = some temp' ∧
      Rep ops temp' ((vals.map ops.cls).foldl (fun T c => Insert.insert c T) T) ∧
      bound ≤ temp'.buckets.length := by
  induction vals generalizing temp T with
  | nil => exact ⟨temp, rfl, h, hbound⟩
  | cons val vals ih =>
      obtain ⟨temp', p, hinsert, hrep, hle⟩ := h.insertWith exceeds val (hrehash temp T h hbound)
      obtain ⟨final, hfold, hrep', hle'⟩ := ih hrep (hbound.trans hle)
      refine ⟨final, ?_, hrep', hle'⟩
      rw [List.foldlM_cons, hinsert]
      exact hfold

theorem Rep.rehash (h : Rep ops s S)
    (hdepth : rank s.buckets.length < depth ∧ n ≤ 4294967291 ∨ 28 < depth) :
    ∃ s', rehash ops exceeds depth s n = some s' ∧ Rep ops s' S ∧
      s.buckets.length ≤ s'.buckets.length := by
  induction depth generalizing s S n with
  | zero => omega
  | succ depth ih =>
      rw [UnorderedSet.rehash]
      split_ifs with hle
      · exact ⟨s, rfl, h, le_rfl⟩
      · have hlength : (create (nextPrime n) : UnorderedSet Key).buckets.length = nextPrime n :=
          List.length_replicate.trans (nextPrime_of_prime (nextPrime_mem n))
        have hbound := le_nextPrime n
        have hprime := le_of_prime h.prime
        have hrank : rank (nextPrime n) < depth := by
          rcases hdepth with ⟨hdepth, hn⟩ | hdepth
          · have := rank_lt (show s.buckets.length < nextPrime n by omega) (nextPrime_mem n)
            omega
          · have := rank_prime (nextPrime_mem n)
            omega
        have hnested : ∀ (t : UnorderedSet Key) (T : Finset ops.Class), Rep ops t T →
            nextPrime n ≤ t.buckets.length →
            ∃ t', UnorderedSet.rehash ops exceeds depth t (nextPrime t.size) = some t' ∧
              Rep ops t' T ∧ t.buckets.length ≤ t'.buckets.length := by
          intro t T ht hbuckets
          exact ih ht (.inl ⟨(rank_le hbuckets).trans_lt hrank, le_of_prime (nextPrime_mem _)⟩)
        obtain ⟨temp, hfold, hrep, hbuckets⟩ :=
          (rep_create ops (nextPrime n)).refill exceeds hlength.ge hnested s.buckets.flatten
        have hsame : (s.buckets.flatten.map ops.cls).foldl (fun T c => Insert.insert c T) ∅ = S := by
          ext c
          rw [mem_foldl_insert, ← Finset.mem_val (s := S), ← h.keys, Multiset.mem_coe]
          simp
        rw [hsame] at hrep
        refine ⟨temp, ?_, hrep, by omega⟩
        rw [elements_eq h.buckets_ne_nil]
        exact hfold

theorem Rep.insert (h : Rep ops s S) (val : Key) :
    ∃ s' p, s.insert ops exceeds (depth + 29) val = some (s', p, decide (ops.cls val ∉ S)) ∧
      Rep ops s' (Insert.insert (ops.cls val) S) := by
  have hrank := rank_prime h.prime
  have hrehash : ∃ s', UnorderedSet.rehash ops exceeds (depth + 29) s (nextPrime s.size) =
      some s' ∧ Rep ops s' S ∧ s.buckets.length ≤ s'.buckets.length :=
    h.rehash exceeds (.inl ⟨by omega, le_of_prime (nextPrime_mem _)⟩)
  obtain ⟨s', p, hinsert, hrep, -⟩ := h.insertWith exceeds val hrehash
  exact ⟨s', p, hinsert, hrep⟩

/-! Runs. -/

inductive Op (Key : Type) where
  | insert (val : Key)
  | erase (key : Key)
  | rehash (n : Nat)

def step (ops : KeyOps Key) (exceeds : Nat → Nat → Bool) (depth : Nat) (s : UnorderedSet Key) :
    Op Key → Option (UnorderedSet Key)
  | .insert val => do
      let (s, _) ← s.insert ops exceeds depth val
      some s
  | .erase key => do
      let (s, _) ← s.erase ops key
      some s
  | .rehash n => s.rehash ops exceeds depth n

/-- The classes of the keys that are inserted and not erased since. -/
def apply (ops : KeyOps Key) (S : Finset ops.Class) : Op Key → Finset ops.Class
  | .insert val => Insert.insert (ops.cls val) S
  | .erase key => S.erase (ops.cls key)
  | .rehash _ => S

/-- The table behaves as the set `S`. -/
structure Holds (ops : KeyOps Key) (s : UnorderedSet Key) (S : Finset ops.Class) : Prop where
  find : ∀ key, ∃ p, s.find ops key = some p ∧
    if ops.cls key ∈ S then
      s.endPosition ≠ some p ∧ ∃ x, s.deref p = some x ∧ ops.equal key x = true
    else s.endPosition = some p
  count : ∀ key, s.count ops key = some (if ops.cls key ∈ S then 1 else 0)
  size : s.size = S.card
  once : (s.buckets.flatten.map ops.cls : Multiset ops.Class) = S.val
  placed : ∀ i b, s.buckets[i]? = some b → ∀ x ∈ b, ops.hash x % s.buckets.length = i
  elements : s.elements = some s.buckets.flatten

theorem Rep.holds (h : Rep ops s S) : Holds ops s S := by
  refine ⟨?_, h.count, ?_, h.keys, h.placed, elements_eq h.buckets_ne_nil⟩
  · intro key
    rcases h.find key with ⟨hout, p, hfind, hend⟩ | ⟨hin, p, b, hfind, hb, hp, heq⟩
    · refine ⟨p, hfind, ?_⟩
      rw [if_neg hout]
      exact hend
    · obtain ⟨rest, hat⟩ := at_of_bucket hb hp
      refine ⟨p, hfind, ?_⟩
      rw [if_pos hin]
      exact ⟨hat.ne_end, _, hat.deref, heq⟩
  · rw [Finset.card_def, ← h.keys, Multiset.coe_card, List.length_map, h.size]

theorem Rep.step (h : Rep ops s S) (op : Op Key) :
    ∃ s', step ops exceeds (depth + 29) s op = some s' ∧ Rep ops s' (apply ops S op) := by
  cases op with
  | insert val =>
      obtain ⟨s', p, hinsert, hrep⟩ := h.insert exceeds val
      refine ⟨s', ?_, hrep⟩
      rw [UnorderedSet.step, hinsert]
      rfl
  | erase key =>
      obtain ⟨s', herase, hrep⟩ := h.erase key
      refine ⟨s', ?_, hrep⟩
      rw [UnorderedSet.step, herase]
      rfl
  | rehash n =>
      have hdepth : 28 < depth + 29 := by omega
      obtain ⟨s', hrehash, hrep, -⟩ := h.rehash exceeds (n := n) (.inr hdepth)
      exact ⟨s', hrehash, hrep⟩

end UnorderedSet

end RebuildTheWheel.TinySTL
