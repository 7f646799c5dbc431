import Mathlib.Data.Finset.Insert
import Mathlib.Data.Multiset.Basic
import RebuildTheWheel.Data.Run

namespace RebuildTheWheel.TinySTL

/-! `Unordered_set`. A bucket is the list of its keys, and a place in a bucket is the number
of keys in front of it, so that `end()` of a list is its length. -/

/-- The hash function and the equality of the keys. -/
structure KeyOps (Key : Type) where
  hash : Key → Nat
  equal : Key → Key → Bool
  equivalence : Equivalence fun x y => equal x y = true
  consistent : ∀ x y, equal x y = true → hash x = hash y

structure UnorderedSet (Key : Type) where
  buckets : List (List Key)
  size : Nat

namespace UnorderedSet

structure Position where
  bucket : Nat
  index : Nat
  deriving DecidableEq

def primeList : List Nat := [
  53, 97, 193, 389, 769, 1543, 3079, 6151, 12289, 24593, 49157, 98317, 196613, 393241,
  786433, 1572869, 3145739, 6291469, 12582917, 25165843, 50331653, 100663319, 201326611,
  402653189, 805306457, 1610612741, 3221225473, 4294967291]

def nextPrime (n : Nat) : Nat := (primeList.find? (n ≤ ·)).getD 4294967291

variable {Key : Type}

def create (bucketCount : Nat) : UnorderedSet Key :=
  ⟨List.replicate (nextPrime bucketCount) [], 0⟩

/-! Iterators. -/

def endPosition (s : UnorderedSet Key) : Option Position := do
  let last ← s.buckets[s.buckets.length - 1]?
  some ⟨s.buckets.length - 1, last.length⟩

/-- The first key of the buckets, which are numbered from `i` on. -/
def skipEmpty : List (List Key) → Nat → Option Position
  | [], _ => none
  | [] :: rest, i => skipEmpty rest (i + 1)
  | (_ :: _) :: _, i => some ⟨i, 0⟩

/-- The loop of `begin()` and of `operator++`, which go on to `end()`. -/
def seek (s : UnorderedSet Key) (i : Nat) : Option Position :=
  match skipEmpty (s.buckets.drop i) i with
  | some p => some p
  | none => s.endPosition

def begin (s : UnorderedSet Key) : Option Position := s.seek 0

def deref (s : UnorderedSet Key) (p : Position) : Option Key := do
  let bucket ← s.buckets[p.bucket]?
  bucket[p.index]?

def next (s : UnorderedSet Key) (p : Position) : Option Position := do
  let bucket ← s.buckets[p.bucket]?
  if p.index + 1 = bucket.length then s.seek (p.bucket + 1) else some ⟨p.bucket, p.index + 1⟩

/-- A range-based `for`, from `p` on. -/
def visit (s : UnorderedSet Key) : Nat → Position → Option (List Key)
  | 0, _ => none
  | fuel + 1, p => do
      let last ← s.endPosition
      if p = last then some []
      else
        let x ← s.deref p
        let q ← s.next p
        let rest ← s.visit fuel q
        some (x :: rest)

/-- The keys from `begin()` to `end()`. -/
def elements (s : UnorderedSet Key) : Option (List Key) := do
  let first ← s.begin
  s.visit (s.buckets.flatten.length + 1) first

/-! Operations. -/

section

variable (ops : KeyOps Key)

def bucketIndex (s : UnorderedSet Key) (key : Key) : Nat := ops.hash key % s.buckets.length

def hasKey (s : UnorderedSet Key) (key : Key) : Option Bool := do
  let bucket ← s.buckets[s.bucketIndex ops key]?
  some (bucket.findIdx? (ops.equal key)).isSome

def find (s : UnorderedSet Key) (key : Key) : Option Position := do
  let bucket ← s.buckets[s.bucketIndex ops key]?
  match bucket.findIdx? (ops.equal key) with
  | some i => some ⟨s.bucketIndex ops key, i⟩
  | none => s.endPosition

def count (s : UnorderedSet Key) (key : Key) : Option Nat := do
  let p ← s.find ops key
  let last ← s.endPosition
  some (if p = last then 0 else 1)

def pushFront (s : UnorderedSet Key) (i : Nat) (val : Key) : Option (UnorderedSet Key) := do
  let bucket ← s.buckets[i]?
  some ⟨s.buckets.set i (val :: bucket), s.size + 1⟩

/-- `exceeds` is `load_factor() > max_load_factor()`, from the size and the number of buckets. -/
def insertWith (exceeds : Nat → Nat → Bool)
    (rehash : UnorderedSet Key → Nat → Option (UnorderedSet Key)) (s : UnorderedSet Key)
    (val : Key) : Option (UnorderedSet Key × Position × Bool) := do
  let present ← s.hasKey ops val
  if present then
    let last ← s.endPosition
    some (s, last, false)
  else
    let s ← (if exceeds s.size s.buckets.length then rehash s (nextPrime s.size) else some s)
    let s' ← s.pushFront (s.bucketIndex ops val) val
    some (s', ⟨s.bucketIndex ops val, 0⟩, true)

/-- `rehash`. The new table may be rehashed while it is filled, at most `depth` tables deep. -/
def rehash (exceeds : Nat → Nat → Bool) :
    Nat → UnorderedSet Key → Nat → Option (UnorderedSet Key)
  | 0, _, _ => none
  | depth + 1, s, n =>
      if n ≤ s.buckets.length then some s
      else do
        let vals ← s.elements
        vals.foldlM (fun temp val => do
          let (temp, _) ← insertWith ops exceeds (rehash exceeds depth) temp val
          some temp) (create (nextPrime n))

def insert (exceeds : Nat → Nat → Bool) (depth : Nat) (s : UnorderedSet Key) (val : Key) :
    Option (UnorderedSet Key × Position × Bool) :=
  insertWith ops exceeds (rehash ops exceeds depth) s val

/-- The place behind the erased key is one less, in its own bucket. -/
def eraseAt (s : UnorderedSet Key) (p : Position) : Option (UnorderedSet Key × Position) := do
  let q ← s.next p
  let bucket ← s.buckets[p.bucket]?
  some (⟨s.buckets.set p.bucket (bucket.eraseIdx p.index), s.size - 1⟩,
    if q.bucket = p.bucket then ⟨q.bucket, q.index - 1⟩ else q)

def erase (s : UnorderedSet Key) (key : Key) : Option (UnorderedSet Key × Nat) := do
  let p ← s.find ops key
  let last ← s.endPosition
  if p = last then some (s, 0)
  else
    let (s, _) ← s.eraseAt p
    some (s, 1)

end

/-! The walk from `begin()` to `end()`. -/

variable {s : UnorderedSet Key} {p q : Position} {x : Key} {rest : List Key} {i : Nat}

/-- The keys in front of `p` have been visited, and `rest` is left. -/
def At (s : UnorderedSet Key) (p : Position) (rest : List Key) : Prop :=
  (s.endPosition = some p ∧ rest = []) ∨
    ∃ b y ys, s.buckets[p.bucket]? = some b ∧ b.drop p.index = y :: ys ∧
      rest = y :: (ys ++ (s.buckets.drop (p.bucket + 1)).flatten)

theorem skipEmpty_spec (bs : List (List Key)) (i : Nat) :
    (skipEmpty bs i = none ∧ bs.flatten = []) ∨
      ∃ k y ys, skipEmpty bs i = some ⟨i + k, 0⟩ ∧ bs[k]? = some (y :: ys) ∧
        bs.flatten = y :: (ys ++ (bs.drop (k + 1)).flatten) := by
  induction bs generalizing i with
  | nil => exact .inl ⟨rfl, rfl⟩
  | cons b bs ih =>
      cases b with
      | cons y ys => exact .inr ⟨0, y, ys, rfl, rfl, rfl⟩
      | nil =>
          rcases ih (i + 1) with ⟨hskip, hflat⟩ | ⟨k, y, ys, hskip, hbucket, hflat⟩
          · exact .inl ⟨hskip, hflat⟩
          · refine .inr ⟨k + 1, y, ys, ?_, hbucket, hflat⟩
            rw [skipEmpty, hskip, Nat.add_assoc, Nat.add_comm 1]

theorem endPosition_defined (h : s.buckets ≠ []) : ∃ p, s.endPosition = some p := by
  have hlt : s.buckets.length - 1 < s.buckets.length :=
    Nat.sub_lt (List.length_pos_iff.mpr h) Nat.one_pos
  rw [endPosition, List.getElem?_eq_getElem hlt]
  exact ⟨_, rfl⟩

theorem seek_at (h : s.buckets ≠ []) (i : Nat) :
    ∃ p, s.seek i = some p ∧ s.At p (s.buckets.drop i).flatten := by
  rcases skipEmpty_spec (s.buckets.drop i) i with ⟨hskip, hflat⟩ | ⟨k, y, ys, hskip, hbucket, hflat⟩
  · obtain ⟨p, hend⟩ := endPosition_defined h
    refine ⟨p, ?_, .inl ⟨hend, hflat⟩⟩
    rw [seek, hskip]
    exact hend
  · refine ⟨⟨i + k, 0⟩, ?_, .inr ⟨y :: ys, y, ys, ?_, rfl, ?_⟩⟩
    · rw [seek, hskip]
    · rw [List.getElem?_drop] at hbucket
      exact hbucket
    · rw [hflat, List.drop_drop, Nat.add_assoc]

theorem At.ne_end (h : s.At p (x :: rest)) : s.endPosition ≠ some p := by
  intro hend
  rcases h with ⟨-, hnil⟩ | ⟨b, y, ys, hbucket, hdrop, -⟩
  · cases hnil
  · obtain ⟨last, hlast, hp⟩ := Option.bind_eq_some_iff.mp hend
    obtain rfl := Option.some.inj hp
    obtain rfl : last = b := Option.some.inj (hlast.symm.trans hbucket)
    rw [List.drop_length] at hdrop
    cases hdrop

theorem At.deref (h : s.At p (x :: rest)) : s.deref p = some x := by
  rcases h with ⟨-, hnil⟩ | ⟨b, y, ys, hbucket, hdrop, hrest⟩
  · cases hnil
  · obtain rfl : x = y := (List.cons.inj hrest).1
    rw [UnorderedSet.deref, hbucket]
    have hget : (b.drop p.index)[0]? = some x := by
      rw [hdrop]
      rfl
    rw [List.getElem?_drop, Nat.add_zero] at hget
    exact hget

theorem At.next (h : s.At p (x :: rest)) : ∃ q, s.next p = some q ∧ s.At q rest := by
  rcases h with ⟨-, hnil⟩ | ⟨b, y, ys, hbucket, hdrop, hrest⟩
  · cases hnil
  · obtain ⟨rfl, rfl⟩ := List.cons.inj hrest
    have hlength := congrArg List.length hdrop
    rw [List.length_drop, List.length_cons] at hlength
    have hdrop' : b.drop (p.index + 1) = ys := by
      rw [← List.drop_drop, hdrop]
      rfl
    rw [UnorderedSet.next, hbucket]
    simp only [Option.bind_eq_bind, Option.bind_some]
    cases ys with
    | nil =>
        rw [if_pos (by rw [List.length_nil] at hlength; omega)]
        refine seek_at ?_ (p.bucket + 1)
        intro hnil
        rw [hnil] at hbucket
        cases hbucket
    | cons z zs =>
        rw [if_neg (by rw [List.length_cons] at hlength; omega)]
        exact ⟨_, rfl, .inr ⟨b, z, zs, hbucket, hdrop', rfl⟩⟩

theorem visit_eq (fuel : Nat) (h : s.At p rest) (hfuel : rest.length < fuel) :
    s.visit fuel p = some rest := by
  induction fuel generalizing p rest with
  | zero => cases hfuel
  | succ fuel ih =>
      have hne : s.buckets ≠ [] := by
        intro hnil
        rcases h with ⟨hend, -⟩ | ⟨b, y, ys, hbucket, -⟩
        · rw [endPosition, hnil] at hend
          cases hend
        · rw [hnil] at hbucket
          cases hbucket
      obtain ⟨last, hlast⟩ := endPosition_defined hne
      rw [visit, hlast]
      simp only [Option.bind_eq_bind, Option.bind_some]
      cases rest with
      | nil =>
          rcases h with ⟨hend, -⟩ | ⟨b, y, ys, -, -, hrest⟩
          · rw [if_pos (Option.some.inj (hend.symm.trans hlast))]
          · cases hrest
      | cons x rest =>
          obtain ⟨q, hnext, hq⟩ := h.next
          have hp : p ≠ last := fun heq => h.ne_end (heq ▸ hlast)
          rw [if_neg hp, h.deref, hnext]
          simp only [Option.bind_some, ih hq (Nat.lt_of_succ_lt_succ hfuel)]

theorem elements_eq (h : s.buckets ≠ []) : s.elements = some s.buckets.flatten := by
  obtain ⟨p, hbegin, hp⟩ := seek_at h 0
  rw [elements, begin, hbegin]
  exact visit_eq _ hp (Nat.lt_succ_self _)

end UnorderedSet

end RebuildTheWheel.TinySTL
