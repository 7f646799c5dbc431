import Mathlib.Data.List.Basic
import RebuildTheWheel.Nginx.Hash

namespace RebuildTheWheel.Nginx

open Data

/-! When `ngx_hash_init` keeps to its memory, and what it leaves in it. -/

theorem le_ngxAlign (d : Nat) {a : Nat} (ha : 0 < a) : d ≤ ngxAlign d a := by
  have hmod := Nat.mod_lt (d + (a - 1)) ha
  have hdiv := Nat.div_add_mod (d + (a - 1)) a
  rw [Nat.mul_comm] at hdiv
  rw [ngxAlign]
  omega

theorem ngxAlign_lt (d : Nat) {a : Nat} (ha : 0 < a) : ngxAlign d a < d + a := by
  have hle := Nat.div_mul_le_self (d + (a - 1)) a
  rw [ngxAlign]
  omega

theorem dvd_ngxAlign (d a : Nat) : a ∣ ngxAlign d a := Nat.dvd_mul_left a _

theorem ngxAlign_add {b : Nat} (hb : 8 ∣ b) (n : Nat) : ngxAlign (b + n) 8 = b + ngxAlign n 8 := by
  obtain ⟨k, rfl⟩ := hb
  simp only [ngxAlign]
  omega

theorem Cacheline.pos (line : Cacheline) : 0 < line.1 := by
  obtain ⟨k, -, hk⟩ := line.2
  rw [hk]
  exact Nat.mul_pos (by decide) (Nat.two_pow_pos k)

theorem Cacheline.dvd (line : Cacheline) : 8 ∣ line.1 := by
  obtain ⟨k, -, hk⟩ := line.2
  rw [hk]
  exact Nat.dvd_mul_right 8 _

namespace HashKey

variable {name : HashKey}

theorem length_elt (name : HashKey) : name.elt.length = 10 + name.key.length := by
  simp only [elt, List.length_append, length_littleEndian, List.length_map]

theorem length_elt_le (name : HashKey) : name.elt.length ≤ name.eltSize := by
  have := le_ngxAlign (name.key.length + 2) (a := 8) (by decide)
  rw [length_elt, eltSize]
  omega

theorem dvd_eltSize (name : HashKey) : 8 ∣ name.eltSize :=
  Nat.dvd_add (Nat.dvd_refl 8) (dvd_ngxAlign _ 8)

theorem eltSize_ge (name : HashKey) : 16 ≤ name.eltSize := by
  have := le_ngxAlign (name.key.length + 2) (a := 8) (by decide)
  obtain ⟨k, hk⟩ := name.dvd_eltSize
  rw [eltSize] at hk ⊢
  omega

theorem next_eq {b : Nat} (hb : 8 ∣ b) (name : HashKey) :
    ngxAlign (b + 10 + name.key.length) 8 = b + name.eltSize := by
  have hsum : b + 10 + name.key.length = b + (8 + (name.key.length + 2)) := by omega
  rw [hsum, ngxAlign_add hb, ngxAlign_add (Nat.dvd_refl 8), eltSize]

end HashKey

namespace Hash

/-- The bytes that elements take, one after the other. -/
def total : List HashKey → Nat
  | [] => 0
  | name :: names => name.eltSize + total names

def inBucket (size k : Nat) (names : List HashKey) : List HashKey :=
  names.filter fun name => bucket size name = k

/-- Elements one after the other. -/
def Filled (m : Region) : Nat → List HashKey → Prop
  | _, [] => True
  | a, name :: names => m.Holds a name.elt ∧ Filled m (a + name.eltSize) names

structure Stores (m : Region) (a : Nat) (names : List HashKey) : Prop where
  filled : Filled m a names
  terminated : m.Holds (a + total names) (littleEndian 8 0)

/-- Keys as they may be passed: the value is not null, the length fits in 16 bits and the bytes
are lower-case. -/
structure Valid (name : HashKey) : Prop where
  value : name.value ≠ 0
  length : name.key.length < 65536
  lower : name.key.map ngxTolower = name.key

def valueOf (names : List HashKey) (key : Bytes) : UInt64 :=
  ((names.find? fun name => name.key = key).map (·.value)).getD 0

variable {m m' : Region} {a b k size : Nat} {name : HashKey} {names names' : List HashKey}
  {bs key : Bytes}

theorem total_append (names names' : List HashKey) :
    total (names ++ names') = total names + total names' := by
  induction names with
  | nil => exact (Nat.zero_add _).symm
  | cons name names ih => rw [List.cons_append, total, total, ih, Nat.add_assoc]

theorem length_le_total (names : List HashKey) : names.length ≤ total names := by
  induction names with
  | nil => exact Nat.le_refl 0
  | cons name names ih =>
      have := name.eltSize_ge
      rw [List.length_cons, total]
      omega

theorem Filled.append (h : Filled m a names) (hname : m.Holds (a + total names) name.elt) :
    Filled m a (names ++ [name]) := by
  induction names generalizing a with
  | nil => exact ⟨hname, trivial⟩
  | cons first names ih =>
      refine ⟨h.1, ih h.2 ?_⟩
      rwa [total, ← Nat.add_assoc] at hname

/-- Writing elsewhere leaves the elements. -/
theorem Filled.put (h : Filled m a names)
    (hapart : a + total names ≤ b ∨ b + bs.length ≤ a) : Filled (m.put b bs) a names := by
  induction names generalizing a with
  | nil => trivial
  | cons name names ih =>
      have hlength := name.length_elt_le
      rw [total] at hapart
      exact ⟨h.1.put_of_apart (by omega), ih h.2 (by omega)⟩

/-- The scan finds the first element with the name. -/
theorem hashFindFrom_spec (h : Stores m a names) (hvalid : ∀ name ∈ names, Valid name)
    (ha : 8 ∣ a) (hfuel : names.length < fuel) :
    hashFindFrom m key fuel a = some (valueOf names key) := by
  induction names generalizing a fuel with
  | nil =>
      obtain ⟨fuel, rfl⟩ := Nat.exists_eq_succ_of_ne_zero (Nat.pos_iff_ne_zero.mp hfuel)
      have hvalue : (m.read a 8).map ofLittleEndian = some 0 := h.terminated.number (by decide)
      rw [hashFindFrom, hvalue]
      rfl
  | cons name names ih =>
      obtain ⟨fuel, rfl⟩ := Nat.exists_eq_succ_of_ne_zero (Nat.ne_zero_of_lt hfuel)
      obtain ⟨hfirst, hrest⟩ := h.filled
      have hname := hvalid name (List.mem_cons_self)
      have hstores : Stores m (a + name.eltSize) names :=
        ⟨hrest, by rw [Nat.add_assoc]; exact h.terminated⟩
      have hnext := ih hstores (fun n hn => hvalid n (List.mem_cons_of_mem name hn))
        (Nat.dvd_add ha name.dvd_eltSize) (Nat.lt_of_succ_lt_succ hfuel)
      obtain ⟨hfront, hkey⟩ := hfirst.append
      obtain ⟨hvalue, hlen⟩ := hfront.append
      have hvalue' := hvalue.number (UInt64.toNat_lt name.value)
      have hlen' := hlen.number (n := 2) hname.length
      rw [length_littleEndian] at hlen'
      have hkey' : m.read (a + 10) name.key.length = some name.key := by
        have : m.read _ (name.key.map ngxTolower).length = some (name.key.map ngxTolower) := hkey
        rw [hname.lower] at this
        simpa using this
      have hne : name.value.toNat ≠ 0 := fun h => hname.value (UInt64.toNat.inj h)
      rw [hashFindFrom, hvalue', Option.bind_eq_bind, Option.bind_some, if_neg hne, hlen',
        Option.bind_eq_bind, Option.bind_some]
      simp only [HashKey.next_eq ha, hkey']
      by_cases heq : name.key = key
      · subst heq
        simp [valueOf]
      · have hvalueOf : valueOf (name :: names) key = valueOf names key := by
          simp [valueOf, heq]
        rw [hvalueOf]
        split_ifs with hlength
        · exact hnext
        · simp [Ne.symm heq, hnext]

/-! The placing of the elements. -/

/-- The memory of each bucket: it has room for all of its elements and the null pointer, it does
not overlap that of another, and 16 bits count its bytes. -/
structure Laid (size : Nat) (buckets : Nat → Option Nat) (base : Nat → Nat) (m : Region)
    (names : List HashKey) : Prop where
  points : ∀ k, inBucket size k names ≠ [] → buckets k = some (base k)
  inside : ∀ k, inBucket size k names ≠ [] →
    m.Contains (base k) (total (inBucket size k names) + 8)
  apart : ∀ j k, j ≠ k → inBucket size j names ≠ [] → inBucket size k names ≠ [] →
    base j + total (inBucket size j names) + 8 ≤ base k ∨
      base k + total (inBucket size k names) + 8 ≤ base j
  small : ∀ k, total (inBucket size k names) < 65536

/-- The elements of the names are in their buckets, and `test` counts their bytes. -/
structure Placed (size : Nat) (base : Nat → Nat) (test : Nat → UInt16) (m : Region)
    (names : List HashKey) : Prop where
  test : ∀ k, test k = UInt16.ofNat (total (inBucket size k names))
  filled : ∀ k, Filled m (base k) (inBucket size k names)

variable {buckets : Nat → Option Nat} {base : Nat → Nat} {test : Nat → UInt16}
  {rest : List HashKey}

theorem inBucket_append (size k : Nat) (names names' : List HashKey) :
    inBucket size k (names ++ names') = inBucket size k names ++ inBucket size k names' :=
  List.filter_append ..

theorem inBucket_cons_of_eq (h : bucket size name = k) (names : List HashKey) :
    inBucket size k (name :: names) = name :: inBucket size k names :=
  List.filter_cons_of_pos (by simpa using h)

theorem inBucket_cons_of_ne (h : bucket size name ≠ k) (names : List HashKey) :
    inBucket size k (name :: names) = inBucket size k names :=
  List.filter_cons_of_neg (by simpa using h)

theorem inBucket_self (size : Nat) (name : HashKey) :
    inBucket size (bucket size name) [name] = [name] := inBucket_cons_of_eq rfl []

theorem inBucket_of_ne (h : bucket size name ≠ k) : inBucket size k [name] = [] :=
  inBucket_cons_of_ne h []

theorem toNat_of_small {n : Nat} (h : n < 65536) : (UInt16.ofNat n).toNat = n := by
  rw [UInt16.toNat_ofNat']
  exact Nat.mod_eq_of_lt h

theorem Placed.grow (h : Placed size base test m names)
    (hfilled : ∀ k, Filled m' (base k) (inBucket size k (names ++ [name]))) :
    Placed size base (grow size test name) m' (names ++ [name]) where
  test k := by
    rw [Hash.grow, inBucket_append, total_append]
    by_cases hk : bucket size name = k
    · subst hk
      rw [Function.update_self, h.test, inBucket_self, UInt16.ofNat_add]
      rfl
    · rw [Function.update_of_ne (Ne.symm hk), h.test, inBucket_of_ne hk]
      rfl
  filled := hfilled

/-- An element goes to the end of its bucket, and stays within it. -/
theorem Placed.put (hlaid : Laid size buckets base m (names ++ name :: rest))
    (h : Placed size base test m names) :
    m.Contains (base (bucket size name) + (test (bucket size name)).toNat) name.elt.length ∧
      Placed size base (Hash.grow size test name)
        (m.put (base (bucket size name) + (test (bucket size name)).toNat) name.elt)
        (names ++ [name]) := by
  have hsplit (k : Nat) : total (inBucket size k (names ++ name :: rest)) =
      total (inBucket size k names) + total (inBucket size k [name]) +
        total (inBucket size k rest) := by
    rw [List.append_cons, inBucket_append, inBucket_append, total_append, total_append]
  have hlength := name.length_elt_le
  have hself : total (inBucket size (bucket size name) [name]) = name.eltSize := by
    rw [inBucket_self]
    rfl
  have hnonempty : inBucket size (bucket size name) (names ++ name :: rest) ≠ [] := by
    rw [List.append_cons, inBucket_append, inBucket_append, inBucket_self]
    simp
  have htest : (test (bucket size name)).toNat = total (inBucket size (bucket size name) names) := by
    rw [h.test]
    have := hsplit (bucket size name)
    have := hlaid.small (bucket size name)
    exact toNat_of_small (by omega)
  have hcontains : m.Contains (base (bucket size name) + (test (bucket size name)).toNat)
      name.elt.length := by
    obtain ⟨hstart, hend⟩ := hlaid.inside _ hnonempty
    have := hsplit (bucket size name)
    rw [htest]
    exact ⟨by omega, by omega⟩
  refine ⟨hcontains, h.grow fun k => ?_⟩
  rw [inBucket_append]
  by_cases hk : bucket size name = k
  · subst hk
    rw [inBucket_self]
    refine ((h.filled _).put (.inl (by rw [htest]))).append ?_
    rw [← htest]
    exact Region.holds_put hcontains
  · rw [inBucket_of_ne hk, List.append_nil]
    by_cases hempty : inBucket size k names = []
    · rw [hempty]
      trivial
    · have hk' : inBucket size k (names ++ name :: rest) ≠ [] := by
        rw [inBucket_append]
        exact fun h => hempty (List.append_eq_nil_iff.mp h).1
      refine (h.filled k).put ?_
      have hapart := hlaid.apart (bucket size name) k hk hnonempty hk'
      have := hsplit (bucket size name)
      have := hsplit k
      rw [htest]
      omega

theorem place_spec (names rest : List HashKey) (hlaid : Laid size buckets base m (names ++ rest))
    (h : Placed size base test m names) :
    ∃ test' m', place size buckets test m rest = .ok (test', m') ∧
      Laid size buckets base m' (names ++ rest) ∧ Placed size base test' m' (names ++ rest) := by
  induction rest generalizing names test m with
  | nil => exact ⟨test, m, rfl, hlaid, by rwa [List.append_nil]⟩
  | cons name rest ih =>
      obtain ⟨hcontains, hplaced⟩ := h.put hlaid
      have hpoints : buckets (bucket size name) = some (base (bucket size name)) := by
        refine hlaid.points _ ?_
        rw [List.append_cons, inBucket_append, inBucket_append, inBucket_self]
        simp
      have hlaid' : Laid size buckets base
          (m.put (base (bucket size name) + (test (bucket size name)).toNat) name.elt)
          ((names ++ [name]) ++ rest) := by
        rw [← List.append_cons]
        exact ⟨hlaid.points, hlaid.inside, hlaid.apart, hlaid.small⟩
      rw [place, hpoints]
      simp only [Region.write_of_contains hcontains]
      rw [List.append_cons]
      exact ih _ hlaid' hplaced

/-- The null pointers come after the elements. -/
theorem terminate_spec {n i : Nat} (hlaid : Laid size buckets base m names)
    (h : Placed size base test m names)
    (hempty : ∀ k, inBucket size k names = [] → buckets k = none)
    (hdone : ∀ k < i, inBucket size k names ≠ [] → Stores m (base k) (inBucket size k names)) :
    ∃ m', terminate buckets test n i m = .ok m' ∧ m'.start = m.start ∧ m'.size = m.size ∧
      ∀ k < i + n, inBucket size k names ≠ [] → Stores m' (base k) (inBucket size k names) := by
  induction n generalizing i m with
  | zero => exact ⟨m, rfl, rfl, rfl, hdone⟩
  | succ n ih =>
      by_cases hi : inBucket size i names = []
      · rw [terminate, hempty i hi]
        obtain ⟨m', hrun, hstart, hsize, hstores⟩ := ih hlaid h fun k hk hne => by
          rcases Nat.lt_succ_iff_lt_or_eq.mp hk with hlt | rfl
          · exact hdone k hlt hne
          · exact absurd hi hne
        exact ⟨m', hrun, hstart, hsize, fun k hk => hstores k (by omega)⟩
      · have htest : (test i).toNat = total (inBucket size i names) := by
          rw [h.test]
          exact toNat_of_small (hlaid.small i)
        have hcontains : m.Contains (base i + (test i).toNat) (littleEndian 8 0).length := by
          obtain ⟨hstart, hend⟩ := hlaid.inside i hi
          rw [htest, length_littleEndian]
          exact ⟨by omega, by omega⟩
        have hfilled (k : Nat) : Filled (m.put (base i + (test i).toNat) (littleEndian 8 0))
            (base k) (inBucket size k names) := by
          by_cases hk : inBucket size k names = []
          · rw [hk]
            trivial
          · refine (h.filled k).put ?_
            rw [htest, length_littleEndian]
            by_cases heq : k = i
            · subst heq
              exact .inl (Nat.le_refl _)
            · have := hlaid.apart k i heq hk hi
              omega
        rw [terminate, hlaid.points i hi]
        simp only [Region.write_of_contains hcontains]
        have hdone' : ∀ k < i + 1, inBucket size k names ≠ [] →
            Stores (m.put (base i + (test i).toNat) (littleEndian 8 0)) (base k)
              (inBucket size k names) := by
          intro k hk hne
          rcases Nat.lt_succ_iff_lt_or_eq.mp hk with hlt | rfl
          · refine ⟨hfilled k, (hdone k hlt hne).terminated.put_of_apart ?_⟩
            have := hlaid.apart k i (Nat.ne_of_lt hlt) hne hi
            rw [htest, length_littleEndian]
            omega
          · refine ⟨hfilled k, ?_⟩
            rw [← htest]
            exact Region.holds_put hcontains
        obtain ⟨m', hrun, hstart, hsize, hstores⟩ := ih
          (m := m.put (base i + (test i).toNat) (littleEndian 8 0))
          ⟨hlaid.points, hlaid.inside, hlaid.apart, hlaid.small⟩ ⟨h.test, hfilled⟩ hdone'
        exact ⟨m', hrun, hstart, hsize, fun k hk => hstores k (by omega)⟩

/-! The rooms of the buckets. -/

theorem grow_foldl (size n k : Nat) (test : Nat → UInt16) (h : test k = UInt16.ofNat n)
    (names : List HashKey) :
    names.foldl (grow size) test k = UInt16.ofNat (n + total (inBucket size k names)) := by
  induction names generalizing test n with
  | nil => exact h
  | cons name names ih =>
      rw [List.foldl_cons]
      by_cases hk : bucket size name = k
      · have hgrow : grow size test name k = UInt16.ofNat (n + name.eltSize) := by
          rw [grow, hk, Function.update_self, h, UInt16.ofNat_add]
        rw [ih _ _ hgrow, inBucket_cons_of_eq hk, total, Nat.add_assoc]
      · have hgrow : grow size test name k = UInt16.ofNat n := by
          rw [grow, Function.update_of_ne (Ne.symm hk), h]
        rw [ih _ _ hgrow, inBucket_cons_of_ne hk]

/-- What a bucket needs, a multiple of the cache line. -/
def need (line : Cacheline) (size : Nat) (names : List HashKey) (k : Nat) : Nat :=
  ngxAlign (8 + total (inBucket size k (live names))) line.1

theorem rooms_of_empty (line : Cacheline) (h : inBucket size k (live names) = []) :
    rooms line size names k = 8 := by
  have htest := grow_foldl size 8 k (fun _ => 8) rfl (live names)
  rw [h] at htest
  simp only [rooms]
  rw [htest]
  rfl

theorem rooms_of_fits (line : Cacheline) (h : inBucket size k (live names) ≠ [])
    (hneed : need line size names k < 65536) :
    rooms line size names k ≠ 8 ∧ (rooms line size names k).toNat = need line size names k := by
  have htest := grow_foldl size 8 k (fun _ => 8) rfl (live names)
  have hle := le_ngxAlign (8 + total (inBucket size k (live names))) line.pos
  have htotal : 16 ≤ total (inBucket size k (live names)) := by
    cases hbucket : inBucket size k (live names) with
    | nil => exact absurd hbucket h
    | cons name names =>
        have := name.eltSize_ge
        rw [total]
        omega
  rw [need] at hneed ⊢
  have hsmall : (UInt16.ofNat (8 + total (inBucket size k (live names)))).toNat =
      8 + total (inBucket size k (live names)) := toNat_of_small (by omega)
  have hne : UInt16.ofNat (8 + total (inBucket size k (live names))) ≠ 8 := by
    intro heq
    have := congrArg UInt16.toNat heq
    rw [hsmall] at this
    change _ = 8 at this
    omega
  simp only [rooms]
  rw [htest, if_neg hne, hsmall]
  have hroom := toNat_of_small hneed
  refine ⟨fun heq => ?_, hroom⟩
  have := congrArg UInt16.toNat heq
  rw [hroom] at this
  change _ = 8 at this
  omega

theorem roomsBefore_mono (test : Nat → UInt16) {i j : Nat} (h : i ≤ j) :
    roomsBefore test i ≤ roomsBefore test j := by
  induction j with
  | zero => rw [Nat.le_zero.mp h]
  | succ j ih =>
      rcases Nat.lt_or_eq_of_le h with hlt | rfl
      · exact Nat.le_trans (ih (Nat.le_of_lt_succ hlt)) (Nat.le_add_right _ _)
      · exact Nat.le_refl _

theorem pointBuckets_spec (test : Nat → UInt16) (start n i j : Nat) (buckets : Nat → Option Nat) :
    pointBuckets test n i (start + roomsBefore test i) buckets j =
      if i ≤ j ∧ j < i + n ∧ test j ≠ 8 then some (start + roomsBefore test j) else buckets j := by
  induction n generalizing i buckets with
  | zero =>
      have : ¬(i ≤ j ∧ j < i + 0 ∧ test j ≠ 8) := by omega
      rw [if_neg this]
      rfl
  | succ n ih =>
      rw [pointBuckets]
      by_cases hi : test i = 8
      · have hroom : roomsBefore test (i + 1) = roomsBefore test i := by
          rw [roomsBefore, if_pos hi, Nat.add_zero]
        rw [if_pos hi, ← hroom, ih (i + 1)]
        have hiff : (i + 1 ≤ j ∧ j < i + 1 + n ∧ test j ≠ 8) ↔ (i ≤ j ∧ j < i + (n + 1) ∧ test j ≠ 8) := by
          constructor
          · rintro ⟨hle, hlt, hne⟩
            exact ⟨by omega, by omega, hne⟩
          · rintro ⟨hle, hlt, hne⟩
            have hij : i ≠ j := fun heq => hne (heq ▸ hi)
            exact ⟨by omega, by omega, hne⟩
        simp only [hiff]
      · have hroom : roomsBefore test (i + 1) = roomsBefore test i + (test i).toNat := by
          rw [roomsBefore, if_neg hi]
        rw [if_neg hi, Nat.add_assoc, ← hroom, ih (i + 1)]
        by_cases hij : i = j
        · subst hij
          rw [if_neg (by omega), Function.update_self, if_pos ⟨Nat.le_refl _, by omega, hi⟩]
        · rw [Function.update_of_ne (Ne.symm hij)]
          have hiff : (i + 1 ≤ j ∧ j < i + 1 + n ∧ test j ≠ 8) ↔
              (i ≤ j ∧ j < i + (n + 1) ∧ test j ≠ 8) := by
            constructor <;> rintro ⟨hle, hlt, hne⟩ <;> exact ⟨by omega, by omega, hne⟩
          simp only [hiff]

/-! When the memory is large enough. -/

/-- The sums of 16 bits count what every bucket needs, and the sizes of the blocks do not
overflow. -/
structure Fits (line : Cacheline) (hinit : HashInit) (names : List HashKey) : Prop where
  test : 2 * bucketCount hinit names ≤ (2 * hinit.maxSize.toNat) % 2 ^ 64
  buckets : bucketsBytes hinit (bucketCount hinit names) < 2 ^ 64
  elts : roomsBefore (rooms line (bucketCount hinit names) names) (bucketCount hinit names) + line.1 <
    2 ^ 64
  room : ∀ k, inBucket (bucketCount hinit names) k (live names) ≠ [] →
    need line (bucketCount hinit names) names k < 65536

theorem le_of_firstFit {bucketSize : UInt64} {n start : Nat}
    (h : firstFit bucketSize names n start = some size) : start ≤ size := by
  induction n generalizing start with
  | zero => exact nomatch h
  | succ n ih =>
      rw [firstFit] at h
      split_ifs at h
      · exact Nat.le_of_eq (Option.some.inj h)
      · exact Nat.le_of_succ_le (ih h)

theorem bucketCount_pos {hinit : HashInit} (h : hinit.maxSize ≠ 0) (names : List HashKey) :
    0 < bucketCount hinit names := by
  have hmax : 0 < hinit.maxSize.toNat :=
    Nat.pos_of_ne_zero fun hzero => h (UInt64.toNat.inj hzero)
  simp only [bucketCount]
  cases hfit : firstFit (hinit.bucketSize - 8) names _ _ with
  | none => exact hmax
  | some size =>
      refine Nat.lt_of_lt_of_le ?_ (le_of_firstFit hfit)
      split_ifs with hlarge hzero
      · omega
      · exact Nat.one_pos
      · exact Nat.pos_of_ne_zero hzero

theorem lt_of_inBucket (hsize : 0 < size) (h : inBucket size k names ≠ []) : k < size := by
  obtain ⟨name, hname⟩ := List.exists_mem_of_ne_nil _ h
  have hk : bucket size name = k := by simpa [inBucket] using (List.mem_filter.mp hname).2
  rw [← hk]
  exact Nat.mod_lt _ hsize

variable {line : Cacheline} {hinit : HashInit}

/-- Where the elements of a bucket come to lie. -/
def eltsAt (line : Cacheline) (size addr : Nat) (names : List HashKey) (k : Nat) : Nat :=
  ngxAlign addr line.1 + roomsBefore (rooms line size names) k

theorem roomsBefore_add_need (h : inBucket size k (live names) ≠ [])
    (hneed : need line size names k < 65536) (hlt : k < n) :
    roomsBefore (rooms line size names) k + need line size names k ≤
      roomsBefore (rooms line size names) n := by
  obtain ⟨hne, hroom⟩ := rooms_of_fits line h hneed
  have hmono := roomsBefore_mono (rooms line size names) (Nat.succ_le_of_lt hlt)
  rw [roomsBefore, if_neg hne, hroom] at hmono
  exact hmono

theorem pointBuckets_eltsAt (addr k : Nat) :
    pointBuckets (rooms line size names) size 0 (ngxAlign addr line.1) (fun _ => none) k =
      if k < size ∧ rooms line size names k ≠ 8 then some (eltsAt line size addr names k) else none := by
  have hspec := pointBuckets_spec (rooms line size names) (ngxAlign addr line.1) size 0 k
    fun _ => none
  rw [roomsBefore, Nat.add_zero] at hspec
  rw [hspec]
  simp only [Nat.zero_le, true_and, Nat.zero_add]
  rfl

theorem laid_of_fits (hsize : 0 < size) (addr : Nat) (garbage : Nat → UInt8)
    (helts : roomsBefore (rooms line size names) size + line.1 < 2 ^ 64)
    (hroom : ∀ k, inBucket size k (live names) ≠ [] → need line size names k < 65536) :
    Laid size
      (pointBuckets (rooms line size names) size 0 (ngxAlign addr line.1) (fun _ => none))
      (eltsAt line size addr names)
      ⟨addr, (roomsBefore (rooms line size names) size % 2 ^ 64 + line.1) % 2 ^ 64, garbage⟩
      (live names) := by
  have hle (k : Nat) : 8 + total (inBucket size k (live names)) ≤ need line size names k :=
    le_ngxAlign _ line.pos
  have hbytes : (roomsBefore (rooms line size names) size % 2 ^ 64 + line.1) % 2 ^ 64 =
      roomsBefore (rooms line size names) size + line.1 := by
    rw [Nat.mod_eq_of_lt (show roomsBefore (rooms line size names) size < 2 ^ 64 by omega),
      Nat.mod_eq_of_lt helts]
  refine ⟨fun k hk => ?_, fun k hk => ?_, fun j k hne hj hk => ?_, fun k => ?_⟩
  · rw [pointBuckets_eltsAt, if_pos ⟨lt_of_inBucket hsize hk, (rooms_of_fits line hk (hroom k hk)).1⟩]
  · have hfirst := le_ngxAlign addr line.pos
    have hlast := ngxAlign_lt addr line.pos
    have hend := roomsBefore_add_need hk (hroom k hk) (lt_of_inBucket hsize hk)
    have := hle k
    rw [hbytes]
    simp only [Region.Contains, eltsAt]
    omega
  · have hj' := hle j
    have hk' := hle k
    simp only [eltsAt]
    rcases Nat.lt_or_gt_of_ne hne with hlt | hlt
    · have := roomsBefore_add_need hj (hroom j hj) hlt
      omega
    · have := roomsBefore_add_need hk (hroom k hk) hlt
      omega
  · by_cases hk : inBucket size k (live names) = []
    · rw [hk]
      decide
    · have := hle k
      have := hroom k hk
      omega

theorem dvd_roomsBefore (hroom : ∀ k, inBucket size k (live names) ≠ [] →
      need line size names k < 65536) (k : Nat) :
    8 ∣ roomsBefore (rooms line size names) k := by
  induction k with
  | zero => exact Nat.dvd_zero 8
  | succ k ih =>
      rw [roomsBefore]
      refine Nat.dvd_add ih ?_
      by_cases hk : inBucket size k (live names) = []
      · rw [if_pos (rooms_of_empty line hk)]
        exact Nat.dvd_zero 8
      · obtain ⟨hne, hval⟩ := rooms_of_fits line hk (hroom k hk)
        rw [if_neg hne, hval]
        exact Nat.dvd_trans line.dvd (dvd_ngxAlign _ _)

end Hash

open Hash

theorem hashInit_of_fits {line : Cacheline} {hinit : HashInit} {names : List HashKey} (addr : Nat)
    (garbage : Nat → UInt8) (hrejected : rejected hinit names = false)
    (hdivide : (hinit.bucketSize - 8) / 16 ≠ 0) (h : Fits line hinit names) :
    ∃ m, hashInit line hinit addr garbage names = .ok (some ⟨bucketCount hinit names,
        pointBuckets (rooms line (bucketCount hinit names) names) (bucketCount hinit names) 0
          (ngxAlign addr line.1) (fun _ => none), m⟩) ∧
      ∀ k, inBucket (bucketCount hinit names) k (live names) ≠ [] →
        Stores m (eltsAt line (bucketCount hinit names) addr names k)
          (inBucket (bucketCount hinit names) k (live names)) := by
  have hmax : hinit.maxSize ≠ 0 := by
    intro hzero
    simp [rejected, hzero] at hrejected
  have hsize := bucketCount_pos hmax names
  have hlaid := laid_of_fits hsize addr garbage h.elts h.room
  have hplaced (m : Region) : Placed (bucketCount hinit names)
      (eltsAt line (bucketCount hinit names) addr names) (fun _ => 0) m [] :=
    ⟨fun _ => rfl, fun _ => trivial⟩
  obtain ⟨test, m, hplace, hlaid', hplaced'⟩ :=
    place_spec [] (live names) hlaid (hplaced _)
  obtain ⟨m', hterminate, -, -, hstores⟩ :=
    terminate_spec (n := bucketCount hinit names) (i := 0) hlaid' hplaced'
      (fun k hk => by rw [pointBuckets_eltsAt, if_neg fun h => h.2 (rooms_of_empty line hk)])
      fun k hk => absurd hk (Nat.not_lt_zero k)
  refine ⟨m', ?_, fun k hk => hstores k ?_ hk⟩
  · have hbuckets := Nat.mod_eq_of_lt h.buckets
    rw [hashInit, if_neg (by rw [hrejected]; decide), if_neg hdivide]
    simp only
    rw [if_neg (Nat.not_lt.mpr h.test), if_neg (by rw [hbuckets]; exact Nat.lt_irrefl _), hplace]
    simp only
    rw [hterminate]
  · rw [Nat.zero_add]
    exact lt_of_inBucket hsize hk

end RebuildTheWheel.Nginx
