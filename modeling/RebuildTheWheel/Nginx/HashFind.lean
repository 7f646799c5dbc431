import RebuildTheWheel.Nginx.HashLayout

namespace RebuildTheWheel.Nginx

open Data Hash

/-! What `ngx_hash_find` finds. -/

/-- The keys of a table: distinct, not empty, with the hash of the key, and valid. -/
structure Keys (hash : Bytes → UInt64) (names : List HashKey) : Prop where
  nodup : (names.map (·.key)).Nodup
  valid : ∀ name ∈ names, Valid name
  named : ∀ name ∈ names, name.key ≠ [] ∧ name.isNull = false
  hashed : ∀ name ∈ names, name.keyHash = hash name.key

variable {hash : Bytes → UInt64} {line : Cacheline} {hinit : HashInit} {addr : Nat}
  {garbage : Nat → UInt8} {names : List HashKey} {key : Bytes} {name : HashKey}

theorem Keys.live (h : Keys hash names) : live names = names :=
  List.filter_eq_self.mpr fun name hname => by rw [(h.named name hname).2]; rfl

theorem valueOf_filter {p : HashKey → Bool} (h : ∀ name ∈ names, name.key = key → p name = true) :
    valueOf (names.filter p) key = valueOf names key := by
  induction names with
  | nil => rfl
  | cons name names ih =>
      have hrest := ih fun n hn => h n (List.mem_cons_of_mem name hn)
      by_cases hkey : name.key = key
      · rw [List.filter_cons_of_pos (h name List.mem_cons_self hkey)]
        simp [valueOf, hkey]
      · have hskip : valueOf (name :: names) key = valueOf names key := by simp [valueOf, hkey]
        rw [hskip, ← hrest, List.filter_cons]
        split_ifs
        · simp [valueOf, hkey]
        · rfl

theorem valueOf_of_mem (h : (names.map (·.key)).Nodup) (hname : name ∈ names) :
    valueOf names name.key = name.value := by
  induction names with
  | nil => exact absurd hname List.not_mem_nil
  | cons first names ih =>
      rw [List.map_cons, List.nodup_cons] at h
      rcases List.mem_cons.mp hname with rfl | hname
      · simp [valueOf]
      · have hne : first.key ≠ name.key := fun heq => h.1 (heq ▸ List.mem_map_of_mem hname)
        rw [← ih h.2 hname]
        simp [valueOf, hne]

theorem valueOf_of_notMem (h : key ∉ names.map (·.key)) : valueOf names key = 0 := by
  have hnone : (names.find? fun name => name.key = key) = none := by
    refine List.find?_eq_none.mpr fun name hname heq => h ?_
    rw [← of_decide_eq_true heq]
    exact List.mem_map_of_mem hname
  rw [valueOf, hnone]
  rfl

theorem hashFind_of_fits (hkeys : Keys hash names) (h : Fits line hinit names) {table : HashTable}
    (htable : hashInit line hinit addr garbage names = .ok (some table)) (key : Bytes) :
    hashFind table (hash key) key = some (valueOf names key) := by
  have hrejected : rejected hinit names = false := by
    by_contra hrejected
    rw [hashInit, if_pos (by simpa using hrejected)] at htable
    cases htable
  have hdivide : (hinit.bucketSize - 8) / 16 ≠ 0 := by
    intro hdivide
    rw [hashInit, if_neg (by rw [hrejected]; decide), if_pos hdivide] at htable
    cases htable
  have hmax : hinit.maxSize ≠ 0 := by
    intro hzero
    simp [rejected, hzero] at hrejected
  obtain ⟨m, hinit', hstores⟩ := hashInit_of_fits addr garbage hrejected hdivide h
  rw [hinit'] at htable
  obtain rfl := Option.some.inj (Except.ok.inj htable)
  have hlive := hkeys.live
  have hlt := Nat.mod_lt (hash key).toNat (bucketCount_pos hmax names)
  have hbucket : ∀ name ∈ names, name.key = key →
      decide (bucket (bucketCount hinit names) name = (hash key).toNat % bucketCount hinit names) = true := by
    intro name hname hkey
    rw [bucket, hkeys.hashed name hname, hkey]
    exact decide_eq_true rfl
  have hvalue := valueOf_filter hbucket
  rw [hashFind]
  simp only [pointBuckets_eltsAt]
  by_cases hempty : inBucket (bucketCount hinit names) ((hash key).toNat % bucketCount hinit names)
      (live names) = []
  · rw [if_neg fun h => h.2 (rooms_of_empty line hempty), ← hvalue]
    rw [hlive] at hempty
    have hnil : valueOf (inBucket (bucketCount hinit names)
        ((hash key).toNat % bucketCount hinit names) names) key = 0 := by rw [hempty]; rfl
    exact congrArg some hnil.symm
  · obtain ⟨hne, -⟩ := rooms_of_fits line hempty (h.room _ hempty)
    have hstored := hstores _ hempty
    obtain ⟨-, hend⟩ := (Region.holds_iff.mp hstored.terminated).1
    rw [length_littleEndian] at hend
    have hlength := length_le_total (inBucket (bucketCount hinit names)
      ((hash key).toNat % bucketCount hinit names) (live names))
    rw [if_pos ⟨hlt, hne⟩]
    simp only
    rw [hashFindFrom_spec hstored ?_ ?_ (by omega), hlive]
    · exact congrArg some hvalue
    · intro name hname
      rw [hlive] at hname
      exact hkeys.valid name (List.mem_of_mem_filter hname)
    · exact Nat.dvd_add (Nat.dvd_trans line.dvd (dvd_ngxAlign _ _)) (dvd_roomsBefore h.room _)

/-- Where the bytes of every bucket are counted, the memory is kept to, and every key is found. -/
theorem hash_holds (hkeys : Keys hash names) (h : Fits line hinit names) :
    hashInit line hinit addr garbage names ≠ .error .outside ∧
      ∀ table, hashInit line hinit addr garbage names = .ok (some table) →
        (∀ name ∈ names, hashFind table (hash name.key) name.key = some name.value) ∧
          ∀ key, key ∉ names.map (·.key) → hashFind table (hash key) key = some 0 := by
  refine ⟨?_, fun table htable => ⟨fun name hname => ?_, fun key hkey => ?_⟩⟩
  · by_cases hrejected : rejected hinit names = true
    · rw [hashInit, if_pos hrejected]
      intro h
      cases h
    · by_cases hdivide : (hinit.bucketSize - 8) / 16 = 0
      · rw [hashInit, if_neg hrejected, if_pos hdivide]
        intro h
        cases h
      · obtain ⟨m, hinit', -⟩ := hashInit_of_fits addr garbage (by simpa using hrejected) hdivide h
        rw [hinit']
        intro h
        cases h
  · rw [hashFind_of_fits hkeys h htable, valueOf_of_mem hkeys.nodup hname]
  · rw [hashFind_of_fits hkeys h htable, valueOf_of_notMem hkey]

/-! A call that returns has room for the elements: the end pointer of the last bucket lies in the
block. -/

variable {size n i k b : Nat} {buckets : Nat → Option Nat} {test test' : Nat → UInt16}
  {m m' : Region}

theorem place_test (h : place size buckets test m names = .ok (test', m')) :
    test' = names.foldl (grow size) test ∧ m'.start = m.start ∧ m'.size = m.size := by
  induction names generalizing test m with
  | nil =>
      obtain ⟨rfl, rfl⟩ := Prod.mk.inj (Except.ok.inj h)
      exact ⟨rfl, rfl, rfl⟩
  | cons name names ih =>
      rw [place] at h
      cases hb : buckets (bucket size name) with
      | none =>
          rw [hb] at h
          cases h
      | some b =>
          simp only [hb] at h
          cases hwrite : m.write (b + (test (bucket size name)).toNat) name.elt with
          | none =>
              rw [hwrite] at h
              cases h
          | some m₁ =>
              simp only [hwrite] at h
              obtain ⟨-, rfl⟩ := Region.write_eq_some.mp hwrite
              obtain ⟨htest, hstart, hsize⟩ := ih h
              exact ⟨htest, hstart, hsize⟩

theorem terminate_contains (h : terminate buckets test n i m = .ok m') (hik : i ≤ k)
    (hk : k < i + n) (hb : buckets k = some b) : m.Contains (b + (test k).toNat) 8 := by
  induction n generalizing i m with
  | zero => omega
  | succ n ih =>
      rw [terminate] at h
      cases hi : buckets i with
      | none =>
          rw [hi] at h
          have hne : i ≠ k := by
            rintro rfl
            cases hi.symm.trans hb
          exact ih h (by omega) (by omega)
      | some b' =>
          simp only [hi] at h
          cases hwrite : m.write (b' + (test i).toNat) (littleEndian 8 0) with
          | none =>
              rw [hwrite] at h
              cases h
          | some m₁ =>
              simp only [hwrite] at h
              obtain ⟨hcontains, rfl⟩ := Region.write_eq_some.mp hwrite
              by_cases hne : i = k
              · subst hne
                obtain rfl := Option.some.inj (hi.symm.trans hb)
                rwa [length_littleEndian] at hcontains
              · have hcontains' := ih h (by omega) (by omega)
                exact hcontains'

theorem exists_last_room (test : Nat → UInt16) (size : Nat) :
    roomsBefore test size = 0 ∨
      ∃ k < size, test k ≠ 8 ∧ roomsBefore test size = roomsBefore test k + (test k).toNat := by
  induction size with
  | zero => exact .inl rfl
  | succ size ih =>
      rw [roomsBefore]
      by_cases hsize : test size = 8
      · rw [if_pos hsize, Nat.add_zero]
        refine ih.imp id ?_
        rintro ⟨k, hk, hroom⟩
        exact ⟨k, by omega, hroom⟩
      · rw [if_neg hsize]
        exact .inr ⟨size, by omega, hsize, rfl⟩

theorem Cacheline.le (line : Cacheline) : line.1 ≤ 2048 := by
  obtain ⟨k, hk, hsize⟩ := line.2
  rw [hsize]
  exact Nat.mul_le_mul_left 8 (Nat.pow_le_pow_right (by decide) hk)

theorem fits_of_ok {table : HashTable}
    (h : hashInit line hinit addr garbage names = .ok (some table))
    (hroom : ∀ k, inBucket (bucketCount hinit names) k (live names) ≠ [] →
      need line (bucketCount hinit names) names k < 65536) : Fits line hinit names := by
  by_cases hrejected : rejected hinit names = true
  · rw [hashInit, if_pos hrejected] at h
    cases h
  by_cases hdivide : (hinit.bucketSize - 8) / 16 = 0
  · rw [hashInit, if_neg hrejected, if_pos hdivide] at h
    cases h
  rw [hashInit, if_neg hrejected, if_neg hdivide] at h
  dsimp only at h
  split_ifs at h with htest hbuckets
  refine ⟨Nat.le_of_not_lt htest, ?_, ?_, hroom⟩
  · have hlt := Nat.mod_lt (bucketsBytes hinit (bucketCount hinit names)) (Nat.two_pow_pos 64)
    omega
  cases hplace : place (bucketCount hinit names)
      (pointBuckets (rooms line (bucketCount hinit names) names) (bucketCount hinit names) 0
        (ngxAlign addr line.1) fun _ => none) (fun _ => 0)
      ⟨addr, (roomsBefore (rooms line (bucketCount hinit names) names) (bucketCount hinit names) %
        2 ^ 64 + line.1) % 2 ^ 64, garbage⟩ (live names) with
  | error fault =>
      rw [hplace] at h
      cases h
  | ok placed =>
      obtain ⟨test, m⟩ := placed
      simp only [hplace] at h
      obtain ⟨rfl, hstart, hsize⟩ := place_test hplace
      cases hterminate : terminate (pointBuckets (rooms line (bucketCount hinit names) names)
          (bucketCount hinit names) 0 (ngxAlign addr line.1) fun _ => none)
          ((live names).foldl (grow (bucketCount hinit names)) fun _ => 0)
          (bucketCount hinit names) 0 m with
      | error fault =>
          rw [hterminate] at h
          cases h
      | ok m' =>
          have hline := line.le
          rcases exists_last_room (rooms line (bucketCount hinit names) names)
            (bucketCount hinit names) with hnone | ⟨k, hk, hne, hlast⟩
          · omega
          have hbucket : inBucket (bucketCount hinit names) k (live names) ≠ [] :=
            fun hempty => hne (rooms_of_empty line hempty)
          obtain ⟨-, hneed⟩ := rooms_of_fits line hbucket (hroom k hbucket)
          have hlt := ngxAlign_lt (8 + total (inBucket (bucketCount hinit names) k (live names)))
            line.pos
          have hle := le_ngxAlign (8 + total (inBucket (bucketCount hinit names) k (live names)))
            line.pos
          have hsmall := hroom k hbucket
          rw [need] at hneed hsmall
          obtain ⟨-, hend⟩ := terminate_contains hterminate (Nat.zero_le k) (by omega)
            ((pointBuckets_eltsAt addr k).trans (if_pos ⟨hk, hne⟩))
          have hfirst := le_ngxAlign addr line.pos
          rw [grow_foldl _ 0 k _ rfl, Nat.zero_add, toNat_of_small (by omega), hstart, hsize,
            eltsAt] at hend
          simp only at hend
          omega

def line64 : Cacheline := ⟨64, 3, by decide, rfl⟩

def keyOf (key : Bytes) (value : UInt64) : HashKey := ⟨key, false, ngxHashKey key, value⟩

def twoKeys : List HashKey := [keyOf [97] 11, keyOf [98, 99] 12]

theorem twoKeys_keys : Keys ngxHashKey twoKeys where
  nodup := by decide
  valid := by
    simp only [twoKeys, List.forall_mem_cons]
    exact ⟨⟨by decide, by decide, by decide⟩, ⟨by decide, by decide, by decide⟩, nofun⟩
  named := by decide
  hashed := by decide

theorem twoKeys_fits : Fits line64 ⟨true, 1, 64⟩ twoKeys where
  test := by decide
  buckets := by decide
  elts := by decide
  room := by
    have hcount : bucketCount ⟨true, 1, 64⟩ twoKeys = 1 := by decide
    rw [hcount]
    intro k hk
    obtain rfl : k = 0 := Nat.lt_one_iff.mp (lt_of_inBucket Nat.one_pos hk)
    decide

theorem hash_holds_two :
    hashInit line64 ⟨true, 1, 64⟩ 4096 (fun _ => 170) twoKeys ≠ .error .outside ∧
      ∀ table, hashInit line64 ⟨true, 1, 64⟩ 4096 (fun _ => 170) twoKeys = .ok (some table) →
        (∀ name ∈ twoKeys, hashFind table (ngxHashKey name.key) name.key = some name.value) ∧
          ∀ key, key ∉ twoKeys.map (·.key) → hashFind table (ngxHashKey key) key = some 0 :=
  hash_holds twoKeys_keys twoKeys_fits

/-- A key whose element takes 65536 bytes, which the sums of 16 bits do not see. -/
def longKey (hash : Bytes → UInt64) : HashKey :=
  ⟨List.replicate 65520 97, false, hash (List.replicate 65520 97), 11⟩

def longInit : HashInit := ⟨true, 1, 65544⟩

theorem longKey_eltSize (hash : Bytes → UInt64) : (longKey hash).eltSize = 65536 := by
  rw [HashKey.eltSize, longKey, List.length_replicate]
  rfl

theorem longKey_grow (hash : Bytes → UInt64) (test : Nat → UInt16) :
    grow 1 test (longKey hash) = test := by
  have hbucket : bucket 1 (longKey hash) = 0 := Nat.mod_one _
  have hsum : test 0 + UInt16.ofNat 65536 = test 0 := UInt16.add_zero (test 0)
  rw [grow, longKey_eltSize, hbucket, hsum, Function.update_eq_self]

theorem bucketCount_longInit (name : HashKey) :
    bucketCount longInit [name] = (firstFit 65536 [name] 1 1).getD 1 := by
  have hbucketSize : longInit.bucketSize - 8 = 65536 := by decide
  have hmaxSize : longInit.maxSize.toNat = 1 := by decide
  have hstart : 1 / ((65536 : UInt64) / 16).toNat = 0 := by decide
  simp only [bucketCount, hbucketSize, hmaxSize, List.length_singleton, hstart]
  rfl

theorem longKey_outside (hash : Bytes → UInt64) :
    hashInit line64 longInit 4096 (fun _ => 170) [longKey hash] = .error .outside := by
  have hlive : live [longKey hash] = [longKey hash] := rfl
  have hbucket : bucket 1 (longKey hash) = 0 := Nat.mod_one _
  have hrejected : rejected longInit [longKey hash] = false := by
    rw [rejected, List.any_cons, longKey_eltSize]
    rfl
  have hfits : fits 65536 1 (fun _ => 0) (live [longKey hash]) = true := by
    rw [hlive, fits, longKey_grow]
    rfl
  have hcount : bucketCount longInit [longKey hash] = 1 := by
    rw [bucketCount_longInit, firstFit, if_pos hfits]
    rfl
  have hrooms : rooms line64 1 [longKey hash] 0 = 8 := by
    simp only [rooms, hlive, List.foldl_cons, longKey_grow]
    rfl
  have hbuckets : pointBuckets (rooms line64 1 [longKey hash]) 1 0 (ngxAlign 4096 line64.1)
      (fun _ => none) 0 = none := by
    rw [pointBuckets, if_pos hrooms]
    rfl
  rw [hashInit, if_neg (by rw [hrejected]; decide), if_neg (by decide)]
  simp only [hcount]
  rw [if_neg (by decide), if_neg (by decide), hlive, place, hbucket, hbuckets]

/-- Whatever the hash function is. -/
theorem hash_overflows :
    ¬∃ hash : Bytes → UInt64, ∀ line hinit addr garbage names, Keys hash names →
      hashInit line hinit addr garbage names ≠ .error .outside := by
  rintro ⟨hash, h⟩
  refine h line64 longInit 4096 (fun _ => 170) [longKey hash] ⟨?_, ?_, ?_, ?_⟩
    (longKey_outside hash)
  · rw [List.map_singleton]
    exact List.pairwise_singleton _ _
  · refine List.forall_mem_singleton.mpr ⟨?_, ?_, ?_⟩
    · exact show (11 : UInt64) ≠ 0 by decide
    · rw [longKey, List.length_replicate]
      decide
    · have hlower : ngxTolower 97 = 97 := by decide
      rw [longKey, List.map_replicate, hlower]
  · refine List.forall_mem_singleton.mpr ⟨?_, rfl⟩
    rw [longKey]
    exact fun h => absurd (congrArg List.length h) (by rw [List.length_replicate]; decide)
  · exact List.forall_mem_singleton.mpr rfl

end RebuildTheWheel.Nginx
