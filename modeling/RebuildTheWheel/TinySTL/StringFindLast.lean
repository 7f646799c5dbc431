import RebuildTheWheel.TinySTL.StringFind

namespace RebuildTheWheel.TinySTL

open Data

namespace Characters

/-! `find_last_of` and `find_last_not_of` for a set of characters given as a string. -/

def isContained (ch : UInt8) : List UInt8 → Bool
  | [] => false
  | c :: rest => if c = ch then true else isContained ch rest

/-- The loop `for (size_t i = pos; i > 0; --i)`. -/
def findLastOf (s str : Characters) (pos : Nat) : Option Nat := do
  let pos := changeVarWhenEqualNPOS pos s.size 1
  let i ← Scan.down (fun i => (s.read (i + 1)).map fun c => isContained c str.chars) pos
  return match i with
    | some i => i + 1
    | none => npos

/-- The loop `for (size_t i = pos; i >= 0; --i)`, which goes on behind 0. -/
def findLastNotOfLoop (s : Characters) (set : List UInt8) : Nat → Nat → Option Nat
  | 0, _ => none
  | fuel + 1, i => do
      let c ← s.read i
      if !isContained c set then return i else findLastNotOfLoop s set fuel (sizeSub i 1)

def findLastNotOf (s str : Characters) (pos : Nat) : Option Nat :=
  let pos := changeVarWhenEqualNPOS pos s.size 1
  findLastNotOfLoop s str.chars (pos + 2) pos

/-- What is left of a string when only the indices up to `pos` may be read. -/
def upTo (s : Characters) (pos : Nat) : Characters where
  chars := s.chars.take (pos + 1)
  stale := []
  short := by
    have hshort := s.short
    simp only [List.length_append, List.length_nil, List.length_take] at hshort ⊢
    omega

/-- The character `i` is one of `str`. -/
def Has (s str : Characters) (i : Nat) : Prop := ∃ c, s.chars[i]? = some c ∧ c ∈ str.chars

def Lacks (s str : Characters) (i : Nat) : Prop := ∃ c, s.chars[i]? = some c ∧ c ∉ str.chars

/-- The greatest index up to `pos` of those in `p`, or `npos`. -/
def Greatest (p : Nat → Prop) (pos r : Nat) : Prop :=
  (r ≤ pos ∧ p r ∧ ∀ i, i ≤ pos → p i → i ≤ r) ∨ r = npos ∧ ∀ i, i ≤ pos → ¬p i

/-- The search gives the last such index, also when nothing but the indices up to `pos` can be
read. -/
def FindsLastOf (s str : Characters) (pos : Nat) : Prop :=
  ∃ r, findLastOf s str pos = some r ∧ findLastOf (s.upTo pos) str pos = some r ∧
    Greatest (Has s str) pos r

def FindsLastNotOf (s str : Characters) (pos : Nat) : Prop :=
  ∃ r, findLastNotOf s str pos = some r ∧ findLastNotOf (s.upTo pos) str pos = some r ∧
    Greatest (Lacks s str) pos r

variable {s t str : Characters} {i k pos : Nat} {ch : UInt8}

theorem isContained_iff {set : List UInt8} : isContained ch set = true ↔ ch ∈ set := by
  induction set with
  | nil => simp [isContained]
  | cons c rest ih =>
      rw [isContained, List.mem_cons, ← ih]
      split_ifs with heq
      · exact ⟨fun _ => .inl heq.symm, fun _ => rfl⟩
      · exact ⟨.inr, fun h => h.resolve_left fun h' => heq h'.symm⟩

/-- `t` reads as `s` at the indices up to `pos`. -/
def Agrees (s t : Characters) (pos : Nat) : Prop := ∀ i, i ≤ pos → t.read i = s.chars[i]?

theorem agrees_self (hpos : pos < s.size) : Agrees s s pos := fun i hi => by
  rw [read, List.getElem?_append_left (Nat.lt_of_le_of_lt hi hpos)]

theorem agrees_upTo (s : Characters) (pos : Nat) : Agrees s (s.upTo pos) pos := fun i hi => by
  rw [read, upTo, List.append_nil, List.getElem?_take_of_lt (Nat.lt_succ_of_le hi)]

theorem has_iff (hi : i < s.size) : Has s str i ↔ ¬Lacks s str i := by
  have hchar : s.chars[i]? = some s.chars[i] := List.getElem?_eq_getElem hi
  constructor
  · intro ⟨c, hc, hmem⟩ ⟨d, hd, hnot⟩
    obtain rfl := Option.some.inj (hc.symm.trans hd)
    exact hnot hmem
  · intro hlacks
    by_contra hhas
    exact hlacks ⟨_, hchar, fun hmem => hhas ⟨_, hchar, hmem⟩⟩

theorem contained_has (h : Agrees s t pos) (hi : i ≤ pos) (hhas : Has s str i) :
    (t.read i).map (fun c => isContained c str.chars) = some true := by
  obtain ⟨c, hc, hmem⟩ := hhas
  rw [h i hi, hc, Option.map_some, isContained_iff.mpr hmem]

theorem contained_lacks (h : Agrees s t pos) (hi : i ≤ pos) (hlacks : Lacks s str i) :
    (t.read i).map (fun c => isContained c str.chars) = some false := by
  obtain ⟨c, hc, hnot⟩ := hlacks
  rw [h i hi, hc, Option.map_some, Bool.eq_false_iff.mpr fun h' => hnot (isContained_iff.mp h')]

theorem changeVar_eq (hpos : pos < s.size) (n : Nat) : changeVarWhenEqualNPOS pos n 1 = pos := by
  have hsize := s.size_lt
  rw [changeVarWhenEqualNPOS, npos, if_neg (by omega)]

/-! The index 0 is left out by the one search. -/

theorem findLastOf_found (hpos : pos < s.size) (h : Agrees s t pos) (hk : k + 1 ≤ pos)
    (hhas : Has s str (k + 1)) (hbehind : ∀ i, k + 1 < i → i ≤ pos → Lacks s str i) :
    findLastOf t str pos = some (k + 1) := by
  have hstop := contained_has h hk hhas
  have hne : (t.read (k + 1)).map (fun c => isContained c str.chars) ≠ some false := by
    rw [hstop]
    simp
  rw [findLastOf, changeVar_eq hpos, Scan.down_last hk hne
    fun l hl hlt => contained_lacks h hlt (hbehind (l + 1) (by omega) hlt), hstop]
  rfl

theorem findLastOf_none (hpos : pos < s.size) (h : Agrees s t pos)
    (hall : ∀ i, 0 < i → i ≤ pos → Lacks s str i) : findLastOf t str pos = some npos := by
  rw [findLastOf, changeVar_eq hpos,
    Scan.down_none fun k hk => contained_lacks h hk (hall (k + 1) k.succ_pos hk)]
  rfl

theorem findsLastOf_iff (hpos : pos < s.size) :
    FindsLastOf s str pos ↔ Lacks s str 0 ∨ ∃ i, 0 < i ∧ i ≤ pos ∧ Has s str i := by
  have hlacks : ∀ i, i ≤ pos → ¬Has s str i → Lacks s str i := fun i hi hno => by
    by_contra hnot
    exact hno ((has_iff (by omega)).mpr hnot)
  rcases Scan.exists_last (fun i => Lacks s str (i + 1)) pos with hall | ⟨k, hk, hhas, hbehind⟩
  · have hall' : ∀ i, 0 < i → i ≤ pos → Lacks s str i := fun i hi hle => by
      have hlack := hall (i - 1) (by omega)
      rwa [Nat.sub_add_cancel hi] at hlack
    constructor
    · intro ⟨r, hr, _, hgreatest⟩
      obtain rfl := Option.some.inj ((findLastOf_none hpos (agrees_self hpos) hall').symm.trans hr)
      rcases hgreatest with ⟨hle, -⟩ | ⟨-, hno⟩
      · have hsize := s.size_lt
        rw [npos] at hle
        omega
      · exact .inl (hlacks 0 (Nat.zero_le _) (hno 0 (Nat.zero_le _)))
    · intro hcond
      refine ⟨npos, findLastOf_none hpos (agrees_self hpos) hall',
        findLastOf_none hpos (agrees_upTo s pos) hall', .inr ⟨rfl, fun i hi hhas => ?_⟩⟩
      have hlack : Lacks s str i := by
        rcases Nat.eq_zero_or_pos i with rfl | hi'
        · rcases hcond with hzero | ⟨k, hk, hle, hhask⟩
          · exact hzero
          · exact absurd (hall' k hk hle) ((has_iff (by omega)).mp hhask)
        · exact hall' i hi' hi
      exact (has_iff (by omega)).mp hhas hlack
  · have hhas' : Has s str (k + 1) := (has_iff (by omega)).mpr hhas
    have hbehind' : ∀ i, k + 1 < i → i ≤ pos → Lacks s str i := fun i hi hle => by
      have hlack := hbehind (i - 1) (by omega) (by omega)
      rwa [Nat.sub_add_cancel (by omega)] at hlack
    refine iff_of_true ⟨k + 1, findLastOf_found hpos (agrees_self hpos) hk hhas' hbehind',
      findLastOf_found hpos (agrees_upTo s pos) hk hhas' hbehind', .inl ⟨hk, hhas', ?_⟩⟩
      (.inr ⟨k + 1, k.succ_pos, hk, hhas'⟩)
    intro i hi hhasi
    by_contra hlt
    exact (has_iff (by omega)).mp hhasi (hbehind' i (Nat.lt_of_not_le hlt) hi)

/-! The other search goes on to the character in front of the string. -/

theorem sizeSub_one (hi : 0 < i) (hlt : i < 2 ^ 63) : sizeSub i 1 = i - 1 := by
  rw [sizeSub]
  omega

theorem findLastNotOfLoop_found {fuel : Nat} (h : Agrees s t pos) (hpos : pos < s.size)
    (hi : i ≤ pos) (hk : k ≤ i) (hlacks : Lacks s str k)
    (hbehind : ∀ l, k < l → l ≤ i → Has s str l) (hfuel : i < fuel) :
    findLastNotOfLoop t str.chars fuel i = some k := by
  induction fuel generalizing i with
  | zero => exact absurd hfuel (Nat.not_lt_zero i)
  | succ fuel ih =>
      rw [findLastNotOfLoop, h i hi]
      rcases Nat.eq_or_lt_of_le hk with rfl | hlt
      · obtain ⟨c, hc, hnot⟩ := hlacks
        have hout : isContained c str.chars = false :=
          Bool.eq_false_iff.mpr fun h' => hnot (isContained_iff.mp h')
        rw [hc]
        simp [hout]
      · obtain ⟨c, hc, hmem⟩ := hbehind i hlt (Nat.le_refl i)
        have hsize := s.size_lt
        rw [hc, sizeSub_one (by omega) (by omega)]
        simp only [Option.bind_eq_bind, Option.bind_some, isContained_iff.mpr hmem]
        exact ih (by omega) (by omega) (fun l hl hle => hbehind l hl (by omega)) (by omega)

/-- Below 0 comes the index `npos`, and nothing can be read there. -/
theorem findLastNotOfLoop_lost {fuel : Nat} (h : Agrees s t pos) (hpos : pos < s.size)
    (hi : i ≤ pos) (hall : ∀ l, l ≤ i → Has s str l) :
    findLastNotOfLoop t str.chars fuel i = none := by
  induction fuel generalizing i with
  | zero => rfl
  | succ fuel ih =>
      obtain ⟨c, hc, hmem⟩ := hall i (Nat.le_refl i)
      rw [findLastNotOfLoop, h i hi, hc]
      simp only [Option.bind_eq_bind, Option.bind_some, isContained_iff.mpr hmem]
      rcases Nat.eq_zero_or_pos i with rfl | hpos'
      · cases fuel with
        | zero => rfl
        | succ fuel =>
            have hread : t.read (sizeSub 0 1) = none := by
              have hshort := t.short
              have hnpos : sizeSub 0 1 = 2 ^ 64 - 1 := by decide
              rw [read, hnpos, List.getElem?_eq_none (by omega)]
            rw [Bool.not_true, if_neg Bool.false_ne_true, findLastNotOfLoop, hread]
            rfl
      · have hsize := s.size_lt
        rw [sizeSub_one hpos' (by omega)]
        exact ih (by omega) fun l hl => hall l (by omega)

theorem findsLastNotOf_iff (hpos : pos < s.size) :
    FindsLastNotOf s str pos ↔ ∃ i, i ≤ pos ∧ Lacks s str i := by
  have hlost (t : Characters) (h : Agrees s t pos) (hall : ∀ i, i ≤ pos → Has s str i) :
      findLastNotOf t str pos = none := by
    rw [findLastNotOf, changeVar_eq hpos]
    exact findLastNotOfLoop_lost h hpos (Nat.le_refl pos) hall
  constructor
  · intro ⟨r, hr, _, _⟩
    by_contra hnone
    rw [hlost s (agrees_self hpos) fun i hi => (has_iff (by omega)).mpr fun h => hnone ⟨i, hi, h⟩]
      at hr
    cases hr
  · intro ⟨i, hi, hlacks⟩
    rcases Scan.exists_last (Has s str) (pos + 1) with hall | ⟨k, hk, hnot, hbehind⟩
    · exact absurd hlacks ((has_iff (by omega)).mp (hall i (Nat.lt_succ_of_le hi)))
    · have hlacks' : Lacks s str k := by
        by_contra hno
        exact hnot ((has_iff (by omega)).mpr hno)
      have hfound (t : Characters) (h : Agrees s t pos) : findLastNotOf t str pos = some k := by
        rw [findLastNotOf, changeVar_eq hpos]
        exact findLastNotOfLoop_found h hpos (Nat.le_refl pos) (by omega) hlacks'
          (fun l hl hle => hbehind l hl (by omega)) (by omega)
      refine ⟨k, hfound s (agrees_self hpos), hfound _ (agrees_upTo s pos),
        .inl ⟨by omega, hlacks', fun j hj hlacksj => ?_⟩⟩
      by_contra hkj
      exact (has_iff (by omega)).mp (hbehind j (Nat.lt_of_not_le hkj) (by omega)) hlacksj

/-- The searches are right except for an answer at the index 0 and for a missing answer. -/
theorem findLastOf_findLastNotOf_iff (s str : Characters) (pos : Nat) (hpos : pos < s.size) :
    FindsLastOf s str pos ∧ FindsLastNotOf s str pos ↔
      (Lacks s str 0 ∨ ∃ i, 0 < i ∧ i ≤ pos ∧ Has s str i) ∧ ∃ i, i ≤ pos ∧ Lacks s str i :=
  and_congr (findsLastOf_iff hpos) (findsLastNotOf_iff hpos)

theorem findLastOf_findLastNotOf_iff_x :
    FindsLastOf textXab patternX 2 ∧ FindsLastNotOf textXab patternX 2 ↔
      (Lacks textXab patternX 0 ∨ ∃ i, 0 < i ∧ i ≤ 2 ∧ Has textXab patternX i) ∧
        ∃ i, i ≤ 2 ∧ Lacks textXab patternX i :=
  findLastOf_findLastNotOf_iff textXab patternX 2 (by decide)

/-- `find_last_of` misses the `x` of `"xab"`, and `find_last_not_of` leaves the string `"x"`. -/
theorem findLastOf_misses_front :
    ¬FindsLastOf textXab patternX 2 ∧ findLastOf textXab patternX 2 = some npos ∧
      ¬FindsLastNotOf patternX patternX 0 ∧ findLastNotOf patternX patternX 0 = none := by
  have hnpos : findLastOf textXab patternX 2 = some npos := by decide
  have hnone : findLastNotOf patternX patternX 0 = none := by decide
  refine ⟨fun ⟨r, hr, _, hgreatest⟩ => ?_, hnpos, fun ⟨r, hr, _⟩ => ?_, hnone⟩
  · obtain rfl := Option.some.inj (hnpos.symm.trans hr)
    rcases hgreatest with ⟨hle, -⟩ | ⟨-, hno⟩
    · exact absurd hle (by decide)
    · exact hno 0 (Nat.zero_le _) ⟨120, rfl, List.mem_singleton.mpr rfl⟩
  · rw [hnone] at hr
    cases hr

end Characters

end RebuildTheWheel.TinySTL
