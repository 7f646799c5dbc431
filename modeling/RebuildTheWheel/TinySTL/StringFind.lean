import Mathlib.Algebra.Group.Nat.Defs
import Mathlib.Data.List.Basic
import Mathlib.Tactic.SplitIfs
import RebuildTheWheel.Data.Scan

namespace RebuildTheWheel.TinySTL

open Data

/-! The searches `find` and `rfind` of `String.cpp` for a string. A read outside the block of
the string has no result. -/

/-- The characters of a string, and what the rest of its capacity holds. -/
structure Characters where
  chars : List UInt8
  stale : List UInt8
  short : (chars ++ stale).length < 2 ^ 63

namespace Characters

def size (s : Characters) : Nat := s.chars.length

/-- `*(begin() + k)` -/
def read (s : Characters) (k : Nat) : Option UInt8 := (s.chars ++ s.stale)[k]?

/-- The string in a block that ends with its last character. -/
def bare (s : Characters) : Characters where
  chars := s.chars
  stale := []
  short := by
    have hshort := s.short
    simp only [List.length_append, List.length_nil] at hshort ⊢
    omega

def npos : Nat := 2 ^ 64 - 1

/-- The difference of two `size_t`. -/
def sizeSub (a b : Nat) : Nat := (a + 2 ^ 64 - b) % 2 ^ 64

/-- The conversion of a `size_t` to `int`. -/
def toInt (n : Nat) : Int := (BitVec.ofNat 32 n).toInt

def sizeMax : Nat := 2 ^ 64 - 1

def intMax : Nat := 2 ^ 31 - 1

def changeVarWhenEqualNPOS (var minuend minue : Nat) : Nat :=
  if var = npos then sizeSub minuend minue else var

/-- Whether `j` gets to the end in the inner loop of `find_aux` or `rfind_aux`, which differ in
the greatest value of `j`. -/
def matches? (counterMax : Nat) (s : Characters) (i : Nat) : List UInt8 → Nat → Option Bool
  | [], _ => some true
  | c :: cit, j => do
      let x ← s.read (i + j)
      if x ≠ c then return false
      else if j = counterMax then none
      else matches? counterMax s i cit (j + 1)

/-- The loop from `pos` up to `cond`. From behind `cond` it runs out of the block. -/
def findAux (s : Characters) (cit : List UInt8) (pos cond : Nat) : Option Nat := do
  let turns := if pos ≤ cond then cond - pos else (s.chars ++ s.stale).length + 1
  let i ← Scan.up (fun i => matches? sizeMax s i cit 0) pos turns
  return i.getD npos

def find (s str : Characters) (pos : Nat) : Option Nat :=
  let lengthOfS := str.size
  if sizeSub s.size pos < lengthOfS then some npos else findAux s str.chars pos s.size

/-- The loop from `pos + lengthOfS`, as an `int`, down to 0. -/
def rfindAux (s : Characters) (cit : List UInt8) (pos : Nat) : Option Nat := do
  let i ← Scan.down (fun i => matches? intMax s i cit 0) (toInt (pos + cit.length) + 1).toNat
  return i.getD npos

def rfind (s str : Characters) (pos : Nat) : Option Nat :=
  rfindAux s str.chars (changeVarWhenEqualNPOS pos s.size 1)

/-! What the searches should give. -/

/-- The characters from `i` on are those of `str`. -/
def Occurs (s str : Characters) (i : Nat) : Prop :=
  i + str.size ≤ s.size ∧ (s.chars.drop i).take str.size = str.chars

def First (s str : Characters) (pos r : Nat) : Prop :=
  (pos ≤ r ∧ Occurs s str r ∧ ∀ i, pos ≤ i → Occurs s str i → r ≤ i) ∨
    r = npos ∧ ∀ i, pos ≤ i → ¬Occurs s str i

def Last (s str : Characters) (pos r : Nat) : Prop :=
  (r ≤ pos ∧ Occurs s str r ∧ ∀ i, i ≤ pos → Occurs s str i → i ≤ r) ∨
    r = npos ∧ ∀ i, i ≤ pos → ¬Occurs s str i

/-- `find` gives the first place, also when nothing is behind the characters. -/
def FindsFirst (s str : Characters) (pos : Nat) : Prop :=
  ∃ r, find s str pos = some r ∧ find s.bare str pos = some r ∧ First s str pos r

def FindsLast (s str : Characters) (pos : Nat) : Prop :=
  ∃ r, rfind s str pos = some r ∧ rfind s.bare str pos = some r ∧ Last s str pos r

/-! When they give it. -/

/-- A character of `s` differs from the one of `str` over it, which is counted up to `counterMax`. -/
def Differs (counterMax : Nat) (s str : Characters) (i : Nat) : Prop :=
  ∃ j, j ≤ counterMax ∧ j < str.size ∧ i + j < s.size ∧ s.chars[i + j]? ≠ str.chars[j]?

/-- No beginning of `str` alone stands at the end of `s`, or an occurrence stops the search. -/
def FindStops (s str : Characters) (pos : Nat) : Prop :=
  s.size < pos + str.size ∨
    (∃ i, pos ≤ i ∧ i < s.size ∧ Occurs s str i) ∨
    str.size ≠ 0 ∧ ∀ i, pos ≤ i → i < s.size → Differs sizeMax s str i

/-- The start `pos + m` of `rfind` is no nearer to the end than `pos`, as far as it matters. -/
structure RfindStops (s str : Characters) (pos : Nat) : Prop where
  above : ∀ i : Nat, pos < i → (i : Int) ≤ toInt (pos + str.size) → Differs intMax s str i
  skipped : ∀ i : Nat, toInt (pos + str.size) < (i : Int) → i ≤ pos → ¬Occurs s str i
  stop : ∀ i : Nat, i ≤ pos → (i : Int) ≤ toInt (pos + str.size) →
    (∀ k : Nat, i < k → k ≤ pos → (k : Int) ≤ toInt (pos + str.size) → Differs intMax s str k) →
    Differs intMax s str i ∨ Occurs s str i ∧ str.size ≤ intMax

variable {s str : Characters} {counterMax i j pos : Nat} {cit : List UInt8}

theorem size_lt (s : Characters) : s.size < 2 ^ 63 := by
  have hshort := s.short
  rw [List.length_append] at hshort
  exact Nat.lt_of_le_of_lt (Nat.le_add_right _ _) hshort

theorem read_bare (s : Characters) (k : Nat) : s.bare.read k = s.chars[k]? := by
  rw [read, bare, List.append_nil]

theorem read_of_bare {k : Nat} {x : UInt8} (h : s.bare.read k = some x) : s.read k = some x := by
  rw [read_bare] at h
  obtain ⟨hlt, -⟩ := List.getElem?_eq_some_iff.mp h
  rw [read, List.getElem?_append_left hlt, h]

theorem matches?_of_bare {passed : Bool} (h : matches? counterMax s.bare i cit j = some passed) :
    matches? counterMax s i cit j = some passed := by
  induction cit generalizing j with
  | nil => exact h
  | cons c cit ih =>
      rw [matches?] at h ⊢
      obtain ⟨x, hx, hrest⟩ := Option.bind_eq_some_iff.mp h
      rw [read_of_bare hx]
      simp only [Option.bind_eq_bind, Option.bind_some]
      split_ifs at hrest ⊢
      · exact hrest
      · exact ih hrest

theorem matches?_bare_false (hj : j ≤ counterMax) :
    matches? counterMax s.bare i cit j = some false ↔
      ∃ t, j + t ≤ counterMax ∧ t < cit.length ∧ i + (j + t) < s.size ∧
        s.chars[i + (j + t)]? ≠ cit[t]? := by
  induction cit generalizing j with
  | nil => simp [matches?]
  | cons c cit ih =>
      rw [matches?, read_bare]
      rcases Nat.lt_or_ge (i + j) s.size with hin | hout
      · rw [List.getElem?_eq_getElem hin]
        simp only [Option.bind_eq_bind, Option.bind_some]
        split_ifs with hdiffers hlast
        · refine ⟨fun _ => ⟨0, hj, Nat.succ_pos _, hin, ?_⟩, fun _ => rfl⟩
          rw [Nat.add_zero, List.getElem?_eq_getElem hin]
          exact fun heq => hdiffers (Option.some.inj heq)
        · refine ⟨nofun, fun ⟨t, ht, _, _, hne⟩ => ?_⟩
          obtain rfl : t = 0 := by omega
          rw [Nat.add_zero, List.getElem?_eq_getElem hin] at hne
          exact absurd (congrArg some (not_not.mp hdiffers)) hne
        · rw [ih (by omega)]
          constructor
          · intro ⟨t, ht, hlt, hin', hne⟩
            rw [Nat.succ_add_eq_add_succ] at ht hin' hne
            exact ⟨t + 1, ht, Nat.succ_lt_succ hlt, hin', hne⟩
          · intro ⟨t, ht, hlt, hin', hne⟩
            cases t with
            | zero =>
                rw [Nat.add_zero, List.getElem?_eq_getElem hin] at hne
                exact absurd (congrArg some (not_not.mp hdiffers)) hne
            | succ t =>
                rw [← Nat.succ_add_eq_add_succ] at ht hin' hne
                exact ⟨t, ht, Nat.lt_of_succ_lt_succ hlt, hin', hne⟩
      · rw [List.getElem?_eq_none hout]
        refine ⟨nofun, fun ⟨t, _, _, hin, _⟩ => ?_⟩
        omega

theorem matches?_bare_true (hj : j ≤ counterMax) :
    matches? counterMax s.bare i cit j = some true ↔
      (∀ t, t < cit.length → s.chars[i + (j + t)]? = cit[t]?) ∧ j + cit.length ≤ counterMax := by
  induction cit generalizing j with
  | nil => simp [matches?, hj]
  | cons c cit ih =>
      rw [matches?, read_bare]
      rcases Nat.lt_or_ge (i + j) s.size with hin | hout
      · rw [List.getElem?_eq_getElem hin]
        simp only [Option.bind_eq_bind, Option.bind_some]
        split_ifs with hdiffers hlast
        · refine ⟨nofun, fun ⟨hall, _⟩ => ?_⟩
          have hfirst := hall 0 (Nat.succ_pos _)
          rw [Nat.add_zero, List.getElem?_eq_getElem hin] at hfirst
          exact absurd (Option.some.inj hfirst) hdiffers
        · refine ⟨nofun, fun ⟨_, hle⟩ => ?_⟩
          rw [List.length_cons] at hle
          omega
        · rw [ih (by omega), List.length_cons, Nat.succ_add_eq_add_succ]
          refine and_congr_left fun _ => ⟨fun hall t ht => ?_, fun hall t ht => ?_⟩
          · cases t with
            | zero =>
                rw [Nat.add_zero, List.getElem?_eq_getElem hin]
                exact congrArg some (not_not.mp hdiffers)
            | succ t =>
                rw [← Nat.succ_add_eq_add_succ]
                exact hall t (Nat.lt_of_succ_lt_succ ht)
          · rw [Nat.succ_add_eq_add_succ]
            exact hall (t + 1) (Nat.succ_lt_succ ht)
      · rw [List.getElem?_eq_none hout]
        refine ⟨nofun, fun ⟨hall, _⟩ => ?_⟩
        have hfirst := hall 0 (Nat.succ_pos _)
        rw [Nat.add_zero, List.getElem?_eq_none hout] at hfirst
        cases hfirst

theorem occurs_iff :
    Occurs s str i ↔
      i + str.size ≤ s.size ∧ ∀ t, t < str.size → s.chars[i + t]? = str.chars[t]? := by
  refine and_congr_right fun hle => ⟨fun heq t ht => ?_, fun hall => ?_⟩
  · rw [← heq, List.getElem?_take_of_lt ht, List.getElem?_drop]
  · apply List.ext_getElem?
    intro t
    rcases Nat.lt_or_ge t str.size with ht | ht
    · rw [List.getElem?_take_of_lt ht, List.getElem?_drop, hall t ht]
    · rw [List.getElem?_eq_none ht, List.getElem?_take_eq_none ht]

theorem test_false : matches? counterMax s.bare i str.chars 0 = some false ↔
    Differs counterMax s str i := by
  rw [matches?_bare_false (Nat.zero_le _)]
  simp only [Nat.zero_add]
  rfl

theorem test_true (hi : i ≤ s.size ∨ str.size ≠ 0) : matches? counterMax s.bare i str.chars 0 = some true ↔
    Occurs s str i ∧ str.size ≤ counterMax := by
  rw [matches?_bare_true (Nat.zero_le _), occurs_iff]
  simp only [Nat.zero_add]
  refine and_congr_left fun _ => ⟨fun hall => ⟨?_, hall⟩, And.right⟩
  -- the last character of the pattern lies inside
  rcases Nat.eq_zero_or_pos str.size with hempty | hpos
  · omega
  · have hlast := hall (str.size - 1) (Nat.sub_lt hpos Nat.one_pos)
    have hin : str.size - 1 < str.chars.length := Nat.sub_lt hpos Nat.one_pos
    rw [List.getElem?_eq_getElem hin] at hlast
    obtain ⟨hlt, -⟩ := List.getElem?_eq_some_iff.mp hlast
    change i + str.chars.length ≤ s.chars.length
    have hlength : str.size = str.chars.length := rfl
    omega

theorem Differs.not_occurs (h : Differs counterMax s str i) : ¬Occurs s str i := by
  obtain ⟨j, -, hj, -, hne⟩ := h
  exact fun hoccurs => hne ((occurs_iff.mp hoccurs).2 j hj)

/-- The turns of `find_aux` from `pos` up to `size()`. -/
theorem find_eq (s str : Characters) (hpos : pos ≤ s.size) :
    find s str pos = if s.size < pos + str.size then some npos
      else (Scan.up (fun i => matches? sizeMax s i str.chars 0) pos (s.size - pos)).map
        fun i => i.getD npos := by
  have hsize := s.size_lt
  have hsub : sizeSub s.size pos = s.size - pos := by
    rw [sizeSub]
    omega
  rw [find, hsub, findAux, if_pos hpos]
  split_ifs
  · rfl
  · omega
  · omega
  · exact Option.map_eq_bind.symm

theorem size_bare (s : Characters) : s.bare.size = s.size := rfl

theorem find_of_bare {r : Nat} (hpos : pos ≤ s.size) (h : find s.bare str pos = some r) :
    find s str pos = some r := by
  rw [find_eq s.bare str hpos, size_bare] at h
  rw [find_eq s str hpos]
  split_ifs at h ⊢
  · exact h
  · obtain ⟨i, hrun, hr⟩ := Option.map_eq_some_iff.mp h
    rw [Scan.up_mono (fun i passed => matches?_of_bare) hrun]
    exact congrArg some hr

theorem rfind_of_bare {r : Nat} (h : rfind s.bare str pos = some r) : rfind s str pos = some r := by
  obtain ⟨i, hrun, hr⟩ := Option.bind_eq_some_iff.mp h
  exact Option.bind_eq_some_iff.mpr
    ⟨i, Scan.down_mono (fun i passed => matches?_of_bare) hrun, hr⟩

theorem findsFirst_iff_bare (hpos : pos ≤ s.size) :
    FindsFirst s str pos ↔ ∃ r, find s.bare str pos = some r ∧ First s str pos r :=
  ⟨fun ⟨r, _, hbare, hfirst⟩ => ⟨r, hbare, hfirst⟩,
    fun ⟨r, hbare, hfirst⟩ => ⟨r, find_of_bare hpos hbare, hbare, hfirst⟩⟩

theorem findsLast_iff_bare :
    FindsLast s str pos ↔ ∃ r, rfind s.bare str pos = some r ∧ Last s str pos r :=
  ⟨fun ⟨r, _, hbare, hlast⟩ => ⟨r, hbare, hlast⟩,
    fun ⟨r, hbare, hlast⟩ => ⟨r, rfind_of_bare hbare, hbare, hlast⟩⟩

/-- At a start that is not told from the pattern a search ends, if that is an occurrence. -/
theorem ends_iff {k : Nat} (hsize : k ≤ s.size ∨ str.size ≠ 0) (hstop : ¬Differs counterMax s str k)
    {r : Option Nat} :
    (matches? counterMax s.bare k str.chars 0).map (fun _ => some k) = some r ↔
      r = some k ∧ Occurs s str k ∧ str.size ≤ counterMax := by
  rw [Option.map_eq_some_iff]
  constructor
  · intro ⟨passed, hpassed, hr⟩
    cases passed with
    | true => exact ⟨hr.symm, (test_true hsize).mp hpassed⟩
    | false => exact absurd (test_false.mp hpassed) hstop
  · intro ⟨hr, hoccurs⟩
    exact ⟨true, (test_true hsize).mpr hoccurs, hr.symm⟩

theorem up_bare {k n : Nat} (hik : i ≤ k) (hk : k < i + n)
    (hsize : k ≤ s.size ∨ str.size ≠ 0) (hstop : ¬Differs counterMax s str k)
    (hbefore : ∀ l, i ≤ l → l < k → Differs counterMax s str l) {r : Option Nat} :
    Scan.up (fun i => matches? counterMax s.bare i str.chars 0) i n = some r ↔
      r = some k ∧ Occurs s str k ∧ str.size ≤ counterMax := by
  rw [Scan.up_first hik hk (fun h => hstop (test_false.mp h))
    (fun l hl hlk => test_false.mpr (hbefore l hl hlk)), ends_iff hsize hstop]

theorem down_bare {k n : Nat} (hk : k < n) (hsize : k ≤ s.size ∨ str.size ≠ 0)
    (hstop : ¬Differs counterMax s str k)
    (hbehind : ∀ l, k < l → l < n → Differs counterMax s str l) {r : Option Nat} :
    Scan.down (fun i => matches? counterMax s.bare i str.chars 0) n = some r ↔
      r = some k ∧ Occurs s str k ∧ str.size ≤ counterMax := by
  rw [Scan.down_last hk (fun h => hstop (test_false.mp h))
    (fun l hl hln => test_false.mpr (hbehind l hl hln)), ends_iff hsize hstop]

theorem Occurs.le (h : Occurs s str i) : i + str.size ≤ s.size := h.1

theorem Occurs.ne_npos (h : Occurs s str i) : i ≠ npos := by
  have hle := h.le
  have hsize := s.size_lt
  rw [npos]
  omega

theorem occurs_of_not_differs (h : ¬Differs counterMax s str i) (hle : i + str.size ≤ s.size)
    (hcounter : str.size ≤ counterMax) : Occurs s str i := by
  refine occurs_iff.mpr ⟨hle, fun t ht => ?_⟩
  by_contra hne
  exact h ⟨t, by omega, ht, by omega, hne⟩

theorem size_le_sizeMax (s : Characters) : s.size ≤ sizeMax := by
  have hsize := s.size_lt
  rw [sizeMax]
  omega

theorem findsFirst_iff_up (hpos : pos ≤ s.size) (hshort : ¬s.size < pos + str.size) :
    FindsFirst s str pos ↔ ∃ i,
      Scan.up (fun i => matches? sizeMax s.bare i str.chars 0) pos (s.size - pos) = some i ∧
        First s str pos (i.getD npos) := by
  rw [findsFirst_iff_bare hpos, find_eq s.bare str hpos, size_bare, if_neg hshort]
  simp only [Option.map_eq_some_iff]
  constructor
  · intro ⟨r, ⟨i, hi, hr⟩, hfirst⟩
    exact ⟨i, hi, hr ▸ hfirst⟩
  · intro ⟨i, hi, hfirst⟩
    exact ⟨_, ⟨i, hi, rfl⟩, hfirst⟩

/-- The loop comes to the end. -/
theorem findsFirst_iff_of_all (hpos : pos ≤ s.size) (hshort : ¬s.size < pos + str.size)
    (hall : ∀ i, pos ≤ i → i < s.size → Differs sizeMax s str i) :
    FindsFirst s str pos ↔ FindStops s str pos := by
  rw [findsFirst_iff_up hpos hshort,
    Scan.up_none fun k hk hlt => test_false.mpr (hall k hk (by omega))]
  constructor
  · intro ⟨i, hi, hfirst⟩
    obtain rfl := Option.some.inj hi
    rcases hfirst with ⟨-, hoccurs, -⟩ | ⟨-, hno⟩
    · exact absurd rfl hoccurs.ne_npos
    · refine .inr (.inr ⟨fun hempty => hno s.size hpos ?_, hall⟩)
      -- an empty pattern stands at the end
      refine occurs_iff.mpr ⟨by omega, fun t ht => ?_⟩
      omega
  · intro hstops
    refine ⟨none, rfl, .inr ⟨rfl, fun i hi hoccurs => ?_⟩⟩
    have hle := hoccurs.le
    rcases Nat.lt_or_ge i s.size with hlt | hend
    · exact (hall i hi hlt).not_occurs hoccurs
    · rcases hstops with hshort' | ⟨k, hk, hlt, hk'⟩ | ⟨hne, -⟩
      · exact hshort hshort'
      · exact (hall k hk hlt).not_occurs hk'
      · omega

/-- The loop ends at `k`. -/
theorem findsFirst_iff_of_stop {k : Nat} (hpos : pos ≤ s.size) (hshort : ¬s.size < pos + str.size)
    (hk : pos ≤ k) (hin : k < s.size) (hstop : ¬Differs sizeMax s str k)
    (hbefore : ∀ l, pos ≤ l → l < k → Differs sizeMax s str l) :
    FindsFirst s str pos ↔ FindStops s str pos := by
  have hcounter := str.size_le_sizeMax
  have hleast : ∀ i, pos ≤ i → Occurs s str i → k ≤ i := by
    intro i hi hoccurs
    by_contra hik
    exact (hbefore i hi (Nat.lt_of_not_le hik)).not_occurs hoccurs
  rw [findsFirst_iff_up hpos hshort]
  simp only [up_bare hk (show k < pos + (s.size - pos) by omega) (.inl (Nat.le_of_lt hin)) hstop
    hbefore]
  constructor
  · intro ⟨i, ⟨_, hoccurs, _⟩, _⟩
    exact .inr (.inl ⟨k, hk, hin, hoccurs⟩)
  · intro hstops
    have hoccurs : Occurs s str k := by
      rcases hstops with hshort' | ⟨i, hi, -, hoccurs⟩ | ⟨-, hall⟩
      · exact absurd hshort' hshort
      · have hki := hleast i hi hoccurs
        have hle := hoccurs.le
        exact occurs_of_not_differs hstop (by omega) hcounter
      · exact absurd (hall k hk hin) hstop
    exact ⟨some k, ⟨rfl, hoccurs, hcounter⟩, .inl ⟨hk, hoccurs, hleast⟩⟩

theorem findsFirst_iff (hpos : pos ≤ s.size) : FindsFirst s str pos ↔ FindStops s str pos := by
  by_cases hshort : s.size < pos + str.size
  · rw [findsFirst_iff_bare hpos, find_eq s.bare str hpos, size_bare, if_pos hshort]
    refine ⟨fun _ => .inl hshort, fun _ => ⟨npos, rfl, .inr ⟨rfl, fun i hi hoccurs => ?_⟩⟩⟩
    have hle := hoccurs.le
    omega
  · rcases Scan.exists_first (Differs sizeMax s str) pos (s.size - pos) with
      hall | ⟨k, hk, hlt, hstop, hbefore⟩
    · exact findsFirst_iff_of_all hpos hshort fun i hi hlt => hall i hi (by omega)
    · exact findsFirst_iff_of_stop hpos hshort hk (by omega) hstop hbefore

theorem toInt_le (n : Nat) : toInt n ≤ n := by
  rw [toInt, BitVec.toInt_eq_toNat_cond, BitVec.toNat_ofNat]
  split <;> omega

theorem lt_turns_iff : i < (toInt (pos + str.size) + 1).toNat ↔
    (i : Int) ≤ toInt (pos + str.size) := by
  omega

theorem findsLast_iff_down (hpos : pos ≤ s.size) : FindsLast s str pos ↔ ∃ i,
    Scan.down (fun i => matches? intMax s.bare i str.chars 0)
        (toInt (pos + str.size) + 1).toNat = some i ∧ Last s str pos (i.getD npos) := by
  have hsize := s.size_lt
  have hvar : changeVarWhenEqualNPOS pos s.size 1 = pos := by
    rw [changeVarWhenEqualNPOS, npos, if_neg (by omega)]
  rw [findsLast_iff_bare]
  simp only [rfind, size_bare, hvar, rfindAux, Option.bind_eq_bind, Option.bind_eq_some_iff,
    Option.pure_def, Option.some.injEq]
  constructor
  · intro ⟨r, ⟨i, hi, hr⟩, hlast⟩
    exact ⟨i, hi, hr ▸ hlast⟩
  · intro ⟨i, hi, hlast⟩
    exact ⟨_, ⟨i, hi, rfl⟩, hlast⟩

/-- The loop comes down below 0. -/
theorem findsLast_iff_of_all (hpos : pos ≤ s.size)
    (hall : ∀ i : Nat, (i : Int) ≤ toInt (pos + str.size) → Differs intMax s str i) :
    FindsLast s str pos ↔ RfindStops s str pos := by
  rw [findsLast_iff_down hpos,
    Scan.down_none fun k hk => test_false.mpr (hall k (lt_turns_iff.mp hk))]
  constructor
  · intro ⟨i, hi, hlast⟩
    obtain rfl := Option.some.inj hi
    rcases hlast with ⟨-, hoccurs, -⟩ | ⟨-, hno⟩
    · exact absurd rfl hoccurs.ne_npos
    · exact ⟨fun i _ hi => hall i hi, fun i _ hi => hno i hi, fun i _ hi _ => .inl (hall i hi)⟩
  · intro hstops
    refine ⟨none, rfl, .inr ⟨rfl, fun i hi hoccurs => ?_⟩⟩
    by_cases hskipped : toInt (pos + str.size) < i
    · exact hstops.skipped i hskipped hi hoccurs
    · exact (hall i (Int.not_lt.mp hskipped)).not_occurs hoccurs

/-- The loop ends at `k`. -/
theorem findsLast_iff_of_stop {k : Nat} (hpos : pos ≤ s.size)
    (hk : (k : Int) ≤ toInt (pos + str.size)) (hstop : ¬Differs intMax s str k)
    (hbehind : ∀ l : Nat, k < l → (l : Int) ≤ toInt (pos + str.size) → Differs intMax s str l) :
    FindsLast s str pos ↔ RfindStops s str pos := by
  have hinside : k ≤ s.size ∨ str.size ≠ 0 := by
    have hle := toInt_le (pos + str.size)
    omega
  rw [findsLast_iff_down hpos]
  simp only [down_bare (lt_turns_iff.mpr hk) hinside hstop fun l hl hlt =>
    hbehind l hl (lt_turns_iff.mp hlt)]
  constructor
  · intro ⟨i, ⟨hi, hoccurs, hcounter⟩, hlast⟩
    subst hi
    obtain ⟨hle, -, hgreatest⟩ := hlast.resolve_right fun h => hoccurs.ne_npos h.1
    refine ⟨fun i hi hvisited => ?_, fun i hskipped hi hother => ?_, fun i hi hvisited hnext => ?_⟩
    · exact hbehind i (Nat.lt_of_le_of_lt hle hi) hvisited
    · have hik := hgreatest i hi hother
      change i ≤ k at hik
      omega
    · rcases Nat.lt_trichotomy i k with hlt | rfl | hlt
      · exact absurd (hnext k hlt hle hk) hstop
      · exact .inr ⟨hoccurs, hcounter⟩
      · exact .inl (hbehind i hlt hvisited)
  · intro hstops
    have hle : k ≤ pos := by
      by_contra hpos'
      exact hstop (hstops.above k (Nat.lt_of_not_le hpos') hk)
    obtain ⟨hoccurs, hcounter⟩ := (hstops.stop k hle hk fun l hl _ hvisited =>
      hbehind l hl hvisited).resolve_left hstop
    refine ⟨some k, ⟨rfl, hoccurs, hcounter⟩, .inl ⟨hle, hoccurs, ?_⟩⟩
    intro i hi hother
    by_contra hik
    by_cases hskipped : toInt (pos + str.size) < i
    · exact hstops.skipped i hskipped hi hother
    · exact (hbehind i (Nat.lt_of_not_le hik) (Int.not_lt.mp hskipped)).not_occurs hother

theorem findsLast_iff (hpos : pos ≤ s.size) : FindsLast s str pos ↔ RfindStops s str pos := by
  rcases Scan.exists_last (Differs intMax s str) (toInt (pos + str.size) + 1).toNat with
    hall | ⟨k, hk, hstop, hbehind⟩
  · exact findsLast_iff_of_all hpos fun i hi => hall i (lt_turns_iff.mpr hi)
  · exact findsLast_iff_of_stop hpos (lt_turns_iff.mp hk) hstop fun l hl hle =>
      hbehind l hl (lt_turns_iff.mpr hle)

/-- The text `"xab"`. -/
def textXab : Characters := ⟨[120, 97, 98], [], by decide⟩

/-- The pattern `"x"`. -/
def patternX : Characters := ⟨[120], [], by decide⟩

end Characters

end RebuildTheWheel.TinySTL
