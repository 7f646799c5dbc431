import Mathlib.Tactic.SplitIfs

namespace RebuildTheWheel.TinySTL

namespace Algorithm

variable {T U : Type}

/-! `search` and `find_end`, on two ranges as the lists of their elements. An iterator is a
position, and a read outside its range has no result. -/

section

variable (pred : T → U → Bool) (xs : List T) (ys : List U)

/-- The iterators at the end of the inner loop of `search`. -/
def searchMatch : Nat → Nat → Nat → Option (Nat × Nat)
  | 0, _, _ => none
  | fuel + 1, it1, it2 =>
      if it1 ≠ xs.length ∧ it2 ≠ ys.length then do
        let x ← xs[it1]?
        let y ← ys[it2]?
        if pred x y then searchMatch fuel (it1 + 1) (it2 + 1) else return (it1, it2)
      else
        some (it1, it2)

def searchLoop : Nat → Nat → Option Nat
  | 0, _ => none
  | fuel + 1, first1 =>
      if first1 ≠ xs.length then do
        let (it1, it2) ← searchMatch pred xs ys (xs.length + 1) first1 0
        if it2 = ys.length then return first1
        else if it1 = xs.length then return xs.length
        else searchLoop fuel (first1 + 1)
      else
        some xs.length

def search : Option Nat := searchLoop pred xs ys (xs.length + 1) 0

/-- How the inner loop of `find_end` ends. -/
inductive MatchEnd
  | found
  | textEnds
  | differs
deriving DecidableEq

def findEndMatch : Nat → Nat → Nat → Option MatchEnd
  | 0, _, _ => none
  | fuel + 1, it1, it2 => do
      let x ← xs[it1]?
      let y ← ys[it2]?
      if pred x y then
        if it2 + 1 = ys.length then return .found
        else if it1 + 1 = xs.length then return .textEnds
        else findEndMatch fuel (it1 + 1) (it2 + 1)
      else
        return .differs

def findEndLoop : Nat → Nat → Nat → Option Nat
  | 0, _, _ => none
  | fuel + 1, first1, ret =>
      if first1 ≠ xs.length then do
        match ← findEndMatch pred xs ys (xs.length + 1) first1 0 with
        | .found => findEndLoop fuel (first1 + 1) first1
        | .textEnds => return ret
        | .differs => findEndLoop fuel (first1 + 1) ret
      else
        some ret

def findEnd : Option Nat :=
  if ys.length = 0 then some xs.length else findEndLoop pred xs ys (xs.length + 1) 0 xs.length

/-- The element `k` of the pattern, laid at `i`. -/
def Fits (i k : Nat) : Prop :=
  ∃ x y, xs[i + k]? = some x ∧ ys[k]? = some y ∧ pred x y = true

/-- The pattern stands at `i`. -/
def Occurs (i : Nat) : Prop := ∀ k < ys.length, Fits pred xs ys i k

end

variable {pred : T → U → Bool} {xs : List T} {ys : List U} {fuel i it1 j ret : Nat}

theorem fits_iff (hi : i + j < xs.length) (hj : j < ys.length) :
    Fits pred xs ys i j ↔ pred xs[i + j] ys[j] = true := by
  constructor
  · rintro ⟨x, y, hx, hy, hpred⟩
    obtain ⟨_, rfl⟩ := List.getElem?_eq_some_iff.mp hx
    obtain ⟨_, rfl⟩ := List.getElem?_eq_some_iff.mp hy
    exact hpred
  · intro hpred
    exact ⟨_, _, List.getElem?_eq_getElem hi, List.getElem?_eq_getElem hj, hpred⟩

/-- A pattern that is not empty ends inside the text. -/
theorem Occurs.le (h : Occurs pred xs ys i) (hys : 0 < ys.length) : i + ys.length ≤ xs.length := by
  obtain ⟨x, y, hx, -, -⟩ := h (ys.length - 1) (by omega)
  obtain ⟨hlt, -⟩ := List.getElem?_eq_some_iff.mp hx
  omega

theorem occurs_of_fits (hj : j = ys.length) (hfits : ∀ k < j, Fits pred xs ys i k) :
    Occurs pred xs ys i := by
  rw [hj] at hfits
  exact hfits

theorem fits_of_lt_succ (hfits : ∀ k < j, Fits pred xs ys i k) (hj : Fits pred xs ys i j) :
    ∀ k < j + 1, Fits pred xs ys i k := by
  intro k hk
  rcases Nat.lt_succ_iff_lt_or_eq.mp hk with hlt | rfl
  · exact hfits k hlt
  · exact hj

/-- The inner loop of `search` goes as far as the pattern fits. -/
theorem searchMatch_spec (hit1 : i + j = it1) (hfits : ∀ k < j, Fits pred xs ys i k)
    (hi : it1 ≤ xs.length) (hj : j ≤ ys.length) (hfuel : xs.length - it1 < fuel) :
    ∃ k, searchMatch pred xs ys fuel it1 j = some (i + k, k) ∧ k ≤ ys.length ∧
      i + k ≤ xs.length ∧ (∀ m < k, Fits pred xs ys i m) ∧
      (k = ys.length ∨ i + k = xs.length ∨ ¬Fits pred xs ys i k) := by
  induction fuel generalizing it1 j with
  | zero => exact absurd hfuel (Nat.not_lt_zero _)
  | succ fuel ih =>
      subst hit1
      rw [searchMatch]
      split_ifs with hmore
      · have hlt : i + j < xs.length := by omega
        have hlt' : j < ys.length := by omega
        rw [List.getElem?_eq_getElem hlt, List.getElem?_eq_getElem hlt']
        simp only [Option.bind_eq_bind, Option.bind_some]
        split_ifs with hpred
        · have hfits' := fits_of_lt_succ hfits ((fits_iff hlt hlt').mpr hpred)
          exact ih rfl hfits' hlt hlt' (by omega)
        · have hdiffers : ¬Fits pred xs ys i j := fun h => hpred ((fits_iff hlt hlt').mp h)
          exact ⟨j, rfl, hj, hi, hfits, .inr (.inr hdiffers)⟩
      · exact ⟨j, rfl, hj, hi, hfits, by omega⟩

/-- The loop has found nothing in front of `i`. -/
theorem searchLoop_spec (hi : i ≤ xs.length) (hno : ∀ k < i, ¬Occurs pred xs ys k)
    (hfuel : xs.length - i < fuel) :
    ∃ r, searchLoop pred xs ys fuel i = some r ∧
      (Occurs pred xs ys r ∧ (∀ k < r, ¬Occurs pred xs ys k) ∨
        r = xs.length ∧ ∀ k, ¬Occurs pred xs ys k) := by
  induction fuel generalizing i with
  | zero => exact absurd hfuel (Nat.not_lt_zero _)
  | succ fuel ih =>
      rw [searchLoop]
      split_ifs with hmore
      · have hnone : ∀ m < 0, Fits pred xs ys i m := nofun
        have hinner : xs.length - i < xs.length + 1 := by omega
        obtain ⟨k, hrun, hk, hik, hfits, hend⟩ :=
          searchMatch_spec (Nat.add_zero i) hnone hi (Nat.zero_le _) hinner
        rw [hrun]
        simp only [Option.bind_eq_bind, Option.bind_some]
        split_ifs with hwhole htext
        · exact ⟨i, rfl, .inl ⟨occurs_of_fits hwhole hfits, hno⟩⟩
        · refine ⟨xs.length, rfl, .inr ⟨rfl, fun m hm => ?_⟩⟩
          -- what is left of the text is shorter than the pattern, and shorter still behind
          rcases Nat.lt_or_ge m i with hbefore | hbehind
          · exact hno m hbefore hm
          · have hle := hm.le (by omega)
            omega
        · have hdiffers : ¬Occurs pred xs ys i := fun h =>
            (hend.resolve_left hwhole).resolve_left htext (h k (by omega))
          have hno' : ∀ m < i + 1, ¬Occurs pred xs ys m := by
            intro m hm
            rcases Nat.lt_succ_iff_lt_or_eq.mp hm with hlt | rfl
            · exact hno m hlt
            · exact hdiffers
          exact ih (by omega) hno' (by omega)
      · have hend : i = xs.length := by omega
        subst hend
        rcases Nat.eq_zero_or_pos ys.length with hempty | hpos
        · exact ⟨xs.length, rfl, .inl ⟨fun m hm => by omega, hno⟩⟩
        · refine ⟨xs.length, rfl, .inr ⟨rfl, fun m hm => ?_⟩⟩
          have hle := hm.le hpos
          exact hno m (by omega) hm

/-- The inner loop of `find_end` reads inside the ranges and ends for one of three reasons. -/
theorem findEndMatch_spec (hit1 : i + j = it1) (hfits : ∀ k < j, Fits pred xs ys i k)
    (hi : it1 < xs.length) (hj : j < ys.length) (hfuel : xs.length - it1 < fuel) :
    ∃ stop, findEndMatch pred xs ys fuel it1 j = some stop ∧
      match stop with
      | .found => Occurs pred xs ys i
      | .textEnds => xs.length < i + ys.length
      | .differs => ¬Occurs pred xs ys i := by
  induction fuel generalizing it1 j with
  | zero => exact absurd hfuel (Nat.not_lt_zero _)
  | succ fuel ih =>
      subst hit1
      rw [findEndMatch, List.getElem?_eq_getElem hi, List.getElem?_eq_getElem hj]
      simp only [Option.bind_eq_bind, Option.bind_some]
      split_ifs with hpred hwhole htext
      · have hall := fits_of_lt_succ hfits ((fits_iff hi hj).mpr hpred)
        exact ⟨.found, rfl, occurs_of_fits hwhole hall⟩
      · exact ⟨.textEnds, rfl, show xs.length < i + ys.length by omega⟩
      · have hall := fits_of_lt_succ hfits ((fits_iff hi hj).mpr hpred)
        exact ih rfl hall (by omega) (by omega) (by omega)
      · exact ⟨.differs, rfl, fun h => hpred ((fits_iff hi hj).mp (h j hj))⟩

/-- What `ret` says of the positions in front of `i`. -/
def LastBefore (pred : T → U → Bool) (xs : List T) (ys : List U) (i ret : Nat) : Prop :=
  (Occurs pred xs ys ret ∧ ∀ k, ret < k → k < i → ¬Occurs pred xs ys k) ∨
    ret = xs.length ∧ ∀ k < i, ¬Occurs pred xs ys k

theorem LastBefore.found (h : Occurs pred xs ys i) : LastBefore pred xs ys (i + 1) i :=
  .inl ⟨h, fun _ hik hki => absurd hik (Nat.not_lt_of_le (Nat.le_of_lt_succ hki))⟩

theorem LastBefore.next (h : LastBefore pred xs ys i ret) (hno : ¬Occurs pred xs ys i) :
    LastBefore pred xs ys (i + 1) ret := by
  rcases h with ⟨hret, hlast⟩ | ⟨hret, hnone⟩
  · refine .inl ⟨hret, fun k hk hki => ?_⟩
    rcases Nat.lt_succ_iff_lt_or_eq.mp hki with hlt | rfl
    · exact hlast k hk hlt
    · exact hno
  · refine .inr ⟨hret, fun k hki => ?_⟩
    rcases Nat.lt_succ_iff_lt_or_eq.mp hki with hlt | rfl
    · exact hnone k hlt
    · exact hno

/-- Where the rest of the text is shorter than the pattern, there is nothing more to find. -/
theorem LastBefore.last (h : LastBefore pred xs ys i ret) (hys : 0 < ys.length)
    (hshort : xs.length < i + ys.length) :
    (Occurs pred xs ys ret ∧ ∀ k, ret < k → ¬Occurs pred xs ys k) ∨
      ret = xs.length ∧ ∀ k, ¬Occurs pred xs ys k := by
  have hin : ∀ k, Occurs pred xs ys k → k < i := by
    intro k hk
    have hle := hk.le hys
    omega
  rcases h with ⟨hret, hlast⟩ | ⟨hret, hnone⟩
  · exact .inl ⟨hret, fun k hk h => hlast k hk (hin k h) h⟩
  · exact .inr ⟨hret, fun k h => hnone k (hin k h) h⟩

theorem findEndLoop_spec (hys : 0 < ys.length) (hi : i ≤ xs.length)
    (hlast : LastBefore pred xs ys i ret) (hfuel : xs.length - i < fuel) :
    ∃ r, findEndLoop pred xs ys fuel i ret = some r ∧
      ((Occurs pred xs ys r ∧ ∀ k, r < k → ¬Occurs pred xs ys k) ∨
        r = xs.length ∧ ∀ k, ¬Occurs pred xs ys k) := by
  induction fuel generalizing i ret with
  | zero => exact absurd hfuel (Nat.not_lt_zero _)
  | succ fuel ih =>
      rw [findEndLoop]
      split_ifs with hmore
      · have hnone : ∀ m < 0, Fits pred xs ys i m := nofun
        have hinner : xs.length - i < xs.length + 1 := by omega
        obtain ⟨stop, hrun, hstop⟩ :=
          findEndMatch_spec (Nat.add_zero i) hnone (by omega) hys hinner
        rw [hrun]
        simp only [Option.bind_eq_bind, Option.bind_some]
        cases stop with
        | found => exact ih (by omega) (.found hstop) (by omega)
        | textEnds => exact ⟨ret, rfl, hlast.last hys hstop⟩
        | differs => exact ih (by omega) (hlast.next hstop) (by omega)
      · exact ⟨ret, rfl, hlast.last hys (by omega)⟩

/-- `search` gives the first place of the pattern and `find_end` the last one, or the end of the
text, and neither reads outside. -/
theorem search_findEnd (pred : T → U → Bool) (xs : List T) (ys : List U) :
    (∃ r, search pred xs ys = some r ∧
      (Occurs pred xs ys r ∧ (∀ k < r, ¬Occurs pred xs ys k) ∨
        r = xs.length ∧ ∀ k, ¬Occurs pred xs ys k)) ∧
    (ys ≠ [] → ∃ r, findEnd pred xs ys = some r ∧
      ((Occurs pred xs ys r ∧ ∀ k, r < k → ¬Occurs pred xs ys k) ∨
        r = xs.length ∧ ∀ k, ¬Occurs pred xs ys k)) := by
  refine ⟨searchLoop_spec (Nat.zero_le _) nofun (Nat.lt_succ_self _), fun hne => ?_⟩
  have hpos := List.length_pos_iff.mpr hne
  rw [findEnd, if_neg (Nat.ne_of_gt hpos)]
  exact findEndLoop_spec hpos (Nat.zero_le _) (.inr ⟨rfl, nofun⟩) (Nat.lt_succ_self _)

/-- The pattern `1, 1` in `1, 1, 1, 2`. -/
theorem search_findEnd_ones :
    (∃ r, search (fun x y : Nat => x == y) [1, 1, 1, 2] [1, 1] = some r ∧
      (Occurs (fun x y : Nat => x == y) [1, 1, 1, 2] [1, 1] r ∧
          (∀ k < r, ¬Occurs (fun x y : Nat => x == y) [1, 1, 1, 2] [1, 1] k) ∨
        r = 4 ∧ ∀ k, ¬Occurs (fun x y : Nat => x == y) [1, 1, 1, 2] [1, 1] k)) ∧
    ∃ r, findEnd (fun x y : Nat => x == y) [1, 1, 1, 2] [1, 1] = some r ∧
      ((Occurs (fun x y : Nat => x == y) [1, 1, 1, 2] [1, 1] r ∧
          ∀ k, r < k → ¬Occurs (fun x y : Nat => x == y) [1, 1, 1, 2] [1, 1] k) ∨
        r = 4 ∧ ∀ k, ¬Occurs (fun x y : Nat => x == y) [1, 1, 1, 2] [1, 1] k) := by
  obtain ⟨hfirst, hlast⟩ := search_findEnd (fun x y : Nat => x == y) [1, 1, 1, 2] [1, 1]
  exact ⟨hfirst, hlast (by decide)⟩

end Algorithm

end RebuildTheWheel.TinySTL
