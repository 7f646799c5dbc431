import Mathlib.Data.List.Nodup
import Mathlib.Data.Finset.Card

namespace RebuildTheWheel.Data

/-! Doubly linked lists without a header cell: `next` and `prev` give the links of
each cell. -/

variable {ι : Type*} {next prev next' prev' : ι → Option ι}

/-- The links run through `cells` from first to last; `before` and `after` are the
links that leave it. -/
def Linked (next prev : ι → Option ι) (before : Option ι) : List ι → Option ι → Prop
  | [], _ => True
  | x :: xs, after =>
      prev x = before ∧ next x = xs.head?.or after ∧ Linked next prev (some x) xs after

/-- A whole list, from its first cell to its last. -/
def Chain (next prev : ι → Option ι) (start : Option ι) (cells : List ι) : Prop :=
  start = cells.head? ∧ Linked next prev none cells none

theorem linked_append (next prev : ι → Option ι) (before : Option ι) (xs ys : List ι)
    (after : Option ι) :
    Linked next prev before (xs ++ ys) after ↔
      Linked next prev before xs (ys.head?.or after) ∧
        Linked next prev (xs.getLast?.or before) ys after := by
  induction xs generalizing before with
  | nil => simp [Linked]
  | cons x xs ih =>
      have hhead : (xs ++ ys).head?.or after = xs.head?.or (ys.head?.or after) := by
        rw [List.head?_append, Option.or_assoc]
      have hlast : (x :: xs).getLast?.or before = xs.getLast?.or (some x) := by
        rw [List.getLast?_cons]
        cases xs.getLast? <;> rfl
      rw [List.cons_append, Linked, Linked, ih, hhead, hlast, and_assoc, and_assoc]

theorem Linked.congr (h : Linked next prev before xs after)
    (hnext : ∀ x ∈ xs, next' x = next x) (hprev : ∀ x ∈ xs, prev' x = prev x) :
    Linked next' prev' before xs after := by
  induction xs generalizing before with
  | nil => trivial
  | cons x xs ih =>
      obtain ⟨hbefore, hafter, hrest⟩ := h
      refine ⟨?_, ?_, ih hrest ?_ ?_⟩
      · rw [hprev x List.mem_cons_self, hbefore]
      · rw [hnext x List.mem_cons_self, hafter]
      · intro y hy
        exact hnext y (List.mem_cons_of_mem x hy)
      · intro y hy
        exact hprev y (List.mem_cons_of_mem x hy)

/-- The links that leave a part of a list may be set. -/
theorem Linked.relink {before' after' : Option ι} (h : Linked next prev before xs after)
    (hfirst : ∀ x, xs.head? = some x → prev' x = before')
    (hlast : ∀ x, xs.getLast? = some x → next' x = after')
    (hnext : ∀ x ∈ xs, xs.getLast? ≠ some x → next' x = next x)
    (hprev : ∀ x ∈ xs, xs.head? ≠ some x → prev' x = prev x) (hnodup : xs.Nodup) :
    Linked next' prev' before' xs after' := by
  induction xs generalizing before before' with
  | nil => trivial
  | cons x xs ih =>
      obtain ⟨hbefore, hafter, hrest⟩ := h
      obtain ⟨hx, hxs⟩ := List.nodup_cons.mp hnodup
      refine ⟨hfirst x rfl, ?_, ih hrest ?_ ?_ ?_ ?_ hxs⟩
      · cases xs with
        | nil => exact hlast x rfl
        | cons y ys =>
            rw [hnext x List.mem_cons_self, hafter]
            · rfl
            · intro hmem
              exact hx (List.mem_of_mem_getLast? hmem)
      · intro y hy
        have hmem := List.mem_of_mem_head? hy
        rw [hprev y (List.mem_cons_of_mem x hmem)]
        · cases xs with
          | nil => cases hy
          | cons z zs =>
              cases hy
              exact hrest.1
        · rintro ⟨⟩
          exact hx hmem
      · intro y hy
        apply hlast
        rw [List.getLast?_cons, hy]
        rfl
      · intro y hmem hy
        apply hnext y (List.mem_cons_of_mem x hmem)
        cases hend : xs.getLast? with
        | none =>
            rw [List.getLast?_eq_none_iff.mp hend] at hmem
            cases hmem
        | some z =>
            rw [List.getLast?_cons, hend]
            rw [hend] at hy
            exact hy
      · intro y hmem hy
        apply hprev y (List.mem_cons_of_mem x hmem)
        rintro ⟨⟩
        exact hx hmem

theorem Linked.prev_head (h : Linked next prev before xs after) (hx : xs.head? = some x) :
    prev x = before := by
  cases xs with
  | nil => cases hx
  | cons y ys =>
      cases hx
      exact h.1

theorem Linked.next_last (h : Linked next prev before xs after) (hx : xs.getLast? = some x) :
    next x = after := by
  obtain ⟨ys, rfl⟩ := List.getLast?_eq_some_iff.mp hx
  obtain ⟨_, _, hnext, _⟩ := (linked_append _ _ _ _ _ _).mp h
  exact hnext

theorem Linked.eq_of_head? (h : Linked next prev before xs none)
    (h' : Linked next prev before' ys none) (hhead : xs.head? = ys.head?) : xs = ys := by
  induction xs generalizing before before' ys with
  | nil => exact (List.head?_eq_none_iff.mp hhead.symm).symm
  | cons x xs ih =>
      cases ys with
      | nil => cases hhead
      | cons y ys =>
          cases hhead
          obtain ⟨_, hafter, hrest⟩ := h
          obtain ⟨_, hafter', hrest'⟩ := h'
          rw [Option.or_none] at hafter hafter'
          rw [ih hrest hrest' (hafter.symm.trans hafter')]

theorem Linked.nodup (h : Linked next prev before xs none) : xs.Nodup := by
  induction xs generalizing before with
  | nil => exact List.nodup_nil
  | cons x xs ih =>
      refine List.nodup_cons.mpr ⟨?_, ih h.2.2⟩
      intro hmem
      obtain ⟨ys, zs, rfl⟩ := List.append_of_mem hmem
      have hagain := ((linked_append next prev (some x) ys (x :: zs) none).mp h.2.2).2
      have hlength := congrArg List.length (h.eq_of_head? hagain rfl)
      simp only [List.length_append, List.length_cons] at hlength
      omega

theorem Chain.nodup (h : Chain next prev start cells) : cells.Nodup := h.2.nodup

/-- What a whole list says about one of its cells. -/
theorem Chain.split (h : Chain next prev start (xs ++ c :: ys)) :
    Linked next prev none xs (some c) ∧ Linked next prev (some c) ys none ∧
      prev c = xs.getLast? ∧ next c = ys.head? ∧ start = xs.head?.or (some c) := by
  obtain ⟨hstart, hlinked⟩ := h
  obtain ⟨hxs, hprev, hnext, hys⟩ := (linked_append _ _ _ _ _ _).mp hlinked
  rw [Option.or_none] at hprev hnext
  rw [List.head?_append] at hstart
  exact ⟨hxs, hys, hprev, hnext, hstart⟩

theorem Chain.start_eq_iff (h : Chain next prev start (xs ++ c :: ys)) :
    start = some c ↔ xs = [] := by
  have hnodup := h.nodup
  obtain ⟨_, _, _, _, hstart⟩ := h.split
  rw [hstart]
  cases xs with
  | nil => simp
  | cons x xs =>
      rw [List.cons_append, List.nodup_cons] at hnodup
      constructor
      · rintro ⟨⟩
        exact absurd (List.mem_append_right xs List.mem_cons_self) hnodup.1
      · rintro ⟨⟩

section

variable [DecidableEq ι]

theorem Linked.relink_after (h : Linked next prev before xs after) (hnodup : xs.Nodup)
    (hnext : ∀ y ∈ xs, next' y = if xs.getLast? = some y then after' else next y)
    (hprev : ∀ y ∈ xs, prev' y = prev y) : Linked next' prev' before xs after' := by
  apply h.relink _ _ _ _ hnodup
  · intro y hy
    rw [hprev y (List.mem_of_mem_head? hy), h.prev_head hy]
  · intro y hy
    rw [hnext y (List.mem_of_mem_getLast? hy), if_pos hy]
  · intro y hy hne
    rw [hnext y hy, if_neg hne]
  · intro y hy _
    exact hprev y hy

theorem Linked.relink_before (h : Linked next prev before xs after) (hnodup : xs.Nodup)
    (hnext : ∀ y ∈ xs, next' y = next y)
    (hprev : ∀ y ∈ xs, prev' y = if xs.head? = some y then before' else prev y) :
    Linked next' prev' before' xs after := by
  apply h.relink _ _ _ _ hnodup
  · intro y hy
    rw [hprev y (List.mem_of_mem_head? hy), if_pos hy]
  · intro y hy
    rw [hnext y (List.mem_of_mem_getLast? hy), h.next_last hy]
  · intro y hy _
    exact hnext y hy
  · intro y hy hne
    rw [hprev y hy, if_neg hne]

theorem Chain.append (h : Chain next prev start cells)
    (hnext : ∀ y ∈ cells, next' y = if cells.getLast? = some y then some x else next y)
    (hprev : ∀ y ∈ cells, prev' y = prev y)
    (hnextX : next' x = none) (hprevX : prev' x = cells.getLast?) :
    Chain next' prev' (start.or (some x)) (cells ++ [x]) := by
  refine ⟨?_, (linked_append _ _ _ _ _ _).mpr ⟨?_, ?_⟩⟩
  · rw [h.1, List.head?_append]
    rfl
  · exact h.2.relink_after h.nodup hnext hprev
  · rw [Option.or_none]
    exact ⟨hprevX, hnextX, trivial⟩

/-- In a list without repetitions, the last cell in front of `c` is not behind it,
and the first cell behind `c` is not in front of it. -/
theorem apart_of_nodup (hnodup : (xs ++ c :: ys).Nodup) :
    (∀ y ∈ ys, xs.getLast? ≠ some y) ∧ (∀ y ∈ xs, ys.head? ≠ some y) ∧ xs.Nodup ∧ ys.Nodup ∧
      c ∉ xs ∧ c ∉ ys := by
  obtain ⟨hxs, hcys, hdisjoint⟩ := List.nodup_append.mp hnodup
  obtain ⟨hc, hys⟩ := List.nodup_cons.mp hcys
  refine ⟨?_, ?_, hxs, hys, ?_, hc⟩
  · intro y hy hlast
    exact hdisjoint y (List.mem_of_mem_getLast? hlast) y (List.mem_cons_of_mem c hy) rfl
  · intro y hy hhead
    exact hdisjoint y hy y (List.mem_cons_of_mem c (List.mem_of_mem_head? hhead)) rfl
  · intro hmem
    exact hdisjoint c hmem c List.mem_cons_self rfl

theorem Chain.remove (h : Chain next prev start (xs ++ c :: ys))
    (hnext : ∀ y ∈ xs ++ ys, next' y = if prev c = some y then next c else next y)
    (hprev : ∀ y ∈ xs ++ ys, prev' y = if next c = some y then prev c else prev y) :
    Chain next' prev' (if start = some c then next c else start) (xs ++ ys) := by
  have hnodup := h.nodup
  have hstartC := h.start_eq_iff
  obtain ⟨hxs, hys, hprevC, hnextC, hstart⟩ := h.split
  obtain ⟨hlast, hhead, hxsNodup, hysNodup, _, _⟩ := apart_of_nodup hnodup
  rw [hprevC, hnextC] at hnext hprev
  refine ⟨?_, (linked_append _ _ _ _ _ _).mpr ⟨?_, ?_⟩⟩
  · cases xs with
    | nil => rw [if_pos (hstartC.mpr rfl), hnextC, List.nil_append]
    | cons x xs =>
        rw [if_neg fun hc => List.cons_ne_nil x xs (hstartC.mp hc), hstart]
        rfl
  · rw [Option.or_none]
    apply hxs.relink_after hxsNodup
    · intro y hy
      exact hnext y (List.mem_append_left ys hy)
    · intro y hy
      rw [hprev y (List.mem_append_left ys hy), if_neg (hhead y hy)]
  · rw [Option.or_none]
    apply hys.relink_before hysNodup
    · intro y hy
      rw [hnext y (List.mem_append_right xs hy), if_neg (hlast y hy)]
    · intro y hy
      exact hprev y (List.mem_append_right xs hy)

theorem Chain.insert (h : Chain next prev start (xs ++ c :: ys))
    (hnext : ∀ y ∈ xs ++ c :: ys, next' y = if prev c = some y then some x else next y)
    (hprev : ∀ y ∈ xs ++ c :: ys, prev' y = if y = c then some x else prev y)
    (hnextX : next' x = some c) (hprevX : prev' x = prev c) :
    Chain next' prev' (if start = some c then some x else start) (xs ++ x :: c :: ys) := by
  have hnodup := h.nodup
  have hstartC := h.start_eq_iff
  obtain ⟨hxs, hys, hprevC, hnextC, hstart⟩ := h.split
  obtain ⟨hlast, hhead, hxsNodup, hysNodup, hcxs, hcys⟩ := apart_of_nodup hnodup
  rw [hprevC] at hnext hprevX
  have hmemC : c ∈ xs ++ c :: ys := List.mem_append_right xs List.mem_cons_self
  refine ⟨?_, (linked_append _ _ _ _ _ _).mpr ⟨?_, ?_, ?_, ?_, ?_, ?_⟩⟩
  · cases xs with
    | nil => rw [if_pos (hstartC.mpr rfl), List.nil_append, List.head?_cons]
    | cons z zs =>
        rw [if_neg fun hc => List.cons_ne_nil z zs (hstartC.mp hc), hstart]
        rfl
  · apply hxs.relink_after hxsNodup
    · intro y hy
      exact hnext y (List.mem_append_left _ hy)
    · intro y hy
      rw [hprev y (List.mem_append_left _ hy), if_neg]
      rintro rfl
      exact hcxs hy
  · rw [hprevX, Option.or_none]
  · exact hnextX
  · rw [hprev c hmemC, if_pos rfl]
  · rw [hnext c hmemC, if_neg, hnextC, Option.or_none]
    intro hc
    exact hcxs (List.mem_of_mem_getLast? hc)
  · apply hys.congr
    · intro y hy
      rw [hnext y (List.mem_append_right xs (List.mem_cons_of_mem c hy)), if_neg (hlast y hy)]
    · intro y hy
      rw [hprev y (List.mem_append_right xs (List.mem_cons_of_mem c hy)), if_neg]
      rintro rfl
      exact hcys hy

theorem Chain.replace (h : Chain next prev start (xs ++ c :: ys))
    (hnext : ∀ y ∈ xs ++ ys, next' y = if prev c = some y then some x else next y)
    (hprev : ∀ y ∈ xs ++ ys, prev' y = if next c = some y then some x else prev y)
    (hnextX : next' x = next c) (hprevX : prev' x = prev c) :
    Chain next' prev' (if start = some c then some x else start) (xs ++ x :: ys) := by
  have hnodup := h.nodup
  have hstartC := h.start_eq_iff
  obtain ⟨hxs, hys, hprevC, hnextC, hstart⟩ := h.split
  obtain ⟨hlast, hhead, hxsNodup, hysNodup, _, _⟩ := apart_of_nodup hnodup
  rw [hprevC] at hnext hprevX
  rw [hnextC] at hprev hnextX
  refine ⟨?_, (linked_append _ _ _ _ _ _).mpr ⟨?_, ?_, ?_, ?_⟩⟩
  · cases xs with
    | nil => rw [if_pos (hstartC.mpr rfl), List.nil_append, List.head?_cons]
    | cons z zs =>
        rw [if_neg fun hc => List.cons_ne_nil z zs (hstartC.mp hc), hstart]
        rfl
  · apply hxs.relink_after hxsNodup
    · intro y hy
      exact hnext y (List.mem_append_left _ hy)
    · intro y hy
      rw [hprev y (List.mem_append_left _ hy), if_neg (hhead y hy)]
  · rw [hprevX, Option.or_none]
  · rw [hnextX, Option.or_none]
  · apply hys.relink_before hysNodup
    · intro y hy
      rw [hnext y (List.mem_append_right xs hy), if_neg (hlast y hy)]
    · intro y hy
      exact hprev y (List.mem_append_right xs hy)

end

end RebuildTheWheel.Data
