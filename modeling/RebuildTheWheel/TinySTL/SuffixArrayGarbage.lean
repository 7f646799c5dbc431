import RebuildTheWheel.TinySTL.SuffixArrayRounds

namespace RebuildTheWheel.TinySTL

open Data

/-! A text whose last letter comes twice is not sorted for all contents of the work arrays: what
stands behind the ranks can keep the last suffix and another in one class until the second keys
are no longer written. -/

namespace SuffixArray

open CountingSort (StablePass)

variable {len j : Nat} {suffixArray x y : Cells} {items : List Nat}

/-- What `i` steps of a renaming have written over the cells `x`, with `p` ranks. -/
structure Renamed (items : List Nat) (x : Cells) (i : Nat) (ranks : Cells) (p : ℤ) : Prop where
  cells : ∀ k, ranks k = x k ∨ k ∈ items ∧ 0 ≤ ranks k ∧ ranks k < p
  bounds : ∀ a ∈ items.take i, 0 ≤ ranks a ∧ ranks a < p
  pos : 0 < p
  le : p ≤ i

theorem Renamed.step {i : Nat} {ranks : Cells} {v p p' : ℤ} (h : Renamed items x i ranks p)
    (hi : i < items.length) (hv : 0 ≤ v) (hvp : v < p') (hp : p ≤ p') (hle : p' ≤ i + 1) :
    Renamed items x (i + 1) (Function.update ranks items[i] v) p' where
  cells := by
    intro k
    by_cases hk : k = items[i]
    · subst hk
      rw [Function.update_self]
      exact .inr ⟨List.getElem_mem hi, hv, hvp⟩
    · rw [Function.update_of_ne hk]
      exact (h.cells k).imp_right fun ⟨hmem, hge, hlt⟩ => ⟨hmem, hge, Int.lt_of_lt_of_le hlt hp⟩
  bounds := by
    intro a ha
    by_cases hk : a = items[i]
    · subst hk
      rw [Function.update_self]
      exact ⟨hv, hvp⟩
    · rw [Function.update_of_ne hk]
      rw [List.take_succ_eq_append_getElem hi, List.mem_append, List.mem_singleton] at ha
      have hbounds := h.bounds a (ha.resolve_right hk)
      exact ⟨hbounds.1, Int.lt_of_lt_of_le hbounds.2 hp⟩
  pos := Int.lt_of_lt_of_le h.pos hp
  le := hle

theorem renamed_first (hpos : 0 < items.length) (x : Cells) :
    Renamed items x 1 (Function.update x items[0] 0) 1 where
  cells := by
    intro k
    by_cases hk : k = items[0]
    · subst hk
      rw [Function.update_self]
      exact .inr ⟨List.getElem_mem hpos, Int.le_refl 0, Int.one_pos⟩
    · exact .inl (Function.update_of_ne hk ..)
  bounds := by
    intro a ha
    rw [List.take_succ_eq_append_getElem hpos] at ha
    obtain rfl := List.mem_singleton.mp ha
    rw [Function.update_self]
    exact ⟨Int.le_refl 0, Int.one_pos⟩
  pos := Int.one_pos
  le := Int.le_refl 1

theorem cmp_congr {y' : Cells} {a b : Nat} (hy : ∀ k < len + j, y k = y' k) (ha : a < len)
    (hb : b < len) : cmp y a b j = cmp y' a b j := by
  have hload (k : Nat) (hk : k < len + j) : load workSize y k = load workSize y' k := by
    simp only [load, Int.toNat_natCast, hy k hk]
  rw [cmp, cmp, hload a (by omega), hload b (by omega), ← Int.natCast_add, ← Int.natCast_add,
    hload (a + j) (by omega), hload (b + j) (by omega)]

theorem cmp_same {a b : Nat} {c : Bool} (hfirst : y a = y b) (hsecond : y (a + j) = y (b + j))
    (h : cmp y a b j = some c) : c = true := by
  have hload (k : Nat) (v : ℤ) (hk : load workSize y k = some v) : v = y k := by
    rw [load] at hk
    split at hk
    · exact (Option.some.inj hk).symm
    · cases hk
  simp only [cmp, Option.bind_eq_bind, Option.bind_eq_some_iff] at h
  obtain ⟨va, hva, vb, hvb, h⟩ := h
  have heq : va = vb := by rw [hload a va hva, hload b vb hvb, hfirst]
  rw [if_pos heq, ← Int.natCast_add, ← Int.natCast_add, Option.bind_eq_some_iff] at h
  obtain ⟨wa, hwa, h⟩ := h
  obtain ⟨wb, hwb, h⟩ := Option.bind_eq_some_iff.mp h
  rw [hload _ wa hwa, hload _ wb hwb] at h
  rw [← Option.some.inj h]
  exact decide_eq_true hsecond

section

variable (hreads : Reads suffixArray items) (hlength : items.length = len)
  (hlt : ∀ a ∈ items, a < len) (hlen : len ≤ workSize)

include hreads hlength hlt hlen

theorem rename_renamed (hpos : 0 < items.length) {ranks : Cells} {p : ℤ}
    (h : rename len j suffixArray x y = some (ranks, p)) : Renamed items x len ranks p := by
  rw [rename_eq hreads hlength hlt hlen hpos] at h
  have hend := Loop.up_partial (fun i s => Renamed items x i s.1 s.2) (renamed_first hpos x) ?_ h
  · rwa [← hlength, Nat.add_sub_cancel' hpos, hlength] at hend
  · rintro i s s' hi hilt hstep hs
    obtain ⟨b, rfl⟩ := Nat.exists_eq_add_of_le' hi
    have hnext : b + 1 < items.length := by omega
    rw [renameStep_eq hreads hlength hlt hlen hnext] at hstep
    obtain ⟨c, -, rfl⟩ := Option.map_eq_some_iff.mp hstep
    have hpos := hs.pos
    have hle := hs.le
    cases c
    · exact hs.step hnext (Int.le_of_lt hpos) (Int.lt_succ _) (Int.le_of_lt (Int.lt_succ _))
        (Int.add_le_add_right hle 1)
    · exact hs.step hnext (Int.le_sub_one_of_lt hpos) (Int.sub_one_lt_of_le (Int.le_refl _))
        (Int.le_refl _) (Int.le_of_lt (Int.lt_add_one_of_le hle))

/-- Two neighbours that compare equal get one rank, and there are too few ranks for all. -/
theorem rename_merges (hnodup : items.Nodup) {b : Nat} (hb₀ : b < items.length)
    (hb : b + 1 < items.length)
    {ranks : Cells} {p : ℤ} (h : rename len j suffixArray x y = some (ranks, p))
    (hcmp : ∀ c, cmp y items[b] items[b + 1] j = some c → c = true) :
    ranks items[b] = ranks items[b + 1] ∧ p < len := by
  have hpos := Nat.zero_lt_of_lt hb
  rw [rename_eq hreads hlength hlt hlen hpos] at h
  have hend := Loop.up_partial (fun i (s : Cells × ℤ) => s.2 ≤ i ∧
    (∀ d, items[i - 1]? = some d → s.1 d = s.2 - 1) ∧
    (b + 1 < i → s.1 items[b] = s.1 items[b + 1] ∧ s.2 < i)) ?_ ?_ h
  · have hall : 1 + (len - 1) = len := by omega
    rw [hall] at hend
    exact hend.2.2 (hlength ▸ hb)
  · refine ⟨Int.le_refl 1, fun d hd => ?_, fun h => absurd h (by omega)⟩
    rw [Nat.sub_self, List.getElem?_eq_getElem hpos] at hd
    obtain rfl := Option.some.inj hd
    exact Function.update_self ..
  · rintro i ⟨x', p'⟩ s' hi hilt hstep ⟨hle, hlast, hmerged⟩
    dsimp only at hle hlast hmerged
    obtain ⟨k, rfl⟩ := Nat.exists_eq_add_of_le' hi
    have hnext : k + 1 < items.length := by omega
    rw [renameStep_eq hreads hlength hlt hlen hnext] at hstep
    obtain ⟨c, hc, rfl⟩ := Option.map_eq_some_iff.mp hstep
    have hne (i : Nat) (hi : i < items.length) (hik : i ≤ k) : items[i] ≠ items[k + 1] := fun heq => by
      have := hnodup.getElem_inj_iff.mp heq
      omega
    have hlast' := hlast _ (List.getElem?_eq_getElem (Nat.lt_of_succ_lt hnext))
    refine ⟨?_, fun d hd => ?_, fun hbk => ?_⟩
    · cases c
      · exact Int.add_le_add_right hle 1
      · exact Int.le_of_lt (Int.lt_add_one_of_le hle)
    · rw [Nat.add_sub_cancel, List.getElem?_eq_getElem hnext] at hd
      obtain rfl := Option.some.inj hd
      refine (Function.update_self ..).trans ?_
      cases c
      · exact (Int.add_sub_cancel p' 1).symm
      · rfl
    · dsimp only
      rcases Nat.lt_succ_iff_lt_or_eq.mp hbk with hbk | heq
      · obtain ⟨hsame, hfew⟩ := hmerged hbk
        rw [Function.update_of_ne (hne b _ (by omega)),
          Function.update_of_ne (hne (b + 1) _ (by omega))]
        refine ⟨hsame, ?_⟩
        cases c
        · exact Int.add_lt_add_right hfew 1
        · exact Int.lt_trans hfew (Int.lt_succ _)
      · obtain rfl : b = k := by omega
        obtain rfl := hcmp c hc
        rw [Function.update_of_ne (hne b _ (by omega)), Function.update_self]
        exact ⟨hlast', Int.lt_add_one_of_le hle⟩

/-- The new ranks depend only on the order and on the cells that are compared. -/
theorem rename_agrees (hpos : 0 < items.length) {suffixArray' y' ranks : Cells} {p : ℤ}
    (x' : Cells) (hreads' : Reads suffixArray' items) (hy : ∀ k < len + j, y k = y' k)
    (h : rename len j suffixArray x y = some (ranks, p)) :
    ∃ ranks', rename len j suffixArray' x' y' = some (ranks', p) ∧
      (∀ a ∈ items, ranks' a = ranks a) ∧ ∀ k, k ∉ items → ranks' k = x' k := by
  rw [rename_eq hreads hlength hlt hlen hpos] at h
  have hsim : ∃ t, Loop.up (renameStep len j suffixArray' y') 1 (len - 1)
      (Function.update x' items[0] 0, 1) = some t ∧ p = t.2 ∧
      (∀ a ∈ items.take (1 + (len - 1)), t.1 a = ranks a) ∧ ∀ k, k ∉ items → t.1 k = x' k := by
    refine Loop.up_simulates (fun i (s t : Cells × ℤ) => s.2 = t.2 ∧
      (∀ a ∈ items.take i, t.1 a = s.1 a) ∧ ∀ k, k ∉ items → t.1 k = x' k) ?_ ?_ h
    · refine ⟨rfl, fun a ha => ?_, fun k hk => ?_⟩
      · rw [List.take_succ_eq_append_getElem hpos] at ha
        obtain rfl := List.mem_singleton.mp ha
        dsimp only
        rw [Function.update_self, Function.update_self]
      · exact Function.update_of_ne (ne_of_mem_of_not_mem (List.getElem_mem hpos) hk).symm ..
    · rintro i ⟨r, p⟩ ⟨r', p'⟩ s' hi hilt ⟨hp, hranks, hother⟩ hstep
      obtain rfl : p = p' := hp
      dsimp only at hranks hother
      obtain ⟨b, rfl⟩ := Nat.exists_eq_add_of_le' hi
      have hnext : b + 1 < items.length := by omega
      rw [renameStep_eq hreads hlength hlt hlen hnext] at hstep
      obtain ⟨c, hc, rfl⟩ := Option.map_eq_some_iff.mp hstep
      have hc' := (cmp_congr hy (hlt _ (List.getElem_mem (Nat.lt_of_succ_lt hnext)))
        (hlt _ (List.getElem_mem hnext))).symm.trans hc
      rw [renameStep_eq hreads' hlength hlt hlen hnext, hc']
      refine ⟨_, rfl, rfl, ?_, ?_⟩
      · intro a ha
        dsimp only
        by_cases hk : a = items[b + 1]
        · subst hk
          rw [Function.update_self, Function.update_self]
        · rw [Function.update_of_ne hk, Function.update_of_ne hk]
          rw [List.take_succ_eq_append_getElem hnext, List.mem_append, List.mem_singleton] at ha
          exact hranks a (ha.resolve_right hk)
      · intro k hk
        have hne := ne_of_mem_of_not_mem (List.getElem_mem hnext) hk
        exact (Function.update_of_ne hne.symm ..).trans (hother k hk)
  obtain ⟨⟨ranks', p'⟩, hrename, rfl, hranks, hother⟩ := hsim
  rw [Nat.add_sub_cancel' (hlength ▸ hpos), ← hlength, List.take_length] at hranks
  refine ⟨ranks', ?_, hranks, hother⟩
  rw [rename_eq hreads' hlength hlt hlen hpos]
  exact hrename

end

/-! The rounds in which `j` is above the length, and no second key is written. -/

theorem pushEnds_stale (hj : len < j) (y : Cells) : pushEnds len j y = some (y, 0) := by
  rw [pushEnds, if_neg (Nat.not_le_of_lt hj)]

theorem pushShifted_stale (hj : len < j) (hbounds : ∀ i < len, suffixArray i < len) (y : Cells)
    (p : ℤ) : pushShifted len j suffixArray y p = some (y, p) := by
  obtain ⟨s, hpush, rfl⟩ : ∃ s, pushShifted len j suffixArray y p = some s ∧ s = (y, p) := by
    refine Loop.up_spec (fun _ s => s = (y, p)) rfl ?_ (fun s h => h)
    rintro i s - hi rfl
    rw [Nat.zero_add] at hi
    have hlt := hbounds i hi
    refine ⟨(y, p), ?_, rfl⟩
    dsimp only
    rw [load_natCast hi, Option.bind_eq_bind, Option.bind_some, if_neg (by omega)]
    rfl
  exact hpush

theorem store_eq {bound : Nat} {cells cells' : Cells} {i v : ℤ}
    (h : store bound cells i v = some cells') : cells' = Function.update cells i.toNat v := by
  rw [store] at h
  split at h
  · exact (Option.some.inj h).symm
  · cases h

/-- What a placing that ends has written. -/
theorem place_values {keys ws : Cells} {item : Nat → Option ℤ} {result : Cells × Cells}
    (h : place len keys item ws suffixArray = some result) (i : Nat) :
    result.2 i = suffixArray i ∨ ∃ k, k < len ∧ item k = some (result.2 i) := by
  refine Loop.down_partial (fun _ s => ∀ q, s.2 q = suffixArray q ∨
    ∃ k, k < len ∧ item k = some (s.2 q)) (fun _ => .inl rfl) ?_ h i
  rintro k ⟨ws, sa⟩ s' hk hstep hs q
  dsimp only at hstep hs
  simp only [Option.bind_eq_bind, Option.bind_eq_some_iff] at hstep
  obtain ⟨key, -, c, -, ws', -, v, hv, sa', hstore, heq⟩ := hstep
  obtain rfl := Option.some.inj heq
  rw [store_eq hstore]
  dsimp only
  by_cases hq : q = (c - 1).toNat
  · subst hq
    rw [Function.update_self]
    exact .inr ⟨k, hk, hv⟩
  · rw [Function.update_of_ne hq]
    exact hs q

/-- Every cell of the length of the text holds the start of a suffix, but not of the last. -/
def Below (len : Nat) (cells : Cells) : Prop := ∀ i < len, 0 ≤ cells i ∧ cells i + 1 < len

structure Stale (len : Nat) (work : Work) : Prop where
  suffixArray : Below len work.suffixArray
  x : Below len work.x
  y : Below len work.y

/-- The list that the cells hold. -/
def held (len : Nat) (cells : Cells) : List Nat := (List.range len).map fun i => (cells i).toNat

theorem length_held (cells : Cells) : (held len cells).length = len := by
  rw [held, List.length_map, List.length_range]

theorem reads_held {cells : Cells} (h : ∀ i < len, 0 ≤ cells i) : Reads cells (held len cells) := by
  intro i a ha
  have hi : i < len := (List.getElem?_eq_some_iff.mp ha).1.trans_eq (length_held cells)
  rw [held, List.getElem?_map, List.getElem?_range hi, Option.map_some] at ha
  rw [← Option.some.inj ha, Int.toNat_of_nonneg (h i hi)]

theorem Below.mem_held {cells : Cells} (h : Below len cells) : ∀ a ∈ held len cells, a + 1 < len := by
  intro a ha
  obtain ⟨i, hi, rfl⟩ := List.mem_map.mp ha
  have := h i (List.mem_range.mp hi)
  omega

theorem below_of_reads {cells : Cells} (hreads : Reads cells items) (hlength : items.length = len)
    (h : ∀ a ∈ items, a + 1 < len) : Below len cells := by
  intro i hi
  rw [← hlength] at hi
  rw [hreads i _ (List.getElem?_eq_getElem hi)]
  have := h _ (List.getElem_mem hi)
  omega

/-- A renaming keeps the last start out of the cells, as long as there are too few ranks. -/
theorem below_rename {ranks : Cells} {p : ℤ} (hpos : 0 < len) (hlen : len ≤ workSize)
    (hsuffix : Below len suffixArray) (hx : Below len x)
    (h : rename len j suffixArray x y = some (ranks, p)) (hp : p < len) : Below len ranks := by
  have hrenamed := rename_renamed (reads_held fun i hi => (hsuffix i hi).1) (length_held _)
    (fun a ha => Nat.lt_of_succ_lt (hsuffix.mem_held a ha)) hlen
    (by rwa [length_held]) h
  intro i hi
  rcases hrenamed.cells i with heq | ⟨-, hge, hlt⟩
  · rw [heq]
    exact hx i hi
  · omega

theorem Stale.round {work work' : Work} {maxLen : Nat} {p : ℤ} (h : Stale len work)
    (hpos : 0 < len) (hlen : len ≤ workSize) (hj : len < j)
    (hround : SuffixArray.round len j maxLen work = some (work', p)) :
    Below len work'.suffixArray ∧ (p < len → Stale len work') := by
  have hbounds : ∀ i < len, work.suffixArray i < len := fun i hi => by
    have := h.suffixArray i hi
    omega
  simp only [SuffixArray.round, pushEnds_stale hj, pushShifted_stale hj hbounds,
    Option.bind_eq_bind, Option.bind_some, Option.bind_eq_some_iff] at hround
  obtain ⟨wv, -, ws₁, -, ws₂, -, ws₃, -, ⟨ws₄, suffixArray⟩, hplace, ⟨x, p'⟩, hrename, heq⟩ := hround
  obtain ⟨rfl, rfl⟩ := Prod.mk.inj (Option.some.inj heq)
  have hsuffix : Below len suffixArray := by
    intro i hi
    rcases place_values hplace i with heq | ⟨k, hk, hload⟩
    · rw [show suffixArray i = _ from heq]
      exact h.suffixArray i hi
    · rw [load_natCast (Nat.lt_of_lt_of_le hk hlen)] at hload
      rw [show suffixArray i = _ from (Option.some.inj hload).symm]
      exact h.y k hk
  exact ⟨hsuffix, fun hp => ⟨hsuffix, below_rename hpos hlen hsuffix h.y hrename hp, h.x⟩⟩

theorem Stale.rounds {work work' : Work} {maxLen fuel : Nat} {p : ℤ} (h : Stale len work)
    (hpos : 0 < len) (hlen : len ≤ workSize) (hj : len < j)
    (hrounds : SuffixArray.rounds len fuel j p maxLen work = some work') :
    Below len work'.suffixArray := by
  induction fuel generalizing j p maxLen work with
  | zero =>
      by_cases hp : p < len
      · rw [rounds_zero hp] at hrounds
        cases hrounds
      · rw [rounds_done hp] at hrounds
        exact Option.some.inj hrounds ▸ h.suffixArray
  | succ fuel ih =>
      by_cases hp : p < len
      · rw [rounds_more hp] at hrounds
        obtain ⟨⟨work₁, p₁⟩, hround, hrest⟩ := Option.bind_eq_some_iff.mp hrounds
        obtain ⟨hsuffix, hstale⟩ := h.round hpos hlen hj hround
        by_cases hp₁ : p₁ < len
        · exact ih (hstale hp₁) (by omega) hrest
        · have hdone := (rounds_done hp₁ fuel (j * 2) p₁.toNat work₁).symm.trans hrest
          exact Option.some.inj hdone ▸ hsuffix
      · rw [rounds_done hp] at hrounds
        exact Option.some.inj hrounds ▸ h.suffixArray

/-! The rounds before, in which the last suffix shares its rank with another. -/

variable {maxLen : Nat} {order : List Nat}

structure Merged (len maxLen : Nat) (order : List Nat) (x : Cells) : Prop where
  perm : order.Perm (List.range len)
  bounds : ∀ a < len, 0 ≤ x a ∧ x a < maxLen
  mate : ∃ b, b + 1 < len ∧ x b = x (len - 1)

theorem Merged.pos (h : Merged len maxLen order x) : 1 < len := by
  obtain ⟨b, hb, -⟩ := h.mate
  omega

theorem Merged.congr {x' : Cells} (h : Merged len maxLen order x) (hx : ∀ a < len, x' a = x a) :
    Merged len maxLen order x' where
  perm := h.perm
  bounds := fun a ha => by rw [hx a ha]; exact h.bounds a ha
  mate := by
    obtain ⟨b, hb, heq⟩ := h.mate
    exact ⟨b, hb, by rw [hx b (by omega), hx _ (by omega), heq]⟩

/-- The first round whose second keys are stale sorts what stood there before. -/
theorem Merged.stale {work work' : Work} {p : ℤ} (h : Merged len maxLen order work.x)
    (hlen : len ≤ workSize) (hfew : maxLen < len) (hreads : Reads work.suffixArray order)
    (hy : Below len work.y) (hj : len < j)
    (hround : round len j maxLen work = some (work', p)) :
    Below len work'.suffixArray ∧ (p < len → Stale len work') := by
  have hlength : order.length = len := h.perm.length_eq.trans List.length_range
  have hbounds : ∀ i < len, work.suffixArray i < len := by
    intro i hi
    rw [← hlength] at hi
    rw [hreads i _ (List.getElem?_eq_getElem hi)]
    exact Int.ofNat_lt.mpr (List.mem_range.mp (h.perm.mem_iff.mp (List.getElem_mem hi)))
  have hmem : ∀ a ∈ held len work.y, a < len := fun a ha => Nat.lt_of_succ_lt (hy.mem_held a ha)
  obtain ⟨wv, ws, suffixArray, order', hpass_round, hreads', hpass, -⟩ :=
    pass_spec hlen (by omega) (pushEnds_stale hj work.y)
      (pushShifted_stale hj hbounds work.y 0) (reads_held fun i hi => (hy i hi).1)
      (length_held _) hmem h.bounds
  rw [hpass_round] at hround
  obtain ⟨⟨ranks, p'⟩, hrename, heq⟩ := Option.map_eq_some_iff.mp hround
  obtain ⟨rfl, rfl⟩ := Prod.mk.inj heq
  have hsuffix : Below len suffixArray := below_of_reads hreads' (hpass.length_eq.trans (length_held _))
    fun a ha => hy.mem_held a (hpass.perm.mem_iff.mp ha)
  have hx : Below len work.x := fun i hi => by
    have := h.bounds i hi
    omega
  exact ⟨hsuffix, fun hp => ⟨hsuffix,
    below_rename (Nat.lt_trans Nat.zero_lt_one h.pos) hlen hsuffix hy hrename hp, hx⟩⟩

/-- Where the ranks are sorted, the last suffix stands beside one with its rank. -/
theorem Merged.neighbours {order' : List Nat} (h : Merged len maxLen order x)
    (hperm : order'.Perm (List.range len)) (hsorted : order'.Pairwise fun a b => x a ≤ x b) :
    ∃ b d, ∃ hb : b + 1 < order'.length, d + 1 < len ∧ x order'[b] = x order'[b + 1] ∧
      (order'[b] = len - 1 ∧ order'[b + 1] = d ∨ order'[b] = d ∧ order'[b + 1] = len - 1) := by
  obtain ⟨m, hm, heq⟩ := h.mate
  have hmem (a : Nat) (ha : a < len) := List.mem_iff_getElem.mp
    (hperm.mem_iff.mpr (List.mem_range.mpr ha))
  have hnodup : order'.Nodup := hperm.nodup_iff.mpr List.nodup_range
  have hsorted' (i k : Nat) (hi : i ≤ k) (hk : k < order'.length) : x order'[i] ≤ x order'[k] := by
    rcases Nat.eq_or_lt_of_le hi with rfl | hi
    · exact Int.le_refl _
    · exact List.pairwise_iff_getElem.mp hsorted i k _ hk hi
  have hother (i : Nat) (hi : i < order'.length) (hne : order'[i] ≠ len - 1) :
      order'[i] + 1 < len := by
    have := List.mem_range.mp (hperm.mem_iff.mp (List.getElem_mem hi))
    omega
  obtain ⟨k, hk, hlast⟩ := hmem (len - 1) (by omega)
  obtain ⟨i, hi, hmate⟩ := hmem m (by omega)
  rw [← hmate, ← hlast] at heq
  have hne : i ≠ k := by
    rintro rfl
    omega
  have hne' (i : Nat) (hi : i < order'.length) (hik : i ≠ k) : order'[i] ≠ len - 1 := fun h =>
    hik (hnodup.getElem_inj_iff.mp (h.trans hlast.symm))
  rcases Nat.lt_or_gt_of_ne hne with hik | hik
  · obtain ⟨b, rfl⟩ := Nat.exists_eq_add_of_le' (Nat.one_le_of_lt hik)
    have hb : b < order'.length := Nat.lt_of_succ_lt hk
    refine ⟨b, order'[b], hk, hother b hb (hne' b hb (by omega)), ?_, .inr ⟨rfl, hlast⟩⟩
    have := hsorted' i b (by omega) hb
    have := hsorted' b (b + 1) b.le_succ hk
    omega
  · have hnext : k + 1 < order'.length := by omega
    refine ⟨k, order'[k + 1], hnext, hother (k + 1) hnext (hne' (k + 1) hnext (by omega)), ?_,
      .inl ⟨hlast, rfl⟩⟩
    have := hsorted' k (k + 1) k.le_succ hnext
    have := hsorted' (k + 1) i (by omega) hi
    omega

theorem reads_getD (order : List Nat) : Reads (fun i => (order.getD i 0 : Nat)) order := by
  intro i a ha
  dsimp only
  rw [List.getD_eq_getElem?_getD, ha]
  rfl

/-- The two counting passes of a round give an order that the cells before the text's end
decide. -/
theorem Merged.sorts (h : Merged len maxLen order x) (hlen : len ≤ workSize)
    (hmax : maxLen ≤ workSize) (hjlen : j ≤ len) :
    ∃ order' : List Nat, order'.Perm (List.range len) ∧
      (order'.Pairwise fun a b => x a ≤ x b) ∧
      ∀ work : Work, Reads work.suffixArray order → (∀ a < len, work.x a = x a) →
        ∃ y suffixArray wv ws, round len j maxLen work =
            (rename len j suffixArray y work.x).map (fun (x, p) =>
              ({ suffixArray := suffixArray, x := x, y := work.x, wv := wv, ws := ws }, p)) ∧
          Reads suffixArray order' ∧ ∀ k, len ≤ k → y k = work.y k := by
  let known : Work := ⟨fun i => (order.getD i 0 : Nat), x, x, x, x⟩
  have hknown : Reads known.suffixArray order := reads_getD order
  obtain ⟨_, wv₀, _, _, order', -, -, hpass₀, hwv₀, -⟩ :=
    sorted_spec hlen hmax hjlen hknown h.perm h.bounds
  refine ⟨order', hpass₀.perm.trans (secondOrder_perm h.perm hjlen), ?_, ?_⟩
  · have hany : (secondOrder len j order).Pairwise fun _ _ => True :=
      List.pairwise_of_forall fun _ _ => trivial
    refine (hpass₀.pairwise hwv₀ hany).imp fun {a b} hab => ?_
    rcases hab with hab | ⟨hab, -⟩
    · exact Int.le_of_lt hab
    · exact Int.le_of_eq hab
  · intro work hreads hx
    obtain ⟨y, wv, ws, suffixArray, order'', hround, hreads', hpass, hwv, hy⟩ :=
      sorted_spec hlen hmax hjlen hreads h.perm (fun a ha => by rw [hx a ha]; exact h.bounds a ha)
    have hkeys : ∀ i < (secondOrder len j order).length, wv i = wv₀ i := by
      intro i hi
      have hget := List.getElem?_eq_getElem hi
      have hmem := (mem_secondOrder h.perm hjlen).mp (List.getElem_mem hi)
      rw [hwv i _ hget, hwv₀ i _ hget, hx _ hmem]
    obtain rfl := hpass.unique hpass₀ hkeys
    exact ⟨y, suffixArray, wv, ws, hround, hreads', hy⟩

/-- One cell behind the text keeps the last suffix together with another. -/
theorem Merged.next (h : Merged len maxLen order x) (hlen : len ≤ workSize)
    (hmax : maxLen ≤ workSize) (hj : 0 < j) (hjlen : j ≤ len) :
    ∃ (order' : List Nat) (x₁ ranks : Cells) (p₀ : ℤ), (∀ i < len - 1 + j, x₁ i = x i) ∧
      ∀ work work' p, Reads work.suffixArray order → (∀ i < len + j, work.x i = x₁ i) →
        round len j maxLen work = some (work', p) →
        p = p₀ ∧ p₀ < len ∧ Merged len p₀.toNat order' ranks ∧
          Reads work'.suffixArray order' ∧ (∀ a < len, work'.x a = ranks a) ∧
          (∀ k, len ≤ k → work'.x k = work.y k) ∧ work'.y = work.x := by
  -- The order is known before the cells behind the text are.
  obtain ⟨order', hperm, hsorted, hsorts⟩ := h.sorts hlen hmax hjlen
  have hlength : order'.length = len := hperm.length_eq.trans List.length_range
  have hlt : ∀ a ∈ order', a < len := fun a ha => List.mem_range.mp (hperm.mem_iff.mp ha)
  have hnodup : order'.Nodup := hperm.nodup_iff.mpr List.nodup_range
  obtain ⟨b, d, hb, hd, heq, hbd⟩ := h.neighbours hperm hsorted
  let x₁ := Function.update x (len - 1 + j) (x (d + j))
  have hx₁ : ∀ i, i ≠ len - 1 + j → x₁ i = x i := fun i hi => Function.update_of_ne hi ..
  have hbehind : x₁ (len - 1 + j) = x₁ (d + j) := by
    rw [hx₁ (d + j) (by omega)]
    exact Function.update_self ..
  have horder (work : Work) (hreads : Reads work.suffixArray order)
      (hx : ∀ i < len + j, work.x i = x₁ i) :=
    hsorts work hreads fun a ha => (hx a (by omega)).trans (hx₁ a (by omega))
  have hagree : ∀ i < len - 1 + j, x₁ i = x i := fun i hi => hx₁ i hi.ne
  by_cases hrun : ∃ work work' p, Reads work.suffixArray order ∧
      (∀ i < len + j, work.x i = x₁ i) ∧ round len j maxLen work = some (work', p)
  · obtain ⟨work₀, work₀', p₀, hreads₀, hx₀, hround₀⟩ := hrun
    obtain ⟨y₀, suffix₀, wv₀, ws₀, hround, hreads₀', hy₀⟩ := horder work₀ hreads₀ hx₀
    rw [hround] at hround₀
    obtain ⟨⟨ranks, p₀⟩, hrename₀, heq₀⟩ := Option.map_eq_some_iff.mp hround₀
    obtain ⟨-, rfl⟩ := Prod.mk.inj heq₀
    have hpos : 0 < order'.length := Nat.zero_lt_of_lt hb
    have hcmp : ∀ c, cmp work₀.x order'[b] order'[b + 1] j = some c → c = true := by
      intro c hc
      have hb' := hlt _ (List.getElem_mem (Nat.lt_of_succ_lt hb))
      have hb'' := hlt _ (List.getElem_mem hb)
      refine cmp_same ?_ ?_ hc
      · rw [hx₀ _ (by omega), hx₀ _ (by omega), hx₁ _ (by omega), hx₁ _ (by omega), heq]
      · rw [hx₀ _ (by omega), hx₀ _ (by omega)]
        rcases hbd with ⟨hlast, hother⟩ | ⟨hother, hlast⟩
        · rw [hlast, hother, hbehind]
        · rw [hlast, hother, hbehind]
    obtain ⟨hsame, hfew⟩ := rename_merges hreads₀' hlength hlt hlen hnodup
      (Nat.lt_of_succ_lt hb) hb hrename₀ hcmp
    have hrenamed := rename_renamed hreads₀' hlength hlt hlen hpos hrename₀
    have hmerged : Merged len p₀.toNat order' ranks := by
      refine ⟨hperm, fun a ha => ?_, d, hd, ?_⟩
      · have hbounds := hrenamed.bounds a (by
          rw [← hlength, List.take_length]
          exact hperm.mem_iff.mpr (List.mem_range.mpr ha))
        rwa [Int.toNat_of_nonneg (Int.le_of_lt hrenamed.pos)]
      · rcases hbd with ⟨hlast, hother⟩ | ⟨hother, hlast⟩
        · rw [hlast, hother] at hsame
          exact hsame.symm
        · rw [hlast, hother] at hsame
          exact hsame
    refine ⟨order', x₁, ranks, p₀, hagree, fun work work' p hreads hx hround => ?_⟩
    obtain ⟨y, suffixArray, wv, ws, hround', hreads', hy⟩ := horder work hreads hx
    have hsame_x : ∀ k < len + j, work₀.x k = work.x k := fun k hk => by rw [hx₀ k hk, hx k hk]
    obtain ⟨ranks', hrename, hranks, hother⟩ := rename_agrees hreads₀' hlength hlt hlen hpos y
      hreads' hsame_x hrename₀
    rw [hround', hrename] at hround
    obtain ⟨rfl, rfl⟩ := Prod.mk.inj (Option.some.inj hround)
    refine ⟨rfl, hfew, hmerged, hreads', fun a ha => ?_, fun k hk => ?_, rfl⟩
    · exact hranks a (hperm.mem_iff.mpr (List.mem_range.mpr ha))
    · exact (hother k fun hmem => absurd (hlt k hmem) (Nat.not_lt_of_le hk)).trans (hy k hk)
  · exact ⟨order', x₁, x, 0, hagree, fun work work' p hreads hx hround =>
      absurd ⟨work, work', p, hreads, hx, hround⟩ hrun⟩

/-- Every run from the state that ends leaves the last suffix out of the order. -/
def Fails (len j maxLen : Nat) (order : List Nat) (x y : Cells) : Prop :=
  ∀ (work work' : Work) (p : ℤ) (fuel : Nat), Reads work.suffixArray order → work.x = x →
    work.y = y → p < len → rounds len fuel j p maxLen work = some work' →
    Below len work'.suffixArray

theorem Merged.fails_stale (h : Merged len maxLen order x) (hlen : len ≤ workSize)
    (hfew : maxLen < len) (hy : Below len y) (hj : len < j) : Fails len j maxLen order x y := by
  rintro work work' p (_ | fuel) hreads rfl rfl hp hrounds
  · rw [rounds_zero hp] at hrounds
    cases hrounds
  · rw [rounds_more hp] at hrounds
    obtain ⟨⟨work₁, p₁⟩, hround, hrest⟩ := Option.bind_eq_some_iff.mp hrounds
    obtain ⟨hsuffix, hstale⟩ := h.stale hlen hfew hreads hy hj hround
    by_cases hp₁ : p₁ < len
    · exact (hstale hp₁).rounds (Nat.lt_trans Nat.zero_lt_one h.pos) hlen (by omega) hrest
    · have hdone := (rounds_done hp₁ fuel (j * 2) p₁.toNat work₁).symm.trans hrest
      exact Option.some.inj hdone ▸ hsuffix

/-- Some contents of the cells behind the text make all runs fail. -/
theorem Merged.exists_fails (hlen : len ≤ workSize) (n : Nat) (hn : len < j + n) (hj : 0 < j)
    (h : Merged len maxLen order x) (hmax : maxLen ≤ workSize) (hfew : 1 < j → maxLen < len)
    (hy : len < j → Below len y) :
    ∃ x' y', (∀ i < len - 1 + j, x' i = x i ∧ y' i = y i) ∧ Fails len j maxLen order x' y' := by
  induction n generalizing j maxLen order x y with
  | zero =>
      have hone := h.pos
      exact ⟨x, y, fun _ _ => ⟨rfl, rfl⟩, h.fails_stale hlen (hfew (by omega)) (hy (by omega)) (by omega)⟩
  | succ n ih =>
      by_cases hjlen : j ≤ len
      · obtain ⟨order', x₁, ranks, p₀, hagree, hnext⟩ := h.next hlen hmax hj hjlen
        by_cases hmerged : p₀ < len ∧ Merged len p₀.toNat order' ranks
        · obtain ⟨hp₀, hmerged⟩ := hmerged
          let x₂ : Cells := fun k => if k < len then ranks k else y k
          have hx₂ : ∀ a < len, x₂ a = ranks a := fun a ha => if_pos ha
          have hbelow : len < j * 2 → Below len x₁ := by
            intro hlt i hi
            rw [hagree i (by omega)]
            have hbounds := h.bounds i hi
            have hone := h.pos
            have := hfew (by omega)
            omega
          obtain ⟨x₂', x₁', hagree', hfails⟩ := ih (j := j * 2) (x := x₂) (y := x₁) (by omega)
            (by omega) (hmerged.congr hx₂) (by omega) (by omega) hbelow
          refine ⟨x₁', fun k => if k < len - 1 + j * 2 then y k else x₂' k, fun i hi => ⟨?_, ?_⟩, ?_⟩
          · rw [(hagree' i (by omega)).2, hagree i hi]
          · exact if_pos (by omega)
          · rintro work work' p (_ | fuel) hreads hx hwork hp hrounds
            · rw [rounds_zero hp] at hrounds
              cases hrounds
            · rw [rounds_more hp] at hrounds
              obtain ⟨⟨work₁, p₁⟩, hround, hrest⟩ := Option.bind_eq_some_iff.mp hrounds
              have hsame : ∀ i < len + j, work.x i = x₁ i := fun i hi => by
                rw [hx, (hagree' i (by omega)).2]
              obtain ⟨rfl, -, -, hreads', hranks, hpast, hold⟩ :=
                hnext work work₁ p₁ hreads hsame hround
              refine hfails work₁ work' p₁ fuel hreads' (funext fun k => ?_) (hold.trans hx) hp₀ hrest
              by_cases hk : k < len
              · rw [hranks k hk, (hagree' k (by omega)).1, hx₂ k hk]
              · rw [hpast k (by omega), hwork]
                dsimp only
                by_cases hk' : k < len - 1 + j * 2
                · rw [if_pos hk', (hagree' k hk').1]
                  exact (if_neg hk).symm
                · exact if_neg hk'
        · refine ⟨x₁, y, fun i hi => ⟨hagree i hi, rfl⟩, ?_⟩
          rintro work work' p (_ | fuel) hreads hx - hp hrounds
          · rw [rounds_zero hp] at hrounds
            cases hrounds
          · rw [rounds_more hp] at hrounds
            obtain ⟨⟨work₁, p₁⟩, hround, -⟩ := Option.bind_eq_some_iff.mp hrounds
            obtain ⟨-, hp₀, hranks, -⟩ := hnext work work₁ p₁ hreads (fun i _ => by rw [hx]) hround
            exact absurd ⟨hp₀, hranks⟩ hmerged
      · have hone := h.pos
        exact ⟨x, y, fun _ _ => ⟨rfl, rfl⟩,
          h.fails_stale hlen (hfew (by omega)) (hy (by omega)) (by omega)⟩

theorem countValues_length {arr : List ℤ} {ws : Cells} {result : Cells × Cells}
    (h : countValues arr x ws = some result) : arr.length ≤ workSize := by
  have hend := Loop.up_partial (fun i _ => i ≤ workSize) (Nat.zero_le _) ?_ h
  · rwa [Nat.zero_add] at hend
  · rintro i ⟨x, ws⟩ s' - - hstep -
    simp only [Option.bind_eq_bind, Option.bind_eq_some_iff] at hstep
    obtain ⟨v, -, x', hstore, -⟩ := hstep
    rw [store] at hstore
    split at hstore
    · omega
    · cases hstore

theorem Sorts.rounds {arr : List ℤ} {past : ℤ} {work : Work} (h : Sorts arr past maxLen work) :
    ∃ fuel work₁ work₂, sortValues arr maxLen { work with suffixArray := fun _ => 0 } = some work₁ ∧
      SuffixArray.rounds arr.length fuel 1 1 maxLen work₁ = some work₂ ∧
      (0 < arr.length → ∃ q, q < arr.length ∧ work₂.suffixArray q + 1 = arr.length) := by
  obtain ⟨fuel, result, hnew, order, hresult, hperm, -⟩ := h
  rw [new] at hnew
  split at hnew
  · cases hnew
  · simp only [calSuffix, Option.bind_eq_bind, Option.bind_eq_some_iff] at hnew
    obtain ⟨work₂, ⟨work₁, hsort, hrounds⟩, rankArray, -, heightArray, -, heq⟩ := hnew
    refine ⟨fuel, work₁, work₂, hsort, hrounds, fun hpos => ?_⟩
    have hmem : ((arr.length - 1 : Nat) : ℤ) ∈ vector arr.length work₂.suffixArray := by
      rw [← Option.some.inj heq] at hresult
      rw [show vector arr.length work₂.suffixArray = _ from hresult]
      exact List.mem_map_of_mem (hperm.mem_iff.mpr (List.mem_range.mpr (by omega)))
    obtain ⟨q, hq, hcell⟩ := List.mem_map.mp hmem
    exact ⟨q, List.mem_range.mp hq, by omega⟩

/-- The suffixes are sorted whatever the work arrays hold, exactly for the texts that fit and
whose last letter stands nowhere else. -/
theorem suffix_array_sorts {arr : List ℤ} (hmax : maxLen ≤ 256) (hpos : 0 < arr.length)
    (hvalues : ∀ v ∈ arr, 0 ≤ v ∧ v < maxLen) :
    (∀ past work, Sorts arr past maxLen work) ↔
      arr.length ≤ 256 ∧ Suffixes.LastUnique arr := by
  constructor
  · intro h
    let x₀ : Cells := fun i => arr.getD i 0
    let blank : Work := ⟨fun _ => 0, x₀, x₀, x₀, x₀⟩
    have hlen : arr.length ≤ workSize := by
      obtain ⟨-, work₁, -, hsort, -⟩ := (h 0 blank).rounds
      simp only [sortValues, Option.bind_eq_bind, Option.bind_eq_some_iff] at hsort
      obtain ⟨ws, -, result, hcount, -⟩ := hsort
      exact countValues_length hcount
    refine ⟨hlen, ?_⟩
    by_contra hlast
    obtain ⟨b, hb, hsame, hne⟩ : ∃ b, b < arr.length ∧ arr[b]? = arr.getLast? ∧ b + 1 ≠ arr.length := by
      simpa [Suffixes.LastUnique] using hlast
    have hx₀ : ∀ i v, arr[i]? = some v → x₀ i = v := by
      intro i v hv
      show arr.getD i 0 = v
      rw [List.getD_eq_getElem?_getD, hv]
      rfl
    obtain ⟨work₁, order, -, -, hpass, hx, -⟩ := sortValues_spec hmax hlen hvalues blank
    have hmerged : Merged arr.length maxLen order x₀ := by
      refine ⟨hpass.perm, fun a ha => ?_, b, by omega, ?_⟩
      · rw [hx₀ a _ (List.getElem?_eq_getElem ha)]
        exact hvalues _ (List.getElem_mem ha)
      · rw [List.getLast?_eq_getElem?] at hsame
        have hb' := List.getElem?_eq_getElem hb
        rw [hx₀ b _ hb', hx₀ (arr.length - 1) _ (hsame.symm.trans hb')]
    obtain ⟨x', y', hagree, hfails⟩ := hmerged.exists_fails (y := x₀) hlen arr.length
      (Nat.lt_add_of_pos_left Nat.one_pos) Nat.one_pos hmax (fun h => absurd h (by omega))
      (fun h => absurd h (by omega))
    let work : Work := ⟨fun _ => 0, x', y', x₀, x₀⟩
    obtain ⟨fuel, work₁', work₂, hsort, hrounds, hmem⟩ := (h 0 work).rounds
    obtain ⟨work₁'', order', hsort', hready, hpass', hx', hpast', hy'⟩ :=
      sortValues_spec hmax hlen hvalues { work with suffixArray := fun _ => 0 }
    obtain rfl := Option.some.inj (hsort.symm.trans hsort')
    have hkeys : ∀ i < (List.range arr.length).length, work₁'.x i = work₁.x i := by
      intro i hi
      rw [List.length_range] at hi
      have hget := List.getElem?_eq_getElem hi
      rw [hx' i _ hget, hx i _ hget]
    obtain rfl := hpass'.unique hpass hkeys
    have hcells : work₁'.x = x' := by
      funext k
      by_cases hk : k < arr.length
      · have hget := List.getElem?_eq_getElem hk
        rw [hx' k _ hget, (hagree k (by omega)).1, hx₀ k _ hget]
      · exact hpast' k (Nat.le_of_not_lt hk)
    have hone : (1 : ℤ) < arr.length := by
      have := hmerged.pos
      omega
    obtain ⟨q, hq, hcell⟩ := hmem hpos
    have hbelow := hfails work₁' work₂ 1 fuel hready.reads hcells hy' hone hrounds q hq
    omega
  · rintro ⟨hlen, hlast⟩ past work
    exact sorts_of_lastUnique hmax hpos hvalues hlen hlast past work

theorem suffix_array_sorts_pair :
    (∀ past work, Sorts [1, 0] past 256 work) ↔
      [1, 0].length ≤ 256 ∧ Suffixes.LastUnique [(1 : ℤ), 0] :=
  suffix_array_sorts (by decide) (by decide) (by decide)

/-- The text of two equal letters, with that letter behind them in the array of ranks. -/
theorem suffix_array_unsorted :
    ¬Sorts [1, 1] 0 256 ⟨fun _ => 0, fun _ => 1, fun i => i, fun _ => 0, fun _ => 0⟩ := by
  rintro ⟨fuel, result, hnew, order, horder, -, hsorted⟩
  have hrun : (new 2 [1, 1] 0 256 ⟨fun _ => 0, fun _ => 1, fun i => i, fun _ => 0,
      fun _ => 0⟩).map Arrays.suffixArray = some [0, 1] := by decide +kernel
  obtain ⟨arrays, hnew₂, hvector⟩ := Option.map_eq_some_iff.mp hrun
  have hsame : result = arrays := by
    have h := new_fuel hnew (Nat.le_max_left fuel 2)
    rw [new_fuel hnew₂ (Nat.le_max_right fuel 2)] at h
    exact (Option.some.inj h).symm
  rw [hsame, hvector] at horder
  match order, horder with
  | [a, b], horder =>
      simp only [List.map_cons, List.map_nil, List.cons.injEq, and_true] at horder
      obtain ⟨rfl, rfl⟩ : a = 0 ∧ b = 1 := by omega
      exact absurd hsorted (by decide)

end SuffixArray

end RebuildTheWheel.TinySTL
