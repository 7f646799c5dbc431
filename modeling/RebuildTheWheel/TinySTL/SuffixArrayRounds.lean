import Mathlib.Data.List.Perm.Basic
import RebuildTheWheel.TinySTL.SuffixArraySort

namespace RebuildTheWheel.TinySTL

open Data

namespace SuffixArray

open CountingSort (slot StablePass)
open Suffixes (window Ranks LastUnique)

variable {len j : Nat} {order : List Nat}

/-- The items from `j` on, by their distance to it. -/
def shifted (j : Nat) (items : List Nat) : List Nat := (items.filter (j ≤ ·)).map (· - j)

theorem shifted_concat_of_le {a : Nat} (h : j ≤ a) (items : List Nat) :
    shifted j (items ++ [a]) = shifted j items ++ [a - j] := by
  simp [shifted, h]

theorem shifted_concat_of_lt {a : Nat} (h : a < j) (items : List Nat) :
    shifted j (items ++ [a]) = shifted j items := by
  simp [shifted, h]

/-- The starts of the suffixes, sorted by what stands `j` letters behind them. -/
def secondOrder (len j : Nat) (order : List Nat) : List Nat :=
  List.range' (len - j) j ++ shifted j order

theorem mem_secondOrder {a : Nat} (hperm : order.Perm (List.range len)) (hj : j ≤ len) :
    a ∈ secondOrder len j order ↔ a < len := by
  simp only [secondOrder, shifted, List.mem_append, List.mem_range'_1, List.mem_map, List.mem_filter,
    hperm.mem_iff, List.mem_range, decide_eq_true_eq]
  constructor
  · rintro (h | ⟨s, ⟨hs, hjs⟩, rfl⟩) <;> omega
  · intro ha
    by_cases h : len - j ≤ a
    · exact .inl (by omega)
    · exact .inr ⟨a + j, by omega, by omega⟩

theorem secondOrder_perm (hperm : order.Perm (List.range len)) (hj : j ≤ len) :
    (secondOrder len j order).Perm (List.range len) := by
  refine (List.perm_ext_iff_of_nodup ?_ List.nodup_range).mpr fun a => ?_
  · have horder : order.Nodup := hperm.nodup_iff.mpr List.nodup_range
    refine List.Nodup.append (List.nodup_range' ..) ?_ ?_
    · refine List.Nodup.map_on ?_ (horder.filter _)
      intro a ha b hb hab
      have ha' := of_decide_eq_true (List.mem_filter.mp ha).2
      have hb' := of_decide_eq_true (List.mem_filter.mp hb).2
      omega
    · intro a ha hmem
      obtain ⟨s, hs, rfl⟩ := List.mem_map.mp hmem
      obtain ⟨hs, hjs⟩ := List.mem_filter.mp hs
      have hlt := List.mem_range.mp (hperm.mem_iff.mp hs)
      have := of_decide_eq_true hjs
      rw [List.mem_range'_1] at ha
      omega
  · rw [mem_secondOrder hperm hj, List.mem_range]

theorem secondOrder_sorted {arr : List ℤ}
    (hsorted : order.Pairwise fun a b => window arr j a ≤ window arr j b) :
    (secondOrder arr.length j order).Pairwise fun a b =>
      window arr j (a + j) ≤ window arr j (b + j) := by
  have hnil : ∀ a ∈ List.range' (arr.length - j) j, window arr j (a + j) = [] := fun a ha =>
    Suffixes.window_of_le (by rw [List.mem_range'_1] at ha; omega)
  refine List.pairwise_append.mpr ⟨?_, ?_, ?_⟩
  · refine List.pairwise_of_forall_mem_list fun a ha b hb => ?_
    rw [hnil a ha, hnil b hb]
  · rw [shifted, List.pairwise_map, List.pairwise_filter]
    refine hsorted.imp fun {a b} hab ha hb => ?_
    rwa [Nat.sub_add_cancel (of_decide_eq_true ha), Nat.sub_add_cancel (of_decide_eq_true hb)]
  · intro a ha b hb
    rw [hnil a ha]
    exact not_lt.mp (List.not_lt_nil _)

theorem pushEnds_spec (hj : j ≤ len) (hlen : len ≤ workSize) (y : Cells) :
    ∃ p, pushEnds len j y = some p ∧ Reads p.1 (List.range' (len - j) j) ∧
      (∀ k, len ≤ k → p.1 k = y k) ∧ p.2 = j := by
  rw [pushEnds, if_pos hj]
  refine Loop.up_spec (fun i p => Reads p.1 (List.range' (len - j) (i - (len - j))) ∧
    (∀ k, len ≤ k → p.1 k = y k) ∧ p.2 = (i - (len - j) : Nat)) ?_ ?_ ?_
  · rw [Nat.sub_self]
    exact ⟨(fun i a ha => nomatch ha), fun _ _ => rfl, rfl⟩
  · rintro i ⟨y', p⟩ hi hlt ⟨hreads, hpast, hp⟩
    dsimp only at hreads hpast hp
    obtain ⟨k, rfl⟩ := Nat.exists_eq_add_of_le hi
    rw [Nat.add_sub_cancel_left] at hreads hp
    subst hp
    refine ⟨(Function.update y' k (len - j + k : Nat), (k : ℤ) + 1), ?_, ?_⟩
    · dsimp only
      rw [store_natCast (by omega)]
      rfl
    · have hnext := hreads.concat (len - j + k)
      rw [List.length_range'] at hnext
      rw [Nat.add_assoc, Nat.add_sub_cancel_left, List.range'_concat, Nat.one_mul]
      refine ⟨hnext, fun k' hk' => ?_, rfl⟩
      exact (Function.update_of_ne (by omega) ..).trans (hpast k' hk')
  · rintro p h
    rwa [Nat.add_sub_cancel_left] at h

theorem pushShifted_spec {suffixArray y : Cells} {before : List Nat}
    (hreads : Reads suffixArray order) (hlength : order.length = len) (hy : Reads y before)
    (hfits : (before ++ shifted j order).length = len) (hlen : len ≤ workSize) :
    ∃ p, pushShifted len j suffixArray y before.length = some p ∧
      Reads p.1 (before ++ shifted j order) ∧ ∀ k, len ≤ k → p.1 k = y k := by
  refine Loop.up_spec (fun i p => Reads p.1 (before ++ shifted j (order.take i)) ∧
    (∀ k, len ≤ k → p.1 k = y k) ∧
    p.2 = (before ++ shifted j (order.take i)).length) ?_ ?_ ?_
  · refine ⟨?_, fun _ _ => rfl, ?_⟩ <;> simp [shifted, hy]
  · rintro i ⟨y', p⟩ - hi ⟨hdone, hpast, hp⟩
    dsimp only at hdone hpast hp
    rw [Nat.zero_add, ← hlength] at hi
    have hs := hreads.load (List.getElem?_eq_getElem hi) hlength.le
    rw [List.take_succ_eq_append_getElem hi]
    by_cases hj : j ≤ order[i]
    · have hlt : (before ++ shifted j (order.take i)).length < len := by
        have hsub : (shifted j (order.take (i + 1))).Sublist (shifted j order) :=
          ((List.take_sublist _ order).filter _).map _
        have hle := (hsub.append_left before).length_le
        rw [List.take_succ_eq_append_getElem hi, shifted_concat_of_le hj, ← List.append_assoc,
          List.length_append, List.length_singleton] at hle
        omega
      rw [shifted_concat_of_le hj, ← List.append_assoc]
      refine ⟨(Function.update y' (before ++ shifted j (order.take i)).length
        (order[i] - j : Nat), p + 1), ?_, hdone.concat (order[i] - j), fun k hk => ?_, ?_⟩
      · dsimp only
        rw [hs, Option.bind_eq_bind, Option.bind_some, if_pos (Int.ofNat_le.mpr hj),
          ← Int.ofNat_sub hj, hp, store_natCast (Nat.lt_of_lt_of_le hlt hlen)]
        rfl
      · exact (Function.update_of_ne (by omega) ..).trans (hpast k hk)
      · rw [hp, ← List.concat_eq_append, List.length_concat]
        rfl
    · rw [shifted_concat_of_lt (Nat.lt_of_not_le hj)]
      refine ⟨(y', p), ?_, hdone, hpast, hp⟩
      dsimp only
      rw [hs, Option.bind_eq_bind, Option.bind_some, if_neg (by omega)]
      rfl
  · rintro p ⟨h, hpast, -⟩
    rw [Nat.zero_add, ← hlength, List.take_length] at h
    exact ⟨h, hpast⟩

theorem gather_spec {y : Cells} {items : List Nat} (hreads : Reads y items)
    (hlength : items.length = len) (hlen : len ≤ workSize) (hitems : ∀ a ∈ items, a < len)
    (x wv : Cells) :
    ∃ wv', gather len x y wv = some wv' ∧ ∀ i a, items[i]? = some a → wv' i = x a := by
  refine Loop.up_spec (fun i wv => ∀ k a, k < i → items[k]? = some a → wv k = x a) ?_ ?_ ?_
  · exact fun k a hk => absurd hk (Nat.not_lt_zero k)
  · intro i wv _ hi hwv
    rw [Nat.zero_add, ← hlength] at hi
    have hlt := hitems _ (List.getElem_mem hi)
    refine ⟨Function.update wv i (x items[i]), ?_, fun k a hk ha => ?_⟩
    · rw [hreads.load (List.getElem?_eq_getElem hi) (hlength.trans_le hlen), Option.bind_eq_bind,
        Option.bind_some, load_natCast (Nat.lt_of_lt_of_le hlt hlen), Option.bind_some, store_natCast (by omega)]
    · rcases Nat.lt_succ_iff_lt_or_eq.mp hk with hk | rfl
      · rw [Function.update_of_ne hk.ne, hwv k a hk ha]
      · rw [List.getElem?_eq_getElem hi] at ha
        rw [Function.update_self, Option.some.inj ha]
  · exact fun wv hwv i a ha =>
      hwv i a (by rw [Nat.zero_add, ← hlength]; exact (List.getElem?_eq_some_iff.mp ha).1) ha

/-! One round. -/

theorem cmp_spec {arr : List ℤ} {y : Cells} {a b : Nat} (hlast : LastUnique arr)
    (hlen : arr.length ≤ workSize) (hranks : Ranks y arr j) (ha : a < arr.length)
    (hb : b < arr.length) (hne : a ≠ b) :
    cmp y a b j = some (decide (window arr (j + j) a = window arr (j + j) b)) := by
  have hranks_eq := hranks.eq_iff ha hb
  rw [cmp, load_natCast (Nat.lt_of_lt_of_le ha hlen), load_natCast (Nat.lt_of_lt_of_le hb hlen)]
  simp only [Option.bind_eq_bind, Option.bind_some]
  by_cases heq : y a = y b
  · have hwindow := hranks_eq.mp heq
    have ha' := hlast.add_lt hne ha hwindow
    have hb' := hlast.add_lt hne.symm hb hwindow.symm
    rw [if_pos heq, ← Int.natCast_add, ← Int.natCast_add, load_natCast (by omega),
      load_natCast (by omega), Option.bind_some, Option.bind_some]
    refine congrArg some (decide_eq_decide.mpr ?_)
    rw [Suffixes.window_add_eq_iff, hranks.eq_iff ha' hb']
    exact (and_iff_right hwindow).symm
  · rw [if_neg heq]
    refine congrArg some (decide_eq_false ?_).symm
    rw [Suffixes.window_add_eq_iff]
    exact fun h => heq (hranks_eq.mpr h.1)

section

variable {suffixArray x y : Cells} {items : List Nat} (hreads : Reads suffixArray items)
  (hlength : items.length = len) (hlt : ∀ a ∈ items, a < len) (hlen : len ≤ workSize)

include hreads hlength hlt hlen

theorem renameStep_eq {b : Nat} (hb : b + 1 < items.length) (x : Cells) (p : ℤ) :
    renameStep len j suffixArray y (b + 1) (x, p) =
      (cmp y items[b] items[b + 1] j).map fun c =>
        (Function.update x items[b + 1] (if c then p - 1 else p), if c then p else p + 1) := by
  have hbefore : ((b + 1 : Nat) : ℤ) - 1 = b := by omega
  have hstore := store_natCast (Nat.lt_of_lt_of_le (hlt _ (List.getElem_mem hb)) hlen) x
  rw [renameStep, hbefore, hreads.load (List.getElem?_eq_getElem (Nat.lt_of_succ_lt hb)) hlength.le,
    hreads.load (List.getElem?_eq_getElem hb) hlength.le, Option.bind_eq_bind, Option.bind_some,
    Option.bind_some]
  rcases cmp y items[b] items[b + 1] j with _ | c
  · rfl
  · cases c
    · rw [Option.bind_eq_bind, Option.bind_some, if_neg Bool.false_ne_true, hstore]
      rfl
    · rw [Option.bind_eq_bind, Option.bind_some, if_pos rfl, hstore]
      rfl

theorem rename_eq (hpos : 0 < items.length) (x : Cells) :
    rename len j suffixArray x y =
      Loop.up (renameStep len j suffixArray y) 1 (len - 1) (Function.update x items[0] 0, 1) := by
  rw [rename, ← Nat.cast_zero, hreads.load (List.getElem?_eq_getElem hpos) hlength.le,
    Option.bind_eq_bind, Option.bind_some,
    store_natCast (Nat.lt_of_lt_of_le (hlt _ (List.getElem_mem hpos)) hlen), Option.bind_eq_bind,
    Option.bind_some]

end

theorem rename_spec {arr : List ℤ} {suffixArray y : Cells} (hlast : LastUnique arr)
    (hlen : arr.length ≤ workSize) (hpos : 0 < arr.length) (hreads : Reads suffixArray order)
    (hperm : order.Perm (List.range arr.length))
    (hsorted : order.Pairwise fun a b => window arr (j + j) a ≤ window arr (j + j) b)
    (hranks : Ranks y arr j) (x : Cells) :
    ∃ p, rename arr.length j suffixArray x y = some p ∧
      Suffixes.Dense (window arr (j + j)) p.1 order p.2 := by
  have hlength : order.length = arr.length := hperm.length_eq.trans List.length_range
  have hlt : ∀ a ∈ order, a < arr.length := fun a ha => List.mem_range.mp (hperm.mem_iff.mp ha)
  rw [← hlength] at hpos
  rw [rename_eq hreads hlength hlt hlen hpos]
  refine Loop.up_spec (fun i p => Suffixes.Dense (window arr (j + j)) p.1 (order.take i) p.2 ∧
    ∀ d, order[i - 1]? = some d → p.1 d = p.2 - 1) ?_ ?_ ?_
  · have hfirst : order.take 1 = [order[0]] := by
      rw [List.take_succ_eq_append_getElem hpos]
      rfl
    have hzero : Function.update x order[0] 0 order[0] = 0 := Function.update_self ..
    refine ⟨?_, fun d hd => ?_⟩
    · rw [hfirst]
      exact Suffixes.dense_singleton hzero
    · rw [Nat.sub_self, List.getElem?_eq_getElem hpos] at hd
      rw [← Option.some.inj hd]
      exact hzero
  · rintro i ⟨x, p⟩ hi hlt' ⟨hdense, hlast'⟩
    dsimp only at hdense hlast'
    obtain ⟨b, rfl⟩ := Nat.exists_eq_add_of_le' hi
    have hnext : b + 1 < order.length := by omega
    have hb : b < order.length := Nat.lt_of_succ_lt hnext
    have hmem : order[b] ∈ order.take (b + 1) := by
      rw [List.take_succ_eq_append_getElem hb]
      exact List.mem_append_right _ (List.mem_singleton_self _)
    have hnodup : order.Nodup := hperm.nodup_iff.mpr List.nodup_range
    have hsorted' (i k : Nat) (hi : i ≤ k) (hk : k < order.length) :
        window arr (j + j) order[i] ≤ window arr (j + j) order[k] := by
      rcases Nat.eq_or_lt_of_le hi with rfl | hi
      · exact le_refl _
      · exact List.pairwise_iff_getElem.mp hsorted i k _ hk hi
    have hnot : order[b + 1] ∉ order.take (b + 1) := by
      intro hmem'
      obtain ⟨i, hi', heq⟩ := List.mem_take_iff_getElem.mp hmem'
      have := (hnodup.getElem_inj_iff).mp heq
      omega
    have hcmp := cmp_spec hlast hlen hranks (hlt _ (List.getElem_mem hb))
      (hlt _ (List.getElem_mem hnext)) (ne_of_mem_of_not_mem hmem hnot)
    rw [renameStep_eq hreads hlength hlt hlen hnext, hcmp, List.take_succ_eq_append_getElem hnext]
    refine ⟨_, rfl, ?_, fun d hd => ?_⟩
    · by_cases heq : window arr (j + j) order[b] = window arr (j + j) order[b + 1]
      · rw [decide_eq_true heq]
        exact hdense.old hmem (hlast' _ (List.getElem?_eq_getElem hb)) hnot heq
      · rw [decide_eq_false heq]
        refine hdense.new (fun a ha => ?_) hnot
        obtain ⟨i, hi', rfl⟩ := List.mem_take_iff_getElem.mp ha
        have hlt := lt_of_le_of_ne (hsorted' b (b + 1) b.le_succ hnext) heq
        exact (hsorted' i b (by omega) hb).trans_lt hlt
    · rw [Nat.add_sub_cancel, List.getElem?_eq_getElem hnext] at hd
      rw [← Option.some.inj hd]
      refine (Function.update_self ..).trans ?_
      cases decide (window arr (j + j) order[b] = window arr (j + j) order[b + 1])
      · exact (Int.add_sub_cancel p 1).symm
      · rfl
  · rintro p ⟨hdense, -⟩
    rwa [← hlength, Nat.add_sub_cancel' hpos, List.take_length] at hdense

/-- The passes between the second keys and the ranks are a stable sort by the first keys. -/
theorem pass_spec {maxLen : Nat} {work : Work} {second : List Nat} {y₁ y₂ : Cells} {p₁ p₂ : ℤ}
    (hlen : len ≤ workSize) (hmax : maxLen ≤ workSize)
    (hends : pushEnds len j work.y = some (y₁, p₁))
    (hshifted : pushShifted len j work.suffixArray y₁ p₁ = some (y₂, p₂))
    (hsecond : Reads y₂ second) (hlength : second.length = len) (hmem : ∀ a ∈ second, a < len)
    (hbounds : ∀ a < len, 0 ≤ work.x a ∧ work.x a < maxLen) :
    ∃ wv ws suffixArray order', round len j maxLen work =
        (rename len j suffixArray y₂ work.x).map (fun (x, p) =>
          ({ suffixArray := suffixArray, x := x, y := work.x, wv := wv, ws := ws }, p)) ∧
      Reads suffixArray order' ∧ StablePass wv second order' ∧
      ∀ i a, second[i]? = some a → wv i = work.x a := by
  obtain ⟨wv, hgather, hwv⟩ := gather_spec hsecond hlength hlen hmem work.x work.wv
  have hkeys : ∀ i < len, 0 ≤ wv i ∧ wv i < maxLen := by
    intro i hi
    rw [← hlength] at hi
    rw [hwv i _ (List.getElem?_eq_getElem hi)]
    exact hbounds _ (hmem _ (List.getElem_mem hi))
  obtain ⟨ws₁, hclear, hws₁⟩ := clear_spec hmax work.ws
  obtain ⟨ws₂, hcount, hws₂⟩ := countKeys_spec hmax hlen hkeys hws₁
  obtain ⟨ws₃, haccumulate, hws₃⟩ := accumulate_spec hmax (fun i hi => (hkeys i hi).1) hws₂
  have hitem : ∀ i a : Nat, second[i]? = some a → load workSize y₂ i = some (a : ℤ) :=
    fun i a ha => Reads.load hsecond ha (hlength.trans_le hlen)
  obtain ⟨⟨ws₄, suffixArray⟩, order', hplace, hreads', hpass⟩ :=
    place_list hlength hmax hlen hkeys hws₃ hitem work.suffixArray
  refine ⟨wv, ws₄, suffixArray, order', ?_, hreads', hpass, hwv⟩
  simp only [round, hends, hshifted, hgather, hclear, hcount, haccumulate, hplace,
    Option.bind_eq_bind, Option.bind_some]
  rw [Option.map_eq_bind]
  rfl

theorem sorted_spec {maxLen : Nat} {work : Work} (hlen : len ≤ workSize) (hmax : maxLen ≤ workSize)
    (hj : j ≤ len) (hreads : Reads work.suffixArray order) (hperm : order.Perm (List.range len))
    (hbounds : ∀ a < len, 0 ≤ work.x a ∧ work.x a < maxLen) :
    ∃ y wv ws suffixArray order', round len j maxLen work =
        (rename len j suffixArray y work.x).map (fun (x, p) =>
          ({ suffixArray := suffixArray, x := x, y := work.x, wv := wv, ws := ws }, p)) ∧
      Reads suffixArray order' ∧ StablePass wv (secondOrder len j order) order' ∧
      (∀ i a, (secondOrder len j order)[i]? = some a → wv i = work.x a) ∧
      ∀ k, len ≤ k → y k = work.y k := by
  have hlength : (secondOrder len j order).length = len :=
    (secondOrder_perm hperm hj).length_eq.trans List.length_range
  obtain ⟨⟨y₁, p₁⟩, hends, hy₁, hpast₁, hp₁⟩ := pushEnds_spec hj hlen work.y
  dsimp only at hy₁ hpast₁ hp₁
  have hends_length : p₁ = (List.range' (len - j) j).length := by
    rw [hp₁, List.length_range']
  obtain ⟨⟨y₂, p₂⟩, hshifted, hy₂, hpast₂⟩ :=
    pushShifted_spec hreads (hperm.length_eq.trans List.length_range) hy₁ hlength hlen
  rw [← hends_length] at hshifted
  have hmem : ∀ a ∈ secondOrder len j order, a < len := fun a ha =>
    (mem_secondOrder hperm hj).mp ha
  obtain ⟨wv, ws, suffixArray, order', hround, hreads', hpass, hwv⟩ :=
    pass_spec hlen hmax hends hshifted hy₂ hlength hmem hbounds
  exact ⟨y₂, wv, ws, suffixArray, order', hround, hreads', hpass, hwv,
    fun k hk => (hpast₂ k hk).trans (hpast₁ k hk)⟩

/-- A round doubles the number of letters that the order regards. -/
theorem round_spec {arr : List ℤ} {maxLen : Nat} {work : Work} (hlast : LastUnique arr)
    (hlen : arr.length ≤ workSize) (hpos : 0 < arr.length) (hmax : maxLen ≤ workSize)
    (hj : j ≤ arr.length) (h : Ready arr j maxLen order work) :
    ∃ work' p order', round arr.length j maxLen work = some (work', p) ∧
      Ready arr (j + j) p.toNat order' work' ∧
      Suffixes.Dense (window arr (j + j)) work'.x order' p := by
  obtain ⟨y, wv, ws, suffixArray, order', hround, hreads, hpass, hwv, -⟩ :=
    sorted_spec hlen hmax hj h.reads h.perm h.bounds
  have hperm : order'.Perm (List.range arr.length) := hpass.perm.trans (secondOrder_perm h.perm hj)
  have hlt : ∀ a ∈ order', a < arr.length := fun a ha => List.mem_range.mp (hperm.mem_iff.mp ha)
  have hsorted : order'.Pairwise fun a b => window arr (j + j) a ≤ window arr (j + j) b := by
    refine (hpass.pairwise hwv (secondOrder_sorted h.sorted)).imp_of_mem fun {a b} ha hb hab => ?_
    rw [← not_lt, Suffixes.window_add_lt_iff, ← h.ranks b a (hlt b hb) (hlt a ha),
      ← h.ranks.eq_iff (hlt b hb) (hlt a ha)]
    rintro (hrank | ⟨hrank, hwindow⟩)
    · rcases hab with hab | ⟨hab, -⟩ <;> omega
    · rcases hab with hab | ⟨-, hab⟩
      · omega
      · exact not_lt_of_ge hab hwindow
  obtain ⟨⟨x, p⟩, hrename, hdense⟩ := rename_spec hlast hlen hpos hreads hperm hsorted h.ranks y
  rw [hrename] at hround
  refine ⟨_, p, order', hround, ⟨hreads, hperm, hsorted, ?_, ?_⟩, hdense⟩
  · intro a b ha hb
    exact hdense.ranks a (hperm.mem_iff.mpr (List.mem_range.mpr ha)) b
      (hperm.mem_iff.mpr (List.mem_range.mpr hb))
  · intro a ha
    have hbounds := hdense.bounds a (hperm.mem_iff.mpr (List.mem_range.mpr ha))
    rwa [Int.toNat_of_nonneg (Int.le_of_lt hdense.pos)]

theorem rounds_done {p : ℤ} (h : ¬p < len) (fuel j maxLen : Nat) (work : Work) :
    rounds len fuel j p maxLen work = some work := by
  rw [rounds.eq_def]
  exact if_neg h

theorem rounds_zero {p : ℤ} (h : p < len) (j maxLen : Nat) (work : Work) :
    rounds len 0 j p maxLen work = none := by
  rw [rounds.eq_def]
  exact if_pos h

theorem rounds_more {p : ℤ} (h : p < len) (fuel j maxLen : Nat) (work : Work) :
    rounds len (fuel + 1) j p maxLen work =
      (round len j maxLen work).bind fun (work, p) => rounds len fuel (j * 2) p p.toNat work := by
  rw [rounds.eq_def]
  exact if_pos h

theorem rounds_fuel {fuel : Nat} {p : ℤ} {maxLen : Nat} {work result : Work}
    (h : rounds len fuel j p maxLen work = some result) {fuel' : Nat} (hle : fuel ≤ fuel') :
    rounds len fuel' j p maxLen work = some result := by
  induction fuel generalizing j p maxLen work fuel' with
  | zero =>
      by_cases hlt : p < len
      · simp [rounds_zero hlt] at h
      · rwa [rounds_done hlt] at h ⊢
  | succ fuel ih =>
      by_cases hlt : p < len
      · obtain ⟨fuel', rfl⟩ := Nat.exists_eq_add_of_lt (Nat.lt_of_lt_of_le fuel.succ_pos hle)
        rw [Nat.zero_add]
        rw [rounds_more hlt, Option.bind_eq_some_iff] at h ⊢
        obtain ⟨next, hround, hrest⟩ := h
        exact ⟨next, hround, ih hrest (by omega)⟩
      · rwa [rounds_done hlt] at h ⊢

theorem rounds_spec {arr : List ℤ} {maxLen fuel : Nat} {work : Work} {p : ℤ}
    (hlast : LastUnique arr) (hlen : arr.length ≤ workSize) (hpos : 0 < arr.length)
    (hmax : maxLen ≤ workSize) (hj : 0 < j) (hfuel : arr.length ≤ fuel + j)
    (h : Ready arr j maxLen order work) (hp : p ≤ arr.length)
    (hmore : p < arr.length → j < arr.length)
    (hdone : p = arr.length → order.Pairwise fun a b => window arr j a < window arr j b) :
    ∃ work' order', rounds arr.length fuel j p maxLen work = some work' ∧
      Reads work'.suffixArray order' ∧ order'.Perm (List.range arr.length) ∧
      order'.Pairwise fun a b => arr.drop a < arr.drop b := by
  induction fuel generalizing j p maxLen order work with
  | zero =>
      have hnot : ¬p < arr.length := fun hlt => by
        have := hmore hlt
        omega
      rw [rounds_done hnot]
      refine ⟨work, order, rfl, h.reads, h.perm, ?_⟩
      exact (hdone (by omega)).imp Suffixes.drop_lt_of_window_lt
  | succ fuel ih =>
      by_cases hlt : p < arr.length
      · obtain ⟨work', p', order', hround, hready, hdense⟩ :=
          round_spec hlast hlen hpos hmax (hmore hlt).le h
        have hlength : order'.length = arr.length := hready.perm.length_eq.trans List.length_range
        have hp' : p' ≤ arr.length := by
          rw [← hlength]
          exact hdense.le
        rw [rounds_more hlt, hround, Option.bind_some, Nat.mul_two]
        refine ih (by omega) (by omega) (by omega) hready hp' ?_ ?_
        · intro hlt'
          rw [← hlength] at hlt'
          obtain ⟨a, ha, b, hb, hne, heq⟩ := hdense.repeated hlt'
          have := hlast.add_lt hne (List.mem_range.mp (hready.perm.mem_iff.mp ha)) heq
          omega
        · intro heq
          rw [← hlength] at heq
          exact hdense.distinct heq
      · rw [rounds_done hlt]
        refine ⟨work, order, rfl, h.reads, h.perm, ?_⟩
        exact (hdone (by omega)).imp Suffixes.drop_lt_of_window_lt

/-! The arrays of ranks and heights, which are read off the order. -/

theorem increment_eq {i : ℤ} (hi : i < 2 ^ 31 - 1) : increment i = some (i + 1) := if_pos hi

theorem loadText_defined (arr : List ℤ) (past : ℤ) {j : Nat} (hj : j ≤ arr.length) :
    ∃ v, loadText arr (some past) j = some v := by
  have hlt : j < (arr ++ [past]).length := by
    rw [List.length_append, List.length_singleton]
    exact Nat.lt_succ_of_le hj
  rw [loadText, if_pos (Int.natCast_nonneg j), Int.toNat_natCast, Option.toList_some,
    List.getElem?_eq_getElem hlt]
  exact ⟨_, rfl⟩

theorem calRank_spec {suffixArray : Cells} (hreads : Reads suffixArray order)
    (hperm : order.Perm (List.range len)) (hlen : len < 2 ^ 31) :
    ∃ rankArray, calRank len suffixArray = some rankArray := by
  have hlength : order.length = len := hperm.length_eq.trans List.length_range
  refine Loop.up_defined (fun i rankArray _ hi => ?_) _
  rw [Nat.zero_add, ← hlength] at hi
  have hlt := List.mem_range.mp (hperm.mem_iff.mp (List.getElem_mem hi))
  rw [rankStep, hreads.load (List.getElem?_eq_getElem hi) hlength.le, Option.bind_eq_bind,
    Option.bind_some, store_natCast hlt, Option.bind_eq_bind, Option.bind_some,
    increment_eq (by omega)]
  exact ⟨_, rfl⟩

theorem commonLength_spec (arr : List ℤ) (past : ℤ) {fuel j k n : Nat} (hn : n ≤ arr.length)
    (hj : j ≤ arr.length) (hk : k ≤ arr.length) (hnj : n ≤ j) (hlen : arr.length < 2 ^ 31)
    (hfuel : arr.length < fuel + j) :
    ∃ m, commonLength arr (some past) fuel j k n = some m := by
  induction fuel generalizing j k n with
  | zero => omega
  | succ fuel ih =>
      obtain ⟨v, hv⟩ := loadText_defined arr past hj
      obtain ⟨w, hw⟩ := loadText_defined arr past hk
      rw [commonLength, hv, hw]
      simp only [Option.bind_eq_bind, Option.bind_some]
      split
      · rename_i h
        rw [increment_eq (by omega), increment_eq (by omega), increment_eq (by omega)]
        exact ih (j := j + 1) (k := k + 1) (n := n + 1) (by omega) (by omega) (by omega)
          (by omega) (by omega)
      · exact ⟨n, rfl⟩

theorem calHeight_spec {arr : List ℤ} {suffixArray : Cells} (hreads : Reads suffixArray order)
    (hperm : order.Perm (List.range arr.length)) (hpos : 0 < arr.length)
    (hlen : arr.length < 2 ^ 31) (past : ℤ) :
    ∃ heightArray, calHeight arr (some past) suffixArray = some heightArray := by
  have hlength : order.length = arr.length := hperm.length_eq.trans List.length_range
  rw [calHeight, if_neg (Nat.ne_of_gt hpos)]
  refine Loop.up_defined (fun i heightArray _ hi => ?_) _
  rw [Nat.zero_add] at hi
  have hi₁ : i < order.length := by omega
  have hi₂ : i + 1 < order.length := by omega
  have hlt (k : Nat) (hk : k < order.length) : order[k] ≤ arr.length :=
    Nat.le_of_lt (List.mem_range.mp (hperm.mem_iff.mp (List.getElem_mem hk)))
  have hfuel : arr.length < arr.length + 1 + order[i] := by omega
  obtain ⟨n, hn⟩ := commonLength_spec arr past (Nat.zero_le _) (hlt i hi₁) (hlt (i + 1) hi₂)
    (Nat.zero_le _) hlen hfuel
  rw [heightStep, hreads.load (List.getElem?_eq_getElem hi₁) hlength.le, Option.bind_eq_bind,
    Option.bind_some, ← Int.natCast_succ, hreads.load (List.getElem?_eq_getElem hi₂) hlength.le,
    Option.bind_some, ← Int.natCast_zero, hn, Option.bind_eq_bind, Option.bind_some,
    store_natCast hi, Option.bind_some, increment_eq (by omega)]
  exact ⟨_, rfl⟩

/-- The constructor ends inside its arrays, with the suffixes in order. -/
def Sorts (arr : List ℤ) (past : ℤ) (maxLen : Nat) (work : Work) : Prop :=
  ∃ fuel result, new fuel arr past maxLen work = some result ∧
    ∃ order : List Nat, result.suffixArray = order.map Nat.cast ∧
      order.Perm (List.range arr.length) ∧ order.Pairwise fun a b => arr.drop a < arr.drop b

/-- More fuel changes nothing. -/
theorem new_fuel {fuel fuel' : Nat} {arr : List ℤ} {past : ℤ} {maxLen : Nat} {work : Work}
    {result : Arrays} (h : new fuel arr past maxLen work = some result) (hle : fuel ≤ fuel') :
    new fuel' arr past maxLen work = some result := by
  by_cases hmax : maxLen > 256
  · simp [new, hmax] at h
  · simp only [new, calSuffix, hmax, if_false, Option.bind_eq_bind, Option.bind_assoc,
      Option.bind_eq_some_iff] at h ⊢
    obtain ⟨work₁, hsort, work₂, hrounds, hrest⟩ := h
    exact ⟨work₁, hsort, work₂, rounds_fuel hrounds hle, hrest⟩

theorem sorts_of_lastUnique {arr : List ℤ} {maxLen : Nat} (hmax : maxLen ≤ 256)
    (hpos : 0 < arr.length) (hvalues : ∀ v ∈ arr, 0 ≤ v ∧ v < maxLen) (hlen : arr.length ≤ 256)
    (hlast : LastUnique arr) (past : ℤ) (work : Work) : Sorts arr past maxLen work := by
  obtain ⟨work₁, order₁, hsort, hready, -⟩ :=
    sortValues_spec hmax hlen hvalues { work with suffixArray := fun _ => 0 }
  have hlength₁ : order₁.length = arr.length := hready.perm.length_eq.trans List.length_range
  have hdone : (1 : ℤ) = arr.length →
      order₁.Pairwise fun a b => window arr 1 a < window arr 1 b := by
    intro hone
    obtain ⟨a, rfl⟩ := List.length_eq_one_iff.mp (show order₁.length = 1 by omega)
    exact List.pairwise_singleton ..
  obtain ⟨work₂, order, hrounds, hreads, hperm, hpairwise⟩ :=
    rounds_spec hlast hlen hpos hmax Nat.one_pos (Nat.le_succ arr.length) hready (by omega)
      (by omega) hdone
  obtain ⟨rankArray, hrank⟩ := calRank_spec hreads hperm (by omega)
  obtain ⟨heightArray, hheight⟩ := calHeight_spec hreads hperm hpos (by omega) past
  have hlength : order.length = arr.length := hperm.length_eq.trans List.length_range
  refine ⟨arr.length, {
    suffixArray := vector arr.length work₂.suffixArray
    rankArray := vector arr.length rankArray
    heightArray := vector (arr.length - 1) heightArray }, ?_, order, ?_, hperm, hpairwise⟩
  · rw [new, if_neg (by omega), calSuffix, hsort]
    simp only [Option.bind_eq_bind, Option.bind_some, hrounds, hrank, hheight]
    rfl
  · refine List.ext_getElem? fun i => ?_
    rw [vector, List.getElem?_map, List.getElem?_map, ← hlength]
    by_cases hi : i < order.length
    · rw [List.getElem?_range hi, List.getElem?_eq_getElem hi, Option.map_some, Option.map_some,
        hreads i _ (List.getElem?_eq_getElem hi)]
    · rw [List.getElem?_eq_none (by simpa using hi), List.getElem?_eq_none (Nat.le_of_not_lt hi)]
      rfl

end SuffixArray

end RebuildTheWheel.TinySTL
