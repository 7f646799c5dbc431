import Mathlib.Data.Int.Cast.Lemmas
import Mathlib.Data.List.GetD
import Mathlib.Data.List.Range
import RebuildTheWheel.TinySTL.SuffixArray

namespace RebuildTheWheel.TinySTL

open Data

namespace SuffixArray

/-! The passes over the arrays: clearing, counting, accumulating and placing make a stable
counting sort. -/

@[simp] theorem load_natCast {bound i : Nat} (hi : i < bound) (cells : Cells) :
    load bound cells i = some (cells i) := by
  rw [load, if_pos ⟨Int.natCast_nonneg i, Int.ofNat_lt.mpr hi⟩, Int.toNat_natCast]

@[simp] theorem store_natCast {bound i : Nat} (hi : i < bound) (cells : Cells) (v : ℤ) :
    store bound cells i v = some (Function.update cells i v) := by
  rw [store, if_pos ⟨Int.natCast_nonneg i, Int.ofNat_lt.mpr hi⟩, Int.toNat_natCast]

open CountingSort (below equal slot)

variable {len m : Nat} {keys : Cells}

theorem below_succ (keys : Cells) (n : Nat) (c : ℤ) :
    below keys n (c + 1) = below keys n c + equal keys n c := by
  induction n with
  | zero => rfl
  | succ n ih =>
      simp only [below, equal, Nat.count_succ] at ih ⊢
      rw [ih]
      rcases lt_trichotomy (keys n) c with h | h | h
      · rw [if_pos (by omega), if_pos h, if_neg h.ne]
        omega
      · rw [if_pos (by omega), if_neg (by omega), if_pos h]
        omega
      · rw [if_neg (by omega), if_neg h.asymm, if_neg h.ne']
        rfl

theorem below_zero (hkeys : ∀ i < len, 0 ≤ keys i) : below keys len 0 = 0 := by
  rw [below, Nat.count_iff_forall_not]
  exact fun i hi => not_lt_of_ge (hkeys i hi)

theorem clear_spec (hm : m ≤ workSize) (ws : Cells) :
    ∃ ws', clear m ws = some ws' ∧ ∀ c, c < m → ws' c = 0 := by
  refine Loop.up_spec (fun i ws => ∀ c, c < i → ws c = 0) ?_ ?_ ?_
  · exact fun c hc => absurd hc (Nat.not_lt_zero c)
  · intro i ws _ hi hws
    refine ⟨_, store_natCast (by omega) ws 0, fun c hc => ?_⟩
    rcases Nat.lt_succ_iff_lt_or_eq.mp hc with hc | rfl
    · rw [Function.update_of_ne hc.ne, hws c hc]
    · exact Function.update_self ..
  · exact fun ws hws c hc => hws c (by omega)

/-- The counters stand for the first `i` keys. -/
def Counted (keys : Cells) (m i : Nat) (ws : Cells) : Prop := ∀ c : Nat, c < m → ws c = equal keys i c

theorem Counted.countKey (h : Counted keys m i ws) (hm : m ≤ workSize) (hlt : keys i < m)
    (hkey : 0 ≤ keys i) :
    ∃ ws', countKey ws (keys i) = some ws' ∧ Counted keys m (i + 1) ws' := by
  obtain ⟨k, hk⟩ := Int.eq_ofNat_of_zero_le hkey
  have hkm : k < m := by omega
  refine ⟨Function.update ws k (ws k + 1), ?_, fun c hc => ?_⟩
  · rw [SuffixArray.countKey, hk, load_natCast (by omega), Option.bind_eq_bind, Option.bind_some,
      store_natCast (by omega)]
  · rw [equal, Nat.count_succ, ← equal]
    by_cases hck : c = k
    · subst hck
      rw [Function.update_self, h c hc, if_pos hk]
      rfl
    · rw [Function.update_of_ne hck, h c hc, if_neg (by omega)]
      rfl

theorem Counted.congr {keys keys' ws : Cells} (h : Counted keys m i ws)
    (hkeys : ∀ k < i, keys k = keys' k) : Counted keys' m i ws := by
  intro c hc
  have hequal : equal keys i c = equal keys' i c :=
    CountingSort.count_congr fun k hk => by rw [hkeys k hk]
  rw [h c hc, hequal]

theorem countKeys_spec {ws : Cells} (hm : m ≤ workSize) (hlen : len ≤ workSize)
    (hkeys : ∀ i < len, 0 ≤ keys i ∧ keys i < m) (hws : ∀ c : Nat, c < m → ws c = 0) :
    ∃ ws', countKeys len keys ws = some ws' ∧ Counted keys m len ws' := by
  refine Loop.up_spec (fun i ws => Counted keys m i ws) hws ?_ ?_
  · intro i ws _ hi h
    rw [Nat.zero_add] at hi
    rw [load_natCast (Nat.lt_of_lt_of_le hi hlen), Option.bind_eq_bind, Option.bind_some]
    exact h.countKey hm (hkeys i hi).2 (hkeys i hi).1
  · intro ws h
    rwa [Nat.zero_add] at h

theorem countValues_spec {arr : List ℤ} {ws : Cells} (hm : m ≤ workSize)
    (hlen : arr.length ≤ workSize) (hvalues : ∀ v ∈ arr, 0 ≤ v ∧ v < m)
    (hws : ∀ c : Nat, c < m → ws c = 0) (x : Cells) :
    ∃ p, countValues arr x ws = some p ∧ (∀ i v, arr[i]? = some v → p.1 i = v) ∧
      (∀ i, arr.length ≤ i → p.1 i = x i) ∧ Counted p.1 m arr.length p.2 := by
  refine Loop.up_spec (fun i p => (∀ k v, k < i → arr[k]? = some v → p.1 k = v) ∧
    (∀ k, arr.length ≤ k → p.1 k = x k) ∧ Counted p.1 m i p.2) ?_ ?_ ?_
  · exact ⟨fun k v hk => absurd hk (Nat.not_lt_zero k), fun _ _ => rfl, hws⟩
  · rintro i ⟨x', ws⟩ - hi ⟨hx, hpast, hws⟩
    dsimp only at hx hpast hws
    rw [Nat.zero_add] at hi
    obtain ⟨hge, hlt⟩ := hvalues _ (List.getElem_mem hi)
    have hself : Function.update x' i arr[i] i = arr[i] := Function.update_self ..
    have hcounted : Counted (Function.update x' i arr[i]) m i ws :=
      Counted.congr hws fun k hk => (Function.update_of_ne hk.ne ..).symm
    obtain ⟨ws', hcount, hws'⟩ := hcounted.countKey hm (by rwa [hself]) (by rwa [hself])
    rw [hself] at hcount
    refine ⟨(Function.update x' i arr[i], ws'), ?_, ?_, fun k hk => ?_, hws'⟩
    · simp only [List.getElem?_eq_getElem hi, store_natCast (Nat.lt_of_lt_of_le hi hlen), hcount,
        Option.bind_eq_bind, Option.bind_some]
      rfl
    · intro k v hk hv
      rcases Nat.lt_succ_iff_lt_or_eq.mp hk with hk | rfl
      · exact (Function.update_of_ne hk.ne ..).trans (hx k v hk hv)
      · rw [List.getElem?_eq_getElem hi] at hv
        exact hself.trans (Option.some.inj hv)
    · exact (Function.update_of_ne (by omega) ..).trans (hpast k hk)
  · rintro p ⟨hx, hpast, hws⟩
    rw [Nat.zero_add] at hx hws
    exact ⟨fun i v hi => hx i v (List.getElem?_eq_some_iff.mp hi).1 hi, hpast, hws⟩

theorem accumulate_spec (hm : m ≤ workSize) (hkeys : ∀ i < len, 0 ≤ keys i)
    (h : Counted keys m len ws) :
    ∃ ws', accumulate m ws = some ws' ∧
      ∀ c : Nat, c < m → ws' c = below keys len c + equal keys len c := by
  refine Loop.up_spec (fun i ws => ∀ c : Nat, c < m →
    ws c = if c < i then ((below keys len c + equal keys len c : Nat) : ℤ) else equal keys len c)
    ?_ ?_ ?_
  · intro c hc
    rw [h c hc]
    split
    · obtain rfl : c = 0 := by omega
      rw [Nat.cast_zero, below_zero hkeys, Nat.zero_add]
    · rfl
  · intro i ws hi hlt hws
    obtain ⟨b, rfl⟩ : ∃ b, i = b + 1 := ⟨i - 1, by omega⟩
    have hb : ((b + 1 : Nat) : ℤ) - 1 = (b : ℤ) := by omega
    refine ⟨Function.update ws (b + 1) (ws (b + 1) + ws b), ?_, fun c hc => ?_⟩
    · rw [load_natCast (by omega), hb, Option.bind_eq_bind, Option.bind_some,
        load_natCast (by omega), Option.bind_some, store_natCast (by omega)]
    · by_cases hcb : c = b + 1
      · subst hcb
        rw [Function.update_self, hws _ hc, hws b (by omega), if_neg (Nat.lt_irrefl _),
          if_pos b.lt_succ_self, if_pos (b + 1).lt_succ_self, Nat.cast_succ, below_succ]
        omega
      · rw [Function.update_of_ne hcb, hws c hc]
        exact if_congr (by omega) rfl rfl
  · intro ws hws c hc
    rw [hws c hc, if_pos (by omega), Nat.cast_add]

theorem place_spec {ws : Cells} (hm : m ≤ workSize) (hlen : len ≤ workSize)
    (hkeys : ∀ i < len, 0 ≤ keys i ∧ keys i < m)
    (hws : ∀ c : Nat, c < m → ws c = below keys len c + equal keys len c)
    {item : Nat → Option ℤ} {v : Cells} (hitem : ∀ i < len, item i = some (v i))
    (suffixArray : Cells) :
    ∃ p, place len keys item ws suffixArray = some p ∧
      ∀ i < len, p.2 (slot keys len i) = v i := by
  refine Loop.down_spec (fun i p => (∀ c : Nat, c < m → p.1 c = below keys len c + equal keys i c) ∧
    ∀ k, i ≤ k → k < len → p.2 (slot keys len k) = v k) ?_ ?_ ?_
  · exact ⟨hws, fun k hk hlt => absurd hlt (Nat.not_lt_of_le hk)⟩
  · rintro i ⟨ws, suffixArray⟩ hi ⟨hws, hplaced⟩
    dsimp only at hws hplaced
    obtain ⟨k, hk⟩ := Int.eq_ofNat_of_zero_le (hkeys i hi).1
    have hkm : k < m := by have := (hkeys i hi).2; omega
    have hequal : equal keys (i + 1) k = equal keys i k + 1 := by
      rw [equal, Nat.count_succ, if_pos hk]
      rfl
    have hslot : (slot keys len i : ℤ) = below keys len k + equal keys i k := by
      rw [slot, hk]
      rfl
    have hc : ws k - 1 = (slot keys len i : ℤ) := by
      rw [hws k hkm, hequal, hslot]
      omega
    refine ⟨(Function.update ws k (slot keys len i),
      Function.update suffixArray (slot keys len i) (v i)), ?_, fun c hcm => ?_, fun k' hk' hlt => ?_⟩
    · simp only [load_natCast (Nat.lt_of_lt_of_le hi hlen), hk,
        load_natCast (Nat.lt_of_lt_of_le hkm hm), hc, store_natCast (Nat.lt_of_lt_of_le hkm hm),
        hitem i hi, store_natCast (CountingSort.slot_lt hi), Option.bind_eq_bind, Option.bind_some]
      rfl
    · by_cases hck : c = k
      · subst hck
        exact (Function.update_self ..).trans hslot
      · have hother : equal keys (i + 1) c = equal keys i c := by
          rw [equal, Nat.count_succ, if_neg (by omega)]
          rfl
        exact (Function.update_of_ne hck ..).trans (by rw [hws c hcm, hother])
    · rcases Nat.eq_or_lt_of_le hk' with rfl | hik
      · exact Function.update_self ..
      · refine (Function.update_of_ne (fun heq => hik.ne ?_) ..).trans (hplaced k' hik hlt)
        exact CountingSort.slot_inj hi hlt heq.symm
  · exact fun p hp i hi => hp.2 i (Nat.zero_le i) hi

/-! Arrays that hold a list of indices. -/

def Reads (cells : Cells) (items : List Nat) : Prop := ∀ i (a : Nat), items[i]? = some a → cells i = a

theorem Reads.load {items : List Nat} {cells : Cells} {bound i a : Nat} (h : Reads cells items)
    (hi : items[i]? = some a) (hbound : items.length ≤ bound) :
    load bound cells i = some (a : ℤ) := by
  have hlt := (List.getElem?_eq_some_iff.mp hi).1
  rw [load_natCast (Nat.lt_of_lt_of_le hlt hbound), h i a hi]

theorem Reads.concat {items : List Nat} {cells : Cells} (h : Reads cells items) (a : Nat) :
    Reads (Function.update cells items.length a) (items ++ [a]) := by
  intro i b hb
  rcases Nat.lt_trichotomy i items.length with hi | rfl | hi
  · rw [List.getElem?_append_left hi] at hb
    rw [Function.update_of_ne hi.ne]
    exact h i b hb
  · rw [List.getElem?_concat_length] at hb
    rw [Function.update_self, Option.some.inj hb]
  · rw [List.getElem?_eq_none (by rw [List.length_append]; exact hi)] at hb
    cases hb

theorem place_list {items : List Nat} {ws : Cells} (hitems : items.length = len)
    (hm : m ≤ workSize) (hlen : len ≤ workSize) (hkeys : ∀ i < len, 0 ≤ keys i ∧ keys i < m)
    (hws : ∀ c : Nat, c < m → ws c = below keys len c + equal keys len c)
    {item : Nat → Option ℤ} (hitem : ∀ i (a : Nat), items[i]? = some a → item i = some (a : ℤ))
    (suffixArray : Cells) :
    ∃ p after, place len keys item ws suffixArray = some p ∧ Reads p.2 after ∧
      CountingSort.StablePass keys items after := by
  subst hitems
  have hvalue : ∀ i < items.length, item i = some ((items.getD i 0 : Nat) : ℤ) := fun i hi =>
    hitem i _ (by rw [List.getD_eq_getElem _ _ hi, List.getElem?_eq_getElem hi])
  obtain ⟨p, hplace, hp⟩ := place_spec hm hlen hkeys hws hvalue suffixArray
  have hcell (i : Nat) (hi : i < items.length) : p.2 (slot keys items.length i) = items[i] := by
    rw [hp i hi, List.getD_eq_getElem _ _ hi]
  refine ⟨p, (List.range items.length).map fun q => (p.2 q).toNat, hplace, ?_, ?_, ?_⟩
  · intro q a ha
    have hq : q < items.length := by
      have hlt := (List.getElem?_eq_some_iff.mp ha).1
      rwa [List.length_map, List.length_range] at hlt
    rw [List.getElem?_map, List.getElem?_range hq, Option.map_some] at ha
    obtain ⟨i, hi, rfl⟩ : ∃ i, i < items.length ∧ slot keys items.length i = q :=
      CountingSort.exists_slot hq
    rw [hcell i hi, Int.toNat_natCast] at ha
    rw [hcell i hi, Option.some.inj ha]
  · rw [List.length_map, List.length_range]
  · intro i hi
    rw [List.getElem?_map, List.getElem?_range (CountingSort.slot_lt hi), Option.map_some,
      hcell i hi, Int.toNat_natCast, List.getElem?_eq_getElem hi]

open Suffixes (window Ranks LastUnique)

/-- The state between two rounds: the suffixes are sorted by their first `n` letters. -/
structure Ready (arr : List ℤ) (n maxLen : Nat) (order : List Nat) (work : Work) : Prop where
  reads : Reads work.suffixArray order
  perm : order.Perm (List.range arr.length)
  sorted : order.Pairwise fun a b => window arr n a ≤ window arr n b
  ranks : Ranks work.x arr n
  bounds : ∀ a < arr.length, 0 ≤ work.x a ∧ work.x a < maxLen

theorem sortValues_spec {arr : List ℤ} {maxLen : Nat} (hmax : maxLen ≤ workSize)
    (hlen : arr.length ≤ workSize) (hvalues : ∀ v ∈ arr, 0 ≤ v ∧ v < maxLen) (work : Work) :
    ∃ work' order, sortValues arr maxLen work = some work' ∧ Ready arr 1 maxLen order work' ∧
      CountingSort.StablePass work'.x (List.range arr.length) order ∧
      (∀ i v, arr[i]? = some v → work'.x i = v) ∧
      (∀ i, arr.length ≤ i → work'.x i = work.x i) ∧ work'.y = work.y := by
  obtain ⟨ws₁, hclear, hws₁⟩ := clear_spec hmax work.ws
  obtain ⟨⟨x, ws₂⟩, hcount, hx, hpast, hws₂⟩ := countValues_spec hmax hlen hvalues hws₁ work.x
  dsimp only at hx hpast hws₂
  have hkeys : ∀ i < arr.length, 0 ≤ x i ∧ x i < maxLen := by
    intro i hi
    rw [hx i _ (List.getElem?_eq_getElem hi)]
    exact hvalues _ (List.getElem_mem hi)
  obtain ⟨ws₃, haccumulate, hws₃⟩ := accumulate_spec hmax (fun i hi => (hkeys i hi).1) hws₂
  have hitem : ∀ (i a : Nat), (List.range arr.length)[i]? = some a → some (i : ℤ) = some (a : ℤ) := by
    intro i a ha
    obtain ⟨_, rfl⟩ := List.getElem?_eq_some_iff.mp ha
    rw [List.getElem_range]
  obtain ⟨⟨ws₄, suffixArray⟩, order, hplace, hreads, hpass⟩ :=
    place_list List.length_range hmax hlen hkeys hws₃ hitem work.suffixArray
  have hwindow : ∀ a < arr.length, window arr 1 a = [x a] := by
    intro a ha
    rw [window, List.drop_eq_getElem_cons ha, List.take_succ_cons, List.take_zero,
      hx a _ (List.getElem?_eq_getElem ha)]
  have hranks : Ranks x arr 1 := by
    intro a b ha hb
    rw [hwindow a ha, hwindow b hb, List.cons_lt_cons_iff]
    simp only [List.not_lt_nil, and_false, or_false]
  refine ⟨{ work with x := x, ws := ws₄, suffixArray := suffixArray }, order, ?_,
    ⟨hreads, hpass.perm, ?_, hranks, hkeys⟩, hpass, hx, hpast, rfl⟩
  · rw [sortValues, hclear, Option.bind_eq_bind, Option.bind_some, hcount]
    simp only [Option.bind_eq_bind, Option.bind_some, haccumulate, hplace]
    rfl
  · have hkey : ∀ i a : Nat, (List.range arr.length)[i]? = some a → x i = x a := by
      intro i a ha
      rw [Int.natCast_inj.mp (Option.some.inj (hitem i a ha))]
    refine (hpass.pairwise hkey List.pairwise_lt_range).imp_of_mem fun {a b} ha hb hab => ?_
    have ha' := List.mem_range.mp (hpass.perm.mem_iff.mp ha)
    have hb' := List.mem_range.mp (hpass.perm.mem_iff.mp hb)
    rcases hab with hlt | ⟨heq, -⟩
    · exact ((hranks a b ha' hb').mp hlt).le
    · exact ((hranks.eq_iff ha' hb').mp heq).le

end SuffixArray

end RebuildTheWheel.TinySTL
