import Mathlib.Data.List.Lex
import Mathlib.Order.Lattice

namespace RebuildTheWheel.Data

/-! The suffixes of a text in lexicographic order, and their first letters. -/

namespace Suffixes

variable {α : Type*}

/-- The first `n` letters of the suffix at `a`. -/
def window (text : List α) (n a : Nat) : List α := (text.drop a).take n

variable {text : List α} {m n a b : Nat}

theorem window_of_le (h : text.length ≤ a) : window text n a = [] := by
  rw [window, List.drop_eq_nil_of_le h, List.take_nil]

theorem window_add_eq_iff :
    window text (m + n) a = window text (m + n) b ↔
      window text m a = window text m b ∧ window text n (a + m) = window text n (b + m) := by
  constructor
  · intro heq
    have htake := congrArg (List.take m) heq
    have hdrop := congrArg (List.drop m) heq
    simp only [window, List.take_take, List.drop_take, List.drop_drop, Nat.min_eq_left
      (Nat.le_add_right m n), Nat.add_sub_cancel_left] at htake hdrop
    exact ⟨htake, hdrop⟩
  · rintro ⟨htake, hdrop⟩
    have hsplit (a : Nat) : window text (m + n) a = window text m a ++ window text n (a + m) := by
      rw [window, List.take_add, List.drop_drop]
      rfl
    rw [hsplit, hsplit, htake, hdrop]

/-- The last letter stands nowhere else. -/
def LastUnique (text : List α) : Prop :=
  ∀ i, i < text.length → text[i]? = text.getLast? → i + 1 = text.length

theorem window_getElem? {i : Nat} (hi : i < n) : (window text n a)[i]? = text[a + i]? := by
  rw [window, List.getElem?_take_of_lt hi, List.getElem?_drop]

/-- Two suffixes that agree on `n` letters both have more. -/
theorem LastUnique.add_lt (h : LastUnique text) (hne : a ≠ b) (ha : a < text.length)
    (heq : window text n a = window text n b) : a + n < text.length := by
  by_contra hle
  have hlast : text[a + (text.length - 1 - a)]? = text.getLast? := by
    rw [List.getLast?_eq_getElem?]
    congr 1
    omega
  have hi : text.length - 1 - a < n := by omega
  rw [← window_getElem? hi, heq, window_getElem? hi] at hlast
  have hlt : b + (text.length - 1 - a) < text.length := by
    by_contra hout
    rw [List.getElem?_eq_none (Nat.le_of_not_lt hout), eq_comm, List.getLast?_eq_none_iff] at hlast
    rw [hlast] at ha
    exact absurd ha (Nat.not_lt_zero a)
  have := h _ hlt hlast
  omega

section

variable [LinearOrder α]

theorem lt_iff_take (l m : List α) (n : Nat) :
    l < m ↔ l.take n < m.take n ∨ l.take n = m.take n ∧ l.drop n < m.drop n := by
  induction n generalizing l m with
  | zero => simp
  | succ n ih =>
      cases l with
      | nil => cases m <;> simp
      | cons a l =>
          cases m with
          | nil => simp
          | cons b m =>
              simp only [List.take_succ_cons, List.drop_succ_cons, List.cons_lt_cons_iff,
                List.cons.injEq, ih l m]
              tauto

theorem window_add_lt_iff :
    window text (m + n) a < window text (m + n) b ↔
      window text m a < window text m b ∨
        window text m a = window text m b ∧ window text n (a + m) < window text n (b + m) := by
  rw [lt_iff_take _ _ m]
  simp only [window, List.take_take, List.drop_take, List.drop_drop, Nat.min_eq_left
    (Nat.le_add_right m n), Nat.add_sub_cancel_left]

theorem drop_lt_of_window_lt (h : window text n a < window text n b) :
    text.drop a < text.drop b :=
  (lt_iff_take _ _ n).mpr (.inl h)

/-- The ranks order the suffixes by their first `n` letters. -/
def Ranks {κ : Type*} [LT κ] (rank : Nat → κ) (text : List α) (n : Nat) : Prop :=
  ∀ a b, a < text.length → b < text.length →
    (rank a < rank b ↔ window text n a < window text n b)

theorem Ranks.eq_iff {κ : Type*} [LinearOrder κ] {rank : Nat → κ} (h : Ranks rank text n)
    (ha : a < text.length) (hb : b < text.length) :
    rank a = rank b ↔ window text n a = window text n b := by
  rw [← not_iff_not, ← ne_eq, ← ne_eq, ← lt_or_lt_iff_ne, ← lt_or_lt_iff_ne, h a b ha hb,
    h b a hb ha]

end

/-! Ranks that are given along a sorted list of different items, from 0 on. -/

section

variable {κ : Type*} [LinearOrder κ] {weight : Nat → κ} {rank : Nat → ℤ} {items : List Nat}
  {p : ℤ} {c d : Nat}

structure Dense (weight : Nat → κ) (rank : Nat → ℤ) (items : List Nat) (p : ℤ) : Prop where
  ranks : ∀ a ∈ items, ∀ b ∈ items, rank a < rank b ↔ weight a < weight b
  bounds : ∀ a ∈ items, 0 ≤ rank a ∧ rank a < p
  pos : 0 < p
  le : p ≤ items.length
  distinct : p = items.length → items.Pairwise fun a b => weight a < weight b
  repeated : p < items.length → ∃ a ∈ items, ∃ b ∈ items, a ≠ b ∧ weight a = weight b

theorem dense_singleton (h : rank c = 0) : Dense weight rank [c] 1 where
  ranks := by simp
  bounds := by simp [h]
  pos := Int.one_pos
  le := Int.le_refl 1
  distinct := fun _ => List.pairwise_singleton ..
  repeated := fun h => absurd h (Int.lt_irrefl 1)

/-- The next item weighs as much as the last. -/
theorem Dense.old (h : Dense weight rank items p) (hd : d ∈ items) (hlast : rank d = p - 1)
    (hc : c ∉ items) (heq : weight d = weight c) :
    Dense weight (Function.update rank c (p - 1)) (items ++ [c]) p := by
  have hold : ∀ a ∈ items ++ [c], ∃ a' ∈ items,
      Function.update rank c (p - 1) a = rank a' ∧ weight a = weight a' := by
    intro a ha
    rcases List.mem_append.mp ha with ha | ha
    · exact ⟨a, ha, Function.update_of_ne (ne_of_mem_of_not_mem ha hc) .., rfl⟩
    · obtain rfl := List.mem_singleton.mp ha
      exact ⟨d, hd, (Function.update_self ..).trans hlast.symm, heq.symm⟩
  have hlength : (items ++ [c]).length = items.length + 1 := List.length_append
  have hle := h.le
  constructor
  · intro a ha b hb
    obtain ⟨a', ha', hrank, hweight⟩ := hold a ha
    obtain ⟨b', hb', hrank', hweight'⟩ := hold b hb
    rw [hrank, hrank', hweight, hweight', h.ranks a' ha' b' hb']
  · intro a ha
    obtain ⟨a', ha', hrank, -⟩ := hold a ha
    rw [hrank]
    exact h.bounds a' ha'
  · exact h.pos
  · omega
  · omega
  · intro _
    refine ⟨d, List.mem_append_left _ hd, c, List.mem_append_right _ (List.mem_singleton_self c),
      ?_, heq⟩
    rintro rfl
    exact hc hd

/-- The next item weighs more than all. -/
theorem Dense.new (h : Dense weight rank items p) (hlt : ∀ a ∈ items, weight a < weight c)
    (hc : c ∉ items) :
    Dense weight (Function.update rank c p) (items ++ [c]) (p + 1) := by
  have hold : ∀ a ∈ items, Function.update rank c p a = rank a := fun a ha =>
    Function.update_of_ne (ne_of_mem_of_not_mem ha hc) ..
  have hnew : Function.update rank c p c = p := Function.update_self ..
  have hlength : (items ++ [c]).length = items.length + 1 := List.length_append
  have hle := h.le
  have hpos := h.pos
  constructor
  · intro a ha b hb
    rcases List.mem_append.mp ha with ha' | ha' <;> rcases List.mem_append.mp hb with hb' | hb'
    · rw [hold a ha', hold b hb', h.ranks a ha' b hb']
    · obtain rfl := List.mem_singleton.mp hb'
      rw [hold a ha', hnew]
      exact iff_of_true (h.bounds a ha').2 (hlt a ha')
    · obtain rfl := List.mem_singleton.mp ha'
      rw [hnew, hold b hb']
      exact iff_of_false (Int.not_lt.mpr (Int.le_of_lt (h.bounds b hb').2)) (hlt b hb').asymm
    · obtain rfl := List.mem_singleton.mp ha'
      obtain rfl := List.mem_singleton.mp hb'
      exact iff_of_false (Int.lt_irrefl _) (lt_irrefl _)
  · intro a ha
    rcases List.mem_append.mp ha with ha | ha
    · rw [hold a ha]
      exact ⟨(h.bounds a ha).1, Int.lt_add_one_of_le (Int.le_of_lt (h.bounds a ha).2)⟩
    · obtain rfl := List.mem_singleton.mp ha
      rw [hnew]
      exact ⟨Int.le_of_lt hpos, Int.lt_succ p⟩
  · omega
  · omega
  · intro heq
    refine List.pairwise_append.mpr ⟨h.distinct (by omega), List.pairwise_singleton .., ?_⟩
    intro a ha b hb
    obtain rfl := List.mem_singleton.mp hb
    exact hlt a ha
  · intro hlt
    obtain ⟨a, ha, b, hb, hab⟩ := h.repeated (by omega)
    exact ⟨a, List.mem_append_left _ ha, b, List.mem_append_left _ hb, hab⟩

end

/-! The length of the longest common prefix. -/

structure LongestCommon (xs ys : List α) (n : Nat) : Prop where
  left : n ≤ xs.length
  right : n ≤ ys.length
  common : xs.take n = ys.take n
  longest : ∀ m, m ≤ xs.length → m ≤ ys.length → xs.take m = ys.take m → m ≤ n

theorem longestCommon_of_ne {x y : α} (h : x ≠ y) (xs ys : List α) :
    LongestCommon (x :: xs) (y :: ys) 0 where
  left := Nat.zero_le _
  right := Nat.zero_le _
  common := rfl
  longest := fun m _ _ heq => by
    cases m with
    | zero => exact Nat.le_refl 0
    | succ m =>
        rw [List.take_succ_cons, List.take_succ_cons] at heq
        exact absurd (List.cons.inj heq).1 h

theorem LongestCommon.cons {xs ys : List α} (h : LongestCommon xs ys n) (x : α) :
    LongestCommon (x :: xs) (x :: ys) (n + 1) where
  left := Nat.succ_le_succ h.left
  right := Nat.succ_le_succ h.right
  common := by rw [List.take_succ_cons, List.take_succ_cons, h.common]
  longest := fun m hleft hright heq => by
    cases m with
    | zero => exact Nat.zero_le _
    | succ m =>
        rw [List.take_succ_cons, List.take_succ_cons] at heq
        exact Nat.succ_le_succ (h.longest m (Nat.le_of_succ_le_succ hleft)
          (Nat.le_of_succ_le_succ hright) (List.cons.inj heq).2)

end Suffixes

end RebuildTheWheel.Data
