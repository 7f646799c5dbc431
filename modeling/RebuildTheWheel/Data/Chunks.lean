import Mathlib.Data.List.Basic
import Mathlib.Data.BitVec

namespace RebuildTheWheel.Data

/-! A sequence stored in chunks that all have the same length, and the bits of a word
as such a chunk. -/

namespace Chunks

variable {α β : Type*} {n : Nat} {f : α → List β}

theorem getElem?_flatMap (hn : 0 < n) (hf : ∀ chunk, (f chunk).length = n) (chunks : List α)
    (i : Nat) :
    (chunks.flatMap f)[i]? = chunks[i / n]?.bind fun chunk => (f chunk)[i % n]? := by
  induction chunks generalizing i with
  | nil => rfl
  | cons chunk chunks ih =>
      rw [List.flatMap_cons]
      by_cases hi : i < n
      · rw [List.getElem?_append_left (by rwa [hf]), Nat.div_eq_of_lt hi, Nat.mod_eq_of_lt hi]
        rfl
      · have hle : n ≤ i := Nat.le_of_not_lt hi
        rw [List.getElem?_append_right (by rwa [hf]), hf, ih, Nat.div_eq_sub_div hn hle,
          List.getElem?_cons_succ, Nat.mod_eq_sub_mod hle]

theorem length_flatMap (hf : ∀ chunk, (f chunk).length = n) (chunks : List α) :
    (chunks.flatMap f).length = n * chunks.length := by
  induction chunks with
  | nil => rfl
  | cons chunk chunks ih =>
      rw [List.flatMap_cons, List.length_append, hf, ih, List.length_cons, Nat.mul_succ,
        Nat.add_comm]

theorem flatMap_map {g : α → α} {h : β → β} (hgh : ∀ chunk, f (g chunk) = (f chunk).map h)
    (chunks : List α) : (chunks.map g).flatMap f = (chunks.flatMap f).map h := by
  rw [List.flatMap_map, List.map_flatMap]
  exact List.flatMap_congr fun chunk _ => hgh chunk

/-- A chunk that changes in one place changes the sequence in one place. -/
theorem flatMap_set (hn : 0 < n) (hf : ∀ chunk, (f chunk).length = n) {chunks : List α}
    {i : Nat} {old new : α} {val : β} (hold : chunks[i / n]? = some old)
    (hnew : f new = (f old).set (i % n) val) :
    (chunks.set (i / n) new).flatMap f = (chunks.flatMap f).set i val := by
  ext j : 1
  have hmod := Nat.mod_lt i hn
  have hlt : i / n < chunks.length := (List.getElem?_eq_some_iff.mp hold).1
  have hbound : i < (chunks.flatMap f).length := by
    rw [length_flatMap hf]
    exact (Nat.div_lt_iff_lt_mul hn).mp hlt |>.trans_eq (Nat.mul_comm ..)
  rw [getElem?_flatMap hn hf, List.getElem?_set, List.getElem?_set, getElem?_flatMap hn hf]
  by_cases hdiv : i / n = j / n
  · rw [if_pos hdiv, if_pos hlt, ← hdiv, hold]
    simp only [Option.bind_some]
    rw [hnew, List.getElem?_set, hf]
    by_cases hij : i = j
    · rw [if_pos (congrArg (· % n) hij), if_pos hij, if_pos hmod, if_pos hbound]
    · have hne : i % n ≠ j % n := by
        intro hmodEq
        apply hij
        rw [← Nat.div_add_mod i n, ← Nat.div_add_mod j n, hdiv, hmodEq]
      rw [if_neg hne, if_neg hij]
  · rw [if_neg hdiv, if_neg fun hij => hdiv (congrArg (· / n) hij)]

end Chunks

/-- The bits of a word, the lowest first. -/
def wordBits {w : Nat} (word : BitVec w) : List Bool := List.ofFn fun i : Fin w => word[i]

section

variable {w : Nat}

@[simp] theorem length_wordBits (word : BitVec w) : (wordBits word).length = w := by
  simp [wordBits]

theorem getElem?_wordBits (word : BitVec w) {i : Nat} (hi : i < w) :
    (wordBits word)[i]? = some word[i] := by
  simp [wordBits, hi]

theorem wordBits_not (word : BitVec w) : wordBits (~~~word) = (wordBits word).map not := by
  simp [wordBits, List.map_ofFn, Function.comp_def]

theorem wordBits_zero : wordBits (0#w) = List.replicate w false := by
  simp [wordBits]

theorem wordBits_allOnes : wordBits (BitVec.allOnes w) = List.replicate w true := by
  simp [wordBits]

/-- Two words that agree except at one bit. -/
theorem wordBits_eq_set {old new : BitVec w} {i : Nat} {val : Bool}
    (hi : ∀ k (hk : k < w), new[k] = if i = k then val else old[k]) :
    wordBits new = (wordBits old).set i val := by
  ext k : 1
  by_cases hk : k < w
  · rw [getElem?_wordBits _ hk, List.getElem?_set, getElem?_wordBits _ hk, hi k hk]
    split
    · simp_all
    · rfl
  · rw [List.getElem?_eq_none (by simpa using hk), List.getElem?_eq_none (by simpa using hk)]

theorem eq_zero_iff_wordBits (word : BitVec w) : word = 0#w ↔ ∀ bit ∈ wordBits word, bit = false := by
  constructor
  · rintro rfl bit hbit
    rw [wordBits_zero] at hbit
    exact List.eq_of_mem_replicate hbit
  · intro h
    apply BitVec.eq_of_getElem_eq
    intro i hi
    rw [BitVec.getElem_zero]
    exact h _ (List.mem_of_getElem? (getElem?_wordBits word hi))

theorem eq_allOnes_iff_wordBits (word : BitVec w) :
    word = BitVec.allOnes w ↔ ∀ bit ∈ wordBits word, bit = true := by
  constructor
  · rintro rfl bit hbit
    rw [wordBits_allOnes] at hbit
    exact List.eq_of_mem_replicate hbit
  · intro h
    apply BitVec.eq_of_getElem_eq
    intro i hi
    rw [BitVec.getElem_allOnes]
    exact h _ (List.mem_of_getElem? (getElem?_wordBits word hi))

end

end RebuildTheWheel.Data
