import Mathlib.Data.List.Pairwise
import Mathlib.Order.CompletePartialOrder
import Mathlib.Order.Interval.Set.Disjoint
import RebuildTheWheel.Data.Ascii

namespace RebuildTheWheel.Data

/-! Blocks of memory, which may be cut up and handed around as long as no byte is in
two of them. -/

structure Block where
  addr : Nat
  size : Nat
  deriving DecidableEq

namespace Block

def bytes (b : Block) : Set Nat := Set.Ico b.addr (b.addr + b.size)

def Apart (b c : Block) : Prop := Disjoint b.bytes c.bytes

def Within (b c : Block) : Prop := c.addr ≤ b.addr ∧ b.addr + b.size ≤ c.addr + c.size

/-- The block is part of one of the regions. -/
def Inside (b : Block) (regions : List Block) : Prop := b.size = 0 ∨ ∃ r ∈ regions, b.Within r

def Separate (blocks : List Block) : Prop := blocks.Pairwise Apart

variable {b c d : Block} {bs cs regions : List Block} {a m n : Nat}

theorem Apart.symm (h : Apart b c) : Apart c b := Disjoint.symm h

theorem Within.bytes_subset (h : Within b c) : b.bytes ⊆ c.bytes :=
  Set.Ico_subset_Ico h.1 h.2

theorem Within.trans (h : Within b c) (h' : Within c d) : Within b d :=
  ⟨h'.1.trans h.1, h.2.trans h'.2⟩

theorem Apart.within (h : Apart b d) (hc : Within c b) : Apart c d :=
  Disjoint.mono_left hc.bytes_subset h

theorem Apart.addr_ne (h : Apart b c) (hb : 0 < b.size) (hc : 0 < c.size) : b.addr ≠ c.addr := by
  intro heq
  have hmem : b.addr ∈ b.bytes ∧ b.addr ∈ c.bytes := by
    simp only [bytes, Set.mem_Ico]
    omega
  exact Set.disjoint_left.mp h hmem.1 hmem.2

theorem apart_of_size_zero (hb : b.size = 0) (c : Block) : Apart b c := by
  rw [Apart, bytes, hb, Nat.add_zero, Set.Ico_self]
  exact Set.empty_disjoint _

theorem apart_of_le (h : b.addr + b.size ≤ c.addr) : Apart b c := by
  rw [Apart, bytes, bytes, Set.disjoint_left]
  intro x hx hx'
  exact absurd (hx.2.trans_le h) (Nat.not_lt.mpr hx'.1)

theorem apart_adjacent (a m n : Nat) : Apart ⟨a, m⟩ ⟨a + m, n⟩ := apart_of_le (Nat.le_refl _)

theorem Inside.within (h : Inside b regions) (hc : Within c b) : Inside c regions := by
  rcases h with hzero | ⟨r, hr, hwithin⟩
  · left
    have := hc.1
    have := hc.2
    omega
  · exact .inr ⟨r, hr, hc.trans hwithin⟩

theorem Inside.cons (h : Inside b regions) (r : Block) : Inside b (r :: regions) := by
  rcases h with hzero | ⟨s, hs, hwithin⟩
  · exact .inl hzero
  · exact .inr ⟨s, List.mem_cons_of_mem _ hs, hwithin⟩

theorem Separate.perm (h : Separate bs) (hperm : bs.Perm cs) : Separate cs :=
  (hperm.pairwise_iff Apart.symm).mp h

theorem Separate.shrink (h : Separate (b :: bs)) (hc : Within c b) : Separate (c :: bs) := by
  obtain ⟨hb, hbs⟩ := List.pairwise_cons.mp h
  exact List.pairwise_cons.mpr ⟨fun d hd => (hb d hd).within hc, hbs⟩

/-- A block is cut in two. -/
theorem Separate.split (h : Separate (⟨a, m + n⟩ :: bs)) :
    Separate (⟨a, m⟩ :: ⟨a + m, n⟩ :: bs) := by
  obtain ⟨hb, hbs⟩ := List.pairwise_cons.mp h
  have hfront : Within ⟨a, m⟩ ⟨a, m + n⟩ := ⟨le_rfl, Nat.add_le_add_left (Nat.le_add_right m n) a⟩
  have hback : Within ⟨a + m, n⟩ ⟨a, m + n⟩ := ⟨Nat.le_add_right a m, (Nat.add_assoc a m n).le⟩
  refine List.pairwise_cons.mpr ⟨?_, List.pairwise_cons.mpr ⟨?_, hbs⟩⟩
  · intro d hd
    rcases List.mem_cons.mp hd with rfl | hd
    · exact apart_adjacent a m n
    · exact (hb d hd).within hfront
  · intro d hd
    exact (hb d hd).within hback

/-- Two blocks that follow one another become one. -/
theorem Separate.merge (h : Separate (⟨a, m⟩ :: ⟨a + m, n⟩ :: bs)) : Separate (⟨a, m + n⟩ :: bs) := by
  obtain ⟨hfront, hrest⟩ := List.pairwise_cons.mp h
  obtain ⟨hback, hbs⟩ := List.pairwise_cons.mp hrest
  refine List.pairwise_cons.mpr ⟨fun d hd => ?_, hbs⟩
  rw [Apart, Set.disjoint_left]
  intro x hx
  rcases Nat.lt_or_ge x (a + m) with hlt | hge
  · exact Set.disjoint_left.mp (hfront d (List.mem_cons_of_mem _ hd)) ⟨hx.1, hlt⟩
  · exact Set.disjoint_left.mp (hback d hd) ⟨hge, hx.2.trans_eq (Nat.add_assoc a m n).symm⟩

/-- No byte is in two of the blocks. -/
theorem Separate.eq_of_mem (h : Separate bs) (hb : b ∈ bs) (hc : c ∈ bs) {x : Nat} (hx : x ∈ b.bytes)
    (hx' : x ∈ c.bytes) : b = c := by
  by_contra hne
  have hsymm : Std.Symm Apart := ⟨fun _ _ => Apart.symm⟩
  exact Set.disjoint_left.mp (List.Pairwise.forall h hb hc hne) hx hx'

/-- A block apart from the regions is apart from what is in them. -/
theorem Separate.cons_of_within (h : Separate bs) (hin : ∀ b ∈ bs, ∃ r ∈ regions, b.Within r)
    (hapart : ∀ r ∈ regions, Apart c r) : Separate (c :: bs) := by
  refine List.pairwise_cons.mpr ⟨fun b hb => ?_, h⟩
  obtain ⟨r, hr, hwithin⟩ := hin b hb
  exact ((hapart r hr).symm.within hwithin).symm

/-! A block cut into `k` pieces of the length `n`. -/

def addrsFrom (a n : Nat) : Nat → List Nat
  | 0 => []
  | k + 1 => a :: addrsFrom (a + n) n k

def pieces (a n k : Nat) : List Block := (addrsFrom a n k).map fun p => ⟨p, n⟩

theorem Separate.cut {k : Nat} (h : Separate (⟨a, n * k⟩ :: bs)) : Separate (pieces a n k ++ bs) := by
  induction k generalizing a bs with
  | zero => exact (List.pairwise_cons.mp h).2
  | succ k ih =>
      rw [Nat.mul_succ, Nat.add_comm] at h
      have hswap := h.split.perm (.swap _ _ _)
      have hrest := ih hswap
      exact hrest.perm List.perm_middle

theorem within_of_mem_pieces {k : Nat} (hb : b ∈ pieces a n k) : Within b ⟨a, n * k⟩ := by
  induction k generalizing a with
  | zero => cases hb
  | succ k ih =>
      have hsucc := Nat.mul_add_one n k
      rcases List.mem_cons.mp hb with rfl | hb
      · exact ⟨le_rfl, by simp only; omega⟩
      · obtain ⟨hlow, hhigh⟩ := ih hb
        simp only at hlow hhigh
        exact ⟨by simp only; omega, by simp only; omega⟩

theorem dvd_of_mem_addrsFrom {d k : Nat} (ha : d ∣ a) (hn : d ∣ n) :
    ∀ p ∈ addrsFrom a n k, d ∣ p := by
  induction k generalizing a with
  | zero =>
      intro p hp
      cases hp
  | succ k ih =>
      intro p hp
      rcases List.mem_cons.mp hp with rfl | hp
      · exact ha
      · exact ih (Nat.dvd_add ha hn) p hp

end Block

/-! Lists linked through a field of their cells, with 0 at the end. -/

def Threaded (next : Nat → Nat) : Nat → List Nat → Prop
  | p, [] => p = 0
  | p, x :: xs => p = x ∧ x ≠ 0 ∧ Threaded next (next x) xs

theorem Threaded.eq_nil_iff {next : Nat → Nat} {head : Nat} {xs : List Nat}
    (h : Threaded next head xs) : xs = [] ↔ head = 0 := by
  cases xs with
  | nil => exact ⟨fun _ => h, fun _ => rfl⟩
  | cons x xs =>
      obtain ⟨rfl, hne, _⟩ := h
      exact ⟨fun hnil => absurd hnil (List.cons_ne_nil _ _), fun hzero => absurd hzero hne⟩

theorem Threaded.congr {next next' : Nat → Nat} {p : Nat} {xs : List Nat} (h : Threaded next p xs)
    (hnext : ∀ x ∈ xs, next' x = next x) : Threaded next' p xs := by
  induction xs generalizing p with
  | nil => exact h
  | cons x xs ih =>
      refine ⟨h.1, h.2.1, ?_⟩
      rw [hnext x List.mem_cons_self]
      exact ih h.2.2 fun y hy => hnext y (List.mem_cons_of_mem x hy)

/-- A list behind another one, once the last cell of the first is linked to it. -/
theorem Threaded.append {next next' : Nat → Nat} {p q last : Nat} {xs ys : List Nat}
    (hxs : Threaded next p (xs ++ [last])) (hys : Threaded next' q ys)
    (hlast : next' last = q) (hnext : ∀ x ∈ xs, next' x = next x) :
    Threaded next' p (xs ++ last :: ys) := by
  induction xs generalizing p with
  | nil =>
      refine ⟨hxs.1, hxs.2.1, ?_⟩
      rwa [hlast]
  | cons x xs ih =>
      refine ⟨hxs.1, hxs.2.1, ?_⟩
      rw [hnext x List.mem_cons_self]
      exact ih hxs.2.2 fun y hy => hnext y (List.mem_cons_of_mem x hy)

end RebuildTheWheel.Data

namespace RebuildTheWheel.Data

/-! Memory of bytes, all of which have values. -/

abbrev Memory := Nat → UInt8

namespace Memory

def read (m : Memory) (p n : Nat) : Bytes := (List.range n).map fun i => m (p + i)

def write (m : Memory) (p : Nat) (bytes : Bytes) : Memory := fun x =>
  if p ≤ x then bytes.getD (x - p) (m x) else m x

/-- `memcpy` -/
def copy (m : Memory) (dst src n : Nat) : Memory := m.write dst (m.read src n)

variable {m : Memory} {p q n k : Nat} {bytes : Bytes}

@[simp] theorem length_read (m : Memory) (p n : Nat) : (m.read p n).length = n := by
  rw [read, List.length_map, List.length_range]

theorem read_congr {m' : Memory} (h : ∀ x, p ≤ x → x < p + n → m' x = m x) : m'.read p n = m.read p n := by
  refine List.map_congr_left fun i hi => ?_
  exact h (p + i) (Nat.le_add_right p i) (Nat.add_lt_add_left (List.mem_range.mp hi) p)

theorem write_of_outside {x : Nat} (h : x < p ∨ p + bytes.length ≤ x) : m.write p bytes x = m x := by
  rw [write]
  split_ifs with hle
  · have hbeyond : bytes.length ≤ x - p := by omega
    rw [List.getD_eq_getElem?_getD, List.getElem?_eq_none hbeyond]
    rfl
  · rfl

theorem read_write_self (m : Memory) (p : Nat) (bytes : Bytes) :
    (m.write p bytes).read p bytes.length = bytes := by
  refine List.ext_getElem (length_read ..) fun i hi hi' => ?_
  simp only [read, List.getElem_map, List.getElem_range]
  rw [write, if_pos (Nat.le_add_right p i), Nat.add_sub_cancel_left]
  exact (List.getElem_eq_getD _).symm

/-- What is apart from the bytes that are written is read as before. -/
theorem read_write (h : Block.Apart ⟨p, n⟩ ⟨q, bytes.length⟩) : (m.write q bytes).read p n = m.read p n := by
  refine read_congr fun x hlow hhigh => write_of_outside ?_
  by_contra hinside
  have hmem : x ∈ Block.bytes ⟨q, bytes.length⟩ := by
    simp only [Block.bytes, Set.mem_Ico]
    omega
  exact Set.disjoint_left.mp h ⟨hlow, hhigh⟩ hmem

theorem read_copy_self (m : Memory) (dst src n : Nat) : (m.copy dst src n).read dst n = m.read src n := by
  have hself := read_write_self m dst (m.read src n)
  rwa [length_read] at hself

/-- A part of what is read. -/
theorem read_drop_take (m : Memory) (p : Nat) {n i k : Nat} (h : i + k ≤ n) :
    ((m.read p n).drop i).take k = m.read (p + i) k := by
  refine List.ext_getElem ?_ fun j hj hj' => ?_
  · rw [List.length_take, List.length_drop, length_read, length_read]
    omega
  · simp only [read, List.getElem_take, List.getElem_drop, List.getElem_map, List.getElem_range]
    rw [Nat.add_assoc]

/-- A part of what is copied. -/
theorem read_copy_part (m : Memory) (dst src : Nat) {n i k : Nat} (h : i + k ≤ n) :
    (m.copy dst src n).read (dst + i) k = m.read (src + i) k := by
  rw [← read_drop_take _ dst h, read_copy_self, read_drop_take _ src h]

end Memory

end RebuildTheWheel.Data
