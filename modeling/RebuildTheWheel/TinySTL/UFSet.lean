import Mathlib.Algebra.Order.Ring.Int
import RebuildTheWheel.Data.Classes
import RebuildTheWheel.Data.Run

namespace RebuildTheWheel.TinySTL

open Data Data.Classes

/-! `uf_set<N>`: a forest in an array of `int`. The entry of a root is minus the number of
nodes below it, the entry of another node is its parent. -/

structure UFSet (N : Nat) where
  parent : List Int
  length_parent : parent.length = N

namespace UFSet

variable {N : Nat}

/-- A read of `parent[i]`, which has no result outside the array. -/
def load (s : UFSet N) (i : Int) : Option Int :=
  if 0 ≤ i then s.parent[i.toNat]? else none

def store (s : UFSet N) (i v : Int) : Option (UFSet N) :=
  if 0 ≤ i ∧ i.toNat < N then
    some ⟨s.parent.set i.toNat v, by rw [List.length_set, s.length_parent]⟩
  else
    none

/-- The addition of `int`, which has no result when it overflows. -/
def addInt (a b : Int) : Option Int :=
  if -2 ^ 31 ≤ a + b ∧ a + b < 2 ^ 31 then some (a + b) else none

/-- `Clear`, and so the constructor: each byte of the array is set to `-1`. -/
def clear (N : Nat) : UFSet N where
  parent := List.replicate N (-1)
  length_parent := List.length_replicate

/-- The first loop of `Find`, for at most as many tests as there are nodes. -/
def findRoot (s : UFSet N) : Nat → Int → Option Int
  | 0, _ => none
  | fuel + 1, root => do
      let p ← s.load root
      if 0 ≤ p then s.findRoot fuel p else return root

/-- The second loop of `Find`: path compression. -/
def compress (root : Int) : Nat → Int → UFSet N → Option (UFSet N)
  | 0, _, _ => none
  | fuel + 1, index, s =>
      if root ≠ index then do
        let t ← s.load index
        let s ← s.store index root
        compress root fuel t s
      else
        return s

def find (s : UFSet N) (index : Int) : Option (UFSet N × Int) := do
  let root ← s.findRoot N index
  let s ← compress root N index s
  return (s, root)

def union (s : UFSet N) (index1 index2 : Int) : Option (UFSet N) := do
  let (s, root1) ← s.find index1
  let (s, root2) ← s.find index2
  let p1 ← s.load root1
  let p2 ← s.load root2
  let totalNodes ← addInt p1 p2
  if p1 > p2 then
    let s ← s.store root1 root2
    s.store root2 totalNodes
  else
    let s ← s.store root2 root1
    s.store root1 totalNodes

/-- The arguments of `Find` and `Union`: values of `int` below `N`. -/
abbrev Index (N : Nat) := Fin (min N (2 ^ 31))

inductive Op (N : Nat) where
  | find (index : Index N)
  | union (index1 index2 : Index N)

def step (s : UFSet N) : Op N → Option (UFSet N)
  | .find index => (s.find index).map Prod.fst
  | .union index1 index2 => s.union index1 index2

/-! The unions performed so far, the last one first. -/

def Op.record (unions : List (Nat × Nat)) : Op N → List (Nat × Nat)
  | .find _ => unions
  | .union index1 index2 => (index1.val, index2.val) :: unions

/-- `Union` is only called for two classes. -/
def Admits (unions : List (Nat × Nat)) : Op N → Prop
  | .find _ => True
  | .union index1 index2 => ¬Joined unions index1.val index2.val

/-- The forest, by the root of each node and by a rank that grows towards the root. -/
structure Forest (s : UFSet N) (rep rank : Nat → Nat) : Prop where
  rep_lt : ∀ i < N, rep i < N
  idem : ∀ i, rep (rep i) = rep i
  small : ∀ i, rep i ≠ i → i < 2 ^ 31 ∧ rep i < 2 ^ 31
  root : ∀ i < N, rep i = i → s.load i = some (-(classSize (Finset.range N) rep i : Int))
  child : ∀ i < N, rep i ≠ i →
    ∃ p : Nat, s.load i = some (p : Int) ∧ p < N ∧ rep p = rep i ∧ rank i < rank p
  rank_lt : ∀ i < N, rank i < classSize (Finset.range N) rep (rep i)

theorem load_natCast (s : UFSet N) (i : Nat) : s.load i = s.parent[i]? :=
  if_pos (Int.natCast_nonneg i)

theorem store_natCast (s : UFSet N) {i : Nat} (hi : i < N) (v : Int) :
    ∃ s', s.store i v = some s' ∧
      ∀ j : Nat, s'.load j = if j = i then some v else s.load j := by
  refine ⟨_, if_pos ⟨Int.natCast_nonneg i, hi⟩, fun j => ?_⟩
  rw [load_natCast, load_natCast]
  simp only [Int.toNat_natCast]
  rw [List.getElem?_set]
  by_cases hj : j = i
  · subst hj
    rw [if_pos rfl, if_pos rfl, if_pos (by rwa [s.length_parent])]
  · rw [if_neg (Ne.symm hj), if_neg hj]

theorem clear_forest (N : Nat) : (clear N).Forest id fun _ => 0 where
  rep_lt := fun _ hi => hi
  idem := fun _ => rfl
  small := fun _ hi => absurd rfl hi
  root := by
    intro i hi _
    have hone : classSize (Finset.range N) id i = 1 := by
      rw [classSize, Finset.card_eq_one]
      refine ⟨i, ?_⟩
      ext j
      simp only [Finset.mem_filter, Finset.mem_range, id_eq, Finset.mem_singleton]
      exact ⟨And.right, fun hj => ⟨hj ▸ hi, hj⟩⟩
    rw [load_natCast, hone, clear, List.getElem?_replicate, if_pos hi]
    rfl
  child := fun _ _ hi => absurd rfl hi
  rank_lt := fun _ hi => classSize_pos _ (Finset.mem_range.mpr hi)

namespace Forest

variable {s : UFSet N} {rep rank : Nat → Nat} (h : s.Forest rep rank)

include h

theorem rank_lt_N {i : Nat} (hi : i < N) : rank i < N :=
  (h.rank_lt i hi).trans_le ((classSize_le_card _).trans_eq (Finset.card_range N))

theorem findRoot : ∀ {fuel i : Nat}, i < N → N ≤ fuel + rank i → s.findRoot fuel i = some (rep i : Int)
  | 0, i, hi, hfuel => by
      have hlt := h.rank_lt_N hi
      omega
  | fuel + 1, i, hi, hfuel => by
      rw [UFSet.findRoot]
      by_cases hroot : rep i = i
      · have hpos := classSize_pos rep (Finset.mem_range.mpr hi)
        rw [hroot] at hpos
        rw [h.root i hi hroot, Option.bind_eq_bind, Option.bind_some, if_neg (by omega), hroot]
        rfl
      · obtain ⟨p, hload, hp, hrep, hrank⟩ := h.child i hi hroot
        rw [hload, Option.bind_eq_bind, Option.bind_some, if_pos (Int.natCast_nonneg p), ← hrep]
        exact findRoot hp (by omega)

/-- The rank grows up to the root, by induction on the distance to the bound. -/
theorem rank_lt_rank_rep {i : Nat} (hi : i < N) (hchild : rep i ≠ i) : rank i < rank (rep i) := by
  induction hn : N - rank i using Nat.strong_induction_on generalizing i with
  | h n ih =>
      obtain ⟨p, -, hp, hrep, hrank⟩ := h.child i hi hchild
      by_cases hroot : rep p = p
      · rwa [← hrep, hroot]
      · have hlt := h.rank_lt_N hp
        have hnext := ih (N - rank p) (by omega) hp hroot rfl
        rw [hrep] at hnext
        exact hrank.trans hnext

/-- A node is hung below its root. -/
theorem hang {i : Nat} (hi : i < N) (hchild : rep i ≠ i) :
    ∃ s', s.store i (rep i : Int) = some s' ∧ s'.Forest rep rank := by
  obtain ⟨s', hstore, hload⟩ := s.store_natCast hi (rep i : Int)
  refine ⟨s', hstore, ⟨h.rep_lt, h.idem, h.small, ?_, ?_, h.rank_lt⟩⟩
  · intro j hj hroot
    have hji : j ≠ i := by
      rintro rfl
      exact hchild hroot
    rw [hload, if_neg hji]
    exact h.root j hj hroot
  · intro j hj hjchild
    rw [hload]
    by_cases hji : j = i
    · subst hji
      rw [if_pos rfl]
      exact ⟨rep j, rfl, h.rep_lt j hj, h.idem j, h.rank_lt_rank_rep hj hjchild⟩
    · rw [if_neg hji]
      exact h.child j hj hjchild

end Forest

theorem Forest.compress {rep rank : Nat → Nat} : ∀ {fuel i : Nat} {s : UFSet N},
    s.Forest rep rank → i < N → N ≤ fuel + rank i →
      ∃ s', UFSet.compress (rep i : Int) fuel i s = some s' ∧ s'.Forest rep rank
  | 0, i, s, h, hi, hfuel => by
      have hlt := h.rank_lt_N hi
      omega
  | fuel + 1, i, s, h, hi, hfuel => by
      rw [UFSet.compress]
      by_cases hroot : rep i = i
      · refine ⟨s, if_neg ?_, h⟩
        rw [hroot]
        exact not_not.mpr rfl
      · obtain ⟨p, hload, hp, hrep, hrank⟩ := h.child i hi hroot
        obtain ⟨s₁, hstore, h₁⟩ := h.hang hi hroot
        have hnext : N ≤ fuel + rank p := by omega
        obtain ⟨s', hrun, h'⟩ := Forest.compress h₁ hp hnext
        refine ⟨s', ?_, h'⟩
        rw [if_pos fun heq => hroot (Int.ofNat_inj.mp heq), hload, Option.bind_eq_bind,
          Option.bind_some, hstore, ← hrep]
        exact hrun

theorem Forest.find {s : UFSet N} {rep rank : Nat → Nat} (h : s.Forest rep rank) {i : Nat}
    (hi : i < N) : ∃ s', s.find i = some (s', (rep i : Int)) ∧ s'.Forest rep rank := by
  obtain ⟨s', hrun, h'⟩ := h.compress hi (Nat.le_add_right N _)
  refine ⟨s', ?_, h'⟩
  rw [UFSet.find, h.findRoot hi (Nat.le_add_right N _), Option.bind_eq_bind, Option.bind_some,
    hrun]
  rfl

/-- No class has more members than there are values of `int`. -/
theorem classSize_le_of_small {rep : Nat → Nat} (hsmall : ∀ i, rep i ≠ i → i < 2 ^ 31 ∧ rep i < 2 ^ 31)
    {r : Nat} (hr : r < 2 ^ 31) : classSize (Finset.range N) rep r ≤ 2 ^ 31 := by
  rw [classSize, ← Finset.card_range (2 ^ 31)]
  apply Finset.card_le_card
  intro i hi
  obtain ⟨-, rfl⟩ := Finset.mem_filter.mp hi
  rw [Finset.mem_range]
  by_cases hroot : rep i = i
  · rwa [hroot] at hr
  · exact (hsmall i hroot).1

theorem merge_small {rep : Nat → Nat} {a b : Nat}
    (hsmall : ∀ i, rep i ≠ i → i < 2 ^ 31 ∧ rep i < 2 ^ 31) (haInt : a < 2 ^ 31) (hbInt : b < 2 ^ 31)
    (i : Nat) (hi : merge rep a b i ≠ i) : i < 2 ^ 31 ∧ merge rep a b i < 2 ^ 31 := by
  by_cases hia : rep i = a
  · rw [merge_of_eq b hia] at hi ⊢
    refine ⟨?_, hbInt⟩
    by_cases hroot : rep i = i
    · rwa [← hroot, hia]
    · exact (hsmall i hroot).1
  · rw [merge_of_ne b hia] at hi ⊢
    exact hsmall i hi

theorem merge_idem {rep : Nat → Nat} {a b : Nat} (hidem : ∀ i, rep (rep i) = rep i)
    (hbRoot : rep b = b) (i : Nat) : merge rep a b (merge rep a b i) = merge rep a b i := by
  by_cases hia : rep i = a
  · rw [merge_of_eq b hia, merge_eq_right_iff]
    exact .inr hbRoot
  · rw [merge_of_ne b hia, merge, hidem, if_neg hia]

/-- A rank stays below the size of its class when `a` is hung below `b`. -/
theorem Forest.rank_lt_merge {s : UFSet N} {rep rank : Nat → Nat} (h : s.Forest rep rank) {a b : Nat}
    (ha : a < N) (haRoot : rep a = a) (hbRoot : rep b = b) (hab : a ≠ b) (i : Nat) (hi : i < N) :
    Function.update rank b (max (rank b) (rank a + 1)) i <
      classSize (Finset.range N) (merge rep a b) (merge rep a b i) := by
  have hsum := classSize_merge (Finset.range N) rep hab
  have hold := h.rank_lt i hi
  by_cases hib : i = b
  · subst hib
    have haRank := h.rank_lt a ha
    rw [hbRoot] at hold
    rw [haRoot] at haRank
    rw [Function.update_self, merge_eq_right_iff.mpr (.inr hbRoot), hsum]
    omega
  · rw [Function.update_of_ne hib]
    by_cases hia : rep i = a
    · rw [merge_of_eq b hia, hsum, ← hia]
      omega
    · rw [merge_of_ne b hia]
      by_cases hib' : rep i = b
      · rw [hib', hsum]
        rw [hib'] at hold
        omega
      · rwa [classSize_merge_of_ne hia hib']

/-- The root `a` is hung below the root `b`, in the order in which `Union` writes. -/
theorem Forest.link {s : UFSet N} {rep rank : Nat → Nat} (h : s.Forest rep rank) {a b : Nat}
    (ha : a < N) (hb : b < N) (haRoot : rep a = a) (hbRoot : rep b = b) (hab : a ≠ b)
    (haInt : a < 2 ^ 31) (hbInt : b < 2 ^ 31) :
    ∃ total s₁ s₂,
      addInt (-(classSize (Finset.range N) rep a : Int)) (-(classSize (Finset.range N) rep b : Int)) =
        some total ∧
      s.store a b = some s₁ ∧ s₁.store b total = some s₂ ∧
      s₂.Forest (merge rep a b) (Function.update rank b (max (rank b) (rank a + 1))) := by
  have hsmall := merge_small h.small haInt hbInt
  have hsum := classSize_merge (Finset.range N) rep hab
  have hle := classSize_le_of_small (N := N) hsmall hbInt
  rw [hsum] at hle
  obtain ⟨s₁, hstore₁, hload₁⟩ := s.store_natCast ha (b : Int)
  obtain ⟨s₂, hstore₂, hload₂⟩ := s₁.store_natCast hb
    (-(classSize (Finset.range N) rep a : Int) + -(classSize (Finset.range N) rep b : Int))
  have hload : ∀ j : Nat, j ≠ a → j ≠ b → s₂.load j = s.load j := by
    intro j hja hjb
    rw [hload₂, if_neg hjb, hload₁, if_neg hja]
  have hrank : ∀ j, j ≠ b → Function.update rank b (max (rank b) (rank a + 1)) j = rank j :=
    fun j hj => Function.update_of_ne hj _ _
  have hrankLe : ∀ j, rank j ≤ Function.update rank b (max (rank b) (rank a + 1)) j := by
    intro j
    by_cases hj : j = b
    · subst hj
      rw [Function.update_self]
      exact Nat.le_max_left ..
    · rw [hrank j hj]
  refine ⟨_, s₁, s₂, if_pos (by omega), hstore₁, hstore₂, ?_, merge_idem h.idem hbRoot, hsmall, ?_, ?_,
    h.rank_lt_merge ha haRoot hbRoot hab⟩
  · intro i hi
    by_cases hia : rep i = a
    · rwa [merge_of_eq b hia]
    · rw [merge_of_ne b hia]
      exact h.rep_lt i hi
  · intro i hi hroot
    by_cases hib : i = b
    · subst hib
      rw [hload₂, if_pos rfl, hsum]
      push_cast
      rw [neg_add]
    · have hia : rep i ≠ a := fun hia => hib (hroot.symm.trans (merge_of_eq b hia))
      rw [merge_of_ne b hia] at hroot
      have hne : i ≠ a := fun heq => hia (heq ▸ haRoot)
      rw [hload i hne hib, classSize_merge_of_ne hne hib]
      exact h.root i hi hroot
  · intro i hi hchild
    by_cases hia : i = a
    · subst hia
      refine ⟨b, ?_, hb, ?_, ?_⟩
      · rw [hload₂, if_neg hab, hload₁, if_pos rfl]
      · rw [merge_of_eq b haRoot, merge_eq_right_iff]
        exact .inr hbRoot
      · rw [hrank i hab, Function.update_self]
        exact Nat.lt_of_lt_of_le (Nat.lt_succ_self _) (Nat.le_max_right ..)
    · have hib : i ≠ b := by
        rintro rfl
        exact hchild (merge_eq_right_iff.mpr (.inr hbRoot))
      have hold : rep i ≠ i := by
        intro hroot
        apply hchild
        have hne : rep i ≠ a := by rwa [hroot]
        rw [merge_of_ne b hne, hroot]
      obtain ⟨p, hp, hlt, hrep, hrankp⟩ := h.child i hi hold
      refine ⟨p, ?_, hlt, ?_, ?_⟩
      · rw [hload i hia hib, hp]
      · rw [merge, hrep, merge]
      · rw [hrank i hib]
        exact hrankp.trans_le (hrankLe p)

theorem Forest.rep_small {s : UFSet N} {rep rank : Nat → Nat} (h : s.Forest rep rank) {i : Nat}
    (hi : i < 2 ^ 31) : rep i < 2 ^ 31 := by
  by_cases hroot : rep i = i
  · rwa [hroot]
  · exact (h.small i hroot).2

theorem addInt_comm (a b : Int) : addInt a b = addInt b a := by
  rw [addInt, addInt, Int.add_comm]

/-- The root with fewer nodes below it is hung below the other. -/
theorem Forest.union {s : UFSet N} {rep rank : Nat → Nat} (h : s.Forest rep rank) {i j : Nat}
    (hi : i < N) (hj : j < N) (hiInt : i < 2 ^ 31) (hjInt : j < 2 ^ 31) (hne : rep i ≠ rep j) :
    ∃ s' a b rank', s.union i j = some s' ∧ (rep i = a ∧ rep j = b ∨ rep i = b ∧ rep j = a) ∧
      s'.Forest (merge rep a b) rank' := by
  obtain ⟨s₁, hfind₁, h₁⟩ := h.find hi
  obtain ⟨s₂, hfind₂, h₂⟩ := h₁.find hj
  have hri := h₂.rep_lt i hi
  have hrj := h₂.rep_lt j hj
  have hload₁ := h₂.root _ hri (h₂.idem i)
  have hload₂ := h₂.root _ hrj (h₂.idem j)
  by_cases hlt : classSize (Finset.range N) rep (rep i) < classSize (Finset.range N) rep (rep j)
  · obtain ⟨total, s₃, s', hadd, hstore₃, hstore', h'⟩ := h₂.link hri hrj (h₂.idem i) (h₂.idem j)
      hne (h₂.rep_small hiInt) (h₂.rep_small hjInt)
    refine ⟨s', rep i, rep j, _, ?_, .inl ⟨rfl, rfl⟩, h'⟩
    simp only [UFSet.union, hfind₁, hfind₂, hload₁, hload₂, hadd, Option.bind_eq_bind,
      Option.bind_some]
    rw [if_pos (by omega), hstore₃]
    exact hstore'
  · obtain ⟨total, s₃, s', hadd, hstore₃, hstore', h'⟩ := h₂.link hrj hri (h₂.idem j) (h₂.idem i)
      hne.symm (h₂.rep_small hjInt) (h₂.rep_small hiInt)
    refine ⟨s', rep j, rep i, _, ?_, .inr ⟨rfl, rfl⟩, h'⟩
    rw [addInt_comm] at hadd
    simp only [UFSet.union, hfind₁, hfind₂, hload₁, hload₂, hadd, Option.bind_eq_bind,
      Option.bind_some]
    rw [if_neg (by omega), hstore₃]
    exact hstore'

/-! What a client sees after some unions. -/

structure Shows (s : UFSet N) (unions : List (Nat × Nat)) : Prop where
  find : ∀ i j : Index N, ∃ s₁ ri s₂ rj, s.find i.val = some (s₁, ri) ∧
    s₁.find j.val = some (s₂, rj) ∧ (ri = rj ↔ Joined unions i.val j.val)
  count : ∀ (r : Nat) (p : Int), s.parent[r]? = some p → p < 0 →
    p = -({i | i ∈ Finset.range N ∧ Joined unions r i}.ncard : Int)

/-- The forest behind the unions performed so far. -/
def Holds (s : UFSet N) (unions : List (Nat × Nat)) : Prop :=
  ∃ rep rank, s.Forest rep rank ∧ Represents rep unions

theorem index_lt (i : Index N) : i.val < N ∧ i.val < 2 ^ 31 := Nat.lt_min.mp i.isLt

theorem Holds.shows {s : UFSet N} {unions : List (Nat × Nat)} (h : s.Holds unions) :
    s.Shows unions := by
  obtain ⟨rep, rank, hforest, hrep⟩ := h
  constructor
  · intro i j
    obtain ⟨s₁, hfind₁, h₁⟩ := hforest.find (index_lt i).1
    obtain ⟨s₂, hfind₂, -⟩ := h₁.find (index_lt j).1
    refine ⟨s₁, _, s₂, _, hfind₁, hfind₂, ?_⟩
    rw [Int.ofNat_inj]
    exact hrep.same_iff _ _
  · intro r p hp hneg
    have hr : r < N := by
      rw [← s.length_parent]
      exact (List.getElem?_eq_some_iff.mp hp).1
    rw [← load_natCast] at hp
    by_cases hroot : rep r = r
    · rw [hforest.root r hr hroot] at hp
      rw [hrep.ncard_eq, hroot]
      exact (Option.some.inj hp).symm
    · obtain ⟨q, hq, -⟩ := hforest.child r hr hroot
      rw [hq] at hp
      have heq := Option.some.inj hp
      omega

theorem step_holds {s : UFSet N} {unions : List (Nat × Nat)} (h : s.Holds unions) (op : Op N)
    (hop : Admits unions op) : ∃ s', s.step op = some s' ∧ s'.Holds (op.record unions) := by
  obtain ⟨rep, rank, hforest, hrep⟩ := h
  cases op with
  | find index =>
      obtain ⟨s', hfind, h'⟩ := hforest.find (index_lt index).1
      refine ⟨s', ?_, rep, rank, h', hrep⟩
      rw [step, hfind]
      rfl
  | union index1 index2 =>
      have hne : rep index1.val ≠ rep index2.val := fun heq => hop ((hrep.same_iff _ _).mp heq)
      obtain ⟨s', a, b, rank', hunion, hends, h'⟩ := hforest.union (index_lt index1).1
        (index_lt index2).1 (index_lt index1).2 (index_lt index2).2 hne
      exact ⟨s', hunion, merge rep a b, rank', h', hrep.merge hends⟩

/-- Every run whose unions each join two classes has a result, and shows its classes. -/
theorem uf_set_run (N : Nat) (ops : List (Op N))
    (hops : Run.Guarded (fun unions op => some (op.record unions)) Admits [] ops) :
    ∃ s, ops.foldlM step (clear N) = some s ∧ s.Shows (ops.foldl Op.record []) := by
  obtain ⟨s, hrun, hholds⟩ := Run.simulates_of_admitted Holds
    (fun _ _ op h hop => step_holds h op hop) ops
    ⟨id, fun _ => 0, clear_forest N, represents_id⟩ hops
  exact ⟨s, hrun, hholds.shows⟩

theorem uf_set_run_pair : ∃ s,
    [Op.union ⟨0, by decide⟩ ⟨1, by decide⟩, .find ⟨1, by decide⟩].foldlM step (clear 3) = some s ∧ s.Shows [(0, 1)] := by
  refine uf_set_run 3 [.union ⟨0, by decide⟩ ⟨1, by decide⟩, .find ⟨1, by decide⟩]
    ⟨?_, fun _ _ => ⟨trivial, fun _ _ => trivial⟩⟩
  intro hjoined
  exact absurd (joined_nil_iff.mp hjoined) (by decide)

/-- A second union of the same two nodes doubles the count of their root. -/
theorem union_twice : ¬∃ s,
    [Op.union ⟨0, by decide⟩ ⟨1, by decide⟩, .union ⟨0, by decide⟩ ⟨1, by decide⟩].foldlM step (clear 2) = some s ∧ s.Shows [(0, 1), (0, 1)] := by
  rintro ⟨s, hrun, hshows⟩
  have hparent : s.parent = [-4, 0] := by
    obtain rfl := Option.some.inj hrun
    rfl
  have hcount := hshows.count 0 (-4) (by rw [hparent]; rfl) (by decide)
  have hle := Set.ncard_le_ncard
    (fun i (hi : i ∈ {i | i ∈ Finset.range 2 ∧ Joined [(0, 1), (0, 1)] 0 i}) => hi.1)
    (Finset.finite_toSet (Finset.range 2))
  rw [Set.ncard_coe_finset, Finset.card_range] at hle
  omega

end UFSet

end RebuildTheWheel.TinySTL
