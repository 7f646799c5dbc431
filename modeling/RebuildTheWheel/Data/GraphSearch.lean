import Mathlib.Data.List.Induction
import Mathlib.Data.List.Nodup
import Mathlib.Data.Nat.Find
import Mathlib.Logic.Relation

namespace RebuildTheWheel.Data

/-! The orders in which searches of a graph come to its nodes, and distances. -/

namespace GraphSearch

variable {κ : Type*} (adj : κ → κ → Prop) (start : κ)

/-- No node comes twice, and each but `start` comes after one that leads to it. -/
structure Found (order : List κ) : Prop where
  nodup : order.Nodup
  adjacent : ∀ l x r, order = l ++ x :: r → x = start ∨ ∃ y ∈ l, adj y x

/-- `x` is at the end of a path of `n` edges. -/
def Steps : Nat → κ → Prop
  | 0, x => x = start
  | n + 1, x => ∃ y, Steps n y ∧ adj y x

def Distance (x : κ) (n : Nat) : Prop := Steps adj start n x ∧ ∀ m, m < n → ¬Steps adj start m x

/-- The nodes up to the distance `n`. -/
def Within (order : List κ) (n : Nat) : Prop :=
  ∀ x, x ∈ order ↔ ∃ m, m ≤ n ∧ Distance adj start x m

def Sorted (order : List κ) : Prop :=
  order.Pairwise fun a b => ∀ m n, Distance adj start a m → Distance adj start b n → m ≤ n

variable {adj start} {order l r : List κ} {x y z : κ} {m n : Nat}

theorem found_nil : Found adj start [] where
  nodup := .nil
  adjacent := fun l x r h => by simp at h

theorem Found.of_append (h : Found adj start (l ++ r)) : Found adj start l where
  nodup := (List.nodup_append.mp h.nodup).1
  adjacent := fun l' x r' heq => h.adjacent l' x (r' ++ r) (by rw [heq, List.append_assoc]; rfl)

theorem Found.concat (h : Found adj start order) (hx : x ∉ order)
    (hadj : x = start ∨ ∃ y ∈ order, adj y x) : Found adj start (order ++ [x]) where
  nodup := List.nodup_append.mpr ⟨h.nodup, List.nodup_singleton x, fun a ha b hb => by
    obtain rfl := List.mem_singleton.mp hb
    exact fun heq => hx (heq ▸ ha)⟩
  adjacent := fun l y r heq => by
    rcases List.eq_nil_or_concat r with rfl | ⟨r, z, rfl⟩
    · obtain ⟨rfl, hsingle⟩ := List.append_inj' heq rfl
      obtain rfl := List.singleton_inj.mp hsingle
      exact hadj
    · rw [List.concat_eq_append, ← List.cons_append, ← List.append_assoc] at heq
      exact h.adjacent l y r (List.append_inj' heq rfl).1

theorem Found.reaches (h : Found adj start order) (hx : x ∈ order) :
    Relation.ReflTransGen adj start x := by
  induction order using List.reverseRecOn generalizing x with
  | nil => cases hx
  | append_singleton order y ih =>
      rcases List.mem_append.mp hx with hx | hx
      · exact ih h.of_append hx
      · obtain rfl := List.mem_singleton.mp hx
        rcases h.adjacent order x [] rfl with rfl | ⟨z, hz, hadj⟩
        · exact .refl
        · exact (ih h.of_append hz).tail hadj

/-- A search that leaves no edge out comes to every node that can be reached. -/
theorem Found.mem_iff (h : Found adj start order) (hstart : start ∈ order)
    (hclosed : ∀ y ∈ order, ∀ z, adj y z → z ∈ order) :
    x ∈ order ↔ Relation.ReflTransGen adj start x := by
  refine ⟨h.reaches, fun hreach => ?_⟩
  induction hreach with
  | refl => exact hstart
  | tail _ hadj ih => exact hclosed _ ih _ hadj

/-! Distances. -/

theorem exists_distance (h : Steps adj start n x) : ∃ m, m ≤ n ∧ Distance adj start x m := by
  classical
  have hex : ∃ m, Steps adj start m x := ⟨n, h⟩
  exact ⟨Nat.find hex, Nat.find_min' hex h, Nat.find_spec hex, fun m hm => Nat.find_min hex hm⟩

theorem distance_start : Distance adj start start 0 :=
  ⟨rfl, fun m hm => absurd hm (Nat.not_lt_zero m)⟩

theorem Distance.unique (h : Distance adj start x m) (h' : Distance adj start x n) : m = n := by
  rcases Nat.lt_trichotomy m n with hlt | heq | hlt
  · exact absurd h.1 (h'.2 m hlt)
  · exact heq
  · exact absurd h'.1 (h.2 n hlt)

theorem within_zero : Within adj start [start] 0 := by
  intro x
  rw [List.mem_singleton]
  constructor
  · rintro rfl
    exact ⟨0, Nat.le_refl 0, distance_start⟩
  · intro ⟨m, hm, hdistance⟩
    obtain rfl := Nat.le_zero.mp hm
    exact hdistance.1

/-- A new node behind those of distance `n` has the next distance. -/
theorem Within.next (h : Within adj start order n) (hx : x ∉ order)
    (hy : Distance adj start y n) (hadj : adj y x) : Distance adj start x (n + 1) := by
  refine ⟨⟨y, hy.1, hadj⟩, fun m hm hsteps => hx ?_⟩
  obtain ⟨k, hk, hdistance⟩ := exists_distance hsteps
  exact (h x).mpr ⟨k, by omega, hdistance⟩

theorem Distance.pred (h : Distance adj start x (n + 1)) :
    ∃ y, Distance adj start y n ∧ adj y x := by
  obtain ⟨y, hsteps, hadj⟩ := h.1
  exact ⟨y, ⟨hsteps, fun m hm hshort => h.2 (m + 1) (Nat.succ_lt_succ hm) ⟨y, hshort, hadj⟩⟩, hadj⟩

/-- The nodes of one more distance come. -/
theorem Within.append (h : Within adj start l n) (hnew : ∀ x ∈ r, Distance adj start x (n + 1))
    (hall : ∀ y x, Distance adj start y n → adj y x → x ∈ l ++ r) :
    Within adj start (l ++ r) (n + 1) := by
  intro x
  constructor
  · intro hx
    rcases List.mem_append.mp hx with hx | hx
    · obtain ⟨m, hm, hdistance⟩ := (h x).mp hx
      exact ⟨m, Nat.le_succ_of_le hm, hdistance⟩
    · exact ⟨n + 1, Nat.le_refl _, hnew x hx⟩
  · intro ⟨m, hm, hdistance⟩
    rcases Nat.lt_or_eq_of_le hm with hlt | rfl
    · exact List.mem_append_left r ((h x).mpr ⟨m, Nat.le_of_lt_succ hlt, hdistance⟩)
    · obtain ⟨y, hy, hadj⟩ := hdistance.pred
      exact hall y x hy hadj

theorem Within.mem_new_iff (h : Within adj start l n)
    (hnew : ∀ x ∈ r, Distance adj start x (n + 1))
    (hall : ∀ y x, Distance adj start y n → adj y x → x ∈ l ++ r) :
    x ∈ r ↔ Distance adj start x (n + 1) := by
  refine ⟨hnew x, fun hdistance => ?_⟩
  obtain ⟨y, hy, hadj⟩ := hdistance.pred
  rcases List.mem_append.mp (hall y x hy hadj) with hx | hx
  · obtain ⟨m, hm, hshort⟩ := (h x).mp hx
    have heq := hdistance.unique hshort
    omega
  · exact hx

/-- No edge leads further than one distance more. -/
theorem Within.closed (h : Within adj start order n)
    (hlast : ∀ x y, Distance adj start x n → adj x y → y ∈ order) (hx : x ∈ order)
    (hadj : adj x y) : y ∈ order := by
  obtain ⟨m, hm, hdistance⟩ := (h x).mp hx
  rcases Nat.lt_or_eq_of_le hm with hlt | rfl
  · have hsteps : Steps adj start (m + 1) y := ⟨x, hdistance.1, hadj⟩
    obtain ⟨k, hk, hy⟩ := exists_distance hsteps
    exact (h y).mpr ⟨k, Nat.le_trans hk hlt, hy⟩
  · exact hlast x y hdistance hadj

theorem Sorted.append (h : Sorted adj start l) (hl : ∀ x ∈ l, ∃ m, m ≤ n ∧ Distance adj start x m)
    (hr : ∀ x ∈ r, Distance adj start x (n + 1)) : Sorted adj start (l ++ r) := by
  refine List.pairwise_append.mpr ⟨h, ?_, fun a ha b hb i j hi hj => ?_⟩
  · refine List.pairwise_of_forall_mem_list fun a ha b hb i j hi hj => ?_
    rw [hi.unique (hr a ha), hj.unique (hr b hb)]
  · obtain ⟨m, hm, hdistance⟩ := hl a ha
    rw [hi.unique hdistance, hj.unique (hr b hb)]
    exact Nat.le_succ_of_le hm

end GraphSearch

end RebuildTheWheel.Data
