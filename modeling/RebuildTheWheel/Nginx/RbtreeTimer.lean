import RebuildTheWheel.Data.CyclicWindow
import RebuildTheWheel.Nginx.RbtreeRun

namespace RebuildTheWheel.Nginx

open Data Data.RedBlack Data.Links Data.CyclicWindow

namespace Rbtree

variable {w : Nat} {s : Rbtree (BitVec w)} {top fuel n : Nat} {fs : Around (BitVec w)}
  {t : Shape (BitVec w)} {base : BitVec w} {linked : List (Nat × BitVec w)}

/-! The tree of the timers, whose keys count in a cycle. -/

def insert_timer_value : Nat → Rbtree (BitVec w) → Nat → Nat → Option (Rbtree (BitVec w))
  | 0, _, _, _ => none
  | fuel + 1, s, temp, node => do
      let d : Dir := if ((← s.loadKey node) - (← s.loadKey temp)).toInt < 0 then .left else .right
      let p ← s.loadChild d temp
      if p = sentinel then
        let s ← s.storeChild d temp node
        let s ← s.storeParent node temp
        let s ← s.storeChild .left node sentinel
        let s ← s.storeChild .right node sentinel
        s.storeColor node .red
      else insert_timer_value fuel s p node

/-- `ngx_rbtree_insert`, with `ngx_rbtree_insert_timer_value`. -/
def insertTimer (fuel : Nat) (s : Rbtree (BitVec w)) (node : Nat) : Option (Rbtree (BitVec w)) := do
  if s.root = sentinel then
    let s ← s.storeParent node NULL
    let s ← s.storeChild .left node sentinel
    let s ← s.storeChild .right node sentinel
    let s ← s.storeColor node .black
    some (s.setRoot node)
  else
    let s ← insert_timer_value fuel s s.root node
    insertFixup fuel s node

def stepTimer (fuel : Nat) (s : Rbtree (BitVec w)) : Op (BitVec w) → Option (Rbtree (BitVec w))
  | .insert node key => do
      let s ← s.storeKey node key
      s.insertTimer fuel node
  | .delete node => s.delete fuel node

/-- All keys lie among the `n` words from `base` on. -/
def Within (base : BitVec w) (n : Nat) (linked : List (Nat × BitVec w)) : Prop :=
  ∀ a ∈ linked, offset base a.2 < n

/-- All keys lie in some window of less than half of the cycle. -/
def Windowed (linked : List (Nat × BitVec w)) : Prop :=
  ∃ base n, n < 2 ^ (w - 1) ∧ Within base n linked

/-- The keys lie in a window after every operation. The window may move. -/
def StaysWindowed : List (Nat × BitVec w) → List (Op (BitVec w)) → Prop
  | linked, [] => Windowed linked
  | linked, op :: ops => Windowed linked ∧ StaysWindowed (relink linked op) ops

/-! Within a window the timers are inserted where their offsets are. -/

theorem insert_timer_value_eq (fuel : Nat) {x : Node (BitVec w)} {left right : Shape (BitVec w)}
    {a : Nat} (hn : n ≤ 2 ^ (w - 1)) (h : s.At top fs (.node x left right))
    (hwithin : Within base n (entries (.node x left right))) (ha : a ≠ NULL)
    (hkey : offset base (s.data a) < n) :
    insert_timer_value fuel s x.addr a = @insert_value _ (windowOrder base) fuel s x.addr a := by
  induction fuel generalizing fs x left right with
  | zero => rfl
  | succ fuel ih =>
      have hload : s.loadKey a = some (s.data a) := if_neg ha
      have hx : offset base x.data < n := hwithin (entry x) (by simp [entries])
      have hless := precedes_iff hn hkey hx
      have hd : (if (s.data a - x.data).toInt < 0 then Dir.left else .right) =
          if (windowOrder base).lt (s.data a) x.data then Dir.left else .right :=
        if_congr hless rfl rfl
      obtain ⟨d, hd'⟩ : ∃ d, (if (windowOrder base).lt (s.data a) x.data then Dir.left else .right) = d :=
        ⟨_, rfl⟩
      obtain ⟨near, far, hjoin⟩ := exists_join d x left right
      rw [hjoin] at h hwithin
      have hkeys : s.loadKey x.addr = some x.data := h.loadKey
      simp only [insert_timer_value, insert_value, hload, hkeys, Option.bind_eq_bind,
        Option.bind_some, hd, hd', h.loadChild]
      cases near with
      | nil => rw [addr, if_pos rfl, if_pos rfl]
      | node y l r =>
          have hne : y.addr ≠ sentinel := At.ne_sentinel (d := .left) h.down
          rw [addr_node, if_neg hne, if_neg hne]
          refine ih h.down fun b hb => hwithin b ?_
          rw [entries_join]
          cases d <;> simp [beside, hb]

theorem insertTimer_eq {a : Nat} (hn : n ≤ 2 ^ (w - 1)) (h : s.At top [] t)
    (hwithin : Within base n (entries t)) (ha : a ≠ NULL) (hkey : offset base (s.data a) < n) :
    insertTimer fuel s a = @Rbtree.insert _ (windowOrder base) fuel s a := by
  unfold insertTimer Rbtree.insert
  cases t with
  | nil =>
      have hroot : s.root = sentinel := h.root
      rw [if_pos hroot, if_pos hroot]
  | node x left right =>
      have hroot : s.root = x.addr := h.root
      rw [hroot, insert_timer_value_eq fuel hn h hwithin ha hkey]

/-- The order that a window gives. -/
def TimerSorted (nodes : List (Nat × BitVec w)) : Prop := nodes.Pairwise fun a b => ¬Precedes b.2 a.2

theorem timerSorted_iff {nodes : List (Nat × BitVec w)} (hn : n ≤ 2 ^ (w - 1))
    (hwithin : Within base n nodes) :
    TimerSorted nodes ↔ nodes.Pairwise fun a b => offset base a.2 ≤ offset base b.2 := by
  refine List.Pairwise.iff_of_mem fun {a b} ha hb => ?_
  rw [precedes_iff hn (hwithin b hb) (hwithin a ha), Nat.not_lt]

/-- The tree of the timers in memory. -/
structure HoldsTimers (fuel : Nat) (s : Rbtree (BitVec w)) (linked : List (Nat × BitVec w))
    (top : Nat) (t : Shape (BitVec w)) : Prop where
  stands : s.At top [] t
  balanced : ∃ m, Balanced t .black m
  sorted : TimerSorted (entries t)
  linked : (entries t).Perm linked
  visit : s.visit fuel = some ((entries t).map Prod.fst)

theorem Within.perm {nodes : List (Nat × BitVec w)} (h : Within base n linked)
    (hperm : nodes.Perm linked) : Within base n nodes := fun a ha => h a (hperm.mem_iff.mp ha)

theorem holdsTimers_iff (hn : n ≤ 2 ^ (w - 1)) (hwithin : Within base n linked) :
    s.HoldsTimers fuel linked top t ↔ @Holds _ (windowOrder base) fuel s linked top t := by
  constructor
  · intro ⟨hat, hbalanced, hsorted, hlinked, hvisit⟩
    exact @Holds.mk _ (windowOrder base) _ _ _ _ _ hat hbalanced
      ((timerSorted_iff hn (hwithin.perm hlinked)).mp hsorted) hlinked hvisit
  · rintro ⟨hat, hbalanced, hsorted, hlinked, hvisit⟩
    exact ⟨hat, hbalanced, (timerSorted_iff hn (hwithin.perm hlinked)).mpr hsorted, hlinked, hvisit⟩

theorem HoldsTimers.insert {a : Nat} {k : BitVec w} (h : s.HoldsTimers fuel linked top t)
    (hout : Outside a linked) (hwindow : Windowed ((a, k) :: linked))
    (hfuel : linked.length + 1 < fuel) :
    ∃ s' top' t', s.stepTimer fuel (.insert a k) = some s' ∧
      s'.HoldsTimers fuel ((a, k) :: linked) top' t' := by
  obtain ⟨base, n, hn, hwithin⟩ := hwindow
  obtain ⟨hkey, hold⟩ := List.forall_mem_cons.mp hwithin
  obtain ⟨s', top', t', hs', hholds⟩ := @Holds.insert _ _ _ _ _ (windowOrder base) _ _
    ((holdsTimers_iff hn.le hold).mp h) k hout hfuel
  refine ⟨s', top', t', ?_, (holdsTimers_iff hn.le hwithin).mpr hholds⟩
  have hat := h.stands.setData k (hout.perm h.linked)
  have hdata : (s.setData a k).data a = k := if_pos rfl
  have hinsert : insertTimer fuel (s.setData a k) a =
      @Rbtree.insert _ (windowOrder base) fuel (s.setData a k) a :=
    insertTimer_eq hn.le hat (Within.perm hold h.linked) hout.ne_null (by rw [hdata]; exact hkey)
  rw [← hs']
  simp only [stepTimer, storeKey, if_neg hout.ne_null, Option.bind_eq_bind, Option.bind_some]
  exact hinsert

theorem HoldsTimers.delete {a : Nat} (h : s.HoldsTimers fuel linked top t)
    (hwindow : Windowed linked) (ha : a ∈ linked.map Prod.fst) (hfuel : linked.length < fuel) :
    ∃ s' top' t', s.stepTimer fuel (.delete a) = some s' ∧
      s'.HoldsTimers fuel (linked.filter fun b => b.1 ≠ a) top' t' := by
  obtain ⟨base, n, hn, hwithin⟩ := hwindow
  obtain ⟨s', top', t', hs', hholds⟩ := @Holds.delete _ _ _ _ _ (windowOrder base) _ _ _
    ((holdsTimers_iff hn.le hwithin).mp h) ha hfuel
  have hrest : Within base n (linked.filter fun b => b.1 ≠ a) := fun b hb =>
    hwithin b (List.mem_of_mem_filter hb)
  exact ⟨s', top', t', hs', (holdsTimers_iff hn.le hrest).mpr hholds⟩

theorem StaysWindowed.head {ops : List (Op (BitVec w))} (h : StaysWindowed linked ops) :
    Windowed linked := by
  cases ops with
  | nil => exact h
  | cons op ops => exact h.1

theorem HoldsTimers.run (ops : List (Op (BitVec w))) (h : s.HoldsTimers fuel linked top t)
    (hops : WellUsed linked ops) (hwindows : StaysWindowed linked ops)
    (hfuel : linked.length + ops.length < fuel) :
    ∃ s' top' t', ops.foldlM (stepTimer fuel) s = some s' ∧
      s'.HoldsTimers fuel (ops.foldl relink linked) top' t' := by
  induction ops generalizing s linked top t with
  | nil => exact ⟨s, top, t, rfl, h⟩
  | cons op ops ih =>
      rw [List.length_cons] at hfuel
      obtain ⟨hop, hops⟩ := hops
      obtain ⟨hwindow, hwindows⟩ := hwindows
      have hlength := length_relink_le linked op
      obtain ⟨s₁, top₁, t₁, hs₁, h₁⟩ : ∃ s₁ top₁ t₁, stepTimer fuel s op = some s₁ ∧
          s₁.HoldsTimers fuel (relink linked op) top₁ t₁ := by
        cases op with
        | insert a k => exact h.insert hop hwindows.head (by omega)
        | delete a => exact h.delete hwindow hop (by omega)
      obtain ⟨s', top', t', hs', h'⟩ := ih h₁ hops hwindows (by omega)
      refine ⟨s', top', t', ?_, h'⟩
      rw [List.foldlM_cons, hs₁]
      exact hs'

theorem HoldsTimers.min {a : Nat × BitVec w} {later : List (Nat × BitVec w)}
    (h : s.HoldsTimers fuel linked top t) (ht : entries t = a :: later)
    (hfuel : linked.length < fuel) : s.min fuel s.root = some a.1 := by
  rw [← h.linked.length_eq] at hfuel
  cases t with
  | nil => exact absurd ht (List.cons_ne_nil a later).symm
  | node x left right =>
      have hroot : s.root = x.addr := h.stands.root
      rw [hroot, first_spec h.stands hfuel, ht]
      rfl

theorem init_holdsTimers (s : Rbtree (BitVec w)) (hfuel : 0 < fuel) :
    s.init.HoldsTimers fuel [] NULL .nil := by
  have hpositive : 0 < 2 ^ (w - 1) := Nat.two_pow_pos _
  have hempty : Within (0 : BitVec w) 0 [] := fun a ha => absurd ha List.not_mem_nil
  exact (holdsTimers_iff hpositive.le hempty).mpr (@init_holds _ _ (windowOrder 0) s hfuel)

/-- Every run of insertions and removals, while a window holds all keys. In each window that does,
the traversal goes from the earliest timer to the latest, and `ngx_rbtree_min` finds the earliest. -/
theorem timers_ordered (s : Rbtree (BitVec w)) (ops : List (Op (BitVec w))) (hops : WellUsed [] ops)
    (hwindows : StaysWindowed [] ops) (hfuel : ops.length < fuel) :
    ∃ s' top t, ops.foldlM (stepTimer fuel) s.init = some s' ∧
      s'.HoldsTimers fuel (ops.foldl relink []) top t ∧
      ∀ (base : BitVec w) (n : Nat), n < 2 ^ (w - 1) → Within base n (ops.foldl relink []) →
        ((entries t).Pairwise fun a b => offset base a.2 ≤ offset base b.2) ∧
          (ops.foldl relink [] ≠ [] → ∃ a ∈ ops.foldl relink [], s'.min fuel s'.root = some a.1 ∧
            ∀ b ∈ ops.foldl relink [], offset base a.2 ≤ offset base b.2) := by
  obtain ⟨s', top, t, hs', hholds⟩ := (init_holdsTimers s (Nat.zero_lt_of_lt hfuel)).run ops hops
    hwindows (by simpa using hfuel)
  refine ⟨s', top, t, hs', hholds, fun base n hn hwithin => ?_⟩
  have hsorted := (timerSorted_iff hn.le (hwithin.perm hholds.linked)).mp hholds.sorted
  refine ⟨hsorted, fun hne => ?_⟩
  have hnonempty : entries t ≠ [] := fun hnil => by
    have hperm := hholds.linked
    rw [hnil] at hperm
    exact hne hperm.nil_eq.symm
  obtain ⟨a, later, ht⟩ := List.exists_cons_of_ne_nil hnonempty
  have ha : a ∈ entries t := ht ▸ List.mem_cons_self
  have hlength := length_foldl_relink_le ops ([] : List (Nat × BitVec w))
  refine ⟨a, hholds.linked.mem_iff.mp ha, hholds.min ht (hlength.trans_lt (by simpa using hfuel)),
    fun b hb => ?_⟩
  have hb := hholds.linked.mem_iff.mpr hb
  rw [ht] at hsorted hb
  rcases List.mem_cons.mp hb with rfl | hb
  · exact le_rfl
  · exact (List.pairwise_cons.mp hsorted).1 b hb

/-- A memory in which nothing is set. -/
def blankTimers : Rbtree (BitVec 4) :=
  ⟨NULL, fun _ => NULL, fun _ _ => NULL, fun _ => .red, fun _ => 0⟩

/-- The second timer is set behind the wrap. -/
theorem timers_ordered_wrap : ∃ (s' : Rbtree (BitVec 4)) (top : Nat) (t : Shape (BitVec 4)),
    [Op.insert 2 15, .insert 3 1].foldlM (stepTimer 4) blankTimers.init = some s' ∧
      s'.HoldsTimers 4 [(3, 1), (2, 15)] top t := by
  have hops : WellUsed [] [Op.insert 2 (15 : BitVec 4), .insert 3 1] :=
    ⟨⟨by decide, by decide, by decide⟩, ⟨by decide, by decide, by decide⟩, trivial⟩
  have hwindows : StaysWindowed [] [Op.insert 2 (15 : BitVec 4), .insert 3 1] :=
    ⟨⟨14, 7, by decide, fun a ha => nomatch ha⟩, ⟨14, 7, by decide, by unfold Within; decide⟩,
      ⟨14, 7, by decide, by unfold Within; decide⟩⟩
  have hfuel : [Op.insert 2 (15 : BitVec 4), .insert 3 1].length < 4 := by decide
  obtain ⟨s', top, t, hs', hholds, -⟩ := timers_ordered blankTimers _ hops hwindows hfuel
  exact ⟨s', top, t, hs', hholds⟩

end Rbtree

end RebuildTheWheel.Nginx
