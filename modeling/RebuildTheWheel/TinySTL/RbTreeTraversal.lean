import Mathlib.Data.Finset.Card
import RebuildTheWheel.Data.SearchTree
import RebuildTheWheel.TinySTL.RbTree

namespace RebuildTheWheel.TinySTL.RbTree

open Data SearchTree ThreadedTree

variable {κ β : Type}

/-! `inorder_traversal` and `preorder_traversal`. What is written is kept as the list of
the keys. -/

/-- `while (free->right != nil && free->right != p) free = free->right;` -/
def findThread (s : RbTree κ β) (p : Nat) : Nat → Nat → Option Nat
  | 0, _ => none
  | fuel + 1, free => do
      let r ← s.loadChild .right free
      if r ≠ NIL ∧ r ≠ p then findThread s p fuel r else some free

/-- `std::cout << p->key` -/
def write (s : RbTree κ β) (p : Nat) (out : List κ) : Option (List κ) := do
  let k ← s.loadKey p
  some (out ++ [k])

/-- The loop of both traversals. The key of a node with a left child is written when the
thread to it is set if `first`, and when it is taken away otherwise. -/
def traverseLoop (first : Bool) :
    Nat → RbTree κ β → Nat → List κ → Option (RbTree κ β × List κ)
  | 0, _, _, _ => none
  | fuel + 1, s, p, out =>
      if p = NIL then some (s, out)
      else do
        let free ← s.loadChild .left p
        if free ≠ NIL then
          let free ← s.findThread p s.fresh free
          if (← s.loadChild .right free) = NIL then
            let out ← if first then s.write p out else some out
            let s ← s.storeChild .right free p
            traverseLoop first fuel s (← s.loadChild .left p) out
          else
            let s ← s.storeChild .right free NIL
            let out ← if first then some out else s.write p out
            traverseLoop first fuel s (← s.loadChild .right p) out
        else
          let out ← s.write p out
          traverseLoop first fuel s (← s.loadChild .right p) out

/-- A bound that no traversal of a tree uses up. -/
def traversalFuel (s : RbTree κ β) : Nat := 2 * s.fresh + 1

def inorder_traversal (s : RbTree κ β) : Option (RbTree κ β × List κ) :=
  traverseLoop false s.traversalFuel s s.links.root []

def preorder_traversal (s : RbTree κ β) : Option (RbTree κ β × List κ) :=
  traverseLoop true s.traversalFuel s s.links.root []

/-- The tree at `p`, whose last right link is `q`. -/
structure HasTree (s : RbTree κ β) (q p : Nat) (t : BinaryTree Nat) : Prop where
  spans : Spans (s.links.child .left) (s.links.child .right) NIL q p t
  nodup : (nodes t).Nodup
  live : ∀ a ∈ nodes t, s.live a = true
  fresh : ∀ a ∈ nodes t, a < s.fresh

def key (s : RbTree κ β) (a : Nat) : κ := (s.links.data a).1

/-- The nodes in the order in which a traversal writes them. -/
def order (first : Bool) (t : BinaryTree Nat) : List Nat := if first then preorder t else nodes t

/-- The number of rounds of the loop. -/
def rounds : BinaryTree Nat → Nat
  | .nil => 0
  | .node _ l m => (if isNil l then 1 else 2) + rounds l + rounds m

theorem rounds_le (t : BinaryTree Nat) : rounds t ≤ 2 * (nodes t).length := by
  induction t with
  | nil => exact le_rfl
  | node x l m ihl ihm =>
      rw [rounds, nodes_node, List.length_append, List.length_cons]
      split_ifs <;> omega

variable {s : RbTree κ β} {p q x : Nat} {t l m : BinaryTree Nat} {first : Bool}

theorem HasTree.length_le (h : s.HasTree q p t) : (nodes t).length ≤ s.fresh := by
  have hsub : nodes t ⊆ List.range s.fresh := fun a ha => List.mem_range.mpr (h.fresh a ha)
  have hle := (List.subperm_of_subset h.nodup hsub).length_le
  rwa [List.length_range] at hle

theorem HasTree.left (h : s.HasTree q p (.node x l m)) :
    s.HasTree NIL (s.links.child .left x) l :=
  ⟨h.spans.2.2.1, (List.nodup_append.mp h.nodup).1,
    fun a ha => h.live a (List.mem_append_left _ ha),
    fun a ha => h.fresh a (List.mem_append_left _ ha)⟩

theorem HasTree.right (h : s.HasTree q p (.node x l m)) :
    s.HasTree q (s.links.child .right x) m := by
  obtain ⟨-, hxm, -⟩ := List.nodup_append.mp h.nodup
  exact ⟨h.spans.2.2.2, (List.nodup_cons.mp hxm).2,
    fun a ha => h.live a (List.mem_append_right _ (List.mem_cons_of_mem x ha)),
    fun a ha => h.fresh a (List.mem_append_right _ (List.mem_cons_of_mem x ha))⟩

theorem HasTree.live_root (h : s.HasTree q p (.node x l m)) : s.live x = true :=
  h.live x (List.mem_append_right _ List.mem_cons_self)

theorem findThread_eq (h : s.HasTree q x (.node x l m)) (hq : q = NIL ∨ q = p)
    (hp : p ∉ nodes (.node x l m)) {fuel : Nat} (hfuel : (nodes m).length < fuel) :
    s.findThread p fuel x = some (lastFrom x m) := by
  induction m generalizing x l fuel with
  | nil =>
      cases fuel with
      | zero => cases hfuel
      | succ fuel =>
          have hright : s.links.child .right x = q := h.spans.2.2.2
          have hstop : ¬(q ≠ NIL ∧ q ≠ p) := fun hne => hq.elim hne.1 hne.2
          simp [findThread, loadChild, h.live_root, hright, hstop, lastFrom]
  | node y l' m _ ih =>
      cases fuel with
      | zero => cases hfuel
      | succ fuel =>
          have hm := h.right
          have hright : s.links.child .right x = y := hm.spans.1
          rw [hright] at hm
          have hpm : p ∉ nodes (.node y l' m) := fun hmem =>
            hp (List.mem_append_right _ (List.mem_cons_of_mem x hmem))
          have hy : y ≠ NIL ∧ y ≠ p := by
            refine ⟨hm.spans.2.1, ?_⟩
            rintro rfl
            exact hpm (List.mem_append_right _ List.mem_cons_self)
          have hfuel' : (nodes m).length < fuel := by
            rw [nodes_node, List.length_append, List.length_cons] at hfuel
            omega
          simp only [findThread, loadChild, h.live_root, hright, if_true, if_pos hy,
            Option.bind_eq_bind, Option.bind_some]
          exact ih hm hpm hfuel'

/-- A right link is set. -/
def thread (s : RbTree κ β) (e p : Nat) : RbTree κ β :=
  { s with links := s.links.setChild .right e p }

theorem storeChild_eq {e p : Nat} (he : s.live e = true) :
    s.storeChild .right e p = some (s.thread e p) :=
  if_pos he

theorem loadChild_eq {a : Nat} {d : Dir} (ha : s.live a = true) :
    s.loadChild d a = some (s.links.child d a) :=
  if_pos ha

theorem write_eq {a : Nat} (ha : s.live a = true) (out : List κ) :
    s.write a out = some (out ++ [s.key a]) := by
  simp [write, loadKey, ha, key]

theorem thread_key (e p : Nat) : (s.thread e p).key = s.key := rfl

theorem thread_left (e a : Nat) :
    (s.thread e p).links.child .left a = s.links.child .left a := by
  simp [thread, Links.setChild]

theorem thread_right (e a : Nat) :
    (s.thread e p).links.child .right a = if a = e then p else s.links.child .right a := by
  simp [thread, Links.setChild]

theorem thread_thread {e : Nat} (he : s.links.child .right e = q) :
    (s.thread e p).thread e q = s := by
  obtain ⟨links, live, fresh⟩ := s
  obtain ⟨root, parent, child, color, data⟩ := links
  simp only [thread, Links.setChild, mk.injEq, Links.mk.injEq, true_and, and_true]
  funext d a
  by_cases hda : d = .right ∧ a = e
  · obtain ⟨rfl, rfl⟩ := hda
    simpa using he.symm
  · simp [hda]

theorem HasTree.thread (h : s.HasTree q p (.node x l m)) (r : Nat) :
    (s.thread (lastFrom x m) r).HasTree r p (.node x l m) := by
  refine ⟨h.spans.rethread h.nodup (fun a => thread_left _ a) ?_ fun a ha => ?_, h.nodup, h.live,
    h.fresh⟩
  · rw [thread_right, if_pos rfl]
  · rw [thread_right, if_neg ha]

/-- What the two visits of a node with a left child find. -/
structure Threads (s : RbTree κ β) (p y e : Nat) : Prop where
  ne_nil : p ≠ NIL
  live : s.live p = true
  left : s.links.child .left p = y
  left_ne_nil : y ≠ NIL
  find : s.findThread p s.fresh y = some e
  find_thread : (s.thread e p).findThread p s.fresh y = some e
  live_last : s.live e = true
  right_last : s.links.child .right e = NIL
  ne_last : p ≠ e

theorem HasTree.threads {y : Nat} {l' m' : BinaryTree Nat}
    (h : s.HasTree q p (.node p (.node y l' m') m)) : s.Threads p y (lastFrom y m') := by
  have hleft := h.left
  have hy : s.links.child .left p = y := hleft.spans.1
  rw [hy] at hleft
  have hp : p ∉ nodes (.node y l' m') := by
    have hapart := (List.nodup_append.mp h.nodup).2.2
    exact fun hmem => hapart p hmem p List.mem_cons_self rfl
  have hlast := lastFrom_mem y l' m'
  have hfuel : (nodes m').length < s.fresh := by
    have hle := hleft.length_le
    rw [nodes_node, List.length_append, List.length_cons] at hle
    omega
  refine ⟨h.spans.2.1, h.live_root, hy, hleft.spans.2.1, ?_, ?_, hleft.live _ hlast,
    hleft.spans.right_last, ?_⟩
  · exact findThread_eq hleft (.inl rfl) hp hfuel
  · exact findThread_eq (hleft.thread p) (.inr rfl) hp hfuel
  · exact fun heq => hp (heq ▸ hlast)

/-- The first visit sets the thread. -/
theorem Threads.first_visit {y e : Nat} (h : s.Threads p y e) (first : Bool) (fuel : Nat)
    (out : List κ) :
    traverseLoop first (fuel + 1) s p out =
      traverseLoop first fuel (s.thread e p) y (if first then out ++ [s.key p] else out) := by
  have hlinks : (s.thread e p).links.child .left p = y := (thread_left e p).trans h.left
  have hleft : (s.thread e p).loadChild .left p = some y := hlinks ▸ loadChild_eq h.live
  rw [traverseLoop, if_neg h.ne_nil, loadChild_eq h.live, h.left]
  simp only [Option.bind_eq_bind, Option.bind_some, if_pos h.left_ne_nil, h.find,
    loadChild_eq h.live_last, h.right_last, if_true, write_eq h.live, storeChild_eq h.live_last]
  cases first <;> simp only [Bool.false_eq_true, if_true, if_false, Option.bind_some, hleft]

/-- The second visit takes it away. -/
theorem Threads.second_visit {y e : Nat} (h : s.Threads p y e) (first : Bool) (fuel : Nat)
    (out : List κ) :
    traverseLoop first (fuel + 1) (s.thread e p) p out =
      traverseLoop first fuel s (s.links.child .right p)
        (if first then out else out ++ [s.key p]) := by
  have hlive : (s.thread e p).live p = true := h.live
  have hliveLast : (s.thread e p).live e = true := h.live_last
  have hleft : (s.thread e p).links.child .left p = y := (thread_left e p).trans h.left
  have hright : (s.thread e p).links.child .right e = p := (thread_right e e).trans (if_pos rfl)
  have hfind : (s.thread e p).findThread p (s.thread e p).fresh y = some e := h.find_thread
  rw [traverseLoop, if_neg h.ne_nil, loadChild_eq hlive, hleft]
  simp only [Option.bind_eq_bind, Option.bind_some, if_pos h.left_ne_nil, hfind,
    loadChild_eq hliveLast, hright, if_neg h.ne_nil, storeChild_eq hliveLast,
    thread_thread h.right_last, write_eq h.live, loadChild_eq h.live]
  cases first <;> simp only [Bool.false_eq_true, if_true, if_false]

/-- From the root of a tree the loop comes to what its last right link points to. It has
written the nodes, and the links are as before. -/
theorem traverseLoop_eq (first : Bool) (fuel : Nat) (h : s.HasTree q p t) (hq : q ∉ nodes t)
    (out : List κ) :
    traverseLoop first (rounds t + fuel) s p out =
      traverseLoop first fuel s q (out ++ (order first t).map s.key) := by
  induction t generalizing s p q fuel out with
  | nil =>
      have hp : p = q := h.spans
      cases first <;> simp [rounds, order, preorder, hp]
  | node x l m ihl ihm =>
      have hp : p = x := h.spans.1
      subst hp
      have hqm : q ∉ nodes m := fun hmem =>
        hq (List.mem_append_right _ (List.mem_cons_of_mem p hmem))
      have hright := fun out => ihm fuel h.right hqm out
      cases l with
      | nil =>
          have hlive := h.live_root
          have hl : s.links.child .left p = NIL := h.spans.2.2.1
          have hrounds : rounds (.node p .nil m) + fuel = rounds m + fuel + 1 := by
            simp only [rounds, isNil_nil, if_true]
            omega
          have horder : order first (.node p .nil m) = p :: order first m := by
            cases first <;> rfl
          rw [hrounds, traverseLoop, if_neg h.spans.2.1, horder, List.map_cons, List.append_cons,
            ← hright (out ++ [s.key p])]
          simp [loadChild, hlive, hl, write, loadKey, key]
      | node y l' m' =>
          have hthreads := h.threads
          have hleft := h.left
          rw [hthreads.left] at hleft
          have hp : p ∉ nodes (.node y l' m') := by
            have hapart := (List.nodup_append.mp h.nodup).2.2
            exact fun hmem => hapart p hmem p List.mem_cons_self rfl
          have hrounds : rounds (.node p (.node y l' m') m) + fuel =
              rounds (.node y l' m') + (rounds m + fuel + 1) + 1 := by
            rw [rounds, isNil_node]
            simp only [Bool.false_eq_true, if_false]
            omega
          have hvisit := fun out => ihl (rounds m + fuel + 1) (hleft.thread p) hp out
          rw [hrounds, hthreads.first_visit, hvisit, hthreads.second_visit, hright]
          cases first with
          | false => simp [order, thread_key]
          | true => simp [order, preorder, thread_key]

/-- A traversal of a tree ends, writes each key once in its order, and leaves everything in
memory as it was. -/
theorem traversal_spec (s : RbTree κ β) (t : BinaryTree Nat) (h : s.HasTree NIL s.links.root t) :
    s.inorder_traversal = some (s, (nodes t).map s.key) ∧
      s.preorder_traversal = some (s, (preorder t).map s.key) := by
  have hfuel : s.traversalFuel = rounds t + (s.traversalFuel - rounds t - 1 + 1) := by
    have hrounds := rounds_le t
    have hlength := h.length_le
    rw [traversalFuel]
    omega
  have hend : ∀ first, traverseLoop first s.traversalFuel s s.links.root [] =
      some (s, (order first t).map s.key) := by
    intro first
    rw [hfuel, traverseLoop_eq first _ h h.spans.ne_nil, traverseLoop, if_pos rfl, List.nil_append]
  exact ⟨hend false, hend true⟩

/-- The node 2 with the children 3 and 4, and 5 on the right of 3. -/
def fourNodes : RbTree Nat Unit where
  links :=
    { root := 2
      parent := fun _ => NIL
      child := fun d a => match d, a with
        | .left, 2 => 3
        | .right, 2 => 4
        | .right, 3 => 5
        | _, _ => NIL
      color := fun _ => .black
      data := fun a => (10 * a, ()) }
  live := fun a => decide (1 ≤ a ∧ a ≤ 5)
  fresh := 6

theorem traversal_spec_fourNodes :
    fourNodes.inorder_traversal = some (fourNodes, [30, 50, 20, 40]) ∧
      fourNodes.preorder_traversal = some (fourNodes, [20, 30, 50, 40]) :=
  traversal_spec fourNodes
    (.node 2 (.node 3 .nil (.node 5 .nil .nil)) (.node 4 .nil .nil))
    ⟨by simp [Spans, fourNodes, NIL], by simp, by simp [fourNodes], by simp [fourNodes]⟩

end RebuildTheWheel.TinySTL.RbTree
