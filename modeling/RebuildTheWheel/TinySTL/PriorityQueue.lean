import Mathlib.Data.Finset.Max
import Mathlib.Data.Multiset.AddSub
import RebuildTheWheel.Data.Run
import RebuildTheWheel.TinySTL.HeapCompare

namespace RebuildTheWheel.TinySTL

open Data Data.Heap Algorithm

/-! `priority_queue<T>` with the default container and the default comparison, by the elements
of its container. -/

namespace PriorityQueue

variable {T : Type} [LinearOrder T]

/-- The constructor from a range. -/
def construct (range : List T) : Option (List T) := makeHeap range

def top (container : List T) : Option T := container.head?

def push (container : List T) (val : T) : Option (List T) := pushHeap (container ++ [val])

def pop (container : List T) : Option (List T) := do
  let container ← popHeap container
  return container.dropLast

inductive Op (T : Type) where
  | construct (range : List T)
  | push (val : T)
  | pop

def step (container : List T) : Op T → Option (List T)
  | .construct range => PriorityQueue.construct range
  | .push val => PriorityQueue.push container val
  | .pop => PriorityQueue.pop container

/-! The elements pushed and not popped. -/

def removeMax (s : Multiset T) : Multiset T :=
  if h : s.toFinset.Nonempty then s.erase (s.toFinset.max' h) else s

def Op.apply (s : Multiset T) : Op T → Multiset T
  | .construct range => range
  | .push val => val ::ₘ s
  | .pop => removeMax s

/-- Ranges have an element, and the elements can be counted in an `int`. -/
def Admits (s : Multiset T) : Op T → Prop
  | .construct range => range ≠ []
  | .push _ => s.card < 2 ^ 31
  | .pop => s ≠ 0

structure Holds (container : List T) (s : Multiset T) : Prop where
  contents : (container : Multiset T) = s
  heap : container = [] ∨ ∃ a, Reads container a ∧ IsHeap a 0 container.length

structure Shows (container : List T) (s : Multiset T) : Prop where
  contents : (container : Multiset T) = s
  top : s ≠ 0 → ∃ x ∈ s, top container = some x ∧ ∀ y ∈ s, y ≤ x

theorem removeMax_eq {s : Multiset T} {x : T} (hx : x ∈ s) (hmax : ∀ y ∈ s, y ≤ x) :
    removeMax s = s.erase x := by
  have hne : s.toFinset.Nonempty := ⟨x, Multiset.mem_toFinset.mpr hx⟩
  rw [removeMax, dif_pos hne]
  congr 1
  apply le_antisymm
  · exact Finset.max'_le _ hne _ fun y hy => hmax y (Multiset.mem_toFinset.mp hy)
  · exact Finset.le_max' _ _ (Multiset.mem_toFinset.mpr hx)

section

variable {xs : List T} {a : Nat → T}

omit [LinearOrder T] in
theorem mem_of_reads (h : Reads xs a) {i : Nat} (hi : i < xs.length) : a i ∈ xs :=
  List.mem_of_getElem? (h.entry i hi)

theorem le_root (h : Reads xs a) (hheap : IsHeap a 0 xs.length) : ∀ y ∈ xs, y ≤ a 0 := by
  intro y hy
  obtain ⟨i, hi⟩ := List.mem_iff_getElem?.mp hy
  have hlt := (List.getElem?_eq_some_iff.mp hi).1
  rw [h.entry i hlt] at hi
  obtain rfl := Option.some.inj hi
  exact hheap.le_root hlt

end

theorem Holds.ready {xs : List T} {s : Multiset T} (h : Holds xs s) (hne : xs ≠ []) :
    ∃ a, Reads xs a ∧ IsHeap a 0 xs.length :=
  h.heap.resolve_left hne

theorem Holds.shows {xs : List T} {s : Multiset T} (h : Holds xs s) : Shows xs s where
  contents := h.contents
  top := by
    intro hs
    rw [← h.contents] at hs ⊢
    have hne : xs ≠ [] := by
      rintro rfl
      exact hs rfl
    obtain ⟨a, hreads, hheap⟩ := h.ready hne
    have hpos := List.length_pos_iff.mpr hne
    refine ⟨a 0, Multiset.mem_coe.mpr (mem_of_reads hreads hpos), ?_, le_root hreads hheap⟩
    rw [PriorityQueue.top, List.head?_eq_getElem?]
    exact hreads.entry 0 hpos

theorem construct_holds {range : List T} (hne : range ≠ []) :
    ∃ xs, construct range = some xs ∧ Holds xs range := by
  obtain ⟨a, hreads⟩ := exists_reads hne
  obtain ⟨ys, b, hrun, hperm, hreads', hheap⟩ := hreads.makeHeap hne
  rw [← hperm.length_eq] at hheap
  exact ⟨ys, hrun, Multiset.coe_eq_coe.mpr hperm, .inr ⟨b, hreads', hheap⟩⟩

/-- The new element stands behind a heap. -/
theorem push_holds {xs : List T} {s : Multiset T} (h : Holds xs s) (val : T)
    (hcard : s.card < 2 ^ 31) : ∃ ys, push xs val = some ys ∧ Holds ys (val ::ₘ s) := by
  have hlen : (xs ++ [val]).length = xs.length + 1 := by simp
  rw [← h.contents, Multiset.coe_card] at hcard
  obtain ⟨a, hreads⟩ : ∃ a, Reads (xs ++ [val]) a := exists_reads (by simp)
  have hheap : IsHeap a 0 xs.length := by
    rcases h.heap with rfl | ⟨b, hb, hbheap⟩
    · intro i _ hlt
      cases hlt
    · refine hbheap.congr fun i hi => ?_
      have hi' : i < (xs ++ [val]).length := by omega
      have hentry := hreads.entry i hi'
      rw [List.getElem?_append_left hi, hb.entry i hi] at hentry
      exact Option.some.inj hentry
  obtain ⟨ys, b, hrun, hperm, hreads', hheap'⟩ := hreads.pushHeap hlen hcard hheap
  rw [← hperm.length_eq] at hheap'
  refine ⟨ys, hrun, ?_, .inr ⟨b, hreads', hheap'⟩⟩
  rw [Multiset.coe_eq_coe.mpr hperm, ← Multiset.coe_add, h.contents, Multiset.coe_singleton,
    add_comm, Multiset.singleton_add]

theorem pop_holds {xs : List T} {s : Multiset T} (h : Holds xs s) (hs : s ≠ 0) :
    ∃ ys, pop xs = some ys ∧ Holds ys (removeMax s) := by
  have hne : xs ≠ [] := by
    rintro rfl
    exact hs h.contents.symm
  obtain ⟨n, hn⟩ : ∃ n, xs.length = n + 1 := Nat.exists_eq_succ_of_ne_zero
    fun hzero => hne (List.length_eq_zero_iff.mp hzero)
  obtain ⟨a, hreads, hheap⟩ := h.ready hne
  have hmax := le_root hreads hheap
  have hmem := mem_of_reads hreads (i := 0) (by omega)
  rw [hn] at hheap
  obtain ⟨ys, b, hrun, hperm, hreads', hheap', hlast⟩ := hreads.popHeap hn hheap
  have hlen : ys.length = n + 1 := hperm.length_eq.trans hn
  have hynil : ys ≠ [] := by
    rintro rfl
    cases hlen
  have hgetLast : ys.getLast hynil = a 0 := by
    have hentry := hreads'.entry n (by omega)
    rw [← hlast]
    apply Option.some.inj
    rw [← hentry, ← List.getLast?_eq_some_getLast hynil, List.getLast?_eq_getElem?, hlen]
    rfl
  refine ⟨ys.dropLast, ?_, ?_, .inr ⟨b, ⟨?_⟩, ?_⟩⟩
  · rw [pop, hrun]
    rfl
  · have hsplit := List.dropLast_append_getLast hynil
    have hcons : (xs : Multiset T) = a 0 ::ₘ (ys.dropLast : Multiset T) := by
      rw [← Multiset.coe_eq_coe.mpr hperm, ← Multiset.singleton_add, add_comm,
        ← Multiset.coe_singleton, Multiset.coe_add, ← hgetLast, hsplit]
    rw [← h.contents, removeMax_eq (Multiset.mem_coe.mpr hmem) hmax, hcons,
      Multiset.erase_cons_head]
  · intro i hi
    rw [List.length_dropLast] at hi
    rw [List.getElem?_dropLast, if_pos hi]
    exact hreads'.entry i (by omega)
  · rw [List.length_dropLast, hlen]
    exact hheap'

theorem step_holds {xs : List T} {s : Multiset T} (op : Op T) (h : Holds xs s)
    (hop : Admits s op) : ∃ ys, step xs op = some ys ∧ Holds ys (op.apply s) := by
  cases op with
  | construct range => exact construct_holds hop
  | push val => exact push_holds h val hop
  | pop => exact pop_holds h hop

end PriorityQueue

end RebuildTheWheel.TinySTL
