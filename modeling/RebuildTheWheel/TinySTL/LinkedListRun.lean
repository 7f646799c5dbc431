import Mathlib.Logic.Function.Basic
import RebuildTheWheel.Data.Run
import RebuildTheWheel.Data.StableMerge
import RebuildTheWheel.TinySTL.LinkedListMerge

namespace RebuildTheWheel.TinySTL

open Data NodeHeap

namespace LinkedList

/-! Any number of lists, whose nodes are in one heap. -/

structure World (ι T : Type) where
  heap : NodeHeap T
  lists : ι → LinkedList

/-- Positions are numbers of steps from `begin()`. -/
inductive Op (ι T : Type) where
  | pushFront (k : ι) (val : T)
  | pushBack (k : ι) (val : T)
  | popFront (k : ι)
  | popBack (k : ι)
  | insert (k : ι) (i : Nat) (val : T)
  | erase (k : ι) (i : Nat)
  | removeIf (k : ι) (pred : T → Bool)
  | reverse (k : ι)
  | merge (k j : ι) (comp : T → T → Bool)

variable {ι T : Type}

def advance (m : NodeHeap T) : Nat → Nat → Option Nat
  | 0, p => some p
  | i + 1, p => do
      let p ← m.loadNext p
      advance m i p

namespace World

variable [DecidableEq ι]

def put (w : World ι T) (k : ι) (r : NodeHeap T × LinkedList) : World ι T :=
  ⟨r.1, Function.update w.lists k r.2⟩

def step [Inhabited T] (w : World ι T) : Op ι T → Option (World ι T)
  | .pushFront k val => do
      let r ← pushFront w.heap (w.lists k) val
      some (w.put k r)
  | .pushBack k val => do
      let r ← pushBack w.heap (w.lists k) val
      some (w.put k r)
  | .popFront k => do
      let r ← popFront w.heap (w.lists k)
      some (w.put k r)
  | .popBack k => do
      let r ← popBack w.heap (w.lists k)
      some (w.put k r)
  | .insert k i val => do
      let position ← advance w.heap i (w.lists k).head
      let (m, l, _) ← LinkedList.insert w.heap (w.lists k) position val
      some (w.put k (m, l))
  | .erase k i => do
      let position ← advance w.heap i (w.lists k).head
      let (m, l, _) ← LinkedList.erase w.heap (w.lists k) position
      some (w.put k (m, l))
  | .removeIf k pred => do
      let r ← removeIf w.heap (w.lists k) pred
      some (w.put k r)
  | .reverse k => do
      let r ← reverse w.heap (w.lists k)
      some (w.put k r)
  | .merge k j comp => do
      let (m, l, x) ← LinkedList.merge w.heap (w.lists k) (w.lists j) comp
      some ((w.put k (m, l)).put j (m, x))

end World

/-! The sequences the lists stand for. -/

namespace Op

def admits (c : ι → List T) : Op ι T → Prop
  | .pushFront _ _ | .pushBack _ _ | .removeIf _ _ | .reverse _ => True
  | .popFront k | .popBack k => c k ≠ []
  | .insert k i _ => i ≤ (c k).length
  | .erase k i => i < (c k).length
  | .merge k j comp => k ≠ j ∧ StrictWeakOrder comp ∧ Sorted comp (c k) ∧ Sorted comp (c j)

def apply [DecidableEq ι] (c : ι → List T) : Op ι T → ι → List T
  | .pushFront k val => Function.update c k (val :: c k)
  | .pushBack k val => Function.update c k (c k ++ [val])
  | .popFront k => Function.update c k (c k).tail
  | .popBack k => Function.update c k (c k).dropLast
  | .insert k i val => Function.update c k ((c k).take i ++ val :: (c k).drop i)
  | .erase k i => Function.update c k ((c k).eraseIdx i)
  | .removeIf k pred => Function.update c k ((c k).filter fun val => !pred val)
  | .reverse k => Function.update c k (c k).reverse
  | .merge k j comp =>
      Function.update (Function.update c k ((c k).merge (c j) fun a b => !comp b a)) j []

end Op

theorem Rep.advance_eq {m : NodeHeap T} {l : LinkedList} {ws xs : List Nat} {b i : Nat}
    (h : Rep m l (ws ++ b :: xs)) (hi : i ≤ xs.length) : advance m i b = (b :: xs)[i]? := by
  induction i generalizing ws b xs with
  | zero => rfl
  | succ i ih =>
      cases xs with
      | nil => cases hi
      | cons d ds =>
          have hnext : m.loadNext b = some d :=
            (loadNext_eq (h.live b (List.mem_append_right ws List.mem_cons_self))).trans h.next_eq
          rw [advance, hnext]
          rw [List.append_cons] at h
          exact ih h (Nat.le_of_succ_le_succ hi)

theorem length_contents (m : NodeHeap T) (cells : List Nat) :
    (contents m cells).length = cells.length - 1 := by
  rw [contents, List.length_map, List.length_dropLast]

/-- The node at a position. -/
theorem Rep.split {m : NodeHeap T} {l : LinkedList} {cells : List Nat} {i : Nat}
    (h : Rep m l cells) (hi : i ≤ (contents m cells).length) :
    ∃ xs p ys, cells = xs ++ p :: ys ∧ xs.length = i ∧
      xs.length + ys.length = (contents m cells).length ∧ advance m i l.head = some p := by
  obtain ⟨ys, rfl⟩ := h.exists_cons
  rw [length_contents] at hi ⊢
  have hlt : i < (l.head :: ys).length := Nat.lt_succ_of_le hi
  have hfront : Rep m l ([] ++ l.head :: ys) := h
  refine ⟨(l.head :: ys).take i, _, _, (List.take_append_drop i _).symm.trans
    (congrArg _ (List.drop_eq_getElem_cons hlt)), ?_, ?_, ?_⟩
  · exact List.length_take_of_le hlt.le
  · rw [List.length_take_of_le hlt.le, List.length_drop]
    omega
  · rw [hfront.advance_eq hi, List.getElem?_eq_getElem hlt]

namespace World

/-- The lists are well formed, apart from each other, and hold the sequences `c`. -/
structure Owns (w : World ι T) (cells : ι → List Nat) (c : ι → List T) : Prop where
  rep : ∀ k, Rep w.heap (w.lists k) (cells k)
  apart : ∀ j k, j ≠ k → ∀ y ∈ cells j, y ∉ cells k
  vals : ∀ k, contents w.heap (cells k) = c k
  bounded : Bounded w.heap

def Holds (w : World ι T) (c : ι → List T) : Prop := ∃ cells, w.Owns cells c

variable [DecidableEq ι] {w : World ι T} {cells : ι → List Nat} {c : ι → List T} {m' : NodeHeap T}
  {l' x' : LinkedList} {cells' : List Nat} {vals : List T} {j k : ι}

/-- Lists of which one is set are apart if that one is. -/
theorem apart_update (hapart : ∀ j k, j ≠ k → ∀ y ∈ cells j, y ∉ cells k)
    (hnew : ∀ j, j ≠ k → ∀ y ∈ cells j, y ∉ cells') :
    ∀ i j, i ≠ j → ∀ y ∈ Function.update cells k cells' i,
      y ∉ Function.update cells k cells' j := by
  intro i j hij y hy hmem
  by_cases hi : i = k
  · subst hi
    rw [Function.update_self] at hy
    rw [Function.update_of_ne hij.symm] at hmem
    exact hnew j hij.symm y hmem hy
  · rw [Function.update_of_ne hi] at hy
    by_cases hj : j = k
    · subst hj
      rw [Function.update_self] at hmem
      exact hnew i hi y hy hmem
    · rw [Function.update_of_ne hj] at hmem
      exact hapart i j hij y hy hmem

theorem Owns.put (h : w.Owns cells c) (hchange : Change w.heap m' l' (cells k) cells' vals) :
    (w.put k (m', l')).Holds (Function.update c k vals) := by
  have hkept : ∀ j, j ≠ k → ∀ y ∈ cells j, Kept w.heap m' y := fun j hj y hy =>
    hchange.kept y (h.apart j k hj y hy) (h.bounded y ((h.rep j).live y hy))
  refine ⟨Function.update cells k cells', ?_, ?_, ?_, hchange.bounded⟩
  · intro j
    by_cases hj : j = k
    · subst hj
      simpa [World.put] using hchange.rep
    · simpa [World.put, hj] using (h.rep j).congr (hkept j hj)
  · refine apart_update h.apart fun i hi y hy hmem => ?_
    rcases hchange.used y hmem with hold | htop
    · exact h.apart i k hi y hy hold
    · exact (h.bounded y ((h.rep i).live y hy)).not_ge htop
  · intro j
    by_cases hj : j = k
    · subst hj
      simpa [World.put] using hchange.vals
    · simpa [World.put, hj] using (contents_congr (hkept j hj)).trans (h.vals j)

/-- Two lists exchange nodes. -/
theorem Owns.exchange {rest' : List Nat} {vals' : List T} (h : w.Owns cells c) (hkj : k ≠ j)
    (hm : Rearranged w.heap m' (cells k ++ cells j)) (hk : Rep m' l' cells') (hj : Rep m' x' rest')
    (hvals : contents m' cells' = vals) (hvals' : contents m' rest' = vals')
    (hused : cells' ⊆ cells k ++ cells j) (hused' : rest' ⊆ cells k ++ cells j)
    (hapart : ∀ y ∈ rest', y ∉ cells') :
    ((w.put k (m', l')).put j (m', x')).Owns
      (Function.update (Function.update cells k cells') j rest')
      (Function.update (Function.update c k vals) j vals') := by
  have hkept : ∀ i, i ≠ k → i ≠ j → ∀ y ∈ cells i, Kept w.heap m' y := by
    intro i hik hij y hy
    refine hm.kept ?_
    rw [List.mem_append]
    exact fun hmem => hmem.elim (h.apart i k hik y hy) (h.apart i j hij y hy)
  have hout : ∀ i, i ≠ k → i ≠ j → ∀ y ∈ cells i, y ∉ cells k ++ cells j := by
    intro i hik hij y hy hmem
    rcases List.mem_append.mp hmem with hmem | hmem
    · exact h.apart i k hik y hy hmem
    · exact h.apart i j hij y hy hmem
  have hwhere : ∀ i y, y ∈ Function.update (Function.update cells k cells') j rest' i →
      i = j ∧ y ∈ rest' ∨ i = k ∧ y ∈ cells' ∨ i ≠ j ∧ i ≠ k ∧ y ∈ cells i := by
    intro i y hy
    by_cases hij : i = j
    · subst hij
      rw [Function.update_self] at hy
      exact .inl ⟨rfl, hy⟩
    · rw [Function.update_of_ne hij] at hy
      by_cases hik : i = k
      · subst hik
        rw [Function.update_self] at hy
        exact .inr (.inl ⟨rfl, hy⟩)
      · rw [Function.update_of_ne hik] at hy
        exact .inr (.inr ⟨hij, hik, hy⟩)
  refine ⟨?_, ?_, ?_, hm.bounded h.bounded⟩
  · intro i
    by_cases hij : i = j
    · subst hij
      simpa [World.put] using hj
    · by_cases hik : i = k
      · subst hik
        simpa [World.put, hij] using hk
      · simpa [World.put, hij, hik] using (h.rep i).congr (hkept i hik hij)
  · intro i i' hne y hy hy'
    rcases hwhere i y hy with ⟨rfl, hin⟩ | ⟨rfl, hin⟩ | ⟨hij, hik, hin⟩ <;>
      rcases hwhere i' _ hy' with ⟨rfl, hin'⟩ | ⟨rfl, hin'⟩ | ⟨hij', hik', hin'⟩
    · exact hne rfl
    · exact hapart y hin hin'
    · exact hout i' hik' hij' y hin' (hused' hin)
    · exact hapart y hin' hin
    · exact hne rfl
    · exact hout i' hik' hij' y hin' (hused hin)
    · exact hout i hik hij y hin (hused' hin')
    · exact hout i hik hij y hin (hused hin')
    · exact h.apart i i' hne y hin hin'
  · intro i
    by_cases hij : i = j
    · subst hij
      simpa [World.put] using hvals'
    · by_cases hik : i = k
      · subst hik
        simpa [World.put, hij] using hvals
      · have hvals := (contents_congr (hkept i hik hij)).trans (h.vals i)
        simpa [World.put, hij, hik] using hvals

theorem Owns.merge (h : w.Owns cells c) (hkj : k ≠ j)
    (hmerged : Merged w.heap m' l' x' (cells k) (cells j) cells' vals) :
    ((w.put k (m', l')).put j (m', x')).Holds
      (Function.update (Function.update c k vals) j []) := by
  refine ⟨_, h.exchange hkj hmerged.rearranged hmerged.rep hmerged.emptied
    (hmerged.rearranged.contents.trans hmerged.vals) rfl hmerged.used ?_ ?_⟩
  · intro y hy
    rw [List.mem_singleton.mp hy]
    exact List.mem_append_right _ hmerged.tail_mem
  · intro y hy
    rw [List.mem_singleton.mp hy]
    exact hmerged.apart

omit [DecidableEq ι] in
/-- The node at a position, and the elements on its two sides. -/
theorem Owns.split {i : Nat} (h : w.Owns cells c) (hi : i ≤ (c k).length) :
    ∃ xs p ys, cells k = xs ++ p :: ys ∧ xs.length = i ∧ i + ys.length = (c k).length ∧
      advance w.heap i (w.lists k).head = some p ∧
      c k = xs.map w.heap.data ++ contents w.heap (p :: ys) := by
  have hvals := h.vals k
  rw [← hvals] at hi ⊢
  obtain ⟨xs, p, ys, hcells, hxs, hlength, hadvance⟩ := (h.rep k).split hi
  refine ⟨xs, p, ys, hcells, hxs, hxs ▸ hlength, hadvance, ?_⟩
  rw [hcells, contents_append]

theorem step_holds [Inhabited T] (h : w.Holds c) (op : Op ι T) (hop : op.admits c) :
    ∃ next, w.step op = some next ∧ next.Holds (op.apply c) := by
  obtain ⟨cells, howns⟩ := h
  have hm := howns.bounded
  cases op with
  | pushFront k val =>
      obtain ⟨m', l', hrun, -, hchange⟩ := (howns.rep k).pushFront hm val
      rw [howns.vals] at hchange
      exact ⟨_, by rw [step, hrun]; rfl, howns.put hchange⟩
  | pushBack k val =>
      obtain ⟨m', l', hrun, hchange⟩ := (howns.rep k).pushBack hm val
      rw [howns.vals] at hchange
      exact ⟨_, by rw [step, hrun]; rfl, howns.put hchange⟩
  | popFront k =>
      obtain ⟨xs, p, ys, hcells, hxs, hlength, -, hvals⟩ := howns.split (Nat.zero_le (c k).length)
      obtain rfl := List.eq_nil_of_length_eq_zero hxs
      obtain ⟨d, ys, rfl⟩ : ∃ d ds, ys = d :: ds := by
        refine List.exists_cons_of_length_pos ?_
        have hpos := List.length_pos_iff.mpr hop
        omega
      rw [List.nil_append] at hcells
      have hrep := howns.rep k
      rw [hcells] at hrep
      obtain ⟨m', l', hrun, -, hchange⟩ := Rep.popFront hrep hm
      have htail : (c k).tail = contents w.heap (d :: ys) := by
        rw [hvals]
        rfl
      rw [← hcells, ← htail] at hchange
      exact ⟨_, by rw [step, hrun]; rfl, howns.put hchange⟩
  | popBack k =>
      have hpos := List.length_pos_iff.mpr hop
      obtain ⟨xs, p, ys, hcells, hxs, hlength, -, hvals⟩ := howns.split (Nat.sub_le (c k).length 1)
      obtain ⟨d, rfl⟩ : ∃ d, ys = [d] := List.length_eq_one_iff.mp (by omega)
      have hrep := howns.rep k
      rw [hcells] at hrep
      obtain ⟨m', l', hrun, hchange⟩ := Rep.popBack hrep hm
      have hinit : (c k).dropLast = xs.map w.heap.data := by
        rw [hvals]
        exact List.dropLast_concat
      rw [← hcells, ← hinit] at hchange
      exact ⟨_, by rw [step, hrun]; rfl, howns.put hchange⟩
  | insert k i val =>
      obtain ⟨xs, p, ys, hcells, hxs, -, hadvance, hvals⟩ := howns.split hop
      have hrep := howns.rep k
      rw [hcells] at hrep
      obtain ⟨m', l', q, cells', hrun, hchange⟩ := hrep.insert hm val
      have hlength : (xs.map w.heap.data).length = i := by rw [List.length_map, hxs]
      have hsplit : (c k).take i ++ val :: (c k).drop i =
          xs.map w.heap.data ++ val :: contents w.heap (p :: ys) := by
        rw [hvals, List.take_left' hlength, List.drop_left' hlength]
      rw [← hcells, ← hsplit] at hchange
      exact ⟨w.put k (m', l'), by rw [step, hadvance]; simp [hrun], howns.put hchange⟩
  | erase k i =>
      have hlt : i < (c k).length := hop
      obtain ⟨xs, p, ys, hcells, hxs, hlength, hadvance, hvals⟩ := howns.split hlt.le
      obtain ⟨d, ys, rfl⟩ : ∃ d ds, ys = d :: ds :=
        List.exists_cons_of_length_pos (by omega)
      have hrep := howns.rep k
      rw [hcells] at hrep
      obtain ⟨m', l', hrun, hchange⟩ := hrep.erase hm
      have hsplit : (c k).eraseIdx i = xs.map w.heap.data ++ contents w.heap (d :: ys) := by
        rw [hvals, contents_cons, List.eraseIdx_append_of_length_le (by simp [hxs])]
        simp [hxs]
      rw [← hcells, ← hsplit] at hchange
      exact ⟨w.put k (m', l'), by rw [step, hadvance]; simp [hrun], howns.put hchange⟩
  | removeIf k pred =>
      obtain ⟨m', l', cells', hrun, hchange⟩ := (howns.rep k).removeIf hm pred
      rw [howns.vals] at hchange
      exact ⟨_, by rw [step, hrun]; rfl, howns.put hchange⟩
  | reverse k =>
      obtain ⟨m', l', cells', hrun, hchange⟩ := (howns.rep k).reverse hm
      rw [howns.vals] at hchange
      exact ⟨_, by rw [step, hrun]; rfl, howns.put hchange⟩
  | merge k j comp =>
      obtain ⟨m', l', cells', hrun, hmerged⟩ :=
        (howns.rep k).merge (howns.rep j) (howns.apart j k hop.1.symm) hm comp
      rw [howns.vals, howns.vals] at hmerged
      exact ⟨_, by rw [step, hrun]; rfl, howns.merge hop.1 hmerged⟩

/-- From lists that are well formed, every run of operations has a result, and its lists are
well formed and hold the sequences that the operations make. A merge makes the stable merge,
and leaves nothing. -/
theorem list_run [Inhabited T] (w : World ι T) (c : ι → List T) (h : w.Holds c)
    (ops : List (Op ι T))
    (hops : Run.Guarded (fun c op => some (Op.apply c op)) Op.admits c ops) :
    (∃ final, ops.foldlM step w = some final ∧ final.Holds (ops.foldl Op.apply c)) ∧
      ∀ (c : ι → List T) (k j : ι) (comp : T → T → Bool), Op.admits c (.merge k j comp) →
        StableMerge comp (c k) (c j) (Op.apply c (.merge k j comp) k) ∧
          Op.apply c (.merge k j comp) j = [] := by
  refine ⟨Run.simulates_of_admitted Holds (fun w c op => ?_) ops h hops, ?_⟩
  · exact fun hw hop => step_holds hw op hop
  · intro c k j comp hop
    obtain ⟨hkj, hcomp, hxs, hys⟩ := hop
    have hmerge := stableMerge_merge hcomp hxs hys
    simpa [Op.apply, hkj] using hmerge

/-- Two lists as `list()` makes them. -/
def pair : World Bool Nat where
  heap := ((NodeHeap.mk (fun _ => false) (fun _ => 0) (fun _ => none) (fun _ => none) 0).newNode
    0).1.newNode 0 |>.1
  lists := fun k => if k then ⟨0, 0⟩ else ⟨1, 1⟩

theorem pair_holds : pair.Holds fun _ => [] := by
  refine ⟨fun k => if k then [0] else [1], ?_, ?_, ?_, ?_⟩
  · intro k
    cases k <;> refine ⟨⟨rfl, rfl, rfl, trivial⟩, rfl, ?_⟩ <;> simp [pair, newNode]
  · simp
  · intro k
    cases k <;> rfl
  · intro y hy
    have hy' : y = 1 ∨ y = 0 := by simpa [pair, newNode] using hy
    rcases hy' with rfl | rfl <;> decide

theorem list_run_pair :
    ∃ final, [Op.pushBack true 2, .pushFront true 1, .pushBack false 1,
        .merge true false fun a b => a < b, .reverse true, .insert true 1 5, .erase true 0,
        .popBack true].foldlM step pair = some final ∧
      final.Holds fun k => if k then [5, 1] else [] := by
  have horder : StrictWeakOrder fun a b : Nat => decide (a < b) := StrictWeakOrder.less
  obtain ⟨⟨final, hrun, hfinal⟩, -⟩ := list_run pair (fun _ => []) pair_holds
    [.pushBack true 2, .pushFront true 1, .pushBack false 1, .merge true false fun a b => a < b,
      .reverse true, .insert true 1 5, .erase true 0, .popBack true]
    (by simp [Run.Guarded, Op.admits, Op.apply, Sorted, horder])
  refine ⟨final, hrun, ?_⟩
  have hcontents : ∀ c : Bool → List Nat, c true = [5, 1] → c false = [] → final.Holds c →
      final.Holds fun k => if k then [5, 1] else [] := by
    intro c htrue hfalse hc
    have heq : c = fun k => if k then [5, 1] else [] := by
      funext k
      cases k
      · exact hfalse
      · exact htrue
    exact heq ▸ hc
  refine hcontents _ ?_ ?_ hfinal <;> simp [Op.apply]

end World

end LinkedList

end RebuildTheWheel.TinySTL
