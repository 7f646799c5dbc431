import RebuildTheWheel.TinySTL.LinkedListSplice

namespace RebuildTheWheel.TinySTL

open Data NodeHeap

namespace LinkedList

variable {T : Type} {m m' : NodeHeap T} {l l' : LinkedList} {cells cells' xs ys gs : List Nat}
  {c d g : Nat} {start : Option Nat} {vals : List T}

/-- The back links from `start` on run through the nodes `gs` and end there. -/
def Trail (m : NodeHeap T) : Option Nat → List Nat → Prop
  | start, [] => start = none
  | start, g :: gs => start = some g ∧ m.live g = true ∧ Trail m (m.prev g) gs

theorem Trail.live (h : Trail m start gs) : ∀ y ∈ gs, m.live y = true := by
  induction gs generalizing start with
  | nil => exact fun y hy => nomatch hy
  | cons g gs ih =>
      intro y hy
      rcases List.mem_cons.mp hy with rfl | hy
      · exact h.2.1
      · exact ih h.2.2 y hy

theorem Trail.congr (h : Trail m start gs) (hkept : ∀ y ∈ gs, Kept m m' y) :
    Trail m' start gs := by
  induction gs generalizing start with
  | nil => exact h
  | cons g gs ih =>
      obtain ⟨hstart, hlive, hrest⟩ := h
      have hg := hkept g List.mem_cons_self
      refine ⟨hstart, hg.live.trans hlive, ?_⟩
      rw [hg.prev]
      exact ih hrest fun y hy => hkept y (List.mem_cons_of_mem g hy)

/-- The nodes of a list that lie in front of another one, the last one first. -/
theorem Trail.extend {next : Nat → Option Nat} {before after : Option Nat}
    (hlinked : Linked next m.prev before xs after) (hlive : ∀ y ∈ xs, m.live y = true)
    (h : Trail m before gs) : Trail m (xs.getLast?.or before) (xs.reverse ++ gs) := by
  induction xs generalizing before gs with
  | nil => exact h
  | cons x xs ih =>
      obtain ⟨hprev, -, hrest⟩ := hlinked
      have hx : Trail m (some x) (x :: gs) := by
        refine ⟨rfl, hlive x List.mem_cons_self, ?_⟩
        rw [hprev]
        exact h
      have htrail := ih hrest (fun y hy => hlive y (List.mem_cons_of_mem x hy)) hx
      rw [List.reverse_cons, List.append_assoc, List.singleton_append]
      cases xs with
      | nil => exact htrail
      | cons z zs =>
          rw [List.getLast?_cons_cons]
          simpa [List.getLast?_cons] using htrail

theorem Loose.live (h : Loose m l cells) : ∀ y ∈ cells, m.live y = true := by
  have hrep : Rep (m.setPrev l.head none) l cells := h
  exact hrep.live

theorem Loose.congr (h : Loose m l cells) (hkept : ∀ y ∈ cells, Kept m m' y) :
    Loose m' l cells := by
  refine Rep.congr h fun y hy => ?_
  obtain ⟨hlive, hdata, hprev, hnext⟩ := hkept y hy
  refine ⟨hlive, hdata, ?_, hnext⟩
  simp only [setPrev, hprev]

/-- The links of all nodes, with the one that leads out of the list. -/
theorem Loose.linked (h : Loose m l cells) :
    Linked (m.nextTo l.tail) m.prev (m.prev l.head) cells none := by
  have hrep : Rep (m.setPrev l.head none) l cells := h
  refine hrep.chain.2.relink_before hrep.nodup (fun y _ => rfl) fun y _ => ?_
  simp only [← hrep.chain.1, Option.some.injEq, setPrev, eq_comm (a := y)]
  split_ifs with hy
  · rw [hy]
  · rfl

/-- The nodes in front of the dummy node. -/
theorem Loose.inner (h : Loose m l cells) :
    ∃ ds, cells = ds ++ [l.tail] ∧ Linked m.next m.prev (m.prev l.head) ds (some l.tail) ∧
      m.prev l.tail = ds.getLast?.or (m.prev l.head) ∧ l.tail ∉ ds ∧ ds.Nodup := by
  have hrep : Rep (m.setPrev l.head none) l cells := h
  have hsplit : cells = cells.dropLast ++ [l.tail] :=
    (List.dropLast_append_getLast? _ hrep.last).symm
  have hlinked := h.linked
  have hnodup := hrep.nodup
  rw [hsplit] at hlinked hnodup
  obtain ⟨hds, hdummy⟩ := (linked_append _ _ _ _ _ _).mp hlinked
  obtain ⟨hnodup, -, hne⟩ := List.nodup_append.mp hnodup
  have hnot : l.tail ∉ cells.dropLast := fun hmem => hne _ hmem _ List.mem_cons_self rfl
  refine ⟨cells.dropLast, hsplit, hds.congr (fun y hy => ?_) fun y _ => rfl, hdummy.1, hnot, hnodup⟩
  rw [nextTo, if_neg]
  rintro rfl
  exact hnot hy

theorem LooseChange.trans {m₁ m₂ : NodeHeap T} {l₁ l₂ : LinkedList} {cells₁ cells₂ : List Nat}
    {vals₁ vals₂ : List T} (h : LooseChange m m₁ l l₁ cells cells₁ vals₁)
    (h' : LooseChange m₁ m₂ l₁ l₂ cells₁ cells₂ vals₂) :
    LooseChange m m₂ l l₂ cells cells₂ vals₂ := by
  refine ⟨h'.rep, h'.vals, h'.bounded, ?_, ?_, h.top.trans h'.top, ?_⟩
  · intro y hy hlt
    refine (h.kept y hy hlt).trans (h'.kept y ?_ (hlt.trans_le h.top))
    intro hmem
    rcases h.used y hmem with hold | hnew
    · exact hy hold
    · omega
  · intro y hy
    rcases h'.used y hy with hold | hnew
    · exact h.used y hold
    · exact .inr (h.top.trans hnew)
  · rcases h'.back with hnone | hsame
    · exact .inl hnone
    · rw [hsame]
      exact h.back

theorem LooseChange.split {l₀ : LinkedList} (h : LooseChange m m' l₀ l cells (xs ++ d :: ys)
    (xs.map m.data ++ vals)) : xs.map m'.data = xs.map m.data ∧ contents m' (d :: ys) = vals := by
  have hvals := h.vals
  rw [contents_append] at hvals
  exact List.append_inj hvals (by simp)

/-- The nodes of another list are not touched. -/
theorem LooseChange.kept_of_apart (h : LooseChange m m' l l' cells cells' vals) (hm : Bounded m)
    (hlive : ∀ y ∈ xs, m.live y = true) (hapart : ∀ y ∈ xs, y ∉ cells) :
    ∀ y ∈ xs, Kept m m' y :=
  fun y hy => h.kept y (hapart y hy) (hm y (hlive y hy))

theorem LooseChange.apart (h : LooseChange m m' l l' cells cells' vals) (hm : Bounded m)
    (hlive : ∀ y ∈ xs, m.live y = true) (hapart : ∀ y ∈ xs, y ∉ cells) :
    ∀ y ∈ xs, y ∉ cells' := by
  intro y hy hmem
  rcases h.used y hmem with hold | htop
  · exact hapart y hy hold
  · exact (hm y (hlive y hy)).not_ge htop

section

variable [Inhabited T]

/-- The nodes `ds` and `e` behind them are copied in front of `c`. -/
theorem insertAuxLoop_spec (ds : List Nat) {e first : Nat} {before after : Option Nat} {fuel : Nat}
    (hl : Loose m l (xs ++ c :: ys)) (hm : Bounded m)
    (hds : Linked m.next m.prev before (ds ++ [e]) after) (hnodup : (ds ++ [e]).Nodup)
    (hlive : ∀ y ∈ ds ++ [e], m.live y = true) (hapart : ∀ y ∈ ds ++ [e], y ∉ xs ++ c :: ys)
    (hfirst : (ds ++ [e]).head? = some first) (hfuel : ds.length < fuel) :
    ∃ m' l' cells', insertAuxLoop first fuel m l c e = some (m', l') ∧
      LooseChange m m' l l' (xs ++ c :: ys) cells'
        (xs.map m.data ++ ((ds ++ [e]).map m.data ++ contents m (c :: ys))) := by
  induction ds using List.reverseRecOn generalizing m l e c ys fuel after with
  | nil =>
      obtain ⟨fuel, rfl⟩ := Nat.exists_eq_succ_of_ne_zero (Nat.ne_of_gt hfuel)
      obtain rfl : e = first := Option.some.inj hfirst
      obtain ⟨m', l', p, ys', hrun, hchange⟩ := hl.insert hm (m.data e)
      refine ⟨m', l', _, ?_, hchange⟩
      rw [insertAuxLoop, loadData_eq (hlive e (by simp))]
      simp [hrun]
  | append_singleton ds e' ih =>
      obtain ⟨fuel, rfl⟩ := Nat.exists_eq_succ_of_ne_zero (Nat.ne_of_gt (Nat.zero_lt_of_lt hfuel))
      obtain ⟨m₁, l₁, p, ys', hrun, hchange⟩ := hl.insert hm (m.data e)
      have hsub : ∀ y ∈ ds ++ [e'], y ∈ ds ++ [e'] ++ [e] := fun y hy => List.mem_append_left _ hy
      have hlive' : ∀ y ∈ ds ++ [e'], m.live y = true := fun y hy => hlive y (hsub y hy)
      have hapart' : ∀ y ∈ ds ++ [e'], y ∉ xs ++ c :: ys := fun y hy => hapart y (hsub y hy)
      have hkept := hchange.kept_of_apart hm hlive' hapart'
      have hkeptE := hchange.kept_of_apart hm hlive hapart e (by simp)
      obtain ⟨hnodup', -, hne⟩ := List.nodup_append.mp hnodup
      obtain ⟨hdsLinked, hprev, -⟩ := (linked_append _ _ _ _ _ _).mp hds
      have hprev' : m.prev e = some e' := by simpa using hprev
      have hfirst' : (ds ++ [e']).head? = some first := by
        rwa [List.head?_append_of_ne_nil _ (List.append_ne_nil_of_right_ne_nil _
          (List.cons_ne_nil e' []))] at hfirst
      have hfirstNe : first ≠ e := hne first (List.mem_of_mem_head? hfirst') e List.mem_cons_self
      have hlength : ds.length < fuel := by
        rw [List.length_append, List.length_singleton] at hfuel
        exact Nat.lt_of_succ_lt_succ hfuel
      obtain ⟨m', l', cells', hloop, hrest⟩ := ih hchange.rep hchange.bounded
        (hdsLinked.congr (fun y hy => (hkept y hy).next) fun y hy => (hkept y hy).prev) hnodup'
        (fun y hy => (hkept y hy).live.trans (hlive' y hy)) (hchange.apart hm hlive' hapart')
        hfirst' hlength
      obtain ⟨hfront, hback⟩ := hchange.split
      have hdata : (ds ++ [e']).map m₁.data = (ds ++ [e']).map m.data :=
        List.map_congr_left fun y hy => (hkept y hy).data
      refine ⟨m', l', cells', ?_, ?_⟩
      · have hload : m₁.loadPrev e = some e' :=
          (loadPrev_eq (hkeptE.live.trans (hlive e (by simp)))).trans (hkeptE.prev.trans hprev')
        rw [insertAuxLoop, loadData_eq (hlive e (by simp))]
        simp only [Option.bind_eq_bind, Option.bind_some, hrun, if_pos hfirstNe, hload]
        exact hloop
      · rw [hfront, hback, hdata] at hrest
        have hmap : (ds ++ [e'] ++ [e]).map m.data = (ds ++ [e']).map m.data ++ [m.data e] :=
          List.map_append
        rw [hmap, List.append_assoc]
        exact hchange.trans hrest

/-- From a node behind which the back links end, the loop comes to the null pointer. -/
theorem insertAuxLoop_trail (gs : List Nat) {first fuel : Nat} (hl : Loose m l (xs ++ c :: ys))
    (hm : Bounded m) (htrail : Trail m (some g) (g :: gs)) (hfirst : first ∉ g :: gs)
    (hapart : ∀ y ∈ g :: gs, y ∉ xs ++ c :: ys) : insertAuxLoop first fuel m l c g = none := by
  induction gs generalizing m l g c ys fuel with
  | nil =>
      cases fuel with
      | zero => rfl
      | succ fuel =>
          obtain ⟨-, hlive, hrest⟩ := htrail
          obtain ⟨m', l', p, ys', hrun, hchange⟩ := hl.insert hm (m.data g)
          have hkept := hchange.kept g (hapart g List.mem_cons_self) (hm g hlive)
          have hprev : m'.prev g = none := hkept.prev.trans hrest
          have hne : first ≠ g := fun heq => hfirst (heq ▸ List.mem_cons_self)
          rw [insertAuxLoop, loadData_eq hlive]
          simp [hrun, hne, loadPrev, hprev]
  | cons g' gs ih =>
      cases fuel with
      | zero => rfl
      | succ fuel =>
          obtain ⟨-, hlive, hrest⟩ := htrail
          obtain ⟨m', l', p, ys', hrun, hchange⟩ := hl.insert hm (m.data g)
          have hlives := hrest.live
          have hapart' : ∀ y ∈ g' :: gs, y ∉ xs ++ c :: ys := fun y hy =>
            hapart y (List.mem_cons_of_mem g hy)
          have hkept := hchange.kept g (hapart g List.mem_cons_self) (hm g hlive)
          have hkept' := hchange.kept_of_apart hm hlives hapart'
          have hprev : m.prev g = some g' := hrest.1
          have hload : m'.loadPrev g = some g' :=
            (loadPrev_eq (hkept.live.trans hlive)).trans (hkept.prev.trans hprev)
          have hne : first ≠ g := fun heq => hfirst (heq ▸ List.mem_cons_self)
          have htrail' : Trail m' (some g') (g' :: gs) := by
            rw [hprev] at hrest
            exact hrest.congr hkept'
          rw [insertAuxLoop, loadData_eq hlive]
          simp only [Option.bind_eq_bind, Option.bind_some, hrun, if_pos hne, hload]
          exact ih hchange.rep hchange.bounded htrail'
            (fun hmem => hfirst (List.mem_cons_of_mem g hmem)) (hchange.apart hm hlives hapart')

end

theorem advance_setPrev (m : NodeHeap T) (p : Nat) (q : Option Nat) (i r : Nat) :
    advance (m.setPrev p q) i r = advance m i r := by
  induction i generalizing r with
  | zero => rfl
  | succ i ih =>
      have hload : (m.setPrev p q).loadNext r = m.loadNext r := rfl
      rw [advance, advance, hload]
      exact congrArg _ (funext ih)

/-- The operations `push`, `pop` and `insert`. -/
def Op.IsEdit {ι : Type} : Op ι T → Prop
  | .pushFront _ _ | .pushBack _ _ | .popFront _ | .popBack _ | .insert _ _ _ => True
  | .erase _ _ | .removeIf _ _ | .reverse _ | .merge _ _ _ => False

namespace World

variable {ι : Type} {w : World ι T} {cellsOf ghosts : ι → List Nat} {contentsOf : ι → List T}
  {j k : ι}

/-- The lists are well formed but for the back links of their first nodes, which lead through
nodes left behind. They are apart from each other and hold the sequences `contentsOf`. -/
structure LooseOwns (w : World ι T) (cellsOf ghosts : ι → List Nat) (contentsOf : ι → List T) :
    Prop where
  rep : ∀ k, Loose w.heap (w.lists k) (cellsOf k)
  apart : ∀ j k, j ≠ k → ∀ y ∈ cellsOf j, y ∉ cellsOf k
  vals : ∀ k, contents w.heap (cellsOf k) = contentsOf k
  bounded : Bounded w.heap
  trail : ∀ k, Trail w.heap (w.heap.prev (w.lists k).head) (ghosts k)
  hidden : ∀ j k, ∀ y ∈ ghosts j, y ∉ cellsOf k

def LooseHolds (w : World ι T) (contentsOf : ι → List T) : Prop :=
  ∃ cellsOf ghosts, w.LooseOwns cellsOf ghosts contentsOf

theorem Holds.loose (h : w.Holds contentsOf) : w.LooseHolds contentsOf := by
  obtain ⟨cellsOf, howns⟩ := h
  refine ⟨cellsOf, fun _ => [], fun k => (howns.rep k).loose, howns.apart, howns.vals,
    howns.bounded, fun k => (howns.rep k).prev_head, fun _ _ _ hy => nomatch hy⟩

variable [DecidableEq ι]

theorem LooseOwns.put (h : w.LooseOwns cellsOf ghosts contentsOf)
    (hchange : LooseChange w.heap m' (w.lists k) l' (cellsOf k) cells' vals) :
    ∃ gs, (w.put k (m', l')).LooseOwns (Function.update cellsOf k cells')
      (Function.update ghosts k gs) (Function.update contentsOf k vals) := by
  have hm := h.bounded
  have hkept : ∀ j, j ≠ k → ∀ y ∈ cellsOf j, Kept w.heap m' y := fun j hj =>
    hchange.kept_of_apart hm ((h.rep j).live) (h.apart j k hj)
  have hghosts : ∀ j, ∀ y ∈ ghosts j, Kept w.heap m' y := fun j =>
    hchange.kept_of_apart hm (h.trail j).live (h.hidden j k)
  obtain ⟨gs, htrail, hgs⟩ : ∃ gs, Trail m' (m'.prev l'.head) gs ∧ ∀ y ∈ gs, y ∈ ghosts k := by
    rcases hchange.back with hnone | hsame
    · exact ⟨[], hnone, fun y hy => nomatch hy⟩
    · rw [hsame]
      exact ⟨ghosts k, (h.trail k).congr (hghosts k), fun y hy => hy⟩
  refine ⟨gs, ?_, ?_, ?_, hchange.bounded, ?_, ?_⟩
  · intro j
    by_cases hj : j = k
    · subst hj
      simpa [World.put] using hchange.rep
    · simpa [World.put, hj] using (h.rep j).congr (hkept j hj)
  · refine apart_update h.apart fun j hj => ?_
    exact hchange.apart hm ((h.rep j).live) (h.apart j k hj)
  · intro j
    by_cases hj : j = k
    · subst hj
      simpa [World.put] using hchange.vals
    · simpa [World.put, hj] using (contents_congr (hkept j hj)).trans (h.vals j)
  · intro j
    by_cases hj : j = k
    · subst hj
      simpa [World.put] using htrail
    · have hhead := hkept j hj _ (h.rep j).head_mem
      have htrail := (h.trail j).congr (hghosts j)
      rw [← hhead.prev] at htrail
      simpa [World.put, hj] using htrail
  · intro i j y hy
    have hy' : ∃ i, y ∈ ghosts i := by
      by_cases hi : i = k
      · subst hi
        rw [Function.update_self] at hy
        exact ⟨i, hgs y hy⟩
      · rw [Function.update_of_ne hi] at hy
        exact ⟨i, hy⟩
    obtain ⟨i', hi'⟩ := hy'
    by_cases hj : j = k
    · subst hj
      rw [Function.update_self]
      exact hchange.apart hm (h.trail i').live (h.hidden i' j) y hi'
    · rw [Function.update_of_ne hj]
      exact h.hidden i' j y hi'

theorem LooseOwns.holds_put (h : w.LooseOwns cellsOf ghosts contentsOf)
    (hchange : LooseChange w.heap m' (w.lists k) l' (cellsOf k) cells' vals) :
    (w.put k (m', l')).LooseHolds (Function.update contentsOf k vals) := by
  obtain ⟨gs, howns⟩ := h.put hchange
  exact ⟨_, _, howns⟩

omit [DecidableEq ι] in
/-- The node at a position, and the elements on its two sides. -/
theorem LooseOwns.split {i : Nat} (h : w.LooseOwns cellsOf ghosts contentsOf)
    (hi : i ≤ (contentsOf k).length) :
    ∃ xs p ys, cellsOf k = xs ++ p :: ys ∧ xs.length = i ∧
      i + ys.length = (contentsOf k).length ∧ advance w.heap i (w.lists k).head = some p ∧
      contentsOf k = xs.map w.heap.data ++ contents w.heap (p :: ys) := by
  have hvals := h.vals k
  rw [← hvals] at hi ⊢
  have hrep : Rep (w.heap.setPrev (w.lists k).head none) (w.lists k) (cellsOf k) := h.rep k
  obtain ⟨xs, p, ys, hcells, hxs, hlength, hadvance⟩ := hrep.split hi
  rw [advance_setPrev] at hadvance
  refine ⟨xs, p, ys, hcells, hxs, hxs ▸ hlength, hadvance, ?_⟩
  rw [hcells, contents_append]

/-- The list `j` gives up all nodes but its dummy node. -/
theorem LooseOwns.drain (h : w.LooseOwns cellsOf ghosts contentsOf) (j : ι) :
    (w.put j (w.heap, { w.lists j with head := (w.lists j).tail })).LooseHolds
      (Function.update contentsOf j []) := by
  have hrep : Rep (w.heap.setPrev (w.lists j).head none) (w.lists j) (cellsOf j) := h.rep j
  obtain ⟨ds, hcells, hlinked, hprev, hnot, -⟩ := (h.rep j).inner
  have htail : (w.lists j).tail ∈ cellsOf j := by simp [hcells]
  have hsub : ∀ y ∈ ds, y ∈ cellsOf j := fun y hy => hcells ▸ List.mem_append_left _ hy
  have hlink : Trail w.heap (w.heap.prev (w.lists j).tail) (ds.reverse ++ ghosts j) := by
    rw [hprev]
    exact Trail.extend hlinked (fun y hy => (h.rep j).live y (hsub y hy)) (h.trail j)
  have hself : Loose w.heap { w.lists j with head := (w.lists j).tail } [(w.lists j).tail] := by
    refine ⟨⟨rfl, if_pos rfl, if_pos rfl, trivial⟩, rfl, fun y hy => ?_⟩
    rw [List.mem_singleton.mp hy]
    exact hrep.live_tail
  refine ⟨Function.update cellsOf j [(w.lists j).tail],
    Function.update ghosts j (ds.reverse ++ ghosts j), ?_, ?_, ?_, h.bounded, ?_, ?_⟩
  · intro i
    by_cases hi : i = j
    · subst hi
      simpa [World.put] using hself
    · simpa [World.put, hi] using h.rep i
  · refine apart_update h.apart fun i hi y hy hmem => ?_
    exact h.apart i j hi y hy (List.mem_singleton.mp hmem ▸ htail)
  · intro i
    by_cases hi : i = j
    · subst hi
      simp [World.put, contents]
    · simpa [World.put, hi] using h.vals i
  · intro i
    by_cases hi : i = j
    · subst hi
      simpa [World.put] using hlink
    · simpa [World.put, hi] using h.trail i
  · intro i i' y hy hmem
    have hmem' : y ∈ cellsOf i' := by
      by_cases hi' : i' = j
      · subst hi'
        rw [Function.update_self] at hmem
        exact List.mem_singleton.mp hmem ▸ htail
      · rwa [Function.update_of_ne hi'] at hmem
    by_cases hi : i = j
    · subst hi
      rw [Function.update_self, List.mem_append, List.mem_reverse] at hy
      rcases hy with hy | hy
      · by_cases hi' : i' = i
        · subst hi'
          rw [Function.update_self] at hmem
          exact hnot (List.mem_singleton.mp hmem ▸ hy)
        · exact h.apart i i' (Ne.symm hi') y (hsub y hy) hmem'
      · exact h.hidden i i' y hy hmem'
    · rw [Function.update_of_ne hi] at hy
      exact h.hidden i i' y hy hmem'

variable [Inhabited T]

theorem step_looseHolds (h : w.LooseHolds contentsOf) (op : Op ι T) (hedit : op.IsEdit)
    (hop : op.admits contentsOf) :
    ∃ next, w.step op = some next ∧ next.LooseHolds (op.apply contentsOf) := by
  obtain ⟨cellsOf, ghosts, howns⟩ := h
  have hm := howns.bounded
  cases op with
  | pushFront k val =>
      obtain ⟨m', l', hrun, -, hchange⟩ := (howns.rep k).pushFront hm val
      rw [howns.vals] at hchange
      exact ⟨_, by rw [step, hrun]; rfl, howns.holds_put hchange⟩
  | pushBack k val =>
      obtain ⟨m', l', hrun, hchange⟩ := (howns.rep k).pushBack hm val
      rw [howns.vals] at hchange
      exact ⟨_, by rw [step, hrun]; rfl, howns.holds_put hchange⟩
  | popFront k =>
      obtain ⟨xs, p, ys, hcells, hxs, hlength, -, hvals⟩ :=
        howns.split (Nat.zero_le (contentsOf k).length)
      obtain rfl := List.eq_nil_of_length_eq_zero hxs
      obtain ⟨d, ys, rfl⟩ : ∃ d ds, ys = d :: ds := by
        refine List.exists_cons_of_length_pos ?_
        have hpos := List.length_pos_iff.mpr hop
        omega
      rw [List.nil_append] at hcells
      have hrep := howns.rep k
      rw [hcells] at hrep
      obtain ⟨m', l', hrun, hchange⟩ := hrep.popFront hm
      have htail : (contentsOf k).tail = contents w.heap (d :: ys) := by
        rw [hvals]
        rfl
      rw [← hcells, ← htail] at hchange
      exact ⟨_, by rw [step, hrun]; rfl, howns.holds_put hchange⟩
  | popBack k =>
      have hpos := List.length_pos_iff.mpr hop
      obtain ⟨xs, p, ys, hcells, hxs, hlength, -, hvals⟩ :=
        howns.split (Nat.sub_le (contentsOf k).length 1)
      obtain ⟨d, rfl⟩ : ∃ d, ys = [d] := List.length_eq_one_iff.mp (by omega)
      have hrep := howns.rep k
      rw [hcells] at hrep
      obtain ⟨m', l', hrun, hchange⟩ := hrep.popBack hm
      have hinit : (contentsOf k).dropLast = xs.map w.heap.data := by
        rw [hvals]
        exact List.dropLast_concat
      rw [← hcells, ← hinit] at hchange
      exact ⟨_, by rw [step, hrun]; rfl, howns.holds_put hchange⟩
  | insert k i val =>
      obtain ⟨xs, p, ys, hcells, hxs, -, hadvance, hvals⟩ := howns.split hop
      have hrep := howns.rep k
      rw [hcells] at hrep
      obtain ⟨m', l', q, ys', hrun, hchange⟩ := hrep.insert hm val
      have hlength : (xs.map w.heap.data).length = i := by rw [List.length_map, hxs]
      have hsplit : (contentsOf k).take i ++ val :: (contentsOf k).drop i =
          xs.map w.heap.data ++ val :: contents w.heap (p :: ys) := by
        rw [hvals, List.take_left' hlength, List.drop_left' hlength]
      rw [← hcells, ← hsplit] at hchange
      exact ⟨w.put k (m', l'), by rw [step, hadvance]; simp [hrun], howns.holds_put hchange⟩
  | erase k i => exact hedit.elim
  | removeIf k pred => exact hedit.elim
  | reverse k => exact hedit.elim
  | merge k j comp => exact hedit.elim

/-- `l.splice(position, x)` for the list `k` and the other list `j`. -/
def splice (w : World ι T) (k : ι) (i : Nat) (j : ι) : Option (World ι T) := do
  let position ← advance w.heap i (w.lists k).head
  let (m, l, x) ← spliceAll w.heap (w.lists k) position (w.lists j)
  some ((w.put k (m, l)).put j (m, x))

/-- What `splice` makes of the sequences. -/
def spliced (contentsOf : ι → List T) (k : ι) (i : Nat) (j : ι) : ι → List T :=
  Function.update (Function.update contentsOf k
    ((contentsOf k).take i ++ contentsOf j ++ (contentsOf k).drop i)) j []

/-- The call has a result, and any further run of operations makes of the lists what it makes
of the sequences. -/
def Splices (w : World ι T) (contentsOf : ι → List T) (k : ι) (i : Nat) (j : ι) : Prop :=
  ∃ w', w.splice k i j = some w' ∧ ∀ ops : List (Op ι T),
    Run.Guarded (fun c op => some (Op.apply c op)) (fun c op => op.IsEdit ∧ op.admits c)
      (spliced contentsOf k i j) ops →
    ∃ final, ops.foldlM step w' = some final ∧
      final.LooseHolds (ops.foldl Op.apply (spliced contentsOf k i j))

theorem LooseOwns.splice_eq_none (h : w.LooseOwns cellsOf ghosts contentsOf) {i : Nat}
    (hi : i ≤ (contentsOf k).length) (hj : contentsOf j = []) : w.splice k i j = none := by
  obtain ⟨xs, p, ys, hk, -, -, hadvance, -⟩ := h.split hi
  obtain ⟨ds, hcells, -, hprev, -, -⟩ := (h.rep j).inner
  have hempty : ds = [] := by
    have hvals := h.vals j
    rw [hj, hcells, contents_concat] at hvals
    exact List.map_eq_nil_iff.mp hvals
  subst hempty
  have hhead : (w.lists j).head = (w.lists j).tail := by
    have hmem := (h.rep j).head_mem
    rw [hcells] at hmem
    exact List.mem_singleton.mp hmem
  have htail : (w.lists j).tail ∈ cellsOf j := by simp [hcells]
  have hlive := (h.rep j).live _ htail
  have htrail := h.trail j
  have hl := h.rep k
  rw [hk] at hl
  have haux : insertAux w.heap (w.lists k) p (w.lists j).head (w.lists j).tail = none := by
    rw [insertAux, loadPrev_eq hlive, hprev, List.getLast?_nil, Option.none_or]
    cases hghosts : ghosts j with
    | nil =>
        rw [hghosts] at htrail
        have hnone : w.heap.prev (w.lists j).head = none := htrail
        rw [hnone]
        rfl
    | cons g gs =>
        have hmem : ∀ y ∈ g :: gs, y ∈ ghosts j := fun y hy => hghosts ▸ hy
        rw [hghosts] at htrail
        have hsome := htrail.1
        rw [hsome] at htrail ⊢
        refine insertAuxLoop_trail gs hl h.bounded htrail (fun hg => ?_) fun y hy => ?_
        · exact h.hidden j j _ (hmem _ hg) (hhead ▸ htail)
        · exact hk ▸ h.hidden j k y (hmem y hy)
  rw [World.splice, hadvance]
  simp [spliceAll, haux]

theorem LooseOwns.splice (h : w.LooseOwns cellsOf ghosts contentsOf) (hkj : k ≠ j) {i : Nat}
    (hi : i ≤ (contentsOf k).length) (hj : contentsOf j ≠ []) :
    ∃ w', w.splice k i j = some w' ∧ w'.LooseHolds (spliced contentsOf k i j) := by
  have hm := h.bounded
  obtain ⟨xs, p, ys, hk, hxs, -, hadvance, hvals⟩ := h.split hi
  obtain ⟨ds, hcells, hlinked, hprev, -, hnodup⟩ := (h.rep j).inner
  have hvalsJ := h.vals j
  rw [hcells, contents_concat] at hvalsJ
  obtain ⟨ds, e, rfl⟩ : ∃ ds' e, ds = ds' ++ [e] := by
    refine ⟨ds.dropLast, ds.getLast ?_, (List.dropLast_append_getLast _).symm⟩
    rintro rfl
    exact hj hvalsJ.symm
  have hsub : ∀ y ∈ ds ++ [e], y ∈ cellsOf j := fun y hy => hcells ▸ List.mem_append_left _ hy
  have hlive : ∀ y ∈ ds ++ [e], w.heap.live y = true := fun y hy => (h.rep j).live y (hsub y hy)
  have hfirst : (ds ++ [e]).head? = some (w.lists j).head := by
    have hrep : Rep (w.heap.setPrev (w.lists j).head none) (w.lists j) (cellsOf j) := h.rep j
    have hstart := hrep.chain.1
    rw [hcells, List.head?_append_of_ne_nil _ (List.append_ne_nil_of_right_ne_nil _
      (List.cons_ne_nil e []))] at hstart
    exact hstart.symm
  have hlength : ds.length < w.heap.top + 1 := by
    have hrep : Rep (w.heap.setPrev (w.lists j).head none) (w.lists j) (cellsOf j) := h.rep j
    have hle : (cellsOf j).length ≤ w.heap.top := hrep.length_le hm
    rw [hcells, List.length_append, List.length_append] at hle
    omega
  have hl := h.rep k
  rw [hk] at hl
  obtain ⟨m', l', cells', hrun, hchange⟩ := insertAuxLoop_spec ds hl hm hlinked hnodup hlive
    (fun y hy => hk ▸ h.apart j k hkj.symm y (hsub y hy)) hfirst hlength
  have hload : w.heap.loadPrev (w.lists j).tail = some e := by
    rw [loadPrev_eq ((h.rep j).live _ (by simp [hcells])), hprev]
    simp
  have hresult : xs.map w.heap.data ++ ((ds ++ [e]).map w.heap.data ++ contents w.heap (p :: ys)) =
      (contentsOf k).take i ++ contentsOf j ++ (contentsOf k).drop i := by
    have hlen : (xs.map w.heap.data).length = i := by rw [List.length_map, hxs]
    rw [hvals, List.take_left' hlen, List.drop_left' hlen, hvalsJ, List.append_assoc]
  rw [← hk, hresult] at hchange
  obtain ⟨gs, howns⟩ := h.put hchange
  refine ⟨_, ?_, howns.drain j⟩
  rw [World.splice, hadvance]
  simp [spliceAll, insertAux, hload, hrun, World.put, hkj.symm]

/-- An empty list and the list of 7. -/
def emptyAndSeven : World Bool Nat where
  heap :=
    { live := fun y => decide (y < 3), data := fun y => if y = 1 then 7 else 0
      prev := fun y => if y = 2 then some 1 else none
      next := fun y => if y = 1 then some 2 else none, top := 3 }
  lists := fun k => if k then ⟨0, 0⟩ else ⟨1, 2⟩

theorem emptyAndSeven_holds : emptyAndSeven.Holds fun k => if k then [] else [7] := by
  refine ⟨fun k => if k then [0] else [1, 2], ?_, ?_, ?_, ?_⟩
  · intro k
    cases k
    · exact ⟨⟨rfl, rfl, rfl, rfl, rfl, trivial⟩, rfl, by simp [emptyAndSeven]⟩
    · exact ⟨⟨rfl, rfl, rfl, trivial⟩, rfl, by simp [emptyAndSeven]⟩
  · simp
  · intro k
    cases k <;> rfl
  · intro y hy
    exact of_decide_eq_true hy

end World

end LinkedList

end RebuildTheWheel.TinySTL
