import RebuildTheWheel.TinySTL.LinkedListOps

namespace RebuildTheWheel.TinySTL

open Data NodeHeap

namespace LinkedList

variable {T : Type} {m m' : NodeHeap T} {l : LinkedList} {cells xs ys rest : List Nat}
  {c f q x : Nat}

/-! `reverse`. The nodes that wait for their turn are linked forward only. -/

def Path (next : Nat → Option Nat) : List Nat → Nat → Prop
  | [], _ => True
  | x :: xs, q => next x = some (xs.headD q) ∧ Path next xs q

theorem path_of_linked {next prev : Nat → Option Nat} {before : Option Nat}
    (h : Linked next prev before xs (some q)) : Path next xs q := by
  induction xs generalizing before with
  | nil => trivial
  | cons x xs ih =>
      refine ⟨h.2.1.trans ?_, ih h.2.2⟩
      cases xs <;> rfl

theorem Path.congr {next next' : Nat → Option Nat} (h : Path next xs q)
    (hnext : ∀ y ∈ xs, next' y = next y) : Path next' xs q := by
  induction xs with
  | nil => trivial
  | cons x xs ih =>
      refine ⟨(hnext x List.mem_cons_self).trans h.1, ih h.2 ?_⟩
      intro y hy
      exact hnext y (List.mem_cons_of_mem x hy)

/-- The node `c` moves behind the head. -/
def moved (m : NodeHeap T) (l : LinkedList) (c f : Nat) : NodeHeap T :=
  (((m.setNext c (some f)).setPrev f (some c)).setNext l.head (some c)).setPrev c (some l.head)

theorem Rep.moved (h : Rep m l (l.head :: f :: ys)) (hc : c ∉ l.head :: f :: ys)
    (hlive : m.live c = true) : Rep (moved m l c f) l (l.head :: c :: f :: ys) := by
  have hsplit : Rep m l ([l.head] ++ f :: ys) := h
  have hprev : m.prev f = some l.head := hsplit.prev_eq
  have hhead : l.head ≠ f := fun heq => List.cons_ne_nil _ _ (hsplit.head_eq_iff.mp heq)
  have hch : c ≠ l.head := List.ne_of_not_mem_cons hc
  have hcf : c ≠ f := List.ne_of_not_mem_cons (List.not_mem_of_not_mem_cons hc)
  have hold : ∀ y ∈ l.head :: f :: ys, y ≠ c := fun y hy heq => hc (heq ▸ hy)
  have hlink : Rep (LinkedList.moved m l c f) { l with head := if l.head = f then c else l.head }
      ([l.head] ++ c :: f :: ys) := by
    refine hsplit.link ?_ ?_ ?_ ?_ ?_ ?_
    · intro y hy
      simp [LinkedList.moved, setNext, setPrev, hprev, hold y hy, eq_comm (a := y)]
    · intro y hy
      simp [LinkedList.moved, setNext, setPrev, hold y hy]
    · simp [LinkedList.moved, setNext, setPrev, hch]
    · simp [LinkedList.moved, setNext, setPrev, hprev]
    · intro y hy
      rcases List.mem_cons.mp hy with rfl | hy
      · exact h.live_head
      · rcases List.mem_cons.mp hy with rfl | hy
        · exact hlive
        · exact h.live y (List.mem_cons_of_mem _ hy)
    · intro heq
      exact hc (heq ▸ List.mem_of_mem_getLast? h.last)
  rw [if_neg hhead] at hlink
  exact hlink

/-- Links change at the nodes of the list only. -/
structure Rearranged (m m' : NodeHeap T) (cells : List Nat) : Prop where
  live : m'.live = m.live
  data : m'.data = m.data
  top : m'.top = m.top
  prev : ∀ y, y ∉ cells → m'.prev y = m.prev y
  next : ∀ y, y ∉ cells → m'.next y = m.next y

theorem Rearranged.trans {m₁ m₂ : NodeHeap T} (h : Rearranged m m₁ cells)
    (h' : Rearranged m₁ m₂ cells) : Rearranged m m₂ cells :=
  ⟨h'.live.trans h.live, h'.data.trans h.data, h'.top.trans h.top,
    fun y hy => (h'.prev y hy).trans (h.prev y hy), fun y hy => (h'.next y hy).trans (h.next y hy)⟩

theorem Rearranged.mono (h : Rearranged m m' xs) (hsub : xs ⊆ ys) : Rearranged m m' ys :=
  ⟨h.live, h.data, h.top, fun y hy => h.prev y fun hmem => hy (hsub hmem),
    fun y hy => h.next y fun hmem => hy (hsub hmem)⟩

theorem Rearranged.kept (h : Rearranged m m' cells) {y : Nat} (hy : y ∉ cells) : Kept m m' y :=
  ⟨congrFun h.live y, congrFun h.data y, h.prev y hy, h.next y hy⟩

theorem rearranged_moved (m : NodeHeap T) (l : LinkedList) (c f : Nat) :
    Rearranged m (moved m l c f) [c, l.head, f] := by
  refine ⟨rfl, rfl, rfl, ?_, ?_⟩ <;>
  · intro y hy
    simp only [List.mem_cons, List.not_mem_nil, or_false, not_or] at hy
    simp [moved, setNext, setPrev, hy]

theorem Rep.reverseLoop (fuel : Nat) (h : Rep m l (l.head :: f :: ys))
    (hpath : Path m.next (c :: rest) l.head) (hnodup : (c :: rest).Nodup)
    (hapart : ∀ y ∈ c :: rest, y ∉ l.head :: f :: ys) (hlive : ∀ y ∈ c :: rest, m.live y = true)
    (hfuel : (c :: rest).length ≤ fuel) :
    ∃ m', reverseLoop fuel m l c = some (m', l) ∧
      Rep m' l (l.head :: ((c :: rest).reverse ++ f :: ys)) ∧
      Rearranged m m' (c :: rest ++ l.head :: f :: ys) := by
  induction fuel generalizing m c f ys rest with
  | zero => cases hfuel
  | succ fuel ih =>
      have hc : c ∉ l.head :: f :: ys := hapart c List.mem_cons_self
      have hlc : m.live c = true := hlive c List.mem_cons_self
      have hlf : m.live f = true := h.live f (List.mem_cons_of_mem _ List.mem_cons_self)
      have hnext : m.next l.head = some f := Rep.next_eq (show Rep m l ([] ++ l.head :: f :: ys) from h)
      have hmoved := h.moved hc hlc
      have hhere : Rearranged m (LinkedList.moved m l c f) (c :: rest ++ l.head :: f :: ys) := by
        refine (rearranged_moved m l c f).mono ?_
        intro y hy
        simp only [List.mem_cons, List.not_mem_nil, or_false] at hy
        rcases hy with rfl | rfl | rfl <;> simp
      have hrun : LinkedList.reverseLoop (fuel + 1) m l c =
          if rest.headD l.head = l.head then some (LinkedList.moved m l c f, l)
          else LinkedList.reverseLoop fuel (LinkedList.moved m l c f) l (rest.headD l.head) := by
        simp [LinkedList.reverseLoop, LinkedList.moved, loadNext, storeNext, storePrev, setNext,
          setPrev, hlc, hlf, h.live_head, hpath.1, hnext]
      rw [hrun]
      cases rest with
      | nil => exact ⟨_, if_pos rfl, hmoved, hhere⟩
      | cons r rest =>
          have hr : r ≠ l.head := fun heq =>
            hapart r (List.mem_cons_of_mem c List.mem_cons_self) (heq ▸ List.mem_cons_self)
          obtain ⟨hcr, hnodup'⟩ := List.nodup_cons.mp hnodup
          have hother : ∀ y ∈ r :: rest, y ∉ l.head :: c :: f :: ys := by
            intro y hy hmem
            have hold := hapart y (List.mem_cons_of_mem c hy)
            simp only [List.mem_cons, not_or] at hold hmem
            rcases hmem with heq | heq | hmem
            · exact hold.1 heq
            · exact hcr (heq ▸ hy)
            · exact hmem.elim hold.2.1 hold.2.2
          have hpath' : Path (LinkedList.moved m l c f).next (r :: rest) l.head := by
            refine hpath.2.congr ?_
            intro y hy
            have hold := hother y hy
            simp only [List.mem_cons, not_or] at hold
            simp [LinkedList.moved, setNext, setPrev, hold]
          have hlive' : ∀ y ∈ r :: rest, (LinkedList.moved m l c f).live y = true := fun y hy =>
            hlive y (List.mem_cons_of_mem c hy)
          obtain ⟨m', hloop, hrep, hrest⟩ := ih hmoved hpath' hnodup' hother hlive'
            (Nat.le_of_succ_le_succ hfuel)
          refine ⟨m', (if_neg hr).trans hloop, ?_, ?_⟩
          · rw [List.reverse_cons, List.append_assoc]
            exact hrep
          · refine hhere.trans (hrest.mono ?_)
            intro y hy
            simp only [List.mem_append, List.mem_cons] at hy ⊢
            tauto

theorem contents_concat (m : NodeHeap T) (xs : List Nat) (c : Nat) :
    contents m (xs ++ [c]) = xs.map m.data := by
  rw [contents, List.dropLast_concat]

theorem Rearranged.bounded (h : Rearranged m m' cells) (hm : Bounded m) : Bounded m' := by
  intro y hy
  rw [h.live] at hy
  rw [h.top]
  exact hm y hy

theorem Rearranged.contents (h : Rearranged m m' cells) : contents m' xs = contents m xs := by
  rw [LinkedList.contents, LinkedList.contents, h.data]

/-- The last node becomes the head, before the loop. -/
theorem Rep.lastAsHead (h : Rep m l (xs ++ [x, l.tail])) :
    Rep (m.setPrev x none) { l with head := x } [x, l.tail] := by
  have hx : x ≠ l.tail := h.ne_tail
  have hnext : m.next x = some l.tail := h.next_eq
  have htail : m.prev l.tail = some x := by
    rw [List.append_cons] at h
    rw [h.prev_eq, List.getLast?_concat]
  refine ⟨⟨rfl, ?_, ?_, ?_, ?_, trivial⟩, rfl, ?_⟩
  · exact if_pos rfl
  · simp [nextTo, setPrev, hx, hnext]
  · simp [setPrev, hx.symm, htail]
  · exact if_pos rfl
  · intro y hy
    exact h.live y (List.mem_append_right xs hy)

theorem Rep.reverse_long (h : Rep m l (c :: xs ++ [x, l.tail])) (hm : Bounded m) :
    ∃ m', reverse m l = some (m', { l with head := x }) ∧
      Change m m' { l with head := x } (c :: xs ++ [x, l.tail]) (x :: ((c :: xs).reverse ++ [l.tail]))
        (contents m (c :: xs ++ [x, l.tail])).reverse := by
  have hlast : (c :: xs ++ [x, l.tail]) = (c :: xs ++ [x]) ++ [l.tail] := List.append_cons _ _ _
  have hnodup := h.nodup
  obtain ⟨hfront, -, hdisjoint⟩ := List.nodup_append.mp hnodup
  have hhead : l.head = c := (Option.some.inj h.chain.1)
  have hx : x ≠ l.tail := h.ne_tail
  have hrep := h.lastAsHead
  have hpath : Path m.next (c :: xs) x := by
    have hlinked := ((linked_append _ _ _ _ _ _).mp h.chain.2).1
    refine (path_of_linked hlinked).congr ?_
    intro y hy
    have hyt : y ≠ l.tail := hdisjoint y hy _ (by simp)
    exact (if_neg hyt).symm
  have hsecond : m.next c = some (xs.headD x) := hpath.1
  have hne : xs.headD x ≠ l.tail := by
    cases xs with
    | nil => exact hx
    | cons r rest => exact hdisjoint r (by simp) _ (by simp)
  have hct : c ≠ l.tail := hdisjoint c (by simp) _ (by simp)
  have hlc : m.live c = true := hhead ▸ h.live_head
  have hlx : m.live x = true := h.live x (by simp)
  have htail : m.prev l.tail = some x := by
    rw [hlast] at h
    rw [h.prev_eq, List.getLast?_concat]
  have hbound : (c :: xs).length ≤ m.top + 1 := by
    have hlength := h.length_le hm
    rw [List.length_append] at hlength
    omega
  obtain ⟨m', hloop, hrep', hchange⟩ := hrep.reverseLoop (m.top + 1) hpath hfront
    (fun y hy hmem => hdisjoint y hy y hmem rfl) (fun y hy => h.live y (List.mem_append_left _ hy))
    hbound
  have hwhole : Rearranged m m' (c :: xs ++ [x, l.tail]) := by
    refine Rearranged.trans ?_ hchange
    refine ⟨rfl, rfl, rfl, fun y hy => ?_, fun y _ => rfl⟩
    have hyx : y ≠ x := fun heq => hy (by simp [heq])
    exact if_neg hyx
  refine ⟨m', ?_, hrep', ?_, hwhole.bounded hm, fun y hy _ => hwhole.kept hy, ?_, hwhole.top.ge⟩
  · have hstore : m.storePrev x none = some (m.setPrev x none) := storePrev_eq hlx none
    simp only [LinkedList.reverse, empty, hhead, beq_iff_eq, hct, if_false, loadNext_eq hlc,
      hsecond, loadPrev_eq h.live_tail, htail, hstore, Option.bind_eq_bind, Option.bind_some, hne]
    exact hloop
  · rw [hwhole.contents, hlast, contents_concat, ← List.map_reverse, List.reverse_append,
      ← List.cons_append, contents_concat]
    rfl
  · intro y hy
    left
    simp only [List.mem_cons, List.mem_append, List.mem_reverse] at hy ⊢
    tauto

theorem Rep.reverse (h : Rep m l cells) (hm : Bounded m) :
    ∃ m' l' cells', reverse m l = some (m', l') ∧
      Change m m' l' cells cells' (contents m cells).reverse := by
  obtain ⟨xs, rfl⟩ : ∃ xs, cells = xs ++ [l.tail] :=
    ⟨cells.dropLast, (List.dropLast_append_getLast? _ h.last).symm⟩
  have hsame : (contents m (xs ++ [l.tail])).length ≤ 1 →
      Change m m l (xs ++ [l.tail]) (xs ++ [l.tail]) (contents m (xs ++ [l.tail])).reverse := by
    intro hlength
    have hchange := Change.refl h hm
    have hreverse : (contents m (xs ++ [l.tail])).reverse = contents m (xs ++ [l.tail]) := by
      match hvals : contents m (xs ++ [l.tail]), hlength with
      | [], _ => rfl
      | [_], _ => rfl
    rw [hreverse]
    exact hchange
  rw [contents_concat, List.length_map] at hsame
  cases hxs : xs.getLast? with
  | none =>
      obtain rfl := List.getLast?_eq_none_iff.mp hxs
      have hhead : l.head = l.tail := Option.some.inj h.chain.1
      refine ⟨m, l, _, ?_, hsame (Nat.zero_le 1)⟩
      simp [LinkedList.reverse, empty, hhead]
  | some x =>
      obtain ⟨ws, rfl⟩ := List.getLast?_eq_some_iff.mp hxs
      cases ws with
      | nil =>
          have hhead : l.head = x := Option.some.inj h.chain.1
          have hsplit : Rep m l ([] ++ x :: l.tail :: []) := h
          have hnext : m.next x = some l.tail := hsplit.next_eq
          have hx : x ≠ l.tail := hsplit.ne_tail
          have hlx : m.live x = true := hhead ▸ h.live_head
          refine ⟨m, l, _, ?_, hsame le_rfl⟩
          simp [LinkedList.reverse, empty, hhead, hx, loadNext, hlx, hnext]
      | cons c ws =>
          rw [← List.append_cons] at h ⊢
          obtain ⟨m', hrun, hchange⟩ := h.reverse_long hm
          exact ⟨m', _, _, hrun, hchange⟩

end LinkedList

end RebuildTheWheel.TinySTL
