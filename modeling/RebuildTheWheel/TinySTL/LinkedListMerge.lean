import RebuildTheWheel.TinySTL.LinkedListReverse

namespace RebuildTheWheel.TinySTL

open Data NodeHeap

namespace LinkedList

variable {T : Type} {m m' : NodeHeap T} {l x : LinkedList} {xs ys bs gs : List Nat}
  {cells ds : List Nat} {c d e g : Nat}

/-! `splice`, for a block at the front of the other list. -/

/-- The block `bs` from `d` to `e` moves from the front of `x` to the front of `c`. -/
structure Spliced (m m' : NodeHeap T) (before : Option Nat) (c d e g : Nat) : Prop where
  live : m'.live = m.live
  data : m'.data = m.data
  top : m'.top = m.top
  next : ∀ y, m'.next y = if y = e then some c else if before = some y then some d else m.next y
  prev : ∀ y, m'.prev y =
    if y = c then some e else if y = d then before else if y = g then none else m.prev y

section

variable (hs : Spliced m m' xs.getLast? c d e g) (hl : Rep m l (xs ++ c :: ys))
  (hx : Rep m x (bs ++ g :: gs)) (hd : bs.head? = some d) (he : bs.getLast? = some e)
  (hapart : ∀ y ∈ bs ++ g :: gs, y ∉ xs ++ c :: ys)

include hs hl hx hd he hapart

theorem Spliced.joins :
    Rep m' { l with head := if c = l.head then d else l.head } (xs ++ (bs ++ c :: ys)) := by
  have hbs : ∀ y ∈ bs, y ∉ xs ++ c :: ys := fun y hy => hapart y (List.mem_append_left _ hy)
  have hdm : d ∈ bs := List.mem_of_mem_head? hd
  have hem : e ∈ bs := List.mem_of_mem_getLast? he
  have hg : g ∉ xs ++ c :: ys := hapart g (List.mem_append_right bs List.mem_cons_self)
  have hold : ∀ y ∈ xs ++ c :: ys, y ≠ d ∧ y ≠ e ∧ y ≠ g := by
    intro y hy
    exact ⟨fun heq => hbs d hdm (heq ▸ hy), fun heq => hbs e hem (heq ▸ hy), fun heq => hg (heq ▸ hy)⟩
  have hin : ∀ y ∈ bs, y ≠ c ∧ xs.getLast? ≠ some y ∧ y ≠ g ∧ y ≠ l.tail := by
    intro y hy
    refine ⟨?_, ?_, ?_, ?_⟩
    · exact fun heq => hbs y hy (heq ▸ List.mem_append_right xs List.mem_cons_self)
    · exact fun heq => hbs y hy (List.mem_append_left _ (List.mem_of_mem_getLast? heq))
    · exact fun heq => (List.nodup_append.mp hx.nodup).2.2 y hy g List.mem_cons_self heq
    · exact fun heq => hbs y hy (heq ▸ List.mem_of_mem_getLast? hl.last)
  obtain ⟨hxsnodup, hysnodup', -⟩ := List.nodup_append.mp hl.nodup
  have hcxs : c ∉ xs := (apart_of_nodup hl.nodup).2.2.2.2.1
  obtain ⟨hxs, hcs⟩ := (linked_append _ _ _ _ _ _).mp hl.chain.2
  have hblock := ((linked_append _ _ _ _ _ _).mp hx.chain.2).1
  refine ⟨⟨?_, (linked_append _ _ _ _ _ _).mpr ⟨?_, (linked_append _ _ _ _ _ _).mpr ⟨?_, ?_⟩⟩⟩, ?_, ?_⟩
  · -- the new head
    cases xs with
    | nil =>
        obtain rfl : l.head = c := Option.some.inj hl.chain.1
        rw [if_pos rfl, List.nil_append, List.head?_append, hd]
        rfl
    | cons w ws =>
        have hne : c ≠ l.head := fun heq => List.cons_ne_nil w ws (hl.head_eq_iff.mp heq.symm)
        rw [if_neg hne, hl.chain.1]
        rfl
  · refine hxs.relink_after hxsnodup ?_ ?_
    · intro y hy
      have hmem : y ∈ xs ++ c :: ys := List.mem_append_left _ hy
      have hyt : y ≠ l.tail := fun heq => hl.tail_not_mem (heq ▸ hy)
      rw [nextTo, nextTo, if_neg hyt, if_neg hyt, hs.next, if_neg (hold y hmem).2.1,
        List.head?_append, hd]
      rfl
    · intro y hy
      have hmem : y ∈ xs ++ c :: ys := List.mem_append_left _ hy
      have hyc : y ≠ c := fun heq => hcxs (heq ▸ hy)
      rw [hs.prev, if_neg hyc, if_neg (hold y hmem).1, if_neg (hold y hmem).2.2]
  · refine hblock.relink ?_ ?_ ?_ ?_ (List.nodup_append.mp hx.nodup).1
    · intro y hy
      obtain rfl : y = d := Option.some.inj (hy.symm.trans hd)
      rw [hs.prev, if_neg (hin y hdm).1, if_pos rfl, Option.or_none]
    · intro y hy
      obtain rfl : y = e := Option.some.inj (hy.symm.trans he)
      rw [nextTo, if_neg (hin y hem).2.2.2, hs.next, if_pos rfl]
      rfl
    · intro y hy hlast
      have hye : y ≠ e := fun heq => hlast (heq ▸ he)
      have hyx : y ≠ x.tail := by
        rintro rfl
        exact hx.tail_not_mem hy
      rw [nextTo, nextTo, if_neg (hin y hy).2.2.2, if_neg hyx, hs.next, if_neg hye,
        if_neg (hin y hy).2.1]
    · intro y hy hfirst
      have hyd : y ≠ d := fun heq => hfirst (heq ▸ hd)
      rw [hs.prev, if_neg (hin y hy).1, if_neg hyd, if_neg (hin y hy).2.2.1]
  · rw [he]
    refine hcs.relink_before hysnodup' ?_ ?_
    · intro y hy
      have hmem : y ∈ xs ++ c :: ys := List.mem_append_right xs hy
      have hlast : xs.getLast? ≠ some y := by
        intro heq
        exact (List.nodup_append.mp hl.nodup).2.2 y (List.mem_of_mem_getLast? heq) y hy rfl
      rw [nextTo, nextTo, hs.next, if_neg (hold y hmem).2.1, if_neg hlast]
    · intro y hy
      have hmem : y ∈ xs ++ c :: ys := List.mem_append_right xs hy
      rw [hs.prev, if_neg (hold y hmem).1, if_neg (hold y hmem).2.2]
      simp only [List.head?_cons, Option.some.injEq, eq_comm]
      rfl
  · have hlast := hl.last
    rw [List.getLast?_append_of_ne_nil _ (List.cons_ne_nil c ys)] at hlast
    rw [← List.append_assoc, List.getLast?_append_of_ne_nil _ (List.cons_ne_nil c ys)]
    exact hlast
  · intro y hy
    rw [hs.live]
    simp only [List.mem_append] at hy
    rcases hy with hy | hy | hy
    · exact hl.live y (List.mem_append_left _ hy)
    · exact hx.live y (List.mem_append_left _ hy)
    · exact hl.live y (List.mem_append_right xs hy)

omit hl in
theorem Spliced.leaves : Rep m' { x with head := g } (g :: gs) := by
  have hsub : ∀ y ∈ g :: gs, y ∈ bs ++ g :: gs := fun y hy => List.mem_append_right bs hy
  have hnot : ∀ y ∈ g :: gs, y ∉ bs := fun y hy hmem =>
    (List.nodup_append.mp hx.nodup).2.2 y hmem y hy rfl
  have hother : ∀ y ∈ g :: gs, y ≠ c ∧ y ≠ d ∧ y ≠ e ∧ xs.getLast? ≠ some y := by
    intro y hy
    have hout := hapart y (hsub y hy)
    refine ⟨?_, ?_, ?_, ?_⟩
    · exact fun heq => hout (heq ▸ List.mem_append_right xs List.mem_cons_self)
    · exact fun heq => hnot y hy (heq ▸ List.mem_of_mem_head? hd)
    · exact fun heq => hnot y hy (heq ▸ List.mem_of_mem_getLast? he)
    · exact fun heq => hout (List.mem_append_left _ (List.mem_of_mem_getLast? heq))
  have hlinked := ((linked_append _ _ _ _ _ _).mp hx.chain.2).2
  have hnodup := (List.nodup_append.mp hx.nodup).2.1
  refine ⟨⟨rfl, hlinked.relink_before hnodup ?_ ?_⟩, ?_, ?_⟩
  · intro y hy
    obtain ⟨-, -, hye, hlast⟩ := hother y hy
    rw [nextTo, nextTo, hs.next, if_neg hye, if_neg hlast]
  · intro y hy
    obtain ⟨hyc, hyd, -, -⟩ := hother y hy
    rw [hs.prev, if_neg hyc, if_neg hyd]
    simp only [List.head?_cons, Option.some.injEq, eq_comm]
  · have hlast := hx.last
    rw [List.getLast?_append_of_ne_nil _ (List.cons_ne_nil g gs)] at hlast
    exact hlast
  · intro y hy
    rw [hs.live]
    exact hx.live y (hsub y hy)

omit hl hx hapart in
theorem Spliced.rearranged : Rearranged m m' (xs ++ c :: ys ++ (bs ++ g :: gs)) := by
  refine ⟨hs.live, hs.data, hs.top, ?_, ?_⟩
  · intro y hy
    simp only [List.mem_append, List.mem_cons, not_or] at hy
    have hyd : y ≠ d := fun heq => hy.2.1 (heq ▸ List.mem_of_mem_head? hd)
    rw [hs.prev, if_neg hy.1.2.1, if_neg hyd, if_neg hy.2.2.1]
  · intro y hy
    simp only [List.mem_append, List.mem_cons, not_or] at hy
    have hye : y ≠ e := fun heq => hy.2.1 (heq ▸ List.mem_of_mem_getLast? he)
    have hlast : xs.getLast? ≠ some y := fun heq => hy.1.1 (List.mem_of_mem_getLast? heq)
    rw [hs.next, if_neg hye, if_neg hlast]

omit hs in
theorem splice_front :
    ∃ m', splice m l c x d g =
        some (m', { l with head := if c = l.head then d else l.head }, { x with head := g }) ∧
      Spliced m m' xs.getLast? c d e g := by
  have hdm : d ∈ bs := List.mem_of_mem_head? hd
  have hem : e ∈ bs := List.mem_of_mem_getLast? he
  have hdg : d ≠ g := (List.nodup_append.mp hx.nodup).2.2 d hdm g List.mem_cons_self
  have hhead : x.head = d := by
    have hstart := hx.chain.1
    rw [List.head?_append, hd] at hstart
    exact Option.some.inj hstart
  have hprev : m.prev g = some e := hx.prev_eq.trans he
  have hlc : m.live c = true := hl.live c (List.mem_append_right xs List.mem_cons_self)
  have hlg : m.live g = true := hx.live g (List.mem_append_right bs List.mem_cons_self)
  have hld : m.live d = true := hx.live d (List.mem_append_left _ hdm)
  have hle : m.live e = true := hx.live e (List.mem_append_left _ hem)
  have hcd : c ≠ d := fun heq => hapart d (List.mem_append_left _ hdm)
    (heq ▸ List.mem_append_right xs List.mem_cons_self)
  have hcg : c ≠ g := fun heq => hapart g (List.mem_append_right bs List.mem_cons_self)
    (heq ▸ List.mem_append_right xs List.mem_cons_self)
  by_cases hc : c = l.head
  · obtain rfl : xs = [] := hl.head_eq_iff.mp hc.symm
    refine ⟨(((m.setPrev g none).setPrev d none).setNext e (some c)).setPrev c (some e), ?_,
      rfl, rfl, rfl, ?_, ?_⟩
    · simp [splice, loadPrev, storePrev, storeNext, setPrev, setNext, ← hc, hdg, hhead, hprev, hlc,
        hlg, hld, hle]
    · intro y
      simp [setPrev, setNext]
    · intro y
      simp only [setPrev, setNext, List.getLast?_nil]
  · obtain ⟨b, hb⟩ : ∃ b, xs.getLast? = some b := by
      cases hlast : xs.getLast? with
      | none => exact absurd (hl.head_eq_iff.mpr (List.getLast?_eq_none_iff.mp hlast)).symm hc
      | some b => exact ⟨b, rfl⟩
    have hbm : b ∈ xs := List.mem_of_mem_getLast? hb
    have hlb : m.live b = true := hl.live b (List.mem_append_left _ hbm)
    have hbefore : m.prev c = some b := hl.prev_eq.trans hb
    have hbe : b ≠ e := fun heq => hapart e (List.mem_append_left _ hem)
      (heq ▸ List.mem_append_left _ hbm)
    refine ⟨((((m.setPrev g none).setNext b (some d)).setPrev d (some b)).setNext e
      (some c)).setPrev c (some e), ?_, rfl, rfl, rfl, ?_, ?_⟩
    · simp [splice, loadPrev, storePrev, storeNext, setPrev, setNext, hc, hcg, hdg, hhead, hprev,
        hbefore, hlc, hlg, hld, hle, hlb]
    · intro y
      simp [setPrev, setNext, hb, eq_comm (a := y)]
    · intro y
      simp only [setPrev, setNext, hb]

end

/-! The loop of `merge`. -/

structure Merged (m m' : NodeHeap T) (l' x' : LinkedList) (cells rest cells' : List Nat)
    (vals : List T) : Prop where
  rep : Rep m' l' cells'
  emptied : Rep m' x' [x'.tail]
  vals : contents m cells' = vals
  used : cells' ⊆ cells ++ rest
  tail_mem : x'.tail ∈ rest
  apart : x'.tail ∉ cells'
  rearranged : Rearranged m m' (cells ++ rest)

theorem Rep.tail_of_singleton (h : Rep m l (xs ++ [c])) : c = l.tail :=
  (List.mem_singleton.mp h.tail_mem).symm

theorem with_head (h : l.head = c) : { l with head := c } = l := h ▸ rfl

/-- The second list has no node left. -/
theorem Rep.merged_nil (hl : Rep m l cells) (hx : Rep m x [d]) (hapart : d ∉ cells) :
    Merged m m l x cells [d] cells (contents m cells) := by
  have hd : d = x.tail := Rep.tail_of_singleton (show Rep m x ([] ++ [d]) from hx)
  refine ⟨hl, hd ▸ hx, rfl, List.subset_append_left _ _, ?_, hd ▸ hapart, rfl, rfl, rfl, ?_, ?_⟩
  · exact List.mem_singleton.mpr hd.symm
  · exact fun _ _ => rfl
  · exact fun _ _ => rfl

/-- The rest of the second list moves to the end of the first. -/
theorem Rep.splice_rest (hl : Rep m l (xs ++ [c])) (hx : Rep m x (d :: ds))
    (hapart : ∀ y ∈ d :: ds, y ∉ xs ++ [c]) :
    ∃ m' l' cells', splice m l c x d x.tail = some (m', l', { x with head := x.tail }) ∧
      Merged m m' l' { x with head := x.tail } (xs ++ [c]) (d :: ds) cells'
        (xs.map m.data ++ contents m (d :: ds)) := by
  obtain ⟨bs, hbs⟩ : ∃ bs, d :: ds = bs ++ [x.tail] :=
    ⟨(d :: ds).dropLast, (List.dropLast_append_getLast? _ hx.last).symm⟩
  cases bs with
  | nil =>
      obtain ⟨rfl, rfl⟩ : d = x.tail ∧ ds = [] := List.cons.inj hbs
      have hhead : x.head = x.tail := Option.some.inj hx.chain.1
      have hmerged := hl.merged_nil hx (hapart _ List.mem_cons_self)
      have hvals : contents m (xs ++ [c]) = xs.map m.data ++ contents m [x.tail] := by
        rw [contents_concat]
        exact (List.append_nil _).symm
      rw [with_head hhead, ← hvals]
      exact ⟨m, l, _, if_pos rfl, hmerged⟩
  | cons b bs =>
      obtain ⟨rfl, -⟩ : d = b ∧ ds = bs ++ [x.tail] := List.cons.inj hbs
      rw [hbs] at hx hapart ⊢
      obtain ⟨e, he⟩ : ∃ e, (d :: bs).getLast? = some e := by
        simp [List.getLast?_cons]
      obtain ⟨m', hrun, hs⟩ := splice_front hl hx rfl he hapart
      have htail := hx.tail_not_mem
      refine ⟨m', _, _, hrun, hs.joins hl hx rfl he hapart, hs.leaves hx rfl he hapart, ?_, ?_, ?_, ?_,
        hs.rearranged rfl he⟩
      · rw [← List.append_assoc, contents_concat, List.map_append, contents_concat]
      · intro y hy
        simp only [List.mem_append] at hy ⊢
        tauto
      · simp
      · intro hmem
        have hout := hapart x.tail (by simp)
        simp only [List.mem_append, not_or] at hmem hout
        tauto

/-- What is left of both lists is merged behind the nodes `xs`. -/
theorem Rep.mergeLoop (comp : T → T → Bool) (fuel : Nat) (hl : Rep m l (xs ++ c :: ys))
    (hx : Rep m x (d :: ds)) (hapart : ∀ y ∈ d :: ds, y ∉ xs ++ c :: ys)
    (hfuel : (c :: ys).length + (d :: ds).length ≤ fuel + 1) :
    ∃ m' l' cells', mergeLoop comp fuel m l x c d = some (m', l', { x with head := x.tail }) ∧
      Merged m m' l' { x with head := x.tail } (xs ++ c :: ys) (d :: ds) cells'
        (xs.map m.data ++
          (contents m (c :: ys)).merge (contents m (d :: ds)) fun a b => !comp b a) := by
  induction fuel generalizing m l x xs c ys d ds with
  | zero =>
      simp only [List.length_cons] at hfuel
      omega
  | succ fuel ih =>
      have hlc : m.live c = true := hl.live c (List.mem_append_right xs List.mem_cons_self)
      have hld : m.live d = true := hx.live d List.mem_cons_self
      have hsplit : Rep m x ([] ++ d :: ds) := hx
      rw [LinkedList.mergeLoop]
      cases ys with
      | nil =>
          have hc : c = l.tail := hl.tail_of_singleton
          rw [if_neg (fun hne => hne.1 hc), if_pos hc]
          obtain ⟨m', l', cells', hrun, hmerged⟩ := hl.splice_rest hx hapart
          have hnil : contents m [c] = [] := rfl
          rw [hnil, List.nil_merge]
          exact ⟨m', l', cells', hrun, hmerged⟩
      | cons c' ys =>
          have hc : c ≠ l.tail := hl.ne_tail
          cases ds with
          | nil =>
              have hd : d = x.tail := Rep.tail_of_singleton hsplit
              have hhead : x.head = x.tail := (Option.some.inj hx.chain.1).trans hd
              have hnil : contents m [d] = [] := rfl
              rw [if_neg (fun hne => hne.2 hd), if_neg hc, with_head hhead, hnil, List.merge_right,
                ← contents_append]
              exact ⟨m, l, _, rfl, hl.merged_nil hx (hapart d List.mem_cons_self)⟩
          | cons d' ds =>
              have hd : d ≠ x.tail := hsplit.ne_tail
              have hnext : m.next d = some d' := hsplit.next_eq
              rw [if_pos ⟨hc, hd⟩, loadData_eq hlc, loadData_eq hld, loadNext_eq hld, hnext,
                loadNext_eq hlc, hl.next_eq, contents_cons, contents_cons, List.cons_merge_cons]
              simp only [Option.bind_eq_bind, Option.bind_some]
              by_cases hcomp : comp (m.data d) (m.data c) = true
              · have hbs : ∀ y ∈ [d] ++ d' :: ds, y ∉ xs ++ c :: c' :: ys := hapart
                have hsplit' : Rep m x ([d] ++ d' :: ds) := hx
                obtain ⟨m₁, hsplice, hs⟩ := splice_front hl hsplit' rfl rfl hbs
                have hjoins := hs.joins hl hsplit' rfl rfl hbs
                have hleaves := hs.leaves hsplit' rfl rfl hbs
                have hhere : Rearranged m m₁ (xs ++ c :: c' :: ys ++ ([d] ++ d' :: ds)) :=
                  hs.rearranged rfl rfl
                rw [← List.append_assoc] at hjoins
                have hapart' : ∀ y ∈ d' :: ds, y ∉ xs ++ [d] ++ c :: c' :: ys := by
                  intro y hy
                  have hyd : y ≠ d := fun heq => (List.nodup_cons.mp hx.nodup).1 (heq ▸ hy)
                  have hout := hapart y (List.mem_cons_of_mem d hy)
                  simp only [List.mem_append, List.mem_singleton] at hout ⊢
                  tauto
                have hfuel' : (c :: c' :: ys).length + (d' :: ds).length ≤ fuel + 1 := by
                  simp only [List.length_cons] at hfuel ⊢
                  omega
                obtain ⟨m', l', cells', hrun, hmerged⟩ := ih hjoins hleaves hapart' hfuel'
                have hperm : xs ++ [d] ++ c :: c' :: ys ++ d' :: ds ⊆
                    xs ++ c :: c' :: ys ++ d :: d' :: ds := by
                  intro y hy
                  simp only [List.mem_append, List.mem_cons, List.not_mem_nil, or_false] at hy ⊢
                  tauto
                rw [if_pos hcomp, hsplice]
                refine ⟨m', l', cells', hrun, hmerged.rep, hmerged.emptied, ?_,
                  List.Subset.trans hmerged.used hperm, List.mem_cons_of_mem d hmerged.tail_mem,
                  hmerged.apart, hhere.trans (hmerged.rearranged.mono hperm)⟩
                have hvals := hmerged.vals
                rw [hhere.contents, hhere.contents, hhere.contents, hhere.data, List.map_append,
                  List.append_assoc, contents_cons] at hvals
                rw [if_neg (by simp [hcomp])]
                exact hvals
              · have hl' : Rep m l ((xs ++ [c]) ++ c' :: ys) := List.append_cons xs c (c' :: ys) ▸ hl
                have hapart' : ∀ y ∈ d :: d' :: ds, y ∉ xs ++ [c] ++ c' :: ys := by
                  rw [← List.append_cons]
                  exact hapart
                obtain ⟨m', l', cells', hrun, hmerged⟩ := ih hl' hx hapart' (by
                  simp only [List.length_cons] at hfuel ⊢
                  omega)
                rw [← List.append_cons, List.map_append, List.append_assoc, contents_cons] at hmerged
                rw [if_neg hcomp, if_pos (by simp [hcomp])]
                exact ⟨m', l', cells', hrun, hmerged⟩

theorem Rep.merge {cells rest : List Nat} (hl : Rep m l cells) (hx : Rep m x rest)
    (hapart : ∀ y ∈ rest, y ∉ cells) (hm : Bounded m) (comp : T → T → Bool) :
    ∃ m' l' cells', merge m l x comp = some (m', l', { x with head := x.tail }) ∧
      Merged m m' l' { x with head := x.tail } cells rest cells'
        ((contents m cells).merge (contents m rest) fun a b => !comp b a) := by
  have hfuel : cells.length + rest.length ≤ m.top := by
    have hnodup : (cells ++ rest).Nodup :=
      List.nodup_append.mpr ⟨hl.nodup, hx.nodup, fun y hy z hz heq => hapart z hz (heq ▸ hy)⟩
    have hsub : cells ++ rest ⊆ List.range m.top := by
      intro y hy
      refine List.mem_range.mpr (hm y ?_)
      rcases List.mem_append.mp hy with hy | hy
      · exact hl.live y hy
      · exact hx.live y hy
    have hle := (List.subperm_of_subset hnodup hsub).length_le
    rwa [List.length_append, List.length_range] at hle
  obtain ⟨ys, rfl⟩ := hl.exists_cons
  obtain ⟨ds, rfl⟩ := hx.exists_cons
  have hfront : Rep m l ([] ++ l.head :: ys) := hl
  exact hfront.mergeLoop comp (m.top + 1) hx hapart (hfuel.trans (by omega))

end LinkedList

end RebuildTheWheel.TinySTL
