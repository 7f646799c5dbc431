import RebuildTheWheel.TinySTL.GraphSearch

namespace RebuildTheWheel.TinySTL

open Data Data.GraphSearch

/-! `_BFS` takes the nodes level by level. -/

theorem mapM_range' {α : Type} {f : Nat → Option α} (xs : List α) (start : Nat)
    (hf : ∀ i < xs.length, f (start + i) = xs[i]?) :
    (List.range' start xs.length).mapM f = some xs := by
  induction xs generalizing start with
  | nil => rfl
  | cons x xs ih =>
      have hfirst := hf 0 (Nat.zero_lt_succ _)
      have hrest := ih (start + 1) fun i hi => by
        rw [Nat.add_assoc, Nat.add_comm 1 i]
        exact hf (i + 1) (Nat.succ_lt_succ hi)
      rw [List.length_cons, List.range'_succ, List.mapM_cons]
      rw [Nat.add_zero] at hfirst
      rw [hfirst, hrest]
      rfl

theorem Vector.Holds.released {T : Type} {m : RawMemory T} {v : Vector} {xs : List T}
    (h : Vector.Holds m v xs) : (Vector.destroyAndDeallocateAll m v).Bounded := by
  have hdestroyed : (m.destroy v.start v.size).Bounded := h.bounded
  rw [Vector.destroyAndDeallocateAll]
  split_ifs
  · unfold Allocator.deallocate
    split_ifs
    · exact hdestroyed
    · exact hdestroyed.deallocate _ _
  · exact h.bounded

namespace StoredGraph

variable {Index Value : Type} {ops : KeyOps Index} {exceeds : Nat → Nat → Bool}
  {sg : StoredGraph Index Value} {g : DirectedGraph Index Value} {start : ops.Class}
  {v : Visit Index Value} {order l r : List ops.Class} {level : Level Index Value}
  {memory : RawMemory (Index × Value)} {temp : Vector} {nodes xs : List (Index × Value)}
  {node : Index × Value} {index : Index} {fuel n : Nat}

theorem copies_eq (h : Vector.Holds memory temp xs) : copies memory temp = some xs := by
  rw [copies, h.size, List.range_eq_range']
  refine mapM_range' xs 0 fun i hi => ?_
  rw [Nat.zero_add]
  exact h.shows.elements i hi

theorem Stores.known_of_leads (h : Stores ops sg g) {c d : ops.Class} (hleads : Leads ops g c d) :
    d ∈ classes ops g := by
  obtain ⟨pair, hpair, -, node, hnode, rfl⟩ := hleads
  obtain ⟨pair', hpair', hequal⟩ := h.closed node (List.mem_flatMap.mpr ⟨pair, hpair, hnode⟩)
  exact List.mem_map.mpr ⟨pair', hpair', KeyOps.cls_eq.mpr hequal⟩

/-- The nodes of a vector are the successors of those of `r`. -/
def Successors (ops : KeyOps Index) (g : DirectedGraph Index Value) (nodes : List (Index × Value))
    (r : List ops.Class) : Prop :=
  ∀ d, (∃ node ∈ nodes, nodeClass ops node = d) ↔ ∃ c ∈ r, Leads ops g c d

theorem successors_nil : Successors ops g [] [] :=
  fun _ => ⟨(nomatch ·.choose_spec.1), (nomatch ·.choose_spec.1)⟩

theorem Successors.append (h : Successors ops g nodes l) (h' : Successors ops g xs r) :
    Successors ops g (nodes ++ xs) (l ++ r) := by
  intro d
  simp only [List.mem_append, or_and_right, exists_or]
  exact or_congr (h d) (h' d)

theorem successors_singleton {c : ops.Class}
    (h : ∀ d, (∃ node ∈ nodes, nodeClass ops node = d) ↔ Leads ops g c d) :
    Successors ops g nodes [c] := by
  intro d
  rw [h d]
  constructor
  · intro hleads
    exact ⟨c, List.mem_cons_self, hleads⟩
  · intro ⟨c', hc', hleads⟩
    rwa [List.mem_singleton.mp hc'] at hleads

/-- A turn over the successors of the nodes at the distance `n`: those of `l` were there before,
and those of `r` have come. -/
structure Turn (ops : KeyOps Index) (g : DirectedGraph Index Value) (start : ops.Class)
    (l : List ops.Class) (n : Nat) (level : Level Index Value) (r : List ops.Class)
    (xs : List (Index × Value)) : Prop where
  shows : Shows ops level.visit (l ++ r)
  explored : Explored ops g start (l ++ r) []
  temp : Vector.Holds level.memory level.temp xs
  successors : Successors ops g xs r
  far : ∀ c ∈ r, Distance (Leads ops g) start c (n + 1)

theorem Turn.step (h : Turn ops g start l n level r xs) (hsg : Stores ops sg g)
    (exceeds : Nat → Nat → Bool) (hwithin : Within (Leads ops g) start l n)
    (hnode : ∃ c, Distance (Leads ops g) start c n ∧ Leads ops g c (nodeClass ops node)) :
    ∃ level' r' xs', sg.bfsStep ops exceeds level node = some level' ∧
      Turn ops g start l n level' (r ++ r') xs' ∧ nodeClass ops node ∈ l ++ (r ++ r') := by
  rw [bfsStep]
  by_cases hin : nodeClass ops node ∈ l ++ r
  · rw [h.shows.count_of_mem hin]
    exact ⟨level, [], xs, rfl, (List.append_nil r).symm ▸ h, (List.append_nil r).symm ▸ hin⟩
  · obtain ⟨c, hc, hleads⟩ := hnode
    have hknown := hsg.known_of_leads hleads
    obtain ⟨s, hs, -, hsuccessors⟩ := hsg.adjacentNodes hknown
    obtain ⟨visit, henter, hshows⟩ := h.shows.enter exceeds node
    have hyields : Vector.Yields level.memory (level.temp.insertRange level.memory
        (level.temp.start + xs.length) s) (xs.take xs.length ++ s ++ xs.drop xs.length) :=
      h.temp.insertRange (Nat.le_refl _)
    obtain ⟨memory', temp', hinsert, hholds, -⟩ := hyields
    rw [← h.temp.finish] at hinsert
    rw [List.take_length, List.drop_length, List.append_nil] at hholds
    have hc' : c ∈ l := (hwithin c).mpr ⟨n, Nat.le_refl n, hc⟩
    have hentered := h.explored.enter hknown hin (.inr ⟨c, List.mem_append_left r hc', hleads⟩)
    rw [List.append_assoc] at hshows hentered
    refine ⟨⟨visit, memory', temp'⟩, [nodeClass ops node], xs ++ s, ?_,
      ⟨hshows, hentered, hholds, h.successors.append (successors_singleton hsuccessors),
        fun d hd => ?_⟩,
      List.mem_append_right l (List.mem_append_right r List.mem_cons_self)⟩
    · rw [h.shows.count_of_new hin]
      simp only [Option.bind_eq_bind, Option.bind_some, ↓reduceIte, henter, hs, hinsert]
      rfl
    · rcases List.mem_append.mp hd with hd | hd
      · exact h.far d hd
      · rw [List.mem_singleton.mp hd]
        exact hwithin.next (fun hl => hin (List.mem_append_left r hl)) hc hleads

theorem Turn.run (h : Turn ops g start l n level r xs) (hsg : Stores ops sg g)
    (exceeds : Nat → Nat → Bool) (hwithin : Within (Leads ops g) start l n)
    (hnodes : ∀ node ∈ nodes,
      ∃ c, Distance (Leads ops g) start c n ∧ Leads ops g c (nodeClass ops node)) :
    ∃ level' r' xs', nodes.foldlM (sg.bfsStep ops exceeds) level = some level' ∧
      Turn ops g start l n level' (r ++ r') xs' ∧
      ∀ node ∈ nodes, nodeClass ops node ∈ l ++ (r ++ r') := by
  induction nodes generalizing level r xs with
  | nil => exact ⟨level, [], xs, rfl, (List.append_nil r).symm ▸ h, nofun⟩
  | cons node nodes ih =>
      obtain ⟨level₁, r₁, xs₁, hstep, h₁, hin⟩ :=
        h.step hsg exceeds hwithin (hnodes node List.mem_cons_self)
      obtain ⟨level', r', xs', hrun, h', hall⟩ :=
        ih h₁ fun m hm => hnodes m (List.mem_cons_of_mem node hm)
      rw [List.append_assoc] at h' hall
      refine ⟨level', r₁ ++ r', xs', ?_, h', fun m hm => ?_⟩
      · rw [List.foldlM_cons, hstep]
        exact hrun
      · rcases List.mem_cons.mp hm with rfl | hm
        · rw [← List.append_assoc] at hin ⊢
          rw [← List.append_assoc]
          exact List.mem_append_left r' hin
        · exact hall m hm

/-- Each turn comes to a node more, or is the last. -/
theorem Stores.bfsLoop (hsg : Stores ops sg g) (exceeds : Nat → Nat → Bool)
    (hv : Shows ops v l) (hl : Explored ops g start l [])
    (hwithin : Within (Leads ops g) start l n) (hsorted : Sorted (Leads ops g) start l)
    (hnodes : ∀ d, (∃ node ∈ nodes, nodeClass ops node = d) ↔
      ∃ c, Distance (Leads ops g) start c n ∧ Leads ops g c d)
    (hmemory : memory.Bounded) (hfuel : g.nodes.length < fuel + l.length) :
    ∃ v' order, sg.bfsLoop ops exceeds fuel nodes v memory = some v' ∧ Shows ops v' order ∧
      Explored ops g start [] order ∧ Sorted (Leads ops g) start order ∧ ∀ c ∈ l, c ∈ order := by
  induction fuel generalizing v l n nodes memory with
  | zero =>
      have hle := hl.length_le
      rw [List.append_nil] at hle
      omega
  | succ fuel ih =>
      have hturn : Turn ops g start l n ⟨v, memory, Vector.new⟩ [] [] :=
        ⟨(List.append_nil l).symm ▸ hv, hl.open_nil, Vector.holds_new hmemory, successors_nil,
          nofun⟩
      obtain ⟨level, r, xs, hrun, h, hall⟩ := hturn.run hsg exceeds hwithin fun node hnode =>
        (hnodes _).mp ⟨node, hnode, rfl⟩
      rw [List.nil_append] at h hall
      have hnext : ∀ y x, Distance (Leads ops g) start y n → Leads ops g y x → x ∈ l ++ r := by
        intro y x hy hleads
        obtain ⟨node, hnode, rfl⟩ := (hnodes x).mpr ⟨y, hy, hleads⟩
        exact hall node hnode
      have hwithin' := hwithin.append h.far hnext
      have hsorted' := hsorted.append (fun c hc => (hwithin c).mp hc) h.far
      have hmem : ∀ c, c ∈ r ↔ Distance (Leads ops g) start c (n + 1) := fun _ =>
        hwithin.mem_new_iff h.far hnext
      rw [StoredGraph.bfsLoop, hrun]
      simp only [Option.bind_eq_bind, Option.bind_some, copies_eq h.temp]
      cases xs with
      | nil =>
          have hnone : ∀ c d, Distance (Leads ops g) start c (n + 1) → Leads ops g c d →
              d ∈ l ++ r := by
            intro c d hdistance hleads
            obtain ⟨node, hnode, -⟩ := (h.successors d).mpr ⟨c, (hmem c).mpr hdistance, hleads⟩
            cases hnode
          have hexplored := h.explored
          exact ⟨level.visit, l ++ r, rfl, h.shows,
            ⟨List.append_nil (l ++ r) ▸ hexplored.found, List.append_nil (l ++ r) ▸ hexplored.known,
              fun _ hc _ hleads => hwithin'.closed hnone hc hleads⟩,
            hsorted', fun _ hc => List.mem_append_left r hc⟩
      | cons x xs =>
          obtain ⟨c, hc, -⟩ := (h.successors (nodeClass ops x)).mp ⟨x, List.mem_cons_self, rfl⟩
          have hpos := List.length_pos_of_mem hc
          have hnodes' : ∀ d, (∃ node ∈ x :: xs, nodeClass ops node = d) ↔
              ∃ c, Distance (Leads ops g) start c (n + 1) ∧ Leads ops g c d := fun d =>
            (h.successors d).trans (exists_congr fun c => and_congr_left' (hmem c))
          have hfuel' : g.nodes.length < fuel + (l ++ r).length := by
            rw [List.length_append]
            omega
          obtain ⟨v', order, hloop, hshows, hexplored, hsorted'', hsub⟩ :=
            ih h.shows h.explored hwithin' hsorted' hnodes' h.temp.released hfuel'
          exact ⟨v', order, hloop, hshows, hexplored, hsorted'', fun c hc =>
            hsub c (List.mem_append_left r hc)⟩

end StoredGraph

end RebuildTheWheel.TinySTL
