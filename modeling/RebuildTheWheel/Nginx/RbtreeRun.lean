import Mathlib.Algebra.GroupWithZero.Nat
import RebuildTheWheel.Nginx.RbtreeDelete

namespace RebuildTheWheel.Nginx

open Data Data.RedBlack Data.Links

namespace Rbtree

variable {κ : Type} {s : Rbtree κ} {top fuel : Nat} {fs : Around κ} {t : Shape κ}

/-- Where a node stands in a tree. -/
theorem exists_place {e : Nat × κ} {before after : List (Nat × κ)} (fs : Around κ)
    (h : entries t = before ++ e :: after) :
    ∃ gs x left right, plug gs (.node x left right) = plug fs t ∧ entry x = e ∧
      beforeHole gs ++ entries left = beforeHole fs ++ before ∧
      entries right ++ afterHole gs = after ++ afterHole fs := by
  induction t generalizing fs before after with
  | nil => exact absurd h.symm (List.append_ne_nil_of_right_ne_nil _ (List.cons_ne_nil _ _))
  | node x left right ihLeft ihRight =>
      have hparts : entries left ++ entry x :: entries right = before ++ e :: after := h
      rcases List.append_eq_append_iff.mp hparts with ⟨middle, rfl, hmiddle⟩ | ⟨middle, hleft, hmiddle⟩
      · cases middle with
        | nil =>
            obtain ⟨rfl, rfl⟩ := List.cons.inj hmiddle
            exact ⟨fs, x, left, right, rfl, rfl, by simp, rfl⟩
        | cons b middle =>
            obtain ⟨rfl, hright⟩ := List.cons.inj hmiddle
            obtain ⟨gs, y, l, r, hplug, hy, hbefore, hafter⟩ :=
              ihRight (⟨.right, x, left⟩ :: fs) hright
            exact ⟨gs, y, l, r, hplug, hy, by simpa [beforeHole] using hbefore, hafter⟩
      · cases middle with
        | nil =>
            obtain ⟨rfl, rfl⟩ := List.cons.inj hmiddle
            exact ⟨fs, x, left, right, rfl, rfl, by simp [hleft], rfl⟩
        | cons b middle =>
            obtain ⟨rfl, hright⟩ := List.cons.inj hmiddle
            obtain ⟨gs, y, l, r, hplug, hy, hbefore, hafter⟩ :=
              ihLeft (⟨.left, x, right⟩ :: fs) hleft
            exact ⟨gs, y, l, r, hplug, hy, hbefore, by simpa [afterHole, hright] using hafter⟩

/-- The node with two children gives its place to the next one. -/
theorem chooseSubst_next {x : Node κ} {left right : Shape κ} (h : s.At top fs (.node x left right))
    (hleft : left ≠ .nil) (hright : right ≠ .nil) (hfuel : (addrs right).length ≤ fuel) :
    ∃ inner y rest, s.chooseSubst fuel x.addr = some (y.addr, addr sentinel rest) ∧
      plug inner (join .right y rest .nil) = right ∧ ∀ f ∈ inner, f.dir = .left := by
  have hloadLeft := At.loadChild (d := .left) h
  have hloadRight := At.loadChild (d := .right) h
  have hdown := At.down (d := .right) h
  have hne : ∀ {fs : Around κ} {u : Shape κ}, s.At top fs u → u ≠ .nil → addr sentinel u ≠ sentinel := by
    intro fs u hu hnil
    cases u with
    | nil => exact absurd rfl hnil
    | node z l r => exact At.ne_sentinel (d := .left) hu
  have hleftNe := hne (At.down (d := .left) h) hleft
  have hrightNe := hne hdown hright
  cases right with
  | nil => exact absurd rfl hright
  | node z l r =>
      rw [addrs_node, List.length_append, List.length_cons] at hfuel
      obtain ⟨inner, y, rest, hmin, hplug, hdirs⟩ := min_spec fuel hdown (by omega)
      rw [← hplug] at hdown
      have hy := hdown.downThrough
      have hyLeft := hy.loadOther
      refine ⟨inner, y, rest, ?_, hplug, hdirs⟩
      rw [addr_node] at hrightNe hloadRight
      simp only [Dir.other, addr] at hyLeft
      simp only [chooseSubst, hloadLeft, hloadRight, if_neg hleftNe, if_neg hrightNe, hmin, hyLeft,
        hy.loadChild, Option.bind_eq_bind, Option.bind_some, ne_eq, not_true_eq_false, if_false]

theorem delete_spec [Zero κ] {a : Nat} {k : κ} {before after : List (Nat × κ)}
    (h : s.Holding (before ++ (a, k) :: after))
    (hfuel : (before ++ (a, k) :: after).length < fuel) :
    ∃ s', s.delete fuel a = some s' ∧ s'.Holding (before ++ after) := by
  obtain ⟨top, t, m, hat, hbalanced, hnodes⟩ := h
  obtain ⟨gs, x, left, right, hplug, hx, hbefore, hafter⟩ := exists_place [] hnodes
  obtain ⟨rfl, rfl⟩ : x.addr = a ∧ x.data = k := Prod.mk.inj hx
  have hbefore : beforeHole gs ++ entries left = before := hbefore
  have hafter : entries right ++ afterHole gs = after := by simpa [afterHole] using hafter
  rw [plug.eq_1] at hplug
  rw [← hplug] at hat hbalanced
  have hlength : (addrs (plug gs (.node x left right))).length < fuel := by
    rw [hplug, addrs, List.length_map, hnodes]
    exact hfuel
  have hplace : s.At top gs (.node x left right) := by
    have := hat.downThrough
    rwa [List.append_nil] at this
  rw [(addrs_plug_perm gs _).length_eq, List.length_append, addrs_node, List.length_append,
    List.length_cons] at hlength
  have hcontext := length_le_contextAddrs gs
  have hgs : gs.length < fuel := by omega
  have hright : (addrs right).length < fuel := by omega
  have hloadLeft := At.loadChild (d := .left) hplace
  have hloadRight := At.loadChild (d := .right) hplace
  cases hl : left with
  | nil =>
      subst hl
      obtain ⟨s', hs', hholding⟩ := delete_self (d := .right) hplace hbalanced hgs (by
        simp only [chooseSubst, hloadLeft, hloadRight, addr, Option.bind_eq_bind, Option.bind_some,
          if_true])
      refine ⟨s', hs', ?_⟩
      rw [entries_plug, List.append_assoc, hafter] at hholding
      rw [← hbefore]
      simpa [entries] using hholding
  | node y l r =>
      have hleft : left ≠ .nil := by simp [hl]
      have hne : addr sentinel left ≠ sentinel := by
        rw [hl] at hplace ⊢
        exact At.ne_sentinel (d := .left) (At.down (d := .left) hplace)
      by_cases hnil : right = .nil
      · subst hnil
        obtain ⟨s', hs', hholding⟩ := delete_self (d := .left) hplace hbalanced hgs (by
          have hnil : addr sentinel (.nil : Shape κ) = sentinel := rfl
          simp only [chooseSubst, hloadLeft, hloadRight, hnil, Option.bind_eq_bind,
            Option.bind_some, if_neg hne, if_true])
        refine ⟨s', hs', ?_⟩
        rw [entries_plug, hbefore] at hholding
        rw [← hafter]
        simpa [entries] using hholding
      · obtain ⟨inner, y, rest, hchoose, hinner, hdirs⟩ :=
          chooseSubst_next hplace hleft hnil hright.le
        have hdown := At.down (d := .right) hplace
        rw [← hinner] at hdown
        have hbalanced : Balanced (plug (inner ++ ⟨.right, x, left⟩ :: gs) (join .right y rest .nil))
            .black m := by
          rw [plug_append, hinner]
          exact hbalanced
        have hfuel' : (inner ++ ⟨.right, x, left⟩ :: gs).length < fuel := by
          have hlength' := (addrs_plug_perm inner (join .right y rest .nil)).length_eq
          rw [hinner, List.length_append, (addrs_join_perm .right y rest .nil).length_eq,
            List.length_cons] at hlength'
          have hle := length_le_contextAddrs inner
          rw [List.length_append, List.length_cons]
          omega
        obtain ⟨s', hs', hholding⟩ := delete_next hdown.downThrough hbalanced hfuel' hchoose
        refine ⟨s', hs', ?_⟩
        have hright : entries right = entry y :: (entries rest ++ afterHole inner) := by
          rw [← hinner, entries_plug, beforeHole_eq_nil hdirs]
          rfl
        rw [plug_append, plug, entries_plug, entries_join, entries_plug, beforeHole_eq_nil hdirs]
          at hholding
        rw [← hbefore, ← hafter, hright]
        simpa [beside, entry] using hholding

/-! Iteration. -/

/-- Above a node that is no left child comes the next one. -/
theorem nextUp_spec (fuel : Nat) (h : s.At top fs t) (ht : t ≠ .nil) (hfuel : fs.length < fuel) :
    s.nextUp fuel (addr sentinel t) = some (((afterHole fs).map Prod.fst).headD NULL) := by
  induction fuel generalizing fs t with
  | zero => cases hfuel
  | succ fuel ih =>
      obtain ⟨x, left, right, rfl⟩ : ∃ x left right, t = join .left x left right := by
        cases t with
        | nil => exact absurd rfl ht
        | node x left right => exact ⟨x, left, right, rfl⟩
      rw [addr_join]
      cases fs with
      | nil =>
          have hroot : x.addr = s.root := by rw [h.root, addr_join]
          simp only [nextUp, h.loadParent, Option.bind_eq_bind, Option.bind_some, if_pos hroot]
          rfl
      | cons f fs =>
          have hroot : x.addr ≠ s.root := by
            have := h.addr_ne_root
            rwa [addr_join] at this
          obtain ⟨c, hc, hside⟩ := h.is_child (by rw [addr_join]; exact h.ne_sentinel) .left
          rw [addr_join] at hside
          simp only [nextUp, h.loadParent, Option.bind_eq_bind, Option.bind_some, if_neg hroot,
            above, hc, hside]
          cases hdir : f.dir with
          | left =>
              rw [if_pos rfl, afterHole, hdir]
              rfl
          | right =>
              rw [if_neg (by decide), afterHole, hdir]
              have hup := ih h.up (by cases f.dir <;> simp [join]) (by simpa using hfuel)
              rwa [addr_join] at hup

theorem next_spec {x : Node κ} {left right : Shape κ} (h : s.At top fs (.node x left right))
    (hright : (addrs right).length < fuel) (hfs : fs.length < fuel) :
    s.next fuel x.addr = some (((entries right ++ afterHole fs).map Prod.fst).headD NULL) := by
  have hload := At.loadChild (d := .right) h
  cases right with
  | nil =>
      have hup := nextUp_spec fuel h (by simp) hfs
      simp only [next, hload, addr, Option.bind_eq_bind, Option.bind_some, ne_eq,
        not_true_eq_false, if_false]
      exact hup
  | node z l r =>
      have hdown := At.down (d := .right) h
      have hne : z.addr ≠ sentinel := At.ne_sentinel (d := .left) hdown
      rw [addrs_node, List.length_append, List.length_cons] at hright
      obtain ⟨inner, y, rest, hmin, hplug, hdirs⟩ := min_spec fuel hdown (by omega)
      simp only [next, hload, addr, Option.bind_eq_bind, Option.bind_some, ne_eq, hne,
        not_false_eq_true, if_true, hmin]
      rw [← hplug, entries_plug, beforeHole_eq_nil hdirs]
      rfl

/-- The next node of any node of the tree. -/
theorem At.next {a : Nat × κ} {before after : List (Nat × κ)} (h : s.At top [] t)
    (ht : entries t = before ++ a :: after) (hfuel : (entries t).length < fuel) :
    s.next fuel a.1 = some ((after.map Prod.fst).headD NULL) := by
  obtain ⟨gs, x, left, right, hplug, rfl, -, hafter⟩ := exists_place [] ht
  rw [plug.eq_1] at hplug
  have hlength : (addrs (plug gs (.node x left right))).length < fuel := by
    rw [hplug, addrs, List.length_map]
    exact hfuel
  rw [← hplug] at h
  have hplace : s.At top gs (.node x left right) := by
    have := h.downThrough
    rwa [List.append_nil] at this
  rw [(addrs_plug_perm gs _).length_eq, List.length_append, addrs_node, List.length_append,
    List.length_cons] at hlength
  have hcontext := length_le_contextAddrs gs
  have hnext := next_spec hplace (show (addrs right).length < fuel by omega) (by omega)
  rwa [hafter, afterHole, List.append_nil] at hnext

theorem walk_spec (n : Nat) {before after : List (Nat × κ)} (h : s.At top [] t)
    (ht : entries t = before ++ after) (hfuel : (entries t).length < fuel) (hn : after.length < n) :
    walk fuel s n ((after.map Prod.fst).headD NULL) = some (after.map Prod.fst) := by
  induction n generalizing before after with
  | zero => cases hn
  | succ n ih =>
      cases after with
      | nil => exact if_pos rfl
      | cons a after =>
          have hmem : a.1 ∈ addrs t := by
            rw [addrs, ht]
            simp
          have hne : a.1 ≠ NULL := h.ne_null _ (List.mem_append_left _ hmem)
          have hrest := ih (ht.trans (List.append_cons before a after)) (by simpa using hn)
          simp only [List.map_cons, List.headD_cons, walk, if_neg hne, h.next ht hfuel,
            Option.bind_eq_bind, Option.bind_some, hrest]

/-- The leftmost node is the first of the traversal. -/
theorem first_spec {x : Node κ} {left right : Shape κ} (h : s.At top [] (.node x left right))
    (hfuel : (entries (.node x left right)).length < fuel) :
    s.min fuel x.addr = some (((entries (.node x left right)).map Prod.fst).headD NULL) := by
  have hlength : (addrs (.node x left right)).length < fuel := by
    rwa [addrs, List.length_map]
  rw [addrs_node, List.length_append] at hlength
  obtain ⟨inner, y, rest, hmin, hplug, hdirs⟩ := min_spec fuel h (by omega)
  rw [hmin, ← hplug, entries_plug, beforeHole_eq_nil hdirs]
  rfl

theorem visit_spec (h : s.At top [] t) (hfuel : (entries t).length < fuel) :
    s.visit fuel = some ((entries t).map Prod.fst) := by
  have hwalk := walk_spec fuel h (List.nil_append (entries t)).symm hfuel hfuel
  cases t with
  | nil => exact if_pos h.root
  | node x left right =>
      have hroot : s.root = x.addr := h.root
      have hne : x.addr ≠ sentinel := At.ne_sentinel (d := .left) h
      simp only [visit, hroot, if_neg hne, first_spec h hfuel, Option.bind_eq_bind,
        Option.bind_some, hwalk]

/-! Runs. -/

/-- The linked nodes with their keys, after an operation. -/
def relink (linked : List (Nat × κ)) : Op κ → List (Nat × κ)
  | .insert node key => (node, key) :: linked
  | .delete node => linked.filter fun a => a.1 ≠ node

theorem length_relink_le (linked : List (Nat × κ)) (op : Op κ) :
    (relink linked op).length ≤ linked.length + 1 := by
  cases op with
  | insert node key => exact le_rfl
  | delete node => exact (List.length_filter_le _ _).trans (Nat.le_succ _)

theorem length_foldl_relink_le (ops : List (Op κ)) (linked : List (Nat × κ)) :
    (ops.foldl relink linked).length ≤ linked.length + ops.length := by
  induction ops generalizing linked with
  | nil => exact le_rfl
  | cons op ops ih =>
      have hrest := ih (relink linked op)
      have hop := length_relink_le linked op
      rw [List.foldl_cons, List.length_cons]
      omega

/-- Callers insert nodes of their own that are not in the tree, and delete nodes that are. -/
def Allowed (linked : List (Nat × κ)) : Op κ → Prop
  | .insert node _ => Outside node linked
  | .delete node => node ∈ linked.map Prod.fst

def WellUsed : List (Nat × κ) → List (Op κ) → Prop
  | _, [] => True
  | linked, op :: ops => Allowed linked op ∧ WellUsed (relink linked op) ops

/-- The tree in memory: the children and the parents agree, the colours and the order are right,
the nodes are those that are linked, and the iteration goes through them. -/
structure Holds [LinearOrder κ] (fuel : Nat) (s : Rbtree κ) (linked : List (Nat × κ)) (top : Nat)
    (t : Shape κ) : Prop where
  stands : s.At top [] t
  balanced : ∃ m, Balanced t .black m
  sorted : Sorted (entries t)
  linked : (entries t).Perm linked
  visit : s.visit fuel = some ((entries t).map Prod.fst)

/-- The key of a node outside of the tree is not seen. -/
theorem At.setData {a : Nat} (h : s.At top [] t) (k : κ) (hout : Outside a (entries t)) :
    At (s.setData a k) top [] t := by
  refine ⟨h.focus.congr rfl fun b hb => ⟨⟨fun _ => rfl, rfl, if_neg ?_⟩, rfl⟩, h.ne_null, h.black⟩
  rintro rfl
  have hmem : b ∈ addrs t := by simpa [contextAddrs] using hb
  exact hout.notMem hmem

theorem Outside.perm {nodes linked : List (Nat × κ)} {a : Nat} (h : Outside a linked)
    (hperm : nodes.Perm linked) : Outside a nodes :=
  ⟨h.ne_null, h.ne_sentinel, fun hmem => h.notMem ((hperm.map _).mem_iff.mp hmem)⟩

section Runs

variable [LinearOrder κ]

theorem Holding.holds {nodes linked : List (Nat × κ)} (h : s.Holding nodes) (hsorted : Sorted nodes)
    (hperm : nodes.Perm linked) (hfuel : linked.length < fuel) :
    ∃ top t, s.Holds fuel linked top t := by
  obtain ⟨top, t, m, hat, ht, rfl⟩ := h
  exact ⟨top, t, hat, ⟨m, ht⟩, hsorted, hperm, visit_spec hat (hperm.length_eq ▸ hfuel)⟩

theorem Holds.insert {linked : List (Nat × κ)} {a : Nat} (h : s.Holds fuel linked top t) (k : κ)
    (hout : Outside a linked) (hfuel : linked.length + 1 < fuel) :
    ∃ s' top' t', (do
        let s ← s.storeKey a k
        s.insert fuel a) = some s' ∧ s'.Holds fuel ((a, k) :: linked) top' t' := by
  obtain ⟨hat, ⟨m, ht⟩, hsorted, hperm, -⟩ := h
  have hlength := hperm.length_eq
  have hout : Outside a (entries t) := hout.perm hperm
  have hat' : At (s.setData a k) top [] t := hat.setData k hout
  obtain ⟨s', before, after, hs', hnodes, hholding, hsorted'⟩ :=
    insert_spec ⟨top, t, m, hat', ht, rfl⟩ hsorted hout (by omega : _ < fuel)
  have hkey : (s.setData a k).data a = k := if_pos rfl
  rw [hkey] at hholding hsorted'
  obtain ⟨top', t', hholds⟩ := hholding.holds hsorted'
    (List.perm_middle.trans ((hnodes ▸ hperm).cons (a, k))) (by simpa using hfuel)
  refine ⟨s', top', t', ?_, hholds⟩
  simp only [storeKey, if_neg hout.ne_null, Option.bind_eq_bind, Option.bind_some]
  exact hs'

theorem Holds.delete [Zero κ] {linked : List (Nat × κ)} {a : Nat} (h : s.Holds fuel linked top t)
    (ha : a ∈ linked.map Prod.fst) (hfuel : linked.length < fuel) :
    ∃ s' top' t', s.delete fuel a = some s' ∧
      s'.Holds fuel (linked.filter fun b => b.1 ≠ a) top' t' := by
  obtain ⟨hat, ⟨m, ht⟩, hsorted, hperm, -⟩ := h
  obtain ⟨⟨a, k⟩, hmem, rfl⟩ := List.mem_map.mp ((hperm.map _).mem_iff.mpr ha)
  obtain ⟨before, after, hnodes⟩ := List.append_of_mem hmem
  have hlength := hperm.length_eq
  obtain ⟨s', hs', hholding⟩ := delete_spec (k := k) ⟨top, t, m, hat, ht, hnodes⟩
    (by rw [← hnodes]; omega : _ < fuel)
  have hnodup : (addrs t).Nodup := (List.nodup_append.mp hat.focus.nodup).1
  rw [hnodes] at hsorted hperm
  rw [addrs, hnodes, List.map_append, List.map_cons] at hnodup
  have hfilter : (before ++ (a, k) :: after).filter (fun b => b.1 ≠ a) = before ++ after := by
    obtain ⟨-, hafter, hapart⟩ := List.nodup_append.mp hnodup
    rw [List.filter_append, List.filter_cons_of_neg (by simp), List.filter_eq_self.mpr,
      List.filter_eq_self.mpr]
    · intro b hb
      simpa using ne_of_mem_of_not_mem (List.mem_map_of_mem hb) (List.nodup_cons.mp hafter).1
    · intro b hb
      simpa using hapart _ (List.mem_map_of_mem hb) _ List.mem_cons_self
  have hperm' := hperm.filter fun b => b.1 ≠ a
  rw [hfilter] at hperm'
  have hsublist : (before ++ after).Sublist (before ++ (a, k) :: after) :=
    (List.Sublist.refl before).append (List.sublist_cons_self _ _)
  obtain ⟨top', t', hholds⟩ := hholding.holds (List.Pairwise.sublist hsublist hsorted) hperm'
    ((List.length_filter_le _ _).trans_lt hfuel)
  exact ⟨s', top', t', hs', hholds⟩

theorem Holds.run [Zero κ] (ops : List (Op κ)) {linked : List (Nat × κ)}
    (h : s.Holds fuel linked top t) (hops : WellUsed linked ops)
    (hfuel : linked.length + ops.length < fuel) :
    ∃ s' top' t', ops.foldlM (step fuel) s = some s' ∧
      s'.Holds fuel (ops.foldl relink linked) top' t' := by
  induction ops generalizing s linked top t with
  | nil => exact ⟨s, top, t, rfl, h⟩
  | cons op ops ih =>
      rw [List.length_cons] at hfuel
      obtain ⟨hop, hops⟩ := hops
      have hlength := length_relink_le linked op
      obtain ⟨s₁, top₁, t₁, hs₁, h₁⟩ : ∃ s₁ top₁ t₁, step fuel s op = some s₁ ∧
          s₁.Holds fuel (relink linked op) top₁ t₁ := by
        cases op with
        | insert a k => exact h.insert k hop (by omega)
        | delete a => exact h.delete hop (by omega)
      obtain ⟨s', top', t', hs', h'⟩ := ih h₁ hops (by omega)
      refine ⟨s', top', t', ?_, h'⟩
      rw [List.foldlM_cons, hs₁]
      exact hs'

theorem init_holds (s : Rbtree κ) (hfuel : 0 < fuel) :
    s.init.Holds fuel [] NULL .nil := by
  have hat : s.init.At NULL [] .nil := by
    refine ⟨⟨⟨rfl, rfl⟩, rfl, List.nodup_nil⟩, fun a ha => absurd ha List.not_mem_nil, ?_⟩
    simp [init, Links.setColor, Links.setRoot]
  exact ⟨hat, ⟨0, .nil⟩, List.Pairwise.nil, .nil, visit_spec hat hfuel⟩

/-- Every run of insertions and removals from an empty tree. -/
theorem run_holds [Zero κ] (s : Rbtree κ) (ops : List (Op κ)) (hops : WellUsed [] ops)
    (hfuel : ops.length < fuel) :
    ∃ s' top t, ops.foldlM (step fuel) s.init = some s' ∧
      s'.Holds fuel (ops.foldl relink []) top t :=
  (init_holds s (Nat.zero_lt_of_lt hfuel)).run ops hops (by simpa using hfuel)

end Runs

/-- A memory in which nothing is set. -/
def blank : Rbtree Nat := ⟨NULL, fun _ => NULL, fun _ _ => NULL, fun _ => .red, fun _ => 0⟩

theorem run_holds_three : ∃ s' top t,
    [Op.insert 2 5, .insert 3 5, .delete 2].foldlM (step 4) blank.init = some s' ∧
      s'.Holds 4 [(3, 5)] top t := by
  have hdelete : 2 ∈ ([(3, 5), (2, 5)] : List (Nat × Nat)).map Prod.fst := by decide
  refine run_holds blank _ ⟨⟨?_, ?_, ?_⟩, ⟨?_, ?_, ?_⟩, hdelete, trivial⟩ ?_ <;> decide

end Rbtree

end RebuildTheWheel.Nginx
