import Mathlib.Data.List.Basic

namespace RebuildTheWheel

/-! Tries over bits, with a blank value in the nodes that carry none. -/

inductive BitTrie (α : Type) where
  | null
  | node (value : α) (right left : BitTrie α)
deriving DecidableEq

namespace BitTrie

def child {α : Type} : Bool → BitTrie α → BitTrie α → BitTrie α
  | true, right, _ => right
  | false, _, left => left

/-- The parent of a node: on which side of it the node is, its value and its other child. -/
structure Parent (α : Type) where
  isRight : Bool
  value : α
  other : BitTrie α

/-- The parent with a child. -/
def Parent.above {α : Type} : Parent α → BitTrie α → BitTrie α
  | ⟨true, value, left⟩, right => .node value right left
  | ⟨false, value, right⟩, left => .node value right left

/-- The whole trie from a node and its ancestors, the parent first. -/
def plug {α : Type} : List (Parent α) → BitTrie α → BitTrie α
  | [], t => t
  | parent :: up, t => plug up (parent.above t)

/-- The way from the root. -/
def way {α : Type} (up : List (Parent α)) : List Bool := (up.map Parent.isRight).reverse

variable {α : Type} {blank value : α} {t t' right left : BitTrie α} {parent : Parent α}
  {up : List (Parent α)} {b : Bool} {p q : List Bool}

@[simp] theorem way_nil : way ([] : List (Parent α)) = [] := rfl

@[simp] theorem way_cons : way (parent :: up) = way up ++ [parent.isRight] := by
  rw [way, List.map_cons, List.reverse_cons, way]

theorem above_child : Parent.above ⟨b, value, child (!b) right left⟩ (child b right left) =
    .node value right left := by
  cases b <;> rfl

/-! Tries without useless nodes. -/

/-- Every leaf carries a value. -/
def Full (blank : α) : BitTrie α → Prop
  | .null => True
  | .node value right left =>
      (right = null → left = null → value ≠ blank) ∧ right.Full blank ∧ left.Full blank

/-- The root need not carry a value. -/
def Rooted (blank : α) : BitTrie α → Prop
  | .null => False
  | .node _ right left => right.Full blank ∧ left.Full blank

theorem full_above (hnull : t ≠ null) :
    (parent.above t).Full blank ↔ t.Full blank ∧ parent.other.Full blank := by
  obtain ⟨_ | _, value, other⟩ := parent
  · exact ⟨fun h => ⟨h.2.2, h.2.1⟩, fun h => ⟨fun _ hleft => absurd hleft hnull, h.2, h.1⟩⟩
  · exact ⟨fun h => ⟨h.2.1, h.2.2⟩, fun h => ⟨fun hright => absurd hright hnull, h.1, h.2⟩⟩

theorem rooted_above :
    (parent.above t).Rooted blank ↔ t.Full blank ∧ parent.other.Full blank := by
  obtain ⟨_ | _, value, other⟩ := parent
  · exact and_comm
  · exact Iff.rfl

theorem above_ne_null : parent.above t ≠ null := by
  obtain ⟨_ | _, value, other⟩ := parent <;> exact nofun

/-- A node in place, with its ancestors. -/
structure InPlace (blank : α) (up : List (Parent α)) (t : BitTrie α) : Prop where
  others : ∀ parent ∈ up, parent.other.Full blank
  root : up = [] → t.Rooted blank
  below : up ≠ [] → t.Full blank

theorem rooted_plug (hnull : t ≠ null) : (plug up t).Rooted blank ↔ InPlace blank up t := by
  induction up generalizing t with
  | nil => exact ⟨fun h => ⟨nofun, fun _ => h, fun hne => absurd rfl hne⟩, fun h => h.root rfl⟩
  | cons parent up ih =>
      rw [plug, ih above_ne_null]
      constructor
      · intro h
        have hboth : t.Full blank ∧ parent.other.Full blank := by
          by_cases hup : up = []
          · exact rooted_above.mp (h.root hup)
          · exact (full_above hnull).mp (h.below hup)
        exact ⟨List.forall_mem_cons.mpr ⟨hboth.2, h.others⟩, nofun, fun _ => hboth.1⟩
      · intro h
        obtain ⟨hother, hothers⟩ := List.forall_mem_cons.mp h.others
        have hbelow := h.below (List.cons_ne_nil _ _)
        exact ⟨hothers, fun _ => rooted_above.mpr ⟨hbelow, hother⟩,
          fun _ => (full_above hnull).mpr ⟨hbelow, hother⟩⟩

theorem Rooted.around {blank : α} (h : (plug up (.node value right left)).Rooted blank) :
    (∀ parent ∈ up, parent.other.Full blank) ∧ right.Full blank ∧ left.Full blank := by
  obtain ⟨hothers, hroot, hbelow⟩ := (rooted_plug (show node value right left ≠ null from nofun)).mp h
  by_cases hup : up = []
  · exact ⟨hothers, hroot hup⟩
  · exact ⟨hothers, (hbelow hup).2⟩

theorem full_above_null {blank : α} (hother : parent.other.Full blank)
    (h : parent.other ≠ null ∨ parent.value ≠ blank) : (parent.above null).Full blank := by
  obtain ⟨_ | _, value, other⟩ := parent
  · exact ⟨fun hright _ => h.resolve_left fun hne => hne hright, hother, trivial⟩
  · exact ⟨fun _ hleft => h.resolve_left fun hne => hne hleft, trivial, hother⟩

/-- How many nodes are missing on a way. -/
def missing : BitTrie α → List Bool → Nat
  | .null, p => p.length + 1
  | .node _ _ _, [] => 0
  | .node _ right _, true :: p => right.missing p
  | .node _ _ left, false :: p => left.missing p

theorem missing_cons : missing (.node value right left) (b :: p) = (child b right left).missing p := by
  cases b <;> rfl

/-! The longest prefix that has a value. -/

/-- `result` is the value of the longest prefix of `bits` that has one, or else `default`. -/
def Longest (values : List Bool → Option α) (bits : List Bool) (default result : α) : Prop :=
  (result = default ∧ ∀ p, p <+: bits → values p = none) ∨
    ∃ p, p <+: bits ∧ values p = some result ∧
      ∀ q, q <+: bits → values q ≠ none → q.length ≤ p.length

theorem longest_nil {values : List Bool → Option α} {default : α} :
    Longest values [] default ((values []).getD default) := by
  cases hvalue : values [] with
  | none =>
      refine .inl ⟨rfl, fun p hp => ?_⟩
      obtain rfl := List.eq_nil_of_prefix_nil hp
      exact hvalue
  | some value =>
      refine .inr ⟨[], List.prefix_rfl, hvalue, fun q hq _ => ?_⟩
      exact Nat.le_of_eq (congrArg List.length (List.eq_nil_of_prefix_nil hq))

theorem longest_cons {values : List Bool → Option α} {bits : List Bool} {default result : α}
    (h : Longest (fun p => values (b :: p)) bits ((values []).getD default) result) :
    Longest values (b :: bits) default result := by
  rcases h with ⟨rfl, hnone⟩ | ⟨p, hp, hvalue, hlongest⟩
  · have hbelow (q : List Bool) (hq : q <+: b :: bits) (hne : q ≠ []) : values q = none := by
      obtain rfl | ⟨q, rfl, hbelow⟩ := List.prefix_cons_iff.mp hq
      · exact absurd rfl hne
      · exact hnone q hbelow
    cases hvalue : values [] with
    | none =>
        refine .inl ⟨rfl, fun q hq => ?_⟩
        by_cases hq' : q = []
        · rw [hq', hvalue]
        · exact hbelow q hq hq'
    | some value =>
        refine .inr ⟨[], ⟨b :: bits, rfl⟩, hvalue, fun q hq hsome => ?_⟩
        by_cases hq' : q = []
        · exact Nat.le_of_eq (congrArg List.length hq')
        · exact absurd (hbelow q hq hq') hsome
  · refine .inr ⟨b :: p, (List.prefix_cons_inj b).mpr hp, hvalue, fun q hq hsome => ?_⟩
    obtain rfl | ⟨q, rfl, hbelow⟩ := List.prefix_cons_iff.mp hq
    · exact Nat.zero_le _
    · exact Nat.succ_le_succ (hlongest q hbelow hsome)

/-! The values. -/

variable [DecidableEq α]

/-- The value at the end of a way. -/
def get (blank : α) : BitTrie α → List Bool → Option α
  | .null, _ => none
  | .node value _ _, [] => if value = blank then none else some value
  | .node _ right _, true :: p => right.get blank p
  | .node _ _ left, false :: p => left.get blank p

@[simp] theorem get_null : get blank null p = none := by
  rw [get]

theorem get_node_nil :
    get blank (.node value right left) [] = if value = blank then none else some value := rfl

theorem get_node_cons :
    get blank (.node value right left) (b :: p) = (child b right left).get blank p := by
  cases b <;> rfl

/-- A node without anything in it and below it does not count. -/
theorem get_blank : get blank (.node blank null null) p = none := by
  cases p with
  | nil => exact if_pos rfl
  | cons b p =>
      rw [get_node_cons]
      cases b <;> exact (get_null : get blank null p = none)

theorem get_above_same : (parent.above t).get blank (parent.isRight :: p) = t.get blank p := by
  obtain ⟨_ | _, value, other⟩ := parent <;> rfl

theorem get_above_ne (h : b ≠ parent.isRight) :
    (parent.above t).get blank (b :: p) = parent.other.get blank p := by
  obtain ⟨_ | _, value, other⟩ := parent <;> cases b <;> first | rfl | exact absurd rfl h

theorem get_above_nil :
    (parent.above t).get blank [] = if parent.value = blank then none else some parent.value := by
  obtain ⟨_ | _, value, other⟩ := parent <;> rfl

/-- Below a node the trie is that of the node. -/
theorem get_plug : (plug up t).get blank (way up ++ p) = t.get blank p := by
  induction up generalizing t p with
  | nil => rfl
  | cons parent up ih =>
      rw [plug, way_cons, List.append_assoc, ih]
      exact get_above_same

theorem get_plug_here : (plug up t).get blank (way up) = t.get blank [] := by
  have hhere : (plug up t).get blank (way up ++ []) = t.get blank [] := get_plug
  rwa [List.append_nil] at hhere

/-- Elsewhere the node does not matter. -/
theorem get_plug_elsewhere (h : ¬ way up <+: q) : (plug up t).get blank q = (plug up t').get blank q := by
  induction up generalizing t t' with
  | nil => exact absurd ⟨q, rfl⟩ h
  | cons parent up ih =>
      by_cases hup : way up <+: q
      · obtain ⟨p, rfl⟩ := hup
        rw [plug, plug, get_plug, get_plug]
        cases p with
        | nil => rw [get_above_nil, get_above_nil]
        | cons b p =>
            have hne : b ≠ parent.isRight := by
              rintro rfl
              refine h ⟨p, ?_⟩
              rw [way_cons, List.append_assoc]
              rfl
            rw [get_above_ne hne, get_above_ne hne]
      · exact ih hup

/-- Two nodes in one place. -/
theorem get_plug_congr (h : ∀ p, t.get blank p = t'.get blank p) :
    (plug up t).get blank q = (plug up t').get blank q := by
  by_cases hup : way up <+: q
  · obtain ⟨p, rfl⟩ := hup
    rw [get_plug, get_plug]
    exact h p
  · exact get_plug_elsewhere hup

/-- One node has another value. -/
theorem get_plug_value {value' : α} : (plug up (.node value' right left)).get blank q =
    if q = way up then if value' = blank then none else some value'
    else (plug up (.node value right left)).get blank q := by
  split_ifs with hq hblank
  · subst hq
    rw [get_plug_here, get_node_nil, if_pos hblank]
  · subst hq
    rw [get_plug_here, get_node_nil, if_neg hblank]
  · by_cases hup : way up <+: q
    · obtain ⟨p, rfl⟩ := hup
      rw [get_plug, get_plug]
      cases p with
      | nil => exact absurd (List.append_nil _) hq
      | cons b p => rw [get_node_cons, get_node_cons]
    · exact get_plug_elsewhere hup

theorem Full.exists_get (h : t.Full blank) (hnull : t ≠ null) : ∃ p, t.get blank p ≠ none := by
  induction t with
  | null => exact absurd rfl hnull
  | node value right left ihRight ihLeft =>
      obtain ⟨hleaf, hright, hleft⟩ := h
      by_cases hr : right = null
      · by_cases hl : left = null
        · refine ⟨[], ?_⟩
          rw [get_node_nil, if_neg (hleaf hr hl)]
          exact nofun
        · obtain ⟨p, hp⟩ := ihLeft hleft hl
          exact ⟨false :: p, hp⟩
      · obtain ⟨p, hp⟩ := ihRight hright hr
        exact ⟨true :: p, hp⟩

def search (blank : α) : List Bool → α → BitTrie α → α
  | _, result, .null => result
  | [], result, .node value _ _ => if value = blank then result else value
  | b :: bits, result, .node value right left =>
      search blank bits (if value = blank then result else value) (child b right left)

theorem getD_node_nil {default : α} : ((node value right left).get blank []).getD default =
    if value = blank then default else value := by
  rw [get_node_nil]
  split_ifs <;> rfl

theorem search_longest (t : BitTrie α) (bits : List Bool) (default : α) :
    Longest (t.get blank) bits default (search blank bits default t) := by
  induction bits generalizing t default with
  | nil =>
      cases t with
      | null => exact .inl ⟨rfl, fun _ _ => get_null⟩
      | node value right left =>
          rw [search, ← getD_node_nil]
          exact longest_nil
  | cons b bits ih =>
      cases t with
      | null => exact .inl ⟨rfl, fun _ _ => get_null⟩
      | node value right left =>
          refine longest_cons ?_
          simp only [get_node_cons, getD_node_nil]
          exact ih (child b right left) _

end BitTrie

end RebuildTheWheel
