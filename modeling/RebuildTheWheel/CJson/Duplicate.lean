import RebuildTheWheel.CJson.LinkChild

namespace RebuildTheWheel.CJson

open RebuildTheWheel.Data

namespace Heap

/-- The string at an address; it fails if the block is freed. -/
def readText (h : Heap) : Option Ref → Option (Option CString)
  | none => some none
  | some r => (h.text r).map some

/-- `cJSON_Delete(newitem);return 0;` -/
def discard (h : Heap) (newitem : Ref) : Option (Option Ref × Heap) := do
  let h ← h.delete (some newitem)
  some (none, h)

/-- A string of the item is copied and stored in the new one; `false` when the copy fails. -/
def copyText (h : Heap) (newitem : Ref) (set : Option Ref → Node → Node) :
    Option CString → Option (Bool × Heap)
  | none => some (true, h)
  | some s => do
      let (copy, h) := h.strdup s
      let h ← h.store newitem (set copy)
      some (copy.isSome, h)

/-- `if (item->valuestring) {newitem->valuestring=cJSON_strdup(item->valuestring); ...}` -/
def copyValuestring (h : Heap) (n : Node) (newitem : Ref) : Option (Bool × Heap) := do
  h.copyText newitem (fun copy c => { c with valuestring := copy }) (← h.readText n.valuestring)

/-- `if (item->string) {newitem->string=cJSON_strdup(item->string); ...}` -/
def copyString (h : Heap) (n : Node) (newitem : Ref) : Option (Bool × Heap) := do
  h.copyText newitem (fun copy c => { c with string := copy.map Key.block }) (← h.readKey n.string)

/-- Both lines; `false` when one of the copies fails, after which `newitem` is deleted. -/
def copyStrings (h : Heap) (n : Node) (newitem : Ref) : Option (Bool × Heap) := do
  let (copied, h) ← h.copyValuestring n newitem
  if copied then h.copyString n newitem else some (false, h)

mutual

/-- `cJSON_Duplicate`. `fuel` bounds the calls and passes in progress. -/
def duplicate : Nat → Heap → Option Ref → Bool → Option (Option Ref × Heap)
  | _, h, none, _ => some (none, h)
  | 0, _, some _, _ => none
  | fuel + 1, h, some item, recurse =>
      match h.newItem with
      | (none, h) => some (none, h)
      | (some newitem, h) => do
          let n ← h.node item
          let h ← h.store newitem fun c =>
            { c with
              type := { n.type with isReference := false }
              valueint := n.valueint
              valuedouble := n.valuedouble }
          let (copied, h) ← h.copyStrings n newitem
          if !copied then h.discard newitem
          else if !recurse then some (some newitem, h)
          else duplicateChildren fuel h newitem none n.child

/-- The loop over the children of the item; `nptr` is the last child copied. -/
def duplicateChildren : Nat → Heap → Ref → Option Ref → Option Ref → Option (Option Ref × Heap)
  | _, h, newitem, _, none => some (some newitem, h)
  | 0, _, _, _, some _ => none
  | fuel + 1, h, newitem, nptr, some cptr => do
      let (newchild, h) ← duplicate fuel h (some cptr) true
      match newchild with
      | none => h.discard newitem
      | some newchild => do
          let h ← h.linkChild newitem newchild nptr
          let next ← h.loadNext cptr
          duplicateChildren fuel h newitem (some newchild) next

end

end Heap

/-! The trees that a heap holds. -/

/-- The fields of a node that are not links. -/
structure Node.Spells (h : Heap) (n : Node) (data : ItemData) : Prop where
  type : n.type = data.type
  valueint : n.valueint = data.valueint
  valuedouble : n.valuedouble = data.valuedouble
  valuestring : (h.readText n.valuestring).map (·.map Subtype.val) = some data.valuestring
  string : (h.readKey n.string).map (·.map Subtype.val) = some data.string

/-- The item at an address with its children and its right siblings. -/
def Heap.Holds (h : Heap) : Option Ref → Item → Prop
  | none, .null => True
  | some r, .node data child next =>
      ∃ n, h.node r = some n ∧ n.Spells h data ∧ h.Holds n.child child ∧ h.Holds n.next next
  | _, _ => False

/-- Well-linked items with strings of their own, and all their blocks. -/
def Heap.HoldsOwn (h : Heap) (prev : Option Ref) : Option Ref → Item → List Ref → Prop
  | none, .null, blocks => blocks = []
  | some r, .node data child next, blocks =>
      ∃ n key childBlocks nextBlocks, h.node r = some n ∧ n.prev = prev ∧ n.Spells h data ∧
        n.string = Option.map Key.block key ∧ h.HoldsOwn none n.child child childBlocks ∧
        h.HoldsOwn (some r) n.next next nextBlocks ∧
        blocks = r :: (n.valuestring.toList ++ key.toList ++ (childBlocks ++ nextBlocks))
  | _, _, _ => False

/-- `type&(~cJSON_IsReference)` for an item and all below and behind it. -/
def ItemData.unreferenced (data : ItemData) : ItemData :=
  { data with type := { data.type with isReference := false } }

namespace Item

def unreferenced : Item → Item
  | .null => .null
  | .node data child next => .node data.unreferenced child.unreferenced next.unreferenced

/-- The number of items. -/
def size : Item → Nat
  | .null => 0
  | .node _ child next => child.size + next.size + 1

/-- A list of siblings at the end of another. -/
def append : Item → Item → Item
  | .null, tail => tail
  | .node data child next, tail => .node data child (next.append tail)

end Item

/-! The allocations of a call are made in a fixed order, each at the next address. -/

/-- What a block is allocated for. -/
inductive Allocation where
  | item
  | valuestring
  /-- `constant` is the flag `cJSON_StringIsConst` of the item. -/
  | string (constant : Bool)
  deriving DecidableEq

/-- `cJSON_Delete` does not free the block. -/
def Allocation.isLost : Allocation → Bool
  | .string constant => constant
  | _ => false

def ItemData.texts (data : ItemData) : List Allocation :=
  (if data.valuestring.isSome then [.valuestring] else []) ++
    if data.string.isSome then [.string data.type.stringIsConst] else []

def Item.allocations : Item → List Allocation
  | .null => []
  | .node data child next =>
      .item :: (data.texts ++ (child.allocations ++ next.allocations))

namespace Allocation

/-- The addresses, from `r` on, of the blocks that `cJSON_Delete` frees. -/
def freed : Nat → List Allocation → List Nat
  | _, [] => []
  | r, a :: rest => if a.isLost then freed (r + 1) rest else r :: freed (r + 1) rest

/-- The addresses of the others. -/
def lost : Nat → List Allocation → List Nat
  | _, [] => []
  | r, a :: rest => if a.isLost then r :: lost (r + 1) rest else lost (r + 1) rest

/-- The blocks lost when one of the allocations fails. -/
def lostAtFailure (fails : Nat → Bool) : Nat → List Allocation → Option (List Nat)
  | _, [] => none
  | r, a :: rest =>
      if fails r then some []
      else (lostAtFailure fails (r + 1) rest).map fun keys => if a.isLost then r :: keys else keys

theorem freed_append (r : Nat) (as bs : List Allocation) :
    freed r (as ++ bs) = freed r as ++ freed (r + as.length) bs := by
  induction as generalizing r with
  | nil => rfl
  | cons a as ih =>
      rw [List.cons_append, freed, freed, ih, List.length_cons, Nat.add_right_comm, Nat.add_assoc]
      split <;> rfl

theorem lost_append (r : Nat) (as bs : List Allocation) :
    lost r (as ++ bs) = lost r as ++ lost (r + as.length) bs := by
  induction as generalizing r with
  | nil => rfl
  | cons a as ih =>
      rw [List.cons_append, lost, lost, ih, List.length_cons, Nat.add_right_comm, Nat.add_assoc]
      split <;> rfl

theorem mem_freed_bounds {r p : Nat} {as : List Allocation} (h : p ∈ freed r as) :
    r ≤ p ∧ p < r + as.length := by
  induction as generalizing r with
  | nil => cases h
  | cons a as ih =>
      rw [freed] at h
      rw [List.length_cons]
      split at h
      · have hrest := ih h
        omega
      · obtain rfl | h := List.mem_cons.mp h
        · omega
        · have hrest := ih h
          omega

/-- Each address is either freed or lost. -/
theorem mem_lost_iff {r p : Nat} {as : List Allocation} :
    p ∈ lost r as ↔ (r ≤ p ∧ p < r + as.length) ∧ p ∉ freed r as := by
  induction as generalizing r with
  | nil =>
      constructor
      · intro h
        cases h
      · rintro ⟨⟨hle, hlt⟩, -⟩
        exact absurd hle (Nat.not_le_of_gt hlt)
  | cons a as ih =>
      have hbounds : p ∈ freed (r + 1) as → r + 1 ≤ p := fun h => (mem_freed_bounds h).1
      rw [lost, freed, List.length_cons]
      split
      · rw [List.mem_cons, ih]
        constructor
        · rintro (rfl | ⟨hrange, hfreed⟩)
          · exact ⟨by omega, fun h => by have := hbounds h; omega⟩
          · exact ⟨by omega, hfreed⟩
        · rintro ⟨hrange, hfreed⟩
          by_cases hp : p = r
          · exact Or.inl hp
          · exact Or.inr ⟨by omega, hfreed⟩
      · rw [ih, List.mem_cons, not_or]
        constructor
        · rintro ⟨hrange, hfreed⟩
          exact ⟨by omega, by omega, hfreed⟩
        · rintro ⟨hrange, hp, hfreed⟩
          exact ⟨by omega, hfreed⟩

theorem nodup_freed (r : Nat) (as : List Allocation) : (freed r as).Nodup := by
  induction as generalizing r with
  | nil => exact List.nodup_nil
  | cons a as ih =>
      rw [freed]
      split
      · exact ih (r + 1)
      · refine List.nodup_cons.mpr ⟨?_, ih (r + 1)⟩
        intro h
        have hle := (mem_freed_bounds h).1
        omega

theorem lostAtFailure_append (fails : Nat → Bool) (r : Nat) (as bs : List Allocation) :
    lostAtFailure fails r (as ++ bs) =
      match lostAtFailure fails r as with
      | some keys => some keys
      | none => (lostAtFailure fails (r + as.length) bs).map (lost r as ++ ·) := by
  induction as generalizing r with
  | nil =>
      simp only [List.nil_append, lostAtFailure, lost, List.length_nil, Nat.add_zero]
      cases lostAtFailure fails r bs <;> rfl
  | cons a as ih =>
      rw [List.cons_append, lostAtFailure, lostAtFailure, ih, lost, List.length_cons,
        Nat.add_right_comm, Nat.add_assoc]
      split
      · rfl
      · cases lostAtFailure fails (r + 1) as with
        | some keys => rfl
        | none =>
            cases lostAtFailure fails (r + (as.length + 1)) bs with
            | none => rfl
            | some keys => split <;> rfl

theorem mem_lost_iff_index {r p : Nat} {as : List Allocation} :
    p ∈ lost r as ↔ ∃ j, p = r + j ∧ as[j]?.map isLost = some true := by
  induction as generalizing r with
  | nil => simp [lost]
  | cons a as ih =>
      have hshift : (∃ j, p = r + j ∧ (a :: as)[j]?.map isLost = some true) ↔
          (p = r ∧ a.isLost = true) ∨ ∃ j, p = r + 1 + j ∧ as[j]?.map isLost = some true := by
        constructor
        · rintro ⟨_ | j, rfl, hlost⟩
          · exact Or.inl ⟨rfl, Option.some.inj hlost⟩
          · exact Or.inr ⟨j, by omega, hlost⟩
        · rintro (⟨rfl, hlost⟩ | ⟨j, rfl, hlost⟩)
          · exact ⟨0, rfl, congrArg some hlost⟩
          · exact ⟨j + 1, by omega, hlost⟩
      rw [hshift, lost, ← ih]
      split
      · next hlost => simp [hlost]
      · next hlost => simp [hlost]

/-- What is lost belongs to the allocations before the first one that fails. -/
theorem lostAtFailure_spec (fails : Nat → Bool) (r : Nat) (as : List Allocation) :
    match lostAtFailure fails r as with
    | none => ∀ i < as.length, fails (r + i) = false
    | some keys => ∃ i < as.length, fails (r + i) = true ∧ (∀ k < i, fails (r + k) = false) ∧
        keys = lost r (as.take i) := by
  induction as generalizing r with
  | nil =>
      intro i hi
      cases hi
  | cons a as ih =>
      rw [lostAtFailure]
      cases hfirst : fails r with
      | true =>
          rw [if_pos rfl]
          exact ⟨0, Nat.succ_pos _, hfirst, fun k hk => (nomatch hk), rfl⟩
      | false =>
          rw [if_neg Bool.false_ne_true]
          have hbelow : ∀ {n : Nat}, (∀ k < n, fails (r + 1 + k) = false) →
              ∀ k < n + 1, fails (r + k) = false := by
            rintro n hn (_ | k) hk
            · exact hfirst
            · have hnext := hn k (Nat.lt_of_succ_lt_succ hk)
              rwa [Nat.add_assoc, Nat.add_comm 1 k] at hnext
          have hrest := ih (r + 1)
          cases hlost : lostAtFailure fails (r + 1) as with
          | none =>
              rw [hlost] at hrest
              exact hbelow hrest
          | some keys =>
              rw [hlost] at hrest
              obtain ⟨i, hi, hfails, hbefore, rfl⟩ := hrest
              refine ⟨i + 1, Nat.succ_lt_succ hi, ?_, hbelow hbefore, ?_⟩
              · rwa [Nat.add_assoc, Nat.add_comm 1 i] at hfails
              · rw [List.take_succ_cons, lost]

/-- The first allocation that fails comes after one whose block is lost. -/
def LosesKey (fails : Nat → Bool) (r : Nat) (as : List Allocation) : Prop :=
  ∃ i j, j < i ∧ i < as.length ∧ as[j]?.map isLost = some true ∧ fails (r + i) = true ∧
    ∀ k < i, fails (r + k) = false

theorem losesKey_iff {fails : Nat → Bool} {r : Nat} {as : List Allocation} :
    LosesKey fails r as ↔ ∃ p keys, lostAtFailure fails r as = some keys ∧ p ∈ keys := by
  have hspec := lostAtFailure_spec fails r as
  constructor
  · rintro ⟨i, j, hji, hi, hlost, hfails, hbefore⟩
    cases hkeys : lostAtFailure fails r as with
    | none =>
        rw [hkeys] at hspec
        exact absurd (hspec i hi) (by rw [hfails]; decide)
    | some keys =>
        rw [hkeys] at hspec
        obtain ⟨i', hi', hfails', hbefore', rfl⟩ := hspec
        have hsame : i ≤ i' := by
          by_contra hlt
          exact absurd (hbefore i' (Nat.lt_of_not_le hlt)) (by rw [hfails']; decide)
        refine ⟨r + j, _, rfl, mem_lost_iff_index.mpr ⟨j, rfl, ?_⟩⟩
        rwa [List.getElem?_take_of_lt (hji.trans_le hsame)]
  · rintro ⟨p, keys, hkeys, hp⟩
    rw [hkeys] at hspec
    obtain ⟨i, hi, hfails, hbefore, rfl⟩ := hspec
    obtain ⟨j, rfl, hlost⟩ := mem_lost_iff_index.mp hp
    have hj : j < i := by
      by_contra hle
      rw [List.getElem?_eq_none (by rw [List.length_take]; omega)] at hlost
      cases hlost
    refine ⟨i, j, hj, hi, ?_, hfails, hbefore⟩
    rwa [List.getElem?_take_of_lt hj] at hlost

end Allocation

end RebuildTheWheel.CJson
