import RebuildTheWheel.Data.BitTrie
import Mathlib.Tactic.SplitIfs

namespace RebuildTheWheel.Nginx

/-! `ngx_radix_tree.c` -/

/-- `NGX_RADIX_NO_VALUE` -/
def radixNoValue : UInt64 := -1

inductive RadixResult where
  | ok
  | busy
  | error
deriving DecidableEq

inductive RadixFault where
  | null
  | outside
  | endless
deriving DecidableEq

/-- `ngx_radix_tree_t`: `free` counts the nodes that can be used again, and `size` the bytes left of
the last page. -/
structure RadixTree where
  root : BitTrie UInt64
  free : Nat
  size : Nat
deriving DecidableEq

namespace Radix

/-- The memory of a tree, with the pages that the pool still gives. -/
structure Memory where
  free : Nat
  size : Nat
  pages : Nat

def pagesize : Nat := 4096

def nodeSize : Nat := 32

end Radix

open Radix BitTrie

/-- `ngx_radix_alloc` -/
def radixAlloc (memory : Memory) : Option Memory :=
  if memory.free ≠ 0 then some { memory with free := memory.free - 1 }
  else if memory.size < nodeSize then
    match memory.pages with
    | 0 => none
    | pages + 1 => some { memory with size := pagesize - nodeSize, pages := pages }
  else some { memory with size := memory.size - nodeSize }

/-- `ngx_radix_tree_create` without preallocation. -/
def radixTreeCreate (pages : Nat) : Option RadixTree :=
  (radixAlloc ⟨0, 0, pages⟩).map fun memory =>
    ⟨.node radixNoValue .null .null, memory.free, memory.size⟩

namespace Radix

/-- How a key and a mask are read, bit by bit: `bit & mask`, `key & bit`, the next bit, and whether
the loop ends after this bit. -/
structure Cursor (σ : Type) where
  start : σ
  masked : σ → Except RadixFault Bool
  right : σ → Except RadixFault Bool
  next : σ → σ
  last : σ → Bool

def tree (memory : Memory) (root : BitTrie UInt64) : RadixTree := ⟨root, memory.free, memory.size⟩

variable {σ : Type}

/-- The first loop of an insertion: where it ends, with the ancestors and the node, and whether
`next` is a node. -/
def seek (cursor : Cursor σ) : σ → List (Parent UInt64) → BitTrie UInt64 →
    Except RadixFault (σ × List (Parent UInt64) × BitTrie UInt64 × Bool)
  | _, _, .null => throw .null
  | s, up, .node value right left => do
      if ← cursor.masked s then
        if ← cursor.right s then
          if right = .null then return (s, up, .node value right left, false)
          else if cursor.last s then return (s, ⟨true, value, left⟩ :: up, right, true)
          else seek cursor (cursor.next s) (⟨true, value, left⟩ :: up) right
        else
          if left = .null then return (s, up, .node value right left, false)
          else if cursor.last s then return (s, ⟨false, value, right⟩ :: up, left, true)
          else seek cursor (cursor.next s) (⟨false, value, right⟩ :: up) left
      else return (s, up, .node value right left, true)

/-- The second loop of an insertion, which adds nodes. -/
def grow (cursor : Cursor σ) (value : UInt64) : Nat → Memory → σ → List (Parent UInt64) →
    BitTrie UInt64 → Except RadixFault (RadixResult × RadixTree)
  | _, _, _, _, .null => throw .null
  | 0, _, _, _, _ => throw .endless
  | n + 1, memory, s, up, .node old right left => do
      if ← cursor.masked s then
        match radixAlloc memory with
        | none => return (.error, tree memory (plug up (.node old right left)))
        | some memory =>
            let parent : Parent UInt64 :=
              if ← cursor.right s then ⟨true, old, left⟩ else ⟨false, old, right⟩
            if cursor.last s then
              return (.ok, tree memory (plug (parent :: up) (.node value .null .null)))
            else
              grow cursor value n memory (cursor.next s) (parent :: up)
                (.node radixNoValue .null .null)
      else return (.ok, tree memory (plug up (.node value right left)))

/-- `bits` is the number of bits of a key. -/
def insert (cursor : Cursor σ) (bits : Nat) (value : UInt64) (pages : Nat) (radix : RadixTree) :
    Except RadixFault (RadixResult × RadixTree) := do
  let (s, up, found, next) ← seek cursor cursor.start [] radix.root
  if next then
    match found with
    | .null => throw .null
    | .node old right left =>
        if old ≠ radixNoValue then return (.busy, radix)
        else return (.ok, { radix with root := plug up (.node value right left) })
  else grow cursor value (bits + 1) ⟨radix.free, radix.size, pages⟩ s up found

/-- The first loop of a deletion, with the node that may be null. -/
def seekDelete (cursor : Cursor σ) : σ → List (Parent UInt64) → BitTrie UInt64 →
    Except RadixFault (List (Parent UInt64) × BitTrie UInt64)
  | _, up, .null => return (up, .null)
  | s, up, .node value right left => do
      if ← cursor.masked s then
        if ← cursor.right s then
          if cursor.last s then return (⟨true, value, left⟩ :: up, right)
          else seekDelete cursor (cursor.next s) (⟨true, value, left⟩ :: up) right
        else
          if cursor.last s then return (⟨false, value, right⟩ :: up, left)
          else seekDelete cursor (cursor.next s) (⟨false, value, right⟩ :: up) left
      else return (up, .node value right left)

/-- The last loop of a deletion, which takes away a leaf with these ancestors. -/
def prune : List (Parent UInt64) → RadixTree → Except RadixFault RadixTree
  | [], _ => throw .null
  | parent :: up, radix =>
      let radix := { radix with root := plug up (parent.above .null), free := radix.free + 1 }
      if parent.other ≠ .null then return radix
      else if parent.value ≠ radixNoValue then return radix
      else if up = [] then return radix
      else prune up radix

def delete (cursor : Cursor σ) (radix : RadixTree) : Except RadixFault (RadixResult × RadixTree) := do
  let (up, found) ← seekDelete cursor cursor.start [] radix.root
  match found with
  | .null => return (.error, radix)
  | .node value right left =>
      if right ≠ .null ∨ left ≠ .null then
        if value ≠ radixNoValue then
          return (.ok, { radix with root := plug up (.node radixNoValue right left) })
        else return (.error, radix)
      else
        let radix ← prune up radix
        return (.ok, radix)

def find (cursor : Cursor σ) : σ → UInt64 → BitTrie UInt64 → Except RadixFault UInt64
  | _, result, .null => return result
  | s, result, .node value right left => do
      let result := if value ≠ radixNoValue then value else result
      if ← cursor.right s then find cursor (cursor.next s) result right
      else find cursor (cursor.next s) result left

/-! Keys of 32 bits. -/

def cursor32 (key mask : UInt32) : Cursor UInt32 where
  start := 0x80000000
  masked bit := return bit &&& mask ≠ 0
  right bit := return key &&& bit ≠ 0
  next bit := bit >>> 1
  last _ := false

/-! Keys of 16 bytes. -/

def byteAt (key : Vector UInt8 16) (i : Nat) : Except RadixFault UInt8 :=
  if h : i < 16 then return key[i] else throw .outside

def cursor128 (key mask : Vector UInt8 16) : Cursor (Nat × UInt8) where
  start := (0, 0x80)
  masked := fun (i, bit) => do return bit &&& (← byteAt mask i) ≠ 0
  right := fun (i, bit) => do return (← byteAt key i) &&& bit ≠ 0
  next := fun (i, bit) => if bit >>> 1 = 0 then (i + 1, 0x80) else (i, bit >>> 1)
  last := fun (i, bit) => bit >>> 1 = 0 && i + 1 = 16

end Radix

/-- `ngx_radix32tree_insert`; the pool gives no more than `pages` pages for it. -/
def radix32treeInsert (pages : Nat) (radix : RadixTree) (key mask : UInt32) (value : UInt64) :
    Except RadixFault (RadixResult × RadixTree) :=
  Radix.insert (cursor32 key mask) 32 value pages radix

/-- `ngx_radix32tree_delete` -/
def radix32treeDelete (radix : RadixTree) (key mask : UInt32) :
    Except RadixFault (RadixResult × RadixTree) :=
  Radix.delete (cursor32 key mask) radix

/-- `ngx_radix32tree_find` -/
def radix32treeFind (radix : RadixTree) (key : UInt32) : Except RadixFault UInt64 :=
  Radix.find (cursor32 key 0) 0x80000000 radixNoValue radix.root

/-- `ngx_radix128tree_insert`; the pool gives no more than `pages` pages for it. -/
def radix128treeInsert (pages : Nat) (radix : RadixTree) (key mask : Vector UInt8 16) (value : UInt64) :
    Except RadixFault (RadixResult × RadixTree) :=
  Radix.insert (cursor128 key mask) 128 value pages radix

/-- `ngx_radix128tree_delete` -/
def radix128treeDelete (radix : RadixTree) (key mask : Vector UInt8 16) :
    Except RadixFault (RadixResult × RadixTree) :=
  Radix.delete (cursor128 key mask) radix

/-- `ngx_radix128tree_find`, whose loop ends only at a null node. -/
def radix128treeFind (radix : RadixTree) (key : Vector UInt8 16) : Except RadixFault UInt64 :=
  Radix.find (cursor128 key (Vector.replicate 16 0)) (0, 0x80) radixNoValue radix.root

end RebuildTheWheel.Nginx

namespace RebuildTheWheel.Nginx

/-! What the loops over a radix tree do, for any way of reading the keys. -/

namespace Radix

open BitTrie

/-- The bits of the mask and of the key that are read from a position on. -/
inductive Reads {σ : Type} (cursor : Cursor σ) : σ → List (Bool × Bool) → Prop where
  | done : cursor.masked s = .ok false → Reads cursor s []
  | last : cursor.masked s = .ok m → cursor.right s = .ok k → cursor.last s = true →
      Reads cursor s [(m, k)]
  | more : cursor.masked s = .ok m → cursor.right s = .ok k → cursor.last s = false →
      Reads cursor (cursor.next s) pairs → Reads cursor s ((m, k) :: pairs)

/-- The bits of the key from a position to another. -/
inductive Spells {σ : Type} (cursor : Cursor σ) : σ → List Bool → σ → Prop where
  | nil : Spells cursor s [] s
  | cons : cursor.right s = .ok b → Spells cursor (cursor.next s) bits s' →
      Spells cursor s (b :: bits) s'

/-- The bits of the key under the mask. -/
def taken (pairs : List (Bool × Bool)) : List Bool := (pairs.takeWhile Prod.fst).map Prod.snd

/-- Where the first loop of an insertion ends, on the way to `goal`; the last number tells how many
nodes are missing. -/
inductive Sought {σ : Type} (cursor : Cursor σ) (bits : Nat) (goal : List Bool) :
    σ → List (Parent UInt64) → BitTrie UInt64 → Bool → Nat → Prop where
  | present : way up = goal → Sought cursor bits goal s up (.node value right left) true 0
  | absent : Reads cursor s pairs → pairs.length ≤ bits → taken pairs = b :: p → child b right left = .null →
      way up ++ taken pairs = goal →
      Sought cursor bits goal s up (.node value right left) false (p.length + 1)

variable {σ : Type} {cursor : Cursor σ} {s s' : σ} {pairs : List (Bool × Bool)} {b : Bool}
  {p goal : List Bool} {up up' : List (Parent UInt64)} {t right left : BitTrie UInt64}
  {value : UInt64} {memory memory' : Memory}

@[simp] theorem taken_nil : taken [] = [] := rfl

@[simp] theorem taken_false : taken ((false, b) :: pairs) = [] := rfl

@[simp] theorem taken_true : taken ((true, b) :: pairs) = b :: taken pairs := rfl

theorem seek_node (hmasked : cursor.masked s = .ok true) (hright : cursor.right s = .ok b) :
    seek cursor s up (.node value right left) =
      if child b right left = .null then return (s, up, .node value right left, false)
      else if cursor.last s then
        return (s, ⟨b, value, child (!b) right left⟩ :: up, child b right left, true)
      else seek cursor (cursor.next s) (⟨b, value, child (!b) right left⟩ :: up) (child b right left) := by
  rw [seek, hmasked, hright]
  cases b <;> rfl

theorem seek_stop (hmasked : cursor.masked s = .ok false) :
    seek cursor s up (.node value right left) = .ok (s, up, .node value right left, true) := by
  rw [seek, hmasked]
  rfl

theorem missing_null_child (h : child b right left = .null) :
    (BitTrie.node value right left).missing (b :: p) = p.length + 1 := by
  rw [missing_cons, h, missing]

theorem plug_child : plug (⟨b, value, child (!b) right left⟩ :: up) (child b right left) =
    plug up (.node value right left) := by
  rw [plug, above_child]

theorem seek_sought {bits : Nat} (hreads : Reads cursor s pairs) (hbits : pairs.length ≤ bits)
    (up : List (Parent UInt64)) (hnull : t ≠ .null) :
    ∃ s' up' found next, seek cursor s up t = .ok (s', up', found, next) ∧
      plug up' found = plug up t ∧
      Sought cursor bits (way up ++ taken pairs) s' up' found next (t.missing (taken pairs)) := by
  induction hreads generalizing up t with
  | done hmasked =>
      obtain _ | ⟨value, right, left⟩ := t
      · exact absurd rfl hnull
      · exact ⟨_, up, _, true, seek_stop hmasked, rfl, .present (List.append_nil _).symm⟩
  | @last s m k hmasked hright hlast =>
      obtain _ | ⟨value, right, left⟩ := t
      · exact absurd rfl hnull
      cases m with
      | false => exact ⟨s, up, _, true, seek_stop hmasked, rfl, .present (List.append_nil _).symm⟩
      | true =>
          rw [seek_node hmasked hright, hlast]
          by_cases hchild : child k right left = .null
          · rw [if_pos hchild, taken_true, missing_null_child hchild]
            exact ⟨s, up, _, false, rfl, rfl, .absent (.last hmasked hright hlast) hbits rfl hchild rfl⟩
          · rw [if_neg hchild]
            obtain ⟨value', right', left', heq⟩ : ∃ value' right' left',
                child k right left = .node value' right' left' := by
              cases hc : child k right left with
              | null => exact absurd hc hchild
              | node value' right' left' => exact ⟨_, _, _, rfl⟩
            refine ⟨s, _, _, true, rfl, plug_child, ?_⟩
            rw [taken_true, taken_nil, missing_cons, heq]
            exact .present way_cons
  | @more s m k pairs hmasked hright hlast hreads ih =>
      obtain _ | ⟨value, right, left⟩ := t
      · exact absurd rfl hnull
      cases m with
      | false => exact ⟨s, up, _, true, seek_stop hmasked, rfl, .present (List.append_nil _).symm⟩
      | true =>
          rw [seek_node hmasked hright, hlast]
          by_cases hchild : child k right left = .null
          · rw [if_pos hchild, taken_true, missing_null_child hchild]
            exact ⟨s, up, _, false, rfl, rfl, .absent (.more hmasked hright hlast hreads) hbits rfl hchild rfl⟩
          · rw [if_neg hchild, taken_true, missing_cons]
            obtain ⟨s', up', found, next, hseek, hplug, hsought⟩ :=
              ih (Nat.le_of_succ_le hbits) (⟨k, value, child (!k) right left⟩ :: up) hchild
            refine ⟨s', up', found, next, hseek, hplug.trans plug_child, ?_⟩
            rw [way_cons, List.append_assoc] at hsought
            exact hsought

/-! The second loop of an insertion. -/

/-- How many nodes there is memory for. -/
def room (memory : Memory) : Nat :=
  memory.free + memory.size / nodeSize + memory.pages * (pagesize / nodeSize)

theorem radixAlloc_room (h : 0 < room memory) :
    ∃ memory', radixAlloc memory = some memory' ∧ room memory' + 1 = room memory := by
  obtain ⟨free, size, pages⟩ := memory
  rw [room, nodeSize, pagesize] at h
  rw [radixAlloc, nodeSize]
  simp only at h ⊢
  split_ifs with hfree hsize
  · refine ⟨_, rfl, ?_⟩
    simp only [room, nodeSize]
    omega
  · cases pages with
    | zero => omega
    | succ pages =>
        refine ⟨_, rfl, ?_⟩
        simp only [room, nodeSize, pagesize]
        omega
  · refine ⟨_, rfl, ?_⟩
    simp only [room, nodeSize]
    omega

theorem child_full {blank : UInt64} (hright : right.Full blank) (hleft : left.Full blank) :
    (child b right left).Full blank := by
  cases b
  · exact hleft
  · exact hright

/-- The trie has one more value, or another one in its place. -/
structure Stored (root : BitTrie UInt64) (goal : List Bool) (value : UInt64) (root' : BitTrie UInt64) : Prop where
  rooted : root'.Rooted radixNoValue
  get : ∀ q, root'.get radixNoValue q = if q = goal then some value else root.get radixNoValue q

theorem Stored.of_plug (old : UInt64) (hvalue : value ≠ radixNoValue)
    (hothers : ∀ parent ∈ up, parent.other.Full radixNoValue)
    (hright : right.Full radixNoValue) (hleft : left.Full radixNoValue) :
    Stored (plug up (.node old right left)) (way up) value (plug up (.node value right left)) where
  rooted := (rooted_plug (show BitTrie.node value right left ≠ .null from nofun)).mpr
    ⟨hothers, fun _ => ⟨hright, hleft⟩, fun _ => ⟨fun _ _ => hvalue, hright, hleft⟩⟩
  get q := by
    rw [get_plug_value, if_neg hvalue]

/-- A new node does not change the values. -/
theorem get_grown (hchild : child b right left = .null) (q : List Bool) :
    (plug (⟨b, value, child (!b) right left⟩ :: up) (.node radixNoValue .null .null)).get radixNoValue q =
      (plug up (.node value right left)).get radixNoValue q := by
  have hplug : plug up (.node value right left) =
      plug (⟨b, value, child (!b) right left⟩ :: up) (child b right left) := plug_child.symm
  rw [hplug, hchild]
  exact get_plug_congr fun p => get_blank.trans get_null.symm

theorem Stored.congr {root root' : BitTrie UInt64} (h : Stored root goal value t)
    (hget : ∀ q, root.get radixNoValue q = root'.get radixNoValue q) : Stored root' goal value t where
  rooted := h.rooted
  get q := by
    rw [h.get, hget]

theorem grow_stop {n : Nat} {old : UInt64} (hmasked : cursor.masked s = .ok false) :
    grow cursor value (n + 1) memory s up (.node old right left) =
      .ok (.ok, tree memory (plug up (.node value right left))) := by
  rw [grow, hmasked]
  rfl

theorem grow_node {n : Nat} {old : UInt64} (hmasked : cursor.masked s = .ok true)
    (hright : cursor.right s = .ok b) (halloc : radixAlloc memory = some memory') :
    grow cursor value (n + 1) memory s up (.node old right left) =
      if cursor.last s then
        .ok (.ok, tree memory'
          (plug (⟨b, old, child (!b) right left⟩ :: up) (.node value .null .null)))
      else
        grow cursor value n memory' (cursor.next s) (⟨b, old, child (!b) right left⟩ :: up)
          (.node radixNoValue .null .null) := by
  simp only [grow, hmasked, halloc, hright, bind, Except.bind]
  cases b <;> rfl

theorem others_cons {blank : UInt64} (b : Bool) (old : UInt64)
    (hothers : ∀ parent ∈ up, parent.other.Full blank)
    (hright : right.Full blank) (hleft : left.Full blank) :
    ∀ parent ∈ (⟨b, old, child (!b) right left⟩ : Parent UInt64) :: up, parent.other.Full blank :=
  List.forall_mem_cons.mpr ⟨child_full hright hleft, hothers⟩

theorem grow_stored {n : Nat} (hreads : Reads cursor s pairs) (hvalue : value ≠ radixNoValue)
    (up : List (Parent UInt64)) (memory : Memory) (old : UInt64) (right left : BitTrie UInt64)
    (hfuel : pairs.length < n) (hroom : (taken pairs).length ≤ room memory)
    (hchild : ∀ b p, taken pairs = b :: p → child b right left = .null)
    (hothers : ∀ parent ∈ up, parent.other.Full radixNoValue)
    (hright : right.Full radixNoValue) (hleft : left.Full radixNoValue) :
    ∃ radix, grow cursor value n memory s up (.node old right left) = .ok (.ok, radix) ∧
      Stored (plug up (.node old right left)) (way up ++ taken pairs) value radix.root := by
  induction hreads generalizing n up memory old right left with
  | done hmasked =>
      obtain _ | n := n
      · exact absurd hfuel (Nat.not_lt_zero _)
      · rw [taken_nil, List.append_nil]
        exact ⟨_, grow_stop hmasked, .of_plug _ hvalue hothers hright hleft⟩
  | @last s m k hmasked hkey hlast =>
      obtain _ | n := n
      · exact absurd hfuel (Nat.not_lt_zero _)
      cases m with
      | false =>
          rw [taken_false, List.append_nil]
          exact ⟨_, grow_stop hmasked, .of_plug _ hvalue hothers hright hleft⟩
      | true =>
          obtain ⟨memory', halloc, -⟩ := radixAlloc_room (Nat.lt_of_lt_of_le Nat.one_pos hroom)
          rw [grow_node hmasked hkey halloc, hlast, if_pos rfl]
          have hothers' := others_cons k old hothers hright hleft
          have hnull : BitTrie.Full radixNoValue .null := trivial
          have hstored := Stored.of_plug radixNoValue hvalue hothers' hnull hnull
          rw [way_cons] at hstored
          exact ⟨_, rfl, hstored.congr (get_grown (hchild k [] rfl))⟩
  | @more s m k pairs hmasked hkey hlast hreads ih =>
      obtain _ | n := n
      · exact absurd hfuel (Nat.not_lt_zero _)
      cases m with
      | false =>
          rw [taken_false, List.append_nil]
          exact ⟨_, grow_stop hmasked, .of_plug _ hvalue hothers hright hleft⟩
      | true =>
          have hpos : 0 < room memory := Nat.lt_of_lt_of_le (Nat.succ_pos _) hroom
          obtain ⟨memory', halloc, hroom'⟩ := radixAlloc_room hpos
          rw [grow_node hmasked hkey halloc, hlast, if_neg Bool.false_ne_true]
          rw [taken_true, List.length_cons] at hroom
          have hothers' := others_cons k old hothers hright hleft
          obtain ⟨radix, hgrow, hstored⟩ := ih (⟨k, old, child (!k) right left⟩ :: up) memory' radixNoValue
            .null .null (Nat.lt_of_succ_lt_succ hfuel) (by omega) (fun b _ _ => by cases b <;> rfl)
            hothers' trivial trivial
          rw [way_cons, List.append_assoc] at hstored
          exact ⟨radix, hgrow, hstored.congr (get_grown (hchild k _ rfl))⟩

/-! Insertion. -/

theorem Rooted.ne_null {blank : UInt64} (h : t.Rooted blank) : t ≠ .null := by
  rintro rfl
  exact h

theorem get_absent {blank : UInt64} (hchild : child b right left = .null) :
    (plug up (.node value right left)).get blank (way up ++ b :: p) = none := by
  rw [get_plug, get_node_cons, hchild, get_null]

theorem insert_present {bits pages : Nat} {radix : RadixTree} (hreads : Reads cursor cursor.start pairs)
    (hbits : pairs.length ≤ bits) (hrooted : radix.root.Rooted radixNoValue)
    (hpresent : radix.root.get radixNoValue (taken pairs) ≠ none) :
    insert cursor bits value pages radix = .ok (.busy, radix) := by
  obtain ⟨s, up, found, next, hseek, hplug, hsought⟩ := seek_sought hreads hbits [] (Rooted.ne_null hrooted)
  rw [way_nil, List.nil_append] at hsought
  generalize radix.root.missing (taken pairs) = n at hsought
  rw [insert, hseek]
  change plug up found = radix.root at hplug
  cases hsought with
  | @present s up old right left hway =>
      rw [← hplug, ← hway, get_plug_here, get_node_nil] at hpresent
      have hold : old ≠ radixNoValue := fun heq => hpresent (if_pos heq)
      exact if_pos hold
  | @absent s pairs' b p up old right left _ _ htaken hchild hway =>
      rw [← hplug, ← hway, htaken, get_absent hchild] at hpresent
      exact absurd rfl hpresent

theorem insert_absent {bits pages : Nat} {radix : RadixTree} (hreads : Reads cursor cursor.start pairs)
    (hbits : pairs.length ≤ bits) (hrooted : radix.root.Rooted radixNoValue)
    (hvalue : value ≠ radixNoValue) (habsent : radix.root.get radixNoValue (taken pairs) = none)
    (hroom : radix.root.missing (taken pairs) ≤ room ⟨radix.free, radix.size, pages⟩) :
    ∃ radix', insert cursor bits value pages radix = .ok (.ok, radix') ∧
      Stored radix.root (taken pairs) value radix'.root := by
  obtain ⟨s, up, found, next, hseek, hplug, hsought⟩ := seek_sought hreads hbits [] (Rooted.ne_null hrooted)
  rw [way_nil, List.nil_append] at hsought
  generalize radix.root.missing (taken pairs) = n at hsought hroom
  rw [insert, hseek]
  change plug up found = radix.root at hplug
  rw [← hplug] at hrooted habsent ⊢
  cases hsought with
  | @present s up old right left hway =>
      rw [← hway, get_plug_here, get_node_nil] at habsent
      have hold : ¬ old ≠ radixNoValue := fun hne => by
        rw [if_neg hne] at habsent
        exact nomatch habsent
      obtain ⟨hothers, hright, hleft⟩ := hrooted.around
      refine ⟨_, if_neg hold, ?_⟩
      rw [← hway]
      exact .of_plug _ hvalue hothers hright hleft
  | absent hreads' hbits' htaken hchild hway =>
      obtain ⟨hothers, hright, hleft⟩ := hrooted.around
      rw [← hway]
      refine grow_stored hreads' hvalue _ _ _ _ _ (Nat.lt_succ_of_le hbits') ?_ ?_ hothers hright hleft
      · rw [htaken]
        exact hroom
      · intro b' p' heq
        obtain ⟨rfl, rfl⟩ := List.cons.inj (htaken.symm.trans heq)
        exact hchild

/-! Deletion. -/

/-- The trie has one value less. -/
structure Removed (root : BitTrie UInt64) (goal : List Bool) (root' : BitTrie UInt64) : Prop where
  rooted : root'.Rooted radixNoValue
  get : ∀ q, root'.get radixNoValue q = if q = goal then none else root.get radixNoValue q

theorem seekDelete_node (hmasked : cursor.masked s = .ok true) (hright : cursor.right s = .ok b) :
    seekDelete cursor s up (.node value right left) =
      if cursor.last s then .ok (⟨b, value, child (!b) right left⟩ :: up, child b right left)
      else seekDelete cursor (cursor.next s) (⟨b, value, child (!b) right left⟩ :: up)
        (child b right left) := by
  rw [seekDelete, hmasked]
  change (do let _ ← cursor.right s; _) = _
  rw [hright]
  cases b <;> rfl

theorem seekDelete_stop (hmasked : cursor.masked s = .ok false) :
    seekDelete cursor s up (.node value right left) = .ok (up, .node value right left) := by
  rw [seekDelete, hmasked]
  rfl

theorem seekDelete_found (hreads : Reads cursor s pairs) (up : List (Parent UInt64)) (t : BitTrie UInt64) :
    ∃ up' found, seekDelete cursor s up t = .ok (up', found) ∧ plug up' found = plug up t ∧
      (way up' = way up ++ taken pairs ∨
        found = .null ∧ ∃ p, way up ++ taken pairs = way up' ++ p) := by
  induction hreads generalizing up t with
  | @done s hmasked =>
      refine ⟨up, t, ?_, rfl, .inl (List.append_nil _).symm⟩
      cases t with
      | null => rfl
      | node value right left => exact seekDelete_stop hmasked
  | @last s m k hmasked hright hlast =>
      cases t with
      | null => exact ⟨up, .null, rfl, rfl, .inr ⟨rfl, _, rfl⟩⟩
      | node value right left =>
          cases m with
          | false => exact ⟨up, _, seekDelete_stop hmasked, rfl, .inl (List.append_nil _).symm⟩
          | true =>
              rw [seekDelete_node hmasked hright, hlast, if_pos rfl]
              exact ⟨_, _, rfl, plug_child, .inl way_cons⟩
  | @more s m k pairs hmasked hright hlast hreads ih =>
      cases t with
      | null => exact ⟨up, .null, rfl, rfl, .inr ⟨rfl, _, rfl⟩⟩
      | node value right left =>
          cases m with
          | false => exact ⟨up, _, seekDelete_stop hmasked, rfl, .inl (List.append_nil _).symm⟩
          | true =>
              obtain ⟨up', found, hseek, hplug, hfound⟩ :=
                ih (⟨k, value, child (!k) right left⟩ :: up) (child k right left)
              rw [seekDelete_node hmasked hright, hlast, if_neg Bool.false_ne_true]
              rw [way_cons, List.append_assoc] at hfound
              exact ⟨up', found, hseek, hplug.trans plug_child, hfound⟩

/-- The nodes that are pruned carry no values. -/
theorem prune_spec (up : List (Parent UInt64)) (radix : RadixTree) (hup : up ≠ [])
    (hothers : ∀ parent ∈ up, parent.other.Full radixNoValue) :
    ∃ radix', prune up radix = .ok radix' ∧ radix'.root.Rooted radixNoValue ∧
      ∀ q, radix'.root.get radixNoValue q = (plug up .null).get radixNoValue q := by
  induction up generalizing radix with
  | nil => exact absurd rfl hup
  | cons parent up ih =>
      obtain ⟨hother, hothers⟩ := List.forall_mem_cons.mp hothers
      have hstop (h : up = [] ∨ parent.other ≠ .null ∨ parent.value ≠ radixNoValue) :
          (plug up (parent.above .null)).Rooted radixNoValue := by
        refine (rooted_plug above_ne_null).mpr ⟨hothers, fun _ => rooted_above.mpr ⟨trivial, hother⟩,
          fun hne => full_above_null hother (h.resolve_left hne)⟩
      rw [prune]
      split_ifs with hleaf hvalue hroot
      · exact ⟨_, rfl, hstop (.inr (.inl hleaf)), fun _ => rfl⟩
      · exact ⟨_, rfl, hstop (.inr (.inr hvalue)), fun _ => rfl⟩
      · exact ⟨_, rfl, hstop (.inl hroot), fun _ => rfl⟩
      · obtain ⟨radix', hprune, hrooted, hget⟩ :=
          ih { radix with root := plug up (parent.above .null), free := radix.free + 1 } hroot hothers
        refine ⟨radix', hprune, hrooted, fun q => ?_⟩
        rw [hget, plug]
        refine get_plug_congr fun p => ?_
        obtain ⟨isRight, old, other⟩ := parent
        obtain rfl : other = .null := not_not.mp hleaf
        obtain rfl : old = radixNoValue := not_not.mp hvalue
        rw [get_null]
        cases isRight <;> exact get_blank.symm

/-- The root alone cannot be taken away. -/
theorem leaf_valued {blank : UInt64} (hrooted : (plug up (.node value .null .null)).Rooted blank)
    (hroot : way up = [] →
      ∃ p, p ≠ [] ∧ (plug up (.node value .null .null)).get blank p ≠ none) :
    up ≠ [] ∧ value ≠ blank := by
  have hup : up ≠ [] := by
    rintro rfl
    obtain ⟨p, hne, hp⟩ := hroot rfl
    cases p with
    | nil => exact hne rfl
    | cons b p =>
        rw [plug, get_node_cons] at hp
        cases b <;> exact hp get_null
  have hnode : BitTrie.node value .null .null ≠ .null := by
    intro hnull
    cases hnull
  have hplace := (rooted_plug hnode).mp hrooted
  exact ⟨hup, (hplace.below hup).1 rfl rfl⟩

theorem Removed.of_plug (hrooted : (plug up (.node value right left)).Rooted radixNoValue)
    (hchild : right ≠ .null ∨ left ≠ .null) :
    Removed (plug up (.node value right left)) (way up) (plug up (.node radixNoValue right left)) where
  rooted := by
    obtain ⟨hothers, hright, hleft⟩ := hrooted.around
    refine (rooted_plug (show BitTrie.node radixNoValue right left ≠ .null from nofun)).mpr
      ⟨hothers, fun _ => ⟨hright, hleft⟩, fun _ => ⟨fun hr hl => ?_, hright, hleft⟩⟩
    rcases hchild with hchild | hchild
    · exact absurd hr hchild
    · exact absurd hl hchild
  get q := by
    rw [get_plug_value, if_pos rfl]

theorem delete_absent {radix : RadixTree} (hreads : Reads cursor cursor.start pairs)
    (hrooted : radix.root.Rooted radixNoValue)
    (habsent : radix.root.get radixNoValue (taken pairs) = none)
    (hroot : taken pairs = [] → ∃ p, p ≠ [] ∧ radix.root.get radixNoValue p ≠ none) :
    delete cursor radix = .ok (.error, radix) := by
  obtain ⟨up, found, hseek, hplug, hfound⟩ := seekDelete_found hreads [] radix.root
  change plug up found = radix.root at hplug
  rw [← hplug] at hrooted habsent hroot
  rw [delete, hseek]
  cases found with
  | null => rfl
  | node value right left =>
      have hway : way up = taken pairs := hfound.resolve_right fun h => nomatch h.1
      rw [← hway] at habsent hroot
      have hvalue : ¬ value ≠ radixNoValue := fun hne => by
        rw [get_plug_here, get_node_nil, if_neg hne] at habsent
        exact nomatch habsent
      by_cases hchild : right ≠ .null ∨ left ≠ .null
      · change (if right ≠ .null ∨ left ≠ .null then _ else _) = _
        rw [if_pos hchild, if_neg hvalue]
        rfl
      · rw [not_or, not_not, not_not] at hchild
        obtain ⟨rfl, rfl⟩ := hchild
        exact absurd (leaf_valued hrooted hroot).2 hvalue

theorem delete_present {radix : RadixTree} (hreads : Reads cursor cursor.start pairs)
    (hrooted : radix.root.Rooted radixNoValue)
    (hpresent : radix.root.get radixNoValue (taken pairs) ≠ none)
    (hroot : taken pairs = [] → ∃ p, p ≠ [] ∧ radix.root.get radixNoValue p ≠ none) :
    ∃ radix', delete cursor radix = .ok (.ok, radix') ∧ Removed radix.root (taken pairs) radix'.root := by
  obtain ⟨up, found, hseek, hplug, hfound⟩ := seekDelete_found hreads [] radix.root
  change plug up found = radix.root at hplug
  rw [← hplug] at hrooted hpresent hroot ⊢
  rw [delete, hseek]
  cases found with
  | null =>
      obtain ⟨p, hp⟩ : ∃ p, taken pairs = way up ++ p := by
        rcases hfound with hway | ⟨-, p, hp⟩
        · exact ⟨[], by rw [hway, List.append_nil, way_nil, List.nil_append]⟩
        · exact ⟨p, hp⟩
      rw [hp, get_plug, get_null] at hpresent
      exact absurd rfl hpresent
  | node value right left =>
      have hway : way up = taken pairs := hfound.resolve_right fun h => nomatch h.1
      rw [← hway] at hpresent hroot ⊢
      have hvalue : value ≠ radixNoValue := fun heq => by
        rw [get_plug_here, get_node_nil, if_pos heq] at hpresent
        exact hpresent rfl
      by_cases hchild : right ≠ .null ∨ left ≠ .null
      · refine ⟨{ radix with root := plug up (.node radixNoValue right left) }, ?_, .of_plug hrooted hchild⟩
        change (if right ≠ .null ∨ left ≠ .null then _ else _) = _
        rw [if_pos hchild, if_pos hvalue]
        rfl
      · have hleaf := hchild
        rw [not_or, not_not, not_not] at hleaf
        obtain ⟨rfl, rfl⟩ := hleaf
        obtain ⟨radix', hprune, hrooted', hget⟩ :=
          prune_spec up radix (leaf_valued hrooted hroot).1 hrooted.around.1
        refine ⟨radix', ?_, hrooted', fun q => ?_⟩
        · change (do let radix ← prune up radix; pure (RadixResult.ok, radix)) = _
          rw [hprune]
          rfl
        · have hblank : (plug up .null).get radixNoValue q =
              (plug up (.node radixNoValue .null .null)).get radixNoValue q :=
            get_plug_congr fun p => get_null.trans get_blank.symm
          rw [hget, hblank, get_plug_value, if_pos rfl]

/-! The search. -/

theorem find_node {result : UInt64} (hright : cursor.right s = .ok b) :
    find cursor s result (.node value right left) =
      find cursor (cursor.next s) (if value = radixNoValue then result else value)
        (child b right left) := by
  rw [find, hright]
  by_cases hvalue : value = radixNoValue
  · rw [if_pos hvalue, if_neg (not_not.mpr hvalue)]
    cases b <;> rfl
  · rw [if_neg hvalue, if_pos hvalue]
    cases b <;> rfl

/-- No deeper than the key is long. -/
def Within (t : BitTrie UInt64) (n : Nat) : Prop := ∀ p, t.get radixNoValue p ≠ none → p.length ≤ n

theorem Within.child {n : Nat} (h : Within (.node value right left) (n + 1)) (b : Bool) :
    Within (child b right left) n := by
  intro p hp
  have hlength := h (b :: p) (by rwa [get_node_cons])
  exact Nat.le_of_succ_le_succ hlength

theorem Within.children_null (h : Within (.node value right left) 0) (hright : right.Full radixNoValue)
    (hleft : left.Full radixNoValue) (b : Bool) : BitTrie.child b right left = .null := by
  by_contra hnull
  obtain ⟨p, hp⟩ := (child_full hright hleft).exists_get hnull
  exact absurd (h (b :: p) (by rwa [get_node_cons])) (Nat.not_succ_le_zero _)

/-- At the end of the key the loop reads one bit more if there is a node. -/
theorem find_search {bits : List Bool} {result : UInt64} (hspells : Spells cursor s bits s')
    (hfull : t.Full radixNoValue) (hwithin : Within t bits.length)
    (hend : (∃ b, cursor.right s' = .ok b) ∨ t.get radixNoValue bits = none) :
    find cursor s result t = .ok (search radixNoValue bits result t) := by
  induction hspells generalizing t result with
  | nil =>
      cases t with
      | null => rfl
      | node value right left =>
          obtain ⟨hleaf, hright, hleft⟩ := hfull
          have hnull := hwithin.children_null hright hleft
          rcases hend with ⟨b, hb⟩ | hend
          · rw [find_node hb, hnull b]
            rfl
          · rw [get_node_nil, if_neg (hleaf (hnull true) (hnull false))] at hend
            exact nomatch hend
  | @cons s b bits s' hbit hspells ih =>
      cases t with
      | null => rfl
      | node value right left =>
          obtain ⟨-, hright, hleft⟩ := hfull
          rw [find_node hbit, search]
          exact ih (child_full hright hleft) (hwithin.child b)
            (hend.imp id fun hnone => by rwa [get_node_cons] at hnone)

theorem find_longest {b : Bool} {bits : List Bool} (hspells : Spells cursor s (b :: bits) s')
    (hrooted : t.Rooted radixNoValue) (hwithin : Within t (bits.length + 1))
    (hend : (∃ b, cursor.right s' = .ok b) ∨ t.get radixNoValue (b :: bits) = none) :
    ∃ value, find cursor s radixNoValue t = .ok value ∧
      Longest (t.get radixNoValue) (b :: bits) radixNoValue value := by
  refine ⟨search radixNoValue (b :: bits) radixNoValue t, ?_, search_longest t (b :: bits) radixNoValue⟩
  cases hspells with
  | cons hbit hspells =>
      cases t with
      | null => rfl
      | node value right left =>
          obtain ⟨hright, hleft⟩ := hrooted
          rw [find_node hbit, search]
          exact find_search hspells (child_full hright hleft) (hwithin.child b)
            (hend.imp id fun hnone => by rwa [get_node_cons] at hnone)

end Radix

end RebuildTheWheel.Nginx
