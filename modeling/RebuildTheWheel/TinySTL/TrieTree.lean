import Mathlib.Data.Finset.Card
import Mathlib.Data.List.Nodup
import Mathlib.Order.Basic

namespace RebuildTheWheel.TinySTL

/-! `trie_tree`. A word is the list of its letters. -/

/-- `std::map` from letters to nodes, in the order of its keys: each entry has a key, the
members `data`, `is_a_word` and `map_childs` of its node, and the entries behind it. -/
inductive TrieMap (α : Type) where
  | leaf
  | entry (key data : α) (isAWord : Bool) (mapChilds rest : TrieMap α)

structure TrieNode (α : Type) where
  data : α
  isAWord : Bool
  mapChilds : TrieMap α

/-- The root has no letter and is no word, so that only its map counts. -/
structure TrieTree (α : Type) where
  rootChilds : TrieMap α
  size : Nat

namespace TrieMap

variable {α : Type} [LinearOrder α]

def find (ch : α) : TrieMap α → Option (TrieNode α)
  | leaf => none
  | entry key data isAWord mapChilds rest =>
      if ch = key then some ⟨data, isAWord, mapChilds⟩ else rest.find ch

/-- `map_childs[ch] = node`, and a change of the node that is stored there. -/
def put (ch : α) (node : TrieNode α) : TrieMap α → TrieMap α
  | leaf => entry ch node.data node.isAWord node.mapChilds leaf
  | entry key data isAWord mapChilds rest =>
      if ch < key then
        entry ch node.data node.isAWord node.mapChilds
          (entry key data isAWord mapChilds rest)
      else if ch = key then
        entry key node.data node.isAWord node.mapChilds rest
      else
        entry key data isAWord mapChilds (put ch node rest)

end TrieMap

namespace TrieTree

open TrieMap

variable {α : Type} [LinearOrder α]

def new : TrieTree α where
  rootChilds := leaf
  size := 0

/-- `_is_existed(word, up)`, where the first letter of `word` is the one of `up`: the argument
is the rest of the word. -/
def isExistedBelow : List α → TrieNode α → Bool
  | [], up => up.isAWord
  | ch :: word, up =>
      match up.mapChilds.find ch with
      | none => false
      | some child => isExistedBelow word child

def isExisted (t : TrieTree α) : List α → Bool
  | [] => false
  | ch :: word =>
      match t.rootChilds.find ch with
      | none => false
      | some child => isExistedBelow word child

/-- `_insert(word, up)`, with the node that `up` becomes and the new `size_`. -/
def insertBelow : List α → TrieNode α → Nat → TrieNode α × Nat
  | [], up, size => ({ up with isAWord := true }, size + 1)
  | ch :: word, up, size =>
      match up.mapChilds.find ch with
      | some child =>
          let (child, size) := insertBelow word child size
          ({ up with mapChilds := up.mapChilds.put ch child }, size)
      | none =>
          let mapChilds := up.mapChilds.put ch ⟨ch, word.isEmpty, leaf⟩
          let (child, size) := insertBelow word ⟨ch, word.isEmpty, leaf⟩ size
          ({ up with mapChilds := mapChilds.put ch child }, size)

def insert (t : TrieTree α) (word : List α) : TrieTree α × Bool :=
  if t.isExisted word then
    (t, true)
  else
    match word with
    | [] => (t, false)
    | ch :: word =>
        match t.rootChilds.find ch with
        | some child =>
            let (child, size) := insertBelow word child t.size
            (⟨t.rootChilds.put ch child, size⟩, true)
        | none =>
            let mapChilds := t.rootChilds.put ch ⟨ch, word.isEmpty, leaf⟩
            let (child, size) := insertBelow word ⟨ch, word.isEmpty, leaf⟩ t.size
            (⟨mapChilds.put ch child, size⟩, true)

/-- The loop over the children that calls `__get_word_by_prefix`, each time with a copy of
`word`. -/
def collect (pfx word : List α) : TrieMap α → List (List α) → List (List α)
  | leaf, words => words
  | entry _ data isAWord mapChilds rest, words =>
      let here := word ++ [data]
      let words := if isAWord then words ++ [pfx ++ here] else words
      collect pfx word rest (collect pfx here mapChilds words)

/-- `_get_word_by_prefix(prefix, up, real_prefix, words)`, where the first letter of `prefix`
is the one of `up`. -/
def wordsBelow (realPrefix : List α) : List α → TrieNode α → List (List α) → List (List α)
  | [], up, words =>
      collect realPrefix [] up.mapChilds (if up.isAWord then words ++ [realPrefix] else words)
  | ch :: pfx, up, words =>
      match up.mapChilds.find ch with
      | none => words
      | some child => wordsBelow realPrefix pfx child words

def getWordByPrefix (t : TrieTree α) : List α → List (List α)
  | [] => []
  | ch :: pfx =>
      match t.rootChilds.find ch with
      | none => []
      | some child => wordsBelow (ch :: pfx) pfx child []

end TrieTree

namespace TrieMap

variable {α : Type} [LinearOrder α]

theorem find_put (ch c : α) (node : TrieNode α) (m : TrieMap α) :
    (m.put ch node).find c = if c = ch then some node else m.find c := by
  induction m with
  | leaf => rfl
  | entry key data isAWord mapChilds rest _ ih =>
      rw [put]
      by_cases hlt : ch < key
      · rw [if_pos hlt, find]
      · rw [if_neg hlt]
        by_cases heq : ch = key
        · rw [if_pos heq, find, find, heq]
          split <;> rfl
        · rw [if_neg heq, find, find, ih]
          by_cases hc : c = key
          · have hne : c ≠ ch := fun h => heq (h.symm.trans hc)
            rw [if_pos hc, if_neg hne, if_pos hc]
          · rw [if_neg hc, if_neg hc]

/-! Maps whose keys are in order and are the letters of their nodes. -/

def keys : TrieMap α → List α
  | leaf => []
  | entry key _ _ _ rest => key :: rest.keys

def Sorted : TrieMap α → Prop
  | leaf => True
  | entry key data _ mapChilds rest =>
      data = key ∧ mapChilds.Sorted ∧ rest.Sorted ∧ ∀ k ∈ rest.keys, key < k

theorem mem_keys_put {ch k : α} {node : TrieNode α} {m : TrieMap α} (h : k ∈ (m.put ch node).keys) :
    k = ch ∨ k ∈ m.keys := by
  induction m with
  | leaf => exact .inl (List.mem_singleton.mp h)
  | entry key data isAWord mapChilds rest _ ih =>
      rw [put] at h
      split_ifs at h
      · exact List.mem_cons.mp h
      · exact .inr h
      · rcases List.mem_cons.mp h with rfl | h
        · exact .inr List.mem_cons_self
        · exact (ih h).imp_right (List.mem_cons_of_mem _)

theorem mem_keys_of_find {c : α} {node : TrieNode α} {m : TrieMap α} (h : m.find c = some node) :
    c ∈ m.keys := by
  induction m with
  | leaf => cases h
  | entry key data isAWord mapChilds rest _ ih =>
      rw [find] at h
      split_ifs at h with hc
      · exact hc ▸ List.mem_cons_self
      · exact List.mem_cons_of_mem _ (ih h)

theorem Sorted.put {ch : α} {node : TrieNode α} : ∀ {m : TrieMap α}, m.Sorted →
    node.data = ch → node.mapChilds.Sorted → (m.put ch node).Sorted
  | leaf, _, hdata, hnode => ⟨hdata, hnode, trivial, fun _ hk => nomatch hk⟩
  | entry key data isAWord mapChilds rest, h, hdata, hnode => by
      obtain ⟨hkey, hchilds, hrest, hlt⟩ := h
      rw [TrieMap.put]
      split_ifs with hbefore heq
      · refine ⟨hdata, hnode, ⟨hkey, hchilds, hrest, hlt⟩, ?_⟩
        intro k hk
        rcases List.mem_cons.mp hk with rfl | hk
        · exact hbefore
        · exact hbefore.trans (hlt k hk)
      · exact ⟨hdata.trans heq, hnode, hrest, hlt⟩
      · refine ⟨hkey, hchilds, hrest.put hdata hnode, ?_⟩
        intro k hk
        rcases mem_keys_put hk with rfl | hk
        · exact lt_of_le_of_ne (not_lt.mp hbefore) (Ne.symm heq)
        · exact hlt k hk

theorem Sorted.find {c : α} {node : TrieNode α} : ∀ {m : TrieMap α}, m.Sorted →
    m.find c = some node → node.data = c ∧ node.mapChilds.Sorted
  | entry key data isAWord mapChilds rest, ⟨hkey, hchilds, hrest, _⟩, h => by
      rw [TrieMap.find] at h
      split_ifs at h with hc
      · obtain rfl := Option.some.inj h
        exact ⟨hkey.trans hc.symm, hchilds⟩
      · exact hrest.find h

/-- The words that end below the entries of a map. -/
def words : TrieMap α → List (List α)
  | leaf => []
  | entry _ data isAWord mapChilds rest =>
      (if isAWord then [[data]] else []) ++ mapChilds.words.map (data :: ·) ++ rest.words

end TrieMap

namespace TrieTree

variable {α : Type} [LinearOrder α]

theorem mem_words_iff : ∀ {m : TrieMap α}, m.Sorted → ∀ {v : List α},
    v ∈ m.words ↔ ∃ c u node, v = c :: u ∧ m.find c = some node ∧ isExistedBelow u node = true
  | .leaf, _, v => by
      refine iff_of_false (fun h => nomatch h) ?_
      rintro ⟨c, u, node, -, hfind, -⟩
      cases hfind
  | .entry key data isAWord mapChilds rest, ⟨hkey, hchilds, hrest, hlt⟩, v => by
      subst hkey
      have hself : (TrieMap.entry data data isAWord mapChilds rest).find data =
          some ⟨data, isAWord, mapChilds⟩ := if_pos rfl
      rw [TrieMap.words, List.mem_append, List.mem_append, List.mem_map, mem_words_iff hrest]
      constructor
      · rintro ((h | ⟨u, hu, rfl⟩) | ⟨c, u, node, rfl, hfind, hexists⟩)
        · have hword : isAWord = true ∧ v = [data] := by
            cases isAWord with
            | true => exact ⟨rfl, List.mem_singleton.mp h⟩
            | false => cases h
          exact ⟨data, [], _, hword.2, hself, hword.1⟩
        · obtain ⟨c, w, node, rfl, hfind, hexists⟩ := (mem_words_iff hchilds).mp hu
          refine ⟨data, c :: w, _, rfl, hself, ?_⟩
          rw [isExistedBelow, hfind]
          exact hexists
        · refine ⟨c, u, node, rfl, ?_, hexists⟩
          have hne : c ≠ data := Ne.symm (ne_of_lt (hlt c (TrieMap.mem_keys_of_find hfind)))
          rw [TrieMap.find, if_neg hne]
          exact hfind
      · rintro ⟨c, u, node, rfl, hfind, hexists⟩
        by_cases hc : c = data
        · subst hc
          rw [hself] at hfind
          obtain rfl := Option.some.inj hfind
          left
          cases u with
          | nil =>
              left
              have hword : isAWord = true := hexists
              simp [hword]
          | cons c' w =>
              right
              rw [isExistedBelow] at hexists
              cases hfind' : mapChilds.find c' with
              | none => simp [hfind'] at hexists
              | some node =>
                  simp only [hfind'] at hexists
                  exact ⟨c' :: w, (mem_words_iff hchilds).mpr ⟨c', w, node, rfl, hfind', hexists⟩,
                    rfl⟩
        · rw [TrieMap.find, if_neg hc] at hfind
          exact .inr ⟨c, u, node, rfl, hfind, hexists⟩

theorem head_mem_keys {m : TrieMap α} (hm : m.Sorted) {c : α} {u : List α} (h : c :: u ∈ m.words) :
    c ∈ m.keys := by
  obtain ⟨c', u', node, heq, hfind, -⟩ := (mem_words_iff hm).mp h
  rw [(List.cons.inj heq).1]
  exact TrieMap.mem_keys_of_find hfind

theorem words_ne_nil {m : TrieMap α} (hm : m.Sorted) : [] ∉ m.words := by
  intro h
  obtain ⟨c, u, node, heq, -⟩ := (mem_words_iff hm).mp h
  cases heq

theorem nodup_words : ∀ {m : TrieMap α}, m.Sorted → m.words.Nodup
  | .leaf, _ => List.nodup_nil
  | .entry key data isAWord mapChilds rest, ⟨hkey, hchilds, hrest, hlt⟩ => by
      subst hkey
      rw [TrieMap.words, List.nodup_append, List.nodup_append]
      refine ⟨⟨?_, ?_, ?_⟩, nodup_words hrest, ?_⟩
      · cases isAWord <;> simp
      · exact (nodup_words hchilds).map (List.cons_injective)
      · intro v hv u hu heq
        obtain ⟨w, hw, rfl⟩ := List.mem_map.mp hu
        have hv' : v = [data] := by
          cases isAWord with
          | true => exact List.mem_singleton.mp hv
          | false => cases hv
        rw [hv'] at heq
        rw [← (List.cons.inj heq).2] at hw
        exact words_ne_nil hchilds hw
      · intro v hv u hu heq
        have hhead : ∃ w, v = data :: w := by
          rcases List.mem_append.mp hv with hv | hv
          · cases isAWord with
            | true => exact ⟨[], List.mem_singleton.mp hv⟩
            | false => cases hv
          · obtain ⟨w, -, rfl⟩ := List.mem_map.mp hv
            exact ⟨w, rfl⟩
        obtain ⟨w, rfl⟩ := hhead
        rw [← heq] at hu
        exact lt_irrefl data (hlt data (head_mem_keys hrest hu))

/-! What the functions of the tree read and write. -/

omit [LinearOrder α] in
theorem collect_eq (pfx : List α) : ∀ (m : TrieMap α) (word : List α) (words : List (List α)),
    collect pfx word m words = words ++ m.words.map fun v => pfx ++ (word ++ v)
  | .leaf, word, words => by simp [collect, TrieMap.words]
  | .entry key data isAWord mapChilds rest, word, words => by
      rw [collect, collect_eq pfx rest, collect_eq pfx mapChilds, TrieMap.words]
      cases isAWord <;> simp [Function.comp_def]

theorem wordsBelow_eq (realPrefix : List α) : ∀ (pfx : List α) (up : TrieNode α)
    (words : List (List α)), up.mapChilds.Sorted →
      ∃ found : List (List α), wordsBelow realPrefix pfx up words = words ++ found.map (realPrefix ++ ·) ∧
        found.Nodup ∧ ∀ u, u ∈ found ↔ isExistedBelow (pfx ++ u) up = true
  | [], up, words, hup => by
      refine ⟨(if up.isAWord then [[]] else []) ++ up.mapChilds.words, ?_, ?_, ?_⟩
      · rw [wordsBelow, collect_eq]
        cases up.isAWord <;> simp
      · rw [List.nodup_append]
        refine ⟨by cases up.isAWord <;> simp, nodup_words hup, ?_⟩
        intro v hv u hu heq
        have hv' : v = [] := by
          cases hword : up.isAWord <;> simp [hword] at hv
          exact hv
        rw [← heq, hv'] at hu
        exact words_ne_nil hup hu
      · intro u
        rw [List.mem_append, mem_words_iff hup, List.nil_append]
        cases u with
        | nil =>
            rw [isExistedBelow]
            cases up.isAWord <;> simp
        | cons c u =>
            rw [isExistedBelow]
            cases hfind : up.mapChilds.find c with
            | none =>
                cases up.isAWord <;> simp [hfind]
            | some node =>
                cases up.isAWord <;> simp [hfind]
  | ch :: pfx, up, words, hup => by
      rw [wordsBelow]
      cases hfind : up.mapChilds.find ch with
      | none =>
          refine ⟨[], (List.append_nil words).symm, List.nodup_nil, fun u => ?_⟩
          simp [isExistedBelow, hfind]
      | some child =>
          obtain ⟨found, heq, hnodup, hmem⟩ :=
            wordsBelow_eq realPrefix pfx child words (hup.find hfind).2
          refine ⟨found, heq, hnodup, fun u => ?_⟩
          rw [hmem, List.cons_append, isExistedBelow, hfind]

theorem isExistedBelow_empty (word : List α) (ch : α) (is : Bool) :
    isExistedBelow word ⟨ch, is, .leaf⟩ = (word.isEmpty && is) := by
  cases word with
  | nil => rfl
  | cons c word => rfl

/-- The node that `_insert` leaves behind, which knows one word more. -/
theorem insertBelow_spec : ∀ (word : List α) (up : TrieNode α) (size : Nat), up.mapChilds.Sorted →
    (insertBelow word up size).1.data = up.data ∧
    (insertBelow word up size).1.mapChilds.Sorted ∧
    (insertBelow word up size).2 = size + 1 ∧
    ∀ v, isExistedBelow v (insertBelow word up size).1 =
      (decide (v = word) || isExistedBelow v up)
  | [], up, size, hup => by
      refine ⟨rfl, hup, rfl, fun v => ?_⟩
      rw [insertBelow]
      cases v with
      | nil => rfl
      | cons c v => simp [isExistedBelow]
  | ch :: word, up, size, hup => by
      rw [insertBelow]
      cases hfind : up.mapChilds.find ch with
      | some child =>
          obtain ⟨hdata, hchilds⟩ := hup.find hfind
          obtain ⟨hdata', hchilds', hsize, hexists⟩ := insertBelow_spec word child size hchilds
          refine ⟨rfl, hup.put (hdata'.trans hdata) hchilds', hsize, fun v => ?_⟩
          cases v with
          | nil => simp [isExistedBelow]
          | cons c v =>
              simp only [isExistedBelow, TrieMap.find_put]
              by_cases hc : c = ch
              · subst hc
                simp [hfind, hexists]
              · simp [hc]
      | none =>
          obtain ⟨hdata', hchilds', hsize, hexists⟩ :=
            insertBelow_spec word ⟨ch, word.isEmpty, .leaf⟩ size trivial
          have hput : (up.mapChilds.put ch ⟨ch, word.isEmpty, .leaf⟩).Sorted := hup.put rfl trivial
          refine ⟨rfl, hput.put hdata' hchilds', hsize, fun v => ?_⟩
          cases v with
          | nil => simp [isExistedBelow]
          | cons c v =>
              simp only [isExistedBelow, TrieMap.find_put]
              by_cases hc : c = ch
              · subst hc
                rw [if_pos rfl, hfind]
                simp only [hexists, isExistedBelow_empty]
                by_cases hv : v = word
                · simp [hv]
                · cases v <;> cases word <;> simp_all
              · simp [hc]

/-! The tree with its root as a node, whose letter does not matter. -/

section

variable {t : TrieTree α} {s : Finset (List α)}

theorem isExisted_cons (t : TrieTree α) (ch : α) (word : List α) :
    t.isExisted (ch :: word) = isExistedBelow (ch :: word) ⟨ch, false, t.rootChilds⟩ := rfl

theorem insert_cons {ch : α} {word : List α} (hnew : t.isExisted (ch :: word) = false) :
    (t.insert (ch :: word)).1 =
      ⟨(insertBelow (ch :: word) ⟨ch, false, t.rootChilds⟩ t.size).1.mapChilds,
        (insertBelow (ch :: word) ⟨ch, false, t.rootChilds⟩ t.size).2⟩ := by
  rw [insert, if_neg (by simp [hnew])]
  simp only [insertBelow]
  cases t.rootChilds.find ch <;> rfl

/-- The tree stores exactly the words of `s`. -/
structure Holds (t : TrieTree α) (s : Finset (List α)) : Prop where
  sorted : t.rootChilds.Sorted
  isExisted : ∀ word, t.isExisted word = true ↔ word ∈ s
  size : t.size = s.card

theorem new_holds : (new : TrieTree α).Holds ∅ where
  sorted := trivial
  isExisted := by
    intro word
    cases word <;> simp [TrieTree.isExisted, new, TrieMap.find]
  size := rfl

theorem Holds.insert (h : t.Holds s) (word : List α) :
    (t.insert word).1.Holds (if word = [] then s else Insert.insert word s) := by
  cases word with
  | nil => exact h
  | cons ch word =>
      rw [if_neg (List.cons_ne_nil ch word)]
      by_cases hold : t.isExisted (ch :: word) = true
      · rw [TrieTree.insert, if_pos hold, Finset.insert_eq_of_mem ((h.isExisted _).mp hold)]
        exact h
      · have hnew := Bool.eq_false_of_not_eq_true hold
        obtain ⟨-, hsorted, hsize, hexists⟩ :=
          insertBelow_spec (ch :: word) ⟨ch, false, t.rootChilds⟩ t.size h.sorted
        rw [insert_cons hnew]
        refine ⟨hsorted, fun v => ?_, ?_⟩
        · cases v with
          | nil =>
              have hnil : [] ∉ s := fun hmem => nomatch (h.isExisted []).mpr hmem
              simp [TrieTree.isExisted, hnil]
          | cons c v =>
              have hbelow := hexists (c :: v)
              rw [Finset.mem_insert, ← h.isExisted, isExisted_cons, isExisted_cons,
                ← decide_eq_true_iff (p := c :: v = ch :: word), ← Bool.or_eq_true]
              exact Bool.eq_iff_iff.mp hbelow
        · rw [hsize, Finset.card_insert_of_notMem fun hmem => hold ((h.isExisted _).mpr hmem), h.size]

theorem Holds.insertAll : ∀ (words : List (List α)) {t : TrieTree α} {s : Finset (List α)},
    t.Holds s → (words.foldl (fun t word => (t.insert word).1) t).Holds (s ∪ words.toFinset.erase [])
  | [], t, s, h => by simpa using h
  | word :: words, t, s, h => by
      have hinsert := h.insert word
      have hall := Holds.insertAll words hinsert
      rw [List.foldl_cons]
      convert hall using 1
      ext v
      by_cases hword : word = []
      · subst hword
        simp
      · simp only [if_neg hword, Finset.mem_union, Finset.mem_erase, List.toFinset_cons,
          Finset.mem_insert]
        constructor
        · rintro (hv | ⟨hne, rfl | hv⟩)
          · exact .inl (.inr hv)
          · exact .inl (.inl rfl)
          · exact .inr ⟨hne, hv⟩
        · rintro ((rfl | hv) | hv)
          · exact .inr ⟨hword, .inl rfl⟩
          · exact .inl hv
          · exact .inr ⟨hv.1, .inr hv.2⟩

/-! What a client sees. -/

structure Shows (t : TrieTree α) (s : Finset (List α)) : Prop where
  isExisted : ∀ word, t.isExisted word = true ↔ word ∈ s
  size : t.size = s.card
  nodup : ∀ pfx, (t.getWordByPrefix pfx).Nodup
  mem : ∀ ch pfx word, word ∈ t.getWordByPrefix (ch :: pfx) ↔ word ∈ s ∧ ch :: pfx <+: word

theorem Holds.shows (h : t.Holds s) : t.Shows s := by
  have hbelow : ∀ ch pfx, ∃ found : List (List α),
      t.getWordByPrefix (ch :: pfx) = found.map (ch :: pfx ++ ·) ∧ found.Nodup ∧
        ∀ u, u ∈ found ↔ t.isExisted (ch :: pfx ++ u) = true := by
    intro ch pfx
    obtain ⟨found, heq, hnodup, hmem⟩ :=
      wordsBelow_eq (ch :: pfx) (ch :: pfx) ⟨ch, false, t.rootChilds⟩ [] h.sorted
    exact ⟨found, heq, hnodup, hmem⟩
  refine ⟨h.isExisted, h.size, ?_, ?_⟩
  · intro pfx
    cases pfx with
    | nil => exact List.nodup_nil
    | cons ch pfx =>
        obtain ⟨found, heq, hnodup, -⟩ := hbelow ch pfx
        rw [heq]
        exact hnodup.map (List.append_right_injective _)
  · intro ch pfx word
    obtain ⟨found, heq, -, hmem⟩ := hbelow ch pfx
    rw [heq, List.mem_map]
    constructor
    · rintro ⟨u, hu, rfl⟩
      exact ⟨(h.isExisted _).mp ((hmem u).mp hu), List.prefix_append _ _⟩
    · rintro ⟨hword, u, rfl⟩
      exact ⟨u, (hmem u).mpr ((h.isExisted _).mpr hword), rfl⟩

end

/-- After any insertions the tree shows the non-empty words among them. -/
theorem trie_tree_run (words : List (List α)) :
    (words.foldl (fun t word => (t.insert word).1) new).Shows (words.toFinset.erase []) := by
  have hall := new_holds.insertAll words
  rw [Finset.empty_union] at hall
  exact hall.shows

end TrieTree

end RebuildTheWheel.TinySTL
