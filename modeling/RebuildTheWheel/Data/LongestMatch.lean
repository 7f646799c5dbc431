import Mathlib.Data.List.Nodup
import Mathlib.Data.List.TakeWhile

namespace RebuildTheWheel.Data

/-! The pattern with the longest match, found label by label. -/

structure Pattern (α β : Type) where
  labels : List α
  /-- Only longer lists match. -/
  strict : Bool
  value : β

namespace Pattern

variable {α β : Type} [DecidableEq α]

def Matches (p : Pattern α β) (h : List α) : Prop :=
  p.labels <+: h ∧ (p.strict = true → p.labels ≠ h)

/-- The pattern that consists of one label. -/
def exact (l : α) (ps : List (Pattern α β)) : Option (Pattern α β) :=
  ps.find? fun p => p.labels = [l]

/-- A pattern that goes on after its first label `l`, without it. -/
def tail? (l : α) (p : Pattern α β) : Option (Pattern α β) :=
  match p.labels with
  | m :: k :: ls => if m = l then some { p with labels := k :: ls } else none
  | _ => none

def deeper (l : α) (ps : List (Pattern α β)) : List (Pattern α β) := ps.filterMap (tail? l)

/-- The value so far, after the label `l`. -/
def best (l : α) (ps : List (Pattern α β)) (v : β) : β := ((exact l ps).map (·.value)).getD v

def pick (ps : List (Pattern α β)) (v : β) : List α → β
  | [] => v
  | [l] => ((exact l ps).map fun p => if p.strict then v else p.value).getD v
  | l :: k :: h => pick (deeper l ps) (best l ps v) (k :: h)

/-- Patterns that are not empty and do not conflict. -/
structure Proper (ps : List (Pattern α β)) : Prop where
  nonempty : ∀ p ∈ ps, p.labels ≠ []
  distinct : (ps.map (·.labels)).Nodup

/-- `x` is the value of the longest match, or `v` if there is none. -/
def Longest (ps : List (Pattern α β)) (v : β) (h : List α) (x : β) : Prop :=
  (∃ p ∈ ps, p.Matches h ∧ (∀ q ∈ ps, q.Matches h → q.labels.length ≤ p.labels.length) ∧
    x = p.value) ∨ ((∀ p ∈ ps, ¬p.Matches h) ∧ x = v)

variable {ps : List (Pattern α β)} {p q : Pattern α β} {l k : α} {h : List α} {v : β}

theorem tail?_eq_some : tail? l p = some q ↔
    ∃ k ls, p.labels = l :: k :: ls ∧ q = { p with labels := k :: ls } := by
  unfold tail?
  split
  · rename_i m k ls hlabels
    rw [hlabels]
    by_cases hm : m = l
    · subst hm
      simp [eq_comm]
    · simp [hm]
  · rename_i hlabels
    simp only [reduceCtorEq, false_iff]
    rintro ⟨k, ls, heq, -⟩
    exact hlabels _ _ _ heq

theorem mem_deeper : q ∈ deeper l ps ↔
    ∃ p ∈ ps, ∃ k ls, p.labels = l :: k :: ls ∧ q = { p with labels := k :: ls } := by
  simp only [deeper, List.mem_filterMap, tail?_eq_some]

theorem Proper.deeper (hps : Proper ps) (l : α) : Proper (deeper l ps) where
  nonempty q hq := by
    obtain ⟨p, -, k, ls, -, rfl⟩ := mem_deeper.mp hq
    exact List.cons_ne_nil k ls
  distinct := by
    refine List.pairwise_map.mpr (List.Pairwise.filterMap (tail? l) ?_
      (List.pairwise_map.mp hps.distinct))
    intro p q hne p' hp q' hq heq
    obtain ⟨k, ls, hlabels, rfl⟩ := tail?_eq_some.mp hp
    obtain ⟨k', ls', hlabels', rfl⟩ := tail?_eq_some.mp hq
    exact hne (by rw [hlabels, hlabels']; exact congrArg (l :: ·) heq)

omit [DecidableEq α] in
theorem Proper.eq_of_labels (hps : Proper ps) (hp : p ∈ ps) (hq : q ∈ ps)
    (hlabels : p.labels = q.labels) : p = q := by
  exact List.inj_on_of_nodup_map hps.distinct hp hq hlabels

theorem exact_eq_some (hps : Proper ps) : exact l ps = some p ↔ p ∈ ps ∧ p.labels = [l] := by
  constructor
  · intro h
    exact ⟨List.mem_of_find?_eq_some h, by simpa using List.find?_some h⟩
  · rintro ⟨hp, hlabels⟩
    cases hfind : exact l ps with
    | none => exact absurd (decide_eq_true hlabels) (List.find?_eq_none.mp hfind p hp)
    | some q =>
        have hq : q.labels = [l] := by simpa using List.find?_some hfind
        rw [hps.eq_of_labels (List.mem_of_find?_eq_some hfind) hp (hq.trans hlabels.symm)]

theorem exact_eq_none : exact l ps = none ↔ ∀ p ∈ ps, p.labels ≠ [l] := by
  simp [exact, List.find?_eq_none]

omit [DecidableEq α] in
theorem matches_single (hp : p.labels ≠ []) :
    p.Matches [l] ↔ p.labels = [l] ∧ p.strict = false := by
  unfold Matches
  cases hlabels : p.labels with
  | nil => exact absurd hlabels hp
  | cons m ls =>
      cases ls with
      | nil =>
          simp only [List.cons_prefix_cons, List.prefix_rfl, and_true, List.cons.injEq]
          refine and_congr_right fun hm => ?_
          rw [hm]
          simp
      | cons k ls => simp

/-- One label matches the pattern that consists of it, and the rest those that go on after it. -/
theorem matches_cons (hp : p.labels ≠ []) : p.Matches (l :: k :: h) ↔
    p.labels = [l] ∨ ∃ q, tail? l p = some q ∧ q.Matches (k :: h) := by
  cases hlabels : p.labels with
  | nil => exact absurd hlabels hp
  | cons m ls =>
      cases ls with
      | nil =>
          have hnone : tail? l p = none := by simp [tail?, hlabels]
          simp [Matches, hlabels, hnone]
      | cons k' ls =>
          by_cases hm : m = l
          · subst hm
            have hsome : tail? m p = some { p with labels := k' :: ls } := by simp [tail?, hlabels]
            simp [Matches, hlabels, hsome]
          · have hnone : tail? l p = none := by simp [tail?, hlabels, hm]
            simp [Matches, hlabels, hnone, hm]

theorem Longest.of_inner (hps : Proper ps) {x : β}
    (hx : Longest (Pattern.deeper l ps) (best l ps v) (k :: h) x) : Longest ps v (l :: k :: h) x := by
  have hmatches {q : Pattern α β} (hq : q ∈ ps) := matches_cons (l := l) (k := k) (h := h)
    (hps.nonempty q hq)
  have hdeeper {q q' : Pattern α β} (hq : q ∈ ps) (htail : tail? l q = some q') :
      q' ∈ Pattern.deeper l ps ∧ q.labels.length = q'.labels.length + 1 ∧ q'.value = q.value := by
    obtain ⟨j, ls, hlabels, rfl⟩ := tail?_eq_some.mp htail
    exact ⟨List.mem_filterMap.mpr ⟨q, hq, htail⟩, by rw [hlabels]; rfl, rfl⟩
  rcases hx with ⟨q', hq', hmatch, hlongest, rfl⟩ | ⟨hnone, rfl⟩
  · obtain ⟨q, hq, htail⟩ := List.mem_filterMap.mp hq'
    obtain ⟨-, hlength, hvalue⟩ := hdeeper hq htail
    refine .inl ⟨q, hq, (hmatches hq).mpr (.inr ⟨q', htail, hmatch⟩), fun r hr hrmatch => ?_, hvalue⟩
    rcases (hmatches hr).mp hrmatch with hexact | ⟨r', hrtail, hrmatch'⟩
    · rw [hexact, hlength]
      exact Nat.le_add_left 1 _
    · obtain ⟨hr', hrlength, -⟩ := hdeeper hr hrtail
      rw [hlength, hrlength]
      exact Nat.succ_le_succ (hlongest r' hr' hrmatch')
  · have honly (r : Pattern α β) (hr : r ∈ ps) (hrmatch : r.Matches (l :: k :: h)) :
        r.labels = [l] := by
      rcases (hmatches hr).mp hrmatch with hexact | ⟨r', hrtail, hrmatch'⟩
      · exact hexact
      · exact absurd hrmatch' (hnone r' (hdeeper hr hrtail).1)
    cases hexact : exact l ps with
    | none =>
        refine .inr ⟨fun r hr hrmatch => ?_, by simp [best, hexact]⟩
        exact exact_eq_none.mp hexact r hr (honly r hr hrmatch)
    | some p =>
        obtain ⟨hp, hlabels⟩ := (exact_eq_some hps).mp hexact
        refine .inl ⟨p, hp, (hmatches hp).mpr (.inl hlabels), fun r hr hrmatch => ?_,
          by simp [best, hexact]⟩
        exact Nat.le_of_eq (by rw [honly r hr hrmatch, hlabels])

theorem pick_longest (hps : Proper ps) (v : β) (h : List α) : Longest ps v h (pick ps v h) := by
  induction h generalizing ps v with
  | nil =>
      refine .inr ⟨fun p hp hmatch => hps.nonempty p hp ?_, rfl⟩
      exact List.prefix_nil.mp hmatch.1
  | cons l h ih =>
      cases h with
      | cons k h => exact .of_inner hps (ih (hps.deeper l) _)
      | nil =>
          have hsingle {q : Pattern α β} (hq : q ∈ ps) := matches_single (l := l) (hps.nonempty q hq)
          cases hexact : exact l ps with
          | none =>
              refine .inr ⟨fun p hp hmatch => ?_, by simp [pick, hexact]⟩
              exact exact_eq_none.mp hexact p hp ((hsingle hp).mp hmatch).1
          | some p =>
              obtain ⟨hp, hlabels⟩ := (exact_eq_some hps).mp hexact
              have hunique (q : Pattern α β) (hq : q ∈ ps) (hmatch : q.Matches [l]) : q = p :=
                hps.eq_of_labels hq hp (((hsingle hq).mp hmatch).1.trans hlabels.symm)
              cases hstrict : p.strict with
              | true =>
                  refine .inr ⟨fun q hq hmatch => ?_, by simp [pick, hexact, hstrict]⟩
                  obtain rfl := hunique q hq hmatch
                  exact absurd ((hsingle hq).mp hmatch).2 (by simp [hstrict])
              | false =>
                  refine .inl ⟨p, hp, (hsingle hp).mpr ⟨hlabels, hstrict⟩, fun q hq hmatch => ?_,
                    by simp [pick, hexact, hstrict]⟩
                  exact Nat.le_of_eq (by rw [hunique q hq hmatch])

omit [DecidableEq α] in
/-! Sorted patterns: those with the same first label come one after the other, the one that
consists of it first. -/

def headIs (l : α) (p : Pattern α β) : Bool := p.labels.head? = some l

/-- Sorted label by label. -/
structure Sorted (r : α → α → Prop) (ps : List (Pattern α β)) : Prop where
  asymm : ∀ a b, r a b → ¬r b a
  sorted : ps.Pairwise fun p q => List.Lex r p.labels q.labels

variable {r : α → α → Prop} {first : Pattern α β} {m : α}

theorem headIs_iff : headIs l p = true ↔ ∃ ls, p.labels = l :: ls := by
  rw [headIs, decide_eq_true_iff]
  cases p.labels <;> simp

theorem headIs_of_tail? (h : tail? l p = some q) : headIs l p = true := by
  obtain ⟨k, ls, hlabels, -⟩ := tail?_eq_some.mp h
  exact headIs_iff.mpr ⟨k :: ls, hlabels⟩

omit [DecidableEq α] in
theorem lex_of_cons {ls ls' : List α} (hr : ∀ a b, r a b → ¬r b a)
    (h : List.Lex r (l :: ls) (l :: ls')) : List.Lex r ls ls' := by
  cases h with
  | cons h => exact h
  | rel h => exact absurd h (hr l l h)

omit [DecidableEq α] in
theorem rel_of_lex {ls ls' : List α} (hne : l ≠ m) (h : List.Lex r (l :: ls) (m :: ls')) : r l m := by
  cases h with
  | cons h => exact absurd rfl hne
  | rel h => exact h

namespace Sorted

omit [DecidableEq α] in
theorem nodup (h : Sorted r ps) : (ps.map (·.labels)).Nodup := by
  refine List.pairwise_map.mpr (h.sorted.imp fun {p q} hlex heq => ?_)
  rw [heq] at hlex
  generalize q.labels = ls at hlex
  induction ls with
  | nil => exact nomatch hlex
  | cons l ls ih => exact ih (lex_of_cons h.asymm hlex)

theorem deeper (h : Sorted r ps) (l : α) : Sorted r (deeper l ps) where
  asymm := h.asymm
  sorted := by
    refine List.Pairwise.filterMap (tail? l) ?_ h.sorted
    intro p q hlex p' hp q' hq
    obtain ⟨k, ls, hlabels, rfl⟩ := tail?_eq_some.mp hp
    obtain ⟨k', ls', hlabels', rfl⟩ := tail?_eq_some.mp hq
    rw [hlabels, hlabels'] at hlex
    exact lex_of_cons h.asymm hlex

theorem ne_single (h : Sorted r (first :: ps)) (hfirst : headIs l first = true) (hq : q ∈ ps) :
    q.labels ≠ [l] := by
  intro hlabels
  have hlex := (List.pairwise_cons.mp h.sorted).1 q hq
  obtain ⟨ls, hls⟩ := headIs_iff.mp hfirst
  rw [hls, hlabels] at hlex
  exact nomatch lex_of_cons h.asymm hlex

omit [DecidableEq α] in
theorem tail (h : Sorted r (first :: ps)) : Sorted r ps :=
  ⟨h.asymm, (List.pairwise_cons.mp h.sorted).2⟩

/-- All that begins with the label is dropped. -/
theorem dropWhile (h : Sorted r (first :: ps)) (hfirst : headIs l first = true)
    (hnonempty : ∀ q ∈ ps, q.labels ≠ []) : ∀ q ∈ ps.dropWhile (headIs l), headIs l q = false := by
  induction ps with
  | nil => exact nofun
  | cons next ps ih =>
      rw [List.dropWhile_cons]
      split_ifs with hnext
      · refine ih ⟨h.asymm, h.sorted.sublist ?_⟩ fun q hq => hnonempty q (List.mem_cons_of_mem _ hq)
        exact List.Sublist.cons_cons _ (List.sublist_cons_self next ps)
      · intro q hq
        rcases List.mem_cons.mp hq with rfl | hq
        · exact Bool.eq_false_iff.mpr hnext
        · by_contra hhead
          obtain ⟨ls, hls⟩ := headIs_iff.mp hfirst
          obtain ⟨ls', hls'⟩ := headIs_iff.mp (eq_true_of_ne_false hhead)
          obtain ⟨m, ms, hms⟩ := List.exists_cons_of_ne_nil (hnonempty next List.mem_cons_self)
          have hne : l ≠ m := fun heq => hnext (headIs_iff.mpr ⟨ms, by rw [heq, hms]⟩)
          obtain ⟨hbefore, hafter⟩ := List.pairwise_cons.mp h.sorted
          have hlm := hbefore next List.mem_cons_self
          have hml := (List.pairwise_cons.mp hafter).1 q hq
          rw [hls, hms] at hlm
          rw [hms, hls'] at hml
          exact h.asymm l m (rel_of_lex hne hlm) (rel_of_lex (Ne.symm hne) hml)

end Sorted

theorem tail?_of_headIs (h : headIs l p = false) : tail? l p = none := by
  cases htail : tail? l p with
  | none => rfl
  | some q => exact absurd (headIs_of_tail? htail) (Bool.eq_false_iff.mp h)

theorem headIs_of_ne (hne : m ≠ l) (h : headIs l p = true) : headIs m p = false := by
  obtain ⟨ls, hls⟩ := headIs_iff.mp h
  simp [headIs, hls, Ne.symm hne]

/-- The longer patterns that begin with the label of the first one. -/
theorem deeper_cons (h : Sorted r (first :: ps)) (hfirst : headIs l first = true)
    (hnonempty : ∀ q ∈ ps, q.labels ≠ []) : Pattern.deeper l (first :: ps) =
      (tail? l first).toList ++ Pattern.deeper l (ps.takeWhile (headIs l)) := by
  have hrest : Pattern.deeper l (ps.dropWhile (headIs l)) = [] :=
    List.filterMap_eq_nil_iff.mpr fun q hq => tail?_of_headIs (h.dropWhile hfirst hnonempty q hq)
  have hsplit : Pattern.deeper l ps = Pattern.deeper l (ps.takeWhile (headIs l)) := by
    conv_lhs => rw [← List.takeWhile_append_dropWhile (p := headIs l) (l := ps)]
    rw [Pattern.deeper, List.filterMap_append]
    exact (congrArg _ hrest).trans (List.append_nil _)
  rw [← hsplit, Pattern.deeper, List.filterMap_cons]
  cases tail? l first <;> rfl

theorem exact_cons (h : Sorted r (first :: ps)) (hfirst : headIs l first = true) :
    exact l (first :: ps) = if first.labels = [l] then some first else none := by
  rw [exact, List.find?_cons]
  by_cases hlabels : first.labels = [l]
  · simp [hlabels]
  · have hnone := exact_eq_none.mpr fun q hq => h.ne_single hfirst hq
    rw [exact] at hnone
    simp [hlabels, hnone]

/-- For another label only the patterns after them count. -/
theorem deeper_dropWhile (hfirst : headIs l first = true) (hne : m ≠ l) :
    Pattern.deeper m (first :: ps) = Pattern.deeper m (ps.dropWhile (headIs l)) := by
  have hrun : Pattern.deeper m (ps.takeWhile (headIs l)) = [] :=
    List.filterMap_eq_nil_iff.mpr fun q hq =>
      tail?_of_headIs (headIs_of_ne hne (List.mem_takeWhile_imp hq))
  rw [Pattern.deeper, List.filterMap_cons, tail?_of_headIs (headIs_of_ne hne hfirst)]
  conv_lhs => rw [← List.takeWhile_append_dropWhile (p := headIs l) (l := ps)]
  rw [List.filterMap_append]
  exact congrArg (· ++ _) hrun

theorem exact_dropWhile (hfirst : headIs l first = true) (hne : m ≠ l) :
    exact m (first :: ps) = exact m (ps.dropWhile (headIs l)) := by
  have hother (q : Pattern α β) (hq : headIs l q = true) : q.labels ≠ [m] := by
    intro hlabels
    exact Bool.eq_false_iff.mp (headIs_of_ne hne hq) (headIs_iff.mpr ⟨[], hlabels⟩)
  have hrun : exact m (ps.takeWhile (headIs l)) = none :=
    exact_eq_none.mpr fun q hq => hother q (List.mem_takeWhile_imp hq)
  rw [exact] at hrun
  rw [exact, List.find?_cons_of_neg (by simpa using hother first hfirst)]
  conv_lhs => rw [← List.takeWhile_append_dropWhile (p := headIs l) (l := ps)]
  rw [List.find?_append, hrun]
  rfl

end Pattern

end RebuildTheWheel.Data
