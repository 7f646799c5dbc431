import RebuildTheWheel.Data.LongestMatch
import RebuildTheWheel.Nginx.Hash

namespace RebuildTheWheel.Nginx

open Data Data.Pattern
open Data.Ascii (point)

/-! What `ngx_hash_find_wc_head` finds in tables that represent patterns. Patterns and names are
given by their labels, the last one first. -/

/-- `strict` tells `*.S` from `.S`. -/
abbrev HostPattern := Pattern Bytes UInt64

def hostName : List Bytes → Bytes
  | [] => []
  | [l] => l
  | l :: k :: h => hostName (k :: h) ++ point :: l

namespace Wildcard

/-- The value of a pattern is a pointer, with two low bits for marks. -/
structure Marked (p : HostPattern) : Prop where
  value : p.value ≠ 0
  aligned : p.value &&& 3 = 0

/-- The mark of a pointer to a table: 2 if the name itself has a value, too. -/
def tableMark (l : Bytes) (ps : List HostPattern) : UInt64 :=
  if (exact l ps).any fun p => !p.strict then 2 else 3

/-- What a table holds for a label. -/
structure Coded (tables : UInt64 → Option WildcardTable) (address : Nat → UInt64) (bound : Nat)
    (represents : List HostPattern → WildcardTable → Prop) (ps : List HostPattern) (l : Bytes)
    (code : UInt64) : Prop where
  flat : deeper l ps = [] →
    code = ((exact l ps).map fun p => if p.strict then p.value ||| 1 else p.value).getD 0
  table : deeper l ps ≠ [] → ∃ i < bound, ∃ t, tables (address i) = some t ∧
    t.value = best l ps 0 ∧ code = address i ||| tableMark l ps ∧ represents (deeper l ps) t

/-- A table for patterns, with the tables below it among the first `bound` ones. -/
def Represents (tables : UInt64 → Option WildcardTable) (address : Nat → UInt64) (bound : Nat) :
    Nat → List HostPattern → WildcardTable → Prop
  | 0, _, _ => False
  | depth + 1, ps, t => ∀ l, ∃ code, hashFind t.hash (ngxHashKey l) l = some code ∧
      Coded tables address bound (Represents tables address bound depth) ps l code

variable {tables tables' : UInt64 → Option WildcardTable} {address : Nat → UInt64}
  {bound bound' depth : Nat} {ps : List HostPattern} {t : WildcardTable} {l : Bytes} {h : List Bytes}

/-! Pointers and marks. -/

theorem or_and_right (a mark m : UInt64) : (a ||| mark) &&& m = (a &&& m) ||| (mark &&& m) := by
  rw [← UInt64.toBitVec_inj]
  exact BitVec.and_or_distrib_right

theorem and_of_aligned {a m : UInt64} (ha : a &&& 3 = 0) (hm : 3 &&& m = m) : a &&& m = 0 := by
  rw [← hm, ← UInt64.and_assoc, ha]
  exact UInt64.zero_and

theorem mark_and {a mark m : UInt64} (ha : a &&& 3 = 0) (hm : 3 &&& m = m) :
    (a ||| mark) &&& m = mark &&& m := by
  rw [or_and_right, and_of_aligned ha hm, UInt64.zero_or]

theorem pointer_and {a mark : UInt64} (ha : a &&& 3 = 0) (hmark : mark &&& ~~~3 = 0) :
    (a ||| mark) &&& ~~~3 = a := by
  have hfull : (3 : UInt64) ||| ~~~3 = -1 := by decide
  have hself : (3 ||| ~~~3) &&& a = a := by
    rw [hfull, UInt64.and_comm]
    exact UInt64.and_neg_one
  rw [or_and_right, UInt64.and_comm, ha, UInt64.zero_or, UInt64.and_comm] at hself
  rw [or_and_right, hmark, UInt64.or_zero, hself]

theorem tableMark_and (l : Bytes) (ps : List HostPattern) : tableMark l ps &&& ~~~3 = 0 := by
  unfold tableMark
  split_ifs <;> decide

theorem tableMark_two (l : Bytes) (ps : List HostPattern) : tableMark l ps &&& 2 = 2 := by
  unfold tableMark
  split_ifs <;> decide

/-! Names. -/

theorem takeWhile_append_point {s : Bytes} (hs : point ∉ s) (rest : Bytes) :
    (s ++ point :: rest).takeWhile (· ≠ point) = s := by
  induction s with
  | nil => rfl
  | cons c s ih =>
      rw [List.mem_cons, not_or] at hs
      rw [List.cons_append, List.takeWhile_cons_of_pos (by simpa using Ne.symm hs.1), ih hs.2]

theorem takeWhile_of_notMem {s : Bytes} (hs : point ∉ s) : s.takeWhile (· ≠ point) = s := by
  induction s with
  | nil => rfl
  | cons c s ih =>
      rw [List.mem_cons, not_or] at hs
      rw [List.takeWhile_cons_of_pos (by simpa using Ne.symm hs.1), ih hs.2]

theorem lastLabel_hostName (hl : point ∉ l) (h : List Bytes) : lastLabel (hostName (l :: h)) = l := by
  have hreverse : point ∉ l.reverse := fun hmem => hl (List.mem_reverse.mp hmem)
  unfold lastLabel
  cases h with
  | nil => rw [hostName, takeWhile_of_notMem hreverse, List.reverse_reverse]
  | cons k h =>
      rw [hostName, List.reverse_append, List.reverse_cons, List.append_assoc,
        List.singleton_append, takeWhile_append_point hreverse, List.reverse_reverse]

/-! The values that are picked. -/

theorem marked_deeper (hps : ∀ p ∈ ps, Marked p) (l : Bytes) : ∀ p ∈ deeper l ps, Marked p := by
  intro q hq
  obtain ⟨p, hp, k, ls, -, rfl⟩ := mem_deeper.mp hq
  exact ⟨(hps p hp).value, (hps p hp).aligned⟩

/-- Where nothing matches, the value so far is picked. -/
theorem pick_eq (hps : ∀ p ∈ ps, Marked p) (v : UInt64) (h : List Bytes) :
    pick ps v h = if pick ps 0 h = 0 then v else pick ps 0 h := by
  induction h generalizing ps v with
  | nil => exact (if_pos rfl).symm
  | cons l h ih =>
      cases h with
      | nil =>
          cases hexact : exact l ps with
          | none => simp [pick, hexact]
          | some p =>
              have hvalue := (hps p (List.mem_of_find?_eq_some hexact)).value
              cases hstrict : p.strict <;> simp [pick, hexact, hstrict, hvalue]
      | cons k h =>
          have hdeeper := marked_deeper hps l
          rw [pick, pick]
          cases hexact : exact l ps with
          | none =>
              have hbest (v : UInt64) : best l ps v = v := by simp [best, hexact]
              rw [hbest, hbest]
              exact ih hdeeper v
          | some p =>
              have hbest (v : UInt64) : best l ps v = p.value := by simp [best, hexact]
              have hvalue := (hps p (List.mem_of_find?_eq_some hexact)).value
              have hne : pick (deeper l ps) p.value (k :: h) ≠ 0 := by
                rw [ih hdeeper]
                split_ifs with hzero
                · exact hvalue
                · exact hzero
              rw [hbest, hbest, if_neg hne]

/-- `NULL` stands for the value of the table. -/
def Resolves (x v picked : UInt64) : Prop := picked = if x = 0 then v else x

theorem pick_flat (hdeeper : deeper l ps = []) (v : UInt64) (h : List Bytes) :
    pick ps v (l :: h) =
      if h = [] then ((exact l ps).map fun p => if p.strict then v else p.value).getD v
      else best l ps v := by
  cases h with
  | nil => rfl
  | cons k h =>
      have hnone : ∀ h, pick ([] : List HostPattern) (best l ps v) h = best l ps v := by
        intro h
        induction h with
        | nil => rfl
        | cons k h ih =>
            cases h with
            | nil => rfl
            | cons j h => exact ih
      rw [pick, hdeeper, hnone, if_neg (List.cons_ne_nil k h)]

variable {find : WildcardTable → Option UInt64} {code : UInt64} {n : Nat}

/-- The last label is found without a table below it. -/
theorem ofValue_flat (hps : ∀ p ∈ ps, Marked p) (hdeeper : deeper l ps = [])
    (hcode : code = ((exact l ps).map fun p => if p.strict then p.value ||| 1 else p.value).getD 0)
    (hn : n = 0 ↔ h = []) :
    ∃ x, ofValue tables find t n code = some x ∧ Resolves x t.value (pick ps t.value (l :: h)) := by
  rw [pick_flat hdeeper, ofValue]
  cases hexact : exact l ps with
  | none =>
      obtain rfl : code = 0 := by rw [hcode, hexact]; rfl
      refine ⟨t.value, if_pos rfl, ?_⟩
      simp [Resolves, best, hexact]
  | some p =>
      have hp := hps p (List.mem_of_find?_eq_some hexact)
      have hbest : best l ps t.value = p.value := by simp [best, hexact]
      cases hstrict : p.strict with
      | false =>
          obtain rfl : code = p.value := by simp [hcode, hexact, hstrict]
          rw [if_neg hp.value, and_of_aligned hp.aligned (by decide), if_neg (by simp),
            and_of_aligned hp.aligned (by decide), if_neg (by simp)]
          refine ⟨p.value, rfl, ?_⟩
          simp [Resolves, hstrict, hbest, hp.value]
      | true =>
          obtain rfl : code = p.value ||| 1 := by simp [hcode, hexact, hstrict]
          have hne : p.value ||| 1 ≠ 0 := fun h => hp.value (UInt64.or_eq_zero_iff.mp h).1
          have htwo : (p.value ||| 1) &&& 2 = 0 := mark_and hp.aligned (by decide)
          have hone : (p.value ||| 1) &&& 1 = 1 := mark_and hp.aligned (by decide)
          rw [if_neg hne, htwo, if_neg (by simp), hone, if_pos (by decide),
            pointer_and hp.aligned (by decide)]
          by_cases hh : h = []
          · refine ⟨0, if_pos (hn.mpr hh), ?_⟩
            simp [Resolves, hstrict, hh]
          · refine ⟨p.value, if_neg fun h => hh (hn.mp h), ?_⟩
            simp [Resolves, hh, hbest, hp.value]

/-- A name that ends at the label has a value of its own, or none. -/
theorem pick_mark (hps : ∀ p ∈ ps, Marked p) (v : UInt64) :
    Resolves (if tableMark l ps &&& 1 ≠ 0 then 0 else best l ps 0) v (pick ps v [l]) := by
  cases hexact : exact l ps with
  | none =>
      have hmark : tableMark l ps = 3 := by simp [tableMark, hexact]
      rw [hmark, if_pos (by decide)]
      simp [Resolves, pick, hexact]
  | some p =>
      have hp := hps p (List.mem_of_find?_eq_some hexact)
      cases hstrict : p.strict with
      | false =>
          have hmark : tableMark l ps = 2 := by simp [tableMark, hexact, hstrict]
          rw [hmark, if_neg (by decide)]
          simp [Resolves, pick, best, hexact, hstrict, hp.value]
      | true =>
          have hmark : tableMark l ps = 3 := by simp [tableMark, hexact, hstrict]
          rw [hmark, if_pos (by decide)]
          simp [Resolves, pick, hexact, hstrict]

/-- What the table below resolves to is resolved further with the value of this one. -/
theorem resolves_inner (hps : ∀ p ∈ ps, Marked p) (hh : h ≠ []) (v : UInt64) {x : UInt64}
    (hx : Resolves x (best l ps 0) (pick (deeper l ps) (best l ps 0) h)) :
    Resolves (if x ≠ 0 then x else best l ps 0) v (pick ps v (l :: h)) := by
  have hpick : pick ps v (l :: h) = pick (deeper l ps) (best l ps v) h := by
    cases h with
    | nil => exact absurd rfl hh
    | cons k h => rfl
  have hy : (if x ≠ 0 then x else best l ps 0) = pick (deeper l ps) (best l ps 0) h := by
    rw [hx, ite_not]
  rw [Resolves, hpick, hy, pick_eq (marked_deeper hps l) (best l ps v),
    pick_eq (marked_deeper hps l) (best l ps 0)]
  cases hexact : exact l ps with
  | none =>
      have hbest (v : UInt64) : best l ps v = v := by simp [best, hexact]
      rw [hbest, hbest]
      by_cases hzero : pick (deeper l ps) 0 h = 0
      · rw [if_pos hzero, if_pos hzero, if_pos rfl]
      · rw [if_neg hzero, if_neg hzero, if_neg hzero]
  | some p =>
      have hp := hps p (List.mem_of_find?_eq_some hexact)
      have hbest (v : UInt64) : best l ps v = p.value := by simp [best, hexact]
      rw [hbest, hbest]
      split_ifs with hzero hvalue
      · exact absurd hvalue hp.value
      · rfl
      · rfl

/-- The last label leads to the table `inner`. -/
theorem ofValue_table {a : UInt64} {inner : WildcardTable} (hps : ∀ p ∈ ps, Marked p)
    (ha : a &&& 3 = 0) (htable : tables a = some inner) (hvalue : inner.value = best l ps 0)
    (hcode : code = a ||| tableMark l ps) (hn : n = 0 ↔ h = [])
    (hfind : h ≠ [] → ∃ x, find inner = some x ∧
      Resolves x inner.value (pick (deeper l ps) inner.value h)) :
    ∃ x, ofValue tables find t n code = some x ∧ Resolves x t.value (pick ps t.value (l :: h)) := by
  have htwo : code &&& 2 = 2 := by
    rw [hcode, mark_and ha (by decide), tableMark_two]
  have hzero : code ≠ 0 := by
    rintro rfl
    rw [UInt64.zero_and] at htwo
    exact absurd htwo (by decide)
  have hpointer : code &&& ~~~3 = a := by
    rw [hcode, pointer_and ha (tableMark_and l ps)]
  have hone : code &&& 1 = tableMark l ps &&& 1 := by
    rw [hcode, mark_and ha (by decide)]
  rw [ofValue, if_neg hzero, htwo, if_pos (by decide), hpointer, htable, Option.bind_eq_bind,
    Option.bind_some, hone, hvalue]
  by_cases hh : h = []
  · refine ⟨if tableMark l ps &&& 1 ≠ 0 then 0 else best l ps 0, ?_, ?_⟩
    · rw [if_pos (hn.mpr hh)]
      split_ifs <;> rfl
    · rw [hh]
      exact pick_mark hps t.value
  · obtain ⟨x, hx, hresolves⟩ := hfind hh
    refine ⟨if x ≠ 0 then x else best l ps 0, ?_, ?_⟩
    · rw [if_neg fun h => hh (hn.mp h), hx, Option.bind_eq_bind, Option.bind_some]
      split_ifs <;> rfl
    · exact resolves_inner hps hh t.value (hvalue ▸ hresolves)

theorem length_sub_lastLabel (l : Bytes) (h : List Bytes) :
    ((hostName (l :: h)).length - l.length = 0 ↔ h = []) ∧
      (h ≠ [] → (hostName (l :: h)).take ((hostName (l :: h)).length - l.length - 1) = hostName h) := by
  cases h with
  | nil => simp [hostName]
  | cons k h =>
      have hlength : (hostName (l :: k :: h)).length - l.length = (hostName (k :: h)).length + 1 := by
        simp only [hostName, List.length_append, List.length_cons]
        omega
      rw [hlength]
      refine ⟨by simp, fun _ => ?_⟩
      rw [Nat.add_sub_cancel, hostName, List.take_left]

theorem wcHeadFind_spec {fuel : Nat} (haddress : ∀ i < bound, address i &&& 3 = 0)
    (hrep : Represents tables address bound depth ps t) (hps : ∀ p ∈ ps, Marked p) (hne : h ≠ [])
    (hpoint : ∀ l ∈ h, point ∉ l) (hfuel : h.length < fuel) :
    ∃ x, wcHeadFind tables fuel t (hostName h) = some x ∧ Resolves x t.value (pick ps t.value h) := by
  induction h generalizing depth ps t fuel with
  | nil => exact absurd rfl hne
  | cons l h ih =>
      obtain ⟨fuel, rfl⟩ := Nat.exists_eq_succ_of_ne_zero (Nat.ne_zero_of_lt hfuel)
      cases depth with
      | zero => exact hrep.elim
      | succ depth =>
          obtain ⟨code, hcode, hcoded⟩ := hrep l
          have hl := lastLabel_hostName (hpoint l List.mem_cons_self) h
          obtain ⟨hn, htake⟩ := length_sub_lastLabel l h
          rw [wcHeadFind]
          simp only [hl, hcode, Option.bind_eq_bind, Option.bind_some]
          by_cases hdeeper : deeper l ps = []
          · exact ofValue_flat hps hdeeper (hcoded.flat hdeeper) hn
          · obtain ⟨i, hi, inner, htable, hvalue, hpointer, hinner⟩ := hcoded.table hdeeper
            refine ofValue_table hps (haddress i hi) htable hvalue hpointer hn fun hh => ?_
            rw [htake hh]
            exact ih hinner (marked_deeper hps l) hh
              (fun k hk => hpoint k (List.mem_cons_of_mem l hk)) (Nat.lt_of_succ_lt_succ hfuel)

end Wildcard

end RebuildTheWheel.Nginx
