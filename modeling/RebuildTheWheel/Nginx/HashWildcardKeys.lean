import RebuildTheWheel.Nginx.HashWildcardFind

namespace RebuildTheWheel.Nginx

open Data Data.Pattern
open Data.Ascii (point)

/-! The keys of the patterns, and how `ngx_hash_wildcard_init` splits them. -/

structure Label (l : Bytes) : Prop where
  nonempty : l ≠ []
  point : point ∉ l
  nul : 0 ∉ l
  lower : l.map ngxTolower = l

/-- The labels with the last one first, and a dot after them for `*.S`. -/
def headKey (strict : Bool) : List Bytes → Bytes
  | [] => []
  | l :: ls => l ++ if ls = [] ∧ strict = false then [] else point :: headKey strict ls

def toName (p : HostPattern) : WildcardName := ⟨headKey p.strict p.labels, p.value⟩

/-- The patterns as they are passed. -/
structure Listed (r : Bytes → Bytes → Prop) (ps : List HostPattern) : Prop where
  nonempty : ∀ p ∈ ps, p.labels ≠ []
  labels : ∀ p ∈ ps, ∀ l ∈ p.labels, Label l
  marked : ∀ p ∈ ps, Wildcard.Marked p
  sorted : Sorted r ps

theorem Listed.deeper {r : Bytes → Bytes → Prop} {ps : List HostPattern} (h : Listed r ps)
    (l : Bytes) : Listed r (deeper l ps) where
  nonempty q hq := by
    obtain ⟨p, -, k, ls, -, rfl⟩ := mem_deeper.mp hq
    exact List.cons_ne_nil k ls
  labels q hq m hm := by
    obtain ⟨p, hp, k, ls, hlabels, rfl⟩ := mem_deeper.mp hq
    exact h.labels p hp m (by rw [hlabels]; exact List.mem_cons_of_mem l hm)
  marked := Wildcard.marked_deeper h.marked l
  sorted := h.sorted.deeper l

theorem Listed.sublist {r : Bytes → Bytes → Prop} {ps ps' : List HostPattern} (h : Listed r ps)
    (hsub : ps'.Sublist ps) : Listed r ps' where
  nonempty p hp := h.nonempty p (hsub.subset hp)
  labels p hp := h.labels p (hsub.subset hp)
  marked p hp := h.marked p (hsub.subset hp)
  sorted := ⟨h.sorted.asymm, h.sorted.sorted.sublist hsub⟩

namespace Wildcard

variable {strict : Bool} {l m : Bytes} {ls ms : List Bytes} {p q first : HostPattern}
  {ps : List HostPattern} {r : Bytes → Bytes → Prop}

/-! The first label of a key. -/

theorem headKey_ne_nil (hl : l ≠ []) (strict : Bool) (ls : List Bytes) : headKey strict (l :: ls) ≠ [] := by
  rw [headKey]
  exact List.append_ne_nil_of_left_ne_nil hl _

theorem headKey_alone : headKey false [l] = l := by
  rw [headKey, if_pos ⟨rfl, rfl⟩, List.append_nil]

theorem headKey_dot (h : ls ≠ [] ∨ strict = true) :
    headKey strict (l :: ls) = l ++ point :: headKey strict ls := by
  rw [headKey, if_neg]
  rintro ⟨rfl, rfl⟩
  exact h.elim (absurd rfl) (absurd · (by decide))

theorem alone_or_dot (strict : Bool) (ls : List Bytes) :
    (ls = [] ∧ strict = false) ∨ (ls ≠ [] ∨ strict = true) := by
  cases ls <;> cases strict <;> simp

theorem label_headKey (hl : point ∉ l) (strict : Bool) (ls : List Bytes) :
    label (headKey strict (l :: ls)) = l := by
  rcases alone_or_dot strict ls with ⟨rfl, rfl⟩ | hdot
  · rw [headKey_alone]
    exact takeWhile_of_notMem hl
  · rw [headKey_dot hdot]
    exact takeWhile_append_point hl _

theorem hasDot_headKey (hl : point ∉ l) :
    hasDot (headKey strict (l :: ls)) = true ↔ ls ≠ [] ∨ strict = true := by
  rw [hasDot, decide_eq_true_iff]
  rcases alone_or_dot strict ls with ⟨rfl, rfl⟩ | hdot
  · rw [headKey_alone]
    simp [hl]
  · rw [headKey_dot hdot]
    simp [hdot]

theorem labelLen_alone (hl : point ∉ l) : labelLen (headKey false [l]) = l.length := by
  rw [labelLen, label_headKey hl, if_neg]
  · rfl
  · rw [hasDot_headKey hl]
    simp

theorem labelLen_dot (hl : point ∉ l) (h : ls ≠ [] ∨ strict = true) :
    labelLen (headKey strict (l :: ls)) = l.length + 1 := by
  rw [labelLen, label_headKey hl, if_pos ((hasDot_headKey hl).mpr h)]

theorem length_headKey_eq (hl : point ∉ l) (hls : ∀ m ∈ ls, m ≠ []) (strict : Bool) :
    (headKey strict (l :: ls)).length = labelLen (headKey strict (l :: ls)) ↔ ls = [] := by
  rcases alone_or_dot strict ls with ⟨rfl, rfl⟩ | hdot
  · rw [labelLen_alone hl, headKey_alone]
    simp
  · rw [labelLen_dot hl hdot, headKey_dot hdot, List.length_append, List.length_cons]
    cases ls with
    | nil => simp [headKey]
    | cons k ls =>
        have hlength := List.length_pos_iff.mpr (headKey_ne_nil (hls k List.mem_cons_self) strict ls)
        simp only [reduceCtorEq, iff_false]
        omega

theorem drop_headKey (h : ls ≠ [] ∨ strict = true) :
    (headKey strict (l :: ls)).drop (l.length + 1) = headKey strict ls := by
  rw [headKey_dot h, List.append_cons, List.drop_left' (by simp)]

theorem remainder_toName (hp : p.labels = l :: ls) (hlabels : ∀ m ∈ p.labels, Label m) :
    remainder (toName p) = ((tail? l p).toList).map toName := by
  rw [hp, List.forall_mem_cons] at hlabels
  obtain ⟨hl, hls⟩ := hlabels
  have hlength := length_headKey_eq hl.point (fun m hm => (hls m hm).nonempty) p.strict
  rw [remainder, toName, hp]
  simp only [ne_eq, hlength]
  cases ls with
  | nil =>
      have htail : tail? l p = none := by rw [tail?, hp]
      rw [htail, if_neg (not_not.mpr rfl)]
      rfl
  | cons k ls =>
      have htail : tail? l p = some { p with labels := k :: ls } :=
        tail?_eq_some.mpr ⟨k, ls, hp, rfl⟩
      have hdot : k :: ls ≠ [] ∨ p.strict = true := .inl (List.cons_ne_nil k ls)
      rw [htail, if_pos (List.cons_ne_nil k ls), labelLen_dot hl.point hdot, drop_headKey hdot]
      rfl

/-! The names that begin with the label. -/

theorem strncmpEq_iff {n : Nat} {s t : Bytes} (hn : n ≤ s.length) (hnul : 0 ∉ s.take n) :
    strncmpEq n s t = true ↔ s.take n = t.take n := by
  induction n generalizing s t with
  | zero => simp [strncmpEq]
  | succ n ih =>
      cases s with
      | nil => exact absurd hn (Nat.not_succ_le_zero n)
      | cons c s =>
          rw [List.take_succ_cons, List.mem_cons, not_or] at hnul
          have hne := Ne.symm hnul.1
          cases t with
          | nil => simp [strncmpEq, hne]
          | cons d t =>
              have htail := ih (t := t) (Nat.le_of_succ_le_succ hn) hnul.2
              simp [strncmpEq, hne, htail]

theorem take_labelLen (hl : point ∉ l) (strict : Bool) (ls : List Bytes) :
    labelLen (headKey strict (l :: ls)) ≤ (headKey strict (l :: ls)).length ∧
      (headKey strict (l :: ls)).take (labelLen (headKey strict (l :: ls))) =
        if hasDot (headKey strict (l :: ls)) then l ++ [point] else l := by
  rcases alone_or_dot strict ls with ⟨rfl, rfl⟩ | hdot
  · rw [labelLen_alone hl, if_neg (by rw [hasDot_headKey hl]; simp), headKey_alone]
    exact ⟨Nat.le_refl _, List.take_length⟩
  · rw [labelLen_dot hl hdot, if_pos ((hasDot_headKey hl).mpr hdot), headKey_dot hdot]
    refine ⟨by simp, ?_⟩
    rw [List.append_cons, List.take_left' (by simp)]

theorem strncmpEq_headKey (hl : Label l) (strict : Bool) (ls : List Bytes) (t : Bytes) :
    strncmpEq (labelLen (headKey strict (l :: ls))) (headKey strict (l :: ls)) t = true ↔
      t.take (labelLen (headKey strict (l :: ls))) =
        if hasDot (headKey strict (l :: ls)) then l ++ [point] else l := by
  obtain ⟨hlength, htake⟩ := take_labelLen hl.point strict ls
  rw [strncmpEq_iff hlength, htake, eq_comm]
  rw [htake]
  split_ifs
  · rw [List.mem_append, not_or]
    exact ⟨hl.nul, by decide⟩
  · exact hl.nul

/-- A name with the label and a dot is among the next ones. -/
theorem same_label (hl : Label l) (strict : Bool) (ls : List Bytes) (rest : Bytes) :
    strncmpEq (labelLen (headKey strict (l :: ls))) (headKey strict (l :: ls)) (l ++ point :: rest) =
        true ∧
      (hasDot (headKey strict (l :: ls)) = false →
        (l ++ point :: rest).getD (labelLen (headKey strict (l :: ls))) 0 = point) := by
  rw [strncmpEq_headKey hl]
  rcases alone_or_dot strict ls with ⟨rfl, rfl⟩ | hdot
  · have hnone : hasDot (headKey false [l]) = false := by
      rw [Bool.eq_false_iff, Ne, hasDot_headKey hl.point]
      simp
    rw [labelLen_alone hl.point, hnone]
    simp
  · rw [(hasDot_headKey hl.point).mpr hdot, labelLen_dot hl.point hdot, if_pos rfl, List.append_cons]
    exact ⟨List.take_left' (by simp), nofun⟩

/-- A name with another label is not. -/
theorem other_label (hl : Label l) (hne : m ≠ l) (strict : Bool) (ls : List Bytes) {t : Bytes}
    (ht : label t = m)
    (hsame : strncmpEq (labelLen (headKey strict (l :: ls))) (headKey strict (l :: ls)) t = true) :
    hasDot (headKey strict (l :: ls)) = false ∧ labelLen (headKey strict (l :: ls)) < t.length ∧
      t.getD (labelLen (headKey strict (l :: ls))) 0 ≠ point := by
  rw [strncmpEq_headKey hl] at hsame
  have hsplit := List.take_append_drop (labelLen (headKey strict (l :: ls))) t
  rw [hsame] at hsplit
  rcases alone_or_dot strict ls with ⟨rfl, rfl⟩ | hdot
  · have hnone : hasDot (headKey false [l]) = false := by
      rw [Bool.eq_false_iff, Ne, hasDot_headKey hl.point]
      simp
    refine ⟨hnone, ?_⟩
    rw [hnone, labelLen_alone hl.point] at hsplit
    rw [labelLen_alone hl.point]
    cases hrest : t.drop l.length with
    | nil =>
        rw [hrest] at hsplit
        obtain rfl : l = t := by simpa using hsplit
        exact absurd (ht.symm.trans (takeWhile_of_notMem hl.point)) hne
    | cons c rest =>
        rw [hrest] at hsplit
        obtain rfl : l ++ c :: rest = t := by simpa using hsplit
        refine ⟨by simp, fun hc => hne (ht.symm.trans ?_)⟩
        obtain rfl : c = point := by simpa using hc
        exact takeWhile_append_point hl.point rest
  · rw [(hasDot_headKey hl.point).mpr hdot, if_pos rfl, List.append_assoc] at hsplit
    refine absurd (ht.symm.trans ?_) hne
    rw [← hsplit]
    exact takeWhile_append_point hl.point _

/-- The patterns that begin with the label, without it, and those after them. -/
theorem nextNames_spec (hfirst : first.labels = l :: ls) (hl : Label l)
    (hnonempty : ∀ q ∈ ps, q.labels ≠ []) (hsingle : ∀ q ∈ ps, q.labels ≠ [l])
    (hlabels : ∀ q ∈ ps, ∀ m ∈ q.labels, Label m) :
    nextNames (toName first) (ps.map toName) =
      .ok ((deeper l (ps.takeWhile (headIs l))).map toName, (ps.dropWhile (headIs l)).map toName) := by
  induction ps with
  | nil => rfl
  | cons q ps ih =>
      have hnext := ih (fun q' hq' => hnonempty q' (List.mem_cons_of_mem q hq'))
        (fun q' hq' => hsingle q' (List.mem_cons_of_mem q hq'))
        (fun q' hq' => hlabels q' (List.mem_cons_of_mem q hq'))
      have hfirstKey : (toName first).key = headKey first.strict (l :: ls) := by
        rw [toName, hfirst]
      rw [List.map_cons, nextNames, hfirstKey, label_headKey hl.point]
      by_cases hq : headIs l q = true
      · obtain ⟨ms, hms⟩ := headIs_iff.mp hq
        cases ms with
        | nil => exact absurd hms (hsingle q List.mem_cons_self)
        | cons k ms =>
            have htail : tail? l q = some { q with labels := k :: ms } :=
              tail?_eq_some.mpr ⟨k, ms, hms, rfl⟩
            have hdot' : k :: ms ≠ [] ∨ q.strict = true := .inl (List.cons_ne_nil k ms)
            have hkey : (toName q).key = l ++ point :: headKey q.strict (k :: ms) := by
              rw [toName, hms, headKey_dot hdot']
            obtain ⟨hsame, hdot⟩ := same_label hl first.strict ls (headKey q.strict (k :: ms))
            have hdeeper : deeper l (q :: ps.takeWhile (headIs l)) =
                { q with labels := k :: ms } :: deeper l (ps.takeWhile (headIs l)) :=
              List.filterMap_cons_some htail
            have hdrop : (l ++ point :: headKey q.strict (k :: ms)).drop (l.length + 1) =
                headKey q.strict (k :: ms) := by
              rw [← headKey_dot hdot', drop_headKey hdot']
            rw [hkey, hsame, hnext, List.takeWhile_cons_of_pos hq, List.dropWhile_cons_of_pos hq,
              hdeeper]
            rw [if_neg (by decide), if_neg, if_neg]
            · simp only [hdrop]
              rfl
            · simp
            · rintro hbreak
              simp only [Bool.and_eq_true, Bool.not_eq_true', decide_eq_true_eq] at hbreak
              exact hbreak.2 (hdot hbreak.1.1)
      · obtain ⟨m, ms, hms⟩ := List.exists_cons_of_ne_nil (hnonempty q List.mem_cons_self)
        have hne : m ≠ l := fun heq => hq (headIs_iff.mpr ⟨ms, by rw [hms, heq]⟩)
        have hm := hlabels q List.mem_cons_self m (by rw [hms]; exact List.mem_cons_self)
        have hlabel : label (toName q).key = m := by
          rw [toName, hms, label_headKey hm.point]
        rw [List.takeWhile_cons_of_neg hq, List.dropWhile_cons_of_neg hq]
        cases hsame : strncmpEq (labelLen (headKey first.strict (l :: ls)))
            (headKey first.strict (l :: ls)) (toName q).key with
        | false =>
            rw [if_pos (by decide)]
            rfl
        | true =>
            obtain ⟨hdot, hlength, hother⟩ := other_label hl hne first.strict ls hlabel hsame
            rw [if_neg (by decide), if_pos]
            · rfl
            · rw [hdot, Bool.not_false, Bool.true_and, decide_eq_true hlength]
              exact decide_eq_true hother

end Wildcard

end RebuildTheWheel.Nginx
