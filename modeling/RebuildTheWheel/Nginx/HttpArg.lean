import Mathlib.Data.List.TakeWhile
import RebuildTheWheel.Data.Ascii
import RebuildTheWheel.Data.Scan

namespace RebuildTheWheel.Nginx

open Data Data.Ascii
open Data.Scan (First)

/-! `ngx_http_arg`, with `ngx_strlcasestrn` and `ngx_strncasecmp`. A result is `none` where a byte
outside of a string is read. A pointer into the arguments is an offset. -/

namespace HttpArg

abbrev ampersand : UInt8 := 38
abbrev equals : UInt8 := 61

/-- `(c >= 'A' && c <= 'Z') ? (c | 0x20) : c` -/
def lower (c : UInt8) : UInt8 := if 65 ≤ c ∧ c ≤ 90 then c ||| 0x20 else c

/-- A NUL in both strings ends them. -/
def strncasecmp : Bytes → Bytes → Nat → Option Int
  | _, _, 0 => some 0
  | c1 :: s1, c2 :: s2, n + 1 =>
      if lower c1 = lower c2 then
        if lower c1 ≠ 0 then strncasecmp s1 s2 n else some 0
      else some ((lower c1).toNat - (lower c2).toNat)
  | _, _, _ + 1 => none

/-- The loops of `ngx_strlcasestrn`, when `left` bytes are left before `last`. -/
def scan (args : Bytes) (c2 : UInt8) (s2 : Bytes) (n : Nat) : Nat → Nat → Option (Option Nat)
  | 0, _ => some none
  | left + 1, s1 => do
      let c1 ← args[s1]?
      if lower c1 = c2 then
        let order ← strncasecmp (args.drop (s1 + 1)) s2 n
        if order = 0 then some (some s1) else scan args c2 s2 n left (s1 + 1)
      else scan args c2 s2 n left (s1 + 1)

def strlcasestrn (args : Bytes) (s1 : Nat) (last : Int) (s2 : Bytes) (n : Nat) :
    Option (Option Nat) :=
  match s2 with
  | [] => none
  | c2 :: s2 => scan args (lower c2) s2 n (last - n - s1).toNat s1

/-- `ngx_strlchr` up to the end of the arguments. -/
def strlchr (args : Bytes) (p : Nat) (c : UInt8) : Option Nat :=
  ((args.drop p).findIdx? (· = c)).map (p + ·)

/-- `p == r->args.data || *(p - 1) == '&'` -/
def startsAt (args : Bytes) (p : Nat) : Option Bool :=
  if p = 0 then some true else (args[p - 1]?).map fun c => decide (c = ampersand)

/-- The condition of the loop, on a `name` of `len` bytes that was found at `p` -/
def hitAt (args : Bytes) (len p : Nat) : Option Bool :=
  (startsAt args p).bind fun starts =>
    if starts then (args[p + len]?).map fun c => decide (c = equals) else some false

/-- The value, by its offset and its length. -/
def loop (args name : Bytes) : Nat → Nat → Option (Option (Nat × Nat))
  | 0, _ => none
  | fuel + 1, p =>
      if p < args.length then do
        -- we need '=' after name, so drop one char from last
        match ← strlcasestrn args p (args.length - 1) name (name.length - 1) with
        | none => some none
        | some p => do
            if ← hitAt args name.length p then
              let data := p + name.length + 1
              let p := (strlchr args p ampersand).getD args.length
              some (some (data, p - data))
            else loop args name fuel (p + 1)
      else some none

end HttpArg

open HttpArg in
/-- `NGX_DECLINED` is `none`. Every round of the loop starts behind the one before. -/
def httpArg (args name : Bytes) : Option (Option (Nat × Nat)) :=
  if args.length = 0 then some none else loop args name (args.length + 1) 0

namespace HttpArg

/-- `name=`, whatever the case of the name -/
def Begins (name s : Bytes) : Prop :=
  (s.take name.length).map lower = name.map lower ∧ s[name.length]? = some equals

instance (name s : Bytes) : Decidable (Begins name s) := inferInstanceAs (Decidable (_ ∧ _))

/-- The value of an argument. -/
def argument (args name : Bytes) : Option Bytes :=
  ((args.splitOn ampersand).find? fun c => Begins name c).map (·.drop (name.length + 1))

variable {args name s s1 s2 c : Bytes} {n left p q fuel : Nat}

theorem lower_eq (c : UInt8) : (lower c = 0 ↔ c = 0) ∧ (lower c = ampersand ↔ c = ampersand) := by
  revert c
  apply forall_byte
  decide

/-- Where not both strings hold a NUL, the comparison is that of all bytes. -/
theorem strncasecmp_spec (hs : s2.length ≤ s1.length) (hnul : ¬(0 ∈ s2 ∧ 0 ∈ s1)) :
    ∃ order, strncasecmp s1 s2 s2.length = some order ∧
      (order = 0 ↔ (s1.take s2.length).map lower = s2.map lower) := by
  induction s2 generalizing s1 with
  | nil => exact ⟨0, by simp [strncasecmp], by simp⟩
  | cons c2 s2 ih =>
      cases s1 with
      | nil => exact absurd hs (by simp)
      | cons c1 s1 =>
          simp only [List.length_cons, strncasecmp, List.take_succ_cons, List.map_cons,
            List.cons.injEq]
          split_ifs with heq hne
          · obtain ⟨order, horder, hiff⟩ := @ih s1 (Nat.le_of_succ_le_succ hs) fun h =>
              hnul ⟨List.mem_cons_of_mem _ h.1, List.mem_cons_of_mem _ h.2⟩
            exact ⟨order, horder, hiff.trans (by simp [heq])⟩
          · rw [ne_eq, not_not] at hne
            have hc1 := (lower_eq c1).1.mp hne
            have hc2 := (lower_eq c2).1.mp (heq ▸ hne)
            exact absurd ⟨hc2 ▸ List.mem_cons_self, hc1 ▸ List.mem_cons_self⟩ hnul
          · refine ⟨_, rfl, iff_of_false (fun h => heq ?_) fun h => heq h.1⟩
            exact UInt8.toNat_inj.mp (by omega)

/-- The name stands at `q`, with a byte behind it. -/
def Found (args name : Bytes) (q : Nat) : Prop :=
  q + name.length < args.length ∧ ((args.drop q).take name.length).map lower = name.map lower

theorem scan_spec {c2 : UInt8} (hnul : ¬(0 ∈ c2 :: s2 ∧ 0 ∈ args))
    (hleft : left = args.length - (s2.length + 1) - p) :
    ∃ r, scan args (lower c2) s2 s2.length left p = some r ∧ First (Found args (c2 :: s2)) p r := by
  induction left generalizing p with
  | zero =>
      refine ⟨none, rfl, fun q hq hfound => ?_⟩
      have hlt := hfound.1
      rw [List.length_cons] at hlt
      omega
  | succ left ih =>
      have hp : p < args.length := by omega
      obtain ⟨r, hr, hfirst⟩ := @ih (p + 1) (by omega)
      have hdrop : args.drop p = args[p] :: args.drop (p + 1) := List.drop_eq_getElem_cons hp
      have hrest : s2.length ≤ (args.drop (p + 1)).length := by
        rw [List.length_drop]
        omega
      have hfound : Found args (c2 :: s2) p ↔ lower args[p] = lower c2 ∧
          ((args.drop (p + 1)).take s2.length).map lower = s2.map lower := by
        have hlt : p + (s2.length + 1) < args.length := by omega
        rw [Found, List.length_cons, and_iff_right hlt, hdrop, List.take_succ_cons, List.map_cons,
          List.map_cons, List.cons.injEq]
      have hnul' : ¬(0 ∈ s2 ∧ 0 ∈ args.drop (p + 1)) := fun h =>
        hnul ⟨List.mem_cons_of_mem _ h.1, List.mem_of_mem_drop h.2⟩
      obtain ⟨order, horder, hzero⟩ := strncasecmp_spec hrest hnul'
      simp only [scan, List.getElem?_eq_getElem hp, Option.bind_eq_bind, Option.bind_some, horder]
      split_ifs with hc horder
      · exact ⟨some p, rfl, le_rfl, hfound.mpr ⟨hc, hzero.mp horder⟩, fun j hj hlt => by omega⟩
      · exact ⟨r, hr, hfirst.of_succ fun h => horder (hzero.mpr (hfound.mp h).2)⟩
      · exact ⟨r, hr, hfirst.of_succ fun h => hc (hfound.mp h).1⟩

theorem strlcasestrn_spec (hname : name ≠ []) (hnul : ¬(0 ∈ name ∧ 0 ∈ args)) (p : Nat) :
    ∃ r, strlcasestrn args p (args.length - 1) name (name.length - 1) = some r ∧
      First (Found args name) p r := by
  cases name with
  | nil => exact absurd rfl hname
  | cons c2 s2 =>
      refine scan_spec hnul ?_
      rw [List.length_cons, Nat.add_sub_cancel]
      omega

/-- An argument begins at `q`. -/
def Starts (args : Bytes) (q : Nat) : Prop := q = 0 ∨ args[q - 1]? = some ampersand

instance (args : Bytes) (q : Nat) : Decidable (Starts args q) := inferInstanceAs (Decidable (_ ∨ _))

/-- The argument that is looked for begins at `q`. -/
def Hit (args name : Bytes) (q : Nat) : Prop := Starts args q ∧ Begins name (args.drop q)

instance (args name : Bytes) (q : Nat) : Decidable (Hit args name q) :=
  inferInstanceAs (Decidable (_ ∧ _))

theorem hit_iff (args name : Bytes) (q : Nat) :
    Hit args name q ↔ Found args name q ∧ Starts args q ∧ args[q + name.length]? = some equals := by
  rw [Hit, Begins, Found, List.getElem?_drop]
  constructor
  · intro ⟨hstarts, hname, hequals⟩
    exact ⟨⟨(List.getElem?_eq_some_iff.mp hequals).1, hname⟩, hstarts, hequals⟩
  · intro ⟨⟨_, hname⟩, hstarts, hequals⟩
    exact ⟨hstarts, hname, hequals⟩

theorem hitAt_eq (hname : name ≠ []) (hq : Found args name q) :
    hitAt args name.length q = some (decide (Hit args name q)) := by
  have hin : q + name.length < args.length := hq.1
  have hlength := List.length_pos_iff.mpr hname
  have hbefore : q - 1 < args.length := by omega
  have hstarts : startsAt args q = some (decide (Starts args q)) := by
    unfold startsAt
    split_ifs with hzero <;> simp [Starts, hzero, List.getElem?_eq_getElem hbefore]
  have hiff := hit_iff args name q
  rw [and_iff_right hq, List.getElem?_eq_getElem hin, Option.some_inj] at hiff
  rw [hitAt, hstarts, Option.bind_some, List.getElem?_eq_getElem hin]
  by_cases hstart : Starts args q <;> simp [hiff, hstart]

theorem findIdx?_eq (s : Bytes) (c : UInt8) :
    s.findIdx? (· = c) = if c ∈ s then some (s.takeWhile (· ≠ c)).length else none := by
  induction s with
  | nil => rfl
  | cons x s ih =>
      by_cases hx : x = c
      · simp [List.findIdx?_cons, hx]
      · have hmem : c ∈ x :: s ↔ c ∈ s := List.mem_cons.trans (or_iff_right fun h => hx h.symm)
        simp only [List.findIdx?_cons, List.takeWhile_cons, hx, decide_false, Bool.false_eq_true,
          if_false, ne_eq, not_false_eq_true, decide_true, if_true, List.length_cons, ih, hmem]
        split_ifs <;> rfl

theorem strlchr_eq (args : Bytes) (p : Nat) (c : UInt8) :
    strlchr args p c =
      if c ∈ args.drop p then some (p + ((args.drop p).takeWhile (· ≠ c)).length) else none := by
  rw [strlchr, findIdx?_eq]
  split_ifs <;> rfl

theorem takeWhile_of_notMem {s : Bytes} {c : UInt8} (h : c ∉ s) : s.takeWhile (· ≠ c) = s :=
  List.takeWhile_eq_self_iff.mpr fun _ hx => decide_eq_true fun heq => h (heq ▸ hx)

/-- Where the argument at `q` ends. -/
theorem strlchr_getD (hq : q ≤ args.length) (c : UInt8) :
    (strlchr args q c).getD args.length = q + ((args.drop q).takeWhile (· ≠ c)).length := by
  rw [strlchr_eq]
  split_ifs with hmem
  · rfl
  · rw [takeWhile_of_notMem hmem, List.length_drop, Option.getD_none]
    omega

/-- The value of the argument at `q`, by its offset and its length. -/
def valueAt (args name : Bytes) (q : Nat) : Nat × Nat :=
  (q + name.length + 1,
    q + ((args.drop q).takeWhile (· ≠ ampersand)).length - (q + name.length + 1))

theorem loop_spec (hname : name ≠ []) (hnul : ¬(0 ∈ name ∧ 0 ∈ args)) (fuel p : Nat)
    (hp : p ≤ args.length) (hfuel : args.length < p + fuel) :
    ∃ r, loop args name fuel p = some (r.map (valueAt args name)) ∧ First (Hit args name) p r := by
  induction fuel generalizing p with
  | zero => omega
  | succ fuel ih =>
      have hfound : ∀ q, Hit args name q → Found args name q := fun q h => ((hit_iff _ _ _).mp h).1
      unfold loop
      split_ifs with hlt
      · obtain ⟨r, hr, hfirst⟩ := strlcasestrn_spec hname hnul p
        rw [hr, Option.bind_eq_bind, Option.bind_some]
        cases r with
        | none => exact ⟨none, rfl, fun q hq h => hfirst q hq (hfound q h)⟩
        | some q =>
            obtain ⟨hpq, hq, hbefore⟩ := hfirst
            have hin : q + name.length < args.length := hq.1
            have hlength := List.length_pos_iff.mpr hname
            dsimp only
            rw [hitAt_eq hname hq, Option.bind_eq_bind, Option.bind_some]
            by_cases hhere : Hit args name q
            · refine ⟨some q, ?_, hpq, hhere, fun j hj hlt h => hbefore j hj hlt (hfound j h)⟩
              rw [decide_eq_true hhere, if_pos rfl, strlchr_getD (by omega)]
              rfl
            · obtain ⟨r, hr, hfirst⟩ := ih (q + 1) (by omega) (by omega)
              rw [decide_eq_false hhere, if_neg Bool.false_ne_true]
              refine ⟨r, hr, hfirst.extend hpq fun j hj hle h => ?_⟩
              rcases Nat.lt_or_eq_of_le hle with hlt | rfl
              · exact hbefore j hj hlt (hfound j h)
              · exact hhere h
      · refine ⟨none, rfl, fun q hq h => ?_⟩
        have hin := (hfound q h).1
        omega

/-! The first of the arguments. -/

/-- Whether an argument begins with the name does not depend on what follows it. -/
theorem begins_append (hname : ampersand ∉ name) (c rest : Bytes) :
    Begins name (c ++ ampersand :: rest) ↔ Begins name c := by
  rcases Nat.lt_or_ge name.length c.length with hlt | hge
  · rw [Begins, Begins, List.take_append_of_le_length hlt.le, List.getElem?_append_left hlt]
  · have hnone : ¬Begins name c := fun h => by
      have hlt := (List.getElem?_eq_some_iff.mp h.2).1
      omega
    refine iff_of_false (fun h => ?_) hnone
    obtain ⟨htake, hequals⟩ := h
    rcases Nat.lt_or_eq_of_le hge with hlt | heq
    · -- the '&' would be a byte of the name
      have hmem : ampersand ∈ (c ++ ampersand :: rest).take name.length := by
        rw [List.take_append, show name.length - c.length = name.length - c.length - 1 + 1 by omega]
        exact List.mem_append_right _ List.mem_cons_self
      have hlower := List.mem_map_of_mem (f := lower) hmem
      rw [htake] at hlower
      obtain ⟨x, hx, hxeq⟩ := List.mem_map.mp hlower
      exact hname ((lower_eq x).2.mp hxeq ▸ hx)
    · rw [← heq, List.getElem?_append_right le_rfl, Nat.sub_self] at hequals
      exact absurd (Option.some_inj.mp hequals) (by decide)

theorem hit_zero (args name : Bytes) : Hit args name 0 ↔ Begins name args :=
  and_iff_right (Or.inl rfl)

theorem hit_behind (c rest name : Bytes) (j : Nat) :
    Hit (c ++ ampersand :: rest) name (c.length + 1 + j) ↔ Hit rest name j := by
  have hdrop : (c ++ ampersand :: rest).drop (c.length + 1 + j) = rest.drop j := by
    rw [Nat.add_assoc, List.drop_length_add_append, Nat.add_comm, List.drop_succ_cons]
  have hstarts : Starts (c ++ ampersand :: rest) (c.length + 1 + j) ↔ Starts rest j := by
    rw [Starts, Starts, show c.length + 1 + j - 1 = c.length + j by omega,
      List.getElem?_append_right (by omega), Nat.add_sub_cancel_left]
    cases j with
    | zero => exact iff_of_true (Or.inr rfl) (Or.inl rfl)
    | succ j => simp
  rw [Hit, Hit, hdrop, hstarts]

/-- No argument begins inside of the first one. -/
theorem not_hit_inside (hc : ampersand ∉ c) (rest : Bytes) (hpos : 0 < q) (hq : q ≤ c.length) :
    ¬Hit (c ++ ampersand :: rest) name q := by
  intro h
  rcases h.1 with rfl | hstart
  · exact absurd hpos (Nat.lt_irrefl 0)
  · rw [List.getElem?_append_left (by omega)] at hstart
    exact hc (List.mem_of_getElem? hstart)

/-- The value of the argument at `q`. -/
def valueText (args name : Bytes) (q : Nat) : Bytes :=
  ((args.drop q).takeWhile (· ≠ ampersand)).drop (name.length + 1)

theorem valueText_zero (hc : ampersand ∉ c) (rest : Bytes) :
    valueText (c ++ ampersand :: rest) name 0 = c.drop (name.length + 1) := by
  have hall : ∀ x ∈ c, decide (x ≠ ampersand) = true := fun x hx =>
    decide_eq_true fun h => hc (h ▸ hx)
  rw [valueText, List.drop_zero, List.takeWhile_append_of_pos hall,
    List.takeWhile_cons_of_neg (by simp), List.append_nil]

theorem argument_first (hname : ampersand ∉ name) (args : Bytes) :
    ∃ r, First (Hit args name) 0 r ∧ argument args name = r.map (valueText args name) := by
  induction hlength : args.length using Nat.strong_induction_on generalizing args with
  | _ length ih =>
  by_cases hmem : ampersand ∈ args
  · obtain ⟨c, rest, rfl, hc⟩ := List.eq_append_cons_of_mem hmem
    have hfirst := (hit_zero (c ++ ampersand :: rest) name).trans (begins_append hname c rest)
    rw [argument, List.splitOn_append_cons_self_of_not_mem hc, List.find?_cons]
    by_cases hbegins : Begins name c
    · refine ⟨some 0, ⟨le_rfl, hfirst.mpr hbegins, fun j _ hj => absurd hj j.not_lt_zero⟩, ?_⟩
      rw [decide_eq_true hbegins, Option.map_some, Option.map_some, valueText_zero hc]
    · obtain ⟨r, hr, heq⟩ := ih rest.length (by simp [← hlength]; omega) rest rfl
      refine ⟨r.map (c.length + 1 + ·), hr.shift (hit_behind c rest name) ?_, ?_⟩
      · intro j hj
        rcases Nat.eq_zero_or_pos j with rfl | hpos
        · exact fun h => hbegins (hfirst.mp h)
        · exact not_hit_inside hc rest hpos (Nat.le_of_lt_succ hj)
      · rw [decide_eq_false hbegins]
        refine heq.trans ?_
        rw [Option.map_map]
        refine congrArg (Option.map · r) (funext fun j => ?_)
        rw [Function.comp_apply, valueText, valueText, Nat.add_assoc, List.drop_length_add_append,
          Nat.add_comm 1 j, List.drop_succ_cons]
  · have hnone : ∀ q, 0 < q → ¬Hit args name q := fun q hq h => by
      rcases h.1 with rfl | hstart
      · exact absurd hq (Nat.lt_irrefl 0)
      · exact hmem (List.mem_of_getElem? hstart)
    rw [argument, List.splitOn_eq_singleton hmem]
    by_cases hbegins : Begins name args
    · refine ⟨some 0, ⟨le_rfl, (hit_zero _ _).mpr hbegins,
        fun j _ hj => absurd hj j.not_lt_zero⟩, ?_⟩
      rw [List.find?_singleton, if_pos (decide_eq_true hbegins), Option.map_some, Option.map_some,
        valueText, List.drop_zero, takeWhile_of_notMem hmem]
    · refine ⟨none, fun q _ => ?_, ?_⟩
      · rcases Nat.eq_zero_or_pos q with rfl | hpos
        · exact fun h => hbegins ((hit_zero _ _).mp h)
        · exact hnone q hpos
      · rw [List.find?_singleton, if_neg (by simp [hbegins])]
        rfl

theorem valueAt_text (args name : Bytes) (q : Nat) :
    (args.drop (valueAt args name q).1).take (valueAt args name q).2 = valueText args name q := by
  have hprefix := List.prefix_iff_eq_take.mp
    (List.takeWhile_prefix (l := args.drop q) (· ≠ ampersand))
  rw [valueText, hprefix, List.drop_take, List.drop_drop]
  refine congrArg₂ (fun len start => (args.drop start).take len) ?_ (Nat.add_assoc _ _ _)
  show q + _ - (q + name.length + 1) = _
  omega

theorem valueAt_inside (h : Hit args name q) :
    (valueAt args name q).1 + (valueAt args name q).2 ≤ args.length := by
  have hin := ((hit_iff _ _ _).mp h).1.1
  have hle := (List.takeWhile_sublist (l := args.drop q) (· ≠ ampersand)).length_le
  rw [List.length_drop] at hle
  show q + name.length + 1 + (_ - _) ≤ _
  omega

/-- The value of the first argument with the name, where the name and the arguments do not both hold
a NUL. -/
theorem httpArg_value (hname : name ≠ []) (hamp : ampersand ∉ name)
    (hnul : ¬(0 ∈ name ∧ 0 ∈ args)) :
    ∃ result, httpArg args name = some result ∧
      result.map (fun value => (args.drop value.1).take value.2) = argument args name ∧
      ∀ value ∈ result, value.1 + value.2 ≤ args.length := by
  obtain ⟨r, hfirst, hvalue⟩ := argument_first hamp args
  have hrun : httpArg args name = some (r.map (valueAt args name)) := by
    unfold httpArg
    split_ifs with hempty
    · cases r with
      | none => rfl
      | some q =>
          have hin := ((hit_iff _ _ _).mp hfirst.2.1).1.1
          omega
    · obtain ⟨r', hr', hfirst'⟩ :=
        loop_spec hname hnul (args.length + 1) 0 (Nat.zero_le _) (by omega)
      rw [hr', hfirst'.unique hfirst]
  refine ⟨_, hrun, ?_, fun value hmem => ?_⟩
  · rw [hvalue, Option.map_map]
    exact congrArg (Option.map · r) (funext fun q => valueAt_text args name q)
  · obtain ⟨q, rfl, rfl⟩ := Option.map_eq_some_iff.mp hmem
    exact valueAt_inside hfirst.2.1

/-- `xa=&b=a=&A=1`, for `a` -/
theorem httpArg_value_resynchronises :
    ∃ result, httpArg [120, 97, 61, 38, 98, 61, 97, 61, 38, 65, 61, 49] [97] = some result ∧
      result.map (fun value => ([120, 97, 61, 38, 98, 61, 97, 61, 38, 65, 61, 49].drop value.1).take
        value.2) = argument [120, 97, 61, 38, 98, 61, 97, 61, 38, 65, 61, 49] [97] ∧
      ∀ value ∈ result, value.1 + value.2 ≤ 12 :=
  httpArg_value (by decide) (by decide) (by decide)

/-- `a`, NUL, `c=1` does not hold the argument that is named `a`, NUL, `b`. -/
theorem httpArg_stops_at_nul :
    ∃ args name : Bytes, name ≠ [] ∧ ampersand ∉ name ∧ equals ∉ name ∧
      httpArg args name = some (some (4, 1)) ∧ argument args name = none :=
  ⟨[97, 0, 99, 61, 49], [97, 0, 98], by decide, by decide, by decide, by decide, by decide⟩

end HttpArg

end RebuildTheWheel.Nginx
