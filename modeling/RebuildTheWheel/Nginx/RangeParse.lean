import RebuildTheWheel.Data.ByteRanges

namespace RebuildTheWheel.Nginx

open Data Data.Ascii Data.ByteRanges

/-! `ngx_http_range_parse`. A pointer is the bytes that it has in front of it, up to the NUL of the
header. A result is `none` where a byte behind the NUL is read, or where an `off_t` overflows. -/

namespace RangeParse

abbrev maxOff : Int := 9223372036854775807

def off (x : Int) : Option Int := if -maxOff - 1 ≤ x ∧ x ≤ maxOff then some x else none

abbrev cutoff : Int := maxOff / 10
abbrev cutlim : Int := maxOff % 10

inductive Status where
  | ok
  | error
  | declined
  | notSatisfiable
  deriving DecidableEq, Repr

structure HttpRange where
  start : Int
  stop : Int
  deriving DecidableEq, Repr

/-- `while (*p == ' ') { p++; }` -/
def skipSpaces : Bytes → Option Bytes
  | [] => none
  | c :: p => if c = space then skipSpaces p else some (c :: p)

/-- A number and what follows it, or `none` where the number is cut off -/
def number (n : Int) : Bytes → Option (Option (Int × Bytes))
  | [] => none
  | c :: p =>
      if zero ≤ c ∧ c ≤ 57 then
        if cutoff ≤ n ∧ (cutoff < n ∨ cutlim < c.toNat - 48) then some none
        else do
          let n ← off (n * 10)
          let n ← off (n + (c.toNat - 48))
          number n p
      else some (some (n, c :: p))

/-- `if (suffix)` -/
def suffixRange (contentLength stop : Int) : Option (Int × Int) :=
  (if stop < contentLength then off (contentLength - stop) else some 0).bind fun start =>
    (off (contentLength - 1)).map fun stop => (start, stop)

/-- The clipping of a range to the content -/
def clip (contentLength : Int) (suffix : Bool) (start stop : Int) : Option (Int × Int) :=
  (if suffix then suffixRange contentLength stop else some (start, stop)).bind fun (start, stop) =>
    if contentLength ≤ stop then some (start, contentLength)
    else (off (stop + 1)).map fun stop => (start, stop)

/-- A spec from its last number on. In the results `none` is a range that is not satisfiable. -/
def lastNumber (contentLength : Int) (suffix : Bool) (start : Int) (p : Bytes) :
    Option (Option (Int × Int × Bytes)) := do
  let c ← p.head?
  if c < zero ∨ 57 < c then some none
  else
    match ← number 0 p with
    | none => some none
    | some (stop, p) => do
        let p ← skipSpaces p
        let c ← p.head?
        if c ≠ comma ∧ c ≠ 0 then some none
        else do
          let (start, stop) ← clip contentLength suffix start stop
          some (some (start, stop, p))

/-- A round of the loop, up to `found` -/
def spec (contentLength : Int) (p : Bytes) : Option (Option (Int × Int × Bytes)) := do
  let p ← skipSpaces p
  let c ← p.head?
  if c ≠ minus then
    if c < zero ∨ 57 < c then some none
    else
      match ← number 0 p with
      | none => some none
      | some (start, p) => do
          let p ← skipSpaces p
          let c ← p.head?
          if c ≠ minus then some none
          else do
            let p ← skipSpaces p.tail
            let c ← p.head?
            if c = comma ∨ c = 0 then some (some (start, contentLength, p))
            else lastNumber contentLength false start p
  else lastNumber contentLength true 0 p.tail

structure Context where
  /-- how many ranges may follow -/
  ranges : Nat
  size : Int
  recorded : List HttpRange

/-- What follows `found`, and the status that it returns, if any. `allocates` says which of the
pushes succeed. -/
def found (allocates : Nat → Bool) (ctx : Context) (start stop : Int) :
    Option (Option Status × Context) :=
  if start < stop then
    if allocates ctx.recorded.length then do
      let recorded := ctx.recorded ++ [⟨start, stop⟩]
      let length ← off (stop - start)
      let room ← off (maxOff - length)
      if room < ctx.size then some (some .notSatisfiable, { ctx with recorded := recorded })
      else do
        let size ← off (ctx.size + length)
        some (if ctx.ranges = 0 then some .declined else none, ⟨ctx.ranges - 1, size, recorded⟩)
    else some (some .error, ctx)
  else if start = 0 then some (some .declined, ctx)
  else some (none, ctx)

/-- What follows the loop -/
def finish (contentLength : Int) (ctx : Context) : Status :=
  if ctx.recorded = [] then .notSatisfiable
  else if contentLength < ctx.size then .declined
  else .ok

def loop (contentLength : Int) (allocates : Nat → Bool) :
    Nat → Context → Bytes → Option (Status × List HttpRange)
  | 0, _, _ => none
  | fuel + 1, ctx, p => do
      match ← spec contentLength p with
      | none => some (.notSatisfiable, ctx.recorded)
      | some (start, stop, p) =>
          match ← found allocates ctx start stop with
          | (some status, ctx) => some (status, ctx.recorded)
          | (none, ctx) => do
              let c ← p.head?
              if c = comma then loop contentLength allocates fuel ctx p.tail
              else some (finish contentLength ctx, ctx.recorded)

/-- `main` holds the ranges of the main request, where the request is a subrequest and the main
request has ranges. -/
structure Request where
  main : Option (List HttpRange)
  range : Bytes
  contentLength : Int

end RangeParse

open RangeParse in
/-- The header begins with `bytes=`. `array` says whether the array of the ranges is allocated. -/
def rangeParse (r : Request) (array : Bool) (allocates : Nat → Bool) (ranges : Nat) :
    Option (Status × List HttpRange) :=
  match r.main with
  | some recorded => some (.ok, recorded)
  | none =>
      if array then
        loop r.contentLength allocates (r.range.length + 1) ⟨ranges, 0, []⟩
          ((r.range ++ [0]).drop 6)
      else some (.error, [])

namespace RangeParse

variable {p : Bytes} {n start last contentLength : Nat} {x : Int} {allocates : Nat → Bool}
  {ctx ctx' : Context} {specs : List Spec}

theorem maxOff_eq : maxOff = 9223372036854775807 := rfl

theorem cutoff_eq : cutoff = 922337203685477580 ∧ cutlim = 7 := ⟨rfl, rfl⟩

theorem off_eq (h : -maxOff - 1 ≤ x ∧ x ≤ maxOff) : off x = some x := if_pos h

theorem skipSpaces_spec (hp : 0 ∈ p) :
    ∃ blanks c rest, p = blanks ++ c :: rest ∧ Blank blanks ∧ c ≠ space ∧ 0 ∈ c :: rest ∧
      skipSpaces p = some (c :: rest) := by
  induction p with
  | nil => exact absurd hp List.not_mem_nil
  | cons c p ih =>
      unfold skipSpaces
      split_ifs with hc
      · obtain ⟨blanks, c', rest, rfl, hblanks, hc', hrest, heq⟩ := ih
          ((List.mem_cons.mp hp).resolve_left fun h => absurd (h.trans hc) (by decide))
        exact ⟨c :: blanks, c', rest, rfl, List.forall_mem_cons.mpr ⟨hc, hblanks⟩, hc', hrest, heq⟩
      · exact ⟨[], c, p, rfl, fun _ h => absurd h List.not_mem_nil, hc, hp, rfl⟩

theorem number_spec (hn : n ≤ maxOff) (hp : 0 ∈ p) :
    number n p = some none ∨
      ∃ digits c rest, p = digits ++ c :: rest ∧ (∀ d ∈ digits, isDigit d = true) ∧
        isDigit c = false ∧ 0 ∈ c :: rest ∧
        (digits.foldl (fun n b => n * 10 + Decimal.digitVal b) n : Nat) ≤ maxOff ∧
        number n p =
          some (some (((digits.foldl (fun n b => n * 10 + Decimal.digitVal b) n : Nat) : Int),
            c :: rest)) := by
  induction p generalizing n with
  | nil => exact absurd hp List.not_mem_nil
  | cons c p ih =>
      unfold number
      split_ifs with hdigit hcut
      · exact Or.inl rfl
      · have hlow : 48 ≤ c.toNat := UInt8.le_iff_toNat_le.mp hdigit.1
        have hhigh : c.toNat ≤ 57 := UInt8.le_iff_toNat_le.mp hdigit.2
        have hmax := maxOff_eq
        obtain ⟨hcutoff, hcutlim⟩ := cutoff_eq
        have hval : Decimal.digitVal c = c.toNat - 48 := rfl
        have hnext : (n : Int) * 10 + (c.toNat - 48) =
            (n * 10 + Decimal.digitVal c : Nat) := by omega
        rw [off_eq (by omega), Option.bind_eq_bind, Option.bind_some, hnext, off_eq (by omega),
          Option.bind_some]
        have hp' : 0 ∈ p := (List.mem_cons.mp hp).resolve_left fun h => by simp [← h] at hlow
        rcases ih (n := n * 10 + Decimal.digitVal c) (by omega) hp' with
          hnone | ⟨digits, c', rest, rfl, hdigits, hc', hrest, hle, heq⟩
        · exact Or.inl hnone
        · exact Or.inr ⟨c :: digits, c', rest, rfl,
            List.forall_mem_cons.mpr ⟨isDigit_iff.mpr hdigit, hdigits⟩, hc', hrest, hle, heq⟩
      · exact Or.inr ⟨[], c, p, rfl, fun _ h => absurd h List.not_mem_nil,
          Bool.eq_false_iff.mpr fun h => hdigit (isDigit_iff.mp h), hp, hn, rfl⟩

/-- A number with the blanks behind it -/
theorem number_blanks {c : UInt8} (hp : 0 ∈ c :: p) (hc : isDigit c = true) :
    number 0 (c :: p) = some none ∨
      ∃ n text rest c' rest', c :: p = text ++ c' :: rest' ∧ Number n text ∧ (n : Int) ≤ maxOff ∧
        0 ∈ c' :: rest' ∧ number 0 (c :: p) = some (some ((n : Int), rest)) ∧
        skipSpaces rest = some (c' :: rest') := by
  rcases number_spec (n := 0) (by decide) hp with
    hnone | ⟨digits, c₁, rest, heq, hdigits, hc₁, hrest, hle, hnumber⟩
  · exact Or.inl hnone
  · obtain ⟨blanks, c₂, rest', hblanks, hblank, -, hrest', hskip⟩ := skipSpaces_spec hrest
    have hne : digits ≠ [] := by
      rintro rfl
      obtain ⟨rfl, -⟩ := List.cons.inj heq
      exact Bool.false_ne_true (hc₁.symm.trans hc)
    have htext : Number (Decimal.value digits) (digits ++ blanks) :=
      @Number.intro [] digits blanks (fun _ h => absurd h List.not_mem_nil) hne hdigits hblank
    refine Or.inr ⟨_, digits ++ blanks, c₁ :: rest, c₂, rest', ?_, htext, hle, hrest', hnumber,
      hskip⟩
    rw [heq, hblanks, List.append_assoc]

theorem lastNumber_spec (hp : 0 ∈ p) (contentLength start : Int) (suffix : Bool) :
    lastNumber contentLength suffix start p = some none ∨
      ∃ last text c rest, p = text ++ c :: rest ∧ Number last text ∧ (last : Int) ≤ maxOff ∧
        (c = comma ∨ c = 0) ∧
        lastNumber contentLength suffix start p =
          (clip contentLength suffix start last).bind fun range =>
            some (some (range.1, range.2, c :: rest)) := by
  cases p with
  | nil => exact absurd hp List.not_mem_nil
  | cons c p =>
      unfold lastNumber
      rw [List.head?_cons, Option.bind_eq_bind, Option.bind_some]
      split_ifs with hc
      · exact Or.inl rfl
      · have hdigit : isDigit c = true := isDigit_iff.mpr (by simpa using hc)
        rcases number_blanks hp hdigit with
          hnone | ⟨n, text, rest, c', rest', heq, hnumber, hle, hp', hread, hskip⟩
        · exact Or.inl (by rw [hnone]; rfl)
        · simp only [hread, hskip, Option.bind_eq_bind, Option.bind_some, List.head?_cons]
          split_ifs with hc'
          · exact Or.inl rfl
          · exact Or.inr ⟨n, text, c', rest', heq, hnumber, hle, by tauto, rfl⟩

theorem clip_last (h : (contentLength : Int) ≤ maxOff) (start : Int) (last : Nat) :
    clip contentLength false start last =
      some (start, ((min (last + 1) contentLength : Nat) : Int)) := by
  rw [clip, if_neg Bool.false_ne_true, Option.bind_some]
  dsimp only
  split_ifs with hle
  · rw [Nat.min_eq_right (by omega)]
  · rw [off_eq (by omega), Option.map_some, Nat.min_eq_left (by omega)]
    rfl

theorem clip_suffix (h : (contentLength : Int) ≤ maxOff) (length : Nat) :
    clip contentLength true 0 length =
      some (((contentLength - length : Nat) : Int), (contentLength : Int)) := by
  have hmax := maxOff_eq
  have hstart : (if (length : Int) < contentLength then off (contentLength - length) else some 0) =
      some ((contentLength - length : Nat) : Int) := by
    split_ifs with hlt
    · rw [off_eq (by omega), Int.ofNat_sub (by omega)]
    · rw [Nat.sub_eq_zero_of_le (by omega), Int.ofNat_zero]
  rw [clip, if_pos rfl, suffixRange, hstart, Option.bind_some, off_eq (by omega), Option.map_some,
    Option.bind_some]
  dsimp only
  rw [if_neg (by omega), off_eq (by omega), Option.map_some, Int.sub_add_cancel]

/-- What a spec says of the range that is computed for it. -/
def Clips (contentLength : Nat) (spec : Spec) (start stop : Int) : Prop :=
  if start < stop then
    ∃ range, spec.range? contentLength = some range ∧ start = range.start ∧ stop = range.stop
  else spec.range? contentLength = none

theorem clips_between (contentLength first last : Nat) :
    Clips contentLength (.between first last) first
      ((min (last + 1) contentLength : Nat) : Int) := by
  unfold Clips
  split_ifs with hlt
  · exact ⟨_, dif_pos (by omega), rfl, rfl⟩
  · exact dif_neg (by omega)

theorem clips_onwards (contentLength first : Nat) :
    Clips contentLength (.onwards first) first contentLength := by
  unfold Clips
  split_ifs with hlt
  · exact ⟨_, dif_pos (by omega), rfl, rfl⟩
  · exact dif_neg (by omega)

theorem clips_suffix (contentLength length : Nat) :
    Clips contentLength (.suffix length) ((contentLength - length : Nat) : Int) contentLength := by
  unfold Clips
  split_ifs with hlt
  · exact ⟨_, dif_pos (by omega), rfl, rfl⟩
  · exact dif_neg (by omega)

/-- A round of the loop reads the text of a spec. -/
theorem spec_spec (hp : 0 ∈ p) (h : (contentLength : Int) ≤ maxOff) :
    spec contentLength p = some none ∨
      ∃ s text c rest start stop, p = text ++ c :: rest ∧ Writes s text ∧ (c = comma ∨ c = 0) ∧
        spec contentLength p = some (some (start, stop, c :: rest)) ∧
        Clips contentLength s start stop := by
  obtain ⟨blanks, c, rest, rfl, hblanks, hc, hrest, hskip⟩ := skipSpaces_spec hp
  unfold spec
  simp only [hskip, Option.bind_eq_bind, Option.bind_some, List.head?_cons]
  by_cases hminus : c ≠ minus
  · rw [if_pos hminus]
    by_cases hdigit : c < zero ∨ 57 < c
    · exact Or.inl (if_pos hdigit)
    rw [if_neg hdigit]
    rcases number_blanks hrest (isDigit_iff.mpr (by simpa using hdigit)) with
      hnone | ⟨first, left, rest₁, c₁, rest₂, heq, hfirst, hle, hrest₂, hread, hskip₁⟩
    · exact Or.inl (by rw [hnone]; rfl)
    · simp only [hread, hskip₁, Option.bind_some, List.head?_cons]
      have hleft := hfirst.blanks_append hblanks
      by_cases hc₁ : c₁ ≠ minus
      · exact Or.inl (if_pos hc₁)
      · rw [if_neg hc₁]
        rw [ne_eq, not_not] at hc₁
        subst hc₁
        obtain ⟨blanks₂, c₂, rest₃, hrest₃, hblanks₂, hc₂, hrest₃', hskip₂⟩ :=
          skipSpaces_spec (p := rest₂) ((List.mem_cons.mp hrest₂).resolve_left (by decide))
        simp only [List.tail_cons, hskip₂, Option.bind_some, List.head?_cons]
        by_cases hend : c₂ = comma ∨ c₂ = 0
        · rw [if_pos hend]
          refine Or.inr ⟨.onwards first, (blanks ++ left) ++ minus :: blanks₂, c₂, rest₃, _, _, ?_,
            .intro hleft hblanks₂, hend, rfl, clips_onwards _ _⟩
          rw [heq, hrest₃]
          simp
        · rw [if_neg hend]
          rcases lastNumber_spec hrest₃' contentLength first false with
            hnone | ⟨last, right, c₃, rest₄, hright, hlast, _, hc₃, hread₃⟩
          · exact Or.inl hnone
          · rw [clip_last h, Option.bind_some] at hread₃
            refine Or.inr ⟨.between first last, (blanks ++ left) ++ minus :: (blanks₂ ++ right), c₃,
              rest₄, _, _, ?_, .intro hleft (hlast.blanks_append hblanks₂), hc₃, hread₃,
              clips_between _ _ _⟩
            rw [heq, hrest₃, hright]
            simp
  · rw [if_neg hminus]
    rw [not_not] at hminus
    subst hminus
    rcases lastNumber_spec (p := rest) ((List.mem_cons.mp hrest).resolve_left (by decide))
      contentLength 0 true with hnone | ⟨length, right, c₃, rest₄, hright, hlength, _, hc₃, hread⟩
    · exact Or.inl hnone
    · rw [clip_suffix h, Option.bind_some] at hread
      refine Or.inr ⟨.suffix length, blanks ++ minus :: right, c₃, rest₄, _, _, ?_,
        .intro hblanks hlength, hc₃, hread, clips_suffix _ _⟩
      rw [hright]
      simp

def ofRange {contentLength : Nat} (range : Range contentLength) : HttpRange :=
  ⟨range.start, range.stop⟩

def total (recorded : List HttpRange) : Int :=
  (recorded.map fun range => range.stop - range.start).sum

theorem total_append (recorded : List HttpRange) (range : HttpRange) :
    total (recorded ++ [range]) = total recorded + (range.stop - range.start) := by
  rw [total, total, List.map_append, List.sum_append, List.map_singleton, List.sum_singleton]

structure Sized (ctx : Context) : Prop where
  size_eq : ctx.size = total ctx.recorded
  nonneg : 0 ≤ ctx.size
  le_max : ctx.size ≤ maxOff

theorem found_spec {s : Spec} {start stop : Int} (hclips : Clips contentLength s start stop)
    (h : (contentLength : Int) ≤ maxOff) (hctx : Sized ctx) (allocates : Nat → Bool) :
    ∃ returned ctx', found allocates ctx start stop = some (returned, ctx') ∧
      returned ≠ some .ok ∧ (returned = none → Sized ctx' ∧
        ctx'.recorded = ctx.recorded ++ (s.range? contentLength).toList.map ofRange) := by
  unfold Clips at hclips
  unfold found
  by_cases hlt : start < stop
  · rw [if_pos hlt] at hclips ⊢
    obtain ⟨range, hrange, rfl, rfl⟩ := hclips
    have hmax := maxOff_eq
    have hinside := range.inside
    obtain ⟨hsize, hnonneg, _⟩ := hctx
    cases allocates ctx.recorded.length with
    | false => exact ⟨_, _, rfl, nofun, nofun⟩
    | true =>
        simp only [if_true, off_eq (x := range.stop - range.start) (by omega),
          off_eq (x := maxOff - (range.stop - range.start)) (by omega), Option.bind_eq_bind,
          Option.bind_some]
        split_ifs with hroom hlimit
        · exact ⟨_, _, rfl, nofun, nofun⟩
        · rw [off_eq (by omega), Option.bind_some]
          exact ⟨_, _, rfl, nofun, nofun⟩
        · rw [off_eq (by omega), Option.bind_some]
          refine ⟨_, _, rfl, nofun, fun _ => ⟨⟨?_, ?_, ?_⟩, ?_⟩⟩
          · rw [total_append, hsize]
          · exact Int.add_nonneg hnonneg (by omega)
          · show ctx.size + _ ≤ maxOff
            omega
          · rw [hrange]
            rfl
  · rw [if_neg hlt] at hclips ⊢
    split_ifs with hzero
    · exact ⟨_, _, rfl, nofun, nofun⟩
    · refine ⟨_, _, rfl, nofun, fun _ => ⟨hctx, ?_⟩⟩
      rw [hclips]
      exact (List.append_nil _).symm

theorem finish_ok {contentLength : Int} (hctx : Sized ctx) (h : finish contentLength ctx = .ok) :
    total ctx.recorded ≤ contentLength := by
  unfold finish at h
  split_ifs at h with hempty hsize
  rw [← hctx.size_eq]
  exact Int.not_lt.mp hsize

theorem append_nul_eq {text left rest : Bytes} {c : UInt8}
    (h : text ++ [0] = left ++ c :: rest) :
    c = 0 ∧ text = left ∨ ∃ rest', rest = rest' ++ [0] ∧ text = left ++ c :: rest' := by
  rcases List.append_eq_append_iff.mp h with ⟨behind, rfl, hbehind⟩ | ⟨behind, rfl, hbehind⟩
  · cases behind with
    | nil => exact Or.inl ⟨(List.cons.inj hbehind).1.symm, (List.append_nil _).symm⟩
    | cons b behind => simp at hbehind
  · cases behind with
    | nil => exact Or.inl ⟨(List.cons.inj hbehind).1, List.append_nil _⟩
    | cons b behind =>
        obtain ⟨rfl, rfl⟩ := List.cons.inj hbehind
        exact Or.inr ⟨behind, rfl, rfl⟩

/-- The loop reads the specs one after the other. -/
theorem loop_spec (h : (contentLength : Int) ≤ maxOff) (allocates : Nat → Bool) {fuel : Nat}
    {text : Bytes} (hnul : 0 ∉ text) (hfuel : text.length < fuel) (hctx : Sized ctx) :
    ∃ status recorded,
      loop contentLength allocates fuel ctx (text ++ [0]) = some (status, recorded) ∧
      (status = .ok → total recorded ≤ contentLength ∧ ∃ specs, Denotes text specs ∧
        recorded = ctx.recorded ++ (specs.filterMap (Spec.range? contentLength)).map ofRange) := by
  induction fuel generalizing text ctx with
  | zero => omega
  | succ fuel ih =>
      unfold loop
      rcases spec_spec (p := text ++ [0]) (by simp) h with
        hnone | ⟨s, left, c, rest, start, stop, heq, hwrites, hc, hread, hclips⟩
      · rw [hnone]
        exact ⟨_, _, rfl, nofun⟩
      · obtain ⟨returned, ctx', hfound, hok, hnext⟩ := found_spec hclips h hctx allocates
        simp only [hread, hfound, Option.bind_eq_bind, Option.bind_some]
        cases returned with
        | some status => exact ⟨_, _, rfl, fun h => absurd (congrArg some h) hok⟩
        | none =>
            obtain ⟨hctx', hrecorded⟩ := hnext rfl
            simp only [List.head?_cons, Option.bind_some]
            rcases append_nul_eq heq with ⟨rfl, rfl⟩ | ⟨text, rfl, rfl⟩
            · rw [if_neg (by decide)]
              refine ⟨_, _, rfl, fun hok => ⟨finish_ok hctx' hok, [s], .single hwrites, ?_⟩⟩
              rw [hrecorded, List.filterMap_cons, List.filterMap_nil]
              cases s.range? contentLength <;> rfl
            · have hcomma : c = comma := hc.resolve_right fun hzero =>
                hnul (hzero ▸ List.mem_append_right _ List.mem_cons_self)
              subst hcomma
              rw [if_pos rfl, List.tail_cons]
              have hnul' : 0 ∉ text := fun hmem =>
                hnul (List.mem_append_right _ (List.mem_cons_of_mem _ hmem))
              have hfuel' : text.length < fuel := by
                rw [List.length_append, List.length_cons] at hfuel
                omega
              obtain ⟨status, recorded, hrest, hdenotes⟩ := ih hnul' hfuel' hctx'
              refine ⟨status, recorded, hrest, fun hok => ?_⟩
              obtain ⟨htotal, specs, hspecs, rfl⟩ := hdenotes hok
              refine ⟨htotal, s :: specs, .cons hwrites hspecs, ?_⟩
              rw [hrecorded, List.append_assoc, List.filterMap_cons]
              cases s.range? contentLength <;> rfl

/-- A request that takes no ranges over from its main request -/
theorem rangeParse_reads (r : Request) (hmain : r.main = none) (hlength : 0 ≤ r.contentLength)
    (hmax : r.contentLength ≤ maxOff) (hnul : 0 ∉ r.range) (hrange : 6 ≤ r.range.length)
    (array : Bool) (allocates : Nat → Bool) (ranges : Nat) :
    ∃ status recorded, rangeParse r array allocates ranges = some (status, recorded) ∧
      (status = .ok → total recorded ≤ r.contentLength ∧
        ∃ specs, Denotes (r.range.drop 6) specs ∧
          recorded = (specs.filterMap (Spec.range? r.contentLength.toNat)).map ofRange) := by
  unfold rangeParse
  rw [hmain]
  cases array with
  | false => exact ⟨_, _, rfl, nofun⟩
  | true =>
      have hcast := Int.toNat_of_nonneg hlength
      rw [← hcast] at hmax ⊢
      rw [List.drop_append_of_le_length hrange]
      have hnul' : 0 ∉ r.range.drop 6 := fun hmem => hnul (List.mem_of_mem_drop hmem)
      have hfuel : (r.range.drop 6).length < r.range.length + 1 := by
        rw [List.length_drop]
        omega
      have hsized : Sized ⟨ranges, 0, []⟩ := ⟨rfl, le_rfl, Int.natCast_nonneg 9223372036854775807⟩
      exact loop_spec hmax allocates hnul' hfuel hsized

end RangeParse

end RebuildTheWheel.Nginx
