import RebuildTheWheel.Nginx.Atoi

namespace RebuildTheWheel.Nginx

open Data Data.Ascii Data.Numeral Atoi
open Cidr (error)

/-! `ngx_parse_size`, `ngx_parse_offset` and `ngx_parse_time`. -/

namespace ParseTime

variable (size : Size)

/-- A number with a unit in its last byte -/
def scaled (number : Size → Bytes → Option Int) (unit? : UInt8 → Option Nat) (line : Bytes) :
    Option Int :=
  match line.getLast? with
  | none => some error
  | some unit =>
      let scale := (unit? unit).getD 1
      let digits := if (unit? unit).isSome then line.dropLast else line
      do
        let value ← number size digits
        if value = error ∨ (size.maxValue : Int) / scale < value then some error
        else size.check (value * scale)

/-- `K`, `k`, `M` and `m` -/
def sizeUnit? (c : UInt8) : Option Nat :=
  if c = 75 ∨ c = 107 then some 1024
  else if c = 77 ∨ c = 109 then some (1024 * 1024)
  else none

/-- Also `G` and `g` -/
def offsetUnit? (c : UInt8) : Option Nat :=
  if c = 75 ∨ c = 107 then some 1024
  else if c = 77 ∨ c = 109 then some (1024 * 1024)
  else if c = 71 ∨ c = 103 then some (1024 * 1024 * 1024)
  else none

inductive Step where
  | start
  | year
  | month
  | week
  | day
  | hour
  | min
  | sec
  | msec
  | last
  deriving DecidableEq, Repr

def Step.rank : Step → Nat
  | start => 0
  | year => 1
  | month => 2
  | week => 3
  | day => 4
  | hour => 5
  | min => 6
  | sec => 7
  | msec => 8
  | last => 9

instance : LT Step := ⟨fun a b => a.rank < b.rank⟩

instance : LE Step := ⟨fun a b => a.rank ≤ b.rank⟩

instance (a b : Step) : Decidable (a < b) := inferInstanceAs (Decidable (a.rank < b.rank))

instance (a b : Step) : Decidable (a ≤ b) := inferInstanceAs (Decidable (a.rank ≤ b.rank))

structure Locals where
  value : Int
  total : Int
  step : Step
  valid : Bool

/-- The cases of a byte that is no digit: the new step, the scale, and the text behind the unit;
`none` is `NGX_ERROR`. -/
def dispatch (isSec : Bool) (step : Step) (c : UInt8) (p : Bytes) : Option (Step × Nat × Bytes) :=
  if c = 121 then
    if .start < step then none else some (.year, 60 * 60 * 24 * 365, p)
  else if c = 77 then
    if .month ≤ step then none else some (.month, 60 * 60 * 24 * 30, p)
  else if c = 119 then
    if .week ≤ step then none else some (.week, 60 * 60 * 24 * 7, p)
  else if c = 100 then
    if .day ≤ step then none else some (.day, 60 * 60 * 24, p)
  else if c = 104 then
    if .hour ≤ step then none else some (.hour, 60 * 60, p)
  else if c = 109 then
    if p.head? = some 115 then
      if isSec ∨ .msec ≤ step then none else some (.msec, 1, p.tail)
    else if .min ≤ step then none else some (.min, 60, p)
  else if c = 115 then
    if .sec ≤ step then none else some (.sec, 1, p)
  else if c = space then
    if .sec ≤ step then none else some (.last, 1, p)
  else none

/-- The scaled number is added to the total; the inner `none` is `NGX_ERROR`. -/
def addTerm (isSec : Bool) (step : Step) (scale : Nat) (l : Locals) : Option (Option Locals) :=
  let inMsec := step ≠ .msec ∧ isSec = false
  let max := if inMsec then (size.maxValue : Int) / scale / 1000 else size.maxValue / scale
  do
    let scale ← (if inMsec then size.check (scale * 1000) else some scale)
    if max < l.value then some none
    else
      let value ← size.check (l.value * scale)
      let room ← size.check (size.maxValue - value)
      if room < l.total then some none
      else
        let total ← size.check (l.total + value)
        some (some { l with value := 0, total := total, step := step })

def finish (isSec : Bool) (l : Locals) : Option Int :=
  if l.valid = false then some error
  else if isSec = false ∧ (size.maxValue : Int) / 1000 < l.value then some error
  else do
    let value ← (if isSec then some l.value else size.check (l.value * 1000))
    let room ← size.check (size.maxValue - value)
    if room < l.total then some error else size.check (l.total + value)

theorem dispatch_length {isSec : Bool} {step step' : Step} {c : UInt8} {p rest : Bytes} {scale : Nat}
    (h : dispatch isSec step c p = some (step', scale, rest)) : rest.length ≤ p.length := by
  have hcase {refused : Prop} [Decidable refused] {next : Step × Nat × Bytes}
      (hle : next.2.2.length ≤ p.length)
      (h : (if refused then none else some next) = some (step', scale, rest)) :
      rest.length ≤ p.length := by
    split at h
    · cases h
    · cases h
      exact hle
  rw [dispatch] at h
  by_cases hyear : c = 121
  · rw [if_pos hyear] at h
    exact hcase (Nat.le_refl _) h
  rw [if_neg hyear] at h
  by_cases hmonth : c = 77
  · rw [if_pos hmonth] at h
    exact hcase (Nat.le_refl _) h
  rw [if_neg hmonth] at h
  by_cases hweek : c = 119
  · rw [if_pos hweek] at h
    exact hcase (Nat.le_refl _) h
  rw [if_neg hweek] at h
  by_cases hday : c = 100
  · rw [if_pos hday] at h
    exact hcase (Nat.le_refl _) h
  rw [if_neg hday] at h
  by_cases hhour : c = 104
  · rw [if_pos hhour] at h
    exact hcase (Nat.le_refl _) h
  rw [if_neg hhour] at h
  by_cases hmin : c = 109
  · rw [if_pos hmin] at h
    split at h
    · exact hcase (List.tail_suffix p).length_le h
    · exact hcase (Nat.le_refl _) h
  rw [if_neg hmin] at h
  by_cases hsec : c = 115
  · rw [if_pos hsec] at h
    exact hcase (Nat.le_refl _) h
  rw [if_neg hsec] at h
  by_cases hspace : c = space
  · rw [if_pos hspace] at h
    exact hcase (Nat.le_refl _) h
  rw [if_neg hspace] at h
  cases h

def loop (isSec : Bool) (l : Locals) (p : Bytes) : Option Int :=
  match p with
  | [] => finish size isSec l
  | c :: p =>
      if zero ≤ c ∧ c ≤ 57 then
        if size.cutoff ≤ l.value ∧ (size.cutoff < l.value ∨ size.cutlim < c.toNat - 48) then some error
        else do
          let product ← size.check (l.value * 10)
          let value ← size.check (product + (c.toNat - 48))
          loop isSec { l with value := value, valid := true } p
      else
        match _h : dispatch isSec l.step c p with
        | none => some error
        | some (step, scale, rest) => do
            match ← addTerm size isSec step scale l with
            | none => some error
            | some l => loop isSec l (rest.dropWhile (· = space))
termination_by p.length
decreasing_by
  · simp
  · have hle := dispatch_length _h
    have hdrop := (List.dropWhile_suffix (l := rest) (· = space)).length_le
    simp only [List.length_cons]
    omega

end ParseTime

open ParseTime

def parseSize (size : Size) (line : Bytes) : Option Int := scaled size atosz sizeUnit? line

def parseOffset (size : Size) (line : Bytes) : Option Int := scaled size atoof offsetUnit? line

def parseTime (size : Size) (line : Bytes) (isSec : Bool) : Option Int :=
  loop size isSec ⟨0, 0, if isSec then .start else .month, false⟩ line

namespace ParseTime

/-! What a text says: numbers, each with its unit, and a last number without one. -/

inductive TimeUnit where
  | year
  | month
  | week
  | day
  | hour
  | min
  | sec
  | msec
  deriving DecidableEq, Repr

def TimeUnit.millis : TimeUnit → Nat
  | year => 365 * 24 * 60 * 60 * 1000
  | month => 30 * 24 * 60 * 60 * 1000
  | week => 7 * 24 * 60 * 60 * 1000
  | day => 24 * 60 * 60 * 1000
  | hour => 60 * 60 * 1000
  | min => 60 * 1000
  | sec => 1000
  | msec => 1

/-- The unit that a byte behind a number begins, `none` for a space, and the text behind it -/
def unitAt (c : UInt8) (p : Bytes) : Option (Option TimeUnit × Bytes) :=
  if c = 121 then some (some .year, p)
  else if c = 77 then some (some .month, p)
  else if c = 119 then some (some .week, p)
  else if c = 100 then some (some .day, p)
  else if c = 104 then some (some .hour, p)
  else if c = 109 then
    if p.head? = some 115 then some (some .msec, p.tail) else some (some .min, p)
  else if c = 115 then some (some .sec, p)
  else if c = space then some (none, p)
  else none

theorem unitAt_length {c : UInt8} {p rest : Bytes} {unit : Option TimeUnit}
    (h : unitAt c p = some (unit, rest)) : rest.length ≤ p.length := by
  have hsuffix : rest <:+ p := by
    rw [unitAt] at h
    by_cases hyear : c = 121
    · rw [if_pos hyear] at h
      cases h
      exact List.suffix_rfl
    rw [if_neg hyear] at h
    by_cases hmonth : c = 77
    · rw [if_pos hmonth] at h
      cases h
      exact List.suffix_rfl
    rw [if_neg hmonth] at h
    by_cases hweek : c = 119
    · rw [if_pos hweek] at h
      cases h
      exact List.suffix_rfl
    rw [if_neg hweek] at h
    by_cases hday : c = 100
    · rw [if_pos hday] at h
      cases h
      exact List.suffix_rfl
    rw [if_neg hday] at h
    by_cases hhour : c = 104
    · rw [if_pos hhour] at h
      cases h
      exact List.suffix_rfl
    rw [if_neg hhour] at h
    by_cases hmin : c = 109
    · rw [if_pos hmin] at h
      split at h
      · cases h
        exact List.tail_suffix p
      · cases h
        exact List.suffix_rfl
    rw [if_neg hmin] at h
    by_cases hsec : c = 115
    · rw [if_pos hsec] at h
      cases h
      exact List.suffix_rfl
    rw [if_neg hsec] at h
    by_cases hspace : c = space
    · rw [if_pos hspace] at h
      cases h
      exact List.suffix_rfl
    rw [if_neg hspace] at h
    cases h
  exact hsuffix.length_le

/-- A number, which may lack its digits, and its unit -/
structure Term where
  digits : Bytes
  unit : Option TimeUnit

/-- A number without a unit counts seconds. -/
def unitMillis (unit : Option TimeUnit) : Nat := unit.elim 1000 TimeUnit.millis

def Term.millis (t : Term) : Nat := Decimal.value t.digits * unitMillis t.unit

def terms (text : Bytes) : Option (List Term) :=
  match _h : text.dropWhile isDigit with
  | [] => some [⟨text.takeWhile isDigit, none⟩]
  | c :: p =>
      match _hunit : unitAt c p with
      | none => none
      | some (unit, rest) =>
          (terms (rest.dropWhile (· = space))).map (⟨text.takeWhile isDigit, unit⟩ :: ·)
termination_by text.length
decreasing_by
  have hle := unitAt_length _hunit
  have hdrop := (List.dropWhile_suffix (l := rest) (· = space)).length_le
  have htext := (List.dropWhile_suffix (l := text) isDigit).length_le
  rw [_h, List.length_cons] at htext
  omega

def total (ts : List Term) : Nat := (ts.map Term.millis).sum

def units (ts : List Term) : List TimeUnit := ts.filterMap Term.unit

def stepOf : Option TimeUnit → Step
  | some .year => .year
  | some .month => .month
  | some .week => .week
  | some .day => .day
  | some .hour => .hour
  | some .min => .min
  | some .sec => .sec
  | some .msec => .msec
  | none => .last

def scaleOf : Option TimeUnit → Nat
  | some .year => 60 * 60 * 24 * 365
  | some .month => 60 * 60 * 24 * 30
  | some .week => 60 * 60 * 24 * 7
  | some .day => 60 * 60 * 24
  | some .hour => 60 * 60
  | some .min => 60
  | _ => 1

/-- The milliseconds that the result counts -/
def per (isSec : Bool) : Nat := if isSec then 1000 else 1

variable {size : Size} {isSec : Bool}

theorem millis_lt_of_rank {a b : TimeUnit} (h : stepOf (some a) < stepOf (some b)) :
    b.millis < a.millis := by
  cases a <;> cases b <;> revert h <;> decide

/-- A unit that the steps may refuse -/
theorem dispatch_case {isSec : Bool} {step step' : Step} {c : UInt8} {p q rest : Bytes} {scale : Nat}
    {refused : Prop} [Decidable refused] (unit : Option TimeUnit)
    (h : (if refused then none else some (stepOf unit, scaleOf unit, q)) = some (step', scale, rest))
    (hunit : unitAt c p = some (unit, q)) (hstep : ¬refused → step < stepOf unit)
    (hmsec : ¬refused → unit = some .msec → isSec = false) :
    ∃ unit, unitAt c p = some (unit, rest) ∧ step' = stepOf unit ∧ scale = scaleOf unit ∧
      step < step' ∧ (unit = some .msec → isSec = false) := by
  by_cases hrefused : refused
  · rw [if_pos hrefused] at h
    cases h
  · rw [if_neg hrefused] at h
    cases h
    exact ⟨unit, hunit, rfl, rfl, hstep hrefused, hmsec hrefused⟩

/-- What a unit that is not refused says about the steps -/
theorem dispatch_spec {isSec : Bool} {step step' : Step} {c : UInt8} {p rest : Bytes} {scale : Nat}
    (h : dispatch isSec step c p = some (step', scale, rest)) :
    ∃ unit, unitAt c p = some (unit, rest) ∧ step' = stepOf unit ∧ scale = scaleOf unit ∧
      step < step' ∧ (unit = some .msec → isSec = false) := by
  have hafter {unit : Step} (hle : ¬unit ≤ step) : step < unit := Nat.lt_of_not_le hle
  rw [dispatch] at h
  by_cases hyear : c = 121
  · rw [if_pos hyear] at h
    subst hyear
    exact dispatch_case (some .year) h rfl (fun hle => Nat.lt_succ_of_le (Nat.le_of_not_lt hle))
      fun _ hne => absurd hne (by decide)
  rw [if_neg hyear] at h
  by_cases hmonth : c = 77
  · rw [if_pos hmonth] at h
    subst hmonth
    exact dispatch_case (some .month) h rfl hafter fun _ hne => absurd hne (by decide)
  rw [if_neg hmonth] at h
  by_cases hweek : c = 119
  · rw [if_pos hweek] at h
    subst hweek
    exact dispatch_case (some .week) h rfl hafter fun _ hne => absurd hne (by decide)
  rw [if_neg hweek] at h
  by_cases hday : c = 100
  · rw [if_pos hday] at h
    subst hday
    exact dispatch_case (some .day) h rfl hafter fun _ hne => absurd hne (by decide)
  rw [if_neg hday] at h
  by_cases hhour : c = 104
  · rw [if_pos hhour] at h
    subst hhour
    exact dispatch_case (some .hour) h rfl hafter fun _ hne => absurd hne (by decide)
  rw [if_neg hhour] at h
  by_cases hmin : c = 109
  · rw [if_pos hmin] at h
    subst hmin
    split at h
    · next hhead =>
      exact dispatch_case (some .msec) h (if_pos hhead) (fun hor => hafter (not_or.mp hor).2)
        fun hor _ => Bool.eq_false_of_not_eq_true (not_or.mp hor).1
    · next hhead =>
      exact dispatch_case (some .min) h (if_neg hhead) hafter fun _ hne => absurd hne (by decide)
  rw [if_neg hmin] at h
  by_cases hsec : c = 115
  · rw [if_pos hsec] at h
    subst hsec
    exact dispatch_case (some .sec) h rfl hafter fun _ hne => absurd hne (by decide)
  rw [if_neg hsec] at h
  by_cases hspace : c = space
  · rw [if_pos hspace] at h
    subst hspace
    exact dispatch_case none h rfl (fun hle => Nat.lt_trans (hafter hle) (show 7 < 9 by decide))
      fun _ hne => absurd hne (by decide)
  rw [if_neg hspace] at h
  cases h

/-- The factor of a unit in the result -/
def factor (isSec : Bool) (unit : Option TimeUnit) : Nat :=
  if stepOf unit ≠ .msec ∧ isSec = false then scaleOf unit * 1000 else scaleOf unit

theorem factor_spec (size : Size) {unit : Option TimeUnit} {step : Step} (hstep : step < stepOf unit)
    (hmonth : isSec = false → Step.month ≤ step) (hmsec : unit = some .msec → isSec = false) :
    factor isSec unit * per isSec = unitMillis unit ∧ 0 < factor isSec unit ∧
      (isSec = false → factor isSec unit ≤ size.maxValue) := by
  have hfour : 604800000 ≤ size.maxValue := by cases size <;> decide
  cases isSec with
  | true =>
      have hne : unit ≠ some .msec := fun h => absurd (hmsec h) (by decide)
      rcases unit with _ | _ | _ | _ | _ | _ | _ | _ | _
      case some.msec => exact absurd rfl hne
      all_goals exact ⟨rfl, by decide, fun h => absurd h (by decide)⟩
  | false =>
      have hafter : 2 < (stepOf unit).rank := Nat.lt_of_le_of_lt (hmonth rfl) hstep
      rcases unit with _ | _ | _ | _ | _ | _ | _ | _ | _
      case some.year => exact absurd hafter (by decide)
      case some.month => exact absurd hafter (by decide)
      all_goals exact ⟨rfl, by decide, fun _ => Nat.le_trans (by decide) hfour⟩

theorem addTerm_spec (size : Size) {unit : Option TimeUnit} {n T : Nat} {l : Locals} (hvalue : l.value = n)
    (htotal : l.total = T) (hpos : 0 < factor isSec unit)
    (hfits : isSec = false → factor isSec unit ≤ size.maxValue) :
    addTerm size isSec (stepOf unit) (scaleOf unit) l = some none ∨
      T + n * factor isSec unit ≤ size.maxValue ∧
        addTerm size isSec (stepOf unit) (scaleOf unit) l =
          some (some { l with
            value := 0, total := ↑(T + n * factor isSec unit), step := stepOf unit }) := by
  have hscale : (if stepOf unit ≠ .msec ∧ isSec = false then size.check (scaleOf unit * 1000)
      else some (scaleOf unit : Int)) = some (factor isSec unit : Int) := by
    rw [factor] at hfits ⊢
    split
    · next h =>
      rw [if_pos h] at hfits
      exact Size.check_natCast (hfits h.2)
    · rfl
  have hmax : (if stepOf unit ≠ .msec ∧ isSec = false
      then (size.maxValue : Int) / scaleOf unit / 1000 else size.maxValue / scaleOf unit) =
      ↑(size.maxValue / factor isSec unit) := by
    rw [factor]
    split
    · rw [← Nat.div_div_eq_div_mul]
      rfl
    · rfl
  rw [addTerm, hscale, hmax, hvalue, htotal, Option.bind_eq_bind, Option.bind_some]
  generalize factor isSec unit = k at *
  by_cases hvaluemax : n ≤ size.maxValue / k
  · have hproduct : n * k ≤ size.maxValue := (Nat.le_div_iff_mul_le hpos).mp hvaluemax
    have hcast : (n : Int) * k = ↑(n * k) := (Nat.cast_mul n k).symm
    have hroom : (size.maxValue : Int) - ↑(n * k) = ↑(size.maxValue - n * k) := by omega
    rw [if_neg (by omega), hcast, Size.check_natCast hproduct]
    simp only [Option.bind_some]
    rw [hroom, Size.check_natCast (Nat.sub_le _ _)]
    simp only [Option.bind_some]
    by_cases hsum : T ≤ size.maxValue - n * k
    · have htotal' : T + n * k ≤ size.maxValue := by omega
      rw [if_neg (by omega), ← Nat.cast_add, Size.check_natCast htotal']
      exact .inr ⟨htotal', rfl⟩
    · exact .inl (if_pos (by omega))
  · exact .inl (if_pos (by omega))

theorem finish_spec (size : Size) (isSec : Bool) {n T : Nat} {l : Locals} (hvalue : l.value = n) (htotal : l.total = T)
    (hn : n ≤ size.maxValue) :
    ∃ r, finish size isSec l = some r ∧ (r = error ∨
      ∃ m : Nat, r = m ∧ m ≤ size.maxValue ∧ m * per isSec = T * per isSec + n * 1000) := by
  have hsum : ∀ v : Nat, v ≤ size.maxValue → v * per isSec = n * 1000 →
      ∃ r, (do
        let room ← size.check (size.maxValue - v)
        if room < (T : Int) then some error else size.check (T + v)) = some r ∧ (r = error ∨
          ∃ m : Nat, r = m ∧ m ≤ size.maxValue ∧ m * per isSec = T * per isSec + n * 1000) := by
    intro v hv hper
    have hroom : (size.maxValue : Int) - v = ↑(size.maxValue - v) := by omega
    rw [hroom, Size.check_natCast (Nat.sub_le _ _), Option.bind_eq_bind, Option.bind_some]
    by_cases hle : T ≤ size.maxValue - v
    · have htotal' : T + v ≤ size.maxValue := by omega
      rw [if_neg (by omega), ← Nat.cast_add, Size.check_natCast htotal']
      exact ⟨_, rfl, .inr ⟨_, rfl, htotal', by rw [Nat.add_mul, hper]⟩⟩
    · exact ⟨_, if_pos (by omega), .inl rfl⟩
  rw [finish, hvalue, htotal]
  by_cases hvalid : l.valid = false
  · exact ⟨_, if_pos hvalid, .inl rfl⟩
  rw [if_neg hvalid]
  cases isSec with
  | true => exact hsum n hn rfl
  | false =>
      by_cases hlarge : (size.maxValue : Int) / 1000 < n
      · exact ⟨_, if_pos ⟨rfl, hlarge⟩, .inl rfl⟩
      · have hcast : (n : Int) * 1000 = ↑(n * 1000) := by omega
        have hle : n * 1000 ≤ size.maxValue := by omega
        rw [if_neg fun h => hlarge h.2, hcast, Size.check_natCast hle]
        exact hsum (n * 1000) hle (Nat.mul_one _)

theorem loop_digit {n : Nat} {l : Locals} {c : UInt8} (hvalue : l.value = n)
    (hc : isDigit c = true) (p : Bytes) :
    loop size isSec l (c :: p) =
      if n * 10 + Decimal.digitVal c ≤ size.maxValue then
        loop size isSec { l with value := ↑(n * 10 + Decimal.digitVal c), valid := true } p
      else some error := by
  obtain ⟨-, hdigit, hlt⟩ := decimal?_of_isDigit hc
  rw [loop, if_pos (isDigit_iff.mp hc), hvalue, hdigit]
  by_cases hle : n * 10 + Decimal.digitVal c ≤ size.maxValue
  · obtain ⟨hproduct, hsum⟩ := append_digit hle
    rw [if_neg (mt (guard_iff hlt).mp (not_not.mpr hle)), if_pos hle, hproduct]
    simp only [Option.bind_eq_bind, Option.bind_some, hsum]
  · rw [if_pos ((guard_iff hlt).mpr hle), if_neg hle]

/-- The loop over the digits of a number -/
theorem loop_digits (size : Size) (isSec : Bool) {n : Nat} {l : Locals} {digits : Bytes} (hvalue : l.value = n)
    (hn : n ≤ size.maxValue) (hdigits : ∀ c ∈ digits, isDigit c) (p : Bytes) :
    loop size isSec l (digits ++ p) = some error ∨
      ∃ m valid, m = n * 10 ^ digits.length + Decimal.value digits ∧ m ≤ size.maxValue ∧
        loop size isSec l (digits ++ p) =
          loop size isSec { l with value := ↑m, valid := valid } p := by
  rw [← foldl_append_digits]
  induction digits generalizing n l with
  | nil =>
      refine .inr ⟨n, l.valid, rfl, hn, ?_⟩
      rw [List.nil_append, ← hvalue]
  | cons c digits ih =>
      obtain ⟨hc, hdigits⟩ := List.forall_mem_cons.mp hdigits
      rw [List.cons_append, loop_digit hvalue hc]
      by_cases hle : n * 10 + Decimal.digitVal c ≤ size.maxValue
      · rw [if_pos hle]
        exact ih rfl hle hdigits
      · rw [if_neg hle]
        exact .inl rfl

theorem terms_last {text : Bytes} (h : text.dropWhile isDigit = []) :
    terms text = some [⟨text.takeWhile isDigit, none⟩] := by
  rw [terms]
  split
  · rfl
  · next hcons => cases h.symm.trans hcons

theorem terms_unit {text p rest : Bytes} {c : UInt8} {unit : Option TimeUnit}
    (h : text.dropWhile isDigit = c :: p) (hunit : unitAt c p = some (unit, rest)) :
    terms text =
      (terms (rest.dropWhile (· = space))).map (⟨text.takeWhile isDigit, unit⟩ :: ·) := by
  rw [terms]
  split
  · next hnil => cases hnil.symm.trans h
  · next hcons =>
    obtain ⟨rfl, rfl⟩ := List.cons.inj (hcons.symm.trans h)
    split
    · next hnone => cases hnone.symm.trans hunit
    · next hsome =>
      obtain ⟨rfl, rfl⟩ := Prod.mk.inj (Option.some.inj (hsome.symm.trans hunit))
      rfl

theorem loop_other (size : Size) {l : Locals} {c : UInt8} (hc : ¬isDigit c = true) (p : Bytes) :
    loop size isSec l (c :: p) = some error ∧ dispatch isSec l.step c p = none ∨
      ∃ step scale rest, dispatch isSec l.step c p = some (step, scale, rest) ∧
        loop size isSec l (c :: p) = (addTerm size isSec step scale l).bind fun next =>
          next.elim (some error) fun l => loop size isSec l (rest.dropWhile (· = space)) := by
  rw [loop, if_neg (mt isDigit_iff.mpr hc)]
  split
  · next hnone => exact .inl ⟨rfl, hnone⟩
  · next step scale rest hsome =>
    refine .inr ⟨step, scale, rest, hsome, ?_⟩
    rcases addTerm size isSec step scale l with _ | _ | _ <;> rfl

/-- The units of the terms come behind the step, each a shorter one than those before it. -/
def Descend (step : Step) (ts : List Term) : Prop :=
  (∀ unit ∈ units ts, step < stepOf (some unit)) ∧
    (units ts).Pairwise fun a b => b.millis < a.millis

theorem Descend.cons {step : Step} {t : Term} {ts : List Term} (hstep : step < stepOf t.unit)
    (h : Descend (stepOf t.unit) ts) : Descend step (t :: ts) := by
  obtain ⟨digits, unit⟩ := t
  have hafter : ∀ u ∈ units ts, step < stepOf (some u) :=
    fun u hu => Nat.lt_trans hstep (h.1 u hu)
  rcases unit with _ | unit
  · exact ⟨hafter, h.2⟩
  · refine ⟨List.forall_mem_cons.mpr ⟨hstep, hafter⟩, List.pairwise_cons.mpr ⟨fun u hu => ?_, h.2⟩⟩
    exact millis_lt_of_rank (h.1 u hu)

theorem total_cons (t : Term) (ts : List Term) : total (t :: ts) = t.millis + total ts := rfl

/-- The result is -1 or the total of the terms, behind the total so far. -/
theorem loop_spec (size : Size) (isSec : Bool) (text : Bytes) {T : Nat} {l : Locals} (hvalue : l.value = 0)
    (htotal : l.total = T) (hmonth : isSec = false → Step.month ≤ l.step) :
    ∃ r, loop size isSec l text = some r ∧ (r = error ∨
      ∃ ts, terms text = some ts ∧ Descend l.step ts ∧
        ∃ m : Nat, r = m ∧ m ≤ size.maxValue ∧ m * per isSec = T * per isSec + total ts) := by
  have hdigits : ∀ c ∈ text.takeWhile isDigit, isDigit c := fun c hc => List.mem_takeWhile_imp hc
  have hsplit : text.takeWhile isDigit ++ text.dropWhile isDigit = text :=
    List.takeWhile_append_dropWhile
  have hnumber := loop_digits size isSec hvalue (Nat.zero_le _) hdigits
    (text.dropWhile isDigit)
  rw [hsplit, Nat.zero_mul, Nat.zero_add] at hnumber
  obtain herror | ⟨m, valid, hm, hmle, hloop⟩ := hnumber
  · exact ⟨_, herror, .inl rfl⟩
  rw [hloop]
  cases hrest : text.dropWhile isDigit with
  | nil =>
      obtain ⟨r, hr, hend⟩ :=
        finish_spec size isSec (rfl : ({ l with value := ↑m, valid := valid } : Locals).value = m) htotal hmle
      refine ⟨r, by rw [loop, hr], hend.imp_right ?_⟩
      rintro ⟨k, hk, hle, hper⟩
      refine ⟨[⟨text.takeWhile isDigit, none⟩], terms_last hrest, ?_, k, hk, hle, ?_⟩
      · exact ⟨fun u hu => absurd hu List.not_mem_nil, List.Pairwise.nil⟩
      · simp only [hper, hm, total, List.map_cons, List.map_nil, List.sum_cons, List.sum_nil,
          Term.millis, unitMillis, Option.elim_none, Nat.add_zero]
  | cons c p =>
      have hc : ¬isDigit c = true := by
        have hhead := List.head?_dropWhile_not isDigit text
        rw [hrest] at hhead
        simpa using hhead
      obtain ⟨herror, -⟩ | ⟨step, scale, rest, hdispatch, hother⟩ :=
        loop_other size (l := { l with value := ↑m, valid := valid }) hc p
      · exact ⟨_, herror, .inl rfl⟩
      obtain ⟨unit, hunit, rfl, rfl, hstep, hmsec⟩ := dispatch_spec hdispatch
      obtain ⟨hper, hpos, hfits⟩ := factor_spec size hstep hmonth hmsec
      rw [hother]
      have hterm := addTerm_spec size (l := { l with value := ↑m, valid := valid }) rfl htotal hpos hfits
      obtain hadd | ⟨hle, hadd⟩ := hterm
      · rw [hadd]
        exact ⟨_, rfl, .inl rfl⟩
      rw [hadd]
      have hshorter : (rest.dropWhile (· = space)).length < text.length := by
        have hle := unitAt_length hunit
        have hdrop := (List.dropWhile_suffix (l := rest) (· = space)).length_le
        have htext := (List.dropWhile_suffix (l := text) isDigit).length_le
        rw [hrest, List.length_cons] at htext
        omega
      have hmonth' : isSec = false → Step.month ≤ stepOf unit :=
        fun h => Nat.le_of_lt (Nat.lt_of_le_of_lt (hmonth h) hstep)
      obtain ⟨r, hr, hend⟩ := loop_spec size isSec (rest.dropWhile (· = space))
        (l := ⟨0, ↑(T + m * factor isSec unit), stepOf unit, valid⟩) rfl rfl hmonth'
      refine ⟨r, hr, hend.imp_right ?_⟩
      rintro ⟨ts, hts, hdescend, k, hk, hkle, hkper⟩
      refine ⟨⟨text.takeWhile isDigit, unit⟩ :: ts, ?_, hdescend.cons hstep, k, hk, hkle, ?_⟩
      · rw [terms_unit hrest hunit, hts]
        rfl
      · rw [hkper, total_cons, Term.millis, ← hm, ← hper, Nat.add_mul, Nat.mul_assoc, Nat.add_assoc]
termination_by text.length

/-- `v` is the number in a text times the scale of the unit behind it. -/
def Scaled (unit? : UInt8 → Option Nat) (line : Bytes) (v : Nat) : Prop :=
  ∃ digits n, DecimalText digits n ∧
    (line = digits ∧ v = n ∨ ∃ c scale, unit? c = some scale ∧ line = digits ++ [c] ∧ v = n * scale)

theorem scaled_iff {unit? : UInt8 → Option Nat} {line : Bytes} {unit : UInt8} {v : Nat}
    (hunit : ∀ c : UInt8, isDigit c = true → unit? c = none) (hlast : line.getLast? = some unit) :
    Scaled unit? line v ↔
      ∃ n, DecimalText (if (unit? unit).isSome then line.dropLast else line) n ∧
        v = n * (unit? unit).getD 1 := by
  have hline : line.dropLast ++ [unit] = line := by
    rw [List.dropLast_append_getLast?]
    exact hlast
  have hback : ∀ (digits : Bytes) (c : UInt8), line = digits ++ [c] →
      c = unit ∧ line.dropLast = digits := by
    rintro digits c rfl
    rw [List.getLast?_concat] at hlast
    exact ⟨Option.some.inj hlast, List.dropLast_concat⟩
  cases hscale : unit? unit with
  | none =>
      simp only [Option.isSome_none, Bool.false_eq_true, if_false, Option.getD_none, Nat.mul_one]
      constructor
      · rintro ⟨digits, n, htext, ⟨rfl, hv⟩ | ⟨c, scale, hc, hsplit, -⟩⟩
        · exact ⟨n, htext, hv⟩
        · rw [(hback digits c hsplit).1, hscale] at hc
          cases hc
      · rintro ⟨n, htext, hv⟩
        exact ⟨line, n, htext, .inl ⟨rfl, hv⟩⟩
  | some scale =>
      simp only [Option.isSome_some, if_true, Option.getD_some]
      constructor
      · rintro ⟨digits, n, htext, ⟨rfl, -⟩ | ⟨c, scale', hc, hsplit, rfl⟩⟩
        · have hdigit := hunit unit (htext.2.1 unit (List.mem_of_getLast? hlast))
          cases hdigit.symm.trans hscale
        · obtain ⟨rfl, rfl⟩ := hback digits c hsplit
          obtain rfl := Option.some.inj (hc.symm.trans hscale)
          exact ⟨n, htext, rfl⟩
      · rintro ⟨n, htext, rfl⟩
        exact ⟨line.dropLast, n, htext, .inr ⟨unit, scale, hscale, hline.symm, rfl⟩⟩

theorem scaled_exact {number : Size → Bytes → Option Int} {unit? : UInt8 → Option Nat}
    (hnumber : ∀ s, Returns (number size s) fun v => DecimalText s v ∧ v ≤ size.maxValue)
    (hunit : ∀ c : UInt8, isDigit c = true → unit? c = none)
    (hpos : ∀ c, ∀ scale ∈ unit? c, 0 < scale) (line : Bytes) :
    Returns (scaled size number unit? line)
      fun v => Scaled unit? line v ∧ v ≤ size.maxValue := by
  have herror : ∀ v : Nat, error ≠ (v : Int) := by
    intro v
    change (-1 : Int) ≠ v
    omega
  rw [scaled]
  cases hlast : line.getLast? with
  | none =>
      refine ⟨_, rfl, .inl rfl, fun v => ⟨fun h => absurd h (herror v), ?_⟩⟩
      rw [List.getLast?_eq_none_iff] at hlast
      rintro ⟨⟨digits, n, htext, ⟨rfl, -⟩ | ⟨c, scale, -, hsplit, -⟩⟩, -⟩
      · exact absurd hlast htext.1
      · rw [hlast] at hsplit
        exact absurd hsplit.symm (List.append_ne_nil_of_right_ne_nil _ (List.cons_ne_nil c []))
  | some unit =>
      dsimp only
      have hscaled := fun v => scaled_iff (v := v) hunit hlast
      have hscale : 0 < (unit? unit).getD 1 := by
        cases hs : unit? unit with
        | none => exact Nat.one_pos
        | some scale => exact hpos unit scale hs
      revert hscaled hscale
      generalize (unit? unit).getD 1 = scale
      generalize (if (unit? unit).isSome then line.dropLast else line) = digits
      intro hscaled hscale
      obtain ⟨x, hx, hcases, hvalue⟩ := hnumber digits
      rw [hx, Option.bind_eq_bind, Option.bind_some]
      -- the number is the only one that the digits denote
      have hrefused : (∀ n, DecimalText digits n → size.maxValue < n * scale) →
          ∀ v : Nat, error = (v : Int) ↔ Scaled unit? line v ∧ v ≤ size.maxValue := by
        intro hlarge v
        refine ⟨fun h => absurd h (herror v), ?_⟩
        rintro ⟨hv, hle⟩
        obtain ⟨n, htext, rfl⟩ := (hscaled v).mp hv
        exact absurd (hlarge n htext) (Nat.not_lt.mpr hle)
      rcases hcases with rfl | ⟨n, rfl⟩
      · rw [if_pos (.inl rfl)]
        refine ⟨_, rfl, .inl rfl, hrefused fun n htext => ?_⟩
        by_contra hle
        have hn : n ≤ size.maxValue :=
          Nat.le_trans (Nat.le_mul_of_pos_right n hscale) (Nat.not_lt.mp hle)
        exact absurd ((hvalue n).mpr ⟨htext, hn⟩) (herror n)
      · obtain ⟨htext, hn⟩ := (hvalue n).mp rfl
        have honly : ∀ k, DecimalText digits k → k = n := fun k hk => hk.2.2.trans htext.2.2.symm
        by_cases hle : n * scale ≤ size.maxValue
        · have hmax : ¬((n : Int) = error ∨ (size.maxValue : Int) / scale < n) := by
            rw [not_or]
            refine ⟨fun h => herror n h.symm, ?_⟩
            have := (Nat.le_div_iff_mul_le hscale).mpr hle
            omega
          rw [if_neg hmax, ← Nat.cast_mul, Size.check_natCast hle]
          refine ⟨_, rfl, .inr ⟨_, rfl⟩, fun v => ?_⟩
          change ((n * scale : Nat) : Int) = v ↔ Scaled unit? line v ∧ v ≤ size.maxValue
          rw [Nat.cast_inj, hscaled]
          constructor
          · rintro rfl
            exact ⟨⟨n, htext, rfl⟩, hle⟩
          · rintro ⟨⟨k, hk, rfl⟩, -⟩
            rw [honly k hk]
        · have hmax : (size.maxValue : Int) / scale < n := by
            have := Nat.lt_of_not_le (mt (Nat.le_div_iff_mul_le hscale).mp hle)
            omega
          rw [if_pos (.inr hmax)]
          refine ⟨_, rfl, .inl rfl, hrefused fun k hk => ?_⟩
          rw [honly k hk]
          exact Nat.not_le.mp hle

/-- The three functions, with either size of their types -/
theorem parse_exact (size : Size) (line : Bytes) :
    (Returns (parseSize size line) fun v => Scaled sizeUnit? line v ∧ v ≤ size.maxValue) ∧
    (Returns (parseOffset size line) fun v => Scaled offsetUnit? line v ∧ v ≤ size.maxValue) ∧
    ∀ isSec, ∃ r, parseTime size line isSec = some r ∧
      (r = error ∨ ∃ ts, terms line = some ts ∧
        ((units ts).Pairwise fun a b => b.millis < a.millis) ∧
          ∃ m : Nat, r = m ∧ m * per isSec = total ts) ∧
      ∀ ts ∈ terms line, size.maxValue * per isSec < total ts → r = error := by
  have hdecimal : ∀ s, Returns (decimal size s) fun v => DecimalText s v ∧ v ≤ size.maxValue :=
    fun s => (atoi_exact size s).1 _ List.mem_cons_self
  refine ⟨?_, ?_, fun isSec => ?_⟩
  · exact scaled_exact hdecimal (forall_byte (by decide)) (forall_byte (by decide)) line
  · exact scaled_exact hdecimal (forall_byte (by decide)) (forall_byte (by decide)) line
  · have hmonth : isSec = false → Step.month ≤ if isSec then Step.start else Step.month := by
      intro h
      subst h
      decide
    obtain ⟨r, hr, hresult⟩ := loop_spec size isSec line
      (l := ⟨0, 0, if isSec then .start else .month, false⟩) rfl rfl hmonth
    refine ⟨r, hr, hresult.imp_right ?_, fun ts hts hlarge => hresult.resolve_right ?_⟩
    · rintro ⟨ts, hts, hdescend, m, hm, -, hper⟩
      exact ⟨ts, hts, hdescend.2, m, hm, by rw [hper, Nat.zero_mul, Nat.zero_add]⟩
    · rintro ⟨ts', hts', -, m, hm, hle, hper⟩
      obtain rfl := Option.some.inj (hts.symm.trans hts')
      rw [Nat.zero_mul, Nat.zero_add] at hper
      have := Nat.mul_le_mul_right (per isSec) hle
      omega

end ParseTime

end RebuildTheWheel.Nginx
