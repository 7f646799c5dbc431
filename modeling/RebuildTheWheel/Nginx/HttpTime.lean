import RebuildTheWheel.Data.GregorianDate
import RebuildTheWheel.Nginx.Atoi
import RebuildTheWheel.Nginx.Vslprintf

namespace RebuildTheWheel.Nginx

open Data Data.Ascii

/-! `ngx_gmtime`, `ngx_http_time` and `ngx_parse_http_time` with a `time_t` of 64 bits. -/

/-- `ngx_tm_t` -/
structure Tm where
  sec : Int
  min : Int
  hour : Int
  mday : Int
  mon : Int
  year : Int
  wday : Int
  deriving DecidableEq, Repr

namespace HttpTime

/-! `ngx_gmtime`; all that is divided is positive, and far below 2 ^ 63. -/

/-- `year` and `yday`, from March 1 on -/
def yearDay (days : Int) : Int × Int :=
  let year := (days + 2) * 400 / (365 * 400 + 100 - 4 + 1)
  let yday := days - (365 * year + year / 4 - year / 100 + year / 400)
  if yday < 0 then
    let leap := if year % 4 = 0 ∧ (year % 100 ≠ 0 ∨ year % 400 = 0) then 1 else 0
    (year - 1, 365 + leap + yday)
  else (year, yday)

def fill (days sec : Int) : Tm :=
  let wday := (4 + days) % 7
  let hour := sec / 3600
  let sec := sec % 3600
  let min := sec / 60
  let sec := sec % 60
  let days := days - (31 + 28) + 719527
  let year := (yearDay days).1
  let yday := (yearDay days).2
  let mon := (yday + 31) * 10 / 306
  let mday := yday - (367 * mon / 12 - 30) + 1
  if 306 ≤ yday then ⟨sec, min, hour, mday, mon - 10, year + 1, wday⟩
  else ⟨sec, min, hour, mday, mon + 2, year, wday⟩

end HttpTime

def gmtime (t : Int) : Tm :=
  let t := if t < 0 then 0 else t
  if 2932896 < t / 86400 then HttpTime.fill 2932896 86399
  else HttpTime.fill (t / 86400) (t % 86400)

namespace HttpTime

/-! `ngx_http_time` -/

def week : List Bytes :=
  [[83, 117, 110], [77, 111, 110], [84, 117, 101], [87, 101, 100], [84, 104, 117], [70, 114, 105],
    [83, 97, 116]]

def months : List Bytes :=
  [[74, 97, 110], [70, 101, 98], [77, 97, 114], [65, 112, 114], [77, 97, 121], [74, 117, 110],
    [74, 117, 108], [65, 117, 103], [83, 101, 112], [79, 99, 116], [78, 111, 118], [68, 101, 99]]

/-- An element of these arrays, up to its NUL -/
def name (names : List Bytes) (i : Int) : PrintArg := .chars (names.getD i.toNat [] ++ [0])

def int (x : Int) : PrintArg := .int32 (Int32.ofInt x).toUInt32

/-- `%s, %02d %s %4d %02d:%02d:%02d GMT` -/
def format : Bytes :=
  [37, 115, 44, 32, 37, 48, 50, 100, 32, 37, 115, 32, 37, 52, 100, 32, 37, 48, 50, 100, 58, 37,
    48, 50, 100, 58, 37, 48, 50, 100, 32, 71, 77, 84]

end HttpTime

/-- `ngx_sprintf`: `last` is the highest address. -/
def sprintf (buf : Nat) (fmt : Bytes) (args : List PrintArg) : Except PrintFault Bytes :=
  vslprintf (0xffffffffffffffff - buf) fmt args

open HttpTime in
/-- What is written from the address `buf` on -/
def httpTime (buf : Nat) (t : Int) : Except PrintFault Bytes :=
  let tm := gmtime t
  sprintf buf format [name week tm.wday, int tm.mday, name months (tm.mon - 1), int tm.year,
    int tm.hour, int tm.min, int tm.sec]

/-! `ngx_parse_http_time` -/

namespace ParseHttpTime

inductive Stop where
  /-- `return NGX_ERROR` -/
  | error
  /-- A byte behind the text is read. -/
  | outside
  deriving DecidableEq, Repr

abbrev Parse := Except Stop

inductive Format where
  | rfc822
  | rfc850
  | isoc
  deriving DecidableEq, Repr

/-- `NGX_ERROR` is returned otherwise. -/
def require (condition : Prop) [Decidable condition] : Parse Unit :=
  if condition then pure () else throw .error

def peek (p : Bytes) (i : Nat) : Parse UInt8 :=
  match p[i]? with
  | some c => pure c
  | none => throw .outside

/-- `if (*p++ != c)` -/
def skip (c : UInt8) : Bytes → Parse Bytes
  | [] => throw .outside
  | b :: p => if b = c then pure p else throw .error

/-- So many digits behind a number -/
def number : Nat → Nat → Bytes → Parse (Nat × Bytes)
  | 0, value, p => pure (value, p)
  | _ + 1, _, [] => throw .outside
  | n + 1, value, c :: p =>
      if c < zero ∨ 57 < c then throw .error else number n (value * 10 + (c.toNat - 48)) p

/-- The first loop, and whether it ends at a space -/
def weekday : Bytes → Bool × Bytes
  | [] => (false, [])
  | c :: p => if c = comma then (false, p) else if c = space then (true, p) else weekday p

/-- The day of the month in front of the month -/
def dayFirst (p : Bytes) : Parse (Format × Nat × Bytes) := do
  let (day, p) ← number 2 0 p
  match p with
  | [] => throw .outside
  | c :: rest =>
      if c = space then do
        require (18 ≤ p.length)
        return (.rfc822, day, rest)
      else if c = minus then return (.rfc850, day, rest)
      else throw .error

/-- `switch (*p)` -/
def month (p : Bytes) : Parse Nat := do
  let c ← peek p 0
  if c = 74 then do
    let second ← peek p 1
    if second = 97 then return 0
    else do
      let third ← peek p 2
      return if third = 110 then 5 else 6
  else if c = 70 then return 1
  else if c = 77 then do
    let third ← peek p 2
    return if third = 114 then 2 else 4
  else if c = 65 then do
    let second ← peek p 1
    return if second = 112 then 3 else 7
  else if c = 83 then return 8
  else if c = 79 then return 9
  else if c = 78 then return 10
  else if c = 68 then return 11
  else throw .error

/-- Behind the month -/
def separator (fmt : Format) : Bytes → Parse Bytes
  | [] => throw .outside
  | c :: p => do
      require ¬((fmt = .rfc822 ∧ c ≠ space) ∨ (fmt = .rfc850 ∧ c ≠ minus))
      return p

/-- The day of the month behind the month, with one digit or two -/
def dayLast (p : Bytes) : Parse (Nat × Bytes) := do
  let (day, p) ← number 1 0 (if p.head? = some space then p.tail else p)
  let c ← peek p 0
  let (day, p) ← if c = space then pure (day, p) else number 1 day p
  require (14 ≤ p.length)
  return (day, p)

/-- The day and the year; in one format the year is at the end. -/
def dayYear (fmt : Format) (day : Nat) (p : Bytes) : Parse (Nat × Nat × Bytes) := do
  match fmt with
  | .rfc822 =>
      let (year, p) ← number 4 0 p
      return (day, year, p)
  | .rfc850 =>
      let (year, p) ← number 2 0 p
      return (day, if year < 70 then year + 2000 else year + 1900, p)
  | .isoc =>
      let (day, p) ← dayLast p
      return (day, 0, p)

def clock (p : Bytes) : Parse (Nat × Nat × Nat × Bytes) := do
  let p ← skip space p
  let (hour, p) ← number 2 0 p
  let p ← skip colon p
  let (min, p) ← number 2 0 p
  let p ← skip colon p
  let (sec, p) ← number 2 0 p
  return (hour, min, sec, p)

def yearLast (fmt : Format) (year : Nat) (p : Bytes) : Parse Nat :=
  if fmt = .isoc then do
    let p ← skip space p
    let (year, _) ← number 4 0 p
    return year
  else pure year

def mday : List Nat := [31, 28, 31, 30, 31, 30, 31, 31, 30, 31, 30, 31]

def check (day month year hour min sec : Nat) : Parse Unit := do
  require (hour ≤ 23 ∧ min ≤ 59 ∧ sec ≤ 59)
  if day = 29 ∧ month = 1 then
    require ¬(year &&& 3 ≠ 0 ∨ (year % 100 = 0 ∧ year % 400 ≠ 0))
  else require (day ≤ mday.getD month 0)

/-- Gauss' formula, in unsigned numbers of 64 bits -/
def seconds (day month year hour min sec : Int) : Int :=
  let last := month - 1 ≤ 0
  let year := if last then (year - 1) % 0x10000000000000000 else year
  let month := if last then month - 1 + 12 else month - 1
  Int.bmod ((365 * year + year / 4 - year / 100 + year / 400 + 367 * month / 12 - 30 + day - 1
    - 719527 + 31 + 28) * 86400 + hour * 3600 + min * 60 + sec) 0x10000000000000000

def parse (value : Bytes) : Parse Int := do
  let p := (weekday value).2.dropWhile (· = space)
  require (18 ≤ p.length)
  let (fmt, day, p) ← if (weekday value).1 then pure (.isoc, 0, p) else dayFirst p
  let month ← month p
  let p ← separator fmt (p.drop 3)
  let (day, year, p) ← dayYear fmt day p
  let (hour, min, sec, p) ← clock p
  let year ← yearLast fmt year p
  check day month year hour min sec
  return seconds day month year hour min sec

end ParseHttpTime

/-- `none` where a byte behind the text is read -/
def parseHttpTime (value : Bytes) : Option Int :=
  match ParseHttpTime.parse value with
  | .ok time => some time
  | .error .error => some (-1)
  | .error .outside => none

/-! What `ngx_gmtime` computes -/

open Gregorian

namespace HttpTime

theorem yearDay_spec (days : Int) :
    ∃ year yday, yearDay days = (year, yday) ∧ days = yearStart year + yday ∧ 0 ≤ yday ∧
      yday < 365 + if IsLeap (year + 1) then 1 else 0 := by
  rw [yearDay]
  dsimp only
  generalize hyear : (days + 2) * 400 / (365 * 400 + 100 - 4 + 1) = year
  have hnext := yearStart_succ year
  have hlow : yearStart year ≤ days + 2 := by
    rw [yearStart]
    omega
  have hhigh : days < yearStart (year + 1) := by
    rw [yearStart]
    omega
  change ∃ year' yday, (if days - yearStart year < 0 then
    (year - 1, 365 + (if IsLeap year then 1 else 0) + (days - yearStart year))
    else (year, days - yearStart year)) = (year', yday) ∧ _
  split
  · next hneg =>
    -- one of the last days of February
    have hprev := yearStart_succ (year - 1)
    rw [Int.sub_add_cancel] at hprev
    refine ⟨_, _, rfl, ?_, ?_, ?_⟩
    · omega
    · split
      · omega
      · omega
    · rw [Int.sub_add_cancel]
      omega
  · exact ⟨year, days - yearStart year, rfl, by omega, by omega, by omega⟩

/-- The month of a day of the year, and the day of the month -/
theorem month_spec {yday : Int} (h : 0 ≤ yday) (hlt : yday < 366) :
    ∃ mon : Int, (yday + 31) * 10 / 306 = mon ∧ 1 ≤ mon ∧ mon ≤ 12 ∧ (306 ≤ yday ↔ 11 ≤ mon) ∧
      monthStart mon ≤ yday ∧ yday < monthStart (mon + 1) := by
  refine ⟨_, rfl, ?_, ?_, ?_, ?_, ?_⟩
  · omega
  · omega
  · omega
  · rw [monthStart]
    omega
  · rw [monthStart]
    omega

/-- The days of a month that begins in a year from March on -/
theorem day_le_daysIn {year mon mday : Nat} {yday start : Int} (hday : yday - start + 1 = mday)
    (hpos : 1 ≤ mon) (hle : mon ≤ 12) (hlt : yday < monthStart ((march year mon).2 + 1))
    (hlast : yday < 365 + if IsLeap ((march year mon).1 + 1) then 1 else 0)
    (hstart : monthStart (march year mon).2 = start) : mday ≤ daysIn year mon := by
  subst hstart
  by_cases hleap : IsLeap year
  · interval_cases mon <;> simp [march, monthStart, daysIn, hleap] at hlt hlast hday ⊢ <;> omega
  · interval_cases mon <;> simp [march, monthStart, daysIn, hleap] at hlt hlast hday ⊢ <;> omega

/-- A day of a year from March on, in a month of that year -/
theorem valid_of_march {year mon mday : Nat} {first month yday : Int} (hpos : 1 ≤ mon)
    (hle : mon ≤ 12) (hmarch : march year mon = (first, month)) (hstart : monthStart month ≤ yday)
    (hend : yday < monthStart (month + 1))
    (hlast : yday < 365 + if IsLeap (first + 1) then 1 else 0)
    (hday : yday - monthStart month + 1 = mday) :
    1 ≤ mday ∧ mday ≤ daysIn year mon ∧ serial year mon mday = yearStart first + yday := by
  refine ⟨by omega, ?_, ?_⟩
  · apply day_le_daysIn hday hpos hle
    · rwa [hmarch]
    · rwa [hmarch]
    · rw [hmarch]
  · rw [serial, hmarch]
    dsimp only
    omega

theorem fill_spec (days : Nat) (sec : Int) :
    ∃ year mon mday : Nat, (fill days sec).year = year ∧ (fill days sec).mon = mon ∧
      (fill days sec).mday = mday ∧ 1 ≤ mon ∧ mon ≤ 12 ∧ 1 ≤ mday ∧ mday ≤ daysIn year mon ∧
      serial year mon mday = 719468 + days := by
  obtain ⟨year, yday, hyearDay, hdays, hpos, hlt⟩ :=
    yearDay_spec ((days : Int) - (31 + 28) + 719527)
  obtain ⟨mon, hmon, hmonpos, hmonle, hiff, hstart, hend⟩ :=
    month_spec hpos (by split at hlt <;> omega)
  have hyear : 0 ≤ year := by
    have hmono := yearStart_succ year
    rw [yearStart] at hdays
    omega
  have hmday : yday - (367 * mon / 12 - 30) + 1 = yday - monthStart mon + 1 := rfl
  have hserial : yearStart year + yday = 719468 + days := by omega
  simp only [fill, hyearDay, hmon, hmday]
  obtain ⟨mday, hday⟩ := Int.eq_ofNat_of_zero_le (show 0 ≤ yday - monthStart mon + 1 by omega)
  rw [hday, ← hserial]
  split
  · next hlate =>
    have hmarch : march (year.toNat + 1) (mon.toNat - 10) = (year, mon) := by
      rw [march, if_pos (by omega)]
      exact Prod.ext (by omega) (by omega)
    have hvalid := valid_of_march (by omega) (by omega) hmarch hstart hend hlt hday
    exact ⟨year.toNat + 1, mon.toNat - 10, mday, by dsimp only; omega, by dsimp only; omega, rfl,
      by omega, by omega, hvalid⟩
  · next hearly =>
    have hmarch : march year.toNat (mon.toNat + 2) = (year, mon) := by
      rw [march, if_neg (by omega)]
      exact Prod.ext (by omega) (by omega)
    have hvalid := valid_of_march (by omega) (by omega) hmarch hstart hend hlt hday
    exact ⟨year.toNat, mon.toNat + 2, mday, by dsimp only; omega, by dsimp only; omega, rfl,
      by omega, by omega, hvalid⟩

theorem fill_date (days : Nat) (sec : Int) :
    (fill days sec).year = (dateOf days).year ∧ (fill days sec).mon = (dateOf days).month ∧
      (fill days sec).mday = (dateOf days).day := by
  obtain ⟨year, mon, mday, hyear, hmon, hmday, hpos, hle, hdaypos, hdayle, hserial⟩ :=
    fill_spec days sec
  have hdate : dateOf days = ⟨year, mon, mday, hpos, hle, hdaypos, hdayle⟩ :=
    Date.eq_of_serial ((serial_dateOf days).trans hserial.symm)
  rw [hdate]
  exact ⟨hyear, hmon, hmday⟩

theorem fill_clock (days sec : Int) :
    (fill days sec).wday = (4 + days) % 7 ∧ (fill days sec).hour = sec / 3600 ∧
      (fill days sec).min = sec % 3600 / 60 ∧ (fill days sec).sec = sec % 3600 % 60 := by
  unfold fill
  dsimp only
  split
  · exact ⟨rfl, rfl, rfl, rfl⟩
  · exact ⟨rfl, rfl, rfl, rfl⟩

/-- The date, the time of day and the day of the week of a time -/
structure Describes (tm : Tm) (t : Int) : Prop where
  year : tm.year = (dateOf (t / 86400).toNat).year
  mon : tm.mon = (dateOf (t / 86400).toNat).month
  mday : tm.mday = (dateOf (t / 86400).toNat).day
  hour : 0 ≤ tm.hour ∧ tm.hour < 24
  min : 0 ≤ tm.min ∧ tm.min < 60
  sec : 0 ≤ tm.sec ∧ tm.sec < 60
  time : tm.hour * 3600 + tm.min * 60 + tm.sec = t % 86400
  wday : tm.wday = (weekdayOf (t / 86400).toNat).val

theorem gmtime_describes {t : Int} (h : 0 ≤ t) (hle : t ≤ 253402300799) :
    Describes (gmtime t) t := by
  obtain ⟨days, hdays⟩ := Int.eq_ofNat_of_zero_le (show 0 ≤ t / 86400 by omega)
  have heq : gmtime t = fill days (t % 86400) := by
    rw [gmtime, if_neg (Int.not_lt.mpr h), if_neg (by omega), hdays]
  obtain ⟨hyear, hmon, hmday⟩ := fill_date days (t % 86400)
  obtain ⟨hwday, hhour, hmin, hsec⟩ := fill_clock days (t % 86400)
  have hweek := weekdayOf_val days
  rw [heq]
  constructor
  · rw [hdays, hyear]
    rfl
  · rw [hdays, hmon]
    rfl
  · rw [hdays, hmday]
    rfl
  · omega
  · omega
  · omega
  · omega
  · rw [hdays, hwday]
    change _ = ((weekdayOf days).val : Int)
    omega

end HttpTime

/-! What `ngx_http_time` writes -/

open Vslprintf

namespace HttpTime

/-- So many digits, which denote the number -/
def Fixed (k v : Nat) (text : Bytes) : Prop :=
  text.length = k ∧ Numeral.numeral 10 Numeral.decimal? 0 text = some v

theorem decimal?_digit : ∀ d < 10, Numeral.decimal? (digit .no d) = some d := by
  decide

theorem value_numeral (v : Nat) :
    Numeral.numeral 10 Numeral.decimal? 0 (numeral .no v) = some v := by
  induction v using Nat.strongRecOn with
  | ind v ih =>
      have hlast : ∀ n, Numeral.numeral 10 Numeral.decimal? n [digit .no (v % 10)] =
          some (n * 10 + v % 10) := by
        intro n
        rw [Numeral.numeral, decimal?_digit _ (Nat.mod_lt _ (by decide))]
        rfl
      rw [numeral]
      change Numeral.numeral 10 _ 0 (if _ : v / 10 ≠ 0 then numeral .no (v / 10) ++
        [digit .no (v % 10)] else [digit .no (v % 10)]) = _
      split
      · next hmore =>
        have hlt : v / 10 < v := @div_radix_lt .no v hmore
        rw [Numeral.numeral_append, ih _ hlt, Option.bind_some, hlast]
        congr 1
        omega
      · next hone =>
        rw [hlast]
        congr 1
        omega

theorem value_replicate_zero (k : Nat) (s : Bytes) :
    Numeral.numeral 10 Numeral.decimal? 0 (List.replicate k zero ++ s) =
      Numeral.numeral 10 Numeral.decimal? 0 s := by
  induction k with
  | zero => rfl
  | succ k ih => exact ih

theorem length_numeral_ge {hex : Hexadecimal} {k x : Nat} (h : radix hex ^ k ≤ x) :
    k < (numeral hex x).length := by
  induction k generalizing x with
  | zero =>
      rw [numeral]
      split
      · rw [List.length_append]
        exact Nat.lt_add_left _ (Nat.zero_lt_one)
      · exact Nat.zero_lt_one
  | succ k ih =>
      have hradix : 0 < radix hex := by cases hex <;> decide
      have hdiv : radix hex ^ k ≤ x / radix hex := (Nat.le_div_iff_mul_le hradix).mpr h
      have hpos : 0 < radix hex ^ k := Nat.pow_pos hradix
      rw [numeral, dif_pos (by omega), List.length_append]
      exact Nat.succ_lt_succ (ih hdiv)

theorem fixed_padded {k v : Nat} (h : v < 10 ^ (k + 1)) :
    Fixed (k + 1) v (padded zero (k + 1) (numeral .no v)) := by
  have hle := @length_numeral_le .no k v h
  constructor
  · rw [padded, List.length_append, List.length_replicate, Nat.sub_add_cancel hle]
  · rw [padded, value_replicate_zero, value_numeral]

theorem fixed_numeral {k v : Nat} (h : 10 ^ k ≤ v) (hlt : v < 10 ^ (k + 1)) (c : UInt8) :
    Fixed (k + 1) v (padded c (k + 1) (numeral .no v)) := by
  have hle := @length_numeral_le .no k v hlt
  have hge := @length_numeral_ge .no k v h
  have hpadded : padded c (k + 1) (numeral .no v) = numeral .no v := by
    rw [padded, Nat.sub_eq_zero_of_le hge]
    rfl
  rw [hpadded]
  exact ⟨Nat.le_antisymm hle hge, value_numeral v⟩

/-- A number that is passed as `int` -/
theorem numberText_int {x : Int} (d : Directive) (h : 0 ≤ x) (hlt : x < 2147483648) :
    numberText d (signExtend (Int32.ofInt x).toUInt32) =
      padded d.zero d.width.toNat (numeral d.hex x.toNat) := by
  change numberText d (Int32.ofInt x).toInt64.toUInt64 = _
  have hint : (Int32.ofInt x).toInt64.toInt = x := by
    rw [Int32.toInt_toInt64]
    exact Int32.toInt_ofInt_of_le (by omega) hlt
  have hnonneg : 0 ≤ (Int32.ofInt x).toInt64 := by
    rw [Int64.le_iff_toInt_le, hint]
    exact h
  rw [numberText, if_neg (fun hand => absurd hnonneg (Int64.not_le.mpr hand.2)),
    Int64.toNat_toUInt64_of_le hnonneg, Int64.toNatClampNeg, hint]

def two (x : Int) : Bytes := padded zero 2 (numeral .no x.toNat)

def four (x : Int) : Bytes := padded space 4 (numeral .no x.toNat)

theorem fixed_two {x : Int} {v : Nat} (hx : x = v) (h : x < 100) : Fixed 2 v (two x) := by
  subst hx
  exact fixed_padded (by omega)

theorem fixed_four {x : Int} {v : Nat} (hx : x = v) (h : 1000 ≤ x) (hlt : x < 10000) :
    Fixed 4 v (four x) := by
  subst hx
  exact fixed_numeral (k := 3) (by omega) (by omega) space

/-- The text of a date and a time of day -/
def text (tm : Tm) : Bytes :=
  week.getD tm.wday.toNat [] ++ comma :: space :: (two tm.mday ++ space ::
    (months.getD (tm.mon - 1).toNat [] ++ space :: (four tm.year ++ space ::
      (two tm.hour ++ colon :: (two tm.min ++ colon :: (two tm.sec ++ [space, 71, 77, 84]))))))

section Conversions

variable {fmt rest : Bytes} {args : List PrintArg}

theorem fits_name {s : Bytes} (hs : 0 ∉ s) (h : Fits (fun n out => loop n fmt args out) rest) :
    Fits (fun n out => loop n (37 :: 115 :: fmt) (.chars (s ++ [0]) :: args) out) (s ++ rest) := by
  have hcopy := fits_copyChars (p := s ++ [0]) (List.mem_append_right s List.mem_cons_self)
  have hs' : (s ++ [0]).takeWhile (· ≠ 0) = s := by
    rw [List.takeWhile_append_of_pos]
    · exact List.append_nil s
    · intro c hc
      exact decide_eq_true (ne_of_mem_of_not_mem hc hs)
  rw [hs'] at hcopy
  refine fits_conversion (d := ⟨space, 0, true, .no, false, -1⟩) rfl (fun n out => ?_) h
  exact convert_other hcopy.room fun n out => rfl

theorem fits_two {x : Int} (hx : 0 ≤ x) (hlt : x < 100)
    (h : Fits (fun n out => loop n fmt args out) rest) :
    Fits (fun n out => loop n (37 :: 48 :: 50 :: 100 :: fmt) (int x :: args) out)
      (two x ++ rest) := by
  refine fits_conversion (d := ⟨zero, 2, true, .no, false, -1⟩) rfl (fun n out hout => ?_) h
  have hnumber := numberText_int ⟨zero, 2, true, .no, false, -1⟩ hx (Int.lt_trans hlt (by decide))
  change _ = two x at hnumber
  rw [← hnumber]
  exact convert_number rfl hout

theorem fits_four {x : Int} (hx : 0 ≤ x) (hlt : x < 10000)
    (h : Fits (fun n out => loop n fmt args out) rest) :
    Fits (fun n out => loop n (37 :: 52 :: 100 :: fmt) (int x :: args) out)
      (four x ++ rest) := by
  refine fits_conversion (d := ⟨space, 4, true, .no, false, -1⟩) rfl (fun n out hout => ?_) h
  have hnumber := numberText_int ⟨space, 4, true, .no, false, -1⟩ hx (Int.lt_trans hlt (by decide))
  change _ = four x at hnumber
  rw [← hnumber]
  exact convert_number rfl hout

end Conversions

end HttpTime

namespace HttpTime

theorem week_spec {i : Nat} (h : i < 7) : (week.getD i []).length = 3 ∧
    ∀ c ∈ week.getD i [], c ≠ 0 ∧ c ≠ comma ∧ c ≠ space := by
  interval_cases i <;> simp [week, comma, space]

theorem months_spec {i : Nat} (h : i < 12) : (months.getD i []).length = 3 ∧
    ∀ c ∈ months.getD i [], c ≠ 0 := by
  interval_cases i <;> simp [months]

/-- Of the years with four digits -/
structure Printable (tm : Tm) : Prop where
  sec : 0 ≤ tm.sec ∧ tm.sec < 60
  min : 0 ≤ tm.min ∧ tm.min < 60
  hour : 0 ≤ tm.hour ∧ tm.hour < 24
  mday : 1 ≤ tm.mday ∧ tm.mday ≤ 31
  mon : 1 ≤ tm.mon ∧ tm.mon ≤ 12
  year : 1000 ≤ tm.year ∧ tm.year < 10000
  wday : 0 ≤ tm.wday ∧ tm.wday < 7

variable {tm : Tm}

theorem Printable.wday_lt (h : Printable tm) : tm.wday.toNat < 7 := by
  have hwday := h.wday
  omega

theorem Printable.mon_lt (h : Printable tm) : (tm.mon - 1).toNat < 12 := by
  have hmon := h.mon
  omega

/-- The numbers that the text shows -/
theorem Printable.numbers (h : Printable tm) :
    ∃ mday year hour min sec : Nat, (tm.mday = mday ∧ Fixed 2 mday (two tm.mday)) ∧
      (tm.year = year ∧ Fixed 4 year (four tm.year)) ∧
      (tm.hour = hour ∧ Fixed 2 hour (two tm.hour)) ∧
      (tm.min = min ∧ Fixed 2 min (two tm.min)) ∧ tm.sec = sec ∧ Fixed 2 sec (two tm.sec) := by
  have hmday := h.mday
  have hyear := h.year
  have hhour := h.hour
  have hmin := h.min
  have hsec := h.sec
  obtain ⟨mday, heqmday⟩ := Int.eq_ofNat_of_zero_le (show 0 ≤ tm.mday by omega)
  obtain ⟨year, heqyear⟩ := Int.eq_ofNat_of_zero_le (show 0 ≤ tm.year by omega)
  obtain ⟨hour, heqhour⟩ := Int.eq_ofNat_of_zero_le hhour.1
  obtain ⟨min, heqmin⟩ := Int.eq_ofNat_of_zero_le hmin.1
  obtain ⟨sec, heqsec⟩ := Int.eq_ofNat_of_zero_le hsec.1
  exact ⟨mday, year, hour, min, sec, ⟨heqmday, fixed_two heqmday (by omega)⟩,
    ⟨heqyear, fixed_four heqyear hyear.1 hyear.2⟩, ⟨heqhour, fixed_two heqhour (by omega)⟩,
    ⟨heqmin, fixed_two heqmin (by omega)⟩, heqsec, fixed_two heqsec (by omega)⟩

theorem length_text (h : Printable tm) : (text tm).length = 29 := by
  obtain ⟨hweek, -⟩ := week_spec h.wday_lt
  obtain ⟨hmonth, -⟩ := months_spec h.mon_lt
  obtain ⟨_, _, _, _, _, ⟨-, hmday, -⟩, ⟨-, hyear, -⟩, ⟨-, hhour, -⟩, ⟨-, hmin, -⟩, -, hsec, -⟩ :=
    h.numbers
  simp only [text, List.length_append, List.length_cons, hweek, hmonth, hmday, hyear, hhour, hmin,
    hsec, List.length_nil]

theorem fits_format (h : Printable tm) :
    Fits (fun n out => loop n format [name week tm.wday, int tm.mday, name months (tm.mon - 1),
      int tm.year, int tm.hour, int tm.min, int tm.sec] out) (text tm) := by
  obtain ⟨-, hweek⟩ := week_spec h.wday_lt
  obtain ⟨-, hmonth⟩ := months_spec h.mon_lt
  have hmday := h.mday
  have hyear := h.year
  have hhour := h.hour
  apply fits_name fun hmem => (hweek 0 hmem).1 rfl
  apply fits_text (by decide)
  apply fits_text (by decide)
  apply fits_two (by omega) (by omega)
  apply fits_text (by decide)
  apply fits_name fun hmem => hmonth 0 hmem rfl
  apply fits_text (by decide)
  apply fits_four (by omega) (by omega)
  apply fits_text (by decide)
  apply fits_two (by omega) (by omega)
  apply fits_text (by decide)
  apply fits_two h.min.1 (Int.lt_trans h.min.2 (by decide))
  apply fits_text (by decide)
  apply fits_two h.sec.1 (Int.lt_trans h.sec.2 (by decide))
  apply fits_text (by decide)
  apply fits_text (by decide)
  apply fits_text (by decide)
  apply fits_text (by decide)
  exact fits_nil []

theorem httpTime_eq {buf : Nat} {t : Int} (h : Printable (gmtime t)) (hbuf : buf + 29 < 2 ^ 64) :
    httpTime buf t = .ok (text (gmtime t)) := by
  have hlength := length_text h
  refine (fits_format h _ [] (Nat.zero_le _)).trans ?_
  rw [List.nil_append, List.take_of_length_le]
  omega

end HttpTime

/-! What `ngx_parse_http_time` reads -/

namespace ParseHttpTime

open HttpTime

theorem require_of {condition : Prop} [Decidable condition] (h : condition) :
    require condition = pure () := if_pos h

theorem weekday_append {s : Bytes} (h : ∀ c ∈ s, c ≠ comma ∧ c ≠ space) (rest : Bytes) :
    weekday (s ++ comma :: rest) = (false, rest) := by
  induction s with
  | nil => rfl
  | cons c s ih =>
      obtain ⟨hcomma, hspace⟩ := h c List.mem_cons_self
      rw [List.cons_append, weekday, if_neg hcomma, if_neg hspace]
      exact ih fun c hc => h c (List.mem_cons_of_mem _ hc)

theorem number_append {n v : Nat} {s : Bytes}
    (h : Numeral.numeral 10 Numeral.decimal? n s = some v) (rest : Bytes) :
    number s.length n (s ++ rest) = pure (v, rest) := by
  induction s generalizing n with
  | nil =>
      cases h
      rfl
  | cons c s ih =>
      obtain ⟨d, hd, hs⟩ := Option.bind_eq_some_iff.mp h
      have hdigit : ¬(c < zero ∨ 57 < c) := fun hor =>
        Option.some_ne_none d (hd.symm.trans (Atoi.decimal?_of_or hor))
      obtain ⟨hvalue, -, -⟩ := Atoi.decimal?_of_isDigit (Atoi.isDigit_of_not_or hdigit)
      cases hd.symm.trans hvalue
      rw [List.length_cons, List.cons_append, number, if_neg hdigit]
      exact ih hs

theorem number_fixed {k v : Nat} {s : Bytes} (h : Fixed k v s) (rest : Bytes) :
    number k 0 (s ++ rest) = pure (v, rest) := by
  obtain ⟨rfl, hvalue⟩ := h
  exact number_append hvalue rest

theorem dropWhile_space {k v : Nat} {s : Bytes} (h : Fixed (k + 1) v s) (rest : Bytes) :
    (space :: (s ++ rest)).dropWhile (· = space) = s ++ rest := by
  obtain ⟨hlength, hvalue⟩ := h
  cases s with
  | nil => cases hlength
  | cons c s =>
      obtain ⟨d, hd, -⟩ := Option.bind_eq_some_iff.mp hvalue
      have hc : c ≠ space := by
        rintro rfl
        cases hd
      change (c :: (s ++ rest)).dropWhile (· = space) = _
      exact List.dropWhile_cons_of_neg (by simpa using hc)

theorem dayFirst_append {day : Nat} {s rest : Bytes} (h : Fixed 2 day s)
    (hrest : 17 ≤ rest.length) : dayFirst (s ++ space :: rest) = pure (.rfc822, day, rest) := by
  rw [dayFirst, number_fixed h, pure_bind]
  dsimp only
  rw [if_pos rfl, require_of (by rw [List.length_cons]; exact Nat.succ_le_succ hrest), pure_bind]

theorem month_append : ∀ i < 12, ∀ rest, month (months.getD i [] ++ rest) = pure i := by
  intro i hi rest
  interval_cases i <;> rfl

theorem dayYear_append {day year : Nat} {s : Bytes} (h : Fixed 4 year s) (rest : Bytes) :
    dayYear .rfc822 day (s ++ rest) = pure (day, year, rest) := by
  rw [dayYear, number_fixed h, pure_bind]

theorem clock_append {hour min sec : Nat} {s s' s'' : Bytes} (h : Fixed 2 hour s)
    (h' : Fixed 2 min s') (h'' : Fixed 2 sec s'') (rest : Bytes) :
    clock (space :: (s ++ colon :: (s' ++ colon :: (s'' ++ rest)))) =
      pure (hour, min, sec, rest) := by
  have hspace : ∀ p, skip space (space :: p) = pure p := fun _ => rfl
  have hcolon : ∀ p, skip colon (colon :: p) = pure p := fun _ => rfl
  rw [clock, hspace, pure_bind, number_fixed h, pure_bind]
  dsimp only
  rw [hcolon, pure_bind, number_fixed h', pure_bind]
  dsimp only
  rw [hcolon, pure_bind, number_fixed h'', pure_bind]

/-- A date has no more days than the table, or one more in a leap year. -/
theorem check_date (date : Date) {hour min sec : Nat} (hhour : hour < 24) (hmin : min < 60)
    (hsec : sec < 60) : check date.day (date.month - 1) date.year hour min sec = pure () := by
  obtain ⟨year, month, day, hpos, hle, -, hday⟩ := date
  rw [check, require_of ⟨Nat.le_of_lt_succ hhour, Nat.le_of_lt_succ hmin, Nat.le_of_lt_succ hsec⟩,
    pure_bind]
  dsimp only
  split
  · next hlast =>
    apply require_of
    have hmonth : month = 2 := by omega
    rw [daysIn, if_pos hmonth] at hday
    have hleap : IsLeap year := by
      split at hday
      · assumption
      · omega
    rw [IsLeap] at hleap
    have hand : year &&& 3 = year % 4 := Nat.and_two_pow_sub_one_eq_mod year 2
    omega
  · next hother =>
    apply require_of
    rw [daysIn] at hday
    split at hday
    · next hfeb =>
      subst hfeb
      change day ≤ 28
      split at hday
      · omega
      · exact hday
    · next hother =>
      interval_cases month <;> simp [mday] at hday hother ⊢ <;> omega

/-- The year and the month are shifted to March. -/
theorem shift_eq_march {year month : Nat} (hpos : 1 ≤ month) (hyear : 1 ≤ year)
    (hlt : year < 0x10000000000000000) :
    (if (↑(month - 1) : Int) - 1 ≤ 0 then ((year : Int) - 1) % 0x10000000000000000 else year) =
        (march year month).1 ∧
      (if (↑(month - 1) : Int) - 1 ≤ 0 then (↑(month - 1) : Int) - 1 + 12
        else ↑(month - 1) - 1) = (march year month).2 := by
  rw [march]
  split
  · rw [if_pos (by omega)]
    constructor <;> omega
  · rw [if_neg (by omega)]
    exact ⟨rfl, by omega⟩

theorem seconds_date (date : Date) {hour min sec : Nat} (hyear : 1000 ≤ date.year)
    (hyear' : date.year < 10000) (hhour : hour < 24) (hmin : min < 60) (hsec : sec < 60) :
    seconds date.day ↑(date.month - 1) date.year hour min sec =
      (date.serial - 719468) * 86400 + hour * 3600 + min * 60 + sec := by
  obtain ⟨hend, hstart, hlt⟩ := serial_bounds date.month_pos date.month_le date.day_le
  have hdaypos := date.day_pos
  have hserial : date.serial = yearStart (march date.year date.month).1 +
    monthStart (march date.year date.month).2 + date.day - 1 := rfl
  obtain ⟨hshift, hshift'⟩ :=
    @shift_eq_march date.year date.month date.month_pos (by omega) (by omega)
  have hrange : 999 ≤ (march date.year date.month).1 ∧ (march date.year date.month).1 < 10000 := by
    rw [march]
    split
    · constructor <;> omega
    · constructor <;> omega
  change date.serial < _ at hlt
  rw [seconds, hshift, hshift']
  generalize march date.year date.month = shifted at *
  rw [yearStart] at hserial hlt
  rw [monthStart] at hserial hstart
  refine (congrArg (Int.bmod · _) ?_).trans (Int.bmod_eq_of_le_mul_two ?_ ?_)
  · omega
  · omega
  · omega

end ParseHttpTime

namespace ParseHttpTime

open HttpTime

theorem parse_text {tm : Tm} {date : Date} (h : Printable tm) (hyear : tm.year = date.year)
    (hmon : tm.mon = date.month) (hmday : tm.mday = date.day) :
    parse (text tm) = pure ((date.serial - 719468) * 86400 + tm.hour * 3600 + tm.min * 60 +
      tm.sec) := by
  have hrange := h.year
  have hmonthlt : date.month - 1 < 12 := by
    have hle := date.month_le
    omega
  have hmonth : (tm.mon - 1).toNat = date.month - 1 := by omega
  obtain ⟨-, hweek⟩ := week_spec h.wday_lt
  obtain ⟨hlength, -⟩ := months_spec hmonthlt
  obtain ⟨mday, year, hour, min, sec, ⟨hmday', htwo⟩, ⟨hyear', hfour⟩, ⟨hhour, htwohour⟩,
    ⟨hmin, htwomin⟩, hsec, htwosec⟩ := h.numbers
  obtain rfl : mday = date.day := Int.ofNat_inj.mp (hmday'.symm.trans hmday)
  obtain rfl : year = date.year := Int.ofNat_inj.mp (hyear'.symm.trans hyear)
  have hhour24 := h.hour
  have hmin60 := h.min
  have hsec60 := h.sec
  rw [text, hmonth, parse, weekday_append fun c hc => (hweek c hc).2]
  dsimp only
  generalize hname : months.getD (date.month - 1) [] = name at hlength
  have hdrop : ∀ rest, (name ++ rest).drop 3 = rest := by
    intro rest
    rw [← hlength]
    exact List.drop_left
  rw [dropWhile_space htwo, require_of (by
    simp only [List.length_append, List.length_cons, htwo.1, hlength, hfour.1]
    omega), pure_bind, if_neg Bool.false_ne_true, dayFirst_append htwo (by
    simp only [List.length_append, List.length_cons, hlength, hfour.1, htwohour.1]
    omega), pure_bind]
  dsimp only
  rw [← hname, month_append _ hmonthlt, hname, pure_bind, hdrop]
  have hseparator : ∀ p, separator .rfc822 (space :: p) = pure p := fun _ => rfl
  rw [hseparator, pure_bind, dayYear_append hfour, pure_bind]
  dsimp only
  rw [clock_append htwohour htwomin htwosec, pure_bind]
  dsimp only
  have hlast : ∀ p, yearLast .rfc822 date.year p = pure date.year := fun _ => rfl
  rw [hlast, pure_bind, check_date date (by omega) (by omega) (by omega), pure_bind,
    seconds_date date (by omega) (by omega) (by omega) (by omega) (by omega), hhour, hmin, hsec]

end ParseHttpTime

namespace HttpTime

theorem year_dateOf {days : Nat} (h : days ≤ 2932896) :
    1000 ≤ (dateOf days).year ∧ (dateOf days).year < 10000 := by
  have hserial := serial_dateOf days
  generalize dateOf days = date at hserial
  obtain ⟨hend, hstart, hlt⟩ := serial_bounds date.month_pos date.month_le date.day_le
  have hpos := date.month_pos
  have hdaypos := date.day_pos
  rw [Date.serial] at hserial
  rw [hserial, yearStart] at hlt
  rw [serial, yearStart, monthStart] at hserial
  rw [march] at hserial hlt
  split at hserial
  · next hearly =>
    rw [if_pos hearly] at hlt
    dsimp only at hserial hlt
    constructor <;> omega
  · next hlate =>
    rw [if_neg hlate] at hlt
    dsimp only at hserial hlt
    constructor <;> omega

theorem Describes.printable {tm : Tm} {t : Int} (h : Describes tm t)
    (hle : t ≤ 253402300799) : Printable tm := by
  have hdays : (t / 86400).toNat ≤ 2932896 := by omega
  obtain ⟨hyear, hyear'⟩ := year_dateOf hdays
  generalize hdate : dateOf (t / 86400).toNat = date at *
  have hday := date.day_le
  have hmax := daysIn_le date.year date.month
  have hdaypos := date.day_pos
  have hmonthpos := date.month_pos
  have hmonthle := date.month_le
  have hwday := (weekdayOf (t / 86400).toNat).isLt
  obtain ⟨heqyear, heqmon, heqmday, hhour, hmin, hsec, -, heqwday⟩ := h
  rw [hdate] at heqyear heqmon heqmday
  exact ⟨hsec, hmin, hhour, by omega, by omega, by omega, by omega⟩

/-- The times of the years 1970 to 9999 are printed and read again. -/
theorem httpTime_exact {t : Int} (h : 0 ≤ t) (hle : t ≤ 253402300799) {buf : Nat}
    (hbuf : buf + 29 < 2 ^ 64) :
    Describes (gmtime t) t ∧
      ∃ text, httpTime buf t = .ok text ∧ text.length = 29 ∧ parseHttpTime text = some t := by
  have hdescribes := gmtime_describes h hle
  have hprintable := hdescribes.printable hle
  refine ⟨hdescribes, text (gmtime t), httpTime_eq hprintable hbuf, length_text hprintable, ?_⟩
  rw [parseHttpTime, ParseHttpTime.parse_text hprintable hdescribes.year hdescribes.mon
    hdescribes.mday, serial_dateOf]
  have htime := hdescribes.time
  change some _ = some t
  congr 1
  omega

/-- February 29, 2000 -/
theorem httpTime_leap_day : Describes (gmtime 951782400) 951782400 ∧
    ∃ text, httpTime 4096 951782400 = .ok text ∧ text.length = 29 ∧
      parseHttpTime text = some 951782400 :=
  httpTime_exact (by decide) (by decide) (by decide)

end HttpTime

end RebuildTheWheel.Nginx
