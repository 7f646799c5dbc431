import Mathlib.Algebra.Group.Int.Defs
import Mathlib.Algebra.GroupWithZero.Nat
import Mathlib.Data.List.TakeWhile
import Mathlib.Data.Nat.Basic
import Mathlib.Order.Basic

namespace RebuildTheWheel.Webbench

/-! One child of the rebuilt webbench. -/

structure Counters where
  speed : UInt32
  failed : UInt32
  bytes : UInt32

def Counters.zero : Counters := ⟨0, 0, 0⟩

/-- Where an attempt ends, with the numbers of bytes that `read` has returned before. -/
inductive Outcome where
  | connectFails
  | writeFails
  | readFails (reads : List Nat)
  | completes (reads : List Nat)

def Outcome.completed : Outcome → Bool
  | .completes _ => true
  | _ => false

/-- The outcomes that raise `failed`. -/
def Outcome.counted : Outcome → Bool
  | .connectFails => true
  | .writeFails => true
  | _ => false

structure Attempt where
  outcome : Outcome
  -- the timer has expired when the attempt ends
  late : Bool

/-- After this attempt `benchcore` returns, at once or at the top of its loop. -/
def Attempt.last (a : Attempt) : Bool := !a.outcome.completed || a.late

def Counters.read (c : Counters) (reads : List Nat) : Counters :=
  { c with bytes := reads.foldl (fun bytes i => bytes + UInt32.ofNat i) c.bytes }

def Counters.count (c : Counters) : Outcome → Counters
  | .connectFails => { c with failed := c.failed + 1 }
  | .writeFails => { c with failed := c.failed + 1 }
  | .readFails reads => c.read reads
  | .completes reads => { c.read reads with speed := c.speed + 1 }

/-- The loop of `benchcore`, for what would become of each attempt. At the end of the list the
timer has expired before the next one. -/
def benchcore : List Attempt → Counters → Counters
  | [], c => c
  | a :: attempts, c =>
      if a.last then c.count a.outcome else benchcore attempts (c.count a.outcome)

/-- The attempts that the child makes. -/
def made : List Attempt → List Attempt
  | [] => []
  | a :: attempts => if a.last then [a] else a :: made attempts

/-- The attempts that end before the timer expires. -/
def timely (attempts : List Attempt) : List Attempt := (made attempts).takeWhile (!·.late)

/-- At any time before the timer expires, the counters have each attempt once. -/
def EachCounted (attempts : List Attempt) : Prop :=
  ∀ sofar, sofar <+: timely attempts →
    (benchcore sofar .zero).speed.toNat = sofar.countP (·.outcome.completed) ∧
      (benchcore sofar .zero).failed.toNat = sofar.countP (!·.outcome.completed)

variable {attempts sofar : List Attempt}

theorem count_speed (c : Counters) (outcome : Outcome) :
    (c.count outcome).speed = c.speed + UInt32.ofNat outcome.completed.toNat := by
  cases outcome <;> simp [Counters.count, Counters.read, Outcome.completed]

theorem count_failed (c : Counters) (outcome : Outcome) :
    (c.count outcome).failed = c.failed + UInt32.ofNat outcome.counted.toNat := by
  cases outcome <;> simp [Counters.count, Counters.read, Outcome.counted]

theorem made_of_prefix (h : sofar <+: made attempts) : made sofar = sofar := by
  induction attempts generalizing sofar with
  | nil => rw [List.prefix_nil.mp h, made]
  | cons a attempts ih =>
      cases sofar with
      | nil => rfl
      | cons b sofar =>
          rw [made] at h
          split_ifs at h with hlast
          · obtain ⟨rfl, hnil⟩ := List.cons_prefix_cons.mp h
            rw [List.prefix_nil.mp hnil, made, if_pos hlast]
          · obtain ⟨rfl, hsofar⟩ := List.cons_prefix_cons.mp h
            rw [made, if_neg hlast, ih hsofar]

/-- A counter that each outcome with `p` raises by one. -/
theorem benchcore_counter {f : Counters → UInt32} {p : Outcome → Bool}
    (hcount : ∀ c outcome, f (c.count outcome) = f c + UInt32.ofNat (p outcome).toNat)
    (attempts : List Attempt) (c : Counters) :
    f (benchcore attempts c) = f c + UInt32.ofNat ((made attempts).countP (p ·.outcome)) := by
  induction attempts generalizing c with
  | nil => simp [benchcore, made]
  | cons a attempts ih =>
      rw [benchcore, made]
      split_ifs
      · rw [hcount, List.countP_singleton]
        cases p a.outcome <;> rfl
      · rw [ih, hcount, List.countP_cons, UInt32.add_assoc, ← UInt32.ofNat_add, Nat.add_comm]
        cases p a.outcome <;> rfl

theorem benchcore_speed (attempts : List Attempt) :
    (benchcore attempts .zero).speed.toNat =
      (made attempts).countP (·.outcome.completed) % 2 ^ 32 := by
  rw [benchcore_counter count_speed, Counters.zero, UInt32.zero_add, UInt32.toNat_ofNat']

/-- A child stops at its first failure. -/
theorem countP_counted_le (attempts : List Attempt) :
    (made attempts).countP (·.outcome.counted) ≤ 1 := by
  induction attempts with
  | nil => exact Nat.zero_le 1
  | cons a attempts ih =>
      rw [made]
      split_ifs with hlast
      · exact List.countP_le_length
      · have hcounted : a.outcome.counted = false := by
          cases houtcome : a.outcome <;> simp_all [Attempt.last, Outcome.completed, Outcome.counted]
        rwa [List.countP_cons_of_neg (by simp [hcounted])]

theorem benchcore_failed (attempts : List Attempt) :
    (benchcore attempts .zero).failed.toNat = (made attempts).countP (·.outcome.counted) := by
  rw [benchcore_counter count_failed, Counters.zero, UInt32.zero_add, UInt32.toNat_ofNat',
    Nat.mod_eq_of_lt (Nat.lt_of_le_of_lt (countP_counted_le attempts) (by decide))]

theorem forall_of_countP_eq {α : Type} {p q : α → Bool} {l : List α}
    (himp : ∀ a ∈ l, p a → q a) (h : l.countP p = l.countP q) : ∀ a ∈ l, q a → p a := by
  induction l with
  | nil => exact fun a ha => absurd ha List.not_mem_nil
  | cons b l ih =>
      rw [List.forall_mem_cons] at himp ⊢
      have hle : l.countP p ≤ l.countP q := List.countP_mono_left himp.2
      rw [List.countP_cons, List.countP_cons] at h
      have hhead : p b = q b := by
        cases hp : p b with
        | true => exact (himp.1 hp).symm
        | false =>
            rw [hp] at h
            cases hq : q b with
            | false => rfl
            | true => simp [hq] at h; omega
      rw [hhead] at h
      exact ⟨fun hq => hhead.trans hq, ih himp.2 (Nat.add_right_cancel h)⟩

theorem not_completed_of_counted {outcome : Outcome} (h : outcome.counted) :
    !outcome.completed := by
  cases outcome <;> simp_all [Outcome.counted, Outcome.completed]

/-- An error of `read` is not counted. -/
theorem eachCounted_iff (attempts : List Attempt) :
    EachCounted attempts ↔
      (timely attempts).countP (·.outcome.completed) < 2 ^ 32 ∧
        ∀ a ∈ timely attempts, !a.outcome.completed → a.outcome.counted := by
  have hmade : ∀ sofar, sofar <+: timely attempts → made sofar = sofar := fun sofar hsofar =>
    made_of_prefix (hsofar.trans (List.takeWhile_prefix _))
  constructor
  · intro h
    obtain ⟨hspeed, hfailed⟩ := h _ List.prefix_rfl
    rw [benchcore_speed, hmade _ List.prefix_rfl] at hspeed
    rw [benchcore_failed, hmade _ List.prefix_rfl] at hfailed
    exact ⟨Nat.mod_eq_iff_lt (by decide) |>.mp hspeed,
      forall_of_countP_eq (fun a _ => not_completed_of_counted) hfailed⟩
  · rintro ⟨hlt, hcounted⟩ sofar hsofar
    rw [benchcore_speed, benchcore_failed, hmade sofar hsofar]
    refine ⟨Nat.mod_eq_of_lt (Nat.lt_of_le_of_lt (hsofar.sublist.countP_le) hlt), ?_⟩
    refine List.countP_congr fun a ha => ?_
    exact ⟨not_completed_of_counted, hcounted a (hsofar.subset ha)⟩

theorem mem_timely_iff {a : Attempt} : a ∈ timely attempts ↔ a ∈ made attempts ∧ a.late = false := by
  unfold timely
  induction attempts with
  | nil => simp [made]
  | cons b attempts ih =>
      rw [made]
      split_ifs with hlast
      · rw [List.takeWhile_cons, List.takeWhile_nil]
        split_ifs <;> simp_all
      · have hlate : b.late = false := by
          rw [Attempt.last, Bool.or_eq_true, not_or] at hlast
          exact Bool.not_eq_true _ |>.mp hlast.2
        rw [List.takeWhile_cons_of_pos (by rw [hlate]; rfl), List.mem_cons, ih, List.mem_cons]
        constructor
        · rintro (rfl | hmem)
          · exact ⟨.inl rfl, hlate⟩
          · exact ⟨.inr hmem.1, hmem.2⟩
        · rintro ⟨rfl | hmem, hnotLate⟩
          · exact .inl rfl
          · exact .inr ⟨hmem, hnotLate⟩

/-- A child that neither counts a failure nor misses one ends with its timer. -/
theorem stopsInTime_iff :
    ((∀ a ∈ timely attempts, !a.outcome.completed → a.outcome.counted) ∧
        (made attempts).countP (·.outcome.counted) = 0) ↔
      ∀ a ∈ made attempts, !a.outcome.completed → a.late ∧ !a.outcome.counted := by
  simp only [List.countP_eq_zero, Bool.not_eq_true]
  constructor
  · rintro ⟨htimely, hnone⟩ a ha hfails
    refine ⟨?_, by rw [hnone a ha]; rfl⟩
    by_contra hlate
    have hcounted := htimely a (mem_timely_iff.mpr ⟨ha, Bool.not_eq_true _ |>.mp hlate⟩) hfails
    rw [hnone a ha] at hcounted
    exact nomatch hcounted
  · intro h
    constructor
    · intro a ha hfails
      obtain ⟨hmade, hlate⟩ := mem_timely_iff.mp ha
      exact absurd ((h a hmade hfails).1.symm.trans hlate) (by decide)
    · intro a ha
      by_contra hcounted
      have hcounted : a.outcome.counted = true := Bool.not_eq_false _ |>.mp hcounted
      have hnot := (h a ha (not_completed_of_counted hcounted)).2
      rw [hcounted] at hnot
      exact nomatch hnot

end RebuildTheWheel.Webbench

namespace RebuildTheWheel.Webbench

/-! The parent of the rebuilt webbench. -/

/-- The numbers of a line in the pipe, which are written and read with `%d`. -/
structure ResultLine where
  speed : Int32
  failed : Int32
  bytes : Int32

def resultLine (c : Counters) : ResultLine := ⟨c.speed.toInt32, c.failed.toInt32, c.bytes.toInt32⟩

def Counters.add (t : Counters) (line : ResultLine) : Counters :=
  ⟨t.speed + line.speed.toUInt32, t.failed + line.failed.toUInt32, t.bytes + line.bytes.toUInt32⟩

/-- The loop that reads the pipe, for the clients that are left. -/
def collect : Nat → List ResultLine → Counters → Counters
  | _, [], t => t
  | clients, line :: lines, t =>
      if clients - 1 = 0 then t.add line else collect (clients - 1) lines (t.add line)

/-- `Requests: %d susceed, %d failed.` -/
structure Printed where
  succeeded : Int32
  failed : Int32

def bench (clients : Nat) (lines : List ResultLine) : Printed :=
  let t := collect clients lines .zero
  let failed := if t.failed ≤ 1 then 0 else t.failed - 1
  ⟨t.speed.toInt32, failed.toInt32⟩

/-- What would become of the attempts of each child. Their number is an `int`. -/
structure Clients where
  runs : List (List Attempt)
  pos : 0 < runs.length
  lt : runs.length < 2 ^ 31

def Clients.counters (clients : Clients) : List Counters :=
  clients.runs.map (benchcore · .zero)

/-- In every order of the lines, the printed numbers are the sums of the counters. -/
def PrintsSums (clients : Clients) : Prop :=
  ∀ lines, lines.Perm (clients.counters.map resultLine) →
    (bench clients.runs.length lines).succeeded.toInt =
        (clients.counters.map (·.speed.toNat)).sum ∧
      (bench clients.runs.length lines).failed.toInt =
        (clients.counters.map (·.failed.toNat)).sum

theorem collect_eq (lines : List ResultLine) (t : Counters) :
    collect lines.length lines t = lines.foldl Counters.add t := by
  induction lines generalizing t with
  | nil => rfl
  | cons line lines ih =>
      rw [List.length_cons, collect, Nat.add_sub_cancel, List.foldl_cons, ← ih]
      split_ifs with hlast
      · rw [List.length_eq_zero_iff.mp hlast, List.length_nil, collect]
      · rfl

/-- Any counter of the totals. -/
theorem foldl_add_toNat {f : Counters → UInt32} {g : ResultLine → UInt32}
    (hadd : ∀ t line, f (t.add line) = f t + g line) (lines : List ResultLine) (t : Counters) :
    (f (lines.foldl Counters.add t)).toNat =
      ((f t).toNat + (lines.map fun line => (g line).toNat).sum) % 2 ^ 32 := by
  induction lines generalizing t with
  | nil => exact (Nat.mod_eq_of_lt (f t).toNat_lt).symm
  | cons line lines ih =>
      rw [List.foldl_cons, ih, hadd, UInt32.toNat_add, List.map_cons, List.sum_cons,
        Nat.mod_add_mod, Nat.add_assoc]

theorem toInt_toInt32 (x : UInt32) :
    x.toInt32.toInt = if x.toNat < 2 ^ 31 then (x.toNat : Int) else x.toNat - 2 ^ 32 := by
  change x.toBitVec.toInt = _
  rw [BitVec.toInt_eq_toNat_cond]
  change (if 2 * x.toNat < 2 ^ 32 then (x.toNat : Int) else x.toNat - 2 ^ 32) = _
  split_ifs <;> omega

theorem toNat_lessOne (x : UInt32) : (if x ≤ 1 then 0 else x - 1).toNat = x.toNat - 1 := by
  have hone : (1 : UInt32).toNat = 1 := rfl
  split_ifs with hle
  · have hle : x.toNat ≤ 1 := UInt32.le_iff_toNat_le.mp hle
    rw [UInt32.toNat_zero]
    omega
  · have hle : 1 ≤ x.toNat := by
      rw [UInt32.le_iff_toNat_le] at hle
      omega
    rw [UInt32.toNat_sub_of_le x 1 (UInt32.le_iff_toNat_le.mpr hle), hone]

variable {lines : List ResultLine} {counters : List Counters}

theorem total_speed (horder : lines.Perm (counters.map resultLine)) :
    (lines.foldl Counters.add .zero).speed.toNat =
      (counters.map (·.speed.toNat)).sum % 2 ^ 32 := by
  rw [foldl_add_toNat (g := fun line => line.speed.toUInt32) (fun _ _ => rfl),
    (horder.map _).sum_nat, List.map_map]
  simp [Function.comp_def, resultLine, Counters.zero]

theorem total_failed (horder : lines.Perm (counters.map resultLine)) :
    (lines.foldl Counters.add .zero).failed.toNat =
      (counters.map (·.failed.toNat)).sum % 2 ^ 32 := by
  rw [foldl_add_toNat (g := fun line => line.failed.toUInt32) (fun _ _ => rfl),
    (horder.map _).sum_nat, List.map_map]
  simp [Function.comp_def, resultLine, Counters.zero]

/-- One failure is taken away, whatever the children counted. -/
theorem printsSums_iff (clients : Clients)
    (hfailed : (clients.counters.map (·.failed.toNat)).sum < 2 ^ 31) :
    PrintsSums clients ↔
      (clients.counters.map (·.speed.toNat)).sum < 2 ^ 31 ∧
        (clients.counters.map (·.failed.toNat)).sum = 0 := by
  have hprinted : ∀ lines, lines.Perm (clients.counters.map resultLine) →
      ((bench clients.runs.length lines).succeeded.toInt =
          (clients.counters.map (·.speed.toNat)).sum ∧
        (bench clients.runs.length lines).failed.toInt =
          (clients.counters.map (·.failed.toNat)).sum ↔
      (clients.counters.map (·.speed.toNat)).sum < 2 ^ 31 ∧
        (clients.counters.map (·.failed.toNat)).sum = 0) := by
    intro lines horder
    have hlength : clients.runs.length = lines.length := by
      simp [horder.length_eq, Clients.counters]
    have hspeed := total_speed horder
    have hfail := total_failed horder
    rw [Nat.mod_eq_of_lt (by omega)] at hfail
    simp only [bench, hlength, collect_eq, toInt_toInt32]
    refine and_congr ?_ ?_
    · rw [hspeed]
      split_ifs <;> omega
    · rw [toNat_lessOne, hfail]
      split_ifs <;> omega
  exact ⟨fun h => (hprinted _ (List.Perm.refl _)).mp (h _ (List.Perm.refl _)),
    fun h lines horder => (hprinted lines horder).mpr h⟩

theorem sum_counted_le (runs : List (List Attempt)) :
    (runs.map fun attempts => (made attempts).countP (·.outcome.counted)).sum ≤ runs.length := by
  induction runs with
  | nil => exact le_rfl
  | cons attempts runs ih =>
      have hle := countP_counted_le attempts
      rw [List.map_cons, List.sum_cons, List.length_cons]
      omega

/-- Every child stops because of its timer, and the numbers fit: the only runs of the benchmark
whose figures are right. -/
theorem bench_counts_iff (clients : Clients) :
    ((∀ attempts ∈ clients.runs, EachCounted attempts) ∧ PrintsSums clients) ↔
      (∀ attempts ∈ clients.runs, ∀ a ∈ made attempts,
        !a.outcome.completed → a.late ∧ !a.outcome.counted) ∧
      (∀ attempts ∈ clients.runs, (timely attempts).countP (·.outcome.completed) < 2 ^ 32) ∧
      (clients.runs.map fun attempts =>
        (made attempts).countP (·.outcome.completed) % 2 ^ 32).sum < 2 ^ 31 := by
  have hspeed : clients.counters.map (·.speed.toNat) = clients.runs.map fun attempts =>
      (made attempts).countP (·.outcome.completed) % 2 ^ 32 := by
    simp [Clients.counters, benchcore_speed]
  have hfailed : clients.counters.map (·.failed.toNat) = clients.runs.map fun attempts =>
      (made attempts).countP (·.outcome.counted) := by
    simp [Clients.counters, benchcore_failed]
  have hle : (clients.counters.map (·.failed.toNat)).sum ≤ clients.runs.length := by
    rw [hfailed]
    exact sum_counted_le clients.runs
  rw [printsSums_iff clients (Nat.lt_of_le_of_lt hle clients.lt), hspeed, hfailed]
  simp only [eachCounted_iff, List.sum_eq_zero_iff_forall_eq_nat, List.mem_map, forall_exists_index, and_imp,
    forall_apply_eq_imp_iff₂, ← stopsInTime_iff]
  constructor
  · rintro ⟨hcounted, hlt, hnone⟩
    exact ⟨fun attempts hmem => ⟨(hcounted attempts hmem).2, hnone attempts hmem⟩,
      fun attempts hmem => (hcounted attempts hmem).1, hlt⟩
  · rintro ⟨hstops, htimely, hlt⟩
    exact ⟨fun attempts hmem => ⟨htimely attempts hmem, (hstops attempts hmem).1⟩, hlt,
      fun attempts hmem => (hstops attempts hmem).2⟩

/-- One client, whose first connection fails. -/
theorem takes_failure_away : ¬∀ clients : Clients,
    (∀ attempts ∈ clients.runs, EachCounted attempts) ∧ PrintsSums clients := by
  intro h
  have hsums := (h ⟨[[⟨.connectFails, false⟩]], by decide, by decide⟩).2 _ (List.Perm.refl _)
  exact absurd hsums.2 (by decide)

end RebuildTheWheel.Webbench
