import RebuildTheWheel.Nginx.ComplexUri

namespace RebuildTheWheel.Nginx

open Data Data.Ascii

namespace ComplexUri

/-! `ngx_http_parse_complex_uri` with its pointers: `p` into the URI, of which `mem` holds the bytes
and `n` is the length, and `u` into the output buffer. -/

/-- What the parser touches, and how many bytes it has consumed by then. -/
inductive Access where
  | load (i : Nat)
  | look (u : Int) (consumed : Nat)
  | store (u : Int) (consumed : Nat)

/-- No load goes beyond the byte behind the URI, and `u` is in the buffer and behind `p`. -/
def Access.Inside (n : Nat) : Access → Prop
  | .load i => i ≤ n
  | .look u consumed => 0 ≤ u ∧ u < consumed ∧ consumed ≤ n
  | .store u consumed => 0 ≤ u ∧ u < consumed ∧ consumed ≤ n

/-- The variables of the parser, and the fields that it sets. -/
structure Machine where
  p : Nat
  u : Int
  ch : UInt8
  state : State
  output : Int → UInt8
  uriExt : Option Int
  argsStart : Option Nat
  args : Option (Nat × Nat)
  quotedUri : Bool
  plusInUri : Bool
  trace : List Access

/-- Where a round of the loop leads to. -/
inductive Turn where
  | next (m : Machine)
  | args (m : Machine)
  | done (m : Machine)
  | invalid (m : Machine)

namespace Machine

variable (mem : Nat → UInt8) (mergeSlashes : Bool) (m : Machine)

/-- `ch = *p++` -/
def load : Machine := { m with p := m.p + 1, ch := mem m.p, trace := .load m.p :: m.trace }

/-- `*u++ = ch` -/
def store : Machine :=
  { m with
    u := m.u + 1
    output := Function.update m.output m.u m.ch
    trace := .store m.u m.p :: m.trace }

def goto (state : State) : Machine := { m with state }

def plus : Machine := { m with plusInUri := true }

def back (k : Int) : Machine := { m with u := m.u - k }

def leave (state : Sw) : Turn :=
  if m.ch = percent then .next ((m.goto (.quoted state)).load mem)
  else if m.ch = question then .args { m with argsStart := some m.p }
  else if m.ch = hash then .done m
  else if m.ch = Ascii.plus then .next ((m.plus.goto (.sw .usual)).store.load mem)
  else .next ((m.goto (.sw .usual)).store.load mem)

def swUsual : Turn :=
  if usual m.ch then .next (m.store.load mem)
  else if m.ch = slash then .next (({ m with uriExt := none }.goto (.sw .slash)).store.load mem)
  else if m.ch = point then .next ({ m with uriExt := some (m.u + 1) }.store.load mem)
  else m.leave mem .usual

def swSlash : Turn :=
  if usual m.ch then .next ((m.goto (.sw .usual)).store.load mem)
  else if m.ch = slash then .next ((if mergeSlashes then m else m.store).load mem)
  else if m.ch = point then .next ((m.goto (.sw .dot)).store.load mem)
  else m.leave mem .slash

def swDot : Turn :=
  if usual m.ch then .next ((m.goto (.sw .usual)).store.load mem)
  else if m.ch = slash then .next (((m.back 1).goto (.sw .slash)).load mem)
  else if m.ch = point then .next ((m.goto (.sw .dotDot)).store.load mem)
  else m.leave mem .dot

/-- `u` goes back to the byte behind a slash. -/
def backToSlash (m : Machine) : Bool × Machine :=
  if h : m.u < 0 then (false, m)
  else
    let looked := { m with trace := .look m.u m.p :: m.trace }
    if m.output m.u = slash then (true, { looked with u := m.u + 1 })
    else backToSlash { looked with u := m.u - 1 }
termination_by (m.u + 1).toNat
decreasing_by omega

def swDotDot : Turn :=
  if usual m.ch then .next ((m.goto (.sw .usual)).store.load mem)
  else if m.ch = slash then
    match ((m.back 5).goto (.sw .slash)).backToSlash with
    | (false, m) => .invalid m
    | (true, m) => .next (m.load mem)
  else m.leave mem .dotDot

def dispatch : Sw → Turn
  | .usual => m.swUsual mem
  | .slash => m.swSlash mem mergeSlashes
  | .dot => m.swDot mem
  | .dotDot => m.swDotDot mem

def swQuoted (quotedState : Sw) : Turn :=
  let m : Machine := { m with quotedUri := true }
  if isDigit m.ch then .next ((m.goto (.quotedSecond quotedState (m.ch - 48))).load mem)
  else
    let c := m.ch ||| 0x20
    if 97 ≤ c ∧ c ≤ 102 then .next ((m.goto (.quotedSecond quotedState (c - 97 + 10))).load mem)
    else .invalid m

/-- The decoded character is kept in `ch`. -/
def swQuotedSecond (quotedState : Sw) (decoded : UInt8) : Turn :=
  if isDigit m.ch then
    let m : Machine := { m with ch := (decoded <<< 4) + (m.ch - 48) }
    if m.ch = percent ∨ m.ch = hash then .next ((m.goto (.sw .usual)).store.load mem)
    else if m.ch = 0 then .invalid m
    else .next (m.goto (.sw quotedState))
  else
    let c := m.ch ||| 0x20
    if 97 ≤ c ∧ c ≤ 102 then
      let m : Machine := { m with ch := (decoded <<< 4) + (c - 97) + 10 }
      if m.ch = question then .next ((m.goto (.sw .usual)).store.load mem)
      else .next ((if m.ch = Ascii.plus then m.plus else m).goto (.sw quotedState))
    else .invalid m

def step : Turn :=
  match m.state with
  | .sw state => m.dispatch mem mergeSlashes state
  | .quoted quotedState => m.swQuoted mem quotedState
  | .quotedSecond quotedState decoded => m.swQuotedSecond mem quotedState decoded

/-- The arguments end at a fragment; `left` bytes of the URI are left. -/
def scanArgs : Nat → Machine → Machine
  | 0, m => m
  | left + 1, m =>
      if mem m.p = hash then
        { m.load mem with
          args := m.argsStart.map fun start => (start, m.p - start)
          argsStart := none }
      else scanArgs left (m.load mem)

/-- The flag tells `NGX_OK` from an invalid request. -/
def run (n : Nat) : Nat → Machine → Option (Bool × Machine)
  | 0, _ => none
  | fuel + 1, m =>
      if m.p ≤ n then
        match m.step mem mergeSlashes with
        | .next m => run n fuel m
        | .args m => some (true, m.scanArgs mem (n - m.p))
        | .done m => some (true, m)
        | .invalid m => some (false, m)
      else some (true, m)

end Machine

/-- Before the loop. Nothing is known of the output buffer. -/
def Machine.start (mem : Nat → UInt8) (output : Int → UInt8) : Machine :=
  Machine.load mem
    { p := 0, u := 0, ch := 0, state := .sw .usual, output, uriExt := none, argsStart := none,
      args := none, quotedUri := false, plusInUri := false, trace := [] }

/-- Each round but one in an escape consumes a byte. -/
def parsePointers (mergeSlashes : Bool) (mem : Nat → UInt8) (n : Nat) (output : Int → UInt8) :
    Option (Bool × Machine) :=
  (Machine.start mem output).run mem mergeSlashes n (2 * n + 1)

/-! Every access is inside. -/

/-- The state that a character is dispatched in, now or after an escape. -/
def State.inner : State → Sw
  | .sw state => state
  | .quoted quotedState => quotedState
  | .quotedSecond quotedState _ => quotedState

variable {mem : Nat → UInt8} {mergeSlashes : Bool} {n fuel : Nat} {m m' : Machine}

namespace Machine

def Traced (n : Nat) (m : Machine) : Prop := ∀ a ∈ m.trace, a.Inside n

/-- Between two rounds a byte more was consumed than written. -/
structure Room (n : Nat) (m : Machine) : Prop where
  consumed : m.p ≤ n
  lower : 0 ≤ m.u
  upper : m.u < m.p
  trace : m.Traced n

/-- Before a round. Behind a dot there is a byte to go back. -/
structure Inv (n : Nat) (m : Machine) : Prop where
  consumed : m.p ≤ n + 1
  lower : 0 ≤ m.u
  upper : m.u < m.p
  dot : m.state.inner = .dot → 1 ≤ m.u
  trace : m.Traced n

theorem Inv.room (h : m.Inv n) (hp : m.p ≤ n) : m.Room n := ⟨hp, h.lower, h.upper, h.trace⟩

theorem Room.goto (h : m.Room n) (state : State) : (m.goto state).Room n :=
  ⟨h.consumed, h.lower, h.upper, h.trace⟩

theorem Room.load (h : m.Room n) (hdot : m.state.inner = .dot → 1 ≤ m.u) : (m.load mem).Inv n where
  consumed := Nat.succ_le_succ h.consumed
  lower := h.lower
  upper := by
    have := h.upper
    show m.u < ((m.p + 1 : Nat) : Int)
    omega
  dot := hdot
  trace := List.forall_mem_cons.mpr ⟨h.consumed, h.trace⟩

/-- A byte is written and the next one is read. -/
theorem Room.store_load (h : m.Room n) : (m.store.load mem).Inv n where
  consumed := Nat.succ_le_succ h.consumed
  lower := by
    have := h.lower
    show 0 ≤ m.u + 1
    omega
  upper := by
    have := h.upper
    show m.u + 1 < ((m.p + 1 : Nat) : Int)
    omega
  dot := fun _ => by
    have := h.lower
    show 1 ≤ m.u + 1
    omega
  trace := List.forall_mem_cons.mpr
    ⟨h.consumed, List.forall_mem_cons.mpr ⟨⟨h.lower, h.upper, h.consumed⟩, h.trace⟩⟩

/-- The way back is looked at only inside the buffer. -/
theorem backToSlash_spec (hp : m.p ≤ n) (hu : m.u + 1 < m.p) (ht : m.Traced n) :
    m.backToSlash.2.Traced n ∧ m.backToSlash.2.state = m.state ∧ m.backToSlash.2.p = m.p ∧
      (m.backToSlash.1 = true → m.backToSlash.2.Room n) := by
  fun_induction backToSlash m with
  | case1 m hout => exact ⟨ht, rfl, rfl, fun h => absurd h Bool.false_ne_true⟩
  | case2 m hin looked hslash =>
      have hlook : (Access.look m.u m.p).Inside n := ⟨by omega, by omega, hp⟩
      have htrace : ∀ a ∈ Access.look m.u m.p :: m.trace, a.Inside n :=
        List.forall_mem_cons.mpr ⟨hlook, ht⟩
      exact ⟨htrace, rfl, rfl, fun _ => ⟨hp, show 0 ≤ m.u + 1 by omega, hu, htrace⟩⟩
  | case3 m hin looked hslash ih =>
      have hlook : (Access.look m.u m.p).Inside n := ⟨by omega, by omega, hp⟩
      have hu' : m.u - 1 + 1 < m.p := by omega
      exact ih hp hu' (List.forall_mem_cons.mpr ⟨hlook, ht⟩)

end Machine

/-- What a round keeps. -/
def Turn.Keeps (n : Nat) : Turn → Prop
  | .next m => m.Inv n
  | .args m => m.Traced n ∧ m.p ≤ n
  | .done m => m.Traced n
  | .invalid m => m.Traced n

namespace Machine

theorem leave_keeps (h : m.Room n) {state : Sw} (hdot : state = .dot → 1 ≤ m.u) :
    (m.leave mem state).Keeps n := by
  unfold leave
  split_ifs
  · exact (h.goto (.quoted state)).load hdot
  · exact ⟨h.trace, h.consumed⟩
  · exact h.trace
  · have hplus : m.plus.Room n := ⟨h.consumed, h.lower, h.upper, h.trace⟩
    exact (hplus.goto _).store_load
  · exact (h.goto _).store_load

theorem dispatch_keeps (h : m.Room n) {state : Sw} (hstate : m.state = .sw state)
    (hdot : state = .dot → 1 ≤ m.u) : (m.dispatch mem mergeSlashes state).Keeps n := by
  cases state with
  | usual =>
      unfold dispatch swUsual
      split_ifs
      · exact h.store_load
      · exact Room.store_load ⟨h.consumed, h.lower, h.upper, h.trace⟩
      · exact Room.store_load ⟨h.consumed, h.lower, h.upper, h.trace⟩
      · exact leave_keeps h hdot
  | slash =>
      have hinner : m.state.inner = .dot → 1 ≤ m.u := by
        rw [hstate]
        exact hdot
      unfold dispatch swSlash
      split_ifs
      · exact (h.goto _).store_load
      · exact h.load hinner
      · exact h.store_load
      · exact (h.goto _).store_load
      · exact leave_keeps h hdot
  | dot =>
      unfold dispatch swDot
      split_ifs
      · exact (h.goto _).store_load
      · have hu := hdot rfl
        have hupper := h.upper
        have hback : (m.back 1).Room n :=
          ⟨h.consumed, show 0 ≤ m.u - 1 by omega, show m.u - 1 < m.p by omega, h.trace⟩
        exact (hback.goto (.sw .slash)).load Sw.noConfusion
      · exact (h.goto _).store_load
      · exact leave_keeps h hdot
  | dotDot =>
      show (m.swDotDot mem).Keeps n
      unfold swDotDot
      split_ifs
      · exact (h.goto _).store_load
      · have hupper := h.upper
        have hu : m.u - 5 + 1 < m.p := by omega
        obtain ⟨htrace, hslash, -, hroom⟩ :=
          @backToSlash_spec n ((m.back 5).goto (.sw .slash)) h.consumed hu h.trace
        split
        · next m' hback =>
            rw [hback] at htrace
            exact htrace
        · next m' hback =>
            rw [hback] at hslash hroom
            have hstate : m'.state = .sw .slash := hslash
            refine (hroom rfl).load fun hdot => ?_
            rw [hstate] at hdot
            exact Sw.noConfusion hdot
      · exact leave_keeps h hdot

theorem step_keeps (h : m.Inv n) (hp : m.p ≤ n) : (m.step mem mergeSlashes).Keeps n := by
  have hroom := h.room hp
  have hdot := h.dot
  unfold step
  split
  · next state hstate =>
      rw [hstate] at hdot
      exact dispatch_keeps hroom hstate hdot
  · next quotedState hstate =>
      rw [hstate] at hdot
      unfold swQuoted
      have hquoted : Room n { m with quotedUri := true } :=
        ⟨hroom.consumed, hroom.lower, hroom.upper, hroom.trace⟩
      dsimp only
      split_ifs
      · exact (hquoted.goto _).load hdot
      · exact (hquoted.goto _).load hdot
      · exact h.trace
  · next quotedState decoded hstate =>
      rw [hstate] at hdot
      have hdecoded : ∀ ch, Room n { m with ch } := fun ch =>
        ⟨hroom.consumed, hroom.lower, hroom.upper, hroom.trace⟩
      have hsame : ∀ m' : Machine, m'.p = m.p → m'.u = m.u → m'.state = .sw quotedState →
          m'.trace = m.trace → m'.Inv n := by
        intro m' hp' hu hs ht
        refine ⟨by rw [hp']; exact h.consumed, by rw [hu]; exact h.lower,
          by rw [hp', hu]; exact h.upper, ?_, ?_⟩
        · rw [hs, hu]
          exact hdot
        · rw [Traced, ht]
          exact h.trace
      unfold swQuotedSecond
      dsimp only
      split_ifs
      · exact ((hdecoded _).goto _).store_load
      · exact h.trace
      · exact hsame _ rfl rfl rfl rfl
      · exact ((hdecoded _).goto _).store_load
      · exact hsame _ rfl rfl rfl rfl
      · exact hsame _ rfl rfl rfl rfl
      · exact h.trace

theorem scanArgs_traced (left : Nat) (h : m.Traced n) (hleft : m.p + left ≤ n) :
    (m.scanArgs mem left).Traced n := by
  induction left generalizing m with
  | zero => exact h
  | succ left ih =>
      have hload : (m.load mem).Traced n :=
        List.forall_mem_cons.mpr ⟨show m.p ≤ n by omega, h⟩
      unfold scanArgs
      split_ifs
      · exact hload
      · exact ih hload (show m.p + 1 + left ≤ n by omega)

end Machine

/-! Every round but the decoding of an escape consumes a byte. -/

def Turn.ConsumesTo (p : Nat) : Turn → Prop
  | .next m => m.p = p
  | _ => True

namespace Machine

theorem backToSlash_p (m : Machine) : m.backToSlash.2.p = m.p := by
  fun_induction backToSlash m with
  | case1 m hout => rfl
  | case2 m hin looked hslash => rfl
  | case3 m hin looked hslash ih => exact ih

theorem leave_consumes (state : Sw) : (m.leave mem state).ConsumesTo (m.p + 1) := by
  unfold leave
  split_ifs <;> simp only [Turn.ConsumesTo, load, store, goto, plus]

theorem dispatch_consumes (state : Sw) :
    (m.dispatch mem mergeSlashes state).ConsumesTo (m.p + 1) := by
  cases state with
  | usual =>
      unfold dispatch swUsual
      split_ifs <;> first | exact leave_consumes _ | simp only [Turn.ConsumesTo, load, store, goto]
  | slash =>
      unfold dispatch swSlash
      split_ifs <;> first | exact leave_consumes _ | simp only [Turn.ConsumesTo, load, store, goto]
  | dot =>
      unfold dispatch swDot
      split_ifs <;> first
        | exact leave_consumes _
        | simp only [Turn.ConsumesTo, load, store, goto, back]
  | dotDot =>
      show (m.swDotDot mem).ConsumesTo (m.p + 1)
      unfold swDotDot
      split_ifs
      · exact rfl
      · have hp := ((m.back 5).goto (.sw .slash)).backToSlash_p
        split
        · exact trivial
        · next m' hback =>
            rw [hback] at hp
            exact congrArg (· + 1) hp
      · exact leave_consumes _

/-- The rounds that may be left. -/
def rounds (n : Nat) (m : Machine) : Nat :=
  2 * (n + 1 - m.p) + match m.state with
    | .quotedSecond _ _ => 1
    | _ => 0

theorem rounds_le (n : Nat) (m : Machine) : m.rounds n ≤ 2 * (n + 1 - m.p) + 1 := by
  unfold rounds
  split <;> omega

theorem le_rounds (n : Nat) (m : Machine) : 2 * (n + 1 - m.p) ≤ m.rounds n := Nat.le_add_right _ _

end Machine

def Turn.Shortens (n k : Nat) : Turn → Prop
  | .next m => m.rounds n < k
  | _ => True

theorem Turn.ConsumesTo.shortens {turn : Turn} (h : turn.ConsumesTo (m.p + 1)) (hp : m.p ≤ n) :
    turn.Shortens n (m.rounds n) := by
  cases turn with
  | next m' =>
      have hp' : m'.p = m.p + 1 := h
      have hle := m'.rounds_le n
      have hge := m.le_rounds n
      show m'.rounds n < m.rounds n
      omega
  | args m' => trivial
  | done m' => trivial
  | invalid m' => trivial

namespace Machine

theorem step_shortens (hp : m.p ≤ n) : (m.step mem mergeSlashes).Shortens n (m.rounds n) := by
  unfold step
  split
  · exact (dispatch_consumes _).shortens hp
  · refine Turn.ConsumesTo.shortens ?_ hp
    unfold swQuoted
    dsimp only
    split_ifs <;> simp only [Turn.ConsumesTo, load, goto]
  · next quotedState decoded hstate =>
      have hrounds : m.rounds n = 2 * (n + 1 - m.p) + 1 := by
        rw [rounds, hstate]
      rw [hrounds]
      unfold swQuotedSecond
      dsimp only
      split_ifs <;> simp only [Turn.Shortens, rounds, load, store, goto, plus] <;> omega

theorem run_inside (fuel : Nat) (h : m.Inv n) (hfuel : m.rounds n < fuel) :
    ∃ ok m', m.run mem mergeSlashes n fuel = some (ok, m') ∧ m'.Traced n := by
  induction fuel generalizing m with
  | zero => exact absurd hfuel (Nat.not_lt_zero _)
  | succ fuel ih =>
      unfold run
      split_ifs with hp
      · have hkeeps : (m.step mem mergeSlashes).Keeps n := step_keeps h hp
        have hshorter : (m.step mem mergeSlashes).Shortens n (m.rounds n) := step_shortens hp
        split
        · next m' hstep =>
            rw [hstep] at hkeeps hshorter
            exact ih hkeeps (Nat.lt_of_lt_of_le hshorter (Nat.le_of_lt_succ hfuel))
        · next m' hstep =>
            rw [hstep] at hkeeps
            obtain ⟨htrace, hp'⟩ := hkeeps
            exact ⟨_, _, rfl, scanArgs_traced _ htrace (by omega)⟩
        · next m' hstep =>
            rw [hstep] at hkeeps
            exact ⟨_, _, rfl, hkeeps⟩
        · next m' hstep =>
            rw [hstep] at hkeeps
            exact ⟨_, _, rfl, hkeeps⟩
      · exact ⟨_, _, rfl, h.trace⟩

theorem start_inv (mem : Nat → UInt8) (output : Int → UInt8) (n : Nat) :
    (start mem output).Inv n where
  consumed := Nat.le_add_left 1 n
  lower := Int.le_refl 0
  upper := Int.zero_lt_one
  dot := fun h => Sw.noConfusion h
  trace := List.forall_mem_singleton.mpr (Nat.zero_le n)

end Machine

/-- The parser comes to an end, and all its accesses are inside. -/
theorem parsePointers_inside (mergeSlashes : Bool) (mem : Nat → UInt8) (n : Nat)
    (output : Int → UInt8) :
    ∃ ok m, parsePointers mergeSlashes mem n output = some (ok, m) ∧
      ∀ a ∈ m.trace, a.Inside n := by
  refine Machine.run_inside (2 * n + 1) (Machine.start_inv mem output n) ?_
  show 2 * (n + 1 - 1) + 0 < 2 * n + 1
  omega

variable {r : Writing} {out : Bytes} {output : Int → UInt8}

/-! The pointers and the lists. -/

/-- The bytes of the URI from `p` on. -/
def input (mem : Nat → UInt8) (n p : Nat) : Bytes := (List.range' p (n - p)).map mem

theorem input_of_lt (mem : Nat → UInt8) {p : Nat} (hp : p < n) :
    input mem n p = mem p :: input mem n (p + 1) := by
  have hleft : n - p = n - (p + 1) + 1 := by omega
  rw [input, hleft, List.range'_succ, List.map_cons, input]

theorem input_of_le (mem : Nat → UInt8) {p : Nat} (hp : n ≤ p) : input mem n p = [] := by
  rw [input, Nat.sub_eq_zero_of_le hp]
  rfl

/-- The buffer holds these bytes, of which the last one comes first. -/
def Written (output : Int → UInt8) : Bytes → Prop
  | [] => True
  | c :: out => output out.length = c ∧ Written output out

theorem Written.update (h : Written output out) {u : Int} (hu : out.length ≤ u) (c : UInt8) :
    Written (Function.update output u c) out := by
  induction out with
  | nil => trivial
  | cons d out ih =>
      obtain ⟨hd, hout⟩ := h
      rw [List.length_cons] at hu
      have hne : (out.length : Int) ≠ u := by omega
      exact ⟨(Function.update_of_ne hne c output).trans hd, ih hout (by omega)⟩

theorem Written.push (h : Written output out) (c : UInt8) :
    Written (Function.update output out.length c) (c :: out) :=
  ⟨Function.update_self _ c output, h.update (Int.le_refl _) c⟩

theorem Written.drop (h : Written output out) (k : Nat) : Written output (out.drop k) := by
  induction out generalizing k with
  | nil => rwa [List.drop_nil]
  | cons c out ih =>
      cases k with
      | zero => exact h
      | succ k => exact ih h.2 k

theorem Written.reverse_eq (h : Written output out) :
    ((List.range out.length).map fun i : Nat => output i) = out.reverse := by
  induction out with
  | nil => rfl
  | cons c out ih =>
      obtain ⟨hc, hout⟩ := h
      rw [List.length_cons, List.range_succ, List.map_append, ih hout, List.map_singleton, hc,
        List.reverse_cons]

namespace Machine

/-- What the parser leaves in the request. -/
def complexUri (mem : Nat → UInt8) (n : Nat) (m : Machine) : ComplexUri where
  uri := (List.range m.u.toNat).map fun i : Nat => m.output i
  exten := m.uriExt.map fun start => ((List.range m.u.toNat).map fun i : Nat => m.output i).drop start.toNat
  argsStart := m.argsStart.map (input mem n)
  args := m.args.map fun a => (input mem n a.1).take a.2
  quotedUri := m.quotedUri
  plusInUri := m.plusInUri

/-- Before the arguments. -/
structure Shows (m : Machine) (r : Writing) : Prop where
  u : m.u = r.out.length
  written : Written m.output r.out
  uriExt : m.uriExt = r.uriExt.map Int.ofNat
  argsStart : m.argsStart = none
  args : m.args = none
  quotedUri : m.quotedUri = r.quotedUri
  plusInUri : m.plusInUri = r.plusInUri

theorem Shows.goto (h : m.Shows r) (state : State) : (m.goto state).Shows r :=
  ⟨h.u, h.written, h.uriExt, h.argsStart, h.args, h.quotedUri, h.plusInUri⟩

theorem Shows.load (h : m.Shows r) : (m.load mem).Shows r :=
  ⟨h.u, h.written, h.uriExt, h.argsStart, h.args, h.quotedUri, h.plusInUri⟩

theorem Shows.plus (h : m.Shows r) : m.plus.Shows r.plus :=
  ⟨h.u, h.written, h.uriExt, h.argsStart, h.args, h.quotedUri, rfl⟩

theorem Shows.store (h : m.Shows r) : m.store.Shows (r.push m.ch) := by
  refine ⟨?_, ?_, h.uriExt, h.argsStart, h.args, h.quotedUri, h.plusInUri⟩
  · show m.u + 1 = ((r.out.length + 1 : Nat) : Int)
    rw [h.u]
    rfl
  · show Written (Function.update m.output m.u m.ch) (m.ch :: r.out)
    rw [h.u]
    exact h.written.push m.ch

theorem Shows.complexUri (h : m.Shows r) : m.complexUri mem n = returnDone r := by
  have hu : m.u.toNat = r.out.length := by rw [h.u, Int.toNat_natCast]
  simp only [Machine.complexUri, returnDone, hu, h.written.reverse_eq, h.uriExt, h.argsStart, h.args,
    h.quotedUri, h.plusInUri, Option.map_map]
  rfl

theorem backToSlash_shows (hwritten : Written m.output out)
    (hu : m.u = (out.length : Int) - 1 ∨ m.u < 0 ∧ out = []) :
    match ComplexUri.backToSlash out with
    | none => m.backToSlash.1 = false
    | some kept => Written m.output kept ∧
        ∃ trace, m.backToSlash = (true, { m with u := kept.length, trace }) := by
  induction out generalizing m with
  | nil =>
      have hout : m.u < 0 := by
        rcases hu with hu | ⟨hu, -⟩
        · rw [hu]
          decide
        · exact hu
      show m.backToSlash.1 = false
      rw [Machine.backToSlash, dif_pos hout]
  | cons c out ih =>
      obtain ⟨hc, hout⟩ := hwritten
      have hu : m.u = out.length := by
        rcases hu with hu | ⟨-, hnil⟩
        · rw [hu, List.length_cons]
          omega
        · exact absurd hnil (List.cons_ne_nil c out)
      have hin : ¬m.u < 0 := by omega
      rw [← hu] at hc
      rw [ComplexUri.backToSlash, Machine.backToSlash, dif_neg hin, hc]
      split_ifs with hslash
      · refine ⟨⟨hu ▸ hc, hout⟩, .look m.u m.p :: m.trace, ?_⟩
        rw [hu]
        rfl
      · exact ih (m := { m with u := m.u - 1, trace := .look m.u m.p :: m.trace }) hout
          (.inl (by rw [hu]))

end Machine

/-- What the list machine returns after a round. -/
def after (mergeSlashes : Bool) (p : Bytes) : Outcome → Option ComplexUri
  | .next state r => loop mergeSlashes p state r
  | .args r => some (returnArgs p r)
  | .done r => some (returnDone r)
  | .invalid => none

/-- What it returns from where the pointers are. -/
def expected (mem : Nat → UInt8) (mergeSlashes : Bool) (n : Nat) (m : Machine) (r : Writing) :
    Option ComplexUri :=
  if m.p ≤ n then after mergeSlashes (input mem n m.p) (step mergeSlashes m.state m.ch r)
  else some (returnDone r)

theorem loop_cons (mergeSlashes : Bool) (ch : UInt8) (p : Bytes) (state : State) (r : Writing) :
    loop mergeSlashes (ch :: p) state r = after mergeSlashes p (step mergeSlashes state ch r) := by
  rw [loop]
  cases step mergeSlashes state ch r <;> rfl

theorem expected_load (hp : m.p ≤ n) (r : Writing) :
    expected mem mergeSlashes n (m.load mem) r = loop mergeSlashes (input mem n m.p) m.state r := by
  rcases Nat.lt_or_eq_of_le hp with hlt | heq
  · rw [input_of_lt mem hlt, loop_cons]
    exact if_pos hlt
  · have hge : n ≤ m.p := Nat.le_of_eq heq.symm
    rw [input_of_le mem hge]
    exact if_neg (Nat.not_le_of_lt (Nat.lt_succ_of_le hge))

/-- A round of the pointers does what the list machine does. -/
def Turn.Matches (mem : Nat → UInt8) (mergeSlashes : Bool) (n : Nat) (result : Option ComplexUri) :
    Turn → Prop
  | .next m => ∃ r, m.Shows r ∧ expected mem mergeSlashes n m r = result
  | .args m => ∃ r, { m with argsStart := none }.Shows r ∧ m.argsStart = some m.p ∧ m.p ≤ n ∧
      some (returnArgs (input mem n m.p) r) = result
  | .done m => ∃ r, m.Shows r ∧ some (returnDone r) = result
  | .invalid _ => result = none

namespace Machine

theorem Shows.matches_load (h : m.Shows r) (hp : m.p ≤ n) {state : State} (hstate : m.state = state) :
    (Turn.next (m.load mem)).Matches mem mergeSlashes n
      (after mergeSlashes (input mem n m.p) (.next state r)) :=
  ⟨r, h.load, hstate ▸ expected_load hp r⟩

theorem Shows.matches_store (h : m.Shows r) (hp : m.p ≤ n) {state : State} (hstate : m.state = state) :
    (Turn.next (m.store.load mem)).Matches mem mergeSlashes n
      (after mergeSlashes (input mem n m.p) (.next state (r.push m.ch))) :=
  Shows.matches_load h.store hp hstate

theorem Shows.goto_load (h : m.Shows r) (hp : m.p ≤ n) (state : State) :
    (Turn.next ((m.goto state).load mem)).Matches mem mergeSlashes n
      (after mergeSlashes (input mem n m.p) (.next state r)) :=
  (h.goto state).matches_load hp rfl

theorem Shows.goto_store (h : m.Shows r) (hp : m.p ≤ n) (state : State) :
    (Turn.next ((m.goto state).store.load mem)).Matches mem mergeSlashes n
      (after mergeSlashes (input mem n m.p) (.next state (r.push m.ch))) :=
  (h.goto state).matches_store hp rfl

theorem leave_matches (h : m.Shows r) (hp : m.p ≤ n) (state : Sw) :
    (m.leave mem state).Matches mem mergeSlashes n
      (after mergeSlashes (input mem n m.p) (ComplexUri.leave state m.ch r)) := by
  unfold leave ComplexUri.leave
  split_ifs
  · exact h.goto_load hp _
  · exact ⟨r, ⟨h.u, h.written, h.uriExt, rfl, h.args, h.quotedUri, h.plusInUri⟩, rfl, hp, rfl⟩
  · exact ⟨r, h, rfl⟩
  · exact h.plus.goto_store hp _
  · exact h.goto_store hp _

theorem Shows.extension (h : m.Shows r) {start : Option Int} {start' : Option Nat}
    (hstart : start = start'.map Int.ofNat) :
    { m with uriExt := start }.Shows { r with uriExt := start' } :=
  ⟨h.u, h.written, hstart, h.argsStart, h.args, h.quotedUri, h.plusInUri⟩

theorem Shows.back (h : m.Shows r) (hu : 1 ≤ m.u) : (m.back 1).Shows { r with out := r.out.tail } := by
  refine ⟨?_, ?_, h.uriExt, h.argsStart, h.args, h.quotedUri, h.plusInUri⟩
  · have hlength := h.u
    show m.u - 1 = (r.out.tail.length : Int)
    rw [List.length_tail]
    omega
  · have hdrop := h.written.drop 1
    rwa [List.drop_one] at hdrop

theorem swDotDot_matches (h : m.Shows r) (hp : m.p ≤ n) :
    (m.swDotDot mem).Matches mem mergeSlashes n
      (after mergeSlashes (input mem n m.p) (ComplexUri.swDotDot m.ch r)) := by
  unfold swDotDot ComplexUri.swDotDot
  split_ifs
  · exact h.goto_store hp _
  · have hlength := h.u
    have hu : m.u - 5 = ((r.out.drop 4).length : Int) - 1 ∨ m.u - 5 < 0 ∧ r.out.drop 4 = [] := by
      rw [List.length_drop, List.drop_eq_nil_iff]
      omega
    have hback := backToSlash_shows (m := (m.back 5).goto (.sw .slash)) (h.written.drop 4) hu
    generalize ((m.back 5).goto (.sw .slash)).backToSlash = pair at hback ⊢
    obtain ⟨ok, m'⟩ := pair
    cases hkept : ComplexUri.backToSlash (r.out.drop 4) with
    | none =>
        rw [hkept] at hback
        obtain rfl : ok = false := hback
        exact rfl
    | some kept =>
        rw [hkept] at hback
        obtain ⟨hwritten, trace, heq⟩ := hback
        obtain ⟨rfl, rfl⟩ := Prod.mk.inj heq
        have hshows : { (m.back 5).goto (.sw .slash) with u := kept.length, trace }.Shows
            { r with out := kept } :=
          ⟨rfl, hwritten, h.uriExt, h.argsStart, h.args, h.quotedUri, h.plusInUri⟩
        exact hshows.matches_load hp rfl
  · exact leave_matches h hp _

theorem dispatch_matches (h : m.Shows r) (hp : m.p ≤ n) {state : Sw} (hstate : m.state = .sw state)
    (hdot : state = .dot → 1 ≤ m.u) :
    (m.dispatch mem mergeSlashes state).Matches mem mergeSlashes n
      (after mergeSlashes (input mem n m.p) (ComplexUri.dispatch mergeSlashes state m.ch r)) := by
  cases state with
  | usual =>
      show (m.swUsual mem).Matches mem mergeSlashes n
        (after mergeSlashes (input mem n m.p) (ComplexUri.swUsual m.ch r))
      unfold swUsual ComplexUri.swUsual
      split_ifs
      · exact h.matches_store hp hstate
      · have hnone : { m with uriExt := none }.Shows { r with uriExt := none } := h.extension rfl
        exact hnone.goto_store hp _
      · have hstart : some (m.u + 1) = (some (r.out.length + 1)).map Int.ofNat := by
          rw [h.u]
          rfl
        exact (h.extension hstart).matches_store hp hstate
      · exact leave_matches h hp _
  | slash =>
      show (m.swSlash mem mergeSlashes).Matches mem mergeSlashes n
        (after mergeSlashes (input mem n m.p) (ComplexUri.swSlash mergeSlashes m.ch r))
      unfold swSlash ComplexUri.swSlash
      split_ifs
      · exact h.goto_store hp _
      · exact h.matches_load hp hstate
      · exact h.matches_store hp hstate
      · exact h.goto_store hp _
      · exact leave_matches h hp _
  | dot =>
      show (m.swDot mem).Matches mem mergeSlashes n
        (after mergeSlashes (input mem n m.p) (ComplexUri.swDot m.ch r))
      unfold swDot ComplexUri.swDot
      split_ifs
      · exact h.goto_store hp _
      · exact (h.back (hdot rfl)).goto_load hp _
      · exact h.goto_store hp _
      · exact leave_matches h hp _
  | dotDot => exact swDotDot_matches h hp

theorem step_matches (h : m.Shows r) (hinv : m.Inv n) (hp : m.p ≤ n) :
    (m.step mem mergeSlashes).Matches mem mergeSlashes n (expected mem mergeSlashes n m r) := by
  have hdot := hinv.dot
  rw [expected, if_pos hp]
  unfold step
  split
  · next state hstate =>
      rw [hstate] at hdot ⊢
      exact dispatch_matches h hp hstate hdot
  · next quotedState hstate =>
      rw [hstate]
      show (m.swQuoted mem quotedState).Matches mem mergeSlashes n
        (after mergeSlashes (input mem n m.p) (ComplexUri.swQuoted quotedState m.ch r))
      have hquoted : { m with quotedUri := true }.Shows { r with quotedUri := true } :=
        ⟨h.u, h.written, h.uriExt, h.argsStart, h.args, rfl, h.plusInUri⟩
      unfold swQuoted ComplexUri.swQuoted
      dsimp only
      split_ifs
      · exact hquoted.goto_load hp _
      · exact hquoted.goto_load hp _
      · exact rfl
  · next quotedState decoded hstate =>
      rw [hstate]
      show (m.swQuotedSecond mem quotedState decoded).Matches mem mergeSlashes n
        (after mergeSlashes (input mem n m.p)
          (ComplexUri.swQuotedSecond mergeSlashes quotedState decoded m.ch r))
      have hdecoded : ∀ ch, { m with ch }.Shows r := fun ch =>
        ⟨h.u, h.written, h.uriExt, h.argsStart, h.args, h.quotedUri, h.plusInUri⟩
      unfold swQuotedSecond ComplexUri.swQuotedSecond
      dsimp only
      split_ifs
      · exact (hdecoded ((decoded <<< 4) + (m.ch - 48))).goto_store hp _
      · exact rfl
      · exact ⟨r, (hdecoded _).goto _, if_pos hp⟩
      · exact (hdecoded ((decoded <<< 4) + ((m.ch ||| 32) - 97) + 10)).goto_store hp _
      · exact ⟨r.plus, (hdecoded _).plus.goto _, if_pos hp⟩
      · exact ⟨r, (hdecoded _).goto _, if_pos hp⟩
      · exact rfl

theorem scanArgs_spec (left : Nat) {start : Nat} (hstart : m.argsStart = some start)
    (hn : m.p + left = n) (hle : start ≤ m.p) :
    ∃ p ch trace, m.scanArgs mem left =
      if hash ∈ input mem n m.p then
        { m with
          p, ch, trace, argsStart := none
          args := some (start, m.p - start + ((input mem n m.p).takeWhile (· ≠ hash)).length) }
      else { m with p, ch, trace } := by
  induction left generalizing m with
  | zero =>
      have hnil : hash ∉ input mem n m.p := by
        rw [input_of_le mem (show n ≤ m.p from Nat.le_of_eq hn.symm)]
        exact List.not_mem_nil
      exact ⟨m.p, m.ch, m.trace, (if_neg hnil).symm⟩
  | succ left ih =>
      have hlt : m.p < n := by omega
      rw [input_of_lt mem hlt, scanArgs]
      split_ifs with hhash hmem hmem
      · refine ⟨m.p + 1, mem m.p, .load m.p :: m.trace, ?_⟩
        have hstop : (mem m.p :: input mem n (m.p + 1)).takeWhile (· ≠ Ascii.hash) = [] :=
          List.takeWhile_cons_of_neg (by simpa using hhash)
        rw [hstop, hstart]
        rfl
      · exact absurd (hhash ▸ List.mem_cons_self) hmem
      · obtain ⟨p, ch, trace, hscan⟩ := @ih (m.load mem) hstart
          (show m.p + 1 + left = n by omega) (Nat.le_succ_of_le hle)
        have hrest : hash ∈ input mem n (m.load mem).p :=
          (List.mem_cons.mp hmem).resolve_left fun heq => hhash heq.symm
        have hgo : (mem m.p :: input mem n (m.p + 1)).takeWhile (· ≠ Ascii.hash) =
            mem m.p :: (input mem n (m.p + 1)).takeWhile (· ≠ Ascii.hash) :=
          List.takeWhile_cons_of_pos (decide_eq_true hhash)
        have hlength : (m.load mem).p - start = m.p - start + 1 :=
          Nat.succ_sub hle
        refine ⟨p, ch, trace, ?_⟩
        rw [hscan, if_pos hrest, hgo, List.length_cons, hlength, Nat.add_right_comm, Nat.add_assoc]
        rfl
      · obtain ⟨p, ch, trace, hscan⟩ := @ih (m.load mem) hstart
          (show m.p + 1 + left = n by omega) (Nat.le_succ_of_le hle)
        have hrest : hash ∉ input mem n (m.load mem).p := fun hrest =>
          hmem (List.mem_cons_of_mem _ hrest)
        refine ⟨p, ch, trace, ?_⟩
        rw [hscan, if_neg hrest]
        rfl

theorem scanArgs_complexUri {r : Writing} (h : { m with argsStart := none }.Shows r)
    (hstart : m.argsStart = some m.p) (hp : m.p ≤ n) :
    (m.scanArgs mem (n - m.p)).complexUri mem n = returnArgs (input mem n m.p) r := by
  obtain ⟨p, ch, trace, hscan⟩ := @scanArgs_spec mem n m (n - m.p) m.p hstart
    (Nat.add_sub_cancel' hp) (Nat.le_refl m.p)
  have hdone : { m with argsStart := none }.complexUri mem n = returnDone r := h.complexUri
  rw [hscan, returnArgs]
  split_ifs with hmem
  · rw [← hdone, Nat.sub_self, Nat.zero_add]
    have htake := List.takeWhile_prefix (fun c => decide (c ≠ hash)) (l := input mem n m.p)
    have htake : (input mem n m.p).take ((input mem n m.p).takeWhile (· ≠ hash)).length =
        (input mem n m.p).takeWhile (· ≠ hash) := (List.prefix_iff_eq_take.mp htake).symm
    simp only [complexUri, Option.map_some, htake]
  · rw [← hdone]
    simp only [complexUri, hstart, Option.map_some]

theorem run_complexUri (fuel : Nat) {ok : Bool} (h : m.Shows r) (hinv : m.Inv n)
    (hrun : m.run mem mergeSlashes n fuel = some (ok, m')) :
    (if ok then some (m'.complexUri mem n) else none) = expected mem mergeSlashes n m r := by
  induction fuel generalizing m r with
  | zero => cases hrun
  | succ fuel ih =>
      rw [run] at hrun
      split_ifs at hrun with hp
      · have hmatches : (m.step mem mergeSlashes).Matches mem mergeSlashes n _ :=
          step_matches h hinv hp
        have hkeeps : (m.step mem mergeSlashes).Keeps n := step_keeps hinv hp
        cases hstep : m.step mem mergeSlashes with
        | next m₁ =>
            rw [hstep] at hrun hmatches hkeeps
            obtain ⟨r₁, hshows, hexpected⟩ := hmatches
            exact (ih hshows hkeeps hrun).trans hexpected
        | args m₁ =>
            rw [hstep] at hrun hmatches
            obtain ⟨r₁, hshows, hstart, hp₁, hexpected⟩ := hmatches
            obtain ⟨rfl, rfl⟩ := Prod.mk.inj (Option.some.inj hrun)
            rw [← hexpected, if_pos rfl, scanArgs_complexUri hshows hstart hp₁]
        | done m₁ =>
            rw [hstep] at hrun hmatches
            obtain ⟨r₁, hshows, hexpected⟩ := hmatches
            obtain ⟨rfl, rfl⟩ := Prod.mk.inj (Option.some.inj hrun)
            rw [← hexpected, if_pos rfl, hshows.complexUri]
        | invalid m₁ =>
            rw [hstep] at hrun hmatches
            obtain ⟨rfl, rfl⟩ := Prod.mk.inj (Option.some.inj hrun)
            exact hmatches.symm
      · obtain ⟨rfl, rfl⟩ := Prod.mk.inj (Option.some.inj hrun)
        rw [expected, if_neg hp, if_pos rfl, h.complexUri]

end Machine

/-- The pointers come to what the list machine comes to. -/
theorem parsePointers_eq {ok : Bool}
    (h : parsePointers mergeSlashes mem n output = some (ok, m)) :
    (if ok then some (m.complexUri mem n) else none) = parseComplexUri mergeSlashes (input mem n 0) := by
  have hshows : Machine.Shows
      { p := 0, u := 0, ch := 0, state := .sw .usual, output, uriExt := none, argsStart := none,
        args := none, quotedUri := false, plusInUri := false, trace := [] }
      ⟨[], none, false, false⟩ := ⟨rfl, trivial, rfl, rfl, rfl, rfl, rfl⟩
  rw [Machine.run_complexUri _ hshows.load (Machine.start_inv mem output n) h]
  exact expected_load (Nat.zero_le n) _

end ComplexUri

end RebuildTheWheel.Nginx
