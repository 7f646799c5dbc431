import RebuildTheWheel.Nginx.InetAddr

namespace RebuildTheWheel.Nginx

open Data Data.Ascii Data.Decimal Data.Hexadecimal Inet

/-! `ngx_inet6_addr` reads what `ngx_inet6_ntop` writes. -/

namespace Inet6

variable {a addr buffer text rest : Bytes} {zero : Option Nat} {digit : Option Bytes}
  {nibbles word n i j k z : Nat} {s : State} {c : UInt8}

/-! The parser on the parts of a text. -/

theorem digit?_hexByte : ∀ d < 16, digit? (hexByte d) = some d := by decide

theorem parse_digit (hc : (digit? c).isSome) (hnibbles : s.nibbles < 4) (p : Bytes) :
    parse s (c :: p) =
      parse { s with nibbles := s.nibbles + 1, word := s.word * 16 + (digit? c).getD 0 } p := by
  obtain ⟨d, hd⟩ := Option.isSome_iff_exists.mp hc
  have hcolon : c ≠ colon := by
    rintro rfl
    exact absurd hc (by decide)
  have hpoint : c ≠ point := by
    rintro rfl
    exact absurd hc (by decide)
  rw [parse, if_neg hcolon, if_neg fun h => hpoint h.1, if_neg (by omega), hd]
  rfl

theorem parse_digits (htext : ∀ c ∈ text, (digit? c).isSome)
    (hlength : nibbles + text.length ≤ 4) (p : Bytes) :
    parse ⟨addr, zero, digit, nibbles, word, n⟩ (text ++ p) =
      parse ⟨addr, zero, digit, nibbles + text.length,
        text.foldl (fun w c => w * 16 + (digit? c).getD 0) word, n⟩ p := by
  induction text generalizing nibbles word with
  | nil => rfl
  | cons c text ih =>
      obtain ⟨hc, htext⟩ := List.forall_mem_cons.mp htext
      rw [List.length_cons] at hlength
      rw [List.cons_append, parse_digit hc (by dsimp only; omega)]
      dsimp only
      rw [ih htext (by omega), List.foldl_cons, List.length_cons, Nat.add_right_comm,
        Nat.add_assoc]

/-- The text of a word is read. -/
theorem parse_hexadecimal (h : word < 2 ^ 16) :
    ∃ nibbles, nibbles ≠ 0 ∧ ∀ addr zero digit n p,
      parse ⟨addr, zero, digit, 0, 0, n⟩ (hexadecimal word ++ p) =
        parse ⟨addr, zero, digit, nibbles, word, n⟩ p := by
  obtain ⟨digits, heq, hne, hlt, hvalue, hlength⟩ := exists_digits word
  have htext : ∀ c ∈ digits.map hexByte, (digit? c).isSome := fun c hc => by
    obtain ⟨d, hd, rfl⟩ := List.mem_map.mp hc
    rw [digit?_hexByte d (hlt d hd)]
    rfl
  have hfold : ∀ (ds : List Nat) (w : Nat), (∀ d ∈ ds, d < 16) →
      (ds.map hexByte).foldl (fun w c => w * 16 + (digit? c).getD 0) w =
        ds.foldl (fun n d => n * 16 + d) w := by
    intro ds
    induction ds with
    | nil => exact fun _ _ => rfl
    | cons d ds ih =>
        intro w hds
        obtain ⟨hd, hds⟩ := List.forall_mem_cons.mp hds
        rw [List.map_cons, List.foldl_cons, List.foldl_cons, digit?_hexByte d hd]
        exact ih _ hds
  refine ⟨digits.length, fun h => hne (List.length_eq_zero_iff.mp h), fun addr zero digit n p => ?_⟩
  have hshort : 0 + (digits.map hexByte).length ≤ 4 := by
    rw [Nat.zero_add, List.length_map]
    exact hlength 4 (by decide) h
  rw [heq, parse_digits htext hshort, Nat.zero_add, List.length_map, hfold digits 0 hlt]
  exact congrArg (fun w => parse ⟨addr, zero, digit, digits.length, w, n⟩ p) hvalue

theorem parse_colon (hn : 2 ≤ n) (hnibbles : nibbles ≠ 0) (p : Bytes) :
    parse ⟨addr, zero, digit, nibbles, word, n⟩ (colon :: p) =
      parse ⟨addr ++ [UInt8.ofNat (word / 2 ^ 8), UInt8.ofNat word], zero, some p, 0, 0, n - 1⟩
        p := by
  rw [parse, if_pos rfl, if_pos hnibbles, if_pos (by dsimp only; omega)]
  rfl

theorem parse_double_colon (p : Bytes) :
    parse ⟨addr, none, digit, 0, word, n⟩ (colon :: p) =
      parse ⟨addr, some addr.length, some p, 0, word, n⟩ p := by
  rw [parse, if_pos rfl, if_neg (by simp), if_pos rfl]

theorem digit?_of_isDigit (h : isDigit c = true) : (digit? c).isSome := by
  rw [digit?, if_pos (isDigit_iff.mp h)]
  rfl

theorem htonl_ntohl (b₀ b₁ b₂ b₃ : UInt8) : htonl (ntohl [b₀, b₁, b₂, b₃]) = [b₀, b₁, b₂, b₃] := by
  have h₀ := b₀.toNat_lt
  have h₁ := b₁.toNat_lt
  have h₂ := b₂.toNat_lt
  have h₃ := b₃.toNat_lt
  simp only [htonl, ntohl, List.foldl_cons, List.foldl_nil, List.cons.injEq, ← UInt8.toNat_inj,
    UInt8.toNat_ofNat', and_true]
  omega

/-- The text of an IPv4 address is read, where the address is not the error value. -/
theorem parse_quad (hn : 2 ≤ n) {b₀ b₁ b₂ b₃ : UInt8} (hnone : [b₀, b₁, b₂, b₃] ≠ inaddrNone) :
    (parse ⟨addr, zero, some (quad b₀ b₁ b₂ b₃), 0, 0, n⟩ (quad b₀ b₁ b₂ b₃)).bind
      (finish buffer) = expand buffer (addr ++ [b₀, b₁, b₂, b₃]) zero (n - 2) := by
  have haddr := inetAddr_quad b₀ b₁ b₂ b₃
  have hlt := b₀.toNat_lt
  have hlength : (decimal b₀.toNat).length ≤ 3 := length_decimal_le (by decide) (by omega)
  have hpos := List.length_pos_iff.mpr (decimal_ne_nil b₀.toNat)
  have hdigits : ∀ c ∈ decimal b₀.toNat, (digit? c).isSome := fun c hc =>
    digit?_of_isDigit (isDigit_of_mem_decimal hc)
  generalize htext : quad b₀ b₁ b₂ b₃ = text at haddr ⊢
  rw [quad] at htext
  rw [← htext, parse_digits hdigits (by omega), htext, parse, if_neg (by decide),
    if_pos ⟨rfl, by dsimp only; omega⟩]
  dsimp only
  rw [if_neg (by omega), haddr, if_neg hnone, Option.bind_some, finish,
    if_neg fun h => absurd h.1 (by dsimp only; omega)]
  have hbytes := htonl_ntohl b₀ b₁ b₂ b₃
  simp only [htonl, List.cons.injEq] at hbytes
  obtain ⟨hb₀, hb₁, hb₂, hb₃, _⟩ := hbytes
  rw [State.store]
  dsimp only
  rw [hb₀, hb₁, hb₂, hb₃, List.append_assoc, Nat.sub_sub]
  rfl

/-! The moving of the words that were read behind the gap. -/

theorem getElem?_moveUp (z : Nat) (hn : 0 < n) (buffer : Bytes)
    (hlength : z + k + n ≤ buffer.length) (i : Nat) :
    (moveUp z n k buffer)[i]? =
      if z + n ≤ i ∧ i < z + n + k then buffer[i - n]? else buffer[i]? := by
  induction k generalizing buffer with
  | zero => rw [moveUp, if_neg (by omega)]
  | succ k ih =>
      have hin : z + k < buffer.length := by omega
      have hout : z + k + n < buffer.length := by omega
      rw [moveUp, ih _ (by rw [List.length_set]; omega), List.getElem?_set, List.getElem?_set,
        List.getD_eq_getElem?_getD, List.getElem?_eq_getElem hin, Option.getD_some]
      by_cases hmoved : z + n ≤ i ∧ i < z + n + k
      · rw [if_pos hmoved, if_neg (by omega), if_pos (by omega)]
      · rw [if_neg hmoved]
        by_cases htop : z + k + n = i
        · rw [if_pos htop, if_pos hout, if_pos (by omega), ← htop, Nat.add_sub_cancel,
            List.getElem?_eq_getElem hin]
        · rw [if_neg htop, if_neg (by omega)]

/-- The gap is filled with zeros. -/
theorem expand_gap {front back : Bytes} (hn : n ≠ 0)
    (h : front.length + back.length + n * 2 = 16) (hbuffer : buffer.length = 16) :
    expand buffer (front ++ back) (some front.length) n =
      some (front ++ (List.replicate (n * 2) 0 ++ back)) := by
  unfold expand
  dsimp only
  rw [if_pos hn, Option.map_some, List.length_append, Nat.add_sub_cancel_left]
  generalize hwhole : front ++ back ++ buffer.drop (front.length + back.length) = whole
  have hlength : whole.length = 16 := by
    rw [← hwhole]
    simp only [List.length_append, List.length_drop]
    omega
  have hmoved := @getElem?_moveUp (n * 2) back.length front.length (by omega) whole (by omega)
  have hfront : (moveUp front.length (n * 2) back.length whole).take front.length = front := by
    refine List.ext_getElem? fun i => ?_
    rw [List.getElem?_take]
    split_ifs with hi
    · rw [hmoved, if_neg (by omega), ← hwhole, List.append_assoc, List.getElem?_append_left hi]
    · exact (List.getElem?_eq_none (by omega)).symm
  have hback : (moveUp front.length (n * 2) back.length whole).drop (front.length + n * 2) =
      back := by
    refine List.ext_getElem? fun i => ?_
    rw [List.getElem?_drop, hmoved]
    split_ifs with hi
    · rw [← hwhole, List.append_assoc, List.getElem?_append_right (by omega),
        List.getElem?_append_left (by omega)]
      exact congrArg (back[·]?) (by omega)
    · rw [List.getElem?_eq_none (by omega), List.getElem?_eq_none (by omega)]
  rw [memzero, hfront, hback]

theorem expand_full (h : addr.length = 16) (hbuffer : buffer.length = 16) :
    expand buffer addr none 0 = some addr := by
  unfold expand
  dsimp only
  rw [if_neg (by decide), if_pos rfl, List.drop_eq_nil_of_le (by omega), List.append_nil]

/-! The longest run. -/

/-- The words from `z` up to `k` are zero. -/
def ZeroWords (a : Bytes) (z k : Nat) : Prop :=
  ∀ j, z ≤ j → j < k → a.getD (2 * j) 0 = 0 ∧ a.getD (2 * j + 1) 0 = 0

/-- The run that is chosen among the first `k` words -/
inductive Chosen (a : Bytes) (k : Nat) (s : Scan) : Prop where
  | none (hzero : s.zero = none) (hmax : s.max = 1)
  | some (z : Nat) (hzero : s.zero = some (2 * z)) (hmax : 2 ≤ s.max) (hle : z + s.max ≤ k)
      (hwords : ZeroWords a z (z + s.max))

structure Scanned (a : Bytes) (k : Nat) (s : Scan) : Prop where
  chosen : Chosen a k s
  le : s.n ≤ k
  words : ZeroWords a (k - s.n) k
  last : s.n ≠ 0 → s.last = some (2 * (k - s.n))

theorem Chosen.mono {s : Scan} (h : Chosen a k s) (hk : k ≤ j) : Chosen a j s := by
  cases h with
  | none hzero hmax => exact .none hzero hmax
  | some z hzero hmax hle hwords => exact .some z hzero hmax (hle.trans hk) hwords

theorem Scanned.update {s : Scan} (h : Scanned a k s) : Chosen a k s.update := by
  unfold Scan.update
  split_ifs with hlt
  · have hmax : 1 ≤ s.max := by
      cases h.chosen with
      | none _ hmax => exact hmax.ge
      | some _ _ hmax _ _ => exact Nat.le_of_succ_le hmax
    have hle := h.le
    refine .some (k - s.n) (h.last (by omega)) (Nat.lt_of_le_of_lt hmax hlt) ?_ ?_
    · exact (Nat.sub_add_cancel hle).le
    · dsimp only
      rw [Nat.sub_add_cancel hle]
      exact h.words
  · exact h.chosen

theorem Scanned.scanWord {s : Scan} (h : Scanned a k s) :
    Scanned a (k + 1) (scanWord a s (2 * k)) := by
  unfold Inet6.scanWord
  by_cases hword : a.getD (2 * k) 0 ≠ 0 ∨ a.getD (2 * k + 1) 0 ≠ 0
  · rw [if_pos hword]
    refine ⟨?_, Nat.zero_le _, fun j hj hlt => absurd hlt (Nat.not_lt.mpr hj),
      fun h => absurd rfl h⟩
    cases h.update.mono (Nat.le_succ k) with
    | none hzero hmax => exact .none hzero hmax
    | some z hzero hmax hle hwords => exact .some z hzero hmax hle hwords
  · rw [if_neg hword]
    have hle := h.le
    have hzero : a.getD (2 * k) 0 = 0 ∧ a.getD (2 * k + 1) 0 = 0 := by
      rwa [not_or, not_ne_iff, not_ne_iff] at hword
    refine ⟨?_, Nat.succ_le_succ hle, fun j hj hlt => ?_, fun _ => ?_⟩
    · cases h.chosen.mono (Nat.le_succ k) with
      | none hzero hmax => exact .none hzero hmax
      | some z hzero hmax hle hwords => exact .some z hzero hmax hle hwords
    · rcases Nat.lt_or_eq_of_le (Nat.le_of_lt_succ hlt) with hlt | rfl
      · exact h.words j (by dsimp only at hj; omega) hlt
      · exact hzero
    · dsimp only
      split_ifs with hfirst
      · rw [hfirst, Nat.zero_add, Nat.add_sub_cancel]
      · rw [h.last hfirst, Nat.add_sub_add_right]

theorem scan_chosen (a : Bytes) : Chosen a 8 (scan a) := by
  refine Scanned.update ?_
  have hscan : ∀ k, Scanned a k
      ((List.range k).foldl (fun s j => scanWord a s (2 * j)) ⟨none, none, 1, 0⟩) := by
    intro k
    induction k with
    | zero =>
        exact ⟨.none rfl rfl, le_rfl, fun _ _ hlt => absurd hlt (Nat.not_lt_zero _),
          fun h => absurd rfl h⟩
    | succ k ih =>
        rw [List.range_succ, List.foldl_append]
        exact ih.scanWord
  exact hscan 8

/-! The words of an address. -/

theorem wordAt_lt (a : Bytes) (i : Nat) : wordAt a i < 2 ^ 16 := by
  have hhigh := (a.getD i 0).toNat_lt
  have hlow := (a.getD (i + 1) 0).toNat_lt
  rw [wordAt]
  omega

theorem wordAt_bytes (a : Bytes) (i : Nat) :
    [UInt8.ofNat (wordAt a i / 2 ^ 8), UInt8.ofNat (wordAt a i)] =
      [a.getD i 0, a.getD (i + 1) 0] := by
  have hhigh := (a.getD i 0).toNat_lt
  have hlow := (a.getD (i + 1) 0).toNat_lt
  simp only [wordAt, List.cons.injEq, ← UInt8.toNat_inj, UInt8.toNat_ofNat', and_true]
  omega

theorem drop_word (hi : i + 1 < a.length) :
    a.drop i = [a.getD i 0, a.getD (i + 1) 0] ++ a.drop (i + 2) := by
  have hi' : i < a.length := Nat.lt_of_succ_lt hi
  rw [List.drop_eq_getElem_cons hi', List.drop_eq_getElem_cons hi, List.getD_eq_getElem?_getD,
    List.getD_eq_getElem?_getD, List.getElem?_eq_getElem hi', List.getElem?_eq_getElem hi]
  rfl

variable {fuel : Nat} {run : Scan}

theorem words_end (p : Bytes) (s : Scan) (hi : n ≤ i) (fuel : Nat) : words p s n fuel i = [] := by
  cases fuel with
  | zero => rfl
  | succ fuel => rw [words, if_neg (by omega)]

/-- A word that does not begin the run -/
theorem words_word (hi : i < n) (hrun : run.zero ≠ some i) (fuel : Nat) :
    words a run n (fuel + 1) i =
      hexadecimal (wordAt a i) ++ ((if i < 14 then [colon] else []) ++
        words a run n fuel (i + 2)) := by
  rw [words, if_pos hi, if_neg hrun]

/-- The words behind the run are read to the end. -/
theorem parse_words_last (ha : a.length = 16)
    (hrun : ∀ m, j ≤ m → run.zero ≠ some (2 * m)) (hj : j + (k + 1) = 8) (hn : k + 1 ≤ n)
    (hfuel : k + 1 ≤ fuel) :
    (parse ⟨addr, zero, digit, 0, 0, n⟩ (words a run 16 fuel (2 * j))).bind (finish buffer) =
      expand buffer (addr ++ a.drop (2 * j)) zero (n - (k + 1)) := by
  induction k generalizing j addr digit n fuel with
  | zero =>
      obtain ⟨fuel, rfl⟩ := Nat.exists_eq_add_of_le' hfuel
      obtain ⟨nibbles, hne, hword⟩ := parse_hexadecimal (wordAt_lt a (2 * j))
      rw [words_word (by omega) (hrun j le_rfl), hword, if_neg (by omega),
        words_end _ _ (by omega), drop_word (by omega), List.drop_eq_nil_of_le (by omega),
        List.append_nil]
      have hfinish : finish buffer ⟨addr, zero, digit, nibbles, wordAt a (2 * j), n⟩ =
          expand buffer (addr ++ [a.getD (2 * j) 0, a.getD (2 * j + 1) 0]) zero (n - 1) := by
        rw [finish, if_neg fun h => hne h.1, State.store, wordAt_bytes]
      exact hfinish
  | succ k ih =>
      obtain ⟨fuel, rfl⟩ := Nat.exists_eq_add_of_le' (Nat.one_le_of_lt hfuel)
      obtain ⟨nibbles, hne, hword⟩ := parse_hexadecimal (wordAt_lt a (2 * j))
      rw [words_word (by omega) (hrun j le_rfl), hword, if_pos (by omega),
        List.singleton_append, parse_colon (by omega) hne, wordAt_bytes, drop_word (by omega),
        ← List.append_assoc, ← Nat.mul_succ,
        ih (fun m hm => hrun m (Nat.le_of_succ_le hm)) (by omega) (by omega) (by omega),
        Nat.sub_sub, Nat.add_comm 1]

/-- The words in front of the run are read. -/
theorem parse_words_front (ha : a.length = 16) (hrun : run.zero = some (2 * (j + k)))
    (hk : j + k < 8) (hn : k < n) (fuel : Nat) (addr : Bytes) (digit : Option Bytes) :
    ∃ digit', parse ⟨addr, zero, digit, 0, 0, n⟩ (words a run 16 (fuel + k) (2 * j)) =
      parse ⟨addr ++ (a.drop (2 * j)).take (2 * k), zero, digit', 0, 0, n - k⟩
        (words a run 16 fuel (2 * (j + k))) := by
  induction k generalizing j addr digit n with
  | zero => exact ⟨digit, by rw [List.take_zero, List.append_nil]; rfl⟩
  | succ k ih =>
      obtain ⟨nibbles, hne, hword⟩ := parse_hexadecimal (wordAt_lt a (2 * j))
      have hskip : run.zero ≠ some (2 * j) := by
        rw [hrun]
        intro h
        have heq := Option.some.inj h
        omega
      obtain ⟨digit', hread⟩ := @ih (n - 1) (j + 1) (by rw [hrun]; congr 2; omega) (by omega)
        (by omega) (addr ++ [a.getD (2 * j) 0, a.getD (2 * j + 1) 0])
        (some (words a run 16 (fuel + k) (2 * (j + 1))))
      have htake : ([a.getD (2 * j) 0, a.getD (2 * j + 1) 0] ++ a.drop (2 * j + 2)).take
          (2 * (k + 1)) =
            [a.getD (2 * j) 0, a.getD (2 * j + 1) 0] ++ (a.drop (2 * (j + 1))).take (2 * k) := rfl
      refine ⟨digit', ?_⟩
      rw [← Nat.add_assoc, words_word (by omega) hskip, hword, if_pos (by omega),
        List.singleton_append, parse_colon (by omega) hne, wordAt_bytes, ← Nat.mul_succ, hread,
        drop_word (i := 2 * j) (by omega), htake, ← List.append_assoc, Nat.sub_sub,
        Nat.add_comm 1 k, Nat.add_right_comm j 1 k, Nat.add_assoc]

theorem words_run (hi : i < n) (hrun : run.zero = some i) (fuel : Nat) :
    words a run n (fuel + 1) i = colon :: words a run n fuel (i + (run.max - 1) * 2 + 2) := by
  rw [words, if_pos hi, if_pos hrun]

theorem ZeroWords.drop (ha : a.length = 16) (h : ZeroWords a z (z + k)) (hk : z + k ≤ 8) :
    a.drop (2 * z) = List.replicate (k * 2) 0 ++ a.drop (2 * (z + k)) := by
  induction k generalizing z with
  | zero => rfl
  | succ k ih =>
      obtain ⟨hhigh, hlow⟩ := h z le_rfl (by omega)
      have hrest : ZeroWords a (z + 1) (z + 1 + k) := fun j hj hlt => h j (by omega) (by omega)
      rw [drop_word (by omega), hhigh, hlow, ← Nat.mul_succ, ih hrest (by omega),
        Nat.add_right_comm z 1 k, Nat.succ_mul k 2]
      rfl

/-- An address is read again where its text does not end in an IPv4 address. -/
theorem parse_words (ha : a.length = 16) (hbuffer : buffer.length = 16) (hrun : Chosen a 8 run) :
    (parse ⟨[], none, none, 0, 0, 8⟩ (words a run 16 8 0)).bind (finish buffer) = some a := by
  cases hrun with
  | none hzero hmax =>
      have hlast := @parse_words_last a [] buffer none none 8 0 7 8 run ha
        (fun m _ => by rw [hzero]; exact nofun) rfl le_rfl le_rfl
      rw [Nat.mul_zero] at hlast
      rw [hlast]
      exact expand_full ha hbuffer
  | some z hzero hmax hle hwords =>
      have hz : z < 8 := by omega
      have hfuel : 8 = (7 - z) + 1 + z := by omega
      obtain ⟨digit, hfront⟩ := @parse_words_front a none 8 0 z run ha
        (by rw [hzero, Nat.zero_add]) (by omega) hz (7 - z + 1) [] none
      have hlength : (a.take (2 * z)).length = 2 * z := by
        rw [List.length_take]
        omega
      have hindex : 2 * z + (run.max - 1) * 2 + 2 = 2 * (z + run.max) := by omega
      rw [← hfuel, Nat.mul_zero, Nat.zero_add, List.drop_zero, List.nil_append,
        words_run (by omega) hzero, parse_double_colon, hindex] at hfront
      rw [hfront]
      have ha' : a = a.take (2 * z) ++ (List.replicate (run.max * 2) 0 ++
          a.drop (2 * (z + run.max))) := by
        rw [← hwords.drop ha hle, List.take_append_drop]
      rcases Nat.lt_or_eq_of_le hle with hlt | hend
      · have hlast := @parse_words_last a (a.take (2 * z)) buffer (some (a.take (2 * z)).length)
          (some (words a run 16 (7 - z) (2 * (z + run.max)))) (8 - z) (z + run.max)
          (7 - (z + run.max)) (7 - z) run ha
          (fun m hm => by rw [hzero]; intro h; have := Option.some.inj h; omega)
          (by omega) (by omega) (by omega)
        have hgap : 8 - z - (7 - (z + run.max) + 1) = run.max := by omega
        rw [hlast, hgap, expand_gap (by omega) (by rw [List.length_drop]; omega) hbuffer, ← ha']
      · have hgap : run.max * 2 = (8 - z - 1) * 2 + 2 := by omega
        rw [hgap, ← List.replicate_append_replicate, List.drop_eq_nil_of_le (by omega),
          List.append_nil] at ha'
        have hfinish : ∀ digit, finish buffer
            ⟨a.take (2 * z), some (a.take (2 * z)).length, digit, 0, 0, 8 - z⟩ =
              expand buffer (a.take (2 * z) ++ [0, 0]) (some (a.take (2 * z)).length)
                (8 - z - 1) := by
          intro digit
          rw [finish, if_neg (by simp), State.store, Nat.zero_div]
          rfl
        have hfit : (a.take (2 * z)).length + 2 + (8 - z - 1) * 2 = 16 := by omega
        rw [words_end _ _ (by omega), parse, Option.bind_some, hfinish,
          expand_gap (by omega) hfit hbuffer]
        exact congrArg some ha'.symm

/-- The text of the last four bytes -/
def lastQuad (a : Bytes) : Bytes :=
  quad (a.getD 12 0) (a.getD 13 0) (a.getD 14 0) (a.getD 15 0)

theorem drop_quad (ha : a.length = 16) :
    a.drop 12 = [a.getD 12 0, a.getD 13 0, a.getD 14 0, a.getD 15 0] := by
  rw [drop_word (by omega), drop_word (by omega), List.drop_eq_nil_of_le (by omega)]
  rfl

/-- The addresses whose texts end in an IPv4 address -/
theorem EndsInQuad.cases (ha : a.length = 16) (hrun : Chosen a 8 run) (h : EndsInQuad a run) :
    (run.max = 5 ∧ a.getD 10 0 = 0xff ∧ a.getD 11 0 = 0xff ∧
        a = List.replicate 10 0 ++ ([0xff, 0xff] ++ a.drop 12)) ∨
      (6 ≤ run.max ∧ a = List.replicate 12 0 ++ a.drop 12) := by
  obtain ⟨hzero, hmax⟩ := h
  have hwords : ZeroWords a 0 (0 + run.max) := by
    cases hrun with
    | none hzero' _ => exact absurd (hzero'.symm.trans hzero) nofun
    | some z hzero' _ _ hwords =>
        have hz : z = 0 := by
          have := Option.some.inj (hzero'.symm.trans hzero)
          omega
        rwa [hz] at hwords
  have hsix : 6 ≤ run.max → a = List.replicate 12 0 ++ a.drop 12 := fun hle =>
    ZeroWords.drop (k := 6) ha (fun j hj hlt => hwords j hj (by omega)) (by decide)
  rcases hmax with ⟨hfive, hten, heleven⟩ | hmax | ⟨hmax, _⟩
  · rw [hfive] at hwords
    have hgap := hwords.drop (k := 5) ha (by decide)
    rw [List.drop_zero, drop_word (i := 2 * (0 + 5)) (by omega), hten, heleven] at hgap
    exact Or.inl ⟨hfive, hten, heleven, hgap⟩
  · exact Or.inr ⟨hmax.ge, hsix hmax.ge⟩
  · exact Or.inr ⟨by omega, hsix (by omega)⟩

/-- An address is read again where its text ends in an IPv4 address that is not the error value. -/
theorem parse_words_quad (ha : a.length = 16) (hbuffer : buffer.length = 16)
    (hrun : Chosen a 8 run) (hquad : EndsInQuad a run) (hnone : a.drop 12 ≠ inaddrNone) :
    (parse ⟨[], none, none, 0, 0, 8⟩ (words a run 12 8 0 ++ lastQuad a)).bind (finish buffer) =
      some a := by
  have hzero := hquad.1
  have hcases := hquad.cases ha hrun
  rw [drop_quad ha] at hnone hcases
  rw [words_run (by decide) hzero, List.cons_append, parse_double_colon]
  rcases hcases with ⟨hfive, hten, heleven, ha'⟩ | ⟨hsix, ha'⟩
  · obtain ⟨nibbles, hne, hword⟩ := parse_hexadecimal (wordAt_lt a 10)
    have hskip : run.zero ≠ some 10 := by
      rw [hzero]
      decide
    rw [hfive, words_word (by decide) hskip, words_end _ _ (by decide), List.append_assoc, hword,
      if_pos (by decide), List.append_nil, List.singleton_append, parse_colon (by decide) hne,
      wordAt_bytes, hten, heleven, lastQuad, parse_quad (by decide) hnone]
    exact (expand_gap (by decide) rfl hbuffer).trans (congrArg some ha'.symm)
  · rw [words_end _ _ (by omega), List.nil_append, lastQuad, parse_quad (by decide) hnone]
    exact (expand_gap (by decide) rfl hbuffer).trans (congrArg some ha'.symm)

theorem hexadecimal_append_eq (n : Nat) (p : Bytes) :
    ∃ c q, hexadecimal n ++ p = c :: q ∧ c ≠ colon := by
  obtain ⟨digits, heq, hne, hlt, _⟩ := exists_digits n
  cases digits with
  | nil => exact absurd rfl hne
  | cons d digits =>
      have hbyte : ∀ d < 16, hexByte d ≠ colon := by decide
      refine ⟨hexByte d, digits.map hexByte ++ p, ?_, hbyte d (hlt d List.mem_cons_self)⟩
      rw [heq]
      rfl

/-- The text, without the leading colon -/
def body (a : Bytes) : Bytes :=
  if EndsInQuad a (scan a) then words a (scan a) 12 8 0 ++ lastQuad a else words a (scan a) 16 8 0

theorem inet6Ntop_eq {len : Nat} (hlen : addrStrLen ≤ len) :
    inet6Ntop a len = (if (scan a).zero = some 0 then [colon] else []) ++ body a := by
  rw [inet6Ntop, if_neg (Nat.not_lt.mpr hlen)]
  rfl

/-- The leading colon is skipped. -/
theorem inet6Addr_ntop (buffer : Bytes) {len : Nat} (hlen : addrStrLen ≤ len) :
    inet6Addr (inet6Ntop a len) buffer =
      (parse ⟨[], none, none, 0, 0, 8⟩ (body a)).bind (finish buffer) := by
  rw [inet6Ntop_eq hlen]
  by_cases hzero : (scan a).zero = some 0
  · rw [if_pos hzero]
    rfl
  · have hquad : ¬EndsInQuad a (scan a) := fun h => hzero h.1
    rw [if_neg hzero, List.nil_append, body, if_neg hquad, words_word (by decide) hzero]
    obtain ⟨c, q, heq, hc⟩ := hexadecimal_append_eq (wordAt a 0)
      ((if 0 < 14 then [colon] else []) ++ words a (scan a) 16 7 (0 + 2))
    have hhead : (c :: q).head? ≠ some colon := fun h => hc (Option.some.inj h)
    rw [heq, inet6Addr, if_neg (List.cons_ne_nil _ _), if_neg hhead]

theorem length_words_le (p : Bytes) (s : Scan) (n fuel i : Nat) :
    (words p s n fuel i).length ≤ 5 * ((n + 1 - i) / 2) := by
  induction fuel generalizing i with
  | zero => exact Nat.zero_le _
  | succ fuel ih =>
      unfold words
      split_ifs with hi hrun hcolon
      · have hle := ih (i + (s.max - 1) * 2 + 2)
        rw [List.length_cons]
        omega
      · have hle := ih (i + 2)
        have hword := length_hexadecimal_le (by decide : 0 < 4) (wordAt_lt p i)
        rw [List.length_append, List.length_append, List.length_singleton]
        omega
      · have hle := ih (i + 2)
        have hword := length_hexadecimal_le (by decide : 0 < 4) (wordAt_lt p i)
        rw [List.length_append, List.length_append, List.length_nil]
        omega
      · exact Nat.zero_le _

theorem length_lastQuad_le (a : Bytes) : (lastQuad a).length ≤ 15 := by
  have hdecimal : ∀ b : UInt8, (decimal b.toNat).length ≤ 3 := fun b =>
    length_decimal_le (by decide) (b.toNat_lt.trans (by decide))
  have h₀ := hdecimal (a.getD 12 0)
  have h₁ := hdecimal (a.getD 13 0)
  have h₂ := hdecimal (a.getD 14 0)
  have h₃ := hdecimal (a.getD 15 0)
  simp only [lastQuad, quad, List.length_append, List.length_cons]
  omega

theorem length_inet6Ntop_le (a : Bytes) {len : Nat} (hlen : addrStrLen ≤ len) :
    (inet6Ntop a len).length ≤ addrStrLen := by
  have hlead : (if (scan a).zero = some 0 then [colon] else []).length ≤ 1 := by
    split_ifs <;> decide
  have hbody : (body a).length ≤ 44 := by
    unfold body
    split_ifs with hquad
    · have hmax : 5 ≤ (scan a).max := by
        rcases hquad.2 with ⟨hmax, _⟩ | hmax | ⟨hmax, _⟩ <;> omega
      have hwords := length_words_le a (scan a) 12 7 (0 + ((scan a).max - 1) * 2 + 2)
      have hlast := length_lastQuad_le a
      rw [words_run (by decide) hquad.1, List.length_append, List.length_cons]
      omega
    · have hwords := length_words_le a (scan a) 16 8 0
      omega
  rw [inet6Ntop_eq hlen, List.length_append]
  exact Nat.add_le_add hlead hbody

/-- The addresses whose texts end in the error value of `ngx_inet_addr` -/
def mappedNone : Bytes := List.replicate 10 0 ++ List.replicate 6 255
def compatibleNone : Bytes := List.replicate 12 0 ++ List.replicate 4 255

/-- Two addresses are not read again. -/
theorem inet6Addr_ntop_iff (ha : a.length = 16) (hbuffer : buffer.length = 16) {len : Nat}
    (hlen : addrStrLen ≤ len) :
    inet6Addr (inet6Ntop a len) buffer = some a ∧ (inet6Ntop a len).length ≤ addrStrLen ↔
      a ≠ mappedNone ∧ a ≠ compatibleNone := by
  rw [and_iff_left (length_inet6Ntop_le a hlen), inet6Addr_ntop buffer hlen]
  constructor
  · intro h
    constructor
    · rintro rfl
      have herror : parse ⟨[], none, none, 0, 0, 8⟩ (body mappedNone) = none := by decide
      rw [herror] at h
      exact absurd h nofun
    · rintro rfl
      have herror : parse ⟨[], none, none, 0, 0, 8⟩ (body compatibleNone) = none := by decide
      rw [herror] at h
      exact absurd h nofun
  · intro ⟨hmapped, hcompatible⟩
    have hrun := scan_chosen a
    unfold body
    split_ifs with hquad
    · refine parse_words_quad ha hbuffer hrun hquad fun hnone => ?_
      rcases hquad.cases ha hrun with ⟨_, _, _, heq⟩ | ⟨_, heq⟩
      · exact hmapped (by rw [heq, hnone]; rfl)
      · exact hcompatible (by rw [heq, hnone]; rfl)
    · exact parse_words ha hbuffer hrun

/-- `1::ffff:102:304` has its run of zeros in the middle. -/
theorem inet6Addr_ntop_iff_middle :
    inet6Addr (inet6Ntop [0, 1, 0, 0, 0, 0, 0, 0, 0, 0, 255, 255, 1, 2, 3, 4] 45)
        (List.replicate 16 7) = some [0, 1, 0, 0, 0, 0, 0, 0, 0, 0, 255, 255, 1, 2, 3, 4] ∧
      (inet6Ntop [0, 1, 0, 0, 0, 0, 0, 0, 0, 0, 255, 255, 1, 2, 3, 4] 45).length ≤ addrStrLen ↔
      [0, 1, 0, 0, 0, 0, 0, 0, 0, 0, 255, 255, 1, 2, 3, 4] ≠ mappedNone ∧
        [0, 1, 0, 0, 0, 0, 0, 0, 0, 0, 255, 255, 1, 2, 3, 4] ≠ compatibleNone :=
  inet6Addr_ntop_iff rfl rfl le_rfl

/-- `::ffff:255.255.255.255` is written, and its text is an error. -/
theorem inet6Addr_ntop_none :
    mappedNone.length = 16 ∧
      inet6Addr (inet6Ntop mappedNone 45) (List.replicate 16 7) = none := by
  decide

end Inet6

end RebuildTheWheel.Nginx
