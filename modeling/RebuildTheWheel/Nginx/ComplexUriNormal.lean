import RebuildTheWheel.Data.Path
import RebuildTheWheel.Data.PercentEncoding
import RebuildTheWheel.Nginx.ComplexUri

namespace RebuildTheWheel.Nginx

open Data Data.Ascii Data.Path Data.PercentEncoding

/-! When what `ngx_http_parse_complex_uri` accepts is normalised. -/

namespace ComplexUri

/-- The path of the URI, before the arguments and the fragment. -/
def pathPart (uri : Bytes) : Bytes := uri.takeWhile fun c => c ≠ question && c ≠ hash

def Clean (path : Bytes) : Prop := ∀ s ∈ segments path, s ≠ dot ∧ s ≠ dotdot

instance (path : Bytes) : Decidable (Clean path) := inferInstanceAs (Decidable (∀ _ ∈ _, _))

structure Normal (path : Bytes) : Prop where
  root : path.head? = some slash
  clean : Clean path
  below : (depth 0 (segments path)).isSome

/-- What a state says of the last segment, which is read from its end. -/
def Sw.Of : Sw → Bytes → Prop
  | .usual, w => IsName w
  | .slash, w => w = []
  | .dot, w => w = Path.dot
  | .dotDot, w => w = dotdot

/-- `d` has been decoded, and both it and what is written end with the segment `w`. -/
structure Ends (d w out : Bytes) : Prop where
  segment : slash ∉ w
  decoded : ∃ front, d = front ++ slash :: w.reverse
  written : ∃ back, out = w ++ slash :: back ∧ Clean back ∧ (slash :: back).getLast? = some slash

def At (state : Sw) (d out : Bytes) : Prop := ∃ w, state.Of w ∧ Ends d w out

variable {state : Sw} {c ch : UInt8} {d w out back : Bytes} {r : Writing}

theorem Clean.of_suffix {front : Bytes} (h : Clean (front ++ slash :: back)) : Clean back := by
  intro s hs
  exact h s (by rw [segments_append]; exact List.mem_append_right _ hs)

theorem Clean.append (hw : slash ∉ w) (hdot : w ≠ Path.dot) (hdotdot : w ≠ dotdot)
    (h : Clean back) : Clean (w ++ slash :: back) := by
  intro s hs
  rw [segments_append, segments_of_notMem hw, List.singleton_append] at hs
  rcases List.mem_cons.mp hs with rfl | hs
  · exact ⟨hdot, hdotdot⟩
  · exact h s hs

theorem Ends.push (h : Ends d w out) (hc : c ≠ slash) : Ends (d ++ [c]) (c :: w) (c :: out) where
  segment := fun hmem => (List.mem_cons.mp hmem).elim (fun heq => hc heq.symm) h.segment
  decoded := by
    obtain ⟨front, rfl⟩ := h.decoded
    exact ⟨front, by simp⟩
  written := by
    obtain ⟨back, rfl, hback⟩ := h.written
    exact ⟨back, rfl, hback⟩

theorem Ends.close (h : Ends d w out) (hdot : w ≠ Path.dot) (hdotdot : w ≠ dotdot) :
    Ends (d ++ [slash]) [] (slash :: out) where
  segment := List.not_mem_nil
  decoded := ⟨d, rfl⟩
  written := by
    obtain ⟨back, rfl, hback, hlast⟩ := h.written
    refine ⟨w ++ slash :: back, rfl, hback.append h.segment hdot hdotdot, ?_⟩
    rw [← List.cons_append, List.getLast?_append, hlast]
    rfl

theorem Ends.stay (h : Ends d [] out) : Ends (d ++ [slash]) [] out where
  segment := List.not_mem_nil
  decoded := ⟨d, rfl⟩
  written := h.written

theorem Ends.here (h : Ends d Path.dot out) : Ends (d ++ [slash]) [] out.tail where
  segment := List.not_mem_nil
  decoded := ⟨d, rfl⟩
  written := by
    obtain ⟨back, rfl, hback⟩ := h.written
    exact ⟨back, rfl, hback⟩

theorem backToSlash_spec (h : backToSlash back = some out) :
    ∃ front rest, back = front ++ slash :: rest ∧ out = slash :: rest := by
  induction back with
  | nil => exact nomatch h
  | cons c back ih =>
      rw [backToSlash] at h
      split_ifs at h with hc
      · exact ⟨[], back, by rw [hc]; rfl, by rw [← Option.some.inj h, hc]⟩
      · obtain ⟨front, rest, rfl, hout⟩ := ih h
        exact ⟨c :: front, rest, rfl, hout⟩

theorem Ends.up {out' : Bytes} (h : Ends d dotdot out) (hback : backToSlash (out.drop 4) = some out') :
    Ends (d ++ [slash]) [] out' where
  segment := List.not_mem_nil
  decoded := ⟨d, rfl⟩
  written := by
    obtain ⟨back, rfl, hclean, hlast⟩ := h.written
    obtain ⟨front, rest, hdrop, rfl⟩ := backToSlash_spec hback
    have heq : back = back.take 1 ++ front ++ slash :: rest := by
      rw [List.append_assoc, ← hdrop]
      exact (List.take_append_drop 1 back).symm
    rw [heq] at hclean hlast
    refine ⟨rest, rfl, hclean.of_suffix, ?_⟩
    rwa [← List.cons_append, List.getLast?_append, Option.or_of_isSome (by simp)] at hlast

/-- A byte that may go on with the segment in every state. -/
theorem At.push (h : At state d r.out) (hc : c ≠ slash)
    (hpoint : c = point → state = .usual ∨ state = .dotDot) :
    At .usual (d ++ [c]) (r.push c).out := by
  obtain ⟨w, hof, hends⟩ := h
  refine ⟨c :: w, ?_, hends.push hc⟩
  cases state with
  | usual =>
      obtain ⟨hstill, -⟩ : ¬(w = [] ∨ w = Path.dot) ∧ _ := hof
      refine ⟨fun h => h.elim (List.cons_ne_nil c w) fun h => hstill (.inl (List.cons.inj h).2),
        fun h => hstill (.inr (List.cons.inj h).2)⟩
  | slash =>
      obtain rfl : w = [] := hof
      have hne : c ≠ point := fun h => by simpa using hpoint h
      simp [Sw.Of, IsName, Path.dot, dotdot, hne]
  | dot =>
      obtain rfl : w = Path.dot := hof
      have hne : c ≠ point := fun h => by simpa using hpoint h
      simp [Sw.Of, IsName, Path.dot, dotdot, hne]
  | dotDot =>
      obtain rfl : w = dotdot := hof
      simp [Sw.Of, IsName, Path.dot, dotdot]

theorem usual_ne :
    ∀ ch, usual ch = true → ch ≠ slash ∧ ch ≠ point := by
  apply forall_byte
  decide

/-- The state of the machine tells how the decoded path ends. -/
def Goes (d : Bytes) (o : Outcome) : Prop :=
  o = .invalid ∨ ∃ state r, o = .next (.sw state) r ∧ At state d r.out

theorem Goes.next (h : At state d r.out) : Goes d (.next (.sw state) r) := .inr ⟨state, r, rfl, h⟩

theorem leave_goes (h : At state d r.out) (hslash : ch ≠ slash)
    (hpoint : ch = point → state = .usual ∨ state = .dotDot) (hpercent : ch ≠ percent)
    (hquestion : ch ≠ question) (hhash : ch ≠ hash) : Goes (d ++ [ch]) (leave state ch r) := by
  unfold leave
  rw [if_neg hpercent, if_neg hquestion, if_neg hhash]
  split_ifs
  · exact .next (At.push (r := r.plus) h hslash hpoint)
  · exact .next (h.push hslash hpoint)

theorem dispatch_goes (mergeSlashes : Bool) (h : At state d r.out) (hpercent : ch ≠ percent)
    (hquestion : ch ≠ question) (hhash : ch ≠ hash) :
    Goes (d ++ [ch]) (dispatch mergeSlashes state ch r) := by
  have husual : usual ch = true → Goes (d ++ [ch]) (.next (.sw .usual) (r.push ch)) := fun hch =>
    .next (h.push (usual_ne ch hch).1 fun heq => absurd heq (usual_ne ch hch).2)
  obtain ⟨w, hof, hends⟩ := id h
  cases state with
  | usual =>
      obtain ⟨hstill, hup⟩ : ¬(w = [] ∨ w = Path.dot) ∧ w ≠ dotdot := hof
      simp only [dispatch, swUsual]
      split_ifs with hch hslash hpoint
      · exact husual hch
      · subst ch
        exact .next ⟨[], rfl, hends.close (fun h => hstill (.inr h)) hup⟩
      · exact .next (At.push h hslash fun _ => .inl rfl)
      · exact leave_goes h hslash (absurd · hpoint) hpercent hquestion hhash
  | slash =>
      obtain rfl : w = [] := hof
      simp only [dispatch, swSlash]
      split_ifs with hch hslash hmerge hpoint
      · exact husual hch
      · subst ch
        exact .next ⟨[], rfl, hends.stay⟩
      · subst ch
        exact .next ⟨[], rfl, hends.close (List.cons_ne_nil _ _).symm (List.cons_ne_nil _ _).symm⟩
      · subst ch
        exact .next ⟨Path.dot, rfl, hends.push hslash⟩
      · exact leave_goes h hslash (absurd · hpoint) hpercent hquestion hhash
  | dot =>
      obtain rfl : w = Path.dot := hof
      simp only [dispatch, swDot]
      split_ifs with hch hslash hpoint
      · exact husual hch
      · subst ch
        exact .next ⟨[], rfl, hends.here⟩
      · subst ch
        exact .next ⟨dotdot, rfl, hends.push hslash⟩
      · exact leave_goes h hslash (absurd · hpoint) hpercent hquestion hhash
  | dotDot =>
      obtain rfl : w = dotdot := hof
      simp only [dispatch, swDotDot]
      split_ifs with hch hslash
      · exact husual hch
      · subst ch
        split
        · exact .inl rfl
        · rename_i out' hback
          exact .next ⟨[], rfl, hends.up hback⟩
      · exact leave_goes h hslash (fun _ => .inr rfl) hpercent hquestion hhash

/-! Escapes. -/

theorem hexVal?_of_isDigit :
    ∀ ch, isDigit ch = true → ∃ b < 10, hexVal? ch = some b ∧ ch - 48 = UInt8.ofNat b := by
  apply forall_byte
  decide

theorem hexVal?_of_letter :
    ∀ ch, 97 ≤ ch ||| 0x20 ∧ ch ||| 0x20 ≤ 102 →
      ∃ b < 16, 10 ≤ b ∧ hexVal? ch = some b ∧ (ch ||| 0x20) - 97 + 10 = UInt8.ofNat b := by
  apply forall_byte
  decide

theorem byte_of_digits :
    ∀ a < 16, ∀ b < 16, (UInt8.ofNat a <<< 4) + UInt8.ofNat b = UInt8.ofNat (16 * a + b) := by
  decide

theorem swQuoted_spec (mergeSlashes : Bool) (quotedState : Sw) (ch : UInt8) (r : Writing) :
    step mergeSlashes (.quoted quotedState) ch r = .invalid ∨
      ∃ a < 16, hexVal? ch = some a ∧ step mergeSlashes (.quoted quotedState) ch r =
        .next (.quotedSecond quotedState (UInt8.ofNat a)) { r with quotedUri := true } := by
  simp only [step, swQuoted]
  split_ifs with hdigit hletter
  · obtain ⟨a, hlt, ha, hval⟩ := hexVal?_of_isDigit ch hdigit
    exact .inr ⟨a, by omega, ha, by rw [hval]⟩
  · obtain ⟨a, hlt, -, ha, hval⟩ := hexVal?_of_letter ch hletter
    exact .inr ⟨a, hlt, ha, by rw [hval]⟩
  · exact .inl rfl

theorem digit_ne_question : ∀ a < 16, ∀ b < 10, UInt8.ofNat (16 * a + b) ≠ question := by
  decide

theorem letter_ne : ∀ a < 16, ∀ b < 16, 10 ≤ b →
    UInt8.ofNat (16 * a + b) ≠ percent ∧ UInt8.ofNat (16 * a + b) ≠ hash := by
  decide

/-- `%25`, `%23` and `%3F` are not dispatched again. -/
theorem swQuotedSecond_spec (ch : UInt8) (mergeSlashes : Bool) (h : At state d r.out) (ha : a < 16) :
    step mergeSlashes (.quotedSecond state (UInt8.ofNat a)) ch r = .invalid ∨
      ∃ b, hexVal? ch = some b ∧ Goes (d ++ [UInt8.ofNat (16 * a + b)])
        (step mergeSlashes (.quotedSecond state (UInt8.ofNat a)) ch r) := by
  simp only [step, swQuotedSecond]
  by_cases hdigit : isDigit ch = true
  · obtain ⟨b, hlt, hb, hval⟩ := hexVal?_of_isDigit ch hdigit
    rw [if_pos hdigit, hval, byte_of_digits a ha b (by omega)]
    split_ifs with hraw hzero
    · refine .inr ⟨b, hb, .next (h.push ?_ fun hpoint => ?_)⟩
      · rcases hraw with heq | heq <;> rw [heq] <;> decide
      · rcases hraw with heq | heq <;> exact absurd (heq.symm.trans hpoint) (by decide)
    · exact .inl rfl
    · exact .inr ⟨b, hb, dispatch_goes mergeSlashes h (fun heq => hraw (.inl heq))
        (digit_ne_question a ha b hlt) fun heq => hraw (.inr heq)⟩
  · rw [if_neg hdigit]
    by_cases hletter : 97 ≤ ch ||| 0x20 ∧ ch ||| 0x20 ≤ 102
    · obtain ⟨b, hlt, hle, hb, hval⟩ := hexVal?_of_letter ch hletter
      rw [if_pos hletter, UInt8.add_assoc, hval, byte_of_digits a ha b hlt]
      refine .inr ⟨b, hb, ?_⟩
      by_cases hraw : UInt8.ofNat (16 * a + b) = question
      · rw [if_pos hraw]
        refine .next (h.push ?_ fun hpoint => absurd (hraw.symm.trans hpoint) (by decide))
        rw [hraw]
        decide
      · have hout : (if UInt8.ofNat (16 * a + b) = plus then r.plus else r).out = r.out := by
          split_ifs <;> rfl
        obtain ⟨hpercent, hhash⟩ := letter_ne a ha b hlt hle
        rw [if_neg hraw]
        exact dispatch_goes mergeSlashes (hout ▸ h) hpercent hraw hhash
    · rw [if_neg hletter]
      exact .inl rfl

theorem pathPart_cons (hquestion : ch ≠ question) (hhash : ch ≠ hash) (uri : Bytes) :
    pathPart (ch :: uri) = ch :: pathPart uri := by
  simp [pathPart, hquestion, hhash]

theorem notMem_last_of_cons {path : Bytes} (h : c ∉ (ch :: path).reverse.take 2) :
    c ∉ path.reverse.take 2 := by
  rw [List.reverse_cons, List.take_append] at h
  exact fun hmem => h (List.mem_append_left _ hmem)

theorem returned_uri (hr : (∃ p, returnArgs p r = u) ∨ returnDone r = u) : u.uri = r.out.reverse := by
  rcases hr with ⟨p, rfl⟩ | rfl
  · unfold returnArgs
    split_ifs <;> rfl
  · rfl

theorem step_percent (mergeSlashes : Bool) (state : Sw) (r : Writing) :
    step mergeSlashes (.sw state) percent r = .next (.quoted state) r := by
  cases state <;> rfl

theorem step_question (mergeSlashes : Bool) (state : Sw) (r : Writing) :
    step mergeSlashes (.sw state) question r = .args r := by
  cases state <;> rfl

theorem step_hash (mergeSlashes : Bool) (state : Sw) (r : Writing) :
    step mergeSlashes (.sw state) hash r = .done r := by
  cases state <;> rfl

theorem isHexDigit_ne (h : IsHexDigit c) : c ≠ question ∧ c ≠ hash := by
  refine ⟨?_, ?_⟩ <;> rintro rfl <;> exact absurd h (by decide)

theorem loop_next {uri : Bytes} {st st' : State} {r' : Writing}
    (hstep : step mergeSlashes st ch r = .next st' r') :
    loop mergeSlashes (ch :: uri) st r = loop mergeSlashes uri st' r' := by
  rw [loop, hstep]

theorem loop_invalid {uri : Bytes} {st : State} (hstep : step mergeSlashes st ch r = .invalid)
    (hloop : loop mergeSlashes (ch :: uri) st r = some u) : False := by
  rw [loop, hstep] at hloop
  exact nomatch hloop

/-- The bytes of an escape, when it is not cut off. -/
theorem loop_escape {uri : Bytes} (hat : At state d r.out)
    (hcut : percent ∉ (pathPart (percent :: uri)).reverse.take 2)
    (hloop : loop mergeSlashes (percent :: uri) (.sw state) r = some u) :
    ∃ h l rest a b state' r', uri = h :: l :: rest ∧ hexVal? h = some a ∧ hexVal? l = some b ∧
      At state' (d ++ [UInt8.ofNat (16 * a + b)]) r'.out ∧
        loop mergeSlashes rest (.sw state') r' = some u := by
  rw [loop_next (step_percent mergeSlashes state r)] at hloop
  rw [pathPart_cons (by decide) (by decide)] at hcut
  cases uri with
  | nil => exact absurd (by simp [pathPart]) hcut
  | cons h uri =>
      rcases swQuoted_spec mergeSlashes state h r with hinvalid | ⟨a, ha, hh, hnext⟩
      · exact (loop_invalid hinvalid hloop).elim
      rw [loop_next hnext] at hloop
      obtain ⟨hquestion, hhash⟩ : h ≠ question ∧ h ≠ hash := isHexDigit_ne (by rw [IsHexDigit, hh]; rfl)
      rw [pathPart_cons hquestion hhash] at hcut
      cases uri with
      | nil => exact absurd (by simp [pathPart]) hcut
      | cons l rest =>
          have hat' : At state d ({ r with quotedUri := true } : Writing).out := hat
          rcases swQuotedSecond_spec l mergeSlashes hat' ha with
            hinvalid | ⟨b, hl, hinvalid | ⟨state', r', hnext, hat'⟩⟩
          · exact (loop_invalid hinvalid hloop).elim
          · exact (loop_invalid hinvalid hloop).elim
          · rw [loop_next hnext] at hloop
            exact ⟨h, l, rest, a, b, state', r', rfl, hh, hl, hat', hloop⟩

/-- The machine ends in the path that it has decoded, unless an escape is cut off. -/
theorem loop_spec {uri d : Bytes} {state : Sw} {r : Writing} (hat : At state d r.out)
    (hcut : percent ∉ (pathPart uri).reverse.take 2)
    (hloop : loop mergeSlashes uri (.sw state) r = some u) :
    Escaped (pathPart uri) ∧
      ∃ state out, u.uri = out.reverse ∧ At state (d ++ unescape (pathPart uri)) out := by
  have hend : pathPart uri = [] → ((∃ p, returnArgs p r = u) ∨ returnDone r = u) → _ :=
    fun hpath hr => (⟨hpath ▸ .nil, state, r.out, returned_uri hr, by
      rw [hpath]
      simpa [unescape] using hat⟩ : Escaped (pathPart uri) ∧
        ∃ state out, u.uri = out.reverse ∧ At state (d ++ unescape (pathPart uri)) out)
  cases uri with
  | nil => exact hend rfl (.inr (Option.some.inj hloop))
  | cons ch uri =>
      by_cases hquestion : ch = question
      · subst ch
        rw [loop, step_question] at hloop
        exact hend rfl (.inl ⟨uri, Option.some.inj hloop⟩)
      by_cases hhash : ch = hash
      · subst ch
        rw [loop, step_hash] at hloop
        exact hend rfl (.inr (Option.some.inj hloop))
      by_cases hpercent : ch = percent
      · subst ch
        obtain ⟨h, l, rest, a, b, state', r', rfl, hh, hl, hat', hloop'⟩ :=
          loop_escape hat hcut hloop
        have hh' : IsHexDigit h := by rw [IsHexDigit, hh]; rfl
        have hl' : IsHexDigit l := by rw [IsHexDigit, hl]; rfl
        rw [pathPart_cons (by decide) (by decide), pathPart_cons (isHexDigit_ne hh').1 (isHexDigit_ne hh').2,
          pathPart_cons (isHexDigit_ne hl').1 (isHexDigit_ne hl').2] at hcut ⊢
        obtain ⟨hescaped, state'', out, hu, hat''⟩ := loop_spec hat'
          (notMem_last_of_cons (notMem_last_of_cons (notMem_last_of_cons hcut))) hloop'
        rw [unescape_escape hh hl, List.append_cons]
        exact ⟨hescaped.escape hh' hl', state'', out, hu, hat''⟩
      · rw [pathPart_cons hquestion hhash] at hcut ⊢
        have hgoes : Goes (d ++ [ch]) (step mergeSlashes (.sw state) ch r) :=
          dispatch_goes mergeSlashes hat hpercent hquestion hhash
        rcases hgoes with hinvalid | ⟨state', r', hnext, hat'⟩
        · exact (loop_invalid hinvalid hloop).elim
        rw [loop_next hnext] at hloop
        obtain ⟨hescaped, state'', out, hu, hat''⟩ :=
          loop_spec hat' (notMem_last_of_cons hcut) hloop
        rw [unescape_cons hpercent, List.append_cons]
        exact ⟨hescaped.cons hpercent, state'', out, hu, hat''⟩
  termination_by uri.length

/-! Where the decoded path ends. -/

theorem Ends.suffix_iff {s : Bytes} (h : Ends d w out) (hs : slash ∉ s) :
    slash :: s <:+ d ↔ w = s.reverse := by
  obtain ⟨front, rfl⟩ := h.decoded
  constructor
  · rintro ⟨front', heq⟩
    have hsegments := congrArg segments heq
    have hw : slash ∉ w.reverse := fun hmem => h.segment (List.mem_reverse.mp hmem)
    rw [segments_append, segments_append, segments_of_notMem hs, segments_of_notMem hw] at hsegments
    obtain ⟨-, hlast⟩ := List.append_inj' hsegments rfl
    exact (List.reverse_eq_iff.mp (List.cons.inj hlast).1.symm)
  · rintro rfl
    rw [List.reverse_reverse]
    exact List.suffix_append front _

theorem clean_reverse (path : Bytes) : Clean path.reverse ↔ Clean path := by
  have hdot (s : Bytes) : s.reverse ≠ Path.dot ↔ s ≠ Path.dot := not_congr List.reverse_eq_iff
  have hdotdot (s : Bytes) : s.reverse ≠ dotdot ↔ s ≠ dotdot := not_congr List.reverse_eq_iff
  unfold Clean
  rw [segments_reverse]
  simp only [List.mem_reverse, List.forall_mem_map, hdot, hdotdot]

theorem Ends.normal_iff (h : Ends d w out) :
    Normal out.reverse ↔ w ≠ Path.dot ∧ w ≠ dotdot := by
  obtain ⟨back, rfl, hback, hlast⟩ := h.written
  constructor
  · intro hnormal
    refine (clean_reverse _).mp hnormal.clean w ?_
    rw [segments_append, segments_of_notMem h.segment]
    exact List.mem_append_left _ (List.mem_singleton_self w)
  · rintro ⟨hdot, hdotdot⟩
    have hclean := (clean_reverse _).mpr (hback.append h.segment hdot hdotdot)
    refine ⟨?_, hclean, isSome_depth (fun hmem => (hclean _ hmem).2 rfl) 0⟩
    rw [List.head?_reverse, List.getLast?_append, hlast]
    rfl

end ComplexUri

open ComplexUri

/-- What is accepted is normalised if and only if the path does not end within an escape, nor in
`/.` or `/..` once it is decoded. -/
theorem parseComplexUri_normal_iff {mergeSlashes : Bool} {uri : Bytes} {r : ComplexUri}
    (hroot : uri.head? = some slash) (h : parseComplexUri mergeSlashes uri = some r) :
    (Normal r.uri ∧ Escaped (pathPart uri)) ↔
      percent ∉ (pathPart uri).reverse.take 2 ∧ ¬slash :: dot <:+ unescape (pathPart uri) ∧
        ¬slash :: dotdot <:+ unescape (pathPart uri) := by
  obtain ⟨uri, rfl⟩ := List.head?_eq_some_iff.mp hroot
  by_cases hcut : percent ∈ (pathPart (slash :: uri)).reverse.take 2
  · exact iff_of_false (fun hnormal => hnormal.2.notMem_last hcut) fun hends => hends.1 hcut
  · have hstart : At .slash [slash] [slash] :=
      ⟨[], rfl, List.not_mem_nil, ⟨[], rfl⟩, [], rfl, by decide, rfl⟩
    rw [pathPart_cons (by decide) (by decide)] at hcut ⊢
    obtain ⟨hescaped, state, out, hu, w, -, hends⟩ :=
      loop_spec (r := ⟨[slash], none, false, false⟩) hstart (notMem_last_of_cons hcut) h
    rw [hu, unescape_cons (by decide), and_iff_left (hescaped.cons (by decide)), hends.normal_iff,
      and_iff_right hcut]
    have hdot : slash :: dot <:+ slash :: unescape (pathPart uri) ↔ w = dot.reverse :=
      hends.suffix_iff (by decide)
    have hdotdot : slash :: dotdot <:+ slash :: unescape (pathPart uri) ↔ w = dotdot.reverse :=
      hends.suffix_iff (by decide)
    exact and_congr (not_congr hdot.symm) (not_congr hdotdot.symm)

/-- `/a/%2e%2E/b` -/
theorem normal_uri :
    Normal [47, 98] ∧ Escaped [47, 97, 47, 37, 50, 101, 37, 50, 69, 47, 98] := by
  have h : parseComplexUri true [47, 97, 47, 37, 50, 101, 37, 50, 69, 47, 98] =
      some ⟨[47, 98], none, none, none, true, false⟩ := by decide
  exact (parseComplexUri_normal_iff rfl h).mpr (by decide)

/-- `/..` -/
theorem keeps_dotdot :
    ¬∀ (mergeSlashes : Bool) (uri : Bytes) (r : ComplexUri), uri.head? = some slash →
      parseComplexUri mergeSlashes uri = some r → Normal r.uri ∧ Escaped (pathPart uri) := by
  intro h
  have hparse : parseComplexUri true [47, 46, 46] =
      some ⟨[47, 46, 46], none, none, none, false, false⟩ := by decide
  obtain ⟨hnormal, -⟩ := h true _ _ rfl hparse
  exact absurd hnormal.below (by decide)

end RebuildTheWheel.Nginx
