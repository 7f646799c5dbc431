import RebuildTheWheel.Nginx.UnsafeUri

namespace RebuildTheWheel.Nginx

open Data Data.Ascii UnescapeUri

/-! `ngx_escape_uri`, and what `ngx_unescape_uri` makes of its output. -/

inductive EscapeType where
  | uri
  | args
  | uriComponent
  | html
  | refresh
  | memcached
  | mailAuth
  deriving DecidableEq, Repr

namespace EscapeUri

def uri : List UInt32 :=
  [0xffffffff, 0x80000029, 0x00000000, 0x80000000, 0xffffffff, 0xffffffff, 0xffffffff, 0xffffffff]

def args : List UInt32 :=
  [0xffffffff, 0x88000869, 0x00000000, 0x80000000, 0xffffffff, 0xffffffff, 0xffffffff, 0xffffffff]

def uriComponent : List UInt32 :=
  [0xffffffff, 0xfc009fff, 0x78000001, 0xb8000001, 0xffffffff, 0xffffffff, 0xffffffff, 0xffffffff]

def html : List UInt32 :=
  [0xffffffff, 0x000000ad, 0x00000000, 0x80000000, 0xffffffff, 0xffffffff, 0xffffffff, 0xffffffff]

def refresh : List UInt32 :=
  [0xffffffff, 0x00000085, 0x00000000, 0x80000000, 0xffffffff, 0xffffffff, 0xffffffff, 0xffffffff]

def memcached : List UInt32 :=
  [0xffffffff, 0x00000021, 0x00000000, 0x00000000, 0x00000000, 0x00000000, 0x00000000, 0x00000000]

def map : EscapeType → List UInt32
  | .uri => uri
  | .args => args
  | .uriComponent => uriComponent
  | .html => html
  | .refresh => refresh
  | .memcached => memcached
  | .mailAuth => memcached

/-- The bit of a byte -/
def isEscaped (escape : List UInt32) (c : UInt8) : Bool :=
  escape.getD (c >>> 5).toNat 0 &&& 1 <<< (c.toUInt32 &&& 0x1f) ≠ 0

/-- `0123456789ABCDEF` -/
def hex : Bytes := [48, 49, 50, 51, 52, 53, 54, 55, 56, 57, 65, 66, 67, 68, 69, 70]

def hexDigit (i : UInt8) : UInt8 := hex.getD i.toNat 0

def escaped (c : UInt8) : Bytes := [percent, hexDigit (c >>> 4), hexDigit (c &&& 0xf)]

end EscapeUri

open EscapeUri

/-- The call with `dst == NULL` -/
def escapeUriSize (type : EscapeType) : Bytes → Nat
  | [] => 0
  | c :: src =>
      if isEscaped (map type) c then escapeUriSize type src + 1 else escapeUriSize type src

def escapeUri (type : EscapeType) : Bytes → Bytes
  | [] => []
  | c :: src =>
      if isEscaped (map type) c then escaped c ++ escapeUri type src
      else c :: escapeUri type src

namespace EscapeUri

theorem length_escapeUri (type : EscapeType) (src : Bytes) :
    (escapeUri type src).length = src.length + 2 * escapeUriSize type src := by
  induction src with
  | nil => rfl
  | cons c src ih =>
      rw [escapeUri, escapeUriSize]
      split
      · rw [List.length_append, ih, List.length_cons]
        change 3 + _ = _
        omega
      · rw [List.length_cons, List.length_cons, ih]
        omega

/-! An escape is read back. -/

theorem digits_escaped : ∀ c : UInt8,
    digit? (hexDigit (c >>> 4)) = some (c >>> 4) ∧ digit? (hexDigit (c &&& 0xf)) = some (c &&& 0xf) ∧
      (c >>> 4) <<< 4 + (c &&& 0xf) = c := by
  apply forall_byte
  decide

/-- `ngx_unescape_uri` with the type 0 -/
def unescapeUri (s : Bytes) : Bytes := (unescape false false .usual s).dst

theorem unescape_usual {ch : UInt8} (h : ch ≠ percent) (s : Bytes) :
    unescapeUri (ch :: s) = ch :: unescapeUri s := by
  simp [unescapeUri, unescape, h, Result.write]

theorem unescape_escaped (c : UInt8) (s : Bytes) :
    unescapeUri (escaped c ++ s) = c :: unescapeUri s := by
  obtain ⟨hhigh, hlow, hsum⟩ := digits_escaped c
  simp [unescapeUri, escaped, unescape, hhigh, hlow, hsum, Result.write]

theorem unescapeUri_escapeUri {type : EscapeType} {src : Bytes}
    (h : isEscaped (map type) percent = true ∨ percent ∉ src) :
    unescapeUri (escapeUri type src) = src := by
  induction src with
  | nil => rfl
  | cons c src ih =>
      have hsrc := ih (h.imp_right fun hmem => List.not_mem_of_not_mem_cons hmem)
      rw [escapeUri]
      split
      · rw [unescape_escaped, hsrc]
      · next hc =>
        have hne : c ≠ percent := by
          rintro rfl
          exact h.elim hc fun hmem => hmem List.mem_cons_self
        rw [unescape_usual hne, hsrc]

/-! A table without `%` loses something of every text that has one. -/

/-- The bytes that have an escape, or are `%` -/
def marks (escape : List UInt32) (s : Bytes) : Nat :=
  s.countP fun c => isEscaped escape c || c == percent

/-- A `%` that has been read and gives a byte at the end of its escape -/
def pending : State → Nat
  | .usual => 0
  | .quoted => 1
  | .quotedSecond _ _ => 1

def missing : State → Nat
  | .quoted => 1
  | _ => 0

theorem marks_cons (escape : List UInt32) (c : UInt8) (s : Bytes) :
    marks escape (c :: s) =
      marks escape s + if isEscaped escape c = true ∨ c = percent then 1 else 0 := by
  rw [marks, List.countP_cons]
  simp only [Bool.or_eq_true, beq_iff_eq]
  rfl

theorem digit?_percent : digit? percent = none := by decide

/-- Every marked byte that is written has cost a `%`, and where all of them are paid for, every
`%` has begun an escape. -/
theorem marks_unescape {escape : List UInt32} {text : Bytes}
    (htext : ∀ c ∈ text, isEscaped escape c = false) (state : State) :
    let out := (unescape false false state text).dst
    marks escape out ≤ text.count percent + pending state ∧
      (marks escape out = text.count percent + pending state →
        out.length + 2 * text.count percent + missing state = text.length) := by
  induction text generalizing state with
  | nil => cases state <;> simp [unescape, marks, pending, missing]
  | cons ch text ih =>
      obtain ⟨hch, htext⟩ := List.forall_mem_cons.mp htext
      have ih := ih htext
      cases state with
      | usual =>
          by_cases hpercent : ch = percent
          · subst hpercent
            have hquoted := ih .quoted
            simp only [unescape, List.count_cons_self, List.length_cons, pending, missing] at *
            simp only [show percent ≠ question by decide, false_and, if_false, if_true]
            omega
          · have husual := ih .usual
            simp only [unescape, List.count_cons_of_ne hpercent, List.length_cons, pending,
              missing] at *
            simp [hpercent, Result.write, marks_cons, hch]
            omega
      | quoted =>
          cases hdigit : digit? ch with
          | some decoded =>
              have hne : ch ≠ percent := by
                rintro rfl
                cases digit?_percent.symm.trans hdigit
              have hsecond := ih (.quotedSecond decoded ch)
              simp only [unescape, hdigit, List.count_cons_of_ne hne, List.length_cons,
                pending, missing] at *
              omega
          | none =>
              have husual := ih .usual
              simp only [unescape, hdigit, Result.write, List.singleton_append, marks_cons, hch,
                List.length_cons, List.count_cons, beq_iff_eq, pending, missing] at *
              simp only [Bool.false_eq_true, false_or]
              split <;> omega
      | quotedSecond decoded first =>
          have husual := ih .usual
          cases hdigit : digit? ch with
          | some low =>
              have hne : ch ≠ percent := by
                rintro rfl
                cases digit?_percent.symm.trans hdigit
              simp only [unescape, hdigit, List.count_cons_of_ne hne, List.length_cons,
                pending, missing] at *
              simp [Result.write, marks_cons]
              split <;> omega
          | none =>
              simp only [unescape, hdigit, List.length_cons, List.count_cons, pending, missing] at *
              split <;> omega

/-- The output of a table without `%` has no other mark than the `%` of its escapes and those of
the source. -/
theorem count_escapeUri (hpercent : isEscaped (map type) percent = false)
    (hhex : ∀ c : UInt8, hexDigit (c >>> 4) ≠ percent ∧ hexDigit (c &&& 0xf) ≠ percent)
    (src : Bytes) :
    (escapeUri type src).count percent = marks (map type) src ∧
      marks (map type) src = escapeUriSize type src + src.count percent := by
  induction src with
  | nil => exact ⟨rfl, rfl⟩
  | cons c src ih =>
      obtain ⟨hcount, hmarks⟩ := ih
      rw [escapeUri, escapeUriSize, marks_cons]
      by_cases hc : isEscaped (map type) c = true
      · have hne : c ≠ percent := by
          rintro rfl
          rw [hpercent] at hc
          cases hc
        rw [if_pos hc, if_pos hc, if_pos (.inl hc), escaped, List.cons_append, List.cons_append,
          List.singleton_append, List.count_cons_self, List.count_cons_of_ne (hhex c).1,
          List.count_cons_of_ne (hhex c).2, List.count_cons_of_ne hne, hcount, hmarks]
        exact ⟨rfl, by omega⟩
      · rw [if_neg hc, if_neg hc, List.count_cons, List.count_cons, hcount, hmarks]
        simp only [hc, false_or, beq_iff_eq, Bool.false_eq_true]
        exact ⟨trivial, by omega⟩

theorem not_isEscaped_escapeUri (hpercent : isEscaped (map type) percent = false)
    (hhex : ∀ c : UInt8, isEscaped (map type) (hexDigit (c >>> 4)) = false ∧
      isEscaped (map type) (hexDigit (c &&& 0xf)) = false) (src : Bytes) :
    ∀ c ∈ escapeUri type src, isEscaped (map type) c = false := by
  induction src with
  | nil => exact fun c hc => absurd hc List.not_mem_nil
  | cons a src ih =>
      rw [escapeUri]
      split
      · rw [escaped]
        simp only [List.cons_append, List.nil_append, List.forall_mem_cons]
        exact ⟨hpercent, (hhex a).1, (hhex a).2, ih⟩
      · next ha => exact List.forall_mem_cons.mpr ⟨Bool.eq_false_iff.mpr ha, ih⟩

/-- The sizing call agrees with the writing call, and the output is read back as the source. -/
def RoundTrips (type : EscapeType) (src : Bytes) : Prop :=
  (escapeUri type src).length = src.length + 2 * escapeUriSize type src ∧
    unescapeUri (escapeUri type src) = src

theorem hexDigit_plain : ∀ c : UInt8,
    (hexDigit (c >>> 4) ≠ percent ∧ hexDigit (c &&& 0xf) ≠ percent) ∧
      isEscaped refresh (hexDigit (c >>> 4)) = false ∧
      isEscaped refresh (hexDigit (c &&& 0xf)) = false := by
  apply forall_byte
  decide

/-- The table `refresh` lacks the bit of `%`. -/
theorem roundTrips_iff (type : EscapeType) (src : Bytes) :
    RoundTrips type src ↔ type ≠ .refresh ∨ percent ∉ src := by
  constructor
  · rintro ⟨hlength, hback⟩
    by_cases htype : type = .refresh
    · subst htype
      refine .inr fun hmem => ?_
      have hpercent : isEscaped (map .refresh) percent = false := by decide
      obtain ⟨hcount, hmarks⟩ := count_escapeUri hpercent (fun c => (hexDigit_plain c).1) src
      obtain ⟨-, hpaid⟩ := marks_unescape (not_isEscaped_escapeUri hpercent
        (fun c => (hexDigit_plain c).2) src) .usual
      change marks (map .refresh) (unescapeUri _) = _ → (unescapeUri _).length + _ + 0 = _ at hpaid
      rw [hback, hcount] at hpaid
      have hpos := List.count_pos_iff.mpr hmem
      have hsame := hpaid rfl
      omega
    · exact .inl htype
  · intro h
    refine ⟨length_escapeUri type src, unescapeUri_escapeUri ?_⟩
    cases type <;> first | exact .inl (by decide) | exact h.imp_left fun hne => absurd rfl hne

theorem roundTrips_refresh_percent : ¬ ∀ type src, RoundTrips type src := by
  intro h
  have hback : unescapeUri (escapeUri .refresh [percent]) = [percent] := (h .refresh [percent]).2
  exact absurd hback (by decide)

end EscapeUri

end RebuildTheWheel.Nginx
