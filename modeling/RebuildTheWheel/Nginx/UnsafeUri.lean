import Mathlib.Data.List.TakeWhile
import RebuildTheWheel.Data.Path
import RebuildTheWheel.Data.PercentEncoding
import RebuildTheWheel.Nginx.RequestLine

namespace RebuildTheWheel.Nginx

open Data Data.Ascii Data.Path

/-! `ngx_http_parse_unsafe_uri` and `ngx_unescape_uri`. -/

namespace UnescapeUri

/-- The state behind a digit also keeps the digit itself, which may be copied. -/
inductive State where
  | usual
  | quoted
  | quotedSecond (decoded first : UInt8)

/-- What is written, and what is left of the source. -/
structure Result where
  dst : Bytes
  src : Bytes

def Result.write (r : Result) (bytes : Bytes) : Result := { r with dst := bytes ++ r.dst }

/-- The value of a digit, by the arithmetic of the source. -/
def digit? (ch : UInt8) : Option UInt8 :=
  if isDigit ch then some (ch - 48)
  else
    let c := ch ||| 0x20
    if 97 ≤ c ∧ c ≤ 102 then some (c - 97 + 10) else none

/-- `NGX_UNESCAPE_REDIRECT` keeps the escapes of all but the characters behind `%`. -/
def redirected (first second ch : UInt8) : Bytes :=
  if percent < ch ∧ ch < 0x7f then [ch] else [percent, first, second]

/-- `uri` and `redirect` are the two bits of `type`. -/
def unescape (uri redirect : Bool) : State → Bytes → Result
  | _, [] => ⟨[], []⟩
  | .usual, ch :: s =>
      if ch = question ∧ (uri ∨ redirect) then ⟨[ch], s⟩
      else if ch = percent then unescape uri redirect .quoted s
      else (unescape uri redirect .usual s).write [ch]
  | .quoted, ch :: s =>
      match digit? ch with
      | some decoded => unescape uri redirect (.quotedSecond decoded ch) s
      -- the invalid quoted character
      | none => (unescape uri redirect .usual s).write [ch]
  | .quotedSecond decoded first, second :: s =>
      match digit? second with
      | some low =>
          let ch := (decoded <<< 4) + low
          if isDigit second then
            (unescape uri redirect .usual s).write
              (if redirect then redirected first second ch else [ch])
          else if ch = question ∧ (uri ∨ redirect) then ⟨[ch], s⟩
          else
            (unescape uri redirect .usual s).write
              (if ¬uri ∧ redirect then redirected first second ch else [ch])
      -- the invalid quoted character
      | none => unescape uri redirect .usual s

/-- The bytes of the two digits, and their sum. -/
theorem digit?_eq (ch : UInt8) : digit? ch = (hexVal? ch).map UInt8.ofNat := by
  revert ch
  apply forall_byte
  decide

theorem shift_add : ∀ a < 16, ∀ b < 16,
    (UInt8.ofNat a <<< 4) + UInt8.ofNat b = UInt8.ofNat (16 * a + b) := by
  decide

/-- Without a type, all escapes are decoded. -/
theorem unescape_eq {s : Bytes} (h : PercentEncoding.Escaped s) :
    (unescape false false .usual s).dst = PercentEncoding.unescape s := by
  induction hn : s.length using Nat.strong_induction_on generalizing s with
  | _ n ih =>
      cases s with
      | nil => rfl
      | cons c s =>
          by_cases hc : c = percent
          · subst hc
            obtain ⟨x, y, rest, rfl, hx, hy, hrest⟩ := h.of_escape
            obtain ⟨a, ha⟩ := Option.isSome_iff_exists.mp hx
            obtain ⟨b, hb⟩ := Option.isSome_iff_exists.mp hy
            have htail := ih rest.length (by rw [← hn]; simp only [List.length_cons]; omega) hrest rfl
            have hvalue := shift_add a (hexVal?_lt x a ha) b (hexVal?_lt y b hb)
            have hpercent : percent ≠ question := by decide
            rw [PercentEncoding.unescape_escape ha hb, ← htail, ← hvalue]
            simp [unescape, digit?_eq, ha, hb, hpercent, Result.write]
          · have htail := ih s.length (by rw [← hn]; simp) h.of_cons rfl
            rw [PercentEncoding.unescape_cons hc, ← htail]
            simp [unescape, hc, Result.write]

end UnescapeUri

namespace UnsafeUri

/-- `..` at the start, up to the end or a separator. -/
def climbs (p : Bytes) : Bool := p.take 2 = dotdot ∧ (p.length = 2 ∨ p[2]? = some slash)

/-- The first loop, over the URI with its arguments: whether an escape was seen, and the arguments.
It fails where the URI is unsafe. -/
def scanRaw (quoted : Bool) : Bytes → Option (Bool × Option Bytes)
  | [] => some (quoted, none)
  | ch :: p =>
      if ch = percent then scanRaw true p
      else if usual ch then scanRaw quoted p
      else if ch = question then some (quoted, some p)
      else if ch = 0 then none
      else if ch = slash ∧ climbs p then none
      else scanRaw quoted p

/-- The second loop, over what was decoded. -/
def scanDecoded : Bytes → Bool
  | [] => true
  | ch :: p => if ch = 0 then false else if ch = slash ∧ climbs p then false else scanDecoded p

/-- `uri->len -= len`, where the arguments begin. -/
def cut (uri : Bytes) : Option Bytes → Bytes
  | none => uri
  | some query => uri.take (uri.length - (query.length + 1))

/-- What follows the first loop. The flag `pnalloc` tells whether memory is found. -/
def decode (pnalloc quoted : Bool) (uri args : Bytes) : Option (Bytes × Bytes) :=
  if quoted then
    if pnalloc then
      let uri := (UnescapeUri.unescape false false .usual uri).dst
      if climbs uri then none
      else if scanDecoded uri then some (uri, args) else none
    else none
  else some (uri, args)

end UnsafeUri

open UnsafeUri in
/-- The URI and the arguments with `NGX_OK`, and `none` with `NGX_ERROR`. Without a question mark the
arguments stay as they are. -/
def parseUnsafeUri (pnalloc : Bool) (uri args : Bytes) : Option (Bytes × Bytes) :=
  if uri = [] ∨ uri.head? = some question then none
  else if climbs uri then none
  else
    match scanRaw false uri with
    | none => none
    | some (quoted, query) => decode pnalloc quoted (cut uri query) (query.getD args)

namespace UnsafeUri

/-! Where the two loops look for `..`. -/

variable {ch : UInt8} {p q w uri : Bytes} {quoted : Bool}

theorem head_segments (p : Bytes) : (segments p).head? = some (p.takeWhile (· ≠ slash)) := by
  induction p with
  | nil => rfl
  | cons c p ih =>
      rw [segments]
      split_ifs with hc
      · rw [List.takeWhile_cons_of_neg (by simpa using hc)]
        rfl
      · rw [List.takeWhile_cons_of_pos (by simpa using hc)]
        obtain ⟨s, ss, hss⟩ := List.exists_cons_of_ne_nil (segments_ne_nil p)
        rw [hss] at ih ⊢
        rw [← Option.some.inj ih]
        rfl

theorem tail_segments_slash (p : Bytes) : (segments (slash :: p)).tail = segments p := by
  rw [segments, if_pos rfl, List.tail_cons]

theorem tail_segments_cons {c : UInt8} (hc : c ≠ slash) (p : Bytes) :
    (segments (c :: p)).tail = (segments p).tail := by
  obtain ⟨s, ss, hss⟩ := List.exists_cons_of_ne_nil (segments_ne_nil p)
  rw [segments, if_neg hc, hss]
  rfl

theorem climbs_iff (p : Bytes) : climbs p = true ↔ (segments p).head? = some dotdot := by
  rw [head_segments, Option.some_inj, climbs, decide_eq_true_iff]
  have hpoint : point ≠ slash := by decide
  rcases p with _ | ⟨a, _ | ⟨b, _ | ⟨c, p⟩⟩⟩
  · simp [dotdot]
  · by_cases ha : a = slash <;> simp [dotdot, ha]
  · by_cases ha : a = slash
    · simp [dotdot, ha, hpoint.symm]
    · by_cases hb : b = slash <;> simp [dotdot, ha, hb, hpoint.symm]
  · by_cases ha : a = slash
    · simp [dotdot, ha, hpoint.symm]
    · by_cases hb : b = slash
      · simp [dotdot, ha, hb, hpoint.symm]
      · by_cases hc : c = slash <;> simp [dotdot, ha, hb, hc]

theorem mem_iff_head_tail (a : Bytes) (l : List Bytes) : a ∈ l ↔ l.head? = some a ∨ a ∈ l.tail := by
  cases l with
  | nil => simp
  | cons b l => simp [eq_comm]

theorem mem_segments_iff (p : Bytes) :
    dotdot ∈ segments p ↔ climbs p = true ∨ dotdot ∈ (segments p).tail := by
  rw [climbs_iff, mem_iff_head_tail]

theorem scanDecoded_iff (p : Bytes) :
    scanDecoded p = true ↔ 0 ∉ p ∧ dotdot ∉ (segments p).tail := by
  induction p with
  | nil => exact iff_of_true rfl ⟨List.not_mem_nil, List.not_mem_nil⟩
  | cons ch p ih =>
      by_cases hnul : ch = 0
      · subst hnul
        exact iff_of_false Bool.false_ne_true fun h => h.1 List.mem_cons_self
      · have hrest : scanDecoded (ch :: p) =
            if ch = slash ∧ climbs p = true then false else scanDecoded p := if_neg hnul
        have hne : ¬(0 = ch) := fun h => hnul h.symm
        rw [hrest, List.mem_cons, or_iff_right hne]
        by_cases hch : ch = slash
        · subst hch
          rw [tail_segments_slash, mem_segments_iff]
          cases hclimbs : climbs p with
          | true => simp
          | false => simpa using ih
        · rw [if_neg fun h => hch h.1, tail_segments_cons hch]
          exact ih

theorem usual_ne (hch : usual ch = true) : ch ≠ 0 ∧ ch ≠ slash ∧ ch ≠ question := by
  refine ⟨?_, ?_, ?_⟩ <;>
    rintro rfl <;> exact absurd hch (by decide)

/-- The segments that the first loop looks at: with arguments the last one is not among them. -/
def looked (query : Option Bytes) (ss : List Bytes) : List Bytes :=
  match query with
  | none => ss
  | some _ => ss.dropLast

/-- The URI with its arguments. -/
def withQuery (w : Bytes) (query : Option Bytes) : Bytes :=
  match query with
  | none => w
  | some q => w ++ question :: q

theorem looked_tail (query : Option Bytes) (ss : List Bytes) :
    (looked query ss).tail = looked query ss.tail := by
  cases query with
  | none => rfl
  | some q => exact List.tail_dropLast

theorem climbs_withQuery (query : Option Bytes) (w : Bytes) :
    climbs (withQuery w query) = true ↔ (looked query (segments w)).head? = some dotdot := by
  cases query with
  | none => exact climbs_iff w
  | some q =>
      show climbs (w ++ question :: q) = true ↔ (segments w).dropLast.head? = some dotdot
      rw [climbs_iff, head_segments]
      by_cases hslash : slash ∈ w
      · obtain ⟨front, back, rfl, hfront⟩ := List.eq_append_cons_of_mem hslash
        have hall : ∀ x ∈ front, decide (x ≠ slash) = true := fun x hx =>
          decide_eq_true (ne_of_mem_of_not_mem hx hfront)
        rw [segments_append, segments_of_notMem hfront, List.singleton_append,
          List.dropLast_cons_of_ne_nil (segments_ne_nil back), List.head?_cons, List.append_assoc,
          List.cons_append, List.takeWhile_append_of_pos hall, List.takeWhile_cons_of_neg (by decide),
          List.append_nil]
      · have hall : ∀ x ∈ w, decide (x ≠ slash) = true := fun x hx =>
          decide_eq_true (ne_of_mem_of_not_mem hx hslash)
        rw [segments_of_notMem hslash, List.takeWhile_append_of_pos hall,
          List.takeWhile_cons_of_pos (by decide)]
        refine iff_of_false (fun h => ?_) fun h => nomatch h
        have hmem : question ∈ dotdot := by
          rw [← Option.some.inj h]
          exact List.mem_append_right _ List.mem_cons_self
        exact absurd hmem (by decide)

theorem withQuery_cons (ch : UInt8) (w : Bytes) (query : Option Bytes) :
    withQuery (ch :: w) query = ch :: withQuery w query := by
  cases query <;> rfl

theorem scanRaw_eq (hw : question ∉ w) (query : Option Bytes) (quoted : Bool) :
    scanRaw quoted (withQuery w query) =
      if 0 ∈ w ∨ dotdot ∈ looked query (segments w).tail then none
      else some (quoted || decide (percent ∈ w), query) := by
  induction w generalizing quoted with
  | nil =>
      cases query with
      | none => simp [withQuery, scanRaw, looked, segments]
      | some q =>
          have husual : usual question = false := by decide
          have hpercent : question ≠ percent := by decide
          simp [withQuery, scanRaw, looked, segments, husual, hpercent]
  | cons ch w ih =>
      obtain ⟨hquestion, hrest⟩ := not_or.mp (mt List.mem_cons.mpr hw)
      rw [withQuery_cons, scanRaw]
      by_cases hpercent : ch = percent
      · subst hpercent
        have hslash : percent ≠ slash := by decide
        have hnul : ¬0 = percent := by decide
        rw [if_pos rfl, ih hrest, tail_segments_cons hslash]
        simp [hnul]
      · rw [if_neg hpercent]
        have hpercent' : decide (percent ∈ ch :: w) = decide (percent ∈ w) := by
          simp [Ne.symm hpercent]
        rw [hpercent']
        by_cases husual : usual ch = true
        · obtain ⟨hnul, hslash, -⟩ := usual_ne husual
          rw [if_pos husual, ih hrest, tail_segments_cons hslash]
          simp [Ne.symm hnul]
        · rw [if_neg husual, if_neg (Ne.symm hquestion)]
          by_cases hnul : ch = 0
          · subst hnul
            simp
          · have hnul' : ¬0 = ch := Ne.symm hnul
            simp only [if_neg hnul, List.mem_cons, hnul', false_or]
            by_cases hslash : ch = slash
            · subst hslash
              have hmem := mem_iff_head_tail dotdot (looked query (segments w))
              rw [← climbs_withQuery, looked_tail] at hmem
              rw [tail_segments_slash]
              cases hclimbs : climbs (withQuery w query) with
              | true => simp [hmem, hclimbs]
              | false => simpa [hmem, hclimbs] using ih hrest quoted
            · rw [if_neg fun h => hslash h.1, ih hrest, tail_segments_cons hslash]

/-! The whole function. -/

def pathPart (uri : Bytes) : Bytes := uri.takeWhile (· ≠ question)

/-- What is behind the first question mark. -/
def arguments (uri : Bytes) : Option Bytes :=
  if question ∈ uri then some (uri.dropWhile (· ≠ question)).tail else none

theorem question_notMem_pathPart (uri : Bytes) : question ∉ pathPart uri := by
  intro hmem
  unfold pathPart at hmem
  exact absurd (List.mem_takeWhile_imp hmem) (by decide)

theorem withQuery_parts (uri : Bytes) : withQuery (pathPart uri) (arguments uri) = uri := by
  induction uri with
  | nil => rfl
  | cons c uri ih =>
      by_cases hc : c = question
      · subst hc
        simp [pathPart, arguments, withQuery]
      · have hpath : pathPart (c :: uri) = c :: pathPart uri :=
          List.takeWhile_cons_of_pos (decide_eq_true hc)
        have hquery : arguments (c :: uri) = arguments uri := by
          simp [arguments, hc, Ne.symm hc]
        rw [hpath, hquery, withQuery_cons, ih]

theorem parseUnsafeUri_eq (pnalloc : Bool) (hw : question ∉ w) (query : Option Bytes)
    (args : Bytes) :
    parseUnsafeUri pnalloc (withQuery w query) args =
      if w = [] ∨ 0 ∈ w ∨ dotdot ∈ looked query (segments w) then none
      else decode pnalloc (decide (percent ∈ w)) w (query.getD args) := by
  have hempty : (withQuery w query = [] ∨ (withQuery w query).head? = some question) ↔ w = [] := by
    cases w with
    | nil => cases query <;> simp [withQuery]
    | cons c w =>
        have hc : c ≠ question := fun h => hw (h ▸ List.mem_cons_self)
        simp [withQuery_cons, hc]
  have hmem : dotdot ∈ looked query (segments w) ↔
      climbs (withQuery w query) = true ∨ dotdot ∈ looked query (segments w).tail := by
    rw [climbs_withQuery, ← looked_tail]
    exact mem_iff_head_tail _ _
  have hcut : cut (withQuery w query) query = w := by
    cases query with
    | none => rfl
    | some q => simp [withQuery, cut]
  unfold parseUnsafeUri
  rw [scanRaw_eq hw, if_congr hempty rfl rfl]
  by_cases hnil : w = []
  · rw [if_pos hnil, if_pos (.inl hnil)]
  · rw [if_neg hnil]
    cases hclimbs : climbs (withQuery w query) with
    | true => simp [hmem, hclimbs]
    | false =>
        by_cases hunsafe : 0 ∈ w ∨ dotdot ∈ looked query (segments w).tail
        · rcases hunsafe with hunsafe | hunsafe <;> simp [hmem, hunsafe]
        · simp [hmem, hunsafe, hnil, hclimbs, hcut]

/-- The path is decoded to itself when nothing in it is quoted. -/
theorem decode_safe {uri' args' : Bytes} {pnalloc : Bool} {args : Bytes}
    (h : decode pnalloc (decide (percent ∈ w)) w args = some (uri', args')) (hnul : 0 ∉ w)
    (hsegments : percent ∈ w ∨ dotdot ∉ segments w) :
    0 ∉ uri' ∧ dotdot ∉ segments uri' ∧ args' = args := by
  unfold decode at h
  split_ifs at h with hpercent hpnalloc
  · dsimp only at h
    split_ifs at h with hclimbs hscan
    obtain ⟨rfl, rfl⟩ := Prod.mk.inj (Option.some.inj h)
    obtain ⟨hdecoded, htail⟩ := (scanDecoded_iff _).mp hscan
    exact ⟨hdecoded, fun hmem => ((mem_segments_iff _).mp hmem).elim hclimbs htail, rfl⟩
  · obtain ⟨rfl, rfl⟩ := Prod.mk.inj (Option.some.inj h)
    exact ⟨hnul, hsegments.resolve_left (mt decide_eq_true hpercent), rfl⟩

/-- A segment `..` directly before the question mark, when nothing is quoted and nothing else is
unsafe. -/
structure Overlooked (uri : Bytes) : Prop where
  query : question ∈ uri
  unquoted : percent ∉ pathPart uri
  nul : 0 ∉ pathPart uri
  last : (segments (pathPart uri)).getLast? = some dotdot
  others : dotdot ∉ (segments (pathPart uri)).dropLast

end UnsafeUri

open UnsafeUri

/-- A URI that is accepted is safe, but for what is overlooked before the arguments. -/
theorem parseUnsafeUri_safe_iff (pnalloc : Bool) (uri args : Bytes) :
    (∀ uri' args', parseUnsafeUri pnalloc uri args = some (uri', args') →
      0 ∉ uri' ∧ dotdot ∉ segments uri' ∧ args' = (arguments uri).getD args) ↔
      ¬Overlooked uri := by
  have hw := question_notMem_pathPart uri
  have hsplit := parseUnsafeUri_eq pnalloc hw (arguments uri) args
  rw [withQuery_parts] at hsplit
  constructor
  · intro h hoverlooked
    obtain ⟨hquery, hunquoted, hnul, hlast, hothers⟩ := hoverlooked
    have hne : pathPart uri ≠ [] := by
      intro hnil
      rw [hnil] at hlast
      exact absurd hlast (by decide)
    have harguments : arguments uri = some (uri.dropWhile (· ≠ question)).tail := if_pos hquery
    rw [harguments] at hsplit
    have hlooked : ¬(pathPart uri = [] ∨ 0 ∈ pathPart uri ∨
        dotdot ∈ (segments (pathPart uri)).dropLast) := by
      rw [not_or, not_or]
      exact ⟨hne, hnul, hothers⟩
    have haccepted := hsplit.trans (if_neg hlooked)
    rw [decode, decide_eq_false hunquoted] at haccepted
    exact (h _ _ haccepted).2.1 (List.mem_of_getLast? hlast)
  · intro hoverlooked uri' args' haccepted
    rw [hsplit] at haccepted
    split_ifs at haccepted with hrejected
    rw [not_or, not_or] at hrejected
    obtain ⟨-, hnul, hlooked⟩ := hrejected
    refine decode_safe haccepted hnul ?_
    by_contra hfound
    rw [not_or, not_not] at hfound
    obtain ⟨hunquoted, hfound⟩ := hfound
    cases harguments : arguments uri with
    | none =>
        rw [harguments] at hlooked
        exact hlooked hfound
    | some q =>
        rw [harguments] at hlooked
        have hquery : question ∈ uri := by
          by_contra hnone
          rw [arguments, if_neg hnone] at harguments
          cases harguments
        have hlast := List.dropLast_append_getLast (segments_ne_nil (pathPart uri))
        rw [← hlast] at hfound
        have hfound := (List.mem_append.mp hfound).resolve_left hlooked
        refine hoverlooked ⟨hquery, hunquoted, hnul, ?_, hlooked⟩
        rw [List.getLast?_eq_getLast_of_ne_nil (segments_ne_nil _), List.mem_singleton.mp hfound]

/-- `/a/..?x` -/
theorem parseUnsafeUri_overlooks :
    ¬∀ (pnalloc : Bool) (uri args uri' args' : Bytes),
      parseUnsafeUri pnalloc uri args = some (uri', args') →
        0 ∉ uri' ∧ dotdot ∉ segments uri' ∧ args' = (arguments uri).getD args := by
  intro h
  have hsafe := h true [47, 97, 47, 46, 46, 63, 120] [] [47, 97, 47, 46, 46] [120] (by decide)
  exact absurd hsafe.2.1 (by decide)

end RebuildTheWheel.Nginx
