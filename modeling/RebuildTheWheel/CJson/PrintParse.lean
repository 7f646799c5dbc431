import RebuildTheWheel.CJson.ParseRfc8259
import RebuildTheWheel.CJson.Print

namespace RebuildTheWheel.CJson

open RebuildTheWheel.Data
open RebuildTheWheel.Data.Ascii
open RebuildTheWheel.Data.Json (Lexicon Renders RendersElements RendersMembers RendersText)

mutual

/-- An item of a valid kind whose tree of children is the value. -/
inductive Represents : Item → Json Int32 CString → Prop where
  | null : data.type.kind = .null → Represents (.node data child next) .null
  | false : data.type.kind = .false → Represents (.node data child next) .false
  | true : data.type.kind = .true → Represents (.node data child next) .true
  | number : data.type.kind = .number → data.valueint = n →
      data.valuedouble = Binary64.ofInt n.toInt → Represents (.node data child next) (.number n)
  | string : data.type.kind = .string → data.valuestring = some s.1 →
      Represents (.node data child next) (.string s)
  | array : data.type.kind = .array → RepresentsElements child elements →
      Represents (.node data child next) (.array elements)
  | object : data.type.kind = .object → RepresentsMembers child members →
      Represents (.node data child next) (.object members)

inductive RepresentsElements : Item → List (Json Int32 CString) → Prop where
  | nil : RepresentsElements .null []
  | cons : Represents (.node data child next) v → RepresentsElements next elements →
      RepresentsElements (.node data child next) (v :: elements)

inductive RepresentsMembers : Item → List (CString × Json Int32 CString) → Prop where
  | nil : RepresentsMembers .null []
  | cons : data.string = some key.1 → Represents (.node data child next) v →
      RepresentsMembers next members →
      RepresentsMembers (.node data child next) ((key, v) :: members)

end

/-! The tree the parser builds represents its value. -/

theorem Represents.setNext (h : Represents item v) (next : Item) :
    Represents (item.setNext next) v := by
  cases h with
  | null hkind => exact .null hkind
  | false hkind => exact .false hkind
  | true hkind => exact .true hkind
  | number hkind hint hdouble => exact .number hkind hint hdouble
  | string hkind hstring => exact .string hkind hstring
  | array hkind helements => exact .array hkind helements
  | object hkind hmembers => exact .object hkind hmembers

theorem Represents.setString (h : Represents item v) (string : Bytes) :
    Represents (item.setString string) v := by
  cases h with
  | null hkind => exact .null hkind
  | false hkind => exact .false hkind
  | true hkind => exact .true hkind
  | number hkind hint hdouble => exact .number hkind hint hdouble
  | string hkind hstring => exact .string hkind hstring
  | array hkind helements => exact .array hkind helements
  | object hkind hmembers => exact .object hkind hmembers

theorem Represents.cons_element (h : Represents item v) (hnext : RepresentsElements next elements) :
    RepresentsElements (item.setNext next) (v :: elements) := by
  have hset := h.setNext next
  cases item with
  | null => cases h
  | node data child _ => exact .cons hset hnext

theorem Represents.cons_member (key : CString) (h : Represents item v)
    (hnext : RepresentsMembers next members) :
    RepresentsMembers ((item.setString key.1).setNext next) ((key, v) :: members) := by
  have hset := (h.setString key.1).setNext next
  cases item with
  | null => cases h
  | node data child _ => exact .cons rfl hset hnext

mutual

theorem represents_treeOf : ∀ v : Json Int32 CString, Represents (treeOf Subtype.val v) v
  | .null => .null rfl
  | .false => .false rfl
  | .true => .true rfl
  | .number _ => .number rfl rfl rfl
  | .string _ => .string rfl rfl
  | .array elements => .array rfl (represents_elementsOf elements)
  | .object members => .object rfl (represents_membersOf members)

theorem represents_elementsOf :
    ∀ elements : List (Json Int32 CString),
      RepresentsElements (elementsOf Subtype.val elements) elements
  | [] => .nil
  | v :: elements => (represents_treeOf v).cons_element (represents_elementsOf elements)

theorem represents_membersOf :
    ∀ members : List (CString × Json Int32 CString),
      RepresentsMembers (membersOf Subtype.val members) members
  | [] => .nil
  | (key, v) :: members => (represents_treeOf v).cons_member key (represents_membersOf members)

end

/-! The printed text is a text of the grammar with the literals of the printer. -/

def printed : Lexicon Int32 CString where
  number n text := text = Decimal.signed n.toInt
  string s text := text = literal s.1 ∧ text.length + 1 ≤ intMax
  gap text := ∀ b ∈ text, b ≤ 32

theorem cstr_eq {str : Bytes} (h : 0 ∉ str) : cstr str = str := by
  unfold cstr
  induction str with
  | nil => rfl
  | cons c str ih =>
      simp only [List.mem_cons, not_or] at h
      rw [List.takeWhile_cons_of_pos (by simpa using Ne.symm h.1), ih h.2]

theorem decodes_control {c : UInt8} (hc0 : c ≠ 0) (hc : c < 32) :
    Decodes (backslash :: lowerU :: Decimal.hex4 c.toNat) [c] 5 := by
  have hsmall : c.toNat < 32 := UInt8.lt_iff_toNat_lt.mp hc
  have hpos : c.toNat ≠ 0 := fun h => hc0 (UInt8.toNat_inj.mp h)
  have hdigits := Json.hex4_digits (n := c.toNat) (by omega)
  have hcount : ∀ rest, countChars (Decimal.hex4 c.toNat ++ rest) =
      (countChars rest).map (· + 4) := by
    intro rest
    rw [(decodes_raws _ hdigits.plain).count_eq, hdigits.length_eq]
  apply decodes_unicode hcount
  intro rest
  rw [unicodeEscape, parseHex4_digits hdigits, hdigits.length_eq]
  simp only [Bool.or_eq_true, Bool.and_eq_true, decide_eq_true_eq]
  rw [if_neg (by omega), if_neg (by omega), storeUtf8, if_pos (by omega), UInt8.ofNat_toNat]

theorem decodes_escape {c : UInt8} (hc : c ≠ 0) :
    ∃ count, count ≤ (escape c).length ∧ Decodes (escape c) [c] count := by
  unfold escape
  split_ifs with hraw hbackslash hquote h8 h12 h10 h13 h9
  · simp only [Bool.and_eq_true, decide_eq_true_eq] at hraw
    exact ⟨1, le_rfl, decodes_raw hraw.1.2 hraw.2⟩
  all_goals try subst c
  · exact ⟨1, by decide, decodes_short (by decide)⟩
  · exact ⟨1, by decide, decodes_short (by decide)⟩
  · exact ⟨1, by decide, decodes_short (e := lowerB) (by decide)⟩
  · exact ⟨1, by decide, decodes_short (e := lowerF) (by decide)⟩
  · exact ⟨1, by decide, decodes_short (e := lowerN) (by decide)⟩
  · exact ⟨1, by decide, decodes_short (e := lowerR) (by decide)⟩
  · exact ⟨1, by decide, decodes_short (e := lowerT) (by decide)⟩
  · have hcontrol : c < 32 := by
      simp only [Bool.and_eq_true, decide_eq_true_eq, ne_eq, UInt8.lt_iff_toNat_lt,
        hquote, hbackslash, not_false_eq_true, and_true, not_lt] at hraw ⊢
      exact Nat.lt_succ_of_le hraw
    exact ⟨5, by simp [Decimal.hex4], decodes_control hc hcontrol⟩

theorem decodes_flatMap_escape :
    ∀ str : Bytes, 0 ∉ str →
      ∃ count, count ≤ (str.flatMap escape).length ∧ Decodes (str.flatMap escape) str count
  | [], _ => ⟨0, le_rfl, Decodes.nil⟩
  | c :: str, h => by
      simp only [List.mem_cons, not_or] at h
      obtain ⟨count, hle, hdecodes⟩ := decodes_escape (Ne.symm h.1)
      obtain ⟨count', hle', hdecodes'⟩ := decodes_flatMap_escape str h.2
      refine ⟨count' + count, ?_, hdecodes.append hdecodes'⟩
      rw [List.flatMap_cons, List.length_append]
      omega

theorem readable_printed : Readable Subtype.val printed where
  number {n text rest} h hrest := by
    rw [show text = _ from h]
    exact parseNumber_integer (Json.rendersInteger_signed _) (Binary64.abs_toInt_lt n) hrest
  number_head {n text} h := by
    rw [show text = _ from h]
    exact (Json.rendersInteger_signed _).head
  string {s text rest} h := by
    obtain ⟨rfl, hfits⟩ := h
    obtain ⟨count, hle, hdecodes⟩ := decodes_flatMap_escape s.1 s.2
    rw [literal, cstr_eq s.2] at hfits ⊢
    simp only [List.length_cons, List.length_append] at hfits
    rw [List.cons_append, List.append_assoc]
    exact parseString_literal hdecodes (by omega)
  string_head h := ⟨_, h.1⟩
  gap h := h

theorem indent_gap (fmt : Bool) (depth : Nat) : ∀ b ∈ indent fmt depth, b ≤ 32 := by
  intro b hb
  unfold indent at hb
  split at hb
  · obtain rfl := List.eq_of_mem_replicate hb
    decide
  · cases hb

theorem lineBreak_gap (fmt : Bool) : ∀ b ∈ lineBreak fmt, b ≤ 32 := by
  cases fmt with
  | false => exact List.forall_mem_nil _
  | true => exact List.forall_mem_singleton.mpr (by decide)

theorem append_gap {left right : Bytes} (hleft : ∀ b ∈ left, b ≤ (32 : UInt8))
    (hright : ∀ b ∈ right, b ≤ (32 : UInt8)) : ∀ b ∈ left ++ right, b ≤ (32 : UInt8) := by
  intro b hb
  rcases List.mem_append.mp hb with h | h
  · exact hleft b h
  · exact hright b h

theorem nil_gap : ∀ b ∈ ([] : Bytes), b ≤ 32 := by
  intro b hb
  cases hb

theorem optional_gap (fmt : Bool) {b : UInt8} (hb : b ≤ 32) :
    ∀ c ∈ (if fmt then [b] else []), c ≤ (32 : UInt8) := by
  cases fmt with
  | false => simp
  | true => simpa using hb

theorem composeArray_cons {fmt : Bool} {entry : Bytes} {entries : List Bytes}
    (h : entries ≠ []) :
    composeArray fmt (entry :: entries) =
      entry ++ (comma :: ((if fmt then [space] else []) ++ composeArray fmt entries)) := by
  cases entries with
  | nil => exact absurd rfl h
  | cons _ _ => rfl

theorem RepresentsElements.nil_or (h : RepresentsElements item elements) :
    (item = .null ∧ elements = []) ∨
      (elements ≠ [] ∧ ∀ fmt depth, chainEntries fmt depth item ≠ []) := by
  cases h with
  | nil => exact Or.inl ⟨rfl, rfl⟩
  | cons _ _ => exact Or.inr ⟨by simp, by simp [chainEntries]⟩

theorem RepresentsMembers.nil_or (h : RepresentsMembers item members) :
    (item = .null ∧ members = []) ∨
      (members ≠ [] ∧ ∀ fmt depth, chainEntries fmt depth item ≠ []) := by
  cases h with
  | nil => exact Or.inl ⟨rfl, rfl⟩
  | cons _ _ _ => exact Or.inr ⟨by simp, by simp [chainEntries]⟩

mutual

theorem renders_valueText (fmt : Bool) :
    Represents (.node data child next) v → ∀ {depth : Nat},
      SizesFit fmt depth (.node data child next) →
      Renders printed v (valueText fmt depth (.node data child next))
  | .null hkind, depth, _ => by
      rw [valueText, nodeText, hkind]
      exact .null
  | .false hkind, depth, _ => by
      rw [valueText, nodeText, hkind]
      exact .false
  | .true hkind, depth, _ => by
      rw [valueText, nodeText, hkind]
      exact .true
  | .number hkind hint hdouble, depth, _ => by
      rw [valueText, nodeText, hkind]
      simp only [printNumber_int hint hdouble]
      exact .number rfl
  | .string hkind hstring, depth, hfits => by
      rw [SizesFit, NodeSizeFits, hkind] at hfits
      obtain ⟨s, hs, hsize⟩ := hfits
      obtain rfl := Option.some.inj (hstring.symm.trans hs)
      rw [valueText, nodeText, hkind, hstring]
      exact .string ⟨rfl, hsize⟩
  | .array hkind helements, depth, hfits => by
      rw [SizesFit, NodeSizeFits, hkind] at hfits
      rw [valueText, nodeText, hkind]
      rcases helements.nil_or with ⟨rfl, rfl⟩ | ⟨hne, hentries⟩
      · exact .emptyArray (show printed.gap [] from nil_gap)
      · obtain ⟨body, htext, hbody⟩ := renders_composeArray fmt helements hne hfits.1
        rw [arrayText, if_neg (by simpa using hentries fmt (depth + 1)), htext]
        exact .array (hbody nil_gap)
  | .object hkind hmembers, depth, hfits => by
      rw [SizesFit, NodeSizeFits, hkind, ObjectSizeFits] at hfits
      rw [valueText, nodeText, hkind]
      rcases hmembers.nil_or with ⟨rfl, rfl⟩ | ⟨hne, hentries⟩
      · have hrenders : Renders printed (.object []) _ :=
          .emptyObject (append_gap (lineBreak_gap fmt) (indent_gap fmt (depth - 1)))
        rwa [List.append_assoc] at hrenders
      · have hnonempty : ¬(chainEntries fmt (depth + 1) child).isEmpty = true := by
          simpa using hentries fmt (depth + 1)
        rw [if_neg hnonempty] at hfits
        obtain ⟨body, htext, hbody⟩ := renders_composeObject fmt hmembers hne hfits.1 hfits.2.1
        rw [objectText, if_neg hnonempty, htext, ← List.append_assoc]
        exact .object (hbody (lineBreak_gap fmt))

theorem renders_composeArray (fmt : Bool) :
    RepresentsElements item elements → elements ≠ [] → ∀ {depth : Nat},
      ChainSizesFit fmt depth item →
      ∃ body, composeArray fmt ((chainEntries fmt depth item).map Prod.snd) = body ++ [rbracket] ∧
        ∀ {lead : Bytes}, (∀ b ∈ lead, b ≤ 32) → RendersElements printed elements (lead ++ body)
  | .nil, hne, _, _ => absurd rfl hne
  | .cons hvalue hnext, _, depth, hfits => by
      have hfirst := renders_valueText fmt hvalue hfits.1
      rcases hnext.nil_or with ⟨rfl, rfl⟩ | ⟨hne, hentries⟩
      · refine ⟨_, rfl, fun hlead => ?_⟩
        have hrenders : RendersElements printed [_] _ := .last hlead hfirst nil_gap
        rwa [List.append_nil] at hrenders
      · obtain ⟨body, htext, hbody⟩ := renders_composeArray fmt hnext hne hfits.2
        have hspace := hbody (optional_gap fmt (b := space) (by decide))
        refine ⟨_, ?_, fun hlead => .more hlead hfirst nil_gap hspace⟩
        rw [chainEntries, List.map_cons, composeArray_cons (by simpa using hentries fmt depth),
          htext]
        simp [valueText]

theorem renders_composeObject (fmt : Bool) :
    RepresentsMembers item members → members ≠ [] → ∀ {depth : Nat},
      ChainSizesFit fmt (depth + 1) item →
      (∀ entry ∈ chainEntries fmt (depth + 1) item, LiteralSizeFits entry.1) →
      ∃ body, composeObject fmt (depth + 1) ((chainEntries fmt (depth + 1) item).map memberText) =
          body ++ [rbrace] ∧
        ∀ {lead : Bytes}, (∀ b ∈ lead, b ≤ 32) → RendersMembers printed members (lead ++ body)
  | .nil, hne, _, _, _ => absurd rfl hne
  | @RepresentsMembers.cons key data child next v _ hkey hvalue hnext, _, depth, hfits,
      hnames => by
      obtain ⟨string, hs, hsize⟩ := hnames _ List.mem_cons_self
      obtain rfl := Option.some.inj (hkey.symm.trans hs)
      have hfirst := renders_valueText fmt hvalue hfits.1
      have htab := optional_gap fmt (b := tab) (by decide)
      rcases hnext.nil_or with ⟨rfl, rfl⟩ | ⟨hne, hentries⟩
      · refine ⟨indent fmt (depth + 1) ++ (literal key.1 ++ colon ::
          ((if fmt then [tab] else []) ++ (valueText fmt (depth + 1) (.node data child .null) ++
            (lineBreak fmt ++ indent fmt depth)))), ?_, ?_⟩
        · simp [chainEntries, composeObject, memberText, hkey, valueText]
        · intro lead hlead
          have hrenders : RendersMembers printed [(key, v)] _ :=
            .last (append_gap hlead (indent_gap fmt (depth + 1))) ⟨rfl, hsize⟩ nil_gap htab hfirst
              (append_gap (lineBreak_gap fmt) (indent_gap fmt depth))
          rwa [List.append_assoc] at hrenders
      · obtain ⟨body, htext, hbody⟩ := renders_composeObject fmt hnext hne hfits.2
          fun entry h => hnames entry (List.mem_cons_of_mem _ h)
        refine ⟨indent fmt (depth + 1) ++ (literal key.1 ++ colon ::
          ((if fmt then [tab] else []) ++ (valueText fmt (depth + 1) (.node data child next) ++
            comma :: (lineBreak fmt ++ body)))), ?_, ?_⟩
        · rw [chainEntries, List.map_cons, memberText, composeObject, htext]
          simp [hkey, valueText, hentries fmt (depth + 1)]
        · intro lead hlead
          have hrenders : RendersMembers printed ((key, v) :: _) _ :=
            .more (append_gap hlead (indent_gap fmt (depth + 1))) ⟨rfl, hsize⟩ nil_gap htab hfirst
              nil_gap (hbody (lineBreak_gap fmt))
          rwa [List.append_assoc] at hrenders

end

theorem parse_printValue (fmt : Bool) (t : Item) (v : Json Int32 CString) (h : Represents t v)
    (hfits : SizesFit fmt 0 t) :
    ∃ s t', printValue fmt 0 t = some s ∧ parseWithOpts s true = .ok (t', []) ∧
      Represents t' v := by
  cases t with
  | null => cases h
  | node data child next =>
      have hrenders := renders_valueText fmt h hfits
      have htext : RendersText printed v ([] ++ (valueText fmt 0 (.node data child next) ++ [])) :=
        .intro nil_gap hrenders nil_gap
      rw [List.nil_append, List.append_nil] at htext
      exact ⟨_, _, printValue_eq hfits, parseWithOpts_readable readable_printed htext,
        represents_treeOf v⟩

def sampleElements : List (Json Int32 CString) := [.true, .string ⟨[newline], by decide⟩]

/-- `{"k": [true, "\n"]}` -/
def sample : Json Int32 CString := .object [(⟨[107], by decide⟩, .array sampleElements)]

theorem parse_printValue_sample :
    ∃ s t', printValue true 0 (treeOf Subtype.val sample) = some s ∧
      parseWithOpts s true = .ok (t', []) ∧ Represents t' sample := by
  apply parse_printValue true _ _ (represents_treeOf sample)
  have hstring : LiteralSizeFits (some [newline]) := ⟨_, rfl, by decide⟩
  have harray : ChainSizesFit true 2 (elementsOf Subtype.val sampleElements) :=
    ⟨trivial, hstring, trivial⟩
  have hkey : LiteralSizeFits (some [107]) := ⟨_, rfl, by decide⟩
  refine ⟨⟨⟨harray, Or.inr (by decide)⟩, trivial⟩, ?_, by decide⟩
  intro entry hentry
  rw [List.mem_singleton.mp hentry]
  exact hkey

theorem allocate_printStringPtr_eq_none {str : Bytes} (hnul : 0 ∉ str)
    (hplain : str.any needsEscape = false) (hlong : intMax < str.length + 3) :
    allocate (printStringPtr str) = none := by
  simp only [printStringPtr, cstr_eq hnul, hplain]
  exact if_neg (by omega)

def repeatedByte (n : Nat) : CString :=
  ⟨List.replicate n 97, fun h => absurd (List.eq_of_mem_replicate h) (by decide)⟩

theorem printValue_repeatedByte (fmt : Bool) {n : Nat} (hn : intMax < n + 3) :
    printValue fmt 0 (treeOf Subtype.val (.string (repeatedByte n))) = none := by
  apply allocate_printStringPtr_eq_none (repeatedByte n).2
  · rw [List.any_eq_false]
    intro b hb
    obtain rfl := List.eq_of_mem_replicate hb
    decide
  · rwa [repeatedByte, List.length_replicate]

/-- A string of 2^31 - 3 bytes. -/
theorem printValue_long_string :
    Represents (treeOf Subtype.val (.string (repeatedByte (2 ^ 31 - 3))))
        (.string (repeatedByte (2 ^ 31 - 3))) ∧
      printValue false 0 (treeOf Subtype.val (.string (repeatedByte (2 ^ 31 - 3)))) = none :=
  ⟨represents_treeOf _, printValue_repeatedByte false (Nat.lt_succ_self _)⟩

end RebuildTheWheel.CJson
