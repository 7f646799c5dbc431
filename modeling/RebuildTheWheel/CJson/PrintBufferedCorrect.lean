import RebuildTheWheel.CJson.PrintBufferedText

namespace RebuildTheWheel.CJson

open RebuildTheWheel.Data
open RebuildTheWheel.Data.Ascii

/-! Each step of the buffered printer writes its part of the text, wherever the
buffer has to grow. -/

/-- `full` and a NUL stand at the start of the block; `offset` may be anywhere
before the NUL. -/
inductive Printed (p : PrintBuffer) : Bytes → Prop where
  | intro : Pending p text out → 0 ∉ out → Printed p (text ++ out)

theorem Printed.update_eq {p : PrintBuffer} (h : Printed p full) (hlength : full.length ≤ intMax) :
    ∃ p', p.update = some p' ∧ Holds p' full := by
  cases h with
  | intro hpending hnul => exact hpending.update_eq hnul (by rwa [List.length_append] at hlength)

/-- The texts are bounded so that no request of `ensure` exceeds 2^30: the
largest one is 63 bytes longer than what it then writes. -/
def Room (text : Bytes) : Prop := text.length + 63 ≤ 2 ^ 30

theorem Room.left (h : Room (text ++ more)) : Room text := by
  rw [Room, List.length_append] at h
  rw [Room]
  omega

theorem emit_text {p : PrintBuffer} (h : Holds p text) {size : Nat} {bytes : Bytes}
    (hroom : Room (text ++ bytes)) (hnul : 0 ∉ bytes) (hsize : bytes.length < size)
    (hslack : size ≤ bytes.length + 63) :
    ∃ p', p.emit size (bytes ++ [0]) 0 = some p' ∧ Printed p' (text ++ bytes) := by
  rw [Room, List.length_append] at hroom
  obtain ⟨p', hemit, hpending⟩ := h.emit_pending (by omega) hsize
  exact ⟨p', hemit, .intro hpending hnul⟩

theorem putString_eq {p : PrintBuffer} (h : Holds p text) {str : Option Bytes} (hstr : str ≠ none)
    (hroom : Room (text ++ literal (str.getD []))) :
    ∃ p', p.putString str = some p' ∧ Printed p' (text ++ literal (str.getD [])) := by
  cases str with
  | none => exact absurd rfl hstr
  | some s =>
      simp only [PrintBuffer.putString, Option.bind_eq_bind, Option.bind_some, printStringPtr_eq]
      exact emit_text h hroom (nul_not_mem_literal s) (Nat.lt_succ_self _) (by simp)

theorem putIndent_eq {p : PrintBuffer} (h : Holds p text) {fmt : Bool} {depth : Nat}
    (hdepth : 0 < depth) (hroom : Room (text ++ indent fmt depth)) :
    ∃ p', p.putIndent fmt depth = some p' ∧ Holds p' (text ++ indent fmt depth) := by
  cases fmt with
  | false => exact ⟨p, rfl, by simpa [indent] using h⟩
  | true =>
      have hlength : (indent true depth).length = depth := by simp [indent]
      rw [Room, List.length_append] at hroom
      exact h.emit_raw hdepth (by omega) hlength.le hlength.symm

theorem putBefore_eq {p : PrintBuffer} (h : Holds p text) {fmt object : Bool} {depth : Nat}
    {child : ItemData} (hdepth : 0 < depth) (hkey : object = true → child.string ≠ none)
    (hroom : Room (text ++ beforeText fmt object depth child.string)) :
    ∃ p', p.putBefore fmt object depth child = some p' ∧
      Holds p' (text ++ beforeText fmt object depth child.string) := by
  cases object with
  | false => exact ⟨p, rfl, by simpa [beforeText] using h⟩
  | true =>
      simp only [beforeText, if_true, ← List.append_assoc] at hroom ⊢
      obtain ⟨p1, hput1, h1⟩ := putIndent_eq h hdepth hroom.left.left
      obtain ⟨p2, hput2, h2⟩ := putString_eq h1 (hkey rfl) hroom.left
      have hlength := hroom.left
      rw [Room] at hlength hroom
      obtain ⟨p3, hput3, h3⟩ := h2.update_eq (by rw [intMax]; omega)
      simp only [PrintBuffer.putBefore, if_true, hput1, Option.bind_eq_bind, Option.bind_some,
        hput2, hput3]
      rw [List.length_append] at hroom
      cases fmt with
      | false => exact h3.emit_raw (by decide) (by simp at hroom ⊢; omega) (by decide) rfl
      | true => exact h3.emit_raw (by decide) (by simp at hroom ⊢; omega) (by decide) rfl

theorem putAfter_eq {p : PrintBuffer} (h : Holds p text) {fmt object last : Bool}
    (hroom : Room (text ++ afterText fmt object last)) :
    ∃ p', p.putAfter fmt object last = some p' ∧
      Holds p' (text ++ afterText fmt object last) := by
  rw [Room, List.length_append] at hroom
  cases object with
  | true =>
      apply h.emit_terminated
      · cases fmt <;> cases last <;> simp [afterText, lineBreak] at hroom ⊢ <;> omega
      · cases fmt <;> cases last <;> decide
      · cases fmt <;> cases last <;> rfl
  | false =>
      cases last with
      | true => exact ⟨p, rfl, by simpa [afterText] using h⟩
      | false =>
          apply h.emit_terminated
          · cases fmt <;> simp [afterText] at hroom ⊢ <;> omega
          · cases fmt <;> decide
          · cases fmt <;> rfl

def KeysNonNull : Item → Prop
  | .null => True
  | .node data _ next => data.string ≠ none ∧ KeysNonNull next

structure NodeNonNull (item : ItemData) (child : Item) (children : Prop) : Prop where
  string : item.type.kind = .string → item.valuestring ≠ none
  keys : item.type.kind = .object → KeysNonNull child
  children : children

def ChainNonNull : Item → Prop
  | .null => True
  | .node data child next => NodeNonNull data child (ChainNonNull child) ∧ ChainNonNull next

/-- Every string has its `valuestring`, every member its `string`. -/
def NonNull : Item → Prop
  | .null => False
  | .node data child _ => NodeNonNull data child (ChainNonNull child)

/-- The children print as `loopText` says. -/
def PrintsLoop (fmt : Bool) (depth : Nat) (item : Item)
    (children : Bool → PrintBuffer → Option PrintBuffer) : Prop :=
  ∀ {object : Bool} {p : PrintBuffer} {text : Bytes}, Holds p text →
    (object = true → KeysNonNull item) →
    Room (text ++ loopText fmt object depth (chainEntries fmt depth item)) →
    ∃ p', children object p = some p' ∧
      Holds p' (text ++ loopText fmt object depth (chainEntries fmt depth item))

theorem isEmpty_chainEntries (fmt : Bool) (depth : Nat) (item : Item) :
    (chainEntries fmt depth item).isEmpty = item.isNull := by
  cases item <;> rfl

theorem putArray_eq {p : PrintBuffer} (h : Holds p text) {fmt : Bool} {depth : Nat}
    {item : ItemData} {child : Item} {children : Bool → PrintBuffer → Option PrintBuffer}
    (hkind : item.type.kind = .array) (hchildren : PrintsLoop fmt (depth + 1) child children)
    (hroom : Room (text ++ nodeText fmt depth item (chainEntries fmt (depth + 1) child))) :
    ∃ p', p.putNode fmt depth item child.isNull children = some p' ∧
      Printed p' (text ++ nodeText fmt depth item (chainEntries fmt (depth + 1) child)) := by
  rw [PrintBuffer.putNode]
  rw [nodeText] at hroom ⊢
  simp only [hkind, arrayText, isEmpty_chainEntries] at hroom ⊢
  cases hempty : child.isNull with
  | true =>
      simp only [hempty, if_true] at hroom ⊢
      exact emit_text h hroom (by decide) (by decide) (by decide)
  | false =>
      simp only [hempty, Bool.false_eq_true, if_false] at hroom ⊢
      have htext : text ++ lbracket ::
          composeArray fmt ((chainEntries fmt (depth + 1) child).map Prod.snd) =
            text ++ [lbracket] ++
              loopText fmt false (depth + 1) (chainEntries fmt (depth + 1) child) ++
              [rbracket] := by
        rw [composeArray_eq_loopText fmt (depth + 1)]
        simp
      rw [htext] at hroom ⊢
      have hlength := hroom.left.left
      rw [Room, List.length_append, List.length_singleton] at hlength
      obtain ⟨p1, hput1, h1⟩ : ∃ p', p.emit 1 [lbracket] 1 = some p' ∧ Holds p' (text ++ [lbracket]) :=
        h.emit_raw (by decide) (by omega) (by decide) rfl
      obtain ⟨p2, hput2, h2⟩ := hchildren h1 (fun hfalse => by cases hfalse) hroom.left
      obtain ⟨p3, hput3, h3⟩ : ∃ p', p2.emit 2 ([rbracket] ++ [0]) 0 = some p' ∧ Printed p' _ :=
        emit_text h2 hroom (by decide) (by decide) (by decide)
      exact ⟨p3, by simp only [hput1, Option.bind_eq_bind, Option.bind_some, hput2, hput3], h3⟩

theorem putObject_eq {p : PrintBuffer} (h : Holds p text) {fmt : Bool} {depth : Nat}
    {item : ItemData} {child : Item} {children : Bool → PrintBuffer → Option PrintBuffer}
    (hkind : item.type.kind = .object) (hkeys : KeysNonNull child)
    (hchildren : PrintsLoop fmt (depth + 1) child children)
    (hroom : Room (text ++ nodeText fmt depth item (chainEntries fmt (depth + 1) child))) :
    ∃ p', p.putNode fmt depth item child.isNull children = some p' ∧
      Printed p' (text ++ nodeText fmt depth item (chainEntries fmt (depth + 1) child)) := by
  have hclose : ∀ depth, 0 ∉ indent fmt depth ++ [rbrace] := by
    intro depth
    simp only [List.mem_append, not_or]
    exact ⟨nul_not_mem_indent fmt depth, by decide⟩
  rw [PrintBuffer.putNode]
  rw [nodeText] at hroom ⊢
  simp only [hkind, objectText, isEmpty_chainEntries] at hroom ⊢
  cases hempty : child.isNull with
  | true =>
      simp only [hempty, if_true] at hroom ⊢
      apply emit_text h hroom
      · simp only [List.mem_cons, List.mem_append (s := lineBreak fmt), not_or]
        exact ⟨by decide, nul_not_mem_lineBreak fmt, hclose _⟩
      · cases fmt <;> simp [lineBreak, indent]
      · cases fmt with
        | false => simp
        | true =>
            simp [lineBreak, indent]
            omega
  | false =>
      simp only [hempty, Bool.false_eq_true, if_false] at hroom ⊢
      have htext : text ++ lbrace :: (lineBreak fmt ++
          composeObject fmt (depth + 1) ((chainEntries fmt (depth + 1) child).map memberText)) =
            text ++ (lbrace :: lineBreak fmt) ++
              loopText fmt true (depth + 1) (chainEntries fmt (depth + 1) child) ++
              (indent fmt depth ++ [rbrace]) := by
        rw [composeObject_eq_loopText]
        simp
      rw [htext] at hroom ⊢
      have hlength := hroom.left.left
      rw [Room, List.length_append] at hlength
      obtain ⟨p1, hput1, h1⟩ : ∃ p', p.emit ((if fmt then 2 else 1) + 1)
          (lbrace :: lineBreak fmt ++ [0]) (if fmt then 2 else 1) = some p' ∧
            Holds p' (text ++ (lbrace :: lineBreak fmt)) := by
        apply h.emit_terminated
        · cases fmt <;> simp [lineBreak] at hlength ⊢ <;> omega
        · cases fmt <;> decide
        · cases fmt <;> rfl
      obtain ⟨p2, hput2, h2⟩ := hchildren h1 (fun _ => hkeys) hroom.left
      obtain ⟨p3, hput3, h3⟩ : ∃ p', p2.emit (if fmt then depth + 2 else 2)
          (indent fmt depth ++ [rbrace] ++ [0]) 0 = some p' ∧ Printed p' _ := by
        apply emit_text h2 hroom (hclose depth)
        · cases fmt <;> simp [indent]
        · cases fmt <;> simp [indent]
      exact ⟨p3, by simp only [hput1, Option.bind_eq_bind, Option.bind_some, hput2, hput3], h3⟩

theorem putNode_eq {p : PrintBuffer} (h : Holds p text) {fmt : Bool} {depth : Nat}
    {item : ItemData} {child : Item} {children : Bool → PrintBuffer → Option PrintBuffer}
    {childrenNonNull : Prop} (hitem : NodeNonNull item child childrenNonNull)
    (hchildren : PrintsLoop fmt (depth + 1) child children)
    (hroom : Room (text ++ nodeText fmt depth item (chainEntries fmt (depth + 1) child))) :
    ∃ p', p.putNode fmt depth item child.isNull children = some p' ∧
      Printed p' (text ++ nodeText fmt depth item (chainEntries fmt (depth + 1) child)) := by
  cases hkind : item.type.kind with
  | array => exact putArray_eq h hkind hchildren hroom
  | object => exact putObject_eq h hkind (hitem.keys hkind) hchildren hroom
  | string =>
      rw [nodeText, hkind] at hroom ⊢
      rw [PrintBuffer.putNode, hkind]
      exact putString_eq h (hitem.string hkind) hroom
  | number =>
      rw [nodeText, hkind] at hroom ⊢
      rw [PrintBuffer.putNode, hkind]
      exact emit_text h hroom (nul_not_mem_printNumber item) (printNumber_length item)
        (printNumber_slack item)
  | null =>
      rw [nodeText, hkind] at hroom ⊢
      rw [PrintBuffer.putNode, hkind]
      exact emit_text h hroom (by decide) (by decide) (by decide)
  | false =>
      rw [nodeText, hkind] at hroom ⊢
      rw [PrintBuffer.putNode, hkind]
      exact emit_text h hroom (by decide) (by decide) (by decide)
  | true =>
      rw [nodeText, hkind] at hroom ⊢
      rw [PrintBuffer.putNode, hkind]
      exact emit_text h hroom (by decide) (by decide) (by decide)

theorem putChain_eq (fmt : Bool) (item : Item) :
    ∀ {depth : Nat}, 0 < depth → ChainNonNull item →
      PrintsLoop fmt depth item (putChain fmt depth item) := by
  induction item with
  | null =>
      intro depth _ _ object p text h _ _
      exact ⟨p, rfl, by simpa [chainEntries, loopText] using h⟩
  | node data child next ihchild ihnext =>
      intro depth hdepth hnonnull object p text h hkeys hroom
      simp only [chainEntries, loopText, isEmpty_chainEntries, ← List.append_assoc] at hroom ⊢
      obtain ⟨p1, hput1, h1⟩ := putBefore_eq h hdepth (fun ho => (hkeys ho).1)
        hroom.left.left.left
      obtain ⟨p2, hput2, h2⟩ := putNode_eq h1 hnonnull.1
        (ihchild (Nat.succ_pos depth) hnonnull.1.children) hroom.left.left
      have hlength := hroom.left.left
      rw [Room] at hlength
      obtain ⟨p3, hput3, h3⟩ := h2.update_eq (by rw [intMax]; omega)
      obtain ⟨p4, hput4, h4⟩ := putAfter_eq h3 hroom.left
      obtain ⟨p5, hput5, h5⟩ := ihnext hdepth hnonnull.2 h4 (fun ho => (hkeys ho).2) hroom
      refine ⟨p5, ?_, h5⟩
      simp only [putChain, hput1, hput2, hput3, hput4, hput5, Option.bind_eq_bind,
        Option.bind_some]

/-! A text that leaves room in the buffer is short enough for the other printer. -/

theorem length_entry_le (fmt object : Bool) (depth : Nat) {entries : List Entry} {entry : Entry}
    (h : entry ∈ entries) : entry.2.length ≤ (loopText fmt object depth entries).length := by
  induction entries with
  | nil => cases h
  | cons entry' entries ih =>
      simp only [loopText, List.length_append]
      rcases List.mem_cons.mp h with rfl | h
      · omega
      · have := ih h
        omega

theorem length_name_le (fmt : Bool) (depth : Nat) {entries : List Entry} {entry : Entry}
    (h : entry ∈ entries) :
    (literal (entry.1.getD [])).length ≤ (loopText fmt true depth entries).length := by
  induction entries with
  | nil => cases h
  | cons entry' entries ih =>
      simp only [loopText, List.length_append]
      rcases List.mem_cons.mp h with rfl | h
      · simp only [beforeText, if_true, List.length_append]
        omega
      · have := ih h
        omega

theorem sum_elements_le (fmt : Bool) (depth : Nat) (entries : List Entry) :
    ((entries.map Prod.snd).map fun entry => entry.length + 2 + if fmt then 1 else 0).sum ≤
      2 * (loopText fmt false depth entries).length + 3 := by
  induction entries with
  | nil => simp
  | cons entry entries ih =>
      cases entries with
      | nil => cases fmt <;> simp [loopText, beforeText, afterText] <;> omega
      | cons entry' entries =>
          rw [List.map_cons, List.map_cons, List.sum_cons]
          rw [loopText, List.length_append, List.length_append, List.length_append]
          cases fmt <;> simp [afterText] at ih ⊢ <;> omega

theorem sum_members_le (fmt : Bool) (depth : Nat) (entries : List Entry) :
    ((entries.map memberText).map fun (name, entry) =>
        entry.length + name.length + 2 + if fmt then 2 + depth else 0).sum ≤
      (loopText fmt true depth entries).length + 1 := by
  induction entries with
  | nil => simp
  | cons entry entries ih =>
      rw [List.map_cons, List.map_cons, List.sum_cons]
      rw [loopText, List.length_append, List.length_append, List.length_append]
      cases entries with
      | nil =>
          cases fmt <;>
            simp [memberText, beforeText, afterText, lineBreak, indent, loopText] <;> omega
      | cons entry' entries =>
          cases fmt <;> simp [memberText, beforeText, afterText, lineBreak, indent] at ih ⊢ <;> omega

theorem literalSizeFits {str : Option Bytes} (hstr : str ≠ none)
    (h : (literal (str.getD [])).length < intMax) : LiteralSizeFits str := by
  cases str with
  | none => exact absurd rfl hstr
  | some s => exact ⟨s, rfl, h⟩

theorem keys_of_mem (fmt : Bool) (item : Item) :
    ∀ {depth : Nat}, KeysNonNull item → ∀ entry ∈ chainEntries fmt depth item, entry.1 ≠ none := by
  induction item with
  | null =>
      intro depth _ entry h
      cases h
  | node data child next _ ihnext =>
      intro depth hkeys entry h
      rcases List.mem_cons.mp h with rfl | h
      · exact hkeys.1
      · exact ihnext hkeys.2 entry h

theorem arraySize_le {fmt : Bool} (depth : Nat) {entries : List Entry}
    (hroom : Room (arrayText fmt entries)) (hne : entries ≠ []) :
    arraySize fmt (entries.map Prod.snd) ≤ intMax ∧
      (loopText fmt false depth entries).length ≤ (arrayText fmt entries).length := by
  have hsum := sum_elements_le fmt depth entries
  rw [Room] at hroom
  rw [arrayText, if_neg (by simpa using hne), composeArray_eq_loopText fmt depth] at hroom ⊢
  rw [List.length_cons, List.length_append] at hroom ⊢
  rw [arraySize, intMax]
  omega

theorem objectSize_le {fmt : Bool} {depth : Nat} {entries : List Entry}
    (hroom : Room (objectText fmt depth entries)) (hne : entries ≠ []) :
    objectSize fmt (depth + 1) (entries.map memberText) ≤ intMax ∧
      (loopText fmt true (depth + 1) entries).length ≤ (objectText fmt depth entries).length := by
  have hsum := sum_members_le fmt (depth + 1) entries
  rw [Room] at hroom
  rw [objectText, if_neg (by simpa using hne), composeObject_eq_loopText] at hroom ⊢
  simp only [List.length_cons, List.length_append] at hroom ⊢
  rw [objectSize, intMax]
  cases fmt <;> simp [indent] at hroom hsum ⊢ <;> omega

theorem nodeSizeFits {fmt : Bool} {depth : Nat} {item : ItemData} {child : Item}
    {childrenNonNull childrenFit : Prop} (hitem : NodeNonNull item child childrenNonNull)
    (hchildren : (∀ entry ∈ chainEntries fmt (depth + 1) child, Room entry.2) → childrenFit)
    (hroom : Room (nodeText fmt depth item (chainEntries fmt (depth + 1) child))) :
    NodeSizeFits fmt depth item (chainEntries fmt (depth + 1) child) childrenFit := by
  unfold NodeSizeFits
  rw [nodeText] at hroom
  cases hkind : item.type.kind with
  | string =>
      simp only [hkind, Room] at hroom
      exact literalSizeFits (hitem.string hkind) (by rw [intMax]; omega)
  | array =>
      simp only [hkind] at hroom
      by_cases hne : chainEntries fmt (depth + 1) child = []
      · exact ⟨hchildren (by simp [hne]), Or.inl hne⟩
      · obtain ⟨hsize, hlength⟩ := arraySize_le (depth + 1) hroom hne
        refine ⟨hchildren ?_, Or.inr hsize⟩
        intro entry hentry
        have := length_entry_le fmt false (depth + 1) hentry
        rw [Room] at hroom ⊢
        omega
  | object =>
      simp only [hkind] at hroom
      by_cases hne : chainEntries fmt (depth + 1) child = []
      · refine ⟨hchildren (by simp [hne]), ?_⟩
        rw [ObjectSizeFits, hne, List.isEmpty_nil, if_pos rfl]
        rw [objectText, hne, List.isEmpty_nil, if_pos rfl, Room] at hroom
        rw [intMax]
        cases fmt <;> simp [lineBreak, indent] at hroom ⊢
        omega
      · obtain ⟨hsize, hlength⟩ := objectSize_le hroom hne
        rw [Room] at hroom
        refine ⟨hchildren ?_, ?_⟩
        · intro entry hentry
          have := length_entry_le fmt true (depth + 1) hentry
          rw [Room]
          omega
        · rw [ObjectSizeFits, if_neg (by simpa using hne)]
          refine ⟨?_, hsize⟩
          intro entry hentry
          have := length_name_le fmt (depth + 1) hentry
          exact literalSizeFits (keys_of_mem fmt child (hitem.keys hkind) entry hentry)
            (by rw [intMax]; omega)
  | _ => trivial

theorem chainSizesFit (fmt : Bool) (item : Item) :
    ∀ {depth : Nat}, ChainNonNull item →
      (∀ entry ∈ chainEntries fmt depth item, Room entry.2) → ChainSizesFit fmt depth item := by
  induction item with
  | null =>
      intro depth _ _
      trivial
  | node data child next ihchild ihnext =>
      intro depth hnonnull hroom
      refine ⟨nodeSizeFits hnonnull.1 (ihchild hnonnull.1.children)
        (hroom _ List.mem_cons_self), ihnext hnonnull.2 ?_⟩
      intro entry hentry
      exact hroom entry (List.mem_cons_of_mem _ hentry)

theorem sizesFit_of_room {fmt : Bool} {depth : Nat} {item : Item} (hitem : NonNull item)
    (hroom : Room (valueText fmt depth item)) : SizesFit fmt depth item := by
  cases item with
  | null => exact hitem
  | node data child next => exact nodeSizeFits hitem (chainSizesFit fmt child hitem.children) hroom

theorem Printed.readString_eq {p : PrintBuffer} (h : Printed p full) (hnul : 0 ∉ full) :
    readString p.buffer = some full := by
  cases h with
  | intro hpending _ =>
      obtain ⟨rest, hbuffer⟩ := hpending.buffer_eq
      rw [hbuffer, readString_append hnul]

theorem printBuffered_eq_printValue (t : Item) (ht : NonNull t) (prebuffer : Nat) (fmt : Bool)
    (hlength : (valueText fmt 0 t).length ≤ 2 ^ 30 - 63) :
    ∃ s, printValue fmt 0 t = some s ∧ printBuffered t prebuffer fmt = some s := by
  have hroom : Room (valueText fmt 0 t) := by
    rw [Room]
    omega
  refine ⟨_, printValue_eq (sizesFit_of_room ht hroom), ?_⟩
  cases t with
  | null => exact ht.elim
  | node data child next =>
      have hempty : Holds { buffer := List.replicate prebuffer none, offset := 0 } [] :=
        ⟨rfl, _, rfl⟩
      obtain ⟨p, hput, hprinted⟩ := putNode_eq hempty ht
        (putChain_eq fmt child (Nat.succ_pos 0) ht.children) hroom
      have hnul : 0 ∉ valueText fmt 0 (.node data child next) :=
        nul_not_mem_nodeText (nul_not_mem_chainEntries fmt child 1)
      rw [printBuffered]
      rw [hput, Option.bind_eq_bind, Option.bind_some]
      exact hprinted.readString_eq hnul

/-- `["a"]` -/
def smallArray : Item :=
  .node { type := ⟨.array, false, false⟩ }
    (.node { type := ⟨.string, false, false⟩, valuestring := some [97] } .null .null) .null

theorem printBuffered_smallArray :
    ∃ s, printValue true 0 smallArray = some s ∧ printBuffered smallArray 1 true = some s := by
  have hstring : ChainNonNull (.node
      { type := ⟨.string, false, false⟩, valuestring := some [97] } .null .null) :=
    ⟨⟨fun _ => by simp, nofun, trivial⟩, trivial⟩
  have harray : NonNull smallArray := ⟨nofun, nofun, hstring⟩
  exact printBuffered_eq_printValue smallArray harray 1 true (by decide)

/-! The request of 21 bytes for an `int` behind a text of nearly 2^30 bytes. -/

theorem pow2gt_length {x m : Nat} (hx : 0 < x ∧ x ≤ 2 ^ 30) (h : pow2gt x = some m) :
    m ≤ 2 ^ 30 := by
  have hgrow : ∀ {y : Nat} (k : Nat), y < 2 ^ 30 → y ||| y >>> k < 2 ^ 30 := by
    intro y k hy
    exact Nat.or_lt_two_pow hy ((Nat.shiftRight_le y k).trans_lt hy)
  obtain ⟨_, rfl⟩ := int?_eq_some.mp h
  exact Nat.succ_le_of_lt (hgrow 16 (hgrow 8 (hgrow 4 (hgrow 2 (hgrow 1 (by omega))))))

theorem length_store {p p' : PrintBuffer} (h : p.store bytes = some p') : p'.length = p.length := by
  rw [PrintBuffer.store] at h
  split at h
  · next hle =>
      obtain rfl := Option.some.inj h
      simp only [PrintBuffer.length, List.length_append, List.length_take, List.length_map,
        List.length_drop] at hle ⊢
      omega
  · cases h

theorem length_emit {p p' : PrintBuffer} (h : p.emit needed bytes step = some p')
    (hneeded : 0 < needed + p.offset ∧ needed + p.offset ≤ 2 ^ 30) (hp : p.length ≤ 2 ^ 30) :
    p'.length ≤ 2 ^ 30 := by
  obtain ⟨p1, hensure, h⟩ := Option.bind_eq_some_iff.mp h
  obtain ⟨p2, hstore, h⟩ := Option.bind_eq_some_iff.mp h
  obtain rfl := Option.some.inj h
  change p2.length ≤ 2 ^ 30
  rw [length_store hstore]
  simp only [PrintBuffer.ensure] at hensure
  split at hensure
  · obtain rfl := Option.some.inj hensure
    exact hp
  · obtain ⟨m, hm, hgrown⟩ := Option.bind_eq_some_iff.mp hensure
    obtain rfl := Option.some.inj hgrown
    have hle := pow2gt_length hneeded hm
    simp only [PrintBuffer.length, List.length_append, List.length_replicate] at hp ⊢
    omega

theorem length_update {p p' : PrintBuffer} (h : p.update = some p') : p'.length = p.length := by
  obtain ⟨str, _, h⟩ := Option.bind_eq_some_iff.mp h
  obtain ⟨offset, _, h⟩ := Option.bind_eq_some_iff.mp h
  obtain rfl := Option.some.inj h
  rfl

theorem emit_eq_none {p : PrintBuffer} (hlength : p.length < needed + p.offset)
    (hpow : pow2gt (needed + p.offset) = none) : p.emit needed bytes step = none := by
  rw [PrintBuffer.emit, PrintBuffer.ensure, if_neg (by omega), hpow]
  rfl

/-- `["a...a", 1]` -/
def longArray (k : Nat) : Item :=
  .node { type := ⟨.array, false, false⟩ }
    (.node { type := ⟨.string, false, false⟩, valuestring := some (List.replicate k 97) } .null
      (.node { type := ⟨.number, false, false⟩, valueint := 1, valuedouble := Binary64.ofInt 1 }
        .null .null))
    .null

theorem nonNull_longArray (k : Nat) : NonNull (longArray k) :=
  ⟨nofun, nofun, ⟨fun _ => by simp, nofun, trivial⟩, ⟨nofun, nofun, trivial⟩, trivial⟩

theorem literal_replicate (k : Nat) :
    literal (List.replicate k 97) = quote :: (List.replicate k 97 ++ [quote]) := by
  have hcstr : cstr (List.replicate k 97) = List.replicate k 97 := by
    simp [cstr]
  have hescape : escape 97 = [97] := by decide
  rw [literal, hcstr]
  simp [List.flatMap_replicate, hescape]

theorem printNumber_one :
    printNumber { type := ⟨.number, false, false⟩, valueint := 1, valuedouble := Binary64.ofInt 1 }
      = (21, [49]) := by
  have hone : Int32.toInt 1 = 1 := by decide
  rw [printNumber_int rfl (by rw [hone]), hone, if_neg (by decide)]
  simp [Decimal.signed, Decimal.decimal, Decimal.digitByte]

theorem valueText_longArray (k : Nat) :
    (valueText false 0 (longArray k)).length = k + 6 := by
  simp [valueText, longArray, nodeText, chainEntries, arrayText, composeArray, literal_replicate,
    printNumber_one]

theorem printBuffered_longArray {k : Nat} (hhigh : k + 6 < 2 ^ 30) (hlow : 2 ^ 30 < k + 25)
    (hpow : pow2gt (21 + (k + 4)) = none) : printBuffered (longArray k) 1 false = none := by
  have hempty : Holds { buffer := List.replicate 1 none, offset := 0 } [] := ⟨rfl, _, rfl⟩
  obtain ⟨p1, hput1, h1⟩ : ∃ p', PrintBuffer.emit _ 1 [lbracket] 1 = some p' ∧ Holds p' _ :=
    hempty.emit_raw (by decide) (by decide) (by decide) rfl
  have hlength1 := length_emit hput1 (by simp) (by simp [PrintBuffer.length])
  have hquoted : (literal (List.replicate k 97)).length = k + 2 := by
    simp [literal_replicate]
  obtain ⟨p2, hput2, h2⟩ : ∃ p', p1.putString (some (List.replicate k 97)) = some p' ∧
      Pending p' _ (literal (List.replicate k 97)) ∧ p'.length ≤ 2 ^ 30 := by
    obtain ⟨p2, hput2, h2⟩ : ∃ p', p1.emit ((literal (List.replicate k 97)).length + 1)
        (literal (List.replicate k 97) ++ [0]) 0 = some p' ∧
          Pending p' _ (literal (List.replicate k 97)) :=
      h1.emit_pending (by rw [hquoted]; simp; omega) (Nat.lt_succ_self _)
    refine ⟨p2, ?_, h2, length_emit hput2 ?_ hlength1⟩
    · simp only [PrintBuffer.putString, Option.bind_eq_bind, Option.bind_some, printStringPtr_eq,
        hput2]
    · rw [h1.offset_eq, hquoted]
      simp
      omega
  obtain ⟨p3, hput3, h3⟩ := h2.1.update_eq (nul_not_mem_literal _) (by
    rw [hquoted, intMax]
    simp
    omega)
  have hlength3 : p3.length ≤ 2 ^ 30 := (length_update hput3).trans_le h2.2
  obtain ⟨p4, hput4, h4⟩ : ∃ p', p3.emit 2 ([comma] ++ [0]) 1 = some p' ∧ Holds p' _ :=
    h3.emit_terminated (by simp [hquoted]; omega) (by decide) rfl
  have hoffset4 : p4.offset = k + 4 := by
    rw [h4.offset_eq]
    simp [hquoted]
  have hlength4 := length_emit hput4 (by rw [h3.offset_eq]; simp [hquoted]; omega) hlength3
  have hnumber : p4.emit 21 ([49] ++ [0]) 0 = none :=
    emit_eq_none (by omega) (by rw [hoffset4, hpow])
  simp only [printBuffered, longArray, PrintBuffer.putNode, Item.isNull, putChain,
    PrintBuffer.putBefore, PrintBuffer.putAfter, Bool.false_eq_true, if_false, hput1, hput2, hput3,
    hput4, printNumber_one, hnumber, Option.bind_eq_bind, Option.bind_some, Option.bind_none]

theorem sizesFit_longArray {k : Nat} (hk : k < 2 ^ 30) : SizesFit false 0 (longArray k) := by
  have hstring : LiteralSizeFits (some (List.replicate k 97)) := by
    refine ⟨_, rfl, ?_⟩
    rw [intMax, literal_replicate]
    simp
    omega
  refine ⟨⟨hstring, trivial, trivial⟩, Or.inr ?_⟩
  rw [intMax]
  simp [chainEntries, nodeText, literal_replicate, printNumber_one, arraySize]
  omega

theorem pow2gt_above : pow2gt (21 + (2 ^ 30 - 7 + 4)) = none := by decide

/-- A text of 2^30 - 1 bytes. -/
theorem printBuffered_long_text :
    NonNull (longArray (2 ^ 30 - 7)) ∧
      (valueText false 0 (longArray (2 ^ 30 - 7))).length < 2 ^ 30 ∧
      printValue false 0 (longArray (2 ^ 30 - 7)) =
        some (valueText false 0 (longArray (2 ^ 30 - 7))) ∧
      printBuffered (longArray (2 ^ 30 - 7)) 1 false = none := by
  refine ⟨nonNull_longArray _, ?_, printValue_eq (sizesFit_longArray (by norm_num)), ?_⟩
  · rw [valueText_longArray]
    norm_num
  · exact printBuffered_longArray (by norm_num) (by norm_num) pow2gt_above

end RebuildTheWheel.CJson
