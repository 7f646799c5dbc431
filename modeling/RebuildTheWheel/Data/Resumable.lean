import RebuildTheWheel.Data.Ascii

namespace RebuildTheWheel.Data

/-! Machines that read a buffer byte by byte and may be called again when the buffer has grown.
A call keeps some of its variables in locals, which are saved when it suspends. -/

namespace Resumable

/-- What a byte leads to. A call that stops saves what `saved` makes of the locals that it was
entered with, and moves the position of the buffer only if `advance` is set. -/
inductive Step (ε σ ρ : Type) where
  | next (locals : σ) (r : ρ)
  | stop (code : ε) (advance : Bool) (saved : σ → σ) (r : ρ)

/-- A step sees the bytes of the buffer before the one that it reads. -/
abbrev Machine (ε σ ρ : Type) := Bytes → UInt8 → σ → ρ → Step ε σ ρ

inductive Ended (ε σ ρ : Type) where
  | again (locals : σ) (r : ρ)
  | stopped (code : ε) (advance : Bool) (saved : σ → σ) (r : ρ) (p : Nat)

/-- What a call leaves behind; without a code it wants more bytes. -/
structure Reply (ε σ ρ : Type) where
  code : Option ε
  pos : Nat
  saved : σ
  r : ρ
  deriving DecidableEq

variable {ε σ ρ : Type} (machine : Machine ε σ ρ)

def loop : Bytes → Bytes → σ → ρ → Ended ε σ ρ
  | _, [], locals, r => .again locals r
  | before, ch :: rest, locals, r =>
      match machine before ch locals r with
      | .next locals r => loop (before ++ [ch]) rest locals r
      | .stop code advance saved r => .stopped code advance saved r before.length

/-- A call with the position of the buffer after `before` and its end after `rest`. -/
def call (before rest : Bytes) (saved : σ) (r : ρ) : Reply ε σ ρ :=
  match loop machine before rest saved r with
  | .again locals r => ⟨none, before.length + rest.length, locals, r⟩
  | .stopped code advance update r p =>
      ⟨some code, if advance then p + 1 else before.length, update saved, r⟩

/-- The bytes come in fragments, each with a call, as long as the calls want more. -/
def deliver : Bytes → Bytes → List Bytes → σ → ρ → Reply ε σ ρ
  | before, fragment, [], saved, r => call machine before fragment saved r
  | before, fragment, next :: fragments, saved, r =>
      let reply := call machine before fragment saved r
      match reply.code with
      | none => deliver (before ++ fragment) next fragments reply.saved reply.r
      | some _ => reply

variable {machine} {before xs ys : Bytes} {locals locals' : σ} {r r' : ρ}

theorem loop_append (h : loop machine before xs locals r = .again locals' r') :
    loop machine before (xs ++ ys) locals r = loop machine (before ++ xs) ys locals' r' := by
  induction xs generalizing before locals r with
  | nil =>
      obtain ⟨rfl, rfl⟩ := Ended.again.inj h
      rw [List.append_nil, List.nil_append]
  | cons ch xs ih =>
      rw [loop] at h
      rw [List.cons_append, loop]
      cases hstep : machine before ch locals r with
      | next locals₁ r₁ =>
          rw [hstep] at h
          simpa using ih h
      | stop => exact nomatch hstep ▸ h

theorem loop_append_of_stopped {code : ε} {advance : Bool} {saved : σ → σ} {p : Nat}
    (h : loop machine before xs locals r = .stopped code advance saved r' p) :
    loop machine before (xs ++ ys) locals r = .stopped code advance saved r' p := by
  induction xs generalizing before locals r with
  | nil => exact nomatch h
  | cons ch xs ih =>
      rw [loop] at h
      rw [List.cons_append, loop]
      cases hstep : machine before ch locals r with
      | next locals₁ r₁ =>
          rw [hstep] at h
          exact ih h
      | stop =>
          rw [hstep] at h
          exact h

/-- The last call of a delivery, which was entered after the bytes `xs`. -/
structure Last (machine : Machine ε σ ρ) (before bytes : Bytes) (saved : σ) (r : ρ)
    (reply : Reply ε σ ρ) (xs : Bytes) (entry : σ) (r' : ρ) : Prop where
  prefix_bytes : xs <+: bytes
  suspended : loop machine before xs saved r = .again entry r'
  reply_eq : reply = match loop machine before bytes saved r with
    | .again locals r => ⟨none, before.length + bytes.length, locals, r⟩
    | .stopped code advance update r p =>
        ⟨some code, if advance then p + 1 else before.length + xs.length, update entry, r⟩

/-- However the bytes are cut, the loop ends as it does on all of them; what depends on the cuts
is what the last call was entered with. -/
theorem exists_last (machine : Machine ε σ ρ) (before fragment : Bytes) (fragments : List Bytes)
    (saved : σ) (r : ρ) :
    ∃ xs entry r', Last machine before (fragment ++ fragments.flatten) saved r
      (deliver machine before fragment fragments saved r) xs entry r' := by
  induction fragments generalizing before fragment saved r with
  | nil =>
      refine ⟨[], saved, r, List.nil_prefix, rfl, ?_⟩
      rw [List.flatten_nil, List.append_nil]
      rfl
  | cons next fragments ih =>
      rw [List.flatten_cons]
      cases hloop : loop machine before fragment saved r with
      | again locals₁ r₁ =>
          obtain ⟨xs, entry, r', ⟨ys, hys⟩, hsuspended, hreply⟩ :=
            ih (before ++ fragment) next locals₁ r₁
          refine ⟨fragment ++ xs, entry, r', ⟨ys, by rw [List.append_assoc, hys]⟩, ?_, ?_⟩
          · rw [loop_append hloop, hsuspended]
          · have hdeliver : deliver machine before fragment (next :: fragments) saved r =
                deliver machine (before ++ fragment) next fragments locals₁ r₁ := by
              simp only [deliver, call, hloop]
            rw [hdeliver, hreply, loop_append hloop]
            simp only [List.length_append, Nat.add_assoc]
      | stopped code advance update r₁ p =>
          refine ⟨[], saved, r, List.nil_prefix, rfl, ?_⟩
          rw [loop_append_of_stopped hloop]
          simp only [deliver, call, hloop]
          rfl

/-! What a machine must see to for its calls to agree: which codes move the position, and which
leave nothing of the locals to the last call. -/

def Step.Moves (failed : ε → Prop) : Step ε σ ρ → Prop
  | .next _ _ => True
  | .stop code advance _ _ => ¬failed code → advance = true

def Step.Saves (failed : ε → Prop) (view : σ → τ) : Step ε σ ρ → Prop
  | .next _ _ => True
  | .stop code _ saved _ => ¬failed code → ∀ l l', view (saved l) = view (saved l')

/-- The code is not one of those that fail. -/
def Reply.Holds (failed : ε → Prop) (reply : Reply ε σ ρ) : Prop := ∀ code ∈ reply.code, ¬failed code

variable {code : ε} {advance : Bool} {update : σ → σ} {p : Nat} {failed : ε → Prop}
  {fragment : Bytes} {fragments : List Bytes} {saved : σ}

theorem exists_stop (h : loop machine before xs locals r = .stopped code advance update r' p) :
    ∃ before ch locals r, machine before ch locals r = .stop code advance update r' := by
  induction xs generalizing before locals r with
  | nil => exact nomatch h
  | cons ch xs ih =>
      rw [loop] at h
      cases hstep : machine before ch locals r with
      | next locals₁ r₁ =>
          rw [hstep] at h
          exact ih h
      | stop =>
          rw [hstep] at h
          obtain ⟨rfl, rfl, rfl, rfl, rfl⟩ := Ended.stopped.inj h
          exact ⟨before, ch, locals, r, hstep⟩

theorem deliver_code (machine : Machine ε σ ρ) (before fragment : Bytes) (fragments : List Bytes)
    (saved : σ) (r : ρ) :
    (deliver machine before fragment fragments saved r).code =
      (call machine before (fragment ++ fragments.flatten) saved r).code := by
  obtain ⟨xs, entry, r', -, -, hreply⟩ := exists_last machine before fragment fragments saved r
  rw [hreply, call]
  cases loop machine before (fragment ++ fragments.flatten) saved r <;> rfl

theorem deliver_r (machine : Machine ε σ ρ) (before fragment : Bytes) (fragments : List Bytes)
    (saved : σ) (r : ρ) :
    (deliver machine before fragment fragments saved r).r =
      (call machine before (fragment ++ fragments.flatten) saved r).r := by
  obtain ⟨xs, entry, r', -, -, hreply⟩ := exists_last machine before fragment fragments saved r
  rw [hreply, call]
  cases loop machine before (fragment ++ fragments.flatten) saved r <;> rfl

theorem deliver_pos (hmoves : ∀ before ch locals r, (machine before ch locals r).Moves failed)
    (h : (call machine before (fragment ++ fragments.flatten) saved r).Holds failed) :
    (deliver machine before fragment fragments saved r).pos =
      (call machine before (fragment ++ fragments.flatten) saved r).pos := by
  obtain ⟨xs, entry, r', -, -, hreply⟩ := exists_last machine before fragment fragments saved r
  rw [hreply]
  rw [call] at h ⊢
  cases hloop : loop machine before (fragment ++ fragments.flatten) saved r with
  | again => rfl
  | stopped code advance update r₁ p =>
      rw [hloop] at h
      obtain ⟨before₁, ch, locals, r₂, hstop⟩ := exists_stop hloop
      have hadvance : ¬failed code → advance = true := by
        have := hmoves before₁ ch locals r₂
        rwa [hstop] at this
      simp only [hadvance (h code rfl), if_true]

/-- Where the locals are saved whatever they were, they are the same. -/
theorem deliver_saved {view : σ → τ}
    (hsaves : ∀ before ch locals r, (machine before ch locals r).Saves failed view)
    (h : (call machine before (fragment ++ fragments.flatten) saved r).Holds failed) :
    view (deliver machine before fragment fragments saved r).saved =
      view (call machine before (fragment ++ fragments.flatten) saved r).saved := by
  obtain ⟨xs, entry, r', -, -, hreply⟩ := exists_last machine before fragment fragments saved r
  rw [hreply]
  rw [call] at h ⊢
  cases hloop : loop machine before (fragment ++ fragments.flatten) saved r with
  | again => rfl
  | stopped code advance update r₁ p =>
      rw [hloop] at h
      obtain ⟨before₁, ch, locals, r₂, hstop⟩ := exists_stop hloop
      have hview : ¬failed code → ∀ l l', view (update l) = view (update l') := by
        have := hsaves before₁ ch locals r₂
        rwa [hstop] at this
      exact hview (h code rfl) entry saved

/-- Where no suspension matters to what is saved at the end, it is the same. -/
theorem deliver_saved_of_kept
    (hloop : loop machine before (fragment ++ fragments.flatten) saved r =
      .stopped code advance update r₁ p)
    (hkept : ∀ xs entry r', xs <+: fragment ++ fragments.flatten →
      loop machine before xs saved r = .again entry r' → update entry = update saved) :
    (deliver machine before fragment fragments saved r).saved =
      (call machine before (fragment ++ fragments.flatten) saved r).saved := by
  obtain ⟨xs, entry, r', hxs, hsuspended, hreply⟩ :=
    exists_last machine before fragment fragments saved r
  rw [hreply, call, hloop]
  exact hkept xs entry r' hxs hsuspended

/-- The replies are the same, but for what a call that fails leaves behind. -/
structure Reply.Agrees (failed : ε → Prop) (reply reply' : Reply ε σ ρ) : Prop where
  code : reply.code = reply'.code
  r : reply.r = reply'.r
  pos : reply'.Holds failed → reply.pos = reply'.pos
  saved : reply'.Holds failed → reply.saved = reply'.saved

theorem deliver_agrees (hmoves : ∀ before ch locals r, (machine before ch locals r).Moves failed)
    (hsaves : ∀ before ch locals r, (machine before ch locals r).Saves failed id) :
    (deliver machine before fragment fragments saved r).Agrees failed
      (call machine before (fragment ++ fragments.flatten) saved r) where
  code := deliver_code machine before fragment fragments saved r
  r := deliver_r machine before fragment fragments saved r
  pos := deliver_pos hmoves
  saved := deliver_saved hsaves

end Resumable

end RebuildTheWheel.Data
