import Mathlib.Data.List.Nodup
import RebuildTheWheel.Data.Memory

namespace RebuildTheWheel.Nginx

open Data

/-! `ngx_chain_update_sent` and `ngx_chain_update_chains`. -/

/-- `ngx_buf_t` -/
structure NgxBuf where
  pos : Nat
  last : Nat
  filePos : Int
  fileLast : Int
  start : Nat
  tag : Nat
  file : Nat
  temporary : Bool
  memory : Bool
  mmap : Bool
  inFile : Bool
  flush : Bool
  sync : Bool
  lastBuf : Bool
  deriving DecidableEq

namespace NgxBuf

/-- `ngx_buf_in_memory` -/
def inMemory (b : NgxBuf) : Bool := b.temporary || b.memory || b.mmap

/-- `ngx_buf_special` -/
def special (b : NgxBuf) : Bool :=
  (b.flush || b.lastBuf || b.sync) && !b.inMemory && !b.inFile

/-- `ngx_buf_size` -/
def size (b : NgxBuf) : Int := if b.inMemory then b.last - b.pos else b.fileLast - b.filePos

/-- All of the buffer has been sent. -/
def sendAll (b : NgxBuf) : NgxBuf :=
  { b with
    pos := if b.inMemory then b.last else b.pos
    filePos := if b.inFile then b.fileLast else b.filePos }

def send (b : NgxBuf) (sent : Int) : NgxBuf :=
  { b with
    pos := if b.inMemory then b.pos + sent.toNat else b.pos
    filePos := if b.inFile then b.filePos + sent else b.filePos }

def reset (b : NgxBuf) : NgxBuf := { b with pos := b.start, last := b.start }

end NgxBuf

/-- The links and the buffers by their addresses, 0 being `NULL` -/
structure ChainMemory where
  buf : Nat → Nat
  next : Nat → Nat
  bufs : Nat → NgxBuf

namespace ChainMemory

def setNext (m : ChainMemory) (cl next : Nat) : ChainMemory :=
  { m with next := fun x => if x = cl then next else m.next x }

def setBuf (m : ChainMemory) (cl : Nat) (b : NgxBuf) : ChainMemory :=
  { m with bufs := fun a => if a = m.buf cl then b else m.bufs a }

/-- `*cl->buf` -/
def bufOf (m : ChainMemory) (cl : Nat) : NgxBuf := m.bufs (m.buf cl)

end ChainMemory

/-- `ngx_chain_update_sent`, at most `n` links -/
def chainUpdateSent : Nat → ChainMemory → Nat → Int → Option (Nat × ChainMemory)
  | 0, _, _, _ => none
  | n + 1, m, cl, sent =>
      if cl = 0 then some (cl, m)
      else if (m.bufOf cl).special then chainUpdateSent n m (m.next cl) sent
      else if sent = 0 then some (cl, m)
      else if sent ≥ (m.bufOf cl).size then
        chainUpdateSent n (m.setBuf cl (m.bufOf cl).sendAll) (m.next cl)
          (sent - (m.bufOf cl).size)
      else some (cl, m.setBuf cl ((m.bufOf cl).send sent))

/-- What `ngx_chain_update_chains` changes; `poolChain` is `p->chain`. -/
structure Chains where
  memory : ChainMemory
  free : Nat
  busy : Nat
  out : Nat
  poolChain : Nat

namespace Chains

/-- `for (cl = *busy; cl->next; cl = cl->next)`, at most `n` links -/
def lastLink : Nat → ChainMemory → Nat → Option Nat
  | 0, _, _ => none
  | n + 1, m, cl => if m.next cl = 0 then some cl else lastLink n m (m.next cl)

def moveOut (n : Nat) (c : Chains) : Option Chains :=
  if c.out = 0 then some c
  else if c.busy = 0 then some { c with busy := c.out, out := 0 }
  else do
    let cl ← lastLink n c.memory c.busy
    return { c with memory := c.memory.setNext cl c.out, out := 0 }

/-- `ngx_free_chain` with the first busy link -/
def freeChain (c : Chains) : Chains :=
  { c with
    busy := c.memory.next c.busy
    memory := c.memory.setNext c.busy c.poolChain
    poolChain := c.busy }

def moveFree (c : Chains) : Chains :=
  { c with
    busy := c.memory.next c.busy
    memory := (c.memory.setBuf c.busy (c.memory.bufOf c.busy).reset).setNext c.busy c.free
    free := c.busy }

/-- `while (*busy)`, at most `n` links -/
def emptyBusy (tag : Nat) : Nat → Chains → Option Chains
  | 0, _ => none
  | n + 1, c =>
      if c.busy = 0 then some c
      else if (c.memory.bufOf c.busy).size ≠ 0 then some c
      else if (c.memory.bufOf c.busy).tag ≠ tag then emptyBusy tag n c.freeChain
      else emptyBusy tag n c.moveFree

end Chains

def chainUpdateChains (tag n : Nat) (c : Chains) : Option Chains := do
  let c ← c.moveOut n
  c.emptyBusy tag n

/-! The content of buffers: where the bytes are. -/

/-- Where a byte is, in memory and in a file -/
structure BufPlace where
  memory : Option Nat
  file : Option (Nat × Int)
  deriving DecidableEq

namespace NgxBuf

def place (b : NgxBuf) (i : Nat) : BufPlace where
  memory := if b.inMemory then some (b.pos + i) else none
  file := if b.inFile then some (b.file, b.filePos + i) else none

def content (b : NgxBuf) : List BufPlace :=
  if b.inMemory || b.inFile then (List.range b.size.toNat).map b.place else []

/-- A special buffer, or a data buffer in memory, in a file or in both with equal sizes -/
structure Valid (b : NgxBuf) : Prop where
  data : b.special = true ∨ b.inMemory = true ∨ b.inFile = true
  pos_le : b.inMemory = true → b.pos ≤ b.last
  filePos_le : b.inFile = true → b.filePos ≤ b.fileLast
  equal : b.inMemory = true → b.inFile = true → (b.last : Int) - b.pos = b.fileLast - b.filePos

@[simp] theorem inMemory_send (b : NgxBuf) (sent : Int) : (b.send sent).inMemory = b.inMemory := rfl

@[simp] theorem inMemory_sendAll (b : NgxBuf) : b.sendAll.inMemory = b.inMemory := rfl

theorem content_of_special {b : NgxBuf} (h : b.special = true) : b.content = [] := by
  rw [special, Bool.and_eq_true, Bool.and_eq_true, Bool.not_eq_true', Bool.not_eq_true'] at h
  rw [content, h.1.2, h.2]
  rfl

theorem content_of_size {b : NgxBuf} (h : b.size = 0) : b.content = [] := by
  rw [content, h]
  split <;> rfl

variable {b : NgxBuf}

theorem Valid.isData (h : b.Valid) (hspecial : b.special = false) :
    (b.inMemory || b.inFile) = true := by
  rcases h.data with hd | hd | hd
  · cases hd.symm.trans hspecial
  · rw [hd, Bool.true_or]
  · rw [hd, Bool.or_true]

theorem Valid.size_nonneg (h : b.Valid) (hdata : (b.inMemory || b.inFile) = true) :
    0 ≤ b.size := by
  rw [size]
  split
  · next hmemory =>
    have := h.pos_le hmemory
    omega
  · next hmemory =>
    rw [Bool.eq_false_of_not_eq_true hmemory, Bool.false_or] at hdata
    have := h.filePos_le hdata
    omega

theorem length_content (hdata : (b.inMemory || b.inFile) = true) :
    b.content.length = b.size.toNat := by
  rw [content, if_pos hdata, List.length_map, List.length_range]

theorem size_sendAll (hdata : (b.inMemory || b.inFile) = true) : b.sendAll.size = 0 := by
  rw [size, inMemory_sendAll]
  split
  · next hmemory =>
    simp only [sendAll, if_pos hmemory]
    omega
  · next hmemory =>
    rw [Bool.eq_false_of_not_eq_true hmemory, Bool.false_or] at hdata
    simp only [sendAll, if_pos hdata]
    omega

theorem size_send {k : Nat} (hdata : (b.inMemory || b.inFile) = true) :
    (b.send k).size = b.size - k := by
  rw [size, size, inMemory_send]
  split
  · next hmemory =>
    simp only [send, if_pos hmemory, Int.toNat_natCast]
    omega
  · next hmemory =>
    rw [Bool.eq_false_of_not_eq_true hmemory, Bool.false_or] at hdata
    simp only [send, if_pos hdata]
    omega

theorem pos_send (h : b.inMemory = true) (k : Nat) : (b.send k).pos = b.pos + k := if_pos h

theorem filePos_send (h : b.inFile = true) (k : Nat) : (b.send k).filePos = b.filePos + k :=
  if_pos h

theorem place_send (k i : Nat) : (b.send k).place i = b.place (k + i) := by
  rw [place, place]
  congr 1
  · by_cases hmemory : b.inMemory = true
    · have hmemory' : (b.send k).inMemory = true := hmemory
      rw [if_pos hmemory', if_pos hmemory, pos_send hmemory, Nat.add_assoc]
    · have hmemory' : ¬(b.send k).inMemory = true := hmemory
      rw [if_neg hmemory', if_neg hmemory]
  · by_cases hfile : b.inFile = true
    · have hfile' : (b.send k).inFile = true := hfile
      rw [if_pos hfile', if_pos hfile, filePos_send hfile, Int.add_assoc, ← Int.natCast_add]
      rfl
    · have hfile' : ¬(b.send k).inFile = true := hfile
      rw [if_neg hfile', if_neg hfile]

theorem content_send {k : Nat} (hdata : (b.inMemory || b.inFile) = true) :
    (b.send k).content = b.content.drop k := by
  have hdata' : ((b.send k).inMemory || (b.send k).inFile) = true := hdata
  rw [content, if_pos hdata', content, if_pos hdata, size_send hdata]
  refine List.ext_getElem ?_ fun i hi hi' => ?_
  · simp only [List.length_map, List.length_range, List.length_drop]
    omega
  · simp only [List.getElem_map, List.getElem_range, List.getElem_drop, place_send]

theorem Valid.sendAll (h : b.Valid) : b.sendAll.Valid := by
  refine ⟨h.data, fun hmemory => ?_, fun hfile => ?_, fun hmemory hfile => ?_⟩
  · simp only [NgxBuf.sendAll, if_pos (show b.inMemory = true from hmemory)]
    exact Nat.le_refl _
  · simp only [NgxBuf.sendAll, if_pos (show b.inFile = true from hfile)]
    exact Int.le_refl _
  · simp only [NgxBuf.sendAll, if_pos (show b.inMemory = true from hmemory),
      if_pos (show b.inFile = true from hfile)]
    omega

theorem Valid.send {k : Nat} (h : b.Valid) (hk : (k : Int) ≤ b.size) : (b.send k).Valid := by
  refine ⟨h.data, fun hmemory => ?_, fun hfile => ?_, fun hmemory hfile => ?_⟩
  · have hmemory : b.inMemory = true := hmemory
    have hle := h.pos_le hmemory
    simp only [NgxBuf.send, if_pos hmemory, Int.toNat_natCast]
    rw [size, if_pos hmemory] at hk
    omega
  · have hfile : b.inFile = true := hfile
    simp only [NgxBuf.send, if_pos hfile]
    rw [size] at hk
    split at hk
    · next hmemory =>
      have := h.equal hmemory hfile
      omega
    · omega
  · have hmemory : b.inMemory = true := hmemory
    have hfile : b.inFile = true := hfile
    have hle := h.pos_le hmemory
    have := h.equal hmemory hfile
    simp only [NgxBuf.send, if_pos hmemory, if_pos hfile, Int.toNat_natCast]
    rw [size, if_pos hmemory] at hk
    omega

end NgxBuf

namespace ChainMemory

def content (m : ChainMemory) (cells : List Nat) : List BufPlace :=
  cells.flatMap fun cl => (m.bufOf cl).content

@[simp] theorem next_setBuf (m : ChainMemory) (cl : Nat) (b : NgxBuf) :
    (m.setBuf cl b).next = m.next := rfl

@[simp] theorem buf_setBuf (m : ChainMemory) (cl : Nat) (b : NgxBuf) :
    (m.setBuf cl b).buf = m.buf := rfl

theorem bufOf_setBuf_self (m : ChainMemory) (cl : Nat) (b : NgxBuf) :
    (m.setBuf cl b).bufOf cl = b := if_pos rfl

theorem bufOf_setBuf_of_ne {m : ChainMemory} {cl x : Nat} (b : NgxBuf) (h : m.buf x ≠ m.buf cl) :
    (m.setBuf cl b).bufOf x = m.bufOf x := if_neg h

theorem setBuf_bufOf (m : ChainMemory) (cl : Nat) : m.setBuf cl (m.bufOf cl) = m := by
  have hbufs : (m.setBuf cl (m.bufOf cl)).bufs = m.bufs := by
    funext a
    change (if a = m.buf cl then m.bufs (m.buf cl) else m.bufs a) = m.bufs a
    split
    · next ha => rw [ha]
    · rfl
  exact congrArg (fun bufs => (⟨m.buf, m.next, bufs⟩ : ChainMemory)) hbufs

theorem content_cons (m : ChainMemory) (cl : Nat) (cells : List Nat) :
    m.content (cl :: cells) = (m.bufOf cl).content ++ m.content cells := List.flatMap_cons

theorem content_congr {m m' : ChainMemory} {cells : List Nat}
    (h : ∀ x ∈ cells, (m'.bufOf x).content = (m.bufOf x).content) :
    m'.content cells = m.content cells := by
  induction cells with
  | nil => rfl
  | cons cl cells ih =>
      rw [content_cons, content_cons, h cl List.mem_cons_self,
        ih fun x hx => h x (List.mem_cons_of_mem cl hx)]

end ChainMemory

namespace ChainUpdate

/-- What `ngx_chain_update_sent` does with a chain: the links `passed` have no content left, and
the content that is left begins at `rest`. -/
structure Sent (m m' : ChainMemory) (cells : List Nat) (sent : Nat) (passed rest : List Nat) :
    Prop where
  cells_eq : cells = passed ++ rest
  content_eq : m'.content cells = (m.content cells).drop sent
  content_rest : m'.content rest = (m.content cells).drop sent
  passed_empty : ∀ x ∈ passed, (m.bufOf x).special = true ∨ (m'.bufOf x).size = 0
  first : ∀ x ∈ rest.head?, (m.bufOf x).special = false ∧
    ((m'.bufOf x).size = 0 → (m.bufOf x).size = 0)
  valid : ∀ x ∈ cells, (m'.bufOf x).Valid
  links : m'.buf = m.buf ∧ m'.next = m.next
  frame : ∀ a, (∀ x ∈ cells, m.buf x ≠ a) → m'.bufs a = m.bufs a

theorem Sent.nil (m : ChainMemory) (sent : Nat) : Sent m m [] sent [] [] where
  cells_eq := rfl
  content_eq := List.drop_nil.symm
  content_rest := List.drop_nil.symm
  passed_empty _ hx := absurd hx List.not_mem_nil
  first _ hx := absurd hx (Option.not_mem_none _)
  valid _ hx := absurd hx List.not_mem_nil
  links := ⟨rfl, rfl⟩
  frame _ _ := rfl

/-- A change of the first buffer leaves the others alone. -/
theorem bufOf_behind {m : ChainMemory} {cl : Nat} {cells : List Nat} (b : NgxBuf)
    (hnodup : ((cl :: cells).map m.buf).Nodup) :
    ∀ x ∈ cells, (m.setBuf cl b).bufOf x = m.bufOf x := by
  intro x hx
  obtain ⟨hcl, -⟩ := List.nodup_cons.mp hnodup
  exact ChainMemory.bufOf_setBuf_of_ne b fun heq => hcl (heq ▸ List.mem_map_of_mem hx)

theorem content_behind {m : ChainMemory} {cl : Nat} {cells : List Nat} (b : NgxBuf)
    (hnodup : ((cl :: cells).map m.buf).Nodup) :
    (m.setBuf cl b).content cells = m.content cells :=
  ChainMemory.content_congr fun x hx => congrArg _ (bufOf_behind b hnodup x hx)

/-- The first buffer has been sent, and the rest of the call is behind it. -/
theorem Sent.cons {m m' : ChainMemory} {cl k sent : Nat} {cells passed rest : List Nat} {b : NgxBuf}
    (hb : b.Valid) (hnodup : ((cl :: cells).map m.buf).Nodup) (hcontent : b.content = [])
    (hempty : (m.bufOf cl).special = true ∨ b.size = 0)
    (hlength : (m.bufOf cl).content.length = k)
    (h : Sent (m.setBuf cl b) m' cells sent passed rest) :
    Sent m m' (cl :: cells) (k + sent) (cl :: passed) rest := by
  obtain ⟨hcl, -⟩ := List.nodup_cons.mp hnodup
  have hne : ∀ x ∈ cells, m.buf x ≠ m.buf cl := fun x hx heq =>
    hcl (heq ▸ List.mem_map_of_mem hx)
  have hother := bufOf_behind b hnodup
  have hself : m'.bufOf cl = b := by
    rw [ChainMemory.bufOf, h.links.1]
    exact (h.frame _ fun x hx => hne x hx).trans (if_pos rfl)
  have hdrop : ((m.setBuf cl b).content cells).drop sent =
      (m.content (cl :: cells)).drop (k + sent) := by
    rw [ChainMemory.content_cons, ← hlength, List.drop_append, content_behind b hnodup]
    simp only [Nat.add_sub_cancel_left, List.drop_eq_nil_of_le (Nat.le_add_right _ sent),
      List.nil_append]
  refine ⟨congrArg _ h.cells_eq, ?_, h.content_rest.trans hdrop, ?_, ?_, ?_, h.links, ?_⟩
  · rw [ChainMemory.content_cons, hself, hcontent, List.nil_append, h.content_eq, hdrop]
  · refine List.forall_mem_cons.mpr ⟨hempty.imp_right fun hsize => hself ▸ hsize, fun x hx => ?_⟩
    have hmem : x ∈ cells := h.cells_eq ▸ List.mem_append_left _ hx
    rw [← hother x hmem]
    exact h.passed_empty x hx
  · intro x hx
    have hmem : x ∈ cells := h.cells_eq ▸ List.mem_append_right _ (List.mem_of_mem_head? hx)
    rw [← hother x hmem]
    exact h.first x hx
  · exact List.forall_mem_cons.mpr ⟨hself ▸ hb, h.valid⟩
  · intro a ha
    obtain ⟨hane, ha⟩ := List.forall_mem_cons.mp ha
    exact (h.frame a ha).trans (if_neg (Ne.symm hane))

theorem Sent.stop {m : ChainMemory} {cl : Nat} {cells : List Nat}
    (hspecial : (m.bufOf cl).special = false) (hvalid : ∀ x ∈ cl :: cells, (m.bufOf x).Valid) :
    Sent m m (cl :: cells) 0 [] (cl :: cells) where
  cells_eq := rfl
  content_eq := rfl
  content_rest := rfl
  passed_empty _ hx := absurd hx List.not_mem_nil
  first := by
    rintro _ ⟨⟩
    exact ⟨hspecial, id⟩
  valid := hvalid
  links := ⟨rfl, rfl⟩
  frame _ _ := rfl

/-- A part of the first buffer has been sent. -/
theorem Sent.part {m : ChainMemory} {cl sent : Nat} {cells : List Nat}
    (hspecial : (m.bufOf cl).special = false) (hvalid : ∀ x ∈ cl :: cells, (m.bufOf x).Valid)
    (hnodup : ((cl :: cells).map m.buf).Nodup) (hsent : (sent : Int) < (m.bufOf cl).size) :
    Sent m (m.setBuf cl ((m.bufOf cl).send sent)) (cl :: cells) sent [] (cl :: cells) := by
  obtain ⟨hfirst, hrest⟩ := List.forall_mem_cons.mp hvalid
  have hdata := hfirst.isData hspecial
  have hself := ChainMemory.bufOf_setBuf_self m cl ((m.bufOf cl).send sent)
  have hdrop : (m.setBuf cl ((m.bufOf cl).send sent)).content (cl :: cells) =
      (m.content (cl :: cells)).drop sent := by
    have hle : sent ≤ (m.bufOf cl).content.length := by
      rw [NgxBuf.length_content hdata]
      omega
    rw [ChainMemory.content_cons, ChainMemory.content_cons, List.drop_append_of_le_length hle, hself,
      NgxBuf.content_send hdata, content_behind _ hnodup]
  refine ⟨rfl, hdrop, hdrop, fun x hx => absurd hx List.not_mem_nil, ?_, ?_, ⟨rfl, rfl⟩, ?_⟩
  · rintro _ ⟨⟩
    rw [hself, NgxBuf.size_send hdata]
    exact ⟨hspecial, fun hzero => by omega⟩
  · refine List.forall_mem_cons.mpr ⟨?_, fun x hx => ?_⟩
    · rw [hself]
      exact hfirst.send (Int.le_of_lt hsent)
    · rw [bufOf_behind _ hnodup x hx]
      exact hrest x hx
  · intro a ha
    exact if_neg (Ne.symm (ha cl List.mem_cons_self))

theorem chainUpdateSent_spec {m : ChainMemory} {cl sent n : Nat} {cells : List Nat}
    (hchain : Threaded m.next cl cells) (hnodup : (cells.map m.buf).Nodup)
    (hvalid : ∀ x ∈ cells, (m.bufOf x).Valid) (hsent : sent ≤ (m.content cells).length)
    (hn : cells.length < n) :
    ∃ link m' passed rest, chainUpdateSent n m cl sent = some (link, m') ∧
      Threaded m.next link rest ∧ Sent m m' cells sent passed rest := by
  obtain ⟨n, rfl⟩ := Nat.exists_eq_succ_of_ne_zero (Nat.ne_of_gt (Nat.zero_lt_of_lt hn))
  induction cells generalizing m cl sent n with
  | nil =>
      refine ⟨cl, m, [], [], ?_, hchain, .nil m sent⟩
      have hzero : cl = 0 := hchain
      rw [chainUpdateSent, if_pos hzero]
  | cons x cells ih =>
      obtain ⟨rfl, hne, hchain⟩ := hchain
      obtain ⟨hfirst, hrest⟩ := List.forall_mem_cons.mp hvalid
      obtain ⟨-, hcells⟩ := List.nodup_cons.mp hnodup
      obtain ⟨n, rfl⟩ := Nat.exists_eq_succ_of_ne_zero
        (Nat.ne_of_gt (Nat.zero_lt_of_lt (Nat.lt_of_succ_lt_succ hn)))
      rw [chainUpdateSent, if_neg hne]
      rw [ChainMemory.content_cons, List.length_append] at hsent
      cases hspecial : (m.bufOf cl).special with
      | true =>
          have hempty := NgxBuf.content_of_special hspecial
          rw [hempty, List.length_nil, Nat.zero_add] at hsent
          obtain ⟨link, m', passed, rest, hresult, hlink, h⟩ :=
            ih hchain hcells hrest hsent n (Nat.lt_of_succ_lt_succ hn)
          rw [← ChainMemory.setBuf_bufOf m cl] at h
          have hcons := h.cons hfirst hnodup hempty (.inl hspecial) (congrArg _ hempty)
          rw [List.length_nil, Nat.zero_add] at hcons
          exact ⟨link, m', _, rest, hresult, hlink, hcons⟩
      | false =>
          have hdata := hfirst.isData hspecial
          have hsize := hfirst.size_nonneg hdata
          have hlength := NgxBuf.length_content hdata
          rw [if_neg Bool.false_ne_true]
          by_cases hzero : (sent : Int) = 0
          · obtain rfl := Int.natCast_eq_zero.mp hzero
            refine ⟨cl, m, [], cl :: cells, ?_, ⟨rfl, hne, hchain⟩, .stop hspecial hvalid⟩
            rw [if_pos hzero]
          rw [if_neg hzero]
          by_cases hall : (sent : Int) ≥ (m.bufOf cl).size
          · have hzero' := NgxBuf.size_sendAll hdata
            have hrest' : ∀ x ∈ cells, ((m.setBuf cl (m.bufOf cl).sendAll).bufOf x).Valid :=
              fun x hx => (bufOf_behind _ hnodup x hx).symm ▸ hrest x hx
            have hsub : (sent : Int) - (m.bufOf cl).size =
                ((sent - (m.bufOf cl).size.toNat : Nat) : Int) := by omega
            have hsent' : sent - (m.bufOf cl).size.toNat ≤
                ((m.setBuf cl (m.bufOf cl).sendAll).content cells).length := by
              rw [content_behind _ hnodup]
              omega
            obtain ⟨link, m', passed, rest, hresult, hlink, h⟩ :=
              ih (m := m.setBuf cl (m.bufOf cl).sendAll) hchain hcells hrest' hsent' n
                (Nat.lt_of_succ_lt_succ hn)
            have hcons := h.cons hfirst.sendAll hnodup (NgxBuf.content_of_size hzero')
              (.inr hzero') hlength
            rw [Nat.add_sub_cancel' (by omega)] at hcons
            refine ⟨link, m', _, rest, ?_, hlink, hcons⟩
            rw [if_pos hall, hsub]
            exact hresult
          · refine ⟨cl, _, [], cl :: cells, if_neg hall, ⟨rfl, hne, hchain⟩, ?_⟩
            exact .part hspecial hvalid hnodup (Int.not_le.mp hall)

/-- The four chains, without a common link -/
structure Represents (c : Chains) (fs bs os ps : List Nat) : Prop where
  free : Threaded c.memory.next c.free fs
  busy : Threaded c.memory.next c.busy bs
  out : Threaded c.memory.next c.out os
  pool : Threaded c.memory.next c.poolChain ps
  nodup : (fs ++ bs ++ os ++ ps).Nodup

/-- Nothing is sent, and the buffers stay with their links. -/
structure Kept (m m' : ChainMemory) : Prop where
  buf_eq : m'.buf = m.buf
  content_eq : ∀ a, (m'.bufs a).content = (m.bufs a).content
  size_eq : ∀ a, (m'.bufs a).size = (m.bufs a).size
  tag_eq : ∀ a, (m'.bufs a).tag = (m.bufs a).tag

theorem Kept.refl (m : ChainMemory) : Kept m m := ⟨rfl, fun _ => rfl, fun _ => rfl, fun _ => rfl⟩

theorem Kept.trans {m m' m'' : ChainMemory} (h : Kept m m') (h' : Kept m' m'') : Kept m m'' :=
  ⟨h'.buf_eq.trans h.buf_eq, fun a => (h'.content_eq a).trans (h.content_eq a),
    fun a => (h'.size_eq a).trans (h.size_eq a), fun a => (h'.tag_eq a).trans (h.tag_eq a)⟩

theorem Kept.tag_bufOf {m m' : ChainMemory} (h : Kept m m') (x : Nat) :
    (m'.bufOf x).tag = (m.bufOf x).tag := by
  rw [ChainMemory.bufOf, h.buf_eq]
  exact h.tag_eq _

theorem Kept.size_bufOf {m m' : ChainMemory} (h : Kept m m') (x : Nat) :
    (m'.bufOf x).size = (m.bufOf x).size := by
  rw [ChainMemory.bufOf, h.buf_eq]
  exact h.size_eq _

theorem Kept.content {m m' : ChainMemory} (h : Kept m m') (cells : List Nat) :
    m'.content cells = m.content cells := by
  apply ChainMemory.content_congr
  intro x _
  rw [ChainMemory.bufOf, h.buf_eq]
  exact h.content_eq _

theorem Kept.setNext (m : ChainMemory) (cl next : Nat) : Kept m (m.setNext cl next) :=
  ⟨rfl, fun _ => rfl, fun _ => rfl, fun _ => rfl⟩

theorem size_reset {b : NgxBuf} (h : b.size = 0) : b.reset.size = 0 := by
  rw [NgxBuf.size] at h ⊢
  split
  · exact Int.sub_self _
  · next hmemory =>
    have hmemory' : ¬b.inMemory = true := hmemory
    rwa [if_neg hmemory'] at h

theorem Kept.reset {m : ChainMemory} {cl : Nat} (h : (m.bufOf cl).size = 0) :
    Kept m (m.setBuf cl (m.bufOf cl).reset) := by
  have hcases : ∀ a, (m.setBuf cl (m.bufOf cl).reset).bufs a = m.bufs a ∨
      (m.bufs a).size = 0 ∧ (m.setBuf cl (m.bufOf cl).reset).bufs a = (m.bufs a).reset := by
    intro a
    by_cases ha : a = m.buf cl
    · subst ha
      exact .inr ⟨h, if_pos rfl⟩
    · exact .inl (if_neg ha)
  refine ⟨rfl, fun a => ?_, fun a => ?_, fun a => ?_⟩
  · rcases hcases a with ha | ⟨hsize, ha⟩
    · rw [ha]
    · rw [ha, NgxBuf.content_of_size (size_reset hsize), NgxBuf.content_of_size hsize]
  · rcases hcases a with ha | ⟨hsize, ha⟩
    · rw [ha]
    · rw [ha, size_reset hsize, hsize]
  · rcases hcases a with ha | ⟨-, ha⟩
    · rw [ha]
    · rw [ha]
      rfl

theorem lastLink_spec {m : ChainMemory} {p last n : Nat} {xs : List Nat}
    (h : Threaded m.next p (xs ++ [last])) (hn : xs.length < n) :
    Chains.lastLink n m p = some last := by
  obtain ⟨n, rfl⟩ := Nat.exists_eq_succ_of_ne_zero (Nat.ne_of_gt (Nat.zero_lt_of_lt hn))
  induction xs generalizing p n with
  | nil =>
      obtain ⟨rfl, -, hend⟩ := h
      exact if_pos hend
  | cons x xs ih =>
      obtain ⟨rfl, -, hrest⟩ := h
      have hne : ¬m.next p = 0 := fun hzero =>
        List.append_ne_nil_of_right_ne_nil xs (List.cons_ne_nil last []) (hrest.eq_nil_iff.mpr hzero)
      obtain ⟨n, rfl⟩ := Nat.exists_eq_succ_of_ne_zero
        (Nat.ne_of_gt (Nat.zero_lt_of_lt (Nat.lt_of_succ_lt_succ hn)))
      rw [Chains.lastLink, if_neg hne]
      exact ih hrest n (Nat.lt_of_succ_lt_succ hn)

theorem next_setNext_of_ne {m : ChainMemory} {cl x : Nat} (h : x ≠ cl) (next : Nat) :
    (m.setNext cl next).next x = m.next x := if_neg h

theorem threaded_setNext {m : ChainMemory} {p cl : Nat} {xs : List Nat}
    (h : Threaded m.next p xs) (hcl : cl ∉ xs) (next : Nat) :
    Threaded (m.setNext cl next).next p xs := by
  apply h.congr
  intro x hx
  apply next_setNext_of_ne
  rintro rfl
  exact hcl hx

theorem threaded_push {m : ChainMemory} {p cl : Nat} {xs : List Nat} (h : Threaded m.next p xs)
    (hne : cl ≠ 0) (hcl : cl ∉ xs) : Threaded (m.setNext cl p).next cl (cl :: xs) := by
  have hnext : (m.setNext cl p).next cl = p := if_pos rfl
  refine ⟨rfl, hne, ?_⟩
  rw [hnext]
  exact threaded_setNext h hcl p

/-- What is not in front of a link and not behind it -/
theorem notMem_of_nodup {x : Nat} {xs ys : List Nat} (h : (xs ++ x :: ys).Nodup) :
    x ∉ xs ∧ x ∉ ys := by
  obtain ⟨hx, -⟩ := List.nodup_cons.mp (List.perm_middle.nodup_iff.mp h)
  exact ⟨fun hmem => hx (List.mem_append_left _ hmem), fun hmem => hx (List.mem_append_right _ hmem)⟩

theorem moveOut_spec {c : Chains} {fs bs os ps : List Nat} {n : Nat}
    (h : Represents c fs bs os ps) (hn : bs.length < n) :
    ∃ c', c.moveOut n = some c' ∧ Represents c' fs (bs ++ os) [] ps ∧
      Kept c.memory c'.memory := by
  rw [Chains.moveOut]
  by_cases hout : c.out = 0
  · obtain rfl := h.out.eq_nil_iff.mpr hout
    rw [if_pos hout]
    refine ⟨c, rfl, ?_, .refl _⟩
    rwa [List.append_nil]
  rw [if_neg hout]
  have hnodup : (fs ++ (bs ++ os) ++ [] ++ ps).Nodup := by
    rw [List.append_nil, ← List.append_assoc]
    exact h.nodup
  by_cases hbusy : c.busy = 0
  · obtain rfl := h.busy.eq_nil_iff.mpr hbusy
    rw [if_pos hbusy]
    exact ⟨_, rfl, ⟨h.free, h.out, rfl, h.pool, hnodup⟩, .refl _⟩
  rw [if_neg hbusy]
  obtain ⟨front, last, rfl⟩ : ∃ front last, bs = front ++ [last] := by
    have hne : bs ≠ [] := mt h.busy.eq_nil_iff.mp hbusy
    exact ⟨bs.dropLast, bs.getLast hne, (List.dropLast_append_getLast hne).symm⟩
  have hlength : front.length < n := by
    rw [List.length_append] at hn
    exact Nat.lt_of_le_of_lt (Nat.le_add_right _ _) hn
  have horder : fs ++ (front ++ [last]) ++ os ++ ps = (fs ++ front) ++ last :: (os ++ ps) := by
    simp only [List.append_assoc, List.cons_append, List.nil_append]
  obtain ⟨hbefore, hbehind⟩ := notMem_of_nodup (horder ▸ h.nodup)
  rw [lastLink_spec h.busy hlength]
  refine ⟨_, rfl, ⟨?_, ?_, rfl, ?_, hnodup⟩, .setNext _ _ _⟩
  · exact threaded_setNext h.free (fun hmem => hbefore (List.mem_append_left _ hmem)) _
  · have hos := threaded_setNext h.out (fun hmem => hbehind (List.mem_append_left _ hmem)) c.out
    have hfront : ∀ x ∈ front, (c.memory.setNext last c.out).next x = c.memory.next x := by
      intro x hx
      apply next_setNext_of_ne
      rintro rfl
      exact hbefore (List.mem_append_right _ hx)
    have hall := h.busy.append hos (if_pos rfl) hfront
    rwa [List.append_assoc]
  · exact threaded_setNext h.pool (fun hmem => hbehind (List.mem_append_right _ hmem)) _

theorem first_apart {fs bs ps : List Nat} {x : Nat} (h : (fs ++ x :: bs ++ [] ++ ps).Nodup) :
    x ∉ fs ∧ x ∉ bs ∧ x ∉ ps := by
  have horder : fs ++ x :: bs ++ [] ++ ps = fs ++ x :: (bs ++ ps) := by
    simp only [List.append_nil, List.append_assoc, List.cons_append]
  obtain ⟨hfs, hrest⟩ := notMem_of_nodup (horder ▸ h)
  exact ⟨hfs, fun hmem => hrest (List.mem_append_left _ hmem),
    fun hmem => hrest (List.mem_append_right _ hmem)⟩

theorem freeChain_spec {c : Chains} {fs bs ps : List Nat} {x : Nat}
    (h : Represents c fs (x :: bs) [] ps) :
    Represents c.freeChain fs bs [] (x :: ps) ∧ Kept c.memory c.freeChain.memory := by
  obtain ⟨hfs, hbs, hps⟩ := first_apart h.nodup
  obtain ⟨hx, hne, hbusy⟩ := h.busy
  rw [Chains.freeChain, hx]
  refine ⟨⟨threaded_setNext h.free hfs _, threaded_setNext hbusy hbs _, h.out,
    threaded_push h.pool hne hps, ?_⟩, .setNext _ _ _⟩
  have hperm : (fs ++ x :: bs ++ [] ++ ps).Perm (fs ++ bs ++ [] ++ x :: ps) := by
    rw [List.append_nil, List.append_nil]
    exact (List.perm_middle.append_right ps).trans List.perm_middle.symm
  exact hperm.nodup_iff.mp h.nodup

theorem moveFree_spec {c : Chains} {fs bs ps : List Nat} {x : Nat}
    (h : Represents c fs (x :: bs) [] ps) (hsize : (c.memory.bufOf c.busy).size = 0) :
    Represents c.moveFree (x :: fs) bs [] ps ∧ Kept c.memory c.moveFree.memory := by
  obtain ⟨hfs, hbs, hps⟩ := first_apart h.nodup
  obtain ⟨hx, hne, hbusy⟩ := h.busy
  have hkept := Kept.reset hsize
  rw [Chains.moveFree, hx] at *
  refine ⟨⟨threaded_push h.free hne hfs, threaded_setNext hbusy hbs _, h.out,
    threaded_setNext h.pool hps _, ?_⟩, hkept.trans (.setNext _ _ _)⟩
  have hperm : (fs ++ x :: bs ++ [] ++ ps).Perm (x :: fs ++ bs ++ [] ++ ps) := by
    rw [List.append_nil, List.append_nil]
    exact List.perm_middle.append_right ps
  exact hperm.nodup_iff.mp h.nodup

/-- A link whose buffer is empty goes to one of two chains, by its tag. -/
theorem emptyBusy_step (tag n : Nat) {c : Chains} {fs bs ps : List Nat} {x : Nat}
    (h : Represents c fs (x :: bs) [] ps) (hsize : (c.memory.bufOf x).size = 0) :
    ∃ c', c.emptyBusy tag (n + 1) = c'.emptyBusy tag n ∧
      Represents c' (([x].filter fun x => (c.memory.bufOf x).tag = tag).reverse ++ fs) bs []
        (([x].filter fun x => ¬(c.memory.bufOf x).tag = tag).reverse ++ ps) ∧
      Kept c.memory c'.memory := by
  obtain ⟨hx, hne, -⟩ := h.busy
  rw [Chains.emptyBusy, hx, if_neg hne, if_neg (not_not.mpr hsize)]
  by_cases htag : (c.memory.bufOf x).tag = tag
  · obtain ⟨hnext, hkept⟩ := moveFree_spec h (hx.symm ▸ hsize)
    refine ⟨c.moveFree, if_neg (not_not.mpr htag), ?_, hkept⟩
    rw [List.filter_cons_of_pos (by simpa using htag),
      List.filter_cons_of_neg (by simpa using htag)]
    exact hnext
  · obtain ⟨hnext, hkept⟩ := freeChain_spec h
    refine ⟨c.freeChain, if_pos htag, ?_, hkept⟩
    rw [List.filter_cons_of_neg (by simpa using htag),
      List.filter_cons_of_pos (by simpa using htag)]
    exact hnext

theorem emptyBusy_spec (tag : Nat) {c : Chains} {fs bs ps : List Nat} {n : Nat}
    (h : Represents c fs bs [] ps) (hn : bs.length < n) :
    ∃ c' moved rest, c.emptyBusy tag n = some c' ∧ bs = moved ++ rest ∧
      Represents c' ((moved.filter fun x => (c.memory.bufOf x).tag = tag).reverse ++ fs) rest []
        ((moved.filter fun x => ¬(c.memory.bufOf x).tag = tag).reverse ++ ps) ∧
      (∀ x ∈ moved, (c.memory.bufOf x).size = 0) ∧ Kept c.memory c'.memory := by
  obtain ⟨n, rfl⟩ := Nat.exists_eq_succ_of_ne_zero (Nat.ne_of_gt (Nat.zero_lt_of_lt hn))
  induction bs generalizing c fs ps n with
  | nil =>
      refine ⟨c, [], [], ?_, rfl, h, fun x hx => absurd hx List.not_mem_nil, .refl _⟩
      exact if_pos h.busy
  | cons x bs ih =>
      obtain ⟨n, rfl⟩ := Nat.exists_eq_succ_of_ne_zero
        (Nat.ne_of_gt (Nat.zero_lt_of_lt (Nat.lt_of_succ_lt_succ hn)))
      obtain ⟨hx, hne, -⟩ := h.busy
      by_cases hsize : (c.memory.bufOf x).size = 0
      · obtain ⟨c₁, hstep, hnext, hkept⟩ := emptyBusy_step tag (n + 1) h hsize
        obtain ⟨c', moved, rest, hresult, hsplit, hrep, hempty, hkept'⟩ :=
          ih hnext n (Nat.lt_of_succ_lt_succ hn)
        refine ⟨c', x :: moved, rest, hstep.trans hresult, congrArg _ hsplit, ?_,
          List.forall_mem_cons.mpr ⟨hsize, fun y hy => ?_⟩, hkept.trans hkept'⟩
        · simp only [hkept.tag_bufOf, ← List.append_assoc, ← List.reverse_append,
            ← List.filter_append] at hrep
          exact hrep
        · rw [← hkept.size_bufOf]
          exact hempty y hy
      · refine ⟨c, [], x :: bs, ?_, rfl, h, fun x hx => absurd hx List.not_mem_nil, .refl _⟩
        rw [Chains.emptyBusy, hx, if_neg hne, if_pos hsize]

/-- What `ngx_chain_update_chains` does with the chains `fs`, `bs` and `os` -/
structure Updated (tag : Nat) (m m' : ChainMemory) (fs bs os fs' bs' : List Nat) : Prop where
  kept : ∀ x ∈ fs ++ bs ++ os, (m.bufOf x).tag = tag → (fs' ++ bs').count x = 1
  content_eq : m'.content bs' = m.content (bs ++ os)
  order : ∃ moved, bs ++ os = moved ++ bs'
  moved : ∃ new, fs' = new ++ fs ∧ ∀ x ∈ new, x ∈ bs ++ os ∧ (m.bufOf x).tag = tag ∧
    (m.bufOf x).size = 0 ∧ (m'.bufOf x).size = 0

theorem content_of_empty {m : ChainMemory} {cells : List Nat}
    (h : ∀ x ∈ cells, (m.bufOf x).size = 0) : m.content cells = [] := by
  induction cells with
  | nil => rfl
  | cons cl cells ih =>
      obtain ⟨hcl, hcells⟩ := List.forall_mem_cons.mp h
      rw [ChainMemory.content_cons, NgxBuf.content_of_size hcl, ih hcells, List.append_nil]

theorem chainUpdateChains_spec {c : Chains} {fs bs os ps : List Nat} {n tag : Nat}
    (h : Represents c fs bs os ps) (hn : bs.length + os.length < n) :
    ∃ c' fs' bs' ps', chainUpdateChains tag n c = some c' ∧ Represents c' fs' bs' [] ps' ∧
      Updated tag c.memory c'.memory fs bs os fs' bs' := by
  obtain ⟨c₁, hout, h₁, hkept₁⟩ := moveOut_spec h (Nat.lt_of_le_of_lt (Nat.le_add_right _ _) hn)
  rw [← List.length_append] at hn
  obtain ⟨c', moved, rest, hresult, hsplit, hrep, hempty, hkept⟩ := emptyBusy_spec tag h₁ hn
  simp only [hkept₁.tag_bufOf, hkept₁.size_bufOf] at hrep hempty
  have hkept' := hkept₁.trans hkept
  refine ⟨c', _, rest, _, ?_, hrep, ?_, ?_, ⟨moved, hsplit⟩, _, rfl, ?_⟩
  · rw [chainUpdateChains, hout]
    exact hresult
  · intro x hx htag
    refine List.count_eq_one_of_mem ?_ ?_
    · have hnodup := hrep.nodup
      rw [List.append_nil] at hnodup
      exact (List.nodup_append.mp hnodup).1
    · rw [List.append_assoc, hsplit] at hx
      simp only [List.mem_append, List.mem_reverse, List.mem_filter, decide_eq_true_eq] at hx ⊢
      tauto
  · have hall : c.memory.content (moved ++ rest) =
        c.memory.content moved ++ c.memory.content rest := List.flatMap_append
    rw [hkept'.content, hsplit, hall, content_of_empty hempty, List.nil_append]
  · intro x hx
    obtain ⟨hmem, htag⟩ := List.mem_filter.mp (List.mem_reverse.mp hx)
    refine ⟨hsplit ▸ List.mem_append_left _ hmem, of_decide_eq_true htag, hempty x hmem, ?_⟩
    rw [hkept'.size_bufOf]
    exact hempty x hmem

/-- Both functions, with a bound on their loops that chains without a cycle never reach -/
theorem chainUpdate_exact {m : ChainMemory} {cl sent : Nat} {cells : List Nat}
    (hchain : Threaded m.next cl cells) (hnodup : (cells.map m.buf).Nodup)
    (hvalid : ∀ x ∈ cells, (m.bufOf x).Valid) (hsent : sent ≤ (m.content cells).length)
    {c : Chains} {fs bs os ps : List Nat} (h : Represents c fs bs os ps) (tag : Nat) {n : Nat}
    (hcells : cells.length < n) (hn : bs.length + os.length < n) :
    (∃ link m' passed rest, chainUpdateSent n m cl sent = some (link, m') ∧
      Threaded m.next link rest ∧ Sent m m' cells sent passed rest) ∧
    ∃ c' fs' bs' ps', chainUpdateChains tag n c = some c' ∧ Represents c' fs' bs' [] ps' ∧
      Updated tag c.memory c'.memory fs bs os fs' bs' :=
  ⟨chainUpdateSent_spec hchain hnodup hvalid hsent hcells, chainUpdateChains_spec h hn⟩

/-- A link with a flush and one with two bytes in memory -/
def twoLinks : ChainMemory where
  buf cl := cl
  next cl := if cl = 1 then 2 else 0
  bufs a :=
    if a = 1 then ⟨0, 0, 0, 0, 0, 7, 0, false, false, false, false, true, false, false⟩
    else ⟨100, 102, 0, 0, 100, 7, 0, true, false, false, false, false, false, false⟩

theorem chainUpdate_two_links :
    (∃ link m' passed rest, chainUpdateSent 3 twoLinks 1 (1 : Nat) = some (link, m') ∧
      Threaded twoLinks.next link rest ∧ Sent twoLinks m' [1, 2] 1 passed rest) ∧
    ∃ c' fs' bs' ps', chainUpdateChains 7 3 ⟨twoLinks, 0, 1, 0, 0⟩ = some c' ∧
      Represents c' fs' bs' [] ps' ∧ Updated 7 twoLinks c'.memory [] [1, 2] [] fs' bs' := by
  have hchain : Threaded twoLinks.next 1 [1, 2] :=
    ⟨rfl, by decide, ⟨rfl, by decide, rfl⟩⟩
  have hvalid : ∀ x ∈ [1, 2], (twoLinks.bufOf x).Valid := by
    rw [List.forall_mem_cons, List.forall_mem_singleton]
    exact ⟨⟨by decide, by decide, by decide, by decide⟩,
      ⟨by decide, by decide, by decide, by decide⟩⟩
  have hchains : Represents ⟨twoLinks, 0, 1, 0, 0⟩ [] [1, 2] [] [] :=
    ⟨rfl, hchain, rfl, rfl, by decide⟩
  exact chainUpdate_exact hchain (by decide) hvalid (by decide) hchains 7 (by decide) (by decide)

end ChainUpdate

end RebuildTheWheel.Nginx
