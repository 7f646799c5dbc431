import Mathlib.Algebra.Order.Ring.Nat
import RebuildTheWheel.Data.Chunks
import RebuildTheWheel.Data.Run

namespace RebuildTheWheel.TinySTL

open Data

/-! `bitmap<N>`: the bytes between `start_` and `finish_`. The template argument and the
sizes are values of `size_t`. -/

namespace Bitmap

def roundUp8 (bytes : BitVec 64) : BitVec 64 := (bytes + 8 - 1) &&& ~~~(8 - 1)

/-- The member `size_`, in bits. -/
def size (N : BitVec 64) : Nat := (roundUp8 N).toNat

def sizeOfUINT8 (N : BitVec 64) : Nat := (roundUp8 N / 8).toNat

end Bitmap

structure Bitmap (N : BitVec 64) where
  bytes : List (BitVec 8)
  length_bytes : bytes.length = Bitmap.sizeOfUINT8 N

namespace Bitmap

variable {N : BitVec 64}

/-! Bytes are promoted to `int` for each operation and cut back when they are stored. -/

def getMask (i : BitVec 8) (nth : Nat) : BitVec 8 :=
  (i.setWidth 32 &&& (1#32 <<< nth)).setWidth 8

def getNth (n : Nat) : Nat := n / 8

def getMth (n : Nat) : Nat := n % 8

def setNthInInt8 (i : BitVec 8) (nth : Nat) (newVal : Bool) : BitVec 8 :=
  let temp := getMask i nth
  if (temp != 0) = newVal then
    i
  else if temp ≠ 0 then
    let temp := (~~~(temp.setWidth 32)).setWidth 8
    (i.setWidth 32 &&& temp.setWidth 32).setWidth 8
  else
    (i.setWidth 32 ||| (1#32 <<< nth)).setWidth 8

def new (N : BitVec 64) : Bitmap N where
  bytes := List.replicate (sizeOfUINT8 N) 0
  length_bytes := List.length_replicate

/-- `uninitialized_fill_n(start_, sizeOfUINT8_, ~0)`: the `int` is cut to a byte. -/
protected def set (_ : Bitmap N) : Bitmap N where
  bytes := List.replicate (sizeOfUINT8 N) ((~~~0#32).setWidth 8)
  length_bytes := List.length_replicate

protected def reset (_ : Bitmap N) : Bitmap N where
  bytes := List.replicate (sizeOfUINT8 N) ((0#32).setWidth 8)
  length_bytes := List.length_replicate

protected def flip (b : Bitmap N) : Bitmap N where
  bytes := b.bytes.map fun n => (~~~(n.setWidth 32)).setWidth 8
  length_bytes := by rw [List.length_map, b.length_bytes]

/-- A write through a pointer into the bytes. -/
def store (b : Bitmap N) (nth : Nat) (byte : BitVec 8) : Bitmap N where
  bytes := b.bytes.set nth byte
  length_bytes := by rw [List.length_set, b.length_bytes]

/-- `none` stands for the exception that `THROW` raises, and for a read outside the bytes. -/
def test (b : Bitmap N) (pos : Nat) : Option Bool :=
  if pos < size N then do
    let byte ← b.bytes[getNth pos]?
    let temp := getMask byte (getMth pos)
    if temp ≠ 0 then return true else return false
  else
    none

def setAt (b : Bitmap N) (pos : Nat) (val : Bool) : Option (Bitmap N) :=
  if pos < size N then do
    let byte ← b.bytes[getNth pos]?
    return b.store (getNth pos) (setNthInInt8 byte (getMth pos) val)
  else
    none

def resetAt (b : Bitmap N) (pos : Nat) : Option (Bitmap N) := b.setAt pos false

def flipAt (b : Bitmap N) (pos : Nat) : Option (Bitmap N) :=
  if pos < size N then do
    let byte ← b.bytes[getNth pos]?
    let temp := getMask byte (getMth pos)
    if temp ≠ 0 then
      return b.store (getNth pos) (setNthInInt8 byte (getMth pos) false)
    else
      return b.store (getNth pos) (setNthInInt8 byte (getMth pos) true)
  else
    none

/-- The loop over the eight bits of one byte, with the sum in `size_t`. -/
def countByte (sum : BitVec 64) (byte : BitVec 8) : BitVec 64 :=
  (List.range 8).foldl (fun sum i => if getMask byte i ≠ 0 then sum + 1 else sum) sum

protected def count (b : Bitmap N) : BitVec 64 := b.bytes.foldl countByte 0

def anyFrom : List (BitVec 8) → Bool
  | [] => false
  | n :: rest => if n ≠ 0 then true else anyFrom rest

protected def any (b : Bitmap N) : Bool := anyFrom b.bytes

def allFrom : List (BitVec 8) → Bool
  | [] => true
  | n :: rest => if n ≠ (~~~0#32).setWidth 8 then false else allFrom rest

protected def all (b : Bitmap N) : Bool := allFrom b.bytes

protected def none (b : Bitmap N) : Bool := !b.any

def toStringByte (str : List Char) (n : BitVec 8) : List Char :=
  (List.range 8).foldl (fun str i => str ++ if getMask n i ≠ 0 then ['1'] else ['0']) str

protected def toString (b : Bitmap N) : List Char := b.bytes.foldl toStringByte []

/-! Positions are below `size()`, so that an operation that throws is no operation. -/

inductive Op (n : Nat) where
  | set
  | reset
  | flip
  | setAt (pos : Fin n) (val : Bool)
  | resetAt (pos : Fin n)
  | flipAt (pos : Fin n)

def step (b : Bitmap N) : Op (size N) → Option (Bitmap N)
  | .set => some b.set
  | .reset => some b.reset
  | .flip => some b.flip
  | .setAt pos val => b.setAt pos val
  | .resetAt pos => b.resetAt pos
  | .flipAt pos => b.flipAt pos

/-- The same operations on a vector of booleans. -/
def Op.apply {n : Nat} (bits : List Bool) : Op n → List Bool
  | .set => bits.map fun _ => true
  | .reset => bits.map fun _ => false
  | .flip => bits.map not
  | .setAt pos val => bits.set pos val
  | .resetAt pos => bits.set pos false
  | .flipAt pos => bits.modify pos not

/-! The bits of a byte. -/

theorem getLsbD_one_shiftLeft (nth : Nat) {k : Nat} (hk : k < 32) :
    (1#32 <<< nth).getLsbD k = decide (nth = k) := by
  rw [BitVec.getLsbD_shiftLeft, BitVec.getLsbD_one]
  by_cases hnth : nth = k
  · simp [hnth, hk]
  · have hne : k < nth ∨ k - nth ≠ 0 := by omega
    rcases hne with hne | hne <;> simp [hnth, hne]

theorem getElem_getMask (i : BitVec 8) (nth : Nat) {k : Nat} (hk : k < 8) :
    (getMask i nth)[k] = (i[k] && decide (nth = k)) := by
  have hk32 : k < 32 := by omega
  simp only [getMask, BitVec.getElem_setWidth, BitVec.getLsbD_and, BitVec.getLsbD_setWidth,
    getLsbD_one_shiftLeft nth hk32, BitVec.getLsbD_eq_getElem hk, hk32, decide_true, Bool.true_and]

theorem getMask_ne_zero_iff (i : BitVec 8) {nth : Nat} (h : nth < 8) :
    getMask i nth ≠ 0 ↔ i[nth] = true := by
  constructor
  · intro hne
    by_contra hbit
    apply hne
    apply BitVec.eq_of_getElem_eq
    intro k hk
    rw [getElem_getMask]
    by_cases hnth : nth = k
    · subst hnth
      simpa using hbit
    · simp [hnth]
  · intro hbit hzero
    have hmask := getElem_getMask i nth h
    rw [hzero] at hmask
    simp [hbit] at hmask

theorem setNthInInt8_eq (i : BitVec 8) {nth : Nat} (h : nth < 8) (newVal : Bool) :
    setNthInInt8 i nth newVal =
      if i[nth] = newVal then i
      else if i[nth] = true then
        (i.setWidth 32 &&& ((~~~((getMask i nth).setWidth 32)).setWidth 8).setWidth 32).setWidth 8
      else (i.setWidth 32 ||| (1#32 <<< nth)).setWidth 8 := by
  have hbool : (getMask i nth != 0) = i[nth] := by
    rw [Bool.eq_iff_iff, bne_iff_ne]
    exact getMask_ne_zero_iff i h
  unfold setNthInInt8
  simp only [hbool, getMask_ne_zero_iff i h]

theorem getElem_setNthInInt8 (i : BitVec 8) {nth : Nat} (h : nth < 8) (newVal : Bool) (k : Nat)
    (hk : k < 8) :
    (setNthInInt8 i nth newVal)[k] = if nth = k then newVal else i[k] := by
  have hk32 : k < 32 := by omega
  simp only [setNthInInt8_eq i h]
  by_cases hsame : i[nth] = newVal
  · simp only [if_pos hsame]
    by_cases hnth : nth = k
    · subst hnth
      rw [if_pos rfl]
      exact hsame
    · rw [if_neg hnth]
  · simp only [if_neg hsame]
    have hnew : newVal = !i[nth] := Bool.eq_not.mpr (Ne.symm hsame)
    by_cases hbit : i[nth] = true
    · simp only [if_pos hbit, BitVec.getElem_setWidth, BitVec.getLsbD_and, BitVec.getLsbD_setWidth,
        BitVec.getLsbD_not, BitVec.getLsbD_eq_getElem hk, getElem_getMask, hk32]
      split_ifs with hnth
      · subst hnth
        simp [hnew, hbit]
      · simp [hnth]
    · simp only [if_neg hbit, BitVec.getElem_setWidth, BitVec.getLsbD_or, BitVec.getLsbD_setWidth,
        getLsbD_one_shiftLeft nth hk32, BitVec.getLsbD_eq_getElem hk, hk32]
      split_ifs with hnth
      · subst hnth
        simp [hnew, hbit]
      · simp [hnth]

theorem wordBits_setNthInInt8 (i : BitVec 8) {nth : Nat} (h : nth < 8) (newVal : Bool) :
    wordBits (setNthInInt8 i nth newVal) = (wordBits i).set nth newVal :=
  wordBits_eq_set (getElem_setNthInInt8 i h newVal)

theorem sizeOfUINT8_mul (N : BitVec 64) : 8 * sizeOfUINT8 N = size N := by
  have hmod : (roundUp8 N).toNat % 2 ^ 3 = 0 := by
    rw [roundUp8, BitVec.toNat_and, ← Nat.and_two_pow_sub_one_eq_mod, Nat.and_assoc]
    exact Nat.and_zero _
  rw [sizeOfUINT8, size, BitVec.toNat_udiv]
  change 8 * ((roundUp8 N).toNat / 8) = _
  omega

/-- The vector of booleans a bitmap stands for. -/
def bits (b : Bitmap N) : List Bool := b.bytes.flatMap wordBits

theorem length_bits (b : Bitmap N) : b.bits.length = size N := by
  rw [bits, Chunks.length_flatMap length_wordBits, b.length_bytes, sizeOfUINT8_mul]

theorem size_lt (N : BitVec 64) : size N < 2 ^ 64 := (roundUp8 N).isLt

theorem exists_byte (b : Bitmap N) {pos : Nat} (hpos : pos < size N) :
    ∃ byte, b.bytes[getNth pos]? = some byte := by
  have hlt : getNth pos < b.bytes.length := by
    rw [b.length_bytes, getNth]
    rw [← sizeOfUINT8_mul] at hpos
    omega
  exact ⟨_, List.getElem?_eq_getElem hlt⟩

theorem bits_getElem? (b : Bitmap N) {pos : Nat} {byte : BitVec 8}
    (hbyte : b.bytes[getNth pos]? = some byte) (hmth : getMth pos < 8) :
    b.bits[pos]? = some byte[getMth pos] := by
  rw [bits, Chunks.getElem?_flatMap (by decide) length_wordBits]
  rw [getNth] at hbyte
  rw [hbyte]
  exact getElem?_wordBits byte _

theorem bits_new (N : BitVec 64) : (new N).bits = List.replicate (size N) false := by
  apply List.eq_replicate_iff.mpr
  refine ⟨length_bits _, fun bit hbit => ?_⟩
  obtain ⟨byte, hbyte, hmem⟩ := List.mem_flatMap.mp hbit
  rw [List.eq_of_mem_replicate hbyte] at hmem
  exact (eq_zero_iff_wordBits _).mp rfl bit hmem

theorem bits_set (b : Bitmap N) : b.set.bits = b.bits.map fun _ => true := by
  have hones : (~~~0#32).setWidth 8 = BitVec.allOnes 8 := by decide
  have hbytes : b.set.bytes = b.bytes.map fun _ => BitVec.allOnes 8 := by
    rw [List.map_const', b.length_bytes, ← hones]
    rfl
  rw [bits, hbytes]
  apply Chunks.flatMap_map
  intro byte
  rw [wordBits_allOnes, List.map_const', length_wordBits]

theorem bits_reset (b : Bitmap N) : b.reset.bits = b.bits.map fun _ => false := by
  have hbytes : b.reset.bytes = b.bytes.map fun _ => 0#8 := by
    rw [List.map_const', b.length_bytes]
    rfl
  rw [bits, hbytes]
  apply Chunks.flatMap_map
  intro byte
  rw [wordBits_zero, List.map_const', length_wordBits]

theorem bits_flip (b : Bitmap N) : b.flip.bits = b.bits.map not := by
  apply Chunks.flatMap_map
  intro byte
  rw [← wordBits_not]
  congr 1
  apply BitVec.eq_of_getElem_eq
  intro k hk
  have hk32 : k < 32 := by omega
  simp

theorem bits_store (b : Bitmap N) {pos : Nat} {byte : BitVec 8}
    (hbyte : b.bytes[getNth pos]? = some byte) (val : Bool) :
    (b.store (getNth pos) (setNthInInt8 byte (getMth pos) val)).bits = b.bits.set pos val := by
  apply Chunks.flatMap_set (by decide) length_wordBits hbyte
  exact wordBits_setNthInInt8 byte (Nat.mod_lt _ (by decide)) val

/-! Each operation against the vector. -/

theorem setAt_bits (b : Bitmap N) {pos : Nat} (hpos : pos < size N) (val : Bool) :
    ∃ b', b.setAt pos val = some b' ∧ b'.bits = b.bits.set pos val := by
  obtain ⟨byte, hbyte⟩ := b.exists_byte hpos
  refine ⟨_, ?_, b.bits_store hbyte val⟩
  rw [setAt, if_pos hpos, hbyte]
  rfl

theorem flipAt_bits (b : Bitmap N) {pos : Nat} (hpos : pos < size N) :
    ∃ b', b.flipAt pos = some b' ∧ b'.bits = b.bits.modify pos not := by
  obtain ⟨byte, hbyte⟩ := b.exists_byte hpos
  have hmth : getMth pos < 8 := Nat.mod_lt _ (by decide)
  refine ⟨_, ?_, (b.bits_store hbyte (!byte[getMth pos])).trans ?_⟩
  · rw [flipAt, if_pos hpos, hbyte]
    simp only [Option.bind_eq_bind, Option.bind_some, getMask_ne_zero_iff byte hmth]
    by_cases hbit : byte[getMth pos] = true
    · rw [if_pos hbit, hbit]
      rfl
    · rw [if_neg hbit, Bool.eq_false_of_not_eq_true hbit]
      rfl
  · rw [List.modify_eq_set_getElem?, b.bits_getElem? hbyte hmth]
    rfl

theorem step_bits (b : Bitmap N) (op : Op (size N)) :
    ∃ b', b.step op = some b' ∧ b'.bits = op.apply b.bits := by
  cases op with
  | set => exact ⟨_, rfl, b.bits_set⟩
  | reset => exact ⟨_, rfl, b.bits_reset⟩
  | flip => exact ⟨_, rfl, b.bits_flip⟩
  | setAt pos val => exact b.setAt_bits pos.isLt val
  | resetAt pos => exact b.setAt_bits pos.isLt false
  | flipAt pos => exact b.flipAt_bits pos.isLt

/-! What a client sees. -/

theorem test_eq (b : Bitmap N) (pos : Nat) : b.test pos = b.bits[pos]? := by
  by_cases hpos : pos < size N
  · obtain ⟨byte, hbyte⟩ := b.exists_byte hpos
    have hmth : getMth pos < 8 := Nat.mod_lt _ (by decide)
    rw [test, if_pos hpos, b.bits_getElem? hbyte hmth, hbyte]
    simp only [Option.bind_eq_bind, Option.bind_some, getMask_ne_zero_iff byte hmth]
    cases byte[getMth pos] <;> rfl
  · rw [test, if_neg hpos, List.getElem?_eq_none]
    rw [b.length_bits]
    exact Nat.le_of_not_lt hpos

/-- The loop `for (int i = 0; i != 8; ++i)` meets the bits in their order. -/
theorem wordBits_eq_masks (byte : BitVec 8) :
    wordBits byte = (List.range 8).map fun i => decide (getMask byte i ≠ 0) := by
  ext i : 1
  by_cases hi : i < 8
  · rw [getElem?_wordBits byte hi, List.getElem?_map, List.getElem?_range hi, Option.map_some]
    congr 1
    rw [Bool.eq_iff_iff, decide_eq_true_iff]
    exact (getMask_ne_zero_iff byte hi).symm
  · rw [List.getElem?_eq_none (by simpa using hi), List.getElem?_eq_none (by simpa using hi)]

theorem countByte_eq (sum : BitVec 64) (byte : BitVec 8) :
    countByte sum byte = sum + BitVec.ofNat 64 ((wordBits byte).count true) := by
  rw [wordBits_eq_masks, countByte]
  induction List.range 8 generalizing sum with
  | nil => simp
  | cons i rest ih =>
      rw [List.foldl_cons, ih, List.map_cons]
      by_cases hmask : getMask byte i ≠ 0
      · rw [if_pos hmask, decide_eq_true hmask, List.count_cons_self, Nat.add_comm,
          BitVec.ofNat_add, ← BitVec.add_assoc]
        rfl
      · rw [if_neg hmask, decide_eq_false hmask, List.count_cons_of_ne Bool.false_ne_true]

theorem count_eq (b : Bitmap N) : b.count.toNat = b.bits.count true := by
  have hloop : ∀ (bytes : List (BitVec 8)) (sum : BitVec 64), bytes.foldl countByte sum =
      sum + BitVec.ofNat 64 ((bytes.flatMap wordBits).count true) := by
    intro bytes
    induction bytes with
    | nil => simp
    | cons byte bytes ih =>
        intro sum
        rw [List.foldl_cons, ih, countByte_eq, List.flatMap_cons, List.count_append,
          BitVec.ofNat_add, BitVec.add_assoc]
  have hle : b.bits.count true < 2 ^ 64 :=
    (List.count_le_length.trans_eq b.length_bits).trans_lt (size_lt N)
  rw [Bitmap.count, hloop, BitVec.ofNat_eq_ofNat, BitVec.zero_add, BitVec.toNat_ofNat]
  exact Nat.mod_eq_of_lt hle

theorem any_eq (b : Bitmap N) : b.any = b.bits.any id := by
  rw [Bitmap.any, bits]
  induction b.bytes with
  | nil => rfl
  | cons byte bytes ih =>
      rw [anyFrom, List.flatMap_cons, List.any_append, ih]
      by_cases hzero : byte = 0
      · have hbits := (eq_zero_iff_wordBits byte).mp hzero
        have hnone : (wordBits byte).any id = false := by
          simpa using hbits
        rw [if_neg (not_not.mpr hzero), hnone, Bool.false_or]
      · have hsome : (wordBits byte).any id = true := by
          by_contra hnone
          apply hzero
          apply (eq_zero_iff_wordBits byte).mpr
          simpa using hnone
        rw [if_pos hzero, hsome, Bool.true_or]

theorem all_eq (b : Bitmap N) : b.all = b.bits.all id := by
  have hones : (~~~0#32).setWidth 8 = BitVec.allOnes 8 := by decide
  rw [Bitmap.all, bits]
  induction b.bytes with
  | nil => rfl
  | cons byte bytes ih =>
      rw [allFrom, hones, List.flatMap_cons, List.all_append, ih]
      by_cases hall : byte = BitVec.allOnes 8
      · have hbits : (wordBits byte).all id = true := by
          simpa using (eq_allOnes_iff_wordBits byte).mp hall
        rw [if_neg (not_not.mpr hall), hbits, Bool.true_and]
      · have hbits : (wordBits byte).all id = false := by
          by_contra hnone
          apply hall
          apply (eq_allOnes_iff_wordBits byte).mpr
          simpa using hnone
        rw [if_pos hall, hbits, Bool.false_and]

def bitChar (bit : Bool) : Char := if bit then '1' else '0'

theorem toString_eq (b : Bitmap N) : b.toString = b.bits.map bitChar := by
  have hbyte : ∀ (byte : BitVec 8) (str : List Char),
      toStringByte str byte = str ++ (wordBits byte).map bitChar := by
    intro byte
    rw [wordBits_eq_masks]
    unfold toStringByte
    induction List.range 8 with
    | nil => simp
    | cons i rest ih =>
        intro str
        rw [List.foldl_cons, ih]
        by_cases hmask : getMask byte i ≠ 0
        · rw [if_pos hmask, List.map_cons, List.map_cons, decide_eq_true hmask, List.append_assoc]
          rfl
        · rw [if_neg hmask, List.map_cons, List.map_cons, decide_eq_false hmask, List.append_assoc]
          rfl
  have hloop : ∀ (bytes : List (BitVec 8)) (str : List Char), bytes.foldl toStringByte str =
      str ++ (bytes.flatMap wordBits).map bitChar := by
    intro bytes
    induction bytes with
    | nil => simp
    | cons byte bytes ih =>
        intro str
        rw [List.foldl_cons, ih, hbyte, List.flatMap_cons, List.map_append, List.append_assoc]
  exact hloop b.bytes []

structure Shows (b : Bitmap N) (bits : List Bool) : Prop where
  size : bits.length = size N
  test : ∀ pos, b.test pos = bits[pos]?
  count : b.count.toNat = bits.count true
  any : b.any = bits.any id
  all : b.all = bits.all id
  none : b.none = !bits.any id
  toString : b.toString = bits.map bitChar

/-- Every run shows the vector of booleans under the same operations. -/
theorem bitmap_run (N : BitVec 64) (ops : List (Op (size N))) :
    ∃ b, ops.foldlM step (new N) = some b ∧
      b.Shows (ops.foldl Op.apply (List.replicate (size N) false)) := by
  have hstep : ∀ (b : Bitmap N) (bits : List Bool) (op : Op (Bitmap.size N)), b.bits = bits →
      ∃ next, b.step op = some next ∧ next.bits = op.apply bits := by
    rintro b _ op rfl
    exact b.step_bits op
  obtain ⟨b, hrun, hbits⟩ := Run.simulates (fun (b : Bitmap N) bits => b.bits = bits) hstep ops (bits_new N)
  refine ⟨b, hrun, ?_⟩
  rw [← hbits]
  exact {
    size := b.length_bits
    test := b.test_eq
    count := b.count_eq
    any := b.any_eq
    all := b.all_eq
    none := congrArg not b.any_eq
    toString := b.toString_eq
  }

end Bitmap

end RebuildTheWheel.TinySTL
