import Mathlib.Algebra.Group.Nat.Defs
import RebuildTheWheel.Data.Base64

namespace RebuildTheWheel.Nginx

open Data Data.Base64

/-! `ngx_encode_base64`, `ngx_decode_base64` and their `url` forms. -/

namespace Base64

abbrev equals : UInt8 := 61

def entry (basis : Bytes) (i : UInt8) : UInt8 := basis.getD i.toNat 0

def encodeInternal (basis : Bytes) (padding : Bool) : Bytes → Bytes
  | s₀ :: s₁ :: s₂ :: s =>
      entry basis (s₀ >>> 2 &&& 0x3f) :: entry basis ((s₀ &&& 3) <<< 4 ||| s₁ >>> 4) ::
        entry basis ((s₁ &&& 0x0f) <<< 2 ||| s₂ >>> 6) :: entry basis (s₂ &&& 0x3f) ::
          encodeInternal basis padding s
  | [s₀, s₁] =>
      entry basis (s₀ >>> 2 &&& 0x3f) :: entry basis ((s₀ &&& 3) <<< 4 ||| s₁ >>> 4) ::
        entry basis ((s₁ &&& 0x0f) <<< 2) :: if padding then [equals] else []
  | [s₀] =>
      entry basis (s₀ >>> 2 &&& 0x3f) :: entry basis ((s₀ &&& 3) <<< 4) ::
        if padding then [equals, equals] else []
  | [] => []

/-- The length of the text before `=`; `none` where a byte is no letter -/
def scan (basis : Bytes) : Bytes → Option Nat
  | [] => some 0
  | c :: src =>
      if c = equals then some 0
      else if entry basis c = 77 then none
      else (scan basis src).map (· + 1)

def decodeLoop (basis : Bytes) : Bytes → Bytes
  | s₀ :: s₁ :: s₂ :: s₃ :: s =>
      (entry basis s₀ <<< 2 ||| entry basis s₁ >>> 4) ::
        (entry basis s₁ <<< 4 ||| entry basis s₂ >>> 2) ::
          (entry basis s₂ <<< 6 ||| entry basis s₃) :: decodeLoop basis s
  | [s₀, s₁, s₂] =>
      [entry basis s₀ <<< 2 ||| entry basis s₁ >>> 4,
        entry basis s₁ <<< 4 ||| entry basis s₂ >>> 2]
  | [s₀, s₁] => [entry basis s₀ <<< 2 ||| entry basis s₁ >>> 4]
  | _ => []

/-- What is written to `dst`; `none` is `NGX_ERROR`, which comes before the first write. -/
def decodeInternal (basis : Bytes) (src : Bytes) : Option Bytes := do
  let len ← scan basis src
  if len % 4 = 1 then none else some (decodeLoop basis (src.take len))

def letters (last : Bytes) : Bytes :=
  (List.range' 65 26 ++ List.range' 97 26 ++ List.range' 48 10).map UInt8.ofNat ++ last

/-- `A` to `Z`, `a` to `z`, `0` to `9`, `+` and `/` -/
def basis64 : Bytes := letters [43, 47]

/-- The same with `-` and `_` -/
def basis64url : Bytes := letters [45, 95]

def values64 : Bytes := [
  77, 77, 77, 77, 77, 77, 77, 77, 77, 77, 77, 77, 77, 77, 77, 77,
  77, 77, 77, 77, 77, 77, 77, 77, 77, 77, 77, 77, 77, 77, 77, 77,
  77, 77, 77, 77, 77, 77, 77, 77, 77, 77, 77, 62, 77, 77, 77, 63,
  52, 53, 54, 55, 56, 57, 58, 59, 60, 61, 77, 77, 77, 77, 77, 77,
  77, 0, 1, 2, 3, 4, 5, 6, 7, 8, 9, 10, 11, 12, 13, 14,
  15, 16, 17, 18, 19, 20, 21, 22, 23, 24, 25, 77, 77, 77, 77, 77,
  77, 26, 27, 28, 29, 30, 31, 32, 33, 34, 35, 36, 37, 38, 39, 40,
  41, 42, 43, 44, 45, 46, 47, 48, 49, 50, 51, 77, 77, 77, 77, 77,
  77, 77, 77, 77, 77, 77, 77, 77, 77, 77, 77, 77, 77, 77, 77, 77,
  77, 77, 77, 77, 77, 77, 77, 77, 77, 77, 77, 77, 77, 77, 77, 77,
  77, 77, 77, 77, 77, 77, 77, 77, 77, 77, 77, 77, 77, 77, 77, 77,
  77, 77, 77, 77, 77, 77, 77, 77, 77, 77, 77, 77, 77, 77, 77, 77,
  77, 77, 77, 77, 77, 77, 77, 77, 77, 77, 77, 77, 77, 77, 77, 77,
  77, 77, 77, 77, 77, 77, 77, 77, 77, 77, 77, 77, 77, 77, 77, 77,
  77, 77, 77, 77, 77, 77, 77, 77, 77, 77, 77, 77, 77, 77, 77, 77,
  77, 77, 77, 77, 77, 77, 77, 77, 77, 77, 77, 77, 77, 77, 77, 77]

def values64url : Bytes := [
  77, 77, 77, 77, 77, 77, 77, 77, 77, 77, 77, 77, 77, 77, 77, 77,
  77, 77, 77, 77, 77, 77, 77, 77, 77, 77, 77, 77, 77, 77, 77, 77,
  77, 77, 77, 77, 77, 77, 77, 77, 77, 77, 77, 77, 77, 62, 77, 77,
  52, 53, 54, 55, 56, 57, 58, 59, 60, 61, 77, 77, 77, 77, 77, 77,
  77, 0, 1, 2, 3, 4, 5, 6, 7, 8, 9, 10, 11, 12, 13, 14,
  15, 16, 17, 18, 19, 20, 21, 22, 23, 24, 25, 77, 77, 77, 77, 63,
  77, 26, 27, 28, 29, 30, 31, 32, 33, 34, 35, 36, 37, 38, 39, 40,
  41, 42, 43, 44, 45, 46, 47, 48, 49, 50, 51, 77, 77, 77, 77, 77,
  77, 77, 77, 77, 77, 77, 77, 77, 77, 77, 77, 77, 77, 77, 77, 77,
  77, 77, 77, 77, 77, 77, 77, 77, 77, 77, 77, 77, 77, 77, 77, 77,
  77, 77, 77, 77, 77, 77, 77, 77, 77, 77, 77, 77, 77, 77, 77, 77,
  77, 77, 77, 77, 77, 77, 77, 77, 77, 77, 77, 77, 77, 77, 77, 77,
  77, 77, 77, 77, 77, 77, 77, 77, 77, 77, 77, 77, 77, 77, 77, 77,
  77, 77, 77, 77, 77, 77, 77, 77, 77, 77, 77, 77, 77, 77, 77, 77,
  77, 77, 77, 77, 77, 77, 77, 77, 77, 77, 77, 77, 77, 77, 77, 77,
  77, 77, 77, 77, 77, 77, 77, 77, 77, 77, 77, 77, 77, 77, 77, 77]

end Base64

open Base64

def encodeBase64 : Bytes → Bytes := encodeInternal basis64 true

def encodeBase64url : Bytes → Bytes := encodeInternal basis64url false

def decodeBase64 : Bytes → Option Bytes := decodeInternal values64

def decodeBase64url : Bytes → Option Bytes := decodeInternal values64url

namespace Base64

/-- A table of values reads what an alphabet writes. -/
structure Inverts (values basis : Bytes) : Prop where
  entry : ∀ i < 64, (values.getD (basis.getD i 0).toNat 0).toNat = i
  not_equals : ∀ i < 64, basis.getD i 0 ≠ equals

theorem values64_inverts : Inverts values64 basis64 where
  entry := by decide
  not_equals := by decide

theorem values64url_inverts : Inverts values64url basis64url where
  entry := by decide
  not_equals := by decide

def pads (padding : Bool) (n : Nat) : Bytes :=
  if padding then List.replicate (2 * n % 3) equals else []

theorem toNat_or {a b : UInt8} (k : Nat) (ha : 2 ^ k ∣ a.toNat) (hb : b.toNat < 2 ^ k) :
    (a ||| b).toNat = a.toNat + b.toNat := by
  obtain ⟨c, hc⟩ := ha
  rw [UInt8.toNat_or, hc, Nat.two_pow_add_eq_or_of_lt hb]

/-- The indices of the letters of the bytes `a`, `b` -/
theorem index_first : ∀ a : UInt8, (a >>> 2 &&& 0x3f).toNat = a.toNat / 4 := by
  apply Ascii.forall_byte
  decide

theorem index_last : ∀ a : UInt8, (a &&& 0x3f).toNat = a.toNat % 64 := by
  apply Ascii.forall_byte
  decide

theorem shifted : ∀ a : UInt8,
    ((a &&& 3) <<< 4).toNat = 16 * (a.toNat % 4) ∧ ((a &&& 0x0f) <<< 2).toNat = 4 * (a.toNat % 16) ∧
      (a <<< 2).toNat = 4 * (a.toNat % 64) ∧ (a <<< 4).toNat = 16 * (a.toNat % 16) ∧
      (a <<< 6).toNat = 64 * (a.toNat % 4) := by
  apply Ascii.forall_byte
  decide

theorem dropped : ∀ a : UInt8, (a >>> 4).toNat = a.toNat / 16 ∧ (a >>> 6).toNat = a.toNat / 64 ∧
    (a >>> 2).toNat = a.toNat / 4 := by
  apply Ascii.forall_byte
  decide

theorem index_second (a b : UInt8) :
    ((a &&& 3) <<< 4 ||| b >>> 4).toNat = a.toNat % 4 * 16 + b.toNat / 16 := by
  have hb := b.toNat_lt
  rw [toNat_or 4, (shifted a).1, (dropped b).1, Nat.mul_comm]
  · rw [(shifted a).1]
    exact Nat.dvd_mul_right _ _
  · rw [(dropped b).1]
    omega

theorem index_third (a b : UInt8) :
    ((a &&& 0x0f) <<< 2 ||| b >>> 6).toNat = a.toNat % 16 * 4 + b.toNat / 64 := by
  have hb := b.toNat_lt
  rw [toNat_or 2, (shifted a).2.1, (dropped b).2.1, Nat.mul_comm]
  · rw [(shifted a).2.1]
    exact Nat.dvd_mul_right _ _
  · rw [(dropped b).2.1]
    omega

theorem encodeInternal_eq (basis : Bytes) (padding : Bool) (s : Bytes) :
    encodeInternal basis padding s =
      (sextets s).map (basis.getD · 0) ++ pads padding s.length := by
  induction s using sextets.induct with
  | case1 a b c s ih =>
      have hpads : pads padding (s.length + 3) = pads padding s.length := by
        rw [pads, pads]
        congr 2
        omega
      simp only [encodeInternal, sextets, entry, index_first, index_second, index_third, index_last c,
        ih, List.map_cons, List.cons_append, List.length_cons, hpads]
  | case2 a b =>
      simp only [encodeInternal, sextets, entry, index_first, index_second, (shifted b).2.1,
        List.map_cons, List.cons_append, Nat.mul_comm 4]
      cases padding <;> simp [pads]
  | case3 a =>
      simp only [encodeInternal, sextets, entry, index_first, (shifted a).1, List.map_cons,
        List.cons_append, Nat.mul_comm 16]
      cases padding <;> simp [pads]
  | case4 => cases padding <;> rfl

theorem length_encodeInternal (basis : Bytes) (padding : Bool) (s : Bytes) :
    (encodeInternal basis padding s).length =
      if padding then 4 * ((s.length + 2) / 3) else (4 * s.length + 2) / 3 := by
  rw [encodeInternal_eq, List.length_append, List.length_map, length_sextets, pads]
  cases padding
  · rfl
  · rw [if_pos rfl, if_pos rfl, List.length_replicate]
    obtain ⟨q, h | h | h⟩ : ∃ q, s.length = 3 * q ∨ s.length = 3 * q + 1 ∨ s.length = 3 * q + 2 :=
      ⟨s.length / 3, by omega⟩
    · omega
    · omega
    · omega

theorem length_decodeLoop (basis s : Bytes) : (decodeLoop basis s).length = 3 * s.length / 4 := by
  induction s using decodeLoop.induct with
  | case1 s₀ s₁ s₂ s₃ s ih =>
      simp only [decodeLoop, List.length_cons, ih]
      omega
  | case2 s₀ s₁ s₂ => simp [decodeLoop]
  | case3 s₀ s₁ => simp [decodeLoop]
  | case4 s h4 h3 h2 =>
      rcases s with _ | ⟨s₀, _ | ⟨s₁, s⟩⟩
      · rfl
      · simp [decodeLoop]
      · rcases s with _ | ⟨s₂, _ | ⟨s₃, s⟩⟩
        · exact (h2 s₀ s₁ rfl).elim
        · exact (h3 s₀ s₁ s₂ rfl).elim
        · exact (h4 s₀ s₁ s₂ s₃ s rfl).elim

theorem or_eq_ofNat {a b : UInt8} {x : Nat} (k : Nat) (ha : a.toNat = 2 ^ k * x)
    (hb : b.toNat < 2 ^ k) : a ||| b = UInt8.ofNat (x * 2 ^ k + b.toNat) := by
  rw [← UInt8.ofNat_toNat (x := a ||| b), toNat_or k ⟨x, ha⟩ hb, ha, Nat.mul_comm]

theorem decodeLoop_eq {values s : Bytes} (h : ∀ c ∈ s, (entry values c).toNat < 64) :
    decodeLoop values s = octets (s.map fun c => (entry values c).toNat) := by
  have hfirst {a b : UInt8} (ha : a.toNat < 64) (hb : b.toNat < 64) :
      a <<< 2 ||| b >>> 4 = UInt8.ofNat (a.toNat * 4 + b.toNat / 16) := by
    have hlow : (b >>> 4).toNat < 2 ^ 2 := by
      rw [(dropped b).1]
      omega
    rw [or_eq_ofNat 2 (shifted a).2.2.1 hlow, (dropped b).1, Nat.mod_eq_of_lt ha]
    rfl
  have hsecond {b c : UInt8} (hc : c.toNat < 64) :
      b <<< 4 ||| c >>> 2 = UInt8.ofNat (b.toNat % 16 * 16 + c.toNat / 4) := by
    have hlow : (c >>> 2).toNat < 2 ^ 4 := by
      rw [(dropped c).2.2]
      omega
    rw [or_eq_ofNat 4 (shifted b).2.2.2.1 hlow, (dropped c).2.2]
    rfl
  have hthird {c d : UInt8} (hd : d.toNat < 64) :
      c <<< 6 ||| d = UInt8.ofNat (c.toNat % 4 * 64 + d.toNat) :=
    or_eq_ofNat 6 (shifted c).2.2.2.2 hd
  induction s using decodeLoop.induct with
  | case1 s₀ s₁ s₂ s₃ s ih =>
      simp only [List.forall_mem_cons] at h
      obtain ⟨h₀, h₁, h₂, h₃, hs⟩ := h
      simp only [decodeLoop, List.map_cons, octets, hfirst h₀ h₁, hsecond h₂, hthird h₃, ih hs]
  | case2 s₀ s₁ s₂ =>
      simp only [List.forall_mem_cons] at h
      obtain ⟨h₀, h₁, h₂, -⟩ := h
      simp only [decodeLoop, List.map_cons, List.map_nil, octets, hfirst h₀ h₁, hsecond h₂]
  | case3 s₀ s₁ =>
      simp only [List.forall_mem_cons] at h
      obtain ⟨h₀, h₁, -⟩ := h
      simp only [decodeLoop, List.map_cons, List.map_nil, octets, hfirst h₀ h₁]
  | case4 s h4 h3 h2 =>
      rcases s with _ | ⟨s₀, _ | ⟨s₁, s⟩⟩
      · rfl
      · simp [decodeLoop, octets]
      · rcases s with _ | ⟨s₂, _ | ⟨s₃, s⟩⟩
        · exact (h2 s₀ s₁ rfl).elim
        · exact (h3 s₀ s₁ s₂ rfl).elim
        · exact (h4 s₀ s₁ s₂ s₃ s rfl).elim

/-- The scan stops at the padding. -/
theorem scan_append {values text : Bytes} (n : Nat)
    (h : ∀ c ∈ text, c ≠ equals ∧ entry values c ≠ 77) :
    scan values (text ++ List.replicate n equals) = some text.length := by
  induction text with
  | nil => cases n <;> rfl
  | cons c text ih =>
      obtain ⟨hc, htext⟩ := List.forall_mem_cons.mp h
      rw [List.cons_append, scan, if_neg hc.1, if_neg hc.2, ih htext]
      rfl

theorem decodeInternal_encodeInternal {values basis : Bytes} (h : Inverts values basis)
    (padding : Bool) (s : Bytes) :
    decodeInternal values (encodeInternal basis padding s) = some s := by
  have hpads : ∃ n, pads padding s.length = List.replicate n equals := by
    cases padding
    · exact ⟨0, rfl⟩
    · exact ⟨_, rfl⟩
  obtain ⟨n, hn⟩ := hpads
  have hentry : ∀ i ∈ sextets s, (entry values (basis.getD i 0)).toNat = i :=
    fun i hi => h.entry i (lt_of_mem_sextets hi)
  have hletters : ∀ c ∈ (sextets s).map (basis.getD · 0), c ≠ equals ∧
      (entry values c).toNat < 64 := by
    rw [List.forall_mem_map]
    intro i hi
    rw [hentry i hi]
    exact ⟨h.not_equals i (lt_of_mem_sextets hi), lt_of_mem_sextets hi⟩
  have hplain : ∀ c ∈ (sextets s).map (basis.getD · 0), c ≠ equals ∧ entry values c ≠ 77 := by
    intro c hc
    refine ⟨(hletters c hc).1, fun hvalue => ?_⟩
    have hlt := (hletters c hc).2
    rw [hvalue] at hlt
    exact absurd hlt (by decide)
  have hscan := scan_append n hplain
  have hlength : (4 * s.length + 2) / 3 % 4 ≠ 1 := by
    obtain ⟨q, h | h | h⟩ : ∃ q, s.length = 3 * q ∨ s.length = 3 * q + 1 ∨ s.length = 3 * q + 2 :=
      ⟨s.length / 3, by omega⟩
    · omega
    · omega
    · omega
  rw [decodeInternal, encodeInternal_eq, hn, hscan, Option.bind_eq_bind, Option.bind_some,
    List.length_map, length_sextets, if_neg hlength, ← length_sextets,
    ← List.length_map (f := (basis.getD · 0)), List.take_left,
    decodeLoop_eq fun c hc => (hletters c hc).2, List.map_map]
  have hmap : (sextets s).map ((fun c => (entry values c).toNat) ∘ (basis.getD · 0)) = sextets s :=
    (List.map_congr_left hentry).trans (List.map_id _)
  rw [hmap, octets_sextets]

theorem length_decodeInternal_le (values src : Bytes) :
    ((decodeInternal values src).elim 0 List.length) ≤ 3 * ((src.length + 3) / 4) := by
  rw [decodeInternal]
  cases hscan : scan values src with
  | none => exact Nat.zero_le _
  | some len =>
      rw [Option.bind_eq_bind, Option.bind_some]
      split
      · exact Nat.zero_le _
      · rw [Option.elim_some, length_decodeLoop, List.length_take]
        omega

/-- Both alphabets: what is encoded is read back, and nobody writes more than the length
macros say. -/
theorem base64_roundtrip (s : Bytes) :
    (decodeBase64 (encodeBase64 s) = some s ∧ decodeBase64url (encodeBase64url s) = some s) ∧
      (encodeBase64 s).length = 4 * ((s.length + 2) / 3) ∧
      (encodeBase64url s).length = (4 * s.length + 2) / 3 ∧
      ∀ src : Bytes, (decodeBase64 src).elim 0 List.length ≤ 3 * ((src.length + 3) / 4) ∧
        (decodeBase64url src).elim 0 List.length ≤ 3 * ((src.length + 3) / 4) :=
  ⟨⟨decodeInternal_encodeInternal values64_inverts true s,
      decodeInternal_encodeInternal values64url_inverts false s⟩,
    length_encodeInternal basis64 true s, length_encodeInternal basis64url false s,
    fun src => ⟨length_decodeInternal_le values64 src, length_decodeInternal_le values64url src⟩⟩

end Base64

end RebuildTheWheel.Nginx
