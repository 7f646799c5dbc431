import Mathlib.Tactic.IntervalCases
import RebuildTheWheel.Data.Utf8Encoding

namespace RebuildTheWheel.Nginx

open Data Data.Utf8Encoding

/-! `ngx_utf8_decode`. -/

namespace Utf8Decode

abbrev error : UInt32 := 0xffffffff
abbrev incomplete : UInt32 := 0xfffffffe

/-- The loop over the trailing bytes, with the bytes it advances over; `none` stands for a read
behind the `n` bytes. -/
def trailing (valid : UInt32) : Nat → UInt32 → Bytes → Option (UInt32 × Nat)
  | 0, u, _ => some (if valid < u then u else error, 0)
  | _ + 1, _, [] => none
  | len + 1, u, i :: p =>
      if i < 0x80 then some (error, 1)
      else (trailing valid len (u <<< 6 ||| i.toUInt32 &&& 0x3f) p).map fun r => (r.1, r.2 + 1)

/-- The bits of the lead byte, `valid` and `len` -/
def lead (u : UInt32) : Option (UInt32 × UInt32 × Nat) :=
  if 0xf0 ≤ u then some (u &&& 0x07, 0xffff, 3)
  else if 0xe0 ≤ u then some (u &&& 0x0f, 0x7ff, 2)
  else if 0xc2 ≤ u then some (u &&& 0x1f, 0x7f, 1)
  else none

end Utf8Decode

open Utf8Decode

/-- What `ngx_utf8_decode(&p, n)` returns, and how far it advances `p` -/
def utf8Decode (n : Nat) : Bytes → Option (UInt32 × Nat)
  | [] => none
  | c :: p =>
      match lead c.toUInt32 with
      | none => some (error, 1)
      | some (u, valid, len) =>
          if n - 1 < len then some (incomplete, 0)
          else (trailing valid len u p).map fun r => (r.1, r.2 + 1)

namespace Utf8Decode

/-- A lead byte from 0xf8 on loses its fourth bit. -/
def clearLead (a : UInt8) : UInt8 := if 0xf8 ≤ a then a &&& 0xf7 else a

/-- The bits that the masks do not let through: bit 3 of such a lead byte, bit 6 of every other
byte. -/
def cleared : Bytes → Bytes
  | [] => []
  | a :: p => clearLead a :: p.map (· &&& 0xbf)

theorem toNat_shift {u : UInt32} (hu : u.toNat < 2 ^ 26) (i : UInt8) :
    (u <<< 6 ||| i.toUInt32 &&& 0x3f).toNat = u.toNat * 64 + i.toNat % 64 := by
  have hlow : (i.toUInt32 &&& 0x3f).toNat = i.toNat % 64 := by
    rw [UInt32.toNat_and, UInt8.toNat_toUInt32]
    exact Nat.and_two_pow_sub_one_eq_mod _ 6
  have hhigh : (u <<< 6).toNat = 2 ^ 6 * u.toNat := by
    rw [UInt32.toNat_shiftLeft]
    change u.toNat <<< 6 % 2 ^ 32 = _
    rw [Nat.shiftLeft_eq, Nat.mod_eq_of_lt (by omega), Nat.mul_comm]
  rw [UInt32.toNat_or, hlow, hhigh, ← Nat.two_pow_add_eq_or_of_lt (Nat.mod_lt _ (by decide))]
  omega

theorem trailing_spec {valid u : UInt32} {len : Nat} {p : Bytes} (hlen : len ≤ p.length)
    (hu : (u.toNat + 1) * 64 ^ len ≤ 2 ^ 32) :
    ∃ r, trailing valid len u p = some r ∧ (r.1.toNat ≤ 0x10ffff → r.2 = len) ∧
      ∀ v ≤ 0x10ffff, r.1.toNat = v ↔
        valid.toNat < v ∧ (∀ b ∈ p.take len, 0x80 ≤ b) ∧ value u.toNat (p.take len) = v := by
  have herror : ∀ v ≤ 0x10ffff, error.toNat ≠ v := by
    intro v hv
    change 4294967295 ≠ v
    omega
  induction len generalizing u p with
  | zero =>
      refine ⟨_, rfl, fun _ => rfl, fun v hv => ?_⟩
      rw [List.take_zero]
      change _ ↔ _ ∧ _ ∧ u.toNat = v
      by_cases hvalid : valid < u
      · rw [if_pos hvalid]
        rw [UInt32.lt_iff_toNat_lt] at hvalid
        exact ⟨fun h => ⟨h ▸ hvalid, fun _ hb => absurd hb List.not_mem_nil, h⟩, fun h => h.2.2⟩
      · rw [if_neg hvalid]
        rw [UInt32.lt_iff_toNat_lt] at hvalid
        exact ⟨fun h => absurd h (herror v hv), fun h => absurd (h.2.2 ▸ h.1) hvalid⟩
  | succ len ih =>
      cases p with
      | nil => cases hlen
      | cons i p =>
          rw [trailing, List.take_succ_cons]
          by_cases hi : i < 0x80
          · rw [if_pos hi]
            refine ⟨_, rfl, fun h => absurd rfl (herror _ h), fun v hv => ?_⟩
            refine ⟨fun h => absurd h (herror v hv), fun h => ?_⟩
            exact absurd (h.2.1 i List.mem_cons_self) (UInt8.not_le.mpr hi)
          · have hsmall : u.toNat < 2 ^ 26 := by
              have hone := Nat.one_le_pow len 64 (by decide)
              have hpow : (u.toNat + 1) * 64 ≤ (u.toNat + 1) * 64 ^ (len + 1) := by
                rw [Nat.pow_succ]
                exact Nat.mul_le_mul_left _ (Nat.le_mul_of_pos_left 64 hone)
              omega
            have hnext : (u.toNat * 64 + i.toNat % 64 + 1) * 64 ^ len ≤ 2 ^ 32 := by
              refine Nat.le_trans ?_ hu
              rw [Nat.pow_succ', ← Nat.mul_assoc]
              apply Nat.mul_le_mul_right
              omega
            rw [← toNat_shift hsmall i] at hnext
            obtain ⟨r, hr, hadvance, hvalue⟩ := ih (Nat.le_of_succ_le_succ hlen) hnext
            rw [if_neg hi, hr]
            refine ⟨_, rfl, fun h => congrArg Nat.succ (hadvance h), fun v hv => ?_⟩
            rw [hvalue v hv, toNat_shift hsmall, List.forall_mem_cons,
              and_iff_right (UInt8.not_lt.mp hi)]
            rfl

theorem lead_none : ∀ a : UInt8, 0x80 ≤ a → lead a.toUInt32 = none → (clearLead a).toNat < 0xc2 := by
  apply Ascii.forall_byte
  decide

theorem lead_some : ∀ a : UInt8, ∀ r ∈ lead a.toUInt32,
    (1 ≤ r.2.2 ∧ r.2.2 ≤ 3) ∧ (clearLead a).toNat = mark r.2.2 + r.1.toNat ∧
      r.1.toNat < 2 ^ (6 - r.2.2) ∧ r.2.1.toNat + 1 = max 0x80 (2 ^ (5 * r.2.2 + 1)) := by
  apply Ascii.forall_byte
  decide

theorem isTail_clear : ∀ b : UInt8, (IsTail (b &&& 0xbf) ↔ 0x80 ≤ b) ∧
    (b &&& 0xbf).toNat % 64 = b.toNat % 64 ∧ (IsTail b → b &&& 0xbf = b) := by
  apply Ascii.forall_byte
  decide

theorem mark_eq_iff {v u k : Nat} (hk : 1 ≤ k ∧ k ≤ 3) (hu : u < 2 ^ (6 - k)) (hv : v ≤ 0x10ffff) :
    mark (trail v) + v / 64 ^ trail v = mark k + u ↔ trail v = k ∧ u = v / 64 ^ k := by
  obtain ⟨hlow, hhigh⟩ := trail_le v
  obtain ⟨hlower, hupper⟩ := (trail_eq_iff ⟨hlow, hhigh⟩).mp (rfl : trail v = trail v)
  generalize trail v = t at *
  obtain ⟨hk, hk'⟩ := hk
  interval_cases t <;> interval_cases k <;> simp only [mark, Nat.reducePow, true_and] at * <;> omega

/-- A lead byte and `valid` agree on how many bytes follow. -/
theorem valid_iff {v u k : Nat} (hk : 1 ≤ k ∧ k ≤ 3) (hu : u < 2 ^ (6 - k)) (h : u = v / 64 ^ k) :
    max 0x80 (2 ^ (5 * k + 1)) ≤ v ↔ 0x80 ≤ v ∧ trail v = k := by
  rw [trail_eq_iff hk]
  obtain ⟨hk, hk'⟩ := hk
  interval_cases k <;> simp only [Nat.reducePow] at * <;> omega

theorem value_clear (u : Nat) (p : Bytes) : value u (p.map (· &&& 0xbf)) = value u p := by
  induction p generalizing u with
  | nil => rfl
  | cons b p ih =>
      change value (u * 64 + (b &&& 0xbf).toNat % 64) _ = _
      rw [(isTail_clear b).2.1]
      exact ih _

theorem leadByte_toNat {v : Nat} (hv : v ≤ 0x10ffff) :
    (UInt8.ofNat (mark (trail v) + v / 64 ^ trail v)).toNat = mark (trail v) + v / 64 ^ trail v ∧
      mark (trail v) + v / 64 ^ trail v < 0xf8 ∧
      (0x80 ≤ v → 0xc2 ≤ mark (trail v) + v / 64 ^ trail v) := by
  obtain ⟨hlow, hhigh⟩ := trail_le v
  obtain ⟨hlower, hupper⟩ := (trail_eq_iff ⟨hlow, hhigh⟩).mp (rfl : trail v = trail v)
  rw [UInt8.toNat_ofNat']
  generalize trail v = t at *
  interval_cases t <;> simp only [mark, Nat.reducePow] at * <;> omega

theorem encode_prefix_iff {v : Nat} {a : UInt8} {p : Bytes} :
    encode v <+: cleared (a :: p) ↔
      clearLead a = UInt8.ofNat (mark (trail v) + v / 64 ^ trail v) ∧
        tails v (trail v) <+: p.map (· &&& 0xbf) := by
  rw [encode, cleared, List.cons_prefix_cons, eq_comm]

/-- What the loop accepts behind the lead byte are the tails of the value. -/
theorem digits_iff {v u k : Nat} {p : Bytes} (hk : k ≤ p.length) :
    ((∀ b ∈ p.take k, 0x80 ≤ b) ∧ value u (p.take k) = v) ↔
      u = v / 64 ^ k ∧ tails v k <+: p.map (· &&& 0xbf) := by
  have hlength : ((p.take k).map (· &&& 0xbf)).length = k := by
    rw [List.length_map, List.length_take, Nat.min_eq_left hk]
  have hprefix : tails v k <+: p.map (· &&& 0xbf) ↔
      (p.take k).map (· &&& 0xbf) = tails v k := by
    rw [List.prefix_iff_eq_take, length_tails, ← List.map_take, eq_comm]
  have htails : (∀ b ∈ p.take k, 0x80 ≤ b) ↔ ∀ b ∈ (p.take k).map (· &&& 0xbf), IsTail b := by
    rw [List.forall_mem_map]
    exact forall₂_congr fun b _ => (isTail_clear b).1.symm
  rw [htails, ← value_clear, hprefix]
  constructor
  · rintro ⟨hall, hvalue⟩
    rwa [value_eq_iff hall, hlength] at hvalue
  · rintro ⟨hu, heq⟩
    have hall : ∀ b ∈ (p.take k).map (· &&& 0xbf), IsTail b := by
      rw [heq]
      exact fun b hb => isTail_of_mem_tails hb
    refine ⟨hall, ?_⟩
    rw [value_eq_iff hall, hlength]
    exact ⟨hu, heq⟩

/-- The values that are returned are those that the cleared bytes begin with. -/
theorem utf8Decode_spec {a : UInt8} (ha : 0x80 ≤ a) (p : Bytes) :
    ∃ r, utf8Decode (a :: p).length (a :: p) = some r ∧
      (∀ v ≤ 0x10ffff, r.1.toNat = v ↔ 0x80 ≤ v ∧ encode v <+: cleared (a :: p)) ∧
      (r.1.toNat ≤ 0x10ffff → r.2 = (encode r.1.toNat).length) := by
  have hlarge {u : UInt32} (hu : 0xfffffffe ≤ u) : 0x10ffff < u.toNat := by
    rw [UInt32.le_iff_toNat_le] at hu
    exact Nat.lt_of_lt_of_le (by decide) hu
  rw [utf8Decode]
  cases hlead : lead a.toUInt32 with
  | none =>
      have hsmall := lead_none a ha hlead
      have herror := hlarge (u := error) (by decide)
      refine ⟨_, rfl, fun v hv => ?_, fun h => absurd h (Nat.not_le.mpr herror)⟩
      refine ⟨fun h => absurd hv (Nat.not_le.mpr (h ▸ herror)), ?_⟩
      rintro ⟨hge, hencode⟩
      rw [encode_prefix_iff] at hencode
      obtain ⟨hbyte, hlt, hleast⟩ := leadByte_toNat hv
      rw [hencode.1, hbyte] at hsmall
      exact absurd (hleast hge) (Nat.not_le.mpr hsmall)
  | some bits =>
      obtain ⟨u, valid, k⟩ := bits
      obtain ⟨hk, hclear, hu, hvalid⟩ := lead_some a _ hlead
      have hmatch : ∀ v ≤ 0x10ffff, (0x80 ≤ v ∧ encode v <+: cleared (a :: p)) ↔
          valid.toNat < v ∧ u.toNat = v / 64 ^ k ∧ tails v k <+: p.map (· &&& 0xbf) := by
        intro v hv
        have hbyte : clearLead a = UInt8.ofNat (mark (trail v) + v / 64 ^ trail v) ↔
            trail v = k ∧ u.toNat = v / 64 ^ k := by
          rw [← mark_eq_iff hk hu hv, ← UInt8.toNat_inj, (leadByte_toNat hv).1, hclear, eq_comm]
        rw [encode_prefix_iff, hbyte, ← Nat.succ_le_iff, Nat.succ_eq_add_one, hvalid]
        constructor
        · rintro ⟨hge, ⟨htrail, hbits⟩, htails⟩
          exact ⟨(valid_iff hk hu hbits).mpr ⟨hge, htrail⟩, hbits, htrail ▸ htails⟩
        · rintro ⟨hvalid, hbits, htails⟩
          obtain ⟨hge, htrail⟩ := (valid_iff hk hu hbits).mp hvalid
          exact ⟨hge, ⟨htrail, hbits⟩, htrail.symm ▸ htails⟩
      dsimp only
      rw [List.length_cons, Nat.add_sub_cancel]
      by_cases hlen : p.length < k
      · rw [if_pos hlen]
        have hincomplete := hlarge (u := incomplete) (by decide)
        refine ⟨_, rfl, fun v hv => ?_, fun h => absurd h (Nat.not_le.mpr hincomplete)⟩
        rw [hmatch v hv]
        refine ⟨fun h => absurd hv (Nat.not_le.mpr (h ▸ hincomplete)), ?_⟩
        rintro ⟨-, -, htails⟩
        have hle := htails.length_le
        rw [length_tails, List.length_map] at hle
        exact absurd hlen (Nat.not_lt.mpr hle)
      · rw [if_neg hlen]
        have hfits : (u.toNat + 1) * 64 ^ k ≤ 2 ^ 32 := by
          obtain ⟨hlow, hhigh⟩ := hk
          interval_cases k <;> simp only [Nat.reducePow] at * <;> omega
        obtain ⟨r, hr, hadvance, hvalue⟩ := trailing_spec (Nat.not_lt.mp hlen) hfits
        rw [hr]
        refine ⟨_, rfl, fun v hv => ?_, fun h => ?_⟩
        · rw [hmatch v hv, ← digits_iff (Nat.not_lt.mp hlen)]
          exact hvalue v hv
        · obtain ⟨hlt, hdigits⟩ := (hvalue _ h).mp rfl
          obtain ⟨hbits, -⟩ := (digits_iff (Nat.not_lt.mp hlen)).mp hdigits
          rw [← Nat.succ_le_iff, Nat.succ_eq_add_one, hvalid] at hlt
          rw [length_encode, ((valid_iff hk hu hbits).mp hlt).2]
          exact congrArg Nat.succ (hadvance h)

/-- The values returned up to 0x10ffff are those of the encodings of RFC 3629 that the bytes begin
with, and no byte behind them is read. -/
def Decodes (s : Bytes) : Prop :=
  ∃ r, utf8Decode s.length s = some r ∧
    (r.1.toNat ≤ 0x10ffff ↔ ∃ c : Char, 0x80 ≤ c.toNat ∧ String.utf8EncodeChar c <+: s) ∧
    ∀ c : Char, 0x80 ≤ c.toNat → String.utf8EncodeChar c <+: s →
      r.1.toNat = c.toNat ∧ r.2 = (String.utf8EncodeChar c).length

/-- Where the bytes, cleared, begin with an encoding, none of them was changed, and it is no
surrogate's. -/
def Plain (s : Bytes) : Prop :=
  ∀ v ≥ 0x80, v ≤ 0x10ffff → encode v <+: cleared s →
    (∀ a ∈ s.head?, a < 0xf8) ∧ (∀ b ∈ (s.take (encode v).length).tail, b < 0xc0) ∧
      ¬(0xd800 ≤ v ∧ v ≤ 0xdfff)

theorem clearLead_of_lt {a : UInt8} (ha : a < 0xf8) : clearLead a = a :=
  if_neg (UInt8.not_le.mpr ha)

theorem encode_prefix_cons {v : Nat} {a : UInt8} {p : Bytes} :
    encode v <+: a :: p ↔ a = UInt8.ofNat (mark (trail v) + v / 64 ^ trail v) ∧
      tails v (trail v) <+: p := by
  rw [encode, List.cons_prefix_cons, eq_comm]

/-- The bytes of an encoding are not changed. -/
theorem cleared_of_encode {v : Nat} {s : Bytes} (hv : v ≤ 0x10ffff) (h : encode v <+: s) :
    encode v <+: cleared s ∧ (∀ a ∈ s.head?, a < 0xf8) ∧
      ∀ b ∈ (s.take (encode v).length).tail, b < 0xc0 := by
  cases s with
  | nil => exact absurd (List.prefix_nil.mp h) (List.cons_ne_nil _ _)
  | cons a p =>
      obtain ⟨rfl, htails⟩ := encode_prefix_cons.mp h
      obtain ⟨hbyte, hlt, -⟩ := leadByte_toNat hv
      have hlead : UInt8.ofNat (mark (trail v) + v / 64 ^ trail v) < 0xf8 := by
        rw [UInt8.lt_iff_toNat_lt, hbyte]
        exact hlt
      have hkept : (tails v (trail v)).map (· &&& 0xbf) = tails v (trail v) :=
        (List.map_congr_left fun b hb => (isTail_clear b).2.2 (isTail_of_mem_tails hb)).trans
          (List.map_id _)
      refine ⟨?_, ?_, fun b hb => ?_⟩
      · rw [encode_prefix_iff, clearLead_of_lt hlead, ← hkept]
        exact ⟨rfl, htails.map _⟩
      · rintro b ⟨⟩
        exact hlead
      · rw [length_encode, List.take_succ_cons, List.tail_cons] at hb
        have htake := List.prefix_iff_eq_take.mp htails
        rw [length_tails] at htake
        rw [← htake] at hb
        exact (isTail_of_mem_tails hb).2

theorem encode_of_cleared {v : Nat} {s : Bytes} (h : encode v <+: cleared s)
    (hlead : ∀ a ∈ s.head?, a < 0xf8)
    (htail : ∀ b ∈ (s.take (encode v).length).tail, b < 0xc0) : encode v <+: s := by
  cases s with
  | nil => exact absurd (List.prefix_nil.mp h) (List.cons_ne_nil _ _)
  | cons a p =>
      obtain ⟨hbyte, htails⟩ := encode_prefix_iff.mp h
      rw [clearLead_of_lt (hlead a rfl)] at hbyte
      rw [length_encode, List.take_succ_cons, List.tail_cons] at htail
      have htake := List.prefix_iff_eq_take.mp htails
      rw [length_tails, ← List.map_take] at htake
      have hsame : (p.take (trail v)).map (· &&& 0xbf) = p.take (trail v) := by
        refine (List.map_congr_left fun b hb => ?_).trans (List.map_id _)
        have hclear : IsTail (b &&& 0xbf) := by
          apply isTail_of_mem_tails (v := v) (k := trail v)
          rw [htake]
          exact List.mem_map_of_mem hb
        exact (isTail_clear b).2.2 ⟨(isTail_clear b).1.mp hclear, htail b hb⟩
      rw [encode_prefix_cons]
      refine ⟨hbyte, List.prefix_iff_eq_take.mpr ?_⟩
      rw [length_tails, ← hsame]
      exact htake

/-- The bytes that fail are decoded as if they were other ones, or are a surrogate's. -/
theorem decodes_iff {a : UInt8} (ha : 0x80 ≤ a) (p : Bytes) : Decodes (a :: p) ↔ Plain (a :: p) := by
  obtain ⟨r, hr, hvalue, hadvance⟩ := utf8Decode_spec ha p
  constructor
  · rintro ⟨r', hr', hiff, hchar⟩ v hge hv hencode
    obtain rfl := Option.some.inj (hr.symm.trans hr')
    have heq := (hvalue v hv).mpr ⟨hge, hencode⟩
    obtain ⟨c, hc, hbegins⟩ := hiff.mp (heq ▸ hv)
    have hsame := (hchar c hc hbegins).1.symm.trans heq
    rw [← encode_toNat hc, hsame] at hbegins
    have hvalid := exists_char_iff.mp ⟨c, hsame⟩
    exact ⟨(cleared_of_encode hv hbegins).2.1, (cleared_of_encode hv hbegins).2.2, by omega⟩
  · intro hplain
    have hchar : ∀ c : Char, 0x80 ≤ c.toNat → String.utf8EncodeChar c <+: a :: p →
        r.1.toNat = c.toNat ∧ r.2 = (String.utf8EncodeChar c).length := by
      intro c hc hbegins
      have hle := Nat.le_of_lt_succ (lt_of_char c)
      rw [← encode_toNat hc] at hbegins ⊢
      have heq := (hvalue c.toNat hle).mpr ⟨hc, (cleared_of_encode hle hbegins).1⟩
      exact ⟨heq, heq ▸ hadvance (heq ▸ hle)⟩
    refine ⟨r, hr, ⟨fun hle => ?_, ?_⟩, hchar⟩
    · obtain ⟨hge, hencode⟩ := (hvalue _ hle).mp rfl
      obtain ⟨hlead, htail, hsurrogate⟩ := hplain _ hge hle hencode
      obtain ⟨c, hc⟩ := exists_char_iff.mpr (show r.1.toNat < 0xd800 ∨ _ by omega)
      have hbegins := encode_of_cleared hencode hlead htail
      rw [← hc] at hge hbegins
      exact ⟨c, hge, encode_toNat hge ▸ hbegins⟩
    · rintro ⟨c, hc, hbegins⟩
      rw [(hchar c hc hbegins).1]
      exact Nat.le_of_lt_succ (lt_of_char c)

theorem decodes_iff_two : (0x80 : UInt8) ≤ 0xc3 ∧ (Decodes [0xc3, 0xa9] ↔ Plain [0xc3, 0xa9]) :=
  ⟨by decide, decodes_iff (by decide) [0xa9]⟩

/-- The second byte begins a sequence, and U+0080 is returned. -/
theorem decodes_two_leads : ¬ ∀ a : UInt8, 0x80 ≤ a → ∀ p, Decodes (a :: p) := by
  intro h
  obtain ⟨r, hr, hiff, -⟩ := h 0xc2 (by decide) [0xc0]
  obtain rfl : (0x80, 2) = r := Option.some.inj hr
  obtain ⟨c, hc, hbegins⟩ := hiff.mp (by decide)
  rw [← encode_toNat hc] at hbegins
  have htails := (cleared_of_encode (Nat.le_of_lt_succ (lt_of_char c)) hbegins).2.2
  obtain ⟨hlow, -⟩ := trail_le c.toNat
  have hmem : (0xc0 : UInt8) ∈ ([0xc2, 0xc0].take (encode c.toNat).length).tail := by
    rw [length_encode, List.take_succ_cons, List.tail_cons, List.take_of_length_le hlow]
    exact List.mem_singleton_self _
  exact absurd (htails _ hmem) (by decide)

end Utf8Decode

end RebuildTheWheel.Nginx
