import RebuildTheWheel.Data.AddressPrefix
import RebuildTheWheel.Nginx.HttpArg
import RebuildTheWheel.Nginx.Inet6RoundTrip

namespace RebuildTheWheel.Nginx

open Data Data.Ascii Inet
open Data.AddressPrefix (masked byteMask prefixMask Agrees)
open HttpArg (strlchr)

/-! `ngx_ptocidr` and `ngx_cidr_match`. -/

namespace Cidr

abbrev maxInt : Int := 9223372036854775807

/-- `NGX_ERROR` -/
abbrev error : Int := -1

def atoiLoop (value : Int) : Bytes → Int
  | [] => value
  | c :: line =>
      if c < zero ∨ 57 < c then error
      else if maxInt / 10 ≤ value ∧ (maxInt / 10 < value ∨ maxInt % 10 < c.toNat - 48) then error
      else atoiLoop (value * 10 + (c.toNat - 48)) line

def atoi (line : Bytes) : Int := if line = [] then error else atoiLoop 0 line

inductive Family where
  | inet
  | inet6
  | unix
  deriving DecidableEq, Repr

inductive Status where
  | ok
  | done
  | declined
  deriving DecidableEq, Repr

end Cidr

open Cidr in
/-- The member of the union that belongs to the family, in network order -/
structure Cidr where
  family : Family
  addr : Bytes
  mask : Bytes
  deriving DecidableEq, Repr

namespace Cidr

/-- The family and the address of a text; `buffer` is what `u.in6.addr` holds before. -/
def readAddr (buffer addr : Bytes) : Option (Family × Bytes) :=
  let inaddr := inetAddr addr
  if inaddr ≠ inaddrNone then some (.inet, inaddr)
  else (inet6Addr addr buffer).map (.inet6, ·)

/-- The mask where the text has no slash -/
def fullMask : Family → Bytes
  | .inet6 => List.replicate 16 0xff
  | _ => [0xff, 0xff, 0xff, 0xff]

/-- The loop over the bytes of an IPv6 address -/
def maskInet6 (rc : Status) (shift : Nat) : Bytes → Status × Bytes × Bytes
  | [] => (rc, [], [])
  | b :: addr =>
      let s := if 8 < shift then 8 else shift
      let mask := byteMask s
      let (rc, b) := if b ≠ b &&& mask then (.done, b &&& mask) else (rc, b)
      let (rc, addr, masks) := maskInet6 rc (shift - s) addr
      (rc, b :: addr, mask :: masks)

def inetMask (shift : Nat) : Bytes :=
  if shift ≠ 0 then htonl (0xffffffff * 2 ^ (32 - shift) % 2 ^ 32) else [0, 0, 0, 0]

end Cidr

open Cidr in
/-- `NGX_ERROR` is `none`. -/
def ptocidr (buffer text : Bytes) : Option (Status × Cidr) :=
  let mask := strlchr text 0 slash
  match readAddr buffer (text.take (mask.getD text.length)) with
  | none => none
  | some (family, addr) =>
      match mask with
      | none => some (.ok, ⟨family, addr, fullMask family⟩)
      | some mask =>
          let shift := atoi (text.drop (mask + 1))
          if shift = error then none
          else
            match family with
            | .inet6 =>
                if 128 < shift then none
                else
                  let (rc, addr, mask) := maskInet6 .ok shift.toNat addr
                  some (rc, ⟨.inet6, addr, mask⟩)
            | family =>
                if 32 < shift then none
                else
                  let mask := inetMask shift.toNat
                  if addr = masked addr mask then some (.ok, ⟨family, addr, mask⟩)
                  else some (.done, ⟨family, masked addr mask, mask⟩)

namespace Cidr

inductive SockAddr where
  | inet (addr : { a : Bytes // a.length = 4 })
  | inet6 (addr : { a : Bytes // a.length = 16 })
  | unix

/-- `IN6_IS_ADDR_V4MAPPED` -/
def V4Mapped (a : Bytes) : Prop := a.take 12 = List.replicate 10 0 ++ [0xff, 0xff]

instance (a : Bytes) : Decidable (V4Mapped a) := inferInstanceAs (Decidable (_ = _))

/-- The family that is compared, and the address -/
def SockAddr.lookup : SockAddr → Family × Bytes
  | .inet addr => (.inet, addr.val)
  | .inet6 addr =>
      let p := addr.val
      if V4Mapped p then
        let inaddr := (p.getD 12 0).toNat * 2 ^ 24 + (p.getD 13 0).toNat * 2 ^ 16 +
          (p.getD 14 0).toNat * 2 ^ 8 + (p.getD 15 0).toNat
        (.inet, htonl (inaddr % 2 ^ 32))
      else (.inet6, p)
  | .unix => (.unix, [])

/-- The body of the loop in `ngx_cidr_match` -/
def hits (family : Family) (addr : Bytes) (cidr : Cidr) : Bool :=
  cidr.family == family &&
    match family with
    | .inet6 =>
        (List.range 16).all fun n => addr.getD n 0 &&& cidr.mask.getD n 0 == cidr.addr.getD n 0
    | .unix => true
    | .inet => masked addr cidr.mask == cidr.addr

def matchLoop (family : Family) (addr : Bytes) : List Cidr → Status
  | [] => .declined
  | cidr :: cidrs => if hits family addr cidr then .ok else matchLoop family addr cidrs

end Cidr

open Cidr in
def cidrMatch (sa : SockAddr) (cidrs : List Cidr) : Status :=
  matchLoop sa.lookup.1 sa.lookup.2 cidrs

namespace Inet6

/-! What the parser of an IPv6 address stores. -/

structure Fits (s : State) : Prop where
  length : s.addr.length + 2 * s.n = 16
  pos : 1 ≤ s.n
  zero : ∀ z ∈ s.zero, z ≤ s.addr.length

variable {s s' : State} {p buffer addr : Bytes}

theorem length_store (s : State) : s.store.length = s.addr.length + 2 := by
  rw [State.store, List.length_append]
  rfl

theorem Fits.parse (h : Fits s) (hparse : parse s p = some s') : Fits s' := by
  obtain ⟨hlength, hpos, hzero⟩ := h
  induction p generalizing s with
  | nil =>
      obtain rfl := Option.some.inj hparse
      exact ⟨hlength, hpos, hzero⟩
  | cons c p ih =>
      unfold Inet6.parse at hparse
      by_cases hcolon : c = colon
      · rw [if_pos hcolon] at hparse
        split_ifs at hparse with hnibbles hn hnone
        · refine ih hparse ?_ (by dsimp only; omega) fun z hz => ?_
          · rw [length_store]
            dsimp only
            omega
          · rw [length_store]
            exact Nat.le_add_right_of_le (hzero z hz)
        · refine ih hparse hlength hpos fun z hz => ?_
          obtain rfl := Option.some.inj hz
          exact le_rfl
      · rw [if_neg hcolon] at hparse
        by_cases hquad : c = point ∧ s.nibbles ≠ 0
        · rw [if_pos hquad] at hparse
          cases hdigit : s.digit with
          | none =>
              rw [hdigit] at hparse
              cases hparse
          | some digit =>
              rw [hdigit] at hparse
              dsimp only at hparse
              split_ifs at hparse with hshort hnone
              obtain rfl := Option.some.inj hparse
              refine ⟨?_, by dsimp only; omega, fun z hz => ?_⟩
              · simp only [List.length_append, List.length_cons, List.length_nil]
                omega
              · rw [List.length_append]
                exact Nat.le_add_right_of_le (hzero z hz)
        · rw [if_neg hquad] at hparse
          cases hdigit : digit? c with
          | none =>
              rw [hdigit] at hparse
              split_ifs at hparse
          | some d =>
              rw [hdigit] at hparse
              split_ifs at hparse
              exact ih hparse hlength hpos hzero

theorem length_moveUp (z n k : Nat) (buffer : Bytes) :
    (moveUp z n k buffer).length = buffer.length := by
  induction k generalizing buffer with
  | zero => rfl
  | succ k ih => rw [moveUp, ih, List.length_set]

theorem length_expand {zero : Option Nat} {n : Nat} (hbuffer : buffer.length = 16)
    (hlength : addr.length + 2 * n = 16) (hzero : ∀ z ∈ zero, z ≤ addr.length) {a : Bytes}
    (h : expand buffer addr zero n = some a) : a.length = 16 := by
  have hwhole : (addr ++ buffer.drop addr.length).length = 16 := by
    rw [List.length_append, List.length_drop]
    omega
  unfold expand at h
  dsimp only at h
  split_ifs at h
  · obtain ⟨z, hz, rfl⟩ := Option.map_eq_some_iff.mp h
    have hle := hzero z hz
    simp only [memzero, List.length_append, List.length_take, List.length_replicate,
      List.length_drop, length_moveUp]
    rw [List.length_append, List.length_drop] at hwhole
    omega
  · obtain rfl := Option.some.inj h
    exact hwhole

theorem length_inet6Addr (hbuffer : buffer.length = 16) (h : inet6Addr p buffer = some addr) :
    addr.length = 16 := by
  have hparse : ∀ q, (parse ⟨[], none, none, 0, 0, 8⟩ q).bind (finish buffer) = some addr →
      addr.length = 16 := by
    intro q hq
    obtain ⟨s, hs, hfinish⟩ := Option.bind_eq_some_iff.mp hq
    have hempty : Fits ⟨[], none, none, 0, 0, 8⟩ :=
      ⟨rfl, by decide, fun z hz => absurd hz (Option.not_mem_none z)⟩
    obtain ⟨hlength, hpos, hzero⟩ := hempty.parse hs
    unfold finish at hfinish
    split_ifs at hfinish
    refine length_expand hbuffer ?_ (fun z hz => ?_) hfinish
    · rw [length_store]
      omega
    · rw [length_store]
      exact Nat.le_add_right_of_le (hzero z hz)
  unfold inet6Addr at h
  split_ifs at h
  · exact hparse _ h
  · exact hparse _ h

end Inet6

namespace Cidr

/-! What a text says. -/

/-- The text in front of the slash -/
def addressText (text : Bytes) : Bytes := text.takeWhile (· ≠ slash)

/-- The number behind the slash, or the full width -/
def prefixLength (text : Bytes) (width : Nat) : Nat :=
  if slash ∈ text then Decimal.value ((text.dropWhile (· ≠ slash)).drop 1) else width

/-- The family and the address of a socket; an IPv4-mapped address is an IPv4 address. -/
def SockAddr.address : SockAddr → Family × Bytes
  | .inet addr => (.inet, addr.val)
  | .inet6 addr => if V4Mapped addr.val then (.inet, addr.val.drop 12) else (.inet6, addr.val)
  | .unix => (.unix, [])

variable {buffer text address addr : Bytes} {family : Family} {cidr : Cidr} {rc : Status}
  {shift : Nat}

theorem SockAddr.lookup_eq (sa : SockAddr) : sa.lookup = sa.address := by
  cases sa with
  | inet addr => rfl
  | inet6 addr =>
      obtain ⟨a, ha⟩ := addr
      unfold SockAddr.lookup SockAddr.address
      dsimp only
      split_ifs with hmapped
      · have h₀ := (a.getD 12 0).toNat_lt
        have h₁ := (a.getD 13 0).toNat_lt
        have h₂ := (a.getD 14 0).toNat_lt
        have h₃ := (a.getD 15 0).toNat_lt
        have hbytes := Inet6.htonl_ntohl (a.getD 12 0) (a.getD 13 0) (a.getD 14 0) (a.getD 15 0)
        rw [Inet6.drop_quad ha, ← hbytes]
        refine congrArg (fun x => (Family.inet, htonl x)) ?_
        simp only [ntohl, List.foldl_cons, List.foldl_nil]
        omega
      · rfl
  | unix => rfl

theorem atoiLoop_eq {n : Nat} (line : Bytes) (h : atoiLoop n line ≠ error) :
    atoiLoop n line =
      ((line.foldl (fun n b => n * 10 + Decimal.digitVal b) n : Nat) : Int) := by
  induction line generalizing n with
  | nil => rfl
  | cons c line ih =>
      unfold atoiLoop at h ⊢
      split_ifs at h ⊢ with hdigit hcut
      · exact absurd rfl h
      · exact absurd rfl h
      · have hlow : 48 ≤ c.toNat := by
          rw [not_or, UInt8.not_lt] at hdigit
          exact UInt8.le_iff_toNat_le.mp hdigit.1
        have hnext : (n : Int) * 10 + (c.toNat - 48) =
            (n * 10 + Decimal.digitVal c : Nat) := by
          rw [Decimal.digitVal]
          omega
        rw [hnext] at h ⊢
        exact ih h

/-- The bytes are masked, whether one of them changes or not. -/
theorem maskInet6_eq (rc : Status) (shift : Nat) (addr : Bytes) :
    (maskInet6 rc shift addr).2 =
      (masked addr (prefixMask addr.length shift), prefixMask addr.length shift) := by
  induction addr generalizing rc shift with
  | nil => rfl
  | cons b addr ih =>
      have hs : (if 8 < shift then 8 else shift) = min shift 8 := by
        split_ifs <;> omega
      have hrest : shift - min shift 8 = shift - 8 := by omega
      unfold maskInet6
      dsimp only
      rw [hs, hrest]
      have hcons : ∀ b' rc, (b' :: (maskInet6 rc (shift - 8) addr).2.1,
          byteMask (min shift 8) :: (maskInet6 rc (shift - 8) addr).2.2) =
          (b' :: masked addr (prefixMask addr.length (shift - 8)),
            prefixMask (addr.length + 1) shift) := fun b' rc => by
        rw [ih]
        rfl
      split_ifs with hb
      · exact hcons _ _
      · rw [ne_eq, not_not] at hb
        refine (hcons b rc).trans (congrArg (·, prefixMask (addr.length + 1) shift) ?_)
        exact congrArg (· :: _) hb

theorem inetMask_eq : ∀ shift < 33, inetMask shift = prefixMask 4 shift := by decide

theorem readAddr_cases (hbuffer : buffer.length = 16)
    (h : readAddr buffer addr = some (family, address)) :
    family = .inet ∧ address.length = 4 ∨ family = .inet6 ∧ address.length = 16 := by
  unfold readAddr at h
  dsimp only at h
  split_ifs at h
  · obtain ⟨rfl, rfl⟩ := Prod.mk.inj (Option.some.inj h)
    exact Or.inl ⟨rfl, length_inetAddr _⟩
  · obtain ⟨a, ha, heq⟩ := Option.map_eq_some_iff.mp h
    obtain ⟨rfl, rfl⟩ := Prod.mk.inj heq
    exact Or.inr ⟨rfl, Inet6.length_inet6Addr hbuffer ha⟩

theorem fullMask_eq :
    fullMask .inet = prefixMask 4 32 ∧ fullMask .inet6 = prefixMask 16 128 := by
  decide

theorem strlchr_cases (text : Bytes) :
    strlchr text 0 slash = none ∧ slash ∉ text ∧ addressText text = text ∨
      ∃ k, strlchr text 0 slash = some k ∧ slash ∈ text ∧ text.take k = addressText text ∧
        text.drop (k + 1) = (text.dropWhile (· ≠ slash)).drop 1 := by
  rw [HttpArg.strlchr_eq, List.drop_zero, Nat.zero_add]
  split_ifs with hmem
  · have hsplit := List.takeWhile_append_dropWhile (p := (· ≠ slash)) (l := text)
    refine Or.inr ⟨_, rfl, hmem, ?_, ?_⟩
    · exact (congrArg (List.take _) hsplit.symm).trans List.take_left
    · rw [← List.drop_drop]
      exact congrArg (List.drop 1) ((congrArg (List.drop _) hsplit.symm).trans List.drop_left)
  · exact Or.inl ⟨rfl, hmem, HttpArg.takeWhile_of_notMem hmem⟩

theorem atoi_eq {line : Bytes} (h : atoi line ≠ error) : atoi line = Decimal.value line := by
  unfold atoi at h ⊢
  split_ifs at h ⊢ with hempty
  · exact absurd rfl h
  · exact atoiLoop_eq line h

/-- What an accepted text is stored as -/
theorem ptocidr_eq (hbuffer : buffer.length = 16) (h : ptocidr buffer text = some (rc, cidr)) :
    ∃ address, readAddr buffer (addressText text) = some (cidr.family, address) ∧
      cidr.mask = prefixMask address.length (prefixLength text (8 * address.length)) ∧
      cidr.addr = masked address cidr.mask := by
  unfold ptocidr at h
  dsimp only at h
  rcases strlchr_cases text with ⟨hnone, hmem, haddr⟩ | ⟨k, hsome, hmem, htake, hdrop⟩
  · have hwidth : ∀ width, prefixLength text width = width := fun _ => if_neg hmem
    rw [hnone, Option.getD_none, List.take_length] at h
    rw [haddr]
    cases hread : readAddr buffer text with
    | none =>
        rw [hread] at h
        exact absurd h nofun
    | some found =>
        obtain ⟨family, address⟩ := found
        rw [hread] at h
        obtain ⟨rfl, rfl⟩ := Prod.mk.inj (Option.some.inj h)
        have hmask : fullMask family = prefixMask address.length (8 * address.length) := by
          rcases readAddr_cases hbuffer hread with ⟨rfl, hlength⟩ | ⟨rfl, hlength⟩
          · rw [hlength]
            exact fullMask_eq.1
          · rw [hlength]
            exact fullMask_eq.2
        refine ⟨address, rfl, by rw [hwidth, hmask], ?_⟩
        rw [hmask]
        exact (AddressPrefix.masked_full rfl).symm
  · have hbits : ∀ width, prefixLength text width = Decimal.value (text.drop (k + 1)) :=
      fun _ => by rw [prefixLength, if_pos hmem, hdrop]
    rw [hsome, Option.getD_some, htake] at h
    cases hread : readAddr buffer (addressText text) with
    | none =>
        rw [hread] at h
        exact absurd h nofun
    | some found =>
        obtain ⟨family, address⟩ := found
        rw [hread] at h
        dsimp only at h
        by_cases herror : atoi (text.drop (k + 1)) = error
        · rw [if_pos herror] at h
          exact absurd h nofun
        · rw [if_neg herror, atoi_eq herror, Int.toNat_natCast] at h
          have hread' := readAddr_cases hbuffer hread
          rcases hread' with ⟨rfl, hlength⟩ | ⟨rfl, hlength⟩
          · dsimp only at h
            split_ifs at h with hlong hsame
            · obtain ⟨rfl, rfl⟩ := Prod.mk.inj (Option.some.inj h)
              have hmask := inetMask_eq (Decimal.value (text.drop (k + 1))) (by omega)
              refine ⟨address, rfl, ?_, hsame⟩
              rw [hbits, hlength, hmask]
            · obtain ⟨rfl, rfl⟩ := Prod.mk.inj (Option.some.inj h)
              have hmask := inetMask_eq (Decimal.value (text.drop (k + 1))) (by omega)
              refine ⟨address, rfl, ?_, rfl⟩
              rw [hbits, hlength, hmask]
          · dsimp only at h
            split_ifs at h with hlong
            obtain ⟨rfl, rfl⟩ := Prod.mk.inj (Option.some.inj h)
            obtain ⟨haddr, hmask⟩ :=
              Prod.mk.inj (maskInet6_eq .ok (Decimal.value (text.drop (k + 1))) address)
            refine ⟨address, rfl, ?_, ?_⟩
            · rw [hbits]
              exact hmask
            · exact haddr.trans (congrArg (masked address) hmask.symm)

theorem matchLoop_eq (family : Family) (addr : Bytes) (cidrs : List Cidr) :
    matchLoop family addr cidrs =
      if cidrs.any (hits family addr) then .ok else .declined := by
  induction cidrs with
  | nil => rfl
  | cons cidr cidrs ih =>
      rw [matchLoop, ih, List.any_cons]
      cases hits family addr cidr <;> rfl

theorem cidrMatch_single (sa : SockAddr) (cidr : Cidr) :
    cidrMatch sa [cidr] = .ok ↔ hits sa.address.1 sa.address.2 cidr = true := by
  rw [cidrMatch, SockAddr.lookup_eq, matchLoop_eq, List.any_cons, List.any_nil, Bool.or_false]
  cases hits sa.address.1 sa.address.2 cidr <;> decide

/-- The list is searched for an entry that matches by itself. -/
theorem cidrMatch_eq (sa : SockAddr) (cidrs : List Cidr) :
    cidrMatch sa cidrs =
      if ∃ cidr ∈ cidrs, cidrMatch sa [cidr] = .ok then .ok else .declined := by
  simp only [cidrMatch_single]
  rw [cidrMatch, SockAddr.lookup_eq, matchLoop_eq]
  simp only [List.any_eq_true]

theorem SockAddr.length_address (sa : SockAddr) :
    sa.address.1 = .inet ∧ sa.address.2.length = 4 ∨
      sa.address.1 = .inet6 ∧ sa.address.2.length = 16 ∨ sa.address.1 = .unix := by
  cases sa with
  | inet addr => exact Or.inl ⟨rfl, addr.property⟩
  | inet6 addr =>
      simp only [SockAddr.address]
      split_ifs
      · refine Or.inl ⟨rfl, ?_⟩
        rw [List.length_drop, addr.property]
      · exact Or.inr (Or.inl ⟨rfl, addr.property⟩)
  | unix => exact Or.inr (Or.inr rfl)

theorem getElem?_eq_getD {n : Nat} (hn : n < addr.length) : addr[n]? = some (addr.getD n 0) := by
  rw [List.getD_eq_getElem?_getD, List.getElem?_eq_getElem hn, Option.getD_some]

/-- The comparison of the bytes, one by one -/
theorem all_masked_iff {mask : Bytes} (haddr : addr.length = 16) (hmask : mask.length = 16)
    (haddress : address.length = 16) :
    ((List.range 16).all fun n => addr.getD n 0 &&& mask.getD n 0 == address.getD n 0) = true ↔
      masked addr mask = address := by
  have hget : ∀ n < 16, (masked addr mask)[n]? = some (addr.getD n 0 &&& mask.getD n 0) := by
    intro n hn
    rw [masked, List.getElem?_zipWith, getElem?_eq_getD (by omega), getElem?_eq_getD (by omega)]
  simp only [List.all_eq_true, List.mem_range, beq_iff_eq]
  constructor
  · intro h
    refine List.ext_getElem? fun n => ?_
    rcases Nat.lt_or_ge n 16 with hn | hn
    · rw [hget n hn, h n hn, getElem?_eq_getD (by omega)]
    · have hlength : (masked addr mask).length = 16 := by
        rw [masked, List.length_zipWith, haddr, hmask, Nat.min_self]
      rw [List.getElem?_eq_none (by omega), List.getElem?_eq_none (by omega)]
  · rintro rfl n hn
    exact Option.some.inj ((hget n hn).symm.trans (getElem?_eq_getD (by omega)))

/-- A text that is accepted, and a list of entries -/
theorem cidrMatch_ptocidr (hbuffer : buffer.length = 16)
    (hread : ptocidr buffer text = some (rc, cidr)) (sa : SockAddr) (cidrs : List Cidr) :
    (∃ family address, readAddr buffer (addressText text) = some (family, address) ∧
      (cidrMatch sa [cidr] = .ok ↔ sa.address.1 = family ∧
        Agrees (prefixLength text (8 * address.length)) sa.address.2 address)) ∧
      cidrMatch sa cidrs =
        if ∃ cidr ∈ cidrs, cidrMatch sa [cidr] = .ok then .ok else .declined := by
  refine ⟨?_, cidrMatch_eq sa cidrs⟩
  obtain ⟨address, haddress, hmask, haddr⟩ := ptocidr_eq hbuffer hread
  refine ⟨cidr.family, address, haddress, ?_⟩
  rw [cidrMatch_single]
  unfold hits
  rw [Bool.and_eq_true, beq_iff_eq, eq_comm]
  refine and_congr_right fun hfamily => ?_
  have hsa := sa.length_address
  rcases readAddr_cases hbuffer haddress with ⟨hinet, hlength⟩ | ⟨hinet6, hlength⟩
  · rw [hinet] at hfamily
    rw [hfamily] at hsa ⊢
    have hsa4 : sa.address.2.length = 4 := by
      rcases hsa with ⟨_, hsa⟩ | ⟨hne, _⟩ | hne
      · exact hsa
      · exact Family.noConfusion hne
      · exact Family.noConfusion hne
    rw [beq_iff_eq, haddr, hmask, hlength]
    exact AddressPrefix.masked_eq_iff hsa4 hlength _
  · rw [hinet6] at hfamily
    rw [hfamily] at hsa ⊢
    have hsa16 : sa.address.2.length = 16 := by
      rcases hsa with ⟨hne, _⟩ | ⟨_, hsa⟩ | hne
      · exact Family.noConfusion hne
      · exact hsa
      · exact Family.noConfusion hne
    have hmask16 : cidr.mask.length = 16 := by
      rw [hmask, AddressPrefix.length_prefixMask, hlength]
    have haddr16 : cidr.addr.length = 16 := by
      rw [haddr, masked, List.length_zipWith, hlength, hmask16, Nat.min_self]
    refine (all_masked_iff hsa16 hmask16 haddr16).trans ?_
    rw [haddr, hmask, hlength]
    exact AddressPrefix.masked_eq_iff hsa16 hlength _

/-- `10.1.2.3/8` -/
theorem cidrMatch_ptocidr_ten :
    (∃ family address, readAddr (List.replicate 16 0)
        (addressText [49, 48, 46, 49, 46, 50, 46, 51, 47, 56]) = some (family, address) ∧
      (cidrMatch (.inet ⟨[10, 9, 9, 9], rfl⟩) [⟨.inet, [10, 0, 0, 0], [255, 0, 0, 0]⟩] = .ok ↔
        (SockAddr.inet ⟨[10, 9, 9, 9], rfl⟩).address.1 = family ∧
          Agrees (prefixLength [49, 48, 46, 49, 46, 50, 46, 51, 47, 56] (8 * address.length))
            (SockAddr.inet ⟨[10, 9, 9, 9], rfl⟩).address.2 address)) ∧
      cidrMatch (.inet ⟨[10, 9, 9, 9], rfl⟩) [] =
        if ∃ cidr ∈ ([] : List Cidr), cidrMatch (.inet ⟨[10, 9, 9, 9], rfl⟩) [cidr] = .ok then .ok
        else .declined :=
  @cidrMatch_ptocidr (List.replicate 16 0) [49, 48, 46, 49, 46, 50, 46, 51, 47, 56]
    ⟨.inet, [10, 0, 0, 0], [255, 0, 0, 0]⟩ .done rfl (by decide) (.inet ⟨[10, 9, 9, 9], rfl⟩) []

end Cidr

end RebuildTheWheel.Nginx
