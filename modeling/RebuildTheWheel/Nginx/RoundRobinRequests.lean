import Mathlib.Tactic.Choose
import RebuildTheWheel.Nginx.RoundRobin

namespace RebuildTheWheel.Nginx

open RoundRobin

/-! Requests that share a group of several peers. -/

/-- A request. `holds` tells that it has got a peer and not freed it yet, and `given` are the peers
that it has got so far, the last one first. -/
structure Request where
  rrp : PeerData
  holds : Bool
  given : List Nat

structure Upstream where
  peers : Peers
  requests : List Request

namespace Upstream

/-- The gets of a peer that have not been followed by a free. -/
def outstanding (u : Upstream) (p : Nat) : Nat :=
  u.requests.countP fun request => request.holds && request.rrp.current = p

/-- The requests call in any order, at any time and with any outcome; a request frees the peer that
it has got before it gets another one. -/
inductive Step : Upstream → Upstream → Prop where
  | get : u.requests[r]? = some request → request.holds = false →
      getRoundRobinPeer now request.rrp [u.peers] = ([group], rrp, true) →
      Step u ⟨group, u.requests.set r ⟨rrp, true, rrp.current :: request.given⟩⟩
  | busy : u.requests[r]? = some request → request.holds = false →
      getRoundRobinPeer now request.rrp [u.peers] = ([group], rrp, false) →
      Step u ⟨group, u.requests.set r { request with rrp := rrp }⟩
  | free : u.requests[r]? = some request → request.holds = true →
      freeRoundRobinPeer now failed request.rrp u.peers = (group, rrp) →
      Step u ⟨group, u.requests.set r { request with rrp := rrp, holds := false }⟩

/-- Nobody has asked for a peer yet. -/
structure Initial (u : Upstream) : Prop where
  several : 2 ≤ u.peers.peer.length
  single : u.peers.single = false
  weights : ∀ peer ∈ u.peers.peer, 0 < peer.weight.toInt ∧ peer.effectiveWeight = peer.weight
  conns : ∀ peer ∈ u.peers.peer, peer.conns = 0
  requests : ∀ request ∈ u.requests, request.holds = false ∧ request.given = [] ∧
    request.rrp.tried = fun _ => 0

inductive Reachable : Upstream → Prop where
  | initial : Initial u → Reachable u
  | step : Reachable u → Step u u' → Reachable u'

end Upstream

namespace RoundRobin

variable {now : Int} {tried tried' : Tried} {i k p : Nat} {peer q : Peer} {peers peers' : List Peer}

/-! The bitmap. -/

theorem bit_and_bit {a b : Nat} (ha : a < 64) (hb : b < 64) :
    ((1 : UInt64) <<< UInt64.ofNat a &&& 1 <<< UInt64.ofNat b ≠ 0) ↔ a = b := by
  have hall : ∀ a < 64, ∀ b < 64,
      ((1 : UInt64) <<< UInt64.ofNat a &&& 1 <<< UInt64.ofNat b ≠ 0) ↔ a = b := by
    decide
  exact hall a ha b hb

theorem isTried_iff : isTried tried i = true ↔ tried (i / 64) &&& bit i ≠ 0 := decide_eq_true_iff

theorem isTried_mark (tried : Tried) (i k : Nat) :
    isTried (mark tried i) k = true ↔ k = i ∨ isTried tried k = true := by
  have hbit := bit_and_bit (Nat.mod_lt i (by decide)) (Nat.mod_lt k (by decide : 0 < 64))
  rw [isTried_iff, isTried_iff, mark]
  by_cases hword : k / 64 = i / 64
  · rw [hword, Function.update_self]
    have hor : (tried (i / 64) ||| bit i) &&& bit k = (tried (i / 64) &&& bit k) ||| (bit i &&& bit k) := by
      rw [← UInt64.toBitVec_inj]
      exact BitVec.and_or_distrib_right
    have hsame : i % 64 = k % 64 ↔ k = i := by omega
    rw [hor, Ne, UInt64.or_eq_zero_iff, not_and_or, or_comm]
    exact or_congr (hbit.trans hsame) Iff.rfl
  · rw [Function.update_of_ne hword]
    have hne : k ≠ i := fun heq => hword (by rw [heq])
    simp [hne]

/-! The effective weight. -/

/-- The effective weight is between 0 and the weight. -/
structure Weighed (peer : Peer) : Prop where
  pos : 0 < peer.weight.toInt
  nonneg : 0 ≤ peer.effectiveWeight.toInt
  le : peer.effectiveWeight.toInt ≤ peer.weight.toInt

theorem Weighed.raise (h : Weighed peer) : Weighed peer.raise := by
  obtain ⟨hpos, hnonneg, hle⟩ := h
  by_cases hlt : peer.effectiveWeight < peer.weight
  · have heffective : peer.raise.effectiveWeight = peer.effectiveWeight + 1 := if_pos hlt
    have hone : (1 : Int64).toInt = 1 := rfl
    have hbelow := Int64.lt_iff_toInt_lt.mp hlt
    have hmax := Int64.toInt_lt peer.weight
    have hsum : (peer.effectiveWeight + 1).toInt = peer.effectiveWeight.toInt + 1 :=
      toInt_add (by omega) (by omega)
    refine ⟨hpos, ?_, ?_⟩
    · rw [heffective, hsum]
      omega
    · rw [heffective, hsum]
      exact hbelow
  · have heffective : peer.raise.effectiveWeight = peer.effectiveWeight := if_neg hlt
    exact ⟨hpos, heffective ▸ hnonneg, heffective ▸ hle⟩

theorem Weighed.settle (h : Weighed peer) (now : Int) (total : Int64) : Weighed (peer.settle now total) :=
  ⟨h.pos, h.nonneg, h.le⟩

/-- `peer->weight` in unsigned arithmetic. -/
theorem toNat_toUInt64 {w : Int64} (h : 0 < w.toInt) : (w.toUInt64.toNat : Int) = w.toInt := by
  have hcond := BitVec.toInt_eq_toNat_cond w.toBitVec
  change w.toInt = _ at hcond
  change (w.toBitVec.toNat : Int) = _
  split_ifs at hcond
  · exact hcond.symm
  · have := w.toBitVec.isLt
    omega

theorem Weighed.report (h : Weighed peer) (now : Int) (failed : Bool) :
    Weighed (report now failed peer) := by
  obtain ⟨hpos, hnonneg, hle⟩ := h
  have hmax := Int64.toInt_lt peer.weight
  have hweight := toNat_toUInt64 hpos
  have hless {n : Nat} (hn : n ≤ peer.weight.toUInt64.toNat) :
      (peer.effectiveWeight - Int64.ofNat n).toInt ≤ peer.effectiveWeight.toInt := by
    have hlow : (Int64.ofNat n).toInt = n := Int64.toInt_ofNat_of_lt (by omega)
    rw [toInt_sub] <;> rw [hlow] <;> omega
  have hclamp {ew : Int64} (hew : ew.toInt ≤ peer.weight.toInt) :
      0 ≤ (if ew < 0 then 0 else ew).toInt ∧ (if ew < 0 then 0 else ew).toInt ≤ peer.weight.toInt := by
    split_ifs with hneg
    · exact ⟨Int.le_refl 0, Int.le_of_lt hpos⟩
    · rw [Int64.lt_iff_toInt_lt] at hneg
      exact ⟨Int.not_lt.mp hneg, hew⟩
  rw [RoundRobin.report]
  split_ifs with hfailed hlimit
  · obtain ⟨hlow', hhigh⟩ := hclamp (Int.le_trans (hless (Nat.div_le_self _ peer.maxFails)) hle)
    exact ⟨hpos, hlow', hhigh⟩
  · obtain ⟨hlow', hhigh⟩ := hclamp hle
    exact ⟨hpos, hlow', hhigh⟩
  · exact ⟨hpos, hnonneg, hle⟩
  · exact ⟨hpos, hnonneg, hle⟩

/-- What a step leaves of a peer as it is. -/
structure Keeps (old new : Peer) : Prop where
  weighed : Weighed old → Weighed new
  maxConns : new.maxConns = old.maxConns

theorem touch_keeps (now : Int) (tried : Tried) (k : Nat) (peer : Peer) :
    Keeps peer (touch now tried k peer) ∧ (touch now tried k peer).conns = peer.conns := by
  rw [touch]
  split_ifs
  · exact ⟨⟨id, rfl⟩, rfl⟩
  · exact ⟨⟨Weighed.raise, rfl⟩, rfl⟩

theorem report_keeps (now : Int) (failed : Bool) (peer : Peer) :
    Keeps peer (report now failed peer) ∧ (report now failed peer).conns = peer.conns := by
  refine ⟨⟨fun h => h.report now failed, ?_⟩, ?_⟩ <;>
  · rw [report]
    split_ifs <;> rfl

end RoundRobin

namespace Upstream

variable {u u' : Upstream} {request : Request} {r p : Nat} {now : Int} {rrp rrp' : PeerData}
  {group : Peers}

/-- A get from a group of several peers. -/
theorem get_some (hsingle : u.peers.single = false)
    (h : getRoundRobinPeer now rrp [u.peers] = ([group], rrp', true)) :
    group.single = false ∧ rrp'.tried = mark rrp.tried rrp'.current ∧
      (∃ q, u.peers.peer[rrp'.current]? = some q ∧ skipped now rrp.tried rrp'.current q = false) ∧
      ∀ k, ∃ f : Peer → Peer, group.peer[k]? = u.peers.peer[k]?.map f ∧ ∀ peer, Keeps peer (f peer) ∧
        (f peer).conns = peer.conns + if k = rrp'.current then 1 else 0 := by
  rw [getRoundRobinPeer, choose, hsingle] at h
  simp only [Bool.false_eq_true, if_false] at h
  cases hget : getPeer now rrp.tried u.peers.peer with
  | mk peers result =>
      rw [hget] at h
      cases result with
      | none => exact nomatch h
      | some result =>
          obtain ⟨p, tried⟩ := result
          obtain ⟨hgroup, hrrp⟩ := Prod.mk.inj h
          obtain rfl := (List.cons.inj hgroup).1
          obtain rfl := (Prod.mk.inj hrrp).1
          obtain ⟨htried, hchosen, sum, hpeers⟩ := getPeer_some hget
          refine ⟨rfl, htried, hchosen, fun k => ?_⟩
          by_cases hk : k = p
          · subst hk
            refine ⟨fun peer => addConn (peer.raise.settle now sum), ?_, fun peer => ⟨⟨?_, rfl⟩, ?_⟩⟩
            · change (peers.modify k addConn)[k]? = _
              rw [List.getElem?_modify_eq, hpeers]
              cases u.peers.peer[k]? with
              | none => rfl
              | some peer => simp
            · intro h
              have hraised := (h.raise).settle now sum
              exact ⟨hraised.pos, hraised.nonneg, hraised.le⟩
            · rw [if_pos rfl]
              rfl
          · refine ⟨touch now rrp.tried k, ?_, fun peer => ?_⟩
            · change (peers.modify p addConn)[k]? = _
              rw [List.getElem?_modify_ne _ _ (Ne.symm hk), hpeers]
              simp only [if_neg hk]
            · rw [if_neg hk]
              exact touch_keeps now rrp.tried k peer

theorem get_none (hsingle : u.peers.single = false)
    (h : getRoundRobinPeer now rrp [u.peers] = ([group], rrp', false)) :
    group = u.peers ∧ rrp' = rrp := by
  rw [getRoundRobinPeer, choose, hsingle] at h
  simp only [Bool.false_eq_true, if_false] at h
  cases hget : getPeer now rrp.tried u.peers.peer with
  | mk peers result =>
      rw [hget] at h
      cases result with
      | some result => exact nomatch h
      | none =>
          obtain ⟨hgroup, hrrp⟩ := Prod.mk.inj h
          obtain rfl := (List.cons.inj hgroup).1
          refine ⟨?_, (Prod.mk.inj hrrp).1.symm⟩
          rw [getPeer_none hget, ← hsingle]

theorem free_spec {failed : Bool} (hsingle : u.peers.single = false)
    (h : freeRoundRobinPeer now failed rrp u.peers = (group, rrp')) :
    group.single = false ∧ rrp'.tried = rrp.tried ∧ rrp'.current = rrp.current ∧
      ∀ k, ∃ f : Peer → Peer, group.peer[k]? = u.peers.peer[k]?.map f ∧ ∀ peer, Keeps peer (f peer) ∧
        (f peer).conns = peer.conns - if k = rrp.current then 1 else 0 := by
  rw [freeRoundRobinPeer, hsingle] at h
  simp only [Bool.false_eq_true, if_false] at h
  obtain ⟨rfl, rfl⟩ := Prod.mk.inj h
  refine ⟨rfl, rfl, rfl, fun k => ?_⟩
  by_cases hk : k = rrp.current
  · subst hk
    refine ⟨fun peer => dropConn (report now failed peer), List.getElem?_modify_eq .., fun peer => ?_⟩
    obtain ⟨hkeeps, hconns⟩ := report_keeps now failed peer
    refine ⟨⟨fun h => ?_, hkeeps.maxConns⟩, ?_⟩
    · have hreported := hkeeps.weighed h
      exact ⟨hreported.pos, hreported.nonneg, hreported.le⟩
    · rw [if_pos rfl, ← hconns]
      rfl
  · refine ⟨id, ?_, fun peer => ⟨⟨id, rfl⟩, ?_⟩⟩
    · rw [Option.map_id]
      exact List.getElem?_modify_ne _ _ (Ne.symm hk)
    · rw [if_neg hk]
      rfl

/-! The invariant. -/

/-- The bitmap of a request has the bits of the peers that it has been given. -/
structure Tracked (request : Request) : Prop where
  tried : ∀ p, isTried request.rrp.tried p = true ↔ p ∈ request.given
  nodup : request.given.Nodup

structure Invariant (u : Upstream) : Prop where
  single : u.peers.single = false
  weighed : ∀ peer ∈ u.peers.peer, Weighed peer
  conns : ∀ p peer, u.peers.peer[p]? = some peer → peer.conns = u.outstanding p
  limited : ∀ peer ∈ u.peers.peer, peer.maxConns ≠ 0 → peer.conns ≤ peer.maxConns
  tracked : ∀ request ∈ u.requests, Tracked request

theorem Initial.invariant (h : Initial u) : Invariant u where
  single := h.single
  weighed peer hpeer := by
    obtain ⟨hpos, heffective⟩ := h.weights peer hpeer
    exact ⟨hpos, heffective ▸ Int.le_of_lt hpos, heffective ▸ Int.le_refl _⟩
  conns p peer hpeer := by
    have hnone : u.outstanding p = 0 := by
      refine List.countP_eq_zero.mpr fun request hrequest => ?_
      rw [(h.requests request hrequest).1]
      exact Bool.false_ne_true
    rw [hnone]
    exact h.conns peer (List.mem_of_getElem? hpeer)
  limited peer hpeer _ := by
    rw [h.conns peer hpeer]
    exact Nat.zero_le _
  tracked request hrequest := by
    obtain ⟨-, hgiven, htried⟩ := h.requests request hrequest
    refine ⟨fun p => ?_, hgiven ▸ List.nodup_nil⟩
    rw [hgiven, htried]
    simp [isTried]

theorem outstanding_set {request' : Request} (hr : u.requests[r]? = some request) (k : Nat) :
    outstanding ⟨group, u.requests.set r request'⟩ k =
      (u.outstanding k - if request.holds = true ∧ request.rrp.current = k then 1 else 0) +
        if request'.holds = true ∧ request'.rrp.current = k then 1 else 0 := by
  obtain ⟨hlt, hget⟩ := List.getElem?_eq_some_iff.mp hr
  rw [outstanding, outstanding, List.countP_set hlt, hget]
  simp only [Bool.and_eq_true, decide_eq_true_eq]

/-- The conditions on single peers, for a step that changes the `k`-th peer by `f k`. -/
theorem Invariant.of_keeps (h : Invariant u) (hsingle : u'.peers.single = false)
    (f : Nat → Peer → Peer) (hpeers : ∀ k, u'.peers.peer[k]? = u.peers.peer[k]?.map (f k))
    (hkeeps : ∀ k peer, Keeps peer (f k peer))
    (hconns : ∀ k peer, u.peers.peer[k]? = some peer → (f k peer).conns = u'.outstanding k)
    (hlimited : ∀ k peer, u.peers.peer[k]? = some peer → peer.maxConns ≠ 0 →
      (f k peer).conns ≤ peer.maxConns)
    (htracked : ∀ request ∈ u'.requests, Tracked request) : Invariant u' := by
  have hold {k : Nat} {new : Peer} (hnew : u'.peers.peer[k]? = some new) :
      ∃ peer, u.peers.peer[k]? = some peer ∧ f k peer = new := by
    rw [hpeers] at hnew
    exact Option.map_eq_some_iff.mp hnew
  refine ⟨hsingle, fun new hmem => ?_, fun k new hnew => ?_, fun new hmem hmax => ?_, htracked⟩
  · obtain ⟨k, hnew⟩ := List.getElem?_of_mem hmem
    obtain ⟨peer, hpeer, rfl⟩ := hold hnew
    exact (hkeeps k peer).weighed (h.weighed peer (List.mem_of_getElem? hpeer))
  · obtain ⟨peer, hpeer, rfl⟩ := hold hnew
    exact hconns k peer hpeer
  · obtain ⟨k, hnew⟩ := List.getElem?_of_mem hmem
    obtain ⟨peer, hpeer, rfl⟩ := hold hnew
    rw [(hkeeps k peer).maxConns] at hmax ⊢
    exact hlimited k peer hpeer hmax

theorem Tracked.set {request' : Request} (h : ∀ request ∈ u.requests, Tracked request)
    (hnew : Tracked request') : ∀ request ∈ u.requests.set r request', Tracked request := by
  intro request hmem
  rcases List.mem_or_eq_of_mem_set hmem with hold | rfl
  · exact h request hold
  · exact hnew

/-- What is known of a peer that has been selected. -/
theorem selectable {q : Peer} (hskip : skipped now rrp.tried p q = false) :
    isTried rrp.tried p = false ∧ q.down = false ∧ q.failing now = false ∧ q.full = false := by
  simpa only [skipped, Bool.or_eq_false_iff, and_assoc] using hskip

theorem Invariant.get (h : Invariant u) (hr : u.requests[r]? = some request)
    (hholds : request.holds = false)
    (hget : getRoundRobinPeer now request.rrp [u.peers] = ([group], rrp, true)) :
    Invariant ⟨group, u.requests.set r ⟨rrp, true, rrp.current :: request.given⟩⟩ := by
  obtain ⟨hsingle, htried, ⟨q, hq, hskip⟩, hchange⟩ := get_some h.single hget
  obtain ⟨hfresh, -, -, hroom⟩ := selectable hskip
  choose f hpeers hf using hchange
  have htracked := h.tracked request (List.mem_of_getElem? hr)
  have hnotGiven : rrp.current ∉ request.given := fun hmem => by
    rw [(htracked.tried rrp.current).mpr hmem] at hfresh
    exact nomatch hfresh
  refine h.of_keeps hsingle f hpeers (fun k peer => (hf k peer).1) (fun k peer hpeer => ?_)
    (fun k peer hpeer hmax => ?_) (Tracked.set h.tracked ⟨fun p => ?_, ?_⟩)
  · rw [(hf k peer).2, outstanding_set hr, h.conns k peer hpeer, hholds]
    simp [eq_comm]
  · rw [(hf k peer).2]
    split_ifs with hk
    · -- the peer that has been chosen was not full
      subst hk
      obtain rfl := Option.some.inj (hq.symm.trans hpeer)
      have hless : ¬ q.maxConns ≤ q.conns := by
        simpa [Peer.full, hmax] using hroom
      omega
    · exact h.limited peer (List.mem_of_getElem? hpeer) hmax
  · rw [htried, isTried_mark, List.mem_cons]
    exact or_congr Iff.rfl (htracked.tried p)
  · exact List.nodup_cons.mpr ⟨hnotGiven, htracked.nodup⟩

theorem Invariant.busy (h : Invariant u) (hr : u.requests[r]? = some request)
    (hget : getRoundRobinPeer now request.rrp [u.peers] = ([group], rrp, false)) :
    Invariant ⟨group, u.requests.set r { request with rrp := rrp }⟩ := by
  obtain ⟨rfl, rfl⟩ := get_none h.single hget
  obtain ⟨hlt, hsame⟩ := List.getElem?_eq_some_iff.mp hr
  have hset : u.requests.set r { request with rrp := request.rrp } = u.requests := by
    rw [← hsame]
    exact List.set_getElem_self hlt
  rw [hset]
  exact h

theorem Invariant.free {failed : Bool} (h : Invariant u) (hr : u.requests[r]? = some request)
    (hholds : request.holds = true)
    (hfree : freeRoundRobinPeer now failed request.rrp u.peers = (group, rrp)) :
    Invariant ⟨group, u.requests.set r { request with rrp := rrp, holds := false }⟩ := by
  obtain ⟨hsingle, htried, hcurrent, hchange⟩ := free_spec h.single hfree
  choose f hpeers hf using hchange
  have htracked := h.tracked request (List.mem_of_getElem? hr)
  refine h.of_keeps hsingle f hpeers (fun k peer => (hf k peer).1) (fun k peer hpeer => ?_)
    (fun k peer hpeer hmax => ?_) (Tracked.set h.tracked ⟨fun p => ?_, htracked.nodup⟩)
  · rw [(hf k peer).2, outstanding_set hr, h.conns k peer hpeer, hholds]
    simp [eq_comm]
  · rw [(hf k peer).2]
    exact Nat.le_trans (Nat.sub_le ..) (h.limited peer (List.mem_of_getElem? hpeer) hmax)
  · exact htried ▸ htracked.tried p

theorem Step.invariant (hstep : Step u u') (h : Invariant u) : Invariant u' := by
  cases hstep with
  | get hr hholds hget => exact h.get hr hholds hget
  | busy hr _ hget => exact h.busy hr hget
  | free hr hholds hfree => exact h.free hr hholds hfree

theorem Reachable.invariant (h : Reachable u) : Invariant u := by
  induction h with
  | initial hinitial => exact hinitial.invariant
  | step _ hstep ih => exact hstep.invariant ih

/-- Any request may call next. -/
theorem step_exists (hr : u.requests[r]? = some request) : ∃ u', Step u u' := by
  cases hholds : request.holds with
  | true => exact ⟨_, .free hr hholds (rfl : freeRoundRobinPeer 0 false request.rrp u.peers = _)⟩
  | false =>
      have hone (rrp : PeerData) (peers : Peers) : getRoundRobinPeer 0 rrp [peers] =
          ([(choose 0 rrp peers).1], (choose 0 rrp peers).2.getD rrp, (choose 0 rrp peers).2.isSome) := by
        rw [getRoundRobinPeer]
        rcases choose 0 rrp peers with ⟨group, _ | rrp⟩ <;> rfl
      have hcall := hone request.rrp u.peers
      cases hresult : (choose 0 request.rrp u.peers).2.isSome with
      | true => exact ⟨_, .get hr hholds (hresult ▸ hcall)⟩
      | false => exact ⟨_, .busy hr hholds (hresult ▸ hcall)⟩

theorem round_robin_requests (h : Reachable u) :
    (∀ peer ∈ u.peers.peer, 0 ≤ peer.effectiveWeight.toInt ∧
      peer.effectiveWeight.toInt ≤ peer.weight.toInt) ∧
    (∀ p peer, u.peers.peer[p]? = some peer → peer.conns = u.outstanding p) ∧
    (∀ peer ∈ u.peers.peer, peer.maxConns ≠ 0 → peer.conns ≤ peer.maxConns) ∧
    (∀ request ∈ u.requests, request.given.Nodup) ∧
    ∀ (r : Nat) (request : Request) (now : Int) (group : Peers) (rrp : PeerData),
      u.requests[r]? = some request →
      getRoundRobinPeer now request.rrp [u.peers] = ([group], rrp, true) →
        rrp.current ∉ request.given ∧
          ∃ peer, u.peers.peer[rrp.current]? = some peer ∧ peer.down = false ∧
            ¬ (peer.maxFails ≠ 0 ∧ peer.maxFails ≤ peer.fails ∧
              now - peer.checked ≤ peer.failTimeout) := by
  have hinvariant := h.invariant
  refine ⟨fun peer hpeer => ?_, hinvariant.conns, hinvariant.limited,
    fun request hrequest => (hinvariant.tracked request hrequest).nodup,
    fun r request now group rrp hr hget => ?_⟩
  · have hweighed := hinvariant.weighed peer hpeer
    exact ⟨hweighed.nonneg, hweighed.le⟩
  · obtain ⟨-, -, ⟨q, hq, hskip⟩, -⟩ := get_some hinvariant.single hget
    obtain ⟨hfresh, hdown, hfailing, -⟩ := selectable hskip
    have htracked := hinvariant.tracked request (List.mem_of_getElem? hr)
    refine ⟨fun hmem => ?_, q, hq, hdown, fun ⟨hmax, hfails, htime⟩ => ?_⟩
    · rw [(htracked.tried rrp.current).mpr hmem] at hfresh
      exact nomatch hfresh
    · have hreached : q.failing now = true := by simp [Peer.failing, hmax, hfails, htime]
      rw [hreached] at hfailing
      exact nomatch hfailing

/-- Two peers that take one connection each, and two requests. -/
def twoRequests : Upstream where
  peers := ⟨false, List.replicate 2 ⟨0, 1, 1, 0, 1, 0, 0, 0, 1, 10, false⟩⟩
  requests := List.replicate 2 ⟨⟨0, 0, fun _ => 0, 2⟩, false, []⟩

theorem twoRequests_initial : Initial twoRequests where
  several := by decide
  single := rfl
  weights peer hpeer := by
    obtain rfl := List.eq_of_mem_replicate hpeer
    exact ⟨by decide, rfl⟩
  conns peer hpeer := by
    obtain rfl := List.eq_of_mem_replicate hpeer
    rfl
  requests request hrequest := by
    obtain rfl := List.eq_of_mem_replicate hrequest
    exact ⟨rfl, rfl, rfl⟩

/-- The first request has got the first peer. -/
def oneGet : Upstream where
  peers := ⟨false, [⟨-1, 1, 1, 1, 1, 0, 0, 20, 1, 10, false⟩, ⟨1, 1, 1, 0, 1, 0, 0, 0, 1, 10, false⟩]⟩
  requests := [⟨⟨0, 0, RoundRobin.mark (fun _ => 0) 0, 2⟩, true, [0]⟩, ⟨⟨0, 0, fun _ => 0, 2⟩, false, []⟩]

theorem oneGet_reachable : Reachable oneGet := by
  have hget : getRoundRobinPeer 20 ⟨0, 0, fun _ => 0, 2⟩ [twoRequests.peers] =
      ([oneGet.peers], ⟨0, 0, RoundRobin.mark (fun _ => 0) 0, 2⟩, true) := rfl
  have hrequest : twoRequests.requests[0]? = some ⟨⟨0, 0, fun _ => 0, 2⟩, false, []⟩ := rfl
  exact .step (.initial twoRequests_initial) (Step.get hrequest rfl hget)

theorem round_robin_oneGet :
    (∀ peer ∈ oneGet.peers.peer, 0 ≤ peer.effectiveWeight.toInt ∧
      peer.effectiveWeight.toInt ≤ peer.weight.toInt) ∧
    (∀ p peer, oneGet.peers.peer[p]? = some peer → peer.conns = oneGet.outstanding p) ∧
    (∀ peer ∈ oneGet.peers.peer, peer.maxConns ≠ 0 → peer.conns ≤ peer.maxConns) ∧
    (∀ request ∈ oneGet.requests, request.given.Nodup) ∧
    ∀ (r : Nat) (request : Request) (now : Int) (group : Peers) (rrp : PeerData),
      oneGet.requests[r]? = some request →
      getRoundRobinPeer now request.rrp [oneGet.peers] = ([group], rrp, true) →
        rrp.current ∉ request.given ∧
          ∃ peer, oneGet.peers.peer[rrp.current]? = some peer ∧ peer.down = false ∧
            ¬ (peer.maxFails ≠ 0 ∧ peer.maxFails ≤ peer.fails ∧
              now - peer.checked ≤ peer.failTimeout) :=
  round_robin_requests oneGet_reachable

end Upstream

end RebuildTheWheel.Nginx
