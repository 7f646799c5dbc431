import Mathlib.Algebra.Group.Int.Defs
import Mathlib.Logic.Function.Basic
import Mathlib.Tactic.SplitIfs

namespace RebuildTheWheel.Nginx

/-! `ngx_http_upstream_round_robin.c`: the choice of a peer for a request, and what is done with it
afterwards. -/

/-- `ngx_http_upstream_rr_peer_t`. Times are in seconds, and the counters are not bounded. -/
structure Peer where
  currentWeight : Int64
  effectiveWeight : Int64
  weight : Int64
  conns : Nat
  maxConns : Nat
  fails : Nat
  accessed : Int
  checked : Int
  maxFails : Nat
  failTimeout : Int
  down : Bool

/-- `ngx_http_upstream_rr_peers_t`; the groups after it are those of `next`. -/
structure Peers where
  single : Bool
  peer : List Peer

/-- The words of the bitmap. -/
abbrev Tried := Nat → UInt64

/-- `ngx_http_upstream_rr_peer_data_t`, with `tries` of the connection. `peers` tells how many groups
have been left, and `current` is the position in the list. -/
structure PeerData where
  peers : Nat
  current : Nat
  tried : Tried
  tries : Nat

namespace RoundRobin

def bit (i : Nat) : UInt64 := 1 <<< UInt64.ofNat (i % 64)

def isTried (tried : Tried) (i : Nat) : Bool := tried (i / 64) &&& bit i ≠ 0

def mark (tried : Tried) (i : Nat) : Tried :=
  Function.update tried (i / 64) (tried (i / 64) ||| bit i)

end RoundRobin

namespace Peer

/-- The peer has reached `max_fails` within `fail_timeout` of its last check. -/
def failing (now : Int) (peer : Peer) : Bool :=
  peer.maxFails ≠ 0 && peer.maxFails ≤ peer.fails && now - peer.checked ≤ peer.failTimeout

def full (peer : Peer) : Bool := peer.maxConns ≠ 0 && peer.maxConns ≤ peer.conns

def raise (peer : Peer) : Peer :=
  { peer with
    currentWeight := peer.currentWeight + peer.effectiveWeight
    effectiveWeight :=
      if peer.effectiveWeight < peer.weight then peer.effectiveWeight + 1 else peer.effectiveWeight }

/-- What is done with the peer that has been chosen. -/
def settle (now : Int) (total : Int64) (peer : Peer) : Peer :=
  { peer with
    currentWeight := peer.currentWeight - total
    checked := if peer.failTimeout < now - peer.checked then now else peer.checked }

end Peer

namespace RoundRobin

def skipped (now : Int) (tried : Tried) (i : Nat) (peer : Peer) : Bool :=
  isTried tried i || peer.down || peer.failing now || peer.full

/-- `if (best == NULL || peer->current_weight > best->current_weight)` -/
def better (i : Nat) (peer : Peer) : Option (Nat × Peer) → Nat × Peer
  | none => (i, peer)
  | some best => if best.2.currentWeight < peer.currentWeight then (i, peer) else best

/-- The loop of `ngx_http_upstream_get_peer` from the `i`-th peer on: the peers, `total` and `best`
with its position. -/
def consider (now : Int) (tried : Tried) :
    Nat → List Peer → Int64 → Option (Nat × Peer) → List Peer × Int64 × Option (Nat × Peer)
  | _, [], total, best => ([], total, best)
  | i, peer :: peers, total, best =>
      if skipped now tried i peer then
        let (peers, result) := consider now tried (i + 1) peers total best
        (peer :: peers, result)
      else
        let (peers, result) := consider now tried (i + 1) peers (total + peer.effectiveWeight)
          (some (better i peer.raise best))
        (peer.raise :: peers, result)

end RoundRobin

open RoundRobin

/-- `ngx_http_upstream_get_peer`: the peers, and the position of the one that is chosen. -/
def getPeer (now : Int) (tried : Tried) (peers : List Peer) : List Peer × Option (Nat × Tried) :=
  match consider now tried 0 peers 0 none with
  | (peers, _, none) => (peers, none)
  | (peers, total, some (p, best)) =>
      (peers.set p (best.settle now total), some (p, mark tried p))

namespace RoundRobin

def addConn (peer : Peer) : Peer := { peer with conns := peer.conns + 1 }

/-- The choice within a group. -/
def choose (now : Int) (rrp : PeerData) (peers : Peers) : Peers × Option PeerData :=
  if peers.single then
    match peers.peer with
    | [] => (peers, none)
    | peer :: rest =>
        if peer.down || peer.full then (peers, none)
        else ({ peers with peer := addConn peer :: rest }, some { rrp with current := 0 })
  else
    match getPeer now rrp.tried peers.peer with
    | (peer, none) => ({ peers with peer := peer }, none)
    | (peer, some (p, tried)) =>
        ({ peers with peer := peer.modify p addConn },
          some { rrp with current := p, tried := tried })

/-- `rrp->tried[i] = 0` for all words that `number` peers need. -/
def clear (number : Nat) (tried : Tried) : Tried :=
  fun n => if n < (number + 63) / 64 then 0 else tried n

end RoundRobin

/-- `ngx_http_upstream_get_round_robin_peer` with the group of the request and those after it; the
last component is false for `NGX_BUSY`. -/
def getRoundRobinPeer (now : Int) (rrp : PeerData) : List Peers → List Peers × PeerData × Bool
  | [] => ([], rrp, false)
  | peers :: next =>
      match choose now rrp peers with
      | (peers, some rrp) => (peers :: next, rrp, true)
      | (peers, none) =>
          match next with
          | [] => ([peers], rrp, false)
          | backup :: _ =>
              let rrp :=
                { rrp with peers := rrp.peers + 1, tried := clear backup.peer.length rrp.tried }
              let (next, result) := getRoundRobinPeer now rrp next
              (peers :: next, result)

namespace RoundRobin

/-- What a failure or a success changes in the peer. -/
def report (now : Int) (failed : Bool) (peer : Peer) : Peer :=
  if failed then
    let effectiveWeight :=
      if peer.maxFails ≠ 0 then
        peer.effectiveWeight - Int64.ofNat (peer.weight.toUInt64.toNat / peer.maxFails)
      else peer.effectiveWeight
    { peer with
      fails := peer.fails + 1
      accessed := now
      checked := now
      effectiveWeight := if effectiveWeight < 0 then 0 else effectiveWeight }
  else if peer.accessed < peer.checked then { peer with fails := 0 }
  else peer

def dropConn (peer : Peer) : Peer := { peer with conns := peer.conns - 1 }

end RoundRobin

/-- `ngx_http_upstream_free_round_robin_peer` with the group of the request. -/
def freeRoundRobinPeer (now : Int) (failed : Bool) (rrp : PeerData) (peers : Peers) :
    Peers × PeerData :=
  if peers.single then
    ({ peers with peer := peers.peer.modify rrp.current dropConn }, { rrp with tries := 0 })
  else
    ({ peers with peer := peers.peer.modify rrp.current fun peer => dropConn (report now failed peer) },
      { rrp with tries := rrp.tries - 1 })

end RebuildTheWheel.Nginx

namespace RebuildTheWheel.Nginx

/-! What `ngx_http_upstream_get_peer` does with the peers. -/

namespace RoundRobin

variable {now : Int} {tried tried' : Tried} {i k p : Nat} {peer q b : Peer} {peers peers' : List Peer}
  {total : Int64} {best : Option (Nat × Peer)}

/-- What the loop does with the `i`-th peer. -/
def touch (now : Int) (tried : Tried) (i : Nat) (peer : Peer) : Peer :=
  if skipped now tried i peer then peer else peer.raise

/-- The sum of the effective weights of the peers that are not skipped. -/
def totalOf (now : Int) (tried : Tried) : Nat → List Peer → Int64
  | _, [] => 0
  | i, peer :: peers =>
      (if skipped now tried i peer then 0 else peer.effectiveWeight) + totalOf now tried (i + 1) peers

theorem consider_peers : (consider now tried i peers total best).1 =
    peers.mapIdx fun k => touch now tried (i + k) := by
  induction peers generalizing i total best with
  | nil => rfl
  | cons peer peers ih =>
      have hshift : (fun k => touch now tried (i + (k + 1))) = fun k => touch now tried (i + 1 + k) := by
        funext k
        rw [Nat.add_assoc, Nat.add_comm 1 k]
      rw [List.mapIdx_cons, hshift, Nat.add_zero, consider]
      split_ifs with hskip
      · rw [touch, if_pos hskip]
        exact congrArg (peer :: ·) ih
      · rw [touch, if_neg hskip]
        exact congrArg (peer.raise :: ·) ih

theorem consider_total : (consider now tried i peers total best).2.1 =
    total + totalOf now tried i peers := by
  induction peers generalizing i total best with
  | nil => exact (Int64.add_zero total).symm
  | cons peer peers ih =>
      rw [consider, totalOf]
      split_ifs with hskip
      · rw [Int64.zero_add]
        exact ih
      · rw [← Int64.add_assoc]
        exact ih

/-- `b` at `p` is the first of those that have the most. -/
structure Best (now : Int) (tried : Tried) (i : Nat) (peers : List Peer)
    (best : Option (Nat × Peer)) (p : Nat) (b : Peer) : Prop where
  from_list : best = some (p, b) ∨
    ∃ k q, p = i + k ∧ peers[k]? = some q ∧ skipped now tried p q = false ∧ b = q.raise
  above_old : ∀ old ∈ best, old.2.currentWeight ≤ b.currentWeight
  above : ∀ k q, peers[k]? = some q → skipped now tried (i + k) q = false →
    q.raise.currentWeight ≤ b.currentWeight

theorem Best.cons_skipped (h : Best now tried (i + 1) peers best p b)
    (hskip : skipped now tried i peer = true) : Best now tried i (peer :: peers) best p b where
  from_list := h.from_list.imp id fun ⟨k, q, hp, hq, hrest⟩ => ⟨k + 1, q, by omega, hq, hrest⟩
  above_old := h.above_old
  above k q hq hneq := by
    cases k with
    | zero =>
        obtain rfl := Option.some.inj hq
        rw [Nat.add_zero, hskip] at hneq
        exact nomatch hneq
    | succ k => exact h.above k q hq (by rwa [Nat.add_assoc, Nat.add_comm 1 k])

theorem Best.cons {best' : Nat × Peer} (h : Best now tried (i + 1) peers (some best') p b)
    (hskip : skipped now tried i peer = false)
    (hnew : best' = (i, peer.raise) ∨ best = some best')
    (hold : ∀ old ∈ best, old.2.currentWeight ≤ best'.2.currentWeight)
    (hpeer : peer.raise.currentWeight ≤ best'.2.currentWeight) :
    Best now tried i (peer :: peers) best p b where
  from_list := by
    rcases h.from_list with heq | ⟨k, q, hp, hq, hrest⟩
    · rcases hnew with rfl | hnew
      · obtain ⟨rfl, rfl⟩ := Prod.mk.inj (Option.some.inj heq)
        exact .inr ⟨0, peer, rfl, rfl, hskip, rfl⟩
      · exact .inl (hnew.trans heq)
    · exact .inr ⟨k + 1, q, by omega, hq, hrest⟩
  above_old old hmem := Int64.le_trans (hold old hmem) (h.above_old best' rfl)
  above k q hq hneq := by
    cases k with
    | zero =>
        obtain rfl := Option.some.inj hq
        exact Int64.le_trans hpeer (h.above_old best' rfl)
    | succ k => exact h.above k q hq (by rwa [Nat.add_assoc, Nat.add_comm 1 k])

theorem consider_best (h : (consider now tried i peers total best).2.2 = some (p, b)) :
    Best now tried i peers best p b := by
  induction peers generalizing i total best with
  | nil =>
      obtain rfl : best = some (p, b) := h
      refine ⟨.inl rfl, fun old hold => ?_, nofun⟩
      obtain rfl := Option.some.inj hold
      exact Int64.le_refl _
  | cons peer peers ih =>
      rw [consider] at h
      by_cases hskip : skipped now tried i peer = true
      · rw [if_pos hskip] at h
        exact (ih h).cons_skipped hskip
      · rw [if_neg hskip] at h
        rw [Bool.not_eq_true] at hskip
        cases best with
        | none => exact (ih h).cons hskip (.inl rfl) nofun (Int64.le_refl _)
        | some old =>
            rw [better] at h
            split_ifs at h with hlt
            · refine (ih h).cons hskip (.inl rfl) (fun old' hold => ?_) (Int64.le_refl _)
              obtain rfl := Option.some.inj hold
              exact Int64.le_of_lt hlt
            · refine (ih h).cons hskip (.inr rfl) (fun old' hold => ?_) (Int64.not_lt.mp hlt)
              obtain rfl := Option.some.inj hold
              exact Int64.le_refl _

/-- Nobody is chosen only if all are skipped. -/
theorem consider_none (h : (consider now tried i peers total best).2.2 = none) :
    best = none ∧ ∀ k q, peers[k]? = some q → skipped now tried (i + k) q = true := by
  induction peers generalizing i total best with
  | nil => exact ⟨h, nofun⟩
  | cons peer peers ih =>
      rw [consider] at h
      by_cases hskip : skipped now tried i peer = true
      · rw [if_pos hskip] at h
        obtain ⟨hbest, hrest⟩ := ih h
        refine ⟨hbest, fun k q hq => ?_⟩
        cases k with
        | zero =>
            obtain rfl := Option.some.inj hq
            exact hskip
        | succ k =>
            have := hrest k q hq
            rwa [Nat.add_assoc, Nat.add_comm 1 k] at this
      · rw [if_neg hskip] at h
        exact nomatch (ih h).1

/-! Sums in the range of `ngx_int_t`. -/

theorem toInt_add {a b : Int64} (hlow : -2 ^ 63 ≤ a.toInt + b.toInt) (hhigh : a.toInt + b.toInt < 2 ^ 63) :
    (a + b).toInt = a.toInt + b.toInt := by
  rw [Int64.toInt_add]
  exact Int.bmod_eq_of_le (by omega) (by omega)

theorem toInt_sub {a b : Int64} (hlow : -2 ^ 63 ≤ a.toInt - b.toInt) (hhigh : a.toInt - b.toInt < 2 ^ 63) :
    (a - b).toInt = a.toInt - b.toInt := by
  rw [Int64.toInt_sub]
  exact Int.bmod_eq_of_le (by omega) (by omega)

/-! What a selection does, peer by peer. -/

theorem getPeer_some (h : getPeer now tried peers = (peers', some (p, tried'))) :
    tried' = mark tried p ∧ (∃ q, peers[p]? = some q ∧ skipped now tried p q = false) ∧
      ∃ sum, ∀ k, peers'[k]? = peers[k]?.map fun peer =>
        if k = p then peer.raise.settle now sum else touch now tried k peer := by
  rw [getPeer] at h
  generalize hloop : consider now tried 0 peers 0 none = result at h
  obtain ⟨peers₁, sum, best⟩ := result
  have hpeers : peers₁ = peers.mapIdx fun k => touch now tried (0 + k) := by
    rw [← consider_peers, hloop]
  cases best with
  | none => exact nomatch h
  | some best =>
      obtain ⟨p', b⟩ := best
      have hbest := consider_best
        (show (consider now tried 0 peers 0 none).2.2 = some (p', b) by rw [hloop])
      obtain ⟨k, q, hk, hq, hskip, rfl⟩ := hbest.from_list.resolve_left fun hnone => nomatch hnone
      obtain ⟨rfl, heq⟩ := Prod.mk.inj h
      obtain ⟨rfl, rfl⟩ := Prod.mk.inj (Option.some.inj heq)
      obtain rfl : k = p' := by omega
      refine ⟨rfl, ⟨q, hq, hskip⟩, sum, fun j => ?_⟩
      have hlt : k < peers.length := (List.getElem?_eq_some_iff.mp hq).1
      rw [hpeers, List.getElem?_set, List.length_mapIdx, List.getElem?_mapIdx]
      by_cases hj : k = j
      · subst hj
        rw [if_pos rfl, if_pos hlt, hq, Option.map_some, if_pos rfl]
      · rw [if_neg hj]
        cases peers[j]? with
        | none => rfl
        | some peer => rw [Option.map_some, Option.map_some, if_neg (Ne.symm hj), Nat.zero_add]

theorem getPeer_none (h : getPeer now tried peers = (peers', none)) : peers' = peers := by
  rw [getPeer] at h
  generalize hloop : consider now tried 0 peers 0 none = result at h
  obtain ⟨peers₁, sum, best⟩ := result
  cases best with
  | some best => exact nomatch h
  | none =>
      obtain ⟨rfl, -⟩ := Prod.mk.inj h
      obtain ⟨-, hall⟩ := consider_none
        (show (consider now tried 0 peers 0 none).2.2 = none by rw [hloop])
      have hpeers : peers₁ = peers.mapIdx fun k => touch now tried (0 + k) := by
        rw [← consider_peers, hloop]
      refine List.ext_getElem? fun k => ?_
      rw [hpeers, List.getElem?_mapIdx]
      cases hpeer : peers[k]? with
      | none => rfl
      | some peer => rw [Option.map_some, touch, if_pos (hall k peer hpeer)]

end RoundRobin

end RebuildTheWheel.Nginx
