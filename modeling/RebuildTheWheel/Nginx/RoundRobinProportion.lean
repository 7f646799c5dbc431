import Mathlib.Algebra.BigOperators.Fin
import RebuildTheWheel.Data.SmoothWeights
import RebuildTheWheel.Nginx.RoundRobin

namespace RebuildTheWheel.Nginx

open Data Data.SmoothWeights RoundRobin

/-! Over a round the peers are chosen in proportion to their weights. -/

namespace RoundRobin

variable {n : Nat} {now : Int} {tried : Tried} {peers peers' : List Peer} {peer : Peer} {i : Fin n}

/-- Nothing has been tried yet. -/
def untried : Tried := fun _ => 0

def weightOf (peers : List Peer) (i : Fin n) : Int := (peers[i.1]?.map (·.weight.toInt)).getD 0

def currentOf (peers : List Peer) (i : Fin n) : Int :=
  (peers[i.1]?.map (·.currentWeight.toInt)).getD 0

/-- The peer is up, without failures and connection limit, and its weight is the configured one. -/
structure Healthy (peer : Peer) : Prop where
  weight : 0 < peer.weight.toInt
  effective : peer.effectiveWeight = peer.weight
  up : peer.down = false
  fails : peer.fails = 0
  unlimited : peer.maxConns = 0

theorem isTried_untried (i : Nat) : isTried untried i = false := by
  simp [isTried, untried]

theorem Healthy.skipped (h : Healthy peer) (now : Int) (i : Nat) :
    skipped now untried i peer = false := by
  have hfailing : peer.failing now = false := by
    rw [Peer.failing, h.fails]
    cases peer.maxFails <;> simp
  have hfull : peer.full = false := by
    rw [Peer.full, h.unlimited]
    rfl
  rw [RoundRobin.skipped, isTried_untried, h.up, hfailing, hfull]
  rfl

theorem Healthy.raise (h : Healthy peer) : peer.raise =
    { peer with currentWeight := peer.currentWeight + peer.weight } := by
  rw [Peer.raise, h.effective, if_neg Int64.lt_irrefl]

theorem Healthy.touch (h : Healthy peer) (now : Int) (i : Nat) :
    touch now untried i peer = { peer with currentWeight := peer.currentWeight + peer.weight } := by
  rw [RoundRobin.touch, h.skipped, if_neg (by decide), h.raise]

/-! The sums do not overflow. -/

theorem sum_weightOf (hlength : peers.length = n) :
    total (weightOf (n := n) peers) = (peers.map (·.weight.toInt)).sum := by
  subst hlength
  rw [← Fin.sum_univ_fun_getElem]
  refine Finset.sum_congr rfl fun i _ => ?_
  rw [weightOf, List.getElem?_eq_getElem i.2]
  rfl

theorem sum_currentOf (hlength : peers.length = n) :
    ∑ i, currentOf (n := n) peers i = (peers.map (·.currentWeight.toInt)).sum := by
  subst hlength
  rw [← Fin.sum_univ_fun_getElem]
  refine Finset.sum_congr rfl fun i _ => ?_
  rw [currentOf, List.getElem?_eq_getElem i.2]
  rfl

theorem totalOf_healthy (h : ∀ peer ∈ peers, Healthy peer)
    (hfits : (peers.map (·.weight.toInt)).sum < 2 ^ 63) (now : Int) (i : Nat) :
    (totalOf now untried i peers).toInt = (peers.map (·.weight.toInt)).sum ∧
      0 ≤ (peers.map (·.weight.toInt)).sum := by
  induction peers generalizing i with
  | nil => exact ⟨rfl, Int.le_refl 0⟩
  | cons peer peers ih =>
      rw [List.forall_mem_cons] at h
      rw [List.map_cons, List.sum_cons] at hfits ⊢
      have hpos := h.1.weight
      obtain ⟨hrest, hnonneg⟩ := ih h.2 (by omega) (i + 1)
      refine ⟨?_, by omega⟩
      rw [totalOf, h.1.skipped, if_neg (by decide), h.1.effective, toInt_add] <;> rw [hrest] <;> omega

/-- What the peers have is balanced, and a selection cannot overflow. -/
structure Ready (n : Nat) (peers : List Peer) : Prop where
  length : peers.length = n
  healthy : ∀ peer ∈ peers, Healthy peer
  balanced : Balanced (weightOf (n := n) peers) (currentOf peers)
  fits : n * total (weightOf (n := n) peers) < 2 ^ 63

theorem Ready.get? (h : Ready n peers) (i : Fin n) : ∃ peer, peers[i.1]? = some peer ∧ Healthy peer ∧
    weightOf peers i = peer.weight.toInt ∧ currentOf peers i = peer.currentWeight.toInt := by
  have hi : i.1 < peers.length := by
    rw [h.length]
    exact i.2
  have hget := List.getElem?_eq_getElem hi
  refine ⟨_, hget, h.healthy _ (List.getElem_mem hi), ?_, ?_⟩
  · rw [weightOf, hget]
    rfl
  · rw [currentOf, hget]
    rfl

theorem Ready.weight_pos (h : Ready n peers) (i : Fin n) : 0 < weightOf peers i := by
  obtain ⟨peer, -, hpeer, hweight, -⟩ := h.get? i
  rw [hweight]
  exact hpeer.weight

theorem Ready.weight_le (h : Ready n peers) (i : Fin n) :
    weightOf peers i ≤ total (weightOf (n := n) peers) :=
  Finset.single_le_sum (fun j _ => Int.le_of_lt (h.weight_pos j)) (Finset.mem_univ i)

/-- The bounds of what a peer has, before and after its weight is added. -/
theorem Ready.bounds (h : Ready n peers) (i : Fin n) :
    -2 ^ 63 < -total (weightOf (n := n) peers) ∧
      -total (weightOf (n := n) peers) < currentOf peers i ∧
      currentOf peers i + weightOf peers i < 2 ^ 63 := by
  have hle := h.balanced.le i
  have habove := h.balanced.above i
  have hweight := h.weight_le i
  have hpos := total_pos h.weight_pos i
  have hfits := h.fits
  have hn : 1 ≤ (n : Int) := by
    have := i.2
    omega
  have hone : total (weightOf (n := n) peers) ≤ n * total (weightOf (n := n) peers) := by
    calc total (weightOf (n := n) peers)
      _ = 1 * total (weightOf (n := n) peers) := (Int.one_mul _).symm
      _ ≤ n * total (weightOf (n := n) peers) := Int.mul_le_mul_of_nonneg_right hn (Int.le_of_lt hpos)
  rw [Fintype.card_fin, Int.sub_mul, Int.one_mul] at hle
  exact ⟨by omega, habove, by omega⟩

theorem Ready.raised (h : Ready n peers) {i : Fin n} {peer : Peer} (hpeer : peers[i.1]? = some peer) :
    (peer.currentWeight + peer.weight).toInt = currentOf peers i + weightOf peers i := by
  obtain ⟨peer', hpeer', -, hweight, hcurrent⟩ := h.get? i
  obtain rfl := Option.some.inj (hpeer.symm.trans hpeer')
  obtain ⟨hmin, habove, hbelow⟩ := h.bounds i
  have hpos := h.weight_pos i
  rw [hweight, hcurrent] at *
  exact toInt_add (by omega) hbelow

/-- A peer after a selection at `p`. -/
def after (now : Int) (p : Nat) (total : Int64) (k : Nat) (peer : Peer) : Peer :=
  let raised := { peer with currentWeight := peer.currentWeight + peer.weight }
  if k = p then raised.settle now total else raised

theorem Healthy.after (h : Healthy peer) (now : Int) (p : Nat) (total : Int64) (k : Nat) :
    Healthy (after now p total k peer) ∧ (after now p total k peer).weight = peer.weight := by
  rw [RoundRobin.after]
  split_ifs
  · exact ⟨⟨h.weight, h.effective, h.up, h.fails, h.unlimited⟩, rfl⟩
  · exact ⟨⟨h.weight, h.effective, h.up, h.fails, h.unlimited⟩, rfl⟩

theorem getElem?_after (h : ∀ peer ∈ peers, Healthy peer) {p : Nat} {q : Peer} (hq : peers[p]? = some q)
    (now : Int) (total : Int64) (k : Nat) :
    ((peers.mapIdx fun k => touch now untried (0 + k)).set p (q.raise.settle now total))[k]? =
      peers[k]?.map (after now p total k) := by
  have hp : p < peers.length := (List.getElem?_eq_some_iff.mp hq).1
  rw [List.getElem?_set, List.length_mapIdx]
  split_ifs with hk
  · subst hk
    rw [hq, (h q (List.mem_of_getElem? hq)).raise, Option.map_some, after, if_pos rfl]
  · rw [List.getElem?_mapIdx]
    cases hpeer : peers[k]? with
    | none => rfl
    | some peer =>
        rw [Option.map_some, Option.map_some, (h peer (List.mem_of_getElem? hpeer)).touch, after,
          if_neg (Ne.symm hk)]

/-- The peers after a selection of the one that leads. -/
theorem Ready.after (h : Ready n peers) (hleads : Leads (weightOf peers) (currentOf peers) i)
    (hlength : peers'.length = n) {sum : Int64} (hsum : sum.toInt = total (weightOf (n := n) peers))
    (hafter : ∀ k, peers'[k]? = peers[k]?.map (after now i.1 sum k)) :
    Ready n peers' ∧ weightOf (n := n) peers' = weightOf peers ∧
      currentOf peers' = pay (weightOf peers) (currentOf peers) i := by
  have hweight : weightOf (n := n) peers' = weightOf peers := by
    funext j
    obtain ⟨peer, hpeer, hhealthy, -⟩ := h.get? j
    rw [weightOf, weightOf, hafter, hpeer, Option.map_some, Option.map_some, Option.map_some,
      (hhealthy.after now i.1 sum j.1).2]
  have hcurrent : currentOf peers' = pay (weightOf peers) (currentOf peers) i := by
    funext j
    obtain ⟨peer, hpeer, -⟩ := h.get? j
    have hraised := h.raised hpeer
    obtain ⟨hmin, -, hhigh⟩ := h.bounds j
    rw [currentOf, hafter, hpeer, Option.map_some, Option.map_some, Option.getD_some, pay,
      RoundRobin.after]
    by_cases hj : j = i
    · subst hj
      have hlead := h.balanced.lead_pos h.weight_pos hleads
      have hpos := total_pos h.weight_pos j
      rw [if_pos rfl, if_pos rfl]
      change (peer.currentWeight + peer.weight - sum).toInt = _
      rw [toInt_sub, hraised, hsum] <;> rw [hraised, hsum] <;> omega
    · rw [if_neg fun heq => hj (Fin.ext heq), if_neg hj, Int.sub_zero]
      exact hraised
  refine ⟨⟨hlength, fun peer hpeer => ?_, ?_, ?_⟩, hweight, hcurrent⟩
  · obtain ⟨k, hk⟩ := List.mem_iff_getElem?.mp hpeer
    rw [hafter] at hk
    obtain ⟨old, hold, rfl⟩ := Option.map_eq_some_iff.mp hk
    exact ((h.healthy old (List.mem_of_getElem? hold)).after now i.1 sum k).1
  · rw [hweight, hcurrent]
    exact h.balanced.pay h.weight_pos hleads
  · rw [hweight]
    exact h.fits

/-- A selection from peers that are up: the one that leads pays. -/
theorem Ready.getPeer (h : Ready n peers) (hn : 0 < n) (now : Int) :
    ∃ peers' tried', ∃ i : Fin n, getPeer now untried peers = (peers', some (i.1, tried')) ∧
      Leads (weightOf peers) (currentOf peers) i ∧ Ready n peers' ∧
      weightOf (n := n) peers' = weightOf peers ∧
      currentOf peers' = pay (weightOf peers) (currentOf peers) i := by
  rw [Nginx.getPeer]
  generalize hloop : consider now untried 0 peers 0 none = result
  obtain ⟨peers₁, sum, best⟩ := result
  have hpeers : peers₁ = peers.mapIdx fun k => touch now untried (0 + k) := by
    rw [← consider_peers, hloop]
  have hsum : sum.toInt = total (weightOf (n := n) peers) := by
    have htotal : sum = 0 + totalOf now untried 0 peers := by
      rw [← consider_total, hloop]
    rw [htotal, Int64.zero_add, sum_weightOf h.length]
    refine (totalOf_healthy h.healthy ?_ now 0).1
    have hbounds := h.bounds ⟨0, hn⟩
    rw [← sum_weightOf h.length]
    omega
  cases best with
  | none =>
      obtain ⟨-, hall⟩ := consider_none (show (consider now untried 0 peers 0 none).2.2 = none by rw [hloop])
      obtain ⟨peer, hpeer, hhealthy, -⟩ := h.get? ⟨0, hn⟩
      have := hall 0 peer hpeer
      rw [hhealthy.skipped] at this
      cases this
  | some best =>
      obtain ⟨p, b⟩ := best
      have hbest := consider_best
        (show (consider now untried 0 peers 0 none).2.2 = some (p, b) by rw [hloop])
      obtain ⟨k, q, hk, hq, -, rfl⟩ := hbest.from_list.resolve_left (fun hnone => by cases hnone)
      obtain rfl : k = p := by omega
      have hlt : k < n := h.length ▸ (List.getElem?_eq_some_iff.mp hq).1
      have hleads : Leads (weightOf peers) (currentOf peers) ⟨k, hlt⟩ := by
        intro j
        obtain ⟨peer, hpeer, hhealthy, -⟩ := h.get? j
        have hle := hbest.above j.1 peer hpeer (hhealthy.skipped now _)
        rw [hhealthy.raise, (h.healthy q (List.mem_of_getElem? hq)).raise, Int64.le_iff_toInt_le,
          h.raised hpeer, h.raised (i := ⟨k, hlt⟩) hq] at hle
        exact hle
      have hafter := getElem?_after h.healthy hq now sum
      rw [← hpeers] at hafter
      refine ⟨_, _, ⟨k, hlt⟩, rfl, hleads, h.after hleads ?_ hsum hafter⟩
      rw [List.length_set, hpeers, List.length_mapIdx, h.length]

/-- Selections for fresh requests at the given times: the peers after them and the positions that
were chosen, the last one first. -/
def selections : List Int → List Peer → List (Option Nat) → List Peer × List (Option Nat)
  | [], peers, chosen => (peers, chosen)
  | now :: nows, peers, chosen =>
      let (peers, result) := Nginx.getPeer now untried peers
      selections nows peers (result.map Prod.fst :: chosen)

/-- Whatever the times are, the selections are choices of those that lead. -/
theorem Ready.selections (h : Ready n peers) (hn : 0 < n) (nows : List Int) {chosen : List (Fin n)}
    {w : Fin n → Int} (hw : weightOf peers = w) (hrun : Run w chosen (currentOf peers)) :
    ∃ peers' chosen', selections nows peers (chosen.map fun i => some i.1) =
        (peers', chosen'.map fun i => some i.1) ∧ Ready n peers' ∧ weightOf peers' = w ∧
      Run w chosen' (currentOf peers') ∧ chosen'.length = nows.length + chosen.length := by
  induction nows generalizing peers chosen with
  | nil => exact ⟨peers, chosen, rfl, h, hw, hrun, (Nat.zero_add _).symm⟩
  | cons now nows ih =>
      obtain ⟨peers₁, tried', i, hget, hleads, hready, hsame, hcurrent⟩ := h.getPeer hn now
      rw [hw] at hleads hsame hcurrent
      have hrun' : Run w (i :: chosen) (currentOf peers₁) := hcurrent ▸ .choose hrun hleads
      obtain ⟨peers', chosen', hselections, hready', hw', hrun'', hlength⟩ := ih hready hsame hrun'
      refine ⟨peers', chosen', ?_, hready', hw', hrun'', ?_⟩
      · rw [RoundRobin.selections, hget]
        exact hselections
      · rw [hlength, List.length_cons, List.length_cons]
        omega

/-- The state after configuration: healthy peers that have nothing. -/
structure Fresh (peers : List Peer) : Prop where
  several : 2 ≤ peers.length
  healthy : ∀ peer ∈ peers, Healthy peer
  nothing : ∀ peer ∈ peers, peer.currentWeight = 0

/-- `n * W` is in the range of `ngx_int_t`. -/
def SumsFit (peers : List Peer) : Prop :=
  peers.length * (peers.map (·.weight.toInt)).sum < 2 ^ 63

theorem Fresh.ready (h : Fresh peers) (hfits : SumsFit peers) :
    Ready peers.length peers ∧ currentOf (n := peers.length) peers = fun _ => 0 := by
  have hnothing : currentOf (n := peers.length) peers = fun _ => 0 := by
    funext i
    rw [currentOf, List.getElem?_eq_getElem i.2, Option.map_some, h.nothing _ (List.getElem_mem i.2)]
    rfl
  refine ⟨⟨rfl, h.healthy, ?_, ?_⟩, hnothing⟩
  · rw [hnothing]
    refine balanced_start fun i => ?_
    rw [weightOf, List.getElem?_eq_getElem i.2]
    exact (h.healthy _ (List.getElem_mem i.2)).weight
  · rw [sum_weightOf rfl]
    exact hfits

end RoundRobin

/-- After every selection what the peers have sums up to nothing and nobody owes the sum of the
weights; after a round all have been chosen as often as their weights say and have nothing. -/
theorem getPeer_proportional {peers : List Peer} (h : Fresh peers) (hfits : SumsFit peers)
    (nows : List Int) {peers' : List Peer} {chosen : List (Option Nat)}
    (hrun : selections nows peers [] = (peers', chosen)) :
    (peers'.map (·.currentWeight.toInt)).sum = 0 ∧
      (∀ peer ∈ peers', -(peers.map (·.weight.toInt)).sum < peer.currentWeight.toInt) ∧
      (nows.length = (peers.map (·.weight.toInt)).sum →
        (∀ i peer, peers[i]? = some peer → (chosen.count (some i) : Int) = peer.weight.toInt) ∧
          ∀ peer ∈ peers', peer.currentWeight = 0) := by
  obtain ⟨hready, hnothing⟩ := h.ready hfits
  have hn : 0 < peers.length := Nat.lt_of_lt_of_le Nat.zero_lt_two h.several
  have hstart : Run (weightOf (n := peers.length) peers) [] (currentOf peers) := hnothing ▸ .start
  obtain ⟨peers₁, chosen₁, hselections, hready', hw, hrun', hlength⟩ :=
    hready.selections hn nows rfl hstart
  obtain ⟨rfl, rfl⟩ := Prod.mk.inj (hselections.symm.trans hrun)
  have hget (peer : Peer) (hpeer : peer ∈ peers₁) : ∃ i : Fin peers.length,
      currentOf peers₁ i = peer.currentWeight.toInt := by
    obtain ⟨k, hk⟩ := List.mem_iff_getElem?.mp hpeer
    have hlt : k < peers.length := hready'.length ▸ (List.getElem?_eq_some_iff.mp hk).1
    refine ⟨⟨k, hlt⟩, ?_⟩
    rw [currentOf, hk]
    rfl
  rw [← sum_weightOf rfl]
  refine ⟨?_, fun peer hpeer => ?_, fun hround => ⟨fun k peer hpeer => ?_, fun peer hpeer => ?_⟩⟩
  · rw [← sum_currentOf hready'.length]
    exact hready'.balanced.sum
  · obtain ⟨i, hi⟩ := hget peer hpeer
    rw [← hi, ← hw]
    exact hready'.balanced.above i
  · have hlt : k < peers.length := (List.getElem?_eq_some_iff.mp hpeer).1
    have hcount := (hrun'.proportional hready.weight_pos (by simpa [hlength] using hround) ⟨k, hlt⟩).1
    rw [weightOf, hpeer] at hcount
    have hinjective : Function.Injective fun i : Fin peers.length => some i.1 :=
      fun i j heq => Fin.ext (Option.some.inj heq)
    rw [← List.count_map_of_injective chosen₁ _ hinjective] at hcount
    exact hcount
  · obtain ⟨i, hi⟩ := hget peer hpeer
    have hzero := (hrun'.proportional hready.weight_pos (by simpa [hlength] using hround) i).2
    exact Int64.toInt_inj.mp (hi.symm.trans hzero)

def plainPeer (weight : Int64) : Peer := ⟨0, weight, weight, 0, 0, 0, 0, 0, 1, 10, false⟩

theorem fresh_two : Fresh [plainPeer 2, plainPeer 1] where
  several := by decide
  healthy := by
    refine List.forall_mem_cons.mpr ⟨?_, List.forall_mem_singleton.mpr ?_⟩ <;>
      exact ⟨by decide, rfl, rfl, rfl, rfl⟩
  nothing := by
    refine List.forall_mem_cons.mpr ⟨rfl, List.forall_mem_singleton.mpr rfl⟩

theorem getPeer_two_to_one :
    (((selections [5, 6, 7] [plainPeer 2, plainPeer 1] []).1.map (·.currentWeight.toInt)).sum = 0 ∧
      (∀ peer ∈ (selections [5, 6, 7] [plainPeer 2, plainPeer 1] []).1,
        -3 < peer.currentWeight.toInt) ∧
      ((3 : Int) = 3 →
        (∀ i peer, [plainPeer 2, plainPeer 1][i]? = some peer →
          ((selections [5, 6, 7] [plainPeer 2, plainPeer 1] []).2.count (some i) : Int) =
            peer.weight.toInt) ∧
          ∀ peer ∈ (selections [5, 6, 7] [plainPeer 2, plainPeer 1] []).1, peer.currentWeight = 0)) :=
  getPeer_proportional fresh_two (by rw [SumsFit]; decide) [5, 6, 7] rfl

/-- Three peers with the largest weight that the configuration takes. -/
def largestPeers : List Peer := List.replicate 3 (plainPeer 9223372036854775807)

theorem getPeer_overflows :
    Fresh largestPeers ∧
      ((getPeer 0 untried largestPeers).1.map (·.currentWeight.toInt)).sum ≠ 0 := by
  refine ⟨⟨by decide, fun peer hpeer => ?_, fun peer hpeer => ?_⟩, by decide⟩
  · obtain rfl := List.eq_of_mem_replicate hpeer
    exact ⟨by decide, rfl, rfl, rfl, rfl⟩
  · obtain rfl := List.eq_of_mem_replicate hpeer
    rfl

end RebuildTheWheel.Nginx
