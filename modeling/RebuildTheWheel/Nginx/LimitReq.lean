import Mathlib.Algebra.Group.Nat.Defs
import Mathlib.Tactic.SplitIfs
import RebuildTheWheel.Data.LeakyBucket

namespace RebuildTheWheel.Nginx

/-! `ngx_http_limit_req_module.c`: the nodes of a zone, and the request that is accounted to one. -/

inductive LimitReqResult where
  | ok
  | again
  | busy
  | error
deriving DecidableEq

/-- `ngx_http_limit_req_node_t`. Amounts are in thousandths of a request, times in milliseconds. -/
structure LimitReqNode where
  last : UInt64
  excess : UInt64
  count : UInt64

/-- `ngx_http_limit_req_ctx_t` with its shared part: the nodes with their keys, those used last
first, and the key of `node`. -/
structure LimitReqCtx where
  rate : UInt64
  queue : List (List UInt8 × LimitReqNode)
  node : Option (List UInt8)

namespace LimitReq

/-- `ngx_abs((ngx_msec_int_t) (now - last))` -/
def elapsed (now last : UInt64) : Int64 :=
  let ms := (now - last).toInt64
  if 0 ≤ ms then ms else -ms

/-- What has leaked since the last request. -/
def leaked (rate now : UInt64) (lr : LimitReqNode) : UInt64 :=
  rate * (elapsed now lr.last).toUInt64 / 1000

def excessOf (rate now : UInt64) (lr : LimitReqNode) : Int64 :=
  let excess := (lr.excess - leaked rate now lr + 1000).toInt64
  if excess < 0 then 0 else excess

/-- The loop of `ngx_http_limit_req_expire`, with the nodes from the end of the queue. -/
def expireLast (rate now : UInt64) : Nat → List (List UInt8 × LimitReqNode) → List (List UInt8 × LimitReqNode)
  | _, [] => []
  | n, (key, lr) :: rest =>
      if 3 ≤ n then (key, lr) :: rest
      else if lr.count ≠ 0 then (key, lr) :: rest
      else if n ≠ 0 ∧ (elapsed now lr.last < 60000 ∨ 0 < (lr.excess - leaked rate now lr).toInt64) then
        (key, lr) :: rest
      else expireLast rate now (n + 1) rest

/-- `ngx_http_limit_req_expire` -/
def expire (now : UInt64) (n : Nat) (ctx : LimitReqCtx) : LimitReqCtx :=
  { ctx with queue := (expireLast ctx.rate now n ctx.queue.reverse).reverse }

/-- The node is moved to the head of the queue. -/
def replace (key : List UInt8) (lr : LimitReqNode) (ctx : LimitReqCtx) : LimitReqCtx :=
  { ctx with queue := (key, lr) :: ctx.queue.filter (·.1 ≠ key) }

end LimitReq

open LimitReq

/-- `ngx_http_limit_req_lookup`: the result, `*ep` and the zone. `fits` and `again` tell whether the
slab pool has room for a node, at first and after an entry has been deleted by force. -/
def limitReqLookup (burst : UInt64) (key : List UInt8) (account : Bool) (now : UInt64)
    (fits again : Bool) (ctx : LimitReqCtx) : LimitReqResult × Int64 × LimitReqCtx :=
  match ctx.queue.lookup key with
  | some lr =>
      let excess := excessOf ctx.rate now lr
      if burst < excess.toUInt64 then (.busy, excess, replace key lr ctx)
      else if account then
        (.ok, excess, replace key { lr with excess := excess.toUInt64, last := now } ctx)
      else
        (.again, excess,
          { replace key { lr with count := lr.count + 1 } ctx with node := some key })
  | none =>
      let ctx := expire now 1 ctx
      let ctx := if fits then ctx else expire now 0 ctx
      if fits || again then
        if account then (.ok, 0, replace key ⟨now, 0, 0⟩ ctx)
        else (.again, 0, { replace key ⟨0, 0, 1⟩ ctx with node := some key })
      else (.error, 0, ctx)

end RebuildTheWheel.Nginx

namespace RebuildTheWheel.Nginx

/-! The requests of one key that a limit accepts. -/

/-- A zone in use. `accepted` are the times of the requests of the key that have been accepted, the
last one first. -/
structure LimitReqZone where
  ctx : LimitReqCtx
  clock : UInt64
  accepted : List UInt64

namespace LimitReqZone

def held (key : List UInt8) (zone : LimitReqZone) : Option LimitReqNode := zone.ctx.queue.lookup key

/-- A request of the key is accounted to the limit, or one of another key to any limit of the zone. -/
inductive Step (burst : UInt64) (key : List UInt8) : LimitReqZone → LimitReqZone → Prop where
  | request : zone.clock ≤ now →
      (∀ lr, zone.held key = some lr →
        zone.ctx.rate.toNat * (now.toNat - lr.last.toNat) < 2 ^ 64) →
      limitReqLookup burst key true now fits again zone.ctx = (rc, excess, next) →
      Step burst key zone ⟨next, now, if rc = .ok then now :: zone.accepted else zone.accepted⟩
  | other : zone.clock ≤ now → key' ≠ key →
      limitReqLookup burst' key' account now fits again zone.ctx = (rc, excess, next) →
      ((zone.held key).isSome → (next.queue.lookup key).isSome) →
      Step burst key zone ⟨next, now, zone.accepted⟩

/-- The key has no node yet, or one from before. -/
structure Initial (burst : UInt64) (key : List UInt8) (zone : LimitReqZone) : Prop where
  nothing : zone.accepted = []
  before : ∀ lr, zone.held key = some lr → lr.excess ≤ burst ∧ lr.last ≤ zone.clock

inductive Reachable (rate burst : UInt64) (key : List UInt8) : LimitReqZone → Prop where
  | initial : zone.ctx.rate = rate → Initial burst key zone → Reachable rate burst key zone
  | step : Reachable rate burst key zone → Step burst key zone zone' →
      Reachable rate burst key zone'

end LimitReqZone

namespace LimitReq

variable {burst rate now : UInt64} {key key' : List UInt8} {lr lr' : LimitReqNode}
  {ctx ctx' : LimitReqCtx} {n : Nat} {nodes : List (List UInt8 × LimitReqNode)}

/-! The nodes of a zone. -/

theorem expireLast_suffix : expireLast rate now n nodes <:+ nodes := by
  induction nodes generalizing n with
  | nil => exact List.suffix_rfl
  | cons entry nodes ih =>
      rw [expireLast]
      split_ifs
      · exact List.suffix_rfl
      · exact List.suffix_rfl
      · exact List.suffix_rfl
      · exact ih.trans (List.suffix_cons ..)

theorem expire_append : ∃ deleted, (expire now n ctx).queue ++ deleted = ctx.queue := by
  obtain ⟨deleted, hdeleted⟩ : expireLast ctx.rate now n ctx.queue.reverse <:+ ctx.queue.reverse :=
    expireLast_suffix
  refine ⟨deleted.reverse, ?_⟩
  rw [expire, ← List.reverse_append, hdeleted, List.reverse_reverse]

theorem lookup_replace_self : (replace key lr ctx).queue.lookup key = some lr := by
  rw [replace]
  exact List.lookup_cons_self

theorem lookup_filter (h : key ≠ key') :
    (nodes.filter (·.1 ≠ key')).lookup key = nodes.lookup key := by
  induction nodes with
  | nil => rfl
  | cons entry nodes ih =>
      obtain ⟨other, lr⟩ := entry
      by_cases hother : other = key'
      · subst hother
        rw [List.filter_cons_of_neg (by simp), ih, List.lookup_cons, beq_false_of_ne h]
      · rw [List.filter_cons_of_pos (by simpa using hother), List.lookup_cons, List.lookup_cons, ih]

theorem lookup_replace_of_ne (h : key ≠ key') :
    (replace key' lr ctx).queue.lookup key = ctx.queue.lookup key := by
  rw [replace, List.lookup_cons, beq_false_of_ne h]
  exact lookup_filter h

/-- A node that has not been deleted is as before. -/
theorem lookup_expire (h : (expire now n ctx).queue.lookup key = some lr) :
    ctx.queue.lookup key = some lr := by
  obtain ⟨deleted, hdeleted⟩ : ∃ deleted, (expire now n ctx).queue ++ deleted = ctx.queue :=
    expire_append
  rw [← hdeleted, List.lookup_append, h, Option.some_or]

/-! What is computed for a request. -/

theorem toInt64_nonneg (d : UInt64) : 0 ≤ d.toInt64 ↔ d.toNat < 2 ^ 63 := by
  have hcond := BitVec.toInt_eq_toNat_cond d.toBitVec
  rw [Int64.le_iff_toInt_le]
  change 0 ≤ d.toBitVec.toInt ↔ d.toBitVec.toNat < 2 ^ 63
  rw [hcond]
  have := d.toBitVec.isLt
  split_ifs <;> omega

theorem elapsed_le (h : lr.last ≤ now) :
    (elapsed now lr.last).toUInt64.toNat ≤ now.toNat - lr.last.toNat := by
  have hdiff : (now - lr.last).toNat = now.toNat - lr.last.toNat := UInt64.toNat_sub_of_le _ _ h
  rw [elapsed, ← hdiff]
  split_ifs with hsign
  · exact Nat.le_refl _
  · rw [toInt64_nonneg] at hsign
    have hneg : (-(now - lr.last)).toNat = 2 ^ 64 - (now - lr.last).toNat := by
      rw [UInt64.toNat_neg]
      exact Nat.mod_eq_of_lt (Nat.sub_lt (by decide) (by omega))
    change (-(now - lr.last)).toNat ≤ _
    omega

theorem excessOf_toNat (hexcess : lr.excess ≤ burst) (hburst : burst.toNat + 1000 < 2 ^ 63)
    (hlast : lr.last ≤ now) (hfits : rate.toNat * (now.toNat - lr.last.toNat) < 2 ^ 64) :
    (excessOf rate now lr).toUInt64.toNat =
      lr.excess.toNat + 1000 - rate.toNat * (elapsed now lr.last).toUInt64.toNat / 1000 := by
  have hprod : rate.toNat * (elapsed now lr.last).toUInt64.toNat < 2 ^ 64 :=
    Nat.lt_of_le_of_lt (Nat.mul_le_mul_left _ (elapsed_le hlast)) hfits
  have hleaked : (leaked rate now lr).toNat =
      rate.toNat * (elapsed now lr.last).toUInt64.toNat / 1000 := by
    rw [leaked, UInt64.toNat_div, UInt64.toNat_mul, Nat.mod_eq_of_lt hprod]
    rfl
  rw [← hleaked, excessOf]
  have hsmall : (leaked rate now lr).toNat ≤ 2 ^ 64 / 1000 := by
    rw [hleaked]
    exact Nat.div_le_div_right (Nat.le_of_lt hprod)
  have hle := UInt64.le_iff_toNat_le.mp hexcess
  have hsum : (lr.excess - leaked rate now lr + 1000).toNat =
      (2 ^ 64 - (leaked rate now lr).toNat + lr.excess.toNat + 1000) % 2 ^ 64 := by
    rw [UInt64.toNat_add, UInt64.toNat_sub, Nat.mod_add_mod]
    rfl
  by_cases hmore : (leaked rate now lr).toNat ≤ lr.excess.toNat + 1000
  · have hvalue : (lr.excess - leaked rate now lr + 1000).toNat =
        lr.excess.toNat + 1000 - (leaked rate now lr).toNat := by omega
    have hsign : ¬ (lr.excess - leaked rate now lr + 1000).toInt64 < 0 := by
      rw [Int64.not_lt, toInt64_nonneg]
      omega
    rw [if_neg hsign]
    exact hvalue
  · have hsign : (lr.excess - leaked rate now lr + 1000).toInt64 < 0 := by
      rw [← Int64.not_le, toInt64_nonneg]
      omega
    rw [if_pos hsign]
    change 0 = _
    omega

/-! What a request does with the nodes. -/

variable {account fits again : Bool} {rc : LimitReqResult} {excess : Int64}

/-- What is known after a request of the key has been accounted. -/
inductive Accounted (burst rate now : UInt64) (old new : Option LimitReqNode) : LimitReqResult → Prop where
  | created : old = none → new = some ⟨now, 0, 0⟩ → Accounted burst rate now old new .ok
  | accepted (lr : LimitReqNode) : old = some lr → (excessOf rate now lr).toUInt64 ≤ burst →
      new = some ⟨now, (excessOf rate now lr).toUInt64, lr.count⟩ → Accounted burst rate now old new .ok
  | refused (rc : LimitReqResult) : rc ≠ .ok → new = old → Accounted burst rate now old new rc

/-- Old nodes may be deleted for a new one. -/
theorem lookup_room (h : (if fits = true then expire now 1 ctx
    else expire now 0 (expire now 1 ctx)).queue.lookup key = some lr) :
    ctx.queue.lookup key = some lr := by
  split_ifs at h
  · exact lookup_expire h
  · exact lookup_expire (lookup_expire h)

theorem rate_room :
    (if fits = true then expire now 1 ctx else expire now 0 (expire now 1 ctx)).rate = ctx.rate := by
  split_ifs <;> rfl

theorem limitReqLookup_accounted
    (h : limitReqLookup burst key true now fits again ctx = (rc, excess, ctx')) :
    ctx'.rate = ctx.rate ∧
      Accounted burst ctx.rate now (ctx.queue.lookup key) (ctx'.queue.lookup key) rc := by
  rw [limitReqLookup] at h
  cases hheld : ctx.queue.lookup key with
  | some lr =>
      simp only [hheld, if_true] at h
      by_cases hbusy : burst < (excessOf ctx.rate now lr).toUInt64
      · rw [if_pos hbusy] at h
        simp only [Prod.mk.injEq] at h
        obtain ⟨rfl, -, rfl⟩ := h
        exact ⟨rfl, .refused _ nofun lookup_replace_self⟩
      · rw [if_neg hbusy] at h
        simp only [Prod.mk.injEq] at h
        obtain ⟨rfl, -, rfl⟩ := h
        exact ⟨rfl, .accepted lr rfl (UInt64.not_lt.mp hbusy) lookup_replace_self⟩
  | none =>
      simp only [hheld, if_true] at h
      by_cases hroom : (fits || again) = true
      · rw [if_pos hroom] at h
        simp only [Prod.mk.injEq] at h
        obtain ⟨rfl, -, rfl⟩ := h
        exact ⟨rate_room, .created rfl lookup_replace_self⟩
      · rw [if_neg hroom] at h
        simp only [Prod.mk.injEq] at h
        obtain ⟨rfl, -, rfl⟩ := h
        refine ⟨rate_room, .refused _ nofun ?_⟩
        refine Option.eq_none_iff_forall_ne_some.mpr fun lr hlr => ?_
        exact nomatch hheld.symm.trans (lookup_room hlr)

theorem limitReqLookup_other (hkey : key ≠ key')
    (h : limitReqLookup burst key' account now fits again ctx = (rc, excess, ctx')) :
    ctx'.rate = ctx.rate ∧
      ∀ lr, ctx'.queue.lookup key = some lr → ctx.queue.lookup key = some lr := by
  rw [limitReqLookup] at h
  cases hheld : ctx.queue.lookup key' with
  | some lr =>
      simp only [hheld] at h
      split_ifs at h
      all_goals
        simp only [Prod.mk.injEq] at h
        obtain ⟨rfl, -, rfl⟩ := h
        exact ⟨rfl, fun old hold => (lookup_replace_of_ne hkey).symm.trans hold⟩
  | none =>
      simp only [hheld] at h
      by_cases hroom : (fits || again) = true
      · rw [if_pos hroom] at h
        cases account with
        | true =>
            obtain ⟨rfl, -, rfl⟩ := h
            exact ⟨rate_room, fun old hold => lookup_room ((lookup_replace_of_ne hkey).symm.trans hold)⟩
        | false =>
            obtain ⟨rfl, -, rfl⟩ := h
            exact ⟨rate_room, fun old hold => lookup_room ((lookup_replace_of_ne hkey).symm.trans hold)⟩
      · rw [if_neg hroom] at h
        simp only [Prod.mk.injEq] at h
        obtain ⟨rfl, -, rfl⟩ := h
        exact ⟨rate_room, fun old hold => lookup_room hold⟩

end LimitReq

namespace LimitReqZone

open LimitReq

variable {rate burst now : UInt64} {key : List UInt8} {lr : LimitReqNode} {ctx : LimitReqCtx}
  {zone zone' : LimitReqZone} {old new : Option LimitReqNode} {log : List Drop}

/-- The node of the key has the time and the level of the last drop. -/
def Holds (node : Option LimitReqNode) (log : List Drop) : Prop :=
  ∀ drop ∈ log.head?, ∃ lr, node = some lr ∧ lr.last.toNat = drop.time ∧ lr.excess.toNat = drop.level

/-- The requests that have been accepted fill a bucket. -/
structure Filled (rate burst : UInt64) (node : Option LimitReqNode) (times : List UInt64) : Prop where
  log : ∃ log, LeakyBucket 1000 rate.toNat 1000 burst.toNat log ∧
    log.map Drop.time = times.map UInt64.toNat ∧ Holds node log

structure Invariant (rate burst : UInt64) (key : List UInt8) (zone : LimitReqZone) : Prop where
  rate_eq : zone.ctx.rate = rate
  node : ∀ lr, zone.held key = some lr → lr.excess ≤ burst ∧ lr.last ≤ zone.clock
  filled : Filled rate burst (zone.held key) zone.accepted

theorem Initial.invariant (hrate : zone.ctx.rate = rate) (h : Initial burst key zone) :
    Invariant rate burst key zone where
  rate_eq := hrate
  node := h.before
  filled := ⟨[], ⟨.nil, nofun⟩, by rw [h.nothing]; rfl, nofun⟩

/-- A request that has been accepted is a new drop. -/
theorem Filled.accept {times : List UInt64} (h : Filled rate burst old times) (lr : LimitReqNode)
    (hexcess : lr.excess ≤ burst)
    (hnext : ∀ last, old = some last → last.last.toNat ≤ lr.last.toNat ∧
      last.excess.toNat + 1000 ≤
        lr.excess.toNat + rate.toNat * (lr.last.toNat - last.last.toNat) / 1000) :
    Filled rate burst (some lr) (lr.last :: times) := by
  obtain ⟨log, hbucket, htimes, hholds⟩ := h.log
  refine ⟨⟨lr.last.toNat, lr.excess.toNat⟩ :: log, ?_, congrArg (lr.last.toNat :: ·) htimes, ?_⟩
  · refine hbucket.cons (UInt64.le_iff_toNat_le.mp hexcess) fun drop hdrop => ?_
    obtain ⟨last, hlast, htime, hlevel⟩ := hholds drop hdrop
    obtain ⟨hlater, hkept⟩ := hnext last hlast
    exact ⟨htime ▸ hlater, htime ▸ hlevel ▸ hkept⟩
  · intro drop hdrop
    obtain rfl := Option.some.inj hdrop
    exact ⟨lr, rfl, rfl, rfl⟩

theorem Invariant.request {fits again : Bool} {rc : LimitReqResult} {excess : Int64}
    (h : Invariant rate burst key zone) (hburst : burst.toNat + 1000 < 2 ^ 63)
    (hclock : zone.clock ≤ now)
    (hfits : ∀ lr, zone.held key = some lr →
      zone.ctx.rate.toNat * (now.toNat - lr.last.toNat) < 2 ^ 64)
    (hlookup : limitReqLookup burst key true now fits again zone.ctx = (rc, excess, ctx)) :
    Invariant rate burst key ⟨ctx, now, if rc = .ok then now :: zone.accepted else zone.accepted⟩ := by
  obtain ⟨hrate, haccounted⟩ := limitReqLookup_accounted hlookup
  obtain rfl := h.rate_eq
  have hfilled := h.filled
  change Accounted _ _ _ (zone.held key) _ _ at haccounted
  cases haccounted with
  | created hnone hnew =>
      rw [hnone] at hfilled
      refine ⟨hrate, fun lr hlr => ?_, ?_⟩
      · obtain rfl := Option.some.inj (hnew.symm.trans hlr)
        exact ⟨UInt64.zero_le, UInt64.le_refl _⟩
      · change Filled _ _ (ctx.queue.lookup key) _
        rw [hnew, if_pos rfl]
        exact hfilled.accept ⟨now, 0, 0⟩ UInt64.zero_le nofun
  | accepted lr hold hle hnew =>
      rw [hold] at hfilled
      obtain ⟨hexcess, hlast⟩ := h.node lr hold
      have hlast := UInt64.le_trans hlast hclock
      have hspec := excessOf_toNat hexcess hburst hlast (hfits lr hold)
      have hleaked : zone.ctx.rate.toNat * (elapsed now lr.last).toUInt64.toNat / 1000 ≤
          zone.ctx.rate.toNat * (now.toNat - lr.last.toNat) / 1000 :=
        Nat.div_le_div_right (Nat.mul_le_mul_left _ (elapsed_le hlast))
      generalize (excessOf zone.ctx.rate now lr).toUInt64 = value at hle hnew hspec
      refine ⟨hrate, fun lr' hlr => ?_, ?_⟩
      · obtain rfl := Option.some.inj (hnew.symm.trans hlr)
        exact ⟨hle, UInt64.le_refl _⟩
      · change Filled _ _ (ctx.queue.lookup key) _
        rw [hnew, if_pos rfl]
        refine hfilled.accept ⟨now, value, lr.count⟩ hle fun last heq => ?_
        obtain rfl := Option.some.inj heq
        refine ⟨UInt64.le_iff_toNat_le.mp hlast, ?_⟩
        change lr.excess.toNat + 1000 ≤
          value.toNat + zone.ctx.rate.toNat * (now.toNat - lr.last.toNat) / 1000
        omega
  | refused _ hrc hsame =>
      refine ⟨hrate, fun lr hlr => ?_, ?_⟩
      · obtain ⟨hexcess, hlast⟩ := h.node lr (hsame.symm.trans hlr)
        exact ⟨hexcess, UInt64.le_trans hlast hclock⟩
      · change Filled _ _ (ctx.queue.lookup key) _
        rw [hsame, if_neg hrc]
        exact hfilled

theorem Invariant.other {burst' : UInt64} {key' : List UInt8} {account fits again : Bool}
    {rc : LimitReqResult} {excess : Int64} (h : Invariant rate burst key zone)
    (hclock : zone.clock ≤ now) (hkey : key' ≠ key)
    (hlookup : limitReqLookup burst' key' account now fits again zone.ctx = (rc, excess, ctx))
    (hstays : (zone.held key).isSome → (ctx.queue.lookup key).isSome) :
    Invariant rate burst key ⟨ctx, now, zone.accepted⟩ := by
  obtain ⟨hrate, hothers⟩ := limitReqLookup_other hkey.symm hlookup
  have hsame : ctx.queue.lookup key = zone.held key := by
    cases hnew : ctx.queue.lookup key with
    | some lr => exact (hothers lr hnew).symm
    | none =>
        rw [hnew] at hstays
        cases hold : zone.held key with
        | none => rfl
        | some lr => exact nomatch hstays (by rw [hold]; rfl)
  refine ⟨hrate.trans h.rate_eq, fun lr hlr => ?_, ?_⟩
  · obtain ⟨hexcess, hlast⟩ := h.node lr (hsame.symm.trans hlr)
    exact ⟨hexcess, UInt64.le_trans hlast hclock⟩
  · change Filled _ _ (ctx.queue.lookup key) _
    rw [hsame]
    exact h.filled

theorem Step.invariant (hstep : Step burst key zone zone') (hburst : burst.toNat + 1000 < 2 ^ 63)
    (h : Invariant rate burst key zone) : Invariant rate burst key zone' := by
  cases hstep with
  | request hclock hfits hlookup => exact h.request hburst hclock hfits hlookup
  | other hclock hkey hlookup hstays => exact h.other hclock hkey hlookup hstays

theorem Reachable.invariant (h : Reachable rate burst key zone) (hburst : burst.toNat + 1000 < 2 ^ 63) :
    Invariant rate burst key zone := by
  induction h with
  | initial hrate hinitial => exact hinitial.invariant hrate
  | step _ hstep ih => exact hstep.invariant hburst ih

/-- The zone after requests of one client that have come at once. -/
def atOnce (k : Nat) : LimitReqZone where
  ctx := ⟨1, [([49], ⟨0, UInt64.ofNat (1000 * k), 0⟩)], none⟩
  clock := 0
  accepted := List.replicate (k + 1) 0

theorem Step.request_ok {fits again : Bool} {excess : Int64} (hclock : zone.clock ≤ now)
    (hfits : ∀ lr, zone.held key = some lr →
      zone.ctx.rate.toNat * (now.toNat - lr.last.toNat) < 2 ^ 64)
    (hlookup : limitReqLookup burst key true now fits again zone.ctx = (.ok, excess, ctx)) :
    Step burst key zone ⟨ctx, now, now :: zone.accepted⟩ := by
  have hstep := Step.request hclock hfits hlookup
  rwa [if_pos rfl] at hstep

theorem atOnce_zero : Reachable 1 burst [49] (atOnce 0) := by
  have hinitial : Initial burst [49] ⟨⟨1, [], none⟩, 0, []⟩ := ⟨rfl, fun lr hlr => nomatch hlr⟩
  have hlookup : limitReqLookup burst [49] true 0 true true ⟨1, [], none⟩ = (.ok, 0, (atOnce 0).ctx) := rfl
  exact .step (.initial rfl hinitial)
    (Step.request_ok (UInt64.le_refl _) (fun lr hlr => nomatch hlr) hlookup)

/-- A request whose excess is computed as `value`. -/
theorem request_atOnce {k : Nat} {value : UInt64}
    (hvalue : (excessOf 1 0 ⟨0, UInt64.ofNat (1000 * k), 0⟩).toUInt64 = value) (hle : value ≤ burst) :
    Step burst [49] (atOnce k) ⟨⟨1, [([49], ⟨0, value, 0⟩)], none⟩, 0, List.replicate (k + 2) 0⟩ := by
  have hlookup : limitReqLookup burst [49] true 0 true true (atOnce k).ctx =
      (.ok, excessOf 1 0 ⟨0, UInt64.ofNat (1000 * k), 0⟩, ⟨1, [([49], ⟨0, value, 0⟩)], none⟩) := by
    rw [limitReqLookup]
    simp only [atOnce, List.lookup_cons_self, hvalue]
    rw [if_neg (UInt64.not_lt.mpr hle)]
    rfl
  refine Step.request_ok (UInt64.le_refl _) (fun lr hlr => ?_) hlookup
  have hnone : (0 : UInt64).toNat - lr.last.toNat = 0 := Nat.zero_sub _
  rw [hnone, Nat.mul_zero]
  decide

theorem excessOf_atOnce (hlast : lr.last = 0) (hsmall : lr.excess.toNat + 1000 < 2 ^ 63) :
    (excessOf 1 0 lr).toUInt64.toNat = lr.excess.toNat + 1000 := by
  have hnone : (0 : UInt64).toNat - lr.last.toNat = 0 := Nat.zero_sub _
  have helapsed : (elapsed 0 lr.last).toUInt64.toNat = 0 := by
    rw [hlast]
    rfl
  have hspec := excessOf_toNat (UInt64.le_refl lr.excess) hsmall (hlast ▸ UInt64.le_refl 0)
    (show (1 : UInt64).toNat * ((0 : UInt64).toNat - lr.last.toNat) < 2 ^ 64 by
      rw [hnone]
      decide)
  rw [hspec, helapsed]
  rfl

theorem atOnce_reachable {k : Nat} (hk : 1000 * k ≤ burst.toNat) (hlarge : 1000 * k < 2 ^ 63) :
    Reachable 1 burst [49] (atOnce k) := by
  induction k with
  | zero => exact atOnce_zero
  | succ k ih =>
      have hbefore := ih (by omega) (by omega)
      have hsize : UInt64.size = 2 ^ 64 := rfl
      have hnode : (UInt64.ofNat (1000 * k)).toNat = 1000 * k := UInt64.toNat_ofNat_of_lt (by omega)
      have hnext : (UInt64.ofNat (1000 * (k + 1))).toNat = 1000 * (k + 1) :=
        UInt64.toNat_ofNat_of_lt (by omega)
      have hspec := excessOf_atOnce
        (show (⟨0, UInt64.ofNat (1000 * k), 0⟩ : LimitReqNode).last = 0 from rfl)
        (by rw [hnode]; omega)
      have hvalue : (excessOf 1 0 ⟨0, UInt64.ofNat (1000 * k), 0⟩).toUInt64 =
          UInt64.ofNat (1000 * (k + 1)) := by
        refine UInt64.toNat_inj.mp (hspec.trans ?_)
        rw [hnext, hnode]
        rfl
      refine .step hbefore (request_atOnce hvalue ?_)
      rw [UInt64.le_iff_toNat_le, hnext]
      exact hk

/-- The largest burst that the configuration takes. -/
def largestBurst : UInt64 := 9223372036854775000

end LimitReqZone

end RebuildTheWheel.Nginx
