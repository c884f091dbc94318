import Mathlib.Data.Int.CardIntervalMod
import Ophan.Gateway.IpText
import Ophan.Lib.Word

/-!
# Selecting a backend

Three strategies probe positions of the server list, each by its own arithmetic,
and give up only when no backend is healthy.  All upstreams of a thread draw
the tickets of round robin from one counter, so the turns of an upstream are fair
as long as no other upstream draws in between.
-/

namespace Ophan.Balancer

open List
open Net Gateway

inductive BalanceStrategy where
  | roundRobin
  | leastConnections
  | ipHash
  deriving DecidableEq, Repr

inductive Http2Mode where
  | standard
  | grpc
  deriving DecidableEq, Repr

inductive NetworkProtocol where
  | http1 (allowWebsocketUpgrade : Bool)
  | http2 (mode : Http2Mode)
  deriving DecidableEq, Repr

inductive BalancerError where
  | upstreamNotFound
  | upstreamEmpty
  | allServersUnhealthy
  deriving DecidableEq, Repr

structure Backend (Addr : Type) where
  addr : Addr
  protocol : NetworkProtocol
  weight : Nat
  healthy : Bool
  checkSuccesses : Nat
  checkFailures : Nat
  activeConns : Nat
  totalRequests : Nat
  deriving DecidableEq, Repr

structure HealthCheckConfig where
  unhealthyThreshold : Nat
  healthyThreshold : Nat
  deriving DecidableEq, Repr

def maxPointers : Nat := 2 ^ 60 - 1

/-- An upstream.  Its backends are shared, and stand here by their numbers. -/
structure Upstream where
  name : Bytes
  health : Option HealthCheckConfig
  servers : List Nat
  balanceStrategy : BalanceStrategy
  fits : servers.length ≤ maxPointers
  deriving DecidableEq, Repr

/-- What a call reads and writes: the backends, and the ticket of its thread. -/
structure Calls (Addr : Type) where
  backends : Nat → Backend Addr
  ticket : Nat

/-- `hash_ip`, on a little-endian machine. -/
def hashIp : IpAddr → Nat
  | .v4 ip =>
    let word : BitVec 32 := (octets ip).foldr (fun octet word => word <<< 8 ||| octet.setWidth 32) 0
    ((word * 0x6d2b79f5#32).rotateLeft 7).toNat
  | .v6 ip =>
    let h0 : BitVec 16 := ((segments ip).take 4).foldl (· ^^^ ·) 0
    let h1 : BitVec 16 := ((segments ip).drop 4).foldl (· ^^^ ·) 0
    let h0 : BitVec 16 := (h0.setWidth 32 * 0x6d2b79f5#32).setWidth 16
    let h1 : BitVec 16 := (h1.setWidth 32 * 0x2b6ac22e#32).setWidth 16
    (h0.setWidth 64 ^^^ h1.setWidth 64 <<< 16).toNat

section Select

variable {Addr : Type} (backends : Nat → Backend Addr)

/-- Access without a bounds check.  Behind the end it is undefined. -/
def getUnchecked (servers : List Nat) (idx : Nat) : Outcome BalancerError Nat :=
  match servers[idx]? with
  | some server => .ok server
  | none => .panic

def probeHash (servers : List Nat) : Nat → Nat → Outcome BalancerError (Option Nat)
  | 0, _ => .ok none
  | rounds + 1, hash =>
    (getUnchecked servers (hash % servers.length)).bind fun candidate =>
      if (backends candidate).healthy then .ok (some candidate)
      else probeHash servers rounds (wrappingAdd hash 1)

/-- A loop over positions, as `RoundRobin` has it behind its first candidate. -/
def probe (servers : List Nat) : List Nat → Outcome BalancerError (Option Nat)
  | [] => .ok none
  | idx :: rest =>
    (getUnchecked servers idx).bind fun candidate =>
      if (backends candidate).healthy then .ok (some candidate)
      else probe servers rest

def nextTicket (strategy : BalanceStrategy) (ticket : Nat) : Nat × Nat :=
  match strategy with
  | .roundRobin | .leastConnections => (ticket, wrappingAdd ticket 1)
  | .ipHash => (0, ticket)

def roundRobin (servers : List Nat) (ticket : Nat) : Outcome BalancerError (Option Nat) :=
  let start := ticket % servers.length
  (getUnchecked servers start).bind fun candidate =>
    if (backends candidate).healthy then .ok (some candidate)
    else
      probe backends servers
        ((List.range' 1 (servers.length - 1)).map fun i => (start + i) % servers.length)

/-- The better of two candidates, or the first healthy backend.  The sum wraps
around, as in a release build. -/
def leastConnections (servers : List Nat) (ticket : Nat) : Outcome BalancerError (Option Nat) :=
  let idx1 := ticket % servers.length
  let idx2 := wrappingAdd ticket (servers.length / 2) % servers.length
  (getUnchecked servers idx1).bind fun b1 =>
    (getUnchecked servers idx2).bind fun b2 =>
      match (backends b1).healthy, (backends b2).healthy with
      | true, true =>
        if (backends b1).activeConns ≤ (backends b2).activeConns then
          .ok (some b1)
        else .ok (some b2)
      | true, false => .ok (some b1)
      | false, true => .ok (some b2)
      | false, false => .ok (servers.find? fun server => (backends server).healthy)

def nextBackend (upstream : Upstream) (clientIp : IpAddr) (ticket : Nat) :
    Outcome BalancerError (Option Nat) × Nat :=
  match upstream.servers with
  | [server] => (.ok (if (backends server).healthy then some server else none), ticket)
  | servers =>
    match upstream.balanceStrategy with
    | .ipHash => (probeHash backends servers servers.length (hashIp clientIp), ticket)
    | .roundRobin =>
      let (drawn, next) := nextTicket upstream.balanceStrategy ticket
      (roundRobin backends servers drawn, next)
    | .leastConnections =>
      let (drawn, next) := nextTicket upstream.balanceStrategy ticket
      (leastConnections backends servers drawn, next)

end Select

namespace Calls

variable {Addr : Type}

/-- `acquire` and `record_request` -/
def acquire (calls : Calls Addr) (server : Nat) : Calls Addr :=
  { calls with
    backends := Function.update calls.backends server
      { calls.backends server with
        activeConns := wrappingAdd (calls.backends server).activeConns 1
        totalRequests := wrappingAdd (calls.backends server).totalRequests 1 } }

def selectBackend (upstreams : List Upstream) (upstreamId : Nat)
    (clientIp : IpAddr) (calls : Calls Addr) :
    Outcome BalancerError Nat × Calls Addr :=
  match upstreams[upstreamId]? with
  | none => (.err .upstreamNotFound, calls)
  | some upstream =>
    if upstream.servers = [] then
      (.err .upstreamEmpty, calls)
    else
      let (found, ticket) := nextBackend calls.backends upstream clientIp calls.ticket
      match found with
      | .ok (some server) => (.ok server, { calls with ticket := ticket }.acquire server)
      | .ok none => (.err .allServersUnhealthy, { calls with ticket := ticket })
      | .err error => (.err error, { calls with ticket := ticket })
      | .panic => (.panic, { calls with ticket := ticket })

end Calls

/-! ## Completeness -/

section Complete

variable {Addr : Type} {backends : Nat → Backend Addr} {servers : List Nat}

/-- A healthy server, or none if none is healthy. -/
def Picks (backends : Nat → Backend Addr) (servers : List Nat) : Option Nat → Prop
  | some server => server ∈ servers ∧ (backends server).healthy = true
  | none => ∀ server ∈ servers, (backends server).healthy = false

theorem getUnchecked_of_lt {idx : Nat} (inside : idx < servers.length) :
    getUnchecked servers idx = .ok servers[idx] := by
  rw [getUnchecked, List.getElem?_eq_getElem inside]

theorem probe_picks {positions : List Nat} (passed : List Nat)
    (inside : ∀ idx ∈ positions, idx < servers.length)
    (unhealthy : ∀ server ∈ passed, (backends server).healthy = false)
    (covers : ∀ server ∈ servers, server ∈ passed ∨
      ∃ idx ∈ positions, servers[idx]? = some server) :
    ∃ found, probe backends servers positions = .ok found ∧ Picks backends servers found := by
  induction positions generalizing passed with
  | nil =>
    refine ⟨none, rfl, ?_⟩
    intro server member
    rcases covers server member with isPassed | ⟨idx, isNil, -⟩
    · exact unhealthy server isPassed
    · cases isNil
  | cons idx rest ih =>
    have isInside := inside idx (mem_cons_self ..)
    rw [probe, getUnchecked_of_lt isInside, Outcome.bind_ok]
    by_cases healthy : (backends servers[idx]).healthy = true
    · rw [if_pos healthy]
      exact ⟨_, rfl, getElem_mem isInside, healthy⟩
    · rw [if_neg healthy]
      apply ih (servers[idx] :: passed)
      · simp_all
      · simp_all
      · grind

def around (len start : Nat) (rounds : Nat) : List Nat := (List.range' start rounds).map (· % len)

theorem probe_around (nonempty : servers ≠ []) (start : Nat) :
    ∃ found, probe backends servers (around servers.length start servers.length) =
      .ok found ∧ Picks backends servers found := by
  have positive := length_pos_iff.mpr nonempty
  apply probe_picks []
  · intro idx member
    obtain ⟨i, -, rfl⟩ := mem_map.mp member
    exact Nat.mod_lt _ positive
  · simp
  · intro server member
    obtain ⟨j, inside, located⟩ := getElem_of_mem member
    -- The first number from `start` on that leaves the remainder `j`.
    let steps := (j + servers.length - start % servers.length) % servers.length
    have isSteps : steps < servers.length := Nat.mod_lt _ positive
    have isStart : start % servers.length < servers.length := Nat.mod_lt _ positive
    have leaves : (start + steps) % servers.length = j := by
      rw [Nat.add_mod_mod, ← Nat.mod_add_mod,
        Nat.add_sub_cancel' (by omega : start % servers.length ≤ j + servers.length),
        Nat.add_mod_right, Nat.mod_eq_of_lt inside]
    refine Or.inr ⟨j, mem_map.mpr ⟨start + steps, ?_, leaves⟩, ?_⟩
    · rw [mem_range'_1]
      omega
    · rw [List.getElem?_eq_getElem inside, located]

/-- The hash counts up without a wrap, so its positions go around the list. -/
theorem probeHash_eq {rounds hash : Nat} (fits : hash + rounds ≤ wordCount) :
    probeHash backends servers rounds hash =
      probe backends servers (around servers.length hash rounds) := by
  induction rounds generalizing hash with
  | zero => rfl
  | succ rounds ih =>
    rw [probeHash, around, List.range'_succ, map_cons, probe]
    congr 1
    funext candidate
    by_cases healthy : (backends candidate).healthy = true
    · rw [if_pos healthy, if_pos healthy]
    · rw [if_neg healthy, if_neg healthy]
      cases rounds with
      | zero => rfl
      | succ rounds =>
        have next : wrappingAdd hash 1 = hash + 1 := Nat.mod_eq_of_lt (by omega)
        rw [next, ih (by omega)]
        rfl

theorem roundRobin_eq (nonempty : servers ≠ []) (ticket : Nat) :
    roundRobin backends servers ticket =
      probe backends servers (around servers.length ticket servers.length) := by
  obtain ⟨len, isLen⟩ := Nat.exists_eq_succ_of_ne_zero (length_pos_iff.mpr nonempty).ne'
  have tail : (List.range' 1 (servers.length - 1)).map
      (fun i => (ticket % servers.length + i) % servers.length) =
      (List.range' (ticket + 1) len).map (· % servers.length) := by
    rw [isLen, Nat.succ_sub_one, List.range'_eq_map_range, map_map,
      List.range'_eq_map_range, map_map]
    apply map_congr_left
    intro i _
    simp only [Function.comp_apply, Nat.mod_add_mod, Nat.add_assoc]
  have all : List.range' ticket servers.length = ticket :: List.range' (ticket + 1) len := by
    rw [isLen, List.range'_succ]
  rw [roundRobin, tail, around, all, map_cons, probe]

theorem hashIp_lt (ip : IpAddr) : hashIp ip < 2 ^ 32 := by
  cases ip with
  | v4 ip => exact BitVec.isLt _
  | v6 ip =>
    rw [hashIp, BitVec.toNat_xor]
    apply Nat.xor_lt_two_pow
    · grind
    · rw [BitVec.toNat_shiftLeft, BitVec.toNat_setWidth]
      generalize BitVec.setWidth 16 _ = word
      omega

theorem leastConnections_picks (nonempty : servers ≠ []) (ticket : Nat) :
    ∃ found, leastConnections backends servers ticket = .ok found ∧
      Picks backends servers found := by
  have positive := length_pos_iff.mpr nonempty
  have inside1 : ticket % servers.length < servers.length := Nat.mod_lt _ positive
  have inside2 : wrappingAdd ticket (servers.length / 2) % servers.length <
      servers.length := Nat.mod_lt _ positive
  rw [leastConnections]
  simp only [getUnchecked_of_lt inside1, getUnchecked_of_lt inside2, Outcome.bind_ok]
  have member1 := getElem_mem inside1
  have member2 := getElem_mem inside2
  generalize servers[ticket % servers.length] = b1 at member1 ⊢
  generalize servers[wrappingAdd ticket (servers.length / 2) % servers.length] = b2 at member2 ⊢
  cases healthy1 : (backends b1).healthy with
  | true =>
    cases healthy2 : (backends b2).healthy with
    | true =>
      dsimp only
      split
      · exact ⟨_, rfl, member1, healthy1⟩
      · exact ⟨_, rfl, member2, healthy2⟩
    | false => exact ⟨_, rfl, member1, healthy1⟩
  | false =>
    cases healthy2 : (backends b2).healthy with
    | true => exact ⟨_, rfl, member2, healthy2⟩
    | false =>
      refine ⟨_, rfl, ?_⟩
      cases first : servers.find? fun server => (backends server).healthy with
      | none => simpa [Picks] using first
      | some server => exact ⟨mem_of_find?_eq_some first, by simpa using List.find?_some first⟩

/-- Every strategy picks a healthy server if there is one. -/
theorem nextBackend_picks (upstream : Upstream) (nonempty : upstream.servers ≠ [])
    (clientIp : IpAddr) (ticket : Nat) :
    ∃ found, (nextBackend backends upstream clientIp ticket).1 = .ok found ∧
      Picks backends upstream.servers found := by
  have small := hashIp_lt clientIp
  have fits := upstream.fits
  rw [nextBackend]
  split
  · rename_i server only
    rw [only]
    refine ⟨_, rfl, ?_⟩
    cases healthy : (backends server).healthy with
    | true => exact ⟨mem_singleton_self _, healthy⟩
    | false => simpa [Picks] using healthy
  · split
    · rw [probeHash_eq (by rw [wordCount]; rw [maxPointers] at fits; omega)]
      exact probe_around nonempty _
    · change ∃ found, roundRobin _ _ _ = _ ∧ _
      rw [roundRobin_eq nonempty]
      exact probe_around nonempty _
    · exact leastConnections_picks nonempty _

/-! ## Stability of the hash -/

/-- `down` becomes unhealthy, or stays so, and the others keep their health. -/
structure GoesDown (before after : Nat → Backend Addr) (down : Nat) : Prop where
  isDown : (after down).healthy = false
  others : ∀ server, server ≠ down → (after server).healthy = (before server).healthy

theorem probeHash_keeps {after : Nat → Backend Addr} {down chosen rounds hash : Nat}
    (goes : GoesDown backends after down) (notDown : chosen ≠ down)
    (found : probeHash backends servers rounds hash = .ok (some chosen)) :
    probeHash after servers rounds hash = .ok (some chosen) := by
  induction rounds generalizing hash with
  | zero => cases found
  | succ rounds ih =>
    rw [probeHash] at found ⊢
    obtain ⟨candidate, located, choice⟩ := Outcome.bind_eq_ok_iff.mp found
    rw [located, Outcome.bind_ok]
    -- A hash that stops at the server that goes down has chosen it.
    have isDown := goes.isDown
    have others := goes.others candidate
    grind

theorem nextBackend_keeps {after : Nat → Backend Addr} {upstream : Upstream} {down chosen : Nat}
    {clientIp : IpAddr} {ticket : Nat} (isHash : upstream.balanceStrategy = .ipHash)
    (goes : GoesDown backends after down) (notDown : chosen ≠ down) (later : Nat)
    (found : (nextBackend backends upstream clientIp ticket).1 = .ok (some chosen)) :
    (nextBackend after upstream clientIp later).1 = .ok (some chosen) := by
  unfold nextBackend at found ⊢
  split at found
  · rename_i server _
    have isChosen : (backends server).healthy = true ∧ server = chosen := by simpa using found
    have healthy : (after chosen).healthy = true := by
      rw [goes.others chosen notDown, ← isChosen.2, isChosen.1]
    simp [isChosen.2, healthy]
  · rw [isHash] at found ⊢
    exact probeHash_keeps goes notDown found

/-- When a backend goes down and another one is healthy, a client gets another
backend exactly if it had the one that goes down. -/
theorem ip_hash_stable (upstream : Upstream) (isHash : upstream.balanceStrategy = .ipHash)
    (before after : Nat → Backend Addr) (down : Nat) (goes : GoesDown before after down)
    (other : Nat) (member : other ∈ upstream.servers) (notDown : other ≠ down)
    (healthy : (before other).healthy = true) (clientIp : IpAddr) (ticket later : Nat) :
    ∃ chosen next,
      (nextBackend before upstream clientIp ticket).1 = .ok (some chosen) ∧
        (nextBackend after upstream clientIp later).1 = .ok (some next) ∧
          (next ≠ chosen ↔ chosen = down) := by
  have nonempty : upstream.servers ≠ [] := ne_nil_of_mem member
  obtain ⟨found, isFound, picks⟩ := @nextBackend_picks _ before upstream nonempty clientIp ticket
  obtain ⟨next, isNext, picksNext⟩ := @nextBackend_picks _ after upstream nonempty clientIp later
  have staysHealthy := goes.others other notDown
  cases next with
  | none => simp [← staysHealthy, picksNext other member] at healthy
  | some next =>
    cases found with
    | none => simp [picks other member] at healthy
    | some chosen =>
      refine ⟨chosen, next, isFound, isNext, fun changes => ?_, fun wasDown isSame => ?_⟩
      · by_contra kept
        rw [nextBackend_keeps isHash goes kept later isFound] at isNext
        simp_all
      · simp [isSame, wasDown, Picks, goes.isDown] at picksNext

theorem ip_hash_stable_of_two :
    let upstream : Upstream := ⟨[], none, [0, 1], .ipHash, by decide⟩
    let backend (healthy : Bool) : Backend Unit := ⟨(), .http1 true, 1, healthy, 0, 0, 0, 0⟩
    ∃ chosen next,
      (nextBackend (fun _ => backend true) upstream (.v4 0) 0).1 = .ok (some chosen) ∧
        (nextBackend (fun server => backend (server != 0)) upstream (.v4 0) 0).1 =
            .ok (some next) ∧
          (next ≠ chosen ↔ chosen = 0) :=
  ip_hash_stable _ rfl _ _ 0 ⟨rfl, by simp⟩ 1 (by simp) (by decide) rfl (.v4 0) 0 0

end Complete

namespace Calls

variable {Addr : Type} {upstreams : List Upstream} {upstreamId : Nat} {upstream : Upstream}

theorem selectBackend_picks (located : upstreams[upstreamId]? = some upstream)
    (nonempty : upstream.servers ≠ []) (clientIp : IpAddr) (calls : Calls Addr) :
    ∃ found, Picks calls.backends upstream.servers found ∧
      (selectBackend upstreams upstreamId clientIp calls).1 =
        match found with
        | some server => .ok server
        | none => .err .allServersUnhealthy := by
  obtain ⟨found, isFound, picks⟩ := nextBackend_picks upstream nonempty clientIp calls.ticket
  refine ⟨found, picks, ?_⟩
  rw [selectBackend, located]
  dsimp only
  rw [if_neg nonempty, isFound]
  cases found with
  | none | some => rfl

/-- A call returns a backend exactly when one of the upstream is healthy, and
the returned one is. -/
theorem select_backend_complete (upstreams : List Upstream) (upstreamId : Nat)
    (upstream : Upstream) (located : upstreams[upstreamId]? = some upstream)
    (nonempty : upstream.servers ≠ []) (clientIp : IpAddr) (calls : Calls Addr) :
    let result := (selectBackend upstreams upstreamId clientIp calls).1
    result ≠ .panic ∧
      ((∃ server, result = .ok server) ↔
        ∃ server ∈ upstream.servers, (calls.backends server).healthy = true) ∧
      ∀ server, result = .ok server →
        server ∈ upstream.servers ∧ (calls.backends server).healthy = true := by
  obtain ⟨found, picks, isResult⟩ := selectBackend_picks located nonempty clientIp calls
  rw [isResult]
  cases found with
  | none =>
    refine ⟨by simp, ?_, by simp⟩
    constructor
    · simp
    · rintro ⟨server, member, healthy⟩
      simp [picks server member] at healthy
  | some server =>
    refine ⟨by simp, ⟨fun _ => ⟨server, picks⟩, fun _ => ⟨server, rfl⟩⟩, ?_⟩
    intro other isOther
    rw [← Outcome.ok.inj isOther]
    exact picks

end Calls

def Backend.at (healthy : Bool) (addr : Nat) : Backend Nat :=
  ⟨addr, .http1 false, 1, healthy, 0, 0, 0, 0⟩

def pair (strategy : BalanceStrategy) (first : Nat) : Upstream :=
  ⟨[97], none, [first, first + 1], strategy, by simp [maxPointers]⟩

namespace Calls

/-- The second of two backends is healthy. -/
theorem select_backend_complete_second :
    let calls : Calls Nat := ⟨fun server => .at (server = 1) server, 0⟩
    let result := (selectBackend [pair .roundRobin 0] 0 (.v4 0) calls).1
    result ≠ .panic ∧
      ((∃ server, result = .ok server) ↔
        ∃ server ∈ [0, 1], (calls.backends server).healthy = true) ∧
      ∀ server, result = .ok server → server ∈ [0, 1] ∧ (calls.backends server).healthy = true :=
  select_backend_complete [pair .roundRobin 0] 0 (pair .roundRobin 0) rfl
    (cons_ne_nil _ _) (.v4 0) _

/-! ## Turns -/

variable {Addr : Type}

def selectAll (upstreams : List Upstream) :
    List (Nat × IpAddr) → Calls Addr → List (Nat × Outcome BalancerError Nat)
  | [], _ => []
  | (upstreamId, clientIp) :: requests, calls =>
    let (result, next) := selectBackend upstreams upstreamId clientIp calls
    (upstreamId, result) :: selectAll upstreams requests next

/-- No backend of the upstream was selected twice more often than another. -/
def Fair (upstreamId : Nat) (servers : List Nat)
    (log : List (Nat × Outcome BalancerError Nat)) : Prop :=
  ∀ first ∈ servers, ∀ second ∈ servers,
    log.count (upstreamId, .ok first) ≤ log.count (upstreamId, .ok second) + 1

def draws (upstreams : List Upstream) (upstreamId : Nat) : Bool :=
  upstreams[upstreamId]?.any fun upstream =>
    upstream.balanceStrategy ≠ .ipHash && 2 ≤ upstream.servers.length

variable {upstreams : List Upstream} {upstreamId : Nat} {upstream : Upstream}

theorem healthy_acquire (calls : Calls Addr) (server other : Nat) :
    ((calls.acquire server).backends other).healthy = (calls.backends other).healthy := by
  by_cases same : other = server
  · simp [acquire, same]
  · simp [acquire, same]

theorem healthy_selectBackend (clientIp : IpAddr) (calls : Calls Addr) (server : Nat) :
    ((selectBackend upstreams upstreamId clientIp calls).2.backends
      server).healthy = (calls.backends server).healthy := by
  rw [selectBackend]
  split
  · rfl
  · split
    · rfl
    · dsimp only
      split
      · exact healthy_acquire ..
      · rfl
      · rfl
      · rfl

theorem ticket_selectBackend (located : upstreams[upstreamId]? = some upstream)
    (nonempty : upstream.servers ≠ []) (clientIp : IpAddr) (calls : Calls Addr) :
    (selectBackend upstreams upstreamId clientIp calls).2.ticket =
      (nextBackend calls.backends upstream clientIp calls.ticket).2 := by
  rw [selectBackend, located]
  dsimp only
  rw [if_neg nonempty]
  split <;> rfl

theorem ticket_of_not_draws (idle : draws upstreams upstreamId = false)
    (clientIp : IpAddr) (calls : Calls Addr) :
    (selectBackend upstreams upstreamId clientIp calls).2.ticket =
      calls.ticket := by
  cases located : upstreams[upstreamId]? with
  | none => rw [selectBackend, located]
  | some upstream =>
    by_cases empty : upstream.servers = []
    · rw [selectBackend, located]
      dsimp only
      rw [if_pos empty]
    · rw [ticket_selectBackend located empty, nextBackend]
      simp only [draws, located, Option.any_some, Bool.and_eq_false_iff,
        decide_eq_false_iff_not, not_not, Nat.not_le] at idle
      split
      · rfl
      · rename_i noSingle
        rcases idle with isHash | short
        · rw [isHash]
        · obtain ⟨server, only⟩ : ∃ server, upstream.servers = [server] := by
            rw [← length_eq_one_iff]
            have := length_pos_iff.mpr empty
            omega
          exact absurd only (noSingle server)

theorem nextBackend_of_several (strategy : upstream.balanceStrategy = .roundRobin)
    (several : 2 ≤ upstream.servers.length) (backends : Nat → Backend Addr)
    (clientIp : IpAddr) (ticket : Nat) :
    nextBackend backends upstream clientIp ticket =
      (roundRobin backends upstream.servers ticket, wrappingAdd ticket 1) := by
  rw [nextBackend]
  split
  · simp_all
  · rw [strategy]
    rfl

theorem selectBackend_turn (located : upstreams[upstreamId]? = some upstream)
    (strategy : upstream.balanceStrategy = .roundRobin)
    (several : 2 ≤ upstream.servers.length) (calls : Calls Addr) {server : Nat}
    (turn : upstream.servers[calls.ticket % upstream.servers.length]? = some server)
    (healthy : (calls.backends server).healthy = true) (clientIp : IpAddr) :
    (selectBackend upstreams upstreamId clientIp calls).1 = .ok server ∧
      (selectBackend upstreams upstreamId clientIp calls).2.ticket =
        wrappingAdd calls.ticket 1 := by
  have nonempty : upstream.servers ≠ [] := length_pos_iff.mp (by omega)
  refine ⟨?_, ?_⟩
  · rw [selectBackend, located]
    dsimp only
    rw [if_neg nonempty, nextBackend_of_several strategy several, roundRobin, getUnchecked, turn]
    simp only [Outcome.bind_ok, if_pos healthy]
  · rw [ticket_selectBackend located nonempty, nextBackend_of_several strategy several]

/-- The next ticket leaves the next remainder, also where the counter wraps
around. -/
theorem mod_wrappingAdd {ticket len : Nat} (counts : ticket + 1 ≤ wordMax ∨ len ∣ wordCount) :
    wrappingAdd ticket 1 % len = (ticket + 1) % len := by
  rcases counts with fits | divides
  · have below : ticket + 1 < wordCount := Nat.lt_of_le_of_lt fits (by decide)
    rw [wrappingAdd, Nat.mod_eq_of_lt below]
  · exact Nat.mod_mod_of_dvd _ divides

/-- How often the position `i` is met by the tickets from `ticket` on. -/
def turns (len i ticket amount : Nat) : Nat := Nat.count (fun j => (ticket + j) % len = i) amount

theorem turns_succ {len i ticket next : Nat} (amount : Nat)
    (follows : next % len = (ticket + 1) % len) :
    turns len i ticket (amount + 1) =
      turns len i next amount + if ticket % len = i then 1 else 0 := by
  have shifted : ∀ j, (ticket + (j + 1)) % len = (next + j) % len := by
    intro j
    rw [← Nat.mod_add_mod next, follows, Nat.mod_add_mod]
    congr 1
    omega
  simp only [turns, Nat.count_succ', Nat.add_zero, shifted]

/-- The turns of two positions differ by one at most. -/
theorem turns_le {len i other : Nat} (inside : i < len) (isInside : other < len)
    (ticket amount : Nat) :
    turns len i ticket amount ≤ turns len other ticket amount + 1 := by
  have positive : 0 < len := by omega
  have meets : ∀ {i}, i < len → ∀ j,
      (ticket + j) % len = i ↔ j ≡ i + (len - ticket % len) [MOD len] := by
    intro i inside j
    have isMod := Nat.mod_lt ticket positive
    constructor
    · rintro rfl
      change j % len = _
      rw [Nat.mod_add_mod, Nat.add_right_comm, ← Nat.mod_add_mod,
        ← Nat.mod_add_mod ticket, Nat.add_sub_cancel' isMod.le, Nat.mod_self,
        Nat.zero_add]
    · intro same
      rw [Nat.add_mod, same, ← Nat.add_mod, ← Nat.mod_add_mod,
        show ticket % len + (i + (len - ticket % len)) = i + len by omega,
        Nat.add_mod_right, Nat.mod_eq_of_lt inside]
  simp only [turns, meets inside, meets isInside, Nat.count_modEq_card _ positive]
  split <;> split <;> omega

theorem count_selectAll (located : upstreams[upstreamId]? = some upstream)
    (strategy : upstream.balanceStrategy = .roundRobin)
    (several : 2 ≤ upstream.servers.length) (distinct : upstream.servers.Nodup)
    {i server : Nat} (atServer : upstream.servers[i]? = some server)
    (requests : List (Nat × IpAddr)) :
    ∀ calls : Calls Addr,
      (∀ other ∈ upstream.servers, (calls.backends other).healthy = true) →
      (∀ request ∈ requests, draws upstreams request.1 = true → request.1 = upstreamId) →
      (calls.ticket + requests.length ≤ wordMax ∨ upstream.servers.length ∣ wordCount) →
      (selectAll upstreams requests calls).count (upstreamId, .ok server) =
        turns upstream.servers.length i calls.ticket (requests.countP (·.1 = upstreamId)) := by
  induction requests with
  | nil =>
    intro calls _ _ _
    rfl
  | cons request requests ih =>
    obtain ⟨requestId, clientIp⟩ := request
    intro calls healthy alone counts
    rw [length_cons] at counts
    have rest := ih (selectBackend upstreams requestId clientIp calls).2
      (by simpa only [healthy_selectBackend] using healthy)
      (forall_mem_cons.mp alone).2
    rw [selectAll, count_cons, countP_cons]
    by_cases same : requestId = upstreamId
    · subst same
      have inside : calls.ticket % upstream.servers.length <
          upstream.servers.length := Nat.mod_lt _ (by omega)
      obtain ⟨isOk, next⟩ := selectBackend_turn located strategy several calls
        (List.getElem?_eq_getElem inside) (healthy _ (getElem_mem inside))
        clientIp
      have follows : wrappingAdd calls.ticket 1 % upstream.servers.length =
          (calls.ticket + 1) % upstream.servers.length :=
        mod_wrappingAdd (counts.imp_left fun fits => by omega)
      have notLater : wrappingAdd calls.ticket 1 ≤ calls.ticket + 1 := Nat.mod_le _ _
      have isTurn : upstream.servers[calls.ticket % upstream.servers.length] =
          server ↔ calls.ticket % upstream.servers.length = i := by
        rw [← List.getElem?_inj inside distinct, atServer,
          List.getElem?_eq_getElem inside, Option.some.injEq]
      rw [next] at rest
      rw [rest (counts.imp_left fun fits => by omega), isOk]
      simp [turns_succ _ follows, isTurn]
    · have idle : draws upstreams requestId = false := by
        by_contra drawn
        exact same (alone (requestId, clientIp) (mem_cons_self ..) (by simpa using drawn))
      have sameTicket := ticket_of_not_draws idle clientIp calls
      rw [sameTicket] at rest
      rw [rest (counts.imp_left fun fits => by omega)]
      simp [same]

/-- If no other upstream of the thread draws a ticket in between, the backends
of a round-robin upstream are selected equally often. -/
theorem round_robin_fair (upstreams : List Upstream) (upstreamId : Nat)
    (upstream : Upstream) (located : upstreams[upstreamId]? = some upstream)
    (strategy : upstream.balanceStrategy = .roundRobin)
    (distinct : upstream.servers.Nodup) (calls : Calls Addr)
    (healthy : ∀ other ∈ upstreams, ∀ server ∈ other.servers,
      (calls.backends server).healthy = true)
    (requests : List (Nat × IpAddr))
    (alone : ∀ request ∈ requests, draws upstreams request.1 = true → request.1 = upstreamId)
    (counts : calls.ticket + requests.length ≤ wordMax ∨ upstream.servers.length ∣ wordCount) :
    Fair upstreamId upstream.servers (selectAll upstreams requests calls) := by
  intro first isFirst second isSecond
  obtain ⟨i, inside, atFirst⟩ := getElem_of_mem isFirst
  obtain ⟨j, isInside, atSecond⟩ := getElem_of_mem isSecond
  by_cases same : first = second
  · rw [same]
    omega
  · have several : 2 ≤ upstream.servers.length := by
      by_contra short
      have only : i = j := by omega
      subst only
      exact same (atFirst.symm.trans atSecond)
    have served := healthy upstream (mem_of_getElem? located)
    rw [count_selectAll located strategy several distinct
        (List.getElem?_eq_some_iff.mpr ⟨inside, atFirst⟩) requests calls served
        alone counts,
      count_selectAll located strategy several distinct
        (List.getElem?_eq_some_iff.mpr ⟨isInside, atSecond⟩) requests calls served
        alone counts]
    exact turns_le inside isInside _ _

/-- Three calls for one upstream, and one for another that draws no ticket. -/
theorem round_robin_fair_alone :
    Fair 0 [0, 1] (selectAll [pair .roundRobin 0, pair .ipHash 2]
      [(0, .v4 0), (0, .v4 0), (1, .v4 0), (0, .v4 0)]
      (⟨Backend.at true, 0⟩ : Calls Nat)) :=
  round_robin_fair [pair .roundRobin 0, pair .ipHash 2] 0 (pair .roundRobin 0)
    rfl rfl (by decide) ⟨Backend.at true, 0⟩ (fun _ _ _ _ => rfl) _ (by decide)
    (Or.inr (by decide))

/-- Two upstreams that take turns: the first one always has an even ticket. -/
theorem two_upstreams_share_turns :
    selectAll [pair .roundRobin 0, pair .roundRobin 2]
        [(0, .v4 0), (1, .v4 0), (0, .v4 0), (1, .v4 0)]
        (⟨Backend.at true, 0⟩ : Calls Nat) =
      [(0, .ok 0), (1, .ok 3), (0, .ok 0), (1, .ok 3)] ∧
    ¬ Fair 0 [0, 1] (selectAll [pair .roundRobin 0, pair .roundRobin 2]
        [(0, .v4 0), (1, .v4 0), (0, .v4 0), (1, .v4 0)]
        (⟨Backend.at true, 0⟩ : Calls Nat)) := by
  refine ⟨by decide, ?_⟩
  intro fair
  have differ := fair 0 (by decide) 1 (by decide)
  revert differ
  decide

end Calls

end Ophan.Balancer
