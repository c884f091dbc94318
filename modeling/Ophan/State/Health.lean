import Ophan.State.Reload

/-!
# Health checks across reloads

A health check reports on the backends that its context holds.  The backends
outlive the context when a reload takes them over, with their health.  So an
upstream that loses its health check keeps the backends that the check has
turned off, and no check turns them on again.
-/

namespace Ophan.State

open List
open Balancer Gateway Lib Rewrite Router

/-- A running check of an upstream: the backends that it has not reported yet. -/
structure Check where
  health : HealthCheckConfig
  pending : List Nat
  deriving DecidableEq, Repr

structure World (lib : Regexes) (Addr Settings Metrics : Type) where
  state : AppState lib Addr Settings Metrics
  checks : List Check

/-- A reload, the start of a check of an upstream that is due, and the result of
a check for one backend.  Checks go on when their context is replaced. -/
inductive Event (Addr Settings Metrics : Type) where
  | reload (changed : Bool) (loaded : Option (OphanConfig Addr Settings Metrics))
  | check (gateway : Name) (upstream : Nat)
  | report (check : Nat) (id : Nat) (ok : Bool)

section Health

variable {lib : Regexes} {Addr Settings Metrics : Type}

def Memory.reportCheck (memory : Memory Addr) (id : Nat) (ok : Bool)
    (health : HealthCheckConfig) : Memory Addr :=
  { memory with
    cells := Function.update memory.cells id ((memory.cells id).reportCheck ok health) }

variable [DecidableEq Addr] [DecidableEq Metrics]

namespace World

def step (world : World lib Addr Settings Metrics) :
    Event Addr Settings Metrics → World lib Addr Settings Metrics
  | .reload changed loaded => { world with state := (world.state.reload changed loaded).2 }
  | .check gateway idx =>
    match (world.state.gateways.lookup gateway).bind (·.upstreams[idx]?) with
    | none => world
    | some upstream =>
      match upstream.health with
      | none => world
      | some health => { world with checks := world.checks ++ [⟨health, upstream.servers⟩] }
  | .report idx id ok =>
    match world.checks[idx]? with
    | none => world
    | some check =>
      if id ∈ check.pending then
        { state :=
            { world.state with
              memory := world.state.memory.reportCheck id ok check.health }
          checks := world.checks.set idx { check with pending := check.pending.erase id } }
      else world

def run (world : World lib Addr Settings Metrics)
    (events : List (Event Addr Settings Metrics)) : World lib Addr Settings Metrics :=
  events.foldl step world

/-- The backends belong to their upstreams, also those of running checks. -/
structure Sound (world : World lib Addr Settings Metrics) : Prop where
  located : Located world.state.memory world.state.gateways
  distinct : ∀ name context, world.state.gateways.lookup name = some context →
    (context.upstreams.map (·.name)).Nodup
  pending : ∀ check ∈ world.checks, ∀ id ∈ check.pending, id < world.state.memory.allocated

def Unchecked (world : World lib Addr Settings Metrics) (id : Nat) : Prop :=
  ∃ name context, world.state.gateways.lookup name = some context ∧
    ∃ upstream ∈ context.upstreams, upstream.health = none ∧ id ∈ upstream.servers

/-- Such backends are healthy, and no check reports on them. -/
def Untouched (world : World lib Addr Settings Metrics) : Prop :=
  ∀ id, world.Unchecked id → (world.state.memory.cells id).healthy = true ∧
    ∀ check ∈ world.checks, id ∉ check.pending

/-- A reload gives no upstream without a health check the name of one in force
that has a check. -/
def KeepsChecks (world : World lib Addr Settings Metrics) : Event Addr Settings Metrics → Prop
  | .reload _ loaded => ∀ config ∈ loaded, ∀ name gateway,
      config.gateways.lookup name = some gateway →
      ∀ context, world.state.gateways.lookup name = some context →
      ∀ upstream ∈ gateway.upstreams, upstream.healthCheck = none →
      ∀ old ∈ context.upstreams, old.name = upstream.name → old.health = none
  | _ => True

def AlwaysKeepsChecks (world : World lib Addr Settings Metrics) :
    List (Event Addr Settings Metrics) → Prop
  | [] => True
  | event :: events => world.KeepsChecks event ∧ (world.step event).AlwaysKeepsChecks events

section Step

variable {world : World lib Addr Settings Metrics}

/-- What a reload does: it sets weights, and the contexts in force are old ones or
built from the new configuration. -/
theorem reload_effect (located : Located world.state.memory world.state.gateways)
    (changed : Bool) (loaded : Option (OphanConfig Addr Settings Metrics)) :
    let after := (world.state.reload changed loaded).2
    ∃ trace, Reweighed world.state.memory after.memory trace ∧
      ∀ name context, after.gateways.lookup name = some context →
        world.state.gateways.lookup name = some context ∨
          ∃ config ∈ loaded, ∃ gateway, config.gateways.lookup name = some gateway ∧
            ContextBuilt world.state.memory world.state.gateways name gateway context
              after.memory := by
  dsimp only
  rcases reload_cases changed loaded world.state with
    ⟨-, -, same⟩ | ⟨config, isCandidate, isAfter⟩
  · rw [same]
    exact ⟨[], traced_reweighed.refl _, fun _ _ inForce => Or.inl inForce⟩
  · obtain ⟨effect, built⟩ := buildContexts_spec located
      (traced_reweighed.refl world.state.memory) config.gateways.entries
    rcases isAfter with ⟨-, isAfter⟩ | ⟨contexts, isOk, isAfter⟩
    · grind
    · rw [isAfter]
      refine ⟨_, effect, ?_⟩
      intro name context inForce
      have isLoaded : config ∈ loaded := by
        rw [AppState.candidate] at isCandidate
        split at isCandidate
        · exact (Option.mem_filter_iff.mp isCandidate).1
        · cases isCandidate
      rcases AppState.lookup_foldl (fun _ _ => (ite_eq_or_eq ..).symm) inForce with isOld | isNew
      · exact Or.inl isOld
      · obtain ⟨gateway, isEntry, isBuilt⟩ := built contexts isOk name context isNew
        exact Or.inr ⟨config, isLoaded, gateway, AList.mem_lookup_iff.mpr isEntry, isBuilt⟩

theorem step_check (world : World lib Addr Settings Metrics) (gateway : Name) (idx : Nat) :
    world.step (.check gateway idx) = world ∨
      ∃ context upstream health,
        world.state.gateways.lookup gateway = some context ∧
        upstream ∈ context.upstreams ∧ upstream.health = some health ∧
        world.step (.check gateway idx) =
          { world with checks := world.checks ++ [⟨health, upstream.servers⟩] } := by
  rw [step]
  cases found : (world.state.gateways.lookup gateway).bind (·.upstreams[idx]?) with
  | none => exact Or.inl rfl
  | some upstream =>
    obtain ⟨context, isContext, located⟩ := Option.bind_eq_some_iff.mp found
    dsimp only
    cases health : upstream.health with
    | none => exact Or.inl rfl
    | some config =>
      exact Or.inr ⟨context, upstream, config, isContext, mem_of_getElem? located, health, rfl⟩

theorem step_report (world : World lib Addr Settings Metrics) (idx id : Nat) (ok : Bool) :
    world.step (.report idx id ok) = world ∨
      ∃ check ∈ world.checks, id ∈ check.pending ∧
        (world.step (.report idx id ok)).state =
          { world.state with
            memory := world.state.memory.reportCheck id ok check.health } ∧
        ∀ other ∈ (world.step (.report idx id ok)).checks,
          ∃ before ∈ world.checks, other.pending ⊆ before.pending := by
  rw [step]
  cases found : world.checks[idx]? with
  | none => exact Or.inl rfl
  | some check =>
    have member := mem_of_getElem? found
    dsimp only
    by_cases isPending : id ∈ check.pending
    · rw [if_pos isPending]
      refine Or.inr ⟨check, member, isPending, rfl, ?_⟩
      intro other isOther
      rcases mem_or_eq_of_mem_set isOther with isOld | rfl
      · exact ⟨other, isOld, List.Subset.refl _⟩
      · exact ⟨check, member, erase_subset⟩
    · simp_all

theorem Sound.step (sound : world.Sound) (event : Event Addr Settings Metrics) :
    (world.step event).Sound := by
  cases event with
  | reload changed loaded =>
    obtain ⟨trace, effect, inForce⟩ := reload_effect sound.located changed loaded
    refine ⟨?_, ?_, ?_⟩
    · intro name context isContext upstream member id isServer
      rcases inForce name context isContext with isOld | ⟨_, -, gateway, -, built⟩
      · obtain ⟨allocated, isSite⟩ := sound.located name context isOld upstream member id isServer
        exact ⟨allocated.trans_le effect.allocated, (effect.site id allocated).trans isSite⟩
      · exact built.belonging upstream member id isServer
    · intro name context isContext
      rcases inForce name context isContext with isOld | ⟨_, -, gateway, -, built⟩
      · exact sound.distinct name context isOld
      · rw [built.names]
        exact gateway.distinct
    · intro check member id isPending
      exact (sound.pending check member id isPending).trans_le effect.allocated
  | check gateway idx =>
    rcases world.step_check gateway idx with
      same | ⟨context, upstream, health, isContext, member, -, isStep⟩
    · rw [same]
      exact sound
    · rw [isStep]
      refine ⟨sound.located, sound.distinct, ?_⟩
      intro check isCheck id isPending
      rcases mem_append.mp isCheck with isOld | isNew
      · exact sound.pending check isOld id isPending
      · rw [mem_singleton.mp isNew] at isPending
        exact (sound.located gateway context isContext upstream member id isPending).1
  | report idx id ok =>
    rcases world.step_report idx id ok with
      same | ⟨check, -, -, isState, fewer⟩
    · rw [same]
      exact sound
    · refine ⟨?_, ?_, ?_⟩
      · rw [isState]
        exact sound.located
      · rw [isState]
        exact sound.distinct
      · intro other isOther backend isPending
        obtain ⟨before, isBefore, subset⟩ := fewer other isOther
        rw [isState]
        exact sound.pending before isBefore backend (subset isPending)

omit [DecidableEq Addr] [DecidableEq Metrics] in
theorem Unchecked.allocated {id : Nat} (sound : world.Sound)
    (unchecked : world.Unchecked id) : id < world.state.memory.allocated := by
  obtain ⟨name, context, isContext, upstream, member, -, isServer⟩ := unchecked
  exact (sound.located name context isContext upstream member id isServer).1

omit [DecidableEq Addr] [DecidableEq Metrics] in
theorem not_unchecked_of_health {id : Nat} (sound : world.Sound) {name : Name}
    {context : AppContext lib Settings} {upstream : Upstream} {health : HealthCheckConfig}
    (isContext : world.state.gateways.lookup name = some context)
    (member : upstream ∈ context.upstreams) (isHealth : upstream.health = some health)
    (isServer : id ∈ upstream.servers) : ¬ world.Unchecked id := by
  rintro ⟨other, otherContext, isOther, otherUpstream, otherMember, noHealth, inOther⟩
  have isSite := (sound.located name context isContext upstream member id isServer).2
  rw [(sound.located other otherContext isOther otherUpstream otherMember id inOther).2,
    Prod.mk.injEq] at isSite
  obtain ⟨rfl, sameName⟩ := isSite
  cases isContext.symm.trans isOther
  have sameUpstream := inj_on_of_nodup_map (sound.distinct _ _ isContext)
    otherMember member sameName
  simp [sameUpstream, isHealth] at noHealth

theorem Untouched.step (sound : world.Sound) (untouched : world.Untouched)
    {event : Event Addr Settings Metrics} (keeps : world.KeepsChecks event) :
    (world.step event).Untouched := by
  cases event with
  | reload changed loaded =>
    obtain ⟨trace, effect, inForce⟩ := reload_effect sound.located changed loaded
    -- A backend that was one before stays as it is, but for its weight.
    have old : ∀ id, world.Unchecked id →
        ((world.state.reload changed loaded).2.memory.cells id).healthy = true ∧
          ∀ check ∈ world.checks, id ∉ check.pending := by
      intro id unchecked
      rw [effect.cells id (unchecked.allocated sound)]
      exact untouched id unchecked
    rintro id ⟨name, context, isContext, upstream, member, noHealth, isServer⟩
    rcases inForce name context isContext with
      isOld | ⟨config, isLoaded, gateway, isGateway, built⟩
    · exact old id ⟨name, context, isOld, upstream, member, noHealth, isServer⟩
    · obtain ⟨upstreamConfig, isConfig, isBuilt⟩ := built.upstreams upstream member
      rw [isBuilt.health] at noHealth
      rcases (isBuilt.servers id isServer).origin with isOldServer | ⟨isNew, healthy⟩
      · obtain ⟨upstreams, isPrevious, oldUpstream, isOld, sameName, inOld⟩ :=
          mem_oldServers isOldServer
        obtain ⟨oldContext, isOldContext, rfl⟩ := Option.map_eq_some_iff.mp isPrevious
        exact old id ⟨name, oldContext, isOldContext, oldUpstream, isOld,
          keeps config isLoaded name gateway isGateway oldContext isOldContext
            upstreamConfig isConfig noHealth oldUpstream isOld sameName, inOld⟩
      · refine ⟨healthy, ?_⟩
        intro check isCheck isPending
        have allocated := sound.pending check isCheck id isPending
        omega
  | check gateway idx =>
    rcases world.step_check gateway idx with
      same | ⟨context, upstream, health, isContext, member, isHealth, isStep⟩
    · simp_all
    · rw [isStep]
      intro id unchecked
      refine ⟨(untouched id unchecked).1, ?_⟩
      intro check isCheck isPending
      rcases mem_append.mp isCheck with isOld | isNew
      · exact (untouched id unchecked).2 check isOld isPending
      · rw [mem_singleton.mp isNew] at isPending
        exact not_unchecked_of_health sound isContext member isHealth isPending unchecked
  | report idx id ok =>
    rcases world.step_report idx id ok with
      same | ⟨check, isCheck, isPending, isState, fewer⟩
    · simp_all
    · intro other unchecked
      rw [Unchecked, isState] at unchecked
      have different : other ≠ id := by
        rintro rfl
        exact (untouched other unchecked).2 check isCheck isPending
      refine ⟨?_, ?_⟩
      · rw [isState]
        dsimp only [Memory.reportCheck]
        rw [Function.update_of_ne different]
        exact (untouched other unchecked).1
      · intro after isAfter inPending
        obtain ⟨before, isBefore, subset⟩ := fewer after isAfter
        exact (untouched other unchecked).2 before isBefore (subset inPending)

omit [DecidableEq Metrics] in
/-- The first contexts: no check runs, and all backends are new. -/
theorem started {blank : Backend Addr} {config : OphanConfig Addr Settings Metrics}
    {state : AppState lib Addr Settings Metrics}
    (isStart : AppState.start lib blank config = .ok state) :
    (World.mk state []).Sound ∧ (World.mk state []).Untouched := by
  refine ⟨⟨AppState.start_located blank config isStart, ?_, by simp⟩, ?_⟩
  · intro name context isContext
    obtain ⟨gateway, isBuilt⟩ := AppState.start_spec isStart isContext
    rw [isBuilt.names]
    exact gateway.distinct
  · rintro id ⟨name, context, isContext, upstream, member, -, isServer⟩
    obtain ⟨gateway, isBuilt⟩ := AppState.start_spec isStart isContext
    obtain ⟨upstreamConfig, -, builtUpstream⟩ := isBuilt.upstreams upstream member
    rcases (builtUpstream.servers id isServer).origin with isOld | ⟨-, healthy⟩
    · cases isOld
    · exact ⟨healthy, by simp⟩

end Step

theorem run_untouched {world : World lib Addr Settings Metrics} (sound : world.Sound)
    (untouched : world.Untouched) {events : List (Event Addr Settings Metrics)}
    (keeps : world.AlwaysKeepsChecks events) : (world.run events).Untouched := by
  induction events generalizing world with
  | nil => exact untouched
  | cons event events ih => exact ih (sound.step event) (untouched.step sound keeps.1) keeps.2

/-- Running states hold backends of their own upstreams. -/
theorem run_located {blank : Backend Addr} {config : OphanConfig Addr Settings Metrics}
    {state : AppState lib Addr Settings Metrics}
    (isStart : AppState.start lib blank config = .ok state)
    (events : List (Event Addr Settings Metrics)) :
    Located ((World.mk state []).run events).state.memory
      ((World.mk state []).run events).state.gateways := by
  have sound : ((World.mk state []).run events).Sound := by
    induction events using List.reverseRecOn with
    | nil => exact (started isStart).1
    | append_singleton events event ih =>
      rw [run, foldl_append]
      exact ih.step event
  exact sound.located

/-- A reload that changes a weight and shares the backends. -/
theorem run_located_reload :
    ∃ state, AppState.start .none (.new 0 (.http1 false) 0)
        (twoGateways (oneServer [] 1 none) (oneServer [] 1 none)) = .ok state ∧
      let world := (World.mk state []).run
        [.reload true (some (twoGateways (oneServer [] 5 none) (oneServer [] 1 none)))]
      (world.state.memory.cells 0).weight = 5 ∧
        (world.state.gateways.lookup [97]).map (·.upstreams.map (·.servers)) = some [[0]] ∧
        Located world.state.memory world.state.gateways := by
  refine ⟨_, rfl, by decide, by decide, ?_⟩
  exact @run_located .none _ _ _ _ _ (.new 0 (.http1 false) 0)
    (twoGateways (oneServer [] 1 none) (oneServer [] 1 none)) _ rfl _

/-- The backends of an upstream in force are healthy, and selecting one of them
succeeds. -/
def Selectable (world : World lib Addr Settings Metrics) (upstreams : List Upstream)
    (upstreamId : Nat) (upstream : Upstream) : Prop :=
  (∀ id ∈ upstream.servers, (world.state.memory.cells id).healthy = true) ∧
    (upstream.servers ≠ [] → ∀ clientIp ticket, ∃ id ∈ upstream.servers,
      (Calls.selectBackend upstreams upstreamId clientIp
        ⟨world.state.memory.cells, ticket⟩).1 = .ok id)

/-- As long as no reload takes the health check of an upstream away, the backends
of upstreams without one can be selected. -/
theorem unchecked_backends_selectable (blank : Backend Addr)
    (config : OphanConfig Addr Settings Metrics) (state : AppState lib Addr Settings Metrics)
    (isStart : AppState.start lib blank config = .ok state)
    (events : List (Event Addr Settings Metrics))
    (keeps : (World.mk state []).AlwaysKeepsChecks events)
    (name : Name) (context : AppContext lib Settings)
    (inForce : ((World.mk state []).run events).state.gateways.lookup name = some context)
    (upstreamId : Nat) (upstream : Upstream)
    (located : context.upstreams[upstreamId]? = some upstream) (noHealth : upstream.health = none) :
    ((World.mk state []).run events).Selectable context.upstreams upstreamId
      upstream := by
  obtain ⟨sound, untouched⟩ := started isStart
  have healthy : ∀ id ∈ upstream.servers,
      (((World.mk state []).run events).state.memory.cells id).healthy = true := by
    intro id isServer
    exact (run_untouched sound untouched keeps id ⟨name, context, inForce, upstream,
      mem_of_getElem? located, noHealth, isServer⟩).1
  refine ⟨healthy, ?_⟩
  intro nonempty clientIp ticket
  obtain ⟨found, picks, isResult⟩ := Calls.selectBackend_picks located nonempty
    clientIp ⟨((World.mk state []).run events).state.memory.cells, ticket⟩
  cases found with
  | some id => exact ⟨id, picks.1, isResult⟩
  | none =>
    obtain ⟨id, isServer⟩ := exists_mem_of_ne_nil _ nonempty
    have unhealthy := picks id isServer
    simp_all

end World

end Health

/-- A check that one failure turns off. -/
def oneFailure : HealthCheckConfig := ⟨1, 1⟩

theorem unchecked_backends_selectable_reloaded :
    ∃ state, AppState.start .none (.new 0 (.http1 false) 0)
        (twoGateways (oneServer [] 1 none) (oneServer [] 1 (some oneFailure))) = .ok state ∧
      let events := [.check [98] 0, .report 0 1 false, .reload true (some
        (twoGateways (oneServer [] 2 none) (oneServer [] 1 (some oneFailure))))]
      ∃ context, ((World.mk state []).run events).state.gateways.lookup [97] = some context ∧
        ∃ upstream, context.upstreams[0]? = some upstream ∧
          ((World.mk state []).run events).Selectable context.upstreams 0 upstream := by
  refine ⟨_, rfl, _, rfl, _, rfl, ?_⟩
  refine World.unchecked_backends_selectable (.new 0 (.http1 false) 0)
    (twoGateways (oneServer [] 1 none) (oneServer [] 1 (some oneFailure))) _ rfl _ ?_
    [97] _ rfl 0 _ rfl rfl
  refine ⟨trivial, trivial, ?_, trivial⟩
  rintro config ⟨⟩ name gateway isGateway context isContext upstream member noCheck old isOld -
  by_cases isFirst : name = [97]
  · subst isFirst
    rw [← Option.some.inj isContext] at isOld
    rw [mem_singleton.mp isOld]
    rfl
  · rw [twoGateways, AList.lookup_insert_ne isFirst] at isGateway
    by_cases isSecond : name = [98]
    · subst isSecond
      rw [AList.lookup_insert] at isGateway
      cases isGateway
      rw [mem_singleton.mp member] at noCheck
      cases noCheck
    · rw [AList.lookup_insert_ne isSecond] at isGateway
      cases isGateway

/-- The check has turned the backend off when a reload takes the check away. -/
theorem reload_drops_check :
    ∃ state, AppState.start .none (.new 0 (.http1 false) 0)
        (twoGateways (oneServer [] 1 (some oneFailure)) (oneServer [] 1 none)) = .ok state ∧
      let world := (World.mk state []).run [.check [97] 0, .report 0 0 false,
        .reload true (some (twoGateways (oneServer [] 1 none) (oneServer [] 1 none)))]
      ∃ context, world.state.gateways.lookup [97] = some context ∧
        ∃ upstream, context.upstreams[0]? = some upstream ∧
          upstream.health = none ∧ upstream.servers = [0] ∧
          (world.state.memory.cells 0).healthy = false ∧
          (Calls.selectBackend context.upstreams 0 (.v4 0)
            ⟨world.state.memory.cells, 0⟩).1 = .err .allServersUnhealthy := by
  refine ⟨_, rfl, _, rfl, _, rfl, rfl, rfl, rfl, rfl⟩

end Ophan.State
