import Mathlib.Data.List.Find
import Ophan.Balancer.Select
import Ophan.Gateway.Context
import Ophan.Gateway.Listener
import Ophan.Lib.Thread

/-!
# Reloading the configuration

A reload builds the contexts of all gateways and swaps them in if all of them
could be built.  A backend that stays in its upstream, with its address and
protocol, is shared between the old and the new context, and its weight is set
while the new context is built.
-/

namespace Ophan.Balancer.Backend

variable {Addr : Type}

/-- `Backend::new` and `set_protocol` -/
def new (addr : Addr) (protocol : NetworkProtocol) (weight : Nat) : Backend Addr :=
  ⟨addr, protocol, weight, true, 0, 0, 0, 0⟩

def reweigh (backend : Backend Addr) (weight : Option Nat) : Backend Addr :=
  { backend with weight := weight.getD backend.weight }

/-- Apply the result of an active health check. -/
def reportCheck (backend : Backend Addr) (ok : Bool) (health : HealthCheckConfig) : Backend Addr :=
  let saturated (count : Nat) := min (count + 1) (2 ^ 32 - 1)
  if ok then
    { backend with
      checkFailures := 0
      checkSuccesses := (backend.checkSuccesses + 1) % 2 ^ 32
      healthy := backend.healthy ||
        max health.healthyThreshold 1 ≤ saturated backend.checkSuccesses }
  else
    { backend with
      checkSuccesses := 0
      checkFailures := (backend.checkFailures + 1) % 2 ^ 32
      healthy := backend.healthy &&
        !(max health.unhealthyThreshold 1 ≤ saturated backend.checkFailures) }

end Ophan.Balancer.Backend

namespace Ophan.State

open Balancer Gateway Lib Rewrite Router

abbrev Name := Bytes

/-! ## The configuration -/

structure UpstreamServer (Addr : Type) where
  address : Addr
  protocol : NetworkProtocol
  weight : Nat

structure UpstreamConfig (Addr : Type) where
  name : Name
  servers : List (UpstreamServer Addr)
  balanceStrategy : BalanceStrategy
  healthCheck : Option HealthCheckConfig
  fits : servers.length ≤ maxPointers

/-- A gateway.  `validate_upstream_names` rejects a name that is used twice. -/
structure GatewayConfig (Addr Settings : Type) where
  routes : List RoutesConfig
  upstreams : List (UpstreamConfig Addr)
  listeners : List (ListenerConfig Settings)
  distinct : (upstreams.map (·.name)).Nodup

structure OphanConfig (Addr Settings Metrics : Type) where
  gateways : KeyMap Name (GatewayConfig Addr Settings)
  listeners : List (ListenerConfig Settings)
  metrics : Metrics

/-! ## The contexts -/

/-- The backends, by their numbers; the numbers from `allocated` on are free.
Each one is labelled with the gateway and the upstream it was allocated for. -/
structure Memory (Addr : Type) where
  cells : Nat → Backend Addr
  site : Nat → Name × Name
  allocated : Nat

structure AppContext (lib : Regexes) (Settings : Type) where
  router : Router (HttpRoute lib)
  upstreams : List Upstream
  listeners : ListenerTable Settings

section Build

variable {Addr Settings : Type} [DecidableEq Addr]

namespace Memory

def empty (blank : Backend Addr) : Memory Addr := ⟨fun _ => blank, fun _ => ([], []), 0⟩

def setWeight (memory : Memory Addr) (id weight : Nat) : Memory Addr :=
  { memory with
    cells := Function.update memory.cells id ((memory.cells id).reweigh (some weight)) }

def alloc (memory : Memory Addr) (site : Name × Name) (backend : Backend Addr) : Memory Addr where
  cells := Function.update memory.cells memory.allocated backend
  site := Function.update memory.site memory.allocated site
  allocated := memory.allocated + 1

end Memory

/-- The running backend that serves a configured one. -/
def findReused (cells : Nat → Backend Addr) (olds : List Nat)
    (server : UpstreamServer Addr) : Option Nat :=
  olds.find? fun id => (cells id).addr = server.address && (cells id).protocol = server.protocol

def buildServer (site : Name × Name) (olds : List Nat)
    (server : UpstreamServer Addr) (memory : Memory Addr) : Nat × Memory Addr :=
  match findReused memory.cells olds server with
  | some id => (id, memory.setWeight id server.weight)
  | none =>
    (memory.allocated, memory.alloc site (.new server.address server.protocol server.weight))

/-- The backends of the upstream of a name in the balancer that is replaced. -/
def oldServers (previous : Option (List Upstream)) (name : Name) : List Nat :=
  ((previous.bind (·.find? (·.name = name))).map (·.servers)).getD []

def buildUpstream (gateway : Name) (previous : Option (List Upstream))
    (config : UpstreamConfig Addr) (memory : Memory Addr) :
    Upstream × Memory Addr :=
  let built := threadMap (buildServer (gateway, config.name) (oldServers previous config.name))
    config.servers memory
  (⟨config.name, config.healthCheck, built.1, config.balanceStrategy,
    (length_threadMap ..).trans_le config.fits⟩, built.2)

def buildLoadBalancer (gateway : Name) (previous : Option (List Upstream))
    (config : GatewayConfig Addr Settings) (memory : Memory Addr) :
    List Upstream × Memory Addr :=
  threadMap (buildUpstream gateway previous) config.upstreams memory

variable (lib : Regexes)

def AppContext.build (name : Name) (config : GatewayConfig Addr Settings)
    (previous : Option (AppContext lib Settings)) (memory : Memory Addr) :
    Outcome (BuildError lib) (AppContext lib Settings) × Memory Addr :=
  match Gateway.AppContext.build lib config.routes with
  | .ok router =>
    let balancer := buildLoadBalancer name (previous.map (·.upstreams)) config memory
    (.ok ⟨router, balancer.1, ListenerTable.fromConfig config.listeners⟩, balancer.2)
  | .err error => (.err error, memory)
  | .panic => (.panic, memory)

/-- The contexts of all gateways, in the order of the map.  The first one that
cannot be built ends the loop. -/
def buildContexts (gateways : KeyMap Name (AppContext lib Settings)) :
    List (Σ _ : Name, GatewayConfig Addr Settings) → Memory Addr →
      Outcome (BuildError lib) (List (Name × AppContext lib Settings)) × Memory Addr
  | [], memory => (.ok [], memory)
  | ⟨name, config⟩ :: rest, memory =>
    match AppContext.build lib name config (gateways.lookup name) memory with
    | (.ok context, memory) =>
      let others := buildContexts gateways rest memory
      (others.1.map ((name, context) :: ·), others.2)
    | (.err error, memory) => (.err error, memory)
    | (.panic, memory) => (.panic, memory)

end Build

/-! ## The reload -/

inductive ReloadOutcome where
  | noChange
  | swapped
  | needsUpgrade
  deriving DecidableEq, Repr

structure AppState (lib : Regexes) (Addr Settings Metrics : Type) where
  config : OphanConfig Addr Settings Metrics
  gateways : KeyMap Name (AppContext lib Settings)
  memory : Memory Addr

namespace AppState

variable {lib : Regexes} {Addr Settings Metrics : Type} [DecidableEq Addr] [DecidableEq Metrics]

def listenersChanged (first second : List (ListenerConfig Settings)) : Bool :=
  first.length ≠ second.length ||
    (first.zip second).any fun (a, b) => a.address ≠ b.address || a.security ≠ b.security

def needsUpgrade (current new : OphanConfig Addr Settings Metrics) : Bool :=
  (current.gateways.len ≠ new.gateways.len ||
      !current.gateways.keys.all fun name => name ∈ new.gateways) ||
    listenersChanged current.listeners new.listeners ||
    current.metrics ≠ new.metrics

/-- The loop that stores the new contexts in the slots of the gateways. -/
def store (gateways : KeyMap Name (AppContext lib Settings))
    (contexts : List (Name × AppContext lib Settings)) :
    KeyMap Name (AppContext lib Settings) :=
  contexts.foldl
    (fun gateways (name, context) =>
      if name ∈ gateways then gateways.insert name context else gateways)
    gateways

/-- `reload`, where `changed` says whether a file changed and `loaded` is the
configuration, if it could be loaded.  There is no outcome when a build
panics. -/
def reload (changed : Bool) (loaded : Option (OphanConfig Addr Settings Metrics))
    (state : AppState lib Addr Settings Metrics) :
    Option ReloadOutcome × AppState lib Addr Settings Metrics :=
  if !changed then (some .noChange, state)
  else
    match loaded with
    | none => (some .noChange, state)
    | some config =>
      if needsUpgrade state.config config then (some .needsUpgrade, state)
      else
        match buildContexts lib state.gateways config.gateways.entries state.memory with
        | (.ok contexts, memory) => (some .swapped, ⟨config, store state.gateways contexts, memory⟩)
        | (.err _, memory) => (some .noChange, { state with memory := memory })
        | (.panic, memory) => (none, { state with memory := memory })

/-- `server_run`: the contexts of a process that starts. -/
def start (lib : Regexes) (blank : Backend Addr) (config : OphanConfig Addr Settings Metrics) :
    Outcome (BuildError lib) (AppState lib Addr Settings Metrics) :=
  let built := buildContexts lib ∅ config.gateways.entries (.empty blank)
  built.1.map fun contexts =>
    ⟨config, contexts.foldl (fun gateways (name, context) =>
      gateways.insert name context) ∅, built.2⟩

end AppState

/-! ## What building does to the running backends -/

section Effects

variable {lib : Regexes} {Addr Settings Metrics : Type}

def lastWeight (trace : List (Nat × Nat)) (id : Nat) : Option Nat :=
  (trace.filter (·.1 = id)).getLast?.map (·.2)

/-- The weights of a trace were set; otherwise backends were only added. -/
structure Reweighed (first second : Memory Addr) (trace : List (Nat × Nat)) :
    Prop where
  allocated : first.allocated ≤ second.allocated
  cells : ∀ id < first.allocated, second.cells id = (first.cells id).reweigh (lastWeight trace id)
  site : ∀ id < first.allocated, second.site id = first.site id

theorem lastWeight_append (trace more : List (Nat × Nat)) (id : Nat) :
    lastWeight (trace ++ more) id = (lastWeight more id).or (lastWeight trace id) := by
  rw [lastWeight, List.filter_append, List.getLast?_append, Option.map_or]
  rfl

variable {trace : List (Nat × Nat)} {id : Nat}

theorem mem_of_lastWeight {weight : Nat}
    (isLast : lastWeight trace id = some weight) : (id, weight) ∈ trace := by
  obtain ⟨⟨other, _⟩, located, rfl⟩ := Option.map_eq_some_iff.mp isLast
  obtain ⟨member, isId⟩ := List.mem_filter.mp (List.mem_of_getLast? located)
  obtain rfl : other = id := by simpa using isId
  exact member

theorem traced_reweighed : Traced (@Reweighed Addr) where
  refl memory := ⟨Nat.le_refl _, fun _ _ => rfl, fun _ _ => rfl⟩
  trans := by
    intro first second third trace more before after
    refine ⟨before.allocated.trans after.allocated, ?_, ?_⟩
    · intro id allocated
      rw [after.cells id (allocated.trans_le before.allocated),
        before.cells id allocated, lastWeight_append]
      cases lastWeight more id <;> rfl
    · intro id allocated
      rw [after.site id (allocated.trans_le before.allocated), before.site id allocated]

/-- A backend that belongs to an upstream: it was one of its backends, or it is
new and healthy. -/
structure Placed (start : Memory Addr) (site : Name × Name) (olds : List Nat)
    (id : Nat) (memory : Memory Addr) : Prop where
  allocated : id < memory.allocated
  site : memory.site id = site
  origin : id ∈ olds ∨ start.allocated ≤ id ∧ (memory.cells id).healthy = true

variable {start memory : Memory Addr}

theorem Placed.reweighed {first second : Memory Addr} {site : Name × Name}
    {olds : List Nat} (placed : Placed start site olds id first)
    (effect : Reweighed first second trace) : Placed start site olds id second where
  allocated := placed.allocated.trans_le effect.allocated
  site := (effect.site id placed.allocated).trans placed.site
  origin := by
    rw [effect.cells id placed.allocated]
    exact placed.origin

variable [DecidableEq Addr]

/-- The weights that building a gateway sets for running backends. -/
def adoptions (cells : Nat → Backend Addr) (previous : Option (List Upstream))
    (config : GatewayConfig Addr Settings) : List (Nat × Nat) :=
  config.upstreams.flatMap fun upstream =>
    upstream.servers.flatMap fun server =>
      ((findReused cells (oldServers previous upstream.name) server).map (·, server.weight)).toList

theorem buildServer_spec {site : Name × Name} {olds : List Nat}
    (located : ∀ id ∈ olds, id < start.allocated ∧ start.site id = site)
    (reached : Reweighed start memory trace) (server : UpstreamServer Addr) :
    Reweighed memory (buildServer site olds server memory).2
        ((findReused start.cells olds server).map (·, server.weight)).toList ∧
      Placed start site olds (buildServer site olds server memory).1
        (buildServer site olds server memory).2 := by
  have sameReused : findReused memory.cells olds server = findReused start.cells olds server := by
    apply List.find?_congr
    intro id member
    rw [reached.cells id (located id member).1]
    rfl
  rw [buildServer, sameReused]
  cases reused : findReused start.cells olds server with
  | none =>
    refine ⟨⟨Nat.le_succ _, ?_, ?_⟩, ⟨Nat.lt_succ_self _, ?_, ?_⟩⟩
    · intro id allocated
      exact Function.update_of_ne (Nat.ne_of_lt allocated) ..
    · intro id allocated
      exact Function.update_of_ne (Nat.ne_of_lt allocated) ..
    · exact Function.update_self ..
    · refine Or.inr ⟨reached.allocated, ?_⟩
      simp [Memory.alloc, Backend.new]
  | some id =>
    have member : id ∈ olds := List.mem_of_find?_eq_some reused
    obtain ⟨allocated, isSite⟩ := located id member
    refine ⟨⟨Nat.le_refl _, ?_, fun _ _ => rfl⟩,
      ⟨allocated.trans_le reached.allocated,
        (reached.site id allocated).trans isSite, Or.inl member⟩⟩
    intro other _
    by_cases same : other = id
    · subst same
      simp [Memory.setWeight, lastWeight]
    · have different : id ≠ other := fun equal => same equal.symm
      simp [Memory.setWeight, lastWeight, same, different, Backend.reweigh]

structure Built (start : Memory Addr) (gateway : Name)
    (previous : Option (List Upstream)) (config : UpstreamConfig Addr)
    (upstream : Upstream) (memory : Memory Addr) : Prop where
  name : upstream.name = config.name
  health : upstream.health = config.healthCheck
  servers : ∀ id ∈ upstream.servers, Placed start (gateway, config.name)
    (oldServers previous config.name) id memory

def Belonging (memory : Memory Addr) (gateway : Name) (upstreams : List Upstream) : Prop :=
  ∀ upstream ∈ upstreams, ∀ id ∈ upstream.servers,
    id < memory.allocated ∧ memory.site id = (gateway, upstream.name)

variable {previous : Option (List Upstream)} {name : Name}

omit [DecidableEq Addr] in
theorem mem_oldServers (member : id ∈ oldServers previous name) :
    ∃ upstreams ∈ previous, ∃ old ∈ upstreams, old.name = name ∧ id ∈ old.servers := by
  rw [oldServers] at member
  cases found : previous.bind (·.find? (·.name = name)) with
  | none => simp [found] at member
  | some old =>
    rw [found] at member
    obtain ⟨upstreams, isPrevious, isOld⟩ := Option.bind_eq_some_iff.mp found
    exact ⟨upstreams, isPrevious, old, List.mem_of_find?_eq_some isOld,
      by simpa using List.find?_some isOld, member⟩

omit [DecidableEq Addr] in
theorem Belonging.oldServers {gateway : Name}
    (belonging : ∀ upstreams ∈ previous, Belonging memory gateway upstreams)
    (name : Name) : ∀ id ∈ oldServers previous name,
      id < memory.allocated ∧ memory.site id = (gateway, name) := by
  intro id member
  obtain ⟨upstreams, isPrevious, old, isOld, rfl, isServer⟩ := mem_oldServers member
  exact belonging upstreams isPrevious old isOld id isServer

theorem buildLoadBalancer_spec {gateway : Name}
    (belonging : ∀ upstreams ∈ previous, Belonging start gateway upstreams)
    (reached : Reweighed start memory trace) (config : GatewayConfig Addr Settings) :
    Reweighed memory (buildLoadBalancer gateway previous config memory).2
        (adoptions start.cells previous config) ∧
      ∀ upstream ∈ (buildLoadBalancer gateway previous config memory).1,
        ∃ upstreamConfig ∈ config.upstreams, Built start gateway previous
          upstreamConfig upstream (buildLoadBalancer gateway previous config memory).2 := by
  refine threadMap_spec traced_reweighed (Built start gateway previous) ?_ ?_ reached
  · intro upstreamConfig upstream first second trace built effect
    exact ⟨built.name, built.health, fun id member => (built.servers id member).reweighed effect⟩
  · intro upstreamConfig _ memory trace reached
    obtain ⟨effect, placed⟩ := threadMap_spec traced_reweighed
      (fun _ => Placed start (gateway, upstreamConfig.name)
        (oldServers previous upstreamConfig.name))
      Placed.reweighed
      (fun server (_ : server ∈ upstreamConfig.servers) memory trace reached =>
        buildServer_spec (Belonging.oldServers belonging upstreamConfig.name) reached server)
      reached
    refine ⟨effect, ⟨rfl, rfl, ?_⟩⟩
    intro id member
    obtain ⟨-, -, isPlaced⟩ := placed id member
    exact isPlaced

def Located (memory : Memory Addr) (gateways : KeyMap Name (AppContext lib Settings)) : Prop :=
  ∀ name context, gateways.lookup name = some context → Belonging memory name context.upstreams

structure ContextBuilt (start : Memory Addr)
    (gateways : KeyMap Name (AppContext lib Settings)) (name : Name)
    (config : GatewayConfig Addr Settings) (context : AppContext lib Settings)
    (memory : Memory Addr) : Prop where
  names : context.upstreams.map (·.name) = config.upstreams.map (·.name)
  upstreams : ∀ upstream ∈ context.upstreams,
    ∃ upstreamConfig ∈ config.upstreams,
      Built start name ((gateways.lookup name).map (·.upstreams)) upstreamConfig upstream memory

def buildable (lib : Regexes) (entry : Σ _ : Name, GatewayConfig Addr Settings) : Bool :=
  (Gateway.AppContext.build lib entry.2.routes).isOk

/-- The weights that are set when the contexts of a configuration are built. -/
def allAdoptions (cells : Nat → Backend Addr) (gateways : KeyMap Name (AppContext lib Settings))
    (entries : List (Σ _ : Name, GatewayConfig Addr Settings)) : List (Nat × Nat) :=
  (entries.takeWhile (buildable lib)).flatMap fun entry =>
    adoptions cells ((gateways.lookup entry.1).map (·.upstreams)) entry.2

variable {gateways : KeyMap Name (AppContext lib Settings)} {context : AppContext lib Settings}

omit [DecidableEq Addr] in
theorem ContextBuilt.reweighed {first second : Memory Addr} {config : GatewayConfig Addr Settings}
    (built : ContextBuilt start gateways name config context first)
    (effect : Reweighed first second trace) :
    ContextBuilt start gateways name config context second where
  names := built.names
  upstreams upstream member := by
    obtain ⟨upstreamConfig, isConfig, isBuilt⟩ := built.upstreams upstream member
    exact ⟨upstreamConfig, isConfig, isBuilt.name, isBuilt.health,
      fun id isServer => (isBuilt.servers id isServer).reweighed effect⟩

omit [DecidableEq Addr] in
theorem ContextBuilt.belonging {config : GatewayConfig Addr Settings}
    (built : ContextBuilt start gateways name config context memory) :
    Belonging memory name context.upstreams := by
  intro upstream member id isServer
  obtain ⟨upstreamConfig, -, isBuilt⟩ := built.upstreams upstream member
  have placed := isBuilt.servers id isServer
  exact ⟨placed.allocated, isBuilt.name ▸ placed.site⟩

theorem buildContexts_spec (located : Located start gateways)
    (reached : Reweighed start memory trace)
    (entries : List (Σ _ : Name, GatewayConfig Addr Settings)) :
    Reweighed memory (buildContexts lib gateways entries memory).2
        (allAdoptions start.cells gateways entries) ∧
      ∀ contexts, (buildContexts lib gateways entries memory).1 = .ok contexts →
        ∀ name context, (name, context) ∈ contexts →
          ∃ config, ⟨name, config⟩ ∈ entries ∧
            ContextBuilt start gateways name config context
              (buildContexts lib gateways entries memory).2 := by
  induction entries generalizing memory trace with
  | nil =>
    refine ⟨traced_reweighed.refl memory, ?_⟩
    rintro contexts ⟨⟩
    simp
  | cons entry rest ih =>
    obtain ⟨name, config⟩ := entry
    rw [buildContexts, AppContext.build, allAdoptions]
    cases routes : Gateway.AppContext.build lib config.routes with
    | err | panic =>
      rw [List.takeWhile_cons_of_neg (by simp [buildable, routes])]
      exact ⟨traced_reweighed.refl memory, by rintro contexts ⟨⟩⟩
    | ok router =>
      have belonging : ∀ upstreams ∈ (gateways.lookup name).map (·.upstreams),
          Belonging start name upstreams := by
        intro upstreams isPrevious
        obtain ⟨context, isContext, rfl⟩ := Option.map_eq_some_iff.mp isPrevious
        exact located name context isContext
      obtain ⟨effect, built⟩ := buildLoadBalancer_spec belonging reached config
      obtain ⟨effects, others⟩ := ih (traced_reweighed.trans reached effect)
      rw [List.takeWhile_cons_of_pos (by simp [buildable, routes]), List.flatMap_cons]
      refine ⟨traced_reweighed.trans effect effects, ?_⟩
      intro contexts isOk other context member
      obtain ⟨tail, isTail, rfl⟩ := Outcome.map_eq_ok_iff.mp isOk
      rcases List.mem_cons.mp member with isFirst | inRest
      · cases isFirst
        refine ⟨config, List.mem_cons_self .., ContextBuilt.reweighed ?_ effects⟩
        refine ⟨?_, built⟩
        apply map_threadMap
        intro upstreamConfig memory
        rfl
      · grind

omit [DecidableEq Addr] in
/-- Storing contexts one after the other leaves old ones and stored ones. -/
theorem AppState.lookup_foldl
    {put : KeyMap Name (AppContext lib Settings) → Name × AppContext lib Settings →
      KeyMap Name (AppContext lib Settings)}
    (isPut : ∀ gateways entry, put gateways entry = gateways ∨
      put gateways entry = gateways.insert entry.1 entry.2)
    {contexts : List (Name × AppContext lib Settings)}
    (inForce : (contexts.foldl put gateways).lookup name = some context) :
    gateways.lookup name = some context ∨ (name, context) ∈ contexts := by
  induction contexts generalizing gateways with
  | nil => exact Or.inl inForce
  | cons entry rest ih =>
    rcases ih inForce with isOld | isNew
    · rcases isPut gateways entry with same | inserted
      · exact Or.inl (same ▸ isOld)
      · rw [inserted] at isOld
        by_cases isName : name = entry.1
        · subst isName
          rw [AList.lookup_insert] at isOld
          grind
        · simp_all
    · exact Or.inr (List.mem_cons_of_mem _ isNew)

/-- The contexts of a process that starts are built from the configuration. -/
theorem AppState.start_spec {blank : Backend Addr} {config : OphanConfig Addr Settings Metrics}
    {state : AppState lib Addr Settings Metrics}
    (isStart : AppState.start lib blank config = .ok state)
    (inForce : state.gateways.lookup name = some context) :
    ∃ gateway, ContextBuilt (.empty blank)
      (∅ : KeyMap Name (AppContext lib Settings)) name gateway context
      state.memory := by
  obtain ⟨contexts, isOk, rfl⟩ := Outcome.map_eq_ok_iff.mp isStart
  have noContext : Located (.empty blank) (∅ : KeyMap Name (AppContext lib Settings)) := by
    rintro name context ⟨⟩
  obtain ⟨-, built⟩ := buildContexts_spec noContext (traced_reweighed.refl _)
    config.gateways.entries
  rcases AppState.lookup_foldl (fun _ _ => Or.inr rfl) inForce with isOld | isNew
  · cases isOld
  · grind

theorem AppState.start_located (blank : Backend Addr) (config : OphanConfig Addr Settings Metrics)
    {state : AppState lib Addr Settings Metrics}
    (isStart : AppState.start lib blank config = .ok state) :
    Located state.memory state.gateways := by
  intro name context inForce
  obtain ⟨gateway, built⟩ := start_spec isStart inForce
  exact built.belonging

end Effects

/-! ## A rejected reload -/

section Rejected

variable {lib : Regexes} {Addr Settings Metrics : Type} [DecidableEq Addr] [DecidableEq Metrics]

def AppState.candidate (changed : Bool) (loaded : Option (OphanConfig Addr Settings Metrics))
    (state : AppState lib Addr Settings Metrics) :
    Option (OphanConfig Addr Settings Metrics) :=
  if changed then loaded.filter fun config => !needsUpgrade state.config config
  else none

/-- The configuration, the contexts and all their backends are the same. -/
structure Unchanged (before after : AppState lib Addr Settings Metrics) : Prop where
  config : after.config = before.config
  gateways : after.gateways = before.gateways
  backends : ∀ id < before.memory.allocated, after.memory.cells id = before.memory.cells id

/-- The gateways that are built before one fails list the running backends with
the weights they have.  Where one is listed more often, the last weight counts. -/
def KeepsWeights (state : AppState lib Addr Settings Metrics)
    (config : OphanConfig Addr Settings Metrics) : Prop :=
  ∀ id weight, lastWeight
    (allAdoptions state.memory.cells state.gateways config.gateways.entries) id =
      some weight → weight = (state.memory.cells id).weight

theorem reload_cases (changed : Bool) (loaded : Option (OphanConfig Addr Settings Metrics))
    (state : AppState lib Addr Settings Metrics) :
    (state.candidate changed loaded = none ∧
        (state.reload changed loaded).1 ≠ some .swapped ∧
        (state.reload changed loaded).2 = state) ∨
      ∃ config, state.candidate changed loaded = some config ∧
        let built := buildContexts lib state.gateways config.gateways.entries state.memory
        ((state.reload changed loaded).1 ≠ some .swapped ∧
            (state.reload changed loaded).2 = { state with memory := built.2 }) ∨
          ∃ contexts, built.1 = .ok contexts ∧
            state.reload changed loaded = (some .swapped,
              ⟨config, AppState.store state.gateways contexts, built.2⟩) := by
  unfold AppState.reload AppState.candidate
  cases changed with
  | false => exact Or.inl ⟨rfl, by simp, rfl⟩
  | true =>
    cases loaded with
    | none => exact Or.inl ⟨rfl, by simp, rfl⟩
    | some config =>
      cases upgrade : AppState.needsUpgrade state.config config with
      | true => exact Or.inl ⟨by simp [upgrade], by simp [upgrade], by simp [upgrade]⟩
      | false =>
        refine Or.inr ⟨config, by simp [upgrade], ?_⟩
        simp only [Bool.not_true, Bool.false_eq_true, if_false, upgrade]
        generalize buildContexts lib state.gateways config.gateways.entries state.memory = built
        obtain ⟨result, memory⟩ := built
        cases result with
        | ok contexts => exact Or.inr ⟨contexts, rfl, rfl⟩
        | err | panic => exact Or.inl ⟨by simp, rfl⟩

omit [DecidableEq Addr] [DecidableEq Metrics] in
/-- A trace leaves a backend as it is exactly when its last weight is the old
one. -/
theorem reweigh_eq_iff (backend : Backend Addr) (weight : Option Nat) :
    backend.reweigh weight = backend ↔ ∀ other ∈ weight, other = backend.weight := by
  cases weight with
  | none => simp [Backend.reweigh]
  | some other =>
    obtain ⟨_, _, _, _, _, _, _, _⟩ := backend
    simp [Backend.reweigh]

omit [DecidableEq Metrics] in
/-- Only allocated backends are taken over. -/
theorem allocated_of_allAdoptions {state : AppState lib Addr Settings Metrics}
    (located : Located state.memory state.gateways)
    {entries : List (Σ _ : Name, GatewayConfig Addr Settings)} {id weight : Nat}
    (member : (id, weight) ∈ allAdoptions state.memory.cells state.gateways entries) :
    id < state.memory.allocated := by
  obtain ⟨entry, -, inEntry⟩ := List.mem_flatMap.mp member
  obtain ⟨upstream, -, inUpstream⟩ := List.mem_flatMap.mp inEntry
  obtain ⟨server, -, isAdopted⟩ := List.mem_flatMap.mp inUpstream
  obtain ⟨other, reused, isPair⟩ := Option.map_eq_some_iff.mp (Option.mem_toList.mp isAdopted)
  cases isPair
  obtain ⟨upstreams, isPrevious, old, isOld, -, isServer⟩ :=
    mem_oldServers (List.mem_of_find?_eq_some reused)
  obtain ⟨context, isContext, rfl⟩ := Option.map_eq_some_iff.mp isPrevious
  exact (located entry.1 context isContext old isOld id isServer).1

/-- A rejected reload leaves everything as it is exactly when the gateways that
it built before it failed keep the weights. -/
theorem rejected_reload_unchanged_iff (changed : Bool)
    (loaded : Option (OphanConfig Addr Settings Metrics))
    (state : AppState lib Addr Settings Metrics) (located : Located state.memory state.gateways)
    (rejected : (state.reload changed loaded).1 ≠ some .swapped) :
    Unchanged state (state.reload changed loaded).2 ↔
      ∀ config ∈ state.candidate changed loaded, KeepsWeights state config := by
  rcases reload_cases changed loaded state with
    ⟨noCandidate, -, same⟩ | ⟨config, isCandidate, ⟨-, isAfter⟩ | ⟨_, -, isSwapped⟩⟩
  · rw [noCandidate, same]
    constructor
    · rintro _ _ ⟨⟩
    · intro _
      exact ⟨rfl, rfl, fun _ _ => rfl⟩
  · obtain ⟨effect, -⟩ := buildContexts_spec located
      (traced_reweighed.refl state.memory) config.gateways.entries
    rw [isCandidate, isAfter]
    constructor
    · rintro unchanged _ ⟨⟩ id weight isLast
      have allocated := allocated_of_allAdoptions located (mem_of_lastWeight isLast)
      have same := unchanged.backends id allocated
      rw [effect.cells id allocated, reweigh_eq_iff] at same
      exact same weight isLast
    · intro keeps
      refine ⟨rfl, rfl, ?_⟩
      intro id allocated
      rw [effect.cells id allocated, reweigh_eq_iff]
      exact keeps config rfl id
  · exact absurd (congrArg Prod.fst isSwapped) rejected

end Rejected

def oneServer (routes : List RoutesConfig) (weight : Nat)
    (healthCheck : Option HealthCheckConfig) : GatewayConfig Nat Unit where
  routes := routes
  upstreams := [⟨[117], [⟨7, .http1 false, weight⟩], .roundRobin, healthCheck,
    by simp [maxPointers]⟩]
  listeners := []
  distinct := List.nodup_singleton _

def twoGateways (first second : GatewayConfig Nat Unit) : OphanConfig Nat Unit Unit where
  gateways := (AList.insert [98] second ∅).insert [97] first
  listeners := []
  metrics := ()

def anyRoute (path : Bytes) : RoutesConfig :=
  ⟨path, [], Http.HttpMethodSet.new .none, none, none, none, none⟩

/-- The same path with two names for its parameter. -/
def clashingRoutes : List RoutesConfig := [anyRoute [47, 123, 97, 125], anyRoute [47, 123, 98, 125]]

theorem rejected_reload_unchanged_iff_same_weight :
    ∃ state, AppState.start .none (.new 0 (.http1 false) 0)
        (twoGateways (oneServer [] 1 none) (oneServer [] 1 none)) = .ok state ∧
      let loaded := some (twoGateways (oneServer [] 1 none) (oneServer clashingRoutes 1 none))
      (state.reload true loaded).1 ≠ some .swapped ∧
        (Unchanged state (state.reload true loaded).2 ↔
          ∀ config ∈ state.candidate true loaded, KeepsWeights state config) := by
  refine ⟨_, rfl, by decide, ?_⟩
  refine rejected_reload_unchanged_iff _ _ _ ?_ (by decide)
  exact AppState.start_located (.new 0 (.http1 false) 0)
    (twoGateways (oneServer [] 1 none) (oneServer [] 1 none)) rfl

/-- The second gateway cannot be built, but the first one has set its weight. -/
theorem failed_reload_sets_weight :
    ∃ state, AppState.start .none (.new 0 (.http1 false) 0)
        (twoGateways (oneServer [] 1 none) (oneServer [] 1 none)) = .ok state ∧
      let result := state.reload true (some (twoGateways (oneServer [] 5 none)
        (oneServer clashingRoutes 1 none)))
      result.1 = some .noChange ∧ ¬ Unchanged state result.2 := by
  refine ⟨_, rfl, by decide, ?_⟩
  intro unchanged
  have weight := congrArg Backend.weight (unchanged.backends 0 (by decide))
  revert weight
  decide

end Ophan.State
