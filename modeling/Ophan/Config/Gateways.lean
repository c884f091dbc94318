import Mathlib.Data.List.Perm.Basic
import Ophan.Lib.KeyMap
import Ophan.Lib.Str

/-!
# Compiling the gateways of a configuration

`compile` puts the gateways into a map by their names, and appends their
listeners and upstreams to two lists.  A gateway whose name comes again, in
another included file, replaces the first one in the map, while the lists keep
the parts of both.
-/

namespace Ophan.Config

open List
open Lib

structure CompileError where
  message : Str
  warning : Bool
  deriving DecidableEq, Repr

/-- The blocks of a configuration and the functions that compile them, with the
errors that they report. -/
structure Blocks where
  RawMaster : Type
  Master : Type
  RawListener : Type
  Listener : Type
  RawUpstream : Type
  Upstream : Type
  RawRoutes : Type
  Route : Type
  compileMaster : RawMaster → Master × List CompileError
  compileListener : RawListener → Option Listener × List CompileError
  compileUpstream : Nat → RawUpstream → Option Upstream × List CompileError
  /-- The policies and the routes of a gateway. -/
  compileRoutes : RawRoutes → List Upstream → List Route × List CompileError
  listenerName : Listener → Str
  /-- The `Debug` text of the address. -/
  listenerAddress : Listener → Str
  upstreamName : Upstream → Str

variable {blocks : Blocks}

structure RawGateway (blocks : Blocks) where
  name : Str
  listeners : List blocks.RawListener
  upstreams : List blocks.RawUpstream
  routes : blocks.RawRoutes

structure RawConfig (blocks : Blocks) where
  master : blocks.RawMaster
  gateways : List (Str × RawGateway blocks)

structure GatewayConfig (blocks : Blocks) where
  name : Str
  listeners : List blocks.Listener
  upstreams : List blocks.Upstream
  routes : List blocks.Route

structure OphanConfig (blocks : Blocks) where
  master : blocks.Master
  gateways : KeyMap Str (GatewayConfig blocks)
  listeners : List blocks.Listener
  upstreams : List blocks.Upstream

/-- The loops of the validation: report every item whose key was seen. -/
def validateKeys {α : Type} (key message : α → Str) : List Str → List α →
    List CompileError
  | _, [] => []
  | seen, item :: items =>
    (if key item ∈ seen then [⟨message item, false⟩] else []) ++
      validateKeys key message (key item :: seen) items

def validateListeners (listeners : List blocks.Listener) : List CompileError :=
  validateKeys blocks.listenerAddress
    (fun listener => "listener '".toList ++ blocks.listenerName listener ++
      "': ".toList ++ blocks.listenerAddress listener ++ " already bound".toList)
    [] listeners

def validateUpstreamNames (upstreams : List blocks.Upstream) : List CompileError :=
  validateKeys blocks.upstreamName
    (fun upstream => "upstream '".toList ++ blocks.upstreamName upstream ++
      "' defined multiple times".toList)
    [] upstreams

def compileGateway (raw : RawGateway blocks) : Option (GatewayConfig blocks) × List CompileError :=
  let compiledUpstreams :=
    raw.upstreams.zipIdx.map fun (upstream, index) => blocks.compileUpstream index upstream
  let compiledListeners := raw.listeners.map blocks.compileListener
  let upstreams := compiledUpstreams.filterMap (·.1)
  let listeners := compiledListeners.filterMap (·.1)
  let routes := blocks.compileRoutes raw.routes upstreams
  (some ⟨raw.name, listeners, upstreams, routes.1⟩,
    compiledUpstreams.flatMap (·.2) ++ validateUpstreamNames upstreams ++
      compiledListeners.flatMap (·.2) ++ validateListeners listeners ++ routes.2)

structure Collected (blocks : Blocks) where
  gateways : KeyMap Str (GatewayConfig blocks)
  listeners : List blocks.Listener
  upstreams : List blocks.Upstream
  errors : List CompileError

def Collected.add (collected : Collected blocks) (entry : Str × RawGateway blocks) :
    Collected blocks :=
  match compileGateway entry.2 with
  | (some gateway, errors) =>
    { gateways := collected.gateways.insert entry.1 gateway
      listeners := collected.listeners ++ gateway.listeners
      upstreams := collected.upstreams ++ gateway.upstreams
      errors := collected.errors ++ errors }
  | (none, errors) => { collected with errors := collected.errors ++ errors }

def compile (raw : RawConfig blocks) : Except (List CompileError) (OphanConfig blocks) :=
  let master := blocks.compileMaster raw.master
  let collected := raw.gateways.foldl Collected.add ⟨∅, [], [], master.2⟩
  let errors := collected.errors.filter fun error => !error.warning
  if errors = [] then
    .ok ⟨master.1, collected.gateways, collected.listeners, collected.upstreams⟩
  else .error errors

/-! ## What is accepted -/

/-- The gateways of a configuration are those of its blocks, one for each, and
they have the listeners and upstreams of the lists. -/
structure Lossless (raw : RawConfig blocks) (config : OphanConfig blocks) : Prop where
  gateways : (config.gateways.entries.map some).Perm
    (raw.gateways.map fun entry => (compileGateway entry.2).1.map (⟨entry.1, ·⟩))
  listeners : config.listeners.Perm (config.gateways.entries.flatMap (·.2.listeners))
  upstreams : config.upstreams.Perm (config.gateways.entries.flatMap (·.2.upstreams))

def compiled (raw : RawGateway blocks) : GatewayConfig blocks := ((compileGateway raw).1.get rfl)

def compiledEntry (entry : Str × RawGateway blocks) : Σ _ : Str, GatewayConfig blocks :=
  ⟨entry.1, compiled entry.2⟩

theorem Collected.add_eq (collected : Collected blocks) (entry : Str × RawGateway blocks) :
    collected.add entry =
      { gateways := collected.gateways.insert entry.1 (compiled entry.2)
        listeners := collected.listeners ++ (compiled entry.2).listeners
        upstreams := collected.upstreams ++ (compiled entry.2).upstreams
        errors := collected.errors ++ (compileGateway entry.2).2 } :=
  rfl

theorem foldl_add (entries : List (Str × RawGateway blocks)) (collected : Collected blocks) :
    (entries.foldl Collected.add collected).listeners = collected.listeners ++
        entries.flatMap (fun entry => (compiled entry.2).listeners) ∧
      (entries.foldl Collected.add collected).upstreams = collected.upstreams ++
        entries.flatMap (fun entry => (compiled entry.2).upstreams) ∧
      (entries.foldl Collected.add collected).errors = collected.errors ++
        entries.flatMap fun entry => (compileGateway entry.2).2 := by
  induction entries generalizing collected with
  | nil => simp
  | cons entry entries ih =>
    obtain ⟨listeners, upstreams, errors⟩ := ih (collected.add entry)
    rw [foldl_cons, listeners, upstreams, errors, Collected.add_eq]
    simp only [flatMap_cons, append_assoc, and_self]

theorem foldl_add_entries {entries : List (Str × RawGateway blocks)}
    (distinct : (entries.map (·.1)).Nodup) (collected : Collected blocks)
    (fresh : ∀ entry ∈ entries, entry.1 ∉ collected.gateways) :
    (entries.foldl Collected.add collected).gateways.entries.Perm
      (collected.gateways.entries ++ entries.map compiledEntry) := by
  induction entries generalizing collected with
  | nil => simp
  | cons entry entries ih =>
    rw [map_cons, nodup_cons] at distinct
    have isNew := fresh entry (mem_cons_self ..)
    have stillFresh : ∀ other ∈ entries, other.1 ∉ (collected.add entry).gateways := by
      intro other member present
      rw [Collected.add_eq] at present
      rcases (AList.mem_insert _).mp present with same | isOld
      · exact distinct.1 (same ▸ mem_map_of_mem member)
      · exact fresh other (mem_cons_of_mem _ member) isOld
    rw [foldl_cons]
    refine (ih distinct.2 _ stillFresh).trans ?_
    rw [Collected.add_eq, AList.entries_insert_of_notMem isNew, map_cons]
    exact perm_middle.symm

theorem lossless_gateways_iff (raw : RawConfig blocks) (config : OphanConfig blocks) :
    ((config.gateways.entries.map some).Perm
        (raw.gateways.map fun entry => (compileGateway entry.2).1.map (⟨entry.1, ·⟩))) ↔
      config.gateways.entries.Perm (raw.gateways.map compiledEntry) := by
  change (List.map some _).Perm (raw.gateways.map (some ∘ compiledEntry)) ↔ _
  rw [← map_map]
  exact map_perm_map_iff fun _ _ => Option.some.inj

/-- An accepted configuration lost nothing exactly when the names of its gateways
are different. -/
theorem compile_lossless_iff (raw : RawConfig blocks) (config : OphanConfig blocks)
    (accepted : compile raw = .ok config) :
    Lossless raw config ↔ (raw.gateways.map (·.1)).Nodup := by
  constructor
  · intro lossless
    have keys := ((lossless_gateways_iff raw config).mp lossless.gateways).map Sigma.fst
    rw [map_map] at keys
    exact keys.nodup_iff.mp config.gateways.nodupKeys
  · intro distinct
    rw [compile] at accepted
    split at accepted
    · obtain rfl := Except.ok.inj accepted
      have entries := foldl_add_entries distinct ⟨∅, [], [], (blocks.compileMaster raw.master).2⟩
        (fun _ _ => AList.notMem_empty _)
      have lists := foldl_add raw.gateways ⟨∅, [], [], (blocks.compileMaster raw.master).2⟩
      refine ⟨(lossless_gateways_iff raw _).mpr entries, ?_, ?_⟩
      · rw [lists.1]
        refine List.Perm.trans ?_ (entries.flatMap_right _).symm
        rw [flatMap_append, flatMap_map]
        rfl
      · rw [lists.2.1]
        refine List.Perm.trans ?_ (entries.flatMap_right _).symm
        rw [flatMap_append, flatMap_map]
        rfl
    · cases accepted

def textBlocks : Blocks where
  RawMaster := Unit
  Master := Unit
  RawListener := Str
  Listener := Str
  RawUpstream := Str
  Upstream := Str
  RawRoutes := Unit
  Route := Unit
  compileMaster _ := ((), [])
  compileListener address := (some address, [])
  compileUpstream _ name := (some name, [])
  compileRoutes _ _ := ([], [])
  listenerName address := address
  listenerAddress address := address
  upstreamName name := name

def textGateway (name address : Str) : Str × RawGateway textBlocks :=
  (name, ⟨name, [address], ["app".toList], ()⟩)

theorem compile_lossless_iff_two :
    let raw : RawConfig textBlocks := ⟨(), [textGateway ['a'] ['1'], textGateway ['b'] ['2']]⟩
    ∃ config, compile raw = .ok config ∧ (Lossless raw config ↔ (raw.gateways.map (·.1)).Nodup) :=
  ⟨_, rfl, compile_lossless_iff _ _ rfl⟩

/-- The gateway of the first file is lost, its listener is still listed. -/
theorem same_name_loses_gateway :
    let raw : RawConfig textBlocks := ⟨(), [textGateway ['a'] ['1'], textGateway ['a'] ['2']]⟩
    ∃ config, compile raw = .ok config ∧
      config.gateways.entries.map (·.2.listeners) = [[['2']]] ∧
      config.listeners = [['1'], ['2']] ∧ ¬ Lossless raw config := by
  refine ⟨_, rfl, rfl, rfl, ?_⟩
  intro lossless
  have lengths := lossless.listeners.length_eq
  revert lengths
  decide

/-! ## The validations -/

theorem nodup_of_validateKeys {α : Type} {key message : α → Str} {seen : List Str} {items : List α}
    (noError : ∀ error ∈ validateKeys key message seen items, error.warning = true) :
    (items.map key).Nodup ∧ ∀ item ∈ items, key item ∉ seen := by
  induction items generalizing seen with
  | nil => simp
  | cons item items ih =>
    rw [validateKeys, forall_mem_append] at noError
    have notSeen : key item ∉ seen := by
      intro isSeen
      simp [isSeen] at noError
    obtain ⟨distinct, fresh⟩ := ih noError.2
    refine ⟨nodup_cons.mpr ⟨?_, distinct⟩, ?_⟩
    · grind
    · exact forall_mem_cons.mpr ⟨notSeen, fun other inItems isSeen =>
        fresh other inItems (mem_cons_of_mem _ isSeen)⟩

/-- In an accepted configuration, the upstreams of a gateway have different names,
and its listeners different addresses. -/
theorem distinct_of_compile {raw : RawConfig blocks} {config : OphanConfig blocks}
    (accepted : compile raw = .ok config) {entry : Str × RawGateway blocks}
    (member : entry ∈ raw.gateways) :
    ((compiled entry.2).upstreams.map blocks.upstreamName).Nodup ∧
      ((compiled entry.2).listeners.map blocks.listenerAddress).Nodup := by
  rw [compile] at accepted
  split at accepted
  · next noErrors =>
      have noError : ∀ error ∈ (compileGateway entry.2).2, error.warning = true := by
        intro error isError
        rw [(foldl_add ..).2.2, filter_eq_nil_iff] at noErrors
        simpa using noErrors error (mem_append_right _ (mem_flatMap.mpr ⟨entry, member, isError⟩))
      have keysDistinct {α : Type} {key message : α → Str} {items : List α}
          (reported : ∀ error ∈ validateKeys key message [] items,
            error ∈ (compileGateway entry.2).2) : (items.map key).Nodup :=
        (nodup_of_validateKeys fun error isError => noError error (reported error isError)).1
      refine ⟨keysDistinct fun error (isError : error ∈ validateUpstreamNames _) => ?_,
        keysDistinct fun error (isError : error ∈ validateListeners _) => ?_⟩
      · simp only [compileGateway, mem_append]
        exact Or.inl (Or.inl (Or.inl (Or.inr isError)))
      · simp only [compileGateway, mem_append]
        exact Or.inl (Or.inr isError)
  · cases accepted

/-- Two listeners and two upstreams. -/
def pairGateway : RawGateway textBlocks := ⟨['a'], [['1'], ['2']], [['p'], ['q']], ()⟩

theorem distinct_of_compile_pairs :
    (compiled pairGateway).listeners = [['1'], ['2']] ∧
      (compiled pairGateway).upstreams = [['p'], ['q']] ∧
      ((compiled pairGateway).upstreams.map textBlocks.upstreamName).Nodup ∧
      ((compiled pairGateway).listeners.map textBlocks.listenerAddress).Nodup :=
  ⟨rfl, rfl,
    @distinct_of_compile textBlocks ⟨(), [(['a'], pairGateway)]⟩ _ rfl (['a'], pairGateway)
      mem_cons_self⟩

end Ophan.Config
