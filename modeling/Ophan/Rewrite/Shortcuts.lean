import Mathlib.Data.List.InsertIdx
import Ophan.Rewrite.Engine

/-!
# The shortcuts of the rewrite engine

`apply` returns at priority 0 and skips a part that holds nothing better than what
it has found.  Neither changes the answer: a part never answers with a lower
priority than the lowest one that it was given.
-/

namespace Ophan.Rewrite

open List Lib

def AtLeast (minPrio : Option Nat) (prio : Nat) : Prop := ∃ least ∈ minPrio, least ≤ prio

/-- The children of a node are nodes, and its rule is not below the least one. -/
def CompactNode.Fits (node : CompactNode) (amount : Nat) (minPrio : Option Nat) : Prop :=
  (∀ child ∈ node.children, child.2 < amount) ∧ ∀ rule ∈ node.rule, AtLeast minPrio rule.1

def Fit (nodes : List CompactNode) (minPrio : Option Nat) : Prop :=
  ∀ node ∈ nodes, node.Fits nodes.length minPrio

structure FlatTrie.Sound (trie : FlatTrie) : Prop where
  rooted : 0 < trie.nodes.length
  fit : Fit trie.nodes trie.minPrio

section Tries

variable {nodes after : List CompactNode} {minPrio : Option Nat} {node : CompactNode}
  {current last : Nat} {trie : FlatTrie}

theorem Fit.grow (fit : Fit nodes minPrio) (isNode : nodes[current]? = some node) (b : UInt8) :
    Fit (FlatTrie.grow nodes current node b) minPrio := by
  intro other member
  have old := fit node (mem_of_getElem? isNode)
  rw [show (FlatTrie.grow nodes current node b).length = nodes.length + 1 by simp [FlatTrie.grow]]
  rcases mem_or_eq_of_mem_set member with kept | rfl
  · grind [Fit, CompactNode.Fits, CompactNode.default]
  · refine ⟨fun child isChild => ?_, old.2⟩
    rcases eq_or_mem_of_mem_insertIdx isChild with rfl | kept
    · exact Nat.lt_succ_self _
    · exact Nat.lt_succ_of_lt (old.1 child kept)

theorem Fit.descend (fit : Fit nodes minPrio) {key : Bytes}
    (isAfter : FlatTrie.descend nodes current key = some (after, last)) :
    Fit after minPrio ∧ nodes.length ≤ after.length := by
  fun_induction FlatTrie.descend nodes current key with
  | case1 =>
    cases isAfter
    exact ⟨fit, le_rfl⟩
  | case2 => cases isAfter
  | case3 nodes current b rest node isNode next isNext ih => exact ih fit isAfter
  | case4 nodes current b rest node isNode isNext ih =>
    obtain ⟨kept, longer⟩ := ih (fit.grow isNode b) isAfter
    exact ⟨kept, le_trans (by simp [FlatTrie.grow]) longer⟩

theorem atLeast_lower {priority prio : Nat} (isPrio : prio = priority ∨ AtLeast minPrio prio) :
    AtLeast (if isBelow priority minPrio then some priority else minPrio) prio := by
  cases minPrio with
  | none => simp_all [AtLeast, isBelow]
  | some least =>
    simp only [AtLeast, isBelow, Option.mem_some_iff, exists_eq_left', decide_eq_true_eq] at *
    split <;> simp <;> omega

theorem FlatTrie.Sound.insert (sound : trie.Sound) {key : Bytes} {replacement : Str}
    {priority : Nat} {next : FlatTrie}
    (isNext : trie.insert key replacement priority = some next) : next.Sound := by
  obtain ⟨⟨nodes, last⟩, isNodes, isNext⟩ := Option.bind_eq_some_iff.mp isNext
  obtain ⟨node, isNode, rfl⟩ := Option.map_eq_some_iff.mp isNext
  obtain ⟨fit, longer⟩ := sound.fit.descend isNodes
  have rooted := sound.rooted
  have kept : Fit nodes (if isBelow priority trie.minPrio then some priority else trie.minPrio) :=
    fun other old => ⟨(fit other old).1, fun rule isRule =>
      atLeast_lower (Or.inr ((fit other old).2 rule isRule))⟩
  constructor
  · grind
  · split
    · intro other member
      rcases mem_or_eq_of_mem_set member with old | rfl
      · simpa using kept other old
      · refine ⟨by simpa using (kept node (mem_of_getElem? isNode)).1, fun rule isRule => ?_⟩
        cases isRule
        exact atLeast_lower (Or.inl rfl)
    · exact kept

theorem CompactNode.Fits.better {amount : Nat} (fits : node.Fits amount minPrio) (consumed : Nat)
    {best : Option Found} (isBest : ∀ found ∈ best, AtLeast minPrio found.prio) :
    ∀ found ∈ FlatTrie.better best node consumed, AtLeast minPrio found.prio := by
  have above := fits.2
  unfold FlatTrie.better
  split
  · exact isBest
  · split <;> simp_all

theorem Fit.findLoop (fit : Fit nodes minPrio) {text : Bytes}
    (inside : current < nodes.length) (consumed : Nat) {best : Option Found}
    (isBest : ∀ found ∈ best, AtLeast minPrio found.prio) :
    ∃ found, FlatTrie.findLoop nodes current consumed best text = some found ∧
      ∀ better ∈ found, AtLeast minPrio better.prio := by
  have child (node : CompactNode) (isNode : node ∈ nodes) (b : UInt8) (next : Nat)
      (isNext : node.child b = some next) : next < nodes.length := by
    obtain ⟨pair, found, rfl⟩ := Option.map_eq_some_iff.mp isNext
    exact (fit node isNode).1 pair (mem_of_getElem? (Option.filter_eq_some_iff.mp found).1)
  fun_induction FlatTrie.findLoop nodes current consumed best text with
  | case1 | case3 => exact ⟨_, rfl, isBest⟩
  | case2 current consumed best b rest outside => simp [inside] at outside
  | case4 current consumed best b rest node isNode next isNext outside =>
    simp [child node (mem_of_getElem? isNode) b next isNext] at outside
  | case5 current consumed best b rest node isNode next isNext other isOther ih =>
    refine ih (child node (mem_of_getElem? isNode) b next isNext) ?_
    exact (fit other (mem_of_getElem? isOther)).better _ isBest

theorem FlatTrie.Sound.findBest (sound : trie.Sound) (text : Bytes) :
    ∃ found, trie.findBest text = some found ∧ ∀ best ∈ found, AtLeast trie.minPrio best.prio := by
  rw [FlatTrie.findBest, getElem?_eq_getElem sound.rooted]
  exact sound.fit.findLoop sound.rooted 0 ((sound.fit _ (getElem_mem _)).better _ nofun)

end Tries

variable {lib : Regexes} {builder next : Builder lib} {text replacement : Str}

theorem orPanic_eq_ok {ε α : Type} {found : Option α} {value : α} :
    (orPanic found : Outcome ε α) = .ok value ↔ found = some value := by
  cases found <;> simp [orPanic]

/-- The regular expressions are those of their patterns, in the order of their
priorities. -/
structure Builder.Sound (builder : Builder lib) : Prop where
  begins : builder.prefixTrie.Sound
  ends : builder.suffixTrie.Sound
  compiled : builder.regexPatterns.mapM lib.new = .ok (builder.regexes.map (·.2.1))
  below : ∀ regex ∈ builder.regexes, regex.1 < builder.priority
  ordered : builder.regexes.Pairwise fun first second => first.1 ≤ second.1

namespace Builder.Sound

theorem new : (Builder.new lib).Sound := by
  have empty : FlatTrie.new.Sound :=
    ⟨Nat.zero_lt_one, by simp [Fit, CompactNode.Fits, FlatTrie.new, CompactNode.default]⟩
  exact ⟨empty, empty, rfl, nofun, Pairwise.nil⟩

theorem below_succ (sound : builder.Sound) :
    ∀ regex ∈ builder.regexes, regex.1 < builder.priority + 1 :=
  fun regex member => Nat.lt_succ_of_lt (sound.below regex member)

theorem addBegins (sound : builder.Sound)
    (isNext : builder.addBegins text replacement = .ok next) : next.Sound := by
  obtain ⟨trie, isTrie, rfl⟩ := Outcome.map_eq_ok_iff.mp isNext
  have begins := sound.begins.insert (orPanic_eq_ok.mp isTrie)
  exact { sound with begins := begins, below := sound.below_succ }

theorem addEnds (sound : builder.Sound)
    (isNext : builder.addEnds text replacement = .ok next) : next.Sound := by
  obtain ⟨trie, isTrie, rfl⟩ := Outcome.map_eq_ok_iff.mp isNext
  have ends := sound.ends.insert (orPanic_eq_ok.mp isTrie)
  exact { sound with ends := ends, below := sound.below_succ }

theorem addRule (sound : builder.Sound) {rule : Str × Str}
    (isNext : builder.addRule rule = .ok next) : next.Sound := by
  unfold Builder.addRule at isNext
  split at isNext
  · exact sound.addBegins isNext
  · exact sound.addEnds isNext
  · cases isNext
    exact { sound with below := sound.below_succ }
  · split at isNext
    · cases isNext
    · rename_i text _ regex isRegex
      cases isNext
      refine { sound with compiled := ?_, below := ?_, ordered := ?_ }
      · simp only [mapM_append, sound.compiled, mapM_cons, isRegex, mapM_nil, map_append]
        rfl
      · have below := sound.below_succ
        grind
      · have below := sound.below
        grind [sound.ordered]

theorem addRules (sound : builder.Sound) {rules : List (Str × Str)}
    (isNext : builder.addRules rules = .ok next) : next.Sound := by
  induction rules generalizing builder with
  | nil =>
    cases isNext
    exact sound
  | cons rule rules ih =>
    obtain ⟨first, isFirst, isNext⟩ := Outcome.bind_eq_ok_iff.mp isNext
    exact ih (sound.addRule isFirst) isNext

end Builder.Sound

namespace RewriteEngine

variable {engine : RewriteEngine lib} {trailingSlash : TrailingSlashAction}

/-- A part that is skipped would not have changed the answer. -/
theorem consult_full {minPrio : Option Nat} {found best : Option Best}
    (above : ∀ candidate ∈ found, AtLeast minPrio candidate.prio) :
    consult false minPrio (some found) best = consult true minPrio (some found) best := by
  cases found with
  | none => simp [consult, challenge]
  | some candidate =>
    obtain ⟨least, rfl, isLe⟩ := above candidate rfl
    cases best with
    | none => simp [consult, asks, settled, isBelow]
    | some best =>
      simp [consult, asks, settled, isBelow, challenge]
      grind

theorem finish_spec (isEngine : builder.finish trailingSlash = .ok engine) :
    engine.prefixTrie = builder.prefixTrie ∧ engine.suffixTrie = builder.suffixTrie ∧
      engine.regexes = builder.regexes ∧
      ∀ set ∈ engine.regexSet, lib.newSet builder.regexPatterns = .ok set := by
  unfold Builder.finish at isEngine
  grind

theorem askRegex_spec (sound : builder.Sound)
    (isEngine : builder.finish trailingSlash = .ok engine) (path : Str) :
    ∃ found, engine.askRegex path = some found ∧
      ∀ best ∈ found, ∃ regex ∈ engine.regexes, regex.1 = best.prio := by
  obtain ⟨-, -, sameRegexes, isSet⟩ := finish_spec isEngine
  rw [askRegex, matchRegex]
  cases isOther : engine.regexSet with
  | none => exact ⟨none, rfl, nofun⟩
  | some set =>
    have listed := lib.matchedBy_eq _ _ set sound.compiled (isSet set isOther) path
    cases isFirst : (lib.matchedBy set path).head? with
    | none => exact ⟨none, by simp [isFirst], nofun⟩
    | some i =>
      have inside := mem_of_mem_head? isFirst
      rw [listed, mem_filter, mem_range, length_map, ← sameRegexes] at inside
      refine ⟨_, by simp [isFirst, getElem?_eq_getElem inside.1]; rfl, fun best isBest => ?_⟩
      cases isBest
      exact ⟨_, getElem_mem inside.1, rfl⟩

theorem bestMatch_full (sound : builder.Sound)
    (isEngine : builder.finish trailingSlash = .ok engine) (path : Str) :
    engine.bestMatch path false = engine.bestMatch path true := by
  obtain ⟨sameBegins, sameEnds, sameRegexes, -⟩ := finish_spec isEngine
  obtain ⟨begins, isBegins, beginsAbove⟩ := sound.begins.findBest (Str.utf8 path)
  obtain ⟨ends, isEnds, endsAbove⟩ := sound.ends.findBest (Str.utf8 path).reverse
  obtain ⟨regex, isRegex, regexAbove⟩ := askRegex_spec sound isEngine path
  have ordered := sound.ordered
  rw [← sameRegexes] at ordered
  simp only [bestMatch, askPrefix, askSuffix, sameBegins, sameEnds, isBegins, isEnds, isRegex,
    Option.map_some]
  rw [consult_full (by simpa using beginsAbove)]
  congr 1
  funext best
  rw [consult_full (by simpa using endsAbove)]
  congr 1
  funext best
  split
  · rfl
  · rename_i first _ _ rest isRegexes
    refine consult_full fun best isBest => ⟨first, rfl, ?_⟩
    obtain ⟨regex, member, isPrio⟩ := regexAbove best isBest
    rw [isRegexes, pairwise_cons] at ordered
    rw [isRegexes, mem_cons] at member
    rcases member with rfl | later
    · exact Nat.le_of_eq isPrio
    · exact isPrio ▸ ordered.1 regex later

/-- The shortcuts of `apply` never change what it answers. -/
theorem apply_eq_applyHold {rawRules : List (Str × Str)} {stripPrefix stripSuffix : Option Str}
    (isNew : new lib rawRules stripPrefix stripSuffix trailingSlash = .ok engine) (path : Str) :
    engine.apply path = engine.applyHold path := by
  obtain ⟨first, isFirst, isNew⟩ := Outcome.bind_eq_ok_iff.mp isNew
  obtain ⟨second, isSecond, isNew⟩ := Outcome.bind_eq_ok_iff.mp isNew
  obtain ⟨builder, isBuilder, isEngine⟩ := Outcome.bind_eq_ok_iff.mp isNew
  have firstSound : first.Sound := by
    unfold Builder.addStripPrefix at isFirst
    split at isFirst
    · exact Builder.Sound.new.addBegins isFirst
    · cases isFirst
      exact .new
  have secondSound : second.Sound := by
    unfold Builder.addStripSuffix at isSecond
    split at isSecond
    · exact firstSound.addEnds isSecond
    · cases isSecond
      exact firstSound
  have same := bestMatch_full (secondSound.addRules isBuilder) isEngine path
  rw [apply, applyHold, applyWith, applyWith, bestCandidate, bestCandidate, same]

/-- Rules of three kinds that all match `/ab`. -/
def threeParts : List (Str × Str) :=
  [(['*', 'b'], []), (['/', 'a', '*'], ['/']), (['/', 'a', 'b'], ['/'])]

theorem apply_eq_applyHold_ends :
    ∃ engine : RewriteEngine .none, new .none threeParts none none .never = .ok engine ∧
      engine.apply ['/', 'a', 'b'] = some ['/', 'a'] ∧
        engine.apply ['/', 'a', 'b'] = engine.applyHold ['/', 'a', 'b'] := by
  refine ⟨_, by rfl, by decide +kernel, ?_⟩
  exact @apply_eq_applyHold .none _ .never threeParts none none rfl _

end RewriteEngine

end Ophan.Rewrite
