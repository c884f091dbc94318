import Mathlib.Data.List.DropRight
import Ophan.Waf.Rules

/-!
# The streaming body matcher

A body comes in chunks.  Each chunk is searched for literals together with the
last bytes before it, as many as a literal could need, and is run through the
DFA of the regexes, whose state is carried from chunk to chunk.
-/

namespace Ophan.Waf

inductive BodyAction where
  | proceed
  | block
  | allow
  deriving DecidableEq, Repr

structure ChunkReader where
  overlap : Bytes
  chunk : Bytes
  pos : Nat
  deriving DecidableEq, Repr

namespace ChunkReader

/-- Read into a buffer of `size` bytes: what was written, and the reader
behind it. -/
def read (reader : ChunkReader) (size : Nat) : Bytes × ChunkReader :=
  if reader.pos ≥ reader.overlap.length + reader.chunk.length then ([], reader)
  else
    let first :=
      if reader.pos < reader.overlap.length then
        (reader.overlap.drop reader.pos).take size
      else []
    let pos := reader.pos + first.length
    if reader.pos < reader.overlap.length ∧ first.length ≥ size then
      (first, { reader with pos := pos })
    else
      let second :=
        if pos ≥ reader.overlap.length then
          (reader.chunk.drop (pos - reader.overlap.length)).take (size - first.length)
        else []
      (first ++ second, { reader with pos := pos + second.length })

def drain (size : Nat) : Nat → ChunkReader → Bytes
  | 0, _ => []
  | fuel + 1, reader =>
    match reader.read size with
    | ([], _) => []
    | (text, next) => text ++ drain size fuel next

end ChunkReader

structure BodyMatchInfo where
  patternIndex : Nat
  fromDfa : Bool
  deriving DecidableEq, Repr

/-- The automata of a body phase, with the meta of each pattern. -/
structure CompiledBodyPhase where
  ac : Option AhoCorasick
  acMeta : List (Option RuleMeta)
  overlapLen : Nat
  dfa : Option HybridDfa
  dfaMeta : List (Option RuleMeta)

namespace CompiledBodyPhase

/-- The rules that are searched for: a negated rule is skipped. -/
def searched (rules : List CompiledBodyRule) : List CompiledBodyRule :=
  rules.filter fun rule => !rule.negated

def literals (rules : List CompiledBodyRule) : List Bytes :=
  (searched rules).flatMap (·.literals)

def regexes (rules : List CompiledBodyRule) : List Bytes :=
  (searched rules).flatMap (·.regexes)

def compile (libs : Libraries) (rules : List CompiledBodyRule) : CompiledBodyPhase :=
  let ac :=
    if (literals rules).isEmpty then none
    else libs.ahoCorasick .standard (literals rules)
  { ac := ac
    acMeta := (searched rules).flatMap fun rule => rule.literals.map fun _ => rule.ruleMeta
    overlapLen := ac.elim 0 fun automaton => automaton.maxPatternLen - 1
    dfa :=
      if (regexes rules).isEmpty then none
      else libs.hybridDfa (regexes rules)
    dfaMeta := (searched rules).flatMap fun rule => rule.regexes.map fun _ => rule.ruleMeta }

def metaOf (phase : CompiledBodyPhase) (hit : Option BodyMatchInfo) : Option RuleMeta :=
  hit.bind fun info =>
    ((if info.fromDfa then phase.dfaMeta else phase.acMeta)[info.patternIndex]?).join

end CompiledBodyPhase

inductive BodyPhaseState where
  | empty
  | scanning
  | matched
  | clean
  deriving DecidableEq, Repr

structure BodySession where
  overlap : Bytes
  dfaState : Option Nat
  rewindable : Bool
  regexGaveUp : Bool
  phaseState : BodyPhaseState
  lastHit : Option BodyMatchInfo
  deriving DecidableEq, Repr

/-- `CompiledBodyPhase::session` -/
def BodySession.new : BodySession where
  overlap := []
  dfaState := none
  rewindable := true
  regexGaveUp := false
  phaseState := .empty
  lastHit := none

/-- `Vec::resize` with zeros. -/
def resize (buffer : Bytes) (len : Nat) : Bytes :=
  buffer.take len ++ List.replicate (len - buffer.length) 0

/-- `copy_within(start..len, 0)` -/
def copyToFront (buffer : Bytes) (start : Nat) : Bytes :=
  buffer.drop start ++ buffer.drop (buffer.length - start)

def updateOverlap (overlapLen : Nat) (overlap chunk : Bytes) : Bytes :=
  if overlapLen > 0 then
    let keep := min (overlap.length + chunk.length) overlapLen
    if keep = 0 then []
    else if keep ≤ chunk.length then chunk.drop (chunk.length - keep)
    else
      let oldKeep := keep - chunk.length
      let moved := copyToFront overlap (overlap.length - oldKeep)
      let padded := if moved.length < keep then resize moved keep else moved
      (padded.take oldKeep ++ chunk ++ padded.drop keep).take keep
  else overlap

/-- How a run of the DFA over a chunk ends. -/
inductive DfaScan where
  | matched (pattern : Nat)
  | gaveUp
  | reached (state : Nat)
  deriving DecidableEq, Repr

def HybridDfa.scan (dfa : HybridDfa) : Nat → Bytes → DfaScan
  | sid, [] => .reached sid
  | sid, b :: rest =>
    match dfa.nextState sid b with
    | none => .gaveUp
    | some next =>
      if dfa.isMatch next then .matched (dfa.matchPattern next)
      else if dfa.isQuit next then .gaveUp
      else dfa.scan next rest

namespace BodySession

def regexActive (session : BodySession) (phase : CompiledBodyPhase) : Bool :=
  session.rewindable && !session.regexGaveUp && phase.dfa.isSome

def hit (session : BodySession) (pattern : Nat) (fromDfa : Bool) : BodySession :=
  { session with lastHit := some ⟨pattern, fromDfa⟩, phaseState := .matched }

def eoiMatch (session : BodySession) (phase : CompiledBodyPhase) : Option Nat :=
  if session.regexActive phase then
    phase.dfa.bind fun dfa =>
      session.dfaState.bind fun sid =>
        (dfa.nextEoiState sid).bind fun last =>
          if dfa.isMatch last then some (dfa.matchPattern last) else none
  else none

def finish (session : BodySession) (phase : CompiledBodyPhase) (endBody : Bool) :
    BodyAction × BodySession :=
  if !endBody then (.proceed, { session with phaseState := .scanning })
  else
    match session.eoiMatch phase with
    | some pattern => (.block, session.hit pattern true)
    | none => (.allow, { session with phaseState := .clean })

def feedRegexes (session : BodySession) (phase : CompiledBodyPhase)
    (chunk : Bytes) (endBody : Bool) : BodyAction × BodySession :=
  if session.regexActive phase then
    match phase.dfa with
    | some dfa =>
      match session.dfaState.or dfa.start with
      | none => finish { session with regexGaveUp := true } phase endBody
      | some sid =>
        match dfa.scan sid chunk with
        | .matched pattern => (.block, session.hit pattern true)
        | .gaveUp => finish { session with regexGaveUp := true } phase endBody
        | .reached next => finish { session with dfaState := some next } phase endBody
    | none => finish { session with regexGaveUp := true } phase endBody
  else finish session phase endBody

/-- What the literals find in the overlap and the chunk. -/
def literalHit (libs : Libraries) (session : BodySession)
    (phase : CompiledBodyPhase) (chunk : Bytes) : Option Nat :=
  phase.ac.bind fun ac =>
    ac.streamFind
      (ChunkReader.drain libs.readSize
        (session.overlap.length + chunk.length + 1) ⟨session.overlap, chunk, 0⟩)

/-- Feed one chunk; `endBody` is set on the last one. -/
def feed (libs : Libraries) (session : BodySession) (phase : CompiledBodyPhase)
    (chunk : Bytes) (endBody : Bool) : BodyAction × BodySession :=
  match session.phaseState with
  | .matched => (.block, session)
  | .clean => (.allow, session)
  | .empty | .scanning =>
    match session.literalHit libs phase chunk with
    | some pattern => (.block, session.hit pattern false)
    | none =>
      feedRegexes
        { session with
          overlap := updateOverlap phase.overlapLen session.overlap chunk }
        phase chunk endBody

end BodySession

end Ophan.Waf
