import Ophan.Lib.KeyMap
import Ophan.Lib.Outcome
import Ophan.Rewrite.Trie

/-!
# The rewrite engine

The rules of an engine are spread over a map of exact paths, a trie of
beginnings, a trie of ends (written backwards) and a list of regular
expressions; the priority of a rule is its position in the list.  `apply` stops
early at priority 0 and asks a part only if it could hold something better,
`apply_hold` asks all four.

The set of regular expressions is a library's: it yields the positions of the
expressions that match, in ascending order.
-/

namespace Ophan.Rewrite

open Lib

inductive TrailingSlashAction where
  | ignore
  | always
  | never
  deriving DecidableEq, Repr

/-- The regular expressions of the library: compiling one or several of them,
asking for a match, and replacing the first match. -/
structure Regexes where
  Regex : Type
  RegexSet : Type
  Error : Type
  new : Str → Except Error Regex
  newSet : List Str → Except Error RegexSet
  isMatch : Regex → Str → Bool
  matchedBy : RegexSet → Str → List Nat
  replace : Regex → Str → Str → Str
  matchedBy_eq : ∀ (patterns : List Str) (regexes : List Regex)
    (set : RegexSet), patterns.mapM new = .ok regexes →
    newSet patterns = .ok set → ∀ path, matchedBy set path =
      (List.range regexes.length).filter fun i => regexes[i]?.any (isMatch · path)

def Regexes.none : Regexes where
  Regex := Empty
  RegexSet := Empty
  Error := Unit
  new _ := .error ()
  newSet _ := .error ()
  isMatch expression _ := nomatch expression
  matchedBy set _ := nomatch set
  replace expression _ _ := nomatch expression
  matchedBy_eq := by
    intro _ _ set
    cases set

inductive Pattern where
  | exact (text : Str)
  | begins (text : Str)
  | ends (text : Str)
  | regex (text : Str)
  deriving DecidableEq, Repr

def isPlainPath (path : Str) : Bool :=
  !path.any (['^', '$', '[', ']', '(', ')', '+', '?', '|', '\\', '*', '\x7b', '\x7d'].contains ·)

/-- The cases of a rule: `foo*`, `*bar`, a plain path, or a regular
expression. -/
def Pattern.ofStr (source : Str) : Pattern :=
  let text := Str.trim source
  if text.getLast? = some '*' then
    .begins text.dropLast
  else if text.head? = some '*' then
    .ends text.tail
  else if isPlainPath text then
    .exact text
  else
    .regex text

structure Builder (lib : Regexes) where
  exact : KeyMap Str (Nat × Str)
  prefixTrie : FlatTrie
  suffixTrie : FlatTrie
  regexes : List (Nat × lib.Regex × Str)
  regexPatterns : List Str
  priority : Nat

structure RewriteEngine (lib : Regexes) where
  exact : KeyMap Str (Nat × Str)
  prefixTrie : FlatTrie
  suffixTrie : FlatTrie
  regexSet : Option lib.RegexSet
  regexes : List (Nat × lib.Regex × Str)
  trailingSlash : TrailingSlashAction

def orPanic {ε : Type} {α : Type} : Option α → Outcome ε α
  | some value => .ok value
  | none => .panic

namespace Builder

variable {lib : Regexes}

def new (lib : Regexes) : Builder lib where
  exact := ∅
  prefixTrie := FlatTrie.new
  suffixTrie := FlatTrie.new
  regexes := []
  regexPatterns := []
  priority := 0

def addBegins (builder : Builder lib) (text replacement : Str) : Outcome lib.Error (Builder lib) :=
  (orPanic (builder.prefixTrie.insert (Str.utf8 text) replacement
    builder.priority)).map fun trie =>
      { builder with prefixTrie := trie, priority := builder.priority + 1 }

def addEnds (builder : Builder lib) (text replacement : Str) : Outcome lib.Error (Builder lib) :=
  (orPanic (builder.suffixTrie.insert (Str.utf8 text).reverse replacement
    builder.priority)).map fun trie =>
      { builder with suffixTrie := trie, priority := builder.priority + 1 }

def addRule (builder : Builder lib) (rule : Str × Str) : Outcome lib.Error (Builder lib) :=
  match Pattern.ofStr rule.1 with
  | .begins text => builder.addBegins text rule.2
  | .ends text => builder.addEnds text rule.2
  | .exact text =>
    .ok { builder with
      exact := builder.exact.insert text (builder.priority, rule.2)
      priority := builder.priority + 1 }
  | .regex text =>
    match lib.new text with
    | .error error => .err error
    | .ok regex =>
      .ok { builder with
        regexes := builder.regexes ++ [(builder.priority, regex, rule.2)]
        regexPatterns := builder.regexPatterns ++ [text]
        priority := builder.priority + 1 }

def addRules (builder : Builder lib) : List (Str × Str) →
    Outcome lib.Error (Builder lib)
  | [] => .ok builder
  | rule :: rules => (builder.addRule rule).bind fun next => next.addRules rules

def addStripPrefix (builder : Builder lib) (stripPrefix : Option Str) :
    Outcome lib.Error (Builder lib) :=
  match stripPrefix.filter (· ≠ []) with
  | some text => builder.addBegins text []
  | none => .ok builder

def addStripSuffix (builder : Builder lib) (stripSuffix : Option Str) :
    Outcome lib.Error (Builder lib) :=
  match stripSuffix.filter (· ≠ []) with
  | some text => builder.addEnds text []
  | none => .ok builder

def finish (builder : Builder lib) (trailingSlash : TrailingSlashAction) :
    Outcome lib.Error (RewriteEngine lib) :=
  let engine (set : Option lib.RegexSet) : RewriteEngine lib :=
    { exact := builder.exact
      prefixTrie := builder.prefixTrie
      suffixTrie := builder.suffixTrie
      regexSet := set
      regexes := builder.regexes
      trailingSlash := trailingSlash }
  if builder.regexPatterns = [] then
    .ok (engine none)
  else
    match lib.newSet builder.regexPatterns with
    | .error error => .err error
    | .ok set => .ok (engine (some set))

end Builder

inductive MatchKind where
  | exact (replacement : Str)
  | begins (len : Nat) (replacement : Str)
  | ends (len : Nat) (replacement : Str)
  | regex (rewritten : Str)
  deriving DecidableEq, Repr

structure Best where
  prio : Nat
  kind : MatchKind
  deriving DecidableEq, Repr

def MatchKind.cow (path : Str) : MatchKind → Option Str
  | .exact replacement => some replacement
  | .begins len replacement => (Str.cutAt path len).map fun (_, rest) => replacement ++ rest
  | .ends len replacement =>
    (Str.cutAt path ((Str.utf8 path).length - len)).map fun (rest, _) => rest ++ replacement
  | .regex rewritten => some rewritten

namespace RewriteEngine

variable {lib : Regexes}

def new (lib : Regexes) (rawRules : List (Str × Str)) (stripPrefix stripSuffix : Option Str)
    (trailingSlash : TrailingSlashAction) :
    Outcome lib.Error (RewriteEngine lib) :=
  ((Builder.new lib).addStripPrefix stripPrefix).bind fun builder =>
    (builder.addStripSuffix stripSuffix).bind fun builder =>
      (builder.addRules rawRules).bind fun builder => builder.finish trailingSlash

/-- Whether the search is over: `apply` returns at priority 0. -/
def settled (full : Bool) (best : Option Best) : Bool := !full && best.any (·.prio = 0)

/-- Whether a part whose lowest priority is `minPrio` is asked. -/
def asks (full : Bool) (best : Option Best) (minPrio : Option Nat) : Bool :=
  full || minPrio.any (isBelow · (best.map (·.prio)))

/-- A candidate replaces the best one if its priority is lower. -/
def challenge (best : Option Best) (candidate : Option Best) : Option Best :=
  match candidate with
  | none => best
  | some found => if isBelow found.prio (best.map (·.prio)) then some found else best

def matchRegex (engine : RewriteEngine lib) (path : Str) : Option (Option (Nat × Str)) :=
  match engine.regexSet with
  | none => some none
  | some set =>
    match (lib.matchedBy set path).head? with
    | none => some none
    | some i =>
      engine.regexes[i]?.map fun (prio, regex, replacement) =>
        some (prio, lib.replace regex path replacement)

/-- One part of the engine: it is asked unless the search is over or nothing
better can come. -/
def consult (full : Bool) (minPrio : Option Nat)
    (ask : Option (Option Best)) (best : Option Best) : Option (Option Best) :=
  if settled full best then
    some best
  else if asks full best minPrio then
    ask.map (challenge best)
  else
    some best

def askExact (engine : RewriteEngine lib) (path : Str) : Option Best :=
  (engine.exact.lookup path).map fun (prio, replacement) => ⟨prio, .exact replacement⟩

def askPrefix (engine : RewriteEngine lib) (path : Str) : Option (Option Best) :=
  (engine.prefixTrie.findBest (Str.utf8 path)).map fun found =>
    found.map fun found => ⟨found.prio, .begins found.len found.replacement⟩

def askSuffix (engine : RewriteEngine lib) (path : Str) : Option (Option Best) :=
  (engine.suffixTrie.findBest (Str.utf8 path).reverse).map fun found =>
    found.map fun found => ⟨found.prio, .ends found.len found.replacement⟩

def askRegex (engine : RewriteEngine lib) (path : Str) : Option (Option Best) :=
  (engine.matchRegex path).map fun found =>
    found.map fun (prio, rewritten) => ⟨prio, .regex rewritten⟩

def bestMatch (engine : RewriteEngine lib) (path : Str) (full : Bool) : Option (Option Best) :=
  (consult full engine.prefixTrie.minPrio (engine.askPrefix path)
      (engine.askExact path)).bind fun best =>
    (consult full engine.suffixTrie.minPrio (engine.askSuffix path) best).bind fun best =>
      match engine.regexes with
      | [] => some best
      | (minRegexPrio, _, _) :: _ => consult full (some minRegexPrio) (engine.askRegex path) best

/-- The rewritten path of the best candidate, or the path itself. -/
def bestCandidate (engine : RewriteEngine lib) (path : Str) (full : Bool) : Option Str :=
  (engine.bestMatch path full).bind fun best =>
    match best with
    | none => some path
    | some best => best.kind.cow path

def applyTrailingSlash (action : TrailingSlashAction) (path : Str) : Str :=
  match action with
  | .ignore => path
  | .always => if path.getLast? = some '/' then path else path ++ ['/']
  | .never => if path = ['/'] ∨ path.getLast? ≠ some '/' then path else path.dropLast

def applyWith (engine : RewriteEngine lib) (full : Bool) (path : Str) : Option Str :=
  if path = [] then
    some path
  else
    (engine.bestCandidate path full).map (applyTrailingSlash engine.trailingSlash)

def applyHold (engine : RewriteEngine lib) (path : Str) : Option Str := engine.applyWith true path

def apply (engine : RewriteEngine lib) (path : Str) : Option Str := engine.applyWith false path

end RewriteEngine

end Ophan.Rewrite
