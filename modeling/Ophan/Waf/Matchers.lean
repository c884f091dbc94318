import Ophan.Glob.Set
import Ophan.Lib.Occurrence

/-!
# The matchers of one text field

A field collects the texts of its predicates and turns them into one bundle.
The automata come from libraries; they are parameters here.
-/

namespace Ophan.Waf

open Ophan.Glob

inductive MatchKind where
  | standard
  | leftmostFirst
  deriving DecidableEq, Repr

/-- A built Aho-Corasick automaton: whether a pattern occurs in a buffer, the
pattern of the first match in a stream, and the length of its longest
pattern. -/
structure AhoCorasick where
  isMatch : Bytes → Bool
  streamFind : Bytes → Option Nat
  maxPatternLen : Nat

/-- A lazily built DFA over several regexes, with its states as numbers.  A step
that fails has no next state. -/
structure HybridDfa where
  start : Option Nat
  nextState : Nat → UInt8 → Option Nat
  nextEoiState : Nat → Option Nat
  isMatch : Nat → Bool
  isQuit : Nat → Bool
  matchPattern : Nat → Nat

/-- The libraries the firewall searches with.  A build that fails has no
automaton.  A stream is read through a buffer of `readSize` bytes. -/
structure Libraries where
  ahoCorasick : MatchKind → List Bytes → Option AhoCorasick
  regexSet : List Bytes → Option (Bytes → Bool)
  hybridDfa : List Bytes → Option HybridDfa
  readSize : Nat
  readSize_pos : 0 < readSize

/-- Libraries that search literals byte by byte and build no regex. -/
def Libraries.naive : Libraries where
  ahoCorasick _ patterns :=
    some
      { isMatch := fun input => (findFirst patterns input).isSome
        streamFind := findFirst patterns
        maxPatternLen := patterns.foldl (fun most pattern => max most pattern.length) 0 }
  regexSet _ := none
  hybridDfa _ := none
  readSize := 1
  readSize_pos := by decide

structure TextMatchers where
  eqPatterns : List Bytes
  exactPatterns : Option AhoCorasick
  prefixPatterns : List Bytes
  suffixPatterns : List Bytes
  regexPatterns : Option (Bytes → Bool)
  globPatterns : Option PathMatcherSet

def TextMatchers.isMatch (matchers : TextMatchers) (input : Bytes) : Bool :=
  matchers.eqPatterns.any (input == ·) || matchers.exactPatterns.any (·.isMatch input) ||
    matchers.prefixPatterns.any (·.isPrefixOf input) ||
    matchers.suffixPatterns.any (·.isSuffixOf input) ||
    matchers.regexPatterns.any (· input) ||
    matchers.globPatterns.any (·.isMatch input)

structure TextMatcherBuilder where
  eqPatterns : List Bytes
  exactPatterns : List Bytes
  prefixPatterns : List Bytes
  suffixPatterns : List Bytes
  regexPatterns : List Bytes
  globPatterns : List Bytes
  deriving DecidableEq, Repr

namespace TextMatcherBuilder

def empty : TextMatcherBuilder := ⟨[], [], [], [], [], []⟩

def isEmpty (builder : TextMatcherBuilder) : Bool :=
  builder.eqPatterns.isEmpty && builder.exactPatterns.isEmpty &&
    builder.prefixPatterns.isEmpty && builder.suffixPatterns.isEmpty &&
    builder.regexPatterns.isEmpty && builder.globPatterns.isEmpty

/-- An automaton that cannot be built is left out. -/
def build (libs : Libraries) (builder : TextMatcherBuilder) : Option TextMatchers :=
  if builder.isEmpty then none
  else
    some
      { eqPatterns := builder.eqPatterns
        exactPatterns :=
          if builder.exactPatterns.isEmpty then none
          else libs.ahoCorasick .leftmostFirst builder.exactPatterns
        prefixPatterns := builder.prefixPatterns
        suffixPatterns := builder.suffixPatterns
        regexPatterns :=
          if builder.regexPatterns.isEmpty then none
          else libs.regexSet builder.regexPatterns
        globPatterns :=
          if builder.globPatterns.isEmpty then none
          else (PathMatcherSet.compile builder.globPatterns).toOption }

end TextMatcherBuilder

end Ophan.Waf
