import Ophan.Glob.Set

/-!
# What the trie of a set holds

The trie lists exactly the token lists of its patterns: a pattern adds its own
list and keeps the others, whichever nodes it shares.  Tokens are read through
the finished arena, which every earlier arena is a beginning of.
-/

namespace Ophan.Glob

open List

namespace Store

/-- The arena and the spans of a store are beginnings of those of another. -/
structure Le (store final : Store) : Prop where
  arena : store.arena <+: final.arena
  groupSpans : store.groupSpans <+: final.groupSpans

theorem Le.refl (store : Store) : store.Le store := ⟨prefix_rfl, prefix_rfl⟩

theorem Le.trans {first second third : Store} (firstLe : first.Le second)
    (secondLe : second.Le third) : first.Le third :=
  ⟨firstLe.arena.trans secondLe.arena, firstLe.groupSpans.trans secondLe.groupSpans⟩

def resolve (store : Store) : NodeToken → Tok
  | .literal start stop => .literal (store.slice start stop)
  | .wildcard => .wildcard
  | .deepWildcard => .deepWildcard
  | .deepWildcardDir => .deepWildcardDir
  | .anyChar => .anyChar
  | .group start stop => .group (store.options start stop)
  | .charClass bitmap negated => .charClass bitmap negated

variable {store final : Store} {arena : Bytes} {options : List Bytes}

theorem slice_of_prefix {text : Bytes} (isPrefix : arena ++ text <+: final.arena) :
    final.slice arena.length (arena ++ text).length = text := by
  obtain ⟨more, whole⟩ := isPrefix
  rw [slice, ← whole]
  simp

/-- The spans of alternatives that are put into the arena from `pos` on. -/
def spansFrom : Nat → List Bytes → List GroupSpan
  | _, [] => []
  | pos, option :: rest => ⟨pos, pos + option.length⟩ :: spansFrom (pos + option.length) rest

theorem foldl_addOption (store : Store) (options : List Bytes) :
    options.foldl addOption store =
      ⟨store.arena ++ options.flatten,
        store.groupSpans ++ spansFrom store.arena.length options⟩ := by
  induction options generalizing store with
  | nil => simp [spansFrom]
  | cons option rest ih =>
    rw [foldl_cons, ih]
    simp [addOption, spansFrom]

theorem map_slice_spansFrom (isPrefix : arena ++ options.flatten <+: final.arena) :
    (spansFrom arena.length options).map
        (fun span => final.slice span.start span.stop) = options := by
  induction options generalizing arena with
  | nil => rfl
  | cons option rest ih =>
    have whole : (arena ++ option) ++ rest.flatten <+: final.arena := by simpa using isPrefix
    have first : arena ++ option <+: final.arena := (prefix_append _ _).trans whole
    have below := ih whole
    have sliced := slice_of_prefix first
    simp only [length_append] at below sliced
    simp only [spansFrom, map_cons, below, sliced]

theorem le_foldl_addOption (store : Store) (options : List Bytes) :
    store.Le (options.foldl addOption store) := by
  rw [foldl_addOption]
  exact ⟨prefix_append _ _, prefix_append _ _⟩

theorem options_of_foldl_addOption (le : (options.foldl addOption store).Le final) :
    final.options store.groupSpans.length
      (options.foldl addOption store).groupSpans.length = options := by
  rw [foldl_addOption] at le ⊢
  obtain ⟨more, whole⟩ := le.groupSpans
  have taken : (final.groupSpans.drop store.groupSpans.length).take
      ((store.groupSpans ++ spansFrom store.arena.length options).length -
        store.groupSpans.length) = spansFrom store.arena.length options := by
    rw [← whole]
    simp
  rw [Store.options, taken]
  exact map_slice_spansFrom le.arena

end Store

theorem le_lowerToken (tok : Tok) (store : Store) : store.Le (lowerToken tok store).2 := by
  cases tok with
  | literal text => exact ⟨prefix_append _ _, prefix_rfl⟩
  | group options => exact store.le_foldl_addOption options
  | _ => exact Store.Le.refl store

variable {tok : Tok} {store final : Store} {tokens : List Tok} {level : List Temp}

theorem resolve_lowerToken (le : (lowerToken tok store).2.Le final) :
    final.resolve (lowerToken tok store).1 = tok := by
  cases tok with
  | literal text =>
    simp only [lowerToken, Store.resolve]
    rw [Store.slice_of_prefix le.arena]
  | group options =>
    simp only [lowerToken, Store.resolve]
    rw [Store.options_of_foldl_addOption le]
  | _ => rfl

/-- The token lists of a trie: those of its ways down to a terminal node. -/
inductive Listed (final : Store) : List Temp → List Tok → Prop where
  | last {node : Temp} {level : List Temp} (member : node ∈ level)
      (terminal : node.isTerminal = true) :
      Listed final level [final.resolve node.token]
  | more {node : Temp} {level : List Temp} {rest : List Tok}
      (member : node ∈ level) (below : Listed final node.children rest) :
      Listed final level (final.resolve node.token :: rest)

def Temp.Lists (final : Store) (node : Temp) (tokens : List Tok) : Prop :=
  ∃ rest, tokens = final.resolve node.token :: rest ∧
    (rest = [] ∧ node.isTerminal = true ∨ Listed final node.children rest)

theorem listed_iff : Listed final level tokens ↔ ∃ node ∈ level, node.Lists final tokens := by
  constructor
  · intro listed
    cases listed with
    | last member terminal => exact ⟨_, member, [], rfl, Or.inl ⟨rfl, terminal⟩⟩
    | more member below => exact ⟨_, member, _, rfl, Or.inr below⟩
  · rintro ⟨node, member, rest, rfl, ⟨rfl, terminal⟩ | below⟩
    · exact .last member terminal
    · exact .more member below

@[simp]
theorem not_listed_nil : ¬ Listed final [] tokens := by
  simp [listed_iff]

theorem Listed.ne_nil (listed : Listed final level tokens) : tokens ≠ [] := by
  cases listed <;> simp

theorem addPath_cases (tok : Tok) (rest : List Tok) (store : Store) (level : List Temp) :
    (∃ before node after,
        level = before ++ node :: after ∧
          node.token = (lowerToken tok store).1 ∧
          addPath (tok :: rest) store level =
            ((addPath rest (lowerToken tok store).2 node.children).1,
              before ++
                ⟨node.token, node.isTerminal || rest.isEmpty,
                  (addPath rest (lowerToken tok store).2 node.children).2⟩ ::
                after)) ∨
      addPath (tok :: rest) store level =
        ((addPath rest (lowerToken tok store).2 []).1,
          level ++
            [⟨(lowerToken tok store).1, rest.isEmpty,
              (addPath rest (lowerToken tok store).2 []).2⟩]) := by
  rw [addPath]
  cases found : level.findIdx? fun node =>
      node.token == (lowerToken tok store).1 with
  | none =>
    right
    simp [found]
  | some pos =>
    left
    obtain ⟨inside, matching, -⟩ := List.findIdx?_eq_some_iff_getElem.mp found
    refine ⟨level.take pos, level[pos], level.drop (pos + 1),
      by rw [getElem_cons_drop, take_append_drop],
      by simpa using matching, ?_⟩
    simp only [found, List.getElem?_eq_getElem inside,
      set_eq_take_append_cons_drop, inside, if_true]

theorem le_addPath (tokens : List Tok) (store : Store) (level : List Temp) :
    store.Le (addPath tokens store level).1 := by
  induction tokens generalizing store level with
  | nil => exact Store.Le.refl store
  | cons tok rest ih =>
    rcases addPath_cases tok rest store level with
      ⟨before, node, after, -, -, result⟩ | result
    · rw [result]
      exact (le_lowerToken tok store).trans (ih _ _)
    · rw [result]
      exact (le_lowerToken tok store).trans (ih _ _)

/-- A pattern adds its own token list and keeps the others. -/
theorem listed_addPath (le : (addPath tokens store level).1.Le final) {other : List Tok} :
    Listed final (addPath tokens store level).2 other ↔
      Listed final level other ∨ tokens ≠ [] ∧ other = tokens := by
  induction tokens generalizing store level other with
  | nil => simp [addPath]
  | cons tok rest ih =>
    rcases addPath_cases tok rest store level with
      ⟨before, node, after, rfl, sameToken, result⟩ | result
    · rw [result] at le ⊢
      have below := @ih _ _ le
      have resolved : final.resolve node.token = tok := by
        rw [sameToken]
        exact resolve_lowerToken ((le_addPath _ _ _).trans le)
      have changed :
          (⟨node.token, node.isTerminal || rest.isEmpty,
            (addPath rest (lowerToken tok store).2 node.children).2⟩ : Temp).Lists final other ↔
            node.Lists final other ∨ other = tok :: rest := by
        simp only [Temp.Lists, below, resolved, Bool.or_eq_true, List.isEmpty_iff]
        constructor
        · grind
        · grind
      simp only [listed_iff, mem_append, mem_cons, or_and_right, exists_or, exists_eq_left, changed]
      simp only [ne_eq, reduceCtorEq, not_false_eq_true, true_and, or_assoc, or_comm, or_left_comm]
    · rw [result] at le ⊢
      have below := @ih _ _ le
      have resolved : final.resolve (lowerToken tok store).1 = tok :=
        resolve_lowerToken ((le_addPath _ _ _).trans le)
      have added :
          (⟨(lowerToken tok store).1, rest.isEmpty,
            (addPath rest (lowerToken tok store).2 []).2⟩ :
              Temp).Lists final other ↔ other = tok :: rest := by
        simp only [Temp.Lists, below, resolved, List.isEmpty_iff, not_listed_nil, false_or]
        constructor
        · grind
        · grind
      simp only [listed_iff, mem_append, mem_singleton,
        or_and_right, exists_or, exists_eq_left, added]
      simp

theorem listed_foldl_addPath {patterns : List GlobPattern} {built : Store × List Temp}
    (le : (patterns.foldl (fun (built : Store × List Temp) pattern =>
      addPath pattern.tokens built.1 built.2) built).1.Le final) :
    Listed final (patterns.foldl (fun (built : Store × List Temp) pattern =>
        addPath pattern.tokens built.1 built.2) built).2 tokens ↔
      Listed final built.2 tokens ∨
        ∃ pattern ∈ patterns, pattern.tokens ≠ [] ∧ tokens = pattern.tokens := by
  induction patterns generalizing built with
  | nil => simp
  | cons pattern rest ih =>
    have grows : ∀ (others : List GlobPattern) (built : Store × List Temp),
        built.1.Le (others.foldl (fun (built : Store × List Temp) pattern =>
          addPath pattern.tokens built.1 built.2) built).1 := by
      intro others
      induction others with
      | nil => exact fun built => Store.Le.refl built.1
      | cons other others grow => exact fun built => (le_addPath _ _ _).trans (grow _)
    rw [foldl_cons] at le ⊢
    rw [ih le, listed_addPath ((grows rest _).trans le)]
    simp only [mem_cons, or_and_right, exists_or, exists_eq_left, or_assoc]

/-- The trie of a set lists the token lists of its patterns. -/
theorem listed_buildTrie (patterns : List GlobPattern) (tokens : List Tok) :
    Listed (buildTrie patterns).1 (buildTrie patterns).2 tokens ↔
      ∃ pattern ∈ patterns, pattern.tokens ≠ [] ∧ tokens = pattern.tokens := by
  have listed := @listed_foldl_addPath (buildTrie patterns).1 tokens patterns (Store.empty, [])
    (Store.Le.refl _)
  simp only [not_listed_nil, false_or] at listed
  exact listed

inductive Alive : List Temp → Prop where
  | intro {level : List Temp}
      (ends : ∀ node ∈ level, node.isTerminal = true ∨ node.children ≠ [])
      (below : ∀ node ∈ level, Alive node.children) : Alive level

theorem Alive.nil : Alive [] := .intro (by simp) (by simp)

theorem addPath_ne_nil (nonempty : tokens ≠ []) (store : Store) (level : List Temp) :
    (addPath tokens store level).2 ≠ [] := by
  cases tokens with
  | nil => exact absurd rfl nonempty
  | cons tok rest =>
    rcases addPath_cases tok rest store level with
      ⟨before, node, after, -, -, result⟩ | result
    · simp [result]
    · simp [result]

theorem Alive.addPath (alive : Alive level) (tokens : List Tok) (store : Store) :
    Alive (addPath tokens store level).2 := by
  induction tokens generalizing store level with
  | nil => exact alive
  | cons tok rest ih =>
    have ended : ∀ (terminal : Bool) (children : List Temp) (store : Store),
        (terminal || rest.isEmpty) = true ∨ (Glob.addPath rest store children).2 ≠ [] := by
      intro terminal children store
      by_cases isLast : rest = []
      · simp [isLast]
      · exact Or.inr (addPath_ne_nil isLast store children)
    obtain ⟨ends, below⟩ := alive
    rcases addPath_cases tok rest store level with
      ⟨before, node, after, rfl, -, result⟩ | result
    · simp only [forall_mem_append, forall_mem_cons] at ends below
      rw [result]
      constructor
      · exact forall_mem_append.mpr ⟨ends.1, forall_mem_cons.mpr ⟨ended _ _ _, ends.2.2⟩⟩
      · exact forall_mem_append.mpr ⟨below.1, forall_mem_cons.mpr ⟨ih below.2.1 _, below.2.2⟩⟩
    · rw [result]
      constructor
      · refine forall_mem_append.mpr ⟨ends, forall_mem_singleton.mpr ?_⟩
        simpa using ended false [] (lowerToken tok store).2
      · exact forall_mem_append.mpr ⟨below, forall_mem_singleton.mpr (ih Alive.nil _)⟩

theorem alive_buildTrie (patterns : List GlobPattern) : Alive (buildTrie patterns).2 := by
  have kept : ∀ (others : List GlobPattern) (built : Store × List Temp),
      Alive built.2 →
        Alive (others.foldl (fun (built : Store × List Temp) pattern =>
          addPath pattern.tokens built.1 built.2) built).2 := by
    intro others
    induction others with
    | nil => exact fun built alive => alive
    | cons other others keep => exact fun built alive => keep _ (alive.addPath _ _)
  exact kept patterns _ Alive.nil

/-- Some pattern goes through every node. -/
theorem Alive.exists_lists (alive : Alive level) (final : Store) :
    ∀ node ∈ level, ∃ rest, node.Lists final (final.resolve node.token :: rest) := by
  induction alive with
  | @intro level ends below ih =>
    intro node member
    rcases ends node member with terminal | nonempty
    · exact ⟨[], [], rfl, Or.inl ⟨rfl, terminal⟩⟩
    · obtain ⟨child, inChildren⟩ := exists_mem_of_ne_nil _ nonempty
      obtain ⟨rest, lists⟩ := ih node member child inChildren
      exact ⟨_, _, rfl, Or.inr (listed_iff.mpr ⟨child, inChildren, lists⟩)⟩

end Ophan.Glob
