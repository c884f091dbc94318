import Mathlib.Tactic.Ring
import Ophan.Glob.Follow

/-!
# The backtracking loop

A frame on top of the stack is worked off: the loop ends on the way, with a match or
on a full stack, or it comes back to the stack below the frame after a bounded number
of turns.  Which of these happens is told by the searches for the lists of the level:
the loop tries them in one order, and each of them from a stack of the same height.
-/

namespace Ophan.Glob

open List

mutual

/-- The turns a trie can take, when a token leaves fewer than `most` tails. -/
def Temp.work (most : Nat) : Temp → Nat
  | ⟨_, _, children⟩ => most * (1 + levelWork most children)

def levelWork (most : Nat) : List Temp → Nat
  | [] => 1
  | temp :: rest => temp.work most + levelWork most rest

end

theorem Temp.work_eq (most : Nat) (temp : Temp) :
    temp.work most = most * (1 + levelWork most temp.children) := by
  cases temp
  rw [Temp.work]

theorem levelWork_pos (most : Nat) (level : List Temp) : 0 < levelWork most level := by
  induction level with
  | nil => simp [levelWork]
  | cons temp rest ih =>
    rw [levelWork]
    omega

theorem levelWork_le (most : Nat) (level : List Temp) :
    levelWork most level ≤ (2 * most + 1) ^ levelSize level := by
  induction level using level_induction with
  | nil => simp [levelWork, levelSize]
  | cons temp rest children others =>
    rw [levelWork, levelSize, temp.size_eq, temp.work_eq]
    generalize levelSize temp.children = m at *
    generalize levelSize rest = n at *
    generalize base : 2 * most + 1 = c at *
    have positive : 0 < c := by omega
    have childrenLe : c ^ m ≤ c ^ (m + n) := Nat.pow_le_pow_right positive (by omega)
    have othersLe : c ^ n ≤ c ^ (m + n) := Nat.pow_le_pow_right positive (by omega)
    have one : 1 ≤ c ^ (m + n) := Nat.pow_pos positive
    calc most * (1 + levelWork most temp.children) + levelWork most rest
        ≤ most * (c ^ (m + n) + c ^ (m + n)) + c ^ (m + n) := by
          apply Nat.add_le_add
          · apply Nat.mul_le_mul_left
            omega
          · omega
      _ = c * c ^ (m + n) := by
          rw [← base]
          ring
      _ = c ^ (1 + m + n) := by rw [Nat.add_assoc, Nat.add_comm 1, Nat.pow_succ, Nat.mul_comm]

section Verdicts

/-- The loop, with the reason for which it ends. -/
def PathMatcherSet.verdict (set : PathMatcherSet) : Nat → List MatchFrame → Verdict
  | 0, _ => .left
  | rounds + 1, stack =>
    match set.round stack with
    | .done true => .found
    | .done false => if stack.isEmpty then .left else .full
    | .next stack => set.verdict rounds stack

theorem PathMatcherSet.run_eq_true_iff (set : PathMatcherSet) (rounds : Nat)
    (stack : List MatchFrame) :
    set.run rounds stack = true ↔ set.verdict rounds stack = .found := by
  induction rounds generalizing stack with
  | zero => simp [run, verdict]
  | succ rounds ih =>
    rw [run, verdict]
    cases set.round stack with
    | next stack => exact ih stack
    | done found => cases found <;> grind

/-- The verdict on several lists, by the verdicts on each of them. -/
def Sees (listed : List Tok → Prop) (each : List Tok → Verdict) : Verdict → Prop
  | .found => ∃ tokens, listed tokens ∧ each tokens = .found
  | .left => ∀ tokens, listed tokens → each tokens = .left
  | .full => ∃ tokens, listed tokens ∧ each tokens = .full

/-- The loop works the stack down to `below` in so many turns, or ends on the way, by the
verdicts on the lists. -/
def Works (set : PathMatcherSet) (stack : List MatchFrame) (turns : Nat)
    (below : List MatchFrame) (listed : List Tok → Prop) (each : List Tok → Verdict) : Prop :=
  ∃ count ≤ turns, ∃ verdict, Sees listed each verdict ∧
    ∀ more, set.verdict (count + more) stack = verdict.orElse (set.verdict more below)

namespace Works

variable {set : PathMatcherSet} {stack middle below : List MatchFrame} {turns others : Nat}
  {listed also : List Tok → Prop} {each further : List Tok → Verdict}

theorem stop (returned : set.round stack = .done true)
    (found : ∃ tokens, listed tokens ∧ each tokens = .found) (some : 1 ≤ turns) :
    Works set stack turns below listed each :=
  ⟨1, some, .found, found, fun more => by
    rw [Nat.add_comm, PathMatcherSet.verdict, returned]
    rfl⟩

theorem full (returned : set.round stack = .done false) (nonempty : stack ≠ [])
    (full : ∃ tokens, listed tokens ∧ each tokens = .full) (some : 1 ≤ turns) :
    Works set stack turns below listed each :=
  ⟨1, some, .full, full, fun more => by
    rw [Nat.add_comm, PathMatcherSet.verdict, returned]
    simp [nonempty, Verdict.orElse]⟩

theorem pass (moved : set.round stack = .next below)
    (left : ∀ tokens, listed tokens → each tokens = .left) (some : 1 ≤ turns) :
    Works set stack turns below listed each :=
  ⟨1, some, .left, left, fun more => by
    rw [Nat.add_comm, PathMatcherSet.verdict, moved]
    rfl⟩

theorem step (moved : set.round stack = .next middle)
    (works : Works set middle turns below listed each) :
    Works set stack (1 + turns) below listed each := by
  obtain ⟨count, few, verdict, sees, works⟩ := works
  refine ⟨1 + count, Nat.add_le_add_left few 1, verdict, sees, fun more => ?_⟩
  rw [Nat.add_assoc, Nat.add_comm 1, PathMatcherSet.verdict, moved]
  exact works more

/-- Work in two parts, when the verdicts of the parts make up one. -/
theorem append (first : Works set stack turns middle listed each)
    (second : Works set middle others below also further) {all : List Tok → Prop}
    {both : List Tok → Verdict}
    (sees : ∀ verdict verdict', Sees listed each verdict → Sees also further verdict' →
      Sees all both (verdict.orElse verdict')) :
    Works set stack (turns + others) below all both := by
  obtain ⟨count, few, verdict, isFirst, works⟩ := first
  obtain ⟨count', few', verdict', isSecond, works'⟩ := second
  refine ⟨count + count', by omega, _, sees _ _ isFirst isSecond, fun more => ?_⟩
  rw [Nat.add_assoc, works, works']
  cases verdict <;> rfl

theorem seq (first : Works set stack turns middle listed each)
    (second : Works set middle others below listed further) :
    Works set stack (turns + others) below listed
      fun tokens => (each tokens).orElse (further tokens) := by
  refine first.append second fun verdict verdict' isFirst isSecond => ?_
  cases verdict <;> cases verdict' <;> grind [Sees, Verdict.orElse]

theorem either (first : Works set stack turns middle listed each)
    (second : Works set middle others below also each) :
    Works set stack (turns + others) below (fun tokens => listed tokens ∨ also tokens) each := by
  refine first.append second fun verdict verdict' isFirst isSecond => ?_
  cases verdict <;> cases verdict' <;> grind [Sees, Verdict.orElse]

theorem imp (works : Works set stack turns below listed each) {more : Nat} (few : turns ≤ more)
    (sees : ∀ verdict, Sees listed each verdict → Sees also further verdict) :
    Works set stack more below also further := by
  obtain ⟨count, isFew, verdict, isSeen, works⟩ := works
  exact ⟨count, isFew.trans few, verdict, sees verdict isSeen, works⟩

theorem congr (works : Works set stack turns below listed each)
    (same : ∀ tokens, listed tokens → further tokens = each tokens) :
    Works set stack turns below listed further := by
  refine works.imp (Nat.le_refl _) fun verdict => ?_
  cases verdict <;> grind [Sees]

theorem none (set : PathMatcherSet) (stack : List MatchFrame) (turns : Nat)
    (listed : List Tok → Prop) : Works set stack turns stack listed fun _ => .left :=
  ⟨0, Nat.zero_le _, .left, fun _ _ => rfl, fun more => by rw [Nat.zero_add]; rfl⟩

end Works

end Verdicts

/-- The nodes from `pos` on are those of the level. -/
def LaidAt (nodes : List Node) (pos : Nat) (level : List Temp) : Prop :=
  ∀ i temp, level[i]? = some temp → ∃ range,
    nodes[pos + i]? = some ⟨temp.token, range, temp.isTerminal⟩ ∧ Laid nodes 0 range temp.children

variable {nodes : List Node}

theorem Laid.laidAt {range : Nat × Nat} {level : List Temp} (laid : Laid nodes 0 range level) :
    LaidAt nodes range.1 level ∧ range.2 = range.1 + level.length := by
  cases laid with
  | intro ranges beyond placed below =>
    refine ⟨?_, rfl⟩
    intro i temp located
    exact ⟨ranges i, placed i temp located, below i temp located⟩

variable {pos : Nat} {temp : Temp}

theorem LaidAt.head {rest : List Temp} (laid : LaidAt nodes pos (temp :: rest)) :
    ∃ range, nodes[pos]? = some ⟨temp.token, range, temp.isTerminal⟩ ∧
      Laid nodes 0 range temp.children := by
  simpa using laid 0 temp (by simp)

theorem LaidAt.tail {rest : List Temp} (laid : LaidAt nodes pos (temp :: rest)) :
    LaidAt nodes (pos + 1) rest := by
  intro i other located
  have next := laid (i + 1) other (by simpa using located)
  rwa [show pos + 1 + i = pos + (i + 1) from by omega]

theorem node_eq {set : PathMatcherSet} {node : Node}
    (located : set.nodes[pos]? = some node) : set.node pos = node := by
  simp [PathMatcherSet.node, List.getD, located]

/-- What is known of a level the loop works on. -/
structure Working (set : PathMatcherSet) (level : List Temp) : Prop where
  alive : Alive level
  proper : ∀ tokens, Listed set.toStore level tokens → ∀ tok ∈ tokens, tok.Proper

namespace Working

variable {set : PathMatcherSet} {temp : Temp} {rest : List Temp}

theorem tail (working : Working set (temp :: rest)) : Working set rest := by
  obtain ⟨⟨ends, below⟩, proper⟩ := working
  refine ⟨⟨(forall_mem_cons.mp ends).2, (forall_mem_cons.mp below).2⟩, ?_⟩
  intro tokens listed
  obtain ⟨node, member, lists⟩ := listed_iff.mp listed
  exact proper tokens (listed_iff.mpr ⟨node, mem_cons_of_mem temp member, lists⟩)

theorem children (working : Working set (temp :: rest)) : Working set temp.children := by
  obtain ⟨⟨ends, below⟩, proper⟩ := working
  refine ⟨below temp mem_cons_self, ?_⟩
  intro tokens listed tok member
  exact proper _ (.more mem_cons_self listed) tok (mem_cons_of_mem _ member)

theorem through {level : List Temp} (working : Working set level)
    {node : Temp} (member : node ∈ level) :
    ∃ rest, node.Lists set.toStore (set.resolve node.token :: rest) :=
  working.alive.exists_lists set.toStore node member

end Working

/-- The lists of a node without its own token. -/
def Temp.Rests (final : Store) (node : Temp) (rest : List Tok) : Prop :=
  rest = [] ∧ node.isTerminal = true ∨ Listed final node.children rest

/-- What the search for the rest of a list makes of a tail. -/
def enterRest (height : Nat) (next : Bytes) (rest : List Tok) : Verdict :=
  if rest = [] then if next = [] then .found else .left
  else if height ≥ maxStackDepth then .full else search rest (height + 1) next

section Frames

variable {set : PathMatcherSet} {temp : Temp} {range : Nat × Nat}
  {stack frames below : List MatchFrame} {childTurns most : Nat}

theorem Works.lists {turns height : Nat} {each : List Tok → Verdict} {input : Bytes}
    (works : Works set stack turns below (temp.Rests set.toStore) each)
    (same : ∀ rest, temp.Rests set.toStore rest →
      search (set.resolve temp.token :: rest) height input = each rest) :
    Works set stack turns below (temp.Lists set.toStore) (search · height input) := by
  refine works.imp (Nat.le_refl _) fun verdict sees => ?_
  cases verdict with
  | found | full =>
    obtain ⟨rest, isRest, isVerdict⟩ := sees
    exact ⟨_, ⟨rest, rfl, isRest⟩, (same rest isRest).trans isVerdict⟩
  | left =>
    rintro tokens ⟨rest, rfl, isRest⟩
    exact (same rest isRest).trans (sees rest isRest)

theorem Works.lists_below {turns more height : Nat} {each : List Tok → Verdict} {input : Bytes}
    (works : Works set stack turns below (Listed set.toStore temp.children) each)
    (few : turns ≤ more)
    (same : ∀ rest, Listed set.toStore temp.children rest →
      search (set.resolve temp.token :: rest) height input = each rest)
    (ended : temp.isTerminal = true → search [set.resolve temp.token] height input = .left) :
    Works set stack more below (temp.Lists set.toStore) (search · height input) := by
  refine works.imp few fun verdict sees => ?_
  cases verdict with
  | found | full =>
    obtain ⟨rest, listed, isVerdict⟩ := sees
    exact ⟨_, ⟨rest, rfl, Or.inr listed⟩, (same rest listed).trans isVerdict⟩
  | left =>
    rintro tokens ⟨rest, rfl, ⟨rfl, terminal⟩ | listed⟩
    · exact ended terminal
    · exact (same rest listed).trans (sees rest listed)

/-- The children of a node can be worked off from any stack: what the induction over the
trie provides. -/
def ChildrenWork (set : PathMatcherSet) (temp : Temp) (range : Nat × Nat)
    (most childTurns : Nat) : Prop :=
  ∀ (next : Bytes) (stack : List MatchFrame),
    next.length + set.groupSpans.length + 2 ≤ most →
    Works set (⟨next, range.1, range.2, 0⟩ :: stack) childTurns stack
      (Listed set.toStore temp.children) (search · (stack.length + 1) next)

theorem range_lt_iff (laid : Laid set.nodes 0 range temp.children) :
    range.1 < range.2 ↔ temp.children ≠ [] := by
  rw [laid.laidAt.2, ← length_pos_iff]
  omega

section

variable {next : Bytes} (laid : Laid set.nodes 0 range temp.children) (alive : Alive temp.children)
  (children : ChildrenWork set temp range most childTurns)
  (small : next.length + set.groupSpans.length + 2 ≤ most) (nonempty : stack ≠ [])

include laid alive children small nonempty

theorem pushChildren_works
    (turn : set.round stack = pushChildren ⟨temp.token, range, temp.isTerminal⟩ next frames) :
    Works set stack (1 + childTurns) frames (Listed set.toStore temp.children)
      (enterRest frames.length next) := by
  unfold pushChildren at turn
  simp only [range_lt_iff laid] at turn
  by_cases childless : temp.children = []
  · rw [if_neg (by simpa using childless)] at turn
    exact .pass turn (by simp [childless]) (Nat.le_add_right _ _)
  rw [if_pos childless] at turn
  by_cases high : frames.length ≥ maxStackDepth
  · rw [if_pos high] at turn
    obtain ⟨child, member⟩ := exists_mem_of_ne_nil _ childless
    obtain ⟨rest, lists⟩ := alive.exists_lists set.toStore child member
    exact .full turn nonempty ⟨_, listed_iff.mpr ⟨child, member, lists⟩, by simp [enterRest, high]⟩
      (Nat.le_add_right _ _)
  · rw [if_neg high] at turn
    refine .step turn ((children next frames small).congr fun rest listed => ?_)
    rw [enterRest, if_neg listed.ne_nil, if_neg high]

theorem enter_works
    (turn : set.round stack = enter ⟨temp.token, range, temp.isTerminal⟩ next frames) :
    Works set stack (1 + childTurns) frames (temp.Rests set.toStore)
      (enterRest frames.length next) := by
  unfold enter at turn
  by_cases ended : next = [] ∧ temp.isTerminal = true
  · rw [if_pos (by simp [ended.1, ended.2])] at turn
    exact .stop turn ⟨[], Or.inl ⟨rfl, ended.2⟩, by simp [enterRest, ended.1]⟩
      (Nat.le_add_right _ _)
  · rw [if_neg (by simpa using ended)] at turn
    refine (pushChildren_works laid alive children small nonempty turn).imp (Nat.le_refl _)
      fun verdict => ?_
    cases verdict <;> grind [Sees, Temp.Rests, enterRest]

end

/-- Frames for several tails are worked off one after another. -/
theorem frames_work (tails : List Bytes) (children : ChildrenWork set temp range most childTurns)
    (small : ∀ next ∈ tails, next.length + set.groupSpans.length + 2 ≤ most) :
    Works set (tails.map (fun next => ⟨next, range.1, range.2, 0⟩) ++ below)
      (tails.length * childTurns) below (Listed set.toStore temp.children)
      fun rest => tryFrames (search rest) below.length tails := by
  induction tails with
  | nil => exact .none set below _ _
  | cons next rest ih =>
    have first := children next (rest.map (fun next => ⟨next, range.1, range.2, 0⟩) ++ below)
      (small next mem_cons_self)
    have works := first.seq (ih (forall_mem_cons.mp small).2)
    rw [length_cons, Nat.succ_mul, Nat.add_comm (rest.length * childTurns)]
    refine works.congr fun tokens _ => ?_
    rw [tryFrames, length_append, length_map, Nat.add_comm rest.length]

/-- A node that tries one tail after another, in the frame of each offset, is left behind the
last one. -/
theorem tails_work {tails : List Bytes} {listed : List Tok → Prop}
    {each : Bytes → List Tok → Verdict} {frame : Nat → MatchFrame} {done : List MatchFrame}
    {push : Bytes → List MatchFrame → Round}
    (turn : ∀ offset ≤ tails.length, set.round (frame offset :: below) =
      tails[offset]?.elim (.next done) fun next => push next (frame (offset + 1) :: below))
    (pushed : ∀ offset next, tails[offset]? = some next →
      set.round (frame offset :: below) = push next (frame (offset + 1) :: below) →
      Works set (frame offset :: below) (1 + childTurns) (frame (offset + 1) :: below) listed
        (each next)) :
    Works set (frame 0 :: below) (tails.length * (1 + childTurns) + 1) done listed
      fun tokens => tryEach (each · tokens) tails := by
  induction tails generalizing frame with
  | nil => exact .pass (turn 0 (Nat.zero_le _)) (fun _ _ => rfl) (Nat.le_add_left _ _)
  | cons next rest ih =>
    have first := pushed 0 next rfl (turn 0 (Nat.zero_le _))
    have more := @ih (fun offset => frame (offset + 1))
      (fun offset reached => turn (offset + 1) (Nat.succ_le_succ reached))
      (fun offset => pushed (offset + 1))
    refine (first.seq more).imp ?_ fun _ sees => sees
    rw [length_cons, Nat.succ_mul]
    omega

theorem length_le_of_leave {option remaining next : Bytes}
    (left : leave option remaining = some next) : next.length ≤ remaining.length := by
  cases (Option.ite_none_right_eq_some.mp left).2
  rw [length_drop]
  omega

/-- A turn on a group returns on a match or on a full stack, or pushes a frame for every
alternative that fits. -/
theorem groupRound_cases {remaining : Bytes} {options : List Bytes}
    {pushed : List MatchFrame} {token : NodeToken} {terminal : Bool} :
    let tails := options.filterMap (leave · remaining)
    let result := groupRound ⟨token, range, terminal⟩ remaining stack options pushed
    (result = .done true ∧ [] ∈ tails ∧ terminal = true) ∨
      (result = .done false ∧ range.1 < range.2 ∧ tails ≠ [] ∧
        maxStackDepth < stack.length + pushed.length + tails.length) ∨
      result = .next ((if range.1 < range.2 then
          (tails.map fun next => (⟨next, range.1, range.2, 0⟩ : MatchFrame)).reverse
        else []) ++ pushed ++ stack) ∧ ¬ ([] ∈ tails ∧ terminal = true) ∧
        (range.1 < range.2 → tails ≠ [] →
          stack.length + pushed.length + tails.length ≤ maxStackDepth) := by
  intro tails result
  subst tails result
  fun_induction groupRound ⟨token, range, terminal⟩ remaining stack options pushed with
  | case1 => simp
  | case2 option rest pushed fits next ended =>
    have left : leave option remaining = some next := if_pos fits
    simp_all
  | case3 option rest pushed fits next notEnded hasChildren full =>
    have left : leave option remaining = some next := if_pos fits
    simp only [filterMap_cons, left]
    grind
  | case4 option rest pushed fits next notEnded hasChildren full ih =>
    have left : leave option remaining = some next := if_pos fits
    simp only [filterMap_cons, left]
    simp only [length_cons, hasChildren, if_true, forall_const] at ih full ⊢
    rcases ih with ⟨isDone, inside, ends⟩ | ⟨isDone, -, -, high⟩ | ⟨isNext, notInside, room⟩
    · exact Or.inl ⟨isDone, mem_cons_of_mem _ inside, ends⟩
    · exact Or.inr (Or.inl ⟨isDone, trivial, cons_ne_nil _ _, by omega⟩)
    · refine Or.inr (Or.inr ⟨by simpa using isNext, by grind, fun _ => ?_⟩)
      grind
  | case5 option rest pushed fits next notEnded childless ih =>
    have left : leave option remaining = some next := if_pos fits
    simp only [filterMap_cons, left]
    grind
  | case6 option rest pushed unfit ih =>
    have left : leave option remaining = none := if_neg unfit
    simp only [filterMap_cons, left]
    exact ih

end Frames

section Nodes

@[simp]
theorem Verdict.orElse_left (verdict : Verdict) : verdict.orElse .left = verdict := by
  cases verdict <;> rfl

theorem tryEach_isNil (tails : List Bytes) :
    tryEach (fun next => if next = [] then .found else .left) tails =
      if [] ∈ tails then .found else .left := by
  induction tails with
  | nil => rfl
  | cons next rest ih =>
    rw [tryEach, ih]
    cases next <;> simp [Verdict.orElse]

/-- A token that comes back to its own frame enters the rest of the list with each tail. -/
theorem search_eq_tryEach {tok : Tok} {rest : List Tok} (ends : tok.isDeep = true → rest ≠ [])
    (notGroup : ∀ options, tok ≠ .group options) (height : Nat) (b : UInt8) (input : Bytes) :
    search (tok :: rest) height (b :: input) =
      tryEach (enterRest height · rest) (tok.nexts (b :: input)) := by
  rw [search]
  by_cases last : rest = []
  · have shallow : ¬ tok.isDeep = true := fun deep => ends deep last
    simp [last, shallow, enterRest, tryEach_isNil]
  · simp only [enterRest, last, if_false]
    cases tok with
    | group options => exact absurd rfl (notGroup options)
    | _ => rfl

variable {set : PathMatcherSet} {temp : Temp} {range : Nat × Nat}
  {below : List MatchFrame} {most childTurns pos stop : Nat} {b : UInt8}
  {input : Bytes}

theorem round_eq_nodeRound (inside : pos < stop) (progress : Nat) :
    set.round (⟨b :: input, pos, stop, progress⟩ :: below) =
      set.nodeRound ⟨b :: input, pos, stop, progress⟩ below := by
  simp [PathMatcherSet.round, Nat.not_le.mpr inside]

variable (laid : Laid set.nodes 0 range temp.children) (alive : Alive temp.children)
  (children : ChildrenWork set temp range most childTurns)
  (small : (b :: input).length + set.groupSpans.length + 2 ≤ most)

include laid alive children small

/-- A token that leaves one tail or nothing. -/
theorem single_works {left : Option Bytes} {frame : MatchFrame} (frames : List MatchFrame)
    (shorter : ∀ next, left = some next → next.length ≤ (b :: input).length)
    (shallow : (set.resolve temp.token).isDeep = false)
    (notGroup : ∀ options, set.resolve temp.token ≠ .group options)
    (leaves : (set.resolve temp.token).nexts (b :: input) = left.toList)
    (turn : set.round (frame :: below) = left.elim (.next frames) fun next =>
      enter ⟨temp.token, range, temp.isTerminal⟩ next frames) :
    Works set (frame :: below) (1 + childTurns) frames (temp.Lists set.toStore)
      (search · frames.length (b :: input)) := by
  have entered : Works set (frame :: below) (1 + childTurns) frames (temp.Rests set.toStore)
      fun rest => tryEach (enterRest frames.length · rest) left.toList := by
    cases left with
    | none => exact .pass turn (fun _ _ => rfl) (Nat.le_add_right _ _)
    | some next =>
      have fits := shorter next rfl
      refine (enter_works laid alive children (by omega) (cons_ne_nil _ _) turn).congr
        fun rest _ => ?_
      exact (enterRest frames.length next rest).orElse_left
  refine entered.lists fun rest _ => ?_
  rw [search_eq_tryEach (by simp [shallow]) notGroup, leaves]

/-- A token for one byte leaves the rest of the input or nothing. -/
theorem char_works {frame : MatchFrame} (frames : List MatchFrame) (keeps : Bool)
    (shallow : (set.resolve temp.token).isDeep = false)
    (notGroup : ∀ options, set.resolve temp.token ≠ .group options)
    (leaves : (set.resolve temp.token).nexts (b :: input) = if keeps then [input] else [])
    (turn : set.round (frame :: below) =
      if keeps then enter ⟨temp.token, range, temp.isTerminal⟩ input frames else .next frames) :
    Works set (frame :: below) (1 + childTurns) frames (temp.Lists set.toStore)
      (search · frames.length (b :: input)) := by
  refine @single_works set temp range below most childTurns b input laid alive children small
    (if keeps then some input else none) frame frames ?_ shallow notGroup ?_ ?_
  · grind
  · grind
  · rw [turn]
    split <;> rfl

variable (located : set.nodes[pos]? = some ⟨temp.token, range, temp.isTerminal⟩)
  (inside : pos < stop)

include located inside

theorem wildcard_works (below : List MatchFrame) (isWildcard : temp.token = .wildcard) :
    Works set (⟨b :: input, pos, stop, 0⟩ :: below)
      ((segmentTails (b :: input)).length * (1 + childTurns) + 1)
      (⟨b :: input, pos + 1, stop, 0⟩ :: below) (temp.Rests set.toStore)
      fun rest => tryEach (enterRest (below.length + 1) · rest) (segmentTails (b :: input)) := by
  refine @tails_work set below childTurns _ _ (enterRest (below.length + 1))
    (⟨b :: input, pos, stop, ·⟩) _ (enter ⟨temp.token, range, temp.isTerminal⟩) ?_ ?_
  · intro offset reached
    rw [round_eq_nodeRound inside, segmentTails_getElem? reached]
    simp only [PathMatcherSet.nodeRound, node_eq located, isWildcard]
    split <;> rfl
  · intro offset next found turn
    have bound := (List.getElem?_eq_some_iff.mp found).1
    rw [segmentTails_getElem? (by omega), Option.ite_none_right_eq_some] at found
    cases found.2
    exact enter_works laid alive children (by rw [length_drop]; omega) (cons_ne_nil _ _) turn

theorem deep_works (below : List MatchFrame)
    (isDeep : temp.token = .deepWildcard ∨ temp.token = .deepWildcardDir)
    (notTerminal : temp.isTerminal = false) :
    Works set (⟨b :: input, pos, stop, 0⟩ :: below)
      (((afterSlashes (b :: input)).length + 1) * (1 + childTurns) + 1)
      (⟨b :: input, pos + 1, stop, 0⟩ :: below) (Listed set.toStore temp.children)
      fun rest => tryEach (enterRest (below.length + 1) · rest)
        ((b :: input) :: afterSlashes (b :: input)) := by
  refine @tails_work set below childTurns ((b :: input) :: afterSlashes (b :: input)) _
    (enterRest (below.length + 1)) (⟨b :: input, pos, stop, ·⟩) _
    (pushChildren ⟨temp.token, range, temp.isTerminal⟩) ?_ ?_
  · intro offset reached
    rw [round_eq_nodeRound inside]
    cases offset with
    | zero =>
      rcases isDeep with isDeep | isDeep <;>
        simp [PathMatcherSet.nodeRound, node_eq located, isDeep, notTerminal]
    | succ offset =>
      obtain ⟨slice, skipped, -, next⟩ := @skipDirs_eq (b :: input) offset
        (by simpa using reached) ⟨b :: input, pos, stop, offset + 1⟩
      rw [← next]
      rcases isDeep with isDeep | isDeep <;>
        · simp only [PathMatcherSet.nodeRound, node_eq located, isDeep, notTerminal, skipped,
            Nat.add_sub_cancel, Nat.succ_ne_zero, if_false, Bool.false_eq_true]
          cases afterSlash slice with
          | none | some => rfl
  · intro offset next found turn
    have shorter := length_le_of_mem_afterSlashes (mem_of_getElem? found)
    exact pushChildren_works laid alive children (by omega) (cons_ne_nil _ _) turn

theorem group_works {start last : Nat} (isGroup : temp.token = .group start last) :
    Works set (⟨b :: input, pos, stop, 0⟩ :: below)
      (1 + (set.options start last).length * childTurns)
      (⟨b :: input, pos + 1, stop, 0⟩ :: below) (temp.Lists set.toStore)
      (search · (below.length + 1) (b :: input)) := by
  have hasChildren := range_lt_iff laid
  have turn := @round_eq_nodeRound set below pos stop b input inside 0
  simp only [PathMatcherSet.nodeRound, node_eq located, isGroup] at turn
  have fewer := length_filterMap_le (leave · (b :: input)) (set.options start last)
  have cases := @groupRound_cases range (⟨b :: input, pos + 1, stop, 0⟩ :: below) (b :: input)
    (set.options start last).reverse [] (.group start last) temp.isTerminal
  have shorter : ∀ next ∈ (set.options start last).filterMap (leave · (b :: input)),
      next.length + set.groupSpans.length + 2 ≤ most := by
    intro next member
    obtain ⟨option, -, left⟩ := mem_filterMap.mp member
    have cut := length_le_of_leave left
    omega
  have searched (rest : List Tok) : search (set.resolve temp.token :: rest) (below.length + 1)
      (b :: input) =
        let tails := (set.options start last).filterMap (leave · (b :: input))
        if rest = [] then if [] ∈ tails then .found else .left
        else if tails ≠ [] ∧ below.length + 1 + tails.length > maxStackDepth then .full
        else tryFrames (search rest) (below.length + 1) tails := by
    rw [isGroup, Store.resolve, search]
    simp [Tok.isDeep, Tok.nexts, Tok.tryTails]
  simp only [filterMap_reverse, mem_reverse, length_reverse, length_cons, length_nil, Nat.add_zero,
    ne_eq, reverse_eq_nil_iff, map_reverse, reverse_reverse, append_nil] at cases
  generalize (set.options start last).filterMap (leave · (b :: input)) = tails at *
  rcases cases with ⟨isDone, inTails, terminal⟩ | ⟨isDone, nonempty, some, high⟩ |
    ⟨isNext, notEnded, room⟩
  · exact .stop (turn.trans isDone)
      ⟨_, ⟨[], rfl, Or.inl ⟨rfl, terminal⟩⟩, by simp [searched, inTails]⟩ (Nat.le_add_right _ _)
  · obtain ⟨child, member⟩ := exists_mem_of_ne_nil _ (hasChildren.mp nonempty)
    obtain ⟨rest, lists⟩ := alive.exists_lists set.toStore child member
    have listed := listed_iff.mpr ⟨child, member, lists⟩
    exact .full (turn.trans isDone) (cons_ne_nil _ _)
      ⟨_, ⟨_, rfl, Or.inr listed⟩, by simp [searched, some, high]⟩ (Nat.le_add_right _ _)
  · have moved := turn.trans isNext
    have lastLeft : temp.isTerminal = true →
        search [set.resolve temp.token] (below.length + 1) (b :: input) = .left := by
      intro terminal
      simp [searched, show [] ∉ tails from fun inTails => notEnded ⟨inTails, terminal⟩]
    by_cases childless : temp.children = []
    · rw [if_neg (by simpa [hasChildren] using childless)] at moved
      refine .pass moved ?_ (Nat.le_add_right _ _)
      rintro tokens ⟨rest, rfl, ⟨rfl, terminal⟩ | listed⟩
      · exact lastLeft terminal
      · simp [childless] at listed
    · have nonempty := hasChildren.mpr childless
      rw [if_pos nonempty] at moved
      have worked := @frames_work set temp range (⟨b :: input, pos + 1, stop, 0⟩ :: below)
        childTurns most tails children shorter
      refine .step moved (worked.lists_below (Nat.mul_le_mul_right childTurns fewer)
        (fun rest listed => ?_) lastLeft)
      rw [searched]
      have fits := room nonempty
      grind [listed.ne_nil]

theorem node_works :
    Works set (⟨b :: input, pos, stop, 0⟩ :: below) (most * (1 + childTurns))
      (⟨b :: input, pos + 1, stop, 0⟩ :: below) (temp.Lists set.toStore)
      (search · (below.length + 1) (b :: input)) := by
  have enough : ∀ tails, tails + 1 ≤ most →
      tails * (1 + childTurns) + 1 ≤ most * (1 + childTurns) := by
    intro tails few
    have product := Nat.mul_le_mul_right (1 + childTurns) few
    rw [Nat.add_mul] at product
    omega
  have single : 1 + childTurns ≤ most * (1 + childTurns) := Nat.le_mul_of_pos_left _ (by omega)
  have turn := @round_eq_nodeRound set below pos stop b input inside 0
  simp only [PathMatcherSet.nodeRound, node_eq located] at turn
  cases isToken : temp.token with
  | literal start last =>
    simp only [isToken] at turn
    refine Works.imp (@single_works set temp range below most childTurns b input laid alive children
      small (leave (set.slice start last) (b :: input)) _ (⟨b :: input, pos + 1, stop, 0⟩ :: below)
      (fun next => length_le_of_leave) (by simp [isToken, Store.resolve, Tok.isDeep])
      (by simp [isToken, Store.resolve]) (by simp [isToken, Store.resolve, Tok.nexts]) ?_)
      single fun _ sees => sees
    rw [turn, isToken]
    unfold leave
    split <;> rfl
  | wildcard =>
    have tails := length_segmentTails (b :: input)
    have works := wildcard_works laid alive children small located inside below isToken
    refine (works.imp (enough _ (by omega)) fun _ sees => sees).lists fun rest _ => ?_
    rw [isToken, Store.resolve, search_eq_tryEach (by simp [Tok.isDeep]) (by simp), Tok.nexts]
  | deepWildcard | deepWildcardDir =>
    cases terminal : temp.isTerminal with
    | true =>
      rw [terminal] at turn
      simp only [isToken, if_true] at turn
      refine .stop turn ⟨_, ⟨[], rfl, Or.inl ⟨rfl, terminal⟩⟩, ?_⟩ (by omega)
      simp [isToken, Store.resolve, search, Tok.isDeep]
    | false =>
      have tails := length_afterSlashes (b :: input)
      have works := deep_works laid alive children small located inside below (by simp [isToken])
        terminal
      refine works.lists_below (enough _ (by omega)) (fun rest listed => ?_) (by simp [terminal])
      rw [isToken, Store.resolve, search_eq_tryEach (fun _ => listed.ne_nil) (by simp), Tok.nexts]
  | anyChar =>
    simp only [isToken] at turn
    exact (char_works laid alive children small (⟨b :: input, pos + 1, stop, 0⟩ :: below)
      (decide (b ≠ slash)) (by simp [isToken, Store.resolve, Tok.isDeep])
      (by simp [isToken, Store.resolve]) (by simp [isToken, Store.resolve, Tok.nexts])
      (by simpa [isToken] using turn)).imp single fun _ sees => sees
  | charClass bitmap negated =>
    simp only [isToken] at turn
    exact (char_works laid alive children small (⟨b :: input, pos + 1, stop, 0⟩ :: below)
      (testBit bitmap b != negated) (by simp [isToken, Store.resolve, Tok.isDeep])
      (by simp [isToken, Store.resolve]) (by simp [isToken, Store.resolve, Tok.nexts])
      (by simpa [isToken] using turn)).imp single fun _ sees => sees
  | group start last =>
    have options : (set.options start last).length ≤ set.groupSpans.length := by
      simp only [Store.options, length_map, length_take, length_drop]
      omega
    refine (group_works laid alive children small located inside isToken).imp ?_ fun _ sees => sees
    have bound := enough (set.options start last).length (by omega)
    have expand := Nat.mul_add (set.options start last).length 1 childTurns
    omega

end Nodes

theorem acceptsEnd_iff {set : PathMatcherSet} {level : List Temp} {temp : Temp}
    (working : Working set level) (member : temp ∈ level) (range : Nat × Nat) (height : Nat) :
    set.acceptsEnd ⟨temp.token, range, temp.isTerminal⟩ = true ↔
      ∃ tokens, temp.Lists set.toStore tokens ∧ search tokens height [] = .found := by
  obtain ⟨rest, lists⟩ := working.through member
  have searched (rest : List Tok) : search (set.resolve temp.token :: rest) height [] = .found ↔
      (set.resolve temp.token).isDeep = true ∨ set.resolve temp.token = .wildcard ∧ rest = [] := by
    rw [search]
    split <;> simp_all
  have accepts : (∃ tokens, temp.Lists set.toStore tokens ∧ search tokens height [] = .found) ↔
      (set.resolve temp.token).isDeep = true ∨
        set.resolve temp.token = .wildcard ∧ temp.isTerminal = true := by
    constructor
    · rintro ⟨tokens, ⟨rest, rfl, ending⟩, found⟩
      rcases (searched rest).mp found with deep | ⟨isWildcard, rfl⟩
      · exact Or.inl deep
      · exact Or.inr ⟨isWildcard, ending.elim And.right fun listed => absurd rfl listed.ne_nil⟩
    · rintro (deep | ⟨isWildcard, terminal⟩)
      · exact ⟨_, lists, (searched rest).mpr (Or.inl deep)⟩
      · exact ⟨_, ⟨[], rfl, Or.inl ⟨rfl, terminal⟩⟩, (searched []).mpr (Or.inr ⟨isWildcard, rfl⟩)⟩
  rw [accepts]
  have proper := working.proper _ (listed_iff.mpr ⟨temp, member, lists⟩) _ mem_cons_self
  unfold PathMatcherSet.acceptsEnd
  cases isToken : temp.token with
  | group start stop =>
    rw [isToken] at proper
    simp only [Store.resolve, Tok.isDeep, Bool.false_eq_true, reduceCtorEq,
      false_and, or_self, iff_false, Bool.and_eq_true, any_eq_true,
      beq_iff_eq, not_and]
    rintro - ⟨span, inSpans, empty⟩
    apply proper
    refine mem_map.mpr ⟨span, inSpans, ?_⟩
    simp [Store.slice, empty]
  | _ => simp [Store.resolve, Tok.isDeep]

/-- At the end of the input one turn tells whether the level accepts it. -/
theorem end_works {set : PathMatcherSet} {turns : Nat} {level : List Temp} {pos : Nat}
    {below : List MatchFrame} (laid : LaidAt set.nodes pos level) (working : Working set level)
    (some : 1 ≤ turns) (height : Nat) :
    Works set (⟨[], pos, pos + level.length, 0⟩ :: below) turns below
      (Listed set.toStore level) (search · height []) := by
  have ended : ((List.range' pos (pos + level.length - pos)).any
      fun idx => set.acceptsEnd (set.node idx)) = true ↔
        ∃ tokens, Listed set.toStore level tokens ∧ search tokens height [] = .found := by
    rw [any_eq_true]
    constructor
    · rintro ⟨idx, inRange, accepted⟩
      rw [mem_range'_1] at inRange
      have inside : idx - pos < level.length := by omega
      have member := getElem_mem inside
      obtain ⟨range, located, -⟩ := laid (idx - pos) _ (List.getElem?_eq_getElem inside)
      rw [show pos + (idx - pos) = idx from by omega] at located
      rw [node_eq located] at accepted
      obtain ⟨tokens, lists, found⟩ := (acceptsEnd_iff working member range height).mp accepted
      exact ⟨tokens, listed_iff.mpr ⟨_, member, lists⟩, found⟩
    · rintro ⟨tokens, listed, found⟩
      obtain ⟨node, member, lists⟩ := listed_iff.mp listed
      obtain ⟨i, inside, rfl⟩ := getElem_of_mem member
      obtain ⟨range, located, -⟩ := laid i _ (List.getElem?_eq_getElem inside)
      refine ⟨pos + i, ?_, ?_⟩
      · simp_all
      · rw [node_eq located]
        exact (acceptsEnd_iff working member range height).mpr ⟨tokens, lists, found⟩
  by_cases accepted : ∃ tokens, Listed set.toStore level tokens ∧ search tokens height [] = .found
  · refine .stop ?_ accepted some
    simp only [PathMatcherSet.round, isEmpty_nil, if_true, ended.mpr accepted]
  · refine .pass ?_ (fun tokens listed => ?_) some
    · have notEnded := mt ended.mp accepted
      simp only [PathMatcherSet.round, isEmpty_nil, if_true, notEnded, if_false, Bool.false_eq_true]
    · have notFound : search tokens height [] ≠ .found :=
        fun found => accepted ⟨tokens, listed, found⟩
      cases tokens with
      | nil => rfl
      | cons tok rest => grind [search]

/-- A frame on top of the stack is worked off as the searches for the lists of its level. -/
theorem level_works (set : PathMatcherSet) (most : Nat) (level : List Temp) :
    ∀ (pos : Nat) (input : Bytes) (below : List MatchFrame),
      LaidAt set.nodes pos level → Working set level →
      input.length + set.groupSpans.length + 2 ≤ most →
      Works set (⟨input, pos, pos + level.length, 0⟩ :: below) (levelWork most level) below
        (Listed set.toStore level) (search · (below.length + 1) input) := by
  induction level using level_induction with
  | nil =>
    intro pos input below laid working fits
    cases input with
    | nil => exact end_works laid working (levelWork_pos most _) _
    | cons b input => exact .pass (by simp [PathMatcherSet.round]) (by simp) (Nat.le_refl _)
  | cons temp rest childrenWork restWorks =>
    intro pos input below laid working fits
    cases input with
    | nil => exact end_works laid working (levelWork_pos most _) _
    | cons b input =>
      obtain ⟨range, located, laidChildren⟩ := laid.head
      obtain ⟨childrenAt, stop⟩ := laidChildren.laidAt
      have children : ChildrenWork set temp range most (levelWork most temp.children) := by
        intro next stack nextFits
        have below := childrenWork range.1 next stack childrenAt working.children nextFits
        rwa [← stop] at below
      have works := @node_works set temp range below most (levelWork most temp.children) pos
        (pos + (temp :: rest).length) b input laidChildren working.children.alive children fits
        located (by rw [length_cons]; omega)
      have more := restWorks (pos + 1) (b :: input) below laid.tail working.tail fits
      rw [show pos + 1 + rest.length = pos + (temp :: rest).length from
        by rw [length_cons]; omega] at more
      rw [levelWork, temp.work_eq]
      refine (works.either more).imp (Nat.le_refl _) fun verdict => ?_
      have listed (tokens : List Tok) : Listed set.toStore (temp :: rest) tokens ↔
          temp.Lists set.toStore tokens ∨ Listed set.toStore rest tokens := by
        simp [listed_iff]
      cases verdict <;> simp only [Sees, listed, imp_self]

end Ophan.Glob
