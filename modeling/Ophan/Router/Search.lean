import Ophan.Router.Removal

/-!
# The lookup as a recursive search

`at` is a loop with a stack of skipped nodes.  `search` is the recursion it
stands for: a node is searched in its static child first and behind its
wildcard child when that fails.  The loop gives the answer of the search, and
the number of its rounds is at most twice the number of nodes.
-/

namespace Ophan.Router

open List

universe u

variable {T : Type u}

/-- What a search found: the value and the names stored beside it, the values
of the parameters on the way, and the last parameter of a catch-all. -/
structure Found (T : Type u) where
  value : T
  names : ParamRemapping
  values : List Bytes
  last : Option Param

def Found.behind (value : Bytes) (found : Found T) : Found T :=
  { found with values := value :: found.values }

namespace Node

/-! ## The search -/

section Search

variable (descend : Node T → Bytes → Option (Found T))

def answer (node : Node T) (values : List Bytes) (last : Option Param) : Option (Found T) :=
  node.value.map fun value =>
    { value := value, names := node.remapping, values := values, last := last }

def searchParam (node : Node T) (path : Bytes) : Option (Found T) :=
  match path.findIdx? (· = slash) with
  | some 0 => none
  | some i =>
    match node.children with
    | [child] => (descend child (path.drop i)).map (Found.behind (path.take i))
    | _ => none
  | none => node.answer [path] none

/-- The search at a parameter with suffixes: behind the first suffix that
fits. -/
def searchSuffix (node : Node T) (path : Bytes) : Option (Found T) :=
  if path.findIdx? (· = slash) = some 0 then
    none
  else
    let terminator := terminatorOf path
    match node.children.find? (fitsSuffix (path.take terminator)) with
    | some child =>
      let start := terminator - child.pfx.inner.length
      (descend child (path.drop start)).map (Found.behind ((path.take terminator).take start))
    | none =>
      if (path.findIdx? (· = slash)).isNone then node.answer [path] none
      else none

def catchAllName (node : Node T) : Bytes :=
  (node.pfx.inner.take (node.pfx.inner.length - 1)).drop 2

def searchWild (node : Node T) (path : Bytes) : Option (Found T) :=
  if node.wildChild then
    match node.children.getLast? with
    | none => none
    | some wild =>
      match wild.nodeType with
      | .param false => searchParam descend wild path
      | .param true => searchSuffix descend wild path
      | .catchAll => wild.answer [] (some { key := wild.catchAllName, value := path })
      | _ => none
  else
    none

def searchStatic (node : Node T) (path : Bytes) : Option (Found T) :=
  match node.indices.findIdx? (path.head? = some ·) with
  | some i =>
    match node.children[i]? with
    | some child => descend child path
    | none => none
  | none => none

def searchNode (node : Node T) (path : Bytes) : Option (Found T) :=
  if path.length ≤ node.pfx.inner.length then
    if path = node.pfx.inner then node.answer [] none else none
  else if path.take node.pfx.inner.length ≠ node.pfx.inner then
    none
  else
    let rest := path.drop node.pfx.inner.length
    (searchStatic descend node rest).or (searchWild descend node rest)

end Search

def search : Nat → Node T → Bytes → Option (Found T)
  | 0, _, _ => none
  | rounds + 1, node, path => searchNode (search rounds) node path

/-! ## What the loop returns -/

def answerOf (result : Outcome MatchError (T × Params)) : Outcome MatchError (T × List Param) :=
  result.map fun answer => (answer.1, answer.2.toList)

/-- The answer for what was found behind some parameters: the keys are taken
from the stored names. -/
def finish (params : List Param) (found : Found T) : Outcome MatchError (T × List Param) :=
  match renameKeys found.names
      (params ++ found.values.map fun value => { key := [], value := value })
    with
  | some renamed => .ok (found.value, renamed ++ found.last.toList)
  | none => .panic

variable {node child : Node T} {params : Params}

theorem answerOf_found {value : T} :
    answerOf (node.found value params) =
      finish params.toList
        { value := value, names := node.remapping, values := [],
          last := none } := by
  have renamed := params.forEachKeyMut_toList node.remapping
  simp only [found, finish, map_nil, append_nil, ← renamed]
  cases params.forEachKeyMut node.remapping with
  | none => rfl
  | some keys => simp [answerOf, Outcome.map]

def resume (rounds : Nat) (path : Bytes) (params : Params)
    (skipped : List (Skipped T)) : Outcome MatchError (T × Params) :=
  match popSkipped path skipped with
  | none => .err .notFound
  | some (last, skipped) =>
    atLoop rounds
      { node := last.node
        path := last.path
        backtracking := true
        params := params.truncate last.params
        skipped := skipped }

def proceed (params : Params) (rounds : Nat) : Walked T → Outcome MatchError (T × Params)
  | .next state => atLoop rounds state
  | .done result => result
  | .stop path skipped => resume rounds path params skipped

theorem atLoop_succ (rounds : Nat) (state : AtState T) :
    atLoop (rounds + 1) state = proceed state.params rounds (atRound state) := by
  rw [atLoop]
  cases atRound state <;> rfl

/-- A run gives the answer of a search after `k` rounds, or goes back to the
last skipped node with no more than the end of the path and with parameters
pushed behind the given ones. -/
def Runs (path : Bytes) (params : Params) (skipped : List (Skipped T))
    (k : Nat) (run : Nat → Outcome MatchError (T × Params)) :
    Option (Found T) → Prop
  | some found => ∀ rounds, answerOf (run (rounds + k)) = finish params.toList found
  | none =>
    ∃ path' params',
      path' <:+ path ∧ params'.Valid ∧
      params.toList <+: params'.toList ∧
      ∀ rounds, run (rounds + k) = resume rounds path' params' skipped

variable {path : Bytes} {skipped : List (Skipped T)}
  {run : Nat → Outcome MatchError (T × Params)}

theorem Runs.stop (valid : params.Valid)
    (stops : ∀ rounds, run rounds = resume rounds path params skipped) :
    Runs path params skipped 0 run none :=
  ⟨path, params, suffix_refl _, valid, prefix_refl _, stops⟩

variable {k : Nat} {result : Option (Found T)}

theorem Runs.later {j : Nat} {later : Nat → Outcome MatchError (T × Params)}
    (leads : ∀ rounds, run (rounds + j) = later rounds)
    (runs : Runs path params skipped k later result) :
    Runs path params skipped (k + j) run result := by
  cases result with
  | some found =>
    intro rounds
    rw [← Nat.add_assoc, leads]
    exact runs rounds
  | none =>
    obtain ⟨path', params', ends, valid, behind, resumes⟩ := runs
    refine ⟨path', params', ends, valid, behind, ?_⟩
    grind

theorem Runs.round {state : AtState T} (runs :
      Runs path params skipped k
        (fun rounds => proceed state.params rounds (atRound state)) result) :
    Runs path params skipped (k + 1) (fun rounds => atLoop rounds state)
      result :=
  Runs.later (fun rounds => atLoop_succ rounds state) runs

theorem Runs.behind {rest : Bytes} {value : Bytes} (valid : params.Valid) (ends : rest <:+ path)
    (runs : Runs rest (params.push [] value) skipped k run result) :
    Runs path params skipped k run (result.map (Found.behind value)) := by
  cases result with
  | some found =>
    intro rounds
    simpa [finish, Found.behind, Params.toList_push valid] using runs rounds
  | none =>
    obtain ⟨path', params', later, valid', behind, resumes⟩ := runs
    refine ⟨path', params', later.trans ends, valid', ?_, resumes⟩
    rw [Params.toList_push valid] at behind
    exact (prefix_append _ _).trans behind

theorem Runs.shorter {rest : Bytes} (ends : rest <:+ path)
    (runs : Runs rest params skipped k run result) :
    Runs path params skipped k run result := by
  cases result with
  | some found => exact runs
  | none =>
    obtain ⟨path', params', later, valid, behind, resumes⟩ := runs
    exact ⟨path', params', later.trans ends, valid, behind, resumes⟩

theorem Runs.congr {other : Params} (same : other.toList = params.toList)
    (runs : Runs path other skipped k run result) :
    Runs path params skipped k run result := by
  cases result with
  | some found =>
    intro rounds
    rw [← same]
    exact runs rounds
  | none =>
    obtain ⟨path', params', ends, valid, behind, resumes⟩ := runs
    exact ⟨path', params', ends, valid, same ▸ behind, resumes⟩

theorem Runs.answer (valid : params.Valid)
    (answers : ∀ value, node.value = some value → ∀ rounds, run rounds = node.found value params)
    (stops : node.value = none → ∀ rounds, run rounds = resume rounds path params skipped) :
    Runs path params skipped 0 run (node.answer [] none) := by
  rw [Node.answer]
  cases stored : node.value with
  | none => exact Runs.stop valid (stops stored)
  | some value =>
    intro rounds
    rw [answers value stored, answerOf_found]

/-! ## Levels and nodes -/

theorem height_eq (node : Node T) : node.height = heightOfList node.children + 1 := by
  obtain ⟨pfx, priority, wildChild, indices, nodeType, children, value, remapping⟩ := node
  rw [height]

theorem height_le_heightOfList {children : List (Node T)}
    (member : child ∈ children) : child.height ≤ heightOfList children := by
  induction children with
  | nil => cases member
  | cons first rest ih =>
    rw [heightOfList]
    rcases mem_cons.mp member with rfl | inside
    · exact Nat.le_max_left _ _
    · exact (ih inside).trans (Nat.le_max_right _ _)

theorem height_lt (member : child ∈ node.children) : child.height < node.height := by
  rw [height_eq node]
  exact Nat.lt_succ_of_le (height_le_heightOfList member)

theorem size_eq (node : Node T) : node.size = sizeOfList node.children + 1 := by
  obtain ⟨pfx, priority, wildChild, indices, nodeType, children, value, remapping⟩ := node
  rw [size]

theorem sizeOfList_append (first second : List (Node T)) :
    sizeOfList (first ++ second) = sizeOfList first + sizeOfList second := by
  induction first with
  | nil => simp [sizeOfList]
  | cons node rest ih =>
    rw [cons_append, sizeOfList, sizeOfList, ih]
    omega

theorem size_le_sizeOfList {children : List (Node T)}
    (member : child ∈ children) : child.size ≤ sizeOfList children := by
  obtain ⟨front, back, rfl⟩ := append_of_mem member
  rw [sizeOfList_append, sizeOfList]
  omega

/-! ## The loop runs the search -/

/-- The loop runs a search from every state that visits the node for the first
time. -/
def Visited (descend : Node T → Bytes → Option (Found T)) (node : Node T) : Prop :=
  ∀ (path : Bytes) (params : Params) (skipped : List (Skipped T)),
    params.Valid →
    ∃ k ≤ 2 * node.size,
      Runs path params skipped k
        (fun rounds =>
          atLoop rounds
            { node := node, path := path, backtracking := false,
              params := params, skipped := skipped })
        (descend node path)

section Visit

variable {descend : Node T → Bytes → Option (Found T)}

variable {node : Node T} {state : AtState T}

/-- The loop goes on from a step at the state to a result, within some rounds. -/
def Walks (state : AtState T) (bound : Nat) (walked : Walked T) (result : Option (Found T)) :
    Prop :=
  ∃ k ≤ bound, Runs state.path state.params state.skipped k
    (fun rounds => proceed state.params rounds walked) result

section Steps

variable (valid : state.params.Valid)

include valid

theorem Walks.stop (bound : Nat) : Walks state bound (.stop state.path state.skipped) none :=
  ⟨0, Nat.zero_le _, Runs.stop valid fun _ => rfl⟩

/-- The rest of the path is the value of the last parameter. -/
theorem Walks.value {value : T} (stored : node.value = some value) (bound : Nat) :
    Walks state bound (.done (node.found value (state.params.push [] state.path)))
      (node.answer [state.path] none) := by
  rw [answer, stored]
  refine ⟨0, Nat.zero_le _, fun rounds => ?_⟩
  simp only [proceed]
  rw [answerOf_found, Params.toList_push valid]
  simp [finish]

theorem Walks.enter {bound : Nat} (visited : Visited descend child) (small : 2 * child.size ≤ bound)
    (start : Nat) (value : Bytes) :
    Walks state bound
      (.next ⟨child, state.path.drop start, false, state.params.push [] value, state.skipped⟩)
      ((descend child (state.path.drop start)).map (Found.behind value)) := by
  obtain ⟨k, isLe, runs⟩ := visited _ _ state.skipped (Params.push_valid valid [] value)
  exact ⟨k, isLe.trans small, runs.behind valid (drop_suffix _ _)⟩

theorem atParam_walks (visited : ∀ child ∈ node.children, Visited descend child) :
    Walks state (2 * sizeOfList node.children) (node.atParam state)
      (searchParam descend node state.path) := by
  simp only [atParam, searchParam]
  cases state.path.findIdx? fun b => decide (b = slash) with
  | none =>
    cases stored : node.value with
    | none =>
      rw [answer, stored]
      exact Walks.stop valid _
    | some value => exact Walks.value valid stored _
  | some i =>
    cases i with
    | zero => exact Walks.stop valid _
    | succ i =>
      rcases children : node.children with _ | ⟨child, _ | _⟩
      · exact Walks.stop valid _
      · exact Walks.enter valid (visited child (by simp [children])) (by simp [sizeOfList]) _ _
      · exact Walks.stop valid _

theorem atSuffix_walks (visited : ∀ child ∈ node.children, Visited descend child) :
    Walks state (2 * sizeOfList node.children) (node.atSuffix state)
      (searchSuffix descend node state.path) := by
  simp only [atSuffix, searchSuffix]
  split
  · exact Walks.stop valid _
  · cases fitting :
        node.children.find? (fitsSuffix (state.path.take (terminatorOf state.path))) with
    | some child =>
      have member := mem_of_find?_eq_some fitting
      have small := Nat.mul_le_mul_left 2 (size_le_sizeOfList member)
      exact Walks.enter valid (visited child member) small _ _
    | none =>
      cases stored : node.value with
      | none =>
        simp only [answer, stored, Option.map_none, ite_self]
        exact Walks.stop valid _
      | some value =>
        simp only
        split
        · exact Walks.value valid stored _
        · exact Walks.stop valid _

theorem atCatchAll_walks (stored : node.value ≠ none) (bound : Nat) :
    Walks state bound (node.atCatchAll state)
      (node.answer [] (some { key := node.catchAllName, value := state.path })) := by
  obtain ⟨value, isStored⟩ := Option.ne_none_iff_exists'.mp stored
  have renamed := state.params.forEachKeyMut_toList node.remapping
  simp only [atCatchAll, answer, isStored, Option.map_some]
  refine ⟨0, Nat.zero_le _, fun rounds => ?_⟩
  simp only [finish, map_nil, append_nil, ← renamed]
  cases keys : state.params.forEachKeyMut node.remapping with
  | none => rfl
  | some params =>
    have stillValid := Params.forEachKeyMut_valid valid keys
    simp [proceed, answerOf, Outcome.map, Params.toList_push stillValid, catchAllName]

end Steps

/-- The round that continues at the wildcard child of a node. -/
theorem atWildcard_walks {statics wilds : List (Node T)} (state : AtState T)
    (valid : state.params.Valid) (shaped : WellShaped node) (forked : Forked node statics wilds)
    (visited : ∀ wild ∈ wilds, ∀ child ∈ wild.children, Visited descend child) :
    Walks state (2 * sizeOfList wilds) (node.atWildcard state)
      (searchWild descend node state.path) := by
  simp only [atWildcard, searchWild]
  cases flag : node.wildChild with
  | false => exact Walks.stop valid _
  | true =>
    obtain ⟨wild, rfl, last⟩ := forked.only flag
    have member : wild ∈ node.children := mem_of_getLast? last
    have isWild := forked.wild wild (by simp)
    have below := visited wild (by simp)
    have bounded : 2 * sizeOfList wild.children ≤ 2 * sizeOfList [wild] := by
      rw [sizeOfList, size_eq]
      omega
    simp only [Bool.not_true, Bool.false_eq_true, if_false, if_true, last]
    cases (shaped.child member).here with
    | static notWild => simp [isWild] at notWild
    | @param hasSuffix c isParam =>
      simp only [isParam]
      cases hasSuffix with
      | false =>
        obtain ⟨k, bound, runs⟩ := atParam_walks valid below
        exact ⟨k, bound.trans bounded, runs⟩
      | true =>
        obtain ⟨k, bound, runs⟩ := atSuffix_walks valid below
        exact ⟨k, bound.trans bounded, runs⟩
    | catchAll isCatchAll _ _ _ _ _ stored =>
      simp only [isCatchAll]
      exact atCatchAll_walks valid stored _

variable {path rest : Bytes} {skipped : List (Skipped T)}

theorem popSkipped_cons {skip : Skipped T} (ends : path <:+ skip.path) :
    popSkipped path (skip :: skipped) = some (skip, skipped) := by
  rw [popSkipped, if_pos (isSuffixOf_iff_suffix.mpr ends)]

variable {params : Params}

/-- A round behind the prefix of a node. -/
theorem atRound_behind {backtracking : Bool}
    (cut : path = node.pfx.inner ++ rest) (nonempty : rest ≠ []) :
    atRound ⟨node, path, backtracking, params, skipped⟩ =
      node.atChildren ⟨node, path, backtracking, params, skipped⟩ rest := by
  have longer : ¬ path.length ≤ node.pfx.inner.length := by
    have positive := length_pos_of_ne_nil nonempty
    rw [cut, length_append]
    omega
  have samePrefix : path.take node.pfx.inner.length = node.pfx.inner := by rw [cut, take_left]
  have isRest : path.drop node.pfx.inner.length = rest := by rw [cut, drop_left]
  simp [atRound, longer, samePrefix, isRest]

/-- Going back to a node after its static child was searched in vain. -/
theorem goBack_runs {params' : Params} {k : Nat} {result : Option (Found T)}
    (cut : path = node.pfx.inner ++ rest) (nonempty : rest ≠ [])
    (valid : params.Valid) (behind : params.toList <+: params'.toList) (runs :
      Runs rest (params'.truncate params.len) skipped k
        (fun rounds =>
          proceed (params'.truncate params.len) rounds
            (node.atWildcard ⟨node, rest, true, params'.truncate params.len, skipped⟩))
        result) :
    Runs path params skipped (k + 1)
      (fun rounds => atLoop rounds ⟨node, path, true, params'.truncate params.len, skipped⟩)
      result := by
  have within : params.len ≤ params'.toList.length := by
    rw [Params.len_eq valid]
    exact behind.length_le
  have sameList : (params'.truncate params.len).toList = params.toList := by
    rw [Params.toList_truncate within, Params.len_eq valid]
    exact (prefix_iff_eq_take.mp behind).symm
  have ends : rest <:+ path := by simp_all
  apply Runs.congr sameList
  apply Runs.round
  rw [atRound_behind cut nonempty]
  simp only [atChildren, if_true]
  exact runs.shorter ends

/-- The loop behind the prefix of a node: its static child first, then its
wildcard child. -/
theorem behindPrefix_runs {statics wilds : List (Node T)}
    (shaped : WellShaped node) (forked : Forked node statics wilds)
    (cut : path = node.pfx.inner ++ rest) (nonempty : rest ≠ []) (valid : params.Valid)
    (visitedStatic : ∀ child ∈ statics, Visited descend child)
    (visitedBelow : ∀ wild ∈ wilds, ∀ child ∈ wild.children, Visited descend child) :
    ∃ k ≤ 2 * node.size,
      Runs path params skipped k (fun rounds => atLoop rounds ⟨node, path, false, params, skipped⟩)
        ((searchStatic descend node rest).or (searchWild descend node rest)) := by
  have sizes : node.size = sizeOfList statics + sizeOfList wilds + 1 := by
    rw [size_eq, forked.children, sizeOfList_append]
  have ends : rest <:+ path := by simp_all
  cases index : node.indices.findIdx? fun c => decide (rest.head? = some c) with
  | none =>
    have noStatic : searchStatic descend node rest = none := by simp only [searchStatic, index]
    obtain ⟨k, bound, runs⟩ :=
      atWildcard_walks ⟨node, rest, false, params, skipped⟩ valid shaped forked visitedBelow
    rw [noStatic, Option.none_or]
    refine ⟨k + 1, by omega, Runs.round ?_⟩
    rw [atRound_behind cut nonempty]
    simp only [atChildren, Bool.false_eq_true, if_false, index]
    exact runs.shorter ends
  | some i =>
    obtain ⟨child, member, located⟩ := forked.indexed (List.findIdx?_eq_some_iff_getElem.mp index).1
    have small := size_le_sizeOfList member
    have static : searchStatic descend node rest = descend child rest := by
      simp only [searchStatic, index, located]
    obtain ⟨k, bound, runs⟩ := visitedStatic child member rest params
      (if node.wildChild then ⟨node, path, params.len⟩ :: skipped else skipped) valid
    have first (rounds : Nat) :
        atLoop (rounds + 1) ⟨node, path, false, params, skipped⟩ =
          atLoop rounds ⟨child, rest, false, params,
            if node.wildChild then ⟨node, path, params.len⟩ :: skipped else skipped⟩ := by
      rw [atLoop_succ, atRound_behind cut nonempty]
      simp only [atChildren, Bool.false_eq_true, if_false, index, located]
      rfl
    rw [static]
    cases flag : node.wildChild with
    | false =>
      have noWild : searchWild descend node rest = none := by simp [searchWild, flag]
      simp only [flag, Bool.false_eq_true, if_false] at first runs
      rw [noWild, Option.or_none]
      exact ⟨k + 1, by omega, Runs.later first (runs.shorter ends)⟩
    | true =>
      simp only [flag, if_true] at first runs
      cases result : descend child rest with
      | some found =>
        rw [result] at runs
        exact ⟨k + 1, by omega, Runs.later first runs⟩
      | none =>
        rw [result] at runs
        obtain ⟨path', params', ends', valid', behind, resumes⟩ := runs
        have within : params.len ≤ params'.toList.length := by
          rw [Params.len_eq valid]
          exact behind.length_le
        obtain ⟨j, boundWild, runsWild⟩ :=
          atWildcard_walks ⟨node, rest, true, params'.truncate params.len, skipped⟩
            (Params.truncate_valid valid' within) shaped forked visitedBelow
        have back := goBack_runs cut nonempty valid behind runsWild
        rw [Option.none_or]
        refine ⟨j + 1 + (k + 1), by omega, Runs.later ?_ back⟩
        intro rounds
        rw [← Nat.add_assoc]
        refine (first _).trans ((resumes rounds).trans ?_)
        rw [resume, popSkipped_cons (ends'.trans ends)]

/-- The loop runs the search at every node. -/
theorem search_visited :
    ∀ (rounds : Nat) (node : Node T), node.height ≤ rounds →
      WellShaped node → node.isWild = false → Visited (search rounds) node
  | 0, node, low, _, _ => by
      rw [height_eq] at low
      omega
  | rounds + 1, node, low, shaped, notWild => by
      intro path params skipped valid
      obtain ⟨_, statics, wilds, forked⟩ := shaped.here.forked notWild
      have positive : 1 ≤ 2 * node.size := by
        rw [size_eq]
        omega
      have visitedStatic : ∀ child ∈ statics, Visited (search rounds) child := by
        intro child member
        have inside := forked.mem_iff.mpr (.inl member)
        have lower := height_lt inside
        exact search_visited rounds child (by omega) (shaped.child inside)
          (isWild_of_static (forked.static child member))
      have visitedBelow :
          ∀ wild ∈ wilds, ∀ child ∈ wild.children, Visited (search rounds) child := by
        intro wild wildMember child member
        have inside := forked.mem_iff.mpr (.inr wildMember)
        have lower := height_lt inside
        have lowest := height_lt member
        have wildShaped := shaped.child inside
        have static := wildShaped.here.static_below (forked.wild wild wildMember) member
        exact search_visited rounds child (by omega)
          (wildShaped.child member) (isWild_of_static static)
      rw [search]
      fun_cases searchNode (search rounds) node path with
      | case1 short same =>
        refine ⟨1, positive, Runs.round (Runs.answer valid ?_ ?_)⟩
        · intro value stored rounds
          simp [atRound, same, stored, proceed]
        · intro noValue rounds
          simp [atRound, same, noValue, proceed]
      | case2 short same =>
        refine ⟨1, positive, Runs.round (Runs.stop valid fun rounds => ?_)⟩
        simp [atRound, short, same, proceed]
      | case3 short differs =>
        refine ⟨1, positive, Runs.round (Runs.stop valid fun rounds => ?_)⟩
        simp [atRound, short, differs, proceed]
      | case4 short samePrefix =>
        have cut := prefix_iff_eq_append.mp (prefix_iff_eq_take.mpr (not_not.mp samePrefix).symm)
        have nonempty : path.drop node.pfx.inner.length ≠ [] := by simp_all
        exact behindPrefix_runs shaped forked cut.symm nonempty valid visitedStatic visitedBelow

/-- The lookup gives the answer of the search. -/
theorem atPath_eq_search {self : Node T} (rooted : Rooted self) (path : Bytes) :
    answerOf (self.atPath path) =
      match search self.height self path with
      | some found => finish [] found
      | none => .err .notFound := by
  obtain ⟨k, bound, runs⟩ :=
    search_visited self.height self (Nat.le_refl _) rooted.shaped
      rooted.notWild path Params.new [] Params.new_valid
  have enough : 2 * self.size = (2 * self.size - k) + k := by omega
  rw [atPath, enough]
  cases result : search self.height self path with
  | some found =>
    rw [result] at runs
    exact runs _
  | none =>
    rw [result] at runs
    obtain ⟨path', params', _, _, _, resumes⟩ := runs
    simp only [resumes]
    rfl

end Visit

end Node

end Ophan.Router
