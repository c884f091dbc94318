import Ophan.Router.Search

/-!
# Soundness of the lookup

What a lookup returns belongs to a stored route, and the values of the
parameters fill its pattern to the path.  `Accounts` follows a history of
calls and keeps the patterns that are live: inserted, and not removed since.
-/

namespace Ophan.Router

open List

universe u

variable {T : Type u}

/-! ## Filling a pattern -/

/-- The path that a pattern stands for with these parameters, if they are its
parameters in order, by name. -/
def fill : List Piece → List Param → Option Bytes
  | [], [] => some []
  | .byte b :: rest, params => (fill rest params).map (b :: ·)
  | .param name :: rest, param :: params =>
    if param.key = name then (fill rest params).map (param.value ++ ·)
    else none
  | .catchAll name :: rest, param :: params =>
    if param.key = name then (fill rest params).map (param.value ++ ·)
    else none
  | _, _ => none

/-- The path that tokens stand for with these values of the parameters and
this parameter for a catch-all at the end. -/
inductive Fills :
    List Token → List Bytes → Option Param → Bytes → Prop
  | nil : Fills [] [] none []
  | byte {b : UInt8} {rest : List Token} {values : List Bytes}
      {last : Option Param} {path : Bytes} :
      Fills rest values last path →
      Fills (.byte b :: rest) values last (b :: path)
  | param {value : Bytes} {rest : List Token}
      {values : List Bytes} {last : Option Param}
      {path : Bytes} :
      Fills rest values last path →
      Fills (.param :: rest) (value :: values) last (value ++ path)
  | catchAll {name value : Bytes} :
      Fills [.catchAll name] [] (some { key := name, value := value }) value

namespace Fills

variable {rest : List Token} {values : List Bytes}
variable {last : Option Param} {path : Bytes}

theorem bytes_append (bytes : Bytes) (fills : Fills rest values last path) :
    Fills (bytes.map Token.byte ++ rest) values last (bytes ++ path) := by
  induction bytes with
  | nil => exact fills
  | cons b tail ih => exact Fills.byte ih

theorem length_values (fills : Fills rest values last path) : values.length = paramCount rest := by
  induction fills with
  | nil | catchAll => rfl
  | byte _ ih => exact ih
  | param _ ih =>
    rw [length_cons, ih]
    rfl

/-- Filled tokens fill the pattern with its own names. -/
theorem fill_eq {pieces : List Piece} {renamed : List Param}
    (fills : Fills (tokens pieces) values last path) (named :
      renameKeys (paramNames pieces)
        (values.map fun value => { key := [], value := value }) = some renamed) :
    fill pieces (renamed ++ last.toList) = some path := by
  induction pieces generalizing values path renamed with
  | nil =>
    cases fills
    simp only [map_nil, renameKeys, Option.some.injEq] at named
    subst named
    rfl
  | cons piece pieces ih =>
    rw [tokens, map_cons] at fills
    cases piece with
    | byte b =>
      cases fills with
      | byte fills =>
        rw [fill, ih fills named]
        rfl
    | param name =>
      cases fills with
      | param fills =>
        simp only [paramNames, map_cons, renameKeys, Option.map_eq_some_iff] at named
        obtain ⟨tail, tailNamed, rfl⟩ := named
        rw [cons_append, fill, if_pos rfl, ih fills tailNamed]
        rfl
    | catchAll name =>
      generalize noMore : pieces.map Piece.token = rest at fills
      cases fills
      obtain rfl := map_eq_nil_iff.mp noMore
      simp only [paramNames, map_nil, renameKeys, Option.some.injEq] at named
      subst named
      simp [fill]

end Fills

theorem renameKeys_of_length :
    ∀ {names : ParamRemapping} {params : List Param},
      params.length ≤ names.length →
      ∃ renamed, renameKeys names params = some renamed
  | _, [], _ => ⟨[], by simp [renameKeys]⟩
  | [], _ :: _, tooLong => by simp at tooLong
  | name :: names, param :: params, enough => by
      have fewer : params.length ≤ names.length := by simpa using enough
      obtain ⟨renamed, tail⟩ := renameKeys_of_length fewer
      exact ⟨{ param with key := name } :: renamed, by simp [renameKeys, tail]⟩

namespace Node

/-! ## What a search finds -/

variable {node : Node T}

theorem mem_routes_own {value : T} (stored : node.value = some value) :
    { marks := node.pfx.marks, names := node.remapping, value := value } ∈
      node.routes := by
  rw [routes_eq, mem_map]
  refine ⟨{ marks := [], names := node.remapping, value := value }, ?_, ?_⟩
  · simp [inside, stored]
  · simp [Route.behind]

theorem mem_routes_child {child : Node T} {route : Route T}
    (member : child ∈ node.children) (inChild : route ∈ child.routes) :
    route.behind node.pfx.marks ∈ node.routes := by
  rw [routes_eq]
  apply mem_map_of_mem
  rw [inside]
  exact mem_append_right _ (mem_flatMap.mpr ⟨child, member, inChild⟩)

/-- What was found belongs to a route of the node, which it fills to the
path. -/
def Carries (node : Node T) (path : Bytes) (found : Found T) : Prop :=
  ∃ route ∈ node.routes, ∃ routeTokens,
    Reads route.marks routeTokens ∧
    route.value = found.value ∧ route.names = found.names ∧
    Fills routeTokens found.values found.last path

theorem carries_own {values : List Bytes}
    {last : Option Param} {found : Found T} {routeTokens : List Token}
    {path : Bytes} (result : node.answer values last = some found)
    (reads : Reads node.pfx.marks routeTokens) (fills : Fills routeTokens values last path) :
    Carries node path found := by
  simp only [answer, Option.map_eq_some_iff] at result
  obtain ⟨value, stored, rfl⟩ := result
  exact ⟨_, mem_routes_own stored, routeTokens, reads, rfl, rfl, fills⟩

theorem carries_child {child : Node T} {found : Found T}
    {path rest : Bytes} {label : List Token} (member : child ∈ node.children)
    (reads : Reads node.pfx.marks label) (carries : Carries child rest found) {more : Found T}
    (sameValue : more.value = found.value) (sameNames : more.names = found.names)
    (fills : ∀ routeTokens, Fills routeTokens found.values found.last rest →
      Fills (label ++ routeTokens) more.values more.last path) :
    Carries node path more := by
  obtain ⟨route, inChild, routeTokens, routeReads, value, names, filled⟩ := carries
  refine ⟨route.behind node.pfx.marks, mem_routes_child member inChild,
    label ++ routeTokens, reads.append routeReads, ?_, ?_,
    fills routeTokens filled⟩
  · rw [sameValue]
    exact value
  · rw [sameNames]
    exact names

def Finds (descend : Node T → Bytes → Option (Found T)) (node : Node T) : Prop :=
  ∀ (path : Bytes) (found : Found T), descend node path = some found → Carries node path found

section Finds

variable {descend : Node T → Bytes → Option (Found T)}

variable {wild : Node T} {c : UInt8} {path : Bytes} {found : Found T}

theorem carries_behindParam {child : Node T} {start : Nat} {value : Bytes}
    (letter : IsLetter c) (marks : wild.pfx.marks = letterMarks c)
    (member : child ∈ wild.children) (finds : Finds descend child)
    (isValue : value = path.take start) (result :
      (descend child (path.drop start)).map (Found.behind value) = some found) :
    Carries wild path found := by
  obtain ⟨below, belowFound, rfl⟩ := Option.map_eq_some_iff.mp result
  have reads : Reads wild.pfx.marks [.param] := by
    rw [marks]
    exact Reads.param letter Reads.nil
  apply carries_child member reads (finds _ _ belowFound) (by rfl) (by rfl)
  intro routeTokens fills
  have filled : Fills (.param :: routeTokens) (value :: below.values)
      below.last (value ++ path.drop start) := Fills.param fills
  rw [isValue, take_append_drop] at filled
  rw [isValue]
  exact filled

section

variable (letter : IsLetter c) (marks : wild.pfx.marks = letterMarks c)

include letter marks

theorem carries_param (result : wild.answer [path] none = some found) :
    Carries wild path found := by
  have reads : Reads wild.pfx.marks [.param] := by
    rw [marks]
    exact Reads.param letter Reads.nil
  apply carries_own result reads
  have filled : Fills [.param] [path] none (path ++ []) := Fills.param Fills.nil
  rwa [append_nil] at filled

theorem searchParam_carries (finds : ∀ child ∈ wild.children, Finds descend child)
    (result : searchParam descend wild path = some found) :
    Carries wild path found := by
  revert result
  fun_cases searchParam descend wild path <;> intro result
  case case2 child only =>
    have member : child ∈ wild.children := by simp_all
    exact carries_behindParam letter marks member (finds child member) rfl result
  case case4 => exact carries_param letter marks result
  all_goals cases result

theorem searchSuffix_carries (finds : ∀ child ∈ wild.children, Finds descend child)
    (result : searchSuffix descend wild path = some found) :
    Carries wild path found := by
  revert result
  fun_cases searchSuffix descend wild path <;> intro result
  case case2 child fitting _ =>
    have member := mem_of_find?_eq_some fitting
    apply carries_behindParam letter marks member (finds child member) _ result
    rw [take_take]
    congr 1
    omega
  case case3 => exact carries_param letter marks result
  all_goals cases result

end

theorem catchAllName_eq {flag : Bool} {name : List Mark}
    (marks : wild.pfx.marks = catchAllMarks flag name) :
    wild.catchAllName = name.map Prod.fst := by
  have bytes : wild.pfx.inner = ([openBrace, star] ++ name.map Prod.fst) ++ [closeBrace] := by
    rw [← wild.pfx.map_fst_marks, marks]
    simp [catchAllMarks]
  rw [catchAllName, bytes, length_append, length_singleton, Nat.add_sub_cancel, take_left]
  rfl

section

variable {node : Node T} {statics wilds : List (Node T)} (shaped : WellShaped node)
  (forked : Forked node statics wilds)

include shaped forked

theorem searchWild_carries (finds : ∀ wild ∈ wilds, ∀ child ∈ wild.children, Finds descend child)
    (result : searchWild descend node path = some found) :
    ∃ wild ∈ node.children, Carries wild path found := by
  simp only [searchWild] at result
  split at result
  · rename_i flagged
    obtain ⟨wild, rfl, last⟩ := forked.only flagged
    have member : wild ∈ node.children := mem_of_getLast? last
    rw [last] at result
    refine ⟨wild, member, ?_⟩
    cases (shaped.child member).here with
    | static notWild => simp [forked.wild wild (by simp)] at notWild
    | @param hasSuffix c isParam letter marks =>
      simp only [isParam] at result
      cases hasSuffix with
      | false => exact searchParam_carries letter marks (finds wild (by simp)) result
      | true => exact searchSuffix_carries letter marks (finds wild (by simp)) result
    | catchAll isCatchAll named marks =>
      simp only [isCatchAll, catchAllName_eq marks] at result
      refine carries_own result ?_ Fills.catchAll
      rw [marks]
      exact Reads.catchAll named Reads.nil
  · cases result

theorem searchNode_carries (plain : ∀ mark ∈ node.pfx.marks, Plain mark)
    (findsStatic : ∀ child ∈ statics, Finds descend child)
    (findsBelow : ∀ wild ∈ wilds, ∀ child ∈ wild.children, Finds descend child)
    (result : searchNode descend node path = some found) :
    Carries node path found := by
  have reads : Reads node.pfx.marks (node.pfx.inner.map Token.byte) := by
    have bytes :
        (node.pfx.marks.map fun mark => Token.byte mark.1) = node.pfx.inner.map Token.byte := by
      rw [← node.pfx.map_fst_marks, map_map]
      rfl
    rw [← bytes]
    exact Reads.of_plain plain
  revert result
  fun_cases searchNode descend node path <;> intro result
  case case1 _ same =>
    apply carries_own result reads
    have filled := Fills.nil.bytes_append node.pfx.inner
    rw [append_nil, append_nil] at filled
    rw [same]
    exact filled
  case case4 _ samePrefix _ =>
    have cut := prefix_iff_eq_append.mp (prefix_iff_eq_take.mpr (not_not.mp samePrefix).symm)
    have close :
        ∀ child ∈ node.children,
          Carries child (path.drop node.pfx.inner.length) found →
          Carries node path found := by
      intro child member carries
      apply carries_child member reads carries rfl rfl
      intro routeTokens fills
      have filled := fills.bytes_append node.pfx.inner
      rwa [cut] at filled
    rcases Option.or_eq_some_iff.mp result with static | ⟨_, wild⟩
    · simp only [searchStatic] at static
      split at static
      · rename_i i index
        obtain ⟨child, member, located⟩ :=
          forked.indexed (List.findIdx?_eq_some_iff_getElem.mp index).1
        rw [located] at static
        exact close child (mem_of_getElem? located) (findsStatic child member _ _ static)
      · cases static
    · obtain ⟨child, member, carries⟩ := searchWild_carries shaped forked findsBelow wild
      exact close child member carries
  all_goals cases result

end

end Finds

/-- The search finds only what the tree carries. -/
theorem search_finds :
    ∀ (rounds : Nat) (node : Node T),
      WellShaped node → node.isWild = false → Finds (search rounds) node
  | 0, _, _, _ => by
      intro path found result
      cases result
  | rounds + 1, node, shaped, notWild => by
      intro path found result
      obtain ⟨plain, statics, wilds, forked⟩ := shaped.here.forked notWild
      rw [search] at result
      apply searchNode_carries shaped forked plain _ _ result
      · intro child member
        exact search_finds rounds child (shaped.child (forked.mem_iff.mpr (.inl member)))
          (isWild_of_static (forked.static child member))
      · intro wild wildMember child member
        have wildShaped := shaped.child (forked.mem_iff.mpr (.inr wildMember))
        have static := wildShaped.here.static_below (forked.wild wild wildMember) member
        exact search_finds rounds child (wildShaped.child member) (isWild_of_static static)

end Node

end Ophan.Router
