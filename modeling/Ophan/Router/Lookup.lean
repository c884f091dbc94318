import Mathlib.Data.List.Nodup
import Ophan.Router.Shape
import Ophan.Router.Table

/-!
# The lookup of an ordered tree

The table of a tree has its routes, read as tokens, and the suffixes of its
parameters.  On an ordered tree the search is the lookup in this table.
-/

namespace Ophan.Router

open List

universe u

variable {T : Type u}

namespace Node

/-! ## The table of a tree -/

def label (node : Node T) : List Token :=
  match node.nodeType with
  | .param _ => [.param]
  | .catchAll => [.catchAll node.catchAllName]
  | _ => node.pfx.inner.map Token.byte

/-- The texts of the suffix children below the parameters of a tree. -/
inductive Offers : Node T → List Token → Bytes → Prop
  | here {node child : Node T} :
      node.isParam = true → child ∈ node.children →
      Offers node [] child.pfx.inner
  | inner {node child : Node T} {front : List Token} {text : Bytes} :
      child ∈ node.children → Offers child front text →
      Offers node (node.label ++ front) text

def table (node : Node T) : Table T where
  live routeTokens names value :=
    ∃ route ∈ node.routes, Reads route.marks routeTokens ∧ route.names = names ∧ route.value = value
  offers := Offers node

def tableBelow (node : Node T) : Table T where
  live routeTokens names value :=
    (routeTokens = [] ∧ node.remapping = names ∧ node.value = some value) ∨
      ∃ child ∈ node.children, child.table.live routeTokens names value
  offers front text := ∃ child ∈ node.children, Offers child front text

variable {node child wild : Node T} {hasSuffix : Bool} {routeTokens front : List Token}
  {names : ParamRemapping} {value : T} {text path : Bytes}

theorem label_of_static (notWild : node.isWild = false) :
    node.label = node.pfx.inner.map Token.byte := by
  rw [label]
  cases kind : node.nodeType with
  | root | static => rfl
  | param | catchAll => simp [isWild, kind] at notWild

theorem label_of_param (kind : node.nodeType = .param hasSuffix) : node.label = [.param] := by
  rw [label, kind]

theorem reads_label (shaped : Shaped node) {rest : List Mark} :
    Reads (node.pfx.marks ++ rest) routeTokens ↔
      ∃ restTokens, routeTokens = node.label ++ restTokens ∧ Reads rest restTokens := by
  cases shaped with
  | static notWild plain _ =>
    rw [label_of_static notWild, ← node.pfx.map_fst_marks]
    refine ⟨fun reads => reads.of_plain_append plain, ?_⟩
    rintro ⟨restTokens, rfl, reads⟩
    have labelReads := Reads.of_plain plain
    rw [← Function.comp_def, ← map_map] at labelReads
    exact labelReads.append reads
  | param kind letter marks _ _ _ =>
    rw [label_of_param kind, marks]
    refine ⟨fun reads => reads.of_letter_append letter, ?_⟩
    rintro ⟨restTokens, rfl, reads⟩
    exact Reads.param letter reads
  | catchAll kind named marks _ _ _ _ =>
    have isLabel : node.label = [.catchAll node.catchAllName] := by rw [label, kind]
    rw [isLabel, catchAllName_eq marks, marks]
    refine ⟨fun reads => reads.of_catchAll_append named, ?_⟩
    rintro ⟨restTokens, rfl, reads⟩
    exact (Reads.catchAll named Reads.nil).append reads

theorem table_live (shaped : Shaped node) :
    node.table.live routeTokens names value ↔
      ∃ rest, routeTokens = node.label ++ rest ∧ node.tableBelow.live rest names value := by
  have below (rest : List Token) :
      (∃ route ∈ node.inside, Reads route.marks rest ∧ route.names = names ∧ route.value = value) ↔
      node.tableBelow.live rest names value := by
    simp only [inside, tableBelow, mem_append, or_and_right, exists_or]
    refine or_congr ⟨?_, ?_⟩ ⟨?_, ?_⟩
    · rintro ⟨route, own, reads, isNames, rfl⟩
      obtain ⟨stored, isStored, rfl⟩ := mem_map.mp own
      exact ⟨reads.unique Reads.nil, isNames, Option.mem_toList.mp isStored⟩
    · rintro ⟨rfl, isNames, isValue⟩
      exact ⟨_, mem_map_of_mem (Option.mem_toList.mpr isValue), Reads.nil, isNames, rfl⟩
    · rintro ⟨route, inChild, holds⟩
      obtain ⟨child, member, inside⟩ := mem_flatMap.mp inChild
      exact ⟨child, member, route, inside, holds⟩
    · rintro ⟨child, member, route, inside, holds⟩
      exact ⟨route, mem_flatMap.mpr ⟨child, member, inside⟩, holds⟩
  simp only [table, routes_eq, mem_map, ← below]
  constructor
  · rintro ⟨_, ⟨route, member, rfl⟩, reads, holds⟩
    obtain ⟨rest, isTokens, restReads⟩ := (reads_label shaped).mp reads
    exact ⟨rest, isTokens, route, member, restReads, holds⟩
  · rintro ⟨rest, isTokens, route, member, restReads, holds⟩
    exact ⟨_, ⟨route, member, rfl⟩, (reads_label shaped).mpr ⟨rest, isTokens, restReads⟩, holds⟩

theorem offers_iff :
    Offers node front text ↔
      (node.isParam = true ∧ front = [] ∧ ∃ child ∈ node.children, child.pfx.inner = text) ∨
        ∃ rest, front = node.label ++ rest ∧ node.tableBelow.offers rest text := by
  constructor
  · intro offered
    cases offered with
    | here isParam member => exact Or.inl ⟨isParam, rfl, _, member, rfl⟩
    | inner member inside => exact Or.inr ⟨_, rfl, _, member, inside⟩
  · rintro (⟨isParam, rfl, child, member, rfl⟩ | ⟨rest, rfl, child, member, inside⟩)
    · exact Offers.here isParam member
    · exact Offers.inner member inside

theorem offers_of_not_param (notParam : node.isParam = false) :
    Offers node front text ↔
      ∃ rest, front = node.label ++ rest ∧ node.tableBelow.offers rest text := by
  simp [offers_iff, notParam]

theorem not_offers_of_leaf (leaf : node.children = []) : ¬ Offers node front text := by
  rw [offers_iff]
  simp [tableBelow, leaf]

theorem table_of_static (shaped : Shaped node) (notWild : node.isWild = false) :
    node.table = node.tableBelow.behind (node.pfx.inner.map Token.byte) := by
  have isLabel := label_of_static notWild
  ext routeTokens names value
  · rw [table_live shaped, isLabel]
    rfl
  · rw [← isLabel]
    exact offers_of_not_param (not_isParam_of_not_isWild notWild)

theorem Shaped.children_of_catchAll (shaped : Shaped node)
    (kind : node.nodeType = .catchAll) : node.children = [] := by
  cases shaped with
  | static | param => simp_all [isWild]
  | catchAll _ _ _ _ _ noChildren => exact noChildren

theorem kind_of_isWild (wild : node.isWild = true) :
    (∃ hasSuffix, node.nodeType = .param hasSuffix) ∨ node.nodeType = .catchAll := by
  cases kind : node.nodeType with
  | root | static => simp [isWild, kind] at wild
  | param hasSuffix => exact Or.inl ⟨hasSuffix, rfl⟩
  | catchAll => exact Or.inr rfl

theorem isParam_of_kind (kind : node.nodeType = .param hasSuffix) : node.isParam = true := by
  rw [Node.isParam, kind]

theorem offers_of_param (kind : node.nodeType = .param hasSuffix) :
    Offers node front text ↔
      (front = [] ∧ ∃ child ∈ node.children, child.pfx.inner = text) ∨
        ∃ rest, front = .param :: rest ∧ node.tableBelow.offers rest text := by
  simp [offers_iff, isParam_of_kind kind, label_of_param kind]

theorem table_after_param (shaped : Shaped node) (kind : node.nodeType = .param hasSuffix) :
    node.table.after .param = node.tableBelow := by
  ext routeTokens names value
  · simp [Table.after, table_live shaped, label_of_param kind]
  · have cases := @offers_of_param T node hasSuffix (.param :: routeTokens) names kind
    simpa [Table.after, table] using cases

theorem begins_of_static {b : UInt8} (shaped : Shaped node) (notWild : node.isWild = false)
    (first : node.pfx.inner.head? = some b) :
    Table.Begins (.byte b) node.table := by
  obtain ⟨rest, cut⟩ := List.head?_eq_some_iff.mp first
  rw [table_of_static shaped notWild, cut, map_cons]
  exact Table.begins_behind_cons _ _ _

/-! ## Complete suffixes -/

theorem suffixOf_slash {front : Bytes} (noSlash : slash ∉ front) (rest : List Token) :
    suffixOf ((front ++ [slash]).map Token.byte ++ rest) = front ++ [slash] := by
  induction front with
  | nil => simp [suffixOf]
  | cons b front ih =>
    rw [mem_cons, not_or] at noSlash
    rw [cons_append, map_cons, cons_append, suffixOf, if_neg (Ne.symm noSlash.1), ih noSlash.2]

theorem suffixOf_bytes (noSlash : slash ∉ text.dropLast) :
    suffixOf (text.map Token.byte) = text := by
  induction text with
  | nil => rfl
  | cons b rest ih =>
    cases rest with
    | nil =>
      by_cases isSlash : b = slash
      · simp [suffixOf, isSlash]
      · simp [suffixOf]
    | cons c rest =>
      rw [dropLast_cons_cons, mem_cons, not_or] at noSlash
      rw [map_cons, suffixOf, if_neg (Ne.symm noSlash.1), ih noSlash.2]

theorem IsSuffix.suffixOf_append (isSuffix : IsSuffix child) {rest : List Token}
    (leaf : child.children = [] → rest = []) :
    suffixOf (child.pfx.inner.map Token.byte ++ rest) = child.pfx.inner := by
  rcases isSuffix.ends with slashed | noChildren
  · have cut := dropLast_append_getLast? slash slashed
    rw [← cut]
    exact suffixOf_slash isSuffix.segment rest
  · rw [leaf noChildren, append_nil]
    exact suffixOf_bytes isSuffix.segment

theorem tableBelow_of_leaf (leaf : node.children = [])
    (stored : node.tableBelow.live routeTokens names value) :
    routeTokens = [] := by
  rcases stored with ⟨isNil, _⟩ | ⟨child, member, _⟩
  · exact isNil
  · simp [leaf] at member

theorem IsSuffix.suffixOf_live (isSuffix : IsSuffix child) (shaped : Shaped child)
    (static : child.isWild = false) (stored : child.table.live routeTokens names value) :
    suffixOf routeTokens = child.pfx.inner := by
  obtain ⟨rest, isTokens, below⟩ := (table_live shaped).mp stored
  rw [isTokens, label_of_static static]
  apply isSuffix.suffixOf_append
  intro leaf
  exact tableBelow_of_leaf leaf below

theorem IsSuffix.suffixOf_offers (isSuffix : IsSuffix child) (static : child.isWild = false)
    (offered : Offers child front text) :
    suffixOf front = child.pfx.inner := by
  obtain ⟨rest, isFront, deeper, member, _⟩ :=
    (offers_of_not_param (not_isParam_of_not_isWild static)).mp offered
  rw [isFront, label_of_static static]
  apply isSuffix.suffixOf_append
  intro leaf
  simp [leaf] at member

/-- Among the routes below a parameter those of one suffix are the ones that
begin with its text. -/
theorem only_tableBelow (param : ParamOrder node hasSuffix)
    (shaped : ∀ inner ∈ node.children, Shaped inner)
    (static : ∀ inner ∈ node.children, inner.isWild = false) (member : child ∈ node.children) :
    node.tableBelow.only child.pfx.inner = child.table := by
  have liveText : ∀ inner ∈ node.children, ∀ routeTokens names value,
      inner.table.live routeTokens names value → suffixOf routeTokens = inner.pfx.inner := by
    intro inner innerMember routeTokens names value
    exact (param.suffixes inner innerMember).suffixOf_live
      (shaped inner innerMember) (static inner innerMember)
  have offeredText : ∀ inner ∈ node.children, ∀ front text,
      Offers inner front text → suffixOf front = inner.pfx.inner := by
    intro inner innerMember front text
    exact (param.suffixes inner innerMember).suffixOf_offers (static inner innerMember)
  have sameChild : ∀ inner ∈ node.children, inner.pfx.inner = child.pfx.inner → inner = child := by
    intro inner innerMember sameText
    exact inj_on_of_nodup_map param.distinct innerMember member sameText
  ext routeTokens names value
  · constructor
    · intro stored
      obtain ⟨isText, own | ⟨inner, innerMember, inside⟩⟩ := stored
      · rw [own.1] at isText
        exact absurd isText.symm (param.suffixes child member).nonempty
      · grind
    · intro stored
      exact ⟨liveText child member _ _ _ stored, Or.inr ⟨child, member, stored⟩⟩
  · constructor
    · intro offered
      obtain ⟨isText, inner, innerMember, inside⟩ := offered
      have sameText := offeredText inner innerMember _ _ inside
      rw [isText] at sameText
      rw [← sameChild inner innerMember sameText.symm]
      exact inside
    · intro offered
      exact ⟨offeredText child member _ _ offered, child, member, offered⟩

/-! ## The search at a parameter -/

theorem tableBelow_ended (named : ∀ child ∈ node.children, Shaped child ∧ child.label ≠ [])
    (values : List Bytes) :
    node.tableBelow.ended values = node.answer values none := by
  have picked : pick (fun stored : ParamRemapping × T =>
      node.tableBelow.live [] stored.1 stored.2) = node.value.map (node.remapping, ·) := by
    apply pick_eq_map
    intro stored
    constructor
    · rintro (⟨_, isNames, isValue⟩ | ⟨child, member, inside⟩)
      · exact ⟨stored.2, isValue, Prod.ext isNames rfl⟩
      · obtain ⟨shaped, labelled⟩ := named child member
        obtain ⟨rest, isNil, _⟩ := (table_live shaped).mp inside
        exact absurd (append_eq_nil_iff.mp isNil.symm).1 labelled
    · rintro ⟨value, isValue, rfl⟩
      exact Or.inl ⟨rfl, rfl, isValue⟩
  rw [Table.ended, picked, Option.map_map, answer]
  rfl

theorem findIdx_slash_eq_zero : path.findIdx? (· = slash) = some 0 ↔ path.head? = some slash := by
  cases path with
  | nil => simp
  | cons b tail => by_cases isSlash : b = slash <;> simp [List.findIdx?_cons, isSlash]

theorem findIdx_slash_eq_none (noSlash : slash ∉ path) : path.findIdx? (· = slash) = none := by
  simp only [List.findIdx?_eq_none_iff, decide_eq_false_iff_not]
  exact fun b member isSlash => noSlash (isSlash ▸ member)

/-- The first suffix that fits is the longest one on offer. -/
theorem closest_eq {table : Table T} {segment : Bytes} (param : ParamOrder wild hasSuffix)
    (offered : ∀ text, table.offers [] text ↔ ∃ child ∈ wild.children, child.pfx.inner = text)
    (found : wild.children.find? (fitsSuffix segment) = some child) :
    ∃ skipped, table.closest segment = some skipped ∧
      skipped + 1 = segment.length - child.pfx.inner.length ∧
      segment.drop (skipped + 1) = child.pfx.inner := by
  obtain ⟨fits, earlier, later, children, unfit⟩ := List.find?_eq_some_iff_append.mp found
  have member := mem_of_find?_eq_some found
  have nonempty := length_pos_of_ne_nil (param.suffixes child member).nonempty
  rw [fitsSuffix, Bool.and_eq_true, decide_eq_true_eq, decide_eq_true_eq] at fits
  have start :
      segment.length - child.pfx.inner.length - 1 + 1 =
        segment.length - child.pfx.inner.length := by
    omega
  refine ⟨segment.length - child.pfx.inner.length - 1, ?_, start, ?_⟩
  · rw [Table.closest_eq_some_iff, start]
    refine ⟨by omega, ?_, ?_⟩
    · grind
    · intro skipped before isOffered
      obtain ⟨other, otherMember, isText⟩ := (offered _).mp isOffered
      have otherLength : other.pfx.inner.length = segment.length - (skipped + 1) := by
        rw [isText, length_drop]
      have otherFits : fitsSuffix segment other = true := by
        rw [fitsSuffix, Bool.and_eq_true, decide_eq_true_eq, decide_eq_true_eq]
        refine ⟨by omega, ?_⟩
        rw [isText, length_drop]
        congr 1
        omega
      rw [children] at otherMember
      rcases mem_append.mp otherMember with before | after
      · simp_all
      · have shorter : other.pfx.inner.length ≤ child.pfx.inner.length := by
          rcases mem_cons.mp after with rfl | inLater
          · exact Nat.le_refl _
          · have descending := param.descending
            rw [children] at descending
            exact rel_of_pairwise_cons (pairwise_append.mp descending).2.1 inLater
        omega
  · rw [start]
    exact fits.2

theorem closest_eq_none {table : Table T} {segment : Bytes}
    (offered : ∀ text, table.offers [] text ↔ ∃ child ∈ wild.children, child.pfx.inner = text)
    (found : wild.children.find? (fitsSuffix segment) = none) :
    table.closest segment = none := by
  rw [Table.closest_eq_none_iff]
  intro skipped inside isOffered
  obtain ⟨other, member, isText⟩ := (offered _).mp isOffered
  apply List.find?_eq_none.mp found other member
  rw [fitsSuffix, Bool.and_eq_true, decide_eq_true_eq, decide_eq_true_eq, isText, length_drop]
  refine ⟨by omega, ?_⟩
  congr 1
  omega

section Agrees

variable {descend : Node T → Bytes → Option (Found T)}

def Agrees (descend : Node T → Bytes → Option (Found T)) (node : Node T) : Prop :=
  ∀ path, descend node path = node.table.lookup path

theorem segmentOf_length (path : Bytes) : (Table.segmentOf path).length = terminatorOf path := by
  have bound := terminatorOf_le path
  rw [Table.segmentOf, length_take]
  omega

theorem label_ne_nil_of_suffix (isSuffix : IsSuffix child)
    (static : child.isWild = false) : child.label ≠ [] := by
  rw [label_of_static static]
  simpa using isSuffix.nonempty

/-- At a parameter the search takes the suffix that the lookup takes. -/
theorem searchSuffix_eq {table : Table T} (param : ParamOrder wild hasSuffix)
    (shaped : ∀ child ∈ wild.children, Shaped child)
    (static : ∀ child ∈ wild.children, child.isWild = false)
    (agrees : ∀ child ∈ wild.children, Agrees descend child)
    (behindParam : table.after .param = wild.tableBelow)
    (offered : ∀ text, table.offers [] text ↔ ∃ child ∈ wild.children, child.pfx.inner = text)
    (path : Bytes) :
    searchSuffix descend wild path = table.parameter Table.lookup path := by
  simp only [searchSuffix, Table.parameter, findIdx_slash_eq_zero, behindParam]
  split
  · rfl
  · rw [← Table.segmentOf]
    cases found : wild.children.find? (fitsSuffix (Table.segmentOf path)) with
    | some child =>
      obtain ⟨skipped, isClosest, start, text⟩ := closest_eq param offered found
      have member := mem_of_find?_eq_some found
      rw [segmentOf_length] at start
      simp only [isClosest]
      rw [← start, text, only_tableBelow param shaped static member, agrees child member]
    | none =>
      have named : ∀ child ∈ wild.children, Shaped child ∧ child.label ≠ [] := by
        intro child member
        exact ⟨shaped child member,
          label_ne_nil_of_suffix (param.suffixes child member) (static child member)⟩
      simp only [closest_eq_none offered found, tableBelow_ended named]
      by_cases slashed : slash ∈ path
      · grind
      · simp_all

/-- A parameter without other suffixes than a slash. -/
theorem searchParam_eq_searchSuffix (param : ParamOrder wild false) (path : Bytes) :
    searchParam descend wild path = searchSuffix descend wild path := by
  have single : wild.children = [] ∨
      ∃ child, wild.children = [child] ∧ child.pfx.inner = [slash] := by
    have distinct := param.distinct
    have slashOnly := param.slashOnly rfl
    rcases children : wild.children with _ | ⟨child, _ | ⟨other, others⟩⟩
    · exact Or.inl rfl
    · exact Or.inr ⟨child, rfl, slashOnly child (by simp [children])⟩
    · simp [children, slashOnly child, slashOnly other] at distinct
  by_cases slashed : slash ∈ path
  · obtain ⟨front, back, rfl, noSlash⟩ := eq_append_cons_of_mem slashed
    have index : (front ++ slash :: back).findIdx? (· = slash) = some front.length := by grind
    have terminator : terminatorOf (front ++ slash :: back) = front.length + 1 := by
      rw [terminatorOf_append _ noSlash, terminatorOf_slash_cons]
    have segment : (front ++ slash :: back).take (front.length + 1) = front ++ [slash] := by grind
    simp only [searchParam, searchSuffix, index, terminator, segment,
      Option.some.injEq, Option.isNone_some, Bool.false_eq_true, if_false]
    cases front with
    | nil => rfl
    | cons b front =>
      rcases single with noChildren | ⟨child, only, isSlash⟩
      · simp [noChildren]
      · have fits : fitsSuffix (b :: (front ++ [slash])) child = true := by
          simp [fitsSuffix, isSlash]
        simp [only, fits, isSlash]
  · have unfit : wild.children.find? (fitsSuffix (path.take (terminatorOf path))) = none := by
      rw [List.find?_eq_none]
      intro child member fits
      have isSlash := param.slashOnly rfl child member
      rw [fitsSuffix, isSlash, Bool.and_eq_true, decide_eq_true_eq, decide_eq_true_eq] at fits
      apply slashed
      have inside : slash ∈ [slash] := mem_singleton_self slash
      rw [← fits.2] at inside
      exact mem_of_mem_take (mem_of_mem_drop inside)
    simp only [searchParam, searchSuffix, findIdx_slash_eq_none slashed, unfit]
    rfl

/-! ## The search at a static node -/

/-- The children of an ordered node begin with different tokens. -/
theorem Forked.begins {statics wild : List (Node T)} (forked : Forked node statics wild)
    (shaped : WellShaped node) (static : StaticOrder node) (member : child ∈ statics) :
    ∃ b ∈ node.indices, Table.Begins (.byte b) child.table ∧ child.pfx.inner.head? = some b := by
  have inChildren := forked.mem_iff.mpr (.inl member)
  have childStatic := isWild_of_static (forked.static child member)
  have isFirst : child.pfx.inner.head? ∈ node.indices.map some := by
    rw [← static.statics_firsts forked]
    exact mem_map_of_mem member
  obtain ⟨b, isIndex, first⟩ := mem_map.mp isFirst
  exact ⟨b, isIndex, begins_of_static (shaped.child inChildren).here childStatic first.symm,
    first.symm⟩

theorem table_live_of_catchAll (shaped : Shaped node) (kind : node.nodeType = .catchAll) :
    node.table.live routeTokens names value ↔
      routeTokens = [.catchAll node.catchAllName] ∧
        node.remapping = names ∧ node.value = some value := by
  have isLabel : node.label = [.catchAll node.catchAllName] := by rw [label, kind]
  have leaf := shaped.children_of_catchAll kind
  rw [table_live shaped, isLabel]
  constructor
  · intro stored
    obtain ⟨rest, isTokens, own | ⟨child, member, _⟩⟩ := stored
    · simp_all
    · simp [leaf] at member
  · intro stored
    exact ⟨[], stored.1, Or.inl ⟨rfl, stored.2⟩⟩

theorem after_byte_of_wild (shaped : Shaped wild) (isWild : wild.isWild = true) (b : UInt8) :
    wild.table.after (.byte b) = Table.nothing := by
  rcases kind_of_isWild isWild with ⟨hasSuffix, kind⟩ | kind
  · ext routeTokens names value
    · simp [Table.after, Table.nothing, table_live shaped, label_of_param kind]
    · have cases := @offers_of_param T wild hasSuffix (.byte b :: routeTokens) names kind
      simpa [Table.after, Table.nothing, table] using cases
  · ext routeTokens names value
    · simp [Table.after, Table.nothing, table_live_of_catchAll shaped kind]
    · simp [Table.after, Table.nothing, table, not_offers_of_leaf (shaped.children_of_catchAll kind)]

/-- Behind a token is what one child has there, if no other child begins with it. -/
theorem tableBelow_after {token : Token} {kept : Table T}
    (others : ∀ other ∈ node.children,
      other.table.after token = kept ∨ other.table.after token = Table.nothing)
    (present : kept = Table.nothing ∨ ∃ child ∈ node.children, child.table.after token = kept) :
    node.tableBelow.after token = kept := by
  have one (holds : Table T → Prop) (empty : ¬ holds Table.nothing) :
      (∃ other ∈ node.children, holds (other.table.after token)) ↔ holds kept := by
    constructor
    · grind
    · grind
  ext routeTokens names value
  · rw [← one (fun table => table.live routeTokens names value) id]
    exact or_iff_right (fun ⟨isNil, _⟩ => nomatch isNil)
  · exact one (fun table => table.offers routeTokens names) id

/-- A child behind a byte is the one indexed by it. -/
theorem Forked.after_byte {statics wild : List (Node T)} (forked : Forked node statics wild)
    (shaped : WellShaped node) (static : StaticOrder node) (b : UInt8)
    (member : child ∈ node.children) :
    (∃ i : Nat, node.indices[i]? = some b ∧ node.children[i]? = some child) ∨
      child.table.after (.byte b) = Table.nothing := by
  rcases forked.mem_iff.mp member with inStatics | inWild
  · obtain ⟨k, found⟩ := mem_iff_getElem?.mp inStatics
    obtain ⟨c, _, begins, first⟩ := forked.begins shaped static inStatics
    by_cases sameByte : b = c
    · left
      have insideStatics := (List.getElem?_eq_some_iff.mp found).1
      have inChildren : node.children[k]? = some child := by
        rw [forked.children, List.getElem?_append_left insideStatics]
        exact found
      have insideIndices : k < node.indices.length := by
        rw [← forked.indices]
        exact insideStatics
      have isIndex := List.getElem?_eq_getElem insideIndices
      have isFirst := static.first isIndex inChildren
      grind
    · right
      exact begins.after_eq_nothing (by simpa using sameByte)
  · right
    exact after_byte_of_wild (shaped.child member).here (forked.wild child inWild) b

theorem searchStatic_eq (shaped : WellShaped node) (ordered : WellOrdered node)
    (notWild : node.isWild = false) (agrees : ∀ child ∈ node.children, child.isWild = false →
      Agrees descend child) (b : UInt8) (tail : Bytes) :
    searchStatic descend node (b :: tail) = (node.tableBelow.after (.byte b)).lookup tail := by
  obtain ⟨_, statics, wild, forked⟩ := shaped.here.forked notWild
  have static := ordered.here.static notWild
  rw [searchStatic]
  cases found : node.indices.findIdx? (fun c => (b :: tail).head? = some c) with
  | some i =>
    obtain ⟨inside, isByte, _⟩ := List.findIdx?_eq_some_iff_getElem.mp found
    rw [decide_eq_true_eq, List.head?_cons, Option.some.injEq] at isByte
    have index : node.indices[i]? = some b := by rw [List.getElem?_eq_getElem inside, isByte]
    obtain ⟨child, inStatics, located⟩ := forked.indexed inside
    have member := mem_of_getElem? located
    obtain ⟨c, _, begins, _⟩ := forked.begins shaped static inStatics
    have behindByte : node.tableBelow.after (.byte b) = child.table.after (.byte b) := by
      apply tableBelow_after _ (Or.inr ⟨child, member, rfl⟩)
      intro other otherMember
      rcases forked.after_byte shaped static b otherMember with ⟨k, atOther, inChildren⟩ | nothing
      · have samePlace : i = k :=
          (getElem?_inj inside static.distinct).mp (index.trans atOther.symm)
        simp_all
      · exact Or.inr nothing
    simp only [located]
    rw [agrees _ member (isWild_of_static (forked.static _ inStatics)),
      begins.lookup_cons, behindByte]
  | none =>
    have missing : b ∉ node.indices := by grind
    have nothing : node.tableBelow.after (.byte b) = Table.nothing := by
      apply tableBelow_after _ (Or.inl rfl)
      intro other member
      rcases forked.after_byte shaped static b member with ⟨k, isIndex, _⟩ | nothing
      · exact absurd (mem_of_getElem? isIndex) missing
      · exact Or.inl nothing
    rw [nothing, Table.lookup_nothing]

/-! ## The search behind the wildcard child -/

/-- The routes below a node that do not begin with a byte are those of its
wildcard child. -/
structure BelowWild (node : Node T) (wilds : List (Node T)) : Prop where
  live : ∀ {token : Token} {rest : List Token} {names : ParamRemapping} {value : T},
    (∀ b, token ≠ .byte b) → (node.tableBelow.live (token :: rest) names value ↔
      ∃ wild ∈ wilds, wild.table.live (token :: rest) names value)
  offers : ∀ {front : List Token} {text : Bytes}, (∀ b rest, front ≠ .byte b :: rest) →
    (node.tableBelow.offers front text ↔ ∃ wild ∈ wilds, Offers wild front text)

theorem Forked.belowWild {statics wilds : List (Node T)} (forked : Forked node statics wilds)
    (shaped : WellShaped node) (static : StaticOrder node) : BelowWild node wilds := by
  have onlyWild (holds : Node T → Prop) (notStatic : ∀ child ∈ statics, ¬ holds child) :
      (∃ child ∈ node.children, holds child) ↔ ∃ wild ∈ wilds, holds wild := by
    simp only [forked.mem_iff, or_and_right, exists_or]
    exact or_iff_right fun ⟨child, member, inside⟩ => notStatic child member inside
  constructor
  · intro token rest names value notByte
    refine (or_iff_right (fun ⟨isNil, _⟩ => nomatch isNil)).trans (onlyWild _ ?_)
    intro child member inside
    obtain ⟨b, _, begins, _⟩ := forked.begins shaped static member
    obtain ⟨_, same⟩ := begins.live inside
    exact notByte b (List.cons.inj same).1
  · intro front text notByte
    refine onlyWild (Offers · front text) ?_
    intro child member inside
    obtain ⟨b, _, begins, _⟩ := forked.begins shaped static member
    obtain ⟨rest, same⟩ := begins.offers inside
    exact notByte b rest same

theorem BelowWild.eq_none (below : BelowWild node []) (path : Bytes) :
    (node.tableBelow.parameter Table.lookup path).or (node.tableBelow.catchAll path) = none := by
  rw [Table.parameter_eq_none, Table.catchAll_eq_none]
  · rfl
  · intro name names value
    simp [below.live]
  · intro text
    simp [below.offers]
  · intro names value
    simp [below.live]

theorem BelowWild.param_eq (below : BelowWild node [wild]) (shaped : WellShaped wild)
    (ordered : WellOrdered wild) (kind : wild.nodeType = .param hasSuffix)
    (agrees : ∀ child ∈ wild.children, child.isWild = false →
      Agrees descend child) (path : Bytes) :
    searchSuffix descend wild path =
      (node.tableBelow.parameter Table.lookup path).or (node.tableBelow.catchAll path) := by
  obtain ⟨_, _, _, _, _, static⟩ := shaped.here.param_children (isParam_of_kind kind)
  have childStatic : ∀ child ∈ wild.children, child.isWild = false := by
    intro child member
    exact isWild_of_static (static child member)
  have behindParam : node.tableBelow.after .param = wild.tableBelow := by
    rw [← table_after_param shaped.here kind]
    ext routeTokens names value
    · exact (below.live (by simp)).trans (by simp [Table.after])
    · exact (below.offers (by simp)).trans (by simp [Table.after, table])
  have offered : ∀ text, node.tableBelow.offers [] text ↔
      ∃ child ∈ wild.children, child.pfx.inner = text := by
    intro text
    simp [below.offers, offers_of_param kind]
  have noCatchAll : node.tableBelow.catchAll path = none := by
    apply Table.catchAll_eq_none
    intro name names value stored
    obtain ⟨other, member, inside⟩ := (below.live (by simp)).mp stored
    rw [mem_singleton] at member
    rw [member, table_live shaped.here, label_of_param kind] at inside
    simp_all
  rw [noCatchAll, Option.or_none]
  apply searchSuffix_eq (ordered.here.param hasSuffix kind)
    (fun child member => (shaped.child member).here) childStatic
    (fun child member => agrees child member (childStatic child member))
    behindParam offered

theorem BelowWild.catchAll_eq (below : BelowWild node [wild]) (shaped : Shaped wild)
    (kind : wild.nodeType = .catchAll) (path : Bytes) :
    wild.answer [] (some { key := wild.catchAllName, value := path }) =
      (node.tableBelow.parameter Table.lookup path).or (node.tableBelow.catchAll path) := by
  have noParam : node.tableBelow.parameter Table.lookup path = none := by
    apply Table.parameter_eq_none
    · intro text offered
      obtain ⟨other, member, inside⟩ := (below.offers (by simp)).mp offered
      rw [mem_singleton] at member
      rw [member] at inside
      exact not_offers_of_leaf (shaped.children_of_catchAll kind) inside
    · intro names value stored
      obtain ⟨other, member, inside⟩ := (below.live (by simp)).mp stored
      rw [mem_singleton] at member
      rw [member, table_live_of_catchAll shaped kind] at inside
      cases inside.1
  have picked : pick (fun stored : Bytes × ParamRemapping × T =>
      node.tableBelow.live [.catchAll stored.1] stored.2.1 stored.2.2) =
        wild.value.map (wild.catchAllName, wild.remapping, ·) := by
    apply pick_eq_map
    rintro ⟨name, names, value⟩
    rw [below.live (by simp)]
    simp only [mem_singleton, exists_eq_left, table_live_of_catchAll shaped kind]
    grind
  rw [noParam, Option.none_or, answer, Table.catchAll, picked, Option.map_map]
  rfl

theorem searchWild_eq (shaped : WellShaped node) (ordered : WellOrdered node)
    (notWild : node.isWild = false) (agrees : ∀ wild ∈ node.children, ∀ child ∈ wild.children,
      child.isWild = false → Agrees descend child) (path : Bytes) :
    searchWild descend node path =
      (node.tableBelow.parameter Table.lookup path).or (node.tableBelow.catchAll path) := by
  obtain ⟨_, statics, wilds, forked⟩ := shaped.here.forked notWild
  have below := forked.belowWild shaped (ordered.here.static notWild)
  rw [searchWild]
  rcases forked.wild_cases with ⟨flag, rfl⟩ | ⟨wild, flag, rfl, isWild⟩
  · rw [flag, below.eq_none]
    rfl
  · have last : node.children.getLast? = some wild := by rw [forked.children, getLast?_concat]
    have member : wild ∈ node.children := mem_of_getLast? last
    simp only [flag, if_true, last]
    rcases kind_of_isWild isWild with ⟨hasSuffix, kind⟩ | kind
    · have isSearch :=
        below.param_eq (shaped.child member) (ordered.child member) kind (agrees wild member) path
      cases hasSuffix with
      | true => simp_all
      | false =>
        have param := (ordered.child member).here.param false kind
        simp only [kind]
        rw [searchParam_eq_searchSuffix param]
        exact isSearch
    · simp only [kind]
      exact below.catchAll_eq (shaped.child member).here kind path

/-! ## The search is the lookup -/

theorem child_label_ne_nil (shaped : WellShaped node) (ordered : WellOrdered node)
    (notWild : node.isWild = false) (member : child ∈ node.children) : child.label ≠ [] := by
  obtain ⟨_, statics, wilds, forked⟩ := shaped.here.forked notWild
  rcases forked.mem_iff.mp member with inStatics | inWild
  · obtain ⟨b, _, _, first⟩ := forked.begins shaped (ordered.here.static notWild) inStatics
    rw [label_of_static (isWild_of_static (forked.static child inStatics))]
    intro isNil
    simp [map_eq_nil_iff.mp isNil] at first
  · rcases kind_of_isWild (forked.wild child inWild) with
      ⟨hasSuffix, kind⟩ | kind
    · rw [label_of_param kind]
      simp
    · rw [label, kind]
      simp

theorem searchNode_eq (shaped : WellShaped node) (ordered : WellOrdered node)
    (notWild : node.isWild = false)
    (agreesStatic : ∀ child ∈ node.children, child.isWild = false → Agrees descend child)
    (agreesBelow : ∀ wild ∈ node.children, ∀ child ∈ wild.children,
      child.isWild = false → Agrees descend child) :
    Agrees (searchNode descend) node := by
  intro path
  rw [table_of_static shaped.here notWild, Table.lookup_behind, searchNode]
  by_cases isPrefix : node.pfx.inner <+: path
  · obtain ⟨rest, rfl⟩ := isPrefix
    rw [if_pos (prefix_append _ _), drop_left, take_left]
    cases rest with
    | nil =>
      rw [append_nil, if_pos (Nat.le_refl _), if_pos rfl, Table.lookup_nil, tableBelow_ended]
      intro child member
      exact ⟨(shaped.child member).here, child_label_ne_nil shaped ordered notWild member⟩
    | cons b tail =>
      rw [if_neg (by simp), if_neg (not_not_intro rfl)]
      simp only
      rw [searchStatic_eq shaped ordered notWild agreesStatic,
        searchWild_eq shaped ordered notWild agreesBelow,
        Table.lookup_cons]
  · have unlike : path.take node.pfx.inner.length ≠ node.pfx.inner := by
      intro same
      apply isPrefix
      rw [← same]
      exact take_prefix _ _
    have notSame : path ≠ node.pfx.inner := by grind
    simp_all

theorem search_agrees (rounds : Nat) :
    ∀ node : Node T, node.height ≤ rounds → WellShaped node →
      WellOrdered node → node.isWild = false →
      Agrees (search rounds) node := by
  induction rounds with
  | zero =>
    intro node bound
    simp [height_eq] at bound
  | succ rounds ih =>
    intro node bound shaped ordered notWild
    apply searchNode_eq shaped ordered notWild
    · intro child member childStatic
      have shorter := height_lt member
      exact ih child (by omega) (shaped.child member) (ordered.child member) childStatic
    · intro wild member child childMember childStatic
      have shorter := height_lt member
      have shorterChild := height_lt childMember
      exact ih child (by omega) ((shaped.child member).child childMember)
        ((ordered.child member).child childMember) childStatic

end Agrees

/-- The lookup of an ordered tree is the lookup in its table. -/
theorem Sorted.atPath_eq {tree : Node T} (sorted : Sorted tree) (path : Bytes) :
    answerOf (tree.atPath path) =
      match tree.table.lookup path with
      | some found => finish [] found
      | none => .err .notFound := by
  have agrees :=
    search_agrees tree.height tree (Nat.le_refl _) sorted.shaped sorted.ordered sorted.notWild
  have searched := atPath_eq_search sorted.toRooted path
  rw [agrees path] at searched
  exact searched

end Node

end Ophan.Router
