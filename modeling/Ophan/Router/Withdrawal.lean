import Ophan.Router.Pruning
import Ophan.Router.Router

/-!
# Removing a pattern

Where no other node of a tree is spelled like a pattern, and no shorter text
stands beside the one at its end, `remove` takes out the pattern alone.  The
same holds when the pattern is inserted again, as `insert_entry` does to add a
method to a route.
-/

namespace Ophan.Router

open List

universe u v

variable {T : Type u}

namespace Node

/-! ## The table without a route -/

/-- A text that ends a route with a slash hides no shorter one. -/
def Alone (tree : Node T) (route : List Token) : Prop :=
  ∀ front text shorter, route = front ++ .param :: text.map Token.byte →
    text.getLast? = some slash → Offers tree front text →
      Offers tree front shorter → shorter <:+ text → shorter = text

section Loses

variable {tree after : Node T} {route : List Token} {lost gained : List (Route T)}

theorem live_of_perm (perm : (gained ++ tree.routes).Perm (lost ++ after.routes))
    (ownGained : ∀ item ∈ gained, Reads item.marks route) {other : List Token}
    {names : ParamRemapping} {value : T} (different : other ≠ route)
    (stored : after.table.live other names value) :
    tree.table.live other names value := by
  obtain ⟨item, member, reads, isItem⟩ := stored
  have inAll := perm.mem_iff.mpr (mem_append_right lost member)
  rcases mem_append.mp inAll with inGained | inTree
  · exact absurd (reads.unique (ownGained item inGained)) different
  · exact ⟨item, inTree, reads, isItem⟩

theorem loses_of_perm (sorted : Sorted tree)
    (perm : (gained ++ tree.routes).Perm (lost ++ after.routes))
    (ownLost : ∀ item ∈ lost, Reads item.marks route)
    (ownGained : ∀ item ∈ gained, Reads item.marks route)
    (replaced : gained ≠ [] → ∃ names value, tree.table.live route names value)
    (offers : ∀ {front : List Token} {text : Bytes},
      Offers after front text → Offers tree front text)
    (lostAt : ∀ {front : List Token} {text : Bytes},
      Offers tree front text → ¬ Offers after front text → LostAt tree route front text)
    (alone : Alone tree route) : Table.Loses route tree.table after.table := by
  constructor
  · intro other names value different
    exact ⟨live_of_perm perm ownGained different, live_of_perm perm.symm ownLost different⟩
  · intro names value stored
    obtain ⟨item, member, reads, isItem⟩ := stored
    have inAll := perm.mem_iff.mpr (mem_append_right lost member)
    rcases mem_append.mp inAll with inGained | inTree
    · exact replaced (ne_nil_of_mem inGained)
    · exact ⟨names, value, item, inTree, reads, isItem⟩
  · exact offers
  · intro front text offered gone
    have lost := lostAt offered gone
    refine ⟨lost.ends, lost.nonempty, lost.last, ?_, lost.stored⟩
    intro slashed shorter other isSuffix
    exact alone front text shorter lost.ends slashed offered other isSuffix
  · intro front name ends stored other names value isOther
    obtain ⟨ownNames, ownValue, own⟩ := stored
    rw [ends] at own
    exact catchAll_single sorted.shaped sorted.ordered own isOther

end Loses

/-! ## What `remove` takes out -/

structure Withdrawn (tree : Node T) (text : Bytes) (removed : Option T)
    (names : ParamRemapping) (route : List Token) : Prop where
  outcome : (tree.remove text).2 = .ok removed ∨ ((tree.remove text).2 = .panic ∧ removed = none)
  withdraws : Withdraws names tree (tree.remove text).1 removed route
  prefixes : (tree.remove text).1.pfx.inner ≠ [] → (tree.remove text).1.pfx = tree.pfx

variable {tree : Node T} {text : Bytes}

theorem remove_withdrawn {self : Node T} (sorted : Sorted self)
    (valued : WellValued self) (text : Bytes) :
    ((self.remove text).1 = self ∧
      ((self.remove text).2 = .ok none ∨ (self.remove text).2 = .panic)) ∨
    ∃ normal names removed own route,
      normalizeParams (UnescapedRoute.new text) = .ok (normal, names) ∧
      Spelled self route normal.inner ∧ Withdrawn self text removed own route ∧
      (own = names ∨ route = self.label) := by
  rcases remove_cases self text sorted.shaped with
    unchanged | ⟨normal, names, normalized, atRoot | ⟨removed, pruned, outcome⟩⟩
  · exact Or.inl unchanged
  · obtain ⟨bytes, outcome, result⟩ := atRoot
    refine Or.inr ⟨normal, names, self.value, self.remapping, self.label, normalized, ?_,
      ⟨Or.inl outcome, ?_, ?_⟩, Or.inr rfl⟩
    · rw [bytes]
      exact Spelled.here
    · rw [result]
      split
      · rename_i leaf
        exact withdraws_emptied sorted.shaped sorted.ordered leaf
      · exact withdraws_clear sorted.shaped sorted.ordered rfl
    · intro hasPrefix
      rw [result] at hasPrefix ⊢
      split at hasPrefix
      · exact absurd rfl hasPrefix
      · simp_all
  · rcases pruned.withdraws sorted.shaped sorted.ordered valued with
      ⟨unchanged, isNone⟩ | ⟨route, spelled, withdraws⟩
    · simp_all
    · exact Or.inr ⟨normal, names, removed, names, route, normalized, spelled,
        ⟨outcome, withdraws, fun _ => pruned.pfx_eq⟩, Or.inl rfl⟩

/-! ## Calls that keep patterns apart -/

/-- The condition on one call: an inserted text is a regular pattern and does not
begin with a wildcard in an emptied tree that kept the prefix of its root; a
text to remove reads as it is stored, every node that is spelled like it stands
for it, and the text behind its last parameter hides no shorter one. -/
def Separate (tree : Node T) : Call T → Prop
  | .insert text _ =>
    ¬ KeepsPrefix tree text ∧
    ∀ normal, normalizeParams (UnescapedRoute.new text) = .ok normal → IsRegular text
  | .remove text =>
    ∀ normal, normalizeParams (UnescapedRoute.new text) = .ok normal →
      ∃ pieces, readPattern text = some pieces ∧ Unshifted pieces = true ∧
        (∀ route, Spelled tree route normal.1.inner → route = tokens pieces) ∧
        Alone tree (tokens pieces)

theorem regular_of_separate {next : Call T}
    (separate : Separate tree next) : Regular tree next := by
  cases next with
  | insert text val => exact separate.2
  | remove text => exact trivial

theorem faithful_of_separate {next : Call T}
    (separate : Separate tree next) : Faithful tree next := by
  cases next with
  | insert text val =>
    refine ⟨separate.1, ?_⟩
    intro normal normalized
    obtain ⟨pieces, reading, unshifted, _⟩ := separate.2 normal normalized
    exact ⟨pieces, reading, unshifted⟩
  | remove text => exact trivial

theorem normalized_of_insert {self : Node T} {val : T}
    (inserted : (self.insert text val).2 = .ok ()) :
    ∃ normal, normalizeParams (UnescapedRoute.new text) = .ok normal := by
  cases normalized : normalizeParams (UnescapedRoute.new text) with
  | ok normal => exact ⟨normal, rfl⟩
  | err | panic => simp [insert, normalized] at inserted

theorem accounts_regular {calls : List (Call T)} {live : List (Bytes × T)}
    (accounts : Accounts calls live) (regular : Admits Regular calls) :
    ∀ item ∈ live, IsRegular item.1 := by
  induction accounts with
  | start => exact forall_mem_nil _
  | @inserted calls live text val _ inserted ih =>
    intro item member
    rcases mem_cons.mp member with rfl | older
    · obtain ⟨normal, normalized⟩ := normalized_of_insert inserted
      exact regular.last normal normalized
    · exact ih regular.front item older
  | refused _ _ ih | absent _ _ ih => exact ih regular.front
  | removed _ _ moved _ ih =>
    intro item member
    exact ih regular.front item (moved.mem_iff.mpr (mem_cons_of_mem _ member))

/-! ## Patterns by their tokens -/

theorem eq_of_tokens {pieces others : List Piece} (sameTokens : tokens others = tokens pieces)
    (sameNames : paramNames others = paramNames pieces) : others = pieces := by
  induction pieces generalizing others with
  | nil => exact map_eq_nil_iff.mp sameTokens
  | cons piece pieces ih =>
    cases others with
    | nil => cases sameTokens
    | cons other others =>
      obtain ⟨sameToken, sameRest⟩ := List.cons.inj sameTokens
      cases piece <;> cases other <;> simp_all [Piece.token, paramNames, tokens]

theorem paramNames_of_bytes {pieces : List Piece}
    (isText : tokens pieces = text.map Token.byte) : paramNames pieces = [] := by
  induction pieces generalizing text with
  | nil => rfl
  | cons piece pieces ih =>
    cases text with
    | nil => cases isText
    | cons b text =>
      obtain ⟨sameToken, sameRest⟩ := List.cons.inj isText
      cases piece with
      | byte c => exact ih sameRest
      | param | catchAll => cases sameToken

/-! ## Answers -/

/-- A path is answered as before, unless the pattern answered it. -/
def AnswersBut (text : Bytes) (value : T) (before after : Node T) (path : Bytes) : Prop :=
  answerOf (after.atPath path) = answerOf (before.atPath path) ∨
    ∃ pieces params, readPattern text = some pieces ∧
      answerOf (before.atPath path) = .ok (value, params) ∧
      fill pieces params = some path

section Answers

variable {tree after : Node T} {pieces : List Piece}

theorem answer_of_loses (sorted : Sorted tree) (afterSorted : Sorted after)
    (loses : Table.Loses (tokens pieces) tree.table after.table) (path : Bytes) :
    answerOf (after.atPath path) = answerOf (tree.atPath path) ∨
      ∃ found, answerOf (tree.atPath path) = finish [] found ∧
        tree.table.FoundBy (tokens pieces) path found := by
  rw [afterSorted.atPath_eq, sorted.atPath_eq]
  rcases loses.lookup path with same | ⟨found, isFound, foundBy⟩
  · left
    rw [same]
  · grind

theorem answersBut_of_loses {text : Bytes} {value : T} (sorted : Sorted tree)
    (afterSorted : Sorted after) (reading : readPattern text = some pieces)
    (loses : Table.Loses (tokens pieces) tree.table after.table)
    (own : ∀ {names : ParamRemapping} {other : T},
      tree.table.live (tokens pieces) names other →
        names = paramNames pieces ∧ value = other) (path : Bytes) :
    AnswersBut text value tree after path := by
  rcases answer_of_loses sorted afterSorted loses path with
    same | ⟨found, isAnswer, stored, fills⟩
  · exact Or.inl same
  · obtain ⟨isNames, isValue⟩ := own stored
    obtain ⟨params, answered, filled⟩ := finish_of_fills fills isNames
    rw [isValue]
    exact Or.inr ⟨pieces, params, reading, isAnswer.trans answered, filled⟩

end Answers

/-! ## Removing and inserting again -/

structure Accounted (tree : Node T) (live : List (Bytes × T)) : Prop
    extends Sorted tree where
  valued : WellValued tree
  stores : Stores tree live
  regular : ∀ item ∈ live, IsRegular item.1

theorem run_accounted {calls : List (Call T)} (separate : Admits Separate calls) :
    ∃ live, Accounts calls live ∧ Accounted (run calls) live := by
  have regular : Admits Regular calls := separate.mono fun _ _ => regular_of_separate
  have faithful : Admits Faithful calls := separate.mono fun _ _ => faithful_of_separate
  obtain ⟨sorted, valued⟩ := run_sorted calls regular
  obtain ⟨live, accounts, stores, _⟩ := (run_sound calls faithful).accounts
  exact ⟨live, accounts,
    { sorted with
      valued := valued
      stores := stores
      regular := accounts_regular accounts regular }⟩

theorem remove_sorted {tree : Node T} (sorted : Sorted tree) (text : Bytes) :
    Sorted (tree.remove text).1 :=
  { remove_rooted sorted.toRooted text with
    ordered := (remove_tidied sorted.toRooted sorted.ordered text).ordered }

theorem withdraws_loses {tree after : Node T} {names : ParamRemapping}
    {removed : Option T} {route : List Token} (sorted : Sorted tree)
    (withdraws : Withdraws names tree after removed route)
    (alone : Alone tree route) : Table.Loses route tree.table after.table := by
  obtain ⟨marks, reads, fewer⟩ := withdraws.routes
  apply loses_of_perm sorted fewer _ (forall_mem_nil _) _ withdraws.offers withdraws.lost alone
  · simp_all
  · simp

/-- A pattern of a tree that `remove` finds by its text. -/
structure Hit (tree : Node T) (live : List (Bytes × T)) (text : Bytes)
    (pieces : List Piece) (other : Bytes) (value : T)
    (rest : List (Bytes × T)) : Prop where
  reading : readPattern text = some pieces
  unshifted : Unshifted pieces = true
  alone : Alone tree (tokens pieces)
  withdrawn : Withdrawn tree text (some value) (paramNames pieces) (tokens pieces)
  moved : live.Perm ((other, value) :: rest)
  same : readPattern other = some pieces
  stores : Stores (tree.remove text).1 rest

section Removing

variable {tree : Node T} {live rest : List (Bytes × T)}
variable {text other : Bytes} {pieces : List Piece} {value : T}

theorem hit_of_withdrawn {normal : UnescapedRoute} {names own : ParamRemapping}
    (accounted : Accounted tree live)
    (normalized : normalizeParams (UnescapedRoute.new text) = .ok (normal, names))
    (reading : readPattern text = some pieces) (unshifted : Unshifted pieces = true)
    (alone : Alone tree (tokens pieces))
    (withdrawn : Withdrawn tree text (some value) own (tokens pieces))
    (isOwn : own = names ∨ tokens pieces = tree.label) :
    ∃ other rest, Hit tree live text pieces other value rest := by
  obtain ⟨marks, reads, fewer⟩ := withdrawn.withdraws.routes
  obtain ⟨⟨other, stored⟩, rest, moved, isTaken, stores⟩ := stores_taken accounted.stores fewer
  obtain ⟨pieces', reading', unshifted', _⟩ := accounted.regular _ (moved.mem_iff.mpr mem_cons_self)
  obtain ⟨reads', ownNames, sameValue⟩ := storedAs_reads reading' unshifted' isTaken
  have sameTokens : tokens pieces' = tokens pieces := reads'.unique reads
  have isNames : own = paramNames pieces := by
    rcases isOwn with isNames | isLabel
    · rw [isNames]
      exact (normalizeParams_pattern reading unshifted normalized).2.1
    · rw [label_of_static accounted.notWild] at isLabel
      rw [paramNames_of_bytes isLabel]
      exact ownNames.trans (paramNames_of_bytes (sameTokens.trans isLabel))
  have samePieces : pieces' = pieces := eq_of_tokens sameTokens (ownNames.symm.trans isNames)
  have isStored : stored = value := sameValue.symm
  subst isNames isStored samePieces
  exact ⟨other, rest, reading, unshifted, alone, withdrawn, moved, reading', stores⟩

/-- A removal that keeps patterns apart takes nothing out, or one pattern. -/
theorem remove_of_separate (accounted : Accounted tree live)
    (separate : Separate tree (.remove text)) :
    ((∀ value, (tree.remove text).2 ≠ .ok (some value)) ∧
      Stores (tree.remove text).1 live ∧
      ∀ path, answerOf ((tree.remove text).1.atPath path) = answerOf (tree.atPath path)) ∨
    ∃ pieces other value rest, (tree.remove text).2 = .ok (some value) ∧
      Hit tree live text pieces other value rest := by
  rcases remove_withdrawn accounted.toSorted accounted.valued text with
    ⟨unchanged, outcome⟩ |
      ⟨normal, names, removed, own, route, normalized, spelled, withdrawn, isOwn⟩
  · left
    rw [unchanged]
    refine ⟨?_, accounted.stores, fun _ => rfl⟩
    grind
  · obtain ⟨pieces, reading, unshifted, only, alone⟩ := separate _ normalized
    have isRoute := only route spelled
    subst isRoute
    cases removed with
    | none =>
      left
      refine ⟨?_, ?_, ?_⟩
      · intro value isValue
        have outcome := withdrawn.outcome
        simp_all
      · obtain ⟨_, _, fewer⟩ := withdrawn.withdraws.routes
        exact (fewer.symm.map some).trans accounted.stores
      · intro path
        have loses := withdraws_loses accounted.toSorted withdrawn.withdraws alone
        rcases answer_of_loses accounted.toSorted (remove_sorted accounted.toSorted text)
          loses path with same | ⟨found, _, stored, _⟩
        · exact same
        · have impossible := (withdrawn.withdraws.only stored).2
          cases impossible
    | some value =>
      right
      obtain ⟨other, rest, hit⟩ :=
        hit_of_withdrawn accounted normalized reading unshifted alone withdrawn isOwn
      have outcome := withdrawn.outcome.resolve_right (by simp)
      exact ⟨pieces, other, value, rest, outcome, hit⟩

section

variable (hit : Hit tree live text pieces other value rest)

include hit

theorem Hit.own {names : ParamRemapping} {stored : T}
    (isStored : tree.table.live (tokens pieces) names stored) :
    names = paramNames pieces ∧ value = stored := by
  obtain ⟨isNames, isValue⟩ := hit.withdrawn.withdraws.only isStored
  exact ⟨isNames, Option.some.inj isValue⟩

theorem Hit.taken :
    ∃ marks, Reads marks (tokens pieces) ∧ tree.routes.Perm
      ({ marks := marks, names := paramNames pieces, value := value } ::
        (tree.remove text).1.routes) :=
  hit.withdrawn.withdraws.routes

theorem Hit.stored : tree.table.live (tokens pieces) (paramNames pieces) value := by
  obtain ⟨marks, reads, fewer⟩ := hit.taken
  exact ⟨_, fewer.mem_iff.mpr mem_cons_self, reads, rfl, rfl⟩

theorem Hit.isRegular (accounted : Accounted tree live) : IsRegular text := by
  obtain ⟨pieces', reading', _, regular⟩ :=
    accounted.regular _ (hit.moved.mem_iff.mpr mem_cons_self)
  have samePieces : pieces = pieces' := Option.some.inj (hit.same.symm.trans reading')
  subst samePieces
  exact ⟨pieces, hit.reading, hit.unshifted, regular⟩

end

theorem head_of_reads_byte {marks : List Mark} {b : UInt8} {routeTokens : List Token}
    (reads : Reads marks (.byte b :: routeTokens)) :
    marks.head? ≠ some (openBrace, false) := by
  cases reads with
  | byte plain _ =>
    intro isHead
    rw [List.head?_cons, Option.some.injEq] at isHead
    rw [isHead] at plain
    exact (plain rfl).1 rfl

section

variable (hit : Hit tree live text pieces other value rest) (accounted : Accounted tree live)

include hit accounted

/-- A pattern that was in the tree does not begin with a wildcard behind the
prefix of the root. -/
theorem Hit.not_keepsPrefix : ¬ KeepsPrefix (tree.remove text).1 text := by
  intro keepsPrefix
  obtain ⟨normal, names, normalized, _, _, isHead, hasPrefix⟩ := keepsPrefix
  rw [hit.withdrawn.prefixes hasPrefix] at hasPrefix
  obtain ⟨behind, isTokens, _⟩ := (table_live accounted.shaped.here).mp hit.stored
  obtain ⟨reads, _⟩ := normalizeParams_pattern hit.reading hit.unshifted normalized
  rw [isTokens, label_of_static accounted.notWild] at reads
  cases isPrefix : tree.pfx.inner with
  | nil => exact hasPrefix isPrefix
  | cons b label =>
    rw [isPrefix] at reads
    exact head_of_reads_byte reads isHead

/-- What an insert of the pattern does to the routes of the tree without it. -/
theorem Hit.insert_routes (val : T) :
    ∃ own : List (Bytes × T), (own = [] ∨ own = [(text, val)]) ∧
      ∃ gained : List (Route T), gained.map some = own.map storedAs ∧
        (∀ item ∈ gained, Reads item.marks (tokens pieces)) ∧
        ((tree.remove text).1.insert text val).1.routes.Perm
          (gained ++ (tree.remove text).1.routes) := by
  have rooted := remove_rooted accounted.toRooted text
  rcases @Node.insert_routes T val _ text rooted (hit.not_keepsPrefix accounted) with
    ⟨_, same⟩ | ⟨normal, names, normalized, _, grown⟩
  · exact ⟨[], Or.inl rfl, [], rfl, forall_mem_nil _, same⟩
  · refine ⟨[(text, val)], Or.inr rfl,
      [{ marks := normal.marks, names := names, value := val }], ?_, ?_, grown⟩
    · simp [storedAs, normalized]
    · exact forall_mem_singleton.mpr
        (normalizeParams_pattern hit.reading hit.unshifted normalized).1

theorem Hit.insert_widens (val : T) :
    Widens (tree.remove text).1 ((tree.remove text).1.insert text val).1 (tokens pieces) := by
  have sorted := remove_sorted accounted.toSorted text
  have cleared := hit.not_keepsPrefix accounted
  rcases @insert_cases T val _ text sorted.shaped sorted.notWild with
    ⟨unchanged, _⟩ | ⟨normal, names, normalized, _⟩
  · rw [unchanged]
    exact .of_iff fun _ _ => Iff.rfl
  · have reads := (normalizeParams_pattern hit.reading hit.unshifted normalized).1
    exact Node.insert_widens sorted (hit.isRegular accounted) cleared normalized reads

/-- The tree with the pattern inserted again differs from the one before at most by
the pattern. -/
theorem Hit.loses_insert (val : T) :
    Table.Loses (tokens pieces) tree.table ((tree.remove text).1.insert text val).1.table := by
  obtain ⟨marks, reads, fewer⟩ := hit.taken
  obtain ⟨_, _, gained, _, ownGained, grown⟩ := hit.insert_routes accounted val
  have widens := hit.insert_widens accounted val
  have swapped : (gained ++ tree.routes).Perm
      ([{ marks := marks, names := paramNames pieces, value := value }] ++
        ((tree.remove text).1.insert text val).1.routes) := by
    apply (fewer.append_left gained).trans
    apply perm_middle.trans
    exact (grown.cons _).symm
  apply loses_of_perm accounted.toSorted swapped _ ownGained _ _ _ hit.alone
  · exact forall_mem_singleton.mpr reads
  · intro _
    exact ⟨_, _, hit.stored⟩
  · intro front shown offered
    rcases widens.gained offered with before | presents
    · exact hit.withdrawn.withdraws.offers before
    · exact offers_of_live accounted.shaped accounted.ordered hit.stored presents
  · intro front shown offered gone
    apply hit.withdrawn.withdraws.lost offered
    intro still
    exact gone (widens.kept still)

end

end Removing

/-- The pattern is live with the value, the others stay in the tree, and a path is
answered as before unless the pattern answered it. -/
def Leaves (live : List (Bytes × T)) (text : Bytes) (value : T)
    (own : List (Bytes × T)) (before after : Node T) : Prop :=
  ∃ pieces other rest, live.Perm ((other, value) :: rest) ∧
    readPattern other = some pieces ∧ readPattern text = some pieces ∧
    Stores after (own ++ rest) ∧ ∀ path, AnswersBut text value before after path

section Leaves

variable {tree : Node T} {live rest : List (Bytes × T)}
variable {text other : Bytes} {pieces : List Piece} {value : T}

theorem Hit.leaves_remove (hit : Hit tree live text pieces other value rest)
    (accounted : Accounted tree live) :
    Leaves live text value [] tree (tree.remove text).1 := by
  refine ⟨pieces, other, rest, hit.moved, hit.same, hit.reading, hit.stores, ?_⟩
  intro path
  apply answersBut_of_loses accounted.toSorted (remove_sorted accounted.toSorted text)
    hit.reading _ hit.own path
  exact withdraws_loses accounted.toSorted hit.withdrawn.withdraws hit.alone

theorem Hit.leaves_insert (hit : Hit tree live text pieces other value rest)
    (accounted : Accounted tree live) (val : T) :
    ∃ own : List (Bytes × T), (own = [] ∨ own = [(text, val)]) ∧
      Leaves live text value own tree ((tree.remove text).1.insert text val).1 := by
  obtain ⟨own, isOwn, gained, isGained, _, grown⟩ := hit.insert_routes accounted val
  refine ⟨own, isOwn, pieces, other, rest, hit.moved, hit.same, hit.reading, ?_, ?_⟩
  · have stored := grown.map some
    rw [map_append, isGained] at stored
    rw [Stores, map_append]
    exact stored.trans (hit.stores.append_left (own.map storedAs))
  · intro path
    have removed := remove_sorted accounted.toSorted text
    have inserted : Sorted ((tree.remove text).1.insert text val).1 :=
      { insert_rooted removed.toRooted text val with
        ordered := (insert_tidied removed.toRooted removed.ordered
          fun _ _ => hit.isRegular accounted).ordered }
    exact answersBut_of_loses accounted.toSorted inserted hit.reading
      (hit.loses_insert accounted val) hit.own path

end Leaves

end Node

/-! ## Adding a method to a route -/

theorem insertEntry_fst {tree : Node (RouteSlot T)} {pattern path : Bytes}
    {entry : RouteEntry T} {slot : RouteSlot T}
    (removed : (tree.remove pattern).2 = .ok (some slot)) :
    (insertEntry tree pattern entry path).1 =
      ((tree.remove pattern).1.insert pattern (slot.push entry).1).1 := by
  simp only [insertEntry, removed]
  split
  · split <;> rfl
  · rfl

/-- Behind every history that keeps patterns apart, `remove` takes out at most the
pattern with the pieces of its text; the others stay in the tree, and every path
is answered as before unless that pattern answered it.  So it is for
`insert_entry` on a pattern that has a slot. -/
theorem remove_leaves_others :
    (∀ (calls : List (Call T)) (text : Bytes),
      Node.Admits Node.Separate (calls ++ [.remove text]) →
      ∃ live, Node.Accounts calls live ∧
        ((∀ value, ((Node.run calls).remove text).2 ≠ .ok (some value)) ∧
            Node.Stores ((Node.run calls).remove text).1 live ∧
            (∀ path, Node.answerOf (((Node.run calls).remove text).1.atPath path) =
              Node.answerOf ((Node.run calls).atPath path)) ∨
          ∃ value, ((Node.run calls).remove text).2 = .ok (some value) ∧
            Node.Leaves live text value [] (Node.run calls) ((Node.run calls).remove text).1)) ∧
    ∀ (calls : List (Call (RouteSlot T))) (pattern path : Bytes)
      (entry : RouteEntry T) (slot : RouteSlot T),
      Node.Admits Node.Separate (calls ++ [.remove pattern]) →
      ((Node.run calls).remove pattern).2 = .ok (some slot) →
      ∃ live own, Node.Accounts calls live ∧
        (own = [] ∨ own = [(pattern, (slot.push entry).1)]) ∧
        Node.Leaves live pattern slot own (Node.run calls)
          (insertEntry (Node.run calls) pattern entry path).1 := by
  constructor
  · intro calls text separate
    obtain ⟨live, accounts, accounted⟩ := Node.run_accounted separate.front
    refine ⟨live, accounts, ?_⟩
    rcases Node.remove_of_separate accounted separate.last with
      nothing | ⟨pieces, other, value, rest, outcome, hit⟩
    · exact Or.inl nothing
    · exact Or.inr ⟨value, outcome, hit.leaves_remove accounted⟩
  · intro calls pattern path entry slot separate removed
    obtain ⟨live, accounts, accounted⟩ := Node.run_accounted separate.front
    rcases Node.remove_of_separate accounted separate.last with
      ⟨nothing, _⟩ | ⟨pieces, other, value, rest, outcome, hit⟩
    · exact absurd removed (nothing slot)
    · have isSlot : value = slot := by
        rw [removed] at outcome
        cases outcome
        rfl
      subst isSlot
      obtain ⟨own, isOwn, leaves⟩ := hit.leaves_insert accounted (value.push entry).1
      refine ⟨live, own, accounts, isOwn, ?_⟩
      rw [insertEntry_fst removed]
      exact leaves

theorem separate_of_two {tree : Node T} (isPrefix : tree.pfx.inner = [47])
    (notWild : tree.isWild = false)
    (children : tree.children.map
      (fun child => (child.pfx.inner, child.isWild, child.children.isEmpty)) =
        [([97], false, true), ([98], false, true)]) :
    Node.Separate tree (.remove [47, 97]) := by
  have reading : readPattern [47, 97] = some [.byte 47, .byte 97] := by decide
  have normalizes : normalizeParams (UnescapedRoute.new [47, 97]) =
      .ok (UnescapedRoute.new [47, 97], []) := by
    decide
  intro normal normalized
  rw [normalizes] at normalized
  cases normalized
  refine ⟨[.byte 47, .byte 97], reading, rfl, ?_, ?_⟩
  · intro route spelled
    have isBytes : (UnescapedRoute.new [47, 97]).inner = [47, 97] := by decide
    rw [isBytes] at spelled
    generalize whole : ([47, 97] : Bytes) = bytes at spelled
    cases spelled with
    | here => simp [isPrefix] at whole
    | @inner _ child front bytes member inside =>
      rw [isPrefix] at whole
      have isRest : [97] = bytes := (List.cons.inj whole).2
      have shown := mem_map_of_mem
        (f := fun child : Node T => (child.pfx.inner, child.isWild, child.children.isEmpty)) member
      rw [children] at shown
      have plain : child.isWild = false ∧ child.children = [] := by
        simp only [mem_cons, Prod.mk.injEq, List.isEmpty_iff] at shown
        grind
      cases inside with
      | here =>
        rw [Node.label_of_static notWild, Node.label_of_static plain.1, isPrefix, ← isRest]
        rfl
      | inner deeper _ => simp [plain.2] at deeper
  · intro front text shorter isRoute
    have inBytes : Token.param ∈ tokens [.byte 47, .byte 97] := by
      rw [isRoute]
      simp
    simp [tokens, Piece.token] at inBytes

theorem admits_two (first second : T)
    (separate : Node.Separate (Node.run [.insert [47, 97] first, .insert [47, 98] second])
      (.remove [47, 97])) :
    Node.Admits Node.Separate
      ([.insert [47, 97] first, .insert [47, 98] second] ++ [.remove [47, 97]]) := by
  have regularA : Node.IsRegular [47, 97] := ⟨[.byte 47, .byte 97], by decide, rfl, rfl⟩
  have regularB : Node.IsRegular [47, 98] := ⟨[.byte 47, .byte 98], by decide, rfl, rfl⟩
  intro before next after cut
  rcases before with _ | ⟨one, _ | ⟨two, _ | ⟨three, before⟩⟩⟩
  · cases cut
    exact ⟨Node.not_keepsPrefix (UnescapedRoute.new [47, 97]) [] (by decide) (by decide),
      fun _ _ => regularA⟩
  · cases cut
    exact ⟨Node.not_keepsPrefix (UnescapedRoute.new [47, 98]) [] (by decide) (by decide),
      fun _ _ => regularB⟩
  · cases cut
    exact separate
  · simp at cut

def getSlot : RouteSlot Nat where
  first := { methods := .new .get, value := 1, implicit := false }
  rest := []

theorem remove_leaves_others_two :
    (∃ live, Node.Accounts [.insert [47, 97] 1, .insert [47, 98] 2] live ∧
      Node.Leaves live [47, 97] 1 [] (Node.run [.insert [47, 97] 1, .insert [47, 98] 2] : Node Nat)
        ((Node.run [.insert [47, 97] 1, .insert [47, 98] 2] : Node Nat).remove [47, 97]).1) ∧
    ∃ live own, Node.Accounts [.insert [47, 97] getSlot, .insert [47, 98] getSlot] live ∧
      Node.Leaves live [47, 97] getSlot own
        (Node.run [.insert [47, 97] getSlot, .insert [47, 98] getSlot])
        (insertEntry (Node.run [.insert [47, 97] getSlot, .insert [47, 98] getSlot])
          [47, 97] { methods := .new .post, value := 2, implicit := false }
          [47, 97]).1 := by
  constructor
  · have removed : ((Node.run [.insert [47, 97] 1, .insert [47, 98] 2] : Node Nat).remove
        [47, 97]).2 = .ok (some 1) := by
      decide
    have separate : Node.Separate (Node.run [.insert [47, 97] 1, .insert [47, 98] 2] : Node Nat)
        (.remove [47, 97]) :=
      separate_of_two (by decide) (by decide) (by decide)
    obtain ⟨live, accounts, ⟨nothing, _⟩ | ⟨value, outcome, leaves⟩⟩ :=
      remove_leaves_others.1 _ _ (admits_two 1 2 separate)
    · exact absurd removed (nothing 1)
    · grind
  · have removed : ((Node.run [.insert [47, 97] getSlot, .insert [47, 98] getSlot]).remove
        [47, 97]).2 = .ok (some getSlot) := by
      decide
    have separate : Node.Separate (Node.run [.insert [47, 97] getSlot, .insert [47, 98] getSlot])
        (.remove [47, 97]) :=
      separate_of_two (by decide) (by decide) (by decide)
    obtain ⟨live, own, accounts, _, leaves⟩ := remove_leaves_others.2 _ _ [47, 97]
      { methods := .new .post, value := 2, implicit := false } _
      (admits_two getSlot getSlot separate) removed
    exact ⟨live, own, accounts, leaves⟩

/-- Three patterns, the first of which hides the second from paths that end with
`b/`. -/
def masking : List (Call Nat) :=
  [.insert (bytes "/s/\x7bx\x7db/") 1, .insert (bytes "/s/\x7by\x7d/c") 2,
    .insert (bytes "/\x7bw\x7d/ab/c") 3]

/-- Removing a catch-all takes out a pattern of literal braces, and removing a
pattern moves a path of another one to a third. -/
theorem remove_takes_escaped :
    (((Node.run [.insert (bytes "/\x7b\x7b*a\x7d\x7d") 1] : Node Nat).remove
        (bytes "/\x7b*a\x7d")).2 = .ok (some 1) ∧
      readPattern (bytes "/\x7b\x7b*a\x7d\x7d") ≠ readPattern (bytes "/\x7b*a\x7d")) ∧
    Node.answerOf ((Node.run masking).atPath (bytes "/s/ab/c")) =
      .ok (3, [{ key := bytes "w", value := bytes "s" }]) ∧
    Node.answerOf (((Node.run masking).remove (bytes "/s/\x7bx\x7db/")).1.atPath
      (bytes "/s/ab/c")) = .ok (2, [{ key := bytes "y", value := bytes "ab" }]) := by
  decide +kernel

end Ophan.Router
