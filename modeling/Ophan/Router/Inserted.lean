import Ophan.Router.Offers

/-!
# Trees of inserted patterns

A tree that some regular patterns were inserted into, all with success, has
the table of these patterns: their routes, and the texts that stand behind
their parameters.  The order of the inserts has no part in it.
-/

namespace Ophan.Router

open List

universe u

variable {T : Type u}

/-! ## Offers of the stored routes -/

theorem Presents.of_bytes {text : Bytes} {rest front : List Token} {suffix : Bytes}
    (presents : Presents (text.map Token.byte ++ rest) front suffix) :
    ∃ front', front = text.map Token.byte ++ front' ∧ Presents rest front' suffix := by
  induction text generalizing front with
  | nil => exact ⟨front, rfl, presents⟩
  | cons b text ih =>
    obtain ⟨back, cut, isText, nonempty⟩ := presents
    cases front with
    | nil => cases cut
    | cons token front =>
      rw [map_cons, cons_append, cons_append, List.cons.injEq] at cut
      obtain ⟨front', isFront, presents'⟩ := ih ⟨back, cut.2, isText, nonempty⟩
      simp_all

theorem not_presents_nil {front : List Token} {text : Bytes} : ¬ Presents [] front text := by
  intro presents
  obtain ⟨back, cut, _⟩ := presents
  simp at cut

namespace Node

variable {routeTokens : List Token} {names : ParamRemapping} {text : Bytes}

theorem offers_of_live {node : Node T} (shaped : WellShaped node)
    (ordered : WellOrdered node) {front : List Token} {value : T}
    (stored : node.table.live routeTokens names value)
    (presents : Presents routeTokens front text) :
    Offers node front text := by
  induction shaped generalizing routeTokens front with
  | @mk node here below ih =>
    obtain ⟨rest, rfl, inside⟩ := (table_live here).mp stored
    have inChild : ∀ {front' : List Token}, Presents rest front' text →
        ∃ child ∈ node.children, Offers child front' text := by
      intro front' presents'
      rcases inside with ⟨rfl, _⟩ | ⟨child, member, childStored⟩
      · exact absurd presents' not_presents_nil
      · exact ⟨child, member, ih child member (ordered.child member) childStored presents'⟩
    cases here with
    | static notWild _ _ =>
      have isLabel := label_of_static notWild
      rw [isLabel] at presents
      obtain ⟨front', rfl, presents'⟩ := presents.of_bytes
      obtain ⟨child, member, offered⟩ := inChild presents'
      rw [← isLabel]
      exact Offers.inner member offered
    | param kind _ _ _ _ static =>
      rw [label_of_param kind] at presents
      obtain ⟨back, cut, isText, nonempty⟩ := presents
      cases front with
      | nil =>
        rw [singleton_append, nil_append, List.cons.injEq] at cut
        rw [← cut.2] at isText
        rcases inside with ⟨rfl, _⟩ | ⟨child, member, childStored⟩
        · exact absurd isText.symm nonempty
        · have isSuffix := (ordered.here.param _ kind).suffixes child member
          have sameText :=
            isSuffix.suffixOf_live (below child member).here
              (isWild_of_static (static child member)) childStored
          rw [isText] at sameText
          rw [sameText]
          exact Offers.here (isParam_of_kind kind) member
      | cons token front' =>
        rw [singleton_append, cons_append, List.cons.injEq] at cut
        obtain ⟨child, member, offered⟩ := inChild ⟨back, cut.2, isText, nonempty⟩
        have lifted := Offers.inner member offered
        rw [label_of_param kind] at lifted
        rw [← cut.1]
        exact lifted
    | catchAll kind _ _ _ _ noChildren _ =>
      rcases inside with ⟨rfl, _⟩ | ⟨child, member, _⟩
      · obtain ⟨back, cut, _⟩ := presents
        rw [label, kind] at cut
        cases front with
        | nil => cases cut
        | cons token front' => simp at cut
      · simp [noChildren] at member

/-! ## Inserting patterns one after the other -/

def insertAll (items : List (Bytes × T)) : Node T :=
  run (items.map fun item => .insert item.1 item.2)

def StoresAll (items : List (Bytes × T)) : Prop :=
  ∀ before item after, items = before ++ item :: after →
    ((insertAll before).insert item.1 item.2).2 = .ok ()

theorem insertAll_concat (items : List (Bytes × T)) (last : Bytes × T) :
    insertAll (items ++ [last]) = ((insertAll items).insert last.1 last.2).1 := by
  rw [insertAll, map_append, map_singleton, run_concat]
  rfl

variable {items : List (Bytes × T)}

theorem StoresAll.earlier {last : Bytes × T} (stored : StoresAll (items ++ [last])) :
    StoresAll items ∧ ((insertAll items).insert last.1 last.2).2 = .ok () := by
  refine ⟨?_, stored items last [] rfl⟩
  intro before item after cut
  apply stored before item (after ++ [last])
  rw [cut]
  simp

def patternTable (items : List (Bytes × T)) : Table T where
  live routeTokens names value :=
    ∃ text pieces, (text, value) ∈ items ∧ readPattern text = some pieces ∧
      tokens pieces = routeTokens ∧ paramNames pieces = names
  offers front text :=
    ∃ item ∈ items, ∃ pieces, readPattern item.1 = some pieces ∧ Presents (tokens pieces) front text

variable {val : T}

/-- A route planted at a node without children offers what it presents. -/
theorem Planted.presents_of_leaf
    {self node : Node T} {marks : List Mark} {stored : Bool} {front : List Token}
    (planted : Planted names val self.bump marks node stored)
    (fit : Fit false marks) (noChildren : self.children = [])
    (noPrefix : marks.head? = some (openBrace, false) → self.pfx.inner = [])
    (static : node.isWild = false) (reads : Reads marks routeTokens)
    (offered : Offers node front text) :
    Presents routeTokens front text := by
  cases planted with
  | refused irregular => exact absurd irregular fit.not_irregular
  | wild starts hung =>
    have presents := hung.presents (hung.widensBelow reads) noChildren static offered
    have noBytes : self.bump.pfx.inner = [] := noPrefix starts
    rwa [noBytes] at presents
  | @static _ pfx rest _ _ plain hung =>
    obtain ⟨restTokens, rfl, restReads⟩ := reads.of_plain_append plain
    rw [pfx.map_fst_marks]
    exact hung.presents (hung.widensBelow restReads) noChildren static offered

/-- An insert offers what its route presents at most. -/
theorem insert_widens {self : Node T} {route : UnescapedRoute} (sorted : Sorted self)
    (regular : IsRegular text) (cleared : ¬ KeepsPrefix self text) (normalized :
      normalizeParams (UnescapedRoute.new text) = .ok (route, names))
    (reads : Reads route.marks routeTokens) :
    Widens self (self.insert text val).1 routeTokens := by
  have fit := fit_of_isRegular regular normalized
  rcases insert_cases sorted.shaped sorted.notWild with
    ⟨unchanged, _⟩ | ⟨other, otherNames, otherNormalized, planted | grown⟩
  · rw [unchanged]
    exact .of_iff fun _ _ => Iff.rfl
  · rw [normalized] at otherNormalized
    cases otherNormalized
    obtain ⟨noValue, noChildren, node, planted, result⟩ := planted
    have noPrefix : route.marks.head? = some (openBrace, false) → self.pfx.inner = [] := by
      intro starts
      by_contra somePrefix
      exact cleared ⟨route, names, normalized, noValue, noChildren, starts, somePrefix⟩
    have sameType := (planted.wellShaped (wellShaped_bump sorted.shaped) sorted.notWild).2
    have static : node.isWild = false := by
      rw [isWild, sameType]
      exact sorted.notWild
    have presents : ∀ {front : List Token} {text : Bytes},
        Offers node front text → Presents routeTokens front text := by
      intro front text offered
      exact planted.presents_of_leaf fit noChildren noPrefix static reads offered
    refine ⟨?_, fun offered => absurd offered (not_offers_of_leaf noChildren)⟩
    intro front text offered
    right
    apply presents
    rw [result] at offered
    split at offered
    · have sameLabel : ({ node with nodeType := .root } : Node T).label = node.label := by
        rw [label_of_static static, label_of_static (by rfl)]
      exact (offers_congr sameLabel (not_isParam_of_not_isWild static).symm rfl).mp offered
    · exact offered
  · rw [normalized] at otherNormalized
    cases otherNormalized
    exact (grown.2.widens (wellShaped_bump sorted.shaped)
      (wellOrdered_bump sorted.ordered) (Or.inl fit) reads).of_bump

theorem storedAs_reads {item : Bytes × T} {pieces : List Piece}
    {route : Route T} (reading : readPattern item.1 = some pieces)
    (unshifted : Unshifted pieces = true) (isRoute : storedAs item = some route) :
    Reads route.marks (tokens pieces) ∧ route.names = paramNames pieces ∧ route.value = item.2 := by
  rw [storedAs] at isRoute
  split at isRoute
  · rename_i normal names normalized
    rw [Option.some.injEq] at isRoute
    obtain ⟨reads, isNames, _⟩ := normalizeParams_pattern reading unshifted normalized
    grind
  · cases isRoute

structure Inserted (items : List (Bytes × T)) (tree : Node T) :
    Prop extends Sorted tree where
  stores : Stores tree items
  backed : ∀ {front : List Token} {text : Bytes},
    Offers tree front text → (patternTable items).offers front text
  cleared : tree.value = none → tree.children = [] → tree.pfx.inner = []

theorem inserted_nil : Inserted ([] : List (Bytes × T)) empty :=
  { empty_rooted with
    ordered := empty_wellOrdered
    stores := by simp [Stores]
    backed := fun offered => absurd offered (not_offers_of_leaf rfl)
    cleared := fun _ _ => rfl }

theorem Inserted.insert {tree : Node T} (inserted : Inserted items tree)
    (regular : IsRegular text) (stored : (tree.insert text val).2 = .ok ()) :
    Inserted (items ++ [(text, val)]) (tree.insert text val).1 := by
  have kept : ¬ KeepsPrefix tree text := by
    intro keeps
    obtain ⟨_, _, _, noValue, noChildren, _, somePrefix⟩ := keeps
    exact somePrefix (inserted.cleared noValue noChildren)
  rcases insert_routes inserted.toRooted kept with
    ⟨failed, _⟩ | ⟨route, names, normalized, _, grown⟩
  · rw [stored] at failed
    cases failed
  · have isRegular := regular
    obtain ⟨pieces, reading, unshifted, _⟩ := isRegular
    obtain ⟨reads, _⟩ := normalizeParams_pattern reading unshifted normalized
    have widens : Widens tree (tree.insert text val).1 (tokens pieces) :=
      insert_widens inserted.toSorted regular kept normalized reads
    refine { insert_rooted inserted.toRooted text val with
      ordered := (insert_tidied inserted.toRooted inserted.ordered ?_).ordered
      stores := ?_
      backed := ?_
      cleared := ?_ }
    · intro _ _
      exact regular
    · have isStored :
          storedAs (text, val) = some { marks := route.marks, names := names, value := val } := by
        simp only [storedAs, normalized]
      rw [Stores, map_append, map_singleton, isStored]
      apply (grown.map some).trans
      rw [map_cons]
      exact (inserted.stores.cons _).trans (perm_append_singleton _ _).symm
    · intro front suffix offered
      rcases widens.gained offered with before | presents
      · obtain ⟨item, member, holds⟩ := inserted.backed before
        exact ⟨item, mem_append_left _ member, holds⟩
      · exact ⟨(text, val), by simp, pieces, reading, presents⟩
    · intro noValue noChildren
      have noRoutes : (tree.insert text val).1.routes = [] := by
        apply routes_of_inside_nil
        simp [inside, noValue, noChildren]
      simp_all

theorem inserted_insertAll (items : List (Bytes × T))
    (stored : StoresAll items) (regular : ∀ item ∈ items, IsRegular item.1) :
    Inserted items (insertAll items) := by
  induction items using List.reverseRecOn with
  | nil => exact inserted_nil
  | append_singleton items last ih =>
    obtain ⟨earlier, storedLast⟩ := stored.earlier
    rw [insertAll_concat]
    apply Inserted.insert _ _ storedLast
    · simp_all
    · exact regular last (by simp)

/-- The table of a tree is the one of its patterns. -/
theorem Inserted.table_eq {tree : Node T} (inserted : Inserted items tree)
    (regular : ∀ item ∈ items, IsRegular item.1) :
    tree.table = patternTable items := by
  have isLive : ∀ routeTokens names value,
      tree.table.live routeTokens names value ↔
        (patternTable items).live routeTokens names value := by
    intro routeTokens names value
    constructor
    · intro live
      obtain ⟨route, member, reads, isNames, isValue⟩ := live
      have stored : some route ∈ items.map storedAs :=
        inserted.stores.mem_iff.mp (mem_map_of_mem member)
      obtain ⟨item, itemMember, isRoute⟩ := mem_map.mp stored
      obtain ⟨pieces, reading, unshifted, _⟩ := regular item itemMember
      obtain ⟨itemReads, itemNames, itemValue⟩ := storedAs_reads reading unshifted isRoute
      refine ⟨item.1, pieces, ?_, reading, itemReads.unique reads, ?_⟩
      · grind
      · rw [← itemNames, isNames]
    · intro live
      obtain ⟨text, pieces, member, reading, isTokens, isNames⟩ := live
      have stored : storedAs (text, value) ∈ tree.routes.map some :=
        inserted.stores.mem_iff.mpr (mem_map_of_mem member)
      obtain ⟨route, routeMember, isRoute⟩ := mem_map.mp stored
      obtain ⟨other, otherReading, unshifted, _⟩ := regular _ member
      obtain ⟨itemReads, itemNames, itemValue⟩ := storedAs_reads otherReading unshifted isRoute.symm
      rw [reading, Option.some.injEq] at otherReading
      rw [← otherReading] at itemReads itemNames
      rw [← isTokens, ← isNames]
      exact ⟨route, routeMember, itemReads, itemNames, itemValue⟩
  ext routeTokens names value
  · exact isLive routeTokens names value
  · refine ⟨inserted.backed, ?_⟩
    intro offered
    obtain ⟨item, member, pieces, reading, presents⟩ := offered
    have stored := (isLive _ _ _).mpr ⟨item.1, pieces, member, reading, rfl, rfl⟩
    exact offers_of_live inserted.shaped inserted.ordered stored presents

theorem patternTable_perm {other : List (Bytes × T)}
    (perm : items.Perm other) : patternTable items = patternTable other := by
  ext routeTokens names value
  · simp only [patternTable, perm.mem_iff]
  · simp only [patternTable, perm.mem_iff]

/-- The order of the inserts has no part in the lookup. -/
theorem atPath_perm (items other : List (Bytes × T))
    (perm : items.Perm other) (stored : StoresAll items) (storedOther : StoresAll other)
    (regular : ∀ item ∈ items, IsRegular item.1) (path : Bytes) :
    answerOf ((insertAll items).atPath path) = answerOf ((insertAll other).atPath path) := by
  have regularOther : ∀ item ∈ other, IsRegular item.1 := by grind
  have inserted := inserted_insertAll items stored regular
  have insertedOther := inserted_insertAll other storedOther regularOther
  rw [inserted.atPath_eq, insertedOther.atPath_eq, inserted.table_eq regular,
    insertedOther.table_eq regularOther, patternTable_perm perm]

theorem storesAll_nil : StoresAll ([] : List (Bytes × T)) := by
  intro before item after cut
  simp at cut

theorem StoresAll.concat {last : Bytes × T} (stored : StoresAll items)
    (storedLast : ((insertAll items).insert last.1 last.2).2 = .ok ()) :
    StoresAll (items ++ [last]) := by
  intro before item after cut
  cases after using List.reverseRecOn with
  | nil => simp_all
  | append_singleton after other =>
    rw [← cons_append, ← append_assoc] at cut
    exact stored before item after (append_inj' cut rfl).1

theorem atPath_perm_users :
    let items : List (Bytes × Nat) := [(bytes "/u/\x7bid\x7d", 1), (bytes "/u/me", 2)]
    let other : List (Bytes × Nat) := [(bytes "/u/me", 2), (bytes "/u/\x7bid\x7d", 1)]
    ∀ path : Bytes,
      answerOf ((insertAll items).atPath path) = answerOf ((insertAll other).atPath path) := by
  intro items other
  apply atPath_perm items other (List.Perm.swap _ _ _)
  · exact (storesAll_nil.concat (by decide +kernel)).concat (by decide +kernel)
  · exact (storesAll_nil.concat (by decide +kernel)).concat (by decide +kernel)
  · intro item member
    simp only [items, mem_cons, not_mem_nil, or_false] at member
    rcases member with rfl | rfl
    · exact ⟨(bytes "/u/").map Piece.byte ++ [Piece.param (bytes "id")],
        by decide +kernel, by decide +kernel, by decide +kernel⟩
    · exact ⟨(bytes "/u/me").map Piece.byte,
        by decide +kernel, by decide +kernel, by decide +kernel⟩

/-- A second parameter taken for an escaped suffix forks it, and the empty
suffix hides the ones behind it in one order of the inserts. -/
theorem atPath_perm_forked_suffix :
    let items : List (Bytes × Nat) :=
      [(bytes "/\x7bx\x7d/y", 1), (bytes "/\x7bx\x7d\x7b\x7bb\x7d\x7d/z", 2),
        (bytes "/\x7bx\x7d\x7ba\x7d/c", 3)]
    let other : List (Bytes × Nat) :=
      [(bytes "/\x7bx\x7d\x7b\x7bb\x7d\x7d/z", 2), (bytes "/\x7bx\x7d\x7ba\x7d/c", 3),
        (bytes "/\x7bx\x7d/y", 1)]
    items.Perm other ∧ StoresAll items ∧ StoresAll other ∧
      answerOf ((insertAll items).atPath (bytes "/b/y")) ≠
        answerOf ((insertAll other).atPath (bytes "/b/y")) := by
  refine ⟨?_, ?_, ?_, ?_⟩
  · exact (perm_append_singleton _ _).symm
  · exact ((storesAll_nil.concat (by decide +kernel)).concat
      (by decide +kernel)).concat (by decide +kernel)
  · exact ((storesAll_nil.concat (by decide +kernel)).concat
      (by decide +kernel)).concat (by decide +kernel)
  · decide +kernel

end Node

end Ophan.Router
