import Ophan.Router.Completeness

/-!
# Tables that lose a route

What a lookup finds does not change with a route that is not the one it finds.
The texts on offer matter too: a table may lose the text behind the last
parameter of the route, as long as no shorter text shows up behind it.
-/

namespace Ophan.Router

open List

universe u

variable {T : Type u}

namespace Table

variable {table : Table T} {found : Found T}
variable {path text segment : Bytes} {skipped : Nat}

theorem isSome_lookup_bytes {names : ParamRemapping} {value : T}
    (stored : table.live (text.map Token.byte) names value) :
    (table.lookup text).isSome = true := by
  induction text generalizing table with
  | nil =>
    rw [lookup_nil]
    exact isSome_ended stored []
  | cons b text ih =>
    have static : ((table.after (.byte b)).lookup text).isSome = true := ih stored
    rw [lookup_cons, Option.isSome_or, static]
    rfl

/-! ## Losing a route -/

/-- A text that goes with a route: the route ends with it, no other route has it
there, and no shorter text takes its place, unless the route itself takes every
path that ends with it. -/
structure LostWith (table : Table T) (route front : List Token) (text : Bytes) :
    Prop where
  ends : route = front ++ .param :: text.map Token.byte
  nonempty : text ≠ []
  last : ∀ {other : List Token} {names : ParamRemapping} {value : T},
    table.live (front ++ .param :: other) names value → suffixOf other = text →
      other = text.map Token.byte
  alone : text.getLast? = some slash →
    ∀ shorter, table.offers front shorter → shorter <:+ text → shorter = text
  stored : text.getLast? ≠ some slash → ∃ names value, table.live route names value

/-- A table that differs from another one at most by a route, and by texts that
go with it. -/
structure Loses (route : List Token) (table after : Table T) : Prop where
  live : ∀ {other : List Token} {names : ParamRemapping} {value : T},
    other ≠ route → (after.live other names value ↔ table.live other names value)
  back : ∀ {names : ParamRemapping} {value : T},
    after.live route names value → ∃ names value, table.live route names value
  offers : ∀ {front : List Token} {text : Bytes}, after.offers front text → table.offers front text
  lost : ∀ {front : List Token} {text : Bytes},
    table.offers front text → ¬ after.offers front text → LostWith table route front text
  single : ∀ {front : List Token} {name : Bytes},
    route = front ++ [.catchAll name] → (∃ names value, table.live route names value) →
      ∀ {other : Bytes} {names : ParamRemapping} {value : T},
        table.live (front ++ [.catchAll other]) names value → other = name

variable {table after : Table T} {route : List Token}

theorem Loses.after_eq (loses : Loses route table after) {token : Token}
    (different : ∀ rest, route ≠ token :: rest) :
    after.after token = table.after token := by
  ext other names value
  · exact loses.live (Ne.symm (different other))
  · constructor
    · exact loses.offers
    · intro offered
      by_contra gone
      exact different _ (loses.lost offered gone).ends

theorem Loses.behind {token : Token} (loses : Loses (token :: route) table after) :
    Loses route (table.after token) (after.after token) where
  live different := by
    apply loses.live
    simp_all
  back := loses.back
  offers := loses.offers
  lost offered gone := by
    have lost := loses.lost offered gone
    exact
      { ends := (List.cons.inj lost.ends).2
        nonempty := lost.nonempty
        last := lost.last
        alone := fun slashed shorter => lost.alone slashed shorter
        stored := lost.stored }
  single := by
    intro front name ends stored other names value isOther
    have whole : token :: route = (token :: front) ++ [.catchAll name] := congrArg (token :: ·) ends
    exact loses.single whole stored isOther

theorem Loses.only (loses : Loses route table after) (text : Bytes) :
    Loses route (table.only text) (after.only text) where
  live different := and_congr_right fun _ => loses.live different
  back stored := by
    obtain ⟨names, value, before⟩ := loses.back stored.2
    exact ⟨names, value, stored.1, before⟩
  offers offered := ⟨offered.1, loses.offers offered.2⟩
  lost offered gone := by
    have lost := loses.lost offered.2 fun still => gone ⟨offered.1, still⟩
    refine ⟨lost.ends, lost.nonempty, fun stored => lost.last stored.2,
      fun slashed shorter other => lost.alone slashed shorter other.2, ?_⟩
    intro notSlashed
    obtain ⟨names, value, stored⟩ := lost.stored notSlashed
    refine ⟨names, value, ?_, stored⟩
    rw [lost.ends, suffixOf_append_param]
    exact offered.1
  single ends stored := by
    intro other names value isOther
    obtain ⟨names, value, before⟩ := stored
    exact loses.single ends ⟨names, value, before.2⟩ isOther.2

/-- The other table answers the same, or the route was the answer. -/
def Same (table : Table T) (route : List Token) (path : Bytes)
    (before result : Option (Found T)) : Prop :=
  result = before ∨ ∃ found, before = some found ∧ table.FoundBy route path found

theorem Same.or {first firstAfter second secondAfter : Option (Found T)}
    (same : Same table route path first firstAfter)
    (later : Same table route path second secondAfter) :
    Same table route path (first.or second) (firstAfter.or secondAfter) := by
  rcases same with rfl | ⟨found, rfl, foundBy⟩
  · cases firstAfter with
    | some found => exact Or.inl rfl
    | none => exact later
  · exact Or.inr ⟨found, rfl, foundBy⟩

theorem pick_congr {α : Type u} {p q : α → Prop} (same : ∀ a, p a ↔ q a) : pick p = pick q := by
  have equal : p = q := funext fun a => propext (same a)
  rw [equal]

section

variable (loses : Loses route table after)

include loses

theorem Loses.live_iff (absent : ∀ names value, ¬ table.live route names value) (other : List Token)
    (names : ParamRemapping) (value : T) :
    after.live other names value ↔ table.live other names value := by
  by_cases isRoute : other = route
  · subst isRoute
    constructor
    · intro stored
      obtain ⟨names, value, before⟩ := loses.back stored
      exact absurd before (absent names value)
    · simp_all
  · exact loses.live isRoute

theorem Loses.ended (values : List Bytes) :
    after.ended values = table.ended values ∨
      ∃ found, table.ended values = some found ∧ route = [] := by
  by_cases stored : route = [] ∧ ∃ names value, table.live route names value
  · obtain ⟨rfl, names, value, live⟩ := stored
    obtain ⟨found, isFound⟩ := Option.isSome_iff_exists.mp (isSome_ended live values)
    exact Or.inr ⟨found, isFound, rfl⟩
  · left
    rw [Table.ended, Table.ended]
    congr 1
    apply pick_congr
    intro item
    by_cases isRoute : route = []
    · subst isRoute
      apply loses.live_iff
      simp_all
    · exact loses.live (Ne.symm isRoute)

theorem Loses.catchAll (path : Bytes) :
    Same table route path (table.catchAll path) (after.catchAll path) := by
  by_cases stored : ∃ name, route = [.catchAll name] ∧ ∃ names value, table.live route names value
  · obtain ⟨name, isRoute, names, value, live⟩ := stored
    have present : (table.catchAll path).isSome = true := by
      rw [Table.catchAll, Option.isSome_map]
      rw [isRoute] at live
      exact @isSome_pick (Bytes × ParamRemapping × T) _ (name, names, value) live
    obtain ⟨found, isFound⟩ := Option.isSome_iff_exists.mp present
    obtain ⟨other, otherLive, fills⟩ := foundBy_of_catchAll isFound
    have same : other = name :=
      @Loses.single _ _ _ _ loses [] name isRoute ⟨names, value, live⟩ other _ _ otherLive
    subst same
    rw [isRoute]
    exact Or.inr ⟨found, isFound, otherLive, fills⟩
  · left
    rw [Table.catchAll, Table.catchAll]
    congr 1
    apply pick_congr
    intro item
    by_cases isRoute : route = [.catchAll item.1]
    · apply loses.live_iff
      simp_all
    · exact loses.live (Ne.symm isRoute)

theorem Loses.closest_eq_none
    (isNone : table.closest segment = none) : after.closest segment = none := by
  rw [closest_eq_none_iff] at isNone ⊢
  intro skipped inside offered
  exact isNone skipped inside (loses.offers offered)

theorem Loses.closest_eq_some (isClosest : table.closest segment = some skipped)
    (offered : after.offers [] (segment.drop (skipped + 1))) :
    after.closest segment = some skipped := by
  rw [closest_eq_some_iff] at isClosest ⊢
  refine ⟨isClosest.1, offered, ?_⟩
  intro fewer less still
  exact isClosest.2.2 fewer less (loses.offers still)

/-- Where the text of the route is gone, no shorter one takes its place. -/
theorem Loses.closest_of_lost (isClosest : table.closest segment = some skipped)
    (lost : LostWith table route [] (segment.drop (skipped + 1)))
    (gone : ¬ after.offers [] (segment.drop (skipped + 1)))
    (slashed : (segment.drop (skipped + 1)).getLast? = some slash) :
    after.closest segment = none := by
  obtain ⟨inside, _, fewest⟩ := closest_eq_some_iff.mp isClosest
  rw [closest_eq_none_iff]
  intro other otherInside offered
  have before := loses.offers offered
  rcases Nat.lt_trichotomy other skipped with less | same | more
  · exact fewest other less before
  · simp_all
  · have shorter : segment.drop (other + 1) <:+ segment.drop (skipped + 1) := by
      have cut : segment.drop (other + 1) =
          (segment.drop (skipped + 1)).drop (other - skipped) := by
        rw [drop_drop]
        congr 1
        omega
      rw [cut]
      exact drop_suffix _ _
    have equal := congrArg List.length (lost.alone slashed _ before shorter)
    rw [length_drop, length_drop] at equal
    omega

end

theorem segmentOf_cases (path : Bytes) :
    segmentOf path = path ∨ (segmentOf path).getLast? = some slash := by
  by_cases whole : path.drop (terminatorOf path) = []
  · left
    rw [segmentOf, take_of_length_le (drop_eq_nil_iff.mp whole)]
  · right
    obtain ⟨front, isFront, _⟩ := (isSegment_take_drop path).ends whole
    rw [segmentOf, isFront]
    simp

/-- The table behind a parameter whose text is gone holds only the route. -/
theorem LostWith.foundBy (lost : LostWith table route [] text)
    (inside : skipped + 1 < (segmentOf path).length)
    (isFound : ((table.after .param).only text).lookup (path.drop (skipped + 1)) = some found) :
    table.FoundBy route path (found.behind ((segmentOf path).take (skipped + 1))) := by
  obtain ⟨other, foundBy, _⟩ := foundBy_of_lookup isFound
  have isOther : other = text.map Token.byte := lost.last foundBy.1.2 foundBy.1.1
  rw [lost.ends, ← isOther]
  exact foundBy.behind inside

/-- Where the text of the route is gone, the route was found or nothing is. -/
theorem Loses.parameter_of_lost (loses : Loses route table after)
    (isClosest : table.closest (segmentOf path) = some skipped)
    (offered : table.offers [] ((segmentOf path).drop (skipped + 1)))
    (gone : ¬ after.offers [] ((segmentOf path).drop (skipped + 1)))
    (notSlash : path.head? ≠ some slash) :
    Same table route path (table.parameter lookup path) (after.parameter lookup path) := by
  have lost := loses.lost offered gone
  have inside := (closest_eq_some_iff.mp isClosest).1
  have atTable : table.parameter lookup path =
      (((table.after .param).only ((segmentOf path).drop (skipped + 1))).lookup
        (path.drop (skipped + 1))).map (Found.behind ((segmentOf path).take (skipped + 1))) := by
    simp only [parameter, if_neg notSlash, isClosest]
  cases isFound : ((table.after .param).only
      ((segmentOf path).drop (skipped + 1))).lookup (path.drop (skipped + 1)) with
  | some found =>
    rw [isFound] at atTable
    exact Or.inr ⟨_, atTable, lost.foundBy inside isFound⟩
  | none =>
    rw [isFound] at atTable
    by_cases slashed : ((segmentOf path).drop (skipped + 1)).getLast? = some slash
    · have inPath : slash ∈ path := by
        have inText := mem_of_getLast? slashed
        exact mem_of_mem_take (mem_of_mem_drop inText)
      left
      rw [atTable]
      simp only [parameter, if_neg notSlash,
        loses.closest_of_lost isClosest lost gone slashed, if_pos inPath]
      rfl
    · -- the text is the end of the path, so that the route itself is found
      exfalso
      have notSlashed : (segmentOf path).getLast? ≠ some slash := by grind
      have whole : segmentOf path = path := (segmentOf_cases path).resolve_right notSlashed
      obtain ⟨names, value, stored⟩ := lost.stored slashed
      rw [lost.ends] at stored
      rw [whole] at stored isFound slashed
      have complete : suffixOf ((path.drop (skipped + 1)).map Token.byte) =
          path.drop (skipped + 1) := by
        apply Node.suffixOf_bytes
        intro inText
        have early : path.length - 1 < (segmentOf path).length := by grind
        apply slash_not_mem_take early
        have cut : (path.drop (skipped + 1)).dropLast =
            (path.take (path.length - 1)).drop (skipped + 1) := by
          rw [dropLast_eq_take, drop_take, length_drop]
          congr 1
          omega
        rw [whole]
        rw [cut] at inText
        exact mem_of_mem_drop inText
      have present := @isSome_lookup_bytes T ((table.after .param).only (path.drop (skipped + 1)))
        (path.drop (skipped + 1)) names value ⟨complete, stored⟩
      simp [isFound] at present

theorem Loses.parameter (loses : Loses route table after) (nonempty : path ≠ [])
    (same : ∀ {inner innerAfter : Table T} {route : List Token} {rest : Bytes},
      Loses route inner innerAfter → rest.length < path.length →
      Same inner route rest (inner.lookup rest) (innerAfter.lookup rest)) :
    Same table route path (table.parameter lookup path) (after.parameter lookup path) := by
  by_cases isSlash : path.head? = some slash
  · left
    simp only [Table.parameter, if_pos isSlash]
  · cases isClosest : table.closest (segmentOf path) with
    | none =>
      have stillNone := loses.closest_eq_none isClosest
      simp only [Table.parameter, if_neg isSlash, isClosest, stillNone]
      by_cases inPath : slash ∈ path
      · left
        rw [if_pos inPath, if_pos inPath]
      · rw [if_neg inPath, if_neg inPath]
        by_cases begins : ∃ rest, route = .param :: rest
        · obtain ⟨rest, rfl⟩ := begins
          rcases loses.behind.ended [path] with equal | ⟨found, isFound, rfl⟩
          · exact Or.inl equal
          · exact Or.inr ⟨found, isFound, foundBy_of_ended isFound rfl (fills_param path)⟩
        · left
          rw [loses.after_eq fun rest isRoute => begins ⟨rest, isRoute⟩]
    | some skipped =>
      obtain ⟨inside, offered, _⟩ := closest_eq_some_iff.mp isClosest
      by_cases still : after.offers [] ((segmentOf path).drop (skipped + 1))
      · have stillClosest := loses.closest_eq_some isClosest still
        simp only [Table.parameter, if_neg isSlash, isClosest, stillClosest]
        by_cases begins : ∃ rest, route = .param :: rest
        · obtain ⟨rest, rfl⟩ := begins
          have shorter := length_drop_succ_lt nonempty skipped
          rcases same (loses.behind.only ((segmentOf path).drop (skipped + 1)))
              shorter with equal | ⟨found, isFound, foundBy⟩
          · left
            rw [equal]
          · right
            rw [isFound]
            exact ⟨_, rfl, foundBy.behind inside⟩
        · left
          rw [loses.after_eq fun rest isRoute => begins ⟨rest, isRoute⟩]
      · exact loses.parameter_of_lost isClosest offered still isSlash

/-- A lookup finds the same in a table that loses a route, unless it found that
route. -/
theorem Loses.lookup (loses : Loses route table after) (path : Bytes) :
    Same table route path (table.lookup path) (after.lookup path) := by
  generalize bound : path.length = size
  induction size using Nat.strongRecOn generalizing table after route path with
  | ind size ih =>
    cases path with
    | nil =>
      rw [lookup_nil, lookup_nil]
      rcases loses.ended [] with equal | ⟨found, isFound, rfl⟩
      · exact Or.inl equal
      · exact Or.inr ⟨found, isFound, foundBy_of_ended isFound rfl Fills.nil⟩
    | cons b tail =>
      rw [length_cons] at bound
      rw [lookup_cons, lookup_cons]
      apply Same.or
      · by_cases begins : ∃ rest, route = .byte b :: rest
        · obtain ⟨rest, rfl⟩ := begins
          rcases ih tail.length (by omega) loses.behind tail rfl with
            equal | ⟨found, isFound, stored, fills⟩
          · exact Or.inl equal
          · exact Or.inr ⟨found, isFound, stored, Fills.byte fills⟩
        · left
          rw [loses.after_eq fun rest isRoute => begins ⟨rest, isRoute⟩]
      · apply Same.or
        · apply loses.parameter (cons_ne_nil b tail)
          intro inner innerAfter innerRoute rest innerLoses shorter
          rw [length_cons] at shorter
          exact ih rest.length (by omega) innerLoses rest rfl
        · exact loses.catchAll (b :: tail)

end Table

end Ophan.Router
