import Ophan.Router.Inserted

/-!
# Which paths a lookup finds

A lookup tries every choice but one: a parameter ends in front of the longest
text that fits.  So it misses a path exactly when some pattern matches it, but
none with the longest fitting text behind each of its parameters.
-/

namespace Ophan.Router

open List

universe u v

variable {T : Type u}

/-! ## Matching -/

/-- A parameter stands for a text that is not empty and has no slash, a
catch-all for a rest that is not empty, a byte for itself. -/
inductive Matches : List Token → Bytes → Prop
  | done : Matches [] []
  | byte {b : UInt8} {rest : List Token} {path : Bytes} :
      Matches rest path → Matches (.byte b :: rest) (b :: path)
  | param {rest : List Token} {value path : Bytes} :
      value ≠ [] → slash ∉ value → Matches rest path →
      Matches (.param :: rest) (value ++ path)
  | catchAll {name value : Bytes} : value ≠ [] → Matches [.catchAll name] value

theorem Matches.bytes_append {rest : List Token} {path : Bytes}
    (matching : Matches rest path) (text : Bytes) :
    Matches (text.map Token.byte ++ rest) (text ++ path) := by
  induction text with
  | nil => exact matching
  | cons b text ih => exact Matches.byte ih

/-- A text that ends the first segment of a path and leaves a byte in front
of it. -/
def Fits (text path : Bytes) : Prop :=
  text ≠ [] ∧ text.length < (Table.segmentOf path).length ∧ text <:+ Table.segmentOf path

/-- A match in which the text behind each parameter is the longest one on
offer there that fits. -/
inductive Greedy :
    (List Token → Bytes → Prop) → List Token → Bytes → Prop
  | done {offers : List Token → Bytes → Prop} : Greedy offers [] []
  | byte {offers : List Token → Bytes → Prop} {b : UInt8}
      {rest : List Token} {path : Bytes} :
      Greedy (fun front => offers (.byte b :: front)) rest path →
      Greedy offers (.byte b :: rest) (b :: path)
  | param {offers : List Token → Bytes → Prop} {rest : List Token}
      {value path : Bytes} :
      value ≠ [] → slash ∉ value →
      (∀ text, offers [] text → Fits text (value ++ path) → text.length ≤ (suffixOf rest).length) →
      Greedy (fun front => offers (.param :: front)) rest path →
      Greedy offers (.param :: rest) (value ++ path)
  | catchAll {offers : List Token → Bytes → Prop}
      {name value : Bytes} :
      value ≠ [] → Greedy offers [.catchAll name] value

namespace Greedy

variable {offers : List Token → Bytes → Prop}
variable {routeTokens : List Token} {path : Bytes}

/-- Only what is on offer at the parameters of the route counts. -/
theorem congr {other : List Token → Bytes → Prop} (greedy : Greedy offers routeTokens path)
    (same : ∀ front back text, routeTokens = front ++ .param :: back →
      (offers front text ↔ other front text)) :
    Greedy other routeTokens path := by
  induction greedy generalizing other with
  | done => exact done
  | @byte offers b rest path _ ih =>
    apply byte
    apply ih
    simp_all
  | @param offers rest value path nonempty noSlash longest _
      ih =>
    apply param nonempty noSlash
    · simp_all
    · simp_all
  | catchAll nonempty => exact catchAll nonempty

end Greedy

/-! ## Segments of regular routes -/

/-- Behind a parameter a regular route has a complete text up to the end of
its segment. -/
theorem regular_suffix {rest : List Token} (regular : regularFrom true rest = true) :
    ∃ more, rest = (suffixOf rest).map Token.byte ++ more ∧
      slash ∉ (suffixOf rest).dropLast ∧
      (more ≠ [] → (suffixOf rest).getLast? = some slash) ∧
      (rest ≠ [] → suffixOf rest ≠ []) := by
  induction rest with
  | nil => exact ⟨[], rfl, by simp [suffixOf], by simp, by simp⟩
  | cons token rest ih =>
    cases token with
    | byte b =>
      by_cases isSlash : b = slash
      · subst isSlash
        exact ⟨rest, by simp [suffixOf], by simp [suffixOf], by simp [suffixOf], by simp [suffixOf]⟩
      · have restRegular : regularFrom true rest = true := by
          simpa [regularFrom, isSlash] using regular
        obtain ⟨more, cut, noSlash, ends, nonempty⟩ := ih restRegular
        have isSuffix : suffixOf (.byte b :: rest) = b :: suffixOf rest := by
          rw [suffixOf, if_neg isSlash]
        refine ⟨more, ?_, ?_, ?_, ?_⟩
        · rw [isSuffix, map_cons, cons_append, ← cut]
        · rw [isSuffix]
          cases suffix : suffixOf rest with
          | nil => simp
          | cons c suffix =>
            rw [suffix] at noSlash
            rw [dropLast_cons_cons, mem_cons, not_or]
            exact ⟨Ne.symm isSlash, noSlash⟩
        · intro someMore
          have someRest : rest ≠ [] := by
            intro isNil
            rw [isNil] at cut
            exact someMore (append_eq_nil_iff.mp cut.symm).2
          obtain ⟨c, suffix, isCons⟩ := exists_cons_of_ne_nil (nonempty someRest)
          have last := ends someMore
          rw [isCons] at last
          rw [isSuffix, isCons, List.getLast?_cons_cons]
          exact last
        · intro _
          rw [isSuffix]
          simp
    | param | catchAll => cases regular

theorem suffixOf_append_param (front back : List Token) :
    suffixOf (front ++ .param :: back) = suffixOf front := by
  induction front with
  | nil => rfl
  | cons token front ih =>
    cases token with
    | byte b => rw [cons_append, suffixOf, suffixOf, ih]
    | param | catchAll => rfl

namespace Table

theorem segmentOf_of_slash {front : Bytes} (noSlash : slash ∉ front) (rest : Bytes) :
    segmentOf (front ++ slash :: rest) = front ++ [slash] := by
  rw [segmentOf, terminatorOf_append _ noSlash, terminatorOf_slash_cons, take_length_add_append]
  rfl

variable {path text : Bytes}

theorem segmentOf_of_not_mem (noSlash : slash ∉ path) : segmentOf path = path := by
  have whole := terminatorOf_append [] noSlash
  rw [append_nil] at whole
  rw [segmentOf, whole]
  simp [terminatorOf]

theorem slash_not_mem_take {count : Nat} (inside : count < (segmentOf path).length) :
    slash ∉ (segmentOf path).take count := by
  have segment := isSegment_take_drop path
  rw [← take_append_drop count (path.take (terminatorOf path))] at segment
  apply segment.slash_not_mem
  intro nothing
  rw [drop_eq_nil_iff] at nothing
  rw [segmentOf] at inside
  omega

theorem take_segmentOf {count : Nat} (inside : count ≤ (segmentOf path).length) :
    (segmentOf path).take count = path.take count := by
  have bound : (segmentOf path).length ≤ terminatorOf path := by
    rw [segmentOf, length_take]
    omega
  rw [segmentOf, take_take]
  congr 1
  omega

variable {table : Table T}

theorem fits_of_closest
    {skipped : Nat} (isClosest : table.closest (segmentOf path) = some skipped) :
    Fits ((segmentOf path).drop (skipped + 1)) path := by
  obtain ⟨inside, _, _⟩ := closest_eq_some_iff.mp isClosest
  refine ⟨?_, ?_, drop_suffix _ _⟩
  · simp_all
  · rw [length_drop]
    omega

theorem closest_of_fits (offered : table.offers [] text) (fits : Fits text path) :
    ∃ skipped, table.closest (segmentOf path) = some skipped ∧
      text.length ≤ ((segmentOf path).drop (skipped + 1)).length := by
  obtain ⟨nonempty, shorter, ends⟩ := fits
  have positive := length_pos_of_ne_nil nonempty
  have isDrop : (segmentOf path).drop ((segmentOf path).length - text.length - 1 + 1) = text := by
    have start :
        (segmentOf path).length - text.length - 1 + 1 = (segmentOf path).length - text.length := by
      omega
    rw [start]
    exact (suffix_iff_eq_drop.mp ends).symm
  cases isClosest : table.closest (segmentOf path) with
  | none =>
    exfalso
    have noOffer := closest_eq_none_iff.mp isClosest
      ((segmentOf path).length - text.length - 1) (by omega)
    simp_all
  | some skipped =>
    refine ⟨skipped, rfl, ?_⟩
    by_contra tooShort
    rw [length_drop] at tooShort
    obtain ⟨_, _, fewest⟩ := closest_eq_some_iff.mp isClosest
    apply fewest ((segmentOf path).length - text.length - 1) (by omega)
    rw [isDrop]
    exact offered

/-! ## What a lookup finds is stored, and greedy -/

def FoundBy (table : Table T) (route : List Token) (path : Bytes) (found : Found T) : Prop :=
  table.live route found.names found.value ∧ Fills route found.values found.last path

variable {found : Found T}

theorem foundBy_of_ended {inner : Table T} {values : List Bytes} {route : List Token}
    (isFound : inner.ended values = some found) (same : inner.live [] = table.live route)
    (fills : Fills route values none path) : table.FoundBy route path found := by
  rw [ended, Option.map_eq_some_iff] at isFound
  obtain ⟨stored, picked, rfl⟩ := isFound
  have live := holds_of_pick picked
  rw [same] at live
  exact ⟨live, fills⟩

theorem foundBy_of_catchAll (isFound : table.catchAll path = some found) :
    ∃ name, table.FoundBy [.catchAll name] path found := by
  rw [catchAll, Option.map_eq_some_iff] at isFound
  obtain ⟨stored, picked, rfl⟩ := isFound
  have live := holds_of_pick picked
  exact ⟨stored.1, live, Fills.catchAll⟩

theorem isSome_pick {α : Type v} {p : α → Prop} {a : α} (holds : p a) : (pick p).isSome = true := by
  cases picked : pick p with
  | none => exact absurd holds (not_of_pick picked a)
  | some b => rfl

variable {names : ParamRemapping}

theorem isSome_ended {value : T} (stored : table.live [] names value) (values : List Bytes) :
    (table.ended values).isSome = true := by
  rw [ended, Option.isSome_map]
  exact @isSome_pick (ParamRemapping × T) _ (names, value) stored

variable {skipped : Nat}

theorem FoundBy.behind {route : List Token} (inside : skipped + 1 < (segmentOf path).length)
    (foundBy : FoundBy ((table.after .param).only text) route (path.drop (skipped + 1)) found) :
    table.FoundBy (.param :: route) path (found.behind ((segmentOf path).take (skipped + 1))) := by
  obtain ⟨⟨_, stored⟩, fills⟩ := foundBy
  refine ⟨stored, ?_⟩
  have whole : Fills (.param :: route) (path.take (skipped + 1) :: found.values)
      found.last (path.take (skipped + 1) ++ path.drop (skipped + 1)) :=
    Fills.param fills
  rw [take_append_drop] at whole
  rw [take_segmentOf (Nat.le_of_lt inside)]
  exact whole

theorem fills_param (path : Bytes) : Fills [.param] [path] none path := by
  have whole : Fills [.param] [path] none (path ++ []) := Fills.param Fills.nil
  rwa [append_nil] at whole

theorem Greedy.behind {rest : List Token} (nonempty : path ≠ [])
    (isClosest : table.closest (segmentOf path) = some skipped)
    (isText : suffixOf rest = (segmentOf path).drop (skipped + 1))
    (greedy : Greedy ((table.after .param).only ((segmentOf path).drop (skipped + 1))).offers rest
      (path.drop (skipped + 1))) :
    Greedy table.offers (.param :: rest) path := by
  have inside := (closest_eq_some_iff.mp isClosest).1
  have noSlash := slash_not_mem_take inside
  rw [take_segmentOf (Nat.le_of_lt inside)] at noSlash
  have someValue : path.take (skipped + 1) ≠ [] := by simpa using nonempty
  have longest : ∀ text, table.offers [] text →
      Fits text (path.take (skipped + 1) ++ path.drop (skipped + 1)) →
      text.length ≤ (suffixOf rest).length := by
    intro text offered fits
    rw [take_append_drop] at fits
    obtain ⟨other, isOther, longer⟩ := closest_of_fits offered fits
    rw [isClosest, Option.some.injEq] at isOther
    rw [isText, isOther]
    exact longer
  have behind :
      Greedy (fun front => table.offers (.param :: front)) rest (path.drop (skipped + 1)) := by
    apply greedy.congr
    intro front back text cut
    have sameText : suffixOf front = suffixOf rest := by rw [cut, suffixOf_append_param]
    refine ⟨And.right, fun offered => ⟨?_, offered⟩⟩
    rw [sameText]
    exact isText
  have whole := Greedy.param someValue noSlash longest behind
  rwa [take_append_drop] at whole

theorem foundBy_of_parameter {below : Table T → Bytes → Option (Found T)}
    (nonempty : path ≠ []) (finds : ∀ inner rest other, rest.length < path.length →
      below inner rest = some other →
        ∃ route, inner.FoundBy route rest other ∧ Greedy inner.offers route rest)
    (isFound : table.parameter below path = some found) :
    ∃ route, table.FoundBy route path found ∧ Greedy table.offers route path := by
  rw [parameter] at isFound
  split at isFound
  · cases isFound
  · split at isFound
    · rename_i skipped isClosest
      rw [Option.map_eq_some_iff] at isFound
      obtain ⟨other, isOther, rfl⟩ := isFound
      have shorter := length_drop_succ_lt nonempty skipped
      obtain ⟨route, foundBy, greedy⟩ := finds _ _ _ shorter isOther
      exact ⟨.param :: route, foundBy.behind (closest_eq_some_iff.mp isClosest).1,
        Greedy.behind nonempty isClosest foundBy.1.1 greedy⟩
    · rename_i isClosest
      split at isFound
      · cases isFound
      · rename_i noSlash
        refine ⟨[.param], foundBy_of_ended isFound rfl (fills_param path), ?_⟩
        have longest : ∀ text, table.offers [] text →
            Fits text (path ++ []) → text.length ≤ (suffixOf []).length := by
          intro text offered fits
          rw [append_nil] at fits
          obtain ⟨other, isOther, _⟩ := closest_of_fits offered fits
          simp [isClosest] at isOther
        have whole :=
          Greedy.param nonempty noSlash longest
            (@Greedy.done fun front => table.offers (.param :: front))
        rwa [append_nil] at whole

theorem foundBy_of_lookup (isFound : table.lookup path = some found) :
    ∃ route, table.FoundBy route path found ∧ Greedy table.offers route path := by
  generalize bound : path.length = size
  induction size using Nat.strongRecOn generalizing table path found with
  | ind size ih =>
    cases path with
    | nil =>
      rw [lookup_nil] at isFound
      exact ⟨[], foundBy_of_ended isFound rfl Fills.nil, Greedy.done⟩
    | cons b tail =>
      rw [length_cons] at bound
      rw [lookup_cons, Option.or_eq_some_iff, Option.or_eq_some_iff] at isFound
      rcases isFound with static | ⟨_, param | ⟨_, rest⟩⟩
      · obtain ⟨route, ⟨stored, fills⟩, greedy⟩ := ih tail.length (by omega) static rfl
        exact ⟨.byte b :: route, ⟨stored, Fills.byte fills⟩, Greedy.byte greedy⟩
      · apply foundBy_of_parameter (cons_ne_nil b tail) _ param
        intro inner rest other shorter isOther
        rw [length_cons] at shorter
        exact ih rest.length (by omega) isOther rfl
      · obtain ⟨name, foundBy⟩ := foundBy_of_catchAll rest
        exact ⟨[.catchAll name], foundBy, Greedy.catchAll (cons_ne_nil b tail)⟩

/-! ## A greedy match is found -/

/-- The routes of a table are regular, and it offers what they present. -/
structure Complete (wild : Bool) (table : Table T) : Prop where
  regular : ∀ {routeTokens : List Token} {names : ParamRemapping} {value : T},
    table.live routeTokens names value → regularFrom wild routeTokens = true
  offers : ∀ {routeTokens front : List Token} {names : ParamRemapping} {value : T} {text : Bytes},
    table.live routeTokens names value → Presents routeTokens front text →
    table.offers front text

variable {wild : Bool}

theorem Complete.after_byte (complete : Complete wild table) (b : UInt8) :
    Complete (wild && b ≠ slash) (table.after (.byte b)) where
  regular := complete.regular
  offers stored presents := complete.offers stored (presents.behind [.byte b])

theorem Complete.after_param (complete : Complete wild table) :
    Complete true (table.after .param) where
  regular stored := by
    have regular := complete.regular stored
    rw [regularFrom, Bool.and_eq_true] at regular
    exact regular.2
  offers stored presents := complete.offers stored (presents.behind [.param])

theorem Complete.only (complete : Complete wild table) (text : Bytes) :
    Complete wild (table.only text) where
  regular stored := complete.regular stored.2
  offers stored presents := by
    refine ⟨?_, complete.offers stored.2 presents⟩
    obtain ⟨back, cut, _⟩ := presents
    rw [← stored.1, cut, suffixOf_append_param]

theorem greedy_bytes {offers : List Token → Bytes → Prop} {more : List Token}
    (greedy : Greedy offers (text.map Token.byte ++ more) path) :
    ∃ rest, path = text ++ rest ∧ (more = [] → rest = []) := by
  induction text generalizing offers path with
  | nil =>
    refine ⟨path, rfl, ?_⟩
    intro noMore
    rw [noMore] at greedy
    cases greedy
    rfl
  | cons b text ih =>
    cases greedy with
    | byte behind =>
      obtain ⟨rest, isPath, ends⟩ := ih behind
      exact ⟨rest, by rw [isPath]; rfl, ends⟩

theorem segmentOf_text {value tail : Bytes} (noSlash : slash ∉ value) (nonempty : text ≠ [])
    (complete : slash ∉ text.dropLast) (ends : text.getLast? = some slash ∨ tail = []) :
    segmentOf (value ++ (text ++ tail)) = value ++ text := by
  have cut := dropLast_append_getLast nonempty
  have noSlashFront : slash ∉ value ++ text.dropLast := by simp_all
  by_cases isSlash : text.getLast nonempty = slash
  · rw [isSlash] at cut
    rw [← cut, append_assoc, ← append_assoc, singleton_append, segmentOf_of_slash noSlashFront,
      append_assoc]
  · have noTail : tail = [] := by
      rcases ends with slashed | noTail
      · grind
      · exact noTail
    have noSlashText : slash ∉ value ++ text := by grind
    rw [noTail, append_nil]
    exact segmentOf_of_not_mem noSlashText

theorem isSome_parameter {below : Table T → Bytes → Option (Found T)}
    {rest : List Token} {stored : T} {value : Bytes} (complete : Complete wild table)
    (live : table.live (.param :: rest) names stored)
    (nonempty : value ≠ []) (noSlash : slash ∉ value)
    (longest : ∀ text, table.offers [] text → Fits text (value ++ path) →
      text.length ≤ (suffixOf rest).length)
    (greedy : Greedy (fun front => table.offers (.param :: front)) rest path)
    (finds : ∀ inner, Complete true inner →
      inner.live rest names stored → Greedy inner.offers rest path →
      (below inner path).isSome = true) :
    (table.parameter below (value ++ path)).isSome = true := by
  have restRegular : regularFrom true rest = true := complete.after_param.regular live
  obtain ⟨more, cut, complete', ends, nonemptySuffix⟩ := regular_suffix restRegular
  have notSlash : (value ++ path).head? ≠ some slash := by
    obtain ⟨b, tail, isCons⟩ := exists_cons_of_ne_nil nonempty
    rw [isCons] at noSlash ⊢
    intro isSlash
    rw [cons_append, List.head?_cons, Option.some.injEq] at isSlash
    rw [isSlash] at noSlash
    exact noSlash mem_cons_self
  rw [parameter, if_neg notSlash]
  by_cases noRest : rest = []
  · subst noRest
    cases greedy
    rw [append_nil] at longest ⊢
    have noneFits : table.closest (segmentOf value) = none := by
      cases isClosest : table.closest (segmentOf value) with
      | none => rfl
      | some skipped =>
        have fits := fits_of_closest isClosest
        obtain ⟨_, offered, _⟩ := closest_eq_some_iff.mp isClosest
        have short := longest _ offered fits
        exact absurd (length_eq_zero_iff.mp (Nat.le_zero.mp short)) fits.1
    rw [noneFits]
    simp only [if_neg noSlash]
    exact isSome_ended live _
  · have someText := nonemptySuffix noRest
    rw [cut] at greedy
    obtain ⟨tail, isPath, noTail⟩ := greedy_bytes greedy
    rw [← cut] at greedy
    have textEnds : (suffixOf rest).getLast? = some slash ∨ tail = [] := by
      by_cases noMore : more = []
      · exact Or.inr (noTail noMore)
      · exact Or.inl (ends noMore)
    have segment : segmentOf (value ++ path) = value ++ suffixOf rest := by
      rw [isPath]
      exact segmentOf_text noSlash someText complete' textEnds
    have offered : table.offers [] (suffixOf rest) :=
      complete.offers live ⟨rest, rfl, rfl, someText⟩
    have fits : Fits (suffixOf rest) (value ++ path) := by
      refine ⟨someText, ?_, ?_⟩
      · have positive := length_pos_of_ne_nil nonempty
        rw [segment, length_append]
        omega
      · rw [segment]
        exact suffix_append _ _
    obtain ⟨skipped, isClosest, long⟩ := closest_of_fits offered fits
    obtain ⟨inside, closestOffered, _⟩ := closest_eq_some_iff.mp isClosest
    have short := longest _ closestOffered (fits_of_closest isClosest)
    have start : skipped + 1 = value.length := by
      rw [segment, length_drop, length_append] at long short
      rw [segment, length_append] at inside
      omega
    rw [isClosest]
    simp only [segment, start, drop_left, Option.isSome_map]
    apply finds _ (complete.after_param.only _) ⟨rfl, live⟩
    apply greedy.congr
    intro front back text isRest
    refine ⟨fun isOffered => ⟨?_, isOffered⟩, And.right⟩
    rw [isRest, suffixOf_append_param]

theorem isSome_lookup {routeTokens : List Token} {value : T}
    (complete : Complete wild table) (live : table.live routeTokens names value)
    (greedy : Greedy table.offers routeTokens path) :
    (table.lookup path).isSome = true := by
  generalize bound : path.length = size
  induction size using Nat.strongRecOn generalizing table wild routeTokens path with
  | ind size ih =>
    generalize isOffers : table.offers = offers at greedy
    cases greedy with
    | done =>
      rw [lookup_nil]
      exact isSome_ended live []
    | @byte _ b rest path behind =>
      rw [length_cons] at bound
      have found : ((table.after (.byte b)).lookup path).isSome = true := by
        apply ih path.length (by omega) (complete.after_byte b) live _ rfl
        rw [← isOffers] at behind
        exact behind
      rw [lookup_cons, Option.isSome_or, found]
      rfl
    | @param _ rest value path nonempty noSlash longest behind =>
      have positive := length_pos_of_ne_nil nonempty
      rw [length_append] at bound
      rw [← isOffers] at longest behind
      have found : (table.parameter lookup (value ++ path)).isSome = true := by
        apply isSome_parameter complete live nonempty noSlash longest behind
        intro inner innerComplete innerLive innerGreedy
        exact ih path.length (by omega) innerComplete innerLive innerGreedy rfl
      obtain ⟨b, tail, isCons⟩ := exists_cons_of_ne_nil nonempty
      rw [isCons, cons_append] at found ⊢
      rw [lookup_cons, Option.isSome_or, Option.isSome_or, found]
      simp
    | @catchAll _ name value nonempty =>
      obtain ⟨b, tail, rfl⟩ := exists_cons_of_ne_nil nonempty
      have found : (table.catchAll (b :: tail)).isSome = true := by
        rw [catchAll, Option.isSome_map]
        exact @isSome_pick (Bytes × ParamRemapping × T) _ (name, names, value) live
      rw [lookup_cons, Option.isSome_or, Option.isSome_or, found]
      simp

end Table

namespace Node

/-! ## Completeness of the lookup -/

theorem complete_patternTable {items : List (Bytes × T)}
    (regular : ∀ item ∈ items, IsRegular item.1) :
    Table.Complete false (patternTable items) where
  regular stored := by
    obtain ⟨text, pieces, member, reading, isTokens, _⟩ := stored
    obtain ⟨other, otherReading, _, isRegular⟩ := regular _ member
    simp_all
  offers stored presents := by
    obtain ⟨text, pieces, member, reading, isTokens, _⟩ := stored
    rw [← isTokens] at presents
    exact ⟨(text, _), member, pieces, reading, presents⟩

theorem answerOf_eq_notFound {result : Outcome MatchError (T × Params)} :
    answerOf result = .err .notFound ↔ result = .err .notFound := by
  cases result with
  | ok | err | panic => simp [answerOf, Outcome.map]

theorem finish_ne_notFound (params : List Param) (found : Found T) :
    finish params found ≠ .err .notFound := by
  rw [finish]
  split
  · simp
  · simp

def MatchesSome (items : List (Bytes × T)) (path : Bytes) : Prop :=
  ∃ item ∈ items, ∃ pieces, readPattern item.1 = some pieces ∧ Matches (tokens pieces) path

/-- A pattern of the list matches the path with the longest fitting text of
the list behind each of its parameters. -/
def MatchesGreedily (items : List (Bytes × T)) (path : Bytes) : Prop :=
  ∃ item ∈ items, ∃ pieces, readPattern item.1 = some pieces ∧
    Greedy (patternTable items).offers (tokens pieces) path

/-- A path is not found exactly when no pattern matches it greedily. -/
theorem Inserted.notFound_iff {items : List (Bytes × T)}
    {tree : Node T} (inserted : Inserted items tree)
    (regular : ∀ item ∈ items, IsRegular item.1) (path : Bytes) :
    tree.atPath path = .err .notFound ↔ ¬ MatchesGreedily items path := by
  have reaches : ((patternTable items).lookup path).isSome = true ↔ MatchesGreedily items path := by
    constructor
    · intro found
      obtain ⟨found, isFound⟩ := Option.isSome_iff_exists.mp found
      obtain ⟨_, ⟨⟨text, pieces, member, reading, rfl, _⟩, _⟩, greedy⟩ :=
        Table.foundBy_of_lookup isFound
      exact ⟨_, member, pieces, reading, greedy⟩
    · rintro ⟨item, member, pieces, reading, isGreedy⟩
      exact Table.isSome_lookup (complete_patternTable regular)
        ⟨item.1, pieces, member, reading, rfl, rfl⟩ isGreedy
  rw [← reaches, ← answerOf_eq_notFound, inserted.atPath_eq, inserted.table_eq regular]
  cases (patternTable items).lookup path with
  | none => simp
  | some found => simp [finish_ne_notFound]

/-- The lookup misses no matching pattern exactly when one of them matches
greedily. -/
theorem atPath_complete_iff (items : List (Bytes × T))
    (stored : StoresAll items) (regular : ∀ item ∈ items, IsRegular item.1) (path : Bytes) :
    ((insertAll items).atPath path = .err .notFound → ¬ MatchesSome items path) ↔
      (MatchesSome items path → MatchesGreedily items path) := by
  have inserted := inserted_insertAll items stored regular
  rw [inserted.notFound_iff regular path]
  constructor
  · intro complete matching
    by_contra notGreedy
    exact complete notGreedy matching
  · intro greedy notGreedy matching
    exact notGreedy (greedy matching)

theorem atPath_complete_users :
    let items : List (Bytes × Nat) :=
      [(bytes "/u/\x7bid\x7d", 1), (bytes "/u/\x7bid\x7d.json", 2)]
    ∀ path : Bytes,
      ((insertAll items).atPath path = .err .notFound → ¬ MatchesSome items path) ↔
        (MatchesSome items path → MatchesGreedily items path) := by
  intro items path
  apply atPath_complete_iff items
  · exact (storesAll_nil.concat (by decide +kernel)).concat (by decide +kernel)
  · intro item member
    simp only [items, mem_cons, not_mem_nil, or_false] at member
    rcases member with rfl | rfl
    · exact ⟨(bytes "/u/").map Piece.byte ++ [Piece.param (bytes "id")],
        by decide +kernel, by decide +kernel, by decide +kernel⟩
    · exact ⟨(bytes "/u/").map Piece.byte ++
          Piece.param (bytes "id") :: (bytes ".json").map Piece.byte,
        by decide +kernel, by decide +kernel, by decide +kernel⟩

/-- The lookup commits to the longer suffix, behind which nothing is found. -/
theorem atPath_misses_shorter_suffix :
    let items : List (Bytes × Nat) := [(bytes "/\x7bx\x7db/", 1), (bytes "/\x7by\x7d/c", 2)]
    StoresAll items ∧
      (insertAll items).atPath (bytes "/ab/c") = .err .notFound ∧
      MatchesSome items (bytes "/ab/c") := by
  refine ⟨?_, ?_, ?_⟩
  · exact (storesAll_nil.concat (by decide +kernel)).concat (by decide +kernel)
  · rw [← answerOf_eq_notFound]
    decide +kernel
  · refine ⟨(bytes "/\x7by\x7d/c", 2), by simp,
      Piece.byte slash :: Piece.param (bytes "y") ::
        (bytes "/c").map Piece.byte, by decide +kernel, ?_⟩
    have isPath : bytes "/ab/c" = slash :: (bytes "ab" ++ (bytes "/c" ++ [])) := by
      decide +kernel
    have isTokens :
        tokens (Piece.byte slash :: Piece.param (bytes "y") :: (bytes "/c").map Piece.byte) =
          .byte slash :: .param :: ((bytes "/c").map Token.byte ++ []) := by
      decide +kernel
    rw [isPath, isTokens]
    apply Matches.byte
    apply Matches.param (by decide +kernel) (by decide +kernel)
    exact Matches.done.bytes_append (bytes "/c")

end Node

end Ophan.Router
