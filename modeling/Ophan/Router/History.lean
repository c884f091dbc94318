import Ophan.Router.Soundness

/-!
# Histories of calls

A tree is reached from the empty one by a list of `insert` and `remove` calls,
successful or not.  `Accounts` says which of the inserted patterns are live
after them.
-/

namespace Ophan.Router

open List

universe u

variable {T : Type u}

inductive Call (T : Type u) where
  | insert (text : Bytes) (val : T)
  | remove (text : Bytes)

namespace Node

def call (self : Node T) : Call T → Node T
  | .insert text val => (self.insert text val).1
  | .remove text => (self.remove text).1

def run (calls : List (Call T)) : Node T := calls.foldl call empty

@[simp]
theorem run_nil : (run [] : Node T) = empty := rfl

@[simp]
theorem run_concat (calls : List (Call T)) (last : Call T) :
    run (calls ++ [last]) = (run calls).call last := by
  simp [run]

def Admits (condition : Node T → Call T → Prop) (calls : List (Call T)) : Prop :=
  ∀ before next after, calls = before ++ next :: after → condition (run before) next

variable {condition : Node T → Call T → Prop} {calls : List (Call T)}

theorem Admits.of_forall (each : ∀ tree, ∀ call ∈ calls, condition tree call) :
    Admits condition calls := by
  intro before next after cut
  apply each
  rw [cut]
  simp

theorem Admits.front {rest : List (Call T)} (admits : Admits condition (calls ++ rest)) :
    Admits condition calls := by
  intro before next after cut
  apply admits before next (after ++ rest)
  rw [cut, append_assoc, cons_append]

theorem Admits.last {next : Call T} (admits : Admits condition (calls ++ [next])) :
    condition (run calls) next :=
  admits calls next [] rfl

theorem Admits.mono {weaker : Node T → Call T → Prop} (admits : Admits condition calls)
    (weakens : ∀ tree next, condition tree next → weaker tree next) :
    Admits weaker calls := by
  intro before next after cut
  exact weakens _ _ (admits before next after cut)

theorem run_induction {invariant : List (Call T) → Node T → Prop}
    (start : invariant [] empty) (step : ∀ calls next, invariant calls (run calls) →
      condition (run calls) next →
      invariant (calls ++ [next]) ((run calls).call next)) :
    ∀ calls, Admits condition calls → invariant calls (run calls) := by
  intro calls
  induction calls using List.reverseRecOn with
  | nil =>
    intro _
    exact start
  | append_singleton calls next ih =>
    intro admits
    rw [run_concat]
    exact step calls next (ih admits.front) admits.last

/-! ## The live patterns -/

/-- Two pattern texts are stored under the same bytes. -/
def SameBytes (text other : Bytes) : Prop :=
  ∃ route names route' names',
    normalizeParams (UnescapedRoute.new text) = .ok (route, names) ∧
    normalizeParams (UnescapedRoute.new other) = .ok (route', names') ∧
    route.inner = route'.inner

/-- The patterns that are live behind some calls, with their values. -/
inductive Accounts : List (Call T) → List (Bytes × T) → Prop
  | start : Accounts [] []
  | inserted {calls : List (Call T)} {live : List (Bytes × T)}
      {text : Bytes} {val : T} :
      Accounts calls live → ((run calls).insert text val).2 = .ok () →
      Accounts (calls ++ [.insert text val]) ((text, val) :: live)
  | refused {calls : List (Call T)} {live : List (Bytes × T)}
      {text : Bytes} {val : T} :
      Accounts calls live → ((run calls).insert text val).2.isOk = false →
      Accounts (calls ++ [.insert text val]) live
  | removed {calls : List (Call T)} {live rest : List (Bytes × T)}
      {text other : Bytes} {val : T} :
      Accounts calls live → ((run calls).remove text).2 = .ok (some val) →
      live.Perm ((other, val) :: rest) → SameBytes other text →
      Accounts (calls ++ [.remove text]) rest
  | absent {calls : List (Call T)} {live : List (Bytes × T)}
      {text : Bytes} :
      Accounts calls live →
      ((run calls).remove text).2 = .ok none ∨ ((run calls).remove text).2 = .panic →
      Accounts (calls ++ [.remove text]) live

def storedAs (item : Bytes × T) : Option (Route T) :=
  match normalizeParams (UnescapedRoute.new item.1) with
  | .ok (route, names) => some { marks := route.marks, names := names, value := item.2 }
  | _ => none

def Stores (tree : Node T) (live : List (Bytes × T)) : Prop :=
  (tree.routes.map some).Perm (live.map storedAs)

/-- The condition on one call: a route that begins with a wildcard is not
inserted into an emptied tree that kept the prefix of its root, and no literal
brace follows a parameter with a longer name than its letter. -/
def Faithful (tree : Node T) : Call T → Prop
  | .insert text _ =>
    ¬ KeepsPrefix tree text ∧
    ∀ normal, normalizeParams (UnescapedRoute.new text) = .ok normal →
      ∃ pieces, readPattern text = some pieces ∧ Unshifted pieces = true
  | .remove _ => True

/-- The pattern of a text reads as it is stored. -/
def ReadsFaithfully (text : Bytes) : Prop :=
  ∃ pieces, readPattern text = some pieces ∧ Unshifted pieces = true

structure Sound (calls : List (Call T)) (tree : Node T) : Prop where
  rooted : Rooted tree
  accounts : ∃ live, Accounts calls live ∧ Stores tree live ∧ ∀ item ∈ live, ReadsFaithfully item.1

theorem sound_start : Sound ([] : List (Call T)) empty where
  rooted := empty_rooted
  accounts := by exact ⟨[], Accounts.start, by simp [Stores], forall_mem_nil _⟩

theorem sound_insert {text : Bytes} {val : T} (sound : Sound calls (run calls))
    (faithful : Faithful (run calls) (.insert text val)) :
    Sound (calls ++ [.insert text val]) ((run calls).insert text val).1 := by
  obtain ⟨live, accounts, stores, reads⟩ := sound.accounts
  refine ⟨insert_rooted sound.rooted text val, ?_⟩
  rcases insert_routes sound.rooted faithful.1 with
    ⟨failed, same⟩ | ⟨route, names, normalized, stored, grown⟩
  · exact ⟨live, Accounts.refused accounts failed, (same.map some).trans stores, reads⟩
  · refine ⟨(text, val) :: live, Accounts.inserted accounts stored, ?_, ?_⟩
    · have isStored :
          storedAs (text, val) = some { marks := route.marks, names := names, value := val } := by
        simp only [storedAs, normalized]
      rw [Stores, map_cons, isStored]
      apply (grown.map some).trans
      rw [map_cons]
      exact stores.cons _
    · exact forall_mem_cons.mpr ⟨faithful.2 _ normalized, reads⟩

/-- A route that is taken out of a tree is one of the live patterns. -/
theorem stores_taken {tree after : Node T} {live : List (Bytes × T)}
    {taken : Route T} (stores : Stores tree live)
    (fewer : tree.routes.Perm (taken :: after.routes)) :
    ∃ item rest, live.Perm (item :: rest) ∧ storedAs item = some taken ∧ Stores after rest := by
  have takenStored : some taken ∈ live.map storedAs := by
    apply stores.mem_iff.mp
    grind
  obtain ⟨item, member, isTaken⟩ := mem_map.mp takenStored
  obtain ⟨front, back, cut⟩ := append_of_mem member
  have moved : live.Perm (item :: (front ++ back)) := by
    rw [cut]
    exact perm_middle
  refine ⟨item, front ++ back, moved, isTaken, ?_⟩
  apply List.Perm.cons_inv (a := some taken)
  have whole := (fewer.map some).symm.trans (stores.trans (moved.map storedAs))
  rwa [map_cons, map_cons, isTaken] at whole

theorem sound_remove {text : Bytes} (sound : Sound calls (run calls)) :
    Sound (calls ++ [.remove text]) ((run calls).remove text).1 := by
  obtain ⟨live, accounts, stores, reads⟩ := sound.accounts
  refine ⟨remove_rooted sound.rooted text, ?_⟩
  rcases remove_routes sound.rooted text with
    ⟨same, outcome⟩ | ⟨route, names, taken, normalized, outcome, bytes, _, fewer⟩
  · exact ⟨live, Accounts.absent accounts outcome, (same.map some).trans stores, reads⟩
  · obtain ⟨item, remaining, moved, isTaken, rest⟩ := stores_taken stores fewer
    obtain ⟨other, val⟩ := item
    simp only [storedAs] at isTaken
    split at isTaken
    · rename_i otherRoute otherNames otherNormalized
      rw [Option.some.injEq] at isTaken
      have sameValue : taken.value = val := by rw [← isTaken]
      have sameBytes : SameBytes other text := by
        refine ⟨otherRoute, otherNames, route, names, otherNormalized, normalized, ?_⟩
        rw [← bytes, ← isTaken]
        exact (UnescapedRoute.map_fst_marks otherRoute).symm
      rw [sameValue] at outcome
      refine ⟨remaining, Accounts.removed accounts outcome moved sameBytes, rest, ?_⟩
      grind
    · cases isTaken

theorem run_sound (calls : List (Call T)) (faithful : Admits Faithful calls) :
    Sound calls (run calls) := by
  apply @run_induction T Faithful Sound sound_start _ calls faithful
  intro calls next sound condition
  cases next with
  | insert text val => exact sound_insert sound condition
  | remove text => exact sound_remove sound

/-! ## What a lookup returns -/

theorem length_paramNames (pieces : List Piece) :
    (paramNames pieces).length = paramCount (tokens pieces) := by
  induction pieces with
  | nil => rfl
  | cons piece rest ih =>
    rw [tokens] at ih
    cases piece <;> simp [paramNames, tokens, paramCount, Piece.token, ih]

/-- What fills a pattern is returned under the names of the pattern. -/
theorem finish_of_fills {found : Found T} {pieces : List Piece} {path : Bytes}
    (fills : Fills (tokens pieces) found.values found.last path)
    (isNames : found.names = paramNames pieces) :
    ∃ params, finish [] found = .ok (found.value, params) ∧ fill pieces params = some path := by
  have enough :
      (found.values.map fun value : Bytes =>
        ({ key := [], value := value } : Param)).length ≤ found.names.length := by
    rw [length_map, fills.length_values, isNames, length_paramNames]
  obtain ⟨renamed, named⟩ := renameKeys_of_length enough
  refine ⟨renamed ++ found.last.toList, ?_, ?_⟩
  · simp only [finish, nil_append, named]
  · apply fills.fill_eq
    rw [← isNames]
    exact named

/-- What the lookup finds in a tree is the value of a live pattern, and its
parameters fill that pattern to the path. -/
theorem atPath_of_stores {tree : Node T} {live : List (Bytes × T)}
    (rooted : Rooted tree) (stores : Stores tree live)
    (reads : ∀ item ∈ live, ReadsFaithfully item.1) (path : Bytes) :
    answerOf (tree.atPath path) = .err .notFound ∨
      ∃ text value pieces params,
        (text, value) ∈ live ∧ readPattern text = some pieces ∧
        answerOf (tree.atPath path) = .ok (value, params) ∧
        fill pieces params = some path := by
  rw [atPath_eq_search rooted]
  cases result : search tree.height tree path with
  | none => exact Or.inl rfl
  | some found =>
    right
    obtain ⟨route, member, routeTokens, routeReads, sameValue, sameNames, fills⟩ :=
      search_finds tree.height tree rooted.shaped rooted.notWild path found result
    have stored : some route ∈ live.map storedAs := stores.mem_iff.mp (mem_map_of_mem member)
    obtain ⟨⟨text, value⟩, liveMember, isRoute⟩ := mem_map.mp stored
    simp only [storedAs] at isRoute
    split at isRoute
    · rename_i normal names normalized
      rw [Option.some.injEq] at isRoute
      subst isRoute
      obtain ⟨pieces, reading, unshifted⟩ := reads _ liveMember
      obtain ⟨patternReads, isNames, _⟩ := normalizeParams_pattern reading unshifted normalized
      have sameTokens := routeReads.unique patternReads
      subst sameTokens
      obtain ⟨params, answered, filled⟩ := finish_of_fills fills (sameNames.symm.trans isNames)
      grind
    · cases isRoute

/-- Behind every faithful history a lookup never panics, and a value it
returns belongs to a live pattern, which the returned parameters fill to the
path by the names of that pattern. -/
theorem atPath_sound (calls : List (Call T)) (faithful : Admits Faithful calls) :
    ∃ live : List (Bytes × T),
      Accounts calls live ∧
      ∀ path : Bytes,
        (run calls).atPath path ≠ .panic ∧
        ∀ value params, (run calls).atPath path = .ok (value, params) →
          ∃ text pieces,
            (text, value) ∈ live ∧ readPattern text = some pieces ∧
            fill pieces params.toList = some path := by
  have sound := run_sound calls faithful
  obtain ⟨live, accounts, stores, reads⟩ := sound.accounts
  refine ⟨live, accounts, ?_⟩
  intro path
  rcases atPath_of_stores sound.rooted stores reads path with
    notFound | ⟨text, stored, pieces, filled, member, reading, answered, fills⟩
  · refine ⟨?_, ?_⟩
    · intro panicked
      rw [panicked] at notFound
      cases notFound
    · intro value params found
      rw [found] at notFound
      cases notFound
  · refine ⟨?_, ?_⟩
    · intro panicked
      rw [panicked] at answered
      cases answered
    · intro value params found
      rw [found] at answered
      injection answered with same
      grind

/-- A route that does not begin with a wildcard is never put behind a prefix that an
emptied tree kept. -/
theorem not_keepsPrefix {tree : Node T} {text : Bytes} (route : UnescapedRoute)
    (names : ParamRemapping)
    (normalizes : normalizeParams (UnescapedRoute.new text) = .ok (route, names))
    (isHead : route.marks.head? ≠ some (openBrace, false)) : ¬ KeepsPrefix tree text := by
  rintro ⟨other, _, again, _, _, isBrace, _⟩
  rw [normalizes] at again
  cases again
  exact isHead isBrace

theorem atPath_sound_users :
    let calls : List (Call Nat) :=
      [.insert (bytes "/u/\x7bid\x7d") 7, .insert (bytes "/u") 8, .remove (bytes "/u")]
    (answerOf ((run calls).atPath (bytes "/u/42")) =
        .ok (7, [{ key := bytes "id", value := bytes "42" }]) ∧
      answerOf ((run calls).atPath (bytes "/u")) = .err .notFound) ∧
      ∃ live : List (Bytes × Nat),
        Accounts calls live ∧
        ∀ path : Bytes,
          (run calls).atPath path ≠ .panic ∧
          ∀ value params, (run calls).atPath path = .ok (value, params) →
            ∃ text pieces,
              (text, value) ∈ live ∧ readPattern text = some pieces ∧
              fill pieces params.toList = some path := by
  refine ⟨by decide +kernel, atPath_sound _ (Admits.of_forall fun tree => ?_)⟩
  simp only [forall_mem_cons]
  refine ⟨⟨?_, fun _ _ => ?_⟩, ⟨?_, fun _ _ => ?_⟩, trivial, nofun⟩
  · exact not_keepsPrefix (UnescapedRoute.new (bytes "/u/\x7ba\x7d")) [bytes "id"]
      (by decide +kernel) (by decide +kernel)
  · exact ⟨(bytes "/u/").map Piece.byte ++ [Piece.param (bytes "id")],
      by decide +kernel, by decide +kernel⟩
  · exact not_keepsPrefix (UnescapedRoute.new (bytes "/u")) []
      (by decide +kernel) (by decide +kernel)
  · exact ⟨(bytes "/u").map Piece.byte, by decide +kernel, by decide +kernel⟩

/-- A parameter that is inserted into an emptied tree is found behind the
prefix that the root kept. -/
theorem atPath_behind_kept_prefix :
    let calls : List (Call Nat) :=
      [.insert (bytes "/\x7ba\x7d") 1, .remove (bytes "/\x7ba\x7d"), .insert (bytes "\x7bx\x7d") 2]
    let params : List Param := [{ key := bytes "x", value := bytes "foo" }]
    answerOf ((run calls).atPath (bytes "/foo")) = .ok (2, params) ∧
      readPattern (bytes "\x7bx\x7d") = some [.param (bytes "x")] ∧
      fill [.param (bytes "x")] params ≠ some (bytes "/foo") := by
  decide +kernel

end Node

end Ophan.Router
