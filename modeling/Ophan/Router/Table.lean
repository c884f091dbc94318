import Ophan.Router.Search

/-!
# Lookups in a table of routes

A table says which routes are stored and which static texts stand directly
behind a parameter.  `Table.lookup` reads a path against it: static text goes
before a parameter and a parameter before a catch-all, but a parameter always
ends in front of the longest text that fits.
-/

namespace Ophan.Router

open List

universe u v

variable {T : Type u}

/-! ## Choosing -/

section Pick

variable {α : Type v} {p : α → Prop} {a : α}

noncomputable def pick (p : α → Prop) : Option α :=
  open Classical in
  if exists_ : ∃ a, p a then some exists_.choose else none

theorem pick_eq_none (nothing : ∀ a, ¬ p a) : pick p = none := by
  rw [pick, dif_neg]
  simp_all

theorem holds_of_pick (picked : pick p = some a) : p a := by
  rw [pick] at picked
  split at picked
  · grind
  · cases picked

theorem not_of_pick (nothing : pick p = none) : ∀ a, ¬ p a := by
  intro a holds
  rw [pick, dif_pos ⟨a, holds⟩] at nothing
  cases nothing

theorem pick_eq_some (holds : p a) (only : ∀ b, p b → b = a) : pick p = some a := by
  cases picked : pick p with
  | none => exact absurd holds (not_of_pick picked a)
  | some b => rw [only b (holds_of_pick picked)]

theorem pick_eq_map {β : Type u} {value : Option β} {make : β → α}
    (holds : ∀ a, p a ↔ ∃ b, value = some b ∧ make b = a) : pick p = value.map make := by
  cases value with
  | none =>
    apply pick_eq_none
    simp_all
  | some b =>
    apply pick_eq_some ((holds _).mpr ⟨b, rfl, rfl⟩)
    simp_all

end Pick

/-! ## Tables -/

/-- The text that directly follows, up to the end of its segment and with its
slash. -/
def suffixOf : List Token → Bytes
  | .byte b :: rest => if b = slash then [b] else b :: suffixOf rest
  | _ => []

/-- The stored routes, and the texts that stand behind a parameter: `offers
front text` for a parameter behind `front`. -/
@[ext]
structure Table (T : Type u) where
  live : List Token → ParamRemapping → T → Prop
  offers : List Token → Bytes → Prop

namespace Table

def nothing : Table T where
  live _ _ _ := False
  offers _ _ := False

def after (token : Token) (table : Table T) : Table T where
  live rest := table.live (token :: rest)
  offers front := table.offers (token :: front)

def only (text : Bytes) (table : Table T) : Table T where
  live rest names value := suffixOf rest = text ∧ table.live rest names value
  offers front suffix := suffixOf front = text ∧ table.offers front suffix

def behind (label : List Token) (table : Table T) : Table T where
  live route names value := ∃ rest, route = label ++ rest ∧ table.live rest names value
  offers front suffix := ∃ rest, front = label ++ rest ∧ table.offers rest suffix

noncomputable def ended (table : Table T) (values : List Bytes) : Option (Found T) :=
  (pick fun stored : ParamRemapping × T =>
      table.live [] stored.1 stored.2).map fun stored =>
    { value := stored.2, names := stored.1, values := values, last := none }

noncomputable def catchAll (table : Table T) (path : Bytes) : Option (Found T) :=
  (pick fun stored : Bytes × ParamRemapping × T =>
      table.live [.catchAll stored.1] stored.2.1 stored.2.2).map fun stored =>
    { value := stored.2.2
      names := stored.2.1
      values := []
      last := some { key := stored.1, value := path } }

/-- How many bytes stand between the first byte of a segment and the longest
offered text that ends it. -/
noncomputable def closest (table : Table T) (segment : Bytes) : Option Nat :=
  open Classical in
  (List.range (segment.length - 1)).find? fun skipped =>
    decide (table.offers [] (segment.drop (skipped + 1)))

/-- The segment that a path begins with, with its slash. -/
def segmentOf (path : Bytes) : Bytes := path.take (terminatorOf path)

/-- What is found behind a parameter, with the lookup of the rest. -/
noncomputable def parameter (below : Table T → Bytes → Option (Found T))
    (table : Table T) (path : Bytes) : Option (Found T) :=
  if path.head? = some slash then
    none
  else
    match table.closest (segmentOf path) with
    | some skipped =>
      (below ((table.after .param).only ((segmentOf path).drop (skipped + 1)))
          (path.drop (skipped + 1))).map
        (Found.behind ((segmentOf path).take (skipped + 1)))
    | none => if slash ∈ path then none else (table.after .param).ended [path]

noncomputable def lookupWithin : Nat → Table T → Bytes → Option (Found T)
  | _, table, [] => table.ended []
  | 0, _, _ :: _ => none
  | bytes + 1, table, b :: tail =>
    (lookupWithin bytes (table.after (.byte b)) tail).or
      ((table.parameter (lookupWithin bytes) (b :: tail)).or (table.catchAll (b :: tail)))

noncomputable def lookup (table : Table T) (path : Bytes) : Option (Found T) :=
  lookupWithin path.length table path

variable {table : Table T}

theorem closest_eq_some_iff {segment : Bytes} {skipped : Nat} :
    table.closest segment = some skipped ↔
      skipped + 1 < segment.length ∧
        table.offers [] (segment.drop (skipped + 1)) ∧
        ∀ fewer < skipped, ¬ table.offers [] (segment.drop (fewer + 1)) := by
  rw [closest, List.find?_range_eq_some]
  simp only [decide_eq_true_eq, mem_range, Bool.not_eq_true', decide_eq_false_iff_not]
  constructor
  · grind
  · grind

theorem closest_eq_none_iff {segment : Bytes} :
    table.closest segment = none ↔
      ∀ skipped, skipped + 1 < segment.length → ¬ table.offers [] (segment.drop (skipped + 1)) := by
  rw [closest, List.find?_eq_none]
  simp only [decide_eq_true_eq, mem_range]
  constructor
  · grind
  · grind

theorem length_drop_succ_lt {path : Bytes} (nonempty : path ≠ []) (skipped : Nat) :
    (path.drop (skipped + 1)).length < path.length := by
  have positive := length_pos_of_ne_nil nonempty
  rw [length_drop]
  omega

theorem parameter_congr {below other : Table T → Bytes → Option (Found T)}
    {path : Bytes} (nonempty : path ≠ [])
    (same : ∀ table rest, rest.length < path.length → below table rest = other table rest) :
    table.parameter below path = table.parameter other path := by
  simp only [parameter]
  split
  · rfl
  · split
    · rename_i skipped _
      rw [same _ _ (length_drop_succ_lt nonempty skipped)]
    · rfl

theorem lookupWithin_of_le {bytes : Nat} {path : Bytes} (enough : path.length ≤ bytes) :
    lookupWithin bytes table path = table.lookup path := by
  rw [lookup]
  generalize exact : path.length = size
  have long : path.length ≤ size := Nat.le_of_eq exact
  clear exact
  induction bytes generalizing table path size with
  | zero =>
    have noPath : path = [] := length_eq_zero_iff.mp (by omega)
    subst noPath
    simp [lookupWithin]
  | succ bytes ih =>
    cases path with
    | nil => simp [lookupWithin]
    | cons b tail =>
      cases size with
      | zero => cases long
      | succ size =>
        rw [length_cons] at enough long
        have tailSame :
            lookupWithin bytes (table.after (.byte b)) tail =
              lookupWithin size (table.after (.byte b)) tail :=
          ih (by omega) size (by omega)
        have paramSame :
            table.parameter (lookupWithin bytes) (b :: tail) =
              table.parameter (lookupWithin size) (b :: tail) := by
          apply parameter_congr (cons_ne_nil b tail)
          intro below rest shorter
          rw [length_cons] at shorter
          exact ih (by omega) size (by omega)
        rw [lookupWithin, lookupWithin, tailSame, paramSame]

@[simp]
theorem lookup_nil (table : Table T) : table.lookup [] = table.ended [] := by
  simp [lookup, lookupWithin]

theorem lookup_cons (table : Table T) (b : UInt8) (tail : Bytes) :
    table.lookup (b :: tail) =
      ((table.after (.byte b)).lookup tail).or
        ((table.parameter lookup (b :: tail)).or (table.catchAll (b :: tail))) := by
  have paramSame :
      table.parameter (lookupWithin tail.length) (b :: tail) =
        table.parameter lookup (b :: tail) := by
    apply parameter_congr (cons_ne_nil b tail)
    intro below rest shorter
    exact lookupWithin_of_le (Nat.lt_succ_iff.mp shorter)
  rw [lookup, length_cons, lookupWithin, paramSame, lookup]

/-! ## Tables that begin with a token -/

theorem ended_eq_none (noEnd : ∀ names value, ¬ table.live [] names value)
    (values : List Bytes) : table.ended values = none := by
  rw [ended, pick_eq_none]
  · rfl
  · simp_all

theorem parameter_eq_none (noOffer : ∀ text, ¬ table.offers [] text)
    (noParam : ∀ names value, ¬ table.live [.param] names value)
    (below : Table T → Bytes → Option (Found T)) (path : Bytes) :
    table.parameter below path = none := by
  rw [parameter]
  split
  · rfl
  · rw [closest_eq_none_iff.mpr fun _ _ => noOffer _]
    simp only
    split
    · rfl
    · exact ended_eq_none noParam _

theorem catchAll_eq_none (noCatchAll : ∀ name names value,
      ¬ table.live [.catchAll name] names value)
    (path : Bytes) : table.catchAll path = none := by
  rw [catchAll, pick_eq_none]
  · rfl
  · simp_all

@[simp]
theorem lookup_nothing (path : Bytes) : (nothing : Table T).lookup path = none := by
  induction path with
  | nil =>
    rw [lookup_nil]
    exact ended_eq_none (fun _ _ stored => stored) _
  | cons b tail ih =>
    have behindByte : (nothing : Table T).after (.byte b) = nothing := rfl
    have noParam : (nothing : Table T).parameter lookup (b :: tail) = none :=
      parameter_eq_none (fun _ offered => offered) (fun _ _ stored => stored) _ _
    have noCatchAll : (nothing : Table T).catchAll (b :: tail) = none :=
      catchAll_eq_none (fun _ _ _ stored => stored) _
    rw [lookup_cons, behindByte, ih, noParam, noCatchAll]
    rfl

/-- Every route begins with the token. -/
structure Begins (token : Token) (table : Table T) : Prop where
  live : ∀ {route : List Token} {names : ParamRemapping} {value : T},
    table.live route names value → ∃ rest, route = token :: rest
  offers : ∀ {front : List Token} {text : Bytes},
    table.offers front text → ∃ rest, front = token :: rest

theorem Begins.after_eq_nothing {token other : Token}
    (begins : Begins token table) (different : other ≠ token) :
    table.after other = nothing := by
  ext route names value
  · refine ⟨?_, False.elim⟩
    intro stored
    obtain ⟨rest, same⟩ := begins.live stored
    simp_all
  · refine ⟨?_, False.elim⟩
    intro offered
    obtain ⟨rest, same⟩ := begins.offers offered
    simp_all

theorem Begins.lookup_cons {b c : UInt8} (begins : Begins (.byte c) table) (tail : Bytes) :
    table.lookup (b :: tail) = (table.after (.byte b)).lookup tail := by
  have noParam : table.parameter lookup (b :: tail) = none := by
    apply parameter_eq_none
    · intro text offered
      obtain ⟨rest, same⟩ := begins.offers offered
      cases same
    · intro names value stored
      obtain ⟨rest, same⟩ := begins.live stored
      cases same
  have noCatchAll : table.catchAll (b :: tail) = none := by
    apply catchAll_eq_none
    intro name names value stored
    obtain ⟨rest, same⟩ := begins.live stored
    cases same
  rw [Table.lookup_cons, noParam, noCatchAll]
  simp

theorem Begins.lookup_nil {token : Token}
    (begins : Begins token table) : table.lookup [] = none := by
  rw [Table.lookup_nil]
  apply ended_eq_none
  intro names value stored
  obtain ⟨rest, same⟩ := begins.live stored
  cases same

theorem begins_behind_cons (token : Token) (label : List Token)
    (table : Table T) : Begins token (table.behind (token :: label)) where
  live := by
    intro route names value stored
    obtain ⟨rest, same, _⟩ := stored
    exact ⟨label ++ rest, same⟩
  offers := by
    intro front text offered
    obtain ⟨rest, same, _⟩ := offered
    exact ⟨label ++ rest, same⟩

theorem behind_nil (table : Table T) : table.behind [] = table := by
  ext route names value
  · simp [behind]
  · simp [behind]

theorem after_behind_cons (token : Token) (label : List Token) (table : Table T) :
    (table.behind (token :: label)).after token = table.behind label := by
  ext route names value
  · simp [after, behind]
  · simp [after, behind]

/-- Static text in front of a table is read from the path. -/
theorem lookup_behind (text : Bytes) (table : Table T) (path : Bytes) :
    (table.behind (text.map Token.byte)).lookup path =
      if text <+: path then table.lookup (path.drop text.length) else none := by
  induction text generalizing path with
  | nil => simp [behind_nil]
  | cons c text ih =>
    have begins : Begins (.byte c) (table.behind ((c :: text).map Token.byte)) :=
      begins_behind_cons (.byte c) (text.map Token.byte) table
    cases path with
    | nil => rw [begins.lookup_nil, if_neg (by simp)]
    | cons b tail =>
      rw [begins.lookup_cons]
      by_cases sameByte : b = c
      · subst sameByte
        rw [map_cons, after_behind_cons, ih, length_cons, drop_succ_cons]
        simp only [cons_prefix_cons, true_and]
      · have different : Token.byte b ≠ Token.byte c := by simpa using sameByte
        have notPrefix : ¬ c :: text <+: b :: tail := by grind
        rw [begins.after_eq_nothing different, lookup_nothing, if_neg notPrefix]

end Table

end Ophan.Router
