import Ophan.Http.Utils

/-!
# The table of host names

`SniTableRouter` maps host names to the ids of virtual hosts.  Names are stored
in lower case; a name that starts with `*.` is stored by its suffix and stands
for every name below it.
-/

namespace Ophan.Router

open List

/-- `to_ascii_lowercase` of a byte. -/
def toAsciiLowercaseByte (b : UInt8) : UInt8 :=
  if 65 ≤ b ∧ b ≤ 90 then b + 32 else b

def toAsciiLowercase (text : Bytes) : Bytes := text.map toAsciiLowercaseByte

def eqIgnoreAsciiCase (text other : Bytes) : Bool :=
  toAsciiLowercase text = toAsciiLowercase other

def isAsciiUppercase (b : UInt8) : Bool := 65 ≤ b && b ≤ 90

/-- Maximum length of a host name that is looked up. -/
def maxSniLen : Nat := 1024

/-- Maximum number of labels accepted during lookup. -/
def maxLabels : Nat := 32

abbrev HostMap := List (Bytes × Nat)

structure SniTableRouter where
  exact : HostMap
  wildcard : HostMap
  deriving DecidableEq, Repr

namespace SniTableRouter

def new : SniTableRouter := { exact := [], wildcard := [] }

def addRoute (table : SniTableRouter) (host : Bytes) (targetId : Nat) : SniTableRouter :=
  match toAsciiLowercase host with
  -- `*.`
  | 42 :: 46 :: suffix => { table with wildcard := (suffix, targetId) :: table.wildcard }
  | lower => { table with exact := (lower, targetId) :: table.exact }

def wildcardLoop (wildcard : HostMap) : Bytes → Nat → Option Nat
  | [], _ => none
  | b :: rest, labels =>
    if b = 46 then
      if maxLabels < labels + 1 then
        none
      else
        match wildcard.lookup rest with
        | some id => some id
        | none => wildcardLoop wildcard rest (labels + 1)
    else
      wildcardLoop wildcard rest labels

def routeWildcard (table : SniTableRouter) (sni : Bytes) : Option Nat :=
  if table.wildcard.isEmpty then none
  else wildcardLoop table.wildcard sni 1

/-- `strip_suffix('.').unwrap_or(sni)` -/
def stripRootLabel (sni : Bytes) : Bytes :=
  if sni.getLast? = some 46 then sni.dropLast else sni

/-- Resolves a target id from a host name.  Exact routes take precedence over
wildcards. -/
def route (table : SniTableRouter) (sni : Bytes) : Option Nat :=
  let sni := stripRootLabel sni
  if sni.length = 0 ∨ maxSniLen < sni.length then
    none
  else
    match table.exact.lookup sni with
    | some id => some id
    | none =>
      if sni.any isAsciiUppercase then
        let lower := toAsciiLowercase sni
        match table.exact.lookup lower with
        | some id => some id
        | none => table.routeWildcard lower
      else
        table.routeWildcard sni

end SniTableRouter

/-! ## Lower case -/

theorem lower_lower (b : UInt8) :
    toAsciiLowercaseByte (toAsciiLowercaseByte b) = toAsciiLowercaseByte b := by
  unfold toAsciiLowercaseByte
  grind

theorem lower_of_not_upper (b : UInt8)
    (notUpper : isAsciiUppercase b = false) : toAsciiLowercaseByte b = b := by
  unfold toAsciiLowercaseByte
  unfold isAsciiUppercase at notUpper
  grind

theorem lower_eq_iff (b : UInt8) {mark : UInt8} (isMark : mark ∈ [(42 : UInt8), 46, 58, 91]) :
    toAsciiLowercaseByte b = mark ↔ b = mark := by
  unfold toAsciiLowercaseByte
  grind

@[simp]
theorem toAsciiLowercase_idem (text : Bytes) :
    toAsciiLowercase (toAsciiLowercase text) = toAsciiLowercase text := by
  simp [toAsciiLowercase, lower_lower]

variable {text host key : Bytes}

theorem toAsciiLowercase_of_not_upper (lower : text.any isAsciiUppercase = false) :
    toAsciiLowercase text = text := by
  simp only [any_eq_false, Bool.not_eq_true] at lower
  rw [toAsciiLowercase]
  conv => rhs; rw [← map_id text]
  exact map_congr_left fun b member => lower_of_not_upper b (lower b member)

theorem count_toAsciiLowercase (text : Bytes) :
    (toAsciiLowercase text).count 46 = text.count 46 := by
  simp only [toAsciiLowercase, count, countP_map]
  apply countP_congr
  intro b _
  simp [lower_eq_iff b (show 46 ∈ _ by decide)]

/-! ## The lookup -/

namespace SniTableRouter

variable {id : Nat}

theorem mem_of_lookup {map : HostMap} (found : map.lookup key = some id) : (key, id) ∈ map := by
  obtain ⟨before, behind, rfl, _⟩ := lookup_eq_some_iff.mp found
  exact mem_append_right before mem_cons_self

theorem mem_of_wildcardLoop {wildcard : HostMap} {sni : Bytes} {labels : Nat}
    (found : wildcardLoop wildcard sni labels = some id) :
    ∃ suffix, (suffix, id) ∈ wildcard := by
  fun_induction wildcardLoop wildcard sni labels with
  | case1 | case2 => cases found
  | case3 rest _ _ other direct =>
    rw [← Option.some.inj found]
    exact ⟨rest, mem_of_lookup direct⟩
  | case4 _ _ _ _ ih | case5 _ _ _ _ ih => exact ih found

variable {table : SniTableRouter}

theorem routeWildcard_eq (table : SniTableRouter) (sni : Bytes) :
    table.routeWildcard sni = wildcardLoop table.wildcard sni 1 := by
  unfold routeWildcard
  split
  · rename_i empty
    cases found : wildcardLoop table.wildcard sni 1 with
    | none => rfl
    | some id =>
      obtain ⟨suffix, member⟩ := mem_of_wildcardLoop found
      simp [isEmpty_iff.mp empty] at member
  · rfl

/-- The names are stored in lower case, so the lookup of the raw name changes nothing. -/
theorem route_eq (lower : ∀ key id, table.exact.lookup key = some id → toAsciiLowercase key = key)
    (sni : Bytes) :
    table.route sni =
      if (stripRootLabel sni).length = 0 ∨ maxSniLen < (stripRootLabel sni).length then none
      else
        (table.exact.lookup (toAsciiLowercase (stripRootLabel sni))).or
          (wildcardLoop table.wildcard (toAsciiLowercase (stripRootLabel sni)) 1) := by
  simp only [route, routeWildcard_eq]
  generalize stripRootLabel sni = name
  split
  · rfl
  · cases direct : table.exact.lookup name with
    | some id => simp_all
    | none =>
      by_cases upper : name.any isAsciiUppercase = true
      · grind
      · rw [if_neg upper, toAsciiLowercase_of_not_upper (by simpa using upper), direct]
        rfl

theorem addRoute_exact (id : Nat) (notWild : ∀ suffix, toAsciiLowercase host ≠ 42 :: 46 :: suffix) :
    table.addRoute host id =
      { table with exact := (toAsciiLowercase host, id) :: table.exact } := by
  unfold addRoute
  split
  · simp_all
  · rfl

theorem addRoute_wildcard {suffix : Bytes}
    (id : Nat) (wild : toAsciiLowercase host = 42 :: 46 :: suffix) :
    table.addRoute host id = { table with wildcard := (suffix, id) :: table.wildcard } := by
  simp [addRoute, wild]

/-! ## Registered names -/

/-- The table of the names that were registered, the last one first. -/
def register (hosts : List (Bytes × Nat)) : SniTableRouter :=
  hosts.foldr (fun host table => table.addRoute host.1 host.2) new

/-- The last id for a name in lower case. -/
def lastId (hosts : List (Bytes × Nat)) (name : Bytes) : Option Nat :=
  (hosts.map fun host => (toAsciiLowercase host.1, host.2)).lookup name

/-- What is behind the dots of a name, the longest first. -/
def dotSuffixes : Bytes → List Bytes
  | [] => []
  | b :: rest => if b = 46 then rest :: dotSuffixes rest else dotSuffixes rest

theorem lookup_register (hosts : List (Bytes × Nat)) (key : Bytes) :
    (register hosts).wildcard.lookup key = lastId hosts (42 :: 46 :: key) ∧
      (register hosts).exact.lookup key =
        if [42, 46] <+: key then none else lastId hosts key := by
  induction hosts with
  | nil => simp [register, lastId, new]
  | cons host hosts ih =>
    rw [show register (host :: hosts) = (register hosts).addRoute host.1 host.2 from rfl]
    by_cases wild : [42, 46] <+: toAsciiLowercase host.1
    · obtain ⟨suffix, same⟩ := wild
      have isHost : toAsciiLowercase host.1 = 42 :: 46 :: suffix := same.symm
      rw [addRoute_wildcard _ isHost]
      simp only [lastId, map_cons, isHost, lookup_cons] at ih ⊢
      grind
    · rw [addRoute_exact _ fun suffix same => wild ⟨suffix, same.symm⟩]
      simp only [lastId, map_cons, lookup_cons] at ih ⊢
      grind

theorem wildcardLoop_eq (wildcard : HostMap) {sni : Bytes} {labels : Nat}
    (few : labels + sni.count 46 ≤ maxLabels) :
    wildcardLoop wildcard sni labels = (dotSuffixes sni).findSome? fun suffix =>
      wildcard.lookup suffix := by
  induction sni generalizing labels with
  | nil => rfl
  | cons b rest ih =>
    rw [wildcardLoop, dotSuffixes]
    by_cases isDot : b = 46
    · grind
    · simp_all

/-- A name of bounded length gets the last id registered for it, or else the last one
for the longest suffix with a wildcard; the empty name gets none. -/
theorem route_register (hosts : List (Bytes × Nat)) (sni : Bytes)
    (short : (stripRootLabel sni).length ≤ maxSniLen)
    (few : (stripRootLabel sni).count 46 < maxLabels) :
    (register hosts).route sni =
      if stripRootLabel sni = [] then none
      else
        (lastId hosts (toAsciiLowercase (stripRootLabel sni))).or
          ((dotSuffixes (toAsciiLowercase (stripRootLabel sni))).findSome? fun suffix =>
            lastId hosts (42 :: 46 :: suffix)) := by
  have lower : ∀ key id, (register hosts).exact.lookup key = some id →
      toAsciiLowercase key = key := by
    intro key id found
    rw [(lookup_register hosts key).2] at found
    obtain ⟨host, _, same⟩ := mem_map.mp (mem_of_lookup (Option.ite_none_left_eq_some.mp found).2)
    rw [← (Prod.mk.inj same).1, toAsciiLowercase_idem]
  rw [route_eq lower]
  generalize stripRootLabel sni = name at short few
  rw [← count_toAsciiLowercase] at few
  rw [wildcardLoop_eq _ (by omega)]
  simp only [lookup_register]
  by_cases empty : name = []
  · simp [empty]
  · have inLimits : ¬(name.length = 0 ∨ maxSniLen < name.length) := by simpa [empty] using short
    rw [if_neg inLimits, if_neg empty]
    split
    · -- The name of a wildcard is found by its own suffix.
      rename_i wild
      obtain ⟨suffix, isName⟩ := wild
      rw [← isName]
      change Option.or none (findSome? _ (suffix :: dotSuffixes suffix)) =
        Option.or _ (findSome? _ (suffix :: dotSuffixes suffix))
      rw [findSome?_cons]
      change _ = Option.or (lastId hosts (42 :: 46 :: suffix)) _
      cases lastId hosts (42 :: 46 :: suffix) with
      | none | some => rfl
    · rfl

theorem route_register_below :
    (register [(bytes "*.example.com", 2), (bytes "example.com", 1)]).route
      (bytes "API.example.com.") = some 2 :=
  (route_register _ _ (by decide +kernel) (by decide +kernel)).trans (by decide +kernel)

/-- An empty name can be registered, and is not found. -/
theorem empty_name_not_found :
    (register [([], 1)]).route [] = none ∧ lastId [([], 1)] [] = some 1 := by
  decide

end SniTableRouter

end Ophan.Router
