import Mathlib.Data.List.Nodup
import Mathlib.Logic.Encodable.Basic
import Mathlib.Logic.Equiv.List
import Ophan.Lib.Utf8

/-!
# JSON values and maps

A value is read from a text with its members in the order of the text, where a key
can stand twice.  A map has every key once, and its members are kept in the order of
the keys.
-/

namespace Ophan

open List

inductive Json where
  | null
  | bool (value : Bool)
  | int (value : Int)
  /-- A number with a fraction or an exponent, by its text. -/
  | float (text : Bytes)
  | string (text : Bytes)
  | array (items : List Json)
  | object (members : List (Bytes × Json))

namespace Json

/-- `Map<String, Value>` -/
structure Map where
  members : List (Bytes × Json)
  nodup : (members.map Prod.fst).Nodup

namespace Map

def empty : Map := ⟨[], nodup_nil⟩

def keys (map : Map) : List Bytes := map.members.map Prod.fst

def others (map : Map) (key : Bytes) : List (Bytes × Json) :=
  map.members.filter fun member => member.1 ≠ key

theorem others_keys_nodup (map : Map) (key : Bytes) (keep : Bytes × Json → Bool) :
    (((map.others key).filter keep).map Prod.fst).Nodup :=
  map.nodup.sublist ((filter_sublist.trans filter_sublist).map _)

theorem key_notMem_others (map : Map) (key : Bytes) (keep : Bytes × Json → Bool) :
    key ∉ ((map.others key).filter keep).map Prod.fst := by
  simp [others]

/-- `Map::insert`: the value of a key that is there already is replaced. -/
def insert (map : Map) (key : Bytes) (value : Json) : Map where
  members :=
    ((map.others key).filter fun member => member.1 < key) ++
      (key, value) :: (map.others key).filter fun member => ¬ member.1 < key
  nodup := by
    rw [map_append, map_cons, nodup_append, nodup_cons]
    refine ⟨map.others_keys_nodup key _,
      ⟨map.key_notMem_others key _, map.others_keys_nodup key _⟩, ?_⟩
    intro first isFirst second isSecond same
    rw [← same, mem_cons] at isSecond
    rcases isSecond with isKey | isBehind
    · exact map.key_notMem_others key _ (isKey ▸ isFirst)
    · simp only [mem_map, mem_filter, decide_eq_true_eq] at isFirst isBehind
      obtain ⟨before, ⟨_, isBefore⟩, rfl⟩ := isFirst
      obtain ⟨behind, ⟨_, isNotBefore⟩, isSame⟩ := isBehind
      exact isNotBefore (isSame ▸ isBefore)

end Map

/-! ## Numbers for the values -/

section Codes

open Encodable

instance : Encodable UInt8 := .ofLeftInverse UInt8.toNat UInt8.ofNat fun _ => UInt8.ofNat_toNat

mutual

def code : Json → Nat
  | .null => Nat.pair 0 0
  | .bool value => Nat.pair 1 (encode value)
  | .int value => Nat.pair 2 (encode value)
  | .float text => Nat.pair 3 (encode text)
  | .string text => Nat.pair 4 (encode text)
  | .array items => Nat.pair 5 (codeItems items)
  | .object members => Nat.pair 6 (codeMembers members)

def codeItems : List Json → Nat
  | [] => 0
  | item :: rest => Nat.pair (code item) (codeItems rest) + 1

def codeMembers : List (Bytes × Json) → Nat
  | [] => 0
  | (key, value) :: rest => Nat.pair (encode key) (Nat.pair (code value) (codeMembers rest)) + 1

end

mutual

theorem code_inj : ∀ first second : Json, code first = code second → first = second
  | .array items, second, same => by
    cases second <;> simp only [code, Nat.pair_eq_pair] at same
    case array others => rw [codeItems_inj items others same.2]
    all_goals omega
  | .object members, second, same => by
    cases second <;> simp only [code, Nat.pair_eq_pair] at same
    case object others => rw [codeMembers_inj members others same.2]
    all_goals omega
  | .null, second, same | .bool _, second, same | .int _, second, same | .float _, second, same
  | .string _, second, same => by
    cases second <;> simp_all [code]

theorem codeItems_inj : ∀ first second : List Json,
    codeItems first = codeItems second → first = second
  | [], second, same => by cases second <;> simp_all [codeItems]
  | item :: rest, second, same => by
    cases second <;> simp only [codeItems, Nat.add_right_cancel_iff, Nat.pair_eq_pair] at same
    · omega
    · rw [code_inj item _ same.1, codeItems_inj rest _ same.2]

theorem codeMembers_inj : ∀ first second : List (Bytes × Json),
    codeMembers first = codeMembers second → first = second
  | [], second, same => by cases second <;> simp_all [codeMembers]
  | (key, value) :: rest, second, same => by
    rcases second with _ | ⟨⟨otherKey, other⟩, others⟩ <;>
      simp only [codeMembers, Nat.add_right_cancel_iff, Nat.pair_eq_pair, encode_inj] at same
    · omega
    · rw [same.1, code_inj value other same.2.1, codeMembers_inj rest others same.2.2]

end

end Codes

end Json

end Ophan
