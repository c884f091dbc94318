import Mathlib.Data.List.AList

/-!
# Finite maps

The concurrent hash maps of the program, as association lists with distinct keys.
Mathlib has their lookup and insertion; here are the number of entries and the
removal of all entries that fail a test.
-/

namespace Ophan

open List

universe u v

abbrev KeyMap (κ : Type u) (ν : Type v) := AList fun _ : κ => ν

/-- How the keys are distributed over the shards of a map. -/
structure Sharding (κ : Type u) where
  amount : Nat
  shardOf : κ → Fin amount

def Sharding.single (κ : Type u) : Sharding κ := ⟨1, fun _ => 0⟩

namespace KeyMap

variable {κ : Type u} {ν : Type v}

def len (self : KeyMap κ ν) : Nat := self.entries.length

theorem len_eq (self : KeyMap κ ν) : self.len = self.keys.length := (length_map _).symm

def retain (self : KeyMap κ ν) (keep : κ → ν → Bool) : KeyMap κ ν where
  entries := self.entries.filter fun entry => keep entry.1 entry.2
  nodupKeys := self.nodupKeys.sublist filter_sublist

theorem len_le_of_subset {first second : KeyMap κ ν} (subset : ∀ key ∈ first, key ∈ second) :
    first.len ≤ second.len := by
  have shorter := (subperm_of_subset first.keys_nodup subset).length_le
  rw [len_eq, len_eq]
  exact shorter

theorem len_lt_of_subset {first second : KeyMap κ ν} (subset : ∀ key ∈ first, key ∈ second)
    {key : κ} (absent : key ∉ first) (present : key ∈ second) :
    first.len < second.len := by
  have distinct : (key :: first.keys).Nodup := nodup_cons.mpr ⟨absent, first.keys_nodup⟩
  have covered : key :: first.keys ⊆ second.keys := cons_subset.mpr ⟨present, subset⟩
  have shorter := (subperm_of_subset distinct covered).length_le
  rw [len_eq, len_eq]
  exact shorter

variable [DecidableEq κ]

-- The instance of Mathlib rewrites, so that the kernel cannot evaluate it.
instance [DecidableEq ν] : DecidableEq (KeyMap κ ν) := fun first second =>
  decidable_of_iff (first.entries = second.entries) AList.ext_iff.symm

@[simp]
theorem lookup_retain (self : KeyMap κ ν) (keep : κ → ν → Bool) (key : κ) :
    (self.retain keep).lookup key = (self.lookup key).filter (keep key) := by
  ext value
  have inside := AList.mem_lookup_iff (s := self) (a := key) (b := value)
  have kept := AList.mem_lookup_iff (s := self.retain keep) (a := key) (b := value)
  rw [← Option.mem_def, kept, ← Option.mem_def, Option.mem_filter_iff, inside]
  exact mem_filter

theorem len_insert_of_notMem {self : KeyMap κ ν} {key : κ} (absent : key ∉ self) (value : ν) :
    (len (self.insert key value)) = self.len + 1 := by
  rw [len, AList.entries_insert_of_notMem absent]
  rfl

theorem len_insert_of_mem {self : KeyMap κ ν} {key : κ} (present : key ∈ self) (value : ν) :
    len (self.insert key value) = self.len := by
  have positive : 0 < self.keys.length := length_pos_of_mem present
  rw [len_eq, len_eq, AList.keys_insert, length_cons, length_erase_of_mem present]
  omega

end KeyMap

end Ophan
