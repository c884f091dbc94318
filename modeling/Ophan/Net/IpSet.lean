import Mathlib.Data.List.Sort
import Ophan.Lib.BinarySearch
import Ophan.Net.IpNet

/-!
# The address set

Networks become inclusive ranges of integers.  The builder sorts them and
merges what touches, and a lookup is a binary search in the result.  Both
widths run the same code, so it is written once for a width.
-/

namespace Ophan.Net

open List
open Ophan.Lib

section Ranges

variable {width : Nat}

def InRange (range : BitVec width × BitVec width) (ip : BitVec width) : Prop :=
  range.1 ≤ ip ∧ ip ≤ range.2

def Covered (ranges : List (BitVec width × BitVec width)) (ip : BitVec width) : Prop :=
  ∃ range ∈ ranges, InRange range ip

def rangeLe (first second : BitVec width × BitVec width) : Prop :=
  first.1 < second.1 ∨ first.1 = second.1 ∧ first.2 ≤ second.2

instance : DecidableRel (@rangeLe width) := by
  intro first second
  unfold rangeLe
  infer_instance

def sortRanges (ranges : List (BitVec width × BitVec width)) : List (BitVec width × BitVec width) :=
  ranges.insertionSort rangeLe

/-- One turn of the merge.  The output vector is kept reversed, so that its
last range stands first. -/
def mergeStep (out : List (BitVec width × BitVec width)) (range : BitVec width × BitVec width) :
    List (BitVec width × BitVec width) :=
  match out with
  | last :: earlier =>
    if range.1 ≤ last.2 ∨ last.2 ≠ BitVec.allOnes width ∧ range.1 = last.2 + 1 then
      if range.2 > last.2 then (last.1, range.2) :: earlier
      else last :: earlier
    else range :: last :: earlier
  | [] => [range]

def mergeRanges (sorted : List (BitVec width × BitVec width)) :
    List (BitVec width × BitVec width) :=
  (sorted.foldl mergeStep []).reverse

def locate (ip : BitVec width) (range : BitVec width × BitVec width) : Ordering :=
  if ip < range.1 then .gt else if ip > range.2 then .lt else .eq

end Ranges

def mergeU32 (sorted : List (BitVec 32 × BitVec 32)) : List (BitVec 32 × BitVec 32) :=
  mergeRanges sorted

def mergeU128 (sorted : List (BitVec 128 × BitVec 128)) : List (BitVec 128 × BitVec 128) :=
  mergeRanges sorted

structure IpSet where
  v4 : List (BitVec 32 × BitVec 32)
  v6 : List (BitVec 128 × BitVec 128)
  deriving DecidableEq, Repr

structure IpSetBuilder where
  v4 : List (BitVec 32 × BitVec 32)
  v6 : List (BitVec 128 × BitVec 128)
  deriving DecidableEq, Repr

namespace IpSetBuilder

def empty : IpSetBuilder := ⟨[], []⟩

def isEmpty (builder : IpSetBuilder) : Bool := builder.v4.isEmpty && builder.v6.isEmpty

def insertNetwork (builder : IpSetBuilder) (network : IpNet) : IpSetBuilder :=
  match network with
  | .v4 net => { builder with v4 := builder.v4 ++ [(net.network, net.broadcast)] }
  | .v6 net => { builder with v6 := builder.v6 ++ [(net.network, net.broadcast)] }

def build (builder : IpSetBuilder) : IpSet where
  v4 := mergeU32 (sortRanges builder.v4)
  v6 := mergeU128 (sortRanges builder.v6)

/-- The builder after every network of a list. -/
def insertNetworks (builder : IpSetBuilder) (networks : List IpNet) : IpSetBuilder :=
  networks.foldl insertNetwork builder

end IpSetBuilder

namespace IpSet

def isEmpty (set : IpSet) : Bool := set.v4.isEmpty && set.v6.isEmpty

def containsExact (set : IpSet) : IpAddr → Bool
  | .v4 ip => (binarySearchBy (locate ip) set.v4).isOk
  | .v6 ip => (binarySearchBy (locate ip) set.v6).isOk

/-- An address that maps an IPv4 address is looked up as that address first
and then as itself. -/
def contains (set : IpSet) (clientIp : IpAddr) : Bool :=
  let mapped :=
    match clientIp with
    | .v6 ip =>
      match ip.toIpv4Mapped with
      | some v4 => set.containsExact (.v4 v4)
      | none => false
    | .v4 _ => false
  mapped || set.containsExact clientIp

def ofNetworks (networks : List IpNet) : IpSet := (IpSetBuilder.empty.insertNetworks networks).build

end IpSet

section Merging

variable {width : Nat} {out ranges : List (BitVec width × BitVec width)}
  {range : BitVec width × BitVec width} {ip : BitVec width}

/-- No range is empty and every range ends before the later ones start. -/
structure Merged (out : List (BitVec width × BitVec width)) : Prop where
  ordered : ∀ range ∈ out, range.1 ≤ range.2
  apart : out.Pairwise fun first second => first.2 < second.1

@[simp]
theorem not_covered_nil : ¬ Covered [] ip := by
  simp [Covered]

@[simp]
theorem covered_cons : Covered (range :: ranges) ip ↔ InRange range ip ∨ Covered ranges ip := by
  simp [Covered]

/-- The two conditions of the merge say that no address lies between the
ranges.  The check against the greatest address keeps the successor from
wrapping around. -/
theorem touches_iff (start finish : BitVec width) :
    (start ≤ finish ∨ finish ≠ BitVec.allOnes width ∧ start = finish + 1) ↔
      start.toNat ≤ finish.toNat + 1 := by
  have atTop : finish = BitVec.allOnes width ↔ finish.toNat = 2 ^ width - 1 := by
    rw [← BitVec.toNat_inj, BitVec.toNat_allOnes]
  have successor : (finish + 1).toNat = (finish.toNat + 1) % 2 ^ width := by simp
  rw [BitVec.le_def, ne_eq, atTop, ← BitVec.toNat_inj, successor]
  by_cases top : finish.toNat = 2 ^ width - 1
  · omega
  · rw [Nat.mod_eq_of_lt (by omega)]
    omega

theorem mergeStep_cons (last : BitVec width × BitVec width)
    (earlier : List (BitVec width × BitVec width)) :
    mergeStep (last :: earlier) range =
      if range.1.toNat ≤ last.2.toNat + 1 then
        if range.2 > last.2 then (last.1, range.2) :: earlier
        else last :: earlier
      else range :: last :: earlier := by
  simp only [mergeStep, touches_iff]

/-- The reversed output of the merge: the invariant of the loop, with the
start of its last range as the least start still to come. -/
structure Building (out : List (BitVec width × BitVec width)) : Prop where
  ordered : ∀ range ∈ out, range.1 ≤ range.2
  apart : out.Pairwise fun later earlier => earlier.2 < later.1

theorem Building.mergeStep (building : Building out) (nonempty : range.1 ≤ range.2)
    (sorted : ∀ earlier ∈ out, earlier.1 ≤ range.1) :
    Building (mergeStep out range) := by
  cases out with
  | nil => exact ⟨by simpa [Net.mergeStep] using nonempty, by simp [Net.mergeStep]⟩
  | cons last earlier =>
    obtain ⟨lastOrdered, restOrdered⟩ := forall_mem_cons.mp building.ordered
    obtain ⟨lastApart, restApart⟩ := pairwise_cons.mp building.apart
    rw [mergeStep_cons]
    split_ifs with touching longer
    · refine ⟨forall_mem_cons.mpr ⟨?_, restOrdered⟩, pairwise_cons.mpr ⟨lastApart, restApart⟩⟩
      bv_omega
    · exact building
    · refine ⟨forall_mem_cons.mpr ⟨nonempty, building.ordered⟩,
        pairwise_cons.mpr ⟨forall_mem_cons.mpr ⟨?_, fun other inRest => ?_⟩, building.apart⟩⟩
      · bv_omega
      · grind

theorem mergeStep_starts (sorted : ∀ earlier ∈ out, earlier.1 ≤ range.1) :
    ∀ merged ∈ mergeStep out range, merged.1 ≤ range.1 := by
  have self : range.1 ≤ range.1 := BitVec.le_refl range.1
  cases out with
  | nil => simp [mergeStep]
  | cons last earlier =>
    rw [mergeStep_cons]
    split_ifs
    · exact forall_mem_cons.mpr (by exact forall_mem_cons.mp sorted)
    · exact sorted
    · exact forall_mem_cons.mpr ⟨self, sorted⟩

theorem covered_mergeStep (sorted : ∀ earlier ∈ out, earlier.1 ≤ range.1) :
    Covered (mergeStep out range) ip ↔ Covered out ip ∨ InRange range ip := by
  cases out with
  | nil => simp [mergeStep]
  | cons last earlier =>
    have lastStart := sorted last mem_cons_self
    rw [mergeStep_cons]
    split_ifs with touching longer <;> simp only [covered_cons]
    · have joined : InRange (last.1, range.2) ip ↔ InRange last ip ∨ InRange range ip := by
        simp only [InRange]
        bv_omega
      rw [joined]
      tauto
    · have absorbed : InRange range ip → InRange last ip := by
        simp only [InRange]
        bv_omega
      tauto
    · tauto

theorem foldl_mergeStep (sorted : ranges.Pairwise rangeLe)
    (ordered : ∀ range ∈ ranges, range.1 ≤ range.2) (building : Building out)
    (starts : ∀ earlier ∈ out, ∀ range ∈ ranges, earlier.1 ≤ range.1) :
    Building (ranges.foldl mergeStep out) ∧
      ∀ ip, Covered (ranges.foldl mergeStep out) ip ↔ Covered out ip ∨ Covered ranges ip := by
  induction ranges generalizing out with
  | nil => exact ⟨building, by simp⟩
  | cons range rest ih =>
    obtain ⟨rangeFirst, restSorted⟩ := pairwise_cons.mp sorted
    have startsHere : ∀ earlier ∈ out, earlier.1 ≤ range.1 := by grind
    have stepped :=
      ih restSorted
        (forall_mem_cons.mp ordered).2
        (building.mergeStep (ordered range mem_cons_self) startsHere)
        (by
          intro merged member other inRest
          apply BitVec.le_trans (mergeStep_starts startsHere merged member)
          rcases rangeFirst other inRest with smaller | same
          · exact BitVec.le_of_lt smaller
          · exact BitVec.le_of_eq same.1)
    refine ⟨stepped.1, ?_⟩
    intro ip
    rw [foldl_cons, stepped.2 ip, covered_mergeStep startsHere, covered_cons]
    tauto

theorem covered_sortRanges : Covered (sortRanges ranges) ip ↔ Covered ranges ip := by
  simp only [Covered, sortRanges, mem_insertionSort]

theorem pairwise_sortRanges : (sortRanges ranges).Pairwise rangeLe := by
  have : Std.Total (@rangeLe width) := by
    constructor
    simp only [rangeLe, BitVec.lt_def, BitVec.le_def, ← BitVec.toNat_inj]
    omega
  have : IsTrans _ (@rangeLe width) := by
    constructor
    simp only [rangeLe, BitVec.lt_def, BitVec.le_def, ← BitVec.toNat_inj]
    omega
  exact pairwise_insertionSort rangeLe ranges

/-- Sorting and merging leaves separate ranges that cover the same
addresses. -/
theorem mergeRanges_sortRanges (ordered : ∀ range ∈ ranges, range.1 ≤ range.2) :
    Merged (mergeRanges (sortRanges ranges)) ∧
      ∀ ip, Covered (mergeRanges (sortRanges ranges)) ip ↔ Covered ranges ip := by
  have folded := @foldl_mergeStep width [] (sortRanges ranges) pairwise_sortRanges
    (by simpa [sortRanges, mem_insertionSort] using ordered)
    ⟨by simp, by simp⟩ (by simp)
  refine ⟨⟨?_, ?_⟩, ?_⟩
  · intro range member
    exact folded.1.ordered range (by simpa [mergeRanges] using member)
  · rw [mergeRanges, pairwise_reverse]
    exact folded.1.apart
  · intro ip
    have reversed : Covered (mergeRanges (sortRanges ranges)) ip ↔
        Covered ((sortRanges ranges).foldl mergeStep []) ip := by
      simp [mergeRanges, Covered]
    rw [reversed, folded.2 ip, covered_sortRanges]
    simp

theorem locate_eq_iff : locate ip range = .eq ↔ InRange range ip := by
  rw [locate, InRange]
  split_ifs with before after
  · exact iff_of_false (by decide) (by bv_omega)
  · exact iff_of_false (by decide) (by bv_omega)
  · exact iff_of_true rfl (by bv_omega)

theorem locate_eq_gt_iff : locate ip range = .gt ↔ ip < range.1 := by
  rw [locate]
  split_ifs <;> simp [*]

theorem locate_eq_lt_iff (ordered : range.1 ≤ range.2) : locate ip range = .lt ↔ range.2 < ip := by
  rw [locate]
  split_ifs with before after
  · exact iff_of_false (by decide) (by bv_omega)
  · exact iff_of_true rfl after
  · exact iff_of_false (by decide) after

theorem Merged.partitioned (merged : Merged ranges) (ip : BitVec width) :
    Partitioned (locate ip) ranges := by
  apply List.Pairwise.imp_of_mem _ merged.apart
  intro first second inFirst inSecond separate
  have firstOrdered := merged.ordered first inFirst
  have secondOrdered := merged.ordered second inSecond
  rw [locate_eq_gt_iff, locate_eq_gt_iff, locate_eq_lt_iff firstOrdered,
    locate_eq_lt_iff secondOrdered]
  simp only [BitVec.lt_def, BitVec.le_def] at *
  omega

/-- A lookup in separate ranges succeeds exactly on the covered addresses. -/
theorem Merged.search_iff (merged : Merged ranges) :
    (binarySearchBy (locate ip) ranges).isOk = true ↔ Covered ranges ip := by
  rw [binarySearchBy_isOk_iff (merged.partitioned ip)]
  simp only [locate_eq_iff, Covered]

end Merging

namespace IpSetBuilder

variable {networks : List IpNet}

/-- The range a network adds to the IPv4 side, and to the IPv6 side. -/
def v4Range : IpNet → Option (BitVec 32 × BitVec 32)
  | .v4 net => some (net.network, net.broadcast)
  | .v6 _ => none

def v6Range : IpNet → Option (BitVec 128 × BitVec 128)
  | .v4 _ => none
  | .v6 net => some (net.network, net.broadcast)

theorem insertNetworks_eq (builder : IpSetBuilder) :
    builder.insertNetworks networks =
      ⟨builder.v4 ++ networks.filterMap v4Range, builder.v6 ++ networks.filterMap v6Range⟩ := by
  induction networks generalizing builder with
  | nil => simp [insertNetworks]
  | cons network rest ih =>
    have step : builder.insertNetworks (network :: rest) =
        (builder.insertNetwork network).insertNetworks rest := rfl
    rw [step, ih]
    cases network with
    | v4 | v6 => simp [insertNetwork, filterMap_cons, v4Range, v6Range]

theorem covered_filterMap {w : Nat} {range : IpNet → Option (BitVec w × BitVec w)} {ip : BitVec w}
    {address : IpAddr} (contains_iff : ∀ network : IpNet,
      network.contains address = true ↔ ∃ bounds ∈ range network, bounds.1 ≤ ip ∧ ip ≤ bounds.2) :
    Covered (networks.filterMap range) ip ↔
      ∃ network ∈ networks, network.contains address = true := by
  simp only [Covered, mem_filterMap, contains_iff]
  constructor
  · rintro ⟨bounds, ⟨network, member, isRange⟩, inRange⟩
    exact ⟨network, member, bounds, isRange, inRange⟩
  · rintro ⟨network, member, bounds, isRange, inRange⟩
    exact ⟨bounds, ⟨network, member, isRange⟩, inRange⟩

theorem merged_v4 (networks : List IpNet) :
    Merged (IpSet.ofNetworks networks).v4 ∧
      ∀ ip, Covered (IpSet.ofNetworks networks).v4 ip ↔
        Covered (empty.insertNetworks networks).v4 ip := by
  apply mergeRanges_sortRanges
  rw [insertNetworks_eq]
  simp only [empty, nil_append, forall_mem_filterMap]
  intro network _
  cases network with
  | v4 net => simpa [v4Range] using net.network_le_broadcast
  | v6 net => simp [v4Range]

theorem merged_v6 (networks : List IpNet) :
    Merged (IpSet.ofNetworks networks).v6 ∧
      ∀ ip, Covered (IpSet.ofNetworks networks).v6 ip ↔
        Covered (empty.insertNetworks networks).v6 ip := by
  apply mergeRanges_sortRanges
  rw [insertNetworks_eq]
  simp only [empty, nil_append, forall_mem_filterMap]
  intro network _
  cases network with
  | v4 net => simp [v6Range]
  | v6 net => simpa [v6Range] using net.network_le_broadcast

end IpSetBuilder

namespace IpSet

open IpSetBuilder

theorem containsExact_iff (networks : List IpNet) (ip : IpAddr) :
    (ofNetworks networks).containsExact ip = true ↔
      ∃ network ∈ networks, network.contains ip = true := by
  cases ip with
  | v4 ip =>
    obtain ⟨merged, covered⟩ := merged_v4 networks
    rw [containsExact, merged.search_iff, covered, insertNetworks_eq]
    apply covered_filterMap
    intro network
    cases network with
    | v4 | v6 => simp [IpNet.contains, v4Range, Ipv4Net.contains_iff]
  | v6 ip =>
    obtain ⟨merged, covered⟩ := merged_v6 networks
    rw [containsExact, merged.search_iff, covered, insertNetworks_eq]
    apply covered_filterMap
    intro network
    cases network with
    | v4 | v6 => simp [IpNet.contains, v6Range, Ipv6Net.contains_iff]

/-- The address as the lookup first sees it: an IPv4-mapped address is its
IPv4 address. -/
def unmapped : IpAddr → IpAddr
  | .v6 ip =>
    match ip.toIpv4Mapped with
    | some v4 => .v4 v4
    | none => .v6 ip
  | .v4 ip => .v4 ip

theorem contains_eq (set : IpSet) (ip : IpAddr) :
    set.contains ip = true ↔
      set.containsExact (unmapped ip) = true ∨ set.containsExact ip = true := by
  cases ip with
  | v4 ip => simp [contains, unmapped]
  | v6 ip =>
    cases mapped : ip.toIpv4Mapped with
    | none | some => simp [contains, unmapped, mapped]

theorem contains_ofNetworks (networks : List IpNet) (ip : IpAddr) :
    (ofNetworks networks).contains ip = true ↔
      ∃ network ∈ networks, network.contains (unmapped ip) = true ∨ network.contains ip = true := by
  rw [contains_eq, containsExact_iff, containsExact_iff]
  simp only [and_or_left, exists_or]

/-- A built set contains an address exactly when some network of the list
contains it, or contains the IPv4 address it maps; and the merged ranges of
either width cover the addresses of the ranges they were made of. -/
theorem ofNetworks_exact (networks : List IpNet) :
    (∀ ip, (ofNetworks networks).contains ip = true ↔
      ∃ network ∈ networks, network.contains (unmapped ip) = true ∨ network.contains ip = true) ∧
    (∀ ip, Covered
        (mergeU32 (sortRanges (IpSetBuilder.empty.insertNetworks networks).v4)) ip ↔
      Covered (IpSetBuilder.empty.insertNetworks networks).v4 ip) ∧
    (∀ ip, Covered
        (mergeU128 (sortRanges (IpSetBuilder.empty.insertNetworks networks).v6)) ip ↔
      Covered (IpSetBuilder.empty.insertNetworks networks).v6 ip) := by
  exact ⟨contains_ofNetworks networks, (merged_v4 networks).2, (merged_v6 networks).2⟩

/-- `::/0` contains `::ffff:1.2.3.4`, though it does not contain `1.2.3.4`. -/
theorem mapped_in_every_v6 :
    ¬ ((ofNetworks [.v6 ⟨0, 0, by decide⟩]).contains
          (.v6 0xffff01020304#128) = true ↔
        ∃ network ∈ [IpNet.v6 ⟨0, 0, by decide⟩],
          network.contains (unmapped (.v6 0xffff01020304#128)) = true) := by
  decide

end IpSet

end Ophan.Net
