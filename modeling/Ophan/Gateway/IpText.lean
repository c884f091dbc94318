import Ophan.Net.TrustedProxies

/-!
# The text of an address

The writers of `forwarding.rs`, which fill a buffer of 45 bytes without the
formatting machinery.  A written text is what stands in the buffer up to the
returned length, and it always fits.
-/

namespace Ophan.Gateway

open List
open Net

def addressBuffer : Nat := 45

section Writers

def decimalDigit (digit : Nat) : UInt8 := 48 + UInt8.ofNat digit

def octets (ip : Ipv4Addr) : List (BitVec 8) :=
  [ip.extractLsb' 24 8, ip.extractLsb' 16 8, ip.extractLsb' 8 8, ip.extractLsb' 0 8]

def writeOctet (octet : BitVec 8) : Bytes :=
  (if 100 ≤ octet.toNat then [decimalDigit (octet.toNat / 100)] else []) ++
    (if 10 ≤ octet.toNat then [decimalDigit (octet.toNat / 10 % 10)] else []) ++
    [decimalDigit (octet.toNat % 10)]

/-- The texts one after the other, with `sep` between two of them. -/
def writeBetween (sep : UInt8) : List Bytes → Bytes
  | [] => []
  | text :: texts => text ++ joinAfter sep texts

def writeIpv4 (ip : Ipv4Addr) : Bytes := writeBetween 46 ((octets ip).map writeOctet)

def segments (ip : Ipv6Addr) : List (BitVec 16) :=
  (List.range 8).map fun i => ip.extractLsb' (16 * (7 - i)) 16

def hexDigits : Bytes := bytes "0123456789abcdef"

/-- The loop of `write_ipv6_segment`, which writes the nibbles of `v` downwards
from the least significant one. -/
def writeNibbles : Nat → Nat → Bytes
  | 0, _ => []
  | pos + 1, v => writeNibbles pos (v >>> 4) ++ [hexDigits.getD (v &&& 0xf) 0]

def writeIpv6Segment (segment : BitVec 16) : Bytes :=
  if segment = 0 then [48]
  else
    let bits := segment.toNat.log2 + 1
    writeNibbles ((bits + 3) / 4) segment.toNat

def writeIpv6Groups (groups : List (BitVec 16)) : Bytes :=
  writeBetween 58 (groups.map writeIpv6Segment)

/-- The run of zero groups found so far, and the length of the run that ends
before the next group. -/
structure ZeroRun where
  start : Nat
  longest : Nat
  current : Nat
  deriving DecidableEq, Repr

/-- One group of the search for the longest run; `>` keeps the first one. -/
def ZeroRun.next (run : ZeroRun) (i : Nat) (segment : BitVec 16) : ZeroRun :=
  if segment = 0 then
    if run.current + 1 > run.longest then
      { start := i + 1 - (run.current + 1), longest := run.current + 1, current := run.current + 1 }
    else { run with current := run.current + 1 }
  else { run with current := 0 }

def findZeroRun (run : ZeroRun) (i : Nat) : List (BitVec 16) → ZeroRun
  | [] => run
  | segment :: rest => findZeroRun (run.next i segment) (i + 1) rest

def writeIpv6 (ip : Ipv6Addr) : Bytes :=
  match Ipv6Addr.toIpv4Mapped ip with
  | some mapped => bytes "::ffff:" ++ writeIpv4 mapped
  | none =>
    let run := findZeroRun ⟨0, 0, 0⟩ 0 (segments ip)
    if run.longest ≤ 1 then writeIpv6Groups (segments ip)
    else
      writeIpv6Groups ((segments ip).take run.start) ++ [58, 58] ++
        writeIpv6Groups ((segments ip).drop (run.start + run.longest))

def writeIp : IpAddr → Bytes
  | .v4 ip => writeIpv4 ip
  | .v6 ip => writeIpv6 ip

end Writers

example : writeIp (.v6 0x20010db8000000000001000000000001#128) = bytes "2001:db8::1:0:0:1" := by
  decide +kernel

/-! ## The bytes of a written address -/

/-- A digit, a lower case hexadecimal digit, `.` or `:`. -/
def isAddressByte (b : UInt8) : Bool :=
  (48 ≤ b && b ≤ 57) || (97 ≤ b && b ≤ 102) || b = 46 || b = 58

/-- A text of address bytes that is not longer than `bound`. -/
structure AddressText (bound : Nat) (text : Bytes) : Prop where
  isBytes : ∀ b ∈ text, isAddressByte b = true
  length_le : text.length ≤ bound

namespace AddressText

theorem mono {bound other : Nat} {text : Bytes} (isText : AddressText bound text)
    (isLe : bound ≤ other) : AddressText other text :=
  ⟨isText.isBytes, isText.length_le.trans isLe⟩

theorem append {bound other : Nat} {text more : Bytes} (isText : AddressText bound text)
    (isMore : AddressText other more) : AddressText (bound + other) (text ++ more) where
  isBytes := forall_mem_append.mpr ⟨isText.isBytes, isMore.isBytes⟩
  length_le := by
    rw [length_append]
    exact Nat.add_le_add isText.length_le isMore.length_le

section

variable {bound : Nat} {sep : UInt8} (isSep : isAddressByte sep = true) {texts : List Bytes}
  (areTexts : ∀ text ∈ texts, AddressText bound text)

include isSep areTexts

theorem after : AddressText ((bound + 1) * texts.length) (joinAfter sep texts) := by
  induction texts with
  | nil => exact ⟨by simp, Nat.zero_le _⟩
  | cons text texts ih =>
    rw [forall_mem_cons] at areTexts
    have isFirst : AddressText (bound + 1) (sep :: text) :=
      ⟨forall_mem_cons.mpr ⟨isSep, areTexts.1.isBytes⟩, Nat.succ_le_succ areTexts.1.length_le⟩
    exact (isFirst.append (ih areTexts.2)).mono (by rw [length_cons, Nat.mul_succ, Nat.add_comm])

theorem between : AddressText ((bound + 1) * texts.length) (writeBetween sep texts) := by
  cases texts with
  | nil => exact ⟨by simp [writeBetween], Nat.zero_le _⟩
  | cons text texts =>
    rw [forall_mem_cons] at areTexts
    refine (areTexts.1.append (after isSep areTexts.2)).mono ?_
    rw [length_cons, Nat.mul_succ]
    omega

end

end AddressText

theorem isAddressByte_decimalDigit : ∀ digit < 10, isAddressByte (decimalDigit digit) = true := by
  decide

theorem isAddressByte_hexDigit : ∀ nibble < 16, isAddressByte (hexDigits.getD nibble 0) = true := by
  decide +kernel

theorem addressText_writeOctet (octet : BitVec 8) : AddressText 3 (writeOctet octet) := by
  have first := isAddressByte_decimalDigit (octet.toNat / 100) (by omega)
  have second := isAddressByte_decimalDigit (octet.toNat / 10 % 10) (by omega)
  have third := isAddressByte_decimalDigit (octet.toNat % 10) (by omega)
  rw [writeOctet]
  constructor
  · grind
  · split_ifs <;> simp

theorem addressText_writeIpv4 (ip : Ipv4Addr) : AddressText 16 (writeIpv4 ip) := by
  have areTexts : ∀ text ∈ (octets ip).map writeOctet, AddressText 3 text :=
    forall_mem_map.mpr fun octet _ => addressText_writeOctet octet
  exact AddressText.between (by decide) areTexts

theorem addressText_writeNibbles (pos v : Nat) : AddressText pos (writeNibbles pos v) := by
  induction pos generalizing v with
  | zero => exact ⟨by simp [writeNibbles], le_refl 0⟩
  | succ pos ih =>
    have isNibble : v &&& 0xf < 16 := Nat.and_lt_two_pow v (by decide : 0xf < 2 ^ 4)
    refine (ih (v >>> 4)).append ⟨?_, le_refl 1⟩
    rw [forall_mem_singleton]
    exact isAddressByte_hexDigit _ isNibble

theorem addressText_writeIpv6Segment (segment : BitVec 16) :
    AddressText 4 (writeIpv6Segment segment) := by
  rw [writeIpv6Segment]
  by_cases isZero : segment = 0
  · rw [if_pos isZero]
    exact ⟨by decide +kernel, by decide +kernel⟩
  · rw [if_neg isZero]
    have isPos : segment.toNat ≠ 0 := fun isNat => isZero (BitVec.eq_of_toNat_eq isNat)
    have isLog : segment.toNat.log2 < 16 := (Nat.log2_lt isPos).mpr segment.isLt
    exact (addressText_writeNibbles _ _).mono (by omega)

theorem addressText_writeIpv6Groups (groups : List (BitVec 16)) :
    AddressText (5 * groups.length) (writeIpv6Groups groups) := by
  have areTexts : ∀ text ∈ groups.map writeIpv6Segment, AddressText 4 text :=
    forall_mem_map.mpr fun segment _ => addressText_writeIpv6Segment segment
  have isText : AddressText (5 * (groups.map writeIpv6Segment).length) (writeIpv6Groups groups) :=
    AddressText.between (by decide) areTexts
  rwa [length_map] at isText

theorem length_segments (ip : Ipv6Addr) : (segments ip).length = 8 := rfl

theorem addressText_writeIpv6 (ip : Ipv6Addr) : AddressText addressBuffer (writeIpv6 ip) := by
  rw [writeIpv6]
  split
  · next mapped _ =>
      have isStart : AddressText 7 (bytes "::ffff:") := ⟨by decide +kernel, by decide +kernel⟩
      exact (isStart.append (addressText_writeIpv4 mapped)).mono (by decide)
  · generalize findZeroRun ⟨0, 0, 0⟩ 0 (segments ip) = run
    change AddressText addressBuffer (if run.longest ≤ 1 then _ else _)
    by_cases isShort : run.longest ≤ 1
    · rw [if_pos isShort]
      exact (addressText_writeIpv6Groups (segments ip)).mono (by rw [length_segments]; decide)
    · rw [if_neg isShort]
      have isMid : AddressText 2 [58, 58] := ⟨by decide +kernel, by decide +kernel⟩
      refine (((addressText_writeIpv6Groups _).append isMid).append
        (addressText_writeIpv6Groups _)).mono ?_
      rw [length_take, length_drop, length_segments, addressBuffer]
      omega

/-- No writer runs over the end of the buffer. -/
theorem addressText_writeIp (ip : IpAddr) : AddressText addressBuffer (writeIp ip) := by
  cases ip with
  | v4 ip => exact (addressText_writeIpv4 ip).mono (by decide)
  | v6 ip => exact addressText_writeIpv6 ip

theorem writeIpv6Segment_ne_nil (segment : BitVec 16) : writeIpv6Segment segment ≠ [] := by
  rw [writeIpv6Segment]
  split
  · exact cons_ne_nil _ _
  · have isDigit : (segment.toNat.log2 + 1 + 3) / 4 = segment.toNat.log2 / 4 + 1 := by omega
    change writeNibbles ((segment.toNat.log2 + 1 + 3) / 4) segment.toNat ≠ []
    rw [isDigit, writeNibbles]
    exact append_ne_nil_of_right_ne_nil _ (cons_ne_nil _ _)

theorem writeIp_ne_nil (ip : IpAddr) : writeIp ip ≠ [] := by
  cases ip with
  | v4 ip => simp [writeIp, writeIpv4, octets, writeBetween, writeOctet]
  | v6 ip =>
    rw [writeIp, writeIpv6]
    split
    · exact append_ne_nil_of_left_ne_nil (by decide +kernel) _
    · generalize findZeroRun ⟨0, 0, 0⟩ 0 (segments ip) = run
      change (if run.longest ≤ 1 then _ else _) ≠ []
      by_cases isShort : run.longest ≤ 1
      · rw [if_pos isShort]
        exact append_ne_nil_of_left_ne_nil (writeIpv6Segment_ne_nil _) _
      · rw [if_neg isShort]
        simp

end Ophan.Gateway
