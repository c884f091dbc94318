import Mathlib

/-!
# Addresses and networks

A network is an address of any host bits and a prefix length that fits the
address width.  It stands for one block of addresses: from `network` to
`broadcast`, which are exactly the addresses `contains` accepts.
-/

namespace Ophan.Net

abbrev Ipv4Addr := BitVec 32

abbrev Ipv6Addr := BitVec 128

inductive IpAddr where
  | v4 (ip : Ipv4Addr)
  | v6 (ip : Ipv6Addr)
  deriving DecidableEq, Repr

/-- `Ipv6Addr::to_ipv4_mapped`: the address behind `::ffff:0:0/96`. -/
def Ipv6Addr.toIpv4Mapped (ip : Ipv6Addr) : Option Ipv4Addr :=
  if ip >>> 32 = 0xffff#128 then some (ip.setWidth 32) else none

/-- The `pfx` most significant bits set, the others clear.  The source
branches on zero because a shift by the full width is not allowed. -/
def maskOf (width pfx : Nat) : BitVec width :=
  if pfx = 0 then 0 else BitVec.allOnes width <<< (width - pfx)

structure Ipv4Net where
  addr : Ipv4Addr
  pfx : Nat
  valid : pfx ≤ 32
  deriving DecidableEq, Repr

structure Ipv6Net where
  addr : Ipv6Addr
  pfx : Nat
  valid : pfx ≤ 128
  deriving DecidableEq, Repr

namespace Ipv4Net

def mask (net : Ipv4Net) : Ipv4Addr := maskOf 32 net.pfx

def network (net : Ipv4Net) : Ipv4Addr := net.addr &&& net.mask

def broadcast (net : Ipv4Net) : Ipv4Addr := net.addr ||| ~~~net.mask

/-- The mask is computed again here, in 64 bits and cut to 32. -/
def contains (net : Ipv4Net) (ip : Ipv4Addr) : Bool :=
  let mask : BitVec 32 := (~~~(0xffffffff#64 >>> net.pfx)).setWidth 32
  ip &&& mask == net.addr &&& mask

end Ipv4Net

namespace Ipv6Net

def mask (net : Ipv6Net) : Ipv6Addr := maskOf 128 net.pfx

def network (net : Ipv6Net) : Ipv6Addr := net.addr &&& net.mask

def broadcast (net : Ipv6Net) : Ipv6Addr := net.addr ||| ~~~net.mask

def contains (net : Ipv6Net) (ip : Ipv6Addr) : Bool := ip &&& net.mask == net.network

end Ipv6Net

inductive IpNet where
  | v4 (net : Ipv4Net)
  | v6 (net : Ipv6Net)
  deriving DecidableEq, Repr

def IpNet.contains : IpNet → IpAddr → Bool
  | .v4 net, .v4 ip => net.contains ip
  | .v6 net, .v6 ip => net.contains ip
  | _, _ => false

section Masks

variable {width pfx : Nat}

theorem maskOf_eq (fits : pfx ≤ width) :
    maskOf width pfx = BitVec.allOnes width <<< (width - pfx) := by
  unfold maskOf
  by_cases zero : pfx = 0
  · subst zero
    simp_all
  · rw [if_neg zero]

theorem and_shifted_toNat (x : BitVec width) (k : Nat) :
    (x &&& BitVec.allOnes width <<< k).toNat = x.toNat / 2 ^ k * 2 ^ k := by
  have shifted : x &&& BitVec.allOnes width <<< k = x >>> k <<< k := by grind
  rw [shifted, BitVec.toNat_shiftLeft, BitVec.toNat_ushiftRight,
    Nat.shiftLeft_eq, Nat.shiftRight_eq_div_pow]
  apply Nat.mod_eq_of_lt
  exact Nat.lt_of_le_of_lt (Nat.div_mul_le_self _ _) x.isLt

theorem or_not_shifted_toNat (x : BitVec width) {k : Nat} (fits : k ≤ width) :
    (x ||| ~~~(BitVec.allOnes width <<< k)).toNat = x.toNat / 2 ^ k * 2 ^ k + (2 ^ k - 1) := by
  have complement : x ||| ~~~(BitVec.allOnes width <<< k) =
      ~~~(~~~x &&& BitVec.allOnes width <<< k) := by
    rw [BitVec.not_and, BitVec.not_not]
  have split : 2 ^ width = 2 ^ (width - k) * 2 ^ k := by rw [← Nat.pow_add, Nat.sub_add_cancel fits]
  have positive : 0 < 2 ^ k := Nat.two_pow_pos k
  have below := x.isLt
  have divided := Nat.div_add_mod' x.toNat (2 ^ k)
  have next := Nat.add_one_mul (x.toNat / 2 ^ k) (2 ^ k)
  have upTo : (x.toNat / 2 ^ k + 1) * 2 ^ k ≤ 2 ^ (width - k) * 2 ^ k := by
    apply Nat.mul_le_mul_right
    exact Nat.div_lt_of_lt_mul (by rwa [Nat.mul_comm, ← split])
  have quotient : (2 ^ width - 1 - x.toNat) / 2 ^ k = 2 ^ (width - k) - (x.toNat / 2 ^ k + 1) := by
    apply Nat.div_eq_of_lt_le
    · rw [Nat.sub_mul]
      omega
    · rw [Nat.succ_mul, Nat.sub_mul]
      omega
  rw [complement, BitVec.toNat_not, and_shifted_toNat, BitVec.toNat_not, quotient, Nat.sub_mul]
  omega

/-- The block of a mask: the addresses that agree with `addr` on it are those
between the address with all other bits clear and the one with all of them
set. -/
theorem mask_eq_iff_between (addr ip : BitVec width) (fits : pfx ≤ width) :
    ip &&& maskOf width pfx = addr &&& maskOf width pfx ↔
      addr &&& maskOf width pfx ≤ ip ∧ ip ≤ addr ||| ~~~maskOf width pfx := by
  rw [maskOf_eq fits]
  generalize lengthEq : width - pfx = k
  have small : k ≤ width := by omega
  rw [← BitVec.toNat_inj, BitVec.le_def, BitVec.le_def, and_shifted_toNat,
    and_shifted_toNat, or_not_shifted_toNat addr small]
  have positive : 0 < 2 ^ k := Nat.two_pow_pos k
  have divided := Nat.div_add_mod' ip.toNat (2 ^ k)
  constructor
  · intro same
    omega
  · intro between
    have lower : addr.toNat / 2 ^ k ≤ ip.toNat / 2 ^ k :=
      (Nat.le_div_iff_mul_le positive).mpr between.1
    have upper : ip.toNat / 2 ^ k ≤ addr.toNat / 2 ^ k := by
      apply Nat.le_of_lt_succ
      rw [Nat.div_lt_iff_lt_mul positive, Nat.succ_mul]
      omega
    rw [Nat.le_antisymm upper lower]

end Masks

theorem mask_v4_eq {pfx : Nat} (fits : pfx ≤ 32) :
    (~~~(0xffffffff#64 >>> pfx)).setWidth 32 = maskOf 32 pfx := by
  have table : ∀ short : Fin 33,
      (~~~(0xffffffff#64 >>> short.1)).setWidth 32 = maskOf 32 short.1 := by
    decide
  exact table ⟨pfx, by omega⟩

theorem Ipv4Net.contains_iff (net : Ipv4Net) (ip : Ipv4Addr) :
    net.contains ip = true ↔ net.network ≤ ip ∧ ip ≤ net.broadcast := by
  unfold Ipv4Net.contains
  simp only [mask_v4_eq net.valid, beq_iff_eq]
  exact mask_eq_iff_between net.addr ip net.valid

theorem Ipv6Net.contains_iff (net : Ipv6Net) (ip : Ipv6Addr) :
    net.contains ip = true ↔ net.network ≤ ip ∧ ip ≤ net.broadcast := by
  unfold Ipv6Net.contains
  simp only [beq_iff_eq]
  exact mask_eq_iff_between net.addr ip net.valid

theorem Ipv4Net.network_le_broadcast (net : Ipv4Net) : net.network ≤ net.broadcast := by
  have between := (mask_eq_iff_between net.addr net.addr net.valid).mp rfl
  exact BitVec.le_trans between.1 between.2

theorem Ipv6Net.network_le_broadcast (net : Ipv6Net) : net.network ≤ net.broadcast := by
  have between := (mask_eq_iff_between net.addr net.addr net.valid).mp rfl
  exact BitVec.le_trans between.1 between.2

end Ophan.Net
