import Mathlib.Data.List.Induction
import Ophan.Lib.KeyMap
import Ophan.Net.TrustedProxies

/-!
# The listener of a connection

A gateway finds the listener of a connection by its local address: the one bound
to that address, or else a wildcard listener of the port.  The table keeps one
listener for each canonical address, the last one of the configuration, and takes
the first wildcard that it meets.
-/

namespace Ophan.Gateway

open List
open Net

inductive SocketAddr where
  | v4 (ip : Ipv4Addr) (port : UInt16)
  | v6 (ip : Ipv6Addr) (port : UInt16) (flowinfo scopeId : UInt32)
  deriving DecidableEq, Repr

/-- `InetAddr::new(addr.ip().to_canonical(), addr.port())` -/
def SocketAddr.canonical : SocketAddr → IpAddr × UInt16
  | .v4 ip port => (IpAddr.toCanonical (.v4 ip), port)
  | .v6 ip port _ _ => (IpAddr.toCanonical (.v6 ip), port)

def isUnspecified : IpAddr → Bool
  | .v4 ip => ip = 0
  | .v6 ip => ip = 0

def isIpv4 : IpAddr → Bool
  | .v4 _ => true
  | .v6 _ => false

inductive ListenerAddress where
  | tcp (addr : SocketAddr)
  | uds (path : Bytes)
  deriving DecidableEq, Repr

inductive TlsVersion where
  | tls12
  | tls13
  deriving DecidableEq, Repr

inductive SecurityConfig where
  | plaintext
  | tls (cert key : Bytes) (clientCa : Option Bytes)
      (clientAuthRequired alpn : Bool) (minVersion : TlsVersion)
  deriving DecidableEq, Repr

/-- A listener.  Its settings (the firewall, the trusted proxies, the limits) are
only passed on to the connections. -/
structure ListenerConfig (Settings : Type) where
  address : ListenerAddress
  security : SecurityConfig
  settings : Settings

variable {Settings : Type}

/-- The `Arc<ListenerRuntime>` of a listener, which is known by its position. -/
structure ListenerRuntime (Settings : Type) where
  listener : Nat
  settings : Settings
  deriving DecidableEq

structure ListenerTable (Settings : Type) where
  tcp : List ((IpAddr × UInt16) × ListenerRuntime Settings)
  unix : KeyMap Bytes (ListenerRuntime Settings)

inductive LocalAddr where
  | inet (addr : SocketAddr)
  | unix (pathname : Option Bytes)
  deriving DecidableEq, Repr

namespace ListenerTable

/-- One round of the loop of `from_config`. -/
def add (table : ListenerTable Settings)
    (entry : ListenerConfig Settings × Nat) : ListenerTable Settings :=
  let runtime : ListenerRuntime Settings := ⟨entry.2, entry.1.settings⟩
  match entry.1.address with
  | .tcp addr =>
    { table with
      tcp := table.tcp.filter (·.1 ≠ addr.canonical) ++ [(addr.canonical, runtime)] }
  | .uds path => { table with unix := table.unix.insert path runtime }

def fromConfig (listeners : List (ListenerConfig Settings)) : ListenerTable Settings :=
  listeners.zipIdx.foldl add ⟨[], ∅⟩

def isWildcard (port : UInt16) (entry : (IpAddr × UInt16) × ListenerRuntime Settings) : Bool :=
  entry.1.2 = port && isUnspecified entry.1.1

def lookupLoop (address : IpAddr × UInt16) (wildcard : Option (ListenerRuntime Settings)) :
    List ((IpAddr × UInt16) × ListenerRuntime Settings) → Option (ListenerRuntime Settings)
  | [] => wildcard
  | entry :: rest =>
    if entry.1 = address then some entry.2
    else
      lookupLoop address
        (if wildcard.isNone && isWildcard address.2 entry then some entry.2 else wildcard) rest

def lookupTcp (table : ListenerTable Settings) (address : SocketAddr) :
    Option (ListenerRuntime Settings) :=
  lookupLoop address.canonical none table.tcp

/-- The runtime for a connection.  Without one, the default settings apply. -/
def lookup (table : ListenerTable Settings) : Option LocalAddr → Option (ListenerRuntime Settings)
  | some (.inet addr) => table.lookupTcp addr
  | some (.unix pathname) => pathname.bind table.unix.lookup
  | none => none

end ListenerTable

/-! ## The listener that accepted a connection -/

section Accepted

variable (listeners : List (ListenerConfig Settings)) (address : SocketAddr)

def boundAt (i : Nat) : Option SocketAddr :=
  listeners[i]?.bind fun listener =>
    match listener.address with
    | .tcp addr => some addr
    | .uds _ => none

/-- How well a bound address fits: it is that address, the same one written in
another way, the wildcard of its family, or the wildcard of the other one. -/
def rank (address bound : SocketAddr) : Option Nat :=
  if bound = address then some 0
  else if bound.canonical = address.canonical then some 1
  else if bound.canonical.2 = address.canonical.2 && isUnspecified bound.canonical.1 then
    if isIpv4 bound.canonical.1 = isIpv4 address.canonical.1 then some 2 else some 3
  else none

def rankAt (i : Nat) : Option Nat := (boundAt listeners i).bind (rank address)

/-- The listener accepted the connection: no other one fits better. -/
def AcceptedBy (i : Nat) : Prop :=
  ∃ r, rankAt listeners address i = some r ∧ ∀ j q, rankAt listeners address j = some q → r ≤ q

/-- A connection that some listener accepted gets the runtime of such a
listener. -/
def GetsOwnListener : Prop :=
  (∃ i, AcceptedBy listeners address i) →
    ∃ runtime listener,
      (ListenerTable.fromConfig listeners).lookup (some (.inet address)) = some runtime ∧
      listeners[runtime.listener]? = some listener ∧
      runtime.settings = listener.settings ∧
      AcceptedBy listeners address runtime.listener

/-- The order of the listeners agrees with their ranks: the same address does not
follow written in another way, and where the wildcards decide, the last one of
the own family comes before the last one of the other. -/
structure InOrder : Prop where
  exact : ∀ i j, rankAt listeners address i = some 0 → rankAt listeners address j = some 1 → j < i
  wildcard : (∀ i, rankAt listeners address i ≠ some 0 ∧ rankAt listeners address i ≠ some 1) →
    ∀ i j, rankAt listeners address i = some 2 →
      (∀ k, i < k → rankAt listeners address k ≠ some 2) →
      rankAt listeners address j = some 3 →
      (∀ k, j < k → rankAt listeners address k ≠ some 3) → i < j

end Accepted

/-! ## The table -/

section Table

variable {listeners : List (ListenerConfig Settings)}

def canonicalAt (listeners : List (ListenerConfig Settings)) (i : Nat) : Option (IpAddr × UInt16) :=
  (boundAt listeners i).map SocketAddr.canonical

def LastAt (listeners : List (ListenerConfig Settings)) (i : Nat) (addr : IpAddr × UInt16) : Prop :=
  canonicalAt listeners i = some addr ∧ ∀ j, i < j → canonicalAt listeners j ≠ some addr

/-- The entries of the table: the last listener of every address, in the order of
the configuration. -/
structure Tabled (listeners : List (ListenerConfig Settings))
    (entries : List ((IpAddr × UInt16) × ListenerRuntime Settings)) : Prop where
  sorted : entries.Pairwise (·.2.listener < ·.2.listener)
  mem_iff : ∀ addr runtime, (addr, runtime) ∈ entries ↔
    LastAt listeners runtime.listener addr ∧
      ∃ listener, listeners[runtime.listener]? = some listener ∧
        runtime.settings = listener.settings

variable {i : Nat}

theorem canonicalAt_of_length_le (outside : listeners.length ≤ i) :
    canonicalAt listeners i = none := by
  rw [canonicalAt, boundAt, List.getElem?_eq_none outside]
  rfl

theorem canonicalAt_append_left (inside : i < listeners.length)
    (listener : ListenerConfig Settings) :
    canonicalAt (listeners ++ [listener]) i = canonicalAt listeners i := by
  rw [canonicalAt, boundAt, List.getElem?_append_left inside]
  rfl

variable {addr : IpAddr × UInt16}

theorem lastAt_append_of_ne {listener : ListenerConfig Settings} (inside : i < listeners.length) :
    LastAt (listeners ++ [listener]) i addr ↔
      LastAt listeners i addr ∧
        canonicalAt (listeners ++ [listener]) listeners.length ≠ some addr := by
  rw [LastAt, LastAt, canonicalAt_append_left inside, and_assoc]
  apply and_congr_right
  intro _
  constructor
  · intro last
    refine ⟨?_, last listeners.length inside⟩
    intro j later
    by_cases within : j < listeners.length
    · rw [← canonicalAt_append_left within listener]
      exact last j later
    · rw [canonicalAt_of_length_le (by omega)]
      simp
  · rintro ⟨last, notNew⟩ j later
    rcases Nat.lt_trichotomy j listeners.length with within | same | outside
    · rw [canonicalAt_append_left within listener]
      exact last j later
    · rw [same]
      exact notNew
    · rw [canonicalAt_of_length_le (by simp; omega)]
      simp

theorem Tabled.append {entries : List ((IpAddr × UInt16) × ListenerRuntime Settings)}
    (tabled : Tabled listeners entries) (listener : ListenerConfig Settings)
    {new : Option (IpAddr × UInt16)}
    (isNew : canonicalAt (listeners ++ [listener]) listeners.length = new) :
    Tabled (listeners ++ [listener])
      (entries.filter (some ·.1 ≠ new) ++
        (new.map (·, ⟨listeners.length, listener.settings⟩)).toList) := by
  have below : ∀ entry ∈ entries, entry.2.listener < listeners.length := by
    rintro ⟨addr, runtime⟩ member
    obtain ⟨-, other, located, -⟩ := (tabled.mem_iff addr runtime).mp member
    exact (List.getElem?_eq_some_iff.mp located).1
  constructor
  · rw [pairwise_append]
    refine ⟨tabled.sorted.filter _, ?_, ?_⟩
    · cases new <;> simp
    · intro entry member last isLast
      obtain ⟨addr, -, rfl⟩ := Option.map_eq_some_iff.mp (Option.mem_toList.mp isLast)
      exact below entry (mem_filter.mp member).1
  · rintro addr ⟨i, settings⟩
    rw [mem_append, mem_filter, tabled.mem_iff, Option.mem_toList, Option.map_eq_some_iff]
    dsimp only
    rcases Nat.lt_trichotomy i listeners.length with inside | rfl | outside
    · rw [lastAt_append_of_ne inside, isNew, List.getElem?_append_left inside]
      have notLast : i ≠ listeners.length := by omega
      grind
    · have noOld : ¬ LastAt listeners listeners.length addr := by
        rintro ⟨isSome, -⟩
        rw [canonicalAt_of_length_le (Nat.le_refl _)] at isSome
        cases isSome
      have isLast : LastAt (listeners ++ [listener]) listeners.length addr ↔ new = some addr := by
        rw [LastAt, isNew, and_iff_left_iff_imp]
        intro _ j later
        rw [canonicalAt_of_length_le (by simp; omega)]
        simp
      rw [isLast, List.getElem?_concat_length]
      simp only [noOld, false_and, false_or, Prod.mk.injEq, ListenerRuntime.mk.injEq,
        true_and, Option.some.injEq, exists_eq_left']
      constructor
      · simp_all
      · simp_all
    · grind

theorem tabled_fromConfig (listeners : List (ListenerConfig Settings)) :
    Tabled listeners (ListenerTable.fromConfig listeners).tcp := by
  induction listeners using List.reverseRecOn with
  | nil =>
    refine ⟨List.Pairwise.nil, ?_⟩
    intro addr runtime
    simp [ListenerTable.fromConfig]
  | append_singleton listeners listener ih =>
    have last : ListenerTable.fromConfig (listeners ++ [listener]) =
        (ListenerTable.fromConfig listeners).add (listener, listeners.length) := by
      simp [ListenerTable.fromConfig, zipIdx_append, foldl_append]
    have next := ih.append listener rfl
    rw [last, ListenerTable.add]
    cases kind : listener.address with
    | tcp | uds => simpa [canonicalAt, boundAt, kind] using next

/-- The loop takes the entry of the address, or else the first wildcard. -/
theorem lookupLoop_eq (address : IpAddr × UInt16) (wildcard : Option (ListenerRuntime Settings))
    (entries : List ((IpAddr × UInt16) × ListenerRuntime Settings)) :
    ListenerTable.lookupLoop address wildcard entries =
      ((entries.find? (·.1 = address)).map (·.2)).or
        (wildcard.or ((entries.find? (ListenerTable.isWildcard address.2)).map (·.2))) := by
  induction entries generalizing wildcard with
  | nil => simp [ListenerTable.lookupLoop]
  | cons entry rest ih =>
    rw [ListenerTable.lookupLoop]
    by_cases same : entry.1 = address
    · simp [same]
    · rw [if_neg same, ih]
      cases wildcard with
      | some runtime => simp [same]
      | none =>
        cases wild : ListenerTable.isWildcard address.2 entry with
        | true | false => simp [same, wild]

/-- A position with a property has a last one. -/
theorem exists_last {P : Nat → Prop} {bound : Nat} (below : ∀ i, P i → i < bound)
    (holds : P i) : ∃ k, P k ∧ ∀ j, k < j → ¬ P j := by
  classical
  refine ⟨Nat.findGreatest P bound, ?_, ?_⟩
  · exact Nat.findGreatest_spec (below i holds).le holds
  · intro j later isP
    exact Nat.findGreatest_is_greatest later (below j isP).le isP

theorem lt_length_of_canonicalAt
    (isAddr : canonicalAt listeners i = some addr) : i < listeners.length := by
  by_contra outside
  rw [canonicalAt_of_length_le (by omega)] at isAddr
  cases isAddr

theorem Tabled.exists_entry {entries : List ((IpAddr × UInt16) × ListenerRuntime Settings)}
    (tabled : Tabled listeners entries) (last : LastAt listeners i addr) :
    ∃ runtime, runtime.listener = i ∧ (addr, runtime) ∈ entries := by
  have inside := lt_length_of_canonicalAt last.1
  refine ⟨⟨i, listeners[i].settings⟩, rfl, (tabled.mem_iff _ _).mpr ⟨last, ?_⟩⟩
  exact ⟨listeners[i], List.getElem?_eq_getElem inside, rfl⟩

/-- What a lookup finds: the last listener of the address, or else the wildcard
of the port that stands first among the last ones of their addresses. -/
theorem lookup_cases (listeners : List (ListenerConfig Settings))
    (address : SocketAddr) (fits : canonicalAt listeners i = some addr)
    (isFit : addr = address.canonical ∨
      addr.2 = address.canonical.2 ∧ isUnspecified addr.1 = true) :
    ∃ runtime listener found,
      (ListenerTable.fromConfig listeners).lookup (some (.inet address)) = some runtime ∧
      listeners[runtime.listener]? = some listener ∧
      runtime.settings = listener.settings ∧
      LastAt listeners runtime.listener found ∧
      (found = address.canonical ∨
        (∀ k, canonicalAt listeners k ≠ some address.canonical) ∧
          found.2 = address.canonical.2 ∧ isUnspecified found.1 = true ∧
          ∀ k other, LastAt listeners k other → other.2 = address.canonical.2 →
            isUnspecified other.1 = true → runtime.listener ≤ k) := by
  have tabled := tabled_fromConfig listeners
  change ∃ runtime listener found, ListenerTable.lookupLoop _ _ _ = _ ∧ _
  rw [lookupLoop_eq]
  generalize (ListenerTable.fromConfig listeners).tcp = entries at tabled ⊢
  cases exact : entries.find? (·.1 = address.canonical) with
  | some entry =>
    obtain ⟨found, runtime⟩ := entry
    have isFound : found = address.canonical := by simpa using List.find?_some exact
    obtain ⟨last, listener, located, settings⟩ :=
      (tabled.mem_iff _ _).mp (mem_of_find?_eq_some exact)
    exact ⟨runtime, listener, found, by simp, located, settings, last, Or.inl isFound⟩
  | none =>
    have noExact : ∀ k, canonicalAt listeners k ≠ some address.canonical := by
      intro k isExact
      obtain ⟨last, atLast, isLast⟩ := exists_last (fun _ => lt_length_of_canonicalAt) isExact
      obtain ⟨runtime, -, member⟩ := tabled.exists_entry ⟨atLast, isLast⟩
      simpa using List.find?_eq_none.mp exact _ member
    have isWild : addr.2 = address.canonical.2 ∧ isUnspecified addr.1 = true := by grind
    obtain ⟨last, atLast, isLast⟩ := exists_last (fun _ => lt_length_of_canonicalAt) fits
    obtain ⟨runtime, -, member⟩ := tabled.exists_entry ⟨atLast, isLast⟩
    cases wild : entries.find? (ListenerTable.isWildcard address.canonical.2) with
    | none =>
      have missed := List.find?_eq_none.mp wild _ member
      simp [ListenerTable.isWildcard, isWild] at missed
    | some entry =>
      obtain ⟨found, runtime⟩ := entry
      have isFound := List.find?_some wild
      simp only [ListenerTable.isWildcard, Bool.and_eq_true, decide_eq_true_eq] at isFound
      obtain ⟨last, listener, located, settings⟩ :=
        (tabled.mem_iff _ _).mp (mem_of_find?_eq_some wild)
      refine ⟨runtime, listener, found, by simp, located, settings, last,
        Or.inr ⟨noExact, isFound.1, isFound.2, ?_⟩⟩
      intro k other lastOther samePort unspecified
      obtain ⟨second, rfl, isEntry⟩ := tabled.exists_entry lastOther
      by_contra earlier
      obtain ⟨-, before, behind, rfl, notBefore⟩ := List.find?_eq_some_iff_append.mp wild
      have sorted := tabled.sorted
      rw [pairwise_append, pairwise_cons] at sorted
      rcases mem_append.mp isEntry with inBefore | inBehind
      · have missed := notBefore _ inBefore
        simp [ListenerTable.isWildcard, samePort, unspecified] at missed
      · grind

end Table

/-! ## Ranks -/

section Ranks

variable {listeners : List (ListenerConfig Settings)} {address : SocketAddr} {i : Nat}

def wildcardFor (address : SocketAddr) (ipv4 : Bool) : IpAddr × UInt16 :=
  (if ipv4 then .v4 0 else .v6 0, address.canonical.2)

theorem isUnspecified_iff (ip : IpAddr) :
    isUnspecified ip = true ↔ ip = if isIpv4 ip then .v4 0 else .v6 0 := by
  cases ip <;> simp [isUnspecified, isIpv4]

theorem rankAt_eq_zero_iff :
    rankAt listeners address i = some 0 ↔ boundAt listeners i = some address := by
  rw [rankAt]
  cases boundAt listeners i with
  | none => simp
  | some bound =>
    rw [Option.bind_some, rank, Option.some.injEq]
    split_ifs <;> simp [*]

theorem canonicalAt_eq_iff :
    canonicalAt listeners i = some address.canonical ↔
      rankAt listeners address i = some 0 ∨ rankAt listeners address i = some 1 := by
  rw [rankAt, canonicalAt]
  cases boundAt listeners i with
  | none => simp
  | some bound =>
    rw [Option.bind_some, Option.map_some, rank, Option.some.injEq]
    by_cases same : bound = address
    · simp [same]
    · split_ifs <;> simp [*]

theorem wildcardFor_of_isUnspecified {addr : IpAddr × UInt16}
    (samePort : addr.2 = address.canonical.2) (wild : isUnspecified addr.1 = true) :
    addr = wildcardFor address (isIpv4 addr.1) :=
  Prod.ext ((isUnspecified_iff _).mp wild) samePort

theorem isUnspecified_wildcardFor (ipv4 : Bool) :
    isUnspecified (wildcardFor address ipv4).1 = true := by
  cases ipv4 <;> rfl

def wildcardRank (address : SocketAddr) (ipv4 : Bool) : Nat :=
  if ipv4 = isIpv4 address.canonical.1 then 2 else 3

variable {ipv4 : Bool}

theorem rankAt_wildcard (isWild : canonicalAt listeners i = some (wildcardFor address ipv4))
    (other : wildcardFor address ipv4 ≠ address.canonical) :
    rankAt listeners address i = some (wildcardRank address ipv4) := by
  obtain ⟨bound, isBound, isCanonical⟩ := Option.map_eq_some_iff.mp isWild
  have notSame : bound ≠ address := by grind
  have family : isIpv4 (wildcardFor address ipv4).1 = ipv4 := by
    cases ipv4 <;> rfl
  rw [rankAt, isBound, Option.bind_some, rank, if_neg notSame, isCanonical,
    if_neg other, isUnspecified_wildcardFor, family, wildcardRank]
  simp [wildcardFor]
  split <;> rfl

theorem rankAt_cases {r : Nat} (isRank : rankAt listeners address i = some r) :
    canonicalAt listeners i = some address.canonical ∧ r ≤ 1 ∨
      ∃ ipv4, canonicalAt listeners i = some (wildcardFor address ipv4) ∧
        wildcardFor address ipv4 ≠ address.canonical ∧
        r = wildcardRank address ipv4 := by
  by_cases same : canonicalAt listeners i = some address.canonical
  · left
    refine ⟨same, ?_⟩
    rcases canonicalAt_eq_iff.mp same with isZero | isOne
    · grind
    · simp_all
  · right
    obtain ⟨bound, isBound, isRankOf⟩ := Option.bind_eq_some_iff.mp isRank
    have isCanonical : canonicalAt listeners i = some bound.canonical := by
      rw [canonicalAt, isBound, Option.map_some]
    have other : bound.canonical ≠ address.canonical := by simp_all
    have notSame : bound ≠ address := by grind
    rw [rank, if_neg notSame, if_neg other] at isRankOf
    split at isRankOf
    · rename_i wild
      simp only [Bool.and_eq_true, decide_eq_true_eq] at wild
      have isWild := wildcardFor_of_isUnspecified wild.1 wild.2
      rw [isWild] at isCanonical other
      refine ⟨_, isCanonical, other, ?_⟩
      rw [rankAt_wildcard isCanonical other, Option.some.injEq] at isRank
      exact isRank.symm
    · cases isRankOf

theorem canonicalAt_of_wildcardRank
    (isRank : rankAt listeners address i = some (wildcardRank address ipv4)) :
    canonicalAt listeners i = some (wildcardFor address ipv4) ∧
      wildcardFor address ipv4 ≠ address.canonical := by
  rcases rankAt_cases isRank with ⟨-, small⟩ | ⟨other, isWild, notSame, sameRank⟩
  · rw [wildcardRank] at small
    split at small <;> omega
  · have same : other = ipv4 := by
      unfold wildcardRank at sameRank
      cases other <;> cases ipv4 <;> cases family : isIpv4 address.canonical.1 <;> simp_all
    subst same
    exact ⟨isWild, notSame⟩

theorem lastAt_wildcard (isRank : rankAt listeners address i = some (wildcardRank address ipv4))
    (last : ∀ k, i < k → rankAt listeners address k ≠ some (wildcardRank address ipv4)) :
    LastAt listeners i (wildcardFor address ipv4) := by
  obtain ⟨isWild, notSame⟩ := canonicalAt_of_wildcardRank isRank
  refine ⟨isWild, ?_⟩
  intro k later atLater
  exact last k later (rankAt_wildcard atLater notSame)

theorem wildcardRank_own (address : SocketAddr) :
    wildcardRank address (isIpv4 address.canonical.1) = 2 :=
  if_pos rfl

theorem wildcardRank_other (address : SocketAddr) :
    wildcardRank address (!isIpv4 address.canonical.1) = 3 := by
  rw [wildcardRank]
  simp

theorem wildcardRank_eq (address : SocketAddr) (ipv4 : Bool) :
    wildcardRank address ipv4 = 2 ∧ ipv4 = isIpv4 address.canonical.1 ∨
      wildcardRank address ipv4 = 3 ∧ ipv4 = !isIpv4 address.canonical.1 := by
  by_cases own : ipv4 = isIpv4 address.canonical.1
  · exact Or.inl ⟨if_pos own, own⟩
  · exact Or.inr ⟨if_neg own, Bool.eq_not.mpr own⟩

theorem two_le_of_rankAt (noExact : ∀ k, canonicalAt listeners k ≠ some address.canonical) {r : Nat}
    (isRank : rankAt listeners address i = some r) : 2 ≤ r := by
  rcases rankAt_cases isRank with ⟨isExact, -⟩ | ⟨ipv4, -, -, rfl⟩
  · exact absurd isExact (noExact i)
  · rcases wildcardRank_eq address ipv4 with ⟨isTwo, -⟩ | ⟨isThree, -⟩
    · omega
    · omega

theorem GetsOwnListener.inOrder
    (distinct : ∀ i j bound, boundAt listeners i = some bound →
      boundAt listeners j = some bound → i = j)
    (getsOwn : GetsOwnListener listeners address) : InOrder listeners address where
  exact := by
    intro i j isZero isOne
    have atI := canonicalAt_eq_iff.mpr (Or.inl isZero)
    obtain ⟨runtime, listener, found, isFound, -, -, last, chosen⟩ :=
      lookup_cases listeners address atI (Or.inl rfl)
    obtain ⟨same, -, isRuntime, -, -, r, isRank, best⟩ :=
      getsOwn ⟨i, 0, isZero, fun _ _ _ => Nat.zero_le _⟩
    obtain rfl : runtime = same := Option.some.inj (isFound.symm.trans isRuntime)
    have isFirst : r = 0 := Nat.le_zero.mp (best i 0 isZero)
    rw [isFirst] at isRank
    have own : runtime.listener = i :=
      distinct _ _ _ (rankAt_eq_zero_iff.mp isRank) (rankAt_eq_zero_iff.mp isZero)
    rcases chosen with rfl | ⟨noExact, -⟩
    · by_contra notEarlier
      have different : i ≠ j := by grind
      exact last.2 j (by omega) (canonicalAt_eq_iff.mpr (Or.inr isOne))
    · exact absurd atI (noExact i)
  wildcard := by
    intro noRank i j isOwn lastOwn isOther lastOther
    have noExact : ∀ k, canonicalAt listeners k ≠ some address.canonical := by
      intro k isExact
      rcases canonicalAt_eq_iff.mp isExact with isZero | isOne
      · exact (noRank k).1 isZero
      · exact (noRank k).2 isOne
    have accepted : AcceptedBy listeners address i :=
      ⟨2, isOwn, fun _ _ => two_le_of_rankAt noExact⟩
    rw [← wildcardRank_own address] at isOwn lastOwn
    rw [← wildcardRank_other address] at isOther lastOther
    have atI := lastAt_wildcard isOwn lastOwn
    have atJ := lastAt_wildcard isOther lastOther
    obtain ⟨runtime, listener, found, isFound, -, -, last, chosen⟩ :=
      lookup_cases listeners address atI.1 (Or.inr ⟨rfl, isUnspecified_wildcardFor _⟩)
    obtain ⟨same, -, isRuntime, -, -, r, isRank, best⟩ := getsOwn ⟨i, accepted⟩
    obtain rfl : runtime = same := Option.some.inj (isFound.symm.trans isRuntime)
    have isTwo : r = wildcardRank address (isIpv4 address.canonical.1) :=
      Nat.le_antisymm (best i _ isOwn)
        (by rw [wildcardRank_own]; exact two_le_of_rankAt noExact isRank)
    rw [isTwo] at isRank
    rcases chosen with rfl | ⟨-, -, -, first⟩
    · exact absurd last.1 (noExact _)
    · have notLater := first j _ atJ rfl (isUnspecified_wildcardFor _)
      have isWild := (canonicalAt_of_wildcardRank isRank).1
      rw [last.1, Option.some.injEq] at isWild
      have notEarlier : ¬ runtime.listener < i := by
        intro earlier
        exact last.2 i earlier (isWild ▸ atI.1)
      have different : i ≠ j := by
        rintro rfl
        simp [isOwn, wildcardRank_own, wildcardRank_other] at isOther
      omega

theorem InOrder.getsOwnListener (inOrder : InOrder listeners address) :
    GetsOwnListener listeners address := by
  rintro ⟨i, r, isRank, -⟩
  obtain ⟨addr, fits, isFit⟩ : ∃ addr, canonicalAt listeners i = some addr ∧
      (addr = address.canonical ∨ addr.2 = address.canonical.2 ∧ isUnspecified addr.1 = true) := by
    rcases rankAt_cases isRank with ⟨isExact, -⟩ | ⟨ipv4, isWild, -, -⟩
    · exact ⟨_, isExact, Or.inl rfl⟩
    · exact ⟨_, isWild, Or.inr ⟨rfl, isUnspecified_wildcardFor _⟩⟩
  obtain ⟨runtime, listener, found, isFound, located, settings, last, chosen⟩ :=
    lookup_cases listeners address fits isFit
  refine ⟨runtime, listener, isFound, located, settings, ?_⟩
  rcases chosen with rfl | ⟨noExact, samePort, unspecified, first⟩
  · rcases canonicalAt_eq_iff.mp last.1 with isZero | isOne
    · exact ⟨0, isZero, fun _ _ _ => Nat.zero_le _⟩
    · refine ⟨1, isOne, ?_⟩
      intro j q atJ
      by_contra less
      obtain rfl : q = 0 := by omega
      exact last.2 j (inOrder.exact j _ atJ isOne) (canonicalAt_eq_iff.mpr (Or.inl atJ))
  · have isWild := wildcardFor_of_isUnspecified samePort unspecified
    rw [isWild] at last
    have notSame : wildcardFor address (isIpv4 found.1) ≠ address.canonical := by
      intro same
      exact noExact _ (same ▸ last.1)
    have atRuntime := rankAt_wildcard last.1 notSame
    refine ⟨_, atRuntime, ?_⟩
    intro j q atJ
    have atLeast := two_le_of_rankAt noExact atJ
    rcases wildcardRank_eq address (isIpv4 found.1) with
      ⟨isTwo, -⟩ | ⟨isThree, -⟩
    · omega
    · -- A wildcard of the own family would have its last listener before this one.
      by_contra less
      have isTwo : q = 2 := by omega
      subst isTwo
      obtain ⟨k, atK, lastK⟩ := exists_last
        (P := fun k => rankAt listeners address k = some 2)
        (fun k atK => by
          rcases rankAt_cases atK with ⟨isExact, -⟩ | ⟨ipv4, isWild, -, -⟩
          · exact lt_length_of_canonicalAt isExact
          · exact lt_length_of_canonicalAt isWild) atJ
      have earlier := inOrder.wildcard
        (fun k => by
          rw [← not_or, ← canonicalAt_eq_iff]
          exact noExact k)
        k runtime.listener atK lastK (isThree ▸ atRuntime)
        (fun k later atK => by
          rw [← isThree] at atK
          exact last.2 k later (canonicalAt_of_wildcardRank atK).1)
      rw [← wildcardRank_own address] at atK lastK
      have notLater := first k _ (lastAt_wildcard atK lastK) rfl (isUnspecified_wildcardFor _)
      omega

/-- Connections get the runtime of the listener that accepted them exactly when
the listeners stand in the order of their ranks. -/
theorem lookup_own_listener_iff (listeners : List (ListenerConfig Settings))
    (distinct : ∀ i j bound, boundAt listeners i = some bound →
      boundAt listeners j = some bound → i = j) (address : SocketAddr) :
    GetsOwnListener listeners address ↔ InOrder listeners address :=
  ⟨fun getsOwn => getsOwn.inOrder distinct, InOrder.getsOwnListener⟩

/-- Plain listeners of the addresses, each with its position as its settings. -/
def plainListeners (addresses : List SocketAddr) : List (ListenerConfig Nat) :=
  addresses.zipIdx.map fun (addr, i) => ⟨.tcp addr, .plaintext, i⟩

/-- The wildcards of both families on one port, and another address of the port. -/
def bothFamilies : List (ListenerConfig Nat) := plainListeners [.v4 0 80, .v6 0 80 0 0, .v4 9 80]

/-- A connection to a fourth address of the port is that of the IPv4 wildcard. -/
theorem lookup_own_listener_iff_families :
    (ListenerTable.fromConfig bothFamilies).lookup (some (.inet (.v4 7 80))) = some ⟨0, 0⟩ ∧
      GetsOwnListener bothFamilies (.v4 7 80) := by
  refine ⟨by decide, (lookup_own_listener_iff _ ?_ _).mpr ⟨?_, fun _ => ?_⟩⟩
  · rintro (_ | _ | _ | i) (_ | _ | _ | j) bound boundI boundJ
    all_goals first | rfl | (cases boundI <;> cases boundJ)
  · rintro (_ | _ | _ | i) j atI
    all_goals cases atI
  · rintro (_ | _ | _ | i) (_ | j) atI _ atJ _
    all_goals first
      | exact Nat.succ_pos _
      | exact absurd atJ (by decide)
      | exact absurd atI (by decide)
      | cases atI

/-- The IPv6 wildcard before the IPv4 wildcard of the same port takes its
connections. -/
theorem ipv6_wildcard_takes_ipv4 :
    ¬ GetsOwnListener (plainListeners [.v6 0 80 0 0, .v4 0 80]) (.v4 7 80) := by
  intro getsOwn
  have accepted : AcceptedBy (plainListeners [.v6 0 80 0 0, .v4 0 80]) (.v4 7 80) 1 := by
    refine ⟨2, by decide, ?_⟩
    intro j q atJ
    match j with
    | 0 =>
      rw [show rankAt _ _ 0 = some 3 by decide] at atJ
      cases atJ
      omega
    | 1 =>
      rw [show rankAt _ _ 1 = some 2 by decide] at atJ
      cases atJ
      omega
    | j + 2 => cases atJ
  obtain ⟨runtime, -, isRuntime, -, -, r, isRank, best⟩ := getsOwn ⟨1, accepted⟩
  rw [show (ListenerTable.fromConfig
      (plainListeners [.v6 0 80 0 0, .v4 0 80])).lookup (some (.inet (.v4 7 80))) =
        some ⟨0, 0⟩ by decide] at isRuntime
  cases isRuntime
  rw [show rankAt (plainListeners [.v6 0 80 0 0, .v4 0 80]) (.v4 7 80) 0 =
    some 3 by decide] at isRank
  cases isRank
  have isLess := best 1 2 (by decide)
  omega

end Ranks

end Ophan.Gateway
