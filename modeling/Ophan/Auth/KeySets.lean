import Ophan.Cache.Ufo

/-!
# Looking up verification keys

The key set of a JWKS document is cached for its time to live.  A lookup of a key
id that the cached set does not have may fetch the document again, at most once
per cooldown: the set is removed from the cache first, and nothing takes its
place if the fetch fails.

The calls come one after the other.  Times are in seconds.  The set that was
fetched last is kept beside the client.
-/

namespace Ophan.Auth

open Ufo (Stored Failure)

universe u v w x

structure KeySet (Kid : Type u) (Key : Type v) where
  keys : KeyMap Kid Key
  fetchedAt : Nat

/-- One fetch of the document: how long it takes, and the keys with the time to
live of the response, or an error. -/
structure KeyFetch (Kid : Type u) (Key : Type v) (ε : Type w) where
  took : Nat
  outcome : Except ε (KeyMap Kid Key × Option Nat)

structure OAuthClient (Kid : Type u) (Key : Type v) (ε : Type w) where
  keySet : Option (Stored (KeySet Kid Key))
  failure : Option (Failure ε)
  refetched : Option Nat

structure OAuthSettings where
  cacheTtl : Nat
  refetchCooldown : Nat

inductive KeyError (Kid : Type u) (ε : Type w) where
  | keyNotFound (kid : Kid)
  | shared (error : ε)
  deriving DecidableEq, Repr

/-- A part of a call: the client and the time after it, what it returns, and the
set that it has put into the cache. -/
structure KeyAnswer (Kid : Type u) (Key : Type v) (ε : Type w) (ρ : Type x)
    where
  client : OAuthClient Kid Key ε
  now : Nat
  result : ρ
  fetched : Option (Stored (KeySet Kid Key))

/-- A call of `get_verification_key`, with what its fetches do if it makes
them. -/
structure KeyCall (Kid : Type u) (Key : Type v) (ε : Type w) where
  now : Nat
  kid : Kid
  ttl : Option Nat
  first : KeyFetch Kid Key ε
  second : KeyFetch Kid Key ε

namespace OAuthClient

variable {Kid : Type u} {Key : Type v} {ε : Type w}

def minCacheTtl : Nat := 60
def maxCacheTtl : Nat := 24 * 3600
def negativeCacheTtl : Nat := 5

def new : OAuthClient Kid Key ε where
  keySet := none
  failure := none
  refetched := none

/-- The time to live of a response: the configured one, else that of the
response, else the default, clamped. -/
def cacheTtl (configured response : Option Nat) (default : Nat) : Nat :=
  min (max ((configured.or response).getD default) minCacheTtl) maxCacheTtl

def getValue (client : OAuthClient Kid Key ε) (now : Nat) : Option (KeySet Kid Key) :=
  client.keySet.bind fun stored => if stored.isExpired now then none else some stored.value

def put (client : OAuthClient Kid Key ε) (set : KeySet Kid Key) (ttl now : Nat) :
    OAuthClient Kid Key ε :=
  if ttl = 0 then client
  else { client with keySet := some ⟨set, some (now + ttl)⟩ }

/-- `guard.failures.remove(&key)` -/
def forget (client : OAuthClient Kid Key ε) : OAuthClient Kid Key ε :=
  { client with failure := none }

/-- The fetch of `get_or_fetch_with_ttl` and the record of its outcome. -/
def runFetch (settings : OAuthSettings) (client : OAuthClient Kid Key ε)
    (start : Nat) (ttl : Option Nat) (fetch : KeyFetch Kid Key ε) :
    KeyAnswer Kid Key ε (Except ε (KeySet Kid Key)) :=
  let now := start + fetch.took
  match fetch.outcome with
  | .ok (keys, response) =>
    let set : KeySet Kid Key := ⟨keys, now⟩
    let stored := client.put set (cacheTtl ttl response settings.cacheTtl) now
    { client := stored
      now := now
      result := .ok set
      fetched := stored.keySet }
  | .error error =>
    { client := { client with
        failure := some ⟨now + negativeCacheTtl, error⟩ }
      now := now
      result := .error error
      fetched := none }

/-- `key_set`: the cached set, a remembered failure, or a fetch. -/
def keySetOf (settings : OAuthSettings) (client : OAuthClient Kid Key ε)
    (now : Nat) (ttl : Option Nat) (fetch : KeyFetch Kid Key ε) :
    KeyAnswer Kid Key ε (Except ε (KeySet Kid Key)) :=
  match client.getValue now with
  | some set => { client := client, now := now, result := .ok set, fetched := none }
  | none =>
    match client.failure with
    | some failure =>
      if failure.expiresAt > now then
        { client := client
          now := now
          result := .error failure.error
          fetched := none }
      else
        runFetch settings client.forget now ttl fetch
    | none => runFetch settings client now ttl fetch

def mayRefetch (settings : OAuthSettings) (client : OAuthClient Kid Key ε) (now : Nat) : Bool :=
  !client.refetched.any fun last => now - last < settings.refetchCooldown

def claimRefetch (settings : OAuthSettings) (client : OAuthClient Kid Key ε)
    (now : Nat) : OAuthClient Kid Key ε × Bool :=
  if mayRefetch settings client now then
    ({ client with refetched := some now }, true)
  else
    (client, false)

/-- `key_sets.remove(jwks_uri)` -/
def remove (client : OAuthClient Kid Key ε) : OAuthClient Kid Key ε :=
  { client with keySet := none }

variable [DecidableEq Kid]

def KeySet.find (set : KeySet Kid Key) (kid : Kid) : Except (KeyError Kid ε) Key :=
  match set.keys.lookup kid with
  | some key => .ok key
  | none => .error (.keyNotFound kid)

def getVerificationKey (settings : OAuthSettings)
    (client : OAuthClient Kid Key ε) (call : KeyCall Kid Key ε) :
    KeyAnswer Kid Key ε (Except (KeyError Kid ε) Key) :=
  let known := keySetOf settings client call.now call.ttl call.first
  match known.result with
  | .error error =>
    { client := known.client
      now := known.now
      result := .error (.shared error)
      fetched := known.fetched }
  | .ok set =>
    match set.keys.lookup call.kid with
    | some key =>
      { client := known.client
        now := known.now
        result := .ok key
        fetched := known.fetched }
    | none =>
      let refused : KeyAnswer Kid Key ε (Except (KeyError Kid ε) Key) :=
        { client := known.client
          now := known.now
          result := .error (.keyNotFound call.kid)
          fetched := known.fetched }
      if known.now - set.fetchedAt < settings.refetchCooldown then
        refused
      else
        let claimed := claimRefetch settings known.client known.now
        if claimed.2 then
          let again := keySetOf settings claimed.1.remove known.now call.ttl call.second
          { client := again.client
            now := again.now
            result := match again.result with
              | .ok set => KeySet.find set call.kid
              | .error error => .error (.shared error)
            fetched := again.fetched.or known.fetched }
        else
          refused

/-- Whether a call fetches the document again for an unknown key id. -/
def refetches (settings : OAuthSettings) (client : OAuthClient Kid Key ε)
    (call : KeyCall Kid Key ε) : Bool :=
  let known := keySetOf settings client call.now call.ttl call.first
  match known.result with
  | .error _ => false
  | .ok set =>
    (set.keys.lookup call.kid).isNone &&
      !decide (known.now - set.fetchedAt < settings.refetchCooldown) &&
      mayRefetch settings known.client known.now

end OAuthClient

/-- The client after some calls, the time, and the set that was fetched last. -/
structure KeyWorld (Kid : Type u) (Key : Type v) (ε : Type w) where
  client : OAuthClient Kid Key ε
  now : Nat
  latest : Option (Stored (KeySet Kid Key))

namespace KeyWorld

open OAuthClient

variable {Kid : Type u} {Key : Type v} {ε : Type w}

def start : KeyWorld Kid Key ε where
  client := OAuthClient.new
  now := 0
  latest := none

variable [DecidableEq Kid] (settings : OAuthSettings)

def step (world : KeyWorld Kid Key ε) (call : KeyCall Kid Key ε) : KeyWorld Kid Key ε :=
  let answer := getVerificationKey settings world.client call
  { client := answer.client
    now := answer.now
    latest := answer.fetched.or world.latest }

/-- Calls one after the other, each of which meets a condition. -/
inductive Reaches (Step : KeyWorld Kid Key ε → KeyCall Kid Key ε → Prop) :
    KeyWorld Kid Key ε → Prop
  | start : Reaches Step start
  | call {world : KeyWorld Kid Key ε} (call : KeyCall Kid Key ε) :
      Reaches Step world → world.now ≤ call.now → Step world call →
      Reaches Step (world.step settings call)

/-- Where the call refetches the document for an unknown key id, that fetch
succeeds. -/
def RefetchSucceeds (world : KeyWorld Kid Key ε) (call : KeyCall Kid Key ε) : Prop :=
  refetches settings world.client call = true → ∃ fetched, call.second.outcome = .ok fetched

/-- A key of the set that was fetched last is found as long as that set lives. -/
def FindsLatest (world : KeyWorld Kid Key ε) : Prop :=
  ∀ (call : KeyCall Kid Key ε) stored key, world.now ≤ call.now →
    world.latest = some stored → stored.isExpired call.now = false →
    stored.value.keys.lookup call.kid = some key →
    (getVerificationKey settings world.client call).result = .ok key

end KeyWorld

/-! ## The invariant -/

namespace OAuthClient

variable {Kid : Type u} {Key : Type v} {ε : Type w} {settings : OAuthSettings}

variable {now : Nat}

theorem isExpired_mono {set : Stored (KeySet Kid Key)} {later : Nat}
    (after : now ≤ later) (lives : set.isExpired later = false) :
    set.isExpired now = false := by
  cases stored : set.expireOn with
  | none => simp [Stored.isExpired, stored]
  | some expireOn =>
    simp only [Stored.isExpired, stored, Option.any_some, decide_eq_false_iff_not] at lives ⊢
    omega

/-- The cache has the set that was fetched last while it lives, and no failure is
remembered beside a living set. -/
structure Sound (client : OAuthClient Kid Key ε) (now : Nat)
    (latest : Option (Stored (KeySet Kid Key))) : Prop where
  held : ∀ stored, latest = some stored → stored.isExpired now = false → client.keySet = some stored
  quiet : ∀ stored failure, client.keySet = some stored →
    stored.isExpired now = false → client.failure = some failure →
    failure.expiresAt ≤ now

namespace Sound

variable {client : OAuthClient Kid Key ε} {now : Nat} {latest : Option (Stored (KeySet Kid Key))}

theorem later (sound : Sound client now latest) {after : Nat}
    (passes : now ≤ after) : Sound client after latest where
  held := by
    intro stored isLatest lives
    exact sound.held stored isLatest (isExpired_mono passes lives)
  quiet := by
    intro stored failure isStored lives isFailure
    have old := sound.quiet stored failure isStored (isExpired_mono passes lives) isFailure
    omega

end Sound

/-- The invariant after a part of a call, which may have fetched a set. -/
abbrev Keeps {ρ : Type x} (answer : KeyAnswer Kid Key ε ρ)
    (latest : Option (Stored (KeySet Kid Key))) : Prop :=
  Sound answer.client answer.now (answer.fetched.or latest)

theorem cacheTtl_pos (configured response : Option Nat) (default : Nat) :
    0 < cacheTtl configured response default := by
  simp only [cacheTtl, minCacheTtl, maxCacheTtl]
  omega

variable {client : OAuthClient Kid Key ε}

variable {ttl : Option Nat} {fetch : KeyFetch Kid Key ε}

/-- A fetch that succeeds stores its set, whatever the cache had. -/
theorem runFetch_ok {start : Nat} {document : KeyMap Kid Key × Option Nat}
    (succeeds : fetch.outcome = .ok document) (noFailure : client.failure = none)
    (latest : Option (Stored (KeySet Kid Key))) :
    Keeps (runFetch settings client start ttl fetch) latest := by
  have positive := cacheTtl_pos ttl document.2 settings.cacheTtl
  simp only [Keeps, runFetch, succeeds, put, Nat.ne_of_gt positive, if_false, Option.some_or]
  constructor
  · simp
  · simp_all

variable {latest : Option (Stored (KeySet Kid Key))}

/-- A fetch that fails takes nothing away that lives. -/
theorem Sound.runFetch_error {start : Nat} (sound : Sound client start latest)
    (missed : client.getValue start = none) {error : ε} (fails : fetch.outcome = .error error) :
    Keeps (runFetch settings client start ttl fetch) latest := by
  simp only [Keeps, runFetch, fails, Option.none_or]
  have later : start ≤ start + fetch.took := Nat.le_add_right _ _
  constructor
  · intro stored isLatest lives
    exact sound.held stored isLatest (isExpired_mono later lives)
  · intro stored failure isStored lives _
    have same : client.keySet = some stored := isStored
    simp [getValue, same, isExpired_mono later lives] at missed

theorem Sound.forget (sound : Sound client now latest) : Sound client.forget now latest where
  held := sound.held
  quiet := by
    intro stored failure _ _ isFailure
    cases isFailure

/-- Without a living set and a remembered failure, `key_set` fetches. -/
theorem keySetOf_eq_runFetch (missed : client.getValue now = none)
    (forgotten : ∀ failure, client.failure = some failure →
      failure.expiresAt ≤ now) (ttl : Option Nat) (fetch : KeyFetch Kid Key ε) :
    keySetOf settings client now ttl fetch = runFetch settings client.forget now ttl fetch := by
  cases remembered : client.failure with
  | none =>
    have same : client.forget = client := by rw [forget, ← remembered]
    simp only [keySetOf, missed, remembered, same]
  | some failure =>
    have old := forgotten failure remembered
    simp only [keySetOf, missed, remembered, gt_iff_lt, Nat.not_lt.mpr old, if_false]

variable {set : KeySet Kid Key}

theorem keySetOf_eq_hit (hit : client.getValue now = some set)
    (ttl : Option Nat) (fetch : KeyFetch Kid Key ε) :
    keySetOf settings client now ttl fetch =
      { client := client, now := now, result := .ok set, fetched := none } := by
  simp only [keySetOf, hit]

/-- What `key_set` does: it finds a set, remembers a failure, or fetches. -/
theorem keySetOf_cases (client : OAuthClient Kid Key ε) (now : Nat) (ttl : Option Nat)
    (fetch : KeyFetch Kid Key ε) :
    (∃ set, client.getValue now = some set ∧
        keySetOf settings client now ttl fetch = ⟨client, now, .ok set, none⟩) ∨
      client.getValue now = none ∧
        ((∃ error, keySetOf settings client now ttl fetch = ⟨client, now, .error error, none⟩) ∨
          keySetOf settings client now ttl fetch =
            runFetch settings client.forget now ttl fetch) := by
  cases found : client.getValue now with
  | some set => exact Or.inl ⟨set, rfl, keySetOf_eq_hit found ttl fetch⟩
  | none =>
    refine Or.inr ⟨rfl, ?_⟩
    by_cases forgotten : ∀ failure, client.failure = some failure → failure.expiresAt ≤ now
    · exact Or.inr (keySetOf_eq_runFetch found forgotten ttl fetch)
    · push Not at forgotten
      obtain ⟨failure, remembered, fresh⟩ := forgotten
      refine Or.inl ⟨failure.error, ?_⟩
      simp only [keySetOf, found, remembered, gt_iff_lt, fresh, if_true]

/-- `key_set` keeps the invariant, whatever the fetch does. -/
theorem Sound.keySetOf (sound : Sound client now latest)
    (ttl : Option Nat) (fetch : KeyFetch Kid Key ε) :
    Keeps (keySetOf settings client now ttl fetch) latest := by
  rcases keySetOf_cases client now ttl fetch with
    ⟨set, -, isHit⟩ | ⟨missed, ⟨error, isFailure⟩ | isFetch⟩
  · rw [isHit]
    exact sound
  · rw [isFailure]
    exact sound
  · rw [isFetch]
    cases outcome : fetch.outcome with
    | ok document => exact runFetch_ok outcome rfl latest
    | error error => exact sound.forget.runFetch_error missed outcome

/-- What `key_set` returns lives in the cache. -/
theorem keySetOf_ok (ok : (keySetOf settings client now ttl fetch).result = .ok set) :
    (keySetOf settings client now ttl fetch).client.getValue
      (keySetOf settings client now ttl fetch).now = some set := by
  rcases keySetOf_cases client now ttl fetch with
    ⟨cached, found, isHit⟩ | ⟨missed, ⟨error, isFailure⟩ | isFetch⟩
  · rw [isHit] at ok ⊢
    rw [← Except.ok.inj ok]
    exact found
  · rw [isFailure] at ok
    cases ok
  · rw [isFetch] at ok ⊢
    cases outcome : fetch.outcome with
    | ok document =>
      have positive := cacheTtl_pos ttl document.2 settings.cacheTtl
      simp only [runFetch, outcome, Except.ok.injEq] at ok
      simp [runFetch, outcome, put, getValue, Nat.ne_of_gt positive, Stored.isExpired, ok]
    | error error => simp [runFetch, outcome] at ok

theorem getValue_eq_some (found : client.getValue now = some set) :
    ∃ stored, client.keySet = some stored ∧ stored.isExpired now = false := by
  simp only [getValue, Option.bind_eq_some_iff] at found
  obtain ⟨stored, isStored, lives⟩ := found
  refine ⟨stored, isStored, ?_⟩
  by_contra expired
  simp [expired] at lives

end OAuthClient

namespace KeyWorld

open OAuthClient

variable {Kid : Type u} {Key : Type v} {ε : Type w} {settings : OAuthSettings}

def Sound (world : KeyWorld Kid Key ε) : Prop :=
  OAuthClient.Sound world.client world.now world.latest

theorem start_sound : (start : KeyWorld Kid Key ε).Sound := by
  constructor
  · intro stored isLatest
    cases isLatest
  · intro stored failure isStored
    cases isStored

variable [DecidableEq Kid]

variable {world : KeyWorld Kid Key ε}

theorem Sound.step (sound : world.Sound) {call : KeyCall Kid Key ε} (passes : world.now ≤ call.now)
    (succeeds : RefetchSucceeds settings world call) :
    (world.step settings call).Sound := by
  have knownSound :
      Keeps (keySetOf settings world.client call.now call.ttl call.first) world.latest :=
    (OAuthClient.Sound.later sound passes).keySetOf call.ttl call.first
  simp only [RefetchSucceeds, refetches] at succeeds
  simp only [Sound, KeyWorld.step, getVerificationKey]
  cases returned : (keySetOf settings world.client call.now call.ttl call.first).result with
  | error error => exact knownSound
  | ok set =>
    simp only [returned] at succeeds ⊢
    cases looked : set.keys.lookup call.kid with
    | some key => exact knownSound
    | none =>
      simp only [looked] at succeeds ⊢
      split
      next => exact knownSound
      next old =>
        cases may : mayRefetch settings
            (keySetOf settings world.client call.now call.ttl call.first).client
            (keySetOf settings world.client call.now call.ttl call.first).now with
        | false =>
          simp only [claimRefetch, may]
          exact knownSound
        | true =>
          obtain ⟨document, fetched⟩ := succeeds (by simp [old, may])
          simp only [claimRefetch, may, if_true, Option.or_assoc]
          -- the fetch that follows the removal of a living set is made
          obtain ⟨stored, isStored, lives⟩ := getValue_eq_some (keySetOf_ok returned)
          rw [keySetOf_eq_runFetch]
          · exact runFetch_ok fetched rfl _
          · rfl
          · exact fun failure => knownSound.quiet stored failure isStored lives

theorem Reaches.sound (reached : Reaches settings (RefetchSucceeds settings) world) :
    world.Sound := by
  induction reached with
  | start => exact start_sound
  | call call _ passes succeeds sound => exact sound.step passes succeeds

theorem Sound.findsLatest (sound : world.Sound) : FindsLatest settings world := by
  intro call stored key passes isLatest lives looked
  have held : world.client.keySet = some stored :=
    (OAuthClient.Sound.later sound passes).held stored isLatest lives
  have hit : world.client.getValue call.now = some stored.value := by simp [getValue, held, lives]
  simp only [getVerificationKey, keySetOf_eq_hit hit, looked]

/-- As long as every refetch for an unknown key id succeeds, a key of the set that
was fetched last is found until that set expires. -/
theorem known_keys_stay {world : KeyWorld Kid Key ε}
    (reached : Reaches settings (RefetchSucceeds settings) world) :
    FindsLatest settings world :=
  reached.sound.findsLatest

def document : KeyMap Nat Nat × Option Nat := (AList.singleton 1 100, none)

def firstLookup : KeyCall Nat Nat Unit where
  now := 0
  kid := 1
  ttl := none
  first := ⟨0, .ok document⟩
  second := ⟨0, .error ()⟩

def unknownLookup (outcome : Except Unit (KeyMap Nat Nat × Option Nat)) : KeyCall Nat Nat Unit where
  now := 31
  kid := 2
  ttl := none
  first := ⟨0, .error ()⟩
  second := ⟨0, outcome⟩

def defaultSettings : OAuthSettings where
  cacheTtl := 12 * 3600
  refetchCooldown := 30

/-- The refetch for key id 2 gives the same document, and key id 1 is found. -/
theorem known_keys_stay_after_refetch :
    FindsLatest defaultSettings
      ((start.step defaultSettings firstLookup).step defaultSettings
        (unknownLookup (.ok document))) := by
  apply known_keys_stay
  refine .call _ (.call _ .start (by decide) ?_) (by decide) ?_
  · intro refetch
    exact absurd refetch (by decide)
  · intro _
    exact ⟨_, rfl⟩

/-- The refetch for key id 2 fails, and the key id 1 is not found a second later,
although its set has hours to live. -/
theorem failed_refetch_loses_keys :
    ¬ ∀ world : KeyWorld Nat Nat Unit,
      Reaches defaultSettings (fun _ _ => True) world → FindsLatest defaultSettings world := by
  intro always
  have found := always
    ((start.step defaultSettings firstLookup).step defaultSettings (unknownLookup (.error ())))
    (.call _ (.call _ .start (by decide) trivial) (by decide) trivial)
    { firstLookup with now := 32 } ⟨⟨document.1, 0⟩, some (12 * 3600)⟩ 100 (by decide) rfl
    (by decide) (by decide)
  cases found

end KeyWorld

end Ophan.Auth
