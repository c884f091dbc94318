import Ophan.Auth.Dpop
import Ophan.Lib.Interleaving
import Ophan.Lib.KeyMap

/-!
# The record of accepted proofs

Validations that run at the same time over one `ReplayCache`.  A step is one access
to the clock, the sweep time or a shard of the map.  The clock is read before the
checks, and the record is made by that reading.
-/

namespace Ophan.Auth

universe u

variable {κ : Type u} {Jwk : Type}

def replaySweepIntervalSecs : Nat := 10

/-- The last second of a `SystemTime`, which holds them in 64 bits with a sign. -/
def lastSecond : Nat := 2 ^ 63 - 1

namespace Replay

structure Call where
  dpopProof : Bytes
  accessToken : Bytes
  cnf : CnfClaim
  ctx : DpopRequestContext
  deriving DecidableEq, Repr

structure Shared (κ : Type u) where
  clock : Nat
  /-- When the record of each key ends. -/
  seen : KeyMap κ Nat
  lastSweep : Nat
  deriving DecidableEq

/-- Where a validation is.  Behind the checks it has the proof and its reading of the
clock. -/
inductive Point (Jwk : Type) where
  | begin (call : Call)
  | checks (call : Call) (jwk : Jwk) (claims : DpopProofClaims) (now : Nat)
  /-- `len`, one shard after the other. -/
  | count (id : ProofId) (now : Nat) (left : List Nat) (sum : Nat)
  | loadSweep (id : ProofId) (now : Nat) (full : Bool)
  | swap (id : ProofId) (now : Nat) (full : Bool) (last : Nat)
  | retain (id : ProofId) (now : Nat) (full : Bool) (left : List Nat)
  | recount (id : ProofId) (now : Nat) (left : List Nat) (sum : Nat)
  | entry (id : ProofId) (now : Nat)
  | done (result : Except ProofError ProofId)
  deriving DecidableEq

inductive Input where
  | tick (time : Nat)
  | validate (call : Call)
  deriving DecidableEq

section Steps

variable (crypto : Crypto Jwk) (sharding : Sharding κ) (capacity : Nat)
  -- `ReplayCache::key`
  (keyOf : Bytes → Bytes → κ)

def start (shared : Shared κ) : Input → Option (Shared κ × List (Point Jwk))
  | .tick time =>
    if shared.clock ≤ time ∧ time ≤ lastSecond then some ({ shared with clock := time }, [])
    else none
  | .validate call => some (shared, [.begin call])

def shards : List Nat := List.range sharding.amount

def shardLen (seen : KeyMap κ Nat) (shard : Nat) : Nat :=
  (seen.keys.filter fun key => (sharding.shardOf key).val = shard).length

/-- `retain` in one shard. -/
def sweepShard (seen : KeyMap κ Nat) (now shard : Nat) : KeyMap κ Nat :=
  seen.retain fun key expires => (sharding.shardOf key).val ≠ shard || now < expires

/-- `insert` behind its sweep. -/
def swept (id : ProofId) (now : Nat) (full : Bool) : Point Jwk :=
  if full then .recount id now (shards sharding) 0 else .entry id now

def due (now last : Nat) (full : Bool) : Bool :=
  saturatingAdd last replaySweepIntervalSecs ≤ now || (full && last < now)

variable [DecidableEq κ]

def advance (shared : Shared κ) : Point Jwk → Option (Shared κ × Point Jwk)
  | .begin call =>
    match openProof crypto call.dpopProof with
    | .error error => some (shared, .done (.error error))
    | .ok (jwk, claims) => some (shared, .checks call jwk claims shared.clock)
  | .checks call jwk claims now =>
    match checkProof crypto jwk claims call.accessToken call.cnf call.ctx now with
    | .error error => some (shared, .done (.error error))
    | .ok id => some (shared, .count id now (shards sharding) 0)
  | .count id now (shard :: left) sum =>
    some (shared, .count id now left (sum + shardLen sharding shared.seen shard))
  | .count id now [] sum => some (shared, .loadSweep id now (capacity ≤ sum))
  | .loadSweep id now full =>
    if due now shared.lastSweep full then some (shared, .swap id now full shared.lastSweep)
    else some (shared, swept sharding id now full)
  | .swap id now full last =>
    if shared.lastSweep = last then
      some ({ shared with lastSweep := now }, .retain id now full (shards sharding))
    else some (shared, swept sharding id now full)
  | .retain id now full (shard :: left) =>
    some ({ shared with seen := sweepShard sharding shared.seen now shard },
      .retain id now full left)
  | .retain id now full [] => some (shared, swept sharding id now full)
  | .recount id now (shard :: left) sum =>
    some (shared, .recount id now left (sum + shardLen sharding shared.seen shard))
  | .recount id now [] sum =>
    if capacity ≤ sum then some (shared, .done (.error (.dpop .replayCacheFull)))
    else some (shared, .entry id now)
  | .entry id now =>
    match shared.seen.lookup (keyOf id.jkt id.jti) with
    | some expires =>
      if now < expires then some (shared, .done (.error (.dpop .replayed)))
      else
        some ({ shared with seen := shared.seen.insert (keyOf id.jkt id.jti) (expiresAt id.iat) },
          .done (.ok id))
    | none =>
      some ({ shared with seen := shared.seen.insert (keyOf id.jkt id.jti) (expiresAt id.iat) },
        .done (.ok id))
  | .done _ => none

def program : Program (Shared κ) (Point Jwk) Input Unit where
  start := start
  move shared point _ := advance crypto sharding capacity keyOf shared point

end Steps

def idle (κ : Type u) (Jwk : Type) (clock : Nat) : Pool (Shared κ) (Point Jwk) :=
  ⟨⟨clock, ∅, 0⟩, []⟩

def accepts (id : ProofId) : Point Jwk → Bool
  | .done (.ok other) => other = id
  | _ => false

/-! ## Validations under way -/

/-- The proof of a validation that has passed the checks, and its reading. -/
def Point.waits : Point Jwk → Option (ProofId × Nat)
  | .count id now _ _ => some (id, now)
  | .loadSweep id now _ => some (id, now)
  | .swap id now _ _ => some (id, now)
  | .retain id now _ _ => some (id, now)
  | .recount id now _ _ => some (id, now)
  | .entry id now => some (id, now)
  | _ => none

theorem waits_swept (sharding : Sharding κ) (proof : ProofId) (now : Nat) (full : Bool) :
    (swept sharding proof now full : Point Jwk).waits = some (proof, now) := by
  cases full <;> rfl

/-- When the record of the proof of a validation under way ends, and the reading. -/
def Point.reading : Point Jwk → Option (Nat × Nat)
  | .checks _ _ claims now => some (expiresAt claims.iat, now)
  | point => point.waits.map fun (id, now) => (expiresAt id.iat, now)

/-- A proof that had not expired when its validation read the clock has not expired at
`now` either. -/
def Point.OutlastedBy (point : Point Jwk) (now : Nat) : Prop :=
  ∀ reading ∈ point.reading, reading.2 < reading.1 → now < reading.1

instance (point : Point Jwk) (now : Nat) : Decidable (point.OutlastedBy now) :=
  inferInstanceAs (Decidable (∀ reading ∈ point.reading, reading.2 < reading.1 → now < reading.1))

/-- The reading by which a validation is about to sweep a shard. -/
def Point.sweepsAt : Point Jwk → Option Nat
  | .retain _ now _ _ => some now
  | _ => none

/-- A shard is swept only by a reading at which no proof has expired that a validation
under way found alive. -/
def Timely (pool : Pool (Shared κ) (Point Jwk)) (point : Point Jwk) (_ : Unit) : Prop :=
  ∀ now ∈ point.sweepsAt, ∀ other ∈ pool.calls, other.OutlastedBy now

instance (pool : Pool (Shared κ) (Point Jwk)) (point : Point Jwk) (choice : Unit) :
    Decidable (Timely pool point choice) :=
  inferInstanceAs (Decidable (∀ now ∈ point.sweepsAt, ∀ other ∈ pool.calls, other.OutlastedBy now))

theorem lt_expiresAt_of_isFresh {iat now : Nat} (fresh : isFresh iat now = true)
    (bounded : now ≤ lastSecond) : now < expiresAt iat := by
  have isMax : lastSecond < wordMax := by decide
  rw [isFresh, Bool.and_eq_true, decide_eq_true_eq, decide_eq_true_eq, maxProofAgeSecs] at fresh
  simp only [expiresAt, saturatingAdd, maxProofAgeSecs]
  omega

section Sound

variable (keyOf : Bytes → Bytes → κ) [DecidableEq κ] (id : ProofId)

def Kept (shared : Shared κ) : Prop :=
  ∃ expires, shared.seen.lookup (keyOf id.jkt id.jti) = some expires ∧ expiresAt id.iat ≤ expires

/-- The proof has expired for every validation under way and to come. -/
structure Over (pool : Pool (Shared κ) (Point Jwk)) : Prop where
  expired : expiresAt id.iat ≤ pool.shared.clock
  readings : ∀ call ∈ pool.calls, ∀ now,
    call.reading = some (expiresAt id.iat, now) → expiresAt id.iat ≤ now

structure Sound (pool : Pool (Shared κ) (Point Jwk)) : Prop where
  clock_le : pool.shared.clock ≤ lastSecond
  punctual : ∀ call ∈ pool.calls, ∀ expires now,
    call.reading = some (expires, now) → now ≤ pool.shared.clock
  fresh : ∀ call ∈ pool.calls, ∀ other now,
    call.waits = some (other, now) → now < expiresAt other.iat
  once : pool.calls.countP (accepts id) ≤ 1
  kept : (∃ call ∈ pool.calls, accepts id call = true) → Kept keyOf id pool.shared ∨ Over id pool

variable {keyOf id}

variable {shared shared' : Shared κ} {before after : List (Point Jwk)} {call call' : Point Jwk}

section

variable (sound : Sound keyOf id ⟨shared, before ++ call :: after⟩)
  (sameClock : shared'.clock = shared.clock)
  (isReading : ∀ expires now, call'.reading = some (expires, now) →
    call.reading = some (expires, now) ∨ now = shared.clock)
  (isFresh : ∀ other now, call'.waits = some (other, now) → now < expiresAt other.iat)

include sound sameClock isReading isFresh

/-- What a move leaves of the invariant, where the record of the proof stays. -/
theorem Sound.move (once : accepts id call' = true → ∀ other ∈ before ++ call :: after, accepts id other = false)
    (notAccepted : accepts id call = false)
    (kept : ((∃ other ∈ before ++ call :: after, accepts id other = true) ∨
        accepts id call' = true) →
      Kept keyOf id shared' ∨ Over id ⟨shared, before ++ call :: after⟩) :
    Sound keyOf id ⟨shared', before ++ call' :: after⟩ where
  clock_le := sameClock ▸ sound.clock_le
  punctual := by
    simp only [sameClock]
    refine forall_move sound.punctual fun expires now isReadingOf => ?_
    rcases isReading expires now isReadingOf with old | rfl
    · exact sound.punctual call mem_moving expires now old
    · exact le_refl _
  fresh := forall_move sound.fresh isFresh
  once := by
    have old := sound.once
    change (before ++ call :: after).countP (accepts id) ≤ 1 at old
    change (before ++ call' :: after).countP (accepts id) ≤ 1
    rw [countP_beside, notAccepted] at old
    rw [countP_beside]
    cases isAccepted : accepts id call' with
    | false => exact old
    | true => simp_all
  kept := by
    rintro ⟨other, isMem, isAccepted⟩
    have stays : Kept keyOf id shared' ∨ Over id ⟨shared, before ++ call :: after⟩ := by grind
    refine stays.imp (fun isKept => isKept) fun isOver => ⟨sameClock ▸ isOver.expired, ?_⟩
    refine forall_move isOver.readings fun now isReadingOf => ?_
    rcases isReading _ now isReadingOf with old | rfl
    · exact isOver.readings call mem_moving now old
    · exact isOver.expired

theorem Sound.quiet (sameSeen : shared'.seen = shared.seen) (notAccepted : accepts id call = false)
    (notAccepted' : accepts id call' = false) :
    Sound keyOf id ⟨shared', before ++ call' :: after⟩ := by
  refine sound.move sameClock isReading isFresh ?_ notAccepted ?_
  · simp_all
  · rintro (isAccepted | isAccepted)
    · refine (sound.kept isAccepted).imp ?_ fun isOver => isOver
      rintro ⟨expires, isSeen, isLe⟩
      exact ⟨expires, sameSeen ▸ isSeen, isLe⟩
    · simp [notAccepted'] at isAccepted

end

variable {proof : ProofId} {now : Nat}

theorem reading_of_waits {point : Point Jwk} (isWaiting : point.waits = some (proof, now)) :
    point.reading = some (expiresAt proof.iat, now) := by
  cases point <;> cases isWaiting <;> rfl

theorem not_accepts_of_reading {point : Point Jwk} {reading : Nat × Nat}
    (isReading : point.reading = some reading) : accepts id point = false := by
  cases point <;> first
    | rfl
    | cases isReading

section

variable (sound : Sound keyOf id ⟨shared, before ++ call :: after⟩)

include sound

theorem Sound.fail (notAccepted : accepts id call = false) (error : ProofError) :
    Sound keyOf id ⟨shared, before ++ .done (.error error) :: after⟩ :=
  sound.quiet rfl (fun _ _ isReading => nomatch isReading)
    (fun _ _ isWaiting => nomatch isWaiting) rfl notAccepted rfl

theorem Sound.goOn
    (sameClock : shared'.clock = shared.clock) (sameSeen : shared'.seen = shared.seen)
    (isWaiting : call.waits = some (proof, now)) (isWaiting' : call'.waits = some (proof, now)) :
    Sound keyOf id ⟨shared', before ++ call' :: after⟩ := by
  have isReading := reading_of_waits isWaiting
  have isReading' := reading_of_waits isWaiting'
  refine sound.quiet sameClock ?_ ?_ sameSeen (not_accepts_of_reading isReading)
    (not_accepts_of_reading isReading')
  · simp_all
  · intro other readAt isSome
    rw [isWaiting'] at isSome
    cases isSome
    exact sound.fresh call mem_moving proof now isWaiting

end

theorem Sound.sweep {sharding : Sharding κ} {full : Bool} {shard : Nat} {left : List Nat}
    (sound : Sound keyOf id ⟨shared, before ++ .retain proof now full (shard :: left) :: after⟩)
    (timely : ∀ other ∈ before ++ .retain proof now full (shard :: left) :: after,
      other.OutlastedBy now) :
    Sound keyOf id ⟨{ shared with seen := sweepShard sharding shared.seen now shard },
      before ++ .retain proof now full left :: after⟩ := by
  have isMem : Point.retain proof now full (shard :: left) ∈
      before ++ .retain proof now full (shard :: left) :: after := mem_moving
  refine sound.move rfl (fun expires readAt isSome => Or.inl isSome) ?_
    (fun isAccepted => nomatch isAccepted) rfl ?_
  · intro other readAt isSome
    exact sound.fresh _ isMem other readAt isSome
  · rintro (isAccepted | isAccepted)
    · rcases sound.kept isAccepted with ⟨expires, isSeen, isLe⟩ | isOver
      · by_cases isAlive : now < expires
        · refine Or.inl ⟨expires, ?_, isLe⟩
          rw [sweepShard, KeyMap.lookup_retain, isSeen]
          simp [isAlive]
        · -- the reading of the sweep is behind the end of the record
          have isOver : expiresAt id.iat ≤ now := isLe.trans (not_lt.mp isAlive)
          refine Or.inr ⟨isOver.trans (sound.punctual _ isMem _ now rfl), ?_⟩
          intro other isOther readAt isReading
          by_contra isEarly
          have outlasts := timely other isOther _ isReading (not_le.mp isEarly)
          exact absurd outlasts (not_lt.mpr isOver)
      · exact Or.inr isOver
    · cases isAccepted

theorem Sound.accept (sound : Sound keyOf id ⟨shared, before ++ .entry proof now :: after⟩)
    (unseen : ∀ expires, shared.seen.lookup (keyOf proof.jkt proof.jti) = some expires →
      expires ≤ now) :
    Sound keyOf id
      ⟨{ shared with
          seen := shared.seen.insert (keyOf proof.jkt proof.jti) (expiresAt proof.iat) },
        before ++ .done (.ok proof) :: after⟩ := by
  have isMem : Point.entry proof now ∈ before ++ .entry proof now :: after := mem_moving
  have isFresh : now < expiresAt proof.iat := sound.fresh _ isMem proof now rfl
  have notYet : proof = id →
      ¬ ∃ other ∈ before ++ .entry proof now :: after, accepts id other = true := by
    rintro rfl isAccepted
    rcases sound.kept isAccepted with ⟨expires, isSeen, isLe⟩ | isOver
    · grind
    · have isLate := isOver.readings _ isMem now rfl
      omega
  refine sound.move rfl (fun _ _ isSome => nomatch isSome) (fun _ _ isSome => nomatch isSome)
    ?_ rfl ?_
  · intro isAccepted other isOther
    rw [← Bool.not_eq_true]
    intro isBefore
    exact notYet (of_decide_eq_true isAccepted) ⟨other, isOther, isBefore⟩
  · intro isAccepted
    by_cases isProof : proof = id
    · left
      subst isProof
      exact ⟨expiresAt proof.iat, AList.lookup_insert _, le_refl _⟩
    · rcases isAccepted with isAccepted | isAccepted
      · rcases sound.kept isAccepted with ⟨expires, isSeen, isLe⟩ | isOver
        · left
          by_cases isKey : keyOf id.jkt id.jti = keyOf proof.jkt proof.jti
          · have isLate : expires ≤ now := unseen expires (isKey ▸ isSeen)
            refine ⟨expiresAt proof.iat, ?_, by omega⟩
            rw [isKey]
            exact AList.lookup_insert _
          · exact ⟨expires, (AList.lookup_insert_ne isKey).trans isSeen, isLe⟩
        · exact Or.inr isOver
      · exact absurd (of_decide_eq_true isAccepted) isProof

variable {crypto : Crypto Jwk} {sharding : Sharding κ} {capacity : Nat}

theorem Sound.advance (sound : Sound keyOf id ⟨shared, before ++ call :: after⟩)
    (timely : ∀ now ∈ call.sweepsAt, ∀ other ∈ before ++ call :: after, other.OutlastedBy now)
    (moves : Replay.advance crypto sharding capacity keyOf shared call = some (shared', call')) :
    Sound keyOf id ⟨shared', before ++ call' :: after⟩ := by
  revert moves
  fun_cases Replay.advance crypto sharding capacity keyOf shared call <;> intro moves <;>
    cases moves
  case case1 | case3 | case14 | case16 => exact sound.fail rfl _
  case case2 =>
    refine sound.quiet rfl ?_ (fun _ _ isSome => nomatch isSome) rfl rfl rfl
    intro expires now isSome
    cases isSome
    exact Or.inr rfl
  case case4 now _ isChecked =>
    obtain ⟨checked, rfl⟩ := checkProof_eq_ok_iff.mp isChecked
    refine sound.quiet rfl (fun _ _ isSome => Or.inl isSome) ?_ rfl rfl rfl
    intro other readAt isSome
    cases isSome
    have isPast := sound.punctual _ mem_moving _ now rfl
    exact lt_expiresAt_of_isFresh checked.fresh (isPast.trans sound.clock_le)
  case case5 | case6 | case7 | case9 | case13 | case15 => exact sound.goOn rfl rfl rfl rfl
  case case8 | case10 | case12 => exact sound.goOn rfl rfl rfl (waits_swept ..)
  case case11 => exact sound.sweep (timely _ rfl)
  case case17 isSeen isOver =>
    refine sound.accept fun other isOther => ?_
    rw [isSeen] at isOther
    cases isOther
    exact not_lt.mp isOver
  case case18 isUnseen =>
    refine sound.accept fun other isOther => ?_
    simp [isUnseen] at isOther

theorem Sound.start {calls started : List (Point Jwk)} {input : Input}
    (sound : Sound keyOf id ⟨shared, calls⟩)
    (starts : Replay.start shared input = some (shared', started)) :
    Sound keyOf id ⟨shared', calls ++ started⟩ := by
  cases input with
  | tick time =>
    obtain ⟨⟨isLater, isSecond⟩, isNext⟩ := Option.ite_none_right_eq_some.mp starts
    cases isNext
    rw [List.append_nil]
    refine ⟨isSecond, ?_, sound.fresh, sound.once, ?_⟩
    · intro call isMem expires now isReading
      exact (sound.punctual call isMem expires now isReading).trans isLater
    · intro isAccepted
      exact (sound.kept isAccepted).imp (fun isKept => isKept) fun isOver =>
        ⟨isOver.expired.trans isLater, isOver.readings⟩
  | validate call =>
    cases starts
    have joined {holds : Point Jwk → Prop} (all : ∀ point ∈ calls, holds point)
        (new : holds (.begin call)) : ∀ point ∈ calls ++ [.begin call], holds point :=
      List.forall_mem_append.mpr ⟨all, List.forall_mem_singleton.mpr new⟩
    refine ⟨sound.clock_le, joined sound.punctual nofun, joined sound.fresh nofun, ?_, ?_⟩
    · change (calls ++ [Point.begin call]).countP (accepts id) ≤ 1
      rw [List.countP_append]
      exact sound.once
    · rintro ⟨point, isMem, isAccepted⟩
      have old : point ∈ calls := by
        rcases List.mem_append.mp isMem with old | isNew
        · exact old
        · cases List.mem_singleton.mp isNew
          cases isAccepted
      exact (sound.kept ⟨point, old, isAccepted⟩).imp (fun isKept => isKept) fun isOver =>
        ⟨isOver.expired, joined isOver.readings nofun⟩

theorem sound_idle {clock : Nat} (bounded : clock ≤ lastSecond) :
    Sound keyOf id (idle κ Jwk clock) where
  clock_le := bounded
  punctual := by simp [idle]
  fresh := by simp [idle]
  once := by simp [idle]
  kept := by simp [idle]

/-- However the validations are interleaved, a proof is accepted once at most, if no
sweep removes a record by a reading that is behind the end of a proof which another
validation has found alive. -/
theorem proof_accepted_once {clock : Nat} (bounded : clock ≤ lastSecond)
    {pool : Pool (Shared κ) (Point Jwk)}
    (run : (program crypto sharding capacity keyOf).Run Timely (idle κ Jwk clock) pool)
    (id : ProofId) : pool.calls.countP (accepts id) ≤ 1 := by
  have sound : Sound keyOf id pool := by
    refine run.invariant ?_ (sound_idle bounded)
    intro pool pool' sound step
    cases step with
    | start starts => exact sound.start starts
    | move guarded moves => exact sound.advance guarded moves
  exact sound.once

end Sound

/-! ## Runs -/

section Example

/-- Proofs of one key whose text is their issue time and identifier. -/
def plainCrypto : Crypto Unit where
  decodeHeader _ := .ok ⟨some (bytes "dpop+jwt"), .es256, some ()⟩
  decode text _ _ := .ok
    { jti := text.take 1, htm := bytes "GET", htu := bytes "https://a.example/",
      iat := 1000 * (text.getD 1 0).toNat, ath := [], nonce := none }
  thumbprint _ := .ok (bytes "k")
  sha256 _ := []
  base64 := id

def plainKey (jkt jti : Bytes) : Bytes := jkt ++ 0 :: jti

/-- The validation of a proof that carries its identifier and its issue time, in
thousands of seconds. -/
def plainCall (jti iat : UInt8) : Call where
  dpopProof := [jti, iat]
  accessToken := bytes "t"
  cnf := ⟨bytes "k"⟩
  ctx :=
    { method := bytes "GET", scheme := bytes "https", authority := bytes "a.example",
      path := bytes "/", nonce := none, dpopProof := some [jti, iat] }

def plainId : ProofId := ⟨bytes "k", [1], 1000⟩

abbrev plainProgram : Program (Shared Bytes) (Point Unit) Input Unit :=
  program plainCrypto (Sharding.single _) 4 plainKey

def steps (amount index : Nat) : List (Program.Command Input Unit) :=
  List.replicate amount (.move index ())

/-- A proof is validated, and once more before it expires. -/
def repeated : List (Program.Command Input Unit) :=
  .start (.validate (plainCall 1 1)) :: steps 9 0 ++
    .start (.tick 1300) :: .start (.validate (plainCall 1 1)) :: steps 9 1

theorem proof_accepted_once_repeated :
    ∃ pool, plainProgram.Run Timely (idle Bytes Unit 1000) pool ∧
      pool.calls = [.done (.ok plainId), .done (.error (.dpop .replayed))] ∧
      ∀ id, pool.calls.countP (accepts id) ≤ 1 :=
  ⟨(plainProgram.play Timely (idle Bytes Unit 1000) repeated).get (by decide +kernel),
    Program.run_of_play _ (Option.some_get _).symm, by decide +kernel,
    proof_accepted_once (by decide) (Program.run_of_play _ (Option.some_get _).symm)⟩

/-- The second validation reads the clock while the proof is alive, and another one
sweeps the record before it comes to the entry. -/
def overtaken : List (Program.Command Input Unit) :=
  .start (.validate (plainCall 1 1)) :: steps 9 0 ++
    .start (.tick 1300) :: .start (.validate (plainCall 1 1)) :: steps 8 1 ++
      .start (.tick 2000) :: .start (.validate (plainCall 2 2)) :: steps 9 2 ++ steps 1 1

theorem swept_proof_is_accepted_twice :
    ∃ pool, plainProgram.Run (fun _ _ _ => True) (idle Bytes Unit 1000) pool ∧
      pool.calls.countP (accepts plainId) = 2 :=
  ⟨(plainProgram.play (fun _ _ _ => True) (idle Bytes Unit 1000) overtaken).get (by decide +kernel),
    Program.run_of_play _ (Option.some_get _).symm, by decide +kernel⟩

end Example

end Replay

end Ophan.Auth
