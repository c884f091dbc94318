import Mathlib.Data.List.TakeDrop
import Ophan.Http.Method

/-!
# Sending a request

`Client::execute` on a parked stream and on a fresh one.  What a stream does in an
exchange is an input: how many bytes it accepts before a write stops, how the flush
ends, what is parsed, and how much of what it accepted reaches the peer.
-/

namespace Ophan.Client

open Http

universe u

variable {ρ : Type u}

/-- `Method::is_safe` -/
def isSafe : Method → Bool
  | .get | .head | .options | .trace => true
  | _ => false

/-- `Method::is_idempotent` -/
def isIdempotent : Method → Bool
  | .put | .delete => true
  | method => isSafe method

/-- A step fails, or the timeout drops the exchange while the step is pending. -/
inductive Stop where
  | failed
  | dropped
  deriving DecidableEq, Repr

structure Stream (ρ : Type u) where
  room : Nat
  stop : Stop
  flush : Except Stop Unit
  parse : Except Stop ρ
  received : Nat

structure Request where
  method : Method
  headerBytes : Bytes
  body : Option Bytes
  poolable : Bool

def Request.wire (request : Request) : Bytes := request.headerBytes ++ request.body.getD []

/-- The bytes that reach the peer. -/
def Stream.delivered (stream : Stream ρ) (wire : Bytes) : Bytes :=
  (wire.take stream.room).take stream.received

/-- The room that is left behind the whole buffer. -/
def Stream.writeAll (stream : Stream ρ) (room : Nat) (buf : Bytes) : Except Stop Nat :=
  if buf.length ≤ room then .ok (room - buf.length) else .error stream.stop

def Stream.send (stream : Stream ρ) (request : Request) : Except Stop Unit :=
  match stream.writeAll stream.room request.headerBytes with
  | .error stop => .error stop
  | .ok room =>
    match request.body with
    | none => stream.flush
    | some body =>
      match stream.writeAll room body with
      | .error stop => .error stop
      | .ok _ => stream.flush

/-- The result of an exchange, and whether the whole request was written. -/
def drive (stream : Stream ρ) (request : Request) : Except Stop ρ × Bool :=
  match stream.send request with
  | .ok () => (stream.parse, true)
  | .error stop => (.error stop, false)

/-- The streams by what was delivered on them, and whether the last one is parked. -/
structure Exchange (ρ : Type u) where
  result : Except Stop ρ
  deliveries : List Bytes
  parked : Bool

section Execute

variable (reusable : ρ → Bool) (request : Request)

/-- One attempt on a new connection.  That the request has a key of the pool is part of
`poolable`. -/
def executeFresh (earlier : List Bytes) : Except Stop (Stream ρ) → Exchange ρ
  | .error stop => ⟨.error stop, earlier, false⟩
  | .ok stream =>
    let result := (drive stream request).1
    ⟨result, earlier ++ [stream.delivered request.wire],
      request.poolable && result.toOption.any reusable⟩

def executeParked (connect : Except Stop (Stream ρ)) (stream : Stream ρ) : Exchange ρ :=
  let delivered := stream.delivered request.wire
  match drive stream request with
  | (.ok parsed, _) => ⟨.ok parsed, [delivered], reusable parsed⟩
  | (.error .dropped, _) => ⟨.error .dropped, [delivered], false⟩
  | (.error .failed, sent) =>
    if sent && !isIdempotent request.method then ⟨.error .failed, [delivered], false⟩
    else executeFresh reusable request [delivered] connect

/-- `idle` is what `pop` gives for the origin of the request. -/
def execute (idle : Option (Stream ρ)) (connect : Except Stop (Stream ρ)) : Exchange ρ :=
  match request.poolable, idle with
  | true, some stream => executeParked reusable request connect stream
  | _, _ => executeFresh reusable request [] connect

end Execute

def Stream.Takes (stream : Stream ρ) (wire : Bytes) : Prop :=
  wire.length ≤ stream.room ∧ wire.length ≤ stream.received

/-- The flush fails on a parked stream whose peer has the whole request, and a fresh stream
takes it as well. -/
def LostFlush (request : Request) (idle : Option (Stream ρ))
    (connect : Except Stop (Stream ρ)) : Prop :=
  request.poolable = true ∧ ∃ parked ∈ idle, parked.flush = .error .failed ∧
    parked.Takes request.wire ∧ ∃ fresh, connect = .ok fresh ∧ fresh.Takes request.wire

variable {reusable : ρ → Bool} {request : Request} {idle : Option (Stream ρ)}
  {connect : Except Stop (Stream ρ)} {stream : Stream ρ}

theorem delivered_eq_iff {wire : Bytes} : stream.delivered wire = wire ↔ stream.Takes wire := by
  rw [Stream.delivered, List.take_take, List.take_eq_self_iff, Stream.Takes]
  omega

theorem count_fresh {earlier : List Bytes} (few : earlier.count request.wire ≤ 1) :
    (executeFresh reusable request earlier connect).deliveries.count request.wire ≤ 1 ↔
      ¬ (request.wire ∈ earlier ∧ ∃ fresh, connect = .ok fresh ∧ fresh.Takes request.wire) := by
  rw [← List.count_pos_iff]
  cases connect with
  | error stop => simpa [executeFresh] using few
  | ok fresh =>
    have delivered := @delivered_eq_iff _ fresh request.wire
    simp only [executeFresh, List.count_append, List.count_singleton, beq_iff_eq, delivered,
      Except.ok.injEq, exists_eq_left']
    split <;> grind

/-- A stream that took the whole request writes it, so that it is sent unless the flush stops. -/
theorem send_of_takes (takes : stream.Takes request.wire) : stream.send request = stream.flush := by
  have enough := takes.1
  rw [Request.wire, List.length_append] at enough
  have header : request.headerBytes.length ≤ stream.room := by omega
  cases isBody : request.body with
  | none => simp [Stream.send, Stream.writeAll, isBody, header]
  | some body =>
    rw [isBody, Option.getD_some] at enough
    have rest : body.length ≤ stream.room - request.headerBytes.length := by omega
    simp [Stream.send, Stream.writeAll, isBody, header, rest]

theorem count_parked (once : isIdempotent request.method = false) :
    (executeParked reusable request connect stream).deliveries.count request.wire ≤ 1 ↔
      ¬ (stream.flush = .error .failed ∧ stream.Takes request.wire ∧
        ∃ fresh, connect = .ok fresh ∧ fresh.Takes request.wire) := by
  have few : [stream.delivered request.wire].count request.wire ≤ 1 := List.count_le_length
  have count := @count_fresh _ reusable request connect _ few
  by_cases takes : stream.Takes request.wire
  · have delivered := delivered_eq_iff.mpr takes
    rw [executeParked, drive, send_of_takes takes]
    cases flush : stream.flush with
    | ok _ => grind
    | error stop => grind
  · have missed : request.wire ∉ [stream.delivered request.wire] := by
      simpa using mt (fun same => delivered_eq_iff.mp (Eq.symm same)) takes
    refine iff_of_true ?_ fun lost => takes lost.2.1
    rw [executeParked]
    split
    · exact few
    · exact few
    · grind

/-- A request that is not idempotent reaches at most one peer as a whole, exactly when no flush
fails on a parked stream whose peer has it already. -/
theorem delivered_at_most_once (once : isIdempotent request.method = false) :
    (execute reusable request idle connect).deliveries.count request.wire ≤ 1 ↔
      ¬ LostFlush request idle connect := by
  have count := @count_fresh _ reusable request connect [] (by simp)
  unfold LostFlush execute
  cases request.poolable with
  | false => simpa using count
  | true =>
    cases idle with
    | none => simpa using count
    | some parked => simpa using @count_parked _ reusable request connect parked once

section Post

def post : Request := ⟨.post, bytes "POST / HTTP/1.1\r\n\r\n", some (bytes "1"), true⟩

def flushed (flush : Except Stop Unit) : Stream Unit := ⟨100, .failed, flush, .error .failed, 100⟩

theorem delivered_at_most_once_post :
    (execute (fun _ => true) post (some (flushed (.ok ())))
        (.ok (flushed (.ok ())))).deliveries.count post.wire ≤ 1 := by
  refine (delivered_at_most_once rfl).mpr ?_
  rintro ⟨_, stream, isParked, lost, _⟩
  cases isParked
  cases lost

/-- The peers of both streams have the whole request. -/
theorem flush_failure_repeats :
    isIdempotent post.method = false ∧
      (execute (fun _ => true) post (some (flushed (.error .failed)))
        (.ok (flushed (.ok ())))).deliveries = [post.wire, post.wire] := by
  decide +kernel

end Post

end Ophan.Client
