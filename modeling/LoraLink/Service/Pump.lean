import LoraLink.Lib.Run
import LoraLink.Service.Base

/-!
# The input pump and the loop of the base

`_InputPump` and `_run_base` of `service.py`: two threads, a queue of 64 items and a lock. A step of a thread is one
operation on the queue or one section under the lock, with what the thread does by itself before it; which thread goes
next is an input, and so is what the outside answers: whether the flag `stopped` is set when it is read, what opening
and reading the source returns, and what the transport meets. `log` lists what the last step did, for the statements
about runs: nothing in the program reads it.
-/

namespace LoraLink.Service

open LoraLink.Application LoraLink.Rtcm LoraLink.Host

/-- `rtcm.input.type`. -/
inductive SourceType
  | stdin
  | tcp
  | serial
deriving DecidableEq, Repr

/-- `_InputChunk`, `_InputSessionStarted`, an exception and `None`. -/
inductive Item
  | chunk (raw : Bytes) (receivedAt : ℚ) (generation : Nat)
  | started (generation : Nat)
  | failed
  | done
deriving DecidableEq, Repr

/-- What is put into the queue once it has been emptied. -/
inductive Retained
  | marker (generation : Nat)
  | chunk (raw : Bytes) (receivedAt : ℚ) (generation : Nat)
deriving DecidableEq, Repr

/-- Where the thread of `_read` stands, with its local variables. -/
inductive Producer
  /-- Ahead of `_open_input_source`. -/
  | opening
  /-- In `_start_input_session`, ahead of `_next_generation`. -/
  | starting
  /-- In the loop of `_discard_queued_input`, with what it has dropped. -/
  | discarding (retained : Retained) (chunks bytes : Nat)
  /-- In the loop of `_put`. -/
  | putting (item : Item)
  /-- Ahead of `read`. -/
  | reading
  /-- A chunk has been read. -/
  | received (raw : Bytes) (receivedAt : ℚ)
  /-- In `_put_fresh`, ahead of `current_generation`. -/
  | fresh (raw : Bytes) (receivedAt : ℚ)
  /-- Ahead of the first `put_nowait`. -/
  | offering (raw : Bytes) (receivedAt : ℚ) (generation : Nat)
  /-- The queue was full. -/
  | overflowed (raw : Bytes) (receivedAt : ℚ)
  /-- Ahead of `put_nowait` of the marker. -/
  | marking (raw : Bytes) (receivedAt : ℚ) (generation : Nat)
  /-- Ahead of `put_nowait` of the chunk that is retained. -/
  | retaining (raw : Bytes) (receivedAt : ℚ) (generation : Nat)
  /-- The source is closed. -/
  | leaving
  | finished
deriving DecidableEq, Repr

/-- Where the thread of `_run_base` stands; the item in hand is `none` if the queue was empty. -/
inductive Consumer
  | starting
  | getting
  | holding (item : Option Item)
  | ticking
  | ended
deriving DecidableEq, Repr

/-- The metrics of the two threads. -/
inductive PumpMetric
  | rtcmSourceConnected
  | rtcmSourceLastDataAgeMs
  | rtcmSourceConnects
  | rtcmSourceReconnects
  | rtcmSourceDisconnects
  | rtcmSourceReadFailures
  | rtcmSourceConnectFailures
  | rtcmSourceHandoffChunksDropped
  | rtcmSourceHandoffBytesDropped
  | rtcmSourceHandoffResets
  | rtcmSourceHandoffMarkersSuperseded
  | rtcmSourceHandoffChunksSuperseded
  | rtcmSourceHandoffBytesSuperseded
  | rtcmSourceParserResets
deriving DecidableEq, Repr

inductive PumpEvent
  | opened
  | read (session : Nat) (raw : Bytes)
  | reset
  | fed (generation : Nat) (raw : Bytes)
  | served (e : Event)
deriving DecidableEq

structure Pump (T : Type) where
  typ : SourceType
  queue : List Item := []
  generation : Nat := 0
  connected : Bool := false
  lastDataAt : Option ℚ := none
  producer : Producer := .opening
  /-- `had_connection`. -/
  hadConnection : Bool := false
  /-- How many sources have been opened. -/
  sessions : Nat := 0
  consumer : Consumer := .starting
  activeGeneration : Nat := 0
  sourceDone : Bool := false
  service : BaseService T
  metrics : Metrics PumpMetric
  log : List PumpEvent := []

/-- What opening or reading a source may raise: `TimeoutError`, another `OSError` or `RuntimeError`, `ValueError`. -/
inductive SourceError
  | timeout
  | unavailable
  | invalid
deriving DecidableEq, Repr

/-- What the producer is answered in one step: the flag `stopped`, `_open_input_source`, and `read` with the time. -/
structure Answer where
  stopped : Bool := false
  opened : Option SourceError := none
  read : Except SourceError (Bytes × ℚ) := .error .timeout

namespace Pump

variable {T E : Type}

/-- `Queue(maxsize=64)`. -/
def maxsize : Nat := 64

def add (name : PumpMetric) (amount : Nat) (p : Pump T) : Pump T := { p with metrics := p.metrics.add name amount }

def set (name : PumpMetric) (value : Int) (p : Pump T) : Pump T := { p with metrics := p.metrics.set name value }

def note (e : PumpEvent) (p : Pump T) : Pump T := { p with log := p.log ++ [e] }

/-! ## The producer -/

/-- The end of `_read` for one source: its metrics. -/
def close (p : Pump T) : Pump T :=
  let p := if p.connected then p.add .rtcmSourceDisconnects 1 else p
  { p with connected := false }.set .rtcmSourceConnected 0

/-- An answer of `_open_input_source`. -/
def opened (answer : Option SourceError) (p : Pump T) : Pump T :=
  match answer with
  | none =>
    let p := { p with connected := true, sessions := p.sessions + 1 }.set .rtcmSourceConnected 1
    let p := p.add .rtcmSourceConnects 1
    let p := if p.hadConnection then p.add .rtcmSourceReconnects 1 else p
    { p with hadConnection := true, producer := .starting }.note .opened
  | some .invalid => { p with producer := .putting .failed }
  | some .timeout | some .unavailable => { (p.add .rtcmSourceConnectFailures 1).close with producer := .leaving }

/-- An answer of `read`. -/
def reads (answer : Except SourceError (Bytes × ℚ)) (p : Pump T) : Pump T :=
  match answer with
  | .error .timeout => p
  | .error .unavailable => { (p.add .rtcmSourceReadFailures 1).close with producer := .leaving }
  | .error .invalid => { p with producer := .putting .failed }
  | .ok (raw, receivedAt) =>
    if raw = [] then if p.typ = .serial then p else { p.close with producer := .leaving }
    else { p with producer := .received raw receivedAt }.note (.read p.sessions raw)

/-- One pass of the loop of `_discard_queued_input`, and what follows it. -/
def discard (retained : Retained) (chunks bytes : Nat) (p : Pump T) : Pump T :=
  match p.queue with
  | .chunk raw _ _ :: queue =>
    { p with queue := queue, producer := .discarding retained (chunks + 1) (bytes + raw.length) }
  | _ :: queue => { p with queue := queue, producer := .discarding retained chunks bytes }
  | [] =>
    let p :=
      if chunks > 0 then (p.add .rtcmSourceHandoffChunksDropped chunks).add .rtcmSourceHandoffBytesDropped bytes else p
    match retained with
    | .marker generation =>
      let p := if chunks > 0 then p.add .rtcmSourceHandoffResets 1 else p
      { p with producer := .putting (.started generation) }
    | .chunk raw receivedAt generation =>
      { p.add .rtcmSourceHandoffResets 1 with producer := .marking raw receivedAt generation }

/-- `put_nowait`: what follows if the queue has room, and what follows if it is full. -/
def putNowait (item : Item) (next full : Pump T → Pump T) (p : Pump T) : Pump T :=
  if p.queue.length < maxsize then next { p with queue := p.queue ++ [item] } else full p

/-- What escapes from `_read` ends the thread. -/
def die (p : Pump T) : Pump T := { p.close with producer := .finished }

/-- What follows `_put`. -/
def afterPut (item : Item) (done : Bool) (p : Pump T) : Pump T :=
  match item with
  | .started _ => if done then { p with producer := .reading } else p.die
  | .failed => p.die
  | .done | .chunk _ _ _ => { p with producer := .finished }

/-- One step of the producer. -/
def produce (answer : Answer) (p : Pump T) : Pump T :=
  match p.producer with
  | .opening => if answer.stopped then { p with producer := .putting .done } else p.opened answer.opened
  | .starting =>
    { p with generation := p.generation + 1, producer := .discarding (.marker (p.generation + 1)) 0 0 }
  | .discarding retained chunks bytes => p.discard retained chunks bytes
  | .putting item => if answer.stopped then p.afterPut item false else p.putNowait item (afterPut item true) id
  | .reading => if answer.stopped then { p.close with producer := .leaving } else p.reads answer.read
  | .received raw receivedAt =>
    if answer.stopped then p.die else { p with lastDataAt := some receivedAt, producer := .fresh raw receivedAt }
  | .fresh raw receivedAt => { p with producer := .offering raw receivedAt p.generation }
  | .offering raw receivedAt generation =>
    p.putNowait (.chunk raw receivedAt generation) (fun p => { p with producer := .reading })
      fun p => { p with producer := .overflowed raw receivedAt }
  | .overflowed raw receivedAt =>
    { p with generation := p.generation + 1, producer := .discarding (.chunk raw receivedAt (p.generation + 1)) 0 0 }
  | .marking raw receivedAt generation =>
    p.putNowait (.started generation) (fun p => { p with producer := .retaining raw receivedAt generation }) die
  | .retaining raw receivedAt generation =>
    p.putNowait (.chunk raw receivedAt generation) (fun p => { p with producer := .reading }) die
  | .leaving =>
    if p.typ = .stdin then { p with producer := .putting .done }
    else { p with producer := if answer.stopped then .finished else .opening }
  | .finished => p

/-! ## The consumer -/

/-- A call of the service, with what it logs. -/
def serve [Transport T E] (i : Input E) (p : Pump T) : Pump T :=
  { p with service := BaseService.next i p.service, log := p.log ++ (BaseService.next i p.service).log.map .served }

/-- Something has escaped from the last call of the service. -/
def escaped (b : BaseService T) : Bool := b.log.any fun
  | .raised _ => true
  | _ => false

/-- The parser follows the generation. -/
def follow [Transport T E] (p : Pump T) : Pump T :=
  if p.generation ≠ p.activeGeneration then
    ({ p with activeGeneration := p.generation }.note .reset |>.serve (.resetSource : Input E)).add
      .rtcmSourceParserResets 1
  else p

/-- The item in hand is ingested if it is of the current generation. -/
def hand [Transport T E] (item : Option Item) (p : Pump T) : Pump T :=
  match item with
  | some (.started generation) =>
    if generation ≠ p.generation then p.add .rtcmSourceHandoffMarkersSuperseded 1 else p
  | some (.chunk raw receivedAt generation) =>
    if generation ≠ p.generation then
      (p.add .rtcmSourceHandoffChunksSuperseded 1).add .rtcmSourceHandoffBytesSuperseded raw.length
    else p.note (.fed generation raw) |>.serve (.ingest raw receivedAt : Input E)
  | _ => p

/-- The section of the loop under `generation_guard`. -/
def guarded [Transport T E] (item : Option Item) (io : E) (now : ℚ) (p : Pump T) : Pump T :=
  let p := (p.follow.hand item).serve (.step io now)
  { p with consumer := if escaped p.service then .ended else .ticking }

/-- `queue.get`; an exception in the queue ends the loop. -/
def get (p : Pump T) : Pump T :=
  match p.queue with
  | [] => { p with consumer := .holding none }
  | .failed :: queue => { p with queue := queue, consumer := .ended }
  | .done :: queue => { p with queue := queue, sourceDone := true, consumer := .holding (some .done) }
  | item :: queue => { p with queue := queue, consumer := .holding (some item) }

/-- `tick_metrics`, and the end of the loop when the input has ended. -/
def tick (now : ℚ) (p : Pump T) : Pump T :=
  let age := match p.lastDataAt with
    | none => -1
    | some time => max 0 (BaseService.truncate ((now - time) * 1000))
  let ended := p.sourceDone ∧ p.typ = .stdin ∧ p.service.idle
  { p.set .rtcmSourceLastDataAgeMs age with consumer := if ended then .ended else .getting }

/-- One step of the consumer. -/
def consume [Transport T E] (stopped : Bool) (io : E) (now : ℚ) (p : Pump T) : Pump T :=
  match p.consumer with
  | .starting => { p with activeGeneration := p.generation, consumer := .getting }
  | .getting => if stopped then { p with consumer := .ended } else p.get
  | .holding item => p.guarded item io now
  | .ticking => p.tick now
  | .ended => p

/-! ## Start and steps -/

/-- `_InputPump(config, stopped, metrics)` and a new service. -/
def init [Transport T E] (typ : SourceType) (t : T) : Pump T :=
  { typ := typ, service := BaseService.init t
    metrics := (Metrics.empty.set .rtcmSourceConnected 0).set .rtcmSourceLastDataAgeMs (-1) }

end Pump

/-- Which thread goes next, and what it is answered. -/
inductive PumpInput (E : Type)
  | produce (answer : Answer)
  | consume (stopped : Bool) (io : E) (now : ℚ)

/-- One step of one thread. -/
def Pump.next {T E : Type} [Transport T E] (i : PumpInput E) (p : Pump T) : Pump T :=
  match i with
  | .produce answer => ({ p with log := [] } : Pump T).produce answer
  | .consume stopped io now => ({ p with log := [] } : Pump T).consume stopped io now

end LoraLink.Service
