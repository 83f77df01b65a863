import LoraLink.App.RtcmParser
import LoraLink.Host.Modem

/-!
# The base service

`BaseService` of `service.py` over any transport: what it calls of its transport is the class `Transport`, and
`ModemTransport` is an instance of it. `log` lists what the current call did, for the statements about runs: nothing
in the program reads it. The registry of metrics is shared in the source; the names of the service and those of the
transport are different, so each has its own here.
-/

namespace LoraLink.Service

open LoraLink.Application LoraLink.Rtcm LoraLink.Host Prog

/-- A transport, with what the outside answers during one step of the service as a value of `E`. -/
class Transport (T : Type) (E : outParam Type) where
  tick : E → Bool → Prog T Exn (List Bytes)
  takeTxOutcomes : Prog T Exn (List Outcome)
  sendAir : E → Bytes → Prog T Exn (Option Nat)
  session : T → Nat
  connected : T → Bool
  readyForSend : T → Bool

/-- `ModemTransport`: what is answered during `tick` and during `send_air`. -/
instance : Transport Modem (Io × Io) where
  tick io diagnosticsIdle := fun m => Modem.tick diagnosticsIdle (m.enter io.1)
  takeTxOutcomes := fun m => Modem.takeTxOutcomes (m.enter m.io)
  sendAir io payload := fun m => Modem.sendAir payload (m.enter io.2)
  session := Modem.session
  connected := Modem.connected
  readyForSend := Modem.readyForSend

/-- What escapes from a step. -/
inductive Failure
  | transport (e : Exn)
  | application (e : ApplicationError)
deriving DecidableEq, Repr

inductive Event
  | ingested (f : RtcmFrame)
  | overflowed
  | reset
  | settled (sequence : Nat) (completed : Option Bool)
  | unexpected (sequence : Nat)
  | session (s : Nat)
  | stale (f : RtcmFrame) (now : ℚ)
  | loaded (f : RtcmFrame) (fragments : List Frame) (now : ℚ)
  | unfragmentable (f : RtcmFrame)
  | expired (now : ℚ)
  | taken (fragment : Frame) (now : ℚ)
  | refused
  | sent (sequence : Nat) (payload : Bytes)
  | raised (e : Failure)
deriving DecidableEq

/-- The metrics of the service. -/
inductive Metric
  | rtcmInputBytes
  | rtcmFramesDroppedQueueFull
  | rtcmFramesIngested
  | rtcmType (type : Nat)
  | rtcmCrcFailures
  | rtcmFramesDroppedSourceReset
  | rtcmFragmentsDroppedSourceReset
  | rtcmInputBytesPerSecond
  | rtcmInputFramesPerSecond
  | loraApplicationBytesPerSecond
  | rtcmQueueDepth
  | rtcmFragmentQueueDepth
  | rtcmFragmentInFlight
  | rtcmOldestQueuedAgeMs
  | radioTxUnexpectedOutcomes
  | rtcmFragmentsTxCompleted
  | rtcmFragmentsTxFailed
  | rtcmFragmentsTxUncertain
  | appSenderSessionResets
  | rtcmFramesDroppedStale
  | rtcmFragmentFailures
  | rtcmFragmentsDroppedStale
  | rtcmFragmentsDroppedDisconnected
  | rtcmFragmentsUsbAccepted
  | loraBytesSent
deriving DecidableEq, Repr

structure BaseService (T : Type) where
  transport : T
  parser : RtcmStreamParser := {}
  queue : List RtcmFrame := []
  fragments : List (Frame × ℚ) := []
  inputRate : List (ℚ × Nat × Nat) := []
  loraRate : List (ℚ × Nat) := []
  inFlight : Option Nat := none
  session : Nat
  messageId : Nat := 0
  metrics : Metrics Metric := .empty
  log : List Event := []

namespace BaseService

variable {T E : Type}

def maxQueuedRtcmFrames : Nat := 128

/-- `int(x)`: the part before the point. -/
def truncate (x : ℚ) : Int := x.num.tdiv x.den

abbrev Op (T α : Type) : Type := Prog (BaseService T) Failure α

/-- A call of a method of the transport. -/
def ofTransport {α : Type} (x : Prog T Exn α) : Op T α := fun b =>
  match x b.transport with
  | (.ok a, t) => (.ok a, { b with transport := t })
  | (.error e, t) => (.error (.transport e), { b with transport := t })

/-- A call of a function that may raise `ApplicationError`. -/
def ofApplication {α : Type} (x : Except ApplicationError α) : Op T α := fun b =>
  match x with
  | .ok a => (.ok a, b)
  | .error e => (.error (.application e), b)

def note (e : Event) : Op T Unit := modify fun b => { b with log := b.log ++ [e] }

def add (name : Metric) (amount : Nat := 1) : Op T Unit := modify fun b => { b with metrics := b.metrics.add name amount }

def set (name : Metric) (value : Int) : Op T Unit := modify fun b => { b with metrics := b.metrics.set name value }

def idle (b : BaseService T) : Bool := b.queue.isEmpty && b.fragments.isEmpty && b.inFlight.isNone

/-- The entries of a rate that are younger than a second. -/
def recent {α : Type} (now : ℚ) (rate : List (ℚ × α)) : List (ℚ × α) := rate.dropWhile fun item => now - item.1 ≥ 1

def updateRates (now : ℚ) : Op T Unit := do
  modify fun b => { b with inputRate := recent now b.inputRate, loraRate := recent now b.loraRate }
  let b ← get
  set .rtcmInputBytesPerSecond (b.inputRate.map fun item => item.2.1).sum
  set .rtcmInputFramesPerSecond (b.inputRate.map fun item => item.2.2).sum
  set .loraApplicationBytesPerSecond (b.loraRate.map fun item => item.2).sum

/-- The age of the oldest of the times, zero if there is none. -/
def oldestAgeMs (now : ℚ) : List ℚ → Int
  | [] => 0
  | time :: times => truncate (1000 * (now - times.foldl min time))

def updateQueueMetrics (now : ℚ) : Op T Unit := do
  let b ← get
  let sourceTimes := (b.queue.head?.map RtcmFrame.receivedAt).toList ++ (b.fragments.head?.map Prod.snd).toList
  set .rtcmQueueDepth b.queue.length
  set .rtcmFragmentQueueDepth b.fragments.length
  set .rtcmFragmentInFlight (if b.inFlight.isSome then 1 else 0)
  set .rtcmOldestQueuedAgeMs (oldestAgeMs now sourceTimes)

/-! ## Ingress -/

/-- The oldest frame gives way. -/
def overflow : Op T Unit := do
  modify fun b => { b with queue := b.queue.drop 1, log := b.log ++ [.overflowed] }
  add .rtcmFramesDroppedQueueFull

/-- The loop of `ingest` over the frames. -/
def enqueue (f : RtcmFrame) : Op T Unit := do
  modify fun b => { b with queue := b.queue ++ [f], log := b.log ++ [.ingested f] }
  let b ← get
  when (b.queue.length > maxQueuedRtcmFrames) overflow
  add .rtcmFramesIngested
  add (.rtcmType f.messageType)

def ingest (chunk : Bytes) (now : ℚ) : Op T Nat := do
  let (parser, frames) := (← get).parser.feed chunk now
  modify fun b => { b with parser := parser, inputRate := b.inputRate ++ [(now, chunk.length, frames.length)] }
  add .rtcmInputBytes chunk.length
  forEach enqueue frames
  updateQueueMetrics now
  set .rtcmCrcFailures parser.stats.crcFailures
  updateRates now
  return frames.length

def resetSource : Op T Unit := do
  let b ← get
  modify fun b => { b with parser := b.parser.reset }
  when (b.queue ≠ []) (add .rtcmFramesDroppedSourceReset b.queue.length)
  when (b.fragments ≠ []) (add .rtcmFragmentsDroppedSourceReset b.fragments.length)
  modify fun b => { b with queue := [], fragments := [], log := b.log ++ [.reset] }

/-! ## One step -/

/-- The loop of `step` over the outcomes. -/
def settle (o : Outcome) : Op T Unit := do
  let b ← get
  if some o.1 ≠ b.inFlight then do
    note (.unexpected o.1)
    add .radioTxUnexpectedOutcomes
  else do
    modify fun b =>
      { b with
        inFlight := none, fragments := if o.2 = some true then b.fragments else []
        log := b.log ++ [.settled o.1 o.2] }
    match o.2 with
    | some true => add .rtcmFragmentsTxCompleted
    | some false => add .rtcmFragmentsTxFailed
    | none => add .rtcmFragmentsTxUncertain

variable [Transport T E]

def followSession : Op T Unit := do
  let b ← get
  let session := Transport.session b.transport
  when (session ≠ b.session) do
    modify fun b =>
      { b with session := session, messageId := 0, fragments := [], inFlight := none, log := b.log ++ [.session session] }
    add .appSenderSessionResets

/-- The loop of `step` over the queue. -/
def dropStale (now : ℚ) : List RtcmFrame → Op T Unit
  | [] => pure ()
  | f :: queue =>
    if now - f.receivedAt > 8 / 10 then do
      modify fun b => { b with queue := queue, log := b.log ++ [.stale f now] }
      add .rtcmFramesDroppedStale
      dropStale now queue
    else pure ()

def nextMessageId (messageId : Nat) : Nat := if messageId = 0xffffffff then 1 else messageId + 1

def load (now : ℚ) : Op T Unit := do
  let b ← get
  match b.fragments, b.queue with
  | [], f :: queue =>
    let messageId := nextMessageId b.messageId
    match fragment f.raw b.session messageId with
    | .error _ => do
      modify fun b => { b with queue := queue, messageId := messageId, log := b.log ++ [.unfragmentable f] }
      add .rtcmFragmentFailures
    | .ok fragments =>
      modify fun b =>
        { b with
          queue := queue, messageId := messageId, fragments := fragments.map fun fragment => (fragment, f.receivedAt)
          log := b.log ++ [.loaded f fragments now] }
  | _, _ => pure ()

/-- What follows `send_air`. -/
def sendAirResult (now : ℚ) (fragment : Frame × ℚ) (encoded : Bytes) : Option Nat → Op T Unit
  | none => do
    modify fun b => { b with fragments := fragment :: b.fragments, log := b.log ++ [.refused] }
    add .rtcmFragmentsDroppedDisconnected
  | some sequence => do
    modify fun b => { b with inFlight := some sequence, log := b.log ++ [.sent sequence encoded] }
    add .rtcmFragmentsUsbAccepted
    add .loraBytesSent encoded.length
    modify fun b => { b with loraRate := b.loraRate ++ [(now, encoded.length)] }

/-- `source_age_ms` of a fragment. -/
def ageMs (now : ℚ) (fragment : Frame × ℚ) : Int := truncate ((now - fragment.2) * 1000)

/-- The first fragment is sent, or all are too old. -/
def sendFirst (io : E) (now : ℚ) (fragment : Frame × ℚ) (rest : List (Frame × ℚ)) : Op T Unit :=
  let sourceAgeMs := ageMs now fragment
  if sourceAgeMs ≥ rtcmTransportTtlMs then do
    modify fun b => { b with fragments := [], log := b.log ++ [.expired now] }
    add .rtcmFragmentsDroppedStale
  else do
    modify fun b => { b with fragments := rest, log := b.log ++ [.taken fragment.1 now] }
    let encoded ← ofApplication (encode { fragment.1 with sourceAgeMs := sourceAgeMs })
    let sequence ← ofTransport (Transport.sendAir io encoded)
    sendAirResult now fragment encoded sequence

def send (io : E) (now : ℚ) : Op T Unit := do
  let b ← get
  match b.fragments with
  | [] => pure ()
  | fragment :: rest =>
    if b.inFlight = none ∧ Transport.readyForSend b.transport = true then sendFirst io now fragment rest else pure ()

def step (io : E) (now : ℚ) : Op T Unit := do
  let b ← get
  let _ ← ofTransport (Transport.tick io b.idle)
  let outcomes ← ofTransport Transport.takeTxOutcomes
  forEach settle outcomes
  followSession
  dropStale now (← get).queue
  if Transport.connected (← get).transport = false then updateQueueMetrics now
  else
    load now
    send io now
    updateRates now
    updateQueueMetrics now

/-! ## Start and steps -/

/-- `BaseService(config, transport, metrics)`. -/
def init (t : T) : BaseService T := { transport := t, session := Transport.session t }

end BaseService

/-- A call of a method of the service. -/
inductive Input (E : Type)
  | ingest (chunk : Bytes) (now : ℚ)
  | resetSource
  | step (io : E) (now : ℚ)

namespace BaseService

variable {T E : Type}

/-- A call that raises says so at the end of the log. -/
def call {α : Type} (x : Op T α) (b : BaseService T) : BaseService T :=
  match x { b with log := [] } with
  | (.ok _, b) => b
  | (.error e, b) => { b with log := b.log ++ [.raised e] }

/-- One call of a method. -/
def next [Transport T E] : Input E → BaseService T → BaseService T
  | .ingest chunk now => call (ingest chunk now)
  | .resetSource => call resetSource
  | .step io now => call (step io now)

end BaseService

end LoraLink.Service
