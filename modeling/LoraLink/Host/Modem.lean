import LoraLink.Host.Metrics
import LoraLink.Lib.Dict
import LoraLink.Lib.Prog
import LoraLink.Usb.Protocol
import Mathlib.Algebra.Order.Field.Rat

/-!
# The host transport

`ModemTransport` of `modem.py` is the record `Modem`, and its methods are programs over it. What the serial port, the
clock and the random numbers answer during one call is a field of type `Io`; a port that has no more answers to
writes raises `OSError`. `log` lists what the current call did, for the statements about runs: nothing in the program
reads it. Whether `serial.close` raises makes no difference to the state, so it is not modelled.
-/

namespace LoraLink.Host

open LoraLink.Protocol

inductive Exn
  | osError
  | runtimeError
  | protocolError
deriving DecidableEq, Repr

/-- What one `serial.write` does: it takes the first `n` bytes and returns `n`, or takes them and raises. -/
inductive WriteRes
  | wrote (n : Nat)
  | raised (n : Nat)
deriving DecidableEq, Repr

/-- What the outside answers during one call. -/
structure Io where
  /-- The serial factory returns a port. -/
  opens : Bool := true
  /-- The bytes `serial.read` returns, unless it raises. -/
  read : Option Bytes := some []
  writes : List WriteRes := []
  /-- The readings of `time.monotonic`, one after the other. -/
  clock : Nat → ℚ := fun _ => 0
  /-- The random numbers, one after the other. -/
  draws : Nat → Nat := fun _ => 0

/-- The requests waiting for a response: sequence, type and time. -/
abbrev Table : Type := List (Nat × Nat × ℚ)

/-- An outcome of a send: completed, failed, or unknown. -/
abbrev Outcome : Type := Nat × Option Bool

inductive Event
  | opened
  | session (s : Nat)
  | lost
  | wrote (bs : Bytes)
  | request (typ session sequence : Nat) (payload : Bytes) (table : Table)
  | unencodable (sequence : Nat) (payload : Bytes)
  | accepted (typ sequence : Nat) (started : ℚ)
  | frame (f : Frame)
  | deadline (now : ℚ)
  | received (payloads : List Bytes)
  | took (outcomes : List Outcome)
  | sent (sequence : Nat)
  | refused
  | raised (e : Exn)

/-- The metrics of the transport. -/
inductive Metric
  | modemConnected
  | modemHandshakeComplete
  | modemReadyForSend
  | modemRadioReady
  | modemBootId
  | usbReconnects
  | usbConnectFailures
  | radioSendDisconnectUncertain
  | usbBytesWritten
  | usbWriteFailures
  | usbSessionRotationsSequenceWrap
  | usbSendRequests
  | usbSendAccepted
  | radioSendDisconnected
  | radioSendSessionRotated
  | applicationFramesGenerated
  | loraBytesQueued
  | radioSendUsbWriteFailures
  | usbReadFailures
  | hostUsbBytesReceived
  | hostUsbFramesReceived
  | usbWrongSession
  | usbUnexpectedInfo
  | helloInvalidInfo
  | radioTxLateResultDecodeFailures
  | radioTxLateCompleted
  | usbUnexpectedRadioTxResult
  | radioTxResultDecodeFailures
  | radioTxCompleted
  | radioRxReceived
  | rxEventQueued
  | applicationFramesDecoded
  | radioRxDecodeFailures
  | usbUnexpectedDiagnostics
  | radioSendTimeouts
  | usbResponseTimeouts
  | helloTimeouts
  | radioTxTimeoutTombstonesEvicted
  | radioTxTimeoutTombstonesExpired
  | radioTxLateErrorDecodeFailures
  | radioTxLateErrors
  | radioTxLateErrorTypeMismatch
  | usbUnexpectedError
  | modemErrorDecodeFailures
  | modemErrorTypeMismatch
  | modemErrors
  | helloErrors
  | modemWrongSessionRecoveries
  | usbSessionResetWriteFailures
  | infoDecodeFailures
  | modemBootIdChanges
  | diagnosticsDecodeFailures
  | modemUsbFrames
  | modemUsbAccepted
  | modemSendAccepted
  | modemTxStarted
  | modemTxCompleted
  | modemRadioRxReceived
  | modemRxEventQueued
  | modemRxEventWrittenUsb
  | modemEventDrops
  | modemEventQueueDepth
deriving DecidableEq, Repr

structure Modem where
  /-- `self.serial is not None`. -/
  connected : Bool := false
  decoder : StreamDecoder := {}
  session : Nat
  sequence : Nat := 0
  bootId : Option Nat := none
  handshakeComplete : Bool := false
  radioReady : Bool := false
  pending : Table := []
  received : List Bytes := []
  txOutcomes : List Outcome := []
  timedOutRadio : List (Nat × ℚ) := []
  nextAttempt : ℚ := 0
  lastDiagnostics : ℚ := 0
  lastRadioRx : ℚ := 0
  reconnectSeconds : ℚ := 1
  metrics : Metrics Metric := .empty
  io : Io := {}
  log : List Event := []

namespace Modem

def maxLateRadioResults : Nat := 32
def lateRadioResultTtlS : ℚ := 30
def maxSequence : Nat := 0xffffffff

abbrev Op (α : Type) : Type := Prog Modem Exn α

open Prog

def note (e : Event) : Op Unit := modify fun m => { m with log := m.log ++ [e] }

def add (name : Metric) (amount : Nat := 1) : Op Unit := modify fun m => { m with metrics := m.metrics.add name amount }

def set (name : Metric) (value : Nat) : Op Unit := modify fun m => { m with metrics := m.metrics.set name value }

def monotonic : Op ℚ := fun m =>
  (.ok (m.io.clock 0), { m with io := { m.io with clock := fun k => m.io.clock (k + 1) } })

/-- `random.randrange(1, 2**32)`. -/
def randrange : Op Nat := fun m =>
  (.ok (m.io.draws 0 % (2 ^ 32 - 1) + 1), { m with io := { m.io with draws := fun k => m.io.draws (k + 1) } })

def popPending (sequence : Nat) : Op Unit := modify fun m => { m with pending := popKey m.pending sequence }

def outcome (sequence : Nat) (completed : Option Bool) : Op Unit :=
  modify fun m => { m with txOutcomes := m.txOutcomes ++ [(sequence, completed)] }

def readyForSend (m : Modem) : Bool := m.connected && m.handshakeComplete && m.radioReady && m.pending.isEmpty

/-! ## The connection and the session -/

/-- The loop of `_disconnect` over the requests. -/
def abandon : Nat × Nat × ℚ → Op Unit
  | (sequence, typ, _) =>
    if typ = Msg.radioSend then do
      outcome sequence none
      add .radioSendDisconnectUncertain
    else pure ()

def disconnect : Op Unit := do
  forEach abandon (← get).pending
  modify fun m =>
    { m with
      connected := false, pending := [], received := [], timedOutRadio := [], handshakeComplete := false
      radioReady := false, log := m.log ++ [.lost] }
  set .modemConnected 0
  set .modemHandshakeComplete 0
  set .modemReadyForSend 0
  set .modemRadioReady 0
  let now ← monotonic
  modify fun m => { m with nextAttempt := now + m.reconnectSeconds }

/-- The loop of `_write`, on the answers the port has left and the bytes left to write. -/
def writeLoop : List WriteRes → Bytes → Op Unit
  | ws, [] => modify fun m => { m with io := { m.io with writes := ws } }
  | [], _ :: _ => raise .osError
  | .raised n :: _, raw => do
    note (.wrote (raw.take n))
    raise .osError
  | .wrote n :: ws, raw =>
    if n = 0 then raise .osError
    else do
      note (.wrote (raw.take n))
      add .usbBytesWritten n
      writeLoop ws (raw.drop n)

def write (raw : Bytes) : Op Unit := do
  if (← get).connected then
    tryCatch (writeLoop (← get).io.writes raw) fun e => do
      add .usbWriteFailures
      disconnect
      raise e
  else raise .osError

def next : Op Nat := do
  modify fun m => { m with sequence := if m.sequence = maxSequence then 1 else m.sequence + 1 }
  return (← get).sequence

def beginFreshSession : Op Unit := do
  let previous := (← get).session
  let drawn ← randrange
  let session := if drawn = previous then if previous = maxSequence then 1 else previous + 1 else drawn
  modify fun m =>
    { m with
      session := session, sequence := 0, timedOutRadio := [], handshakeComplete := false, radioReady := false
      lastRadioRx := 0, log := m.log ++ [.session session] }
  set .modemHandshakeComplete 0
  set .modemReadyForSend 0
  set .modemRadioReady 0

def request (typ : Nat) (payload : Bytes) : Op Nat := do
  if (← get).sequence = maxSequence then raise .runtimeError
  else
    let sequence ← next
    add .usbSendRequests
    let m ← get
    match encodeFrame typ m.session sequence payload with
    | none =>
      note (.unencodable sequence payload)
      raise .protocolError
    | some raw =>
      note (.request typ m.session sequence payload m.pending)
      write raw
      let now ← monotonic
      modify fun m =>
        { m with pending := setKey m.pending sequence (typ, now), log := m.log ++ [.accepted typ sequence now] }
      add .usbSendAccepted
      return sequence

def sendHello : Op Unit := do
  let _ ← request Msg.hello []
  pure ()

/-- `self._serial_factory(...)`. -/
def serialFactory (opens : Bool) : Op Unit :=
  if opens then modify fun m => { m with connected := true, log := m.log ++ [.opened] } else raise .osError

def openSerial : Op Unit := do
  let m ← get
  if m.connected then return
  if (← monotonic) < m.nextAttempt then return
  tryCatch
    (do
      serialFactory m.io.opens
      modify fun m => { m with decoder := {}, pending := [] }
      beginFreshSession
      add .usbReconnects
      set .modemConnected 1
      set .modemHandshakeComplete 0
      write [0]
      sendHello)
    fun _ => do
      add .usbConnectFailures
      disconnect

/-- The loop of `_restart_host_session` over the requests. -/
def failPending : Nat × Nat × ℚ → Op Unit
  | (sequence, typ, _) => if typ = Msg.radioSend then outcome sequence (some false) else pure ()

def restartHostSession : Op Unit := do
  forEach failPending (← get).pending
  modify fun m => { m with pending := [], received := [] }
  beginFreshSession
  set .modemHandshakeComplete 0
  set .modemReadyForSend 0
  tryCatch sendHello fun e => if e = .osError then add .usbSessionResetWriteFailures else raise e

def rotateBeforeSequenceWrap : Op Bool := do
  if (← get).sequence ≠ maxSequence then return false
  add .usbSessionRotationsSequenceWrap
  restartHostSession
  return true

/-! ## Sending -/

def sendAir (payload : Bytes) : Op (Option Nat) := do
  if (← get).readyForSend = false then
    add .radioSendDisconnected
    return none
  if ← rotateBeforeSequenceWrap then
    add .radioSendSessionRotated
    return none
  add .applicationFramesGenerated
  add .loraBytesQueued payload.length
  tryCatch
    (do
      let sequence ← request Msg.radioSend payload
      return some sequence)
    fun e =>
      if e = .osError then do
        add .radioSendUsbWriteFailures
        return none
      else raise e

def takeTxOutcomes : Op (List Outcome) := do
  let outcomes := (← get).txOutcomes
  modify fun m => { m with txOutcomes := [] }
  return outcomes

/-! ## Received frames -/

def handleInfo (payload : Bytes) : Op Bool := do
  match parseInfo payload with
  | none =>
    add .infoDecodeFailures
    return false
  | some info =>
    let m ← get
    when (m.bootId.isSome ∧ m.bootId ≠ some info.bootId) (add .modemBootIdChanges)
    modify fun m =>
      { m with bootId := some info.bootId, handshakeComplete := true, radioReady := decide (info.radioReady ≠ 0) }
    set .modemBootId info.bootId
    set .modemRadioReady (if info.radioReady ≠ 0 then 1 else 0)
    set .modemConnected 1
    set .modemHandshakeComplete 1
    return true

/-- The names that `_handle_diagnostics` sets, in the order of the values. -/
def diagnosticNames : List Metric :=
  [.modemUsbFrames, .modemUsbAccepted, .modemSendAccepted, .modemTxStarted, .modemTxCompleted, .modemRadioRxReceived,
    .modemRxEventQueued, .modemRxEventWrittenUsb, .modemEventDrops, .modemEventQueueDepth]

def handleDiagnostics (payload : Bytes) : Op Unit := do
  match parseDiagnostics payload with
  | none => add .diagnosticsDecodeFailures
  | some values => forEach (fun p => set p.1 p.2) (diagnosticNames.zip values)

def handleError (sequence : Nat) (payload : Bytes) : Op Unit := do
  let m ← get
  match m.pending.lookup sequence with
  | none =>
    if (m.timedOutRadio.lookup sequence).isSome then
      match parseError payload with
      | none => add .radioTxLateErrorDecodeFailures
      | some (_, _, failedType) =>
        modify fun m => { m with timedOutRadio := popKey m.timedOutRadio sequence }
        if failedType = Msg.radioSend then add .radioTxLateErrors else add .radioTxLateErrorTypeMismatch
    else add .usbUnexpectedError
  | some (requestType, _) =>
    match parseError payload with
    | none => add .modemErrorDecodeFailures
    | some (code, _, failedType) =>
      if failedType ≠ requestType then add .modemErrorTypeMismatch
      else
        popPending sequence
        add .modemErrors
        when (requestType = Msg.radioSend) (outcome sequence (some false))
        if requestType = Msg.hello then
          add .helloErrors
          restartHostSession
        else if code = errorCodeWrongSession ∧ (requestType = Msg.getDiagnostics ∨ requestType = Msg.radioSend) then
          add .modemWrongSessionRecoveries
          restartHostSession

def handleInfoFrame (sequence : Nat) (payload : Bytes) : Op Unit := do
  match (← get).pending.lookup sequence with
  | none => add .usbUnexpectedInfo
  | some (requestType, _) =>
    if requestType ≠ Msg.hello then add .usbUnexpectedInfo
    else if ← handleInfo payload then popPending sequence
    else
      add .helloInvalidInfo
      restartHostSession

def handleTxResult (sequence : Nat) (payload : Bytes) : Op Unit := do
  let m ← get
  match m.pending.lookup sequence with
  | none =>
    if (m.timedOutRadio.lookup sequence).isSome then
      modify fun m => { m with timedOutRadio := popKey m.timedOutRadio sequence }
      if (parseTxResult payload).isSome then add .radioTxLateCompleted else add .radioTxLateResultDecodeFailures
    else add .usbUnexpectedRadioTxResult
  | some (requestType, _) =>
    if requestType ≠ Msg.radioSend then add .usbUnexpectedRadioTxResult
    else if (parseTxResult payload).isNone then
      popPending sequence
      outcome sequence (some false)
      add .radioTxResultDecodeFailures
    else
      popPending sequence
      outcome sequence (some true)
      add .radioTxCompleted

def handleRadioRx (payload : Bytes) : Op Unit := do
  add .radioRxReceived
  let now ← monotonic
  modify fun m => { m with lastRadioRx := now }
  match parseRadioRx payload with
  | none => add .radioRxDecodeFailures
  | some rx =>
    modify fun m => { m with received := m.received ++ [rx.payload] }
    add .rxEventQueued
    add .applicationFramesDecoded

def handleDiagnosticsFrame (sequence : Nat) (payload : Bytes) : Op Unit := do
  match (← get).pending.lookup sequence with
  | none => add .usbUnexpectedDiagnostics
  | some (requestType, _) =>
    if requestType ≠ Msg.getDiagnostics then add .usbUnexpectedDiagnostics
    else
      popPending sequence
      handleDiagnostics payload

/-- The body of the loop of `tick` over the received frames. -/
def handleFrame (f : Frame) : Op Unit := do
  note (.frame f)
  add .hostUsbFramesReceived
  if f.session ≠ (← get).session then add .usbWrongSession
  else if f.msgType = Msg.info then handleInfoFrame f.sequence f.payload
  else if f.msgType = Msg.radioTxResult then handleTxResult f.sequence f.payload
  else if f.msgType = Msg.radioRx then handleRadioRx f.payload
  else if f.msgType = Msg.diagnostics then handleDiagnosticsFrame f.sequence f.payload
  else if f.msgType = Msg.error then handleError f.sequence f.payload
  else pure ()

/-! ## Time -/

def rememberTimedOutRadio (sequence : Nat) (now : ℚ) : Op Unit := do
  modify fun m => { m with timedOutRadio := setKey m.timedOutRadio sequence now }
  -- the loop drops the oldest until the bound holds
  let excess := (← get).timedOutRadio.length - maxLateRadioResults
  modify fun m => { m with timedOutRadio := m.timedOutRadio.drop excess }
  add .radioTxTimeoutTombstonesEvicted excess

/-- The loop of `_expire_timed_out_radio`. -/
def expireLoop (now : ℚ) : List (Nat × ℚ) → Op Unit
  | [] => pure ()
  | (_, started) :: rest =>
    if now - started ≤ lateRadioResultTtlS then pure ()
    else do
      modify fun m => { m with timedOutRadio := rest }
      add .radioTxTimeoutTombstonesExpired
      expireLoop now rest

def expireTimedOutRadio (now : ℚ) : Op Unit := do
  expireLoop now (← get).timedOutRadio

/-- The loop of `tick` over the requests. -/
def expirePending (now : ℚ) : Table → Op Unit
  | [] => pure ()
  | (sequence, typ, started) :: rest =>
    if now - started > 3 then
      if typ = Msg.radioSend then do
        popPending sequence
        rememberTimedOutRadio sequence now
        outcome sequence none
        add .radioSendTimeouts
        add .usbResponseTimeouts
        expirePending now rest
      else do
        popPending sequence
        if typ = Msg.hello then
          add .helloTimeouts
          restartHostSession
        else
          add .usbResponseTimeouts
          expirePending now rest
    else expirePending now rest

def pollDiagnostics (diagnosticsIdle : Bool) (now : ℚ) : Op Unit := do
  let m ← get
  if m.handshakeComplete = true ∧ m.pending = [] ∧ diagnosticsIdle = true ∧ now - m.lastRadioRx ≥ 1 ∧
      now - m.lastDiagnostics ≥ 1 then
    if ← rotateBeforeSequenceWrap then pure ()
    else
      modify fun m => { m with lastDiagnostics := now }
      tryCatch
        (do
          let _ ← request Msg.getDiagnostics []
          pure ())
        fun e => if e = .osError then pure () else raise e

/-- `tick`, from the first byte read on. -/
def tickRead (diagnosticsIdle : Bool) (raw : Bytes) : Op (List Bytes) := do
  when (raw ≠ []) (add .hostUsbBytesReceived raw.length)
  let (decoder, frames) := (← get).decoder.feed raw
  modify fun m => { m with decoder := decoder }
  forEach handleFrame frames
  let now ← monotonic
  expireTimedOutRadio now
  note (.deadline now)
  expirePending now (← get).pending
  pollDiagnostics diagnosticsIdle now
  let m ← get
  set .modemConnected (if m.connected then 1 else 0)
  set .modemHandshakeComplete (if m.handshakeComplete then 1 else 0)
  set .modemReadyForSend (if m.readyForSend then 1 else 0)
  let events := (← get).received
  modify fun m => { m with received := [] }
  return events

def tick (diagnosticsIdle : Bool) : Op (List Bytes) := do
  openSerial
  if (← get).connected = false then
    set .modemReadyForSend 0
    return []
  match (← get).io.read with
  | none =>
    add .usbReadFailures
    disconnect
    return []
  | some raw => tickRead diagnosticsIdle raw

def close : Op Unit := do
  disconnect
  set .modemConnected 0

/-! ## Start and steps -/

/-- `ModemTransport(...)`, with the session it draws; the metrics it sets are zero anyway. -/
def init (draw : Nat) (reconnectSeconds : ℚ) : Modem :=
  { session := draw % (2 ^ 32 - 1) + 1, reconnectSeconds := reconnectSeconds }

inductive Input
  | sendAir (io : Io) (payload : Bytes)
  | tick (io : Io) (diagnosticsIdle : Bool)
  | takeTxOutcomes
  | close (io : Io)

/-- A call begins: the answers it gets, and nothing done yet. -/
def enter (io : Io) (m : Modem) : Modem := { m with io := io, log := [] }

/-- A call ends with the given events. -/
def leave (m : Modem) (events : List Event) : Modem := { m with log := m.log ++ events }

/-- One call of a method, with what it returns or raises at the end of the log. -/
def step : Input → Modem → Modem
  | .sendAir io payload, m =>
    match sendAir payload (m.enter io) with
    | (.ok (some sequence), m) => m.leave [.sent sequence]
    | (.ok none, m) => m.leave [.refused]
    | (.error e, m) => m.leave [.raised e]
  | .tick io diagnosticsIdle, m =>
    match tick diagnosticsIdle (m.enter io) with
    | (.ok events, m) => m.leave [.received events]
    | (.error e, m) => m.leave [.raised e]
  | .takeTxOutcomes, m =>
    match takeTxOutcomes (m.enter m.io) with
    | (.ok outcomes, m) => m.leave [.took outcomes]
    | (.error e, m) => m.leave [.raised e]
  | .close io, m =>
    match close (m.enter io) with
    | (.ok _, m) => m
    | (.error e, m) => m.leave [.raised e]

end Modem

end LoraLink.Host
