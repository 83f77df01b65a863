import LoraLink.Firmware.Basic

/-!
# The modem firmware as a state machine

The globals of `main.cpp` are the record `Fw`, and its functions act on it. What the board does while a task runs
(clock readings, driver results, a received packet) is an argument of type `Hw`; each reading is taken at most once
a task. `calls` lists what the current step called: it is empty when the step begins.
-/

namespace LoraLink.Firmware

/-- The calls that a run is judged by. -/
inductive Call
  | resetSession (s : Nat)
  | saveReq (b : Bytes)
  | putQ (b : Bytes) (event : Bool)
  | startTransmit (packet : Bytes) (st : Int)
  | finishTransmit (st : Int)
  | standby
  | serialWrite (bs : Bytes)
deriving DecidableEq, Repr

/-- What the board answers during one task. -/
structure Hw where
  millis : Nat := 0
  micros : Nat := 0
  startReceive : Int := 0
  startTransmit : Int := 0
  finishTransmit : Int := 0
  packetLength : Nat := 0
  readData : Int := 0
  packet : Bytes := []
  rssi100 : Nat := 0
  snr100 : Nat := 0
deriving Repr

structure Fw where
  irq : Bool := false
  rs : RS := .down
  ready : Bool := false
  c : C := {}
  q : List F := List.replicate QD {}
  qh : Nat := 0
  qt : Nat := 0
  qn : Nat := 0
  inb : Bytes := []
  «over» : Bool := false
  boot : Nat := 1
  airNext : Nat := 1
  session : Nat := 0
  lastSeq : Nat := 0
  txSession : Nat := 0
  txSeq : Nat := 0
  txAir : Nat := 0
  txStart : Nat := 0
  txStartedMillis : Nat := 0
  active : Bool := false
  pending : Bool := false
  haveLast : Bool := false
  lastReq : Bytes := []
  lastResp : Bytes := []
  txPacket : Bytes := []
  mac : Nat := 0
  calls : List Call := []
deriving Repr

namespace Fw

def note (s : Fw) (call : Call) : Fw := { s with calls := s.calls ++ [call] }

/-- An update of the counters. -/
def count (f : C → C) (s : Fw) : Fw := { s with c := f s.c }

def setRs (rs : RS) (s : Fw) : Fw := { s with rs := rs }

def clearIrq (s : Fw) : Fw := { s with irq := false }

def clearPending (s : Fw) : Fw := { s with pending := false }

/-! ## The output queue -/

/-- The slot `offset` places behind the head. -/
def slot (s : Fw) (offset : Nat) : F := s.q.getD ((s.qh + offset) % QD) {}

/-- Closes the gap at `offset`: every later entry moves one place towards the head. -/
def closeGap (s : Fw) (offset : Nat) : Fw :=
  (List.range (s.qn - 1 - offset)).foldl
    (fun s k => { s with q := s.q.set ((s.qh + (offset + k)) % QD) (s.slot (offset + k + 1)) }) s

/-- The tail of `putQ`: write the slot at `qt`. -/
def store (s : Fw) (b : Bytes) (event : Bool) : Fw :=
  { s with
    q := s.q.set s.qt { b := b, event := event }
    qt := (s.qt + 1) % QD
    qn := s.qn + 1
    c := if event then { s.c with rxEventQueued := s.c.rxEventQueued + 1 } else s.c }

def putQ (s : Fw) (b : Bytes) (event : Bool) : Fw :=
  let s := s.note (.putQ b event)
  if s.qn = QD then
    if event then s.count fun c => { c with drops := c.drops + 1 }
    else
      match (List.range s.qn).find? fun offset => (s.slot offset).event with
      | none => s
      | some eventOffset =>
        let s := s.closeGap eventOffset
        let s := { s with qt := (s.qt + QD - 1) % QD, qn := s.qn - 1 }
        (s.count fun c => { c with drops := c.drops + 1 }).store b event
  else s.store b event

/-- `flush`, with the room the port reports and the number of bytes it takes. -/
def flush (s : Fw) (availableForWrite : Int) (written : Nat) : Fw :=
  if s.qn = 0 then s
  else
    let e := enc (s.slot 0).b
    if availableForWrite < (e.length : Int) + 1 then s
    else
      let wasEvent := (s.slot 0).event
      let bs := (e ++ [0]).take written
      let s := s.note (.serialWrite bs)
      let c :=
        if bs.length = e.length + 1 ∧ wasEvent then { s.c with rxEventWritten := s.c.rxEventWritten + 1 }
        else if bs.length ≠ e.length + 1 then
          if wasEvent then { s.c with drops := s.c.drops + 1 } else { s.c with usbBad := s.c.usbBad + 1 }
        else s.c
      { s with c := c, qh := (s.qh + 1) % QD, qn := s.qn - 1 }

/-! ## Responses -/

def reply (s : Fw) (type : UInt8) (seq : Nat) (p : Bytes) (cache : Bool := true) : Fw :=
  let b := frame type s.session seq p
  let s := if cache then { s with lastResp := b, haveLast := true } else s
  s.putQ b false

def error (s : Fw) (seq code : Nat) (detail : Int) (type : UInt8) (cache : Bool := true) : Fw :=
  s.reply Msg.err seq (errorPayload code detail type) cache

def errorFor (s : Fw) (ses seq code : Nat) (detail : Int) (type : UInt8) : Fw :=
  s.putQ (frame Msg.err ses seq (errorPayload code detail type)) false

/-- `lastReq` holds the first `lastReqN` bytes of the buffer of that name. -/
def saveReq (s : Fw) (b : Bytes) : Fw := { s.note (.saveReq b) with lastReq := b }

def resetSession (s : Fw) (ses : Nat) : Fw :=
  { s.note (.resetSession ses) with
    session := ses, active := true, lastSeq := 0, haveLast := false, lastReq := [], lastResp := [], pending := false }

def countRadio (s : Fw) : Fw := s.count fun c => { c with radio := c.radio + 1 }

def listen (hw : Hw) (s : Fw) : Fw :=
  if s.ready = false then s
  else
    let s := s.clearIrq
    if hw.startReceive = radiolibErrNone then s.setRs .recv else (s.setRs .down).countRadio

/-! ## The radio -/

def received (hw : Hw) (b : Bytes) (n : Nat) (s : Fw) : Fw :=
  let rxBad := s.count fun c => { c with rxBad := c.rxBad + 1 }
  if n < 18 ∨ byteAt b 0 ≠ 0x4d ∨ byteAt b 1 ≠ 0x4c ∨ byteAt b 2 ≠ V ∨ byteAt b 3 ≠ 1 ∨ byteAt b 4 ≠ 0 ∨
      byteAt b 5 ≠ 0 then rxBad
  else
    let pn := r16 (b.drop 14)
    if pn = 0 ∨ pn > AM ∨ n ≠ 18 + pn ∨ r16 (b.drop (n - 2)) ≠ crc (b.take (n - 2)) then rxBad
    else
      let s := s.count fun c => { c with rx := c.rx + 1 }
      if s.active = false then s
      else
        let p := w32 (r32 (b.drop 6)) ++ w32 (r32 (b.drop 10)) ++ w16 hw.rssi100 ++ w16 hw.snr100 ++ w32 hw.millis ++
          (b.drop 16).take pn
        s.putQ (frame Msg.rxEvent s.session 0 p) true

/-- A transmission that the running session started. -/
def ownTx (s : Fw) : Bool := s.active && s.session == s.txSession

/-- A transmission has ended with the driver result `st`. -/
def txDone (hw : Hw) (s : Fw) : Fw :=
  let st := hw.finishTransmit
  let s := (s.note (.finishTransmit st)).setRs .down
  if st = radiolibErrNone then
    let s := s.count fun c => { c with tx := c.tx + 1 }
    if s.ownTx then
      s.clearPending.reply Msg.txok s.txSeq
        (w32 s.boot ++ w32 s.txAir ++ w32 ((hw.micros + 2 ^ 32 - s.txStart) % 2 ^ 32))
    else s
  else
    let s := s.countRadio
    if s.ownTx then s.clearPending.error s.txSeq E.radio st Msg.send else s

def radioTask (hw : Hw) (s : Fw) : Fw :=
  if s.irq = false ∨ s.ready = false then s
  else
    let s := s.clearIrq
    if s.rs = .transmitting then (s.txDone hw).listen hw
    else if hw.readData = radiolibErrNone then (s.received hw (radioBuffer hw.packet) hw.packetLength).listen hw
    else s.countRadio.listen hw

def txWatchdog (hw : Hw) (s : Fw) : Fw :=
  if s.rs ≠ .transmitting ∨ (hw.millis + 2 ^ 32 - s.txStartedMillis) % 2 ^ 32 < txWatchdogMs then s
  else
    let s := (s.countRadio.note .standby).setRs .down
    if s.ownTx then (s.clearPending.error s.txSeq E.radio radiolibErrUnknown Msg.send).listen hw else s.listen hw

/-! ## Requests -/

def info (hw : Hw) (seq : Nat) (s : Fw) : Fw :=
  let device := (List.range 6).map fun i => UInt8.ofNat (s.mac / 2 ^ (8 * i))
  s.reply Msg.info seq
    (device ++ w32 s.boot ++ w32 15 ++ w16 AM ++ [if s.ready then 1 else 0, 1] ++ w32 hw.millis)

def status (hw : Hw) (seq : Nat) (s : Fw) : Fw :=
  s.reply Msg.stat seq
    (w32 s.boot ++ w32 hw.millis ++ [s.rs.toByte, 0, 0, 0] ++ w32 s.c.tx ++ w32 s.c.rx ++ w32 s.c.rxBad ++
      w32 s.c.usbBad ++ w32 s.c.radio ++ w32 s.c.drops)

def diagnostics (seq : Nat) (s : Fw) : Fw :=
  s.reply Msg.diagnostics seq
    (w32 s.c.usbFrames ++ w32 s.c.usbAccepted ++ w32 s.c.sendAccepted ++ w32 s.c.txStarted ++ w32 s.c.tx ++
      w32 s.c.rx ++ w32 s.c.rxEventQueued ++ w32 s.c.rxEventWritten ++ w32 s.c.drops ++ w32 s.qn)

/-- The state `sendAir` sets up before it starts the transmitter. -/
def prepareTx (hw : Hw) (p : Bytes) (seq : Nat) (s : Fw) : Fw :=
  let (a, airNext) := nextAir s.airNext
  { s with
    txPacket := airPacket s.boot a p, airNext := airNext, irq := false, rs := .transmitting, pending := true
    txSession := s.session, txSeq := seq, txAir := a, txStart := hw.micros, txStartedMillis := hw.millis }

def sendAir (hw : Hw) (p : Bytes) (seq : Nat) (s : Fw) : Fw :=
  if s.ready = false then s.error seq E.notready 0 Msg.send
  else if s.rs = .transmitting ∨ s.pending = true then s.error seq E.busy 0 Msg.send
  else
    let st := hw.startTransmit
    let s := s.prepareTx hw p seq
    let s := s.note (.startTransmit s.txPacket st)
    if st ≠ radiolibErrNone then
      ((s.countRadio.setRs .down).clearPending.error seq E.radio st Msg.send).listen hw
    else s.count fun c => { c with txStarted := c.txStarted + 1 }

def countUsbBad (s : Fw) : Fw := s.count fun c => { c with usbBad := c.usbBad + 1 }

def countAccepted (s : Fw) : Fw := s.count fun c => { c with usbAccepted := c.usbAccepted + 1 }

/-- A request is accepted: it is kept for a retry, and its sequence is the last. -/
def accept (b : Bytes) (s : Fw) : Fw := { s.saveReq b with lastSeq := seqOf b }

/-- A request other than HELLO is accepted: there is no response to it yet. -/
def acceptRequest (b : Bytes) (s : Fw) : Fw := { s.accept b with haveLast := false }

/-- The HELLO branch of `handle`. -/
def handleHello (hw : Hw) (b : Bytes) (s : Fw) : Fw :=
  let ses := sessionOf b
  let seq := seqOf b
  -- an accepted HELLO ends here
  let greet (s : Fw) : Fw := (s.accept b).countAccepted.info hw seq
  if lengthOf b ≠ 0 then s.errorFor ses seq E.bad 0 Msg.hello
  else if s.active = true ∧ ses = s.session ∧ s.pending = true then s.error seq E.busy 0 Msg.hello false
  else if s.active = false ∨ ses ≠ s.session then greet (s.resetSession ses)
  else if seq < s.lastSeq then s.error seq E.stale 0 Msg.hello false
  else if seq = s.lastSeq then
    if s.haveLast = true ∧ b = s.lastReq then s.putQ s.lastResp false else s.error seq E.reused 0 Msg.hello false
  else greet s

/-- The end of `handle`: a new request of the active session, by its type. -/
def serve (hw : Hw) (b : Bytes) (s : Fw) : Fw :=
  let t := typeOf b
  let seq := seqOf b
  let s := s.acceptRequest b
  if t = Msg.send then
    if lengthOf b = 0 ∨ lengthOf b > AM then s.error seq E.bad 0 t
    else (s.countAccepted.count fun c => { c with sendAccepted := c.sendAccepted + 1 }).sendAir hw (payloadOf b) seq
  else if t = Msg.getStatus then
    if lengthOf b ≠ 0 then s.error seq E.bad 0 t else s.countAccepted.status hw seq
  else if t = Msg.getDiagnostics then
    if lengthOf b ≠ 0 then s.error seq E.bad 0 t else s.countAccepted.diagnostics seq
  else s.error seq E.unsupported 0 t

/-- The branches of `handle` for a type other than HELLO. -/
def handleRequest (hw : Hw) (b : Bytes) (s : Fw) : Fw :=
  let t := typeOf b
  let ses := sessionOf b
  let seq := seqOf b
  if s.active = false ∨ ses ≠ s.session then s.errorFor ses seq E.wrong 0 t
  else if seq < s.lastSeq then s.error seq E.stale 0 t false
  else if seq = s.lastSeq then
    if s.pending = true then s.error seq E.busy 0 t false
    else if s.haveLast = true ∧ b = s.lastReq then s.putQ s.lastResp false
    else s.error seq E.reused 0 t false
  else if s.pending = true then s.error seq E.busy 0 t false
  else s.serve hw b

def handle (hw : Hw) (b : Bytes) (s : Fw) : Fw :=
  if wellFormed b = false then s.countUsbBad
  else if sessionOf b = 0 ∨ seqOf b = 0 then s.countUsbBad
  else
    let s := s.count fun c => { c with usbFrames := c.usbFrames + 1 }
    if typeOf b = Msg.hello then s.handleHello hw b else s.handleRequest hw b

/-- One byte read by `usbTask`. -/
def usbByte (hw : Hw) (z : UInt8) (s : Fw) : Fw :=
  if z = 0 then
    let s' :=
      if s.over = false ∧ s.inb ≠ [] then
        match dec s.inb with
        | some b => s.handle hw b
        | none => s.countUsbBad
      else s
    { s' with inb := [], «over» := false }
  else if s.over then s
  else if s.inb.length = UE then { s with «over» := true }.countUsbBad
  else { s with inb := s.inb ++ [z] }

def isr (s : Fw) : Fw := { s with irq := true }

end Fw

/-! ## Start and steps -/

/-- What the board answers during `setup`: the random numbers, the device address and the results of the driver. -/
structure Board where
  boot : Nat := 1
  airNext : Nat := 1
  mac : Nat := 0
  begun : Int := 0
  crcOk : Bool := true
  dio2Ok : Bool := true
  hw : Hw := {}
deriving Repr

def setup (d : Board) : Fw :=
  let boot := if d.boot % 2 ^ 32 = 0 then 1 else d.boot % 2 ^ 32
  let airNext := if d.airNext % 2 ^ 32 = 0 then 1 else d.airNext % 2 ^ 32
  let s : Fw := { boot := boot, airNext := airNext, mac := d.mac }
  if protocolSelfTest = false then s.countRadio
  else if d.begun = radiolibErrNone ∧ d.crcOk = true ∧ d.dio2Ok = true then { s with ready := true }.listen d.hw
  else s.countRadio

inductive Input
  | handle (hw : Hw) (b : Bytes)
  | isr
  | radioTask (hw : Hw)
  | txWatchdog (hw : Hw)
  | flush (availableForWrite : Int) (written : Nat)
deriving Repr

/-- What an input does to the state. -/
def Fw.perform : Input → Fw → Fw
  | .handle hw b, s => s.handle hw b
  | .isr, s => s.isr
  | .radioTask hw, s => s.radioTask hw
  | .txWatchdog hw, s => s.txWatchdog hw
  | .flush availableForWrite written, s => s.flush availableForWrite written

/-- One step: its calls start from none. -/
def step (i : Input) (s : Fw) : Fw := Fw.perform i { s with calls := [] }

end LoraLink.Firmware
