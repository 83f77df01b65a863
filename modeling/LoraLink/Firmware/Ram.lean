import LoraLink.Firmware.Machine
import LoraLink.Lib.Buf

/-!
# The modem firmware with its buffers

`Fw` has byte strings where `main.cpp` has arrays. Here they are the arrays of the source, of its sizes, and the functions
access them index by index as the source does: an access outside an array raises `OutOfBounds`. A local array that the
source leaves uninitialised begins with zeros here.
-/

namespace LoraLink.Firmware

open Prog

/-- The size of the payload of a received event. -/
def UM : Nat := 256

/-- A slot of the output queue. -/
structure Slot where
  b : Buf UInt8 UD := .fill 0
  n : Nat := 0
  event : Bool := false

/-- The globals: the arrays with their lengths, and in `g` the others (its byte strings are not used). -/
structure Ram where
  g : Fw := {}
  q : Buf Slot QD := .fill {}
  /-- `in`. -/
  inb : Buf UInt8 UE := .fill 0
  inN : Nat := 0
  lastReq : Buf UInt8 UD := .fill 0
  lastReqN : Nat := 0
  lastResp : Buf UInt8 UD := .fill 0
  lastRespN : Nat := 0
  txPacket : Buf UInt8 AD := .fill 0
  /-- How many bytes of it `startTransmit` was given last: nothing in the program reads it. -/
  txPacketN : Nat := 0

namespace Ram

abbrev Op (α : Type) := Prog Ram OutOfBounds α

abbrev Checked (α : Type) := Except OutOfBounds α

variable {k m : Nat}

/-! ## Bytes -/

def crcLoop (d : Buf UInt8 k) : Nat → Checked (BitVec 16)
  | 0 => .ok 0xffff#16
  | n + 1 => do return crcByte 0x1021#16 (← crcLoop d n) (← d.load n)

def crc (d : Buf UInt8 k) (n : Nat) : Checked Nat := do return (← crcLoop d n).toNat

/-- `w16(p + i, x)`. -/
def w16 (p : Buf UInt8 k) (i x : Nat) : Checked (Buf UInt8 k) := do
  let p ← p.store i (UInt8.ofNat (x / 2 ^ 8))
  p.store (i + 1) (UInt8.ofNat x)

def w32 (p : Buf UInt8 k) (i x : Nat) : Checked (Buf UInt8 k) := do
  let p ← p.store i (UInt8.ofNat (x / 2 ^ 24))
  let p ← p.store (i + 1) (UInt8.ofNat (x / 2 ^ 16))
  let p ← p.store (i + 2) (UInt8.ofNat (x / 2 ^ 8))
  p.store (i + 3) (UInt8.ofNat x)

def r16 (p : Buf UInt8 k) (i : Nat) : Checked Nat := do return (← p.load i).toNat * 2 ^ 8 + (← p.load (i + 1)).toNat

def r32 (p : Buf UInt8 k) (i : Nat) : Checked Nat := do
  return (← p.load i).toNat * 2 ^ 24 + (← p.load (i + 1)).toNat * 2 ^ 16 + (← p.load (i + 2)).toNat * 2 ^ 8 +
    (← p.load (i + 3)).toNat

/-- The variables of `enc`. -/
structure EncVars (k : Nat) where
  ri : Nat
  wi : Nat
  ci : Nat
  code : Nat
  o : Buf UInt8 k

/-- One pass of the loop of `enc`. -/
def encPass (a : Buf UInt8 m) (v : EncVars k) : Checked (EncVars k) := do
  if (← a.load v.ri) = 0 then
    let o ← v.o.store v.ci (UInt8.ofNat v.code)
    return { ri := v.ri + 1, wi := v.wi + 1, ci := v.wi, code := 1, o := o }
  else
    let o ← v.o.store v.wi (← a.load v.ri)
    if v.code + 1 = 0xff then
      let o ← o.store v.ci (UInt8.ofNat (v.code + 1))
      return { ri := v.ri + 1, wi := v.wi + 2, ci := v.wi + 1, code := 1, o := o }
    else return { ri := v.ri + 1, wi := v.wi + 1, ci := v.ci, code := v.code + 1, o := o }

/-- The loop, with the number of bytes that are left: every pass takes one. -/
def encLoop (a : Buf UInt8 m) : Nat → EncVars k → Checked (EncVars k)
  | 0, v => .ok v
  | left + 1, v => do encLoop a left (← encPass a v)

/-- `enc(a, n, o)`: the length and the contents of `o`. -/
def enc (a : Buf UInt8 m) (n : Nat) (o : Buf UInt8 k) : Checked (Nat × Buf UInt8 k) := do
  let v ← encLoop a n { ri := 0, wi := 1, ci := 0, code := 1, o := o }
  return (v.wi, ← v.o.store v.ci (UInt8.ofNat v.code))

/-- The inner loop of `dec`, with the number of bytes that are left; `none` if it returns false. -/
def decCopy (a : Buf UInt8 m) : Nat → Nat → Nat → Buf UInt8 k → Checked (Option (Nat × Nat × Buf UInt8 k))
  | 0, ri, wi, o => .ok (some (ri, wi, o))
  | left + 1, ri, wi, o =>
    if wi ≥ UD then .ok none
    else do
      let o ← o.store wi (← a.load ri)
      decCopy a left (ri + 1) (wi + 1) o

/-- The loop of `dec`: every pass takes a byte, so the length of the input is fuel enough. -/
def decLoop (a : Buf UInt8 m) (n : Nat) : Nat → Nat → Nat → Buf UInt8 k → Checked (Option (Nat × Buf UInt8 k))
  | 0, ri, wi, o => .ok (if ri < n then none else some (wi, o))
  | fuel + 1, ri, wi, o =>
    if ri < n then do
      let code ← a.load ri
      if code = 0 ∨ ri + 1 + code.toNat - 1 > n then return none
      else
        match ← decCopy a (code.toNat - 1) (ri + 1) wi o with
        | none => return none
        | some (ri, wi, o) =>
          if code ≠ 0xff ∧ ri < n then
            if wi ≥ UD then return none else decLoop a n fuel ri (wi + 1) (← o.store wi 0)
          else decLoop a n fuel ri wi o
    else .ok (some (wi, o))

/-- `dec(a, n, o, &on)`: the length and the contents of `o`, if it returns true. -/
def dec (a : Buf UInt8 m) (n : Nat) (o : Buf UInt8 k) : Checked (Option (Nat × Buf UInt8 k)) := decLoop a n n 0 0 o

/-- `frame(type, ses, seq, p, pn, out)`: the length and the contents of `out`. -/
def frame (type : UInt8) (ses seq : Nat) (p : Buf UInt8 m) (pn : Nat) (out : Buf UInt8 k) :
    Checked (Nat × Buf UInt8 k) := do
  let out ← out.store 0 0x4d
  let out ← out.store 1 0x55
  let out ← out.store 2 V
  let out ← out.store 3 type
  let out ← out.store 5 0
  let out ← out.store 4 0
  let out ← w32 out 6 ses
  let out ← w32 out 10 seq
  let out ← w16 out 14 pn
  let out ← if pn ≠ 0 then out.memcpy 16 p 0 pn else pure out
  let out ← w16 out (16 + pn) (← crc out (16 + pn))
  return (18 + pn, out)

def protocolSelfTest : Checked Bool := do
  let kCrcVector : Buf UInt8 9 := ⟨[0x31, 0x32, 0x33, 0x34, 0x35, 0x36, 0x37, 0x38, 0x39], rfl⟩
  let kUsbVector : Buf UInt8 18 := ⟨[0x4d, 0x55, 1, 0x03, 0, 0, 0, 0, 0, 1, 0, 0, 0, 2, 0, 0, 0xec, 0x59], rfl⟩
  let bad ← anyOf [do return (← crc kCrcVector 9) != 0x29b1, do return (← crc kUsbVector 16) != (← r16 kUsbVector 16)]
  if bad then return false
  else
    let (encodedLength, encoded) ← enc kUsbVector 18 (.fill 0 : Buf UInt8 UE)
    match ← dec encoded encodedLength (.fill 0 : Buf UInt8 UD) with
    | none => return false
    | some (decodedLength, decoded) =>
      if decodedLength = 18 then decoded.memcmp kUsbVector 18 else return false

/-! ## The output queue -/

/-- What a function does to the globals that are no arrays. -/
def scalars (f : Fw → Fw) : Op Unit := modify fun r => { r with g := f r.g }

/-- The tail of `putQ`. -/
def store (b : Buf UInt8 UD) (n : Nat) (event : Bool) : Op Unit := do
  let r ← get
  let slot ← lift (r.q.load r.g.qt)
  let bytes ← lift (slot.b.memcpy 0 b 0 n)
  let q ← lift (r.q.store r.g.qt { b := bytes, n := n, event := event })
  modify fun r => { r with q := q }
  scalars fun s =>
    { s with
      qt := (s.qt + 1) % QD, qn := s.qn + 1
      c := if event then { s.c with rxEventQueued := s.c.rxEventQueued + 1 } else s.c }

/-- The loop of `putQ` that looks for an event. -/
def eventOffset (r : Ram) : List Nat → Checked (Option Nat)
  | [] => .ok none
  | offset :: offsets => do
    let slot ← r.q.load ((r.g.qh + offset) % QD)
    if slot.event then return some offset else eventOffset r offsets

/-- A pass of the loop of `putQ` that closes the gap. -/
def shift (offset : Nat) : Op Unit := do
  let r ← get
  let slot ← lift (r.q.load ((r.g.qh + offset + 1) % QD))
  let q ← lift (r.q.store ((r.g.qh + offset) % QD) slot)
  modify fun r => { r with q := q }

def putQ (b : Buf UInt8 UD) (n : Nat) (event : Bool) : Op Unit := do
  scalars fun s => s.note (.putQ (b.items.take n) event)
  let r ← get
  if r.g.qn = QD then
    if event then scalars fun s => s.count fun c => { c with drops := c.drops + 1 }
    else
      match ← lift (eventOffset r (List.range r.g.qn)) with
      | none => pure ()
      | some eventOffset => do
        forEach (fun k => shift (eventOffset + k)) (List.range (r.g.qn - 1 - eventOffset))
        scalars fun s => { s with qt := (s.qt + QD - 1) % QD, qn := s.qn - 1 }
        scalars fun s => s.count fun c => { c with drops := c.drops + 1 }
        store b n event
  else store b n event

/-- `flush`, with the room the port reports and the number of bytes it takes. -/
def flush (availableForWrite : Int) (written : Nat) : Op Unit := do
  let r ← get
  if r.g.qn = 0 then pure ()
  else do
    let slot ← lift (r.q.load r.g.qh)
    let (n, e) ← lift (enc slot.b slot.n (.fill 0 : Buf UInt8 UE))
    if availableForWrite < (n : Int) + 1 then pure ()
    else do
      let e ← lift (e.store n 0)
      let slot ← lift (r.q.load r.g.qh)
      let bs := (← lift (e.slice (n + 1))).take written
      scalars fun s => s.note (.serialWrite bs)
      scalars fun s =>
        { s with
          c :=
            if bs.length = n + 1 ∧ slot.event then { s.c with rxEventWritten := s.c.rxEventWritten + 1 }
            else if bs.length ≠ n + 1 then
              if slot.event then { s.c with drops := s.c.drops + 1 } else { s.c with usbBad := s.c.usbBad + 1 }
            else s.c
          qh := (s.qh + 1) % QD, qn := s.qn - 1 }

/-! ## Responses -/

def reply (type : UInt8) (seq : Nat) (p : Buf UInt8 m) (n : Nat) (cache : Bool := true) : Op Unit := do
  let (z, b) ← lift (frame type (← get).g.session seq p n (.fill 0 : Buf UInt8 UD))
  when cache do
    let lastResp ← lift ((← get).lastResp.memcpy 0 b 0 z)
    modify fun r => { r with lastResp := lastResp, lastRespN := z, g := { r.g with haveLast := true } }
  putQ b z false

def errorPayload (code : Nat) (detail : Int) (type : UInt8) : Checked (Buf UInt8 5) := do
  let p ← w16 (.fill 0) 0 code
  let p ← w16 p 2 (detail.emod (2 ^ 16)).toNat
  p.store 4 type

def error (seq code : Nat) (detail : Int) (type : UInt8) (cache : Bool := true) : Op Unit := do
  let p ← lift (errorPayload code detail type)
  reply Msg.err seq p 5 cache

def errorFor (ses seq code : Nat) (detail : Int) (type : UInt8) : Op Unit := do
  let p ← lift (errorPayload code detail type)
  let (frameLength, b) ← lift (frame Msg.err ses seq p 5 (.fill 0 : Buf UInt8 UD))
  putQ b frameLength false

def saveReq (b : Buf UInt8 UD) (n : Nat) : Op Unit := do
  scalars fun s => s.note (.saveReq (b.items.take n))
  let lastReq ← lift ((← get).lastReq.memcpy 0 b 0 n)
  modify fun r => { r with lastReq := lastReq, lastReqN := n }

def resetSession (ses : Nat) : Op Unit :=
  modify fun r => { r with g := r.g.resetSession ses, lastReqN := 0, lastRespN := 0 }

def listen (hw : Hw) : Op Unit := scalars (Fw.listen hw)

/-! ## The radio -/

/-- The payload of a received event. -/
def eventPayload (hw : Hw) (b : Buf UInt8 AD) (pn : Nat) : Checked (Buf UInt8 UM) := do
  let p ← w32 (.fill 0) 0 (← r32 b 6)
  let p ← w32 p 4 (← r32 b 10)
  let p ← w16 p 8 hw.rssi100
  let p ← w16 p 10 hw.snr100
  let p ← w32 p 12 hw.millis
  p.memcpy 16 b 16 pn

def received (hw : Hw) (b : Buf UInt8 AD) (n : Nat) : Op Unit := do
  let rxBad := scalars fun s => s.count fun c => { c with rxBad := c.rxBad + 1 }
  let bad ← lift (anyOf [.ok (n < 18), (· != 0x4d) <$> b.load 0, (· != 0x4c) <$> b.load 1, (· != V) <$> b.load 2,
    (· != 1) <$> b.load 3, (· != 0) <$> b.load 4, (· != 0) <$> b.load 5])
  if bad then rxBad
  else do
    let pn ← lift (r16 b 14)
    let bad ← lift
      (anyOf [.ok (pn == 0), .ok (pn > AM), .ok (n != 18 + pn), do return (← r16 b (n - 2)) != (← crc b (n - 2))])
    if bad then rxBad
    else do
      scalars fun s => s.count fun c => { c with rx := c.rx + 1 }
      if (← get).g.active = false then pure ()
      else do
        let p ← lift (eventPayload hw b pn)
        let (frameLength, f) ← lift (frame Msg.rxEvent (← get).g.session 0 p (16 + pn) (.fill 0 : Buf UInt8 UD))
        putQ f frameLength true

/-- The payload of a completion. -/
def txokPayload (hw : Hw) (s : Fw) : Checked (Buf UInt8 12) := do
  let p ← w32 (.fill 0) 0 s.boot
  let p ← w32 p 4 s.txAir
  w32 p 8 ((hw.micros + 2 ^ 32 - s.txStart) % 2 ^ 32)

/-- A transmission has ended. -/
def txDone (hw : Hw) : Op Unit := do
  let st := hw.finishTransmit
  scalars fun s => (s.note (.finishTransmit st)).setRs .down
  if st = radiolibErrNone then do
    scalars fun s => s.count fun c => { c with tx := c.tx + 1 }
    let s := (← get).g
    if s.ownTx then do
      let p ← lift (txokPayload hw s)
      scalars Fw.clearPending
      reply Msg.txok s.txSeq p 12
    else pure ()
  else do
    scalars Fw.countRadio
    let s := (← get).g
    if s.ownTx then do
      scalars Fw.clearPending
      error s.txSeq E.radio st Msg.send
    else pure ()

/-- What `readData` leaves in the packet buffer. -/
def readData (packet : Bytes) : Buf UInt8 AD :=
  ⟨radioBuffer packet, by rw [radioBuffer, List.length_append, List.length_take, List.length_replicate]; omega⟩

def radioTask (hw : Hw) : Op Unit := do
  let s := (← get).g
  if s.irq = false ∨ s.ready = false then pure ()
  else do
    scalars Fw.clearIrq
    if s.rs = .transmitting then do
      txDone hw
      listen hw
    else if hw.readData = radiolibErrNone then do
      received hw (readData hw.packet) hw.packetLength
      listen hw
    else do
      scalars Fw.countRadio
      listen hw

def txWatchdog (hw : Hw) : Op Unit := do
  let s := (← get).g
  if s.rs ≠ .transmitting ∨ (hw.millis + 2 ^ 32 - s.txStartedMillis) % 2 ^ 32 < txWatchdogMs then pure ()
  else do
    scalars fun s => (s.countRadio.note .standby).setRs .down
    when s.ownTx do
      scalars Fw.clearPending
      error s.txSeq E.radio radiolibErrUnknown Msg.send
    listen hw

/-! ## Requests -/

def infoPayload (hw : Hw) (s : Fw) : Checked (Buf UInt8 22) := do
  let p ← (List.range 6).foldlM (fun p i => p.store i (UInt8.ofNat (s.mac / 2 ^ (8 * i)))) (.fill 0)
  let p ← w32 p 6 s.boot
  let p ← w32 p 10 15
  let p ← w16 p 14 AM
  let p ← p.store 16 (if s.ready then 1 else 0)
  let p ← p.store 17 1
  w32 p 18 hw.millis

def info (hw : Hw) (seq : Nat) : Op Unit := do
  let p ← lift (infoPayload hw (← get).g)
  reply Msg.info seq p 22

def statusPayload (hw : Hw) (s : Fw) : Checked (Buf UInt8 36) := do
  let p ← w32 (.fill 0) 0 s.boot
  let p ← w32 p 4 hw.millis
  let p ← p.store 8 s.rs.toByte
  let p ← w32 p 12 s.c.tx
  let p ← w32 p 16 s.c.rx
  let p ← w32 p 20 s.c.rxBad
  let p ← w32 p 24 s.c.usbBad
  let p ← w32 p 28 s.c.radio
  w32 p 32 s.c.drops

def status (hw : Hw) (seq : Nat) : Op Unit := do
  let p ← lift (statusPayload hw (← get).g)
  reply Msg.stat seq p 36

def diagnosticsPayload (s : Fw) : Checked (Buf UInt8 40) := do
  let p ← w32 (.fill 0) 0 s.c.usbFrames
  let p ← w32 p 4 s.c.usbAccepted
  let p ← w32 p 8 s.c.sendAccepted
  let p ← w32 p 12 s.c.txStarted
  let p ← w32 p 16 s.c.tx
  let p ← w32 p 20 s.c.rx
  let p ← w32 p 24 s.c.rxEventQueued
  let p ← w32 p 28 s.c.rxEventWritten
  let p ← w32 p 32 s.c.drops
  w32 p 36 s.qn

def diagnostics (seq : Nat) : Op Unit := do
  let p ← lift (diagnosticsPayload (← get).g)
  reply Msg.diagnostics seq p 40

/-- The radio packet of `sendAir`, whose payload is the `pn` bytes at `p + 16`. -/
def airPacket (boot air : Nat) (p : Buf UInt8 m) (pn : Nat) (txPacket : Buf UInt8 AD) : Checked (Buf UInt8 AD) := do
  let txPacket ← txPacket.store 0 0x4d
  let txPacket ← txPacket.store 1 0x4c
  let txPacket ← txPacket.store 2 V
  let txPacket ← txPacket.store 3 1
  let txPacket ← txPacket.store 5 0
  let txPacket ← txPacket.store 4 0
  let txPacket ← w32 txPacket 6 boot
  let txPacket ← w32 txPacket 10 air
  let txPacket ← w16 txPacket 14 pn
  let txPacket ← txPacket.memcpy 16 p 16 pn
  w16 txPacket (16 + pn) (← crc txPacket (16 + pn))

/-- `sendAir(b + 16, pn, seq)`. -/
def sendAir (hw : Hw) (b : Buf UInt8 UD) (pn seq : Nat) : Op Unit := do
  let r ← get
  if r.g.ready = false then error seq E.notready 0 Msg.send
  else if r.g.rs = .transmitting ∨ r.g.pending = true then error seq E.busy 0 Msg.send
  else do
    let st := hw.startTransmit
    let (a, airNext) := nextAir r.g.airNext
    let txPacket ← lift (airPacket r.g.boot a b pn r.txPacket)
    modify fun r => { r with txPacket := txPacket, txPacketN := 18 + pn }
    scalars fun s =>
      { s with
        airNext := airNext, irq := false, rs := .transmitting, pending := true, txSession := s.session, txSeq := seq
        txAir := a, txStart := hw.micros, txStartedMillis := hw.millis }
    let packet ← lift (txPacket.slice (18 + pn))
    scalars fun s => s.note (.startTransmit packet st)
    if st ≠ radiolibErrNone then do
      scalars fun s => (s.countRadio.setRs .down).clearPending
      error seq E.radio st Msg.send
      listen hw
    else scalars fun s => s.count fun c => { c with txStarted := c.txStarted + 1 }

/-- A HELLO or another request is kept for a retry, and its sequence is the last. -/
def accept (b : Buf UInt8 UD) (n seq : Nat) : Op Unit := do
  saveReq b n
  scalars fun s => { s with lastSeq := seq }

/-- A request with the last sequence: it is answered again if it is the same. -/
def retry (b : Buf UInt8 UD) (n : Nat) (t : UInt8) (seq : Nat) : Op Unit := do
  let r ← get
  let same ← lift (if r.g.haveLast = true ∧ n = r.lastReqN then b.memcmp r.lastReq n else .ok false)
  if same then putQ r.lastResp r.lastRespN false else error seq E.reused 0 t false

/-- The HELLO branch of `handle`. -/
def handleHello (hw : Hw) (b : Buf UInt8 UD) (n : Nat) (t : UInt8) (ses seq pn : Nat) : Op Unit := do
  let s := (← get).g
  -- an accepted HELLO ends here
  let greet : Op Unit := do
    accept b n seq
    scalars Fw.countAccepted
    info hw seq
  if pn ≠ 0 then errorFor ses seq E.bad 0 t
  else if s.active = true ∧ ses = s.session ∧ s.pending = true then error seq E.busy 0 t false
  else if s.active = false ∨ ses ≠ s.session then do
    resetSession ses
    greet
  else if seq < s.lastSeq then error seq E.stale 0 t false
  else if seq = s.lastSeq then retry b n t seq
  else greet

/-- The end of `handle`: a new request of the active session, by its type. -/
def serve (hw : Hw) (b : Buf UInt8 UD) (n : Nat) (t : UInt8) (seq pn : Nat) : Op Unit := do
  accept b n seq
  scalars fun s => { s with haveLast := false }
  if t = Msg.send then
    if pn = 0 ∨ pn > AM then error seq E.bad 0 t
    else do
      scalars Fw.countAccepted
      scalars fun s => s.count fun c => { c with sendAccepted := c.sendAccepted + 1 }
      sendAir hw b pn seq
  else if t = Msg.getStatus then
    if pn ≠ 0 then error seq E.bad 0 t
    else do
      scalars Fw.countAccepted
      status hw seq
  else if t = Msg.getDiagnostics then
    if pn ≠ 0 then error seq E.bad 0 t
    else do
      scalars Fw.countAccepted
      diagnostics seq
  else error seq E.unsupported 0 t

/-- The branches of `handle` for a type other than HELLO. -/
def handleRequest (hw : Hw) (b : Buf UInt8 UD) (n : Nat) (t : UInt8) (ses seq pn : Nat) : Op Unit := do
  let s := (← get).g
  if s.active = false ∨ ses ≠ s.session then errorFor ses seq E.wrong 0 t
  else if seq < s.lastSeq then error seq E.stale 0 t false
  else if seq = s.lastSeq then if s.pending = true then error seq E.busy 0 t false else retry b n t seq
  else if s.pending = true then error seq E.busy 0 t false
  else serve hw b n t seq pn

def handle (hw : Hw) (b : Buf UInt8 UD) (n : Nat) : Op Unit := do
  let bad ← lift (anyOf [.ok (n < 18), (· != 0x4d) <$> b.load 0, (· != 0x55) <$> b.load 1, (· != V) <$> b.load 2,
    (· != 0) <$> b.load 4, (· != 0) <$> b.load 5, (· + 18 != n) <$> r16 b 14,
    do return (← r16 b (n - 2)) != (← crc b (n - 2))])
  if bad then scalars Fw.countUsbBad
  else do
    let t ← lift (b.load 3)
    let ses ← lift (r32 b 6)
    let seq ← lift (r32 b 10)
    let pn ← lift (r16 b 14)
    if ses = 0 ∨ seq = 0 then scalars Fw.countUsbBad
    else do
      scalars fun s => s.count fun c => { c with usbFrames := c.usbFrames + 1 }
      if t = Msg.hello then handleHello hw b n t ses seq pn else handleRequest hw b n t ses seq pn

/-- One byte read by `usbTask`. -/
def usbByte (hw : Hw) (z : UInt8) : Op Unit := do
  let r ← get
  if z = 0 then do
    when (r.g.over = false ∧ r.inN ≠ 0) do
      match ← lift (dec r.inb r.inN (.fill 0 : Buf UInt8 UD)) with
      | some (n, b) => handle hw b n
      | none => scalars Fw.countUsbBad
    modify fun r => { r with inN := 0, g := { r.g with «over» := false } }
  else if r.g.over then pure ()
  else if r.inN = UE then scalars fun s => { s with «over» := true }.countUsbBad
  else do
    let inb ← lift (r.inb.store r.inN z)
    modify fun r => { r with inb := inb, inN := r.inN + 1 }

/-! ## Start and steps -/

def setup (d : Board) : Op Unit := do
  let boot := if d.boot % 2 ^ 32 = 0 then 1 else d.boot % 2 ^ 32
  let airNext := if d.airNext % 2 ^ 32 = 0 then 1 else d.airNext % 2 ^ 32
  scalars fun _ => { boot := boot, airNext := airNext, mac := d.mac }
  if (← lift protocolSelfTest) = false then scalars Fw.countRadio
  else if d.begun = radiolibErrNone ∧ d.crcOk = true ∧ d.dio2Ok = true then do
    scalars fun s => { s with ready := true }
    listen d.hw
  else scalars Fw.countRadio

end Ram

/-- What a task does: a byte is read, the interrupt comes, or another task of `loop` runs. -/
inductive Job
  | usbByte (hw : Hw) (z : UInt8)
  | isr
  | radioTask (hw : Hw)
  | txWatchdog (hw : Hw)
  | flush (availableForWrite : Int) (written : Nat)
deriving Repr

def Ram.perform : Job → Ram.Op Unit
  | .usbByte hw z => usbByte hw z
  | .isr => scalars Fw.isr
  | .radioTask hw => radioTask hw
  | .txWatchdog hw => txWatchdog hw
  | .flush availableForWrite written => flush availableForWrite written

/-- The same without the arrays. -/
def Job.perform : Job → Fw → Fw
  | .usbByte hw z, s => s.usbByte hw z
  | .isr, s => s.isr
  | .radioTask hw, s => s.radioTask hw
  | .txWatchdog hw, s => s.txWatchdog hw
  | .flush availableForWrite written, s => s.flush availableForWrite written

end LoraLink.Firmware
