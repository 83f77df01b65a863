import LoraLink.Lib.Crc

/-!
# The modem firmware: constants, buffers and frames

The constants, the state types and the pure byte functions of `main.cpp`. The integers of the source are `uint32_t`
and narrower; they are natural numbers here, and a place where one wraps says so. The counters of `struct C` are kept
unwrapped: they are only incremented, and `w32` writes their low 32 bits.
-/

namespace LoraLink.Firmware

/-- The size of a decoded USB frame, of the largest opaque payload, of a radio packet, of the USB input buffer, and
the number of slots of the output queue. -/
def UD : Nat := 274
def AM : Nat := 200
def AD : Nat := 218
def UE : Nat := 278
def QD : Nat := 6
def txWatchdogMs : Nat := 2000

/-- The protocol version. -/
def V : UInt8 := 1

namespace Msg

def hello : UInt8 := 1
def send : UInt8 := 2
def getStatus : UInt8 := 3
def getDiagnostics : UInt8 := 4
def info : UInt8 := 0x81
def txok : UInt8 := 0x82
def stat : UInt8 := 0x83
def diagnostics : UInt8 := 0x84
def rxEvent : UInt8 := 0x90
def err : UInt8 := 0xff

end Msg

namespace E

def unsupported : Nat := 1
def bad : Nat := 2
def notready : Nat := 3
def wrong : Nat := 4
def busy : Nat := 5
def stale : Nat := 6
def reused : Nat := 7
def radio : Nat := 8

end E

/-- The driver results the firmware names. -/
def radiolibErrNone : Int := 0
def radiolibErrUnknown : Int := -1

inductive RS
  | down
  | recv
  | transmitting
deriving DecidableEq, Repr

def RS.toByte : RS → UInt8
  | .down => 0
  | .recv => 1
  | .transmitting => 2

/-- The counters `c`. -/
structure C where
  tx : Nat := 0
  rx : Nat := 0
  rxBad : Nat := 0
  usbBad : Nat := 0
  radio : Nat := 0
  drops : Nat := 0
  usbFrames : Nat := 0
  usbAccepted : Nat := 0
  sendAccepted : Nat := 0
  txStarted : Nat := 0
  rxEventQueued : Nat := 0
  rxEventWritten : Nat := 0
deriving DecidableEq, Repr

/-- A slot of the output queue: the first `n` bytes of its buffer, and whether it is an event. -/
structure F where
  b : Bytes := []
  event : Bool := false
deriving DecidableEq, Repr

/-! ## Bytes -/

def crc (d : Bytes) : Nat := (LoraLink.crc 0x1021#16 0xffff#16 d).toNat

def w16 (x : Nat) : Bytes := be16 x
def w32 (x : Nat) : Bytes := be32 x
def r16 (p : Bytes) : Nat := u16 p
def r32 (p : Bytes) : Nat := u32 p

/-- The variables of the loop of `enc`; `wi` is the length of `o`, the slot at `ci` is filled in later. -/
structure EncState where
  o : Bytes
  ci : Nat
  code : Nat

def encByte (s : EncState) (x : UInt8) : EncState :=
  if x = 0 then { o := s.o.set s.ci (UInt8.ofNat s.code) ++ [0], ci := s.o.length, code := 1 }
  else
    let o := s.o ++ [x]
    let code := s.code + 1
    if code = 0xff then { o := o.set s.ci (UInt8.ofNat code) ++ [0], ci := o.length, code := 1 }
    else { o := o, ci := s.ci, code := code }

def enc (a : Bytes) : Bytes :=
  let s := a.foldl encByte { o := [0], ci := 0, code := 1 }
  s.o.set s.ci (UInt8.ofNat s.code)

/-- The loop of `dec`, on the input from `ri` on. Every pass takes a byte off it, so its length is fuel enough. -/
def decLoop : Nat → Bytes → Bytes → Option Bytes
  | _, [], o => some o
  | 0, _ :: _, _ => none
  | fuel + 1, code :: rest, o =>
    if code = 0 ∨ rest.length < code.toNat - 1 then none
    -- the inner loop stops at the first byte that does not fit
    else if UD < o.length + (code.toNat - 1) then none
    else
      let o := o ++ rest.take (code.toNat - 1)
      let rest := rest.drop (code.toNat - 1)
      if code ≠ 0xff ∧ rest ≠ [] then if UD ≤ o.length then none else decLoop fuel rest (o ++ [0])
      else decLoop fuel rest o

def dec (a : Bytes) : Option Bytes := decLoop a.length a []

/-- The first 16 bytes of a frame and its payload. -/
def frameHead (type : UInt8) (ses seq : Nat) (p : Bytes) : Bytes :=
  [0x4d, 0x55, V, type, 0, 0] ++ w32 ses ++ w32 seq ++ w16 p.length ++ p

def frame (type : UInt8) (ses seq : Nat) (p : Bytes) : Bytes :=
  frameHead type ses seq p ++ w16 (crc (frameHead type ses seq p))

def protocolSelfTest : Bool :=
  let crcVector : Bytes := [0x31, 0x32, 0x33, 0x34, 0x35, 0x36, 0x37, 0x38, 0x39]
  let usbVector : Bytes := [0x4d, 0x55, 1, 0x03, 0, 0, 0, 0, 0, 1, 0, 0, 0, 2, 0, 0, 0xec, 0x59]
  if crc crcVector ≠ 0x29b1 ∨ crc (usbVector.take 16) ≠ r16 (usbVector.drop 16) then false
  else dec (enc usbVector) = some usbVector

/-! ## The fields of a frame -/

def typeOf (b : Bytes) : UInt8 := byteAt b 3
def sessionOf (b : Bytes) : Nat := r32 (b.drop 6)
def seqOf (b : Bytes) : Nat := r32 (b.drop 10)
def lengthOf (b : Bytes) : Nat := r16 (b.drop 14)
def payloadOf (b : Bytes) : Bytes := (b.drop 16).take (lengthOf b)

/-- The integrity check at the top of `handle`. -/
def wellFormed (b : Bytes) : Bool :=
  decide (18 ≤ b.length) && byteAt b 0 == 0x4d && byteAt b 1 == 0x55 && byteAt b 2 == V && byteAt b 4 == 0 &&
    byteAt b 5 == 0 && lengthOf b + 18 == b.length && r16 (b.drop (b.length - 2)) == crc (b.take (b.length - 2))

/-! ## Payloads and packets -/

/-- The payload of an error: its code, the driver detail as 16 bits, and the rejected type. -/
def errorPayload (code : Nat) (detail : Int) (type : UInt8) : Bytes :=
  w16 code ++ w16 (detail.emod (2 ^ 16)).toNat ++ [type]

/-- The packet buffer, zero behind what was read. -/
def radioBuffer (packet : Bytes) : Bytes := packet.take AD ++ List.replicate (AD - packet.length) 0

/-- The next air sequence and the counter behind it: zero is skipped when the 32 bits wrap. -/
def nextAir (airNext : Nat) : Nat × Nat :=
  let next := (airNext + 1) % 2 ^ 32
  if airNext = 0 then (next, (next + 1) % 2 ^ 32) else (airNext, next)

/-- The radio packet before its checksum. -/
def airHead (boot air : Nat) (p : Bytes) : Bytes := [0x4d, 0x4c, V, 1, 0, 0] ++ w32 boot ++ w32 air ++ w16 p.length ++ p

def airPacket (boot air : Nat) (p : Bytes) : Bytes := airHead boot air p ++ w16 (crc (airHead boot air p))

theorem protocolSelfTest_passes : protocolSelfTest = true := by decide +kernel

/-! ## The fields of a built frame -/

theorem typeOf_frame (type : UInt8) (ses seq : Nat) (p : Bytes) : typeOf (frame type ses seq p) = type := rfl

theorem sessionOf_frame (type : UInt8) (ses seq : Nat) (p : Bytes) :
    sessionOf (frame type ses seq p) = ses % 2 ^ 32 := by
  have h := u32_be32 ses (w32 seq ++ w16 p.length ++ p ++ w16 (crc (frameHead type ses seq p)))
  rw [← h]
  simp [sessionOf, frame, frameHead, r32, w32]

theorem seqOf_frame (type : UInt8) (ses seq : Nat) (p : Bytes) : seqOf (frame type ses seq p) = seq % 2 ^ 32 := by
  have h := u32_be32 seq (w16 p.length ++ p ++ w16 (crc (frameHead type ses seq p)))
  rw [← h]
  simp [seqOf, frame, frameHead, r32, w32, be32]

theorem sessionOf_lt (b : Bytes) : sessionOf b < 2 ^ 32 := u32_lt _

theorem seqOf_lt (b : Bytes) : seqOf b < 2 ^ 32 := u32_lt _

theorem lengthOf_frame (type : UInt8) (ses seq : Nat) (p : Bytes) :
    lengthOf (frame type ses seq p) = p.length % 2 ^ 16 := by
  have h := u16_be16 p.length (p ++ w16 (crc (frameHead type ses seq p)))
  rw [← h]
  simp [lengthOf, frame, frameHead, r16, w16, w32, be32]

theorem length_frame (type : UInt8) (ses seq : Nat) (p : Bytes) : (frame type ses seq p).length = 18 + p.length := by
  simp [frame, frameHead, w16, w32]; omega

theorem payloadOf_frame {type : UInt8} {ses seq : Nat} {p : Bytes} (h : p.length < 2 ^ 16) :
    payloadOf (frame type ses seq p) = p := by
  rw [payloadOf, lengthOf_frame, Nat.mod_eq_of_lt h]
  simp [frame, frameHead, w16, w32, be32, be16]

end LoraLink.Firmware
