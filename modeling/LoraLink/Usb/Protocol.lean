import LoraLink.Lib.Cobs
import LoraLink.Lib.Crc
import Mathlib.Data.Rat.Defs

/-!
# The USB modem protocol, host side

The framing and payload helpers of `protocol.py`. A function that raises `ProtocolError` in the source returns
`none` here. `encodeFrame` builds a frame, `decodeFrame` takes one apart, and a `StreamDecoder` cuts the bytes read
from the port at the zero bytes. The loops keep the source's variables; `Usb/Codec.lean` relates them to the block
form of `Lib/Cobs.lean`.
-/

namespace LoraLink.Protocol

def maxAirPayload : Nat := 200
def maxUsbPayload : Nat := 256
def maxDecoded : Nat := 274

namespace Msg

def hello : Nat := 0x01
def info : Nat := 0x81
def radioSend : Nat := 0x02
def radioTxResult : Nat := 0x82
def getDiagnostics : Nat := 0x04
def diagnostics : Nat := 0x84
def radioRx : Nat := 0x90
def error : Nat := 0xff

end Msg

def errorCodeWrongSession : Nat := 4

def crc16 (data : Bytes) : Nat := (crc 0x1021#16 0xffff#16 data).toNat

/-! ## COBS -/

/-- The variables of the loop of `cobs_encode`. -/
structure CobsState where
  out : Bytes
  code : Nat
  codePos : Nat

def cobsEncodeByte (s : CobsState) (byte : UInt8) : CobsState :=
  if byte = 0 then
    { out := s.out.set s.codePos (UInt8.ofNat s.code) ++ [0], code := 1, codePos := s.out.length }
  else
    let out := s.out ++ [byte]
    let code := s.code + 1
    if code = 0xff then { out := out.set s.codePos (UInt8.ofNat code) ++ [0], code := 1, codePos := out.length }
    else { out := out, code := code, codePos := s.codePos }

def cobsEncode (data : Bytes) : Bytes :=
  if data = [] then [1]
  else
    let s := data.foldl cobsEncodeByte { out := [0], code := 1, codePos := 0 }
    s.out.set s.codePos (UInt8.ofNat s.code)

/-- The loop of `cobs_decode`, with `data[i:]` for the index `i`. Every pass takes a byte off the data, so its length
is fuel enough. -/
def cobsDecodeLoop : Nat → Bytes → Bytes → Option Bytes
  | _, [], out => some out
  | 0, _ :: _, _ => none
  | fuel + 1, code :: rest, out =>
    if code = 0 then none
    else if rest.length < code.toNat - 1 then none
    else
      let out := out ++ rest.take (code.toNat - 1)
      let rest := rest.drop (code.toNat - 1)
      cobsDecodeLoop fuel rest (if code ≠ 0xff ∧ rest ≠ [] then out ++ [0] else out)

def cobsDecode (data : Bytes) : Option Bytes := if data = [] then none else cobsDecodeLoop data.length data []

/-! ## Frames -/

structure Frame where
  msgType : Nat
  session : Nat
  sequence : Nat
  payload : Bytes
deriving DecidableEq, Repr

/-- The bytes of a frame before the checksum. -/
def frameBody (msgType session sequence : Nat) (payload : Bytes) : Bytes :=
  [0x4d, 0x55] ++ [1, UInt8.ofNat msgType, 0, 0] ++ (be32 session ++ be32 sequence ++ be16 payload.length) ++ payload

/-- The bytes of a frame before stuffing. -/
def rawFrame (msgType session sequence : Nat) (payload : Bytes) : Bytes :=
  frameBody msgType session sequence payload ++ be16 (crc16 (frameBody msgType session sequence payload))

def encodeFrame (msgType session sequence : Nat) (payload : Bytes) : Option Bytes :=
  if ¬ msgType ≤ 255 ∨ ¬ (0 < session ∧ session ≤ 0xffffffff) ∨ ¬ sequence ≤ 0xffffffff then none
  else if payload.length > maxUsbPayload then none
  else some (cobsEncode (rawFrame msgType session sequence payload) ++ [0])

/-- The checks of `decode_frame` on the unstuffed bytes. -/
def frameOfBody (body : Bytes) : Option Frame :=
  if body.length < 18 ∨ body.length > maxDecoded ∨ body.take 2 ≠ [0x4d, 0x55] then none
  else if byteAt body 2 ≠ 1 ∨ byteAt body 4 ≠ 0 ∨ byteAt body 5 ≠ 0 then none
  else if u16 (body.drop 14) > maxUsbPayload ∨ body.length ≠ 18 + u16 (body.drop 14) then none
  else if crc16 (body.take (body.length - 2)) ≠ u16 (body.drop (body.length - 2)) then none
  else
    some { msgType := (byteAt body 3).toNat, session := u32 (body.drop 6), sequence := u32 (body.drop 10),
           payload := (body.take (body.length - 2)).drop 16 }

def decodeFrame (encoded : Bytes) : Option Frame := (cobsDecode encoded).bind frameOfBody

/-! ## Radio packets -/

/-- The bytes of a radio packet before the checksum. -/
def radioBody (bootId airSequence : Nat) (payload : Bytes) : Bytes :=
  [0x4d, 0x4c] ++ [1, 1, 0, 0] ++ (be32 bootId ++ be32 airSequence ++ be16 payload.length) ++ payload

def encodeRadio (bootId airSequence : Nat) (payload : Bytes) : Option Bytes :=
  if ¬ (0 < bootId ∧ bootId ≤ 0xffffffff) ∨ ¬ (0 < airSequence ∧ airSequence ≤ 0xffffffff) ∨
      ¬ (0 < payload.length ∧ payload.length ≤ maxAirPayload) then none
  else some (radioBody bootId airSequence payload ++ be16 (crc16 (radioBody bootId airSequence payload)))

def decodeRadio (packet : Bytes) : Option (Nat × Nat × Bytes) :=
  if packet.length < 19 ∨ packet.take 2 ≠ [0x4d, 0x4c] ∨ (packet.drop 2).take 4 ≠ [1, 1, 0, 0] then none
  else
    let n := u16 (packet.drop 14)
    if ¬ (0 < n ∧ n ≤ maxAirPayload) ∨ packet.length ≠ 18 + n ∨
        crc16 (packet.take (packet.length - 2)) ≠ u16 (packet.drop (packet.length - 2)) then none
    else some (u32 (packet.drop 6), u32 (packet.drop 10), (packet.take (packet.length - 2)).drop 16)

/-! ## Payloads -/

structure Info where
  device : Bytes
  bootId : Nat
  capabilities : Nat
  maxAir : Nat
  radioReady : Nat
  profile : Nat
  uptime : Nat
deriving DecidableEq, Repr

def parseInfo (p : Bytes) : Option Info :=
  if p.length ≠ 22 then none
  else
    some { device := p.take 6, bootId := u32 (p.drop 6), capabilities := u32 (p.drop 10), maxAir := u16 (p.drop 14),
           radioReady := (byteAt p 16).toNat, profile := (byteAt p 17).toNat, uptime := u32 (p.drop 18) }

def parseTxResult (p : Bytes) : Option (Nat × Nat × Nat) :=
  if p.length ≠ 12 then none else some (u32 p, u32 (p.drop 4), u32 (p.drop 8))

/-- A 16-bit two's complement number. -/
def s16 (p : Bytes) : Int := if u16 p < 2 ^ 15 then u16 p else (u16 p : Int) - 2 ^ 16

structure RadioRx where
  sender : Nat
  air : Nat
  rssi : ℚ
  snr : ℚ
  uptime : Nat
  payload : Bytes

def parseRadioRx (p : Bytes) : Option RadioRx :=
  if p.length < 16 then none
  else
    some { sender := u32 p, air := u32 (p.drop 4), rssi := s16 (p.drop 8) / 100, snr := s16 (p.drop 10) / 100,
           uptime := u32 (p.drop 12), payload := p.drop 16 }

def parseDiagnostics (p : Bytes) : Option (List Nat) :=
  if p.length ≠ 40 then none else some ((List.range 10).map fun i => u32 (p.drop (4 * i)))

def parseError (p : Bytes) : Option (Nat × Int × Nat) :=
  if p.length ≠ 5 then none else some (u16 p, s16 (p.drop 2), (byteAt p 4).toNat)

/-! ## The stream decoder -/

structure StreamDecoder where
  buffer : Bytes := []
  discarding : Bool := false
  maxEncoded : Nat := 380

/-- One byte of `feed`: the new state and the frame it completed. -/
def StreamDecoder.feedByte (d : StreamDecoder) (byte : UInt8) : StreamDecoder × List Frame :=
  if byte = 0 then
    ({ d with buffer := [], discarding := false },
      if ¬ d.discarding ∧ d.buffer ≠ [] then (decodeFrame d.buffer).toList else [])
  else if ¬ d.discarding then
    let buffer := d.buffer ++ [byte]
    if buffer.length > d.maxEncoded then ({ d with buffer := [], discarding := true }, [])
    else ({ d with buffer := buffer }, [])
  else (d, [])

def StreamDecoder.feed (d : StreamDecoder) : Bytes → StreamDecoder × List Frame
  | [] => (d, [])
  | byte :: data =>
    let (d', frames) := d.feedByte byte
    let (d'', frames') := d'.feed data
    (d'', frames ++ frames')

/-- `split_stream`: what it leaves in the stream, and the frames. -/
def splitStream (stream : Bytes) (maxEncoded : Nat := 380) : Bytes × List Frame :=
  let decoder : StreamDecoder := { maxEncoded := maxEncoded }
  let (decoder, frames) := decoder.feed stream
  (decoder.buffer, frames)

end LoraLink.Protocol
