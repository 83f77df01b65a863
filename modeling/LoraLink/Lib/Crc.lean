import LoraLink.Lib.Bytes
import Mathlib.Logic.Function.Iterate

/-!
# Cyclic redundancy checks with a left-shifting register

A register of `w` bits takes the bytes most significant bit first: `crcByte` folds a byte into the top of the
register and shifts it out with `crcBit`, and `crc` folds a whole byte string.
-/

namespace LoraLink

variable {w : Nat}

/-- One shift of the register: the polynomial is added when a one leaves at the top. -/
def crcBit (poly x : BitVec w) : BitVec w := if x.msb then (x <<< 1) ^^^ poly else x <<< 1

def crcByte (poly x : BitVec w) (byte : UInt8) : BitVec w :=
  (crcBit poly)^[8] (x ^^^ (byte.toBitVec.setWidth w <<< (w - 8)))

def crc (poly init : BitVec w) (data : Bytes) : BitVec w := data.foldl (crcByte poly) init

theorem crc_append (poly init : BitVec w) (a b : Bytes) : crc poly init (a ++ b) = crc poly (crc poly init a) b :=
  List.foldl_append

theorem crc_lt (poly init : BitVec w) (data : Bytes) : (crc poly init data).toNat < 2 ^ w := (crc poly init data).isLt

end LoraLink
