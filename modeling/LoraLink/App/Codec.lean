import LoraLink.Lib.Crc
import Mathlib.Algebra.Order.Field.Rat
import Mathlib.Data.List.Flatten

/-!
# The application protocol

The frames of `application.py`, RTCM3 validation and fragmentation. The integers of a `Frame` are Python's, so a field
that is out of range is a value like any other and `encode` has to refuse it. A function that raises
`ApplicationError` returns it here, with the reason.

- `decode_encode`, `encode_decode`: what `encode` builds, `decode` reads back, and the other way round;
- `fragment_eq`: every valid frame is fragmented, and its fragments are `pieces`;
- `flatten_fragmentData`: the data of the fragments make up the frame.
-/

namespace LoraLink.Application

def headerSize : Nat := 18
def crcSize : Nat := 2
def maxBodySize : Nat := 180
def maxFrameSize : Nat := 200

def rtcmFragment : Int := 0x30

def rtcmFragmentDataSize : Nat := 174
def maxRtcmFrameSize : Nat := 1029
def maxRtcmFragments : Nat := 6
def maxReassemblies : Nat := 8
def reassemblyTimeoutS : ℚ := 6 / 10
def rtcmTransportTtlMs : Int := 1000

/-- Why `ApplicationError` was raised. -/
inductive ApplicationError
  | messageTypeOutOfRange
  | senderSessionOutOfRange
  | messageIdOutOfRange
  | sourceAgeOutOfRange
  | bodyTooLarge
  | frameSize
  | frameHeader
  | zeroIdentity
  | frameLength
  | frameCrc
  | invalidRtcm3Frame
  | rtcmFrame
  | tooManyRtcmFragments
  | rtcmFragmentBody
  | staleRtcmFragment
  | rtcmFragmentShape
  | expiredOrCompleted
  | metadataConflict
  | dataConflict
  | assembledRtcmFrame
  | stopBody
  | localSession
  | notAStopRequest
deriving DecidableEq, Repr

structure Frame where
  typ : Int
  senderSession : Int
  messageId : Int
  sourceAgeMs : Int
  body : Bytes
deriving DecidableEq, Repr

def crc16 (data : Bytes) : Nat := (crc 0x1021#16 0xffff#16 data).toNat

def crc24q (data : Bytes) : Nat := (crc 0x864cfb#24 0#24 data).toNat

/-! ## The codec -/

/-- `header_and_body` of `encode`. -/
def headerAndBody (f : Frame) : Bytes :=
  [0x4d, 0x41] ++ [1, UInt8.ofNat f.typ.toNat, 0, 0] ++
    (be32 f.senderSession.toNat ++ be32 f.messageId.toNat ++ be16 f.sourceAgeMs.toNat ++ be16 f.body.length) ++ f.body

def encode (f : Frame) : Except ApplicationError Bytes :=
  if ¬ (0 ≤ f.typ ∧ f.typ ≤ 0xff) then .error .messageTypeOutOfRange
  else if ¬ (0 < f.senderSession ∧ f.senderSession ≤ 0xffffffff) then .error .senderSessionOutOfRange
  else if ¬ (0 < f.messageId ∧ f.messageId ≤ 0xffffffff) then .error .messageIdOutOfRange
  else if ¬ (0 ≤ f.sourceAgeMs ∧ f.sourceAgeMs ≤ 0xffff) then .error .sourceAgeOutOfRange
  else if f.body.length > maxBodySize then .error .bodyTooLarge
  else .ok (headerAndBody f ++ be16 (crc16 (headerAndBody f)))

def decode (raw : Bytes) : Except ApplicationError Frame :=
  if ¬ (headerSize + crcSize ≤ raw.length ∧ raw.length ≤ maxFrameSize) then .error .frameSize
  else if raw.take 2 ≠ [0x4d, 0x41] ∨ byteAt raw 2 ≠ 1 ∨ byteAt raw 4 ≠ 0 ∨ byteAt raw 5 ≠ 0 then .error .frameHeader
  else if u32 (raw.drop 6) = 0 ∨ u32 (raw.drop 10) = 0 then .error .zeroIdentity
  else if u16 (raw.drop 16) > maxBodySize ∨ raw.length ≠ headerSize + u16 (raw.drop 16) + 2 then .error .frameLength
  else if crc16 (raw.take (raw.length - 2)) ≠ u16 (raw.drop (raw.length - 2)) then .error .frameCrc
  else
    .ok { typ := (byteAt raw 3).toNat, senderSession := u32 (raw.drop 6), messageId := u32 (raw.drop 10)
          sourceAgeMs := u16 (raw.drop 14), body := (raw.take (raw.length - 2)).drop headerSize }

/-! ## RTCM3 frames -/

def validRtcm3 (raw : Bytes) : Bool :=
  if raw.length < 6 ∨ byteAt raw 0 ≠ 0xd3 ∨ byteAt raw 1 &&& 0xfc ≠ 0 then false
  else
    let payloadLength := (byteAt raw 1 &&& 0x03).toNat * 2 ^ 8 + (byteAt raw 2).toNat
    decide (raw.length = payloadLength + 6) &&
      decide (crc24q (raw.take (raw.length - 3)) = u24 (raw.drop (raw.length - 3)))

/-- The length field has ten bits. -/
theorem length_of_validRtcm3 {raw : Bytes} (h : validRtcm3 raw = true) : raw.length ≤ maxRtcmFrameSize := by
  unfold validRtcm3 at h
  split at h
  · cases h
  · simp only [Bool.and_eq_true, decide_eq_true_eq] at h
    have hlow : (byteAt raw 1 &&& 0x03).toNat ≤ 3 := by
      rw [UInt8.toNat_and]
      exact Nat.and_le_right
    have hbyte := (byteAt raw 2).toNat_lt
    simp only [maxRtcmFrameSize]
    omega

/-- There is room for the header and the checksum. -/
theorem le_length_of_validRtcm3 {raw : Bytes} (h : validRtcm3 raw = true) : 6 ≤ raw.length := by
  unfold validRtcm3 at h
  split at h
  · cases h
  · rename_i hshape
    simp only [not_or] at hshape
    omega

/-- The message number of a frame that is valid. -/
def typeBits (raw : Bytes) : Nat := u16 (raw.drop 3) / 2 ^ 4

def rtcmType (raw : Bytes) : Except ApplicationError Nat :=
  if validRtcm3 raw = false then .error .invalidRtcm3Frame else .ok (typeBits raw)

/-! ## Fragmentation -/

def fragmentCount (length : Nat) : Nat := (length + rtcmFragmentDataSize - 1) / rtcmFragmentDataSize

/-- The data of one fragment. -/
def fragmentData (raw : Bytes) (index : Nat) : Bytes :=
  (raw.drop (index * rtcmFragmentDataSize)).take rtcmFragmentDataSize

/-- The fragment header: type, length, index and count. -/
def fragmentHeader (type length index count : Nat) : Bytes :=
  be16 type ++ be16 length ++ [UInt8.ofNat index, UInt8.ofNat count]

/-- One pass of the loop of `fragment`. -/
def piece (raw : Bytes) (senderSession messageId ageMs : Int) (index : Nat) : Frame :=
  { typ := rtcmFragment, senderSession := senderSession, messageId := messageId, sourceAgeMs := ageMs
    body := fragmentHeader (typeBits raw) raw.length index (fragmentCount raw.length) ++ fragmentData raw index }

def fragment (raw : Bytes) (senderSession messageId : Int) (ageMs : Int := 0) :
    Except ApplicationError (List Frame) :=
  if validRtcm3 raw = false ∨ raw.length > maxRtcmFrameSize then .error .rtcmFrame
  else if fragmentCount raw.length > maxRtcmFragments then .error .tooManyRtcmFragments
  else .ok ((List.range (fragmentCount raw.length)).map (piece raw senderSession messageId ageMs))

/-- A frame of `n` zero bytes between its header and its checksum. -/
def zeroFrame (n : Nat) : Bytes :=
  let headerAndPayload := [0xd3, UInt8.ofNat (n / 2 ^ 8), UInt8.ofNat n] ++ List.replicate n 0
  headerAndPayload ++ be24 (crc24q headerAndPayload)

/-! ## The codec, read back -/

theorem length_headerAndBody (f : Frame) : (headerAndBody f).length = headerSize + f.body.length := by
  simp [headerAndBody, headerSize]
  omega

/-- The fields of an encoded frame, at their offsets. -/
theorem headerAndBody_fields (f : Frame) (rest : Bytes) :
    (headerAndBody f ++ rest).take 2 = [0x4d, 0x41] ∧ byteAt (headerAndBody f ++ rest) 2 = 1 ∧
      byteAt (headerAndBody f ++ rest) 3 = UInt8.ofNat f.typ.toNat ∧ byteAt (headerAndBody f ++ rest) 4 = 0 ∧
      byteAt (headerAndBody f ++ rest) 5 = 0 :=
  ⟨rfl, rfl, rfl, rfl, rfl⟩

theorem headerAndBody_session (f : Frame) (rest : Bytes) :
    u32 ((headerAndBody f ++ rest).drop 6) = f.senderSession.toNat % 2 ^ 32 := by
  rw [← u32_be32 _ (be32 f.messageId.toNat ++ be16 f.sourceAgeMs.toNat ++ be16 f.body.length ++ f.body ++ rest)]
  simp [headerAndBody]

theorem headerAndBody_messageId (f : Frame) (rest : Bytes) :
    u32 ((headerAndBody f ++ rest).drop 10) = f.messageId.toNat % 2 ^ 32 := by
  rw [← u32_be32 _ (be16 f.sourceAgeMs.toNat ++ be16 f.body.length ++ f.body ++ rest)]
  simp [headerAndBody, be32]

theorem headerAndBody_sourceAge (f : Frame) (rest : Bytes) :
    u16 ((headerAndBody f ++ rest).drop 14) = f.sourceAgeMs.toNat % 2 ^ 16 := by
  rw [← u16_be16 _ (be16 f.body.length ++ f.body ++ rest)]
  simp [headerAndBody, be32]

theorem headerAndBody_length (f : Frame) (rest : Bytes) :
    u16 ((headerAndBody f ++ rest).drop 16) = f.body.length % 2 ^ 16 := by
  rw [← u16_be16 _ (f.body ++ rest)]
  simp [headerAndBody, be32, be16]

/-- What `encode` accepts, and what it makes of it. -/
theorem encode_ok {f : Frame} {raw : Bytes} (h : encode f = .ok raw) :
    (0 ≤ f.typ ∧ f.typ ≤ 0xff) ∧ (0 < f.senderSession ∧ f.senderSession ≤ 0xffffffff) ∧
      (0 < f.messageId ∧ f.messageId ≤ 0xffffffff) ∧ (0 ≤ f.sourceAgeMs ∧ f.sourceAgeMs ≤ 0xffff) ∧
      f.body.length ≤ maxBodySize ∧ raw = headerAndBody f ++ be16 (crc16 (headerAndBody f)) := by
  unfold encode at h
  split at h; · cases h
  split at h; · cases h
  split at h; · cases h
  split at h; · cases h
  split at h; · cases h
  rename_i h1 h2 h3 h4 h5
  refine ⟨not_not.mp h1, not_not.mp h2, not_not.mp h3, not_not.mp h4, Nat.le_of_not_gt h5, ?_⟩
  injection h with h
  exact h.symm

theorem length_encode {f : Frame} {raw : Bytes} (h : encode f = .ok raw) : raw.length ≤ maxFrameSize := by
  obtain ⟨-, -, -, -, hbody, rfl⟩ := encode_ok h
  rw [List.length_append, length_headerAndBody, length_be16]
  simp only [headerSize, maxBodySize, maxFrameSize] at *
  omega

/-- What `encode` builds, `decode` reads back. -/
theorem decode_encode {f : Frame} {raw : Bytes} (h : encode f = .ok raw) : decode raw = .ok f := by
  have hmax := length_encode h
  obtain ⟨htyp, hsession, hid, hage, hbody, rfl⟩ := encode_ok h
  obtain ⟨hmagic, hversion, htype, h4, h5⟩ := headerAndBody_fields f (be16 (crc16 (headerAndBody f)))
  have hcrc : crc16 (headerAndBody f) < 2 ^ 16 := crc_lt _ _ _
  generalize hraw : headerAndBody f ++ be16 (crc16 (headerAndBody f)) = raw at *
  have hlen : raw.length = headerSize + f.body.length + 2 := by
    rw [← hraw, List.length_append, length_headerAndBody, length_be16]
  have htake : raw.take (raw.length - 2) = headerAndBody f := by
    rw [hlen, ← hraw]
    exact List.take_left' (length_headerAndBody f)
  have hdrop : raw.drop (raw.length - 2) = be16 (crc16 (headerAndBody f)) ++ [] := by
    rw [hlen, ← hraw, List.append_nil]
    exact List.drop_left' (length_headerAndBody f)
  have hs : u32 (raw.drop 6) = f.senderSession.toNat := by
    rw [← hraw, headerAndBody_session]
    omega
  have hi : u32 (raw.drop 10) = f.messageId.toNat := by
    rw [← hraw, headerAndBody_messageId]
    omega
  have ha : u16 (raw.drop 14) = f.sourceAgeMs.toNat := by
    rw [← hraw, headerAndBody_sourceAge]
    omega
  have hl : u16 (raw.drop 16) = f.body.length := by
    rw [← hraw, headerAndBody_length]
    simp only [maxBodySize] at hbody
    omega
  unfold decode
  rw [if_neg, if_neg, if_neg, if_neg, if_neg]
  · have hb : (raw.take (raw.length - 2)).drop headerSize = f.body := by
      rw [htake]
      rfl
    have ht : (UInt8.ofNat f.typ.toNat).toNat = f.typ.toNat := UInt8.toNat_ofNat_of_lt' (by simp; omega)
    rw [hb, hs, hi, ha, htype, ht]
    cases f
    simp only at *
    congr 2 <;> omega
  · rw [htake, hdrop, u16_be16]
    omega
  · rw [hl]
    omega
  · rw [hs, hi]
    omega
  · simp [hmagic, hversion, h4, h5]
  · simp only [headerSize, crcSize] at *
    omega

/-- The ranges of the fields. -/
structure Encodable (f : Frame) : Prop where
  typ : 0 ≤ f.typ ∧ f.typ ≤ 255
  senderSession : 1 ≤ f.senderSession ∧ f.senderSession ≤ 2 ^ 32 - 1
  messageId : 1 ≤ f.messageId ∧ f.messageId ≤ 2 ^ 32 - 1
  sourceAgeMs : 0 ≤ f.sourceAgeMs ∧ f.sourceAgeMs ≤ 65535
  body : f.body.length ≤ 180

/-- `encode` accepts the frames whose fields are in range. -/
theorem encode_isOk {f : Frame} : (∃ raw, encode f = .ok raw) ↔ Encodable f := by
  constructor
  · rintro ⟨raw, h⟩
    obtain ⟨htyp, hsession, hid, hage, hbody, -⟩ := encode_ok h
    exact ⟨htyp, ⟨hsession.1, hsession.2⟩, ⟨hid.1, hid.2⟩, hage, hbody⟩
  · rintro ⟨htyp, hsession, hid, hage, hbody⟩
    refine ⟨headerAndBody f ++ be16 (crc16 (headerAndBody f)), ?_⟩
    unfold encode
    rw [if_neg (not_not.mpr htyp), if_neg (by omega), if_neg (by omega), if_neg (not_not.mpr hage),
      if_neg (show ¬ f.body.length > maxBodySize from Nat.not_lt.mpr hbody)]

/-- The checks that a byte string passes when it is decoded. -/
theorem decode_ok {raw : Bytes} {f : Frame} (h : decode raw = .ok f) :
    raw.take 2 = [0x4d, 0x41] ∧ byteAt raw 2 = 1 ∧ byteAt raw 4 = 0 ∧ byteAt raw 5 = 0 ∧ u32 (raw.drop 6) ≠ 0 ∧
      u32 (raw.drop 10) ≠ 0 ∧ u16 (raw.drop 16) ≤ maxBodySize ∧ raw.length = headerSize + u16 (raw.drop 16) + 2 ∧
      crc16 (raw.take (raw.length - 2)) = u16 (raw.drop (raw.length - 2)) ∧
      f = { typ := (byteAt raw 3).toNat, senderSession := u32 (raw.drop 6), messageId := u32 (raw.drop 10)
            sourceAgeMs := u16 (raw.drop 14), body := (raw.take (raw.length - 2)).drop headerSize } := by
  unfold decode at h
  split at h; · cases h
  split at h; · cases h
  split at h; · cases h
  split at h; · cases h
  split at h; · cases h
  rename_i hsize hheader hidentity hlength hcrc
  simp only [not_or, not_not, Nat.not_lt] at hheader hidentity hlength hcrc
  injection h with h
  exact ⟨hheader.1, hheader.2.1, hheader.2.2.1, hheader.2.2.2, hidentity.1, hidentity.2, hlength.1, hlength.2,
    hcrc, h.symm⟩

/-- The parts of the header. -/
theorem take_header (raw : Bytes) : raw.take headerSize = raw.take 2 ++ ((raw.drop 2).take 4 ++ ((raw.drop 6).take 4 ++
    ((raw.drop 10).take 4 ++ ((raw.drop 14).take 2 ++ (raw.drop 16).take 2)))) := by
  rw [show headerSize = 2 + (4 + (4 + (4 + (2 + 2)))) from rfl, List.take_add, List.take_add, List.take_add,
    List.take_add, List.take_add]
  simp only [List.drop_drop, Nat.reduceAdd]

/-- What `decode` reads, `encode` builds again. -/
theorem encode_decode {raw : Bytes} {f : Frame} (h : decode raw = .ok f) : encode f = .ok raw := by
  obtain ⟨hmagic, hversion, h4, h5, hsession, hid, hbody, hlength, hcrc, rfl⟩ := decode_ok h
  simp only [headerSize, maxBodySize] at hlength hbody
  have htake : raw.take (raw.length - 2) = raw.take headerSize ++ (raw.take (raw.length - 2)).drop headerSize := by
    have hless : min headerSize (raw.length - 2) = headerSize := by
      rw [headerSize]
      omega
    have hfront : (raw.take (raw.length - 2)).take headerSize = raw.take headerSize := by rw [List.take_take, hless]
    rw [← hfront, List.take_append_drop]
  have hbodyLength : ((raw.take (raw.length - 2)).drop headerSize).length = u16 (raw.drop 16) := by
    rw [List.length_drop, List.length_take, headerSize]
    omega
  generalize (raw.take (raw.length - 2)).drop headerSize = body at *
  have hheader : headerAndBody { typ := (byteAt raw 3).toNat, senderSession := u32 (raw.drop 6)
                                 messageId := u32 (raw.drop 10), sourceAgeMs := u16 (raw.drop 14), body := body } =
      raw.take (raw.length - 2) := by
    have hfour : (raw.drop 2).take 4 = [1, UInt8.ofNat (byteAt raw 3).toNat, 0, 0] := by
      rw [take_four (by rw [List.length_drop]; omega)]
      simp only [byteAt_drop, Nat.reduceAdd, hversion, h4, h5, UInt8.ofNat_toNat]
    rw [htake, take_header, hmagic, hfour, ← be32_u32 (by rw [List.length_drop]; omega),
      ← be32_u32 (by rw [List.length_drop]; omega), ← be16_u16 (by rw [List.length_drop]; omega),
      ← be16_u16 (by rw [List.length_drop]; omega), ← hbodyLength]
    simp only [headerAndBody, Int.toNat_natCast, List.append_assoc]
  have hs := u32_lt (raw.drop 6)
  have hi := u32_lt (raw.drop 10)
  have ha := u16_lt (raw.drop 14)
  have ht := (byteAt raw 3).toNat_lt
  have hcrcBytes : be16 (u16 (raw.drop (raw.length - 2))) = raw.drop (raw.length - 2) := by
    rw [be16_u16 (by rw [List.length_drop]; omega)]
    exact List.take_of_length_le (by rw [List.length_drop]; omega)
  unfold encode
  rw [if_neg, if_neg, if_neg, if_neg, if_neg]
  · rw [hheader, hcrc, hcrcBytes, List.take_append_drop]
  · simp only [maxBodySize]
    omega
  all_goals
    simp only
    omega

/-- **The codec is a bijection** between the frames whose fields are in range and the byte strings that `decode`
accepts. -/
theorem codec_bijection :
    (∀ f, (∃ raw, encode f = .ok raw) ↔ Encodable f) ∧ (∀ f raw, encode f = .ok raw ↔ decode raw = .ok f) ∧
      (∀ raw, (∃ f, encode f = .ok raw) ↔ raw.length ≤ 200 ∧ ∃ f, decode raw = .ok f) ∧
      ∀ raw, (∃ e, decode raw = .error e) ↔ ¬ ∃ f, encode f = .ok raw := by
  have hiff : ∀ f raw, encode f = .ok raw ↔ decode raw = .ok f := fun f raw => ⟨decode_encode, encode_decode⟩
  refine ⟨fun f => encode_isOk, hiff, fun raw => ⟨?_, ?_⟩, fun raw => ⟨?_, ?_⟩⟩
  · rintro ⟨f, h⟩
    exact ⟨length_encode h, f, (hiff f raw).mp h⟩
  · rintro ⟨-, f, h⟩
    exact ⟨f, (hiff f raw).mpr h⟩
  · rintro ⟨e, he⟩ ⟨f, h⟩
    rw [(hiff f raw).mp h] at he
    cases he
  · intro hno
    cases h : decode raw with
    | error e => exact ⟨e, rfl⟩
    | ok f => exact absurd ⟨f, (hiff f raw).mpr h⟩ hno

/-! ## The fragments of a frame -/

/-- The fragments of a frame, with source age zero. -/
def pieces (raw : Bytes) (senderSession messageId : Int) : List Frame :=
  (List.range (fragmentCount raw.length)).map (piece raw senderSession messageId 0)

theorem fragmentCount_le {n : Nat} (h : n ≤ maxRtcmFrameSize) : fragmentCount n ≤ maxRtcmFragments := by
  simp only [fragmentCount, rtcmFragmentDataSize, maxRtcmFrameSize, maxRtcmFragments] at *
  omega

theorem fragment_eq_map {raw : Bytes} (h : validRtcm3 raw = true) (s id age : Int) :
    fragment raw s id age = .ok ((List.range (fragmentCount raw.length)).map (piece raw s id age)) := by
  have hl := length_of_validRtcm3 h
  unfold fragment
  rw [if_neg, if_neg (Nat.not_lt.mpr (fragmentCount_le hl))]
  simp [h, hl]

theorem fragment_eq {raw : Bytes} (h : validRtcm3 raw = true) (s id : Int) :
    fragment raw s id = .ok (pieces raw s id) := fragment_eq_map h s id 0

/-- The fields of a fragment are in range. -/
theorem encodable_piece (raw : Bytes) {s id age : Int} (hs : 1 ≤ s ∧ s ≤ 2 ^ 32 - 1) (hid : 1 ≤ id ∧ id ≤ 2 ^ 32 - 1)
    (hage : 0 ≤ age ∧ age ≤ 65535) (index : Nat) : Encodable (piece raw s id age index) := by
  refine ⟨show (0 : Int) ≤ 0x30 ∧ (0x30 : Int) ≤ 255 by decide, hs, hid, hage, ?_⟩
  simp only [piece, fragmentHeader, fragmentData, be16, List.length_append, List.length_cons, List.length_nil,
    List.length_take, rtcmFragmentDataSize]
  omega

/-- A frame is fragmented into its pieces or not at all. -/
theorem fragment_ok {raw : Bytes} {s id : Int} {fs : List Frame} (h : fragment raw s id = .ok fs) :
    validRtcm3 raw = true ∧ fs = pieces raw s id := by
  unfold fragment at h
  split at h; · cases h
  split at h; · cases h
  rename_i hvalid _
  injection h with h
  rw [not_or, Bool.not_eq_false] at hvalid
  exact ⟨hvalid.1, h.symm⟩

/-- The data of the fragments make up the frame. -/
theorem flatten_fragmentData (raw : Bytes) :
    ((List.range (fragmentCount raw.length)).map (fragmentData raw)).flatten = raw := by
  refine (flatten_chunks raw rtcmFragmentDataSize _).trans (List.take_of_length_le ?_)
  simp only [fragmentCount, rtcmFragmentDataSize]
  omega

end LoraLink.Application
