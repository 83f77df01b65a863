import LoraLink.App.RtcmStream

/-!
# Synthetic RTCM3 frames

`synthetic_rtcm` of `application.py`, the generator of the benches. Its arguments are Python's integers.

- `synthetic_valid`: whatever is generated is a valid frame, of at least eight bytes;
- `synthetic_correct_iff`: it is the frame that was asked for from eight bytes on.
-/

namespace LoraLink.Application

open Rtcm Rtcm.RtcmStreamParser

inductive SyntheticError
  | syntheticRtcmLength
deriving DecidableEq, Repr

/-- `payload[:2] = type`: the slice is replaced, so a shorter payload grows. -/
def setFirstTwo (payload type : Bytes) : Bytes := type ++ payload.drop 2

/-- The payload of `length - 6` bytes, with the 12 bits of the type and four zero bits first. -/
def syntheticPayload (messageType : Int) (length : Nat) (seed : Int) : Bytes :=
  let payload := setFirstTwo (List.replicate (length - 6) 0) (be16 (messageType * 2 ^ 4 % 2 ^ 16).toNat)
  (List.range' 2 (payload.length - 2)).foldl
    (fun payload index => payload.set index (UInt8.ofNat ((seed * 31 + index * 17) % 2 ^ 8).toNat)) payload

def syntheticRtcm (messageType length : Int) (seed : Int := 0) : Except SyntheticError Bytes :=
  if ¬ (6 ≤ length ∧ length ≤ maxRtcmFrameSize) then .error .syntheticRtcmLength
  else
    let payload := syntheticPayload messageType length.toNat seed
    let header := [0xd3] ++ [UInt8.ofNat (payload.length / 2 ^ 8) &&& 0x03, UInt8.ofNat payload.length]
    let headerAndPayload := header ++ payload
    .ok (headerAndPayload ++ be24 (crc24q headerAndPayload))

/-! ## The payload -/

/-- The loop changes neither the length nor the first two bytes. -/
theorem fold_set (f : Nat → UInt8) (l : List Nat) (hl : ∀ i ∈ l, 2 ≤ i) : ∀ payload : Bytes,
    (l.foldl (fun payload index => payload.set index (f index)) payload).length = payload.length ∧
      (l.foldl (fun payload index => payload.set index (f index)) payload).take 2 = payload.take 2 := by
  induction l with
  | nil => exact fun payload => ⟨rfl, rfl⟩
  | cons i l ih =>
    intro payload
    obtain ⟨hlength, htake⟩ := ih (fun j hj => hl j (List.mem_cons_of_mem _ hj)) (payload.set i (f i))
    rw [List.foldl_cons, hlength, htake, List.length_set]
    exact ⟨rfl, List.take_set_of_le (hl i List.mem_cons_self)⟩

theorem syntheticPayload_shape (messageType : Int) (length : Nat) (seed : Int) :
    (syntheticPayload messageType length seed).length = max 2 (length - 6) ∧
      (syntheticPayload messageType length seed).take 2 = be16 (messageType * 2 ^ 4 % 2 ^ 16).toNat := by
  unfold syntheticPayload
  obtain ⟨hlength, htake⟩ := fold_set (fun index => UInt8.ofNat ((seed * 31 + index * 17) % 2 ^ 8).toNat)
    (List.range' 2 ((setFirstTwo (List.replicate (length - 6) 0) (be16 (messageType * 2 ^ 4 % 2 ^ 16).toNat)).length - 2))
    (fun i hi => (List.mem_range'_1.mp hi).1)
    (setFirstTwo (List.replicate (length - 6) 0) (be16 (messageType * 2 ^ 4 % 2 ^ 16).toNat))
  refine ⟨hlength.trans ?_, htake.trans (List.take_left' rfl)⟩
  rw [setFirstTwo, List.length_append, length_be16, List.length_drop, List.length_replicate]
  omega

/-! ## The frame -/

/-- The length field holds ten bits. -/
theorem length_field {n : Nat} (h : n ≤ 1023) : (UInt8.ofNat (n / 2 ^ 8) &&& 0x03) &&& 0xfc = 0 ∧
    ((UInt8.ofNat (n / 2 ^ 8) &&& 0x03) &&& 0x03).toNat * 2 ^ 8 + (UInt8.ofNat n).toNat = n := by
  have hhigh : ∀ k < 4, (UInt8.ofNat k &&& 0x03) &&& 0xfc = 0 ∧ ((UInt8.ofNat k &&& 0x03) &&& 0x03).toNat = k := by decide
  obtain ⟨hreserved, hk⟩ := hhigh (n / 2 ^ 8) (by omega)
  refine ⟨hreserved, ?_⟩
  rw [hk, UInt8.toNat_ofNat']
  omega

/-- A header that states the length, and the checksum behind the payload, make a valid frame. -/
theorem frame_valid {payload : Bytes} (hmax : payload.length ≤ 1023) {body : Bytes}
    (hbody : body = [0xd3] ++ [UInt8.ofNat (payload.length / 2 ^ 8) &&& 0x03, UInt8.ofNat payload.length] ++ payload) :
    validRtcm3 (body ++ be24 (crc24q body)) = true := by
  obtain ⟨hreserved, hlength⟩ := length_field hmax
  have hbodyLength : body.length = payload.length + 3 := by
    rw [hbody]
    simp
  have htotal : (body ++ be24 (crc24q body)).length = payload.length + 6 := by
    rw [List.length_append, hbodyLength, length_be24]
  have hthree : payload.length + 6 - 3 = body.length := by omega
  have hbyte : ∀ i, i < body.length → byteAt (body ++ be24 (crc24q body)) i = byteAt body i := fun i hi =>
    byteAt_append_left hi
  have hcrc : crc24q body < 2 ^ 24 := crc_lt _ _ _
  have hread := u24_be24 (crc24q body) []
  rw [List.append_nil, Nat.mod_eq_of_lt hcrc] at hread
  unfold validRtcm3
  rw [htotal, hthree, List.take_left, List.drop_left, hread, hbyte 0 (by omega), hbyte 1 (by omega), hbyte 2 (by omega)]
  have h0 : byteAt body 0 = 0xd3 := by rw [hbody]; rfl
  have h1 : byteAt body 1 = UInt8.ofNat (payload.length / 2 ^ 8) &&& 0x03 := by rw [hbody]; rfl
  have h2 : byteAt body 2 = UInt8.ofNat payload.length := by rw [hbody]; rfl
  rw [h0, h1, h2, if_neg (by rw [hreserved]; simp), hlength]
  simp

/-- What the generator makes of the arguments it accepts. -/
structure Generated (messageType : Int) (length : Nat) (raw : Bytes) : Prop where
  valid : validRtcm3 raw = true
  size : raw.length = max 8 length
  type : typeBits raw = (messageType * 2 ^ 4 % 2 ^ 16).toNat / 2 ^ 4

/-- **Whatever is generated is a valid frame**, with the low 12 bits of the type; a length below eight is rounded up. -/
theorem synthetic_valid {length : Int} (messageType : Int) (h : 6 ≤ length ∧ length ≤ maxRtcmFrameSize) (seed : Int) :
    ∃ raw, syntheticRtcm messageType length seed = .ok raw ∧ Generated messageType length.toNat raw := by
  obtain ⟨hlength, htype⟩ := syntheticPayload_shape messageType length.toNat seed
  have hmax : (syntheticPayload messageType length.toNat seed).length ≤ 1023 := by
    simp only [maxRtcmFrameSize] at h
    omega
  refine ⟨_, if_neg (not_not.mpr h), frame_valid hmax rfl, ?_, ?_⟩
  · simp only [List.length_append, List.length_cons, List.length_nil, length_be24, hlength]
    omega
  · generalize syntheticPayload messageType length.toNat seed = payload at htype
    have hpayload : payload = be16 (messageType * 2 ^ 4 % 2 ^ 16).toNat ++ payload.drop 2 := by
      rw [← htype, List.take_append_drop]
    generalize be24 _ = check
    have hdrop : (([0xd3] ++ [UInt8.ofNat (payload.length / 2 ^ 8) &&& 0x03, UInt8.ofNat payload.length] ++ payload) ++
        check).drop 3 = be16 (messageType * 2 ^ 4 % 2 ^ 16).toNat ++ (payload.drop 2 ++ check) := by
      rw [← List.append_assoc, ← hpayload]
      rfl
    rw [typeBits, hdrop, u16_be16]
    omega

/-! ## The frame that was asked for -/

/-- The bytes are a frame of the type and the length that were asked for, which the parser and `fragment` take. -/
structure Correct (messageType length : Int) (raw : Bytes) : Prop where
  size : (raw.length : Int) = length
  valid : validRtcm3 raw = true
  parsed : ∀ now, (feed {} raw now).2 = [{ raw := raw, messageType := typeBits raw, receivedAt := now }]
  fragmented : ∀ senderSession messageId ageMs, ∃ frames, fragment raw senderSession messageId ageMs = .ok frames
  type : 8 ≤ length → ∃ t : Nat, rtcmType raw = .ok t ∧ (t : Int) = messageType

theorem feed_frame {raw : Bytes} (h : validRtcm3 raw = true) (now : ℚ) :
    (feed {} raw now).2 = [{ raw := raw, messageType := typeBits raw, receivedAt := now }] := by
  have hvalid : ∀ r ∈ [raw], validRtcm3 r = true := by simpa using h
  have hstream : streamOf [(raw, now)] = [raw].flatten := rfl
  obtain ⟨hraw, -⟩ := frames_parsed hvalid hstream
  have hfeed : (feedAll {} [(raw, now)]).2 = (feed {} raw now).2 := List.append_nil _
  rw [hfeed] at hraw
  obtain ⟨f, hf, hfraw⟩ := List.map_eq_singleton_iff.mp hraw
  have hmade := feed_made {} raw now f (hf ▸ List.mem_singleton_self f)
  rw [hf, ← hfraw, ← hmade.type, ← hmade.time]

/-- **The generator gives what was asked for from eight bytes on**: below, there is no room for the type, and the payload
grows to hold it. -/
theorem synthetic_correct_iff {messageType length : Int} (htype : 0 ≤ messageType ∧ messageType ≤ 4095)
    (hlength : 6 ≤ length ∧ length ≤ 1029) (seed : Int) :
    (∃ raw, syntheticRtcm messageType length seed = .ok raw ∧ Correct messageType length raw) ↔ 8 ≤ length := by
  obtain ⟨raw, hraw, hgenerated⟩ := synthetic_valid messageType hlength seed
  constructor
  · rintro ⟨raw', hraw', hcorrect⟩
    obtain rfl := Except.ok.inj (hraw.symm.trans hraw')
    have hsize := hcorrect.size
    rw [hgenerated.size] at hsize
    omega
  · intro height
    refine ⟨raw, hraw, ?_, hgenerated.valid, feed_frame hgenerated.valid,
      fun s id age => ⟨_, fragment_eq_map hgenerated.valid s id age⟩, fun _ => ⟨typeBits raw, ?_, ?_⟩⟩
    · rw [hgenerated.size]
      omega
    · rw [rtcmType, hgenerated.valid, if_neg (by decide)]
    · rw [hgenerated.type]
      omega

theorem synthetic_correct_iff_observation :
    (∃ raw, syntheticRtcm 1077 446 3 = .ok raw ∧ Correct 1077 446 raw) ↔ (8 : Int) ≤ 446 :=
  synthetic_correct_iff (by decide) (by decide) 3

/-- Six bytes are asked for, and eight come. -/
theorem synthetic_grows : ¬ ∀ messageType length seed : Int,
    0 ≤ messageType ∧ messageType ≤ 4095 → 6 ≤ length ∧ length ≤ 1029 →
    ∃ raw, syntheticRtcm messageType length seed = .ok raw ∧ Correct messageType length raw := by
  intro h
  obtain ⟨raw, hraw, hcorrect⟩ := h 1005 6 0 (by decide) (by decide)
  have hsize : syntheticRtcm 1005 6 0 = .ok [0xd3, 0, 2, 0x3e, 0xd0, 0xa4, 0xe0, 0] := by decide +kernel
  obtain rfl := Except.ok.inj (hsize.symm.trans hraw)
  exact absurd hcorrect.size (by decide)

end LoraLink.Application
