import LoraLink.App.Codec
import LoraLink.Lib.Burst

/-!
# Burst errors on the air and in the corrections

Both checks are as long as their registers, and the lowest bit of both polynomials is set, so a burst that is no longer
than the check is detected, wherever it lies.
-/

namespace LoraLink.Application

theorem u16_eq_beNat {t : Bytes} (h : t.length = 2) : u16 t = beNat t := by
  match t, h with
  | [a, b], _ => simp [u16, beNat]

theorem u24_eq_beNat {t : Bytes} (h : t.length = 3) : u24 t = beNat t := by
  match t, h with
  | [a, b, c], _ =>
    simp [u24, beNat]
    omega

/-- The check of a string that is decoded. -/
theorem check_of_decode {raw : Bytes} {f : Frame} (h : decode raw = .ok f) : 2 ≤ raw.length ∧
    (crc 0x1021#16 0xffff#16 (raw.take (raw.length - 2))).toNat = beNat (raw.drop (raw.length - 2)) := by
  obtain ⟨-, -, -, -, -, -, -, hlength, hcrc, -⟩ := decode_ok h
  refine ⟨by omega, ?_⟩
  rw [← u16_eq_beNat (by rw [List.length_drop]; omega)]
  exact hcrc

/-- The check of a valid RTCM3 frame. -/
theorem check_of_validRtcm3 {raw : Bytes} (h : validRtcm3 raw = true) : 3 ≤ raw.length ∧
    (crc 0x864cfb#24 0#24 (raw.take (raw.length - 3))).toNat = beNat (raw.drop (raw.length - 3)) := by
  have hlength := le_length_of_validRtcm3 h
  refine ⟨by omega, ?_⟩
  rw [← u24_eq_beNat (by rw [List.length_drop]; omega)]
  unfold validRtcm3 at h
  split at h
  · cases h
  · simp only [Bool.and_eq_true, decide_eq_true_eq] at h
    exact h.2

/-- A burst of at most 16 bits in an encoded frame makes `decode` fail, and one of at most 24 bits makes a valid RTCM3
frame invalid. -/
theorem bursts_detected :
    (∀ f raw raw', encode f = .ok raw → Burst 16 raw raw' → ∃ e, decode raw' = .error e) ∧
      ∀ raw raw', validRtcm3 raw = true → Burst 24 raw raw' → validRtcm3 raw' = false := by
  constructor
  · intro f raw raw' hf hburst
    obtain ⟨hlength, hcheck⟩ := check_of_decode (decode_encode hf)
    have hbad := burst_detected (w := 16) (by decide) (by decide) (Nat.le_refl _) hburst _ rfl hlength hcheck
    cases hdecode : decode raw' with
    | error e => exact ⟨e, rfl⟩
    | ok f' => exact absurd (check_of_decode hdecode).2 hbad
  · intro raw raw' hraw hburst
    obtain ⟨hlength, hcheck⟩ := check_of_validRtcm3 hraw
    have hbad := burst_detected (w := 24) (by decide) (by decide) (Nat.le_refl _) hburst _ rfl hlength hcheck
    cases hvalid : validRtcm3 raw' with
    | false => rfl
    | true => exact absurd (check_of_validRtcm3 hvalid).2 hbad

end LoraLink.Application
