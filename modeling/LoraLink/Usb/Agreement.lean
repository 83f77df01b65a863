import LoraLink.Firmware.Keep
import LoraLink.Firmware.Queue
import LoraLink.Usb.Codec

/-!
# One protocol on both sides of the USB port

The firmware and the host have their own framing. Here they are compared.

- `enc_eq_cobsEncode`, `frame_eq_rawFrame`: the firmware's bytes are those of `encodeFrame`;
- `dec_eq`: the firmware's decoder is that of the host, as far as its buffer reaches;
- `unstuff_length`: unstuffing takes away one byte, and one for each full block;
- `usbFrames_usbByte`: the firmware counts what it dispatches;
- `framing_agrees`: the same frames are built, and the same are read from every stream.
-/

namespace LoraLink.Firmware

open LoraLink.Protocol (CobsState cobsEncodeByte cobsEncode rawFrame encodeFrame frameOfBody decodeFrame StreamDecoder)
open LoraLink.Cobs

/-! ## What is written -/

/-- The variables of `enc` under the names of `cobs_encode`. -/
def EncState.toCobs (s : EncState) : CobsState := { out := s.o, code := s.code, codePos := s.ci }

theorem cobsEncodeByte_toCobs (s : EncState) (x : UInt8) : cobsEncodeByte s.toCobs x = (encByte s x).toCobs := by
  unfold cobsEncodeByte encByte
  by_cases hx : x = 0
  · rw [if_pos hx, if_pos hx]
    rfl
  · rw [if_neg hx, if_neg hx]
    by_cases hfull : s.code + 1 = 0xff
    · simp [EncState.toCobs, hfull]
    · simp [EncState.toCobs, hfull]

theorem enc_eq_cobsEncode (a : Bytes) : enc a = cobsEncode a := by
  have hloop : ∀ (a : Bytes) (s : EncState), a.foldl cobsEncodeByte s.toCobs = (a.foldl encByte s).toCobs := by
    intro a
    induction a with
    | nil => exact fun s => rfl
    | cons x a ih =>
      intro s
      rw [List.foldl_cons, List.foldl_cons, cobsEncodeByte_toCobs, ih]
  unfold cobsEncode
  split
  · rename_i hnil
    rw [hnil]
    rfl
  · show enc a = _
    rw [show ({ out := [0], code := 1, codePos := 0 } : CobsState) =
      EncState.toCobs { o := [0], ci := 0, code := 1 } from rfl, hloop]
    rfl

theorem frame_eq_rawFrame (type session sequence : Nat) (payload : Bytes) :
    frame (UInt8.ofNat type) session sequence payload = rawFrame type session sequence payload := by
  have hhead : frameHead (UInt8.ofNat type) session sequence payload =
      Protocol.frameBody type session sequence payload := by
    simp [frameHead, Protocol.frameBody, w32, w16, V]
  unfold frame rawFrame
  rw [hhead]
  rfl

theorem length_enc (a : Bytes) : (enc a).length ≤ a.length + 1 + a.length / 254 := by
  rw [enc_eq_cobsEncode, Protocol.cobsEncode_eq_stuff]
  exact length_stuff a

/-! ## What is decoded -/

/-- What is decoded so far and the rest of it, if the buffer has room for both. -/
def fits (o r : Bytes) : Option Bytes := if o.length + r.length ≤ UD then some (o ++ r) else none

theorem fits_append (o x r : Bytes) : fits (o ++ x) r = fits o (x ++ r) := by
  simp [fits, Nat.add_assoc]

theorem fits_full {o x : Bytes} (h : UD < o.length + x.length) (r : Bytes) : fits o (x ++ r) = none := by
  rw [fits, if_neg]
  rw [List.length_append]
  omega

/-- The firmware's decoder reads what the host's does, if it has room for it. -/
theorem decLoop_eq : ∀ (fuel : Nat) (a o : Bytes), a.length ≤ fuel → o.length ≤ UD →
    decLoop fuel a o = (unstuffFrom 0 false a).bind (fits o) := by
  intro fuel
  induction fuel with
  | zero =>
    intro a o ha ho
    obtain rfl : a = [] := List.eq_nil_of_length_eq_zero (by omega)
    simp [decLoop, unstuffFrom, fits, ho]
  | succ fuel ih =>
    intro a o ha ho
    cases a with
    | nil => simp [decLoop, unstuffFrom, fits, ho]
    | cons c rest =>
      simp only [decLoop, unstuffFrom]
      by_cases hc : c = 0
      · simp [hc]
      · rw [if_neg hc]
        by_cases hshort : rest.length < c.toNat - 1
        · rw [if_pos (Or.inr hshort), unstuffFrom_short _ _ _ hshort]
          rfl
        · rw [if_neg (not_or.mpr ⟨hc, hshort⟩), Protocol.unstuffFrom_take (c != 255) (Nat.not_lt.mp hshort)]
          have hdrop : (rest.drop (c.toNat - 1)).length ≤ fuel := by
            simp only [List.length_cons, List.length_drop] at ha ⊢
            omega
          have htake : (rest.take (c.toNat - 1)).length = c.toNat - 1 := by
            rw [List.length_take]
            omega
          simp only [Bool.false_eq_true, if_false, Option.map_map]
          generalize rest.take (c.toNat - 1) = x at htake ⊢
          generalize rest.drop (c.toNat - 1) = rest' at hdrop ⊢
          rw [← htake]
          by_cases hfull : UD < o.length + x.length
          · rw [if_pos hfull]
            cases unstuffFrom 0 (c != 255) rest' with
            | none => rfl
            | some r => exact (fits_full hfull r).symm
          · rw [if_neg hfull]
            have hlength : (o ++ x).length ≤ UD := by
              rw [List.length_append]
              omega
            by_cases hsep : c ≠ 0xff ∧ rest' ≠ []
            · rw [if_pos hsep, show (c != 255) = true by simpa using hsep.1, Protocol.unstuffFrom_sep hsep.2]
              by_cases hroom : UD ≤ (o ++ x).length
              · rw [if_pos hroom]
                have hzero : UD < (o ++ x).length + ([0] : Bytes).length := by
                  rw [List.length_singleton]
                  omega
                cases unstuffFrom 0 false rest' with
                | none => rfl
                | some r => exact ((fits_append o x (0 :: r)).symm.trans (fits_full hzero r)).symm
              · rw [if_neg hroom, ih _ _ hdrop (by rw [List.length_append, List.length_singleton]; omega)]
                cases unstuffFrom 0 false rest' with
                | none => rfl
                | some r => exact (fits_append (o ++ x) [0] r).trans (fits_append o x (0 :: r))
            · rw [if_neg hsep, ih _ _ hdrop hlength]
              have hnone : unstuffFrom 0 (c != 255) rest' = unstuffFrom 0 false rest' := by
                by_cases hlast : rest' = []
                · rw [hlast]
                  rfl
                · rw [show (c != 255) = false by simpa [hlast] using hsep]
              rw [hnone]
              cases unstuffFrom 0 false rest' with
              | none => rfl
              | some r => exact fits_append o x r

theorem dec_eq {a : Bytes} (ha : a ≠ []) :
    dec a = (Protocol.cobsDecode a).bind fun b => if b.length ≤ UD then some b else none := by
  rw [dec, decLoop_eq _ _ _ (Nat.le_refl _) (Nat.zero_le _), Protocol.cobsDecode_eq ha, unstuff]
  congr 1
  funext r
  simp [fits]

/-! ## How long a decoded string is -/

/-- Unstuffing takes away one byte, and one for each full block. -/
theorem unstuffFrom_length : ∀ (n : Nat) (e r : Bytes) (sep : Bool), e.length ≤ n → e ≠ [] →
    unstuffFrom 0 sep e = some r → e.length + sep.toNat ≤ r.length + 1 + e.length / 255 := by
  intro n
  induction n with
  | zero =>
    intro e r sep he hne
    exact absurd (List.eq_nil_of_length_eq_zero (by omega)) hne
  | succ n ih =>
    intro e r sep he hne hr
    cases e with
    | nil => exact absurd rfl hne
    | cons c rest =>
      simp only [unstuffFrom] at hr
      split at hr
      · cases hr
      · rename_i hc
        have hpos : 0 < c.toNat := by
          rcases Nat.eq_zero_or_pos c.toNat with hzero | hpos
          · exact absurd (UInt8.toNat_inj.mp hzero) hc
          · exact hpos
        have hbyte := c.toNat_lt
        by_cases hshort : rest.length < c.toNat - 1
        · rw [unstuffFrom_short _ _ _ hshort] at hr
          cases hr
        · rw [Protocol.unstuffFrom_take (c != 255) (Nat.not_lt.mp hshort), Option.map_map, Option.map_eq_some_iff] at hr
          obtain ⟨r', hr', rfl⟩ := hr
          have hlength : (rest.drop (c.toNat - 1)).length = rest.length - (c.toNat - 1) := List.length_drop
          have hread :
              (if sep = true then 0 :: (rest.take (c.toNat - 1) ++ r')
                else rest.take (c.toNat - 1) ++ r').length =
              sep.toNat + (c.toNat - 1) + r'.length := by
            cases sep <;> simp <;> omega
          simp only [Function.comp_apply, hread, List.length_cons] at he ⊢
          by_cases hlast : rest.drop (c.toNat - 1) = []
          · rw [hlast, List.length_nil] at hlength
            omega
          · have hrest := ih _ r' (c != 255) (by omega) hlast hr'
            rw [hlength] at hrest
            by_cases hfull : c = 255
            · subst hfull
              simp at hrest hlength hshort ⊢
              omega
            · rw [show (c != 255) = true by simpa using hfull] at hrest
              simp only [Bool.toNat_true] at hrest
              have hdiv : (rest.length - (c.toNat - 1)) / 255 ≤ (rest.length + 1) / 255 := Nat.div_le_div_right (by omega)
              omega

theorem unstuff_length {e r : Bytes} (he : e ≠ []) (h : unstuff e = some r) :
    e.length ≤ r.length + 1 + e.length / 255 := by
  simpa using unstuffFrom_length e.length e r false (Nat.le_refl _) he h

/-! ## Which frames pass -/

/-- The fields of a frame, as `handle` reads them. -/
def fields (b : Bytes) : Protocol.Frame :=
  { msgType := (typeOf b).toNat, session := sessionOf b, sequence := seqOf b, payload := payloadOf b }

/-- The checks of `handle` and of `decode_frame` agree on what the firmware's buffer holds. -/
theorem frameOfBody_eq {b : Bytes} (h : b.length ≤ UD) :
    frameOfBody b = if wellFormed b = true then some (fields b) else none := by
  simp only [UD] at h
  by_cases hwf : wellFormed b = true
  · rw [if_pos hwf]
    simp only [wellFormed, Bool.and_eq_true, decide_eq_true_eq, beq_iff_eq] at hwf
    obtain ⟨⟨⟨⟨⟨⟨⟨h18, h0⟩, h1⟩, h2⟩, h4⟩, h5⟩, hlength⟩, hcrc⟩ := hwf
    have hmagic : b.take 2 = [0x4d, 0x55] := by rw [take_two (by omega), h0, h1]
    have hpayload : (b.take (b.length - 2)).drop 16 = payloadOf b := by
      rw [payloadOf, List.drop_take, show b.length - 2 - 16 = lengthOf b by omega]
    have hu16 : u16 (b.drop 14) + 18 = b.length := hlength
    have hshape : ¬ (b.length < 18 ∨ b.length > Protocol.maxDecoded ∨ b.take 2 ≠ [0x4d, 0x55]) := by
      simp only [Protocol.maxDecoded, hmagic, ne_eq, not_true_eq_false, or_false]
      omega
    have hsize : ¬ (u16 (b.drop 14) > Protocol.maxUsbPayload ∨ b.length ≠ 18 + u16 (b.drop 14)) := by
      simp only [Protocol.maxUsbPayload]
      omega
    have hsum : ¬ Protocol.crc16 (b.take (b.length - 2)) ≠ u16 (b.drop (b.length - 2)) := not_not.mpr hcrc.symm
    unfold frameOfBody
    rw [if_neg hshape, if_neg (by simp [h2, h4, h5, V]), if_neg hsize, if_neg hsum, hpayload]
    rfl
  · rw [if_neg hwf]
    rw [Option.eq_none_iff_forall_ne_some]
    intro f hf
    simp only [frameOfBody, Option.ite_none_left_eq_some, not_or, not_not, Nat.not_lt] at hf
    obtain ⟨⟨h18, -, hmagic⟩, ⟨h2, h4, h5⟩, ⟨-, hlength⟩, hcrc, -⟩ := hf
    rw [take_two (by omega), List.cons.injEq, List.cons.injEq] at hmagic
    apply hwf
    have hu16 : lengthOf b + 18 = b.length := by
      rw [hlength, Nat.add_comm]
      rfl
    simp only [wellFormed, Bool.and_eq_true, decide_eq_true_eq, beq_iff_eq]
    exact ⟨⟨⟨⟨⟨⟨⟨h18, hmagic.1⟩, hmagic.2.1⟩, h2⟩, h4⟩, h5⟩, hu16⟩, hcrc.symm⟩

/-- The host takes no frame that the firmware's buffer could not hold. -/
theorem frameOfBody_long {b : Bytes} (h : UD < b.length) : frameOfBody b = none := by
  have hlong : b.length < 18 ∨ b.length > Protocol.maxDecoded ∨ b.take 2 ≠ [0x4d, 0x55] := Or.inr (Or.inl h)
  unfold frameOfBody
  rw [if_pos hlong]

/-- The frame whose integrity and identity `handle` accepts. -/
def accepted (b : Bytes) : Option Protocol.Frame :=
  if wellFormed b = false then none else if sessionOf b = 0 ∨ seqOf b = 0 then none else some (fields b)

/-- The frames with a session and a sequence. -/
def identified (f : Protocol.Frame) : Bool := decide (f.session ≠ 0 ∧ f.sequence ≠ 0)

theorem accepted_eq {b : Bytes} (h : b.length ≤ UD) : accepted b = (frameOfBody b).filter identified := by
  rw [frameOfBody_eq h, accepted]
  cases hwf : wellFormed b with
  | false => rfl
  | true =>
    simp only [Bool.true_eq_false, if_false, if_true]
    by_cases hid : sessionOf b = 0 ∨ seqOf b = 0
    · have hno : identified (fields b) = false := decide_eq_false fun h => hid.elim h.1 h.2
      rw [if_pos hid, Option.filter_some, hno]
      rfl
    · have hyes : identified (fields b) = true := decide_eq_true (not_or.mp hid)
      rw [if_neg hid, Option.filter_some, hyes]
      rfl

/-! ## Streams -/

/-- What `usbTask` hands to `handle` when it reads the byte. -/
def Fw.handed (s : Fw) (z : UInt8) : Option Bytes := if z = 0 ∧ s.over = false ∧ s.inb ≠ [] then dec s.inb else none

/-- The frames that `usbTask` dispatches past the checks of `handle`, in order. -/
def dispatched : List (Hw × UInt8) → Fw → List Protocol.Frame
  | [], _ => []
  | x :: bs, s => ((s.handed x.2).bind accepted).toList ++ dispatched bs (s.usbByte x.1 x.2)

/-! ### The counter of the frames

`handle` counts the frames that pass its checks, and nothing else changes that counter. -/

open Fw

theorem usbFrames_keeps (n : Nat) : Keeps (fun _ => True) fun s => s.c.usbFrames = n where
  face := by
    intro s h s' houter _
    simp only [outer, Prod.mk.injEq] at houter
    obtain ⟨-, -, -, -, -, -, husb, -⟩ := houter
    exact husb.trans h
  put := by
    intro s b _ h
    obtain ⟨q, qt, qn, drops, queued, heq⟩ := s.putQ_fields b false
    rw [heq]
    exact h
  resp := fun _ h => h
  kept := fun _ => trivial
  other := fun _ => trivial

theorem usbFrames_handle (hw : Hw) (b : Bytes) (s : Fw) :
    (s.handle hw b).c.usbFrames = s.c.usbFrames + (accepted b).toList.length := by
  unfold handle accepted
  split
  · rfl
  · split
    · rfl
    · simp only
      split
      · exact (usbFrames_keeps _).handleHello rfl hw b
      · exact (usbFrames_keeps _).handleRequest rfl hw b

theorem usbFrames_usbByte (hw : Hw) (z : UInt8) (s : Fw) :
    (s.usbByte hw z).c.usbFrames = s.c.usbFrames + ((s.handed z).bind accepted).toList.length := by
  by_cases hz : z = 0
  · unfold usbByte handed
    rw [if_pos hz]
    by_cases hopen : s.over = false ∧ s.inb ≠ []
    · rw [if_pos hopen, if_pos ⟨hz, hopen⟩]
      cases dec s.inb with
      | none => rfl
      | some b => exact usbFrames_handle hw b s
    · rw [if_neg hopen, if_neg fun h => hopen h.2]
      rfl
  · have hnone : s.handed z = none := by
      unfold handed
      rw [if_neg fun h => hz h.1]
    rw [hnone]
    unfold usbByte
    rw [if_neg hz]
    split
    · rfl
    · split
      · rfl
      · rfl

/-- The two decoders after the same bytes, `e` being those since the last zero. -/
structure Alongside (e : Bytes) (s : Fw) (d : StreamDecoder) : Prop where
  nonzero : ∀ x ∈ e, x ≠ 0
  inb : s.inb = e.take UE
  «over» : s.over = decide (UE < e.length)
  buffer : d.buffer = if e.length ≤ 380 then e else []
  discarding : d.discarding = decide (380 < e.length)
  limit : d.maxEncoded = 380

/-- At a delimiter both decoders find the same frame. -/
theorem segment_agrees {e : Bytes} {s : Fw} {d : StreamDecoder} (h : Alongside e s d) :
    ((s.handed 0).bind accepted).toList = (d.feedByte 0).2.filter identified := by
  have hfw : s.handed 0 = if e ≠ [] ∧ e.length ≤ UE then dec e else none := by
    unfold Fw.handed
    rw [h.inb, h.over]
    by_cases hlength : e.length ≤ UE
    · rw [List.take_of_length_le hlength]
      simp [hlength, Nat.not_lt.mpr hlength]
    · simp [hlength, Nat.lt_of_not_le hlength]
  have hhost : (d.feedByte 0).2 = if e ≠ [] ∧ e.length ≤ 380 then (decodeFrame e).toList else [] := by
    unfold StreamDecoder.feedByte
    rw [if_pos rfl, h.buffer, h.discarding]
    by_cases hlength : e.length ≤ 380
    · simp [hlength, Nat.not_lt.mpr hlength]
    · simp [hlength]
  rw [hfw, hhost]
  by_cases hnil : e = []
  · simp [hnil]
  · by_cases hlong : e.length ≤ 380
    · rw [if_pos (show e ≠ [] ∧ e.length ≤ 380 from ⟨hnil, hlong⟩), decodeFrame]
      by_cases hshort : e.length ≤ UE
      · rw [if_pos (show e ≠ [] ∧ e.length ≤ UE from ⟨hnil, hshort⟩), dec_eq hnil]
        cases hread : Protocol.cobsDecode e with
        | none => rfl
        | some b =>
          simp only [Option.bind_some]
          by_cases hroom : b.length ≤ UD
          · rw [if_pos hroom, Option.bind_some, accepted_eq hroom]
            cases frameOfBody b with
            | none => rfl
            | some f => cases hid : identified f <;> simp [hid]
          · rw [if_neg hroom, frameOfBody_long (Nat.lt_of_not_le hroom)]
            rfl
      · -- too long for the firmware: the host finds more than a frame can have
        rw [if_neg fun hand => hshort hand.2]
        cases hread : Protocol.cobsDecode e with
        | none => rfl
        | some b =>
          rw [Protocol.cobsDecode_eq hnil] at hread
          have hlength := unstuff_length hnil hread
          have hno : frameOfBody b = none := by
            apply frameOfBody_long
            simp only [UE, UD] at hshort ⊢
            omega
          simp [hno]
    · have hfar : ¬ (e ≠ [] ∧ e.length ≤ UE) := by
        simp only [UE]
        omega
      rw [if_neg hfar, if_neg fun hand => hlong hand.2]
      rfl

theorem alongside_zero {e : Bytes} {s : Fw} {d : StreamDecoder} (h : Alongside e s d) (hw : Hw) :
    Alongside [] (s.usbByte hw 0) (d.feedByte 0).1 := by
  refine ⟨fun x hx => absurd hx List.not_mem_nil, ?_, ?_, ?_, ?_, ?_⟩
  · rfl
  · rfl
  · rfl
  · rfl
  · exact h.limit

theorem usbByte_buffer (hw : Hw) {z : UInt8} (hz : z ≠ 0) (s : Fw) :
    (s.usbByte hw z).inb = (if s.over = true ∨ s.inb.length = UE then s.inb else s.inb ++ [z]) ∧
      (s.usbByte hw z).over = (s.over || decide (s.inb.length = UE)) := by
  unfold Fw.usbByte
  rw [if_neg hz]
  by_cases hover : s.over = true
  · simp [hover]
  · rw [if_neg hover]
    by_cases hfull : s.inb.length = UE
    · simp [hover, hfull, Fw.countUsbBad, Fw.count]
    · simp [hover, hfull]

theorem feedByte_buffer {z : UInt8} (hz : z ≠ 0) (d : StreamDecoder) :
    (d.feedByte z).1.buffer = (if d.discarding = true then d.buffer
      else if d.maxEncoded < d.buffer.length + 1 then [] else d.buffer ++ [z]) ∧
      (d.feedByte z).1.discarding = (d.discarding || decide (d.maxEncoded < d.buffer.length + 1)) ∧
      (d.feedByte z).1.maxEncoded = d.maxEncoded ∧ (d.feedByte z).2 = [] := by
  unfold StreamDecoder.feedByte
  rw [if_neg hz]
  by_cases hdiscard : d.discarding = true
  · simp [hdiscard]
  · rw [if_pos hdiscard]
    by_cases hlong : d.maxEncoded < d.buffer.length + 1
    · simp [hdiscard, hlong]
    · simp [hdiscard, hlong]

theorem alongside_byte {e : Bytes} {s : Fw} {d : StreamDecoder} (h : Alongside e s d) (hw : Hw) {z : UInt8} (hz : z ≠ 0) :
    Alongside (e ++ [z]) (s.usbByte hw z) (d.feedByte z).1 := by
  obtain ⟨hinb, hover⟩ := usbByte_buffer hw hz s
  obtain ⟨hbuffer, hdiscarding, hlimit, -⟩ := feedByte_buffer hz d
  have hlength : (e ++ [z]).length = e.length + 1 := by simp
  refine ⟨fun x hx => ?_, ?_, ?_, ?_, ?_, hlimit.trans h.limit⟩
  · rcases List.mem_append.mp hx with hx | hx
    · exact h.nonzero x hx
    · rw [List.mem_singleton.mp hx]
      exact hz
  · rw [hinb, h.over, h.inb, List.length_take]
    by_cases hroom : UE ≤ e.length
    · rw [if_pos (by simp; omega), List.take_append_of_le_length hroom]
    · rw [if_neg (by simp; omega), List.take_of_length_le (by omega), List.take_of_length_le (by omega)]
  · rw [hover, h.over, h.inb, List.length_take, hlength, Bool.eq_iff_iff]
    simp only [Bool.or_eq_true, decide_eq_true_eq]
    omega
  · rw [hbuffer, h.discarding, h.buffer, h.limit, hlength]
    by_cases hroom : e.length ≤ 380
    · rw [if_neg (by simpa using hroom), if_pos hroom]
      by_cases hlast : e.length + 1 ≤ 380
      · rw [if_neg (by omega), if_pos hlast]
      · rw [if_pos (by omega), if_neg hlast]
    · rw [if_pos (by simpa using hroom), if_neg hroom, if_neg (by omega)]
  · rw [hdiscarding, h.discarding, h.buffer, h.limit, hlength, Bool.eq_iff_iff]
    by_cases hroom : e.length ≤ 380
    · rw [if_pos hroom]
      simp only [Bool.or_eq_true, decide_eq_true_eq]
      omega
    · rw [if_neg hroom]
      simp only [Bool.or_eq_true, decide_eq_true_eq]
      omega

/-- On every stream the two sides find the same frames. -/
theorem dispatched_eq : ∀ (bs : List (Hw × UInt8)) {e : Bytes} {s : Fw} {d : StreamDecoder}, Alongside e s d →
    dispatched bs s = (d.feed (bs.map Prod.snd)).2.filter identified := by
  intro bs
  induction bs with
  | nil => exact fun _ => rfl
  | cons x bs ih =>
    intro e s d h
    obtain ⟨hw, z⟩ := x
    simp only [dispatched, List.map_cons, StreamDecoder.feed, List.filter_append]
    by_cases hz : z = 0
    · subst hz
      rw [segment_agrees h, ih (alongside_zero h hw)]
    · have hnone : s.handed z = none := by
        unfold Fw.handed
        rw [if_neg fun hand => hz hand.1]
      rw [hnone, (feedByte_buffer hz d).2.2.2, ih (alongside_byte h hw hz)]
      rfl

theorem setup_buffer (d : Board) : (setup d).inb = [] ∧ (setup d).over = false := by
  have hlisten : ∀ (hw : Hw) (s : Fw), (s.listen hw).inb = s.inb ∧ (s.listen hw).over = s.over := by
    intro hw s
    unfold Fw.listen
    split
    · exact ⟨rfl, rfl⟩
    · simp only
      split
      · exact ⟨rfl, rfl⟩
      · exact ⟨rfl, rfl⟩
  unfold setup
  simp only
  split
  · exact ⟨rfl, rfl⟩
  · split
    · exact hlisten _ _
    · exact ⟨rfl, rfl⟩

/-- **One protocol.** A frame is the same bytes on both sides, and the firmware has room for it. The firmware counts
the frames it dispatches; from its start it finds in every stream of bytes those that the host's decoder does, as far
as they have a session and a sequence. -/
theorem framing_agrees :
    (∀ (type session sequence : Nat) (payload : Bytes), type ≤ 255 → 0 < session ∧ session ≤ 0xffffffff →
      sequence ≤ 0xffffffff → payload.length ≤ 256 →
      encodeFrame type session sequence payload = some (enc (frame (UInt8.ofNat type) session sequence payload) ++ [0]) ∧
        (frame (UInt8.ofNat type) session sequence payload).length ≤ UD ∧
        (enc (frame (UInt8.ofNat type) session sequence payload)).length + 1 ≤ UE) ∧
    (∀ (hw : Hw) (z : UInt8) (s : Fw),
      (s.usbByte hw z).c.usbFrames = s.c.usbFrames + ((s.handed z).bind accepted).toList.length) ∧
    ∀ (d : Board) (bs : List (Hw × UInt8)), dispatched bs (setup d) =
      (({} : StreamDecoder).feed (bs.map Prod.snd)).2.filter identified := by
  refine ⟨fun type session sequence payload htype hsession hsequence hpayload => ?_, usbFrames_usbByte, fun d bs => ?_⟩
  · have hlength := length_frame (UInt8.ofNat type) session sequence payload
    have henc := length_enc (frame (UInt8.ofNat type) session sequence payload)
    refine ⟨?_, ?_, ?_⟩
    · unfold encodeFrame
      rw [if_neg (by omega), if_neg (show ¬ payload.length > Protocol.maxUsbPayload from Nat.not_lt.mpr hpayload),
        enc_eq_cobsEncode, frame_eq_rawFrame]
    · simp only [UD]
      omega
    · simp only [UE]
      omega
  · obtain ⟨hinb, hover⟩ := setup_buffer d
    exact dispatched_eq bs (e := []) ⟨fun x hx => absurd hx List.not_mem_nil, hinb, hover, rfl, rfl, rfl⟩

end LoraLink.Firmware
