import LoraLink.Firmware.Spec
import LoraLink.Usb.Agreement

/-!
# Payloads across two modems

A payload goes from a host to its modem in a SEND frame, over the air in a radio packet, and from the other modem to
its host in an RX event.

- `step_air`: the only radio packets that a step starts are those of a SEND, with the next air sequence;
- `airPacket_eq_encodeRadio`, `decodeRadio_airPacket`: the packet is the one of `protocol.py`;
- `received_airPacket`, `flush_event`, `feed_event`: what a peer makes of it, up to its host;
- `airs_step`: the air sequences of the attempts count through the numbers that are not zero;
- `payload_transparency`: all of it.
-/

namespace LoraLink.Firmware

open LoraLink.Protocol (encodeRadio decodeRadio StreamDecoder parseRadioRx RadioRx)

/-! ## The attempts -/

/-- The packets that the radio is told to transmit. -/
def attempts (calls : List Call) : List Bytes := calls.filterMap fun | .startTransmit packet _ => some packet | _ => none

/-- What a transmission takes its identity from, and the packets so far. -/
structure Air where
  boot : Nat
  airNext : Nat
  sent : List Bytes

def Fw.air (s : Fw) : Air := { boot := s.boot, airNext := s.airNext, sent := attempts s.calls }

/-- A payload is given to the radio. -/
def Air.send (a : Air) (p : Bytes) : Air :=
  { a with airNext := (nextAir a.airNext).2, sent := a.sent ++ [airPacket a.boot (nextAir a.airNext).1 p] }

namespace Fw

theorem attempts_append (a b : List Call) : attempts (a ++ b) = attempts a ++ attempts b := List.filterMap_append

theorem air_note (call : Call) (h : attempts [call] = []) (s : Fw) : (s.note call).air = s.air := by
  simp [air, note, attempts_append, h]

theorem air_closeGap (s : Fw) (offset : Nat) : (s.closeGap offset).air = s.air := by
  unfold closeGap
  generalize List.range (s.qn - 1 - offset) = ks
  suffices h : ∀ t : Fw, (ks.foldl
    (fun s k => { s with q := s.q.set ((s.qh + (offset + k)) % QD) (s.slot (offset + k + 1)) }) t).air = t.air from h s
  induction ks with
  | nil => exact fun t => rfl
  | cons k ks ih =>
    intro t
    rw [List.foldl_cons, ih]
    rfl

theorem air_putQ (s : Fw) (b : Bytes) (event : Bool) : (s.putQ b event).air = s.air := by
  have hnote : (s.note (.putQ b event)).air = s.air := air_note _ rfl s
  unfold putQ
  simp only
  split
  · split
    · exact hnote
    · split
      · exact hnote
      · rw [← hnote]
        exact air_closeGap _ _
  · exact hnote

theorem air_reply (s : Fw) (type : UInt8) (seq : Nat) (p : Bytes) (cache : Bool) :
    (s.reply type seq p cache).air = s.air := by
  unfold reply
  simp only
  split
  · exact air_putQ _ _ _
  · exact air_putQ _ _ _

theorem air_listen (hw : Hw) (s : Fw) : (s.listen hw).air = s.air := by
  unfold listen
  split
  · rfl
  · simp only
    split
    · rfl
    · rfl

/-- The radio of a modem that is ready and idle is given the payload. -/
theorem air_sendAir_idle {s : Fw} (hready : s.ready ≠ false) (hidle : ¬ (s.rs = .transmitting ∨ s.pending = true))
    (hw : Hw) (p : Bytes) (seq : Nat) : (s.sendAir hw p seq).air = s.air.send p := by
  have hsent : ((s.prepareTx hw p seq).note (.startTransmit (s.prepareTx hw p seq).txPacket hw.startTransmit)).air =
      s.air.send p := by
    simp [air, note, attempts_append, Air.send, prepareTx]
    rfl
  unfold sendAir
  rw [if_neg hready, if_neg hidle]
  simp only
  split
  · exact (air_listen _ _).trans ((air_reply _ _ _ _ _).trans hsent)
  · exact hsent

theorem air_sendAir (hw : Hw) (p : Bytes) (seq : Nat) (s : Fw) :
    (s.sendAir hw p seq).air = s.air ∨ (s.sendAir hw p seq).air = s.air.send p := by
  by_cases hready : s.ready = false
  · unfold sendAir
    rw [if_pos hready]
    exact Or.inl (air_reply _ _ _ _ _)
  · by_cases hbusy : s.rs = .transmitting ∨ s.pending = true
    · unfold sendAir
      rw [if_neg hready, if_pos hbusy]
      exact Or.inl (air_reply _ _ _ _ _)
    · exact Or.inr (air_sendAir_idle hready hbusy hw p seq)

variable {hw : Hw} {b : Bytes}

theorem air_saveReq (s : Fw) : (s.saveReq b).air = s.air := air_note (.saveReq b) rfl s

theorem air_serve (s : Fw) : (s.serve hw b).air = s.air ∨
    (typeOf b = Msg.send ∧ 1 ≤ lengthOf b ∧ lengthOf b ≤ AM) ∧ (s.serve hw b).air = s.air.send (payloadOf b) := by
  have hsave : (s.acceptRequest b).air = s.air := air_saveReq s
  unfold serve
  simp only
  split
  · rename_i hsend
    split
    · exact Or.inl ((air_reply _ _ _ _ _).trans hsave)
    · rename_i hlength
      rcases air_sendAir hw (payloadOf b) (seqOf b) ((s.acceptRequest b).countAccepted.count fun c =>
        { c with sendAccepted := c.sendAccepted + 1 }) with hair | hair
      · exact Or.inl (hair.trans hsave)
      · refine Or.inr ⟨⟨hsend, by omega, by omega⟩, hair.trans ?_⟩
        exact congrArg (fun a => Air.send a (payloadOf b)) hsave
  · split
    · split
      · exact Or.inl ((air_reply _ _ _ _ _).trans hsave)
      · exact Or.inl ((air_reply _ _ _ _ _).trans hsave)
    · split
      · split
        · exact Or.inl ((air_reply _ _ _ _ _).trans hsave)
        · exact Or.inl ((air_reply _ _ _ _ _).trans hsave)
      · exact Or.inl ((air_reply _ _ _ _ _).trans hsave)

theorem air_handleHello (s : Fw) : (s.handleHello hw b).air = s.air := by
  have hgreet : ∀ t : Fw, ((t.accept b).countAccepted.info hw (seqOf b)).air = t.air := fun t =>
    (air_reply _ _ _ _ _).trans (air_saveReq t)
  unfold handleHello
  simp only
  split
  · exact air_putQ _ _ _
  · split
    · exact air_reply _ _ _ _ _
    · split
      · rw [hgreet]
        exact air_note (.resetSession (sessionOf b)) rfl s
      · split
        · exact air_reply _ _ _ _ _
        · split
          · split
            · exact air_putQ _ _ _
            · exact air_reply _ _ _ _ _
          · exact hgreet s

theorem air_handleRequest (s : Fw) : (s.handleRequest hw b).air = s.air ∨
    (typeOf b = Msg.send ∧ 1 ≤ lengthOf b ∧ lengthOf b ≤ AM) ∧ (s.handleRequest hw b).air = s.air.send (payloadOf b) := by
  unfold handleRequest
  simp only
  split
  · exact Or.inl (air_putQ _ _ _)
  · split
    · exact Or.inl (air_reply _ _ _ _ _)
    · split
      · split
        · exact Or.inl (air_reply _ _ _ _ _)
        · split
          · exact Or.inl (air_putQ _ _ _)
          · exact Or.inl (air_reply _ _ _ _ _)
      · split
        · exact Or.inl (air_reply _ _ _ _ _)
        · exact air_serve s

theorem length_payloadOf (h : wellFormed b = true) : (payloadOf b).length = lengthOf b := by
  simp only [wellFormed, Bool.and_eq_true, decide_eq_true_eq, beq_iff_eq] at h
  obtain ⟨⟨-, hlength⟩, -⟩ := h
  rw [payloadOf, List.length_take, List.length_drop]
  omega

theorem air_handle (hw : Hw) (b : Bytes) (s : Fw) : (s.handle hw b).air = s.air ∨
    (typeOf b = Msg.send ∧ 1 ≤ (payloadOf b).length ∧ (payloadOf b).length ≤ AM) ∧
      (s.handle hw b).air = s.air.send (payloadOf b) := by
  unfold handle
  split
  · exact Or.inl rfl
  · rename_i hwf
    split
    · exact Or.inl rfl
    · simp only
      split
      · exact Or.inl (air_handleHello _)
      · rw [length_payloadOf (by simpa using hwf)]
        exact air_handleRequest _

theorem air_received (n : Nat) (s : Fw) : (s.received hw b n).air = s.air := by
  unfold received
  simp only
  split
  · rfl
  · split
    · rfl
    · split
      · rfl
      · exact air_putQ _ _ _

theorem air_txDone (s : Fw) : (s.txDone hw).air = s.air := by
  have hnote : (s.note (.finishTransmit hw.finishTransmit)).air = s.air := air_note _ rfl s
  unfold txDone
  simp only
  split
  · split
    · exact (air_reply _ _ _ _ _).trans hnote
    · exact hnote
  · split
    · exact (air_reply _ _ _ _ _).trans hnote
    · exact hnote

theorem air_radioTask (s : Fw) : (s.radioTask hw).air = s.air := by
  unfold radioTask
  split
  · rfl
  · simp only
    split
    · exact (air_listen _ _).trans (air_txDone _)
    · split
      · exact (air_listen _ _).trans (air_received _ _)
      · exact air_listen _ _

theorem air_txWatchdog (s : Fw) : (s.txWatchdog hw).air = s.air := by
  have hnote : (s.countRadio.note .standby).air = s.air := air_note _ rfl s.countRadio
  unfold txWatchdog
  split
  · rfl
  · simp only
    split
    · exact (air_listen _ _).trans ((air_reply _ _ _ _ _).trans hnote)
    · exact (air_listen _ _).trans hnote

theorem air_flush (s : Fw) (availableForWrite : Int) (written : Nat) :
    (s.flush availableForWrite written).air = s.air := by
  unfold flush
  split
  · rfl
  · simp only
    split
    · rfl
    · exact air_note (.serialWrite _) rfl s

end Fw

/-- A step starts no transmission, or that of the SEND it handles. -/
theorem step_air (i : Input) (s : Fw) :
    (step i s).air = { boot := s.boot, airNext := s.airNext, sent := [] } ∨
      ∃ hw b, i = .handle hw b ∧ (typeOf b = Msg.send ∧ 1 ≤ (payloadOf b).length ∧ (payloadOf b).length ≤ AM) ∧
        (step i s).air = Air.send { boot := s.boot, airNext := s.airNext, sent := [] } (payloadOf b) := by
  cases i with
  | handle hw b =>
    rcases Fw.air_handle hw b { s with calls := [] } with hair | ⟨hsend, hair⟩
    · exact Or.inl hair
    · exact Or.inr ⟨hw, b, rfl, hsend, hair⟩
  | isr => exact Or.inl rfl
  | radioTask hw => exact Or.inl (Fw.air_radioTask { s with calls := [] })
  | txWatchdog hw => exact Or.inl (Fw.air_txWatchdog { s with calls := [] })
  | flush availableForWrite written => exact Or.inl (Fw.air_flush { s with calls := [] } _ _)

/-! ## The packet -/

section Packet

variable {boot air : Nat} {p : Bytes}

theorem length_airHead (boot air : Nat) (p : Bytes) : (airHead boot air p).length = 16 + p.length := by
  simp [airHead, w16, w32]
  omega

theorem length_airPacket (boot air : Nat) (p : Bytes) : (airPacket boot air p).length = 18 + p.length := by
  rw [airPacket, List.length_append, length_airHead, w16, length_be16]
  omega

/-- A packet and what stands behind it in a buffer. -/
theorem airPacket_append (boot air : Nat) (p z : Bytes) : airPacket boot air p ++ z =
    [0x4d, 0x4c, 1, 1, 0, 0] ++ (be32 boot ++ (be32 air ++ (be16 p.length ++ (p ++
      (be16 (crc (airHead boot air p)) ++ z))))) := by
  simp [airPacket, airHead, w16, w32, V]

/-- The fields of a packet. -/
theorem airPacket_fields (hboot : boot < 2 ^ 32) (hair : air < 2 ^ 32) (hp : p.length < 2 ^ 16) (z : Bytes) :
    u32 ((airPacket boot air p ++ z).drop 6) = boot ∧ u32 ((airPacket boot air p ++ z).drop 10) = air ∧
      u16 ((airPacket boot air p ++ z).drop 14) = p.length ∧
      (airPacket boot air p ++ z).drop 16 = p ++ (be16 (crc (airHead boot air p)) ++ z) := by
  rw [airPacket_append]
  refine ⟨(u32_be32 boot _).trans (Nat.mod_eq_of_lt hboot), (u32_be32 air _).trans (Nat.mod_eq_of_lt hair),
    (u16_be16 p.length _).trans (Nat.mod_eq_of_lt hp), rfl⟩

/-- The checksum stands behind what it is made of. -/
theorem airPacket_cut (boot air : Nat) (p z : Bytes) :
    (airPacket boot air p ++ z).take ((airPacket boot air p).length - 2) = airHead boot air p ∧
      u16 ((airPacket boot air p ++ z).drop ((airPacket boot air p).length - 2)) = crc (airHead boot air p) := by
  have hcut : (airPacket boot air p).length - 2 = (airHead boot air p).length := by
    rw [length_airPacket, length_airHead]
    omega
  rw [hcut, airPacket, List.append_assoc]
  refine ⟨List.take_left, ?_⟩
  rw [List.drop_left, w16, u16_be16]
  exact Nat.mod_eq_of_lt (crc_lt 0x1021#16 0xffff#16 _)

theorem airPacket_eq_encodeRadio (hboot : 0 < boot ∧ boot < 2 ^ 32) (hair : 0 < air ∧ air < 2 ^ 32)
    (hp : 1 ≤ p.length ∧ p.length ≤ AM) : encodeRadio boot air p = some (airPacket boot air p) := by
  have hbody : Protocol.radioBody boot air p = airHead boot air p := by
    simp [Protocol.radioBody, airHead, w16, w32, V]
  simp only [AM] at hp
  unfold encodeRadio
  rw [hbody, if_neg]
  · rfl
  · simp only [Protocol.maxAirPayload]
    omega

theorem decodeRadio_airPacket (hboot : boot < 2 ^ 32) (hair : air < 2 ^ 32) (hp : 1 ≤ p.length ∧ p.length ≤ AM) :
    decodeRadio (airPacket boot air p) = some (boot, air, p) := by
  simp only [AM] at hp
  obtain ⟨hb, ha, hn, -⟩ := airPacket_fields hboot hair (show p.length < 2 ^ 16 by omega) []
  obtain ⟨htake, hcrc⟩ := airPacket_cut boot air p []
  rw [List.append_nil] at hb ha hn htake hcrc
  have hhead : (airPacket boot air p).take 2 = [0x4d, 0x4c] ∧ ((airPacket boot air p).drop 2).take 4 = [1, 1, 0, 0] := by
    rw [← List.append_nil (airPacket boot air p), airPacket_append]
    exact ⟨rfl, rfl⟩
  have hbody : (airHead boot air p).drop 16 = p := by simp [airHead, w16, w32, be16, be32]
  have hlength := length_airPacket boot air p
  unfold decodeRadio
  rw [if_neg (by rw [hhead.1, hhead.2, hlength]; simp; omega)]
  simp only [hn]
  rw [if_neg, hb, ha, htake, hbody]
  rw [htake, hcrc, hlength]
  simp only [Protocol.maxAirPayload, Protocol.crc16, crc, not_true_eq_false, or_false, ne_eq]
  omega

/-! ## The peer -/

/-- The payload of the event for a packet. -/
def rxPayload (hw : Hw) (boot air : Nat) (p : Bytes) : Bytes :=
  w32 boot ++ w32 air ++ w16 hw.rssi100 ++ w16 hw.snr100 ++ w32 hw.millis ++ p

theorem radioBuffer_airPacket (hp : p.length ≤ AM) : radioBuffer (airPacket boot air p) =
    airPacket boot air p ++ List.replicate (AD - (airPacket boot air p).length) 0 := by
  have hlength := length_airPacket boot air p
  rw [radioBuffer, List.take_of_length_le]
  simp only [AD, AM] at hp ⊢
  omega

/-- A peer takes the packet, and offers an event for it to its session. -/
theorem received_airPacket (hboot : boot < 2 ^ 32) (hair : air < 2 ^ 32) (hp : 1 ≤ p.length ∧ p.length ≤ AM) (hw : Hw)
    (t : Fw) : t.received hw (radioBuffer (airPacket boot air p)) (airPacket boot air p).length =
      if t.active = false then t.count fun c => { c with rx := c.rx + 1 }
      else (t.count fun c => { c with rx := c.rx + 1 }).putQ
        (frame Msg.rxEvent t.session 0 (rxPayload hw boot air p)) true := by
  have hlength := length_airPacket boot air p
  have hp16 : p.length < 2 ^ 16 := by
    simp only [AM] at hp
    omega
  rw [radioBuffer_airPacket hp.2]
  generalize List.replicate (AD - (airPacket boot air p).length) (0 : UInt8) = z
  obtain ⟨hb, ha, hn, hrest⟩ := airPacket_fields hboot hair hp16 z
  obtain ⟨htake, hcrc⟩ := airPacket_cut boot air p z
  have hmagic : ¬ ((airPacket boot air p).length < 18 ∨ byteAt (airPacket boot air p ++ z) 0 ≠ 0x4d ∨
      byteAt (airPacket boot air p ++ z) 1 ≠ 0x4c ∨ byteAt (airPacket boot air p ++ z) 2 ≠ V ∨
      byteAt (airPacket boot air p ++ z) 3 ≠ 1 ∨ byteAt (airPacket boot air p ++ z) 4 ≠ 0 ∨
      byteAt (airPacket boot air p ++ z) 5 ≠ 0) := by
    rw [airPacket_append, hlength]
    simp [V]
  have hchecks : ¬ (r16 ((airPacket boot air p ++ z).drop 14) = 0 ∨ r16 ((airPacket boot air p ++ z).drop 14) > AM ∨
      (airPacket boot air p).length ≠ 18 + r16 ((airPacket boot air p ++ z).drop 14) ∨
      r16 ((airPacket boot air p ++ z).drop ((airPacket boot air p).length - 2)) ≠
        crc ((airPacket boot air p ++ z).take ((airPacket boot air p).length - 2))) := by
    simp only [r16, hn, hcrc, htake, ne_eq, not_true_eq_false, or_false]
    omega
  unfold Fw.received
  simp only
  rw [if_neg hmagic, if_neg hchecks]
  simp only [r16, r32, hn, hb, ha, hrest, List.take_left]
  rfl

/-- An event at the head of the queue is written whole. -/
theorem flush_event {u : Fw} {f : Bytes} {availableForWrite : Int} {written : Nat} (hqn : u.qn ≠ 0)
    (hslot : (u.slot 0).b = f) (hroom : ((enc f).length : Int) + 1 ≤ availableForWrite)
    (hwritten : (enc f).length + 1 ≤ written) :
    (u.flush availableForWrite written).calls = u.calls ++ [.serialWrite (enc f ++ [0])] := by
  unfold Fw.flush
  have hfits : ¬ availableForWrite < ((enc f).length : Int) + 1 := Int.not_lt.mpr hroom
  rw [if_neg hqn]
  simp only [hslot]
  rw [if_neg hfits]
  have htake : (enc f ++ [0]).take written = enc f ++ [0] := List.take_of_length_le (by simpa using hwritten)
  simp only [htake, Fw.note]

theorem wellFormed_frame (type : UInt8) (ses seq : Nat) {q : Bytes} (hq : q.length < 2 ^ 16) :
    wellFormed (frame type ses seq q) = true := by
  have hlength := length_frame type ses seq q
  have hpayload := lengthOf_frame type ses seq q
  have hcut : (frame type ses seq q).length - 2 = (frameHead type ses seq q).length := by
    rw [frame, List.length_append, w16, length_be16]
    omega
  have htake : (frame type ses seq q).take (frameHead type ses seq q).length = frameHead type ses seq q := List.take_left
  have hcrc : r16 ((frame type ses seq q).drop (frameHead type ses seq q).length) = crc (frameHead type ses seq q) := by
    rw [frame, List.drop_left, ← List.append_nil (w16 _)]
    exact (u16_be16 _ _).trans (Nat.mod_eq_of_lt (crc_lt 0x1021#16 0xffff#16 _))
  rw [Nat.mod_eq_of_lt hq] at hpayload
  simp only [wellFormed, Bool.and_eq_true, decide_eq_true_eq, beq_iff_eq, hcut, htake, hcrc]
  refine ⟨⟨⟨⟨⟨⟨⟨?_, rfl⟩, rfl⟩, rfl⟩, rfl⟩, rfl⟩, ?_⟩, trivial⟩
  · omega
  · omega

/-- The peer's host reads the event. -/
theorem feed_event {session : Nat} {q : Bytes} (hsession : session < 2 ^ 32) (hq : q.length ≤ 256) {d : StreamDecoder}
    (hbuffer : d.buffer = []) (hdiscarding : d.discarding = false) (hlimit : d.maxEncoded = 380) :
    d.feed (enc (frame Msg.rxEvent session 0 q) ++ [0]) =
      (d, [{ msgType := Protocol.Msg.radioRx, session := session, sequence := 0, payload := q }]) := by
  have hlength := length_frame Msg.rxEvent session 0 q
  have henc := length_enc (frame Msg.rxEvent session 0 q)
  have hwf := wellFormed_frame Msg.rxEvent session 0 (show q.length < 2 ^ 16 by omega)
  have hbody : Protocol.frameOfBody (frame Msg.rxEvent session 0 q) =
      some { msgType := Protocol.Msg.radioRx, session := session, sequence := 0, payload := q } := by
    rw [frameOfBody_eq (by rw [hlength]; simp only [UD]; omega), if_pos hwf, fields, typeOf_frame, sessionOf_frame,
      seqOf_frame, payloadOf_frame (by omega), Nat.mod_eq_of_lt hsession]
    rfl
  rw [enc_eq_cobsEncode] at henc ⊢
  have hfeed := Protocol.feed_frames hdiscarding hbuffer [frame Msg.rxEvent session 0 q] (fun b hb => by
    rw [List.mem_singleton.mp hb, hlimit]
    omega)
  simpa [hbody] using hfeed

theorem parse_rxPayload (hw : Hw) (hboot : boot < 2 ^ 32) (hair : air < 2 ^ 32) (p : Bytes) :
    ∃ r, parseRadioRx (rxPayload hw boot air p) = some r ∧ r.sender = boot ∧ r.air = air ∧ r.payload = p := by
  have hq : rxPayload hw boot air p = be32 boot ++
      (be32 air ++ (be16 hw.rssi100 ++ (be16 hw.snr100 ++ (be32 hw.millis ++ p)))) := by
    simp [rxPayload, w16, w32]
  unfold parseRadioRx
  rw [if_neg (by rw [hq]; simp; omega)]
  refine ⟨_, rfl, ?_, ?_, ?_⟩
  · rw [hq]
    exact (u32_be32 boot _).trans (Nat.mod_eq_of_lt hboot)
  · rw [hq]
    exact (u32_be32 air _).trans (Nat.mod_eq_of_lt hair)
  · rw [hq]
    rfl

/-! ## From one host to the other -/

/-- A packet brings a payload to a peer and to the host behind it. -/
structure Carries (packet : Bytes) (boot air : Nat) (p : Bytes) : Prop where
  size : packet.length ≤ AD
  encoded : encodeRadio boot air p = some packet
  decoded : decodeRadio packet = some (boot, air, p)
  counted : ∀ (hw : Hw) (t : Fw), t.active = false →
    t.received hw (radioBuffer packet) packet.length = t.count fun c => { c with rx := c.rx + 1 }
  offered : ∀ (hw : Hw) (t : Fw), t.active = true → t.session < 2 ^ 32 → ∃ f q r,
    t.received hw (radioBuffer packet) packet.length = (t.count fun c => { c with rx := c.rx + 1 }).putQ f true ∧
      (∀ (u : Fw) (availableForWrite : Int) (written : Nat), u.qn ≠ 0 → (u.slot 0).b = f →
        ((enc f).length : Int) + 1 ≤ availableForWrite → (enc f).length + 1 ≤ written →
        (u.flush availableForWrite written).calls = u.calls ++ [.serialWrite (enc f ++ [0])]) ∧
      (∀ d : StreamDecoder, d.buffer = [] → d.discarding = false → d.maxEncoded = 380 → d.feed (enc f ++ [0]) =
        (d, [{ msgType := Protocol.Msg.radioRx, session := t.session, sequence := 0, payload := q }])) ∧
      parseRadioRx q = some r ∧ r.sender = boot ∧ r.air = air ∧ r.payload = p

theorem carries_airPacket (hboot : 0 < boot ∧ boot < 2 ^ 32) (hair : 0 < air ∧ air < 2 ^ 32)
    (hp : 1 ≤ p.length ∧ p.length ≤ AM) : Carries (airPacket boot air p) boot air p := by
  refine ⟨?_, airPacket_eq_encodeRadio hboot hair hp, decodeRadio_airPacket hboot.2 hair.2 hp, ?_, ?_⟩
  · rw [length_airPacket]
    simp only [AM, AD] at hp ⊢
    omega
  · intro hw t hactive
    rw [received_airPacket hboot.2 hair.2 hp, if_pos hactive]
  · intro hw t hactive hsession
    obtain ⟨r, hparse, hr⟩ := parse_rxPayload hw hboot.2 hair.2 p
    refine ⟨frame Msg.rxEvent t.session 0 (rxPayload hw boot air p), rxPayload hw boot air p, r, ?_, ?_, ?_, hparse, hr⟩
    · rw [received_airPacket hboot.2 hair.2 hp, if_neg (by rw [hactive]; exact Bool.noConfusion)]
    · intro u availableForWrite written hqn hslot hroom hwritten
      exact flush_event hqn hslot hroom hwritten
    · intro d hbuffer hdiscarding hlimit
      apply feed_event hsession ?_ hbuffer hdiscarding hlimit
      simp only [rxPayload, w16, w32, List.length_append, length_be16, length_be32]
      simp only [AM] at hp
      omega

end Packet

/-! ## The air sequences -/

/-- The air sequence of a packet. -/
def airOf (packet : Bytes) : Nat := r32 (packet.drop 10)

/-- The numbers from `v` on that are not zero, around the end of 32 bits. -/
def airValue (v i : Nat) : Nat := (v - 1 + i) % (2 ^ 32 - 1) + 1

theorem nextAir_pos {airNext : Nat} (h : airNext < 2 ^ 32) :
    0 < (nextAir airNext).1 ∧ (nextAir airNext).1 < 2 ^ 32 ∧ (nextAir airNext).2 < 2 ^ 32 := by
  unfold nextAir
  by_cases hzero : airNext = 0
  · simp [hzero]
  · simp only [if_neg hzero]
    omega

/-- One number after the other. -/
theorem nextAir_next {airNext v n : Nat} (h : airNext < 2 ^ 32) (hv : (nextAir airNext).1 = airValue v n) :
    (nextAir (nextAir airNext).2).1 = airValue v (n + 1) := by
  have hstep : (nextAir (nextAir airNext).2).1 = (nextAir airNext).1 % (2 ^ 32 - 1) + 1 := by
    unfold nextAir
    by_cases hzero : airNext = 0
    · simp [hzero]
    · simp only [if_neg hzero]
      split <;> omega
  rw [hstep, hv]
  unfold airValue
  omega

theorem airValue_injOn {v i j : Nat} (hij : i < j) (hj : j < i + (2 ^ 32 - 1)) : airValue v i ≠ airValue v j := by
  unfold airValue
  omega

/-- What is true of the attempts made so far, the first of which had the air sequence `v`. -/
structure Airs (v : Nat) (H : List Bytes) (s : Fw) : Prop where
  boot : 0 < s.boot ∧ s.boot < 2 ^ 32
  airNext : s.airNext < 2 ^ 32
  next : (nextAir s.airNext).1 = airValue v H.length
  airs : H.map airOf = (List.range H.length).map (airValue v)

theorem airs_step {v : Nat} {H : List Bytes} {s : Fw} (h : Airs v H s) (i : Input) :
    Airs v (H ++ attempts (step i s).calls) (step i s) := by
  obtain ⟨hpos, hlt, hnext⟩ := nextAir_pos h.airNext
  rcases step_air i s with hair | ⟨hw, b, -, ⟨-, -, hlength⟩, hair⟩
  · obtain ⟨hboot, hairNext, hsent⟩ := Air.mk.inj hair
    rw [hsent, List.append_nil]
    exact ⟨hboot ▸ h.boot, hairNext ▸ h.airNext, hairNext ▸ h.next, h.airs⟩
  · obtain ⟨hboot, hairNext, hsent⟩ := Air.mk.inj hair
    have hp : (payloadOf b).length < 2 ^ 16 := by
      simp only [AM] at hlength
      omega
    have hone : airOf (airPacket s.boot (nextAir s.airNext).1 (payloadOf b)) = airValue v H.length := by
      have hfields := (airPacket_fields h.boot.2 hlt hp []).2.1
      rw [List.append_nil] at hfields
      exact hfields.trans h.next
    rw [hsent, List.nil_append]
    refine ⟨hboot ▸ h.boot, hairNext ▸ hnext, ?_, ?_⟩
    · rw [List.length_append, List.length_singleton]
      exact hairNext ▸ nextAir_next h.airNext h.next
    · rw [List.length_append, List.length_singleton, List.range_succ, List.map_append, List.map_append, h.airs]
      simp [hone]

theorem airs_setup (d : Board) : Airs (nextAir (setup d).airNext).1 [] (setup d) := by
  have hlisten : ∀ (hw : Hw) (s : Fw), (s.listen hw).boot = s.boot ∧ (s.listen hw).airNext = s.airNext := by
    intro hw s
    obtain ⟨hboot, hairNext, -⟩ := Air.mk.inj (Fw.air_listen hw s)
    exact ⟨hboot, hairNext⟩
  have hboard : (setup d).boot = (if d.boot % 2 ^ 32 = 0 then 1 else d.boot % 2 ^ 32) ∧
      (setup d).airNext = (if d.airNext % 2 ^ 32 = 0 then 1 else d.airNext % 2 ^ 32) := by
    unfold setup
    simp only
    split
    · exact ⟨rfl, rfl⟩
    · split
      · exact hlisten _ _
      · exact ⟨rfl, rfl⟩
  have hboot : 0 < (setup d).boot ∧ (setup d).boot < 2 ^ 32 := by
    rw [hboard.1]
    split <;> omega
  have hairNext : (setup d).airNext < 2 ^ 32 := by
    rw [hboard.2]
    split <;> omega
  obtain ⟨hpos, hlt, -⟩ := nextAir_pos hairNext
  refine ⟨hboot, hairNext, ?_, rfl⟩
  unfold airValue
  simp only [List.length_nil]
  omega

/-- **Payloads across two modems.** After every run from a start, a modem that is ready and idle makes a packet of the
payload that carries it to the host of every peer. In every run the packets are those of accepted SEND frames; their
air sequences are never zero, and differ within every window of `2 ^ 32 - 1` attempts. -/
theorem payload_transparency (d : Board) (is : List Input) :
    (∀ (hw : Hw) (p : Bytes) (seq : Nat), 1 ≤ p.length ∧ p.length ≤ 200 → (run step (setup d) is).ready = true →
      (run step (setup d) is).rs ≠ .transmitting → (run step (setup d) is).pending = false →
      ∃ packet, attempts ((run step (setup d) is).sendAir hw p seq).calls =
          attempts (run step (setup d) is).calls ++ [packet] ∧
        Carries packet (run step (setup d) is).boot (nextAir (run step (setup d) is).airNext).1 p) ∧
    (∀ x ∈ trace step (setup d) is, ∀ packet ∈ attempts x.after.calls, ∃ hw b, x.input = .handle hw b ∧
      typeOf b = Msg.send ∧ 1 ≤ (payloadOf b).length ∧ (payloadOf b).length ≤ 200 ∧
      Carries packet x.before.boot (nextAir x.before.airNext).1 (payloadOf b)) ∧
    let airs := (outputs (fun x => attempts x.after.calls) (trace step (setup d) is)).map airOf
    0 ∉ airs ∧ ∀ i j a, i < j → j < i + (2 ^ 32 - 1) → airs[i]? = some a → airs[j]? ≠ some a := by
  have hrun := run_rel (f := fun x : Move Fw Input => attempts x.after.calls) (G := fun _ => True) (airs_setup d)
    (fun H i s h _ => airs_step h i)
  refine ⟨?_, ?_, ?_⟩
  · intro hw p seq hp hready hrs hpending
    have h := hrun is fun _ _ => trivial
    obtain ⟨hpos, hlt, -⟩ := nextAir_pos h.airNext
    have hair := Fw.air_sendAir_idle (s := run step (setup d) is) (by rw [hready]; exact Bool.noConfusion)
      (by rw [hpending]; exact not_or.mpr ⟨hrs, Bool.noConfusion⟩) hw p seq
    exact ⟨_, (Air.mk.inj hair).2.2, carries_airPacket h.boot ⟨hpos, hlt⟩ hp⟩
  · intro x hx packet hpacket
    obtain ⟨T₁, T₂, hT⟩ := List.append_of_mem hx
    have h := trace_rel (f := fun x : Move Fw Input => attempts x.after.calls) (G := fun _ => True) (airs_setup d)
      (fun H i s h _ => airs_step h i) hT fun _ _ => trivial
    obtain ⟨hpos, hlt, -⟩ := nextAir_pos h.airNext
    rw [trace_step hx] at hpacket
    rcases step_air x.input x.before with hair | ⟨hw, b, hinput, ⟨htype, hlength⟩, hair⟩
    · rw [(Air.mk.inj hair).2.2] at hpacket
      exact absurd hpacket List.not_mem_nil
    · rw [(Air.mk.inj hair).2.2, List.nil_append, List.mem_singleton] at hpacket
      rw [hpacket]
      exact ⟨hw, b, hinput, htype, hlength.1, hlength.2, carries_airPacket h.boot ⟨hpos, hlt⟩ hlength⟩
  · intro airs
    have hairs : airs = (List.range _).map (airValue _) := (hrun is fun _ _ => trivial).airs
    rw [hairs]
    constructor
    · intro hzero
      obtain ⟨i, -, hi⟩ := List.mem_map.mp hzero
      exact absurd hi (Nat.succ_ne_zero _)
    · intro i j a hij hj hi hsame
      have hvalue : ∀ {k : Nat}, ((List.range (outputs (fun x => attempts x.after.calls)
          (trace step (setup d) is)).length).map (airValue (nextAir (setup d).airNext).1))[k]? = some a →
          airValue (nextAir (setup d).airNext).1 k = a := by
        intro k hk
        rw [List.getElem?_map, Option.map_eq_some_iff] at hk
        obtain ⟨k', hk', rfl⟩ := hk
        rw [(List.getElem?_eq_some_iff.mp hk').2.symm, List.getElem_range]
      exact airValue_injOn hij hj ((hvalue hi).trans (hvalue hsame).symm)

end LoraLink.Firmware
