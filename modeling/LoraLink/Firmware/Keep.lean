import LoraLink.Firmware.Machine

/-!
# What the functions of the firmware keep

`Keeps G I`: the invariant `I` speaks of the input buffer, the queue and its counters, and the kept response only, and
putting a frame with `G` on the queue, or keeping it for a retry, keeps `I`. Then every function of the firmware keeps
it but those that read a packet or write the queue; of the end of a transmission it is needed that the frame that
reports its success has `G`.
-/

namespace LoraLink.Firmware

namespace Fw

/-- The fields that a request or a transmission changes through the queue only. -/
def outer (s : Fw) : Bytes × Bool × List F × Nat × Nat × Nat × Nat × Nat × Nat × Nat × Nat :=
  (s.inb, s.over, s.q, s.qh, s.qt, s.qn, s.c.usbFrames, s.c.rx, s.c.rxEventQueued, s.c.rxEventWritten, s.c.drops)

structure Keeps (G : Bytes → Prop) (I : Fw → Prop) : Prop where
  face : ∀ {s : Fw}, I s → ∀ s' : Fw, s'.outer = s.outer → s'.lastResp = s.lastResp → I s'
  put : ∀ {s : Fw} {b : Bytes}, G b → I s → I (s.putQ b false)
  resp : ∀ {s : Fw} {b : Bytes}, G b → I s → I { s with lastResp := b }
  kept : ∀ {s : Fw}, I s → G s.lastResp
  /-- Only the frame that reports a success may lack `G`. -/
  other : ∀ {b : Bytes}, typeOf b ≠ Msg.txok → G b

namespace Keeps

variable {G : Bytes → Prop} {I : Fw → Prop} (hI : Keeps G I) {s : Fw}

include hI

theorem note (h : I s) (call : Call) : I (s.note call) := hI.face h _ rfl rfl

theorem setRs (h : I s) (rs : RS) : I (s.setRs rs) := hI.face h _ rfl rfl

theorem clearIrq (h : I s) : I s.clearIrq := hI.face h _ rfl rfl

theorem clearPending (h : I s) : I s.clearPending := hI.face h _ rfl rfl

theorem countRadio (h : I s) : I s.countRadio := hI.face h _ rfl rfl

theorem countAccepted (h : I s) : I s.countAccepted := hI.face h _ rfl rfl

theorem accept (h : I s) (b : Bytes) : I (s.accept b) := hI.face h _ rfl rfl

theorem reply (h : I s) {type : UInt8} {seq : Nat} {p : Bytes} (hG : G (frame type s.session seq p)) (cache : Bool) :
    I (s.reply type seq p cache) := by
  cases cache
  · exact hI.put hG h
  · exact hI.put hG (hI.face (hI.resp hG h) _ rfl rfl)

theorem error (h : I s) (seq code : Nat) (detail : Int) (type : UInt8) (cache : Bool) :
    I (s.error seq code detail type cache) :=
  hI.reply h (hI.other (by rw [typeOf_frame]; decide)) cache

theorem errorFor (h : I s) (ses seq code : Nat) (detail : Int) (type : UInt8) :
    I (s.errorFor ses seq code detail type) :=
  hI.put (hI.other (by rw [typeOf_frame]; decide)) h

theorem listen (h : I s) (hw : Hw) : I (s.listen hw) := by
  unfold Fw.listen
  split
  · exact h
  · simp only
    split
    · exact hI.face h _ rfl rfl
    · exact hI.face h _ rfl rfl

/-! ## Requests -/

theorem sendAir (h : I s) (hw : Hw) (p : Bytes) (seq : Nat) : I (s.sendAir hw p seq) := by
  unfold Fw.sendAir
  split
  · exact hI.error h _ _ _ _ _
  · split
    · exact hI.error h _ _ _ _ _
    · have hprepare : I (s.prepareTx hw p seq) := hI.face h _ rfl rfl
      simp only
      generalize s.prepareTx hw p seq = t at hprepare ⊢
      have hair := hI.note hprepare (.startTransmit t.txPacket hw.startTransmit)
      split
      · exact hI.listen (hI.error (hI.clearPending (hI.setRs (hI.countRadio hair) .down)) _ _ _ _ _) hw
      · exact hI.face hair _ rfl rfl

theorem info (h : I s) (hw : Hw) (seq : Nat) : I (s.info hw seq) :=
  hI.reply h (hI.other (by rw [typeOf_frame]; decide)) true

theorem status (h : I s) (hw : Hw) (seq : Nat) : I (s.status hw seq) :=
  hI.reply h (hI.other (by rw [typeOf_frame]; decide)) true

theorem diagnostics (h : I s) (seq : Nat) : I (s.diagnostics seq) :=
  hI.reply h (hI.other (by rw [typeOf_frame]; decide)) true

theorem serve (h : I s) (hw : Hw) (b : Bytes) : I (s.serve hw b) := by
  have haccept : I (s.acceptRequest b) := hI.face h _ rfl rfl
  unfold Fw.serve
  simp only
  generalize s.acceptRequest b = t at haccept ⊢
  have hsend : I (t.countAccepted.count fun c => { c with sendAccepted := c.sendAccepted + 1 }) :=
    hI.face haccept _ rfl rfl
  split
  · split
    · exact hI.error haccept _ _ _ _ _
    · exact hI.sendAir hsend hw _ _
  · split
    · split
      · exact hI.error haccept _ _ _ _ _
      · exact hI.status (hI.countAccepted haccept) hw _
    · split
      · split
        · exact hI.error haccept _ _ _ _ _
        · exact hI.diagnostics (hI.countAccepted haccept) _
      · exact hI.error haccept _ _ _ _ _

theorem handleRequest (h : I s) (hw : Hw) (b : Bytes) : I (s.handleRequest hw b) := by
  unfold Fw.handleRequest
  simp only
  split
  · exact hI.errorFor h _ _ _ _ _
  · split
    · exact hI.error h _ _ _ _ _
    · split
      · split
        · exact hI.error h _ _ _ _ _
        · split
          · exact hI.put (hI.kept h) h
          · exact hI.error h _ _ _ _ _
      · split
        · exact hI.error h _ _ _ _ _
        · exact hI.serve h hw b

theorem handleHello (h : I s) (hw : Hw) (b : Bytes) : I (s.handleHello hw b) := by
  have hreset : I (s.resetSession (sessionOf b)) := hI.face (hI.resp (b := []) (hI.other (by decide)) h) _ rfl rfl
  unfold Fw.handleHello
  simp only
  split
  · exact hI.errorFor h _ _ _ _ _
  · split
    · exact hI.error h _ _ _ _ _
    · split
      · exact hI.info (hI.countAccepted (hI.accept hreset b)) hw _
      · split
        · exact hI.error h _ _ _ _ _
        · split
          · split
            · exact hI.put (hI.kept h) h
            · exact hI.error h _ _ _ _ _
          · exact hI.info (hI.countAccepted (hI.accept h b)) hw _

/-- A frame is counted, and handled. -/
theorem handle (h : I s) (hcount : I (s.count fun c => { c with usbFrames := c.usbFrames + 1 })) (hw : Hw) (b : Bytes) :
    I (s.handle hw b) := by
  have hbad : I s.countUsbBad := hI.face h _ rfl rfl
  unfold Fw.handle
  split
  · exact hbad
  · split
    · exact hbad
    · simp only
      split
      · exact hI.handleHello hcount hw b
      · exact hI.handleRequest hcount hw b

/-! ## The radio -/

theorem txDone (h : I s) (hw : Hw) (hG : hw.finishTransmit = radiolibErrNone → s.ownTx = true →
    ∀ p, G (frame Msg.txok s.session s.txSeq p)) : I (s.txDone hw) := by
  have hdown := hI.setRs (hI.note h (.finishTransmit hw.finishTransmit)) .down
  have htx : I (((s.note (.finishTransmit hw.finishTransmit)).setRs .down).count fun c => { c with tx := c.tx + 1 }) :=
    hI.face hdown _ rfl rfl
  unfold Fw.txDone
  simp only
  split
  · rename_i hok
    split
    · rename_i hown
      exact hI.reply (hI.clearPending htx) (hG hok hown _) true
    · exact htx
  · split
    · exact hI.error (hI.clearPending (hI.countRadio hdown)) _ _ _ _ _
    · exact hI.countRadio hdown

theorem txWatchdog (h : I s) (hw : Hw) : I (s.txWatchdog hw) := by
  have hdown := hI.setRs (hI.note (hI.countRadio h) .standby) .down
  unfold Fw.txWatchdog
  split
  · exact h
  · simp only
    split
    · exact hI.listen (hI.error (hI.clearPending hdown) _ _ _ _ _) hw
    · exact hI.listen hdown hw

/-- The interrupt of the radio: what it is to read a packet is left open. -/
theorem radioTask (h : I s) (hw : Hw) (hG : ¬ (s.irq = false ∨ s.ready = false) → s.rs = .transmitting →
    hw.finishTransmit = radiolibErrNone → s.ownTx = true → ∀ p, G (frame Msg.txok s.session s.txSeq p))
    (hreceived : s.rs ≠ .transmitting → I (s.clearIrq.received hw (radioBuffer hw.packet) hw.packetLength)) :
    I (s.radioTask hw) := by
  unfold Fw.radioTask
  split
  · exact h
  · rename_i hgo
    simp only
    split
    · rename_i hair
      exact hI.listen (hI.txDone (hI.clearIrq h) hw (hG hgo hair)) hw
    · rename_i hair
      split
      · exact hI.listen (hreceived hair) hw
      · exact hI.listen (hI.countRadio (hI.clearIrq h)) hw

end Keeps

end Fw

end LoraLink.Firmware
