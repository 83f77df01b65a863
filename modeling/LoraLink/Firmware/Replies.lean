import LoraLink.Firmware.Tally
import LoraLink.Usb.Transparency

/-!
# What the modem says

- `Tells`: frames are put on the queue as responses, or kept for a retry, and nothing else is done to either;
- `Answer`: the frames that the modem may say to a frame it handles: an error, the response that it keeps, or what the
  type of the frame asks for, taken from the state at that moment;
- `handle_tells`, `radioTask_tells`, `txWatchdog_tells`: each task tells such frames only; a packet read from the radio is
  one more frame, an event (`eventFrame`);
- `Tells.said`: so the events in the queue stay in order, and no response is among them.
-/

namespace LoraLink.Firmware

open scoped List

/-! ## Payloads -/

def infoPayload (mac boot : Nat) (ready : Bool) (millis : Nat) : Bytes :=
  ((List.range 6).map fun i => UInt8.ofNat (mac / 2 ^ (8 * i))) ++ w32 boot ++ w32 15 ++ w16 AM ++
    [if ready then 1 else 0, 1] ++ w32 millis

def statusPayload (boot millis : Nat) (rs : RS) (c : C) : Bytes :=
  w32 boot ++ w32 millis ++ [rs.toByte, 0, 0, 0] ++ w32 c.tx ++ w32 c.rx ++ w32 c.rxBad ++ w32 c.usbBad ++ w32 c.radio ++
    w32 c.drops

def diagnosticsPayload (c : C) (qn : Nat) : Bytes :=
  w32 c.usbFrames ++ w32 c.usbAccepted ++ w32 c.sendAccepted ++ w32 c.txStarted ++ w32 c.tx ++ w32 c.rx ++
    w32 c.rxEventQueued ++ w32 c.rxEventWritten ++ w32 c.drops ++ w32 qn

/-- The counters when a request has been accepted. -/
def C.accepted (c : C) : C := { c with usbFrames := c.usbFrames + 1, usbAccepted := c.usbAccepted + 1 }

/-- What the modem may say to the frame `b`. -/
inductive Answer (hw : Hw) (b : Bytes) (s : Fw) : Bytes → Prop
  | error (ses seq code : Nat) (detail : Int) (type : UInt8) :
    Answer hw b s (frame Msg.err ses seq (errorPayload code detail type))
  | again : Answer hw b s s.lastResp
  | info (ht : typeOf b = Msg.hello) :
    Answer hw b s (frame Msg.info (sessionOf b) (seqOf b) (infoPayload s.mac s.boot s.ready hw.millis))
  | status (ht : typeOf b = Msg.getStatus) :
    Answer hw b s (frame Msg.stat s.session (seqOf b) (statusPayload s.boot hw.millis s.rs s.c.accepted))
  | diagnostics (ht : typeOf b = Msg.getDiagnostics) :
    Answer hw b s (frame Msg.diagnostics s.session (seqOf b) (diagnosticsPayload s.c.accepted s.qn))

/-- What the modem may say when a transmission ends. -/
inductive Result (s : Fw) : Bytes → Prop
  | error (seq code : Nat) (detail : Int) (type : UInt8) :
    Result s (frame Msg.err s.session seq (errorPayload code detail type))
  | done (seq : Nat) (p : Bytes) : Result s (frame Msg.txok s.session seq p)

namespace Fw

/-- The queue, the response that is kept, and the calls. -/
def post (s : Fw) : List F × Nat × Nat × Nat × Bytes × List Call := (s.q, s.qh, s.qt, s.qn, s.lastResp, s.calls)

/-- From `s` on, responses with `P` have been put on the queue, and kept for a retry or not. -/
inductive Tells (P : Bytes → Prop) (s : Fw) : Fw → Prop
  | start : Tells P s s
  | turn {t u : Fw} (h : Tells P s t) (hpost : u.post = t.post) : Tells P s u
  | note {t : Fw} (h : Tells P s t) (call : Call) : Tells P s (t.note call)
  | put {t : Fw} (h : Tells P s t) {b : Bytes} (hb : P b) : Tells P s (t.putQ b false)
  | keep {t : Fw} (h : Tells P s t) {b : Bytes} (hb : P b) :
    Tells P s (Fw.putQ { t with lastResp := b, haveLast := true } b false)
  | forget {t : Fw} (h : Tells P s t) : Tells P s { t with lastResp := [] }

namespace Tells

variable {P : Bytes → Prop} {s t : Fw}

theorem reply (h : Tells P s t) {type : UInt8} {seq : Nat} {p : Bytes} (hP : P (frame type t.session seq p))
    (cache : Bool) : Tells P s (t.reply type seq p cache) := by
  cases cache
  · exact h.put hP
  · exact h.keep hP

theorem listen (h : Tells P s t) (hw : Hw) : Tells P s (t.listen hw) := by
  unfold Fw.listen
  split
  · exact h
  · simp only
    split
    · exact h.turn rfl
    · exact h.turn rfl

end Tells

/-! ## The queue -/

/-- What is in the queue of `t`, behind `s`: no event is new, and every response that is has `P`. -/
structure Said (P : Bytes → Prop) (s t : Fw) : Prop where
  ring : t.RingOk
  events : t.entries.filter F.event <+ s.entries.filter F.event
  frames : ∀ f ∈ t.entries, f ∈ s.entries ∨ f.event = false ∧ P f.b
  last : t.lastResp = s.lastResp ∨ t.lastResp = [] ∨ P t.lastResp

theorem Said.mono {P Q : Bytes → Prop} {s t : Fw} (h : Said P s t) (hPQ : ∀ b, P b → Q b) : Said Q s t :=
  ⟨h.ring, h.events, fun f hf => (h.frames f hf).imp_right fun hnew => ⟨hnew.1, hPQ _ hnew.2⟩,
    h.last.imp_right fun hnew => hnew.imp_right (hPQ _)⟩

/-- The queue and the response that is kept are all that matters. -/
theorem Said.turn {P : Bytes → Prop} {s t u : Fw} (h : Said P s t) (hpost : u.post = t.post) : Said P s u := by
  simp only [post, Prod.mk.injEq] at hpost
  obtain ⟨hq, hqh, hqt, hqn, hlast, -⟩ := hpost
  have hentries : u.entries = t.entries := by rw [entries, entries, hq, hqh, hqn]
  refine ⟨⟨?_, ?_, ?_⟩, ?_, ?_, ?_⟩
  · rw [hq]
    exact h.ring.size
  · rw [hqn]
    exact h.ring.count
  · rw [hqt, hqh, hqn]
    exact h.ring.tail
  · rw [hentries]
    exact h.events
  · rw [hentries]
    exact h.frames
  · rw [hlast]
    exact h.last

theorem Said.put {P : Bytes → Prop} {s t : Fw} (h : Said P s t) {b : Bytes} (hb : P b) : Said P s (t.putQ b false) := by
  obtain ⟨hput, hentries, -⟩ := putQ_entries h.ring b false
  have hresp : (t.putQ b false).lastResp = t.lastResp := congrArg Core.lastResp (core_putQ t b false)
  refine ⟨hput, ?_, fun f hf => ?_, hresp ▸ h.last⟩
  · rw [hentries]
    have hfilter := @Spool.filter_put F QD F.event { b := b, event := false } t.entries
    rw [show [({ b := b, event := false } : F)].filter F.event = [] from rfl, List.append_nil] at hfilter
    exact hfilter.trans h.events
  · rw [hentries] at hf
    rcases Spool.mem_put hf with hf | rfl
    · exact h.frames f hf
    · exact Or.inr ⟨rfl, hb⟩

/-- What is told is in the queue by a call of `putQ`. -/
theorem Tells.said {P : Bytes → Prop} {s t : Fw} (h : Tells P s t) (hring : s.RingOk) :
    Said (fun b => P b ∧ Call.putQ b false ∈ t.calls) s t := by
  -- what was offered before a frame is put, and the frame itself
  have hmore : ∀ (t : Fw) {b r : Bytes}, P r ∧ Call.putQ r false ∈ t.calls →
      P r ∧ Call.putQ r false ∈ (t.putQ b false).calls := fun t b r hr => by
    rw [calls_putQ]
    exact ⟨hr.1, List.mem_append_left _ hr.2⟩
  have hoffered : ∀ (t : Fw) (b : Bytes), Call.putQ b false ∈ (t.putQ b false).calls := fun t b => by
    rw [calls_putQ]
    exact List.mem_append_right _ (List.mem_singleton_self _)
  induction h with
  | start => exact ⟨hring, List.Sublist.refl _, fun f hf => Or.inl hf, Or.inl rfl⟩
  | turn _ hpost ih =>
    have hcalls := hpost
    simp only [post, Prod.mk.injEq] at hcalls
    obtain ⟨-, -, -, -, -, hcalls⟩ := hcalls
    rw [hcalls]
    exact ih.turn hpost
  | @note t _ call ih =>
    obtain ⟨hring, hevents, hframes, hlast⟩ := ih.mono (Q := fun b => P b ∧ Call.putQ b false ∈ (t.note call).calls)
      fun b hb => ⟨hb.1, List.mem_append_left [call] hb.2⟩
    exact ⟨⟨hring.size, hring.count, hring.tail⟩, hevents, fun f hf => hframes f hf, hlast⟩
  | @put t _ b hb ih => exact (ih.mono fun r hr => hmore t hr).put ⟨hb, hoffered t b⟩
  | @keep t _ b hb ih =>
    obtain ⟨hring, hevents, hframes, -⟩ :=
      ih.mono fun r hr => hmore { t with lastResp := b, haveLast := true } (b := b) hr
    refine Said.put (t := { t with lastResp := b, haveLast := true }) ⟨?_, hevents, fun f hf => hframes f hf, ?_⟩
      ⟨hb, hoffered _ b⟩
    · exact ⟨hring.size, hring.count, hring.tail⟩
    · exact Or.inr (Or.inr ⟨hb, hoffered _ b⟩)
  | forget _ ih => exact ⟨⟨ih.ring.size, ih.ring.count, ih.ring.tail⟩, ih.events, ih.frames, Or.inr (Or.inl rfl)⟩

/-- An event is offered: it is the last of them if it is taken. -/
theorem Said.event {P : Bytes → Prop} {s t : Fw} (h : Said P s t) (b : Bytes) :
    (t.putQ b true).RingOk ∧
      (t.putQ b true).entries.filter F.event <+ s.entries.filter F.event ++ [{ b := b, event := true }] ∧
      (∀ f ∈ (t.putQ b true).entries, f = { b := b, event := true } ∨ f ∈ s.entries ∨ f.event = false ∧ P f.b) ∧
      (t.putQ b true).lastResp = t.lastResp := by
  obtain ⟨hput, hentries, -⟩ := putQ_entries h.ring b true
  refine ⟨hput, ?_, fun f hf => ?_, congrArg Core.lastResp (core_putQ t b true)⟩
  · rw [hentries]
    have hfilter := @Spool.filter_put F QD F.event { b := b, event := true } t.entries
    exact hfilter.trans (h.events.append_right _)
  · rw [hentries] at hf
    rcases Spool.mem_put hf with hf | rfl
    · exact Or.inr (h.frames f hf)
    · exact Or.inl rfl

/-! ## Requests -/

section Requests

variable {hw : Hw} {b : Bytes} {s t : Fw}

/-- An error of the session. -/
theorem Tells.error (h : Tells (Answer hw b s) s t) (seq code : Nat) (detail : Int) (type : UInt8) (cache : Bool) :
    Tells (Answer hw b s) s (t.error seq code detail type cache) :=
  h.reply (.error _ _ _ _ _) cache

theorem Tells.errorFor (h : Tells (Answer hw b s) s t) (ses seq code : Nat) (detail : Int) (type : UInt8) :
    Tells (Answer hw b s) s (t.errorFor ses seq code detail type) :=
  h.put (.error _ _ _ _ _)

theorem Tells.sendAir (h : Tells (Answer hw b s) s t) (p : Bytes) (seq : Nat) :
    Tells (Answer hw b s) s (t.sendAir hw p seq) := by
  unfold Fw.sendAir
  split
  · exact h.error _ _ _ _ _
  · split
    · exact h.error _ _ _ _ _
    · have hair : Tells (Answer hw b s) s
          ((t.prepareTx hw p seq).note (.startTransmit (t.prepareTx hw p seq).txPacket hw.startTransmit)) :=
        (h.turn (u := t.prepareTx hw p seq) rfl).note _
      simp only
      split
      · have hoff := hair.turn (u := (((t.prepareTx hw p seq).note
          (.startTransmit (t.prepareTx hw p seq).txPacket hw.startTransmit)).countRadio.setRs .down).clearPending) rfl
        exact (hoff.error _ _ _ _ _).listen hw
      · exact hair.turn rfl

/-- The state in which the frame has been counted. -/
theorem Tells.counted (ht : t = s.count fun c => { c with usbFrames := c.usbFrames + 1 }) :
    Tells (Answer hw b s) s t := by
  rw [ht]
  exact Tells.start.turn rfl

/-- The response to a retry. -/
theorem Tells.again (ht : t = s.count fun c => { c with usbFrames := c.usbFrames + 1 }) :
    Tells (Answer hw b s) s (t.putQ t.lastResp false) := by
  refine (Tells.counted ht).put ?_
  rw [ht]
  exact .again

/-- The end of `handle`, from the state in which the frame has been counted. -/
theorem serve_tells (ht : t = s.count fun c => { c with usbFrames := c.usbFrames + 1 }) :
    Tells (Answer hw b s) s (t.serve hw b) := by
  have hcount : Tells (Answer hw b s) s t := Tells.counted ht
  have haccept : Tells (Answer hw b s) s (t.acceptRequest b) := (hcount.note (.saveReq b)).turn rfl
  unfold serve
  simp only
  split
  · split
    · exact haccept.error _ _ _ _ _
    · exact (haccept.turn (u := (t.acceptRequest b).countAccepted.count fun c =>
        { c with sendAccepted := c.sendAccepted + 1 }) rfl).sendAir _ _
  · split
    · rename_i htype
      split
      · exact haccept.error _ _ _ _ _
      · refine Tells.reply (haccept.turn (u := (t.acceptRequest b).countAccepted) rfl) ?_ true
        rw [ht]
        exact .status htype
    · split
      · rename_i htype
        split
        · exact haccept.error _ _ _ _ _
        · refine Tells.reply (haccept.turn (u := (t.acceptRequest b).countAccepted) rfl) ?_ true
          rw [ht]
          exact .diagnostics htype
      · exact haccept.error _ _ _ _ _

theorem handleRequest_tells (ht : t = s.count fun c => { c with usbFrames := c.usbFrames + 1 }) :
    Tells (Answer hw b s) s (t.handleRequest hw b) := by
  have hcount : Tells (Answer hw b s) s t := Tells.counted ht
  unfold handleRequest
  simp only
  split
  · exact hcount.errorFor _ _ _ _ _
  · split
    · exact hcount.error _ _ _ _ _
    · split
      · split
        · exact hcount.error _ _ _ _ _
        · split
          · exact Tells.again ht
          · exact hcount.error _ _ _ _ _
      · split
        · exact hcount.error _ _ _ _ _
        · exact serve_tells ht

theorem handleHello_tells (htype : typeOf b = Msg.hello)
    (ht : t = s.count fun c => { c with usbFrames := c.usbFrames + 1 }) :
    Tells (Answer hw b s) s (t.handleHello hw b) := by
  have hcount : Tells (Answer hw b s) s t := Tells.counted ht
  -- the state in which a HELLO is answered
  have hgreet : ∀ u : Fw, Tells (Answer hw b s) s u → (u.mac, u.boot, u.ready) = (t.mac, t.boot, t.ready) →
      u.session = sessionOf b → Tells (Answer hw b s) s ((u.accept b).countAccepted.info hw (seqOf b)) := by
    intro u hu hface hses
    simp only [Prod.mk.injEq] at hface
    obtain ⟨hmac, hboot, hready⟩ := hface
    refine Tells.reply ((hu.note (.saveReq b)).turn (u := (u.accept b).countAccepted) rfl) ?_ true
    have hinfo : Answer hw b s _ := Answer.info htype
    rw [ht] at hmac hboot hready
    rw [← show u.mac = s.mac from hmac, ← show u.boot = s.boot from hboot, ← show u.ready = s.ready from hready,
      ← hses] at hinfo
    exact hinfo
  unfold handleHello
  simp only
  split
  · exact hcount.errorFor _ _ _ _ _
  · split
    · exact hcount.error _ _ _ _ _
    · split
      · refine hgreet _ ?_ rfl rfl
        exact (hcount.forget.note (.resetSession (sessionOf b))).turn rfl
      · rename_i hsame
        simp only [not_or, not_not] at hsame
        split
        · exact hcount.error _ _ _ _ _
        · split
          · split
            · exact Tells.again ht
            · exact hcount.error _ _ _ _ _
          · exact hgreet t hcount rfl hsame.2.symm

/-- A frame is handled. -/
theorem handle_tells (hw : Hw) (b : Bytes) (s : Fw) : Tells (Answer hw b s) s (s.handle hw b) := by
  unfold handle
  split
  · exact Tells.start.turn rfl
  · split
    · exact Tells.start.turn rfl
    · simp only
      split
      · exact handleHello_tells ‹_› rfl
      · exact handleRequest_tells rfl

end Requests

/-! ## The radio -/

section Radio

variable {s t : Fw}

theorem txDone_tells (h : Tells (Result s) s t) (hses : t.session = s.session) (hw : Hw) :
    Tells (Result s) s (t.txDone hw) := by
  have hresult : ∀ u : Fw, u.session = t.session → ∀ seq p, Result s (frame Msg.txok u.session seq p) := by
    intro u hu seq p
    rw [hu, hses]
    exact .done seq p
  have herror : ∀ u : Fw, u.session = t.session → ∀ seq code detail type,
      Result s (frame Msg.err u.session seq (errorPayload code detail type)) := by
    intro u hu seq code detail type
    rw [hu, hses]
    exact .error seq code detail type
  have hend := h.note (.finishTransmit hw.finishTransmit)
  unfold txDone
  simp only
  split
  · split
    · refine Tells.reply ?_ ?_ true
      · exact hend.turn rfl
      · exact hresult _ rfl _ _
    · exact hend.turn rfl
  · split
    · unfold Fw.error
      refine Tells.reply ?_ ?_ true
      · exact hend.turn rfl
      · exact herror _ rfl _ _ _ _
    · exact hend.turn rfl

theorem txWatchdog_tells (hw : Hw) (s : Fw) : Tells (Result s) s (s.txWatchdog hw) := by
  have hcount : Tells (Result s) s s.countRadio := Tells.start.turn rfl
  have hdown : Tells (Result s) s ((s.countRadio.note .standby).setRs .down) := (hcount.note .standby).turn rfl
  unfold txWatchdog
  split
  · exact Tells.start
  · simp only
    split
    · unfold Fw.error
      refine Tells.listen (Tells.reply ?_ (.error _ _ _ _) true) hw
      exact hdown.turn rfl
    · exact hdown.listen hw

end Radio

end Fw

/-! ## Packets -/

/-- The bytes that are read from the radio. -/
def readPacket (hw : Hw) : Bytes := (radioBuffer hw.packet).take hw.packetLength

namespace Fw

/-- `radioTask` reads a valid packet for a session. -/
def hears (hw : Hw) (s : Fw) : Bool :=
  s.irq && s.ready && s.rs != .transmitting && hw.readData == radiolibErrNone &&
    validPacket (radioBuffer hw.packet) hw.packetLength && s.active

/-- The event for the packet. -/
def eventFrame (hw : Hw) (s : Fw) : Bytes :=
  let b := radioBuffer hw.packet
  frame Msg.rxEvent s.session 0 (rxPayload hw (r32 (b.drop 6)) (r32 (b.drop 10)) ((b.drop 16).take (r16 (b.drop 14))))

/-- A packet that is read: an event for it is offered to the queue, or it is counted and nothing is said. -/
theorem received_tells (hw : Hw) (s t : Fw) (h : Tells (Result s) s t) (hses : t.session = s.session) :
    (validPacket (radioBuffer hw.packet) hw.packetLength = true ∧ t.active = true ∧
        ∃ u, Tells (Result s) s u ∧
          t.received hw (radioBuffer hw.packet) hw.packetLength = u.putQ (s.eventFrame hw) true) ∨
      (validPacket (radioBuffer hw.packet) hw.packetLength && t.active) = false ∧
        Tells (Result s) s (t.received hw (radioBuffer hw.packet) hw.packetLength) := by
  have hbad : Tells (Result s) s (t.count fun c => { c with rxBad := c.rxBad + 1 }) := h.turn rfl
  have hgood : Tells (Result s) s (t.count fun c => { c with rx := c.rx + 1 }) := h.turn rfl
  cases hvalid : validPacket (radioBuffer hw.packet) hw.packetLength with
  | false =>
    refine Or.inr ⟨rfl, ?_⟩
    simp only [validPacket, Bool.and_eq_false_iff, decide_eq_false_iff_not, not_not] at hvalid
    unfold received
    rcases hvalid with hhead | hbody
    · rw [if_pos hhead]
      exact hbad
    · simp only [hbody, if_true]
      split <;> exact hbad
  | true =>
    simp only [validPacket, Bool.and_eq_true, decide_eq_true_eq] at hvalid
    have hreceived : t.received hw (radioBuffer hw.packet) hw.packetLength =
        if t.active = false then t.count fun c => { c with rx := c.rx + 1 }
        else (t.count fun c => { c with rx := c.rx + 1 }).putQ (s.eventFrame hw) true := by
      unfold received eventFrame
      simp only [if_neg hvalid.1, if_neg hvalid.2, ← hses]
      rfl
    rw [hreceived]
    cases hactive : t.active with
    | false =>
      refine Or.inr ⟨rfl, ?_⟩
      rw [if_pos rfl]
      exact hgood
    | true =>
      refine Or.inl ⟨rfl, rfl, _, hgood, ?_⟩
      rw [if_neg (by simp)]

/-- The interrupt of the radio: an event is offered to the queue if a packet is heard. -/
theorem radioTask_tells (hw : Hw) (s : Fw) :
    (s.hears hw = true ∧ ∃ u, Tells (Result s) s u ∧ s.radioTask hw = (u.putQ (s.eventFrame hw) true).listen hw) ∨
      s.hears hw = false ∧ Tells (Result s) s (s.radioTask hw) := by
  have hclear : Tells (Result s) s s.clearIrq := Tells.start.turn rfl
  unfold radioTask
  split
  · rename_i hoff
    refine Or.inr ⟨?_, Tells.start⟩
    unfold hears
    rcases hoff with hirq | hready
    · rw [hirq]
      rfl
    · rw [hready, Bool.and_false]
      rfl
  · rename_i hgo
    simp only [not_or, Bool.not_eq_false] at hgo
    obtain ⟨hirq, hready⟩ := hgo
    simp only
    split
    · rename_i hair
      refine Or.inr ⟨?_, (txDone_tells hclear rfl hw).listen hw⟩
      have hair : s.rs = .transmitting := hair
      unfold hears
      rw [hair]
      simp
    · rename_i hair
      have hair : (s.rs != .transmitting) = true := bne_iff_ne.mpr hair
      split
      · rename_i hread
        have hread : (hw.readData == radiolibErrNone) = true := beq_iff_eq.mpr hread
        rcases received_tells hw s s.clearIrq hclear rfl with ⟨hvalid, hactive, u, hu, heq⟩ | ⟨hno, htells⟩
        · refine Or.inl ⟨?_, u, hu, by rw [heq]⟩
          unfold hears
          rw [hirq, hready, hair, hread, hvalid, show s.active = true from hactive]
          rfl
        · refine Or.inr ⟨?_, htells.listen hw⟩
          unfold hears
          rw [hirq, hready, hair, hread, Bool.true_and, Bool.true_and, Bool.true_and, Bool.true_and]
          exact hno
      · rename_i hread
        have hcount : Tells (Result s) s s.clearIrq.countRadio := hclear.turn rfl
        refine Or.inr ⟨?_, hcount.listen hw⟩
        have hread : (hw.readData == radiolibErrNone) = false := beq_eq_false_iff_ne.mpr hread
        unfold hears
        rw [hread]
        simp

theorem byteAt_take {b : Bytes} {n i : Nat} (h : i < n) : byteAt (b.take n) i = byteAt b i := by
  simp [byteAt, h]

/-- A packet that is heard is one that a peer's encoder makes, and its event carries what it carries. -/
theorem hears_decodes {hw : Hw} {s : Fw} (h : s.hears hw = true) :
    ∃ boot air p, Protocol.decodeRadio (readPacket hw) = some (boot, air, p) ∧
      s.eventFrame hw = frame Msg.rxEvent s.session 0 (rxPayload hw boot air p) := by
  simp only [hears, Bool.and_eq_true] at h
  obtain ⟨⟨-, hvalid⟩, -⟩ := h
  unfold readPacket eventFrame
  generalize hb : radioBuffer hw.packet = b at hvalid
  generalize hn : hw.packetLength = n at hvalid
  have hlength : b.length = 218 := by
    rw [← hb, radioBuffer, List.length_append, List.length_take, List.length_replicate, AD]
    omega
  simp only [validPacket, Bool.and_eq_true, decide_eq_true_eq, not_or, not_not] at hvalid
  obtain ⟨⟨hshort, h0, h1, h2, h3, h4, h5⟩, hnone, hlong, hsize, hcrc⟩ := hvalid
  simp only [AM, r16, V] at *
  -- the buffer and the part of it that is read have the same fields
  have h16 : ∀ k, k + 2 ≤ n → u16 ((b.take n).drop k) = u16 (b.drop k) := by
    intro k hk
    simp only [u16, byteAt_drop]
    rw [byteAt_take (by omega), byteAt_take (by omega)]
  have h32 : ∀ k, k + 4 ≤ n → u32 ((b.take n).drop k) = u32 (b.drop k) := by
    intro k hk
    simp only [u32, byteAt_drop]
    rw [byteAt_take (by omega), byteAt_take (by omega), byteAt_take (by omega), byteAt_take (by omega)]
  have hread : (b.take n).length = n := by
    rw [List.length_take]
    omega
  have hmagic : (b.take n).take 2 = [0x4d, 0x4c] := by
    rw [take_two (by omega), byteAt_take (by omega), byteAt_take (by omega), h0, h1]
  have hversion : ((b.take n).drop 2).take 4 = [1, 1, 0, 0] := by
    rw [take_four (by rw [List.length_drop]; omega)]
    simp only [byteAt_drop]
    rw [byteAt_take (by omega), byteAt_take (by omega), byteAt_take (by omega), byteAt_take (by omega), h2, h3, h4, h5]
  have hbody : (b.take n).take (n - 2) = b.take (n - 2) := by
    rw [List.take_take, Nat.min_eq_left (Nat.sub_le n 2)]
  have hpayload : (b.take (n - 2)).drop 16 = (b.drop 16).take (u16 (b.drop 14)) := by
    rw [List.drop_take]
    congr 1
    omega
  refine ⟨_, _, _, ?_, rfl⟩
  unfold Protocol.decodeRadio
  rw [if_neg (by rw [hread, hmagic, hversion]; simp; omega)]
  simp only [hread, h16 14 (by omega), h16 (n - 2) (by omega), h32 6 (by omega), h32 10 (by omega), hbody, hpayload]
  rw [if_neg]
  · rfl
  · rw [hcrc]
    simp only [Protocol.maxAirPayload, Protocol.crc16, crc, not_true_eq_false, or_false, ne_eq]
    omega

end Fw

end LoraLink.Firmware
