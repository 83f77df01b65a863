import LoraLink.Firmware.Contract
import LoraLink.Firmware.Keep
import LoraLink.Firmware.Queue

/-!
# The stage counters of the firmware

Every event that the radio brings is in one of three places: written to the port, counted as dropped, or in the queue.
Every transmission that was started has completed, failed, been given up, or is on air.

- `Stock`: the balance of the events, kept by every function (`stock_keeps`, `stock_step`);
- `Booked`: what a step does to the other counters, with the transmissions that ended in it;
- `stages_balance`: both balances, and the order of the stages, in every run.
-/

namespace LoraLink.Firmware

/-- A packet that `received` takes. -/
def validPacket (b : Bytes) (n : Nat) : Bool :=
  decide (¬ (n < 18 ∨ byteAt b 0 ≠ 0x4d ∨ byteAt b 1 ≠ 0x4c ∨ byteAt b 2 ≠ V ∨ byteAt b 3 ≠ 1 ∨ byteAt b 4 ≠ 0 ∨
    byteAt b 5 ≠ 0)) &&
    decide (¬ (r16 (b.drop 14) = 0 ∨ r16 (b.drop 14) > AM ∨ n ≠ 18 + r16 (b.drop 14) ∨
      r16 (b.drop (n - 2)) ≠ crc (b.take (n - 2))))

/-- The move receives a valid radio packet while a session is active. -/
def bringsEvent (x : Move Fw Input) : Bool :=
  match x.input with
  | .radioTask hw => x.before.irq && x.before.ready && x.before.rs != .transmitting && hw.readData == radiolibErrNone &&
      validPacket (radioBuffer hw.packet) hw.packetLength && x.before.active
  | _ => false

/-- A call of `finishTransmit` that fails. -/
def Call.fails : Call → Bool
  | .finishTransmit st => st != radiolibErrNone
  | _ => false

/-- The call with which the watchdog gives a transmission up. -/
def Call.givesUp : Call → Bool
  | .standby => true
  | _ => false

namespace Fw

/-! ## Events -/

/-- The balance of `v` events, each offered to the queue once. -/
structure Stock (v : Nat) (s : Fw) : Prop where
  ring : s.RingOk
  events : v = s.c.rxEventWritten + s.c.drops + s.entries.countP F.event
  queued : s.c.rxEventWritten + s.entries.countP F.event ≤ s.c.rxEventQueued
  offered : s.c.rxEventQueued ≤ v
  rx : v ≤ s.c.rx

/-- The part of the state that the balance is about. -/
def mail (s : Fw) : List F × Nat × Nat × Nat × Nat × Nat × Nat × Nat :=
  (s.q, s.qh, s.qt, s.qn, s.c.rxEventQueued, s.c.rxEventWritten, s.c.drops, s.c.rx)

variable {v : Nat} {s s' : Fw}

theorem Stock.of_mail (h : Stock v s) (hm : s'.mail = s.mail) : Stock v s' := by
  simp only [mail, Prod.mk.injEq] at hm
  obtain ⟨hq, hqh, hqt, hqn, hqueued, hwritten, hdrops, hrx⟩ := hm
  have hentries : s'.entries = s.entries := by rw [entries, entries, hq, hqh, hqn]
  constructor
  · exact ⟨hq ▸ h.ring.size, hqn ▸ h.ring.count, by rw [hqt, hqh, hqn]; exact h.ring.tail⟩
  · rw [hwritten, hdrops, hentries]
    exact h.events
  · rw [hwritten, hqueued, hentries]
    exact h.queued
  · rw [hqueued]
    exact h.offered
  · rw [hrx]
    exact h.rx

theorem putQ_rx (s : Fw) (b : Bytes) (event : Bool) : (s.putQ b event).c.rx = s.c.rx := by
  obtain ⟨_, _, _, _, _, heq⟩ := putQ_fields s b event
  rw [heq]

/-- An entry that is taken out is counted out. -/
theorem countP_eraseIdx {l : List F} {offset : Nat} {f : F} (hf : l[offset]? = some f) (hevent : f.event = true) :
    l.countP F.event = (l.eraseIdx offset).countP F.event + 1 := by
  obtain ⟨hlt, hget⟩ := List.getElem?_eq_some_iff.mp hf
  have hsplit : l = l.take offset ++ f :: l.drop (offset + 1) := by
    rw [← hget, List.getElem_cons_drop, List.take_append_drop]
  rw [List.eraseIdx_eq_take_drop_succ, List.countP_append]
  conv_lhs => rw [hsplit]
  rw [List.countP_append, List.countP_cons_of_pos hevent]
  omega

/-- A response takes the place of an event at most, and that event is counted. -/
theorem Stock.response (h : Stock v s) (b : Bytes) : Stock v (s.putQ b false) := by
  obtain ⟨hring, hput⟩ := putQ_cases h.ring b false
  have hevents := h.events
  have hqueued := h.queued
  have hoffered := h.offered
  refine ⟨hring, ?_, ?_, ?_, by rw [putQ_rx]; exact h.rx⟩ <;>
    generalize (s.putQ b false).entries = l, (s.putQ b false).c = c at hput <;>
    cases hput with
    | stored => simp; omega
    | dropped he => cases he
    | lost he => omega
    | evicted he hf hevent =>
      have hcount := countP_eraseIdx hf hevent
      simp
      omega

/-- An event is queued, or dropped. -/
theorem Stock.event (h : Stock v s) (hrx : v + 1 ≤ s.c.rx) (b : Bytes) : Stock (v + 1) (s.putQ b true) := by
  obtain ⟨hring, hput⟩ := putQ_cases h.ring b true
  have hevents := h.events
  have hqueued := h.queued
  have hoffered := h.offered
  refine ⟨hring, ?_, ?_, ?_, by rw [putQ_rx]; exact hrx⟩ <;>
    generalize (s.putQ b true).entries = l, (s.putQ b true).c = c at hput <;>
    cases hput with
    | stored => simp; omega
    | dropped he => simp; omega
    | lost he => cases he
    | evicted he hf hevent => cases he

/-- Requests and transmissions put responses on the queue, and leave the rest alone. -/
theorem stock_keeps (v : Nat) : Keeps (fun _ => True) (Stock v) where
  face := by
    intro s h s' houter _
    simp only [outer, Prod.mk.injEq] at houter
    obtain ⟨-, -, hq, hqh, hqt, hqn, -, hrx, hqueued, hwritten, hdrops⟩ := houter
    exact h.of_mail (by simp only [mail, hq, hqh, hqt, hqn, hrx, hqueued, hwritten, hdrops])
  put := fun _ h => h.response _
  resp := fun _ h => h.of_mail rfl
  kept := fun _ => trivial
  other := fun _ => trivial

/-- A packet: refused, taken without a session, or offered as an event. -/
theorem Stock.received (h : Stock v s) (hw : Hw) (b : Bytes) (n : Nat) :
    Stock (v + if validPacket b n && s.active then 1 else 0) (s.received hw b n) := by
  have hbad : Stock v (s.count fun c => { c with rxBad := c.rxBad + 1 }) := h.of_mail rfl
  have hcount : Stock v (s.count fun c => { c with rx := c.rx + 1 }) :=
    ⟨⟨h.ring.size, h.ring.count, h.ring.tail⟩, h.events, h.queued, h.offered, Nat.le_succ_of_le h.rx⟩
  have hrx : v + 1 ≤ (s.count fun c => { c with rx := c.rx + 1 }).c.rx := Nat.succ_le_succ h.rx
  cases hvalid : validPacket b n with
  | false =>
    rw [Bool.false_and, if_neg Bool.false_ne_true, Nat.add_zero]
    simp only [validPacket, Bool.and_eq_false_iff, decide_eq_false_iff_not, not_not] at hvalid
    unfold Fw.received
    rcases hvalid with hhead | hbody
    · rw [if_pos hhead]
      exact hbad
    · simp only [hbody, if_true]
      split
      · exact hbad
      · exact hbad
  | true =>
    rw [Bool.true_and]
    simp only [validPacket, Bool.and_eq_true, decide_eq_true_eq] at hvalid
    unfold Fw.received
    simp only [if_neg hvalid.1, if_neg hvalid.2]
    by_cases hactive : s.active = false
    · rw [if_pos (show (s.count fun c => { c with rx := c.rx + 1 }).active = false from hactive), hactive,
        if_neg Bool.false_ne_true]
      exact hcount
    · rw [if_neg (show ¬ (s.count fun c => { c with rx := c.rx + 1 }).active = false from hactive),
        if_pos (Bool.not_eq_false _ ▸ hactive)]
      exact hcount.event hrx _

theorem Stock.flush (h : Stock v s) (availableForWrite : Int) (written : Nat) :
    Stock v (s.flush availableForWrite written) := by
  obtain ⟨hring, hflush⟩ := flush_cases h.ring availableForWrite written
  have hevents := h.events
  have hqueued := h.queued
  have hoffered := h.offered
  have hrx := h.rx
  have hpop : ∀ {f : F}, s.entries.head? = some f →
      s.entries.countP F.event = s.entries.tail.countP F.event + if f.event then 1 else 0 := by
    intro f hf
    obtain ⟨rest, hrest⟩ := List.head?_eq_some_iff.mp hf
    rw [hrest, List.tail_cons, List.countP_cons]
  refine ⟨hring, ?_, ?_, ?_, ?_⟩ <;>
    generalize (s.flush availableForWrite written).entries = l, (s.flush availableForWrite written).c = c at hflush <;>
    cases hflush with
    | nothing => assumption
    | written hf he =>
      have hcount := hpop hf
      rw [he] at hcount
      simp at hcount ⊢
      omega
    | cut hf he =>
      have hcount := hpop hf
      rw [he] at hcount
      simp at hcount ⊢
      omega
    | answered hf he hc =>
      have hcount := hpop hf
      rw [he] at hcount
      rcases hc with rfl | rfl <;> simp at hcount ⊢ <;> omega

/-- Every step keeps the balance, with the event that the radio has brought. -/
theorem stock_step (h : Stock v s) (i : Input) :
    Stock (v + if bringsEvent ⟨s, i, step i s⟩ then 1 else 0) (step i s) := by
  have hI := stock_keeps v
  have hbegin : Stock v { s with calls := [] } := h.of_mail rfl
  cases i with
  | handle hw b => exact hI.handle hbegin (h.of_mail rfl) hw b
  | isr => exact h.of_mail rfl
  | txWatchdog hw => exact hI.txWatchdog hbegin hw
  | flush availableForWrite written => exact hbegin.flush availableForWrite written
  | radioTask hw =>
    show Stock _ (Fw.radioTask hw { s with calls := [] })
    unfold Fw.radioTask
    by_cases hgo : s.irq = false ∨ s.ready = false
    · have hno : bringsEvent ⟨s, .radioTask hw, step (.radioTask hw) s⟩ = false := by
        rcases hgo with hgo | hgo <;> simp [bringsEvent, hgo]
      rw [if_pos hgo, hno]
      exact hbegin
    · rw [if_neg hgo]
      simp only [not_or, Bool.not_eq_false] at hgo
      have hclear : Stock v (Fw.clearIrq { s with calls := [] }) := h.of_mail rfl
      simp only
      by_cases hair : s.rs = .transmitting
      · have hno : bringsEvent ⟨s, .radioTask hw, step (.radioTask hw) s⟩ = false := by simp [bringsEvent, hair]
        rw [if_pos (show (Fw.clearIrq { s with calls := [] }).rs = .transmitting from hair), hno]
        exact hI.listen (hI.txDone hclear hw fun _ _ _ => trivial) hw
      · rw [if_neg (show ¬ (Fw.clearIrq { s with calls := [] }).rs = .transmitting from hair)]
        by_cases hread : hw.readData = radiolibErrNone
        · have hbrings : bringsEvent ⟨s, .radioTask hw, step (.radioTask hw) s⟩ =
              (validPacket (radioBuffer hw.packet) hw.packetLength && s.active) := by
            simp [bringsEvent, hgo, bne_iff_ne.mpr hair, hread]
          rw [if_pos hread, hbrings]
          exact (stock_keeps _).listen (hclear.received hw _ _) hw
        · have hno : bringsEvent ⟨s, .radioTask hw, step (.radioTask hw) s⟩ = false := by simp [bringsEvent, hread]
          rw [if_neg hread, hno]
          exact hI.listen (hI.countRadio hclear) hw

/-! ## Transmissions -/

/-- The counters of the requests and of the transmissions, with the ends among the calls of the current step. -/
structure Tally where
  air : Bool
  tx : Nat
  txStarted : Nat
  sendAccepted : Nat
  usbAccepted : Nat
  usbFrames : Nat
  failed : Nat
  fired : Nat

def tally (s : Fw) : Tally :=
  { air := s.rs == .transmitting, tx := s.c.tx, txStarted := s.c.txStarted, sendAccepted := s.c.sendAccepted
    usbAccepted := s.c.usbAccepted, usbFrames := s.c.usbFrames, failed := s.calls.countP Call.fails
    fired := s.calls.countP Call.givesUp }

/-- What a step does to the counters: a frame is counted as far as it gets, or a transmission ends. -/
inductive Booked (t : Tally) : Tally → Prop
  | idle : Booked t t
  | framed : Booked t { t with usbFrames := t.usbFrames + 1 }
  | accepted : Booked t { t with usbFrames := t.usbFrames + 1, usbAccepted := t.usbAccepted + 1 }
  | unsent : Booked t { t with usbFrames := t.usbFrames + 1, usbAccepted := t.usbAccepted + 1
                               sendAccepted := t.sendAccepted + 1 }
  | started (hair : t.air = false) :
      Booked t { t with usbFrames := t.usbFrames + 1, usbAccepted := t.usbAccepted + 1
                        sendAccepted := t.sendAccepted + 1, txStarted := t.txStarted + 1, air := true }
  | finished (hair : t.air = true) : Booked t { t with tx := t.tx + 1, air := false }
  | failed (hair : t.air = true) : Booked t { t with failed := t.failed + 1, air := false }
  | fired (hair : t.air = true) : Booked t { t with fired := t.fired + 1, air := false }

@[simp] theorem tally_putQ (s : Fw) (b : Bytes) (event : Bool) : (s.putQ b event).tally = s.tally := by
  obtain ⟨q, qt, qn, drops, queued, heq⟩ := putQ_fields s b event
  rw [heq]
  simp [tally, Call.fails, Call.givesUp]

@[simp] theorem tally_reply (s : Fw) (type : UInt8) (seq : Nat) (p : Bytes) (cache : Bool) :
    (s.reply type seq p cache).tally = s.tally := by
  unfold Fw.reply
  cases cache
  · exact tally_putQ _ _ _
  · exact tally_putQ _ _ _

@[simp] theorem tally_error (s : Fw) (seq code : Nat) (detail : Int) (type : UInt8) (cache : Bool) :
    (s.error seq code detail type cache).tally = s.tally := tally_reply _ _ _ _ _

@[simp] theorem tally_errorFor (s : Fw) (ses seq code : Nat) (detail : Int) (type : UInt8) :
    (s.errorFor ses seq code detail type).tally = s.tally := tally_putQ _ _ _

@[simp] theorem tally_info (s : Fw) (hw : Hw) (seq : Nat) : (s.info hw seq).tally = s.tally := tally_reply _ _ _ _ _

@[simp] theorem tally_status (s : Fw) (hw : Hw) (seq : Nat) : (s.status hw seq).tally = s.tally :=
  tally_reply _ _ _ _ _

@[simp] theorem tally_diagnostics (s : Fw) (seq : Nat) : (s.diagnostics seq).tally = s.tally := tally_reply _ _ _ _ _

@[simp] theorem tally_accept (s : Fw) (b : Bytes) : (s.accept b).tally = s.tally := by
  simp [Fw.accept, Fw.saveReq, Fw.note, tally, Call.fails, Call.givesUp]

@[simp] theorem tally_acceptRequest (s : Fw) (b : Bytes) : (s.acceptRequest b).tally = s.tally := tally_accept s b

@[simp] theorem tally_resetSession (s : Fw) (ses : Nat) : (s.resetSession ses).tally = s.tally := by
  simp [Fw.resetSession, Fw.note, tally, Call.fails, Call.givesUp]

/-- Off air the receiver starts, or the radio stays down. -/
theorem tally_listen (hw : Hw) (hair : s.tally.air = false) : (s.listen hw).tally = s.tally := by
  have hoff : (s.rs == .transmitting) = false := hair
  unfold Fw.listen
  split
  · rfl
  · simp only
    split
    · simp [tally, setRs, clearIrq, hoff]
    · simp [tally, setRs, clearIrq, countRadio, count, hoff]

theorem tally_received (s : Fw) (hw : Hw) (b : Bytes) (n : Nat) : (s.received hw b n).tally = s.tally := by
  unfold Fw.received
  simp only
  split
  · rfl
  · split
    · rfl
    · split
      · rfl
      · exact tally_putQ _ _ _

theorem tally_flush (s : Fw) (availableForWrite : Int) (written : Nat) :
    (s.flush availableForWrite written).tally = s.tally := by
  unfold Fw.flush
  split
  · rfl
  · simp only
    split
    · rfl
    · generalize hbs : (enc (s.slot 0).b ++ [0]).take written = bs
      split
      · simp [note, tally, Call.fails, Call.givesUp]
      · split
        · split
          · simp [note, tally, Call.fails, Call.givesUp]
          · simp [note, tally, Call.fails, Call.givesUp]
        · simp [note, tally, Call.fails, Call.givesUp]

/-- A SEND that is counted either goes on air, or leaves the transmitter as it was. -/
theorem tally_sendAir (s : Fw) (hw : Hw) (p : Bytes) (seq : Nat) : (s.sendAir hw p seq).tally = s.tally ∨
    (s.tally.air = false ∧
      (s.sendAir hw p seq).tally = { s.tally with txStarted := s.tally.txStarted + 1, air := true }) := by
  unfold Fw.sendAir
  split
  · exact Or.inl (tally_error _ _ _ _ _ _)
  · split
    · exact Or.inl (tally_error _ _ _ _ _ _)
    · rename_i hfree
      have hair : s.tally.air = false := by
        simp only [not_or] at hfree
        exact beq_eq_false_iff_ne.mpr hfree.1
      simp only
      split
      · left
        rw [tally_listen]
        · rw [tally_error]
          simp [tally, prepareTx, note, countRadio, count, setRs, clearPending, Call.fails, Call.givesUp]
          exact beq_eq_false_iff_ne.mp hair
        · rw [tally_error]
          rfl
      · right
        refine ⟨hair, ?_⟩
        simp [tally, prepareTx, note, count, Call.fails, Call.givesUp]

/-- A request of the running session that is new. -/
theorem booked_serve {s : Fw} {t : Tally} (hw : Hw) (b : Bytes)
    (ht : s.tally = { t with usbFrames := t.usbFrames + 1 }) : Booked t (s.serve hw b).tally := by
  have haccept : (s.acceptRequest b).tally = { t with usbFrames := t.usbFrames + 1 } := (tally_acceptRequest s b).trans ht
  unfold Fw.serve
  simp only
  generalize s.acceptRequest b = u at haccept ⊢
  have hcount : u.countAccepted.tally = { t with usbFrames := t.usbFrames + 1, usbAccepted := t.usbAccepted + 1 } := by
    have heq : u.countAccepted.tally = { u.tally with usbAccepted := u.tally.usbAccepted + 1 } := rfl
    rw [heq, haccept]
  split
  · split
    · rw [tally_error, haccept]
      exact .framed
    · have hsend : (u.countAccepted.count fun c => { c with sendAccepted := c.sendAccepted + 1 }).tally =
          { t with usbFrames := t.usbFrames + 1, usbAccepted := t.usbAccepted + 1
                   sendAccepted := t.sendAccepted + 1 } := by
        have heq : (u.countAccepted.count fun c => { c with sendAccepted := c.sendAccepted + 1 }).tally =
          { u.countAccepted.tally with sendAccepted := u.countAccepted.tally.sendAccepted + 1 } := rfl
        rw [heq, hcount]
      rcases tally_sendAir (u.countAccepted.count fun c => { c with sendAccepted := c.sendAccepted + 1 }) hw
          (payloadOf b) (seqOf b) with hsame | ⟨hair, hstart⟩
      · rw [hsame, hsend]
        exact .unsent
      · rw [hsend] at hair
        rw [hstart, hsend]
        exact .started hair
  · split
    · split
      · rw [tally_error, haccept]
        exact .framed
      · rw [tally_status, hcount]
        exact .accepted
    · split
      · split
        · rw [tally_error, haccept]
          exact .framed
        · rw [tally_diagnostics, hcount]
          exact .accepted
      · rw [tally_error, haccept]
        exact .framed

theorem booked_handleRequest {s : Fw} {t : Tally} (hw : Hw) (b : Bytes)
    (ht : s.tally = { t with usbFrames := t.usbFrames + 1 }) : Booked t (s.handleRequest hw b).tally := by
  unfold Fw.handleRequest
  simp only
  split
  · rw [tally_errorFor, ht]
    exact .framed
  · split
    · rw [tally_error, ht]
      exact .framed
    · split
      · split
        · rw [tally_error, ht]
          exact .framed
        · split
          · rw [tally_putQ, ht]
            exact .framed
          · rw [tally_error, ht]
            exact .framed
      · split
        · rw [tally_error, ht]
          exact .framed
        · exact booked_serve hw b ht

theorem booked_handleHello {s : Fw} {t : Tally} (hw : Hw) (b : Bytes)
    (ht : s.tally = { t with usbFrames := t.usbFrames + 1 }) : Booked t (s.handleHello hw b).tally := by
  have hgreet : ∀ u : Fw, u.tally = s.tally → Booked t ((u.accept b).countAccepted.info hw (seqOf b)).tally := by
    intro u hu
    have heq : (u.accept b).countAccepted.tally = { (u.accept b).tally with
      usbAccepted := (u.accept b).tally.usbAccepted + 1 } := rfl
    rw [tally_info, heq, tally_accept, hu, ht]
    exact .accepted
  unfold Fw.handleHello
  simp only
  split
  · rw [tally_errorFor, ht]
    exact .framed
  · split
    · rw [tally_error, ht]
      exact .framed
    · split
      · exact hgreet _ (tally_resetSession s _)
      · split
        · rw [tally_error, ht]
          exact .framed
        · split
          · split
            · rw [tally_putQ, ht]
              exact .framed
            · rw [tally_error, ht]
              exact .framed
          · exact hgreet s rfl

theorem booked_handle (s : Fw) (hw : Hw) (b : Bytes) : Booked s.tally (s.handle hw b).tally := by
  have hcount : (s.count fun c => { c with usbFrames := c.usbFrames + 1 }).tally =
      { s.tally with usbFrames := s.tally.usbFrames + 1 } := rfl
  unfold Fw.handle
  split
  · exact .idle
  · split
    · exact .idle
    · simp only
      split
      · exact booked_handleHello hw b hcount
      · exact booked_handleRequest hw b hcount

/-- On air, the end of the transmission is counted as a success, or is a failed call. -/
theorem booked_txDone {s : Fw} (hw : Hw) (hair : s.tally.air = true) :
    Booked s.tally (s.txDone hw).tally ∧ (s.txDone hw).tally.air = false := by
  unfold Fw.txDone
  simp only
  by_cases hst : hw.finishTransmit = radiolibErrNone
  · rw [if_pos hst]
    have hend : (((s.note (.finishTransmit hw.finishTransmit)).setRs .down).count fun c =>
        { c with tx := c.tx + 1 }).tally =
        { s.tally with tx := s.tally.tx + 1, air := false } := by
      simp [tally, note, setRs, count, Call.fails, Call.givesUp, hst]
    split
    · rw [tally_reply]
      exact ⟨hend ▸ .finished hair, congrArg Tally.air hend⟩
    · exact ⟨hend ▸ .finished hair, congrArg Tally.air hend⟩
  · rw [if_neg hst]
    have hend : ((s.note (.finishTransmit hw.finishTransmit)).setRs .down).countRadio.tally =
        { s.tally with failed := s.tally.failed + 1, air := false } := by
      simp [tally, note, setRs, countRadio, count, Call.fails, Call.givesUp, hst]
    split
    · rw [tally_error]
      exact ⟨hend ▸ .failed hair, congrArg Tally.air hend⟩
    · exact ⟨hend ▸ .failed hair, congrArg Tally.air hend⟩

theorem booked_radioTask (s : Fw) (hw : Hw) : Booked s.tally (s.radioTask hw).tally := by
  unfold Fw.radioTask
  split
  · exact .idle
  · simp only
    split
    · rename_i hrs
      have hair : s.clearIrq.tally.air = true := beq_iff_eq.mpr hrs
      obtain ⟨hbooked, hoff⟩ := booked_txDone hw hair
      rw [tally_listen hw hoff]
      exact hbooked
    · rename_i hrs
      have hair : s.clearIrq.tally.air = false := beq_eq_false_iff_ne.mpr hrs
      split
      · have hsame := tally_received s.clearIrq hw (radioBuffer hw.packet) hw.packetLength
        rw [tally_listen hw (hsame ▸ hair), hsame]
        exact .idle
      · have hsame : s.clearIrq.countRadio.tally = s.tally := rfl
        have hoff : s.clearIrq.countRadio.tally.air = false := hair
        rw [tally_listen hw hoff, hsame]
        exact .idle

theorem booked_txWatchdog (s : Fw) (hw : Hw) : Booked s.tally (s.txWatchdog hw).tally := by
  unfold Fw.txWatchdog
  split
  · exact .idle
  · rename_i hfires
    simp only [not_or, not_not] at hfires
    have hair : s.tally.air = true := beq_iff_eq.mpr hfires.1
    have hend : ((s.countRadio.note .standby).setRs .down).tally =
        { s.tally with fired := s.tally.fired + 1, air := false } := by
      simp [tally, note, setRs, countRadio, count, Call.fails, Call.givesUp]
    simp only
    split
    · have herror : ∀ seq, (((s.countRadio.note .standby).setRs .down).clearPending.error seq E.radio radiolibErrUnknown
          Msg.send).tally = { s.tally with fired := s.tally.fired + 1, air := false } := fun seq =>
        (tally_error _ _ _ _ _ _).trans hend
      rw [tally_listen hw (congrArg Tally.air (herror _)), herror]
      exact .fired hair
    · rw [tally_listen hw (congrArg Tally.air hend), hend]
      exact .fired hair

/-- Every step books one of these. -/
theorem booked_step (i : Input) (s : Fw) : Booked { s.tally with failed := 0, fired := 0 } (step i s).tally := by
  have hbegin : Fw.tally { s with calls := [] } = { s.tally with failed := 0, fired := 0 } := rfl
  rw [← hbegin]
  cases i with
  | handle hw b => exact booked_handle _ hw b
  | isr => exact .idle
  | radioTask hw => exact booked_radioTask _ hw
  | txWatchdog hw => exact booked_txWatchdog _ hw
  | flush availableForWrite written =>
    rw [show (step (.flush availableForWrite written) s).tally = Fw.tally { s with calls := [] } from
      tally_flush _ _ _]
    exact .idle

end Fw

/-! ## Runs -/

/-- The two balances after the trace `T` has led to `s`, and the order of the stages. -/
structure StageBalance (T : List (Move Fw Input)) (s : Fw) : Prop where
  events : T.countP bringsEvent = s.c.rxEventWritten + s.c.drops + s.entries.countP F.event
  transmissions : s.c.txStarted = s.c.tx + (history T).countP Call.fails + (history T).countP Call.givesUp +
    if s.rs = .transmitting then 1 else 0
  requests : s.c.tx ≤ s.c.txStarted ∧ s.c.txStarted ≤ s.c.sendAccepted ∧ s.c.sendAccepted ≤ s.c.usbAccepted ∧
    s.c.usbAccepted ≤ s.c.usbFrames
  received : s.c.rxEventWritten ≤ s.c.rxEventQueued ∧ s.c.rxEventQueued ≤ s.c.rx

/-- The counters of the requests, after `f` failed ends and `w` transmissions given up. -/
structure Ledger (f w : Nat) (t : Fw.Tally) : Prop where
  balance : t.txStarted = t.tx + (f + t.failed) + (w + t.fired) + if t.air then 1 else 0
  started : t.txStarted ≤ t.sendAccepted
  accepted : t.sendAccepted ≤ t.usbAccepted
  framed : t.usbAccepted ≤ t.usbFrames

theorem Fw.Booked.ledger {f w : Nat} {t t' : Fw.Tally} (h : Fw.Booked t t') (ht : Ledger f w t) : Ledger f w t' := by
  obtain ⟨hbalance, hstarted, haccepted, hframed⟩ := ht
  cases h with
  | idle => exact ⟨hbalance, hstarted, haccepted, hframed⟩
  | framed => exact ⟨hbalance, hstarted, haccepted, by simp only; omega⟩
  | accepted => exact ⟨hbalance, hstarted, by simp only; omega, by simp only; omega⟩
  | unsent => exact ⟨hbalance, by simp only; omega, by simp only; omega, by simp only; omega⟩
  | started hair =>
    rw [hair] at hbalance
    constructor <;> simp at hbalance ⊢ <;> omega
  | finished hair | failed hair | fired hair =>
    rw [hair] at hbalance
    constructor <;> simp at hbalance ⊢ <;> omega

/-- The ends of the current step join the earlier ones. -/
theorem Ledger.close {f w : Nat} {t : Fw.Tally} (h : Ledger f w t) :
    Ledger (f + t.failed) (w + t.fired) { t with failed := 0, fired := 0 } :=
  ⟨h.balance, h.started, h.accepted, h.framed⟩

/-- What a run keeps. -/
structure Accounted (T : List (Move Fw Input)) (s : Fw) : Prop where
  stock : s.Stock (T.countP bringsEvent)
  ledger : Ledger ((history T).countP Call.fails) ((history T).countP Call.givesUp)
    { s.tally with failed := 0, fired := 0 }

theorem Accounted.step {T : List (Move Fw Input)} {s : Fw} (h : Accounted T s) (i : Input) :
    Accounted (T ++ [⟨s, i, step i s⟩]) (step i s) := by
  constructor
  · rw [List.countP_append, List.countP_singleton]
    exact Fw.stock_step h.stock i
  · have hledger := ((Fw.booked_step i s).ledger h.ledger).close
    rw [history, outputs_append, List.countP_append, List.countP_append]
    simpa [callsOf, Fw.tally] using hledger

/-- Nothing has happened before the first step. -/
theorem setup_accounted (d : Board) : Accounted [] (setup d) := by
  have hstock : Fw.Stock 0 {} := ⟨⟨rfl, Nat.zero_le _, rfl⟩, rfl, Nat.le_refl _, Nat.le_refl _, Nat.le_refl _⟩
  have hready : ∀ boot airNext : Nat, Fw.Stock 0 { ready := true, boot := boot, airNext := airNext, mac := d.mac } :=
    fun _ _ => hstock.of_mail rfl
  have hledger : Ledger 0 0 (Fw.tally {}) := ⟨rfl, Nat.le_refl _, Nat.le_refl _, Nat.le_refl _⟩
  unfold setup
  simp only
  split
  · exact ⟨hstock.of_mail rfl, hledger⟩
  · split
    · constructor
      · exact (Fw.stock_keeps 0).listen (hready _ _) d.hw
      · rw [Fw.tally_listen d.hw rfl]
        exact hledger
    · exact ⟨hstock.of_mail rfl, hledger⟩

/-- In every run the stages balance. -/
theorem stages_balance (d : Board) (is : List Input) :
    StageBalance (trace step (setup d) is) (run step (setup d) is) := by
  have haccounted : Accounted (trace step (setup d) is) (run step (setup d) is) := by
    have hrun := @run_rel Fw Input step _ (fun x => [x]) Accounted (fun _ => True) [] (setup d) (setup_accounted d)
      (fun T i s h _ => h.step i) is fun _ _ => trivial
    simpa [outputs] using hrun
  obtain ⟨hstock, hledger⟩ := haccounted
  have hbalance := hledger.balance
  refine ⟨hstock.events, ?_, ⟨?_, hledger.started, hledger.accepted, hledger.framed⟩, ?_, ?_⟩
  · simpa [Fw.tally] using hbalance
  · simp only [Fw.tally] at hbalance
    omega
  · have hqueued := hstock.queued
    omega
  · exact hstock.offered.trans hstock.rx

end LoraLink.Firmware
