import LoraLink.Firmware.Queue

/-!
# Receptions and the interrupt flag

One flag stands for every interrupt of the radio. A reception sets it while the receiver runs, and the next `radioTask`
reads the packet; a SEND that is handled in between clears the flag.

- `watching_step`: the flag of a reception stays set while no SEND goes on air;
- `missed_step`: a flag that was cleared stays so until the next reception;
- `reception_counted_iff`: the next `radioTask` counts every packet that has come since a reception, exactly when there
  was no other reception and no SEND went on air.
-/

namespace LoraLink.Firmware

/-- A reception: an interrupt while the receiver runs. -/
def rxDone (x : Move Fw Input) : Bool :=
  match x.input with
  | .isr => x.before.rs == .recv
  | _ => false

def isRadioTask (x : Move Fw Input) : Bool :=
  match x.input with
  | .radioTask _ => true
  | _ => false

/-- The counters that account for a received packet. -/
def Fw.receptions (s : Fw) : Nat := s.c.rx + s.c.rxBad + s.c.radio

/-- The increments for packets in a `radioTask` that finds the receiver running: all but the one for a receiver that
could not be started again. -/
def packetsCounted (y : Move Fw Input) : Nat :=
  if y.before.rs = .recv then y.after.receptions - y.before.receptions - (if y.after.rs = .down then 1 else 0) else 0

/-- A SEND that goes to the transmitter. -/
structure Starts (s : Core) (b : Bytes) : Prop where
  fresh : Fresh s b
  send : IsSend b
  ready : s.ready = true
  free : s.rs ≠ .transmitting

/-- The move handles a SEND that goes to the transmitter. -/
def StartsSend (x : Move Fw Input) : Prop := ∃ hw b, x.input = .handle hw b ∧ Starts x.before.core b

namespace Fw

/-! ## The flag, the state of the radio and the flag `ready` -/

structure Line where
  irq : Bool
  rs : RS
  ready : Bool

def line (s : Fw) : Line := { irq := s.irq, rs := s.rs, ready := s.ready }

variable {s : Fw} {hw : Hw} {b : Bytes}

@[simp] theorem line_putQ (s : Fw) (b : Bytes) (event : Bool) : (s.putQ b event).line = s.line := by
  obtain ⟨q, qt, qn, drops, queued, heq⟩ := putQ_fields s b event
  rw [heq]
  rfl

@[simp] theorem line_reply (s : Fw) (type : UInt8) (seq : Nat) (p : Bytes) (cache : Bool) :
    (s.reply type seq p cache).line = s.line := by
  unfold reply
  cases cache
  · exact line_putQ _ _ _
  · exact line_putQ _ _ _

@[simp] theorem line_error (s : Fw) (seq code : Nat) (detail : Int) (type : UInt8) (cache : Bool) :
    (s.error seq code detail type cache).line = s.line := line_reply _ _ _ _ _

@[simp] theorem line_errorFor (s : Fw) (ses seq code : Nat) (detail : Int) (type : UInt8) :
    (s.errorFor ses seq code detail type).line = s.line := line_putQ _ _ _

@[simp] theorem line_info (s : Fw) (hw : Hw) (seq : Nat) : (s.info hw seq).line = s.line := line_reply _ _ _ _ _

@[simp] theorem line_status (s : Fw) (hw : Hw) (seq : Nat) : (s.status hw seq).line = s.line := line_reply _ _ _ _ _

@[simp] theorem line_diagnostics (s : Fw) (seq : Nat) : (s.diagnostics seq).line = s.line := line_reply _ _ _ _ _

theorem line_flush (s : Fw) (availableForWrite : Int) (written : Nat) :
    (s.flush availableForWrite written).line = s.line := by
  unfold flush
  split
  · rfl
  · simp only
    split
    · rfl
    · rfl

/-- A radio that listens again has no flag set, and does not transmit. -/
theorem line_listen (hready : s.ready = true) :
    (s.listen hw).irq = false ∧ (s.listen hw).ready = true ∧ (s.listen hw).rs ≠ .transmitting := by
  unfold listen
  rw [if_neg (by simp [hready])]
  simp only
  split
  · exact ⟨rfl, hready, by simp [setRs]⟩
  · exact ⟨rfl, hready, by simp [setRs, countRadio, count]⟩

/-- A SEND clears the flag. -/
theorem line_sendAir (hready : s.ready = true) (hfree : s.rs ≠ .transmitting) (hidle : s.pending = false) (p : Bytes)
    (seq : Nat) : (s.sendAir hw p seq).irq = false ∧ (s.sendAir hw p seq).ready = true := by
  unfold sendAir
  rw [if_neg (by simp [hready]), if_neg (by simp [hfree, hidle])]
  simp only
  split
  · have hline : ∀ call, ((((((s.prepareTx hw p seq).note call).countRadio.setRs .down).clearPending.error seq E.radio
        hw.startTransmit Msg.send)).line) = { irq := false, rs := .down, ready := s.ready } :=
          fun call => line_error _ _ _ _ _ _
    refine ⟨(line_listen ?_).1, (line_listen ?_).2.1⟩
    · exact (congrArg Line.ready (hline _)).trans hready
    · exact (congrArg Line.ready (hline _)).trans hready
  · exact ⟨rfl, hready⟩

theorem line_sendAir_refused (hno : s.ready = true → s.rs ≠ .transmitting → s.pending = true) (p : Bytes) (seq : Nat) :
    (s.sendAir hw p seq).line = s.line := by
  unfold sendAir
  by_cases hready : s.ready = false
  · rw [if_pos hready]
    exact line_error _ _ _ _ _ _
  · rw [if_neg hready]
    have hbusy : s.rs = .transmitting ∨ s.pending = true := by
      by_cases hfree : s.rs = .transmitting
      · exact Or.inl hfree
      · exact Or.inr (hno (by simpa using hready) hfree)
    rw [if_pos hbusy]
    exact line_error _ _ _ _ _ _

/-- Accepting and counting a SEND leave the radio alone. -/
theorem count_radio (s : Fw) (b : Bytes) (f g : C → C) : ∃ t, ((s.acceptRequest b).count f).count g = t ∧
    t.line = s.line ∧ t.ready = s.ready ∧ t.rs = s.rs ∧ t.pending = s.pending := by
  unfold acceptRequest accept saveReq count
  exact ⟨_, rfl, rfl, rfl, rfl, rfl⟩

theorem line_serve (hno : typeOf b = Msg.send → 1 ≤ lengthOf b → lengthOf b ≤ AM → s.ready = true →
    s.rs ≠ .transmitting → s.pending = true) : (s.serve hw b).line = s.line := by
  have hline : (s.acceptRequest b).line = s.line := by
    unfold acceptRequest accept saveReq
    rfl
  have hcount : (s.acceptRequest b).countAccepted.line = s.line := hline
  unfold serve
  simp only
  split
  · rename_i ht
    split
    · exact (line_error _ _ _ _ _ _).trans hline
    · rename_i hl
      obtain ⟨t, ht', hsame, hready, hrs, hpending⟩ := count_radio s b
        (fun c => { c with usbAccepted := c.usbAccepted + 1 }) (fun c => { c with sendAccepted := c.sendAccepted + 1 })
      have hbusy : t.ready = true → t.rs ≠ .transmitting → t.pending = true := by
        rw [hready, hrs, hpending]
        exact hno ht (by omega) (by omega)
      rw [countAccepted, ht']
      exact (line_sendAir_refused hbusy _ _).trans hsame
  · split
    · split
      · exact (line_error _ _ _ _ _ _).trans hline
      · exact (line_status _ _ _).trans hcount
    · split
      · split
        · exact (line_error _ _ _ _ _ _).trans hline
        · exact (line_diagnostics _ _).trans hcount
      · exact (line_error _ _ _ _ _ _).trans hline

theorem line_handleRequest (hv : Valid b) (ht : typeOf b ≠ Msg.hello) (hno : ¬ Starts s.core b) :
    (s.handleRequest hw b).line = s.line := by
  unfold handleRequest
  simp only
  split
  · exact line_errorFor _ _ _ _ _ _
  · rename_i hses
    split
    · exact line_error _ _ _ _ _ _
    · rename_i hstale
      split
      · split
        · exact line_error _ _ _ _ _ _
        · split
          · exact line_putQ _ _ _
          · exact line_error _ _ _ _ _ _
      · rename_i hsame
        split
        · exact line_error _ _ _ _ _ _
        · rename_i hidle
          refine line_serve fun hsend hpos hmax hready hfree => absurd ?_ hno
          simp only [not_or, not_not, Bool.not_eq_false] at hses
          have hnewer : s.lastSeq < seqOf b := lt_of_le_of_ne (Nat.le_of_not_lt hstale) fun heq => hsame heq.symm
          have hquiet : s.pending = false := by simpa using hidle
          exact ⟨⟨hv, hses.1, hses.2, hnewer, hquiet, fun h => absurd h ht⟩, ⟨hv, hsend, hpos, hmax⟩, hready, hfree⟩

theorem line_greet (s : Fw) (hw : Hw) (b : Bytes) (seq : Nat) :
    ((s.accept b).countAccepted.info hw seq).line = s.line := by
  rw [line_info]
  unfold accept saveReq
  rfl

theorem line_resetSession (s : Fw) (ses : Nat) : (s.resetSession ses).line = s.line := by
  unfold resetSession
  rfl

theorem line_handleHello : (s.handleHello hw b).line = s.line := by
  unfold handleHello
  simp only
  split
  · exact line_errorFor _ _ _ _ _ _
  · split
    · exact line_error _ _ _ _ _ _
    · split
      · exact (line_greet _ _ _ _).trans (line_resetSession _ _)
      · split
        · exact line_error _ _ _ _ _ _
        · split
          · split
            · exact line_putQ _ _ _
            · exact line_error _ _ _ _ _ _
          · exact line_greet _ _ _ _

/-- A frame that puts no SEND on air leaves the radio alone. -/
theorem line_handle (hno : ¬ Starts s.core b) : (s.handle hw b).line = s.line := by
  have hcount : (s.count fun c => { c with usbFrames := c.usbFrames + 1 }).line = s.line := rfl
  unfold handle
  split
  · rfl
  · rename_i hwf
    split
    · rfl
    · rename_i hid
      simp only [not_or] at hid
      simp only
      split
      · exact line_handleHello.trans hcount
      · rename_i ht
        have hv : Valid b := ⟨by simpa using hwf, hid⟩
        have hno' : ¬ Starts (s.count fun c => { c with usbFrames := c.usbFrames + 1 }).core b := hno
        exact (line_handleRequest hv ht hno').trans hcount

theorem irq_handleRequest (hs : Starts s.core b) :
    (s.handleRequest hw b).irq = false ∧ (s.handleRequest hw b).ready = true := by
  obtain ⟨⟨-, hact, hses, hnewer, hidle, -⟩, ⟨-, ht, hpos, hmax⟩, hready, hfree⟩ := hs
  have hold : ¬ (s.active = false ∨ sessionOf b ≠ s.session) := by
    rintro (h | h)
    · exact Bool.noConfusion (hact.symm.trans h)
    · exact h hses
  have hnew : s.lastSeq < seqOf b := hnewer
  have hquiet : ¬ s.pending = true := by
    rw [show s.pending = false from hidle]
    decide
  unfold handleRequest
  simp only
  rw [if_neg hold, if_neg (Nat.not_lt.mpr (Nat.le_of_lt hnew)), if_neg (Nat.ne_of_gt hnew), if_neg hquiet]
  obtain ⟨t, ht', -, hready', hrs', hpending'⟩ := count_radio s b
    (fun c => { c with usbAccepted := c.usbAccepted + 1 }) (fun c => { c with sendAccepted := c.sendAccepted + 1 })
  have hfree' : t.rs ≠ .transmitting := by
    rw [hrs']
    exact hfree
  unfold serve
  simp only
  rw [if_pos ht, if_neg (by omega), countAccepted, ht']
  exact line_sendAir (hready'.trans hready) hfree' (hpending'.trans hidle) _ _

/-- A frame that puts a SEND on air clears the flag. -/
theorem irq_handle (hs : Starts s.core b) : (s.handle hw b).irq = false ∧ (s.handle hw b).ready = true := by
  have hv := hs.fresh.valid
  have hhello : ¬ typeOf b = Msg.hello := by
    rw [hs.send.2.1]
    decide
  have hs' : Starts (s.count fun c => { c with usbFrames := c.usbFrames + 1 }).core b := hs
  unfold handle
  rw [if_neg (by simp [hv.1]), if_neg (by simp [hv.2])]
  simp only
  rw [if_neg hhello]
  exact irq_handleRequest hs'

/-! ## Steps -/

/-- The receiver runs only when the radio is ready. -/
def Tuned (s : Fw) : Prop := s.rs = .recv → s.ready = true

/-- A packet waits for `radioTask`. -/
def Watching (s : Fw) : Prop := s.irq = true ∧ s.rs = .recv

instance (s : Fw) : Decidable s.Watching := inferInstanceAs (Decidable (_ ∧ _))

/-- No packet waits. -/
def Missed (s : Fw) : Prop := s.rs = .recv → s.irq = false

theorem Missed.not_watching (h : s.Missed) : ¬ s.Watching := by
  rintro ⟨hirq, hrs⟩
  exact Bool.noConfusion ((h hrs).symm.trans hirq)

theorem listen_recv (hrs : s.rs ≠ .recv) : (s.listen hw).Tuned ∧ (s.listen hw).Missed := by
  by_cases hready : s.ready = true
  · obtain ⟨hirq, hready', -⟩ := @line_listen s hw hready
    exact ⟨fun _ => hready', fun _ => hirq⟩
  · have hsame : s.listen hw = s := by
      unfold listen
      rw [if_pos (by simpa using hready)]
    rw [hsame]
    exact ⟨fun h => absurd h hrs, fun h => absurd h hrs⟩

/-- The watchdog leaves the radio alone, or makes it listen again. -/
theorem txWatchdog_radio (s : Fw) (hw : Hw) : (s.txWatchdog hw).line = s.line ∨
    (s.rs = .transmitting ∧ (s.txWatchdog hw).Tuned ∧ (s.txWatchdog hw).Missed) := by
  unfold txWatchdog
  split
  · exact Or.inl rfl
  · rename_i hfires
    simp only [not_or, not_not] at hfires
    right
    refine ⟨hfires.1, ?_⟩
    simp only
    split
    · refine listen_recv ?_
      rw [show ∀ t : Fw, t.rs = t.line.rs from fun _ => rfl, line_error]
      exact RS.noConfusion
    · exact listen_recv RS.noConfusion

theorem line_received (s : Fw) (hw : Hw) (b : Bytes) (n : Nat) : (s.received hw b n).line = s.line := by
  unfold received
  simp only
  split
  · rfl
  · split
    · rfl
    · split
      · rfl
      · exact line_putQ _ _ _

theorem ready_txDone (s : Fw) (hw : Hw) : (s.txDone hw).ready = s.ready := by
  unfold txDone
  simp only
  split
  · split
    · exact congrArg Line.ready (line_reply _ _ _ _ _)
    · rfl
  · split
    · exact congrArg Line.ready (line_error _ _ _ _ _ _)
    · rfl

/-- A task of the radio that has something to do makes it listen again. -/
theorem radioTask_radio (s : Fw) (hw : Hw) : (s.radioTask hw).line = s.line ∨ (s.radioTask hw).ready = true := by
  unfold radioTask
  split
  · exact Or.inl rfl
  · rename_i hgo
    simp only [not_or, Bool.not_eq_false] at hgo
    right
    simp only
    split
    · exact (line_listen ((ready_txDone s.clearIrq hw).trans hgo.2)).2.1
    · split
      · exact (line_listen ((congrArg Line.ready (line_received s.clearIrq hw _ _)).trans hgo.2)).2.1
      · have hready : s.clearIrq.countRadio.ready = true := hgo.2
        exact (line_listen hready).2.1

theorem Tuned.of_line {t : Fw} (h : s.Tuned) (hline : t.line = s.line) : t.Tuned := by
  have hrs : t.rs = s.rs := congrArg Line.rs hline
  have hready : t.ready = s.ready := congrArg Line.ready hline
  rw [Tuned, hrs, hready]
  exact h

theorem Missed.of_line {t : Fw} (h : s.Missed) (hline : t.line = s.line) : t.Missed := by
  have hrs : t.rs = s.rs := congrArg Line.rs hline
  have hirq : t.irq = s.irq := congrArg Line.irq hline
  rw [Missed, hrs, hirq]
  exact h

theorem Watching.of_line {t : Fw} (h : s.Watching) (hline : t.line = s.line) : t.Watching := by
  have hrs : t.rs = s.rs := congrArg Line.rs hline
  have hirq : t.irq = s.irq := congrArg Line.irq hline
  rw [Watching, hrs, hirq]
  exact h

theorem tuned_step (i : Input) (h : s.Tuned) : (step i s).Tuned := by
  have hbegin : Fw.Tuned { s with calls := [] } := h
  cases i with
  | handle hw b =>
    by_cases hs : Starts s.core b
    · exact fun _ => (@irq_handle { s with calls := [] } hw b hs).2
    · exact hbegin.of_line (line_handle hs)
  | isr => exact h
  | radioTask hw =>
    rcases radioTask_radio { s with calls := [] } hw with hline | hready
    · exact hbegin.of_line hline
    · exact fun _ => hready
  | txWatchdog hw =>
    rcases txWatchdog_radio { s with calls := [] } hw with hline | ⟨-, htuned, -⟩
    · exact hbegin.of_line hline
    · exact htuned
  | flush availableForWrite written => exact hbegin.of_line (line_flush _ _ _)

/-- Between two tasks of the radio a flag that is not set stays so until a packet comes. -/
theorem missed_step {i : Input} (h : s.Missed) (htask : isRadioTask ⟨s, i, step i s⟩ = false)
    (hno : rxDone ⟨s, i, step i s⟩ = false) : (step i s).Missed := by
  have hbegin : Fw.Missed { s with calls := [] } := h
  cases i with
  | handle hw b =>
    by_cases hs : Starts s.core b
    · exact fun _ => (@irq_handle { s with calls := [] } hw b hs).1
    · exact hbegin.of_line (line_handle hs)
  | isr => exact fun hrs => absurd hrs (beq_eq_false_iff_ne.mp hno)
  | radioTask hw => cases htask
  | txWatchdog hw =>
    rcases txWatchdog_radio { s with calls := [] } hw with hline | ⟨-, -, hmissed⟩
    · exact hbegin.of_line hline
    · exact hmissed
  | flush availableForWrite written => exact hbegin.of_line (line_flush _ _ _)

/-- The flag of a packet stays set until the next task of the radio, unless a SEND goes on air. -/
theorem watching_step {i : Input} (h : s.Watching) (htask : isRadioTask ⟨s, i, step i s⟩ = false)
    (hno : ¬ StartsSend ⟨s, i, step i s⟩) : (step i s).Watching := by
  have hbegin : Fw.Watching { s with calls := [] } := h
  cases i with
  | handle hw b => exact hbegin.of_line (line_handle fun hs => hno ⟨hw, b, rfl, hs⟩)
  | isr => exact ⟨rfl, h.2⟩
  | radioTask hw => cases htask
  | txWatchdog hw =>
    rcases txWatchdog_radio { s with calls := [] } hw with hline | ⟨hair, -, -⟩
    · exact hbegin.of_line hline
    · exact RS.noConfusion (h.2.symm.trans hair)
  | flush availableForWrite written => exact hbegin.of_line (line_flush _ _ _)

/-! ## The task that reads a packet -/

theorem receptions_listen (hready : s.ready = true) :
    (s.listen hw).receptions = s.receptions + if (s.listen hw).rs = .down then 1 else 0 := by
  unfold listen
  rw [if_neg (by simp [hready])]
  simp only
  split
  · simp [receptions, setRs, clearIrq]
  · simp [receptions, setRs, clearIrq, countRadio, count]
    omega

theorem receptions_putQ (s : Fw) (b : Bytes) (event : Bool) : (s.putQ b event).receptions = s.receptions := by
  obtain ⟨q, qt, qn, drops, queued, heq⟩ := putQ_fields s b event
  rw [heq]
  rfl

/-- A packet is counted once. -/
theorem receptions_received (s : Fw) (hw : Hw) (b : Bytes) (n : Nat) :
    (s.received hw b n).receptions = s.receptions + 1 := by
  unfold received
  simp only
  split
  · simp only [receptions, count]
    omega
  · split
    · simp only [receptions, count]
      omega
    · split
      · simp only [receptions, count]
        omega
      · rw [receptions_putQ]
        simp only [receptions, count]
        omega

/-- With the receiver running, `radioTask` counts one packet if one waits. -/
theorem receptions_radioTask (htuned : s.Tuned) (hrs : s.rs = .recv) (hw : Hw) : (s.radioTask hw).receptions =
    s.receptions + (if s.Watching then 1 else 0) + if (s.radioTask hw).rs = .down then 1 else 0 := by
  have hready := htuned hrs
  by_cases hirq : s.irq = true
  · have hwatch : s.Watching := ⟨hirq, hrs⟩
    rw [if_pos hwatch]
    unfold radioTask
    rw [if_neg (by simp [hirq, hready])]
    simp only
    rw [if_neg (show ¬ s.clearIrq.rs = .transmitting by rw [show s.clearIrq.rs = .recv from hrs]; decide)]
    split
    · rw [receptions_listen ((congrArg Line.ready (line_received s.clearIrq hw _ _)).trans hready), receptions_received]
      rfl
    · have hradio : s.clearIrq.countRadio.receptions = s.receptions + 1 := rfl
      rw [receptions_listen (show s.clearIrq.countRadio.ready = true from hready), hradio]
  · have hwatch : ¬ s.Watching := fun h => hirq h.1
    have hsame : s.radioTask hw = s := by
      unfold radioTask
      rw [if_pos (Or.inl (by simpa using hirq))]
    rw [hsame, if_neg hwatch, hrs]
    rfl

end Fw

theorem packetsCounted_eq {s : Fw} (htuned : s.Tuned) (hw : Hw) :
    packetsCounted ⟨s, .radioTask hw, step (.radioTask hw) s⟩ = if s.Watching then 1 else 0 := by
  unfold packetsCounted
  simp only
  by_cases hrs : s.rs = .recv
  · have hcount := @Fw.receptions_radioTask { s with calls := [] } htuned hrs hw
    have hbefore : Fw.receptions { s with calls := [] } = s.receptions := rfl
    have hsame : Fw.Watching { s with calls := [] } ↔ s.Watching := Iff.rfl
    rw [if_pos hrs]
    simp only [hbefore, hsame] at hcount
    show (Fw.radioTask hw { s with calls := [] }).receptions - s.receptions -
      (if (Fw.radioTask hw { s with calls := [] }).rs = .down then 1 else 0) = _
    rw [hcount]
    omega
  · rw [if_neg hrs, if_neg fun h => hrs h.2]

/-! ## Runs -/

/-- What the moves of a stretch keep holds behind it. -/
theorem stretch {P : Fw → Prop} {G : Move Fw Input → Prop} (hstep : ∀ i s, P s → G ⟨s, i, step i s⟩ → P (step i s))
    {s : Fw} {is : List Input} {M T : List (Move Fw Input)} {y : Move Fw Input} (h : trace step s is = M ++ y :: T)
    (hs : P s) (hM : ∀ z ∈ M, G z) : P y.before := by
  obtain ⟨pre, _, _, hpre, hbefore, _, _⟩ := trace_split h
  rw [hbefore]
  rw [hpre] at hM
  exact @run_rel _ _ step Unit (fun _ => []) (fun _ s => P s) G [] s hs (fun _ i s hs hG => hstep i s hs hG) pre hM

/-- A reception that the flag shows, or does not show, when `radioTask` comes. -/
theorem watching_iff {s : Fw} {is : List Input} {M T : List (Move Fw Input)} {y : Move Fw Input}
    (h : trace step s is = M ++ y :: T) (hs : s.Watching) (htask : ∀ z ∈ M, isRadioTask z = false)
    (hquiet : ∀ z ∈ M, rxDone z = false) : y.before.Watching ↔ ∀ z ∈ M, ¬ StartsSend z := by
  constructor
  · intro hwatch z hz hstart
    obtain ⟨M₁, M₂, rfl⟩ := List.append_of_mem hz
    rw [List.append_assoc, List.cons_append] at h
    obtain ⟨_, _, _, _, _, hafter, htail⟩ := trace_split h
    have hmissed : z.after.Missed := by
      obtain ⟨hw, b, hinput, hstart⟩ := hstart
      rw [hafter, hinput]
      exact fun _ => (@Fw.irq_handle { z.before with calls := [] } hw b hstart).1
    have hbefore : y.before.Missed := stretch (P := Fw.Missed) (G := fun z => isRadioTask z = false ∧ rxDone z = false)
      (fun i s hs hG => Fw.missed_step hs hG.1 hG.2) htail.symm hmissed fun z' hz' =>
        have hmem : z' ∈ M₁ ++ z :: M₂ := List.mem_append_right _ (List.mem_cons_of_mem _ hz')
        ⟨htask z' hmem, hquiet z' hmem⟩
    exact hbefore.not_watching hwatch
  · intro hno
    exact stretch (P := Fw.Watching) (G := fun z => isRadioTask z = false ∧ ¬ StartsSend z)
      (fun i s hs hG => Fw.watching_step hs hG.1 hG.2) h hs fun z hz => ⟨htask z hz, hno z hz⟩

theorem setup_tuned (d : Board) : (setup d).Tuned := by
  unfold setup
  simp only
  split
  · exact fun hrs => RS.noConfusion hrs
  · split
    · exact (Fw.listen_recv RS.noConfusion).1
    · exact fun hrs => RS.noConfusion hrs

/-- **Receptions**: between a reception and the next `radioTask` as many packets come as that task counts, exactly when
no other packet comes and no SEND goes on air in between. -/
theorem reception_counted_iff {d : Board} {is : List Input} {T₁ M T₂ : List (Move Fw Input)} {x y : Move Fw Input}
    (h : trace step (setup d) is = T₁ ++ x :: (M ++ y :: T₂)) (hx : rxDone x = true)
    (hM : ∀ z ∈ M, isRadioTask z = false) (hy : isRadioTask y = true) :
    packetsCounted y = (x :: M).countP rxDone ↔ ∀ z ∈ M, rxDone z = false ∧ ¬ StartsSend z := by
  obtain ⟨_, _, _, _, _, hafter, htail⟩ := trace_split h
  have hwatch : x.after.Watching := by
    obtain ⟨before, input, after⟩ := x
    cases input with
    | isr =>
      rw [hafter]
      exact ⟨rfl, beq_iff_eq.mp hx⟩
    | handle | radioTask | txWatchdog | flush => cases hx
  have hcounted : packetsCounted y = if y.before.Watching then 1 else 0 := by
    have hmem : y ∈ trace step (setup d) is := by
      rw [h]
      exact List.mem_append_right _ (List.mem_cons_of_mem _ (List.mem_append_right _ List.mem_cons_self))
    have htuned := (trace_inv (P := Fw.Tuned) (setup_tuned d) (fun i _ => Fw.tuned_step i) hmem).1
    have hstep := trace_step hmem
    obtain ⟨before, input, after⟩ := y
    cases input with
    | radioTask hw =>
      obtain rfl : after = step (.radioTask hw) before := hstep
      exact packetsCounted_eq htuned hw
    | handle | isr | txWatchdog | flush => cases hy
  rw [hcounted, List.countP_cons_of_pos hx]
  constructor
  · intro heq
    have hnone : M.countP rxDone = 0 := by
      split at heq <;> omega
    have hquiet : ∀ z ∈ M, rxDone z = false := fun z hz => by simpa using List.countP_eq_zero.mp hnone z hz
    have hbefore : y.before.Watching := by
      by_contra hno
      rw [if_neg hno] at heq
      omega
    exact fun z hz => ⟨hquiet z hz, (watching_iff htail.symm hwatch hM hquiet).mp hbefore z hz⟩
  · intro hgood
    have hquiet : ∀ z ∈ M, rxDone z = false := fun z hz => (hgood z hz).1
    have hnone : M.countP rxDone = 0 := List.countP_eq_zero.mpr fun z hz => by simp [hquiet z hz]
    rw [if_pos ((watching_iff htail.symm hwatch hM hquiet).mpr fun z hz => (hgood z hz).2), hnone]

/-- A host has opened a session. -/
def greeted : Fw := step (.handle {} (frame Msg.hello 7 1 [])) (setup {})

/-- A packet comes, `i` happens, and the task of the radio runs. -/
def readAfter (i : Input) : Move Fw Input :=
  let s := step i (step .isr greeted)
  ⟨s, .radioTask {}, step (.radioTask {}) s⟩

/-- The host asks for the status in between. -/
theorem reception_counted_status : packetsCounted (readAfter (.handle {} (frame Msg.getStatus 7 2 []))) = 1 := by
  let status : Input := .handle {} (frame Msg.getStatus 7 2 [])
  have hcount := (@reception_counted_iff {} [.handle {} (frame Msg.hello 7 1 []), .isr, status, .radioTask {}]
    [⟨setup {}, .handle {} (frame Msg.hello 7 1 []), greeted⟩]
    [⟨step .isr greeted, status, step status (step .isr greeted)⟩] [] ⟨greeted, .isr, step .isr greeted⟩
    (readAfter status) rfl (by decide +kernel) (by simp [isRadioTask, status]) rfl).mpr ?_
  · exact hcount.trans (by decide +kernel)
  · simp only [List.mem_singleton, forall_eq]
    refine ⟨rfl, ?_⟩
    rintro ⟨hw, b, hinput, hs⟩
    obtain ⟨-, rfl⟩ := Input.handle.inj hinput
    exact absurd hs.send.2.1 (by decide)

/-- A SEND is handled in between, and the packet is not counted. -/
theorem reception_lost : ¬ ∀ (d : Board) (is : List Input) (T₁ M T₂ : List (Move Fw Input)) (x y : Move Fw Input),
    trace step (setup d) is = T₁ ++ x :: (M ++ y :: T₂) → rxDone x = true → (∀ z ∈ M, isRadioTask z = false) →
      isRadioTask y = true → packetsCounted y = (x :: M).countP rxDone := by
  intro hall
  let send : Input := .handle {} (frame Msg.send 7 2 [1])
  have hcount := hall {} [.handle {} (frame Msg.hello 7 1 []), .isr, send, .radioTask {}]
    [⟨setup {}, .handle {} (frame Msg.hello 7 1 []), greeted⟩]
    [⟨step .isr greeted, send, step send (step .isr greeted)⟩] [] ⟨greeted, .isr, step .isr greeted⟩ (readAfter send) rfl
    (by decide +kernel) (by simp [isRadioTask, send]) rfl
  exact absurd hcount (by decide +kernel)

end LoraLink.Firmware
