import LoraLink.Firmware.Contract
import LoraLink.Firmware.Keep
import LoraLink.Host.Traffic
import LoraLink.Usb.Agreement
import LoraLink.Usb.Transparency
import Mathlib.Data.List.Nodup

/-!
# The transport and the modem together

Frames travel in order both ways, and may be lost. A request is on its way down as soon as the transport asks for it,
even if the write fails; a frame is on its way up when the modem has written all of it. The frames that have arrived
are bytes in the port, of which a tick reads as many as it likes; a port that is closed forgets them. A reboot clears
the modem.

- `Vouched`: a result that the modem has written stands for a transmission that was on air for its request;
- `Sound`: what every event keeps while the sessions are new;
- `no_false_success`: each send starts at most one transmission, of its own payload, and is reported completed only
  if that transmission was.
-/

namespace LoraLink.Joint

open LoraLink.Firmware
open scoped List

/-- What happens on the link: a call of the transport, which leaves it in a session, a frame that the modem handles,
another of its tasks, or a reboot. -/
inductive Event
  | called (i : Host.Modem.Input) (session : Nat) (log : List Host.Event)
  | handled (b : Bytes) (calls : List Call)
  | task (calls : List Call)
  | rebooted

structure Link where
  host : Host.Modem
  fw : Fw
  /-- The frames on their way to the modem. -/
  down : List Bytes := []
  /-- The frames on their way to the port, as written. -/
  up : List Bytes := []
  /-- The bytes to be read from the port. -/
  port : Bytes := []
  log : List Event := []

inductive Input
  | call (i : Host.Modem.Input) (n : Nat)
  | arrive
  | handle (hw : Hw)
  | isr
  | radioTask (hw : Hw)
  | txWatchdog (hw : Hw)
  | flush (availableForWrite : Int) (n : Nat)
  | reboot (d : Board)
  | loseDown (k : Nat)
  | loseUp (k : Nat)

/-- The call, in which a tick reads the bytes given unless the port raises. -/
def reading (raw : Bytes) : Host.Modem.Input → Host.Modem.Input
  | .tick io diagnosticsIdle => .tick { io with read := io.read.map fun _ => raw } diagnosticsIdle
  | i => i

/-- The bytes of a request. -/
def raw (f : Protocol.Frame) : Bytes := Protocol.rawFrame f.msgType f.session f.sequence f.payload

/-- A call of the transport, which reads at most `n` bytes. -/
def call (i : Host.Modem.Input) (n : Nat) (s : Link) : Link :=
  let i := reading (s.port.take n) i
  let host := Host.Modem.step i s.host
  { s with
    host := host, down := s.down ++ (Host.requestFrames host.log).map raw
    port := if host.connected then s.port.drop (Host.Modem.readBy i).length else []
    log := [.called i host.session host.log] }

/-- The first frame on its way up arrives at the port. -/
def arrive (s : Link) : Link :=
  match s.up with
  | [] => { s with log := [] }
  | e :: up => { s with port := s.port ++ e, up := up, log := [] }

/-- The modem handles the first frame on its way down. -/
def handle (hw : Hw) (s : Link) : Link :=
  match s.down with
  | [] => { s with log := [] }
  | b :: down =>
    let fw := Firmware.step (.handle hw b) s.fw
    { s with fw := fw, down := down, log := [.handled b fw.calls] }

/-- The frames that the modem has written whole. -/
def written (calls : List Call) : List Bytes :=
  calls.filterMap fun | .serialWrite bs => if bs.getLast? = some 0 then some bs else none | _ => none

/-- The modem writes to the port. -/
def flush (availableForWrite : Int) (n : Nat) (s : Link) : Link :=
  let fw := Firmware.step (.flush availableForWrite n) s.fw
  { s with fw := fw, up := s.up ++ written fw.calls, log := [.task fw.calls] }

/-- The modem does something else. -/
def task (i : Firmware.Input) (s : Link) : Link :=
  let fw := Firmware.step i s.fw
  { s with fw := fw, log := [.task fw.calls] }

def next : Input → Link → Link
  | .call i n, s => call i n s
  | .arrive, s => arrive s
  | .handle hw, s => handle hw s
  | .isr, s => task .isr s
  | .radioTask hw, s => task (.radioTask hw) s
  | .txWatchdog hw, s => task (.txWatchdog hw) s
  | .flush availableForWrite n, s => flush availableForWrite n s
  | .reboot d, s => { s with fw := setup d, log := [.rebooted] }
  | .loseDown k, s => { s with down := s.down.eraseIdx k, log := [] }
  | .loseUp k, s => { s with up := s.up.eraseIdx k, log := [] }

def init (d : Board) (draw : Nat) (reconnectSeconds : ℚ) : Link :=
  { host := Host.Modem.init draw reconnectSeconds, fw := setup d }

/-- The events of a move. -/
def eventsOf (x : Move Link Input) : List Event := x.after.log

/-- The events of a trace. -/
abbrev history (T : List (Move Link Input)) : List Event := outputs eventsOf T

/-! ## What a history says -/

/-- A send that returned its sequence. -/
structure Send where
  session : Nat
  sequence : Nat
  payload : Bytes
deriving DecidableEq

/-- The request of a send. -/
def Send.request (send : Send) : Protocol.Frame :=
  { msgType := Protocol.Msg.radioSend, session := send.session, sequence := send.sequence, payload := send.payload }

/-- The send of an event. -/
def sentBy : Event → List Send
  | .called (.sendAir _ payload) session log =>
    match log.getLast? with
    | some (.sent sequence) => [{ session := session, sequence := sequence, payload := payload }]
    | _ => []
  | _ => []

def sends (H : List Event) : List Send := H.flatMap sentBy

/-- What the transport has logged. -/
def hostLog (H : List Event) : List Host.Event := H.flatMap fun | .called _ _ log => log | _ => []

/-- The frames that the modem has handled, each with the calls it led to. -/
def handledIn (H : List Event) : List (Bytes × List Call) :=
  H.filterMap fun | .handled b calls => some (b, calls) | _ => none

/-- The session and the sequence of a frame. -/
def keyOf (b : Bytes) : Nat × Nat := (sessionOf b, seqOf b)

/-- The packets given to `startTransmit` for the request of the send. -/
def startedFor (send : Send) (H : List Event) : List Bytes :=
  (handledIn H).flatMap fun (b, calls) => if keyOf b = (send.session, send.sequence) then attempts calls else []

/-- The call ends a transmission. -/
def ends : Call → Bool
  | .finishTransmit _ | .standby => true
  | _ => false

/-- The request whose transmission is on air, behind an event. -/
def airOn (a : Option (Nat × Nat)) : Event → Option (Nat × Nat)
  | .handled b calls => if calls.any Call.starts then some (keyOf b) else a
  | .task calls => if calls.any ends then none else a
  | .rebooted => none
  | .called _ _ _ => a

/-- The request whose transmission is on air: the last one that has started, unless it has ended. -/
def onAir (H : List Event) : Option (Nat × Nat) := H.foldl airOn none

/-- `finishTransmit` has succeeded while the transmission of the request was on air. -/
def Completed (session sequence : Nat) (H : List Event) : Prop :=
  ∃ X calls Y, H = X ++ .task calls :: Y ∧ .finishTransmit 0 ∈ calls ∧ onAir X = some (session, sequence)

/-- No send is transmitted twice, or changed, or reported completed in vain. -/
structure Truthful (H : List Event) : Prop where
  /-- The transmitter is started for requests only. -/
  asked : ∀ calls, .task calls ∈ H → attempts calls = []
  /-- The transmitter is started at most once for a send, and with its payload. -/
  once : ∀ send ∈ sends H, startedFor send H = [] ∨ ∃ boot air, startedFor send H = [airPacket boot air send.payload]
  /-- The outcomes taken are those of the sends, in order, and a success is one. -/
  outcome : ∀ (i sequence : Nat) (completed : Option Bool), (Host.takenIn (hostLog H))[i]? = some (sequence, completed) →
    ∃ send, (sends H)[i]? = some send ∧ sequence = send.sequence ∧
      (completed = some true → Completed send.session send.sequence H)

/-! ## The queue of the modem -/

section Queue

variable {G : Bytes → Prop}

/-- Every frame in the slots of the queue, and the response that is kept, has `G`. -/
def Mail (G : Bytes → Prop) (s : Fw) : Prop := (∀ f ∈ s.q, G f.b) ∧ G s.lastResp

theorem mail_closeGap (hnil : G []) {s : Fw} (h : ∀ f ∈ s.q, G f.b) (offset : Nat) :
    ∀ f ∈ (s.closeGap offset).q, G f.b := by
  unfold Fw.closeGap
  generalize List.range (s.qn - 1 - offset) = ks
  induction ks generalizing s with
  | nil => exact h
  | cons k ks ih =>
    rw [List.foldl_cons]
    refine ih fun f hf => ?_
    rcases List.mem_or_eq_of_mem_set hf with hf | rfl
    · exact h f hf
    · rw [Fw.slot, List.getD_eq_getElem?_getD]
      cases hget : s.q[(s.qh + (offset + k + 1)) % QD]? with
      | none => exact hnil
      | some f => exact h f (List.mem_of_getElem? hget)

theorem mail_store {s : Fw} (h : ∀ f ∈ s.q, G f.b) {b : Bytes} (hb : G b) (event : Bool) :
    ∀ f ∈ (s.store b event).q, G f.b := by
  intro f hf
  rcases List.mem_or_eq_of_mem_set hf with hf | rfl
  · exact h f hf
  · exact hb

theorem mail_putQ (hnil : G []) {s : Fw} (h : Mail G s) {b : Bytes} (hb : G b) (event : Bool) :
    Mail G (s.putQ b event) := by
  have hresp : (s.putQ b event).lastResp = s.lastResp := congrArg Core.lastResp (Fw.core_putQ s b event)
  refine ⟨?_, hresp ▸ h.2⟩
  unfold Fw.putQ
  simp only
  split
  · split
    · exact h.1
    · split
      · exact h.1
      · rename_i offset _
        refine mail_store ?_ hb event
        exact mail_closeGap hnil (s := s.note (.putQ b event)) h.1 offset
  · exact mail_store (s := s.note (.putQ b event)) h.1 hb event

theorem mail_keeps (hother : ∀ {b : Bytes}, typeOf b ≠ Msg.txok → G b) : Fw.Keeps G (Mail G) where
  face := by
    intro s h s' houter hresp
    simp only [Fw.outer, Prod.mk.injEq] at houter
    exact ⟨houter.2.2.1 ▸ h.1, hresp ▸ h.2⟩
  put := fun hb h => mail_putQ (hother (by decide)) h hb false
  resp := fun hb h => ⟨h.1, hb⟩
  kept := fun h => h.2
  other := hother

theorem mail_received (hother : ∀ {b : Bytes}, typeOf b ≠ Msg.txok → G b) {s : Fw} (h : Mail G s) (hw : Hw) (b : Bytes)
    (n : Nat) : Mail G (s.received hw b n) := by
  unfold Fw.received
  simp only
  split
  · exact h
  · split
    · exact h
    · split
      · exact h
      · refine mail_putQ (hother (by decide)) (s := s.count fun c => { c with rx := c.rx + 1 }) h (hother ?_) true
        rw [typeOf_frame]
        decide

theorem mail_setup (hother : ∀ {b : Bytes}, typeOf b ≠ Msg.txok → G b) (d : Board) : Mail G (setup d) := by
  have hnil : G [] := hother (by decide)
  have hnew : ∀ s : Fw, s.q = List.replicate QD {} → s.lastResp = [] → Mail G s := fun s hq hresp => by
    refine ⟨fun f hf => ?_, hresp ▸ hnil⟩
    rw [hq] at hf
    rw [List.eq_of_mem_replicate hf]
    exact hnil
  unfold setup
  simp only
  split
  · exact hnew _ rfl rfl
  · split
    · exact (mail_keeps hother).listen (hnew _ rfl rfl) d.hw
    · exact hnew _ rfl rfl

end Queue

/-! ## Results -/

theorem onAir_append (H E : List Event) : onAir (H ++ E) = E.foldl airOn (onAir H) := List.foldl_append

variable {H : List Event} {s : Fw}

theorem Completed.mono {session sequence : Nat} (h : Completed session sequence H) (E : List Event) :
    Completed session sequence (H ++ E) := by
  obtain ⟨X, calls, Y, rfl, hcall, hair⟩ := h
  exact ⟨X, calls, Y ++ E, by simp, hcall, hair⟩

/-- A frame that reports a success reports one that has been. -/
def Vouched (H : List Event) (b : Bytes) : Prop := typeOf b = Msg.txok → Completed (sessionOf b) (seqOf b) H

theorem Vouched.mono {b : Bytes} (h : Vouched H b) (E : List Event) : Vouched (H ++ E) b := fun ht => (h ht).mono E

theorem vouched_other (H : List Event) {b : Bytes} (h : typeOf b ≠ Msg.txok) : Vouched H b := fun ht => absurd ht h

/-- The transmitter is on for the request that is on air. -/
def Aired (H : List Event) (s : Core) : Prop :=
  s.rs = .transmitting → ∃ b, onAir H = some (keyOf b) ∧ s.txSession = sessionOf b ∧ s.txSeq = seqOf b

theorem Aired.same {s s' : Core} (h : Aired H s) {e : Event} (hair : airOn (onAir H) e = onAir H)
    (hs : s'.rs = .transmitting → s.rs = .transmitting ∧ s'.txSession = s.txSession ∧ s'.txSeq = s.txSeq) :
    Aired (H ++ [e]) s' := by
  intro hrs
  obtain ⟨hrs', hsession, hseq⟩ := hs hrs
  obtain ⟨b, hb, hbs, hbq⟩ := h hrs'
  refine ⟨b, ?_, hsession.trans hbs, hseq.trans hbq⟩
  rw [onAir_append]
  exact hair.trans hb

theorem aired_handle {s s' : Core} {b : Bytes} {calls : List Call} (h : Aired H s) (hs : Handled s b calls s') :
    Aired (H ++ [.handled b calls]) s' := by
  cases hs with
  | ignored | refused | replayed => exact h.same rfl fun hrs => ⟨hrs, rfl, rfl⟩
  | opened | answered => exact h.same rfl fun hrs => ⟨hrs, rfl, rfl⟩
  | failed _ _ _ hoff => exact fun hrs => absurd hrs hoff
  | started hf =>
    intro _
    refine ⟨b, ?_, hf.session.symm, rfl⟩
    rw [onAir_append]
    rfl

theorem aired_task {s s' : Core} {i : Firmware.Input} {calls : List Call} (h : Aired H s) (hi : ∀ hw b, i ≠ .handle hw b)
    (hs : Stepped s i calls s') : Aired (H ++ [.task calls]) s' := by
  cases hs with
  | handled => exact absurd rfl (hi _ _)
  | ended _ _ _ hend =>
    cases hend with
    | own _ _ _ _ hoff => exact fun hrs => absurd hrs hoff
    | foreign _ hoff => exact fun hrs => absurd hrs hoff
  | quiet _ hcalls hcore =>
    refine h.same ?_ fun hrs => ?_
    · rcases hcalls with rfl | ⟨e, rfl⟩ | ⟨bs, rfl⟩ <;> rfl
    · rcases hcore with rfl | ⟨-, rs, hoff, rfl⟩
      · exact ⟨hrs, rfl, rfl⟩
      · exact absurd hrs hoff

/-! ## The modem -/

theorem calls_listen (hw : Hw) (s : Fw) : (s.listen hw).calls = s.calls := by
  unfold Fw.listen
  split
  · rfl
  · simp only
    split
    · rfl
    · rfl

/-- The end of a transmission calls `finishTransmit`. -/
theorem finish_mem (hw : Hw) {s : Fw} (hgo : ¬ (s.irq = false ∨ s.ready = false)) (hair : s.rs = .transmitting) :
    .finishTransmit hw.finishTransmit ∈ (Firmware.step (.radioTask hw) s).calls := by
  have hstep : Firmware.step (.radioTask hw) s = (({ s with calls := [] } : Fw).clearIrq.txDone hw).listen hw := by
    rw [Firmware.step, Fw.perform, Fw.radioTask, if_neg hgo]
    exact if_pos hair
  rw [hstep, calls_listen]
  unfold Fw.txDone
  simp only
  split
  · split
    · simp
    · simp
  · split
    · simp [Fw.error]
    · simp

/-- What the modem keeps for the port, and what is on air. -/
structure Modem (H : List Event) (s : Fw) : Prop where
  mail : Mail (Vouched H) s
  aired : Aired H s.core

theorem Modem.mono (h : Modem H s) {e : Event} (he : airOn (onAir H) e = onAir H) : Modem (H ++ [e]) s :=
  ⟨⟨fun f hf => (h.mail.1 f hf).mono _, h.mail.2.mono _⟩, h.aired.same he fun hrs => ⟨hrs, rfl, rfl⟩⟩

theorem modem_setup (H : List Event) (d : Board) : Modem H (setup d) := by
  refine ⟨mail_setup (vouched_other H) d, fun hrs => ?_⟩
  obtain ⟨rs, ready, hoff, hcore⟩ := setup_core d
  rw [hcore] at hrs
  exact absurd hrs hoff

theorem Modem.handle (h : Modem H s) (hw : Hw) (b : Bytes) :
    Modem (H ++ [.handled b (Firmware.step (.handle hw b) s).calls]) (Firmware.step (.handle hw b) s) := by
  constructor
  · have hmono : Mail (Vouched (H ++ [.handled b (Firmware.step (.handle hw b) s).calls])) { s with calls := [] } :=
      ⟨fun f hf => (h.mail.1 f hf).mono _, h.mail.2.mono _⟩
    exact (mail_keeps (vouched_other _)).handle hmono hmono hw b
  · have hstep := step_spec (.handle hw b) s
    generalize (Firmware.step (.handle hw b) s).calls = calls, (Firmware.step (.handle hw b) s).core = s' at hstep
    cases hstep with
    | handled hh => exact aired_handle h.aired hh
    | ended hi => exact absurd rfl (hi hw b)
    | quiet hi => exact absurd rfl (hi hw b)

theorem Modem.task (h : Modem H s) {i : Firmware.Input} (hi : ∀ hw b, i ≠ .handle hw b) :
    Modem (H ++ [.task (Firmware.step i s).calls]) (Firmware.step i s) := by
  refine ⟨?_, aired_task h.aired hi (step_spec i s)⟩
  generalize hH : H ++ [.task (Firmware.step i s).calls] = H'
  have hmono : Mail (Vouched H') { s with calls := [] } := by
    rw [← hH]
    exact ⟨fun f hf => (h.mail.1 f hf).mono _, h.mail.2.mono _⟩
  have hkeeps := mail_keeps (vouched_other H')
  cases i with
  | handle hw b => exact absurd rfl (hi hw b)
  | isr => exact hmono
  | txWatchdog hw => exact hkeeps.txWatchdog hmono hw
  | flush availableForWrite written =>
    show Mail _ (Fw.flush { s with calls := [] } availableForWrite written)
    unfold Fw.flush
    split
    · exact hmono
    · simp only
      split
      · exact hmono
      · exact hmono
  | radioTask hw =>
    refine hkeeps.radioTask hmono hw (fun hgo hair hok hown p _ => ?_) fun _ => ?_
    swap
    · exact mail_received (vouched_other H') (hkeeps.clearIrq hmono) hw _ _
    -- the transmission that ends is the one on air, and the running session has started it
    obtain ⟨b, hb, hsession, hseq⟩ := h.aired hair
    obtain ⟨-, hses⟩ := (Fw.ownTx_iff _).mp hown
    have hfinish := finish_mem hw hgo hair
    rw [hok] at hfinish
    refine ⟨H, _, [], hH.symm, hfinish, ?_⟩
    have hs : s.session = sessionOf b := hses.trans hsession
    have hq : s.txSeq = seqOf b := hseq
    rw [hb, keyOf, sessionOf_frame, seqOf_frame]
    show _ = some (s.session % 2 ^ 32, s.txSeq % 2 ^ 32)
    rw [hs, hq, Nat.mod_eq_of_lt (sessionOf_lt b), Nat.mod_eq_of_lt (seqOf_lt b)]

/-- The bytes of a frame on the wire. -/
def wire (b : Bytes) : Bytes := enc b ++ [0]

theorem enc_ne_zero (b : Bytes) : ∀ x ∈ enc b, x ≠ 0 := by
  rw [enc_eq_cobsEncode, Protocol.cobsEncode_eq_stuff]
  exact Cobs.stuff_ne_zero b

/-- Some of a frame that ends with a delimiter is all of it. -/
theorem take_wire {b : Bytes} {n : Nat} (h : ((wire b).take n).getLast? = some 0) : (wire b).take n = wire b := by
  rcases Nat.lt_or_ge (enc b).length n with hn | hn
  · refine List.take_of_length_le ?_
    simp only [wire, List.length_append, List.length_singleton]
    exact hn
  · rw [wire, List.take_append_of_le_length hn] at h
    exact absurd rfl (enc_ne_zero b 0 (List.mem_of_mem_take (List.mem_of_getLast? h)))

/-- What the modem writes whole is a frame of its queue. -/
theorem written_flush (availableForWrite : Int) (n : Nat) (h : Modem H s) :
    ∀ bs ∈ written (Firmware.step (.flush availableForWrite n) s).calls, ∃ b, bs = wire b ∧ Vouched H b := by
  show ∀ bs ∈ written (Fw.flush { s with calls := [] } availableForWrite n).calls, _
  unfold Fw.flush
  split
  · exact fun bs hbs => absurd hbs List.not_mem_nil
  · simp only
    split
    · exact fun bs hbs => absurd hbs List.not_mem_nil
    · intro bs hbs
      refine ⟨(s.slot 0).b, ?_, ?_⟩
      · have hbs' : bs ∈ written [.serialWrite ((wire (s.slot 0).b).take n)] := hbs
        simp only [written, List.filterMap_cons, List.filterMap_nil] at hbs'
        split at hbs'
        · exact absurd hbs' List.not_mem_nil
        · rename_i hwhole
          simp only [Option.ite_none_right_eq_some, Option.some.injEq] at hwhole
          rw [List.mem_singleton.mp hbs', ← hwhole.2]
          exact take_wire hwhole.1
      · rw [Fw.slot, List.getD_eq_getElem?_getD]
        cases hget : s.q[(s.qh + 0) % QD]? with
        | none => exact vouched_other H (by decide)
        | some f => exact h.mail.1 f (List.mem_of_getElem? hget)

/-! ## The port -/

/-- The bytes read and to be read are those of frames that are vouched for, and the decoder has been fed the former. -/
def Filled (H : List Event) (m : Host.Modem) (port : Bytes) : Prop :=
  ∃ (bs : List Bytes) (p : Bytes), (∀ b ∈ bs, Vouched H b) ∧ p ++ port = bs.flatMap wire ∧
    m.decoderAt = (Protocol.StreamDecoder.feed {} p).1

theorem feed_wire (bs : List Bytes) : (Protocol.StreamDecoder.feed {} (bs.flatMap wire)).1 = {} ∧
    ∀ f ∈ (Protocol.StreamDecoder.feed {} (bs.flatMap wire)).2, ∃ b ∈ bs, Protocol.frameOfBody b = some f := by
  have hwire : wire = fun b => Protocol.cobsEncode b ++ [0] := funext fun b => congrArg (· ++ [0]) (enc_eq_cobsEncode b)
  rw [hwire]
  exact Protocol.feed_frames_sound rfl rfl bs

/-- A frame that reports a success, decoded from one that is vouched for. -/
theorem Vouched.reports {b : Bytes} {f : Protocol.Frame} (h : Vouched H b) (hf : Protocol.frameOfBody b = some f)
    (hreports : Host.reports f = true) : Completed f.session f.sequence H := by
  obtain ⟨-, htyp, hsession, hsequence, -⟩ := Protocol.frameOfBody_fields hf
  rw [hsession, hsequence]
  refine h (UInt8.toNat_inj.mp ?_)
  simp only [Host.reports, Bool.decide_and, Bool.and_eq_true, decide_eq_true_eq] at hreports
  exact htyp.symm.trans hreports.1

/-- What a call that reads a part of the port hears of completed sends is true. -/
theorem Filled.reports {m : Host.Modem} {read port : Bytes} (h : Filled H m (read ++ port)) {f : Protocol.Frame}
    (hf : f ∈ (m.decoderAt.feed read).2) (hreports : Host.reports f = true) : Completed f.session f.sequence H := by
  obtain ⟨bs, p, hbs, hp, hdecoder⟩ := h
  have hall := (feed_wire bs).2 f
  rw [← hp, ← List.append_assoc, Protocol.feed_append, Protocol.feed_append, ← hdecoder] at hall
  obtain ⟨b, hb, hbf⟩ := hall (List.mem_append_left _ (List.mem_append_right _ hf))
  exact (hbs b hb).reports hbf hreports

theorem Filled.mono {m : Host.Modem} {port : Bytes} (h : Filled H m port) (E : List Event) : Filled (H ++ E) m port := by
  obtain ⟨bs, p, hbs, hp, hdecoder⟩ := h
  exact ⟨bs, p, fun b hb => (hbs b hb).mono E, hp, hdecoder⟩

/-- A frame arrives. -/
theorem Filled.arrive {m : Host.Modem} {port : Bytes} (h : Filled H m port) {b : Bytes} (hb : Vouched H b) :
    Filled H m (port ++ wire b) := by
  obtain ⟨bs, p, hbs, hp, hdecoder⟩ := h
  refine ⟨bs ++ [b], p, fun c hc => ?_, ?_, hdecoder⟩
  · rcases List.mem_append.mp hc with hc | hc
    · exact hbs c hc
    · rwa [List.mem_singleton.mp hc]
  · rw [← List.append_assoc, hp, List.flatMap_append, List.flatMap_singleton]

/-- A call has read a part of the port. -/
theorem Filled.call {m m' : Host.Modem} {read port : Bytes} (h : Filled H m (read ++ port))
    (hdecoder : m'.connected = true → m'.decoder = (m.decoderAt.feed read).1) :
    Filled H m' (if m'.connected then port else []) := by
  cases hup : m'.connected with
  | false =>
    refine ⟨[], [], fun b hb => absurd hb List.not_mem_nil, rfl, ?_⟩
    rw [Host.Modem.decoderAt, hup]
    rfl
  | true =>
    obtain ⟨bs, p, hbs, hp, hwas⟩ := h
    refine ⟨bs, p ++ read, hbs, by rw [List.append_assoc]; exact hp, ?_⟩
    rw [Host.Modem.decoderAt, hup, if_pos rfl, hdecoder hup, Protocol.feed_append, hwas]

theorem readBy_reading (i : Host.Modem.Input) (n : Nat) (port : Bytes) :
    Host.Modem.readBy (reading (port.take n) i) ++
        port.drop (Host.Modem.readBy (reading (port.take n) i)).length =
      port := by
  have hcases : Host.Modem.readBy (reading (port.take n) i) = [] ∨
      Host.Modem.readBy (reading (port.take n) i) = port.take n := by
    cases i with
    | sendAir | takeTxOutcomes | close => exact Or.inl rfl
    | tick io idle =>
      cases hread : io.read with
      | none => exact Or.inl (by simp [reading, Host.Modem.readBy, hread])
      | some bs => exact Or.inr (by simp [reading, Host.Modem.readBy, hread])
  rcases hcases with h | h
  · rw [h]
    rfl
  · rw [h, List.length_take]
    rcases Nat.le_total n port.length with hn | hn
    · rw [Nat.min_eq_left hn, List.take_append_drop]
    · rw [Nat.min_eq_right hn, List.drop_length, List.append_nil, List.take_of_length_le hn]

/-! ## The sends -/

@[simp] theorem sends_append (H E : List Event) : sends (H ++ E) = sends H ++ sends E := List.flatMap_append

@[simp] theorem hostLog_append (H E : List Event) : hostLog (H ++ E) = hostLog H ++ hostLog E := List.flatMap_append

@[simp] theorem handledIn_append (H E : List Event) : handledIn (H ++ E) = handledIn H ++ handledIn E :=
  List.filterMap_append

/-- A call that returns a sequence is a send, which is in the log last. -/
theorem sentBy_called (i : Host.Modem.Input) (session : Nat) (log : List Host.Event) :
    (sentBy (.called i session log) = [] ∧ Host.Modem.returnedBy i log = []) ∨
      ∃ io payload sequence, i = .sendAir io payload ∧ log.getLast? = some (.sent sequence) ∧
        sentBy (.called i session log) = [{ session := session, sequence := sequence, payload := payload }] ∧
        Host.Modem.returnedBy i log = [sequence] := by
  cases i with
  | tick | takeTxOutcomes | close => exact Or.inl ⟨rfl, rfl⟩
  | sendAir io payload =>
    cases hlast : log.getLast? with
    | none => exact Or.inl (by simp [sentBy, Host.Modem.returnedBy, hlast])
    | some e =>
      cases e with
      | sent sequence => exact Or.inr ⟨io, payload, sequence, rfl, rfl, by simp [sentBy, hlast], by
          simp [Host.Modem.returnedBy, hlast]⟩
      | opened | lost | session | wrote | request | unencodable | accepted | frame | deadline | received | took
      | refused | raised => exact Or.inl (by simp [sentBy, Host.Modem.returnedBy, hlast])

/-- What the transport has asked for and reported. -/
structure Sending (draw : Nat) (H : List Event) (m : Host.Modem) : Prop where
  /-- The sends have their sequences from the window, and those reported completed are. -/
  window : ∃ w, Host.Window.Path (Host.Modem.window₀ draw) (hostLog H) w ∧ Host.Modem.Steady w m ∧
    w.returned = (sends H).map Send.sequence ∧
    Host.Owned (fun session sequence => Completed session sequence H) ((sends H).map Send.session) w.fate
  encodable : ∀ f ∈ Host.requestFrames (hostLog H), Host.Encodable f
  asked : ∀ send ∈ sends H, send.request ∈ Host.requestFrames (hostLog H)

variable {draw : Nat} {m : Host.Modem}

theorem Sending.other (h : Sending draw H m) {E : List Event} (hsends : sends E = []) (hlog : hostLog E = []) :
    Sending draw (H ++ E) m := by
  obtain ⟨w, hpath, hsteady, hreturned, howned⟩ := h.window
  refine ⟨⟨w, ?_, hsteady, ?_, ?_⟩, ?_, ?_⟩
  · rwa [hostLog_append, hlog, List.append_nil]
  · rwa [sends_append, hsends, List.append_nil]
  · rw [sends_append, hsends, List.append_nil]
    exact howned.mono fun _ _ hdone => hdone.mono E
  · rw [hostLog_append, hlog, List.append_nil]
    exact h.encodable
  · rw [hostLog_append, hlog, sends_append, hsends, List.append_nil, List.append_nil]
    exact h.asked

/-- The send that waits has asked last, for its payload. -/
theorem asked_last {w : Host.Window} {L : List Host.Event} {s₀ sequence : Nat} {payload : Bytes}
    (hnumbered : Host.Window.Numbered s₀ (L ++ m.log) w) (hsteady : Host.Modem.Steady w m)
    (hpending : w.pendingSend = some sequence) (hasks : Host.Modem.LastAsks payload m) :
    (Send.request { session := m.session, sequence := sequence, payload := payload }) ∈
      Host.requestFrames (L ++ m.log) := by
  have hasking : w.Asking sequence Protocol.Msg.radioSend := by
    rw [Host.Window.pendingSend] at hpending
    split at hpending
    · rename_i q typ started hp
      split at hpending
      · rename_i ht
        exact Or.inr ⟨started, by rw [hp, ht, Option.some.inj hpending]⟩
      · cases hpending
    · cases hpending
  obtain ⟨f, hf, htyp, hkey⟩ := hnumbered.current _ _ hasking
  obtain ⟨g, hg, hpayload⟩ := Option.map_eq_some_iff.mp hasks
  have hsame : g = f := by
    rw [Host.requestFrames_append, List.getLast?_append, hg, Option.some_or] at hf
    exact Option.some.inj hf
  obtain ⟨hsession, hsequence⟩ := Prod.mk.inj hkey
  have hrequest : f = Send.request { session := m.session, sequence := sequence, payload := payload } := by
    rw [Send.request, ← htyp, hsteady.session, ← hsession, ← hsequence, ← hpayload, hsame]
  exact hrequest ▸ List.mem_of_getLast? hf

/-- A call of the transport, which hears of completed sends only what is true. -/
theorem Sending.call (h : Sending draw H m) (i : Host.Modem.Input)
    (hheard : ∀ f ∈ (m.decoderAt.feed (Host.Modem.readBy i)).2, Host.reports f = true →
      Completed f.session f.sequence H)
    (hnew : ((Host.Modem.window₀ draw).session :: Host.sessionsIn (hostLog H ++ (Host.Modem.step i m).log)).Nodup) :
    Sending draw (H ++ [.called i (Host.Modem.step i m).session (Host.Modem.step i m).log]) (Host.Modem.step i m) := by
  obtain ⟨w, hpath, hsteady, hreturned, howned⟩ := h.window
  obtain ⟨w', hpath', hsteady', hreturned', hpending', -⟩ := Host.Modem.step_spec i hsteady
  obtain ⟨L, hfirst, hface, -⟩ := Host.Modem.step_reads i m
  have hlast : ∀ io payload sequence, i = .sendAir io payload →
      (Host.Modem.step i m).log.getLast? = some (.sent sequence) → Host.Modem.LastAsks payload (Host.Modem.step i m) := by
    rintro io payload sequence rfl hlast
    exact Host.Modem.step_lastAsks hlast
  generalize Host.Modem.step i m = m' at *
  have hlog : hostLog (H ++ [.called i m'.session m'.log]) = hostLog H ++ m'.log := by
    rw [hostLog_append]
    exact congrArg _ (List.append_nil _)
  have hsends : sends (H ++ [.called i m'.session m'.log]) = sends H ++ sentBy (.called i m'.session m'.log) := by
    rw [sends_append]
    exact congrArg _ (List.append_nil _)
  have hboth : Host.Window.Path (Host.Modem.window₀ draw) (hostLog H ++ m'.log) w' := hpath.append hpath'
  obtain ⟨K, hK⟩ := Host.Window.Path.owned (D := fun session sequence =>
      Completed session sequence (H ++ [.called i m'.session m'.log])) hpath'
    (howned.mono fun _ _ hdone => hdone.mono _) hsteady.good fun f hf hreports =>
      (hheard f (hfirst.subset (hface.frames ▸ hf)) hreports).mono _
  have hlength : ((sends H).map Send.session ++ K).length = w'.returned.length := by
    rw [hK.sends hsteady'.good, hsteady'.returned]
  rw [hreturned', hreturned, List.length_append, List.length_append, List.length_map, List.length_map,
    Nat.add_left_cancel_iff] at hlength
  refine ⟨⟨w', ?_, hsteady', ?_, ?_⟩, ?_, ?_⟩
  · rwa [hlog]
  · rw [hsends, hreturned', hreturned, List.map_append]
    rcases sentBy_called i m'.session m'.log with ⟨hno, hnone⟩ | ⟨io, payload, sequence, -, -, hsent, hone⟩
    · rw [hno, hnone]
      rfl
    · rw [hsent, hone]
      rfl
  · rw [hsends, List.map_append]
    rcases sentBy_called i m'.session m'.log with ⟨hno, hnone⟩ | ⟨io, payload, sequence, -, -, hsent, hone⟩
    · rw [hnone] at hlength
      rw [List.eq_nil_of_length_eq_zero hlength] at hK
      rwa [hno]
    · -- the send waits, so that its session is the running one
      rw [hone] at hlength hpending'
      obtain ⟨session, rfl⟩ := List.length_eq_one_iff.mp hlength
      have hwaiting : w'.fate.waiting.isSome = true := by
        have hseq := Host.Window.waitingSeq_fate w'
        rw [hpending' sequence List.mem_cons_self, Host.Fate.waitingSeq] at hseq
        rw [← Option.isSome_map, hseq]
        rfl
      have hsession := hK.waiting hwaiting
      rw [List.getLast?_concat] at hsession
      have hsame : session = m'.session := (Option.some.inj hsession).trans hsteady'.session.symm
      rw [hsent]
      rwa [hsame] at hK
  · rw [hlog, Host.requestFrames_append]
    intro f hf
    rcases List.mem_append.mp hf with hf | hf
    · exact h.encodable f hf
    · exact hface.encodable f hf
  · rw [hlog, hsends]
    intro send hsend
    rcases List.mem_append.mp hsend with hsend | hsend
    · rw [Host.requestFrames_append]
      exact List.mem_append_left _ (h.asked send hsend)
    · rcases sentBy_called i m'.session m'.log with ⟨hno, -⟩ | ⟨io, payload, sequence, hi, hend, hsent, hone⟩
      · rw [hno] at hsend
        exact absurd hsend List.not_mem_nil
      · rw [hsent] at hsend
        obtain rfl := List.mem_singleton.mp hsend
        rw [hone] at hpending'
        exact asked_last (hboth.numbered ⟨rfl, rfl⟩ hnew) hsteady' (hpending' sequence List.mem_cons_self)
          (hlast io payload sequence hi hend)

/-! ## Every run -/

/-- What holds after the events `H`. -/
structure Sound (draw : Nat) (H : List Event) (s : Link) : Prop where
  sending : Sending draw H s.host
  /-- The modem handles requests, each once and in order. -/
  down : (handledIn H).map Prod.fst ++ s.down <+ (Host.requestFrames (hostLog H)).map raw
  /-- A request starts the transmitter at most once, with its payload. -/
  packets : ∀ x ∈ handledIn H, attempts x.2 = [] ∨ ∃ boot air, attempts x.2 = [airPacket boot air (payloadOf x.1)]
  silent : ∀ calls, .task calls ∈ H → attempts calls = []
  modem : Modem H s.fw
  up : ∀ e ∈ s.up, ∃ b, e = wire b ∧ Vouched H b
  port : Filled H s.host s.port

theorem attempts_handled {s s' : Core} {b : Bytes} {calls : List Call} (h : Handled s b calls s') :
    attempts calls = [] ∨ ∃ boot air, attempts calls = [airPacket boot air (payloadOf b)] := by
  cases h with
  | ignored | refused | replayed | opened | answered => exact Or.inl rfl
  | failed _ hgo =>
    obtain ⟨boot, air, rfl⟩ := hgo.packet
    exact Or.inr ⟨boot, air, rfl⟩
  | started _ hgo =>
    obtain ⟨boot, air, rfl⟩ := hgo.packet
    exact Or.inr ⟨boot, air, rfl⟩

/-- Only a frame that is handled starts the transmitter. -/
theorem silent_task {i : Firmware.Input} (hi : ∀ hw b, i ≠ .handle hw b) (s : Fw) :
    ∀ calls, Event.task calls ∈ [Event.task (Firmware.step i s).calls] → attempts calls = [] := by
  intro calls hcalls
  obtain rfl := Event.task.inj (List.mem_singleton.mp hcalls)
  have hstep := step_spec i s
  generalize (Firmware.step i s).calls = calls, (Firmware.step i s).core = s' at hstep ⊢
  cases hstep with
  | handled => exact absurd rfl (hi _ _)
  | ended _ _ he hend =>
    rcases he with rfl | ⟨st, rfl⟩
    · cases hend <;> rfl
    · cases hend <;> rfl
  | quiet _ hquiet =>
    rcases hquiet with rfl | ⟨e, rfl⟩ | ⟨bs, rfl⟩ <;> rfl

theorem silent_append (h : ∀ calls, .task calls ∈ H → attempts calls = []) {E : List Event}
    (hE : ∀ calls, .task calls ∈ E → attempts calls = []) : ∀ calls, .task calls ∈ H ++ E → attempts calls = [] :=
  fun calls hc => (List.mem_append.mp hc).elim (h calls) (hE calls)

theorem up_mono {up : List Bytes} (h : ∀ e ∈ up, ∃ b, e = wire b ∧ Vouched H b) (E : List Event) :
    ∀ e ∈ up, ∃ b, e = wire b ∧ Vouched (H ++ E) b := fun e he => by
  obtain ⟨b, rfl, hb⟩ := h e he
  exact ⟨b, rfl, hb.mono E⟩

variable {s : Link}

theorem Sound.call (h : Sound draw H s) (i : Host.Modem.Input) (n : Nat)
    (hnew : ((Host.Modem.window₀ draw).session :: Host.sessionsIn (hostLog (H ++ (call i n s).log))).Nodup) :
    Sound draw (H ++ (call i n s).log) (call i n s) := by
  have hreads := readBy_reading i n s.port
  obtain ⟨_, -, hface, -⟩ := Host.Modem.step_reads (reading (s.port.take n) i) s.host
  have hport : Filled H s.host (Host.Modem.readBy (reading (s.port.take n) i) ++
      s.port.drop (Host.Modem.readBy (reading (s.port.take n) i)).length) := by
    rw [hreads]
    exact h.port
  have hlog : hostLog (H ++ (Joint.call i n s).log) = hostLog H ++ (Joint.call i n s).host.log := by
    rw [hostLog_append]
    exact congrArg _ (List.append_nil _)
  rw [hlog] at hnew
  have hhandled : handledIn (H ++ (Joint.call i n s).log) = handledIn H := by
    rw [handledIn_append]
    exact List.append_nil _
  refine ⟨h.sending.call _ (fun f hf => hport.reports hf) hnew, ?_, ?_, silent_append h.silent (by simp [Joint.call]),
    h.modem.mono rfl, up_mono h.up _, ?_⟩
  · rw [hhandled, hlog, Host.requestFrames_append, List.map_append]
    show _ ++ (s.down ++ _) <+ _
    rw [← List.append_assoc]
    exact h.down.append (List.Sublist.refl _)
  · rw [hhandled]
    exact h.packets
  · exact (hport.mono _).call hface.decoder

theorem Sound.handle (h : Sound draw H s) (hw : Hw) : Sound draw (H ++ (handle hw s).log) (handle hw s) := by
  cases hdown : s.down with
  | nil =>
    have hrun : Joint.handle hw s = { s with log := [] } := by
      unfold Joint.handle
      rw [hdown]
    rw [hrun, List.append_nil]
    exact { h with }
  | cons b down =>
    have hrun : Joint.handle hw s = { s with
        fw := Firmware.step (.handle hw b) s.fw, down := down
        log := [.handled b (Firmware.step (.handle hw b) s.fw).calls] } := by
      unfold Joint.handle
      rw [hdown]
    have hpackets : attempts (Firmware.step (.handle hw b) s.fw).calls = [] ∨ ∃ boot air,
        attempts (Firmware.step (.handle hw b) s.fw).calls = [airPacket boot air (payloadOf b)] := by
      have hstep := step_spec (.handle hw b) s.fw
      generalize (Firmware.step (.handle hw b) s.fw).calls = calls at hstep ⊢
      generalize (Firmware.step (.handle hw b) s.fw).core = s' at hstep
      cases hstep with
      | handled hh => exact attempts_handled hh
      | ended hi => exact absurd rfl (hi hw b)
      | quiet hi => exact absurd rfl (hi hw b)
    rw [hrun]
    refine ⟨h.sending.other rfl rfl, ?_, ?_, silent_append h.silent (by simp), h.modem.handle hw b, up_mono h.up _,
      h.port.mono _⟩
    · have hwas := h.down
      rw [hdown] at hwas
      simpa [handledIn, hostLog] using hwas
    · intro x hx
      rw [handledIn_append] at hx
      rcases List.mem_append.mp hx with hx | hx
      · exact h.packets x hx
      · rw [List.mem_singleton.mp hx]
        exact hpackets

/-- A move that neither calls the transport nor gives the modem a frame. -/
theorem Sound.other (h : Sound draw H s) {s' : Link} {E : List Event}
    (hE : sends E = [] ∧ hostLog E = [] ∧ handledIn E = []) (hsilent : ∀ calls, .task calls ∈ E → attempts calls = [])
    (hhost : s'.host = s.host) (hdown : s'.down <+ s.down) (hmodem : Modem (H ++ E) s'.fw)
    (hup : ∀ e ∈ s'.up, ∃ b, e = wire b ∧ Vouched (H ++ E) b) (hport : Filled H s.host s'.port) :
    Sound draw (H ++ E) s' := by
  obtain ⟨hsends, hlog, hhandled⟩ := hE
  refine ⟨?_, ?_, ?_, silent_append h.silent hsilent, hmodem, hup, ?_⟩
  · rw [hhost]
    exact h.sending.other hsends hlog
  · rw [handledIn_append, hostLog_append, hhandled, hlog, List.append_nil, List.append_nil]
    exact (hdown.append_left _).trans h.down
  · rw [handledIn_append, hhandled, List.append_nil]
    exact h.packets
  · rw [hhost]
    exact hport.mono E

/-- The modem does something else. -/
theorem Sound.task (h : Sound draw H s) {i : Firmware.Input} (hi : ∀ hw b, i ≠ .handle hw b) :
    Sound draw (H ++ (task i s).log) (task i s) :=
  h.other ⟨rfl, rfl, rfl⟩ (silent_task hi s.fw) rfl (List.Sublist.refl _) (h.modem.task hi) (up_mono h.up _) h.port

theorem Sound.flush (h : Sound draw H s) (availableForWrite : Int) (n : Nat) :
    Sound draw (H ++ (flush availableForWrite n s).log) (flush availableForWrite n s) := by
  refine h.other ⟨rfl, rfl, rfl⟩ (silent_task (by simp) s.fw) rfl (List.Sublist.refl _) (h.modem.task (by simp))
    (fun e he => ?_) h.port
  rcases List.mem_append.mp he with he | he
  · exact up_mono h.up _ e he
  · obtain ⟨b, rfl, hb⟩ := written_flush availableForWrite n h.modem e he
    exact ⟨b, rfl, hb.mono _⟩

theorem Sound.arrive (h : Sound draw H s) : Sound draw (H ++ (arrive s).log) (arrive s) := by
  cases hup : s.up with
  | nil =>
    have hrun : Joint.arrive s = { s with log := [] } := by
      unfold Joint.arrive
      rw [hup]
    rw [hrun, List.append_nil]
    exact { h with }
  | cons e up =>
    have hrun : Joint.arrive s = { s with port := s.port ++ e, up := up, log := [] } := by
      unfold Joint.arrive
      rw [hup]
    obtain ⟨b, rfl, hb⟩ := h.up e (by rw [hup]; exact List.mem_cons_self)
    rw [hrun, List.append_nil]
    exact { h with up := fun e' he' => h.up e' (by rw [hup]; exact List.mem_cons_of_mem _ he'), port := h.port.arrive hb }

theorem Sound.next (h : Sound draw H s) (i : Input)
    (hnew : ((Host.Modem.window₀ draw).session :: Host.sessionsIn (hostLog (H ++ (next i s).log))).Nodup) :
    Sound draw (H ++ (next i s).log) (next i s) := by
  cases i with
  | call i n => exact h.call i n hnew
  | arrive => exact h.arrive
  | handle hw => exact h.handle hw
  | isr => exact h.task (by simp)
  | radioTask hw => exact h.task (by simp)
  | txWatchdog hw => exact h.task (by simp)
  | flush availableForWrite n => exact h.flush availableForWrite n
  | reboot d =>
    show Sound draw (H ++ [.rebooted]) { s with fw := setup d, log := [.rebooted] }
    refine h.other ⟨rfl, rfl, rfl⟩ (by simp) rfl (List.Sublist.refl _) ?_ (up_mono h.up _) h.port
    simp only
    exact modem_setup _ d
  | loseDown k =>
    show Sound draw (H ++ []) _
    rw [List.append_nil]
    exact { h with down := ((List.eraseIdx_sublist _ _).append_left _).trans h.down }
  | loseUp k =>
    show Sound draw (H ++ []) _
    rw [List.append_nil]
    exact { h with up := fun e he => h.up e (List.mem_of_mem_eraseIdx he) }

theorem init_sound (d : Board) (draw : Nat) (reconnectSeconds : ℚ) : Sound draw [] (init d draw reconnectSeconds) := by
  have hsteady := Host.Modem.init_steady draw reconnectSeconds
  have howned : Host.Owned (fun session sequence => Completed session sequence []) [] (Host.Modem.window₀ draw).fate :=
    ⟨rfl, fun hw => absurd hw (by simp [Host.Window.fate, Host.Modem.window₀]), fun i sequence session hi => by
      simp [Host.Window.fate, Host.Modem.window₀] at hi⟩
  rw [init]
  refine ⟨⟨⟨_, .nil, hsteady, rfl, howned⟩, ?_, ?_⟩, ?_, ?_, ?_, ?_, ?_, [], [], ?_, rfl, rfl⟩
  · exact fun f hf => absurd hf List.not_mem_nil
  · exact fun send hsend => absurd hsend List.not_mem_nil
  · exact List.Sublist.refl _
  · exact fun x hx => absurd hx List.not_mem_nil
  · exact fun calls hcalls => absurd hcalls List.not_mem_nil
  · simp only
    exact modem_setup [] d
  · exact fun e he => absurd he List.not_mem_nil
  · exact fun b hb => absurd hb List.not_mem_nil

/-! ## No false success and no second transmission -/

/-- Among rows of different keys at most one has the key. -/
theorem flatMap_of_nodup {α β κ : Type} [DecidableEq κ] {l : List α} {k : α → κ} (h : (l.map k).Nodup) (a : κ)
    (g : α → List β) : l.flatMap (fun x => if k x = a then g x else []) = [] ∨
      ∃ x ∈ l, k x = a ∧ l.flatMap (fun x => if k x = a then g x else []) = g x := by
  by_cases hex : ∃ x ∈ l, k x = a
  · obtain ⟨x, hx, rfl⟩ := hex
    obtain ⟨l₁, l₂, rfl⟩ := List.append_of_mem hx
    rw [List.map_append, List.map_cons, List.perm_middle.nodup_iff, List.nodup_cons, List.mem_append] at h
    have hnone : ∀ l' : List α, k x ∉ l'.map k → l'.flatMap (fun y => if k y = k x then g y else []) = [] :=
      fun l' hl' => List.flatMap_eq_nil_iff.mpr fun y hy => if_neg fun hk : k y = k x => hl' (hk ▸ List.mem_map_of_mem hy)
    refine Or.inr ⟨x, hx, rfl, ?_⟩
    rw [List.flatMap_append, List.flatMap_cons, hnone l₁ fun hin => h.1 (Or.inl hin),
      hnone l₂ fun hin => h.1 (Or.inr hin), if_pos rfl, List.append_nil, List.nil_append]
  · exact Or.inl (List.flatMap_eq_nil_iff.mpr fun x hx => if_neg fun hk => hex ⟨x, hx, hk⟩)

/-- The modem finds the session, the sequence and the payload of a request in its bytes. -/
theorem raw_fields {f : Protocol.Frame} (h : Host.Encodable f) :
    keyOf (raw f) = Host.key f ∧ payloadOf (raw f) = f.payload := by
  obtain ⟨-, -, hsession, hsequence, hpayload⟩ := h
  rw [raw, ← frame_eq_rawFrame, keyOf, sessionOf_frame, seqOf_frame, Nat.mod_eq_of_lt (by omega),
    Nat.mod_eq_of_lt (by omega)]
  simp only [Protocol.maxUsbPayload] at hpayload
  exact ⟨rfl, payloadOf_frame (by omega)⟩

theorem Sound.once (h : Sound draw H s) (hnodup : ((Host.requestFrames (hostLog H)).map Host.key).Nodup) {send : Send}
    (hsend : send ∈ sends H) :
    startedFor send H = [] ∨ ∃ boot air, startedFor send H = [airPacket boot air send.payload] := by
  have hask := h.sending.asked send hsend
  have hkeys : ((Host.requestFrames (hostLog H)).map raw).map keyOf = (Host.requestFrames (hostLog H)).map Host.key := by
    rw [List.map_map]
    exact List.map_congr_left fun f hf => (raw_fields (h.sending.encodable f hf)).1
  have hsub : (handledIn H).map Prod.fst <+ (Host.requestFrames (hostLog H)).map raw :=
    (List.sublist_append_left _ _).trans h.down
  have hhandled : ((handledIn H).map fun x => keyOf x.1).Nodup := by
    have hmap := hsub.map keyOf
    rw [hkeys, List.map_map] at hmap
    exact hmap.nodup hnodup
  rcases flatMap_of_nodup hhandled (send.session, send.sequence) fun x => attempts x.2 with hnone | ⟨x, hx, hkey, hone⟩
  · exact Or.inl hnone
  · -- the frame handled is the request of the send
    obtain ⟨f, hf, hraw⟩ := List.mem_map.mp (hsub.subset (List.mem_map_of_mem hx))
    obtain ⟨hkeyf, hpayload⟩ := raw_fields (h.sending.encodable f hf)
    have hsame : f = send.request := by
      refine List.inj_on_of_nodup_map hnodup hf hask ?_
      rw [← hkeyf, hraw, hkey]
      rfl
    have hstarted : startedFor send H = attempts x.2 := hone
    rw [hstarted]
    rcases h.packets x hx with hnone | ⟨boot, air, hpacket⟩
    · exact Or.inl hnone
    · refine Or.inr ⟨boot, air, ?_⟩
      rw [hpacket, ← hraw, hpayload, hsame]
      rfl

theorem Sound.outcome (h : Sound draw H s) {i sequence : Nat} {completed : Option Bool}
    (hi : (Host.takenIn (hostLog H))[i]? = some (sequence, completed)) :
    ∃ send, (sends H)[i]? = some send ∧ sequence = send.sequence ∧
      (completed = some true → Completed send.session send.sequence H) := by
  obtain ⟨w, hpath, hsteady, hreturned, howned⟩ := h.sending.window
  have htaken : w.fate.outcomes[i]? = some (sequence, completed) := by
    have hbooks : w.taken = Host.takenIn (hostLog H) := (Host.Window.Path.books hpath).1
    rw [Host.Window.fate, hbooks, List.getElem?_append_left (List.getElem?_eq_some_iff.mp hi).1]
    exact hi
  -- the sequences of the outcomes are those returned, in order
  have hsequence : ((sends H).map Send.sequence)[i]? = some sequence := by
    have hmap : (w.fate.outcomes.map Prod.fst)[i]? = some sequence := by rw [List.getElem?_map, htaken]; rfl
    have hsends : w.sends = w.fate.outcomes.map Prod.fst ++ w.pendingSend.toList := hsteady.good.sends
    rw [← hreturned, hsteady.returned, hsends, List.getElem?_append_left (List.getElem?_eq_some_iff.mp hmap).1]
    exact hmap
  obtain ⟨send, hsend, rfl⟩ := Option.map_eq_some_iff.mp (List.getElem?_map.symm.trans hsequence)
  refine ⟨send, hsend, rfl, ?_⟩
  rintro rfl
  exact howned.completed i send.sequence send.session htaken (by rw [List.getElem?_map, hsend]; rfl)

/-- **No false success**: while the sessions drawn are new, each send starts at most one transmission, of its own
payload, and an outcome that says it was completed is true. -/
theorem no_false_success (d : Board) (draw : Nat) (reconnectSeconds : ℚ) (is : List Input)
    (hnew : ((init d draw reconnectSeconds).host.session ::
      Host.sessionsIn (hostLog (history (trace next (init d draw reconnectSeconds) is)))).Nodup) :
    Truthful (history (trace next (init d draw reconnectSeconds) is)) := by
  have hrun := @run_rel _ _ next _ eventsOf (fun H s =>
      ((Host.Modem.window₀ draw).session :: Host.sessionsIn (hostLog H)).Nodup → Sound draw H s) (fun _ => True) [] _
    (fun _ => init_sound d draw reconnectSeconds) ?_ is fun _ _ => trivial
  · rw [List.nil_append] at hrun
    have hsound := hrun hnew
    obtain ⟨w, hpath, -⟩ := hsound.sending.window
    have hnumbered := Host.Window.Path.numbered hpath ⟨rfl, rfl⟩ hnew
    exact ⟨hsound.silent, fun send hsend => hsound.once hnumbered.nodup hsend,
      fun i sequence completed hi => hsound.outcome hi⟩
  · intro H i s ih _ hnew
    refine (ih ?_).next i hnew
    rw [hostLog_append, Host.sessionsIn_append, ← List.cons_append] at hnew
    exact (List.nodup_append.mp hnew).1

/-- A session is opened and answered; two sends go on air and are transmitted. The result of the first one arrives, that
of the second one is lost, and the transport gives it up. -/
def sendRun : List Input :=
  let io : Host.Io := { writes := [.wrote 100, .wrote 100], draws := fun _ => 6 }
  [.call (.tick io true) 0, .handle {}, .flush 100 100, .arrive, .call (.tick io true) 100, .call (.sendAir io [5]) 0,
    .handle {}, .isr, .radioTask {}, .flush 100 100, .arrive, .call (.tick io true) 100, .call (.sendAir io [6]) 0,
    .handle {}, .isr, .radioTask {}, .flush 100 100, .loseUp 0, .call (.tick { io with clock := fun _ => 4 } true) 100,
    .call .takeTxOutcomes 0]

theorem no_false_success_sendRun :
    (sends (history (trace next (init {} 0 1) sendRun)) =
        [{ session := 7, sequence := 2, payload := [5] }, { session := 7, sequence := 3, payload := [6] }] ∧
      Host.takenIn (hostLog (history (trace next (init {} 0 1) sendRun))) = [(2, some true), (3, none)]) ∧
      Truthful (history (trace next (init {} 0 1) sendRun)) :=
  ⟨⟨by decide +kernel, by decide +kernel⟩, no_false_success {} 0 1 sendRun (by decide +kernel)⟩

end LoraLink.Joint
