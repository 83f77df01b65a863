import LoraLink.Firmware.Replies
import LoraLink.Host.Sight
import LoraLink.Link.Joint
import Mathlib.Data.List.Flatten
import Mathlib.Data.List.Induction

/-!
# What the transport knows is true

What a modem hears on the air goes up to the caller of its transport, and what the transport knows of its modem comes
from there.

- `heard`: the payloads of the packets that the modem has read for a session;
- `Told`: what every move keeps. The payloads returned, those that wait for the caller, those in the port and on their
  way to it, and those of the events in the queue, are of those heard, in order;
- `returned_heard`: so the payloads returned are;
- `transport_knows`: the handshake of a session is the answer of the modem to it, and the counters shown are those of
  the modem at one moment.
-/

namespace LoraLink.Joint

open LoraLink.Firmware
open scoped List

/-! ## What the modem has heard and told -/

/-- The payload of the packet that the modem reads for a session. -/
def heardBy (x : Move Link Input) : List Bytes :=
  match x.input with
  | .radioTask hw =>
    if x.before.fw.hears hw then ((Protocol.decodeRadio (readPacket hw)).map fun (_, _, p) => p).toList else []
  | _ => []

abbrev heard (T : List (Move Link Input)) : List Bytes := outputs heardBy T

/-- The payloads that the calls of the transport have returned. -/
def returned (H : List Event) : List Bytes := H.flatMap fun | .called _ _ log => Host.handedBy log | _ => []

@[simp] theorem returned_append (H E : List Event) : returned (H ++ E) = returned H ++ returned E := List.flatMap_append

/-- The modem has handled the frame `b` in the state `s`, and offered `r` to the port as a response. -/
def Answered (T : List (Move Link Input)) (b r : Bytes) (s : Fw) : Prop :=
  ∃ x ∈ T, ∃ hw down, x.input = .handle hw ∧ x.before.down = b :: down ∧ x.before.fw = s ∧
    Call.putQ r false ∈ x.after.fw.calls

/-- The modem has answered a HELLO of the session with an INFO that shows that boot identifier, and its radio ready or
not, as they were. -/
def Greeted (T : List (Move Link Input)) (session boot : Nat) (ready : Bool) : Prop :=
  ∃ b s millis, Answered T b (frame Msg.info (sessionOf b) (seqOf b) (infoPayload s.mac s.boot s.ready millis)) s ∧
    typeOf b = Msg.hello ∧ sessionOf b = session ∧ s.boot % 2 ^ 32 = boot ∧ s.ready = ready

/-- The counters of the modem when it has accepted a request, in the order in which it tells them. -/
def countersOf (s : Fw) : List Nat :=
  let c := s.c.accepted
  [c.usbFrames, c.usbAccepted, c.sendAccepted, c.txStarted, c.tx, c.rx, c.rxEventQueued, c.rxEventWritten, c.drops, s.qn]

/-- The values are zero, or the low 32 bits of the counters of the modem when it answered a request for them. -/
def Counted (T : List (Move Link Input)) (values : List Nat) : Prop :=
  values = List.replicate 10 0 ∨
    ∃ b s, Answered T b (frame Msg.diagnostics s.session (seqOf b) (diagnosticsPayload s.c.accepted s.qn)) s ∧
      typeOf b = Msg.getDiagnostics ∧ values = (countersOf s).map (· % 2 ^ 32)

variable {T : List (Move Link Input)}

theorem Answered.mono {b r : Bytes} {s : Fw} (h : Answered T b r s) (E : List (Move Link Input)) :
    Answered (T ++ E) b r s := by
  obtain ⟨x, hx, hrest⟩ := h
  exact ⟨x, List.mem_append_left _ hx, hrest⟩

theorem Greeted.mono {session boot : Nat} {ready : Bool} (h : Greeted T session boot ready) (E : List (Move Link Input)) :
    Greeted (T ++ E) session boot ready := by
  obtain ⟨b, s, millis, hanswered, hrest⟩ := h
  exact ⟨b, s, millis, hanswered.mono E, hrest⟩

theorem Counted.mono {values : List Nat} (h : Counted T values) (E : List (Move Link Input)) : Counted (T ++ E) values :=
  h.imp_right fun ⟨b, s, hanswered, hrest⟩ => ⟨b, s, hanswered.mono E, hrest⟩

/-! ## Frames -/

/-- What a decoded frame of the firmware shows. -/
theorem decoded_frame {type : UInt8} {ses seq : Nat} {p : Bytes} {f : Protocol.Frame}
    (h : Protocol.frameOfBody (frame type ses seq p) = some f) :
    f.msgType = type.toNat ∧ f.session = ses % 2 ^ 32 ∧ f.payload = p := by
  obtain ⟨-, htype, hsession, -, hpayload⟩ := Protocol.frameOfBody_fields h
  refine ⟨htype, hsession.trans (sessionOf_frame type ses seq p), ?_⟩
  have hcut : (frame type ses seq p).length - 2 = (frameHead type ses seq p).length := by
    rw [frame, List.length_append, w16, length_be16]
    omega
  rw [hpayload, hcut, frame, List.take_left]
  rfl

/-- What a frame says of the modem is true. -/
abbrev Honest (T : List (Move Link Input)) (f : Protocol.Frame) : Prop := Host.Modem.Credible (Greeted T) (Counted T) f

theorem Honest.mono {f : Protocol.Frame} (h : Honest T f) (E : List (Move Link Input)) : Honest (T ++ E) f :=
  ⟨fun ht info hinfo => (h.info ht info hinfo).mono E, fun ht values hvalues => (h.diagnostics ht values hvalues).mono E⟩

/-- And so it is if it is the frame of these bytes. -/
def Sincere (T : List (Move Link Input)) (b : Bytes) : Prop := ∀ f, Protocol.frameOfBody b = some f → Honest T f

theorem Sincere.mono {b : Bytes} (h : Sincere T b) (E : List (Move Link Input)) : Sincere (T ++ E) b :=
  fun f hf => (h f hf).mono E

/-- Bytes of a type that says nothing of the modem. -/
theorem sincere_other {b : Bytes} (hinfo : typeOf b ≠ Msg.info) (hdiagnostics : typeOf b ≠ Msg.diagnostics) :
    Sincere T b := by
  intro f hf
  obtain ⟨-, htype, -⟩ := Protocol.frameOfBody_fields hf
  refine ⟨fun ht => absurd (UInt8.toNat_inj.mp ?_) hinfo, fun ht => absurd (UInt8.toNat_inj.mp ?_) hdiagnostics⟩
  · exact htype.symm.trans ht
  · exact htype.symm.trans ht

theorem sincere_info {session boot : Nat} {ready : Bool} (h : Greeted T (session % 2 ^ 32) (boot % 2 ^ 32) ready)
    (seq mac millis : Nat) : Sincere T (frame Msg.info session seq (infoPayload mac boot ready millis)) := by
  intro f hf
  obtain ⟨htype, hsession, hpayload⟩ := decoded_frame hf
  refine ⟨fun _ info hinfo => ?_, fun ht => absurd (htype.symm.trans ht) (by decide)⟩
  rw [hpayload, Protocol.parseInfo, Option.ite_none_left_eq_some] at hinfo
  obtain ⟨-, hinfo⟩ := hinfo
  obtain rfl := Option.some.inj hinfo
  have hboot : u32 ((infoPayload mac boot ready millis).drop 6) = boot % 2 ^ 32 := by
    rw [infoPayload, List.append_assoc, List.append_assoc, List.append_assoc, List.append_assoc]
    exact u32_be32 _ _
  have hready : decide ((byteAt (infoPayload mac boot ready millis) 16).toNat ≠ 0) = ready := by
    cases ready <;> rfl
  rw [hsession]
  simp only [hboot, hready]
  exact h

/-- Numbers read back from their words. -/
theorem words_flatMap (l : List Nat) :
    (List.range l.length).map (fun i => u32 ((l.flatMap be32).drop (4 * i))) = l.map (· % 2 ^ 32) := by
  induction l with
  | nil => rfl
  | cons x l ih =>
    have hrest : ∀ i, ((x :: l).flatMap be32).drop (4 * (i + 1)) = (l.flatMap be32).drop (4 * i) := by
      intro i
      rw [List.flatMap_cons, Nat.mul_add, Nat.add_comm, ← List.drop_drop]
      rfl
    rw [List.length_cons, List.range_succ_eq_map, List.map_cons, List.map_map, List.map_cons, ← ih]
    refine congr (congrArg List.cons (u32_be32 x _)) ?_
    exact List.map_congr_left fun i _ => congrArg u32 (hrest i)

theorem sincere_diagnostics {b : Bytes} {s : Fw} (ht : typeOf b = Msg.getDiagnostics)
    (h : Answered T b (frame Msg.diagnostics s.session (seqOf b) (diagnosticsPayload s.c.accepted s.qn)) s) :
    Sincere T (frame Msg.diagnostics s.session (seqOf b) (diagnosticsPayload s.c.accepted s.qn)) := by
  intro f hf
  obtain ⟨htype, -, hpayload⟩ := decoded_frame hf
  refine ⟨fun ht => absurd (htype.symm.trans ht) (by decide), fun _ values hvalues => Or.inr ⟨b, s, h, ht, ?_⟩⟩
  rw [hpayload, Protocol.parseDiagnostics, Option.ite_none_left_eq_some] at hvalues
  obtain ⟨-, hvalues⟩ := hvalues
  obtain rfl := Option.some.inj hvalues
  have hwords : diagnosticsPayload s.c.accepted s.qn = (countersOf s).flatMap be32 := by
    simp [diagnosticsPayload, countersOf, w32]
  rw [hwords]
  exact words_flatMap (countersOf s)

/-- A response is sincere and no event. -/
def Response (T : List (Move Link Input)) (b : Bytes) : Prop := typeOf b ≠ Msg.rxEvent ∧ Sincere T b

/-- A frame of a type that says nothing of the modem. -/
theorem response_frame {type : UInt8} (h : type ≠ Msg.rxEvent ∧ type ≠ Msg.info ∧ type ≠ Msg.diagnostics) (ses seq : Nat)
    (p : Bytes) : Response T (frame type ses seq p) := ⟨h.1, sincere_other h.2.1 h.2.2⟩

/-- The calls of the step before do not matter to an answer. -/
theorem answer_enter {hw : Hw} {b : Bytes} {s : Fw} {r : Bytes} (h : Answer hw b { s with calls := [] } r) :
    Answer hw b s r := by
  cases h with
  | error ses seq code detail type => exact .error ses seq code detail type
  | again => exact .again
  | info ht => exact .info ht
  | status ht => exact .status ht
  | diagnostics ht => exact .diagnostics ht

/-- What the modem may say to a frame. -/
theorem response_of_answer {hw : Hw} {b : Bytes} {s : Fw} {r : Bytes} (h : Answer hw b s r)
    (hanswered : Answered T b r s) (hlast : Response T s.lastResp) : Response T r := by
  cases h with
  | error ses seq code detail type => exact response_frame (by decide) _ _ _
  | again => exact hlast
  | info ht =>
    refine ⟨fun h : Msg.info = Msg.rxEvent => absurd h (by decide), sincere_info ?_ _ _ _⟩
    rw [Nat.mod_eq_of_lt (sessionOf_lt b)]
    exact ⟨b, s, hw.millis, hanswered, ht, rfl, rfl, rfl⟩
  | status ht => exact response_frame (by decide) _ _ _
  | diagnostics ht =>
    exact ⟨fun h : Msg.diagnostics = Msg.rxEvent => absurd h (by decide), sincere_diagnostics ht hanswered⟩

theorem response_of_result {s : Fw} {r : Bytes} (h : Result s r) : Response T r := by
  cases h with
  | error seq code detail type => exact response_frame (by decide) _ _ _
  | done seq p => exact response_frame (by decide) _ _ _

/-! ## Payloads on their way -/

/-- The payload that the bytes of a frame carry. -/
def payloadIn (b : Bytes) : List Bytes := (Protocol.frameOfBody b).toList.flatMap Host.carriedBy

theorem payloadIn_response {b : Bytes} (h : typeOf b ≠ Msg.rxEvent) : payloadIn b = [] := by
  rw [payloadIn]
  cases hf : Protocol.frameOfBody b with
  | none => rfl
  | some f =>
    obtain ⟨-, htype, -⟩ := Protocol.frameOfBody_fields hf
    show Host.carriedBy f ++ [] = []
    rw [List.append_nil, Host.carriedBy, if_neg]
    exact fun ht => h (UInt8.toNat_inj.mp (htype.symm.trans ht))

/-- The event for a packet that is heard carries the payload of the packet. -/
theorem payloadIn_event {hw : Hw} {s : Fw} (h : s.hears hw = true) :
    payloadIn (s.eventFrame hw) <+ ((Protocol.decodeRadio (readPacket hw)).map fun (_, _, p) => p).toList := by
  obtain ⟨boot, air, p, hpacket, hevent⟩ := Fw.hears_decodes h
  rw [hpacket, hevent]
  show _ <+ [p]
  rw [payloadIn]
  cases hf : Protocol.frameOfBody (frame Msg.rxEvent s.session 0 (rxPayload hw boot air p)) with
  | none => exact List.nil_sublist _
  | some f =>
    obtain ⟨-, -, hpayload⟩ := decoded_frame hf
    show Host.carriedBy f ++ [] <+ [p]
    rw [List.append_nil, Host.carriedBy]
    split
    · rw [hpayload]
      cases hparse : Protocol.parseRadioRx (rxPayload hw boot air p) with
      | none => exact List.nil_sublist _
      | some rx =>
        rw [Protocol.parseRadioRx, Option.ite_none_left_eq_some] at hparse
        obtain rfl := Option.some.inj hparse.2
        exact List.Sublist.refl [p]
    · exact List.nil_sublist _

/-- A new decoder makes at most the frame of the bytes. -/
theorem feed_wire_one (b : Bytes) : (Protocol.StreamDecoder.feed {} (wire b)).1 = {} ∧
    (Protocol.StreamDecoder.feed {} (wire b)).2 <+ (Protocol.frameOfBody b).toList := by
  have hwire : wire b = Protocol.cobsEncode b ++ [0] := congrArg (· ++ [0]) (enc_eq_cobsEncode b)
  obtain ⟨hsame, hframe⟩ := @Protocol.feed_whole {} rfl rfl b
  rw [hwire]
  refine ⟨hsame, ?_⟩
  obtain ⟨hnone, -⟩ := Protocol.feed_nonzero (Protocol.cobsEncode b) {} (by
    rw [Protocol.cobsEncode_eq_stuff]
    exact Cobs.stuff_ne_zero b)
  rw [Protocol.feed_append, hnone, List.nil_append] at hframe ⊢
  generalize (Protocol.StreamDecoder.feed {} (Protocol.cobsEncode b)).1 = d at hframe ⊢
  simp only [Protocol.StreamDecoder.feed, Protocol.StreamDecoder.feedByte, if_true, List.append_nil] at hframe ⊢
  split
  · rename_i hopen
    rw [if_pos hopen] at hframe
    cases hd : Protocol.decodeFrame d.buffer with
    | none => exact List.nil_sublist _
    | some f =>
      rw [hframe f (by rw [hd]; exact List.mem_singleton_self f)]
  · exact List.nil_sublist _

/-! ## The modem -/

/-- What the modem has ready for the port is sincere, and only events are events. -/
structure Speaks (T : List (Move Link Input)) (s : Fw) : Prop where
  ring : s.RingOk
  frames : ∀ f ∈ s.entries, Sincere T f.b ∧ (f.event = false → typeOf f.b ≠ Msg.rxEvent)
  last : Response T s.lastResp

/-- The payloads of the events in the queue. -/
def queued (s : Fw) : List Bytes := (s.entries.filter F.event).flatMap fun f => payloadIn f.b

theorem Speaks.mono {s : Fw} (h : Speaks T s) (E : List (Move Link Input)) : Speaks (T ++ E) s :=
  ⟨h.ring, fun f hf => ⟨(h.frames f hf).1.mono E, (h.frames f hf).2⟩, h.last.1, h.last.2.mono E⟩

/-- Responses are said. -/
theorem Speaks.said {P : Bytes → Prop} {s t : Fw} (h : Speaks T s) (hsaid : Fw.Said P s t)
    (hP : ∀ b, P b → Response T b) :
    Speaks T t ∧ queued t <+ queued s := by
  refine ⟨⟨hsaid.ring, fun f hf => ?_, ?_⟩, hsaid.events.flatMap _⟩
  · rcases hsaid.frames f hf with hold | ⟨hresponse, hnew⟩
    · exact h.frames f hold
    · exact ⟨(hP _ hnew).2, fun _ => (hP _ hnew).1⟩
  · rcases hsaid.last with hsame | hnone | hnew
    · exact hsame ▸ h.last
    · rw [hnone]
      exact ⟨by decide, sincere_other (by decide) (by decide)⟩
    · exact hP _ hnew

/-- An event is offered. -/
theorem Speaks.event {P : Bytes → Prop} {s t : Fw} (h : Speaks T s) (hsaid : Fw.Said P s t)
    (hP : ∀ b, P b → Response T b) {b : Bytes} (hb : Sincere T b) :
    Speaks T (t.putQ b true) ∧ queued (t.putQ b true) <+ queued s ++ payloadIn b := by
  obtain ⟨hring, hevents, hframes, hlast⟩ := hsaid.event b
  obtain ⟨hspeaks, -⟩ := h.said hsaid hP
  refine ⟨⟨hring, fun f hf => ?_, hlast ▸ hspeaks.last⟩, ?_⟩
  · rcases hframes f hf with rfl | hold | ⟨hresponse, hnew⟩
    · exact ⟨hb, fun he => by cases he⟩
    · exact h.frames f hold
    · exact ⟨(hP _ hnew).2, fun _ => (hP _ hnew).1⟩
  · have hmap := hevents.flatMap fun f : F => payloadIn f.b
    rw [List.flatMap_append, List.flatMap_singleton] at hmap
    exact hmap

/-- A step begins with no calls. -/
theorem Speaks.enter {s : Fw} (h : Speaks T s) : Speaks T { s with calls := [] } :=
  ⟨⟨h.ring.size, h.ring.count, h.ring.tail⟩, h.frames, h.last⟩

theorem speaks_setup (T : List (Move Link Input)) (d : Board) : Speaks T (setup d) ∧ queued (setup d) = [] := by
  obtain ⟨hring, hentries⟩ := setup_entries d
  refine ⟨⟨hring, ?_, ?_⟩, ?_⟩
  · rw [hentries]
    exact fun f hf => absurd hf List.not_mem_nil
  · obtain ⟨rs, ready, -, hcore⟩ := setup_core d
    generalize setup d = s at hcore ⊢
    have hlast : s.lastResp = [] := congrArg Core.lastResp hcore
    rw [hlast]
    exact ⟨by decide, sincere_other (by decide) (by decide)⟩
  · rw [queued, hentries]
    rfl

/-! ## Every move -/

/-- The payloads of the frames in the port, of those on their way to it, and of the events in the queue. -/
def coming (s : Link) : List Bytes :=
  (s.host.decoderAt.feed s.port).2.flatMap Host.carriedBy ++
    s.up.flatMap (fun e => (Protocol.StreamDecoder.feed {} e).2.flatMap Host.carriedBy) ++ queued s.fw

/-- What holds behind the moves `T`. -/
structure Told (T : List (Move Link Input)) (s : Link) : Prop where
  modem : Speaks T s.fw
  up : ∀ e ∈ s.up, ∃ b, e = wire b ∧ Sincere T b
  /-- No frame is cut at the end of the port. -/
  fresh : (s.host.decoderAt.feed s.port).1 = {}
  port : ∀ f ∈ (s.host.decoderAt.feed s.port).2, Honest T f
  sight : Host.Modem.Sight (Greeted T) (Counted T) s.host.received s.host
  order : returned (history T) ++ s.host.received ++ coming s <+ heard T

theorem Sight.mono {P : List Bytes} {m : Host.Modem} (h : Host.Modem.Sight (Greeted T) (Counted T) P m)
    (E : List (Move Link Input)) : Host.Modem.Sight (Greeted (T ++ E)) (Counted (T ++ E)) P m := by
  refine ⟨h.waiting, fun hup => ?_, h.shy, ?_⟩
  · obtain ⟨boot, hboot, hgreeted⟩ := h.greeted hup
    exact ⟨boot, hboot, hgreeted.mono E⟩
  · obtain ⟨values, hvalues, hmetrics⟩ := h.counters
    exact ⟨values, hvalues.mono E, hmetrics⟩

theorem history_concat (T : List (Move Link Input)) (x : Move Link Input) :
    history (T ++ [x]) = history T ++ x.after.log := by
  rw [history, outputs_append, outputs_cons, outputs_nil, List.append_nil, eventsOf]

theorem heard_concat (T : List (Move Link Input)) (x : Move Link Input) : heard (T ++ [x]) = heard T ++ heardBy x := by
  rw [heard, outputs_append, outputs_cons, outputs_nil, List.append_nil]

/-- A move that is no call returns nothing. -/
theorem returned_concat {x : Move Link Input} (h : returned x.after.log = []) :
    returned (history (T ++ [x])) = returned (history T) := by
  rw [history_concat, returned_append, h, List.append_nil]

variable {s : Link}

theorem Told.up_mono (h : Told T s) (E : List (Move Link Input)) : ∀ e ∈ s.up, ∃ b, e = wire b ∧ Sincere (T ++ E) b := by
  intro e he
  obtain ⟨b, hwire, hb⟩ := h.up e he
  exact ⟨b, hwire, hb.mono E⟩

/-- A move of the modem. -/
theorem Told.modemMoves (h : Told T s) {x : Move Link Input} {s' : Link} (hafter : x.after = s')
    (hhost : (s'.host, s'.port, s'.up) = (s.host, s.port, s.up)) (hreturned : returned s'.log = [])
    (hspeaks : Speaks (T ++ [x]) s'.fw) (hqueued : queued s'.fw <+ queued s.fw ++ heardBy x) : Told (T ++ [x]) s' := by
  simp only [Prod.mk.injEq] at hhost
  obtain ⟨hhost, hport, hup⟩ := hhost
  have hhistory : returned (history (T ++ [x])) = returned (history T) := returned_concat (hafter ▸ hreturned)
  refine ⟨hspeaks, ?_, ?_, ?_, ?_, ?_⟩
  · rw [hup]
    exact h.up_mono _
  · rw [hhost, hport]
    exact h.fresh
  · rw [hhost, hport]
    exact fun f hf => (h.port f hf).mono _
  · rw [hhost]
    exact Sight.mono h.sight _
  · rw [hhistory, coming, hhost, hport, hup, heard_concat]
    have horder := h.order.append (List.Sublist.refl (heardBy x))
    refine List.Sublist.trans ?_ horder
    simp only [coming, List.append_assoc] at horder ⊢
    exact (((hqueued.append_left _).append_left _).append_left _).append_left _

/-- A call of the transport. -/
theorem Told.call (h : Told T s) (i : Host.Modem.Input) (n : Nat) :
    Told (T ++ [⟨s, .call i n, call i n s⟩]) (call i n s) := by
  generalize hx : (⟨s, .call i n, Joint.call i n s⟩ : Move Link Input) = x
  have hafter : x.after = Joint.call i n s := by rw [← hx]
  have hnothing : heardBy x = [] := by rw [← hx]; rfl
  have hreads := readBy_reading i n s.port
  have hlog : (Joint.call i n s).log =
      [.called (reading (s.port.take n) i) (Joint.call i n s).host.session (Joint.call i n s).host.log] := rfl
  have hhost : (Joint.call i n s).host = Host.Modem.step (reading (s.port.take n) i) s.host := rfl
  have hport : (Joint.call i n s).port = if (Joint.call i n s).host.connected
      then s.port.drop (Host.Modem.readBy (reading (s.port.take n) i)).length else [] := rfl
  have hrest : (Joint.call i n s).up = s.up ∧ (Joint.call i n s).fw = s.fw := ⟨rfl, rfl⟩
  obtain ⟨hup, hfw⟩ := hrest
  generalize Joint.call i n s = s' at hafter hlog hhost hport hup hfw ⊢
  generalize reading (s.port.take n) i = i' at hreads hlog hhost hport
  generalize hread : Host.Modem.readBy i' = read at hreads hport
  generalize s.port.drop read.length = rest at hreads hport
  have hfresh := h.fresh
  have hhonest := h.port
  have horder := h.order
  unfold coming at horder
  rw [← hreads, Protocol.feed_append] at hfresh hhonest horder
  obtain ⟨hhanded, hsight⟩ := Host.Modem.step_sight i' h.sight (by
    rw [hread]
    exact fun f hf => hhonest f (List.mem_append_left _ hf))
  obtain ⟨_, -, hface, -⟩ := Host.Modem.step_reads i' s.host
  have hdecoder := hface.decoder
  rw [hread] at hhanded hsight hdecoder
  rw [← hhost] at hhanded hsight hdecoder
  -- what is left in the port, with the decoder that is left
  have hleft : (s'.host.decoderAt.feed s'.port).1 = {} ∧
      (s'.host.decoderAt.feed s'.port).2 <+ ((s.host.decoderAt.feed read).1.feed rest).2 := by
    rw [hport, Host.Modem.decoderAt]
    cases hopen : s'.host.connected with
    | false => exact ⟨rfl, List.nil_sublist _⟩
    | true =>
      rw [if_pos rfl, if_pos rfl, hdecoder hopen]
      exact ⟨hfresh, List.Sublist.refl _⟩
  have hreturned : returned (history (T ++ [x])) = returned (history T) ++ Host.handedBy s'.host.log := by
    rw [history_concat, returned_append, hafter, hlog]
    exact congrArg _ (List.append_nil _)
  refine ⟨?_, ?_, hleft.1, ?_, ?_, ?_⟩
  · rw [hfw]
    exact h.modem.mono _
  · rw [hup]
    exact h.up_mono _
  · exact fun f hf => (hhonest f (List.mem_append_right _ (hleft.2.subset hf))).mono _
  · exact { Sight.mono hsight [x] with waiting := List.Sublist.refl _ }
  · rw [hreturned, heard_concat, hnothing, List.append_nil, coming, hup, hfw]
    refine List.Sublist.trans ?_ horder
    have hnow := hhanded.append (((hleft.2.flatMap Host.carriedBy).append_right
      (s.up.flatMap fun e => (Protocol.StreamDecoder.feed {} e).2.flatMap Host.carriedBy)).append_right (queued s.fw))
    have hall := hnow.append_left (returned (history T))
    simp only [List.flatMap_append, List.append_assoc] at hall ⊢
    exact hall

/-- A frame arrives at the port. -/
theorem Told.arrive (h : Told T s) : Told (T ++ [⟨s, .arrive, arrive s⟩]) (arrive s) := by
  generalize hx : (⟨s, .arrive, Joint.arrive s⟩ : Move Link Input) = x
  have hafter : x.after = Joint.arrive s := by rw [← hx]
  have hnothing : heardBy x = [] := by rw [← hx]; rfl
  cases hup : s.up with
  | nil =>
    have hrun : Joint.arrive s = { s with log := [] } := by
      unfold Joint.arrive
      rw [hup]
    rw [hrun] at hafter ⊢
    exact h.modemMoves hafter rfl rfl (h.modem.mono _) (List.sublist_append_left _ _)
  | cons e up =>
    have hrun : Joint.arrive s = { s with port := s.port ++ e, up := up, log := [] } := by
      unfold Joint.arrive
      rw [hup]
    rw [hrun] at hafter ⊢
    obtain ⟨b, rfl, hb⟩ := h.up e (by rw [hup]; exact List.mem_cons_self)
    obtain ⟨hend, hframe⟩ := feed_wire_one b
    have hfeed : s.host.decoderAt.feed (s.port ++ wire b) =
        ({}, (s.host.decoderAt.feed s.port).2 ++ (Protocol.StreamDecoder.feed {} (wire b)).2) := by
      rw [Protocol.feed_append, h.fresh, hend]
    have hreturned : returned (history (T ++ [x])) = returned (history T) := returned_concat (by rw [hafter]; rfl)
    have horder := h.order
    refine ⟨h.modem.mono _, fun e' he' => ?_, ?_, ?_, Sight.mono h.sight _, ?_⟩
    · exact h.up_mono _ e' (by rw [hup]; exact List.mem_cons_of_mem _ he')
    · show (s.host.decoderAt.feed (s.port ++ wire b)).1 = {}
      rw [hfeed]
    · show ∀ f ∈ (s.host.decoderAt.feed (s.port ++ wire b)).2, _
      rw [hfeed]
      intro f hf
      rcases List.mem_append.mp hf with hf | hf
      · exact (h.port f hf).mono _
      · exact ((hb f (Option.mem_toList.mp (hframe.subset hf)))).mono _
    · rw [hreturned, heard_concat, hnothing, List.append_nil]
      unfold coming at horder ⊢
      rw [hup, List.flatMap_cons] at horder
      simp only [hfeed, List.flatMap_append, List.append_assoc] at horder ⊢
      exact horder

/-- What the modem writes whole is the first frame of the queue, which is gone. -/
theorem written_first {u : Fw} (h : u.RingOk) (hcalls : u.calls = []) (availableForWrite : Int) (n : Nat) :
    (written (u.flush availableForWrite n).calls = [] ∧ (u.flush availableForWrite n).entries = u.entries) ∨
      ∃ f, u.entries = f :: (u.flush availableForWrite n).entries ∧
        (written (u.flush availableForWrite n).calls = [] ∨
          written (u.flush availableForWrite n).calls = [wire f.b]) := by
  obtain ⟨-, hpop⟩ := Fw.flush_entries h availableForWrite n
  by_cases hempty : u.qn = 0
  · have hrun : u.flush availableForWrite n = u := if_pos hempty
    rw [hrun, hcalls]
    exact Or.inl ⟨rfl, rfl⟩
  · have hhead : u.entries.head? = some (u.slot 0) := by
      rw [List.head?_eq_getElem?]
      exact Fw.getElem?_entries h (Nat.pos_of_ne_zero hempty)
    obtain ⟨rest, hrest⟩ := List.head?_eq_some_iff.mp hhead
    by_cases hroom : availableForWrite < ((enc (u.slot 0).b).length : Int) + 1
    · have hrun : u.flush availableForWrite n = u := (if_neg hempty).trans (if_pos hroom)
      rw [hrun, hcalls]
      exact Or.inl ⟨rfl, rfl⟩
    · have hleft : (u.flush availableForWrite n).entries = rest := by
        rw [hpop, hrest, Spool.pop, Fw.fits, if_pos (decide_eq_true hroom)]
      have hwrite : (u.flush availableForWrite n).calls = [.serialWrite ((wire (u.slot 0).b).take n)] := by
        unfold Fw.flush
        rw [if_neg hempty]
        simp only [if_neg hroom, Fw.note, hcalls]
        rfl
      refine Or.inr ⟨u.slot 0, by rw [hleft, hrest], ?_⟩
      rw [hwrite]
      simp only [written, List.filterMap_cons, List.filterMap_nil]
      split
      · exact Or.inl rfl
      · rename_i hwhole
        simp only [Option.ite_none_right_eq_some, Option.some.injEq] at hwhole
        rw [← hwhole.2, take_wire hwhole.1]
        exact Or.inr rfl

/-- The modem writes to the port. -/
theorem Told.flush (h : Told T s) (availableForWrite : Int) (n : Nat) :
    Told (T ++ [⟨s, .flush availableForWrite n, flush availableForWrite n s⟩]) (flush availableForWrite n s) := by
  generalize hx : (⟨s, .flush availableForWrite n, Joint.flush availableForWrite n s⟩ : Move Link Input) = x
  have hafter : x.after = Joint.flush availableForWrite n s := by rw [← hx]
  have hnothing : heardBy x = [] := by rw [← hx]; rfl
  have hrun : Joint.flush availableForWrite n s = { s with
      fw := Fw.flush { s.fw with calls := [] } availableForWrite n
      up := s.up ++ written (Fw.flush { s.fw with calls := [] } availableForWrite n).calls
      log := [.task (Fw.flush { s.fw with calls := [] } availableForWrite n).calls] } := rfl
  have hring := (Fw.flush_entries h.modem.enter.ring availableForWrite n).1
  have hfirst := written_first h.modem.enter.ring rfl availableForWrite n
  have hlast : (Fw.flush { s.fw with calls := [] } availableForWrite n).lastResp = s.fw.lastResp := by
    unfold Fw.flush
    split
    · rfl
    · simp only
      split <;> rfl
  rw [hrun] at hafter ⊢
  have henter : ({ s.fw with calls := [] } : Fw).entries = s.fw.entries := rfl
  rw [henter] at hfirst
  generalize Fw.flush { s.fw with calls := [] } availableForWrite n = fw at hafter hfirst hring hlast ⊢
  have hframes : ∀ f ∈ fw.entries, f ∈ s.fw.entries := by
    rcases hfirst with ⟨-, hsame⟩ | ⟨f, hcons, -⟩
    · rw [hsame]
      exact fun f hf => hf
    · rw [hcons]
      exact fun g hg => List.mem_cons_of_mem _ hg
  have hspeaks : Speaks T fw := ⟨hring, fun f hf => h.modem.frames f (hframes f hf), hlast ▸ h.modem.last⟩
  have hreturned : returned (history (T ++ [x])) = returned (history T) := returned_concat (by rw [hafter]; rfl)
  -- what is written carries what has left the queue, or less
  have hcarried : (written fw.calls).flatMap (fun e => (Protocol.StreamDecoder.feed {} e).2.flatMap Host.carriedBy) ++
      queued fw <+ queued s.fw := by
    rcases hfirst with ⟨hnone, hsame⟩ | ⟨f, hcons, hnone | hone⟩
    · rw [hnone, queued, hsame]
      exact List.Sublist.refl _
    · rw [hnone, queued, queued, hcons]
      exact ((List.sublist_cons_self f fw.entries).filter _).flatMap _
    · rw [hone, queued, queued, hcons, List.flatMap_singleton]
      have hframe := (feed_wire_one f.b).2.flatMap Host.carriedBy
      cases hevent : f.event with
      | true =>
        rw [List.filter_cons_of_pos hevent, List.flatMap_cons]
        exact hframe.append_right _
      | false =>
        rw [List.filter_cons_of_neg (by simp [hevent])]
        have hempty : payloadIn f.b = [] :=
          payloadIn_response ((h.modem.frames f (by rw [hcons]; exact List.mem_cons_self)).2 hevent)
        have hnil : (Protocol.StreamDecoder.feed {} (wire f.b)).2.flatMap Host.carriedBy = [] := by
          rw [payloadIn] at hempty
          rw [hempty] at hframe
          exact List.sublist_nil.mp hframe
        rw [hnil]
        exact List.Sublist.refl _
  refine ⟨hspeaks.mono _, fun e he => ?_, h.fresh, fun f hf => (h.port f hf).mono _, Sight.mono h.sight _, ?_⟩
  · rcases List.mem_append.mp he with he | he
    · exact h.up_mono _ e he
    · rcases hfirst with ⟨hnone, -⟩ | ⟨f, hcons, hnone | hone⟩
      · exact absurd (hnone ▸ he) List.not_mem_nil
      · exact absurd (hnone ▸ he) List.not_mem_nil
      · rw [hone] at he
        rw [List.mem_singleton.mp he]
        exact ⟨f.b, rfl, (h.modem.frames f (by rw [hcons]; exact List.mem_cons_self)).1.mono _⟩
  · rw [hreturned, heard_concat, hnothing, List.append_nil]
    refine List.Sublist.trans ?_ h.order
    unfold coming
    simp only [List.flatMap_append, List.append_assoc]
    exact (((hcarried.append_left _).append_left _).append_left _).append_left _

/-- The modem handles a frame. -/
theorem Told.handle (h : Told T s) (hw : Hw) : Told (T ++ [⟨s, .handle hw, handle hw s⟩]) (handle hw s) := by
  generalize hx : (⟨s, .handle hw, Joint.handle hw s⟩ : Move Link Input) = x
  have hafter : x.after = Joint.handle hw s := by rw [← hx]
  have hnothing : heardBy x = [] := by rw [← hx]; rfl
  cases hdown : s.down with
  | nil =>
    have hrun : Joint.handle hw s = { s with log := [] } := by
      unfold Joint.handle
      rw [hdown]
    rw [hrun] at hafter ⊢
    exact h.modemMoves hafter rfl rfl (h.modem.mono _) (List.sublist_append_left _ _)
  | cons b down =>
    have hrun : Joint.handle hw s = { s with
        fw := Firmware.step (.handle hw b) s.fw, down := down
        log := [.handled b (Firmware.step (.handle hw b) s.fw).calls] } := by
      unfold Joint.handle
      rw [hdown]
    rw [hrun] at hafter ⊢
    have hanswered : ∀ r, Call.putQ r false ∈ (Firmware.step (.handle hw b) s.fw).calls → Answered (T ++ [x]) b r s.fw :=
      fun r hr => ⟨x, List.mem_append_right _ (List.mem_singleton_self x), hw, down, by rw [← hx],
        by rw [← hx]; exact hdown, by rw [← hx], by rw [hafter]; exact hr⟩
    have hsaid := (Fw.handle_tells hw b { s.fw with calls := [] }).said h.modem.enter.ring
    have hlast : Response (T ++ [x]) s.fw.lastResp := (h.modem.mono [x]).last
    obtain ⟨hspeaks, hqueued⟩ := (h.modem.mono [x]).enter.said hsaid fun r hr =>
      response_of_answer (answer_enter hr.1) (hanswered r hr.2) hlast
    exact h.modemMoves hafter rfl rfl hspeaks (hqueued.trans (List.sublist_append_left _ _))

/-- The modem does something else than to handle a frame or to write. -/
theorem Told.task (h : Told T s) {i : Input} {j : Firmware.Input} (hi : next i s = task j s)
    (hspeaks : ∀ T', (T' = T ++ [⟨s, i, next i s⟩]) → Speaks T' (Firmware.step j s.fw) ∧
      queued (Firmware.step j s.fw) <+ queued s.fw ++ heardBy ⟨s, i, next i s⟩) :
    Told (T ++ [⟨s, i, next i s⟩]) (next i s) := by
  obtain ⟨hmodem, hqueued⟩ := hspeaks _ rfl
  refine h.modemMoves rfl ?_ ?_ ?_ ?_
  · rw [hi]
    rfl
  · rw [hi]
    rfl
  · rw [hi] at hmodem ⊢
    exact hmodem
  · rw [hi] at hqueued ⊢
    exact hqueued

theorem Told.radioTask (h : Told T s) (hw : Hw) :
    Told (T ++ [⟨s, .radioTask hw, next (.radioTask hw) s⟩]) (next (.radioTask hw) s) := by
  refine h.task (j := .radioTask hw) rfl ?_
  rintro T' rfl
  generalize hx : (⟨s, .radioTask hw, next (.radioTask hw) s⟩ : Move Link Input) = x
  have hmodem := (h.modem.mono [x]).enter
  have hheard : heardBy x = if s.fw.hears hw
      then ((Protocol.decodeRadio (readPacket hw)).map fun (_, _, p) => p).toList else [] := by rw [← hx]; rfl
  rcases Fw.radioTask_tells hw { s.fw with calls := [] } with ⟨hears, u, htells, hrun⟩ | ⟨-, htells⟩
  · have hears' : s.fw.hears hw = true := hears
    have hevent : Sincere (T ++ [x]) (({ s.fw with calls := [] } : Fw).eventFrame hw) := by
      obtain ⟨boot, air, p, -, hframe⟩ := Fw.hears_decodes hears
      rw [hframe]
      refine sincere_other (fun ht => ?_) fun ht => ?_
      · exact absurd ((typeOf_frame _ _ _ _).symm.trans ht) (by decide)
      · exact absurd ((typeOf_frame _ _ _ _).symm.trans ht) (by decide)
    obtain ⟨hput, hoffered⟩ := hmodem.event (htells.said hmodem.ring) (fun r hr => response_of_result hr.1) hevent
    have hlistens := (Fw.Tells.start (P := fun _ => False)
      (s := u.putQ (({ s.fw with calls := [] } : Fw).eventFrame hw) true)).listen hw
    obtain ⟨hspeaks, hqueued⟩ := hput.said (hlistens.said hput.ring) fun _ hno => hno.1.elim
    show Speaks _ (Fw.radioTask hw { s.fw with calls := [] }) ∧ queued (Fw.radioTask hw { s.fw with calls := [] }) <+ _
    rw [hrun, hheard, if_pos hears']
    exact ⟨hspeaks, hqueued.trans (hoffered.trans ((payloadIn_event hears).append_left _))⟩
  · obtain ⟨hspeaks, hqueued⟩ := hmodem.said (htells.said hmodem.ring) fun r hr => response_of_result hr.1
    exact ⟨hspeaks, hqueued.trans (List.sublist_append_left _ _)⟩

theorem Told.txWatchdog (h : Told T s) (hw : Hw) :
    Told (T ++ [⟨s, .txWatchdog hw, next (.txWatchdog hw) s⟩]) (next (.txWatchdog hw) s) := by
  refine h.task (j := .txWatchdog hw) rfl ?_
  rintro T' rfl
  have hmodem := (h.modem.mono [⟨s, .txWatchdog hw, next (.txWatchdog hw) s⟩]).enter
  have htells := Fw.txWatchdog_tells hw { s.fw with calls := [] }
  obtain ⟨hspeaks, hqueued⟩ := hmodem.said (htells.said hmodem.ring) fun r hr => response_of_result hr.1
  exact ⟨hspeaks, hqueued.trans (List.sublist_append_left _ _)⟩

theorem Told.isr (h : Told T s) : Told (T ++ [⟨s, .isr, next .isr s⟩]) (next .isr s) := by
  refine h.task (j := .isr) rfl ?_
  rintro T' rfl
  have hmodem := (h.modem.mono [⟨s, .isr, next .isr s⟩]).enter
  exact ⟨⟨⟨hmodem.ring.size, hmodem.ring.count, hmodem.ring.tail⟩, hmodem.frames, hmodem.last⟩,
    List.sublist_append_left _ _⟩

/-- Frames are lost. -/
theorem Told.lose (h : Told T s) {x : Move Link Input} {up : List Bytes} (hup : up <+ s.up) {s' : Link}
    (hafter : x.after = s') (hhost : (s'.host, s'.port, s'.fw, s'.log) = (s.host, s.port, s.fw, [])) (hup' : s'.up = up) :
    Told (T ++ [x]) s' := by
  simp only [Prod.mk.injEq] at hhost
  obtain ⟨hhost, hport, hfw, hlog⟩ := hhost
  have hreturned : returned (history (T ++ [x])) = returned (history T) := returned_concat (by rw [hafter, hlog]; rfl)
  refine ⟨hfw ▸ h.modem.mono _, fun e he => ?_, ?_, ?_, ?_, ?_⟩
  · exact h.up_mono _ e (hup.subset (hup' ▸ he))
  · rw [hhost, hport]
    exact h.fresh
  · rw [hhost, hport]
    exact fun f hf => (h.port f hf).mono _
  · rw [hhost]
    exact Sight.mono h.sight _
  · rw [hreturned, heard_concat, coming, hhost, hport, hfw, hup']
    refine List.Sublist.trans ?_ (h.order.trans (List.sublist_append_left _ _))
    exact (((hup.flatMap _).append_left _).append_right _).append_left _

theorem Told.next (h : Told T s) (i : Input) : Told (T ++ [⟨s, i, next i s⟩]) (next i s) := by
  cases i with
  | call i n => exact h.call i n
  | arrive => exact h.arrive
  | handle hw => exact h.handle hw
  | isr => exact h.isr
  | radioTask hw => exact h.radioTask hw
  | txWatchdog hw => exact h.txWatchdog hw
  | flush availableForWrite n => exact h.flush availableForWrite n
  | reboot d =>
    have hrun : Joint.next (.reboot d) s = { s with fw := setup d, log := [.rebooted] } := rfl
    rw [hrun]
    obtain ⟨hspeaks, hqueued⟩ := speaks_setup (T ++ [⟨s, .reboot d, { s with fw := setup d, log := [.rebooted] }⟩]) d
    generalize setup d = fw at hspeaks hqueued ⊢
    exact h.modemMoves rfl rfl rfl hspeaks (hqueued ▸ List.nil_sublist _)
  | loseDown k => exact h.lose (List.Sublist.refl _) rfl rfl rfl
  | loseUp k => exact h.lose (List.eraseIdx_sublist _ k) rfl rfl rfl

theorem init_told (d : Board) (draw : Nat) (reconnectSeconds : ℚ) : Told [] (init d draw reconnectSeconds) := by
  obtain ⟨hspeaks, hqueued⟩ := speaks_setup [] d
  rw [init]
  generalize setup d = fw at hspeaks hqueued ⊢
  refine ⟨hspeaks, fun e he => absurd he List.not_mem_nil, rfl, fun f hf => absurd hf List.not_mem_nil, ?_, ?_⟩
  · exact ⟨List.Sublist.refl _, fun hup => absurd hup Bool.false_ne_true, fun _ => rfl, _, Or.inl rfl, rfl⟩
  · show queued fw <+ []
    rw [hqueued]

theorem run_told (d : Board) (draw : Nat) (reconnectSeconds : ℚ) (is : List Input) :
    Told (trace next (init d draw reconnectSeconds) is) (run next (init d draw reconnectSeconds) is) := by
  induction is using List.reverseRecOn with
  | nil => exact init_told d draw reconnectSeconds
  | append_singleton is i ih =>
    rw [trace_snoc, run_append]
    exact ih.next i

/-! ## The two results -/

/-- **No payload is made up**: the payloads that the transport returns are of those of the packets that the modem has
heard, each at most once and in order. -/
theorem returned_heard (d : Board) (draw : Nat) (reconnectSeconds : ℚ) (is : List Input) :
    returned (history (trace next (init d draw reconnectSeconds) is)) <+
      heard (trace next (init d draw reconnectSeconds) is) := by
  have horder := (run_told d draw reconnectSeconds is).order
  rw [List.append_assoc] at horder
  exact (List.sublist_append_left _ _).trans horder

/-- **The transport knows its modem**: the handshake of a session is the answer of the modem to a HELLO of that session,
with the boot identifier and the state of its radio at that moment; without a handshake the radio counts as not ready;
and the counters shown are those of the modem at one moment at which it was asked for them. -/
theorem transport_knows (d : Board) (draw : Nat) (reconnectSeconds : ℚ) (is : List Input) :
    let T := trace next (init d draw reconnectSeconds) is
    let m := (run next (init d draw reconnectSeconds) is).host
    (m.handshakeComplete = true → ∃ boot, m.bootId = some boot ∧ Greeted T m.session boot m.radioReady) ∧
      (m.handshakeComplete = false → m.radioReady = false) ∧
      ∃ values, Counted T values ∧ Host.Modem.diagnosticNames.map m.metrics = values.map Int.ofNat := by
  intro T m
  have hsight := (run_told d draw reconnectSeconds is).sight
  exact ⟨hsight.greeted, hsight.shy, hsight.counters⟩

end LoraLink.Joint
