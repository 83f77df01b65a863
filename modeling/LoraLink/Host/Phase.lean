import LoraLink.Host.Refine
import Mathlib.Data.List.Induction

/-!
# The phases of a connection

Between two of its steps the transport is in one of three phases: it has no port; it has sent the HELLO of its session
and waits for the INFO; or it has had the INFO, and at most one request waits. `Phase H m` says which, for the history
`H` of all its events, and what is true of the sends that timed out. `Gauges` says that the metrics show the flags.

- `request_beside`: what a request changes, whatever the port answers;
- `restartHostSession_stands`, `openSerial_stands`: a new session begins a phase, and so does a port that is opened.
-/

namespace LoraLink.Host

open LoraLink.Protocol

/-! ## What a history says of the present session -/

/-- The events since the last session began. -/
def sinceSession (H : List Event) : List Event :=
  H.foldl (fun es e => match e with
    | .session _ => []
    | e => es ++ [e]) []

/-- The INFO that a frame carries in answer to the HELLO of the session, which has the sequence 1. -/
def infoOf (session : Nat) (f : Frame) : Option Info :=
  if f.session = session ∧ f.msgType = Msg.info ∧ f.sequence = 1 then parseInfo f.payload else none

/-- The INFOs that have answered the HELLO of the session. -/
def infos (session : Nat) (H : List Event) : List Info :=
  (sinceSession H).filterMap fun | .frame f => infoOf session f | _ => none

/-- The session has asked for a send with the given sequence. -/
def AskedSend (session : Nat) (H : List Event) (sequence : Nat) : Prop :=
  ∃ payload table, .request Msg.radioSend session sequence payload table ∈ sinceSession H

/-- The events that neither begin a session nor bring a frame. -/
def Plain : Event → Prop
  | .session _ | .frame _ => False
  | _ => True

theorem sinceSession_session (H : List Event) (s : Nat) : sinceSession (H ++ [.session s]) = [] := by
  rw [sinceSession, List.foldl_append]
  rfl

theorem sinceSession_snoc (H : List Event) {e : Event} (he : ∀ s, e ≠ .session s) :
    sinceSession (H ++ [e]) = sinceSession H ++ [e] := by
  rw [sinceSession, List.foldl_append]
  cases e with
  | session s => exact absurd rfl (he s)
  | _ => rfl

theorem Plain.not_session {e : Event} (he : Plain e) (s : Nat) : e ≠ .session s := fun h =>
  (h ▸ he : Plain (.session s))

theorem sinceSession_plain (H : List Event) (E : List Event) (hE : ∀ e ∈ E, Plain e) :
    sinceSession (H ++ E) = sinceSession H ++ E := by
  induction E using List.reverseRecOn with
  | nil => simp
  | append_singleton E e ih =>
    have he : Plain e := hE e (by simp)
    rw [← List.append_assoc, sinceSession_snoc _ he.not_session, ih fun e' he' => hE e' (List.mem_append_left _ he'),
      List.append_assoc]

theorem plain_append {E E' : List Event} (hE : ∀ e ∈ E, Plain e) (hE' : ∀ e ∈ E', Plain e) :
    ∀ e ∈ E ++ E', Plain e := fun e he => (List.mem_append.mp he).elim (hE e) (hE' e)

theorem plain_snoc {E : List Event} (hE : ∀ e ∈ E, Plain e) {e : Event} (he : Plain e) : ∀ e' ∈ E ++ [e], Plain e' :=
  plain_append hE fun e' h => by
    rw [List.mem_singleton.mp h]
    exact he

theorem AskedSend.plains {session q : Nat} {H : List Event} (h : AskedSend session H q) {E : List Event}
    (hE : ∀ e ∈ E, Plain e) : AskedSend session (H ++ E) q := by
  obtain ⟨payload, table, hmem⟩ := h
  refine ⟨payload, table, ?_⟩
  rw [sinceSession_plain H E hE]
  exact List.mem_append_left _ hmem

theorem infos_session (session : Nat) (H : List Event) (s : Nat) : infos session (H ++ [.session s]) = [] := by
  rw [infos, sinceSession_session, List.filterMap_nil]

theorem infos_plain (session : Nat) (H : List Event) {e : Event} (he : Plain e) :
    infos session (H ++ [e]) = infos session H := by
  rw [infos, sinceSession_snoc H he.not_session, List.filterMap_append]
  cases e with
  | frame f => exact he.elim
  | _ => exact List.append_nil _

theorem infos_frame (session : Nat) (H : List Event) (f : Frame) :
    infos session (H ++ [.frame f]) = infos session H ++ (infoOf session f).toList := by
  rw [infos, sinceSession_snoc H (by simp), List.filterMap_append]
  congr 1

theorem AskedSend.snoc {session q : Nat} {H : List Event} (h : AskedSend session H q) {e : Event}
    (he : ∀ s, e ≠ .session s) : AskedSend session (H ++ [e]) q := by
  obtain ⟨payload, table, hmem⟩ := h
  refine ⟨payload, table, ?_⟩
  rw [sinceSession_snoc H he]
  exact List.mem_append_left _ hmem

namespace Modem

open Prog

/-! ## Gauges and phases -/

/-- The metrics of the connection. -/
def IsGauge (name : Metric) : Bool :=
  name == .modemConnected || name == .modemHandshakeComplete || name == .modemRadioReady

/-- The metrics of the connection show its flags. -/
structure Gauges (m : Modem) : Prop where
  connected : m.metrics .modemConnected = if m.connected then 1 else 0
  handshake : m.metrics .modemHandshakeComplete = if m.handshakeComplete then 1 else 0
  radioReady : m.metrics .modemRadioReady = if m.radioReady then 1 else 0

/-- The request that waits in a session that is open, if any: it is the last one. -/
def Waits (m : Modem) : Prop := m.pending = [] ∨ ∃ typ t, m.pending = [(m.sequence, typ, t)] ∧
  (typ = Msg.radioSend ∨ typ = Msg.getDiagnostics)

/-- The sends that timed out: few, of this session, and none of them the request that waits. -/
structure Tombstones (H : List Event) (m : Modem) : Prop where
  few : m.timedOutRadio.length ≤ maxLateRadioResults
  old : ∀ p ∈ m.timedOutRadio, p.1 ≤ m.sequence
  apart : ∀ p ∈ m.timedOutRadio, ∀ r ∈ m.pending, p.1 < r.1
  asked : ∀ p ∈ m.timedOutRadio, AskedSend m.session H p.1

/-- The phases of the transport, for the history `H`. -/
inductive Phase (H : List Event) (m : Modem) : Prop
  | down (hconnected : m.connected = false) (hhandshake : m.handshakeComplete = false) (hready : m.radioReady = false)
      (hpending : m.pending = []) (hlate : m.timedOutRadio = [])
  | greeting (t : ℚ) (hconnected : m.connected = true) (hhandshake : m.handshakeComplete = false)
      (hready : m.radioReady = false) (hpending : m.pending = [(1, Msg.hello, t)]) (hlate : m.timedOutRadio = [])
      (hinfos : infos m.session H = [])
  | serving (info : Info) (rest : List Info) (hconnected : m.connected = true) (hhandshake : m.handshakeComplete = true)
      (hready : m.radioReady = decide (info.radioReady ≠ 0)) (hinfos : infos m.session H = info :: rest)
      (hwaits : Waits m) (hlate : Tombstones H m)
      (hasked : ∀ q t, (q, Msg.radioSend, t) ∈ m.pending → AskedSend m.session H q)

/-- The transport is in a phase for the history that ends in the log of its call, and its metrics show the flags. -/
def Stands (H : List Event) (m : Modem) : Prop := Phase (H ++ m.log) m ∧ Gauges m

/-- The fields that a phase speaks of are the same, but for the log. -/
structure Alike (m m' : Modem) : Prop where
  connected : m'.connected = m.connected
  handshake : m'.handshakeComplete = m.handshakeComplete
  ready : m'.radioReady = m.radioReady
  session : m'.session = m.session
  sequence : m'.sequence = m.sequence
  pending : m'.pending = m.pending
  late : m'.timedOutRadio = m.timedOutRadio

variable {H : List Event} {m m' : Modem}

theorem Tombstones.alike (h : Tombstones H m) (ha : Alike m m') : Tombstones H m' := by
  refine ⟨ha.late ▸ h.few, ?_, ?_, ?_⟩
  · rw [ha.late, ha.sequence]
    exact h.old
  · rw [ha.late, ha.pending]
    exact h.apart
  · rw [ha.late, ha.session]
    exact h.asked

theorem Phase.alike (h : Phase H m) (ha : Alike m m') : Phase H m' := by
  cases h with
  | down hconnected hhandshake hready hpending hlate =>
    exact .down (ha.connected.trans hconnected) (ha.handshake.trans hhandshake) (ha.ready.trans hready)
      (ha.pending.trans hpending) (ha.late.trans hlate)
  | greeting t hconnected hhandshake hready hpending hlate hinfos =>
    exact .greeting t (ha.connected.trans hconnected) (ha.handshake.trans hhandshake) (ha.ready.trans hready)
      (ha.pending.trans hpending) (ha.late.trans hlate) (ha.session ▸ hinfos)
  | serving info rest hconnected hhandshake hready hinfos hwaits hlate hasked =>
    refine .serving info rest (ha.connected.trans hconnected) (ha.handshake.trans hhandshake) (ha.ready.trans hready)
      (ha.session ▸ hinfos) ?_ (hlate.alike ha) ?_
    · rw [Waits, ha.pending, ha.sequence]
      exact hwaits
    · rw [ha.pending, ha.session]
      exact hasked

theorem Gauges.flags (h : Gauges m) (hconnected : m'.connected = m.connected)
    (hhandshake : m'.handshakeComplete = m.handshakeComplete) (hready : m'.radioReady = m.radioReady)
    (hmetrics : ∀ name, IsGauge name = true → m'.metrics name = m.metrics name) : Gauges m' := by
  refine ⟨?_, ?_, ?_⟩
  · rw [hmetrics _ rfl, hconnected]
    exact h.connected
  · rw [hmetrics _ rfl, hhandshake]
    exact h.handshake
  · rw [hmetrics _ rfl, hready]
    exact h.radioReady

/-- An event that begins no session, and brings no INFO to a HELLO that waits, keeps the phase. -/
theorem Phase.snoc (h : Phase H m) {e : Event} (he : ∀ s, e ≠ .session s)
    (hinfos : (∃ t, m.pending = [(1, Msg.hello, t)]) → infos m.session (H ++ [e]) = infos m.session H)
    (hmore : ∃ more, infos m.session (H ++ [e]) = infos m.session H ++ more) : Phase (H ++ [e]) m := by
  cases h with
  | down hconnected hhandshake hready hpending hlate => exact .down hconnected hhandshake hready hpending hlate
  | greeting t hconnected hhandshake hready hpending hlate hnone =>
    exact .greeting t hconnected hhandshake hready hpending hlate ((hinfos ⟨t, hpending⟩).trans hnone)
  | serving info rest hconnected hhandshake hready hsome hwaits hlate hasked =>
    obtain ⟨more, hmore⟩ := hmore
    rw [hsome] at hmore
    exact .serving info (rest ++ more) hconnected hhandshake hready hmore hwaits
      { hlate with asked := fun p hp => (hlate.asked p hp).snoc he } fun q t hq => (hasked q t hq).snoc he

/-- Plain events, the clock, the port and the other metrics may have changed. -/
structure Beside (m m' : Modem) : Prop extends Alike m m' where
  gauges : ∀ name, IsGauge name = true → m'.metrics name = m.metrics name
  log : ∃ E, m'.log = m.log ++ E ∧ ∀ e ∈ E, Plain e

theorem Beside.refl (m : Modem) : Beside m m :=
  ⟨⟨rfl, rfl, rfl, rfl, rfl, rfl, rfl⟩, fun _ _ => rfl, [], (List.append_nil _).symm,
    fun _ h => absurd h List.not_mem_nil⟩

theorem Phase.plain (h : Phase H m) (E : List Event) (hE : ∀ e ∈ E, Plain e) : Phase (H ++ E) m := by
  induction E using List.reverseRecOn with
  | nil => simpa using h
  | append_singleton E e ih =>
    have he : Plain e := hE e (by simp)
    rw [← List.append_assoc]
    refine (ih fun e' he' => hE e' (List.mem_append_left _ he')).snoc he.not_session (fun _ => infos_plain _ _ he) ?_
    exact ⟨[], by rw [infos_plain _ _ he, List.append_nil]⟩

theorem Stands.beside (h : Stands H m) (hn : Beside m m') : Stands H m' := by
  obtain ⟨E, hlog, hE⟩ := hn.log
  refine ⟨?_, h.2.flags hn.connected hn.handshake hn.ready hn.gauges⟩
  rw [hlog, ← List.append_assoc]
  exact (h.1.plain E hE).alike hn.toAlike

/-! ## The small operations -/

section Small

variable {m₀ : Modem}

theorem ne_of_isGauge {n name : Metric} (h : IsGauge name = false) (hn : IsGauge n = true) : n ≠ name := by
  rintro rfl
  rw [h] at hn
  cases hn

theorem beside_add {name : Metric} (h : IsGauge name = false) (amount : Nat) :
    Triple (Beside m₀) (add name amount) (Returns fun _ => Beside m₀) := fun _ hm =>
  { hm with gauges := fun n hn => (if_neg (ne_of_isGauge h hn)).trans (hm.gauges n hn) }

theorem beside_set {name : Metric} (h : IsGauge name = false) (value : Nat) :
    Triple (Beside m₀) (set name value) (Returns fun _ => Beside m₀) := fun _ hm =>
  { hm with gauges := fun n hn => (if_neg (ne_of_isGauge h hn)).trans (hm.gauges n hn) }

theorem beside_monotonic : Triple (Beside m₀) monotonic (Returns fun _ => Beside m₀) := fun _ hm => { hm with }

theorem beside_note {e : Event} (he : Plain e) : Triple (Beside m₀) (note e) (Returns fun _ => Beside m₀) :=
  fun m hm => by
  obtain ⟨E, hlog, hE⟩ := hm.log
  refine { hm with log := ⟨E ++ [e], ?_, plain_snoc hE he⟩ }
  show m.log ++ [e] = _
  rw [hlog, List.append_assoc]

end Small

/-! ## Losing the connection, and writing -/

/-- There is no port, and nothing waits. -/
structure Lost (m : Modem) : Prop where
  connected : m.connected = false
  handshake : m.handshakeComplete = false
  ready : m.radioReady = false
  pending : m.pending = []
  late : m.timedOutRadio = []
  gauges : Gauges m
  notReady : m.metrics .modemReadyForSend = 0

theorem Lost.stands (h : Lost m) : Stands H m := ⟨.down h.connected h.handshake h.ready h.pending h.late, h.gauges⟩

theorem disconnect_lost : Triple (fun _ => True) disconnect (Returns fun _ => Lost) := by
  refine Triple.get_bind fun m _ => Triple.seq (R := fun _ _ => True) (Triple.forEach fun p _ => ?_) fun _ => ?_
  · obtain ⟨sequence, typ, started⟩ := p
    exact Triple.ite (fun _ _ _ => trivial) fun _ _ _ => trivial
  · exact fun m _ => ⟨rfl, rfl, rfl, rfl, rfl, ⟨rfl, rfl, rfl⟩, rfl⟩

/-- A write that raises has lost the connection. -/
def WrittenBeside {α : Type} (P : α → Modem → Prop) : Except Exn α → Modem → Prop
  | .ok a, m => P a m
  | .error e, m => e = .osError ∧ Lost m

theorem writeLoop_beside {m₀ : Modem} (ws : List WriteRes) : ∀ raw : Bytes,
    Triple (Beside m₀) (writeLoop ws raw) (RaisesOs (Beside m₀)) := by
  induction ws with
  | nil =>
    intro raw
    cases raw with
    | nil => exact fun m h => { h with }
    | cons b raw => exact fun m h => ⟨rfl, h⟩
  | cons r ws ih =>
    intro raw
    cases raw with
    | nil => exact fun m h => { h with }
    | cons b raw =>
      cases r with
      | raised n => exact (beside_note (e := .wrote ((b :: raw).take n)) trivial).seq fun _ m h => ⟨rfl, h⟩
      | wrote n =>
        refine Triple.ite (fun _ m h => ⟨rfl, h⟩) fun _ => ?_
        exact (beside_note (e := .wrote ((b :: raw).take n)) trivial).seq fun _ => (beside_add rfl _).seq fun _ => ih _

theorem write_beside {m₀ : Modem} (raw : Bytes) (hup : m₀.connected = true) :
    Triple (Beside m₀) (write raw) (WrittenBeside fun _ => Beside m₀) := by
  refine Triple.get_bind fun m hm => ?_
  rw [hm.connected, hup, if_pos rfl]
  refine Triple.get_bind fun m hm => ?_
  refine (writeLoop_beside m.io.writes raw).tryCatch (fun _ _ h => h) fun e => Triple.assume fun he => ?_
  subst he
  exact (beside_add rfl _).seq fun _ => (disconnect_lost.pre fun _ _ => trivial).seq fun _ m h => ⟨rfl, h⟩

/-! ## Requests -/

theorem Beside.trans {m₀ m m' : Modem} (h : Beside m₀ m) (h' : Beside m m') : Beside m₀ m' := by
  obtain ⟨E, hlog, hE⟩ := h.log
  obtain ⟨E', hlog', hE'⟩ := h'.log
  refine ⟨⟨h'.connected.trans h.connected, h'.handshake.trans h.handshake, h'.ready.trans h.ready,
    h'.session.trans h.session, h'.sequence.trans h.sequence, h'.pending.trans h.pending, h'.late.trans h.late⟩,
    fun name hn => (h'.gauges name hn).trans (h.gauges name hn), E ++ E', ?_, plain_append hE hE'⟩
  rw [hlog', hlog, List.append_assoc]

/-- The next sequence is drawn for a request. -/
def drawn (m₀ : Modem) : Modem := { m₀ with sequence := m₀.sequence + 1 }

theorem next_beside {m₀ : Modem} (hq : m₀.sequence ≠ maxSequence) :
    Triple (Beside m₀) next (Returns fun q m => q = m₀.sequence + 1 ∧ Beside (drawn m₀) m) := fun m hm => by
  have hseq : (if m.sequence = maxSequence then 1 else m.sequence + 1) = m₀.sequence + 1 := by
    rw [hm.sequence, if_neg hq]
  exact ⟨hseq, { hm with sequence := hseq }⟩

/-- A request has been written: it waits, and the history has it. -/
structure Accepted (m₀ : Modem) (typ q : Nat) (m : Modem) : Prop where
  sequence : q = m₀.sequence + 1
  beside : ∃ t, Beside { m₀ with sequence := q, pending := setKey m₀.pending q (typ, t) } m
  asked : ∀ H, ∃ payload table, .request typ m₀.session q payload table ∈ sinceSession (H ++ m.log)

/-- The end of a request: it waits for its response, or the connection is lost, or it cannot be encoded. -/
def RequestEnds (m₀ : Modem) (typ : Nat) (payload : Bytes) : Except Exn Nat → Modem → Prop
  | .ok q, m => Accepted m₀ typ q m
  | .error e, m => e = .osError ∧ Lost m ∨ e = .runtimeError ∧ m₀.sequence = maxSequence ∧ Beside m₀ m ∨
    e = .protocolError ∧ encodeFrame typ m₀.session (m₀.sequence + 1) payload = none ∧ Beside (drawn m₀) m

theorem request_beside {m₀ : Modem} (typ : Nat) (payload : Bytes) (hup : m₀.connected = true) :
    Triple (Beside m₀) (request typ payload) (RequestEnds m₀ typ payload) := by
  refine Triple.get_bind fun m hm => ?_
  rw [hm.sequence]
  refine Triple.ite (fun hq m h => Or.inr (Or.inl ⟨rfl, hq, h⟩)) fun hq => ?_
  refine (next_beside hq).seq fun q => Triple.assume fun hq' => ?_
  subst hq'
  refine (beside_add rfl _).seq fun _ => Triple.get_bind_eq fun m hm => ?_
  rw [hm.session]
  cases henc : encodeFrame typ (drawn m₀).session (m₀.sequence + 1) payload with
  | none =>
    refine ((beside_note (e := .unencodable _ payload) trivial).pre ?_).seq fun _ m h => Or.inr (Or.inr ⟨rfl, henc, h⟩)
    rintro m rfl
    exact hm
  | some raw =>
    let e : Event := .request typ m₀.session (m₀.sequence + 1) payload m.pending
    have hnote : Triple (fun m' => m' = m) (note e) (Returns fun _ m' => m' = { m with log := m.log ++ [e] }) := by
      rintro m' rfl
      exact rfl
    have hbeside : Beside m { m with log := m.log ++ [e] } := beside_note (e := e) trivial m (Beside.refl m)
    refine hnote.seq fun _ => ?_
    have hwrite := @write_beside { m with log := m.log ++ [e] } raw (hm.connected.trans hup)
    refine (hwrite.pre ?_).bind (fun _ => ?_) fun e m' h => Or.inl h
    · rintro m' rfl
      exact Beside.refl _
    refine beside_monotonic.seq fun t => ?_
    have haccept : ∀ m', Beside { m with log := m.log ++ [e] } m' → Accepted m₀ typ (m₀.sequence + 1) { m' with
        pending := setKey m'.pending (m₀.sequence + 1) (typ, t)
        log := m'.log ++ [.accepted typ (m₀.sequence + 1) t] } := fun m' h => by
      have hall := hm.trans (hbeside.trans h)
      have hplain : Plain (.accepted typ (m₀.sequence + 1) t) := trivial
      obtain ⟨E, hlog, hE⟩ := hall.log
      obtain ⟨E', hlog', hE'⟩ := h.log
      refine ⟨rfl,
        ⟨t, { hall with pending := ?_, log := ⟨E ++ [.accepted typ (m₀.sequence + 1) t], ?_, plain_snoc hE hplain⟩ }⟩,
        fun H => ⟨payload, m.pending, ?_⟩⟩
      · rw [hall.pending]
        rfl
      · show m'.log ++ [_] = m₀.log ++ _
        rw [hlog, List.append_assoc]
        rfl
      · have hlist : H ++ (m'.log ++ [.accepted typ (m₀.sequence + 1) t]) =
            (H ++ m.log ++ [e]) ++ (E' ++ [.accepted typ (m₀.sequence + 1) t]) := by
          rw [hlog']
          simp only [List.append_assoc]
        show e ∈ sinceSession (H ++ (m'.log ++ [.accepted typ (m₀.sequence + 1) t]))
        rw [hlist, sinceSession_plain _ _ (plain_snoc hE' hplain), sinceSession_snoc _ (by simp [e])]
        simp
    exact (Triple.modify haccept).seq fun _ m' h => { h with beside := h.beside.imp fun t ht => beside_add rfl 1 m' ht }

/-! ## A new session -/

theorem infos_plains (session : Nat) (H : List Event) {E : List Event} (hE : ∀ e ∈ E, Plain e) :
    infos session (H ++ E) = infos session H := by
  induction E using List.reverseRecOn with
  | nil => rw [List.append_nil]
  | append_singleton E e ih =>
    rw [← List.append_assoc, infos_plain _ _ (hE e (by simp)), ih fun e' he' => hE e' (List.mem_append_left _ he')]

/-- A session has begun and nothing has been asked yet; whether the metrics show the port is left open. -/
structure Fresh (H : List Event) (m : Modem) : Prop where
  connected : m.connected = true
  handshake : m.handshakeComplete = false
  ready : m.radioReady = false
  pending : m.pending = []
  late : m.timedOutRadio = []
  sequence : m.sequence = 0
  session : 0 < m.session ∧ m.session ≤ maxSequence
  infos : infos m.session (H ++ m.log) = []
  noHandshake : m.metrics .modemHandshakeComplete = 0
  noRadio : m.metrics .modemRadioReady = 0

theorem Fresh.beside (h : Fresh H m) (hn : Beside m m') : Fresh H m' := by
  obtain ⟨E, hlog, hE⟩ := hn.log
  refine ⟨hn.connected.trans h.connected, hn.handshake.trans h.handshake, hn.ready.trans h.ready,
    hn.pending.trans h.pending, hn.late.trans h.late, hn.sequence.trans h.sequence, hn.session ▸ h.session, ?_,
    (hn.gauges _ rfl).trans h.noHandshake, (hn.gauges _ rfl).trans h.noRadio⟩
  rw [hn.session, hlog, ← List.append_assoc, infos_plains _ _ hE]
  exact h.infos

theorem beginFreshSession_fresh (c : Int) :
    Triple (fun m => (m.connected = true ∧ m.pending = []) ∧ m.metrics .modemConnected = c) beginFreshSession
      (Returns fun _ m => Fresh H m ∧ m.metrics .modemConnected = c) := by
  refine Triple.get_bind fun m₁ _ => ?_
  have hdraw : Triple (fun m => (m.connected = true ∧ m.pending = []) ∧ m.metrics .modemConnected = c) randrange
      (Returns fun s m => (0 < s ∧ s ≤ maxSequence) ∧ (m.connected = true ∧ m.pending = []) ∧
        m.metrics .modemConnected = c) := fun m h => ⟨⟨by omega, by simp only [maxSequence]; omega⟩, h⟩
  refine hdraw.seq fun s => Triple.assume fun hs => ?_
  have hrange : 0 < (if s = m₁.session then if m₁.session = maxSequence then 1 else m₁.session + 1 else s) ∧
      (if s = m₁.session then if m₁.session = maxSequence then 1 else m₁.session + 1 else s) ≤ maxSequence := by
    split
    · split
      · decide
      · omega
    · exact hs
  generalize (if s = m₁.session then if m₁.session = maxSequence then 1 else m₁.session + 1 else s) = s' at hrange
  intro m h
  refine ⟨⟨h.1.1, rfl, rfl, h.1.2, rfl, rfl, hrange, ?_, rfl, rfl⟩, h.2⟩
  show infos s' (H ++ (m.log ++ [.session s'])) = []
  rw [← List.append_assoc, infos_session]

/-- The HELLO of a fresh session has been accepted. -/
theorem Fresh.greeted {m₀ : Modem} (h : Fresh H m₀) (hc : m₀.metrics .modemConnected = 1) {q : Nat}
    (ha : Accepted m₀ Msg.hello q m) : Stands H m := by
  obtain ⟨hq, ⟨t, hbeside⟩, -⟩ := ha
  rw [h.sequence, Nat.zero_add] at hq
  subst hq
  refine Stands.beside (m := { m₀ with sequence := 1, pending := setKey m₀.pending 1 (Msg.hello, t) }) ?_ hbeside
  refine ⟨.greeting t h.connected h.handshake h.ready ?_ h.late h.infos, ?_, ?_, ?_⟩
  · show setKey m₀.pending 1 (Msg.hello, t) = _
    rw [h.pending]
    rfl
  · show m₀.metrics .modemConnected = if m₀.connected then 1 else 0
    rw [h.connected]
    exact hc
  · show m₀.metrics .modemHandshakeComplete = if m₀.handshakeComplete then 1 else 0
    rw [h.handshake]
    exact h.noHandshake
  · show m₀.metrics .modemRadioReady = if m₀.radioReady then 1 else 0
    rw [h.ready]
    exact h.noRadio

/-- The HELLO of the session waits, or the connection is lost. -/
theorem sendHello_stands : Triple (fun m => Fresh H m ∧ m.metrics .modemConnected = 1) sendHello
    (WrittenBeside fun _ => Stands H) := by
  intro m₀ ⟨h₀, hc⟩
  refine ((request_beside Msg.hello [] h₀.connected).bind (fun q m h => h₀.greeted hc h) fun e m h => ?_) m₀
    (Beside.refl m₀)
  rcases h with h | ⟨-, hmax, -⟩ | ⟨-, hnone, -⟩
  · exact h
  · rw [h₀.sequence] at hmax
    exact absurd hmax (by decide)
  · rw [encodeFrame_eq (by decide) h₀.session (by rw [h₀.sequence]; decide) (by decide)] at hnone
    cases hnone

/-- There is a port, and the metrics show it. -/
def Plugged (m : Modem) : Prop := m.connected = true ∧ m.metrics .modemConnected = 1

theorem Plugged.beside (h : Plugged m) (hn : Beside m m') : Plugged m' :=
  ⟨hn.connected.trans h.1, (hn.gauges _ rfl).trans h.2⟩

theorem plugged_add {name : Metric} (hname : IsGauge name = false) (amount : Nat) :
    Triple Plugged (add name amount) (Returns fun _ => Plugged) := fun m h =>
  h.beside (beside_add hname amount m (Beside.refl m))

theorem Gauges.plugged (h : Gauges m) (hup : m.connected = true) : Plugged m :=
  ⟨hup, h.connected.trans (if_pos hup)⟩

/-- A session is begun anew: its HELLO waits, or the connection is lost. -/
theorem restartHostSession_stands : Triple Plugged restartHostSession (Returns fun _ => Stands H) := by
  refine Triple.get_bind fun m₁ _ => ?_
  have hfail : Triple Plugged (forEach failPending m₁.pending) (Returns fun _ => Plugged) := by
    refine Triple.forEach fun p _ => ?_
    obtain ⟨q, typ, t⟩ := p
    exact Triple.ite (fun _ m h => h) fun _ m h => h
  refine hfail.seq fun _ => ?_
  refine Triple.seq (R := fun _ m => (m.connected = true ∧ m.pending = []) ∧ m.metrics .modemConnected = 1)
    (fun m h => ⟨⟨h.1, rfl⟩, h.2⟩) fun _ => (beginFreshSession_fresh (H := H) 1).seq fun _ => ?_
  have hset : ∀ name, name = .modemHandshakeComplete ∨ name = .modemReadyForSend →
      Triple (fun m => Fresh H m ∧ m.metrics .modemConnected = 1) (set name 0)
        (Returns fun _ m => Fresh H m ∧ m.metrics .modemConnected = 1) := by
    rintro name (rfl | rfl)
    · exact fun m h => ⟨{ h.1 with noHandshake := rfl }, h.2⟩
    · exact fun m h => ⟨{ h.1 with }, h.2⟩
  refine (hset _ (Or.inl rfl)).seq fun _ => (hset _ (Or.inr rfl)).seq fun _ => ?_
  refine sendHello_stands.tryCatch (fun _ _ h => h) fun e => Triple.assume fun he => ?_
  rw [if_pos he]
  intro m h
  exact h.stands.beside (beside_add rfl 1 m (Beside.refl m))

/-! ## Opening the port -/

/-- After opening a port: if nothing was raised, the property holds. -/
def Opened (P : Modem → Prop) : Except Exn Unit → Modem → Prop
  | .ok _, m => P m
  | .error _, _ => True

theorem openSerial_stands : Triple (Stands H) openSerial (Returns fun _ => Stands H) := by
  refine Triple.get_bind fun m₁ _ => Triple.ite (fun _ m h => h) fun _ => ?_
  have hclock : Triple (Stands H) monotonic (Returns fun _ => Stands H) := fun m h =>
    h.beside (beside_monotonic m (Beside.refl m))
  refine hclock.seq fun now => Triple.ite (fun _ m h => h) fun _ => ?_
  refine Triple.tryCatch (R := Opened (Stands H)) ?_ (fun _ _ h => h) fun e => ?_
  · have hopen : Triple (Stands H) (serialFactory m₁.io.opens) (Opened fun m => m.connected = true) :=
      Triple.ite (fun _ m _ => rfl) fun _ m _ => trivial
    refine hopen.bind (fun _ => ?_) fun _ _ _ => trivial
    refine Triple.seq (R := fun _ m => ∃ c, (m.connected = true ∧ m.pending = []) ∧ m.metrics .modemConnected = c)
      (fun m (h : m.connected = true) => ⟨_, ⟨h, rfl⟩, rfl⟩) fun _ => ?_
    refine Triple.exists_pre fun c => ?_
    refine (beginFreshSession_fresh (H := H) c).seq fun _ => ?_
    refine Triple.seq (R := fun _ m => Fresh H m) (fun m h => h.1.beside (beside_add rfl 1 m (Beside.refl m))) fun _ => ?_
    refine Triple.seq (R := fun _ m => Fresh H m ∧ m.metrics .modemConnected = 1)
      (fun m h => ⟨{ h with }, rfl⟩) fun _ => ?_
    refine Triple.seq (R := fun _ m => Fresh H m ∧ m.metrics .modemConnected = 1)
      (fun m h => ⟨{ h.1 with noHandshake := rfl }, h.2⟩) fun _ => ?_
    have hwrite : Triple (fun m => Fresh H m ∧ m.metrics .modemConnected = 1) (write [0])
        (WrittenBeside fun _ m => Fresh H m ∧ m.metrics .modemConnected = 1) := by
      intro m₀ h₀
      refine (write_beside [0] h₀.1.connected).weaken (fun _ h => h) (fun r m h => ?_) m₀ (Beside.refl m₀)
      cases r with
      | ok _ => exact ⟨h₀.1.beside h, (h.gauges _ rfl).trans h₀.2⟩
      | error _ => exact h
    refine hwrite.bind (fun _ => ?_) fun _ _ _ => trivial
    refine sendHello_stands.weaken (fun _ h => h) fun r m h => ?_
    cases r with
    | ok _ => exact h
    | error _ => trivial
  · exact Triple.seq (R := fun _ _ => True) (fun _ _ => trivial) fun _ => disconnect_lost.mono fun _ _ h => h.stands

end Modem

end LoraLink.Host
