import LoraLink.Host.Window
import LoraLink.Lib.Run

/-!
# The transport keeps the command window

`Tracks w₀ w m`: the transport `m` is in the window `w`, and what the current call has logged is a path from `w₀` to
`w`. Each method has a triple that says how it moves the window; `step_spec` puts them together for one call.
-/

namespace LoraLink.Host.Modem

open LoraLink.Protocol Prog

/-- The fields of the transport are those of the window. -/
structure View (w : Window) (m : Modem) : Prop where
  connected : m.connected = w.connected
  handshake : m.handshakeComplete = w.handshake
  ready : m.radioReady = w.ready
  session : m.session = w.session
  sequence : m.sequence = w.sequence
  pending : m.pending = w.pending.toList
  outcomes : m.txOutcomes = w.outcomes

/-- The transport is in the window `w`, which the events of the call have reached from `w₀`. -/
structure Tracks (w₀ w : Window) (m : Modem) : Prop extends View w m where
  path : Window.Path w₀ m.log w
  start : Window.Good w₀

theorem Tracks.good {w₀ w : Window} {m : Modem} (h : Tracks w₀ w m) : Window.Good w := h.path.good h.start

/-- The transport is in some window with the given books. -/
def InWindow (w₀ : Window) (A : Books) (m : Modem) : Prop := ∃ w, Tracks w₀ w m ∧ w.books = A

/-- A write that raises has lost the connection. -/
def Written {α : Type} (w₀ w : Window) : Except Exn α → Modem → Prop
  | .ok _, m => Tracks w₀ w m
  | .error e, m => e = .osError ∧ Tracks w₀ (w.on .lost) m

variable {w₀ w : Window}

/-! ## The small operations -/

theorem tracks_add (name : Metric) (amount : Nat) :
    Triple (Tracks w₀ w) (add name amount) (Returns fun _ => Tracks w₀ w) := fun _ h => { h with }

theorem tracks_set (name : Metric) (value : Nat) :
    Triple (Tracks w₀ w) (set name value) (Returns fun _ => Tracks w₀ w) := fun _ h => { h with }

theorem tracks_monotonic : Triple (Tracks w₀ w) monotonic (Returns fun _ => Tracks w₀ w) := fun _ h => { h with }

/-- An event that changes nothing else. -/
theorem tracks_note {e : Event} (he : w.Allowed e) (hsame : w.on e = w) :
    Triple (Tracks w₀ w) (note e) (Returns fun _ => Tracks w₀ w) := fun _ h =>
  { h with path := hsame ▸ h.path.snoc he }

/-! ## Losing the connection and writing -/

theorem abandon_spec : Triple (Tracks w₀ w) (forEach abandon w.pending.toList) (Returns fun _ m =>
    Tracks w₀ w { m with txOutcomes := w.outcomes } ∧ m.txOutcomes = (w.settle none).outcomes) := by
  intro m h
  cases hp : w.pending with
  | none =>
    have hout : m.txOutcomes = (w.settle none).outcomes := by simp [h.outcomes, Window.settle, hp]
    exact ⟨{ h with outcomes := rfl }, hout⟩
  | some p =>
    obtain ⟨q, typ, t⟩ := p
    by_cases ht : typ = Msg.radioSend
    · have hout : m.txOutcomes ++ [(q, none)] = (w.settle none).outcomes := by
        simp [h.outcomes, Window.settle, Window.pendingSend, hp, ht]
      subst ht
      exact ⟨{ h with outcomes := rfl }, hout⟩
    · have hout : m.txOutcomes = (w.settle none).outcomes := by
        simp [h.outcomes, Window.settle, Window.pendingSend, hp, ht]
      have hrun : forEach abandon [(q, typ, t)] m = (.ok (), m) := by
        simp only [forEach, abandon, if_neg ht]
        rfl
      rw [Option.toList_some, hrun]
      exact ⟨{ h with outcomes := rfl }, hout⟩

theorem disconnect_spec : Triple (Tracks w₀ w) disconnect (Returns fun _ => Tracks w₀ (w.on .lost)) := by
  refine Triple.get_bind fun m hm => ?_
  rw [hm.pending]
  refine abandon_spec.seq fun _ => ?_
  have hlost : ∀ m : Modem, Tracks w₀ w { m with txOutcomes := w.outcomes } ∧ m.txOutcomes = (w.settle none).outcomes →
      Tracks w₀ (w.on .lost) { m with
        connected := false, pending := [], received := [], timedOutRadio := [], handshakeComplete := false
        radioReady := false, log := m.log ++ [.lost] } := fun m ⟨h, hout⟩ =>
    ⟨⟨rfl, rfl, rfl, h.session, h.sequence, rfl, hout⟩, h.path.snoc trivial, h.start⟩
  refine (Triple.modify hlost).seq fun _ => ?_
  exact (tracks_set _ _).seq fun _ => (tracks_set _ _).seq fun _ => (tracks_set _ _).seq fun _ =>
    (tracks_set _ _).seq fun _ => tracks_monotonic.seq fun _ => Triple.modify fun m h => { h with }

/-- A write raises nothing but `OSError`. -/
def RaisesOs (P : Modem → Prop) : Except Exn Unit → Modem → Prop
  | .ok _, m => P m
  | .error e, m => e = .osError ∧ P m

theorem writeLoop_spec (ws : List WriteRes) : ∀ raw : Bytes,
    Triple (Tracks w₀ w) (writeLoop ws raw) (RaisesOs (Tracks w₀ w)) := by
  induction ws with
  | nil =>
    intro raw
    cases raw with
    | nil => exact fun m h => { h with }
    | cons b raw => exact fun m h => ⟨rfl, h⟩
  | cons r ws ih =>
    intro raw
    cases raw with
    | nil => exact fun m h => { h with }
    | cons b raw =>
      cases r with
      | raised n =>
        exact (tracks_note (e := .wrote ((b :: raw).take n)) trivial rfl).seq fun _ m h => ⟨rfl, h⟩
      | wrote n =>
        refine Triple.ite (fun _ m h => ⟨rfl, h⟩) fun _ => ?_
        exact (tracks_note (e := .wrote ((b :: raw).take n)) trivial rfl).seq fun _ =>
          (tracks_add _ _).seq fun _ => ih _

theorem write_spec (raw : Bytes) (hup : w.connected = true) :
    Triple (Tracks w₀ w) (write raw) (Written w₀ w) := by
  refine Triple.get_bind fun m hm => ?_
  rw [hm.connected, hup, if_pos rfl]
  refine Triple.get_bind fun m hm => ?_
  refine (writeLoop_spec m.io.writes raw).tryCatch (fun _ _ h => h) fun e => ?_
  refine Triple.assume fun he => ?_
  subst he
  exact (tracks_add _ _).seq fun _ => disconnect_spec.seq fun _ m h => ⟨rfl, h⟩

/-! ## Requests -/

theorem encodeFrame_eq {typ session sequence : Nat} {payload : Bytes} (ht : typ ≤ 255)
    (hs : 0 < session ∧ session ≤ maxSequence) (hq : sequence ≤ maxSequence) (hl : payload.length ≤ maxUsbPayload) :
    encodeFrame typ session sequence payload = some (cobsEncode (rawFrame typ session sequence payload) ++ [0]) := by
  rw [encodeFrame, if_neg, if_neg (Nat.not_lt.mpr hl)]
  simp only [maxSequence] at hs hq
  omega

/-- The end of a request: it waits for its response, or the connection is lost. -/
def Requested (w₀ w : Window) (typ : Nat) (payload : Bytes) : Except Exn Nat → Modem → Prop
  | .ok q, m => q = w.sequence + 1 ∧ ∃ t, Tracks w₀ ((w.asked typ payload).on (.accepted typ q t)) m
  | .error e, m => e = .osError ∧ Tracks w₀ ((w.asked typ payload).on .lost) m

section Request

variable {typ : Nat} {payload : Bytes}

theorem sequence_ne (hq : w.sequence < maxSequence) {m : Modem} (h : Tracks w₀ w m) : ¬ m.sequence = maxSequence := by
  rw [h.sequence]
  omega

/-- The sequence of the next request is drawn: only that differs from the window. -/
def Drawn (w₀ w : Window) (m : Modem) : Prop :=
  m.sequence = w.sequence + 1 ∧ Tracks w₀ w { m with sequence := w.sequence }

theorem next_spec (hq : w.sequence < maxSequence) :
    Triple (Tracks w₀ w) next (Returns fun q m => q = w.sequence + 1 ∧ Drawn w₀ w m) := fun m h => by
  have hseq : (if m.sequence = maxSequence then 1 else m.sequence + 1) = w.sequence + 1 := by
    rw [if_neg (sequence_ne hq h), h.sequence]
  exact ⟨hseq, hseq, { h with sequence := rfl }⟩

theorem drawn_add (name : Metric) : Triple (Drawn w₀ w) (add name) (Returns fun _ => Drawn w₀ w) := fun _ h =>
  ⟨h.1, { h.2 with }⟩

theorem request_spec (hmay : w.MayRequest typ) (hup : w.connected = true) (hnone : w.pending = none)
    (hq : w.sequence < maxSequence) (hl : payload.length ≤ maxUsbPayload) :
    Triple (Tracks w₀ w) (request typ payload) (Requested w₀ w typ payload) := by
  refine Triple.get_bind fun m hm => ?_
  rw [if_neg (sequence_ne hq hm)]
  refine (next_spec hq).seq fun q => Triple.assume fun hq' => ?_
  subst hq'
  refine (drawn_add _).seq fun _ => Triple.get_bind fun m hm => ?_
  have hsession : m.session = w.session := hm.2.session
  have hpending : m.pending = [] := by
    have := hm.2.pending
    rwa [hnone] at this
  have hnext : w.sequence + 1 ≤ maxSequence := hq
  have henc := encodeFrame_eq hmay.typ_le hm.2.good.session hnext hl
  rw [hsession, henc, hpending]
  have hnote : Triple (Drawn w₀ w) (note (.request typ w.session (w.sequence + 1) payload []))
      (Returns fun _ => Tracks w₀ (w.asked typ payload)) := fun m h =>
    { h.2 with
      sequence := h.1
      path := h.2.path.snoc ⟨rfl, hup, hnone, rfl, rfl, by omega, hmay⟩ }
  refine hnote.seq fun _ => ?_
  refine (write_spec (w := w.asked typ payload) _ hup).bind (fun _ => ?_) fun e m h => h
  refine tracks_monotonic.seq fun t => ?_
  have haccept : ∀ m : Modem, Tracks w₀ (w.asked typ payload) m →
      Tracks w₀ ((w.asked typ payload).on (.accepted typ (w.sequence + 1) t)) { m with
        pending := setKey m.pending (w.sequence + 1) (typ, t)
        log := m.log ++ [.accepted typ (w.sequence + 1) t] } := fun m h => by
    have htable : m.pending = [] := by
      have := h.pending
      rwa [show (w.asked typ payload).pending = none from hnone] at this
    exact { h with
      pending := show setKey m.pending _ _ = _ by rw [htable]; rfl
      path := h.path.snoc rfl }
  exact (Triple.modify haccept).seq fun _ => (tracks_add _ _).seq fun _ m h => ⟨rfl, t, h⟩

/-- A payload that is too long for a frame takes a sequence and raises. -/
theorem request_too_long (hup : w.handshake = true) (hnone : w.pending = none) (hq : w.sequence < maxSequence)
    (hl : maxUsbPayload < payload.length) : Triple (Tracks w₀ w) (request Msg.radioSend payload) fun r m =>
      r = .error .protocolError ∧ Tracks w₀ (w.on (.unencodable (w.sequence + 1) payload)) m := by
  refine Triple.get_bind fun m hm => ?_
  rw [if_neg (sequence_ne hq hm)]
  refine (next_spec hq).seq fun q => Triple.assume fun hq' => ?_
  subst hq'
  refine (drawn_add _).seq fun _ => Triple.get_bind fun m hm => ?_
  have henc : encodeFrame Msg.radioSend m.session (w.sequence + 1) payload = none := by
    rw [encodeFrame, if_pos hl, ite_self]
  rw [henc]
  have hnote : Triple (Drawn w₀ w) (note (.unencodable (w.sequence + 1) payload))
      (Returns fun _ => Tracks w₀ (w.on (.unencodable (w.sequence + 1) payload))) := fun m h =>
    { h.2 with sequence := h.1, path := h.2.path.snoc ⟨hnone, hup, hl, rfl, by omega⟩ }
  exact hnote.seq fun _ m h => ⟨rfl, h⟩

end Request

/-! ## A new session -/

/-- The table is cleared ahead of a new session: only that differs from the window. -/
def Cleared (w₀ w : Window) (m : Modem) : Prop := m.pending = [] ∧ Tracks w₀ w { m with pending := w.pending.toList }

/-- A session begins, with any value in range. -/
theorem beginFreshSession_spec (hup : w.connected = true) (hsend : w.pendingSend = none) :
    Triple (Cleared w₀ w) beginFreshSession (Returns fun _ m => ∃ s, Tracks w₀ (w.on (.session s)) m) := by
  refine Triple.get_bind fun m hm => ?_
  have hdraw : Triple (Cleared w₀ w) randrange (Returns fun s m => (0 < s ∧ s ≤ maxSequence) ∧ Cleared w₀ w m) :=
    fun m h => ⟨⟨by omega, by simp only [maxSequence]; omega⟩, h.1, { h.2 with }⟩
  refine hdraw.seq fun s => Triple.assume fun hs => ?_
  have hrange : 0 < (if s = m.session then if m.session = maxSequence then 1 else m.session + 1 else s) ∧
      (if s = m.session then if m.session = maxSequence then 1 else m.session + 1 else s) ≤ maxSequence := by
    have hgood := hm.2.good.session
    have hsession : m.session = w.session := hm.2.session
    rw [← hsession] at hgood
    split
    · split
      · decide
      · omega
    · exact hs
  generalize (if s = m.session then if m.session = maxSequence then 1 else m.session + 1 else s) = s' at hrange
  have hmod : ∀ m : Modem, Cleared w₀ w m → Tracks w₀ (w.on (.session s')) { m with
      session := s', sequence := 0, timedOutRadio := [], handshakeComplete := false, radioReady := false
      lastRadioRx := 0, log := m.log ++ [.session s'] } := fun m h =>
    { connected := h.2.connected, handshake := rfl, ready := rfl, session := rfl, sequence := rfl, pending := h.1
      outcomes := h.2.outcomes, path := h.2.path.snoc ⟨hrange.1, hrange.2, hup, hsend⟩, start := h.2.start }
  have hset : ∀ name value, Triple (Tracks w₀ (w.on (.session s'))) (set name value)
      (Returns fun _ m => ∃ s, Tracks w₀ (w.on (.session s)) m) := fun _ _ m h => ⟨s', { h with }⟩
  exact (Triple.modify hmod).seq fun _ => (tracks_set _ _).seq fun _ => (tracks_set _ _).seq fun _ => hset _ _

/-- A session is opened: its HELLO waits, or the connection is lost again. -/
theorem sendHello_spec (hup : w.connected = true) (s : Nat) :
    Triple (Tracks w₀ (w.on (.session s))) sendHello fun r m =>
      InWindow w₀ w.books m ∧ ∀ e, r = .error e → e = .osError := by
  have hreq := @request_spec w₀ (w.on (.session s)) Msg.hello []
    (Or.inl ⟨rfl, rfl, rfl⟩) hup rfl (Nat.zero_lt_succ _) (by decide)
  refine hreq.bind (fun q m h => ?_) fun e m h => ?_
  · obtain ⟨-, t, ht⟩ := h
    exact ⟨⟨_, ht, rfl⟩, fun e he => by cases he⟩
  · exact ⟨⟨_, h.2, rfl⟩, fun e' he => by cases he; exact h.1⟩

/-- A new session while no send is waiting: the transport ends in some window, and no send is accepted. -/
theorem restartHostSession_spec (hup : w.connected = true) (hsend : w.pendingSend = none) :
    Triple (Tracks w₀ w) restartHostSession (Returns fun _ => InWindow w₀ w.books) := by
  refine Triple.get_bind fun m hm => ?_
  rw [hm.pending]
  have hfail : Triple (Tracks w₀ w) (forEach failPending w.pending.toList) (Returns fun _ => Tracks w₀ w) := by
    refine Triple.forEach fun p hp => ?_
    obtain ⟨q, typ, t⟩ := p
    have hne : typ ≠ Msg.radioSend := fun ht => by
      rw [Option.mem_toList] at hp
      rw [Window.pendingSend, hp] at hsend
      simp [ht] at hsend
    rw [failPending, if_neg hne]
    exact fun m h => h
  refine hfail.seq fun _ => ?_
  have hclear : ∀ m : Modem, Tracks w₀ w m → Cleared w₀ w { m with pending := [], received := [] } := fun m h =>
    ⟨rfl, { h with pending := rfl }⟩
  refine (Triple.modify hclear).seq fun _ => (beginFreshSession_spec hup hsend).seq fun _ => ?_
  refine Triple.exists_pre fun s => ?_
  refine (tracks_set _ _).seq fun _ => (tracks_set _ _).seq fun _ => ?_
  refine (sendHello_spec hup s).tryCatch (fun _ _ h => h.1) fun e => ?_
  intro m h
  have he := h.2 e rfl
  subst he
  obtain ⟨w', hw', hA⟩ := h.1
  exact ⟨w', { hw' with }, hA⟩

theorem inWindow_add {A : Books} (name : Metric) (amount : Nat) :
    Triple (InWindow w₀ A) (add name amount) (Returns fun _ => InWindow w₀ A) :=
  fun _ ⟨w, h, hA⟩ => ⟨w, { h with }, hA⟩

theorem inWindow_set {A : Books} (name : Metric) (value : Nat) :
    Triple (InWindow w₀ A) (set name value) (Returns fun _ => InWindow w₀ A) :=
  fun _ ⟨w, h, hA⟩ => ⟨w, { h with }, hA⟩

theorem rotateBeforeSequenceWrap_spec (hup : w.connected = true) (hsend : w.pendingSend = none) :
    Triple (Tracks w₀ w) rotateBeforeSequenceWrap (Returns fun rotated m =>
      if rotated = true then InWindow w₀ w.books m else w.sequence < maxSequence ∧ Tracks w₀ w m) := by
  refine Triple.get_bind fun m hm => Triple.ite (fun hne m h => ?_) fun heq => ?_
  · have hlt : w.sequence < maxSequence := by
      have := hm.good.sequence
      rw [hm.sequence] at hne
      omega
    exact ⟨hlt, h⟩
  · exact (tracks_add _ _).seq fun _ => (restartHostSession_spec hup hsend).seq fun _ m h => h

/-! ## Opening the port -/

/-- Whatever it raises, the program leaves the transport in some window. -/
def Settles {α : Type} (w₀ : Window) (A : Books) : Except Exn α → Modem → Prop := fun _ m => InWindow w₀ A m

theorem disconnect_inWindow (A : Books) : Triple (InWindow w₀ A) disconnect (Returns fun _ => InWindow w₀ A) :=
  Triple.exists_pre fun _ m h => disconnect_spec.mono (fun _ _ h' => ⟨_, h', h.2⟩) m h.1

theorem openSerial_spec (A : Books) : Triple (InWindow w₀ A) openSerial (Returns fun _ => InWindow w₀ A) := by
  refine Triple.exists_pre fun w => ?_
  refine Triple.get_bind fun m hm => ?_
  refine Triple.ite (fun _ m h => ⟨w, h⟩) fun hdown => ?_
  have hdown' : w.connected = false := by rw [← hm.1.connected]; simpa using hdown
  have hnone : w.pending = none := by
    cases hp : w.pending with
    | none => rfl
    | some p => exact absurd (hm.1.good.pending p.1 p.2.1 p.2.2 hp).1 (by simp [hdown'])
  have hclock : Triple (fun m => Tracks w₀ w m ∧ w.books = A) monotonic
      (Returns fun _ m => Tracks w₀ w m ∧ w.books = A) := fun _ h => ⟨{ h.1 with }, h.2⟩
  refine hclock.seq fun now => Triple.ite (fun _ m h => ⟨w, h⟩) fun _ => ?_
  refine Triple.tryCatch (R := Settles w₀ A) ?_ (fun _ _ h => h) fun e =>
    (inWindow_add _ _).seq fun _ => disconnect_inWindow A
  -- the factory returns a port, or raises
  let Opened : Except Exn Unit → Modem → Prop
    | .ok _, m => Tracks w₀ (w.on .opened) m ∧ w.books = A
    | .error _, m => InWindow w₀ A m
  have hopen : Triple (fun m => Tracks w₀ w m ∧ w.books = A) (serialFactory m.io.opens) Opened :=
    Triple.ite (fun _ m h => ⟨{ h.1 with connected := rfl, path := h.1.path.snoc hdown' }, h.2⟩) fun _ m h => ⟨w, h⟩
  refine hopen.bind (fun _ => ?_) fun _ _ h => h
  have hclear : ∀ m : Modem, Tracks w₀ (w.on .opened) m ∧ w.books = A →
      Cleared w₀ (w.on .opened) { m with decoder := {}, pending := [] } := fun m h => ⟨rfl, { h.1 with pending := rfl }⟩
  by_cases hA : w.books = A
  · subst hA
    refine (Triple.modify hclear).seq fun _ => ?_
    refine (beginFreshSession_spec (w := w.on .opened) rfl (Window.pendingSend_none hnone)).seq fun _ =>
      Triple.exists_pre fun s => ?_
    refine (tracks_add _ _).seq fun _ => (tracks_set _ _).seq fun _ => (tracks_set _ _).seq fun _ => ?_
    refine (write_spec (w := (w.on .opened).on (.session s)) _ rfl).bind (fun _ => ?_) fun e m h => ⟨_, h.2, rfl⟩
    exact (sendHello_spec rfl s).weaken (fun _ h => h) fun _ _ h => h.1
  · exact fun m h => absurd h.2 hA

/-! ## Received frames -/

theorem lookup_pending {m : Modem} (h : View w m) (q : Nat) :
    m.pending.lookup q = match w.pending with
      | some (q', r) => if q = q' then some r else none
      | none => none := by
  rw [h.pending]
  cases w.pending with
  | none => rfl
  | some p =>
    obtain ⟨q', r⟩ := p
    by_cases hq : q = q'
    · subst hq
      simp
    · have hne : (q == q') = false := by simpa using hq
      simp [List.lookup_cons, hq, hne]

section Frames

variable {q : Nat} {payload : Bytes}

/-- A frame that answers no request leaves the window alone, whatever its type. -/
theorem handleInfoFrame_none (h : ∀ m, Tracks w₀ w m → m.pending.lookup q = none) :
    Triple (Tracks w₀ w) (handleInfoFrame q payload) (Returns fun _ => Tracks w₀ w) := by
  refine Triple.get_bind fun m hm => ?_
  rw [h m hm]
  exact tracks_add _ _

theorem handleTxResult_none (h : ∀ m, Tracks w₀ w m → m.pending.lookup q = none) :
    Triple (Tracks w₀ w) (handleTxResult q payload) (Returns fun _ => Tracks w₀ w) := by
  refine Triple.get_bind fun m hm => ?_
  rw [h m hm]
  refine Triple.ite (fun _ => ?_) fun _ => tracks_add _ _
  refine (Triple.modify (R := Tracks w₀ w) fun m h => { h with }).seq fun _ => ?_
  exact Triple.ite (fun _ => tracks_add _ _) fun _ => tracks_add _ _

theorem handleDiagnosticsFrame_none (h : ∀ m, Tracks w₀ w m → m.pending.lookup q = none) :
    Triple (Tracks w₀ w) (handleDiagnosticsFrame q payload) (Returns fun _ => Tracks w₀ w) := by
  refine Triple.get_bind fun m hm => ?_
  rw [h m hm]
  exact tracks_add _ _

theorem handleError_none (h : ∀ m, Tracks w₀ w m → m.pending.lookup q = none) :
    Triple (Tracks w₀ w) (handleError q payload) (Returns fun _ => Tracks w₀ w) := by
  refine Triple.get_bind fun m hm => ?_
  rw [h m hm]
  refine Triple.ite (fun _ => ?_) fun _ => tracks_add _ _
  cases parseError payload with
  | none => exact tracks_add _ _
  | some e =>
    refine (Triple.modify (R := Tracks w₀ w) fun m h => { h with }).seq fun _ => ?_
    exact Triple.ite (fun _ => tracks_add _ _) fun _ => tracks_add _ _

theorem handleRadioRx_spec : Triple (Tracks w₀ w) (handleRadioRx payload) (Returns fun _ => Tracks w₀ w) := by
  refine (tracks_add _ _).seq fun _ => tracks_monotonic.seq fun now => ?_
  refine (Triple.modify (R := Tracks w₀ w) fun m h => { h with }).seq fun _ => ?_
  cases parseRadioRx payload with
  | none => exact tracks_add _ _
  | some rx =>
    refine (Triple.modify (R := Tracks w₀ w) fun m h => { h with }).seq fun _ => ?_
    exact (tracks_add _ _).seq fun _ => tracks_add _ _

/-- A frame has been read whose event leads to the window `v`; the fields are still those of `w`. -/
structure Seen (w₀ w v : Window) (m : Modem) : Prop extends View w m where
  path : Window.Path w₀ m.log v
  start : Window.Good w₀

theorem Seen.tracks {m : Modem} (h : Seen w₀ w w m) : Tracks w₀ w m := { h with }

theorem seen_add {v : Window} (name : Metric) (amount : Nat) :
    Triple (Seen w₀ w v) (add name amount) (Returns fun _ => Seen w₀ w v) := fun _ h => { h with }

theorem seen_set {v : Window} (name : Metric) (value : Nat) :
    Triple (Seen w₀ w v) (set name value) (Returns fun _ => Seen w₀ w v) := fun _ h => { h with }

theorem popKey_single {α : Type} (q : Nat) (a : α) : popKey [(q, a)] q = [] := by simp [popKey]

variable {typ : Nat} {t : ℚ}

/-- The one request leaves the table: only that differs from the window. -/
theorem popPending_spec {v : Window} (hp : w.pending = some (q, typ, t)) :
    Triple (Seen w₀ w v) (popPending q) (Returns fun _ => Seen w₀ { w with pending := none } v) := fun m h =>
  { h with pending := show popKey m.pending q = [] by rw [h.pending, hp]; exact popKey_single q (typ, t) }

theorem outcome_spec {v : Window} (completed : Option Bool) : Triple (Seen w₀ w v) (outcome q completed)
    (Returns fun _ => Seen w₀ { w with outcomes := w.outcomes ++ [(q, completed)] } v) := fun m h =>
  { h with outcomes := show m.txOutcomes ++ _ = _ by rw [h.outcomes] }

theorem settle_send (hp : w.pending = some (q, Msg.radioSend, t)) (completed : Option Bool) :
    w.settle completed = { w with pending := none, outcomes := w.outcomes ++ [(q, completed)] } := by
  simp [Window.settle, Window.pendingSend, hp]

theorem settle_other (hp : w.pending = some (q, typ, t)) (ht : typ ≠ Msg.radioSend) (completed : Option Bool) :
    w.settle completed = { w with pending := none } := by
  simp [Window.settle, Window.pendingSend, hp, ht]

theorem pendingSend_other (hp : w.pending = some (q, typ, t)) (ht : typ ≠ Msg.radioSend) : w.pendingSend = none := by
  simp [Window.pendingSend, hp, ht]

theorem handleInfo_some {v : Window} {info : Info} (h : parseInfo payload = some info) :
    Triple (Seen w₀ w v) (handleInfo payload) (Returns fun ok m => ok = true ∧
      Seen w₀ { w with handshake := true, ready := decide (info.radioReady ≠ 0) } v m) := by
  rw [handleInfo, h]
  refine Triple.get_bind fun m _ => ?_
  refine (Triple.when (fun _ => seen_add _ _) fun _ _ h => h).seq fun _ => ?_
  refine (Triple.modify (R := Seen w₀ { w with handshake := true, ready := decide (info.radioReady ≠ 0) } v)
    fun m h => { h with handshake := rfl, ready := rfl }).seq fun _ => ?_
  exact (seen_set _ _).seq fun _ => (seen_set _ _).seq fun _ => (seen_set _ _).seq fun _ => (seen_set _ _).seq
    fun _ => Triple.ret

theorem handleInfo_none {v : Window} (h : parseInfo payload = none) :
    Triple (Seen w₀ w v) (handleInfo payload) (Returns fun ok m => ok = false ∧ Seen w₀ w v m) := by
  rw [handleInfo, h]
  exact (seen_add _ _).seq fun _ => Triple.ret

/-- A restart once the window is the one that the log has reached. -/
theorem restart_inWindow {A : Books} (hA : w.books = A) (hup : w.connected = true) (hsend : w.pendingSend = none) :
    Triple (Tracks w₀ w) restartHostSession (Returns fun _ => InWindow w₀ A) := hA ▸ restartHostSession_spec hup hsend

section Answers

variable {A : Books} {f : Frame}

theorem handleInfoFrame_spec (hgood : w.Good) (hp : w.pending = some (q, typ, t)) (hA : w.books = A)
    (hf : f.session = w.session ∧ f.sequence = q ∧ f.msgType = Msg.info) :
    Triple (Seen w₀ w (w.onFrame f)) (handleInfoFrame q f.payload) (Returns fun _ => InWindow w₀ A) := by
  obtain ⟨hs, hq, ht⟩ := hf
  have hno : ¬ (f.session ≠ w.session ∨ f.sequence ≠ q) := by simp [hs, hq]
  refine Triple.get_bind fun m hm => ?_
  rw [lookup_pending hm.toView, hp]
  simp only [if_true]
  by_cases htyp : typ = Msg.hello
  · rw [if_neg (not_not.mpr htyp)]
    have hsend : w.pendingSend = none := pendingSend_other hp (by rw [htyp]; decide)
    cases hinfo : parseInfo f.payload with
    | some info =>
      have hon : w.onFrame f = { w with handshake := true, ready := decide (info.radioReady ≠ 0), pending := none } := by
        simp only [Window.onFrame, hp, if_neg hno, if_pos ht, if_pos htyp, hinfo]
      rw [hon]
      refine (handleInfo_some hinfo).seq fun ok => Triple.assume fun hok => ?_
      rw [if_pos hok]
      have hp' : ({ w with handshake := true, ready := decide (info.radioReady ≠ 0) } : Window).pending =
          some (q, typ, t) := hp
      exact (popPending_spec hp').mono fun _ m h => ⟨_, h.tracks, hA⟩
    | none =>
      have hsame : w.onFrame f = w := by
        simp only [Window.onFrame, hp, if_neg hno, if_pos ht, if_pos htyp, hinfo]
      rw [hsame]
      refine (handleInfo_none hinfo).seq fun ok => Triple.assume fun hok => ?_
      rw [hok, if_neg (by decide)]
      refine (seen_add _ _).seq fun _ => (restart_inWindow hA (hgood.pending q typ t hp).1 hsend).pre fun m h => h.tracks
  · have hsame : w.onFrame f = w := by
      simp only [Window.onFrame, hp, if_neg hno, if_pos ht, if_neg htyp]
    rw [hsame, if_pos htyp]
    exact (seen_add _ _).mono fun _ m h => ⟨w, h.tracks, hA⟩

theorem handleTxResult_spec (hp : w.pending = some (q, typ, t)) (hA : w.books = A)
    (hf : f.session = w.session ∧ f.sequence = q ∧ f.msgType = Msg.radioTxResult) :
    Triple (Seen w₀ w (w.onFrame f)) (handleTxResult q f.payload) (Returns fun _ => InWindow w₀ A) := by
  obtain ⟨hs, hq, ht⟩ := hf
  have hno : ¬ (f.session ≠ w.session ∨ f.sequence ≠ q) := by simp [hs, hq]
  have hinfo : ¬ f.msgType = Msg.info := by rw [ht]; decide
  refine Triple.get_bind fun m hm => ?_
  rw [lookup_pending hm.toView, hp]
  simp only [if_true]
  by_cases htyp : typ = Msg.radioSend
  · subst htyp
    have hon : w.onFrame f = w.settle (some (parseTxResult f.payload).isSome) := by
      simp only [Window.onFrame, hp, if_neg hno, if_neg hinfo, if_pos ht, if_true]
    have hend : ∀ (completed : Bool) (name : Metric), w.onFrame f = w.settle (some completed) →
        Triple (Seen w₀ w (w.onFrame f)) (do popPending q; outcome q (some completed); add name : Op Unit)
          (Returns fun _ => InWindow w₀ A) := by
      intro completed name h
      rw [h, settle_send hp]
      exact (popPending_spec hp).seq fun _ => (outcome_spec _).seq fun _ =>
        (seen_add _ _).mono fun _ m h => ⟨_, h.tracks, hA⟩
    rw [if_neg (not_not.mpr rfl)]
    refine Triple.ite (fun hnone => hend false _ ?_) fun hsome => hend true _ ?_
    · rw [hon, Option.isNone_iff_eq_none.mp hnone]
      rfl
    · rw [hon, Option.isSome_iff_ne_none.mpr fun h => hsome (by rw [h]; rfl)]
  · have hsame : w.onFrame f = w := by
      simp only [Window.onFrame, hp, if_neg hno, if_neg hinfo, if_pos ht, if_neg htyp]
    rw [hsame, if_pos htyp]
    exact (seen_add _ _).mono fun _ m h => ⟨w, h.tracks, hA⟩

/-- The values of a diagnostics response are metrics. -/
theorem handleDiagnostics_spec : Triple (Tracks w₀ w) (handleDiagnostics payload) (Returns fun _ => Tracks w₀ w) := by
  rw [handleDiagnostics]
  cases parseDiagnostics payload with
  | none => exact tracks_add _ _
  | some values => exact Triple.forEach fun p _ => tracks_set _ _

theorem handleDiagnosticsFrame_spec (hp : w.pending = some (q, typ, t)) (hA : w.books = A)
    (hf : f.session = w.session ∧ f.sequence = q ∧ f.msgType = Msg.diagnostics) :
    Triple (Seen w₀ w (w.onFrame f)) (handleDiagnosticsFrame q f.payload) (Returns fun _ => InWindow w₀ A) := by
  obtain ⟨hs, hq, ht⟩ := hf
  have hno : ¬ (f.session ≠ w.session ∨ f.sequence ≠ q) := by simp [hs, hq]
  have hinfo : ¬ f.msgType = Msg.info := by rw [ht]; decide
  have hresult : ¬ f.msgType = Msg.radioTxResult := by rw [ht]; decide
  refine Triple.get_bind fun m hm => ?_
  rw [lookup_pending hm.toView, hp]
  simp only [if_true]
  by_cases htyp : typ = Msg.getDiagnostics
  · have hon : w.onFrame f = w.settle none := by
      simp only [Window.onFrame, hp, if_neg hno, if_neg hinfo, if_neg hresult, if_pos ht, if_pos htyp]
    rw [hon, settle_other hp (by rw [htyp]; decide), if_neg (not_not.mpr htyp)]
    refine (popPending_spec hp).seq fun _ => ?_
    have hset := @handleDiagnostics_spec w₀ { w with pending := none } f.payload
    exact (hset.pre fun m h => h.tracks).mono fun _ m h => ⟨_, h, hA⟩
  · have hsame : w.onFrame f = w := by
      simp only [Window.onFrame, hp, if_neg hno, if_neg hinfo, if_neg hresult, if_pos ht, if_neg htyp]
    rw [hsame, if_pos htyp]
    exact (seen_add _ _).mono fun _ m h => ⟨w, h.tracks, hA⟩

theorem handleError_spec (hgood : w.Good) (hp : w.pending = some (q, typ, t)) (hA : w.books = A)
    (hf : f.session = w.session ∧ f.sequence = q ∧ f.msgType = Msg.error) :
    Triple (Seen w₀ w (w.onFrame f)) (handleError q f.payload) (Returns fun _ => InWindow w₀ A) := by
  obtain ⟨hs, hq, ht⟩ := hf
  have hno : ¬ (f.session ≠ w.session ∨ f.sequence ≠ q) := by simp [hs, hq]
  have hinfo : ¬ f.msgType = Msg.info := by rw [ht]; decide
  have hresult : ¬ f.msgType = Msg.radioTxResult := by rw [ht]; decide
  have hdiag : ¬ f.msgType = Msg.diagnostics := by rw [ht]; decide
  have hsame_add : w.onFrame f = w → ∀ name, Triple (Seen w₀ w (w.onFrame f)) (add name)
      (Returns fun _ => InWindow w₀ A) := fun h name => by
    rw [h]
    exact (seen_add _ _).mono fun _ m h => ⟨w, h.tracks, hA⟩
  refine Triple.get_bind fun m hm => ?_
  rw [lookup_pending hm.toView, hp]
  simp only [if_true]
  cases he : parseError f.payload with
  | none =>
    refine hsame_add ?_ _
    simp only [Window.onFrame, hp, if_neg hno, if_neg hinfo, if_neg hresult, if_neg hdiag, if_pos ht, he]
  | some e =>
    obtain ⟨code, detail, failedType⟩ := e
    refine Triple.ite (fun hne => hsame_add ?_ _) fun heq => ?_
    · simp only [Window.onFrame, hp, if_neg hno, if_neg hinfo, if_neg hresult, if_neg hdiag, if_pos ht, he, if_neg hne]
    · rw [not_not] at heq
      have hon : w.onFrame f = w.settle (some false) := by
        simp only [Window.onFrame, hp, if_neg hno, if_neg hinfo, if_neg hresult, if_neg hdiag, if_pos ht, he, if_pos heq]
      rw [hon]
      refine (popPending_spec hp).seq fun _ => (seen_add _ _).seq fun _ => ?_
      have hout : Triple (Seen w₀ { w with pending := none } (w.settle (some false)))
          (Prog.when (typ = Msg.radioSend) (outcome q (some false)))
          (Returns fun _ => Tracks w₀ (w.settle (some false))) := by
        refine Triple.when (fun hsend => ?_) fun hsend m h => ?_
        · subst hsend
          rw [settle_send hp]
          exact (outcome_spec _).mono fun _ m h => h.tracks
        · rw [settle_other hp hsend] at h ⊢
          exact h.tracks
      have hup : (w.settle (some false)).connected = true := (hgood.pending q typ t hp).1
      have hrestart := @restart_inWindow w₀ (w.settle (some false)) A hA hup (Window.pendingSend_none rfl)
      refine hout.seq fun _ => Triple.ite (fun _ => ?_) fun _ => Triple.ite (fun _ => ?_) fun _ m h => ⟨_, h, hA⟩
      · exact (tracks_add _ _).seq fun _ => hrestart
      · exact (tracks_add _ _).seq fun _ => hrestart

/-- The body of the loop over the received frames. -/
theorem handleFrame_spec (f : Frame) : Triple (InWindow w₀ A) (handleFrame f) (Returns fun _ => InWindow w₀ A) := by
  refine Triple.exists_pre fun w => ?_
  by_cases hA : w.books = A
  swap
  · exact fun m h => absurd h.2 hA
  have hnote : Triple (fun m => Tracks w₀ w m ∧ w.books = A) (note (.frame f))
      (Returns fun _ m => w.Good ∧ Seen w₀ w (w.onFrame f) m) := fun m h =>
    ⟨h.1.good, { h.1 with path := h.1.path.snoc (show w.Allowed (.frame f) from trivial) }⟩
  refine hnote.seq fun _ => Triple.assume fun hgood => (seen_add _ _).seq fun _ => Triple.get_bind fun m hm => ?_
  -- a frame that answers no request
  have hquiet : ∀ {x : Op Unit}, w.onFrame f = w → Triple (Tracks w₀ w) x (Returns fun _ => Tracks w₀ w) →
      Triple (Seen w₀ w (w.onFrame f)) x (Returns fun _ => InWindow w₀ A) := fun hsame hx => by
    rw [hsame]
    exact (hx.pre fun m h => h.tracks).mono fun _ m h => ⟨w, h, hA⟩
  rw [hm.session]
  refine Triple.ite (fun hs => hquiet (Window.onFrame_session hs) (tracks_add _ _)) fun hs => ?_
  rw [not_not] at hs
  by_cases hp : ∃ typ t, w.pending = some (f.sequence, typ, t)
  · obtain ⟨typ, t, hp⟩ := hp
    refine Triple.ite (fun ht => handleInfoFrame_spec hgood hp hA ⟨hs, rfl, ht⟩) fun h1 => ?_
    refine Triple.ite (fun ht => handleTxResult_spec hp hA ⟨hs, rfl, ht⟩) fun h2 => ?_
    refine Triple.ite (fun ht => hquiet (Window.onFrame_type (by rw [ht]; decide)) handleRadioRx_spec) fun _ => ?_
    refine Triple.ite (fun ht => handleDiagnosticsFrame_spec hp hA ⟨hs, rfl, ht⟩) fun h3 => ?_
    refine Triple.ite (fun ht => handleError_spec hgood hp hA ⟨hs, rfl, ht⟩) fun h4 => ?_
    exact hquiet (Window.onFrame_type ⟨h1, h2, h3, h4⟩) fun m h => h
  · have hsame : w.onFrame f = w := Window.onFrame_unasked hp
    have hnone : ∀ m, Tracks w₀ w m → m.pending.lookup f.sequence = none := fun m h => by
      rw [lookup_pending h.toView]
      cases hw : w.pending with
      | none => rfl
      | some p =>
        have hne : f.sequence ≠ p.1 := fun heq => hp ⟨p.2.1, p.2.2, by rw [hw, heq]⟩
        exact if_neg hne
    refine Triple.ite (fun _ => hquiet hsame (handleInfoFrame_none hnone)) fun _ => ?_
    refine Triple.ite (fun _ => hquiet hsame (handleTxResult_none hnone)) fun _ => ?_
    refine Triple.ite (fun _ => hquiet hsame handleRadioRx_spec) fun _ => ?_
    refine Triple.ite (fun _ => hquiet hsame (handleDiagnosticsFrame_none hnone)) fun _ => ?_
    refine Triple.ite (fun _ => hquiet hsame (handleError_none hnone)) fun _ => ?_
    exact hquiet hsame fun m h => h

end Answers

end Frames

/-! ## Time and the next request -/

theorem rememberTimedOutRadio_spec {v : Window} (q : Nat) (now : ℚ) :
    Triple (Seen w₀ w v) (rememberTimedOutRadio q now) (Returns fun _ => Seen w₀ w v) := by
  refine (Triple.modify (R := Seen w₀ w v) fun m h => { h with }).seq fun _ => Triple.get_bind fun m _ => ?_
  exact (Triple.modify (R := Seen w₀ w v) fun m h => { h with }).seq fun _ => seen_add _ _

theorem expireTimedOutRadio_spec (now : ℚ) {A : Books} :
    Triple (InWindow w₀ A) (expireTimedOutRadio now) (Returns fun _ => InWindow w₀ A) := by
  have hloop : ∀ l, Triple (InWindow w₀ A) (expireLoop now l) (Returns fun _ => InWindow w₀ A) := by
    intro l
    induction l with
    | nil => exact fun m h => h
    | cons p l ih =>
      refine Triple.ite (fun _ m h => h) fun _ => ?_
      have hdrop : ∀ m : Modem, InWindow w₀ A m → InWindow w₀ A { m with timedOutRadio := l } :=
        fun m ⟨w, h, hA⟩ => ⟨w, { h with }, hA⟩
      exact (Triple.modify hdrop).seq fun _ => (inWindow_add _ _).seq fun _ => ih
  exact Triple.get_bind fun m _ => hloop _

/-- The deadline check. -/
theorem expirePending_spec (now : ℚ) {A : Books} (hA : w.books = A) (hgood : w.Good) :
    Triple (Seen w₀ w (w.on (.deadline now))) (expirePending now w.pending.toList)
      (Returns fun _ => InWindow w₀ A) := by
  cases hp : w.pending with
  | none =>
    have hsame : w.on (.deadline now) = w := by rw [Window.on, hp]
    rw [hsame]
    exact fun m h => ⟨w, h.tracks, hA⟩
  | some p =>
    obtain ⟨q, typ, t⟩ := p
    refine Triple.ite (fun hlate => ?_) fun hlate => ?_
    · have hon : w.on (.deadline now) = w.settle none := by simp only [Window.on, hp, if_pos hlate]
      rw [hon]
      refine Triple.ite (fun hsend => ?_) fun hsend => ?_
      · subst hsend
        rw [settle_send hp]
        refine (popPending_spec hp).seq fun _ => (rememberTimedOutRadio_spec _ _).seq fun _ => ?_
        refine (outcome_spec _).seq fun _ => (seen_add _ _).seq fun _ => (seen_add _ _).seq fun _ m h => ?_
        exact ⟨_, h.tracks, hA⟩
      · rw [settle_other hp hsend]
        refine (popPending_spec hp).seq fun _ => ?_
        have hup : w.connected = true := (hgood.pending q typ t hp).1
        refine Triple.ite (fun _ => ?_) fun _ => ?_
        · refine (seen_add _ _).seq fun _ => Triple.pre ?_ fun m h => h.tracks
          exact restart_inWindow (w := { w with pending := none }) hA hup (Window.pendingSend_none rfl)
        · exact (seen_add _ _).seq fun _ m h => ⟨_, h.tracks, hA⟩
    · have hsame : w.on (.deadline now) = w := by simp only [Window.on, hp, if_neg hlate]
      rw [hsame]
      exact fun m h => ⟨w, h.tracks, hA⟩

theorem pollDiagnostics_spec (idle : Bool) (now : ℚ) {A : Books} :
    Triple (InWindow w₀ A) (pollDiagnostics idle now) (Returns fun _ => InWindow w₀ A) := by
  refine Triple.exists_pre fun w => ?_
  by_cases hA : w.books = A
  swap
  · exact fun m h => absurd h.2 hA
  refine Triple.get_bind fun m hm => Triple.ite (fun hgo => ?_) fun _ m h => ⟨w, h⟩
  have hs : w.handshake = true := hm.1.handshake ▸ hgo.1
  have hup : w.connected = true := (hm.1.good.up hs).1
  have hnone : w.pending = none := by
    have := hm.1.pending
    rw [hgo.2.1] at this
    cases hw : w.pending with
    | none => rfl
    | some p => rw [hw] at this; simp at this
  refine ((rotateBeforeSequenceWrap_spec hup (Window.pendingSend_none hnone)).pre fun m h => h.1).seq fun rotated => ?_
  cases rotated with
  | true => exact fun m h => hA ▸ h
  | false =>
    refine Triple.assume fun hq => ?_
    refine (Triple.modify (R := Tracks w₀ w) fun m h => { h with }).seq fun _ => ?_
    have hreq := @request_spec w₀ w _ [] (Or.inr (Or.inr ⟨rfl, hs⟩)) hup hnone hq (by decide)
    refine Triple.tryCatch (R := fun r m => InWindow w₀ A m ∧ ∀ e, r = .error e → e = .osError) ?_ (fun _ _ h => h.1) ?_
    · refine hreq.bind (fun q m h => ?_) fun e m h => ?_
      · obtain ⟨-, t, ht⟩ := h
        exact ⟨⟨_, ht, hA⟩, fun e he => by cases he⟩
      · exact ⟨⟨_, h.2, hA⟩, fun e' he => by cases he; exact h.1⟩
    · intro e m h
      have he := h.2 e rfl
      subst he
      exact h.1

/-! ## The methods -/

theorem tickRead_spec (idle : Bool) (raw : Bytes) {A : Books} :
    Triple (InWindow w₀ A) (tickRead idle raw) (Returns fun _ => InWindow w₀ A) := by
  refine (Triple.when (fun _ => inWindow_add _ _) fun _ m h => h).seq fun _ => ?_
  refine Triple.get_bind fun m _ => ?_
  have hdecoder : ∀ d, ∀ m : Modem, InWindow w₀ A m → InWindow w₀ A { m with decoder := d } :=
    fun d m ⟨w, h, hA⟩ => ⟨w, { h with }, hA⟩
  refine (Triple.modify (hdecoder _)).seq fun _ => ?_
  refine (Triple.forEach fun f _ => handleFrame_spec f).seq fun _ => ?_
  have hclock : Triple (InWindow w₀ A) monotonic (Returns fun _ => InWindow w₀ A) :=
    fun m ⟨w, h, hA⟩ => ⟨w, { h with }, hA⟩
  refine hclock.seq fun now => (expireTimedOutRadio_spec now).seq fun _ => ?_
  have hdeadline : Triple (InWindow w₀ A) (note (.deadline now))
      (Returns fun _ m => ∃ w, (w.books = A ∧ w.Good) ∧ Seen w₀ w (w.on (.deadline now)) m) := fun m ⟨w, h, hA⟩ =>
    ⟨w, ⟨hA, h.good⟩, { h with path := h.path.snoc (show w.Allowed (.deadline now) from trivial) }⟩
  refine hdeadline.seq fun _ => Triple.exists_pre fun w => Triple.assume fun ⟨hA, hgood⟩ => ?_
  refine Triple.get_bind fun m hm => ?_
  rw [hm.pending]
  refine (expirePending_spec now hA hgood).seq fun _ => (pollDiagnostics_spec idle now).seq fun _ => ?_
  refine Triple.get_bind fun m _ => ?_
  refine (inWindow_set _ _).seq fun _ => (inWindow_set _ _).seq fun _ => (inWindow_set _ _).seq fun _ => ?_
  refine Triple.get_bind fun m _ => ?_
  have htake : ∀ m : Modem, InWindow w₀ A m → InWindow w₀ A { m with received := [] } :=
    fun m ⟨w, h, hA⟩ => ⟨w, { h with }, hA⟩
  exact (Triple.modify htake).seq fun _ m h => h

theorem tick_spec (idle : Bool) {A : Books} :
    Triple (InWindow w₀ A) (tick idle) (Returns fun _ => InWindow w₀ A) := by
  refine (openSerial_spec A).seq fun _ => Triple.get_bind fun m _ => ?_
  refine Triple.ite (fun _ => ?_) fun _ => Triple.get_bind fun m _ => ?_
  · exact (inWindow_set _ _).seq fun _ m h => h
  · cases m.io.read with
    | none => exact (inWindow_add _ _).seq fun _ => (disconnect_inWindow A).seq fun _ m h => h
    | some raw => exact tickRead_spec idle raw

theorem close_spec {A : Books} :
    Triple (InWindow w₀ A) close (Returns fun _ => InWindow w₀ A) :=
  (disconnect_inWindow A).seq fun _ => inWindow_set _ _

/-- The end of `sendAir`: the send is accepted, or refused, or its payload is too long. -/
def SentAir (w₀ w : Window) (payload : Bytes) : Except Exn (Option Nat) → Modem → Prop
  | .ok (some q), m => q = w.sequence + 1 ∧
      ∃ t, Tracks w₀ ((w.asked Msg.radioSend payload).on (.accepted Msg.radioSend q t)) m
  | .ok none, m => InWindow w₀ w.books m
  | .error _, m => maxUsbPayload < payload.length ∧ InWindow w₀ { w.books with tooLong := w.tooLong + 1 } m

theorem sendAir_spec (payload : Bytes) : Triple (Tracks w₀ w) (sendAir payload) (SentAir w₀ w payload) := by
  refine Triple.get_bind fun m hm => Triple.ite (fun _ => ?_) fun hready => ?_
  · exact (tracks_add _ _).seq fun _ m h => ⟨w, h, rfl⟩
  have hready' : m.connected = true ∧ m.handshakeComplete = true ∧ m.radioReady = true ∧ m.pending = [] := by
    simpa [readyForSend, and_assoc] using hready
  obtain ⟨hup, hs, hr, hp⟩ := hready'
  rw [hm.connected] at hup
  rw [hm.handshake] at hs
  rw [hm.ready] at hr
  have hnone : w.pending = none := by
    rw [hm.pending] at hp
    cases hw : w.pending with
    | none => rfl
    | some p => rw [hw] at hp; simp at hp
  refine (rotateBeforeSequenceWrap_spec hup (Window.pendingSend_none hnone)).seq fun rotated => ?_
  cases rotated with
  | true => exact (inWindow_add _ _).seq fun _ m h => h
  | false =>
    refine Triple.assume fun hq => ?_
    refine (tracks_add _ _).seq fun _ => (tracks_add _ _).seq fun _ => ?_
    by_cases hl : payload.length ≤ maxUsbPayload
    · have hreq := @request_spec w₀ w _ payload (Or.inr (Or.inl ⟨rfl, hs, hr⟩)) hup hnone hq hl
      let Asked : Except Exn (Option Nat) → Modem → Prop
        | .ok q, m => ∃ q', q = some q' ∧ SentAir w₀ w payload (.ok (some q')) m
        | .error e, m => e = .osError ∧ InWindow w₀ w.books m
      refine Triple.tryCatch (R := Asked) ?_ (fun q m h => ?_) fun e => Triple.assume fun he => ?_
      · refine hreq.bind (fun q m h => ?_) fun e m h => ⟨h.1, _, h.2, rfl⟩
        exact ⟨q, rfl, h⟩
      · obtain ⟨q', rfl, h⟩ := h
        exact h
      · rw [if_pos he]
        exact (inWindow_add _ _).seq fun _ m h => h
    · have hlong := Nat.lt_of_not_le hl
      have hreq := @request_too_long w₀ w payload hs hnone hq hlong
      let Asked : Except Exn (Option Nat) → Modem → Prop := fun r m =>
        r = .error .protocolError ∧ InWindow w₀ { w.books with tooLong := w.tooLong + 1 } m
      refine Triple.tryCatch (R := Asked) ?_ (fun q m h => absurd h.1 (by simp)) fun e m h => ?_
      · refine hreq.bind (fun q m h => absurd h.1 (by simp)) fun e m h => ⟨?_, _, h.2, rfl⟩
        rw [Except.error.injEq] at *
        exact h.1
      · obtain ⟨he, h⟩ := h
        obtain rfl : e = .protocolError := by simpa using he
        exact ⟨hlong, h⟩

/-! ## One call -/

/-- The transport between two calls. -/
structure Steady (w : Window) (m : Modem) : Prop extends View w m where
  good : w.Good
  returned : w.returned = w.sends

theorem Steady.enter {m : Modem} (h : Steady w m) (io : Io) : Tracks w w (m.enter io) :=
  { h.toView with path := .nil, start := h.good }

theorem Steady.inWindow {m : Modem} (h : Steady w m) (io : Io) : InWindow w w.books (m.enter io) :=
  ⟨w, h.enter io, rfl⟩

theorem InWindow.leave {A : Books} {m : Modem} (h : InWindow w₀ A m) {e : Event}
    (he : ∀ w : Window, w.Allowed e) (hsame : ∀ w : Window, w.on e = w) : InWindow w₀ A (m.leave [e]) := by
  obtain ⟨w, hw, hA⟩ := h
  exact ⟨w, { hw with path := hsame w ▸ hw.path.snoc (he w) }, hA⟩

/-- Every send of the books is returned. -/
theorem InWindow.steady {A : Books} {m : Modem} (h : InWindow w₀ A m) (hA : A.returned = A.sends) :
    ∃ w, Window.Path w₀ m.log w ∧ Steady w m ∧ w.books = A := by
  obtain ⟨w, hw, rfl⟩ := h
  exact ⟨w, hw.path, { hw.toView with good := hw.good, returned := hA }, rfl⟩

theorem takeTxOutcomes_spec {m : Modem} (h : Tracks w₀ w m) :
    Tracks w₀ (w.on (.took w.outcomes)) ((takeTxOutcomes m).2.leave [.took w.outcomes]) ∧
      (takeTxOutcomes m).1 = .ok w.outcomes :=
  ⟨{ h with outcomes := rfl, path := h.path.snoc rfl }, congrArg Except.ok h.outcomes⟩

/-- A send that is accepted, and returned. -/
theorem Steady.sent {m : Modem} {payload : Bytes} {q : Nat} {t : ℚ} (hreturned : w.returned = w.sends)
    (h : Tracks w₀ ((w.asked Msg.radioSend payload).on (.accepted Msg.radioSend q t)) m) :
    Steady (((w.asked Msg.radioSend payload).on (.accepted Msg.radioSend q t)).on (.sent q)) m := by
  have hsent : ((w.asked Msg.radioSend payload).on (.accepted Msg.radioSend q t)).sends = w.returned ++ [q] := by
    rw [hreturned]
    rfl
  exact { h.toView with good := h.good.on hsent, returned := hsent.symm }

/-- The sequences that a call returns. -/
def returnedBy : Input → List Event → List Nat
  | .sendAir _ _, log =>
    match log.getLast? with
    | some (.sent sequence) => [sequence]
    | _ => []
  | _, _ => []

/-- Every call follows a path, from window to window; only a send that is returned is a new one, and only a payload
that is too long counts as such. -/
theorem step_spec (i : Input) {m : Modem} (h : Steady w m) :
    ∃ w', Window.Path w (step i m).log w' ∧ Steady w' (step i m) ∧
      w'.returned = w.returned ++ returnedBy i (step i m).log ∧
      (∀ q ∈ returnedBy i (step i m).log, w'.pendingSend = some q) ∧
      ((∀ io payload, i = .sendAir io payload → payload.length ≤ maxUsbPayload) → w'.tooLong = w.tooLong) := by
  have hsame : ∀ m : Modem, InWindow w w.books m → returnedBy i m.log = [] → ∃ w', Window.Path w m.log w' ∧
      Steady w' m ∧ w'.returned = w.returned ++ returnedBy i m.log ∧
      (∀ q ∈ returnedBy i m.log, w'.pendingSend = some q) ∧ w'.tooLong = w.tooLong := fun m hm hnone => by
    obtain ⟨v, hp, hv, hA⟩ := hm.steady h.returned
    rw [hnone, List.append_nil]
    exact ⟨v, hp, hv, congrArg Books.returned hA, fun q hq => absurd hq List.not_mem_nil, congrArg Books.tooLong hA⟩
  cases i with
  | sendAir io payload =>
    have hs := sendAir_spec payload (m.enter io) (h.enter io)
    rw [step]
    generalize sendAir payload (m.enter io) = res at hs
    obtain ⟨r, m'⟩ := res
    match r, hs with
    | .ok (some q), ⟨hq, t, hv⟩ =>
      have hsteady := Steady.sent h.returned hv
      have hsent : ((w.asked Msg.radioSend payload).on (.accepted Msg.radioSend q t)).Allowed (.sent q) :=
        hsteady.returned.symm
      have hreturned : returnedBy (.sendAir io payload) (m'.leave [.sent q]).log = [q] := by simp [returnedBy, leave]
      refine ⟨_, hv.path.snoc hsent, { hsteady with }, hreturned.symm ▸ rfl, fun q' hq' => ?_, fun _ => rfl⟩
      obtain rfl : q' = q := by
        rw [hreturned] at hq'
        exact List.mem_singleton.mp hq'
      rfl
    | .ok none, hs =>
      have hleave := InWindow.leave (e := .refused) hs (fun _ => trivial) fun _ => rfl
      obtain ⟨v, hp, hv, hr, hq, hk⟩ := hsame _ hleave (by simp [returnedBy, leave])
      exact ⟨v, hp, hv, hr, hq, fun _ => hk⟩
    | .error e, hs =>
      obtain ⟨hl, hs⟩ := hs
      have hleave := InWindow.leave (e := .raised e) hs (fun _ => trivial) fun _ => rfl
      obtain ⟨v, hp, hv, hA⟩ := hleave.steady h.returned
      have hnone : returnedBy (.sendAir io payload) (m'.leave [.raised e]).log = [] := by simp [returnedBy, leave]
      refine ⟨v, hp, hv, ?_, ?_, fun hi => absurd (hi io payload rfl) (Nat.not_le.mpr hl)⟩
      · show v.returned = w.returned ++ returnedBy _ (m'.leave [.raised e]).log
        rw [hnone, List.append_nil]
        exact congrArg Books.returned hA
      · show ∀ q ∈ returnedBy _ (m'.leave [.raised e]).log, _
        rw [hnone]
        exact fun q hq => absurd hq List.not_mem_nil
  | tick io idle =>
    have hs := tick_spec idle (m.enter io) (h.inWindow io)
    rw [step]
    generalize tick idle (m.enter io) = res at hs
    obtain ⟨r, m'⟩ := res
    cases r with
    | ok events =>
      have hleave := InWindow.leave (e := .received events) hs (fun _ => trivial) fun _ => rfl
      obtain ⟨v, hp, hv, hr, hq, hk⟩ := hsame _ hleave rfl
      exact ⟨v, hp, hv, hr, hq, fun _ => hk⟩
    | error e => exact absurd hs id
  | takeTxOutcomes =>
    obtain ⟨hs, hok⟩ := takeTxOutcomes_spec (h.enter m.io)
    have hstep : step .takeTxOutcomes m = (takeTxOutcomes (m.enter m.io)).2.leave [.took w.outcomes] := by
      rw [step]
      generalize takeTxOutcomes (m.enter m.io) = res at hok
      obtain ⟨r, m'⟩ := res
      simp only at hok
      rw [hok]
    rw [hstep]
    exact ⟨_, hs.path, { hs.toView with good := hs.good, returned := h.returned }, (List.append_nil _).symm,
      fun q hq => absurd hq List.not_mem_nil, fun _ => rfl⟩
  | close io =>
    have hs := close_spec (m.enter io) (h.inWindow io)
    rw [step]
    generalize close (m.enter io) = res at hs
    obtain ⟨r, m'⟩ := res
    cases r with
    | ok u =>
      obtain ⟨v, hp, hv, hr, hq, hk⟩ := hsame _ hs rfl
      exact ⟨v, hp, hv, hr, hq, fun _ => hk⟩
    | error e => exact absurd hs id

/-! ## Runs -/

/-- The events of a move. -/
def eventsOf (x : Move Modem Input) : List Event := x.after.log

/-- The events of a trace. -/
abbrev history (T : List (Move Modem Input)) : List Event := outputs eventsOf T

/-- The window of a new transport. -/
def window₀ (draw : Nat) : Window := { session := draw % (2 ^ 32 - 1) + 1 }

theorem init_steady (draw : Nat) (reconnectSeconds : ℚ) : Steady (window₀ draw) (init draw reconnectSeconds) := by
  refine { connected := rfl, handshake := rfl, ready := rfl, session := rfl, sequence := rfl, pending := rfl
           outcomes := rfl, good := ?_, returned := rfl }
  refine ⟨⟨Nat.succ_pos _, ?_⟩, Nat.zero_le _, by simp [window₀], by simp [window₀], by simp [window₀],
    by simp [window₀], rfl⟩
  simp only [window₀, maxSequence]
  omega

/-- The payload of a send fits in a frame. -/
def Input.Fits (i : Input) : Prop := ∀ io payload, i = .sendAir io payload → payload.length ≤ maxUsbPayload

/-- Every run follows a path. -/
theorem run_steady (is : List Input) : ∀ {w : Window} {m : Modem}, Steady w m →
    ∃ w', Window.Path w (history (trace step m is)) w' ∧ Steady w' (run step m is) ∧
      ((∀ i ∈ is, i.Fits) → w'.tooLong = w.tooLong) := by
  induction is with
  | nil => exact fun {w _} h => ⟨w, .nil, h, fun _ => rfl⟩
  | cons i is ih =>
    intro w m h
    obtain ⟨w₁, hpath₁, h₁, -, -, hlong₁⟩ := step_spec i h
    obtain ⟨w₂, hpath₂, h₂, hlong₂⟩ := ih h₁
    refine ⟨w₂, hpath₁.append hpath₂, h₂, fun hfits => ?_⟩
    rw [hlong₂ fun j hj => hfits j (List.mem_cons_of_mem _ hj), hlong₁ (hfits i List.mem_cons_self)]

end LoraLink.Host.Modem
