import LoraLink.Host.Traffic

/-!
# What the transport makes of the frames

What the transport knows of its modem comes from the frames that it decodes, and from nothing else.

- `Sight`: the payloads that wait for the caller, what the last handshake said of the modem, and the counters last read;
- `handleFrame_sight`: a frame adds the payload that it carries, and changes the rest only if it says so itself;
- `step_sight`: over one call, the payloads returned and those that wait are those that waited and those that the frames
  carried, in order; some may be lost.
-/

namespace LoraLink.Host

open LoraLink.Protocol
open scoped List

/-- The payload that a frame carries for the caller. -/
def carriedBy (f : Frame) : List Bytes :=
  if f.msgType = Msg.radioRx then ((parseRadioRx f.payload).map RadioRx.payload).toList else []

/-- The payloads that a call has returned. -/
def handedBy (log : List Event) : List Bytes :=
  match log.getLast? with
  | some (.received payloads) => payloads
  | _ => []

theorem handedBy_concat (log : List Event) (e : Event) : handedBy (log ++ [e]) = handedBy [e] := by
  rw [handedBy, handedBy, List.getLast?_concat]
  rfl

namespace Modem

open Prog

/-- What the transport knows: payloads of `P` wait, the modem has greeted the session as in `B`, and its counters are
as in `D`. -/
structure Sight (B : Nat → Nat → Bool → Prop) (D : List Nat → Prop) (P : List Bytes) (m : Modem) : Prop where
  waiting : m.received <+ P
  greeted : m.handshakeComplete = true → ∃ boot, m.bootId = some boot ∧ B m.session boot m.radioReady
  shy : m.handshakeComplete = false → m.radioReady = false
  counters : ∃ values, D values ∧ diagnosticNames.map m.metrics = values.map Int.ofNat

variable {B : Nat → Nat → Bool → Prop} {D : List Nat → Prop} {P P' : List Bytes} {m m' : Modem}

theorem Sight.mono (h : Sight B D P m) (hP : P <+ P') : Sight B D P' m := { h with waiting := h.waiting.trans hP }

/-- The view is the same in a state that shows the same. -/
theorem Sight.same (h : Sight B D P m) (hreceived : m'.received = m.received)
    (hgreeted : (m'.handshakeComplete, m'.bootId, m'.session, m'.radioReady) =
      (m.handshakeComplete, m.bootId, m.session, m.radioReady))
    (hmetrics : ∀ n ∈ diagnosticNames, m'.metrics n = m.metrics n) : Sight B D P m' := by
  simp only [Prod.mk.injEq] at hgreeted
  obtain ⟨hhandshake, hboot, hsession, hready⟩ := hgreeted
  refine ⟨hreceived ▸ h.waiting, ?_, ?_, ?_⟩
  · rw [hhandshake, hboot, hsession, hready]
    exact h.greeted
  · rw [hhandshake, hready]
    exact h.shy
  · rw [List.map_congr_left hmetrics]
    exact h.counters

/-- Nothing is known of the modem, and nothing waits or all that did. -/
theorem Sight.unknown (h : Sight B D P m) (hreceived : m'.received = m.received ∨ m'.received = [])
    (hhandshake : m'.handshakeComplete = false) (hready : m'.radioReady = false) (hmetrics : m'.metrics = m.metrics) :
    Sight B D P m' := by
  refine ⟨?_, fun hgreeted => absurd (hhandshake.symm.trans hgreeted) (by decide), fun _ => hready, hmetrics ▸ h.counters⟩
  rcases hreceived with hsame | hnone
  · exact hsame ▸ h.waiting
  · rw [hnone]
    exact List.nil_sublist _

/-! ## The small operations -/

theorem sight_add {name : Metric} (hname : name ∉ diagnosticNames) (amount : Nat) :
    Triple (Sight B D P) (add name amount) fun _ => Sight B D P := fun m h =>
  h.same rfl rfl fun n hn => by
    show (if n = name then _ else _) = _
    rw [if_neg]
    rintro rfl
    exact hname hn

theorem sight_set {name : Metric} (hname : name ∉ diagnosticNames) (value : Nat) :
    Triple (Sight B D P) (set name value) fun _ => Sight B D P := fun m h =>
  h.same rfl rfl fun n hn => by
    show (if n = name then _ else _) = _
    rw [if_neg]
    rintro rfl
    exact hname hn

theorem sight_monotonic : Triple (Sight B D P) monotonic fun _ => Sight B D P := fun _ h => h.same rfl rfl fun _ _ => rfl

theorem sight_randrange : Triple (Sight B D P) randrange fun _ => Sight B D P := fun _ h => h.same rfl rfl fun _ _ => rfl

theorem sight_popPending (sequence : Nat) : Triple (Sight B D P) (popPending sequence) fun _ => Sight B D P :=
  fun _ h => h.same rfl rfl fun _ _ => rfl

theorem sight_outcome (sequence : Nat) (completed : Option Bool) :
    Triple (Sight B D P) (outcome sequence completed) fun _ => Sight B D P := fun _ h => h.same rfl rfl fun _ _ => rfl

theorem sight_note (e : Event) : Triple (Sight B D P) (note e) fun _ => Sight B D P :=
  fun _ h => h.same rfl rfl fun _ _ => rfl

theorem sight_pure {α : Type} (a : α) : Triple (Sight B D P) (pure a : Op α) fun _ => Sight B D P := fun _ h => h

theorem sight_raise {α : Type} (e : Exn) : Triple (Sight B D P) (raise e : Op α) fun _ => Sight B D P := fun _ h => h

/-! ## The connection and the session -/

theorem sight_disconnect : Triple (Sight B D P) disconnect fun _ => Sight B D P := by
  have habandon : ∀ p, Triple (Sight B D P) (abandon p) fun _ => Sight B D P := by
    intro p
    obtain ⟨sequence, typ, started⟩ := p
    refine Triple.ite (fun _ => ?_) fun _ => sight_pure ()
    exact Triple.keep_bind (sight_outcome _ _) fun _ => sight_add (by decide) _
  refine Triple.get_bind fun m _ => Triple.keep_bind (Triple.keep_forEach fun p _ => habandon p) fun _ => ?_
  refine Triple.keep_bind (fun m h => h.unknown (Or.inr rfl) rfl rfl rfl) fun _ => ?_
  refine Triple.keep_bind (sight_set (by decide) _) fun _ => Triple.keep_bind (sight_set (by decide) _) fun _ => ?_
  refine Triple.keep_bind (sight_set (by decide) _) fun _ => Triple.keep_bind (sight_set (by decide) _) fun _ => ?_
  exact Triple.keep_bind sight_monotonic fun now m h => h.same rfl rfl fun _ _ => rfl

theorem sight_beginFreshSession : Triple (Sight B D P) beginFreshSession fun _ => Sight B D P := by
  refine Triple.get_bind fun m _ => Triple.keep_bind sight_randrange fun drawn => ?_
  refine Triple.keep_bind (fun m h => h.unknown (Or.inl rfl) rfl rfl rfl) fun _ => ?_
  refine Triple.keep_bind (sight_set (by decide) _) fun _ => Triple.keep_bind (sight_set (by decide) _) fun _ => ?_
  exact sight_set (by decide) _

theorem sight_write (raw : Bytes) : Triple (Sight B D P) (write raw) fun _ => Sight B D P := by
  have hloop : ∀ (ws : List WriteRes) (raw : Bytes), Triple (Sight B D P) (writeLoop ws raw) fun _ => Sight B D P := by
    intro ws
    induction ws with
    | nil =>
      intro raw
      cases raw with
      | nil => exact fun m h => h.same rfl rfl fun _ _ => rfl
      | cons b raw => exact sight_raise _
    | cons w ws ih =>
      intro raw
      cases raw with
      | nil => exact fun m h => h.same rfl rfl fun _ _ => rfl
      | cons b raw =>
        cases w with
        | raised k => exact Triple.keep_bind (sight_note _) fun _ => sight_raise _
        | wrote k =>
          refine Triple.ite (fun _ => sight_raise _) fun _ => Triple.keep_bind (sight_note _) fun _ => ?_
          exact Triple.keep_bind (sight_add (by decide) _) fun _ => ih _
  refine Triple.get_bind fun m _ => Triple.ite (fun _ => ?_) fun _ => sight_raise _
  refine Triple.get_bind fun m _ => (hloop _ raw).tryCatch (fun _ _ h => h) fun e => ?_
  exact Triple.keep_bind (sight_add (by decide) _) fun _ => Triple.keep_bind sight_disconnect fun _ => sight_raise e

theorem sight_request (typ : Nat) (payload : Bytes) :
    Triple (Sight B D P) (request typ payload) fun _ => Sight B D P := by
  refine Triple.get_bind fun m _ => Triple.ite (fun _ => sight_raise _) fun _ => ?_
  refine Triple.keep_bind (fun m h => h.same rfl rfl fun _ _ => rfl) fun sequence => ?_
  refine Triple.keep_bind (sight_add (by decide) _) fun _ => Triple.get_bind fun m _ => ?_
  cases encodeFrame typ m.session sequence payload with
  | none => exact Triple.keep_bind (sight_note _) fun _ => sight_raise _
  | some raw =>
    refine Triple.keep_bind (sight_note _) fun _ => Triple.keep_bind (sight_write raw) fun _ => ?_
    refine Triple.keep_bind sight_monotonic fun now => ?_
    refine Triple.keep_bind (fun m h => h.same rfl rfl fun _ _ => rfl) fun _ => ?_
    exact Triple.keep_bind (sight_add (by decide) _) fun _ => sight_pure _

theorem sight_sendHello : Triple (Sight B D P) sendHello fun _ => Sight B D P :=
  Triple.keep_bind (sight_request _ _) fun _ => sight_pure ()

theorem sight_openSerial : Triple (Sight B D P) openSerial fun _ => Sight B D P := by
  refine Triple.get_bind fun m _ => Triple.ite (fun _ => sight_pure ()) fun _ => Triple.keep_bind sight_monotonic
    fun now => ?_
  refine Triple.ite (fun _ => sight_pure ()) fun _ => Triple.tryCatch (R := fun _ => Sight B D P) ?_ (fun _ _ h => h)
    fun e => ?_
  · refine Triple.keep_bind (Triple.ite (fun _ m h => h.same rfl rfl fun _ _ => rfl) fun _ => sight_raise _) fun _ => ?_
    refine Triple.keep_bind (fun m h => h.same rfl rfl fun _ _ => rfl) fun _ => ?_
    refine Triple.keep_bind sight_beginFreshSession fun _ => Triple.keep_bind (sight_add (by decide) _) fun _ => ?_
    refine Triple.keep_bind (sight_set (by decide) _) fun _ => Triple.keep_bind (sight_set (by decide) _) fun _ => ?_
    exact Triple.keep_bind (sight_write _) fun _ => sight_sendHello
  · exact Triple.keep_bind (sight_add (by decide) _) fun _ => sight_disconnect

theorem sight_restartHostSession : Triple (Sight B D P) restartHostSession fun _ => Sight B D P := by
  have hfail : ∀ p, Triple (Sight B D P) (failPending p) fun _ => Sight B D P := by
    intro p
    obtain ⟨sequence, typ, started⟩ := p
    exact Triple.ite (fun _ => sight_outcome _ _) fun _ => sight_pure ()
  refine Triple.get_bind fun m _ => Triple.keep_bind (Triple.keep_forEach fun p _ => hfail p) fun _ => ?_
  refine Triple.keep_bind (fun m h => { h with waiting := List.nil_sublist _ }) fun _ => ?_
  refine Triple.keep_bind sight_beginFreshSession fun _ => Triple.keep_bind (sight_set (by decide) _) fun _ => ?_
  refine Triple.keep_bind (sight_set (by decide) _) fun _ => sight_sendHello.tryCatch (fun _ _ h => h) fun e => ?_
  exact Triple.ite (fun _ => sight_add (by decide) _) fun _ => sight_raise e

theorem sight_rotateBeforeSequenceWrap : Triple (Sight B D P) rotateBeforeSequenceWrap fun _ => Sight B D P := by
  refine Triple.get_bind fun m _ => Triple.ite (fun _ => sight_pure false) fun _ => ?_
  refine Triple.keep_bind (sight_add (by decide) _) fun _ => ?_
  exact Triple.keep_bind sight_restartHostSession fun _ => sight_pure true

theorem sight_sendAir (payload : Bytes) : Triple (Sight B D P) (sendAir payload) fun _ => Sight B D P := by
  refine Triple.get_bind fun m _ => Triple.ite (fun _ => ?_) fun _ => ?_
  · exact Triple.keep_bind (sight_add (by decide) _) fun _ => sight_pure none
  refine Triple.keep_bind sight_rotateBeforeSequenceWrap fun rotated => ?_
  refine Triple.ite (fun _ => Triple.keep_bind (sight_add (by decide) _) fun _ => sight_pure none) fun _ => ?_
  refine Triple.keep_bind (sight_add (by decide) _) fun _ => Triple.keep_bind (sight_add (by decide) _) fun _ => ?_
  refine (Triple.keep_bind (sight_request _ _) fun sequence => sight_pure (some sequence)).tryCatch (fun _ _ h => h)
    fun e => ?_
  exact Triple.ite (fun _ => Triple.keep_bind (sight_add (by decide) _) fun _ => sight_pure none) fun _ => sight_raise e

/-! ## Received frames -/

theorem sight_handleInfo {session : Nat} {payload : Bytes}
    (hB : ∀ info, parseInfo payload = some info → B session info.bootId (decide (info.radioReady ≠ 0))) :
    Triple (fun m => Sight B D P m ∧ m.session = session) (handleInfo payload) fun _ => Sight B D P := by
  rw [handleInfo]
  cases hinfo : parseInfo payload with
  | none =>
    refine (Triple.keep_bind (sight_add (by decide) _) fun _ => sight_pure false).pre ?_
    exact fun m h => h.1
  | some info =>
    have hadd : Triple (fun m => Sight B D P m ∧ m.session = session) (add .modemBootIdChanges)
        fun _ m => Sight B D P m ∧ m.session = session := fun m h => ⟨sight_add (by decide) _ m h.1, h.2⟩
    refine Triple.get_bind fun m _ => Triple.bind (Triple.keep_when fun _ => hadd) (fun _ => ?_) fun _ m h => h.1
    refine Triple.bind (R := fun _ => Sight B D P) ?_ (fun _ => ?_) fun _ m h => h
    · rintro m ⟨h, hsession⟩
      refine ⟨h.waiting, fun _ => ⟨info.bootId, rfl, ?_⟩, fun hno => ?_, h.counters⟩
      · show B m.session info.bootId (decide (info.radioReady ≠ 0))
        rw [hsession]
        exact hB info hinfo
      · cases hno
    · refine Triple.keep_bind (sight_set (by decide) _) fun _ => Triple.keep_bind (sight_set (by decide) _) fun _ => ?_
      refine Triple.keep_bind (sight_set (by decide) _) fun _ => Triple.keep_bind (sight_set (by decide) _) fun _ => ?_
      exact sight_pure true

theorem sight_handleInfoFrame {session : Nat} (sequence : Nat) {payload : Bytes}
    (hB : ∀ info, parseInfo payload = some info → B session info.bootId (decide (info.radioReady ≠ 0))) :
    Triple (fun m => Sight B D P m ∧ m.session = session) (handleInfoFrame sequence payload) fun _ => Sight B D P := by
  refine Triple.get_bind fun m _ => ?_
  cases m.pending.lookup sequence with
  | none => exact (sight_add (by decide) _).pre fun m h => h.1
  | some r =>
    refine Triple.ite (fun _ => (sight_add (by decide) _).pre fun m h => h.1) fun _ => ?_
    refine (sight_handleInfo hB).bind (fun ok => ?_) fun _ _ h => h
    refine Triple.ite (fun _ => sight_popPending _) fun _ => ?_
    exact Triple.keep_bind (sight_add (by decide) _) fun _ => sight_restartHostSession

theorem sight_handleTxResult (sequence : Nat) (payload : Bytes) :
    Triple (Sight B D P) (handleTxResult sequence payload) fun _ => Sight B D P := by
  refine Triple.get_bind fun m _ => ?_
  cases m.pending.lookup sequence with
  | none =>
    refine Triple.ite (fun _ => ?_) fun _ => sight_add (by decide) _
    refine Triple.keep_bind (fun m h => h.same rfl rfl fun _ _ => rfl) fun _ => ?_
    exact Triple.ite (fun _ => sight_add (by decide) _) fun _ => sight_add (by decide) _
  | some r =>
    refine Triple.ite (fun _ => sight_add (by decide) _) fun _ => Triple.ite (fun _ => ?_) fun _ => ?_
    all_goals
      refine Triple.keep_bind (sight_popPending _) fun _ => Triple.keep_bind (sight_outcome _ _) fun _ => ?_
      exact sight_add (by decide) _

/-- The payload of a packet is put behind those that wait. -/
theorem sight_handleRadioRx (payload : Bytes) : Triple (Sight B D P) (handleRadioRx payload) fun _ =>
    Sight B D (P ++ ((parseRadioRx payload).map RadioRx.payload).toList) := by
  have hless : ∀ m, Sight B D P m → Sight B D (P ++ ((parseRadioRx payload).map RadioRx.payload).toList) m :=
    fun m h => h.mono (List.sublist_append_left _ _)
  refine (sight_add (by decide) _).bind (fun _ => ?_) fun _ => hless
  refine sight_monotonic.bind (fun now => ?_) fun _ => hless
  refine Triple.bind (R := fun _ => Sight B D P) (fun m h => h.same rfl rfl fun _ _ => rfl) (fun _ => ?_) fun _ => hless
  cases hparse : parseRadioRx payload with
  | none => exact fun m h => (sight_add (by decide) _ m h).mono (List.sublist_append_left _ _)
  | some rx =>
    have htake : Triple (Sight B D P) (modify fun m => { m with received := m.received ++ [rx.payload] } : Op Unit)
        fun _ => Sight B D (P ++ [rx.payload]) := fun m h =>
      { h with waiting := h.waiting.append (List.Sublist.refl [rx.payload]) }
    refine htake.bind (fun _ => ?_) fun _ m h => h
    exact Triple.keep_bind (sight_add (by decide) _) fun _ => sight_add (by decide) _

/-- The counters are set one by one to the values read. -/
theorem set_counters {names : List Metric} (hnames : names.Nodup) : ∀ {values : List Nat}, names.length = values.length →
    ∀ m : Modem, ∃ metrics, forEach (fun p => set p.1 p.2) (names.zip values) m =
      (.ok (), { m with metrics := metrics }) ∧
      names.map metrics = values.map Int.ofNat ∧ ∀ n ∉ names, metrics n = m.metrics n := by
  induction names with
  | nil =>
    intro values hlength m
    obtain rfl : values = [] := List.eq_nil_of_length_eq_zero hlength.symm
    exact ⟨m.metrics, rfl, rfl, fun _ _ => rfl⟩
  | cons name names ih =>
    intro values hlength m
    obtain ⟨hnew, hnodup⟩ := List.nodup_cons.mp hnames
    cases values with
    | nil => cases hlength
    | cons value values =>
      obtain ⟨metrics, hrun, hvalues, hothers⟩ := ih hnodup (Nat.succ.inj hlength)
        { m with metrics := m.metrics.set name value }
      refine ⟨metrics, hrun, ?_, fun n hn => ?_⟩
      · have hset : metrics name = value := by
          rw [hothers name hnew]
          exact if_pos rfl
        show metrics name :: names.map metrics = Int.ofNat value :: values.map Int.ofNat
        rw [hset, hvalues]
        rfl
      · rw [List.mem_cons, not_or] at hn
        rw [hothers n hn.2]
        exact if_neg hn.1

theorem length_diagnosticNames {payload : Bytes} {values : List Nat} (h : parseDiagnostics payload = some values) :
    diagnosticNames.length = values.length := by
  simp only [parseDiagnostics, Option.ite_none_left_eq_some, Option.some.injEq] at h
  rw [← h.2]
  rfl

theorem sight_handleDiagnostics {payload : Bytes} (hD : ∀ values, parseDiagnostics payload = some values → D values) :
    Triple (Sight B D P) (handleDiagnostics payload) fun _ => Sight B D P := by
  rw [handleDiagnostics]
  cases hparse : parseDiagnostics payload with
  | none => exact sight_add (by decide) _
  | some values =>
    intro m h
    obtain ⟨metrics, hrun, hvalues, -⟩ := set_counters (by decide) (length_diagnosticNames hparse) m
    simp only [hrun]
    exact { h with counters := ⟨values, hD values hparse, hvalues⟩ }

theorem sight_handleDiagnosticsFrame (sequence : Nat) {payload : Bytes}
    (hD : ∀ values, parseDiagnostics payload = some values → D values) :
    Triple (Sight B D P) (handleDiagnosticsFrame sequence payload) fun _ => Sight B D P := by
  refine Triple.get_bind fun m _ => ?_
  cases m.pending.lookup sequence with
  | none => exact sight_add (by decide) _
  | some r =>
    refine Triple.ite (fun _ => sight_add (by decide) _) fun _ => Triple.keep_bind (sight_popPending _) fun _ => ?_
    exact sight_handleDiagnostics hD

theorem sight_handleError (sequence : Nat) (payload : Bytes) :
    Triple (Sight B D P) (handleError sequence payload) fun _ => Sight B D P := by
  refine Triple.get_bind fun m _ => ?_
  cases m.pending.lookup sequence with
  | none =>
    refine Triple.ite (fun _ => ?_) fun _ => sight_add (by decide) _
    cases parseError payload with
    | none => exact sight_add (by decide) _
    | some e =>
      refine Triple.keep_bind (fun m h => h.same rfl rfl fun _ _ => rfl) fun _ => ?_
      exact Triple.ite (fun _ => sight_add (by decide) _) fun _ => sight_add (by decide) _
  | some r =>
    cases parseError payload with
    | none => exact sight_add (by decide) _
    | some e =>
      obtain ⟨code, detail, failedType⟩ := e
      refine Triple.ite (fun _ => sight_add (by decide) _) fun _ => Triple.keep_bind (sight_popPending _) fun _ => ?_
      refine Triple.keep_bind (sight_add (by decide) _) fun _ => ?_
      refine Triple.keep_bind (Triple.keep_when fun _ => sight_outcome _ _) fun _ => ?_
      refine Triple.ite (fun _ => ?_) fun _ => Triple.ite (fun _ => ?_) fun _ => sight_pure ()
      all_goals exact Triple.keep_bind (sight_add (by decide) _) fun _ => sight_restartHostSession

/-- What a frame says of the modem is in `B` and `D`. -/
structure Credible (B : Nat → Nat → Bool → Prop) (D : List Nat → Prop) (f : Frame) : Prop where
  info : f.msgType = Msg.info → ∀ info, parseInfo f.payload = some info →
    B f.session info.bootId (decide (info.radioReady ≠ 0))
  diagnostics : f.msgType = Msg.diagnostics → ∀ values, parseDiagnostics f.payload = some values → D values

/-- A frame adds the payload that it carries. -/
theorem handleFrame_sight {f : Frame} (hf : Credible B D f) :
    Triple (Sight B D P) (handleFrame f) fun _ => Sight B D (P ++ carriedBy f) := by
  have hless : ∀ m, Sight B D P m → Sight B D (P ++ carriedBy f) m := fun m h => h.mono (List.sublist_append_left _ _)
  refine (sight_note _).bind (fun _ => ?_) fun _ => hless
  refine (sight_add (by decide) _).bind (fun _ => ?_) fun _ => hless
  refine Triple.get_bind_eq fun m hm => ?_
  have hquiet : ∀ {op : Op Unit}, (Triple (Sight B D P) op fun _ => Sight B D P) →
      Triple (fun m' => m' = m) op fun _ => Sight B D (P ++ carriedBy f) := by
    rintro op hop _ rfl
    exact hless _ (hop _ hm)
  refine Triple.ite (fun _ => hquiet (sight_add (by decide) _)) fun hsession => ?_
  refine Triple.ite (fun htype => ?_) fun _ => ?_
  · rintro _ rfl
    exact hless _ (sight_handleInfoFrame f.sequence (hf.info htype) _ ⟨hm, (not_not.mp hsession).symm⟩)
  refine Triple.ite (fun _ => hquiet (sight_handleTxResult _ _)) fun _ => Triple.ite (fun htype => ?_) fun _ => ?_
  · rintro _ rfl
    rw [carriedBy, if_pos htype]
    exact sight_handleRadioRx f.payload _ hm
  refine Triple.ite (fun htype => hquiet (sight_handleDiagnosticsFrame _ (hf.diagnostics htype))) fun _ => ?_
  exact Triple.ite (fun _ => hquiet (sight_handleError _ _)) fun _ => hquiet (sight_pure ())

theorem sight_frames {frames : List Frame} (hframes : ∀ f ∈ frames, Credible B D f) : ∀ {P : List Bytes},
    Triple (Sight B D P) (forEach handleFrame frames) fun _ => Sight B D (P ++ frames.flatMap carriedBy) := by
  induction frames with
  | nil =>
    intro P m h
    rwa [List.flatMap_nil, List.append_nil]
  | cons f frames ih =>
    intro P
    rw [List.flatMap_cons, ← List.append_assoc]
    refine (handleFrame_sight (hframes f List.mem_cons_self)).bind (fun _ => ?_) fun _ m h => ?_
    · exact ih fun g hg => hframes g (List.mem_cons_of_mem _ hg)
    · exact h.mono (List.sublist_append_left _ _)

/-! ## Time -/

theorem sight_expireLoop (now : ℚ) (l : List (Nat × ℚ)) :
    Triple (Sight B D P) (expireLoop now l) fun _ => Sight B D P := by
  induction l with
  | nil => exact sight_pure ()
  | cons p l ih =>
    refine Triple.ite (fun _ => sight_pure ()) fun _ => ?_
    refine Triple.keep_bind (fun m h => h.same rfl rfl fun _ _ => rfl) fun _ => ?_
    exact Triple.keep_bind (sight_add (by decide) _) fun _ => ih

theorem sight_rememberTimedOutRadio (sequence : Nat) (now : ℚ) :
    Triple (Sight B D P) (rememberTimedOutRadio sequence now) fun _ => Sight B D P := by
  refine Triple.keep_bind (fun m h => h.same rfl rfl fun _ _ => rfl) fun _ => Triple.get_bind fun m _ => ?_
  exact Triple.keep_bind (fun m h => h.same rfl rfl fun _ _ => rfl) fun _ => sight_add (by decide) _

theorem sight_expirePending (now : ℚ) (table : Table) :
    Triple (Sight B D P) (expirePending now table) fun _ => Sight B D P := by
  induction table with
  | nil => exact sight_pure ()
  | cons p table ih =>
    obtain ⟨sequence, typ, started⟩ := p
    refine Triple.ite (fun _ => Triple.ite (fun _ => ?_) fun _ => ?_) fun _ => ih
    · refine Triple.keep_bind (sight_popPending _) fun _ => Triple.keep_bind (sight_rememberTimedOutRadio _ _) fun _ => ?_
      refine Triple.keep_bind (sight_outcome _ _) fun _ => Triple.keep_bind (sight_add (by decide) _) fun _ => ?_
      exact Triple.keep_bind (sight_add (by decide) _) fun _ => ih
    · refine Triple.keep_bind (sight_popPending _) fun _ => Triple.ite (fun _ => ?_) fun _ => ?_
      · exact Triple.keep_bind (sight_add (by decide) _) fun _ => sight_restartHostSession
      · exact Triple.keep_bind (sight_add (by decide) _) fun _ => ih

theorem sight_pollDiagnostics (idle : Bool) (now : ℚ) :
    Triple (Sight B D P) (pollDiagnostics idle now) fun _ => Sight B D P := by
  refine Triple.get_bind fun m _ => Triple.ite (fun _ => ?_) fun _ => sight_pure ()
  refine Triple.keep_bind sight_rotateBeforeSequenceWrap fun rotated => Triple.ite (fun _ => sight_pure ()) fun _ => ?_
  refine Triple.keep_bind (fun m h => h.same rfl rfl fun _ _ => rfl) fun _ => ?_
  refine (Triple.keep_bind (sight_request _ _) fun _ => sight_pure ()).tryCatch (fun _ _ h => h) fun e => ?_
  exact Triple.ite (fun _ => sight_pure ()) fun _ => sight_raise e

/-! ## Calls -/

/-- What a call returns and leaves, of `P`. -/
def Handed (B : Nat → Nat → Bool → Prop) (D : List Nat → Prop) (P : List Bytes) : Except Exn (List Bytes) → Modem → Prop
  | .ok events, m => events ++ m.received <+ P ∧ Sight B D P m
  | .error _, m => Sight B D P m

/-- The part of `tick` behind the read: what waits is returned. -/
theorem sight_tickRead (idle : Bool) {raw : Bytes} {d : StreamDecoder} (hframes : ∀ f ∈ (d.feed raw).2, Credible B D f) :
    Triple (fun m => Sight B D P m ∧ m.decoder = d) (tickRead idle raw)
      (Handed B D (P ++ (d.feed raw).2.flatMap carriedBy)) := by
  generalize hQ : P ++ (d.feed raw).2.flatMap carriedBy = Q
  have hPQ : P <+ Q := hQ ▸ List.sublist_append_left _ _
  refine Triple.bind (R := fun _ m => Sight B D P m ∧ m.decoder = d) ?_ (fun _ => ?_) fun _ m h => h.1.mono hPQ
  · refine Triple.keep_when fun _ => ?_
    exact fun m h => ⟨sight_add (by decide) _ m h.1, h.2⟩
  refine Triple.get_bind_eq fun m hm => ?_
  obtain ⟨hsight, rfl⟩ := hm
  refine Triple.bind (R := fun _ => Sight B D P) ?_ (fun _ => ?_) fun _ m h => h.mono hPQ
  · rintro _ rfl
    exact hsight.same rfl rfl fun _ _ => rfl
  have hloop := sight_frames (P := P) hframes
  rw [hQ] at hloop
  refine hloop.bind (fun _ => ?_) fun _ _ h => h
  refine sight_monotonic.bind (fun now => ?_) fun _ _ h => h
  refine (Triple.get_bind fun m _ => sight_expireLoop _ _).bind (fun _ => ?_) fun _ _ h => h
  refine (sight_note _).bind (fun _ => ?_) fun _ _ h => h
  refine Triple.get_bind fun m _ => (sight_expirePending _ _).bind (fun _ => ?_) fun _ _ h => h
  refine (sight_pollDiagnostics _ _).bind (fun _ => ?_) fun _ _ h => h
  refine Triple.get_bind fun m _ => (sight_set (by decide) _).bind (fun _ => ?_) fun _ _ h => h
  refine (sight_set (by decide) _).bind (fun _ => ?_) fun _ _ h => h
  refine (sight_set (by decide) _).bind (fun _ => ?_) fun _ _ h => h
  intro m h
  refine ⟨?_, { h with waiting := List.nil_sublist _ }⟩
  show m.received ++ [] <+ Q
  rw [List.append_nil]
  exact h.waiting

theorem sight_tick (idle : Bool) {m : Modem} (h : Sight B D P m) (hlog : m.log = [])
    (hframes : ∀ f ∈ (m.decoderAt.feed (m.io.read.getD [])).2, Credible B D f) :
    Handed B D (P ++ (m.decoderAt.feed (m.io.read.getD [])).2.flatMap carriedBy) (tick idle m).1 (tick idle m).2 := by
  have hopen : Triple (fun m' => m' = m) openSerial (Returns fun _ m' => Sight B D P m' ∧ Before m m') := by
    intro m' hm'
    have hbefore := before_openSerial hlog m' hm'
    have hsight := sight_openSerial m' (hm' ▸ h)
    generalize openSerial m' = res at hbefore hsight
    obtain ⟨_ | u, m'⟩ := res
    · exact hbefore.elim
    · exact ⟨hsight, hbefore⟩
  have hless : ∀ {frames : List Frame} {m'}, Sight B D P m' → Sight B D (P ++ frames.flatMap carriedBy) m' :=
    fun hm => hm.mono (List.sublist_append_left _ _)
  have hnothing : ∀ {op : Op Unit} {frames : List Frame}, (Triple (Sight B D P) op fun _ => Sight B D P) →
      Triple (Sight B D P) (do op; return []) (Handed B D (P ++ frames.flatMap carriedBy)) := fun hop =>
    hop.bind (fun _ m' hm' => ⟨(hless hm').waiting, hless hm'⟩) fun _ m' hm' => hless hm'
  refine (hopen.seq fun _ => Triple.get_bind_eq fun m₁ hm₁ => ?_ : Triple (fun m' => m' = m) (tick idle) _) m rfl
  obtain ⟨hsight, hbefore⟩ := hm₁
  refine Triple.ite (fun _ => ?_) fun hup => ?_
  · rintro _ rfl
    exact hnothing (sight_set (by decide : Metric.modemReadyForSend ∉ diagnosticNames) _) _ hsight
  refine Triple.get_bind_eq fun m₂ hm₂ => ?_
  subst hm₂
  have hread := hbefore.2
  cases hraw : m₂.io.read with
  | none =>
    have hdown : Triple (Sight B D P) (do add .usbReadFailures; disconnect) fun _ => Sight B D P :=
      Triple.keep_bind (sight_add (by decide) _) fun _ => sight_disconnect
    rintro _ rfl
    exact hnothing hdown _ hsight
  | some raw =>
    rw [← hread, hraw, Option.getD_some] at hframes ⊢
    have hdecoder : m₂.decoder = m.decoderAt := hbefore.1.decoder (by simpa using hup)
    exact (sight_tickRead idle hframes).pre fun m' hm' => hm' ▸ ⟨hsight, hdecoder⟩

/-- What is returned by a call, and what waits behind it, is of what waited and what the frames read carried. -/
theorem step_sight (i : Input) {m : Modem} (h : Sight B D P m)
    (hframes : ∀ f ∈ (m.decoderAt.feed (readBy i)).2, Credible B D f) :
    handedBy (step i m).log ++ (step i m).received <+ P ++ (m.decoderAt.feed (readBy i)).2.flatMap carriedBy ∧
      Sight B D (P ++ (m.decoderAt.feed (readBy i)).2.flatMap carriedBy) (step i m) := by
  generalize hQ : P ++ (m.decoderAt.feed (readBy i)).2.flatMap carriedBy = Q
  have hPQ : P <+ Q := hQ ▸ List.sublist_append_left _ _
  have henter : ∀ io, Sight B D P (m.enter io) := fun io => h.same rfl rfl fun _ _ => rfl
  -- a call that returns no payloads
  have hquiet : ∀ m' : Modem, Sight B D P m' → handedBy m'.log = [] →
      handedBy m'.log ++ m'.received <+ Q ∧ Sight B D Q m' :=
    fun m' hm' hnone => ⟨by rw [hnone]; exact hm'.waiting.trans hPQ, hm'.mono hPQ⟩
  have hleave : ∀ (m' : Modem) (e : Event), Sight B D P m' → handedBy [e] = [] →
      handedBy (m'.leave [e]).log ++ (m'.leave [e]).received <+ Q ∧ Sight B D Q (m'.leave [e]) := fun m' e hm' he =>
    hquiet _ (hm'.same rfl rfl fun _ _ => rfl) ((handedBy_concat m'.log e).trans he)
  cases i with
  | sendAir io payload =>
    have hrun := sight_sendAir payload (m.enter io) (henter io)
    rw [step]
    generalize sendAir payload (m.enter io) = res at hrun
    obtain ⟨_ | _ | sequence, m'⟩ := res <;> exact hleave m' _ hrun rfl
  | tick io idle =>
    have hrun := sight_tick idle (henter io) rfl hframes
    have hread : P ++ ((m.enter io).decoderAt.feed ((m.enter io).io.read.getD [])).2.flatMap carriedBy = Q := hQ
    rw [hread] at hrun
    rw [step]
    generalize tick idle (m.enter io) = res at hrun
    obtain ⟨e | events, m'⟩ := res
    · refine ⟨?_, hrun.same rfl rfl fun _ _ => rfl⟩
      rw [show (m'.leave [.raised e]).log = m'.log ++ [.raised e] from rfl, handedBy_concat]
      exact hrun.waiting
    · refine ⟨?_, hrun.2.same rfl rfl fun _ _ => rfl⟩
      rw [show (m'.leave [.received events]).log = m'.log ++ [.received events] from rfl, handedBy_concat]
      exact hrun.1
  | takeTxOutcomes =>
    exact hleave { m.enter m.io with txOutcomes := [] } (.took m.txOutcomes) (h.same rfl rfl fun _ _ => rfl) rfl
  | close io =>
    have hrun : Sight B D P (close (m.enter io)).2 :=
      Triple.keep_bind sight_disconnect (fun _ => sight_set (by decide) _) (m.enter io) (henter io)
    have hlog : Triple (fun m' : Modem => m'.log = []) close (Returns fun _ m' => m'.log = [.lost]) :=
      (disconnect_log []).seq fun _ m' hm' => hm'.1
    have hreturns := hlog (m.enter io) rfl
    rw [step]
    generalize close (m.enter io) = res at hrun hreturns
    obtain ⟨e | u, m'⟩ := res
    · exact hreturns.elim
    · refine hquiet m' hrun ?_
      have hlost : m'.log = [.lost] := hreturns
      rw [hlost]
      rfl

end Modem

end LoraLink.Host
