import LoraLink.Host.Modem

/-!
# What the methods of the transport keep

`Kept I`: the invariant `I` speaks of the connection, the decoder, the log and the answer to the next read only, and the
events of no request and the loss of the connection keep it. If a request keeps it too, so does every method
(`Kept.sendAir`, `Kept.tick`, `Kept.close`), whether or not it raises. For `tick` it is also needed that opening the port
keeps it, and what the decoder makes of the bytes read.
-/

namespace LoraLink.Host.Modem

open LoraLink.Protocol Prog

/-- The events that are about neither the port nor a frame. -/
def Quiet : Event → Prop
  | .opened | .lost | .wrote _ | .request .. | .frame _ => False
  | _ => True

structure Kept (I : Modem → Prop) : Prop where
  face : ∀ {m : Modem}, I m → ∀ m' : Modem, m'.connected = m.connected → m'.decoder = m.decoder → m'.log = m.log →
    m'.io.read = m.io.read → I m'
  quiet : ∀ {e : Event} {m : Modem}, Quiet e → I m → I { m with log := m.log ++ [e] }
  lost : ∀ {m : Modem}, I m → I { m with connected := false, log := m.log ++ [.lost] }

theorem disconnect_log (L : List Event) : Triple (fun m => m.log = L) disconnect
    (Returns fun _ m => m.log = L ++ [.lost] ∧ m.connected = false) := by
  have habandon : ∀ p, Triple (fun m : Modem => m.log = L) (abandon p) (Returns fun _ m => m.log = L) := by
    intro p
    obtain ⟨sequence, typ, started⟩ := p
    refine Triple.ite (fun _ => ?_) fun _ m h => h
    exact fun m h => h
  refine Triple.get_bind fun m _ => (Triple.forEach fun p _ => habandon p).seq fun _ => ?_
  refine (Triple.modify (R := fun m : Modem => m.log = L ++ [.lost] ∧ m.connected = false) fun m h =>
    ⟨congrArg (· ++ _) h, rfl⟩).seq fun _ => ?_
  exact fun m h => h

namespace Kept

variable {I : Modem → Prop} (hI : Kept I)

include hI

/-! ## The small operations -/

theorem add (name : Metric) (amount : Nat) : Triple I (Modem.add name amount) fun _ => I :=
  fun _ h => hI.face h _ rfl rfl rfl rfl

theorem set (name : Metric) (value : Nat) : Triple I (Modem.set name value) fun _ => I :=
  fun _ h => hI.face h _ rfl rfl rfl rfl

theorem monotonic : Triple I monotonic fun _ => I := fun _ h => hI.face h _ rfl rfl rfl rfl

theorem randrange : Triple I randrange fun _ => I := fun _ h => hI.face h _ rfl rfl rfl rfl

theorem popPending (sequence : Nat) : Triple I (popPending sequence) fun _ => I := fun _ h => hI.face h _ rfl rfl rfl rfl

theorem outcome (sequence : Nat) (completed : Option Bool) : Triple I (outcome sequence completed) fun _ => I :=
  fun _ h => hI.face h _ rfl rfl rfl rfl

theorem note {e : Event} (he : Quiet e) : Triple I (note e) fun _ => I := fun _ h => hI.quiet he h

omit hI in
theorem pure {α : Type} (a : α) : Triple I (Pure.pure a : Op α) fun _ => I := fun _ h => h

omit hI in
theorem raise {α : Type} (e : Exn) : Triple I (raise e : Op α) fun _ => I := fun _ h => h

/-! ## The connection and the session -/

theorem disconnect : Triple I disconnect fun _ => I := by
  have habandon : ∀ p, Triple I (abandon p) fun _ => I := by
    intro p
    obtain ⟨sequence, typ, started⟩ := p
    exact Triple.ite (fun _ => Triple.keep_bind (hI.outcome _ _) fun _ => hI.add _ _) fun _ => pure ()
  refine Triple.get_bind fun m _ => Triple.keep_bind (Triple.keep_forEach fun p _ => habandon p) fun _ => ?_
  refine Triple.keep_bind (fun m h => hI.face (hI.lost h) _ rfl rfl rfl rfl) fun _ => ?_
  refine Triple.keep_bind (hI.set _ _) fun _ => Triple.keep_bind (hI.set _ _) fun _ => ?_
  refine Triple.keep_bind (hI.set _ _) fun _ => Triple.keep_bind (hI.set _ _) fun _ => ?_
  exact Triple.keep_bind hI.monotonic fun now m h => hI.face h _ rfl rfl rfl rfl

theorem beginFreshSession : Triple I beginFreshSession fun _ => I := by
  refine Triple.get_bind fun m _ => Triple.keep_bind hI.randrange fun drawn => ?_
  refine Triple.keep_bind (fun m h => hI.face (hI.quiet (e := .session _) trivial h) _ rfl rfl rfl rfl) fun _ => ?_
  exact Triple.keep_bind (hI.set _ _) fun _ => Triple.keep_bind (hI.set _ _) fun _ => hI.set _ _

/-! ## The methods -/

section Request

variable (hrequest : ∀ typ payload, Triple I (request typ payload) fun _ => I)

include hrequest

omit hI in
theorem sendHello : Triple I sendHello fun _ => I := Triple.keep_bind (hrequest _ _) fun _ => pure ()

theorem restartHostSession : Triple I restartHostSession fun _ => I := by
  have hfail : ∀ p, Triple I (failPending p) fun _ => I := by
    intro p
    obtain ⟨sequence, typ, started⟩ := p
    exact Triple.ite (fun _ => hI.outcome _ _) fun _ => pure ()
  refine Triple.get_bind fun m _ => Triple.keep_bind (Triple.keep_forEach fun p _ => hfail p) fun _ => ?_
  refine Triple.keep_bind (fun m h => hI.face h _ rfl rfl rfl rfl) fun _ => Triple.keep_bind hI.beginFreshSession
    fun _ => ?_
  refine Triple.keep_bind (hI.set _ _) fun _ => Triple.keep_bind (hI.set _ _) fun _ => ?_
  refine (sendHello hrequest).tryCatch (fun _ _ h => h) fun e => ?_
  exact Triple.ite (fun _ => hI.add _ _) fun _ => raise e

theorem rotateBeforeSequenceWrap : Triple I rotateBeforeSequenceWrap fun _ => I := by
  refine Triple.get_bind fun m _ => Triple.ite (fun _ => pure false) fun _ => ?_
  exact Triple.keep_bind (hI.add _ _) fun _ => Triple.keep_bind (hI.restartHostSession hrequest) fun _ => pure true

theorem sendAir (payload : Bytes) : Triple I (sendAir payload) fun _ => I := by
  refine Triple.get_bind fun m _ => Triple.ite (fun _ => ?_) fun _ => ?_
  · exact Triple.keep_bind (hI.add _ _) fun _ => pure none
  refine Triple.keep_bind (hI.rotateBeforeSequenceWrap hrequest) fun rotated => ?_
  refine Triple.ite (fun _ => Triple.keep_bind (hI.add _ _) fun _ => pure none) fun _ => ?_
  refine Triple.keep_bind (hI.add _ _) fun _ => Triple.keep_bind (hI.add _ _) fun _ => ?_
  refine (Triple.keep_bind (hrequest _ _) fun sequence => pure (some sequence)).tryCatch (fun _ _ h => h) fun e => ?_
  exact Triple.ite (fun _ => Triple.keep_bind (hI.add _ _) fun _ => pure none) fun _ => raise e

/-! ### Received frames -/

omit hrequest in
theorem handleInfo (payload : Bytes) : Triple I (handleInfo payload) fun _ => I := by
  rw [Modem.handleInfo]
  cases parseInfo payload with
  | none => exact Triple.keep_bind (hI.add _ _) fun _ => pure false
  | some info =>
    refine Triple.get_bind fun m _ => Triple.keep_bind (Triple.keep_when fun _ => hI.add _ _) fun _ => ?_
    refine Triple.keep_bind (fun m h => hI.face h _ rfl rfl rfl rfl) fun _ => ?_
    refine Triple.keep_bind (hI.set _ _) fun _ => Triple.keep_bind (hI.set _ _) fun _ => ?_
    exact Triple.keep_bind (hI.set _ _) fun _ => Triple.keep_bind (hI.set _ _) fun _ => pure true

theorem handleInfoFrame (sequence : Nat) (payload : Bytes) : Triple I (handleInfoFrame sequence payload) fun _ => I := by
  refine Triple.get_bind fun m _ => ?_
  cases m.pending.lookup sequence with
  | none => exact hI.add _ _
  | some r =>
    refine Triple.ite (fun _ => hI.add _ _) fun _ => Triple.keep_bind (hI.handleInfo payload) fun ok => ?_
    refine Triple.ite (fun _ => hI.popPending _) fun _ => ?_
    exact Triple.keep_bind (hI.add _ _) fun _ => hI.restartHostSession hrequest

omit hrequest in
theorem handleTxResult (sequence : Nat) (payload : Bytes) : Triple I (handleTxResult sequence payload) fun _ => I := by
  refine Triple.get_bind fun m _ => ?_
  cases m.pending.lookup sequence with
  | none =>
    refine Triple.ite (fun _ => ?_) fun _ => hI.add _ _
    refine Triple.keep_bind (fun m h => hI.face h _ rfl rfl rfl rfl) fun _ => ?_
    exact Triple.ite (fun _ => hI.add _ _) fun _ => hI.add _ _
  | some r =>
    refine Triple.ite (fun _ => hI.add _ _) fun _ => Triple.ite (fun _ => ?_) fun _ => ?_
    all_goals exact Triple.keep_bind (hI.popPending _) fun _ => Triple.keep_bind (hI.outcome _ _) fun _ => hI.add _ _

omit hrequest in
theorem handleRadioRx (payload : Bytes) : Triple I (handleRadioRx payload) fun _ => I := by
  refine Triple.keep_bind (hI.add _ _) fun _ => Triple.keep_bind hI.monotonic fun now => ?_
  refine Triple.keep_bind (fun m h => hI.face h _ rfl rfl rfl rfl) fun _ => ?_
  cases parseRadioRx payload with
  | none => exact hI.add _ _
  | some rx =>
    refine Triple.keep_bind (fun m h => hI.face h _ rfl rfl rfl rfl) fun _ => ?_
    exact Triple.keep_bind (hI.add _ _) fun _ => hI.add _ _

omit hrequest in
theorem handleDiagnosticsFrame (sequence : Nat) (payload : Bytes) :
    Triple I (handleDiagnosticsFrame sequence payload) fun _ => I := by
  refine Triple.get_bind fun m _ => ?_
  cases m.pending.lookup sequence with
  | none => exact hI.add _ _
  | some r =>
    refine Triple.ite (fun _ => hI.add _ _) fun _ => Triple.keep_bind (hI.popPending _) fun _ => ?_
    rw [handleDiagnostics]
    cases parseDiagnostics payload with
    | none => exact hI.add _ _
    | some values => exact Triple.keep_forEach fun p _ => hI.set _ _

theorem handleError (sequence : Nat) (payload : Bytes) : Triple I (handleError sequence payload) fun _ => I := by
  refine Triple.get_bind fun m _ => ?_
  cases m.pending.lookup sequence with
  | none =>
    refine Triple.ite (fun _ => ?_) fun _ => hI.add _ _
    cases parseError payload with
    | none => exact hI.add _ _
    | some e =>
      refine Triple.keep_bind (fun m h => hI.face h _ rfl rfl rfl rfl) fun _ => ?_
      exact Triple.ite (fun _ => hI.add _ _) fun _ => hI.add _ _
  | some r =>
    cases parseError payload with
    | none => exact hI.add _ _
    | some e =>
      obtain ⟨code, detail, failedType⟩ := e
      refine Triple.ite (fun _ => hI.add _ _) fun _ => Triple.keep_bind (hI.popPending _) fun _ => ?_
      refine Triple.keep_bind (hI.add _ _) fun _ => ?_
      refine Triple.keep_bind (Triple.keep_when fun _ => hI.outcome _ _) fun _ => ?_
      refine Triple.ite (fun _ => ?_) fun _ => Triple.ite (fun _ => ?_) fun _ => pure ()
      all_goals exact Triple.keep_bind (hI.add _ _) fun _ => hI.restartHostSession hrequest

theorem handleFrame {f : Frame} {J : Modem → Prop} (hframe : ∀ m : Modem, J m → I { m with log := m.log ++ [.frame f] }) :
    Triple J (handleFrame f) fun _ => I := by
  refine Triple.bind (R := fun _ => I) hframe (fun _ => ?_) fun _ _ h => h
  refine Triple.keep_bind (hI.add _ _) fun _ => Triple.get_bind fun m _ => ?_
  refine Triple.ite (fun _ => hI.add _ _) fun _ => ?_
  refine Triple.ite (fun _ => hI.handleInfoFrame hrequest _ _) fun _ => ?_
  refine Triple.ite (fun _ => hI.handleTxResult _ _) fun _ => ?_
  refine Triple.ite (fun _ => hI.handleRadioRx _) fun _ => ?_
  refine Triple.ite (fun _ => hI.handleDiagnosticsFrame _ _) fun _ => ?_
  exact Triple.ite (fun _ => hI.handleError hrequest _ _) fun _ => pure ()

/-! ### Time -/

omit hrequest in
theorem expireLoop (now : ℚ) (l : List (Nat × ℚ)) : Triple I (expireLoop now l) fun _ => I := by
  induction l with
  | nil => exact pure ()
  | cons p l ih =>
    refine Triple.ite (fun _ => pure ()) fun _ => ?_
    exact Triple.keep_bind (fun m h => hI.face h _ rfl rfl rfl rfl) fun _ => Triple.keep_bind (hI.add _ _) fun _ => ih

omit hrequest in
theorem rememberTimedOutRadio (sequence : Nat) (now : ℚ) : Triple I (rememberTimedOutRadio sequence now) fun _ => I := by
  refine Triple.keep_bind (fun m h => hI.face h _ rfl rfl rfl rfl) fun _ => Triple.get_bind fun m _ => ?_
  exact Triple.keep_bind (fun m h => hI.face h _ rfl rfl rfl rfl) fun _ => hI.add _ _

theorem expirePending (now : ℚ) (table : Table) : Triple I (expirePending now table) fun _ => I := by
  induction table with
  | nil => exact pure ()
  | cons p table ih =>
    obtain ⟨sequence, typ, started⟩ := p
    refine Triple.ite (fun _ => Triple.ite (fun _ => ?_) fun _ => ?_) fun _ => ih
    · refine Triple.keep_bind (hI.popPending _) fun _ => Triple.keep_bind (hI.rememberTimedOutRadio _ _) fun _ => ?_
      refine Triple.keep_bind (hI.outcome _ _) fun _ => Triple.keep_bind (hI.add _ _) fun _ => ?_
      exact Triple.keep_bind (hI.add _ _) fun _ => ih
    · refine Triple.keep_bind (hI.popPending _) fun _ => Triple.ite (fun _ => ?_) fun _ => ?_
      · exact Triple.keep_bind (hI.add _ _) fun _ => hI.restartHostSession hrequest
      · exact Triple.keep_bind (hI.add _ _) fun _ => ih

theorem pollDiagnostics (idle : Bool) (now : ℚ) : Triple I (pollDiagnostics idle now) fun _ => I := by
  refine Triple.get_bind fun m _ => Triple.ite (fun _ => ?_) fun _ => pure ()
  refine Triple.keep_bind (hI.rotateBeforeSequenceWrap hrequest) fun rotated => Triple.ite (fun _ => pure ()) fun _ => ?_
  refine Triple.keep_bind (fun m h => hI.face h _ rfl rfl rfl rfl) fun _ => ?_
  refine (Triple.keep_bind (hrequest _ _) fun _ => pure ()).tryCatch (fun _ _ h => h) fun e => ?_
  exact Triple.ite (fun _ => pure ()) fun _ => raise e

omit hI hrequest in
/-- The part of `tick` behind the read: what holds may depend on the frames that are handled. These are the first of
those that the decoder `d` makes of the bytes, and all of them if it returns. -/
theorem tickRead (idle : Bool) (raw : Bytes) {d : StreamDecoder} {J : Modem → Prop} {F : List Frame → Modem → Prop}
    (hF : ∀ L, Kept (F L)) (hrequest : ∀ L typ payload, Triple (F L) (request typ payload) fun _ => F L)
    (hadd : Triple J (Modem.add .hostUsbBytesReceived raw.length) (Returns fun _ => J))
    (hfeed : ∀ m : Modem, J m → m.decoder = d ∧ F [] { m with decoder := (d.feed raw).1 })
    (hframe : ∀ (L : List Frame) (f : Frame) (m : Modem), F L m → F (L ++ [f]) { m with log := m.log ++ [.frame f] }) :
    Triple J (tickRead idle raw) fun r m =>
      ∃ L, L <+: (d.feed raw).2 ∧ F L m ∧ ∀ events, r = .ok events → L = (d.feed raw).2 := by
  refine (Triple.when (fun _ => hadd) fun _ m h => h).seq fun _ => Triple.get_bind_eq fun m hm => ?_
  obtain ⟨rfl, hdecoder⟩ := hfeed m hm
  have hmodify : Triple (fun m' => m' = m) (modify fun m' => { m' with decoder := (m.decoder.feed raw).1 } : Op Unit)
      (Returns fun _ => F []) := by
    rintro m' rfl
    exact hdecoder
  refine hmodify.seq fun _ => ?_
  have hloop := Triple.forEach_done (fun L f => (hF (L ++ [f])).handleFrame (hrequest _) (hframe L f)) []
    (m.decoder.feed raw).2
  refine hloop.bind (fun _ => ?_) fun e m' h => ?_
  · -- all the frames are handled
    refine Triple.weaken (P := F (m.decoder.feed raw).2) (Q := fun _ => F (m.decoder.feed raw).2) ?_ ?_ ?_
    · have hI := hF (m.decoder.feed raw).2
      have hrequest := hrequest (m.decoder.feed raw).2
      refine Triple.keep_bind hI.monotonic fun now => ?_
      refine Triple.keep_bind (Triple.get_bind fun m _ => hI.expireLoop _ _) fun _ => ?_
      refine Triple.keep_bind (hI.note (e := .deadline now) trivial) fun _ => Triple.get_bind fun m _ => ?_
      refine Triple.keep_bind (hI.expirePending hrequest _ _) fun _ => ?_
      refine Triple.keep_bind (hI.pollDiagnostics hrequest _ _) fun _ => Triple.get_bind fun m _ => ?_
      refine Triple.keep_bind (hI.set _ _) fun _ => Triple.keep_bind (hI.set _ _) fun _ => ?_
      refine Triple.keep_bind (hI.set _ _) fun _ => Triple.get_bind fun m _ => ?_
      exact Triple.keep_bind (fun m h => hI.face h _ rfl rfl rfl rfl) fun _ => pure _
    · rintro m' ⟨L, -, h, hall⟩
      exact hall rfl ▸ h
    · exact fun r m' h => ⟨_, List.prefix_rfl, h, fun _ _ => rfl⟩
  · obtain ⟨L, hprefix, h, -⟩ := h
    exact ⟨L, hprefix, h, nofun⟩

omit hrequest in
/-- `tick`, by what holds up to the read: it is kept if nothing is read. -/
theorem tick (idle : Bool) {P J : Modem → Prop} {Q : Except Exn (List Bytes) → Modem → Prop}
    (hopen : Triple P openSerial (Returns fun _ => J))
    (hnone : ∀ {m : Modem}, J m → m.connected = false ∨ m.io.read = none → I m ∧ ∀ r m', I m' → Q r m')
    (hread : ∀ {m : Modem}, J m → m.connected = true → ∀ raw, m.io.read = some raw →
      Triple (fun m' => m' = m) (Modem.tickRead idle raw) Q) : Triple P (tick idle) Q := by
  refine hopen.seq fun _ => Triple.get_bind_eq fun m hm => Triple.ite (fun hdown => ?_) fun hup => ?_
  · obtain ⟨hkeep, hends⟩ := hnone hm (Or.inl hdown)
    refine (Triple.keep_bind (hI.set _ _) fun _ => pure _).weaken ?_ hends
    rintro _ rfl
    exact hkeep
  refine Triple.get_bind_eq fun m' hm' => ?_
  subst hm'
  cases hraw : m'.io.read with
  | none =>
    obtain ⟨hkeep, hends⟩ := hnone hm (Or.inr hraw)
    refine (Triple.keep_bind (hI.add _ _) fun _ => Triple.keep_bind hI.disconnect fun _ => pure _).weaken ?_ hends
    rintro _ rfl
    exact hkeep
  | some raw => exact hread hm (by simpa using hup) raw hraw

end Request

/-! ### The port -/

/-- A write keeps what the bytes written keep. -/
theorem write (hwrote : ∀ {bs : Bytes} {m : Modem}, I m → I { m with log := m.log ++ [.wrote bs] }) (raw : Bytes) :
    Triple I (Modem.write raw) fun _ => I := by
  have hloop : ∀ (ws : List WriteRes) (raw : Bytes), Triple I (writeLoop ws raw) fun _ => I := by
    intro ws
    induction ws with
    | nil =>
      intro raw
      cases raw with
      | nil => exact fun m h => hI.face h _ rfl rfl rfl rfl
      | cons b raw => exact raise _
    | cons w ws ih =>
      intro raw
      cases raw with
      | nil => exact fun m h => hI.face h _ rfl rfl rfl rfl
      | cons b raw =>
        cases w with
        | raised k => exact Triple.keep_bind (fun m h => hwrote h) fun _ => raise _
        | wrote k =>
          refine Triple.ite (fun _ => raise _) fun _ => Triple.keep_bind (fun m h => hwrote h) fun _ => ?_
          exact Triple.keep_bind (hI.add _ _) fun _ => ih _
  refine Triple.get_bind fun m _ => Triple.ite (fun _ => ?_) fun _ => raise _
  refine Triple.get_bind fun m _ => (hloop _ raw).tryCatch (fun _ _ h => h) fun e => ?_
  exact Triple.keep_bind (hI.add _ _) fun _ => Triple.keep_bind hI.disconnect fun _ => raise e

/-- A request keeps what its event and the bytes written keep. -/
theorem request (hwrote : ∀ {bs : Bytes} {m : Modem}, I m → I { m with log := m.log ++ [.wrote bs] })
    (hask : ∀ {typ sequence : Nat} {payload raw : Bytes} {m : Modem},
      encodeFrame typ m.session sequence payload = some raw → I m →
      I { m with log := m.log ++ [.request typ m.session sequence payload m.pending] })
    (typ : Nat) (payload : Bytes) : Triple I (Modem.request typ payload) fun _ => I := by
  refine Triple.get_bind fun m _ => Triple.ite (fun _ => raise _) fun _ => ?_
  refine Triple.keep_bind (fun m h => hI.face h _ rfl rfl rfl rfl) fun sequence => ?_
  refine Triple.keep_bind (hI.add _ _) fun _ => Triple.get_bind_eq fun m hm => ?_
  cases hraw : encodeFrame typ m.session sequence payload with
  | none =>
    refine (Triple.keep_bind (hI.note (e := .unencodable sequence payload) trivial) fun _ => raise _).pre ?_
    rintro _ rfl
    exact hm
  | some raw =>
    refine Triple.bind (R := fun _ => I) ?_ (fun _ => ?_) fun _ _ h => h
    · rintro _ rfl
      exact hask hraw hm
    refine Triple.keep_bind (hI.write hwrote raw) fun _ => Triple.keep_bind hI.monotonic fun now => ?_
    refine Triple.keep_bind (fun m h => ?_) fun _ => Triple.keep_bind (hI.add _ _) fun _ => pure _
    exact hI.face (hI.quiet (e := .accepted typ sequence now) trivial h) _ rfl rfl rfl rfl

/-- The port is opened: a new decoder. -/
theorem openSerial (hwrite : Triple I (Modem.write [0]) fun _ => I)
    (hrequest : ∀ typ payload, Triple I (Modem.request typ payload) fun _ => I)
    (hopened : ∀ {m : Modem}, I m → m.connected = false →
      I { m with connected := true, decoder := {}, log := m.log ++ [.opened] }) :
    Triple I Modem.openSerial (Returns fun _ => I) := by
  refine Triple.get_bind_eq fun m hm => Triple.ite (fun _ => ?_) fun hdown => ?_
  · rintro _ rfl
    exact hm
  have hclock : Triple (fun m' => m' = m) Modem.monotonic (Returns fun _ m' => I m' ∧ m'.connected = false) := by
    rintro m' rfl
    exact ⟨hI.face hm _ rfl rfl rfl rfl, Bool.eq_false_of_not_eq_true hdown⟩
  refine hclock.seq fun now => Triple.ite (fun _ m h => h.1) fun _ => ?_
  refine Triple.tryCatch (R := fun _ => I) ?_ (fun _ _ h => h) fun e => ?_
  · let Opened : Modem → Prop := fun m => I { m with decoder := {} }
    have hfactory : Triple (fun m => I m ∧ m.connected = false) (serialFactory m.io.opens) fun r m =>
        match r with
        | .ok _ => Opened m
        | .error _ => I m :=
      Triple.ite (fun _ m h => hopened h.1 h.2) fun _ m h => h.1
    refine hfactory.bind (fun _ => ?_) fun _ _ h => h
    refine Triple.bind (R := fun _ => I) (fun m h => hI.face h _ rfl rfl rfl rfl) (fun _ => ?_) fun _ _ h => h
    refine Triple.keep_bind hI.beginFreshSession fun _ => Triple.keep_bind (hI.add _ _) fun _ => ?_
    refine Triple.keep_bind (hI.set _ _) fun _ => Triple.keep_bind (hI.set _ _) fun _ => ?_
    exact Triple.keep_bind hwrite fun _ => Kept.sendHello hrequest
  · refine Triple.seq (R := fun _ => I) (hI.add _ _) fun _ m h => ?_
    have hkeep := hI.disconnect m h
    have hreturns := disconnect_log m.log m rfl
    generalize Modem.disconnect m = res at hkeep hreturns
    obtain ⟨_ | u, m'⟩ := res
    · exact hreturns.elim
    · exact hkeep

theorem close : Triple I close fun _ => I := Triple.keep_bind hI.disconnect fun _ => hI.set _ _

end Kept

end LoraLink.Host.Modem
