import LoraLink.Host.Phase

/-!
# Which frames close a request

A request is closed by a frame of the present session that has its sequence and answers its type (`Closes`). Every
other frame is ignored (`Ignores`): it changes metrics, and may take a send that timed out off its list or bring a
packet that was received.

- `handleFrame_ignores`: a frame that closes nothing is ignored, in every state;
- `handleFrame_stands`: every frame leaves the transport in a phase.
-/

namespace LoraLink.Host.Modem

open LoraLink.Protocol Prog

/-! ## Answers -/

/-- The frame is an answer to a request of the given type: an INFO answers a HELLO, a result a send, diagnostics the
request for them, and a well-formed ERROR the type it names. -/
inductive Answers (f : Frame) : Nat → Prop
  | info (h : f.msgType = Msg.info) : Answers f Msg.hello
  | txResult (h : f.msgType = Msg.radioTxResult) : Answers f Msg.radioSend
  | diagnostics (h : f.msgType = Msg.diagnostics) : Answers f Msg.getDiagnostics
  | error (code : Nat) (detail : Int) (typ : Nat) (h : f.msgType = Msg.error)
      (hparse : parseError f.payload = some (code, detail, typ)) : Answers f typ

/-- The frame closes a request that waits. -/
def Closes (m : Modem) (f : Frame) : Prop :=
  f.session = m.session ∧ ∃ typ t, m.pending.lookup f.sequence = some (typ, t) ∧ Answers f typ

/-- The frame has been counted. -/
def counted (f : Frame) (m : Modem) : Modem :=
  { m with metrics := m.metrics.add .hostUsbFramesReceived 1, log := m.log ++ [.frame f] }

/-- The frame has been ignored: only a late reply and a received packet change more than metrics. -/
structure Ignores (f : Frame) (m m' : Modem) : Prop where
  same : m' = { m with
    metrics := m'.metrics, timedOutRadio := m'.timedOutRadio, received := m'.received
    lastRadioRx := m'.lastRadioRx, io := m'.io, log := m.log ++ [.frame f] }
  gauges : ∀ name, IsGauge name = true → m'.metrics name = m.metrics name
  late : m'.timedOutRadio = m.timedOutRadio ∨ m'.timedOutRadio = popKey m.timedOutRadio f.sequence
  noPacket : f.msgType ≠ Msg.radioRx → m'.received = m.received ∧ m'.lastRadioRx = m.lastRadioRx ∧ m'.io = m.io

variable {f : Frame} {m : Modem}

theorem Ignores.alike {m' : Modem} (h : Ignores f m m') : Alike { m with timedOutRadio := m'.timedOutRadio } m' := by
  have hconnected := congrArg Modem.connected h.same
  have hhandshake := congrArg Modem.handshakeComplete h.same
  have hready := congrArg Modem.radioReady h.same
  have hsession := congrArg Modem.session h.same
  have hsequence := congrArg Modem.sequence h.same
  have hpending := congrArg Modem.pending h.same
  exact ⟨hconnected, hhandshake, hready, hsession, hsequence, hpending, rfl⟩

theorem counted_pending : (counted f m).pending = m.pending := rfl

theorem counted_ignores : Ignores f m (counted f m) :=
  ⟨rfl, fun _ hn => if_neg (ne_of_isGauge rfl hn), Or.inl rfl, fun _ => ⟨rfl, rfl, rfl⟩⟩

theorem Plugged.counted (h : Plugged m) : Plugged (counted f m) :=
  ⟨h.1, ((counted_ignores (f := f)).gauges _ rfl).trans h.2⟩

theorem ignores_add {name : Metric} (h : IsGauge name = false) (amount : Nat) :
    Triple (Ignores f m) (add name amount) (Returns fun _ => Ignores f m) := fun m' hm =>
  ⟨congrArg (fun m : Modem => { m with metrics := m'.metrics.add name amount }) hm.same,
    fun n hn => (if_neg (ne_of_isGauge h hn)).trans (hm.gauges n hn), hm.late, hm.noPacket⟩

/-- The send that timed out is taken off the list, once. -/
theorem ignores_pop {name : Metric} (h : IsGauge name = false) :
    Triple (fun t => t = counted f m) (do
      modify fun m => { m with timedOutRadio := popKey m.timedOutRadio f.sequence }
      add name : Op Unit) (Returns fun _ => Ignores f m) := by
  rintro _ rfl
  refine ⟨rfl, fun n hn => ?_, Or.inr rfl, fun _ => ⟨rfl, rfl, rfl⟩⟩
  exact (if_neg (ne_of_isGauge h hn)).trans (if_neg (ne_of_isGauge rfl hn))

/-- A branch that only counts. -/
theorem ignores_count {name : Metric} (h : IsGauge name = false) :
    Triple (fun t => t = counted f m) (add name) (Returns fun _ => Ignores f m) :=
  (ignores_add h 1).pre fun _ ht => ht ▸ counted_ignores

/-! ## Frames that close nothing -/

section Ignored

variable (hno : ∀ typ t, m.pending.lookup f.sequence = some (typ, t) → ¬ Answers f typ)

include hno

theorem handleInfoFrame_ignores (ht : f.msgType = Msg.info) :
    Triple (fun t => t = counted f m) (handleInfoFrame f.sequence f.payload) (Returns fun _ => Ignores f m) := by
  refine Triple.get_bind fun m' hm => ?_
  subst hm
  rw [counted_pending]
  cases hp : m.pending.lookup f.sequence with
  | none => exact ignores_count rfl
  | some r =>
    refine Triple.ite (fun _ => ignores_count rfl) fun htyp => ?_
    rw [not_not] at htyp
    exact absurd (htyp ▸ Answers.info ht) (hno r.1 r.2 hp)

theorem handleTxResult_ignores (ht : f.msgType = Msg.radioTxResult) :
    Triple (fun t => t = counted f m) (handleTxResult f.sequence f.payload) (Returns fun _ => Ignores f m) := by
  refine Triple.get_bind fun m' hm => ?_
  subst hm
  rw [counted_pending]
  cases hp : m.pending.lookup f.sequence with
  | none =>
    refine Triple.ite (fun _ => ?_) fun _ => ignores_count rfl
    by_cases hparse : (parseTxResult f.payload).isSome
    · simp only [hparse, if_true]
      exact ignores_pop rfl
    · simp only [hparse]
      exact ignores_pop rfl
  | some r =>
    refine Triple.ite (fun _ => ignores_count rfl) fun htyp => ?_
    rw [not_not] at htyp
    exact absurd (htyp ▸ Answers.txResult ht) (hno r.1 r.2 hp)

theorem handleDiagnosticsFrame_ignores (ht : f.msgType = Msg.diagnostics) :
    Triple (fun t => t = counted f m) (handleDiagnosticsFrame f.sequence f.payload)
      (Returns fun _ => Ignores f m) := by
  refine Triple.get_bind fun m' hm => ?_
  subst hm
  rw [counted_pending]
  cases hp : m.pending.lookup f.sequence with
  | none => exact ignores_count rfl
  | some r =>
    refine Triple.ite (fun _ => ignores_count rfl) fun htyp => ?_
    rw [not_not] at htyp
    exact absurd (htyp ▸ Answers.diagnostics ht) (hno r.1 r.2 hp)

theorem handleError_ignores (ht : f.msgType = Msg.error) :
    Triple (fun t => t = counted f m) (handleError f.sequence f.payload) (Returns fun _ => Ignores f m) := by
  refine Triple.get_bind fun m' hm => ?_
  subst hm
  rw [counted_pending]
  cases hp : m.pending.lookup f.sequence with
  | none =>
    refine Triple.ite (fun _ => ?_) fun _ => ignores_count rfl
    cases hparse : parseError f.payload with
    | none => exact ignores_count rfl
    | some e =>
      by_cases htyp : e.2.2 = Msg.radioSend
      · simp only [htyp, if_true]
        exact ignores_pop rfl
      · simp only [htyp, if_false]
        exact ignores_pop rfl
  | some r =>
    cases hparse : parseError f.payload with
    | none => exact ignores_count rfl
    | some e =>
      refine Triple.ite (fun _ => ignores_count rfl) fun htyp => ?_
      rw [not_not] at htyp
      exact absurd (htyp ▸ Answers.error e.1 e.2.1 e.2.2 ht hparse) (hno r.1 r.2 hp)

end Ignored

theorem handleRadioRx_ignores (ht : f.msgType = Msg.radioRx) :
    Triple (fun t => t = counted f m) (handleRadioRx f.payload) (Returns fun _ => Ignores f m) := by
  refine Triple.seq (R := fun _ => Ignores f m) (ignores_count rfl) fun _ => ?_
  refine Triple.seq (R := fun _ => Ignores f m) (fun m' h => ?_) fun now => ?_
  · exact ⟨congrArg (fun t : Modem => { t with io := (monotonic m').2.io }) h.same, h.gauges, h.late,
      fun hne => absurd ht hne⟩
  refine Triple.seq (R := fun _ => Ignores f m) (fun m' h => ?_) fun _ => ?_
  · exact ⟨congrArg (fun t : Modem => { t with lastRadioRx := now }) h.same, h.gauges, h.late, fun hne => absurd ht hne⟩
  cases parseRadioRx f.payload with
  | none => exact ignores_add rfl 1
  | some rx =>
    refine Triple.seq (R := fun _ => Ignores f m) (fun m' h => ?_) fun _ => ?_
    · exact ⟨congrArg (fun t : Modem => { t with received := m'.received ++ [rx.payload] }) h.same, h.gauges, h.late,
        fun hne => absurd ht hne⟩
    · exact (ignores_add rfl 1).seq fun _ => ignores_add rfl 1

/-- A frame that closes nothing is ignored. -/
theorem handleFrame_ignores (h : ¬ Closes m f) :
    Triple (fun t => t = m) (handleFrame f) (Returns fun _ => Ignores f m) := by
  refine Triple.seq (R := fun _ t => t = { m with log := m.log ++ [.frame f] }) (by rintro _ rfl; exact rfl) fun _ => ?_
  refine Triple.seq (R := fun _ t => t = counted f m) (by rintro _ rfl; exact rfl) fun _ => ?_
  refine Triple.get_bind fun m' hm => ?_
  subst hm
  refine Triple.ite (fun _ => ignores_count rfl) fun hs => ?_
  have hno : ∀ typ t, m.pending.lookup f.sequence = some (typ, t) → ¬ Answers f typ := fun typ t hp ha =>
    h ⟨not_not.mp hs, typ, t, hp, ha⟩
  refine Triple.ite (handleInfoFrame_ignores hno) fun _ => ?_
  refine Triple.ite (handleTxResult_ignores hno) fun _ => ?_
  refine Triple.ite handleRadioRx_ignores fun _ => ?_
  refine Triple.ite (handleDiagnosticsFrame_ignores hno) fun _ => ?_
  refine Triple.ite (handleError_ignores hno) fun _ => ?_
  rintro _ rfl
  exact counted_ignores

/-! ## Phases under frames -/

variable {H : List Event}

/-- Some of the sends that timed out are forgotten. -/
theorem Phase.fewer (h : Phase H m) {late : List (Nat × ℚ)} (hlate : late.Sublist m.timedOutRadio) :
    Phase H { m with timedOutRadio := late } := by
  cases h with
  | down hconnected hhandshake hready hpending hnone =>
    exact .down hconnected hhandshake hready hpending (List.sublist_nil.mp (hnone ▸ hlate))
  | greeting t hconnected hhandshake hready hpending hnone hinfos =>
    exact .greeting t hconnected hhandshake hready hpending (List.sublist_nil.mp (hnone ▸ hlate)) hinfos
  | serving info rest hconnected hhandshake hready hinfos hwaits hold hasked =>
    refine .serving info rest hconnected hhandshake hready hinfos hwaits ?_ hasked
    exact ⟨hlate.length_le.trans hold.few, fun p hp => hold.old p (hlate.subset hp),
      fun p hp => hold.apart p (hlate.subset hp), fun p hp => hold.asked p (hlate.subset hp)⟩

/-- The request that waits is the one that is looked up. -/
theorem Phase.single (h : Phase H m) {q typ : Nat} {t : ℚ} (hp : m.pending.lookup q = some (typ, t)) :
    m.pending = [(q, typ, t)] := by
  have hmem := mem_of_lookup hp
  cases h with
  | down _ _ _ hpending _ => rw [hpending] at hmem; cases hmem
  | greeting t' _ _ _ hpending _ _ =>
    rw [hpending, List.mem_singleton] at hmem
    rw [hpending, ← hmem]
  | serving info rest _ _ _ _ hwaits _ _ =>
    rcases hwaits with hnone | ⟨typ', t', hsome, -⟩
    · rw [hnone] at hmem
      cases hmem
    · rw [hsome, List.mem_singleton] at hmem
      rw [hsome, ← hmem]

theorem Stands.ignores (h : Stands H m) (hno : ¬ Closes m f) {m' : Modem} (hi : Ignores f m m') : Stands H m' := by
  have hlate : m'.timedOutRadio.Sublist m.timedOutRadio := by
    rcases hi.late with h | h
    · rw [h]
    · rw [h]
      exact List.filter_sublist
  have hinfos : (∃ t, m.pending = [(1, Msg.hello, t)]) →
      infos m.session ((H ++ m.log) ++ [.frame f]) = infos m.session (H ++ m.log) := by
    rintro ⟨t, hp⟩
    rw [infos_frame]
    have hnone : infoOf m.session f = none := by
      refine if_neg fun ⟨hs, ht, hq⟩ => hno ⟨hs, Msg.hello, t, ?_, .info ht⟩
      rw [hp, hq]
      rfl
    rw [hnone, Option.toList_none, List.append_nil]
  have hphase := (h.1.snoc (e := .frame f) (by simp) hinfos ⟨_, infos_frame _ _ _⟩).fewer hlate
  have hlog : m'.log = m.log ++ [.frame f] := congrArg Modem.log hi.same
  refine ⟨?_, h.2.flags hi.alike.connected hi.alike.handshake hi.alike.ready hi.gauges⟩
  rw [hlog, ← List.append_assoc]
  exact hphase.alike hi.alike

/-! ## Frames that close a request -/

/-- The request that waits leaves the table. -/
theorem Phase.settled (h : Phase H m) (hs : m.handshakeComplete = true) : Phase H { m with pending := [] } := by
  cases h with
  | down _ hhandshake _ _ _ => rw [hhandshake] at hs; cases hs
  | greeting t _ hhandshake _ _ _ _ => rw [hhandshake] at hs; cases hs
  | serving info rest hconnected hhandshake hready hinfos _ hlate _ =>
    exact .serving info rest hconnected hhandshake hready hinfos (Or.inl rfl)
      { hlate with apart := fun _ _ _ h => absurd h List.not_mem_nil } fun _ _ h => absurd h List.not_mem_nil

/-- After the HELLO, every frame of the session leaves the phase alone until its request is settled. -/
theorem Stands.counted (h : Stands H m) (hs : m.handshakeComplete = true) : Stands H (counted f m) := by
  refine ⟨?_, h.2.flags rfl rfl rfl (counted_ignores (f := f)).gauges⟩
  have hpending : ¬ ∃ t, m.pending = [(1, Msg.hello, t)] := by
    rintro ⟨t, hp⟩
    cases h.1 with
    | down _ hhandshake _ _ _ => rw [hhandshake] at hs; cases hs
    | greeting t _ hhandshake _ _ _ _ => rw [hhandshake] at hs; cases hs
    | serving info rest _ _ _ _ hwaits _ _ =>
      rcases hwaits with hnone | ⟨typ, t', hsome, ht⟩
      · rw [hnone] at hp
        cases hp
      · rw [hsome] at hp
        simp only [List.cons.injEq, Prod.mk.injEq] at hp
        rw [hp.1.2.1] at ht
        exact absurd ht (by decide)
  have hphase := h.1.snoc (e := .frame f) (by simp) (fun hp => absurd hp hpending) ⟨_, infos_frame _ _ _⟩
  rw [List.append_assoc] at hphase
  exact hphase.alike ⟨rfl, rfl, rfl, rfl, rfl, rfl, rfl⟩

theorem beside_outcome {m₀ : Modem} (q : Nat) (completed : Option Bool) :
    Triple (Beside m₀) (outcome q completed) (Returns fun _ => Beside m₀) := fun _ hm => { hm with }

/-- An INFO has been taken in: the flags and their metrics follow it. -/
structure Informed (info : Info) (m m' : Modem) : Prop where
  same : m' = { m with
    bootId := some info.bootId, handshakeComplete := true, radioReady := decide (info.radioReady ≠ 0)
    metrics := m'.metrics }
  connected : m'.metrics .modemConnected = 1
  handshake : m'.metrics .modemHandshakeComplete = 1
  radioReady : m'.metrics .modemRadioReady = if decide (info.radioReady ≠ 0) = true then 1 else 0

theorem handleInfo_informed {m₀ : Modem} {payload : Bytes} {info : Info} (h : parseInfo payload = some info) :
    Triple (fun t => t = m₀) (handleInfo payload) (Returns fun ok m => ok = true ∧ Informed info m₀ m) := by
  rw [handleInfo, h]
  refine Triple.get_bind fun m₁ _ => ?_
  refine Triple.seq (R := fun _ t => ∃ M, t = { m₀ with metrics := M }) ?_ fun _ => ?_
  · refine Triple.when (fun _ => ?_) fun _ t ht => ⟨_, ht⟩
    rintro _ rfl
    exact ⟨_, rfl⟩
  · rintro _ ⟨M, rfl⟩
    refine ⟨rfl, rfl, rfl, rfl, ?_⟩
    by_cases hr : info.radioReady = 0
    · simp [hr]
      rfl
    · simp [hr]
      rfl

section Closing

variable {typ : Nat} {t : ℚ}

theorem popKey_pending (hp : m.pending = [(f.sequence, typ, t)]) : popKey m.pending f.sequence = [] := by
  rw [hp]
  exact popKey_single _ _

theorem lookup_single (hp : m.pending = [(f.sequence, typ, t)]) : m.pending.lookup f.sequence = some (typ, t) := by
  rw [hp]
  exact List.lookup_cons_self

/-- The request that the frame answers leaves the table. -/
theorem popPending_beside (hp : m.pending = [(f.sequence, typ, t)]) :
    Triple (fun s => s = counted f m) (popPending f.sequence)
      (Returns fun _ => Beside { counted f m with pending := [] }) := by
  rintro _ rfl
  exact { Beside.refl _ with pending := popKey_pending hp }

/-- Only in the first phase does a HELLO wait. -/
theorem Phase.hello (h : Phase H m) (hp : m.pending = [(f.sequence, Msg.hello, t)]) :
    m.connected = true ∧ f.sequence = 1 ∧ m.timedOutRadio = [] ∧ infos m.session H = [] := by
  cases h with
  | down _ _ _ hpending _ => rw [hpending] at hp; cases hp
  | greeting t' hconnected _ _ hpending hlate hinfos =>
    rw [hpending] at hp
    simp only [List.cons.injEq, Prod.mk.injEq] at hp
    exact ⟨hconnected, hp.1.1.symm, hlate, hinfos⟩
  | serving info rest _ _ _ _ hwaits _ _ =>
    rcases hwaits with hnone | ⟨typ, t', hsome, htyp⟩
    · rw [hnone] at hp
      cases hp
    · rw [hsome] at hp
      simp only [List.cons.injEq, Prod.mk.injEq] at hp
      rw [hp.1.2.1] at htyp
      exact absurd htyp (by decide)

/-- The INFO that answers the HELLO opens the session. -/
theorem Informed.stands (h : Stands H m) (hs : f.session = m.session) (hp : m.pending = [(f.sequence, Msg.hello, t)])
    (ht : f.msgType = Msg.info) {info : Info} (hinfo : parseInfo f.payload = some info) {m' : Modem}
    (hm : Informed info (counted f m) m') : Stands H { m' with pending := popKey m'.pending f.sequence } := by
  obtain ⟨hconnected, hq, hlate, hinfos⟩ := h.1.hello hp
  have hupconnected := congrArg Modem.connected hm.same
  have huphandshake := congrArg Modem.handshakeComplete hm.same
  have hupready := congrArg Modem.radioReady hm.same
  have hupsession := congrArg Modem.session hm.same
  have huppending := congrArg Modem.pending hm.same
  have huplate := congrArg Modem.timedOutRadio hm.same
  have huplog := congrArg Modem.log hm.same
  have hnone : popKey m'.pending f.sequence = [] := by
    rw [huppending]
    exact popKey_pending hp
  have hfirst : infos m.session (H ++ (m.log ++ [.frame f])) = [info] := by
    rw [← List.append_assoc, infos_frame, hinfos, infoOf, if_pos ⟨hs, ht, hq⟩, hinfo]
    rfl
  refine ⟨.serving info [] (hupconnected.trans hconnected) huphandshake hupready ?_ (Or.inl hnone) ?_ ?_, ?_, ?_, ?_⟩
  · show infos m'.session (H ++ m'.log) = _
    rw [hupsession, huplog]
    exact hfirst
  · have hempty : m'.timedOutRadio = [] := huplate.trans hlate
    refine ⟨?_, ?_, ?_, ?_⟩
    · show m'.timedOutRadio.length ≤ _
      rw [hempty]
      exact Nat.zero_le _
    all_goals
      intro p hmem
      replace hmem : p ∈ m'.timedOutRadio := hmem
      rw [hempty] at hmem
      cases hmem
  · intro q t' hmem
    replace hmem : (q, Msg.radioSend, t') ∈ popKey m'.pending f.sequence := hmem
    rw [hnone] at hmem
    cases hmem
  · show m'.metrics _ = if m'.connected then 1 else 0
    rw [hm.connected, hupconnected]
    exact (if_pos hconnected).symm
  · show m'.metrics _ = if m'.handshakeComplete then 1 else 0
    rw [hm.handshake, huphandshake]
    rfl
  · show m'.metrics _ = if m'.radioReady then 1 else 0
    rw [hm.radioReady, hupready]

theorem handleInfoFrame_stands (h : Stands H m) (hs : f.session = m.session)
    (hp : m.pending = [(f.sequence, Msg.hello, t)]) (ht : f.msgType = Msg.info) :
    Triple (fun s => s = counted f m) (handleInfoFrame f.sequence f.payload) (Returns fun _ => Stands H) := by
  refine Triple.get_bind fun m' hm => ?_
  subst hm
  rw [counted_pending]
  rw [lookup_single hp]
  refine Triple.ite (fun hne => absurd rfl hne) fun _ => ?_
  cases hinfo : parseInfo f.payload with
  | some info =>
    refine (handleInfo_informed hinfo).seq fun ok => Triple.assume fun hok => ?_
    rw [if_pos hok]
    exact Triple.modify fun m' hm => hm.stands h hs hp ht hinfo
  | none =>
    refine Triple.seq (R := fun ok m' => ok = false ∧ Beside (counted f m) m') ?_ fun ok => Triple.assume fun hok => ?_
    · rw [handleInfo, hinfo]
      refine Triple.seq (R := fun _ => Beside (counted f m)) ?_ fun _ m' hm => ⟨rfl, hm⟩
      exact (beside_add rfl 1).pre fun m' hm => hm ▸ Beside.refl _
    · rw [hok, if_neg (by decide)]
      have hplugged := (h.2.plugged (h.1.hello hp).1).counted (f := f)
      exact (beside_add rfl 1).seq fun _ => restartHostSession_stands.pre fun _ hm => hplugged.beside hm

/-- A frame that settles a request after the HELLO. -/
theorem settled_stands (h : Stands H m) (hopen : m.handshakeComplete = true) :
    Stands H { counted f m with pending := [] } :=
  ⟨(h.counted hopen).1.settled hopen, (h.counted (f := f) hopen).2.flags rfl rfl rfl fun _ _ => rfl⟩

theorem handleTxResult_stands (h : Stands H m) (hopen : m.handshakeComplete = true)
    (hp : m.pending = [(f.sequence, Msg.radioSend, t)]) :
    Triple (fun s => s = counted f m) (handleTxResult f.sequence f.payload) (Returns fun _ => Stands H) := by
  refine Triple.get_bind fun m' hm => ?_
  subst hm
  rw [counted_pending]
  rw [lookup_single hp]
  refine Triple.ite (fun hne => absurd rfl hne) fun _ => ?_
  have hend : ∀ (completed : Bool) (name : Metric), IsGauge name = false →
      Triple (fun s => s = counted f m) (do
        popPending f.sequence
        outcome f.sequence (some completed)
        add name : Op Unit) (Returns fun _ => Stands H) := fun completed name hname =>
    (popPending_beside hp).seq fun _ => (beside_outcome _ _).seq fun _ =>
      (beside_add hname 1).mono fun _ m' hm => (settled_stands h hopen).beside hm
  exact Triple.ite (fun _ => hend false _ rfl) fun _ => hend true _ rfl

theorem handleDiagnosticsFrame_stands (h : Stands H m) (hopen : m.handshakeComplete = true)
    (hp : m.pending = [(f.sequence, Msg.getDiagnostics, t)]) :
    Triple (fun s => s = counted f m) (handleDiagnosticsFrame f.sequence f.payload) (Returns fun _ => Stands H) := by
  refine Triple.get_bind fun m' hm => ?_
  subst hm
  rw [counted_pending]
  rw [lookup_single hp]
  refine Triple.ite (fun hne => absurd rfl hne) fun _ => ?_
  refine (popPending_beside hp).seq fun _ => ?_
  rw [handleDiagnostics]
  cases parseDiagnostics f.payload with
  | none => exact (beside_add rfl 1).mono fun _ m' hm => (settled_stands h hopen).beside hm
  | some values =>
    have hnames : ∀ p ∈ diagnosticNames.zip values, IsGauge p.1 = false := fun p hp => by
      have hname : p.1 ∈ diagnosticNames := (List.of_mem_zip hp).1
      revert hname
      generalize p.1 = name
      cases name <;> decide
    exact (Triple.forEach fun p hp => beside_set (hnames p hp) p.2).mono fun _ m' hm => (settled_stands h hopen).beside hm

theorem handleError_stands (h : Stands H m) (hplugged : Plugged m)
    (hopen : m.handshakeComplete = true ∨ typ = Msg.hello) (hp : m.pending = [(f.sequence, typ, t)]) {code : Nat}
    {detail : Int} (hparse : parseError f.payload = some (code, detail, typ)) :
    Triple (fun s => s = counted f m) (handleError f.sequence f.payload) (Returns fun _ => Stands H) := by
  refine Triple.get_bind fun m' hm => ?_
  subst hm
  rw [counted_pending]
  rw [lookup_single hp, hparse]
  refine Triple.ite (fun hne => absurd rfl hne) fun _ => ?_
  have hplugged' : Plugged { counted f m with pending := [] } := hplugged.counted (f := f)
  refine (popPending_beside hp).seq fun _ => (beside_add rfl 1).seq fun _ => ?_
  refine (Triple.when (fun _ => beside_outcome _ _) fun _ _ h => h).seq fun _ => ?_
  have hrestart : ∀ name, IsGauge name = false → Triple (Beside { counted f m with pending := [] }) (do
      add name
      restartHostSession : Op Unit) (Returns fun _ => Stands H) := fun name hname =>
    (beside_add hname 1).seq fun _ => restartHostSession_stands.pre fun _ hm => hplugged'.beside hm
  refine Triple.ite (fun _ => hrestart _ rfl) fun hne => Triple.ite (fun _ => hrestart _ rfl) fun _ m' hm => ?_
  exact (settled_stands h (hopen.resolve_right hne)).beside hm

end Closing

/-- A frame that closes a request leaves the transport in a phase. -/
theorem handleFrame_closes (h : Stands H m) (hc : Closes m f) :
    Triple (fun s => s = m) (handleFrame f) (Returns fun _ => Stands H) := by
  obtain ⟨hs, typ, t, hlookup, ha⟩ := hc
  have hp := h.1.single hlookup
  have hopen : m.handshakeComplete = true ∨ typ = Msg.hello := by
    cases h.1 with
    | down _ _ _ hpending _ => rw [hpending] at hp; cases hp
    | greeting t' _ _ _ hpending _ _ =>
      rw [hpending] at hp
      simp only [List.cons.injEq, Prod.mk.injEq] at hp
      exact Or.inr hp.1.2.1.symm
    | serving info rest _ hhandshake _ _ _ _ _ => exact Or.inl hhandshake
  have hup : m.connected = true := by
    cases h.1 with
    | down _ _ _ hpending _ => rw [hpending] at hp; cases hp
    | greeting t' hconnected _ _ _ _ _ => exact hconnected
    | serving info rest hconnected _ _ _ _ _ _ => exact hconnected
  refine Triple.seq (R := fun _ t => t = { m with log := m.log ++ [.frame f] }) (by rintro _ rfl; exact rfl) fun _ => ?_
  refine Triple.seq (R := fun _ t => t = counted f m) (by rintro _ rfl; exact rfl) fun _ => ?_
  refine Triple.get_bind fun m' hm => ?_
  subst hm
  refine Triple.ite (fun hne => absurd hs hne) fun _ => ?_
  cases ha with
  | info ht =>
    rw [if_pos ht]
    exact handleInfoFrame_stands h hs hp ht
  | txResult ht =>
    rw [if_neg (by rw [ht]; decide), if_pos ht]
    exact handleTxResult_stands h (hopen.resolve_right (by decide)) hp
  | diagnostics ht =>
    rw [if_neg (by rw [ht]; decide), if_neg (by rw [ht]; decide), if_neg (by rw [ht]; decide), if_pos ht]
    exact handleDiagnosticsFrame_stands h (hopen.resolve_right (by decide)) hp
  | error code detail _ ht hparse =>
    rw [if_neg (by rw [ht]; decide), if_neg (by rw [ht]; decide), if_neg (by rw [ht]; decide),
      if_neg (by rw [ht]; decide), if_pos ht]
    exact handleError_stands h (h.2.plugged hup) hopen hp hparse

/-- Every frame leaves the transport in a phase. -/
theorem handleFrame_stands (f : Frame) : Triple (Stands H) (handleFrame f) (Returns fun _ => Stands H) := by
  intro m h
  by_cases hc : Closes m f
  · exact handleFrame_closes h hc m rfl
  · exact (handleFrame_ignores hc).mono (fun _ m' hm => h.ignores hc hm) m rfl

end LoraLink.Host.Modem
