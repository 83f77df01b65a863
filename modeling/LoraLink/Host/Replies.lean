import LoraLink.Host.Dispatch

/-!
# Every method keeps the phases

- `step_stands`: a call leaves the transport in a phase, for the history that its log ends;
- `reply_closes`: only the matching reply closes a request, in every state that a transport can reach.
-/

namespace LoraLink.Host.Modem

open LoraLink.Protocol Prog

variable {H : List Event} {m : Modem}

/-! ## Requests after the HELLO -/

/-- The session is open and no request waits. -/
def Idle (m : Modem) : Prop := m.handshakeComplete = true ∧ m.pending = []

/-- What a phase with an open session and no request says. -/
theorem Phase.idle (h : Phase H m) (hi : Idle m) : m.connected = true ∧ ∃ info rest,
    m.radioReady = decide (info.radioReady ≠ 0) ∧ infos m.session H = info :: rest ∧ Tombstones H m := by
  cases h with
  | down _ hhandshake _ _ _ => exact absurd hi.1 (by simp [hhandshake])
  | greeting t _ hhandshake _ _ _ _ => exact absurd hi.1 (by simp [hhandshake])
  | serving info rest hconnected _ hready hinfos _ hlate _ => exact ⟨hconnected, info, rest, hready, hinfos, hlate⟩

/-- A sequence was drawn for a request that could not be encoded. -/
theorem Phase.drawn (h : Phase H m) (hi : Idle m) : Phase H (drawn m) := by
  obtain ⟨hconnected, info, rest, hready, hinfos, hlate⟩ := h.idle hi
  refine .serving info rest hconnected hi.1 hready hinfos (Or.inl hi.2)
    { hlate with old := fun p hp => (hlate.old p hp).trans (Nat.le_succ _) } fun q t hq => ?_
  replace hq : (q, Msg.radioSend, t) ∈ m.pending := hq
  rw [hi.2] at hq
  cases hq

/-- A request waits. -/
theorem Stands.accepted (h : Stands H m) (hi : Idle m) {typ q : Nat} {m' : Modem} (ha : Accepted m typ q m')
    (htyp : typ = Msg.radioSend ∨ typ = Msg.getDiagnostics) : Stands H m' := by
  obtain ⟨hconnected, info, rest, hready, hinfos, hlate⟩ := h.1.idle hi
  obtain ⟨hq, ⟨t, hbeside⟩, hasked⟩ := ha
  have hsingle : m'.pending = [(q, typ, t)] := by
    rw [hbeside.pending]
    show setKey m.pending q (typ, t) = _
    rw [hi.2]
    rfl
  have hseq : m'.sequence = q := hbeside.sequence
  obtain ⟨E, hlog, hE⟩ := hbeside.log
  have hhistory : H ++ m'.log = (H ++ m.log) ++ E := by
    rw [hlog, List.append_assoc]
  have hlate' : Tombstones (H ++ m'.log) m' := by
    refine ⟨?_, fun p hp => ?_, fun p hp r hr => ?_, fun p hp => ?_⟩
    · rw [hbeside.late]
      exact hlate.few
    · rw [hbeside.late] at hp
      have := hlate.old p hp
      omega
    · rw [hbeside.late] at hp
      rw [hsingle, List.mem_singleton] at hr
      have := hlate.old p hp
      rw [hr]
      show p.1 < q
      omega
    · rw [hbeside.late] at hp
      rw [hbeside.session, hhistory]
      exact (hlate.asked p hp).plains hE
  refine ⟨.serving info rest (hbeside.connected.trans hconnected) (hbeside.handshake.trans hi.1)
    (hbeside.ready.trans hready) ?_ (Or.inr ⟨typ, t, ?_, htyp⟩) hlate' fun q' t' hmem => ?_, ?_⟩
  · rw [hbeside.session, hhistory, infos_plains _ _ hE]
    exact hinfos
  · rw [hseq]
    exact hsingle
  · rw [hsingle, List.mem_singleton] at hmem
    obtain ⟨rfl, rfl, rfl⟩ : q' = q ∧ Msg.radioSend = typ ∧ t' = t := by simpa using hmem
    rw [hbeside.session]
    exact hasked H
  · exact h.2.flags hbeside.connected hbeside.handshake hbeside.ready hbeside.gauges

/-- The end of a request that is made after the HELLO. -/
theorem request_stands {m₀ : Modem} (h : Stands H m₀) (hi : Idle m₀) {typ : Nat} (payload : Bytes)
    (htyp : typ = Msg.radioSend ∨ typ = Msg.getDiagnostics) :
    Triple (Beside m₀) (request typ payload) fun _ => Stands H := by
  refine (request_beside typ payload (h.1.idle hi).1).weaken (fun _ h => h) fun r m hr => ?_
  cases r with
  | ok q => exact h.accepted hi hr htyp
  | error e =>
    rcases hr with ⟨-, hlost⟩ | ⟨-, -, hbeside⟩ | ⟨-, -, hbeside⟩
    · exact hlost.stands
    · exact h.beside hbeside
    · have hdrawn : Stands H (drawn m₀) := ⟨h.1.drawn hi, h.2.flags rfl rfl rfl fun _ _ => rfl⟩
      exact hdrawn.beside hbeside

/-! ## Time -/

theorem stands_add {name : Metric} (hname : IsGauge name = false) (amount : Nat) :
    Triple (Stands H) (add name amount) (Returns fun _ => Stands H) := fun m h =>
  h.beside (beside_add hname amount m (Beside.refl m))

theorem stands_monotonic : Triple (Stands H) monotonic (Returns fun _ => Stands H) := fun m h =>
  h.beside (beside_monotonic m (Beside.refl m))

theorem stands_note {e : Event} (he : Plain e) : Triple (Stands H) (note e) (Returns fun _ => Stands H) := fun m h =>
  h.beside (beside_note he m (Beside.refl m))

theorem stands_outcome (q : Nat) (completed : Option Bool) :
    Triple (Stands H) (outcome q completed) (Returns fun _ => Stands H) := fun m h =>
  h.beside (beside_outcome q completed m (Beside.refl m))

theorem Stands.fewer (h : Stands H m) {late : List (Nat × ℚ)} (hlate : late.Sublist m.timedOutRadio) :
    Stands H { m with timedOutRadio := late } := ⟨h.1.fewer hlate, h.2.flags rfl rfl rfl fun _ _ => rfl⟩

theorem expireTimedOutRadio_stands (now : ℚ) :
    Triple (Stands H) (expireTimedOutRadio now) (Returns fun _ => Stands H) := by
  have hloop : ∀ l, Triple (fun m => Stands H m ∧ m.timedOutRadio = l) (expireLoop now l)
      (Returns fun _ => Stands H) := by
    intro l
    induction l with
    | nil => exact fun m h => h.1
    | cons p l ih =>
      refine Triple.ite (fun _ m h => h.1) fun _ => ?_
      refine Triple.seq (R := fun _ m => Stands H m ∧ m.timedOutRadio = l) (fun m h => ⟨h.1.fewer ?_, rfl⟩) fun _ => ?_
      · rw [h.2]
        exact List.sublist_cons_self _ _
      · exact Triple.seq (R := fun _ m => Stands H m ∧ m.timedOutRadio = l)
          (fun m h => ⟨stands_add rfl 1 m h.1, h.2⟩) fun _ => ih
  refine Triple.get_bind_eq fun m h => (hloop m.timedOutRadio).pre ?_
  rintro _ rfl
  exact ⟨h, rfl⟩

/-- A send has timed out: it is remembered, and the oldest are forgotten beyond the bound. -/
theorem rememberTimedOutRadio_stands {q : Nat} (now : ℚ) :
    Triple (fun m => Stands H m ∧ Idle m ∧ q ≤ m.sequence ∧ AskedSend m.session (H ++ m.log) q)
      (rememberTimedOutRadio q now) (Returns fun _ => Stands H) := by
  have hkeep : ∀ m : Modem, Stands H m ∧ Idle m ∧ q ≤ m.sequence ∧ AskedSend m.session (H ++ m.log) q →
      Stands H { m with
        timedOutRadio := (setKey m.timedOutRadio q now).drop
          ((setKey m.timedOutRadio q now).length - maxLateRadioResults) } := by
    intro m ⟨h, hi, hq, hasked⟩
    obtain ⟨hconnected, info, rest, hready, hinfos, hlate⟩ := h.1.idle hi
    have hmem : ∀ p ∈ (setKey m.timedOutRadio q now).drop ((setKey m.timedOutRadio q now).length - maxLateRadioResults),
        p = (q, now) ∨ p ∈ m.timedOutRadio := fun p hp => mem_of_mem_setKey (List.mem_of_mem_drop hp)
    refine ⟨.serving info rest hconnected hi.1 hready hinfos (Or.inl hi.2) ⟨?_, fun p hp => ?_, ?_, fun p hp => ?_⟩ ?_,
      h.2.flags rfl rfl rfl fun _ _ => rfl⟩
    · show (List.drop _ _).length ≤ _
      rw [List.length_drop]
      omega
    · rcases hmem p hp with rfl | hp
      · exact hq
      · exact hlate.old p hp
    · intro p _ r hr
      replace hr : r ∈ m.pending := hr
      rw [hi.2] at hr
      cases hr
    · rcases hmem p hp with rfl | hp
      · exact hasked
      · exact hlate.asked p hp
    · intro q' t hr
      replace hr : (q', Msg.radioSend, t) ∈ m.pending := hr
      rw [hi.2] at hr
      cases hr
  refine Triple.seq (R := fun _ m' => ∃ m, (Stands H m ∧ Idle m ∧ q ≤ m.sequence ∧ AskedSend m.session (H ++ m.log) q) ∧
    m' = { m with timedOutRadio := setKey m.timedOutRadio q now }) (fun m h => ⟨m, h, rfl⟩) fun _ => ?_
  refine Triple.get_bind_eq fun m' hm => ?_
  obtain ⟨m, h, rfl⟩ := hm
  refine Triple.seq (R := fun _ => Stands H) ?_ fun _ => stands_add rfl _
  rintro _ rfl
  exact hkeep m h

/-- The request that waits: a HELLO in the first phase, else the last request, and the history has the sends. -/
theorem Phase.table {q typ : Nat} {t : ℚ} (h : Phase H m) (hp : m.pending = [(q, typ, t)]) : m.connected = true ∧
    (typ = Msg.hello ∨ typ ≠ Msg.hello ∧ m.handshakeComplete = true ∧ q = m.sequence ∧
      (typ = Msg.radioSend → AskedSend m.session H q)) := by
  cases h with
  | down _ _ _ hpending _ => rw [hpending] at hp; cases hp
  | greeting t' hconnected _ _ hpending _ _ =>
    rw [hpending] at hp
    simp only [List.cons.injEq, Prod.mk.injEq] at hp
    exact ⟨hconnected, Or.inl hp.1.2.1.symm⟩
  | serving info rest hconnected hhandshake _ _ hwaits _ hasked =>
    rcases hwaits with hnone | ⟨typ', t', hsome, htyp⟩
    · rw [hnone] at hp
      cases hp
    · have hmem := hp.symm ▸ List.mem_singleton_self (q, typ, t)
      rw [hsome] at hp
      obtain ⟨rfl, rfl, rfl⟩ : m.sequence = q ∧ typ' = typ ∧ t' = t := by simpa using hp
      refine ⟨hconnected, Or.inr ⟨?_, hhandshake, rfl, ?_⟩⟩
      · rcases htyp with rfl | rfl <;> decide
      · rintro rfl
        exact hasked _ _ hmem

theorem Phase.pending_cases (h : Phase H m) : m.pending = [] ∨ ∃ q typ t, m.pending = [(q, typ, t)] := by
  cases h with
  | down _ _ _ hpending _ => exact Or.inl hpending
  | greeting t _ _ _ hpending _ _ => exact Or.inr ⟨_, _, t, hpending⟩
  | serving info rest _ _ _ _ hwaits _ _ =>
    rcases hwaits with hnone | ⟨typ, t, hsome, -⟩
    · exact Or.inl hnone
    · exact Or.inr ⟨_, typ, t, hsome⟩

theorem expirePending_stands (now : ℚ) (h : Stands H m) :
    Triple (fun t => t = m) (expirePending now m.pending) (Returns fun _ => Stands H) := by
  rcases h.1.pending_cases with hnone | ⟨q, typ, t, hp⟩
  · rw [hnone]
    rintro _ rfl
    exact h
  have hpop : Triple (fun t => t = m) (popPending q) (Returns fun _ t => t = { m with pending := [] }) := by
    intro t ht
    rw [ht]
    show ({ m with pending := popKey m.pending q } : Modem) = _
    rw [hp, popKey_single]
  obtain ⟨hconnected, htable⟩ := h.1.table hp
  have hsettled : m.handshakeComplete = true → Stands H { m with pending := [] } := fun hs =>
    ⟨h.1.settled hs, h.2.flags rfl rfl rfl fun _ _ => rfl⟩
  rw [hp]
  refine Triple.ite (fun _ => ?_) fun _ => ?_
  · refine Triple.ite (fun htyp => ?_) fun htyp => ?_
    · obtain ⟨-, hs, hq, hasked⟩ := htable.resolve_left (by rw [htyp]; decide)
      refine hpop.seq fun _ => Triple.seq (R := fun _ => Stands H) ?_ fun _ => ?_
      · refine (rememberTimedOutRadio_stands now).pre ?_
        rintro _ rfl
        exact ⟨hsettled hs, ⟨hs, rfl⟩, hq.le, hasked htyp⟩
      · exact (stands_outcome _ _).seq fun _ => (stands_add rfl 1).seq fun _ => (stands_add rfl 1).seq fun _ m h => h
    · refine hpop.seq fun _ => Triple.ite (fun hhello => ?_) fun hhello => ?_
      · refine Triple.seq (R := fun _ => Plugged) ((plugged_add rfl 1).pre ?_) fun _ => restartHostSession_stands
        intro t ht
        rw [ht]
        exact h.2.plugged hconnected
      · obtain ⟨-, hs, -, -⟩ := htable.resolve_left hhello
        refine Triple.seq (R := fun _ => Stands H) ((stands_add rfl 1).pre ?_) fun _ m h => h
        rintro _ rfl
        exact hsettled hs
  · rintro _ rfl
    exact h

theorem rotateBeforeSequenceWrap_stands {m₀ : Modem} (h : Stands H m₀) (hi : Idle m₀) :
    Triple (fun t => t = m₀) rotateBeforeSequenceWrap
      (Returns fun rotated t => Stands H t ∧ (rotated = false → t = m₀)) := by
  refine Triple.get_bind fun m hm => ?_
  subst hm
  refine Triple.ite (fun _ => ?_) fun _ => ?_
  · rintro _ rfl
    exact ⟨h, fun _ => rfl⟩
  · refine Triple.seq (R := fun _ => Plugged) ((plugged_add rfl 1).pre ?_) fun _ =>
      restartHostSession_stands.seq fun _ t ht => ⟨ht, fun hf => ?_⟩
    · intro t ht
      rw [ht]
      exact h.2.plugged (h.1.idle hi).1
    · cases hf

theorem pollDiagnostics_stands (idle : Bool) (now : ℚ) :
    Triple (Stands H) (pollDiagnostics idle now) fun _ => Stands H := by
  refine Triple.get_bind_eq fun m h => Triple.ite (fun hgo => ?_) fun _ => ?_
  · have hi : Idle m := ⟨hgo.1, hgo.2.1⟩
    refine (rotateBeforeSequenceWrap_stands h hi).seq fun rotated => ?_
    cases rotated with
    | true => exact fun t ht => ht.1
    | false =>
      have hdraw : ∀ t : Modem, Stands H t ∧ (false = false → t = m) → Beside m { t with lastDiagnostics := now } :=
        fun t ht => by
          rw [ht.2 rfl]
          exact { Beside.refl m with }
      refine (Triple.modify hdraw).seq fun _ => ?_
      refine Triple.tryCatch (R := fun _ => Stands H) ?_ (fun _ _ h => h) fun e => ?_
      · exact (request_stands h hi [] (Or.inr rfl)).bind (fun _ m h => h) fun _ _ h => h
      · exact Triple.ite (fun _ m h => h) fun _ m h => h
  · rintro _ rfl
    exact h

/-! ## The methods -/

/-- The metric of `ready_for_send` shows it. -/
def ShowsReady (m : Modem) : Prop := m.metrics .modemReadyForSend = if m.readyForSend then 1 else 0

/-- The end of `tick`. -/
def Ticked (H : List Event) : Except Exn (List Bytes) → Modem → Prop
  | .ok _, m => Stands H m ∧ ShowsReady m
  | .error _, m => Stands H m

/-- What the last lines of `tick` set is what the fields say. -/
theorem tickEnd_stands : Triple (Stands H) (do
    let m ← get
    set .modemConnected (if m.connected then 1 else 0)
    set .modemHandshakeComplete (if m.handshakeComplete then 1 else 0)
    set .modemReadyForSend (if m.readyForSend then 1 else 0)
    let events := (← get).received
    modify fun m => { m with received := [] }
    return events : Op (List Bytes)) (Ticked H) := by
  refine Triple.get_bind_eq fun m h => ?_
  have hcast : ∀ b : Bool, ((if b then 1 else 0 : Nat) : Int) = if b then 1 else 0 := fun b => by cases b <;> rfl
  intro t ht
  rw [ht]
  refine ⟨⟨h.1.alike ⟨rfl, rfl, rfl, rfl, rfl, rfl, rfl⟩, ?_, ?_, h.2.radioReady⟩, ?_⟩
  · exact hcast m.connected
  · exact hcast m.handshakeComplete
  · exact hcast m.readyForSend

theorem tickRead_stands (idle : Bool) (raw : Bytes) : Triple (Stands H) (tickRead idle raw) (Ticked H) := by
  refine (Triple.when (fun _ => stands_add rfl _) fun _ m h => h).seq fun _ => ?_
  refine Triple.get_bind fun m _ => ?_
  refine Triple.seq (R := fun _ => Stands H)
    (fun m h => ⟨h.1.alike ⟨rfl, rfl, rfl, rfl, rfl, rfl, rfl⟩, h.2.flags rfl rfl rfl fun _ _ => rfl⟩) fun _ => ?_
  refine (Triple.forEach fun f _ => handleFrame_stands f).seq fun _ => stands_monotonic.seq fun now => ?_
  refine (expireTimedOutRadio_stands now).seq fun _ => (stands_note (e := .deadline now) trivial).seq fun _ => ?_
  refine Triple.get_bind_eq fun m h => (expirePending_stands now h).seq fun _ => ?_
  exact (pollDiagnostics_stands idle now).bind (fun _ => tickEnd_stands) fun _ _ h => h

theorem tick_stands (idle : Bool) : Triple (Stands H) (tick idle) (Ticked H) := by
  have hdown : ∀ m : Modem, m.connected = false → m.readyForSend = false := fun m hm => by
    simp [readyForSend, hm]
  refine openSerial_stands.seq fun _ => Triple.get_bind_eq fun m h => Triple.ite (fun hc => ?_) fun _ => ?_
  · intro t ht
    rw [ht]
    refine ⟨h.beside (beside_set rfl 0 m (Beside.refl m)), ?_⟩
    show (0 : Int) = if m.readyForSend = true then 1 else 0
    rw [hdown m hc]
    rfl
  · refine Triple.get_bind_eq fun m' hm => ?_
    subst hm
    cases m'.io.read with
    | none =>
      have hlost : Triple (fun t => t = m') (do
          add .usbReadFailures
          disconnect : Op Unit) (Returns fun _ => Lost) :=
        Triple.seq (R := fun _ _ => True) (fun _ _ => trivial) fun _ => disconnect_lost
      refine hlost.seq fun _ t ht => ?_
      have hready : t.metrics .modemReadyForSend = if t.readyForSend = true then 1 else 0 := by
        rw [hdown t ht.connected]
        exact ht.notReady
      exact ⟨ht.stands, hready⟩
    | some raw =>
      refine (tickRead_stands idle raw).pre ?_
      rintro _ rfl
      exact h

theorem sendAir_stands (payload : Bytes) : Triple (Stands H) (sendAir payload) fun _ => Stands H := by
  refine Triple.get_bind_eq fun m h => Triple.ite (fun _ => ?_) fun hready => ?_
  · refine Triple.seq (R := fun _ => Stands H) ((stands_add rfl 1).pre ?_) fun _ m h => h
    rintro _ rfl
    exact h
  · have hi : Idle m := by
      have hall : m.connected = true ∧ m.handshakeComplete = true ∧ m.radioReady = true ∧ m.pending = [] := by
        simpa [readyForSend, and_assoc] using hready
      exact ⟨hall.2.1, hall.2.2.2⟩
    refine (rotateBeforeSequenceWrap_stands h hi).seq fun rotated => ?_
    cases rotated with
    | true => exact Triple.seq (R := fun _ => Stands H) ((stands_add rfl 1).pre fun _ ht => ht.1) fun _ m h => h
    | false =>
      refine Triple.seq (R := fun _ => Beside m) ((beside_add rfl 1).pre fun t ht => ?_) fun _ =>
        (beside_add rfl payload.length).seq fun _ => ?_
      · rw [ht.2 rfl]
        exact Beside.refl m
      · refine Triple.tryCatch (R := fun _ => Stands H) ?_ (fun _ _ h => h) fun e => ?_
        · exact (request_stands h hi payload (Or.inl rfl)).bind (fun _ m h => h) fun _ _ h => h
        · exact Triple.ite (fun _ => (stands_add rfl 1).seq fun _ m h => h) fun _ m h => h

theorem close_stands : Triple (Stands H) close fun _ => Stands H := by
  refine Triple.seq (R := fun _ => Lost) (disconnect_lost.pre fun _ _ => trivial) fun _ m hl => ?_
  have hset : m.metrics.set .modemConnected 0 = m.metrics := by
    funext n
    rw [Metrics.set_apply]
    split
    · rename_i hn
      rw [hn, hl.gauges.connected, hl.connected]
      rfl
    · rfl
  exact Lost.stands (m := { m with metrics := m.metrics.set .modemConnected 0 }) (by rw [hset]; exact hl)

theorem Stands.enter (h : Stands H m) (io : Io) : Stands (H ++ m.log) (m.enter io) :=
  ⟨by simpa [Modem.enter] using h.1.alike (show Alike m (m.enter io) from ⟨rfl, rfl, rfl, rfl, rfl, rfl, rfl⟩),
    h.2.flags rfl rfl rfl fun _ _ => rfl⟩

theorem Stands.leave (h : Stands H m) {e : Event} (he : Plain e) : Stands H (m.leave [e]) :=
  h.beside { Beside.refl m with log := ⟨[e], rfl, by simpa using he⟩ }

/-- A call keeps the phases, and a `tick` that returns shows whether it is ready to send. -/
theorem step_stands (h : Stands H m) (i : Input) : Stands (H ++ m.log) (step i m) ∧
    ∀ io idle events, i = .tick io idle → (tick idle (m.enter io)).1 = .ok events → ShowsReady (step i m) := by
  cases i with
  | sendAir io payload =>
    have hs := sendAir_stands payload (m.enter io) (h.enter io)
    refine ⟨?_, fun _ _ _ hi => by cases hi⟩
    rw [step]
    rcases hsent : sendAir payload (m.enter io) with ⟨r, m'⟩
    rw [hsent] at hs
    cases r with
    | ok sent =>
      cases sent with
      | some q => exact hs.leave trivial
      | none => exact hs.leave trivial
    | error e => exact hs.leave trivial
  | tick io idle =>
    have hs := tick_stands idle (m.enter io) (h.enter io)
    rw [step]
    rcases hres : tick idle (m.enter io) with ⟨r, m'⟩
    rw [hres] at hs
    cases r with
    | ok events => exact ⟨hs.1.leave trivial, fun _ _ _ _ _ => hs.2⟩
    | error e =>
      refine ⟨Stands.leave hs trivial, fun io' idle' events hi hok => ?_⟩
      cases hi
      rw [hres] at hok
      cases hok
  | takeTxOutcomes =>
    refine ⟨?_, fun _ _ _ hi => by cases hi⟩
    have hs : Stands (H ++ m.log) { m.enter m.io with txOutcomes := [] } :=
      (h.enter m.io).beside { Beside.refl (m.enter m.io) with }
    exact hs.leave (e := .took m.txOutcomes) trivial
  | close io =>
    have hs := close_stands (m.enter io) (h.enter io)
    refine ⟨?_, fun _ _ _ hi => by cases hi⟩
    rw [step]
    rcases hclosed : close (m.enter io) with ⟨r, m'⟩
    rw [hclosed] at hs
    cases r with
    | ok _ => exact hs
    | error e => exact hs.leave trivial

theorem init_stands (draw : Nat) (reconnectSeconds : ℚ) : Stands [] (init draw reconnectSeconds) :=
  ⟨.down rfl rfl rfl rfl rfl, ⟨rfl, rfl, rfl⟩⟩

/-! ## Only the matching reply closes a request -/

/-- The states that a transport can reach, between two calls and inside a `tick`: its port has been opened, bytes have
been read, some of the frames in them and some of the deadlines have been handled. `H` is the history up to the
present call, whose events are in the log. -/
inductive Reached : List Event → Modem → Prop
  | init (draw : Nat) (reconnectSeconds : ℚ) : Reached [] (init draw reconnectSeconds)
  | call {H : List Event} {m : Modem} (i : Input) (h : Reached H m) : Reached (H ++ m.log) (step i m)
  | opened {H : List Event} {m : Modem} (io : Io) (h : Reached H m) :
      Reached (H ++ m.log) (openSerial (m.enter io)).2
  | read {H : List Event} {m : Modem} (amount : Nat) (decoder : StreamDecoder) (h : Reached H m) :
      Reached H { m with metrics := m.metrics.add .hostUsbBytesReceived amount, decoder := decoder }
  | frame {H : List Event} {m : Modem} (f : Frame) (h : Reached H m) : Reached H (handleFrame f m).2
  | expired {H : List Event} {m : Modem} (now : ℚ) (h : Reached H m) : Reached H (expireTimedOutRadio now m).2
  | deadline {H : List Event} {m : Modem} (now : ℚ) (h : Reached H m) :
      Reached H (expirePending now m.pending { m with log := m.log ++ [.deadline now] }).2

theorem Reached.stands (h : Reached H m) : Stands H m := by
  -- a program that keeps the phases and returns ends in a phase
  have hend : ∀ {P : Modem → Prop} {x : Op Unit} {H : List Event}, Triple P x (Returns fun _ => Stands H) → ∀ m, P m →
      Stands H (x m).2 := fun {P x H} hx m hm => by
    obtain ⟨_, m', heq, hstands⟩ := hx.ends hm
    rw [heq]
    exact hstands
  induction h with
  | init draw reconnectSeconds => exact init_stands draw reconnectSeconds
  | call i _ ih => exact (step_stands ih i).1
  | opened io _ ih => exact hend openSerial_stands _ (ih.enter io)
  | read amount decoder _ ih =>
    exact (ih.beside (beside_add rfl amount _ (Beside.refl _))).beside { Beside.refl _ with }
  | frame f _ ih => exact hend (handleFrame_stands f) _ ih
  | expired now _ ih => exact hend (expireTimedOutRadio_stands now) _ ih
  | deadline now _ ih =>
    exact hend (expirePending_stands now (ih.beside (beside_note (e := .deadline now) trivial _ (Beside.refl _)))) _ rfl

/-- The sends that timed out, in every phase. -/
theorem Phase.tombstones (h : Phase H m) : Tombstones H m := by
  cases h with
  | down _ _ _ _ hlate => exact ⟨by simp [hlate], by simp [hlate], by simp [hlate], by simp [hlate]⟩
  | greeting _ _ _ _ _ hlate _ => exact ⟨by simp [hlate], by simp [hlate], by simp [hlate], by simp [hlate]⟩
  | serving _ _ _ _ _ _ _ hlate _ => exact hlate

/-- A malformed INFO for the HELLO that waits begins a new session. -/
theorem handleFrame_malformed {f : Frame} (hs : f.session = m.session) (ht : f.msgType = Msg.info) {t : ℚ}
    (hp : m.pending = [(f.sequence, Msg.hello, t)]) (hparse : parseInfo f.payload = none) :
    Triple (fun t => t = m) (handleFrame f) fun _ t =>
      ∃ M, t = (restartHostSession { m with metrics := M, log := m.log ++ [.frame f] }).2 := by
  let Counted : Modem → Prop := fun t => ∃ M, t = { m with metrics := M, log := m.log ++ [.frame f] }
  have hadd : ∀ name, Triple Counted (add name) (Returns fun _ => Counted) := by
    rintro name _ ⟨M, rfl⟩
    exact ⟨_, rfl⟩
  refine Triple.seq (R := fun _ => Counted) (by rintro _ rfl; exact ⟨_, rfl⟩) fun _ => (hadd _).seq fun _ => ?_
  refine Triple.get_bind fun m₁ hm₁ => ?_
  obtain ⟨M₁, rfl⟩ := hm₁
  rw [if_neg (not_not.mpr hs), if_pos ht]
  refine Triple.get_bind fun m₂ hm₂ => ?_
  obtain ⟨M₂, rfl⟩ := hm₂
  rw [show Modem.pending _ = m.pending from rfl]
  rw [lookup_single hp]
  refine Triple.ite (fun hne => absurd rfl hne) fun _ => ?_
  refine Triple.seq (R := fun ok t => ok = false ∧ Counted t) ?_ fun ok => Triple.assume fun hok => ?_
  · rw [handleInfo, hparse]
    exact (hadd _).seq fun _ t ht => ⟨rfl, ht⟩
  · rw [hok, if_neg (by decide)]
    refine (hadd _).seq fun _ t ht => ?_
    obtain ⟨M, rfl⟩ := ht
    exact ⟨M, rfl⟩

/-- A send that timed out does not wait. -/
theorem Tombstones.lookup (h : Tombstones H m) {p : Nat × ℚ} (hp : p ∈ m.timedOutRadio) :
    m.pending.lookup p.1 = none := by
  refine lookup_eq_none.mpr fun hmem => ?_
  obtain ⟨r, hr, heq⟩ := List.mem_map.mp hmem
  have := h.apart p hp r hr
  omega

/-- Only the matching reply closes a request; every other frame is ignored, and a late reply changes at most the list
of the sends that timed out, which are of this session and do not wait. -/
theorem reply_closes (h : Reached H m) :
    (∀ p ∈ m.timedOutRadio, m.pending.lookup p.1 = none ∧ AskedSend m.session (H ++ m.log) p.1) ∧
    m.timedOutRadio.length ≤ maxLateRadioResults ∧
    (m.connected = true → ∀ f : Frame,
      (∀ q typ t, (q, typ, t) ∈ m.pending → (q, typ, t) ∉ (handleFrame f m).2.pending →
        f.session = m.session ∧ f.sequence = q ∧ Answers f typ) ∧
      (∀ t, f.session = m.session → f.msgType = Msg.info → (f.sequence, Msg.hello, t) ∈ m.pending →
        parseInfo f.payload = none →
        ∃ M, (handleFrame f m).2 = (restartHostSession { m with metrics := M, log := m.log ++ [.frame f] }).2) ∧
      (¬ Closes m f → Ignores f m (handleFrame f m).2) ∧
      (f.session = m.session → f.sequence ∈ m.timedOutRadio.map Prod.fst →
        f.msgType = Msg.radioTxResult ∨ f.msgType = Msg.error →
        ∃ M late, late.Sublist m.timedOutRadio ∧
          (handleFrame f m).2 = { m with timedOutRadio := late, metrics := M, log := m.log ++ [.frame f] })) := by
  have hphase := h.stands.1
  have hlate := hphase.tombstones
  refine ⟨fun p hp => ⟨hlate.lookup hp, hlate.asked p hp⟩, hlate.few, fun hup f => ?_⟩
  have hignores : ¬ Closes m f → Ignores f m (handleFrame f m).2 := fun hno => by
    obtain ⟨_, m', heq, hignores⟩ := (handleFrame_ignores hno).ends rfl
    rw [heq]
    exact hignores
  have hsingle : ∀ {q typ t}, (q, typ, t) ∈ m.pending → m.pending = [(q, typ, t)] := fun {q typ t} hmem => by
    rcases hphase.pending_cases with hnone | ⟨q', typ', t', hp⟩
    · rw [hnone] at hmem
      cases hmem
    · rw [hp, List.mem_singleton] at hmem
      rw [hp, hmem]
  refine ⟨fun q typ t hmem hgone => ?_, fun t hs ht hmem hparse => ?_, hignores, fun hs hmem ht => ?_⟩
  · have hc : Closes m f := by
      by_contra hno
      have hpending := (hignores hno).alike.pending
      exact hgone (hpending ▸ hmem)
    obtain ⟨hs, typ', t', hlookup, ha⟩ := hc
    have heq := (hsingle hmem).symm.trans (hphase.single hlookup)
    simp only [List.cons.injEq, Prod.mk.injEq] at heq
    exact ⟨hs, heq.1.1.symm, heq.1.2.1 ▸ ha⟩
  · exact handleFrame_malformed hs ht (hsingle hmem) hparse m rfl
  · obtain ⟨p, hp, hq⟩ := List.mem_map.mp hmem
    have hno : ¬ Closes m f := fun ⟨_, typ, t, hlookup, _⟩ => by
      have hnone := hlate.lookup hp
      rw [hq, hlookup] at hnone
      cases hnone
    have hi := hignores hno
    have hne : f.msgType ≠ Msg.radioRx := by rcases ht with ht | ht <;> rw [ht] <;> decide
    obtain ⟨hreceived, hlast, hio⟩ := hi.noPacket hne
    refine ⟨(handleFrame f m).2.metrics, (handleFrame f m).2.timedOutRadio, ?_, hi.same.trans ?_⟩
    · rcases hi.late with h | h
      · rw [h]
      · rw [h]
        exact List.filter_sublist
    · rw [hreceived, hlast, hio]

/-- A port that takes the zero byte and the HELLO. -/
def greetingIo : Io := { writes := [.wrote 1, .wrote 20] }

/-- The transport waits for the INFO. -/
def greetingModem : Modem := (openSerial ((init 0 1).enter greetingIo)).2

/-- Diagnostics that nobody asked for do not close the HELLO. -/
theorem reply_closes_hello : greetingModem.connected = true ∧ greetingModem.pending.map Prod.fst = [1] ∧
    ∀ payload, (handleFrame ⟨Msg.diagnostics, greetingModem.session, 1, payload⟩ greetingModem).2.pending =
      greetingModem.pending := by
  have hup : greetingModem.connected = true := by decide +kernel
  have hlookup : (greetingModem.pending.lookup 1).map Prod.fst = some Msg.hello := by decide +kernel
  refine ⟨hup, by decide +kernel, fun payload => ?_⟩
  have hreached : Reached _ greetingModem := .opened greetingIo (.init 0 1)
  generalize greetingModem = m at hup hlookup hreached ⊢
  have hall := (reply_closes hreached).2.2 hup ⟨Msg.diagnostics, m.session, 1, payload⟩
  refine (hall.2.2.1 fun ⟨_, typ, t, hp, ha⟩ => ?_).alike.pending
  obtain rfl : typ = Msg.hello := by
    rw [show List.lookup 1 m.pending = some (typ, t) from hp] at hlookup
    simpa using hlookup
  generalize hm : Msg.hello = typ at ha
  cases ha with
  | info h => exact absurd h (show Msg.diagnostics ≠ Msg.info by decide)
  | txResult _ => exact absurd hm (by decide)
  | diagnostics _ => exact absurd hm (by decide)
  | error _ _ _ h _ => exact absurd h (show Msg.diagnostics ≠ Msg.error by decide)

end LoraLink.Host.Modem
