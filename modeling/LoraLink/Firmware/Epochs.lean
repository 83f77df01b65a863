import LoraLink.Firmware.Contract

/-!
# Transmissions and the epochs of the sessions

An epoch lasts from one reset of the session to the next. `Epoch` is what the calls say about the current one, and
`Timely` ties it to the state, in every run and for every order of session values.

- `transmission_discipline`: what goes on air, and that it does so once and alone;
- `result_epoch_iff`: the results of a run all belong to the epoch they are offered in exactly when no transmission
  ends in a later epoch of its own session value.
-/

namespace LoraLink.Firmware

/-- What has happened since the last reset of the session: its value, the requests accepted, and whether the
transmitter was started for the last of them. -/
structure Epoch where
  session : Option Nat := none
  accepted : List Bytes := []
  aired : Bool := false

def Epoch.note (e : Epoch) : Call → Epoch
  | .resetSession ses => { session := some ses }
  | .saveReq b => { e with accepted := e.accepted ++ [b], aired := false }
  | .startTransmit _ _ => { e with aired := true }
  | _ => e

/-- The epoch that a history of calls is in. -/
def epoch (H : List Call) : Epoch := H.foldl Epoch.note {}

theorem epoch_append (H calls : List Call) : epoch (H ++ calls) = calls.foldl Epoch.note (epoch H) := List.foldl_append

/-- The epoch and the state belong together. -/
structure Timely (e : Epoch) (s : Core) : Prop where
  coherent : Coherent s
  session : s.active = true → e.session = some s.session
  last : s.active = true → e.accepted.getLast? = some s.lastReq
  seqs : ∀ b ∈ e.accepted, sessionOf b = s.session ∧ seqOf b ≤ s.lastSeq
  air : e.aired = true → s.rs = .transmitting → s.pending = true
  waiting : s.pending = true → e.aired = true ∧ IsSend s.lastReq

theorem Timely.accept {e : Epoch} {s : Core} {b : Bytes} (hs : Timely e s) (hf : Fresh s b) :
    ∀ c ∈ e.accepted ++ [b], sessionOf c = s.session ∧ seqOf c ≤ seqOf b := by
  intro c hc
  rcases List.mem_append.mp hc with hc | hc
  · obtain ⟨hses, hseq⟩ := hs.seqs c hc
    exact ⟨hses, Nat.le_of_lt (Nat.lt_of_le_of_lt hseq hf.newer)⟩
  · rw [List.mem_singleton] at hc
    rw [hc]
    exact ⟨hf.session, Nat.le_refl _⟩

theorem Handled.timely {e : Epoch} {s s' : Core} {b : Bytes} {calls : List Call} (h : Handled s b calls s')
    (hs : Timely e s) : Timely (calls.foldl Epoch.note e) s' := by
  have hco := h.coherent hs.coherent
  cases h with
  | ignored | refused | replayed => exact { hs with }
  | opened => exact ⟨hco, fun _ => rfl, fun _ => rfl, by simp [Epoch.note, Core.cache, Core.accept, Core.reset],
      by simp [Epoch.note], by simp [Core.cache, Core.accept, Core.reset]⟩
  | answered hf => exact ⟨hco, hs.session, fun _ => List.getLast?_concat, hs.accept hf, by simp [Epoch.note],
      fun hp => Bool.noConfusion (hf.idle.symm.trans hp)⟩
  | failed hf hgo _ hrs => exact ⟨hco, hs.session, fun _ => List.getLast?_concat, hs.accept hf,
      fun _ hair => absurd hair hrs, by simp [Core.cache, Core.settle]⟩
  | started hf hgo => exact ⟨hco, hs.session, fun _ => List.getLast?_concat, hs.accept hf, fun _ _ => rfl,
      fun _ => ⟨rfl, hgo.send⟩⟩

/-- The end of a transmission and the calls of the quiet steps say nothing about the epoch. -/
theorem Ended.note {e : Epoch} {s s' : Core} {c : Call} {calls : List Call} (he : IsEnd c) (h : Ended s c calls s') :
    calls.foldl Epoch.note e = e := by
  rcases he with rfl | ⟨st, rfl⟩ <;> cases h <;> rfl

theorem quiet_note {e : Epoch} {calls : List Call}
    (h : calls = [] ∨ (∃ b, calls = [.putQ b true]) ∨ ∃ bs, calls = [.serialWrite bs]) :
    calls.foldl Epoch.note e = e := by
  rcases h with rfl | ⟨b, rfl⟩ | ⟨bs, rfl⟩ <;> rfl

theorem Stepped.timely {e : Epoch} {s s' : Core} {i : Input} {calls : List Call} (h : Stepped s i calls s')
    (hs : Timely e s) : Timely (calls.foldl Epoch.note e) s' := by
  have hco := h.coherent hs.coherent
  cases h with
  | handled h => exact h.timely hs
  | ended _ _ he h =>
    rw [h.note he]
    cases h with
    | own _ _ _ _ hrs =>
      exact ⟨hco, hs.session, hs.last, hs.seqs, fun _ hair => absurd hair hrs, by simp [Core.cache, Core.settle]⟩
    | foreign _ hrs => exact ⟨hco, hs.session, hs.last, hs.seqs, fun _ hair => absurd hair hrs, hs.waiting⟩
  | quiet _ hcalls h =>
    rw [quiet_note hcalls]
    rcases h with rfl | ⟨_, rs, hrs, rfl⟩
    · exact hs
    · exact ⟨hco, hs.session, hs.last, hs.seqs, fun _ hair => absurd hair hrs, hs.waiting⟩

theorem setup_timely (d : Board) : Timely {} (setup d).core := by
  obtain ⟨rs, ready, hrs, hcore⟩ := setup_core d
  rw [hcore]
  exact ⟨⟨by simp, by simp, by simp⟩, by simp, by simp, by simp, by simp, by simp⟩

section Runs

variable {d : Board} {is : List Input} {T₁ T₂ T₃ : List (Move Fw Input)} {x y : Move Fw Input}

/-- The epoch and the state belong together before every step of every run. -/
theorem timely_before (h : trace step (setup d) is = T₁ ++ x :: T₂) : Timely (epoch (history T₁)) x.before.core := by
  refine @trace_rel _ _ step _ callsOf (fun H s => Timely (epoch H) s.core) (fun _ => True) _ (setup_timely d)
    (fun H i s ih _ => ?_) _ _ _ _ h (fun _ _ => trivial)
  rw [epoch_append]
  exact (step_spec i s).timely ih

theorem stepped_move (h : trace step (setup d) is = T₁ ++ x :: T₂) :
    Stepped x.before.core x.input x.after.calls x.after.core := by
  obtain ⟨-, -, -, -, -, hafter, -⟩ := trace_split h
  have hstep := step_spec x.input x.before
  rwa [← hafter] at hstep

/-! ## What goes on air -/

/-- The calls of a step that accepts the frame `b` and starts the transmitter with `packet`, once, and at most offers
a response. -/
def TransmitCalls (calls : List Call) (b packet : Bytes) (st : Int) : Prop :=
  ∃ rest, calls = .saveReq b :: .startTransmit packet st :: rest ∧ (rest = [] ∨ ∃ r, rest = [.putQ r false])

/-- The move starts the transmitter with `packet` for the frame `b`, and the driver answers `st`. -/
def Transmits (x : Move Fw Input) (b packet : Bytes) (st : Int) : Prop :=
  (∃ hw, x.input = .handle hw b) ∧ TransmitCalls x.after.calls b packet st

theorem Stepped.transmits {s s' : Core} {i : Input} {calls : List Call} {packet : Bytes} {st : Int}
    (h : Stepped s i calls s') (hc : .startTransmit packet st ∈ calls) :
    ∃ b, Fresh s b ∧ Clear s b packet ∧ (∃ hw, i = .handle hw b) ∧ (st = 0 → s'.rs = .transmitting) ∧
      TransmitCalls calls b packet st := by
  cases h with
  | @handled hw b _ _ h =>
    cases h with
    | ignored | refused | replayed | opened | answered => simp at hc
    | failed hf hgo hst =>
      obtain ⟨rfl, rfl⟩ : packet = _ ∧ st = _ := by simpa using hc
      exact ⟨b, hf, hgo, ⟨hw, rfl⟩, fun h => absurd h hst, _, rfl, Or.inr ⟨_, rfl⟩⟩
    | started hf hgo =>
      obtain ⟨rfl, rfl⟩ : packet = _ ∧ st = 0 := by simpa using hc
      exact ⟨b, hf, hgo, ⟨hw, rfl⟩, fun _ => rfl, _, rfl, Or.inl rfl⟩
  | ended _ _ he h => rcases he with rfl | ⟨st, rfl⟩ <;> cases h <;> simp at hc
  | quiet _ hcalls => rcases hcalls with rfl | ⟨e, rfl⟩ | ⟨bs, rfl⟩ <;> simp at hc

/-- Calls without a reset only extend the epoch; after a reset its session is one that they have set. -/
theorem foldl_note (calls : List Call) : ∀ e : Epoch,
    ((∀ ses, .resetSession ses ∉ calls) ∧ (calls.foldl Epoch.note e).session = e.session ∧
        ∀ b ∈ e.accepted, b ∈ (calls.foldl Epoch.note e).accepted) ∨
      ∃ ses, .resetSession ses ∈ calls ∧ (calls.foldl Epoch.note e).session = some ses := by
  induction calls with
  | nil => exact fun e => Or.inl ⟨by simp, rfl, fun b hb => hb⟩
  | cons c calls ih =>
    intro e
    rw [List.foldl_cons]
    rcases ih (e.note c) with ⟨hno, hses, hkeep⟩ | ⟨ses, hin, hses⟩
    · by_cases hc : ∃ ses, c = .resetSession ses
      · obtain ⟨ses, rfl⟩ := hc
        exact Or.inr ⟨ses, List.mem_cons_self, hses⟩
      · have hsame : (e.note c).session = e.session ∧ ∀ b ∈ e.accepted, b ∈ (e.note c).accepted := by
          cases c with
          | resetSession ses => exact absurd ⟨ses, rfl⟩ hc
          | saveReq b => exact ⟨rfl, fun b hb => List.mem_append_left _ hb⟩
          | putQ | startTransmit | finishTransmit | standby | serialWrite => exact ⟨rfl, fun b hb => hb⟩
        refine Or.inl ⟨fun ses hin => ?_, hses.trans hsame.1, fun b hb => hkeep b (hsame.2 b hb)⟩
        rcases List.mem_cons.mp hin with h | h
        · exact hc ⟨ses, h.symm⟩
        · exact hno ses h
    · exact Or.inr ⟨ses, List.mem_cons_of_mem _ hin, hses⟩

/-- A transmission goes on until a call ends it. -/
theorem Stepped.on_air {s s' : Core} {i : Input} {calls : List Call} (h : Stepped s i calls s')
    (hs : s.rs = .transmitting) : (∃ e ∈ calls, IsEnd e) ∨ s'.rs = .transmitting := by
  cases h with
  | handled h =>
    cases h with
    | ignored | refused | replayed | opened | answered => exact Or.inr hs
    | failed _ hgo => exact absurd hs hgo.free
    | started => exact Or.inr rfl
  | ended _ _ he h => cases h <;> exact Or.inl ⟨_, List.mem_cons_self, he⟩
  | quiet _ _ h =>
    rcases h with rfl | ⟨hair, -⟩
    · exact Or.inr hs
    · exact absurd hs hair

theorem on_air_run (is : List Input) : ∀ {s : Fw}, s.core.rs = .transmitting →
    (∃ e ∈ history (trace step s is), IsEnd e) ∨ (run step s is).core.rs = .transmitting := by
  induction is with
  | nil => exact fun hs => Or.inr hs
  | cons i is ih =>
    intro s hs
    rw [trace, history, outputs_cons, run]
    rcases (step_spec i s).on_air hs with ⟨e, he, hend⟩ | hair
    · exact Or.inl ⟨e, List.mem_append_left _ he, hend⟩
    · rcases ih hair with ⟨e, he, hend⟩ | hair
      · exact Or.inl ⟨e, List.mem_append_right _ he, hend⟩
      · exact Or.inr hair

/-- What a run puts on air. -/
structure Disciplined (T : List (Move Fw Input)) : Prop where
  /-- The transmitter is started only for a valid SEND of the running session that fits a packet and is newer than
  every request accepted in the epoch, and only when the radio is ready and idle. -/
  gated : ∀ T₁ x T₂ packet st, T = T₁ ++ x :: T₂ → .startTransmit packet st ∈ x.after.calls →
    ∃ b, Transmits x b packet st ∧ IsSend b ∧ x.before.active = true ∧ sessionOf b = x.before.session ∧
      (∀ c ∈ (epoch (history T₁)).accepted, seqOf c < seqOf b) ∧ x.before.ready = true ∧
      x.before.pending = false ∧ x.before.rs ≠ .transmitting ∧
      ∃ boot air, packet = airPacket boot air (payloadOf b)
  /-- Within an epoch the sequences put on air increase. -/
  increasing : ∀ T₁ x T₂ y T₃ b p st c q st', T = T₁ ++ x :: (T₂ ++ y :: T₃) → Transmits x b p st →
    Transmits y c q st' → (∀ ses, .resetSession ses ∉ history T₂) → seqOf b < seqOf c
  /-- A request goes on air a second time only if its session was opened again in between. -/
  once : ∀ T₁ x T₂ y T₃ b p st q st', T = T₁ ++ x :: (T₂ ++ y :: T₃) → Transmits x b p st →
    Transmits y b q st' → .resetSession (sessionOf b) ∈ history T₂
  /-- A transmission ends before the next one is started. -/
  alone : ∀ T₁ x T₂ y T₃ p q st, T = T₁ ++ x :: (T₂ ++ y :: T₃) → .startTransmit p 0 ∈ x.after.calls →
    .startTransmit q st ∈ y.after.calls → ∃ e ∈ history T₂, IsEnd e

theorem Transmits.mem {b packet : Bytes} {st : Int} (h : Transmits x b packet st) :
    .startTransmit packet st ∈ x.after.calls := by
  obtain ⟨-, rest, hcalls, -⟩ := h
  rw [hcalls]
  simp

/-- The frame that a move transmits is the one that passes the gate. -/
theorem Transmits.fresh (h : trace step (setup d) is = T₁ ++ x :: T₂) {b packet : Bytes} {st : Int}
    (ht : Transmits x b packet st) : Fresh x.before.core b := by
  obtain ⟨c, hf, -, ⟨hw, hx⟩, -⟩ := (stepped_move h).transmits ht.mem
  obtain ⟨⟨hw', hx'⟩, -⟩ := ht
  rw [hx, Input.handle.injEq] at hx'
  exact hx'.2 ▸ hf

/-- Between two transmissions the sequences increase, or the session of the second is opened. -/
theorem increasing_or_reset {b p : Bytes} {st : Int} {c q : Bytes} {st' : Int}
    (h : trace step (setup d) is = T₁ ++ x :: (T₂ ++ y :: T₃)) (hx : Transmits x b p st) (hy : Transmits y c q st') :
    seqOf b < seqOf c ∨ .resetSession (sessionOf c) ∈ history T₂ := by
  have h' : trace step (setup d) is = (T₁ ++ x :: T₂) ++ y :: T₃ := by rw [h]; simp
  have hf := hy.fresh h'
  have htime := timely_before h'
  have hepoch : epoch (history (T₁ ++ x :: T₂)) =
      (history T₂).foldl Epoch.note (epoch (history T₁ ++ x.after.calls)) := by
    rw [history, outputs_append, outputs_cons, ← List.append_assoc, epoch_append]
    rfl
  rw [hepoch] at htime
  rcases foldl_note (history T₂) (epoch (history T₁ ++ x.after.calls)) with ⟨-, -, hkeep⟩ | ⟨ses, hin, hses⟩
  · have hb : b ∈ (epoch (history T₁ ++ x.after.calls)).accepted := by
      obtain ⟨-, rest, hcalls, hrest⟩ := hx
      rw [epoch_append, hcalls]
      rcases hrest with rfl | ⟨r, rfl⟩ <;> exact List.mem_append_right _ (List.mem_singleton.mpr rfl)
    have hle := (htime.seqs b (hkeep b hb)).2
    exact Or.inl (Nat.lt_of_le_of_lt hle hf.newer)
  · have hsame := (htime.session hf.active).symm.trans hses
    rw [Option.some.injEq, ← hf.session] at hsame
    exact Or.inr (hsame ▸ hin)

/-- **At most once, and gated**: what every run puts on air. -/
theorem transmission_discipline (d : Board) (is : List Input) : Disciplined (trace step (setup d) is) := by
  refine ⟨fun T₁ x T₂ packet st h hc => ?_, fun T₁ x T₂ y T₃ b p st c q st' h hx hy hno => ?_,
    fun T₁ x T₂ y T₃ b p st q st' h hx hy => ?_, fun T₁ x T₂ y T₃ p q st h hx hy => ?_⟩
  · obtain ⟨b, hf, hgo, hi, -, hcalls⟩ := (stepped_move h).transmits hc
    have hnewer : ∀ c ∈ (epoch (history T₁)).accepted, seqOf c < seqOf b := fun c hc =>
      Nat.lt_of_le_of_lt ((timely_before h).seqs c hc).2 hf.newer
    exact ⟨b, ⟨hi, hcalls⟩, hgo.send, hf.active, hf.session, hnewer, hgo.ready, hf.idle, hgo.free, hgo.packet⟩
  · exact (increasing_or_reset h hx hy).resolve_right fun hin => hno _ hin
  · exact (increasing_or_reset h hx hy).resolve_left (Nat.lt_irrefl _)
  · obtain ⟨_, _, _, _, hair, _⟩ := (stepped_move h).transmits hx
    obtain ⟨pre, post, -, -, -, -, hpost⟩ := trace_split h
    obtain ⟨pre', post', -, hT₂, hbefore, -, -⟩ := trace_split hpost.symm
    have h' : trace step (setup d) is = (T₁ ++ x :: T₂) ++ y :: T₃ := by rw [h]; simp
    obtain ⟨_, _, hgo, _⟩ := (stepped_move h').transmits hy
    rcases on_air_run pre' (hair rfl) with hend | hon
    · rwa [hT₂]
    · exact absurd (hbefore ▸ hon) hgo.free

/-! ## Results -/

/-- The results among the responses offered in the epoch `e`, which leave the state `s`, answer the last request
accepted in it, and that request is a SEND that the transmitter was started for. -/
def Correlated (e : Epoch) (s : Core) (rs : List Bytes) : Prop :=
  ∀ r ∈ rs, IsResult r → ∃ b, e.accepted.getLast? = some b ∧ e.aired = true ∧ IsSend b ∧ Addressed r b ∧
    s.lastSeq = seqOf b ∧ s.lastReq = b ∧ s.session = sessionOf b

/-- The state in a run whose transmissions end in their own epochs: besides, a kept result answers the last request. -/
structure Cached (e : Epoch) (s : Core) : Prop where
  timely : Timely e s
  result : s.active = true → s.haveLast = true → IsResult s.lastResp →
    e.aired = true ∧ IsSend s.lastReq ∧ Addressed s.lastResp s.lastReq

/-- The move ends a transmission of the running session only while that session waits for it. -/
def EndsInTime (x : Move Fw Input) : Prop :=
  x.input.endsTx x.before → x.before.ownTx = true → x.before.pending = true

/-- A kept result that answers the last request is correlated when it is offered. -/
theorem Cached.correlated {e : Epoch} {s : Core} (hs : Cached e s) (hact : s.active = true) (hlast : s.haveLast = true) :
    Correlated e s [s.lastResp] := by
  intro r hr hres
  rw [List.mem_singleton] at hr
  subst hr
  obtain ⟨hair, hsend, ha⟩ := hs.result hact hlast hres
  obtain ⟨hses, hseq⟩ := hs.timely.coherent.last hact
  exact ⟨_, hs.timely.last hact, hair, hsend, ha, hseq, rfl, hses⟩

/-- A response that is no result needs no request. -/
theorem correlated_of_not {e : Epoch} {s : Core} {r : Bytes} (h : ¬ IsResult r) : Correlated e s [r] :=
  fun r' hr hres => by
  rw [List.mem_singleton] at hr
  exact absurd (hr ▸ hres) h

theorem Handled.cached {e : Epoch} {s s' : Core} {b : Bytes} {calls : List Call} (h : Handled s b calls s')
    (hs : Cached e s) :
    Cached (calls.foldl Epoch.note e) s' ∧ Correlated (calls.foldl Epoch.note e) s' (responses calls) := by
  have htime := h.timely hs.timely
  cases h with
  | ignored => exact ⟨hs, fun r hr => absurd hr (by simp [responses])⟩
  | refused _ _ hr => exact ⟨hs, correlated_of_not hr⟩
  | replayed _ hact _ _ _ hlast => exact ⟨hs, hs.correlated hact hlast⟩
  | opened _ _ _ _ _ hr | answered _ _ hr => exact ⟨⟨htime, fun _ _ hres => absurd hres hr⟩, correlated_of_not hr⟩
  | failed hf hgo _ _ ha =>
    have hcached : Cached _ _ := ⟨htime, fun _ _ _ => ⟨rfl, hgo.send, ha⟩⟩
    exact ⟨hcached, hcached.correlated hf.active rfl⟩
  | started =>
    exact ⟨⟨htime, fun _ hlast => Bool.noConfusion hlast⟩, fun r hr => absurd hr (by simp [responses])⟩

theorem Stepped.cached {e : Epoch} {s s' : Core} {i : Input} {calls : List Call} (h : Stepped s i calls s')
    (hs : Cached e s)
    (hin : (∃ c ∈ calls, IsEnd c) → s.active = true → s.session = s.txSession → s.pending = true) :
    Cached (calls.foldl Epoch.note e) s' ∧ Correlated (calls.foldl Epoch.note e) s' (responses calls) := by
  have htime := h.timely hs.timely
  cases h with
  | handled h => exact h.cached hs
  | @ended _ c _ _ _ _ he h =>
    rw [h.note he] at htime ⊢
    cases h with
    | own hact hses hr ha =>
      have hp := hin ⟨c, List.mem_cons_self, he⟩ hact hses
      obtain ⟨hair, hsend⟩ := hs.timely.waiting hp
      have hcached : Cached _ _ := ⟨htime, fun _ _ _ => ⟨hair, hsend, hs.timely.coherent.addressed hp ha⟩⟩
      refine ⟨hcached, ?_⟩
      have hcorr := hcached.correlated hact rfl
      rcases he with rfl | ⟨st, rfl⟩ <;> exact hcorr
    | foreign =>
      refine ⟨⟨htime, hs.result⟩, fun r hr => ?_⟩
      rcases he with rfl | ⟨st, rfl⟩ <;> exact absurd hr (by simp [responses])
  | quiet _ hcalls h =>
    rw [quiet_note hcalls] at htime ⊢
    obtain ⟨-, hres, -⟩ := quiet_calls hcalls
    rw [hres]
    refine ⟨⟨htime, ?_⟩, fun r hr => absurd hr (by simp)⟩
    rcases h with rfl | ⟨_, rs, _, rfl⟩ <;> exact hs.result

/-- The results of a step that leaves the epoch `e`. -/
def CorrelatedMove (T₁ : List (Move Fw Input)) (x : Move Fw Input) : Prop :=
  Correlated (epoch (history T₁ ++ x.after.calls)) x.after.core (responses x.after.calls)

theorem correlated_of_endsInTime (hgood : ∀ x ∈ trace step (setup d) is, EndsInTime x)
    (h : trace step (setup d) is = T₁ ++ x :: T₂) : CorrelatedMove T₁ x := by
  have hstep : ∀ e i s, Cached e s.core → EndsInTime ⟨s, i, step i s⟩ →
      Cached ((step i s).calls.foldl Epoch.note e) (step i s).core ∧
        Correlated ((step i s).calls.foldl Epoch.note e) (step i s).core (responses (step i s).calls) := by
    intro e i s hs hin
    refine (step_spec i s).cached hs fun ⟨c, hc, he⟩ hact hses => ?_
    exact hin (endsTx_of_end hc he) ((Fw.ownTx_iff s).mpr ⟨hact, hses⟩)
  have hbefore : Cached (epoch (history T₁)) x.before.core := by
    refine @trace_rel _ _ step _ callsOf (fun H s => Cached (epoch H) s.core) EndsInTime _ ?_
      (fun H i s ih hin => ?_) _ _ _ _ h hgood
    · refine ⟨setup_timely d, fun hact => ?_⟩
      obtain ⟨rs, ready, -, hcore⟩ := setup_core d
      rw [hcore] at hact
      exact Bool.noConfusion hact
    · rw [epoch_append]
      exact (hstep _ i s ih hin).1
  obtain ⟨-, -, -, -, -, hafter, -⟩ := trace_split h
  have hx : EndsInTime ⟨x.before, x.input, step x.input x.before⟩ := hafter ▸ hgood x (by rw [h]; simp)
  rw [CorrelatedMove, epoch_append, hafter]
  exact (hstep _ x.input x.before hbefore hx).2

theorem Ended.result {s s' : Core} {e : Call} {calls : List Call} (h : Ended s e calls s') (he : IsEnd e)
    (hact : s.active = true) (hses : s.session = s.txSession) : ∃ r ∈ responses calls, IsResult r := by
  cases h with
  | @own r _ _ _ hr => exact ⟨r, by rcases he with rfl | ⟨st, rfl⟩ <;> simp [responses], hr.1⟩
  | foreign hno => exact absurd ⟨hact, hses⟩ hno

/-- A transmission that ends while its session does not wait for it offers a result that answers no request. -/
theorem endsInTime_of_correlated (h : trace step (setup d) is = T₁ ++ x :: T₂) (hc : CorrelatedMove T₁ x) :
    EndsInTime x := by
  intro hend hown
  obtain ⟨-, -, -, -, -, hafter, -⟩ := trace_split h
  obtain ⟨hact, hses⟩ := (Fw.ownTx_iff _).mp hown
  have hair : x.before.core.rs = .transmitting := by
    cases hx : x.input <;> rw [hx] at hend
    · exact absurd hend id
    · exact absurd hend id
    · exact hend.2.2
    · exact hend.1
    · exact absurd hend id
  have he := x.input.isEnd_ending
  have hended := step_ended hend
  rw [← hafter] at hended
  rw [CorrelatedMove, epoch_append, hended.note he] at hc
  obtain ⟨r, hr, hres⟩ := hended.result he hact hses
  obtain ⟨b, -, haired, -⟩ := hc r hr hres
  exact (timely_before h).air haired hair

/-- **Results and epochs**: every result of a run answers the last request accepted in the epoch it is offered in,
exactly when no transmission of the run ends in a later epoch of its own session value. -/
theorem result_epoch_iff (d : Board) (is : List Input) :
    (∀ T₁ x T₂, trace step (setup d) is = T₁ ++ x :: T₂ → CorrelatedMove T₁ x) ↔
      ∀ x ∈ trace step (setup d) is, EndsInTime x := by
  refine ⟨fun hall x hx => ?_, fun hgood T₁ x T₂ h => correlated_of_endsInTime hgood h⟩
  obtain ⟨T₁, T₂, h⟩ := List.append_of_mem hx
  exact endsInTime_of_correlated h (hall T₁ x T₂ h)

end Runs

/-- A SEND goes on air, and the host opens another session and then the first one again. -/
def reopenRun : List Input :=
  let hello (ses : Nat) := frame Msg.hello ses 1 []
  [.handle {} (hello 7), .handle {} (frame Msg.send 7 2 [1]), .handle {} (hello 8), .handle {} (hello 7), .isr]

/-- The transmission then succeeds in a session that has sent nothing. -/
theorem stale_result : ¬ ∀ d is T₁ x T₂, trace step (setup d) is = T₁ ++ x :: T₂ → CorrelatedMove T₁ x := by
  intro hall
  let x : Move Fw Input :=
    ⟨run step (setup {}) reopenRun, .radioTask {}, step (.radioTask {}) (run step (setup {}) reopenRun)⟩
  have hc := hall {} (reopenRun ++ [.radioTask {}]) (trace step (setup {}) reopenRun) x [] (trace_append _ _ _)
  have hresult : ((responses x.after.calls).any fun r => typeOf r == Msg.txok) = true := by decide +kernel
  have haired : (epoch (history (trace step (setup {}) reopenRun) ++ x.after.calls)).aired = false := by decide +kernel
  obtain ⟨r, hr, htype⟩ := List.any_eq_true.mp hresult
  obtain ⟨b, -, hno, -⟩ := hc r hr (Or.inl (beq_iff_eq.mp htype))
  exact Bool.noConfusion (haired.symm.trans hno)

end LoraLink.Firmware
