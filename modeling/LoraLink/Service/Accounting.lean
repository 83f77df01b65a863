import LoraLink.Host.Refine
import LoraLink.Lib.Run
import LoraLink.Service.Base

/-!
# The fragment in flight

`BaseService` over `ModemTransport`: the fragment in flight is the send that the transport still owes an outcome for.

- `Window.Path.session_kept`: while no send is accepted, the session stays or no send is waiting. So the outcome of
  the fragment in flight comes before the service sees a new session;
- `Owes`: what every call keeps, with the outcomes that are still to be acted on;
- `in_flight_accounted`: the counters and the transport agree with `in_flight` in every run.
-/

namespace LoraLink.Host.Window

open LoraLink.Protocol

variable {w₀ w : Window} {es : List Event}

theorem onFrame_session_kept (w : Window) (f : Frame) :
    (w.onFrame f).session = w.session ∧
      ((w.onFrame f).pendingSend = w.pendingSend ∨ (w.onFrame f).pendingSend = none) := by
  rcases w.onFrame_cases f with h | ⟨completed, h⟩ | ⟨t, info, -, -, -, -, h⟩
  · rw [h]
    exact ⟨rfl, Or.inl rfl⟩
  · rw [h]
    exact ⟨rfl, Or.inr rfl⟩
  · rw [h]
    exact ⟨rfl, Or.inr rfl⟩

/-- Sends are only added, and while none is, the session is the same or no send is waiting. -/
theorem Path.session_kept {s : Nat} (h : Path w₀ es w) (h₀ : w₀.session = s ∨ w₀.pendingSend = none) :
    w₀.sends.length ≤ w.sends.length ∧ (w.sends = w₀.sends → w.session = s ∨ w.pendingSend = none) := by
  let Kept : Window → Prop := fun v =>
    w₀.sends.length ≤ v.sends.length ∧ (v.sends = w₀.sends → v.session = s ∨ v.pendingSend = none)
  have hstart : Kept w₀ := ⟨Nat.le_refl _, fun _ => h₀⟩
  refine LoraLink.Path.inv (P := Kept) h hstart ?_
  rintro v e ⟨hlen, hv⟩ he
  cases e with
  | accepted typ q t =>
    by_cases ht : typ = Msg.radioSend
    · have hsends : (v.on (.accepted typ q t)).sends = v.sends ++ [q] := if_pos ht
      constructor
      · rw [hsends, List.length_append]
        omega
      · intro heq
        have hlength := congrArg List.length heq
        rw [hsends, List.length_append, List.length_singleton] at hlength
        omega
    · have hsends : (v.on (.accepted typ q t)).sends = v.sends := if_neg ht
      exact ⟨hsends ▸ hlen, fun _ => Or.inr (if_neg ht)⟩
  | frame f =>
    have hsends : (v.onFrame f).sends = v.sends := congrArg Books.sends (onFrame_books f)
    obtain ⟨hsession, hpending⟩ := v.onFrame_session_kept f
    refine ⟨hsends ▸ hlen, fun heq => ?_⟩
    rcases hv (hsends ▸ heq) with hs | hp
    · exact Or.inl (hsession.trans hs)
    · rcases hpending with h | h
      · exact Or.inr (h.trans hp)
      · exact Or.inr h
  | deadline now =>
    rcases v.deadline_cases now with h | h
    · rw [h]
      exact ⟨hlen, hv⟩
    · rw [h]
      exact ⟨hlen, fun _ => Or.inr rfl⟩
  | session | lost => exact ⟨hlen, fun _ => Or.inr rfl⟩
  | opened | request | unencodable | wrote | received | took | sent | refused | raised => exact ⟨hlen, hv⟩

end LoraLink.Host.Window

namespace LoraLink.Service

open LoraLink.Rtcm LoraLink.Host Prog

namespace BaseService

/-! ## The counters -/

/-- The counters of the fragments given to the transport, and of their outcomes. -/
def counters : List Metric :=
  [.rtcmFragmentsUsbAccepted, .rtcmFragmentsTxCompleted, .rtcmFragmentsTxFailed, .rtcmFragmentsTxUncertain,
    .radioTxUnexpectedOutcomes]

/-- Every fragment accepted has been counted as completed, failed or uncertain, except for the one in flight. -/
structure Balanced (metrics : Metrics Metric) (inFlight : Option Nat) : Prop where
  accepted : metrics .rtcmFragmentsUsbAccepted = metrics .rtcmFragmentsTxCompleted + metrics .rtcmFragmentsTxFailed +
    metrics .rtcmFragmentsTxUncertain + if inFlight.isSome then 1 else 0
  unexpected : metrics .radioTxUnexpectedOutcomes = 0

section Balanced

variable {metrics metrics' : Metrics Metric} {inFlight : Option Nat}

theorem Balanced.congr (h : Balanced metrics inFlight) (hsame : ∀ name ∈ counters, metrics' name = metrics name) :
    Balanced metrics' inFlight := by
  simp only [counters, List.forall_mem_cons] at hsame
  obtain ⟨h1, h2, h3, h4, h5, -⟩ := hsame
  constructor
  · rw [h1, h2, h3, h4]
    exact h.accepted
  · rw [h5]
    exact h.unexpected

theorem Balanced.add (h : Balanced metrics inFlight) {name : Metric} (hname : name ∉ counters) (amount : Int) :
    Balanced (metrics.add name amount) inFlight := by
  apply h.congr
  intro n hn
  have hne : n ≠ name := fun heq => hname (heq ▸ hn)
  exact if_neg hne

theorem Balanced.set (h : Balanced metrics inFlight) {name : Metric} (hname : name ∉ counters) (value : Int) :
    Balanced (metrics.set name value) inFlight := by
  apply h.congr
  intro n hn
  have hne : n ≠ name := fun heq => hname (heq ▸ hn)
  exact if_neg hne

/-- The name that counts an outcome. -/
def outcomeMetric : Option Bool → Metric
  | some true => .rtcmFragmentsTxCompleted
  | some false => .rtcmFragmentsTxFailed
  | none => .rtcmFragmentsTxUncertain

/-- The outcome of the fragment in flight is counted. -/
theorem Balanced.settled {sequence : Nat} (h : Balanced metrics (some sequence)) (completed : Option Bool) :
    Balanced (metrics.add (outcomeMetric completed)) none := by
  have haccepted := h.accepted
  have hunexpected := h.unexpected
  simp only [Option.isSome_some, if_true] at haccepted
  rcases completed with _ | _ | _ <;> constructor <;> simp [Metrics.add_apply, outcomeMetric] <;> omega

/-- A fragment is accepted. -/
theorem Balanced.sent (h : Balanced metrics none) (sequence : Nat) :
    Balanced (metrics.add .rtcmFragmentsUsbAccepted) (some sequence) := by
  have haccepted := h.accepted
  have hunexpected := h.unexpected
  simp only [Option.isSome_none, Bool.false_eq_true, if_false] at haccepted
  constructor <;> simp [Metrics.add_apply] <;> omega

end Balanced

/-! ## What the transport owes -/

/-- The transport is in the window `w`; the outcomes `hand` are still to be acted on, and with them the transport owes
one outcome for the fragment in flight and no other. The service is in the session `s`. -/
structure Owes (w : Window) (hand : List Outcome) (s : Nat) (b : BaseService Modem) : Prop where
  steady : Modem.Steady w b.transport
  balanced : Balanced b.metrics b.inFlight
  owed : (hand ++ w.outcomes).map Prod.fst ++ w.pendingSend.toList = b.inFlight.toList
  session : b.session = s
  kept : w.session = s ∨ w.pendingSend = none

/-- The transport owes the outcome of the fragment in flight. -/
def Owing (b : BaseService Modem) : Prop := ∃ w s, Owes w [] s b

abbrev ModemOp (α : Type) : Type := Op Modem α

variable {w : Window} {hand : List Outcome} {s : Nat}

theorem owes_add {name : Metric} (hname : name ∉ counters) (amount : Nat) :
    Triple (Owes w hand s) (add name amount : ModemOp Unit) (Returns fun _ => Owes w hand s) := fun _ h =>
  { h with balanced := h.balanced.add hname amount }

theorem owes_set {name : Metric} (hname : name ∉ counters) (value : Int) :
    Triple (Owes w hand s) (set name value : ModemOp Unit) (Returns fun _ => Owes w hand s) := fun _ h =>
  { h with balanced := h.balanced.set hname value }

theorem owes_updateRates (now : ℚ) :
    Triple (Owes w hand s) (updateRates now : ModemOp Unit) (Returns fun _ => Owes w hand s) := by
  refine (Triple.modify (R := Owes w hand s) fun b h => { h with }).seq fun _ => Triple.get_bind fun b _ => ?_
  exact (owes_set (by decide) _).seq fun _ => (owes_set (by decide) _).seq fun _ => owes_set (by decide) _

theorem owes_updateQueueMetrics (now : ℚ) :
    Triple (Owes w hand s) (updateQueueMetrics now : ModemOp Unit) (Returns fun _ => Owes w hand s) := by
  refine Triple.get_bind fun b _ => (owes_set (by decide) _).seq fun _ => (owes_set (by decide) _).seq fun _ => ?_
  exact (owes_set (by decide) _).seq fun _ => owes_set (by decide) _

/-! ## Ingress -/

theorem owes_enqueue (f : RtcmFrame) :
    Triple (Owes w hand s) (enqueue f : ModemOp Unit) (Returns fun _ => Owes w hand s) := by
  refine (Triple.modify (R := Owes w hand s) fun b h => { h with }).seq fun _ => Triple.get_bind fun b _ => ?_
  have hoverflow : Triple (Owes w hand s) (overflow : ModemOp Unit) (Returns fun _ => Owes w hand s) :=
    (Triple.modify (R := Owes w hand s) fun b h => { h with }).seq fun _ => owes_add (by decide) _
  refine (Triple.when (fun _ => hoverflow) fun _ b h => h).seq fun _ => ?_
  exact (owes_add (by decide) _).seq fun _ => owes_add (by simp [counters]) _

theorem owes_ingest (chunk : Bytes) (now : ℚ) :
    Triple (Owes w hand s) (ingest chunk now : ModemOp Nat) (Returns fun _ => Owes w hand s) := by
  refine Triple.get_bind fun b _ => (Triple.modify (R := Owes w hand s) fun b h => { h with }).seq fun _ => ?_
  refine (owes_add (by decide) _).seq fun _ => (Triple.forEach fun f _ => owes_enqueue f).seq fun _ => ?_
  refine (owes_updateQueueMetrics now).seq fun _ => (owes_set (by decide) _).seq fun _ => ?_
  exact (owes_updateRates now).seq fun _ _ h => h

theorem owes_resetSource :
    Triple (Owes w hand s) (resetSource : ModemOp Unit) (Returns fun _ => Owes w hand s) := by
  refine Triple.get_bind fun b _ => (Triple.modify (R := Owes w hand s) fun b h => { h with }).seq fun _ => ?_
  refine (Triple.when (fun _ => owes_add (by decide) _) fun _ b h => h).seq fun _ => ?_
  refine (Triple.when (fun _ => owes_add (by decide) _) fun _ b h => h).seq fun _ => ?_
  exact Triple.modify fun b h => { h with }

/-! ## The calls of the transport -/

/-- What is owed after a call that has neither accepted a send nor handed out an outcome. -/
theorem Owes.moved {b : BaseService Modem} (h : Owes w [] s b) {m : Modem} {A : Books}
    (hm : Modem.InWindow w A m) (hsends : A.sends = w.sends) (hreturned : A.returned = w.returned)
    (htaken : A.taken = w.taken) : Owing { b with transport := m } := by
  obtain ⟨w', hpath, hw', hA⟩ := hm.steady (by rw [hreturned, hsends, h.steady.returned])
  have hsends' : w'.sends = w.sends := (congrArg Books.sends hA).trans hsends
  have htaken' : w'.taken = w.taken := (congrArg Books.taken hA).trans htaken
  have howed : w'.outcomes.map Prod.fst ++ w'.pendingSend.toList = w.outcomes.map Prod.fst ++ w.pendingSend.toList := by
    have hgood := hw'.good.sends
    rw [hsends', htaken', h.steady.good.sends, List.map_append, List.map_append, List.append_assoc,
      List.append_assoc] at hgood
    exact (List.append_cancel_left hgood).symm
  exact ⟨w', s, hw', h.balanced, howed.trans h.owed, h.session, (hpath.session_kept h.kept).2 hsends'⟩

theorem tick_owes (io : Io × Io) (diagnosticsIdle : Bool) :
    Triple Owing (ofTransport (Transport.tick io diagnosticsIdle)) (Returns fun _ => Owing) := by
  rintro b ⟨w, s, h⟩
  have hs := Modem.tick_spec diagnosticsIdle _ (h.steady.inWindow io.1)
  simp only [ofTransport, Transport.tick]
  generalize Modem.tick diagnosticsIdle (b.transport.enter io.1) = res at hs
  obtain ⟨r, m⟩ := res
  cases r with
  | ok events => exact h.moved hs rfl rfl rfl
  | error e => exact absurd hs id

/-- The outcomes are taken, and none is left at the transport. -/
theorem takeTxOutcomes_owes : Triple Owing (ofTransport (Transport.takeTxOutcomes (E := Io × Io)))
    (Returns fun outcomes b => ∃ w s, w.outcomes = [] ∧ Owes w outcomes s b) := by
  rintro b ⟨w, s, h⟩
  obtain ⟨hs, hok⟩ := Modem.takeTxOutcomes_spec (h.steady.enter b.transport.io)
  simp only [ofTransport, Transport.takeTxOutcomes]
  generalize Modem.takeTxOutcomes (b.transport.enter b.transport.io) = res at hs hok
  obtain ⟨r, m⟩ := res
  obtain rfl : r = .ok w.outcomes := hok
  refine ⟨w.on (.took w.outcomes), s, rfl, ?_, h.balanced, ?_, h.session, h.kept⟩
  · exact { hs.toView with good := hs.good, returned := h.steady.returned }
  · rw [← h.owed]
    show (w.outcomes ++ []).map Prod.fst ++ w.pendingSend.toList = _
    rw [List.append_nil]
    rfl

/-- An outcome is that of the fragment in flight. -/
theorem settle_owes (o : Outcome) (outcomes : List Outcome) :
    Triple (Owes w (o :: outcomes) s) (settle o : ModemOp Unit) (Returns fun _ => Owes w outcomes s) := by
  refine Triple.get_bind_eq fun b h => ?_
  have howed : o.1 :: ((outcomes ++ w.outcomes).map Prod.fst ++ w.pendingSend.toList) = b.inFlight.toList := h.owed
  have hflight : b.inFlight = some o.1 := by
    cases hb : b.inFlight with
    | none => rw [hb] at howed; simp at howed
    | some s =>
      rw [hb, Option.toList_some] at howed
      rw [(List.cons.inj howed).1]
  have hrest : (outcomes ++ w.outcomes).map Prod.fst ++ w.pendingSend.toList = [] := by
    rw [hflight, Option.toList_some] at howed
    exact (List.cons.inj howed).2
  rw [if_neg (not_not.mpr hflight.symm)]
  have hbalanced := h.balanced
  rw [hflight] at hbalanced
  let Settled : BaseService Modem → Prop := fun b =>
    Owes w outcomes s { b with metrics := b.metrics.add (outcomeMetric o.2) }
  have hclear : ∀ b' : BaseService Modem, b' = b → Settled
      { b' with inFlight := none, fragments := if o.2 = some true then b'.fragments else []
                log := b'.log ++ [.settled o.1 o.2] } := by
    rintro _ rfl
    exact ⟨h.steady, hbalanced.settled o.2, hrest, h.session, h.kept⟩
  have hcount : Triple Settled (add (outcomeMetric o.2) : ModemOp Unit) (Returns fun _ => Owes w outcomes s) :=
    fun b h => { h with }
  refine (Triple.modify hclear).seq fun _ => ?_
  rcases ho : o.2 with _ | _ | _ <;> rw [ho] at hcount <;> exact hcount

/-- All outcomes are acted on. -/
theorem settleAll_owes (outcomes : List Outcome) :
    Triple (Owes w outcomes s) (forEach settle outcomes : ModemOp Unit) (Returns fun _ => Owes w [] s) := by
  induction outcomes with
  | nil => exact fun _ h => h
  | cons o outcomes ih => exact (settle_owes o outcomes).seq fun _ => ih

/-- A new session takes effect when nothing is in flight. -/
theorem followSession_owes (hnone : w.outcomes = []) :
    Triple (Owes w [] s) (followSession : ModemOp Unit) (Returns fun _ => Owes w [] w.session) := by
  refine Triple.get_bind_eq fun b h => ?_
  have hsession : b.transport.session = w.session := h.steady.session
  apply Triple.when
  · intro hne
    have hidle : w.pendingSend = none := by
      rcases h.kept with hs | hp
      · exact absurd (hsession.trans (hs.trans h.session.symm)) hne
      · exact hp
    have hflight : b.inFlight = none := by
      have howed := h.owed
      rw [hnone, hidle] at howed
      cases hb : b.inFlight with
      | none => rfl
      | some s => rw [hb] at howed; simp at howed
    have hmove : ∀ b' : BaseService Modem, b' = b → Owes w [] w.session
        { b' with session := Transport.session b.transport, messageId := 0, fragments := [], inFlight := none
                  log := b'.log ++ [.session (Transport.session b.transport)] } := by
      rintro _ rfl
      have howed := h.owed
      have hbalanced := h.balanced
      rw [hflight] at howed hbalanced
      exact ⟨h.steady, hbalanced, howed, hsession, Or.inl rfl⟩
    exact (Triple.modify hmove).seq fun _ => owes_add (by decide) _
  · rintro hsame _ rfl
    rw [not_not] at hsame
    exact { h with session := hsame.symm.trans hsession, kept := Or.inl rfl }

theorem dropStale_owes (now : ℚ) (queue : List RtcmFrame) :
    Triple (Owes w [] s) (dropStale now queue : ModemOp Unit) (Returns fun _ => Owes w [] s) := by
  induction queue with
  | nil => exact fun _ h => h
  | cons f queue ih =>
    refine Triple.ite (fun _ => ?_) fun _ _ h => h
    refine (Triple.modify (R := Owes w [] s) fun b h => { h with }).seq fun _ => ?_
    exact (owes_add (by decide) _).seq fun _ => ih

theorem load_owes (now : ℚ) :
    Triple (Owes w [] s) (load now : ModemOp Unit) (Returns fun _ => Owes w [] s) := by
  refine Triple.get_bind fun b _ => ?_
  split
  · simp only
    split
    · exact (Triple.modify (R := Owes w [] s) fun b h => { h with }).seq fun _ => owes_add (by decide) _
    · exact Triple.modify fun b h => { h with }
  · exact fun _ h => h

/-! ## Sending -/

/-- The transport has accepted a send that the service does not count yet. -/
def Accepted (sequence : Nat) (b : BaseService Modem) : Prop :=
  Owing { b with inFlight := some sequence, metrics := b.metrics.add .rtcmFragmentsUsbAccepted }

/-- The end of `send_air`. -/
def HandedOver : Except Failure (Option Nat) → BaseService Modem → Prop
  | .ok (some sequence), b => Accepted sequence b
  | _, b => Owing b

theorem sendAir_owes (io : Io × Io) (encoded : Bytes) :
    Triple (fun b => b.inFlight = none ∧ Owes w [] w.session b) (ofTransport (Transport.sendAir io encoded))
      HandedOver := by
  rintro b ⟨hflight, h⟩
  have hs := Modem.sendAir_spec encoded _ (h.steady.enter io.2)
  simp only [ofTransport, Transport.sendAir]
  generalize Modem.sendAir encoded (b.transport.enter io.2) = res at hs
  obtain ⟨r, m⟩ := res
  match r, hs with
  | .ok (some q), ⟨hq, t, hv⟩ =>
    refine ⟨_, w.session, Modem.Steady.sent h.steady.returned hv, ?_, ?_, h.session, Or.inl rfl⟩
    · have hbalanced := h.balanced
      rw [hflight] at hbalanced
      exact hbalanced.sent q
    · have howed := h.owed
      rw [hflight, List.nil_append, Option.toList_none, List.append_eq_nil_iff] at howed
      show w.outcomes.map Prod.fst ++ [q] = [q]
      rw [howed.1, List.nil_append]
  | .ok none, hs => exact h.moved hs rfl rfl rfl
  | .error e, hs => exact h.moved hs.2 rfl rfl rfl

theorem sendAirResult_owes (now : ℚ) (fragment : Application.Frame × ℚ) (encoded : Bytes) (r : Option Nat) :
    Triple (HandedOver (.ok r)) (sendAirResult now fragment encoded r) (Returns fun _ => Owing) := by
  cases r with
  | none =>
    refine Triple.exists_pre fun w => Triple.exists_pre fun s => ?_
    refine (Triple.modify (R := Owes w [] s) fun b h => { h with }).seq fun _ => ?_
    exact (owes_add (by decide) _).mono fun _ b h => ⟨w, s, h⟩
  | some sequence =>
    refine Triple.exists_pre fun w => Triple.exists_pre fun s => ?_
    let Counting : BaseService Modem → Prop := fun b =>
      Owes w [] s { b with metrics := b.metrics.add .rtcmFragmentsUsbAccepted }
    refine (Triple.modify (R := Counting) fun b h => { h with }).seq fun _ => ?_
    have hcount : Triple Counting (add .rtcmFragmentsUsbAccepted : ModemOp Unit) (Returns fun _ => Owes w [] s) :=
      fun b h => { h with }
    refine hcount.seq fun _ => (owes_add (by decide) _).seq fun _ => ?_
    exact Triple.modify fun b h => ⟨w, s, { h with }⟩

/-- The end of a call: whether or not something escapes from it, the transport owes the fragment in flight. -/
theorem owing_of {α : Type} {x : ModemOp α} {P : BaseService Modem → Prop}
    (hx : Triple P x (Returns fun _ => Owes w hand s)) (hhand : hand = []) : Triple P x (fun _ => Owing) := by
  subst hhand
  refine hx.weaken (fun _ h => h) fun r b h => ?_
  cases r with
  | ok a => exact ⟨w, s, h⟩
  | error e => exact h.elim

theorem sendFirst_owes (io : Io × Io) (now : ℚ) (fragment : Application.Frame × ℚ) (rest : List (Application.Frame × ℚ)) :
    Triple (fun b => b.inFlight = none ∧ Owes w [] w.session b) (sendFirst io now fragment rest) (fun _ => Owing) := by
  apply Triple.ite
  · intro _
    refine (Triple.modify (R := Owes w [] w.session) fun b h => { h.2 with }).seq fun _ => ?_
    exact owing_of (owes_add (by decide) _) rfl
  · intro _
    let Idle : BaseService Modem → Prop := fun b => b.inFlight = none ∧ Owes w [] w.session b
    refine (Triple.modify (R := Idle) fun b h => ⟨h.1, { h.2 with }⟩).seq fun _ => ?_
    have hencode : Triple Idle (ofApplication (Application.encode { fragment.1 with sourceAgeMs := ageMs now fragment }) :
        ModemOp Bytes) (fun _ => Idle) := by
      intro b h
      unfold ofApplication
      split
      · exact h
      · exact h
    refine hencode.bind (fun encoded => ?_) fun e b h => ⟨w, w.session, h.2⟩
    refine (sendAir_owes io encoded).bind (fun r => ?_) fun e b h => h
    refine (sendAirResult_owes now fragment encoded r).weaken (fun _ h => h) fun r b h => ?_
    cases r with
    | ok u => exact h
    | error e => exact h.elim

theorem send_owes (io : Io × Io) (now : ℚ) : Triple (Owes w [] w.session) (send io now) (fun _ => Owing) := by
  refine Triple.get_bind_eq fun b hb => ?_
  have hstay : Triple (fun t => t = b) (pure () : ModemOp Unit) (fun _ => Owing) := by
    rintro _ rfl
    exact ⟨w, w.session, hb⟩
  split
  · exact hstay
  · rename_i fragment rest hfragments
    refine Triple.ite (fun hready => ?_) fun _ => hstay
    have hidle : ∀ t : BaseService Modem, t = b → t.inFlight = none ∧ Owes w [] w.session t := by
      rintro _ rfl
      exact ⟨hready.1, hb⟩
    exact (sendFirst_owes io now fragment rest).pre hidle

theorem step_owes (io : Io × Io) (now : ℚ) : Triple Owing (step io now) (fun _ => Owing) := by
  refine Triple.get_bind fun b _ => (tick_owes io _).seq fun _ => takeTxOutcomes_owes.seq fun outcomes => ?_
  refine Triple.exists_pre fun w => Triple.exists_pre fun s => Triple.assume fun hnone => ?_
  refine (settleAll_owes outcomes).seq fun _ => (followSession_owes hnone).seq fun _ => ?_
  refine Triple.get_bind fun b _ => (dropStale_owes now b.queue).seq fun _ => Triple.get_bind fun b _ => ?_
  apply Triple.ite
  · intro _
    exact owing_of (owes_updateQueueMetrics now) rfl
  · intro _
    refine (load_owes now).seq fun _ => (send_owes io now).bind (fun _ => ?_) fun e b h => h
    refine Triple.exists_pre fun w => Triple.exists_pre fun s => (owes_updateRates now).seq fun _ => ?_
    exact owing_of (owes_updateQueueMetrics now) rfl

/-! ## Every run -/

theorem call_owing {α : Type} {x : ModemOp α} (hx : Triple Owing x (fun _ => Owing)) {b : BaseService Modem}
    (h : Owing b) :
    Owing (call x b) := by
  obtain ⟨w, s, h⟩ := h
  have hs := hx { b with log := [] } ⟨w, s, { h with }⟩
  unfold call
  generalize x { b with log := [] } = res at hs
  obtain ⟨r, b'⟩ := res
  cases r with
  | ok a => exact hs
  | error e =>
    obtain ⟨w', s', h'⟩ := hs
    exact ⟨w', s', { h' with }⟩

theorem next_owing (i : Input (Io × Io)) {b : BaseService Modem} (h : Owing b) : Owing (next i b) := by
  cases i with
  | ingest chunk now =>
    exact call_owing (Triple.exists_pre fun w => Triple.exists_pre fun s => owing_of (owes_ingest chunk now) rfl) h
  | resetSource => exact call_owing (Triple.exists_pre fun w => Triple.exists_pre fun s =>
    owing_of owes_resetSource rfl) h
  | step io now => exact call_owing (step_owes io now) h

theorem init_owing (draw : Nat) (reconnectSeconds : ℚ) : Owing (init (Modem.init draw reconnectSeconds)) :=
  ⟨Modem.window₀ draw, _, Modem.init_steady draw reconnectSeconds, ⟨rfl, rfl⟩, rfl, rfl, Or.inl rfl⟩

/-- The fragment in flight is the send that waits at the transport, or whose outcome does. -/
structure InFlightAccounted (b : BaseService Modem) : Prop extends Balanced b.metrics b.inFlight where
  inFlight : ∀ s, b.inFlight = some s ↔
    (∃ started, (s, Protocol.Msg.radioSend, started) ∈ b.transport.pending) ∨
      ∃ completed, (s, completed) ∈ b.transport.txOutcomes

theorem Owing.accounted {b : BaseService Modem} (h : Owing b) : InFlightAccounted b := by
  obtain ⟨w, s, h⟩ := h
  refine ⟨h.balanced, fun q => ?_⟩
  have howed : b.inFlight = some q ↔ q ∈ w.outcomes.map Prod.fst ++ w.pendingSend.toList := by
    have hmem : q ∈ b.inFlight.toList ↔ b.inFlight = some q := Option.mem_toList
    rw [← hmem, ← h.owed, List.nil_append]
  have hpending : q ∈ w.pendingSend.toList ↔ ∃ started, (q, Protocol.Msg.radioSend, started) ∈ w.pending.toList := by
    cases hw : w.pending with
    | none => simp [Window.pendingSend, hw]
    | some p =>
      obtain ⟨q', typ, t⟩ := p
      by_cases ht : typ = Protocol.Msg.radioSend
      · simp [Window.pendingSend, hw, ht]
      · simp [Window.pendingSend, hw, ht, Ne.symm ht]
  have houtcomes : q ∈ w.outcomes.map Prod.fst ↔ ∃ completed, (q, completed) ∈ w.outcomes := by simp
  rw [howed, List.mem_append, or_comm, hpending, houtcomes, h.steady.pending, h.steady.outcomes]

/-- **Accounting of the fragment in flight**: after every call, in every run over every behaviour of the port, the
clock and the random numbers. -/
theorem in_flight_accounted (draw : Nat) (reconnectSeconds : ℚ) (is : List (Input (Io × Io))) :
    InFlightAccounted (run next (init (Modem.init draw reconnectSeconds)) is) :=
  (run_inv (init_owing draw reconnectSeconds) (fun i _ h => next_owing i h) is).accounted

end BaseService

end LoraLink.Service
