import LoraLink.Lib.Path
import LoraLink.Lib.Run
import LoraLink.Service.Base

/-!
# The outbox of the base service

`Outbox` is what matters of a `BaseService`: the queued frames, the fragments of the message being sent, the one in
flight and the key of the message. `Outbox.on` says how each event changes it and `Allowed` what each event needs.

- `next_path`: every call follows a path of the outbox, whatever the transport does, and `CallLog` says which events
  it logs: those of a step come in the order of its phases (`StepShape`);
- `run_path`: every run follows a path.
-/

namespace LoraLink.Service

open LoraLink.Application LoraLink.Rtcm LoraLink.Host Prog

structure Outbox where
  queue : List RtcmFrame := []
  fragments : List (Frame × ℚ) := []
  /-- The fragment that is being handed to the transport. -/
  hand : Option (Frame × ℚ) := none
  inFlight : Option Nat := none
  session : Nat
  messageId : Nat := 0

namespace Outbox

def on (o : Outbox) : Event → Outbox
  | .ingested f => { o with queue := o.queue ++ [f] }
  | .overflowed | .stale _ _ => { o with queue := o.queue.drop 1 }
  | .reset => { o with queue := [], fragments := [] }
  | .settled _ completed =>
    { o with inFlight := none, fragments := if completed = some true then o.fragments else [] }
  | .session s => { o with session := s, messageId := 0, fragments := [], inFlight := none }
  | .loaded f fragments _ =>
    { o with
      queue := o.queue.drop 1, messageId := BaseService.nextMessageId o.messageId
      fragments := fragments.map fun fragment => (fragment, f.receivedAt) }
  | .unfragmentable _ => { o with queue := o.queue.drop 1, messageId := BaseService.nextMessageId o.messageId }
  | .expired _ => { o with fragments := [] }
  | .taken _ _ => { o with fragments := o.fragments.drop 1, hand := o.fragments.head? }
  | .refused => { o with fragments := o.hand.toList ++ o.fragments, hand := none }
  | .sent sequence _ => { o with inFlight := some sequence, hand := none }
  | .raised _ => { o with hand := none }
  | .unexpected _ => o

/-- What an event needs. -/
def Allowed (o : Outbox) : Event → Prop
  | .ingested f => validRtcm3 f.raw = true
  | .settled sequence _ => o.inFlight = some sequence
  | .unexpected sequence => o.inFlight ≠ some sequence
  | .session s => s ≠ o.session
  | .stale f now => o.queue.head? = some f ∧ now - f.receivedAt > 8 / 10
  | .loaded f fragments now => o.hand = none ∧ o.fragments = [] ∧ o.queue.head? = some f ∧ now - f.receivedAt ≤ 8 / 10 ∧
      fragment f.raw o.session (BaseService.nextMessageId o.messageId) = .ok fragments
  | .unfragmentable f => o.fragments = [] ∧ o.queue.head? = some f ∧
      ∃ e, fragment f.raw o.session (BaseService.nextMessageId o.messageId) = .error e
  | .expired now => o.inFlight = none ∧ ∃ p, o.fragments.head? = some p ∧ BaseService.ageMs now p ≥ rtcmTransportTtlMs
  | .taken f now => o.hand = none ∧ o.inFlight = none ∧
      ∃ p, o.fragments.head? = some p ∧ p.1 = f ∧ BaseService.ageMs now p < rtcmTransportTtlMs
  | .refused => o.inFlight = none ∧ o.hand.isSome
  | .sent _ payload => o.inFlight = none ∧ ∃ f age, o.hand.map Prod.fst = some f ∧
      encode { f with sourceAgeMs := age } = .ok payload
  | .overflowed | .reset | .raised _ => True

/-- A list of events from the outbox `o₀`, each allowed when it happened, and the outbox they lead to. -/
abbrev Path (o₀ : Outbox) : List Event → Outbox → Prop := LoraLink.Path Allowed on o₀

end Outbox

/-- The events of the first phase of a step. -/
def Event.IsOutcome : Event → Prop
  | .settled _ _ | .unexpected _ => True
  | _ => False

/-- The events of `ingest`. -/
def Event.IsIngress : Event → Prop
  | .ingested _ | .overflowed => True
  | _ => False

/-- The events of the last phase of a step. -/
inductive Sending (now : ℚ) : List Event → Prop
  | nothing : Sending now []
  | expired : Sending now [.expired now]
  | refused (f : Frame) : Sending now [.taken f now, .refused]
  | sent (f : Frame) (sequence : Nat) (payload : Bytes) : Sending now [.taken f now, .sent sequence payload]

/-- The events of one step at time `now`: outcomes, a new session, stale frames, a message loaded, a fragment sent. -/
structure StepShape (now : ℚ) (outcomes session stales load sending : List Event) : Prop where
  outcomes : ∀ e ∈ outcomes, e.IsOutcome
  session : session = [] ∨ ∃ s, session = [.session s]
  stales : ∀ e ∈ stales, ∃ f, e = .stale f now
  load : load = [] ∨ (∃ f fragments, load = [.loaded f fragments now]) ∨ ∃ f, load = [.unfragmentable f]
  sending : Sending now sending

namespace BaseService

variable {T E : Type} {o₀ o : Outbox} {L : List Event}

/-- The outbox of a service with nothing in hand. -/
def outbox (b : BaseService T) : Outbox :=
  { queue := b.queue, fragments := b.fragments, inFlight := b.inFlight, session := b.session, messageId := b.messageId }

/-- The fields of the service are those of the outbox. -/
structure Shows (o : Outbox) (b : BaseService T) : Prop where
  queue : b.queue = o.queue
  fragments : b.fragments = o.fragments
  inFlight : b.inFlight = o.inFlight
  session : b.session = o.session
  messageId : b.messageId = o.messageId

/-- The call has logged `L`, a path from `o₀` to `o`, and the service shows `o`. -/
structure Reached (o₀ : Outbox) (L : List Event) (o : Outbox) (b : BaseService T) : Prop extends Shows o b where
  log : b.log = L
  path : Outbox.Path o₀ L o

/-- The call has logged `L`, a path from `o₀`, and has nothing in hand. -/
def At (o₀ : Outbox) (L : List Event) (b : BaseService T) : Prop := ∃ o, o.hand = none ∧ Reached o₀ L o b

/-- The call has logged more. -/
def Grown (o₀ : Outbox) (L : List Event) (Q : List Event → Prop) (b : BaseService T) : Prop :=
  ∃ L', Q L' ∧ At o₀ (L ++ L') b

/-! ## The small operations -/

/-- An event that the service has acted on. -/
theorem Reached.snoc {b b' : BaseService T} {e : Event} (h : Reached o₀ L o b) (he : o.Allowed e)
    (hlog : b'.log = b.log ++ [e]) (hshow : Shows (o.on e) b') : Reached o₀ (L ++ [e]) (o.on e) b' :=
  { hshow with log := by rw [hlog, h.log], path := h.path.snoc he }

theorem reached_add (name : Metric) (amount : Nat) :
    Triple (Reached o₀ L o) (add name amount : Op T Unit) (Returns fun _ => Reached o₀ L o) := fun _ h => { h with }

theorem reached_set (name : Metric) (value : Int) :
    Triple (Reached o₀ L o) (set name value : Op T Unit) (Returns fun _ => Reached o₀ L o) := fun _ h => { h with }

theorem reached_updateRates (now : ℚ) :
    Triple (Reached o₀ L o) (updateRates now : Op T Unit) (Returns fun _ => Reached o₀ L o) := by
  refine (Triple.modify (R := Reached o₀ L o) fun b h => { h with }).seq fun _ => Triple.get_bind fun b _ => ?_
  exact (reached_set _ _).seq fun _ => (reached_set _ _).seq fun _ => reached_set _ _

theorem reached_updateQueueMetrics (now : ℚ) :
    Triple (Reached o₀ L o) (updateQueueMetrics now : Op T Unit) (Returns fun _ => Reached o₀ L o) := by
  refine Triple.get_bind fun b _ => ?_
  exact (reached_set _ _).seq fun _ => (reached_set _ _).seq fun _ => (reached_set _ _).seq fun _ => reached_set _ _

/-- A program that keeps every outbox keeps the log. -/
theorem at_of {α : Type} {x : Op T α} (hx : ∀ o, Triple (Reached o₀ L o) x (Returns fun _ => Reached o₀ L o)) :
    Triple (At o₀ L) x (Returns fun _ => At o₀ L) := by
  refine Triple.exists_pre fun o => Triple.assume fun hhand => ?_
  exact (hx o).mono fun _ b h => ⟨o, hhand, h⟩

theorem grown_of {α : Type} {x : Op T α} {Q : List Event → Prop}
    (hx : ∀ L o, Triple (Reached o₀ L o) x (Returns fun _ => Reached o₀ L o)) :
    Triple (Grown o₀ L Q) x (Returns fun _ => Grown o₀ L Q) := by
  refine Triple.exists_pre fun L' => Triple.assume fun hL' => ?_
  exact (at_of (hx (L ++ L'))).mono fun _ b h => ⟨L', hL', h⟩

/-- A call of the transport changes nothing else. -/
theorem reached_ofTransport {α : Type} (x : Prog T Exn α) :
    Triple (Reached o₀ L o) (ofTransport x) (fun _ => Reached (T := T) o₀ L o) := by
  intro b h
  unfold ofTransport
  split
  · exact { h with }
  · exact { h with }

theorem at_ofTransport {α : Type} (x : Prog T Exn α) :
    Triple (At o₀ L) (ofTransport x) (fun _ => At (T := T) o₀ L) := by
  rintro b ⟨o, hhand, h⟩
  exact ⟨o, hhand, reached_ofTransport x b h⟩

/-! ## Ingress -/

theorem enqueue_spec {f : RtcmFrame} (hf : validRtcm3 f.raw = true) :
    Triple (Grown o₀ L fun L' => ∀ e ∈ L', Event.IsIngress e) (enqueue f : Op T Unit)
      (Returns fun _ => Grown o₀ L fun L' => ∀ e ∈ L', Event.IsIngress e) := by
  refine Triple.exists_pre fun L' => Triple.assume fun hL' => Triple.exists_pre fun o => Triple.assume fun hhand => ?_
  have hin : ∀ e ∈ L' ++ [.ingested f], Event.IsIngress e := by
    intro e he
    rcases List.mem_append.mp he with he | he
    · exact hL' e he
    · rw [List.mem_singleton.mp he]; trivial
  have hpush : ∀ b : BaseService T, Reached o₀ (L ++ L') o b →
      Reached o₀ (L ++ L' ++ [.ingested f]) (o.on (.ingested f))
        { b with queue := b.queue ++ [f], log := b.log ++ [.ingested f] } := by
    intro b h
    refine h.snoc hf rfl { h with queue := ?_ }
    show b.queue ++ [f] = o.queue ++ [f]
    rw [h.queue]
  refine (Triple.modify hpush).seq fun _ => Triple.get_bind fun b _ => ?_
  have hmax : Triple (Reached o₀ (L ++ L' ++ [.ingested f]) (o.on (.ingested f)))
      (Prog.when (b.queue.length > maxQueuedRtcmFrames) overflow : Op T Unit)
      (Returns fun _ => Grown o₀ L fun L' => ∀ e ∈ L', Event.IsIngress e) := by
    apply Triple.when
    · intro _
      have hdrop : ∀ b : BaseService T, Reached o₀ (L ++ L' ++ [.ingested f]) (o.on (.ingested f)) b →
          Reached o₀ (L ++ L' ++ [.ingested f] ++ [.overflowed]) ((o.on (.ingested f)).on .overflowed)
            { b with queue := b.queue.drop 1, log := b.log ++ [.overflowed] } := by
        intro b h
        refine h.snoc trivial rfl { h with queue := ?_ }
        show b.queue.drop 1 = (o.on (.ingested f)).queue.drop 1
        rw [h.queue]
      refine (Triple.modify hdrop).seq fun _ => (reached_add _ _).mono fun _ b h => ?_
      refine ⟨L' ++ [.ingested f] ++ [.overflowed], ?_, (o.on (.ingested f)).on .overflowed,
        hhand, by simpa [List.append_assoc] using h⟩
      intro e he
      rcases List.mem_append.mp he with he | he
      · exact hin e he
      · rw [List.mem_singleton.mp he]; trivial
    · intro _ b h
      exact ⟨L' ++ [.ingested f], hin, o.on (.ingested f), hhand, by simpa [List.append_assoc] using h⟩
  exact hmax.seq fun _ => (grown_of fun _ _ => reached_add _ _).seq fun _ => grown_of fun _ _ => reached_add _ _

theorem ingest_spec (chunk : Bytes) (now : ℚ) :
    Triple (At o₀ L) (ingest chunk now : Op T Nat)
      (Returns fun _ => Grown o₀ L fun L' => ∀ e ∈ L', e.IsIngress) := by
  refine Triple.get_bind fun b _ => ?_
  have hmade := b.parser.feed_made chunk now
  generalize b.parser.feed chunk now = r at hmade
  obtain ⟨parser, frames⟩ := r
  have hparser : ∀ b : BaseService T, At o₀ L b → Grown o₀ L (fun L' => ∀ e ∈ L', e.IsIngress)
      { b with parser := parser, inputRate := b.inputRate ++ [(now, chunk.length, frames.length)] } := by
    rintro b ⟨o, hhand, h⟩
    exact ⟨[], by simp, o, hhand, by simpa using { h with }⟩
  refine (Triple.modify hparser).seq fun _ => (grown_of fun _ _ => reached_add _ _).seq fun _ => ?_
  refine (Triple.forEach fun f hf => enqueue_spec (hmade f hf).valid).seq fun _ => ?_
  refine (grown_of fun _ _ => reached_updateQueueMetrics now).seq fun _ => ?_
  refine (grown_of fun _ _ => reached_set _ _).seq fun _ => ?_
  exact (grown_of fun _ _ => reached_updateRates now).seq fun _ => fun _ h => h

theorem resetSource_spec : Triple (At o₀ L) (resetSource : Op T Unit) (Returns fun _ => At o₀ (L ++ [.reset])) := by
  refine Triple.exists_pre fun o => Triple.assume fun hhand => Triple.get_bind fun b _ => ?_
  refine (Triple.modify (R := Reached o₀ L o) fun b h => { h with }).seq fun _ => ?_
  refine (Triple.when (fun _ => reached_add _ _) fun _ b h => h).seq fun _ => ?_
  refine (Triple.when (fun _ => reached_add _ _) fun _ b h => h).seq fun _ => Triple.modify fun b h => ?_
  exact ⟨o.on .reset, hhand, h.snoc trivial rfl { h with queue := rfl, fragments := rfl }⟩

/-! ## The phases of a step -/

theorem settle_spec (r : Outcome) :
    Triple (Grown o₀ L fun L' => ∀ e ∈ L', e.IsOutcome) (settle r : Op T Unit)
      (Returns fun _ => Grown o₀ L fun L' => ∀ e ∈ L', e.IsOutcome) := by
  obtain ⟨sequence, completed⟩ := r
  refine Triple.exists_pre fun L' => Triple.assume fun hL' => Triple.exists_pre fun o => Triple.assume fun hhand => ?_
  have hin : ∀ e : Event, e.IsOutcome → ∀ e' ∈ L' ++ [e], e'.IsOutcome := by
    intro e he e' he'
    rcases List.mem_append.mp he' with he' | he'
    · exact hL' e' he'
    · rw [List.mem_singleton.mp he']; exact he
  have hend : ∀ e : Event, e.IsOutcome → ∀ (o' : Outbox) (b : BaseService T), o'.hand = none →
      Reached o₀ (L ++ L' ++ [e]) o' b → Grown o₀ L (fun L' => ∀ e ∈ L', e.IsOutcome) b := by
    intro e he o' b hhand h
    exact ⟨L' ++ [e], hin e he, o', hhand, by rwa [← List.append_assoc]⟩
  refine Triple.get_bind fun b hb => Triple.ite (fun hne => ?_) fun heq => ?_
  · have hnote : Triple (Reached o₀ (L ++ L') o) (note (.unexpected sequence) : Op T Unit)
        (Returns fun _ => Reached o₀ (L ++ L' ++ [.unexpected sequence]) o) := by
      intro b' h
      refine h.snoc ?_ rfl { h with }
      intro hsome
      exact hne (hb.inFlight.trans hsome).symm
    exact hnote.seq fun _ => (reached_add _ _).mono fun _ b h => hend (.unexpected sequence) trivial _ b hhand h
  · rw [not_not] at heq
    have hflight : o.inFlight = some sequence := by rw [← hb.inFlight, ← heq]
    have hclear : ∀ b : BaseService T, Reached o₀ (L ++ L') o b →
        Reached o₀ (L ++ L' ++ [.settled sequence completed]) (o.on (.settled sequence completed))
          { b with inFlight := none, fragments := if completed = some true then b.fragments else []
                   log := b.log ++ [.settled sequence completed] } := by
      intro b h
      refine h.snoc hflight rfl { h with inFlight := rfl, fragments := ?_ }
      show (if completed = some true then b.fragments else []) = if completed = some true then o.fragments else []
      rw [h.fragments]
    have hadd : ∀ name, Triple (Reached o₀ (L ++ L' ++ [.settled sequence completed])
        (o.on (.settled sequence completed))) (add name : Op T Unit)
        (Returns fun _ => Grown o₀ L fun L' => ∀ e ∈ L', e.IsOutcome) := by
      intro name
      exact (reached_add _ _).mono fun _ b h =>
        hend (.settled sequence completed) trivial (o.on (.settled sequence completed)) b hhand h
    refine (Triple.modify hclear).seq fun _ => ?_
    split
    · exact hadd _
    · exact hadd _
    · exact hadd _

/-- The queue has come down to `queue`. -/
def Dropped (o₀ : Outbox) (L : List Event) (now : ℚ) (queue : List RtcmFrame) (b : BaseService T) : Prop :=
  b.queue = queue ∧ Grown o₀ L (fun L' => ∀ e ∈ L', ∃ f, e = .stale f now) b

/-- The call has logged `L`, and the first frame of the queue is not stale. -/
def AtFresh (o₀ : Outbox) (L : List Event) (now : ℚ) (b : BaseService T) : Prop :=
  (∀ f ∈ b.queue.head?, now - f.receivedAt ≤ 8 / 10) ∧ At o₀ L b

/-- The stale frames are dropped. -/
def Fresh (o₀ : Outbox) (L : List Event) (now : ℚ) (b : BaseService T) : Prop :=
  ∃ stales, (∀ e ∈ stales, ∃ f, e = .stale f now) ∧ AtFresh o₀ (L ++ stales) now b

theorem dropStale_spec (now : ℚ) (queue : List RtcmFrame) :
    Triple (Dropped o₀ L now queue) (dropStale now queue : Op T Unit) (Returns fun _ => Fresh o₀ L now) := by
  induction queue with
  | nil =>
    rintro b ⟨hq, L', hL', h⟩
    refine ⟨L', hL', ?_, h⟩
    intro f hf
    have hnil : b.queue = [] := hq
    rw [show (dropStale now [] b).2 = b from rfl, hnil] at hf
    cases hf
  | cons f queue ih =>
    refine Triple.ite (fun hold => ?_) fun hfresh => ?_
    · have hdrop : ∀ b : BaseService T, Dropped o₀ L now (f :: queue) b →
          Dropped o₀ L now queue { b with queue := queue, log := b.log ++ [.stale f now] } := by
        rintro b ⟨hq, L', hL', o, hhand, h⟩
        refine ⟨rfl, L' ++ [.stale f now], ?_, o.on (.stale f now), hhand, ?_⟩
        · intro e he
          rcases List.mem_append.mp he with he | he
          · exact hL' e he
          · exact ⟨f, List.mem_singleton.mp he⟩
        · have hqueue : o.queue = f :: queue := by rw [← h.queue, hq]
          rw [← List.append_assoc]
          refine h.snoc ⟨by rw [hqueue]; rfl, hold⟩ rfl { h with queue := ?_ }
          show queue = o.queue.drop 1
          rw [hqueue]
          rfl
      have hadd : Triple (Dropped o₀ L now queue) (add .rtcmFramesDroppedStale : Op T Unit)
          (Returns fun _ => Dropped o₀ L now queue) := by
        rintro b ⟨hq, L', hL', o, hhand, h⟩
        exact ⟨hq, L', hL', o, hhand, { h with }⟩
      exact (Triple.modify hdrop).seq fun _ => hadd.seq fun _ => ih
    · rintro b ⟨hq, L', hL', h⟩
      refine ⟨L', hL', ?_, h⟩
      intro g hg
      have hhead : b.queue.head? = some f := by rw [hq]; rfl
      obtain rfl : g = f := Option.some.inj (hg.symm.trans hhead)
      exact not_lt.mp hfresh

section Transport

variable [Transport T E]

theorem followSession_spec :
    Triple (At o₀ L) (followSession : Op T Unit)
      (Returns fun _ => Grown o₀ L fun L' => L' = [] ∨ ∃ s, L' = [.session s]) := by
  refine Triple.exists_pre fun o => Triple.assume fun hhand => Triple.get_bind fun b hb => ?_
  refine Triple.when (fun hne => ?_) fun _ b h => ?_
  · have hmove : ∀ b' : BaseService T, Reached o₀ L o b' →
        Reached o₀ (L ++ [.session (Transport.session b.transport)]) (o.on (.session (Transport.session b.transport)))
          { b' with session := Transport.session b.transport, messageId := 0, fragments := [], inFlight := none
                    log := b'.log ++ [.session (Transport.session b.transport)] } := by
      intro b' h
      refine h.snoc ?_ rfl { h with session := rfl, messageId := rfl, fragments := rfl, inFlight := rfl }
      show Transport.session b.transport ≠ o.session
      rw [← hb.session]
      exact hne
    refine (Triple.modify hmove).seq fun _ => (reached_add _ _).mono fun _ b' h => ?_
    exact ⟨_, Or.inr ⟨_, rfl⟩, o.on (.session (Transport.session b.transport)), hhand, h⟩
  · exact ⟨[], Or.inl rfl, o, hhand, by simpa using h⟩

/-- The events of `load`. -/
def IsLoad (now : ℚ) (L' : List Event) : Prop :=
  L' = [] ∨ (∃ f fragments, L' = [.loaded f fragments now]) ∨ ∃ f, L' = [.unfragmentable f]

theorem load_spec (now : ℚ) :
    Triple (AtFresh o₀ L now) (load now : Op T Unit) (Returns fun _ => Grown o₀ L (IsLoad now)) := by
  refine Triple.get_bind_eq fun b ⟨hfresh, o, hhand, hb⟩ => Triple.pre (P := Reached o₀ L o) ?_ fun _ ht => ht ▸ hb
  have hnone : Triple (Reached o₀ L o) (pure () : Op T Unit) (Returns fun _ => Grown o₀ L (IsLoad now)) := by
    intro b h
    refine ⟨[], Or.inl rfl, o, hhand, ?_⟩
    rw [List.append_nil]
    exact h
  split
  · rename_i f queue hfragments hqueue
    have hempty : o.fragments = [] := by rw [← hb.fragments, hfragments]
    have hhead : o.queue = f :: queue := by rw [← hb.queue, hqueue]
    simp only
    rw [hb.session, hb.messageId]
    split
    · rename_i e herror
      have hdrop : ∀ b : BaseService T, Reached o₀ L o b →
          Reached o₀ (L ++ [.unfragmentable f]) (o.on (.unfragmentable f))
            { b with queue := queue, messageId := nextMessageId o.messageId, log := b.log ++ [.unfragmentable f] } := by
        intro b h
        refine h.snoc ⟨hempty, by rw [hhead]; rfl, e, herror⟩ rfl { h with queue := ?_, messageId := rfl }
        show queue = o.queue.drop 1
        rw [hhead]
        rfl
      refine (Triple.modify hdrop).seq fun _ => (reached_add _ _).mono fun _ b h => ?_
      exact ⟨_, Or.inr (Or.inr ⟨f, rfl⟩), o.on (.unfragmentable f), hhand, h⟩
    · rename_i fragments hok
      have hyoung : now - f.receivedAt ≤ 8 / 10 := hfresh f (by rw [hqueue]; rfl)
      refine Triple.modify fun b h => ⟨_, Or.inr (Or.inl ⟨f, fragments, rfl⟩), o.on (.loaded f fragments now), hhand, ?_⟩
      refine h.snoc ⟨hhand, hempty, by rw [hhead]; rfl, hyoung, hok⟩ rfl
        { h with queue := ?_, fragments := rfl, messageId := rfl }
      show queue = o.queue.drop 1
      rw [hhead]
      rfl
  · exact hnone

/-- The end of the last phase: what it has logged, unless something was raised with the fragment in hand. -/
def Sent (o₀ : Outbox) (L : List Event) (now : ℚ) : Except Failure Unit → BaseService T → Prop
  | .ok _, b => Grown o₀ L (Sending now) b
  | .error _, b => ∃ f o, Reached o₀ (L ++ [.taken f now]) o b

theorem sendAirResult_spec (now : ℚ) {fragment : Frame × ℚ} {age : Int} {encoded : Bytes}
    (henc : encode { fragment.1 with sourceAgeMs := age } = .ok encoded) (hhand : o.hand = some fragment)
    (hflight : o.inFlight = none) (r : Option Nat) :
    Triple (Reached o₀ (L ++ [.taken fragment.1 now]) o) (sendAirResult now fragment encoded r : Op T Unit)
      (Returns fun _ => Grown o₀ L (Sending now)) := by
  have hend : ∀ (e : Event) (o' : Outbox) (b : BaseService T), Sending now [.taken fragment.1 now, e] → o'.hand = none →
      Reached o₀ (L ++ [.taken fragment.1 now] ++ [e]) o' b → Grown o₀ L (Sending now) b := by
    intro e o' b hs hhand h
    exact ⟨_, hs, o', hhand, by simpa [List.append_assoc] using h⟩
  cases r with
  | none =>
    have hback : ∀ b : BaseService T, Reached o₀ (L ++ [.taken fragment.1 now]) o b →
        Reached o₀ (L ++ [.taken fragment.1 now] ++ [.refused]) (o.on .refused)
          { b with fragments := fragment :: b.fragments, log := b.log ++ [.refused] } := by
      intro b h
      refine h.snoc ⟨hflight, by rw [hhand]; rfl⟩ rfl { h with fragments := ?_ }
      show fragment :: b.fragments = o.hand.toList ++ o.fragments
      rw [hhand, h.fragments]
      rfl
    exact (Triple.modify hback).seq fun _ => (reached_add _ _).mono fun _ b h => hend _ _ _ (.refused _) rfl h
  | some sequence =>
    have hgo : ∀ b : BaseService T, Reached o₀ (L ++ [.taken fragment.1 now]) o b →
        Reached o₀ (L ++ [.taken fragment.1 now] ++ [.sent sequence encoded]) (o.on (.sent sequence encoded))
          { b with inFlight := some sequence, log := b.log ++ [.sent sequence encoded] } := by
      intro b h
      exact h.snoc ⟨hflight, fragment.1, age, by rw [hhand]; rfl, henc⟩ rfl { h with inFlight := rfl }
    refine (Triple.modify hgo).seq fun _ => (reached_add _ _).seq fun _ => (reached_add _ _).seq fun _ => ?_
    exact Triple.modify fun b h => hend _ _ _ (.sent _ _ _) rfl { h with }

theorem sendFirst_spec (io : E) (now : ℚ) {fragment : Frame × ℚ} {rest : List (Frame × ℚ)} (hnone : o.hand = none)
    (hflight : o.inFlight = none) (hfragments : o.fragments = fragment :: rest) :
    Triple (Reached o₀ L o) (sendFirst io now fragment rest : Op T Unit) (Sent o₀ L now) := by
  have hhead : o.fragments.head? = some fragment := by rw [hfragments]; rfl
  refine Triple.ite (fun hold => ?_) fun hyoung => ?_
  · have hclear : ∀ b : BaseService T, Reached o₀ L o b → Reached o₀ (L ++ [.expired now]) (o.on (.expired now))
        { b with fragments := [], log := b.log ++ [.expired now] } := by
      intro b h
      exact h.snoc ⟨hflight, fragment, hhead, hold⟩ rfl { h with fragments := rfl }
    refine (Triple.modify hclear).seq fun _ b h => ?_
    exact ⟨_, .expired, o.on (.expired now), hnone, reached_add _ _ b h⟩
  · have htake : ∀ b : BaseService T, Reached o₀ L o b →
        Reached o₀ (L ++ [.taken fragment.1 now]) (o.on (.taken fragment.1 now))
          { b with fragments := rest, log := b.log ++ [.taken fragment.1 now] } := by
      intro b h
      refine h.snoc ⟨hnone, hflight, fragment, hhead, rfl, lt_of_not_ge hyoung⟩ rfl { h with fragments := ?_ }
      show rest = o.fragments.drop 1
      rw [hfragments]
      rfl
    refine (Triple.modify htake).seq fun _ => ?_
    generalize ageMs now fragment = age
    have hencode : Triple (Reached o₀ (L ++ [.taken fragment.1 now]) (o.on (.taken fragment.1 now)))
        (ofApplication (encode { fragment.1 with sourceAgeMs := age }) : Op T Bytes) (fun r b =>
          Reached o₀ (L ++ [.taken fragment.1 now]) (o.on (.taken fragment.1 now)) b ∧
            ∀ encoded, r = .ok encoded → encode { fragment.1 with sourceAgeMs := age } = .ok encoded) := by
      intro b h
      unfold ofApplication
      split
      · rename_i encoded henc
        exact ⟨h, fun _ heq => by rw [henc]; cases heq; rfl⟩
      · exact ⟨h, fun _ heq => by cases heq⟩
    refine hencode.bind (fun encoded => ?_) fun e b h => ⟨fragment.1, _, h.1⟩
    refine Triple.pre (P := fun b => encode { fragment.1 with sourceAgeMs := age } = .ok encoded ∧
      Reached o₀ (L ++ [.taken fragment.1 now]) (o.on (.taken fragment.1 now)) b) ?_ fun b h => ⟨h.2 _ rfl, h.1⟩
    refine Triple.assume fun henc => ?_
    refine (reached_ofTransport _).bind (fun r => ?_) fun e b h => ⟨fragment.1, _, h⟩
    have hresult :=
      @sendAirResult_spec T o₀ (o.on (.taken fragment.1 now)) L now fragment age encoded henc hhead hflight r
    refine hresult.weaken (fun _ h => h) fun r b h => ?_
    cases r with
    | ok u => exact h
    | error e => exact h.elim

theorem send_spec (io : E) (now : ℚ) : Triple (At o₀ L) (send io now : Op T Unit) (Sent o₀ L now) := by
  refine Triple.exists_pre fun o => Triple.assume fun hhand => Triple.get_bind fun b hb => ?_
  have hnone : Triple (Reached o₀ L o) (pure () : Op T Unit) (Sent o₀ L now) := by
    intro b h
    refine ⟨[], .nothing, o, hhand, ?_⟩
    rw [List.append_nil]
    exact h
  split
  · exact hnone
  · rename_i fragment rest hfragments
    refine Triple.ite (fun hready => ?_) fun _ => hnone
    exact sendFirst_spec io now hhand (hb.inFlight ▸ hready.1) (hb.fragments ▸ hfragments)

/-- What a step has logged that something escaped from: it may have lost the fragment it had taken. -/
inductive Cut (now : ℚ) : List Event → Prop
  | early : Cut now []
  | late {outcomes session stales load : List Event} (h : StepShape now outcomes session stales load []) (f : Frame) :
    Cut now (outcomes ++ session ++ stales ++ load ++ [.taken f now])

/-- The end of a step. -/
def Stepped (o₀ : Outbox) (now : ℚ) : Except Failure Unit → BaseService T → Prop
  | .ok _, b => ∃ outcomes session stales load sending, StepShape now outcomes session stales load sending ∧
      At o₀ (outcomes ++ session ++ stales ++ load ++ sending) b
  | .error _, b => ∃ L o, Cut now L ∧ Reached o₀ L o b

theorem step_spec (io : E) (now : ℚ) : Triple (At o₀ []) (step io now : Op T Unit) (Stepped o₀ now) := by
  have hcut : ∀ (e : Failure) (b : BaseService T), At o₀ [] b → Stepped o₀ now (.error e) b := by
    rintro e b ⟨o, -, h⟩
    exact ⟨[], o, .early, h⟩
  refine Triple.get_bind fun b _ => (at_ofTransport _).bind (fun _ => ?_) hcut
  refine (at_ofTransport _).bind (fun outcomes => ?_) hcut
  have hsettle : Triple (At o₀ []) (forEach settle outcomes : Op T Unit)
      (Returns fun _ => Grown o₀ [] fun L' => ∀ e ∈ L', e.IsOutcome) := by
    refine (Triple.forEach fun r _ => settle_spec r).pre fun b h => ⟨[], by simp, h⟩
  refine hsettle.seq fun _ => Triple.exists_pre fun outcomes => Triple.assume fun houtcomes => ?_
  rw [List.nil_append]
  refine followSession_spec.seq fun _ => Triple.exists_pre fun session => Triple.assume fun hsession => ?_
  refine Triple.get_bind_eq fun b hb => ?_
  have hstales : Triple (fun b' => b' = b) (dropStale now b.queue : Op T Unit)
      (Returns fun _ => Fresh o₀ (outcomes ++ session) now) := by
    refine (dropStale_spec now b.queue).pre fun b' hb' => ?_
    subst hb'
    exact ⟨rfl, [], by simp, by simpa using hb⟩
  refine hstales.seq fun _ => Triple.exists_pre fun stales => Triple.assume fun hstale => ?_
  refine Triple.get_bind fun b _ => Triple.ite (fun _ => ?_) fun _ => ?_
  · refine (at_of fun _ => reached_updateQueueMetrics now).weaken (fun _ h => h.2) fun r b h => ?_
    cases r with
    | ok u =>
      refine ⟨outcomes, session, stales, [], [], ⟨houtcomes, hsession, hstale, Or.inl rfl, .nothing⟩, ?_⟩
      rw [List.append_nil, List.append_nil]
      exact h
    | error e => exact h.elim
  · refine (load_spec now).seq fun _ => Triple.exists_pre fun load => Triple.assume fun hload => ?_
    refine (send_spec io now).bind (fun _ => ?_) fun e b h => ?_
    · refine Triple.exists_pre fun sending => Triple.assume fun hsending => ?_
      have hshape : StepShape now outcomes session stales load sending := ⟨houtcomes, hsession, hstale, hload, hsending⟩
      refine (at_of fun _ => reached_updateRates now).seq fun _ => ?_
      refine (at_of fun _ => reached_updateQueueMetrics now).weaken (fun _ h => h) fun r b h => ?_
      cases r with
      | ok u => exact ⟨_, _, _, _, _, hshape, h⟩
      | error e => exact h.elim
    · obtain ⟨f, o, h⟩ := h
      exact ⟨_, o, .late ⟨houtcomes, hsession, hstale, hload, .nothing⟩ f, h⟩

end Transport

/-! ## Calls and runs -/

/-- What a call logs. -/
inductive CallLog {E : Type} : Input E → List Event → Prop
  | ingest {chunk : Bytes} {now : ℚ} {L : List Event} (h : ∀ e ∈ L, e.IsIngress) : CallLog (.ingest chunk now) L
  | resetSource : CallLog .resetSource [.reset]
  | step {io : E} {now : ℚ} {outcomes session stales load sending : List Event}
    (h : StepShape now outcomes session stales load sending) :
    CallLog (.step io now) (outcomes ++ session ++ stales ++ load ++ sending)
  | raised {io : E} {now : ℚ} {L : List Event} (h : Cut now L) (e : Failure) : CallLog (.step io now) (L ++ [.raised e])

/-- Every call follows a path, from outbox to outbox. -/
theorem next_path [Transport T E] (i : Input E) {b : BaseService T} (h : Shows o b) (hhand : o.hand = none) :
    ∃ o', Outbox.Path o (next i b).log o' ∧ Shows o' (next i b) ∧ o'.hand = none ∧ CallLog i (next i b).log := by
  have hstart : At o [] ({ b with log := [] } : BaseService T) := ⟨o, hhand, { h with log := rfl, path := .nil }⟩
  cases i with
  | ingest chunk now =>
    have hspec := ingest_spec chunk now _ hstart
    simp only [next, call]
    generalize ingest chunk now ({ b with log := [] } : BaseService T) = res at hspec
    obtain ⟨r, b'⟩ := res
    cases r with
    | ok n =>
      obtain ⟨L', hL', o', hhand', h'⟩ := hspec
      rw [List.nil_append] at h'
      exact ⟨o', h'.log ▸ h'.path, h'.toShows, hhand', .ingest (h'.log ▸ hL')⟩
    | error e => exact hspec.elim
  | resetSource =>
    have hspec := resetSource_spec _ hstart
    simp only [next, call]
    generalize resetSource ({ b with log := [] } : BaseService T) = res at hspec
    obtain ⟨r, b'⟩ := res
    cases r with
    | ok u =>
      obtain ⟨o', hhand', h'⟩ := hspec
      have hlog : b'.log = [.reset] := h'.log
      exact ⟨o', h'.log ▸ h'.path, h'.toShows, hhand', by rw [hlog]; exact .resetSource⟩
    | error e => exact hspec.elim
  | step io now =>
    have hspec := step_spec io now _ hstart
    simp only [next, call]
    generalize step io now ({ b with log := [] } : BaseService T) = res at hspec
    obtain ⟨r, b'⟩ := res
    cases r with
    | ok u =>
      obtain ⟨_, _, _, _, _, hshape, o', hhand', h'⟩ := hspec
      exact ⟨o', h'.log ▸ h'.path, h'.toShows, hhand', by rw [h'.log]; exact .step hshape⟩
    | error e =>
      obtain ⟨L, o', hL, h'⟩ := hspec
      have hlog : b'.log = L := h'.log
      refine ⟨o'.on (.raised e), ?_, { h'.toShows with }, rfl, ?_⟩
      · show Outbox.Path o (b'.log ++ [.raised e]) (o'.on (.raised e))
        rw [hlog]
        exact h'.path.snoc (show o'.Allowed (.raised e) from trivial)
      · show CallLog _ (b'.log ++ [.raised e])
        rw [hlog]
        exact .raised hL e

/-- The events of a move. -/
def eventsOf (x : Move (BaseService T) (Input E)) : List Event := x.after.log

/-- The events of a trace. -/
abbrev history (trace : List (Move (BaseService T) (Input E))) : List Event := outputs eventsOf trace

/-- Every run follows a path. -/
theorem run_path [Transport T E] (is : List (Input E)) : ∀ {o : Outbox} {b : BaseService T}, Shows o b →
    o.hand = none →
    ∃ o', Outbox.Path o (history (trace next b is)) o' ∧ Shows o' (run next b is) ∧ o'.hand = none := by
  induction is with
  | nil =>
    intro o b h hhand
    exact ⟨o, .nil, h, hhand⟩
  | cons i is ih =>
    intro o b h hhand
    obtain ⟨o₁, hpath₁, h₁, hhand₁, -⟩ := next_path i h hhand
    obtain ⟨o₂, hpath₂, h₂, hhand₂⟩ := ih h₁ hhand₁
    exact ⟨o₂, hpath₁.append hpath₂, h₂, hhand₂⟩

theorem shows_outbox (b : BaseService T) : Shows b.outbox b := ⟨rfl, rfl, rfl, rfl, rfl⟩

end BaseService

end LoraLink.Service
