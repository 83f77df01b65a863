import LoraLink.Lib.Run
import LoraLink.Service.Base

/-!
# A transport that records what it is handed

`Recorder T` is the transport `T` with a list of the payloads that `send_air` was given, each with the session at that
time. The service does not see the difference: `run_forget`.
-/

namespace LoraLink.Service

open LoraLink.Application LoraLink.Rtcm LoraLink.Host Prog

structure Recorder (T : Type) where
  transport : T
  /-- What `send_air` was given, and in which session. -/
  handed : List (Nat × Bytes) := []

variable {T E : Type}

def Recorder.call {α : Type} (x : Prog T Exn α) : Prog (Recorder T) Exn α := fun r =>
  ((x r.transport).1, { r with transport := (x r.transport).2 })

instance [Transport T E] : Transport (Recorder T) E where
  tick io diagnosticsIdle := Recorder.call (Transport.tick io diagnosticsIdle)
  takeTxOutcomes := Recorder.call (Transport.takeTxOutcomes (E := E))
  sendAir io payload := fun r => Recorder.call (Transport.sendAir io payload)
    { r with handed := r.handed ++ [(Transport.session r.transport, payload)] }
  session r := Transport.session r.transport
  connected r := Transport.connected r.transport
  readyForSend r := Transport.readyForSend r.transport

namespace BaseService

/-- The service without the record. -/
def forget (b : BaseService (Recorder T)) : BaseService T :=
  { transport := b.transport.transport, parser := b.parser, queue := b.queue, fragments := b.fragments
    inputRate := b.inputRate, loraRate := b.loraRate, inFlight := b.inFlight, session := b.session
    messageId := b.messageId, metrics := b.metrics, log := b.log }

/-- The two programs do the same, apart from the record. -/
def Mirrors {α : Type} (x : Op (Recorder T) α) (y : Op T α) : Prop := ∀ b, y b.forget = ((x b).1, (x b).2.forget)

section Rules

variable {α β : Type} {x : Op (Recorder T) α} {y : Op T α}

theorem Mirrors.bind (hx : Mirrors x y) {f : α → Op (Recorder T) β} {g : α → Op T β} (hf : ∀ a, Mirrors (f a) (g a)) :
    Mirrors (x >>= f) (y >>= g) := by
  intro b
  have h := hx b
  rcases hres : x b with ⟨r, b'⟩
  rw [hres] at h
  cases r with
  | ok a =>
    rw [bind_ok h, bind_ok hres]
    exact hf a b'
  | error e =>
    rw [bind_error h, bind_error hres]

theorem Mirrors.get {f : BaseService (Recorder T) → Op (Recorder T) β} {g : BaseService T → Op T β}
    (h : ∀ b, Mirrors (f b) (g b.forget)) : Mirrors (Prog.get >>= f) (Prog.get >>= g) := fun b => h b b

theorem Mirrors.when {c c' : Prop} [Decidable c] [Decidable c'] (hc : c ↔ c') {x : Op (Recorder T) Unit} {y : Op T Unit}
    (h : Mirrors x y) : Mirrors (Prog.when c x) (Prog.when c' y) := by
  unfold Prog.when
  by_cases hp : c
  · rw [if_pos hp, if_pos (hc.mp hp)]
    exact h
  · rw [if_neg hp, if_neg fun h => hp (hc.mpr h)]
    exact fun _ => rfl

theorem Mirrors.forEach {f : α → Op (Recorder T) Unit} {g : α → Op T Unit} (h : ∀ a, Mirrors (f a) (g a)) (l : List α) :
    Mirrors (Prog.forEach f l) (Prog.forEach g l) := by
  induction l with
  | nil => exact fun _ => rfl
  | cons a l ih => exact (h a).bind fun _ => ih

end Rules

/-! ## The functions -/

theorem mirrors_updateRates (now : ℚ) : Mirrors (updateRates now : Op (Recorder T) Unit) (updateRates now) := fun _ => rfl

theorem mirrors_updateQueueMetrics (now : ℚ) :
    Mirrors (updateQueueMetrics now : Op (Recorder T) Unit) (updateQueueMetrics now) := fun _ => rfl

theorem mirrors_enqueue (f : RtcmFrame) : Mirrors (enqueue f : Op (Recorder T) Unit) (enqueue f) := by
  refine Mirrors.bind (fun _ => rfl) fun _ => Mirrors.get fun b => ?_
  exact (Mirrors.when Iff.rfl fun _ => rfl).bind fun _ _ => rfl

theorem mirrors_ingest (chunk : Bytes) (now : ℚ) :
    Mirrors (ingest chunk now : Op (Recorder T) Nat) (ingest chunk now) := by
  refine Mirrors.get fun b => ?_
  refine Mirrors.bind (fun _ => rfl) fun _ => Mirrors.bind (fun _ => rfl) fun _ => ?_
  refine (Mirrors.forEach mirrors_enqueue _).bind fun _ => (mirrors_updateQueueMetrics now).bind fun _ => ?_
  exact Mirrors.bind (fun _ => rfl) fun _ => (mirrors_updateRates now).bind fun _ _ => rfl

theorem mirrors_resetSource : Mirrors (resetSource : Op (Recorder T) Unit) resetSource := by
  refine Mirrors.get fun b => Mirrors.bind (fun _ => rfl) fun _ => ?_
  refine (Mirrors.when Iff.rfl fun _ => rfl).bind fun _ => (Mirrors.when Iff.rfl fun _ => rfl).bind fun _ _ => rfl

theorem mirrors_settle (o : Outcome) : Mirrors (settle o : Op (Recorder T) Unit) (settle o) := by
  refine Mirrors.get fun b => ?_
  by_cases h : some o.1 ≠ b.inFlight
  · rw [if_pos h, if_pos (show some o.1 ≠ b.forget.inFlight from h)]
    exact fun _ => rfl
  · rw [if_neg h, if_neg (show ¬ some o.1 ≠ b.forget.inFlight from h)]
    refine Mirrors.bind (fun _ => rfl) fun _ => ?_
    rcases o.2 with _ | _ | _ <;> exact fun _ => rfl

theorem mirrors_dropStale (now : ℚ) (queue : List RtcmFrame) :
    Mirrors (dropStale now queue : Op (Recorder T) Unit) (dropStale now queue) := by
  induction queue with
  | nil => exact fun _ => rfl
  | cons f queue ih =>
    unfold dropStale
    split
    · exact Mirrors.bind (fun _ => rfl) fun _ => Mirrors.bind (fun _ => rfl) fun _ => ih
    · exact fun _ => rfl

theorem mirrors_load (now : ℚ) : Mirrors (load now : Op (Recorder T) Unit) (load now) := by
  refine Mirrors.get fun b => ?_
  rcases hfragments : b.fragments with _ | ⟨p, fragments⟩
  · rcases hqueue : b.queue with _ | ⟨f, queue⟩
    · simp only [forget, hfragments, hqueue]
      exact fun _ => rfl
    · simp only [forget, hfragments, hqueue]
      cases fragment f.raw b.session (nextMessageId b.messageId) <;> exact fun _ => rfl
  · simp only [forget, hfragments]
    exact fun _ => rfl

variable [Transport T E]

/-- A call of the transport that records nothing. -/
theorem mirrors_call {α : Type} (x : Prog T Exn α) : Mirrors (ofTransport (Recorder.call x)) (ofTransport x) := by
  intro b
  unfold ofTransport Recorder.call forget
  generalize x b.transport.transport = res
  obtain ⟨r, t⟩ := res
  cases r <;> rfl

theorem mirrors_followSession : Mirrors (followSession : Op (Recorder T) Unit) followSession :=
  Mirrors.get fun _ => Mirrors.when Iff.rfl fun _ => rfl

theorem mirrors_sendAir (io : E) (payload : Bytes) :
    Mirrors (ofTransport (Transport.sendAir io payload)) (ofTransport (Transport.sendAir (T := T) io payload)) := by
  intro b
  exact mirrors_call (Transport.sendAir io payload) { b with
    transport := { b.transport with handed := b.transport.handed ++
      [(Transport.session b.transport.transport, payload)] } }

theorem mirrors_send (io : E) (now : ℚ) : Mirrors (send io now : Op (Recorder T) Unit) (send io now) := by
  refine Mirrors.get fun b => ?_
  have hsame : b.forget.fragments = b.fragments := rfl
  rcases hfragments : b.fragments with _ | ⟨fragment, rest⟩
  · simp only [hsame, hfragments]
    exact fun _ => rfl
  · simp only [hsame, hfragments]
    by_cases h : b.inFlight = none ∧ Transport.readyForSend b.transport = true
    · rw [if_pos h, if_pos (show b.forget.inFlight = none ∧ Transport.readyForSend b.forget.transport = true from h)]
      unfold sendFirst
      simp only
      split
      · exact fun _ => rfl
      · refine Mirrors.bind (fun _ => rfl) fun _ => Mirrors.bind (fun b => ?_) fun encoded => ?_
        · unfold ofApplication
          split <;> rfl
        · refine (mirrors_sendAir io encoded).bind fun r => ?_
          cases r <;> exact fun _ => rfl
    · rw [if_neg h, if_neg (show ¬ (b.forget.inFlight = none ∧ Transport.readyForSend b.forget.transport = true) from h)]
      exact fun _ => rfl

theorem mirrors_step (io : E) (now : ℚ) : Mirrors (step io now : Op (Recorder T) Unit) (step io now) := by
  refine Mirrors.get fun b => (mirrors_call _).bind fun _ => (mirrors_call _).bind fun outcomes => ?_
  refine (Mirrors.forEach mirrors_settle outcomes).bind fun _ => mirrors_followSession.bind fun _ => ?_
  refine Mirrors.get fun b => (mirrors_dropStale now b.queue).bind fun _ => Mirrors.get fun b => ?_
  by_cases h : Transport.connected b.transport = false
  · rw [if_pos h, if_pos (show Transport.connected b.forget.transport = false from h)]
    exact mirrors_updateQueueMetrics now
  · rw [if_neg h, if_neg (show ¬ Transport.connected b.forget.transport = false from h)]
    refine (mirrors_load now).bind fun _ => (mirrors_send io now).bind fun _ => ?_
    exact (mirrors_updateRates now).bind fun _ => mirrors_updateQueueMetrics now

/-! ## Calls and runs -/

theorem Mirrors.call {α : Type} {x : Op (Recorder T) α} {y : Op T α} (h : Mirrors x y) (b : BaseService (Recorder T)) :
    BaseService.call y b.forget = (BaseService.call x b).forget := by
  unfold BaseService.call
  have hb := h { b with log := [] }
  rw [show ({ b.forget with log := [] } : BaseService T) =
    ({ b with log := [] } : BaseService (Recorder T)).forget from rfl, hb]
  generalize x { b with log := [] } = res
  obtain ⟨r, b'⟩ := res
  cases r <;> rfl

theorem next_forget (i : Input E) (b : BaseService (Recorder T)) : next i b.forget = (next i b).forget := by
  cases i with
  | ingest chunk now => exact (mirrors_ingest chunk now).call b
  | resetSource => exact mirrors_resetSource.call b
  | step io now => exact (mirrors_step io now).call b

/-- The service does not see that its transport records. -/
theorem run_forget (is : List (Input E)) (b : BaseService (Recorder T)) :
    (run next b is).forget = run next b.forget is := by
  induction is generalizing b with
  | nil => rfl
  | cons i is ih =>
    rw [run, run, ih, next_forget]

end BaseService

end LoraLink.Service
