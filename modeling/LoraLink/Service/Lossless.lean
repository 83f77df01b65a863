import Mathlib.Data.Rat.Floor
import LoraLink.App.RtcmStream
import LoraLink.Service.Relay

/-!
# From the base to the robot without loss

The base is fed valid frames and hands their fragments to its transport, which stays in one session, accepts every send
and completes it.

- `Carries`: what the base keeps: everything ingested is in its queue or has become a message, and every fragment of the
  messages has been sent or waits;
- `step_going`, `ingest_going`: every call keeps it unless it logs a failure, as long as nothing waits for too long;
- `run_sent`: what the base has sent when it is idle again;
- `lossless`: what the base was fed, the robot has published.
-/

namespace LoraLink.Service

open LoraLink.Application LoraLink.Rtcm LoraLink.Host Prog
open scoped List

/-- The frames that have become messages. -/
def loadedIn (H : List Event) : List Bytes := H.filterMap fun
  | .loaded f _ _ => some f.raw
  | _ => none

@[simp] theorem loadedIn_append (H H' : List Event) : loadedIn (H ++ H') = loadedIn H ++ loadedIn H' :=
  List.filterMap_append

/-- The metrics of the base that count losses. -/
def Metric.Loses : Metric → Prop
  | .rtcmFramesDroppedQueueFull | .rtcmFramesDroppedSourceReset | .rtcmFragmentsDroppedSourceReset
  | .rtcmFragmentsTxFailed | .rtcmFragmentsTxUncertain | .appSenderSessionResets | .rtcmFramesDroppedStale
  | .rtcmFragmentFailures | .rtcmFragmentsDroppedStale | .rtcmFragmentsDroppedDisconnected | .rtcmCrcFailures => True
  | _ => False

/-- What the transport or the source may do that loses something. -/
def Event.Fails : Event → Prop
  | .session _ | .refused | .reset | .raised (.transport _) => True
  | .settled _ completed => completed ≠ some true
  | _ => False

instance : DecidablePred Event.Fails
  | .session _ | .refused | .reset | .raised (.transport _) => isTrue trivial
  | .settled _ completed => inferInstanceAs (Decidable (completed ≠ some true))
  | .ingested _ | .overflowed | .unexpected _ | .stale _ _ | .loaded _ _ _ | .unfragmentable _ | .expired _ | .taken _ _
  | .sent _ _ | .raised (.application _) => isFalse id

namespace BaseService

variable {T E : Type} {s₀ : Nat} {p : RtcmStreamParser} {raws : List Bytes} {H : List Event} {hand : List Frame}
  {Q W : ℚ → Prop} {now : ℚ}

/-! ## What the base keeps -/

/-- After the events `H` nothing has been lost: the frames `raws` that have been ingested are queued or have become
messages, and of the messages every fragment has been sent, is in hand or waits. `Q` and `W` are about the times of what
is queued and of what waits. -/
structure Carries (s₀ : Nat) (p : RtcmStreamParser) (raws : List Bytes) (H : List Event) (hand : List Frame)
    (Q W : ℚ → Prop) (b : BaseService T) : Prop where
  parser : b.parser = p
  source : ingestedIn H = raws
  session : b.session = s₀
  messageId : b.messageId = messageIdAt (loadedIn H).length
  ingested : raws = loadedIn H ++ b.queue.map RtcmFrame.raw
  valid : ∀ raw ∈ raws, validRtcm3 raw = true
  sent : framesOf (sentIn H) ++ (hand ++ b.fragments.map Prod.fst) = (messagesOf s₀ (loadedIn H)).flatMap fragmentsOf
  fresh : ∀ payload ∈ sentIn H, ∃ f, decode payload = .ok f ∧ f.sourceAgeMs < rtcmTransportTtlMs
  queued : ∀ f ∈ b.queue, Q f.receivedAt
  waiting : ∀ p ∈ b.fragments, W p.2
  metrics : ∀ name : Metric, name.Loses → b.metrics name = 0

/-- Something has been logged that may have lost something. -/
def Failed (b : BaseService T) : Prop := ∃ e ∈ b.log, e.Fails

/-- If nothing was logged that loses something, the base has kept everything. -/
def Going (s₀ : Nat) (p : RtcmStreamParser) (raws : List Bytes) (H : List Event) (hand : List Frame) (Q W : ℚ → Prop)
    (b : BaseService T) : Prop :=
  Failed b ∨ Carries s₀ p raws (H ++ b.log) hand Q W b

/-- The program returns to a state with `P`, or raises what excuses it. -/
def Ends {α : Type} (P : BaseService T → Prop) : Except Failure α → BaseService T → Prop
  | .ok _, b => P b
  | .error (.transport _), _ => True
  | .error (.application _), b => Failed b

theorem ends_of {α : Type} {P R : BaseService T → Prop} {x : Op T α} (h : Triple P x (Returns fun _ => R)) :
    Triple P x (Ends R) := by
  refine h.weaken (fun b hb => hb) fun result b hb => ?_
  cases result with
  | ok a => exact hb
  | error e => exact hb.elim

/-- A sequence of which both parts may raise what excuses it. -/
theorem ends_bind {α β : Type} {P R S : BaseService T → Prop} {x : Op T α} {f : α → Op T β} (hx : Triple P x (Ends R))
    (hf : ∀ a, Triple R (f a) (Ends S)) : Triple P (x >>= f) (Ends S) := by
  refine Triple.bind hx hf fun e b h => ?_
  cases e with
  | transport e => exact trivial
  | application e => exact h

theorem ends_mono {α : Type} {P R S : BaseService T → Prop} {x : Op T α} (h : Triple P x (Ends R))
    (hRS : ∀ b, R b → S b) :
    Triple P x (Ends S) := by
  refine h.weaken (fun _ h => h) fun result b hb => ?_
  cases result with
  | ok a => exact hRS b hb
  | error e =>
    cases e with
    | transport e => exact trivial
    | application e => exact hb

theorem failed_snoc {b b' : BaseService T} {es : List Event} (h : Failed b) (hlog : b'.log = b.log ++ es) :
    Failed b' := by
  obtain ⟨e, he, hfails⟩ := h
  exact ⟨e, by rw [hlog]; exact List.mem_append_left _ he, hfails⟩

theorem failed_last {b : BaseService T} {es : List Event} {e : Event} (hlog : b.log = es ++ [e]) (hfails : e.Fails) :
    Failed b := ⟨e, by rw [hlog]; exact List.mem_append_right _ (List.mem_singleton_self e), hfails⟩

theorem failed_add (name : Metric) (amount : Nat) :
    Triple Failed (add name amount : Op T Unit) (Returns fun _ => Failed) := fun _ h => h

/-- An event that is neither about a frame nor about a payload. -/
theorem Carries.note {b : BaseService T} {e : Event} (h : Carries s₀ p raws (H ++ b.log) hand Q W b)
    (hingested : ingestedIn [e] = []) (hloaded : loadedIn [e] = []) (hsent : sentIn [e] = []) :
    Carries s₀ p raws (H ++ (b.log ++ [e])) hand Q W b := by
  have hingested' : ingestedIn (H ++ (b.log ++ [e])) = ingestedIn (H ++ b.log) := by
    rw [← List.append_assoc, ingestedIn_append, hingested, List.append_nil]
  have hloaded' : loadedIn (H ++ (b.log ++ [e])) = loadedIn (H ++ b.log) := by
    rw [← List.append_assoc, loadedIn_append, hloaded, List.append_nil]
  have hsent' : sentIn (H ++ (b.log ++ [e])) = sentIn (H ++ b.log) := by
    rw [← List.append_assoc, sentIn_append, hsent, List.append_nil]
  constructor
  · exact h.parser
  · rw [hingested']
    exact h.source
  · exact h.session
  · rw [hloaded']
    exact h.messageId
  · rw [hloaded']
    exact h.ingested
  · exact h.valid
  · rw [hsent', hloaded']
    exact h.sent
  · rw [hsent']
    exact h.fresh
  · exact h.queued
  · exact h.waiting
  · exact h.metrics

/-- Counting something else counts no loss. -/
theorem loses_add {name : Metric} (hname : ¬ name.Loses) (amount : Int) {m : Metrics Metric}
    (h : ∀ name : Metric, name.Loses → m name = 0) : ∀ name' : Metric, name'.Loses → m.add name amount name' = 0 := by
  intro name' hloses
  have hne : name' ≠ name := by
    rintro rfl
    exact hname hloses
  rw [Metrics.add_apply, if_neg hne]
  exact h name' hloses

theorem loses_set {name : Metric} (hname : ¬ name.Loses) (value : Int) {m : Metrics Metric}
    (h : ∀ name : Metric, name.Loses → m name = 0) : ∀ name' : Metric, name'.Loses → m.set name value name' = 0 := by
  intro name' hloses
  have hne : name' ≠ name := by
    rintro rfl
    exact hname hloses
  rw [Metrics.set_apply, if_neg hne]
  exact h name' hloses

theorem going_add {name : Metric} (hname : ¬ name.Loses) (amount : Nat) : Triple (Going s₀ p raws H hand Q W)
    (add name amount : Op T Unit) (Returns fun _ => Going s₀ p raws H hand Q W) := by
  rintro b (h | h)
  · exact Or.inl h
  · exact Or.inr { h with metrics := loses_add hname amount h.metrics }

theorem going_set {name : Metric} (hname : ¬ name.Loses) (value : Int) : Triple (Going s₀ p raws H hand Q W)
    (set name value : Op T Unit) (Returns fun _ => Going s₀ p raws H hand Q W) := by
  rintro b (h | h)
  · exact Or.inl h
  · exact Or.inr { h with metrics := loses_set hname value h.metrics }

theorem going_updateRates (now : ℚ) : Triple (Going s₀ p raws H hand Q W) (updateRates now : Op T Unit)
    (Returns fun _ => Going s₀ p raws H hand Q W) := by
  have hrates : ∀ b : BaseService T, Going s₀ p raws H hand Q W b →
      Going s₀ p raws H hand Q W { b with inputRate := recent now b.inputRate, loraRate := recent now b.loraRate } := by
    rintro b (h | h)
    · exact Or.inl h
    · exact Or.inr { h with }
  refine (Triple.modify hrates).seq fun _ => Triple.get_bind fun b _ => ?_
  exact (going_set id _).seq fun _ => (going_set id _).seq fun _ => going_set id _

theorem going_updateQueueMetrics (now : ℚ) : Triple (Going s₀ p raws H hand Q W) (updateQueueMetrics now : Op T Unit)
    (Returns fun _ => Going s₀ p raws H hand Q W) := by
  refine Triple.get_bind fun b _ => ?_
  exact (going_set id _).seq fun _ => (going_set id _).seq fun _ => (going_set id _).seq fun _ => going_set id _

/-- A call of the transport changes nothing else. -/
theorem going_ofTransport {α : Type} (x : Prog T Exn α) :
    Triple (Going s₀ p raws H hand Q W) (ofTransport x) (Ends (T := T) (Going s₀ p raws H hand Q W)) := by
  intro b h
  unfold ofTransport
  split
  · rcases h with h | h
    · exact Or.inl h
    · exact Or.inr { h with }
  · exact trivial

/-! ## The phases of a step -/

theorem settle_going (o : Outcome) : Triple (Going s₀ p raws H [] Q W) (settle o : Op T Unit)
    (Returns fun _ => Going s₀ p raws H [] Q W) := by
  obtain ⟨sequence, completed⟩ := o
  refine Triple.get_bind fun b _ => Triple.ite (fun _ => ?_) fun _ => ?_
  · have hnote : ∀ b : BaseService T, Going s₀ p raws H [] Q W b →
        Going s₀ p raws H [] Q W { b with log := b.log ++ [.unexpected sequence] } := by
      rintro b (h | h)
      · exact Or.inl (failed_snoc h rfl)
      · exact Or.inr { h.note rfl rfl rfl with }
    exact (Triple.modify hnote).seq fun _ => going_add id 1
  · by_cases hcompleted : completed = some true
    · subst hcompleted
      have hclear : ∀ b : BaseService T, Going s₀ p raws H [] Q W b → Going s₀ p raws H [] Q W
          { b with inFlight := none, log := b.log ++ [.settled sequence (some true)] } := by
        rintro b (h | h)
        · exact Or.inl (failed_snoc h rfl)
        · exact Or.inr { h.note rfl rfl rfl with }
      exact (Triple.modify hclear).seq fun _ => going_add id 1
    · have hfail : ∀ b : BaseService T, Going s₀ p raws H [] Q W b → Failed
          { b with
            inFlight := none, fragments := if completed = some true then b.fragments else []
            log := b.log ++ [.settled sequence completed] } := fun b _ => failed_last rfl hcompleted
      refine (Triple.modify hfail).seq fun _ => ?_
      have hcount : ∀ name, Triple Failed (add name : Op T Unit) (Returns fun _ => Going s₀ p raws H [] Q W) :=
        fun name => (failed_add name 1).mono fun _ _ h => Or.inl h
      rcases completed with _ | _ | _ <;> exact hcount _

variable [Transport T E]

/-- A new session is a failure. -/
theorem followSession_going : Triple (Going s₀ p raws H [] Q W) (followSession : Op T Unit)
    (Returns fun _ => Going s₀ p raws H [] Q W) := by
  refine Triple.get_bind fun b _ => Triple.when (fun _ => ?_) fun _ b h => h
  have hfail : ∀ b' : BaseService T, Going s₀ p raws H [] Q W b' → Failed
      { b' with
        session := Transport.session b.transport, messageId := 0, fragments := [], inFlight := none
        log := b'.log ++ [.session (Transport.session b.transport)] } := fun b' _ => failed_last rfl trivial
  exact (Triple.modify hfail).seq fun _ => (failed_add _ 1).mono fun _ _ h => Or.inl h

theorem dropStale_failed (now : ℚ) (queue : List RtcmFrame) :
    Triple Failed (dropStale now queue : Op T Unit) (Returns fun _ => Failed) := by
  induction queue with
  | nil => exact fun _ h => h
  | cons f queue ih =>
    refine Triple.ite (fun _ => ?_) fun _ b h => h
    have hdrop : ∀ b : BaseService T, Failed b → Failed { b with queue := queue, log := b.log ++ [.stale f now] } :=
      fun b h => failed_snoc h rfl
    exact (Triple.modify hdrop).seq fun _ => (failed_add _ 1).seq fun _ => ih

/-- Nothing in the queue is too old. -/
theorem dropStale_going (hQ : ∀ t, Q t → now - t ≤ 8 / 10) (queue : List RtcmFrame) :
    Triple (fun b => b.queue = queue ∧ Going s₀ p raws H [] Q W b) (dropStale now queue : Op T Unit)
      (Returns fun _ => Going s₀ p raws H [] Q W) := by
  rintro b ⟨rfl, h | h⟩
  · exact (dropStale_failed now b.queue).mono (fun _ _ h => Or.inl h) b h
  · cases hqueue : b.queue with
    | nil => exact Or.inr h
    | cons f queue =>
      have hyoung : ¬ now - f.receivedAt > 8 / 10 :=
        not_lt.mpr (hQ _ (h.queued f (by rw [hqueue]; exact List.mem_cons_self)))
      unfold dropStale
      rw [if_neg hyoung]
      exact Or.inr h

theorem load_failed (now : ℚ) : Triple Failed (load now : Op T Unit) (Returns fun _ => Failed) := by
  refine Triple.get_bind fun b _ => ?_
  split
  · rename_i f queue _ _
    simp only
    split
    · have hdrop : ∀ b' : BaseService T, Failed b' → Failed
          { b' with queue := queue, messageId := nextMessageId b.messageId, log := b'.log ++ [.unfragmentable f] } :=
        fun b' h => failed_snoc h rfl
      exact (Triple.modify hdrop).seq fun _ => failed_add _ 1
    · exact Triple.modify fun b' h => failed_snoc h rfl
  · exact fun _ h => h

/-- The first frame becomes the next message. -/
theorem load_going (hQW : ∀ t, Q t → W t) : Triple (Going s₀ p raws H [] Q W) (load now : Op T Unit)
    (Returns fun _ => Going s₀ p raws H [] Q W) := by
  rintro b (h | h)
  · exact (load_failed now).mono (fun _ _ h => Or.inl h) b h
  have hload : Triple (fun b' => b' = b) (load now : Op T Unit) (Returns fun _ => Going s₀ p raws H [] Q W) := by
    refine Triple.get_bind_eq fun b' hb' => ?_
    subst hb'
    split
    · rename_i f queue hfragments hqueue
      have hingested : raws = loadedIn (H ++ b'.log) ++ f.raw :: queue.map RtcmFrame.raw := by
        rw [h.ingested, hqueue, List.map_cons]
      have hvalid : validRtcm3 f.raw = true :=
        h.valid f.raw (by rw [hingested]; exact List.mem_append_right _ List.mem_cons_self)
      have hid : nextMessageId b'.messageId = messageIdAt ((loadedIn (H ++ b'.log)).length + 1) := by
        rw [h.messageId, nextMessageId_messageIdAt]
      simp only
      rw [hid, fragment_eq hvalid, h.session]
      refine Triple.modify ?_
      rintro b' rfl
      refine Or.inr ?_
      show Carries s₀ p raws (H ++ (b'.log ++ [.loaded f _ now])) [] Q W _
      have hloaded : ∀ fragments,
          loadedIn (H ++ (b'.log ++ [.loaded f fragments now])) = loadedIn (H ++ b'.log) ++ [f.raw] := by
        intro fragments
        rw [← List.append_assoc, loadedIn_append]
        rfl
      have hsame : ∀ fragments, ingestedIn (H ++ (b'.log ++ [.loaded f fragments now])) = ingestedIn (H ++ b'.log) ∧
          sentIn (H ++ (b'.log ++ [.loaded f fragments now])) = sentIn (H ++ b'.log) := by
        intro fragments
        rw [← List.append_assoc, ingestedIn_append, sentIn_append]
        exact ⟨List.append_nil _, List.append_nil _⟩
      constructor
      · exact h.parser
      · rw [(hsame _).1]
        exact h.source
      · exact h.session
      · rw [hloaded, List.length_append]
        rfl
      · rw [hloaded, hingested, List.append_assoc]
        rfl
      · exact h.valid
      · have hsent := h.sent
        rw [hfragments] at hsent
        rw [hloaded, (hsame _).2, messagesOf_snoc, List.flatMap_append, ← hsent]
        simp [fragmentsOf, message, Function.comp_def]
      · rw [(hsame _).2]
        exact h.fresh
      · intro g hg
        exact h.queued g (by rw [hqueue]; exact List.mem_cons_of_mem _ hg)
      · intro p hp
        obtain ⟨g, -, rfl⟩ := List.mem_map.mp hp
        exact hQW _ (h.queued f (by rw [hqueue]; exact List.mem_cons_self))
      · exact h.metrics
    · rintro b' rfl
      exact Or.inr h
  exact hload b rfl

/-- The age of a fragment is rounded down. -/
theorem ageMs_eq_floor {p : Frame × ℚ} (hle : p.2 ≤ now) : ageMs now p = ⌊(now - p.2) * 1000⌋ := by
  rw [Rat.floor_def']
  exact Int.tdiv_eq_ediv_of_nonneg (Rat.num_nonneg.mpr (by linarith))

/-- The age of a fragment that has waited for less than a second. -/
theorem ageMs_range {p : Frame × ℚ} (hle : p.2 ≤ now) (hlt : now - p.2 < 1) :
    0 ≤ ageMs now p ∧ ageMs now p < rtcmTransportTtlMs := by
  rw [ageMs_eq_floor hle]
  constructor
  · exact Int.floor_nonneg.mpr (by linarith)
  · refine Int.floor_lt.mpr ?_
    simp only [rtcmTransportTtlMs]
    push_cast
    linarith

theorem sendAirResult_failed (fragment : Frame × ℚ) (encoded : Bytes) (r : Option Nat) :
    Triple Failed (sendAirResult now fragment encoded r : Op T Unit) (Ends Failed) := by
  refine ends_of ?_
  cases r with
  | none =>
    have hrefuse : ∀ b : BaseService T, Failed b →
        Failed { b with fragments := fragment :: b.fragments, log := b.log ++ [.refused] } := fun b h => failed_snoc h rfl
    exact (Triple.modify hrefuse).seq fun _ => failed_add _ 1
  | some sequence =>
    have hsend : ∀ b : BaseService T, Failed b →
        Failed { b with inFlight := some sequence, log := b.log ++ [.sent sequence encoded] } :=
          fun b h => failed_snoc h rfl
    refine (Triple.modify hsend).seq fun _ => (failed_add _ 1).seq fun _ => (failed_add _ _).seq fun _ => ?_
    exact Triple.modify fun b h => h

theorem sendFirst_failed (io : E) (now : ℚ) (fragment : Frame × ℚ) (rest : List (Frame × ℚ)) :
    Triple Failed (sendFirst io now fragment rest : Op T Unit) (Ends Failed) := by
  refine Triple.ite (fun _ => ?_) fun _ => ?_
  · have hclear : ∀ b : BaseService T, Failed b → Failed { b with fragments := [], log := b.log ++ [.expired now] } :=
      fun b h => failed_snoc h rfl
    exact ends_of ((Triple.modify hclear).seq fun _ => failed_add _ 1)
  have htake : ∀ b : BaseService T, Failed b →
      Failed { b with fragments := rest, log := b.log ++ [.taken fragment.1 now] } :=
    fun b h => failed_snoc h rfl
  have hencode : ∀ x : Except ApplicationError Bytes, Triple Failed (ofApplication x : Op T Bytes) (Ends Failed) := by
    intro x b h
    unfold ofApplication
    cases x with
    | ok encoded => exact h
    | error e => exact h
  have hcall : ∀ x : Prog T Exn (Option Nat), Triple Failed (ofTransport x) (Ends (T := T) Failed) := by
    intro x b h
    unfold ofTransport
    split
    · exact h
    · exact trivial
  refine (Triple.modify htake).seq fun _ => ends_bind (hencode _) fun encoded => ends_bind (hcall _) fun r => ?_
  exact sendAirResult_failed fragment encoded r

/-- What was in hand is sent. -/
theorem sendAirResult_going {f : Frame} {t : ℚ} {age : Int} {encoded : Bytes} (hage : age < rtcmTransportTtlMs)
    (hencoded : encode { f with sourceAgeMs := age } = .ok encoded) (herase : erase { f with sourceAgeMs := age } = f)
    (r : Option Nat) : Triple (Going s₀ p raws H [f] Q W) (sendAirResult now (f, t) encoded r : Op T Unit)
      (Ends (Going s₀ p raws H [] Q W)) := by
  refine ends_of ?_
  cases r with
  | none =>
    have hrefuse : ∀ b : BaseService T, Going s₀ p raws H [f] Q W b →
        Failed { b with fragments := (f, t) :: b.fragments, log := b.log ++ [.refused] } :=
          fun b _ => failed_last rfl trivial
    exact (Triple.modify hrefuse).seq fun _ => (failed_add _ 1).mono fun _ _ h => Or.inl h
  | some sequence =>
    have hdecode := decode_encode hencoded
    have hsend : ∀ b : BaseService T, Going s₀ p raws H [f] Q W b → Going s₀ p raws H [] Q W
        { b with inFlight := some sequence, log := b.log ++ [.sent sequence encoded] } := by
      rintro b (h | h)
      · exact Or.inl (failed_snoc h rfl)
      refine Or.inr ?_
      show Carries s₀ p raws (H ++ (b.log ++ [.sent sequence encoded])) [] Q W _
      have hsame : ingestedIn (H ++ (b.log ++ [.sent sequence encoded])) = ingestedIn (H ++ b.log) ∧
          loadedIn (H ++ (b.log ++ [.sent sequence encoded])) = loadedIn (H ++ b.log) := by
        rw [← List.append_assoc, ingestedIn_append, loadedIn_append]
        exact ⟨List.append_nil _, List.append_nil _⟩
      have hsent : sentIn (H ++ (b.log ++ [.sent sequence encoded])) = sentIn (H ++ b.log) ++ [encoded] := by
        rw [← List.append_assoc, sentIn_append]
        rfl
      constructor
      · exact h.parser
      · rw [hsame.1]
        exact h.source
      · exact h.session
      · rw [hsame.2]
        exact h.messageId
      · rw [hsame.2]
        exact h.ingested
      · exact h.valid
      · rw [hsame.2, hsent, framesOf_append, framesOf_singleton hdecode, herase, List.append_assoc]
        exact h.sent
      · rw [hsent]
        intro payload hp
        rcases List.mem_append.mp hp with hp | hp
        · exact h.fresh payload hp
        · rw [List.mem_singleton.mp hp]
          exact ⟨_, hdecode, hage⟩
      · exact h.queued
      · exact h.waiting
      · exact h.metrics
    refine (Triple.modify hsend).seq fun _ => (going_add id 1).seq fun _ => (going_add id _).seq fun _ => ?_
    refine Triple.modify ?_
    rintro b (h | h)
    · exact Or.inl h
    · exact Or.inr { h with }

/-- The first fragment is sent. -/
theorem sendFirst_going (hs : 1 ≤ s₀ ∧ s₀ ≤ 2 ^ 32 - 1) (hW : ∀ t, W t → t ≤ now ∧ now - t < 1) (io : E)
    (fragment : Frame × ℚ) (rest : List (Frame × ℚ)) :
    Triple (fun b => b.fragments = fragment :: rest ∧ Going s₀ p raws H [] Q W b)
      (sendFirst io now fragment rest : Op T Unit)
      (Ends (Going s₀ p raws H [] Q W)) := by
  rintro b ⟨hfragments, h | h⟩
  · exact ends_mono (sendFirst_failed io now fragment rest) (fun _ h => Or.inl h) b h
  obtain ⟨hle, hlt⟩ := hW _ (h.waiting fragment (by rw [hfragments]; exact List.mem_cons_self))
  obtain ⟨hage₀, hage⟩ := ageMs_range hle hlt
  have hsent := h.sent
  rw [hfragments, List.nil_append, List.map_cons] at hsent
  obtain ⟨m, hm, hmember⟩ := List.mem_flatMap.mp (hsent ▸ List.mem_append_right _ List.mem_cons_self)
  obtain ⟨index, -, hpiece⟩ := mem_fragmentsOf.mp hmember
  obtain ⟨k, raw, -, rfl⟩ := mem_messagesOf hm
  have hid := messageIdAt_succ k
  have hlimit : ageMs now fragment ≤ 65535 := le_of_lt (hage.trans (by decide))
  have hencodable : Encodable { fragment.1 with sourceAgeMs := ageMs now fragment } := by
    rw [hpiece]
    have hsession : 1 ≤ (s₀ : Int) ∧ (s₀ : Int) ≤ 2 ^ 32 - 1 := by omega
    have hmessage : 1 ≤ (messageIdAt (k + 1) : Int) ∧ (messageIdAt (k + 1) : Int) ≤ 2 ^ 32 - 1 := by omega
    exact encodable_piece raw hsession hmessage ⟨hage₀, hlimit⟩ index
  obtain ⟨encoded, hencoded⟩ := encode_isOk.mpr hencodable
  have herase : erase { fragment.1 with sourceAgeMs := ageMs now fragment } = fragment.1 := by
    rw [hpiece]
    rfl
  have htake : ∀ b' : BaseService T, b' = b → Going s₀ p raws H [fragment.1] Q W
      { b' with fragments := rest, log := b'.log ++ [.taken fragment.1 now] } := by
    rintro b' rfl
    refine Or.inr { h.note rfl rfl rfl with sent := ?_, waiting := fun p hp => ?_ }
    · have hsame : ∀ L : List Event, sentIn (H ++ (L ++ [.taken fragment.1 now])) = sentIn (H ++ L) ∧
          loadedIn (H ++ (L ++ [.taken fragment.1 now])) = loadedIn (H ++ L) := by
        intro L
        rw [← List.append_assoc, sentIn_append, loadedIn_append]
        exact ⟨List.append_nil _, List.append_nil _⟩
      rw [(hsame _).1, (hsame _).2]
      exact hsent
    · exact h.waiting p (by rw [hfragments]; exact List.mem_cons_of_mem _ hp)
  have hall : Triple (fun b' => b' = b) (sendFirst io now fragment rest : Op T Unit)
      (Ends (Going s₀ p raws H [] Q W)) := by
    refine Triple.ite (fun hold => absurd hage (not_lt.mpr hold)) fun _ => ?_
    refine (Triple.modify htake).seq fun _ => ?_
    rw [hencoded]
    exact (show Triple _ (ofApplication (.ok encoded) : Op T Bytes) (Returns fun bytes b' => bytes = encoded ∧
      Going s₀ p raws H [fragment.1] Q W b') from fun b' hb' => ⟨rfl, hb'⟩).seq fun bytes => Triple.assume
        fun hbytes => by
        rw [hbytes]
        exact ends_bind (going_ofTransport _) fun r => sendAirResult_going hage hencoded herase r
  exact hall b rfl

theorem send_going (hs : 1 ≤ s₀ ∧ s₀ ≤ 2 ^ 32 - 1) (hW : ∀ t, W t → t ≤ now ∧ now - t < 1) (io : E) :
    Triple (Going s₀ p raws H [] Q W) (send io now : Op T Unit) (Ends (Going s₀ p raws H [] Q W)) := by
  refine Triple.get_bind_eq fun b h => ?_
  split
  · rintro b' rfl
    exact h
  · rename_i fragment rest hfragments
    refine Triple.ite (fun _ => ?_) fun _ => ?_
    · exact (sendFirst_going hs hW io fragment rest).pre fun b' hb' => by rw [hb']; exact ⟨hfragments, h⟩
    · rintro b' rfl
      exact h

/-- A step that finds nothing too old keeps everything. -/
theorem step_going (hs : 1 ≤ s₀ ∧ s₀ ≤ 2 ^ 32 - 1) (hQ : ∀ t, Q t → now - t ≤ 8 / 10) (hQW : ∀ t, Q t → W t)
    (hW : ∀ t, W t → t ≤ now ∧ now - t < 1) (io : E) :
    Triple (Going s₀ p raws H [] Q W) (step io now : Op T Unit) (Ends (Going s₀ p raws H [] Q W)) := by
  refine Triple.get_bind fun b _ => ends_bind (going_ofTransport _) fun _ => ends_bind (going_ofTransport _)
    fun outcomes => ?_
  refine (Triple.forEach fun o _ => settle_going o).seq fun _ => followSession_going.seq fun _ => ?_
  refine Triple.get_bind_eq fun b h => ?_
  have hstale : Triple (fun b' => b' = b) (dropStale now b.queue : Op T Unit)
      (Returns fun _ => Going s₀ p raws H [] Q W) :=
    (dropStale_going hQ b.queue).pre fun b' hb' => by rw [hb']; exact ⟨rfl, h⟩
  refine hstale.seq fun _ => Triple.get_bind fun b _ => Triple.ite (fun _ => ?_) fun _ => ?_
  · exact ends_of (going_updateQueueMetrics now)
  · refine (load_going hQW).seq fun _ => ends_bind (send_going hs hW io) fun _ => ?_
    exact ends_of ((going_updateRates now).seq fun _ => going_updateQueueMetrics now)

/-! ## Ingress -/

/-- `n` more frames fit into the queue. -/
def Room (n : Nat) (b : BaseService T) : Prop := b.queue.length + n ≤ maxQueuedRtcmFrames

theorem enqueue_going {f : RtcmFrame} (hvalid : validRtcm3 f.raw = true) (hf : Q f.receivedAt) (n : Nat) :
    Triple (fun b => Room (n + 1) b ∧ Going s₀ p raws H [] Q W b) (enqueue f : Op T Unit)
      (Returns fun _ b => Room n b ∧ Going s₀ p (raws ++ [f.raw]) H [] Q W b) := by
  let Enqueued : BaseService T → Prop := fun b => Room n b ∧ Going s₀ p (raws ++ [f.raw]) H [] Q W b
  have happend : ∀ b : BaseService T, Room (n + 1) b ∧ Going s₀ p raws H [] Q W b →
      Enqueued { b with queue := b.queue ++ [f], log := b.log ++ [.ingested f] } := by
    rintro b ⟨hroom, h⟩
    constructor
    · unfold Room at hroom ⊢
      rw [List.length_append, List.length_singleton]
      omega
    rcases h with h | h
    · exact Or.inl (failed_snoc h rfl)
    refine Or.inr ?_
    show Carries s₀ p (raws ++ [f.raw]) (H ++ (b.log ++ [.ingested f])) [] Q W _
    have hsame : loadedIn (H ++ (b.log ++ [.ingested f])) = loadedIn (H ++ b.log) ∧
        sentIn (H ++ (b.log ++ [.ingested f])) = sentIn (H ++ b.log) := by
      rw [← List.append_assoc, loadedIn_append, sentIn_append]
      exact ⟨List.append_nil _, List.append_nil _⟩
    constructor
    · exact h.parser
    · rw [← List.append_assoc, ingestedIn_append, h.source]
      rfl
    · exact h.session
    · rw [hsame.1]
      exact h.messageId
    · rw [hsame.1, h.ingested, List.map_append, List.append_assoc]
      rfl
    · intro raw hraw
      rcases List.mem_append.mp hraw with hraw | hraw
      · exact h.valid raw hraw
      · rw [List.mem_singleton.mp hraw]
        exact hvalid
    · rw [hsame.1, hsame.2]
      exact h.sent
    · rw [hsame.2]
      exact h.fresh
    · intro g hg
      rcases List.mem_append.mp hg with hg | hg
      · exact h.queued g hg
      · rw [List.mem_singleton.mp hg]
        exact hf
    · exact h.waiting
    · exact h.metrics
  have hcount : ∀ name : Metric, ¬ name.Loses → Triple Enqueued (add name : Op T Unit) (Returns fun _ => Enqueued) :=
    fun name hname b h => ⟨h.1, going_add hname 1 b h.2⟩
  refine (Triple.modify happend).seq fun _ => Triple.get_bind fun b h => ?_
  have hfits : ¬ b.queue.length > maxQueuedRtcmFrames := Nat.not_lt.mpr ((Nat.le_add_right _ _).trans h.1)
  refine (Triple.when (fun hfull => absurd hfull hfits) fun _ _ h => h).seq fun _ => ?_
  exact (hcount _ id).seq fun _ => hcount _ id

/-- All frames of a chunk are queued. -/
theorem enqueueAll_going (frames : List RtcmFrame) : ∀ raws : List Bytes,
    (∀ f ∈ frames, validRtcm3 f.raw = true ∧ Q f.receivedAt) →
    Triple (fun b => Room frames.length b ∧ Going s₀ p raws H [] Q W b) (forEach enqueue frames : Op T Unit)
      (Returns fun _ => Going s₀ p (raws ++ frames.map RtcmFrame.raw) H [] Q W) := by
  induction frames with
  | nil =>
    intro raws _ b h
    rw [List.map_nil, List.append_nil]
    exact h.2
  | cons f frames ih =>
    intro raws hmade
    obtain ⟨hvalid, hf⟩ := hmade f List.mem_cons_self
    have hrest := ih (raws ++ [f.raw]) fun g hg => hmade g (List.mem_cons_of_mem _ hg)
    rw [List.append_assoc] at hrest
    exact (enqueue_going hvalid hf frames.length).seq fun _ => hrest

/-- A chunk whose frames fit into the queue. -/
theorem ingest_going (hnow : Q now) (chunk : Bytes) (hcrc : (p.feed chunk now).1.stats.crcFailures = 0) :
    Triple (fun b => Room (p.feed chunk now).2.length b ∧ Carries s₀ p raws (H ++ b.log) [] Q W b)
      (ingest chunk now : Op T Nat)
      (Returns fun _ => Going s₀ (p.feed chunk now).1 (raws ++ (p.feed chunk now).2.map RtcmFrame.raw) H [] Q W) := by
  refine Triple.get_bind_eq fun b ⟨hroom, h⟩ => ?_
  rw [h.parser]
  let Fed : BaseService T → Prop := fun b =>
    Room (p.feed chunk now).2.length b ∧ Going s₀ (p.feed chunk now).1 raws H [] Q W b
  have hfeed : ∀ b' : BaseService T, b' = b → Fed
      { b' with
        parser := (p.feed chunk now).1,
          inputRate := b'.inputRate ++ [(now, chunk.length, (p.feed chunk now).2.length)] } := by
    rintro b' rfl
    exact ⟨hroom, Or.inr { h with parser := rfl }⟩
  have hmade : ∀ f ∈ (p.feed chunk now).2, validRtcm3 f.raw = true ∧ Q f.receivedAt := by
    intro f hf
    obtain ⟨hvalid, -, htime⟩ := RtcmStreamParser.feed_made p chunk now f hf
    exact ⟨hvalid, by rw [htime]; exact hnow⟩
  have hcount : Triple Fed (add .rtcmInputBytes chunk.length : Op T Unit) (Returns fun _ => Fed) :=
    fun b h => ⟨h.1, going_add id _ b h.2⟩
  let Kept : BaseService T → Prop :=
    Going s₀ (p.feed chunk now).1 (raws ++ (p.feed chunk now).2.map RtcmFrame.raw) H [] Q W
  have hset : Triple Kept (set .rtcmCrcFailures (p.feed chunk now).1.stats.crcFailures : Op T Unit)
      (Returns fun _ => Kept) := by
    rintro b (h | h)
    · exact Or.inl h
    · refine Or.inr { h with metrics := fun name hname => ?_ }
      rw [hcrc]
      show b.metrics.set .rtcmCrcFailures 0 name = 0
      rw [Metrics.set_apply]
      split
      · rfl
      · exact h.metrics name hname
  refine (Triple.modify hfeed).seq fun _ => hcount.seq fun _ => (enqueueAll_going _ _ hmade).seq fun _ => ?_
  exact (going_updateQueueMetrics now).seq fun _ => hset.seq fun _ => (going_updateRates now).seq fun _ _ h => h

/-! ## Runs -/

/-- What a call feeds to the parser. -/
def fedBy : Input E → List (Bytes × ℚ)
  | .ingest chunk now => [(chunk, now)]
  | _ => []

/-- The chunks that a run ingests. -/
def chunksIn (is : List (Input E)) : List (Bytes × ℚ) := is.flatMap fedBy

/-- The time of a call. -/
def timeOf : Input E → Option ℚ
  | .ingest _ now | .step _ now => some now
  | .resetSource => none

/-- Whatever a call finds in the queue was ingested at most 0.8 s ago, and what waits for the transport less than a second
ago; what it ingests fits into the queue. -/
def Timely (x : Move (BaseService T) (Input E)) : Prop :=
  match x.input with
  | .ingest chunk now => x.before.queue.length + (x.before.parser.feed chunk now).2.length ≤ maxQueuedRtcmFrames
  | .resetSource => True
  | .step _ now => (∀ f ∈ x.before.queue, now - f.receivedAt ≤ 8 / 10) ∧ ∀ p ∈ x.before.fragments, now - p.2 < 1

instance : ∀ x : Move (BaseService T) (Input E), Decidable (Timely x)
  | ⟨b, .ingest chunk now, _⟩ =>
    inferInstanceAs (Decidable (b.queue.length + (b.parser.feed chunk now).2.length ≤ maxQueuedRtcmFrames))
  | ⟨_, .resetSource, _⟩ => isTrue trivial
  | ⟨b, .step _ now, _⟩ =>
    inferInstanceAs (Decidable ((∀ f ∈ b.queue, now - f.receivedAt ≤ 8 / 10) ∧ ∀ p ∈ b.fragments, now - p.2 < 1))

/-- A call keeps everything; its time is not before the times of what it finds (`Q`), and those after it are not before
its own (`W`). -/
theorem next_carries (hs : 1 ≤ s₀ ∧ s₀ ≤ 2 ^ 32 - 1) (i : Input E) {b : BaseService T}
    (h : Carries s₀ p raws H [] Q Q b) (hcalm : ∀ e ∈ (next i b).log, ¬ e.Fails) (htimely : Timely ⟨b, i, next i b⟩)
    (hcrc : (p.feedAll (fedBy i)).1.stats.crcFailures = 0) (hbefore : ∀ now ∈ timeOf i, ∀ t, Q t → t ≤ now)
    (hQW : ∀ t, Q t → W t) (hafter : ∀ now ∈ timeOf i, W now) :
    Carries s₀ (p.feedAll (fedBy i)).1 (raws ++ (p.feedAll (fedBy i)).2.map RtcmFrame.raw) (H ++ (next i b).log) [] W W
      (next i b) := by
  have hstart : Carries s₀ p raws (H ++ []) [] Q Q ({ b with log := [] } : BaseService T) := by
    rw [List.append_nil]
    exact { h with }
  cases i with
  | ingest chunk now =>
    have hpast : Carries s₀ p raws (H ++ []) [] W W ({ b with log := [] } : BaseService T) :=
      { hstart with
        queued := fun f hf => hQW _ (h.queued f hf)
        waiting := fun q hq => hQW _ (h.waiting q hq) }
    have hroom : Room (p.feed chunk now).2.length ({ b with log := [] } : BaseService T) := by
      have hfits : b.queue.length + (b.parser.feed chunk now).2.length ≤ maxQueuedRtcmFrames := htimely
      rw [h.parser] at hfits
      exact hfits
    have hspec := ingest_going (hafter now rfl) chunk hcrc _ ⟨hroom, hpast⟩
    have hone : (p.feedAll (fedBy (.ingest chunk now : Input E))).2 = (p.feed chunk now).2 := List.append_nil _
    rw [hone]
    simp only [next, call] at hcalm ⊢
    generalize ingest chunk now ({ b with log := [] } : BaseService T) = res at hspec hcalm
    obtain ⟨r, b'⟩ := res
    cases r with
    | ok n =>
      rcases hspec with ⟨e, he, hfails⟩ | hspec
      · exact absurd hfails (hcalm e he)
      · exact hspec
    | error e => exact hspec.elim
  | resetSource =>
    have hreset : Triple (fun _ => True) (resetSource : Op T Unit) (Returns fun _ => Failed) := by
      refine Triple.get_bind fun b _ => (Triple.modify (R := fun _ => True) fun _ _ => trivial).seq fun _ => ?_
      have hadd : ∀ name amount, Triple (fun _ => True) (add name amount : Op T Unit) (Returns fun _ _ => True) :=
        fun _ _ _ _ => trivial
      refine (Triple.when (fun _ => hadd _ _) fun _ _ h => h).seq fun _ => ?_
      refine (Triple.when (fun _ => hadd _ _) fun _ _ h => h).seq fun _ => ?_
      exact Triple.modify fun b _ => failed_last rfl trivial
    have hspec := hreset ({ b with log := [] } : BaseService T) trivial
    simp only [next, call] at hcalm
    generalize resetSource ({ b with log := [] } : BaseService T) = res at hspec hcalm
    obtain ⟨r, b'⟩ := res
    cases r with
    | ok u =>
      obtain ⟨e, he, hfails⟩ := hspec
      exact absurd hfails (hcalm e he)
    | error e => exact hspec.elim
  | step io now =>
    obtain ⟨hqueue, hfragments⟩ : (∀ f ∈ b.queue, now - f.receivedAt ≤ 8 / 10) ∧ ∀ p ∈ b.fragments, now - p.2 < 1 :=
      htimely
    have hyoung : Carries s₀ p raws (H ++ []) [] (fun t => Q t ∧ now - t ≤ 8 / 10) (fun t => Q t ∧ now - t < 1)
        ({ b with log := [] } : BaseService T) :=
      { hstart with
        queued := fun f hf => ⟨h.queued f hf, hqueue f hf⟩
        waiting := fun q hq => ⟨h.waiting q hq, hfragments q hq⟩ }
    have hall : Triple (Going s₀ p raws H [] (fun t => Q t ∧ now - t ≤ 8 / 10) fun t => Q t ∧ now - t < 1)
        (step io now : Op T Unit)
        (Ends (Going s₀ p raws H [] (fun t => Q t ∧ now - t ≤ 8 / 10) fun t => Q t ∧ now - t < 1)) :=
      step_going hs (fun t ht => ht.2) (fun t ht => ⟨ht.1, by linarith [ht.2]⟩)
        (fun t ht => ⟨hbefore now rfl t ht.1, ht.2⟩) io
    have hspec := hall ({ b with log := [] } : BaseService T) (Or.inr hyoung)
    rw [show (p.feedAll (fedBy (.step io now : Input E))).2 = [] from rfl, List.map_nil, List.append_nil]
    simp only [next, call] at hcalm ⊢
    generalize step io now ({ b with log := [] } : BaseService T) = res at hspec hcalm
    obtain ⟨r, b'⟩ := res
    cases r with
    | ok u =>
      rcases hspec with ⟨e, he, hfails⟩ | hspec
      · exact absurd hfails (hcalm e he)
      · exact { hspec with
          queued := fun f hf => hQW _ (hspec.queued f hf).1
          waiting := fun q hq => hQW _ (hspec.waiting q hq).1 }
    | error e =>
      cases e with
      | transport e => exact absurd trivial (hcalm _ (List.mem_append_right _ (List.mem_singleton_self _)))
      | application e =>
        obtain ⟨e', he', hfails⟩ := hspec
        exact absurd hfails (hcalm e' (List.mem_append_left _ he'))

/-- Every run keeps everything, if nothing fails and everything is in time. -/
theorem run_carries (hs : 1 ≤ s₀ ∧ s₀ ≤ 2 ^ 32 - 1) (is : List (Input E)) :
    ∀ {p : RtcmStreamParser} {raws : List Bytes} {H : List Event} {b : BaseService T},
    Carries s₀ p raws H [] (fun t => ∀ u ∈ is.filterMap timeOf, t ≤ u) (fun t => ∀ u ∈ is.filterMap timeOf, t ≤ u) b →
    (∀ e ∈ history (trace next b is), ¬ e.Fails) → (∀ x ∈ trace next b is, Timely x) →
    (is.filterMap timeOf).Pairwise (· ≤ ·) → (p.feedAll (chunksIn is)).1.stats.crcFailures = 0 →
    Carries s₀ (p.feedAll (chunksIn is)).1 (raws ++ (p.feedAll (chunksIn is)).2.map RtcmFrame.raw)
      (H ++ history (trace next b is)) [] (fun _ => True) (fun _ => True) (run next b is) := by
  induction is with
  | nil =>
    intro p raws H b h _ _ _ _
    show Carries s₀ p (raws ++ []) (H ++ []) [] _ _ b
    rw [List.append_nil, List.append_nil]
    exact { h with queued := fun _ _ => trivial, waiting := fun _ _ => trivial }
  | cons i is ih =>
    intro p raws H b h hcalm htimely hclock hcrc
    have hhistory : history (trace next b (i :: is)) = (next i b).log ++ history (trace next (next i b) is) := rfl
    have hchunks : chunksIn (i :: is) = fedBy i ++ chunksIn is := rfl
    have htimes : (i :: is).filterMap timeOf = (timeOf i).toList ++ is.filterMap timeOf := by
      rw [List.filterMap_cons]
      cases timeOf i <;> rfl
    rw [hhistory] at hcalm ⊢
    rw [hchunks, RtcmStreamParser.feedAll_append] at hcrc ⊢
    rw [htimes] at h hclock
    obtain ⟨-, hrest, hlater⟩ := List.pairwise_append.mp hclock
    have hfirst : (p.feedAll (fedBy i)).1.stats.crcFailures = 0 :=
      Nat.le_zero.mp ((RtcmStreamParser.crcFailures_feedAll _ _).trans (Nat.le_of_eq hcrc))
    have hnext :=
      next_carries hs i h (fun e he => hcalm e (List.mem_append_left _ he)) (htimely _ List.mem_cons_self) hfirst
      (fun now hnow t ht => ht now (List.mem_append_left _ (Option.mem_toList.mpr hnow)))
      (fun t ht u hu => ht u (List.mem_append_right _ hu))
      (fun now hnow u hu => hlater now (Option.mem_toList.mpr hnow) u hu)
    have hrun := ih hnext (fun e he => hcalm e (List.mem_append_right _ he))
      (fun x hx => htimely x (List.mem_cons_of_mem _ hx)) hrest hcrc
    rw [List.append_assoc, List.append_assoc, ← List.map_append] at hrun
    exact hrun

/-- A new service keeps everything. -/
theorem init_carries (t : T) (Q W : ℚ → Prop) :
    Carries (Transport.session t) {} [] [] [] Q W (init t : BaseService T) := by
  constructor
  · rfl
  · rfl
  · rfl
  · rfl
  · rfl
  · exact fun raw h => absurd h List.not_mem_nil
  · rfl
  · exact fun payload h => absurd h List.not_mem_nil
  · exact fun f h => absurd h List.not_mem_nil
  · exact fun q h => absurd h List.not_mem_nil
  · exact fun _ _ => rfl

/-- What the base has sent when it is idle again: the fragments of the frames it was given. -/
theorem run_sent (t : T) (hs : 1 ≤ Transport.session t ∧ Transport.session t ≤ 2 ^ 32 - 1) (is : List (Input E))
    {frames : List Bytes} (hframes : ∀ raw ∈ frames, validRtcm3 raw = true)
    (hsource : RtcmStreamParser.streamOf (chunksIn is) = frames.flatten)
    (hcalm : ∀ e ∈ history (trace next (init t) is), ¬ e.Fails) (htimely : ∀ x ∈ trace next (init t) is, Timely x)
    (hclock : (is.filterMap timeOf).Pairwise (· ≤ ·)) (hidle : (run next (init t) is).idle = true) :
    ingestedIn (history (trace next (init t) is)) = frames ∧
      framesOf (sentIn (history (trace next (init t) is))) =
        (messagesOf (Transport.session t) frames).flatMap fragmentsOf ∧
      (∀ payload ∈ sentIn (history (trace next (init t) is)),
        ∃ f, decode payload = .ok f ∧ f.sourceAgeMs < rtcmTransportTtlMs) ∧
      ∀ name : Metric, name.Loses → (run next (init t) is).metrics name = 0 := by
  obtain ⟨hparsed, hcrc⟩ := RtcmStreamParser.frames_parsed hframes hsource
  have h := run_carries hs is (init_carries t _ _) hcalm htimely hclock hcrc
  rw [List.nil_append, List.nil_append, hparsed] at h
  generalize run next (init t) is = b at h hidle
  have hempty : b.queue = [] ∧ b.fragments = [] := by
    unfold idle at hidle
    simp only [Bool.and_eq_true, List.isEmpty_iff] at hidle
    exact hidle.1
  have hloaded := h.ingested
  have hsent := h.sent
  rw [hempty.1, List.map_nil, List.append_nil] at hloaded
  rw [hempty.2, ← hloaded, List.map_nil, List.append_nil, List.append_nil] at hsent
  exact ⟨h.source, hsent, h.fresh, h.metrics⟩

end BaseService

/-! ## The link -/

namespace RobotService

variable {T E : Type}

theorem map_fst_seenIn (moves : List (Move (RobotService T) (Input E))) :
    (seenIn moves).map Prod.fst = receivedIn (history moves) := by
  induction moves with
  | nil => rfl
  | cons x moves ih =>
    have hseen : seenIn (x :: moves) =
        (receivedIn x.after.log).map (fun payload => (payload, x.input.now)) ++ seenIn moves := rfl
    have hhistory : history (x :: moves) = x.after.log ++ history moves := rfl
    rw [hseen, hhistory, List.map_append, receivedIn_append, ih, List.map_map]
    congr 1
    exact List.map_id _

variable [Transport T E]

/-- Fragments are seen in the order of the steps. -/
theorem pairwise_seen (js : List (Input E)) : ∀ {r : RobotService T}, (js.map Input.now).Pairwise (· ≤ ·) →
    ((framesSeen (seenIn (trace next r js))).map Prod.snd).Pairwise (· ≤ ·) := by
  induction js with
  | nil => exact fun _ => List.Pairwise.nil
  | cons j js ih =>
    intro r hclock
    rw [List.map_cons, List.pairwise_cons] at hclock
    have hcons : framesSeen (seenIn (trace next r (j :: js))) =
        framesSeen ((receivedIn (next j r).log).map fun payload => (payload, j.now)) ++
          framesSeen (seenIn (trace next (next j r) js)) := framesSeen_append _ _
    have hnow : ∀ u ∈ (framesSeen ((receivedIn (next j r).log).map fun payload => (payload, j.now))).map Prod.snd,
        u = j.now := by
      intro u hu
      obtain ⟨a, ha, rfl⟩ := List.mem_map.mp hu
      obtain ⟨b, hb, hsome⟩ := List.mem_filterMap.mp ha
      obtain ⟨payload, -, rfl⟩ := List.mem_map.mp hb
      obtain ⟨f, -, rfl⟩ := Option.map_eq_some_iff.mp hsome
      rfl
    rw [hcons, List.map_append, List.pairwise_append]
    refine ⟨List.pairwise_of_forall_mem_list fun u hu v hv => ?_, ih hclock.2, fun u hu v hv => ?_⟩
    · rw [hnow u hu, hnow v hv]
    · obtain ⟨a, ha, rfl⟩ := List.mem_map.mp hv
      obtain ⟨j', hj', htime⟩ := mem_seen js ha
      rw [hnow u hu, htime]
      exact hclock.1 _ (List.mem_map_of_mem hj')

end RobotService

/-- The messages of a session with valid frames. -/
theorem deliverable_messagesOf (s : Nat) {frames : List Bytes} (hframes : ∀ raw ∈ frames, validRtcm3 raw = true) :
    Deliverable (messagesOf s frames) where
  valid := by
    intro m hm
    obtain ⟨k, raw, hraw, rfl⟩ := mem_messagesOf hm
    exact hframes raw hraw
  keys := fun _ _ _ h => key_fresh h

/-- Nothing has been published yet. -/
theorem relay_start {ms : List Message} (hms : Deliverable ms) {future : List (Frame × ℚ)}
    (hframes : future.map (fun a => erase a.1) = ms.flatMap fragmentsOf) (hprompt : SeenPromptly future)
    (hclock : (future.map Prod.snd).Pairwise (· ≤ ·)) : Relay ms [] future {} := by
  refine ⟨[], ms, [], [], 0, rfl, rfl, ?_⟩
  have hstate : Reassembler.InOrder [] [] {} :=
    ⟨rfl, List.Pairwise.nil, List.suffix_refl _, Nat.zero_le _, rfl, rfl, rfl, rfl⟩
  have hnone : held ms 0 0 = [] := by cases ms <;> rfl
  constructor
  · rfl
  · exact hframes
  · rw [List.length_nil, hnone]
    exact hstate
  · exact fun m hm => fragmentCount_pos (hms.valid m (List.mem_of_head? hm))
  · exact fun a ha => absurd ha (by simp)
  · exact hprompt
  · exact hclock
  · exact fun q hq => absurd hq List.not_mem_nil

open RobotService in
/-- **Nothing is lost**: over any two transports, valid frames are cut into chunks and ingested; nothing fails, everything
is in time, and the payloads sent reach the robot in order and promptly. When the base is idle again, the robot has
published these frames, and neither side has counted a loss. -/
theorem lossless {T E T' E' : Type} [Transport T E] [Transport T' E'] (t : T) (is : List (Input E)) (t' : T')
    (js : List (RobotService.Input E')) {frames : List Bytes} (hframes : ∀ raw ∈ frames, validRtcm3 raw = true)
    (hsource : RtcmStreamParser.streamOf (BaseService.chunksIn is) = frames.flatten)
    (hsession : 1 ≤ Transport.session t ∧ Transport.session t ≤ 2 ^ 32 - 1)
    (hcalm : ∀ e ∈ BaseService.history (trace BaseService.next (BaseService.init t) is), ¬ e.Fails)
    (htimely : ∀ x ∈ trace BaseService.next (BaseService.init t) is, BaseService.Timely x)
    (hclock : (is.filterMap BaseService.timeOf).Pairwise (· ≤ ·))
    (hidle : (run BaseService.next (BaseService.init t) is).idle = true)
    (hlink : receivedIn (RobotService.history (trace RobotService.next (RobotService.init t') js)) =
      sentIn (BaseService.history (trace BaseService.next (BaseService.init t) is)))
    (hcalm' : ∀ e ∈ RobotService.history (trace RobotService.next (RobotService.init t') js), ¬ RobotEvent.Fails e)
    (hclock' : (js.map RobotService.Input.now).Pairwise (· ≤ ·))
    (hprompt : SeenPromptly (framesSeen (seenIn (trace RobotService.next (RobotService.init t') js)))) :
    publishedIn (RobotService.history (trace RobotService.next (RobotService.init t') js)) = frames ∧
      ingestedIn (BaseService.history (trace BaseService.next (BaseService.init t) is)) = frames ∧
      (∀ name : Metric, name.Loses → (run BaseService.next (BaseService.init t) is).metrics name = 0) ∧
      (∀ name : RobotMetric, name.Loses → (run RobotService.next (RobotService.init t') js).metrics name = 0) ∧
      (run RobotService.next (RobotService.init t') js).reassembler.evictionCount = 0 ∧
      (run RobotService.next (RobotService.init t') js).reassembler.duplicateCount = 0 := by
  obtain ⟨hingested, hsent, hfresh, hmetrics⟩ :=
    BaseService.run_sent t hsession is hframes hsource hcalm htimely hclock hidle
  have hms := deliverable_messagesOf (Transport.session t) hframes
  have hstart : Relay (messagesOf (Transport.session t) frames) []
      (framesSeen (seenIn (trace RobotService.next (RobotService.init t') js))) {} := by
    refine relay_start hms ?_ hprompt (pairwise_seen js hclock')
    rw [map_erase_framesSeen, map_fst_seenIn, hlink, hsent]
  obtain ⟨hrelay, hmetrics'⟩ := run_follows (H := []) (r := RobotService.init t') hms js hcalm' hclock'
    (fun payload hp => hfresh payload (hlink ▸ hp)) hstart fun _ _ => rfl
  have hpublished := hrelay.all
  rw [List.nil_append, map_snd_messagesOf] at hpublished
  obtain ⟨-, -, hevictions, hduplicates⟩ := hrelay.counts
  exact ⟨hpublished, hingested, hmetrics, hmetrics', hevictions, hduplicates⟩

/-- A transport that completes every send. -/
structure Courier where
  outcomes : List Outcome := []

instance : Transport Courier Unit where
  tick _ _ := fun c => (.ok [], c)
  takeTxOutcomes := fun c => (.ok c.outcomes, { c with outcomes := [] })
  sendAir _ _ := fun c => (.ok (some 1), { c with outcomes := c.outcomes ++ [(1, some true)] })
  session _ := 1
  connected _ := true
  readyForSend _ := true

/-- A frame of two fragments and one of one come in two chunks, and are sent and completed. -/
def courierRun : List (Input Unit) :=
  [.ingest ((zeroFrame 169).take 100) 0, .ingest ((zeroFrame 169).drop 100 ++ zeroFrame 0) (1 / 2), .step () 1,
    .step () (11 / 10), .step () (12 / 10), .step () (13 / 10)]

/-- The payloads of the run. -/
def courierPayloads : List Bytes :=
  sentIn (BaseService.history (trace BaseService.next (BaseService.init ({} : Courier)) courierRun))

/-- The first is delivered before the others. -/
def courierDelivery : List (RobotService.Input WireIo) :=
  [{ io := { received := courierPayloads.take 1 }, now := 1 },
    { io := { received := courierPayloads.drop 1 }, now := 13 / 10 }]

set_option maxRecDepth 100000 in
open RobotService in
theorem lossless_courierRun :
    courierPayloads.length = 3 ∧
      publishedIn (RobotService.history (trace RobotService.next (RobotService.init ({} : Wire)) courierDelivery)) =
        [zeroFrame 169, zeroFrame 0] := by
  have hprompt : SeenPromptly
      (framesSeen (seenIn (trace RobotService.next (RobotService.init ({} : Wire)) courierDelivery))) := by
    have htimes : ∀ p ∈ framesSeen (seenIn (trace RobotService.next (RobotService.init ({} : Wire)) courierDelivery)),
        1 ≤ p.2 ∧ p.2 ≤ 13 / 10 := by decide +kernel
    intro A a M b B hcut _
    rw [hcut] at htimes
    have ha := (htimes a (by simp)).1
    have hb := (htimes b (by simp)).2
    simp only [reassemblyTimeoutS]
    linarith
  have hvalid : ∀ raw ∈ [zeroFrame 169, zeroFrame 0], validRtcm3 raw = true := by decide +kernel
  exact ⟨by decide +kernel, (lossless ({} : Courier) courierRun ({} : Wire) courierDelivery hvalid (by decide +kernel)
    (by decide) (by decide +kernel) (by decide +kernel) (by decide +kernel) (by decide +kernel) (by decide +kernel)
    (by decide +kernel) (by decide +kernel) hprompt).1⟩

end LoraLink.Service
