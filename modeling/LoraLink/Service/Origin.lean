import LoraLink.App.RtcmStream
import LoraLink.Service.Base

/-!
# Where the frames of the base come from

- `From`: the frames in the queue, and those whose fragments wait, have a property `P`; so has every frame of which the
  log says that it was queued or that a fragment of it was handed to the transport;
- `ingest_from`, `step_from`: every call keeps it if the parser makes only frames with `P`;
- `resetSource_from`: after a reset of the source it holds for every `P`.
-/

namespace LoraLink.Service

open LoraLink.Application LoraLink.Rtcm LoraLink.Host Prog

/-- The fragment is one of those of the frame. -/
def FragmentOf (raw : Bytes) (f : Frame) : Prop :=
  ∃ session messageId fragments, fragment raw session messageId = .ok fragments ∧ f ∈ fragments

/-- What is queued, and what is handed to the transport, comes from a frame with `P`. -/
def Event.From (P : Bytes → Prop) : Event → Prop
  | .ingested f => P f.raw
  | .taken f _ => ∃ raw, P raw ∧ FragmentOf raw f
  | _ => True

theorem Event.From.mono {P P' : Bytes → Prop} {e : Event} (h : e.From P) (hP : ∀ raw, P raw → P' raw) : e.From P' := by
  cases e with
  | ingested f => exact hP _ h
  | taken f now =>
    obtain ⟨raw, hraw, hf⟩ := h
    exact ⟨raw, hP _ hraw, hf⟩
  | _ => exact trivial

namespace BaseService

variable {T E : Type} {p : RtcmStreamParser} {P : Bytes → Prop}

/-- Frames with `P` are queued, fragments of such frames wait, and the log is about such frames. -/
structure From (p : RtcmStreamParser) (P : Bytes → Prop) (b : BaseService T) : Prop where
  parser : b.parser = p
  queue : ∀ f ∈ b.queue, P f.raw
  fragments : ∀ q ∈ b.fragments, ∃ raw, P raw ∧ FragmentOf raw q.1
  log : ∀ e ∈ b.log, e.From P

theorem From.note {b : BaseService T} (h : From p P b) {e : Event} (he : e.From P) : ∀ e' ∈ b.log ++ [e], e'.From P := by
  intro e' he'
  rcases List.mem_append.mp he' with hold | hnew
  · exact h.log e' hold
  · rw [List.mem_singleton.mp hnew]
    exact he

theorem from_add (name : Metric) (amount : Nat) : Triple (From p P) (add name amount : Op T Unit) fun _ => From p P :=
  fun _ h => { h with }

theorem from_set (name : Metric) (value : Int) : Triple (From p P) (set name value : Op T Unit) fun _ => From p P :=
  fun _ h => { h with }

theorem from_updateRates (now : ℚ) : Triple (From p P) (updateRates now : Op T Unit) fun _ => From p P := by
  refine Triple.keep_bind (fun b h => { h with }) fun _ => Triple.get_bind fun b _ => ?_
  exact Triple.keep_bind (from_set _ _) fun _ => Triple.keep_bind (from_set _ _) fun _ => from_set _ _

theorem from_updateQueueMetrics (now : ℚ) : Triple (From p P) (updateQueueMetrics now : Op T Unit) fun _ => From p P := by
  refine Triple.get_bind fun b _ => Triple.keep_bind (from_set _ _) fun _ => Triple.keep_bind (from_set _ _) fun _ => ?_
  exact Triple.keep_bind (from_set _ _) fun _ => from_set _ _

theorem from_ofTransport {α : Type} (x : Prog T Exn α) :
    Triple (From p P) (ofTransport x) fun _ => From (T := T) p P := by
  intro b h
  unfold ofTransport
  split
  · exact { h with }
  · exact { h with }

/-! ## Ingress -/

theorem enqueue_from {f : RtcmFrame} (hf : P f.raw) : Triple (From p P) (enqueue f : Op T Unit) fun _ => From p P := by
  refine Triple.keep_bind (fun b h => { h with queue := fun g hg => ?_, log := h.note hf }) fun _ => ?_
  · rcases List.mem_append.mp hg with hg | hg
    · exact h.queue g hg
    · rw [List.mem_singleton.mp hg]
      exact hf
  · have hoverflow : Triple (From p P) (overflow : Op T Unit) fun _ => From p P := by
      refine Triple.keep_bind (fun b h => { h with queue := fun g hg => ?_, log := h.note trivial }) fun _ => from_add _ _
      exact h.queue g (List.mem_of_mem_drop hg)
    refine Triple.get_bind fun b _ => Triple.keep_bind (Triple.keep_when fun _ => hoverflow) fun _ => ?_
    exact Triple.keep_bind (from_add _ _) fun _ => from_add _ _

/-- The frames that the parser makes of a chunk are queued. -/
theorem ingest_from (chunk : Bytes) (now : ℚ) (hframes : ∀ f ∈ (p.feed chunk now).2, P f.raw) :
    Triple (From p P) (ingest chunk now : Op T Nat) fun _ => From (p.feed chunk now).1 P := by
  refine Triple.get_bind fun b hb => ?_
  rw [hb.parser]
  have hfeed : ∀ b : BaseService T, From p P b → From (p.feed chunk now).1 P
      { b with
        parser := (p.feed chunk now).1,
          inputRate := b.inputRate ++ [(now, chunk.length, (p.feed chunk now).2.length)] } :=
    fun b h => { h with parser := rfl }
  refine (Triple.modify hfeed).seq fun _ => Triple.keep_bind (from_add _ _) fun _ => ?_
  refine Triple.keep_bind (Triple.keep_forEach fun f hf => enqueue_from (hframes f hf)) fun _ => ?_
  refine Triple.keep_bind (from_updateQueueMetrics now) fun _ => Triple.keep_bind (from_set _ _) fun _ => ?_
  exact Triple.keep_bind (from_updateRates now) fun _ _ h => h

/-- After a reset nothing is left. -/
theorem resetSource_from : Triple (fun b => b.parser = p ∧ b.log = []) (resetSource : Op T Unit)
    fun _ => From p.reset P := by
  let Reset : BaseService T → Prop := fun b => b.parser = p.reset ∧ b.log = []
  have hreset : ∀ b : BaseService T, b.parser = p ∧ b.log = [] → Reset { b with parser := b.parser.reset } := by
    rintro b ⟨rfl, hlog⟩
    exact ⟨rfl, hlog⟩
  have hadd : ∀ name amount, Triple Reset (add name amount : Op T Unit) (Returns fun _ => Reset) := fun _ _ _ h => h
  refine Triple.get_bind fun b _ => (Triple.modify hreset).seq fun _ => ?_
  refine (Triple.when (fun _ => hadd _ _) fun _ _ h => h).seq fun _ => ?_
  refine (Triple.when (fun _ => hadd _ _) fun _ _ h => h).seq fun _ => ?_
  rintro b ⟨hparser, hlog⟩
  refine ⟨hparser, fun f hf => absurd hf List.not_mem_nil, fun q hq => absurd hq List.not_mem_nil, ?_⟩
  show ∀ e ∈ b.log ++ [.reset], e.From P
  rw [hlog]
  intro e he
  rw [List.mem_singleton.mp he]
  exact trivial

/-! ## A step -/

theorem settle_from (o : Outcome) : Triple (From p P) (settle o : Op T Unit) fun _ => From p P := by
  obtain ⟨sequence, completed⟩ := o
  refine Triple.get_bind fun b _ => Triple.ite (fun _ => ?_) fun _ => ?_
  · exact Triple.keep_bind (fun b h => { h with log := h.note trivial }) fun _ => from_add _ _
  · refine Triple.keep_bind (fun b h => { h with fragments := fun q hq => ?_, log := h.note trivial }) fun _ => ?_
    · split at hq
      · exact h.fragments q hq
      · exact absurd hq List.not_mem_nil
    · rcases completed with _ | _ | _ <;> exact from_add _ _

theorem dropStale_from (now : ℚ) (queue : List RtcmFrame) : Triple (fun b => (∀ f ∈ queue, P f.raw) ∧ From p P b)
    (dropStale now queue : Op T Unit) fun _ => From p P := by
  induction queue with
  | nil => exact fun b h => h.2
  | cons f queue ih =>
    refine Triple.ite (fun _ => Triple.assume fun hqueue => ?_) fun _ b h => h.2
    have hrest : ∀ g ∈ queue, P g.raw := fun g hg => hqueue g (List.mem_cons_of_mem _ hg)
    refine Triple.keep_bind (fun b h => { h with queue := hrest, log := h.note trivial }) fun _ => ?_
    exact Triple.keep_bind (from_add _ _) fun _ => ih.pre fun b h => ⟨hrest, h⟩

/-- The fragments of a queued frame are fragments of a frame with `P`. -/
theorem load_from (now : ℚ) : Triple (From p P) (load now : Op T Unit) fun _ => From p P := by
  refine Triple.get_bind fun b hb => ?_
  split
  · rename_i f queue _ hqueue
    have hf : P f.raw := hb.queue f (by rw [hqueue]; exact List.mem_cons_self)
    have hrest : ∀ g ∈ queue, P g.raw := fun g hg => hb.queue g (by rw [hqueue]; exact List.mem_cons_of_mem _ hg)
    simp only
    split
    · exact Triple.keep_bind (fun b h => { h with queue := hrest, log := h.note trivial }) fun _ => from_add _ _
    · rename_i fragments hfragments
      refine fun b h => { h with queue := hrest, fragments := fun q hq => ?_, log := h.note trivial }
      obtain ⟨g, hg, rfl⟩ := List.mem_map.mp hq
      exact ⟨f.raw, hf, _, _, fragments, hfragments, hg⟩
  · exact fun _ h => h

theorem sendAirResult_from (now : ℚ) {fragment : Frame × ℚ} (hfragment : ∃ raw, P raw ∧ FragmentOf raw fragment.1)
    (encoded : Bytes) (r : Option Nat) : Triple (From p P) (sendAirResult now fragment encoded r : Op T Unit)
      fun _ => From p P := by
  cases r with
  | none =>
    refine Triple.keep_bind (fun b h => { h with fragments := fun q hq => ?_, log := h.note trivial }) fun _ =>
      from_add _ _
    rcases List.mem_cons.mp hq with rfl | hq
    · exact hfragment
    · exact h.fragments q hq
  | some sequence =>
    refine Triple.keep_bind (fun b h => { h with log := h.note trivial }) fun _ => Triple.keep_bind (from_add _ _)
      fun _ => ?_
    exact Triple.keep_bind (from_add _ _) fun _ b h => { h with }

variable [Transport T E]

theorem followSession_from : Triple (From p P) (followSession : Op T Unit) fun _ => From p P := by
  refine Triple.get_bind fun b _ => Triple.keep_when fun _ => ?_
  refine Triple.keep_bind (fun b h => { h with fragments := fun q hq => ?_, log := h.note trivial }) fun _ => from_add _ _
  exact absurd hq List.not_mem_nil

/-- A fragment is handed to the transport. -/
theorem sendFirst_from (io : E) (now : ℚ) (fragment : Frame × ℚ) (rest : List (Frame × ℚ)) :
    Triple (fun b => b.fragments = fragment :: rest ∧ From p P b) (sendFirst io now fragment rest : Op T Unit)
      fun _ => From p P := by
  rintro b ⟨hfragments, hb⟩
  have hfragment : ∃ raw, P raw ∧ FragmentOf raw fragment.1 :=
    hb.fragments fragment (by rw [hfragments]; exact List.mem_cons_self)
  have hrest : ∀ q ∈ rest, ∃ raw, P raw ∧ FragmentOf raw q.1 :=
    fun q hq => hb.fragments q (by rw [hfragments]; exact List.mem_cons_of_mem _ hq)
  have hall : Triple (From p P) (sendFirst io now fragment rest : Op T Unit) fun _ => From p P := by
    refine Triple.ite (fun _ => ?_) fun _ => ?_
    · refine Triple.keep_bind (fun b h => { h with fragments := fun q hq => ?_, log := h.note trivial }) fun _ =>
        from_add _ _
      exact absurd hq List.not_mem_nil
    · refine Triple.keep_bind (fun b h => { h with fragments := hrest, log := h.note hfragment }) fun _ => ?_
      have hencode : ∀ x : Except ApplicationError Bytes,
          Triple (From p P) (ofApplication x : Op T Bytes) fun _ => From p P := by
        intro x b h
        cases x with
        | ok encoded => exact h
        | error e => exact h
      refine Triple.keep_bind (hencode _) fun encoded => Triple.keep_bind (from_ofTransport _) fun r => ?_
      exact sendAirResult_from now hfragment encoded r
  exact hall b hb

theorem send_from (io : E) (now : ℚ) : Triple (From p P) (send io now : Op T Unit) fun _ => From p P := by
  refine Triple.get_bind_eq fun b hb => ?_
  split
  · rintro _ rfl
    exact hb
  · rename_i fragment rest hfragments
    refine Triple.ite (fun _ => ?_) fun _ => ?_
    · exact (sendFirst_from io now fragment rest).pre fun b' hb' => by rw [hb']; exact ⟨hfragments, hb⟩
    · rintro _ rfl
      exact hb

/-- A step hands over fragments of frames with `P` only. -/
theorem step_from (io : E) (now : ℚ) : Triple (From p P) (step io now : Op T Unit) fun _ => From p P := by
  refine Triple.get_bind fun b _ => Triple.keep_bind (from_ofTransport _) fun _ => ?_
  refine Triple.keep_bind (from_ofTransport _) fun outcomes => ?_
  refine Triple.keep_bind (Triple.keep_forEach fun o _ => settle_from o) fun _ => ?_
  refine Triple.keep_bind followSession_from fun _ => Triple.get_bind fun b hb => ?_
  refine Triple.keep_bind ((dropStale_from now b.queue).pre fun b' h => ⟨hb.queue, h⟩) fun _ => ?_
  refine Triple.get_bind fun b _ => Triple.ite (fun _ => from_updateQueueMetrics now) fun _ => ?_
  refine Triple.keep_bind (load_from now) fun _ => Triple.keep_bind (send_from io now) fun _ => ?_
  exact Triple.keep_bind (from_updateRates now) fun _ => from_updateQueueMetrics now

/-! ## Calls -/

theorem call_from {α : Type} {x : Op T α} {q : RtcmStreamParser} {I : BaseService T → Prop}
    (hx : Triple I x fun _ => From q P) {b : BaseService T} (h : I { b with log := [] }) : From q P (call x b) := by
  have hs := hx _ h
  unfold call
  generalize x { b with log := [] } = res at hs
  obtain ⟨r, b'⟩ := res
  cases r with
  | ok a => exact hs
  | error e => exact { hs with log := hs.note trivial }

/-- A service whose frames have `P`, whatever its last call has logged. -/
structure Bears (P : Bytes → Prop) (b : BaseService T) : Prop where
  queue : ∀ f ∈ b.queue, P f.raw
  fragments : ∀ q ∈ b.fragments, ∃ raw, P raw ∧ FragmentOf raw q.1

theorem Bears.mono {P' : Bytes → Prop} {b : BaseService T} (h : Bears P b) (hP : ∀ raw, P raw → P' raw) : Bears P' b := by
  refine ⟨fun f hf => hP _ (h.queue f hf), fun q hq => ?_⟩
  obtain ⟨raw, hraw, hfragment⟩ := h.fragments q hq
  exact ⟨raw, hP raw hraw, hfragment⟩

theorem Bears.from {b : BaseService T} (h : Bears P b) : From b.parser P { b with log := [] } :=
  ⟨rfl, h.queue, h.fragments, fun _ he => absurd he List.not_mem_nil⟩

theorem From.bears {b : BaseService T} (h : From p P b) : Bears P b := ⟨h.queue, h.fragments⟩

theorem next_ingest_from {b : BaseService T} (h : Bears P b) (chunk : Bytes) (now : ℚ)
    (hframes : ∀ f ∈ (b.parser.feed chunk now).2, P f.raw) :
    From (b.parser.feed chunk now).1 P (next (.ingest chunk now : Input E) b) :=
  call_from (ingest_from chunk now hframes) h.from

theorem next_resetSource_from (b : BaseService T) : From b.parser.reset P (next (.resetSource : Input E) b) :=
  call_from resetSource_from (b := b) ⟨rfl, rfl⟩

theorem next_step_from {b : BaseService T} (h : Bears P b) (io : E) (now : ℚ) : From b.parser P (next (.step io now) b) :=
  call_from (step_from io now) h.from

end BaseService

end LoraLink.Service
