import LoraLink.Service.Turns

/-!
# No frame vanishes uncounted

- `FrameLedger`: the frames ingested are those in the queue, those counted as dropped, and those that were cut into
  fragments; while a call is at it, so many of them are still due (`due`), and one of them is not counted yet
  (`uncounted`);
- `ingest_ledger`, `resetSource_ledger`, `step_ledger`: every call keeps it, whatever the transport answers or raises;
- `Gauged`: the gauges are those of the state, as an `ingest` or a `step` leaves them that does not raise;
- `ledger_balances`: in every run.
-/

namespace LoraLink.Service

open LoraLink.Application LoraLink.Rtcm LoraLink.Host Prog

/-- How many frames were cut into fragments. -/
def loadings (L : List Event) : Nat := L.countP fun
  | .loaded _ _ _ => true
  | _ => false

@[simp] theorem ingestedFrames_nil : ingestedFrames [] = [] := rfl

@[simp] theorem loadings_append (L L' : List Event) : loadings (L ++ L') = loadings L + loadings L' := List.countP_append

/-- An event that neither queues a frame nor cuts one into fragments. -/
def Event.Silent : Event → Prop
  | .ingested _ | .loaded _ _ _ => False
  | _ => True

theorem Event.Silent.logs {e : Event} (h : e.Silent) : ingestedFrames [e] = [] ∧ loadings [e] = 0 := by
  cases e <;> first | exact h.elim | exact ⟨rfl, rfl⟩

namespace BaseService

variable {T E : Type}

/-- The counters of frames. -/
def frameCounters : List Metric :=
  [.rtcmFramesIngested, .rtcmFramesDroppedQueueFull, .rtcmFramesDroppedSourceReset, .rtcmFramesDroppedStale,
    .rtcmFragmentFailures]

/-- The frames counted as dropped. -/
def dropped (m : Metrics Metric) : Int :=
  m .rtcmFramesDroppedQueueFull + m .rtcmFramesDroppedSourceReset + m .rtcmFramesDroppedStale + m .rtcmFragmentFailures

/-- The account of the frames after the events `H` of earlier calls. Of those that were queued, `due` are neither in the
queue nor counted as dropped yet, `uncounted` are not counted yet, and that of type `untyped` is not counted by its
type. -/
structure FrameLedger (H : List Event) (due : Int) (uncounted : Nat) (untyped : Option Nat) (b : BaseService T) :
    Prop where
  balance : (ingestedFrames (H ++ b.log)).length = b.queue.length + dropped b.metrics + loadings (H ++ b.log) + due
  counted : b.metrics .rtcmFramesIngested + uncounted = (ingestedFrames (H ++ b.log)).length
  typed : ∀ type, b.metrics (.rtcmType type) + (if untyped = some type then 1 else 0) =
    ((ingestedFrames (H ++ b.log)).map RtcmFrame.messageType).count type

/-- Nothing is due. -/
abbrev Even (H : List Event) : BaseService T → Prop := FrameLedger H 0 0 none

variable {H : List Event} {due : Int} {uncounted : Nat} {untyped : Option Nat} {b b' : BaseService T}

/-- The counters of frames are the same. -/
def SameCounters (m m' : Metrics Metric) : Prop :=
  (∀ name ∈ frameCounters, m' name = m name) ∧ ∀ type, m' (.rtcmType type) = m (.rtcmType type)

theorem SameCounters.dropped {m m' : Metrics Metric} (h : SameCounters m m') :
    BaseService.dropped m' = BaseService.dropped m := by
  have hnames := h.1
  simp only [frameCounters, List.forall_mem_cons] at hnames
  obtain ⟨-, hfull, hreset, hstale, hfailures, -⟩ := hnames
  rw [BaseService.dropped, hfull, hreset, hstale, hfailures, BaseService.dropped]

/-- What the account is about is the same. -/
theorem FrameLedger.congr (h : FrameLedger H due uncounted untyped b) (hqueue : b'.queue.length = b.queue.length)
    (hmetrics : SameCounters b.metrics b'.metrics) (hlog : ingestedFrames b'.log = ingestedFrames b.log)
    (hloadings : loadings b'.log = loadings b.log) : FrameLedger H due uncounted untyped b' where
  balance := by
    rw [ingestedFrames_append, loadings_append, hlog, hloadings, hqueue, hmetrics.dropped]
    simpa using h.balance
  counted := by
    rw [ingestedFrames_append, hlog, hmetrics.1 _ (by decide)]
    simpa using h.counted
  typed type := by
    rw [ingestedFrames_append, hlog, hmetrics.2]
    simpa using h.typed type

/-- An event that queues and loads nothing; `k` frames have left the queue. -/
theorem FrameLedger.say (h : FrameLedger H due uncounted untyped b) {e : Event} (he : e.Silent) {k : Nat}
    (hqueue : b'.queue.length + k = b.queue.length) (hmetrics : b'.metrics = b.metrics) (hlog : b'.log = b.log ++ [e]) :
    FrameLedger H (due + k) uncounted untyped b' := by
  obtain ⟨hnone, hloads⟩ := he.logs
  have hingested : ingestedFrames (H ++ b'.log) = ingestedFrames (H ++ b.log) := by
    rw [hlog, ← List.append_assoc, ingestedFrames_append (H ++ b.log), hnone, List.append_nil]
  have hloadings : loadings (H ++ b'.log) = loadings (H ++ b.log) := by
    rw [hlog, ← List.append_assoc, loadings_append (H ++ b.log), hloads, Nat.add_zero]
  refine ⟨?_, ?_, fun t => ?_⟩
  · have hbalance := h.balance
    rw [hingested, hloadings, hmetrics]
    omega
  · rw [hingested, hmetrics]
    exact h.counted
  · rw [hingested, hmetrics]
    exact h.typed t

theorem sameCounters_add {m : Metrics Metric} {name : Metric} (hname : name ∉ frameCounters)
    (htype : ∀ t, name ≠ .rtcmType t) (amount : Int) : SameCounters m (m.add name amount) := by
  refine ⟨fun n hn => ?_, fun t => ?_⟩
  · have hne : n ≠ name := fun heq => hname (heq ▸ hn)
    exact if_neg hne
  · exact if_neg (htype t).symm

theorem sameCounters_set {m : Metrics Metric} {name : Metric} (hname : name ∉ frameCounters)
    (htype : ∀ t, name ≠ .rtcmType t) (value : Int) : SameCounters m (m.set name value) := by
  refine ⟨fun n hn => ?_, fun t => ?_⟩
  · have hne : n ≠ name := fun heq => hname (heq ▸ hn)
    exact if_neg hne
  · exact if_neg (htype t).symm

theorem ledger_add {name : Metric} (hname : name ∉ frameCounters) (htype : ∀ t, name ≠ .rtcmType t) (amount : Nat) :
    Triple (FrameLedger H due uncounted untyped) (add name amount : Op T Unit) fun _ =>
      FrameLedger H due uncounted untyped :=
  fun _ h => h.congr rfl (sameCounters_add hname htype _) rfl rfl

theorem ledger_set {name : Metric} (hname : name ∉ frameCounters) (htype : ∀ t, name ≠ .rtcmType t) (value : Int) :
    Triple (FrameLedger H due uncounted untyped) (set name value : Op T Unit) fun _ =>
      FrameLedger H due uncounted untyped :=
  fun _ h => h.congr rfl (sameCounters_set hname htype _) rfl rfl

/-- One frame more is counted as dropped. -/
theorem ledger_drop {name : Metric} (hname : name ∈ frameCounters) (hne : name ≠ .rtcmFramesIngested) (amount : Nat) :
    Triple (FrameLedger H due uncounted untyped) (add name amount : Op T Unit)
      (Returns fun _ => FrameLedger H (due - amount) uncounted untyped) := by
  intro b h
  have hbalance := h.balance
  have hdropped : dropped (b.metrics.add name amount) = dropped b.metrics + amount := by
    simp only [frameCounters, List.mem_cons, List.not_mem_nil, or_false] at hname
    rcases hname with rfl | rfl | rfl | rfl | rfl
    · exact absurd rfl hne
    all_goals
      simp [dropped, Metrics.add_apply]
      omega
  have hingested : b.metrics.add name amount .rtcmFramesIngested = b.metrics .rtcmFramesIngested := if_neg hne.symm
  refine ⟨?_, ?_, ?_⟩
  · show _ = (b.queue.length : Int) + dropped (b.metrics.add name amount) + _ + _
    rw [hdropped]
    show ((ingestedFrames (H ++ b.log)).length : Int) =
      b.queue.length + (dropped b.metrics + amount) + loadings (H ++ b.log) + _
    omega
  · show b.metrics.add name amount .rtcmFramesIngested + _ = _
    rw [hingested]
    exact h.counted
  · intro t
    have htype : b.metrics.add name amount (.rtcmType t) = b.metrics (.rtcmType t) := by
      simp only [frameCounters, List.mem_cons, List.not_mem_nil, or_false] at hname
      rcases hname with rfl | rfl | rfl | rfl | rfl <;> exact if_neg (by simp)
    show b.metrics.add name amount (.rtcmType t) + _ = _
    rw [htype]
    exact h.typed t

theorem ledger_updateRates (now : ℚ) :
    Triple (FrameLedger H due uncounted untyped) (updateRates now : Op T Unit) fun _ =>
      FrameLedger H due uncounted untyped := by
  refine Triple.keep_bind (fun b h => h.congr rfl ⟨fun _ _ => rfl, fun _ => rfl⟩ rfl rfl) fun _ => ?_
  refine Triple.get_bind fun b _ => Triple.keep_bind (ledger_set (by decide) (by simp) _) fun _ => ?_
  exact Triple.keep_bind (ledger_set (by decide) (by simp) _) fun _ => ledger_set (by decide) (by simp) _

theorem ledger_updateQueueMetrics (now : ℚ) :
    Triple (FrameLedger H due uncounted untyped) (updateQueueMetrics now : Op T Unit)
      fun _ => FrameLedger H due uncounted untyped := by
  refine Triple.get_bind fun b _ => Triple.keep_bind (ledger_set (by decide) (by simp) _) fun _ => ?_
  refine Triple.keep_bind (ledger_set (by decide) (by simp) _) fun _ => ?_
  exact Triple.keep_bind (ledger_set (by decide) (by simp) _) fun _ => ledger_set (by decide) (by simp) _

theorem ledger_ofTransport {α : Type} (x : Prog T Exn α) :
    Triple (FrameLedger H due uncounted untyped) (ofTransport x) fun _ =>
      FrameLedger (T := T) H due uncounted untyped := by
  intro b h
  unfold ofTransport
  split
  · exact { h with }
  · exact { h with }

/-! ## Ingress -/

/-- A frame is queued; the oldest one gives way if it does not fit. -/
theorem enqueue_ledger (f : RtcmFrame) :
    Triple (Even H) (enqueue f : Op T Unit) (Returns fun _ => Even H) := by
  have hpush : ∀ b : BaseService T, Even H b → FrameLedger H 0 1 (some f.messageType)
      { b with queue := b.queue ++ [f], log := b.log ++ [.ingested f] } := by
    intro b h
    have hbalance := h.balance
    have hcounted := h.counted
    refine ⟨?_, ?_, fun t => ?_⟩
    · simp only [ingestedFrames_append, loadings_append, List.length_append] at hbalance ⊢
      show ((_ + (_ + 1) : Nat) : Int) = _
      simp only [List.length_singleton, show loadings [Event.ingested f] = 0 from rfl]
      omega
    · simp only [ingestedFrames_append, List.length_append] at hcounted ⊢
      show _ = ((_ + (_ + 1) : Nat) : Int)
      omega
    · have htyped := h.typed t
      simp only [reduceCtorEq, if_false, add_zero] at htyped
      show b.metrics (.rtcmType t) + _ = _
      rw [← List.append_assoc, ingestedFrames_append (H ++ b.log), List.map_append, List.count_append, htyped]
      show _ = ((_ + List.count t [f.messageType] : Nat) : Int)
      rw [List.count_singleton]
      by_cases ht : f.messageType = t
      · simp [ht]
      · simp [ht]
  have hoverflow : ∀ b : BaseService T, b.queue.length > maxQueuedRtcmFrames →
      Triple (fun b' => b' = b ∧ FrameLedger H 0 1 (some f.messageType) b) (overflow : Op T Unit)
        (Returns fun _ => FrameLedger H 0 1 (some f.messageType)) := by
    intro b hfull
    have hdrop : ∀ b' : BaseService T, b' = b ∧ FrameLedger H 0 1 (some f.messageType) b →
        FrameLedger H 1 1 (some f.messageType) { b' with queue := b'.queue.drop 1, log := b'.log ++ [.overflowed] } := by
      rintro b' ⟨rfl, h⟩
      have hsome : 1 ≤ b'.queue.length := by
        simp only [maxQueuedRtcmFrames] at hfull
        omega
      have hsaid : FrameLedger H (0 + (1 : Nat)) 1 (some f.messageType)
          { b' with queue := b'.queue.drop 1, log := b'.log ++ [.overflowed] } :=
        h.say (e := .overflowed) trivial (by rw [List.length_drop]; omega) rfl rfl
      rwa [Nat.cast_one, zero_add] at hsaid
    refine (Triple.modify hdrop).seq fun _ => ?_
    have hcount : Triple (FrameLedger H 1 1 (some f.messageType)) (add .rtcmFramesDroppedQueueFull : Op T Unit)
        (Returns fun _ => FrameLedger H (1 - (1 : Nat)) 1 (some f.messageType)) := ledger_drop (by decide) (by decide) 1
    exact hcount.mono fun _ b h => h
  refine (Triple.modify hpush).seq fun _ => Triple.get_bind_eq fun b h => ?_
  have hfit : Triple (fun b' => b' = b) (when (b.queue.length > maxQueuedRtcmFrames) overflow : Op T Unit)
      (Returns fun _ => FrameLedger H 0 1 (some f.messageType)) :=
    Triple.when (fun hfull => (hoverflow b hfull).pre fun b' hb' => ⟨hb', h⟩) fun _ b' hb' => hb' ▸ h
  have hcount : Triple (FrameLedger H 0 1 (some f.messageType)) (add .rtcmFramesIngested : Op T Unit)
      (Returns fun _ => FrameLedger H 0 0 (some f.messageType)) := by
    intro b h
    have hcounted := h.counted
    refine ⟨h.balance, ?_, h.typed⟩
    show b.metrics .rtcmFramesIngested + 1 + ((0 : Nat) : Int) = (ingestedFrames (H ++ b.log)).length
    omega
  have htype : Triple (FrameLedger H 0 0 (some f.messageType)) (add (.rtcmType f.messageType) : Op T Unit)
      (Returns fun _ => Even H) := by
    intro b h
    refine ⟨h.balance, h.counted, fun t => ?_⟩
    refine Eq.trans ?_ (h.typed t)
    show b.metrics.add (.rtcmType f.messageType) 1 (.rtcmType t) + _ = _
    rw [Metrics.add_apply]
    by_cases ht : f.messageType = t
    · simp [ht]
    · simp [ht, Ne.symm ht]
  exact hfit.seq fun _ => hcount.seq fun _ => htype

theorem ingest_ledger (chunk : Bytes) (now : ℚ) :
    Triple (Even H) (ingest chunk now : Op T Nat) fun _ => Even H := by
  refine Triple.get_bind fun b _ => ?_
  generalize b.parser.feed chunk now = r
  obtain ⟨parser, frames⟩ := r
  refine Triple.keep_bind (fun b h => h.congr rfl ⟨fun _ _ => rfl, fun _ => rfl⟩ rfl rfl) fun _ => ?_
  refine Triple.keep_bind (ledger_add (by decide) (by simp) _) fun _ => ?_
  have henqueue : ∀ f, Triple (Even H) (enqueue f : Op T Unit) fun _ => Even H := by
    intro f
    refine (enqueue_ledger f).weaken (fun _ h => h) fun r b h => ?_
    cases r with
    | ok u => exact h
    | error e => exact h.elim
  refine Triple.keep_bind (Triple.keep_forEach fun f _ => henqueue f) fun _ => ?_
  refine Triple.keep_bind (ledger_updateQueueMetrics now) fun _ => ?_
  refine Triple.keep_bind (ledger_set (by decide) (by simp) _) fun _ => ?_
  exact Triple.keep_bind (ledger_updateRates now) fun _ _ h => h

/-- The frames that are thrown away are counted ahead of it. -/
theorem resetSource_ledger :
    Triple (Even H) (resetSource : Op T Unit) (Returns fun _ => Even H) := by
  refine Triple.get_bind_eq fun b h => ?_
  let Counted : BaseService T → Prop :=
    fun b' => b'.queue.length = b.queue.length ∧ FrameLedger H (-b.queue.length) 0 none b'
  have hparser : Triple (fun b' => b' = b) (modify fun b => { b with parser := b.parser.reset } : Op T Unit)
      (Returns fun _ b' => b'.queue.length = b.queue.length ∧ Even H b') := by
    rintro _ rfl
    exact ⟨rfl, { h with }⟩
  have hqueue : Triple (fun b' => b'.queue.length = b.queue.length ∧ Even H b')
      (when (b.queue ≠ []) (add .rtcmFramesDroppedSourceReset b.queue.length) : Op T Unit)
        (Returns fun _ => Counted) := by
    refine Triple.when (fun _ b' hb' => ⟨hb'.1, ?_⟩) fun hnone b' hb' => ?_
    · have hcount : Triple (Even H) (add .rtcmFramesDroppedSourceReset b.queue.length : Op T Unit)
          (Returns fun _ => FrameLedger H (0 - b.queue.length) 0 none) := ledger_drop (by decide) (by decide) _
      rw [zero_sub] at hcount
      exact hcount b' hb'.2
    · rw [not_not] at hnone
      refine ⟨hb'.1, ?_⟩
      rw [hnone]
      exact hb'.2
  have hfragments : Triple Counted
      (when (b.fragments ≠ []) (add .rtcmFragmentsDroppedSourceReset b.fragments.length) : Op T Unit)
      (Returns fun _ => Counted) := by
    refine Triple.when (fun _ b' hb' => ⟨hb'.1, ?_⟩) fun _ b' hb' => hb'
    exact ledger_add (by decide) (by simp) _ b' hb'.2
  refine hparser.seq fun _ => hqueue.seq fun _ => hfragments.seq fun _ => Triple.modify ?_
  rintro b' ⟨hlength, h'⟩
  have hsaid : FrameLedger H (-b.queue.length + (b.queue.length : Nat)) 0 none
      { b' with queue := [], fragments := [], log := b'.log ++ [.reset] } :=
    h'.say (e := .reset) trivial (by rw [hlength, List.length_nil, Nat.zero_add]) rfl rfl
  rwa [neg_add_cancel] at hsaid

/-! ## The phases of a step -/

/-- An event that leaves the queue alone. -/
theorem FrameLedger.quiet (h : FrameLedger H due uncounted untyped b) {e : Event} (he : e.Silent)
    (hqueue : b'.queue = b.queue)
    (hmetrics : b'.metrics = b.metrics) (hlog : b'.log = b.log ++ [e]) : FrameLedger H due uncounted untyped b' := by
  have hsaid := h.say he (k := 0) (by rw [hqueue]; rfl) hmetrics hlog
  rwa [Nat.cast_zero, add_zero] at hsaid

theorem settle_ledger (o : Outcome) :
    Triple (Even H) (settle o : Op T Unit) fun _ => Even H := by
  obtain ⟨sequence, completed⟩ := o
  refine Triple.get_bind fun b _ => Triple.ite (fun _ => ?_) fun _ => ?_
  · refine Triple.keep_bind (fun b h => h.quiet (e := .unexpected sequence) trivial rfl rfl rfl) fun _ => ?_
    exact ledger_add (by decide) (by simp) _
  · refine Triple.keep_bind (fun b h => h.quiet (e := .settled sequence completed) trivial rfl rfl rfl) fun _ => ?_
    rcases completed with _ | _ | _ <;> exact ledger_add (by decide) (by simp) _

/-- A frame has left the queue, which is `queue` now, and is still to be counted. -/
def Left (H : List Event) (queue : List RtcmFrame) (b : BaseService T) : Prop :=
  b.queue = queue ∧ FrameLedger H 1 0 none b

/-- The frame that has left the queue is counted as dropped. -/
theorem ledger_left {queue : List RtcmFrame} {name : Metric} (hname : name ∈ frameCounters)
    (hne : name ≠ .rtcmFramesIngested) :
    Triple (Left H queue) (add name : Op T Unit) (Returns fun _ b => b.queue = queue ∧ Even H b) := by
  have hcount : Triple (FrameLedger H 1 0 none) (add name : Op T Unit)
      (Returns fun _ => FrameLedger H (1 - (1 : Nat)) 0 none) :=
    ledger_drop hname hne 1
  rintro b ⟨hqueue, h⟩
  exact ⟨hqueue, hcount b h⟩

/-- The first frame leaves the queue. -/
theorem FrameLedger.leave (h : Even H b) {e : Event} (he : e.Silent) {f : RtcmFrame} {queue : List RtcmFrame}
    (hqueue : b.queue = f :: queue) (hqueue' : b'.queue = queue) (hmetrics : b'.metrics = b.metrics)
    (hlog : b'.log = b.log ++ [e]) : Left H queue b' := by
  have hsaid := h.say he (k := 1) (by rw [hqueue, hqueue']; rfl) hmetrics hlog
  rw [Nat.cast_one, zero_add] at hsaid
  exact ⟨hqueue', hsaid⟩

theorem dropStale_ledger (now : ℚ) (queue : List RtcmFrame) :
    Triple (fun b => b.queue = queue ∧ Even H b) (dropStale now queue : Op T Unit)
      (Returns fun _ => Even H) := by
  induction queue with
  | nil => exact fun b h => h.2
  | cons f queue ih =>
    refine Triple.ite (fun _ => ?_) fun _ b h => h.2
    have hleave : ∀ b : BaseService T, b.queue = f :: queue ∧ Even H b →
        Left H queue { b with queue := queue, log := b.log ++ [.stale f now] } :=
      fun b h => h.2.leave (e := .stale f now) trivial h.1 rfl rfl rfl
    exact (Triple.modify hleave).seq fun _ => (ledger_left (by decide) (by decide)).seq fun _ => ih

/-- The first frame of the queue is cut into fragments, or is counted as one that cannot be. -/
theorem load_ledger (now : ℚ) : Triple (Even H) (load now : Op T Unit) (Returns fun _ => Even H) := by
  refine Triple.get_bind_eq fun b h => ?_
  split
  · rename_i f queue _ hqueue
    simp only
    split
    · have hleave : ∀ b' : BaseService T, b' = b → Left H queue
          { b' with queue := queue, messageId := nextMessageId b.messageId, log := b'.log ++ [.unfragmentable f] } := by
        rintro _ rfl
        exact h.leave (e := .unfragmentable f) trivial hqueue rfl rfl rfl
      exact (Triple.modify hleave).seq fun _ => (ledger_left (by decide) (by decide)).mono fun _ b h => h.2
    · rename_i fragments _
      refine Triple.modify ?_
      rintro _ rfl
      have hbalance := h.balance
      have hlength := congrArg List.length hqueue
      rw [List.length_cons] at hlength
      refine ⟨?_, ?_, fun t => ?_⟩
      · rw [← List.append_assoc, ingestedFrames_append (H ++ _), loadings_append (H ++ _), List.length_append]
        change ((_ + 0 : Nat) : Int) = (queue.length : Int) + dropped (BaseService.metrics _) + ((_ + 1 : Nat) : Int) + 0
        simp only at hbalance ⊢
        omega
      · rw [← List.append_assoc, ingestedFrames_append (H ++ _)]
        exact h.counted.trans (congrArg (fun l => ((List.length l : Nat) : Int)) (List.append_nil _).symm)
      · rw [← List.append_assoc, ingestedFrames_append (H ++ _)]
        refine (h.typed t).trans ?_
        exact congrArg (fun l => ((List.count t (List.map RtcmFrame.messageType l) : Nat) : Int)) (List.append_nil _).symm
  · rintro _ rfl
    exact h

section Transport

variable [Transport T E]

theorem followSession_ledger : Triple (Even H) (followSession : Op T Unit) fun _ => Even H := by
  refine Triple.get_bind fun b _ => Triple.keep_when fun _ => ?_
  refine Triple.keep_bind (fun b' h => h.quiet (e := .session (Transport.session b.transport)) trivial rfl rfl rfl)
    fun _ => ?_
  exact ledger_add (by decide) (by simp) _

theorem send_ledger (io : E) (now : ℚ) : Triple (Even H) (send io now : Op T Unit) fun _ => Even H := by
  have hencode : ∀ x : Except ApplicationError Bytes,
      Triple (Even H) (ofApplication x : Op T Bytes) fun _ => Even H := by
    intro x b h
    cases x <;> exact h
  refine Triple.get_bind fun b _ => ?_
  split
  · exact fun _ h => h
  · rename_i fragment rest _
    refine Triple.ite (fun _ => Triple.ite (fun _ => ?_) fun _ => ?_) fun _ _ h => h
    · refine Triple.keep_bind (fun b h => h.quiet (e := .expired now) trivial rfl rfl rfl) fun _ => ?_
      exact ledger_add (by decide) (by simp) _
    · refine Triple.keep_bind (fun b h => h.quiet (e := .taken fragment.1 now) trivial rfl rfl rfl) fun _ => ?_
      refine Triple.keep_bind (hencode _) fun encoded => Triple.keep_bind (ledger_ofTransport _) fun r => ?_
      cases r with
      | none =>
        refine Triple.keep_bind (fun b h => h.quiet (e := .refused) trivial rfl rfl rfl) fun _ => ?_
        exact ledger_add (by decide) (by simp) _
      | some sequence =>
        refine Triple.keep_bind (fun b h => h.quiet (e := .sent sequence encoded) trivial rfl rfl rfl) fun _ => ?_
        refine Triple.keep_bind (ledger_add (by decide) (by simp) _) fun _ => ?_
        refine Triple.keep_bind (ledger_add (by decide) (by simp) _) fun _ b h => ?_
        exact h.congr rfl ⟨fun _ _ => rfl, fun _ => rfl⟩ rfl rfl

theorem step_ledger (io : E) (now : ℚ) : Triple (Even H) (step io now : Op T Unit) fun _ => Even H := by
  refine Triple.get_bind fun b _ => Triple.keep_bind (ledger_ofTransport _) fun _ => ?_
  refine Triple.keep_bind (ledger_ofTransport _) fun outcomes => ?_
  refine Triple.keep_bind (Triple.keep_forEach fun o _ => settle_ledger o) fun _ => ?_
  refine Triple.keep_bind followSession_ledger fun _ => Triple.get_bind_eq fun b h => ?_
  have hstale : Triple (fun b' => b' = b) (dropStale now b.queue : Op T Unit) (Returns fun _ => Even H) :=
    (dropStale_ledger now b.queue).pre fun b' hb' => by rw [hb']; exact ⟨rfl, h⟩
  refine hstale.seq fun _ => Triple.get_bind fun b _ => Triple.ite (fun _ => ledger_updateQueueMetrics now) fun _ => ?_
  refine (load_ledger now).seq fun _ => Triple.keep_bind (send_ledger io now) fun _ => ?_
  exact Triple.keep_bind (ledger_updateRates now) fun _ => ledger_updateQueueMetrics now

end Transport

/-! ## The gauges -/

/-- The gauges are those of the state. -/
structure Gauged (b : BaseService T) : Prop where
  queue : b.metrics .rtcmQueueDepth = b.queue.length
  fragments : b.metrics .rtcmFragmentQueueDepth = b.fragments.length
  inFlight : b.metrics .rtcmFragmentInFlight = if b.inFlight.isSome then 1 else 0

theorem updateQueueMetrics_gauged (now : ℚ) :
    Triple (fun _ => True) (updateQueueMetrics now : Op T Unit) (Returns fun _ => Gauged) := by
  refine Triple.get_bind_eq fun b _ => ?_
  rintro _ rfl
  exact ⟨rfl, rfl, rfl⟩

theorem gauged_set {name : Metric} (hqueue : name ≠ .rtcmQueueDepth) (hfragments : name ≠ .rtcmFragmentQueueDepth)
    (hinFlight : name ≠ .rtcmFragmentInFlight) (value : Int) :
    Triple Gauged (set name value : Op T Unit) (Returns fun _ => Gauged) := fun _ h =>
  ⟨(if_neg hqueue.symm).trans h.queue, (if_neg hfragments.symm).trans h.fragments,
    (if_neg hinFlight.symm).trans h.inFlight⟩

theorem updateRates_gauged (now : ℚ) : Triple Gauged (updateRates now : Op T Unit) (Returns fun _ => Gauged) := by
  refine (Triple.modify (R := Gauged) fun b h => { h with }).seq fun _ => Triple.get_bind fun b _ => ?_
  refine (gauged_set (by decide) (by decide) (by decide) _).seq fun _ => ?_
  exact (gauged_set (by decide) (by decide) (by decide) _).seq fun _ => gauged_set (by decide) (by decide) (by decide) _

/-- What a program that may raise leaves if it does not. -/
def Unless (R : BaseService T → Prop) {α : Type} : Except Failure α → BaseService T → Prop
  | .ok _, b => R b
  | .error _, _ => True

theorem unless_bind {α β : Type} {R : BaseService T → Prop} {x : Op T α} {f : α → Op T β}
    (hf : ∀ a, Triple (fun _ => True) (f a) (Unless R)) : Triple (fun _ => True) (x >>= f) (Unless R) :=
  Triple.bind (R := fun _ _ => True) (fun _ _ => trivial) hf fun _ _ _ => trivial

theorem unless_of {α : Type} {R : BaseService T → Prop} {P : BaseService T → Prop} {x : Op T α}
    (hx : Triple P x (Returns fun _ => R)) : Triple P x (Unless R) := by
  refine hx.weaken (fun _ h => h) fun r b h => ?_
  cases r with
  | ok a => exact h
  | error e => exact trivial

theorem ingest_gauged (chunk : Bytes) (now : ℚ) :
    Triple (fun _ => True) (ingest chunk now : Op T Nat) (Unless Gauged) := by
  refine Triple.get_bind fun b _ => ?_
  generalize b.parser.feed chunk now = r
  obtain ⟨parser, frames⟩ := r
  refine unless_bind fun _ => unless_bind fun _ => unless_bind fun _ => unless_of ?_
  refine (updateQueueMetrics_gauged now).seq fun _ => (gauged_set (by decide) (by decide) (by decide) _).seq fun _ => ?_
  exact (updateRates_gauged now).seq fun _ _ h => h

theorem step_gauged [Transport T E] (io : E) (now : ℚ) :
    Triple (fun _ => True) (step io now : Op T Unit) (Unless Gauged) := by
  refine Triple.get_bind fun b _ => unless_bind fun _ => unless_bind fun outcomes => unless_bind fun _ => ?_
  refine unless_bind fun _ => Triple.get_bind fun b _ => unless_bind fun _ => Triple.get_bind fun b _ => ?_
  refine Triple.ite (fun _ => unless_of (updateQueueMetrics_gauged now)) fun _ => ?_
  exact unless_bind fun _ => unless_bind fun _ => unless_bind fun _ => unless_of (updateQueueMetrics_gauged now)

/-! ## Calls and runs -/

variable [Transport T E]

/-- The account between two calls. -/
def Kept (H : List Event) (b : BaseService T) : Prop := Even H { b with log := [] }

theorem FrameLedger.kept (h : Even H b) : Kept (H ++ b.log) b := by
  refine ⟨?_, ?_, fun t => ?_⟩
  · show ((ingestedFrames (H ++ b.log ++ [])).length : Int) = b.queue.length + dropped b.metrics + loadings
      (H ++ b.log ++ []) + 0
    rw [List.append_nil]
    exact h.balance
  · show b.metrics .rtcmFramesIngested + _ = ((ingestedFrames (H ++ b.log ++ [])).length : Int)
    rw [List.append_nil]
    exact h.counted
  · show b.metrics (.rtcmType t) + _ = (((ingestedFrames (H ++ b.log ++ [])).map RtcmFrame.messageType).count t : Int)
    rw [List.append_nil]
    exact h.typed t

/-- A call keeps the account, also if something escapes from it. -/
theorem call_ledger {α : Type} {x : Op T α} (hx : Triple (Even H) x fun _ => Even H) (h : Kept H b) :
    Kept (H ++ (call x b).log) (call x b) := by
  have hend := hx _ h
  unfold call
  generalize x { b with log := [] } = res at hend
  obtain ⟨r, b'⟩ := res
  cases r with
  | ok a => exact FrameLedger.kept hend
  | error e =>
    have hsaid : Even H { b' with log := b'.log ++ [.raised e] } :=
      FrameLedger.quiet hend (e := .raised e) trivial rfl rfl rfl
    exact hsaid.kept

theorem next_kept (i : Input E) (h : Kept H b) : Kept (H ++ (next i b).log) (next i b) := by
  cases i with
  | ingest chunk now => exact call_ledger (ingest_ledger chunk now) h
  | resetSource =>
    refine call_ledger (resetSource_ledger.weaken (fun _ h => h) fun r b h => ?_) h
    cases r with
    | ok u => exact h
    | error e => exact h.elim
  | step io now => exact call_ledger (step_ledger io now) h

/-- A call that returns leaves its gauges right. -/
theorem call_gauged {α : Type} {x : Op T α} (hx : Triple (fun _ => True) x (Unless Gauged))
    (hreturns : ∀ e, .raised e ∉ (call x b).log) : Gauged (call x b) := by
  have hend := hx { b with log := [] } trivial
  unfold call at hreturns ⊢
  generalize x { b with log := [] } = res at hend hreturns
  obtain ⟨r, b'⟩ := res
  cases r with
  | ok a => exact hend
  | error e => exact absurd (List.mem_append_right _ (List.mem_singleton_self _)) (hreturns e)

theorem next_gauged {i : Input E} (hi : i ≠ .resetSource) (hreturns : ∀ e, .raised e ∉ (next i b).log) :
    Gauged (next i b) := by
  cases i with
  | ingest chunk now => exact call_gauged (ingest_gauged chunk now) hreturns
  | resetSource => exact absurd rfl hi
  | step io now => exact call_gauged (step_gauged io now) hreturns

theorem run_kept (t : T) (is : List (Input E)) :
    Kept (history (trace next (init t) is)) (run next (init t) is) := by
  have hstart : Kept [] (init t : BaseService T) := ⟨rfl, rfl, fun _ => rfl⟩
  have hrun := run_rel (G := fun _ => True) (f := eventsOf) (P := Kept) hstart
    (fun H i b h _ => next_kept (b := b) i h) is fun _ _ => trivial
  rwa [List.nil_append] at hrun

/-- **No frame vanishes uncounted**, in every run and over any transport, also if calls raise: the counters of frames
ingested, in all and by type, are those of the frames that the parser has made; each of these is in the queue, was cut
into fragments or is counted once as dropped; and an `ingest` or a `step` that returns leaves the gauges of the queue, of
the fragments and of the fragment in flight as the state is (`reset_source` does not update them). -/
theorem ledger_balances (t : T) (is : List (Input E)) :
    ((run next (init t) is).metrics .rtcmFramesIngested = (ingestedFrames (history (trace next (init t) is))).length ∧
      ∀ type, (run next (init t) is).metrics (.rtcmType type) =
        ((ingestedFrames (history (trace next (init t) is))).map RtcmFrame.messageType).count type) ∧
    (run next (init t) is).metrics .rtcmFramesIngested =
      (run next (init t) is).queue.length + (run next (init t) is).metrics .rtcmFramesDroppedQueueFull +
        (run next (init t) is).metrics .rtcmFramesDroppedSourceReset +
        (run next (init t) is).metrics .rtcmFramesDroppedStale +
        (run next (init t) is).metrics .rtcmFragmentFailures + loadings (history (trace next (init t) is)) ∧
    ∀ x ∈ trace next (init t) is, x.input ≠ .resetSource → (∀ e, .raised e ∉ x.after.log) → Gauged x.after := by
  have h := run_kept t is
  have hbalance := h.balance
  have hcounted := h.counted
  simp only [List.append_nil, dropped, Nat.cast_zero, add_zero] at hbalance hcounted
  refine ⟨⟨hcounted, fun type => ?_⟩, ?_, fun x hx hi hreturns => ?_⟩
  · have htyped := h.typed type
    simpa using htyped
  · rw [hcounted, hbalance]
    simp only [add_assoc]
  · rw [trace_step hx] at hreturns ⊢
    exact next_gauged hi hreturns

end BaseService

end LoraLink.Service
