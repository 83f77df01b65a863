import LoraLink.Ros.Fresh

/-!
# The frames that the reader of the ROS bridge counts

A frame that was passed to `_put_fresh` is in the queue, in the hand of one of the threads, was returned, or was
discarded. `_put_fresh` counts a frame as dropped behind `Full` also where the other thread has emptied the queue
meanwhile and nothing is discarded.

- `act_balance`, `act_discarded`: what one step does to these numbers;
- `frames_accounted`: the numbers agree just as long as this does not happen;
- `frames_overcounted`: a run where it happens.
-/

namespace LoraLink.Ros

open Application Rtcm

/-! ## Frames on their way -/

/-- A frame that was passed and is not in the queue yet. -/
@[simp] def Thread.hand : Thread → Nat
  | full _ _ _ | discarded _ _ _ | again _ _ _ => 1
  | _ => 0

/-- A drop that is to be counted next. -/
@[simp] def Thread.uncounted : Thread → Nat
  | dropped _ | discarded _ _ _ => 1
  | _ => 0

@[simp] def Taker.uncounted : Taker → Nat
  | stale _ _ _ => 1
  | _ => 0

/-- Drops, counted or about to be. -/
def State.drops (s : State) : Nat := s.shared.framesDropped + s.thread.uncounted + s.taker.uncounted

/-- Frames that were passed and not returned, and what was dropped in their place. -/
def State.kept (s : State) : Nat := s.taker.output.length + s.shared.frames.length + s.thread.hand + s.drops

@[simp] def Event.isRace : Event → Bool
  | raced => true
  | _ => false

def racesIn (H : List Event) : Nat := H.countP Event.isRace

@[simp] theorem racesIn_append (H H' : List Event) : racesIn (H ++ H') = racesIn H + racesIn H' := List.countP_append

/-! ## One step -/

theorem runStep_balance (answer : Answer) {s : State} (h : Bounded s) :
    (passedIn (runStep answer s).2).length + racesIn (runStep answer s).2 + s.kept =
      (returnedIn (runStep answer s).2).length + (runStep answer s).1.kept := by
  unfold State.kept State.drops racesIn
  fun_cases runStep answer s with
  | case3 _ behind => cases behind <;> simp [Behind.thread, Behind.events, *]
  | case22 _ parser frame frames hthread hfull =>
    have hroom := h.2
    rw [hthread] at hroom
    exact absurd hfull hroom
  | _ => simp [*] <;> omega

theorem takeStep_balance (s : State) :
    (passedIn (takeStep s).2).length + racesIn (takeStep s).2 + s.kept =
      (returnedIn (takeStep s).2).length + (takeStep s).1.kept := by
  unfold State.kept State.drops racesIn
  fun_cases takeStep s
  all_goals simp [*] <;> omega

/-- Every frame that is passed is kept, and every race counts for one that is not there. -/
theorem act_balance (input : Input) {s : State} (h : Bounded s) :
    (passedIn (act input s).2).length + racesIn (act input s).2 + s.kept =
      (returnedIn (act input s).2).length + (act input s).1.kept := by
  cases input with
  | close => simp [act, racesIn, State.kept, State.drops]
  | run answer => exact runStep_balance answer h
  | call limit now =>
    simp only [act]
    split <;> simp [racesIn, State.kept, State.drops, *]
  | take => exact takeStep_balance s

theorem runStep_discarded (answer : Answer) (s : State) :
    (discardedIn (runStep answer s).2).length + racesIn (runStep answer s).2 + s.drops = (runStep answer s).1.drops := by
  unfold State.drops racesIn
  fun_cases runStep answer s with
  | case3 _ behind => cases behind <;> simp [Behind.thread, Behind.events, *]
  | _ => simp [*] <;> omega

/-- Every drop is of a frame that was discarded, or of none. -/
theorem act_discarded (input : Input) (s : State) :
    (discardedIn (act input s).2).length + racesIn (act input s).2 + s.drops = (act input s).1.drops := by
  cases input with
  | close => simp [act, racesIn, State.drops]
  | run answer => exact runStep_discarded answer s
  | call limit now =>
    simp only [act]
    split <;> simp [racesIn, State.drops, *]
  | take =>
    unfold State.drops racesIn
    simp only [act]
    fun_cases takeStep s
    all_goals simp [*] <;> omega

/-! ## Runs -/

/-- The numbers after a run. -/
structure Balanced (H : List Event) (s : State) : Prop where
  bounded : Bounded s
  passed : (passedIn H).length + racesIn H = (returnedIn H).length + s.kept
  discarded : (discardedIn H).length + racesIn H = s.drops

theorem history_balanced (queueSize : Nat) (inputs : List Input) :
    Balanced (history queueSize inputs) (run step (init queueSize) inputs) := by
  refine history_rel (P := Balanced) ⟨⟨fun _ => Nat.zero_le _, trivial⟩, rfl, rfl⟩ ?_ inputs
  intro H input s h
  have hpassed := act_balance input h.bounded
  have hdiscarded := act_discarded input s
  refine ⟨(act_bounded input h.bounded).1, ?_, ?_⟩
  · have hbefore := h.passed
    simp only [passedIn_append, returnedIn_append, racesIn_append, List.length_append]
    omega
  · have hbefore := h.discarded
    simp only [discardedIn_append, racesIn_append, List.length_append]
    omega

/-- The reader is behind `Full` in `_put_fresh` and is to make room in a queue that is empty. -/
def Races (m : Move State Input) : Prop :=
  ∃ answer parser frame frames, m.input = .run answer ∧ m.before.thread = .full parser frame frames ∧
    m.before.shared.frames = []

theorem runStep_races (answer : Answer) (s : State) : racesIn (runStep answer s).2 = 0 ↔
    ¬ ∃ parser frame frames, s.thread = .full parser frame frames ∧ s.shared.frames = [] := by
  unfold racesIn
  fun_cases runStep answer s with
  | case3 _ behind => cases behind <;> simp [Behind.events, *]
  | _ => simp [*]

theorem takeStep_races (s : State) : racesIn (takeStep s).2 = 0 := by
  unfold racesIn
  fun_cases takeStep s
  all_goals simp

theorem races_iff (m : Move State Input) : racesIn (eventsOf m) = 0 ↔ ¬ Races m := by
  obtain ⟨s, input, s'⟩ := m
  cases input with
  | close => simp [eventsOf, act, racesIn, Races]
  | run answer => exact (runStep_races answer s).trans (by simp [Races])
  | call limit now =>
    simp only [eventsOf, act]
    split <;> simp [racesIn, Races]
  | take =>
    have hnone : racesIn (eventsOf ⟨s, .take, s'⟩) = 0 := takeStep_races s
    simp [hnone, Races]

theorem history_races (queueSize : Nat) (inputs : List Input) :
    racesIn (history queueSize inputs) = 0 ↔ ∀ m ∈ trace step (init queueSize) inputs, ¬ Races m := by
  have hall : ∀ T : List (Move State Input), racesIn (outputs eventsOf T) = 0 ↔ ∀ m ∈ T, ¬ Races m := by
    intro T
    induction T with
    | nil => simp [racesIn]
    | cons m T ih => rw [outputs_cons, racesIn_append, Nat.add_eq_zero_iff, races_iff, ih, List.forall_mem_cons]
  exact hall (trace step (init queueSize) inputs)

/-- A thread is in `_put_fresh` or in `_drop_queued_frames`. -/
@[simp] def Thread.inside : Thread → Bool
  | drop _ | dropped _ | full _ _ _ | discarded _ _ _ | again _ _ _ => true
  | _ => false

/-- A thread is in `take`. -/
@[simp] def Taker.inside : Taker → Bool
  | outside => false
  | _ => true

/-- Neither thread is in one of these operations. -/
def State.Quiet (s : State) : Prop := s.thread.inside = false ∧ s.taker.inside = false

instance (s : State) : Decidable s.Quiet := inferInstanceAs (Decidable (_ ∧ _))

/-- In a quiet state the frames that were passed are those that were returned, dropped and queued; and a frame is counted
as dropped only if it was discarded. -/
def Accounted (H : List Event) (s : State) : Prop :=
  (s.Quiet → (passedIn H).length = (returnedIn H).length + s.shared.framesDropped + s.shared.frames.length) ∧
    s.shared.framesDropped ≤ (discardedIn H).length

theorem State.Quiet.kept {s : State} (h : s.Quiet) : s.drops = s.shared.framesDropped ∧
    s.kept = s.shared.frames.length + s.shared.framesDropped := by
  obtain ⟨shared, thread, taker⟩ := s
  obtain ⟨hthread, htaker⟩ := h
  have hhand : thread.hand = 0 ∧ thread.uncounted = 0 := by cases thread <;> simp_all
  have houtput : taker.output.length = 0 ∧ taker.uncounted = 0 := by cases taker <;> simp_all
  simp only [State.kept, State.drops, hhand, houtput]
  omega

/-- **The frames are accounted for** at every point of every run in which the reader never finds the queue empty where it
was full; and where a run is quiet and its frames are accounted for, that has never happened. -/
theorem frames_accounted (queueSize : Nat) (inputs : List Input) :
    let H := history queueSize inputs
    let s := run step (init queueSize) inputs
    ((∀ m ∈ trace step (init queueSize) inputs, ¬ Races m) → Accounted H s) ∧
      (s.Quiet → Accounted H s → ∀ m ∈ trace step (init queueSize) inputs, ¬ Races m) := by
  intro H s
  have hbalanced : Balanced H s := history_balanced queueSize inputs
  have hpassed := hbalanced.passed
  have hdiscarded := hbalanced.discarded
  rw [← history_races]
  constructor
  · intro hraces
    have hraces : racesIn H = 0 := hraces
    refine ⟨fun hquiet => ?_, ?_⟩
    · obtain ⟨-, hkept⟩ := hquiet.kept
      omega
    · unfold State.drops at hdiscarded
      omega
  · intro hquiet haccounted
    obtain ⟨-, hkept⟩ := hquiet.kept
    have hsum := haccounted.1 hquiet
    change racesIn H = 0
    omega

/-- Two frames come in one chunk for a queue of one. The second finds the queue full, and the other thread takes the first
one before the reader does. -/
def racedRun : List Input :=
  [.run .connected, .run .connected, .run .connected, .run .connected,
    .run (.chunk [0xd3, 0, 0, 0x47, 0xea, 0x4b, 0xd3, 0, 0, 0x47, 0xea, 0x4b] 0), .run .connected, .run .connected,
    .run .connected, .call 2 0, .take, .take, .run .connected, .run .connected, .run .connected]

/-- Two frames are passed, one is returned, one is queued, and one is counted as dropped. -/
theorem frames_overcounted : ¬ ∀ (queueSize : Nat) (inputs : List Input), 1 ≤ queueSize →
    Accounted (history queueSize inputs) (run step (init queueSize) inputs) := by
  intro h
  have hidentity := (h 1 racedRun (Nat.le_refl _)).1 (by decide +kernel)
  exact absurd hidentity (by decide +kernel)

end LoraLink.Ros
