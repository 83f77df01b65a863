import LoraLink.Ros.Reader
import Mathlib.Tactic.Linarith.Frontend
import Mathlib.Tactic.NormNum.Basic

/-!
# What the reader of the ROS bridge returns

One step lemma and one invariant for each part, then all of them over every run.

- `act_order`: frames leave the queue in the order in which they were parsed;
- `act_young`: no frame that is too old is returned;
- `Bounded`: `put_nowait` has room when it is called for the second time;
- `Past`: what a connection has left is gone when its frames were dropped;
- `Whole`: a frame is a part of the bytes of its connection;
- `reader_sound`: the five together.
-/

namespace LoraLink.Ros

open Application Rtcm RtcmStreamParser

/-! ## Order -/

/-- The frames of a chunk that are still to be put into the queue. -/
@[simp] def Thread.pending : Thread → List RtcmFrame
  | feed _ frames => frames
  | full _ frame frames => frame :: frames
  | discarded _ frame frames => frame :: frames
  | again _ frame frames => frame :: frames
  | received _ frames => frames
  | check | drop _ | dropped _ | connect | loop _ | receive _ | wait | ended | raised => []

/-- The frames that a call of `take` has so far. -/
@[simp] def Taker.output : Taker → List Queued
  | outside => []
  | get _ _ output => output
  | stale _ _ output => output

/-- All frames that were parsed and may still be returned, oldest first. -/
def State.held (s : State) : List Queued :=
  s.taker.output ++ (s.shared.frames ++ s.thread.pending.map fun frame => ⟨frame, s.shared.connection⟩)

/-- Frames leave the queue in the order in which they were parsed. -/
theorem runStep_order (answer : Answer) (s : State) :
    (returnedIn (runStep answer s).2 ++ (runStep answer s).1.held).Sublist (s.held ++ parsedIn (runStep answer s).2) := by
  unfold State.held
  fun_cases runStep answer s with
  | case3 _ behind => cases behind <;> simp [*, Behind.thread]
  | _ => simp [*]

theorem takeStep_order (s : State) :
    (returnedIn (takeStep s).2 ++ (takeStep s).1.held).Sublist (s.held ++ parsedIn (takeStep s).2) := by
  unfold State.held
  fun_cases takeStep s
  all_goals simp [*]

theorem act_order (input : Input) (s : State) :
    (returnedIn (act input s).2 ++ (act input s).1.held).Sublist (s.held ++ parsedIn (act input s).2) := by
  cases input with
  | close => simp [act, State.held]
  | run answer => exact runStep_order answer s
  | call limit now =>
    simp only [act]
    split <;> simp [State.held, *]
  | take => exact takeStep_order s

theorem history_order (queueSize : Nat) (inputs : List Input) :
    (returnedIn (history queueSize inputs)).Sublist (parsedIn (history queueSize inputs)) := by
  have hall : (returnedIn (history queueSize inputs) ++ (run step (init queueSize) inputs).held).Sublist
      (parsedIn (history queueSize inputs)) := by
    refine history_rel (P := fun H s => (returnedIn H ++ s.held).Sublist (parsedIn H)) (List.nil_sublist _) ?_ inputs
    intro H input s h
    have hnext := (act_order input s).append_left (returnedIn H)
    have hkept := h.append_right (parsedIn (act input s).2)
    simp only [returnedIn_append, parsedIn_append, List.append_assoc] at hnext hkept ⊢
    exact hnext.trans hkept
  exact (List.sublist_append_left ..).trans hall

/-! ## Age -/

/-- What a call of `take` has so far is young enough. -/
def Taker.Young : Taker → Prop
  | outside => True
  | get now _ output => ∀ f ∈ output, now - f.frame.receivedAt < 1
  | stale now _ output => ∀ f ∈ output, now - f.frame.receivedAt < 1

def Event.Young : Event → Prop
  | returned now output => ∀ f ∈ output, now - f.frame.receivedAt < 1
  | _ => True

/-- No frame that is too old is returned. -/
theorem takeStep_young {s : State} (h : s.taker.Young) :
    (takeStep s).1.taker.Young ∧ ∀ e ∈ (takeStep s).2, e.Young := by
  fun_cases takeStep s with
  | case5 now limit output htaker f _ hframes hage =>
    simp only [htaker, Taker.Young] at h
    have hfresh : now - f.frame.receivedAt < 1 := by
      simp only [rtcmTransportTtlMs] at hage
      norm_num at hage
      exact hage
    simp only [Taker.Young, List.mem_append, List.mem_singleton, Event.Young]
    refine ⟨?_, by simp⟩
    rintro g (hg | rfl)
    · exact h g hg
    · exact hfresh
  | _ => simp_all [Taker.Young, Event.Young]

theorem runStep_young (answer : Answer) (s : State) :
    (runStep answer s).1.taker = s.taker ∧ ∀ e ∈ (runStep answer s).2, e.Young := by
  fun_cases runStep answer s with
  | case3 _ behind => cases behind <;> simp [Behind.events, Event.Young]
  | _ => simp [Event.Young]

theorem act_young (input : Input) {s : State} (h : s.taker.Young) :
    (act input s).1.taker.Young ∧ ∀ e ∈ (act input s).2, e.Young := by
  cases input with
  | close => exact ⟨h, nofun⟩
  | run answer =>
    obtain ⟨htaker, hevents⟩ := runStep_young answer s
    exact ⟨by rw [act, htaker]; exact h, hevents⟩
  | call limit now =>
    simp only [act]
    split
    · exact ⟨fun f hf => absurd hf List.not_mem_nil, nofun⟩
    · exact ⟨h, nofun⟩
  | take => exact takeStep_young h

theorem history_young (queueSize : Nat) (inputs : List Input) : ∀ e ∈ history queueSize inputs, e.Young := by
  refine (history_rel (P := fun H s => s.taker.Young ∧ ∀ e ∈ H, e.Young) ⟨trivial, nofun⟩ ?_ inputs).2
  intro H input s h
  obtain ⟨htaker, hevents⟩ := act_young input h.1
  refine ⟨htaker, fun e he => ?_⟩
  obtain he | he := List.mem_append.mp he
  · exact h.2 e he
  · exact hevents e he

/-! ## Room -/

/-- A place where the thread is only while the queue has a bound, or has room. -/
def Thread.Room (shared : Shared) : Thread → Prop
  | full _ _ _ => 0 < shared.queueSize
  | discarded _ _ _ => ¬ shared.Full
  | again _ _ _ => ¬ shared.Full
  | _ => True

/-- The queue is within its bound, and has room once a frame was to be discarded. -/
def Bounded (s : State) : Prop :=
  (0 < s.shared.queueSize → s.shared.frames.length ≤ s.shared.queueSize) ∧ s.thread.Room s.shared

/-- The second `put_nowait` finds room: only the reader thread puts frames into the queue. -/
theorem runStep_bounded (answer : Answer) {s : State} (h : Bounded s) :
    Bounded (runStep answer s).1 ∧ .escaped ∉ (runStep answer s).2 := by
  unfold Bounded at h ⊢
  fun_cases runStep answer s with
  | case3 _ behind => cases behind <;> simp_all [Thread.Room, Behind.thread, Behind.events]
  | case22 _ parser frame frames hthread hfull =>
    rw [hthread] at h
    exact absurd hfull h.2
  | _ => simp_all [Thread.Room, Shared.Full] <;> omega

/-- Taking a frame out leaves room. -/
theorem Thread.Room.rest {shared : Shared} {thread : Thread} (h : thread.Room shared) : thread.Room shared.rest := by
  have hlength : shared.frames.tail.length ≤ shared.frames.length := by simp
  cases thread with
  | full => exact h
  | discarded parser frame frames => exact fun hfull => h ⟨hfull.1, hfull.2.trans hlength⟩
  | again parser frame frames => exact fun hfull => h ⟨hfull.1, hfull.2.trans hlength⟩
  | _ => trivial

theorem Bounded.rest {s : State} (h : Bounded s) : Bounded { s with shared := s.shared.rest } := by
  refine ⟨fun hpos => ?_, h.2.rest⟩
  have hle := h.1 hpos
  simp only [Shared.rest, List.length_tail]
  omega

theorem takeStep_bounded {s : State} (h : Bounded s) : Bounded (takeStep s).1 ∧ .escaped ∉ (takeStep s).2 := by
  fun_cases takeStep s with
  | case4 | case5 => exact ⟨h.rest, by simp⟩
  | _ => exact ⟨h, by simp⟩

theorem act_bounded (input : Input) {s : State} (h : Bounded s) :
    Bounded (act input s).1 ∧ .escaped ∉ (act input s).2 := by
  cases input with
  | close => exact ⟨h, nofun⟩
  | run answer => exact runStep_bounded answer h
  | call limit now =>
    simp only [act]
    split
    · exact ⟨h, nofun⟩
    · exact ⟨h, nofun⟩
  | take => exact takeStep_bounded h

theorem history_bounded (queueSize : Nat) (inputs : List Input) : .escaped ∉ history queueSize inputs := by
  refine (history_rel (P := fun H s => Bounded s ∧ .escaped ∉ H) ⟨⟨fun _ => Nat.zero_le _, trivial⟩, nofun⟩ ?_ inputs).2
  intro H input s h
  obtain ⟨hbounded, hevents⟩ := act_bounded input h.1
  refine ⟨hbounded, fun he => ?_⟩
  obtain he | he := List.mem_append.mp he
  · exact h.2 he
  · exact hevents he

/-! ## Connections -/

/-- The thread has dropped what its connection left, and has not begun another one. -/
@[simp] def Thread.between : Thread → Bool
  | check | wait | ended | raised => true
  | _ => false

/-- A connection is over, and none of its frames is in the queue or will be. -/
def Past (c : Nat) (s : State) : Prop :=
  c ≤ s.shared.connection ∧ (c < s.shared.connection ∨ s.thread.between = true) ∧ ∀ f ∈ s.shared.frames, c < f.connection

/-- After the boundary of a connection no frame of it leaves the queue. -/
def After (e e' : Event) : Prop := ∀ c f, e = .boundary c → e' = .dequeued f → c < f.connection

/-- What is past stays past: the frames that are put into the queue are of a later connection. -/
theorem runStep_past (answer : Answer) {s : State} {c : Nat} (h : Past c s) :
    Past c (runStep answer s).1 ∧ ∀ f, .dequeued f ∈ (runStep answer s).2 → c < f.connection := by
  unfold Past at h ⊢
  fun_cases runStep answer s with
  | case2 =>
    simp_all
    omega
  | case3 _ behind => cases behind <;> simp_all [Behind.thread, Behind.events]
  | case18 _ parser frame frames hthread | case23 _ parser frame frames hthread =>
    obtain ⟨hle, hover, hgone⟩ := h
    have hlt : c < s.shared.connection := by simpa [hthread] using hover
    refine ⟨⟨hle, .inl hlt, fun f hf => ?_⟩, by simp⟩
    obtain hf | hf := List.mem_append.mp hf
    · exact hgone f hf
    · rw [List.mem_singleton.mp hf]
      exact hlt
  | _ => simp_all

theorem takeStep_past {s : State} {c : Nat} (h : Past c s) :
    Past c (takeStep s).1 ∧ ∀ f, .dequeued f ∈ (takeStep s).2 → c < f.connection := by
  unfold Past at h ⊢
  fun_cases takeStep s
  all_goals simp_all

theorem act_past (input : Input) {s : State} {c : Nat} (h : Past c s) :
    Past c (act input s).1 ∧ ∀ f, .dequeued f ∈ (act input s).2 → c < f.connection := by
  cases input with
  | close => exact ⟨h, nofun⟩
  | run answer => exact runStep_past answer h
  | call limit now =>
    simp only [act]
    split
    · exact ⟨h, nofun⟩
    · exact ⟨h, nofun⟩
  | take => exact takeStep_past h

/-- A boundary is where the queue is empty. -/
theorem runStep_boundary (answer : Answer) (s : State) :
    (runStep answer s).2.Pairwise After ∧ ∀ c, .boundary c ∈ (runStep answer s).2 → Past c (runStep answer s).1 := by
  fun_cases runStep answer s with
  | case3 _ behind => cases behind <;> simp_all [Behind.thread, Behind.events, Past]
  | _ => simp [After]

theorem act_boundary (input : Input) (s : State) :
    (act input s).2.Pairwise After ∧ ∀ c, .boundary c ∈ (act input s).2 → Past c (act input s).1 := by
  cases input with
  | close => exact ⟨.nil, nofun⟩
  | run answer => exact runStep_boundary answer s
  | call limit now =>
    simp only [act]
    split
    · exact ⟨.nil, nofun⟩
    · exact ⟨.nil, nofun⟩
  | take =>
    simp only [act]
    fun_cases takeStep s
    all_goals simp [After]

theorem history_boundary (queueSize : Nat) (inputs : List Input) : (history queueSize inputs).Pairwise After := by
  refine (history_rel (P := fun H s => H.Pairwise After ∧ ∀ c, .boundary c ∈ H → Past c s) ⟨.nil, nofun⟩ ?_ inputs).1
  intro H input s h
  obtain ⟨hpairs, hboundary⟩ := act_boundary input s
  refine ⟨List.pairwise_append.mpr ⟨h.1, hpairs, ?_⟩, fun c hc => ?_⟩
  · rintro e he e' he' c f rfl rfl
    exact (act_past input (h.2 c he)).2 f he'
  · obtain hc | hc := List.mem_append.mp hc
    · exact (act_past input (h.2 c hc)).1
    · exact hboundary c hc

/-! ## Bytes -/

/-- The parser of the connection, where there is one. -/
@[simp] def Thread.parser : Thread → Option RtcmStreamParser
  | loop parser | receive parser | feed parser _ | full parser _ _ | discarded parser _ _ | again parser _ _
  | received parser _ => some parser
  | _ => none

/-- What the parser holds, and the frames that were parsed, are parts of the bytes of their connection. -/
structure Whole (H : List Event) (s : State) : Prop where
  buffer : ∀ parser ∈ s.thread.parser, parser.buffer <:+ streamIn s.shared.connection H
  frames : ∀ f ∈ parsedIn H, f.frame.raw <:+: streamIn f.connection H

/-- A step that reads nothing. -/
theorem Whole.quiet {H H' : List Event} {s s' : State} (h : Whole H s) (hframes : parsedIn H' = [])
    (hstream : ∀ c, streamIn c H' = [])
    (hparser : ∀ parser ∈ s'.thread.parser, parser.buffer = [] ∨
      parser ∈ s.thread.parser ∧ s'.shared.connection = s.shared.connection) : Whole (H ++ H') s' := by
  constructor
  · intro parser hp
    rw [streamIn_append, hstream, List.append_nil]
    obtain hnil | ⟨hsame, hconnection⟩ := hparser parser hp
    · exact hnil ▸ List.nil_suffix
    · exact hconnection ▸ h.buffer parser hsame
  · intro f hf
    rw [parsedIn_append, hframes, List.append_nil] at hf
    rw [streamIn_append, hstream, List.append_nil]
    exact h.frames f hf

theorem runStep_whole (answer : Answer) {H : List Event} {s : State} (h : Whole H s) :
    Whole (H ++ (runStep answer s).2) (runStep answer s).1 := by
  fun_cases runStep answer s with
  | case3 _ behind => exact h.quiet (by simp) (by simp) (by cases behind <;> simp [Behind.thread])
  | case15 parser hthread bytes now _ parser' frames hfeed =>
    -- what the parser held is the end of the stream so far, so the chunk makes it longer at the end
    have hbuffer : parser.buffer <:+ streamIn s.shared.connection H := h.buffer parser (by rw [hthread]; rfl)
    have hchunk : parser.buffer ++ bytes <:+ streamIn s.shared.connection H ++ bytes := by
      obtain ⟨front, hfront⟩ := hbuffer
      exact ⟨front, by rw [← List.append_assoc, hfront]⟩
    obtain ⟨hrest, hframes⟩ := feed_infix parser bytes now
    rw [hfeed] at hrest hframes
    constructor
    · rintro _ ⟨⟩
      simpa using hrest.trans hchunk
    · intro f hf
      simp only [parsedIn_append, parsedIn_cons, Event.parsedFrames, parsedIn_nil, List.nil_append, List.append_nil] at hf
      obtain hf | hf := List.mem_append.mp hf
      · rw [streamIn_append]
        exact (h.frames f hf).trans (List.prefix_append _ _).isInfix
      · obtain ⟨frame, hframe, rfl⟩ := List.mem_map.mp hf
        simpa using (hframes frame hframe).trans hchunk.isInfix
  | _ => exact h.quiet (by simp) (by simp) (by simp [*])

theorem act_whole (input : Input) {H : List Event} {s : State} (h : Whole H s) :
    Whole (H ++ (act input s).2) (act input s).1 := by
  cases input with
  | close => exact h.quiet rfl (fun _ => rfl) fun parser hp => .inr ⟨hp, rfl⟩
  | run answer => exact runStep_whole answer h
  | call limit now =>
    simp only [act]
    split <;> exact h.quiet rfl (fun _ => rfl) fun parser hp => .inr ⟨hp, rfl⟩
  | take =>
    simp only [act]
    fun_cases takeStep s
    all_goals exact h.quiet (by simp) (by simp) fun parser hp => .inr ⟨hp, rfl⟩

theorem history_whole (queueSize : Nat) (inputs : List Input) : ∀ f ∈ parsedIn (history queueSize inputs),
    f.frame.raw <:+: streamIn f.connection (history queueSize inputs) :=
  (history_rel (P := Whole) ⟨nofun, nofun⟩ (fun _ input _ => act_whole input) inputs).frames

/-! ## The reader -/

/-- **The reader returns fresh frames of one connection each**, whatever the order in which the two threads take their
steps: in the order in which they were parsed, none twice; young enough; none that leaves the queue after its connection
was dropped; all bytes of one connection. And `Full` never leaves `_put_fresh`. -/
theorem reader_sound (queueSize : Nat) (inputs : List Input) :
    let H := history queueSize inputs
    (returnedIn H).Sublist (parsedIn H) ∧
      (∀ now output, .returned now output ∈ H → ∀ f ∈ output, now - f.frame.receivedAt < 1) ∧
      H.Pairwise (fun e e' => ∀ c f, e = .boundary c → e' = .dequeued f → c < f.connection) ∧
      (∀ f ∈ returnedIn H, f.frame.raw <:+: streamIn f.connection H) ∧ .escaped ∉ H :=
  ⟨history_order queueSize inputs, fun _ _ he => history_young queueSize inputs _ he, history_boundary queueSize inputs,
    fun f hf => history_whole queueSize inputs f ((history_order queueSize inputs).subset hf),
    history_bounded queueSize inputs⟩

end LoraLink.Ros
