import LoraLink.App.Reassembler
import LoraLink.App.RtcmStream
import LoraLink.Lib.Run

/-!
# The reader of the ROS bridge

`RtcmTcpReader` of `mowgli_ros.py`: one thread reads frames from a TCP connection into a bounded queue (`_run`), another
one takes them out (`take`). A step is one operation of one thread on what both have: a call of the queue, a counter, the
event. Where a thread is between two steps is a value of `Thread` and of `Taker`.

A frame in the queue carries the number of the connection it came from. Nothing depends on that number: it tells apart
frames with the same bytes.
-/

namespace LoraLink.Ros

open Application Rtcm

structure Queued where
  frame : RtcmFrame
  connection : Nat
deriving DecidableEq

/-- What both threads have. -/
structure Shared where
  /-- `maxsize` of the queue: no bound if it is zero. -/
  queueSize : Nat := 128
  frames : List Queued := []
  stopEvent : Bool := false
  framesReceived : Nat := 0
  framesDropped : Nat := 0
  connectFailures : Nat := 0
  /-- The number of times the outer loop of `_run` was entered. -/
  connection : Nat := 0

namespace Shared

def Full (s : Shared) : Prop := 0 < s.queueSize ∧ s.queueSize ≤ s.frames.length

instance (s : Shared) : Decidable s.Full := inferInstanceAs (Decidable (_ ∧ _))

/-- `put_nowait`, where the queue is not full. -/
@[simp] def put (frame : RtcmFrame) (s : Shared) : Shared := { s with frames := s.frames ++ [⟨frame, s.connection⟩] }

/-- `get_nowait`, where the queue is not empty. -/
@[simp] def rest (s : Shared) : Shared := { s with frames := s.frames.tail }

@[simp] def countDropped (s : Shared) : Shared := { s with framesDropped := s.framesDropped + 1 }

@[simp] def countReceived (s : Shared) : Shared := { s with framesReceived := s.framesReceived + 1 }

@[simp] def countFailure (s : Shared) : Shared := { s with connectFailures := s.connectFailures + 1 }

end Shared

/-- What comes behind a call of `_drop_queued_frames`: the next connection, the wait for it, or the exception that goes
through `finally`. -/
inductive Behind
  | connect
  | wait
  | raise
deriving DecidableEq, Repr

/-- Where the reader thread is: what it does next. -/
inductive Thread
  /-- The outer loop. -/
  | check
  /-- `get_nowait` in `_drop_queued_frames`, and the counter behind it. -/
  | drop (behind : Behind)
  | dropped (behind : Behind)
  | connect
  /-- The inner loop, and `recv`. -/
  | loop (parser : RtcmStreamParser)
  | receive (parser : RtcmStreamParser)
  /-- The loop over the frames of a chunk: `put_nowait` in `_put_fresh`. -/
  | feed (parser : RtcmStreamParser) (frames : List RtcmFrame)
  /-- Behind `Full`: `get_nowait`, the counter, and `put_nowait` once more. -/
  | full (parser : RtcmStreamParser) (frame : RtcmFrame) (frames : List RtcmFrame)
  | discarded (parser : RtcmStreamParser) (frame : RtcmFrame) (frames : List RtcmFrame)
  | again (parser : RtcmStreamParser) (frame : RtcmFrame) (frames : List RtcmFrame)
  /-- Behind `_put_fresh`: the counter of `_run`. -/
  | received (parser : RtcmStreamParser) (frames : List RtcmFrame)
  | wait
  | ended
  | raised

/-- Where the other thread is: outside, or in `take` with `limit` passes of the loop to go. -/
inductive Taker
  | outside
  | get (now : ℚ) (limit : Nat) (output : List Queued)
  /-- The counter of a frame that is too old. -/
  | stale (now : ℚ) (limit : Nat) (output : List Queued)

structure State where
  shared : Shared := {}
  thread : Thread := .check
  taker : Taker := .outside

/-- What the socket answers: the connection is made, `OSError`, `TimeoutError`, or bytes at a time. -/
inductive Answer
  | connected
  | osError
  | timeout
  | chunk (bytes : Bytes) (now : ℚ)

inductive Input
  /-- `stop_event` is set. -/
  | close
  /-- The reader thread takes a step; the answer counts where it asks the socket. -/
  | run (answer : Answer)
  /-- The other thread calls `take`, and takes a step in it. -/
  | call (limit : Nat) (now : ℚ)
  | take

/-- What is to be seen of the steps. -/
inductive Event
  | chunk (connection : Nat) (bytes : Bytes)
  | parsed (frames : List Queued)
  /-- A call of `_put_fresh`. -/
  | passed (f : Queued)
  /-- A frame leaves the queue; one that is not returned is discarded. -/
  | dequeued (f : Queued)
  | discarded (f : Queued)
  /-- The queue was full, and is empty when the oldest frame is to make room. -/
  | raced
  | returned (now : ℚ) (output : List Queued)
  /-- The frames of a connection that has ended are dropped. -/
  | boundary (connection : Nat)
  /-- `Full` leaves `_put_fresh`. -/
  | escaped

namespace Behind

def thread : Behind → Thread
  | connect => .connect
  | wait => .wait
  | raise => .raised

def events (connection : Nat) : Behind → List Event
  | connect => []
  | wait => [.boundary connection]
  | raise => [.boundary connection]

end Behind

/-- A step of the reader thread, and what is to be seen of it. -/
def runStep (answer : Answer) (s : State) : State × List Event :=
  match s.thread with
  | .check =>
    if s.shared.stopEvent then ({ s with thread := .ended }, [])
    else ({ s with shared := { s.shared with connection := s.shared.connection + 1 }, thread := .drop .connect }, [])
  | .drop behind =>
    match s.shared.frames with
    | [] => ({ s with thread := behind.thread }, behind.events s.shared.connection)
    | f :: _ => ({ s with shared := s.shared.rest, thread := .dropped behind }, [.dequeued f, .discarded f])
  | .dropped behind => ({ s with shared := s.shared.countDropped, thread := .drop behind }, [])
  | .connect =>
    match answer with
    | .connected => ({ s with thread := .loop {} }, [])
    | .chunk _ _ => (s, [])
    | _ => ({ s with shared := s.shared.countFailure, thread := .drop .wait }, [])
  | .loop parser =>
    if s.shared.stopEvent then ({ s with thread := .drop .wait }, []) else ({ s with thread := .receive parser }, [])
  | .receive parser =>
    match answer with
    | .connected => (s, [])
    | .timeout => ({ s with thread := .loop parser }, [])
    | .osError => ({ s with shared := s.shared.countFailure, thread := .drop .wait }, [])
    | .chunk bytes now =>
      if bytes = [] then ({ s with thread := .drop .wait }, [])
      else
        let (parser, frames) := parser.feed bytes now
        ({ s with thread := .feed parser frames },
          [.chunk s.shared.connection bytes, .parsed (frames.map fun frame => ⟨frame, s.shared.connection⟩)])
  | .feed parser [] => ({ s with thread := .loop parser }, [])
  | .feed parser (frame :: frames) =>
    if s.shared.Full then ({ s with thread := .full parser frame frames }, [.passed ⟨frame, s.shared.connection⟩])
    else
      ({ s with shared := s.shared.put frame, thread := .received parser frames }, [.passed ⟨frame, s.shared.connection⟩])
  | .full parser frame frames =>
    match s.shared.frames with
    | [] => ({ s with thread := .discarded parser frame frames }, [.raced])
    | f :: _ =>
      ({ s with shared := s.shared.rest, thread := .discarded parser frame frames }, [.dequeued f, .discarded f])
  | .discarded parser frame frames =>
    ({ s with shared := s.shared.countDropped, thread := .again parser frame frames }, [])
  | .again parser frame frames =>
    if s.shared.Full then ({ s with thread := .drop .raise }, [.escaped])
    else ({ s with shared := s.shared.put frame, thread := .received parser frames }, [])
  | .received parser frames => ({ s with shared := s.shared.countReceived, thread := .feed parser frames }, [])
  | .wait => ({ s with thread := .check }, [])
  | .ended => (s, [])
  | .raised => (s, [])

/-- A step of `take`. -/
def takeStep (s : State) : State × List Event :=
  match s.taker with
  | .outside => (s, [])
  | .get now 0 output => ({ s with taker := .outside }, [.returned now output])
  | .get now (limit + 1) output =>
    match s.shared.frames with
    | [] => ({ s with taker := .outside }, [.returned now output])
    | f :: _ =>
      if now - f.frame.receivedAt ≥ rtcmTransportTtlMs / 1000 then
        ({ s with shared := s.shared.rest, taker := .stale now limit output }, [.dequeued f, .discarded f])
      else ({ s with shared := s.shared.rest, taker := .get now limit (output ++ [f]) }, [.dequeued f])
  | .stale now limit output =>
    ({ s with shared := s.shared.countDropped, taker := .get now limit output }, [])

def act (input : Input) (s : State) : State × List Event :=
  match input with
  | .close => ({ s with shared := { s.shared with stopEvent := true } }, [])
  | .run answer => runStep answer s
  | .call limit now =>
    match s.taker with
    | .outside => ({ s with taker := .get now limit [] }, [])
    | _ => (s, [])
  | .take => takeStep s

def step (input : Input) (s : State) : State := (act input s).1

def eventsOf (m : Move State Input) : List Event := (act m.input m.before).2

def init (queueSize : Nat) : State := { shared := { queueSize := queueSize } }

/-- What is to be seen of a run. -/
def history (queueSize : Nat) (inputs : List Input) : List Event :=
  outputs eventsOf (trace step (init queueSize) inputs)

/-! ## Histories -/

namespace Event

@[simp] def parsedFrames : Event → List Queued
  | parsed frames => frames
  | _ => []

@[simp] def passedFrames : Event → List Queued
  | passed f => [f]
  | _ => []

@[simp] def returnedFrames : Event → List Queued
  | returned _ output => output
  | _ => []

@[simp] def discardedFrames : Event → List Queued
  | discarded f => [f]
  | _ => []

@[simp] def bytesOf (connection : Nat) : Event → Bytes
  | chunk c bytes => if c = connection then bytes else []
  | _ => []

end Event

def parsedIn (H : List Event) : List Queued := H.flatMap Event.parsedFrames

def passedIn (H : List Event) : List Queued := H.flatMap Event.passedFrames

def returnedIn (H : List Event) : List Queued := H.flatMap Event.returnedFrames

def discardedIn (H : List Event) : List Queued := H.flatMap Event.discardedFrames

/-- All bytes that came over a connection. -/
def streamIn (connection : Nat) (H : List Event) : Bytes := H.flatMap (Event.bytesOf connection)

section Histories

variable (connection : Nat) (e : Event) (H H' : List Event)

@[simp] theorem parsedIn_nil : parsedIn [] = [] := rfl
@[simp] theorem passedIn_nil : passedIn [] = [] := rfl
@[simp] theorem returnedIn_nil : returnedIn [] = [] := rfl
@[simp] theorem discardedIn_nil : discardedIn [] = [] := rfl
@[simp] theorem streamIn_nil : streamIn connection [] = [] := rfl

@[simp] theorem parsedIn_cons : parsedIn (e :: H) = e.parsedFrames ++ parsedIn H := rfl
@[simp] theorem passedIn_cons : passedIn (e :: H) = e.passedFrames ++ passedIn H := rfl
@[simp] theorem returnedIn_cons : returnedIn (e :: H) = e.returnedFrames ++ returnedIn H := rfl
@[simp] theorem discardedIn_cons : discardedIn (e :: H) = e.discardedFrames ++ discardedIn H := rfl
@[simp] theorem streamIn_cons : streamIn connection (e :: H) = e.bytesOf connection ++ streamIn connection H := rfl

@[simp] theorem parsedIn_append : parsedIn (H ++ H') = parsedIn H ++ parsedIn H' := List.flatMap_append

@[simp] theorem passedIn_append : passedIn (H ++ H') = passedIn H ++ passedIn H' := List.flatMap_append

@[simp] theorem returnedIn_append : returnedIn (H ++ H') = returnedIn H ++ returnedIn H' := List.flatMap_append

@[simp] theorem discardedIn_append : discardedIn (H ++ H') = discardedIn H ++ discardedIn H' := List.flatMap_append

@[simp] theorem streamIn_append :
    streamIn connection (H ++ H') = streamIn connection H ++ streamIn connection H' := List.flatMap_append

variable (behind : Behind)

@[simp] theorem parsedIn_events : parsedIn (behind.events connection) = [] := by cases behind <;> rfl
@[simp] theorem passedIn_events : passedIn (behind.events connection) = [] := by cases behind <;> rfl
@[simp] theorem returnedIn_events : returnedIn (behind.events connection) = [] := by cases behind <;> rfl
@[simp] theorem discardedIn_events : discardedIn (behind.events connection) = [] := by cases behind <;> rfl

@[simp] theorem streamIn_events (c : Nat) : streamIn connection (behind.events c) = [] := by cases behind <;> rfl

end Histories

/-- What the start has and every step keeps holds of the history and the state of every run. -/
theorem history_rel {P : List Event → State → Prop} {queueSize : Nat} (h0 : P [] (init queueSize))
    (hact : ∀ H input s, P H s → P (H ++ (act input s).2) (act input s).1) (inputs : List Input) :
    P (history queueSize inputs) (run step (init queueSize) inputs) := by
  have hrun := run_rel (f := eventsOf) (G := fun _ => True) (H := []) h0 (fun H i s hP _ => hact H i s hP) inputs
    (fun _ _ => trivial)
  rwa [List.nil_append] at hrun

end LoraLink.Ros
