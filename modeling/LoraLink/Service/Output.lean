import LoraLink.App.Codec
import LoraLink.Host.Metrics
import LoraLink.Lib.Dict
import LoraLink.Lib.Run
import Mathlib.Data.List.Infix
import Mathlib.Data.List.Perm.Subperm
import Mathlib.Data.Rat.Defs

/-!
# The TCP output of the robot

`TcpRtcmOutput` of `service.py`. A client is the number of its connection, counted from the first that the listener has
handed out. What the sockets answer during one call is a function from clients to answers. `log` lists what the current
call did.

- `flushQueue`, `publishQueue`: what one call does to the queue of one client, whatever the others do;
- `flush_view`, `publish_view`: the loops of the source do this to every client;
- `run_intact`: what holds after every run of calls, `run_twins` between two runs of which one client sees the same;
- `output_integrity`: what every client receives.
-/

namespace LoraLink.Service

open LoraLink.Application LoraLink.Host
open scoped List

/-- `_QueuedRtcmOutput`. -/
structure QueuedRtcmOutput where
  raw : Bytes
  enqueuedAt : ℚ
  offset : Nat := 0
deriving DecidableEq

namespace QueuedRtcmOutput

def remaining (f : QueuedRtcmOutput) : Nat := f.raw.length - f.offset

/-- The bytes that the socket has not taken. -/
def rest (f : QueuedRtcmOutput) : Bytes := f.raw.drop f.offset

end QueuedRtcmOutput

namespace TcpRtcmOutput

/-- What `client.send` answers: it takes at most so many bytes, would block, or raises. -/
inductive Answer
  | accepts (n : Nat)
  | blocks
  | fails
deriving DecidableEq

inductive Reason
  | stale
  | slow
  | socketError
  | closed
deriving DecidableEq

inductive Event
  | joined (client : Nat)
  | rejected (client : Nat)
  | published (raw : Bytes) (now : ℚ)
  | offered (client : Nat) (frame : QueuedRtcmOutput) (now : ℚ)
  | took (client : Nat) (bytes : Bytes)
  | dropped (client : Nat) (reason : Reason)
deriving DecidableEq

inductive Metric
  | rtcmTcpClientsRejectedLimit
  | rtcmTcpClientsConnected
  | rtcmTcpClientDropped (reason : Reason)
  | rtcmTcpClientBytesAbandoned
  | rtcmTcpBytesSent
  | rtcmTcpClientQueueBytes
  | rtcmTcpBytesQueued
deriving DecidableEq

def maxClients : Nat := 16
def maxClientQueueBytes : Nat := 64 * maxRtcmFrameSize
def maxClientQueueFrames : Nat := 64
def clientQueueTtlS : ℚ := rtcmTransportTtlMs / 1000

end TcpRtcmOutput

open TcpRtcmOutput in
structure TcpRtcmOutput where
  clients : List (Nat × List QueuedRtcmOutput) := []
  /-- The number of connections that the listener has handed out. -/
  arrivals : Nat := 0
  metrics : Metrics TcpRtcmOutput.Metric := .empty
  log : List TcpRtcmOutput.Event := []

namespace TcpRtcmOutput

def note (e : Event) (s : TcpRtcmOutput) : TcpRtcmOutput := { s with log := s.log ++ [e] }

def add (name : Metric) (amount : Nat := 1) (s : TcpRtcmOutput) : TcpRtcmOutput :=
  { s with metrics := s.metrics.add name amount }

/-- One pass of the loop of `_accept`. -/
def acceptOne (s : TcpRtcmOutput) : TcpRtcmOutput :=
  let client := s.arrivals
  let s := { s with arrivals := s.arrivals + 1 }
  if s.clients.length ≥ maxClients then (s.note (.rejected client)).add .rtcmTcpClientsRejectedLimit
  else ({ s with clients := setKey s.clients client [] }.note (.joined client)).add .rtcmTcpClientsConnected

/-- `_accept`, with the number of connections that wait. -/
def accept : Nat → TcpRtcmOutput → TcpRtcmOutput
  | 0, s => s
  | n + 1, s => accept n s.acceptOne

def queuedBytes (frames : List QueuedRtcmOutput) : Nat := (frames.map QueuedRtcmOutput.remaining).sum

/-- `_drop`. -/
def drop (client : Nat) (reason : Reason) (s : TcpRtcmOutput) : TcpRtcmOutput :=
  let frames := (s.clients.lookup client).getD []
  let pending := queuedBytes frames
  let s := { s with clients := popKey s.clients client }.note (.dropped client reason)
  (s.add (.rtcmTcpClientDropped reason)).add .rtcmTcpClientBytesAbandoned pending

/-- The loop of `flush` over the clients. -/
def flushClient (now : ℚ) (answer : Nat → Answer) (s : TcpRtcmOutput) (item : Nat × List QueuedRtcmOutput) :
    TcpRtcmOutput :=
  let (client, frames) := item
  match frames with
  | [] => s
  | pending :: frames =>
    if now - pending.enqueuedAt ≥ clientQueueTtlS then s.drop client .stale
    else
      let s := s.note (.offered client pending now)
      match answer client with
      | .blocks => s
      | .fails => s.drop client .socketError
      | .accepts n =>
        let sent := min n pending.rest.length
        if sent = 0 then s.drop client .closed
        else
          let bytes := pending.rest.take sent
          let pending := { pending with offset := pending.offset + sent }
          let frames := if pending.offset = pending.raw.length then frames else pending :: frames
          ({ s with clients := setKey s.clients client frames }.note (.took client bytes)).add .rtcmTcpBytesSent sent

def flush (now : ℚ) (arrivals : Nat) (answer : Nat → Answer) (s : TcpRtcmOutput) : TcpRtcmOutput :=
  let s := s.accept arrivals
  let s := s.clients.foldl (flushClient now answer) s
  { s with metrics := s.metrics.set .rtcmTcpClientQueueBytes (s.clients.map fun p => queuedBytes p.2).sum }

/-- The loop of `publish` over the clients, with the number of those served. -/
def publishClient (raw : Bytes) (now : ℚ) (r : Nat × TcpRtcmOutput) (item : Nat × List QueuedRtcmOutput) :
    Nat × TcpRtcmOutput :=
  let (delivered, s) := r
  let (client, frames) := item
  if frames.head?.any fun f => now - f.enqueuedAt ≥ clientQueueTtlS then (delivered, s.drop client .stale)
  else if frames.length ≥ maxClientQueueFrames ∨ queuedBytes frames + raw.length > maxClientQueueBytes then
    (delivered, s.drop client .slow)
  else
    let frame : QueuedRtcmOutput := { raw := raw, enqueuedAt := now }
    let s := { s with clients := setKey s.clients client (frames ++ [frame]) }
    (delivered + 1, s.add .rtcmTcpBytesQueued raw.length)

/-- `publish`: the two numbers are those of the connections that wait when it and when `flush` look for them. -/
def publish (raw : Bytes) (now : ℚ) (arrivals more : Nat) (answer : Nat → Answer) (s : TcpRtcmOutput) :
    Nat × TcpRtcmOutput :=
  let s := (s.accept arrivals).note (.published raw now)
  let (delivered, s) := s.clients.foldl (publishClient raw now) (0, s)
  (delivered, s.flush now more answer)

/-! ## Calls -/

inductive Input
  | publish (raw : Bytes) (now : ℚ) (arrivals more : Nat) (answer : Nat → Answer)
  | flush (now : ℚ) (arrivals : Nat) (answer : Nat → Answer)

/-- One call of a method. -/
def next : Input → TcpRtcmOutput → TcpRtcmOutput
  | .publish raw now arrivals more answer, s =>
    let s : TcpRtcmOutput := { s with log := [] }
    (s.publish raw now arrivals more answer).2
  | .flush now arrivals answer, s =>
    let s : TcpRtcmOutput := { s with log := [] }
    s.flush now arrivals answer

/-- The events of a move. -/
def eventsOf (x : Move TcpRtcmOutput Input) : List Event := x.after.log

/-- The events of a trace. -/
abbrev history (T : List (Move TcpRtcmOutput Input)) : List Event := outputs eventsOf T

/-! ## One client -/

/-- The bytes that the socket of a client has taken. -/
def taken (client : Nat) (H : List Event) : Bytes := H.flatMap fun
  | .took c bytes => if c = client then bytes else []
  | _ => []

/-- How an event changes what has been published since the client joined. -/
def sinceOn (client : Nat) (fs : Option (List (Bytes × ℚ))) : Event → Option (List (Bytes × ℚ))
  | .joined c => if c = client then some [] else fs
  | .published raw now => fs.map fun fs => fs ++ [(raw, now)]
  | _ => fs

/-- The frames published since the client joined, with their times; none if it has not. -/
def since (client : Nat) (H : List Event) : Option (List (Bytes × ℚ)) := H.foldl (sinceOn client) none

/-- What `flush` does to the queue of a client: what it leaves of it, unless the client is dropped, and the bytes that
the socket takes. -/
def flushQueue (now : ℚ) (a : Answer) : List QueuedRtcmOutput → Option (List QueuedRtcmOutput) × Bytes
  | [] => (some [], [])
  | pending :: frames =>
    if now - pending.enqueuedAt ≥ clientQueueTtlS then (none, [])
    else
      match a with
      | .blocks => (some (pending :: frames), [])
      | .fails => (none, [])
      | .accepts n =>
        let sent := min n pending.rest.length
        if sent = 0 then (none, [])
        else
          let next := { pending with offset := pending.offset + sent }
          (some (if next.offset = pending.raw.length then frames else next :: frames), pending.rest.take sent)

/-- What `publish` does to the queue of a client. -/
def publishQueue (raw : Bytes) (now : ℚ) (frames : List QueuedRtcmOutput) : Option (List QueuedRtcmOutput) :=
  if frames.head?.any fun f => now - f.enqueuedAt ≥ clientQueueTtlS then none
  else if frames.length ≥ maxClientQueueFrames ∨ queuedBytes frames + raw.length > maxClientQueueBytes then none
  else some (frames ++ [{ raw := raw, enqueuedAt := now }])

/-- The queue of a client, if it is connected, and what it has been sent in this call. -/
def view (client : Nat) (s : TcpRtcmOutput) : Option (List QueuedRtcmOutput) × Bytes :=
  (s.clients.lookup client, taken client s.log)

variable {s : TcpRtcmOutput} {H : List Event} {client : Nat}

@[simp] theorem taken_append (client : Nat) (H H' : List Event) :
    taken client (H ++ H') = taken client H ++ taken client H' := List.flatMap_append

theorem since_append (client : Nat) (H H' : List Event) :
    since client (H ++ H') = H'.foldl (sinceOn client) (since client H) := List.foldl_append

theorem view_note {e : Event} (he : taken client [e] = []) : view client (s.note e) = view client s := by
  simp only [view, note, taken_append, he, List.append_nil]

@[simp] theorem view_add (client : Nat) (s : TcpRtcmOutput) (name : Metric) (amount : Nat) :
    view client (s.add name amount) = view client s := rfl

/-- A client that is dropped is not connected. -/
theorem view_drop (client d : Nat) (reason : Reason) (s : TcpRtcmOutput) :
    view client (s.drop d reason) = if client = d then (none, taken client s.log) else view client s := by
  have hlog : taken client (s.log ++ [.dropped d reason]) = taken client s.log := by
    rw [taken_append]
    exact List.append_nil _
  show (((popKey s.clients d).lookup client), taken client (s.log ++ [.dropped d reason])) = _
  rw [hlog]
  by_cases h : client = d
  · rw [if_pos h, h, lookup_popKey_self]
  · rw [if_neg h, lookup_popKey_ne _ h]
    rfl

/-! ## The loops -/

theorem flushClient_view (now : ℚ) (answer : Nat → Answer) (s : TcpRtcmOutput) (p : Nat × List QueuedRtcmOutput)
    (hfits : (view p.1 s).1 = some p.2) (client : Nat) : view client (flushClient now answer s p) =
      if client = p.1 then ((flushQueue now (answer p.1) p.2).1, (view client s).2 ++ (flushQueue now (answer p.1) p.2).2)
      else view client s := by
  obtain ⟨d, frames⟩ := p
  have hkeep : view client s = if client = d then (some frames, (view client s).2 ++ []) else view client s := by
    split
    · rename_i h
      rw [List.append_nil, ← hfits, h]
    · rfl
  cases frames with
  | nil => exact hkeep
  | cons pending frames =>
    have hoffer : view client (s.note (.offered d pending now)) = view client s := view_note rfl
    have hlost : ∀ reason, view client ((s.note (.offered d pending now)).drop d reason) =
        if client = d then (none, (view client s).2 ++ []) else view client s := by
      intro reason
      rw [view_drop, hoffer, List.append_nil]
      split
      · show (none, (view client (s.note (.offered d pending now))).2) = _
        rw [hoffer]
      · rfl
    simp only [flushClient, flushQueue]
    by_cases hold : now - pending.enqueuedAt ≥ clientQueueTtlS
    · simp only [if_pos hold]
      rw [view_drop, List.append_nil]
      rfl
    · simp only [if_neg hold]
      cases answer d with
      | blocks => exact hoffer.trans hkeep
      | fails => exact hlost _
      | accepts n =>
        simp only
        by_cases hnone : min n pending.rest.length = 0
        · simp only [if_pos hnone]
          exact hlost _
        · simp only [if_neg hnone, view_add]
          generalize (if pending.offset + min n pending.rest.length = pending.raw.length then frames
            else { pending with offset := pending.offset + min n pending.rest.length } :: frames) = next
          show ((setKey s.clients d next).lookup client,
            taken client
              (s.log ++ [.offered d pending now] ++ [.took d (pending.rest.take (min n pending.rest.length))])) = _
          generalize pending.rest.take (min n pending.rest.length) = bytes
          have hlog : taken client (s.log ++ [.offered d pending now]) = (view client s).2 := by
            rw [taken_append]
            exact List.append_nil _
          rw [taken_append, hlog]
          by_cases h : client = d
          · rw [if_pos h, h, lookup_setKey_self]
            simp [taken]
          · rw [if_neg h, lookup_setKey_ne _ h]
            simp [taken, Ne.symm h, view]

theorem publishClient_view (raw : Bytes) (now : ℚ) (r : Nat × TcpRtcmOutput) (p : Nat × List QueuedRtcmOutput)
    (client : Nat) : view client (publishClient raw now r p).2 =
      if client = p.1 then (publishQueue raw now p.2, (view client r.2).2) else view client r.2 := by
  obtain ⟨delivered, s⟩ := r
  obtain ⟨d, frames⟩ := p
  have hlost : ∀ reason, view client (s.drop d reason) =
      if client = d then (none, (view client s).2) else view client s := fun reason => view_drop client d reason s
  simp only [publishClient, publishQueue]
  split
  · exact hlost _
  · split
    · exact hlost _
    · rw [view_add]
      generalize frames ++ [({ raw := raw, enqueuedAt := now } : QueuedRtcmOutput)] = next
      show ((setKey s.clients d next).lookup client, taken client s.log) = _
      by_cases h : client = d
      · rw [if_pos h, h, lookup_setKey_self]
        rfl
      · rw [if_neg h, lookup_setKey_ne _ h]
        rfl

/-- An event of the loop of `flush` over the clients `l`. -/
def Event.Flushes (now : ℚ) (l : List (Nat × List QueuedRtcmOutput)) : Event → Prop
  | .offered c f t => t = now ∧ now - f.enqueuedAt < clientQueueTtlS ∧ ∃ frames, (c, f :: frames) ∈ l
  | .took _ _ | .dropped _ _ => True
  | _ => False

/-- What a loop over the clients leaves alone. -/
structure Looped (P : Event → Prop) (s s' : TcpRtcmOutput) : Prop where
  keys : (s.clients.map Prod.fst).Nodup → (s'.clients.map Prod.fst).Nodup
  arrivals : s'.arrivals = s.arrivals
  log : ∃ E, s'.log = s.log ++ E ∧ ∀ e ∈ E, P e

theorem Looped.refl (P : Event → Prop) (s : TcpRtcmOutput) : Looped P s s :=
  ⟨id, rfl, [], (List.append_nil _).symm, by simp⟩

theorem Looped.trans {P : Event → Prop} {s s' s'' : TcpRtcmOutput} (h : Looped P s s') (h' : Looped P s' s'') :
    Looped P s s'' := by
  obtain ⟨E, hE, hP⟩ := h.log
  obtain ⟨E', hE', hP'⟩ := h'.log
  refine ⟨fun hk => h'.keys (h.keys hk), h'.arrivals.trans h.arrivals, E ++ E', by rw [hE', hE, List.append_assoc], ?_⟩
  intro e he
  rcases List.mem_append.mp he with he | he
  · exact hP e he
  · exact hP' e he

theorem looped_drop {P : Event → Prop} {d : Nat} {reason : Reason} (hP : P (.dropped d reason)) (s : TcpRtcmOutput) :
    Looped P s (s.drop d reason) :=
  ⟨fun hk => nodup_popKey hk d, rfl, [.dropped d reason], rfl, by simpa using hP⟩

theorem looped_note {P : Event → Prop} {e : Event} (hP : P e) (s : TcpRtcmOutput) : Looped P s (s.note e) :=
  ⟨id, rfl, [e], rfl, by simpa using hP⟩

theorem flushClient_looped (now : ℚ) (answer : Nat → Answer) (s : TcpRtcmOutput) {p : Nat × List QueuedRtcmOutput}
    {l : List (Nat × List QueuedRtcmOutput)} (hp : p ∈ l) :
    Looped (Event.Flushes now l) s (flushClient now answer s p) := by
  obtain ⟨d, frames⟩ := p
  cases frames with
  | nil => exact Looped.refl _ _
  | cons pending frames =>
    simp only [flushClient]
    by_cases hold : now - pending.enqueuedAt ≥ clientQueueTtlS
    · rw [if_pos hold]
      exact looped_drop trivial s
    · rw [if_neg hold]
      have hoffer : Looped (Event.Flushes now l) s (s.note (.offered d pending now)) :=
        looped_note ⟨rfl, not_le.mp hold, frames, hp⟩ s
      cases answer d with
      | blocks => exact hoffer
      | fails => exact hoffer.trans (looped_drop trivial _)
      | accepts n =>
        simp only
        split
        · exact hoffer.trans (looped_drop trivial _)
        · refine hoffer.trans ⟨fun hk => nodup_setKey hk d _, rfl, [.took d _], rfl, ?_⟩
          intro e he
          rw [List.mem_singleton.mp he]
          trivial

/-- An event of the loop of `publish`. -/
def Event.IsDrop : Event → Prop
  | .dropped _ _ => True
  | _ => False

theorem publishClient_looped (raw : Bytes) (now : ℚ) (r : Nat × TcpRtcmOutput) (p : Nat × List QueuedRtcmOutput) :
    Looped Event.IsDrop r.2 (publishClient raw now r p).2 := by
  obtain ⟨delivered, s⟩ := r
  obtain ⟨d, frames⟩ := p
  simp only [publishClient]
  split
  · exact looped_drop trivial s
  · split
    · exact looped_drop trivial s
    · exact ⟨fun hk => nodup_setKey hk d _, rfl, [], (List.append_nil _).symm, by simp⟩

/-- A loop of passes each of which is looped. -/
theorem looped_foldl {A B : Type} {P : Event → Prop} (out : A → TcpRtcmOutput) {body : A → B → A} {l : List B}
    (h : ∀ a, ∀ b ∈ l, Looped P (out a) (out (body a b))) (a : A) : Looped P (out a) (out (l.foldl body a)) := by
  induction l generalizing a with
  | nil => exact Looped.refl _ _
  | cons b l ih =>
    exact (h a b List.mem_cons_self).trans (ih (fun a b hb => h a b (List.mem_cons_of_mem _ hb)) _)

/-- What a pass makes of a client that is connected. -/
def passed (f : List QueuedRtcmOutput → Option (List QueuedRtcmOutput) × Bytes)
    (w : Option (List QueuedRtcmOutput) × Bytes) : Option (List QueuedRtcmOutput) × Bytes :=
  match w.1 with
  | some frames => ((f frames).1, w.2 ++ (f frames).2)
  | none => w

/-- A pass by the events it logs. -/
theorem passed_client {f : List QueuedRtcmOutput → Option (List QueuedRtcmOutput) × Bytes} {s' : TcpRtcmOutput}
    {E : List Event} (hview : view client s' = passed f (view client s)) (hE : s'.log = s.log ++ E) :
    (s'.clients.lookup client, taken client E) = passed f (s.clients.lookup client, []) := by
  simp only [view, passed, hE, taken_append] at hview ⊢
  cases hlook : s.clients.lookup client with
  | none =>
    rw [hlook] at hview
    obtain ⟨hqueue, htaken⟩ := Prod.mk.inj hview
    exact Prod.ext hqueue (List.append_right_eq_self.mp htaken)
  | some frames =>
    rw [hlook] at hview
    obtain ⟨hqueue, htaken⟩ := Prod.mk.inj hview
    exact Prod.ext hqueue (List.append_cancel_left htaken)

/-- A loop over all clients. -/
theorem loop_view {A : Type} (out : A → TcpRtcmOutput) {body : A → Nat × List QueuedRtcmOutput → A}
    {f : Nat → List QueuedRtcmOutput → Option (List QueuedRtcmOutput) × Bytes}
    (hbody : ∀ a p, (view p.1 (out a)).1 = some p.2 → ∀ client, view client (out (body a p)) =
      if client = p.1 then ((f p.1 p.2).1, (view client (out a)).2 ++ (f p.1 p.2).2) else view client (out a))
    (a : A) (hkeys : ((out a).clients.map Prod.fst).Nodup) (client : Nat) :
    view client (out ((out a).clients.foldl body a)) = passed (f client) (view client (out a)) := by
  obtain ⟨hmem, hout⟩ := foldl_view (fun client a => view client (out a)) body (fun p w => w.1 = some p.2)
    (fun p w => ((f p.1 p.2).1, w.2 ++ (f p.1 p.2).2)) hbody (out a).clients a hkeys
    (fun p hp => lookup_of_mem hkeys hp)
  cases hlook : (out a).clients.lookup client with
  | none =>
    rw [hout client (lookup_eq_none.mp hlook), passed, view, hlook]
  | some frames =>
    have hpass := hmem (client, frames) (mem_of_lookup hlook)
    rw [hpass, passed, view, hlook]

theorem flush_view (now : ℚ) (answer : Nat → Answer) (s : TcpRtcmOutput) (hkeys : (s.clients.map Prod.fst).Nodup)
    (client : Nat) : view client (s.clients.foldl (flushClient now answer) s) =
      passed (flushQueue now (answer client)) (view client s) :=
  loop_view id (f := fun client => flushQueue now (answer client))
    (fun a p hfits => flushClient_view now answer a p hfits) s hkeys client

theorem publish_view (raw : Bytes) (now : ℚ) (s : TcpRtcmOutput) (hkeys : (s.clients.map Prod.fst).Nodup)
    (client : Nat) : view client (s.clients.foldl (publishClient raw now) (0, s)).2 =
      passed (fun frames => (publishQueue raw now frames, [])) (view client s) := by
  refine loop_view (A := Nat × TcpRtcmOutput) Prod.snd (f := fun _ frames => (publishQueue raw now frames, []))
    (fun r p _ client => ?_) (0, s) hkeys client
  rw [publishClient_view, List.append_nil]

/-! ## What a client has received -/

/-- The bytes that wait in a queue. -/
def unsent (frames : List QueuedRtcmOutput) : Bytes := frames.flatMap QueuedRtcmOutput.rest

/-- The frames of a queue, with their times. -/
def stamps (frames : List QueuedRtcmOutput) : List (Bytes × ℚ) := frames.map fun f => (f.raw, f.enqueuedAt)

/-- The bytes of published frames. -/
def bytesOf (fs : List (Bytes × ℚ)) : Bytes := fs.flatMap Prod.fst

theorem queuedBytes_eq (frames : List QueuedRtcmOutput) : queuedBytes frames = (unsent frames).length := by
  rw [queuedBytes, unsent, List.length_flatMap]
  congr 1
  apply List.map_congr_left
  intro f _
  exact (List.length_drop ..).symm

/-- A queue that the limits allow. -/
def Bounded (frames : List QueuedRtcmOutput) : Prop :=
  frames.length ≤ maxClientQueueFrames ∧ (unsent frames).length ≤ maxClientQueueBytes

theorem flushQueue_spec {now : ℚ} {a : Answer} {frames frames' : List QueuedRtcmOutput} {bytes : Bytes}
    (h : flushQueue now a frames = (some frames', bytes)) :
    bytes ++ unsent frames' = unsent frames ∧ stamps frames' <:+ stamps frames ∧ frames'.length ≤ frames.length := by
  cases frames with
  | nil =>
    cases h
    exact ⟨rfl, List.suffix_refl _, Nat.le_refl _⟩
  | cons pending frames =>
    simp only [flushQueue] at h
    split at h
    · cases h
    · cases a with
      | blocks =>
        cases h
        exact ⟨rfl, List.suffix_refl _, Nat.le_refl _⟩
      | fails => cases h
      | accepts n =>
        simp only at h
        split at h
        · cases h
        · generalize min n pending.rest.length = sent at h
          obtain ⟨h₁, rfl⟩ := Prod.mk.inj h
          obtain rfl := Option.some.inj h₁
          have hrest : pending.rest.drop sent = pending.raw.drop (pending.offset + sent) := by
            rw [QueuedRtcmOutput.rest, List.drop_drop]
          by_cases hend : pending.offset + sent = pending.raw.length
          · have hnil : pending.rest.take sent = pending.rest := by
              have hdrop : pending.rest.drop sent = [] := by rw [hrest, hend, List.drop_length]
              conv_rhs => rw [← List.take_append_drop sent pending.rest, hdrop, List.append_nil]
            rw [if_pos hend, hnil]
            exact ⟨rfl, List.suffix_cons _ _, Nat.le_succ _⟩
          · rw [if_neg hend]
            refine ⟨?_, List.suffix_refl _, Nat.le_refl _⟩
            show pending.rest.take sent ++ (pending.raw.drop (pending.offset + sent) ++ unsent frames) =
              pending.rest ++ unsent frames
            rw [← List.append_assoc, ← hrest, List.take_append_drop]

theorem flushQueue_none {now : ℚ} {a : Answer} {frames : List QueuedRtcmOutput} {bytes : Bytes}
    (h : flushQueue now a frames = (none, bytes)) : bytes = [] := by
  cases frames with
  | nil => cases h
  | cons pending frames =>
    simp only [flushQueue] at h
    split at h
    · cases h
      rfl
    · cases a with
      | blocks => cases h
      | fails =>
        cases h
        rfl
      | accepts n =>
        simp only at h
        split at h
        · cases h
          rfl
        · cases h

theorem publishQueue_spec {raw : Bytes} {now : ℚ} {frames frames' : List QueuedRtcmOutput}
    (h : publishQueue raw now frames = some frames') :
    unsent frames' = unsent frames ++ raw ∧ stamps frames' = stamps frames ++ [(raw, now)] ∧ Bounded frames' := by
  unfold publishQueue at h
  split at h
  · cases h
  · split at h
    · cases h
    · rename_i hroom
      obtain rfl := Option.some.inj h
      rw [queuedBytes_eq] at hroom
      have hunsent : unsent (frames ++ [({ raw := raw, enqueuedAt := now } : QueuedRtcmOutput)]) =
          unsent frames ++ raw := by
        simp [unsent, QueuedRtcmOutput.rest]
      refine ⟨hunsent, by simp [stamps], ?_, ?_⟩
      · rw [List.length_append, List.length_singleton]
        omega
      · rw [hunsent, List.length_append]
        omega

/-- Every frame that was offered to a socket had been published since its client joined, less than a second before. -/
def Fresh (H : List Event) : Prop :=
  ∀ X client f now Y, H = X ++ .offered client f now :: Y → now - f.enqueuedAt < clientQueueTtlS ∧
    ∃ fs, since client X = some fs ∧ (f.raw, f.enqueuedAt) ∈ fs

/-- What holds after the events `H`. -/
structure Intact (H : List Event) (s : TcpRtcmOutput) : Prop where
  keys : (s.clients.map Prod.fst).Nodup
  few : s.clients.length ≤ maxClients
  known : ∀ client, s.arrivals ≤ client → since client H = none
  live : ∀ client frames, s.clients.lookup client = some frames → ∃ fs, since client H = some fs ∧
    stamps frames <:+ fs ∧ taken client H ++ unsent frames = bytesOf fs ∧ Bounded frames
  sent : ∀ client, taken client H <+: bytesOf ((since client H).getD [])
  fresh : Fresh H

theorem Fresh.append (h : Fresh H) {E : List Event} (hE : ∀ E₁ client f now E₂, E = E₁ ++ .offered client f now :: E₂ →
    now - f.enqueuedAt < clientQueueTtlS ∧ ∃ fs, since client (H ++ E₁) = some fs ∧ (f.raw, f.enqueuedAt) ∈ fs) :
    Fresh (H ++ E) := by
  intro X client f now Y hsplit
  rcases List.append_eq_append_iff.mp hsplit with ⟨E₁, rfl, hE₁⟩ | ⟨Z, rfl, hZ⟩
  · exact hE E₁ client f now Y hE₁
  · rcases List.cons_eq_append_iff.mp hZ with ⟨rfl, hY⟩ | ⟨Z', rfl, -⟩
    · have hnow := hE [] client f now Y hY
      rw [List.append_nil, List.append_nil] at hnow
      exact hnow
    · exact h X client f now Z' rfl

/-- Events that offer nothing. -/
theorem Fresh.quiet (h : Fresh H) {E : List Event} (hE : ∀ client f now, .offered client f now ∉ E) : Fresh (H ++ E) :=
  h.append fun E₁ client f now E₂ heq => absurd (by rw [heq]; simp) (hE client f now)

/-- A client that has not come yet has nothing. -/
theorem Intact.unknown (h : Intact H s) {client : Nat} (hc : s.arrivals ≤ client) :
    s.clients.lookup client = none ∧ taken client H = [] := by
  have hnone := h.known client hc
  constructor
  · cases hlook : s.clients.lookup client with
    | none => rfl
    | some frames =>
      obtain ⟨fs, hfs, -⟩ := h.live client frames hlook
      exact absurd (hnone.symm.trans hfs) (by simp)
  · have hsent := h.sent client
    rw [hnone] at hsent
    exact List.prefix_nil.mp hsent

/-- A connection is taken or turned away. -/
theorem Intact.acceptOne (h : Intact H s) : ∃ E, s.acceptOne.log = s.log ++ E ∧ Intact (H ++ E) s.acceptOne := by
  unfold TcpRtcmOutput.acceptOne
  simp only
  split
  · refine ⟨[.rejected s.arrivals], rfl, h.keys, h.few, fun client hc => ?_, fun client frames hlook => ?_,
      fun client => ?_, h.fresh.quiet (by simp)⟩
    · rw [since_append]
      exact h.known client (Nat.le_of_succ_le hc)
    · rw [since_append, taken_append]
      simpa [taken, sinceOn] using h.live client frames hlook
    · rw [since_append, taken_append]
      simpa [taken, sinceOn] using h.sent client
  · rename_i hroom
    obtain ⟨hnone, htaken⟩ := h.unknown (Nat.le_refl s.arrivals)
    have hclients : setKey s.clients s.arrivals [] = s.clients ++ [(s.arrivals, [])] := setKey_new hnone []
    have htaken' : ∀ client, taken client (H ++ [.joined s.arrivals]) = taken client H := by
      intro client
      rw [taken_append]
      exact List.append_nil _
    have hsince : ∀ client, since client (H ++ [.joined s.arrivals]) =
        if s.arrivals = client then some [] else since client H :=
      fun client => since_append client H _
    refine ⟨[.joined s.arrivals], rfl, nodup_setKey h.keys _ _, ?_, fun client hc => ?_, fun client frames hlook => ?_,
      fun client => ?_, h.fresh.quiet (by simp)⟩
    · show (setKey s.clients s.arrivals []).length ≤ maxClients
      rw [hclients, List.length_append, List.length_singleton]
      omega
    · have hne : s.arrivals ≠ client := Nat.ne_of_lt hc
      rw [hsince, if_neg hne]
      exact h.known client (Nat.le_of_succ_le hc)
    · have hlook' : (setKey s.clients s.arrivals []).lookup client = some frames := hlook
      rw [hsince, htaken']
      by_cases hc : client = s.arrivals
      · rw [hc, lookup_setKey_self] at hlook'
        obtain rfl := Option.some.inj hlook'
        rw [if_pos hc.symm, hc, htaken]
        exact ⟨[], rfl, List.suffix_refl _, rfl, Nat.zero_le _, Nat.zero_le _⟩
      · rw [lookup_setKey_ne _ hc] at hlook'
        rw [if_neg (Ne.symm hc)]
        exact h.live client frames hlook'
    · rw [hsince, htaken']
      by_cases hc : s.arrivals = client
      · rw [if_pos hc, ← hc, htaken]
        exact List.prefix_refl _
      · rw [if_neg hc]
        exact h.sent client

/-- A step of the output that keeps what holds, with the events it logs. -/
def Steps (H : List Event) (s s' : TcpRtcmOutput) : Prop := ∃ E, s'.log = s.log ++ E ∧ Intact (H ++ E) s'

theorem Intact.accept (n : Nat) : ∀ {H : List Event} {s : TcpRtcmOutput}, Intact H s → Steps H s (s.accept n) := by
  induction n with
  | zero => exact fun {H s} h => ⟨[], (List.append_nil _).symm, by rwa [List.append_nil]⟩
  | succ n ih =>
    intro H s h
    obtain ⟨E, hE, hone⟩ := h.acceptOne
    obtain ⟨E', hE', hrest⟩ := ih hone
    refine ⟨E ++ E', ?_, by rwa [← List.append_assoc]⟩
    show (TcpRtcmOutput.accept n s.acceptOne).log = _
    rw [hE', hE, List.append_assoc]

/-- A loop leaves no more clients. -/
theorem length_clients {s' : TcpRtcmOutput} (hkeys : (s'.clients.map Prod.fst).Nodup)
    (hsub : ∀ client, s.clients.lookup client = none → s'.clients.lookup client = none) :
    s'.clients.length ≤ s.clients.length := by
  have hsubset : s'.clients.map Prod.fst ⊆ s.clients.map Prod.fst := by
    intro client hc
    by_contra hno
    exact lookup_eq_none.mp (hsub client (lookup_eq_none.mpr hno)) hc
  have hle := (List.subperm_of_subset hkeys hsubset).length_le
  rwa [List.length_map, List.length_map] at hle

/-- Events that bring neither clients nor frames. -/
theorem since_quiet {E : List Event} (hE : ∀ e ∈ E, ∀ fs, sinceOn client fs e = fs) (H : List Event) :
    since client (H ++ E) = since client H := by
  rw [since_append]
  generalize since client H = fs
  induction E with
  | nil => rfl
  | cons e E ih =>
    rw [List.foldl_cons, hE e List.mem_cons_self]
    exact ih fun e he => hE e (List.mem_cons_of_mem _ he)

theorem Event.Flushes.quiet {now : ℚ} {l : List (Nat × List QueuedRtcmOutput)} {e : Event} (h : e.Flushes now l)
    (fs : Option (List (Bytes × ℚ))) : sinceOn client fs e = fs := by
  cases e with
  | offered | took | dropped => rfl
  | joined | rejected | published => exact h.elim

/-- A loop of such events changes nothing about what has been published. -/
theorem Looped.since {P : Event → Prop} {s' : TcpRtcmOutput} (h : Looped P s s')
    (hP : ∀ e, P e → ∀ fs, sinceOn client fs e = fs) {E : List Event} (hE : s'.log = s.log ++ E) :
    since client (H ++ E) = since client H := by
  obtain ⟨E', hE', hevents⟩ := h.log
  obtain rfl : E' = E := List.append_cancel_left (hE'.symm.trans hE)
  exact since_quiet (fun e he => hP e (hevents e he)) H

theorem flushLoop_looped (now : ℚ) (answer : Nat → Answer) (s : TcpRtcmOutput) :
    Looped (Event.Flushes now s.clients) s (s.clients.foldl (flushClient now answer) s) :=
  looped_foldl id (fun a _ hp => flushClient_looped now answer a hp) s

theorem publishLoop_looped (raw : Bytes) (now : ℚ) (s : TcpRtcmOutput) :
    Looped Event.IsDrop s (s.clients.foldl (publishClient raw now) (0, s)).2 :=
  looped_foldl Prod.snd (fun r p _ => publishClient_looped raw now r p) (0, s)

theorem Intact.flushLoop (h : Intact H s) (now : ℚ) (answer : Nat → Answer) :
    Steps H s (s.clients.foldl (flushClient now answer) s) := by
  have hloop := flushLoop_looped now answer s
  obtain ⟨E, hE, hevents⟩ := hloop.log
  have hclient := fun client => passed_client (flush_view now answer s h.keys client) hE
  generalize s.clients.foldl (flushClient now answer) s = s' at hloop hE hclient ⊢
  have hsince : ∀ client, since client (H ++ E) = since client H := fun client =>
    hloop.since (fun _ he => he.quiet) hE
  have hkeys := hloop.keys h.keys
  refine ⟨E, hE, hkeys, (length_clients hkeys fun client hnone => ?_).trans h.few, fun client hc => ?_,
    fun client frames' hlook' => ?_, fun client => ?_, h.fresh.append fun E₁ client f t E₂ heq => ?_⟩
  · have hc := hclient client
    rw [hnone] at hc
    exact congrArg Prod.fst hc
  · rw [hsince]
    exact h.known client (hloop.arrivals ▸ hc)
  · have hc := hclient client
    cases hlook : s.clients.lookup client with
    | none =>
      rw [hlook] at hc
      exact absurd (hlook'.symm.trans (congrArg Prod.fst hc)) (by simp [passed])
    | some frames =>
      rw [hlook, hlook'] at hc
      obtain ⟨fs, hfs, hstamps, hbytes, hbounded⟩ := h.live client frames hlook
      have hres : flushQueue now (answer client) frames = (some frames', taken client E) := hc.symm
      obtain ⟨hunsent, hsuffix, hlength⟩ := flushQueue_spec hres
      refine ⟨fs, (hsince client).trans hfs, hsuffix.trans hstamps, ?_, hlength.trans hbounded.1, ?_⟩
      · rw [taken_append, List.append_assoc, hunsent, hbytes]
      · have hle := congrArg List.length hunsent
        rw [List.length_append] at hle
        have hmax := hbounded.2
        omega
  · have hc := hclient client
    rw [hsince, taken_append]
    cases hlook : s.clients.lookup client with
    | none =>
      rw [hlook] at hc
      have htaken : taken client E = [] := congrArg Prod.snd hc
      rw [htaken, List.append_nil]
      exact h.sent client
    | some frames =>
      rw [hlook] at hc
      have htaken : taken client E = (flushQueue now (answer client) frames).2 := congrArg Prod.snd hc
      rw [htaken]
      rcases hres : flushQueue now (answer client) frames with ⟨_ | frames', bytes⟩
      · rw [flushQueue_none hres, List.append_nil]
        exact h.sent client
      · obtain ⟨fs, hfs, -, hbytes, -⟩ := h.live client frames hlook
        obtain ⟨hunsent, -, -⟩ := flushQueue_spec hres
        rw [hfs, Option.getD_some, ← hbytes, ← hunsent, ← List.append_assoc]
        exact List.prefix_append _ _
  · obtain ⟨rfl, hage, frames, hmem⟩ := hevents (.offered client f t) (by rw [heq]; simp)
    obtain ⟨fs, hfs, hstamps, -, -⟩ := h.live client (f :: frames) (lookup_of_mem h.keys hmem)
    have hquiet : since client (H ++ E₁) = since client H := since_quiet (fun e he =>
      (hevents e (by rw [heq]; exact List.mem_append_left _ he)).quiet) H
    exact ⟨hage, fs, hquiet.trans hfs, hstamps.subset List.mem_cons_self⟩

theorem Steps.trans {s s' s'' : TcpRtcmOutput} (h : Steps H s s')
    (h' : ∀ H, Intact H s' → Steps H s' s'') : Steps H s s'' := by
  obtain ⟨E, hE, hIntact⟩ := h
  obtain ⟨E', hE', hIntact'⟩ := h' _ hIntact
  exact ⟨E ++ E', by rw [hE', hE, List.append_assoc], by rwa [← List.append_assoc]⟩

theorem Intact.flush (h : Intact H s) (now : ℚ) (arrivals : Nat) (answer : Nat → Answer) :
    Steps H s (s.flush now arrivals answer) := by
  refine (h.accept arrivals).trans fun H h => ?_
  obtain ⟨E, hE, hloop⟩ := h.flushLoop now answer
  exact ⟨E, hE, hloop.keys, hloop.few, hloop.known, hloop.live, hloop.sent, hloop.fresh⟩

theorem Event.IsDrop.quiet {e : Event} (h : e.IsDrop) (fs : Option (List (Bytes × ℚ))) : sinceOn client fs e = fs := by
  cases e with
  | dropped => rfl
  | offered | took | joined | rejected | published => exact h.elim

/-- The loop of `publish`, by the events it logs. -/
theorem publishLoop_spec (hkeys : (s.clients.map Prod.fst).Nodup) (raw : Bytes) (now : ℚ) {s' : TcpRtcmOutput}
    (hs' : s' = ((s.note (.published raw now)).clients.foldl (publishClient raw now)
    (0, s.note (.published raw now))).2) :
    ∃ E, s'.log = s.log ++ .published raw now :: E ∧ (∀ e ∈ E, e.IsDrop) ∧ s'.arrivals = s.arrivals ∧
      (s'.clients.map Prod.fst).Nodup ∧
      (∀ client, (s'.clients.lookup client, taken client (.published raw now :: E)) =
        passed (fun frames => (publishQueue raw now frames, [])) (s.clients.lookup client, [])) ∧
      ∀ H client, since client (H ++ .published raw now :: E) = (since client H).map fun fs => fs ++ [(raw, now)] := by
  have hloop := publishLoop_looped raw now (s.note (.published raw now))
  have hview := publish_view raw now (s.note (.published raw now)) hkeys
  rw [← hs'] at hloop hview
  obtain ⟨E, hE, hevents⟩ := hloop.log
  refine ⟨E, hE.trans (List.append_assoc _ _ _), hevents, hloop.arrivals, hloop.keys hkeys,
    fun client => ?_, fun H client => ?_⟩
  · have hpass := passed_client (hview client) hE
    exact hpass
  · rw [← List.singleton_append, ← List.append_assoc, since_quiet (fun e he => (hevents e he).quiet), since_append]
    rfl

/-- A frame is published: it is appended to every queue that has room, and the other clients are dropped. -/
theorem Intact.publishLoop (h : Intact H s) (raw : Bytes) (now : ℚ) :
    Steps H s ((s.note (.published raw now)).clients.foldl (publishClient raw now)
      (0, s.note (.published raw now))).2 := by
  obtain ⟨E, hE, hevents, harrivals, hkeys, hpass, hsince⟩ := publishLoop_spec h.keys raw now rfl
  generalize ((s.note (.published raw now)).clients.foldl (publishClient raw now) (0, s.note (.published raw now))).2 = s'
    at hE harrivals hkeys hpass ⊢
  have hqueue : ∀ client, s'.clients.lookup client = (s.clients.lookup client).bind (publishQueue raw now) := by
    intro client
    refine (congrArg Prod.fst (hpass client)).trans ?_
    cases s.clients.lookup client <;> rfl
  have htaken : ∀ client, taken client (H ++ .published raw now :: E) = taken client H := by
    intro client
    have hnil : taken client (.published raw now :: E) = [] := by
      refine (congrArg Prod.snd (hpass client)).trans ?_
      cases s.clients.lookup client <;> rfl
    rw [taken_append, hnil, List.append_nil]
  refine ⟨.published raw now :: E, hE, hkeys, (length_clients hkeys fun client hnone => ?_).trans h.few,
    fun client hc => ?_, fun client frames' hlook' => ?_, fun client => ?_, h.fresh.quiet fun client f t hmem => ?_⟩
  · rw [hqueue, hnone]
    rfl
  · rw [hsince, h.known client (harrivals ▸ hc)]
    rfl
  · rw [hqueue] at hlook'
    obtain ⟨frames, hlook, hpublish⟩ := Option.bind_eq_some_iff.mp hlook'
    obtain ⟨fs, hfs, hstamps, hbytes, -⟩ := h.live client frames hlook
    obtain ⟨hunsent, hstamps', hbounded⟩ := publishQueue_spec hpublish
    refine ⟨fs ++ [(raw, now)], ?_, ?_, ?_, hbounded⟩
    · rw [hsince, hfs]
      rfl
    · rw [hstamps']
      obtain ⟨old, hold⟩ := hstamps
      exact ⟨old, by rw [← hold, List.append_assoc]⟩
    · rw [htaken, hunsent, ← List.append_assoc, hbytes]
      simp [bytesOf]
  · rw [htaken, hsince]
    have hsent := h.sent client
    cases hfs : since client H with
    | none =>
      rw [hfs] at hsent
      exact hsent
    | some fs =>
      rw [hfs] at hsent
      refine hsent.trans ?_
      show bytesOf fs <+: bytesOf (fs ++ [(raw, now)])
      rw [bytesOf, bytesOf, List.flatMap_append]
      exact List.prefix_append _ _
  · rcases List.mem_cons.mp hmem with heq | hmem
    · cases heq
    · exact (hevents _ hmem).elim

theorem Intact.publish (h : Intact H s) (raw : Bytes) (now : ℚ) (arrivals more : Nat) (answer : Nat → Answer) :
    Steps H s (s.publish raw now arrivals more answer).2 :=
  ((h.accept arrivals).trans fun _ h => h.publishLoop raw now).trans fun _ h => h.flush now more answer

/-- Every call keeps what holds. -/
theorem Intact.next (h : Intact H s) (i : Input) : Intact (H ++ (next i s).log) (next i s) := by
  have hbegin : Intact H { s with log := [] } := ⟨h.keys, h.few, h.known, h.live, h.sent, h.fresh⟩
  have hsteps : Steps H { s with log := [] } (TcpRtcmOutput.next i s) := by
    cases i with
    | publish raw now arrivals more answer => exact hbegin.publish raw now arrivals more answer
    | flush now arrivals answer => exact hbegin.flush now arrivals answer
  obtain ⟨E, hE, hnext⟩ := hsteps
  rw [hE]
  exact hnext

theorem intact_init : Intact [] {} := by
  refine ⟨List.nodup_nil, Nat.zero_le _, fun _ _ => rfl, fun client frames h => ?_, fun _ => List.prefix_refl _,
    fun X client f now Y h => ?_⟩
  · cases h
  · exact absurd h (by simp)

theorem run_intact (is : List Input) :
    Intact (history (trace TcpRtcmOutput.next {} is)) (run TcpRtcmOutput.next {} is) := by
  have h := @run_rel _ _ TcpRtcmOutput.next _ eventsOf Intact (fun _ => True) [] {} intact_init
    (fun H i s h _ => h.next i) is fun _ _ => trivial
  rwa [List.nil_append] at h

/-! ## Two runs -/

/-- The same call, in which one client answers the same. -/
inductive Input.Alike (client : Nat) : Input → Input → Prop
  | publish (raw : Bytes) (now : ℚ) (arrivals more : Nat) {answer answer' : Nat → Answer}
      (same : answer client = answer' client) :
      Alike client (.publish raw now arrivals more answer) (.publish raw now arrivals more answer')
  | flush (now : ℚ) (arrivals : Nat) {answer answer' : Nat → Answer} (same : answer client = answer' client) :
      Alike client (.flush now arrivals answer) (.flush now arrivals answer')

/-- What holds between two runs of which a client sees the same. -/
structure Twins (client : Nat) (H₁ H₂ : List Event) (s₁ s₂ : TcpRtcmOutput) : Prop where
  left : Intact H₁ s₁
  right : Intact H₂ s₂
  arrivals : s₁.arrivals = s₂.arrivals
  same : (since client H₁).isSome → (since client H₂).isSome →
    s₁.clients.lookup client = s₂.clients.lookup client ∧ taken client H₁ = taken client H₂

/-- Two steps that keep what holds between two runs, with the events they log. -/
def TwinSteps (client : Nat) (H₁ H₂ : List Event) (s₁ s₂ s₁' s₂' : TcpRtcmOutput) : Prop :=
  ∃ E₁ E₂, s₁'.log = s₁.log ++ E₁ ∧ s₂'.log = s₂.log ++ E₂ ∧ Twins client (H₁ ++ E₁) (H₂ ++ E₂) s₁' s₂'

variable {H₁ H₂ : List Event} {s₁ s₂ : TcpRtcmOutput}

theorem TwinSteps.trans {s₁' s₂' s₁'' s₂'' : TcpRtcmOutput} (h : TwinSteps client H₁ H₂ s₁ s₂ s₁' s₂')
    (h' : ∀ H₁ H₂, Twins client H₁ H₂ s₁' s₂' → TwinSteps client H₁ H₂ s₁' s₂' s₁'' s₂'') :
    TwinSteps client H₁ H₂ s₁ s₂ s₁'' s₂'' := by
  obtain ⟨E₁, E₂, hE₁, hE₂, htwins⟩ := h
  obtain ⟨F₁, F₂, hF₁, hF₂, htwins'⟩ := h' _ _ htwins
  refine ⟨E₁ ++ F₁, E₂ ++ F₂, by rw [hF₁, hE₁, List.append_assoc], by rw [hF₂, hE₂, List.append_assoc], ?_⟩
  rwa [← List.append_assoc, ← List.append_assoc]

/-- What a connection that is taken or turned away means to one client. -/
theorem Intact.acceptOne_client (h : Intact H s) {E : List Event} (hE : s.acceptOne.log = s.log ++ E) (client : Nat) :
    s.acceptOne.arrivals = s.arrivals + 1 ∧ taken client E = [] ∧
      if s.arrivals = client then (since client (H ++ E)).isSome → s.acceptOne.clients.lookup client = some []
      else since client (H ++ E) = since client H ∧ s.acceptOne.clients.lookup client = s.clients.lookup client := by
  unfold TcpRtcmOutput.acceptOne at hE ⊢
  simp only at hE ⊢
  split at hE
  · rename_i hfull
    obtain rfl : [.rejected s.arrivals] = E := List.append_cancel_left hE
    rw [if_pos hfull]
    refine ⟨rfl, rfl, ?_⟩
    split
    · rename_i hc
      intro hsome
      rw [since_append, h.known client (Nat.le_of_eq hc)] at hsome
      cases hsome
    · exact ⟨since_append client H _, rfl⟩
  · rename_i hroom
    obtain rfl : [.joined s.arrivals] = E := List.append_cancel_left hE
    rw [if_neg hroom]
    refine ⟨rfl, rfl, ?_⟩
    split
    · rename_i hc
      intro _
      show (setKey s.clients s.arrivals []).lookup client = some []
      rw [hc, lookup_setKey_self]
    · rename_i hc
      refine ⟨(since_append client H _).trans (if_neg hc), ?_⟩
      exact lookup_setKey_ne _ (Ne.symm hc) []

theorem Twins.acceptOne (h : Twins client H₁ H₂ s₁ s₂) :
    TwinSteps client H₁ H₂ s₁ s₂ s₁.acceptOne s₂.acceptOne := by
  obtain ⟨E₁, hE₁, hleft⟩ := h.left.acceptOne
  obtain ⟨E₂, hE₂, hright⟩ := h.right.acceptOne
  obtain ⟨harr₁, htaken₁, hclient₁⟩ := h.left.acceptOne_client hE₁ client
  obtain ⟨harr₂, htaken₂, hclient₂⟩ := h.right.acceptOne_client hE₂ client
  refine ⟨E₁, E₂, hE₁, hE₂, hleft, hright, by rw [harr₁, harr₂, h.arrivals], fun hsome₁ hsome₂ => ?_⟩
  rw [taken_append, taken_append, htaken₁, htaken₂, List.append_nil, List.append_nil]
  rw [← h.arrivals] at hclient₂
  by_cases hc : s₁.arrivals = client
  · rw [if_pos hc] at hclient₁ hclient₂
    constructor
    · rw [hclient₁ hsome₁, hclient₂ hsome₂]
    · rw [(h.left.unknown (Nat.le_of_eq hc)).2, (h.right.unknown (Nat.le_of_eq (h.arrivals.symm.trans hc))).2]
  · rw [if_neg hc] at hclient₁ hclient₂
    obtain ⟨hsince₁, hlook₁⟩ := hclient₁
    obtain ⟨hsince₂, hlook₂⟩ := hclient₂
    rw [hlook₁, hlook₂]
    exact h.same (hsince₁ ▸ hsome₁) (hsince₂ ▸ hsome₂)

theorem Twins.accept (n : Nat) : ∀ {H₁ H₂ : List Event} {s₁ s₂ : TcpRtcmOutput}, Twins client H₁ H₂ s₁ s₂ →
    TwinSteps client H₁ H₂ s₁ s₂ (s₁.accept n) (s₂.accept n) := by
  induction n with
  | zero =>
    intro H₁ H₂ s₁ s₂ h
    refine ⟨[], [], (List.append_nil _).symm, (List.append_nil _).symm, ?_⟩
    rwa [List.append_nil, List.append_nil]
  | succ n ih => exact fun {H₁ H₂ s₁ s₂} h => h.acceptOne.trans fun _ _ h => ih h

/-- Two loops that do the same to the client. -/
theorem Twins.loop (h : Twins client H₁ H₂ s₁ s₂) {s₁' s₂' : TcpRtcmOutput} {E₁ E₂ : List Event}
    (hleft : Intact (H₁ ++ E₁) s₁') (hright : Intact (H₂ ++ E₂) s₂')
    (harr₁ : s₁'.arrivals = s₁.arrivals) (harr₂ : s₂'.arrivals = s₂.arrivals)
    (hsince₁ : (since client (H₁ ++ E₁)).isSome → (since client H₁).isSome)
    (hsince₂ : (since client (H₂ ++ E₂)).isSome → (since client H₂).isSome)
    {f : List QueuedRtcmOutput → Option (List QueuedRtcmOutput) × Bytes}
    (hpass₁ : (s₁'.clients.lookup client, taken client E₁) = passed f (s₁.clients.lookup client, []))
    (hpass₂ : (s₂'.clients.lookup client, taken client E₂) = passed f (s₂.clients.lookup client, [])) :
    Twins client (H₁ ++ E₁) (H₂ ++ E₂) s₁' s₂' := by
  refine ⟨hleft, hright, by rw [harr₁, harr₂, h.arrivals], fun hsome₁ hsome₂ => ?_⟩
  obtain ⟨hlook, htaken⟩ := h.same (hsince₁ hsome₁) (hsince₂ hsome₂)
  rw [hlook, ← hpass₂] at hpass₁
  obtain ⟨hqueue, hbytes⟩ := Prod.mk.inj hpass₁
  constructor
  · exact hqueue
  · rw [taken_append, taken_append, htaken, hbytes]

theorem Twins.flushLoop (h : Twins client H₁ H₂ s₁ s₂) (now : ℚ) {answer answer' : Nat → Answer}
    (hsame : answer client = answer' client) : TwinSteps client H₁ H₂ s₁ s₂
      (s₁.clients.foldl (flushClient now answer) s₁) (s₂.clients.foldl (flushClient now answer') s₂) := by
  obtain ⟨E₁, hE₁, hleft⟩ := h.left.flushLoop now answer
  obtain ⟨E₂, hE₂, hright⟩ := h.right.flushLoop now answer'
  have hloop₁ := flushLoop_looped now answer s₁
  have hloop₂ := flushLoop_looped now answer' s₂
  have hpass₁ := passed_client (flush_view now answer s₁ h.left.keys client) hE₁
  have hpass₂ := passed_client (flush_view now answer' s₂ h.right.keys client) hE₂
  rw [← hsame] at hpass₂
  refine ⟨E₁, E₂, hE₁, hE₂, h.loop hleft hright hloop₁.arrivals hloop₂.arrivals (fun hsome => ?_) (fun hsome => ?_)
    hpass₁ hpass₂⟩
  · rwa [hloop₁.since (fun _ he => he.quiet) hE₁] at hsome
  · rwa [hloop₂.since (fun _ he => he.quiet) hE₂] at hsome

theorem Twins.flush (h : Twins client H₁ H₂ s₁ s₂) (now : ℚ) (arrivals : Nat) {answer answer' : Nat → Answer}
    (hsame : answer client = answer' client) :
    TwinSteps client H₁ H₂ s₁ s₂ (s₁.flush now arrivals answer) (s₂.flush now arrivals answer') := by
  refine (h.accept arrivals).trans fun H₁ H₂ h => ?_
  obtain ⟨E₁, E₂, hE₁, hE₂, htwins⟩ := h.flushLoop now hsame
  have hleft := htwins.left
  have hright := htwins.right
  exact ⟨E₁, E₂, hE₁, hE₂, ⟨hleft.keys, hleft.few, hleft.known, hleft.live, hleft.sent, hleft.fresh⟩,
    ⟨hright.keys, hright.few, hright.known, hright.live, hright.sent, hright.fresh⟩, htwins.arrivals, htwins.same⟩

theorem Twins.publishLoop (h : Twins client H₁ H₂ s₁ s₂) (raw : Bytes) (now : ℚ) : TwinSteps client H₁ H₂ s₁ s₂
    ((s₁.note (.published raw now)).clients.foldl (publishClient raw now) (0, s₁.note (.published raw now))).2
    ((s₂.note (.published raw now)).clients.foldl (publishClient raw now) (0, s₂.note (.published raw now))).2 := by
  obtain ⟨E₁, hE₁, hleft⟩ := h.left.publishLoop raw now
  obtain ⟨E₂, hE₂, hright⟩ := h.right.publishLoop raw now
  obtain ⟨F₁, hF₁, -, harrivals₁, -, hpass₁, hsince₁⟩ := publishLoop_spec h.left.keys raw now rfl
  obtain ⟨F₂, hF₂, -, harrivals₂, -, hpass₂, hsince₂⟩ := publishLoop_spec h.right.keys raw now rfl
  obtain rfl := List.append_cancel_left (hE₁.symm.trans hF₁)
  obtain rfl := List.append_cancel_left (hE₂.symm.trans hF₂)
  refine ⟨_, _, hE₁, hE₂, h.loop hleft hright harrivals₁ harrivals₂ (fun hsome => ?_) (fun hsome => ?_)
    (hpass₁ client) (hpass₂ client)⟩
  · rwa [hsince₁, Option.isSome_map] at hsome
  · rwa [hsince₂, Option.isSome_map] at hsome

theorem Twins.publish (h : Twins client H₁ H₂ s₁ s₂) (raw : Bytes) (now : ℚ) (arrivals more : Nat)
    {answer answer' : Nat → Answer} (hsame : answer client = answer' client) : TwinSteps client H₁ H₂ s₁ s₂
      (s₁.publish raw now arrivals more answer).2 (s₂.publish raw now arrivals more answer').2 :=
  ((h.accept arrivals).trans fun _ _ h => h.publishLoop raw now).trans fun _ _ h => h.flush now more hsame

/-- Every pair of alike calls keeps what holds between two runs. -/
theorem Twins.next (h : Twins client H₁ H₂ s₁ s₂) {i j : Input} (hij : i.Alike client j) :
    Twins client (H₁ ++ (next i s₁).log) (H₂ ++ (next j s₂).log) (next i s₁) (next j s₂) := by
  have hleft : Intact H₁ { s₁ with log := [] } :=
    ⟨h.left.keys, h.left.few, h.left.known, h.left.live, h.left.sent, h.left.fresh⟩
  have hright : Intact H₂ { s₂ with log := [] } :=
    ⟨h.right.keys, h.right.few, h.right.known, h.right.live, h.right.sent, h.right.fresh⟩
  have hbegin : Twins client H₁ H₂ { s₁ with log := [] } { s₂ with log := [] } := ⟨hleft, hright, h.arrivals, h.same⟩
  have hsteps : TwinSteps client H₁ H₂ { s₁ with log := [] } { s₂ with log := [] } (TcpRtcmOutput.next i s₁)
      (TcpRtcmOutput.next j s₂) := by
    cases hij with
    | publish raw now arrivals more same => exact hbegin.publish raw now arrivals more same
    | flush now arrivals same => exact hbegin.flush now arrivals same
  obtain ⟨E₁, E₂, hE₁, hE₂, hnext⟩ := hsteps
  rw [hE₁, hE₂]
  exact hnext

/-- Two runs of alike calls. -/
theorem run_twins {is js : List Input} (h : List.Forall₂ (Input.Alike client) is js) :
    ∀ {H₁ H₂ : List Event} {s₁ s₂ : TcpRtcmOutput}, Twins client H₁ H₂ s₁ s₂ →
      ∃ s₁' s₂', Twins client (H₁ ++ history (trace TcpRtcmOutput.next s₁ is))
        (H₂ ++ history (trace TcpRtcmOutput.next s₂ js)) s₁' s₂' := by
  induction h with
  | nil =>
    intro H₁ H₂ s₁ s₂ htwins
    refine ⟨s₁, s₂, ?_⟩
    show Twins client (H₁ ++ []) (H₂ ++ []) s₁ s₂
    rwa [List.append_nil, List.append_nil]
  | cons hij _ ih =>
    intro H₁ H₂ s₁ s₂ htwins
    obtain ⟨s₁', s₂', hend⟩ := ih (htwins.next hij)
    refine ⟨s₁', s₂', ?_⟩
    rwa [List.append_assoc, List.append_assoc] at hend

/-! ## The integrity of the output -/

/-- What every client has received after the events `H`, and what waits for it. -/
structure Delivers (H : List Event) (s : TcpRtcmOutput) : Prop where
  /-- What a socket has taken is a prefix of the frames published since the client joined. -/
  received : ∀ client, taken client H <+: bytesOf ((since client H).getD [])
  /-- With what waits for a client that is still connected, it is all of them. -/
  whole : ∀ client frames, s.clients.lookup client = some frames →
    ∃ fs, since client H = some fs ∧ taken client H ++ unsent frames = bytesOf fs
  /-- Nothing is offered a second after its publication. -/
  fresh : Fresh H
  /-- The queues are bounded. -/
  bounded : ∀ client frames, s.clients.lookup client = some frames →
    frames.length ≤ maxClientQueueFrames ∧ (unsent frames).length ≤ maxClientQueueBytes
  few : s.clients.length ≤ maxClients

/-- **Output integrity**: in every run of calls, whatever the times, the connections and the sockets, every client
receives a prefix of the frames published since it joined, in order; and a client that joins in two runs of the same
calls, and whose socket answers the same, receives the same, whatever the other sockets answer. -/
theorem output_integrity (is : List Input) :
    Delivers (history (trace TcpRtcmOutput.next {} is)) (run TcpRtcmOutput.next {} is) ∧
      ∀ (js : List Input) (client : Nat), List.Forall₂ (Input.Alike client) is js →
        (since client (history (trace TcpRtcmOutput.next {} is))).isSome →
        (since client (history (trace TcpRtcmOutput.next {} js))).isSome →
        taken client (history (trace TcpRtcmOutput.next {} is)) =
          taken client (history (trace TcpRtcmOutput.next {} js)) := by
  have hintact := run_intact is
  constructor
  · refine ⟨hintact.sent, fun client frames hlook => ?_, hintact.fresh, fun client frames hlook => ?_, hintact.few⟩
    · obtain ⟨fs, hfs, -, hbytes, -⟩ := hintact.live client frames hlook
      exact ⟨fs, hfs, hbytes⟩
    · obtain ⟨-, -, -, -, hbounded⟩ := hintact.live client frames hlook
      exact hbounded
  · intro js client halike hsome₁ hsome₂
    have hbegin : Twins client [] [] {} {} := ⟨intact_init, intact_init, rfl, fun hsome _ => by cases hsome⟩
    obtain ⟨_, _, htwins⟩ := run_twins halike hbegin
    rw [List.nil_append, List.nil_append] at htwins
    exact (htwins.same hsome₁ hsome₂).2

/-- Two clients join and two frames are published; the socket of the first takes four bytes of them. -/
def outputRun (other : Answer) : List Input :=
  [.publish [0xd3, 0, 0] 0 2 0 fun client => if client = 0 then .accepts 2 else other,
    .publish [0xd3, 1] (1 / 2) 0 0 fun client => if client = 0 then .accepts 1 else other,
    .flush (3 / 4) 0 fun client => if client = 0 then .accepts 1 else other]

theorem output_integrity_outputRun :
    taken 0 (history (trace TcpRtcmOutput.next {} (outputRun .fails))) = [0xd3, 0, 0, 0xd3] ∧
      taken 0 (history (trace TcpRtcmOutput.next {} (outputRun .fails))) =
        taken 0 (history (trace TcpRtcmOutput.next {} (outputRun .blocks))) := by
  refine ⟨by decide +kernel, (output_integrity (outputRun .fails)).2 (outputRun .blocks) 0 ?_ (by decide +kernel)
    (by decide +kernel)⟩
  exact .cons (.publish _ _ _ _ rfl) (.cons (.publish _ _ _ _ rfl) (.cons (.flush _ _ rfl) .nil))

end TcpRtcmOutput

end LoraLink.Service
