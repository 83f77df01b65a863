import LoraLink.Service.Handoff

/-!
# Sources of the input, and the end of the two threads

- `Sourced`: what the metrics say about the sources that were opened, kept by every step of either thread
  (`next_sourced`): each of them has been closed, or the producer is reading it;
- `Producer.left`, `Consumer.left`: the steps that a thread still takes once the flag `stopped` is set; a full queue
  does not hold it up (`produce_left`, `consume_left`);
- `sources_accounted` and `prompt_shutdown`: both in every run of the two threads.
-/

namespace LoraLink.Service

open LoraLink.Application LoraLink.Rtcm LoraLink.Host Prog

variable {T E : Type}

/-- The metrics that count sources. -/
def PumpMetric.countsSources : PumpMetric → Bool
  | .rtcmSourceConnected | .rtcmSourceConnects | .rtcmSourceReconnects | .rtcmSourceDisconnects => true
  | _ => false

/-- Where the producer has a source and where it has none; a configuration may turn out wrong in either place. -/
def Producer.Attached (connected : Bool) : Producer → Prop
  | .putting .failed => True
  | .opening | .putting .done | .putting (.chunk _ _ _) | .leaving | .finished => connected = false
  | .starting | .discarding _ _ _ | .putting (.started _) | .reading | .received _ _ | .fresh _ _ | .offering _ _ _
  | .overflowed _ _ | .marking _ _ _ | .retaining _ _ _ => connected = true

/-- The steps that the producer still takes once it is told to stop, with so many items in the queue. -/
def Producer.left (queued : Nat) : Producer → Nat
  | .finished => 0
  | .putting _ | .received _ _ => 1
  | .opening | .leaving => 2
  | .reading => 3
  | .retaining _ _ _ => 4
  | .marking _ _ _ => 5
  | .discarding (.marker _) _ _ => queued + 2
  | .starting => queued + 3
  | .discarding (.chunk _ _ _) _ _ => queued + 6
  | .overflowed _ _ => queued + 7
  | .offering _ _ _ => queued + 8
  | .fresh _ _ => queued + 9

/-- The steps that the loop of the base still takes. -/
def Consumer.left : Consumer → Nat
  | .ended => 0
  | .getting => 1
  | .starting | .ticking => 2
  | .holding _ => 3

/-- The passes through the section under the lock that the loop still makes. -/
def Consumer.passes : Consumer → Nat
  | .holding _ => 1
  | .starting | .getting | .ticking | .ended => 0

namespace PumpInput

/-- The flag is set whenever it is read. -/
def Stopped : PumpInput E → Prop
  | .produce answer => answer.stopped = true
  | .consume stopped _ _ => stopped = true

def ofProducer : PumpInput E → Bool
  | .produce _ => true
  | .consume _ _ _ => false

def ofConsumer : PumpInput E → Bool
  | .produce _ => false
  | .consume _ _ _ => true

end PumpInput

namespace Pump

/-- A source has been opened, or something has been read from one. -/
def fromSource : PumpEvent → Bool
  | .opened | .read _ _ => true
  | .reset | .fed _ _ | .served _ => false

/-- How often a source has been opened. -/
def openings (H : List PumpEvent) : Nat := H.countP (· = .opened)

/-- One pass through the section under the lock. -/
def pass (x : Move (Pump T) (PumpInput E)) : Nat :=
  if x.input.ofConsumer then x.before.consumer.passes else 0

/-! ## The metrics of the sources -/

/-- The metrics agree with the sources opened, of which one may still be open. -/
structure Counted (p : Pump T) : Prop where
  gauge : p.metrics .rtcmSourceConnected = p.connected.toNat
  connects : p.metrics .rtcmSourceConnects = p.sessions
  reconnects : p.metrics .rtcmSourceReconnects + p.hadConnection.toNat = p.sessions
  disconnects : p.metrics .rtcmSourceDisconnects + p.connected.toNat = p.sessions
  had : p.hadConnection = decide (0 < p.sessions)

/-- What a step leaves alone that is about sources. -/
structure Untouched (p q : Pump T) : Prop where
  connected : q.connected = p.connected
  sessions : q.sessions = p.sessions
  hadConnection : q.hadConnection = p.hadConnection
  metrics : ∀ name : PumpMetric, name.countsSources = true → q.metrics name = p.metrics name

variable {p q : Pump T}

theorem Untouched.refl (p : Pump T) : Untouched p p := ⟨rfl, rfl, rfl, fun _ _ => rfl⟩

theorem Untouched.trans {r : Pump T} (h : Untouched p q) (h' : Untouched q r) : Untouched p r where
  connected := h'.connected.trans h.connected
  sessions := h'.sessions.trans h.sessions
  hadConnection := h'.hadConnection.trans h.hadConnection
  metrics name hname := (h'.metrics name hname).trans (h.metrics name hname)

theorem Untouched.add (h : Untouched p q) {m : PumpMetric} (hm : m.countsSources = false) (amount : Nat) :
    Untouched p (q.add m amount) where
  connected := h.connected
  sessions := h.sessions
  hadConnection := h.hadConnection
  metrics name hname := by
    have hne : name ≠ m := fun heq => by simp [heq, hm] at hname
    exact (if_neg hne).trans (h.metrics name hname)

theorem Untouched.set (h : Untouched p q) {m : PumpMetric} (hm : m.countsSources = false) (value : Int) :
    Untouched p (q.set m value) where
  connected := h.connected
  sessions := h.sessions
  hadConnection := h.hadConnection
  metrics name hname := by
    have hne : name ≠ m := fun heq => by simp [heq, hm] at hname
    exact (if_neg hne).trans (h.metrics name hname)

theorem Counted.untouched (h : Counted p) (huntouched : Untouched p q) : Counted q where
  gauge := by rw [huntouched.metrics _ rfl, huntouched.connected, h.gauge]
  connects := by rw [huntouched.metrics _ rfl, huntouched.sessions, h.connects]
  reconnects := by rw [huntouched.metrics _ rfl, huntouched.sessions, huntouched.hadConnection, h.reconnects]
  disconnects := by rw [huntouched.metrics _ rfl, huntouched.sessions, huntouched.connected, h.disconnects]
  had := by rw [huntouched.hadConnection, huntouched.sessions, h.had]

/-- The source is closed, and this is counted if there was one. -/
theorem Counted.close (h : Counted p) : Counted p.close := by
  have hgauge : p.close.metrics .rtcmSourceConnected = 0 := rfl
  unfold Pump.close at *
  cases hconnected : p.connected with
  | true =>
    have hdisconnects := h.disconnects
    rw [hconnected, Bool.toNat_true] at hdisconnects
    refine ⟨hgauge, h.connects, h.reconnects, ?_, h.had⟩
    simp only [if_true]
    show p.metrics.add .rtcmSourceDisconnects 1 .rtcmSourceDisconnects + ((false.toNat : Nat) : Int) = p.sessions
    rw [Metrics.add_apply, if_pos rfl]
    simpa using hdisconnects
  | false =>
    have hdisconnects := h.disconnects
    rw [hconnected] at hdisconnects
    exact ⟨hgauge, h.connects, h.reconnects, hdisconnects, h.had⟩

/-! ## The invariant -/

/-- The metrics agree with the sources, the place of the producer with the flag `connected`, and the queue is within its
bound. -/
structure Sourced (p : Pump T) : Prop extends Counted p where
  attached : p.producer.Attached p.connected
  bounded : p.queue.length ≤ maxsize

theorem Sourced.turn (h : Sourced p) (huntouched : Untouched p q) (hqueue : q.queue.length ≤ maxsize)
    (hattached : q.producer.Attached p.connected) : Sourced q :=
  { h.toCounted.untouched huntouched with
    attached := by rw [huntouched.connected]; exact hattached
    bounded := hqueue }

/-- The producer leaves its source. -/
theorem Sourced.closed (h : Counted p) (hqueue : p.queue.length ≤ maxsize) {producer : Producer}
    (hattached : producer.Attached false) : Sourced { p.close with producer := producer } :=
  { h.close with
    attached := hattached
    bounded := by rw [close_queue]; exact hqueue }

/-- A source is opened. -/
theorem opened_sourced (h : Sourced p) (hproducer : p.producer = .opening) (answer : Option SourceError) :
    Sourced (p.opened answer) := by
  have hconnected : p.connected = false := by
    have hattached := h.attached
    rwa [hproducer] at hattached
  rcases answer with _ | _ | _ | _
  · have hdisconnects := h.disconnects
    have hreconnects := h.reconnects
    rw [hconnected] at hdisconnects
    unfold opened
    simp only
    cases hhad : p.hadConnection with
    | true =>
      rw [hhad] at hreconnects
      refine ⟨⟨rfl, ?_, ?_, ?_, (decide_eq_true (Nat.succ_pos _)).symm⟩, rfl, h.bounded⟩
      · exact (congrArg (· + 1) h.connects).trans (Nat.cast_succ _).symm
      · exact (congrArg (· + 1) hreconnects).trans (Nat.cast_succ _).symm
      · exact (congrArg (· + 1) ((add_zero _).symm.trans hdisconnects)).trans (Nat.cast_succ _).symm
    | false =>
      rw [hhad] at hreconnects
      refine ⟨⟨rfl, ?_, ?_, ?_, (decide_eq_true (Nat.succ_pos _)).symm⟩, rfl, h.bounded⟩
      · exact (congrArg (· + 1) h.connects).trans (Nat.cast_succ _).symm
      · exact (congrArg (· + 1) ((add_zero _).symm.trans hreconnects)).trans (Nat.cast_succ _).symm
      · exact (congrArg (· + 1) ((add_zero _).symm.trans hdisconnects)).trans (Nat.cast_succ _).symm
  · exact Sourced.closed (h.untouched ((Untouched.refl p).add rfl _)) h.bounded rfl
  · exact Sourced.closed (h.untouched ((Untouched.refl p).add rfl _)) h.bounded rfl
  · exact h.turn ⟨rfl, rfl, rfl, fun _ _ => rfl⟩ h.bounded trivial

theorem reads_sourced (h : Sourced p) (hproducer : p.producer = .reading) (answer : Except SourceError (Bytes × ℚ)) :
    Sourced (p.reads answer) := by
  have hconnected : p.connected = true := by
    have hattached := h.attached
    rwa [hproducer] at hattached
  rcases answer with (_ | _ | _) | ⟨raw, t⟩
  · exact h
  · exact Sourced.closed (h.untouched ((Untouched.refl p).add rfl _)) h.bounded rfl
  · exact h.turn ⟨rfl, rfl, rfl, fun _ _ => rfl⟩ h.bounded trivial
  · simp only [reads]
    split
    · split
      · exact h
      · exact Sourced.closed h.toCounted h.bounded rfl
    · exact h.turn ⟨rfl, rfl, rfl, fun _ _ => rfl⟩ h.bounded hconnected

theorem discard_sourced (h : Sourced p) {retained : Retained} {chunks bytes : Nat}
    (hproducer : p.producer = .discarding retained chunks bytes) : Sourced (p.discard retained chunks bytes) := by
  have hconnected : p.connected = true := by
    have hattached := h.attached
    rwa [hproducer] at hattached
  have hbounded := h.bounded
  unfold discard
  rcases hqueue : p.queue with _ | ⟨item, queue⟩
  · have hdropped : Untouched p
        ((p.add .rtcmSourceHandoffChunksDropped chunks).add .rtcmSourceHandoffBytesDropped bytes) :=
      ((Untouched.refl p).add rfl _).add rfl _
    have hnone := Untouched.refl p
    by_cases hsome : chunks > 0
    · simp only [if_pos hsome]
      cases retained with
      | marker generation =>
        exact h.turn { hdropped.add (m := .rtcmSourceHandoffResets) rfl 1 with } hbounded hconnected
      | chunk raw t generation =>
        exact h.turn { hdropped.add (m := .rtcmSourceHandoffResets) rfl 1 with } hbounded hconnected
    · simp only [if_neg hsome]
      cases retained with
      | marker generation => exact h.turn { hnone with } hbounded hconnected
      | chunk raw t generation =>
        exact h.turn { hnone.add (m := .rtcmSourceHandoffResets) rfl 1 with } hbounded hconnected
  · have hless : queue.length ≤ maxsize := by
      rw [hqueue, List.length_cons] at hbounded
      omega
    rcases item with ⟨raw, t, g⟩ | g | _ | _
    · exact h.turn (q := { p with queue := queue, producer := .discarding retained (chunks + 1) (bytes + raw.length) })
        ⟨rfl, rfl, rfl, fun _ _ => rfl⟩ hless hconnected
    all_goals
      exact h.turn (q := { p with queue := queue, producer := .discarding retained chunks bytes })
        ⟨rfl, rfl, rfl, fun _ _ => rfl⟩ hless hconnected

/-- `put_nowait` leaves the queue within its bound. -/
theorem putNowait_sourced {item : Item} {next full : Pump T → Pump T}
    (hnext : (p.queue ++ [item]).length ≤ maxsize → Sourced (next { p with queue := p.queue ++ [item] }))
    (hfull : Sourced (full p)) : Sourced (p.putNowait item next full) := by
  unfold putNowait
  split
  · rename_i hroom
    refine hnext ?_
    rw [List.length_append, List.length_singleton]
    exact hroom
  · exact hfull

theorem afterPut_sourced {item : Item} (h : Sourced p) (hproducer : p.producer = .putting item) (done : Bool) :
    Sourced (p.afterPut item done) := by
  have hattached := h.attached
  have huntouched := Untouched.refl p
  rw [hproducer] at hattached
  rcases item with ⟨raw, t, g⟩ | g | _ | _
  · exact h.turn { huntouched with } h.bounded hattached
  · cases done with
    | false => exact Sourced.closed h.toCounted h.bounded rfl
    | true => exact h.turn { huntouched with } h.bounded hattached
  · exact Sourced.closed h.toCounted h.bounded rfl
  · exact h.turn { huntouched with } h.bounded hattached

theorem die_sourced (h : Sourced p) : Sourced p.die := Sourced.closed h.toCounted h.bounded rfl

/-- **The producer** closes what it has opened. -/
theorem produce_sourced (h : Sourced p) (answer : Answer) : Sourced (p.produce answer) := by
  have hattached := h.attached
  unfold produce
  rcases hproducer : p.producer with
    _ | _ | ⟨retained, chunks, bytes⟩ | item | _ | ⟨raw, t⟩ | ⟨raw, t⟩ | ⟨raw, t, g⟩ | ⟨raw, t⟩ | ⟨raw, t, g⟩ |
      ⟨raw, t, g⟩ | _ | _
  all_goals rw [hproducer] at hattached
  · simp only
    split
    · exact h.turn ⟨rfl, rfl, rfl, fun _ _ => rfl⟩ h.bounded hattached
    · exact opened_sourced h hproducer _
  · exact h.turn ⟨rfl, rfl, rfl, fun _ _ => rfl⟩ h.bounded hattached
  · exact discard_sourced h hproducer
  · simp only
    split
    · exact afterPut_sourced h hproducer false
    · refine putNowait_sourced (fun hroom => ?_) h
      have hput : Sourced { p with queue := p.queue ++ [item] } := h.turn ⟨rfl, rfl, rfl, fun _ _ => rfl⟩ hroom h.attached
      exact afterPut_sourced hput hproducer true
  · simp only
    split
    · exact Sourced.closed h.toCounted h.bounded rfl
    · exact reads_sourced h hproducer _
  · simp only
    split
    · exact die_sourced h
    · exact h.turn ⟨rfl, rfl, rfl, fun _ _ => rfl⟩ h.bounded hattached
  · exact h.turn ⟨rfl, rfl, rfl, fun _ _ => rfl⟩ h.bounded hattached
  · refine putNowait_sourced (fun hroom => ?_) ?_
    · exact h.turn ⟨rfl, rfl, rfl, fun _ _ => rfl⟩ hroom hattached
    · exact h.turn ⟨rfl, rfl, rfl, fun _ _ => rfl⟩ h.bounded hattached
  · exact h.turn ⟨rfl, rfl, rfl, fun _ _ => rfl⟩ h.bounded hattached
  · exact putNowait_sourced (fun hroom => h.turn ⟨rfl, rfl, rfl, fun _ _ => rfl⟩ hroom hattached) (die_sourced h)
  · exact putNowait_sourced (fun hroom => h.turn ⟨rfl, rfl, rfl, fun _ _ => rfl⟩ hroom hattached) (die_sourced h)
  · simp only
    split
    · exact h.turn ⟨rfl, rfl, rfl, fun _ _ => rfl⟩ h.bounded hattached
    · refine h.turn ⟨rfl, rfl, rfl, fun _ _ => rfl⟩ h.bounded ?_
      show Producer.Attached p.connected (if answer.stopped then .finished else .opening)
      split <;> exact hattached
  · exact h

/-! ## The consumer -/

/-- What the consumer leaves alone: the producer and its sources; it only takes from the queue. -/
structure Leaves (p q : Pump T) : Prop extends Untouched p q where
  producer : q.producer = p.producer
  queue : q.queue.length ≤ p.queue.length

theorem Leaves.refl (p : Pump T) : Leaves p p := ⟨Untouched.refl p, rfl, Nat.le_refl _⟩

theorem Leaves.trans {r : Pump T} (h : Leaves p q) (h' : Leaves q r) : Leaves p r :=
  ⟨h.toUntouched.trans h'.toUntouched, h'.producer.trans h.producer, h'.queue.trans h.queue⟩

theorem Leaves.add (h : Leaves p q) {m : PumpMetric} (hm : m.countsSources = false) (amount : Nat) :
    Leaves p (q.add m amount) :=
  ⟨h.toUntouched.add hm amount, h.producer, h.queue⟩

theorem Leaves.sourced (h : Leaves p q) (hp : Sourced p) : Sourced q :=
  hp.turn h.toUntouched (h.queue.trans hp.bounded) (h.producer ▸ hp.attached)

section Consumer

variable [Transport T E]

theorem guarded_leaves (item : Option Item) (io : E) (now : ℚ) (p : Pump T) : Leaves p (p.guarded item io now) := by
  have hserve : ∀ (i : Input E) (q : Pump T), Leaves q (q.serve i) := fun i q => { Leaves.refl q with }
  have hnoted : ∀ (e : PumpEvent) (q : Pump T), Leaves q (q.note e) := fun e q => { Leaves.refl q with }
  have hfollow : Leaves p (p.follow (E := E)) := by
    unfold follow
    split
    · have hactive : Leaves p { p with activeGeneration := p.generation } := { Leaves.refl p with }
      exact ((hactive.trans (hnoted .reset _)).trans (hserve .resetSource _)).add rfl 1
    · exact Leaves.refl p
  have hhand : ∀ q : Pump T, Leaves q (q.hand (E := E) item) := by
    intro q
    unfold hand
    split
    · split
      · exact (Leaves.refl q).add rfl 1
      · exact Leaves.refl q
    · split
      · exact ((Leaves.refl q).add rfl 1).add rfl _
      · exact (hnoted _ q).trans (hserve (.ingest _ _) _)
    · exact Leaves.refl q
  have hall := (hfollow.trans (hhand _)).trans (hserve (.step io now) _)
  exact { hall with }

theorem get_leaves (p : Pump T) : Leaves p p.get := by
  have hstart := Leaves.refl p
  unfold get
  rcases hqueue : p.queue with _ | ⟨item, queue⟩
  · exact { hstart with queue := Nat.zero_le _ }
  · have hless : queue.length ≤ p.queue.length := by
      rw [hqueue]
      exact Nat.le_succ _
    rcases item with ⟨raw, t, g⟩ | g | _ | _
    all_goals exact { hstart with queue := hless }

theorem consume_leaves (stopped : Bool) (io : E) (now : ℚ) (p : Pump T) : Leaves p (p.consume stopped io now) := by
  have hstart := Leaves.refl p
  unfold consume
  split
  · exact { hstart with }
  · split
    · exact { hstart with }
    · exact get_leaves p
  · exact guarded_leaves _ io now p
  · have hset : Untouched p (p.tick now) := { (Untouched.refl p).set (m := .rtcmSourceLastDataAgeMs) rfl _ with }
    exact ⟨hset, rfl, Nat.le_refl _⟩
  · exact hstart

/-- Every step of either thread. -/
theorem next_sourced (i : PumpInput E) (p : Pump T) (h : Sourced p) : Sourced (next i p) := by
  have hstart : Sourced { p with log := [] } := { h with }
  cases i with
  | produce answer => exact produce_sourced hstart answer
  | consume stopped io now => exact (consume_leaves stopped io now _).sourced hstart

theorem init_sourced (typ : SourceType) (t : T) : Sourced (init typ t) :=
  ⟨⟨rfl, rfl, rfl, rfl, rfl⟩, rfl, Nat.zero_le _⟩

end Consumer

/-! ## What a step says -/

/-- A step of the producer opens a source, reads from one, or says nothing; the last once it is told to stop. The consumer
and the service are left alone. -/
structure Tells (stopped : Bool) (p q : Pump T) : Prop where
  consumer : q.consumer = p.consumer
  service : q.service = p.service
  log : (q.log = p.log ∧ q.sessions = p.sessions) ∨
    stopped = false ∧ ((q.log = p.log ++ [.opened] ∧ q.sessions = p.sessions + 1) ∨
      ∃ session raw, q.log = p.log ++ [.read session raw] ∧ q.sessions = p.sessions)

theorem close_tells (stopped : Bool) (p : Pump T) (producer : Producer) :
    Tells stopped p { p.close with producer := producer } :=
  ⟨(close_same p).consumer, (close_same p).service, Or.inl ⟨(close_same p).log, (close_same p).sessions⟩⟩

theorem afterPut_tells (stopped : Bool) (item : Item) (done : Bool) (p : Pump T) :
    Tells stopped p (p.afterPut item done) := by
  rcases item with ⟨raw, t, g⟩ | g | _ | _
  · exact ⟨rfl, rfl, Or.inl ⟨rfl, rfl⟩⟩
  · cases done with
    | false => exact close_tells stopped p _
    | true => exact ⟨rfl, rfl, Or.inl ⟨rfl, rfl⟩⟩
  · exact close_tells stopped p _
  · exact ⟨rfl, rfl, Or.inl ⟨rfl, rfl⟩⟩

theorem putNowait_tells {stopped : Bool} {item : Item} {next full : Pump T → Pump T}
    (hnext : Tells stopped p (next { p with queue := p.queue ++ [item] })) (hfull : Tells stopped p (full p)) :
    Tells stopped p (p.putNowait item next full) := by
  unfold putNowait
  split
  · exact hnext
  · exact hfull

theorem opened_tells (answer : Option SourceError) (p : Pump T) : Tells false p (p.opened answer) := by
  rcases answer with _ | _ | _ | _
  · simp only [opened]
    split <;> exact ⟨rfl, rfl, Or.inr ⟨rfl, Or.inl ⟨rfl, rfl⟩⟩⟩
  · exact { close_tells false (p.add .rtcmSourceConnectFailures 1) _ with }
  · exact { close_tells false (p.add .rtcmSourceConnectFailures 1) _ with }
  · exact ⟨rfl, rfl, Or.inl ⟨rfl, rfl⟩⟩

theorem reads_tells (answer : Except SourceError (Bytes × ℚ)) (p : Pump T) : Tells false p (p.reads answer) := by
  rcases answer with (_ | _ | _) | ⟨raw, t⟩
  · exact ⟨rfl, rfl, Or.inl ⟨rfl, rfl⟩⟩
  · exact { close_tells false (p.add .rtcmSourceReadFailures 1) _ with }
  · exact ⟨rfl, rfl, Or.inl ⟨rfl, rfl⟩⟩
  · simp only [reads]
    split
    · split
      · exact ⟨rfl, rfl, Or.inl ⟨rfl, rfl⟩⟩
      · exact close_tells false p _
    · exact ⟨rfl, rfl, Or.inr ⟨rfl, Or.inr ⟨_, _, rfl, rfl⟩⟩⟩

theorem discard_tells (stopped : Bool) (retained : Retained) (chunks bytes : Nat) (p : Pump T) :
    Tells stopped p (p.discard retained chunks bytes) := by
  unfold discard
  split
  · exact ⟨rfl, rfl, Or.inl ⟨rfl, rfl⟩⟩
  · exact ⟨rfl, rfl, Or.inl ⟨rfl, rfl⟩⟩
  · cases retained <;> simp only <;> split <;> exact ⟨rfl, rfl, Or.inl ⟨rfl, rfl⟩⟩

theorem produce_tells (answer : Answer) (p : Pump T) : Tells answer.stopped p (p.produce answer) := by
  unfold produce
  split
  · split
    · exact ⟨rfl, rfl, Or.inl ⟨rfl, rfl⟩⟩
    · rename_i hgoing
      rw [Bool.not_eq_true] at hgoing
      rw [hgoing]
      exact opened_tells _ p
  · exact ⟨rfl, rfl, Or.inl ⟨rfl, rfl⟩⟩
  · exact discard_tells _ _ _ _ p
  · split
    · exact afterPut_tells _ _ false p
    · exact putNowait_tells { afterPut_tells _ _ true _ with } ⟨rfl, rfl, Or.inl ⟨rfl, rfl⟩⟩
  · split
    · exact close_tells _ p _
    · rename_i hgoing
      rw [Bool.not_eq_true] at hgoing
      rw [hgoing]
      exact reads_tells _ p
  · split
    · exact close_tells _ p _
    · exact ⟨rfl, rfl, Or.inl ⟨rfl, rfl⟩⟩
  · exact ⟨rfl, rfl, Or.inl ⟨rfl, rfl⟩⟩
  · exact putNowait_tells ⟨rfl, rfl, Or.inl ⟨rfl, rfl⟩⟩ ⟨rfl, rfl, Or.inl ⟨rfl, rfl⟩⟩
  · exact ⟨rfl, rfl, Or.inl ⟨rfl, rfl⟩⟩
  · exact putNowait_tells ⟨rfl, rfl, Or.inl ⟨rfl, rfl⟩⟩ (close_tells _ p _)
  · exact putNowait_tells ⟨rfl, rfl, Or.inl ⟨rfl, rfl⟩⟩ (close_tells _ p _)
  · split <;> exact ⟨rfl, rfl, Or.inl ⟨rfl, rfl⟩⟩
  · exact ⟨rfl, rfl, Or.inl ⟨rfl, rfl⟩⟩

/-- What a pass says is not about sources. -/
theorem consume_tells [Transport T E] (stopped : Bool) (io : E) (now : ℚ) (p : Pump T) :
    ∃ L : List PumpEvent, (p.consume stopped io now).log = p.log ++ L ∧ ∀ e ∈ L, fromSource e = false := by
  have hserved : ∀ (es : List Event), ∀ e ∈ es.map PumpEvent.served, fromSource e = false := by
    intro es e he
    obtain ⟨_, _, rfl⟩ := List.mem_map.mp he
    rfl
  have hsilent : ∃ L : List PumpEvent, p.log = p.log ++ L ∧ ∀ e ∈ L, fromSource e = false :=
    ⟨[], (List.append_nil _).symm, nofun⟩
  have hserve : ∀ (i : Input E) (q : Pump T),
      (∃ L : List PumpEvent, q.log = p.log ++ L ∧ ∀ e ∈ L, fromSource e = false) →
      ∃ L : List PumpEvent, (q.serve i).log = p.log ++ L ∧ ∀ e ∈ L, fromSource e = false := by
    rintro i q ⟨L, hlog, hL⟩
    refine ⟨L ++ _, (congrArg (· ++ _) hlog).trans (List.append_assoc _ _ _), ?_⟩
    simp only [List.mem_append]
    rintro e (he | he)
    · exact hL e he
    · exact hserved _ e he
  have hnote : ∀ (e : PumpEvent) (q : Pump T), fromSource e = false →
      (∃ L : List PumpEvent, q.log = p.log ++ L ∧ ∀ e ∈ L, fromSource e = false) →
      ∃ L : List PumpEvent, (q.note e).log = p.log ++ L ∧ ∀ e ∈ L, fromSource e = false := by
    rintro e q he ⟨L, hlog, hL⟩
    refine ⟨L ++ [e], (congrArg (· ++ _) hlog).trans (List.append_assoc _ _ _), ?_⟩
    simp only [List.mem_append, List.mem_singleton]
    rintro e' (he' | rfl)
    · exact hL e' he'
    · exact he
  unfold consume
  split
  · exact hsilent
  · split
    · exact hsilent
    · unfold get
      split <;> exact hsilent
  · refine hserve (.step io now) _ ?_
    have hfollow : ∃ L : List PumpEvent, (p.follow (E := E)).log = p.log ++ L ∧ ∀ e ∈ L, fromSource e = false := by
      unfold follow
      split
      · exact hserve .resetSource _ (hnote .reset _ rfl hsilent)
      · exact hsilent
    unfold hand
    split
    · split
      · exact hfollow
      · exact hfollow
    · split
      · exact hfollow
      · exact hserve (.ingest _ _) _ (hnote _ _ rfl hfollow)
    · exact hfollow
  · exact hsilent
  · exact hsilent

/-! ## The steps that are left -/

theorem discard_left (retained : Retained) (chunks bytes : Nat) (p : Pump T) :
    (p.discard retained chunks bytes).producer.left (p.discard retained chunks bytes).queue.length + 1 ≤
      (Producer.discarding retained chunks bytes).left p.queue.length := by
  unfold discard
  rcases hqueue : p.queue with _ | ⟨item, queue⟩
  · cases retained with
    | marker generation => simp only; split <;> simp [Producer.left]
    | chunk raw t generation =>
      show 5 + 1 ≤ 0 + 6
      omega
  · rcases item with ⟨raw, t, g⟩ | g | _ | _
    all_goals cases retained <;> simp [Producer.left]

theorem afterPut_left (item : Item) (p : Pump T) (queued : Nat) : (p.afterPut item false).producer.left queued = 0 := by
  cases item <;> rfl

/-- Told to stop, **the producer** comes closer to its end with every step. -/
theorem produce_left {answer : Answer} (hstopped : answer.stopped = true) (p : Pump T) :
    (p.produce answer).producer.left (p.produce answer).queue.length + 1 ≤ max (p.producer.left p.queue.length) 1 := by
  unfold produce
  rcases hproducer : p.producer with
    _ | _ | ⟨retained, chunks, bytes⟩ | item | _ | ⟨raw, t⟩ | ⟨raw, t⟩ | ⟨raw, t, g⟩ | ⟨raw, t⟩ | ⟨raw, t, g⟩ |
      ⟨raw, t, g⟩ | _ | _
  all_goals simp only [hstopped, if_true]
  · simp [Producer.left]
  · simp only [Producer.left]
    omega
  · exact (discard_left retained chunks bytes p).trans (le_max_left _ _)
  · rw [afterPut_left]
    exact le_max_right _ _
  · simp [Producer.left]
  · exact le_max_right _ _
  · simp only [Producer.left]
    omega
  · unfold putNowait
    split <;> simp only [Producer.left] <;> omega
  · simp only [Producer.left]
    omega
  · unfold putNowait
    split <;> simp [die, Producer.left]
  · unfold putNowait
    split <;> simp [die, Producer.left]
  · split <;> simp [Producer.left]
  · simp [hproducer, Producer.left]

/-- Told to stop, the loop of the base comes closer to its end with every step, and makes no further pass. -/
theorem consume_left [Transport T E] (io : E) (now : ℚ) (p : Pump T) :
    (p.consume true io now).consumer.left + 1 ≤ max p.consumer.left 1 ∧
      p.consumer.passes + (p.consume true io now).consumer.passes ≤ p.consumer.passes := by
  unfold consume
  rcases hconsumer : p.consumer with _ | _ | item | _ | _
  · exact ⟨Nat.le_max_left 2 1, Nat.le_refl _⟩
  · exact ⟨Nat.le_max_left 1 1, Nat.le_refl _⟩
  · simp only [guarded]
    split
    · exact ⟨Nat.le_max_right 3 1, Nat.le_refl _⟩
    · exact ⟨Nat.le_max_left 3 1, Nat.le_refl _⟩
  · simp only [tick]
    split
    · exact ⟨Nat.le_max_right 2 1, Nat.le_refl _⟩
    · exact ⟨Nat.le_max_left 2 1, Nat.le_refl _⟩
  · simp only [hconsumer]
    exact ⟨Nat.le_max_right 0 1, Nat.le_refl _⟩

/-! ## Every run -/

section Runs

theorem openings_append (H L : List PumpEvent) : openings (H ++ L) = openings H + openings L := List.countP_append

theorem openings_fromSource {L : List PumpEvent} (h : ∀ e ∈ L, fromSource e = false) : openings L = 0 := by
  refine List.countP_eq_zero.mpr fun e he hopened => ?_
  rw [of_decide_eq_true hopened] at he
  exact absurd (h _ he) (by decide)

variable [Transport T E]

/-- A step counts the sources that it opens. -/
theorem next_openings (i : PumpInput E) (p : Pump T) : (next i p).sessions = p.sessions + openings (next i p).log := by
  cases i with
  | produce answer =>
    have htells := (produce_tells answer { p with log := [] }).log
    rcases htells with ⟨hlog, hsessions⟩ | ⟨-, ⟨hlog, hsessions⟩ | ⟨session, raw, hlog, hsessions⟩⟩
    all_goals
      show ((_ : Pump T).produce answer).sessions = _ + openings (Pump.produce answer _).log
      rw [hlog, hsessions]
      rfl
  | consume stopped io now =>
    obtain ⟨L, hlog, hL⟩ := consume_tells stopped io now { p with log := [] }
    have hsessions := (consume_leaves stopped io now { p with log := [] }).sessions
    show (Pump.consume stopped io now _).sessions = _ + openings (Pump.consume stopped io now _).log
    rw [hlog, hsessions, openings_append, openings_fromSource hL]
    rfl

theorem run_sourced (typ : SourceType) (t : T) (is : List (PumpInput E)) :
    Sourced (run next (init typ t) is) ∧
      (run next (init typ t) is).sessions = openings (history (trace next (init typ t) is)) := by
  have hrun :=
    run_rel (G := fun _ => True) (f := eventsOf) (P := fun H p => Sourced p ∧ p.sessions = openings H) (H := [])
    ⟨init_sourced typ t, rfl⟩
    (fun H i p h _ => ⟨next_sourced i p h.1, by rw [next_openings, openings_append, h.2]; rfl⟩) is fun _ _ => trivial
  rwa [List.nil_append] at hrun

/-- **Sources are accounted for**, in every run of the two threads: each one opened has been closed or is being read, as
the metrics and the gauge say; the flag `connected` is set in the places of the thread where it has a source and nowhere
else; and the queue keeps its bound. -/
theorem sources_accounted (typ : SourceType) (t : T) (is : List (PumpInput E)) :
    (run next (init typ t) is).metrics .rtcmSourceConnects = openings (history (trace next (init typ t) is)) ∧
    (run next (init typ t) is).metrics .rtcmSourceDisconnects + (run next (init typ t) is).metrics .rtcmSourceConnected =
      (run next (init typ t) is).metrics .rtcmSourceConnects ∧
    (run next (init typ t) is).metrics .rtcmSourceReconnects =
      max 0 ((run next (init typ t) is).metrics .rtcmSourceConnects - 1) ∧
    (run next (init typ t) is).metrics .rtcmSourceConnected = (run next (init typ t) is).connected.toNat ∧
    (run next (init typ t) is).producer.Attached (run next (init typ t) is).connected ∧
    (run next (init typ t) is).queue.length ≤ maxsize := by
  obtain ⟨h, hopened⟩ := run_sourced typ t is
  refine ⟨by rw [h.connects, hopened], ?_, ?_, h.gauge, h.attached, h.bounded⟩
  · rw [h.gauge, h.disconnects, h.connects]
  · have hreconnects := h.reconnects
    rw [h.had] at hreconnects
    rw [h.connects]
    by_cases hsome : 0 < (run next (init typ t) is).sessions
    · rw [decide_eq_true hsome, Bool.toNat_true] at hreconnects
      push_cast at hreconnects
      omega
    · rw [decide_eq_false hsome, Bool.toNat_false] at hreconnects
      push_cast at hreconnects
      omega

/-- What the flag stops: no source is opened or read in a step that finds it set. -/
theorem next_stopped {i : PumpInput E} (hi : i.Stopped) (p : Pump T) : ∀ e ∈ (next i p).log, fromSource e = false := by
  cases i with
  | produce answer =>
    have htells := (produce_tells answer { p with log := [] }).log
    rw [show answer.stopped = true from hi] at htells
    rcases htells with ⟨hlog, -⟩ | ⟨habsurd, -⟩
    · intro e he
      have he : e ∈ (Pump.produce answer { p with log := [] }).log := he
      rw [hlog] at he
      exact absurd he List.not_mem_nil
    · exact absurd habsurd (by decide)
  | consume stopped io now =>
    obtain ⟨L, hlog, hL⟩ := consume_tells stopped io now { p with log := [] }
    intro e he
    have he : e ∈ (Pump.consume stopped io now { p with log := [] }).log := he
    rw [hlog] at he
    exact hL e he

/-- Told to stop, the thread whose step it is comes closer to its end, and the other one no further from it. -/
theorem next_left {i : PumpInput E} (hi : i.Stopped) (p : Pump T) :
    (next i p).producer.left (next i p).queue.length + i.ofProducer.toNat ≤
        max (p.producer.left p.queue.length) i.ofProducer.toNat ∧
      (next i p).consumer.left + i.ofConsumer.toNat ≤ max p.consumer.left i.ofConsumer.toNat ∧
      pass ⟨p, i, next i p⟩ + (next i p).consumer.passes ≤ p.consumer.passes := by
  have hmono : ∀ (producer : Producer) {n m : Nat}, n ≤ m → producer.left n ≤ producer.left m := by
    intro producer n m hle
    cases producer with
    | discarding retained chunks bytes => cases retained <;> exact Nat.add_le_add_right hle _
    | starting | overflowed | offering | fresh => exact Nat.add_le_add_right hle _
    | _ => exact Nat.le_refl _
  cases i with
  | produce answer =>
    have hconsumer : (next (E := E) (.produce answer) p).consumer = p.consumer :=
      (produce_tells answer { p with log := [] }).consumer
    refine ⟨produce_left hi { p with log := [] }, ?_, ?_⟩
    · rw [hconsumer]
      exact le_max_left _ _
    · rw [hconsumer]
      exact Nat.le_of_eq (Nat.zero_add _)
  | consume stopped io now =>
    obtain rfl : stopped = true := hi
    obtain ⟨hleft, hpasses⟩ := consume_left io now { p with log := [] }
    have hleaves := consume_leaves true io now { p with log := [] }
    refine ⟨?_, hleft, hpasses⟩
    have hproducer : (next (.consume true io now) p).producer = p.producer := hleaves.producer
    rw [hproducer]
    exact (hmono _ hleaves.queue).trans (le_max_left _ _)

theorem left_le (producer : Producer) (queued : Nat) : producer.left queued ≤ queued + 9 := by
  cases producer with
  | discarding retained chunks bytes => cases retained <;> simp [Producer.left]
  | _ => simp [Producer.left]

/-- **The shutdown is prompt**: from the moment at which the flag `stopped` is found set whenever it is read, no source is
opened and none is read, the loop of the base makes at most the one pass it has begun, three of its steps end it, and
`maxsize + 9` steps of the producer end that thread, with its source closed and every source accounted for, whatever the
queue holds and however the threads alternate. -/
theorem prompt_shutdown (typ : SourceType) (t : T) (is js : List (PumpInput E)) (hstopped : ∀ i ∈ js, i.Stopped) :
    (∀ e ∈ history (trace next (run next (init typ t) is) js), fromSource e = false) ∧
    ((trace next (run next (init typ t) is) js).map pass).sum ≤ 1 ∧
    (3 ≤ js.countP PumpInput.ofConsumer → (run next (run next (init typ t) is) js).consumer = .ended) ∧
    (maxsize + 9 ≤ js.countP PumpInput.ofProducer →
      (run next (run next (init typ t) is) js).producer = .finished ∧
      (run next (run next (init typ t) is) js).connected = false ∧
      (run next (run next (init typ t) is) js).metrics .rtcmSourceConnected = 0 ∧
      (run next (run next (init typ t) is) js).metrics .rtcmSourceDisconnects =
        (run next (run next (init typ t) is) js).metrics .rtcmSourceConnects) := by
  obtain ⟨hstart, -⟩ := run_sourced typ t is
  have hend : Sourced (run next (run next (init typ t) is) js) := run_inv hstart next_sourced js
  generalize run next (init typ t) is = p at hstart hend
  have hproducer : (run next p js).producer.left (run next p js).queue.length ≤
      p.producer.left p.queue.length - js.countP PumpInput.ofProducer :=
    run_variant (P := fun _ => True) (m := fun p : Pump T => p.producer.left p.queue.length) (fun _ _ _ h => h)
      (fun i p hi _ => (next_left hi p).1) hstopped trivial
  have hconsumer : (run next p js).consumer.left ≤ p.consumer.left - js.countP PumpInput.ofConsumer :=
    run_variant (P := fun _ => True) (m := fun p : Pump T => p.consumer.left) (fun _ _ _ h => h)
      (fun i p hi _ => (next_left hi p).2.1) hstopped trivial
  have hpasses : ((trace next p js).map pass).sum + (run next p js).consumer.passes ≤ p.consumer.passes :=
    run_budget (P := fun _ => True) (m := fun p : Pump T => p.consumer.passes) (fun _ _ _ h => h)
      (fun i p hi _ => (next_left hi p).2.2) hstopped trivial
  refine ⟨?_, ?_, fun hsteps => ?_, fun hsteps => ?_⟩
  · intro e he
    obtain ⟨x, hx, he⟩ := List.mem_flatMap.mp he
    obtain ⟨T₁, T₂, hT⟩ := List.append_of_mem hx
    obtain ⟨pre, post, hjs, -, -, hafter, -⟩ := trace_split hT
    have he : e ∈ x.after.log := he
    rw [hafter] at he
    exact next_stopped (hstopped _ (by rw [hjs]; simp)) _ e he
  · have hone : p.consumer.passes ≤ 1 := by cases p.consumer <;> simp [Consumer.passes]
    omega
  · have hmost : p.consumer.left ≤ 3 := by cases p.consumer <;> simp [Consumer.left]
    have hnone : (run next p js).consumer.left = 0 := by omega
    cases hlast : (run next p js).consumer with
    | ended => rfl
    | _ => simp [hlast, Consumer.left] at hnone
  · have hmost := left_le p.producer p.queue.length
    have hbounded := hstart.bounded
    have hnone : (run next p js).producer.left (run next p js).queue.length = 0 := by omega
    have hfinished : (run next p js).producer = .finished := by
      cases hlast : (run next p js).producer with
      | finished => rfl
      | discarding retained chunks bytes => cases retained <;> simp [hlast, Producer.left] at hnone
      | _ => simp [hlast, Producer.left] at hnone
    have hconnected : (run next p js).connected = false := by
      have hattached := hend.attached
      rwa [hfinished] at hattached
    have hgauge := hend.gauge
    have hdisconnects := hend.disconnects
    rw [hconnected] at hgauge hdisconnects
    refine ⟨hfinished, hconnected, hgauge, ?_⟩
    rw [hend.connects]
    exact (add_zero _).symm.trans hdisconnects

/-- A source is open, two chunks of it wait in the queue and a third has just been read; the loop of the base is about to
act on the marker of the source. -/
def readingRun : List (PumpInput (Io × Io)) :=
  List.replicate 4 (.produce {}) ++
    .produce { read := .ok ([0xd3], 0) } :: List.replicate 3 (.produce {}) ++
    .produce { read := .ok ([0, 0], 0) } :: List.replicate 3 (.produce {}) ++
    .produce { read := .ok ([0x47], 0) } :: List.replicate 2 (.consume false ({}, {}) 0)

/-- The two threads in turn, once they are told to stop. -/
def stoppingRun : List (PumpInput (Io × Io)) :=
  (List.replicate 73 [.consume true ({}, {}) 0, .produce { stopped := true }]).flatten

/-- The pump with the source open. -/
def readingPump : Pump Modem := run next (init .tcp (Modem.init 0 1)) readingRun

theorem prompt_shutdown_stopped :
    (readingPump.connected = true ∧ readingPump.queue.length = 2 ∧ readingPump.consumer = .holding (some (.started 1))) ∧
      (run next readingPump stoppingRun).consumer = .ended ∧ (run next readingPump stoppingRun).producer = .finished ∧
      (run next readingPump stoppingRun).connected = false ∧
      (run next readingPump stoppingRun).metrics .rtcmSourceDisconnects =
        (run next readingPump stoppingRun).metrics .rtcmSourceConnects := by
  have hstopped : ∀ i ∈ stoppingRun, PumpInput.Stopped i := by
    intro i hi
    obtain ⟨l, hl, hil⟩ := List.mem_flatten.mp hi
    rw [List.eq_of_mem_replicate hl] at hil
    simp only [List.mem_cons, List.not_mem_nil, or_false] at hil
    rcases hil with rfl | rfl <;> rfl
  have hconsumed : 3 ≤ stoppingRun.countP PumpInput.ofConsumer := by decide +kernel
  have hproduced : maxsize + 9 ≤ stoppingRun.countP PumpInput.ofProducer := by decide +kernel
  have hreading : readingPump.connected = true ∧ readingPump.queue.length = 2 ∧
      readingPump.consumer = .holding (some (.started 1)) := by decide +kernel
  have hpump : run next (init .tcp (Modem.init 0 1)) readingRun = readingPump := rfl
  have hshutdown := prompt_shutdown .tcp (Modem.init 0 1) readingRun stoppingRun hstopped
  rw [hpump] at hshutdown
  obtain ⟨-, -, hconsumer, hproducer⟩ := hshutdown
  obtain ⟨hfinished, hclosed, -, hdisconnects⟩ := hproducer hproduced
  exact ⟨hreading, hconsumer hconsumed, hfinished, hclosed, hdisconnects⟩

end Runs

end Pump

end LoraLink.Service
