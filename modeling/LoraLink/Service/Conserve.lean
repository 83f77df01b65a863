import Mathlib.Algebra.BigOperators.Group.Multiset.Basic
import Mathlib.Data.Multiset.AddSub
import Mathlib.Tactic.Abel
import LoraLink.Service.Pump

/-!
# The handoff conserves bytes

A chunk that is passed to `_put_fresh` is with the producer, in the queue or with the consumer, until it is ingested,
dropped or found superseded. `chunkEvents` reads off a step of a thread which of these it does.

- `produce_flows`, `consume_flows`: a step takes every chunk from one place to one other, and counts its bytes when it
  leaves; a marker and the chunk behind it find room in the queue;
- `handoff_conserved`: so the bytes passed are those counted and those still queued, in every run of the two threads.
-/

namespace LoraLink.Service

open LoraLink.Application LoraLink.Rtcm LoraLink.Host Prog

/-- A chunk and the time at which it was read. -/
abbrev Chunk := Bytes × ℚ

/-- What happens to a chunk: `_put_fresh` is called with it, and later it is ingested, dropped or found superseded. -/
inductive ChunkEvent
  | passed
  | ingested
  | dropped
  | superseded
deriving DecidableEq, Repr

variable {T E : Type}

/-- What a step does to a chunk. -/
def chunkEvents (x : Move (Pump T) (PumpInput E)) : List (ChunkEvent × Chunk) :=
  match x.input with
  | .produce _ =>
    match x.before.producer, x.after.producer, x.before.queue with
    | .received raw receivedAt, .fresh _ _, _ => [(.passed, raw, receivedAt)]
    | .discarding _ _ _, _, .chunk raw receivedAt _ :: _ => [(.dropped, raw, receivedAt)]
    | _, _, _ => []
  | .consume _ _ _ =>
    match x.before.consumer with
    | .holding (some (.chunk raw receivedAt generation)) =>
      [(if generation = x.before.generation then .ingested else .superseded, raw, receivedAt)]
    | _ => []

/-- The chunks to which an event has happened, each as often as it has. -/
def met (e : ChunkEvent) (L : List (ChunkEvent × Chunk)) : Multiset Chunk :=
  ((L.filter fun x => x.1 = e).map Prod.snd : List Chunk)

def bytesOf (m : Multiset Chunk) : Nat := (m.map fun chunk => chunk.1.length).sum

def Item.contents : Item → Multiset Chunk
  | .chunk raw receivedAt _ => {(raw, receivedAt)}
  | .started _ | .failed | .done => 0

def chunksOf (items : List Item) : Multiset Chunk := (items.map Item.contents).sum

/-- The chunk that `_put_fresh` has not yet put. -/
def Producer.inHand : Producer → Multiset Chunk
  | .fresh raw receivedAt | .offering raw receivedAt _ | .overflowed raw receivedAt
  | .discarding (.chunk raw receivedAt _) _ _ | .marking raw receivedAt _ | .retaining raw receivedAt _ =>
    {(raw, receivedAt)}
  | .opening | .starting | .discarding (.marker _) _ _ | .putting _ | .reading | .received _ _ | .leaving | .finished => 0

/-- The chunk that the consumer has taken from the queue. -/
def Consumer.inHand : Consumer → Multiset Chunk
  | .holding (some item) => item.contents
  | _ => 0

/-- The producer is neither in `_put_fresh` nor in `_discard_queued_input`. -/
def Producer.Between : Producer → Prop
  | .fresh _ _ | .offering _ _ _ | .overflowed _ _ | .discarding _ _ _ | .marking _ _ _ | .retaining _ _ _ => False
  | .opening | .starting | .putting _ | .reading | .received _ _ | .leaving | .finished => True

/-- The consumer has nothing in hand. -/
def Consumer.Between : Consumer → Prop
  | .holding _ => False
  | .starting | .getting | .ticking | .ended => True

section Lists

variable (e : ChunkEvent) (L L' : List (ChunkEvent × Chunk))

@[simp] theorem met_nil : met e [] = 0 := rfl

theorem met_append : met e (L ++ L') = met e L + met e L' := by
  rw [met, List.filter_append, List.map_append, ← Multiset.coe_add]
  rfl

@[simp] theorem met_singleton (e' : ChunkEvent) (c : Chunk) : met e [(e', c)] = if e' = e then {c} else 0 := by
  unfold met
  split <;> simp [*]

@[simp] theorem bytesOf_zero : bytesOf 0 = 0 := rfl

@[simp] theorem bytesOf_singleton (c : Chunk) : bytesOf {c} = c.1.length := by simp [bytesOf]

@[simp] theorem bytesOf_add (m m' : Multiset Chunk) : bytesOf (m + m') = bytesOf m + bytesOf m' := by simp [bytesOf]

@[simp] theorem chunksOf_nil : chunksOf [] = 0 := rfl

@[simp] theorem chunksOf_cons (item : Item) (items : List Item) :
    chunksOf (item :: items) = item.contents + chunksOf items :=
  List.sum_cons

@[simp] theorem chunksOf_append (items items' : List Item) :
    chunksOf (items ++ items') = chunksOf items + chunksOf items' := by simp [chunksOf]

end Lists

/-! ## The bytes that the service has taken in -/

namespace BaseService

/-- `rtcm_input_bytes` of a service. -/
def TookIn (n : Int) (b : BaseService T) : Prop := b.metrics .rtcmInputBytes = n

variable {n : Int}

theorem tookIn_add {name : Metric} (hname : name ≠ .rtcmInputBytes) (amount : Nat) :
    Triple (TookIn n) (add name amount : Op T Unit) fun _ => TookIn n := by
  intro b h
  show b.metrics.add name amount .rtcmInputBytes = n
  rw [Metrics.add_apply, if_neg hname.symm]
  exact h

theorem tookIn_set {name : Metric} (hname : name ≠ .rtcmInputBytes) (value : Int) :
    Triple (TookIn n) (set name value : Op T Unit) fun _ => TookIn n := by
  intro b h
  show b.metrics.set name value .rtcmInputBytes = n
  rw [Metrics.set_apply, if_neg hname.symm]
  exact h

theorem tookIn_updateRates (now : ℚ) : Triple (TookIn n) (updateRates now : Op T Unit) fun _ => TookIn n := by
  refine Triple.keep_bind (fun _ h => h) fun _ => Triple.get_bind fun b _ => ?_
  refine Triple.keep_bind (tookIn_set (by decide) _) fun _ => Triple.keep_bind (tookIn_set (by decide) _) fun _ => ?_
  exact tookIn_set (by decide) _

theorem tookIn_updateQueueMetrics (now : ℚ) :
    Triple (TookIn n) (updateQueueMetrics now : Op T Unit) fun _ => TookIn n := by
  refine Triple.get_bind fun b _ => Triple.keep_bind (tookIn_set (by decide) _) fun _ => ?_
  refine Triple.keep_bind (tookIn_set (by decide) _) fun _ => Triple.keep_bind (tookIn_set (by decide) _) fun _ => ?_
  exact tookIn_set (by decide) _

theorem tookIn_ofTransport {α : Type} (x : Prog T Exn α) :
    Triple (TookIn n) (ofTransport x) fun _ => TookIn (T := T) n := by
  intro b h
  unfold ofTransport
  split
  · exact h
  · exact h

theorem tookIn_enqueue (f : RtcmFrame) : Triple (TookIn n) (enqueue f : Op T Unit) fun _ => TookIn n := by
  have hoverflow : Triple (TookIn n) (overflow : Op T Unit) fun _ => TookIn n :=
    Triple.keep_bind (fun _ h => h) fun _ => tookIn_add (by decide) _
  refine Triple.keep_bind (fun _ h => h) fun _ => Triple.get_bind fun b _ => ?_
  refine Triple.keep_bind (Triple.keep_when fun _ => hoverflow) fun _ => ?_
  exact Triple.keep_bind (tookIn_add (by decide) _) fun _ => tookIn_add (by simp) _

/-- The bytes of a chunk are counted before anything can raise. -/
theorem tookIn_ingest (chunk : Bytes) (now : ℚ) :
    Triple (TookIn n) (ingest chunk now : Op T Nat) fun _ => TookIn (n + chunk.length) := by
  refine Triple.get_bind fun b _ => ?_
  generalize b.parser.feed chunk now = r
  obtain ⟨parser, frames⟩ := r
  refine Triple.seq (R := fun _ => TookIn n) (fun _ h => h) fun _ => ?_
  have hcount : Triple (TookIn n) (add .rtcmInputBytes chunk.length : Op T Unit)
      (Returns fun _ => TookIn (n + chunk.length)) := by
    intro b h
    show b.metrics.add .rtcmInputBytes chunk.length .rtcmInputBytes = n + chunk.length
    rw [Metrics.add_apply, if_pos rfl, show b.metrics .rtcmInputBytes = n from h]
  refine hcount.seq fun _ => Triple.keep_bind (Triple.keep_forEach fun f _ => tookIn_enqueue f) fun _ => ?_
  refine Triple.keep_bind (tookIn_updateQueueMetrics now) fun _ => Triple.keep_bind (tookIn_set (by decide) _) fun _ => ?_
  exact Triple.keep_bind (tookIn_updateRates now) fun _ _ h => h

theorem tookIn_resetSource : Triple (TookIn n) (resetSource : Op T Unit) fun _ => TookIn n := by
  refine Triple.get_bind fun b _ => Triple.keep_bind (fun _ h => h) fun _ => ?_
  refine Triple.keep_bind (Triple.keep_when fun _ => tookIn_add (by decide) _) fun _ => ?_
  exact Triple.keep_bind (Triple.keep_when fun _ => tookIn_add (by decide) _) fun _ _ h => h

theorem tookIn_settle (o : Outcome) : Triple (TookIn n) (settle o : Op T Unit) fun _ => TookIn n := by
  refine Triple.get_bind fun b _ => Triple.ite (fun _ => ?_) fun _ => ?_
  · exact Triple.keep_bind (fun _ h => h) fun _ => tookIn_add (by decide) _
  · refine Triple.keep_bind (fun _ h => h) fun _ => ?_
    rcases o.2 with _ | _ | _ <;> exact tookIn_add (by decide) _

theorem tookIn_dropStale (now : ℚ) (queue : List RtcmFrame) :
    Triple (TookIn n) (dropStale now queue : Op T Unit) fun _ => TookIn n := by
  induction queue with
  | nil => exact fun _ h => h
  | cons f queue ih =>
    refine Triple.ite (fun _ => Triple.keep_bind (fun _ h => h) fun _ => ?_) fun _ _ h => h
    exact Triple.keep_bind (tookIn_add (by decide) _) fun _ => ih

theorem tookIn_load (now : ℚ) : Triple (TookIn n) (load now : Op T Unit) fun _ => TookIn n := by
  refine Triple.get_bind fun b _ => ?_
  split
  · simp only
    split
    · exact Triple.keep_bind (fun _ h => h) fun _ => tookIn_add (by decide) _
    · exact fun _ h => h
  · exact fun _ h => h

variable [Transport T E]

theorem tookIn_send (io : E) (now : ℚ) : Triple (TookIn n) (send io now : Op T Unit) fun _ => TookIn n := by
  have hencode : ∀ x : Except ApplicationError Bytes,
      Triple (TookIn n) (ofApplication x : Op T Bytes) fun _ => TookIn n := by
    intro x b h
    cases x <;> exact h
  refine Triple.get_bind fun b _ => ?_
  split
  · exact fun _ h => h
  · refine Triple.ite (fun _ => Triple.ite (fun _ => ?_) fun _ => ?_) fun _ _ h => h
    · exact Triple.keep_bind (fun _ h => h) fun _ => tookIn_add (by decide) _
    · refine Triple.keep_bind (fun _ h => h) fun _ => Triple.keep_bind (hencode _) fun encoded => ?_
      refine Triple.keep_bind (tookIn_ofTransport _) fun r => ?_
      cases r with
      | none => exact Triple.keep_bind (fun _ h => h) fun _ => tookIn_add (by decide) _
      | some sequence =>
        refine Triple.keep_bind (fun _ h => h) fun _ => Triple.keep_bind (tookIn_add (by decide) _) fun _ => ?_
        exact Triple.keep_bind (tookIn_add (by decide) _) fun _ _ h => h

theorem tookIn_step (io : E) (now : ℚ) : Triple (TookIn n) (step io now : Op T Unit) fun _ => TookIn n := by
  have hfollow : Triple (TookIn n) (followSession : Op T Unit) fun _ => TookIn n :=
    Triple.get_bind fun b _ => Triple.keep_when fun _ => Triple.keep_bind (fun _ h => h) fun _ => tookIn_add (by decide) _
  refine Triple.get_bind fun b _ => Triple.keep_bind (tookIn_ofTransport _) fun _ => ?_
  refine Triple.keep_bind (tookIn_ofTransport _) fun outcomes => ?_
  refine Triple.keep_bind (Triple.keep_forEach fun o _ => tookIn_settle o) fun _ => Triple.keep_bind hfollow fun _ => ?_
  refine Triple.get_bind fun b _ => Triple.keep_bind (tookIn_dropStale now _) fun _ => Triple.get_bind fun b _ => ?_
  refine Triple.ite (fun _ => tookIn_updateQueueMetrics now) fun _ => Triple.keep_bind (tookIn_load now) fun _ => ?_
  refine Triple.keep_bind (tookIn_send io now) fun _ => Triple.keep_bind (tookIn_updateRates now) fun _ => ?_
  exact tookIn_updateQueueMetrics now

/-- What a call adds to `rtcm_input_bytes`. -/
def takenIn : Input E → Nat
  | .ingest chunk _ => chunk.length
  | .resetSource | .step _ _ => 0

theorem next_takenIn (i : Input E) (b : BaseService T) :
    (next i b).metrics .rtcmInputBytes = b.metrics .rtcmInputBytes + takenIn i := by
  have hcall : ∀ {α : Type} {x : Op T α} {m : Int}, Triple (TookIn (b.metrics .rtcmInputBytes)) x (fun _ => TookIn m) →
      (call x b).metrics .rtcmInputBytes = m := by
    intro α x m hx
    have hend := hx { b with log := [] } rfl
    unfold call
    generalize x { b with log := [] } = res at hend
    obtain ⟨r, b'⟩ := res
    cases r <;> exact hend
  cases i with
  | ingest chunk now => exact hcall (tookIn_ingest chunk now)
  | resetSource => exact (hcall tookIn_resetSource).trans (add_zero _).symm
  | step io now => exact (hcall (tookIn_step io now)).trans (add_zero _).symm

end BaseService

/-! ## What a step does -/

/-- The bytes that `_discard_queued_input` has dropped and not yet counted. -/
def Producer.uncounted : Producer → Nat
  | .discarding _ _ bytes => bytes
  | _ => 0

/-- The queue has room for what `_put_fresh` puts after it has emptied it. -/
def Producer.Room (queue : List Item) : Producer → Prop
  | .discarding _ chunks bytes => chunks = 0 → bytes = 0
  | .putting item => item.contents = 0
  | .marking _ _ _ => queue = []
  | .retaining _ _ _ => queue.length ≤ 1
  | _ => True

theorem Producer.Room.less {producer : Producer} {queue queue' : List Item} (h : producer.Room queue)
    (hle : queue'.length ≤ queue.length) : producer.Room queue' := by
  cases producer with
  | marking raw t g =>
    rw [show queue = [] from h] at hle
    exact List.eq_nil_of_length_eq_zero (Nat.le_zero.mp hle)
  | retaining raw t g => exact hle.trans h
  | _ => exact h

namespace Pump

/-- The chunks that are on their way. -/
def carried (p : Pump T) : Multiset Chunk := p.producer.inHand + chunksOf p.queue + p.consumer.inHand

/-- A step moves chunks, and counts the bytes of those that arrive. -/
structure Flows (p q : Pump T) (L : List (ChunkEvent × Chunk)) : Prop where
  chunks : p.carried + met .passed L = q.carried + (met .ingested L + met .dropped L + met .superseded L)
  input : q.service.metrics .rtcmInputBytes = p.service.metrics .rtcmInputBytes + bytesOf (met .ingested L)
  dropped : q.metrics .rtcmSourceHandoffBytesDropped + q.producer.uncounted =
    p.metrics .rtcmSourceHandoffBytesDropped + p.producer.uncounted + bytesOf (met .dropped L)
  superseded : q.metrics .rtcmSourceHandoffBytesSuperseded =
    p.metrics .rtcmSourceHandoffBytesSuperseded + bytesOf (met .superseded L)

/-- The consumer does nothing, none of the bytes are counted, and the queue is `items` now. -/
structure Quiet (items : List Item) (p q : Pump T) : Prop where
  queue : q.queue = items
  consumer : q.consumer = p.consumer
  service : q.service = p.service
  dropped : q.metrics .rtcmSourceHandoffBytesDropped = p.metrics .rtcmSourceHandoffBytesDropped
  superseded : q.metrics .rtcmSourceHandoffBytesSuperseded = p.metrics .rtcmSourceHandoffBytesSuperseded

variable {p q : Pump T} {items : List Item}

theorem Quiet.refl (p : Pump T) : Quiet p.queue p p := ⟨rfl, rfl, rfl, rfl, rfl⟩

theorem Quiet.put (p : Pump T) (item : Item) : Quiet (p.queue ++ [item]) p { p with queue := p.queue ++ [item] } :=
  ⟨rfl, rfl, rfl, rfl, rfl⟩

theorem Quiet.turn (h : Quiet items p q) (producer : Producer) : Quiet items p { q with producer := producer } :=
  { h with }

theorem Quiet.add (h : Quiet items p q) {m : PumpMetric} (hdropped : m ≠ .rtcmSourceHandoffBytesDropped)
    (hsuperseded : m ≠ .rtcmSourceHandoffBytesSuperseded) (amount : Nat) : Quiet items p (q.add m amount) :=
  { h with
    dropped := (if_neg hdropped.symm).trans h.dropped
    superseded := (if_neg hsuperseded.symm).trans h.superseded }

theorem Quiet.set (h : Quiet items p q) {m : PumpMetric} (hdropped : m ≠ .rtcmSourceHandoffBytesDropped)
    (hsuperseded : m ≠ .rtcmSourceHandoffBytesSuperseded) (value : Int) : Quiet items p (q.set m value) :=
  { h with
    dropped := (if_neg hdropped.symm).trans h.dropped
    superseded := (if_neg hsuperseded.symm).trans h.superseded }

theorem Quiet.close (h : Quiet items p q) : Quiet items p q.close := by
  have hcounted : Quiet items p (if q.connected then q.add .rtcmSourceDisconnects 1 else q) := by
    split
    · exact h.add (by decide) (by decide) _
    · exact h
  have hclosed : ∀ {r : Pump T}, Quiet items p r → Quiet items p { r with connected := false } := fun hr => { hr with }
  exact (hclosed hcounted).set (by decide) (by decide) _

theorem Quiet.die (h : Quiet items p q) : Quiet items p q.die := h.close.turn _

theorem Quiet.flows (h : Quiet items p q)
    (hhand : q.producer.inHand + chunksOf items = p.producer.inHand + chunksOf p.queue)
    (huncounted : q.producer.uncounted = p.producer.uncounted) : Flows p q [] where
  chunks := by simp [carried, h.queue, h.consumer, hhand]
  input := by simp [h.service]
  dropped := by simp [h.dropped, huncounted]
  superseded := by simp [h.superseded]

/-- Between two calls of `_put_fresh` the producer has nothing in hand. -/
theorem between_inHand {producer : Producer} (h : producer.Between) : producer.inHand = 0 ∧ producer.uncounted = 0 := by
  cases producer <;> first | exact h.elim | exact ⟨rfl, rfl⟩

theorem Quiet.between (h : Quiet p.queue p q) (hp : p.producer.Between) (hq : q.producer.Between) : Flows p q [] := by
  obtain ⟨hhand, huncounted⟩ := between_inHand hp
  obtain ⟨hhand', huncounted'⟩ := between_inHand hq
  exact h.flows (by rw [hhand, hhand']) (by rw [huncounted, huncounted'])

/-! ## The producer -/

theorem opened_quiet (answer : Option SourceError) (p : Pump T) : Quiet p.queue p (p.opened answer) ∧
    ((p.opened answer).producer = .starting ∨ (p.opened answer).producer = .putting .failed ∨
      (p.opened answer).producer = .leaving) := by
  have hstart := Quiet.refl p
  rcases answer with _ | _ | _ | _
  · have hopened : Quiet p.queue p { p with connected := true, sessions := p.sessions + 1 } := { hstart with }
    have hconnects := (hopened.set (m := .rtcmSourceConnected) (by decide) (by decide) 1).add
      (m := .rtcmSourceConnects) (by decide) (by decide) 1
    refine ⟨?_, Or.inl rfl⟩
    unfold opened
    simp only
    split
    · have hreconnects := hconnects.add (m := .rtcmSourceReconnects) (by decide) (by decide) 1
      exact { hreconnects with }
    · exact { hconnects with }
  · exact ⟨((hstart.add (by decide) (by decide) _).close).turn _, Or.inr (Or.inr rfl)⟩
  · exact ⟨((hstart.add (by decide) (by decide) _).close).turn _, Or.inr (Or.inr rfl)⟩
  · exact ⟨hstart.turn _, Or.inr (Or.inl rfl)⟩

theorem reads_quiet (answer : Except SourceError (Bytes × ℚ)) (p : Pump T) : Quiet p.queue p (p.reads answer) ∧
    ((p.reads answer).producer = p.producer ∨ (∃ raw t, (p.reads answer).producer = .received raw t) ∨
      (p.reads answer).producer = .putting .failed ∨ (p.reads answer).producer = .leaving) := by
  have hstart := Quiet.refl p
  rcases answer with (_ | _ | _) | ⟨raw, t⟩
  · exact ⟨hstart, Or.inl rfl⟩
  · exact ⟨((hstart.add (by decide) (by decide) _).close).turn _, Or.inr (Or.inr (Or.inr rfl))⟩
  · exact ⟨hstart.turn _, Or.inr (Or.inr (Or.inl rfl))⟩
  · simp only [reads]
    split
    · split
      · exact ⟨hstart, Or.inl rfl⟩
      · exact ⟨hstart.close.turn _, Or.inr (Or.inr (Or.inr rfl))⟩
    · exact ⟨{ hstart with }, Or.inr (Or.inl ⟨raw, t, rfl⟩)⟩

/-- A pass of the loop: a chunk is dropped, or what was dropped is counted. -/
theorem discard_flows {retained : Retained} {chunks bytes : Nat}
    (hproducer : p.producer = .discarding retained chunks bytes) (hroom : chunks = 0 → bytes = 0) (answer : Answer) :
    (p.discard retained chunks bytes).producer.Room (p.discard retained chunks bytes).queue ∧
      Flows p (p.discard retained chunks bytes)
        (chunkEvents (E := E) ⟨p, .produce answer, p.discard retained chunks bytes⟩) := by
  have hbytes : p.producer.uncounted = bytes := by
    rw [hproducer]
    rfl
  unfold discard
  simp only [chunkEvents, hproducer]
  rcases hqueue : p.queue with _ | ⟨item, queue⟩
  · let counted := if chunks > 0 then
      (p.add .rtcmSourceHandoffChunksDropped chunks).add .rtcmSourceHandoffBytesDropped bytes else p
    have hcounted : counted.queue = [] ∧ counted.consumer = p.consumer ∧ counted.service = p.service ∧
        counted.metrics .rtcmSourceHandoffBytesDropped = p.metrics .rtcmSourceHandoffBytesDropped + bytes ∧
        counted.metrics .rtcmSourceHandoffBytesSuperseded = p.metrics .rtcmSourceHandoffBytesSuperseded := by
      by_cases hsome : chunks > 0
      · rw [show counted = (p.add .rtcmSourceHandoffChunksDropped chunks).add .rtcmSourceHandoffBytesDropped bytes from
          if_pos hsome]
        exact ⟨hqueue, rfl, rfl, rfl, rfl⟩
      · rw [show counted = p from if_neg hsome]
        exact ⟨hqueue, rfl, rfl, by simp [hroom (by omega)], rfl⟩
    obtain ⟨hempty, hconsumer, hservice, hdropped, hsuperseded⟩ := hcounted
    have hend : ∀ {q : Pump T}, Quiet [] counted q →
        q.producer.inHand = (Producer.discarding retained chunks bytes).inHand →
        q.producer.uncounted = 0 → Flows p q [] := by
      intro q hq hhand huncounted
      refine ⟨?_, ?_, ?_, ?_⟩
      · simp [carried, hproducer, hqueue, hq.queue, hq.consumer, hconsumer, hhand]
      · simp [hq.service, hservice]
      · simp [hq.dropped, hdropped, huncounted, hbytes]
      · simp [hq.superseded, hsuperseded]
    have hstart : Quiet [] counted counted := hempty ▸ Quiet.refl counted
    cases retained with
    | marker generation =>
      refine ⟨rfl, hend (Quiet.turn ?_ _) rfl rfl⟩
      by_cases hsome : chunks > 0
      · rw [if_pos hsome]
        exact hstart.add (by decide) (by decide) _
      · rw [if_neg hsome]
        exact hstart
    | chunk raw t generation =>
      exact ⟨hempty, hend ((hstart.add (m := .rtcmSourceHandoffResets) (by decide) (by decide) 1).turn _) rfl rfl⟩
  · rcases item with ⟨raw, t, g⟩ | g | _ | _
    · refine ⟨nofun, ?_, ?_, ?_, ?_⟩
      · have hsame : (Producer.discarding retained (chunks + 1) (bytes + raw.length)).inHand =
            (Producer.discarding retained chunks bytes).inHand := by cases retained <;> rfl
        simp only [carried, hproducer, hqueue, hsame, chunksOf_cons, Item.contents, met_singleton, reduceCtorEq, if_false,
          if_true, add_zero, zero_add]
        abel
      · simp
      · simp [hproducer, Producer.uncounted, add_assoc]
      · simp
    all_goals
      refine ⟨hroom, ?_, ?_, ?_, ?_⟩
      · simp [carried, hproducer, hqueue, Producer.inHand, Item.contents]
      · simp
      · simp [hproducer, Producer.uncounted]
      · simp

/-- `put_nowait` of an item; what follows it is in `next` and `full`. -/
theorem putNowait_flows {item : Item} {next full : Pump T → Pump T} (hnext : ∀ q, Quiet (p.queue ++ [item]) p q →
      (next q).producer.Room (next q).queue ∧ Flows p (next q) [])
    (hfull : p.queue.length ≥ maxsize → (full p).producer.Room (full p).queue ∧ Flows p (full p) []) :
    (p.putNowait item next full).producer.Room (p.putNowait item next full).queue ∧
      Flows p (p.putNowait item next full) [] := by
  unfold putNowait
  split
  · exact hnext _ (Quiet.put p item)
  · exact hfull (not_lt.mp ‹_›)

theorem Quiet.afterPut (h : Quiet items p q) (item : Item) (done : Bool) : Quiet items p (q.afterPut item done) ∧
    ((q.afterPut item done).producer = .reading ∨ (q.afterPut item done).producer = .finished) := by
  cases item with
  | started g =>
    cases done with
    | false => exact ⟨h.die, Or.inr rfl⟩
    | true => exact ⟨h.turn _, Or.inl rfl⟩
  | failed => exact ⟨h.die, Or.inr rfl⟩
  | done | chunk => exact ⟨h.turn _, Or.inr rfl⟩

/-- **The producer** keeps the account. -/
theorem produce_flows (hroom : p.producer.Room p.queue) (answer : Answer) :
    (p.produce answer).producer.Room (p.produce answer).queue ∧
      Flows p (p.produce answer) (chunkEvents (E := E) ⟨p, .produce answer, p.produce answer⟩) := by
  have hstart := Quiet.refl p
  unfold produce
  rcases hproducer : p.producer with
    _ | _ | ⟨retained, chunks, bytes⟩ | item | _ | ⟨raw, t⟩ | ⟨raw, t⟩ | ⟨raw, t, g⟩ | ⟨raw, t⟩ | ⟨raw, t, g⟩ |
      ⟨raw, t, g⟩ | _ | _
  all_goals rw [hproducer] at hroom
  · have hbetween : p.producer.Between := by rw [hproducer]; trivial
    simp only [chunkEvents, hproducer]
    split
    · exact ⟨rfl, (hstart.turn _).between hbetween trivial⟩
    · obtain ⟨hquiet, hafter⟩ := opened_quiet answer.opened p
      rcases hafter with hafter | hafter | hafter
      all_goals
        refine ⟨?_, hquiet.between hbetween ?_⟩
        · rw [hafter]
          trivial
        · rw [hafter]
          trivial
  · simp only [chunkEvents, hproducer]
    refine ⟨fun _ => rfl, Quiet.flows { hstart with } ?_ ?_⟩
    · rw [hproducer]
      rfl
    · rw [hproducer]
      rfl
  · exact discard_flows hproducer hroom answer
  · have hafter : ∀ {q : Pump T} (done : Bool), Quiet (p.queue ++ [item]) p q ∨ Quiet p.queue p q →
        (q.afterPut item done).producer.Room (q.afterPut item done).queue ∧ Flows p (q.afterPut item done) [] := by
      intro q done hq
      have hproducers : ∀ {r : Pump T}, r.producer = .reading ∨ r.producer = .finished →
          r.producer.Room r.queue ∧ r.producer.inHand = 0 ∧ r.producer.uncounted = 0 := by
        rintro r (hr | hr) <;> rw [hr] <;> exact ⟨trivial, rfl, rfl⟩
      rcases hq with hq | hq
      all_goals
        obtain ⟨hquiet, hturn⟩ := hq.afterPut item done
        obtain ⟨hkept, hhand, huncounted⟩ := hproducers hturn
        refine ⟨hkept, hquiet.flows ?_ (by rw [huncounted, hproducer]; rfl)⟩
        rw [hhand, hproducer]
        simp [Producer.inHand, show item.contents = 0 from hroom]
    simp only [chunkEvents, hproducer]
    split
    · exact hafter false (Or.inr hstart)
    · refine putNowait_flows (fun q hq => hafter true (Or.inl hq)) fun _ => ⟨?_, hstart.flows rfl rfl⟩
      rw [id, hproducer]
      exact hroom
  · have hbetween : p.producer.Between := by rw [hproducer]; trivial
    simp only [chunkEvents, hproducer]
    split
    · exact ⟨trivial, (hstart.close.turn _).between hbetween trivial⟩
    · obtain ⟨hquiet, hafter⟩ := reads_quiet answer.read p
      rcases hafter with hafter | ⟨raw, t, hafter⟩ | hafter | hafter
      · refine ⟨?_, hquiet.between hbetween (hafter ▸ hbetween)⟩
        rw [hafter, hproducer]
        trivial
      all_goals
        refine ⟨?_, hquiet.between hbetween ?_⟩
        · rw [hafter]
          trivial
        · rw [hafter]
          trivial
  · simp only [chunkEvents, hproducer]
    split
    · have hbetween : p.producer.Between := by rw [hproducer]; trivial
      exact ⟨trivial, hstart.die.between hbetween trivial⟩
    · refine ⟨trivial, ?_, ?_, ?_, ?_⟩
      · simp [carried, hproducer, Producer.inHand, add_comm]
      · simp
      · simp [hproducer, Producer.uncounted]
      · simp
  · simp only [chunkEvents, hproducer]
    exact ⟨trivial, (hstart.turn _).flows (by rw [hproducer]; rfl) (by rw [hproducer]; rfl)⟩
  · simp only [chunkEvents, hproducer]
    refine putNowait_flows (fun q hq => ⟨trivial, (hq.turn _).flows ?_ ?_⟩) fun _ =>
      ⟨trivial, (hstart.turn _).flows ?_ ?_⟩
    · rw [hproducer]
      simp [Producer.inHand, Item.contents, add_comm]
    all_goals
      rw [hproducer]
      rfl
  · simp only [chunkEvents, hproducer]
    refine ⟨fun _ => rfl, Quiet.flows { hstart with } ?_ ?_⟩
    · rw [hproducer]
      rfl
    · rw [hproducer]
      rfl
  · have hfull : ¬ p.queue.length ≥ maxsize := by
      rw [show p.queue = [] from hroom]
      decide
    simp only [chunkEvents, hproducer]
    refine putNowait_flows (fun q hq => ⟨?_, (hq.turn _).flows ?_ ?_⟩) fun hlength => absurd hlength hfull
    · show q.queue.length ≤ 1
      rw [hq.queue, show p.queue = [] from hroom]
      exact Nat.le_refl 1
    · rw [hproducer]
      simp [Producer.inHand, Item.contents]
    · rw [hproducer]
      rfl
  · have hfull : ¬ p.queue.length ≥ maxsize := by
      have hone : p.queue.length ≤ 1 := hroom
      simp only [maxsize]
      omega
    simp only [chunkEvents, hproducer]
    refine putNowait_flows (fun q hq => ⟨trivial, (hq.turn _).flows ?_ ?_⟩) fun hlength => absurd hlength hfull
    · rw [hproducer]
      simp [Producer.inHand, Item.contents, add_comm]
    · rw [hproducer]
      rfl
  · have hbetween : p.producer.Between := by rw [hproducer]; trivial
    simp only [chunkEvents, hproducer]
    split
    · exact ⟨rfl, (hstart.turn _).between hbetween trivial⟩
    · refine ⟨?_, (hstart.turn _).between hbetween ?_⟩
      · show Producer.Room _ (if answer.stopped then .finished else .opening)
        split <;> trivial
      · show Producer.Between (if answer.stopped then .finished else .opening)
        split <;> trivial
  · simp only [chunkEvents, hproducer]
    exact ⟨trivial, hstart.flows rfl rfl⟩

/-! ## The consumer -/

/-- In the section under the lock: the bytes that the service takes in and those that are superseded. -/
structure Serves (p q : Pump T) (ingested superseded : Nat) : Prop where
  queue : q.queue = p.queue
  producer : q.producer = p.producer
  generation : q.generation = p.generation
  input : q.service.metrics .rtcmInputBytes = p.service.metrics .rtcmInputBytes + ingested
  dropped : q.metrics .rtcmSourceHandoffBytesDropped = p.metrics .rtcmSourceHandoffBytesDropped
  superseded : q.metrics .rtcmSourceHandoffBytesSuperseded = p.metrics .rtcmSourceHandoffBytesSuperseded + superseded

theorem Serves.trans {r : Pump T} {a b a' b' : Nat} (h : Serves p q a b) (h' : Serves q r a' b') :
    Serves p r (a + a') (b + b') where
  queue := h'.queue.trans h.queue
  producer := h'.producer.trans h.producer
  generation := h'.generation.trans h.generation
  input := by rw [h'.input, h.input, Nat.cast_add, add_assoc]
  dropped := h'.dropped.trans h.dropped
  superseded := by rw [h'.superseded, h.superseded, Nat.cast_add, add_assoc]

theorem Serves.none (hqueue : q.queue = p.queue) (hproducer : q.producer = p.producer)
    (hgeneration : q.generation = p.generation) (hservice : q.service = p.service)
    (hdropped : q.metrics .rtcmSourceHandoffBytesDropped = p.metrics .rtcmSourceHandoffBytesDropped)
    (hsuperseded : q.metrics .rtcmSourceHandoffBytesSuperseded = p.metrics .rtcmSourceHandoffBytesSuperseded) :
    Serves p q 0 0 :=
  ⟨hqueue, hproducer, hgeneration, by rw [hservice]; simp, hdropped, by rw [hsuperseded]; simp⟩

section Guarded

variable [Transport T E]

theorem serve_serves (i : Input E) (p : Pump T) : Serves p (p.serve i) (BaseService.takenIn i) 0 :=
  ⟨rfl, rfl, rfl, BaseService.next_takenIn i p.service, rfl, (add_zero _).symm⟩

theorem follow_serves (p : Pump T) : Serves p (p.follow (E := E)) 0 0 := by
  unfold follow
  split
  · have hfollow : Serves p ({ p with activeGeneration := p.generation }.note .reset) 0 0 := .none rfl rfl rfl rfl rfl rfl
    have hreset := hfollow.trans (serve_serves (.resetSource : Input E) _)
    have hcount : ∀ q : Pump T, Serves q (q.add .rtcmSourceParserResets 1) 0 0 := fun _ => .none rfl rfl rfl rfl rfl rfl
    exact hreset.trans (hcount _)
  · exact .none rfl rfl rfl rfl rfl rfl

/-- The item in hand is a chunk that is ingested or superseded, or none. -/
theorem hand_serves {item : Option Item} (hp : p.consumer = .holding item) (stopped : Bool) (io : E) (now : ℚ)
    (q : Pump T) :
    met .passed (chunkEvents ⟨p, .consume stopped io now, q⟩) = 0 ∧
      met .dropped (chunkEvents ⟨p, .consume stopped io now, q⟩) = 0 ∧
      p.consumer.inHand = met .ingested (chunkEvents ⟨p, .consume stopped io now, q⟩) +
        met .superseded (chunkEvents ⟨p, .consume stopped io now, q⟩) ∧
      ∀ r : Pump T, r.generation = p.generation →
        Serves r (r.hand (E := E) item) (bytesOf (met .ingested (chunkEvents ⟨p, .consume stopped io now, q⟩)))
          (bytesOf (met .superseded (chunkEvents ⟨p, .consume stopped io now, q⟩))) := by
  simp only [chunkEvents, hp]
  rcases item with _ | ⟨raw, t, g⟩ | g | _ | _
  · exact ⟨rfl, rfl, rfl, fun r _ => .none rfl rfl rfl rfl rfl rfl⟩
  · by_cases hg : g = p.generation
    · simp only [if_pos hg]
      refine ⟨by simp, by simp, by simp [Consumer.inHand, Item.contents], fun r hr => ?_⟩
      have hnote : Serves r (r.note (.fed g raw)) 0 0 := .none rfl rfl rfl rfl rfl rfl
      have hserve := hnote.trans (serve_serves (.ingest raw t : Input E) _)
      unfold hand
      simp only
      rw [if_neg (not_not.mpr (hg.trans hr.symm))]
      simpa [BaseService.takenIn] using hserve
    · simp only [if_neg hg]
      refine ⟨by simp, by simp, by simp [Consumer.inHand, Item.contents], fun r hr => ?_⟩
      unfold hand
      simp only
      rw [if_pos (fun h => hg (h.trans hr))]
      exact ⟨rfl, rfl, rfl, by simp [add], rfl, by simp [add, Metrics.add_apply]⟩
  · refine ⟨rfl, rfl, rfl, fun r _ => ?_⟩
    unfold hand
    simp only
    split
    · exact .none rfl rfl rfl rfl rfl rfl
    · exact .none rfl rfl rfl rfl rfl rfl
  · exact ⟨rfl, rfl, rfl, fun r _ => .none rfl rfl rfl rfl rfl rfl⟩
  · exact ⟨rfl, rfl, rfl, fun r _ => .none rfl rfl rfl rfl rfl rfl⟩

/-- The item in hand arrives. -/
theorem guarded_flows {item : Option Item} (hp : p.consumer = .holding item) (hroom : p.producer.Room p.queue)
    (stopped : Bool) (io : E) (now : ℚ) :
    (p.guarded item io now).producer.Room (p.guarded item io now).queue ∧
      Flows p (p.guarded item io now) (chunkEvents ⟨p, .consume stopped io now, p.guarded item io now⟩) := by
  obtain ⟨hpassed, hdropped, hhand, hserves⟩ := hand_serves hp stopped io now (p.guarded item io now)
  generalize chunkEvents ⟨p, .consume stopped io now, p.guarded item io now⟩ = L at hpassed hdropped hhand hserves
  have hall := ((follow_serves p).trans (hserves _ (follow_serves (E := E) p).generation)).trans
    (serve_serves (.step io now : Input E) _)
  simp only [BaseService.takenIn, zero_add, add_zero] at hall
  have hconsumer : (p.guarded item io now).consumer.inHand = 0 := by
    show (if _ then Consumer.ended else .ticking).inHand = 0
    split <;> rfl
  refine ⟨?_, ?_, hall.input, ?_, hall.superseded⟩
  · show ((p.follow.hand item).serve (.step io now)).producer.Room ((p.follow.hand item).serve (.step io now)).queue
    rw [hall.queue, hall.producer]
    exact hroom
  · show p.carried + met .passed L =
      ((p.follow.hand item).serve (.step io now)).producer.inHand + chunksOf
        ((p.follow.hand item).serve (.step io now)).queue +
        (p.guarded item io now).consumer.inHand + (met .ingested L + met .dropped L + met .superseded L)
    rw [hconsumer, hall.queue, hall.producer, hpassed, hdropped, carried, hhand]
    abel
  · show ((p.follow.hand item).serve (.step io now)).metrics .rtcmSourceHandoffBytesDropped +
      (((p.follow.hand item).serve (.step io now)).producer.uncounted : Int) = _
    rw [hall.dropped, hall.producer, hdropped]
    simp

end Guarded

theorem get_flows (hp : p.consumer = .getting) (hroom : p.producer.Room p.queue) :
    p.get.producer.Room p.get.queue ∧ Flows p p.get [] := by
  unfold get
  rcases hqueue : p.queue with _ | ⟨item, queue⟩
  · simp only
    refine ⟨hroom.less (Nat.zero_le _), ?_, by simp, by simp, by simp⟩
    simp [carried, hp, hqueue, Consumer.inHand]
  · have hless : p.producer.Room queue := hroom.less (by simp [hqueue])
    rcases item with ⟨raw, t, g⟩ | g | _ | _
    all_goals
      refine ⟨hless, ?_, by simp, by simp, by simp⟩
      simp [carried, hp, hqueue, Consumer.inHand, Item.contents, add_comm]

/-- **The consumer** keeps the account. -/
theorem consume_flows [Transport T E] (hroom : p.producer.Room p.queue) (stopped : Bool) (io : E) (now : ℚ) :
    (p.consume stopped io now).producer.Room (p.consume stopped io now).queue ∧
      Flows p (p.consume stopped io now) (chunkEvents ⟨p, .consume stopped io now, p.consume stopped io now⟩) := by
  have hturn : ∀ {q : Pump T}, q.queue = p.queue → q.producer = p.producer → q.service = p.service →
      q.metrics .rtcmSourceHandoffBytesDropped = p.metrics .rtcmSourceHandoffBytesDropped →
      q.metrics .rtcmSourceHandoffBytesSuperseded = p.metrics .rtcmSourceHandoffBytesSuperseded →
      q.consumer.inHand = p.consumer.inHand → q.producer.Room q.queue ∧ Flows p q [] := by
    intro q hqueue hproducer hservice hdropped hsuperseded hhand
    refine ⟨by rw [hqueue, hproducer]; exact hroom, ?_, ?_, ?_, ?_⟩
    · simp [carried, hqueue, hproducer, hhand]
    · simp [hservice]
    · simp [hdropped, hproducer]
    · simp [hsuperseded]
  unfold consume
  rcases hconsumer : p.consumer with _ | _ | item | _ | _
  · simp only [chunkEvents, hconsumer]
    refine hturn (q := { p with activeGeneration := p.generation, consumer := .getting }) rfl rfl rfl rfl rfl ?_
    rw [hconsumer]
    rfl
  · simp only [chunkEvents, hconsumer]
    split
    · refine hturn (q := { p with consumer := .ended }) rfl rfl rfl rfl rfl ?_
      rw [hconsumer]
      rfl
    · exact get_flows hconsumer hroom
  · exact guarded_flows hconsumer hroom stopped io now
  · simp only [chunkEvents, hconsumer]
    refine hturn (q := p.tick now) rfl rfl rfl rfl rfl ?_
    rw [hconsumer]
    show (if _ then Consumer.ended else .getting).inHand = 0
    split <;> rfl
  · simp only [chunkEvents, hconsumer]
    exact hturn rfl rfl rfl rfl rfl rfl

/-! ## Every run -/

variable [Transport T E]

/-- The account of a run whose chunk events so far are `L`: every chunk that was passed has arrived, or is carried. -/
structure Accounted (L : List (ChunkEvent × Chunk)) (p : Pump T) : Prop where
  room : p.producer.Room p.queue
  chunks : met .passed L = p.carried + (met .ingested L + met .dropped L + met .superseded L)
  input : p.service.metrics .rtcmInputBytes = bytesOf (met .ingested L)
  dropped : p.metrics .rtcmSourceHandoffBytesDropped + p.producer.uncounted = bytesOf (met .dropped L)
  superseded : p.metrics .rtcmSourceHandoffBytesSuperseded = bytesOf (met .superseded L)

theorem Accounted.flows {L L' : List (ChunkEvent × Chunk)} (h : Accounted L p) (hroom : q.producer.Room q.queue)
    (hflows : Flows p q L') : Accounted (L ++ L') q where
  room := hroom
  chunks := by
    simp only [met_append]
    calc met .passed L + met .passed L'
        = p.carried + met .passed L' + (met .ingested L + met .dropped L + met .superseded L) := by rw [h.chunks]; abel
      _ = q.carried + (met .ingested L + met .ingested L' + (met .dropped L + met .dropped L') +
            (met .superseded L + met .superseded L')) := by rw [hflows.chunks]; abel
  input := by rw [hflows.input, h.input, met_append, bytesOf_add, Nat.cast_add]
  dropped := by rw [hflows.dropped, h.dropped, met_append, bytesOf_add, Nat.cast_add]
  superseded := by rw [hflows.superseded, h.superseded, met_append, bytesOf_add, Nat.cast_add]

theorem next_accounted {L : List (ChunkEvent × Chunk)} (h : Accounted L p) (i : PumpInput E) :
    Accounted (L ++ chunkEvents ⟨p, i, next i p⟩) (next i p) := by
  have hstart : Accounted L { p with log := [] } := { h with }
  cases i with
  | produce answer =>
    obtain ⟨hroom, hflows⟩ := produce_flows (E := E) hstart.room answer
    exact hstart.flows hroom hflows
  | consume stopped io now =>
    obtain ⟨hroom, hflows⟩ := consume_flows hstart.room stopped io now
    exact hstart.flows hroom hflows

theorem init_accounted (typ : SourceType) (t : T) : Accounted [] (init typ t) := ⟨trivial, rfl, rfl, rfl, rfl⟩

theorem run_accounted (typ : SourceType) (t : T) (is : List (PumpInput E)) :
    Accounted (outputs chunkEvents (trace next (init typ t) is)) (run next (init typ t) is) := by
  have hrun := run_rel (G := fun _ => True) (P := Accounted) (f := chunkEvents) (init_accounted typ t)
    (fun L i p h _ => next_accounted (p := p) h i) is fun _ _ => trivial
  rwa [List.nil_append] at hrun

/-- **The handoff conserves bytes**, in every run of the two threads: whenever the producer is between two calls and the
consumer has nothing in hand, every chunk passed to `_put_fresh` has been ingested, dropped or superseded, or is in the
queue, and only one of these; so are the bytes, as the metrics count them. `put_nowait` of a marker and of the chunk
behind it finds room in the queue. -/
theorem handoff_conserved (typ : SourceType) (t : T) (is : List (PumpInput E)) :
    ((run next (init typ t) is).producer.Between → (run next (init typ t) is).consumer.Between →
      met .passed (outputs chunkEvents (trace next (init typ t) is)) =
        met .ingested (outputs chunkEvents (trace next (init typ t) is)) +
        met .dropped (outputs chunkEvents (trace next (init typ t) is)) +
        met .superseded (outputs chunkEvents (trace next (init typ t) is)) + chunksOf (run next (init typ t) is).queue ∧
      (bytesOf (met .passed (outputs chunkEvents (trace next (init typ t) is))) : Int) =
        (run next (init typ t) is).service.metrics .rtcmInputBytes +
        (run next (init typ t) is).metrics .rtcmSourceHandoffBytesDropped +
        (run next (init typ t) is).metrics .rtcmSourceHandoffBytesSuperseded +
        bytesOf (chunksOf (run next (init typ t) is).queue)) ∧
    ∀ raw receivedAt generation,
      (run next (init typ t) is).producer = .marking raw receivedAt generation ∨
        (run next (init typ t) is).producer = .retaining raw receivedAt generation →
      (run next (init typ t) is).queue.length < maxsize := by
  have h := run_accounted typ t is
  generalize run next (init typ t) is = p at h
  generalize outputs chunkEvents (trace next (init typ t) is) = L at h
  refine ⟨fun hproducer hconsumer => ?_, fun raw receivedAt generation hput => ?_⟩
  · obtain ⟨hhand, huncounted⟩ := between_inHand hproducer
    have hcarried : p.carried = chunksOf p.queue := by
      have hnone : p.consumer.inHand = 0 := by
        cases hc : p.consumer with
        | holding item =>
          rw [hc] at hconsumer
          exact hconsumer.elim
        | _ => rfl
      rw [carried, hhand, hnone, zero_add, add_zero]
    have hchunks := h.chunks
    rw [hcarried, add_comm] at hchunks
    refine ⟨hchunks, ?_⟩
    have hdropped := h.dropped
    rw [huncounted, Nat.cast_zero, add_zero] at hdropped
    rw [hchunks, h.input, hdropped, h.superseded]
    simp only [bytesOf_add, Nat.cast_add]
  · have hroom := h.room
    rcases hput with hput | hput
    · rw [hput] at hroom
      rw [show p.queue = [] from hroom]
      decide
    · rw [hput] at hroom
      have hone : p.queue.length ≤ 1 := hroom
      simp only [maxsize]
      omega

end Pump

end LoraLink.Service
