import LoraLink.Service.Conserve
import LoraLink.Service.Ledger
import LoraLink.Service.Lossless
import LoraLink.Service.Shutdown

/-!
# What becomes of the input

- `Parses`: between two resets of the parser, the frames that the service takes in are those of the bytes it is fed, in
  every run of the two threads (`segments_parsed`);
- `Last`, `Direct`: `None` is the last item of the queue, and as long as nothing has been dropped, what was read is what
  was fed, what is on its way, and what the producer has in hand, in this order;
- `input_drained`: so once `source_done` is set nothing is on its way any more, every byte read is accounted for, and
  if nothing was dropped, the frames taken in are those of the whole input.
-/

namespace LoraLink.Service

open LoraLink.Application LoraLink.Rtcm LoraLink.Host Prog
open RtcmStreamParser (parse remainder feed_parse)

variable {T E : Type}

/-! ## The frames of a chunk -/

namespace BaseService

/-- The frames that this call has queued so far. -/
def Queued (L : List RtcmFrame) (b : BaseService T) : Prop := ingestedFrames b.log = L

variable {L : List RtcmFrame}

theorem queued_set (name : Metric) (value : Int) :
    Triple (Queued L) (set name value : Op T Unit) (Returns fun _ => Queued L) :=
  fun _ h => h

theorem queued_add (name : Metric) (amount : Nat) :
    Triple (Queued L) (add name amount : Op T Unit) (Returns fun _ => Queued L) :=
  fun _ h => h

theorem enqueue_queued (f : RtcmFrame) :
    Triple (Queued L) (enqueue f : Op T Unit) (Returns fun _ => Queued (L ++ [f])) := by
  have hpush : ∀ b : BaseService T, Queued L b → Queued (L ++ [f])
      { b with queue := b.queue ++ [f], log := b.log ++ [.ingested f] } := by
    intro b h
    exact (ingestedFrames_append _ _).trans (congrArg (· ++ [f]) h)
  have hoverflow : Triple (Queued (L ++ [f])) (overflow : Op T Unit) (Returns fun _ => Queued (L ++ [f])) := by
    refine Triple.seq (Triple.modify (R := Queued (L ++ [f])) fun b h => ?_) fun _ => queued_add _ _
    exact (ingestedFrames_append _ _).trans ((List.append_nil _).trans h)
  refine (Triple.modify hpush).seq fun _ => Triple.get_bind fun b _ => ?_
  refine (Triple.when (fun _ => hoverflow) fun _ _ h => h).seq fun _ => ?_
  exact (queued_add _ _).seq fun _ => queued_add _ _

theorem enqueueAll_queued (frames : List RtcmFrame) : ∀ L : List RtcmFrame,
    Triple (Queued L) (forEach enqueue frames : Op T Unit) (Returns fun _ => Queued (L ++ frames)) := by
  induction frames with
  | nil =>
    intro L b h
    exact h.trans (List.append_nil L).symm
  | cons f frames ih =>
    intro L
    have hrest := ih (L ++ [f])
    rw [List.append_assoc] at hrest
    exact (enqueue_queued f).seq fun _ => hrest

/-- The frames that the parser makes of a chunk are queued in their order. -/
theorem ingest_queued (chunk : Bytes) (now : ℚ) (b : BaseService T) (h : b.log = []) :
    Queued (b.parser.feed chunk now).2 (ingest chunk now b).2 ∧ ∃ n, (ingest chunk now b).1 = .ok n := by
  have hspec : Triple (fun b' => b' = b) (ingest chunk now : Op T Nat)
      (Returns fun _ => Queued (b.parser.feed chunk now).2) := by
    refine Triple.get_bind_eq fun b' hb' => ?_
    rw [hb']
    generalize b.parser.feed chunk now = r
    obtain ⟨parser, frames⟩ := r
    have hparser : ∀ b' : BaseService T, b' = b → Queued []
        { b' with parser := parser, inputRate := b'.inputRate ++ [(now, chunk.length, frames.length)] } := by
      rintro _ rfl
      exact congrArg ingestedFrames h
    have hrates : Triple (Queued frames) (updateRates now : Op T Unit) (Returns fun _ => Queued frames) := by
      have hrecent : ∀ b : BaseService T, Queued frames b → Queued frames
          { b with inputRate := recent now b.inputRate, loraRate := recent now b.loraRate } := fun _ h => h
      refine (Triple.modify hrecent).seq fun _ => Triple.get_bind fun b _ => ?_
      exact (queued_set _ _).seq fun _ => (queued_set _ _).seq fun _ => queued_set _ _
    have hgauges : Triple (Queued frames) (updateQueueMetrics now : Op T Unit) (Returns fun _ => Queued frames) := by
      refine Triple.get_bind fun b _ => (queued_set _ _).seq fun _ => (queued_set _ _).seq fun _ => ?_
      exact (queued_set _ _).seq fun _ => queued_set _ _
    refine (Triple.modify hparser).seq fun _ => (queued_add _ _).seq fun _ => (enqueueAll_queued frames []).seq
      fun _ => ?_
    exact hgauges.seq fun _ => (queued_set _ _).seq fun _ => hrates.seq fun _ _ h => h
  obtain ⟨n, b', hcall, hqueued⟩ := hspec.ends rfl
  rw [hcall]
  exact ⟨hqueued, n, rfl⟩

variable [Transport T E]

theorem next_ingest_queued (chunk : Bytes) (now : ℚ) (b : BaseService T) :
    ingestedFrames (next (.ingest chunk now : Input E) b).log = (b.parser.feed chunk now).2 := by
  obtain ⟨hqueued, n, hreturns⟩ := ingest_queued chunk now { b with log := [] } rfl
  simp only [next, call]
  rcases hcall : ingest chunk now { b with log := [] } with ⟨r, b'⟩
  rw [hcall] at hqueued hreturns
  obtain rfl : r = .ok n := hreturns
  exact hqueued

/-- No event of a step queues a frame. -/
theorem stepShape_queued {now : ℚ} {outcomes session stales load sending : List Event}
    (h : StepShape now outcomes session stales load sending) :
    ingestedFrames (outcomes ++ session ++ stales ++ load ++ sending) = [] := by
  refine List.filterMap_eq_nil_iff.mpr fun e he => ?_
  simp only [List.mem_append] at he
  rcases he with (((he | he) | he) | he) | he
  · have hout := h.outcomes e he
    cases e <;> first | exact hout.elim | rfl
  · rcases h.session with hnone | ⟨s, hs⟩
    · rw [hnone] at he
      exact absurd he List.not_mem_nil
    · rw [hs] at he
      rw [List.mem_singleton.mp he]
  · obtain ⟨f, rfl⟩ := h.stales e he
    rfl
  · rcases h.load with hnone | ⟨f, fragments, hload⟩ | ⟨f, hload⟩
    · rw [hnone] at he
      exact absurd he List.not_mem_nil
    all_goals
      rw [hload] at he
      rw [List.mem_singleton.mp he]
  · cases h.sending with
    | nothing => exact absurd he List.not_mem_nil
    | expired => rw [List.mem_singleton.mp he]
    | refused f | sent f sequence payload =>
      simp only [List.mem_cons, List.not_mem_nil, or_false] at he
      rcases he with rfl | rfl <;> rfl

/-- No other call queues a frame. -/
theorem next_other_queued {i : Input E} (hi : ∀ chunk now, i ≠ .ingest chunk now) (b : BaseService T) :
    ingestedFrames (next i b).log = [] := by
  obtain ⟨-, -, -, -, hlog⟩ := next_path i (shows_outbox b) rfl
  generalize (next i b).log = L at hlog
  cases hlog with
  | ingest h => exact absurd rfl (hi _ _)
  | resetSource => rfl
  | step h => exact stepShape_queued h
  | raised h e =>
    rw [ingestedFrames_append]
    cases h with
    | early => rfl
    | late hshape f =>
      have hbefore := stepShape_queued hshape
      rw [List.append_nil] at hbefore
      rw [ingestedFrames_append, hbefore]
      rfl

end BaseService

namespace Pump

/-! ## Between two resets -/

def parsing (r : List (List Bytes) × List Bytes) : PumpEvent → List (List Bytes) × List Bytes
  | .reset => (r.1 ++ [r.2], [])
  | .served (.ingested f) => (r.1, r.2 ++ [f.raw])
  | _ => r

/-- The frames that the service has taken in between one reset of the parser and the next, and those since the last. -/
def parsedRuns (H : List PumpEvent) : List (List Bytes) × List Bytes := H.foldl parsing ([], [])

theorem parsedRuns_append (H H' : List PumpEvent) : parsedRuns (H ++ H') = H'.foldl parsing (parsedRuns H) :=
  List.foldl_append

/-- Events of the service add the frames queued. -/
theorem parsing_served (es : List Event) : ∀ r : List (List Bytes) × List Bytes,
    (es.map PumpEvent.served).foldl parsing r = (r.1, r.2 ++ (ingestedFrames es).map RtcmFrame.raw) := by
  induction es with
  | nil => exact fun r => Prod.ext rfl (List.append_nil _).symm
  | cons e es ih =>
    intro r
    rw [List.map_cons, List.foldl_cons, ih]
    cases e with
    | ingested f => exact Prod.ext rfl (List.append_assoc _ _ _)
    | _ => rfl

/-- What was taken in is what the bytes fed are parsed to, and the parser keeps what they leave. -/
structure Parses (H : List PumpEvent) (p : Pump T) : Prop where
  runs : (parsedRuns H).1 = (fedRuns H).1.map parse
  last : (parsedRuns H).2 = parse (fedRuns H).2
  buffer : p.service.parser.buffer = remainder (fedRuns H).2

variable {H : List PumpEvent} {p q : Pump T}

/-- Events that neither reset nor feed the parser, with frames of none. -/
theorem Parses.quiet (h : Parses H p) {L : List PumpEvent} (hfed : fedRuns (H ++ L) = fedRuns H)
    (hparsed : parsedRuns (H ++ L) = parsedRuns H) (hservice : q.service.parser.buffer = p.service.parser.buffer) :
    Parses (H ++ L) q where
  runs := by rw [hfed, hparsed, h.runs]
  last := by rw [hfed, hparsed, h.last]
  buffer := by rw [hfed, hservice, h.buffer]

/-- A step of the producer does not touch the parser. -/
theorem produce_parses (h : Parses H p) (hlog : p.log = []) (answer : Answer) :
    Parses (H ++ (p.produce answer).log) (p.produce answer) := by
  have htells := produce_tells answer p
  have hservice : (p.produce answer).service.parser.buffer = p.service.parser.buffer := by rw [htells.service]
  rcases htells.log with ⟨hsilent, -⟩ | ⟨-, ⟨hopened, -⟩ | ⟨session, raw, hread, -⟩⟩
  · rw [hsilent, hlog]
    exact h.quiet (by rw [List.append_nil]) (by rw [List.append_nil]) hservice
  · rw [hopened, hlog]
    exact h.quiet (fedRuns_append _ _) (parsedRuns_append _ _) hservice
  · rw [hread, hlog]
    exact h.quiet (fedRuns_append _ _) (parsedRuns_append _ _) hservice

section Consumer

variable [Transport T E]

/-- Inside a step of the consumer. -/
structure Feeds (H : List PumpEvent) (p : Pump T) : Prop where
  parses : Parses (H ++ p.log) p
  bears : BaseService.Bears (fun _ => True) p.service

/-- A call of the service that neither feeds nor resets the parser. -/
theorem step_feeds (h : Feeds H p) (io : E) (now : ℚ) : Feeds H (p.serve (.step io now)) := by
  have hfrom := BaseService.next_step_from h.bears io now
  have hparser := hfrom.parser
  refine ⟨?_, hfrom.bears⟩
  have hnone : ingestedFrames (BaseService.next (.step io now) p.service).log = [] :=
    BaseService.next_other_queued (by simp) _
  have hlog : (p.serve (.step io now)).log = p.log ++ (BaseService.next (.step io now) p.service).log.map .served := rfl
  rw [hlog, ← List.append_assoc]
  refine h.parses.quiet (fedRuns_served _ _) ?_ (congrArg RtcmStreamParser.buffer hparser)
  rw [parsedRuns_append, parsing_served, hnone]
  exact Prod.ext rfl (List.append_nil _)

/-- A chunk is fed. -/
theorem feed_feeds (h : Feeds H p) (g : Nat) (raw : Bytes) (t : ℚ) :
    Feeds H (p.note (.fed g raw) |>.serve (.ingest raw t : Input E)) := by
  have hfrom := BaseService.next_ingest_from (E := E) h.bears raw t fun _ _ => trivial
  have hparser := hfrom.parser
  have hqueued := BaseService.next_ingest_queued (E := E) raw t p.service
  have hlog : (p.note (.fed g raw) |>.serve (.ingest raw t : Input E)).log =
      p.log ++ [.fed g raw] ++ (BaseService.next (.ingest raw t : Input E) p.service).log.map .served := rfl
  have hfed : fedRuns (H ++ p.log ++ [.fed g raw]) = ((fedRuns (H ++ p.log)).1, (fedRuns (H ++ p.log)).2 ++ raw) :=
    fedRuns_append _ _
  have hparsed : parsedRuns (H ++ p.log ++ [.fed g raw]) = parsedRuns (H ++ p.log) := parsedRuns_append _ _
  obtain ⟨hmore, hrest⟩ := feed_parse h.parses.buffer raw t
  refine ⟨?_, hfrom.bears⟩
  rw [hlog, ← List.append_assoc, ← List.append_assoc]
  refine ⟨?_, ?_, ?_⟩
  · rw [fedRuns_served, hfed, parsedRuns_append, parsing_served, hparsed]
    exact h.parses.runs
  · rw [fedRuns_served, hfed, parsedRuns_append, parsing_served, hparsed, hqueued, hmore, h.parses.last]
  · rw [fedRuns_served, hfed, ← hrest]
    exact congrArg RtcmStreamParser.buffer hparser

/-- The parser is reset. -/
theorem reset_feeds (h : Feeds H p) : Feeds H (p.note .reset |>.serve (.resetSource : Input E)) := by
  have hfrom := BaseService.next_resetSource_from (E := E) (P := fun _ => True) p.service
  have hparser := hfrom.parser
  have hnone : ingestedFrames (BaseService.next (.resetSource : Input E) p.service).log = [] :=
    BaseService.next_other_queued (by simp) _
  have hlog : (p.note .reset |>.serve (.resetSource : Input E)).log =
      p.log ++ [.reset] ++ (BaseService.next (.resetSource : Input E) p.service).log.map .served := rfl
  have hfed : fedRuns (H ++ p.log ++ [.reset]) = ((fedRuns (H ++ p.log)).1 ++ [(fedRuns (H ++ p.log)).2], []) :=
    fedRuns_append _ _
  have hparsed : parsedRuns (H ++ p.log ++ [.reset]) =
      ((parsedRuns (H ++ p.log)).1 ++ [(parsedRuns (H ++ p.log)).2], []) :=
    parsedRuns_append _ _
  refine ⟨?_, hfrom.bears⟩
  rw [hlog, ← List.append_assoc, ← List.append_assoc]
  refine ⟨?_, ?_, ?_⟩
  · rw [fedRuns_served, hfed, parsedRuns_append, parsing_served, hparsed, List.map_append, h.parses.runs, h.parses.last]
    rfl
  · rw [fedRuns_served, hfed, parsedRuns_append, parsing_served, hparsed, hnone]
    rfl
  · rw [fedRuns_served, hfed]
    exact (congrArg RtcmStreamParser.buffer hparser).trans RtcmStreamParser.parse_nil.2.symm

/-- The whole section under the lock. -/
theorem guarded_feeds (h : Feeds H p) (item : Option Item) (io : E) (now : ℚ) : Feeds H (p.guarded item io now) := by
  have hfollow : Feeds H (p.follow (E := E)) := by
    unfold follow
    split
    · have hactive : Feeds H { p with activeGeneration := p.generation } := ⟨{ h.parses with }, h.bears⟩
      have hreset := reset_feeds (E := E) hactive
      exact ⟨{ hreset.parses with }, hreset.bears⟩
    · exact h
  have hhand : ∀ q : Pump T, Feeds H q → Feeds H (q.hand (E := E) item) := by
    intro q hq
    unfold hand
    split
    · split
      · exact ⟨{ hq.parses with }, hq.bears⟩
      · exact hq
    · split
      · exact ⟨{ hq.parses with }, hq.bears⟩
      · exact feed_feeds hq _ _ _
    · exact hq
  have hstep := step_feeds (hhand _ hfollow) io now
  exact ⟨{ hstep.parses with }, hstep.bears⟩

theorem consume_parses (h : Parses H p) (hlog : p.log = []) (hbears : BaseService.Bears (fun _ => True) p.service)
    (stopped : Bool) (io : E) (now : ℚ) : Parses (H ++ (p.consume stopped io now).log) (p.consume stopped io now) := by
  have hstart : Feeds H p := ⟨by rw [hlog, List.append_nil]; exact h, hbears⟩
  unfold consume
  split
  · exact { hstart.parses with }
  · split
    · exact { hstart.parses with }
    · unfold get
      split <;> exact { hstart.parses with }
  · exact (guarded_feeds hstart _ io now).parses
  · exact { hstart.parses with }
  · exact hstart.parses

theorem next_parses (hkept : Kept H p) (h : Parses H p) (i : PumpInput E) : Parses (H ++ (next i p).log) (next i p) := by
  have hstart : Parses H { p with log := [] } := { h with }
  cases i with
  | produce answer => exact produce_parses hstart rfl answer
  | consume stopped io now => exact consume_parses hstart rfl (hkept.bears.mono fun _ _ => trivial) stopped io now

theorem run_parses (typ : SourceType) (t : T) (is : List (PumpInput E)) :
    Parses (history (trace next (init typ t) is)) (run next (init typ t) is) := by
  have hrun := run_rel (G := fun _ => True) (f := eventsOf) (P := fun H p => Kept H p ∧ Parses H p) (H := [])
    ⟨init_kept typ t, rfl, rfl, rfl⟩
    (fun H i p h _ => ⟨(next_kept h.1 i).1, next_parses h.1 h.2 i⟩) is fun _ _ => trivial
  exact hrun.2

end Consumer

/-! ## The end of the queue -/

/-- The thread has ended without putting `None`. -/
def Dead (p : Pump T) : Prop := p.producer = .finished ∧ .done ∉ p.queue ∧ p.sourceDone = false

/-- `None` comes last. -/
structure Last (p : Pump T) : Prop where
  absent : p.producer ≠ .finished → .done ∉ p.queue ∧ p.sourceDone = false
  last : .done ∈ p.queue → ∃ l, p.queue = l ++ [.done] ∧ .done ∉ l
  empty : p.sourceDone = true → p.queue = [] ∧ ∀ item ∈ handed p.consumer, item = .done

/-- What the producer does to the queue: it puts an item, takes the first, or neither; `None` only as its last item. -/
structure Queues (p q : Pump T) : Prop where
  consumer : q.consumer = p.consumer
  sourceDone : q.sourceDone = p.sourceDone
  queue : (∀ item ∈ q.queue, item ∈ p.queue ∨ item ≠ .done) ∨
    p.producer = .putting .done ∧ q.queue = p.queue ++ [.done] ∧ q.producer = .finished

theorem Queues.same (hconsumer : q.consumer = p.consumer) (hdone : q.sourceDone = p.sourceDone)
    (hqueue : q.queue = p.queue) :
    Queues p q :=
  ⟨hconsumer, hdone, Or.inl fun _ hitem => Or.inl (hqueue ▸ hitem)⟩

theorem close_queues (p : Pump T) (producer : Producer) : Queues p { p.close with producer := producer } := by
  have hsame : p.close.consumer = p.consumer ∧ p.close.sourceDone = p.sourceDone ∧ p.close.queue = p.queue := by
    unfold close
    split <;> exact ⟨rfl, rfl, rfl⟩
  exact Queues.same hsame.1 hsame.2.1 hsame.2.2

theorem putNowait_queues {item : Item} (hitem : item ≠ .done) {next full : Pump T → Pump T}
    (hnext : Queues { p with queue := p.queue ++ [item] } (next { p with queue := p.queue ++ [item] }))
    (hproducer : p.producer ≠ .putting .done) (hfull : Queues p (full p)) : Queues p (p.putNowait item next full) := by
  unfold putNowait
  split
  · refine ⟨hnext.consumer, hnext.sourceDone, Or.inl fun other hother => ?_⟩
    rcases hnext.queue with hin | ⟨hputting, -, -⟩
    · rcases hin other hother with hin | hne
      · rcases List.mem_append.mp hin with hold | hnew
        · exact Or.inl hold
        · rw [List.mem_singleton.mp hnew]
          exact Or.inr hitem
      · exact Or.inr hne
    · exact absurd hputting hproducer
  · exact hfull

theorem opened_queues (answer : Option SourceError) (p : Pump T) : Queues p (p.opened answer) := by
  rcases answer with _ | _ | _ | _
  · simp only [opened]
    split <;> exact Queues.same rfl rfl rfl
  · exact { close_queues (p.add .rtcmSourceConnectFailures 1) _ with }
  · exact { close_queues (p.add .rtcmSourceConnectFailures 1) _ with }
  · exact Queues.same rfl rfl rfl

theorem reads_queues (answer : Except SourceError (Bytes × ℚ)) (p : Pump T) : Queues p (p.reads answer) := by
  rcases answer with (_ | _ | _) | ⟨raw, t⟩
  · exact Queues.same rfl rfl rfl
  · exact { close_queues (p.add .rtcmSourceReadFailures 1) _ with }
  · exact Queues.same rfl rfl rfl
  · simp only [reads]
    split
    · split
      · exact Queues.same rfl rfl rfl
      · exact close_queues p _
    · exact Queues.same rfl rfl rfl

theorem discard_queues (retained : Retained) (chunks bytes : Nat) (p : Pump T) :
    Queues p (p.discard retained chunks bytes) := by
  have hless : ∀ {first : Item} {queue : List Item}, p.queue = first :: queue → ∀ {q : Pump T}, q.consumer = p.consumer →
      q.sourceDone = p.sourceDone → q.queue = queue → Queues p q := by
    intro first queue hqueue q hconsumer hdone hq
    refine ⟨hconsumer, hdone, Or.inl fun item hitem => Or.inl ?_⟩
    rw [hqueue]
    exact List.mem_cons_of_mem first (hq ▸ hitem)
  unfold discard
  split
  · exact hless ‹_› rfl rfl rfl
  · exact hless ‹_› rfl rfl rfl
  · cases retained <;> simp only <;> split <;> exact Queues.same rfl rfl rfl

theorem afterPut_queues (item : Item) (done : Bool) (p : Pump T) : Queues p (p.afterPut item done) := by
  rcases item with ⟨raw, t, g⟩ | g | _ | _
  · exact Queues.same rfl rfl rfl
  · cases done with
    | false => exact close_queues p _
    | true => exact Queues.same rfl rfl rfl
  · exact close_queues p _
  · exact Queues.same rfl rfl rfl

theorem produce_queues (answer : Answer) (p : Pump T) : Queues p (p.produce answer) := by
  have hdie : Queues p p.die := close_queues p .finished
  unfold produce
  rcases hproducer : p.producer with
    _ | _ | ⟨retained, chunks, bytes⟩ | item | _ | ⟨raw, t⟩ | ⟨raw, t⟩ | ⟨raw, t, g⟩ | ⟨raw, t⟩ | ⟨raw, t, g⟩ |
      ⟨raw, t, g⟩ | _ | _
  all_goals simp only
  · split
    · exact Queues.same rfl rfl rfl
    · exact opened_queues _ p
  · exact Queues.same rfl rfl rfl
  · exact discard_queues _ _ _ p
  · split
    · exact afterPut_queues item false p
    · by_cases hitem : item = .done
      · subst hitem
        unfold putNowait
        split
        · exact ⟨rfl, rfl, Or.inr ⟨hproducer, rfl, rfl⟩⟩
        · exact Queues.same rfl rfl rfl
      · have hne : p.producer ≠ .putting .done := by
          rw [hproducer]
          exact fun heq => hitem (Producer.putting.inj heq)
        exact putNowait_queues hitem (afterPut_queues item true _) hne (Queues.same rfl rfl rfl)
  · split
    · exact close_queues p _
    · exact reads_queues _ p
  · split
    · exact close_queues p _
    · exact Queues.same rfl rfl rfl
  · exact Queues.same rfl rfl rfl
  · exact putNowait_queues (by simp) (Queues.same rfl rfl rfl) (by simp [hproducer]) (Queues.same rfl rfl rfl)
  · exact Queues.same rfl rfl rfl
  · exact putNowait_queues (by simp) (Queues.same rfl rfl rfl) (by simp [hproducer]) hdie
  · exact putNowait_queues (by simp) (Queues.same rfl rfl rfl) (by simp [hproducer]) hdie
  · split <;> exact Queues.same rfl rfl rfl
  · exact Queues.same rfl rfl rfl

theorem produce_finished (h : p.producer = .finished) (answer : Answer) : p.produce answer = p := by
  unfold produce
  rw [h]

theorem produce_last (h : Last p) (answer : Answer) : Last (p.produce answer) := by
  by_cases hfinished : p.producer = .finished
  · rwa [produce_finished hfinished]
  obtain ⟨habsent, hgoing⟩ := h.absent hfinished
  have hqueues := produce_queues answer p
  have hdone : (p.produce answer).sourceDone = false := hqueues.sourceDone.trans hgoing
  rcases hqueues.queue with hold | ⟨-, hput, hlast⟩
  · have hnone : .done ∉ (p.produce answer).queue := by
      intro hmem
      rcases hold _ hmem with hin | hne
      · exact habsent hin
      · exact hne rfl
    exact ⟨fun _ => ⟨hnone, hdone⟩, fun hmem => absurd hmem hnone,
      fun hover => absurd (hdone.symm.trans hover) (by decide)⟩
  · exact ⟨fun hne => absurd hlast hne, fun _ => ⟨p.queue, hput, habsent⟩,
      fun hover => absurd (hdone.symm.trans hover) (by decide)⟩

/-- A step of the consumer that takes nothing from the queue. -/
theorem Last.keep (h : Last p) (hproducer : q.producer = p.producer) (hqueue : q.queue = p.queue)
    (hdone : q.sourceDone = p.sourceDone) (hhanded : ∀ item ∈ handed q.consumer, item ∈ handed p.consumer) : Last q where
  absent := by rw [hproducer, hqueue, hdone]; exact h.absent
  last := by rw [hqueue]; exact h.last
  empty := by
    rw [hqueue, hdone]
    exact fun hover => ⟨(h.empty hover).1, fun item hitem => (h.empty hover).2 item (hhanded item hitem)⟩

theorem get_last (h : Last p) : Last p.get := by
  unfold get
  rcases hqueue : p.queue with _ | ⟨item, queue⟩
  · exact h.keep rfl hqueue.symm rfl nofun
  · have hgoing : p.sourceDone = false := by
      by_contra hover
      have hempty := (h.empty (by simpa using hover)).1
      rw [hqueue] at hempty
      exact absurd hempty (List.cons_ne_nil _ _)
    have hless : ∀ {q : Pump T}, q.producer = p.producer → q.queue = queue → q.sourceDone = p.sourceDone →
        item ≠ .done → Last q := by
      intro q hproducer hq hdone hitem
      refine ⟨fun hgo => ?_, fun hmem => ?_, fun hover => ?_⟩
      · obtain ⟨habsent, hfalse⟩ := h.absent (hproducer ▸ hgo)
        rw [hqueue] at habsent
        exact ⟨fun hmem => habsent (List.mem_cons_of_mem _ (hq ▸ hmem)), hdone.trans hfalse⟩
      · obtain ⟨l, hl, hnone⟩ := h.last (by rw [hqueue]; exact List.mem_cons_of_mem _ (hq ▸ hmem))
        rw [hqueue] at hl
        cases l with
        | nil => exact absurd (List.cons.inj hl).1 hitem
        | cons first l =>
          exact ⟨l, hq.trans (List.cons.inj hl).2, fun hin => hnone (List.mem_cons_of_mem _ hin)⟩
      · rw [hdone, hgoing] at hover
        exact absurd hover (by decide)
    rcases item with ⟨raw, t, g⟩ | g | _ | _
    · exact hless rfl rfl rfl (by simp)
    · exact hless rfl rfl rfl (by simp)
    · exact hless rfl rfl rfl (by simp)
    · obtain ⟨l, hl, hnone⟩ := h.last (by rw [hqueue]; exact List.mem_cons_self)
      have hend : queue = [] := by
        rw [hqueue] at hl
        cases l with
        | nil => exact (List.cons.inj hl).2
        | cons first l => exact absurd ((List.cons.inj hl).1 ▸ List.mem_cons_self) hnone
      have hfinished : p.producer = .finished := by
        by_contra hgo
        exact (h.absent hgo).1 (by rw [hqueue]; exact List.mem_cons_self)
      refine ⟨fun hgo => absurd hfinished hgo, fun hmem => ?_,
        fun _ => ⟨hend, fun item hitem => List.mem_singleton.mp hitem⟩⟩
      have hmem : .done ∈ queue := hmem
      rw [hend] at hmem
      exact absurd hmem List.not_mem_nil

section Consumer

variable [Transport T E]

/-- The section under the lock touches neither thread's places nor the queue. -/
theorem guarded_still (item : Option Item) (io : E) (now : ℚ) (p : Pump T) :
    (p.guarded item io now).queue = p.queue ∧ (p.guarded item io now).sourceDone = p.sourceDone ∧
      (p.guarded item io now).metrics .rtcmSourceHandoffResets = p.metrics .rtcmSourceHandoffResets ∧
      handed (p.guarded item io now).consumer = [] := by
  have hfollow : (p.follow (E := E)).queue = p.queue ∧ (p.follow (E := E)).sourceDone = p.sourceDone ∧
      (p.follow (E := E)).metrics .rtcmSourceHandoffResets = p.metrics .rtcmSourceHandoffResets := by
    unfold follow
    split <;> exact ⟨rfl, rfl, rfl⟩
  have hhand : ∀ q : Pump T, (q.hand (E := E) item).queue = q.queue ∧ (q.hand (E := E) item).sourceDone = q.sourceDone ∧
      (q.hand (E := E) item).metrics .rtcmSourceHandoffResets = q.metrics .rtcmSourceHandoffResets := by
    intro q
    unfold hand
    split
    · split <;> exact ⟨rfl, rfl, rfl⟩
    · split <;> exact ⟨rfl, rfl, rfl⟩
    · exact ⟨rfl, rfl, rfl⟩
  obtain ⟨hqueue, hdone, hresets⟩ := hhand (p.follow (E := E))
  refine ⟨hqueue.trans hfollow.1, hdone.trans hfollow.2.1, hresets.trans hfollow.2.2, ?_⟩
  simp only [guarded]
  split <;> rfl

theorem consume_last (h : Last p) (stopped : Bool) (io : E) (now : ℚ) : Last (p.consume stopped io now) := by
  unfold consume
  split
  · exact h.keep rfl rfl rfl nofun
  · split
    · exact h.keep rfl rfl rfl nofun
    · exact get_last h
  · obtain ⟨hqueue, hdone, -, hhanded⟩ := guarded_still _ io now p
    refine h.keep (guarded_leaves _ io now p).producer hqueue hdone fun item hitem => ?_
    rw [hhanded] at hitem
    exact absurd hitem List.not_mem_nil
  · refine h.keep rfl rfl rfl fun item hitem => ?_
    simp only [tick] at hitem
    split at hitem
    · exact absurd hitem List.not_mem_nil
    · exact absurd hitem List.not_mem_nil
  · exact h

theorem next_last (i : PumpInput E) (p : Pump T) (h : Last p) : Last (next i p) := by
  have hstart : Last { p with log := [] } := { h with }
  cases i with
  | produce answer => exact produce_last hstart answer
  | consume stopped io now => exact consume_last hstart stopped io now

theorem init_last (typ : SourceType) (t : T) : Last (init typ t) :=
  ⟨fun _ => ⟨List.not_mem_nil, rfl⟩, fun h => absurd h List.not_mem_nil, nofun⟩

end Consumer

/-! ## The bytes that were read -/

/-- What has been read from all sources. -/
def allRead (H : List PumpEvent) : Bytes := H.flatMap fun
  | .read _ raw => raw
  | _ => []

@[simp] theorem allRead_append (H L : List PumpEvent) : allRead (H ++ L) = allRead H ++ allRead L := List.flatMap_append

theorem allRead_fromSource {L : List PumpEvent} (h : ∀ e ∈ L, fromSource e = false) : allRead L = [] := by
  refine List.flatMap_eq_nil_iff.mpr fun e he => ?_
  cases e with
  | read session raw => exact absurd (h _ he) (by simp [fromSource])
  | opened | reset | fed | served => rfl

/-- The bytes of a chunk that has been read and not passed to `_put_fresh`. -/
def unpassed : Producer → Nat
  | .received raw _ => raw.length
  | _ => 0

/-- The bytes counted, and those on their way. -/
def total (p : Pump T) : Int :=
  p.service.metrics .rtcmInputBytes + (p.metrics .rtcmSourceHandoffBytesDropped + p.producer.uncounted) +
    p.metrics .rtcmSourceHandoffBytesSuperseded + bytesOf p.carried

theorem Flows.total {L : List (ChunkEvent × Chunk)} (h : Flows p q L) : q.total = p.total + bytesOf (met .passed L) := by
  have hchunks := congrArg bytesOf h.chunks
  simp only [bytesOf_add] at hchunks
  rw [Pump.total, h.input, h.dropped, h.superseded, Pump.total]
  omega

/-- Nothing has been read in this step, and no chunk is ahead of `_put_fresh`. -/
def Idle (p : Pump T) : Prop := allRead p.log = [] ∧ unpassed p.producer = 0

theorem close_idle (h : allRead p.log = []) {producer : Producer} (hproducer : unpassed producer = 0) :
    Idle { p.close with producer := producer } :=
  ⟨(congrArg allRead (close_same p).log).trans h, hproducer⟩

theorem putNowait_idle {item : Item} {next full : Pump T → Pump T}
    (hnext : Idle (next { p with queue := p.queue ++ [item] }))
    (hfull : Idle (full p)) : Idle (p.putNowait item next full) := by
  unfold putNowait
  split
  · exact hnext
  · exact hfull

theorem afterPut_idle (h : allRead p.log = []) (item : Item) (done : Bool) : Idle (p.afterPut item done) := by
  rcases item with ⟨raw, t, g⟩ | g | _ | _
  · exact ⟨h, rfl⟩
  · cases done with
    | false => exact close_idle h rfl
    | true => exact ⟨h, rfl⟩
  · exact close_idle h rfl
  · exact ⟨h, rfl⟩

theorem opened_idle (h : allRead p.log = []) (answer : Option SourceError) : Idle (p.opened answer) := by
  rcases answer with _ | _ | _ | _
  · simp only [opened]
    have hopened : allRead (p.log ++ [.opened]) = [] := (allRead_append _ _).trans ((List.append_nil _).trans h)
    split <;> exact ⟨hopened, rfl⟩
  · exact close_idle (p := p.add .rtcmSourceConnectFailures 1) h rfl
  · exact close_idle (p := p.add .rtcmSourceConnectFailures 1) h rfl
  · exact ⟨h, rfl⟩

theorem discard_idle (h : allRead p.log = []) (retained : Retained) (chunks bytes : Nat) :
    Idle (p.discard retained chunks bytes) := by
  unfold discard
  split
  · exact ⟨h, rfl⟩
  · exact ⟨h, rfl⟩
  · cases retained <;> simp only <;> split <;> exact ⟨h, rfl⟩

/-- Only `read` reads. -/
theorem produce_idle (answer : Answer) (h : allRead p.log = []) (hreading : p.producer ≠ .reading)
    (hreceived : ∀ raw t, p.producer ≠ .received raw t) : Idle (p.produce answer) := by
  unfold produce
  split
  · split
    · exact ⟨h, rfl⟩
    · exact opened_idle h _
  · exact ⟨h, rfl⟩
  · exact discard_idle h _ _ _
  · rename_i item hproducer
    split
    · exact afterPut_idle h _ _
    · refine putNowait_idle (afterPut_idle (p := { p with queue := p.queue ++ [item] }) h _ _) ⟨h, ?_⟩
      rw [id, hproducer]
      rfl
  · exact absurd ‹_› hreading
  · exact absurd ‹_› (hreceived _ _)
  · exact ⟨h, rfl⟩
  · exact putNowait_idle ⟨h, rfl⟩ ⟨h, rfl⟩
  · exact ⟨h, rfl⟩
  · exact putNowait_idle ⟨h, rfl⟩ (close_idle h rfl)
  · exact putNowait_idle ⟨h, rfl⟩ (close_idle h rfl)
  · split
    · exact ⟨h, rfl⟩
    · refine ⟨h, ?_⟩
      show unpassed (if answer.stopped then Producer.finished else .opening) = 0
      split <;> rfl
  · rename_i hproducer
    exact ⟨h, by rw [hproducer]; rfl⟩

/-- What `read` has read is ahead of `_put_fresh`. -/
theorem reads_unpassed (answer : Except SourceError (Bytes × ℚ)) (h : allRead p.log = [])
    (hproducer : p.producer = .reading) :
    unpassed (p.reads answer).producer = (allRead (p.reads answer).log).length := by
  have hidle : ∀ {q : Pump T}, Idle q → unpassed q.producer = (allRead q.log).length := by
    rintro q ⟨hread, hnone⟩
    rw [hread, hnone]
    rfl
  have hstay : Idle p := ⟨h, by rw [hproducer]; rfl⟩
  rcases answer with (_ | _ | _) | ⟨raw, t⟩
  · exact hidle hstay
  · exact hidle (close_idle (p := p.add .rtcmSourceReadFailures 1) h rfl)
  · exact hidle (q := p.reads (.error .invalid)) ⟨h, rfl⟩
  · simp only [reads]
    split
    · split
      · exact hidle hstay
      · exact hidle (close_idle h rfl)
    · have hread : allRead (p.log ++ [.read p.sessions raw]) = raw := by
        rw [allRead_append, h, List.nil_append]
        exact List.append_nil _
      exact (congrArg List.length hread).symm

/-- Only a chunk that has been received is passed. -/
theorem passed_none (answer : Answer) (q : Pump T) (hreceived : ∀ raw t, p.producer ≠ .received raw t) :
    met .passed (chunkEvents (E := E) ⟨p, .produce answer, q⟩) = 0 := by
  unfold chunkEvents
  simp only
  split
  · exact absurd ‹_› (hreceived _ _)
  · simp
  · rfl

/-- A chunk that is read is passed to `_put_fresh`, unless the thread ends there. -/
theorem produce_passed (answer : Answer) (p : Pump T) (hlog : p.log = []) :
    ((∃ raw t, p.producer = .received raw t) ∧ (p.produce answer).producer = .finished) ∨
      bytesOf (met .passed (chunkEvents (E := E) ⟨p, .produce answer, p.produce answer⟩)) +
          unpassed (p.produce answer).producer =
        unpassed p.producer + (allRead (p.produce answer).log).length := by
  have hnone : allRead p.log = [] := by rw [hlog]; rfl
  by_cases hreceived : ∃ raw t, p.producer = .received raw t
  · obtain ⟨raw, t, hproducer⟩ := hreceived
    by_cases hstopped : answer.stopped = true
    · refine Or.inl ⟨⟨raw, t, hproducer⟩, ?_⟩
      unfold produce
      rw [hproducer]
      simp only [hstopped, if_true]
      rfl
    · have hproduce : p.produce answer = { p with lastDataAt := some t, producer := .fresh raw t } := by
        unfold produce
        rw [hproducer]
        exact if_neg hstopped
      right
      rw [hproduce]
      simp only [chunkEvents, hproducer, met_singleton, if_true, bytesOf_singleton, hnone]
      rfl
  · have hno : ∀ raw t, p.producer ≠ .received raw t := fun raw t heq => hreceived ⟨raw, t, heq⟩
    right
    rw [passed_none answer _ hno, bytesOf_zero, Nat.zero_add]
    by_cases hreading : p.producer = .reading
    · rw [hreading, show unpassed .reading = 0 from rfl, Nat.zero_add]
      unfold produce
      rw [hreading]
      simp only
      split
      · have hidle : Idle { p.close with producer := .leaving } := close_idle hnone rfl
        rw [hidle.1]
        rfl
      · exact reads_unpassed _ hnone hreading
    · obtain ⟨hread, hunpassed⟩ := produce_idle answer hnone hreading hno
      have hbefore : unpassed p.producer = 0 := by
        cases hproducer : p.producer with
        | received raw t => exact absurd hproducer (hno raw t)
        | _ => rfl
      rw [hread, hunpassed, hbefore]
      rfl

/-- The bytes read are those counted and those on their way, unless the thread has ended with some in hand. -/
def Weighed (H : List PumpEvent) (p : Pump T) : Prop :=
  Dead p ∨ ((allRead H).length : Int) = p.total + unpassed p.producer

section Consumer

variable [Transport T E]

/-- The consumer only takes from the queue, and `source_done` is set when it has taken `None`. -/
theorem consume_takes (stopped : Bool) (io : E) (now : ℚ) (p : Pump T) :
    (∀ item ∈ (p.consume stopped io now).queue, item ∈ p.queue) ∧
      ((p.consume stopped io now).sourceDone = p.sourceDone ∨ .done ∈ p.queue) := by
  unfold consume
  split
  · exact ⟨fun _ h => h, Or.inl rfl⟩
  · split
    · exact ⟨fun _ h => h, Or.inl rfl⟩
    · unfold get
      rcases hqueue : p.queue with _ | ⟨item, queue⟩
      · exact ⟨fun _ hitem => hitem, Or.inl rfl⟩
      · rcases item with ⟨raw, t, g⟩ | g | _ | _
        · exact ⟨fun _ h => List.mem_cons_of_mem _ h, Or.inl rfl⟩
        · exact ⟨fun _ h => List.mem_cons_of_mem _ h, Or.inl rfl⟩
        · exact ⟨fun _ h => List.mem_cons_of_mem _ h, Or.inl rfl⟩
        · exact ⟨fun _ h => List.mem_cons_of_mem _ h, Or.inr List.mem_cons_self⟩
  · obtain ⟨hqueue, hdone, -⟩ := guarded_still _ io now p
    exact ⟨fun item hitem => hqueue ▸ hitem, Or.inl hdone⟩
  · exact ⟨fun _ h => h, Or.inl rfl⟩
  · exact ⟨fun _ h => h, Or.inl rfl⟩

theorem produce_weighed (hroom : p.producer.Room p.queue) (hlast : Last p) (h : Weighed H p) (hlog : p.log = [])
    (answer : Answer) : Weighed (H ++ (p.produce answer).log) (p.produce answer) := by
  by_cases hfinished : p.producer = .finished
  · rw [produce_finished hfinished, hlog, List.append_nil]
    exact h
  obtain ⟨habsent, hgoing⟩ := hlast.absent hfinished
  rcases h with ⟨hdead, -⟩ | hweight
  · exact absurd hdead hfinished
  have htotal := (produce_flows (E := Unit) hroom answer).2.total
  rcases produce_passed (E := Unit) answer p hlog with ⟨⟨raw, t, hproducer⟩, hend⟩ | hpassed
  · have hqueues := produce_queues answer p
    refine Or.inl ⟨hend, fun hmem => ?_, hqueues.sourceDone.trans hgoing⟩
    rcases hqueues.queue with hold | ⟨hputting, -⟩
    · rcases hold _ hmem with hin | hne
      · exact habsent hin
      · exact hne rfl
    · rw [hproducer] at hputting
      exact absurd hputting (by simp)
  · right
    rw [allRead_append, List.length_append, htotal]
    push_cast
    omega

theorem consume_dead (h : Dead p) (stopped : Bool) (io : E) (now : ℚ) : Dead (p.consume stopped io now) := by
  obtain ⟨hdead, habsent, hgoing⟩ := h
  obtain ⟨hsub, hdone⟩ := consume_takes stopped io now p
  refine ⟨(consume_leaves stopped io now p).producer.trans hdead, fun hmem => habsent (hsub _ hmem), ?_⟩
  rcases hdone with hdone | hmem
  · exact hdone.trans hgoing
  · exact absurd hmem habsent

theorem consume_weighed (hroom : p.producer.Room p.queue) (h : Weighed H p) (hlog : p.log = []) (stopped : Bool) (io : E)
    (now : ℚ) : Weighed (H ++ (p.consume stopped io now).log) (p.consume stopped io now) := by
  have hproducer := (consume_leaves stopped io now p).producer
  rcases h with hdead | hweight
  · exact Or.inl (consume_dead hdead stopped io now)
  · have htotal := (consume_flows hroom stopped io now).2.total
    have hnone : met .passed (chunkEvents ⟨p, .consume stopped io now, p.consume stopped io now⟩) = 0 := by
      unfold chunkEvents
      simp only
      split
      · rename_i generation _
        by_cases hcurrent : generation = p.generation
        · simp [hcurrent]
        · simp [hcurrent]
      · rfl
    obtain ⟨L, hL, hread⟩ := consume_tells stopped io now p
    right
    rw [hL, hlog, List.nil_append, allRead_append, allRead_fromSource hread, List.append_nil, htotal, hnone, hproducer]
    simpa using hweight

end Consumer

/-! ## As long as nothing is dropped -/

/-- What the parser has been fed. -/
def allFed (H : List PumpEvent) : Bytes := H.flatMap fun
  | .fed _ raw => raw
  | _ => []

/-- The bytes on their way through the queue. -/
def bytesIn (items : List Item) : Bytes := items.flatMap fun
  | .chunk raw _ _ => raw
  | _ => []

@[simp] theorem allFed_append (H L : List PumpEvent) : allFed (H ++ L) = allFed H ++ allFed L := List.flatMap_append

@[simp] theorem bytesIn_append (items items' : List Item) : bytesIn (items ++ items') = bytesIn items ++ bytesIn items' :=
  List.flatMap_append

/-- What has been fed has been fed between two resets. -/
theorem allFed_fedRuns (H : List PumpEvent) : allFed H = (fedRuns H).1.flatten ++ (fedRuns H).2 := by
  induction H using List.reverseRecOn with
  | nil => rfl
  | append_singleton H e ih =>
    rw [allFed_append, fedRuns_append, ih]
    cases e with
    | reset => simp [feeding, allFed]
    | fed g raw => simp [feeding, allFed]
    | opened | read | served => simp [feeding, allFed]

/-- The bytes that the producer has read and not put. -/
def rest : Producer → Bytes
  | .received raw _ | .fresh raw _ | .offering raw _ _ => raw
  | _ => []

/-- Where the producer is as long as it has dropped nothing of a source that is not opened twice, with `items` on their
way. -/
def InOrder (generation : Nat) (items : List Item) : Producer → Prop
  | .opening | .starting => generation = 0 ∧ items = []
  | .discarding (.marker _) chunks _ => generation ≠ 0 ∧ chunks = 0 ∧ items = []
  | .putting (.started _) | .reading | .received _ _ | .fresh _ _ => generation ≠ 0
  | .offering _ _ g => generation ≠ 0 ∧ g = generation
  | .putting (.chunk _ _ _) | .overflowed _ _ | .discarding (.chunk _ _ _) _ _ | .marking _ _ _ | .retaining _ _ _ =>
    False
  | .putting .failed | .putting .done | .leaving | .finished => True

/-- Nothing has been dropped: what was read is what was fed, what is on its way and what is in hand. -/
structure Direct (H : List PumpEvent) (items : List Item) (p : Pump T) : Prop where
  typ : p.typ = .stdin
  resets : p.metrics .rtcmSourceHandoffResets = 0
  place : InOrder p.generation items p.producer
  read : allRead H = allFed H ++ (bytesIn items ++ rest p.producer)
  current : ∀ raw t g, .chunk raw t g ∈ items → g = p.generation
  fresh : p.activeGeneration ≠ p.generation → allFed H = []
  early : p.generation = 0 → allRead H = []
  first : (fedRuns H).1.flatten = []

/-- The queue has overflowed. -/
def Lossy (p : Pump T) : Prop := 1 ≤ p.metrics .rtcmSourceHandoffResets ∨ p.metrics .rtcmSourceHandoffResets = 0 ∧
  ((∃ raw t, p.producer = .overflowed raw t) ∨ ∃ raw t g chunks bytes,
    p.producer = .discarding (.chunk raw t g) chunks bytes)

/-- What a run on one source comes to. -/
def Traced (H : List PumpEvent) (p : Pump T) : Prop := Dead p ∨ Lossy p ∨ Direct H p.onTheWay p

variable {items : List Item}

/-- The producer turns to something else, and nothing is read or put. -/
theorem Direct.turn (h : Direct H items p) (htyp : q.typ = p.typ)
    (hresets : q.metrics .rtcmSourceHandoffResets = p.metrics .rtcmSourceHandoffResets)
    (hgeneration : q.generation = p.generation) (hactive : q.activeGeneration = p.activeGeneration)
    (hplace : InOrder p.generation items q.producer) (hrest : rest q.producer = rest p.producer) : Direct H items q where
  typ := htyp.trans h.typ
  resets := hresets.trans h.resets
  place := by rw [hgeneration]; exact hplace
  read := by rw [hrest]; exact h.read
  current := by rw [hgeneration]; exact h.current
  fresh := by rw [hactive, hgeneration]; exact h.fresh
  early := by rw [hgeneration]; exact h.early
  first := h.first

/-- An item is put that is no chunk. -/
theorem Direct.put (h : Direct H items p) {item : Item} (hitem : item.contents = 0)
    (hplace : InOrder p.generation (items ++ [item]) p.producer) : Direct H (items ++ [item]) p where
  typ := h.typ
  resets := h.resets
  place := hplace
  read := by
    have hnone : bytesIn [item] = [] := by
      cases item with
      | chunk raw t g => exact absurd hitem (Multiset.singleton_ne_zero _)
      | _ => rfl
    rw [bytesIn_append, hnone, List.append_nil]
    exact h.read
  current raw t g hmem := by
    rcases List.mem_append.mp hmem with hold | hnew
    · exact h.current raw t g hold
    · rw [← List.mem_singleton.mp hnew] at hitem
      exact absurd hitem (Multiset.singleton_ne_zero _)
  fresh := h.fresh
  early := h.early
  first := h.first

theorem close_still (p : Pump T) : p.close.typ = p.typ ∧
    p.close.metrics .rtcmSourceHandoffResets = p.metrics .rtcmSourceHandoffResets ∧ p.close.generation = p.generation ∧
    p.close.activeGeneration = p.activeGeneration ∧ p.close.onTheWay = p.onTheWay := by
  unfold close
  split <;> exact ⟨rfl, rfl, rfl, rfl, rfl⟩

/-- The source is closed. -/
theorem Direct.closed (h : Direct H items p) {producer : Producer} (hplace : InOrder p.generation items producer)
    (hrest : rest producer = rest p.producer) : Direct H items { p.close with producer := producer } := by
  obtain ⟨htyp, hresets, hgeneration, hactive, -⟩ := close_still p
  exact h.turn htyp hresets hgeneration hactive hplace hrest

theorem Direct.traced (h : Direct H items p) (hlog : p.log = []) (hway : p.onTheWay = items) : Traced (H ++ p.log) p := by
  rw [hlog, List.append_nil]
  exact Or.inr (Or.inr (hway ▸ h))

theorem opened_direct (h : Direct H p.onTheWay p) (hproducer : p.producer = .opening) (hlog : p.log = [])
    (answer : Option SourceError) : Direct (H ++ (p.opened answer).log) (p.opened answer).onTheWay (p.opened answer) := by
  have hplace := h.place
  rw [hproducer] at hplace
  have hrest : rest p.producer = [] := by rw [hproducer]; rfl
  have hsilent : ∀ {q : Pump T}, q.log = p.log → q.onTheWay = p.onTheWay → Direct H p.onTheWay q →
      Direct (H ++ q.log) q.onTheWay q := by
    intro q hq hway hdirect
    rw [hq, hlog, List.append_nil, hway]
    exact hdirect
  have hclosed : Direct H p.onTheWay { (p.add .rtcmSourceConnectFailures 1).close with producer := .leaving } :=
    Direct.closed (p := p.add .rtcmSourceConnectFailures 1) { h with } trivial hrest.symm
  have hway : (p.add .rtcmSourceConnectFailures 1).close.onTheWay = p.onTheWay := (close_still _).2.2.2.2
  have hlogs : (p.add .rtcmSourceConnectFailures 1).close.log = p.log := (close_same _).log
  rcases answer with _ | _ | _ | _
  · have hstart : Direct H p.onTheWay { p with producer := .starting } :=
      h.turn rfl rfl rfl rfl hplace hrest.symm
    have hopened : Direct (H ++ [.opened]) p.onTheWay { p with producer := .starting } :=
      { hstart with
        read := by rw [allRead_append, allFed_append, h.read, hrest]; simp [allRead, allFed, rest]
        fresh := fun hne => by rw [allFed_append, h.fresh hne]; rfl
        early := fun hzero => by rw [allRead_append, h.early hzero]; rfl
        first := by rw [fedRuns_append]; exact h.first }
    have hall : Direct (H ++ (p.log ++ [.opened])) p.onTheWay { p with producer := .starting } := by
      rw [show p.log ++ [.opened] = [.opened] by rw [hlog]; rfl]
      exact hopened
    simp only [opened]
    split
    · exact { hall with }
    · exact { hall with }
  · exact hsilent hlogs hway hclosed
  · exact hsilent hlogs hway hclosed
  · exact hsilent (q := { p with producer := .putting .failed }) rfl rfl (h.turn rfl rfl rfl rfl trivial hrest.symm)

theorem reads_direct (h : Direct H p.onTheWay p) (hproducer : p.producer = .reading) (hlog : p.log = [])
    (answer : Except SourceError (Bytes × ℚ)) :
    Direct (H ++ (p.reads answer).log) (p.reads answer).onTheWay (p.reads answer) := by
  have hplace := h.place
  rw [hproducer] at hplace
  have hrest : rest p.producer = [] := by rw [hproducer]; rfl
  have hsilent : ∀ {q : Pump T}, q.log = p.log → q.onTheWay = p.onTheWay → Direct H p.onTheWay q →
      Direct (H ++ q.log) q.onTheWay q := by
    intro q hq hway hdirect
    rw [hq, hlog, List.append_nil, hway]
    exact hdirect
  have hclosed : Direct H p.onTheWay { p.close with producer := .leaving } := h.closed trivial hrest.symm
  rcases answer with (_ | _ | _) | ⟨raw, t⟩
  · exact hsilent rfl rfl h
  · exact hsilent (q := { (p.add .rtcmSourceReadFailures 1).close with producer := .leaving }) (close_same _).log
      (close_still _).2.2.2.2 (Direct.closed (p := p.add .rtcmSourceReadFailures 1) { h with } trivial hrest.symm)
  · exact hsilent (q := { p with producer := .putting .failed }) rfl rfl (h.turn rfl rfl rfl rfl trivial hrest.symm)
  · simp only [reads]
    split
    · split
      · exact hsilent rfl rfl h
      · exact hsilent (close_same _).log (close_still _).2.2.2.2 hclosed
    · have hread : Direct (H ++ [.read p.sessions raw]) p.onTheWay { p with producer := .received raw t } :=
        { h with
          place := hplace
          read := by
            rw [allRead_append, allFed_append, h.read, hrest]
            simp [allRead, allFed, rest]
          fresh := fun hne => by rw [allFed_append, h.fresh hne]; rfl
          early := fun hzero => absurd hzero hplace
          first := by rw [fedRuns_append]; exact h.first }
      have hall : Direct (H ++ (p.log ++ [.read p.sessions raw])) p.onTheWay { p with producer := .received raw t } := by
        rw [show p.log ++ [.read p.sessions raw] = [.read p.sessions raw] by rw [hlog]; rfl]
        exact hread
      exact { hall with }

/-- The queue is empty when a session starts. -/
theorem discard_direct (h : Direct H p.onTheWay p) {g chunks bytes : Nat}
    (hproducer : p.producer = .discarding (.marker g) chunks bytes) : (p.discard (.marker g) chunks bytes).log = p.log ∧
      Direct H (p.discard (.marker g) chunks bytes).onTheWay (p.discard (.marker g) chunks bytes) := by
  have hplace := h.place
  have hrest : rest p.producer = [] := by rw [hproducer]; rfl
  rw [hproducer] at hplace
  obtain ⟨hgeneration, rfl, hempty⟩ := hplace
  obtain ⟨hhanded, hqueue⟩ := List.append_eq_nil_iff.mp hempty
  have hdiscard : p.discard (.marker g) 0 bytes = { p with producer := .putting (.started g) } := by
    unfold discard
    rw [hqueue]
    simp only [gt_iff_lt, Nat.lt_irrefl, if_false]
    rw [hqueue]
  rw [hdiscard]
  exact ⟨rfl, h.turn rfl rfl rfl rfl hgeneration hrest.symm⟩

theorem afterPut_direct {item : Item} (h : Direct H items p) (hproducer : p.producer = .putting item) (done : Bool) :
    Direct H items (p.afterPut item done) ∧ (p.afterPut item done).log = p.log ∧
      (p.afterPut item done).onTheWay = p.onTheWay := by
  have hplace := h.place
  have hrest : rest p.producer = [] := by rw [hproducer]; rfl
  rw [hproducer] at hplace
  have hdie : Direct H items p.die := h.closed trivial hrest.symm
  have hstill : p.die.log = p.log ∧ p.die.onTheWay = p.onTheWay := ⟨(close_same p).log, (close_still p).2.2.2.2⟩
  rcases item with ⟨raw, t, g⟩ | g | _ | _
  · exact hplace.elim
  · cases done with
    | false => exact ⟨hdie, hstill⟩
    | true => exact ⟨h.turn rfl rfl rfl rfl hplace hrest.symm, rfl, rfl⟩
  · exact ⟨hdie, hstill⟩
  · exact ⟨h.turn rfl rfl rfl rfl trivial hrest.symm, rfl, rfl⟩

/-- The producer puts the items in the order in which it has read them, until the queue overflows. -/
theorem produce_direct (hlast : Last p) (h : Direct H p.onTheWay p) (hlog : p.log = []) (answer : Answer) :
    Traced (H ++ (p.produce answer).log) (p.produce answer) := by
  have hplace := h.place
  have hsilent : ∀ {q : Pump T}, q.log = p.log → q.onTheWay = p.onTheWay → Direct H p.onTheWay q →
      Traced (H ++ q.log) q := by
    intro q hq hway hdirect
    exact hdirect.traced (hq.trans hlog) hway
  have hway : ∀ item : Item, ({ p with queue := p.queue ++ [item] } : Pump T).onTheWay = p.onTheWay ++ [item] :=
    fun item => (List.append_assoc _ _ _).symm
  unfold produce
  rcases hproducer : p.producer with
    _ | _ | ⟨retained, chunks, bytes⟩ | item | _ | ⟨raw, t⟩ | ⟨raw, t⟩ | ⟨raw, t, g⟩ | ⟨raw, t⟩ | ⟨raw, t, g⟩ |
      ⟨raw, t, g⟩ | _ | _
  all_goals
    rw [hproducer] at hplace
    simp only
  · have hrest : rest p.producer = [] := by rw [hproducer]; rfl
    split
    · exact hsilent rfl rfl (h.turn rfl rfl rfl rfl trivial hrest.symm)
    · exact Or.inr (Or.inr (opened_direct h hproducer hlog _))
  · have hrest : rest p.producer = [] := by rw [hproducer]; rfl
    have hread := h.read
    rw [h.early hplace.1] at hread
    have hfed := (List.append_eq_nil_iff.mp hread.symm).1
    refine hsilent
      (q := { p with generation := p.generation + 1, producer := .discarding (.marker (p.generation + 1)) 0 0 })
      rfl rfl { h with place := ?_, read := ?_, current := ?_, fresh := ?_, early := ?_ }
    · exact ⟨Nat.succ_ne_zero _, rfl, hplace.2⟩
    · rw [h.read, hrest]
      rfl
    · intro raw t g hmem
      rw [hplace.2] at hmem
      exact absurd hmem List.not_mem_nil
    · exact fun _ => hfed
    · exact fun hzero => absurd hzero (Nat.succ_ne_zero _)
  · cases retained with
    | chunk raw t g => exact hplace.elim
    | marker g =>
      obtain ⟨hq, hdirect⟩ := discard_direct h hproducer
      rw [hq, hlog, List.append_nil]
      exact Or.inr (Or.inr hdirect)
  · split
    · obtain ⟨hdirect, hq, hstill⟩ := afterPut_direct h hproducer false
      exact hsilent hq hstill hdirect
    · have hcontents : item.contents = 0 := by
        cases item with
        | chunk raw t g => exact hplace.elim
        | _ => rfl
      have hput : Direct H (p.onTheWay ++ [item]) { p with queue := p.queue ++ [item] } := by
        refine { h.put hcontents ?_ with }
        rw [hproducer]
        cases item <;> exact hplace
      obtain ⟨hdirect, hq, hstill⟩ := afterPut_direct hput hproducer true
      unfold putNowait
      split
      · exact hdirect.traced (hq.trans hlog) (hstill.trans (hway item))
      · exact hsilent rfl rfl h
  · have hrest : rest p.producer = [] := by rw [hproducer]; rfl
    split
    · exact hsilent (close_same p).log (close_still p).2.2.2.2 (h.closed trivial hrest.symm)
    · exact Or.inr (Or.inr (reads_direct h hproducer hlog _))
  · split
    · obtain ⟨habsent, hgoing⟩ := hlast.absent (by rw [hproducer]; simp)
      have hstill : p.die.queue = p.queue ∧ p.die.sourceDone = p.sourceDone := by
        unfold die close
        split <;> exact ⟨rfl, rfl⟩
      exact Or.inl ⟨rfl, hstill.1 ▸ habsent, hstill.2.trans hgoing⟩
    · exact hsilent rfl rfl (h.turn rfl rfl rfl rfl hplace (by rw [hproducer]; rfl))
  · exact hsilent rfl rfl (h.turn rfl rfl rfl rfl ⟨hplace, rfl⟩ (by rw [hproducer]; rfl))
  · obtain ⟨hgeneration, rfl⟩ := hplace
    unfold putNowait
    split
    · have hput : Direct H (p.onTheWay ++ [.chunk raw t p.generation])
          { p with queue := p.queue ++ [.chunk raw t p.generation], producer := .reading } :=
        { h with
          place := hgeneration
          read := by
            rw [h.read, hproducer, bytesIn_append]
            simp [bytesIn, rest]
          current := fun raw' t' g hmem => by
            rcases List.mem_append.mp hmem with hold | hnew
            · exact h.current raw' t' g hold
            · exact (Item.chunk.inj (List.mem_singleton.mp hnew)).2.2 }
      exact hput.traced hlog (hway _)
    · exact Or.inr (Or.inl (Or.inr ⟨h.resets, Or.inl ⟨raw, t, rfl⟩⟩))
  · exact hplace.elim
  · exact hplace.elim
  · exact hplace.elim
  · have hrest : rest p.producer = [] := by rw [hproducer]; rfl
    rw [if_pos h.typ]
    exact hsilent rfl rfl (h.turn rfl rfl rfl rfl trivial hrest.symm)
  · exact hsilent rfl rfl h

/-- The resets that are counted. -/
def resets (p : Pump T) : Int := p.metrics .rtcmSourceHandoffResets

theorem close_resets (p : Pump T) (producer : Producer) :
    resets { p.close with producer := producer } = p.resets := (close_still p).2.1

theorem afterPut_resets (item : Item) (done : Bool) (p : Pump T) : (p.afterPut item done).resets = p.resets := by
  rcases item with ⟨raw, t, g⟩ | g | _ | _
  · rfl
  · cases done with
    | false => exact close_resets p _
    | true => rfl
  · exact close_resets p _
  · rfl

theorem putNowait_resets {item : Item} {next full : Pump T → Pump T}
    (hnext : (next { p with queue := p.queue ++ [item] }).resets = p.resets) (hfull : (full p).resets = p.resets) :
    (p.putNowait item next full).resets = p.resets := by
  unfold putNowait
  split
  · exact hnext
  · exact hfull

theorem opened_resets (answer : Option SourceError) (p : Pump T) : (p.opened answer).resets = p.resets := by
  rcases answer with _ | _ | _ | _
  · simp only [opened]
    split <;> rfl
  · exact close_resets (p.add .rtcmSourceConnectFailures 1) _
  · exact close_resets (p.add .rtcmSourceConnectFailures 1) _
  · rfl

theorem reads_resets (answer : Except SourceError (Bytes × ℚ)) (p : Pump T) : (p.reads answer).resets = p.resets := by
  rcases answer with (_ | _ | _) | ⟨raw, t⟩
  · rfl
  · exact close_resets (p.add .rtcmSourceReadFailures 1) _
  · rfl
  · simp only [reads]
    split
    · split
      · rfl
      · exact close_resets p _
    · rfl

/-- The queue is emptied: this is counted at its end if something was dropped, and always after an overflow. -/
theorem discard_resets (retained : Retained) (chunks bytes : Nat) (p : Pump T) :
    (p.discard retained chunks bytes).resets = p.resets + 1 ∨ (p.discard retained chunks bytes).resets = p.resets ∧
      ((∃ chunks' bytes', (p.discard retained chunks bytes).producer = .discarding retained chunks' bytes') ∨
        ∃ g, retained = .marker g) := by
  unfold discard
  split
  · exact Or.inr ⟨rfl, Or.inl ⟨_, _, rfl⟩⟩
  · exact Or.inr ⟨rfl, Or.inl ⟨_, _, rfl⟩⟩
  · cases retained with
    | marker g =>
      simp only
      split
      · exact Or.inl rfl
      · exact Or.inr ⟨rfl, Or.inr ⟨g, rfl⟩⟩
    | chunk raw t g =>
      simp only
      split <;> exact Or.inl rfl

theorem produce_resets (answer : Answer) (p : Pump T) : p.resets ≤ (p.produce answer).resets := by
  have hdie : p.die.resets = p.resets := close_resets p _
  unfold produce
  split
  · split
    · exact le_refl _
    · exact (opened_resets _ p).ge
  · exact le_refl _
  · rcases discard_resets _ _ _ p with h | h
    · rw [h]
      omega
    · exact h.1.ge
  · split
    · exact (afterPut_resets _ _ p).ge
    · exact (putNowait_resets (afterPut_resets _ _ _) rfl).ge
  · split
    · exact (close_resets p _).ge
    · exact (reads_resets _ p).ge
  · split
    · exact hdie.ge
    · exact le_refl _
  · exact le_refl _
  · exact (putNowait_resets rfl rfl).ge
  · exact le_refl _
  · exact (putNowait_resets rfl hdie).ge
  · exact (putNowait_resets rfl hdie).ge
  · split <;> exact le_refl _
  · exact le_refl _

/-- Once the queue has overflowed, this is counted in the end. -/
theorem produce_lossy (h : Lossy p) (answer : Answer) : Lossy (p.produce answer) := by
  rcases h with hone | ⟨hzero, ⟨raw, t, hproducer⟩ | ⟨raw, t, g, chunks, bytes, hproducer⟩⟩
  · have hle := produce_resets answer p
    exact Or.inl (hone.trans hle)
  · refine Or.inr ⟨?_, Or.inr ⟨raw, t, p.generation + 1, 0, 0, ?_⟩⟩
    all_goals
      unfold produce
      rw [hproducer]
    exact hzero
  · have hproduce : p.produce answer = p.discard (.chunk raw t g) chunks bytes := by
      unfold produce
      rw [hproducer]
    rw [hproduce]
    have hresets : p.resets = 0 := hzero
    rcases discard_resets (.chunk raw t g) chunks bytes p with hcounted | ⟨hsame,
      ⟨chunks', bytes', hgoing⟩ | ⟨g', habsurd⟩⟩
    · rw [hresets] at hcounted
      exact Or.inl (le_of_eq hcounted.symm)
    · exact Or.inr ⟨hsame.trans hresets, Or.inr ⟨raw, t, g, chunks', bytes', hgoing⟩⟩
    · exact absurd habsurd (by simp)

theorem produce_traced (hlast : Last p) (h : Traced H p) (hlog : p.log = []) (answer : Answer) :
    Traced (H ++ (p.produce answer).log) (p.produce answer) := by
  rcases h with hdead | hlossy | hdirect
  · rw [produce_finished hdead.1]
    exact Or.inl hdead
  · exact Or.inr (Or.inl (produce_lossy hlossy answer))
  · exact produce_direct hlast hdirect hlog answer

/-- The service is called. -/
theorem Direct.serve (h : Direct H items p) (es : List Event) (b : BaseService T) (L : List PumpEvent) :
    Direct (H ++ es.map .served) items { p with service := b, log := L } := by
  have hread : allRead (es.map PumpEvent.served) = [] :=
    allRead_fromSource fun e he => by
      obtain ⟨_, _, rfl⟩ := List.mem_map.mp he
      rfl
  have hfed : allFed (es.map PumpEvent.served) = [] := by
    refine List.flatMap_eq_nil_iff.mpr fun e he => ?_
    obtain ⟨_, _, rfl⟩ := List.mem_map.mp he
    rfl
  exact { h with
    read := by rw [allRead_append, allFed_append, hread, hfed, List.append_nil, List.append_nil]; exact h.read
    fresh := fun hne => by rw [allFed_append, hfed, List.append_nil]; exact h.fresh hne
    early := fun hzero => by rw [allRead_append, hread, List.append_nil]; exact h.early hzero
    first := by rw [fedRuns_served]; exact h.first }

/-- The producer has begun to put: it no longer matters to it what is on its way. -/
theorem InOrder.begun {generation : Nat} {producer : Producer} {item : Item}
    (h : InOrder generation (item :: items) producer) :
    InOrder generation items producer := by
  cases producer with
  | opening | starting => exact absurd h.2 (List.cons_ne_nil _ _)
  | discarding retained chunks bytes =>
    cases retained with
    | marker g => exact absurd h.2.2 (List.cons_ne_nil _ _)
    | chunk raw t g => exact h.elim
  | putting item => cases item <;> exact h
  | _ => exact h

/-- An item that is no chunk is gone. -/
theorem Direct.gone (h : Direct H (item :: items) p) (hitem : item.contents = 0) : Direct H items p :=
  { h with
    place := h.place.begun
    read := by
      have hnone : bytesIn (item :: items) = bytesIn items := by
        cases item with
        | chunk raw t g => exact absurd hitem (Multiset.singleton_ne_zero _)
        | _ => rfl
      rw [← hnone]
      exact h.read
    current := fun raw t g hmem => h.current raw t g (List.mem_cons_of_mem _ hmem) }

section Consumer

variable [Transport T E]

/-- The parser follows the generation; nothing has been fed before. -/
theorem follow_direct (h : Direct (H ++ p.log) items p) :
    Direct (H ++ (p.follow (E := E)).log) items (p.follow (E := E)) ∧
    (p.follow (E := E)).activeGeneration = (p.follow (E := E)).generation := by
  unfold follow
  split
  · rename_i hne
    have hfed := h.fresh (Ne.symm hne)
    have hempty := hfed
    rw [allFed_fedRuns] at hempty
    obtain ⟨hfirst, hsecond⟩ := List.append_eq_nil_iff.mp hempty
    have hreset : Direct (H ++ p.log ++ [.reset]) items { p with activeGeneration := p.generation } :=
      { h with
        read := by rw [allRead_append, allFed_append]; simpa [allRead, allFed] using h.read
        fresh := fun hne => absurd rfl hne
        early := fun hzero => by rw [allRead_append, h.early hzero]; rfl
        first := by
          rw [fedRuns_append]
          show ((fedRuns (H ++ p.log)).1 ++ [(fedRuns (H ++ p.log)).2]).flatten = []
          rw [List.flatten_append, hfirst, hsecond]
          rfl }
    have hserved := hreset.serve (BaseService.next (.resetSource : Input E) p.service).log
      (BaseService.next (.resetSource : Input E) p.service) []
    rw [List.append_assoc, List.append_assoc] at hserved
    refine ⟨?_, rfl⟩
    show Direct (H ++ (p.log ++ [.reset] ++ (BaseService.next (.resetSource : Input E) p.service).log.map .served)) _ _
    rw [List.append_assoc]
    exact { hserved with }
  · rename_i heq
    rw [not_not] at heq
    exact ⟨h, heq.symm⟩

/-- The item in hand is fed if it is a chunk. -/
theorem hand_direct {item : Option Item} (h : Direct (H ++ p.log) (item.toList ++ items) p)
    (hactive : p.activeGeneration = p.generation) :
    Direct (H ++ (p.hand (E := E) item).log) items (p.hand (E := E) item) := by
  rcases item with _ | ⟨raw, t, g⟩ | g | _ | _
  · exact h
  · have hg : g = p.generation := h.current raw t g List.mem_cons_self
    have hfed : Direct (H ++ p.log ++ [.fed g raw]) items p :=
      { h with
        place := h.place.begun
        read := by
          rw [allRead_append, allFed_append, h.read]
          simp [allRead, allFed, bytesIn]
        current := fun raw t g hmem => h.current raw t g (List.mem_cons_of_mem _ hmem)
        fresh := fun hne => absurd hactive hne
        early := fun hzero => by rw [allRead_append, h.early hzero]; rfl
        first := by rw [fedRuns_append]; exact h.first }
    have hserved := hfed.serve (BaseService.next (.ingest raw t : Input E) p.service).log
      (BaseService.next (.ingest raw t : Input E) p.service) []
    rw [List.append_assoc, List.append_assoc] at hserved
    unfold hand
    simp only
    rw [if_neg (not_not.mpr hg)]
    show Direct (H ++ (p.log ++ [.fed g raw] ++ (BaseService.next (.ingest raw t : Input E) p.service).log.map .served))
      _ _
    rw [List.append_assoc]
    exact { hserved with }
  · have hgone : Direct (H ++ p.log) items p := h.gone rfl
    unfold hand
    simp only
    split
    · exact { hgone with }
    · exact hgone
  · exact h.gone rfl
  · exact h.gone rfl

theorem guarded_direct {item : Option Item} (h : Direct H (item.toList ++ p.queue) p) (hlog : p.log = []) (io : E)
    (now : ℚ) :
    Direct (H ++ (p.guarded item io now).log) p.queue (p.guarded item io now) := by
  have hstart : Direct (H ++ p.log) (item.toList ++ p.queue) p := by
    rw [hlog, List.append_nil]
    exact h
  obtain ⟨hfollow, hactive⟩ := follow_direct (E := E) hstart
  have hhand := hand_direct (E := E) hfollow hactive
  have hserved := hhand.serve (BaseService.next (.step io now) (p.follow.hand (E := E) item).service).log
    (BaseService.next (.step io now) (p.follow.hand (E := E) item).service) []
  rw [List.append_assoc] at hserved
  exact { hserved with }

theorem get_direct (h : Direct H p.onTheWay p) (hconsumer : p.consumer = .getting) : Direct H p.get.onTheWay p.get := by
  have hway : p.onTheWay = p.queue := by
    rw [onTheWay, hconsumer]
    rfl
  rw [hway] at h
  unfold get
  rcases hqueue : p.queue with _ | ⟨item, queue⟩
  · rw [hqueue] at h
    show Direct H [] _
    exact { h with }
  · rw [hqueue] at h
    rcases item with ⟨raw, t, g⟩ | g | _ | _
    · exact { h with }
    · exact { h with }
    · exact { h.gone rfl with }
    · exact { h with }

/-- The consumer feeds the chunks in the order in which they come. -/
theorem consume_direct (h : Direct H p.onTheWay p) (hlog : p.log = []) (stopped : Bool) (io : E) (now : ℚ) :
    Direct (H ++ (p.consume stopped io now).log) (p.consume stopped io now).onTheWay (p.consume stopped io now) := by
  have hsilent : ∀ {q : Pump T}, q.log = p.log → Direct H q.onTheWay q → Direct (H ++ q.log) q.onTheWay q := by
    intro q hq hdirect
    rw [hq, hlog, List.append_nil]
    exact hdirect
  unfold consume
  rcases hconsumer : p.consumer with _ | _ | item | _ | _
  · have hway : p.onTheWay = p.queue := by
      rw [onTheWay, hconsumer]
      rfl
    rw [hway] at h
    exact hsilent (q := { p with activeGeneration := p.generation, consumer := .getting }) rfl
      { h with fresh := fun hne => absurd rfl hne }
  · have hway : p.onTheWay = p.queue := by
      rw [onTheWay, hconsumer]
      rfl
    simp only
    split
    · rw [hway] at h
      exact hsilent (q := { p with consumer := .ended }) rfl { h with }
    · have hget : p.get.log = p.log := by
        unfold get
        split <;> rfl
      exact hsilent hget (get_direct h hconsumer)
  · have hway : p.onTheWay = item.toList ++ p.queue := by
      rw [onTheWay, hconsumer]
      cases item <;> rfl
    rw [hway] at h
    obtain ⟨hqueue, -, -, hhanded⟩ := guarded_still item io now p
    have hleft : (p.guarded item io now).onTheWay = p.queue := by
      rw [onTheWay, hhanded, hqueue]
      rfl
    simp only
    rw [hleft]
    exact guarded_direct h hlog io now
  · have hway : p.onTheWay = p.queue := by
      rw [onTheWay, hconsumer]
      rfl
    have htick : (p.tick now).onTheWay = p.queue := by
      show handed (if p.sourceDone = true ∧ p.typ = .stdin ∧ p.service.idle = true then Consumer.ended else .getting) ++
        p.queue = p.queue
      split <;> rfl
    rw [hway] at h
    refine hsilent (q := p.tick now) rfl ?_
    rw [htick]
    exact { h with }
  · exact hsilent rfl h

theorem consume_traced (h : Traced H p) (hlog : p.log = []) (stopped : Bool) (io : E) (now : ℚ) :
    Traced (H ++ (p.consume stopped io now).log) (p.consume stopped io now) := by
  rcases h with hdead | hlossy | hdirect
  · exact Or.inl (consume_dead hdead stopped io now)
  · have hproducer := (consume_leaves stopped io now p).producer
    have hresets : (p.consume stopped io now).metrics .rtcmSourceHandoffResets = p.metrics .rtcmSourceHandoffResets := by
      unfold consume
      split
      · rfl
      · split
        · rfl
        · unfold get
          split <;> rfl
      · exact (guarded_still _ io now p).2.2.1
      · rfl
      · rfl
    refine Or.inr (Or.inl ?_)
    unfold Lossy
    rw [hresets, hproducer]
    exact hlossy
  · exact Or.inr (Or.inr (consume_direct hdirect hlog stopped io now))

/-! ## Every run -/

/-- What every step keeps. -/
structure Followed (H : List PumpEvent) (p : Pump T) : Prop where
  room : p.producer.Room p.queue
  last : Last p
  weighed : Weighed H p

theorem next_followed (h : Followed H p) (i : PumpInput E) : Followed (H ++ (next i p).log) (next i p) := by
  have hlast : Last { p with log := [] } := { h.last with }
  cases i with
  | produce answer =>
    exact ⟨(produce_flows (E := Unit) (p := { p with log := [] }) h.room answer).1, produce_last hlast answer,
      produce_weighed (p := { p with log := [] }) h.room hlast h.weighed rfl answer⟩
  | consume stopped io now =>
    exact ⟨(consume_flows (p := { p with log := [] }) h.room stopped io now).1, consume_last hlast stopped io now,
      consume_weighed (p := { p with log := [] }) h.room h.weighed rfl stopped io now⟩

theorem next_traced (hlast : Last p) (h : Traced H p) (i : PumpInput E) : Traced (H ++ (next i p).log) (next i p) := by
  have hstart : Traced H { p with log := [] } := by
    rcases h with hdead | hlossy | hdirect
    · exact Or.inl hdead
    · exact Or.inr (Or.inl hlossy)
    · exact Or.inr (Or.inr { hdirect with })
  cases i with
  | produce answer => exact produce_traced (p := { p with log := [] }) { hlast with } hstart rfl answer
  | consume stopped io now => exact consume_traced (p := { p with log := [] }) hstart rfl stopped io now

theorem run_followed (typ : SourceType) (t : T) (is : List (PumpInput E)) :
    Followed (history (trace next (init typ t) is)) (run next (init typ t) is) := by
  have hstart : Followed [] (init (E := E) typ t) :=
    ⟨trivial, init_last typ t, Or.inr rfl⟩
  exact run_rel (G := fun _ => True) (f := eventsOf) (P := Followed) (H := []) hstart
    (fun H i p h _ => next_followed h i) is fun _ _ => trivial

theorem run_traced (t : T) (is : List (PumpInput E)) :
    Traced (history (trace next (init .stdin t) is)) (run next (init .stdin t) is) := by
  have hstart : Direct [] (init (E := E) .stdin t).onTheWay (init (E := E) .stdin t) :=
    ⟨rfl, rfl, ⟨rfl, rfl⟩, rfl, fun raw t g hmem => absurd hmem List.not_mem_nil, fun _ => rfl, fun _ => rfl, rfl⟩
  have hrun := run_rel (G := fun _ => True) (f := eventsOf) (P := fun H p => Last p ∧ Traced H p) (H := [])
    ⟨init_last .stdin t, Or.inr (Or.inr hstart)⟩ (fun H i p h _ => ⟨next_last i p h.1, next_traced h.1 h.2 i⟩) is
    fun _ _ => trivial
  exact hrun.2

/-- **Every segment is parsed**, in every run of the two threads on any kind of source: between two resets of the parser,
the frames that the service takes in are those that a fresh parser finds in the bytes fed between them, and since the
last reset in those fed since. -/
theorem segments_parsed (typ : SourceType) (t : T) (is : List (PumpInput E)) :
    (parsedRuns (history (trace next (init typ t) is))).1 =
        (fedRuns (history (trace next (init typ t) is))).1.map parse ∧
      (parsedRuns (history (trace next (init typ t) is))).2 = parse (fedRuns (history (trace next (init typ t) is))).2 :=
  ⟨(run_parses typ t is).runs, (run_parses typ t is).last⟩

/-- The frames that the service has taken in. -/
def framesTaken (H : List PumpEvent) : List Bytes := H.filterMap fun
  | .served (.ingested f) => some f.raw
  | _ => none

/-- They have been taken in between two resets or since the last. -/
theorem framesTaken_parsedRuns (H : List PumpEvent) : framesTaken H = (parsedRuns H).1.flatten ++ (parsedRuns H).2 := by
  induction H using List.reverseRecOn with
  | nil => rfl
  | append_singleton H e ih =>
    rw [parsedRuns_append, framesTaken, List.filterMap_append, ← framesTaken, ih]
    cases e with
    | reset => simp [parsing]
    | opened | read | fed => simp [parsing]
    | served e => cases e <;> simp [parsing]

theorem handed_inHand {consumer : Consumer} (h : ∀ item ∈ handed consumer, item = .done) : consumer.inHand = 0 := by
  rcases consumer with _ | _ | (_ | item) | _ | _
  case holding.some =>
    rw [h item (List.mem_singleton_self item)]
    rfl
  all_goals rfl

/-- Nothing is on its way once `None` has been taken. -/
theorem Last.drained (h : Last p) (hdone : p.sourceDone = true) :
    p.producer = .finished ∧ p.carried = 0 ∧ bytesIn p.onTheWay = [] := by
  obtain ⟨hqueue, hhanded⟩ := h.empty hdone
  have hfinished : p.producer = .finished := by
    by_contra hgoing
    exact absurd ((h.absent hgoing).2.symm.trans hdone) (by decide)
  refine ⟨hfinished, ?_, ?_⟩
  · rw [carried, hfinished, hqueue, handed_inHand hhanded]
    rfl
  · rw [onTheWay, hqueue, List.append_nil]
    refine List.flatMap_eq_nil_iff.mpr fun item hitem => ?_
    rw [hhanded item hitem]

/-- **The input is drained**, in every run of the two threads: once `source_done` is set, the thread of the source has
ended, no source is connected, no chunk is on its way, and every byte that was read has been counted as fed, as dropped
or as superseded; and if the source is `stdin` and the queue never overflowed, the frames taken in are exactly those that
a parser finds in all that was read. -/
theorem input_drained (typ : SourceType) (t : T) (is : List (PumpInput E))
    (hdone : (run next (init typ t) is).sourceDone = true) :
    (run next (init typ t) is).producer = .finished ∧ (run next (init typ t) is).connected = false ∧
    (run next (init typ t) is).carried = 0 ∧
    ((allRead (history (trace next (init typ t) is))).length : Int) =
      (run next (init typ t) is).service.metrics .rtcmInputBytes +
        (run next (init typ t) is).metrics .rtcmSourceHandoffBytesDropped +
        (run next (init typ t) is).metrics .rtcmSourceHandoffBytesSuperseded ∧
    (typ = .stdin → (run next (init typ t) is).metrics .rtcmSourceHandoffResets = 0 →
      framesTaken (history (trace next (init typ t) is)) = parse (allRead (history (trace next (init typ t) is)))) := by
  obtain ⟨-, hlast, hweighed⟩ := run_followed typ t is
  have hattached := (run_sourced typ t is).1.attached
  have hruns := (run_parses typ t is).runs
  have hsince := (run_parses typ t is).last
  have htraced : typ = .stdin → Traced (history (trace next (init typ t) is)) (run next (init typ t) is) := by
    rintro rfl
    exact run_traced t is
  generalize history (trace next (init typ t) is) = H at *
  generalize run next (init typ t) is = p at *
  obtain ⟨hfinished, hcarried, hbytes⟩ := hlast.drained hdone
  have halive : ¬ Dead p := fun hdead => absurd (hdead.2.2.symm.trans hdone) (by decide)
  refine ⟨hfinished, ?_, hcarried, ?_, fun htyp hresets => ?_⟩
  · rwa [hfinished] at hattached
  · have hweight := hweighed.resolve_left halive
    rw [total, hcarried, hfinished] at hweight
    simpa [Producer.uncounted, unpassed] using hweight
  · have hlossless : ¬ Lossy p := by
      rintro (hlost | ⟨-, ⟨raw, t, habsurd⟩ | ⟨raw, t, g, chunks, bytes, habsurd⟩⟩)
      · rw [hresets] at hlost
        exact absurd hlost (by decide)
      · exact absurd (hfinished.symm.trans habsurd) (by simp)
      · exact absurd (hfinished.symm.trans habsurd) (by simp)
    have hdirect := ((htraced htyp).resolve_left halive).resolve_left hlossless
    have hread := hdirect.read
    rw [hbytes, hfinished, allFed_fedRuns, hdirect.first] at hread
    have hread : allRead H = (fedRuns H).2 := hread.trans (List.append_nil _)
    have hempty : ((fedRuns H).1.map parse).flatten = [] := by
      refine List.flatten_eq_nil_iff.mpr fun frames hframes => ?_
      obtain ⟨raw, hraw, rfl⟩ := List.mem_map.mp hframes
      rw [List.flatten_eq_nil_iff.mp hdirect.first raw hraw]
      exact RtcmStreamParser.parse_nil.1
    rw [framesTaken_parsedRuns, hruns, hsince, hempty, hread]
    rfl

/-- A source of two chunks, read to its end before the loop of the base gets them one after the other. -/
def drainedRun : List (PumpInput Unit) :=
  List.replicate 4 (.produce {}) ++ .produce { read := .ok ([0, 0xd3, 0], 0) } :: List.replicate 3 (.produce {}) ++
    .produce { read := .ok ([0, 0x47, 0xea, 0x4b], 1) } :: List.replicate 3 (.produce {}) ++
    .produce { read := .ok ([], 2) } :: List.replicate 2 (.produce {}) ++ List.replicate 11 (.consume false () 3)

/-- A frame behind some noise comes in two chunks. -/
theorem input_drained_courier :
    framesTaken (history (trace next (init (E := Unit) .stdin ({} : Courier)) drainedRun)) =
      parse (allRead (history (trace next (init (E := Unit) .stdin ({} : Courier)) drainedRun))) := by
  exact (input_drained .stdin ({} : Courier) drainedRun (by decide +kernel)).2.2.2.2 rfl (by decide +kernel)

end Consumer

end Pump

end LoraLink.Service
