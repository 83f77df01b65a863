import LoraLink.Service.Origin
import LoraLink.Service.Pump

/-!
# The hand-off between the input pump and the base

Whichever way the two threads take their steps, the parser is fed runs of bytes that stood together in one session of
the source.

- `Clean`: what every step keeps: the bytes of the current generation that have been fed, then those on their way
  through the queue, then the chunk in the hands of the producer are the end of what its source has given;
- `produce_kept`, `consume_kept`: a step of each thread keeps it;
- `no_splicing`: in every run.
-/

namespace LoraLink.Service

open LoraLink.Application LoraLink.Rtcm LoraLink.Host
open scoped List

/-! ## What has been read and fed -/

/-- What has been read in a session of the source. -/
def bytesRead (session : Nat) (H : List PumpEvent) : Bytes := H.flatMap fun
  | .read s raw => if s = session then raw else []
  | _ => []

/-- What the parser has been fed of a generation. -/
def bytesFed (generation : Nat) (H : List PumpEvent) : Bytes := H.flatMap fun
  | .fed g raw => if g = generation then raw else []
  | _ => []

def feeding (r : List Bytes × Bytes) : PumpEvent → List Bytes × Bytes
  | .reset => (r.1 ++ [r.2], [])
  | .fed _ raw => (r.1, r.2 ++ raw)
  | _ => r

/-- What the parser has been fed between one reset and the next, and what since the last. -/
def fedRuns (H : List PumpEvent) : List Bytes × Bytes := H.foldl feeding ([], [])

@[simp] theorem bytesRead_append (session : Nat) (H H' : List PumpEvent) :
    bytesRead session (H ++ H') = bytesRead session H ++ bytesRead session H' := List.flatMap_append

@[simp] theorem bytesFed_append (generation : Nat) (H H' : List PumpEvent) :
    bytesFed generation (H ++ H') = bytesFed generation H ++ bytesFed generation H' := List.flatMap_append

theorem fedRuns_append (H H' : List PumpEvent) : fedRuns (H ++ H') = H'.foldl feeding (fedRuns H) := List.foldl_append

/-- An event of the service is not about the source. -/
theorem served_silent (es : List Event) :
    (∀ session, bytesRead session (es.map .served) = []) ∧ (∀ generation, bytesFed generation (es.map .served) = []) ∧
      ∀ r, (es.map PumpEvent.served).foldl feeding r = r := by
  induction es with
  | nil => exact ⟨fun _ => rfl, fun _ => rfl, fun _ => rfl⟩
  | cons e es ih => exact ⟨fun s => ih.1 s, fun g => ih.2.1 g, fun r => ih.2.2 r⟩

/-- The bytes of a generation on their way through the queue. -/
def waiting (generation : Nat) (items : List Item) : Bytes := items.flatMap fun
  | .chunk raw _ g => if g = generation then raw else []
  | _ => []

@[simp] theorem waiting_append (generation : Nat) (items items' : List Item) :
    waiting generation (items ++ items') = waiting generation items ++ waiting generation items' := List.flatMap_append

/-- No chunk of a later generation is on its way. -/
def UpTo (generation : Nat) (items : List Item) : Prop := ∀ raw t g, .chunk raw t g ∈ items → g ≤ generation

theorem waiting_later {generation : Nat} {items : List Item} (h : UpTo generation items) {later : Nat}
    (hlater : generation < later) : waiting later items = [] := by
  refine List.flatMap_eq_nil_iff.mpr fun item hitem => ?_
  cases item with
  | chunk raw t g =>
    have hle := h raw t g hitem
    exact if_neg (by omega)
  | started | failed | done => rfl

/-! ## What every step keeps -/

/-- The generation that the producer has in a local variable is the current one; while it empties the queue, what
is there is older. -/
def Producer.Knows (generation : Nat) (items : List Item) : Producer → Prop
  | .offering _ _ g | .marking _ _ g | .retaining _ _ g => g = generation
  | .discarding (.chunk _ _ g) _ _ => g = generation ∧ ∃ older < generation, UpTo older items
  | .discarding (.marker _) _ _ => ∃ older < generation, UpTo older items
  | .putting (.chunk _ _ _) => False
  | _ => True

theorem Producer.Knows.older {retained : Retained} {chunks bytes generation : Nat} {items : List Item}
    (h : (Producer.discarding retained chunks bytes).Knows generation items) :
    ∃ older < generation, UpTo older items := by
  cases retained with
  | marker g => exact h
  | chunk raw t g => exact h.2

theorem Producer.Knows.sub {producer : Producer} {generation : Nat} {items items' : List Item}
    (h : producer.Knows generation items) (hsub : ∀ x ∈ items', x ∈ items) : producer.Knows generation items' := by
  have hless : (∃ older < generation, UpTo older items) → ∃ older < generation, UpTo older items' := by
    rintro ⟨older, hlt, holder⟩
    exact ⟨older, hlt, fun raw t g hmem => holder raw t g (hsub _ hmem)⟩
  cases producer with
  | discarding retained chunks bytes =>
    cases retained with
    | marker g => exact hless h
    | chunk raw t g => exact ⟨h.1, hless h.2⟩
  | putting item =>
    cases item with
    | chunk raw t g => exact h
    | started | failed | done => exact trivial
  | offering | marking | retaining => exact h
  | opening | starting | reading | received | fresh | overflowed | leaving | finished => exact trivial

/-- What has been read and not put yet, by the session in which the current generation is read. -/
def Producer.Pending (sessions session : Nat) (rest : Bytes) : Producer → Prop
  | .received raw _ | .fresh raw _ | .offering raw _ _ | .overflowed raw _ | .discarding (.chunk raw _ _) _ _
  | .marking raw _ _ | .retaining raw _ _ => rest = raw ∧ session = sessions
  | .reading | .discarding (.marker _) _ _ | .putting (.started _) => rest = [] ∧ session = sessions
  | .opening | .starting | .putting _ | .leaving | .finished => True

variable {T E : Type} {H : List PumpEvent} {items : List Item} {p : Pump T}

/-- The bytes fed since the last reset, if they are of the current generation. -/
def current (H : List PumpEvent) (p : Pump T) : Bytes := if p.activeGeneration = p.generation then (fedRuns H).2 else []

/-- After the events `H`, with `items` on their way through the queue. -/
structure Clean (H : List PumpEvent) (items : List Item) (p : Pump T) : Prop where
  bears : BaseService.Bears (fun raw => raw <:+: (fedRuns H).2) p.service
  fed : (fedRuns H).2 <:+ bytesFed p.activeGeneration H
  runs : ∀ bytes ∈ (fedRuns H).1 ++ [(fedRuns H).2], ∃ session, bytes <:+: bytesRead session H
  frames : ∀ f, .served (.ingested f) ∈ H → ∃ session, f.raw <:+: bytesRead session H
  active : p.activeGeneration ≤ p.generation
  upTo : UpTo p.generation items
  knows : p.producer.Knows p.generation items
  future : ∀ session > p.sessions, bytesRead session H = []
  starting : p.producer = .starting → bytesRead p.sessions H = []
  region : ∃ session old rest,
    bytesRead session H = old ++ (current H p ++ (waiting p.generation items ++ rest)) ∧
      p.producer.Pending p.sessions session rest

namespace Pump

/-- The item in hand. -/
def handed : Consumer → List Item
  | .holding (some item) => [item]
  | _ => []

/-- The items on their way. -/
def onTheWay (p : Pump T) : List Item := handed p.consumer ++ p.queue

/-- The run has logged `H`. -/
structure Kept (H : List PumpEvent) (p : Pump T) : Prop extends Clean H p.onTheWay p where
  parser : p.service.parser.buffer <:+ (fedRuns H).2
  idle : p.consumer = .starting → (fedRuns H).2 = []

/-! ## The producer -/

/-- The states agree in everything that the producer only reads. -/
structure Same (p p' : Pump T) : Prop where
  service : p'.service = p.service
  active : p'.activeGeneration = p.activeGeneration
  generation : p'.generation = p.generation
  sessions : p'.sessions = p.sessions
  consumer : p'.consumer = p.consumer
  log : p'.log = p.log

theorem close_same (p : Pump T) : Same p p.close := by
  unfold close
  split <;> exact ⟨rfl, rfl, rfl, rfl, rfl, rfl⟩

theorem close_queue (p : Pump T) : p.close.queue = p.queue := by
  unfold close
  split <;> rfl

/-- A step of the producer that says nothing. -/
theorem Kept.move {p' : Pump T} (h : Kept H p) (hsame : Same p p') (hupTo : UpTo p.generation p'.onTheWay)
    (hknows : p'.producer.Knows p.generation p'.onTheWay) (hstarting : p'.producer ≠ .starting)
    (hregion : ∀ session rest, p.producer.Pending p.sessions session rest →
      ∃ rest', waiting p.generation p.onTheWay ++ rest = waiting p.generation p'.onTheWay ++ rest' ∧
        p'.producer.Pending p.sessions session rest') : Kept H p' where
  bears := hsame.service ▸ h.bears
  parser := hsame.service ▸ h.parser
  fed := hsame.active ▸ h.fed
  runs := h.runs
  frames := h.frames
  active := by rw [hsame.active, hsame.generation]; exact h.active
  upTo := hsame.generation ▸ hupTo
  knows := hsame.generation ▸ hknows
  future := hsame.sessions ▸ h.future
  starting := fun hp => absurd hp hstarting
  region := by
    obtain ⟨session, old, rest, hbytes, hpending⟩ := h.region
    obtain ⟨rest', hrest, hpending'⟩ := hregion session rest hpending
    refine ⟨session, old, rest', ?_, hsame.sessions ▸ hpending'⟩
    have hcurrent : current H p' = current H p := by
      unfold current
      rw [hsame.active, hsame.generation]
    rw [hbytes, hrest, hcurrent, hsame.generation]
  idle := fun hconsumer => h.idle (hsame.consumer ▸ hconsumer)

/-- A step of the producer that does not touch the queue either. -/
theorem Kept.stay {p' : Pump T} (h : Kept H p) (hsame : Same p p') (hqueue : p'.queue = p.queue)
    (hknows : p'.producer.Knows p.generation p.onTheWay) (hstarting : p'.producer ≠ .starting)
    (hpending : ∀ session rest, p.producer.Pending p.sessions session rest →
      p'.producer.Pending p.sessions session rest) : Kept H p' := by
  have hway : p'.onTheWay = p.onTheWay := by rw [onTheWay, onTheWay, hsame.consumer, hqueue]
  refine h.move hsame ?_ ?_ hstarting fun session rest hrest => ?_
  · rw [hway]
    exact h.upTo
  · rw [hway]
    exact hknows
  · rw [hway]
    exact ⟨rest, rfl, hpending session rest hrest⟩

/-- The producer closes its source. -/
theorem Kept.closed (h : Kept H p) {producer : Producer} (hproducer : producer = .leaving ∨ producer = .finished) :
    Kept H { p.close with producer := producer } := by
  have hsame := close_same p
  have hend : producer.Knows p.generation p.onTheWay ∧ producer ≠ .starting ∧
      ∀ session rest, producer.Pending p.sessions session rest := by
    rcases hproducer with rfl | rfl
    · exact ⟨trivial, by simp, fun _ _ => trivial⟩
    · exact ⟨trivial, by simp, fun _ _ => trivial⟩
  exact h.stay ⟨hsame.service, hsame.active, hsame.generation, hsame.sessions, hsame.consumer, hsame.log⟩ (close_queue p)
    hend.1 hend.2.1 fun session rest _ => hend.2.2 session rest

theorem Kept.counted (h : Kept H p) (name : PumpMetric) (amount : Nat) : Kept H (p.add name amount) := { h with }

/-- A new generation: nothing of it has been fed or is on its way. -/
theorem Kept.advance (h : Kept H p) {producer : Producer}
    (hknows : producer.Knows (p.generation + 1) p.onTheWay) (hstarting : producer ≠ .starting)
    (hregion : ∃ session old rest, bytesRead session H = old ++ rest ∧ producer.Pending p.sessions session rest) :
    Kept H { p with generation := p.generation + 1, producer := producer } := by
  have hactive : p.activeGeneration ≠ p.generation + 1 := by
    have hle := h.active
    omega
  refine ⟨⟨h.bears, h.fed, h.runs, h.frames, Nat.le_succ_of_le h.active, ?_, hknows, h.future, ?_, ?_⟩, h.parser, h.idle⟩
  · exact fun raw t g hmem => Nat.le_succ_of_le (h.upTo raw t g hmem)
  · exact fun hp => absurd hp hstarting
  · obtain ⟨session, old, rest, hbytes, hpending⟩ := hregion
    refine ⟨session, old, rest, ?_, hpending⟩
    have hcurrent : current H { p with generation := p.generation + 1, producer := producer } = [] := if_neg hactive
    rw [hcurrent, hbytes]
    show old ++ rest = old ++ ([] ++ (waiting (p.generation + 1) p.onTheWay ++ rest))
    rw [waiting_later h.upTo (Nat.lt_succ_self _)]
    rfl

/-- An item is put behind the others. -/
theorem Kept.put (h : Kept H p) {item : Item} {producer : Producer} (hitem : UpTo p.generation [item])
    (hknows : producer.Knows p.generation (p.onTheWay ++ [item])) (hstarting : producer ≠ .starting)
    (hpending : ∀ session rest, p.producer.Pending p.sessions session rest →
      ∃ rest', rest = waiting p.generation [item] ++ rest' ∧ producer.Pending p.sessions session rest') :
    Kept H { p with queue := p.queue ++ [item], producer := producer } := by
  have hway : onTheWay { p with queue := p.queue ++ [item], producer := producer } = p.onTheWay ++ [item] :=
    (List.append_assoc _ _ _).symm
  refine h.move ⟨rfl, rfl, rfl, rfl, rfl, rfl⟩ ?_ (hway ▸ hknows) hstarting fun session rest hrest => ?_
  · rw [hway]
    intro raw t g hmem
    rcases List.mem_append.mp hmem with hmem | hmem
    · exact h.upTo raw t g hmem
    · exact hitem raw t g hmem
  · obtain ⟨rest', rfl, hpending'⟩ := hpending session rest hrest
    exact ⟨rest', by rw [hway, waiting_append, List.append_assoc], hpending'⟩

theorem upTo_started (generation g : Nat) : UpTo generation [.started g] := by
  intro raw t g hmem
  simp at hmem

theorem upTo_chunk (raw : Bytes) (t : ℚ) (generation : Nat) : UpTo generation [.chunk raw t generation] := by
  intro raw' t' g hmem
  simp only [List.mem_singleton, Item.chunk.injEq] at hmem
  omega

theorem waiting_chunk (raw : Bytes) (t : ℚ) (generation : Nat) : waiting generation [.chunk raw t generation] = raw := by
  simp [waiting]

/-- The queue is emptied: all that is dropped is of earlier generations. -/
theorem discard_kept (h : Kept H p) {retained : Retained} {chunks bytes : Nat}
    (hproducer : p.producer = .discarding retained chunks bytes) : Kept H (p.discard retained chunks bytes) := by
  have hknows := h.knows
  rw [hproducer] at hknows
  obtain ⟨older, hlt, holder⟩ := hknows.older
  have hdrop : ∀ item queue chunks' bytes', p.queue = item :: queue →
      Kept H { p with queue := queue, producer := .discarding retained chunks' bytes' } := by
    intro item queue chunks' bytes' hqueue
    have hsub : ∀ x, x ∈ handed p.consumer ++ queue → x ∈ p.onTheWay := by
      intro x hx
      rw [onTheWay, hqueue]
      rcases List.mem_append.mp hx with hx | hx
      · exact List.mem_append_left _ hx
      · exact List.mem_append_right _ (List.mem_cons_of_mem _ hx)
    have hless : UpTo older (handed p.consumer ++ queue) := fun raw t g hmem => holder raw t g (hsub _ hmem)
    refine h.move ⟨rfl, rfl, rfl, rfl, rfl, rfl⟩ (fun raw t g hmem => h.upTo raw t g (hsub _ hmem)) ?_ (by simp) ?_
    · cases retained with
      | marker g => exact ⟨older, hlt, hless⟩
      | chunk raw t g => exact ⟨hknows.1, older, hlt, hless⟩
    · intro session rest hrest
      refine ⟨rest, ?_, ?_⟩
      · rw [waiting_later holder hlt, onTheWay, waiting_later hless hlt]
      · rw [hproducer] at hrest
        cases retained with
        | marker g => exact hrest
        | chunk raw t g => exact hrest
  unfold discard
  split
  · rename_i raw t g queue hqueue
    exact hdrop _ _ _ _ hqueue
  · rename_i item queue _ hqueue
    exact hdrop _ _ _ _ hqueue
  · cases retained with
    | marker g =>
      refine h.stay ?_ ?_ trivial (by simp) fun session rest hrest => ?_
      · split
        · exact ⟨rfl, rfl, rfl, rfl, rfl, rfl⟩
        · exact ⟨rfl, rfl, rfl, rfl, rfl, rfl⟩
      · split
        · rfl
        · rfl
      · rw [hproducer] at hrest
        exact hrest
    | chunk raw t g =>
      refine h.stay ?_ ?_ hknows.1 (by simp) fun session rest hrest => ?_
      · split
        · exact ⟨rfl, rfl, rfl, rfl, rfl, rfl⟩
        · exact ⟨rfl, rfl, rfl, rfl, rfl, rfl⟩
      · split
        · rfl
        · rfl
      · rw [hproducer] at hrest
        exact hrest

theorem discard_quiet (p : Pump T) (retained : Retained) (chunks bytes : Nat) :
    (p.discard retained chunks bytes).log = p.log ∧ (p.discard retained chunks bytes).generation = p.generation := by
  unfold discard
  split
  · exact ⟨rfl, rfl⟩
  · exact ⟨rfl, rfl⟩
  · cases retained <;> simp only <;> split <;> exact ⟨rfl, rfl⟩

theorem putNowait_kept {item : Item} {next full : Pump T → Pump T}
    (hnext : Kept H (next { p with queue := p.queue ++ [item] })) (hfull : Kept H (full p)) :
    Kept H (p.putNowait item next full) := by
  unfold putNowait
  split
  · exact hnext
  · exact hfull

/-- Events that say nothing about what is read or fed. -/
theorem Kept.quiet (h : Kept H p) {L : List PumpEvent} (hread : ∀ session, bytesRead session L = [])
    (hfed : ∀ generation, bytesFed generation L = []) (hruns : ∀ r, L.foldl feeding r = r)
    (hframes : ∀ f, .served (.ingested f) ∈ L → ∃ session, f.raw <:+: bytesRead session H) : Kept (H ++ L) p := by
  have hread' : ∀ session, bytesRead session (H ++ L) = bytesRead session H := by
    intro session
    rw [bytesRead_append, hread, List.append_nil]
  have hfed' : ∀ generation, bytesFed generation (H ++ L) = bytesFed generation H := by
    intro generation
    rw [bytesFed_append, hfed, List.append_nil]
  have hruns' : fedRuns (H ++ L) = fedRuns H := by rw [fedRuns_append, hruns]
  have hcurrent : current (H ++ L) p = current H p := by rw [current, current, hruns']
  refine ⟨⟨?_, ?_, ?_, ?_, h.active, h.upTo, h.knows, ?_, ?_, ?_⟩, ?_, ?_⟩
  · rw [hruns']
    exact h.bears
  · rw [hruns', hfed']
    exact h.fed
  · simp only [hruns', hread']
    exact h.runs
  · intro f hf
    simp only [hread']
    rcases List.mem_append.mp hf with hf | hf
    · exact h.frames f hf
    · exact hframes f hf
  · simp only [hread']
    exact h.future
  · rw [hread']
    exact h.starting
  · simp only [hread', hcurrent]
    exact h.region
  · rw [hruns']
    exact h.parser
  · rw [hruns']
    exact h.idle

/-- After a step of the producer: it has not called the service, and the generation is not an earlier one. -/
structure Produced (H : List PumpEvent) (p q : Pump T) : Prop where
  kept : Kept (H ++ q.log) q
  silent : ∀ e, .served e ∉ q.log
  generation : p.generation ≤ q.generation

/-- A step that logs nothing. -/
theorem Kept.produced {q : Pump T} (h : Kept H q) (hlog : p.log = [])
    (hsame : q.log = p.log ∧ q.generation = p.generation) :
    Produced H p q := by
  obtain ⟨hq, hgeneration⟩ := hsame
  refine ⟨?_, ?_, Nat.le_of_eq hgeneration.symm⟩
  · rw [hq, hlog, List.append_nil]
    exact h
  · rw [hq, hlog]
    exact fun e he => absurd he List.not_mem_nil

/-- A session of the source is opened; nothing has been read in it. -/
theorem opened_kept (h : Kept H p) (hlog : p.log = []) (answer : Option SourceError) :
    Produced H p (p.opened answer) := by
  rcases answer with _ | e
  · have hquiet : Kept (H ++ [.opened]) p :=
      h.quiet (fun _ => rfl) (fun _ => rfl) (fun _ => rfl) fun f hf => by simp at hf
    have hopened : ∀ q : Pump T, q.service = p.service → q.activeGeneration = p.activeGeneration →
        q.generation = p.generation → q.onTheWay = p.onTheWay → q.consumer = p.consumer → q.sessions = p.sessions + 1 →
        q.producer = .starting → Kept (H ++ [.opened]) q := by
      intro q hservice hactive hgeneration hway hconsumer hsessions hproducer
      have hcurrent : current (H ++ [.opened]) q = current (H ++ [.opened]) p := by
        rw [current, current, hactive, hgeneration]
      refine ⟨⟨hservice ▸ hquiet.bears, hactive ▸ hquiet.fed, hquiet.runs, hquiet.frames, ?_, ?_, ?_, ?_, ?_, ?_⟩,
        hservice ▸ hquiet.parser, ?_⟩
      · rw [hactive, hgeneration]
        exact h.active
      · rw [hgeneration, hway]
        exact h.upTo
      · rw [hproducer]
        exact trivial
      · intro session hlater
        exact hquiet.future session (by omega)
      · intro _
        exact hquiet.future _ (by omega)
      · obtain ⟨session, old, rest, hbytes, -⟩ := hquiet.region
        refine ⟨session, old, rest, ?_, ?_⟩
        · rw [hcurrent, hgeneration, hway]
          exact hbytes
        · rw [hproducer]
          exact trivial
      · rw [hconsumer]
        exact hquiet.idle
    have hevents : (p.opened none).log = [.opened] := by
      unfold opened
      simp only
      split
      · show p.log ++ [.opened] = _
        rw [hlog]
        rfl
      · show p.log ++ [.opened] = _
        rw [hlog]
        rfl
    refine ⟨?_, ?_, ?_⟩
    · rw [hevents]
      unfold opened
      simp only
      split
      · exact hopened _ rfl rfl rfl rfl rfl rfl rfl
      · exact hopened _ rfl rfl rfl rfl rfl rfl rfl
    · rw [hevents]
      exact fun e he => by simp at he
    · unfold opened
      simp only
      split <;> exact Nat.le_refl _
  · cases e with
    | invalid =>
      have hkept : Kept H { p with producer := .putting .failed } :=
        h.stay ⟨rfl, rfl, rfl, rfl, rfl, rfl⟩ rfl trivial nofun fun _ _ _ => trivial
      exact hkept.produced hlog ⟨rfl, rfl⟩
    | timeout | unavailable =>
      exact ((h.counted .rtcmSourceConnectFailures 1).closed (Or.inl rfl)).produced hlog
        ⟨(close_same _).log, (close_same _).generation⟩

/-- A chunk is read. -/
theorem reads_kept (h : Kept H p) (hlog : p.log = []) (hproducer : p.producer = .reading)
    (answer : Except SourceError (Bytes × ℚ)) : Produced H p (p.reads answer) := by
  rcases answer with e | ⟨raw, receivedAt⟩
  · cases e with
    | timeout => exact h.produced hlog ⟨rfl, rfl⟩
    | unavailable =>
      exact ((h.counted .rtcmSourceReadFailures 1).closed (Or.inl rfl)).produced hlog
        ⟨(close_same _).log, (close_same _).generation⟩
    | invalid =>
      have hkept : Kept H { p with producer := .putting .failed } :=
        h.stay ⟨rfl, rfl, rfl, rfl, rfl, rfl⟩ rfl trivial nofun fun _ _ _ => trivial
      exact hkept.produced hlog ⟨rfl, rfl⟩
  · unfold reads
    simp only
    split
    · split
      · exact h.produced hlog ⟨rfl, rfl⟩
      · exact (h.closed (Or.inl rfl)).produced hlog ⟨(close_same p).log, (close_same p).generation⟩
    · have hevents : p.log ++ [.read p.sessions raw] = [.read p.sessions raw] := by rw [hlog]; rfl
      refine ⟨?_, fun e he => ?_, Nat.le_refl _⟩
      swap
      · have hmem : .served e ∈ p.log ++ [.read p.sessions raw] := he
        rw [hevents] at hmem
        simp at hmem
      show Kept (H ++ (p.log ++ [.read p.sessions raw])) _
      rw [hevents]
      have hruns : fedRuns (H ++ [.read p.sessions raw]) = fedRuns H := fedRuns_append _ _
      have hfed : ∀ generation, bytesFed generation (H ++ [.read p.sessions raw]) = bytesFed generation H :=
        fun generation => (bytesFed_append _ _ _).trans (List.append_nil _)
      have hread : ∀ session, bytesRead session (H ++ [.read p.sessions raw]) =
          bytesRead session H ++ if p.sessions = session then raw else [] := by
        intro session
        rw [bytesRead_append]
        exact congrArg _ (List.append_nil _)
      have hgrow : ∀ {bytes : Bytes}, (∃ session, bytes <:+: bytesRead session H) →
          ∃ session, bytes <:+: bytesRead session (H ++ [.read p.sessions raw]) := by
        rintro bytes ⟨session, hin⟩
        refine ⟨session, hin.trans ?_⟩
        rw [hread]
        exact (List.prefix_append _ _).isInfix
      refine ⟨⟨?_, ?_, ?_, ?_, h.active, h.upTo, trivial, ?_, ?_, ?_⟩, ?_, ?_⟩
      · rw [hruns]
        exact h.bears
      · rw [hruns, hfed]
        exact h.fed
      · rw [hruns]
        exact fun bytes hbytes => hgrow (h.runs bytes hbytes)
      · intro f hf
        rcases List.mem_append.mp hf with hf | hf
        · exact hgrow (h.frames f hf)
        · simp at hf
      · intro session hlater
        have hne : p.sessions ≠ session := Nat.ne_of_lt hlater
        rw [hread, if_neg hne, h.future session hlater]
        rfl
      · intro hstarting
        cases hstarting
      · obtain ⟨session, old, rest, hbytes, hpending⟩ := h.region
        rw [hproducer] at hpending
        obtain ⟨rfl, rfl⟩ := hpending
        refine ⟨p.sessions, old, raw, ?_, rfl, rfl⟩
        have hcurrent : current (H ++ [.read p.sessions raw]) p = current H p := by rw [current, current, hruns]
        show _ = old ++ (current (H ++ [.read p.sessions raw]) p ++ (waiting p.generation p.onTheWay ++ raw))
        rw [hread, if_pos rfl, hbytes, hcurrent, List.append_nil, List.append_assoc, List.append_assoc]
      · rw [hruns]
        exact h.parser
      · rw [hruns]
        exact h.idle

/-- `_put`, and what follows it. -/
theorem putting_kept (h : Kept H p) {item : Item} (hproducer : p.producer = .putting item) :
    Kept H (p.afterPut item false) ∧ Kept H (p.putNowait item (afterPut item true) id) := by
  have hknows := h.knows
  rw [hproducer] at hknows
  have hpending : ∀ session rest, p.producer.Pending p.sessions session rest →
      (Producer.putting item).Pending p.sessions session rest := fun session rest hrest => hproducer ▸ hrest
  cases item with
  | chunk raw t g => exact hknows.elim
  | started g =>
    refine ⟨h.closed (Or.inr rfl), putNowait_kept ?_ h⟩
    exact h.put (upTo_started _ _) trivial nofun fun session rest hrest => ⟨rest, rfl, hpending session rest hrest⟩
  | failed =>
    refine ⟨h.closed (Or.inr rfl), putNowait_kept ?_ h⟩
    have hput : Kept H { p with queue := p.queue ++ [.failed], producer := p.producer } := by
      rw [hproducer]
      exact h.put (fun raw t g hmem => by simp at hmem) trivial nofun fun session rest _ => ⟨rest, rfl, trivial⟩
    exact hput.closed (Or.inr rfl)
  | done =>
    have hend : Kept H { p with producer := .finished } :=
      h.stay ⟨rfl, rfl, rfl, rfl, rfl, rfl⟩ rfl trivial nofun fun _ _ _ => trivial
    refine ⟨hend, putNowait_kept ?_ h⟩
    exact h.put (fun raw t g hmem => by simp at hmem) trivial nofun fun session rest _ => ⟨rest, rfl, trivial⟩

/-- A chunk of the current generation is put, and nothing more is pending. -/
theorem Kept.putChunk (h : Kept H p) {raw : Bytes} {t : ℚ} {generation : Nat} (hgeneration : generation = p.generation)
    (hpending : ∀ session rest, p.producer.Pending p.sessions session rest → rest = raw ∧ session = p.sessions) :
    Kept H { p with queue := p.queue ++ [.chunk raw t generation], producer := .reading } := by
  subst hgeneration
  refine h.put (upTo_chunk _ _ _) trivial nofun fun session rest hrest => ?_
  obtain ⟨rfl, hsession⟩ := hpending session rest hrest
  exact ⟨[], by rw [waiting_chunk, List.append_nil], rfl, hsession⟩

/-- **The producer** keeps the bytes of the current generation together. -/
theorem produce_kept (h : Kept H p) (hlog : p.log = []) (answer : Answer) : Produced H p (p.produce answer) := by
  have hput : ∀ item (next full : Pump T → Pump T), (∀ q, (next q).log = q.log ∧ (next q).generation = q.generation) →
      (∀ q, (full q).log = q.log ∧ (full q).generation = q.generation) →
      (p.putNowait item next full).log = p.log ∧ (p.putNowait item next full).generation = p.generation := by
    intro item next full hnext hfull
    unfold putNowait
    split
    · exact hnext _
    · exact hfull p
  have hdie : ∀ q : Pump T, q.die.log = q.log ∧ q.die.generation = q.generation :=
    fun q => ⟨(close_same q).log, (close_same q).generation⟩
  have hafter : ∀ item done (q : Pump T),
      (q.afterPut item done).log = q.log ∧ (q.afterPut item done).generation = q.generation := by
    intro item done q
    cases item with
    | started g =>
      cases done with
      | false => exact hdie q
      | true => exact ⟨rfl, rfl⟩
    | failed => exact hdie q
    | done | chunk => exact ⟨rfl, rfl⟩
  have hquiet : ∀ q : Pump T, q.log = p.log ∧ q.generation = p.generation → Kept H q → Produced H p q :=
    fun q hsame hkept => hkept.produced hlog hsame
  have hadvance : ∀ {q : Pump T}, q.log = p.log → q.generation = p.generation + 1 → Kept H q → Produced H p q := by
    intro q hq hgeneration hkept
    refine ⟨?_, ?_, by omega⟩
    · rw [hq, hlog, List.append_nil]
      exact hkept
    · rw [hq, hlog]
      exact fun e he => absurd he List.not_mem_nil
  have hknows := h.knows
  have hpending : ∀ producer, p.producer = producer → ∀ session rest, p.producer.Pending p.sessions session rest →
      producer.Pending p.sessions session rest := fun producer hproducer session rest hrest => hproducer ▸ hrest
  unfold produce
  split
  · split
    · exact hquiet _ ⟨rfl, rfl⟩ (h.stay ⟨rfl, rfl, rfl, rfl, rfl, rfl⟩ rfl trivial nofun fun _ _ _ => trivial)
    · exact opened_kept h hlog _
  · rename_i hproducer
    refine hadvance rfl rfl (h.advance ⟨p.generation, Nat.lt_succ_self _, h.upTo⟩ nofun ?_)
    exact ⟨p.sessions, [], [], h.starting hproducer, rfl, rfl⟩
  · rename_i retained chunks bytes hproducer
    exact hquiet _ (discard_quiet _ _ _ _) (discard_kept h hproducer)
  · rename_i item hproducer
    obtain ⟨hstopped, hkept⟩ := putting_kept h hproducer
    split
    · exact hquiet _ (hafter _ _ _) hstopped
    · exact hquiet _ (hput _ _ _ (hafter _ _) fun _ => ⟨rfl, rfl⟩) hkept
  · rename_i hproducer
    split
    · exact hquiet _ ⟨(close_same p).log, (close_same p).generation⟩ (h.closed (Or.inl rfl))
    · exact reads_kept h hlog hproducer _
  · rename_i raw t hproducer
    split
    · exact hquiet _ (hdie p) (h.closed (Or.inr rfl))
    · exact hquiet _ ⟨rfl, rfl⟩ (h.stay ⟨rfl, rfl, rfl, rfl, rfl, rfl⟩ rfl trivial nofun fun q rest hrest =>
        (hpending _ hproducer q rest hrest :))
  · rename_i raw t hproducer
    exact hquiet _ ⟨rfl, rfl⟩ (h.stay ⟨rfl, rfl, rfl, rfl, rfl, rfl⟩ rfl rfl nofun fun q rest hrest =>
      (hpending _ hproducer q rest hrest :))
  · rename_i raw t generation hproducer
    rw [hproducer] at hknows
    refine hquiet _ (hput _ _ _ (fun _ => ⟨rfl, rfl⟩) fun _ => ⟨rfl, rfl⟩) (putNowait_kept ?_ ?_)
    · exact h.putChunk hknows (hpending _ hproducer)
    · exact h.stay ⟨rfl, rfl, rfl, rfl, rfl, rfl⟩ rfl trivial nofun fun q rest hrest =>
        (hpending _ hproducer q rest hrest :)
  · rename_i raw t hproducer
    refine hadvance rfl rfl (h.advance ⟨rfl, p.generation, Nat.lt_succ_self _, h.upTo⟩ nofun ?_)
    obtain ⟨session, old, rest, hbytes, hrest⟩ := h.region
    refine ⟨session, old ++ (current H p ++ waiting p.generation p.onTheWay), rest, ?_, hpending _ hproducer _ _ hrest⟩
    rw [hbytes, List.append_assoc, List.append_assoc]
  · rename_i raw t generation hproducer
    rw [hproducer] at hknows
    refine hquiet _ (hput _ _ _ (fun _ => ⟨rfl, rfl⟩) hdie) (putNowait_kept ?_ (h.closed (Or.inr rfl)))
    exact h.put (upTo_started _ _) hknows nofun fun session rest hrest => ⟨rest, rfl, hpending _ hproducer _ _ hrest⟩
  · rename_i raw t generation hproducer
    rw [hproducer] at hknows
    refine hquiet _ (hput _ _ _ (fun _ => ⟨rfl, rfl⟩) hdie) (putNowait_kept ?_ (h.closed (Or.inr rfl)))
    exact h.putChunk hknows (hpending _ hproducer)
  · split
    · exact hquiet _ ⟨rfl, rfl⟩ (h.stay ⟨rfl, rfl, rfl, rfl, rfl, rfl⟩ rfl trivial nofun fun _ _ _ => trivial)
    · refine hquiet _ ⟨rfl, rfl⟩ (h.stay ⟨rfl, rfl, rfl, rfl, rfl, rfl⟩ rfl ?_ ?_ fun _ _ _ => ?_)
      · show Producer.Knows _ _ (if answer.stopped then .finished else .opening)
        split <;> exact trivial
      · show (if answer.stopped then Producer.finished else .opening) ≠ .starting
        split <;> nofun
      · show Producer.Pending _ _ _ (if answer.stopped then .finished else .opening)
        split <;> exact trivial
  · exact hquiet _ ⟨rfl, rfl⟩ h

end Pump

/-! ## The consumer -/

/-- A part of what has been fed since the last reset. -/
def Recent (H : List PumpEvent) (raw : Bytes) : Prop := raw <:+: (fedRuns H).2

/-- The service is called. -/
theorem Clean.serve (h : Clean H items p) {b : BaseService T} (hbears : BaseService.Bears (Recent H) b)
    (hlog : ∀ e ∈ b.log, e.From (Recent H)) (L : List PumpEvent) :
    Clean (H ++ b.log.map .served) items { p with service := b, log := L } := by
  obtain ⟨hread, hfed, hruns⟩ := served_silent b.log
  have hread' : ∀ session, bytesRead session (H ++ b.log.map .served) = bytesRead session H := by
    intro session
    rw [bytesRead_append, hread, List.append_nil]
  have hruns' : fedRuns (H ++ b.log.map .served) = fedRuns H := by rw [fedRuns_append, hruns]
  refine ⟨?_, ?_, ?_, ?_, h.active, h.upTo, h.knows, ?_, ?_, ?_⟩
  · rw [hruns']
    exact hbears
  · rw [hruns', bytesFed_append, hfed, List.append_nil]
    exact h.fed
  · simp only [hruns', hread']
    exact h.runs
  · intro f hf
    simp only [hread']
    rcases List.mem_append.mp hf with hf | hf
    · exact h.frames f hf
    · obtain ⟨e, he, heq⟩ := List.mem_map.mp hf
      cases heq
      obtain ⟨session, hin⟩ := h.runs _ (List.mem_append_right _ (List.mem_singleton_self _))
      exact ⟨session, (hlog _ he).trans hin⟩
  · simp only [hread']
    exact h.future
  · rw [hread']
    exact h.starting
  · have hcurrent : current (H ++ b.log.map .served) p = current H p := by rw [current, current, hruns']
    obtain ⟨session, old, rest, hbytes, hpending⟩ := h.region
    exact ⟨session, old, rest, by rw [hread', hbytes, ← hcurrent]; rfl, hpending⟩

/-- The parser is reset: the next bytes are those of the current generation. -/
theorem Clean.reset (h : Clean H items p) (hne : p.generation ≠ p.activeGeneration) {b : BaseService T}
    (hbears : BaseService.Bears (fun _ => False) b) (L : List PumpEvent) :
    Clean (H ++ [.reset]) items { p with activeGeneration := p.generation, service := b, log := L } := by
  have hruns : fedRuns (H ++ [.reset]) = ((fedRuns H).1 ++ [(fedRuns H).2], []) := fedRuns_append _ _
  have hread : ∀ session, bytesRead session (H ++ [.reset]) = bytesRead session H :=
    fun session => (bytesRead_append _ _ _).trans (List.append_nil _)
  refine ⟨?_, ?_, ?_, ?_, Nat.le_refl _, h.upTo, h.knows, ?_, ?_, ?_⟩
  · exact hbears.mono fun _ hraw => hraw.elim
  · rw [hruns]
    exact List.nil_suffix
  · simp only [hruns, hread]
    intro bytes hbytes
    rcases List.mem_append.mp hbytes with hbytes | hbytes
    · exact h.runs bytes hbytes
    · rw [List.mem_singleton.mp hbytes]
      exact ⟨0, List.nil_infix⟩
  · intro f hf
    simp only [hread]
    rcases List.mem_append.mp hf with hf | hf
    · exact h.frames f hf
    · simp at hf
  · simp only [hread]
    exact h.future
  · rw [hread]
    exact h.starting
  · obtain ⟨session, old, rest, hbytes, hpending⟩ := h.region
    refine ⟨session, old, rest, ?_, hpending⟩
    have hbefore : current H p = [] := if_neg (Ne.symm hne)
    have hafter : current (H ++ [.reset]) { p with activeGeneration := p.generation, service := b, log := L } = [] := by
      rw [current, hruns]
      exact if_pos rfl
    rw [hread, hbytes, hbefore, hafter]

/-- A chunk of the current generation is fed: it is the next that has been read. -/
theorem Clean.feed {raw : Bytes} {t : ℚ} {g : Nat} (h : Clean H (.chunk raw t g :: items) p) (hg : g = p.generation)
    (hactive : p.activeGeneration = p.generation) (L : List PumpEvent) :
    Clean (H ++ [.fed g raw]) items { p with log := L } := by
  have hruns : fedRuns (H ++ [.fed g raw]) = ((fedRuns H).1, (fedRuns H).2 ++ raw) := fedRuns_append _ _
  have hread : ∀ session, bytesRead session (H ++ [.fed g raw]) = bytesRead session H :=
    fun session => (bytesRead_append _ _ _).trans (List.append_nil _)
  have hgrow : ∀ raw', raw' <:+: (fedRuns H).2 → raw' <:+: (fedRuns (H ++ [.fed g raw])).2 := by
    intro raw' hin
    rw [hruns]
    exact hin.trans (List.prefix_append _ _).isInfix
  have hwaiting : waiting p.generation (.chunk raw t g :: items) = raw ++ waiting p.generation items := by
    show (if g = p.generation then raw else []) ++ _ = _
    rw [if_pos hg]
    rfl
  have hcurrent : current H p = (fedRuns H).2 := if_pos hactive
  have hregion : ∃ session old rest, bytesRead session H =
      old ++ (((fedRuns H).2 ++ raw) ++ (waiting p.generation items ++ rest)) ∧
      p.producer.Pending p.sessions session rest := by
    obtain ⟨session, old, rest, hbytes, hpending⟩ := h.region
    refine ⟨session, old, rest, ?_, hpending⟩
    rw [hbytes, hcurrent, hwaiting, List.append_assoc, List.append_assoc]
  refine ⟨h.bears.mono hgrow, ?_, ?_, ?_, h.active, ?_, ?_, ?_, ?_, ?_⟩
  · rw [hruns, bytesFed_append]
    show (fedRuns H).2 ++ raw <:+ bytesFed p.activeGeneration H ++ ((if g = p.activeGeneration then raw else []) ++ [])
    rw [if_pos (hg.trans hactive.symm), List.append_nil]
    obtain ⟨front, hfront⟩ := h.fed
    exact ⟨front, by rw [← List.append_assoc, hfront]⟩
  · simp only [hruns, hread]
    intro bytes hbytes
    rcases List.mem_append.mp hbytes with hbytes | hbytes
    · exact h.runs bytes (List.mem_append_left _ hbytes)
    · obtain ⟨session, old, rest, hsplit, -⟩ := hregion
      rw [List.mem_singleton.mp hbytes]
      exact ⟨session, old, waiting p.generation items ++ rest, by rw [hsplit, List.append_assoc]⟩
  · intro f hf
    simp only [hread]
    rcases List.mem_append.mp hf with hf | hf
    · exact h.frames f hf
    · simp at hf
  · exact fun raw t g hmem => h.upTo raw t g (List.mem_cons_of_mem _ hmem)
  · exact h.knows.sub fun x hx => List.mem_cons_of_mem _ hx
  · simp only [hread]
    exact h.future
  · rw [hread]
    exact h.starting
  · obtain ⟨session, old, rest, hsplit, hpending⟩ := hregion
    refine ⟨session, old, rest, ?_, hpending⟩
    have hcurrent' : current (H ++ [.fed g raw]) p = (fedRuns H).2 ++ raw := by
      rw [current, hruns]
      exact if_pos hactive
    show _ = old ++ (current (H ++ [.fed g raw]) p ++ (waiting p.generation items ++ rest))
    rw [hread, hsplit, hcurrent']

theorem Clean.congr (h : Clean H items p) {q : Pump T} (hservice : q.service = p.service)
    (hactive : q.activeGeneration = p.activeGeneration) (hgeneration : q.generation = p.generation)
    (hsessions : q.sessions = p.sessions) (hproducer : q.producer = p.producer) : Clean H items q := by
  have hcurrent : current H q = current H p := by rw [current, current, hactive, hgeneration]
  exact
    { bears := hservice ▸ h.bears
      fed := hactive ▸ h.fed
      runs := h.runs
      frames := h.frames
      active := by rw [hactive, hgeneration]; exact h.active
      upTo := hgeneration ▸ h.upTo
      knows := by rw [hgeneration, hproducer]; exact h.knows
      future := hsessions ▸ h.future
      starting := by rw [hproducer, hsessions]; exact h.starting
      region := by rw [hcurrent, hgeneration, hproducer, hsessions]; exact h.region }

/-- Items are gone that were not of the current generation. -/
theorem Clean.sub (h : Clean H items p) {items' : List Item} (hsub : ∀ x ∈ items', x ∈ items)
    (hwaiting : waiting p.generation items' = waiting p.generation items) : Clean H items' p where
  bears := h.bears
  fed := h.fed
  runs := h.runs
  frames := h.frames
  active := h.active
  upTo := fun raw t g hmem => h.upTo raw t g (hsub _ hmem)
  knows := h.knows.sub hsub
  future := h.future
  starting := h.starting
  region := by
    rw [hwaiting]
    exact h.region

namespace Pump

/-- Inside the section under the lock, with the parser at the current generation `g`. -/
structure Guarded (H : List PumpEvent) (items : List Item) (g : Nat) (p : Pump T) : Prop
    extends Clean (H ++ p.log) items p where
  parser : p.service.parser.buffer <:+ (fedRuns (H ++ p.log)).2
  log : ∀ e, .served e ∈ p.log → e.From (Recent (H ++ p.log))
  current : p.activeGeneration = g ∧ p.generation = g

theorem guarded_of {L : List PumpEvent} {g : Nat} (hlog : p.log = L) (hclean : Clean (H ++ L) items p)
    (hparser : p.service.parser.buffer <:+ (fedRuns (H ++ L)).2) (hserved : ∀ e, .served e ∈ L → e.From (Recent (H ++ L)))
    (hcurrent : p.activeGeneration = g ∧ p.generation = g) : Guarded H items g p := by
  subst hlog
  exact ⟨hclean, hparser, hserved, hcurrent⟩

theorem fedRuns_served (H : List PumpEvent) (es : List Event) : fedRuns (H ++ es.map .served) = fedRuns H := by
  rw [fedRuns_append]
  exact (served_silent es).2.2 _

theorem mem_served {es : List Event} {e : Event} (h : PumpEvent.served e ∈ es.map PumpEvent.served) : e ∈ es := by
  obtain ⟨e', he', heq⟩ := List.mem_map.mp h
  cases heq
  exact he'

variable [Transport T E]

/-- A call of the service inside the section; the parser is left with the end of what it was fed. -/
theorem serve_guarded {g : Nat} (h : Clean (H ++ p.log) items p)
    (hlog : ∀ e, .served e ∈ p.log → e.From (Recent (H ++ p.log))) (hcurrent : p.activeGeneration = g ∧ p.generation = g)
    {i : Input E} {parser : RtcmStreamParser}
    (hfrom : BaseService.From parser (Recent (H ++ p.log)) (BaseService.next i p.service))
    (hparser : parser.buffer <:+ (fedRuns (H ++ p.log)).2) : Guarded H items g (p.serve i) := by
  have hclean := h.serve hfrom.bears hfrom.log []
  rw [List.append_assoc] at hclean
  have hruns : fedRuns (H ++ (p.log ++ (BaseService.next i p.service).log.map .served)) = fedRuns (H ++ p.log) := by
    rw [← List.append_assoc, fedRuns_served]
  have hrecent : Recent (H ++ (p.log ++ (BaseService.next i p.service).log.map .served)) = Recent (H ++ p.log) := by
    unfold Recent
    rw [hruns]
  refine guarded_of (L := p.log ++ (BaseService.next i p.service).log.map .served) rfl ?_ ?_ ?_ hcurrent
  · exact hclean.congr rfl rfl rfl rfl rfl
  · rw [hruns]
    exact hfrom.parser ▸ hparser
  · rw [hrecent]
    intro e he
    rcases List.mem_append.mp he with he | he
    · exact hlog e he
    · exact hfrom.log e (mem_served he)

/-- The section begins with a parser of the current generation. -/
theorem follow_guarded (h : Clean H items p) (hparser : p.service.parser.buffer <:+ (fedRuns H).2) (hlog : p.log = []) :
    Guarded H items p.generation p.follow ∧ p.follow.queue = p.queue := by
  unfold follow
  split
  · rename_i hne
    have hfrom := BaseService.next_resetSource_from (P := fun _ => False) (E := E) p.service
    have hnone : ∀ raw, False → Recent (H ++ [.reset]) raw := fun _ hraw => hraw.elim
    have hserved :=
      (h.reset hne hfrom.bears []).serve (hfrom.bears.mono hnone) (fun e he => (hfrom.log e he).mono hnone) []
    rw [List.append_assoc] at hserved
    have hevents : p.log ++ [.reset] ++ (BaseService.next (.resetSource : Input E) p.service).log.map .served =
        [.reset] ++ (BaseService.next (.resetSource : Input E) p.service).log.map .served := by
      rw [hlog]
      rfl
    refine ⟨guarded_of hevents (hserved.congr rfl rfl rfl rfl rfl) ?_ ?_ ⟨rfl, rfl⟩, rfl⟩
    · show (BaseService.next (.resetSource : Input E) p.service).parser.buffer <:+ _
      rw [hfrom.parser]
      exact List.nil_suffix
    · intro e he
      rcases List.mem_append.mp he with he | he
      · simp at he
      · exact (hfrom.log e (mem_served he)).mono fun _ hraw => hraw.elim
  · rename_i heq
    rw [not_not] at heq
    refine ⟨guarded_of hlog ?_ ?_ (fun e he => absurd he List.not_mem_nil) ⟨heq.symm, rfl⟩, rfl⟩
    · rw [List.append_nil]
      exact h
    · rw [List.append_nil]
      exact hparser

/-- The item in hand is fed to the parser, or is not of the current generation. -/
theorem hand_guarded {item : Option Item} {g : Nat} (h : Guarded H (item.toList ++ items) g p) :
    Guarded H items g (p.hand item) ∧ (p.hand item).queue = p.queue := by
  have hdrop : ∀ x, waiting p.generation [x] = [] → item = some x → Guarded H items g p := by
    rintro x hx rfl
    refine ⟨h.toClean.sub (fun y hy => List.mem_append_right _ hy) ?_, h.parser, h.log, h.current⟩
    rw [waiting_append]
    show _ = waiting p.generation [x] ++ _
    rw [hx]
    rfl
  have hcounted : ∀ {q : Pump T}, Guarded H items g q → ∀ name amount, Guarded H items g (q.add name amount) :=
    fun hq name amount => ⟨hq.toClean.congr rfl rfl rfl rfl rfl, hq.parser, hq.log, hq.current⟩
  unfold hand
  split
  · rename_i generation
    have hmarker := hdrop (.started generation) rfl rfl
    split
    · exact ⟨hcounted hmarker _ _, rfl⟩
    · exact ⟨hmarker, rfl⟩
  · rename_i raw t generation
    split
    · rename_i hne
      have hchunk := hdrop (.chunk raw t generation) ((List.append_nil _).trans (if_neg hne)) rfl
      exact ⟨hcounted (hcounted hchunk _ _) _ _, rfl⟩
    · rename_i heq
      rw [not_not] at heq
      refine ⟨?_, rfl⟩
      have hfeed := h.toClean.feed heq (h.current.1.trans h.current.2.symm) (p.log ++ [.fed generation raw])
      rw [List.append_assoc] at hfeed
      have hruns : (fedRuns (H ++ (p.log ++ [.fed generation raw]))).2 = (fedRuns (H ++ p.log)).2 ++ raw := by
        rw [← List.append_assoc, fedRuns_append]
        rfl
      have hgrow : ∀ raw', Recent (H ++ p.log) raw' → Recent (H ++ (p.log ++ [.fed generation raw])) raw' := by
        intro raw' hin
        unfold Recent at hin ⊢
        rw [hruns]
        exact hin.trans (List.prefix_append _ _).isInfix
      have hbuffer : p.service.parser.buffer ++ raw <:+ (fedRuns (H ++ (p.log ++ [.fed generation raw]))).2 := by
        obtain ⟨front, hfront⟩ := h.parser
        exact ⟨front, by rw [hruns, ← List.append_assoc, hfront]⟩
      obtain ⟨hrest, hframes⟩ := RtcmStreamParser.feed_infix p.service.parser raw t
      refine serve_guarded (p := p.note (.fed generation raw)) hfeed ?_ h.current
        (BaseService.next_ingest_from (h.bears.mono hgrow) raw t fun f hf => (hframes f hf).trans hbuffer.isInfix)
        (hrest.trans hbuffer)
      intro e he
      rcases List.mem_append.mp he with he | he
      · exact (h.log e he).mono hgrow
      · simp at he
  · rename_i hother hother'
    rcases item with _ | item
    · exact ⟨h, rfl⟩
    · cases item with
      | started generation => exact absurd rfl (hother generation)
      | chunk raw t generation => exact absurd rfl (hother' raw t generation)
      | failed => exact ⟨hdrop _ rfl rfl, rfl⟩
      | done => exact ⟨hdrop _ rfl rfl, rfl⟩

/-- After a step of the consumer: what it has handed to the transport comes from bytes of the current generation. -/
structure Consumed (H : List PumpEvent) (p q : Pump T) : Prop where
  kept : Kept (H ++ q.log) q
  served : ∀ e, .served e ∈ q.log → e.From fun raw => raw <:+: bytesFed p.generation (H ++ q.log)
  generation : q.generation = p.generation

/-- The whole section: what it hands to the transport comes from bytes of the current generation. -/
theorem guarded_kept {item : Option Item} (h : Kept H p) (hlog : p.log = []) (hconsumer : p.consumer = .holding item)
    (io : E) (now : ℚ) : Consumed H p (p.guarded item io now) := by
  have hway : p.onTheWay = item.toList ++ p.queue := by
    rw [onTheWay, hconsumer]
    cases item <;> rfl
  obtain ⟨hfollow, hqueue⟩ := follow_guarded (E := E) (hway ▸ h.toClean) h.parser hlog
  obtain ⟨hhand, hqueue'⟩ := hand_guarded hfollow
  have hstep := serve_guarded hhand.toClean hhand.log hhand.current
    (BaseService.next_step_from hhand.bears io now) hhand.parser
  have hqueue'' : ((p.follow.hand item).serve (.step io now)).queue = p.queue := hqueue'.trans hqueue
  unfold guarded
  generalize (p.follow.hand item).serve (.step io now) = q at hstep hqueue''
  have hitems : onTheWay { q with consumer := if escaped q.service then .ended else .ticking } = p.queue := by
    rw [onTheWay, ← hqueue'']
    show handed (if escaped q.service then Consumer.ended else .ticking) ++ q.queue = q.queue
    split <;> rfl
  refine ⟨⟨?_, hstep.parser, ?_⟩, ?_, hstep.current.2⟩
  · rw [hitems]
    exact hstep.toClean.congr rfl rfl rfl rfl rfl
  · show (if escaped q.service then Consumer.ended else .ticking) = .starting → _
    split <;> nofun
  · intro e he
    refine (hstep.log e he).mono fun raw hraw => hraw.trans ?_
    have hfed := hstep.fed
    rw [hstep.current.1] at hfed
    exact hfed.isInfix

/-- A step of the consumer that calls nothing. -/
theorem Kept.turn (h : Kept H p) {q : Pump T} (hservice : q.service = p.service)
    (hactive : q.activeGeneration = p.activeGeneration) (hgeneration : q.generation = p.generation)
    (hsessions : q.sessions = p.sessions) (hproducer : q.producer = p.producer)
    (hsub : ∀ x ∈ q.onTheWay, x ∈ p.onTheWay)
    (hwaiting : waiting p.generation q.onTheWay = waiting p.generation p.onTheWay) (hconsumer : q.consumer ≠ .starting) :
    Kept H q :=
  ⟨(h.toClean.sub hsub hwaiting).congr hservice hactive hgeneration hsessions hproducer, hservice ▸ h.parser,
    fun hstarting => absurd hstarting hconsumer⟩

/-- An item is taken from the queue. -/
theorem get_kept (h : Kept H p) (hconsumer : p.consumer = .getting) : Kept H p.get := by
  have hway : p.onTheWay = p.queue := by
    rw [onTheWay, hconsumer]
    rfl
  unfold get
  split
  · rename_i hqueue
    refine h.turn rfl rfl rfl rfl rfl ?_ ?_ nofun
    · rw [hway]
      exact fun x hx => hx
    · rw [hway]
      rfl
  · rename_i queue hqueue
    refine h.turn rfl rfl rfl rfl rfl ?_ ?_ nofun
    · rw [hway, hqueue]
      exact fun x hx => List.mem_cons_of_mem _ hx
    · rw [hway, hqueue]
      rfl
  · rename_i queue hqueue
    refine h.turn rfl rfl rfl rfl rfl ?_ ?_ nofun
    · rw [hway, hqueue]
      exact fun x hx => hx
    · rw [hway, hqueue]
      rfl
  · rename_i item queue _ _ hqueue
    refine h.turn rfl rfl rfl rfl rfl ?_ ?_ nofun
    · rw [hway, hqueue]
      exact fun x hx => hx
    · rw [hway, hqueue]
      rfl

/-- **The consumer** feeds the parser what comes next, and sends nothing of an earlier generation. -/
theorem consume_kept (h : Kept H p) (hlog : p.log = []) (stopped : Bool) (io : E) (now : ℚ) :
    Consumed H p (p.consume stopped io now) := by
  have hquiet : ∀ q : Pump T, q.log = p.log ∧ q.generation = p.generation → Kept H q → Consumed H p q := by
    rintro q ⟨hq, hgeneration⟩ hkept
    refine ⟨?_, ?_, hgeneration⟩
    · rw [hq, hlog, List.append_nil]
      exact hkept
    · rw [hq, hlog]
      exact fun e he => absurd he List.not_mem_nil
  unfold consume
  split
  · rename_i hconsumer
    have hnone := h.idle hconsumer
    have hway : p.onTheWay = p.queue := by
      rw [onTheWay, hconsumer]
      rfl
    have hcurrent : ∀ q : Pump T, current H q = [] := by
      intro q
      unfold current
      rw [hnone]
      split <;> rfl
    have hupTo := h.upTo
    have hknows := h.knows
    rw [hway] at hupTo hknows
    refine hquiet _ ⟨rfl, rfl⟩
      ⟨⟨h.bears, ?_, h.runs, h.frames, Nat.le_refl _, hupTo, hknows, h.future, h.starting, ?_⟩, h.parser, nofun⟩
    · rw [hnone]
      exact List.nil_suffix
    · obtain ⟨session, old, rest, hbytes, hpending⟩ := h.region
      refine ⟨session, old, rest, ?_, hpending⟩
      rw [hbytes, hcurrent, hcurrent, hway]
      rfl
  · rename_i hconsumer
    split
    · refine hquiet _ ⟨rfl, rfl⟩ (h.turn rfl rfl rfl rfl rfl ?_ ?_ nofun)
      · rw [onTheWay, onTheWay, hconsumer]
        exact fun x hx => hx
      · rw [onTheWay, onTheWay, hconsumer]
        rfl
    · refine hquiet _ ?_ (get_kept h hconsumer)
      unfold get
      split <;> exact ⟨rfl, rfl⟩
  · rename_i item hconsumer
    exact guarded_kept h hlog hconsumer io now
  · rename_i hconsumer
    have hway : (p.tick now).onTheWay = p.onTheWay := by
      rw [onTheWay, onTheWay, hconsumer]
      show handed (if _ then Consumer.ended else .getting) ++ p.queue = _
      split <;> rfl
    refine hquiet _ ⟨rfl, rfl⟩ (h.turn rfl rfl rfl rfl rfl ?_ ?_ ?_)
    · rw [hway]
      exact fun x hx => hx
    · rw [hway]
    · show (if _ then Consumer.ended else .getting) ≠ .starting
      split <;> nofun
  · exact hquiet _ ⟨rfl, rfl⟩ h

/-! ## Every run -/

/-- The events of a step. -/
def eventsOf (x : Move (Pump T) (PumpInput E)) : List PumpEvent := x.after.log

/-- The events of a trace. -/
abbrev history (trace : List (Move (Pump T) (PumpInput E))) : List PumpEvent := outputs eventsOf trace

/-- Every step of either thread. -/
theorem next_kept (h : Kept H p) (i : PumpInput E) : Kept (H ++ (next i p).log) (next i p) ∧
    (∀ e, .served e ∈ (next i p).log → e.From fun raw => raw <:+: bytesFed p.generation (H ++ (next i p).log)) ∧
      p.generation ≤ (next i p).generation := by
  have hstart : Kept H { p with log := [] } := { h with }
  cases i with
  | produce answer =>
    have hstep := produce_kept hstart rfl answer
    exact ⟨hstep.kept, fun e he => absurd he (hstep.silent e), hstep.generation⟩
  | consume stopped io now =>
    have hstep := consume_kept hstart rfl stopped io now
    exact ⟨hstep.kept, hstep.served, Nat.le_of_eq hstep.generation.symm⟩

theorem run_kept (is : List (PumpInput E)) : ∀ {H : List PumpEvent} {p : Pump T}, Kept H p →
    Kept (H ++ history (trace next p is)) (run next p is) ∧ p.generation ≤ (run next p is).generation := by
  induction is with
  | nil =>
    intro H p h
    exact ⟨by simpa [trace, run] using h, Nat.le_refl _⟩
  | cons i is ih =>
    intro H p h
    obtain ⟨hnext, -, hle⟩ := next_kept h i
    obtain ⟨hrun, hle'⟩ := ih hnext
    have hhistory : history (trace next p (i :: is)) = (next i p).log ++ history (trace next (next i p) is) := rfl
    rw [hhistory, ← List.append_assoc]
    exact ⟨hrun, hle.trans hle'⟩

theorem init_kept (typ : SourceType) (t : T) : Kept [] (init typ t) := by
  refine ⟨⟨⟨fun f hf => absurd hf List.not_mem_nil, fun q hq => absurd hq List.not_mem_nil⟩, List.nil_suffix, ?_, ?_,
    Nat.le_refl _, fun raw t g hmem => absurd hmem List.not_mem_nil, trivial, fun _ _ => rfl, nofun, ?_⟩,
      List.nil_suffix, ?_⟩
  · intro bytes hbytes
    have hnil : bytes ∈ ([[]] : List Bytes) := hbytes
    rw [List.mem_singleton.mp hnil]
    exact ⟨0, List.nil_infix⟩
  · exact fun f hf => absurd hf List.not_mem_nil
  · exact ⟨0, [], [], rfl, trivial⟩
  · exact fun _ => rfl

/-- **No splicing**, in every run of the two threads: what the parser is fed between two resets, and every frame that it
makes, stood together in one session of the source; and whatever a step of the service hands to the transport is of a
frame made of bytes of the generation that is current then, which is never an earlier one. -/
theorem no_splicing (typ : SourceType) (t : T) (is : List (PumpInput E)) :
    (∀ bytes ∈ (fedRuns (history (trace next (init typ t) is))).1 ++ [(fedRuns (history (trace next (init typ t) is))).2],
        ∃ session, bytes <:+: bytesRead session (history (trace next (init typ t) is))) ∧
      (∀ f, .served (.ingested f) ∈ history (trace next (init typ t) is) →
        ∃ session, f.raw <:+: bytesRead session (history (trace next (init typ t) is))) ∧
      ∀ T₁ x T₂, trace next (init typ t) is = T₁ ++ x :: T₂ →
        (∀ f now, .served (.taken f now) ∈ x.after.log →
          ∃ raw, raw <:+: bytesFed x.before.generation (history (T₁ ++ [x])) ∧ FragmentOf raw f) ∧
        ∀ y ∈ T₁, y.after.generation ≤ x.before.generation := by
  obtain ⟨hrun, -⟩ := run_kept is (init_kept typ t)
  rw [List.nil_append] at hrun
  refine ⟨hrun.runs, hrun.frames, fun T₁ x T₂ hsplit => ?_⟩
  obtain ⟨pre, post, -, rfl, hbefore, hafter, -⟩ := trace_split hsplit
  obtain ⟨hpre, -⟩ := run_kept pre (init_kept typ t)
  rw [List.nil_append, ← hbefore] at hpre
  constructor
  · intro f now htaken
    have hhistory : history (trace next (init typ t) pre ++ [x]) =
        history (trace next (init typ t) pre) ++ x.after.log := by
      rw [history, outputs_append]
      exact congrArg _ (List.append_nil _)
    rw [hafter] at htaken
    rw [hhistory, hafter]
    exact (next_kept hpre x.input).2.1 _ htaken
  · intro y hy
    obtain ⟨U₁, U₂, hU⟩ := List.append_of_mem hy
    obtain ⟨pre', post', rfl, -, hbefore', hafter', -⟩ := trace_split hU
    obtain ⟨hpre', -⟩ := run_kept pre' (init_kept typ t)
    have hy' : run next (init typ t) (pre' ++ y.input :: post') = run next y.after post' := by
      rw [run_append, ← hbefore', hafter']
      rfl
    rw [hbefore, hy']
    rw [List.nil_append, ← hbefore'] at hpre'
    have hkept := (next_kept hpre' y.input).1
    rw [← hafter'] at hkept
    exact (run_kept post' hkept).2

end Pump

end LoraLink.Service
