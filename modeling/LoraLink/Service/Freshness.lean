import LoraLink.Host.Refine
import LoraLink.Service.Lossless
import LoraLink.Service.Recorder

/-!
# What the base hands over is fresh

`Fed` is what a base service keeps: its queue is sorted by the times of the frames and holds few of them, every frame
is valid and has arrived, and the fragments are the pieces of one frame in the present session. What the service needs
of its transport is a structure too (`Obliging`): the methods return, `send_air` at least for what is right to send,
and the session is in range.

- `step_fed`: a step keeps it, does not raise, hands over only what is right (`Right`), and leaves nothing stale;
- `base_fresh`: so it is in every run whose times are in order. `Recorder` records what a transport is handed.
-/

namespace LoraLink.Service

open LoraLink.Application LoraLink.Rtcm LoraLink.Host Prog

/-- An event that reports no failure of the service itself. -/
def Event.Smooth : Event → Prop
  | .unfragmentable _ | .raised _ => False
  | _ => True

/-- A payload that is right to hand over at a time, in a session: it is small, and decodes to a piece of a frame that
has arrived, with its age, which is less than a second. -/
structure Right (arrived : RtcmFrame → Prop) (now : ℚ) (session : Nat) (payload : Bytes) : Prop where
  length : 20 ≤ payload.length ∧ payload.length ≤ 200
  decodes : ∃ d f id, decode payload = .ok d ∧ arrived f ∧ d.senderSession = session ∧
    d.sourceAgeMs = ⌊1000 * (now - f.receivedAt)⌋ ∧ 0 ≤ d.sourceAgeMs ∧ d.sourceAgeMs < 1000 ∧
    { d with sourceAgeMs := 0 } ∈ pieces f.raw session id

/-- A transport that returns, from its states, whatever it is asked, at least for the payloads that are good for its
session; that session is in range. -/
structure Obliging {T E : Type} [Transport T E] (I : T → Prop) (Good : Nat → Bytes → Prop) : Prop where
  tick : ∀ (io : E) diagnosticsIdle, Triple I (Transport.tick io diagnosticsIdle) (Returns fun _ => I)
  takeTxOutcomes : Triple I (Transport.takeTxOutcomes (E := E)) (Returns fun _ => I)
  sendAir : ∀ (io : E) payload, Triple (fun t => I t ∧ Good (Transport.session t) payload) (Transport.sendAir io payload)
    (Returns fun _ => I)
  session : ∀ t, I t → 1 ≤ Transport.session t ∧ Transport.session t ≤ 2 ^ 32 - 1

namespace BaseService

variable {T E : Type} {R : T → Nat → Prop} {arrived : RtcmFrame → Prop} {Q : ℚ → Prop} {now : ℚ}

/-! ## The invariant -/

/-- A fragment of a frame that has arrived, with the time of the frame. -/
def PieceOf (arrived : RtcmFrame → Prop) (session : Nat) (p : Frame × ℚ) : Prop :=
  ∃ (f : RtcmFrame) (id : Nat), arrived f ∧ p.2 = f.receivedAt ∧ (1 ≤ id ∧ id ≤ 2 ^ 32 - 1) ∧
    p.1 ∈ pieces f.raw session id

/-- What a base service keeps. `R` is about its transport and its session, `Q` about the times of the queued frames. -/
structure Fed (R : T → Nat → Prop) (arrived : RtcmFrame → Prop) (Q : ℚ → Prop) (b : BaseService T) : Prop where
  transport : R b.transport b.session
  session : 1 ≤ b.session ∧ b.session ≤ 2 ^ 32 - 1
  messageId : b.messageId ≤ 2 ^ 32 - 1
  queue : ∀ f ∈ b.queue, validRtcm3 f.raw = true ∧ arrived f ∧ Q f.receivedAt
  sorted : b.queue.Pairwise fun f g => f.receivedAt ≤ g.receivedAt
  few : b.queue.length ≤ maxQueuedRtcmFrames
  fragments : ∀ p ∈ b.fragments, PieceOf arrived b.session p
  fewFragments : b.fragments.length ≤ maxRtcmFragments
  smooth : ∀ e ∈ b.log, e.Smooth

theorem Fed.smooth_snoc {b : BaseService T} (h : Fed R arrived Q b) {e : Event} (he : e.Smooth) :
    ∀ e' ∈ b.log ++ [e], e'.Smooth := by
  intro e' he'
  rcases List.mem_append.mp he' with he' | he'
  · exact h.smooth e' he'
  · rw [List.mem_singleton.mp he']
    exact he

/-- The queue without its first frames. -/
theorem Fed.behind {b : BaseService T} (h : Fed R arrived Q b) {queue : List RtcmFrame} (hq : queue.Sublist b.queue) :
    Fed R arrived Q { b with queue := queue } :=
  { h with
    queue := fun f hf => h.queue f (hq.subset hf)
    sorted := h.sorted.sublist hq
    few := hq.length_le.trans h.few }

theorem Fed.times {b : BaseService T} (h : Fed R arrived Q b) {Q' : ℚ → Prop} (hQ : ∀ f ∈ b.queue, Q' f.receivedAt) :
    Fed R arrived Q' b :=
  { h with queue := fun f hf => ⟨(h.queue f hf).1, (h.queue f hf).2.1, hQ f hf⟩ }

theorem fed_add (name : Metric) (amount : Nat) :
    Triple (Fed R arrived Q) (add name amount : Op T Unit) (Returns fun _ => Fed R arrived Q) := fun _ h => { h with }

theorem fed_set (name : Metric) (value : Int) :
    Triple (Fed R arrived Q) (set name value : Op T Unit) (Returns fun _ => Fed R arrived Q) := fun _ h => { h with }

theorem fed_updateRates (now : ℚ) :
    Triple (Fed R arrived Q) (updateRates now : Op T Unit) (Returns fun _ => Fed R arrived Q) := by
  refine (Triple.modify (R := Fed R arrived Q) fun b h => { h with }).seq fun _ => Triple.get_bind fun b _ => ?_
  exact (fed_set _ _).seq fun _ => (fed_set _ _).seq fun _ => fed_set _ _

theorem fed_updateQueueMetrics (now : ℚ) :
    Triple (Fed R arrived Q) (updateQueueMetrics now : Op T Unit) (Returns fun _ => Fed R arrived Q) := by
  refine Triple.get_bind fun b _ => ?_
  exact (fed_set _ _).seq fun _ => (fed_set _ _).seq fun _ => (fed_set _ _).seq fun _ => fed_set _ _

/-! ## The phases of a step -/

theorem settle_fed (o : Outcome) :
    Triple (Fed R arrived Q) (settle o : Op T Unit) (Returns fun _ => Fed R arrived Q) := by
  obtain ⟨sequence, completed⟩ := o
  refine Triple.get_bind fun b _ => Triple.ite (fun _ => ?_) fun _ => ?_
  · have hnote : ∀ b : BaseService T, Fed R arrived Q b →
        Fed R arrived Q { b with log := b.log ++ [.unexpected sequence] } := fun b h =>
      { h with smooth := h.smooth_snoc trivial }
    exact (Triple.modify hnote).seq fun _ => fed_add _ _
  · have hclear : ∀ b : BaseService T, Fed R arrived Q b → Fed R arrived Q
        { b with
          inFlight := none, fragments := if completed = some true then b.fragments else []
          log := b.log ++ [.settled sequence completed] } := by
      intro b h
      refine { h with fragments := ?_, fewFragments := ?_, smooth := h.smooth_snoc trivial }
      · intro p hp
        replace hp : p ∈ if completed = some true then b.fragments else [] := hp
        split at hp
        · exact h.fragments p hp
        · cases hp
      · show (if completed = some true then b.fragments else []).length ≤ _
        split
        · exact h.fewFragments
        · exact Nat.zero_le _
    refine (Triple.modify hclear).seq fun _ => ?_
    rcases completed with _ | _ | _ <;> exact fed_add _ _

/-! ## Ingress -/

section Ingress

variable {H : List Event}

/-- The frames that the history and the present call have taken in. -/
def ArrivedIn (H : List Event) (b : BaseService T) (f : RtcmFrame) : Prop := .ingested f ∈ H ++ b.log

/-- What the service keeps while it takes in frames at the time `now`. -/
structure Gathers (R : T → Nat → Prop) (H : List Event) (now : ℚ) (b : BaseService T) : Prop where
  fed : Fed R (ArrivedIn H b) (fun t => t ≤ now) b
  times : ∀ f, .ingested f ∈ b.log → f.receivedAt = now

theorem gathers_add (name : Metric) (amount : Nat) :
    Triple (Gathers R H now) (add name amount : Op T Unit) (Returns fun _ => Gathers R H now) := fun _ h =>
  ⟨{ h.fed with }, h.times⟩

theorem gathers_set (name : Metric) (value : Int) :
    Triple (Gathers R H now) (set name value : Op T Unit) (Returns fun _ => Gathers R H now) := fun _ h =>
  ⟨{ h.fed with }, h.times⟩

theorem Fed.mono {b : BaseService T} (h : Fed R arrived Q b) {arrived' : RtcmFrame → Prop}
    (hsub : ∀ f, arrived f → arrived' f) : Fed R arrived' Q b :=
  { h with
    queue := fun f hf => ⟨(h.queue f hf).1, hsub f (h.queue f hf).2.1, (h.queue f hf).2.2⟩
    fragments := fun p hp => by
      obtain ⟨f, id, harrived, hrest⟩ := h.fragments p hp
      exact ⟨f, id, hsub f harrived, hrest⟩ }

/-- A frame is put behind the others, and the first one gives way if there are too many. -/
theorem Gathers.push {b : BaseService T} (h : Gathers R H now b) {f : RtcmFrame} (hf : f.Made now) :
    (b.queue.length + 1 ≤ maxQueuedRtcmFrames →
      Gathers R H now { b with queue := b.queue ++ [f], log := b.log ++ [.ingested f] }) ∧
    Gathers R H now { b with queue := (b.queue ++ [f]).drop 1, log := b.log ++ [.ingested f] ++ [.overflowed] } := by
  have hold : ∀ g, ArrivedIn H b g → .ingested g ∈ H ++ (b.log ++ [.ingested f]) := fun g hg => by
    rw [← List.append_assoc]
    exact List.mem_append_left _ hg
  have hqueue : ∀ g ∈ b.queue ++ [f],
      validRtcm3 g.raw = true ∧ .ingested g ∈ H ++ (b.log ++ [.ingested f]) ∧ g.receivedAt ≤ now := by
    intro g hg
    rcases List.mem_append.mp hg with hg | hg
    · obtain ⟨hvalid, harrived, hle⟩ := h.fed.queue g hg
      exact ⟨hvalid, hold g harrived, hle⟩
    · rw [List.mem_singleton.mp hg]
      exact ⟨hf.valid, by simp, hf.time.le⟩
  have hsorted : (b.queue ++ [f]).Pairwise fun f g => f.receivedAt ≤ g.receivedAt := by
    refine List.pairwise_append.mpr ⟨h.fed.sorted, List.pairwise_singleton _ _, fun g hg g' hg' => ?_⟩
    rw [List.mem_singleton.mp hg', hf.time]
    exact (h.fed.queue g hg).2.2
  have htimes : ∀ g, .ingested g ∈ b.log ++ [.ingested f] → g.receivedAt = now := by
    intro g hg
    rcases List.mem_append.mp hg with hg | hg
    · exact h.times g hg
    · obtain rfl : g = f := by simpa using hg
      exact hf.time
  have hsmooth := h.fed.smooth_snoc (e := .ingested f) trivial
  have hmono := h.fed.mono hold
  refine ⟨fun hfew => ⟨{ hmono with queue := hqueue, sorted := hsorted, few := ?_, smooth := hsmooth }, htimes⟩, ?_, ?_⟩
  · show (b.queue ++ [f]).length ≤ _
    simpa using hfew
  · have hmore : ∀ g, .ingested g ∈ H ++ (b.log ++ [.ingested f]) →
        .ingested g ∈ H ++ (b.log ++ [.ingested f] ++ [.overflowed]) := fun g hg => by
      rw [← List.append_assoc]
      exact List.mem_append_left _ hg
    refine { hmono.mono hmore with
      queue := ?_, sorted := hsorted.sublist (List.drop_sublist _ _), few := ?_, smooth := ?_ }
    · intro g hg
      obtain ⟨hvalid, harrived, hle⟩ := hqueue g (List.mem_of_mem_drop hg)
      exact ⟨hvalid, hmore g harrived, hle⟩
    · show ((b.queue ++ [f]).drop 1).length ≤ _
      have := h.fed.few
      simpa using this
    · intro e he
      rcases List.mem_append.mp he with he | he
      · exact hsmooth e he
      · rw [List.mem_singleton.mp he]
        trivial
  · intro g hg
    exact htimes g (by simpa using hg)

theorem enqueue_gathers {f : RtcmFrame} (hf : f.Made now) :
    Triple (Gathers R H now) (enqueue f : Op T Unit) (Returns fun _ => Gathers R H now) := by
  intro b h
  have hrun : Triple (fun b' => b' = b) (enqueue f : Op T Unit) (Returns fun _ => Gathers R H now) := by
    refine Triple.seq (R := fun _ b' => b' = { b with queue := b.queue ++ [f], log := b.log ++ [.ingested f] })
      (by rintro _ rfl; exact rfl) fun _ => Triple.get_bind fun b' hb' => ?_
    subst hb'
    refine Triple.seq (R := fun _ => Gathers R H now) (Triple.ite (fun hmany => ?_) fun hfew => ?_) fun _ =>
      (gathers_add _ _).seq fun _ => gathers_add _ _
    · refine Triple.seq (R := fun _ => Gathers R H now) ?_ fun _ => gathers_add _ _
      rintro _ rfl
      exact (h.push hf).2
    · rintro _ rfl
      exact (h.push hf).1 (by simpa using hfew)
  exact hrun b rfl

theorem ingest_gathers (chunk : Bytes) (now : ℚ) :
    Triple (Gathers R H now) (ingest chunk now : Op T Nat) (Returns fun _ => Gathers R H now) := by
  refine Triple.get_bind fun b _ => ?_
  have hmade := b.parser.feed_made chunk now
  generalize b.parser.feed chunk now = r at hmade
  obtain ⟨parser, frames⟩ := r
  refine Triple.seq (R := fun _ => Gathers R H now) (fun b h => ⟨{ h.fed with }, h.times⟩) fun _ => ?_
  refine (gathers_add _ _).seq fun _ => (Triple.forEach fun f hf => enqueue_gathers (hmade f hf)).seq fun _ => ?_
  have hmetrics : Triple (Gathers R H now) (updateQueueMetrics now : Op T Unit) (Returns fun _ => Gathers R H now) := by
    refine Triple.get_bind fun b _ => ?_
    exact (gathers_set _ _).seq fun _ => (gathers_set _ _).seq fun _ => (gathers_set _ _).seq fun _ => gathers_set _ _
  have hrates : Triple (Gathers R H now) (updateRates now : Op T Unit) (Returns fun _ => Gathers R H now) := by
    refine Triple.seq (R := fun _ => Gathers R H now) (fun b h => ⟨{ h.fed with }, h.times⟩) fun _ => Triple.get_bind
      fun b _ => ?_
    exact (gathers_set _ _).seq fun _ => (gathers_set _ _).seq fun _ => gathers_set _ _
  exact hmetrics.seq fun _ => (gathers_set _ _).seq fun _ => hrates.seq fun _ b h => h

end Ingress

theorem resetSource_fed : Triple (Fed R arrived Q) (resetSource : Op T Unit) (Returns fun _ => Fed R arrived Q) := by
  refine Triple.get_bind fun b _ => (Triple.modify (R := Fed R arrived Q) fun b h => { h with }).seq fun _ => ?_
  refine (Triple.when (fun _ => fed_add _ _) fun _ _ h => h).seq fun _ => ?_
  refine (Triple.when (fun _ => fed_add _ _) fun _ _ h => h).seq fun _ => Triple.modify fun b h => ?_
  exact { h with
    queue := fun f hf => absurd hf List.not_mem_nil, sorted := List.Pairwise.nil, few := Nat.zero_le _
    fragments := fun p hp => absurd hp List.not_mem_nil, fewFragments := Nat.zero_le _, smooth := h.smooth_snoc trivial }

section Step

variable [Transport T E] {I : T → Prop} {Good : Nat → Bytes → Prop}

/-- The service is in the session of its transport. -/
def Follows (I : T → Prop) (t : T) (session : Nat) : Prop := I t ∧ session = Transport.session t

theorem followSession_fed (hI : Obliging I Good) : Triple (Fed (fun t _ => I t) arrived Q) (followSession : Op T Unit)
    (Returns fun _ => Fed (Follows I) arrived Q) := by
  refine Triple.get_bind_eq fun b h => Triple.when (fun _ => ?_) fun hsame => ?_
  · refine Triple.seq (R := fun _ => Fed (Follows I) arrived Q) ?_ fun _ => fed_add _ _
    rintro _ rfl
    refine { h with transport := ⟨h.transport, rfl⟩, session := hI.session _ h.transport, messageId := Nat.zero_le _
                    fragments := ?_, fewFragments := Nat.zero_le _, smooth := h.smooth_snoc trivial }
    exact fun p hp => absurd hp List.not_mem_nil
  · rintro _ rfl
    exact { h with transport := ⟨h.transport, (not_not.mp hsame).symm⟩ }

/-- The first frames of the queue go as long as they are stale; as the queue is sorted, none that is stale is left. -/
theorem dropStale_fed (now : ℚ) (queue : List RtcmFrame) :
    Triple (fun b => b.queue = queue ∧ Fed R arrived (fun _ => True) b) (dropStale now queue : Op T Unit)
      (Returns fun _ => Fed R arrived fun t => now - t ≤ 8 / 10) := by
  induction queue with
  | nil =>
    rintro b ⟨hq, h⟩
    exact h.times fun f hf => absurd (hq ▸ hf) List.not_mem_nil
  | cons f queue ih =>
    refine Triple.ite (fun _ => ?_) fun hyoung => ?_
    · refine Triple.seq (R := fun _ b => b.queue = queue ∧ Fed R arrived (fun _ => True) b) ?_ fun _ => ?_
      · rintro b ⟨hq, h⟩
        exact ⟨rfl, { h.behind (by rw [hq]; exact List.sublist_cons_self _ _) with smooth := h.smooth_snoc trivial }⟩
      · exact Triple.seq (R := fun _ b => b.queue = queue ∧ Fed R arrived (fun _ => True) b)
          (fun b h => ⟨h.1, { h.2 with }⟩) fun _ => ih
    · rintro b ⟨hq, h⟩
      have hsorted := h.sorted
      rw [hq] at hsorted
      refine h.times fun g hg => ?_
      rw [hq] at hg
      rcases List.mem_cons.mp hg with rfl | hg
      · exact not_lt.mp hyoung
      · have hle := (List.pairwise_cons.mp hsorted).1 g hg
        have := not_lt.mp hyoung
        linarith

theorem nextMessageId_range {id : Nat} (h : id ≤ 2 ^ 32 - 1) : 1 ≤ nextMessageId id ∧ nextMessageId id ≤ 2 ^ 32 - 1 := by
  unfold nextMessageId
  split
  · decide
  · omega

/-- The first frame is fragmented, whatever its length. -/
theorem load_fed (now : ℚ) : Triple (Fed R arrived Q) (load now : Op T Unit) (Returns fun _ => Fed R arrived Q) := by
  refine Triple.get_bind_eq fun b h => ?_
  split
  · rename_i f queue hfragments hqueue
    obtain ⟨hvalid, harrived, -⟩ := h.queue f (by rw [hqueue]; exact List.mem_cons_self)
    have hid := nextMessageId_range h.messageId
    simp only
    rw [fragment_eq hvalid]
    refine Triple.modify ?_
    rintro b rfl
    have hqueue' : queue.Sublist b.queue := by
      rw [hqueue]
      exact List.sublist_cons_self _ _
    refine { h.behind hqueue' with
      messageId := hid.2, fragments := ?_, fewFragments := ?_, smooth := h.smooth_snoc trivial }
    · intro p hp
      obtain ⟨d, hd, rfl⟩ := List.mem_map.mp hp
      exact ⟨f, _, harrived, rfl, hid, hd⟩
    · show (List.map _ _).length ≤ _
      rw [List.length_map, pieces, List.length_map, List.length_range]
      exact fragmentCount_le (length_of_validRtcm3 hvalid)
  · rintro _ rfl
    exact h

/-- A fragment that is not too old is encoded, and right to hand over. -/
theorem right_of_piece {s : Nat} {p : Frame × ℚ} (hp : PieceOf arrived s p) (hs : 1 ≤ s ∧ s ≤ 2 ^ 32 - 1)
    (hpast : ∀ f, arrived f → f.receivedAt ≤ now) (hage : ageMs now p < rtcmTransportTtlMs) :
    ∃ encoded, encode { p.1 with sourceAgeMs := ageMs now p } = .ok encoded ∧ Right arrived now s encoded := by
  obtain ⟨f, id, harrived, htime, hid, hpiece⟩ := hp
  obtain ⟨index, -, hindex⟩ := List.mem_map.mp hpiece
  have hle : p.2 ≤ now := htime ▸ hpast f harrived
  have hfloor : ageMs now p = ⌊1000 * (now - f.receivedAt)⌋ := by rw [ageMs_eq_floor hle, htime, mul_comm]
  have hpos : 0 ≤ ageMs now p := by
    rw [ageMs_eq_floor hle]
    exact Int.floor_nonneg.mpr (by linarith)
  have hencodable : Encodable { p.1 with sourceAgeMs := ageMs now p } := by
    rw [← hindex]
    have hs' : (1 : Int) ≤ s ∧ (s : Int) ≤ 2 ^ 32 - 1 := by omega
    have hid' : (1 : Int) ≤ id ∧ (id : Int) ≤ 2 ^ 32 - 1 := by omega
    refine encodable_piece f.raw hs' hid' ⟨hpos, ?_⟩ index
    simp only [rtcmTransportTtlMs] at hage
    omega
  obtain ⟨encoded, hencoded⟩ := encode_isOk.mpr hencodable
  refine ⟨encoded, hencoded, ⟨?_, ?_⟩, _, f, id, decode_encode hencoded, harrived, ?_, hfloor, hpos, hage, ?_⟩
  · obtain ⟨-, -, -, -, -, rfl⟩ := encode_ok hencoded
    rw [List.length_append, length_headerAndBody, length_be16]
    simp only [headerSize]
    omega
  · exact length_encode hencoded
  · rw [← hindex]
    rfl
  · have hsame : ({ p.1 with sourceAgeMs := 0 } : Frame) = p.1 := by
      rw [← hindex]
      rfl
    show { p.1 with sourceAgeMs := 0 } ∈ _
    rw [hsame]
    exact hpiece

/-- A call of the transport that returns changes nothing else. -/
theorem fed_ofTransport {α : Type} {x : Prog T Exn α} {J : T → Prop} (hx : Triple J x (Returns fun _ => I)) {s : Nat}
    {rest : List (Frame × ℚ)} (hJ : ∀ t, R t s → J t) :
    Triple (fun b => Fed R arrived Q b ∧ b.session = s ∧ b.fragments = rest) (ofTransport x)
      (Returns fun _ b => Fed (fun t _ => I t) arrived Q b ∧ b.session = s ∧ b.fragments = rest) := by
  rintro b ⟨h, hs, hrest⟩
  obtain ⟨a, t, heq, ht⟩ := hx.ends (hJ _ (hs ▸ h.transport))
  unfold ofTransport
  rw [heq]
  exact ⟨{ h with transport := ht }, hs, hrest⟩

/-- The same for a call that any state of the transport allows. -/
theorem fed_call {α : Type} {x : Prog T Exn α} (hx : Triple I x (Returns fun _ => I)) :
    Triple (Fed (fun t _ => I t) arrived Q) (ofTransport x) (Returns fun _ => Fed (fun t _ => I t) arrived Q) := by
  intro b h
  exact (fed_ofTransport hx fun _ ht => ht).mono (fun _ _ h => h.1) b ⟨h, rfl, rfl⟩

/-- What follows `send_air`: a fragment that was refused is the first again. -/
theorem sendAirResult_fed {s : Nat} {fragment : Frame × ℚ} {rest : List (Frame × ℚ)} (encoded : Bytes)
    (r : Option Nat) (hpiece : PieceOf arrived s fragment) (hfew : rest.length < maxRtcmFragments) :
    Triple (fun b => Fed R arrived Q b ∧ b.session = s ∧ b.fragments = rest)
      (sendAirResult now fragment encoded r : Op T Unit) (Returns fun _ => Fed R arrived Q) := by
  cases r with
  | none =>
    have hback : ∀ b : BaseService T, Fed R arrived Q b ∧ b.session = s ∧ b.fragments = rest →
        Fed R arrived Q { b with fragments := fragment :: b.fragments, log := b.log ++ [.refused] } := by
      rintro b ⟨h, hs, hrest⟩
      refine { h with fragments := ?_, fewFragments := ?_, smooth := h.smooth_snoc trivial }
      · intro p hp
        rcases List.mem_cons.mp hp with rfl | hp
        · exact hs ▸ hpiece
        · exact h.fragments p hp
      · show (fragment :: b.fragments).length ≤ _
        rw [hrest]
        exact hfew
    exact (Triple.modify hback).seq fun _ => fed_add _ _
  | some sequence =>
    have hsent : ∀ b : BaseService T, Fed R arrived Q b ∧ b.session = s ∧ b.fragments = rest →
        Fed R arrived Q { b with inFlight := some sequence, log := b.log ++ [.sent sequence encoded] } :=
      fun b h => { h.1 with smooth := h.1.smooth_snoc trivial }
    refine (Triple.modify hsent).seq fun _ => (fed_add _ _).seq fun _ => (fed_add _ _).seq fun _ => ?_
    exact Triple.modify fun b h => { h with }

/-- The first fragment is handed over if it is not too old, and it is right to do so. -/
theorem sendFirst_fed (hI : Obliging I (Right arrived now)) (hpast : ∀ f, arrived f → f.receivedAt ≤ now) (io : E)
    {fragment : Frame × ℚ} {rest : List (Frame × ℚ)} :
    Triple (fun b => Fed (Follows I) arrived Q b ∧ b.fragments = fragment :: rest)
      (sendFirst io now fragment rest : Op T Unit) (Returns fun _ => Fed (fun t _ => I t) arrived Q) := by
  refine Triple.ite (fun _ => ?_) fun hage => ?_
  · have hclear : ∀ b : BaseService T, Fed (Follows I) arrived Q b ∧ b.fragments = fragment :: rest →
        Fed (fun t _ => I t) arrived Q { b with fragments := [], log := b.log ++ [.expired now] } := fun b ⟨h, _⟩ =>
      { h with
        transport := h.transport.1, fragments := fun p hp => absurd hp List.not_mem_nil, fewFragments := Nat.zero_le _
        smooth := h.smooth_snoc trivial }
    exact (Triple.modify hclear).seq fun _ => fed_add _ _
  · rintro b ⟨h, hfragments⟩
    have hpiece := h.fragments fragment (by rw [hfragments]; exact List.mem_cons_self)
    have hfew := h.fewFragments
    rw [hfragments] at hfew
    obtain ⟨encoded, hencoded, hright⟩ := right_of_piece hpiece h.session hpast (not_le.mp hage)
    have htaken : ∀ b' : BaseService T, b' = b →
        Fed (Follows I) arrived Q { b' with fragments := rest, log := b'.log ++ [.taken fragment.1 now] } ∧
          b'.session = b.session ∧ rest = rest := by
      rintro b rfl
      refine ⟨{ h with fragments := fun p hp => h.fragments p ?_, fewFragments := ?_, smooth := h.smooth_snoc trivial },
        rfl, rfl⟩
      · rw [hfragments]
        exact List.mem_cons_of_mem _ hp
      · exact Nat.le_of_succ_le hfew
    have hsend : Triple (fun b' => b' = b) (do
        modify fun b => { b with fragments := rest, log := b.log ++ [.taken fragment.1 now] }
        let encoded ← ofApplication (encode { fragment.1 with sourceAgeMs := ageMs now fragment })
        let sequence ← ofTransport (Transport.sendAir io encoded)
        sendAirResult now fragment encoded sequence : Op T Unit) (Returns fun _ => Fed (fun t _ => I t) arrived Q) := by
      refine Triple.seq (R := fun _ b' => Fed (Follows I) arrived Q b' ∧ b'.session = b.session ∧ b'.fragments = rest)
        htaken fun _ => ?_
      rw [hencoded]
      refine Triple.seq (R := fun e b' => e = encoded ∧ Fed (Follows I) arrived Q b' ∧ b'.session = b.session ∧
        b'.fragments = rest) (fun b' h => ⟨rfl, h⟩) fun e => Triple.assume fun he => ?_
      subst he
      have hJ : ∀ t s, Follows I t s → s = b.session → I t ∧ Right arrived now (Transport.session t) e :=
        fun t s ht hs => ⟨ht.1, ht.2 ▸ hs ▸ hright⟩
      have hcall : Triple (fun b' => Fed (Follows I) arrived Q b' ∧ b'.session = b.session ∧ b'.fragments = rest)
          (ofTransport (Transport.sendAir io e)) (Returns fun _ b' => Fed (fun t _ => I t) arrived Q b' ∧
            b'.session = b.session ∧ b'.fragments = rest) :=
        fed_ofTransport (hI.sendAir io e) fun t ht => hJ t _ ht rfl
      refine hcall.seq fun r => ?_
      exact sendAirResult_fed e r hpiece hfew
    exact hsend b rfl

theorem send_fed (hI : Obliging I (Right arrived now)) (hpast : ∀ f, arrived f → f.receivedAt ≤ now) (io : E) :
    Triple (Fed (Follows I) arrived Q) (send io now : Op T Unit) (Returns fun _ => Fed (fun t _ => I t) arrived Q) := by
  have hstay : ∀ b : BaseService T, Fed (Follows I) arrived Q b → Fed (fun t _ => I t) arrived Q b := fun b h =>
    { h with transport := h.transport.1 }
  refine Triple.get_bind_eq fun b h => ?_
  split
  · rintro b rfl
    exact hstay b h
  · rename_i fragment rest hfragments
    refine Triple.ite (fun _ => (sendFirst_fed hI hpast io).pre ?_) fun _ => ?_
    · rintro b rfl
      exact ⟨h, hfragments⟩
    · rintro b rfl
      exact hstay b h

/-- A step keeps everything, returns, and leaves nothing stale in the queue. -/
theorem step_fed (hI : Obliging I (Right arrived now)) (hpast : ∀ f, arrived f → f.receivedAt ≤ now) (io : E) :
    Triple (Fed (fun t _ => I t) arrived fun _ => True) (step io now : Op T Unit)
      (Returns fun _ => Fed (fun t _ => I t) arrived fun t => now - t ≤ 8 / 10) := by
  refine Triple.get_bind fun b _ => (fed_call (hI.tick io b.idle)).seq fun _ => ?_
  refine (fed_call hI.takeTxOutcomes).seq fun outcomes => (Triple.forEach fun o _ => settle_fed o).seq fun _ => ?_
  refine (followSession_fed hI).seq fun _ => Triple.get_bind_eq fun b h => ?_
  have hstale : Triple (fun t => t = b) (dropStale now b.queue : Op T Unit)
      (Returns fun _ => Fed (Follows I) arrived fun t => now - t ≤ 8 / 10) := by
    refine (dropStale_fed now b.queue).pre ?_
    rintro b rfl
    exact ⟨rfl, h⟩
  refine hstale.seq fun _ => Triple.get_bind fun b' _ => Triple.ite (fun _ => ?_) fun _ => ?_
  · exact (fed_updateQueueMetrics now).mono fun _ b h => { h with transport := h.transport.1 }
  · refine (load_fed now).seq fun _ => (send_fed hI hpast io).seq fun _ => ?_
    exact (fed_updateRates now).seq fun _ => fed_updateQueueMetrics now

end Step

/-! ## Calls and runs -/

/-- A call that returns ends where its program does. -/
theorem call_returns {α : Type} {x : Op T α} {P : BaseService T → Prop} {S : α → BaseService T → Prop}
    (hx : Triple P x (Returns S)) {b : BaseService T} (h : P { b with log := [] }) : ∃ a, S a (call x b) := by
  obtain ⟨a, b', heq, hend⟩ := hx.ends h
  unfold call
  rw [heq]
  exact ⟨a, hend⟩

theorem Fed.enter {b : BaseService T} (h : Fed R arrived Q b) : Fed R arrived Q { b with log := [] } :=
  { h with smooth := fun _ he => absurd he List.not_mem_nil }

/-- A step takes in no frames. -/
theorem step_no_ingress [Transport T E] (io : E) (now : ℚ) (b : BaseService T) (f : RtcmFrame) :
    .ingested f ∉ (next (.step io now) b).log := by
  have hshape : ∀ {outcomes session stales load sending : List Event},
      StepShape now outcomes session stales load sending →
      .ingested f ∉ outcomes ++ session ++ stales ++ load ++ sending := by
    intro outcomes session stales load sending h hmem
    simp only [List.mem_append] at hmem
    rcases hmem with (((hmem | hmem) | hmem) | hmem) | hmem
    · exact h.outcomes _ hmem
    · rcases h.session with rfl | ⟨s, rfl⟩ <;> simp at hmem
    · obtain ⟨g, hg⟩ := h.stales _ hmem
      cases hg
    · rcases h.load with rfl | ⟨g, fragments, rfl⟩ | ⟨g, rfl⟩ <;> simp at hmem
    · cases h.sending <;> simp at hmem
  obtain ⟨-, -, -, -, hlog⟩ := next_path (.step io now) (shows_outbox b) rfl
  generalize (next (.step io now) b).log = L at hlog
  cases hlog with
  | step h => exact hshape h
  | raised h e =>
    cases h with
    | early => simp
    | late h g =>
      have := hshape h
      simpa using this

section Runs

variable [Transport T E] {I : T → Prop}

/-- The transport has recorded what was right, after `old`. -/
def Records (I : T → Prop) (old : List (Nat × Bytes)) (arrived : RtcmFrame → Prop) (now : ℚ) (r : Recorder T) : Prop :=
  I r.transport ∧ ∃ new, r.handed = old ++ new ∧ ∀ p ∈ new, Right arrived now p.1 p.2

/-- What is right to send is small enough for the transport. -/
theorem records_obliging (hI : Obliging (E := E) I fun _ payload => payload.length ≤ maxFrameSize)
    (old : List (Nat × Bytes)) : Obliging (E := E) (Records I old arrived now) (Right arrived now) := by
  have hcall : ∀ {α : Type} {x : Prog T Exn α} {J : T → Prop}, Triple J x (Returns fun _ => I) →
      ∀ handed, (∃ new, handed = old ++ new ∧ ∀ p ∈ new, Right arrived now p.1 p.2) → ∀ t, J t →
      Returns (fun _ => Records I old arrived now) (Recorder.call x ⟨t, handed⟩).1 (Recorder.call x ⟨t, handed⟩).2 := by
    intro α x J hx handed hnew t ht
    obtain ⟨a, t', heq, ht'⟩ := hx.ends ht
    unfold Recorder.call
    rw [heq]
    exact ⟨ht', hnew⟩
  refine ⟨fun io idle r h => hcall (hI.tick io idle) r.handed h.2 r.transport h.1,
    fun r h => hcall hI.takeTxOutcomes r.handed h.2 r.transport h.1, fun io payload r h => ?_,
    fun r h => hI.session r.transport h.1⟩
  obtain ⟨⟨ht, new, hnew, hgood⟩, hright⟩ := h
  refine hcall (hI.sendAir io payload) _ ⟨new ++ [(Transport.session r.transport, payload)], ?_, ?_⟩ r.transport
    ⟨ht, hright.length.2⟩
  · rw [hnew, List.append_assoc]
  · intro p hp
    rcases List.mem_append.mp hp with hp | hp
    · exact hgood p hp
    · rw [List.mem_singleton.mp hp]
      exact hright

end Runs

end BaseService

/-! ## Runs whose times are in order -/

variable {T E : Type}

def ingestTimes (is : List (Input E)) : List ℚ := is.filterMap fun | .ingest _ now => some now | _ => none

def stepTimes (is : List (Input E)) : List ℚ := is.filterMap fun | .step _ now => some now | _ => none

/-- The times of the chunks do not decrease, nor do those of the steps, and no chunk is newer than a later step. -/
structure Timed (is : List (Input E)) : Prop where
  ingests : (ingestTimes is).Pairwise (· ≤ ·)
  steps : (stepTimes is).Pairwise (· ≤ ·)
  past : ∀ before io now after, is = before ++ .step io now :: after → ∀ t ∈ ingestTimes before, t ≤ now

namespace BaseService

variable [Transport T E] {I : T → Prop} {before : List (Input E)} {H : List Event} {b : BaseService (Recorder T)}

/-- What holds between two calls of a run, whose inputs so far are `before` and whose events so far are `H`. -/
structure Stage (I : T → Prop) (before : List (Input E)) (H : List Event) (b : BaseService (Recorder T)) : Prop where
  fed : Fed (fun r _ => I r.transport) (fun f => .ingested f ∈ H) (fun _ => True) b
  times : ∀ f, .ingested f ∈ H → f.receivedAt ∈ ingestTimes before

/-- What a step hands over is right, and what it leaves in the queue is not stale. -/
structure StepFresh (H : List Event) (now : ℚ) (b b' : BaseService (Recorder T)) : Prop where
  queue : ∀ f ∈ b'.queue, now - f.receivedAt ≤ 8 / 10
  handed : ∃ new, b'.transport.handed = b.transport.handed ++ new ∧
    ∀ p ∈ new, Right (fun f => .ingested f ∈ H) now p.1 p.2

theorem Stage.ingest (h : Stage I before H b) (chunk : Bytes) {now : ℚ} (hpast : ∀ t ∈ ingestTimes before, t ≤ now) :
    Stage I (before ++ [.ingest chunk now]) (H ++ (next (.ingest chunk now : Input E) b).log)
      (next (.ingest chunk now : Input E) b) := by
  have hstart : Gathers (fun r _ => I r.transport) H now { b with log := [] } := by
    refine ⟨(h.fed.enter.mono fun f hf => List.mem_append_left _ hf).times fun f hf => ?_,
      fun f hf => absurd hf List.not_mem_nil⟩
    exact hpast _ (h.times f (h.fed.queue f hf).2.1)
  obtain ⟨n, hfed, htimes⟩ := call_returns (ingest_gathers chunk now) hstart
  refine ⟨hfed.times fun _ _ => trivial, fun f hf => ?_⟩
  simp only [ingestTimes, List.filterMap_append, List.filterMap_cons, List.filterMap_nil, List.mem_append,
    List.mem_singleton]
  rcases List.mem_append.mp hf with hf | hf
  · exact Or.inl (h.times f hf)
  · exact Or.inr (htimes f hf)

theorem Stage.resetSource (h : Stage I before H b) : Stage I (before ++ [.resetSource])
    (H ++ (next (.resetSource : Input E) b).log) (next (.resetSource : Input E) b) := by
  obtain ⟨-, hfed⟩ := call_returns resetSource_fed h.fed.enter
  obtain ⟨-, -, -, -, hlog⟩ := next_path (.resetSource : Input E) (shows_outbox b) rfl
  refine ⟨hfed.mono fun f hf => List.mem_append_left _ hf, fun f hf => ?_⟩
  have hnone : .ingested f ∉ (next (.resetSource : Input E) b).log := by
    generalize (next (.resetSource : Input E) b).log = L at hlog
    cases hlog
    simp
  have hold := h.times f ((List.mem_append.mp hf).resolve_right hnone)
  simpa [ingestTimes] using hold

theorem Stage.step (hI : Obliging (E := E) I fun _ payload => payload.length ≤ maxFrameSize) (h : Stage I before H b)
    (io : E) {now : ℚ} (hpast : ∀ t ∈ ingestTimes before, t ≤ now) :
    Stage I (before ++ [.step io now]) (H ++ (next (.step io now) b).log) (next (.step io now) b) ∧
      StepFresh H now b (next (.step io now) b) := by
  have hstart : Fed (fun r _ => Records I b.transport.handed (fun f => .ingested f ∈ H) now r)
      (fun f => .ingested f ∈ H) (fun _ => True) { b with log := [] } :=
    { h.fed.enter with
      transport := ⟨h.fed.transport, [], (List.append_nil _).symm, fun _ hp => absurd hp List.not_mem_nil⟩ }
  obtain ⟨-, hfed⟩ := call_returns
    (step_fed (records_obliging hI b.transport.handed) (fun f hf => hpast _ (h.times f hf)) io) hstart
  refine ⟨⟨?_, fun f hf => ?_⟩, fun f hf => (hfed.queue f hf).2.2, hfed.transport.2⟩
  · have hweak := (hfed.mono fun f (hf : .ingested f ∈ H) => List.mem_append_left (next (.step io now) b).log hf)
    have htimes : Fed _ _ (fun _ => True) (next (.step io now) b) := hweak.times fun _ _ => trivial
    exact { htimes with transport := hfed.transport.1 }
  · have hold := h.times f ((List.mem_append.mp hf).resolve_right (step_no_ingress io now b f))
    simpa [ingestTimes] using hold

theorem init_stage {t : T} (hI : Obliging (E := E) I fun _ payload => payload.length ≤ maxFrameSize) (ht : I t) :
    Stage (E := E) I [] [] (init (⟨t, []⟩ : Recorder T)) := by
  have hsession := hI.session t ht
  exact ⟨⟨ht, hsession, Nat.zero_le _, fun _ h => absurd h List.not_mem_nil, List.Pairwise.nil, Nat.zero_le _,
    fun _ h => absurd h List.not_mem_nil, Nat.zero_le _, fun _ h => absurd h List.not_mem_nil⟩,
    fun _ h => absurd h List.not_mem_nil⟩

end BaseService

/-- The times before an input of a run. -/
theorem Timed.before {is : List (Input E)} {pre post : List (Input E)} {i : Input E} (h : Timed is)
    (his : is = pre ++ i :: post) {now : ℚ} (hnow : (∃ chunk, i = .ingest chunk now) ∨ ∃ io, i = .step io now) :
    ∀ t ∈ ingestTimes pre, t ≤ now := by
  rcases hnow with ⟨chunk, rfl⟩ | ⟨io, rfl⟩
  · intro t ht
    have hsorted := h.ingests
    rw [his] at hsorted
    simp only [ingestTimes, List.filterMap_append, List.filterMap_cons] at hsorted
    exact (List.pairwise_append.mp hsorted).2.2 t ht now List.mem_cons_self
  · exact h.past pre io now post his

section Runs

open BaseService

variable [Transport T E] {I : T → Prop} {t : T} {is : List (Input E)}

theorem Stage.next (hI : Obliging (E := E) I fun _ payload => payload.length ≤ maxFrameSize) (htimes : Timed is)
    {before after : List (Input E)} {i : Input E} (his : is = before ++ i :: after) {H : List Event}
    {b : BaseService (Recorder T)} (h : Stage I before H b) :
    Stage I (before ++ [i]) (H ++ (next i b).log) (next i b) ∧
      ∀ io now, i = .step io now → StepFresh H now b (next i b) := by
  cases i with
  | ingest chunk now => exact ⟨h.ingest chunk (htimes.before his (Or.inl ⟨_, rfl⟩)), fun _ _ hi => by cases hi⟩
  | resetSource => exact ⟨h.resetSource, fun _ _ hi => by cases hi⟩
  | step io now =>
    obtain ⟨hstage, hfresh⟩ := h.step hI io (htimes.before his (Or.inr ⟨_, rfl⟩))
    refine ⟨hstage, fun io' now' hi => ?_⟩
    cases hi
    exact hfresh

theorem run_stage (hI : Obliging (E := E) I fun _ payload => payload.length ≤ maxFrameSize) (ht : I t)
    (htimes : Timed is) (before : List (Input E)) : ∀ after, is = before ++ after →
    Stage I before (history (trace next (init (⟨t, []⟩ : Recorder T)) before))
      (run next (init (⟨t, []⟩ : Recorder T)) before) := by
  induction before using List.reverseRecOn with
  | nil => exact fun _ _ => init_stage hI ht
  | append_singleton before i ih =>
    intro after his
    rw [List.append_assoc] at his
    have hnext := (Stage.next hI htimes his (ih _ his)).1
    rw [trace_snoc, run_append, history, outputs_append, outputs_cons, outputs_nil, List.append_nil]
    exact hnext

/-- **Freshness and range safety**: in every run whose times are in order, over a transport that returns and whose
session is in range, the service raises nothing and fragments every frame; what it hands over is right, and after a step
no frame in its queue is stale. Recording what is handed over makes no difference to the run. -/
theorem base_fresh (hI : Obliging (E := E) I fun _ payload => payload.length ≤ maxFrameSize) (ht : I t)
    (htimes : Timed is) : (run next (init (⟨t, []⟩ : Recorder T)) is).forget = run next (init t) is ∧
    ∀ T₁ x T₂, trace next (init (⟨t, []⟩ : Recorder T)) is = T₁ ++ x :: T₂ →
      (∀ e, .raised e ∉ x.after.log) ∧ (∀ f, .unfragmentable f ∉ x.after.log) ∧
      x.after.queue.length ≤ 128 ∧ x.after.fragments.length ≤ 6 ∧
      ∀ io now, x.input = .step io now →
        (∀ f ∈ x.after.queue, now - f.receivedAt ≤ 8 / 10) ∧
        ∃ new, x.after.transport.handed = x.before.transport.handed ++ new ∧
          ∀ p ∈ new, Right (fun f => .ingested f ∈ history T₁) now p.1 p.2 := by
  refine ⟨run_forget is _, fun T₁ x T₂ h => ?_⟩
  obtain ⟨before, after, his, rfl, hbefore, hafter, -⟩ := trace_split h
  have hstage := run_stage hI ht htimes before _ his
  rw [← hbefore] at hstage
  obtain ⟨hnext, hfresh⟩ := Stage.next hI htimes his hstage
  rw [← hafter] at hnext hfresh
  refine ⟨fun e he => hnext.fed.smooth _ he, fun f hf => hnext.fed.smooth _ hf, hnext.fed.few, hnext.fed.fewFragments,
    fun io now hi => ⟨(hfresh io now hi).queue, (hfresh io now hi).handed⟩⟩

theorem timed_courierRun : Timed courierRun := by
  refine ⟨by decide +kernel, by decide +kernel, fun before io now after h t ht => ?_⟩
  have hingests : ∀ t ∈ ingestTimes courierRun, t ≤ 1 / 2 := by decide +kernel
  have hsteps : ∀ t ∈ stepTimes courierRun, 1 ≤ t := by decide +kernel
  rw [h, ingestTimes, List.filterMap_append] at hingests
  rw [h, stepTimes, List.filterMap_append] at hsteps
  have hnow := hsteps now (List.mem_append_right _ List.mem_cons_self)
  have hthen := hingests t (List.mem_append_left _ ht)
  linarith

theorem courier_obliging :
    Obliging (E := Unit) (fun _ : Courier => True) fun _ payload => payload.length ≤ maxFrameSize :=
  ⟨fun _ _ _ _ => trivial, fun _ _ => trivial, fun _ _ _ _ => trivial,
    fun _ _ => ⟨le_refl 1, show 1 ≤ 2 ^ 32 - 1 by decide⟩⟩

set_option maxRecDepth 100000 in
/-- Three payloads are handed over, each of them right. -/
theorem base_fresh_courierRun :
    (run next (init (⟨{}, []⟩ : Recorder Courier)) courierRun).transport.handed.length = 3 ∧
      ∀ T₁ x T₂, trace next (init (⟨{}, []⟩ : Recorder Courier)) courierRun = T₁ ++ x :: T₂ →
        ∀ io now, x.input = .step io now → ∃ new, x.after.transport.handed = x.before.transport.handed ++ new ∧
          ∀ p ∈ new, Right (fun f => .ingested f ∈ history T₁) now p.1 p.2 := by
  refine ⟨by decide +kernel, fun T₁ x T₂ htrace io now hinput => ?_⟩
  obtain ⟨-, -, -, -, hstep⟩ := (base_fresh courier_obliging trivial timed_courierRun).2 T₁ x T₂ htrace
  exact (hstep io now hinput).2

end Runs

/-! ## The modem as the transport -/

/-- The host transport returns from every state it can reach, for payloads that a frame holds. -/
theorem modem_obliging : Obliging (fun m : Modem => ∃ w, Modem.Steady w m) fun _ payload =>
    payload.length ≤ maxFrameSize := by
  have hend : ∀ {m : Modem} {w w₀ : Window}, Modem.Steady w m → ∀ m', Modem.InWindow w₀ w.books m' →
      ∃ w, Modem.Steady w m' := fun h m' hm => by
    obtain ⟨v, -, hv, -⟩ := hm.steady h.returned
    exact ⟨v, hv⟩
  refine ⟨fun io idle m ⟨w, h⟩ => ?_, fun m ⟨w, h⟩ => ?_, fun io payload m ⟨⟨w, h⟩, hlength⟩ => ?_, fun m ⟨w, h⟩ => ?_⟩
  · exact (Modem.tick_spec idle).mono (fun _ m' hm => hend h m' hm) _ (h.inWindow io.1)
  · obtain ⟨hs, -⟩ := Modem.takeTxOutcomes_spec (h.enter m.io)
    exact ⟨_, { hs.toView with good := hs.good, returned := h.returned }⟩
  · have hs := Modem.sendAir_spec payload (m.enter io.2) (h.enter io.2)
    show Returns _ (Modem.sendAir payload (m.enter io.2)).1 (Modem.sendAir payload (m.enter io.2)).2
    rcases hsent : Modem.sendAir payload (m.enter io.2) with ⟨r, m'⟩
    rw [hsent] at hs
    cases r with
    | ok sent =>
      cases sent with
      | some q =>
        obtain ⟨_, t, hs⟩ := hs
        exact ⟨_, Modem.Steady.sent h.returned hs⟩
      | none => exact hend h m' hs
    | error e =>
      have hlong := hs.1
      simp only [maxFrameSize, Protocol.maxUsbPayload] at hlength hlong
      omega
  · show 1 ≤ m.session ∧ m.session ≤ 2 ^ 32 - 1
    rw [h.session]
    exact h.good.session

end LoraLink.Service
