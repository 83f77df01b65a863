import LoraLink.App.RtcmStream
import LoraLink.Service.Relay

/-!
# The keys of the messages

A message is fragmented under the session of the service and the next message id, which comes round to 1 after
`2 ^ 32 - 1` messages. The session changes only when that of the transport does, so nothing stops a session from
loading more messages than it has ids.

- `Keyed`: the ids that the present session has used are those of its messages, counted from 1;
- `keys_nodup_iff`: no key comes twice exactly if no session loads more than `2 ^ 32 - 1` messages;
- `keys_reused`: a run of the service over a modem whose radio is not ready, in which a key does come twice.
-/

namespace LoraLink.Service

open LoraLink.Application LoraLink.Rtcm LoraLink.Host Prog
open scoped List

/-! ## Keys and ids -/

/-- The keys under which messages were fragmented. -/
def keysIn (H : List Event) : List Key := H.filterMap fun
  | .loaded _ fragments _ => fragments.head?.map keyOf
  | _ => none

@[simp] theorem keysIn_append (H H' : List Event) : keysIn (H ++ H') = keysIn H ++ keysIn H' := List.filterMap_append

/-- Whenever a message is loaded, its session has an id left: the message id has not reached `2 ^ 32 - 1`. -/
def IdsLeft (H : List Event) : Prop :=
  ∀ X f fragments now, X ++ [.loaded f fragments now] <+: H → messagesIn X < 2 ^ 32 - 1

theorem idsLeft_snoc {H : List Event} {e : Event} :
    IdsLeft (H ++ [e]) ↔ IdsLeft H ∧ ∀ f fragments now, e = .loaded f fragments now → messagesIn H < 2 ^ 32 - 1 := by
  constructor
  · intro h
    refine ⟨fun X f fragments now hX => h X f fragments now (hX.trans (List.prefix_append _ _)), ?_⟩
    rintro f fragments now rfl
    exact h H f fragments now (List.prefix_refl _)
  · rintro ⟨h, hlast⟩ X f fragments now hX
    rcases List.prefix_concat_iff.mp hX with heq | hX
    · obtain ⟨rfl, he⟩ := List.append_inj' heq rfl
      exact hlast f fragments now (by simpa using he.symm)
    · exact h X f fragments now hX

/-- Ids come again only after `2 ^ 32 - 1` messages, and then they do. -/
theorem messageIdAt_fresh {n : Nat} :
    (∀ k < n, messageIdAt (k + 1) ≠ messageIdAt (n + 1)) ↔ n < 2 ^ 32 - 1 := by
  unfold messageIdAt
  constructor
  · intro h
    by_contra hn
    refine h (n - (2 ^ 32 - 1)) (by omega) ?_
    rw [if_neg (Nat.succ_ne_zero _), if_neg (Nat.succ_ne_zero n)]
    omega
  · intro hn k hk
    rw [if_neg (Nat.succ_ne_zero k), if_neg (Nat.succ_ne_zero n)]
    omega

/-- Every fragment of a message has its key. -/
theorem head_fragment {raw : Bytes} (hvalid : validRtcm3 raw = true) (s id : Nat) {fragments : List Frame}
    (h : fragment raw s id = .ok fragments) :
    fragments.head?.map keyOf = some ((s : Int), (id : Int)) ∧ ∀ f ∈ fragments, keyOf f = ((s : Int), (id : Int)) := by
  obtain ⟨-, rfl⟩ := fragment_ok h
  have hlength := le_length_of_validRtcm3 hvalid
  obtain ⟨n, hn⟩ : ∃ n, fragmentCount raw.length = n + 1 := by
    refine ⟨fragmentCount raw.length - 1, ?_⟩
    simp only [fragmentCount, rtcmFragmentDataSize]
    omega
  constructor
  · rw [pieces, hn, List.range_succ_eq_map]
    rfl
  · intro f hf
    obtain ⟨index, -, rfl⟩ := List.mem_map.mp hf
    rfl

/-! ## The keys of a session -/

/-- The ids that the present session has used are those of its messages; other keys belong to other sessions. -/
structure Keyed (s₀ : Nat) (H : List Event) (o : Outbox) : Prop where
  queue : ∀ f ∈ o.queue, validRtcm3 f.raw = true
  session : o.session ∈ s₀ :: sessionsIn H
  messageId : o.messageId = messageIdAt (messagesIn H)
  keys : ∀ key ∈ keysIn H, ∃ s ∈ s₀ :: sessionsIn H, key.1 = (s : Int)
  ids : ∀ id : Int, ((o.session : Int), id) ∈ keysIn H ↔ ∃ k < messagesIn H, id = messageIdAt (k + 1)

variable {s₀ : Nat} {H : List Event} {o : Outbox} {e : Event}

/-- An event that loads no message and opens no session. -/
theorem Keyed.keep (h : Keyed s₀ H o) {o' : Outbox} (hqueue : ∀ f ∈ o'.queue, validRtcm3 f.raw = true)
    (hsessions : sessionsIn [e] = []) (hkeys : keysIn [e] = []) (hcount : countMessages (messagesIn H) e = messagesIn H)
    (hsession : o'.session = o.session) (hid : o'.messageId = o.messageId) : Keyed s₀ (H ++ [e]) o' := by
  have hlist : sessionsIn (H ++ [e]) = sessionsIn H := by rw [sessionsIn_append, hsessions, List.append_nil]
  have hsame : keysIn (H ++ [e]) = keysIn H := by rw [keysIn_append, hkeys, List.append_nil]
  refine ⟨hqueue, ?_, ?_, ?_, ?_⟩
  · rw [hlist, hsession]
    exact h.session
  · rw [hid, messagesIn_snoc, hcount, h.messageId]
  · rw [hsame, hlist]
    exact h.keys
  · rw [hsame, hsession, messagesIn_snoc, hcount]
    exact h.ids

/-- A new session has used no id. -/
theorem Keyed.opened (h : Keyed s₀ H o) {s : Nat} (hnew : (s₀ :: sessionsIn (H ++ [.session s])).Nodup) :
    Keyed s₀ (H ++ [.session s]) (o.on (.session s)) := by
  have hlist : s₀ :: sessionsIn (H ++ [.session s]) = s₀ :: sessionsIn H ++ [s] := by
    rw [sessionsIn_append]
    rfl
  have hsame : keysIn (H ++ [.session s]) = keysIn H := by
    rw [keysIn_append]
    exact List.append_nil _
  have hcount : messagesIn (H ++ [.session s]) = 0 := messagesIn_snoc H _
  have hfresh : s ∉ s₀ :: sessionsIn H := by
    rw [hlist] at hnew
    exact fun hmem => (List.nodup_append.mp hnew).2.2 s hmem s (List.mem_singleton_self s) rfl
  refine ⟨h.queue, ?_, ?_, fun key hkey => ?_, fun id => ?_⟩
  · rw [hlist]
    exact List.mem_append_right _ (List.mem_singleton_self s)
  · rw [hcount]
    rfl
  · rw [hsame] at hkey
    obtain ⟨s', hs', heq⟩ := h.keys key hkey
    exact ⟨s', hlist ▸ List.mem_append_left _ hs', heq⟩
  · rw [hsame, hcount]
    constructor
    · intro hmem
      obtain ⟨s', hs', heq⟩ := h.keys _ hmem
      have heq' : s = s' := Int.ofNat.inj heq
      exact absurd (heq' ▸ hs') hfresh
    · rintro ⟨k, hk, -⟩
      exact absurd hk (Nat.not_lt_zero k)

/-- A message is loaded under the next id. -/
theorem Keyed.loaded (h : Keyed s₀ H o) {f : RtcmFrame} {fragments : List Frame} {now : ℚ}
    (he : o.Allowed (.loaded f fragments now)) :
    Keyed s₀ (H ++ [.loaded f fragments now]) (o.on (.loaded f fragments now)) ∧
      keysIn [.loaded f fragments now] = [((o.session : Int), (messageIdAt (messagesIn H + 1) : Int))] := by
  obtain ⟨-, -, hhead, -, hfragment⟩ := he
  obtain ⟨queue, hqueue⟩ := List.head?_eq_some_iff.mp hhead
  have hvalid : validRtcm3 f.raw = true := h.queue f (by rw [hqueue]; exact List.mem_cons_self)
  have hid : BaseService.nextMessageId o.messageId = messageIdAt (messagesIn H + 1) := by
    rw [h.messageId, nextMessageId_messageIdAt]
  have hkey : keysIn [.loaded f fragments now] = [((o.session : Int), (messageIdAt (messagesIn H + 1) : Int))] := by
    rw [hid] at hfragment
    simp [keysIn, (head_fragment hvalid _ _ hfragment).1]
  have hlist : sessionsIn (H ++ [.loaded f fragments now]) = sessionsIn H := by
    rw [sessionsIn_append]
    exact List.append_nil _
  have hcount : messagesIn (H ++ [.loaded f fragments now]) = messagesIn H + 1 := messagesIn_snoc H _
  refine ⟨⟨fun g hg => ?_, ?_, ?_, fun key hmem => ?_, fun id => ?_⟩, hkey⟩
  · exact h.queue g (List.mem_of_mem_drop hg)
  · rw [hlist]
    exact h.session
  · rw [hcount, ← hid]
    rfl
  · rw [hlist]
    rw [keysIn_append, hkey, List.mem_append, List.mem_singleton] at hmem
    rcases hmem with hmem | rfl
    · exact h.keys key hmem
    · exact ⟨o.session, h.session, rfl⟩
  · rw [keysIn_append, hkey, List.mem_append, List.mem_singleton, hcount]
    show ((o.session : Int), id) ∈ keysIn H ∨ ((o.session : Int), id) = _ ↔ _
    rw [h.ids id]
    constructor
    · rintro (⟨k, hk, rfl⟩ | heq)
      · exact ⟨k, Nat.lt_succ_of_lt hk, rfl⟩
      · exact ⟨messagesIn H, Nat.lt_succ_self _, congrArg Prod.snd heq⟩
    · rintro ⟨k, hk, rfl⟩
      rcases Nat.lt_succ_iff_lt_or_eq.mp hk with hk | rfl
      · exact Or.inl ⟨k, hk, rfl⟩
      · exact Or.inr rfl

/-- Every event that is allowed, in new sessions. -/
theorem Keyed.on (h : Keyed s₀ H o) (he : o.Allowed e) (hnew : (s₀ :: sessionsIn (H ++ [e])).Nodup) :
    Keyed s₀ (H ++ [e]) (o.on e) := by
  have hdrop : ∀ f ∈ o.queue.drop 1, validRtcm3 f.raw = true := fun f hf => h.queue f (List.mem_of_mem_drop hf)
  cases e with
  | session s => exact h.opened hnew
  | loaded f fragments now => exact (h.loaded he).1
  | unfragmentable f =>
    obtain ⟨-, hhead, e, hfragment⟩ := he
    obtain ⟨queue, hqueue⟩ := List.head?_eq_some_iff.mp hhead
    have hvalid : validRtcm3 f.raw = true := h.queue f (by rw [hqueue]; exact List.mem_cons_self)
    rw [fragment_eq hvalid] at hfragment
    cases hfragment
  | ingested f =>
    refine h.keep (fun g hg => ?_) rfl rfl rfl rfl rfl
    rcases List.mem_append.mp hg with hg | hg
    · exact h.queue g hg
    · rw [List.mem_singleton.mp hg]
      exact he
  | reset => exact h.keep (fun f hf => absurd hf List.not_mem_nil) rfl rfl rfl rfl rfl
  | overflowed | stale f now => exact h.keep hdrop rfl rfl rfl rfl rfl
  | settled _ _ | unexpected _ | expired _ | taken _ _ | refused | sent _ _ | raised _ =>
    exact h.keep h.queue rfl rfl rfl rfl rfl

/-- No key comes twice exactly if ids are left for all messages. -/
theorem Keyed.nodup_on (h : Keyed s₀ H o) (he : o.Allowed e) (hiff : (keysIn H).Nodup ↔ IdsLeft H) :
    (keysIn (H ++ [e])).Nodup ↔ IdsLeft (H ++ [e]) := by
  rw [idsLeft_snoc, ← hiff]
  by_cases hloaded : ∃ f fragments now, e = .loaded f fragments now
  · obtain ⟨f, fragments, now, rfl⟩ := hloaded
    have hfresh : ((o.session : Int), (messageIdAt (messagesIn H + 1) : Int)) ∉ keysIn H ↔ messagesIn H < 2 ^ 32 - 1 := by
      rw [h.ids, ← messageIdAt_fresh]
      constructor
      · intro hno k hk heq
        exact hno ⟨k, hk, by rw [heq]⟩
      · rintro hno ⟨k, hk, heq⟩
        exact hno k hk (Int.ofNat.inj heq).symm
    rw [keysIn_append, (h.loaded he).2, List.nodup_append]
    constructor
    · rintro ⟨hnodup, -, hne⟩
      refine ⟨hnodup, fun _ _ _ _ => hfresh.mp fun hmem => ?_⟩
      exact hne _ hmem _ (List.mem_singleton_self _) rfl
    · rintro ⟨hnodup, hleft⟩
      refine ⟨hnodup, List.nodup_singleton _, ?_⟩
      rintro key hkey key' hkey' rfl
      rw [List.mem_singleton.mp hkey'] at hkey
      exact hfresh.mpr (hleft f fragments now rfl) hkey
  · have hkeys : keysIn [e] = [] := by
      cases e with
      | loaded f fragments now => exact absurd ⟨f, fragments, now, rfl⟩ hloaded
      | _ => rfl
    rw [keysIn_append, hkeys, List.append_nil]
    constructor
    · intro hnodup
      exact ⟨hnodup, fun f fragments now heq => absurd ⟨f, fragments, now, heq⟩ hloaded⟩
    · exact fun h => h.1

/-- Every path in new sessions. -/
theorem path_keyed {s : Outbox} (hpath : Outbox.Path { session := s₀ } H s) (hnew : (s₀ :: sessionsIn H).Nodup) :
    Keyed s₀ H s ∧ ((keysIn H).Nodup ↔ IdsLeft H) := by
  let R : List Event → Outbox → Prop := fun H o =>
    (s₀ :: sessionsIn H).Nodup → Keyed s₀ H o ∧ ((keysIn H).Nodup ↔ IdsLeft H)
  have hstart : R [] { session := s₀ } := by
    refine fun _ =>
      ⟨⟨fun _ hf => absurd hf List.not_mem_nil, List.mem_cons_self, rfl, fun _ hk => absurd hk List.not_mem_nil,
      fun id => ?_⟩, ?_⟩
    · constructor
      · exact fun hmem => absurd hmem List.not_mem_nil
      · rintro ⟨k, hk, -⟩
        exact absurd hk (Nat.not_lt_zero k)
    · refine ⟨fun _ X f fragments now hX => ?_, fun _ => List.nodup_nil⟩
      exact absurd (List.prefix_nil.mp hX) (List.append_ne_nil_of_right_ne_nil _ (List.cons_ne_nil _ _))
  have hrun := LoraLink.Path.rel (R := R) hpath hstart fun H o e hR he hnew => by
    have hbefore : (s₀ :: sessionsIn H).Nodup := by
      rw [sessionsIn_append, ← List.cons_append] at hnew
      exact (List.nodup_append.mp hnew).1
    obtain ⟨hkeyed, hiff⟩ := hR hbefore
    exact ⟨hkeyed.on he hnew, hkeyed.nodup_on he hiff⟩
  rw [List.nil_append] at hrun
  exact hrun hnew

namespace BaseService

variable {T E : Type}

/-- **When keys are reused.** In any run over any transport whose sessions are new, no two frames are fragmented under
one key exactly if whenever a frame is loaded its session has an id left, so that the session changes before the id
comes round. -/
theorem keys_nodup_iff [Transport T E] (t : T) (is : List (Input E))
    (hnew : (Transport.session t :: sessionsIn (history (trace next (init t) is))).Nodup) :
    (keysIn (history (trace next (init t) is))).Nodup ↔ IdsLeft (history (trace next (init t) is)) := by
  obtain ⟨o, hpath, -⟩ := run_path is (shows_outbox (init t)) rfl
  exact (path_keyed hpath hnew).2

/-! ## A session that lasts -/

/-- A modem whose radio is not ready, with nothing to say. -/
structure Mute (s : Nat) (m : Modem) : Prop where
  connected : m.connected = true
  session : m.session = s
  handshakeComplete : m.handshakeComplete = true
  radioReady : m.radioReady = false
  pending : m.pending = []
  received : m.received = []
  txOutcomes : m.txOutcomes = []
  timedOutRadio : m.timedOutRadio = []

theorem tick_mute {s : Nat} {m : Modem} (h : Mute s m) :
    (Modem.tick false (m.enter {})).1 = .ok [] ∧ Mute s (Modem.tick false (m.enter {})).2 := by
  obtain ⟨connected, decoder, session, sequence, bootId, handshakeComplete, radioReady, pending, received, txOutcomes,
    timedOutRadio⟩ := m
  obtain ⟨rfl, rfl, rfl, rfl, rfl, rfl, rfl, rfl⟩ := h
  exact ⟨rfl, rfl, rfl, rfl, rfl, rfl, rfl, rfl, rfl⟩

theorem ofTransport_ok {α : Type} {x : Prog T Exn α} {b : BaseService T} {a : α} (h : (x b.transport).1 = .ok a) :
    ofTransport x b = (.ok a, { b with transport := (x b.transport).2 }) := by
  unfold ofTransport
  rcases hx : x b.transport with ⟨r, t⟩
  rw [hx] at h
  obtain rfl : r = .ok a := h
  rfl

/-- The service over such a modem, with `k` messages loaded in its session. -/
structure Stalled (s : Nat) (queue : List RtcmFrame) (fragments : List (Frame × ℚ)) (k : Nat) (L : List Event)
    (b : BaseService Modem) : Prop where
  transport : Mute s b.transport
  buffer : b.parser.buffer = []
  queue : b.queue = queue
  fragments : b.fragments = fragments
  inFlight : b.inFlight = none
  session : b.session = s
  messageId : b.messageId = messageIdAt k
  log : b.log = L

section Stalled

variable {s k : Nat} {queue : List RtcmFrame} {fragments : List (Frame × ℚ)} {L : List Event}

theorem stalled_add (name : Metric) (amount : Nat) : Triple (Stalled s queue fragments k L)
    (add name amount : Op Modem Unit) (Returns fun _ => Stalled s queue fragments k L) := fun _ h => { h with }

theorem stalled_set (name : Metric) (value : Int) : Triple (Stalled s queue fragments k L)
    (set name value : Op Modem Unit) (Returns fun _ => Stalled s queue fragments k L) := fun _ h => { h with }

theorem stalled_updateRates (now : ℚ) : Triple (Stalled s queue fragments k L) (updateRates now : Op Modem Unit)
    (Returns fun _ => Stalled s queue fragments k L) := by
  refine (Triple.modify (R := Stalled s queue fragments k L) fun b h => { h with }).seq fun _ => ?_
  refine Triple.get_bind fun b _ => ?_
  exact (stalled_set _ _).seq fun _ => (stalled_set _ _).seq fun _ => stalled_set _ _

theorem stalled_updateQueueMetrics (now : ℚ) : Triple (Stalled s queue fragments k L)
    (updateQueueMetrics now : Op Modem Unit) (Returns fun _ => Stalled s queue fragments k L) := by
  refine Triple.get_bind fun b _ => ?_
  exact (stalled_set _ _).seq fun _ => (stalled_set _ _).seq fun _ => (stalled_set _ _).seq fun _ => stalled_set _ _

/-- A frame that comes alone is parsed. -/
theorem feed_frame {p : RtcmStreamParser} (hbuffer : p.buffer = []) {raw : Bytes} (hvalid : validRtcm3 raw = true)
    (now : ℚ) : (p.feed raw now).1.buffer = [] ∧
      (p.feed raw now).2 = [{ raw := raw, messageType := typeBits raw, receivedAt := now }] := by
  have hextend : (p.extend raw).buffer = raw ++ [] := by
    show p.buffer ++ raw = raw ++ []
    rw [hbuffer, List.nil_append, List.append_nil]
  have hpass := RtcmStreamParser.pass_frame hvalid hextend now
  have hlength := le_length_of_validRtcm3 hvalid
  obtain ⟨n, hn⟩ : ∃ n, (p.extend raw).buffer.length = n + 1 := by
    refine ⟨raw.length - 1, ?_⟩
    rw [hextend, List.append_nil]
    omega
  have hne : (p.extend raw).buffer ≠ [] := by
    intro hnil
    rw [hnil] at hn
    cases hn
  have hcomplete : ((p.extend raw).complete now raw []).1.buffer = [] ∧ ((p.extend raw).complete now raw []).2 =
      [{ raw := raw, messageType := typeBits raw, receivedAt := now }] := by
    unfold RtcmStreamParser.complete
    rw [if_neg (by rw [hvalid]; decide)]
    exact ⟨rfl, rfl⟩
  rw [RtcmStreamParser.feed_eq, hn, RtcmStreamParser.loop_succ now n hne, hpass, if_pos rfl]
  have hend : ∀ q : RtcmStreamParser, q.buffer = [] → RtcmStreamParser.loop now n q = (q, []) := by
    intro q hq
    cases n with
    | zero => rfl
    | succ n => simp [RtcmStreamParser.loop, hq]
  rw [hend _ hcomplete.1]
  exact ⟨hcomplete.1, by rw [List.append_nil, hcomplete.2]⟩

theorem stalled_ingest {raw : Bytes} (hvalid : validRtcm3 raw = true) :
    Triple (Stalled s [] [] k []) (ingest raw 0 : Op Modem Nat)
      (Returns fun _ => Stalled s [{ raw := raw, messageType := typeBits raw, receivedAt := 0 }] [] k
        [.ingested { raw := raw, messageType := typeBits raw, receivedAt := 0 }]) := by
  refine Triple.get_bind fun b hb => ?_
  obtain ⟨hbuffer, hframes⟩ := feed_frame hb.buffer hvalid 0
  generalize b.parser.feed raw 0 = r at hbuffer hframes
  obtain ⟨parser, frames⟩ := r
  obtain rfl : frames = _ := hframes
  have hparser : ∀ b : BaseService Modem, Stalled s [] [] k [] b → Stalled s [] [] k []
      { b with parser := parser, inputRate := b.inputRate ++ [(0, raw.length, 1)] } :=
    fun b h => { h with buffer := hbuffer }
  refine (Triple.modify hparser).seq fun _ => (stalled_add _ _).seq fun _ => ?_
  have henqueue : Triple (Stalled s [] [] k [])
      (forEach enqueue [{ raw := raw, messageType := typeBits raw, receivedAt := 0 }] : Op Modem Unit)
      (Returns fun _ => Stalled s [{ raw := raw, messageType := typeBits raw, receivedAt := 0 }] [] k
        [.ingested { raw := raw, messageType := typeBits raw, receivedAt := 0 }]) := by
    have hone : Triple (Stalled s [] [] k [])
        (enqueue { raw := raw, messageType := typeBits raw, receivedAt := 0 } : Op Modem Unit)
        (Returns fun _ => Stalled s [{ raw := raw, messageType := typeBits raw, receivedAt := 0 }] [] k
          [.ingested { raw := raw, messageType := typeBits raw, receivedAt := 0 }]) := by
      have hpush : ∀ b : BaseService Modem, Stalled s [] [] k [] b →
          Stalled s [{ raw := raw, messageType := typeBits raw, receivedAt := 0 }] [] k
            [.ingested { raw := raw, messageType := typeBits raw, receivedAt := 0 }]
            { b with
              queue := b.queue ++ [{ raw := raw, messageType := typeBits raw, receivedAt := 0 }]
              log := b.log ++ [.ingested { raw := raw, messageType := typeBits raw, receivedAt := 0 }] } :=
        fun b h => { h with queue := by rw [h.queue]; rfl, log := by rw [h.log]; rfl }
      refine (Triple.modify hpush).seq fun _ => Triple.get_bind fun b hb => ?_
      refine Triple.seq (Triple.when (fun hlong => ?_) fun _ b h => h) fun _ =>
        (stalled_add _ _).seq fun _ => stalled_add _ _
      rw [hb.queue] at hlong
      exact absurd hlong (by simp [maxQueuedRtcmFrames])
    exact hone.seq fun _ => fun b h => h
  refine henqueue.seq fun _ => (stalled_updateQueueMetrics 0).seq fun _ => (stalled_set _ _).seq fun _ => ?_
  exact (stalled_updateRates 0).seq fun _ b h => h

theorem stalled_resetSource : Triple (Stalled s [] fragments k []) (resetSource : Op Modem Unit)
    (Returns fun _ => Stalled s [] [] k [.reset]) := by
  refine Triple.get_bind fun b _ => ?_
  refine (Triple.modify (R := Stalled s [] fragments k []) fun b h => { h with buffer := rfl }).seq fun _ => ?_
  refine (Triple.when (fun _ => stalled_add _ _) fun _ b h => h).seq fun _ => ?_
  refine (Triple.when (fun _ => stalled_add _ _) fun _ b h => h).seq fun _ => Triple.modify fun b h => ?_
  refine { h with queue := rfl, fragments := rfl, log := ?_ }
  rw [h.log]
  rfl

/-- A frame is loaded, and not sent. -/
theorem stalled_step {raw : Bytes} (hvalid : validRtcm3 raw = true) :
    Triple (Stalled s [{ raw := raw, messageType := typeBits raw, receivedAt := 0 }] [] k [])
      (step ({}, {}) 0 : Op Modem Unit)
      (Returns fun _ => Stalled s [] ((pieces raw s (messageIdAt (k + 1))).map fun fragment => (fragment, 0)) (k + 1)
        [.loaded { raw := raw, messageType := typeBits raw, receivedAt := 0 } (pieces raw s (messageIdAt (k + 1)))
          0]) := by
  generalize hf : ({ raw := raw, messageType := typeBits raw, receivedAt := 0 } : RtcmFrame) = f
  have hraw : f.raw = raw := by rw [← hf]
  have htime : f.receivedAt = 0 := by rw [← hf]
  refine Triple.get_bind fun b hb => ?_
  have hidle : b.idle = false := by
    unfold idle
    rw [hb.queue]
    rfl
  rw [hidle]
  have htick : Triple (Stalled s [f] [] k [])
      (ofTransport (Transport.tick ((({}, {}) : Io × Io)) false) : Op Modem (List Bytes))
      (Returns fun _ => Stalled s [f] [] k []) := by
    intro b h
    obtain ⟨hok, hmute⟩ := tick_mute h.transport
    rw [ofTransport_ok (show (Transport.tick (({}, {}) : Io × Io) false b.transport).1 = .ok [] from hok)]
    exact { h with transport := hmute }
  have hout : Triple (Stalled s [f] [] k []) (ofTransport Transport.takeTxOutcomes : Op Modem (List Outcome))
      (Returns fun outcomes b => outcomes = [] ∧ Stalled s [f] [] k [] b) := by
    intro b h
    exact ⟨h.transport.txOutcomes, { h with transport := { h.transport with txOutcomes := rfl } }⟩
  refine htick.seq fun _ => hout.seq fun outcomes => Triple.assume fun houtcomes => ?_
  subst houtcomes
  have hsettle : Triple (Stalled s [f] [] k []) (forEach settle [] : Op Modem Unit)
      (Returns fun _ => Stalled s [f] [] k []) := fun b h => h
  have hfollow : Triple (Stalled s [f] [] k []) (followSession : Op Modem Unit)
      (Returns fun _ => Stalled s [f] [] k []) := by
    refine Triple.get_bind fun b hb => Triple.when (fun hne => ?_) fun _ b h => h
    exact absurd (hb.transport.session.trans hb.session.symm) hne
  refine hsettle.seq fun _ => hfollow.seq fun _ => Triple.get_bind fun b hb => ?_
  have hstale : Triple (Stalled s [f] [] k []) (dropStale 0 b.queue : Op Modem Unit)
      (Returns fun _ => Stalled s [f] [] k []) := by
    rw [hb.queue]
    refine Triple.ite (fun hold => ?_) fun _ b h => h
    rw [htime] at hold
    norm_num at hold
  refine hstale.seq fun _ => Triple.get_bind fun b hb => Triple.ite (fun hno => ?_) fun _ => ?_
  · exact absurd (hb.transport.connected.symm.trans hno) (by decide)
  · have hload : Triple (Stalled s [f] [] k []) (load 0 : Op Modem Unit)
        (Returns fun _ => Stalled s [] ((pieces raw s (messageIdAt (k + 1))).map fun fragment => (fragment, 0)) (k + 1)
          [.loaded f (pieces raw s (messageIdAt (k + 1))) 0]) := by
      refine Triple.get_bind fun b hb => ?_
      rw [hb.queue, hb.fragments, hb.messageId, hb.session, nextMessageId_messageIdAt]
      simp only
      rw [hraw, fragment_eq hvalid]
      refine Triple.modify fun b h => { h with queue := rfl, fragments := ?_, messageId := rfl, log := ?_ }
      · rw [htime]
      · rw [h.log]
        rfl
    refine hload.seq fun _ => ?_
    generalize (pieces raw s (messageIdAt (k + 1))).map (fun fragment => (fragment, (0 : ℚ))) = fragments
    generalize [Event.loaded f (pieces raw s (messageIdAt (k + 1))) 0] = L
    have hsend : Triple (Stalled s [] fragments (k + 1) L) (send ({}, {}) 0 : Op Modem Unit)
        (Returns fun _ => Stalled s [] fragments (k + 1) L) := by
      refine Triple.get_bind fun b hb => ?_
      split
      · exact fun b h => h
      · refine Triple.ite (fun hready => ?_) fun _ b h => h
        have hno : Modem.readyForSend b.transport = false := by
          rw [Modem.readyForSend, hb.transport.radioReady]
          simp
        exact absurd (hno.symm.trans hready.2) (by decide)
    exact hsend.seq fun _ => (stalled_updateRates 0).seq fun _ => stalled_updateQueueMetrics 0

theorem stalled_call {α : Type} {x : Op Modem α} {s k k' : Nat} {queue queue' : List RtcmFrame}
    {fragments fragments' : List (Frame × ℚ)} {L L' : List Event} {b : BaseService Modem}
    (hx : Triple (Stalled s queue fragments k []) x (Returns fun _ => Stalled s queue' fragments' k' L'))
    (h : Stalled s queue fragments k L b) : Stalled s queue' fragments' k' L' (call x b) := by
  have hend := hx { b with log := [] } { h with log := rfl }
  unfold call
  generalize x { b with log := [] } = out at hend
  obtain ⟨r, b'⟩ := out
  cases r with
  | ok a => exact hend
  | error e => exact hend.elim

theorem history_append (b : BaseService Modem) (is js : List (Input (Io × Io))) :
    history (trace next b (is ++ js)) = history (trace next b is) ++ history (trace next (run next b is) js) := by
  rw [trace_append]
  exact outputs_append _ _

/-- A frame comes and is loaded. -/
def arrive (raw : Bytes) : List (Input (Io × Io)) := [.ingest raw 0, .step ({}, {}) 0]

/-- It goes again, because the source is reset. -/
def round (raw : Bytes) : List (Input (Io × Io)) := arrive raw ++ [.resetSource]

theorem stalled_arrive {raw : Bytes} (hvalid : validRtcm3 raw = true) {b : BaseService Modem}
    (h : Stalled s [] [] k L b) : ∃ f fragments fs,
      history (trace next b (arrive raw)) = [.ingested f, .loaded f fs 0] ∧
        Stalled s [] fragments (k + 1) [.loaded f fs 0] (run next b (arrive raw)) := by
  have hingest := stalled_call (stalled_ingest hvalid) h
  have hstep := stalled_call (stalled_step hvalid) hingest
  refine ⟨_, _, _, ?_, hstep⟩
  show (call (ingest raw 0) b).log ++ ((call (step ({}, {}) 0) (call (ingest raw 0) b)).log ++ []) = _
  rw [hingest.log, hstep.log]
  rfl

theorem stalled_round {raw : Bytes} (hvalid : validRtcm3 raw = true) {b : BaseService Modem}
    (h : Stalled s [] [] k L b) : ∃ f fs,
      history (trace next b (round raw)) = [.ingested f, .loaded f fs 0, .reset] ∧
        Stalled s [] [] (k + 1) [.reset] (run next b (round raw)) := by
  obtain ⟨f, fragments, fs, hlog, harrive⟩ := stalled_arrive hvalid h
  have hreset := stalled_call stalled_resetSource harrive
  refine ⟨f, fs, ?_, ?_⟩
  · rw [round, history_append, hlog]
    show _ ++ ((call resetSource (run next b (arrive raw))).log ++ []) = _
    rw [hreset.log]
    rfl
  · rw [round, run_append]
    exact hreset

/-- Any number of frames come and go in one session. -/
theorem stalled_rounds {raw : Bytes} (hvalid : validRtcm3 raw = true) (n : Nat) {b : BaseService Modem} {H : List Event}
    (h : Stalled s [] [] k L b) :
    ∃ L', Stalled s [] [] (k + n) L' (run next b (List.replicate n (round raw)).flatten) ∧
      sessionsIn (H ++ history (trace next b (List.replicate n (round raw)).flatten)) = sessionsIn H ∧
      messagesIn (H ++ history (trace next b (List.replicate n (round raw)).flatten)) = messagesIn H + n := by
  induction n generalizing k L b H with
  | zero => exact ⟨L, h, by simp [trace, history], by simp [trace, history]⟩
  | succ n ih =>
    obtain ⟨f, fs, hlog, hround⟩ := stalled_round hvalid h
    obtain ⟨L', hend, hsessions, hmessages⟩ := @ih _ _ _ (H ++ [.ingested f, .loaded f fs 0, .reset]) hround
    rw [List.replicate_succ, List.flatten_cons, run_append, history_append, hlog, ← List.append_assoc]
    refine ⟨L', ?_, ?_, ?_⟩
    · rwa [Nat.add_right_comm] at hend
    · rw [hsessions, sessionsIn_append]
      exact List.append_nil _
    · rw [hmessages]
      simp only [messagesIn, List.foldl_append, List.foldl_cons, List.foldl_nil, countMessages]
      omega

end Stalled

/-- The modem is opened and answers that its radio is not ready. -/
def greeting : List (Input (Io × Io)) :=
  [.step ({ writes := [.wrote 1, .wrote 20] }, {}) 0,
    .step ({ read := Protocol.encodeFrame Protocol.Msg.info 2 1 (List.replicate 22 0) }, {}) 0]

/-- A frame without payload. -/
def emptyFrame : Bytes := [0xd3, 0, 0, 0x47, 0xea, 0x4b]

/-- More frames come in one session than there are ids, and each goes again before the radio is ready. -/
def lastingRun : List (Input (Io × Io)) :=
  greeting ++ ((List.replicate (2 ^ 32 - 1) (round emptyFrame)).flatten ++ arrive emptyFrame)

theorem mute_greeting : Mute 2 (run next (init (Modem.init 0 1)) greeting).transport where
  connected := by decide +kernel
  session := by decide +kernel
  handshakeComplete := by decide +kernel
  radioReady := by decide +kernel
  pending := by decide +kernel
  received := by decide +kernel
  txOutcomes := by decide +kernel
  timedOutRadio := by decide +kernel

theorem stalled_greeting :
    Stalled 2 [] [] 0 (run next (init (Modem.init 0 1)) greeting).log (run next (init (Modem.init 0 1)) greeting) where
  transport := mute_greeting
  buffer := by decide +kernel
  queue := by decide +kernel
  fragments := by decide +kernel
  inFlight := by decide +kernel
  session := by decide +kernel
  messageId := by decide +kernel
  log := Eq.refl _

/-- Two frames are loaded, the first of two fragments and given up; the modem is lost and opened again, its radio
ready, and two more are loaded and sent in the session 3. -/
def reopenedRun : List (Input (Io × Io)) :=
  greeting ++ round (zeroFrame 169) ++ arrive emptyFrame ++
    [.step ({ read := none }, {}) 0,
      .step ({ clock := fun _ => 1, draws := fun _ => 2, writes := [.wrote 1, .wrote 20] }, {}) 1,
      .ingest (emptyFrame ++ emptyFrame) 1,
      .step ({ read := Protocol.encodeFrame Protocol.Msg.info 3 1 (List.replicate 16 0 ++ [1] ++ List.replicate 5 0) },
        { writes := [.wrote 53] }) 1,
      .step ({ read := Protocol.encodeFrame Protocol.Msg.radioTxResult 3 2 (List.replicate 12 0) },
        { writes := [.wrote 53] }) 1]

set_option maxRecDepth 100000 in
theorem keys_nodup_reopenedRun :
    keysIn (history (trace next (init (Modem.init 0 1)) reopenedRun)) = [(2, 1), (2, 2), (3, 1), (3, 2)] ∧
      IdsLeft (history (trace next (init (Modem.init 0 1)) reopenedRun)) := by
  have hkeys : keysIn (history (trace next (init (Modem.init 0 1)) reopenedRun)) = [(2, 1), (2, 2), (3, 1), (3, 2)] := by
    decide +kernel
  have hnodup : (keysIn (history (trace next (init (Modem.init 0 1)) reopenedRun))).Nodup := by
    rw [hkeys]
    decide
  exact ⟨hkeys, (keys_nodup_iff (Modem.init 0 1) reopenedRun (by decide +kernel)).mp hnodup⟩

/-- The sessions of the run are new, and a key comes twice. -/
theorem keys_reused : (Transport.session (Modem.init 0 1) ::
      sessionsIn (history (trace next (init (Modem.init 0 1)) lastingRun))).Nodup ∧
    ¬ (keysIn (history (trace next (init (Modem.init 0 1)) lastingRun))).Nodup := by
  have hvalid : validRtcm3 emptyFrame = true := by decide +kernel
  have hstart : sessionsIn (history (trace next (init (Modem.init 0 1)) greeting)) = [2] ∧
      messagesIn (history (trace next (init (Modem.init 0 1)) greeting)) = 0 := by decide +kernel
  obtain ⟨L, hrounds, hsessions, hmessages⟩ := stalled_rounds hvalid (2 ^ 32 - 1) stalled_greeting
    (H := history (trace next (init (Modem.init 0 1)) greeting))
  obtain ⟨f, fragments, fs, hlog, -⟩ := stalled_arrive hvalid hrounds
  have hhistory : history (trace next (init (Modem.init 0 1)) lastingRun) =
      history (trace next (init (Modem.init 0 1)) greeting) ++ history (trace next
        (run next (init (Modem.init 0 1)) greeting) (List.replicate (2 ^ 32 - 1) (round emptyFrame)).flatten) ++
        [.ingested f] ++ [.loaded f fs 0] := by
    rw [lastingRun, history_append, history_append, hlog]
    simp only [List.append_assoc, List.singleton_append]
  have hnew : (Transport.session (Modem.init 0 1) ::
      sessionsIn (history (trace next (init (Modem.init 0 1)) lastingRun))).Nodup := by
    rw [hhistory, sessionsIn_append, sessionsIn_append, hsessions, hstart.1]
    show [1, 2].Nodup
    decide
  obtain ⟨o, hpath, -⟩ := run_path lastingRun (shows_outbox (init (Modem.init 0 1))) rfl
  refine ⟨hnew, fun hnodup => ?_⟩
  have hleft := (path_keyed hpath hnew).2.mp hnodup _ f fs 0 (by rw [hhistory])
  rw [messagesIn_snoc, hmessages, hstart.2] at hleft
  exact absurd hleft (show ¬ 0 + (2 ^ 32 - 1) < 2 ^ 32 - 1 by decide)

end BaseService

end LoraLink.Service
