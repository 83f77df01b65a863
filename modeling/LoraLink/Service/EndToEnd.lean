import LoraLink.Service.Outbox
import LoraLink.Service.Robot
import Mathlib.Data.List.Infix

/-!
# From the base to the robot

A base and a robot with a link between them that may lose payloads. The messages that the base has loaded are a list
of keys and frames, and everything it sends is a sublist of their fragments in order.

- `run_shipped`: what every run of the base keeps: the messages are frames it has ingested, in order and under
  different keys;
- `relays_heard`: what every run of the robot keeps: it publishes a frame only at the last fragment of its message;
- `published_sublist`: the robot publishes frames that the base has ingested, unchanged, in order and at most once.
-/

namespace LoraLink.Service

open LoraLink.Application LoraLink.Rtcm LoraLink.Host
open scoped List

/-! ## Messages and their fragments -/

/-- A message: its key, and the frame it carries. -/
abbrev Message : Type := Key × Bytes

/-- The message `id` of a session. -/
def message (session id : Nat) (raw : Bytes) : Message := ((session, id), raw)

/-- The fragments of a message. -/
def fragmentsOf (m : Message) : List Frame := pieces m.2 m.1.1 m.1.2

/-- A frame without its age. -/
def erase (f : Frame) : Frame := { f with sourceAgeMs := 0 }

/-- The frames in a list of payloads, without their ages. -/
def framesOf (payloads : List Bytes) : List Frame := payloads.filterMap fun payload => (decode payload).toOption.map erase

@[simp] theorem framesOf_append (ps qs : List Bytes) : framesOf (ps ++ qs) = framesOf ps ++ framesOf qs :=
  List.filterMap_append

/-- `decode` returns a frame. -/
def decodes (payload : Bytes) : Bool := (decode payload).toOption.isSome

/-- Payloads that are refused carry no frame. -/
theorem framesOf_filter (ps : List Bytes) : framesOf (ps.filter decodes) = framesOf ps := by
  induction ps with
  | nil => rfl
  | cons p ps ih =>
    unfold framesOf at ih ⊢
    by_cases hp : decodes p = true
    · rw [List.filter_cons_of_pos hp, List.filterMap_cons, List.filterMap_cons, ih]
    · have hnone : (decode p).toOption = none := by simpa [decodes] using hp
      rw [List.filter_cons_of_neg hp, List.filterMap_cons, ih, hnone]
      rfl

theorem framesOf_singleton {payload : Bytes} {f : Frame} (h : decode payload = .ok f) :
    framesOf [payload] = [erase f] := by
  simp [framesOf, h, Except.toOption]

theorem mem_fragmentsOf {m : Message} {f : Frame} :
    f ∈ fragmentsOf m ↔ ∃ index < fragmentCount m.2.length, f = piece m.2 m.1.1 m.1.2 0 index := by
  simp [fragmentsOf, pieces, eq_comm]

/-! ## The base -/

section Base

/-- The frames ingested. -/
def ingestedIn (H : List Event) : List Bytes := H.filterMap fun
  | .ingested f => some f.raw
  | _ => none

/-- The payloads that the transport has accepted. -/
def sentIn (H : List Event) : List Bytes := H.filterMap fun
  | .sent _ payload => some payload
  | _ => none

/-- The sessions that the service has followed. -/
def sessionsIn (H : List Event) : List Nat := H.filterMap fun
  | .session s => some s
  | _ => none

/-- How an event changes the number of messages of the session. -/
def countMessages (n : Nat) : Event → Nat
  | .session _ => 0
  | .loaded _ _ _ | .unfragmentable _ => n + 1
  | _ => n

/-- The number of messages in the present session. -/
def messagesIn (H : List Event) : Nat := H.foldl countMessages 0

/-- The assumptions about sessions: each is new, and there are fewer than `2 ^ 32 - 1` messages in each. -/
structure NewSessions (s₀ : Nat) (H : List Event) : Prop where
  new : (s₀ :: sessionsIn H).Nodup
  few : ∀ X, X <+: H → messagesIn X < 2 ^ 32 - 1

@[simp] theorem ingestedIn_append (H H' : List Event) : ingestedIn (H ++ H') = ingestedIn H ++ ingestedIn H' :=
  List.filterMap_append

@[simp] theorem sentIn_append (H H' : List Event) : sentIn (H ++ H') = sentIn H ++ sentIn H' := List.filterMap_append

@[simp] theorem sessionsIn_append (H H' : List Event) : sessionsIn (H ++ H') = sessionsIn H ++ sessionsIn H' :=
  List.filterMap_append

@[simp] theorem messagesIn_snoc (H : List Event) (e : Event) :
    messagesIn (H ++ [e]) = countMessages (messagesIn H) e := by
  rw [messagesIn, List.foldl_append]
  rfl

theorem NewSessions.prefix {s₀ : Nat} {H H' : List Event} (h : NewSessions s₀ (H ++ H')) : NewSessions s₀ H := by
  constructor
  · have hnew := h.new
    rw [sessionsIn_append, ← List.cons_append] at hnew
    exact (List.nodup_append.mp hnew).1
  · exact fun X hX => h.few X (hX.trans (List.prefix_append _ _))

/-- What the base has shipped: the messages `L` are frames it has ingested, under different keys, and what was sent, is
in hand or waits to be sent is a sublist of their fragments. -/
structure Shipped (s₀ : Nat) (L : List Message) (H : List Event) (o : Outbox) : Prop where
  frames : L.map Prod.snd ++ o.queue.map RtcmFrame.raw <+ ingestedIn H
  valid : ∀ m ∈ L, validRtcm3 m.2 = true
  keys : (L.map Prod.fst).Nodup
  past : ∀ m ∈ L, ∃ s ∈ s₀ :: sessionsIn H, m.1.1 = s ∧ (s = o.session → m.1.2 ≤ o.messageId)
  session : o.session ∈ s₀ :: sessionsIn H
  count : o.messageId = messagesIn H
  sent : framesOf (sentIn H) ++ (o.hand.toList ++ o.fragments).map Prod.fst <+ L.flatMap fragmentsOf

variable {s₀ : Nat} {L : List Message} {H : List Event} {o : Outbox} {e : Event}

/-- An event that loads no message and opens no session. -/
theorem Shipped.keep (h : Shipped s₀ L H o) {o' : Outbox}
    (hframes : L.map Prod.snd ++ o'.queue.map RtcmFrame.raw <+ ingestedIn (H ++ [e]))
    (hsessions : sessionsIn [e] = []) (hsession : o'.session = o.session) (hid : o.messageId ≤ o'.messageId)
    (hcount : o'.messageId = messagesIn (H ++ [e]))
    (hsent : framesOf (sentIn (H ++ [e])) ++ (o'.hand.toList ++ o'.fragments).map Prod.fst <+ L.flatMap fragmentsOf) :
    Shipped s₀ L (H ++ [e]) o' := by
  have hlist : sessionsIn (H ++ [e]) = sessionsIn H := by rw [sessionsIn_append, hsessions, List.append_nil]
  refine ⟨hframes, h.valid, h.keys, fun m hm => ?_, ?_, hcount, hsent⟩
  · obtain ⟨s, hs, hkey, hle⟩ := h.past m hm
    refine ⟨s, hlist ▸ hs, hkey, fun heq => ?_⟩
    have hid' : (o.messageId : Int) ≤ o'.messageId := by exact_mod_cast hid
    exact (hle (heq.trans hsession)).trans hid'
  · rw [hlist, hsession]
    exact h.session

/-- An event that touches only the queue and the fragments, and leaves no more of them. -/
theorem Shipped.drop (h : Shipped s₀ L H o) {o' : Outbox} (hingested : ingestedIn [e] = []) (hsent : sentIn [e] = [])
    (hsessions : sessionsIn [e] = []) (hqueue : o'.queue <+ o.queue)
    (hfragments : o'.hand.toList ++ o'.fragments <+ o.hand.toList ++ o.fragments) (hsession : o'.session = o.session)
    (hid : o.messageId ≤ o'.messageId) (hcount : o'.messageId = countMessages (messagesIn H) e) :
    Shipped s₀ L (H ++ [e]) o' := by
  refine h.keep ?_ hsessions hsession hid (by rw [messagesIn_snoc, hcount]) ?_
  · rw [ingestedIn_append, hingested, List.append_nil]
    exact ((hqueue.map _).append_left _).trans h.frames
  · rw [sentIn_append, hsent, List.append_nil]
    exact ((hfragments.map _).append_left _).trans h.sent

/-- Messages are counted without wrapping. -/
theorem nextMessageId_eq {n : Nat} (h : n + 1 < 2 ^ 32 - 1) : BaseService.nextMessageId n = n + 1 := by
  rw [BaseService.nextMessageId, if_neg]
  omega

/-- A new session leaves the old keys behind. -/
theorem Shipped.opened (h : Shipped s₀ L H o) {s : Nat} (hnew : NewSessions s₀ (H ++ [.session s])) :
    Shipped s₀ L (H ++ [.session s]) (o.on (.session s)) := by
  have hlist : s₀ :: sessionsIn (H ++ [.session s]) = s₀ :: sessionsIn H ++ [s] := by
    rw [sessionsIn_append]
    rfl
  have hfresh : s ∉ s₀ :: sessionsIn H := by
    have hnodup := hnew.new
    rw [hlist] at hnodup
    exact fun hmem => (List.nodup_append.mp hnodup).2.2 s hmem s (List.mem_singleton_self s) rfl
  refine ⟨?_, h.valid, h.keys, fun m hm => ?_, ?_, ?_, ?_⟩
  · rw [ingestedIn_append]
    exact h.frames.trans (List.sublist_append_left _ _)
  · obtain ⟨s', hs', hkey, -⟩ := h.past m hm
    refine ⟨s', hlist ▸ List.mem_append_left _ hs', hkey, fun heq => ?_⟩
    obtain rfl : s' = s := heq
    exact absurd hs' hfresh
  · rw [hlist]
    exact List.mem_append_right _ (List.mem_singleton_self s)
  · rw [messagesIn_snoc]
    rfl
  · have hless : (o.on (.session s)).hand.toList ++ (o.on (.session s)).fragments <+ o.hand.toList ++ o.fragments :=
      (List.nil_sublist o.fragments).append_left _
    rw [sentIn_append]
    show framesOf (sentIn H ++ []) ++ _ <+ _
    rw [List.append_nil]
    exact ((hless.map _).append_left _).trans h.sent

/-- A frame becomes a message under a new key. -/
theorem Shipped.loaded (h : Shipped s₀ L H o) {f : RtcmFrame} {fragments : List Frame} {now : ℚ}
    (hnew : NewSessions s₀ (H ++ [.loaded f fragments now])) (he : o.Allowed (.loaded f fragments now)) :
    Shipped s₀ (L ++ [message o.session (o.messageId + 1) f.raw]) (H ++ [.loaded f fragments now])
      (o.on (.loaded f fragments now)) := by
  obtain ⟨hhand, hnone, hhead, -, hfragment⟩ := he
  have hfew : o.messageId + 1 < 2 ^ 32 - 1 := by
    have hfew := hnew.few _ (List.prefix_refl _)
    rw [messagesIn_snoc, ← h.count] at hfew
    exact hfew
  have hid := nextMessageId_eq hfew
  rw [hid] at hfragment
  obtain ⟨hvalid, hpieces⟩ := fragment_ok hfragment
  have hon : o.on (.loaded f fragments now) = { o with
      queue := o.queue.drop 1, messageId := o.messageId + 1
      fragments := fragments.map fun fragment => (fragment, f.receivedAt) } := by rw [Outbox.on, hid]
  have hlist : sessionsIn (H ++ [.loaded f fragments now]) = sessionsIn H := by
    rw [sessionsIn_append]
    exact List.append_nil _
  obtain ⟨queue, hqueue⟩ := List.head?_eq_some_iff.mp hhead
  rw [hon]
  refine ⟨?_, ?_, ?_, ?_, hlist ▸ h.session, ?_, ?_⟩
  · have hframes := h.frames
    rw [hqueue] at hframes
    rw [ingestedIn_append]
    simpa [hqueue, ingestedIn, message] using hframes
  · intro m hm
    rcases List.mem_append.mp hm with hm | hm
    · exact h.valid m hm
    · rw [List.mem_singleton.mp hm]
      exact hvalid
  · rw [List.map_append, List.nodup_append]
    refine ⟨h.keys, by simp [message], fun key hkey key' hkey' heq => ?_⟩
    obtain ⟨m, hm, rfl⟩ := List.mem_map.mp hkey
    obtain rfl : key' = ((o.session : Int), ((o.messageId + 1 : Nat) : Int)) := List.mem_singleton.mp hkey'
    obtain ⟨s, -, hs, hle⟩ := h.past m hm
    rw [heq] at hs hle
    have hsession : s = o.session := Int.ofNat.inj hs.symm
    have hold := hle hsession
    simp only at hold
    omega
  · intro m hm
    rcases List.mem_append.mp hm with hm | hm
    · obtain ⟨s, hs, hkey, hle⟩ := h.past m hm
      refine ⟨s, hlist ▸ hs, hkey, fun heq => (hle heq).trans ?_⟩
      simp only
      omega
    · rw [List.mem_singleton.mp hm]
      exact ⟨o.session, hlist ▸ h.session, rfl, fun _ => le_rfl⟩
  · rw [messagesIn_snoc, ← h.count]
    rfl
  · have hsent : framesOf (sentIn H) <+ L.flatMap fragmentsOf := (List.sublist_append_left _ _).trans h.sent
    have hfragments : fragments = fragmentsOf (message o.session (o.messageId + 1) f.raw) := hpieces
    rw [sentIn_append, List.flatMap_append]
    simpa [sentIn, hhand, Function.comp_def, hfragments] using
      hsent.append_right (fragmentsOf (message o.session (o.messageId + 1) f.raw))

/-- A payload is sent: the fragment in hand, with its age. -/
theorem Shipped.sentOne (h : Shipped s₀ L H o) {sequence : Nat} {payload : Bytes}
    (he : o.Allowed (.sent sequence payload)) :
    Shipped s₀ L (H ++ [.sent sequence payload]) (o.on (.sent sequence payload)) := by
  obtain ⟨-, f, age, hhand, henc⟩ := he
  refine h.keep ?_ rfl rfl le_rfl ?_ ?_
  · rw [ingestedIn_append]
    exact h.frames.trans (List.sublist_append_left _ _)
  · rw [messagesIn_snoc]
    exact h.count
  · have hsent := h.sent
    have hmap : o.hand.toList.map Prod.fst = [f] := by
      cases hh : o.hand with
      | none => rw [hh] at hhand; cases hhand
      | some p =>
        rw [hh] at hhand
        simpa using hhand
    have hmem : f ∈ L.flatMap fragmentsOf := hsent.subset (by simp [hmap])
    obtain ⟨m, -, hm⟩ := List.mem_flatMap.mp hmem
    obtain ⟨index, -, rfl⟩ := mem_fragmentsOf.mp hm
    rw [sentIn_append, framesOf_append]
    have hone : framesOf (sentIn [.sent sequence payload]) = [piece m.2 m.1.1 m.1.2 0 index] :=
      framesOf_singleton (decode_encode henc)
    rw [hone, List.append_assoc]
    rw [List.map_append, hmap] at hsent
    exact hsent

/-- A frame is ingested. -/
theorem Shipped.ingested (h : Shipped s₀ L H o) (f : RtcmFrame) :
    Shipped s₀ L (H ++ [.ingested f]) (o.on (.ingested f)) := by
  refine h.keep ?_ rfl rfl le_rfl ?_ ?_
  · rw [ingestedIn_append]
    simpa [Outbox.on, ingestedIn] using h.frames.append_right [f.raw]
  · rw [messagesIn_snoc]
    exact h.count
  · have hsent := h.sent
    rw [sentIn_append]
    show framesOf (sentIn H ++ []) ++ _ <+ _
    rw [List.append_nil]
    exact hsent

/-- Every event that is allowed, in new sessions. -/
theorem Shipped.on (h : Shipped s₀ L H o) (he : o.Allowed e) (hnew : NewSessions s₀ (H ++ [e])) :
    ∃ L, Shipped s₀ L (H ++ [e]) (o.on e) := by
  have hcount := h.count
  cases e with
  | ingested f => exact ⟨L, h.ingested f⟩
  | session s => exact ⟨L, h.opened hnew⟩
  | loaded f fragments now => exact ⟨_, h.loaded hnew he⟩
  | sent sequence payload => exact ⟨L, h.sentOne he⟩
  | overflowed | stale f now =>
    exact ⟨L, h.drop rfl rfl rfl (List.drop_sublist 1 _) (List.Sublist.refl _) rfl le_rfl hcount⟩
  | reset =>
    exact ⟨L, h.drop rfl rfl rfl (List.nil_sublist _) ((List.nil_sublist _).append_left _) rfl le_rfl hcount⟩
  | unfragmentable f =>
    have hid : (o.on (.unfragmentable f)).messageId = o.messageId + 1 := by
      have hfew := hnew.few _ (List.prefix_refl _)
      rw [messagesIn_snoc, ← hcount] at hfew
      exact nextMessageId_eq hfew
    refine ⟨L, h.drop rfl rfl rfl (List.drop_sublist 1 _) (List.Sublist.refl _) rfl ?_ ?_⟩
    · rw [hid]
      exact Nat.le_succ _
    · rw [hid, hcount]
      rfl
  | expired now =>
    exact ⟨L, h.drop rfl rfl rfl (List.Sublist.refl _) ((List.nil_sublist _).append_left _) rfl le_rfl hcount⟩
  | settled sequence completed =>
    have hless : (if completed = some true then o.fragments else []) <+ o.fragments := by
      split
      · exact List.Sublist.refl _
      · exact List.nil_sublist _
    exact ⟨L, h.drop rfl rfl rfl (List.Sublist.refl _) (hless.append_left _) rfl le_rfl hcount⟩
  | taken f now =>
    obtain ⟨hhand, -, p, hhead, -⟩ := he
    obtain ⟨rest, hfragments⟩ := List.head?_eq_some_iff.mp hhead
    refine ⟨L, h.drop rfl rfl rfl (List.Sublist.refl _) ?_ rfl le_rfl hcount⟩
    simp [Outbox.on, hhand, hfragments]
  | refused => exact ⟨L, h.drop rfl rfl rfl (List.Sublist.refl _) (List.Sublist.refl _) rfl le_rfl hcount⟩
  | raised r =>
    exact ⟨L, h.drop rfl rfl rfl (List.Sublist.refl _) (List.sublist_append_right _ _) rfl le_rfl hcount⟩
  | unexpected sequence => exact ⟨L, h.drop rfl rfl rfl (List.Sublist.refl _) (List.Sublist.refl _) rfl le_rfl hcount⟩

/-- Every run of the base, over any transport, in new sessions. -/
theorem run_shipped {T E : Type} [Transport T E] (t : T) (is : List (Input E))
    (hnew : NewSessions (Transport.session t) (BaseService.history (trace BaseService.next (BaseService.init t) is))) :
    ∃ L o, Shipped (Transport.session t) L (BaseService.history (trace BaseService.next (BaseService.init t) is)) o := by
  let R : List Event → Outbox → Prop := fun H o =>
    NewSessions (Transport.session t) H → ∃ L, Shipped (Transport.session t) L H o
  obtain ⟨o, hpath, -⟩ := BaseService.run_path is (BaseService.shows_outbox (BaseService.init t)) rfl
  have hstart : R [] (BaseService.init t).outbox := fun _ =>
    ⟨[], List.Sublist.refl _, by simp, List.nodup_nil, by simp, List.mem_cons_self, rfl, List.Sublist.refl _⟩
  have hrun := LoraLink.Path.rel (R := R) hpath hstart fun H o e hR he hnew => by
    obtain ⟨L, hL⟩ := hR hnew.prefix
    exact hL.on he hnew
  rw [List.nil_append] at hrun
  obtain ⟨L, hL⟩ := hrun hnew
  exact ⟨L, o, hL⟩

end Base

/-! ## The robot -/

section Robot

open RobotService

variable {L : List Message}

/-- The index and the count of a fragment. -/
def indexOf (f : Frame) : Nat := (byteAt f.body 4).toNat
def countOf (f : Frame) : Nat := (byteAt f.body 5).toNat

/-- The frame that ends with a fragment: that of its message if it is the last one. -/
def ended (L : List Message) (f : Frame) : Option Bytes := if indexOf f + 1 = countOf f then L.lookup (keyOf f) else none

section Pieces

variable {m : Message} {index : Nat}

theorem indexOf_piece (hvalid : validRtcm3 m.2 = true) (hindex : index < fragmentCount m.2.length) (age : Int) :
    indexOf (piece m.2 m.1.1 m.1.2 age index) = index ∧
      countOf (piece m.2 m.1.1 m.1.2 age index) = fragmentCount m.2.length := by
  have hcount := fragmentCount_le (length_of_validRtcm3 hvalid)
  simp only [maxRtcmFragments] at hcount
  exact ⟨UInt8.toNat_ofNat_of_lt' (show index < 256 by omega),
    UInt8.toNat_ofNat_of_lt' (show fragmentCount m.2.length < 256 by omega)⟩

/-- Only the last fragment ends a message, and it ends with its frame. -/
theorem ended_piece (hkeys : (L.map Prod.fst).Nodup) (hm : m ∈ L) (hvalid : validRtcm3 m.2 = true)
    (hindex : index < fragmentCount m.2.length) :
    ended L (piece m.2 m.1.1 m.1.2 0 index) = if index + 1 = fragmentCount m.2.length then some m.2 else none := by
  obtain ⟨hi, hc⟩ := indexOf_piece hvalid hindex 0
  have hlookup : L.lookup (keyOf (piece m.2 m.1.1 m.1.2 0 index)) = some m.2 := lookup_of_mem hkeys hm
  rw [ended, hi, hc, hlookup]

/-- The fragments of a message end with one frame. -/
theorem ended_fragmentsOf (hkeys : (L.map Prod.fst).Nodup) (hm : m ∈ L) (hvalid : validRtcm3 m.2 = true) :
    (fragmentsOf m).filterMap (ended L) = [m.2] := by
  have hlength : 6 ≤ m.2.length := by
    unfold validRtcm3 at hvalid
    split at hvalid
    · cases hvalid
    · omega
  obtain ⟨n, hn⟩ : ∃ n, fragmentCount m.2.length = n + 1 := by
    refine ⟨fragmentCount m.2.length - 1, ?_⟩
    simp only [fragmentCount, rtcmFragmentDataSize]
    omega
  have hended : ∀ index ∈ List.range (fragmentCount m.2.length),
      ended L (piece m.2 m.1.1 m.1.2 0 index) = if index + 1 = fragmentCount m.2.length then some m.2 else none :=
    fun index hindex => ended_piece hkeys hm hvalid (List.mem_range.mp hindex)
  rw [fragmentsOf, pieces, List.filterMap_map]
  have hcongr : (List.range (fragmentCount m.2.length)).filterMap (ended L ∘ piece m.2 m.1.1 m.1.2 0) =
      (List.range (fragmentCount m.2.length)).filterMap fun index =>
        if index + 1 = fragmentCount m.2.length then some m.2 else none := List.filterMap_congr hended
  rw [hcongr, hn, List.range_succ, List.filterMap_append]
  have hfront : (List.range n).filterMap (fun index => if index + 1 = n + 1 then some m.2 else none) = [] := by
    rw [List.filterMap_eq_nil_iff]
    intro index hindex
    have hlt := List.mem_range.mp hindex
    rw [if_neg (by omega)]
  rw [hfront]
  simp

/-- All fragments end with all frames. -/
theorem ended_flatMap (hkeys : (L.map Prod.fst).Nodup) (hvalid : ∀ m ∈ L, validRtcm3 m.2 = true) :
    (L.flatMap fragmentsOf).filterMap (ended L) = L.map Prod.snd := by
  have hpart : ∀ L' : List Message, (∀ m ∈ L', m ∈ L) →
      (L'.flatMap fragmentsOf).filterMap (ended L) = L'.map Prod.snd := by
    intro L' hsub
    induction L' with
    | nil => rfl
    | cons m L' ih =>
      have hm := hsub m List.mem_cons_self
      rw [List.flatMap_cons, List.filterMap_append, ended_fragmentsOf hkeys hm (hvalid m hm),
        ih fun m' hm' => hsub m' (List.mem_cons_of_mem _ hm')]
      rfl
  exact hpart L fun _ hm => hm

/-- The fragments of one key come in the order of their indexes. -/
theorem pairwise_fragments (hkeys : (L.map Prod.fst).Nodup) (hvalid : ∀ m ∈ L, validRtcm3 m.2 = true) :
    (L.flatMap fragmentsOf).Pairwise fun f g => keyOf f = keyOf g → indexOf f < indexOf g := by
  rw [List.pairwise_flatMap]
  constructor
  · intro m hm
    rw [fragmentsOf, pieces, List.pairwise_map]
    refine List.pairwise_lt_range.imp_of_mem fun hi hj hlt _ => ?_
    rw [(indexOf_piece (hvalid m hm) (List.mem_range.mp hi) 0).1,
      (indexOf_piece (hvalid m hm) (List.mem_range.mp hj) 0).1]
    exact hlt
  · rw [List.Nodup, List.pairwise_map] at hkeys
    refine hkeys.imp fun hne f hf g hg heq => ?_
    obtain ⟨i, -, rfl⟩ := mem_fragmentsOf.mp hf
    obtain ⟨j, -, rfl⟩ := mem_fragmentsOf.mp hg
    exact absurd heq hne

end Pieces

/-- A part of an assembly is the data of a fragment that was heard. -/
def Part (L : List Message) (gs : List Frame) (key : Key) (index : Nat) (data : Bytes) : Prop :=
  ∃ raw, (key, raw) ∈ L ∧ index < fragmentCount raw.length ∧ data = fragmentData raw index ∧
    piece raw key.1 key.2 0 index ∈ gs

/-- What the robot has made of the payloads it has acted on, if they were sent. -/
def Heard (L : List Message) (done published : List Bytes) (r : Reassembler) : Prop :=
  framesOf done <+ L.flatMap fragmentsOf →
    r.Holds (Part L (framesOf done)) ∧ published <+ (framesOf done).filterMap (ended L)

theorem Part.mono {gs gs' : List Frame} (hsub : ∀ f ∈ gs, f ∈ gs') {key : Key} {index : Nat} {data : Bytes}
    (h : Part L gs key index data) : Part L gs' key index data := by
  obtain ⟨raw, hm, hindex, hdata, hmem⟩ := h
  exact ⟨raw, hm, hindex, hdata, hsub _ hmem⟩

/-- A frame is put together from the fragments of one message, all of them heard. -/
theorem joined_eq (hkeys : (L.map Prod.fst).Nodup) {gs : List Frame} {m : Message} (hm : m ∈ L) {raw : Bytes}
    (h : Reassembler.Joined (Part L gs) m.1 (fragmentCount m.2.length) raw) :
    raw = m.2 ∧ ∀ index < fragmentCount m.2.length, piece m.2 m.1.1 m.1.2 0 index ∈ gs := by
  obtain ⟨D, hraw, hparts⟩ := h
  have hpart : ∀ index < fragmentCount m.2.length,
      D index = fragmentData m.2 index ∧ piece m.2 m.1.1 m.1.2 0 index ∈ gs := by
    intro index hindex
    obtain ⟨raw', hm', -, hdata, hmem⟩ := hparts index hindex
    have hlookup := lookup_of_mem hkeys hm
    rw [lookup_of_mem hkeys hm', Option.some.injEq] at hlookup
    subst hlookup
    exact ⟨hdata, hmem⟩
  refine ⟨?_, fun index hindex => (hpart index hindex).2⟩
  have hmap : (List.range (fragmentCount m.2.length)).map D =
      (List.range (fragmentCount m.2.length)).map (fragmentData m.2) :=
    List.map_congr_left fun index hindex => (hpart index (List.mem_range.mp hindex)).1
  rw [hraw, hmap, flatten_fragmentData]

/-- The last fragment heard of a message is its last fragment, if all were heard. -/
theorem last_heard (hkeys : (L.map Prod.fst).Nodup) (hvalid : ∀ m ∈ L, validRtcm3 m.2 = true) {gs : List Frame}
    {m : Message} (hm : m ∈ L) {index : Nat} (hindex : index < fragmentCount m.2.length)
    (hsub : gs ++ [piece m.2 m.1.1 m.1.2 0 index] <+ L.flatMap fragmentsOf)
    (hall : ∀ i < fragmentCount m.2.length, piece m.2 m.1.1 m.1.2 0 i ∈ gs ++ [piece m.2 m.1.1 m.1.2 0 index]) :
    index + 1 = fragmentCount m.2.length := by
  by_contra hne
  have hlast : fragmentCount m.2.length - 1 < fragmentCount m.2.length := by omega
  have horder := (pairwise_fragments hkeys hvalid).sublist hsub
  obtain ⟨-, -, hbefore⟩ := List.pairwise_append.mp horder
  have hi := (indexOf_piece (hvalid m hm) hindex 0).1
  have hl := (indexOf_piece (hvalid m hm) hlast 0).1
  rcases List.mem_append.mp (hall _ hlast) with hmem | hmem
  · have hlt := hbefore _ hmem _ (List.mem_singleton_self _) rfl
    rw [hi, hl] at hlt
    omega
  · have heq := congrArg indexOf (List.mem_singleton.mp hmem)
    rw [hi, hl] at heq
    omega

/-- Everything that the robot does with a payload keeps what it has heard. -/
theorem relays_heard (hkeys : (L.map Prod.fst).Nodup) (hvalid : ∀ m ∈ L, validRtcm3 m.2 = true) : Relays (Heard L) where
  skip := by
    intro done published r payload h hno hsub
    cases hdecode : decode payload with
    | error e =>
      have hnone : framesOf [payload] = [] := by simp [framesOf, hdecode, Except.toOption]
      rw [framesOf_append, hnone, List.append_nil] at hsub ⊢
      exact h hsub
    | ok f =>
      rw [framesOf_append, framesOf_singleton hdecode] at hsub
      obtain ⟨m, -, hf⟩ := List.mem_flatMap.mp (hsub.subset (List.mem_append_right _ (List.mem_singleton_self _)))
      obtain ⟨index, -, hpiece⟩ := mem_fragmentsOf.mp hf
      have htyp : f.typ = rtcmFragment := congrArg Frame.typ hpiece
      exact absurd htyp (hno f hdecode)
  expire := fun h hsub => ⟨(h hsub).1.expire _, (h hsub).2⟩
  add := by
    intro done published r payload f now h hdecode htyp hsub
    rw [framesOf_append, framesOf_singleton hdecode] at hsub ⊢
    obtain ⟨hholds, hpublished⟩ := h ((List.sublist_append_left _ _).trans hsub)
    obtain ⟨m, hm, hf⟩ := List.mem_flatMap.mp (hsub.subset (List.mem_append_right _ (List.mem_singleton_self _)))
    obtain ⟨index, hindex, hpiece⟩ := mem_fragmentsOf.mp hf
    have hwhole : f = piece m.2 m.1.1 m.1.2 f.sourceAgeMs index := by
      have hage := congrArg (fun g : Frame => { g with sourceAgeMs := f.sourceAgeMs }) hpiece
      exact hage
    have hparse : ∀ p, parseFragment f = .ok p → p = fragmentOf m.2 index := by
      intro p hp
      rw [hwhole] at hp
      exact parse_piece_ok (hvalid m hm) hindex hp
    have hkey : keyOf f = m.1 := by rw [hwhole]; rfl
    have hmore : r.Holds (Part L (framesOf done ++ [erase f])) := fun p hp q hq =>
      (hholds p hp q hq).mono fun g hg => List.mem_append_left _ hg
    have hnew : ∀ p, parseFragment f = .ok p → Part L (framesOf done ++ [erase f]) (keyOf f) p.index p.data := by
      intro p hp
      rw [hparse p hp, hkey]
      refine ⟨m.2, hm, hindex, rfl, ?_⟩
      rw [hpiece]
      exact List.mem_append_right _ (List.mem_singleton_self _)
    obtain ⟨hkeep, hresult⟩ := Reassembler.add_spec hmore now hnew
    refine ⟨hkeep, ?_⟩
    rw [List.filterMap_append]
    cases hres : (r.add f now).1 with
    | error e => exact List.Sublist.append hpublished (List.nil_sublist _)
    | ok result =>
      cases result with
      | none => exact List.Sublist.append hpublished (List.nil_sublist _)
      | some raw =>
        obtain ⟨p, hp, hjoined⟩ := hresult raw hres
        rw [hparse p hp, hkey] at hjoined
        obtain ⟨rfl, hall⟩ := joined_eq hkeys hm hjoined
        rw [hpiece] at hsub hall ⊢
        have hlast := last_heard hkeys hvalid hm hindex hsub hall
        have hended : [piece m.2 m.1.1 m.1.2 0 index].filterMap (ended L) = [m.2] := by
          simp [ended_piece hkeys hm (hvalid m hm) hindex, hlast]
        rw [hended]
        exact List.Sublist.append hpublished (List.Sublist.refl _)

end Robot

/-! ## The link -/

open RobotService in
/-- **Safety under loss**: over any two transports, if the sessions of the base are new and the payloads that reach the
robot are some of those sent, in order, mixed with others that `decode` refuses, then the frames that the robot publishes
are frames that the base has ingested, in order and at most once each. -/
theorem published_sublist {T E T' E' : Type} [Transport T E] [Transport T' E'] (t : T) (is : List (Input E)) (t' : T')
    (js : List (RobotService.Input E'))
    (hnew : NewSessions (Transport.session t) (BaseService.history (trace BaseService.next (BaseService.init t) is)))
    (hlink : (receivedIn (RobotService.history (trace RobotService.next (RobotService.init t') js))).filter decodes <+
      sentIn (BaseService.history (trace BaseService.next (BaseService.init t) is))) :
    publishedIn (RobotService.history (trace RobotService.next (RobotService.init t') js)) <+
      ingestedIn (BaseService.history (trace BaseService.next (BaseService.init t) is)) := by
  obtain ⟨L, o, hL⟩ := run_shipped t is hnew
  have hstart : Heard L [] [] {} := fun _ => ⟨fun p hp => absurd hp List.not_mem_nil, List.Sublist.refl _⟩
  obtain ⟨done, hdone, hheard⟩ := RobotService.run_spec (relays_heard hL.keys hL.valid) hstart t' js
  have hsent : framesOf done <+ L.flatMap fragmentsOf := by
    rw [← framesOf_filter]
    have hfilter := (hdone.filter decodes).trans hlink
    exact (hfilter.filterMap _).trans ((List.sublist_append_left _ _).trans hL.sent)
  obtain ⟨-, hpublished⟩ := hheard hsent
  have hended := hpublished.trans (hsent.filterMap (ended L))
  rw [ended_flatMap hL.keys hL.valid] at hended
  exact hended.trans ((List.sublist_append_left _ _).trans hL.frames)

/-- What a `Wire` is told at a step: the payloads it delivers, the outcomes and the session it reports, and its answer to
a send. -/
structure WireIo where
  received : List Bytes := []
  outcomes : List Outcome := []
  session : Option Nat := none
  answer : Option Nat := none

/-- A transport that does as it is told. -/
structure Wire where
  session : Nat := 1
  outcomes : List Outcome := []

instance : Transport Wire WireIo where
  tick io _ := fun w => (.ok io.received, { session := io.session.getD w.session, outcomes := io.outcomes })
  takeTxOutcomes := fun w => (.ok w.outcomes, { w with outcomes := [] })
  sendAir io _ := fun w => (.ok io.answer, w)
  session := Wire.session
  connected _ := true
  readyForSend _ := true

/-- A frame of two fragments and one of one are sent; in the next session, another of two. -/
def wireRun : List (Input WireIo) :=
  [.ingest (zeroFrame 169 ++ zeroFrame 0) 0, .step { answer := some 1 } 0,
    .step { outcomes := [(1, some true)], answer := some 2 } 0,
      .step { outcomes := [(2, some true)], answer := some 3 } 0,
    .step { outcomes := [(3, none)], session := some 2 } (1 / 10), .ingest (zeroFrame 200) (1 / 10),
    .step { answer := some 1 } (1 / 10), .step { outcomes := [(1, some true)], answer := some 2 } (1 / 10)]

/-- The payloads of the run. -/
def wirePayloads : List Bytes :=
  sentIn (BaseService.history (trace BaseService.next (BaseService.init ({} : Wire)) wireRun))

/-- The second of them is lost, and there is one that is not a frame. -/
def wireDelivery : List (RobotService.Input WireIo) :=
  [{ io := { received := [wirePayloads.getD 0 [], [1, 2, 3], wirePayloads.getD 2 []] }, now := 0 },
    { io := { received := wirePayloads.drop 3 }, now := 1 / 5 }]

set_option maxRecDepth 100000 in
theorem newSessions_wireRun : NewSessions (Transport.session ({} : Wire))
    (BaseService.history (trace BaseService.next (BaseService.init ({} : Wire)) wireRun)) := by
  generalize hH : BaseService.history (trace BaseService.next (BaseService.init ({} : Wire)) wireRun) = H
  have hfew : ∀ X ∈ H.inits, messagesIn X < 2 ^ 32 - 1 := by
    rw [← hH]
    decide +kernel
  refine ⟨?_, fun X hX => hfew X ((List.mem_inits X H).mpr hX)⟩
  rw [← hH]
  decide +kernel

set_option maxRecDepth 100000 in
open RobotService in
theorem published_sublist_wireRun :
    publishedIn (RobotService.history (trace RobotService.next (RobotService.init ({} : Wire)) wireDelivery)) =
        [zeroFrame 0, zeroFrame 200] ∧
      publishedIn (RobotService.history (trace RobotService.next (RobotService.init ({} : Wire)) wireDelivery)) <+
        ingestedIn (BaseService.history (trace BaseService.next (BaseService.init ({} : Wire)) wireRun)) := by
  have hlink : (receivedIn (RobotService.history (trace RobotService.next (RobotService.init ({} : Wire))
      wireDelivery))).filter decodes <+
      sentIn (BaseService.history (trace BaseService.next (BaseService.init ({} : Wire)) wireRun)) := by decide +kernel
  exact ⟨by decide +kernel, published_sublist ({} : Wire) wireRun ({} : Wire) wireDelivery newSessions_wireRun hlink⟩

end LoraLink.Service
