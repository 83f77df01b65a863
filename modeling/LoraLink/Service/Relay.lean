import LoraLink.App.InOrder
import LoraLink.Service.EndToEnd

/-!
# The robot when nothing is lost

The fragments of the messages of one session reach the robot in order, those of one message within less than 0.6 s.

- `messagesOf`, `key_fresh`: the messages of a session; a key comes again only after `2 ^ 32 - 1` messages;
- `Relay.add`, `Relay.expire`: what a call of the reassembler keeps, `future` being the fragments still to come;
- `run_follows`: the robot publishes the frames of the messages, and counts no loss.
-/

namespace LoraLink.Service

open LoraLink.Application LoraLink.Host Prog
open scoped List

/-! ## The messages of a session -/

/-- The id of the `k`-th message. -/
def messageIdAt (k : Nat) : Nat := if k = 0 then 0 else (k - 1) % (2 ^ 32 - 1) + 1

theorem nextMessageId_messageIdAt (k : Nat) : BaseService.nextMessageId (messageIdAt k) = messageIdAt (k + 1) := by
  unfold BaseService.nextMessageId messageIdAt
  by_cases hk : k = 0
  · simp [hk]
  · rw [if_neg hk, if_neg (Nat.succ_ne_zero k)]
    split <;> omega

theorem messageIdAt_succ (k : Nat) : 1 ≤ messageIdAt (k + 1) ∧ messageIdAt (k + 1) ≤ 2 ^ 32 - 1 := by
  unfold messageIdAt
  rw [if_neg (Nat.succ_ne_zero k)]
  omega

theorem messageIdAt_ne {i j : Nat} (hij : i < j) (hj : j ≤ i + 64) : messageIdAt (i + 1) ≠ messageIdAt (j + 1) := by
  unfold messageIdAt
  rw [if_neg (Nat.succ_ne_zero i), if_neg (Nat.succ_ne_zero j)]
  omega

/-- The messages of a session that carry the frames. -/
def messagesOf (s : Nat) (raws : List Bytes) : List Message :=
  raws.mapIdx fun k raw => message s (messageIdAt (k + 1)) raw

theorem messagesOf_snoc (s : Nat) (raws : List Bytes) (raw : Bytes) :
    messagesOf s (raws ++ [raw]) = messagesOf s raws ++ [message s (messageIdAt (raws.length + 1)) raw] := by
  simp [messagesOf, List.mapIdx_append]

theorem map_snd_messagesOf (s : Nat) (raws : List Bytes) : (messagesOf s raws).map Prod.snd = raws := by
  apply List.ext_getElem?
  intro i
  rw [messagesOf, List.getElem?_map, List.getElem?_mapIdx]
  cases raws[i]? <;> rfl

theorem mem_messagesOf {s : Nat} {raws : List Bytes} {m : Message} (h : m ∈ messagesOf s raws) :
    ∃ k, ∃ raw ∈ raws, m = message s (messageIdAt (k + 1)) raw := by
  obtain ⟨k, hk, rfl⟩ := List.mem_mapIdx.mp h
  exact ⟨k, raws[k], List.getElem_mem hk, rfl⟩

/-- A key is not that of any of the 64 messages before. -/
theorem key_fresh {s : Nat} {raws : List Bytes} {sent rest : List Message} {m : Message}
    (h : messagesOf s raws = sent ++ m :: rest) : m.1 ∉ (sent.map Prod.fst).drop (sent.length - 64) := by
  have hat : ∀ i m', (sent ++ m :: rest)[i]? = some m' → m'.1 = ((s : Int), (messageIdAt (i + 1) : Int)) := by
    intro i m' hi
    rw [← h, messagesOf, List.getElem?_mapIdx, Option.map_eq_some_iff] at hi
    obtain ⟨raw, -, rfl⟩ := hi
    rfl
  intro hmem
  obtain ⟨i, hi⟩ := List.mem_iff_getElem?.mp hmem
  rw [List.getElem?_drop, List.getElem?_map, Option.map_eq_some_iff] at hi
  obtain ⟨m', hm', hkey⟩ := hi
  have hlt : sent.length - 64 + i < sent.length := (List.getElem?_eq_some_iff.mp hm').1
  have hfirst := hat _ m' (by rw [List.getElem?_append_left hlt]; exact hm')
  have hsecond := hat sent.length m (by rw [List.getElem?_append_right (Nat.le_refl _), Nat.sub_self]; rfl)
  rw [hkey, hsecond, Prod.mk.injEq] at hfirst
  exact messageIdAt_ne hlt (by omega) (Int.ofNat.inj hfirst.2.symm)

/-! ## The fragments that are seen -/

/-- The frames in payloads seen at some times. -/
def framesSeen (seen : List (Bytes × ℚ)) : List (Frame × ℚ) :=
  seen.filterMap fun a => (decode a.1).toOption.map fun f => (f, a.2)

/-- Fragments of one message that follow each other are seen within less than 0.6 s. -/
def SeenPromptly (seen : List (Frame × ℚ)) : Prop :=
  ∀ A a M b B, seen = A ++ a :: (M ++ b :: B) → (∀ c ∈ M ++ [b], keyOf c.1 = keyOf a.1) → b.2 - a.2 < reassemblyTimeoutS

theorem framesSeen_cons {payload : Bytes} {f : Frame} (h : decode payload = .ok f) (now : ℚ) (seen : List (Bytes × ℚ)) :
    framesSeen ((payload, now) :: seen) = (f, now) :: framesSeen seen := by
  simp [framesSeen, h, Except.toOption]

theorem framesSeen_append (seen seen' : List (Bytes × ℚ)) :
    framesSeen (seen ++ seen') = framesSeen seen ++ framesSeen seen' := List.filterMap_append

theorem map_erase_framesSeen (seen : List (Bytes × ℚ)) :
    (framesSeen seen).map (fun a => erase a.1) = framesOf (seen.map Prod.fst) := by
  rw [framesSeen, framesOf, List.filterMap_map, List.map_filterMap]
  congr 1
  funext a
  cases h : (decode a.1).toOption <;> simp [h]

/-! ## What the reassembler keeps -/

section Relay

variable {ms : List Message} {published : List Bytes} {future : List (Frame × ℚ)} {r : Reassembler} {f : Frame} {now : ℚ}

/-- The assemblies when `n` fragments of the first of the messages have been added. -/
def held (rest : List Message) (t₀ : ℚ) (n : Nat) : List (Key × Assembly) :=
  match rest with
  | [] => []
  | m :: _ => Reassembler.underway m.1 m.2 t₀ n

/-- The messages `sent` have been given out, and of the first of the `rest` the fragments `past`. -/
structure RelayAt (sent rest : List Message) (done : List (Key × ℚ)) (past : List (Frame × ℚ)) (t₀ : ℚ)
    (future : List (Frame × ℚ)) (r : Reassembler) : Prop where
  keys : done.map Prod.fst = sent.map Prod.fst
  frames : (past ++ future).map (fun a => erase a.1) = rest.flatMap fragmentsOf
  state : Reassembler.InOrder done (held rest t₀ past.length) r
  proper : ∀ m ∈ rest.head?, past.length < fragmentCount m.2.length
  first : ∀ a ∈ past.head?, a.2 = t₀
  prompt : SeenPromptly (past ++ future)
  clock : ((past ++ future).map Prod.snd).Pairwise (· ≤ ·)
  blocks : ∀ q ∈ done, ∀ a ∈ past ++ future, q.2 ≤ Shelf.blockUntil a.2

/-- The frames of some of the messages have been published, and the fragments of the others are to come. -/
def Relay (ms : List Message) (published : List Bytes) (future : List (Frame × ℚ)) (r : Reassembler) : Prop :=
  ∃ sent rest done past t₀, ms = sent ++ rest ∧ published = sent.map Prod.snd ∧ RelayAt sent rest done past t₀ future r

variable {sent rest : List Message} {done : List (Key × ℚ)} {past : List (Frame × ℚ)} {t₀ : ℚ} {m : Message}

theorem length_fragmentsOf (m : Message) : (fragmentsOf m).length = fragmentCount m.2.length := by
  simp [fragmentsOf, pieces]

theorem fragmentCount_pos (h : validRtcm3 m.2 = true) : 0 < fragmentCount m.2.length := by
  have hlength := le_length_of_validRtcm3 h
  simp only [fragmentCount, rtcmFragmentDataSize]
  omega

/-- The next fragment is the next one of the message. -/
theorem RelayAt.next (h : RelayAt sent (m :: rest) done past t₀ ((f, now) :: future) r) :
    f = piece m.2 m.1.1 m.1.2 f.sourceAgeMs past.length := by
  have hproper : past.length < fragmentCount m.2.length := h.proper m rfl
  have hframes := congrArg (fun l => l[past.length]?) h.frames
  simp only [List.map_append, List.map_cons, List.flatMap_cons] at hframes
  rw [List.getElem?_append_right (by simp), List.length_map, Nat.sub_self,
    List.getElem?_append_left (by rw [length_fragmentsOf]; exact hproper)] at hframes
  simp only [fragmentsOf, pieces, List.getElem?_map, List.getElem?_range hproper, Option.map_some,
    List.getElem?_cons_zero, Option.some.injEq] at hframes
  exact congrArg (fun g : Frame => { g with sourceAgeMs := f.sourceAgeMs }) hframes

/-- The fragments of the message that have been added are older than the next by less than 0.6 s. -/
theorem RelayAt.young (h : RelayAt sent (m :: rest) done past t₀ ((f, now) :: future) r) (hpast : past.length ≠ 0) :
    now - t₀ < reassemblyTimeoutS := by
  obtain ⟨a, past', rfl⟩ := List.exists_cons_of_ne_nil (l := past) (fun hnil => hpast (by rw [hnil]; rfl))
  have hkeys : ∀ c ∈ (a :: past') ++ [(f, now)], keyOf c.1 = m.1 := by
    have hproper : past'.length + 1 < fragmentCount m.2.length := h.proper m rfl
    have hframes := congrArg (List.take (past'.length + 2)) h.frames
    rw [List.flatMap_cons, List.take_append_of_le_length (by rw [length_fragmentsOf]; omega), ← List.map_take] at hframes
    have htake : ((a :: past') ++ (f, now) :: future).take (past'.length + 2) = (a :: past') ++ [(f, now)] := by
      rw [List.append_cons, List.take_append_of_le_length (by simp), List.take_of_length_le (by simp)]
    rw [htake] at hframes
    intro c hc
    have hmem : erase c.1 ∈ (fragmentsOf m).take (past'.length + 2) := by
      rw [← hframes]
      exact List.mem_map_of_mem (f := fun a : Frame × ℚ => erase a.1) hc
    obtain ⟨index, -, hpiece⟩ := mem_fragmentsOf.mp (List.mem_of_mem_take hmem)
    have hkey : keyOf (erase c.1) = m.1 := by
      rw [hpiece]
      rfl
    exact hkey
  have hprompt := h.prompt [] a past' (f, now) future rfl fun c hc => by
    rw [hkeys c (List.mem_cons_of_mem _ hc), hkeys a List.mem_cons_self]
  rw [← h.first a rfl]
  exact hprompt

/-- What `add` answers to the next fragment, and what it keeps. -/
theorem Relay.add (h : Relay ms published ((f, now) :: future) r) (hvalid : ∀ m ∈ ms, validRtcm3 m.2 = true)
    (hkeys : ∀ sent m rest, ms = sent ++ m :: rest → m.1 ∉ (sent.map Prod.fst).drop (sent.length - 64))
    (hage : f.sourceAgeMs < rtcmTransportTtlMs) :
    f.typ = rtcmFragment ∧ ∃ answer, (r.add f now).1 = .ok answer ∧
      Relay ms (published ++ RobotService.returned (.ok answer)) future (r.add f now).2 := by
  obtain ⟨sent, rest, done, past, t₀, rfl, rfl, h⟩ := h
  cases rest with
  | nil =>
    have hframes := h.frames
    simp at hframes
  | cons m rest =>
    have hm := hvalid m (List.mem_append_right _ List.mem_cons_self)
    have hnext := h.next
    have hn : past.length < fragmentCount m.2.length := h.proper m rfl
    have hlength : done.length = sent.length := by simpa using congrArg List.length h.keys
    have hkey : (m.1.1, m.1.2) ∉ (done.map Prod.fst).drop (done.length - 64) := by
      rw [h.keys, hlength]
      exact hkeys sent m rest rfl
    generalize ht : (if past.length = 0 then now else t₀) = t₁
    have hfirst : ∀ a ∈ (past ++ [(f, now)]).head?, a.2 = t₁ := by
      intro a ha
      cases past with
      | nil =>
        obtain rfl : (f, now) = a := Option.some.inj ha
        exact ht
      | cons a' past =>
        exact (h.first a ha).trans ht
    have hmember : ∃ a ∈ past ++ [(f, now)], a.2 = t₁ := by
      obtain ⟨a, ha⟩ : ∃ a, (past ++ [(f, now)]).head? = some a := by cases past <;> simp
      exact ⟨a, List.mem_of_head? ha, hfirst a ha⟩
    have hblocks : ∀ q ∈ done, q.2 ≤ Shelf.blockUntil t₁ := by
      obtain ⟨a, ha, rfl⟩ := hmember
      intro q hq
      exact h.blocks q hq a (by rw [List.append_cons]; exact List.mem_append_left _ ha)
    have hadd := h.state.add hm hn hage h.young hkey (by rw [ht]; exact hblocks)
    rw [ht] at hadd
    have hfuture : past ++ (f, now) :: future = (past ++ [(f, now)]) ++ future := List.append_cons _ _ _
    refine ⟨by rw [hnext]; rfl, ?_⟩
    rw [hnext]
    rcases hadd with ⟨hmore, hanswer, hstate⟩ | ⟨hlast, hanswer, hstate⟩
    · refine ⟨none, hanswer, sent, m :: rest, done, past ++ [(f, now)], t₁, rfl, ?_, ?_⟩
      · exact List.append_nil _
      · refine ⟨h.keys, ?_, ?_, ?_, hfirst, ?_, ?_, ?_⟩
        · rw [← hfuture]
          exact h.frames
        · rw [List.length_append, List.length_singleton]
          exact hstate
        · intro m' hm'
          obtain rfl : m = m' := Option.some.inj hm'
          rw [List.length_append, List.length_singleton]
          exact hmore
        · rw [← hfuture]
          exact h.prompt
        · rw [← hfuture]
          exact h.clock
        · rw [← hfuture]
          exact h.blocks
    · have hclock := h.clock
      rw [hfuture, List.map_append, List.pairwise_append] at hclock
      have hlater : ∀ a ∈ future, t₁ ≤ a.2 := by
        obtain ⟨a, ha, rfl⟩ := hmember
        intro b hb
        exact hclock.2.2 _ (List.mem_map_of_mem ha) _ (List.mem_map_of_mem hb)
      refine ⟨some m.2, hanswer, sent ++ [m], rest, done ++ [((m.1.1, m.1.2), Shelf.blockUntil t₁)], [], t₁, ?_, ?_, ?_⟩
      · rw [List.append_assoc]
        rfl
      · rw [List.map_append]
        rfl
      · refine ⟨?_, ?_, ?_, ?_, ?_, ?_, ?_, ?_⟩
        · rw [List.map_append, List.map_append, h.keys]
          rfl
        · have hframes := h.frames
          rw [hfuture, List.map_append, List.flatMap_cons] at hframes
          have hcount : ((past ++ [(f, now)]).map fun a => erase a.1).length = (fragmentsOf m).length := by
            rw [List.length_map, List.length_append, List.length_singleton, length_fragmentsOf]
            exact hlast
          exact (List.append_inj hframes hcount).2
        · have hnone : held rest t₁ 0 = [] := by
            unfold held
            split
            · rfl
            · rfl
          rw [List.length_nil, hnone]
          exact hstate
        · intro m' hm'
          refine fragmentCount_pos (hvalid m' ?_)
          exact List.mem_append_right _ (List.mem_cons_of_mem _ (List.mem_of_head? hm'))
        · intro a ha
          cases ha
        · intro A a M b B hcut
          refine h.prompt (past ++ [(f, now)] ++ A) a M b B ?_
          rw [hfuture, List.append_assoc (past ++ [(f, now)]) A, ← hcut]
          rfl
        · exact hclock.2.1
        · intro q hq a ha
          rcases List.mem_append.mp hq with hq | hq
          · exact h.blocks q hq a (by rw [hfuture]; exact List.mem_append_right _ ha)
          · rw [List.mem_singleton.mp hq]
            have hle := hlater a ha
            unfold Shelf.blockUntil
            linarith

/-- Nothing is lost when the time is not past the next fragment. -/
theorem Relay.expire (h : Relay ms published future r) (hnow : ∀ a ∈ future, now ≤ a.2) :
    Relay ms published future (r.expire now).2 := by
  obtain ⟨sent, rest, done, past, t₀, rfl, rfl, h⟩ := h
  refine ⟨sent, rest, done, past, t₀, rfl, rfl, { h with state := h.state.expire fun q hq => ?_ }⟩
  cases rest with
  | nil => cases hq
  | cons m rest =>
    have hn : past.length < fragmentCount m.2.length := h.proper m rfl
    simp only [held, Reassembler.underway] at hq
    split at hq
    · cases hq
    · rename_i hpast
      rw [List.mem_singleton.mp hq]
      cases future with
      | nil =>
        have hframes := congrArg List.length h.frames
        rw [List.append_nil, List.length_map, List.flatMap_cons, List.length_append, length_fragmentsOf] at hframes
        omega
      | cons a future =>
        have hyoung := h.young hpast
        have hle := hnow a List.mem_cons_self
        show now - t₀ < _
        linarith

/-- All messages have been given out when none of their fragments is to come. -/
theorem Relay.all (h : Relay ms published [] r) : published = ms.map Prod.snd := by
  obtain ⟨sent, rest, done, past, t₀, rfl, rfl, h⟩ := h
  cases rest with
  | nil => rw [List.append_nil]
  | cons m rest =>
    have hn : past.length < fragmentCount m.2.length := h.proper m rfl
    have hframes := congrArg List.length h.frames
    rw [List.append_nil, List.length_map, List.flatMap_cons, List.length_append, length_fragmentsOf] at hframes
    omega

/-- Nothing has gone wrong in the reassembler. -/
theorem Relay.counts (h : Relay ms published future r) :
    r.timeoutCount = 0 ∧ r.conflictCount = 0 ∧ r.evictionCount = 0 ∧ r.duplicateCount = 0 := by
  obtain ⟨sent, rest, done, past, t₀, -, -, h⟩ := h
  exact ⟨h.state.timeouts, h.state.conflicts, h.state.evictions, h.state.duplicates⟩

end Relay

/-! ## The run of the robot -/

/-- The metrics of the robot that count losses. -/
def RobotMetric.Loses : RobotMetric → Prop
  | .applicationDecodeFailures | .applicationNonRtcmFrames | .rtcmFragmentsRejected | .rtcmReassemblyTimeouts
  | .rtcmReassemblyConflicts => True
  | _ => False

/-- What raises during a step, if not the reassembler. -/
def RobotEvent.Fails : RobotEvent → Prop
  | .raised e => e ≠ .keyError
  | _ => False

instance : DecidablePred RobotEvent.Fails
  | .raised e => inferInstanceAs (Decidable (e ≠ .keyError))
  | .received _ | .published _ => isFalse id

/-- The messages can be told apart, and carry valid frames. -/
structure Deliverable (ms : List Message) : Prop where
  valid : ∀ m ∈ ms, validRtcm3 m.2 = true
  keys : ∀ sent m rest, ms = sent ++ m :: rest → m.1 ∉ (sent.map Prod.fst).drop (sent.length - 64)

namespace RobotService

variable {T E : Type} {ms : List Message} {H : List RobotEvent} {future : List (Frame × ℚ)} {payload : Bytes} {f : Frame}
  {now : ℚ}

/-- The payloads that have been seen, each with the time of its step. -/
def seenIn (moves : List (Move (RobotService T) (Input E))) : List (Bytes × ℚ) :=
  outputs (fun x => (receivedIn x.after.log).map fun payload => (payload, x.input.now)) moves

/-- The robot has published frames of the messages, and counted no loss. -/
structure Follows (ms : List Message) (H : List RobotEvent) (future : List (Frame × ℚ)) (r : RobotService T) : Prop where
  relay : Relay ms (publishedIn (H ++ r.log)) future r.reassembler
  metrics : ∀ name : RobotMetric, name.Loses → r.metrics name = 0

/-- The program returns to a state with `Q`, or the transport or the output has raised something. -/
def Unharmed {α : Type} (Q : RobotService T → Prop) : Except RobotFailure α → RobotService T → Prop
  | .ok _, r => Q r
  | .error e, _ => e ≠ .keyError

/-- Counting something else counts no loss. -/
theorem loses_add {name : RobotMetric} (hname : ¬ name.Loses) (amount : Int) {m : Metrics RobotMetric}
    (h : ∀ name : RobotMetric, name.Loses → m name = 0) :
    ∀ name' : RobotMetric, name'.Loses → m.add name amount name' = 0 := by
  intro name' hloses
  have hne : name' ≠ name := by
    rintro rfl
    exact hname hloses
  rw [Metrics.add_apply, if_neg hne]
  exact h name' hloses

theorem follows_add {name : RobotMetric} (hname : ¬ name.Loses) (amount : Nat) :
    Triple (Follows ms H future) (add name amount : Op T Unit) (Returns fun _ => Follows ms H future) :=
  fun _ h => ⟨h.relay, loses_add hname amount h.metrics⟩

theorem publish_follows (raw : Bytes) :
    Triple (fun r => Relay ms (publishedIn (H ++ r.log) ++ [raw]) future r.reassembler ∧
    ∀ name : RobotMetric, name.Loses → r.metrics name = 0) (publish raw : Op T Nat) (Unharmed (Follows ms H future)) := by
  have hnote : ∀ r : RobotService T, (Relay ms (publishedIn (H ++ r.log) ++ [raw]) future r.reassembler ∧
      ∀ name : RobotMetric, name.Loses → r.metrics name = 0) →
      Follows ms H future { r with log := r.log ++ [.published raw] } := by
    rintro r ⟨hrelay, hmetrics⟩
    refine ⟨?_, hmetrics⟩
    rw [← List.append_assoc, publishedIn_append]
    exact hrelay
  refine (Triple.modify hnote).seq fun _ => Triple.get_bind fun r _ => ?_
  refine (Triple.modify (R := Follows ms H future) fun r h => { h with }).seq fun _ => ?_
  split
  · exact fun r h => h
  · exact fun r h => RobotFailure.noConfusion

/-- The next fragment is taken. -/
theorem receive_follows (hms : Deliverable ms) (hdecode : decode payload = .ok f)
    (hage : f.sourceAgeMs < rtcmTransportTtlMs) :
    Triple (Follows ms H ((f, now) :: future)) (receive now payload : Op T Unit) (Unharmed (Follows ms H future)) := by
  intro r h
  obtain ⟨htyp, answer, hanswer, hrelay⟩ := h.relay.add hms.valid hms.keys hage
  let Taken : RobotService T → Prop := fun t =>
    Relay ms (publishedIn (H ++ t.log) ++ returned (.ok answer)) future t.reassembler ∧
      ∀ name : RobotMetric, name.Loses → t.metrics name = 0
  have hreassemble : Triple (fun t => t = r) (reassemble f now : Op T (Except Raised (Option Bytes)))
      (Returns fun result t => result = .ok answer ∧ Taken t) := by
    rintro t rfl
    exact ⟨hanswer, hrelay, h.metrics⟩
  have htake : Triple (fun t => t = r) (receive now payload : Op T Unit) (Unharmed (Follows ms H future)) := by
    unfold receive
    simp only [hdecode]
    rw [if_neg (not_not.mpr htyp)]
    refine hreassemble.seq fun result => Triple.assume fun hresult => ?_
    rw [hresult]
    have hcount : ∀ name : RobotMetric, ¬ name.Loses → ∀ amount, Triple Taken (add name amount : Op T Unit)
        (Returns fun _ => Taken) := fun name hname amount t ht => ⟨ht.1, loses_add hname amount ht.2⟩
    cases answer with
    | none =>
      refine (hcount .rtcmFragmentsAccepted id 1).weaken (fun t ht => ht) fun result t ht => ?_
      cases result with
      | ok u =>
        obtain ⟨hrelay', hmetrics⟩ := ht
        rw [show returned (.ok none) = [] from rfl, List.append_nil] at hrelay'
        exact ⟨hrelay', hmetrics⟩
      | error e => exact ht.elim
    | some raw =>
      refine (hcount .rtcmFragmentsAccepted id 1).seq fun _ => (hcount .rtcmFramesCompleted id 1).seq fun _ =>
        (hcount .rtcmFramesDelivered id 1).seq fun _ => (hcount .rtcmOutputBytes id _).seq fun _ => ?_
      refine (publish_follows raw).bind (fun delivered => ?_) fun e t ht => ht
      have hdelivered : Triple (Follows ms H future) (add .rtcmTcpClientsDelivered delivered : Op T Unit)
          (Returns fun _ => Follows ms H future) := follows_add id delivered
      refine hdelivered.weaken (fun t ht => ht) fun result t ht => ?_
      cases result with
      | ok u => exact ht
      | error e => exact ht.elim
  exact htake r rfl

/-- All payloads of a step are taken. -/
theorem receiveAll_follows (hms : Deliverable ms) (now : ℚ) (payloads : List Bytes)
    (hdecode : ∀ payload ∈ payloads, ∃ f, decode payload = .ok f ∧ f.sourceAgeMs < rtcmTransportTtlMs) :
    Triple (Follows ms H (framesSeen (payloads.map fun payload => (payload, now)) ++ future))
      (forEach (receive now) payloads : Op T Unit) (Unharmed (Follows ms H future)) := by
  induction payloads with
  | nil => exact fun r h => h
  | cons payload payloads ih =>
    obtain ⟨f, hf, hage⟩ := hdecode payload List.mem_cons_self
    rw [List.map_cons, framesSeen_cons hf, List.cons_append]
    exact (receive_follows hms hf hage).bind (fun _ => ih fun p hp => hdecode p (List.mem_cons_of_mem _ hp))
      fun e r h => h

/-- Acting on payloads receives no more of them. -/
theorem received_receiveAll (now : ℚ) (R payloads : List Bytes) : Triple (fun r => receivedIn r.log = R)
    (forEach (receive now) payloads : Op T Unit) (fun _ r => receivedIn r.log = R) := by
  induction payloads with
  | nil => exact fun r h => h
  | cons payload payloads ih =>
    have hI : Relays fun _ _ _ => True := ⟨fun _ _ => trivial, fun _ _ _ => trivial, fun _ => trivial⟩
    have hspec : Triple (Relayed (fun _ _ _ => True) [] [] R) (receive now payload : Op T Unit)
        (fun _ => Relayed (fun _ _ _ => True) [] [payload] R) := receive_spec hI now payload
    have hone : Triple (fun r => receivedIn r.log = R) (receive now payload : Op T Unit)
        (fun _ r => receivedIn r.log = R) :=
      hspec.weaken (fun r h => ⟨h, trivial⟩) fun _ r h => h.received
    exact hone.bind (fun _ => ih) fun e r h => h

variable [Transport T E]

/-- A step takes all payloads that its `tick` has returned. -/
theorem step_received {io : E} {payloads : List Bytes} {t' : T} {r : RobotService T}
    (htick : Transport.tick io true r.transport = (.ok payloads, t')) (hlog : r.log = []) (now : ℚ) :
    receivedIn (step io now r).2.log = payloads := by
  have hcall : Triple (fun t => t = r) (ofTransport (Transport.tick io true) : Op T (List Bytes))
      (Returns fun ps t => ps = payloads ∧ t.log = []) := by
    rintro t rfl
    unfold ofTransport
    rw [htick]
    exact ⟨rfl, hlog⟩
  have hall : Triple (fun t => t = r) (step io now : Op T Unit) (fun _ t => receivedIn t.log = payloads) := by
    refine hcall.seq fun ps => Triple.assume fun hps => ?_
    subst hps
    have hnote : ∀ t : RobotService T, t.log = [] → receivedIn (t.log ++ [.received ps]) = ps := by
      intro t ht
      rw [ht]
      exact List.append_nil ps
    refine (Triple.modify (R := fun t : RobotService T => receivedIn t.log = ps) hnote).seq fun _ => ?_
    refine (received_receiveAll now ps ps).bind (fun _ => ?_) fun e t h => h
    have hexpire : ∀ t : RobotService T, receivedIn t.log = ps →
        receivedIn ({ t with reassembler := (t.reassembler.expire now).2 } : RobotService T).log = ps := fun t h => h
    refine (Triple.modify (R := fun t : RobotService T => receivedIn t.log = ps) hexpire).seq fun _ => ?_
    have hflush : Triple (fun t => receivedIn t.log = ps) (flush : Op T Unit) (fun _ t => receivedIn t.log = ps) := by
      refine Triple.get_bind fun t _ => ?_
      split
      · exact fun t h => h
      · exact fun t h => h
    exact hflush.bind (fun _ t h => h) fun e t h => h
  exact hall r rfl

/-- A `tick` that raises ends the step. -/
theorem step_raises {io : E} {e : Exn} {t' : T} {r : RobotService T}
    (htick : Transport.tick io true r.transport = (.error e, t')) (now : ℚ) :
    (step io now r).1 = .error (.transport e) := by
  have hcall : Triple (fun t => t = r) (ofTransport (Transport.tick io true) : Op T (List Bytes))
      (fun result _ => result = .error (.transport e)) := by
    rintro t rfl
    unfold ofTransport
    rw [htick]
  have hall : Triple (fun t => t = r) (step io now : Op T Unit) (fun result _ => result = .error (.transport e)) := by
    refine hcall.bind (fun ps t h => ?_) fun e' t h => ?_
    · cases h
    · obtain rfl : e' = .transport e := Except.error.inj h
      rfl
  exact hall r rfl

/-- A step takes the fragments that come during it. -/
theorem step_follows (hms : Deliverable ms) {io : E} {payloads : List Bytes} {t' : T} {r : RobotService T}
    (htick : Transport.tick io true r.transport = (.ok payloads, t')) (hlog : r.log = []) (now : ℚ)
    (hdecode : ∀ payload ∈ payloads, ∃ f, decode payload = .ok f ∧ f.sourceAgeMs < rtcmTransportTtlMs)
    (h : Follows ms H (framesSeen (payloads.map fun payload => (payload, now)) ++ future) r)
    (hnow : ∀ a ∈ future, now ≤ a.2) : Unharmed (Follows ms H future) (step io now r).1 (step io now r).2 := by
  let Start : RobotService T → Prop := Follows ms H (framesSeen (payloads.map fun payload => (payload, now)) ++ future)
  have hcall : Triple (fun t => t = r) (ofTransport (Transport.tick io true) : Op T (List Bytes))
      (Returns fun ps t => ps = payloads ∧ Start t) := by
    rintro t rfl
    unfold ofTransport
    rw [htick]
    exact ⟨rfl, { h with }⟩
  have hall : Triple (fun t => t = r) (step io now : Op T Unit) (Unharmed (Follows ms H future)) := by
    refine hcall.seq fun ps => Triple.assume fun hps => ?_
    subst hps
    have hnote : ∀ t : RobotService T, Start t → Start { t with log := t.log ++ [.received ps] } := by
      intro t ht
      refine ⟨?_, ht.metrics⟩
      rw [← List.append_assoc, publishedIn_append]
      show Relay ms (publishedIn (H ++ t.log) ++ []) _ _
      rw [List.append_nil]
      exact ht.relay
    refine (Triple.modify hnote).seq fun _ => ?_
    refine (receiveAll_follows hms now ps hdecode).bind (fun _ => ?_) fun e t h => h
    have hexpire : ∀ t : RobotService T, Follows ms H future t →
        Follows ms H future { t with reassembler := (t.reassembler.expire now).2 } :=
          fun t ht => ⟨ht.relay.expire hnow, ht.metrics⟩
    refine (Triple.modify hexpire).seq fun _ => ?_
    have hflush : Triple (Follows ms H future) (flush : Op T Unit) (Unharmed (Follows ms H future)) := by
      refine Triple.get_bind fun t _ => ?_
      split
      · exact fun t h => h
      · exact fun t h => RobotFailure.noConfusion
    refine hflush.bind (fun _ => ?_) fun e t h => h
    intro t ht
    obtain ⟨htimeouts, hconflicts, -⟩ := ht.relay.counts
    refine ⟨ht.relay, fun name hloses => ?_⟩
    show ((t.metrics.set .rtcmReassemblyTimeouts t.reassembler.timeoutCount).set .rtcmReassemblyConflicts
      t.reassembler.conflictCount) name = 0
    rw [Metrics.set_apply, Metrics.set_apply, htimeouts, hconflicts, ht.metrics name hloses]
    simp
  exact hall r rfl

/-- A step during which the transport and the output raise nothing. -/
theorem next_follows (hms : Deliverable ms) (i : Input E) {r : RobotService T}
    (hcalm : ∀ e ∈ (next i r).log, ¬ RobotEvent.Fails e)
    (hdecode : ∀ payload ∈ receivedIn (next i r).log, ∃ f, decode payload = .ok f ∧ f.sourceAgeMs < rtcmTransportTtlMs)
    (hrelay : Relay ms (publishedIn H)
      (framesSeen ((receivedIn (next i r).log).map fun payload => (payload, i.now)) ++ future) r.reassembler)
    (hmetrics : ∀ name : RobotMetric, name.Loses → r.metrics name = 0) (hnow : ∀ a ∈ future, i.now ≤ a.2) :
    Follows ms H future (next i r) := by
  unfold next at hcalm hdecode hrelay ⊢
  generalize hr₀ : ({ r with output := i.output, log := [] } : RobotService T) = r₀ at hcalm hdecode hrelay ⊢
  have hlog : r₀.log = [] := by rw [← hr₀]
  rcases htick : Transport.tick i.io true r₀.transport with ⟨e | payloads, t'⟩
  · have hstep := step_raises htick i.now
    rcases hres : step i.io i.now r₀ with ⟨result, r'⟩
    rw [hres] at hstep hcalm
    obtain rfl : result = .error (.transport e) := hstep
    exact absurd RobotFailure.noConfusion
      (hcalm (.raised (.transport e)) (List.mem_append_right _ (List.mem_singleton.mpr rfl)))
  · have hreceived := step_received htick hlog i.now
    have hstep := fun hdecode h => step_follows (H := H) hms htick hlog i.now hdecode h hnow
    rcases hres : step i.io i.now r₀ with ⟨result, r'⟩
    rw [hres] at hreceived hstep hcalm hdecode hrelay
    cases result with
    | ok u =>
      simp only at hreceived hdecode hrelay
      rw [hreceived] at hdecode hrelay
      refine hstep hdecode ⟨?_, ?_⟩
      · rw [hlog, List.append_nil, ← hr₀]
        exact hrelay
      · rw [← hr₀]
        exact hmetrics
    | error e =>
      have hlast : receivedIn (r'.log ++ [.raised e]) = receivedIn r'.log := by
        rw [receivedIn_append]
        exact List.append_nil _
      have hkey : e = .keyError := by
        by_contra hne
        exact hcalm (.raised e) (List.mem_append_right _ (List.mem_singleton.mpr rfl)) hne
      simp only [hlast] at hreceived hdecode hrelay
      rw [hreceived] at hdecode hrelay
      refine absurd hkey (hstep hdecode ⟨?_, ?_⟩)
      · rw [hlog, List.append_nil, ← hr₀]
        exact hrelay
      · rw [← hr₀]
        exact hmetrics

/-- Fragments are seen at the times of the steps. -/
theorem mem_seen (js : List (Input E)) : ∀ {r : RobotService T} {a : Frame × ℚ},
    a ∈ framesSeen (seenIn (trace next r js)) → ∃ j ∈ js, a.2 = j.now := by
  induction js with
  | nil =>
    intro r a ha
    cases ha
  | cons j js ih =>
    intro r a ha
    have hcons : framesSeen (seenIn (trace next r (j :: js))) =
        framesSeen ((receivedIn (next j r).log).map fun payload => (payload, j.now)) ++
          framesSeen (seenIn (trace next (next j r) js)) := framesSeen_append _ _
    rw [hcons] at ha
    rcases List.mem_append.mp ha with ha | ha
    · obtain ⟨b, hb, hsome⟩ := List.mem_filterMap.mp ha
      obtain ⟨payload, -, rfl⟩ := List.mem_map.mp hb
      obtain ⟨f, -, rfl⟩ := Option.map_eq_some_iff.mp hsome
      exact ⟨j, List.mem_cons_self, rfl⟩
    · obtain ⟨j', hj', htime⟩ := ih ha
      exact ⟨j', List.mem_cons_of_mem _ hj', htime⟩

/-- **The robot.** If the fragments of the messages are seen in order and promptly, all their frames are published, and no
loss is counted. -/
theorem run_follows (hms : Deliverable ms) (js : List (Input E)) : ∀ {H : List RobotEvent} {r : RobotService T},
    (∀ e ∈ history (trace next r js), ¬ RobotEvent.Fails e) → (js.map Input.now).Pairwise (· ≤ ·) →
    (∀ payload ∈ receivedIn (history (trace next r js)), ∃ f, decode payload = .ok f ∧
      f.sourceAgeMs < rtcmTransportTtlMs) →
    Relay ms (publishedIn H) (framesSeen (seenIn (trace next r js))) r.reassembler →
    (∀ name : RobotMetric, name.Loses → r.metrics name = 0) →
    Relay ms (publishedIn (H ++ history (trace next r js))) [] (run next r js).reassembler ∧
      ∀ name : RobotMetric, name.Loses → (run next r js).metrics name = 0 := by
  induction js with
  | nil =>
    intro H r _ _ _ hrelay hmetrics
    refine ⟨?_, hmetrics⟩
    show Relay ms (publishedIn (H ++ [])) [] r.reassembler
    rw [List.append_nil]
    exact hrelay
  | cons j js ih =>
    intro H r hcalm hclock hdecode hrelay hmetrics
    have hhistory : history (trace next r (j :: js)) = (next j r).log ++ history (trace next (next j r) js) := rfl
    have hseen : framesSeen (seenIn (trace next r (j :: js))) =
        framesSeen ((receivedIn (next j r).log).map fun payload => (payload, j.now)) ++
          framesSeen (seenIn (trace next (next j r) js)) := framesSeen_append _ _
    rw [List.map_cons, List.pairwise_cons] at hclock
    rw [hhistory] at hcalm hdecode ⊢
    rw [hseen] at hrelay
    have hnow : ∀ a ∈ framesSeen (seenIn (trace next (next j r) js)), j.now ≤ a.2 := by
      intro a ha
      obtain ⟨j', hj', htime⟩ := mem_seen js ha
      rw [htime]
      exact hclock.1 _ (List.mem_map_of_mem hj')
    have hnext := next_follows hms j (fun e he => hcalm e (List.mem_append_left _ he))
      (fun p hp => hdecode p (by rw [receivedIn_append]; exact List.mem_append_left _ hp)) hrelay hmetrics hnow
    have hrest := ih (H := H ++ (next j r).log) (fun e he => hcalm e (List.mem_append_right _ he)) hclock.2
      (fun p hp => hdecode p (by rw [receivedIn_append]; exact List.mem_append_right _ hp)) hnext.relay hnext.metrics
    rw [List.append_assoc] at hrest
    exact hrest

end RobotService

end LoraLink.Service
