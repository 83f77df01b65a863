import LoraLink.Service.Abort
import LoraLink.Service.EndToEnd

/-!
# The send discipline of the base service

The base service sends one fragment at a time, and goes on with a message only after a success. The statement is about
the log of a run: what the service sends is compared with the frame that was loaded last.

- `Next`: the payload that may be sent next of a message, after what has happened since it was loaded;
- `Keeps`: what every event keeps, with the outbox;
- `send_discipline`: every run in which a session changes only behind the outcome of an open send is in turn.
-/

namespace LoraLink.Service

open LoraLink.Application LoraLink.Rtcm LoraLink.Host
open scoped List

/-! ## What is read off a log -/

def ingestedFrames (H : List Event) : List RtcmFrame := H.filterMap fun
  | .ingested f => some f
  | _ => none

def loadedFrames (H : List Event) : List RtcmFrame := H.filterMap fun
  | .loaded f _ _ => some f
  | _ => none

def Event.isSent : Event → Bool
  | .sent _ _ => true
  | _ => false

/-- How an event changes the sends without an outcome. -/
def awaitingOn (l : List Nat) : Event → List Nat
  | .sent sequence _ => l ++ [sequence]
  | .settled sequence _ | .unexpected sequence => l.erase sequence
  | _ => l

/-- The sends for which no outcome has been reported. -/
def awaiting (H : List Event) : List Nat := H.foldl awaitingOn []

/-- The event lets the service go on with the message it is sending. -/
def Event.Continues : Event → Prop
  | .reset | .session _ | .expired _ | .loaded _ _ _ => False
  | .settled _ completed => completed = some true
  | _ => True

/-- The fragments are those of one message: the whole frame, in order, under one sender session and one message id. -/
def IsMessage (f : RtcmFrame) (fragments : List Frame) : Prop := ∃ session id : Nat, fragments = pieces f.raw session id

/-- After the events `Y` since the message `fragments` was loaded, `payload` is its next fragment: the number of the sends
since then is its index, and each of them was a success. Only the age in a fragment is set when it is sent. -/
structure Next (fragments : List Frame) (Y : List Event) (payload : Bytes) : Prop where
  continues : ∀ e ∈ Y, e.Continues
  completed : ∀ Y₁ sequence p Y₂, Y = Y₁ ++ .sent sequence p :: Y₂ → .settled sequence (some true) ∈ Y₂
  fragment : ∃ f age, fragments[Y.countP Event.isSent]? = some f ∧ decode payload = .ok { f with sourceAgeMs := age }

/-- The sends of a log: one waits for its outcome at most, the frames are taken in the order in which they were ingested,
and whatever is sent is the next fragment of the message that was loaded last. -/
structure InTurn (H : List Event) : Prop where
  single : ∀ X, X <+: H → (awaiting X).length ≤ 1
  order : loadedFrames H <+ ingestedFrames H
  next : ∀ X sequence payload Z, H = X ++ .sent sequence payload :: Z → awaiting X = [] ∧
    ∃ X₁ f fragments now Y, X = X₁ ++ .loaded f fragments now :: Y ∧ IsMessage f fragments ∧ Next fragments Y payload

/-- What the transport and the caller owe: when the session changes, the outcome of an open send has been reported, and
an exception that escapes while a fragment is handed over ends the run. -/
structure Settling (H : List Event) : Prop where
  session : ∀ X s Y, H = X ++ .session s :: Y → awaiting X = []
  raised : ∀ X f now e Y, H = X ++ .taken f now :: .raised e :: Y → Y = []

variable {H H' : List Event} {o o' : Outbox} {e : Event}

@[simp] theorem ingestedFrames_append (H H' : List Event) :
    ingestedFrames (H ++ H') = ingestedFrames H ++ ingestedFrames H' := List.filterMap_append

@[simp] theorem loadedFrames_append (H H' : List Event) :
    loadedFrames (H ++ H') = loadedFrames H ++ loadedFrames H' := List.filterMap_append

@[simp] theorem awaiting_snoc (H : List Event) (e : Event) : awaiting (H ++ [e]) = awaitingOn (awaiting H) e := by
  rw [awaiting, List.foldl_append]
  rfl

theorem Settling.prefix (h : Settling (H ++ H')) : Settling H := by
  constructor
  · intro X s Y hH
    exact h.session X s (Y ++ H') (by rw [hH, List.append_assoc, List.cons_append])
  · intro X f now e Y hH
    have hnil := h.raised X f now e (Y ++ H') (by rw [hH, List.append_assoc]; rfl)
    exact (List.append_eq_nil_iff.mp hnil).1

/-- An event of a log with one more is the last one, or an earlier one. -/
theorem split_snoc {α : Type} {l X Z : List α} {a b : α} (h : l ++ [b] = X ++ a :: Z) :
    (l = X ∧ b = a ∧ Z = []) ∨ ∃ Z', Z = Z' ++ [b] ∧ l = X ++ a :: Z' := by
  rcases List.eq_nil_or_concat Z with rfl | ⟨Z', c, rfl⟩
  · obtain ⟨hl, hb⟩ := List.append_inj' h rfl
    exact Or.inl ⟨hl, by simpa using hb, rfl⟩
  · rw [List.concat_eq_append, ← List.cons_append, ← List.append_assoc] at h
    obtain ⟨hl, hb⟩ := List.append_inj' h rfl
    obtain rfl : b = c := by simpa using hb
    exact Or.inr ⟨Z', List.concat_eq_append, hl⟩

theorem InTurn.nil : InTurn [] := by
  refine ⟨fun X hX => ?_, List.nil_sublist _, fun X sequence payload Z h => ?_⟩
  · rw [List.prefix_nil.mp hX]
    exact Nat.zero_le _
  · exact absurd h.symm (by simp)

/-- A log in turn, and one event more. -/
theorem InTurn.snoc (h : InTurn H) (hsingle : (awaitingOn (awaiting H) e).length ≤ 1)
    (horder : loadedFrames (H ++ [e]) <+ ingestedFrames (H ++ [e]))
    (hnext : ∀ sequence payload, e = .sent sequence payload → awaiting H = [] ∧
      ∃ X₁ f fragments now Y, H = X₁ ++ .loaded f fragments now :: Y ∧ IsMessage f fragments ∧ Next fragments Y payload) :
    InTurn (H ++ [e]) := by
  refine ⟨fun X hX => ?_, horder, fun X sequence payload Z hH => ?_⟩
  · rcases List.prefix_concat_iff.mp hX with rfl | hX
    · rw [awaiting_snoc]
      exact hsingle
    · exact h.single X hX
  · rcases split_snoc hH with ⟨rfl, rfl, -⟩ | ⟨Z', -, hH'⟩
    · exact hnext _ _ rfl
    · exact h.next X sequence payload Z' hH'

/-- An event that is no send, no load and nobody's outcome. -/
theorem InTurn.pass (h : InTurn H) (hawaiting : awaitingOn (awaiting H) e = awaiting H) (hsent : e.isSent = false)
    (hloaded : loadedFrames [e] = []) : InTurn (H ++ [e]) := by
  refine h.snoc ?_ ?_ fun sequence payload heq => ?_
  · rw [hawaiting]
    exact h.single H (List.prefix_refl H)
  · rw [loadedFrames_append, hloaded, List.append_nil, ingestedFrames_append]
    exact h.order.trans (List.sublist_append_left _ _)
  · rw [heq] at hsent
    cases hsent

/-! ## What the outbox keeps -/

/-- The fragments that wait are the rest of the message that was loaded last. -/
def Waits (H : List Event) (o : Outbox) : Prop :=
  ∃ X f fragments now Y, H = X ++ .loaded f fragments now :: Y ∧ IsMessage f fragments ∧ (∀ e ∈ Y, e.Continues) ∧
    (∀ Y₁ sequence p Y₂, Y = Y₁ ++ .sent sequence p :: Y₂ →
      .settled sequence (some true) ∈ Y₂ ∨ o.inFlight = some sequence) ∧
    o.fragments.map Prod.fst = fragments.drop (Y.countP Event.isSent)

/-- The log is in turn, and the outbox goes with it. -/
structure Keeps (H : List Event) (o : Outbox) : Prop where
  turn : InTurn H
  hand : o.hand = none
  flight : awaiting H = o.inFlight.toList
  queue : loadedFrames H ++ o.queue <+ ingestedFrames H
  waits : o.fragments ≠ [] → Waits H o

/-- An event that does not touch the fragments. -/
theorem Waits.snoc (h : Waits H o) (hcontinues : e.Continues) (hsent : e.isSent = false)
    (hfragments : o'.fragments = o.fragments)
    (hflight : ∀ q, o.inFlight = some q → o'.inFlight = some q ∨ e = .settled q (some true)) : Waits (H ++ [e]) o' := by
  obtain ⟨X, f, fragments, now, Y, rfl, hmessage, hY, hdone, hrest⟩ := h
  refine ⟨X, f, fragments, now, Y ++ [e], by simp, hmessage, ?_, ?_, ?_⟩
  · intro e' he'
    rcases List.mem_append.mp he' with he' | he'
    · exact hY e' he'
    · rw [List.mem_singleton.mp he']
      exact hcontinues
  · intro Y₁ sequence p Y₂ hsplit
    rcases split_snoc hsplit with ⟨-, rfl, -⟩ | ⟨Z, rfl, hold⟩
    · cases hsent
    · rcases hdone Y₁ sequence p Z hold with hmem | hsome
      · exact Or.inl (List.mem_append_left _ hmem)
      · rcases hflight sequence hsome with hsome | rfl
        · exact Or.inr hsome
        · exact Or.inl (List.mem_append_right _ (List.mem_singleton_self _))
  · rw [hfragments, hrest, List.countP_append, List.countP_singleton, hsent]
    rfl

theorem Keeps.snoc (h : Keeps H o) (hhand : o'.hand = none) (hsent : e.isSent = false)
    (hawaiting : awaitingOn (awaiting H) e = o'.inFlight.toList)
    (hqueue : loadedFrames (H ++ [e]) ++ o'.queue <+ ingestedFrames (H ++ [e]))
    (hwaits : o'.fragments ≠ [] → Waits (H ++ [e]) o') : Keeps (H ++ [e]) o' := by
  refine ⟨h.turn.snoc ?_ ?_ ?_, hhand, by rw [awaiting_snoc, hawaiting], hqueue, hwaits⟩
  · rw [hawaiting]
    cases o'.inFlight <;> simp
  · exact (List.sublist_append_left _ _).trans hqueue
  · intro sequence payload heq
    rw [heq] at hsent
    cases hsent

/-- An event that leaves the sends and the fragments alone. -/
theorem Keeps.pass (h : Keeps H o) (hcontinues : e.Continues) (hsent : e.isSent = false)
    (hawaiting : awaitingOn (awaiting H) e = awaiting H) (hhand : o'.hand = none)
    (hflight : o'.inFlight = o.inFlight) (hfragments : o'.fragments = o.fragments)
    (hqueue : loadedFrames (H ++ [e]) ++ o'.queue <+ ingestedFrames (H ++ [e])) : Keeps (H ++ [e]) o' := by
  refine h.snoc hhand hsent ?_ hqueue fun hne => ?_
  · rw [hawaiting, hflight, h.flight]
  · rw [hfragments] at hne
    exact (h.waits hne).snoc hcontinues hsent hfragments fun q hq => Or.inl (hflight.trans hq)

/-- The events of a call, those of the sending apart. -/
def Event.Simple : Event → Prop
  | .taken _ _ | .refused | .sent _ _ | .raised _ => False
  | _ => True

/-- The frames that are left behind in the queue. -/
theorem Keeps.dropped (h : Keeps H o) (hloaded : loadedFrames [e] = []) (hingested : ingestedFrames [e] = []) :
    loadedFrames (H ++ [e]) ++ o.queue.drop 1 <+ ingestedFrames (H ++ [e]) := by
  rw [loadedFrames_append, hloaded, List.append_nil, ingestedFrames_append, hingested, List.append_nil]
  exact ((List.drop_sublist 1 _).append_left _).trans h.queue

theorem Keeps.queue_same (h : Keeps H o) (hloaded : loadedFrames [e] = []) (hingested : ingestedFrames [e] = []) :
    loadedFrames (H ++ [e]) ++ o.queue <+ ingestedFrames (H ++ [e]) := by
  rw [loadedFrames_append, hloaded, List.append_nil, ingestedFrames_append, hingested, List.append_nil]
  exact h.queue

/-- An outcome for another send than the open one. -/
theorem erase_flight {q : Nat} (h : o.inFlight ≠ some q) : o.inFlight.toList.erase q = o.inFlight.toList := by
  refine List.erase_of_not_mem fun hmem => h ?_
  simpa using hmem

/-- Every event that is allowed, but those of the sending. -/
theorem Keeps.on (h : Keeps H o) (he : o.Allowed e) (hsimple : e.Simple)
    (hsession : ∀ s, e = .session s → awaiting H = []) : Keeps (H ++ [e]) (o.on e) := by
  cases e with
  | taken | refused | sent | raised => exact hsimple.elim
  | ingested f =>
    refine h.pass trivial rfl rfl h.hand rfl rfl ?_
    rw [loadedFrames_append, ingestedFrames_append]
    show loadedFrames H ++ [] ++ (o.queue ++ [f]) <+ ingestedFrames H ++ [f]
    rw [List.append_nil, ← List.append_assoc]
    exact h.queue.append_right [f]
  | overflowed | stale => exact h.pass trivial rfl rfl h.hand rfl rfl (h.dropped rfl rfl)
  | unfragmentable f =>
    obtain ⟨hnone, -, -⟩ := he
    exact h.pass trivial rfl rfl h.hand rfl rfl (h.dropped rfl rfl)
  | unexpected q =>
    have hsame : awaitingOn (awaiting H) (.unexpected q) = awaiting H := by
      show (awaiting H).erase q = awaiting H
      rw [h.flight]
      exact erase_flight he
    exact h.pass trivial rfl hsame h.hand rfl rfl (h.queue_same rfl rfl)
  | reset =>
    refine h.snoc h.hand rfl h.flight ?_ fun hne => absurd rfl hne
    have hqueue := h.queue_same (e := .reset) rfl rfl
    exact ((List.nil_sublist _).append_left _).trans hqueue
  | expired now => exact h.snoc h.hand rfl h.flight (h.queue_same rfl rfl) fun hne => absurd rfl hne
  | session s =>
    refine h.snoc h.hand rfl ?_ (h.queue_same rfl rfl) fun hne => absurd rfl hne
    exact hsession s rfl
  | settled q completed =>
    have hflight : o.inFlight = some q := he
    refine h.snoc h.hand rfl ?_ (h.queue_same rfl rfl) fun hne => ?_
    · show (awaiting H).erase q = []
      rw [h.flight, hflight]
      simp
    · have hfragments : (o.on (.settled q completed)).fragments = if completed = some true then o.fragments else [] := rfl
      by_cases hc : completed = some true
      · rw [if_pos hc] at hfragments
        rw [hfragments] at hne
        refine (h.waits hne).snoc hc rfl hfragments fun q' hq' => Or.inr ?_
        rw [hc, Option.some.inj (hflight.symm.trans hq')]
      · rw [if_neg hc] at hfragments
        exact absurd hfragments hne
  | loaded f fragments now =>
    obtain ⟨-, -, hhead, -, hfragment⟩ := he
    obtain ⟨queue, hqueue⟩ := List.head?_eq_some_iff.mp hhead
    refine h.snoc h.hand rfl h.flight ?_ fun _ => ?_
    · have hold := h.queue
      rw [hqueue] at hold
      rw [loadedFrames_append, ingestedFrames_append]
      show loadedFrames H ++ [f] ++ o.queue.drop 1 <+ ingestedFrames H ++ []
      rw [hqueue, List.append_nil, List.append_assoc]
      exact hold
    · obtain ⟨-, hpieces⟩ := fragment_ok hfragment
      refine ⟨H, f, fragments, now, [], rfl, ⟨_, _, hpieces⟩, by simp, by simp, ?_⟩
      simp [Outbox.on, Function.comp_def]

/-- The events of a phase. -/
theorem Keeps.path {L : List Event} (hpath : Outbox.Path o L o') (hsimple : ∀ e ∈ L, e.Simple) (h : Keeps H o)
    (hgood : Settling (H ++ L)) : Keeps (H ++ L) o' := by
  induction hpath with
  | nil => simpa using h
  | @snoc L v e _ he ih =>
    rw [← List.append_assoc] at hgood ⊢
    have hkeeps := ih (fun e he => hsimple e (List.mem_append_left _ he)) hgood.prefix
    refine hkeeps.on he (hsimple e (by simp)) fun s hs => ?_
    rw [hs] at hgood
    exact hgood.session (H ++ L) s [] rfl

/-! ## The sending -/

section Sending

variable {f : Frame} {now : ℚ}

/-- A fragment in hand has left no trace yet. -/
theorem Keeps.taken (h : Keeps H o) : Keeps (H ++ [.taken f now]) o :=
  h.pass trivial rfl rfl h.hand rfl rfl (h.queue_same rfl rfl)

/-- A fragment that comes back from the transport. -/
theorem Keeps.refused (h : Keeps H o) (hpath : Outbox.Path o [.taken f now, .refused] o') :
    Keeps (H ++ [.taken f now, .refused]) o' := by
  obtain ⟨⟨-, -, p, hhead, -, -⟩, htail⟩ := hpath.head
  obtain ⟨-, hend⟩ := htail.head
  obtain rfl : o' = (o.on (.taken f now)).on .refused := hend.foldl
  obtain ⟨rest, hfragments⟩ := List.head?_eq_some_iff.mp hhead
  have hsame : ((o.on (.taken f now)).on .refused).fragments = o.fragments := by simp [Outbox.on, hfragments]
  rw [← List.singleton_append, ← List.append_assoc]
  exact h.taken.pass trivial rfl rfl rfl rfl hsame (h.taken.queue_same rfl rfl)

/-- The fragment that waits first is the next one, once nothing is in flight. -/
theorem Waits.next (h : Waits H o) (hflight : o.inFlight = none) {p : Frame × ℚ} {rest : List (Frame × ℚ)}
    (hfragments : o.fragments = p :: rest) {age : Int} {payload : Bytes}
    (henc : encode { p.1 with sourceAgeMs := age } = .ok payload) :
    ∃ X f fragments now Y, H = X ++ .loaded f fragments now :: Y ∧ IsMessage f fragments ∧ Next fragments Y payload ∧
      rest.map Prod.fst = fragments.drop (Y.countP Event.isSent + 1) := by
  obtain ⟨X, f, fragments, now, Y, hH, hmessage, hY, hdone, hrest⟩ := h
  refine ⟨X, f, fragments, now, Y, hH, hmessage, ?_, ?_⟩
  · rw [hfragments, List.map_cons] at hrest
    have hget : fragments[Y.countP Event.isSent]? = some p.1 := by
      rw [← List.head?_drop, ← hrest]
      rfl
    refine ⟨hY, fun Y₁ sequence q Y₂ hsplit => ?_, p.1, age, hget, decode_encode henc⟩
    rcases hdone Y₁ sequence q Y₂ hsplit with hmem | hsome
    · exact hmem
    · exact absurd (hflight.symm.trans hsome) (by simp)
  · have htail := congrArg List.tail hrest
    rw [hfragments, List.map_cons, List.tail_cons, List.tail_drop] at htail
    exact htail

/-- A fragment that the transport accepts. -/
theorem Keeps.sent (h : Keeps H o) {sequence : Nat} {payload : Bytes}
    (hpath : Outbox.Path o [.taken f now, .sent sequence payload] o') :
    Keeps (H ++ [.taken f now, .sent sequence payload]) o' := by
  obtain ⟨⟨-, hflight, p, hhead, -, -⟩, htail⟩ := hpath.head
  obtain ⟨⟨-, f', age, hhand, henc⟩, hend⟩ := htail.head
  obtain rfl : o' = (o.on (.taken f now)).on (.sent sequence payload) := hend.foldl
  obtain ⟨rest, hfragments⟩ := List.head?_eq_some_iff.mp hhead
  have hp : p.1 = f' := by
    have hsome : (o.on (.taken f now)).hand = some p := hhead
    rw [hsome] at hhand
    exact Option.some.inj hhand
  rw [← hp] at henc
  have hafter : ((o.on (.taken f now)).on (.sent sequence payload)).fragments = rest := by simp [Outbox.on, hfragments]
  have hnone : awaiting (H ++ [.taken f now]) = [] := by rw [h.taken.flight, hflight]; rfl
  have hwaits : Waits (H ++ [.taken f now]) o := h.taken.waits (by simp [hfragments])
  obtain ⟨X, f₀, fragments, now₀, Y, hH, hmessage, hnext, hrest⟩ := hwaits.next hflight hfragments henc
  rw [← List.singleton_append, ← List.append_assoc]
  refine ⟨h.taken.turn.snoc ?_ ?_ ?_, rfl, ?_, h.taken.queue_same rfl rfl, fun _ => ?_⟩
  · rw [hnone]
    exact le_rfl
  · exact (List.sublist_append_left _ _).trans (h.taken.queue_same rfl rfl)
  · intro sequence' payload' heq
    injection heq with hs hp
    rw [← hp]
    exact ⟨hnone, X, f₀, fragments, now₀, Y, hH, hmessage, hnext⟩
  · rw [awaiting_snoc, hnone]
    rfl
  · refine ⟨X, f₀, fragments, now₀, Y ++ [.sent sequence payload], by rw [hH]; simp, hmessage, ?_, ?_, ?_⟩
    · intro e he
      rcases List.mem_append.mp he with he | he
      · exact hnext.continues e he
      · rw [List.mem_singleton.mp he]
        trivial
    · intro Y₁ sequence' q Y₂ hsplit
      rcases split_snoc hsplit with ⟨-, heq, -⟩ | ⟨Z, rfl, hold⟩
      · injection heq with hs
        exact Or.inr (congrArg some hs)
      · exact Or.inl (List.mem_append_left _ (hnext.completed Y₁ sequence' q Z hold))
    · rw [hafter, hrest, List.countP_append]
      rfl

end Sending

/-! ## Calls and runs -/

theorem Event.IsOutcome.simple (h : e.IsOutcome) : e.Simple := by
  cases e with
  | settled | unexpected => trivial
  | _ => exact h.elim

theorem Event.IsIngress.simple (h : e.IsIngress) : e.Simple := by
  cases e with
  | ingested | overflowed => trivial
  | _ => exact h.elim

/-- The phases of a step before the sending. -/
theorem StepShape.simple {now : ℚ} {outcomes session stales load sending : List Event}
    (h : StepShape now outcomes session stales load sending) :
    ∀ e ∈ outcomes ++ session ++ stales ++ load, e.Simple := by
  intro e he
  simp only [List.mem_append] at he
  rcases he with ((he | he) | he) | he
  · exact (h.outcomes e he).simple
  · rcases h.session with rfl | ⟨s, rfl⟩
    · cases he
    · rw [List.mem_singleton.mp he]
      trivial
  · obtain ⟨f, rfl⟩ := h.stales e he
    trivial
  · rcases h.load with rfl | ⟨f, fragments, rfl⟩ | ⟨f, rfl⟩
    · cases he
    · rw [List.mem_singleton.mp he]
      trivial
    · rw [List.mem_singleton.mp he]
      trivial

/-- The sending ends a step. -/
theorem Keeps.sending {now : ℚ} {L : List Event} (hL : Sending now L) (h : Keeps H o) (hpath : Outbox.Path o L o')
    (hgood : Settling (H ++ L)) : Keeps (H ++ L) o' := by
  cases hL with
  | nothing => exact h.path hpath (by simp) hgood
  | expired => exact h.path hpath (by simp [Event.Simple]) hgood
  | refused f => exact h.refused hpath
  | sent f sequence payload => exact h.sent hpath

/-- A call keeps the discipline, and what it keeps besides does not matter if it has lost the fragment in hand. -/
theorem Keeps.call {E : Type} {i : Input E} {L : List Event} (h : Keeps H o) (hpath : Outbox.Path o L o')
    (hlog : BaseService.CallLog i L) (hgood : Settling (H ++ L)) :
    Keeps (H ++ L) o' ∨ (InTurn (H ++ L) ∧ ∃ X f now r, L = X ++ [.taken f now, .raised r]) := by
  cases hlog with
  | ingest hin => exact Or.inl (h.path hpath (fun e he => (hin e he).simple) hgood)
  | resetSource => exact Or.inl (h.path hpath (by simp [Event.Simple]) hgood)
  | step hshape =>
    obtain ⟨v, hfront, hback⟩ := hpath.unappend
    rw [← List.append_assoc] at hgood ⊢
    exact Or.inl ((h.path hfront hshape.simple hgood.prefix).sending hshape.sending hback hgood)
  | raised hcut r =>
    cases hcut with
    | early =>
      obtain rfl : o' = o.on (.raised r) := hpath.foldl
      exact Or.inl (h.pass trivial rfl rfl rfl rfl rfl (h.queue_same rfl rfl))
    | late hshape f =>
      obtain ⟨v, hfront, -⟩ := hpath.unappend
      obtain ⟨u, hbefore, -⟩ := hfront.unappend
      refine Or.inr ⟨?_, _, f, _, r, List.append_assoc _ _ _⟩
      rw [← List.append_assoc, ← List.append_assoc] at hgood ⊢
      exact (h.path hbefore hshape.simple hgood.prefix.prefix).taken.turn.pass rfl rfl rfl

end LoraLink.Service
