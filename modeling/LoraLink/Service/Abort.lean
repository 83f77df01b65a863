import LoraLink.Service.Outbox
import Mathlib.Tactic.Linarith

/-!
# Aborted messages

An outcome that is not a success aborts the message in flight: the step that takes it clears the fragments. The
fragments may by then be those of the next message, which has been loaded while the last fragment of the previous one
was still in flight. `Ledger` numbers the messages of a run in the order in which they are loaded and follows their
fragments.

- `abort_keeps_others_iff`: an abort leaves every other message alone exactly when no message was loaded since the
  fragment in flight was sent, or there are no fragments to clear;
- `abort_takes_next`: a run in which the next message is lost.
-/

namespace LoraLink.Service

open LoraLink.Application LoraLink.Rtcm LoraLink.Host

/-- Which message each fragment belongs to: messages are numbered in the order in which they are loaded. -/
structure Ledger where
  loads : Nat := 0
  fragments : List (Nat × Frame) := []
  hand : Option (Nat × Frame) := none
  flight : Option (Nat × Frame) := none

namespace Ledger

def on (g : Ledger) : Event → Ledger
  | .reset | .expired _ => { g with fragments := [] }
  | .settled _ completed => { g with flight := none, fragments := if completed = some true then g.fragments else [] }
  | .session _ => { g with fragments := [], flight := none }
  | .loaded _ fragments _ => { g with loads := g.loads + 1, fragments := fragments.map fun f => (g.loads, f) }
  | .taken _ _ => { g with fragments := g.fragments.drop 1, hand := g.fragments.head? }
  | .refused => { g with fragments := g.hand.toList ++ g.fragments, hand := none }
  | .sent _ _ => { g with flight := g.hand, hand := none }
  | .raised _ => { g with hand := none }
  | .ingested _ | .overflowed | .unexpected _ | .stale _ _ | .unfragmentable _ => g

end Ledger

/-- The ledger of a log. -/
def ledger (H : List Event) : Ledger := H.foldl Ledger.on {}

def loadedOn (l : Bool) : Event → Bool
  | .loaded _ _ _ => true
  | .sent _ _ => false
  | _ => l

/-- A message was loaded after the last fragment was sent. -/
def loadedSinceSent (H : List Event) : Bool := H.foldl loadedOn false

variable {T E : Type}

/-- The step takes an outcome for the fragment in flight that is not a success, changes no session and returns. -/
def Aborts (x : Move (BaseService T) (Input E)) (now : ℚ) : Prop :=
  (∃ io, x.input = .step io now) ∧
    (∃ sequence completed, x.before.inFlight = some sequence ∧ completed ≠ some true ∧
      .settled sequence completed ∈ x.after.log) ∧
    (∀ s, .session s ∉ x.after.log) ∧ ∀ e, .raised e ∉ x.after.log

/-- A fragment is still there to be sent, or is sent now. -/
def Ledger.Has (g : Ledger) (p : Nat × Frame) : Prop := p ∈ g.fragments ∨ g.flight = some p

/-- What the step leaves of the other messages, with the ledger before and after it: all their fragments, and all
queued frames except those dropped as stale; one may have been loaded. -/
structure Kept (g g' : Ledger) (x : Move (BaseService T) (Input E)) (now : ℚ) : Prop where
  fragments : ∀ p ∈ g.fragments, g.flight.map Prod.fst ≠ some p.1 → g'.Has p
  queue : ∃ stale loaded, x.before.queue = stale ++ loaded ++ x.after.queue ∧
    (∀ f ∈ stale, now - f.receivedAt > 8 / 10) ∧
    ∀ f ∈ loaded, ∀ d ∈ pieces f.raw x.before.session (BaseService.nextMessageId x.before.messageId),
      g'.Has (g.loads, d)

/-- The ledger and the service agree on the fragments. -/
structure Labelled (g : Ledger) (b : BaseService T) : Prop where
  fragments : g.fragments.map Prod.snd = b.fragments.map Prod.fst
  flight : g.flight.isSome = b.inFlight.isSome

/-! ## The ledger of a path -/

/-- The ledger `g` of a log that has led to the outbox `o`; `l` says whether a message was loaded since the last
fragment was sent. -/
structure Entered (g : Ledger) (l : Bool) (o : Outbox) : Prop where
  fragments : g.fragments.map Prod.snd = o.fragments.map Prod.fst
  hand : g.hand.map Prod.snd = o.hand.map Prod.fst
  flight : g.flight.isSome = o.inFlight.isSome
  /-- The fragments are those of the last message loaded. -/
  last : ∀ p ∈ g.fragments, p.1 + 1 = g.loads
  lastHand : ∀ p, g.hand = some p → p.1 + 1 = g.loads
  /-- The one in flight is of that message too unless another was loaded since. -/
  current : ∀ p, g.flight = some p → p.1 < g.loads ∧ (l = false ↔ p.1 + 1 = g.loads)
  valid : ∀ f ∈ o.queue, validRtcm3 f.raw = true

variable {g : Ledger} {l : Bool} {o : Outbox}

theorem Entered.drop (h : Entered g l o) : ∀ f ∈ o.queue.drop 1, validRtcm3 f.raw = true := by
  intro f hf
  exact h.valid f (List.mem_of_mem_drop hf)

theorem Entered.on (h : Entered g l o) {e : Event} (he : o.Allowed e) : Entered (g.on e) (loadedOn l e) (o.on e) := by
  cases e with
  | ingested f =>
    refine { h with valid := ?_ }
    intro f' hf'
    rcases List.mem_append.mp hf' with hf' | hf'
    · exact h.valid f' hf'
    · rw [List.mem_singleton.mp hf']; exact he
  | overflowed => exact { h with valid := h.drop }
  | stale f now => exact { h with valid := h.drop }
  | unfragmentable f => exact { h with valid := h.drop }
  | unexpected q => exact { h with }
  | reset =>
    exact { h with fragments := rfl, last := fun p hp => absurd hp List.not_mem_nil
                   valid := fun f hf => absurd hf List.not_mem_nil }
  | expired now => exact { h with fragments := rfl, last := fun p hp => absurd hp List.not_mem_nil }
  | settled q completed =>
    refine { h with fragments := ?_, flight := rfl, last := ?_, current := fun p hp => by cases hp }
    · show (if completed = some true then g.fragments else []).map Prod.snd =
        (if completed = some true then o.fragments else []).map Prod.fst
      split
      · exact h.fragments
      · rfl
    · intro p hp
      have hp : p ∈ if completed = some true then g.fragments else [] := hp
      split at hp
      · exact h.last p hp
      · exact absurd hp List.not_mem_nil
  | session s =>
    exact { h with fragments := rfl, flight := rfl, last := fun p hp => absurd hp List.not_mem_nil
                   current := fun p hp => by cases hp }
  | loaded f fragments now =>
    obtain ⟨hhand, -, -, -, -⟩ := he
    refine ⟨?_, h.hand, h.flight, ?_, ?_, ?_, h.drop⟩
    · show (fragments.map fun f => (g.loads, f)).map Prod.snd = (fragments.map fun d => (d, f.receivedAt)).map Prod.fst
      simp [Function.comp_def]
    · intro p hp
      obtain ⟨d, -, rfl⟩ := List.mem_map.mp hp
      rfl
    · intro p hp
      have hnone : g.hand = none := Option.map_eq_none_iff.mp (h.hand.trans (by rw [hhand]; rfl))
      exact absurd (hnone.symm.trans hp) (by simp)
    · intro p hp
      obtain ⟨hlt, -⟩ := h.current p hp
      refine ⟨Nat.lt_succ_of_lt hlt, ?_⟩
      show true = false ↔ p.1 + 1 = g.loads + 1
      constructor
      · intro htrue; cases htrue
      · intro heq; omega
  | taken f now =>
    refine ⟨?_, ?_, h.flight, ?_, ?_, h.current, h.valid⟩
    · show (g.fragments.drop 1).map Prod.snd = (o.fragments.drop 1).map Prod.fst
      rw [List.map_drop, List.map_drop, h.fragments]
    · show g.fragments.head?.map Prod.snd = o.fragments.head?.map Prod.fst
      rw [← List.head?_map, ← List.head?_map, h.fragments]
    · intro p hp
      exact h.last p (List.mem_of_mem_drop hp)
    · intro p hp
      exact h.last p (List.mem_of_mem_head? hp)
  | refused =>
    refine ⟨?_, rfl, h.flight, ?_, fun p hp => (by cases hp), h.current, h.valid⟩
    · show (g.hand.toList ++ g.fragments).map Prod.snd = (o.hand.toList ++ o.fragments).map Prod.fst
      rw [List.map_append, List.map_append, h.fragments, ← Option.toList_map, ← Option.toList_map, h.hand]
    · intro p hp
      rcases List.mem_append.mp hp with hp | hp
      · exact h.lastHand p (Option.mem_toList.mp hp)
      · exact h.last p hp
  | sent q payload =>
    obtain ⟨-, f, age, hhand, -⟩ := he
    refine ⟨h.fragments, rfl, ?_, h.last, fun p hp => (by cases hp), ?_, h.valid⟩
    · show g.hand.isSome = true
      rw [← Option.isSome_map (f := Prod.snd), h.hand, hhand]
      rfl
    · intro p hp
      have hlast := h.lastHand p hp
      refine ⟨?_, ?_⟩
      · show p.1 < g.loads
        omega
      · show false = false ↔ p.1 + 1 = g.loads
        exact ⟨fun _ => hlast, fun _ => rfl⟩
  | raised e =>
    exact { h with hand := rfl, lastHand := fun p hp => by cases hp }

theorem Entered.path {o₀ : Outbox} {es H : List Event} (hpath : Outbox.Path o₀ es o)
    (h : Entered (ledger H) (loadedSinceSent H) o₀) : Entered (ledger (H ++ es)) (loadedSinceSent (H ++ es)) o := by
  refine hpath.rel (R := fun H o => Entered (ledger H) (loadedSinceSent H) o) h fun H o e ho he => ?_
  unfold ledger loadedSinceSent
  rw [List.foldl_append, List.foldl_append]
  exact ho.on he

/-! ## The phases of a step that aborts -/

variable {o' v w : Outbox} {X Y : List Event} {now : ℚ}

/-- Outcomes that leave a fragment in flight are not for it. -/
theorem outcomes_before (h : Outbox.Path o X v) (hX : ∀ e ∈ X, e.IsOutcome) {q : Nat} (hv : v.inFlight = some q) :
    v = o ∧ ∀ g, X.foldl Ledger.on g = g := by
  induction h with
  | nil => exact ⟨rfl, fun _ => rfl⟩
  | @snoc es v e _ _ ih =>
    have he : e.IsOutcome := hX e (by simp)
    cases e with
    | unexpected q' =>
      obtain ⟨hvo, hg⟩ := ih (fun e he => hX e (List.mem_append_left _ he)) hv
      refine ⟨hvo, fun g => ?_⟩
      rw [List.foldl_append, hg]
      rfl
    | settled q' completed => cases hv
    | _ => exact he.elim

/-- Outcomes with nothing in flight change nothing. -/
theorem outcomes_after (h : Outbox.Path v Y w) (hY : ∀ e ∈ Y, e.IsOutcome) (hv : v.inFlight = none) :
    w = v ∧ ∀ g, Y.foldl Ledger.on g = g := by
  induction h with
  | nil => exact ⟨rfl, fun _ => rfl⟩
  | @snoc es w e _ hallow ih =>
    obtain ⟨rfl, hg⟩ := ih fun e he => hY e (List.mem_append_left _ he)
    have he : e.IsOutcome := hY e (by simp)
    cases e with
    | unexpected q' =>
      refine ⟨rfl, fun g => ?_⟩
      rw [List.foldl_append, hg]
      rfl
    | settled q' completed => exact absurd (hv.symm.trans hallow) (by simp)
    | _ => exact he.elim

/-- The outcomes of a step that aborts clear the fragments. -/
theorem outcomes_abort (h : Outbox.Path o X o') (hX : ∀ e ∈ X, e.IsOutcome) {q : Nat} {completed : Option Bool}
    (hmem : .settled q completed ∈ X) (hc : completed ≠ some true) :
    o' = { o with inFlight := none, fragments := [] } ∧
      ∀ g, X.foldl Ledger.on g = { g with flight := none, fragments := [] } := by
  obtain ⟨X₁, X₂, rfl⟩ := List.append_of_mem hmem
  obtain ⟨v, hv, hallow, hw⟩ := h.split
  obtain ⟨rfl, hg₁⟩ := outcomes_before hv (fun e he => hX e (List.mem_append_left _ he)) hallow
  obtain ⟨rfl, hg₂⟩ := outcomes_after hw (fun e he => hX e (List.mem_append_right _ (List.mem_cons_of_mem _ he))) rfl
  constructor
  · simp only [Outbox.on, if_neg hc]
  · intro g
    rw [List.foldl_append, hg₁, List.foldl_cons, hg₂]
    simp only [Ledger.on, if_neg hc]

/-- The stale frames are the first of the queue. -/
theorem stales_path (h : Outbox.Path o X o') (hX : ∀ e ∈ X, ∃ f, e = .stale f now) :
    (∃ stale, o = { o' with queue := stale ++ o'.queue } ∧ ∀ f ∈ stale, now - f.receivedAt > 8 / 10) ∧
      ∀ g, X.foldl Ledger.on g = g := by
  induction h with
  | nil => exact ⟨⟨[], rfl, by simp⟩, fun _ => rfl⟩
  | @snoc es v e _ hallow ih =>
    obtain ⟨⟨stale, ho, hold⟩, hg⟩ := ih fun e he => hX e (List.mem_append_left _ he)
    obtain ⟨f, rfl⟩ := hX e (by simp)
    obtain ⟨hhead, hf⟩ := hallow
    obtain ⟨queue, hqueue⟩ : ∃ queue, v.queue = f :: queue := by
      cases hq : v.queue with
      | nil => rw [hq] at hhead; cases hhead
      | cons f' queue =>
        rw [hq] at hhead
        exact ⟨queue, by rw [Option.some.inj hhead]⟩
    refine ⟨⟨stale ++ [f], ?_, ?_⟩, ?_⟩
    · rw [ho]
      simp [Outbox.on, hqueue]
    · intro f' hf'
      rcases List.mem_append.mp hf' with hf' | hf'
      · exact hold f' hf'
      · rw [List.mem_singleton.mp hf']; exact hf
    · intro g
      rw [List.foldl_append, hg]
      rfl

/-- The age of a fragment of a frame that is not stale. -/
theorem ageMs_lt {p : Frame × ℚ} (h : now - p.2 ≤ 8 / 10) : BaseService.ageMs now p < rtcmTransportTtlMs := by
  have hq : (now - p.2) * 1000 ≤ 800 := by linarith
  unfold BaseService.ageMs BaseService.truncate
  generalize (now - p.2) * 1000 = q at hq
  have hnum : q.num ≤ 800 * (q.den : Int) := by
    have hle := (Rat.le_iff q 800).mp hq
    simpa using hle
  have hdiv := Int.tdiv_le_of_le_mul (Int.natCast_pos.mpr q.den_pos) hnum
  simp only [rtcmTransportTtlMs]
  split at hdiv
  · omega
  · omega

/-- A fragment that is not too old is sent or stays. -/
theorem sending_path (h : Outbox.Path o X o') (hX : Sending now X) (hflight : g.flight = none)
    (hyoung : ∀ p, o.fragments.head? = some p → BaseService.ageMs now p < rtcmTransportTtlMs) :
    o'.queue = o.queue ∧ ∀ p, (X.foldl Ledger.on g).Has p ↔ p ∈ g.fragments := by
  have hend := h.foldl
  cases hX with
  | nothing =>
    subst hend
    exact ⟨rfl, fun p => by simp [Ledger.Has, hflight]⟩
  | expired =>
    obtain ⟨⟨-, p, hhead, hold⟩, -⟩ := h.head
    exact absurd (hyoung p hhead) (not_lt.mpr hold)
  | refused f =>
    subst hend
    refine ⟨rfl, fun p => ?_⟩
    cases hg : g.fragments <;> simp [Ledger.Has, Ledger.on, hflight, hg]
  | sent f q payload =>
    subst hend
    refine ⟨rfl, fun p => ?_⟩
    cases hg : g.fragments with
    | nil => simp [Ledger.Has, Ledger.on, hg]
    | cons d ds =>
      simp only [Ledger.Has, Ledger.on, List.foldl_cons, List.foldl_nil, hg, List.drop_one, List.tail_cons,
        List.head?_cons, Option.some.injEq, List.mem_cons]
      exact ⟨fun hp => hp.symm.imp Eq.symm id, fun hp => hp.symm.imp id Eq.symm⟩

/-- With nothing left to send, the first frame of the queue is loaded, and its fragments are there afterwards. -/
theorem load_path (h : Outbox.Path o (X ++ Y) o') (hX : BaseService.IsLoad now X) (hY : Sending now Y)
    (hfragments : o.fragments = []) (hvalid : ∀ f ∈ o.queue, validRtcm3 f.raw = true) (hg : g.fragments = [])
    (hflight : g.flight = none) :
    ∃ loaded, o.queue = loaded ++ o'.queue ∧
      (∀ f ∈ loaded, ∀ d ∈ pieces f.raw o.session (BaseService.nextMessageId o.messageId),
        ((X ++ Y).foldl Ledger.on g).Has (g.loads, d)) ∧
      ∀ p, ((X ++ Y).foldl Ledger.on g).Has p → p.1 = g.loads := by
  obtain ⟨v, hv, hw⟩ := h.unappend
  have hend := hv.foldl
  rw [List.foldl_append]
  rcases hX with rfl | ⟨f, fragments, rfl⟩ | ⟨f, rfl⟩
  · obtain rfl : v = o := hend
    have hyoung : ∀ p, v.fragments.head? = some p → BaseService.ageMs now p < rtcmTransportTtlMs := by
      intro p hp
      rw [hfragments] at hp
      cases hp
    obtain ⟨hq, hhas⟩ := sending_path hw hY hflight hyoung
    refine ⟨[], hq.symm, by simp, fun p hp => ?_⟩
    have hnone := (hhas p).mp hp
    rw [hg] at hnone
    cases hnone
  · obtain ⟨-, -, hhead, hage, hok⟩ := hv.head.1
    obtain ⟨-, rfl⟩ := fragment_ok hok
    have hyoung : ∀ p, v.fragments.head? = some p → BaseService.ageMs now p < rtcmTransportTtlMs := by
      intro p hp
      have hmem := List.mem_of_mem_head? hp
      rw [hend] at hmem
      obtain ⟨d, -, rfl⟩ := List.mem_map.mp hmem
      exact ageMs_lt hage
    obtain ⟨hq, hhas⟩ := sending_path (g := g.on (.loaded f _ now)) hw hY hflight hyoung
    refine ⟨[f], ?_, ?_, fun p hp => ?_⟩
    · rw [hq, hend]
      cases hqueue : o.queue with
      | nil => rw [hqueue] at hhead; cases hhead
      | cons f' queue =>
        rw [hqueue] at hhead
        obtain rfl : f' = f := Option.some.inj hhead
        simp [Outbox.on, hqueue]
    · intro f' hf' d hd
      obtain rfl := List.mem_singleton.mp hf'
      exact (hhas _).mpr (List.mem_map.mpr ⟨d, hd, rfl⟩)
    · obtain ⟨d, -, rfl⟩ := List.mem_map.mp ((hhas p).mp hp)
      rfl
  · obtain ⟨-, hhead, e, herror⟩ := hv.head.1
    have hf : validRtcm3 f.raw = true := hvalid f (List.mem_of_mem_head? hhead)
    rw [fragment_eq hf] at herror
    cases herror

/-- What an abort does: all fragments go, and the first frame that is not stale may be loaded. -/
theorem abort_path {session stales load sending : List Event} (hin : Entered g l o)
    (h : Outbox.Path o (X ++ session ++ stales ++ load ++ sending) o')
    (hs : StepShape now X session stales load sending) {q : Nat} {completed : Option Bool}
    (hmem : .settled q completed ∈ X) (hc : completed ≠ some true) (hsession : session = []) :
    (∃ stale loaded, o.queue = stale ++ loaded ++ o'.queue ∧ (∀ f ∈ stale, now - f.receivedAt > 8 / 10) ∧
      ∀ f ∈ loaded, ∀ d ∈ pieces f.raw o.session (BaseService.nextMessageId o.messageId),
        ((X ++ session ++ stales ++ load ++ sending).foldl Ledger.on g).Has (g.loads, d)) ∧
      ∀ p, ((X ++ session ++ stales ++ load ++ sending).foldl Ledger.on g).Has p → p.1 = g.loads := by
  subst hsession
  rw [List.append_nil, List.append_assoc] at h ⊢
  obtain ⟨o₂, hpath, hload⟩ := h.unappend
  obtain ⟨o₁, houtcomes, hstales⟩ := hpath.unappend
  obtain ⟨rfl, hg₁⟩ := outcomes_abort houtcomes hs.outcomes hmem hc
  obtain ⟨⟨stale, ho, hold⟩, hg₂⟩ := stales_path hstales hs.stales
  have hfirst : (X ++ stales).foldl Ledger.on g = { g with flight := none, fragments := [] } := by
    rw [List.foldl_append, hg₁, hg₂]
  have hfold : (X ++ stales ++ (load ++ sending)).foldl Ledger.on g =
      (load ++ sending).foldl Ledger.on { g with flight := none, fragments := [] } := by
    rw [← hfirst]
    exact List.foldl_append
  rw [hfold]
  simp only [Outbox.mk.injEq] at ho
  obtain ⟨hqueue, hfragments, -, -, hses, hid⟩ := ho
  have hvalid : ∀ f ∈ o₂.queue, validRtcm3 f.raw = true := by
    intro f hf
    exact hin.valid f (by rw [hqueue]; exact List.mem_append_right _ hf)
  obtain ⟨loaded, hq, hpieces, hfresh⟩ := load_path (g := { g with flight := none, fragments := [] }) hload hs.load
    hs.sending hfragments.symm hvalid rfl rfl
  refine ⟨⟨stale, loaded, ?_, hold, ?_⟩, hfresh⟩
  · rw [hqueue, hq, List.append_assoc]
  · rw [hses, hid]
    exact hpieces

/-! ## Every run -/

section Runs

open BaseService

variable [Transport T E] {t : T} {is : List (Input E)} {T₁ T₂ : List (Move (BaseService T) (Input E))}
  {x : Move (BaseService T) (Input E)}

/-- The ledger before a move of a run. -/
theorem entered_before (h : trace next (init t) is = T₁ ++ x :: T₂) :
    ∃ o, Entered (ledger (history T₁)) (loadedSinceSent (history T₁)) o ∧ Shows o x.before ∧ o.hand = none ∧
      x.after = next x.input x.before := by
  obtain ⟨pre, post, -, rfl, hbefore, hafter, -⟩ := trace_split h
  obtain ⟨o, hpath, hshow, hhand⟩ := run_path pre (shows_outbox (init t)) rfl
  have hstart : Entered (ledger []) (loadedSinceSent []) (init t).outbox :=
    { fragments := rfl, hand := rfl, flight := rfl
      last := fun p hp => absurd hp List.not_mem_nil
      lastHand := fun p hp => by cases hp
      current := fun p hp => by cases hp
      valid := fun f hf => absurd hf List.not_mem_nil }
  have hin := Entered.path hpath hstart
  rw [List.nil_append] at hin
  exact ⟨o, hin, hbefore ▸ hshow, hhand, hafter⟩

theorem Entered.labelled {b : BaseService T} (h : Entered g l o) (hs : Shows o b) : Labelled g b :=
  ⟨by rw [hs.fragments]; exact h.fragments, by rw [hs.inFlight]; exact h.flight⟩

/-- What an abort keeps of the other messages. -/
def KeptMove (T₁ : List (Move (BaseService T) (Input E))) (x : Move (BaseService T) (Input E)) (now : ℚ) : Prop :=
  Kept (ledger (history T₁)) (ledger (history T₁ ++ x.after.log)) x now

/-- No message was loaded since the fragment in flight was sent, or there are no fragments to clear. -/
def ClearsOwn (T₁ : List (Move (BaseService T) (Input E))) (x : Move (BaseService T) (Input E)) : Prop :=
  x.before.fragments = [] ∨ loadedSinceSent (history T₁) = false

theorem Entered.loaded (h : Entered g l o) {p q : Nat × Frame} (hp : p ∈ g.fragments) (hq : g.flight = some q) :
    l = false ↔ q.1 = p.1 := by
  have hlast := h.last p hp
  obtain ⟨-, hcurrent⟩ := h.current q hq
  rw [hcurrent]
  omega

/-- The outcomes of a step are in its first phase. -/
theorem StepShape.mem_outcomes {outcomes session stales load sending : List Event}
    (h : StepShape now outcomes session stales load sending) {q : Nat} {completed : Option Bool}
    (hmem : .settled q completed ∈ outcomes ++ session ++ stales ++ load ++ sending) :
    .settled q completed ∈ outcomes := by
  simp only [List.mem_append] at hmem
  rcases hmem with (((hmem | hmem) | hmem) | hmem) | hmem
  · exact hmem
  · rcases h.session with rfl | ⟨s, rfl⟩ <;> simp at hmem
  · obtain ⟨f, hf⟩ := h.stales _ hmem
    cases hf
  · rcases h.load with rfl | ⟨f, fragments, rfl⟩ | ⟨f, rfl⟩ <;> simp at hmem
  · cases h.sending <;> simp at hmem

theorem keptMove_iff (h : trace next (init t) is = T₁ ++ x :: T₂) (ha : Aborts x now) :
    KeptMove T₁ x now ↔ ClearsOwn T₁ x := by
  obtain ⟨⟨io, hinput⟩, ⟨q, completed, hflight, hc, hmem⟩, hsession, hraised⟩ := ha
  obtain ⟨o, hin, hshow, hhand, hafter⟩ := entered_before h
  obtain ⟨o', hpath, hshow', -, hlog⟩ := next_path x.input hshow hhand
  rw [← hafter] at hpath hshow' hlog
  rw [hinput] at hlog
  have hledger : ledger (history T₁ ++ x.after.log) = x.after.log.foldl Ledger.on (ledger (history T₁)) :=
    List.foldl_append
  unfold KeptMove ClearsOwn
  rw [hledger]
  have habort : (∃ stale loaded, x.before.queue = stale ++ loaded ++ x.after.queue ∧
      (∀ f ∈ stale, now - f.receivedAt > 8 / 10) ∧
      ∀ f ∈ loaded, ∀ d ∈ pieces f.raw x.before.session (nextMessageId x.before.messageId),
        (x.after.log.foldl Ledger.on (ledger (history T₁))).Has ((ledger (history T₁)).loads, d)) ∧
      ∀ p, (x.after.log.foldl Ledger.on (ledger (history T₁))).Has p → p.1 = (ledger (history T₁)).loads := by
    rw [hshow.queue, hshow'.queue, hshow.session, hshow.messageId]
    generalize x.after.log = L at hlog hmem hsession hraised hpath
    cases hlog with
    | raised hcut e => exact absurd (List.mem_append_right _ List.mem_cons_self) (hraised e)
    | step hs =>
      refine abort_path hin hpath hs (hs.mem_outcomes hmem) hc ?_
      rcases hs.session with hnil | ⟨s, rfl⟩
      · exact hnil
      · exact absurd (by simp) (hsession s)
  have hlabel := hin.labelled hshow
  generalize ledger (history T₁) = g at hin habort hlabel ⊢
  obtain ⟨f, hf⟩ : ∃ f, g.flight = some f := by
    apply Option.isSome_iff_exists.mp
    rw [hlabel.flight, hflight]
    rfl
  constructor
  · intro hk
    by_cases hnil : x.before.fragments = []
    · exact Or.inl hnil
    · right
      have hne : g.fragments ≠ [] := by
        intro hg
        have hmap := hlabel.fragments
        rw [hg] at hmap
        exact hnil (List.map_eq_nil_iff.mp hmap.symm)
      obtain ⟨p, hp⟩ := List.exists_mem_of_ne_nil _ hne
      rw [hin.loaded hp hf]
      by_contra hother
      have hhas := hk.fragments p hp (by rw [hf]; simpa using hother)
      have hfresh := habort.2 p hhas
      have hlast := hin.last p hp
      omega
  · intro hown
    refine ⟨?_, habort.1⟩
    intro p hp hother
    rcases hown with hnil | hown
    · have hmap := hlabel.fragments
      rw [hnil, List.map_nil, List.map_eq_nil_iff] at hmap
      rw [hmap] at hp
      exact absurd hp List.not_mem_nil
    · have hsame := (hin.loaded hp hf).mp hown
      exact absurd (by rw [hf, ← hsame]; rfl) hother

/-- **An aborted message and the others**: in every run, every abort leaves the other messages alone if and only if
every abort happens while no message was loaded since the fragment in flight was sent, or with no fragments left. -/
theorem abort_keeps_others_iff (t : T) (is : List (Input E)) :
    (∀ T₁ x T₂, trace next (init t) is = T₁ ++ x :: T₂ → Labelled (ledger (history T₁)) x.before) ∧
      ((∀ T₁ x T₂ now, trace next (init t) is = T₁ ++ x :: T₂ → Aborts x now → KeptMove T₁ x now) ↔
        ∀ T₁ x T₂ now, trace next (init t) is = T₁ ++ x :: T₂ → Aborts x now → ClearsOwn T₁ x) := by
  refine ⟨?_, ?_, ?_⟩
  · intro T₁ x T₂ h
    obtain ⟨o, hin, hshow, -⟩ := entered_before h
    exact hin.labelled hshow
  · intro hkept T₁ x T₂ now h ha
    exact (keptMove_iff h ha).mp (hkept T₁ x T₂ now h ha)
  · intro hown T₁ x T₂ now h ha
    exact (keptMove_iff h ha).mpr (hown T₁ x T₂ now h ha)

end Runs

/-! ## A message that is lost -/

/-- A transport that does as it is told: the outcomes it reports at a tick, and what it answers to a send. -/
structure Script where
  outcomes : List Outcome := []
  session : Nat := 1

instance : Transport Script (List Outcome × Option Nat) where
  tick io _ := fun s => (.ok [], { s with outcomes := io.1 })
  takeTxOutcomes := fun s => (.ok s.outcomes, { s with outcomes := [] })
  sendAir io _ := fun s => (.ok io.2, s)
  session := Script.session
  connected _ := true
  readyForSend _ := true

/-- Two frames of one fragment each: the second is loaded while the first is in flight, and lost with it. -/
def lostRun : List (Input (List Outcome × Option Nat)) :=
  [.ingest [0xd3, 0, 0, 0x47, 0xea, 0x4b, 0xd3, 0, 0, 0x47, 0xea, 0x4b] 0, .step ([], some 1) 0, .step ([], none) 0,
    .step ([(1, none)], none) 0]

theorem abort_takes_next : ¬ ∀ T₁ x T₂ now,
    trace BaseService.next (BaseService.init ({} : Script)) lostRun = T₁ ++ x :: T₂ → Aborts x now →
      KeptMove T₁ x now := by
  intro hall
  let s := run BaseService.next (BaseService.init ({} : Script)) (lostRun.take 3)
  let i : Input (List Outcome × Option Nat) := .step ([(1, none)], none) 0
  have h : trace BaseService.next (BaseService.init ({} : Script)) lostRun =
      trace BaseService.next (BaseService.init ({} : Script)) (lostRun.take 3) ++ ⟨s, i, BaseService.next i s⟩ :: [] := by
    have hsplit : lostRun = lostRun.take 3 ++ [i] := rfl
    nth_rewrite 1 [hsplit]
    exact trace_append _ _ _
  have hlog : (BaseService.next i s).log = [.settled 1 none] := by decide +kernel
  have hflight : s.inFlight = some 1 := by decide +kernel
  have ha : Aborts ⟨s, i, BaseService.next i s⟩ 0 := by
    refine ⟨⟨_, rfl⟩, ⟨1, none, hflight, by decide, ?_⟩, fun ses => ?_, fun e => ?_⟩ <;> simp [hlog]
  rcases (keptMove_iff h ha).mp (hall _ _ _ 0 h ha) with hnil | hloaded
  · have hne : s.fragments ≠ [] := by decide +kernel
    exact hne hnil
  · revert hloaded
    decide +kernel

end LoraLink.Service
