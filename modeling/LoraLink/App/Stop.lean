import LoraLink.App.Codec
import LoraLink.Lib.Dict
import LoraLink.Lib.Run
import Mathlib.Data.List.Nodup

/-!
# STOP requests

`StopCache` of `application.py`: what a receiver remembers of the STOP requests it has answered. The cache has the
answers to the last 64 keys, and for each sender the highest id of a request that was current, well addressed and a
STOP.

- `apply_cases`: what a call of `apply` does, in two cases;
- `stop_applied_once`: over any run of calls, no request is applied twice, and none that it should not be.
-/

namespace LoraLink.Application

def stopRequest : Int := 0x10
def stopCommand : Nat := 1

/-- `ACK_APPLIED` to `ACK_STALE_ID`. -/
inductive AckResult
  | applied
  | alreadyStopped
  | expired
  | wrongTargetSession
  | unsupportedCommand
  | idConflict
  | staleId
deriving DecidableEq, Repr

/-- `STATE_UNKNOWN` to `STATE_STOPPED`. -/
inductive MockState
  | unknown
  | running
  | stopped
deriving DecidableEq, Repr

structure StopRequestBody where
  targetSession : Nat
  command : Nat
  reason : Nat
deriving DecidableEq, Repr

structure StopDecision where
  result : AckResult
  state : MockState
  appliedNow : Bool
deriving DecidableEq, Repr

def decodeStop (body : Bytes) : Except ApplicationError StopRequestBody :=
  if body.length ≠ 6 then .error .stopBody
  else
    .ok { targetSession := u32 body, command := (byteAt body 4).toNat, reason := (byteAt body 5).toNat }

structure StopCache where
  localSession : Int
  ttlMs : Int
  state : MockState := .running
  highWater : List (Int × Int) := []
  cache : List ((Int × Int) × (Bytes × AckResult × MockState)) := []
  applyCount : Nat := 0

namespace StopCache

/-- `StopCache(local_session, ttl_ms)`. -/
def new (localSession : Int) (ttlMs : Int := 2000) : Except ApplicationError StopCache :=
  if ¬ (0 < localSession ∧ localSession ≤ 0xffffffff) then .error .localSession
  else .ok { localSession := localSession, ttlMs := ttlMs }

def remember (f : Frame) (result : AckResult) (c : StopCache) : StopDecision × StopCache :=
  let key := (f.senderSession, f.messageId)
  let cache := popKey c.cache key ++ [(key, (f.body, result, c.state))]
  ({ result := result, state := c.state, appliedNow := false }, { c with cache := cache.drop (cache.length - 64) })

/-- `self.high_water.get(sender, 0)`. -/
def highWaterOf (c : StopCache) (sender : Int) : Int := (c.highWater.lookup sender).getD 0

/-- The part of `apply` on a request that is not in the cache. -/
def applyNew (f : Frame) (c : StopCache) : StopDecision × StopCache :=
  match decodeStop f.body with
  | .error _ => c.remember f .unsupportedCommand
  | .ok request =>
    if (request.targetSession : Int) ≠ c.localSession then c.remember f .wrongTargetSession
    else if request.command ≠ stopCommand then c.remember f .unsupportedCommand
    else if f.sourceAgeMs > c.ttlMs then c.remember f .expired
    else if f.messageId ≤ c.highWaterOf f.senderSession then
      ({ result := .staleId, state := c.state, appliedNow := false }, c)
    else
      let c := { c with highWater := setKey c.highWater f.senderSession f.messageId }
      if c.state = .stopped then c.remember f .alreadyStopped
      else
        let (decision, c) := { c with state := .stopped, applyCount := c.applyCount + 1 }.remember f .applied
        ({ decision with appliedNow := true }, c)

def apply (f : Frame) (c : StopCache) : Except ApplicationError StopDecision × StopCache :=
  if f.typ ≠ stopRequest then (.error .notAStopRequest, c)
  else
    match c.cache.lookup (f.senderSession, f.messageId) with
    | some (body, result, state) =>
      if body ≠ f.body then (.ok { result := .idConflict, state := c.state, appliedNow := false }, c)
      else (.ok { result := result, state := state, appliedNow := false }, c)
    | none =>
      let (decision, c) := c.applyNew f
      (.ok decision, c)

def resetMockState (c : StopCache) : StopCache := { c with state := .running }

/-! ## What a call does -/

/-- The request is for this receiver, a STOP, and current. -/
def Legitimate (c : StopCache) (f : Frame) : Prop :=
  (∃ request, decodeStop f.body = .ok request ∧ (request.targetSession : Int) = c.localSession ∧
    request.command = stopCommand) ∧ f.sourceAgeMs ≤ c.ttlMs

/-- A request is applied. -/
structure Applies (f : Frame) (c : StopCache) (out : Except ApplicationError StopDecision × StopCache) : Prop where
  decision : out.1 = .ok { result := .applied, state := .stopped, appliedNow := true }
  legitimate : c.Legitimate f
  running : c.state ≠ .stopped
  above : c.highWaterOf f.senderSession < f.messageId
  config : out.2.localSession = c.localSession ∧ out.2.ttlMs = c.ttlMs
  stopped : out.2.state = .stopped
  count : out.2.applyCount = c.applyCount + 1
  mark : ∀ sender, out.2.highWaterOf sender = if sender = f.senderSession then f.messageId else c.highWaterOf sender
  bound : c.cache.length ≤ 64 → out.2.cache.length ≤ 64

/-- Nothing is applied. -/
structure Leaves (c : StopCache) (out : Except ApplicationError StopDecision × StopCache) : Prop where
  decision : ∀ d, out.1 = .ok d → d.appliedNow = false
  config : out.2.localSession = c.localSession ∧ out.2.ttlMs = c.ttlMs
  state : out.2.state = c.state
  count : out.2.applyCount = c.applyCount
  mark : ∀ sender, c.highWaterOf sender ≤ out.2.highWaterOf sender
  bound : c.cache.length ≤ 64 → out.2.cache.length ≤ 64

variable {c : StopCache} {f : Frame}

theorem length_remember (f : Frame) (result : AckResult) (c : StopCache) : (c.remember f result).2.cache.length ≤ 64 := by
  simp only [remember, List.length_drop]
  omega

theorem leaves_remember (f : Frame) (result : AckResult) (c : StopCache) :
    Leaves c (.ok (c.remember f result).1, (c.remember f result).2) :=
  ⟨fun _ hd => by cases hd; rfl, ⟨rfl, rfl⟩, rfl, rfl, fun _ => le_refl _, fun _ => length_remember f result c⟩

theorem highWaterOf_set (c : StopCache) (f : Frame) (sender : Int) :
    { c with highWater := setKey c.highWater f.senderSession f.messageId }.highWaterOf sender =
      if sender = f.senderSession then f.messageId else c.highWaterOf sender := by
  unfold highWaterOf
  simp only
  split
  · rename_i heq
    rw [heq, lookup_setKey_self]
    rfl
  · rename_i hne
    rw [lookup_setKey_ne _ hne]

theorem applyNew_cases (f : Frame) (c : StopCache) :
    Applies f c (.ok (c.applyNew f).1, (c.applyNew f).2) ∨ Leaves c (.ok (c.applyNew f).1, (c.applyNew f).2) := by
  unfold applyNew
  rcases hdecode : decodeStop f.body with _ | request <;> simp only
  · exact Or.inr (leaves_remember _ _ _)
  · split
    · exact Or.inr (leaves_remember _ _ _)
    · rename_i htarget
      split
      · exact Or.inr (leaves_remember _ _ _)
      · rename_i hcommand
        split
        · exact Or.inr (leaves_remember _ _ _)
        · rename_i hage
          split
          · exact Or.inr ⟨fun _ hd => by cases hd; rfl, ⟨rfl, rfl⟩, rfl, rfl, fun _ => le_refl _, id⟩
          · rename_i habove
            rw [not_le] at habove
            split
            · -- the mark rises all the same
              refine Or.inr ⟨fun _ hd => by cases hd; rfl, ⟨rfl, rfl⟩, rfl, rfl, fun sender => ?_,
                fun _ => length_remember f _ _⟩
              have hmark := highWaterOf_set c f sender
              refine le_of_le_of_eq ?_ hmark.symm
              split
              · rename_i heq
                rw [heq]
                exact le_of_lt habove
              · exact le_refl _
            · rename_i hrunning
              exact Or.inl ⟨rfl, ⟨⟨request, hdecode, not_not.mp htarget, not_not.mp hcommand⟩, not_lt.mp hage⟩, hrunning,
                habove, ⟨rfl, rfl⟩, rfl, rfl, fun sender => highWaterOf_set c f sender, fun _ => length_remember f _ _⟩

/-- What a call of `apply` does, in two cases. -/
theorem apply_cases (f : Frame) (c : StopCache) : Applies f c (c.apply f) ∨ Leaves c (c.apply f) := by
  unfold apply
  split
  · refine Or.inr ⟨fun d hd => ?_, ⟨rfl, rfl⟩, rfl, rfl, fun _ => le_refl _, id⟩
    cases hd
  · split
    · split
      · exact Or.inr ⟨fun _ hd => by cases hd; rfl, ⟨rfl, rfl⟩, rfl, rfl, fun _ => le_refl _, id⟩
      · exact Or.inr ⟨fun _ hd => by cases hd; rfl, ⟨rfl, rfl⟩, rfl, rfl, fun _ => le_refl _, id⟩
    · exact applyNew_cases f c

/-! ## Runs -/

inductive Call
  | apply (f : Frame)
  | resetMockState

def next (call : Call) (c : StopCache) : StopCache :=
  match call with
  | .apply f => (c.apply f).2
  | .resetMockState => c.resetMockState

/-- The request that the call applies. -/
def applied (x : Move StopCache Call) : List (Int × Int) :=
  match x.input with
  | .apply f =>
    match (x.before.apply f).1 with
    | .ok d => if d.appliedNow then [(f.senderSession, f.messageId)] else []
    | .error _ => []
  | .resetMockState => []

/-- The requests that were applied, in order. -/
abbrev appliedIn (T : List (Move StopCache Call)) : List (Int × Int) := outputs applied T

/-- The ids of a sender. -/
def idsOf (sender : Int) (H : List (Int × Int)) : List Int := (H.filter fun k => k.1 = sender).map Prod.snd

theorem applied_of_applies {f : Frame} (h : Applies f c (c.apply f)) :
    applied ⟨c, .apply f, (c.apply f).2⟩ = [(f.senderSession, f.messageId)] := by
  simp only [applied, h.decision, if_true]

theorem applied_of_leaves {f : Frame} (h : Leaves c (c.apply f)) : applied ⟨c, .apply f, (c.apply f).2⟩ = [] := by
  show (match (c.apply f).1 with
    | .ok d => if d.appliedNow then [(f.senderSession, f.messageId)] else []
    | .error _ => []) = []
  rcases hd : (c.apply f).1 with e | d
  · rfl
  · simp only [h.decision d hd, Bool.false_eq_true, if_false]

/-- What holds of a receiver that has applied the requests of `H`. -/
structure Remembers (localSession ttlMs : Int) (H : List (Int × Int)) (c : StopCache) : Prop where
  config : c.localSession = localSession ∧ c.ttlMs = ttlMs
  state : c.state = .running ∨ c.state = .stopped
  marks : ∀ k ∈ H, k.2 ≤ c.highWaterOf k.1
  nodup : H.Nodup
  increasing : ∀ sender, (idsOf sender H).Pairwise (· < ·)
  count : c.applyCount = H.length
  bound : c.cache.length ≤ 64

theorem remembers_next {localSession ttlMs : Int} {H : List (Int × Int)} (h : Remembers localSession ttlMs H c)
    (call : Call) : Remembers localSession ttlMs (H ++ applied ⟨c, call, next call c⟩) (next call c) := by
  cases call with
  | resetMockState =>
    show Remembers localSession ttlMs (H ++ []) c.resetMockState
    rw [List.append_nil]
    exact ⟨h.config, Or.inl rfl, h.marks, h.nodup, h.increasing, h.count, h.bound⟩
  | apply f =>
    rcases apply_cases f c with happly | hleave
    · show Remembers localSession ttlMs (H ++ applied ⟨c, .apply f, (c.apply f).2⟩) (c.apply f).2
      rw [applied_of_applies happly]
      refine ⟨⟨happly.config.1.trans h.config.1, happly.config.2.trans h.config.2⟩, Or.inr happly.stopped, ?_, ?_, ?_, ?_,
        happly.bound h.bound⟩
      · intro k hk
        rw [happly.mark]
        rcases List.mem_append.mp hk with hk | hk
        · split
          · rename_i hsender
            have hmark := h.marks k hk
            rw [hsender] at hmark
            exact hmark.trans (le_of_lt happly.above)
          · exact h.marks k hk
        · obtain rfl := List.mem_singleton.mp hk
          rw [if_pos rfl]
      · apply List.nodup_append.mpr
        refine ⟨h.nodup, by simp, ?_⟩
        rintro k hk k' hk' rfl
        obtain rfl := List.mem_singleton.mp hk'
        exact absurd (h.marks _ hk) (not_le.mpr happly.above)
      · intro sender
        rw [idsOf, List.filter_append, List.map_append]
        apply List.pairwise_append.mpr
        refine ⟨h.increasing sender, ?_, ?_⟩
        · rw [List.filter_cons]
          split
          · exact List.pairwise_singleton _ _
          · exact List.Pairwise.nil
        · intro i hi j hj
          obtain ⟨k, hk, rfl⟩ := List.mem_map.mp hi
          obtain ⟨k', hk', rfl⟩ := List.mem_map.mp hj
          obtain ⟨hmem, hsender⟩ := List.mem_filter.mp hk
          obtain ⟨hmem', hsender'⟩ := List.mem_filter.mp hk'
          obtain rfl := List.mem_singleton.mp hmem'
          have hmark := h.marks k hmem
          rw [of_decide_eq_true hsender, ← of_decide_eq_true hsender'] at hmark
          exact hmark.trans_lt happly.above
      · rw [happly.count, h.count, List.length_append, List.length_singleton]
    · show Remembers localSession ttlMs (H ++ applied ⟨c, .apply f, (c.apply f).2⟩) (c.apply f).2
      rw [applied_of_leaves hleave, List.append_nil]
      exact ⟨⟨hleave.config.1.trans h.config.1, hleave.config.2.trans h.config.2⟩, hleave.state ▸ h.state,
        fun k hk => (h.marks k hk).trans (hleave.mark k.1), h.nodup, h.increasing, hleave.count.trans h.count,
        hleave.bound h.bound⟩

theorem remembers_new {localSession ttlMs : Int} (h : new localSession ttlMs = .ok c) :
    Remembers localSession ttlMs [] c := by
  unfold new at h
  split at h
  · cases h
  · cases h
    exact ⟨⟨rfl, rfl⟩, Or.inl rfl, fun k hk => absurd hk List.not_mem_nil, List.nodup_nil,
      fun _ => List.Pairwise.nil, rfl, Nat.zero_le _⟩

/-- A request is applied only if it may be, and a state changes only as it should. -/
structure Proper (localSession ttlMs : Int) (x : Move StopCache Call) : Prop where
  legitimate : ∀ f, x.input = .apply f → applied x ≠ [] → x.before.state = .running ∧
    (∃ request, decodeStop f.body = .ok request ∧ (request.targetSession : Int) = localSession ∧
      request.command = stopCommand) ∧ f.sourceAgeMs ≤ ttlMs
  stops : x.before.state = .running ∧ x.after.state = .stopped ↔ applied x ≠ []
  resumes : x.before.state = .stopped ∧ x.after.state = .running → x.input = .resetMockState

theorem proper_next {localSession ttlMs : Int} {H : List (Int × Int)} (h : Remembers localSession ttlMs H c)
    (call : Call) : Proper localSession ttlMs ⟨c, call, next call c⟩ := by
  cases call with
  | resetMockState =>
    refine ⟨fun f hf => (by cases hf), ⟨?_, fun hnot => absurd rfl hnot⟩, fun _ => rfl⟩
    rintro ⟨-, hstopped⟩
    cases hstopped
  | apply f =>
    rcases apply_cases f c with happly | hleave
    · have hmove : applied ⟨c, .apply f, next (.apply f) c⟩ ≠ [] := by
        rw [show next (.apply f) c = (c.apply f).2 from rfl, applied_of_applies happly]
        exact List.cons_ne_nil _ _
      have hrunning : c.state = .running := h.state.resolve_right happly.running
      refine ⟨fun g hg _ => ?_, ⟨fun _ => hmove, fun _ => ⟨hrunning, happly.stopped⟩⟩, ?_⟩
      · cases hg
        obtain ⟨hrequest, hage⟩ := happly.legitimate
        rw [h.config.1] at hrequest
        rw [h.config.2] at hage
        exact ⟨hrunning, hrequest, hage⟩
      · rintro ⟨hstopped, -⟩
        exact absurd hstopped happly.running
    · have hmove : applied ⟨c, .apply f, next (.apply f) c⟩ = [] := applied_of_leaves hleave
      have hstate : (next (.apply f) c).state = c.state := hleave.state
      refine ⟨fun g _ hnot => absurd hmove hnot, ⟨?_, fun hnot => absurd hmove hnot⟩, ?_⟩
      · rintro ⟨hrunning, hstopped⟩
        simp only [hstate] at hstopped
        cases hrunning.symm.trans hstopped
      · rintro ⟨hstopped, hrunning⟩
        simp only [hstate] at hrunning
        cases hstopped.symm.trans hrunning

/-- **STOP is applied at most once.** The ids that a receiver applies for one sender increase, so no request is applied
twice; each request it applies came while the mock state was running, was for this receiver, a STOP and current; the
mock state is stopped by these and set running by `reset_mock_state` only; they are counted, and the cache is bounded. -/
theorem stop_applied_once {localSession ttlMs : Int} (hnew : new localSession ttlMs = .ok c) (calls : List Call) :
    (∀ sender, (idsOf sender (appliedIn (trace next c calls))).Pairwise (· < ·)) ∧
      (appliedIn (trace next c calls)).Nodup ∧ (∀ x ∈ trace next c calls, Proper localSession ttlMs x) ∧
      (run next c calls).applyCount = (appliedIn (trace next c calls)).length ∧
      (run next c calls).cache.length ≤ 64 := by
  have hrun := run_rel (P := Remembers localSession ttlMs) (G := fun _ => True) (f := applied) (remembers_new hnew)
    (fun H call c h _ => remembers_next h call) calls (fun _ _ => trivial)
  rw [List.nil_append] at hrun
  refine ⟨hrun.increasing, hrun.nodup, fun x hx => ?_, hrun.count, hrun.bound⟩
  obtain ⟨T₁, T₂, hT⟩ := List.append_of_mem hx
  have hbefore := trace_rel (P := Remembers localSession ttlMs) (G := fun _ => True) (f := applied) (remembers_new hnew)
    (fun H call c h _ => remembers_next h call) hT (fun _ _ => trivial)
  have hafter := trace_step hx
  obtain ⟨before, call, after⟩ := x
  obtain rfl : after = next call before := hafter
  exact proper_next hbefore call

/-- A STOP is applied, sent again, and its successor applied after the mock state was set running. -/
def threeStops : List Call :=
  let stop := fun id : Int => Call.apply
    { typ := 0x10, senderSession := 7, messageId := id, sourceAgeMs := 0, body := [0, 0, 0, 99, 1, 0] }
  [stop 1, stop 1, .resetMockState, stop 2]

theorem stop_applied_once_threeStops : appliedIn (trace next { localSession := 99, ttlMs := 2000 } threeStops) =
      [(7, 1), (7, 2)] ∧
    (appliedIn (trace next { localSession := 99, ttlMs := 2000 } threeStops)).Nodup :=
  ⟨by decide +kernel, (stop_applied_once (show new 99 2000 = .ok { localSession := 99, ttlMs := 2000 } from rfl)
    threeStops).2.1⟩

end StopCache

end LoraLink.Application
